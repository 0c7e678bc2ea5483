import EbLang.Constant.Eval
import EbLang.Resolve.Names
import EbLang.Tree

/-!
# Declaring the items of a file

Items may refer to one another in any order, so they are declared in rounds over the whole file:
first structs, so that every type is known, then imports, then the members of structs with their
constructors, and last functions and globals.
-/

namespace EbLang.Resolving

variable {σ τ : Type}

/-- The mangled name of an item: the path of its module, its name, and what tells it apart. -/
def mangle (home name : String) (others : List Nat) : String :=
  joinName (home :: name :: others.map toString)

def homeOf (scope : ModulePath) : Resolving σ String := return (← get).decls.dottedPath scope

def nextOverload (scope : ModulePath) (name : String) (arity : Nat) : Resolving σ Nat :=
  return ((← get).decls.overloads scope name arity).length

/-! ## Structs -/

def declareStruct (scope : ModulePath) (s : StructItem) : Resolving σ StructItem := do
  let home ← homeOf scope
  let ref : StructRef :=
    ⟨s.name, mangle home s.name [], s.isPub, (← get).shared.structs.nextRow⟩
  onStructs StructTable.addRow
  onModule scope s.span.start (·.addStruct ref)
  return { s with ref := some ref }

mutual

def declareStructs (scope : ModulePath) : List (Item τ) → Resolving σ (List (Item τ))
  | [] => return []
  | i :: is => do
    let i ← declareStructsOf scope i
    let is ← declareStructs scope is
    return i :: is

/-- Declares the structs of an item.  A module is entered first, so that it is known even if it is
empty. -/
def declareStructsOf (scope : ModulePath) : Item τ → Resolving σ (Item τ)
  | .struct s => return .struct (← declareStruct scope s)
  | .submodule name items isPub isExtend span => do
    modify fun n => { n with decls := n.decls.enter (scope ++ [name]) }
    let items ← declareStructs (scope ++ [name]) items
    return .submodule name items isPub isExtend span
  | .function f => return .function f
  | .imports i => return .imports i
  | .global g => return .global g

end

/-! ## Imports -/

/-- Imports a module of a file. -/
def declareImport (loader : Loader σ) (span : Span) (path : List String) :
    Resolving σ Unit := do
  match path with
  | [] => return
  | file :: below =>
    let decls ← importFile loader file below span.start
    if !decls.has below then failAt span.start (.unknownModule (joinName path))

mutual

def declareImports (loader : Loader σ) : List (Item τ) → Resolving σ Unit
  | [] => return
  | i :: is => do
    declareImportsOf loader i
    declareImports loader is

def declareImportsOf (loader : Loader σ) : Item τ → Resolving σ Unit
  | .imports i => i.paths.forM (declareImport loader i.span)
  | .submodule _ items _ _ _ => declareImports loader items
  | .function _ | .global _ | .struct _ => return

end

/-! ## Members and constructors -/

def constructorOf (structs : StructTable) (home : String) (s : StructItem) (ref : StructRef)
    (members : List Member) (index : Nat) : Signature where
  name := s.name
  mangled := mangle home s.name [0, index]
  params := []
  named := members.map fun m => ⟨m.name, m.ty, Constant.zeroOf structs m.ty⟩
  result := .struct ref
  form := .constructor
  isPub := s.isPub
  home := home
  span := s.span

def declareMembers (loader : Loader σ) (scope : ModulePath) (s : StructItem) :
    Resolving σ Unit := do
  match s.ref with
  | none => return
  | some ref =>
    let members ← s.members.mapM fun f => do
      return (⟨f.name, ← typeNamed loader scope f.ty⟩ : Member)
    let before := (← get).shared.structs
    onStructs (·.setMembers ref members)
    let index ← nextOverload scope s.name 0
    let signature := constructorOf before (← homeOf scope) s ref members index
    onModule scope s.span.start (·.addFunction signature)

mutual

/-- Fills in the structs of some items. -/
def declareAllMembers (loader : Loader σ) (scope : ModulePath) :
    List (Item τ) → Resolving σ Unit
  | [] => return
  | i :: is => do
    declareMembersOf loader scope i
    declareAllMembers loader scope is

/-- Fills in the structs of an item. -/
def declareMembersOf (loader : Loader σ) (scope : ModulePath) : Item τ → Resolving σ Unit
  | .struct s => declareMembers loader scope s
  | .submodule name items _ _ _ => declareAllMembers loader (scope ++ [name]) items
  | .function _ | .imports _ | .global _ => return

end

/-! ## Functions and globals -/

def namedParameter (loader : Loader σ) (scope : ModulePath) (f : NamedField) :
    Resolving σ NamedParameter := do
  let ty ← typeNamed loader scope f.ty
  match f.default with
  | some default =>
    let (value, _) ← located default.span.start (Constant.evalAs default (some ty))
    return ⟨f.name, ty, value⟩
  | none => return ⟨f.name, ty, Constant.zeroOf (← get).shared.structs ty⟩

def declareFunction (loader : Loader σ) (scope : ModulePath) (f : FunctionItem τ) :
    Resolving σ (FunctionItem τ) := do
  let home ← homeOf scope
  let params ← f.params.mapM fun p => do
    return (⟨p.name, ← typeNamed loader scope p.ty⟩ : Parameter)
  let named ← f.named.mapM (namedParameter loader scope)
  let result ← resultNamed loader scope f.result
  let index ← nextOverload scope f.name params.length
  let signature : Signature :=
    { name := f.name
      mangled := mangle home f.name [params.length, index]
      params, named, result
      form := .user
      isPub := f.isPub
      home
      span := f.span }
  onModule scope f.span.start (·.addFunction signature)
  return { f with signature := some signature }

def declareGlobal (loader : Loader σ) (scope : ModulePath) (g : GlobalItem) :
    Resolving σ GlobalItem := do
  let home ← homeOf scope
  let declared ← g.ty.mapM (typeNamed loader scope)
  let (value, ty) ← located g.init.span.start (Constant.evalAs g.init declared)
  let decl : Global :=
    { name := g.name, mangled := mangle home g.name [], ty, value
      isConst := g.isConst, isPub := g.isPub, home }
  onModule scope g.span.start (·.addGlobal decl)
  return { g with decl := some decl }

mutual

/-- Declares the functions and globals of some items. -/
def declareValues (loader : Loader σ) (scope : ModulePath) :
    List (Item τ) → Resolving σ (List (Item τ))
  | [] => return []
  | i :: is => do
    let i ← declareValuesOf loader scope i
    let is ← declareValues loader scope is
    return i :: is

def declareValuesOf (loader : Loader σ) (scope : ModulePath) : Item τ → Resolving σ (Item τ)
  | .function f => return .function (← declareFunction loader scope f)
  | .global g => return .global (← declareGlobal loader scope g)
  | .submodule name items isPub isExtend span => do
    let items ← declareValues loader (scope ++ [name]) items
    return .submodule name items isPub isExtend span
  | .imports i => return .imports i
  | .struct s => return .struct s

end

end EbLang.Resolving
