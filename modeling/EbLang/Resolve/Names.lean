import EbLang.Declarations
import EbLang.Scopes

/-!
# Names in view

While a file is resolved, the names in view are those it declares itself, those of the files it
imports, and the variables of the function at hand.  Files are imported through a `Loader`, which
may have to analyse them first; the members of all structs and the loader's own state are shared by
all files of a program.
-/

namespace EbLang

variable {σ α : Type}

/-- What the files of a program share. -/
structure Shared (σ : Type) where
  structs : StructTable
  /-- The state of the loader. -/
  world : σ

/-- A computation on what the files of a program share.  It keeps its changes when it fails. -/
abbrev Loading (σ : Type) := ExceptT Error (StateM (Shared σ))

/-- Gives what the file of the given name declares; the position is that of the import. -/
abbrev Loader (σ : Type) := String → Position → Loading σ Declarations

/-- The names in view in a file. -/
structure Names (σ : Type) where
  shared : Shared σ
  decls : Declarations
  /-- The modules it imports, in order. -/
  imports : List Import := []
  /-- The items of other files it refers to. -/
  externals : Externals := {}
  /-- The variables of its functions. -/
  scopes : Scopes := {}

/-- A computation on the names in view. -/
abbrev Resolving (σ : Type) := ExceptT Error (StateM (Names σ))

namespace Resolving

/-- Fails at a position. -/
def failAt (position : Position) (fault : Fault) : Resolving σ α := throw ⟨fault, position⟩

/-- Gives a fault its position. -/
def located (position : Position) : Except Fault α → Resolving σ α
  | .ok a => return a
  | .error fault => failAt position fault

/-- Fails where there is nothing. -/
def orFail (position : Position) (fault : Fault) : Option α → Resolving σ α
  | some a => return a
  | none => failAt position fault

/-- A computation on what is shared. -/
def lift (x : Loading σ α) : Resolving σ α := ExceptT.mk do
  let names ← get
  let (result, shared) := x.run.run names.shared
  set { names with shared }
  return result

/-- Resolves a file from an empty start. -/
def runIn (file : String) (x : Resolving σ α) : Loading σ (α × Names σ) := ExceptT.mk do
  let (result, names) := x.run.run { shared := ← get, decls := .new file }
  set names.shared
  return result.map fun a => (a, names)

/-- Changes the items of other files referred to. -/
def onExternals (f : Externals → Externals) : Resolving σ Unit :=
  modify fun n => { n with externals := f n.externals }

/-- Changes the members of structs. -/
def onStructs (f : StructTable → StructTable) : Resolving σ Unit :=
  modify fun n => { n with shared := { n.shared with structs := f n.shared.structs } }

/-- Changes the module of the file at a path; a fault is one at the given position. -/
def onModule (path : ModulePath) (position : Position)
    (f : ModuleMembers → Except Fault ModuleMembers) : Resolving σ Unit := do
  let decls ← located position ((← get).decls.change path f)
  modify fun n => { n with decls }

end Resolving

/-! ## Modules by name -/

/-- A module that a name was found to stand for. -/
inductive ModuleRef where
  /-- A module of the file itself. -/
  | inside (path : ModulePath)
  /-- A module of another file. -/
  | outside (decls : Declarations) (path : ModulePath)

namespace ModuleRef

/-- Whether a module is of another file. -/
def isOutside : ModuleRef → Bool
  | inside _ => false
  | outside _ _ => true

/-- What a module declares. -/
def members? (own : Declarations) : ModuleRef → Option ModuleMembers
  | inside path => own.find? path
  | outside decls path => decls.find? path

end ModuleRef

/-- The modules around a path and its own, innermost first. -/
def enclosing (scope : ModulePath) : List ModulePath :=
  (List.range (scope.length + 1)).reverse.map scope.take

/-- Where an imported file has the module that a name stands for: the name may begin with the import
in full, or with the last part of its path. -/
def Import.reach? (i : Import) (parts : List String) : Option ModulePath :=
  let byFullPath := i.path ++ parts.drop i.fullPath.length
  let byLastPart := i.path ++ parts.drop 1
  if i.fullPath.isPrefixOf parts && i.decls.has byFullPath then some byFullPath
  else if !i.path.isEmpty && i.path.getLast? == parts.head? && i.decls.has byLastPart then
    some byLastPart
  else none

namespace Resolving

/-- What an imported file declares; a file is loaded when it is first imported. -/
def importFile (loader : Loader σ) (file : String) (path : ModulePath) (position : Position) :
    Resolving σ Declarations := do
  match (← get).imports.find? fun i => i.file == file with
  | some known =>
    if !(← get).imports.any fun i => i.file == file && i.path == path then
      modify fun n => { n with imports := n.imports ++ [⟨file, path, known.decls⟩] }
    return known.decls
  | none =>
    let decls ← lift (loader file position)
    modify fun n => { n with imports := n.imports ++ [⟨file, path, decls⟩] }
    return decls

/-- The module that a name stands for in a module of the file.  Modules of the file come first, the
innermost before those around it, then modules of imports; at last a file of that name is loaded. -/
def findModule (loader : Loader σ) (scope : ModulePath) (parts : List String)
    (position : Position) : Resolving σ ModuleRef := do
  let names ← get
  if let some path := ((enclosing scope).map (· ++ parts)).find? names.decls.has then
    return .inside path
  let reached := names.imports.findSome? fun i =>
    (i.reach? parts).map fun path => ModuleRef.outside i.decls path
  if let some m := reached then return m
  let unknown := Fault.unknownModule (joinName parts)
  match parts with
  | [] => failAt position unknown
  | file :: path =>
    if names.imports.any fun i => i.file == file then failAt position unknown
    let decls ← importFile loader file [] position
    if decls.has path then return .outside decls path
    else failAt position unknown

/-- Checks that a private item is of the file itself. -/
def checkVisible (isPub isOutside : Bool) (name : String) (position : Position) :
    Resolving σ Unit := do
  if isOutside && !isPub then failAt position (.privateAccess name)

/-! ## Types by name -/

/-- The struct a name stands for in a module. -/
def findStruct (scope : ModulePath) (name : String) : Resolving σ (Option StructRef) := do
  let names ← get
  let own := (enclosing scope).findSome? fun path => (names.decls.find? path).bind (·.struct? name)
  if own.isSome then return own
  let imported := names.imports.findSome? fun i =>
    (i.members?.bind (·.struct? name)).filter StructRef.isPub
  if let some r := imported then onExternals (·.addStruct r)
  return imported

/-- The type a name stands for. -/
def typeNamed (loader : Loader σ) (scope : ModulePath) (ty : TypeName) : Resolving σ Ty := do
  let position := ty.span.start
  let unknown := Fault.unknownType ty.name
  match Prim.ofName? ty.name with
  | some .void => failAt position unknown
  | some p => return .ofPrim p
  | none =>
    let parts := splitName ty.name
    match parts.dropLast, parts.getLast? with
    | [], _ => return .struct (← orFail position unknown (← findStruct scope ty.name))
    | _, none => failAt position unknown
    | home, some last =>
      let m ← findModule loader scope home position
      let found := (m.members? (← get).decls).bind (·.struct? last)
      let r ← orFail position unknown found
      checkVisible r.isPub m.isOutside ty.name position
      if m.isOutside then onExternals (·.addStruct r)
      return .struct r

/-- The result type of a function as written. -/
def resultNamed (loader : Loader σ) (scope : ModulePath) (result : Option TypeName) :
    Resolving σ Ty :=
  match result with
  | none => return .void
  | some ty => if ty.name == Prim.void.name then return .void else typeNamed loader scope ty

end Resolving

end EbLang
