import EbLang.Builtin
import EbLang.Resolve.Names
import EbLang.Tree

/-!
# Binding the names of function bodies

A variable is bound to the declaration in view, or else to a global: of the innermost module around
it that has one, then of an import, then of the module that the front of the name stands for.  What
is left of a dotted name are members.  A call gets the overloads it may be of.
-/

namespace EbLang.Resolving

variable {σ α : Type}

/-- Walks through a block. -/
def within (block : Nat) (isLoop : Bool) (x : Resolving σ α) : Resolving σ α := ExceptT.mk do
  modify fun n => { n with scopes := n.scopes.enter block isLoop }
  let result ← x.run
  modify fun n => { n with scopes := n.scopes.leave }
  return result

def declareVar (v : Variable) : Resolving σ Nat :=
  modifyGet fun n =>
    let (id, scopes) := n.scopes.declare v
    (id, { n with scopes })

/-! ## Variables -/

/-- A global and the members that follow its name. -/
abbrev Found := Global × List String

def ownGlobal? (n : Names σ) (scope : ModulePath) (name : String) : Option Global :=
  (enclosing scope).findSome? fun path => (n.decls.find? path).bind (·.global? name)

def importedGlobal? (n : Names σ) (name : String) : Option Global :=
  n.imports.findSome? fun i => (i.members?.bind (·.global? name)).filter Global.isPub

/-- A global of the module that the first `k` parts of a name stand for, `k` counting up to the last
part but one.  Looking for a module may load a file.  If the first part stands for no module the
name has a fault; if only more parts do not, the search ends. -/
def qualifiedGlobal (loader : Loader σ) (scope : ModulePath) (position : Position) :
    List String → List String → Resolving σ (Option Found)
  | _, [] => return none
  | home, name :: rest => do
    let attempt : Resolving σ (Option ModuleRef) := some <$> findModule loader scope home position
    let module? ← if home.length ≤ 1 then attempt else tryCatch attempt fun _ => return none
    match module? with
    | none => return none
    | some m =>
      match (m.members? (← get).decls).bind (·.global? name) with
      | some g =>
        checkVisible g.isPub m.isOutside (joinName (home ++ [name])) position
        if m.isOutside then onExternals (·.addGlobal g)
        return some (g, rest)
      | none => qualifiedGlobal loader scope position (home ++ [name]) rest

/-- The global that a name stands for. -/
def findGlobal (loader : Loader σ) (scope : ModulePath) (parts : List String)
    (position : Position) : Resolving σ (Option Found) := do
  match parts with
  | [] => return none
  | first :: rest =>
    if let some g := ownGlobal? (← get) scope first then return some (g, rest)
    if let some g := importedGlobal? (← get) first then
      onExternals (·.addGlobal g)
      return some (g, rest)
    qualifiedGlobal loader scope position [first] rest

/-- What a name stands for, and the members that follow. -/
def findVariable (loader : Loader σ) (scope : ModulePath) (name : String)
    (position : Position) : Resolving σ (Binding × List String) := do
  let parts := splitName name
  match (parts.head?.bind (← get).scopes.lookup) with
  | some id => return (.localVar id, parts.drop 1)
  | none =>
    match ← findGlobal loader scope parts position with
    | some (g, members) => return (.globalVar g, members)
    | none => failAt position (.variableNotDeclared name)

/-! ## Calls -/

/-- Adds the signatures whose mangled names are new. -/
def addDistinct (known : List Signature) (more : List Signature) : List Signature :=
  more.foldl (fun all s => if all.any fun t => t.mangled == s.mangled then all else all ++ [s])
    known

/-- The overloads of an unqualified name, and whether they are of other files: those of the
innermost module around the place that has any, or else the public ones of all imports. -/
def overloadsInView (n : Names σ) (scope : ModulePath) (name : String) (arity : Nat) :
    List Signature × Bool :=
  let own := ((enclosing scope).map fun path => n.decls.overloads path name arity).find?
    fun found => !found.isEmpty
  match own with
  | some found => (found, false)
  | none =>
    let imported := n.imports.flatMap fun i =>
      ((i.members?.map fun m => m.overloads name arity).getD []).filter Signature.isPub
    (addDistinct [] imported, true)

def overloadsNamed (loader : Loader σ) (scope : ModulePath) (c : Call) (position : Position) :
    Resolving σ (List Signature × Bool) := do
  let parts := splitName c.name
  match parts.dropLast, parts.getLast? with
  | [], _ | _, none => return overloadsInView (← get) scope c.name c.arity
  | home, some last =>
    let m ← findModule loader scope home position
    let found := (m.members? (← get).decls).map fun ms => ms.overloads last c.arity
    return (found.getD [], m.isOutside)

def unknownArgument (named : List String) (s : Signature) : String :=
  (named.find? fun name => (s.namedParameter? name).isNone).getD ""

/-- The functions that a call may be of. -/
def candidatesOf (loader : Loader σ) (scope : ModulePath) (c : Call) (position : Position) :
    Resolving σ (List Signature) := do
  let unknown := Fault.unknownFunction c.name c.arity
  if c.isOperator then
    let operators := Builtin.operators c.name c.arity
    if operators.isEmpty then failAt position unknown
    return operators
  let (found, isOutside) ← overloadsNamed loader scope c position
  if found.isEmpty then failAt position unknown
  match found.filter fun s => !isOutside || s.isPub with
  | [] => failAt position (.privateAccess c.name)
  | first :: others =>
    let accepting := (first :: others).filter fun s => (s.typesFor? c.named).isSome
    if accepting.isEmpty then
      failAt position (.unknownNamedParameter c.name (unknownArgument c.named first))
    if isOutside then onExternals fun e => accepting.foldl Externals.addFunction e
    return accepting

/-! ## Expressions and statements -/

/-- A step with its names bound; the members of a dotted name become steps of their own. -/
def resolveAtom (loader : Loader σ) (scope : ModulePath) (a : Atom) :
    Resolving σ (List Atom) := do
  match a.kind with
  | .var name _ =>
    let (binding, members) ← findVariable loader scope name a.span.start
    let parts := splitName name
    let own := if members.isEmpty then name
      else joinName (parts.take (parts.length - members.length))
    return { a with kind := .var own (some binding) } :: members.map fun m => .member m a.span
  | .call c =>
    let candidates ← candidatesOf loader scope c a.span.start
    return [{ a with kind := .call { c with candidates } }]
  | .literal _ | .member _ => return [a]

/-- An expression with its names bound. -/
def resolveExpr (loader : Loader σ) (scope : ModulePath) (e : Expr Atom) :
    Resolving σ (Expr Atom) := do
  let terms ← e.terms.mapM (resolveAtom loader scope)
  return ⟨terms.flatten, e.span⟩

mutual

/-- A block with its names bound. -/
def resolveBlock (loader : Loader σ) (scope : ModulePath) (isLoop : Bool) :
    Block Atom → Resolving σ (Block Atom)
  | .mk id body span => do
    return .mk id (← within id isLoop (resolveStmts loader scope body)) span

/-- Some statements with their names bound. -/
def resolveStmts (loader : Loader σ) (scope : ModulePath) :
    List (Stmt Atom) → Resolving σ (List (Stmt Atom))
  | [] => return []
  | s :: ss => do
    let s ← resolveStmt loader scope s
    let ss ← resolveStmts loader scope ss
    return s :: ss

/-- A statement with its names bound.  A variable is not in view in its own first value. -/
def resolveStmt (loader : Loader σ) (scope : ModulePath) :
    Stmt Atom → Resolving σ (Stmt Atom)
  | .declare name ty init _ hidden span => do
    let init ← init.mapM (resolveExpr loader scope)
    let declared ← match ty with
      | some ty => typeNamed loader scope ty
      | none => pure .anyValue
    let id ← declareVar ⟨name, declared, false, hidden, span⟩
    return .declare name ty init (some id) hidden span
  | .assign target _ _ value span => do
    let value ← resolveExpr loader scope value
    let (binding, members) ← findVariable loader scope target span.start
    return .assign target (some binding) (members.map fun m => ⟨m, none⟩) value span
  | .eval value span => return .eval (← resolveExpr loader scope value) span
  | .ret value span => return .ret (← value.mapM (resolveExpr loader scope)) span
  | .branch arms otherwise span => do
    let conditions ← (arms.map Arm.condition).mapM (resolveExpr loader scope)
    let bodies ← resolveBodies loader scope arms
    let otherwise ← resolveOptionalBlock loader scope otherwise
    return .branch (List.zipWith .mk conditions bodies) otherwise span
  | .loop condition body span => do
    let condition ← resolveExpr loader scope condition
    let body ← resolveBlock loader scope true body
    return .loop condition body span
  | .breakOut amount span => return .breakOut amount span
  | .continueLoop span => return .continueLoop span

/-- The bodies of some arms with their names bound. -/
def resolveBodies (loader : Loader σ) (scope : ModulePath) :
    List (Arm Atom) → Resolving σ (List (Block Atom))
  | [] => return []
  | .mk _ body :: arms => do
    let body ← resolveBlock loader scope false body
    let bodies ← resolveBodies loader scope arms
    return body :: bodies

/-- A block that may be missing. -/
def resolveOptionalBlock (loader : Loader σ) (scope : ModulePath) :
    Option (Block Atom) → Resolving σ (Option (Block Atom))
  | none => return none
  | some body => return some (← resolveBlock loader scope false body)

end

/-- Declares the parameters of a function, the named ones last. -/
def declareParams (s : Signature) (span : Span) : Resolving σ Unit := do
  let params := s.params.map (fun p => (p.name, p.ty)) ++ s.named.map fun p => (p.name, p.ty)
  params.forM fun p => do
    let _ ← declareVar ⟨p.1, p.2, true, false, span⟩

/-- A function with the names of its body bound. -/
def resolveFunction (loader : Loader σ) (scope : ModulePath) (f : FunctionItem Atom) :
    Resolving σ (FunctionItem Atom) := do
  match f.signature, f.body with
  | none, _ => return f
  | some s, .mk id body span =>
    let body ← within id false do
      declareParams s f.span
      resolveStmts loader scope body
    return { f with body := .mk id body span }

mutual

/-- The functions of some items with their names bound. -/
def resolveItems (loader : Loader σ) (scope : ModulePath) :
    List (Item Atom) → Resolving σ (List (Item Atom))
  | [] => return []
  | i :: is => do
    let i ← resolveItem loader scope i
    let is ← resolveItems loader scope is
    return i :: is

/-- The functions of an item with their names bound. -/
def resolveItem (loader : Loader σ) (scope : ModulePath) :
    Item Atom → Resolving σ (Item Atom)
  | .function f => return .function (← resolveFunction loader scope f)
  | .submodule name items isPub isExtend span => do
    let items ← resolveItems loader (scope ++ [name]) items
    return .submodule name items isPub isExtend span
  | .imports i => return .imports i
  | .global g => return .global g
  | .struct s => return .struct s

end

end EbLang.Resolving
