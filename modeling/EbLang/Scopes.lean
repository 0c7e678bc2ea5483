import EbLang.Position
import EbLang.Ty

/-!
# Scopes

Every block has a scope, made when the block is first entered and found again whenever it is entered
later.  A scope is known by the numbers of its block and of the blocks around it, innermost first,
so its parent is the tail of its path.

Declaring a name again hides the earlier declaration.  A scope that is entered again hides all its
variables until they are declared again, parameters apart; the same declarations in the same order
then hand back the same variables.  So every walk over a tree sees the same numbers.
-/

namespace EbLang

/-- A variable of a function. -/
structure Variable where
  name : String
  ty : Ty
  isParam : Bool
  /-- Whether it holds the value of a value-`if`. -/
  hidden : Bool
  span : Span

/-- The declarations of one name in one scope. -/
structure Slot where
  /-- The place in `vars` of the declaration in view. -/
  version : Option Nat := none
  /-- The variables of the name, in the order of their declarations. -/
  vars : List Nat := []

/-- The blocks around a place, innermost first. -/
abbrev ScopePath := List Nat

/-- The names a block declares. -/
structure Scope where
  isLoop : Bool
  names : List (String × Slot) := []

/-- The declarations of a name. -/
def Scope.slot (s : Scope) (name : String) : Slot := (s.names.lookup name).getD {}

/-- Replaces or adds the declarations of a name. -/
def Scope.setSlot (s : Scope) (name : String) (slot : Slot) : Scope :=
  if s.names.any fun e => e.1 == name then
    { s with names := s.names.map fun e => if e.1 == name then (name, slot) else e }
  else { s with names := s.names ++ [(name, slot)] }

/-- The scopes of a file and their variables. -/
structure Scopes where
  vars : List Variable := []
  /-- The scopes entered so far. -/
  scopes : List (ScopePath × Scope) := []
  /-- The scope of the current place; the empty path is outside of every block. -/
  current : ScopePath := []

namespace Scopes

/-- The scope of a path. -/
def scope? (s : Scopes) (path : ScopePath) : Option Scope := s.scopes.lookup path

/-- Replaces a scope that was entered before. -/
def setScope (s : Scopes) (path : ScopePath) (scope : Scope) : Scopes :=
  { s with scopes := s.scopes.map fun e => if e.1 == path then (path, scope) else e }

/-- The variable of a number. -/
def var? (s : Scopes) (id : Nat) : Option Variable := s.vars[id]?

/-- The type of a variable. -/
def typeOf (s : Scopes) (id : Nat) : Ty := ((s.var? id).map Variable.ty).getD .anyValue

/-- Replaces the type of a variable. -/
def setType (s : Scopes) (id : Nat) (ty : Ty) : Scopes :=
  { s with vars := s.vars.modify id fun v => { v with ty } }

/-- The slot as it is when its scope is entered again. -/
def reopen (s : Scopes) (slot : Slot) : Slot :=
  let isParam := ((slot.vars.head?.bind s.var?).map Variable.isParam).getD false
  { slot with version := if isParam then some 0 else none }

/-- The scope as it is when it is entered again. -/
def reopened (s : Scopes) (scope : Scope) : Scope :=
  { scope with names := scope.names.map fun e => (e.1, s.reopen e.2) }

/-- Enters the scope of a block inside the current one. -/
def enter (s : Scopes) (block : Nat) (isLoop : Bool) : Scopes :=
  let path := block :: s.current
  match s.scope? path with
  | some scope => { s.setScope path (s.reopened scope) with current := path }
  | none => { s with scopes := s.scopes ++ [(path, ⟨isLoop, []⟩)], current := path }

/-- Goes back to the scope around the current one. -/
def leave (s : Scopes) : Scopes := { s with current := s.current.tail }

/-- The place of the next declaration of a name. -/
def nextVersion (slot : Slot) : Nat :=
  match slot.version with
  | some version => version + 1
  | none => 0

/-- Declares a variable in the current scope; its number is returned. -/
def declare (s : Scopes) (v : Variable) : Nat × Scopes :=
  match s.scope? s.current with
  | none => (s.vars.length, { s with vars := s.vars ++ [v] })
  | some scope =>
    let slot := scope.slot v.name
    match v.isParam && slot.version == some 0, slot.vars.head? with
    | true, some id => (id, s)
    | _, _ =>
      let version := nextVersion slot
      match slot.vars[version]? with
      | some id =>
        (id, s.setScope s.current (scope.setSlot v.name ⟨some version, slot.vars⟩))
      | none =>
        let id := s.vars.length
        let slot : Slot := ⟨some version, slot.vars ++ [id]⟩
        let s := s.setScope s.current (scope.setSlot v.name slot)
        (id, { s with vars := s.vars ++ [v] })

/-- The variable a name has in one scope. -/
def inView? (s : Scopes) (path : ScopePath) (name : String) : Option Nat := do
  let scope ← s.scope? path
  let slot ← scope.names.lookup name
  slot.vars[← slot.version]?

/-- The innermost variable of a name, from a path outwards. -/
def lookupFrom (s : Scopes) (name : String) : ScopePath → Option Nat
  | [] => none
  | block :: path =>
    match s.inView? (block :: path) name with
    | some id => some id
    | none => s.lookupFrom name path

/-- The variable a name stands for at the current place. -/
def lookup (s : Scopes) (name : String) : Option Nat := s.lookupFrom name s.current

/-- The blocks of the loops around a path, innermost first. -/
def loopsFrom (s : Scopes) : ScopePath → List Nat
  | [] => []
  | block :: path =>
    if ((s.scope? (block :: path)).map Scope.isLoop).getD false then block :: s.loopsFrom path
    else s.loopsFrom path

/-- The block of an enclosing loop, the innermost being the first. -/
def loop? (s : Scopes) : Nat → Option Nat
  | 0 => none
  | n + 1 => (s.loopsFrom s.current)[n]?

/-- A variable as it is listed. -/
def varLine (v : Variable) (id : Nat) : String :=
  v.name ++ "#" ++ toString id ++ ": " ++ v.ty.render ++ (if v.isParam then " param" else "") ++
    (if v.hidden then " hidden" else "") ++ " @" ++ v.span.render

/-- The variables as they are listed. -/
def varLines (s : Scopes) : List String := s.vars.zipIdx.map fun e => varLine e.1 e.2

end Scopes

end EbLang
