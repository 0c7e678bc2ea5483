import EbLang.Overload
import EbLang.Scopes.Walk
import EbLang.Tree

/-!
# Typing a postfix sequence

Steps are read from left to right onto a stack of operand types.  An operand whose type is still
open remembers the cells it was computed from, steps and variables, so that narrowing the operand
narrows all of them.  Conversions are collected on the way and inserted at the end, each after the
last step of the operand it converts.
-/

namespace EbLang

/-- A place that holds a type. -/
inductive Cell where
  | step (index : Nat)
  | var (id : Nat)

/-- A value on the stack. -/
structure Operand where
  ty : Ty
  /-- The cells to narrow together with it. -/
  cells : List Cell
  /-- The index of its first step. -/
  start : Nat

/-- How far the reading of an expression has come. -/
structure Progress where
  /-- The steps read so far. -/
  done : List Atom := []
  /-- The values they leave, the last one first. -/
  stack : List Operand := []
  /-- The conversions to insert, each with the index of the step it follows. -/
  casts : List (Nat × Signature) := []

/-- Sets some cells to a type. -/
def narrowCells (cells : List Cell) (ty : Ty) (steps : List Atom) (scopes : Scopes) :
    List Atom × Scopes :=
  cells.foldl
    (fun (steps, scopes) cell =>
      match cell with
      | .step index => (steps.modify index fun a => { a with ty }, scopes)
      | .var id => (steps, scopes.setType id ty))
    (steps, scopes)

/-- The steps with each cast after its place. -/
def insertCasts (steps : List Atom) (casts : List (Nat × Signature)) : List Atom :=
  steps.zipIdx.flatMap fun (a, index) =>
    a :: ((casts.filter fun c => c.1 == index).reverse.map fun c => .cast c.2 a.span)

/-- The type of what a name stands for. -/
def Scopes.bindingType (s : Scopes) : Binding → Ty
  | .localVar id => s.typeOf id
  | .globalVar g => g.ty

/-- The fault of a wrong type. -/
def mismatch (expected received : Ty) : Fault := .typeMatchError expected.shown received.shown

namespace Progress

/-- The index of the next step. -/
def index (p : Progress) : Nat := p.done.length

/-- Narrows the cells of an operand. -/
def narrow (p : Progress) (cells : List Cell) (ty : Ty) : Walk Progress := do
  let (done, scopes) := narrowCells cells ty p.done (← get)
  set scopes
  return { p with done }

/-- Reads a step that leaves an operand on top of the rest of the stack. -/
def push (p : Progress) (a : Atom) (o : Operand) (rest : List Operand) : Progress :=
  { p with done := p.done ++ [a], stack := o :: rest }

/-- Reads a step that takes no operands; it is linked to its cells while its type is open. -/
def pushLeaf (p : Progress) (a : Atom) (cells : List Cell) : Progress :=
  p.push a ⟨a.ty, if a.ty.isComplete then [] else cells, p.index⟩ p.stack

/-- Reads a variable. -/
def pushVar (p : Progress) (a : Atom) (name : String) (binding : Option Binding) :
    Walk Progress := do
  match binding with
  | none => Walk.failAt a.span.start (.variableNotDeclared name)
  | some b =>
    let ty := (← get).bindingType b
    let cells := match b with
      | .localVar id => [.step p.index, .var id]
      | .globalVar _ => [.step p.index]
    return p.pushLeaf { a with ty } cells

/-- The last operands in order, and the rest of the stack. -/
def operands? (p : Progress) (count : Nat) : Option (List Operand × List Operand) :=
  if p.stack.length < count then none
  else some ((p.stack.take count).reverse, p.stack.drop count)

/-- The index of the first step of a call with the given operands. -/
def startOf (p : Progress) (args : List Operand) : Nat :=
  (args.head?.map Operand.start).getD p.index

/-- Notes a conversion after a step. -/
def addCast (p : Progress) (after : Nat) (cast : Signature) : Progress :=
  { p with casts := p.casts ++ [(after, cast)] }

/-- Makes operands fit the types a function asks for, converting or narrowing each.  The next step
is the call itself. -/
def fit (p : Progress) : List Operand → List (Option Signature) → List Ty → Walk Progress
  | arg :: args, cast :: casts, param :: params => do
    let p ← match cast with
      | some cast =>
        let last := ((args.head?.map Operand.start).getD p.index) - 1
        pure (p.addCast last cast)
      | none => p.narrow arg.cells param
    p.fit args casts params
  | _, _, _ => return p

/-- Makes operands fit a function and reads the call of it. -/
def bindCall (p : Progress) (a : Atom) (c : Call) (args rest : List Operand)
    (target : Signature) (casts : List (Option Signature)) : Walk Progress := do
  let p ← p.fit args casts ((target.typesFor? c.named).getD [])
  let call := { c with candidates := [target], target := some target }
  return p.push { a with kind := .call call, ty := target.result }
    ⟨target.result, [], p.startOf args⟩ rest

/-- Narrows several operands. -/
def narrowAll (p : Progress) (args : List Operand) (ty : Ty) : Walk Progress :=
  args.foldlM (fun p arg => p.narrow arg.cells ty) p

/-- Reads an operator whose overload stays open: its result narrows with its operands. -/
def pushOpen (p : Progress) (a : Atom) (args rest : List Operand) (ty : Ty) : Progress :=
  p.push { a with ty } ⟨ty, args.flatMap Operand.cells ++ [.step p.index], p.startOf args⟩ rest

/-- Makes the value of a whole expression fit a type, narrowing it or converting it. -/
def apply (p : Progress) (top : Operand) (expected : Ty) (position : Position) :
    Walk (Ty × Progress) := do
  match top.ty.merge? expected with
  | some merged => return (merged, ← p.narrow top.cells merged)
  | none =>
    match Overload.widening? top.ty expected with
    | some cast => return (expected, p.addCast (p.index - 1) cast)
    | none => Walk.failAt position (mismatch expected top.ty)

/-- The steps read, with their casts. -/
def steps (p : Progress) : List Atom := insertCasts p.done p.casts

end Progress

/-! ## Targets of assignments -/

/-- The type of a member reached from a type, and the members with their places. -/
def memberPath (structs : StructTable) (position : Position) :
    Ty → List MemberRef → Walk (Ty × List MemberRef)
  | ty, [] => return (ty, [])
  | ty, m :: ms =>
    match structs.memberOf? ty m.name with
    | none => Walk.failAt position (.unknownMember m.name ty.shown)
    | some (index, memberTy) => do
      let (last, ms) ← memberPath structs position memberTy ms
      return (last, ⟨m.name, some index⟩ :: ms)

/-- The type of the place that an assignment writes, and its members with their places. -/
def assignmentType (structs : StructTable) (target : String) (binding : Option Binding)
    (members : List MemberRef) (position : Position) : Walk (Ty × List MemberRef) := do
  match binding with
  | none => Walk.failAt position (.variableNotDeclared target)
  | some b => memberPath structs position ((← get).bindingType b) members

end EbLang
