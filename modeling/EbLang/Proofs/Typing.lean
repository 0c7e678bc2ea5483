import EbLang.Analysis
import EbLang.Proofs.Occurrences

/-!
# Well-typed postfix code

In a finished module the steps of an expression run over a stack of types.  A literal pushes its
type, a variable the type of what it is bound to, a member access pops a struct and pushes the type of
the member at its place, and a call pops what its function asks for and pushes what it gives.  The
code is well-typed if no step gets stuck, every step has the type it pushes, and one type is left,
the one that the context asks for.

Values that may be narrowed once more after a call has been bound to a function are *loose*:
variables, and what operators give.  `Fits` says of them alone that they have the types asked for.
-/

namespace EbLang

variable {τ : Type}

/-! ## Types of expressions -/

/-- The type of the member at a place; only structs have members. -/
def StructTable.memberAt? (t : StructTable) (ty : Ty) (index : Nat) : Option Ty :=
  match ty with
  | .struct r => (t.members r)[index]?.map Member.ty
  | .prims _ => none

/-- Whether values have the types asked for. -/
def allSame : List Ty → List Ty → Bool
  | [], [] => true
  | ty :: tys, asked :: others => ty.same asked && allSame tys others
  | _, _ => false

def Call.asks? (c : Call) : Option (List Ty) := c.target.bind fun t => t.typesFor? c.named

section Types

variable (structs : StructTable) (scopes : Scopes)

/-- The type of what a step gives, none if it cannot take operands of the given types. -/
def Atom.gives? (a : Atom) (operands : List Ty) : Option Ty :=
  match a.kind, operands with
  | .literal _, [] => some a.ty
  | .var _ binding, [] => binding.map scopes.bindingType
  | .member m, [base] => m.index.bind (structs.memberAt? base)
  | .call c, operands => do
    let target ← c.target
    let asked ← target.typesFor? c.named
    if allSame operands asked then some target.result else none
  | _, _ => none

/-- The types on the stack after a step, the last one first, none if the step gets stuck or has
another type than it gives. -/
def typeStep? (stack : List Ty) (a : Atom) : Option (List Ty) :=
  if a.takes ≤ stack.length then do
    let ty ← a.gives? structs scopes (stack.take a.takes).reverse
    if ty = a.ty then some (ty :: stack.drop a.takes) else none
  else none

/-- The type of an expression, none if it is not well-typed. -/
def Expr.type? (e : Expr Atom) : Option Ty :=
  match e.terms.foldlM (typeStep? structs scopes) [] with
  | some [ty] => some ty
  | _ => none

/-- The type of the place that an assignment writes. -/
def place? (binding : Option Binding) (members : List MemberRef) : Option Ty := do
  let b ← binding
  members.foldlM (fun ty m => m.index.bind (structs.memberAt? ty)) (scopes.bindingType b)

/-- The expressions of a statement, each with the test that its context makes of its type. -/
def Stmt.contexts (result : Ty) : Stmt Atom → List (Expr Atom × (Ty → Bool))
  | .declare _ _ init var _ _ =>
    init.toList.map fun e => (e, fun ty => var.any fun id => ty.same (scopes.typeOf id))
  | .assign _ binding members value _ =>
    [(value, fun ty => (place? structs scopes binding members).any ty.same)]
  | .eval value _ => [(value, fun _ => true)]
  | .ret value _ => value.toList.map fun e => (e, fun ty => ty.same result)
  | .branch arms _ _ => arms.map fun a => (a.condition, fun ty => ty.same .bool)
  | .loop condition _ _ => [(condition, fun ty => ty.same .bool)]
  | .breakOut _ _ | .continueLoop _ => []

/-- All expressions of a statement are well-typed, with the types their contexts ask for. -/
def Stmt.isWellTyped (result : Ty) (s : Stmt Atom) : Bool :=
  (s.contexts structs scopes result).all fun c => (c.1.type? structs scopes).any c.2

end Types

/-! ## Loose values -/

/-- Whether a step is of an operator, or of a function that is not known yet. -/
def Atom.isOperation (a : Atom) : Bool :=
  match a.kind with
  | .call c => c.target.all fun t => t.form == .operator
  | .literal _ | .var _ _ | .member _ => false

/-- Whether what a step gives may be narrowed after a call has been bound that takes it. -/
def Atom.isLoose (a : Atom) : Bool :=
  match a.kind with
  | .var _ _ => true
  | .literal _ | .call _ | .member _ => a.isOperation

/-- Whether the loose ones of some values have the types asked for. -/
def looseFit : List Atom → List Ty → Bool
  | a :: as, ty :: tys => (!a.isLoose || a.ty.same ty) && looseFit as tys
  | _, _ => true

section Fits

variable (structs : StructTable) (scopes : Scopes)

/-- Whether the loose operands of a step have the types that it asks for. -/
def Atom.fitsOperands (operands : List Atom) (a : Atom) : Bool :=
  match a.kind with
  | .literal _ | .var _ _ => true
  | .member m =>
    operands.all fun base => !base.isLoose || m.index.bind (structs.memberAt? base.ty) == some a.ty
  | .call c => looseFit operands (c.asks?.getD [])

/-- Whether the loose operands of every step have the types asked for.  On the stack are the last
steps of the values so far. -/
def operandsFit : List Atom → List Atom → Bool
  | _, [] => true
  | stack, a :: as =>
    a.fitsOperands structs (stack.take a.takes).reverse && operandsFit (a :: stack.drop a.takes) as

/-- Whether the loose values of an expression have the types asked for, what it gives only if an
operator does. -/
def Expr.fits (e : Expr Atom) (asked : Ty → Bool) : Bool :=
  operandsFit structs [] e.terms && e.terms.getLast?.all fun a => !a.isOperation || asked a.ty

/-- Whether the place that an assignment writes has one type. -/
def Stmt.isSettled : Stmt Atom → Bool
  | .assign _ binding members _ _ => (place? structs scopes binding members).all Ty.isComplete
  | _ => true

/-- Whether the loose values of a statement have the types asked for. -/
def Stmt.fits (result : Ty) (s : Stmt Atom) : Bool :=
  s.isSettled structs scopes && (s.contexts structs scopes result).all fun c => c.1.fits structs c.2

end Fits

/-! ## Modules -/

namespace Module

variable (m : Module) (structs : StructTable)

/-- Every statement of every function, with the result of the function, passes a test. -/
def EveryStmt (test : Ty → Stmt Atom → Bool) : Prop :=
  ∀ f ∈ m.tree.functions, ∃ s ∈ f.signature, ∀ stmt ∈ f.body.statements, test s.result stmt = true

instance (test : Ty → Stmt Atom → Bool) : Decidable (m.EveryStmt test) :=
  decidable_of_iff (m.tree.functions.all fun f => f.signature.any fun s =>
      f.body.statements.all (test s.result)) <| by
    simp only [EveryStmt, List.all_eq_true, Option.any_eq_true, Option.mem_def]

/-- All expressions of a module are well-typed. -/
def WellTyped : Prop := m.EveryStmt (Stmt.isWellTyped structs m.scopes)

/-- All loose values of a module have the types asked for. -/
def Fits : Prop := m.EveryStmt (Stmt.fits structs m.scopes)

instance : Decidable (m.WellTyped structs) :=
  inferInstanceAs (Decidable (m.EveryStmt (Stmt.isWellTyped structs m.scopes)))

instance : Decidable (m.Fits structs) :=
  inferInstanceAs (Decidable (m.EveryStmt (Stmt.fits structs m.scopes)))

end Module

end EbLang
