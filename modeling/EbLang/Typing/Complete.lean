import EbLang.Constant.Eval
import EbLang.Typing.Check

/-!
# Settling types

After type checking a value may still have several possible types.  Every block first settles the
types of its own variables; then every expression takes the type its context asks for, or the
default of what it may be.  At last every call that was put off is bound to a single function,
nothing may be open, and integers must fit the types they ended up with.
-/

namespace EbLang.Complete

/-- What the types of all operands have in common. -/
def commonType? : List Operand → Option Ty
  | [] => none
  | o :: os => os.foldlM (fun ty o => ty.merge? o.ty) o.ty

/-- Binds a call to the function its operands ask for; operators start from all overloads again. -/
def bind (p : Progress) (a : Atom) (c : Call) (args rest : List Operand) : Walk Progress := do
  let position := a.span.start
  let candidates := if c.isOperator then Builtin.operators c.name c.arity else c.candidates
  let resolution := Overload.resolve c.name c.named candidates (args.map Operand.ty)
  match ← Walk.located position resolution with
  | .resolved target casts => p.bindCall a c args rest target casts
  | .deferred _ _ => Walk.failAt position .undeterminedType

/-- Settles a call. -/
def call (p : Progress) (a : Atom) (c : Call) : Walk Progress := do
  let position := a.span.start
  match p.operands? c.argCount with
  | none => Walk.failAt position .undeterminedType
  | some (args, rest) =>
    match c.target, Builtin.isComparison c.name, commonType? args with
    | some _, _, _ => return p.push a ⟨a.ty, [], p.startOf args⟩ rest
    | none, true, some common =>
      match common.complete? with
      | none => Walk.failAt position .undeterminedType
      | some settled =>
        let p ← p.narrowAll args settled
        return p.push a ⟨.bool, [], p.startOf args⟩ rest
    | none, true, none => return p.push a ⟨.bool, [], p.startOf args⟩ rest
    | none, false, some common => return p.pushOpen a args rest common
    | none, false, none => bind p a c args rest

/-- Settles a step of any kind. -/
def step (p : Progress) (a : Atom) : Walk Progress := do
  match a.kind with
  | .literal _ => return p.pushLeaf a [.step p.index]
  | .var name binding => p.pushVar a name binding
  | .call c => call p a c
  | .member _ =>
    match p.stack with
    | [] => Walk.failAt a.span.start .undeterminedType
    | base :: rest => return p.push a ⟨a.ty, [], base.start⟩ rest

/-! ## Binding what was put off -/

/-- Reads a step of an expression whose values are settled. -/
def finishStep (p : Progress) (a : Atom) : Walk Progress := do
  match a.kind with
  | .literal _ => return p.push a ⟨a.ty, [], p.index⟩ p.stack
  | .var _ none => return p.push a ⟨a.ty, [], p.index⟩ p.stack
  | .var _ (some b) =>
    let ty := (← get).bindingType b
    return p.push { a with ty } ⟨ty, [], p.index⟩ p.stack
  | .member _ =>
    let start := (p.stack.head?.map Operand.start).getD p.index
    return p.push a ⟨a.ty, [], start⟩ p.stack.tail
  | .call c =>
    let args := (p.stack.take c.argCount).reverse
    let rest := p.stack.drop c.argCount
    match c.target with
    | some _ => return p.push a ⟨a.ty, [], p.startOf args⟩ rest
    | none => bind p a c args rest

/-- Whether a step is the prefix operator of negation. -/
def isNegation (a : Atom) : Bool :=
  match a.kind with
  | .call c => c.isOperator && c.name == "-" && c.arity == 1
  | _ => false

/-- Checks that an integer fits its type; an integer that is negated next, with its sign. -/
def checkRange (a : Atom) (negated : Bool) : Except Error Unit :=
  match a.kind, a.ty.prim? with
  | .literal (.int n), some p =>
    let i : Int := if negated then -(n : Int) else n
    if p.isInt && !Constant.fits i p then
      .error ⟨.integerOutOfRange (toString i), a.span.start⟩
    else .ok ()
  | _, _ => .ok ()

/-- Checks that every step is settled and in range. -/
def checkSteps : List Atom → Except Error Unit
  | [] => .ok ()
  | a :: as => do
    if !a.ty.isComplete then throw ⟨.undeterminedType, a.span.start⟩
    checkRange a (as.head?.any isNegation)
    checkSteps as

/-- Binds the calls that were put off. -/
def finish (steps : List Atom) : Walk (List Atom) := do
  let p ← steps.foldlM finishStep {}
  let steps := p.steps
  checkSteps steps
  return steps

/-! ## Expressions and statements -/

/-- Settles an expression on the type its context asks for. -/
def expr (e : Expr Atom) (expected : Option Ty) : Walk (Expr Atom) := do
  let position := e.span.start
  let p ← e.terms.foldlM step {}
  match p.stack with
  | [] => Walk.failAt position .undeterminedType
  | top :: _ =>
    let (ty, p) ← match expected with
      | some expected => p.apply top expected position
      | none => pure (top.ty, p)
    let p ←
      if ty.isComplete then pure p
      else
        match ty.complete? with
        | none => Walk.failAt position .undeterminedType
        | some settled => p.narrow top.cells settled
    return ⟨← finish p.steps, e.span⟩

/-- Settles the variables some statements declare. -/
def settleVars : List (Stmt Atom) → Walk Unit
  | [] => return
  | .declare _ _ _ var _ span :: ss => do
    let scopes ← get
    match var, var.bind fun id => (scopes.typeOf id).complete? with
    | some id, some ty => set (scopes.setType id ty)
    | _, _ => Walk.failAt span.start .undeterminedType
    settleVars ss
  | _ :: ss => settleVars ss

/-- Settles a condition. -/
def condition (e : Expr Atom) : Walk (Expr Atom) := expr e (some .bool)

/-- Settles a statement without blocks. -/
def simple (structs : StructTable) (result : Ty) : Stmt Atom → Walk (Stmt Atom)
  | .declare name ty init var hidden span => do
    match init, var with
    | some value, some id =>
      let value ← expr value (some ((← get).typeOf id))
      return .declare name ty (some value) var hidden span
    | _, _ => return .declare name ty init var hidden span
  | .assign target binding members value span => do
    let (targetTy, members) ← assignmentType structs target binding members span.start
    let value ← expr value (some targetTy)
    return .assign target binding members value span
  | .eval value span => return .eval (← expr value none) span
  | .ret value span => do
    return .ret (← value.mapM fun e => expr e (some result)) span
  | s => return s

/-- Settling as a pass. -/
def pass (structs : StructTable) (result : Ty) : Pass where
  enter := settleVars
  simple := simple structs result
  condition := condition

end Complete

/-- The module with every type settled. -/
def Module.complete (structs : StructTable) (m : Module) : Except Error Module :=
  m.walk (Pass.function (Complete.pass structs))

end EbLang
