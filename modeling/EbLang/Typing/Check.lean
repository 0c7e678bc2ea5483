import EbLang.Typing.Pass
import EbLang.Typing.Progress

/-!
# Type checking

Every expression is typed from its operands; an expression whose context asks for a type is made to
fit it.  Types only shrink here: what is still open afterwards is settled later.
-/

namespace EbLang.Check

/-- Reads a call. -/
def call (p : Progress) (a : Atom) (c : Call) : Walk Progress := do
  let position := a.span.start
  match p.operands? c.argCount with
  | none => Walk.failAt position .undeterminedType
  | some (args, rest) =>
    match c.target with
    | some target => return p.push a ⟨target.result, [], p.startOf args⟩ rest
    | none =>
      let resolution := Overload.resolve c.name c.named c.candidates (args.map Operand.ty)
      match ← Walk.located position resolution with
      | .resolved target casts => p.bindCall a c args rest target casts
      | .deferred merged candidates =>
        let p ← p.narrowAll args merged
        let a := { a with kind := .call { c with candidates } }
        if Builtin.isComparison c.name then
          return p.push { a with ty := .bool } ⟨.bool, [], p.startOf args⟩ rest
        else return p.pushOpen a args rest merged

/-- Reads a step of any kind. -/
def step (structs : StructTable) (p : Progress) (a : Atom) : Walk Progress := do
  let position := a.span.start
  match a.kind with
  | .literal _ => return p.pushLeaf a [.step p.index]
  | .var name binding => p.pushVar a name binding
  | .call c => call p a c
  | .member m =>
    match p.stack with
    | [] => Walk.failAt position .undeterminedType
    | base :: rest =>
      match structs.memberOf? base.ty m.name with
      | none => Walk.failAt position (.unknownMember m.name base.ty.shown)
      | some (index, ty) =>
        return p.push { a with kind := .member ⟨m.name, some index⟩, ty }
          ⟨ty, [], base.start⟩ rest

/-- Types an expression, made to fit the type its context asks for. -/
def expr (structs : StructTable) (e : Expr Atom) (expected : Option Ty) :
    Walk (Ty × Expr Atom) := do
  let p ← e.terms.foldlM (step structs) {}
  match p.stack with
  | [top] =>
    match expected with
    | some expected =>
      let (ty, p) ← p.apply top expected e.span.start
      return (ty, ⟨p.steps, e.span⟩)
    | none => return (top.ty, ⟨p.steps, e.span⟩)
  | _ => Walk.failAt e.span.start .undeterminedType

/-- Types a declaration.  The variable is not linked to its first value: what narrows it later
leaves that value alone. -/
def declaration (structs : StructTable) (ty : Option TypeName) (init : Option (Expr Atom))
    (id : Nat) : Walk (Option (Expr Atom)) := do
  let scopes ← get
  let declared := ty.map fun _ => scopes.typeOf id
  match init with
  | some init =>
    let (ty, checked) ← expr structs init declared
    if ty.isVoid then
      Walk.failAt init.span.start (.typeMatchError "a value" ty.shown)
    modify (·.setType id ty)
    return some checked
  | none =>
    modify (·.setType id (declared.getD .anyValue))
    return none

/-- Checks that an assignment may write what it names. -/
def writable (target : String) (binding : Option Binding) (position : Position) :
    Walk Unit := do
  match binding with
  | some (.localVar id) =>
    if ((← get).var? id).any Variable.isParam then
      Walk.failAt position (.assignToParameter target)
  | some (.globalVar g) => if g.isConst then Walk.failAt position (.assignToConstant target)
  | none => return

/-- Types an assignment. -/
def assignment (structs : StructTable) (target : String) (binding : Option Binding)
    (members : List MemberRef) (value : Expr Atom) (span : Span) : Walk (Stmt Atom) := do
  writable target binding span.start
  let (targetTy, members) ← assignmentType structs target binding members span.start
  let (ty, value) ← expr structs value (some targetTy)
  match targetTy.isComplete, binding with
  | false, some (.localVar id) => modify (·.setType id ty)
  | _, _ => pure ()
  return .assign target binding members value span

/-- Types a `return`. -/
def ret (structs : StructTable) (result : Ty) (value : Option (Expr Atom)) (span : Span) :
    Walk (Stmt Atom) := do
  match value with
  | some value =>
    if result.isVoid then
      let (received, _) ← expr structs value none
      Walk.failAt value.span.start (mismatch result received)
    let (_, value) ← expr structs value (some result)
    return .ret (some value) span
  | none =>
    if !result.isVoid then Walk.failAt span.start (mismatch result .void)
    return .ret none span

/-- Types a condition. -/
def condition (structs : StructTable) (e : Expr Atom) : Walk (Expr Atom) :=
  return (← expr structs e (some .bool)).2

/-- Types a statement without blocks. -/
def simple (structs : StructTable) (result : Ty) : Stmt Atom → Walk (Stmt Atom)
  | .declare name ty init var hidden span => do
    match var with
    | none => Walk.failAt span.start (.variableNotDeclared name)
    | some id =>
      let init ← declaration structs ty init id
      return .declare name ty init var hidden span
  | .assign target binding members value span =>
    assignment structs target binding members value span
  | .eval value span => return .eval (← expr structs value none).2 span
  | .ret value span => ret structs result value span
  | s => return s

/-- Type checking as a pass. -/
def pass (structs : StructTable) (result : Ty) : Pass where
  enter _ := return
  simple := simple structs result
  condition := condition structs

end Check

/-- The module with every expression typed. -/
def Module.typeCheck (structs : StructTable) (m : Module) : Except Error Module :=
  m.walk (Pass.function (Check.pass structs))

end EbLang
