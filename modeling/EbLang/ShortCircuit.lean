import EbLang.Tree.Map

/-!
# Short-circuit operators

`a && b` and `a || b` are operator calls that take both operands.  Where an operand has effects the
operator becomes a value-`if`, so that the right operand only runs when it decides the result:

* `a || b` becomes `if a { true } else { b }`,
* `a && b` becomes `if !a { false } else { b }`.

An expression is read once from left to right, with the operands found so far on a stack.  An
operand has effects if it calls a function or holds a value-`if`.
-/

namespace EbLang.ShortCircuit

/-- An operand: its steps, and whether running it has effects. -/
structure Operand where
  terms : List Term
  effects : Bool

/-- The steps of the operands on a stack, the deepest first. -/
def flatten (stack : List Operand) : List Term := stack.reverse.flatMap Operand.terms

/-- Hands out a block number. -/
def freshBlock : StateM Nat Nat := modifyGet fun n => (n, n + 1)

def valueBlock (id : Nat) (value : Expr Term) : Block Term :=
  .mk id [.eval value value.span] value.span

def firstSpan (terms : List Term) (default : Span) : Span :=
  (terms.head?.map Term.span).getD default

/-- The value-`if` of an operator whose right operand may have to be left out. -/
def conditional (isOr : Bool) (left right : List Term) (span : Span) (thenId elseId : Nat) :
    Term :=
  let condition := if isOr then left else left ++ [.atom (.operator "!" 1 span)]
  let decided : Expr Term := ⟨[.atom (.bool isOr span)], span⟩
  .choice [.mk ⟨condition, firstSpan condition span⟩ (valueBlock thenId decided)]
    (some (valueBlock elseId ⟨right, firstSpan right span⟩)) ((firstSpan left span).upTo span)

/-- Whether a call is of an operator that need not run its right operand. -/
def isShortCircuit (c : Call) : Bool :=
  c.isOperator && c.argCount == 2 && (c.name == "&&" || c.name == "||")

def pushCall (a : Atom) (c : Call) (operands : List Operand) (stack : List Operand) :
    StateM Nat (List Operand) := do
  let effects := operands.any Operand.effects
  match isShortCircuit c && effects, operands with
  | true, [left, right] =>
    let thenId ← freshBlock
    let elseId ← freshBlock
    let choice := conditional (c.name == "||") left.terms right.terms a.span thenId elseId
    return ⟨[choice], true⟩ :: stack
  | _, _ =>
    return ⟨operands.flatMap Operand.terms ++ [.atom a], effects || !c.isOperator⟩ :: stack

def push (a : Atom) (stack : List Operand) : StateM Nat (Option (List Operand)) := do
  match a.kind, stack with
  | .literal _, stack | .var _ _, stack => return some (⟨[.atom a], false⟩ :: stack)
  | .member _, base :: stack => return some (⟨base.terms ++ [.atom a], base.effects⟩ :: stack)
  | .member _, [] => return none
  | .call c, stack =>
    if stack.length < c.argCount then return none
    else
      return some (← pushCall a c (stack.take c.argCount).reverse (stack.drop c.argCount))

mutual

/-- Puts a step on the stack, none if its operands are missing. -/
def term (stack : List Operand) : Term → StateM Nat (Option (List Operand))
  | .atom a => push a stack
  | .choice as otherwise span => do
    let as ← arms as
    let otherwise ← optionalBlock otherwise
    return some (⟨[.choice as otherwise span], true⟩ :: stack)

/-- The steps of an expression, read onto a stack. -/
def terms (stack : List Operand) : List Term → StateM Nat (List Term)
  | [] => return flatten stack
  | t :: ts => do
    match ← term stack t with
    | some stack => terms stack ts
    | none => return flatten stack ++ t :: ts

/-- The expression with its operators made conditional. -/
def expr : Expr Term → StateM Nat (Expr Term)
  | ⟨ts, span⟩ => do return ⟨← terms [] ts, span⟩

/-- An expression that may be missing. -/
def optionalExpr : Option (Expr Term) → StateM Nat (Option (Expr Term))
  | none => return none
  | some e => do return some (← expr e)

def arms : List (Arm Term) → StateM Nat (List (Arm Term))
  | [] => return []
  | .mk condition body :: as => do
    let condition ← expr condition
    let body ← block body
    let as ← arms as
    return .mk condition body :: as

/-- A block that may be missing. -/
def optionalBlock : Option (Block Term) → StateM Nat (Option (Block Term))
  | none => return none
  | some b => do return some (← block b)

/-- The block with its operators made conditional. -/
def block : Block Term → StateM Nat (Block Term)
  | .mk id body span => do return .mk id (← stmts body) span

def stmts : List (Stmt Term) → StateM Nat (List (Stmt Term))
  | [] => return []
  | s :: ss => do
    let s ← stmt s
    let ss ← stmts ss
    return s :: ss

/-- The statement with its operators made conditional. -/
def stmt : Stmt Term → StateM Nat (Stmt Term)
  | .declare name ty init var hidden span => do
    return .declare name ty (← optionalExpr init) var hidden span
  | .assign target binding members value span => do
    return .assign target binding members (← expr value) span
  | .eval value span => do return .eval (← expr value) span
  | .ret value span => do return .ret (← optionalExpr value) span
  | .branch as otherwise span => do
    let as ← arms as
    let otherwise ← optionalBlock otherwise
    return .branch as otherwise span
  | .loop condition body span => do
    let condition ← expr condition
    let body ← block body
    return .loop condition body span
  | .breakOut amount span => return .breakOut amount span
  | .continueLoop span => return .continueLoop span

end

end ShortCircuit

/-- The file with every short-circuit operator that matters made conditional. -/
def FileTree.shorten (t : FileTree Term) : FileTree Term :=
  let (t', nextBlock) := (t.mapFunctionsM fun f => do
    return { f with body := ← ShortCircuit.block f.body }).run t.nextBlock
  { t' with nextBlock }

end EbLang
