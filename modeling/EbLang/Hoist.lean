import EbLang.Error
import EbLang.Tree.Map

/-!
# Hoisting value-`if`s

A value-`if` moves in front of the statement that uses it.  A hidden variable is declared, every
branch ends by assigning its value to the variable, and the place of the `if` reads the variable:

    x := 1 + if c { a } else { b }

becomes

    eb$tmp0
    if c { eb$tmp0 = a } else { eb$tmp0 = b }
    x := 1 + eb$tmp0

Two statements cannot simply have their conditions computed before them.

* A `while` whose condition holds a value-`if` computes it at the top of its body, every round, and
  leaves if it does not hold.
* An `else if` whose condition holds one becomes an `if` inside an `else`.

All value-`if`s of one statement are numbered before those inside them.
-/

namespace EbLang

namespace Hoist

/-! ## Which value-`if`s have a value -/

mutual

/-- Checks that the last statement gives a value or leaves; `outer` is the `if` it is in. -/
def checkTail (outer : Span) : List (Stmt Term) → Except Error Unit
  | [] => .error ⟨.expectedDrop, outer.start⟩
  | s :: ss => if ss.isEmpty then checkLast s else checkTail outer ss

/-- Checks that a statement gives a value or leaves. -/
def checkLast : Stmt Term → Except Error Unit
  | .eval .. | .ret .. | .breakOut .. | .continueLoop .. => .ok ()
  | .branch arms otherwise span => do
    if otherwise.isNone then throw ⟨.droppingIfWithoutElse, span.start⟩
    checkArms span arms
    checkOtherwise span otherwise
  | .declare _ _ _ _ _ span => .error ⟨.expectedDrop, span.start⟩
  | .assign _ _ _ _ span => .error ⟨.expectedDrop, span.start⟩
  | .loop _ _ span => .error ⟨.expectedDrop, span.start⟩

/-- Checks the guarded branches of an `if`. -/
def checkArms (outer : Span) : List (Arm Term) → Except Error Unit
  | [] => .ok ()
  | .mk _ body :: arms => do
    checkBlock outer body
    checkArms outer arms

/-- Checks the last branch of an `if`. -/
def checkOtherwise (outer : Span) : Option (Block Term) → Except Error Unit
  | none => .ok ()
  | some body => checkBlock outer body

/-- Checks a branch. -/
def checkBlock (outer : Span) : Block Term → Except Error Unit
  | .mk _ body _ => checkTail outer body

end

/-- Checks that a term has a value: every branch of a value-`if` gives one or leaves, and one of
them is taken. -/
def checkTerm : Term → Except Error Unit
  | .atom _ => .ok ()
  | .choice arms otherwise span => checkLast (.branch arms otherwise span)

/-! ## Moving them -/

/-- The numbers to hand out next. -/
structure Supply where
  /-- The number of the next hidden variable. -/
  temporary : Nat
  /-- The number of the next block. -/
  block : Nat

/-- Hoisting hands out numbers and may fail. -/
abbrev M := StateT Supply (Except Error)

/-- Hands out a block number. -/
def freshBlock : M Nat := modifyGet fun s => (s.block, { s with block := s.block + 1 })

/-- Hands out some numbers of hidden variables; the first one is returned. -/
def freshTemporaries (count : Nat) : M Nat :=
  modifyGet fun s => (s.temporary, { s with temporary := s.temporary + count })

/-- The name of a hidden variable, which no name in source text can be. -/
def temporaryName (number : Nat) : String := "eb$tmp" ++ toString number

/-- The statement that gives a branch its value. -/
def deliver (target : Option String) (value : Expr Atom) (span : Span) : Stmt Atom :=
  match target with
  | some target => .assign target none [] value span
  | none => .eval value span

/-- A hidden variable for the value of a value-`if`. -/
def declareTemporary (name : String) (span : Span) : Stmt Atom :=
  .declare name none none none true span

/-- A moved arm, and the statements that prepare its condition. -/
structure PreparedArm where
  prelude : List (Stmt Atom)
  condition : Expr Atom
  body : Block Atom

/-- The arm alone. -/
def PreparedArm.arm (p : PreparedArm) : Arm Atom := .mk p.condition p.body

/-- The arms after the first, and what follows them; from the first one on that needs preparation
they are moved inside an `else`.  `last` is the span of the last branch of all. -/
def chain (last : Span) : List PreparedArm → Option (Block Atom) →
    M (List (Arm Atom) × Option (Block Atom))
  | [], otherwise => return ([], otherwise)
  | p :: ps, otherwise => do
    let (arms, otherwise) ← chain last ps otherwise
    if p.prelude.isEmpty then return (p.arm :: arms, otherwise)
    else
      let span := p.condition.span.upTo last
      let inner := p.prelude ++ [.branch (p.arm :: arms) otherwise span]
      return ([], some (.mk (← freshBlock) inner span))

/-- An `if` after the preparation of its first condition. -/
def branch (last : Span) (prepared : List PreparedArm) (otherwise : Option (Block Atom))
    (span : Span) : M (List (Stmt Atom)) := do
  match prepared with
  | [] => return [.branch [] otherwise span]
  | p :: ps =>
    let (arms, otherwise) ← chain last ps otherwise
    return p.prelude ++ [.branch (p.arm :: arms) otherwise span]

/-- A `while` that computes its condition in its body. -/
def guardLoop (prelude : List (Stmt Atom)) (condition : Expr Atom) (body : Block Atom)
    (span : Span) : M (Stmt Atom) := do
  let place := condition.span
  let goOn : Block Atom := .mk (← freshBlock) [] place
  let leave : Block Atom := .mk (← freshBlock) [.breakOut 1 place] place
  let guard : Stmt Atom := .branch [.mk condition goOn] (some leave) place
  return .loop (.ofAtom (.bool true place)) (.mk body.id (prelude ++ guard :: body.body) body.span)
    span

/-- The span of the last branch of an `if`. -/
def lastSpan (arms : List (Arm Term)) (otherwise : Option (Block Term)) (span : Span) : Span :=
  match otherwise with
  | some body => body.span
  | none => (arms.getLast?.map fun a => a.body.span).getD span

mutual

/-- A step of an expression, after the statements that prepare it; `number` is that of the hidden
variable for its value. -/
def term (number : Nat) : Term → M (List (Stmt Atom) × Atom)
  | .atom a => return ([], a)
  | .choice as otherwise span => do
    let name := temporaryName number
    let last := lastSpan as otherwise span
    let prepared ← arms (some name) as
    let otherwise ← optionalBlock (some name) otherwise
    let inner ← branch last prepared otherwise span
    return (declareTemporary name span :: inner, .var name span)

/-- Some steps of an expression; `number` is that of the first hidden variable. -/
def terms (number : Nat) : List Term → M (List (Stmt Atom) × List Atom)
  | [] => return ([], [])
  | t :: ts => do
    let (first, a) ← term number t
    let (others, as) ← terms (if t.isChoice then number + 1 else number) ts
    return (first ++ others, a :: as)

/-- An expression, after the statements that prepare it. -/
def expr : Expr Term → M (List (Stmt Atom) × Expr Atom)
  | ⟨ts, span⟩ => do
    let number ← freshTemporaries (ts.countP Term.isChoice)
    ts.forM fun t => checkTerm t
    let (prelude, atoms) ← terms number ts
    return (prelude, ⟨atoms, span⟩)

/-- An expression that may be missing. -/
def optionalExpr : Option (Expr Term) → M (List (Stmt Atom) × Option (Expr Atom))
  | none => return ([], none)
  | some e => do
    let (prelude, e) ← expr e
    return (prelude, some e)

/-- The arms of an `if`, each with what prepares it. -/
def arms (target : Option String) : List (Arm Term) → M (List PreparedArm)
  | [] => return []
  | .mk condition body :: as => do
    let (prelude, condition) ← expr condition
    let body ← block target body
    let as ← arms target as
    return ⟨prelude, condition, body⟩ :: as

/-- A block that may be missing. -/
def optionalBlock (target : Option String) : Option (Block Term) → M (Option (Block Atom))
  | none => return none
  | some b => do return some (← block target b)

/-- A block of which the last statement's value goes to `target`. -/
def block (target : Option String) : Block Term → M (Block Atom)
  | .mk id body span => do return .mk id (← stmts target body) span

/-- Statements of which the last one's value goes to `target`. -/
def stmts (target : Option String) : List (Stmt Term) → M (List (Stmt Atom))
  | [] => return []
  | s :: ss => do
    let first ← stmt (if ss.isEmpty then target else none) s
    let others ← stmts target ss
    return first ++ others

/-- A statement whose value goes to `target`, after the statements that prepare it. -/
def stmt (target : Option String) : Stmt Term → M (List (Stmt Atom))
  | .declare name ty init var hidden span => do
    let (prelude, init) ← optionalExpr init
    return prelude ++ [.declare name ty init var hidden span]
  | .assign name binding members value span => do
    let (prelude, value) ← expr value
    return prelude ++ [.assign name binding members value span]
  | .eval value span => do
    let (prelude, value) ← expr value
    return prelude ++ [deliver target value span]
  | .ret value span => do
    let (prelude, value) ← optionalExpr value
    return prelude ++ [.ret value span]
  | .branch as otherwise span => do
    let last := lastSpan as otherwise span
    let prepared ← arms target as
    let otherwise ← optionalBlock target otherwise
    branch last prepared otherwise span
  | .loop condition body span => do
    let (prelude, condition) ← expr condition
    let body ← block none body
    if prelude.isEmpty then return [.loop condition body span]
    else return [← guardLoop prelude condition body span]
  | .breakOut amount span => return [.breakOut amount span]
  | .continueLoop span => return [.continueLoop span]

end

end Hoist

/-- The file with every value-`if` of its functions made a statement. -/
def FileTree.hoist (t : FileTree Term) : Except Error (FileTree Atom) := do
  let hoisted := t.mapFunctionsM fun f => do
    return { f with body := ← Hoist.block none f.body }
  let (t', supply) ← hoisted.run ⟨0, t.nextBlock⟩
  return { t' with nextBlock := supply.block }

end EbLang
