import EbLang.Resolve
import EbLang.Scopes.Walk
import EbLang.Tree.Map

/-!
# Passes over function bodies

Type checking and settling walk through a function body in the same way: the conditions of an `if`
come before its blocks, and statements are taken in order.  They differ in what they do to a condition,
to a statement without blocks, and before the statements of a block.  A `Pass` is those three, and
both stages are passes.
-/

namespace EbLang

/-- What a pass does to the parts of a function body. -/
structure Pass where
  /-- What comes before the statements of a block. -/
  enter : List (Stmt Atom) → Walk Unit
  /-- What happens to a statement without blocks. -/
  simple : Stmt Atom → Walk (Stmt Atom)
  /-- What happens to the condition of an `if` or a loop. -/
  condition : Expr Atom → Walk (Expr Atom)

namespace Pass

mutual

/-- A block after a pass. -/
def block (π : Pass) : Block Atom → Walk (Block Atom)
  | .mk id body span => do
    π.enter body
    return .mk id (← π.stmts body) span

/-- Some statements after a pass. -/
def stmts (π : Pass) : List (Stmt Atom) → Walk (List (Stmt Atom))
  | [] => return []
  | s :: ss => do
    let s ← π.stmt s
    let ss ← π.stmts ss
    return s :: ss

/-- A statement after a pass. -/
def stmt (π : Pass) : Stmt Atom → Walk (Stmt Atom)
  | .branch arms otherwise span => do
    let conditions ← (arms.map Arm.condition).mapM π.condition
    let bodies ← π.bodies arms
    let otherwise ← π.otherwise otherwise
    return .branch (List.zipWith .mk conditions bodies) otherwise span
  | .loop c body span => do
    let c ← π.condition c
    let body ← π.block body
    return .loop c body span
  | .declare name ty init var hidden span => π.simple (.declare name ty init var hidden span)
  | .assign target binding members value span =>
    π.simple (.assign target binding members value span)
  | .eval value span => π.simple (.eval value span)
  | .ret value span => π.simple (.ret value span)
  | .breakOut amount span => π.simple (.breakOut amount span)
  | .continueLoop span => π.simple (.continueLoop span)

/-- The bodies of some arms after a pass. -/
def bodies (π : Pass) : List (Arm Atom) → Walk (List (Block Atom))
  | [] => return []
  | .mk _ body :: arms => do
    let body ← π.block body
    let bodies ← π.bodies arms
    return body :: bodies

/-- The last branch of an `if` after a pass. -/
def otherwise (π : Pass) : Option (Block Atom) → Walk (Option (Block Atom))
  | none => return none
  | some body => return some (← π.block body)

end

/-- A function after a pass that depends on its result. -/
def function (π : Ty → Pass) (f : FunctionItem Atom) : Walk (FunctionItem Atom) := do
  match f.signature with
  | none => return f
  | some s => return { f with body := ← (π s.result).block f.body }

end Pass

/-- A module whose functions have been changed one after the other. -/
def Module.walk (m : Module) (f : FunctionItem Atom → Walk (FunctionItem Atom)) :
    Except Error Module :=
  let (result, scopes) := (m.tree.mapFunctionsM f).run.run m.scopes
  result.map fun tree => { m with tree, scopes }

end EbLang
