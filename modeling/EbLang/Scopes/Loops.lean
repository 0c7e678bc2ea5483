import EbLang.Scopes.Walk
import EbLang.Tree

/-!
# Loops to leave

Every `break` has as many loops around it as it leaves, and every `continue` has one.
-/

namespace EbLang

variable {τ : Type}

namespace Loops

mutual

def block (isLoop : Bool) : Block τ → Walk Unit
  | .mk id body _ => Walk.within id isLoop (stmts body)

/-- Checks some statements. -/
def stmts : List (Stmt τ) → Walk Unit
  | [] => return
  | s :: ss => do
    stmt s
    stmts ss

/-- Checks a statement. -/
def stmt : Stmt τ → Walk Unit
  | .breakOut amount span => do
    if ((← get).loop? amount).isNone then Walk.failAt span.start .noLoopToBreak
  | .continueLoop span => do
    if ((← get).loop? 1).isNone then Walk.failAt span.start .noLoopToContinue
  | .branch as otherwise _ => do
    arms as
    optionalBlock otherwise
  | .loop _ body _ => block true body
  | .declare .. | .assign .. | .eval .. | .ret .. => return

def arms : List (Arm τ) → Walk Unit
  | [] => return
  | .mk _ body :: as => do
    block false body
    arms as

/-- Checks the last branch of an `if`. -/
def optionalBlock : Option (Block τ) → Walk Unit
  | none => return
  | some body => block false body

end

mutual

def item : Item τ → Walk Unit
  | .function f => block false f.body
  | .submodule _ inner _ _ _ => items inner
  | .imports _ | .global _ | .struct _ => return

def items : List (Item τ) → Walk Unit
  | [] => return
  | i :: is => do
    item i
    items is

end

end Loops

def FileTree.checkLoops (t : FileTree τ) : Walk Unit := Loops.items t.items

end EbLang
