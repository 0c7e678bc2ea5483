import EbLang.Tree

/-!
# Changing the steps of a tree

A function on steps carries over to expressions, statements, blocks and items.  In particular every
tree over atoms is a tree over terms.
-/

namespace EbLang

variable {τ σ : Type}

/-- The expression with every step changed. -/
def Expr.map (f : τ → σ) (e : Expr τ) : Expr σ := ⟨e.terms.map f, e.span⟩

mutual

/-- The statement with every step changed. -/
def Stmt.map (f : τ → σ) : Stmt τ → Stmt σ
  | .declare name ty init var hidden span =>
    .declare name ty (init.map (Expr.map f)) var hidden span
  | .assign target binding members value span =>
    .assign target binding members (value.map f) span
  | .eval value span => .eval (value.map f) span
  | .ret value span => .ret (value.map (Expr.map f)) span
  | .branch arms otherwise span => .branch (mapArms f arms) (mapOtherwise f otherwise) span
  | .loop condition body span => .loop (condition.map f) (body.map f) span
  | .breakOut amount span => .breakOut amount span
  | .continueLoop span => .continueLoop span

/-- The arms with every step changed. -/
def mapArms (f : τ → σ) : List (Arm τ) → List (Arm σ)
  | [] => []
  | .mk condition body :: arms => .mk (condition.map f) (body.map f) :: mapArms f arms

/-- The last branch with every step changed. -/
def mapOtherwise (f : τ → σ) : Option (Block τ) → Option (Block σ)
  | none => none
  | some body => some (body.map f)

/-- The block with every step changed. -/
def Block.map (f : τ → σ) : Block τ → Block σ
  | .mk id body span => .mk id (mapStmts f body) span

/-- The statements with every step changed. -/
def mapStmts (f : τ → σ) : List (Stmt τ) → List (Stmt σ)
  | [] => []
  | s :: ss => s.map f :: mapStmts f ss

end

/-! ## Functions of a file -/

mutual

def Item.mapFunctionsM {m : Type → Type} [Monad m]
    (f : FunctionItem τ → m (FunctionItem σ)) : Item τ → m (Item σ)
  | .function i => do return .function (← f i)
  | .imports i => return .imports i
  | .global g => return .global g
  | .struct s => return .struct s
  | .submodule name items isPub isExtend span => do
    return .submodule name (← mapItemsM f items) isPub isExtend span

/-- The items with their functions changed, one after the other. -/
def mapItemsM {m : Type → Type} [Monad m]
    (f : FunctionItem τ → m (FunctionItem σ)) : List (Item τ) → m (List (Item σ))
  | [] => return []
  | i :: is => do
    let i ← i.mapFunctionsM f
    let is ← mapItemsM f is
    return i :: is

end

def FileTree.mapFunctionsM {m : Type → Type} [Monad m]
    (f : FunctionItem τ → m (FunctionItem σ)) (t : FileTree τ) : m (FileTree σ) := do
  let items ← mapItemsM f t.items
  return { name := t.name, items, nextBlock := t.nextBlock }

/-- The file with every step of its function bodies changed. -/
def FileTree.map (f : τ → σ) (t : FileTree τ) : FileTree σ :=
  Id.run (t.mapFunctionsM fun i => pure { i with body := i.body.map f })

end EbLang
