import EbLang.Proofs.Annotation.Bodies

/-!
# Balance of typed expressions

Typing reads an expression onto a stack of operand types.  Every step of a reading takes the operands
that it says and leaves one value, so the stack is as high as the steps say: reading a balanced
expression, no step finds too few operands and one is left.

A balanced expression is that of a full operation, and what typing makes of a full operation is full.
So typing keeps expressions balanced, and with them whole modules.
-/

namespace EbLang

/-! ## Reading an expression -/

/-- No step of a reading finds too few operands, and one operand is left at the end. -/
structure ReadsWhole (step : Progress → Atom → Walk Progress) (as : List Atom) : Prop where
  enough : ∀ before a after, as = before ++ a :: after →
    Ensures (before.foldlM step {}) fun p => a.takes ≤ p.stack.length
  one : Ensures (as.foldlM step {}) fun p => ∃ o, p.stack = [o]

theorem Progress.Annotates.length_stack {p p' : Progress} {a : Atom} {kind : AtomKind}
    {cs : List (Option Signature)} (h : p.Annotates a kind cs p') :
    p'.stack.length = p.stack.length - a.takes + 1 := by
  have length := congrArg List.length h.stack
  rwa [List.length_map, List.length_cons, List.length_map, List.length_drop] at length

namespace Annotating

variable {step : Progress → Atom → Walk Progress}

/-- The stack is as high as the steps say. -/
theorem ensures_height (h : Annotating step) :
    ∀ {as : List Atom} {p : Progress} {n : Nat}, height? Atom.takes p.stack.length as = some n →
      Ensures (as.foldlM step p) fun p' => p'.stack.length = n
  | [], p, n, height => by
    exact ensures_pure (Option.some.inj height)
  | a :: as, p, n, height => by
    rw [height?, Option.ite_none_right_eq_some] at height
    refine ensures_bind (h p a) ?_
    rintro p' ⟨kind, cs, annotates⟩
    refine h.ensures_height ?_
    rw [annotates.length_stack, height.2]

/-- A balanced expression is read to its end. -/
theorem readsWhole (h : Annotating step) {as : List Atom} (balanced : Balanced Atom.takes as) :
    ReadsWhole step as where
  enough before a after eq := by
    subst eq
    obtain ⟨n, height, enough⟩ := takes_le_of_height? balanced
    exact ensures_imp (h.ensures_height height) fun p length => length ▸ enough
  one := ensures_imp (h.ensures_height balanced) fun p length => List.length_eq_one_iff.mp length

end Annotating

/-! ## Expressions -/

mutual

theorem Operation.IsFull.raises : ∀ {o : Operation}, o.IsFull → Raises Untyped.takes 1 o.steps
  | .mk step args, full => by
    exact (AllFull.raises full.2).snoc full.1.symm

theorem AllFull.raises :
    ∀ {os : List Operation}, AllFull os → Raises Untyped.takes os.length (stepsOf os)
  | [], _ => by
    exact raises_nil
  | o :: os, full => by
    rw [stepsOf, List.length_cons, Nat.add_comm]
    exact full.1.raises.append (AllFull.raises full.2)

end

/-- Typing keeps expressions balanced. -/
theorem Turns.balanced {asked : Ty → Prop} {as as' : List Atom} (h : Turns asked as as')
    (balanced : Balanced Atom.takes as) : Balanced Atom.takes as' := by
  obtain ⟨o, full, steps⟩ := balanced.exists_operation
  obtain ⟨o', fitted, steps'⟩ := h o full steps
  refine (height?_congr ?_ 0).trans (fitted.isFull full).raises
  rw [steps', List.map_map]
  rfl

/-! ## Bodies -/

section Bodies

variable {R : (Ty → Prop) → Expr Atom → Expr Atom → Prop} {result : Ty}

/-- Related expressions are balanced together. -/
def KeepsBalance (R : (Ty → Prop) → Expr Atom → Expr Atom → Prop) : Prop :=
  ∀ asked e e', R asked e e' → Balanced Atom.takes e.terms → Balanced Atom.takes e'.terms

theorem forall_mem_of_optionRel (keeps : KeepsBalance R) {asked : Ty → Prop}
    {a b : Option (Expr Atom)} (h : Option.Rel (R asked) a b)
    (balanced : ∀ e ∈ a.toList, Balanced Atom.takes e.terms) :
    ∀ e ∈ b, Balanced Atom.takes e.terms := by
  cases h with
  | none => exact fun e there => absurd there (Option.not_mem_none e)
  | some related =>
    rintro _ ⟨⟩
    exact keeps _ _ _ related (balanced _ List.mem_cons_self)

theorem ArmsAlike.isBalanced_conditions (keeps : KeepsBalance R) :
    ∀ {arms arms' : List (Arm Atom)}, ArmsAlike R result arms arms' →
      (∀ e ∈ arms.map Arm.condition, Balanced Atom.takes e.terms) →
      ∀ e ∈ arms'.map Arm.condition, Balanced Atom.takes e.terms
  | _, _, .nil, balanced => balanced
  | _, _, .cons condition _ arms, balanced =>
    have ⟨first, others⟩ := List.forall_mem_cons.mp balanced
    List.forall_mem_cons.mpr ⟨keeps _ _ _ condition first, arms.isBalanced_conditions keeps others⟩

mutual

/-- A relation that keeps expressions balanced keeps statements so. -/
theorem StmtAlike.isBalanced (keeps : KeepsBalance R) :
    ∀ {s s' : Stmt Atom}, StmtAlike R result s s' → s.Everywhere Stmt.IsBalanced →
      s'.Everywhere Stmt.IsBalanced
  | _, _, .declare init, h =>
    isBalanced_of_optional rfl trivial (forall_mem_of_optionRel keeps init h.exprs)
  | _, _, .assign _ value, h =>
    isBalanced_of_single rfl trivial (keeps _ _ _ value (h.exprs _ List.mem_cons_self))
  | _, _, .eval value, h =>
    isBalanced_of_single rfl trivial (keeps _ _ _ value (h.exprs _ List.mem_cons_self))
  | _, _, .ret value, h =>
    isBalanced_of_optional rfl trivial (forall_mem_of_optionRel keeps value h.exprs)
  | _, _, .branch arms otherwise, ⟨⟨exprs, hasArm⟩, inArms, inOther⟩ => by
    refine ⟨⟨arms.isBalanced_conditions keeps exprs, ?_⟩, arms.isBalanced keeps inArms,
      otherwise.isBalanced keeps inOther⟩
    cases arms with
    | nil => exact hasArm
    | cons => exact List.cons_ne_nil _ _
  | _, _, .loop condition body, ⟨here, inBody⟩ =>
    ⟨isBalanced_of_single rfl trivial (keeps _ _ _ condition (here.exprs _ List.mem_cons_self)),
      body.isBalanced keeps inBody⟩
  | _, _, .breakOut, h => h
  | _, _, .continueLoop, h => h

theorem ArmsAlike.isBalanced (keeps : KeepsBalance R) :
    ∀ {arms arms' : List (Arm Atom)}, ArmsAlike R result arms arms' →
      ArmsEverywhere Stmt.IsBalanced arms → ArmsEverywhere Stmt.IsBalanced arms'
  | _, _, .nil, _ => trivial
  | _, _, .cons _ body arms, ⟨inBody, inArms⟩ =>
    ⟨body.isBalanced keeps inBody, arms.isBalanced keeps inArms⟩

theorem OtherwiseAlike.isBalanced (keeps : KeepsBalance R) :
    ∀ {b b' : Option (Block Atom)}, OtherwiseAlike R result b b' →
      OtherwiseEverywhere Stmt.IsBalanced b → OtherwiseEverywhere Stmt.IsBalanced b'
  | _, _, .none, _ => trivial
  | _, _, .some body, h => body.isBalanced keeps h

theorem BlockAlike.isBalanced (keeps : KeepsBalance R) :
    ∀ {b b' : Block Atom}, BlockAlike R result b b' → b.IsBalanced → b'.IsBalanced
  | _, _, .mk body, h => body.isBalanced keeps h

theorem StmtsAlike.isBalanced (keeps : KeepsBalance R) :
    ∀ {ss ss' : List (Stmt Atom)}, StmtsAlike R result ss ss' → StmtsBalanced ss → StmtsBalanced ss'
  | _, _, .nil, _ => trivial
  | _, _, .cons s ss, ⟨here, others⟩ => ⟨s.isBalanced keeps here, ss.isBalanced keeps others⟩

end

end Bodies

theorem FunctionAlike.isBalanced {f f' : FunctionItem Atom} (h : FunctionAlike Expr.Turns f f')
    (balanced : f.body.IsBalanced) : f'.body.IsBalanced := by
  cases signature : f.signature with
  | none =>
    rw [h.undeclared signature]
    exact balanced
  | some s => exact (h.body s signature).isBalanced (fun _ _ _ turns => turns.2.balanced) balanced

/-! ## Modules -/

theorem FileTree.Alike.isBalanced {t t' : FileTree Atom}
    (h : t.Alike (FunctionAlike Expr.Turns) t') (balanced : t.IsBalanced) : t'.IsBalanced := by
  refine h.items.wellFormed (fun f f' alike => ⟨alike.isBalanced, by rw [alike.rest]⟩) ?_ balanced
  rintro g _ rfl
  rfl

variable {m : Module}

/-- Type checking keeps a module well-formed. -/
theorem Module.ensures_typeCheck (structs : StructTable) (h : m.tree.IsBalanced) :
    Ensures (m.typeCheck structs) fun m' => m'.tree.IsBalanced :=
  ensures_imp (m.alike_typeCheck structs) fun _ alike => alike.1.isBalanced h

/-- Settling types keeps a module well-formed. -/
theorem Module.ensures_complete (structs : StructTable) (h : m.tree.IsBalanced) :
    Ensures (m.complete structs) fun m' => m'.tree.IsBalanced :=
  ensures_imp (m.alike_complete structs) fun _ alike => alike.1.isBalanced h

end EbLang
