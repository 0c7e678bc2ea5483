import EbLang.Proofs.Occurrences
import EbLang.ShortCircuit

/-!
# What occurs after operators were made conditional

Making operators conditional moves what occurs in a tree and makes blocks.  It brings nothing else, so
what a `Collector` finds afterwards it found before, or it is the number of a new block.

Which block or name goes where does not matter, so occurrences are counted: `Gathered` bounds how many
of a kind there are after the pass by how many there were before.
-/

namespace EbLang

variable {α : Type}

/-! ## Counting -/

/-- How many of a kind the blocks with numbers below `n` contribute. -/
def Collector.below (c : Collector α) (p : α → Bool) (n : Nat) : Nat :=
  ((List.range n).flatMap c.block).countP p

/-- Some occurrences become others when the numbers from `n` up to `n'` are handed out: of no kind are
there more than before, but for the new numbers. -/
structure Gathered (c : Collector α) (n n' : Nat) (old new : List α) : Prop where
  le : n ≤ n'
  count_le : ∀ p, new.countP p + c.below p n ≤ old.countP p + c.below p n'

/-- Whether the steps that the pass makes itself contribute nothing. -/
structure Collector.IsBare (c : Collector α) : Prop where
  negation : ∀ span, c.atom (.operator "!" 1 span) = []
  literal : ∀ value span, c.atom (.bool value span) = []

namespace Gathered

variable {c : Collector α} {n n1 n2 : Nat} {old old1 old2 new new1 new2 : List α}

theorem of_le (le : n ≤ n1) (old : List α) : Gathered c n n1 old old := by
  refine ⟨le, fun p => Nat.add_le_add_left ?_ _⟩
  obtain ⟨k, rfl⟩ := Nat.exists_eq_add_of_le le
  rw [Collector.below, Collector.below, List.range_add, List.flatMap_append, List.countP_append]
  exact Nat.le_add_right ..

protected theorem refl (n : Nat) (old : List α) : Gathered c n n old old := of_le (Nat.le_refl n) old

/-- One pass after the other over two parts. -/
theorem append (h1 : Gathered c n n1 old1 new1) (h2 : Gathered c n1 n2 old2 new2) :
    Gathered c n n2 (old1 ++ old2) (new1 ++ new2) := by
  refine ⟨Nat.le_trans h1.le h2.le, fun p => ?_⟩
  have c1 := h1.count_le p
  have c2 := h2.count_le p
  rw [List.countP_append, List.countP_append]
  omega

/-- One pass after the other over the same part. -/
protected theorem trans (h1 : Gathered c n n1 old new) (h2 : Gathered c n1 n2 new new2) :
    Gathered c n n2 old new2 := by
  refine ⟨Nat.le_trans h1.le h2.le, fun p => ?_⟩
  have c1 := h1.count_le p
  have c2 := h2.count_le p
  omega

/-- A block is made. -/
theorem fresh (h : Gathered c n n1 old new) : Gathered c n (n1 + 1) old (c.block n1 ++ new) := by
  refine ⟨Nat.le_succ_of_le h.le, fun p => ?_⟩
  have counts := h.count_le p
  simp only [Collector.below, List.range_succ, List.flatMap_append, List.flatMap_singleton,
    List.countP_append] at counts ⊢
  omega

theorem perm (h : Gathered c n n1 old new) (before : old.Perm old1) (after : new.Perm new1) :
    Gathered c n n1 old1 new1 := by
  refine ⟨h.le, fun p => ?_⟩
  rw [← before.countP_eq, ← after.countP_eq]
  exact h.count_le p

/-- Only how much there is of each kind matters. -/
theorem of_countP (h : Gathered c n n1 old new) (before : ∀ p, old.countP p ≤ old1.countP p)
    (after : ∀ p, new1.countP p ≤ new.countP p) : Gathered c n n1 old1 new1 := by
  refine ⟨h.le, fun p => ?_⟩
  have counts := h.count_le p
  have := before p
  have := after p
  omega

/-- If blocks contribute nothing then nothing is new. -/
theorem forall_mem (h : Gathered c n n1 old new) (quiet : ∀ i, c.block i = []) {P : α → Prop}
    (all : ∀ x ∈ old, P x) : ∀ x ∈ new, P x := by
  classical
  have counts := h.count_le (¬ P ·)
  have below (n : Nat) : c.below (¬ P ·) n = 0 := by simp [Collector.below, quiet]
  have none : old.countP (¬ P ·) = 0 := List.countP_eq_zero.mpr (by simpa using all)
  rw [below, below, none] at counts
  simpa using List.countP_eq_zero.mp (Nat.eq_zero_of_le_zero counts)

end Gathered

namespace ShortCircuit

variable {β γ : Type} {c : Collector α}

/-- What some operands contribute. -/
def collectOperands (c : Collector α) (os : List Operand) : List α :=
  os.flatMap fun o => collectTerms c o.terms

theorem collectOperands_cons (o : Operand) (os : List Operand) :
    collectOperands c (o :: os) = collectTerms c o.terms ++ collectOperands c os := List.flatMap_cons

theorem collectTerms_flatMap (os : List Operand) :
    collectTerms c (os.flatMap Operand.terms) = collectOperands c os := by
  induction os with
  | nil => rfl
  | cons o os ih => rw [List.flatMap_cons, collectTerms_append, ih, collectOperands_cons]

theorem countP_flatten (stack : List Operand) (p : α → Bool) :
    (collectTerms c (flatten stack)).countP p = (collectOperands c stack).countP p := by
  rw [flatten, collectTerms_flatMap]
  exact ((List.reverse_perm stack).flatMap_right _).countP_eq p

theorem collect_atom (a : Atom) : collectTerms c [.atom a] = c.atom a := List.append_nil _

theorem ensures_run_bind {x : StateM Nat β} {f : β → StateM Nat γ} {n : Nat} {P : β × Nat → Prop}
    {Q : γ × Nat → Prop} (hx : Ensures (x.run n) P)
    (hf : ∀ a n1, P (a, n1) → Ensures ((f a).run n1) Q) : Ensures ((x >>= f).run n) Q := by
  rw [StateT.run_bind]
  exact ensures_bind hx fun r h => hf r.1 r.2 h

theorem collect_conditional (bare : c.IsBare) (isOr : Bool) (left right : List Term) (span : Span)
    (thenId elseId : Nat) :
    collectTerms c [conditional isOr left right span thenId elseId] =
      collectTerms c left ++ (c.block thenId ++ (c.block elseId ++ collectTerms c right)) := by
  cases isOr <;>
    simp [conditional, valueBlock, collectTerms, Term.collect, collectArms, collectOtherwise,
      Expr.collect, Block.collect, collectStmts, Stmt.collect, collectTerms_append, bare.negation,
      bare.literal]

end ShortCircuit

end EbLang
