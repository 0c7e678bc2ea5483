import EbLang.Proofs.Balance.Hoist
import EbLang.Proofs.Balance.ShortCircuit
import EbLang.Proofs.Joins
import EbLang.Proofs.Reading

/-!
# Block numbers stay distinct

The passes that rewrite a tree move blocks about and make new ones.  A new block gets a number that no
block had before; the others keep theirs.  So the blocks of a file have different numbers at every
stage, as they have when it is read.
-/

namespace EbLang

variable {τ : Type}

/-! ## Merging modules -/

namespace Merge

theorem functionsOf_append (is js : List (Item τ)) :
    functionsOf (is ++ js) = functionsOf is ++ functionsOf js := by
  induction is with
  | nil => rfl
  | cons i is ih => rw [List.cons_append, functionsOf, functionsOf, ih, List.append_assoc]

theorem Joins.functions {is js : List (Item τ)} (h : Joins is js) :
    (functionsOf js).Perm (functionsOf is) := by
  induction h with
  | refl is => exact .refl _
  | trans _ _ ih ih' => exact ih'.trans ih
  | cons i _ ih => exact ih.append_left _
  | inside is _ ih => exact ih.append_right _
  | join is js =>
    simp only [functionsOf, Item.functions, functionsOf_append, List.append_assoc]
    refine .append_left _ ?_
    simp only [← List.append_assoc]
    exact List.perm_append_comm.append_right _

end Merge

/-! ## Files -/

def itemNumbers (is : List (Item τ)) : List Nat := (functionsOf is).flatMap fun f => f.body.numbers

section Files

variable {ρ σ : Type} {m : Type → Type} [Monad m] [Ensuring m] (next : σ → Nat)
  (old : FunctionItem τ → List Nat) (new : FunctionItem ρ → List Nat)
  {f : FunctionItem τ → StateT σ m (FunctionItem ρ)}

mutual

theorem Item.ensures_numbered :
    ∀ (i : Item τ) (s : σ), (∀ a ∈ i.functions, ∀ s, Ensures ((f a).run s) fun r =>
        Numbered (next s) (next r.2) (old a) (new r.1)) →
      Ensures ((i.mapFunctionsM f).run s) fun r =>
        Numbered (next s) (next r.2) (i.functions.flatMap old) (r.1.functions.flatMap new)
  | .function a, s, h => by
    refine ensures_bind (h a (List.mem_singleton_self a) s) fun ⟨b, s1⟩ hb => ?_
    refine ensures_pure ?_
    simpa only [Item.functions, List.flatMap_cons, List.flatMap_nil, List.append_nil] using hb
  | .submodule name items isPub isExtend span, s, h => by
    refine ensures_bind (ensures_itemsNumbered items s h) fun ⟨items', s1⟩ hi => ?_
    refine ensures_pure ?_
    exact hi
  | .imports _, s, _ | .global _, s, _ | .struct _, s, _ => by
    refine ensures_pure ?_
    exact .refl _ _

/-- What a pass hands out for every function it hands out for a file. -/
theorem ensures_itemsNumbered :
    ∀ (is : List (Item τ)) (s : σ), (∀ a ∈ functionsOf is, ∀ s, Ensures ((f a).run s) fun r =>
        Numbered (next s) (next r.2) (old a) (new r.1)) →
      Ensures ((mapItemsM f is).run s) fun r =>
        Numbered (next s) (next r.2) ((functionsOf is).flatMap old) ((functionsOf r.1).flatMap new)
  | [], s, _ => by
    exact ensures_pure (by simpa only [functionsOf] using .refl _ _)
  | i :: is, s, h => by
    obtain ⟨hi, his⟩ := List.forall_mem_append.mp h
    refine ensures_bind (Item.ensures_numbered i s hi) fun ⟨j, s1⟩ hj => ?_
    refine ensures_bind (ensures_itemsNumbered is s1 his) fun ⟨js, s2⟩ hjs => ?_
    refine ensures_pure ?_
    rw [functionsOf, functionsOf, List.flatMap_append, List.flatMap_append]
    exact hj.append hjs

end

end Files

theorem FileTree.WellFormed.numbered_shorten {t : FileTree Term} (wf : t.WellFormed) :
    Numbered t.nextBlock t.shorten.nextBlock (collectBodies .ids t.functions)
      (collectBodies .ids t.shorten.functions) := by
  refine ensures_itemsNumbered (m := Id) id (fun f => f.body.collect .ids)
    (fun f => f.body.collect .ids) t.items t.nextBlock fun f hf n => ?_
  rw [StateT.run_bind]
  exact ensures_bind (ShortCircuit.ensures_block ShortCircuit.isBare_ids f.body
    (ItemsWellFormed.forall_functions wf f hf) n) fun ⟨b, n1⟩ h => ensures_pure h.1

theorem FileTree.WellFormed.numbered_hoist {t : FileTree Term} (wf : t.WellFormed) :
    Ensures t.hoist fun t' => Numbered t.nextBlock t'.nextBlock (collectBodies .ids t.functions)
      (itemNumbers t'.items) := by
  unfold FileTree.hoist
  dsimp only
  unfold FileTree.mapFunctionsM
  rw [StateT.run_bind, bind_assoc]
  refine ensures_bind (ensures_itemsNumbered Hoist.Supply.block (fun f => f.body.collect .ids)
    (fun f => f.body.numbers) t.items _ fun f hf σ => ?_) fun ⟨is, σ⟩ h => ensures_pure h
  exact ensures_bind (Hoist.ensures_block (P := fun _ => True) (fun _ => trivial) none f.body
    (ItemsWellFormed.forall_functions wf f hf) (fun _ _ => trivial) σ) fun ⟨b, σ1⟩ h => ensures_pure h.1

theorem FileTree.numbers_addReturns (t : FileTree Atom) :
    Ensures t.addReturns fun t' => itemNumbers t'.items = itemNumbers t.items := by
  refine ensures_imp (t.ensures_addReturns fun _ => True) fun t' same => ?_
  have his := same.functions
  unfold itemNumbers
  generalize functionsOf t.items = fs, functionsOf t'.items = gs at his ⊢
  induction his with
  | nil => rfl
  | cons h _ ih => rw [List.flatMap_cons, List.flatMap_cons, h.numbers, ih]

/-- The tree of a file when its names are about to be resolved. -/
def readTree (l : Lexed) (name : String) : Except Error (FileTree Atom) := do
  let tree ← parse l name
  let tree ← tree.shorten.hoist
  tree.addReturns

/-- When the names of a file are resolved its blocks have different numbers. -/
theorem ensures_readTree_nodup (l : Lexed) (name : String) :
    Ensures (readTree l name) fun t => (itemNumbers t.items).Nodup := by
  refine ensures_bind (ensures_parse l name) fun t read => ?_
  obtain ⟨nodup, below⟩ := read.wellFormed.numbered_shorten.distinct read.ids_nodup read.ids_lt
  refine ensures_bind read.wellFormed.shorten.numbered_hoist fun t' numbered => ?_
  refine ensures_imp t'.numbers_addReturns fun t'' same => ?_
  rw [same]
  exact (numbered.distinct nodup below).1

end EbLang
