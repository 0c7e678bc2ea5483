import EbLang.Proofs.Numbering
import EbLang.Proofs.Plain

/-!
# Names of items

The items of a file have names, those in its modules included.  The passes before names are resolved
change the bodies of functions and no name.  Merging the blocks of a module brings no name that was
not there.
-/

namespace EbLang

variable {σ τ : Type}

/-! ## Rewriting -/

section Functions

variable {m : Type → Type} [Monad m] [Ensuring m] {f : FunctionItem τ → m (FunctionItem σ)}

/-- Items in the places of others have the same names, if functions have. -/
theorem Corresponds.names {R : FunctionItem τ → FunctionItem σ → Prop} {is : List (Item τ)}
    {js : List (Item σ)} (h : Corresponds R Eq Eq is js) (same : ∀ f g, R f g → g.name = f.name) :
    namesOf js = namesOf is := by
  induction h with
  | nil => simp only [namesOf]
  | function related _ ih => simp only [namesOf, Item.names, ih, same _ _ related]
  | imports _ ih => simp only [namesOf, Item.names, ih]
  | global related _ ih | struct related _ ih => simp only [namesOf, Item.names, ih, related]
  | submodule _ _ ih ih' => simp only [namesOf, Item.names, ih, ih']

theorem FileTree.ensures_itemNames (h : ∀ a, Ensures (f a) fun b => b.name = a.name)
    (t : FileTree τ) :
    Ensures (t.mapFunctionsM f) fun t' => t'.name = t.name ∧ t'.itemNames = t.itemNames := by
  refine ensures_bind (ensures_mapItemsM t.items fun a _ => h a) fun items same => ?_
  exact ensures_pure ⟨rfl, same.names fun _ _ same => same⟩

end Functions

theorem FileTree.itemNames_shorten (t : FileTree Term) :
    t.shorten.name = t.name ∧ t.shorten.itemNames = t.itemNames := by
  have keeps (f : FunctionItem Term) : Ensures (m := StateM Nat)
      (do return { f with body := ← ShortCircuit.block f.body }) fun g => g.name = f.name :=
    ensures_then fun _ => ensures_pure rfl
  exact t.ensures_itemNames keeps t.nextBlock

theorem FileTree.itemNames_hoist (t : FileTree Term) :
    Ensures t.hoist fun t' => t'.name = t.name ∧ t'.itemNames = t.itemNames := by
  refine ensures_imp (FileTree.ensures_hoist (R := fun f g => g.name = f.name) fun _ _ => ?_)
    fun t' same => ⟨same.1, same.2.names fun _ _ same => same⟩
  exact ensures_of_forall fun _ => rfl

theorem FileTree.itemNames_addReturns (t : FileTree τ) :
    Ensures t.addReturns fun t' => t'.name = t.name ∧ t'.itemNames = t.itemNames := by
  refine t.ensures_itemNames fun f => ?_
  refine ensures_then fun flow => ?_
  split
  · exact ensures_then fun _ => ensures_pure rfl
  · exact ensures_pure rfl

/-- The names of a file when they are about to be resolved are those it was read with. -/
theorem ensures_readTree_named (l : Lexed) (name : String) :
    Ensures (readTree l name) fun t => t.name = name ∧ ∀ x ∈ t.itemNames, NamedIn l.tokens x := by
  refine ensures_bind (ensures_parse_named l name) fun t parsed => ?_
  refine ensures_bind t.shorten.itemNames_hoist fun t1 hoisted => ?_
  refine ensures_imp t1.itemNames_addReturns fun t2 returned => ?_
  rw [returned.1, returned.2, hoisted.1, hoisted.2, t.itemNames_shorten.1, t.itemNames_shorten.2]
  exact parsed

/-! ## Merging modules -/

namespace Merge

theorem Joins.names {is js : List (Item τ)} (h : Joins is js) : namesOf js ⊆ namesOf is := by
  induction h with
  | refl is => exact List.Subset.refl _
  | trans _ _ ih ih' => exact List.Subset.trans ih' ih
  | cons i _ ih =>
    intro x
    simp only [namesOf, List.mem_append]
    exact .imp_right (@ih x)
  | inside is _ ih =>
    intro x
    simp only [namesOf, Item.names, List.mem_append, List.mem_cons]
    exact .imp_left (.imp_right (@ih x))
  | join is js =>
    intro x
    simp only [namesOf, Item.names, namesOf_append, List.mem_append, List.mem_cons]
    tauto

end Merge

end EbLang
