import EbLang.Proofs.Outcome
import EbLang.Resolve.Merge

/-!
# Moving items together

What merging can do to the items of a file, one block at a time: the items of a later block are
appended to an earlier one of the same module.  What no such step changes, merging does not change
either.
-/

namespace EbLang.Merge

variable {τ : Type}

/-- Blocks of modules join earlier ones, at any depth. -/
inductive Joins : List (Item τ) → List (Item τ) → Prop
  | refl (is : List (Item τ)) : Joins is is
  | trans {is js ks : List (Item τ)} : Joins is js → Joins js ks → Joins is ks
  | cons {is js : List (Item τ)} (i : Item τ) : Joins is js → Joins (i :: is) (i :: js)
  | inside {name : String} {items items' : List (Item τ)} {isPub isExtend : Bool} {span : Span}
    (is : List (Item τ)) : Joins items items' →
    Joins (.submodule name items isPub isExtend span :: is)
      (.submodule name items' isPub isExtend span :: is)
  | join {name : String} {items more : List (Item τ)} {isPub isExtend isPub' isExtend' : Bool}
    {span span' : Span} (is js : List (Item τ)) :
    Joins (.submodule name items isPub isExtend span ::
        (is ++ .submodule name more isPub' isExtend' span' :: js))
      (.submodule name (items ++ more) isPub isExtend span :: (is ++ js))

variable {is js more : List (Item τ)} {name : String} {isPub isExtend : Bool} {span : Span}

theorem Joins.append_right (h : Joins is js) (ks : List (Item τ)) : Joins (is ++ ks) (js ++ ks) := by
  induction h with
  | refl is => exact .refl _
  | trans _ _ ih ih' => exact ih.trans ih'
  | cons i _ ih => exact .cons i ih
  | inside is h _ => exact .inside _ h
  | join is js =>
    simp only [List.cons_append, List.append_assoc]
    exact .join is (js ++ ks)

/-- The item with more items if it is a module. -/
def extend (more : List (Item τ)) : Item τ → Item τ
  | .submodule name items isPub isExtend span => .submodule name (items ++ more) isPub isExtend span
  | i => i

theorem appendTo_cons (name : String) (more : List (Item τ)) (i : Item τ) (is : List (Item τ)) :
    appendTo name more (i :: is) =
      if isModule name i then extend more i :: is else i :: appendTo name more is := by
  cases i <;> rfl

theorem joins_appendTo (h : is.any (isModule name) = true) :
    Joins (is ++ [.submodule name more isPub isExtend span]) (appendTo name more is) := by
  induction is with
  | nil => cases h
  | cons i is ih =>
    rw [appendTo_cons]
    split
    next first =>
      cases i with
      | submodule name' items isPub' isExtend' span' =>
        cases eq_of_beq first
        have last : Joins (.submodule name items isPub' isExtend' span' ::
          (is ++ [.submodule name more isPub isExtend span])) _ := .join is []
        rwa [List.append_nil] at last
      | function | imports | global | struct => cases first
    next other =>
      rw [List.any_cons, eq_false_of_ne_true other, Bool.false_or] at h
      exact .cons i (ih h)

theorem ensures_add (merged : List (Item τ)) (i : Item τ) :
    Ensures (add merged i) (Joins (merged ++ [i])) := by
  unfold add
  split
  next =>
    split
    next there => exact ensures_pure (joins_appendTo there)
    split
    next => rintro _ ⟨⟩
    next => exact ensures_pure (.refl _)
  next => exact ensures_pure (.refl _)

theorem ensures_foldlM :
    ∀ is merged : List (Item τ), Ensures (is.foldlM add merged) (Joins (merged ++ is))
  | [], merged => by
    rw [List.append_nil]
    exact ensures_pure (.refl merged)
  | i :: is, merged => by
    refine ensures_bind (ensures_add merged i) fun merged' first => ?_
    refine ensures_imp (ensures_foldlM is merged') fun js rest => ?_
    rw [List.append_cons]
    exact (first.append_right is).trans rest

theorem joins_of_forall₂ (h : List.Forall₂ (fun i j => ∀ is, Joins (i :: is) (j :: is)) is js) :
    Joins is js := by
  induction h with
  | nil => exact .refl []
  | cons first _ ih => exact (first _).trans (.cons _ ih)

theorem ensures_levels : ∀ (n : Nat) (is : List (Item τ)), Ensures (levels n is) (Joins is)
  | 0, is => ensures_foldlM is []
  | n + 1, is => by
    refine ensures_bind (ensures_foldlM is []) fun merged round => ?_
    refine ensures_imp (ensures_mapM fun i _ => ?_) fun js inner => round.trans (joins_of_forall₂ inner)
    split
    next => exact ensures_bind (ensures_levels n _) fun items' h => ensures_pure fun is => .inside is h
    next => exact ensures_pure fun is => .refl _

end EbLang.Merge
