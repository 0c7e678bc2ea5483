import EbLang.Analysis
import Mathlib.Data.List.Forall2

/-!
# Settled types

A type is settled if it is a struct or a set of one primitive.  A settled type is its own default,
and it may become no other type: a settled type that it has something in common with is the same.
-/

namespace EbLang

theorem Prim.mem_all (p : Prim) : p ∈ Prim.all := by
  cases p <;> decide

namespace PrimSet

variable {s t : PrimSet} {p q : Prim}

theorem ext_has (h : ∀ p, s.has p = t.has p) : s = t := by
  have indices : ∀ i < 14, ∃ p ∈ Prim.all, p.index = i := by decide
  obtain ⟨mask⟩ := s
  congr
  refine BitVec.eq_of_getLsbD_eq fun i lt => ?_
  obtain ⟨p, -, rfl⟩ := indices i lt
  exact h p

theorem has_single (p q : Prim) : (single p).has q = decide (q = p) := by
  cases p <;> cases q <;> rfl

theorem mem_members : p ∈ s.members ↔ s.has p = true := by
  simp [members, Prim.mem_all]

theorem only?_single (p : Prim) : (single p).only? = some p := by
  cases p <;> decide

theorem only?_eq_some : s.only? = some p ↔ s = single p := by
  constructor
  · intro only
    have members : s.members = [p] := by
      unfold only? at only
      split at only
      next eq => rwa [Option.some.inj only] at eq
      next => cases only
    refine ext_has fun q => ?_
    rw [has_single, Bool.eq_iff_iff, ← mem_members, members, List.mem_singleton, decide_eq_true_eq]
  · rintro rfl
    exact only?_single p

theorem has_inter (s t : PrimSet) (p : Prim) : (s.inter t).has p = (s.has p && t.has p) := by
  rw [inter, has, BitVec.getLsbD_and, has, has]

theorem isEmpty_iff : s.isEmpty = true ↔ ∀ p, s.has p = false := by
  constructor
  · intro empty p
    rw [isEmpty, beq_iff_eq] at empty
    rw [has, empty]
    exact BitVec.getLsbD_zero
  · intro none
    have : s = PrimSet.empty := ext_has fun p => by
      rw [none p, has, PrimSet.empty]
      exact BitVec.getLsbD_zero.symm
    rw [this]
    rfl

/-- A set that has something in common with one primitive has that primitive. -/
theorem inter_single (h : (s.inter (single p)).isEmpty = false) : s.inter (single p) = single p := by
  have found : s.has p = true := by
    by_contra missing
    have empty : (s.inter (single p)).isEmpty = true := by
      refine isEmpty_iff.mpr fun q => ?_
      rw [has_inter, has_single]
      by_cases same : q = p
      · rw [same, Bool.eq_false_iff.mpr missing, Bool.false_and]
      · rw [decide_eq_false same, Bool.and_false]
    rw [empty] at h
    cases h
  refine ext_has fun q => ?_
  rw [has_inter, has_single]
  by_cases same : q = p
  · rw [same, found, Bool.true_and]
  · rw [decide_eq_false same, Bool.and_false]

theorem inter_comm (s t : PrimSet) : s.inter t = t.inter s := by
  rw [inter, inter, BitVec.and_comm]

theorem inter_of_includes (h : s.includes t = true) : s.inter t = t := by
  rw [includes, beq_iff_eq] at h
  rw [inter, h]

end PrimSet

namespace Ty

variable {t u v : Ty} {p : Prim}

theorem isComplete_ofPrim (p : Prim) : (ofPrim p).isComplete = true := by
  rw [ofPrim, isComplete, PrimSet.only?_single]
  rfl

theorem eq_ofPrim_of_prim? (h : t.prim? = some p) : t = ofPrim p := by
  cases t with
  | prims s =>
    rw [prim?, PrimSet.only?_eq_some] at h
    rw [h, ofPrim]
  | struct r => cases h

/-- A settled type is a struct or one primitive. -/
theorem isComplete_iff : t.isComplete = true ↔ (∃ r, t = .struct r) ∨ ∃ p, t = ofPrim p := by
  constructor
  · intro complete
    cases t with
    | struct r => exact .inl ⟨r, rfl⟩
    | prims s =>
      obtain ⟨p, only⟩ := Option.isSome_iff_exists.mp complete
      exact .inr ⟨p, eq_ofPrim_of_prim? only⟩
  · rintro (⟨r, rfl⟩ | ⟨p, rfl⟩)
    · rfl
    · exact isComplete_ofPrim p

/-- A settled type is its own default. -/
theorem complete?_of_isComplete (h : t.isComplete = true) : t.complete? = some t := by
  obtain ⟨r, rfl⟩ | ⟨p, rfl⟩ := isComplete_iff.mp h
  · rfl
  · simp only [ofPrim, complete?, PrimSet.only?_single]

/-- A default is settled. -/
theorem isComplete_of_complete? (h : t.complete? = some u) : u.isComplete = true := by
  cases t with
  | struct r =>
    cases h
    rfl
  | prims s =>
    rw [complete?] at h
    split at h
    next =>
      cases h
      exact isComplete_ofPrim _
    next =>
      split at h
      next => cases h
      next =>
        obtain ⟨p, -, rfl⟩ := Option.map_eq_some_iff.mp h
        exact isComplete_ofPrim p

theorem complete?_anyValue : anyValue.complete? = none := by decide

theorem same_refl (t : Ty) : t.same t = true := by
  cases t <;> simp [same]

theorem same_comm (t u : Ty) : t.same u = u.same t := by
  cases t <;> cases u <;> simp [same, Bool.beq_comm]

theorem isComplete_of_same (same : t.same u = true) (complete : t.isComplete = true) :
    u.isComplete = true := by
  cases t <;> cases u <;> simp_all [Ty.same, isComplete]

/-- A settled type may only become itself. -/
theorem same_of_contains (complete : t.isComplete = true) (h : t.contains u = true) :
    t.same u = true := by
  obtain ⟨r, rfl⟩ | ⟨p, rfl⟩ := isComplete_iff.mp complete
  · cases u with
    | prims s => cases h
    | struct q => exact h
  · cases u with
    | struct q => cases h
    | prims s =>
      rw [ofPrim, contains, Bool.and_eq_true, Bool.not_eq_true'] at h
      have eq := PrimSet.inter_of_includes h.2
      have notEmpty := h.1
      rw [← eq, PrimSet.inter_comm] at notEmpty
      have single := PrimSet.inter_single notEmpty
      rw [PrimSet.inter_comm, eq] at single
      rw [single]
      exact same_refl _

/-- What a type has in common with a settled one is that one. -/
theorem same_of_merge? (complete : u.isComplete = true) (h : t.merge? u = some v) :
    v.same u = true := by
  obtain ⟨r, rfl⟩ | ⟨p, rfl⟩ := isComplete_iff.mp complete
  · cases t with
    | prims s => cases h
    | struct q =>
      rw [merge?] at h
      split at h
      next same =>
        cases h
        exact same
      next => cases h
  · cases t with
    | struct q => cases h
    | prims s =>
      rw [ofPrim, merge?] at h
      split at h
      next => cases h
      next notEmpty =>
        cases h
        rw [PrimSet.inter_single (Bool.eq_false_iff.mpr notEmpty)]
        exact same_refl _

/-- Settled types that have something in common are the same. -/
theorem same_of_merge?_of_isComplete (complete : t.isComplete = true) (complete' : u.isComplete = true)
    (h : t.merge? u = some v) : t.same u = true := by
  have right := same_of_merge? complete' h
  obtain ⟨r, rfl⟩ | ⟨p, rfl⟩ := isComplete_iff.mp complete
  · cases u with
    | prims s => cases h
    | struct q =>
      rw [merge?] at h
      split at h
      next same => exact same
      next => cases h
  · cases u with
    | struct q => cases h
    | prims s =>
      rw [ofPrim, merge?] at h
      split at h
      next => cases h
      next notEmpty =>
        cases h
        rw [PrimSet.inter_comm] at notEmpty right
        rwa [PrimSet.inter_single (Bool.eq_false_iff.mpr notEmpty)] at right

end Ty

end EbLang
