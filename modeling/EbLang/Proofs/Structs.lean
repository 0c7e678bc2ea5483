import EbLang.Constant
import Mathlib.Data.List.Perm.Subperm
import Mathlib.Logic.Relation

/-!
# Structs in structs

The zero of a struct is made of the zeros of its members.  Going from a type to the types of its
members comes to an end (`StructTable.Ends`) if and only if no struct on the way contains itself, and
then it ends within as many steps as there are structs.

While the structs of a file are filled in one after the other, the zero of a type is the one it has in
the end if and only if every struct that is part of it has its members already.
-/

namespace EbLang

open Relation

namespace StructTable

variable {s t : StructTable} {ty : Ty} {r q : StructRef} {depth : Nat}

/-- A struct has a member that is the other struct. -/
def Contains (t : StructTable) (r q : StructRef) : Prop := ∃ m ∈ t.members r, m.ty = .struct q

/-- A struct is part of a type, at whatever depth. -/
def Reaches (t : StructTable) (ty : Ty) (q : StructRef) : Prop :=
  ∃ r, ty = .struct r ∧ ReflTransGen t.Contains r q

/-- Structs are nested at most `depth` deep in a type. -/
def EndsWithin (t : StructTable) : Nat → Ty → Prop
  | _, .prims _ => True
  | 0, .struct r => t.members r = []
  | depth + 1, .struct r => ∀ m ∈ t.members r, EndsWithin t depth m.ty

/-- Going from a type to the types of its members comes to an end. -/
def Ends (t : StructTable) (ty : Ty) : Prop := ∃ depth, t.EndsWithin depth ty

theorem members_eq_nil (h : t.nextRow ≤ r.row) : t.members r = [] := by
  rw [members, List.getD_eq_getElem?_getD, List.getElem?_eq_none h, Option.getD_none]

theorem members_eq_of_row (h : q.row = r.row) : t.members q = t.members r := by
  rw [members, members, h]

theorem reaches_self (t : StructTable) (r : StructRef) : t.Reaches (.struct r) r :=
  ⟨r, rfl, .refl⟩

theorem Reaches.of_member {m : Member} (h : t.Reaches m.ty q) (here : m ∈ t.members r) :
    t.Reaches (.struct r) q := by
  obtain ⟨r', eq, path⟩ := h
  exact ⟨r, rfl, .head ⟨m, here, eq⟩ path⟩

theorem reaches_struct_iff :
    t.Reaches (.struct r) q ↔ q = r ∨ ∃ m ∈ t.members r, t.Reaches m.ty q := by
  constructor
  · rintro ⟨_, ⟨⟩, path⟩
    rcases path.cases_head with rfl | ⟨r', ⟨m, here, eq⟩, path⟩
    · exact .inl rfl
    · exact .inr ⟨m, here, r', eq, path⟩
  · rintro (rfl | ⟨m, here, reach⟩)
    · exact t.reaches_self q
    · exact reach.of_member here

/-! ## Structs that end -/

theorem EndsWithin.contained (h : t.EndsWithin depth (.struct r)) (inside : t.Contains r q) :
    ∃ less < depth, t.EndsWithin less (.struct q) := by
  obtain ⟨m, here, eq⟩ := inside
  cases depth with
  | zero =>
    rw [show t.members r = [] from h] at here
    cases here
  | succ depth => exact ⟨depth, Nat.lt_succ_self depth, eq ▸ h m here⟩

theorem EndsWithin.of_transGen (h : t.EndsWithin depth (.struct r))
    (inside : TransGen t.Contains r q) : ∃ less < depth, t.EndsWithin less (.struct q) := by
  induction inside with
  | single inside => exact h.contained inside
  | tail _ inside ih =>
    obtain ⟨less, lt, ends⟩ := ih
    obtain ⟨least, lt', ends⟩ := ends.contained inside
    exact ⟨least, Nat.lt_trans lt' lt, ends⟩

theorem EndsWithin.not_transGen (h : t.EndsWithin depth (.struct r)) :
    ¬ TransGen t.Contains r r := by
  intro cycle
  induction depth using Nat.strongRecOn with
  | ind depth ih =>
    obtain ⟨less, lt, ends⟩ := h.of_transGen cycle
    exact ih less lt ends

theorem Ends.reached (h : t.Ends ty) (reach : t.Reaches ty q) : t.Ends (.struct q) := by
  obtain ⟨r, rfl, path⟩ := reach
  induction path with
  | refl => exact h
  | tail _ inside ih =>
    obtain ⟨depth, ends⟩ := ih
    obtain ⟨less, -, ends⟩ := ends.contained inside
    exact ⟨less, ends⟩

/-- No way from a type through its members comes to a row twice, so it is not longer than the
table. -/
theorem endsWithin_of_path {path : List Nat} (nodup : path.Nodup) (bound : ∀ i ∈ path, i < t.nextRow)
    (long : t.nextRow ≤ path.length + depth)
    (free : ∀ q, t.Reaches ty q → q.row ∉ path ∧ ¬ TransGen t.Contains q q) :
    t.EndsWithin depth ty := by
  induction depth generalizing path ty with
  | zero =>
    cases ty with
    | prims => trivial
    | struct r =>
      refine members_eq_nil (Nat.le_of_not_lt fun inside => ?_)
      have nodup' := List.nodup_cons.mpr ⟨(free r (t.reaches_self r)).1, nodup⟩
      have among : r.row :: path ⊆ List.range t.nextRow := List.cons_subset.mpr
        ⟨List.mem_range.mpr inside, fun i there => List.mem_range.mpr (bound i there)⟩
      have short := (List.subperm_of_subset nodup' among).length_le
      rw [List.length_range, List.length_cons] at short
      omega
  | succ depth ih =>
    cases ty with
    | prims => trivial
    | struct r =>
      intro m here
      have inside : r.row < t.nextRow := by
        refine Nat.lt_of_not_le fun outside => ?_
        rw [members_eq_nil outside] at here
        cases here
      have nodup' := List.nodup_cons.mpr ⟨(free r (t.reaches_self r)).1, nodup⟩
      refine ih nodup' (List.forall_mem_cons.mpr ⟨inside, bound⟩) ?_ fun q reach => ?_
      · rw [List.length_cons]
        omega
      · obtain ⟨new, acyclic⟩ := free q (reach.of_member here)
        refine ⟨List.not_mem_cons_of_ne_of_not_mem (fun same => acyclic ?_) new, acyclic⟩
        obtain ⟨r', eq, path⟩ := reach
        exact .head' ⟨m, members_eq_of_row same ▸ here, eq⟩ path

theorem ends_iff : t.Ends ty ↔ ∀ q, t.Reaches ty q → ¬ TransGen t.Contains q q := by
  constructor
  · intro ends q reach
    obtain ⟨depth, ends⟩ := ends.reached reach
    exact ends.not_transGen
  · intro acyclic
    refine ⟨t.nextRow, endsWithin_of_path List.nodup_nil (List.forall_mem_nil _) ?_ fun q reach => ?_⟩
    · exact Nat.le_add_left _ _
    · exact ⟨List.not_mem_nil, acyclic q reach⟩

theorem Ends.within (h : t.Ends ty) : t.EndsWithin t.nextRow ty :=
  endsWithin_of_path List.nodup_nil (List.forall_mem_nil _) (Nat.le_add_left _ _) fun q reach =>
    ⟨List.not_mem_nil, ends_iff.mp h q reach⟩

/-! ## Zeros -/

/-- Beyond the depth of a type its zero does not change. -/
theorem EndsWithin.zeroAt_add (h : t.EndsWithin depth ty) (more : Nat) :
    Constant.zeroAt t (depth + more) ty = Constant.zeroAt t depth ty := by
  induction depth generalizing ty with
  | zero =>
    cases ty with
    | prims => cases more <;> rfl
    | struct r =>
      cases more with
      | zero => rfl
      | succ more => simp [Constant.zeroAt, show t.members r = [] from h]
  | succ depth ih =>
    rw [Nat.succ_add]
    cases ty with
    | prims => rfl
    | struct r =>
      simp only [Constant.zeroAt]
      congr 1
      exact List.map_congr_left fun m here => ih (h m here)

/-- The zero of a type that goes deeper changes with the depth. -/
theorem endsWithin_of_zeroAt_eq
    (same : Constant.zeroAt t (depth + 1) ty = Constant.zeroAt t depth ty) : t.EndsWithin depth ty := by
  induction depth generalizing ty with
  | zero =>
    cases ty with
    | prims => trivial
    | struct r => exact List.map_eq_nil_iff.mp (Constant.struct.inj same)
  | succ depth ih =>
    cases ty with
    | prims => trivial
    | struct r =>
      intro m here
      exact ih (List.map_inj_left.mp (Constant.struct.inj same) m here)

theorem EndsWithin.zeroOf_eq (h : t.EndsWithin depth ty) :
    Constant.zeroOf t ty = Constant.zeroAt t depth ty := by
  have within := Ends.within ⟨depth, h⟩
  rw [Constant.zeroOf, within.zeroAt_add 1, ← within.zeroAt_add depth, Nat.add_comm,
    h.zeroAt_add t.nextRow]

/-- A type ends if and only if building its zero deeper than there are structs changes nothing. -/
theorem ends_iff_zeroAt : t.Ends ty ↔
    ∀ more, Constant.zeroAt t (t.nextRow + more) ty = Constant.zeroOf t ty := by
  constructor
  · intro ends more
    rw [ends.within.zeroAt_add, ends.within.zeroOf_eq]
  · intro same
    exact ⟨t.nextRow, endsWithin_of_zeroAt_eq (same 0).symm⟩

/-- In the first table the members of some structs are not known yet. -/
def Below (s t : StructTable) : Prop := ∀ r, s.members r = [] ∨ s.members r = t.members r

theorem Below.endsWithin (below : s.Below t) (h : t.EndsWithin depth ty) : s.EndsWithin depth ty := by
  induction depth generalizing ty with
  | zero =>
    cases ty with
    | prims => trivial
    | struct r => exact (below r).elim id fun same => same.trans h
  | succ depth ih =>
    cases ty with
    | prims => trivial
    | struct r =>
      intro m here
      rcases below r with none | same
      · rw [none] at here
        cases here
      · exact ih (h m (same ▸ here))

theorem Below.zeroAt_eq_iff (below : s.Below t) (h : t.EndsWithin depth ty) :
    Constant.zeroAt s depth ty = Constant.zeroAt t depth ty ↔
      ∀ q, t.Reaches ty q → s.members q = t.members q := by
  induction depth generalizing ty with
  | zero =>
    cases ty with
    | prims =>
      refine iff_of_true rfl ?_
      rintro q ⟨r, ⟨⟩, -⟩
    | struct r =>
      have none : t.members r = [] := h
      refine iff_of_true rfl fun q reach => ?_
      rcases reaches_struct_iff.mp reach with rfl | ⟨m, here, -⟩
      · exact (below q).elim (fun none' => none'.trans none.symm) id
      · rw [none] at here
        cases here
  | succ depth ih =>
    cases ty with
    | prims =>
      refine iff_of_true rfl ?_
      rintro q ⟨r, ⟨⟩, -⟩
    | struct r =>
      simp only [Constant.zeroAt, Constant.struct.injEq]
      by_cases same : s.members r = t.members r
      · rw [same, List.map_inj_left]
        constructor
        · intro zeros q reach
          rcases reaches_struct_iff.mp reach with rfl | ⟨m, here, reach⟩
          · exact same
          · exact (ih (h m here)).mp (zeros m here) q reach
        · intro all m here
          exact (ih (h m here)).mpr fun q reach => all q (reach.of_member here)
      · refine iff_of_false (fun zeros => same ?_) fun all => same (all r (t.reaches_self r))
        have none := (below r).resolve_right same
        rw [none, List.map_nil, eq_comm, List.map_eq_nil_iff] at zeros
        rw [none, zeros]

/-- A zero is the same in two tables if and only if all structs that are part of the type have their
members in both. -/
theorem Below.zeroOf_eq_iff (below : s.Below t) (ends : t.Ends ty) :
    Constant.zeroOf s ty = Constant.zeroOf t ty ↔
      ∀ q, t.Reaches ty q → s.members q = t.members q := by
  have within := ends.within
  rw [within.zeroOf_eq, (below.endsWithin within).zeroOf_eq, below.zeroAt_eq_iff within]

end StructTable

end EbLang
