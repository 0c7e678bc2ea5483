import EbLang.Proofs.Overloads
import Mathlib.Data.List.Nodup

/-!
# Calls that are put off

A call is put off while several operators are left.  Then none of them needs a conversion: an argument
that is converted has one primitive, the arguments would have just that one in common, and the operator
on it needs no conversion.  Hence the arguments may still become the operand of every operator that is
left, and settling them on one leaves that operator.
-/

namespace EbLang

namespace PrimSet

variable {s t : PrimSet} {p : Prim}

theorem has_union (s t : PrimSet) (p : Prim) : (s.union t).has p = (s.has p || t.has p) := by
  rw [union, has, BitVec.getLsbD_or, has, has]

theorem has_empty (p : Prim) : empty.has p = false := BitVec.getLsbD_zero

theorem includes_iff : s.includes t = true ↔ ∀ p, t.has p = true → s.has p = true := by
  have eq : s.includes t = true ↔ s.inter t = t := by
    rw [includes, beq_iff_eq, inter, PrimSet.mk.injEq]
  rw [eq]
  constructor
  · intro same p there
    rw [← same, has_inter, Bool.and_eq_true] at there
    exact there.1
  · intro all
    refine ext_has fun p => ?_
    rw [has_inter]
    cases there : t.has p with
    | false => rw [Bool.and_false]
    | true => rw [all p there, Bool.true_and]

end PrimSet

namespace Ty

variable {args : List Ty} {arg merged : Ty} {s : PrimSet} {p q : Prim}

theorem contains_ofPrim_iff :
    arg.contains (.ofPrim p) = true ↔ ∃ s, arg = .prims s ∧ s.has p = true := by
  have single : (PrimSet.single p).isEmpty = false := by cases p <;> rfl
  cases arg with
  | struct r => simp [contains, ofPrim]
  | prims s => simp [contains, ofPrim, single, PrimSet.includes_iff, PrimSet.has_single]

/-- What some primitives and all of some types admit. -/
theorem foldlM_merge? (h : args.foldlM merge? (.prims s) = some merged) :
    ∃ t, merged = .prims t ∧ (s.isEmpty = false → t.isEmpty = false) ∧
      ∀ p, t.has p = true ↔ s.has p = true ∧ ∀ arg ∈ args, arg.contains (.ofPrim p) = true := by
  induction args generalizing s with
  | nil =>
    cases h
    exact ⟨s, rfl, id, by simp⟩
  | cons arg args ih =>
    obtain ⟨first, here, others⟩ := Option.bind_eq_some_iff.mp h
    cases arg with
    | struct r => cases here
    | prims u =>
      simp only [merge?] at here
      split at here
      next => cases here
      next some =>
        cases here
        obtain ⟨t, rfl, empty, has⟩ := ih others
        refine ⟨t, rfl, fun _ => empty (Bool.eq_false_iff.mpr some), fun p => ?_⟩
        simp [has, PrimSet.has_inter, contains_ofPrim_iff, and_assoc]

/-- What any of some primitives is. -/
theorem foldlM_union? (s : PrimSet) (ps : List Prim) :
    ∃ t, (ps.map ofPrim).foldlM union? (.prims s) = some (.prims t) ∧
      ∀ p, t.has p = true ↔ s.has p = true ∨ p ∈ ps := by
  induction ps generalizing s with
  | nil => exact ⟨s, rfl, by simp⟩
  | cons q ps ih =>
    obtain ⟨t, all, has⟩ := ih (s.union (.single q))
    refine ⟨t, all, fun p => ?_⟩
    rw [has, PrimSet.has_union, PrimSet.has_single]
    simp [or_assoc]

end Ty

namespace Overload

variable {args : List Ty} {candidates best : List Signature} {named : List String} {merged : Ty}
  {prim : Signature → Prim}

/-- Operators, each with operands of one primitive, and no two of the same. -/
structure OnePrimEach (candidates : List Signature) (prim : Signature → Prim) : Prop where
  operators : ∀ s ∈ candidates, s.form = .operator
  operands : ∀ s ∈ candidates, (∀ x ∈ s.params, x.ty = .ofPrim (prim s)) ∧
    ∀ x ∈ s.named, x.ty = .ofPrim (prim s)
  distinct : (candidates.map prim).Nodup

section OnePrimEach

variable (each : OnePrimEach candidates prim) {s : Signature} (member : s ∈ candidates)

include each member

/-- What such an operator asks of its arguments is its primitive. -/
theorem eq_replicate_of_typesFor? {params : List Ty} (asked : s.typesFor? named = some params) :
    params = List.replicate params.length (.ofPrim (prim s)) := by
  obtain ⟨positional, byName⟩ := each.operands s member
  obtain ⟨tys, found, rfl⟩ := Option.map_eq_some_iff.mp asked
  have others : ∀ ty ∈ tys, ty = .ofPrim (prim s) := by
    clear asked
    induction named generalizing tys with
    | nil =>
      cases found
      simp
    | cons name named ih =>
      rw [List.mapM_cons] at found
      obtain ⟨ty, first, found⟩ := Option.bind_eq_some_iff.mp found
      obtain ⟨tys, rest, eq⟩ := Option.bind_eq_some_iff.mp found
      cases eq
      obtain ⟨x, known, rfl⟩ := Option.map_eq_some_iff.mp first
      exact List.forall_mem_cons.mpr ⟨byName x (List.mem_of_find?_eq_some known), ih tys rest⟩
  refine List.eq_replicate_of_mem fun ty there => ?_
  rcases List.mem_append.mp there with there | there
  · obtain ⟨x, here, rfl⟩ := List.mem_map.mp there
    exact positional x here
  · exact others ty there

/-- Such an operator takes arguments as they are if all may become its primitive. -/
theorem conversions_eq_zero_iff (takes : s.Takes named args) :
    s.conversions named args = 0 ↔ ∀ arg ∈ args, arg.contains (.ofPrim (prim s)) = true := by
  obtain ⟨params, asked, pass⟩ := takes
  rw [Signature.conversions, asked, Option.getD_some, eq_replicate_of_typesFor? each member asked,
    ← pass.length_eq, ← List.map_const', List.zip, List.zipWith_map_right, List.zipWith_self]
  simp [List.countP_eq_zero]

end OnePrimEach

/-- What operators that are left and arguments have in common. -/
theorem common?_eq_some (each : OnePrimEach candidates prim) (nonempty : args ≠ [])
    (h : common? (cheapest (viable named candidates args)) args = some merged) :
    ∃ open' : PrimSet, merged = .prims open' ∧
      (cheapestOf named candidates args ≠ [] → open'.isEmpty = false) ∧
      ∀ p, open'.has p = true ↔ (∃ s ∈ cheapestOf named candidates args, prim s = p) ∧
        ∀ arg ∈ args, arg.contains (.ofPrim p) = true := by
  have asked (v : Viable) (there : v ∈ cheapest (viable named candidates args)) :
      v.params = (List.replicate args.length (prim v.signature)).map Ty.ofPrim := by
    rw [cheapest_eq_filter, List.mem_filter, mem_viable_iff] at there
    obtain ⟨⟨member, asked, pass, -⟩, -⟩ := there
    rw [List.map_replicate, pass.length_eq]
    exact eq_replicate_of_typesFor? each member asked
  rw [← map_signature_cheapest]
  generalize cheapest (viable named candidates args) = vs at h asked
  have flat : vs.flatMap Viable.params =
      (vs.flatMap fun v => List.replicate args.length (prim v.signature)).map Ty.ofPrim := by
    rw [List.map_flatMap, List.flatMap_def, List.flatMap_def, List.map_congr_left asked]
  obtain ⟨accepted, all, has⟩ := Ty.foldlM_union? .empty
    (vs.flatMap fun v => List.replicate args.length (prim v.signature))
  rw [common?, flat, all] at h
  obtain ⟨open', rfl, notEmpty, has'⟩ := Ty.foldlM_merge? h
  have accepts (p : Prim) : accepted.has p = true ↔ ∃ s ∈ vs.map Viable.signature, prim s = p := by
    rw [has, PrimSet.has_empty]
    simp [nonempty, eq_comm]
  refine ⟨open', rfl, fun left => notEmpty ?_, fun p => by rw [has', accepts]⟩
  obtain ⟨s, there⟩ := List.exists_mem_of_ne_nil _ left
  refine Bool.eq_false_iff.mpr fun empty => ?_
  have missing := PrimSet.isEmpty_iff.mp empty (prim s)
  rw [(accepts _).mpr ⟨s, there, rfl⟩] at missing
  cases missing

/-- Settling all arguments on the primitive of an operator that takes them leaves that operator. -/
theorem resolve_settled (each : OnePrimEach candidates prim) (name : String) {s : Signature}
    (member : s ∈ candidates) (takes : s.Takes named args) (some : args ≠ []) :
    resolve name named candidates (args.map fun _ => .ofPrim (prim s)) =
      .ok (.resolved s (args.map fun _ => none)) := by
  have becomes (p : Prim) : (Ty.ofPrim p).contains (.ofPrim p) = true :=
    Ty.contains_ofPrim_iff.mpr ⟨_, rfl, by rw [PrimSet.has_single, decide_eq_true rfl]⟩
  obtain ⟨params, asked, pass⟩ := takes
  rw [eq_replicate_of_typesFor? each member asked, ← pass.length_eq, ← List.map_const'] at asked
  have takes : s.Takes named (args.map fun _ => .ofPrim (prim s)) :=
    ⟨_, asked, List.forall₂_same.mpr (List.forall_mem_map.mpr fun _ _ => .asItIs (becomes _))⟩
  have free := (conversions_eq_zero_iff each member takes).mpr
    (List.forall_mem_map.mpr fun _ _ => becomes _)
  -- Another operator would convert all arguments, and there is one.
  have only : cheapestOf named candidates (args.map fun _ => .ofPrim (prim s)) = [s] := by
    have nodup := List.Nodup.of_map prim each.distinct
    refine List.perm_singleton.mp ((List.perm_ext_iff_of_nodup (nodup.filter _) (by simp)).mpr ?_)
    intro t
    rw [List.mem_filter, decide_eq_true_eq, List.mem_singleton]
    constructor
    · rintro ⟨there, takes', least⟩
      have none := Nat.le_zero.mp (free ▸ least s member takes)
      obtain ⟨arg, present⟩ := List.exists_mem_of_ne_nil args some
      obtain ⟨u, same, has⟩ := Ty.contains_ofPrim_iff.mp
        ((conversions_eq_zero_iff each there takes').mp none _ (List.mem_map_of_mem present))
      cases same
      rw [PrimSet.has_single, decide_eq_true_eq] at has
      exact List.inj_on_of_nodup_map each.distinct there member has
    · rintro rfl
      exact ⟨member, takes, fun _ _ _ => free ▸ Nat.zero_le _⟩
  have cases := resolve_cases name named candidates (args.map fun _ => .ofPrim (prim s))
  rw [only] at cases
  obtain ⟨⟨⟩, -⟩ | ⟨-, v, ⟨asked', -⟩, there, eq⟩ | ⟨two, -⟩ := cases
  · obtain rfl := List.mem_singleton.mp there
    rw [eq, ← Option.some.inj (asked.symm.trans asked'), List.zipWith_self, List.map_map]
    exact congrArg _ (congrArg _ (List.map_congr_left fun _ _ => if_pos (becomes _)))
  · cases Nat.lt_irrefl 1 two

/-- A call that is put off can be finished: what is left open is the operands of the operators that
are left, every argument may become any of them, and settling on one leaves its operator, with no
conversion. -/
theorem resolve_deferred_finishable (each : OnePrimEach candidates prim) {name : String}
    (h : resolve name named candidates args = .ok (.deferred merged best)) :
    ∃ open' : PrimSet, merged = .prims open' ∧
      (∀ p, open'.has p = true ↔ ∃ s ∈ best, prim s = p) ∧
      (∀ arg ∈ args, arg.contains merged = true) ∧
      ∀ p, open'.has p = true → ∃ s ∈ candidates, prim s = p ∧
        resolve name named candidates (args.map fun _ => .ofPrim p) =
          .ok (.resolved s (args.map fun _ => none)) := by
  obtain ⟨-, eq⟩ | ⟨-, v, -, -, eq⟩ | ⟨two, -, eq | ⟨ty, common, -, ⟨arg, present, -⟩, eq⟩⟩ :=
    resolve_cases name named candidates args <;> rw [eq] at h <;> cases h
  have some : cheapestOf named candidates args ≠ [] := by
    intro none
    rw [none] at two
    cases two
  have nonempty : args ≠ [] := List.ne_nil_of_mem present
  obtain ⟨open', rfl, notEmpty, has⟩ := common?_eq_some each nonempty common
  have cheap (s : Signature) (there : s ∈ cheapestOf named candidates args) :
      s ∈ candidates ∧ s.IsCheapest candidates named args := by
    rwa [cheapestOf, List.mem_filter, decide_eq_true_eq] at there
  -- Some operator takes all arguments as they are, so all that are left do.
  obtain ⟨q, inside⟩ : ∃ q, open'.has q = true := by
    by_contra none
    have empty := PrimSet.isEmpty_iff.mpr fun p => Bool.eq_false_iff.mpr fun has => none ⟨p, has⟩
    rw [notEmpty some] at empty
    cases empty
  have taken (t : Signature) (there : t ∈ cheapestOf named candidates args) :
      ∀ arg ∈ args, arg.contains (.ofPrim (prim t)) = true := by
    obtain ⟨⟨s, there', rfl⟩, all⟩ := (has q).mp inside
    obtain ⟨member, takes, -⟩ := cheap s there'
    obtain ⟨member', takes', least⟩ := cheap t there
    have least := least s member takes
    rw [(conversions_eq_zero_iff each member takes).mpr all] at least
    exact (conversions_eq_zero_iff each member' takes').mp (Nat.le_zero.mp least)
  have left (p : Prim) :
      open'.has p = true ↔ ∃ s ∈ cheapestOf named candidates args, prim s = p := by
    rw [has]
    refine ⟨And.left, ?_⟩
    rintro ⟨s, there, rfl⟩
    exact ⟨⟨s, there, rfl⟩, taken s there⟩
  refine ⟨open', rfl, left, fun arg there => ?_, fun p inside => ?_⟩
  · obtain ⟨s, rfl, -⟩ := Ty.contains_ofPrim_iff.mp (((has q).mp inside).2 arg there)
    rw [Ty.contains, notEmpty some, Bool.not_false, Bool.true_and, PrimSet.includes_iff]
    intro p inside
    obtain ⟨u, same, has⟩ := Ty.contains_ofPrim_iff.mp (((has p).mp inside).2 _ there)
    cases same
    exact has
  · obtain ⟨s, there, rfl⟩ := (left p).mp inside
    obtain ⟨member, takes, -⟩ := cheap s there
    exact ⟨s, member, rfl, resolve_settled each name member takes nonempty⟩

/-- The sum of two open integers is left to the signed operators. -/
theorem resolve_deferred_openSum :
    OnePrimEach (Builtin.operators "+" 2) (fun s => (operandPrim? s).getD .void) ∧
      resolve "+" [] (Builtin.operators "+" 2) [.prims .ints, .prims .signed] =
        .ok (.deferred (.prims .signed)
          ((Builtin.operators "+" 2).filter fun s => (operandPrim? s).any Prim.isSigned)) ∧
      ∃ s ∈ Builtin.operators "+" 2, (operandPrim? s).getD .void = .i8 ∧
        resolve "+" [] (Builtin.operators "+" 2) [.ofPrim .i8, .ofPrim .i8] =
          .ok (.resolved s [none, none]) := by
  have each : OnePrimEach (Builtin.operators "+" 2) (fun s => (operandPrim? s).getD .void) :=
    ⟨by decide, by decide, by decide⟩
  have putOff : resolve "+" [] (Builtin.operators "+" 2) [.prims .ints, .prims .signed] =
      .ok (.deferred (.prims .signed)
        ((Builtin.operators "+" 2).filter fun s => (operandPrim? s).any Prim.isSigned)) := rfl
  obtain ⟨left, eq, -, -, finish⟩ := resolve_deferred_finishable each putOff
  cases eq
  exact ⟨each, putOff, finish .i8 (by decide)⟩

end Overload

end EbLang
