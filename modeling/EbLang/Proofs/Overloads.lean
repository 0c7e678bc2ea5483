import EbLang.Proofs.Types

/-!
# Which function a call is of

A function takes the arguments of a call if it knows those passed by name and every argument passes
for the type asked of it: it may become that type, or its primitive widens to it.  The cheapest of
the functions that take the arguments are those with the fewest conversions.  What a call comes to
is said here in these terms alone, and it does not depend on the order of the candidates.
-/

namespace EbLang

/-! ## Functions that take the arguments -/

/-- An argument that may be passed for a type: as it is, or converted. -/
inductive Ty.Passes (arg param : Ty) : Prop
  | asItIs : arg.contains param = true → Passes arg param
  | converted {source target : Prim} : arg = .ofPrim source → param = .ofPrim target →
      source.widensTo target = true → Passes arg param

/-- The conversion that an argument is passed with: none if it may become what is asked for, and
else the built-in one between the two primitives. -/
def Ty.PassesBy (arg param : Ty) (cast : Option Signature) : Prop :=
  (cast = none ↔ arg.contains param = true) ∧
    (arg.contains param = false → ∃ source target, arg = .ofPrim source ∧ param = .ofPrim target ∧
      source.widensTo target = true ∧ cast = some (Builtin.castFunction source target))

/-- Every argument is passed for the type asked of it, with the conversion at its place. -/
structure Passing (args params : List Ty) (casts : List (Option Signature)) : Prop where
  length_params : params.length = args.length
  length_casts : casts.length = args.length
  each : ∀ (i : Nat) (arg param : Ty) (cast : Option Signature), args[i]? = some arg →
    params[i]? = some param → casts[i]? = some cast → arg.PassesBy param cast

namespace Signature

/-- The function knows the named arguments and takes every argument. -/
def Takes (s : Signature) (named : List String) (args : List Ty) : Prop :=
  ∃ params, s.typesFor? named = some params ∧ List.Forall₂ Ty.Passes args params

/-- How many arguments have to be converted. -/
def conversions (s : Signature) (named : List String) (args : List Ty) : Nat :=
  (args.zip ((s.typesFor? named).getD [])).countP fun p => !p.1.contains p.2

/-- No candidate that takes the arguments needs fewer conversions. -/
def IsCheapest (candidates : List Signature) (named : List String) (args : List Ty)
    (s : Signature) : Prop :=
  s.Takes named args ∧
    ∀ t ∈ candidates, t.Takes named args → s.conversions named args ≤ t.conversions named args

end Signature

namespace Overload

theorem widening?_eq_some_iff {arg param : Ty} {cast : Signature} :
    widening? arg param = some cast ↔ ∃ source target, arg = .ofPrim source ∧
      param = .ofPrim target ∧ source.widensTo target = true ∧
      cast = Builtin.castFunction source target := by
  simp only [widening?, Builtin.cast?, Option.bind_eq_bind, Option.bind_eq_some_iff]
  constructor
  · rintro ⟨source, from?, target, to?, found⟩
    split at found
    next widens =>
      exact ⟨source, target, Ty.eq_ofPrim_of_prim? from?, Ty.eq_ofPrim_of_prim? to?, widens,
        (Option.some.inj found).symm⟩
    next => cases found
  · rintro ⟨source, target, rfl, rfl, widens, rfl⟩
    exact ⟨source, PrimSet.only?_single source, target, PrimSet.only?_single target, if_pos widens⟩

theorem argumentCost?_eq_some_iff {arg param : Ty} {cost : Nat} :
    argumentCost? arg param = some cost ↔
      arg.Passes param ∧ cost = if arg.contains param then 0 else 1 := by
  unfold argumentCost?
  by_cases contains : arg.contains param = true
  · simp only [contains, if_true, Option.some.injEq]
    exact ⟨fun h => ⟨.asItIs contains, h.symm⟩, fun h => h.2.symm⟩
  · simp only [contains, Bool.false_eq_true, if_false]
    constructor
    · intro found
      split at found
      next widens =>
        obtain ⟨cast, widens⟩ := Option.isSome_iff_exists.mp widens
        obtain ⟨source, target, from?, to?, widens, -⟩ := widening?_eq_some_iff.mp widens
        exact ⟨.converted from? to? widens, (Option.some.inj found).symm⟩
      next => cases found
    · rintro ⟨passes, rfl⟩
      cases passes with
      | asItIs contains' => exact absurd contains' contains
      | @converted source target from? to? widens =>
        have found := widening?_eq_some_iff.mpr ⟨source, target, from?, to?, widens, rfl⟩
        simp [found]

theorem argumentsCost?_eq_some_iff : ∀ {args params : List Ty} {cost : Nat},
    argumentsCost? args params = some cost ↔ List.Forall₂ Ty.Passes args params ∧
      cost = (args.zip params).countP fun p => !p.1.contains p.2
  | [], [], cost => by simp [argumentsCost?, eq_comm]
  | [], _ :: _, cost => by simp [argumentsCost?]
  | _ :: _, [], cost => by simp [argumentsCost?]
  | arg :: args, param :: params, cost => by
    simp only [argumentsCost?, Option.bind_eq_bind, Option.bind_eq_some_iff, pure,
      argumentCost?_eq_some_iff, argumentsCost?_eq_some_iff, Option.some.injEq,
      List.forall₂_cons, List.zip_cons_cons, List.countP_cons]
    constructor
    · rintro ⟨own, ⟨passes, rfl⟩, others, ⟨pass, rfl⟩, rfl⟩
      refine ⟨⟨passes, pass⟩, ?_⟩
      cases arg.contains param <;> simp [Nat.add_comm]
    · rintro ⟨⟨passes, pass⟩, rfl⟩
      refine ⟨_, ⟨passes, rfl⟩, _, ⟨pass, rfl⟩, ?_⟩
      cases arg.contains param <;> simp [Nat.add_comm]

variable {named : List String} {args : List Ty} {s : Signature}

theorem viable?_eq_some_iff {v : Viable} :
    viable? named args s = some v ↔ ∃ params, s.typesFor? named = some params ∧
      List.Forall₂ Ty.Passes args params ∧ v = ⟨s.conversions named args, s, params⟩ := by
  simp only [viable?, Option.bind_eq_bind, Option.bind_eq_some_iff, pure, Option.some.injEq,
    argumentsCost?_eq_some_iff]
  constructor
  · rintro ⟨params, asked, cost, ⟨pass, rfl⟩, rfl⟩
    exact ⟨params, asked, pass, by simp [Signature.conversions, asked]⟩
  · rintro ⟨params, asked, pass, rfl⟩
    exact ⟨params, asked, _, ⟨pass, rfl⟩, by simp [Signature.conversions, asked]⟩

theorem isSome_viable?_iff : (viable? named args s).isSome = true ↔ s.Takes named args := by
  rw [Option.isSome_iff_exists]
  constructor
  · rintro ⟨v, found⟩
    obtain ⟨params, asked, pass, -⟩ := viable?_eq_some_iff.mp found
    exact ⟨params, asked, pass⟩
  · rintro ⟨params, asked, pass⟩
    exact ⟨_, viable?_eq_some_iff.mpr ⟨params, asked, pass, rfl⟩⟩

end Overload

instance (s : Signature) (named : List String) (args : List Ty) : Decidable (s.Takes named args) :=
  decidable_of_iff _ Overload.isSome_viable?_iff

instance (candidates : List Signature) (named : List String) (args : List Ty) (s : Signature) :
    Decidable (s.IsCheapest candidates named args) :=
  inferInstanceAs (Decidable (_ ∧ _))

namespace Overload

variable {args : List Ty} {candidates : List Signature} {named : List String}

/-! ## The cheapest candidates -/

/-- The candidates that take the arguments with the fewest conversions. -/
def cheapestOf (named : List String) (candidates : List Signature) (args : List Ty) :
    List Signature :=
  candidates.filter fun s => s.IsCheapest candidates named args

/-- What is asked of the arguments is what the function asks for, and they pass. -/
def Viable.Fits (named : List String) (args : List Ty) (v : Viable) : Prop :=
  v.signature.typesFor? named = some v.params ∧ List.Forall₂ Ty.Passes args v.params ∧
    v.cost = v.signature.conversions named args

theorem viable_fits : ∀ v ∈ viable named candidates args, v.Fits named args := by
  intro v member
  obtain ⟨s, -, found⟩ := List.mem_filterMap.mp member
  obtain ⟨params, asked, pass, rfl⟩ := viable?_eq_some_iff.mp found
  exact ⟨asked, pass, rfl⟩

variable (vs : List Viable)

theorem cheapest_eq_filter : cheapest vs = vs.filter fun v => ∀ w ∈ vs, v.cost ≤ w.cost := by
  unfold cheapest
  cases least : (vs.map Viable.cost).min? with
  | none =>
    rw [List.min?_eq_none_iff, List.map_eq_nil_iff] at least
    rw [least]
    rfl
  | some cost =>
    obtain ⟨member, le⟩ := List.min?_eq_some_iff.mp least
    obtain ⟨first, there, rfl⟩ := List.mem_map.mp member
    have le : ∀ w ∈ vs, first.cost ≤ w.cost := fun w hw => le _ (List.mem_map_of_mem hw)
    refine List.filter_congr fun v hv => ?_
    rw [Bool.eq_iff_iff, beq_iff_eq, decide_eq_true_eq]
    exact ⟨fun eq w hw => eq ▸ le w hw, fun cheap => Nat.le_antisymm (cheap first there) (le v hv)⟩

theorem mem_viable_iff {v : Viable} : v ∈ viable named candidates args ↔
      v.signature ∈ candidates ∧ v.Fits named args := by
  constructor
  · intro member
    refine ⟨?_, viable_fits v member⟩
    obtain ⟨s, there, found⟩ := List.mem_filterMap.mp member
    obtain ⟨params, -, -, rfl⟩ := viable?_eq_some_iff.mp found
    exact there
  · rintro ⟨there, asked, pass, cost⟩
    refine List.mem_filterMap.mpr ⟨v.signature, there, viable?_eq_some_iff.mpr ⟨_, asked, pass, ?_⟩⟩
    rw [← cost]

/-- The candidates of least cost are those that need the fewest conversions. -/
theorem map_signature_cheapest (named : List String) (candidates : List Signature)
    (args : List Ty) :
    (cheapest (viable named candidates args)).map Viable.signature =
      cheapestOf named candidates args := by
  have cheap : ∀ s v, viable? named args s = some v →
      ((∀ w ∈ viable named candidates args, v.cost ≤ w.cost) ↔
        s.IsCheapest candidates named args) := by
    intro s v found
    obtain ⟨params, asked, pass, rfl⟩ := viable?_eq_some_iff.mp found
    constructor
    · intro least
      refine ⟨⟨params, asked, pass⟩, fun t there ⟨params', asked', pass'⟩ => ?_⟩
      exact least ⟨t.conversions named args, t, params'⟩
        (mem_viable_iff.mpr ⟨there, asked', pass', rfl⟩)
    · intro least w there
      obtain ⟨there, fits⟩ := mem_viable_iff.mp there
      rw [fits.2.2]
      exact least.2 w.signature there ⟨w.params, fits.1, fits.2.1⟩
  have each (p : Viable → Bool) : ((viable named candidates args).filter p).map Viable.signature =
      candidates.filterMap fun s => ((viable? named args s).filter p).map Viable.signature := by
    rw [viable, List.filter_filterMap, List.map_filterMap]
  rw [cheapest_eq_filter, cheapestOf, each, ← List.filterMap_eq_filter]
  refine List.filterMap_congr fun s _ => ?_
  cases found : viable? named args s with
  | none =>
    have : ¬ s.IsCheapest candidates named args := fun least => by
      have takes := isSome_viable?_iff.mpr least.1
      rw [found] at takes
      cases takes
    simp [Option.guard, this]
  | some v =>
    have iff := cheap s v found
    obtain ⟨params, -, -, rfl⟩ := viable?_eq_some_iff.mp found
    rw [Option.filter_some, Option.guard]
    by_cases least : s.IsCheapest candidates named args
    · rw [if_pos (decide_eq_true (iff.mpr least)), if_pos (decide_eq_true least)]
      rfl
    · rw [if_neg (mt of_decide_eq_true (mt iff.mp least)), if_neg (mt of_decide_eq_true least)]
      rfl

/-! ## What a call comes to -/

/-- One function is left, or two operators are. -/
def IsDecided (best : List Signature) : Prop :=
  best.length = 1 ∨ best.length = 2 ∧ ∀ s ∈ best, s.form = .operator

theorem breakTie_cases :
    breakTie vs = vs ∧ ¬ (vs.length = 2 ∧ ∀ v ∈ vs, v.signature.form = .operator) ∨
      ∃ v ∈ vs, breakTie vs = [v] ∧ vs.length = 2 ∧ ∀ w ∈ vs, w.signature.form = .operator := by
  fun_cases breakTie vs with
  | case1 a b operators =>
    simp only [Viable.isOperator, Bool.and_eq_true, beq_iff_eq] at operators
    refine .inr ⟨if isAsGeneral a.signature b.signature then a else b, ?_, rfl, rfl, ?_⟩
    · split <;> simp
    · simpa using operators
  | case2 a b operators =>
    simp only [Viable.isOperator, Bool.and_eq_true, beq_iff_eq] at operators
    exact .inl ⟨rfl, by simpa using operators⟩
  | case3 vs other =>
    refine .inl ⟨rfl, fun ⟨two, _⟩ => ?_⟩
    obtain ⟨a, b, rfl⟩ := List.length_eq_two.mp two
    exact other a b rfl


/-- All that can come of a call. -/
theorem resolve_cases (name : String) (named : List String) (candidates : List Signature)
    (args : List Ty) :
    (cheapestOf named candidates args = [] ∧ resolve name named candidates args =
      .error (.noMatchingOverload name (", ".intercalate (args.map Ty.shown)))) ∨
    (IsDecided (cheapestOf named candidates args) ∧ ∃ v : Viable, v.Fits named args ∧
      v.signature ∈ cheapestOf named candidates args ∧
      resolve name named candidates args =
        .ok (.resolved v.signature (List.zipWith castFor args v.params))) ∨
    (2 ≤ (cheapestOf named candidates args).length ∧
      ¬ IsDecided (cheapestOf named candidates args) ∧
      (resolve name named candidates args = .error (.ambiguousCall name) ∨
        ∃ merged, common? (cheapest (viable named candidates args)) args = some merged ∧
          (∀ s ∈ cheapestOf named candidates args, s.form = .operator) ∧
          (∃ arg ∈ args, arg.isComplete = false) ∧ resolve name named candidates args =
            .ok (.deferred merged (cheapestOf named candidates args)))) := by
  have fits : ∀ v ∈ cheapest (viable named candidates args), v.Fits named args := fun v member =>
    viable_fits v (List.mem_filter.mp (cheapest_eq_filter _ ▸ member)).1
  rw [← map_signature_cheapest]
  unfold resolve
  generalize cheapest (viable named candidates args) = vs at fits
  obtain ⟨same, tie⟩ | ⟨v, member, one, two, operators⟩ := breakTie_cases vs
  · rw [same]
    rcases vs with _ | ⟨v, _ | ⟨w, vs⟩⟩
    · exact .inl ⟨rfl, rfl⟩
    · exact .inr (.inl ⟨.inl rfl, v, fits v (.head _), .head _, rfl⟩)
    · refine .inr (.inr ⟨by simp, ?_, ?_⟩)
      · simp only [IsDecided, List.length_map, List.forall_mem_map]
        exact fun decided => decided.elim (by simp) tie
      · dsimp only
        split
        next putOff =>
          simp only [Bool.and_eq_true, List.all_eq_true, List.any_eq_true, Bool.not_eq_true',
            Viable.isOperator, beq_iff_eq] at putOff
          split
          next merged common =>
            exact .inr ⟨merged, common, List.forall_mem_map.mpr putOff.1, putOff.2, rfl⟩
          next => exact .inl rfl
        next => exact .inl rfl
  · rw [one]
    refine .inr (.inl ⟨.inr ⟨by simpa using two, List.forall_mem_map.mpr operators⟩, ?_⟩)
    exact ⟨v, fits v member, List.mem_map_of_mem member, rfl⟩

theorem passesBy_castFor {arg param : Ty} (passes : arg.Passes param) :
    arg.PassesBy param (castFor arg param) := by
  unfold castFor
  by_cases contains : arg.contains param = true
  · simp [Ty.PassesBy, contains]
  · cases passes with
    | asItIs contains' => exact absurd contains' contains
    | @converted source target from? to? widens =>
      have found := widening?_eq_some_iff.mpr ⟨source, target, from?, to?, widens, rfl⟩
      rw [if_neg contains, found]
      exact ⟨by simp [contains], fun _ => ⟨source, target, from?, to?, widens, rfl⟩⟩

theorem passing_castFor {params : List Ty} (pass : List.Forall₂ Ty.Passes args params) :
    Passing args params (List.zipWith castFor args params) := by
  refine ⟨pass.length_eq.symm, by simp [pass.length_eq], ?_⟩
  intro i arg param cast here there found
  simp only [List.getElem?_zipWith, here, there, Option.some.injEq] at found
  obtain ⟨lt, rfl⟩ := List.getElem?_eq_some_iff.mp here
  obtain ⟨lt', rfl⟩ := List.getElem?_eq_some_iff.mp there
  rw [← found]
  exact passesBy_castFor (pass.get lt lt')

theorem cheapestOf_eq_nil_iff :
    cheapestOf named candidates args = [] ↔ ∀ s ∈ candidates, ¬ s.Takes named args := by
  rw [← map_signature_cheapest, List.map_eq_nil_iff]
  constructor
  · intro none s there takes
    obtain ⟨v, found⟩ := Option.isSome_iff_exists.mp (isSome_viable?_iff.mpr takes)
    have member : v ∈ viable named candidates args := List.mem_filterMap.mpr ⟨s, there, found⟩
    cases least : ((viable named candidates args).map Viable.cost).min? with
    | none =>
      rw [List.min?_eq_none_iff, List.map_eq_nil_iff] at least
      rw [least] at member
      cases member
    | some cost =>
      obtain ⟨first, there, eq⟩ := List.mem_map.mp (List.min?_mem least)
      have kept : first ∈ cheapest (viable named candidates args) := by
        rw [cheapest, least]
        exact List.mem_filter.mpr ⟨there, beq_iff_eq.mpr eq⟩
      rw [none] at kept
      cases kept
  · intro none
    have viable : viable named candidates args = [] := by
      refine List.filterMap_eq_nil_iff.mpr fun s there => ?_
      exact Option.not_isSome_iff_eq_none.mp (mt isSome_viable?_iff.mp (none s there))
    rw [viable]
    rfl

/-- What a call comes to, for all candidates and arguments.  Nothing matches exactly if no candidate
takes the arguments.  A function that is found is one of the cheapest, with the conversions that its
arguments need; it is found exactly if it is the only one or one of two, both operators.  Every other
tie is put off, if all are operators and an argument is open, or it is ambiguous. -/
theorem resolve_optimal (name : String) (named : List String) (candidates : List Signature)
    (args : List Ty) :
    (resolve name named candidates args =
        .error (.noMatchingOverload name (", ".intercalate (args.map Ty.shown))) ↔
      ∀ s ∈ candidates, ¬ s.Takes named args) ∧
    (∀ target casts, resolve name named candidates args = .ok (.resolved target casts) →
      target ∈ candidates ∧ target.IsCheapest candidates named args ∧
      ∃ params, target.typesFor? named = some params ∧ Passing args params casts) ∧
    ((∃ target casts, resolve name named candidates args = .ok (.resolved target casts)) ↔
      IsDecided (cheapestOf named candidates args)) ∧
    (2 ≤ (cheapestOf named candidates args).length →
      ¬ IsDecided (cheapestOf named candidates args) →
      resolve name named candidates args = .error (.ambiguousCall name) ∨
        ∃ merged, (∀ s ∈ cheapestOf named candidates args, s.form = .operator) ∧
          (∃ arg ∈ args, arg.isComplete = false) ∧ resolve name named candidates args =
            .ok (.deferred merged (cheapestOf named candidates args))) := by
  rw [← cheapestOf_eq_nil_iff]
  obtain ⟨none, eq⟩ | ⟨decided, v, ⟨asked, pass, -⟩, best, eq⟩ | ⟨two, open', outcome⟩ :=
    resolve_cases name named candidates args
  · simp [eq, none, IsDecided]
  · have some : cheapestOf named candidates args ≠ [] := List.ne_nil_of_mem best
    obtain ⟨member, cheapest⟩ := List.mem_filter.mp best
    refine ⟨by simp [eq, some], ?_, by simp [eq, decided], fun _ undecided => absurd decided undecided⟩
    rintro target casts found
    rw [eq] at found
    cases found
    exact ⟨member, of_decide_eq_true cheapest, v.params, asked, passing_castFor pass⟩
  · have some : cheapestOf named candidates args ≠ [] := by
      intro none
      rw [none] at two
      cases two
    obtain eq | ⟨merged, -, operators, some', eq⟩ := outcome
    · exact ⟨by simp [eq, some], by simp [eq], by simp [eq, open'], fun _ _ => .inl eq⟩
    · exact ⟨by simp [eq, some], by simp [eq], by simp [eq, open'],
        fun _ _ => .inr ⟨merged, operators, some', eq⟩⟩

/-- A sum of different primitives converts one of them, and one of open integers is put off. -/
theorem resolve_optimal_sums :
    (∃ target casts, resolve "+" [] (Builtin.operators "+" 2) [.ofPrim .i16, .ofPrim .i32] =
        .ok (.resolved target casts) ∧
      target.IsCheapest (Builtin.operators "+" 2) [] [.ofPrim .i16, .ofPrim .i32] ∧
      ∃ params, target.typesFor? [] = some params ∧
        Passing [.ofPrim .i16, .ofPrim .i32] params casts) ∧
    2 ≤ (cheapestOf [] (Builtin.operators "+" 2) [.prims .signed, .prims .ints]).length ∧
    ¬ IsDecided (cheapestOf [] (Builtin.operators "+" 2) [.prims .signed, .prims .ints]) ∧
    ∃ arg ∈ [Ty.prims .signed, .prims .ints], arg.isComplete = false := by
  obtain ⟨-, found, decided, -⟩ :=
    resolve_optimal "+" [] (Builtin.operators "+" 2) [.ofPrim .i16, .ofPrim .i32]
  obtain ⟨-, -, decided', ties⟩ :=
    resolve_optimal "+" [] (Builtin.operators "+" 2) [.prims .signed, .prims .ints]
  obtain ⟨target, casts, eq⟩ := decided.mpr (.inl (by decide +kernel))
  have two : 2 ≤ (cheapestOf [] (Builtin.operators "+" 2) [.prims .signed, .prims .ints]).length := by
    decide +kernel
  have open' : ¬ IsDecided (cheapestOf [] (Builtin.operators "+" 2) [.prims .signed, .prims .ints]) := by
    intro single
    obtain ⟨_, _, eq⟩ := decided'.mpr single
    cases eq
  refine ⟨⟨target, casts, eq, (found target casts eq).2⟩, two, open', ?_⟩
  obtain error | ⟨merged, -, some, -⟩ := ties two open'
  · cases error
  · exact some

/-! ## The order of the candidates -/

/-- Two calls come to the same: they fail alike, are of the same function with the same conversions,
or are put off with the same type and the same candidates, in any order. -/
inductive Alike : Except Fault Resolution → Except Fault Resolution → Prop
  | failed {fault : Fault} : Alike (.error fault) (.error fault)
  | resolved {target : Signature} {casts : List (Option Signature)} :
      Alike (.ok (.resolved target casts)) (.ok (.resolved target casts))
  | deferred {merged : Ty} {candidates candidates' : List Signature} :
      candidates.Perm candidates' →
      Alike (.ok (.deferred merged candidates)) (.ok (.deferred merged candidates'))

/-- The operators among some functions have different first operands. -/
def DistinctOperands (candidates : List Signature) : Prop :=
  ((candidates.filter fun s => s.form == .operator).map operandPrim?).Nodup

theorem perm_cheapest {vs vs' : List Viable} (perm : vs.Perm vs') :
    (cheapest vs).Perm (cheapest vs') := by
  rw [cheapest_eq_filter, cheapest_eq_filter]
  have same : (fun v : Viable => decide (∀ w ∈ vs, v.cost ≤ w.cost)) =
      fun v => decide (∀ w ∈ vs', v.cost ≤ w.cost) := by
    funext v
    exact decide_eq_decide.mpr (by simp only [perm.mem_iff])
  rw [same]
  exact perm.filter _

/-- Of two operators with different operands just one is as general as the other. -/
theorem isAsGeneral_comm {s t : Signature} (distinct : operandPrim? s ≠ operandPrim? t) :
    isAsGeneral t s = !isAsGeneral s t := by
  have prims : ∀ p ∈ Prim.all, ∀ q ∈ Prim.all, p ≠ q → q.isMoreGeneral p = !p.isMoreGeneral q := by
    decide
  unfold isAsGeneral
  generalize operandPrim? s = p at distinct
  generalize operandPrim? t = q at distinct
  rcases p with _ | p <;> rcases q with _ | q
  · exact absurd rfl distinct
  · rfl
  · rfl
  · exact prims p p.mem_all q q.mem_all fun same => distinct (congrArg some same)

theorem eq_or_swap_of_perm {α : Type} {a b c d : α} (perm : [a, b].Perm [c, d]) :
    (a = c ∧ b = d) ∨ (a = d ∧ b = c) := by
  have first : a ∈ [c, d] := perm.subset (.head _)
  simp only [List.mem_cons, List.not_mem_nil, or_false] at first
  obtain rfl | rfl := first
  · exact .inl ⟨rfl, by simpa using perm.cons_inv⟩
  · exact .inr ⟨rfl, by simpa using (perm.trans (.swap a c [])).cons_inv⟩

theorem perm_breakTie {vs vs' : List Viable} (perm : vs.Perm vs')
    (distinct : DistinctOperands (vs.map Viable.signature)) :
    (breakTie vs).Perm (breakTie vs') := by
  by_cases two : vs.length = 2
  · have two' : vs'.length = 2 := perm.length_eq ▸ two
    obtain ⟨a, b, rfl⟩ := List.length_eq_two.mp two
    obtain ⟨c, d, rfl⟩ := List.length_eq_two.mp two'
    obtain ⟨rfl, rfl⟩ | ⟨rfl, rfl⟩ := eq_or_swap_of_perm perm
    · exact .refl _
    · simp only [breakTie, Bool.and_comm b.isOperator]
      split
      next operators =>
        simp only [Viable.isOperator, Bool.and_eq_true] at operators
        have other : operandPrim? a.signature ≠ operandPrim? b.signature := by
          simpa [DistinctOperands, operators] using distinct
        rw [isAsGeneral_comm other]
        cases isAsGeneral a.signature b.signature <;> exact .refl _
      next => exact .swap b a []
  · have same {ws : List Viable} (length : ws.length ≠ 2) : breakTie ws = ws := by
      fun_cases breakTie ws with
      | case1 => exact absurd rfl length
      | case2 => rfl
      | case3 => rfl
    rw [same two, same (perm.length_eq ▸ two)]
    exact perm

theorem union?_right_comm (t u v : Ty) :
    (t.union? u >>= fun w => w.union? v) = (t.union? v >>= fun w => w.union? u) := by
  have masks (s t u : PrimSet) : (s.union t).union u = (s.union u).union t := by
    simp only [PrimSet.union, BitVec.or_assoc, BitVec.or_comm t.mask]
  rcases t with s | r <;> rcases u with s' | r' <;> rcases v with s'' | r''
  case prims.prims.prims => exact congrArg (fun s => some (Ty.prims s)) (masks s s' s'')
  case struct.struct.struct =>
    cases same : r.mangled == r'.mangled <;> cases same' : r.mangled == r''.mangled <;>
      simp only [Ty.union?, same, same', Option.bind_eq_bind, Option.bind_some, Option.bind_none,
        if_true, if_false, Bool.false_eq_true]
  case struct.struct.prims => cases same : r.mangled == r'.mangled <;> simp [Ty.union?, same]
  case struct.prims.struct => cases same : r.mangled == r''.mangled <;> simp [Ty.union?, same]
  all_goals rfl

theorem foldlM_perm {α β : Type} {f : α → β → Option α}
    (comm : ∀ a x y, (f a x >>= fun b => f b y) = (f a y >>= fun b => f b x)) {l l' : List β}
    (perm : l.Perm l') (a : α) : l.foldlM f a = l'.foldlM f a := by
  induction perm generalizing a with
  | nil => rfl
  | cons x _ ih => simp only [List.foldlM_cons, ih]
  | swap x y l =>
    simp only [List.foldlM_cons, ← bind_assoc, comm a x y]
  | trans _ _ ih ih' => exact (ih a).trans (ih' a)

theorem common?_perm {best best' : List Viable} (perm : best.Perm best') (args : List Ty) :
    common? best args = common? best' args := by
  unfold common?
  rw [foldlM_perm union?_right_comm (perm.flatMap_right Viable.params)]

/-- What a call comes to does not depend on the order of its candidates. -/
theorem resolve_perm (name : String) (named : List String) (args : List Ty)
    {candidates candidates' : List Signature} (perm : candidates.Perm candidates')
    (distinct : DistinctOperands candidates) :
    Alike (resolve name named candidates args) (resolve name named candidates' args) := by
  have cheap := perm_cheapest (perm.filterMap (viable? named args))
  have best : (breakTie (cheapest (viable named candidates args))).Perm
      (breakTie (cheapest (viable named candidates' args))) := by
    refine perm_breakTie cheap ?_
    rw [map_signature_cheapest]
    exact distinct.sublist ((List.filter_sublist.filter _).map _)
  unfold resolve
  generalize breakTie (cheapest (viable named candidates args)) = vs at best
  generalize breakTie (cheapest (viable named candidates' args)) = vs' at best
  rcases vs with _ | ⟨v, _ | ⟨w, vs⟩⟩
  · obtain rfl := best.nil_eq
    exact .failed
  · obtain rfl := List.singleton_perm.mp best
    exact .resolved
  · rcases vs' with _ | ⟨v', _ | ⟨w', vs'⟩⟩
    · cases best.length_eq
    · cases best.length_eq
    · dsimp only
      rw [best.all_eq, common?_perm best]
      split
      · split
        · exact .deferred (best.map Viable.signature)
        · exact .failed
      · exact .failed

/-- The sum of two open integers may be of any signed primitive, whichever overload comes first. -/
theorem resolve_perm_openSum :
    (Builtin.operators "+" 2).Perm (Builtin.operators "+" 2).reverse ∧
      DistinctOperands (Builtin.operators "+" 2) ∧
      resolve "+" [] (Builtin.operators "+" 2) [.prims .signed, .prims .ints] =
        .ok (.deferred (.prims .signed)
          ((Builtin.operators "+" 2).filter fun s => (operandPrim? s).any Prim.isSigned)) ∧
      Alike (resolve "+" [] (Builtin.operators "+" 2) [.prims .signed, .prims .ints])
        (resolve "+" [] (Builtin.operators "+" 2).reverse [.prims .signed, .prims .ints]) := by
  have perm : (Builtin.operators "+" 2).Perm (Builtin.operators "+" 2).reverse :=
    (List.reverse_perm _).symm
  have distinct : DistinctOperands (Builtin.operators "+" 2) := by
    unfold DistinctOperands
    decide
  exact ⟨perm, distinct, rfl, resolve_perm "+" [] _ perm distinct⟩

end Overload

end EbLang
