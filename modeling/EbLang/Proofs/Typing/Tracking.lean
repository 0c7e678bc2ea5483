import EbLang.Proofs.Typing.Operands

/-!
# Readings that keep track of their operands

The operands on the stack stand side by side: each starts where the one before it ends, and is linked
to steps of its own only.  So binding a call changes nothing before the first of its operands, and
what a bound call takes is not narrowed again.
-/

namespace EbLang

/-! ## Operands side by side -/

/-- One after the last step of what stands before some operands. -/
def stopOf (stop : Nat) (os : List Operand) : Nat := (os.head?.map Operand.start).getD stop

/-- A value on the stack ends with a step: nothing has claimed it, it has the type of the step unless
that is an operator's, and it is linked to steps of its own that may be narrowed. -/
structure Operand.Stands (p : Progress) (o : Operand) (j : Nat) : Prop where
  start_le : o.start ≤ j
  unclaimed : p.Unclaimed j
  gives : ∃ a, p.done[j]? = some a ∧ (a.isOperation = false → a.ty = o.ty)
  links : ∀ i, Cell.step i ∈ o.cells → (o.start ≤ i ∧ i ≤ j) ∧ p.Movable i

namespace Operand.Stands

variable {S : Nat → Prop} {p p' : Progress} {o : Operand} {j : Nat}

theorem agree (h : o.Stands p j) (agree : p.Agree S p')
    (own : ∀ i, o.start ≤ i → i ≤ j → S i) : o.Stands p' j where
  start_le := h.start_le
  unclaimed := agree.unclaimed (agree.casts j (own j h.start_le (Nat.le_refl j))) h.unclaimed
  gives := by
    obtain ⟨a, found, type⟩ := h.gives
    exact ⟨a, (agree.steps j (own j h.start_le (Nat.le_refl j))).trans found, type⟩
  links i linked := by
    obtain ⟨range, movable⟩ := h.links i linked
    exact ⟨range, agree.movable (agree.casts i (own i range.1 range.2)) movable⟩

theorem push (h : o.Stands p j) {a : Atom} {o' : Operand} {rest : List Operand}
    (apart : a.isFixed = true → ∀ i ∈ ((lasts p.arities).take a.takes).reverse, j < i) :
    o.Stands (p.push a o' rest) j where
  start_le := h.start_le
  unclaimed := h.unclaimed.push fun fixed among => Nat.lt_irrefl j (apart fixed j among)
  gives := by
    obtain ⟨b, found, type⟩ := h.gives
    exact ⟨b, Progress.getElem?_push_of_done found, type⟩
  links i linked := by
    obtain ⟨range, movable⟩ := h.links i linked
    obtain ⟨b, found, -⟩ := h.gives
    have lt : j < p.index := (List.getElem?_eq_some_iff.mp found).1
    refine ⟨range, movable.push (Nat.lt_of_le_of_lt range.2 lt) fun fixed among => ?_⟩
    have := apart fixed i among
    omega

end Operand.Stands

/-- Operands in order stand side by side, up to a step, and end with the given steps. -/
def Standing (p : Progress) (stop : Nat) : List Operand → List Nat → Prop
  | [], [] => True
  | o :: os, j :: js => (j + 1 = stopOf stop os ∧ o.Stands p j) ∧ Standing p stop os js
  | _, _ => False

namespace Standing

variable {S : Nat → Prop} {p p' : Progress} {stop : Nat}

theorem length_eq : ∀ {os : List Operand} {js : List Nat}, Standing p stop os js →
    os.length = js.length
  | [], [], _ => rfl
  | _ :: _, _ :: _, ⟨_, others⟩ => congrArg (· + 1) others.length_eq

theorem stopOf_append (stop : Nat) (os os' : List Operand) :
    stopOf stop (os ++ os') = stopOf (stopOf stop os') os := by
  cases os with
  | nil => rfl
  | cons => rfl

theorem append_iff {os' : List Operand} {js' : List Nat} :
    ∀ {os : List Operand} {js : List Nat}, os.length = js.length →
      (Standing p stop (os ++ os') (js ++ js') ↔
        Standing p (stopOf stop os') os js ∧ Standing p stop os' js')
  | [], [], _ => by
    exact ⟨fun h => ⟨trivial, h⟩, fun h => h.2⟩
  | o :: os, j :: js, length => by
    rw [List.cons_append, List.cons_append, Standing, Standing, stopOf_append,
      append_iff (Nat.succ.inj length), ← and_assoc]

/-- Operands and what they are linked to lie between the first and the end. -/
theorem bounds : ∀ {os : List Operand} {js : List Nat}, Standing p stop os js →
    stopOf stop os ≤ stop ∧ ∀ j ∈ js, stopOf stop os ≤ j ∧ j < stop
  | [], [], _ => ⟨Nat.le_refl stop, List.forall_mem_nil _⟩
  | o :: os, j :: js, ⟨⟨last, stands⟩, others⟩ => by
    obtain ⟨le, range⟩ := others.bounds
    have start : stopOf stop (o :: os) = o.start := rfl
    have start_le := stands.start_le
    refine ⟨by omega, List.forall_mem_cons.mpr ⟨⟨start_le, by omega⟩, fun i member => ?_⟩⟩
    have := range i member
    exact ⟨by omega, this.2⟩

theorem links : ∀ {os : List Operand} {js : List Nat}, Standing p stop os js →
    ∀ o ∈ os, ∀ i, Cell.step i ∈ o.cells → (stopOf stop os ≤ i ∧ i < stop) ∧ p.Movable i
  | [], [], _ => List.forall_mem_nil _
  | o :: os, j :: js, ⟨⟨last, stands⟩, others⟩ => by
    have le := others.bounds.1
    have start : stopOf stop (o :: os) = o.start := rfl
    have start_le := stands.start_le
    refine List.forall_mem_cons.mpr ⟨fun i linked => ?_, fun o' member i linked => ?_⟩
    · obtain ⟨range, movable⟩ := stands.links i linked
      exact ⟨by omega, movable⟩
    · obtain ⟨range, movable⟩ := others.links o' member i linked
      exact ⟨by omega, movable⟩

/-- The steps that give the operands have their types, unless they are operators'. -/
theorem shows : ∀ {os : List Operand} {js : List Nat}, Standing p stop os js →
    ∃ as, List.Forall₂ (fun j a => p.Shows j a ∧ p.done[j]? = some a) js as ∧
      List.Forall₂ (fun a o => a.isOperation = false → a.ty = o.ty) as os
  | [], [], _ => ⟨[], .nil, .nil⟩
  | o :: os, j :: js, ⟨⟨_, stands⟩, others⟩ => by
    obtain ⟨a, found, type⟩ := stands.gives
    obtain ⟨as, shown, types⟩ := others.shows
    exact ⟨a :: as, .cons ⟨.step found stands.unclaimed.uncast, found⟩ shown, .cons type types⟩

theorem agree (agree : p.Agree S p') : ∀ {os : List Operand} {js : List Nat},
    (∀ i, stopOf stop os ≤ i → i < stop → S i) → Standing p stop os js → Standing p' stop os js
  | [], [], _, _ => trivial
  | o :: os, j :: js, own, ⟨⟨last, stands⟩, others⟩ => by
    have le := others.bounds.1
    have start_le := stands.start_le
    have start : stopOf stop (o :: os) = o.start := rfl
    refine ⟨⟨last, stands.agree agree fun i low high => own i low ?_⟩, others.agree agree ?_⟩
    · omega
    · exact fun i low high => own i (by omega) high

theorem push {a : Atom} {o' : Operand} {rest : List Operand}
    (apart : a.isFixed = true → ∀ i ∈ ((lasts p.arities).take a.takes).reverse, stop ≤ i) :
    ∀ {os : List Operand} {js : List Nat}, Standing p stop os js →
      Standing (p.push a o' rest) stop os js
  | [], [], _ => trivial
  | o :: os, j :: js, ⟨⟨last, stands⟩, others⟩ => by
    refine ⟨⟨last, stands.push fun fixed i among => ?_⟩, others.push apart⟩
    have := apart fixed i among
    have := others.bounds.1
    omega

end Standing

variable {α : Type} {position : Position}

theorem Walk.ensures_failAt {fault : Fault} {P : α → Prop} :
    Ensures (Walk.failAt position fault : Walk α) P := by
  rintro s a ⟨⟩

theorem Walk.ensures_located {x : Except Fault α} :
    Ensures (Walk.located position x) fun a => x = .ok a := by
  cases x with
  | ok a => exact ensures_pure rfl
  | error fault => exact Walk.ensures_failAt

theorem Walk.leads_located {x : Except Fault α} {s : Scopes} :
    Leads (Walk.located position x) s fun a s' => x = .ok a ∧ s' = s := by
  cases x with
  | ok a => exact leads_pure ⟨rfl, rfl⟩
  | error fault => exact leads_throw

namespace Progress

/-- A reading that keeps track of its operands. -/
structure Tracks (structs : StructTable) (p : Progress) : Prop where
  sound : p.Sound structs
  standing : Standing p p.index p.stack.reverse (lasts p.arities).reverse

variable {structs : StructTable} {p p' : Progress} {s : Scopes}
variable {cells : List Cell}

theorem leads_narrow {ty : Ty} {P : Progress → Scopes → Prop}
    (h : P { p with done := (narrowCells cells ty p.done s).1 } (narrowCells cells ty p.done s).2) :
    Leads (p.narrow cells ty) s P := by
  exact leads_get (leads_set (leads_pure h))

/-- Narrowing an operand keeps a reading sound, and changes only what the operand is linked to. -/
theorem Sound.narrow (h : p.Sound structs) (ty : Ty)
    (movable : ∀ i, Cell.step i ∈ cells → p.Movable i) :
    Leads (p.narrow cells ty) s fun p' _ => p'.Sound structs ∧ p'.casts = p.casts ∧
      p.Agree (fun i => Cell.step i ∉ cells) p' ∧
      ∀ i a, Cell.step i ∈ cells → p.done[i]? = some a → p'.done[i]? = some { a with ty } := by
  have agree : p.Agree (fun i => Cell.step i ∉ cells)
      { p with done := (narrowCells cells ty p.done s).1 } :=
    ⟨map_kind_narrowCells cells ty p.done s, rfl,
      fun i free => getElem?_narrowCells_of_not_mem ty free p.done s, fun _ _ _ => Iff.rfl⟩
  refine leads_narrow ⟨h.agree agree rfl fun i linked => movable i (not_not.mp linked), rfl, agree, ?_⟩
  exact fun i a linked found => getElem?_narrowCells_of_mem ty linked found s

/-- Narrowing operands that stand side by side changes nothing before the first one. -/
theorem Sound.narrowAll (ty : Ty) : ∀ {args : List Operand} {js : List Nat} {p : Progress}
    {s : Scopes}, p.Sound structs → Standing p p.index args js →
    Leads (p.narrowAll args ty) s fun p' _ => p'.Sound structs ∧ p'.casts = p.casts ∧
      p.Agree (· < p.startOf args) p'
  | [], [], p, s, h, _ => leads_pure ⟨h, rfl, .refl _ p⟩
  | arg :: args, j :: js, p, s, h, ⟨⟨last, stands⟩, others⟩ => by
    refine leads_bind (h.narrow ty fun i linked => (stands.links i linked).2) ?_
    rintro p1 s1 ⟨sound, casts, agree, -⟩
    have below : p.Agree (· < arg.start) p1 := agree.mono fun i low linked => by
      have := (stands.links i linked).1
      omega
    have after : Standing p1 p1.index args js := by
      rw [agree.index]
      refine others.agree agree fun i low _ linked => ?_
      have := (stands.links i linked).1
      omega
    refine (Sound.narrowAll ty sound after).imp ?_
    rintro p' s' ⟨sound', casts', agree'⟩
    refine ⟨sound', casts'.trans casts, below.trans (agree'.mono fun i low => ?_)⟩
    have start_le := stands.start_le
    rw [agree.startOf]
    change i < stopOf p.index args
    omega

end Progress

namespace Overload

/-- A function that takes some arguments takes each. -/
theorem isSome_argumentsCost?_cons {arg param : Ty} {args params : List Ty}
    (h : (argumentsCost? (arg :: args) (param :: params)).isSome = true) :
    (arg.contains param = true ∨ (widening? arg param).isSome = true) ∧
      (argumentsCost? args params).isSome = true := by
  rw [argumentsCost?] at h
  cases first : argumentCost? arg param with
  | none => simp [first] at h
  | some cost =>
    cases others : argumentsCost? args params with
    | none => simp [first, others] at h
    | some _ =>
      refine ⟨?_, rfl⟩
      unfold argumentCost? at first
      split at first
      next contains => exact .inl contains
      next =>
        split at first
        next widens => exact .inr widens
        next => cases first

end Overload

namespace Progress

variable {structs : StructTable} {p p' : Progress} {s : Scopes}

/-- Fitting one operand makes it suit what is asked for, and changes nothing outside it. -/
theorem Sound.fitOne (h : p.Sound structs) {arg : Operand} {j : Nat} {param : Ty}
    (stands : arg.Stands p j)
    (passes : arg.ty.contains param = true ∨ (Overload.widening? arg.ty param).isSome = true) :
    Leads (match Overload.castFor arg.ty param with
        | some cast => pure (p.addCast j cast)
        | none => p.narrow arg.cells param) s fun p1 _ =>
      p1.Sound structs ∧ p.Agree (fun i => i < arg.start ∨ j < i) p1 ∧
        ∃ b, p1.Shows j b ∧ b.Suits param := by
  obtain ⟨a, found, type⟩ := stands.gives
  have start_le := stands.start_le
  unfold Overload.castFor
  by_cases contains : arg.ty.contains param = true
  · rw [if_pos contains]
    refine (h.narrow param fun i linked => (stands.links i linked).2).imp ?_
    rintro p1 s1 ⟨sound, casts, agree, narrowed⟩
    refine ⟨sound, agree.mono fun i away linked => ?_, ?_⟩
    · have := (stands.links i linked).1
      omega
    have uncast : ∀ c, (j, c) ∉ p1.casts := by
      rw [casts]
      exact stands.unclaimed.uncast
    by_cases linked : Cell.step j ∈ arg.cells
    · exact ⟨_, .step (narrowed j a linked found) uncast, fun _ _ => Ty.same_refl param⟩
    · refine ⟨a, .step ((agree.steps j linked).trans found) uncast, fun tight complete => ?_⟩
      rw [type (Atom.isOperation_eq_false tight)] at complete ⊢
      exact Ty.same_of_contains complete contains
  · obtain ⟨cast, widens⟩ := Option.isSome_iff_exists.mp (passes.resolve_left contains)
    obtain ⟨accepts, result⟩ := Overload.accepts_cast structs (b := a) widens type
    obtain ⟨sound, agree⟩ := h.addCast stands.unclaimed found accepts
    rw [if_neg contains, widens]
    refine leads_pure ⟨sound, agree.mono fun i away => by omega, .cast cast a.span, .cast found ?_,
      fun _ _ => ?_⟩
    · exact List.mem_append_right _ (List.mem_singleton_self _)
    · rw [Atom.cast, result]
      exact Ty.same_refl param

theorem fit_cons (p : Progress) (arg : Operand) (args : List Operand) (cast : Option Signature)
    (casts : List (Option Signature)) (param : Ty) (params : List Ty) :
    p.fit (arg :: args) (cast :: casts) (param :: params) =
      (match cast with
        | some cast => pure (p.addCast (stopOf p.index args - 1) cast)
        | none => p.narrow arg.cells param) >>= fun p1 => p1.fit args casts params := by
  cases cast <;> rfl

/-- Fitting operands that stand side by side makes each suit what is asked for, and changes nothing
before the first one. -/
theorem Sound.fit : ∀ {args : List Operand} {js : List Nat} {params : List Ty} {p : Progress}
    {s : Scopes}, p.Sound structs → Standing p p.index args js →
    (Overload.argumentsCost? (args.map Operand.ty) params).isSome = true →
    Leads (p.fit args (List.zipWith Overload.castFor (args.map Operand.ty) params) params) s
      fun p' _ => p'.Sound structs ∧ p.Agree (· < p.startOf args) p' ∧
        ∃ os, List.Forall₂ p'.Shows js os ∧ List.Forall₂ Atom.Suits os params
  | [], [], [], p, s, h, _, _ => by
    exact leads_pure ⟨h, .refl _ p, [], .nil, .nil⟩
  | [], [], _ :: _, p, s, h, _, cost => by cases cost
  | _ :: _, _ :: _, [], p, s, h, _, cost => by cases cost
  | arg :: args, j :: js, param :: params, p, s, h, ⟨⟨last, stands⟩, others⟩, cost => by
    obtain ⟨first, rest⟩ := Overload.isSome_argumentsCost?_cons cost
    have start_le := stands.start_le
    rw [List.map_cons, List.zipWith_cons_cons, fit_cons, ← last, Nat.add_sub_cancel]
    refine leads_bind (h.fitOne stands first) ?_
    rintro p1 s1 ⟨sound, agree, b, shown, suits⟩
    have after : Standing p1 p1.index args js := by
      rw [agree.index]
      exact others.agree agree fun i low _ => .inr (by omega)
    refine (Sound.fit sound after rest).imp ?_
    rintro p' s' ⟨sound', agree', os, shown', suit⟩
    have start : p1.startOf args = j + 1 := (agree.startOf args).trans last.symm
    rw [start] at agree'
    refine ⟨sound', (agree.mono fun i low => .inl low).trans (agree'.mono fun i low => ?_), b :: os,
      .cons (agree'.shows (Nat.lt_succ_self j) shown) shown', .cons suits suit⟩
    omega

/-! ## Taking operands -/

/-- A reading goes on by one step, which leaves alone what is below its operands. -/
structure Adds (p : Progress) (a : Atom) (q : Progress) : Prop where
  arities : q.arities = p.arities ++ [a.takes]
  last : q.done[p.index]? = some a
  kept : ∀ j ∈ (lasts p.arities).drop a.takes, q.done[j]? = p.done[j]?

/-- A call that is bound to a function. -/
def bound (a : Atom) (c : Call) (target : Signature) : Atom :=
  { a with
    kind := .call { c with candidates := [target], target := some target }
    ty := target.result }

namespace Tracks

variable {a : Atom} {args : List Operand}

theorem start : Tracks structs {} := ⟨.start, trivial⟩

/-- The operands that a step takes stand side by side, after those that are left. -/
theorem split (h : p.Tracks structs) (count : Nat) :
    Standing p (p.startOf (p.stack.take count).reverse) (p.stack.drop count).reverse
        ((lasts p.arities).drop count).reverse ∧
      Standing p p.index (p.stack.take count).reverse ((lasts p.arities).take count).reverse := by
  have length := h.standing.length_eq
  rw [List.length_reverse, List.length_reverse] at length
  have standing := h.standing
  rw [← List.take_append_drop count p.stack, ← List.take_append_drop count (lasts p.arities),
    List.reverse_append, List.reverse_append, Standing.append_iff] at standing
  · exact standing
  · simp [length]

/-- A step takes its operands, after they were narrowed or converted, and leaves a value. -/
theorem push {o : Operand} (h : p.Tracks structs)
    (taken : args = (p.stack.take a.takes).reverse) (sound : p'.Sound structs)
    (agree : p.Agree (· < p.startOf args) p') (fixed : a.isFixed = true → ∃ os,
      List.Forall₂ p'.Shows ((lasts p.arities).take a.takes).reverse os ∧ a.Accepts structs os)
    (putOff : a.kind.PutsOffOperators) (first : o.start = p.startOf args)
    (gives : a.isOperation = false → a.ty = o.ty)
    (links : ∀ i, Cell.step i ∈ o.cells → (o.start ≤ i ∧ i ≤ p.index) ∧
      (p'.push a o (p.stack.drop a.takes)).Movable i) :
    (p'.push a o (p.stack.drop a.takes)).Tracks structs ∧
      p.Adds a (p'.push a o (p.stack.drop a.takes)) := by
  subst taken
  obtain ⟨below, above⟩ := h.split a.takes
  have bounds := above.bounds
  have index := agree.index
  have last : (p'.push a o (p.stack.drop a.takes)).done[p.index]? = some a := by
    rw [← index]
    exact List.getElem?_concat_length
  refine ⟨⟨sound.push (by rwa [agree.arities]) putOff, ?_⟩, ?_, last, fun j among => ?_⟩
  · have here : o.Stands (p'.push a o (p.stack.drop a.takes)) p.index := by
      refine ⟨?_, index ▸ .last sound, ⟨a, last, gives⟩, links⟩
      rw [first]
      exact bounds.1
    have before : Standing p' (p.startOf (p.stack.take a.takes).reverse) (p.stack.drop a.takes).reverse
        ((lasts p.arities).drop a.takes).reverse :=
      below.agree agree fun i _ high => high
    have length : (p'.push a o (p.stack.drop a.takes)).index = p.index + 1 := by
      rw [← index]
      exact List.length_append
    rw [length, Progress.arities_push, lasts_concat, length_arities, agree.arities, index]
    change Standing _ _ (o :: p.stack.drop a.takes).reverse _
    rw [List.reverse_cons, List.reverse_cons, Standing.append_iff]
    · refine ⟨?_, ⟨rfl, here⟩, trivial⟩
      change Standing _ o.start _ _
      rw [first]
      refine before.push fun _ i among => ?_
      rw [agree.arities] at among
      exact (bounds.2 i among).1
    · exact before.length_eq
  · rw [Progress.arities_push, agree.arities]
  · have range := below.bounds.2 j (List.mem_reverse.mpr among)
    rw [← agree.steps j range.2]
    refine List.getElem?_append_left ?_
    rw [← Progress.index, index]
    exact Nat.lt_of_lt_of_le range.2 bounds.1

/-- A step that takes no operands. -/
theorem pushLeaf (h : p.Tracks structs) {cells : List Cell} (none : a.takes = 0)
    (soft : a.isFixed = false) (putOff : a.kind.PutsOffOperators)
    (own : ∀ i, Cell.step i ∈ cells → i = p.index) :
    (p.pushLeaf a cells).Tracks structs ∧ p.Adds a (p.pushLeaf a cells) := by
  have taken : [] = (p.stack.take a.takes).reverse := by
    rw [none]
    rfl
  have tracked := h.push (o := ⟨a.ty, if a.ty.isComplete then [] else cells, p.index⟩) taken h.sound
    (.refl _ p) (fun fixed => by rw [soft] at fixed; cases fixed) putOff rfl (fun _ => rfl)
    fun i linked => ?_
  · rw [none] at tracked
    exact tracked
  · have here : i = p.index := by
      split at linked
      next => cases linked
      next => exact own i linked
    subst here
    exact ⟨⟨Nat.le_refl _, Nat.le_refl _⟩, .last h.sound soft⟩

/-- A variable is read with the type it has at the time. -/
theorem pushVar (h : p.Tracks structs) {name : String} {binding : Option Binding}
    (kind : a.kind = .var name binding) : Leads (p.pushVar a name binding) s fun q s' =>
      q.Tracks structs ∧ ∃ b, binding = some b ∧ s' = s ∧ p.Adds { a with ty := s.bindingType b } q := by
  unfold Progress.pushVar
  split
  next => exact leads_throw
  next b =>
    have leaf (cells : List Cell) (own : ∀ i, Cell.step i ∈ cells → i = p.index) :
        (p.pushLeaf { a with ty := s.bindingType b } cells).Tracks structs ∧
          p.Adds { a with ty := s.bindingType b }
            (p.pushLeaf { a with ty := s.bindingType b } cells) :=
      h.pushLeaf (by simp only [Atom.takes, kind]) (by simp only [Atom.isFixed, kind])
        (by rw [kind]; trivial) own
    refine leads_get (leads_pure ?_)
    cases b with
    | localVar id =>
      obtain ⟨tracked, adds⟩ := leaf [.step p.index, .var id] (by simp)
      exact ⟨tracked, _, rfl, rfl, adds⟩
    | globalVar g =>
      obtain ⟨tracked, adds⟩ := leaf [.step p.index] (by simp)
      exact ⟨tracked, _, rfl, rfl, adds⟩

/-- A step whose type is known takes operands as they are. -/
theorem pushFixed (h : p.Tracks structs)
    (taken : args = (p.stack.take a.takes).reverse) (putOff : a.kind.PutsOffOperators)
    (accepts : ∀ os,
      List.Forall₂ (fun j b => p.done[j]? = some b) ((lasts p.arities).take a.takes).reverse os →
      List.Forall₂ (fun b o => b.isOperation = false → b.ty = o.ty) os args → a.Accepts structs os) :
    (p.push a ⟨a.ty, [], p.startOf args⟩ (p.stack.drop a.takes)).Tracks structs ∧
      p.Adds a (p.push a ⟨a.ty, [], p.startOf args⟩ (p.stack.drop a.takes)) := by
  have standing := (h.split a.takes).2
  rw [← taken] at standing
  obtain ⟨os, shown, types⟩ := standing.shows
  have accepted := accepts os (shown.imp fun _ _ shown => shown.2) types
  have shown' := shown.imp fun _ _ (shown : _ ∧ _) => shown.1
  exact h.push taken h.sound (.refl _ p) (fun _ => ⟨os, shown', accepted⟩) putOff rfl
    (fun _ => rfl) fun i linked => absurd linked List.not_mem_nil

/-- An operator whose overload stays open is linked to all that its operands are linked to. -/
theorem pushOpen (h : p.Tracks structs) {c : Call} {ty : Ty}
    (kind : a.kind = .call c) (untargeted : c.target = none) (putOff : a.kind.PutsOffOperators)
    (taken : args = (p.stack.take a.takes).reverse) (sound : p'.Sound structs)
    (casts : p'.casts = p.casts) (agree : p.Agree (· < p.startOf args) p') :
    (p'.pushOpen a args (p.stack.drop a.takes) ty).Tracks structs ∧
      p.Adds { a with ty } (p'.pushOpen a args (p.stack.drop a.takes) ty) := by
  have soft : Atom.isFixed { a with ty } = false := by
    simp [Atom.isFixed, kind, untargeted]
  have start := agree.startOf args
  refine h.push (a := { a with ty }) taken sound agree (fun fixed => ?_) putOff start (fun _ => rfl)
    fun i linked => ?_
  · rw [soft] at fixed
    cases fixed
  · have standing := (h.split a.takes).2
    rw [← taken] at standing
    rw [← agree.index]
    rcases List.mem_append.mp linked with linked | linked
    · obtain ⟨arg, among, linked⟩ := List.mem_flatMap.mp linked
      obtain ⟨range, movable⟩ := standing.links arg among i linked
      rw [← agree.index] at range
      refine ⟨⟨?_, Nat.le_of_lt range.2⟩, (agree.movable (fun _ => by rw [casts]) movable).push range.2
        fun fixed => ?_⟩
      · exact range.1
      · rw [soft] at fixed
        cases fixed
    · cases List.mem_singleton.mp linked
      have bounds := standing.bounds.1
      refine ⟨⟨?_, Nat.le_refl _⟩, .last sound soft⟩
      rw [agree.index]
      exact start ▸ bounds

/-- A call is bound to a function that takes its operands. -/
theorem bindCall (h : p.Tracks structs) {c : Call}
    {target : Signature} {params : List Ty} (kind : a.kind = .call c)
    (taken : args = (p.stack.take a.takes).reverse) (asked : target.typesFor? c.named = some params)
    (cost : (Overload.argumentsCost? (args.map Operand.ty) params).isSome = true) :
    Leads (p.bindCall a c args (p.stack.drop a.takes) target
      (List.zipWith Overload.castFor (args.map Operand.ty) params)) s fun q _ =>
        q.Tracks structs ∧ p.Adds (bound a c target) q := by
  have standing := (h.split a.takes).2
  rw [← taken] at standing
  unfold Progress.bindCall
  rw [asked, Option.getD_some]
  refine leads_bind (h.sound.fit standing cost) ?_
  rintro p' s' ⟨sound, agree, os, shown, suit⟩
  have takes : (bound a c target).takes = a.takes := by
    simp only [bound, Atom.takes, kind, Call.argCount]
  have start := agree.startOf args
  refine leads_pure ?_
  rw [← takes]
  refine h.push (a := bound a c target) (by rwa [takes]) sound agree (fun _ => ?_) (by rintro ⟨⟩)
    start (fun _ => rfl) fun i linked => absurd linked List.not_mem_nil
  rw [takes]
  exact ⟨os, shown, .call rfl rfl rfl asked suit⟩

/-- The value on top ends with the last step. -/
theorem top (h : p.Tracks structs) {o : Operand} {others : List Operand}
    (stack : p.stack = o :: others) :
    ∃ j js, lasts p.arities = j :: js ∧ j + 1 = p.index ∧ o.Stands p j := by
  have standing := (h.split 1).2
  rw [stack] at standing
  cases last : lasts p.arities with
  | nil =>
    rw [last] at standing
    cases standing
  | cons j js =>
    rw [last] at standing
    exact ⟨j, js, rfl, standing.1.1, standing.1.2⟩

/-- The value on top is not converted. -/
theorem shows_last (h : p.Tracks structs) {j : Nat} (last : j ∈ (lasts p.arities).head?)
    (found : p.done[j]? = some a) : p.Shows j a := by
  cases stack : p.stack with
  | nil =>
    have length := h.standing.length_eq
    rw [stack, List.reverse_nil, List.length_nil, List.length_reverse] at length
    rw [List.length_eq_zero_iff.mp length.symm] at last
    cases last
  | cons o others =>
    obtain ⟨i, js, lastSteps, -, stands⟩ := h.top stack
    rw [lastSteps] at last
    cases Option.mem_some.mp last
    exact .step found stands.unclaimed.uncast

end Tracks

/-- Making the value on top fit a type keeps a reading sound.  If the type is settled, the value has
it unless an operator gives it. -/
theorem Sound.apply (h : p.Sound structs) {o : Operand} {expected : Ty} {position : Position} {j : Nat}
    (last : j + 1 = p.index) (stands : o.Stands p j) :
    Leads (p.apply o expected position) s fun r _ => r.2.Sound structs ∧
      r.2.arities = p.arities ∧
      (r.1.isComplete = false → ∀ i, Cell.step i ∈ o.cells → r.2.Movable i) ∧
      (expected.isComplete = true → r.1.isComplete = true ∧
        ∀ s0, (∀ a, p.done[j]? = some a → a.reread s0 = a) →
          ∃ b, r.2.Shows j b ∧ b.Meets s0 expected) := by
  obtain ⟨a, found, type⟩ := stands.gives
  unfold Progress.apply
  split
  next merged common =>
    refine leads_bind (h.narrow merged fun i linked => (stands.links i linked).2) ?_
    rintro p' s' ⟨sound, casts, agree, narrowed⟩
    refine leads_pure ⟨sound, agree.arities, fun _ i linked => ?_, fun settled => ⟨?_, ?_⟩⟩
    · exact agree.movable (fun _ => by rw [casts]) (stands.links i linked).2
    · have same := Ty.same_of_merge? settled common
      rw [Ty.same_comm] at same
      exact Ty.isComplete_of_same same settled
    · intro s0 agrees
      have uncast : ∀ c, (j, c) ∉ p'.casts := by
        rw [casts]
        exact stands.unclaimed.uncast
      have unmoved : a.Meets s0 expected := fun plain complete => by
        rw [agrees a found, type plain] at complete ⊢
        exact Ty.same_of_merge?_of_isComplete complete settled common
      by_cases linked : Cell.step j ∈ o.cells
      · refine ⟨_, .step (narrowed j a linked found) uncast, ?_⟩
        by_cases named : ∃ name b, a.kind = .var name (some b)
        · obtain ⟨name, b, kind⟩ := named
          intro plain
          rw [Atom.reread_of_var (a := { a with ty := merged }) kind]
          rw [Atom.Meets, Atom.reread_of_var kind] at unmoved
          exact unmoved plain
        · intro _ _
          rw [Atom.reread_of_not_var (a := { a with ty := merged }) fun name b kind =>
            named ⟨name, b, kind⟩]
          exact Ty.same_of_merge? settled common
      · exact ⟨a, .step ((agree.steps j linked).trans found) uncast, unmoved⟩
  next =>
    split
    next cast widens =>
      obtain ⟨accepts, result⟩ := Overload.accepts_cast structs (b := a) widens type
      obtain ⟨sound, agree⟩ := h.addCast stands.unclaimed found accepts
      have index : p.index - 1 = j := by omega
      rw [index]
      refine leads_pure ⟨sound, agree.arities, fun isOpen => ?_, fun settled => ⟨settled, ?_⟩⟩
      · rw [Overload.isComplete_of_widening? widens] at isOpen
        cases isOpen
      · intro s0 _
        refine ⟨.cast cast a.span, .cast found ?_, fun _ _ => ?_⟩
        · exact List.mem_append_right _ (List.mem_singleton_self _)
        · rw [← result]
          exact Ty.same_refl cast.result
    next => exact leads_throw

end Progress

end EbLang
