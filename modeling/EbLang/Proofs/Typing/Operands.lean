import EbLang.Proofs.Passes
import EbLang.Proofs.Types
import EbLang.Proofs.Typing
import Mathlib.Data.List.GetD
import Mathlib.Data.List.Induction

/-!
# Operands of typed steps

When a call is bound to a function, its operands are narrowed to the types that the function asks
for, or converted.  Narrowing an operand narrows the steps that it is linked to: steps of its own
that no bound call takes.  So an operand that is not loose keeps the type it was given, whatever is
read after the call.

A step is known by its index.  The operands of a step are known by the indices of their last steps,
which follow from how many values each step takes.
-/

namespace EbLang

variable {ts : List Nat}
variable {s : Scopes} {arg param : Ty} {cast : Signature} {cells : List Cell}

/-! ## Indices of operands -/

/-- The last steps of the values that some steps leave, the last value first.  A step is given by
the number of values it takes. -/
def lasts (ts : List Nat) : List Nat := ts.zipIdx.foldl (fun stack e => e.2 :: stack.drop e.1) []

theorem lasts_concat (ts : List Nat) (t : Nat) :
    lasts (ts ++ [t]) = ts.length :: (lasts ts).drop t := by
  simp [lasts, List.zipIdx_append]

theorem lt_of_mem_lasts : ∀ {j : Nat}, j ∈ lasts ts → j < ts.length := by
  induction ts using List.reverseRecOn with
  | nil =>
    intro j member
    cases member
  | append_singleton ts t ih =>
    intro j member
    rw [lasts_concat] at member
    rw [List.length_append]
    rcases List.mem_cons.mp member with rfl | member
    · exact Nat.lt_succ_self _
    · exact Nat.lt_succ_of_lt (ih (List.mem_of_mem_drop member))

/-- The last steps of the operands of a step, in order. -/
def operandsAt (ts : List Nat) (k : Nat) : List Nat :=
  ((lasts (ts.take k)).take (ts.getD k 0)).reverse

theorem operandsAt_append (us : List Nat) {k : Nat} (h : k < ts.length) :
    operandsAt (ts ++ us) k = operandsAt ts k := by
  unfold operandsAt
  rw [List.take_append_of_le_length (Nat.le_of_lt h), List.getD_append _ _ _ _ h]

theorem operandsAt_length (ts : List Nat) (t : Nat) :
    operandsAt (ts ++ [t]) ts.length = ((lasts ts).take t).reverse := by
  unfold operandsAt
  rw [List.take_left, List.getD_append_right _ _ _ _ (Nat.le_refl _), Nat.sub_self]
  rfl

variable {i : Nat} {a : Atom}

theorem lt_of_mem_operandsAt {k : Nat} (h : i ∈ operandsAt ts k) : i < k := by
  have among := List.mem_of_mem_take (List.mem_reverse.mp h)
  have := lt_of_mem_lasts among
  rw [List.length_take] at this
  omega

/-! ## What a step accepts -/

/-- Whether the type of a step never changes once it is read. -/
def Atom.isFixed (a : Atom) : Bool :=
  match a.kind with
  | .call c => c.target.isSome
  | .member _ => true
  | .literal _ | .var _ _ => false

theorem Atom.isOperation_eq_false (h : a.isLoose = false) : a.isOperation = false := by
  unfold Atom.isLoose at h
  cases kind : a.kind with
  | var name binding =>
    rw [kind] at h
    cases h
  | literal | call | member => rwa [kind] at h

/-- A step as it is read again: a name has the type of its variable. -/
def Atom.reread (s : Scopes) (a : Atom) : Atom :=
  match a.kind with
  | .var _ (some b) => { a with ty := s.bindingType b }
  | _ => a

theorem Atom.reread_of_var {name : String} {b : Binding}
    (kind : a.kind = .var name (some b)) : a.reread s = { a with ty := s.bindingType b } := by
  rw [Atom.reread, kind]

theorem Atom.reread_of_not_var
    (other : ∀ name b, a.kind ≠ .var name (some b)) : a.reread s = a := by
  unfold Atom.reread
  split
  next name b kind => exact absurd kind (other name b)
  next => rfl

/-- Unless an operator gives a value, it has the type asked for when it is settled. -/
def Atom.Meets (s : Scopes) (a : Atom) (asked : Ty) : Prop :=
  a.isOperation = false → (a.reread s).ty.isComplete = true → (a.reread s).ty.same asked = true

/-- A value that is not loose, once it is settled, has the type asked for. -/
def Atom.Suits (a : Atom) (asked : Ty) : Prop :=
  a.isLoose = false → a.ty.isComplete = true → a.ty.same asked = true

/-- The functions from which a call that was put off is bound. -/
def Call.overloads (c : Call) : List Signature :=
  if c.isOperator then Builtin.operators c.name c.arity else c.candidates

def AtomKind.PutsOffOperators : AtomKind → Prop
  | .call c => c.target = none → ∀ s ∈ c.overloads, s.form = .operator
  | .literal _ | .var _ _ | .member _ => True

/-- A step may take values with the given last steps: those that are not loose have the types that
it asks for. -/
inductive Atom.Accepts (structs : StructTable) (operands : List Atom) (a : Atom) : Prop
  | leaf : a.isFixed = false → a.kind.PutsOffOperators → Accepts structs operands a
  | member {m : MemberRef} {base : Atom} : a.kind = .member m → operands = [base] →
      (base.isLoose = false → m.index.bind (structs.memberAt? base.ty) = some a.ty) →
      Accepts structs operands a
  | call {c : Call} {target : Signature} {asked : List Ty} : a.kind = .call c →
      c.target = some target → a.ty = target.result → target.typesFor? c.named = some asked →
      List.Forall₂ Atom.Suits operands asked → Accepts structs operands a

/-- The last steps of the values that some steps leave on a stack. -/
def lastAtoms (stack as : List Atom) : List Atom := as.foldl (fun st a => a :: st.drop a.takes) stack

/-- Every step accepts the operands that it finds. -/
def AllAccept (structs : StructTable) : List Atom → List Atom → Prop
  | _, [] => True
  | stack, a :: as => a.Accepts structs (stack.take a.takes).reverse ∧
      AllAccept structs (a :: stack.drop a.takes) as

theorem allAccept_append {structs : StructTable} {as bs : List Atom} :
    ∀ {stack : List Atom}, AllAccept structs stack (as ++ bs) ↔
      AllAccept structs stack as ∧ AllAccept structs (lastAtoms stack as) bs := by
  induction as with
  | nil =>
    intro stack
    exact ⟨fun h => ⟨trivial, h⟩, fun h => h.2⟩
  | cons a as ih =>
    intro stack
    rw [List.cons_append, AllAccept, ih, ← and_assoc]
    rfl

theorem lastAtoms_append (stack as bs : List Atom) :
    lastAtoms stack (as ++ bs) = lastAtoms (lastAtoms stack as) bs := by
  unfold lastAtoms
  rw [List.foldl_append]

/-- The value on top ends with the last step. -/
theorem head?_lastAtoms (as : List Atom) : (lastAtoms [] as).head? = as.getLast? := by
  induction as using List.reverseRecOn with
  | nil => rfl
  | append_singleton as a _ =>
    rw [lastAtoms_append, List.getLast?_append]
    rfl

/-- A conversion between primitives takes one value, of the first. -/
theorem Overload.accepts_cast (structs : StructTable) {b : Atom}
    (h : widening? arg param = some cast) (type : b.isOperation = false → b.ty = arg) :
    (Atom.cast cast b.span).Accepts structs [b] ∧ cast.result = param := by
  simp only [widening?, Builtin.cast?, Option.bind_eq_bind, Option.bind_eq_some_iff] at h
  obtain ⟨source, from?, target, to?, h⟩ := h
  split at h
  next =>
    cases h
    rw [Ty.eq_ofPrim_of_prim? from?] at type
    rw [Ty.eq_ofPrim_of_prim? to?]
    refine ⟨.call rfl rfl rfl rfl (.cons (fun tight _ => ?_) .nil), rfl⟩
    rw [type (Atom.isOperation_eq_false tight)]
    exact Ty.same_refl _
  next => cases h

theorem Overload.isComplete_of_widening?
    (h : widening? arg param = some cast) : param.isComplete = true := by
  simp only [widening?, Option.bind_eq_bind, Option.bind_eq_some_iff] at h
  obtain ⟨_, -, target, to?, -⟩ := h
  rw [Ty.eq_ofPrim_of_prim? to?]
  exact Ty.isComplete_ofPrim target

/-! ## Narrowing -/

section MapTypes

variable {α : Type} {f : Atom → α}

theorem map_modify_ty (same : ∀ (a : Atom) (ty : Ty), f { a with ty } = f a) (steps : List Atom)
    (index : Nat) (ty : Ty) : (steps.modify index fun a => { a with ty }).map f = steps.map f := by
  induction steps generalizing index with
  | nil => simp
  | cons a steps ih =>
    cases index with
    | zero => simp [same]
    | succ index => simp [ih]

/-- Narrowing changes the types of steps only. -/
theorem map_narrowCells (same : ∀ (a : Atom) (ty : Ty), f { a with ty } = f a) (cells : List Cell)
    (ty : Ty) : ∀ (steps : List Atom) (scopes : Scopes),
      (narrowCells cells ty steps scopes).1.map f = steps.map f := by
  unfold narrowCells
  induction cells with
  | nil =>
    intro steps scopes
    rfl
  | cons cell cells ih =>
    intro steps scopes
    rw [List.foldl_cons, ih]
    cases cell with
    | step index => exact map_modify_ty same steps index ty
    | var id => rfl

end MapTypes

theorem map_kind_narrowCells (cells : List Cell) (ty : Ty) (steps : List Atom) (scopes : Scopes) :
    (narrowCells cells ty steps scopes).1.map Atom.kind = steps.map Atom.kind :=
  map_narrowCells (fun _ _ => rfl) cells ty steps scopes

/-- The height of a sequence does not depend on the types of its steps. -/
theorem map_takes_of_kind {as bs : List Atom} (h : as.map Atom.kind = bs.map Atom.kind) :
    as.map Atom.takes = bs.map Atom.takes := by
  have takes : Atom.takes = (fun kind => Atom.takes ⟨kind, .void, default⟩) ∘ Atom.kind := rfl
  rw [takes, ← List.map_map, ← List.map_map, h]

variable (ty : Ty)

theorem getElem?_narrowCells_of_not_mem
    (free : Cell.step i ∉ cells) : ∀ (steps : List Atom) (scopes : Scopes),
      (narrowCells cells ty steps scopes).1[i]? = steps[i]? := by
  induction cells with
  | nil =>
    intro steps scopes
    rfl
  | cons cell cells ih =>
    intro steps scopes
    obtain ⟨first, others⟩ := not_or.mp (mt List.mem_cons.mpr free)
    cases cell with
    | var id => exact ih others steps (scopes.setType id ty)
    | step index =>
      refine (ih others (steps.modify index fun a => { a with ty }) scopes).trans ?_
      have other : index ≠ i := fun same => first (same ▸ rfl)
      simp [other]

/-- A step that is linked takes the type. -/
theorem getElem?_narrowCells_of_mem
    (linked : Cell.step i ∈ cells) : ∀ {steps : List Atom} {a : Atom}, steps[i]? = some a →
      ∀ scopes, (narrowCells cells ty steps scopes).1[i]? = some { a with ty } := by
  induction cells with
  | nil => cases linked
  | cons cell cells ih =>
    intro steps a found scopes
    cases cell with
    | var id =>
      have linked : Cell.step i ∈ cells := by simpa using linked
      exact ih linked found (scopes.setType id ty)
    | step index =>
      by_cases here : index = i
      · have set : (steps.modify index fun a => { a with ty })[i]? = some { a with ty } := by
          simp [here, found]
        by_cases again : Cell.step i ∈ cells
        · exact ih again set scopes
        · exact (getElem?_narrowCells_of_not_mem ty again _ scopes).trans set
      · have linked : Cell.step i ∈ cells := by
          rcases List.mem_cons.mp linked with eq | linked
          · cases eq
            exact absurd rfl here
          · exact linked
        have same : (steps.modify index fun a => { a with ty })[i]? = some a := by
          simp [here, found]
        exact ih linked same scopes

/-! ## Readings -/

namespace Progress

variable {a b : Atom} {o : Operand} {p : Progress} {rest : List Operand}

/-- How many values each step takes. -/
def arities (p : Progress) : List Nat := p.done.map Atom.takes

/-- The step that gives the value that ends with a step: the conversion after it, or itself. -/
inductive Shows (p : Progress) (j : Nat) : Atom → Prop
  | cast {b : Atom} {c : Signature} : p.done[j]? = some b → (j, c) ∈ p.casts →
      Shows p j (.cast c b.span)
  | step {b : Atom} : p.done[j]? = some b → (∀ c, (j, c) ∉ p.casts) → Shows p j b

/-- No call that is bound takes the value that ends with a step, and it is not converted. -/
structure Unclaimed (p : Progress) (i : Nat) : Prop where
  untaken : ∀ k a, p.done[k]? = some a → a.isFixed = true → i ∉ operandsAt p.arities k
  uncast : ∀ c, (i, c) ∉ p.casts

/-- A step whose type may be narrowed. -/
structure Movable (p : Progress) (i : Nat) : Prop where
  unclaimed : p.Unclaimed i
  soft : ∀ a, p.done[i]? = some a → a.isFixed = false

/-- Two readings have come as far, with the same types and conversions at some steps. -/
structure Agree (S : Nat → Prop) (p p' : Progress) : Prop where
  kinds : p'.done.map Atom.kind = p.done.map Atom.kind
  stack : p'.stack = p.stack
  steps : ∀ i, S i → p'.done[i]? = p.done[i]?
  casts : ∀ i, S i → ∀ c, (i, c) ∈ p'.casts ↔ (i, c) ∈ p.casts

namespace Agree

variable {S S' : Nat → Prop} {p p' p'' : Progress}

theorem refl (S : Nat → Prop) (p : Progress) : Agree S p p :=
  ⟨rfl, rfl, fun _ _ => rfl, fun _ _ _ => Iff.rfl⟩

theorem trans (h : Agree S p p') (h' : Agree S p' p'') : Agree S p p'' where
  kinds := h'.kinds.trans h.kinds
  stack := h'.stack.trans h.stack
  steps i member := (h'.steps i member).trans (h.steps i member)
  casts i member c := (h'.casts i member c).trans (h.casts i member c)

theorem mono (h : Agree S p p') (less : ∀ i, S' i → S i) : Agree S' p p' where
  kinds := h.kinds
  stack := h.stack
  steps i member := h.steps i (less i member)
  casts i member := h.casts i (less i member)

theorem arities (h : Agree S p p') : p'.arities = p.arities := map_takes_of_kind h.kinds

theorem index (h : Agree S p p') : p'.index = p.index := by
  have := congrArg List.length h.kinds
  rwa [List.length_map, List.length_map] at this

theorem startOf (h : Agree S p p') (args : List Operand) : p'.startOf args = p.startOf args := by
  rw [Progress.startOf, h.index]
  rfl

/-- A step is of the same kind, whatever its type. -/
theorem isFixed (h : Agree S p p') {k : Nat} {a' : Atom} (found : p.done[k]? = some a)
    (found' : p'.done[k]? = some a') : a'.isFixed = a.isFixed := by
  have kinds : (p'.done.map Atom.kind)[k]? = (p.done.map Atom.kind)[k]? := by rw [h.kinds]
  rw [List.getElem?_map, List.getElem?_map, found, found'] at kinds
  unfold Atom.isFixed
  rw [Option.some.inj kinds]

theorem exists_of_getElem? (h : Agree S p p') {k : Nat} {a' : Atom}
    (found' : p'.done[k]? = some a') : ∃ a, p.done[k]? = some a ∧ a'.isFixed = a.isFixed := by
  have lt := (List.getElem?_eq_some_iff.mp found').1
  have length : p'.done.length = p.done.length := h.index
  rw [length] at lt
  exact ⟨_, List.getElem?_eq_getElem lt, h.isFixed (List.getElem?_eq_getElem lt) found'⟩

theorem shows (h : Agree S p p') {j : Nat} (member : S j) (shown : p.Shows j b) : p'.Shows j b := by
  cases shown with
  | cast found cast =>
    rw [← h.steps j member] at found
    exact .cast found ((h.casts j member _).mpr cast)
  | step found uncast =>
    rw [← h.steps j member] at found
    exact .step found fun c cast => uncast c ((h.casts j member c).mp cast)

theorem unclaimed (h : Agree S p p') {i : Nat}
    (casts : ∀ c, (i, c) ∈ p'.casts ↔ (i, c) ∈ p.casts) (free : p.Unclaimed i) :
    p'.Unclaimed i where
  untaken k a' found' fixed := by
    obtain ⟨a, found, same⟩ := h.exists_of_getElem? found'
    rw [h.arities]
    exact free.untaken k a found (same ▸ fixed)
  uncast c cast := free.uncast c ((casts c).mp cast)

/-- Whether a step may be narrowed does not depend on types. -/
theorem movable (h : Agree S p p') {i : Nat}
    (casts : ∀ c, (i, c) ∈ p'.casts ↔ (i, c) ∈ p.casts) (free : p.Movable i) : p'.Movable i where
  unclaimed := h.unclaimed casts free.unclaimed
  soft a' found' := by
    obtain ⟨a, found, same⟩ := h.exists_of_getElem? found'
    rw [same]
    exact free.soft a found

end Agree

/-- Every step so far that will not change accepts its operands, and so does every conversion. -/
structure Sound (structs : StructTable) (p : Progress) : Prop where
  fixed : ∀ k a, p.done[k]? = some a → a.isFixed = true →
    ∃ os, List.Forall₂ p.Shows (operandsAt p.arities k) os ∧ a.Accepts structs os
  putOff : ∀ kind ∈ p.done.map Atom.kind, kind.PutsOffOperators
  casts : ∀ e ∈ p.casts, ∃ b, p.done[e.1]? = some b ∧ (Atom.cast e.2 b.span).Accepts structs [b]
  once : (p.casts.map Prod.fst).Nodup

variable {k : Nat}

theorem getElem?_push (found : (p.push a o rest).done[k]? = some b) :
    p.done[k]? = some b ∨ k = p.index ∧ b = a := by
  change (p.done ++ [a])[k]? = some b at found
  by_cases lt : k < p.done.length
  · rw [List.getElem?_append_left lt] at found
    exact .inl found
  · rw [List.getElem?_append_right (Nat.le_of_not_lt lt)] at found
    obtain ⟨inside, eq⟩ := List.getElem?_eq_some_iff.mp found
    have zero : k - p.done.length = 0 := Nat.lt_one_iff.mp inside
    refine .inr ⟨?_, ?_⟩
    · rw [index]
      omega
    · rw [← eq]
      simp [zero]

theorem getElem?_push_of_done
    (found : p.done[k]? = some b) : (p.push a o rest).done[k]? = some b := by
  have lt := (List.getElem?_eq_some_iff.mp found).1
  exact (List.getElem?_append_left lt).trans found

theorem arities_push (p : Progress) (a : Atom) (o : Operand) (rest : List Operand) :
    (p.push a o rest).arities = p.arities ++ [a.takes] := by
  simp [arities, push]

theorem length_arities (p : Progress) : p.arities.length = p.index := by
  simp [arities, index]

theorem Shows.push {j : Nat} (h : p.Shows j b) : (p.push a o rest).Shows j b := by
  cases h with
  | cast found cast => exact .cast (getElem?_push_of_done found) cast
  | step found uncast => exact .step (getElem?_push_of_done found) uncast

theorem operandsAt_push (found : p.done[k]? = some b) :
    operandsAt (p.push a o rest).arities k = operandsAt p.arities k := by
  have lt := (List.getElem?_eq_some_iff.mp found).1
  rw [arities_push, operandsAt_append]
  rwa [length_arities]

theorem operandsAt_push_index (p : Progress) (a : Atom) (o : Operand) (rest : List Operand) :
    operandsAt (p.push a o rest).arities p.index = ((lasts p.arities).take a.takes).reverse := by
  rw [arities_push, ← length_arities, operandsAt_length]

namespace Unclaimed

variable {p : Progress} {i : Nat} {a : Atom} {o : Operand} {rest : List Operand}

theorem push (h : p.Unclaimed i)
    (apart : a.isFixed = true → i ∉ ((lasts p.arities).take a.takes).reverse) :
    (p.push a o rest).Unclaimed i where
  untaken k b found fixed := by
    rcases getElem?_push found with found | ⟨rfl, rfl⟩
    · rw [operandsAt_push found]
      exact h.untaken k b found fixed
    · rw [operandsAt_push_index]
      exact apart fixed
  uncast := h.uncast

/-- Nothing claims the value of the last step. -/
theorem last {structs : StructTable} (sound : p.Sound structs) :
    (p.push a o rest).Unclaimed p.index where
  untaken k b found _ among := by
    have lt := (List.getElem?_eq_some_iff.mp found).1
    have := lt_of_mem_operandsAt among
    have length : (p.push a o rest).done.length = p.index + 1 := List.length_append
    omega
  uncast c cast := by
    obtain ⟨b, found, -⟩ := sound.casts (p.index, c) cast
    exact absurd (List.getElem?_eq_some_iff.mp found).1 (Nat.lt_irrefl p.index)

end Unclaimed

theorem Movable.push {i : Nat}
    (h : p.Movable i) (lt : i < p.index)
    (apart : a.isFixed = true → i ∉ ((lasts p.arities).take a.takes).reverse) :
    (p.push a o rest).Movable i where
  unclaimed := h.unclaimed.push apart
  soft b found := by
    rcases getElem?_push found with found | ⟨rfl, -⟩
    · exact h.soft b found
    · exact absurd lt (Nat.lt_irrefl _)

theorem Movable.last {structs : StructTable}
    (sound : p.Sound structs) (soft : a.isFixed = false) :
    (p.push a o rest).Movable p.index where
  unclaimed := .last sound
  soft b found := by
    rcases getElem?_push found with found | ⟨-, rfl⟩
    · exact absurd (List.getElem?_eq_some_iff.mp found).1 (Nat.lt_irrefl p.index)
    · exact soft

namespace Sound

variable {structs : StructTable} {S : Nat → Prop} {p p' : Progress}

theorem start : Sound structs {} where
  fixed k a found := by simp at found
  putOff := List.forall_mem_nil _
  casts := List.forall_mem_nil _
  once := List.nodup_nil

/-- The types of steps that may be narrowed may change. -/
theorem agree (h : p.Sound structs) (agree : Agree S p p') (casts : p'.casts = p.casts)
    (movable : ∀ i, ¬ S i → p.Movable i) : p'.Sound structs where
  fixed k a' found' fixed' := by
    obtain ⟨a, found, same⟩ := agree.exists_of_getElem? found'
    rw [same] at fixed'
    have kept : S k := by
      by_contra moved
      rw [(movable k moved).soft a found] at fixed'
      cases fixed'
    cases found'.symm.trans ((agree.steps k kept).trans found)
    obtain ⟨os, shown, accepts⟩ := h.fixed k a' found fixed'
    rw [agree.arities]
    refine ⟨os, forall₂_imp_of_mem shown fun j among b => agree.shows ?_, accepts⟩
    by_contra moved
    exact (movable j moved).unclaimed.untaken k a' found fixed' among
  putOff := by
    rw [agree.kinds]
    exact h.putOff
  casts := by
    rw [casts]
    intro e member
    obtain ⟨b, found, accepts⟩ := h.casts e member
    refine ⟨b, (agree.steps e.1 ?_).trans found, accepts⟩
    by_contra moved
    exact (movable e.1 moved).unclaimed.uncast e.2 member
  once := by
    rw [casts]
    exact h.once

theorem addCast (h : p.Sound structs) {j : Nat} {c : Signature} (free : p.Unclaimed j)
    (found : p.done[j]? = some b) (accepts : (Atom.cast c b.span).Accepts structs [b]) :
    (p.addCast j c).Sound structs ∧ Agree (· ≠ j) p (p.addCast j c) := by
  have agree : Agree (· ≠ j) p (p.addCast j c) := by
    refine ⟨rfl, rfl, fun _ _ => rfl, fun i other d => ?_⟩
    simp [Progress.addCast, other]
  refine ⟨⟨fun k a here fixed => ?_, h.putOff, ?_, ?_⟩, agree⟩
  · obtain ⟨os, shown, accepts⟩ := h.fixed k a here fixed
    refine ⟨os, forall₂_imp_of_mem shown fun i among b => agree.shows ?_, accepts⟩
    rintro rfl
    exact free.untaken k a here fixed among
  · exact List.forall_mem_append.mpr ⟨h.casts, List.forall_mem_singleton.mpr ⟨b, found, accepts⟩⟩
  · rw [Progress.addCast, List.map_append, List.nodup_append']
    refine ⟨h.once, List.nodup_singleton _, ?_⟩
    rw [List.map_singleton, List.disjoint_singleton]
    intro member
    obtain ⟨⟨i, d⟩, among, rfl⟩ := List.mem_map.mp member
    exact free.uncast d among

theorem push (h : p.Sound structs)
    (fixed : a.isFixed = true → ∃ os,
      List.Forall₂ p.Shows ((lasts p.arities).take a.takes).reverse os ∧ a.Accepts structs os)
    (putOff : a.kind.PutsOffOperators) : (p.push a o rest).Sound structs where
  fixed k b found isFixed := by
    rcases getElem?_push found with found | ⟨rfl, rfl⟩
    · obtain ⟨os, shown, accepts⟩ := h.fixed k b found isFixed
      rw [operandsAt_push found]
      exact ⟨os, shown.imp fun _ _ shown => shown.push, accepts⟩
    · obtain ⟨os, shown, accepts⟩ := fixed isFixed
      rw [operandsAt_push_index]
      exact ⟨os, shown.imp fun _ _ shown => shown.push, accepts⟩
  putOff := by
    rw [Progress.push, List.map_append]
    exact List.forall_mem_append.mpr ⟨h.putOff, List.forall_mem_singleton.mpr putOff⟩
  casts e member := by
    obtain ⟨b, found, accepts⟩ := h.casts e member
    exact ⟨b, getElem?_push_of_done found, accepts⟩
  once := h.once

end Sound

end Progress

end EbLang
