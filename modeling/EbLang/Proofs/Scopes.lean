import EbLang.Analysis

/-!
# Scopes and walks through them

What the operations on scopes do to the names in view.

*Declaring.*  In a walk that enters every block for the first time the last declaration of a name is
the one in view (`IsCurrent`).  Then declaring a variable hands out the next number, and the name
stands for it (`Declared`).

*Walking.*  A walk through blocks inside a place leaves the names in view there alone: it comes back
to where it started, adds variables and scopes, and only enters blocks whose numbers are known
beforehand (`Visits`).  What kind of block a scope is of never changes.
-/

namespace EbLang

namespace Scopes

variable {s s' : Scopes}
variable {scope : Scope} {v : Variable} {b : Nat} {isLoop : Bool}

/-! ## Looking up -/

theorem lookup_cons_ne {α β : Type} [BEq α] [LawfulBEq α] {q k : α} {v : β}
    {entries : List (α × β)} (h : q ≠ k) : ((k, v) :: entries).lookup q = entries.lookup q := by
  rw [List.lookup_cons, beq_false_of_ne h]

theorem lookup_mapValue {α β : Type} [DecidableEq α] [BEq α] [LawfulBEq α] (key : α) (value : β)
    (q : α) :
    ∀ entries : List (α × β),
      (entries.map fun e => if e.1 == key then (key, value) else e).lookup q =
        if q = key then (entries.lookup q).map fun _ => value else entries.lookup q
  | [] => by simp
  | (k, v) :: entries => by
    have ih := lookup_mapValue key value q entries
    rw [List.map_cons]
    by_cases hq : q = k
    · subst hq
      by_cases hk : q = key
      · subst hk
        simp
      · simp [beq_false_of_ne hk, hk]
    · rw [lookup_cons_ne hq, ← ih]
      by_cases hk : k = key
      · subst hk
        simp [lookup_cons_ne hq]
      · simp [beq_false_of_ne hk, lookup_cons_ne hq]

theorem scope?_setScope (s : Scopes) (path : ScopePath) (scope : Scope) (q : ScopePath) :
    (s.setScope path scope).scope? q =
      if q = path then (s.scope? q).map fun _ => scope else s.scope? q :=
  lookup_mapValue path scope q s.scopes

theorem lookup_setSlot (scope : Scope) (name : String) (slot : Slot) (q : String) :
    (scope.setSlot name slot).names.lookup q =
      if q = name then some slot else scope.names.lookup q := by
  unfold Scope.setSlot
  split
  next known =>
    rw [lookup_mapValue]
    split
    next eq =>
      subst eq
      obtain ⟨e, he, eq⟩ := List.any_eq_true.mp known
      cases hl : scope.names.lookup q with
      | some _ => rfl
      | none =>
        have absent := List.lookup_eq_none_iff.mp hl e he
        exact absurd (beq_iff_eq.mp eq).symm (bne_iff_ne.mp absent)
    next => rfl
  next unknown =>
    rw [List.lookup_append]
    by_cases hq : q = name
    · subst hq
      have absent : scope.names.lookup q = none := by
        refine List.lookup_eq_none_iff.mpr fun e he => bne_iff_ne.mpr fun eq => ?_
        exact unknown (List.any_eq_true.mpr ⟨e, he, beq_iff_eq.mpr eq.symm⟩)
      simp [absent]
    · rw [lookup_cons_ne hq, if_neg hq]
      simp

/-- The variable in view of a slot. -/
def Slot.shown? (slot : Slot) : Option Nat := slot.version.bind (slot.vars[·]?)

theorem inView?_of_scope {path : ScopePath} (known : s.scope? path = some scope)
    (name : String) : s.inView? path name = Slot.shown? (scope.slot name) := by
  unfold inView? Scope.slot Slot.shown?
  simp only [known, Option.bind_eq_bind, Option.bind_some]
  cases scope.names.lookup name with
  | none => rfl
  | some slot => rfl

/-- Names are looked up in the scopes around a place only. -/
theorem lookupFrom_congr {k : Nat} (h : ∀ q : ScopePath, q.length < k → s'.scope? q = s.scope? q)
    (name : String) :
    ∀ {path : ScopePath}, path.length < k → s'.lookupFrom name path = s.lookupFrom name path
  | [], _ => rfl
  | b :: path, short => by
    have tail : s'.lookupFrom name path = s.lookupFrom name path :=
      lookupFrom_congr h name (Nat.lt_of_succ_lt short)
    simp only [lookupFrom, inView?, h _ short, tail]

/-! ## Declaring -/

/-- In every scope the last declaration of a name is the one in view. -/
def IsCurrent (s : Scopes) : Prop :=
  ∀ path scope, s.scope? path = some scope → ∀ name,
    nextVersion (scope.slot name) = (scope.slot name).vars.length

/-- The slot of a name after one more declaration. -/
def Slot.extended (slot : Slot) (id : Nat) : Slot := ⟨some slot.vars.length, slot.vars ++ [id]⟩

/-- A variable has been declared in the scope of the current block. -/
structure Declared (s : Scopes) (scope : Scope) (v : Variable) (s' : Scopes) : Prop where
  vars : s'.vars = s.vars ++ [v]
  current : s'.current = s.current
  here : ∃ scope', s'.scope? s.current = some scope' ∧ scope'.isLoop = scope.isLoop ∧
    ∀ name, scope'.slot name =
      if name = v.name then Slot.extended (scope.slot v.name) s.vars.length else scope.slot name
  others : ∀ q, q ≠ s.current → s'.scope? q = s.scope? q

theorem slot_setSlot (scope : Scope) (name : String) (slot : Slot) (q : String) :
    (scope.setSlot name slot).slot q = if q = name then slot else scope.slot q := by
  unfold Scope.slot
  rw [lookup_setSlot]
  split <;> rfl

theorem isLoop_setSlot (scope : Scope) (name : String) (slot : Slot) :
    (scope.setSlot name slot).isLoop = scope.isLoop := by
  unfold Scope.setSlot
  split <;> rfl

/-- A variable that is no parameter, or whose name is new to the block, gets the next number. -/
theorem declare_new (h : s.IsCurrent) (known : s.scope? s.current = some scope)
    (new : v.isParam = false ∨ (scope.slot v.name).vars = []) :
    (s.declare v).1 = s.vars.length ∧ Declared s scope v (s.declare v).2 := by
  have version := h s.current scope known v.name
  have eq : s.declare v = (s.vars.length,
      { s.setScope s.current
          (scope.setSlot v.name (Slot.extended (scope.slot v.name) s.vars.length)) with
        vars := s.vars ++ [v] }) := by
    unfold declare
    simp only [known]
    split
    next param found =>
      rcases new with new | new
      · simp [new] at param
      · simp [new] at found
    next =>
      rw [version, List.getElem?_eq_none (Nat.le_refl _)]
      rfl
  rw [eq]
  refine ⟨rfl, rfl, rfl, ⟨_, ?_, isLoop_setSlot .., slot_setSlot scope v.name _⟩, fun q hq => ?_⟩
  · refine (scope?_setScope s s.current _ s.current).trans ?_
    rw [if_pos rfl, known]
    rfl
  · refine (scope?_setScope s s.current _ q).trans ?_
    rw [if_neg hq]

/-- A parameter whose name the block has already is the variable there is. -/
theorem declare_again {id : Nat} (param : v.isParam = true)
    (known : s.scope? s.current = some scope) (slot : scope.slot v.name = ⟨some 0, [id]⟩) :
    s.declare v = (id, s) := by
  unfold declare
  simp only [known, slot, param]
  rfl

namespace Declared

variable {scope : Scope} {v : Variable}

theorem isCurrent (d : Declared s scope v s') (h : s.IsCurrent)
    (known : s.scope? s.current = some scope) : s'.IsCurrent := by
  intro path scope' found name
  obtain ⟨here, at_current, -, slots⟩ := d.here
  by_cases hp : path = s.current
  · rw [hp, at_current] at found
    cases found
    rw [slots]
    split
    next => simp [Slot.extended, nextVersion]
    next => exact h s.current scope known name
  · rw [d.others path hp] at found
    exact h path scope' found name

/-- The name declared stands for the new variable, and other names for what they stood for. -/
theorem lookup (d : Declared s scope v s') (known : s.scope? s.current = some scope)
    (inside : s.current ≠ []) (name : String) :
    s'.lookup name = if name = v.name then some s.vars.length else s.lookup name := by
  obtain ⟨here, at_current, -, slots⟩ := d.here
  unfold Scopes.lookup
  rw [d.current]
  cases hc : s.current with
  | nil => exact absurd hc inside
  | cons b path =>
    rw [hc] at at_current known
    have tail : s'.lookupFrom name path = s.lookupFrom name path := by
      refine lookupFrom_congr (k := path.length + 1) (fun q short => d.others q ?_) name
        (Nat.lt_succ_self _)
      rintro rfl
      rw [hc, List.length_cons] at short
      omega
    simp only [lookupFrom, inView?_of_scope at_current, inView?_of_scope known, slots, tail]
    by_cases hn : name = v.name
    · simp [hn, Slot.extended, Slot.shown?]
    · simp only [if_neg hn]

end Declared

/-! ## Entering blocks for the first time -/

theorem enter_of_fresh (fresh : s.scope? (b :: s.current) = none) :
    s.enter b isLoop =
      { s with
        scopes := s.scopes ++ [(b :: s.current, ⟨isLoop, []⟩)]
        current := b :: s.current } := by
  simp only [enter, fresh]

theorem scope?_enter (fresh : s.scope? (b :: s.current) = none) (q : ScopePath) :
    (s.enter b isLoop).scope? q = if q = b :: s.current then some ⟨isLoop, []⟩ else s.scope? q := by
  rw [enter_of_fresh fresh]
  change (s.scopes ++ [_]).lookup q = _
  rw [List.lookup_append]
  by_cases hq : q = b :: s.current
  · subst hq
    change (s.scope? _).or _ = _
    rw [fresh]
    simp
  · rw [lookup_cons_ne hq, if_neg hq]
    simp [scope?]

theorem vars_enter (s : Scopes) (b : Nat) (isLoop : Bool) : (s.enter b isLoop).vars = s.vars := by
  unfold enter
  dsimp only
  split <;> rfl

theorem current_enter (s : Scopes) (b : Nat) (isLoop : Bool) :
    (s.enter b isLoop).current = b :: s.current := by
  unfold enter
  dsimp only
  split <;> rfl

theorem scope?_enter_outer (fresh : s.scope? (b :: s.current) = none)
    {q : ScopePath} (short : q.length < s.current.length + 1) :
    (s.enter b isLoop).scope? q = s.scope? q := by
  rw [scope?_enter fresh, if_neg]
  rintro rfl
  simp at short

/-- A block that is entered for the first time has the names in view of the place around it. -/
theorem lookup_enter (fresh : s.scope? (b :: s.current) = none)
    (name : String) : (s.enter b isLoop).lookup name = s.lookup name := by
  unfold Scopes.lookup
  rw [current_enter]
  have here : (s.enter b isLoop).scope? (b :: s.current) = some ⟨isLoop, []⟩ := by
    rw [scope?_enter fresh, if_pos rfl]
  have outer : (s.enter b isLoop).lookupFrom name s.current = s.lookupFrom name s.current :=
    lookupFrom_congr (fun q => scope?_enter_outer fresh) name (Nat.lt_succ_self s.current.length)
  rw [lookupFrom, inView?_of_scope here, outer]
  rfl

theorem IsCurrent.enter (h : s.IsCurrent)
    (fresh : s.scope? (b :: s.current) = none) : (s.enter b isLoop).IsCurrent := by
  intro path scope found name
  rw [scope?_enter fresh] at found
  split at found
  next =>
    cases found
    rfl
  next => exact h path scope found name

/-! ## Walks through blocks -/

/-- What kind of block the scope at a path is of, none if there is no scope. -/
def marker? (s : Scopes) (path : ScopePath) : Option Bool := (s.scope? path).map Scope.isLoop

/-- Every scope there is stays a scope of the same kind. -/
def Keeps (s s' : Scopes) : Prop := ∀ q isLoop, s.marker? q = some isLoop → s'.marker? q = some isLoop

theorem keeps_leave (s : Scopes) : s.Keeps s.leave := fun _ _ found => found

/-- What a walk does to the scopes: it comes back to where it started, variables and scopes are only
added, scopes further out than `k` are left alone, and blocks are entered only if their numbers are
listed. -/
structure Visits (k : Nat) (numbers : List Nat) (s s' : Scopes) : Prop where
  current : s'.current = s.current
  vars : s.vars <+: s'.vars
  keeps : s.Keeps s'
  outer : ∀ q, q.length < k → s'.scope? q = s.scope? q
  fresh : ∀ b, b ∉ numbers → (∀ q, s.scope? (b :: q) = none) → ∀ q, s'.scope? (b :: q) = none

namespace Visits

variable {k k' : Nat} {ns ns' : List Nat} {s1 s2 : Scopes}

protected theorem refl (k : Nat) (ns : List Nat) (s : Scopes) : Visits k ns s s :=
  ⟨rfl, List.prefix_rfl, fun _ _ h => h, fun _ _ => rfl, fun _ _ h => h⟩

protected theorem trans (h1 : Visits k ns s s1) (h2 : Visits k ns' s1 s2) :
    Visits k (ns ++ ns') s s2 where
  current := h2.current.trans h1.current
  vars := h1.vars.trans h2.vars
  keeps q isLoop h := h2.keeps q isLoop (h1.keeps q isLoop h)
  outer q hq := (h2.outer q hq).trans (h1.outer q hq)
  fresh b hb none := by
    rw [List.mem_append, not_or] at hb
    exact h2.fresh b hb.2 (h1.fresh b hb.1 none)

theorem mono (h : Visits k ns s s') (le : k' ≤ k) : Visits k' ns s s' :=
  ⟨h.current, h.vars, h.keeps, fun q hq => h.outer q (Nat.lt_of_lt_of_le hq le), h.fresh⟩

/-- The names in view where a walk started and ends. -/
theorem lookup (h : Visits k ns s s') (deep : s.current.length < k) (name : String) :
    s'.lookup name = s.lookup name := by
  unfold Scopes.lookup
  rw [h.current]
  exact lookupFrom_congr h.outer name deep

end Visits

theorem Declared.visits (d : Declared s scope v s')
    (known : s.scope? s.current = some scope) : Visits s.current.length [] s s' where
  current := d.current
  vars := ⟨[v], d.vars.symm⟩
  keeps q isLoop found := by
    obtain ⟨here, at_current, loop, -⟩ := d.here
    by_cases hq : q = s.current
    · subst hq
      rw [marker?, known] at found
      rw [marker?, at_current, Option.map_some, loop]
      exact found
    · rw [marker?, d.others q hq]
      exact found
  outer q short := d.others q (by rintro rfl; exact Nat.lt_irrefl _ short)
  fresh b _ none q := by
    refine (d.others (b :: q) ?_).trans (none q)
    intro eq
    have := none q
    rw [eq, known] at this
    cases this

/-- None of the blocks of the given numbers has been entered. -/
def AllFresh (s : Scopes) (numbers : List Nat) : Prop := ∀ b ∈ numbers, ∀ q, s.scope? (b :: q) = none

namespace AllFresh

variable {k b : Nat} {isLoop : Bool} {ns numbers : List Nat}

/-- A walk through some blocks enters no others. -/
theorem visits (fresh : s.AllFresh numbers) (h : Visits k ns s s')
    (disjoint : ∀ b ∈ numbers, b ∉ ns) : s'.AllFresh numbers :=
  fun b hb => h.fresh b (disjoint b hb) (fresh b hb)

theorem enter (h : s.AllFresh (b :: numbers)) (nodup : (b :: numbers).Nodup) :
    (s.enter b isLoop).AllFresh numbers := by
  have fresh := h b List.mem_cons_self s.current
  intro b' hb' q
  rw [scope?_enter fresh, if_neg]
  · exact h b' (List.mem_cons_of_mem _ hb') q
  · rintro ⟨⟩
    exact (List.nodup_cons.mp nodup).1 hb'

end AllFresh

/-- Leaving a block that was entered for the first time. -/
theorem Visits.leave {ns : List Nat}
    (fresh : s.scope? (b :: s.current) = none)
    (h : Visits (s.current.length + 1) ns (s.enter b isLoop) s') :
    Visits (s.current.length + 1) (b :: ns) s s'.leave where
  current := by
    rw [Scopes.leave, h.current, current_enter]
    rfl
  vars := by
    have more := h.vars
    rwa [vars_enter] at more
  keeps q loop found := by
    refine h.keeps q loop ?_
    rw [marker?, scope?_enter fresh, if_neg]
    · exact found
    · rintro rfl
      rw [marker?, fresh] at found
      cases found
  outer q short := (h.outer q short).trans (scope?_enter_outer fresh short)
  fresh b' hb' none := by
    rw [List.mem_cons, not_or] at hb'
    refine h.fresh b' hb'.2 fun q => ?_
    rw [scope?_enter fresh, if_neg]
    · exact none q
    · rintro ⟨⟩
      exact hb'.1 rfl

end Scopes

end EbLang
