import EbLang.Proofs.Scopes
import Mathlib.Data.List.Forall2

/-!
# Walking twice

Every stage after the first walks through the blocks of a file again, and has to find the variables
that the first walk made.  Here a walk is a list of operations: a block is entered, a variable is
declared, a block is left.

*Growth.*  A walk only adds variables, scopes and declarations (`Grows`).  In the scopes it makes the
numbers are those of variables, and a slot shows one of its declarations or none (`Tidy`).

*Two walks.*  `Follows last s t` compares the first walk, which is at `s` and will end at `last`, with
the second, which is at `t`.  In a block that the first walk has entered a name shows the same
declaration in both walks once the first walk has declared it.  Before that it shows in the second
walk what it shows when the block is entered again: nothing, or the parameter.

The main statement is that the second walk hands back the numbers of the first and makes no variable.
-/

namespace EbLang

/-- An operation on scopes. -/
inductive ScopeStep where
  | enter (block : Nat) (isLoop : Bool)
  | declare (v : Variable)
  | leave

namespace ScopeStep

/-- Whether operations at a depth declare only inside of blocks, and end outside of all of them. -/
def closes : Nat → List ScopeStep → Bool
  | depth, [] => depth == 0
  | depth, enter _ _ :: steps => closes (depth + 1) steps
  | depth, declare _ :: steps => depth != 0 && closes depth steps
  | depth, leave :: steps => closes (depth - 1) steps

/-- The second operation does again what the first does, maybe with another type. -/
inductive Repeats : ScopeStep → ScopeStep → Prop
  | enter (block : Nat) (isLoop isLoop' : Bool) :
    Repeats (.enter block isLoop) (.enter block isLoop')
  | declare {v v' : Variable} (name : v'.name = v.name) (isParam : v'.isParam = v.isParam) :
    Repeats (.declare v) (.declare v')
  | leave : Repeats .leave .leave

end ScopeStep

namespace Scopes

/-- The scopes after an operation, and the variable it hands back. -/
def step (s : Scopes) : ScopeStep → List Nat × Scopes
  | .enter block isLoop => ([], s.enter block isLoop)
  | .declare v => ([(s.declare v).1], (s.declare v).2)
  | .leave => ([], s.leave)

/-- The scopes after some operations, and the variables they hand back. -/
def walk (s : Scopes) : List ScopeStep → List Nat × Scopes
  | [] => ([], s)
  | o :: os => ((s.step o).1 ++ ((s.step o).2.walk os).1, ((s.step o).2.walk os).2)

variable {s t s' last : Scopes}
variable {slot slot' : Slot} {scope : Scope}

/-! ## Single operations -/

/-- What a name shows when its scope is entered again. -/
def reopenedVersion (s : Scopes) (slot : Slot) : Option Nat := (s.reopen slot).version

/-- It is the first declaration that counts. -/
theorem reopenedVersion_congr (first : slot.vars.head?.bind s.var? = slot'.vars.head?.bind t.var?) :
    s.reopenedVersion slot = t.reopenedVersion slot' := by
  simp only [reopenedVersion, reopen, first]

theorem reopenedVersion_eq (arena : s.vars = t.vars)
    (same : slot.vars = slot'.vars) : s.reopenedVersion slot = t.reopenedVersion slot' := by
  have var : s.var? = t.var? := by
    funext id
    rw [var?, var?, arena]
  exact reopenedVersion_congr (by rw [same, var])

theorem slot_reopened (s : Scopes) (scope : Scope) (name : String) :
    ((s.reopened scope).slot name).vars = (scope.slot name).vars ∧
      ((s.reopened scope).slot name).version = s.reopenedVersion (scope.slot name) := by
  have mapped (entries : List (String × Slot)) :
      (entries.map fun e => (e.1, s.reopen e.2)).lookup name =
        (entries.lookup name).map s.reopen := by
    induction entries with
    | nil => rfl
    | cons e entries ih =>
      obtain ⟨key, slot⟩ := e
      simp only [List.map_cons, List.lookup_cons, ih]
      cases name == key with
      | true => rfl
      | false => rfl
  simp only [Scope.slot, reopened, mapped]
  cases scope.names.lookup name with
  | none => exact ⟨rfl, rfl⟩
  | some slot => exact ⟨rfl, rfl⟩

/-- The scope of a block that is entered: a new one, or the old one entered again. -/
theorem scope?_enter_here (s : Scopes) (b : Nat) (isLoop : Bool) :
    (s.enter b isLoop).scope? (b :: s.current) =
      some (((s.scope? (b :: s.current)).map s.reopened).getD ⟨isLoop, []⟩) := by
  cases known : s.scope? (b :: s.current) with
  | none => rw [scope?_enter known, if_pos rfl, Option.map_none, Option.getD_none]
  | some scope =>
    simp only [enter, known]
    refine (scope?_setScope s _ _ _).trans ?_
    rw [if_pos rfl, known]
    rfl

theorem scope?_enter_other (s : Scopes) {b : Nat} (isLoop : Bool) {q : ScopePath}
    (other : q ≠ b :: s.current) : (s.enter b isLoop).scope? q = s.scope? q := by
  cases known : s.scope? (b :: s.current) with
  | none => rw [scope?_enter known, if_neg other]
  | some scope =>
    simp only [enter, known]
    refine (scope?_setScope s _ _ _).trans ?_
    rw [if_neg other]

/-- In the scope of the current block one slot has changed. -/
structure SetsSlot (s : Scopes) (scope : Scope) (name : String) (slot : Slot) (s' : Scopes) : Prop where
  current : s'.current = s.current
  here : ∃ scope', s'.scope? s.current = some scope' ∧
    ∀ q, scope'.slot q = if q = name then slot else scope.slot q
  others : ∀ q, q ≠ s.current → s'.scope? q = s.scope? q

theorem setsSlot_setScope (known : s.scope? s.current = some scope) (name : String)
    (slot : Slot) (vars : List Variable) :
    SetsSlot s scope name slot
      { s.setScope s.current (scope.setSlot name slot) with vars := vars } := by
  refine ⟨rfl, ⟨_, ?_, slot_setSlot scope name slot⟩, ?_⟩
  · refine (scope?_setScope s s.current _ s.current).trans ?_
    rw [if_pos rfl, known]
    rfl
  · intro q other
    refine (scope?_setScope s s.current _ q).trans ?_
    rw [if_neg other]

section Declaring

variable {scope : Scope} {v : Variable} {id : Nat}

/-- A parameter is declared, and the first declaration of its name is in view. -/
def Retakes (slot : Slot) (v : Variable) : Prop :=
  v.isParam = true ∧ slot.version = some 0 ∧ slot.vars ≠ []

theorem declare_retaken (known : s.scope? s.current = some scope)
    (retakes : Retakes (scope.slot v.name) v) (first : (scope.slot v.name).vars.head? = some id) :
    s.declare v = (id, s) := by
  obtain ⟨param, shown, -⟩ := retakes
  simp only [declare, known, param, shown, first]
  rfl

theorem retakes_of_head (shown : (v.isParam && slot.version == some 0) = true)
    (first : slot.vars.head? = some id) : Retakes slot v := by
  simp only [Bool.and_eq_true, beq_iff_eq] at shown
  refine ⟨shown.1, shown.2, ?_⟩
  intro empty
  rw [empty] at first
  cases first

/-- A declaration that was made before comes into view. -/
theorem declare_known (known : s.scope? s.current = some scope)
    (other : ¬ Retakes (scope.slot v.name) v)
    (there : (scope.slot v.name).vars[nextVersion (scope.slot v.name)]? = some id) :
    (s.declare v).1 = id ∧ (s.declare v).2.vars = s.vars ∧
      SetsSlot s scope v.name
        ⟨some (nextVersion (scope.slot v.name)), (scope.slot v.name).vars⟩ (s.declare v).2 := by
  have eq : s.declare v = (id, s.setScope s.current (scope.setSlot v.name
      ⟨some (nextVersion (scope.slot v.name)), (scope.slot v.name).vars⟩)) := by
    simp only [declare, known]
    split
    next shown first => exact absurd (retakes_of_head shown first) other
    next => rw [there]
  rw [eq]
  exact ⟨rfl, rfl, setsSlot_setScope known _ _ s.vars⟩

/-- A new declaration makes a variable. -/
theorem declare_fresh (known : s.scope? s.current = some scope)
    (other : ¬ Retakes (scope.slot v.name) v)
    (absent : (scope.slot v.name).vars[nextVersion (scope.slot v.name)]? = none) :
    (s.declare v).1 = s.vars.length ∧ (s.declare v).2.vars = s.vars ++ [v] ∧
      SetsSlot s scope v.name
        ⟨some (nextVersion (scope.slot v.name)), (scope.slot v.name).vars ++ [s.vars.length]⟩
        (s.declare v).2 := by
  have eq : s.declare v = (s.vars.length, { s.setScope s.current (scope.setSlot v.name
      ⟨some (nextVersion (scope.slot v.name)), (scope.slot v.name).vars ++ [s.vars.length]⟩)
      with vars := s.vars ++ [v] }) := by
    simp only [declare, known]
    split
    next shown first => exact absurd (retakes_of_head shown first) other
    next =>
      rw [absent]
      rfl
  rw [eq]
  exact ⟨rfl, rfl, setsSlot_setScope known _ _ _⟩

end Declaring

/-! ## Growth -/

/-- Variables, scopes and declarations are only added. -/
structure Grows (s s' : Scopes) : Prop where
  vars : s.vars <+: s'.vars
  slots : ∀ path scope, s.scope? path = some scope → ∃ scope', s'.scope? path = some scope' ∧
    ∀ name, (scope.slot name).vars <+: (scope'.slot name).vars

theorem Grows.refl (s : Scopes) : s.Grows s :=
  ⟨List.prefix_rfl, fun _ scope known => ⟨scope, known, fun _ => List.prefix_rfl⟩⟩

theorem Grows.trans (h : s.Grows t) (h' : t.Grows s') : s.Grows s' := by
  refine ⟨h.vars.trans h'.vars, ?_⟩
  intro path scope known
  obtain ⟨scope1, known1, more⟩ := h.slots path scope known
  obtain ⟨scope2, known2, more'⟩ := h'.slots path scope1 known1
  exact ⟨scope2, known2, fun name => (more name).trans (more' name)⟩

/-- A slot shows one of its declarations or none, and its numbers are those of variables. -/
structure TidySlot (count : Nat) (slot : Slot) : Prop where
  shown : nextVersion slot ≤ slot.vars.length
  numbers : ∀ id ∈ slot.vars, id < count

/-- The blocks around the current place have scopes, and slots are tidy. -/
structure Tidy (s : Scopes) : Prop where
  around : ∀ path, path <:+ s.current → path ≠ [] → (s.scope? path).isSome = true
  slots : ∀ path scope, s.scope? path = some scope → ∀ name,
    TidySlot s.vars.length (scope.slot name)

theorem tidy_new : ({} : Scopes).Tidy := by
  refine ⟨?_, ?_⟩
  · intro path inside nonempty
    exact absurd (List.suffix_nil.mp inside) nonempty
  · intro path scope known
    cases known

theorem TidySlot.mono {count count' : Nat} (h : TidySlot count slot)
    (le : count ≤ count') : TidySlot count' slot :=
  ⟨h.shown, fun id listed => Nat.lt_of_lt_of_le (h.numbers id listed) le⟩

theorem TidySlot.reopen {count : Nat} (h : TidySlot count slot) (s : Scopes) :
    TidySlot count ⟨s.reopenedVersion slot, slot.vars⟩ := by
  refine ⟨?_, h.numbers⟩
  cases vars : slot.vars with
  | nil => simp [reopenedVersion, Scopes.reopen, vars, nextVersion]
  | cons id ids =>
    simp only [reopenedVersion, Scopes.reopen, List.length_cons]
    split
    · simp [nextVersion]
    · simp [nextVersion]

/-- The slots of a block that is entered have the declarations they had, and show what they show when
the block is entered again. -/
theorem slot_enter (s : Scopes) (b : Nat) (isLoop : Bool) :
    ∃ scope', (s.enter b isLoop).scope? (b :: s.current) = some scope' ∧
      ((s.scope? (b :: s.current) = none ∧ ∀ name, scope'.slot name = ⟨none, []⟩) ∨
        ∃ scope, s.scope? (b :: s.current) = some scope ∧
          ∀ name, scope'.slot name = ⟨s.reopenedVersion (scope.slot name), (scope.slot name).vars⟩) := by
  refine ⟨_, s.scope?_enter_here b isLoop, ?_⟩
  cases known : s.scope? (b :: s.current) with
  | none => exact .inl ⟨rfl, fun _ => rfl⟩
  | some scope =>
    refine .inr ⟨scope, rfl, ?_⟩
    intro name
    obtain ⟨vars, version⟩ := s.slot_reopened scope name
    rw [Option.map_some, Option.getD_some, ← vars, ← version]

theorem Tidy.enter (h : s.Tidy) (b : Nat) (isLoop : Bool) : (s.enter b isLoop).Tidy := by
  obtain ⟨scope', here, slots⟩ := s.slot_enter b isLoop
  refine ⟨?_, ?_⟩
  · intro path inside nonempty
    rw [current_enter, List.suffix_cons_iff] at inside
    rcases inside with rfl | inside
    · rw [here]
      rfl
    · rw [scope?_enter_other]
      · exact h.around path inside nonempty
      · intro same
        have short := inside.length_le
        rw [same, List.length_cons] at short
        omega
  · intro path scope found name
    rw [vars_enter]
    by_cases block : path = b :: s.current
    · rw [block, here] at found
      cases found
      rcases slots with ⟨-, empty⟩ | ⟨old, known, again⟩
      · rw [empty]
        exact ⟨Nat.le_refl _, List.forall_mem_nil _⟩
      · rw [again]
        exact (h.slots _ old known name).reopen s
    · rw [scope?_enter_other s isLoop block] at found
      exact h.slots path scope found name

theorem grows_enter (s : Scopes) (b : Nat) (isLoop : Bool) : s.Grows (s.enter b isLoop) := by
  obtain ⟨scope', here, slots⟩ := s.slot_enter b isLoop
  refine ⟨⟨[], by rw [vars_enter, List.append_nil]⟩, ?_⟩
  intro path scope known
  by_cases block : path = b :: s.current
  · subst block
    refine ⟨scope', here, ?_⟩
    rcases slots with ⟨fresh, -⟩ | ⟨old, known', again⟩
    · rw [fresh] at known
      cases known
    · rw [known'] at known
      cases known
      intro name
      have same : (scope'.slot name).vars = (scope.slot name).vars := by rw [again name]
      exact same ▸ List.prefix_rfl
  · exact ⟨scope, (scope?_enter_other s isLoop block).trans known, fun _ => List.prefix_rfl⟩

theorem Tidy.leave (h : s.Tidy) : s.leave.Tidy :=
  ⟨fun path inside => h.around path (inside.trans (List.tail_suffix _)), h.slots⟩

section Slot

variable {scope : Scope} {name : String} {slot : Slot}

theorem Tidy.setsSlot (h : s.Tidy) (known : s.scope? s.current = some scope)
    (set : SetsSlot s scope name slot s') (more : s.vars <+: s'.vars)
    (tidy : TidySlot s'.vars.length slot) : s'.Tidy := by
  obtain ⟨scope', here, slots⟩ := set.here
  refine ⟨?_, ?_⟩
  · intro path inside nonempty
    by_cases block : path = s.current
    · rw [block, here]
      rfl
    · rw [set.others path block]
      exact h.around path (set.current ▸ inside) nonempty
  · intro path found known' q
    by_cases block : path = s.current
    · rw [block, here] at known'
      cases known'
      rw [slots]
      split
      · exact tidy
      · exact (h.slots _ scope known q).mono more.length_le
    · rw [set.others path block] at known'
      exact (h.slots path found known' q).mono more.length_le

theorem SetsSlot.grows (set : SetsSlot s scope name slot s') (known : s.scope? s.current = some scope)
    (vars : s.vars <+: s'.vars) (more : (scope.slot name).vars <+: slot.vars) : s.Grows s' := by
  obtain ⟨scope', here, slots⟩ := set.here
  refine ⟨vars, ?_⟩
  intro path old found
  by_cases block : path = s.current
  · rw [block, known] at found
    cases found
    refine ⟨scope', block ▸ here, ?_⟩
    intro q
    rw [slots]
    split
    next same => exact same ▸ more
    next => exact List.prefix_rfl
  · exact ⟨old, (set.others path block).trans found, fun _ => List.prefix_rfl⟩

end Slot

/-- Declaring a variable inside of a block keeps the scopes tidy, and only adds to them. -/
theorem Tidy.declare (h : s.Tidy) (inside : s.current ≠ []) (v : Variable) :
    (s.declare v).2.Tidy ∧ s.Grows (s.declare v).2 := by
  obtain ⟨scope, known⟩ := Option.isSome_iff_exists.mp (h.around s.current List.suffix_rfl inside)
  have tidy := h.slots _ scope known v.name
  by_cases retakes : Retakes (scope.slot v.name) v
  · obtain ⟨id, ids, listed⟩ := List.exists_cons_of_ne_nil retakes.2.2
    rw [declare_retaken known retakes (List.head?_eq_some_iff.mpr ⟨ids, listed⟩)]
    exact ⟨h, .refl s⟩
  cases there : (scope.slot v.name).vars[nextVersion (scope.slot v.name)]? with
  | some id =>
    obtain ⟨-, vars, set⟩ := declare_known known retakes there
    have same : s.vars <+: (s.declare v).2.vars := ⟨[], by rw [vars, List.append_nil]⟩
    refine ⟨h.setsSlot known set same ⟨?_, ?_⟩, set.grows known same List.prefix_rfl⟩
    · exact (List.getElem?_eq_some_iff.mp there).1
    · rw [vars]
      exact tidy.numbers
  | none =>
    obtain ⟨-, vars, set⟩ := declare_fresh known retakes there
    have more : s.vars <+: (s.declare v).2.vars := ⟨[v], vars.symm⟩
    have last : nextVersion (scope.slot v.name) = (scope.slot v.name).vars.length :=
      Nat.le_antisymm tidy.shown (List.getElem?_eq_none_iff.mp there)
    refine ⟨h.setsSlot known set more ⟨?_, ?_⟩, set.grows known more (List.prefix_append _ _)⟩
    · simp [nextVersion] at last ⊢
      omega
    · intro id listed
      rw [vars, List.length_append, List.length_singleton]
      rcases List.mem_append.mp listed with old | new
      · have := tidy.numbers id old
        omega
      · rw [List.mem_singleton.mp new]
        omega

/-! ## Two walks -/

/-- The second walk is at `t` when the first, which ends at `last`, is at `s`. -/
structure Follows (last s t : Scopes) : Prop where
  current : t.current = s.current
  vars : t.vars = last.vars
  slots : ∀ path scope, last.scope? path = some scope → ∃ scope', t.scope? path = some scope' ∧
    ∀ name, (scope'.slot name).vars = (scope.slot name).vars
  shown : ∀ path scope scope', s.scope? path = some scope → t.scope? path = some scope' → ∀ name,
    (scope'.slot name).version =
      if (scope.slot name).vars = [] then last.reopenedVersion (scope'.slot name)
      else (scope.slot name).version

/-- What the first walk has declared in a scope begins what the second has there. -/
theorem Follows.grows (h : Follows last s t) (grows : s.Grows last) {path : ScopePath}
    (known : s.scope? path = some scope) :
    ∃ scope', t.scope? path = some scope' ∧
      ∀ name, (scope.slot name).vars <+: (scope'.slot name).vars := by
  obtain ⟨final, known', more⟩ := grows.slots path scope known
  obtain ⟨scope', found, same⟩ := h.slots path final known'
  refine ⟨scope', found, ?_⟩
  intro name
  rw [same]
  exact more name

/-- A name that is declared shows the same in both walks when its block is entered again. -/
theorem reopenedVersion_eq_of_grows (grows : s.vars <+: t.vars)
    (tidy : TidySlot s.vars.length slot) (more : slot.vars <+: slot'.vars)
    (nonempty : slot.vars ≠ []) : s.reopenedVersion slot = t.reopenedVersion slot' := by
  obtain ⟨id, ids, listed⟩ := List.exists_cons_of_ne_nil nonempty
  obtain ⟨others, whole⟩ := more
  refine reopenedVersion_congr ?_
  rw [← whole, listed]
  have known : id < s.vars.length := tidy.numbers id (by simp [listed])
  obtain ⟨more, arena⟩ := grows
  show s.vars[id]? = t.vars[id]?
  rw [← arena, List.getElem?_append_left known]

theorem Follows.enter (h : Follows last s t) (tidy : s.Tidy) (b : Nat) (isLoop isLoop' : Bool)
    (grows : (s.enter b isLoop).Grows last) :
    Follows last (s.enter b isLoop) (t.enter b isLoop') := by
  obtain ⟨mine, here, slots⟩ := s.slot_enter b isLoop
  obtain ⟨theirs, here', slots'⟩ := t.slot_enter b isLoop'
  rw [h.current] at here' slots'
  -- The first walk will have entered the block, so the second walk enters it again.
  obtain ⟨final, known, -⟩ := grows.slots _ mine here
  obtain ⟨old', known', same'⟩ := h.slots _ final known
  have again' : ∀ name, theirs.slot name =
      ⟨t.reopenedVersion (old'.slot name), (old'.slot name).vars⟩ := by
    rcases slots' with ⟨fresh, -⟩ | ⟨found, known'', again⟩
    · rw [fresh] at known'
      cases known'
    · rw [known''] at known'
      cases known'
      exact again
  have reset (name : String) : (theirs.slot name).version =
      last.reopenedVersion (theirs.slot name) := by
    rw [again']
    exact reopenedVersion_eq h.vars rfl
  refine ⟨?_, ?_, ?_, ?_⟩
  · rw [current_enter, current_enter, h.current]
  · rw [vars_enter, h.vars]
  · intro path scope found
    by_cases block : path = b :: s.current
    · rw [block, known] at found
      cases found
      refine ⟨theirs, block ▸ here', ?_⟩
      intro name
      rw [again']
      exact same' name
    · rw [scope?_enter_other t isLoop' (by rwa [h.current])]
      exact h.slots path scope found
  · intro path scope scope' found found' name
    by_cases block : path = b :: s.current
    · rw [block, here] at found
      rw [block, here'] at found'
      cases found
      cases found'
      rcases slots with ⟨-, empty⟩ | ⟨old, knownOld, again⟩
      · rw [empty, if_pos rfl]
        exact reset name
      · rw [again]
        split
        next empty => exact reset name
        next nonempty =>
          have more := (s.grows_enter b isLoop).trans grows
          obtain ⟨found, known'', prefixes⟩ := h.grows more knownOld
          rw [known''] at known'
          cases known'
          rw [reopenedVersion_eq_of_grows more.vars (tidy.slots _ old knownOld name) (prefixes name)
            nonempty, again']
          exact reopenedVersion_eq h.vars rfl
    · rw [scope?_enter_other s isLoop block] at found
      rw [scope?_enter_other t isLoop' (by rwa [h.current])] at found'
      exact h.shown path scope scope' found found' name

theorem setsSlot_self (known : s.scope? s.current = some scope) (name : String) :
    SetsSlot s scope name (scope.slot name) s := by
  refine ⟨rfl, ⟨scope, known, ?_⟩, fun _ _ => rfl⟩
  intro q
  split
  next same => rw [same]
  next => rfl

section Declaring

variable {mine theirs : Scope} {name : String} {slot slot' : Slot} {s1 t1 : Scopes}
  {v v' : Variable} {id : Nat}

section Slots

variable (h : Follows last s t) (known : s.scope? s.current = some mine)
  (known' : t.scope? s.current = some theirs)

include h known known'

/-- Both walks set the slot of a name, and show the same declaration. -/
theorem Follows.setsSlot (set : SetsSlot s mine name slot s1)
    (set' : SetsSlot t theirs name slot' t1) (vars : t1.vars = t.vars)
    (same : slot'.vars = (theirs.slot name).vars) (nonempty : slot.vars ≠ [])
    (version : slot'.version = slot.version) : Follows last s1 t1 := by
  obtain ⟨mine1, here, slots⟩ := set.here
  obtain ⟨theirs1, here', slots'⟩ := set'.here
  rw [h.current] at here'
  refine ⟨?_, ?_, ?_, ?_⟩
  · rw [set.current, set'.current, h.current]
  · rw [vars, h.vars]
  · intro path scope found
    obtain ⟨scope', found', all⟩ := h.slots path scope found
    by_cases block : path = s.current
    · rw [block, known'] at found'
      cases found'
      refine ⟨theirs1, block ▸ here', ?_⟩
      intro q
      rw [slots', ← all]
      split
      next here => rw [same, here]
      next => rfl
    · exact ⟨scope', (set'.others path (h.current ▸ block)).trans found', all⟩
  · intro path scope scope' found found' q
    by_cases block : path = s.current
    · rw [block, here] at found
      rw [block, here'] at found'
      cases found
      cases found'
      rw [slots, slots']
      split
      · exact version
      · exact h.shown _ mine theirs known known' q
    · rw [set.others path block] at found
      rw [set'.others path (h.current ▸ block)] at found'
      exact h.shown path scope scope' found found' q

/-- What is in view of a name that has a declaration is the same in both walks. -/
theorem Follows.version_eq (nonempty : (mine.slot name).vars ≠ []) :
    (theirs.slot name).version = (mine.slot name).version := by
  rw [h.shown _ mine theirs known known' name, if_neg nonempty]

/-- A name that has no declaration yet shows the parameter in the second walk, or nothing. -/
theorem Follows.version_of_new (empty : (mine.slot name).vars = [])
    (head : (theirs.slot name).vars.head? = some id) (made : last.var? id = some v) :
    (theirs.slot name).version = if v.isParam then some 0 else none := by
  rw [h.shown _ mine theirs known known' name, if_pos empty, reopenedVersion, reopen]
  simp only [head, Option.bind_some, made, Option.map_some, Option.getD_some]

theorem Follows.not_retakes (nonempty : (mine.slot name).vars ≠ [])
    (param : v'.isParam = v.isParam) (other : ¬ Retakes (mine.slot name) v) :
    ¬ Retakes (theirs.slot name) v' := by
  rintro ⟨isParam, first, -⟩
  rw [h.version_eq known known' nonempty] at first
  exact other ⟨param ▸ isParam, first, nonempty⟩

/-- Both walks show a declaration, the second one that was made before. -/
theorem Follows.shows (named : v'.name = v.name) {n : Nat}
    {ids : List Nat} (set : SetsSlot s mine v.name ⟨some n, ids⟩ s1) (nonempty : ids ≠ [])
    (other : ¬ Retakes (theirs.slot v.name) v') (next : nextVersion (theirs.slot v.name) = n)
    (found : (theirs.slot v.name).vars[n]? = some id) :
    (t.declare v').1 = id ∧ Follows last s1 (t.declare v').2 := by
  subst next
  rw [← h.current] at known'
  rw [← named] at other found set
  obtain ⟨same, vars, set'⟩ := declare_known known' other found
  rw [h.current] at known'
  exact ⟨same, h.setsSlot known known' set set' vars rfl nonempty (by rw [named])⟩

end Slots

/-- The first walk makes a variable, which the second finds in the arena and in the slot. -/
theorem Follows.declare_fresh (h : Follows last s t) (tidy : s.Tidy)
    (known : s.scope? s.current = some mine) (known' : t.scope? s.current = some theirs)
    (named : v'.name = v.name) (param : v'.isParam = v.isParam)
    (other : ¬ Retakes (mine.slot v.name) v)
    (absent : (mine.slot v.name).vars[nextVersion (mine.slot v.name)]? = none)
    (grows : (s.declare v).2.Grows last) :
    (t.declare v').1 = (s.declare v).1 ∧ Follows last (s.declare v).2 (t.declare v').2 := by
  obtain ⟨same, vars, set⟩ := Scopes.declare_fresh known other absent
  have next : nextVersion (mine.slot v.name) = (mine.slot v.name).vars.length :=
    Nat.le_antisymm (tidy.slots _ mine known v.name).shown (List.getElem?_eq_none_iff.mp absent)
  obtain ⟨rest, arena⟩ := grows.vars
  have made : last.var? s.vars.length = some v := by
    rw [var?, ← arena, vars]
    simp
  obtain ⟨scope1, here, slots⟩ := set.here
  obtain ⟨final, known1, more⟩ := grows.slots _ scope1 here
  obtain ⟨scope', there, all⟩ := h.slots _ final known1
  rw [known'] at there
  cases there
  obtain ⟨ids, whole⟩ := more v.name
  rw [slots, if_pos rfl, ← all] at whole
  have found : (theirs.slot v.name).vars[(mine.slot v.name).vars.length]? = some s.vars.length := by
    rw [← whole]
    simp
  have nonempty : (mine.slot v.name).vars ++ [s.vars.length] ≠ [] := by simp
  rw [same]
  by_cases empty : (mine.slot v.name).vars = []
  · rw [empty] at found next
    have head : (theirs.slot v.name).vars.head? = some s.vars.length := by
      rw [List.head?_eq_getElem?]
      exact found
    have version := h.version_of_new known known' empty head made
    cases isParam : v.isParam with
    | true =>
      rw [isParam, if_pos rfl] at version
      have retakes : Retakes (theirs.slot v'.name) v' := by
        refine ⟨param.trans isParam, named ▸ version, ?_⟩
        intro none
        rw [← named, none] at head
        cases head
      have there := known'
      rw [← h.current] at there
      rw [declare_retaken there retakes (named ▸ head)]
      refine ⟨rfl, ?_⟩
      refine h.setsSlot known known' set (setsSlot_self there v.name) rfl rfl nonempty ?_
      rw [version, next]
      rfl
    | false =>
      rw [isParam] at version
      refine h.shows known known' named set nonempty ?_ ?_ ?_
      · rintro ⟨yes, -, -⟩
        rw [param, isParam] at yes
        cases yes
      · rw [nextVersion, version, next]
        rfl
      · rw [next]
        exact found
  · refine h.shows known known' named set nonempty
      (h.not_retakes known known' empty param other) ?_ (next ▸ found)
    rw [nextVersion, nextVersion, h.version_eq known known' empty]

theorem Follows.declare (h : Follows last s t) (tidy : s.Tidy) (inside : s.current ≠ [])
    (named : v'.name = v.name) (param : v'.isParam = v.isParam)
    (grows : (s.declare v).2.Grows last) :
    (t.declare v').1 = (s.declare v).1 ∧ Follows last (s.declare v).2 (t.declare v').2 := by
  obtain ⟨mine, known⟩ := Option.isSome_iff_exists.mp (tidy.around s.current List.suffix_rfl inside)
  obtain ⟨theirs, known', more⟩ := h.grows ((tidy.declare inside v).2.trans grows) known
  obtain ⟨others, whole⟩ := more v.name
  by_cases retakes : Retakes (mine.slot v.name) v
  · obtain ⟨isParam, first, nonempty⟩ := retakes
    obtain ⟨id, ids, listed⟩ := List.exists_cons_of_ne_nil nonempty
    have head : (mine.slot v.name).vars.head? = some id := by
      rw [listed]
      rfl
    have head' : (theirs.slot v'.name).vars.head? = some id := by
      rw [named, ← whole, listed]
      rfl
    have retakes' : Retakes (theirs.slot v'.name) v' := by
      refine ⟨param ▸ isParam, ?_, ?_⟩
      · rw [named, h.version_eq known known' nonempty, first]
      · rw [named, ← whole, listed]
        simp
    rw [← h.current] at known'
    rw [declare_retaken known ⟨isParam, first, nonempty⟩ head, declare_retaken known' retakes' head']
    exact ⟨rfl, h⟩
  · cases found : (mine.slot v.name).vars[nextVersion (mine.slot v.name)]? with
    | some id =>
      obtain ⟨same, -, set⟩ := declare_known known retakes found
      have listed := (List.getElem?_eq_some_iff.mp found).1
      have nonempty : (mine.slot v.name).vars ≠ [] := List.ne_nil_of_length_pos (by omega)
      rw [same]
      refine h.shows known known' named set nonempty
        (h.not_retakes known known' nonempty param retakes) ?_ ?_
      · rw [nextVersion, nextVersion, h.version_eq known known' nonempty]
      · rw [← whole, List.getElem?_append_left listed, found]
    | none => exact h.declare_fresh tidy known known' named param retakes found grows

end Declaring

/-! ## Whole walks -/

theorem current_declare (s : Scopes) (v : Variable) : (s.declare v).2.current = s.current := by
  simp only [Scopes.declare]
  split
  next => rfl
  next =>
    split
    next => rfl
    next =>
      split
      next => rfl
      next => rfl

/-- An operation keeps the scopes tidy and only adds to them. -/
theorem Tidy.step (h : s.Tidy) {o : ScopeStep} {os : List ScopeStep}
    (closed : ScopeStep.closes s.current.length (o :: os) = true) :
    (s.step o).2.Tidy ∧ s.Grows (s.step o).2 ∧
      ScopeStep.closes (s.step o).2.current.length os = true := by
  cases o with
  | enter b isLoop =>
    refine ⟨h.enter b isLoop, s.grows_enter b isLoop, ?_⟩
    simpa [Scopes.step, current_enter, ScopeStep.closes] using closed
  | leave =>
    refine ⟨h.leave, ⟨List.prefix_rfl, (Grows.refl s).slots⟩, ?_⟩
    simpa [Scopes.step, Scopes.leave, ScopeStep.closes] using closed
  | declare v =>
    simp only [ScopeStep.closes, Bool.and_eq_true, bne_iff_ne, ne_eq, List.length_eq_zero_iff]
      at closed
    obtain ⟨tidy, grows⟩ := h.declare closed.1 v
    refine ⟨tidy, grows, ?_⟩
    rw [Scopes.step, current_declare]
    exact closed.2

/-- A walk only adds to the scopes, and ends outside of all blocks. -/
theorem Tidy.walk (os : List ScopeStep) : ∀ {s : Scopes}, s.Tidy →
    ScopeStep.closes s.current.length os = true →
      s.Grows (s.walk os).2 ∧ (s.walk os).2.current = [] := by
  induction os with
  | nil =>
    intro s _ closed
    simp only [ScopeStep.closes, beq_iff_eq, List.length_eq_zero_iff] at closed
    exact ⟨.refl s, closed⟩
  | cons o os ih =>
    intro s tidy closed
    obtain ⟨tidy1, grows, closed1⟩ := tidy.step closed
    obtain ⟨grows1, outside⟩ := ih tidy1 closed1
    exact ⟨grows.trans grows1, outside⟩

/-- An operation and its repetition hand back the same. -/
theorem Follows.step (h : Follows last s t) (tidy : s.Tidy) {o o' : ScopeStep} {os : List ScopeStep}
    (closed : ScopeStep.closes s.current.length (o :: os) = true) (again : o.Repeats o')
    (grows : (s.step o).2.Grows last) :
    (t.step o').1 = (s.step o).1 ∧ Follows last (s.step o).2 (t.step o').2 := by
  cases again with
  | enter b isLoop isLoop' => exact ⟨rfl, h.enter tidy b isLoop isLoop' grows⟩
  | leave =>
    refine ⟨rfl, ?_, h.vars, h.slots, h.shown⟩
    simp only [Scopes.step, Scopes.leave, h.current]
  | declare named param =>
    simp only [ScopeStep.closes, Bool.and_eq_true, bne_iff_ne, ne_eq, List.length_eq_zero_iff]
      at closed
    obtain ⟨same, follows⟩ := h.declare tidy closed.1 named param grows
    refine ⟨?_, follows⟩
    simp only [Scopes.step, same]

theorem Follows.walk {os os' : List ScopeStep} (again : List.Forall₂ ScopeStep.Repeats os os') :
    ∀ {s t : Scopes}, s.Tidy → ScopeStep.closes s.current.length os = true →
      Follows (s.walk os).2 s t →
        (t.walk os').1 = (s.walk os).1 ∧ Follows (s.walk os).2 (s.walk os).2 (t.walk os').2 := by
  induction again with
  | nil =>
    intro s t _ _ follows
    exact ⟨rfl, follows⟩
  | @cons o o' os os' first _ ih =>
    intro s t tidy closed follows
    obtain ⟨tidy1, -, closed1⟩ := tidy.step closed
    obtain ⟨same, follows1⟩ := follows.step tidy closed first (tidy1.walk os closed1).1
    obtain ⟨sames, follows2⟩ := ih tidy1 closed1 follows1
    refine ⟨?_, follows2⟩
    simp only [Scopes.walk, same, sames]

/-- A walk that starts and ends outside of all blocks, and declares inside of them only, hands back the
same variables when it is repeated with any types, and makes no new ones. -/
theorem walk_again {steps again : List ScopeStep} (closed : ScopeStep.closes 0 steps = true)
    (repeated : List.Forall₂ ScopeStep.Repeats steps again) :
    ((({} : Scopes).walk steps).2.walk again).1 = (({} : Scopes).walk steps).1 ∧
      ((({} : Scopes).walk steps).2.walk again).2.vars = (({} : Scopes).walk steps).2.vars := by
  obtain ⟨-, outside⟩ := tidy_new.walk steps closed
  have start : Follows (({} : Scopes).walk steps).2 {} (({} : Scopes).walk steps).2 := by
    refine ⟨outside, rfl, ?_, ?_⟩
    · intro path scope known
      exact ⟨scope, known, fun _ => rfl⟩
    · intro path scope scope' known
      cases known
  obtain ⟨same, follows⟩ := Follows.walk repeated tidy_new closed start
  exact ⟨same, follows.vars⟩

def plainVariable (name : String) (isParam : Bool) (ty : Ty) : Variable :=
  ⟨name, ty, isParam, false, .null⟩

/-- A block that is entered three times, and one inside of it: a parameter is declared twice and then
hidden, a local comes before a parameter of its name, and both names are declared in the inner block. -/
def hidingSteps (ty : Ty) : List ScopeStep :=
  [.enter 1 false, .declare (plainVariable "x" true ty), .declare (plainVariable "x" true ty),
    .declare (plainVariable "x" false ty), .declare (plainVariable "y" false ty),
    .enter 2 true, .declare (plainVariable "x" false ty), .declare (plainVariable "y" true ty), .leave,
    .leave,
    .enter 1 false, .declare (plainVariable "y" true ty), .declare (plainVariable "x" false ty),
    .declare (plainVariable "z" true ty), .leave,
    .enter 1 false, .declare (plainVariable "x" true ty), .declare (plainVariable "x" false ty),
    .declare (plainVariable "x" false ty), .leave]

theorem repeats_hidingSteps (ty ty' : Ty) :
    List.Forall₂ ScopeStep.Repeats (hidingSteps ty) (hidingSteps ty') := by
  simp only [hidingSteps, List.forall₂_cons, List.forall₂_nil_left_iff, and_true]
  exact ⟨.enter .., .declare rfl rfl, .declare rfl rfl, .declare rfl rfl, .declare rfl rfl, .enter ..,
    .declare rfl rfl, .declare rfl rfl, .leave, .leave, .enter .., .declare rfl rfl, .declare rfl rfl,
    .declare rfl rfl, .leave, .enter .., .declare rfl rfl, .declare rfl rfl, .declare rfl rfl, .leave⟩

theorem walk_again_hidingSteps :
    ScopeStep.closes 0 (hidingSteps .anyValue) = true ∧
      (({} : Scopes).walk (hidingSteps .anyValue)).1 = [0, 0, 1, 2, 3, 4, 2, 1, 5, 0, 1, 6] ∧
      ((({} : Scopes).walk (hidingSteps .anyValue)).2.walk (hidingSteps .void)).1 =
        [0, 0, 1, 2, 3, 4, 2, 1, 5, 0, 1, 6] ∧
      ((({} : Scopes).walk (hidingSteps .anyValue)).2.walk (hidingSteps .void)).2.vars =
        (({} : Scopes).walk (hidingSteps .anyValue)).2.vars := by
  have first : (({} : Scopes).walk (hidingSteps .anyValue)).1 = [0, 0, 1, 2, 3, 4, 2, 1, 5, 0, 1, 6] := by
    decide +kernel
  have closed : ScopeStep.closes 0 (hidingSteps .anyValue) = true := by decide
  obtain ⟨same, vars⟩ := walk_again closed (repeats_hidingSteps .anyValue .void)
  exact ⟨closed, first, same.trans first, vars⟩

end Scopes

end EbLang
