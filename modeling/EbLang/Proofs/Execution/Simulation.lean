import EbLang.Proofs.Execution
import EbLang.Proofs.Plain

/-!
# Executions up to hidden variables

Two executions are compared from states that differ in their hidden variables only.  `Sim x y` says
that the second one ends as the first one does, with states that again differ in hidden variables
only; what holds of results and of the hidden variables is given by relations.  There is a rule for
each way to build an execution.

Names of source text and names of hidden variables do not meet: environments that agree on plain names
give them the same values.
-/

namespace EbLang.Execution

variable {V W α β γ δ : Type}

theorem run_bind (x : Run V W α) (f : α → Run V W β) (s : State V W) :
    (x >>= f).run.run s =
      match x.run.run s with
      | (.ok a, t) => (f a).run.run t
      | (.error e, t) => (.error e, t) := by
  rw [ExceptT.run_bind, StateT.run_bind]
  rcases x.run.run s with ⟨_ | _, t⟩ <;> rfl

theorem run_tryCatch (x : Run V W α) (f : Exit V → Run V W α) (s : State V W) :
    (tryCatch x f).run.run s =
      match x.run.run s with
      | (.ok a, t) => (.ok a, t)
      | (.error e, t) => (f e).run.run t := by
  rw [ExceptT.run_tryCatch, StateT.run_bind]
  rcases x.run.run s with ⟨_ | _, t⟩ <;> rfl

theorem tryCatch_bind_congr {x : Run V W α} {f g : α → Run V W β} {h : Exit V → Run V W β}
    (eq : ∀ a, tryCatch (f a) h = tryCatch (g a) h) :
    tryCatch (x >>= f) h = tryCatch (x >>= g) h := by
  funext s
  change (tryCatch (x >>= f) h).run.run s = (tryCatch (x >>= g) h).run.run s
  rw [run_tryCatch, run_tryCatch, run_bind, run_bind]
  rcases x.run.run s with ⟨_ | a, t⟩
  · rfl
  · have same := congrArg (fun y : Run V W β => y.run.run t) (eq a)
    simp only [run_tryCatch] at same
    exact same

/-- Rounds that end alike make the same loop. -/
theorem rounds_congr {x y : Run V W Bool} (eq : tryCatch x afterRound = tryCatch y afterRound) :
    ∀ n, rounds x n = rounds y n
  | 0 => rfl
  | n + 1 => by simp only [rounds, eq, rounds_congr eq n]

/-- The state with other hidden variables. -/
def State.withTemps (s : State V W) (temps : List V) : State V W := { s with temps }

/-- From states that differ in hidden variables only, of which the second has `T`, both executions
give related results or end early in the same way. -/
def Sim (x : Run V W α) (y : Run V W β) (T : List V) (R : α → β → List V → Prop)
    (E : List V → Prop) : Prop :=
  ∀ s, match x.run.run s with
    | (.ok a, t) => ∃ b T', y.run.run (s.withTemps T) = (.ok b, t.withTemps T') ∧ R a b T'
    | (.error e, t) => ∃ T', y.run.run (s.withTemps T) = (.error e, t.withTemps T') ∧ E T'

namespace Sim

variable {x : Run V W α} {y : Run V W β} {T T' : List V} {R R' : α → β → List V → Prop}
  {E E' : List V → Prop}

protected theorem pure {a : α} {b : β} (h : R a b T) : Sim (pure a : Run V W α) (pure b) T R E :=
  fun _ => ⟨b, T, rfl, h⟩

protected theorem throw {e : Exit V} (h : E T) :
    Sim (throw e : Run V W α) (throw e : Run V W β) T R E :=
  fun _ => ⟨T, rfl, h⟩

variable {f : α → Run V W γ} {g : β → Run V W δ}

protected theorem bind {S : γ → δ → List V → Prop}
    (hx : Sim x y T R E) (h : ∀ a b T', R a b T' → Sim (f a) (g b) T' S E) :
    Sim (x >>= f) (y >>= g) T S E := by
  intro s
  have hs := hx s
  rw [run_bind, run_bind]
  split at hs
  next a t eq =>
    obtain ⟨b, T1, eq', hR⟩ := hs
    rw [eq']
    exact h a b T1 hR t
  next e t eq =>
    obtain ⟨T1, eq', hE⟩ := hs
    rw [eq']
    exact ⟨T1, rfl, hE⟩

/-- The first execution may go on alone. -/
theorem bind_left {S : γ → β → List V → Prop} (hx : Sim x y T R E)
    (h : ∀ a b T', R a b T' → Sim (f a) (pure b : Run V W β) T' S E) : Sim (x >>= f) y T S E := by
  have both := hx.bind h
  rwa [bind_pure] at both

theorem imp (h : Sim x y T R E) (hR : ∀ a b T', R a b T' → R' a b T') (hE : ∀ T', E T' → E' T') :
    Sim x y T R' E' := by
  intro s
  have hs := h s
  split at hs
  next a t eq =>
    obtain ⟨b, T1, eq', hab⟩ := hs
    exact ⟨b, T1, eq', hR a b T1 hab⟩
  next e t eq =>
    obtain ⟨T1, eq', he⟩ := hs
    exact ⟨T1, eq', hE T1 he⟩

protected theorem modify {f g : State V W → State V W} {R : PUnit → PUnit → List V → Prop}
    (T' : List V) (h : ∀ s, g (s.withTemps T) = (f s).withTemps T') (hR : R ⟨⟩ ⟨⟩ T') :
    Sim (modify f : Run V W PUnit) (modify g) T R E :=
  fun s => ⟨⟨⟩, T', by rw [← h]; rfl, hR⟩

protected theorem get {R : State V W → State V W → List V → Prop} (h : ∀ s, R s (s.withTemps T) T) :
    Sim (get : Run V W (State V W)) get T R E :=
  fun s => ⟨s.withTemps T, T, rfl, h s⟩

/-- The second execution may do something to its hidden variables first. -/
theorem after {S : α → δ → List V → Prop} {b : β} (T' : List V)
    (hy : ∀ s : State V W, y.run.run (s.withTemps T) = (.ok b, s.withTemps T'))
    (h : Sim x (g b) T' S E) : Sim x (y >>= g) T S E := by
  intro s
  rw [run_bind, hy]
  exact h s

/-- What a loop does with the end of a round. -/
theorem catchRound {x y : Run V W Bool} {P : List V → Prop}
    (h : Sim x y T (fun a b T' => b = a ∧ P T') P) :
    Sim (tryCatch x afterRound) (tryCatch y afterRound) T (fun a b T' => b = a ∧ P T') P := by
  intro s
  have hs := h s
  rw [run_tryCatch, run_tryCatch]
  split at hs
  next a t eq =>
    obtain ⟨b, T1, eq', hab⟩ := hs
    rw [eq']
    exact ⟨b, T1, rfl, hab⟩
  next e t eq =>
    obtain ⟨T1, eq', hP⟩ := hs
    rw [eq']
    have ends : Sim (afterRound e : Run V W Bool) (afterRound e) T1
        (fun a b T' => b = a ∧ P T') P := by
      unfold afterRound
      split
      · exact .pure ⟨rfl, hP⟩
      · split
        · exact .pure ⟨rfl, hP⟩
        · exact .throw hP
      · exact .throw hP
    exact ends t

/-- Loops whose rounds correspond. -/
theorem rounds {x y : Run V W Bool} {P : List V → Prop}
    (h : ∀ T, P T → Sim (tryCatch x afterRound) (tryCatch y afterRound) T
      (fun a b T' => b = a ∧ P T') P) :
    ∀ n T, P T → Sim (rounds x n) (Execution.rounds y n) T (fun _ _ T' => P T') P
  | 0, _, hT => .throw hT
  | n + 1, T, hT => by
    refine (h T hT).bind fun a b T' ⟨eq, hT'⟩ => ?_
    subst eq
    split
    · exact rounds h n T' hT'
    · exact .pure hT'

end Sim

/-! ## Environments -/

open Hoist (temporaryName)

theorem lookup_cons_of_ne {env : Env} {x name : String} {a : Address} (h : x ≠ name) :
    List.lookup x ((name, a) :: env) = env.lookup x := by
  rw [List.lookup_cons, beq_false_of_ne h]

/-- Two environments give the same visible variable to every plain name. -/
structure Env.Agree (env env' : Env) : Prop where
  lookup : ∀ x, IsPlain x → env'.lookup x = env.lookup x
  visible : ∀ x a, IsPlain x → env.lookup x = some a → a.hidden = false

namespace Env.Agree

variable {env env' : Env}

theorem refl (h : ∀ e ∈ env, e.2.hidden = false) : Env.Agree env env where
  lookup _ _ := rfl
  visible x a _ eq := by
    obtain ⟨front, back, rfl, -⟩ := List.lookup_eq_some_iff.mp eq
    exact h (x, a) (by simp)

theorem cons (h : Env.Agree env env') (name : String) (index : Nat) :
    Env.Agree ((name, ⟨false, index⟩) :: env) ((name, ⟨false, index⟩) :: env') where
  lookup x hx := by
    rw [List.lookup_cons, List.lookup_cons, h.lookup x hx]
  visible x a hx eq := by
    rw [List.lookup_cons] at eq
    split at eq
    · cases eq
      rfl
    · exact h.visible x a hx eq

theorem cons_temporary (h : Env.Agree env env') (k : Nat) (a : Address) :
    Env.Agree env ((temporaryName k, a) :: env') where
  lookup x hx := by
    rw [lookup_cons_of_ne (Hoist.ne_temporaryName hx k), h.lookup x hx]
  visible := h.visible

/-- A plain name stands for the same visible variable in both. -/
theorem address? (h : Env.Agree env env') {name : String} (plain : IsPlain name) :
    Execution.address? env' name = Execution.address? env name := by
  unfold Execution.address?
  cases first : (splitName name).head? with
  | none => rfl
  | some part =>
    have mem := List.mem_of_head? first
    exact h.lookup part (isPlain_of_mem_splitName plain mem)

theorem visible_address? (h : Env.Agree env env') {name : String} (plain : IsPlain name)
    {a : Address} (eq : Execution.address? env name = some a) : a.hidden = false := by
  obtain ⟨part, first, found⟩ := Option.bind_eq_some_iff.mp eq
  exact h.visible part a (isPlain_of_mem_splitName plain (List.mem_of_head? first)) found

end Env.Agree

section Values

variable (I : Interpretation V W) {env env' : Env}
variable {name : String}

theorem valueOf_withTemps (h : Env.Agree env env') (plain : IsPlain name)
    (s : State V W) (T : List V) : valueOf I env' name (s.withTemps T) = valueOf I env name s := by
  unfold valueOf
  rw [h.address? plain]
  cases eq : address? env name with
  | none => rfl
  | some a =>
    have visible := h.visible_address? plain eq
    have load : (s.withTemps T).load a = s.load a := by
      simp [State.load, State.withTemps, visible]
    simp only [Option.bind_some, load]
    rfl

theorem written_withTemps (h : Env.Agree env env') (plain : IsPlain name) (v : V)
    (s : State V W) (T : List V) :
    written I env' name v (s.withTemps T) = (written I env name v s).withTemps T := by
  unfold written
  rw [h.address? plain]
  cases eq : address? env name with
  | none => rfl
  | some a =>
    have visible := h.visible_address? plain eq
    simp [State.load, State.save, State.note, State.withTemps, visible]

theorem address?_temporary (env : Env) (k : Nat) :
    address? env (temporaryName k) = env.lookup (temporaryName k) := by
  unfold address?
  rw [Hoist.splitName_temporaryName]
  rfl

/-- The value of a hidden variable. -/
theorem valueOf_temporary {k j : Nat} {v : V} {T : List V}
    (found : env.lookup (temporaryName k) = some ⟨true, j⟩) (stored : T[j]? = some v)
    (s : State V W) : valueOf I env (temporaryName k) (s.withTemps T) = v := by
  unfold valueOf
  rw [address?_temporary, found, Hoist.splitName_temporaryName]
  simp [State.load, State.withTemps, stored]

/-- Writing a hidden variable changes nothing else. -/
theorem written_temporary {k j : Nat} {T : List V}
    (found : env.lookup (temporaryName k) = some ⟨true, j⟩) (v : V) (s : State V W) :
    written I env (temporaryName k) v (s.withTemps T) = s.withTemps (T.set j v) := by
  unfold written
  rw [address?_temporary, found, Hoist.splitName_temporaryName]
  simp [State.save, State.withTemps]

/-! ## Expressions -/

/-- Results are the same, and hidden variables are left alone. -/
def Same (T : List V) (a b : α) (T' : List V) : Prop := b = a ∧ T' = T

/-- Calls do not touch hidden variables. -/
theorem sim_operate (c : Call) (args : List V) (T : List V) :
    Sim (operate I c args) (operate I c args) T (Same T) (· = T) := by
  unfold operate
  split
  · exact .pure ⟨rfl, rfl⟩
  · exact fun s => ⟨_, T, rfl, rfl, rfl⟩

/-- An atom of source text does the same. -/
theorem sim_runAtom (h : Env.Agree env env') {a : Atom}
    (plain : ∀ m ∈ Collector.names.atom a, m.Plain) (values : List V) (T : List V) :
    Sim (runAtom I env a values) (runAtom I env' a values) T (Same T) (· = T) := by
  unfold runAtom
  split
  next => exact .pure ⟨rfl, rfl⟩
  next name _ kind =>
    have hn : IsPlain name := (plain (.variable name false) (by simp [Collector.names, kind])).1
    refine (Sim.get (R := fun s s' T' => s' = s.withTemps T ∧ T' = T) fun s => ⟨rfl, rfl⟩).bind
      fun s s' T' ⟨hs, hT⟩ => ?_
    subst hs hT
    exact .pure ⟨by rw [valueOf_withTemps I h hn], rfl⟩
  next => exact .pure ⟨rfl, rfl⟩
  next => exact .throw rfl
  next c kind =>
    split
    · exact .throw rfl
    · refine (sim_operate I c _ T).bind fun v v' T' ⟨hv, hT⟩ => ?_
      subst hv hT
      exact .pure ⟨rfl, rfl⟩

end Values

end EbLang.Execution
