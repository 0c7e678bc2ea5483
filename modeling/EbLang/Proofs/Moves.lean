import EbLang.Proofs.Outcome
import Mathlib.Logic.Relation

/-!
# What walks do whatever their outcome

A walk that fails keeps what it has changed so far.  `Moves R x` says that the walk `x` takes every
state through steps of `R`, also when it fails, and `MovesFrom R x s` that it does so with one state.
There is one rule for each way to build a walk.
-/

namespace EbLang

open Relation

variable {ε σ α β : Type}
variable {x : ExceptT ε (StateM σ) α}

/-- A walk from one state fails and leaves another state. -/
def Fails (x : ExceptT ε (StateM σ) α) (s : σ) (e : ε) (s' : σ) : Prop :=
  x.run.run s = (.error e, s')

theorem gives_or_fails (x : ExceptT ε (StateM σ) α) (s : σ) :
    (∃ a s', Gives x s a s') ∨ ∃ e s', Fails x s e s' := by
  cases run : x.run.run s with
  | mk r s' =>
    cases r with
    | ok a => exact .inl ⟨a, s', run⟩
    | error e => exact .inr ⟨e, s', run⟩

theorem Gives.run_bind {f : α → ExceptT ε (StateM σ) β} {s s' : σ}
    {a : α} (h : Gives x s a s') : (x >>= f).run.run s = (f a).run.run s' := by
  rw [ExceptT.run_bind, StateT.run_bind, h]
  rfl

theorem Fails.run_bind {f : α → ExceptT ε (StateM σ) β} {s s' : σ}
    {e : ε} (h : Fails x s e s') : Fails (x >>= f) s e s' := by
  rw [Fails, ExceptT.run_bind, StateT.run_bind, h]
  rfl

/-- What follows a failure that is caught starts from what the failure left. -/
theorem leads_tryCatch {handle : ε → ExceptT ε (StateM σ) α} {s : σ}
    {Q : α → σ → Prop} (hx : Leads x s Q)
    (hf : ∀ e s', Fails x s e s' → Leads (handle e) s' Q) : Leads (tryCatch x handle) s Q := by
  intro a s' gives
  simp only [Gives, tryCatch, tryCatchThe, MonadExceptOf.tryCatch, ExceptT.tryCatch, ExceptT.run_mk,
    StateT.run_bind] at gives
  rcases gives_or_fails x s with ⟨b, s1, ran⟩ | ⟨e, s1, ran⟩
  · change StateT.run x s = _ at ran
    rw [ran] at gives
    cases gives
    exact hx _ _ ran
  · have failed := ran
    change StateT.run x s = _ at ran
    rw [ran] at gives
    exact hf e s1 failed a s' gives

/-- Whatever its outcome, the walk takes a state through some steps. -/
def MovesFrom (R : σ → σ → Prop) (x : ExceptT ε (StateM σ) α) (s : σ) : Prop :=
  ReflTransGen R s (x.run.run s).2

/-- Whatever its outcome, the walk takes every state through some steps. -/
def Moves (R : σ → σ → Prop) (x : ExceptT ε (StateM σ) α) : Prop := ∀ s, MovesFrom R x s

section Rules

variable {R : σ → σ → Prop} {x : ExceptT ε (StateM σ) α} {f : α → ExceptT ε (StateM σ) β}

/-- What no step breaks is not broken by the walk. -/
theorem Moves.keeps {P : σ → Prop} (h : Moves R x) (step : ∀ s s', R s s' → P s → P s') {s : σ}
    (holds : P s) : P (x.run.run s).2 := by
  have path : ReflTransGen R s (x.run.run s).2 := h s
  generalize (x.run.run s).2 = s' at path
  induction path with
  | refl => exact holds
  | tail _ last ih => exact step _ _ last ih

theorem moves_pure (a : α) : Moves R (pure a : ExceptT ε (StateM σ) α) := fun _ => .refl

theorem moves_throw (e : ε) : Moves R (throw e : ExceptT ε (StateM σ) α) := fun _ => .refl

theorem moves_get : Moves R (get : ExceptT ε (StateM σ) σ) := fun _ => .refl

theorem moves_modify {change : σ → σ} (h : ∀ s, R s (change s)) :
    Moves R (modify change : ExceptT ε (StateM σ) PUnit) :=
  fun s => .single (h s)

theorem movesFrom_get {k : σ → ExceptT ε (StateM σ) β} {s : σ} (h : MovesFrom R (k s) s) :
    MovesFrom R (get >>= k) s :=
  h

theorem movesFrom_bind {s : σ} (hx : MovesFrom R x s)
    (hf : ∀ a s', Gives x s a s' → MovesFrom R (f a) s') : MovesFrom R (x >>= f) s := by
  rw [MovesFrom] at hx ⊢
  rcases gives_or_fails x s with ⟨a, s1, gives⟩ | ⟨e, s1, fails⟩
  · rw [gives] at hx
    rw [gives.run_bind]
    exact hx.trans (hf a s1 gives)
  · rw [fails] at hx
    rw [fails.run_bind]
    exact hx

theorem moves_bind (hx : Moves R x) (hf : ∀ a, Moves R (f a)) : Moves R (x >>= f) :=
  fun s => movesFrom_bind (hx s) fun a s' _ => hf a s'

theorem moves_map {k : α → β} (hx : Moves R x) : Moves R (k <$> x) := by
  exact moves_bind hx fun a => moves_pure _

/-- A failure that is caught may leave a mark. -/
theorem moves_tryCatch {handle : ε → ExceptT ε (StateM σ) α} (hx : Moves R x)
    (hf : ∀ e, Moves R (handle e)) : Moves R (tryCatch x handle) := by
  intro s
  have first := hx s
  rw [MovesFrom] at first ⊢
  simp only [tryCatch, tryCatchThe, MonadExceptOf.tryCatch, ExceptT.tryCatch, ExceptT.run_mk,
    StateT.run_bind]
  cases run : x.run.run s with
  | mk r s1 =>
    rw [run] at first
    replace run : StateT.run x s = (r, s1) := run
    rw [run]
    cases r with
    | error e => exact first.trans (hf e s1)
    | ok a => exact first

theorem moves_mapM (hf : ∀ a, Moves R (f a)) (l : List α) : Moves R (l.mapM f) := by
  induction l with
  | nil =>
    exact moves_pure _
  | cons a l ih =>
    rw [List.mapM_cons]
    exact moves_bind (hf a) fun b => moves_bind ih fun bs => moves_pure _

theorem moves_forM {f : α → ExceptT ε (StateM σ) PUnit} (hf : ∀ a, Moves R (f a)) (l : List α) :
    Moves R (l.forM f) := by
  induction l with
  | nil => exact moves_pure _
  | cons a l ih => exact moves_bind (hf a) fun _ => ih

/-- Something that may fail but has no state. -/
theorem moves_liftExcept (e : Except ε α) : Moves R (liftM e : ExceptT ε (StateM σ) α) := by
  cases e with
  | error e => exact moves_throw e
  | ok a => exact moves_pure a

/-! ## Steps and outcomes -/

/-- Whatever its outcome, the walk takes a state through some steps, and what it gives satisfies a
predicate, together with the state it leaves. -/
def Tells (R : σ → σ → Prop) (x : ExceptT ε (StateM σ) α) (s : σ) (Q : α → σ → Prop) : Prop :=
  MovesFrom R x s ∧ Leads x s Q

variable {s : σ} {P Q : α → σ → Prop} {S : β → σ → Prop}

theorem tells_pure {a : α} (h : Q a s) : Tells (ε := ε) R (pure a) s Q := ⟨.refl, leads_pure h⟩

theorem tells_throw {e : ε} : Tells (ε := ε) R (throw e) s Q := ⟨.refl, leads_throw⟩

theorem tells_get {k : σ → ExceptT ε (StateM σ) β} (h : Tells R (k s) s S) :
    Tells R (get >>= k) s S :=
  ⟨h.1, leads_get h.2⟩

theorem tells_bind (hx : Tells R x s P) (hf : ∀ a s', P a s' → Tells R (f a) s' S) :
    Tells R (x >>= f) s S :=
  ⟨movesFrom_bind hx.1 fun a s' gives => (hf a s' (hx.2 a s' gives)).1,
    leads_bind hx.2 fun a s' h => (hf a s' h).2⟩

theorem tells_modify {change : σ → σ} {k : PUnit → ExceptT ε (StateM σ) β}
    (steps : ReflTransGen R s (change s)) (h : Tells R (k ⟨⟩) (change s) S) :
    Tells R (modify change >>= k) s S :=
  ⟨movesFrom_bind steps fun _ _ gives => by cases gives; exact h.1, leads_modify h.2⟩

end Rules

end EbLang
