import EbLang.Error
import Mathlib.Data.List.Forall2

/-!
# Outcomes of computations

The stages of an analysis are computations of several kinds: plain ones that may fail, ones that
also hand out numbers, and walks that keep their state when they fail.

*Results.*  `Ensures x P` says that whatever `x` gives satisfies `P`, from every state and for every
kind of computation.  A fact about what a stage gives is proved along its text, one rule for each way
to build a computation.

*States.*  `Gives x s a s'` says that a walk from the state `s` gives `a` and leaves `s'`.  What a
sequence gives, both halves gave.  `Leads x s P` says that whatever it gives from `s` satisfies `P`,
together with the state it leaves.
-/

namespace EbLang

variable {ε σ α β : Type} {m : Type → Type}

/-! ## What a computation ensures -/

/-- Computations of which it makes sense to say that what they give satisfies a predicate. -/
class Ensuring (m : Type → Type) [Monad m] where
  /-- Whatever the computation gives satisfies the predicate. -/
  Ensures : {α : Type} → m α → (α → Prop) → Prop
  ensures_pure : ∀ {α : Type} {a : α} {P : α → Prop}, P a → Ensures (pure a) P
  ensures_bind : ∀ {α β : Type} {x : m α} {f : α → m β} {P : α → Prop} {Q : β → Prop},
    Ensures x P → (∀ a, P a → Ensures (f a) Q) → Ensures (x >>= f) Q
  ensures_of_forall : ∀ {α : Type} {x : m α} {P : α → Prop}, (∀ a, P a) → Ensures x P

export Ensuring (Ensures ensures_pure ensures_bind ensures_of_forall)

instance : Ensuring Id where
  Ensures x P := P x.run
  ensures_pure h := h
  ensures_bind hx hf := hf _ hx
  ensures_of_forall h := h _

instance : Ensuring (Except ε) where
  Ensures x P := ∀ a, x = .ok a → P a
  ensures_pure h := by
    rintro _ ⟨⟩
    exact h
  ensures_bind {_ _ x _ _ _} hx hf := by
    intro b hb
    cases x with
    | error e => cases hb
    | ok a => exact hf a (hx a rfl) b hb
  ensures_of_forall h a _ := h a

instance [Monad m] [LawfulMonad m] [Ensuring m] : Ensuring (StateT σ m) where
  Ensures x P := ∀ s, Ensures (x.run s) fun r => P r.1
  ensures_pure h s := by
    rw [StateT.run_pure]
    exact ensures_pure h
  ensures_bind hx hf s := by
    rw [StateT.run_bind]
    exact ensures_bind (hx s) fun r hr => hf r.1 hr r.2
  ensures_of_forall h _ := ensures_of_forall fun r => h r.1

instance [Monad m] [LawfulMonad m] [Ensuring m] : Ensuring (ExceptT ε m) where
  Ensures x P := Ensures x.run fun r => ∀ a, r = .ok a → P a
  ensures_pure h := by
    rw [ExceptT.run_pure]
    refine ensures_pure ?_
    rintro _ ⟨⟩
    exact h
  ensures_bind hx hf := by
    rw [ExceptT.run_bind]
    refine ensures_bind hx fun r hr => ?_
    cases r with
    | error e => exact ensures_pure (by rintro _ ⟨⟩)
    | ok a => exact hf a (hr a rfl)
  ensures_of_forall h := ensures_of_forall fun _ a _ => h a

theorem forall_of_forall₂ {P : β → Prop} {l : List α} {bs : List β}
    (h : List.Forall₂ (fun _ b => P b) l bs) : ∀ b ∈ bs, P b := by
  induction h with
  | nil => exact List.forall_mem_nil _
  | cons hb _ ih => exact List.forall_mem_cons.mpr ⟨hb, ih⟩

theorem forall₂_imp_of_mem {R S : α → β → Prop} {l : List α} {l' : List β}
    (h : List.Forall₂ R l l') (imp : ∀ a ∈ l, ∀ b, R a b → S a b) : List.Forall₂ S l l' := by
  induction h with
  | nil => exact .nil
  | cons first _ ih =>
    obtain ⟨here, others⟩ := List.forall_mem_cons.mp imp
    exact .cons (here _ first) (ih others)

section Rules

variable [Monad m] [Ensuring m]
variable {f : α → m β}
variable {x : m α} {Q : β → Prop}

/-- A computation whose result does not matter may come first. -/
theorem ensures_then (hf : ∀ a, Ensures (f a) Q) : Ensures (x >>= f) Q :=
  ensures_bind (ensures_of_forall fun _ => trivial) fun a (_ : True) => hf a

theorem ensures_imp [LawfulMonad m] {P Q : α → Prop} (hx : Ensures x P)
    (h : ∀ a, P a → Q a) : Ensures x Q := by
  rw [← bind_pure x]
  exact ensures_bind hx fun a ha => ensures_pure (h a ha)

theorem ensures_map [LawfulMonad m] {f : α → β} {P : α → Prop}
    (hx : Ensures x P) (h : ∀ a, P a → Q (f a)) : Ensures (f <$> x) Q := by
  rw [map_eq_pure_bind]
  exact ensures_bind hx fun a ha => ensures_pure (h a ha)

/-- A loop keeps what every round keeps. -/
theorem ensures_foldlM {P : β → Prop} {f : β → α → m β} :
    ∀ {l : List α} {b : β}, P b → (∀ b a, a ∈ l → P b → Ensures (f b a) P) →
      Ensures (l.foldlM f b) P
  | [], _, hb, _ => by
    exact ensures_pure hb
  | a :: l, b, hb, h => by
    refine ensures_bind (h b a (.head l) hb) fun b' hb' => ?_
    exact ensures_foldlM hb' fun b a ha => h b a (.tail _ ha)

/-- The results of a map correspond to its arguments. -/
theorem ensures_mapM [LawfulMonad m] {R : α → β → Prop} :
    ∀ {l : List α}, (∀ a ∈ l, Ensures (f a) (R a)) → Ensures (l.mapM f) (List.Forall₂ R l)
  | [], _ => by
    exact ensures_pure .nil
  | a :: l, h => by
    rw [List.mapM_cons]
    refine ensures_bind (h a (.head l)) fun b hb => ?_
    refine ensures_bind (ensures_mapM fun a ha => h a (.tail _ ha)) fun bs hbs => ?_
    exact ensures_pure (.cons hb hbs)

/-- A map gives as many results, each of which satisfies what its computation ensures. -/
theorem ensures_mapM_forall [LawfulMonad m] {P : β → Prop} {l : List α}
    (h : ∀ a ∈ l, Ensures (f a) P) :
    Ensures (l.mapM f) fun bs => bs.length = l.length ∧ ∀ b ∈ bs, P b :=
  ensures_imp (ensures_mapM (R := fun _ b => P b) h) fun _ hbs =>
    ⟨hbs.length_eq.symm, forall_of_forall₂ hbs⟩

end Rules

/-- A plain computation gives what it gives. -/
theorem ensures_self {x : Except ε α} : Ensures x fun a => x = .ok a := fun _ h => h

variable {P : α → Prop} {x : ExceptT ε (StateM σ) α}

theorem ensures_and {x : Except ε α} {Q : α → Prop} (h : Ensures x P) (h' : Ensures x Q) :
    Ensures x fun a => P a ∧ Q a :=
  fun a ha => ⟨h a ha, h' a ha⟩

/-- What follows a computation only matters for what the computation ensures. -/
theorem bind_congr_of_ensures {x : StateM σ α} {f g : α → StateM σ β}
    (hx : Ensures x P) (h : ∀ a, P a → f a = g a) : x >>= f = x >>= g := by
  funext s
  exact congrFun (h _ (hx s)) _

/-! ## What a walk gives -/

/-- A walk from one state gives a value and leaves another state. -/
def Gives (x : ExceptT ε (StateM σ) α) (s : σ) (a : α) (s' : σ) : Prop :=
  x.run.run s = (.ok a, s')

/-- What a computation ensures holds of what it gives. -/
theorem Ensures.of_gives (hx : Ensures x P) {s s' : σ} {a : α} (h : Gives x s a s') : P a :=
  hx s a (congrArg Prod.fst h)

namespace Gives

/-- If a sequence gives a value, both halves do. -/
theorem of_bind {x : ExceptT ε (StateM σ) α} {f : α → ExceptT ε (StateM σ) β} {s s' : σ} {b : β}
    (h : Gives (x >>= f) s b s') : ∃ a s1, Gives x s a s1 ∧ Gives (f a) s1 b s' := by
  simp only [Gives, ExceptT.run_bind, StateT.run_bind] at h
  cases hx : x.run.run s with
  | mk r s1 =>
    rw [hx] at h
    cases r with
    | error e => cases h
    | ok a => exact ⟨a, s1, hx, h⟩

@[simp] theorem pure_iff {a b : α} {s s' : σ} :
    Gives (pure a : ExceptT ε (StateM σ) α) s b s' ↔ b = a ∧ s' = s := by
  constructor
  · intro h
    cases h
    exact ⟨rfl, rfl⟩
  · rintro ⟨rfl, rfl⟩
    rfl

end Gives

/-- What a check says of a result. -/
def resultAs (x : Except ε α) (check : α → Bool) : Bool :=
  match x with
  | .ok a => check a
  | .error _ => false

theorem exists_of_resultAs {x : Except ε α} {check : α → Bool} (h : resultAs x check = true) :
    ∃ a, x = .ok a ∧ check a = true := by
  cases x with
  | error => cases h
  | ok a => exact ⟨a, rfl, h⟩

/-- What a check says of what a walk gives and the state it leaves. -/
def givesAs (x : ExceptT ε (StateM σ) α) (s : σ) (check : α → σ → Bool) : Bool :=
  match x.run.run s with
  | (.ok a, s') => check a s'
  | (.error _, _) => false

theorem exists_of_givesAs {s : σ} {check : α → σ → Bool}
    (h : givesAs x s check = true) : ∃ a s', Gives x s a s' ∧ check a s' = true := by
  unfold givesAs at h
  split at h
  next a s' run => exact ⟨a, s', run, h⟩
  next => cases h

/-- Whatever a walk from one state gives satisfies a predicate, together with the state it leaves. -/
def Leads (x : ExceptT ε (StateM σ) α) (s : σ) (P : α → σ → Prop) : Prop :=
  ∀ a s', Gives x s a s' → P a s'

section Leads

variable {x : ExceptT ε (StateM σ) α} {f : α → ExceptT ε (StateM σ) β} {s s' : σ}
  {P : α → σ → Prop} {Q : β → σ → Prop}

theorem leads_pure {a : α} (h : P a s) : Leads (pure a : ExceptT ε (StateM σ) α) s P := by
  intro b s' hb
  obtain ⟨rfl, rfl⟩ := Gives.pure_iff.mp hb
  exact h

theorem leads_bind (hx : Leads x s P) (hf : ∀ a s', P a s' → Leads (f a) s' Q) :
    Leads (x >>= f) s Q := by
  intro b s' hb
  obtain ⟨a, s1, ha, hb⟩ := Gives.of_bind hb
  exact hf a s1 (hx a s1 ha) b s' hb

variable {P' : α → σ → Prop}

theorem Leads.imp (hx : Leads x s P) (h : ∀ a s', P a s' → P' a s') : Leads x s P' :=
  fun a s' ha => h a s' (hx a s' ha)

theorem leads_map {g : α → β} (h : Leads x s fun a s' => Q (g a) s') : Leads (g <$> x) s Q := by
  exact leads_bind h fun a s' ha => leads_pure ha

theorem leads_throw {e : ε} : Leads (throw e : ExceptT ε (StateM σ) α) s P := by
  rintro a s' ⟨⟩

theorem leads_throw_bind {e : ε} {f : β → ExceptT ε (StateM σ) α} : Leads (throw e >>= f) s P := by
  rintro a s' ⟨⟩

/-- A plain computation in a walk leaves the state alone. -/
theorem leads_lift {y : Except ε α} {P : α → Prop} (h : Ensures y P) :
    Leads (liftM y : ExceptT ε (StateM σ) α) s fun a s' => s' = s ∧ P a := by
  cases y with
  | error e => exact leads_throw
  | ok a => exact leads_pure ⟨rfl, h a rfl⟩

theorem leads_get {f : σ → ExceptT ε (StateM σ) β} (h : Leads (f s) s Q) : Leads (get >>= f) s Q :=
  leads_bind (P := fun a s' => a = s ∧ s' = s) (by rintro a s' ⟨⟩; exact ⟨rfl, rfl⟩)
    (by rintro a s' ⟨rfl, rfl⟩; exact h)

theorem leads_set {f : PUnit → ExceptT ε (StateM σ) β} (h : Leads (f ⟨⟩) s' Q) :
    Leads (set s' >>= f) s Q :=
  leads_bind (P := fun _ t => t = s') (by rintro a t ⟨⟩; rfl) (by rintro a t rfl; exact h)

theorem leads_modify {g : σ → σ} {f : PUnit → ExceptT ε (StateM σ) β}
    (h : Leads (f ⟨⟩) (g s) Q) : Leads (modify g >>= f) s Q :=
  leads_bind (P := fun _ t => t = g s) (by rintro a t ⟨⟩; rfl) (by rintro a t rfl; exact h)

/-- What a computation ensures it leads to. -/
theorem Ensures.leads {P : α → Prop} (hx : Ensures x P) : Leads x s fun a _ => P a :=
  fun _ _ ha => Ensures.of_gives hx ha

theorem Leads.and (h : Leads x s P) (h' : Leads x s P') : Leads x s fun a s' => P a s' ∧ P' a s' :=
  fun a s' ha => ⟨h a s' ha, h' a s' ha⟩

/-- A loop keeps what every round keeps. -/
theorem leads_foldlM {P : β → σ → Prop} {f : β → α → ExceptT ε (StateM σ) β} :
    ∀ {l : List α} {b : β} {s : σ}, P b s → (∀ b s a, a ∈ l → P b s → Leads (f b a) s P) →
      Leads (l.foldlM f b) s P
  | [], _, _, hb, _ => by
    exact leads_pure hb
  | a :: l, b, s, hb, h => by
    refine leads_bind (h b s a (.head l) hb) fun b' s' hb' => ?_
    exact leads_foldlM hb' fun b s a ha => h b s a (.tail _ ha)

/-- A loop keeps what every round keeps, which may speak of what was read so far. -/
theorem leads_foldlM_read {l : List α} {P : List α → β → σ → Prop}
    {f : β → α → ExceptT ε (StateM σ) β}
    (h : ∀ read a rest b s, l = read ++ a :: rest → P read b s → Leads (f b a) s (P (read ++ [a]))) :
    ∀ {rest read : List α} {b : β} {s : σ}, l = read ++ rest → P read b s →
      Leads (rest.foldlM f b) s (P l)
  | [], read, _, _, whole, hb => by
    rw [List.append_nil] at whole
    rw [List.foldlM_nil, whole]
    exact leads_pure hb
  | a :: rest, read, b, s, whole, hb => by
    refine leads_bind (h read a rest b s whole hb) fun b' s' hb' => ?_
    exact leads_foldlM_read h (by rw [whole, List.append_assoc]; rfl) hb'

/-- A map keeps what every round keeps, and its results correspond to its arguments. -/
theorem leads_mapM {I : σ → Prop} {R : α → β → Prop} :
    ∀ {l : List α} {s : σ}, I s → (∀ s a, a ∈ l → I s → Leads (f a) s fun b s' => R a b ∧ I s') →
      Leads (l.mapM f) s fun bs s' => List.Forall₂ R l bs ∧ I s'
  | [], _, hs, _ => by
    exact leads_pure ⟨.nil, hs⟩
  | a :: l, s, hs, h => by
    rw [List.mapM_cons]
    refine leads_bind (h s a (.head l) hs) ?_
    rintro b s1 ⟨hb, hs1⟩
    refine leads_bind (leads_mapM hs1 fun s a ha => h s a (.tail _ ha)) ?_
    rintro bs s2 ⟨hbs, hs2⟩
    exact leads_pure ⟨.cons hb hbs, hs2⟩

end Leads

end EbLang
