import EbLang.Analysis
import EbLang.Proofs.Outcome

/-!
# Walks that agree

`Agree I Q x y` says that from every state with the property `I` two walks do the same, whether they
succeed or fail, and that what they give satisfies `Q`, together with the state they leave.  A walk
agrees with itself; then only the second half says anything.

There is one rule for each way to build a walk.  A walk is followed by others only if it succeeds, so
a state left by a failure need not have any property.
-/

namespace EbLang

variable {ε σ α β : Type}

/-- From every state with a property two walks do the same, and what they give satisfies a
predicate, together with the state they leave. -/
def Agree (I : σ → Prop) (Q : α → σ → Prop) (x y : ExceptT ε (StateM σ) α) : Prop :=
  ∀ s, I s → x.run.run s = y.run.run s ∧ Leads x s Q

/-- From every state with a property two walks do the same, and what they leave has it again. -/
abbrev Keep (I : σ → Prop) (x y : ExceptT ε (StateM σ) α) : Prop := Agree I (fun _ => I) x y

section Rules

variable {I : σ → Prop} {P Q : α → σ → Prop} {R : β → σ → Prop}
  {x y : ExceptT ε (StateM σ) α} {f g : α → ExceptT ε (StateM σ) β}
variable {J : σ → Prop} {k k' : σ → ExceptT ε (StateM σ) β}

/-- What a walk leads to from every state with a property. -/
theorem agree_self (h : ∀ s, I s → Leads x s Q) : Agree I Q x x :=
  fun s hs => ⟨rfl, h s hs⟩

theorem Agree.leads (h : Agree I Q x y) {s : σ} (hs : I s) : Leads x s Q := (h s hs).2

theorem Agree.imp (h : Agree I P x y) (imp : ∀ a s, P a s → Q a s) : Agree I Q x y :=
  fun s hs => ⟨(h s hs).1, (h.leads hs).imp imp⟩

/-- What a walk gives also satisfies what it ensures from every state. -/
theorem Agree.ensures {E : α → Prop} (h : Agree I Q x y) (hx : Ensures x E) :
    Agree I (fun a s => E a ∧ Q a s) x y :=
  fun s hs => ⟨(h s hs).1, (Ensures.leads hx).and (h.leads hs)⟩

/-- Agreement from more states is agreement from fewer. -/
theorem Agree.of_imp (h : Agree I Q x y) (imp : ∀ s, J s → I s) : Agree J Q x y :=
  fun s hs => h s (imp s hs)

/-- A fact that does not depend on the state may be kept aside. -/
theorem agree_of_and {p : Prop} (h : p → Agree I Q x y) : Agree (fun s => p ∧ I s) Q x y :=
  fun s hs => h hs.1 s hs.2

theorem agree_pure {a : α} (h : ∀ s, I s → Q a s) : Agree (ε := ε) I Q (pure a) (pure a) :=
  agree_self fun s hs => leads_pure (h s hs)

theorem agree_throw {e : ε} : Agree (ε := ε) I Q (throw e) (throw e) :=
  agree_self fun _ _ => leads_throw

theorem agree_bind (hx : Agree I P x y) (hf : ∀ a, Agree (P a) R (f a) (g a)) :
    Agree I R (x >>= f) (y >>= g) := by
  intro s hs
  obtain ⟨same, leads⟩ := hx s hs
  refine ⟨?_, leads_bind leads fun a s' ha => (hf a s' ha).2⟩
  simp only [ExceptT.run_bind, StateT.run_bind, ← same]
  cases run : x.run.run s with
  | mk r s' =>
    cases r with
    | error e => rfl
    | ok a => exact (hf a s' (leads a s' run)).1

/-- A state that is read is the one there is. -/
theorem agree_get (h : ∀ s, I s → Agree (fun s' => s' = s ∧ I s') R (k s) (k' s)) :
    Agree I R (get >>= k) (get >>= k') :=
  fun s hs => h s hs s ⟨rfl, hs⟩

/-- A state that is only looked at. -/
theorem agree_read (h : ∀ s, Agree I R (k s) (k' s)) : Agree I R (get >>= k) (get >>= k') :=
  agree_get fun s _ => (h s).of_imp fun _ hs => hs.2

theorem keep_pure (a : α) : Keep (ε := ε) I (pure a) (pure a) := agree_pure fun _ hs => hs

theorem agree_modify {change : σ → σ} (h : ∀ s, I s → J (change s)) :
    Agree (ε := ε) I (fun _ => J) (modify change) (modify change) := by
  intro s hs
  refine ⟨rfl, ?_⟩
  rintro a s' ⟨⟩
  exact h s hs

theorem run_attempt {s s' : σ} {r : Except ε α} (h : x.run.run s = (r, s')) :
    (tryCatch (some <$> x) fun _ => pure none : ExceptT ε (StateM σ) (Option α)).run.run s =
      (.ok r.toOption, s') := by
  have mapped : StateT.run (some <$> x : ExceptT ε (StateM σ) (Option α)) s = (r.map some, s') := by
    change (some <$> x).run.run s = _
    rw [ExceptT.run_map, StateT.run_map, h]
    rfl
  simp only [tryCatch, tryCatchThe, MonadExceptOf.tryCatch, ExceptT.tryCatch, ExceptT.run_mk,
    StateT.run_bind]
  rw [mapped]
  cases r with
  | error e => rfl
  | ok a => rfl

/-- A failure that is caught tells nothing of the state. -/
theorem agree_attempt (h : Agree I Q x y) :
    Agree I (fun o s => ∀ a, o = some a → Q a s) (tryCatch (some <$> x) fun _ => pure none)
      (tryCatch (some <$> y) fun _ => pure none) := by
  intro s hs
  obtain ⟨same, leads⟩ := h s hs
  cases run : x.run.run s with
  | mk r s1 =>
    refine ⟨by rw [run_attempt run, run_attempt (same.symm.trans run)], ?_⟩
    intro o s' gives a ha
    rw [Gives, run_attempt run] at gives
    cases r with
    | error e =>
      cases gives
      cases ha
    | ok b =>
      cases gives
      cases ha
      exact leads _ _ run

end Rules

/-! ## Loops -/

section Loops

variable {I : σ → Prop}

theorem keep_forM {f g : α → ExceptT ε (StateM σ) PUnit} (h : ∀ a, Keep I (f a) (g a)) :
    ∀ l : List α, Keep I (l.forM f) (l.forM g)
  | [] => keep_pure PUnit.unit
  | a :: l => agree_bind (h a) fun _ => keep_forM h l

end Loops

end EbLang
