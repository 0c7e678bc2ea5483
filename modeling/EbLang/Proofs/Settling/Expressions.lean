import EbLang.Proofs.Settling
import EbLang.Proofs.Typing.Rereading

/-!
# Settled expressions

When an expression has been settled its calls are bound by one more reading, which narrows nothing.
That reading takes the type of every variable anew, and what it leaves is checked: so every step has
one type, names have the types of their variables, and integers fit.

Both readings follow what type checking left: a step that is not an operator's stays as it was, but
for the types of variables.  So a call that was bound earlier still accepts its operands, and the
value of the expression has the type that the context asks for unless an operator gives it.
-/

namespace EbLang

/-! ## Ready expressions -/

/-- A name has the type of the variable or global it is bound to. -/
def Atom.Agrees (s : Scopes) (a : Atom) : Prop :=
  ∀ name b, a.kind = .var name (some b) → a.ty = s.bindingType b

/-- Every integer is a value of the integer type it has, negated if it is negated next. -/
def LiteralsFit (as : List Atom) : Prop :=
  ∀ i a (n : Nat) p, as[i]? = some a → a.kind = .literal (.int n) → a.ty.prim? = some p →
    p.isInt = true →
    Constant.fits (if as[i + 1]?.any Complete.isNegation then -(n : Int) else n) p = true

/-- Nothing about an expression is open, its names have the types of their variables and its
integers fit. -/
structure Expr.Ready (s : Scopes) (e : Expr Atom) : Prop where
  bound : ∀ a ∈ e.terms, Verify.isBound a = true
  agrees : ∀ a ∈ e.terms, a.Agrees s
  fits : LiteralsFit e.terms

theorem Expr.Ready.settles {s s' : Scopes} {e : Expr Atom} (h : e.Ready s) (settles : s.Settles s') :
    e.Ready s' := by
  refine ⟨h.bound, fun a member name b kind => ?_, h.fits⟩
  have agrees := h.agrees a member name b kind
  have complete := (Bool.and_eq_true_iff.mp (h.bound a member)).1
  rw [agrees] at complete ⊢
  exact (settles.bindingType complete).symm

/-- The steps of an expression accept their operands, and what it gives passes a test unless an
operator gives it. -/
structure Expr.Passes (structs : StructTable) (asked : Ty → Bool) (e : Expr Atom) : Prop where
  accepts : AllAccept structs [] e.terms
  gives : ∀ a ∈ e.terms.getLast?, a.isOperation = false → asked a.ty = true

theorem Expr.Passes.imp {structs : StructTable} {asked asked' : Ty → Bool} {e : Expr Atom}
    (h : e.Passes structs asked) (imp : ∀ ty, asked ty = true → asked' ty = true) :
    e.Passes structs asked' :=
  ⟨h.accepts, fun a final plain => imp a.ty (h.gives a final plain)⟩

/-! ## Settling an expression -/

namespace Complete

section Settle

/-- How far the reading that settles an expression has come. -/
abbrev Reading (known : List Nat) (s0 : Scopes) (p : Progress) (s : Scopes) : Prop :=
  p.Reads (AtomKind.FoundIn known) (fun _ id => ¬ (s0.typeOf id).isComplete = true) s0.Settles s

variable {known : List Nat} {s0 s : Scopes} {p : Progress}
variable {a : Atom} {c : Call} {top : Operand} {position : Position}

theorem settling : Linking (fun _ _ => True) (fun _ id => ¬ (s.typeOf id).isComplete = true) s.Settles :=
  linking_retypes fun _ complete => complete

theorem reads_bind (h : Reading known s0 p s) {args rest : List Operand} (args_among : args ⊆ p.stack)
    (rest_among : rest ⊆ p.stack) :
    Leads (bind p a c args rest) s fun p' s' => Reading known s0 p' s' := by
  refine leads_bind Walk.leads_located ?_
  rintro resolution _ ⟨resolved, rfl⟩
  split
  next => exact h.bindCall settling (fun _ => trivial) args_among rest_among resolved
  next => exact leads_throw

theorem reads_call (h : Reading known s0 p s) (kind : a.kind = .call c) :
    Leads (call p a c) s fun p' s' => Reading known s0 p' s' := by
  have found : a.kind.FoundIn known := by
    rw [kind]
    trivial
  unfold call
  split
  next => exact leads_throw
  next args rest operands =>
    obtain ⟨args_among, rest_among⟩ := Progress.operands?_subset operands
    split
    next => exact leads_pure (h.push_plain found rest_among)
    next =>
      split
      next => exact leads_throw
      next settled _ =>
        refine leads_bind (h.narrowAll settling args_among fun _ _ => trivial) ?_
        rintro p' s' ⟨reads, stack⟩
        rw [← stack] at rest_among
        exact leads_pure (reads.push_plain found rest_among)
    next => exact leads_pure (h.push_plain found rest_among)
    next => exact leads_pure (h.pushOpen settling found args_among rest_among fun _ _ => trivial)
    next => exact reads_bind h args_among rest_among

theorem reads_step (h : Reading known s0 p s) (found : a.kind.FoundIn known) :
    Leads (step p a) s fun p' s' => Reading known s0 p' s' := by
  unfold step
  split
  next =>
    refine leads_pure (h.pushLeaf found fun _ id member => ?_)
    cases List.mem_singleton.mp member
  next => exact h.pushVar settling found
  next kind => exact reads_call h kind
  next =>
    split
    next => exact leads_throw
    next base rest stack =>
      refine leads_pure (h.push_plain found ?_)
      rw [stack]
      exact List.subset_cons_self base rest

theorem reads_fitTop (h : Reading known s0 p s) {expected : Option Ty} (among : top ∈ p.stack) :
    Leads (fitTop p top expected position) s fun r s' =>
      Reading known s0 r.2 s' ∧ r.2.stack = p.stack := by
  cases expected with
  | none => exact leads_pure ⟨h, rfl⟩
  | some expected => exact (h.apply settling among).imp fun _ _ applied => applied.1

theorem reads_settleTop (h : Reading known s0 p s) {ty : Ty} (among : top ∈ p.stack) :
    Leads (settleTop p top ty position) s fun p' s' => Reading known s0 p' s' := by
  unfold settleTop
  split
  next => exact leads_pure h
  next =>
    split
    next => exact leads_throw
    next settled _ =>
      exact (h.narrow settling (h.linked top among) trivial).imp fun _ _ reads => reads.1

/-- Settling an expression changes no variable that is settled. -/
theorem leads_settle {e : Expr Atom} (expected : Option Ty)
    (found : ∀ a ∈ e.terms, a.kind.FoundIn known) :
    Leads (settle e expected) s fun steps s' =>
      (∀ a ∈ steps, a.kind.FoundIn known) ∧ s.Settles s' := by
  refine leads_bind (leads_foldlM (.start (.refl s)) fun p s' a member reads =>
    reads_step reads (found a member)) ?_
  intro p s' reads
  split
  next => exact leads_throw
  next top others stack =>
    have among : top ∈ p.stack := by
      rw [stack]
      exact List.mem_cons_self
    refine leads_bind (reads_fitTop reads among) ?_
    rintro ⟨ty, q⟩ s1 ⟨reads', same⟩
    refine leads_bind (reads_settleTop reads' (by rwa [same])) ?_
    intro r s2 reads''
    exact leads_pure ⟨reads''.found_steps fun _ => trivial, reads''.state⟩

end Settle

/-! ## Binding what was put off -/

/-- Whether a call is bound. -/
def isTargeted : AtomKind → Bool
  | .call c => c.target.isSome
  | .literal _ | .var _ _ | .member _ => true

/-- How far the last reading of an expression has come: what it has read is bound, and no operand is
linked to anything. -/
structure Finishes (known : List Nat) (s : Scopes) (p : Progress) : Prop where
  done : ∀ a ∈ p.done, a.kind.FoundIn known ∧ isTargeted a.kind = true ∧ a.Agrees s
  plain : ∀ o ∈ p.stack, o.cells = []

namespace Finishes

variable {known : List Nat} {s : Scopes} {p : Progress}

theorem start : Finishes known s {} := ⟨List.forall_mem_nil _, List.forall_mem_nil _⟩

theorem push (h : Finishes known s p) {a : Atom} {ty : Ty} {start : Nat} {rest : List Operand}
    (done : a.kind.FoundIn known ∧ isTargeted a.kind = true ∧ a.Agrees s) (among : rest ⊆ p.stack) :
    Finishes known s (p.push a ⟨ty, [], start⟩ rest) where
  done := List.forall_mem_append.mpr ⟨h.done, List.forall_mem_singleton.mpr done⟩
  plain := List.forall_mem_cons.mpr ⟨rfl, fun o member => h.plain o (among member)⟩

/-- Fitting operands that are not linked only notes conversions. -/
theorem fit :
    ∀ {p : Progress} {args : List Operand} {casts : List (Option Signature)} {params : List Ty},
      Finishes known s p → (∀ o ∈ args, o.cells = []) →
      Leads (p.fit args casts params) s fun p' s' => s' = s ∧ Finishes known s p' ∧ p'.stack = p.stack
  | p, arg :: args, cast :: casts, param :: params, h, plain => by
    obtain ⟨first, others⟩ := List.forall_mem_cons.mp plain
    unfold Progress.fit
    cases cast with
    | some cast => exact fit (p := p.addCast _ cast) ⟨h.done, h.plain⟩ others
    | none =>
      rw [first]
      refine leads_bind (Progress.leads_narrow (P := fun p' s' => s' = s ∧ p' = p) ⟨rfl, rfl⟩) ?_
      rintro p' s' ⟨same, same'⟩
      rw [same, same']
      exact fit h others
  | p, [], _, _, h, _ | p, _ :: _, [], _, h, _ | p, _ :: _, _ :: _, [], h, _ => by
    exact leads_pure ⟨rfl, h, rfl⟩

theorem bind (h : Finishes known s p) {a : Atom} {c : Call} {args rest : List Operand}
    (args_among : args ⊆ p.stack) (rest_among : rest ⊆ p.stack) :
    Leads (Complete.bind p a c args rest) s fun p' s' => s' = s ∧ Finishes known s p' := by
  refine leads_bind Walk.leads_located ?_
  rintro resolution _ ⟨-, rfl⟩
  split
  next target casts =>
    refine leads_bind (h.fit fun o member => h.plain o (args_among member)) ?_
    rintro p' _ ⟨rfl, finishes, stack⟩
    rw [← stack] at rest_among
    refine leads_pure ⟨rfl, finishes.push ⟨trivial, rfl, ?_⟩ rest_among⟩
    rintro name b ⟨⟩
  next => exact leads_throw

theorem finishStep (h : Finishes known s p) {a : Atom} (found : a.kind.FoundIn known) :
    Leads (finishStep p a) s fun p' s' => s' = s ∧ Finishes known s p' := by
  have other (no : ∀ name b, a.kind ≠ .var name b) : a.Agrees s :=
    fun name b kind => absurd kind (no name (some b))
  unfold Complete.finishStep
  split
  next kind =>
    refine leads_pure ⟨rfl, h.push ⟨found, by rw [kind]; rfl, other ?_⟩ (List.Subset.refl _)⟩
    rw [kind]
    simp
  next kind =>
    rw [kind] at found
    obtain ⟨b, bound, -⟩ := found
    cases bound
  next b kind =>
    refine leads_get (leads_pure ⟨rfl, h.push ⟨found, by rw [kind]; rfl, ?_⟩ (List.Subset.refl _)⟩)
    intro name b' kind'
    cases kind.symm.trans kind'
    rfl
  next kind =>
    refine leads_pure ⟨rfl, h.push ⟨found, by rw [kind]; rfl, other ?_⟩ (List.tail_sublist _).subset⟩
    rw [kind]
    simp
  next c kind =>
    have rest_among : p.stack.drop c.argCount ⊆ p.stack := List.drop_subset _ _
    split
    next target bound =>
      refine leads_pure ⟨rfl, h.push ⟨found, by rw [kind, isTargeted, bound]; rfl, other ?_⟩ rest_among⟩
      rw [kind]
      simp
    next =>
      refine h.bind (fun o member => ?_) rest_among
      exact List.mem_of_mem_take (List.mem_reverse.mp member)

/-- The steps with their conversions are bound. -/
theorem bound_steps (h : Finishes known s p) :
    ∀ a ∈ p.steps, a.kind.FoundIn known ∧ isTargeted a.kind = true ∧ a.Agrees s := by
  intro a member
  obtain ⟨e, step, member⟩ := List.mem_flatMap.mp member
  rcases List.mem_cons.mp member with rfl | member
  · exact h.done _ (List.fst_mem_of_mem_zipIdx step)
  · obtain ⟨c, -, rfl⟩ := List.mem_map.mp member
    refine ⟨trivial, rfl, ?_⟩
    rintro name b ⟨⟩

end Finishes

theorem fits_of_checkRange {a : Atom} {negated : Bool} (h : checkRange a negated = .ok ()) {n : Nat}
    {p : Prim} (kind : a.kind = .literal (.int n)) (prim : a.ty.prim? = some p)
    (isInt : p.isInt = true) : Constant.fits (if negated then -(n : Int) else n) p = true := by
  cases fits : Constant.fits (if negated then -(n : Int) else n) p with
  | true => rfl
  | false => simp [checkRange, kind, prim, isInt, fits] at h

theorem ensures_checkSteps :
    ∀ as : List Atom, Ensures (checkSteps as) fun _ =>
      (∀ a ∈ as, a.ty.isComplete = true) ∧ LiteralsFit as
  | [] => by
    exact ensures_pure ⟨List.forall_mem_nil _, by simp [LiteralsFit]⟩
  | a :: as => by
    unfold checkSteps
    split
    next => exact ensures_bind (P := fun _ => False) (by rintro _ ⟨⟩) fun _ no => no.elim
    next complete =>
      refine ensures_bind ensures_self fun _ range => ?_
      refine ensures_imp (ensures_checkSteps as) ?_
      rintro _ ⟨others, fits⟩
      refine ⟨List.forall_mem_cons.mpr ⟨by simpa using complete, others⟩, ?_⟩
      intro i b n p found kind prim isInt
      cases i with
      | succ i => exact fits i b n p found kind prim isInt
      | zero =>
        cases found
        have := fits_of_checkRange range kind prim isInt
        rwa [List.head?_eq_getElem?] at this

variable {known : List Nat} {s : Scopes}

theorem leads_finish {steps : List Atom} (found : ∀ a ∈ steps, a.kind.FoundIn known) (span : Span) :
    Leads (finish steps) s fun as s' => s' = s ∧ Expr.Ready s ⟨as, span⟩ := by
  have reading : Leads (steps.foldlM finishStep {}) s fun p s' => s' = s ∧ Finishes known s p := by
    refine leads_foldlM ⟨rfl, .start⟩ ?_
    rintro p s' a member ⟨same, finishes⟩
    rw [same]
    exact finishes.finishStep (found a member)
  refine leads_bind reading ?_
  rintro p s' ⟨same, finishes⟩
  rw [same]
  refine leads_bind (leads_lift (ensures_checkSteps p.steps)) ?_
  rintro _ s' ⟨same', complete, fits⟩
  rw [same']
  have bound := finishes.bound_steps
  refine leads_pure ⟨rfl, fun a member => ?_, fun a member => (bound a member).2.2, fits⟩
  obtain ⟨isFound, targeted, -⟩ := bound a member
  rw [Verify.isBound, complete a member]
  cases kind : a.kind with
  | literal => rfl
  | var =>
    rw [kind] at isFound
    obtain ⟨b, rfl, -⟩ := isFound
    rfl
  | call =>
    rw [kind] at targeted
    exact targeted
  | member =>
    rw [kind] at isFound
    exact isFound

/-! ## What a settled expression gives -/

section Gives

variable {structs : StructTable} {known : List Nat} {s : Scopes}
variable {s' : Scopes} {top : Operand} {position : Position} {e : Expr Atom}

/-- A known variable that is settled keeps its type. -/
theorem bindingType_eq {b : Binding} (isKnown : b.IsKnown known)
    (state : ∀ id ∈ known, (s.typeOf id).isComplete = true) (settles : s.Settles s') :
    s'.bindingType b = s.bindingType b := by
  cases b with
  | localVar id => exact settles.types id (state id isKnown)
  | globalVar => rfl

/-- A step that repeats a known one is not changed by reading it once more. -/
theorem reread_of_repeats {a b : Atom} (repeats : a.Repeats s b)
    (found : b.kind.FoundIn known) (state : ∀ id ∈ known, (s.typeOf id).isComplete = true)
    (settles : s.Settles s') : a.reread s' = a := by
  by_cases named : ∃ name binding, a.kind = .var name (some binding)
  · obtain ⟨name, binding, kind⟩ := named
    have again := repeats (by rw [Atom.isOperation, kind])
    have kind' : b.kind = .var name (some binding) := by
      rw [← Atom.kind_reread s, ← again, kind]
    rw [kind'] at found
    obtain ⟨_, bound, isKnown⟩ := found
    cases bound
    rw [Atom.reread_of_var kind, bindingType_eq isKnown state settles]
    rw [Atom.reread_of_var kind'] at again
    rw [again]
  · exact Atom.reread_of_not_var fun name binding kind => named ⟨name, binding, kind⟩

variable {p : Progress}

/-- The value on top is made to fit a type, if the context asks for one. -/
theorem sound_fitTop {expected : Option Ty} {j : Nat}
    (h : p.Sound structs) (last : j + 1 = p.index) (stands : top.Stands p j) :
    Leads (fitTop p top expected position) s fun r _ => r.2.Sound structs ∧
      r.2.arities = p.arities ∧
      (r.1.isComplete = false → ∀ i, Cell.step i ∈ top.cells → r.2.Movable i) ∧
      ∀ ty ∈ expected, ty.isComplete = true → r.1.isComplete = true ∧
        ∀ s0, (∀ a, p.done[j]? = some a → a.reread s0 = a) →
          ∃ b, r.2.Shows j b ∧ b.Meets s0 ty := by
  cases expected with
  | none => exact leads_pure ⟨h, rfl, fun _ i linked => (stands.links i linked).2, by simp⟩
  | some expected =>
    refine (h.apply last stands).imp ?_
    rintro r s' ⟨sound, arities, movable, meets⟩
    refine ⟨sound, arities, movable, fun ty asked settled => ?_⟩
    cases Option.mem_some.mp asked
    exact meets settled

theorem sound_settleTop {ty : Ty} (h : p.Sound structs)
    (movable : ty.isComplete = false → ∀ i, Cell.step i ∈ top.cells → p.Movable i) :
    Leads (settleTop p top ty position) s fun p' _ => p'.Sound structs ∧ p'.arities = p.arities ∧
      (ty.isComplete = true → p' = p) := by
  unfold settleTop
  split
  next => exact leads_pure ⟨h, rfl, fun _ => rfl⟩
  next isOpen =>
    split
    next => exact leads_throw
    next settled _ =>
      refine (h.narrow settled (movable (Bool.eq_false_iff.mpr isOpen))).imp ?_
      rintro p' s' ⟨sound, -, agree, -⟩
      exact ⟨sound, agree.arities, fun complete => absurd complete isOpen⟩

/-- The reading that settles an expression repeats it. -/
theorem rereads_settle (found : ∀ a ∈ e.terms, a.kind.FoundIn known)
    (accepts : AllAccept structs [] e.terms)
    (state : ∀ id ∈ known, (s.typeOf id).isComplete = true) :
    Leads (e.terms.foldlM step {}) s fun p s' => p.Rereads structs s e.terms ∧
      Reading known s p s' := by
  refine leads_foldlM_read (l := e.terms) (P := fun read (p : Progress) s' => p.Rereads structs s read ∧
    Reading known s p s') ?_ (List.nil_append _).symm ⟨.start, .start (.refl s)⟩
  rintro read a rest p s' whole ⟨rereads, reads⟩
  have member : a ∈ e.terms := by
    rw [whole]
    simp
  rw [whole, allAccept_append] at accepts
  refine (rereads_step rereads accepts.2.1 fun name b kind => ?_).and
    (reads_step reads (found a member))
  have here := found a member
  rw [kind] at here
  obtain ⟨_, bound, isKnown⟩ := here
  cases bound
  exact bindingType_eq isKnown state reads.state

/-- A settled expression accepts its operands, and meets what the context asks for. -/
theorem accepts_settle (expected : Option Ty)
    (found : ∀ a ∈ e.terms, a.kind.FoundIn known) (accepts : AllAccept structs [] e.terms)
    (state : ∀ id ∈ known, (s.typeOf id).isComplete = true) :
    Leads (settle e expected) s fun steps s' => s.Settles s' → AllAccept structs [] steps ∧
      ∀ ty ∈ expected, ty.isComplete = true → ∀ a ∈ steps.getLast?, a.Meets s' ty := by
  refine leads_bind (rereads_settle found accepts state) ?_
  rintro p s1 ⟨rereads, reads⟩
  split
  next => exact leads_throw
  next top others stack =>
    obtain ⟨j, js, lastSteps, last, stands⟩ := rereads.tracks.top stack
    refine leads_bind (sound_fitTop rereads.tracks.sound last stands) ?_
    rintro ⟨ty, q⟩ s2 ⟨sound, arities, movable, meets⟩
    refine leads_bind (sound_settleTop sound movable) ?_
    rintro r s3 ⟨sound', arities', same⟩
    refine leads_pure fun settles => ?_
    obtain ⟨accepts', shown⟩ := sound'.allAccept
    refine ⟨accepts', fun asked among settled a final => ?_⟩
    obtain ⟨complete, fits⟩ := meets asked among settled
    have top : j ∈ (lasts p.arities).head? := by
      rw [lastSteps]
      rfl
    rw [arities', arities] at shown
    obtain ⟨b, before, a0, done, repeats⟩ := exists_mem_head?_of_forall₂ rereads.repeats top
    obtain ⟨a', final', shows⟩ := exists_mem_head?_of_forall₂ shown top
    rw [head?_lastAtoms] at before final'
    cases Option.mem_unique final final'
    have stable := reread_of_repeats repeats (found b (List.mem_of_getLast? before)) state settles
    obtain ⟨b', shows', meets'⟩ := fits s3 fun a1 here => by
      cases done.symm.trans here
      exact stable
    rw [same complete] at shows
    cases sound.shows_unique shows shows'
    exact meets'

/-- Binding what was put off keeps what the steps accept and what the last one gives. -/
theorem accepts_finish {steps : List Atom} (found : ∀ a ∈ steps, a.kind.FoundIn known)
    (accepts : AllAccept structs [] steps) :
    Leads (finish steps) s fun as _ => AllAccept structs [] as ∧
      ∀ asked, (∀ a ∈ steps.getLast?, a.Meets s asked) → ∀ a ∈ as.getLast?,
        a.isOperation = false → a.ty.isComplete = true → a.ty.same asked = true := by
  have reading : Leads (steps.foldlM finishStep {}) s fun p s' =>
      (s' = s ∧ Finishes known s p) ∧ p.Rereads structs s steps := by
    refine leads_foldlM_read (l := steps) (P := fun read p s' =>
      (s' = s ∧ Finishes known s p) ∧ p.Rereads structs s read) ?_ (List.nil_append _).symm
      ⟨⟨rfl, .start⟩, .start⟩
    rintro read a rest p s' whole ⟨⟨same, finishes⟩, rereads⟩
    have member : a ∈ steps := by
      rw [whole]
      simp
    have here := found a member
    rw [whole, allAccept_append] at accepts
    rw [same]
    refine ((finishes.finishStep here).and
      (rereads_finishStep rereads accepts.2.1 fun name kind => ?_)).imp ?_
    · rw [kind] at here
      obtain ⟨_, bound, -⟩ := here
      cases bound
    · rintro q t ⟨⟨same', finishes'⟩, rereads'⟩
      exact ⟨⟨same', finishes'⟩, rereads' same'⟩
  refine leads_bind reading ?_
  rintro p s' ⟨⟨same, -⟩, rereads⟩
  refine leads_bind (leads_lift ensures_self) fun _ _ _ => ?_
  obtain ⟨accepts', shown⟩ := rereads.tracks.sound.allAccept
  refine leads_pure ⟨accepts', fun asked meets a final plain complete => ?_⟩
  rw [← head?_lastAtoms] at final
  obtain ⟨j, top, shows⟩ := exists_mem_head?_of_forall₂ shown.flip final
  obtain ⟨b, before, a', done, repeats⟩ := exists_mem_head?_of_forall₂ rereads.repeats top
  rw [head?_lastAtoms] at before
  cases rereads.tracks.sound.shows_unique shows (rereads.tracks.shows_last top done)
  have again := repeats plain
  rw [again] at complete ⊢
  refine meets b before ?_ complete
  rw [← Atom.isOperation_reread s, ← again, plain]

end Gives

/-- Settling an expression makes it ready, and makes what it gives fit what the context asks for. -/
theorem leads_expr {structs : StructTable} {e : Expr Atom}
    (expected : Option Ty) (checked : e.CheckedIn structs known)
    (state : ∀ id ∈ known, (s.typeOf id).isComplete = true) :
    Leads (expr e expected) s fun e' s' => s.Settles s' ∧ e'.Ready s' ∧
      e'.Passes structs fun ty => expected.all fun asked => !asked.isComplete || ty.same asked := by
  rw [expr_eq_settle]
  refine leads_bind ((leads_settle expected checked.found).and
    (accepts_settle expected checked.found checked.accepts state)) ?_
  rintro steps s' ⟨⟨found, settles⟩, settled⟩
  obtain ⟨accepts, meets⟩ := settled settles
  refine leads_bind ((leads_finish found e.span).and (accepts_finish found accepts)) ?_
  rintro as s'' ⟨⟨same, ready⟩, accepts', gives⟩
  rw [same]
  refine leads_pure ⟨settles, ready, accepts', fun a final plain => ?_⟩
  cases expected with
  | none => rfl
  | some asked =>
    rw [Option.all_some, Bool.or_eq_true, Bool.not_eq_true']
    cases complete : asked.isComplete with
    | false => exact .inl rfl
    | true =>
      have bound := ready.bound a (List.mem_of_getLast? final)
      exact .inr (gives asked (meets asked rfl complete) a final plain
        (Bool.and_eq_true_iff.mp bound).1)

end Complete

end EbLang
