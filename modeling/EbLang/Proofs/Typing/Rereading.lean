import EbLang.Proofs.Typing.Readings

/-!
# Expressions that are read again

Settling reads an expression twice more: once to settle its values, and once to bind the calls that
were put off.  Both readings repeat the steps that they read: a step that is not an operator's stays
as it was, but for the type of a variable.  So a call that was bound in an earlier reading still
accepts its operands, and the value of the expression has the type that the context asks for unless an
operator gives it.
-/

namespace EbLang

variable {s : Scopes}

/-! ## Repeated steps -/

/-- A step repeats one of an earlier reading: unless it is an operator's, it is the same, read
again. -/
def Atom.Repeats (s : Scopes) (a b : Atom) : Prop := a.isOperation = false → a = b.reread s

theorem Atom.kind_reread (s : Scopes) (a : Atom) : (a.reread s).kind = a.kind := by
  unfold Atom.reread
  split
  next => rfl
  next => rfl

theorem Atom.isOperation_reread (s : Scopes) (a : Atom) :
    (a.reread s).isOperation = a.isOperation := by
  rw [Atom.isOperation, Atom.kind_reread, Atom.isOperation]

/-- What is not loose is the same in both readings. -/
theorem Atom.Repeats.eq {a b : Atom} (h : a.Repeats s b) (tight : a.isLoose = false) : a = b := by
  have again := h (Atom.isOperation_eq_false tight)
  rw [again]
  refine Atom.reread_of_not_var fun name binding kind => ?_
  rw [← Atom.kind_reread s, ← again] at kind
  rw [Atom.isLoose, kind] at tight
  cases tight

theorem forall₂_suits_of_repeats {os os' : List Atom} {asked : List Ty}
    (repeats : List.Forall₂ (fun o o' => Atom.Repeats s o' o) os os')
    (suit : List.Forall₂ Atom.Suits os asked) : List.Forall₂ Atom.Suits os' asked := by
  induction repeats generalizing asked with
  | nil => exact suit
  | cons first _ ih =>
    cases suit with
    | cons suits others =>
      refine .cons (fun tight => ?_) (ih others)
      have same := first.eq tight
      rw [same] at tight ⊢
      exact suits tight

namespace Atom.Accepts

variable {structs : StructTable} {s : Scopes} {a : Atom} {os os' : List Atom}

/-- A step accepts the operands of a later reading. -/
theorem of_repeats (h : a.Accepts structs os)
    (repeats : List.Forall₂ (fun o o' => Atom.Repeats s o' o) os os') : a.Accepts structs os' := by
  cases h with
  | leaf soft putOff => exact .leaf soft putOff
  | member kind operands type =>
    subst operands
    cases repeats with
    | cons first others =>
      cases others
      refine .member kind rfl fun tight => ?_
      have same := first.eq tight
      rw [same] at tight ⊢
      exact type tight
  | call kind target type asked suit =>
    exact .call kind target type asked (forall₂_suits_of_repeats repeats suit)

theorem putsOff (h : a.Accepts structs os) : a.kind.PutsOffOperators := by
  cases h with
  | leaf _ putOff => exact putOff
  | member kind =>
    rw [kind]
    trivial
  | call kind target =>
    rw [kind]
    intro none
    rw [target] at none
    cases none

end Atom.Accepts

theorem forall₂_of_common {α β γ : Type} {R : α → β → Prop} {S : α → γ → Prop} {l : List α}
    {bs : List β} {cs : List γ} (h : List.Forall₂ R l bs) (h' : List.Forall₂ S l cs) :
    List.Forall₂ (fun b c => ∃ a, R a b ∧ S a c) bs cs := by
  induction h generalizing cs with
  | nil =>
    cases h'
    exact .nil
  | cons first _ ih =>
    cases h' with
    | cons first' others => exact .cons ⟨_, first, first'⟩ (ih others)

theorem exists_mem_head?_of_forall₂ {α β : Type} {R : α → β → Prop} {as : List α} {bs : List β}
    (h : List.Forall₂ R as bs) {a : α} (head : a ∈ as.head?) : ∃ b ∈ bs.head?, R a b := by
  cases h with
  | nil => cases head
  | cons first _ =>
    cases Option.mem_some.mp head
    exact ⟨_, rfl, first⟩

/-! ## Readings that repeat what they read -/

/-- The values on the stack of a reading end with steps that repeat those of what was read. -/
def Progress.Repeats (s : Scopes) (read : List Atom) (p : Progress) : Prop :=
  List.Forall₂ (fun j b => ∃ a, p.done[j]? = some a ∧ a.Repeats s b) (lasts p.arities)
    (lastAtoms [] read)

/-- A reading goes on by a step that repeats the one read. -/
theorem Progress.Repeats.adds {read : List Atom} {p q : Progress} {a b : Atom}
    (h : p.Repeats s read) (adds : p.Adds a q) (takes : a.takes = b.takes) (repeats : a.Repeats s b) :
    q.Repeats s (read ++ [b]) := by
  unfold Progress.Repeats
  rw [lastAtoms_append, adds.arities, lasts_concat, Progress.length_arities, takes]
  refine .cons ⟨a, adds.last, repeats⟩ ?_
  refine forall₂_imp_of_mem (List.forall₂_drop b.takes h) ?_
  rintro j among b' ⟨a', found, repeats'⟩
  refine ⟨a', ?_, repeats'⟩
  rw [adds.kept j (takes ▸ among)]
  exact found

/-- A reading that keeps track of its operands and repeats what it reads, with the types that
variables have in the given scopes. -/
structure Progress.Rereads (structs : StructTable) (s : Scopes) (read : List Atom) (p : Progress) :
    Prop where
  tracks : p.Tracks structs
  repeats : p.Repeats s read

namespace Progress.Rereads

variable {structs : StructTable} {s0 s : Scopes} {read : List Atom} {p : Progress} {a : Atom}

theorem start : Rereads structs s0 [] {} := ⟨.start, .nil⟩

theorem accepts (h : p.Rereads structs s0 read)
    (accepts : a.Accepts structs ((lastAtoms [] read).take a.takes).reverse) {os : List Atom}
    (found : List.Forall₂ (fun j b => p.done[j]? = some b) ((lasts p.arities).take a.takes).reverse
      os) : a.Accepts structs os := by
  have repeats := List.rel_reverse (List.forall₂_take a.takes h.repeats)
  refine accepts.of_repeats (s := s0) ((forall₂_of_common repeats found).imp ?_)
  rintro b o ⟨j, ⟨a', found', repeats⟩, found⟩
  cases found'.symm.trans found
  exact repeats

/-- A step that will not change is read. -/
theorem pushFixed (h : p.Rereads structs s0 read) {args : List Operand}
    (accepts : a.Accepts structs ((lastAtoms [] read).take a.takes).reverse)
    (fixed : a.isFixed = true) (taken : args = (p.stack.take a.takes).reverse) :
    (p.push a ⟨a.ty, [], p.startOf args⟩ (p.stack.drop a.takes)).Rereads structs s0 (read ++ [a]) := by
  obtain ⟨tracked, adds⟩ := h.tracks.pushFixed taken accepts.putsOff
    fun os found _ => h.accepts accepts found
  refine ⟨tracked, h.repeats.adds adds rfl fun _ => ?_⟩
  refine (Atom.reread_of_not_var fun name b kind => ?_).symm
  rw [Atom.isFixed, kind] at fixed
  cases fixed

/-- A call that stays put off is read, after its operands were narrowed. -/
theorem pushPutOff (h : p.Rereads structs s0 read) {p' : Progress} {args : List Operand} {ty : Ty}
    (soft : a.isFixed = false) (operation : a.isOperation = true) (putOff : a.kind.PutsOffOperators)
    (taken : args = (p.stack.take a.takes).reverse) (sound : p'.Sound structs)
    (agree : p.Agree (· < p.startOf args) p') :
    (p'.push a ⟨ty, [], p'.startOf args⟩ (p.stack.drop a.takes)).Rereads structs s0 (read ++ [a]) := by
  have gives : a.isOperation = false → a.ty = ty := fun plain => by cases operation.symm.trans plain
  obtain ⟨tracked, adds⟩ := h.tracks.push (o := ⟨ty, [], p'.startOf args⟩) taken sound agree
    (fun fixed => by cases soft.symm.trans fixed) putOff (agree.startOf args) gives
    fun i linked => absurd linked List.not_mem_nil
  refine ⟨tracked, h.repeats.adds adds rfl fun plain => ?_⟩
  cases operation.symm.trans plain

theorem pushLiteral (h : p.Rereads structs s0 read) {v : Literal} (kind : a.kind = .literal v)
    {cells : List Cell} (own : ∀ i, Cell.step i ∈ cells → i = p.index) :
    (p.pushLeaf a cells).Rereads structs s0 (read ++ [a]) := by
  obtain ⟨tracked, adds⟩ := h.tracks.pushLeaf (a := a) (by rw [Atom.takes, kind])
    (by rw [Atom.isFixed, kind]) (by rw [kind]; trivial) own
  refine ⟨tracked, h.repeats.adds adds rfl fun _ => ?_⟩
  refine (Atom.reread_of_not_var fun name b var => ?_).symm
  cases kind.symm.trans var

/-- A variable is read, with the type that it has in the given scopes. -/
theorem pushName (h : p.Rereads structs s0 read) {name : String} {b : Binding} {cells : List Cell}
    (kind : a.kind = .var name (some b)) (own : ∀ i, Cell.step i ∈ cells → i = p.index) :
    (p.pushLeaf { a with ty := s0.bindingType b } cells).Rereads structs s0 (read ++ [a]) := by
  obtain ⟨tracked, adds⟩ := h.tracks.pushLeaf (a := { a with ty := s0.bindingType b })
    (by rw [Atom.takes, kind]) (by rw [Atom.isFixed, kind]) (by rw [kind]; trivial) own
  exact ⟨tracked, h.repeats.adds adds rfl fun _ => (Atom.reread_of_var kind).symm⟩

end Progress.Rereads

namespace Complete

variable {structs : StructTable} {s0 s : Scopes} {read : List Atom} {p : Progress} {a : Atom} {c : Call}
  {args : List Operand}

/-- A call that was put off is bound to an operator. -/
theorem rereads_bind (h : p.Rereads structs s0 read) (kind : a.kind = .call c)
    (untargeted : c.target = none) (putOff : a.kind.PutsOffOperators)
    (taken : args = (p.stack.take a.takes).reverse) :
    Leads (bind p a c args (p.stack.drop a.takes)) s fun q _ =>
      q.Rereads structs s0 (read ++ [a]) := by
  rw [kind] at putOff
  refine leads_bind Walk.leads_located ?_
  rintro resolution _ ⟨resolved, -⟩
  split
  next target casts =>
    obtain ⟨params, among, asked, rfl, cost⟩ := Overload.of_resolve_resolved resolved
    have operator : target.form = .operator := putOff untargeted target among
    refine (h.tracks.bindCall kind taken asked cost).imp ?_
    rintro q _ ⟨tracked, adds⟩
    refine ⟨tracked, h.repeats.adds adds ?_ fun plain => ?_⟩
    · simp only [Progress.bound, Atom.takes, kind, Call.argCount]
    · simp [Progress.bound, Atom.isOperation, operator] at plain
  next => exact leads_throw

/-- Reading a call again. -/
theorem rereads_call (h : p.Rereads structs s0 read) (kind : a.kind = .call c)
    (accepts : a.Accepts structs ((lastAtoms [] read).take a.takes).reverse) :
    Leads (call p a c) s fun q _ => q.Rereads structs s0 (read ++ [a]) := by
  have takes : c.argCount = a.takes := by simp only [Atom.takes, kind]
  have putOff := accepts.putsOff
  have soft (untargeted : c.target = none) : a.isFixed = false := by
    simp [Atom.isFixed, kind, untargeted]
  have operation (untargeted : c.target = none) : a.isOperation = true := by
    simp [Atom.isOperation, kind, untargeted]
  unfold call
  split
  next => exact leads_throw
  next args rest operands =>
    obtain ⟨taken, rfl⟩ := Progress.of_operands? operands
    rw [takes] at taken ⊢
    have standing := (h.tracks.split a.takes).2
    rw [← taken] at standing
    split
    next targeted =>
      refine leads_pure (h.pushFixed accepts ?_ taken)
      simp [Atom.isFixed, kind, targeted]
    next untargeted _ _ =>
      split
      next => exact leads_throw
      next settled _ =>
        refine leads_bind (h.tracks.sound.narrowAll settled standing) ?_
        rintro p' s' ⟨sound, casts, agree⟩
        exact leads_pure (h.pushPutOff (soft untargeted) (operation untargeted) putOff taken sound agree)
    next untargeted _ _ =>
      exact leads_pure (h.pushPutOff (soft untargeted) (operation untargeted) putOff taken
        h.tracks.sound (.refl _ p))
    next untargeted _ _ =>
      obtain ⟨tracked, adds⟩ := h.tracks.pushOpen kind untargeted putOff taken h.tracks.sound rfl
        (.refl _ p)
      refine leads_pure ⟨tracked, h.repeats.adds adds rfl fun plain => ?_⟩
      cases (operation untargeted).symm.trans plain
    next untargeted _ _ => exact rereads_bind h kind untargeted putOff taken

/-- The reading that settles values repeats what it reads, if variables keep their types. -/
theorem rereads_step (h : p.Rereads structs s0 read)
    (accepts : a.Accepts structs ((lastAtoms [] read).take a.takes).reverse)
    (kept : ∀ name b, a.kind = .var name (some b) → s.bindingType b = s0.bindingType b) :
    Leads (step p a) s fun q _ => q.Rereads structs s0 (read ++ [a]) := by
  unfold step
  split
  next kind =>
    refine leads_pure (h.pushLiteral kind fun i linked => ?_)
    cases List.mem_singleton.mp linked
    rfl
  next name binding kind =>
    refine (h.tracks.pushVar kind).imp ?_
    rintro q _ ⟨tracked, b, rfl, -, adds⟩
    rw [kept name b kind] at adds
    exact ⟨tracked, h.repeats.adds adds rfl fun _ => (Atom.reread_of_var kind).symm⟩
  next kind => exact rereads_call h kind accepts
  next kind =>
    split
    next => exact leads_throw
    next base rest stack =>
      have takes : a.takes = 1 := by rw [Atom.takes, kind]
      have taken : [base] = (p.stack.take a.takes).reverse := by
        rw [takes, stack]
        rfl
      have pushed := h.pushFixed accepts (by rw [Atom.isFixed, kind]) taken
      rw [takes, stack] at pushed
      exact leads_pure pushed

/-- The reading that binds what was put off repeats what it reads. -/
theorem rereads_finishStep (h : p.Rereads structs s read)
    (accepts : a.Accepts structs ((lastAtoms [] read).take a.takes).reverse)
    (bound : ∀ name, a.kind ≠ .var name none) :
    Leads (finishStep p a) s fun q s' => s' = s → q.Rereads structs s (read ++ [a]) := by
  have none : ∀ i, Cell.step i ∈ ([] : List Cell) → i = p.index := by simp
  unfold finishStep
  split
  next kind =>
    have pushed := h.pushLiteral kind none
    rw [Progress.pushLeaf, ite_self] at pushed
    exact leads_pure fun _ => pushed
  next name kind => exact absurd kind (bound name)
  next kind =>
    have pushed := h.pushName kind none
    rw [Progress.pushLeaf, ite_self] at pushed
    exact leads_get (leads_pure fun _ => pushed)
  next kind =>
    have takes : a.takes = 1 := by rw [Atom.takes, kind]
    have pushed := h.pushFixed accepts (by rw [Atom.isFixed, kind]) rfl
    rw [takes, List.drop_one] at pushed
    have start : p.startOf (p.stack.take 1).reverse =
        (p.stack.head?.map Operand.start).getD p.index := by
      cases stack : p.stack with
      | nil => rfl
      | cons => rfl
    rw [start] at pushed
    exact leads_pure fun _ => pushed
  next c kind =>
    have takes : c.argCount = a.takes := by simp only [Atom.takes, kind]
    rw [takes]
    split
    next targeted =>
      refine leads_pure fun _ => h.pushFixed accepts ?_ rfl
      simp [Atom.isFixed, kind, targeted]
    next untargeted =>
      refine (rereads_bind h kind untargeted accepts.putsOff rfl).imp ?_
      exact fun _ _ rereads _ => rereads

end Complete

end EbLang
