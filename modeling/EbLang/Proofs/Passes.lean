import EbLang.Proofs.Scoping
import Mathlib.Data.List.Nodup

/-!
# Contracts of passes

A `Contract` says what holds of the parts of a body before and after a pass, and how the pass may
change variables; if a pass meets a contract part by part, whole bodies come out as it says.
-/

namespace EbLang

variable {τ : Type}

/-! ## What holds at every place -/

/-- Whether a statement has no blocks. -/
def Stmt.isSimple : Stmt τ → Bool
  | .branch .. | .loop .. => false
  | .declare .. | .assign .. | .eval .. | .ret .. | .breakOut .. | .continueLoop .. => true

/-- The variable that a statement declares for those after it. -/
def Stmt.declares : Stmt τ → List Nat
  | .declare _ _ _ var _ _ => var.toList
  | _ => []

/-- The variables that some statements declare, without those inside them. -/
def declaredHere (ss : List (Stmt τ)) : List Nat := ss.flatMap Stmt.declares

section InScope

variable (P : List Nat → Stmt τ → Prop) (C : List Nat → Expr τ → Prop)

mutual

/-- The statements of a block satisfy `P` and its conditions `C`, each with the variables known at
its place: those known around the block and those declared before the place. -/
def Block.InScope (known : List Nat) : Block τ → Prop
  | .mk _ body _ => StmtsInScope known body

/-- Some statements satisfy `P` and `C`. -/
def StmtsInScope (known : List Nat) : List (Stmt τ) → Prop
  | [] => True
  | s :: ss => s.InScope known ∧ StmtsInScope (s.declares ++ known) ss

/-- A statement satisfies `P` and `C`. -/
def Stmt.InScope (known : List Nat) : Stmt τ → Prop
  | .branch arms otherwise _ => ArmsInScope known arms ∧ OtherwiseInScope known otherwise
  | .loop condition body _ => C known condition ∧ body.InScope known
  | .declare name ty init var hidden span => P known (.declare name ty init var hidden span)
  | .assign target binding members value span =>
    P known (.assign target binding members value span)
  | .eval value span => P known (.eval value span)
  | .ret value span => P known (.ret value span)
  | .breakOut amount span => P known (.breakOut amount span)
  | .continueLoop span => P known (.continueLoop span)

/-- The arms of an `if` satisfy `P` and `C`. -/
def ArmsInScope (known : List Nat) : List (Arm τ) → Prop
  | [] => True
  | .mk condition body :: arms =>
    (C known condition ∧ body.InScope known) ∧ ArmsInScope known arms

/-- The last branch of an `if` satisfies `P` and `C`. -/
def OtherwiseInScope (known : List Nat) : Option (Block τ) → Prop
  | none => True
  | some body => body.InScope known

end

end InScope

section Imp

variable {P P' : List Nat → Stmt τ → Prop} {C C' : List Nat → Expr τ → Prop}

theorem stmt_declares_subset : ∀ s : Stmt τ, s.declares ⊆ s.declared
  | .declare .. => by
    exact List.Subset.refl _
  | .branch .. | .loop .. | .assign .. | .eval .. | .ret .. | .breakOut .. | .continueLoop .. => by
    exact List.nil_subset _

theorem Stmt.declares_eq_declared {s : Stmt τ} (h : s.isSimple = true) : s.declares = s.declared := by
  cases s with
  | branch | loop => cases h
  | declare => rw [Stmt.declares, Stmt.declared]
  | assign | eval | ret | breakOut | continueLoop => simp [Stmt.declares, Stmt.declared]

theorem Stmt.inScope_of_isSimple {known : List Nat} {s : Stmt τ} (h : s.isSimple = true) :
    s.InScope P C known ↔ P known s := by
  cases s with
  | branch | loop => cases h
  | declare | assign | eval | ret | breakOut | continueLoop => rw [Stmt.InScope]

theorem ArmsInScope.conditions {known : List Nat} :
    ∀ {arms : List (Arm τ)}, ArmsInScope P C known arms → ∀ e ∈ arms.map Arm.condition, C known e
  | [], _ => List.forall_mem_nil _
  | .mk .. :: _, ⟨⟨hc, _⟩, arms⟩ => List.forall_mem_cons.mpr ⟨hc, arms.conditions⟩

/-- What holds of a part may be changed, given what holds of the variables known at its place and of
those it declares. -/
structure InScope.Refines (K R : Nat → Prop) (P P' : List Nat → Stmt τ → Prop)
    (C C' : List Nat → Expr τ → Prop) : Prop where
  known_of_declared : ∀ id, R id → K id
  stmt : ∀ known s, (∀ id ∈ known, K id) → (∀ id ∈ s.declares, R id) → P known s → P' known s
  condition : ∀ known e, (∀ id ∈ known, K id) → C known e → C' known e

variable {K R : Nat → Prop}

mutual

theorem Block.InScope.imp (r : InScope.Refines K R P P' C C') :
    ∀ {b : Block τ} {known : List Nat}, (∀ id ∈ b.declared, R id) → (∀ id ∈ known, K id) →
      b.InScope P C known → b.InScope P' C' known
  | .mk .., _, declared, around, h => StmtsInScope.imp r declared around h

/-- What holds of parts is changed at every place. -/
theorem StmtsInScope.imp (r : InScope.Refines K R P P' C C') :
    ∀ {ss : List (Stmt τ)} {known : List Nat}, (∀ id ∈ declaredBy ss, R id) →
      (∀ id ∈ known, K id) → StmtsInScope P C known ss → StmtsInScope P' C' known ss
  | [], _, _, _, _ => trivial
  | s :: ss, known, declared, around, ⟨hs, hss⟩ => by
    rw [declaredBy, List.forall_mem_append] at declared
    obtain ⟨own, others⟩ := declared
    refine ⟨hs.imp r own around, hss.imp r others ?_⟩
    refine List.forall_mem_append.mpr ⟨fun id hid => ?_, around⟩
    exact r.known_of_declared id (own id (stmt_declares_subset s hid))

theorem Stmt.InScope.imp (r : InScope.Refines K R P P' C C') :
    ∀ {s : Stmt τ} {known : List Nat}, (∀ id ∈ s.declared, R id) → (∀ id ∈ known, K id) →
      s.InScope P C known → s.InScope P' C' known
  | .branch .., _, declared, around, ⟨arms, otherwise⟩ => by
    rw [Stmt.declared, List.forall_mem_append] at declared
    exact ⟨arms.imp r declared.1 around, otherwise.imp r declared.2 around⟩
  | .loop .., _, declared, around, ⟨hc, body⟩ =>
    ⟨r.condition _ _ around hc, body.imp r declared around⟩
  | .declare .., _, declared, around, h | .assign .., _, declared, around, h
  | .eval .., _, declared, around, h | .ret .., _, declared, around, h
  | .breakOut .., _, declared, around, h | .continueLoop .., _, declared, around, h =>
    r.stmt _ _ around declared h

theorem ArmsInScope.imp (r : InScope.Refines K R P P' C C') :
    ∀ {arms : List (Arm τ)} {known : List Nat}, (∀ id ∈ declaredByArms arms, R id) →
      (∀ id ∈ known, K id) → ArmsInScope P C known arms → ArmsInScope P' C' known arms
  | [], _, _, _, _ => trivial
  | .mk .. :: _, _, declared, around, ⟨⟨hc, body⟩, arms⟩ => by
    rw [declaredByArms, List.forall_mem_append] at declared
    exact ⟨⟨r.condition _ _ around hc, body.imp r declared.1 around⟩,
      arms.imp r declared.2 around⟩

theorem OtherwiseInScope.imp (r : InScope.Refines K R P P' C C') :
    ∀ {b : Option (Block τ)} {known : List Nat}, (∀ id ∈ declaredByOtherwise b, R id) →
      (∀ id ∈ known, K id) → OtherwiseInScope P C known b → OtherwiseInScope P' C' known b
  | none, _, _, _, _ => trivial
  | some _, _, declared, around, h => Block.InScope.imp r declared around h

end

end Imp

section Everywhere

/-- Every statement satisfies `W` if its parts satisfy `P` and `C`. -/
structure InScope.Entails (P : List Nat → Stmt τ → Prop) (C : List Nat → Expr τ → Prop)
    (W : Stmt τ → Prop) : Prop where
  simple : ∀ known s, P known s → W s
  compound : ∀ s, s.isSimple = false → (∀ e ∈ s.exprs, ∃ known, C known e) → W s

variable {P : List Nat → Stmt τ → Prop} {C : List Nat → Expr τ → Prop} {W : Stmt τ → Prop}

mutual

/-- What holds of all parts of a block holds of its statements. -/
theorem Block.InScope.everywhere (entails : InScope.Entails P C W) :
    ∀ {b : Block τ} {known : List Nat}, b.InScope P C known → b.Everywhere W
  | .mk .., _, h => StmtsInScope.everywhere entails h

theorem StmtsInScope.everywhere (entails : InScope.Entails P C W) :
    ∀ {ss : List (Stmt τ)} {known : List Nat}, StmtsInScope P C known ss → StmtsEverywhere W ss
  | [], _, _ => trivial
  | _ :: _, _, ⟨hs, hss⟩ => ⟨hs.everywhere entails, hss.everywhere entails⟩

theorem Stmt.InScope.everywhere (entails : InScope.Entails P C W) :
    ∀ {s : Stmt τ} {known : List Nat}, s.InScope P C known → s.Everywhere W
  | .branch .., known, ⟨arms, otherwise⟩ =>
    ⟨entails.compound _ rfl fun e he => ⟨known, arms.conditions e he⟩, arms.everywhere entails,
      otherwise.everywhere entails⟩
  | .loop .., known, ⟨hc, body⟩ =>
    ⟨entails.compound _ rfl (List.forall_mem_singleton.mpr ⟨known, hc⟩), body.everywhere entails⟩
  | .declare .., known, h | .assign .., known, h | .eval .., known, h | .ret .., known, h
  | .breakOut .., known, h | .continueLoop .., known, h => entails.simple known _ h

theorem ArmsInScope.everywhere (entails : InScope.Entails P C W) :
    ∀ {arms : List (Arm τ)} {known : List Nat}, ArmsInScope P C known arms → ArmsEverywhere W arms
  | [], _, _ => trivial
  | .mk .. :: _, _, ⟨⟨_, body⟩, arms⟩ => ⟨body.everywhere entails, arms.everywhere entails⟩

theorem OtherwiseInScope.everywhere (entails : InScope.Entails P C W) :
    ∀ {b : Option (Block τ)} {known : List Nat}, OtherwiseInScope P C known b →
      OtherwiseEverywhere W b
  | none, _, _ => trivial
  | some _, _, h => Block.InScope.everywhere entails h

end

end Everywhere

/-! ## Contracts -/

/-- What holds of the parts of a body before and after a pass. -/
structure Contract where
  /-- How the variables may change over a part that declares the given ones. -/
  moves : List Nat → Scopes → Scopes → Prop
  /-- What holds of the variables that are known. -/
  state : List Nat → Scopes → Prop
  /-- What holds of a statement without blocks, in a function with the given result. -/
  before : Ty → List Nat → Stmt Atom → Prop
  /-- What holds of a condition. -/
  conditionBefore : List Nat → Expr Atom → Prop
  /-- What holds of a statement without blocks after the pass. -/
  after : Ty → Scopes → List Nat → Stmt Atom → Prop
  /-- What holds of a condition after the pass. -/
  conditionAfter : Scopes → List Nat → Expr Atom → Prop

/-- A pass does to each part of a function with the given result what a contract says. -/
structure Pass.Meets (π : Pass) (c : Contract) (result : Ty) : Prop where
  refl : ∀ s, c.moves [] s s
  trans : ∀ {D D' s s1 s2}, c.moves D s s1 → c.moves D' s1 s2 → c.moves (D ++ D') s s2
  state_subset : ∀ {known known' s}, known' ⊆ known → c.state known s → c.state known' s
  state_moves : ∀ {D known s s'}, c.moves D s s' → c.state known s → c.state known s'
  after_moves : ∀ {D s s' known st}, c.moves D s s' → (∀ id ∈ known, id ∉ D) →
    c.after result s known st → c.after result s' known st
  conditionAfter_moves : ∀ {D s s' known e}, c.moves D s s' → (∀ id ∈ known, id ∉ D) →
    c.conditionAfter s known e → c.conditionAfter s' known e
  enter : ∀ {body known s}, c.state known s → Leads (π.enter body) s fun _ s' =>
    c.moves [] s s' ∧ c.state (declaredHere body ++ known) s'
  simple : ∀ {st known s}, st.isSimple = true → c.before result known st →
    c.state (st.declares ++ known) s → Leads (π.simple st) s fun st' s' =>
      c.moves st.declares s s' ∧ c.after result s' known st' ∧ st'.isSimple = true ∧
        st'.declares = st.declares
  condition : ∀ {e known s}, c.conditionBefore known e → c.state known s →
    Leads (π.condition e) s fun e' s' => c.moves [] s s' ∧ c.conditionAfter s' known e'

/-- The arms of an `if` put together from conditions and bodies. -/
theorem armsInScope_zipWith {P : List Nat → Stmt τ → Prop} {C : List Nat → Expr τ → Prop}
    {known : List Nat} :
    ∀ {conditions : List (Expr τ)} {bodies : List (Block τ)}, (∀ e ∈ conditions, C known e) →
      (∀ b ∈ bodies, b.InScope P C known) →
      ArmsInScope P C known (List.zipWith .mk conditions bodies)
  | [], _, _, _ => by
    exact trivial
  | _ :: _, [], _, _ => trivial
  | c :: cs, b :: bs, hc, hb =>
    ⟨⟨hc c List.mem_cons_self, hb b List.mem_cons_self⟩,
      armsInScope_zipWith (fun e he => hc e (List.mem_cons_of_mem _ he))
        fun b hb' => hb b (List.mem_cons_of_mem _ hb')⟩

theorem declaredByArms_zipWith :
    ∀ {conditions : List (Expr τ)} {bodies : List (Block τ)}, conditions.length = bodies.length →
      declaredByArms (List.zipWith .mk conditions bodies) = bodies.flatMap Block.declared
  | [], [], _ => rfl
  | _ :: _, b :: bs, length => by
    rw [List.zipWith_cons_cons, declaredByArms, List.flatMap_cons,
      declaredByArms_zipWith (Nat.succ.inj length)]

namespace Pass.Meets

variable {π : Pass} {c : Contract} {result : Ty}

theorem conditions (h : π.Meets c result) {known : List Nat} :
    ∀ {es : List (Expr Atom)} {s : Scopes}, (∀ e ∈ es, c.conditionBefore known e) →
      c.state known s → Leads (es.mapM π.condition) s fun es' s' =>
        c.moves [] s s' ∧ es'.length = es.length ∧ ∀ e ∈ es', c.conditionAfter s' known e
  | [], s, _, _ => by
    exact leads_pure ⟨h.refl s, rfl, List.forall_mem_nil _⟩
  | e :: es, s, before, state => by
    obtain ⟨first, others⟩ := List.forall_mem_cons.mp before
    rw [List.mapM_cons]
    refine leads_bind (h.condition first state) ?_
    rintro e' s1 ⟨moves, after⟩
    refine leads_bind (h.conditions others (h.state_moves moves state)) ?_
    rintro es' s2 ⟨moves', length, rest⟩
    refine leads_pure ⟨h.trans moves moves', congrArg (· + 1) length, ?_⟩
    exact List.forall_mem_cons.mpr ⟨h.conditionAfter_moves moves' (by simp) after, rest⟩

/-- What holds of a part after a pass still holds when later parts have been walked through. -/
theorem refines (h : π.Meets c result) {D : List Nat} {s s' : Scopes} (moves : c.moves D s s') :
    InScope.Refines (· ∉ D) (· ∉ D) (c.after result s) (c.after result s') (c.conditionAfter s)
      (c.conditionAfter s') where
  known_of_declared _ apart := apart
  stmt _ _ around _ := h.after_moves moves around
  condition _ _ around := h.conditionAfter_moves moves around

mutual

/-- A block comes out of a pass as a contract says that its parts do. -/
theorem block (h : π.Meets c result) :
    ∀ (b : Block Atom) {known : List Nat} {s : Scopes},
      b.InScope (c.before result) c.conditionBefore known → c.state known s → b.declared.Nodup →
      (∀ id ∈ known, id ∉ b.declared) → Leads (π.block b) s fun b' s' =>
        c.moves b.declared s s' ∧ b'.InScope (c.after result s') (c.conditionAfter s') known ∧
          b'.declared = b.declared
  | .mk id body span, known, s, before, state, nodup, apart => by
    refine leads_bind (h.enter state) ?_
    rintro _ s1 ⟨moves, state'⟩
    refine leads_bind (h.stmts body before state' nodup apart) ?_
    rintro body' s2 ⟨moves', after, declared⟩
    exact leads_pure ⟨h.trans moves moves', after, declared⟩

theorem stmts (h : π.Meets c result) :
    ∀ (ss : List (Stmt Atom)) {known : List Nat} {s : Scopes},
      StmtsInScope (c.before result) c.conditionBefore known ss →
      c.state (declaredHere ss ++ known) s → (declaredBy ss).Nodup →
      (∀ id ∈ known, id ∉ declaredBy ss) → Leads (π.stmts ss) s fun ss' s' =>
        c.moves (declaredBy ss) s s' ∧
          StmtsInScope (c.after result s') (c.conditionAfter s') known ss' ∧
          declaredBy ss' = declaredBy ss
  | [], _, s, _, _, _, _ => by
    exact leads_pure ⟨h.refl s, trivial, rfl⟩
  | st :: ss, known, s, ⟨before, others⟩, state, nodup, apart => by
    rw [declaredBy] at nodup apart ⊢
    obtain ⟨own, rest, between⟩ := List.nodup_append'.mp nodup
    have here : st.declares ++ known ⊆ declaredHere (st :: ss) ++ known := by
      intro id hid
      simp only [declaredHere, List.flatMap_cons, List.mem_append] at hid ⊢
      tauto
    have there : declaredHere ss ++ (st.declares ++ known) ⊆ declaredHere (st :: ss) ++ known := by
      intro id hid
      simp only [declaredHere, List.flatMap_cons, List.mem_append] at hid ⊢
      tauto
    have ownApart : ∀ id ∈ known, id ∉ st.declared :=
      fun id hid own => apart id hid (List.mem_append_left _ own)
    have restApart : ∀ id ∈ known, id ∉ declaredBy ss :=
      fun id hid rest => apart id hid (List.mem_append_right _ rest)
    have restApart' : ∀ id ∈ st.declares ++ known, id ∉ declaredBy ss :=
      List.forall_mem_append.mpr
        ⟨fun id hid => between (stmt_declares_subset st hid), restApart⟩
    refine leads_bind (h.stmt st before (h.state_subset here state) own ownApart) ?_
    rintro st' s1 ⟨moves, after, declared, declares⟩
    refine leads_bind
      (h.stmts ss others (h.state_moves moves (h.state_subset there state)) rest restApart') ?_
    rintro ss' s2 ⟨moves', after', declared'⟩
    refine leads_pure ⟨h.trans moves moves', ⟨after.imp (h.refines moves') ?_ restApart, ?_⟩, ?_⟩
    · rw [declared]
      exact fun id hid => between hid
    · rwa [declares]
    · rw [declaredBy, declared, declared']

theorem stmt (h : π.Meets c result) :
    ∀ (st : Stmt Atom) {known : List Nat} {s : Scopes},
      st.InScope (c.before result) c.conditionBefore known → c.state (st.declares ++ known) s →
      st.declared.Nodup → (∀ id ∈ known, id ∉ st.declared) → Leads (π.stmt st) s fun st' s' =>
        c.moves st.declared s s' ∧ st'.InScope (c.after result s') (c.conditionAfter s') known ∧
          st'.declared = st.declared ∧ st'.declares = st.declares
  | .branch arms otherwise span, known, s, ⟨before, last⟩, state, nodup, apart => by
    rw [Stmt.declared] at nodup apart ⊢
    obtain ⟨own, rest, between⟩ := List.nodup_append'.mp nodup
    have ownApart : ∀ id ∈ known, id ∉ declaredByArms arms :=
      fun id hid own => apart id hid (List.mem_append_left _ own)
    have restApart : ∀ id ∈ known, id ∉ declaredByOtherwise otherwise :=
      fun id hid rest => apart id hid (List.mem_append_right _ rest)
    have state0 : c.state known s := state
    refine leads_bind (h.conditions before.conditions state0) ?_
    rintro conditions s1 ⟨moves1, length, conditions_after⟩
    have state1 := h.state_moves moves1 state0
    refine leads_bind (h.bodies arms before state1 own ownApart) ?_
    rintro bodies s2 ⟨moves2, length', bodies_after, declared⟩
    have state2 := h.state_moves moves2 state1
    refine leads_bind (h.otherwise otherwise last state2 rest restApart) ?_
    rintro otherwise' s3 ⟨moves3, last_after, declared'⟩
    have lengths : conditions.length = bodies.length := by
      rw [length, length', List.length_map]
    have armsDeclared := (declaredByArms_zipWith lengths).trans declared
    refine leads_pure ⟨h.trans (h.trans moves1 moves2) moves3, ⟨?_, last_after⟩, ?_, rfl⟩
    · refine armsInScope_zipWith (fun e he => ?_) fun b hb => ?_
      · refine h.conditionAfter_moves moves3 restApart ?_
        exact h.conditionAfter_moves moves2 ownApart (conditions_after e he)
      · refine (bodies_after b hb).imp (h.refines moves3) (fun id hid => between ?_) restApart
        rw [← declared]
        exact List.mem_flatMap.mpr ⟨b, hb, hid⟩
    · rw [Stmt.declared, armsDeclared, declared']
  | .loop condition body span, known, s, ⟨before, inside⟩, state, nodup, apart => by
    rw [Stmt.declared] at nodup apart ⊢
    have state0 : c.state known s := state
    refine leads_bind (h.condition before state0) ?_
    rintro condition' s1 ⟨moves1, condition_after⟩
    refine leads_bind (h.block body inside (h.state_moves moves1 state0) nodup apart) ?_
    rintro body' s2 ⟨moves2, body_after, declared⟩
    refine leads_pure ⟨h.trans moves1 moves2, ⟨?_, body_after⟩, ?_, rfl⟩
    · exact h.conditionAfter_moves moves2 apart condition_after
    · rw [Stmt.declared, declared]
  | .declare .., _, _, before, state, _, _ | .assign .., _, _, before, state, _, _
  | .eval .., _, _, before, state, _, _ | .ret .., _, _, before, state, _, _
  | .breakOut .., _, _, before, state, _, _ | .continueLoop .., _, _, before, state, _, _ => by
    refine (h.simple rfl before state).imp ?_
    rintro st' s' ⟨moves, after, simple, declares⟩
    refine ⟨?_, (Stmt.inScope_of_isSimple simple).mpr after, ?_, declares⟩
    · rwa [Stmt.declares_eq_declared rfl] at moves
    · rw [← Stmt.declares_eq_declared simple, declares, Stmt.declares_eq_declared rfl]

theorem bodies (h : π.Meets c result) :
    ∀ (arms : List (Arm Atom)) {known : List Nat} {s : Scopes},
      ArmsInScope (c.before result) c.conditionBefore known arms → c.state known s →
      (declaredByArms arms).Nodup → (∀ id ∈ known, id ∉ declaredByArms arms) →
      Leads (π.bodies arms) s fun bs s' =>
        c.moves (declaredByArms arms) s s' ∧ bs.length = arms.length ∧
          (∀ b ∈ bs, b.InScope (c.after result s') (c.conditionAfter s') known) ∧
          bs.flatMap Block.declared = declaredByArms arms
  | [], _, s, _, _, _, _ => by
    exact leads_pure ⟨h.refl s, rfl, List.forall_mem_nil _, rfl⟩
  | .mk _ body :: arms, known, s, ⟨⟨_, before⟩, others⟩, state, nodup, apart => by
    rw [declaredByArms] at nodup apart ⊢
    obtain ⟨own, rest, between⟩ := List.nodup_append'.mp nodup
    have ownApart : ∀ id ∈ known, id ∉ body.declared :=
      fun id hid own => apart id hid (List.mem_append_left _ own)
    have restApart : ∀ id ∈ known, id ∉ declaredByArms arms :=
      fun id hid rest => apart id hid (List.mem_append_right _ rest)
    refine leads_bind (h.block body before state own ownApart) ?_
    rintro body' s1 ⟨moves, after, declared⟩
    refine leads_bind (h.bodies arms others (h.state_moves moves state) rest restApart) ?_
    rintro bs s2 ⟨moves', length, after', declared'⟩
    refine leads_pure ⟨h.trans moves moves', congrArg (· + 1) length, ?_, ?_⟩
    · refine List.forall_mem_cons.mpr ⟨after.imp (h.refines moves') ?_ restApart, after'⟩
      rw [declared]
      exact fun id hid => between hid
    · rw [List.flatMap_cons, declared, declared']

theorem otherwise (h : π.Meets c result) :
    ∀ (b : Option (Block Atom)) {known : List Nat} {s : Scopes},
      OtherwiseInScope (c.before result) c.conditionBefore known b → c.state known s →
      (declaredByOtherwise b).Nodup → (∀ id ∈ known, id ∉ declaredByOtherwise b) →
      Leads (π.otherwise b) s fun b' s' =>
        c.moves (declaredByOtherwise b) s s' ∧
          OtherwiseInScope (c.after result s') (c.conditionAfter s') known b' ∧
          declaredByOtherwise b' = declaredByOtherwise b
  | none, _, s, _, _, _, _ => by
    exact leads_pure ⟨h.refl s, trivial, rfl⟩
  | some body, known, s, before, state, nodup, apart => by
    refine leads_bind (h.block body before state nodup apart) ?_
    rintro body' s' ⟨moves, after, declared⟩
    exact leads_pure ⟨moves, after, declared⟩

end

end Pass.Meets

end EbLang
