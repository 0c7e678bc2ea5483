import EbLang.Proofs.Flow.Loops
import EbLang.Proofs.Plain
import EbLang.Proofs.Settling.Expressions

/-!
# Modules are ready for code generation

Settled variables stay as they are, so what holds of an expression when it has been settled still
holds when the whole module is settled, and the last check of a module finds nothing open.
-/

namespace EbLang

variable {s : Scopes} {fs : List (FunctionItem Atom)}

/-! ## Ready statements -/

/-- The variable that a statement declares is settled, and what it assigns is bound and has a
place. -/
def Stmt.HeadReady (s : Scopes) : Stmt Atom → Prop
  | .declare _ _ _ var _ _ => (var.any fun id => (s.typeOf id).isComplete) = true
  | .assign _ binding members _ _ =>
    (binding.isSome && members.all fun m => m.index.isSome) = true
  | _ => True

/-- Nothing about a statement is open. -/
structure Stmt.Ready (s : Scopes) (st : Stmt Atom) : Prop where
  exprs : ∀ e ∈ st.exprs, e.Ready s
  head : st.HeadReady s

theorem Stmt.Ready.settles {s' : Scopes} {st : Stmt Atom} (h : st.Ready s)
    (settles : s.Settles s') : st.Ready s' := by
  refine ⟨fun e member => (h.exprs e member).settles settles, ?_⟩
  have head := h.head
  cases st with
  | declare name ty init var hidden span =>
    cases var with
    | none => cases head
    | some id =>
      have complete : (s.typeOf id).isComplete = true := head
      exact settles.isComplete complete
  | assign => exact head
  | eval | ret | branch | loop | breakOut | continueLoop => trivial

/-- The expressions of a statement pass the tests of their contexts, if what it writes has one type. -/
def Stmt.Passes (structs : StructTable) (s : Scopes) (result : Ty) (st : Stmt Atom) : Prop :=
  st.isSettled structs s = true → ∀ c ∈ st.contexts structs s result, c.1.Passes structs c.2

namespace Complete

variable {known : List Nat} {structs : StructTable} {result : Ty} {s : Scopes} {span : Span}

/-! ## Settling a body -/

/-- What settling does to the parts of a body: it makes them ready, settles what they declare, and
makes values fit their contexts, whatever is settled later. -/
def readying (structs : StructTable) : Contract where
  moves D s s' := s.Settles s' ∧ ∀ id ∈ D, (s'.typeOf id).isComplete = true
  state known s := ∀ id ∈ known, (s.typeOf id).isComplete = true
  before result known st := result.isComplete = true ∧ st.CheckedIn structs known
  conditionBefore := Expr.CheckedIn structs
  after result s _ st := st.Ready s ∧ ∀ s', s.Settles s' → st.Passes structs s' result
  conditionAfter s _ e := e.Ready s ∧ e.Passes structs (·.same .bool)

theorem leads_settleVars :
    ∀ (ss : List (Stmt Atom)) {s : Scopes}, Leads (settleVars ss) s fun _ s' =>
      s.Settles s' ∧ ∀ id ∈ declaredHere ss, (s'.typeOf id).isComplete = true
  | [], s => by
    exact leads_pure ⟨.refl s, List.forall_mem_nil _⟩
  | .declare name ty init var hidden span :: ss, s => by
    refine leads_get ?_
    split
    next id ty settled =>
      refine leads_set ((leads_settleVars ss).imp ?_)
      rintro _ s' ⟨settles, others⟩
      obtain ⟨first, complete⟩ := Scopes.Settles.setType settled
      refine ⟨first.trans settles, List.forall_mem_append.mpr ⟨?_, others⟩⟩
      exact List.forall_mem_singleton.mpr (settles.isComplete complete)
    next => exact leads_throw_bind
  | .assign .. :: ss, s | .eval .. :: ss, s | .ret .. :: ss, s | .branch .. :: ss, s
  | .loop .. :: ss, s | .breakOut .. :: ss, s | .continueLoop .. :: ss, s => by
    exact leads_settleVars ss

variable {members : List MemberRef}

/-- What an assignment writes keeps its type. -/
theorem place?_eq {s' : Scopes} {b : Binding} (isKnown : b.IsKnown known)
    (state : ∀ id ∈ known, (s.typeOf id).isComplete = true) (settles : s.Settles s') :
    place? structs s' (some b) members = place? structs s (some b) members := by
  simp only [place?, Option.bind_eq_bind, Option.bind_some, bindingType_eq isKnown state settles]

theorem leads_declare
    {name : String} {ty : Option TypeName} {init : Option (Expr Atom)} {id : Nat} {hidden : Bool}
    (checked : ∀ e ∈ init.toList, e.CheckedIn structs known)
    (state : ∀ id ∈ known, (s.typeOf id).isComplete = true)
    (complete : (s.typeOf id).isComplete = true) :
    Leads (simple structs result (.declare name ty init (some id) hidden span)) s fun st' s' =>
      s.Settles s' ∧ (st'.Ready s' ∧ ∀ t, s'.Settles t → st'.Passes structs t result) ∧
        ∃ init', st' = .declare name ty init' (some id) hidden span := by
  cases init with
  | none =>
    refine leads_pure ⟨.refl s, ⟨⟨List.forall_mem_nil _, complete⟩, ?_⟩, none, rfl⟩
    exact fun _ _ _ => List.forall_mem_nil _
  | some value =>
    refine leads_get (leads_bind
      (leads_expr (some (s.typeOf id)) (checked value List.mem_cons_self) state) ?_)
    rintro value' s' ⟨settles, ready, passes⟩
    have complete' := settles.isComplete complete
    refine leads_pure ⟨settles, ⟨⟨List.forall_mem_singleton.mpr ready, complete'⟩, ?_⟩, value', rfl⟩
    intro t later _
    refine List.forall_mem_singleton.mpr (passes.imp fun given fits => ?_)
    change given.same (t.typeOf id) = true
    rw [later.types id complete', settles.types id complete]
    rwa [Option.all_some, complete, Bool.not_true, Bool.false_or] at fits

theorem leads_assign {target : String} {binding : Option Binding} {value : Expr Atom}
    (checked : value.CheckedIn structs known) (bound : IsBoundIn known binding)
    (state : ∀ id ∈ known, (s.typeOf id).isComplete = true) :
    Leads (simple structs result (.assign target binding members value span)) s fun st' s' =>
      s.Settles s' ∧ (st'.Ready s' ∧ ∀ t, s'.Settles t → st'.Passes structs t result) ∧
        ∃ members' value', st' = .assign target binding members' value' span := by
  obtain ⟨b, rfl, isKnown⟩ := bound
  refine leads_bind (leads_assignmentType structs) ?_
  rintro ⟨targetTy, members'⟩ s1 ⟨same, placed, place⟩
  rw [same]
  refine leads_bind (leads_expr (some targetTy) checked state) ?_
  rintro value' s' ⟨settles, ready, passes⟩
  refine leads_pure ⟨settles, ⟨⟨List.forall_mem_singleton.mpr ready, placed⟩, ?_⟩, members', value',
    rfl⟩
  intro t later settled
  have place' := (place?_eq isKnown state (settles.trans later)).trans place
  refine List.forall_mem_singleton.mpr (passes.imp fun given fits => ?_)
  rw [Stmt.isSettled, place', Option.all_some] at settled
  dsimp only
  rw [place', Option.any_some]
  rwa [Option.all_some, settled, Bool.not_true, Bool.false_or] at fits

theorem leads_ret {value : Option (Expr Atom)} (settled : result.isComplete = true)
    (checked : ∀ e ∈ value.toList, e.CheckedIn structs known)
    (state : ∀ id ∈ known, (s.typeOf id).isComplete = true) :
    Leads (simple structs result (.ret value span)) s fun st' s' =>
      s.Settles s' ∧ (st'.Ready s' ∧ ∀ t, s'.Settles t → st'.Passes structs t result) ∧
        ∃ value', st' = .ret value' span := by
  cases value with
  | none =>
    exact leads_pure ⟨.refl s, ⟨⟨List.forall_mem_nil _, trivial⟩, fun _ _ _ => List.forall_mem_nil _⟩,
      none, rfl⟩
  | some value =>
    refine leads_bind (leads_map (Q := fun (value' : Option (Expr Atom)) s' => s.Settles s' ∧
      ∀ e ∈ value'.toList, e.Ready s' ∧ e.Passes structs (·.same result)) ?_) ?_
    · refine (leads_expr (some result) (checked value List.mem_cons_self) state).imp ?_
      rintro value' s' ⟨settles, ready, passes⟩
      refine ⟨settles, List.forall_mem_singleton.mpr ⟨ready, passes.imp fun given fits => ?_⟩⟩
      rwa [Option.all_some, settled, Bool.not_true, Bool.false_or] at fits
    · rintro value' s' ⟨settles, all⟩
      refine leads_pure ⟨settles, ⟨⟨fun e member => (all e member).1, trivial⟩, ?_⟩, value', rfl⟩
      intro t _ _ c member
      obtain ⟨e, among, rfl⟩ := List.mem_map.mp member
      exact (all e among).2

theorem meets_readying (structs : StructTable) (result : Ty) :
    (pass structs result).Meets (readying structs) result where
  refl s := ⟨.refl s, List.forall_mem_nil _⟩
  trans moves moves' := ⟨moves.1.trans moves'.1, List.forall_mem_append.mpr
    ⟨fun id member => moves'.1.isComplete (moves.2 id member), moves'.2⟩⟩
  state_subset among state id member := state id (among member)
  state_moves moves state id member := moves.1.isComplete (state id member)
  after_moves moves _ after :=
    ⟨after.1.settles moves.1, fun t later => after.2 t (moves.1.trans later)⟩
  conditionAfter_moves moves _ after := ⟨after.1.settles moves.1, after.2⟩
  enter {body known s} state := by
    refine (leads_settleVars body).imp ?_
    rintro _ s' ⟨settles, here⟩
    exact ⟨⟨settles, List.forall_mem_nil _⟩, List.forall_mem_append.mpr
      ⟨here, fun id member => settles.isComplete (state id member)⟩⟩
  condition checked state := by
    refine (leads_expr (some .bool) checked state).imp ?_
    rintro e' s' ⟨settles, ready, passes⟩
    exact ⟨⟨settles, List.forall_mem_nil _⟩, ready, passes⟩
  simple {st known s} isSimple before state := by
    obtain ⟨settled, checked, head⟩ := before
    have state' : ∀ id ∈ known, (s.typeOf id).isComplete = true :=
      fun id member => state id (List.mem_append_right _ member)
    change Leads (simple structs result st) s _
    cases st with
    | branch | loop => cases isSimple
    | declare name ty init var hidden span =>
      cases var with
      | none => cases head
      | some id =>
        have complete := state id List.mem_cons_self
        refine (leads_declare checked state' complete).imp ?_
        rintro _ s' ⟨settles, after, init', rfl⟩
        exact ⟨⟨settles, List.forall_mem_singleton.mpr (settles.isComplete complete)⟩, after, rfl, rfl⟩
    | assign target binding members value span =>
      refine (leads_assign (checked value List.mem_cons_self) head state').imp ?_
      rintro _ s' ⟨settles, after, members', value', rfl⟩
      exact ⟨⟨settles, List.forall_mem_nil _⟩, after, rfl, rfl⟩
    | eval value span =>
      refine leads_bind (leads_expr none (checked value List.mem_cons_self) state') ?_
      rintro value' s' ⟨settles, ready, passes⟩
      exact leads_pure ⟨⟨settles, List.forall_mem_nil _⟩, ⟨⟨List.forall_mem_singleton.mpr ready, trivial⟩,
        fun _ _ _ => List.forall_mem_singleton.mpr passes⟩, rfl, rfl⟩
    | ret value span =>
      refine (leads_ret settled checked state').imp ?_
      rintro _ s' ⟨settles, after, value', rfl⟩
      exact ⟨⟨settles, List.forall_mem_nil _⟩, after, rfl, rfl⟩
    | breakOut | continueLoop =>
      exact leads_pure ⟨⟨.refl s, List.forall_mem_nil _⟩, ⟨⟨List.forall_mem_nil _, trivial⟩,
        fun _ _ _ => List.forall_mem_nil _⟩, rfl, rfl⟩

end Complete

/-! ## The last check -/

theorem Verify.expr_ok {e : Expr Atom} (h : e.Ready s) : Verify.expr e = .ok () := by
  have none : e.terms.find? (fun a => !isBound a) = none := by
    rw [List.find?_eq_none]
    intro a member
    simp [h.bound a member]
  rw [Verify.expr, none]

theorem Verify.exprs_ok (es : List (Expr Atom)) (h : ∀ e ∈ es, e.Ready s) :
    es.forM Verify.expr = .ok () := by
  induction es with
  | nil => rfl
  | cons e es ih =>
    obtain ⟨first, others⟩ := List.forall_mem_cons.mp h
    rw [List.forM_eq_forM, List.forM_cons, expr_ok first]
    exact ih others

theorem Verify.optional_ok {value : Option (Expr Atom)}
    (h : ∀ e ∈ value.toList, e.Ready s) : value.forM Verify.expr = .ok () := by
  cases value with
  | none => rfl
  | some e => exact expr_ok (h e List.mem_cons_self)

namespace Verify

variable {s : Scopes}

mutual

theorem block_ok : ∀ {b : Block Atom}, b.Everywhere (Stmt.Ready s) → block s b = .ok ()
  | .mk .., h => by
    exact stmts_ok h

theorem stmts_ok : ∀ {ss : List (Stmt Atom)}, StmtsEverywhere (Stmt.Ready s) ss →
    stmts s ss = .ok ()
  | [], _ => by
    rfl
  | _ :: _, ⟨first, others⟩ => by
    unfold stmts
    rw [stmt_ok first]
    exact stmts_ok others

theorem stmt_ok : ∀ {st : Stmt Atom}, st.Everywhere (Stmt.Ready s) → stmt s st = .ok ()
  | .declare name ty init var hidden span, ready => by
    have head : (var.any fun id => (s.typeOf id).isComplete) = true := ready.head
    unfold stmt
    rw [head]
    exact optional_ok ready.exprs
  | .assign target binding members value span, ready => by
    have head : (binding.isSome && members.all fun m => m.index.isSome) = true := ready.head
    unfold stmt
    rw [head]
    exact expr_ok (ready.exprs value List.mem_cons_self)
  | .eval value span, ready => by
    exact expr_ok (ready.exprs value List.mem_cons_self)
  | .ret value span, ready => by
    exact optional_ok ready.exprs
  | .branch arms otherwise span, ⟨ready, inArms, inOther⟩ => by
    unfold stmt
    rw [exprs_ok (arms.map Arm.condition) ready.exprs, blocks_ok inArms,
      optionalBlock_ok inOther]
    rfl
  | .loop condition body span, ⟨ready, inside⟩ => by
    unfold stmt
    rw [expr_ok (ready.exprs condition List.mem_cons_self), block_ok inside]
    rfl
  | .breakOut .., _ | .continueLoop .., _ => by
    rfl

theorem blocks_ok : ∀ {arms : List (Arm Atom)}, ArmsEverywhere (Stmt.Ready s) arms →
    blocks s arms = .ok ()
  | [], _ => by
    rfl
  | .mk .. :: _, ⟨first, others⟩ => by
    unfold blocks
    rw [block_ok first]
    exact blocks_ok others

theorem optionalBlock_ok : ∀ {b : Option (Block Atom)}, OtherwiseEverywhere (Stmt.Ready s) b →
    optionalBlock s b = .ok ()
  | none, _ => by
    rfl
  | some _, h => by
    exact block_ok h

end

mutual

theorem item_ok : ∀ {i : Item Atom}, (∀ f ∈ i.functions, f.body.Everywhere (Stmt.Ready s)) →
    item s i = .ok ()
  | .function f, h => by
    exact block_ok (h f List.mem_cons_self)
  | .submodule .., h => by
    exact items_ok h
  | .imports _, _ | .global _, _ | .struct _, _ => by
    rfl

theorem items_ok : ∀ {is : List (Item Atom)},
    (∀ f ∈ functionsOf is, f.body.Everywhere (Stmt.Ready s)) → items s is = .ok ()
  | [], _ => by
    rfl
  | _ :: _, h => by
    unfold items
    obtain ⟨first, others⟩ := List.forall_mem_append.mp h
    rw [item_ok first]
    exact items_ok others

end

end Verify

/-! ## Settled modules -/

/-- A module is ready for code generation: the last check finds nothing, all variables are settled,
names have the types of their variables and integers fit. -/
structure Module.Ready (m : Module) : Prop where
  verified : m.verify = .ok ()
  vars : ∀ v ∈ m.scopes.vars, v.ty.isComplete = true
  exprs : ∀ f ∈ m.tree.functions, ∀ st ∈ f.body.statements, ∀ e ∈ st.exprs, e.Ready m.scopes

/-- The expressions of a module pass the tests of their contexts. -/
def Module.Passes (structs : StructTable) (m : Module) : Prop :=
  ∀ f ∈ m.tree.functions, ∃ s ∈ f.signature, ∀ st ∈ f.body.statements,
    st.Passes structs m.scopes s.result

variable {σ : Type}
variable {structs : StructTable}

/-- A statement with blocks is ready if its conditions are. -/
theorem Stmt.ready_of_conditions (result : Ty) {st : Stmt Atom} (compound : st.isSimple = false)
    (conditions : ∀ e ∈ st.exprs, e.Ready s ∧ e.Passes structs (·.same .bool)) :
    st.Ready s ∧ st.Passes structs s result := by
  cases st with
  | declare | assign | eval | ret | breakOut | continueLoop => cases compound
  | branch arms otherwise span =>
    refine ⟨⟨fun e member => (conditions e member).1, trivial⟩, fun _ c member => ?_⟩
    obtain ⟨arm, among, rfl⟩ := List.mem_map.mp member
    exact (conditions arm.condition (List.mem_map_of_mem among)).2
  | loop condition body span =>
    refine ⟨⟨fun e member => (conditions e member).1, trivial⟩, fun _ => ?_⟩
    exact List.forall_mem_singleton.mpr (conditions condition List.mem_cons_self).2

/-- The functions of a settled file are ready. -/
theorem FunctionsInScope.everywhere_ready {params : List Nat} {n n' : Nat}
    (h : FunctionsInScope (fun r => (Complete.readying structs).after r s)
      ((Complete.readying structs).conditionAfter s) params n fs n') :
    ∀ f ∈ fs, ∃ sig ∈ f.signature,
      f.body.Everywhere fun st => st.Ready s ∧ st.Passes structs s sig.result := by
  induction h with
  | nil => exact List.forall_mem_nil _
  | cons first _ ih =>
    obtain ⟨sig, known, _, signature, -, -, -, body, -⟩ := first
    refine List.forall_mem_cons.mpr ⟨⟨sig, signature, body.everywhere ⟨?_, ?_⟩⟩, ih⟩
    · intro known st after
      exact ⟨after.1, after.2 s (.refl s)⟩
    · intro st compound exprs
      refine Stmt.ready_of_conditions sig.result compound fun e member => ?_
      obtain ⟨_, condition⟩ := exprs e member
      exact condition

/-- The variables of a file that no statement declares. -/
def paramsOf (count : Nat) (fs : List (FunctionItem Atom)) : List Nat :=
  (List.range count).filter (· ∉ declaredIn fs)

theorem mem_paramsOf {count id : Nat} :
    id ∈ paramsOf count fs ↔ id < count ∧ id ∉ declaredIn fs := by
  simp [paramsOf]

namespace Resolving.FileResolved

variable {fs fs' : List (FunctionItem Atom)} {s : Scopes}

/-- What no statement declares is a parameter, with the type written for it. -/
theorem settled_params (h : FileResolved fs fs' s) {id : Nat}
    (member : id ∈ paramsOf s.vars.length fs') :
    (s.var? id).any Variable.isParam = true ∧ (s.typeOf id).isComplete = true := by
  obtain ⟨lt, new⟩ := mem_paramsOf.mp member
  obtain ⟨f, among, v, sig, found, isParam, signature, param⟩ :=
    h.judged.exists_param (Nat.zero_le id) lt new
  obtain ⟨sig', declared⟩ := h.declared f among
  cases signature.symm.trans declared.signature
  rw [Scopes.typeOf, Scopes.var?, found]
  exact ⟨isParam, declared.params_complete _ param⟩

/-- The parts of a resolved file are as resolving leaves them. -/
theorem inScope (h : FileResolved fs fs' s) (unbound : ∀ f ∈ fs, f.body.Everywhere Stmt.IsUnbound) :
    FunctionsInScope (fun _ => Stmt.ResolvedIn) Expr.ResolvedIn (paramsOf s.vars.length fs') 0 fs'
      s.vars.length := by
  refine h.judged.inScope (fun f member => ?_) unbound fun id _ lt new => mem_paramsOf.mpr ⟨lt, new⟩
  obtain ⟨sig, declared⟩ := h.declared f member
  exact ⟨sig, declared.signature⟩

/-- The parts of a resolved file are as type checking asks. -/
theorem findingBefore (structs : StructTable) (h : FileResolved fs fs' s)
    (unbound : ∀ f ∈ fs, f.body.Everywhere Stmt.IsUnbound) :
    FunctionsInScope (Check.finding structs (· ∈ paramsOf s.vars.length fs')).before Expr.ResolvedIn
      (paramsOf s.vars.length fs') 0 fs' s.vars.length := by
  have results : ∀ f ∈ fs', ∀ sig, f.signature = some sig → sig.result.isComplete = true := by
    intro f member sig signature
    obtain ⟨sig', declared⟩ := h.declared f member
    cases signature.symm.trans declared.signature
    exact declared.result_complete
  refine ((h.inScope unbound).results (Q := fun result => result.isComplete = true) results).imp
    (K := fun _ => True) (R := (· ∉ paramsOf s.vars.length fs')) (fun result => ?_)
    (fun _ _ => trivial) fun id declared param => (mem_paramsOf.mp param).2 declared
  exact ⟨fun _ _ => trivial, fun _ _ _ free part => ⟨part, free⟩, fun _ _ _ part => part⟩

end Resolving.FileResolved

/-- A resolved module whose types have been checked and settled is ready, and beside types nothing of
its variables has changed. -/
theorem Module.ensures_ready (structs : StructTable) {m : Module}
    (resolved : Resolving.FileResolved fs m.tree.functions m.scopes)
    (unbound : ∀ f ∈ fs, f.body.Everywhere Stmt.IsUnbound) :
    Ensures m.checkLoops fun m1 => Ensures (m1.typeCheck structs) fun m2 =>
      Ensures (m2.complete structs) fun m3 =>
        m3.Ready ∧ m3.Passes structs ∧ m.scopes.Retypes (fun _ => False) m3.scopes := by
  refine ensures_imp (Module.ensures_checkLoops resolved.outside resolved.marked) ?_
  rintro m1 ⟨tree, vars, -⟩
  have var (id : Nat) : m1.scopes.var? id = m.scopes.var? id := by
    rw [Scopes.var?, vars, Scopes.var?]
  have kept : m.scopes.Retypes (fun _ => False) m1.scopes := by
    have same : m1.scopes.Retypes (fun _ => False) m1.scopes := .refl m1.scopes
    refine ⟨fun id => ?_, fun _ no => no.elim⟩
    rw [← var]
    exact same.var id
  have params : (Check.finding structs (· ∈ paramsOf m.scopes.vars.length m.tree.functions)).state
      (paramsOf m.scopes.vars.length m.tree.functions) m1.scopes := by
    intro id member
    rw [Scopes.typeOf, var]
    exact resolved.settled_params member
  have before := resolved.findingBefore structs unbound
  rw [← tree] at before params
  unfold Module.typeCheck
  refine ensures_imp (Module.ensures_walk_of_leads
    (before.leads (fun result => Check.meets_finding structs result _) params)) ?_
  rintro m2 ⟨retypes, declared, found⟩
  have settled : (Complete.readying structs).state (paramsOf m.scopes.vars.length m1.tree.functions)
      m2.scopes := by
    intro id member
    rw [retypes.types id member]
    exact (params id member).2
  have found' : FunctionsInScope (Complete.readying structs).before
      (Complete.readying structs).conditionBefore _ _ _ _ := found
  unfold Module.complete
  refine ensures_imp (Module.ensures_walk_of_leads
    (found'.leads (Complete.meets_readying structs) settled)) ?_
  rintro m3 ⟨⟨settles, complete⟩, -, ready⟩
  have functions := FunctionsInScope.everywhere_ready ready
  have bodies : ∀ f ∈ m3.tree.functions, f.body.Everywhere (Stmt.Ready m3.scopes) := by
    intro f member
    obtain ⟨_, -, body⟩ := functions f member
    exact body.imp fun _ part => part.1
  have retyped := (kept.trans (retypes.mono fun _ no => no.elim)).trans
    (settles.mono fun _ no => no.elim)
  refine ⟨⟨Verify.items_ok bodies, fun v member => ?_, fun f member => ?_⟩, fun f member => ?_,
    retyped⟩
  · obtain ⟨id, lt, found⟩ := List.mem_iff_getElem.mp member
    have here : m3.scopes.var? id = some v := by
      rw [Scopes.var?, List.getElem?_eq_getElem lt, found]
    have type : m3.scopes.typeOf id = v.ty := by
      rw [Scopes.typeOf, here]
      rfl
    rw [← type]
    by_cases own : id ∈ declaredIn m1.tree.functions
    · exact complete id (declared ▸ own)
    · refine settles.isComplete (settled id (mem_paramsOf.mpr ⟨?_, own⟩))
      rw [settles.var, retypes.var, var] at here
      obtain ⟨v2, here, -⟩ := Option.map_eq_some_iff.mp here
      obtain ⟨v1, here, -⟩ := Option.map_eq_some_iff.mp here
      exact (List.getElem?_eq_some_iff.mp here).1
  · intro st among
    exact (Block.everywhere_iff.mp (bodies f member) st among).exprs
  · obtain ⟨sig, signature, body⟩ := functions f member
    exact ⟨sig, signature, fun st among => (Block.everywhere_iff.mp body st among).2⟩

/-- When the names of a file are resolved no call is bound to a function. -/
theorem ensures_readTree_isUnbound (l : Lexed) (name : String) :
    Ensures (readTree l name) fun t => ∀ f ∈ t.functions, f.body.Everywhere Stmt.IsUnbound := by
  refine ensures_bind (ensures_parse l name) fun t read => ?_
  have named : ∀ f ∈ t.functions, ∀ m ∈ f.body.names, m.IsVariable := by
    intro f hf m hm
    obtain ⟨k, -, -, rfl⟩ := read.names_mem m (List.mem_flatMap.mpr ⟨f, hf, hm⟩)
    trivial
  have wf : t.WellFormed := read.wellFormed
  refine ensures_bind (wf.shorten.hoist_isFine (fun _ => trivial)
    (wf.names_shorten named)) fun t' fine => ?_
  refine ensures_imp (t'.addReturns_isFine fine) fun t'' fine' f hf => ?_
  refine (fine' f hf).imp fun st isFine e he a ha c kind => ?_
  have mentions := (isFine.exprs e he).mentions a ha
  cases target : c.target with
  | none => rfl
  | some s => exact (mentions (.function s) (by simp [Collector.names, kind, target])).elim

/-! ## The whole analysis -/

/-- Analyses the text of a file, without the last check. -/
def analyseUnverified (loader : Loader σ) (source file name : String) : Loading σ Module := do
  let l ← scan source file
  let t ← readTree l name
  let m ← t.resolve loader
  let structs := (← get).structs
  let m ← m.checkLoops
  let m ← m.typeCheck structs
  m.complete structs

variable (loader : Loader σ) (source : String)
variable (file name : String) (shared : Shared σ)

/-- The last check comes after everything else. -/
theorem analyse_eq_bind_verify :
    analyse loader source file name = do
      let m ← analyseUnverified loader source file name
      m.verify
      return m := by
  unfold analyse analyseUnverified analyseLexed Module.finish readTree
  simp only [liftM_bind, liftM_pure, bind_assoc]

theorem bind_eq_self {α : Type} {x : Loading σ α} {f : α → Loading σ α}
    (h : ∀ shared, Leads x shared fun a _ => f a = pure a) : x >>= f = x := by
  refine ExceptT.ext (StateT.ext fun shared => ?_)
  rw [ExceptT.run_bind, StateT.run_bind]
  cases run : x.run.run shared with
  | mk result shared' =>
    cases result with
    | error e => rfl
    | ok a =>
      change (f a).run.run shared' = _
      rw [h shared a shared' run]
      rfl

/-- What an analysis comes to is ready, and its expressions pass the tests of their contexts. -/
theorem leads_analyseUnverified_passes :
    Leads (analyseUnverified loader source file name) shared fun m shared' =>
      m.Ready ∧ m.Passes shared'.structs := by
  refine leads_bind (leads_lift ensures_self) fun l s1 _ => ?_
  refine leads_bind (leads_lift
    (ensures_and (ensures_readTree_nodup l name) (ensures_readTree_isUnbound l name))) ?_
  rintro t s2 ⟨-, nodup, unbound⟩
  refine leads_bind (t.leads_resolve loader nodup s2) ?_
  rintro m s3 ⟨fs, perm, resolved⟩
  have unbound' : ∀ f ∈ fs, f.body.Everywhere Stmt.IsUnbound :=
    fun f member => unbound f (perm.mem_iff.mp member)
  refine leads_get (leads_bind (leads_lift (m.ensures_ready s3.structs resolved unbound')) ?_)
  rintro m1 s4 ⟨rfl, checked⟩
  refine leads_bind (leads_lift checked) ?_
  rintro m2 s5 ⟨rfl, settled⟩
  refine (leads_lift settled).imp ?_
  rintro m3 s6 ⟨rfl, ready, passes, -⟩
  exact ⟨ready, passes⟩

theorem leads_analyseUnverified :
    Leads (analyseUnverified loader source file name) shared fun m _ => m.Ready :=
  (leads_analyseUnverified_passes loader source file name shared).imp fun _ _ passes => passes.1

/-- A module whose types have been settled is ready for code generation, so that the last check of an
analysis never fails. -/
theorem analyse_settles (loader : Loader σ) (source file name : String) :
    (∀ shared, Leads (analyseUnverified loader source file name) shared fun m _ => m.Ready) ∧
      analyse loader source file name = analyseUnverified loader source file name := by
  refine ⟨leads_analyseUnverified loader source file name, ?_⟩
  rw [analyse_eq_bind_verify]
  refine bind_eq_self fun shared => ?_
  refine (leads_analyseUnverified loader source file name shared).imp fun m _ ready => ?_
  rw [ready.verified]
  rfl

/-- A file whose variables get their types from uses further down: `n` from the result, `low` from
`small`, so that its first value fits once it is negated. -/
def settling : String :=
  "struct P \x7b x: I16; y: F64 \x7d\n" ++
  "const g := 7\n" ++
  "fn f(a: I64, p: P): I64 \x7b\n" ++
  "  n := 1\n" ++
  "  low := -128\n" ++
  "  small: I8 = low\n" ++
  "  while n < 10 \x7b m := p.x; n = n + 1 \x7d\n" ++
  "  return a + n + g\n" ++
  "\x7d"

theorem analyse_settles_settling :
    ∃ m shared, Gives (analyseUnverified noFiles settling "m" "m") ⟨{}, ()⟩ m shared ∧ m.Ready ∧
      Gives (analyse noFiles settling "m" "m") ⟨{}, ()⟩ m shared ∧
      m.scopes.vars.map (·.ty.prim?) =
        [some .i64, none, some .i64, some .i8, some .i8, some .i16] := by
  have settles : givesAs (analyseUnverified noFiles settling "m" "m") ⟨{}, ()⟩ (fun m _ =>
      m.scopes.vars.map (·.ty.prim?) = [some .i64, none, some .i64, some .i8, some .i8, some .i16]) = true := by
    decide +kernel
  obtain ⟨m, shared, run, types⟩ := exists_of_givesAs settles
  obtain ⟨ready, same⟩ := analyse_settles noFiles settling "m" "m"
  refine ⟨m, shared, run, ready _ m shared run, ?_, of_decide_eq_true types⟩
  rw [same]
  exact run

end EbLang
