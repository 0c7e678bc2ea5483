import EbLang.Proofs.Passes

/-!
# Passes over files

The functions of a file go through a pass one after the other.  Their variables are numbered in the
same order, so what one function declares no other one knows, and what a contract says of the parts of
one function still holds when the others have been walked through.

The names of a resolved file are bound to variables that are known where they stand.
-/

namespace EbLang

variable {τ : Type}

/-! ## Functions -/

section Functions

variable (P : Ty → List Nat → Stmt Atom → Prop) (C : List Nat → Expr Atom → Prop) (params : List Nat)

/-- The parts of a function satisfy `P` and `C`.  Its variables are numbered from `n` up to `n'`,
first its parameters, which are among the given ones, and then what its body declares. -/
def FunctionInScope (n : Nat) (f : FunctionItem Atom) (n' : Nat) : Prop :=
  ∃ s known p, f.signature = some s ∧ known ⊆ params ∧ (∀ id ∈ known, n ≤ id ∧ id < p) ∧ n ≤ p ∧
    f.body.InScope (P s.result) C known ∧ Spans p n' f.body.declared

/-- The parts of some functions satisfy `P` and `C`.  Their variables are numbered from `n` up to
`n'`. -/
inductive FunctionsInScope : Nat → List (FunctionItem Atom) → Nat → Prop
  | nil {n : Nat} : FunctionsInScope n [] n
  | cons {n n1 n2 : Nat} {f : FunctionItem Atom} {fs : List (FunctionItem Atom)} :
      FunctionInScope P C params n f n1 → FunctionsInScope n1 fs n2 → FunctionsInScope n (f :: fs) n2

variable {P C params}
variable {n n' : Nat} {fs : List (FunctionItem Atom)}

theorem FunctionInScope.le {f : FunctionItem Atom}
    (h : FunctionInScope P C params n f n') : n ≤ n' := by
  obtain ⟨_, _, _, -, -, -, le, -, spans⟩ := h
  exact Nat.le_trans le spans.1

/-- The variables of some functions are those numbered. -/
theorem FunctionsInScope.declaredIn_le (h : FunctionsInScope P C params n fs n') :
    n ≤ n' ∧ ∀ id ∈ declaredIn fs, n ≤ id ∧ id < n' := by
  induction h with
  | nil => exact ⟨Nat.le_refl _, List.forall_mem_nil _⟩
  | cons first _ ih =>
    have le := first.le
    obtain ⟨_, _, _, -, -, -, le', -, spans⟩ := first
    refine ⟨Nat.le_trans le ih.1, List.forall_mem_append.mpr ⟨fun id hid => ?_, fun id hid => ?_⟩⟩
    · have own := spans.mem_iff.mp hid
      omega
    · have other := ih.2 id hid
      omega

theorem FunctionsInScope.imp {P' : Ty → List Nat → Stmt Atom → Prop}
    {C' : List Nat → Expr Atom → Prop} {K R : Nat → Prop}
    (r : ∀ result, InScope.Refines K R (P result) (P' result) C C') (around : ∀ id ∈ params, K id)
    (declared : ∀ id ∈ declaredIn fs, R id)
    (h : FunctionsInScope P C params n fs n') : FunctionsInScope P' C' params n fs n' := by
  induction h with
  | nil => exact .nil
  | cons first _ ih =>
    obtain ⟨own, others⟩ := List.forall_mem_append.mp declared
    obtain ⟨s, known, p, signature, among, range, le, body, spans⟩ := first
    have body' := body.imp (r s.result) own fun id hid => around id (among hid)
    exact .cons ⟨s, known, p, signature, among, range, le, body', spans⟩ (ih others)

/-- The parts of a function also satisfy what holds of the results of all. -/
theorem FunctionsInScope.results {Q : Ty → Prop}
    (results : ∀ f ∈ fs, ∀ s, f.signature = some s → Q s.result)
    (h : FunctionsInScope P C params n fs n') :
    FunctionsInScope (fun result known st => Q result ∧ P result known st) C params n fs n' := by
  induction h with
  | nil => exact .nil
  | cons first _ ih =>
    obtain ⟨own, others⟩ := List.forall_mem_cons.mp results
    obtain ⟨s, known, p, signature, among, range, le, body, spans⟩ := first
    have refines : InScope.Refines (fun _ => True) (fun _ => True) (P s.result)
        (fun known st => Q s.result ∧ P s.result known st) C C :=
      ⟨fun _ _ => trivial, fun _ _ _ _ part => ⟨own s signature, part⟩, fun _ _ _ part => part⟩
    have body' := body.imp refines (fun _ _ => trivial) fun _ _ => trivial
    exact .cons ⟨s, known, p, signature, among, range, le, body', spans⟩ (ih others)

end Functions

section Meets

variable {π : Ty → Pass} {c : Contract} {params : List Nat}
variable {n n' : Nat}

theorem FunctionInScope.moves (h : ∀ result, (π result).Meets c result) {D : List Nat}
    {s s' : Scopes} (moves : c.moves D s s') (apart : ∀ id ∈ D, id < n ∨ n' ≤ id)
    {f : FunctionItem Atom}
    (after : FunctionInScope (fun r => c.after r s) (c.conditionAfter s) params n f n') :
    FunctionInScope (fun r => c.after r s') (c.conditionAfter s') params n f n' := by
  obtain ⟨sig, known, p, signature, among, range, le, body, spans⟩ := after
  refine ⟨sig, known, p, signature, among, range, le, ?_, spans⟩
  have le' := spans.1
  refine body.imp ((h sig.result).refines moves) (fun id hid hD => ?_) fun id hid hD => ?_
  · have own := spans.mem_iff.mp hid
    have := apart id hD
    omega
  · have own := range id hid
    have := apart id hD
    omega

theorem FunctionInScope.leads (h : ∀ result, (π result).Meets c result) {f : FunctionItem Atom}
    {s : Scopes} (before : FunctionInScope c.before c.conditionBefore params n f n')
    (state : c.state params s) : Leads (Pass.function π f) s fun f' s' =>
      c.moves f.body.declared s s' ∧ f'.body.declared = f.body.declared ∧
        FunctionInScope (fun r => c.after r s') (c.conditionAfter s') params n f' n' := by
  obtain ⟨sig, known, p, signature, among, range, le, body, spans⟩ := before
  unfold Pass.function
  rw [signature]
  have apart : ∀ id ∈ known, id ∉ f.body.declared := by
    intro id hid hD
    have own := spans.mem_iff.mp hD
    have := range id hid
    omega
  refine leads_bind ((h sig.result).block f.body body
    ((h sig.result).state_subset among state) spans.nodup apart) ?_
  rintro b s' ⟨moves, after, declared⟩
  refine leads_pure ⟨moves, declared, sig, known, p, rfl, among, range, le, after, ?_⟩
  rwa [declared]

/-- The functions of a file come out of a pass as a contract says that their parts do. -/
theorem FunctionsInScope.leads (h : ∀ result, (π result).Meets c result)
    {fs : List (FunctionItem Atom)}
    (before : FunctionsInScope c.before c.conditionBefore params n fs n') :
    ∀ {s : Scopes}, c.state params s → Leads (fs.mapM (Pass.function π)) s fun fs' s' =>
      c.moves (declaredIn fs) s s' ∧ declaredIn fs' = declaredIn fs ∧
        FunctionsInScope (fun r => c.after r s') (c.conditionAfter s') params n fs' n' := by
  have rules := h .void
  induction before with
  | nil =>
    intro s _
    exact leads_pure ⟨rules.refl s, rfl, .nil⟩
  | @cons n n1 n2 f fs first others ih =>
    intro s state
    rw [List.mapM_cons]
    refine leads_bind (first.leads h state) ?_
    rintro f' s1 ⟨moves, declared, after⟩
    refine leads_bind (ih (rules.state_moves moves state)) ?_
    rintro fs' s2 ⟨moves', declared', after'⟩
    refine leads_pure ⟨rules.trans moves moves', ?_, .cons (after.moves h moves' ?_) after'⟩
    · unfold declaredIn at declared' ⊢
      rw [List.flatMap_cons, List.flatMap_cons, declared, declared']
    · exact fun id hid => .inr (others.declaredIn_le.2 id hid).1

end Meets

section Items

variable {σ : Type} {m : Type → Type} [Monad m] [LawfulMonad m]
  (f : FunctionItem τ → m (FunctionItem σ))

mutual

theorem Item.functions_mapFunctionsM :
    ∀ i : Item τ, Item.functions <$> i.mapFunctionsM f = i.functions.mapM f
  | .function a => by
    unfold Item.mapFunctionsM
    simp [Item.functions]
  | .submodule _ items _ _ _ => by
    unfold Item.mapFunctionsM Item.functions
    rw [← functionsOf_mapItemsM items]
    simp [Item.functions]
  | .imports _ | .global _ | .struct _ => by
    unfold Item.mapFunctionsM Item.functions
    simp [Item.functions]

/-- Changing the functions of some items one after the other is a map over the functions. -/
theorem functionsOf_mapItemsM :
    ∀ is : List (Item τ), functionsOf <$> mapItemsM f is = (functionsOf is).mapM f
  | [] => by
    unfold mapItemsM functionsOf
    simp [functionsOf]
  | i :: is => by
    unfold mapItemsM
    rw [functionsOf, List.mapM_append, ← i.functions_mapFunctionsM, ← functionsOf_mapItemsM is]
    simp [functionsOf]

end

end Items

theorem Gives.map {α β σ : Type} {x : ExceptT Error (StateM σ) α} {s s' : σ} {a : α}
    (h : Gives x s a s') (g : α → β) : Gives (g <$> x) s (g a) s' := by
  unfold Gives at h ⊢
  rw [ExceptT.run_map, StateT.run_map, h]
  rfl

/-- What a walk through the functions of a module leads to, the module comes to. -/
theorem Module.ensures_walk_of_leads {m : Module} {f : FunctionItem Atom → Walk (FunctionItem Atom)}
    {P : List (FunctionItem Atom) → Scopes → Prop}
    (h : Leads (m.tree.functions.mapM f) m.scopes P) :
    Ensures (m.walk f) fun m' => P m'.tree.functions m'.scopes := by
  intro m' walked
  unfold Module.walk at walked
  cases run : (m.tree.mapFunctionsM f).run.run m.scopes with
  | mk result scopes =>
    rw [run] at walked
    cases result with
    | error => cases walked
    | ok tree =>
      cases walked
      obtain ⟨is, s1, items, done⟩ := Gives.of_bind (run : Gives _ _ _ _)
      obtain ⟨rfl, rfl⟩ := Gives.pure_iff.mp done
      have functions := items.map functionsOf
      rw [functionsOf_mapItemsM] at functions
      exact h _ _ functions

/-! ## Resolved files -/

/-- A name stands for a known variable or a global. -/
def Binding.IsKnown (known : List Nat) : Binding → Prop
  | .localVar id => id ∈ known
  | .globalVar _ => True

/-- A name that is bound stands for a known variable or a global. -/
def IsBoundIn (known : List Nat) (binding : Option Binding) : Prop :=
  ∃ b, binding = some b ∧ b.IsKnown known

/-- A step is as resolving leaves it: a name is bound, and a call is not. -/
def AtomKind.ResolvedIn (known : List Nat) : AtomKind → Prop
  | .var _ binding => IsBoundIn known binding
  | .call c => c.target = none
  | .literal _ | .member _ => True

/-- The steps of an expression are as resolving leaves them. -/
def Expr.ResolvedIn (known : List Nat) (e : Expr Atom) : Prop :=
  ∀ a ∈ e.terms, a.kind.ResolvedIn known

/-- What a statement declares has a number, and what it assigns is bound. -/
def Stmt.HeadBoundIn (known : List Nat) : Stmt Atom → Prop
  | .declare _ _ _ var _ _ => var.isSome = true
  | .assign _ binding _ _ _ => IsBoundIn known binding
  | _ => True

/-- A statement is as resolving leaves it. -/
def Stmt.ResolvedIn (known : List Nat) (s : Stmt Atom) : Prop :=
  (∀ e ∈ s.exprs, e.ResolvedIn known) ∧ s.HeadBoundIn known

/-- The calls of an expression are not bound to functions. -/
def Expr.IsUnbound (e : Expr Atom) : Prop := ∀ a ∈ e.terms, ∀ c, a.kind = .call c → c.target = none

/-- The calls of a statement are not bound to functions. -/
def Stmt.IsUnbound (s : Stmt Atom) : Prop := ∀ e ∈ s.exprs, e.IsUnbound

section Scoped

variable {env : Env} {known : List Nat}

theorem Binds.isKnown {name : String} {b : Binding} {members : List String}
    (h : Binds env name b members) (among : env.vars ⊆ known) : b.IsKnown known := by
  cases h with
  | globalVar => trivial
  | localVar found =>
    obtain ⟨first, -, here⟩ := Option.bind_eq_some_iff.mp found
    exact among (Env.mem_vars_of_find? here)

theorem AtomBound.resolvedIn {a : Atom} {as : List Atom} (h : AtomBound env a as)
    (unbound : ∀ c, a.kind = .call c → c.target = none) (among : env.vars ⊆ known) :
    ∀ b ∈ as, b.kind.ResolvedIn known := by
  cases h with
  | literal | member => exact List.forall_mem_singleton.mpr trivial
  | @call c => exact List.forall_mem_singleton.mpr (unbound c rfl)
  | var binds =>
    refine List.forall_mem_cons.mpr ⟨⟨_, rfl, binds.isKnown among⟩, fun b member => ?_⟩
    obtain ⟨m, -, rfl⟩ := List.mem_map.mp member
    trivial

theorem ExprBound.resolvedIn {e e' : Expr Atom} (h : ExprBound env e e') (unbound : e.IsUnbound)
    (among : env.vars ⊆ known) : e'.ResolvedIn known := by
  obtain ⟨ass, bound, rfl⟩ := h
  intro b hb
  obtain ⟨as, has, hb⟩ := List.mem_flatten.mp hb
  have resolved : List.Forall₂ (fun _ as => ∀ b ∈ as, b.kind.ResolvedIn known) e.terms ass :=
    forall₂_imp_of_mem bound fun a member _ h => h.resolvedIn (unbound a member) among
  exact forall_of_forall₂ resolved as has b hb

theorem OptionalBound.resolvedIn {e e' : Option (Expr Atom)} (h : OptionalBound env e e')
    (unbound : ∀ e0 ∈ e.toList, e0.IsUnbound) (among : env.vars ⊆ known) :
    ∀ e ∈ e'.toList, e.ResolvedIn known := by
  cases h with
  | none => exact List.forall_mem_nil _
  | some bound =>
    exact List.forall_mem_singleton.mpr (bound.resolvedIn (unbound _ List.mem_cons_self) among)

end Scoped

mutual

theorem StmtScoped.inScope :
    ∀ {env env' : Env} {n n' : Nat} {s s' : Stmt Atom} {known : List Nat},
      StmtScoped env n s s' env' n' → s.Everywhere Stmt.IsUnbound → env.vars ⊆ known →
      s'.InScope Stmt.ResolvedIn Expr.ResolvedIn known ∧ env'.vars ⊆ s'.declares ++ known
  | env, _, n, _, _, _, _, @StmtScoped.declare _ _ name _ _ _ _ _ _ init, unbound, among => by
    refine ⟨⟨init.resolvedIn unbound among, rfl⟩, ?_⟩
    rw [Env.vars_declare]
    exact List.cons_subset_cons n among
  | _, _, _, _, _, _, _, .assign value binds, unbound, among =>
    have value := value.resolvedIn (unbound _ List.mem_cons_self) among
    ⟨⟨List.forall_mem_singleton.mpr value, _, rfl, binds.isKnown among⟩, among⟩
  | _, _, _, _, _, _, _, .eval value, unbound, among =>
    have value := value.resolvedIn (unbound _ List.mem_cons_self) among
    ⟨⟨List.forall_mem_singleton.mpr value, trivial⟩, among⟩
  | _, _, _, _, _, _, _, .ret value, unbound, among =>
    ⟨⟨value.resolvedIn unbound among, trivial⟩, among⟩
  | _, _, _, _, _, _, _, .branch arms otherwise, ⟨conditions, inArms, inOther⟩, among =>
    ⟨⟨arms.inScope conditions inArms among, otherwise.inScope inOther among⟩, among⟩
  | _, _, _, _, _, _, _, .loop condition body, ⟨unbound, inBody⟩, among =>
    have condition := condition.resolvedIn (unbound _ List.mem_cons_self) among
    ⟨⟨condition, body.inScope inBody among⟩, among⟩
  | _, _, _, _, _, _, _, .breakOut, _, among => ⟨⟨List.forall_mem_nil _, trivial⟩, among⟩
  | _, _, _, _, _, _, _, .continueLoop, _, among => ⟨⟨List.forall_mem_nil _, trivial⟩, among⟩

theorem ArmsScoped.inScope :
    ∀ {env : Env} {n n' : Nat} {arms arms' : List (Arm Atom)} {known : List Nat},
      ArmsScoped env n arms arms' n' → (∀ e ∈ arms.map Arm.condition, e.IsUnbound) →
      ArmsEverywhere Stmt.IsUnbound arms → env.vars ⊆ known →
      ArmsInScope Stmt.ResolvedIn Expr.ResolvedIn known arms'
  | _, _, _, _, _, _, .nil, _, _, _ => trivial
  | _, _, _, _, _, _, .cons condition body arms, conditions, ⟨inBody, inArms⟩, among =>
    have ⟨first, others⟩ := List.forall_mem_cons.mp conditions
    ⟨⟨condition.resolvedIn first among, body.inScope inBody among⟩, arms.inScope others inArms among⟩

theorem OtherwiseScoped.inScope :
    ∀ {env : Env} {n n' : Nat} {b b' : Option (Block Atom)} {known : List Nat},
      OtherwiseScoped env n b b' n' → OtherwiseEverywhere Stmt.IsUnbound b → env.vars ⊆ known →
      OtherwiseInScope Stmt.ResolvedIn Expr.ResolvedIn known b'
  | _, _, _, _, _, _, .none, _, _ => trivial
  | _, _, _, _, _, _, .some body, unbound, among => body.inScope unbound among

theorem BlockScoped.inScope :
    ∀ {env : Env} {n n' : Nat} {b b' : Block Atom} {known : List Nat},
      BlockScoped env n b b' n' → b.Everywhere Stmt.IsUnbound → env.vars ⊆ known →
      b'.InScope Stmt.ResolvedIn Expr.ResolvedIn known
  | _, _, _, _, _, _, .mk body, unbound, among => StmtsScoped.inScope body unbound among

/-- The names of a resolved body are bound to variables that are known where they stand. -/
theorem StmtsScoped.inScope :
    ∀ {env : Env} {n n' : Nat} {ss ss' : List (Stmt Atom)} {known : List Nat},
      StmtsScoped env n ss ss' n' → StmtsEverywhere Stmt.IsUnbound ss → env.vars ⊆ known →
      StmtsInScope Stmt.ResolvedIn Expr.ResolvedIn known ss'
  | _, _, _, _, _, _, .nil, _, _ => trivial
  | _, _, _, _, _, _, .cons s ss, ⟨here, others⟩, among =>
    have first := s.inScope here among
    ⟨first.1, ss.inScope others first.2⟩

end

theorem mem_paramFrame (names : List String) :
    ∀ (frame : Frame) (n : Nat), ∀ e ∈ (paramFrame frame n names).1,
      e ∈ frame ∨ n ≤ e.2 ∧ e.2 < (paramFrame frame n names).2 := by
  induction names with
  | nil => exact fun _ _ _ member => .inl member
  | cons name names ih =>
    intro frame n e member
    rw [paramFrame] at member ⊢
    split at member
    next known =>
      rw [if_pos known]
      exact ih frame n e member
    next unknown =>
      rw [if_neg unknown]
      have le := le_paramFrame names ((name, n) :: frame) (n + 1)
      rcases ih _ _ e member with member | range
      · rcases List.mem_cons.mp member with rfl | member
        · exact .inr ⟨Nat.le_refl n, le⟩
        · exact .inl member
      · exact .inr ⟨Nat.le_of_succ_le range.1, range.2⟩

section Scoped

variable {vars : List Variable} {params : List Nat}
variable {n n' : Nat} {fs fs' : List (FunctionItem Atom)}

theorem FunctionScoped.inScope {f f' : FunctionItem Atom} {s : Signature}
    (h : FunctionScoped vars n f f' n') (signature : f'.signature = some s)
    (unbound : f.body.Everywhere Stmt.IsUnbound)
    (among : ∀ id, n ≤ id → id < n' → id ∉ f'.body.declared → id ∈ params) :
    FunctionInScope (fun _ => Stmt.ResolvedIn) Expr.ResolvedIn params n f' n' := by
  have spans := h.declared
  have le := le_paramFrame f.paramNames [] n
  have range : ∀ id ∈ ((paramFrame [] n f.paramNames).1.map Prod.snd),
      n ≤ id ∧ id < (paramFrame [] n f.paramNames).2 := by
    intro id hid
    obtain ⟨e, member, rfl⟩ := List.mem_map.mp hid
    exact (mem_paramFrame f.paramNames [] n e member).resolve_left List.not_mem_nil
  refine ⟨s, _, _, signature, fun id hid => ?_, range, le, ?_, spans⟩
  · have own := range id hid
    have := spans.1
    exact among id own.1 (by omega) fun declared => by
      have := spans.mem_iff.mp declared
      omega
  · have body := h.body.inScope unbound.body (List.Subset.refl _)
    have frame : Env.vars [(paramFrame [] n f.paramNames).1] =
        (paramFrame [] n f.paramNames).1.map Prod.snd := by
      simp [Env.vars]
    rw [frame] at body
    cases hb : f'.body with
    | mk id ss span =>
      rw [hb] at body
      exact body

theorem FunctionScoped.le {f f' : FunctionItem Atom} (h : FunctionScoped vars n f f' n') : n ≤ n' :=
  Nat.le_trans (le_paramFrame f.paramNames [] n) h.declared.1

theorem FunctionsScoped.le (h : FunctionsScoped vars n fs fs' n') : n ≤ n' := by
  induction h with
  | nil => exact Nat.le_refl _
  | cons first _ ih => exact Nat.le_trans first.le ih

/-- A variable that no statement declares is a parameter. -/
theorem FunctionsScoped.exists_param
    (h : FunctionsScoped vars n fs fs' n') {id : Nat} (le : n ≤ id) (lt : id < n')
    (new : id ∉ declaredIn fs') :
    ∃ f ∈ fs', ∃ v s, vars[id]? = some v ∧ v.isParam = true ∧ f.signature = some s ∧
      (v.name, v.ty) ∈ s.allParams := by
  induction h with
  | nil => omega
  | @cons n n1 n2 f f' fs fs' first _ ih =>
    by_cases here : id < n1
    · have param : id < (paramFrame [] n f.paramNames).2 := by
        by_contra not
        refine new (List.mem_append_left _ (first.declared.mem_iff.mpr ⟨?_, here⟩))
        omega
      obtain ⟨v, s, found, isParam, -, signature, among⟩ := first.params id le param
      exact ⟨f', List.mem_cons_self, v, s, found, isParam, signature, among⟩
    · obtain ⟨g, member, rest⟩ := ih (by omega) lt fun other => new (List.mem_append_right _ other)
      exact ⟨g, List.mem_cons_of_mem _ member, rest⟩

/-- The names of the functions of a resolved file are bound where they stand. -/
theorem FunctionsScoped.inScope
    (h : FunctionsScoped vars n fs fs' n') (declared : ∀ f ∈ fs', ∃ s, f.signature = some s)
    (unbound : ∀ f ∈ fs, f.body.Everywhere Stmt.IsUnbound)
    (among : ∀ id, n ≤ id → id < n' → id ∉ declaredIn fs' → id ∈ params) :
    FunctionsInScope (fun _ => Stmt.ResolvedIn) Expr.ResolvedIn params n fs' n' := by
  induction h with
  | nil => exact .nil
  | @cons n n1 n2 f f' fs fs' first rest ih =>
    obtain ⟨⟨s, signature⟩, others⟩ := List.forall_mem_cons.mp declared
    obtain ⟨here, there⟩ := List.forall_mem_cons.mp unbound
    have le := first.le
    have le' := rest.le
    refine .cons (first.inScope signature here fun id low lt new => ?_)
      (ih others there fun id low lt new => ?_)
    · refine among id low (by omega) fun member => ?_
      rcases List.mem_append.mp member with own | other
      · exact new own
      · have := rest.nodup_declared.1 id other
        omega
    · refine among id (by omega) lt fun member => ?_
      rcases List.mem_append.mp member with own | other
      · have := first.declared.mem_iff.mp own
        omega
      · exact new other

end Scoped

end EbLang
