import EbLang.Proofs.Balance.Resolve
import EbLang.Proofs.Lookup
import EbLang.Proofs.Numbering
import EbLang.Proofs.Scopes
import EbLang.Proofs.Scoping
import EbLang.Proofs.Types

/-!
# Resolved files are lexically scoped

While a file is resolved the scopes mirror the environment of the place at hand: a name stands for
the same variable in both, and the next number is the number of variables so far.  A statement keeps
this, so do blocks and whole functions, as long as no block is entered twice, which holds if the
blocks have different numbers.

Afterwards every block has a scope that tells whether it is the body of a loop.
-/

namespace EbLang

variable {σ τ α : Type}

/-! ## Scopes of blocks -/

mutual

/-- A block and the blocks inside it have scopes that tell the bodies of loops apart.  The path is
that of the place around the block. -/
def Block.Marked (s : Scopes) (path : ScopePath) (isLoop : Bool) : Block τ → Prop
  | .mk id body _ => s.marker? (id :: path) = some isLoop ∧ StmtsMarked s (id :: path) body

/-- The blocks inside some statements have scopes that tell the bodies of loops apart. -/
def StmtsMarked (s : Scopes) (path : ScopePath) : List (Stmt τ) → Prop
  | [] => True
  | st :: ss => st.Marked s path ∧ StmtsMarked s path ss

/-- The blocks inside a statement have scopes that tell the bodies of loops apart. -/
def Stmt.Marked (s : Scopes) (path : ScopePath) : Stmt τ → Prop
  | .branch arms otherwise _ => ArmsMarked s path arms ∧ OtherwiseMarked s path otherwise
  | .loop _ body _ => body.Marked s path true
  | .declare .. | .assign .. | .eval .. | .ret .. | .breakOut .. | .continueLoop .. => True

/-- The bodies of some arms have scopes, which are not of loops. -/
def ArmsMarked (s : Scopes) (path : ScopePath) : List (Arm τ) → Prop
  | [] => True
  | .mk _ body :: arms => body.Marked s path false ∧ ArmsMarked s path arms

/-- A last branch has a scope, which is not of a loop. -/
def OtherwiseMarked (s : Scopes) (path : ScopePath) : Option (Block τ) → Prop
  | none => True
  | some body => body.Marked s path false

end

mutual

theorem Block.Marked.keeps {s s' : Scopes} (keeps : s.Keeps s') :
    ∀ {path : ScopePath} {isLoop : Bool} {b : Block τ},
      b.Marked s path isLoop → b.Marked s' path isLoop
  | _, _, .mk .., ⟨here, body⟩ => ⟨keeps _ _ here, body.keeps keeps⟩

theorem StmtsMarked.keeps {s s' : Scopes} (keeps : s.Keeps s') :
    ∀ {path : ScopePath} {ss : List (Stmt τ)}, StmtsMarked s path ss → StmtsMarked s' path ss
  | _, [], _ => trivial
  | _, _ :: _, ⟨st, ss⟩ => ⟨st.keeps keeps, ss.keeps keeps⟩

theorem Stmt.Marked.keeps {s s' : Scopes} (keeps : s.Keeps s') :
    ∀ {path : ScopePath} {st : Stmt τ}, st.Marked s path → st.Marked s' path
  | _, .branch .., ⟨arms, otherwise⟩ => ⟨arms.keeps keeps, otherwise.keeps keeps⟩
  | _, .loop .., body => Block.Marked.keeps keeps body
  | _, .declare .., _ | _, .assign .., _ | _, .eval .., _ | _, .ret .., _ => trivial
  | _, .breakOut .., _ | _, .continueLoop .., _ => trivial

theorem ArmsMarked.keeps {s s' : Scopes} (keeps : s.Keeps s') :
    ∀ {path : ScopePath} {arms : List (Arm τ)}, ArmsMarked s path arms → ArmsMarked s' path arms
  | _, [], _ => trivial
  | _, .mk .. :: _, ⟨body, arms⟩ => ⟨body.keeps keeps, arms.keeps keeps⟩

theorem OtherwiseMarked.keeps {s s' : Scopes} (keeps : s.Keeps s') :
    ∀ {path : ScopePath} {b : Option (Block τ)},
      OtherwiseMarked s path b → OtherwiseMarked s' path b
  | _, none, _ => trivial
  | _, some _, body => Block.Marked.keeps keeps body

end

/-! ## Scopes that mirror an environment -/

/-- The scopes at a place inside a block give every name the variable that the environment gives. -/
structure Mirrors (env : Env) (s : Scopes) : Prop where
  lookup : ∀ name, s.lookup name = env.find? name
  isCurrent : s.IsCurrent
  here : ∃ scope, s.scope? s.current = some scope
  inside : s.current ≠ []

namespace Mirrors

variable {env : Env} {s s' : Scopes}

/-- A walk through blocks inside the place changes nothing. -/
theorem visits {numbers : List Nat} (h : Mirrors env s) (isCurrent : s'.IsCurrent)
    (v : s.Visits (s.current.length + 1) numbers s') : Mirrors env s' where
  lookup name := (v.lookup (Nat.lt_succ_self _) name).trans (h.lookup name)
  isCurrent := isCurrent
  here := by
    rw [v.current, v.outer s.current (Nat.lt_succ_self _)]
    exact h.here
  inside := v.current ▸ h.inside

/-- A block that is entered for the first time starts with an empty frame. -/
theorem enter {b : Nat} {isLoop : Bool} (lookup : ∀ name, s.lookup name = env.find? name)
    (isCurrent : s.IsCurrent) (fresh : s.scope? (b :: s.current) = none) :
    Mirrors ([] :: env) (s.enter b isLoop) where
  lookup name := (Scopes.lookup_enter fresh name).trans (lookup name)
  isCurrent := isCurrent.enter fresh
  here := ⟨_, by rw [Scopes.current_enter, Scopes.scope?_enter fresh, if_pos rfl]⟩
  inside := by
    rw [Scopes.current_enter]
    exact List.cons_ne_nil _ _

theorem declared {scope : Scope} {v : Variable} (h : Mirrors env s)
    (known : s.scope? s.current = some scope) (d : s.Declared scope v s') :
    Mirrors (env.declare v.name s.vars.length) s' where
  lookup name := by
    rw [d.lookup known h.inside, Env.find?_declare, h.lookup]
  isCurrent := d.isCurrent h.isCurrent known
  here := by
    obtain ⟨scope', found, -⟩ := d.here
    exact ⟨scope', by rw [d.current, found]⟩
  inside := d.current ▸ h.inside

end Mirrors

namespace Resolving

/-! ## Expressions -/

variable (loader : Loader σ) (scope : ModulePath)
variable {env : Env} {n : Names σ} {vars : List Variable}

theorem leads_findVariable (name : String) (position : Position)
    (h : ∀ name, n.scopes.lookup name = env.find? name) :
    Leads (findVariable loader scope name position) n fun r n' =>
      Binds env name r.1 r.2 ∧ n'.scopes = n.scopes := by
  refine Leads.and ?_ (((lookups_scopes n.scopes loader).findVariable scope name position).leads rfl)
  refine leads_get ?_
  have first : (splitName name).head?.bind n.scopes.lookup = env.first? name :=
    congrArg _ (funext h)
  rw [first]
  split
  next id found => exact leads_pure (.localVar found)
  next missing =>
    refine leads_bind (P := fun _ _ => True) (fun _ _ _ => trivial) fun r n' _ => ?_
    split
    next => exact leads_pure (.globalVar missing)
    next => exact leads_throw

theorem leads_resolveAtom (a : Atom) (h : ∀ name, n.scopes.lookup name = env.find? name) :
    Leads (resolveAtom loader scope a) n fun as n' => AtomBound env a as ∧ n'.scopes = n.scopes := by
  obtain ⟨kind, ty, span⟩ := a
  cases kind with
  | literal l => exact leads_pure ⟨.literal, rfl⟩
  | member m => exact leads_pure ⟨.member, rfl⟩
  | var name before =>
    refine leads_bind (leads_findVariable loader scope name _ h) ?_
    rintro r n' ⟨binds, same⟩
    exact leads_pure ⟨.var binds, same⟩
  | call c =>
    have same := (lookups_scopes n.scopes loader).candidatesOf scope c
    refine leads_bind ((same _).leads rfl) fun cs n' same => ?_
    exact leads_pure ⟨.call, same⟩

theorem leads_resolveExpr (e : Expr Atom) (h : ∀ name, n.scopes.lookup name = env.find? name) :
    Leads (resolveExpr loader scope e) n fun e' n' => ExprBound env e e' ∧ n'.scopes = n.scopes := by
  refine leads_bind (leads_mapM (I := fun n' => n'.scopes = n.scopes) (R := AtomBound env) rfl
    fun n1 a _ same => ?_) ?_
  · refine (leads_resolveAtom loader scope a (same ▸ h)).imp ?_
    rintro as n2 ⟨bound, same'⟩
    exact ⟨bound, same'.trans same⟩
  · rintro ass n' ⟨bound, same⟩
    exact leads_pure ⟨⟨ass, bound, rfl⟩, same⟩

theorem leads_resolveOptional (e : Option (Expr Atom))
    (h : ∀ name, n.scopes.lookup name = env.find? name) :
    Leads (e.mapM (resolveExpr loader scope)) n fun e' n' =>
      OptionalBound env e e' ∧ n'.scopes = n.scopes := by
  cases e with
  | none => exact leads_pure ⟨.none, rfl⟩
  | some e =>
    refine leads_bind (leads_resolveExpr loader scope e h) ?_
    rintro e' n' ⟨bound, same⟩
    exact leads_pure ⟨.some bound, same⟩

theorem leads_resolveConditions (es : List (Expr Atom))
    (h : ∀ name, n.scopes.lookup name = env.find? name) :
    Leads (es.mapM (resolveExpr loader scope)) n fun es' n' =>
      List.Forall₂ (ExprBound env) es es' ∧ n'.scopes = n.scopes := by
  refine leads_mapM (I := fun n' : Names σ => n'.scopes = n.scopes) rfl fun _ e _ same => ?_
  refine (leads_resolveExpr loader scope e (same ▸ h)).imp ?_
  rintro _ _ ⟨bound, same'⟩
  exact ⟨bound, same'.trans same⟩

/-! ## Statements -/

theorem leads_within {block : Nat} {isLoop : Bool} {x : Resolving σ α} {P : α → Names σ → Prop}
    (h : Leads x { n with scopes := n.scopes.enter block isLoop } fun a n' =>
      P a { n' with scopes := n'.scopes.leave }) : Leads (within block isLoop x) n P := by
  intro a n' ha
  cases hx : x.run.run { n with scopes := n.scopes.enter block isLoop } with
  | mk r n1 =>
    have run : (within block isLoop x).run.run n =
        (r, { n1 with scopes := n1.scopes.leave }) := by
      simp only [within, ExceptT.run_mk, StateT.run_bind, StateT.run_modify, pure_bind]
      rw [hx]
      rfl
    cases run.symm.trans ha
    exact h a n1 hx

theorem leads_declareVar {β : Type} (v : Variable) {f : Nat → Resolving σ β}
    {P : β → Names σ → Prop}
    (h : Leads (f (n.scopes.declare v).1) { n with scopes := (n.scopes.declare v).2 } P) :
    Leads (declareVar v >>= f) n P :=
  leads_bind (P := fun id n' =>
      id = (n.scopes.declare v).1 ∧ n' = { n with scopes := (n.scopes.declare v).2 })
    (by rintro id n' ⟨⟩; exact ⟨rfl, rfl⟩) (by rintro id n' ⟨rfl, rfl⟩; exact h)

/-- What a walk through blocks at a place comes to: the scopes mirror the same environment again,
and only the given blocks have been entered. -/
structure Returned (env : Env) (numbers : List Nat) (s s' : Scopes) : Prop where
  mirrors : Mirrors env s'
  visits : s.Visits (s.current.length + 1) numbers s'

namespace Returned

variable {env : Env} {ns ns' : List Nat} {s s1 s2 : Scopes}

protected theorem refl (h : Mirrors env s) : Returned env [] s s := ⟨h, .refl _ _ s⟩

protected theorem trans (h : Returned env ns s s1) (h' : Returned env ns' s1 s2) :
    Returned env (ns ++ ns') s s2 := by
  refine ⟨h'.mirrors, h.visits.trans ?_⟩
  have := h'.visits
  rwa [h.visits.current] at this

end Returned

mutual

/-- A block is resolved on a frame of its own. -/
theorem leads_resolveBlock (isLoop : Bool) :
    ∀ (b : Block Atom) {env : Env} {n : Names σ}, Mirrors env n.scopes → b.numbers.Nodup →
      n.scopes.AllFresh b.numbers → Leads (resolveBlock loader scope isLoop b) n fun b' n' =>
        BlockScoped env n.scopes.vars.length b b' n'.scopes.vars.length ∧
          Returned env b.numbers n.scopes n'.scopes ∧
          b'.Marked n'.scopes n.scopes.current isLoop
  | .mk id body span, env, n, h, nodup, fresh => by
    have new := fresh id List.mem_cons_self n.scopes.current
    refine leads_bind (leads_within (P := fun body' n' =>
        StmtsScoped ([] :: env) n.scopes.vars.length body body' n'.scopes.vars.length ∧
          Returned env (id :: numbersOf body) n.scopes n'.scopes ∧
          n'.scopes.marker? (id :: n.scopes.current) = some isLoop ∧
          StmtsMarked n'.scopes (id :: n.scopes.current) body') ?_) ?_
    rotate_left
    · rintro body' n' ⟨judged, returned, marker, marked⟩
      exact leads_pure ⟨.mk judged, returned, marker, marked⟩
    refine (leads_resolveStmts body (.enter h.lookup h.isCurrent new) (List.nodup_cons.mp nodup).2
      (fresh.enter nodup)).imp ?_
    rintro body' n' ⟨judged, isCurrent, visits, marked⟩
    rw [Scopes.current_enter] at visits marked
    rw [Scopes.vars_enter] at judged
    have leave := visits.leave new
    refine ⟨judged, ⟨h.visits isCurrent leave, leave⟩, ?_, ?_⟩
    · refine visits.keeps _ isLoop ?_
      rw [Scopes.marker?, Scopes.scope?_enter new, if_pos rfl]
      rfl
    · exact marked.keeps n'.scopes.keeps_leave

/-- Statements are resolved one after the other, each among the names declared before it. -/
theorem leads_resolveStmts :
    ∀ (ss : List (Stmt Atom)) {env : Env} {n : Names σ}, Mirrors env n.scopes →
      (numbersOf ss).Nodup → n.scopes.AllFresh (numbersOf ss) →
      Leads (resolveStmts loader scope ss) n fun ss' n' =>
        StmtsScoped env n.scopes.vars.length ss ss' n'.scopes.vars.length ∧
          n'.scopes.IsCurrent ∧
          n.scopes.Visits n.scopes.current.length (numbersOf ss) n'.scopes ∧
          StmtsMarked n'.scopes n.scopes.current ss'
  | [], env, n, h, _, _ => by
    exact leads_pure ⟨.nil, h.isCurrent, .refl _ _ _, trivial⟩
  | s :: ss, env, n, h, nodup, fresh => by
    obtain ⟨nodup1, nodup2, disjoint⟩ := List.nodup_append.mp nodup
    refine leads_bind (leads_resolveStmt s h nodup1 fun b hb => fresh b (List.mem_append_left _ hb))
      ?_
    rintro s' n1 ⟨env1, scoped1, mirrors1, visits1, marked1⟩
    have fresh2 : n1.scopes.AllFresh (numbersOf ss) :=
      Scopes.AllFresh.visits (fun b hb => fresh b (List.mem_append_right _ hb)) visits1
        fun b hb hb' => disjoint b hb' b hb rfl
    refine leads_bind (leads_resolveStmts ss mirrors1 nodup2 fresh2) ?_
    rintro ss' n2 ⟨scoped2, isCurrent2, visits2, marked2⟩
    refine leads_pure ?_
    rw [visits1.current] at visits2 marked2
    exact ⟨.cons scoped1 scoped2, isCurrent2, visits1.trans visits2, marked1.keeps visits2.keeps,
      marked2⟩

/-- A statement is resolved among the names in view and may declare one more. -/
theorem leads_resolveStmt :
    ∀ (s : Stmt Atom) {env : Env} {n : Names σ}, Mirrors env n.scopes → s.numbers.Nodup →
      n.scopes.AllFresh s.numbers → Leads (resolveStmt loader scope s) n fun s' n' =>
        ∃ env', StmtScoped env n.scopes.vars.length s s' env' n'.scopes.vars.length ∧
          Mirrors env' n'.scopes ∧
          n.scopes.Visits n.scopes.current.length s.numbers n'.scopes ∧
          s'.Marked n'.scopes n.scopes.current
  | .declare name ty init var hidden span, env, n, h, _, _ => by
    have declared (declared : Ty) (init' : Option (Expr Atom)) (bound : OptionalBound env init init')
        (n1 : Names σ) (same : n1.scopes = n.scopes) :
        Leads (do
          let id ← declareVar ⟨name, declared, false, hidden, span⟩
          return .declare name ty init' (some id) hidden span) n1 fun s' n' =>
            ∃ env', StmtScoped env n.scopes.vars.length (.declare name ty init var hidden span) s'
                env' n'.scopes.vars.length ∧ Mirrors env' n'.scopes ∧
              n.scopes.Visits n.scopes.current.length [] n'.scopes ∧
              s'.Marked n'.scopes n.scopes.current := by
      obtain ⟨here, known⟩ := h.here
      refine leads_declareVar _ (leads_pure ?_)
      rw [same]
      obtain ⟨id, done⟩ := Scopes.declare_new (v := ⟨name, declared, false, hidden, span⟩)
        h.isCurrent known (.inl rfl)
      refine ⟨env.declare name n.scopes.vars.length, ?_, h.declared known done, done.visits known,
        trivial⟩
      rw [id, done.vars, List.length_append]
      exact .declare bound
    refine leads_bind (leads_resolveOptional loader scope init h.lookup) ?_
    rintro init' n1 ⟨bound, same⟩
    split
    next ty _ _ =>
      have kept := (lookups_scopes n1.scopes loader).types.typeNamed scope ty
      refine leads_bind (kept.leads rfl) fun t n2 same' => ?_
      exact declared t init' bound n2 (same'.trans same)
    next => exact declared .anyValue init' bound n1 same
  | .assign target before members value span, env, n, h, _, _ => by
    refine leads_bind (leads_resolveExpr loader scope value h.lookup) ?_
    rintro value' n1 ⟨bound, same⟩
    refine leads_bind (leads_findVariable loader scope target _ (same ▸ h.lookup)) ?_
    rintro r n2 ⟨binds, same'⟩
    refine leads_pure ?_
    rw [same'.trans same]
    exact ⟨env, .assign bound binds, h, .refl _ _ _, trivial⟩
  | .eval value span, env, n, h, _, _ => by
    refine leads_bind (leads_resolveExpr loader scope value h.lookup) ?_
    rintro value' n1 ⟨bound, same⟩
    refine leads_pure ?_
    rw [same]
    exact ⟨env, .eval bound, h, .refl _ _ _, trivial⟩
  | .ret value span, env, n, h, _, _ => by
    refine leads_bind (leads_resolveOptional loader scope value h.lookup) ?_
    rintro value' n1 ⟨bound, same⟩
    refine leads_pure ?_
    rw [same]
    exact ⟨env, .ret bound, h, .refl _ _ _, trivial⟩
  | .branch arms otherwise span, env, n, h, nodup, fresh => by
    obtain ⟨nodup1, nodup2, disjoint⟩ := List.nodup_append.mp nodup
    refine leads_bind (leads_resolveConditions loader scope _ h.lookup) ?_
    rintro conditions n1 ⟨bound, same⟩
    rw [← same] at h fresh
    refine leads_bind (leads_resolveBodies arms h nodup1 (fun b hb =>
      fresh b (List.mem_append_left _ hb)) bound) ?_
    rintro bodies n2 ⟨judged, returned, marked⟩
    have fresh2 : n2.scopes.AllFresh (otherwiseNumbers otherwise) :=
      Scopes.AllFresh.visits (fun b hb => fresh b (List.mem_append_right _ hb)) returned.visits
        fun b hb hb' => disjoint b hb' b hb rfl
    refine leads_bind (leads_resolveOptionalBlock otherwise returned.mirrors nodup2 fresh2) ?_
    rintro otherwise' n3 ⟨scoped2, returned2, marked2⟩
    refine leads_pure ?_
    rw [returned.visits.current] at marked2
    have all := returned.trans returned2
    rw [same] at judged all marked2 marked
    exact ⟨env, .branch judged scoped2, returned2.mirrors, all.visits.mono (Nat.le_succ _),
      marked.keeps returned2.visits.keeps, marked2⟩
  | .loop condition body span, env, n, h, nodup, fresh => by
    refine leads_bind (leads_resolveExpr loader scope condition h.lookup) ?_
    rintro condition' n1 ⟨bound, same⟩
    rw [← same] at h fresh
    refine leads_bind (leads_resolveBlock true body h nodup fresh) ?_
    rintro body' n2 ⟨judged, returned, marked⟩
    refine leads_pure ?_
    rw [same] at judged returned marked
    exact ⟨env, .loop bound judged, returned.mirrors, returned.visits.mono (Nat.le_succ _), marked⟩
  | .breakOut amount span, env, n, h, _, _ => by
    exact leads_pure ⟨env, .breakOut, h, .refl _ _ _, trivial⟩
  | .continueLoop span, env, n, h, _, _ => by
    exact leads_pure ⟨env, .continueLoop, h, .refl _ _ _, trivial⟩

/-- The bodies of arms are resolved after all their conditions, and put together with them. -/
theorem leads_resolveBodies :
    ∀ (arms : List (Arm Atom)) {env : Env} {n : Names σ} {conditions : List (Expr Atom)},
      Mirrors env n.scopes → (armNumbers arms).Nodup → n.scopes.AllFresh (armNumbers arms) →
      List.Forall₂ (ExprBound env) (arms.map Arm.condition) conditions →
      Leads (resolveBodies loader scope arms) n fun bodies n' =>
        ArmsScoped env n.scopes.vars.length arms (List.zipWith .mk conditions bodies)
            n'.scopes.vars.length ∧
          Returned env (armNumbers arms) n.scopes n'.scopes ∧
          ArmsMarked n'.scopes n.scopes.current (List.zipWith .mk conditions bodies)
  | [], env, n, _, h, _, _, .nil => by
    exact leads_pure ⟨.nil, .refl h, trivial⟩
  | .mk _ body :: arms, env, n, _, h, nodup, fresh, .cons bound bounds => by
    obtain ⟨nodup1, nodup2, disjoint⟩ := List.nodup_append.mp nodup
    refine leads_bind (leads_resolveBlock false body h nodup1 fun b hb =>
      fresh b (List.mem_append_left _ hb)) ?_
    rintro body' n1 ⟨judged, returned, marked⟩
    have fresh2 : n1.scopes.AllFresh (armNumbers arms) :=
      Scopes.AllFresh.visits (fun b hb => fresh b (List.mem_append_right _ hb)) returned.visits
        fun b hb hb' => disjoint b hb' b hb rfl
    refine leads_bind (leads_resolveBodies arms returned.mirrors nodup2 fresh2 bounds) ?_
    rintro bodies n2 ⟨scoped2, returned2, marked2⟩
    refine leads_pure ?_
    rw [returned.visits.current] at marked2
    exact ⟨.cons bound judged scoped2, returned.trans returned2,
      marked.keeps returned2.visits.keeps, marked2⟩

theorem leads_resolveOptionalBlock :
    ∀ (b : Option (Block Atom)) {env : Env} {n : Names σ}, Mirrors env n.scopes →
      (otherwiseNumbers b).Nodup → n.scopes.AllFresh (otherwiseNumbers b) →
      Leads (resolveOptionalBlock loader scope b) n fun b' n' =>
        OtherwiseScoped env n.scopes.vars.length b b' n'.scopes.vars.length ∧
          Returned env (otherwiseNumbers b) n.scopes n'.scopes ∧
          OtherwiseMarked n'.scopes n.scopes.current b'
  | none, env, n, h, _, _ => by
    exact leads_pure ⟨.none, .refl h, trivial⟩
  | some body, env, n, h, nodup, fresh => by
    refine leads_bind (leads_resolveBlock false body h nodup fresh) ?_
    rintro body' n' ⟨judged, returned, marked⟩
    exact leads_pure ⟨.some judged, returned, marked⟩

end

/-! ## Functions -/

theorem lookup_paramFrame {name : String} {id : Nat} (names : List String) :
    ∀ {frame : Frame} {n : Nat}, frame.lookup name = some id →
      (paramFrame frame n names).1.lookup name = some id := by
  induction names with
  | nil => exact fun h => h
  | cons other names ih =>
    intro frame n h
    rw [paramFrame]
    split
    next => exact ih h
    next new =>
      refine ih ?_
      rw [Scopes.lookup_cons_ne]
      · exact h
      · rintro rfl
        rw [h] at new
        exact new rfl

def paramSlot (frame : Frame) (name : String) : Slot :=
  match frame.lookup name with
  | some id => ⟨some 0, [id]⟩
  | none => {}

/-- The scopes at the start of a body whose parameters so far are those of a frame. -/
structure ParamsHere (frame : Frame) (s : Scopes) : Prop where
  mirrors : Mirrors [frame] s
  slots : ∃ here, s.scope? s.current = some here ∧ ∀ name, here.slot name = paramSlot frame name

/-- One more parameter: a name that is new gets the next number, another keeps its variable. -/
theorem ParamsHere.declare {frame : Frame} {s : Scopes} (h : ParamsHere frame s) {v : Variable}
    (param : v.isParam = true) :
    ParamsHere (paramFrame frame s.vars.length [v.name]).1 (s.declare v).2 ∧
      (s.declare v).2.vars =
        s.vars ++ (if (frame.lookup v.name).isSome then [] else [v]) ∧
      s.Visits s.current.length [] (s.declare v).2 := by
  obtain ⟨here, known, slots⟩ := h.slots
  have slot := slots v.name
  rw [paramSlot] at slot
  rw [paramFrame]
  cases found : frame.lookup v.name with
  | some id =>
    rw [found] at slot
    rw [Scopes.declare_again param known slot]
    exact ⟨h, by simp, .refl _ _ s⟩
  | none =>
    rw [found] at slot
    obtain ⟨-, done⟩ := Scopes.declare_new h.mirrors.isCurrent known (.inr (congrArg Slot.vars slot))
    refine ⟨⟨h.mirrors.declared known done, ?_⟩, by simpa using done.vars, done.visits known⟩
    obtain ⟨here', known', -, slots'⟩ := done.here
    refine ⟨here', by rw [done.current, known'], fun name => ?_⟩
    rw [slots', slot, slots]
    by_cases eq : name = v.name
    · simp [paramSlot, paramFrame, eq, Scopes.Slot.extended]
    · simp [paramSlot, paramFrame, eq, beq_false_of_ne eq, List.lookup_cons]

theorem paramFrame_cons (frame : Frame) (n : Nat) (name : String) (names : List String) :
    paramFrame frame n (name :: names) =
      paramFrame (paramFrame frame n [name]).1 (paramFrame frame n [name]).2 names := by
  simp only [paramFrame]
  split <;> rfl

/-- Declaring parameters numbers them as the frame does. -/
theorem leads_declareParams (span : Span) (params : List (String × Ty)) :
    ∀ {frame : Frame} {n : Names σ}, ParamsHere frame n.scopes →
      Leads (params.forM fun p => do
          let _ ← declareVar (σ := σ) ⟨p.1, p.2, true, false, span⟩) n fun _ n' =>
        ParamsHere (paramFrame frame n.scopes.vars.length (params.map Prod.fst)).1 n'.scopes ∧
          n'.scopes.vars.length = (paramFrame frame n.scopes.vars.length (params.map Prod.fst)).2 ∧
          n.scopes.Visits n.scopes.current.length [] n'.scopes ∧
          ∀ id, n.scopes.vars.length ≤ id → id < n'.scopes.vars.length →
            ∃ v, n'.scopes.vars[id]? = some v ∧ v.isParam = true ∧
              (paramFrame frame n.scopes.vars.length (params.map Prod.fst)).1.lookup v.name
                = some id ∧ (v.name, v.ty) ∈ params := by
  induction params with
  | nil =>
    intro frame n h
    refine leads_pure ⟨h, rfl, .refl _ _ _, fun id le lt => ?_⟩
    omega
  | cons p params ih =>
    intro frame n h
    let v : Variable := ⟨p.1, p.2, true, false, span⟩
    obtain ⟨here, vars, visits⟩ := h.declare (v := v) rfl
    change Leads ((declareVar v >>= fun _ => pure ()) >>= fun _ => params.forM _) n _
    rw [bind_assoc]
    refine leads_declareVar v (leads_bind (P := fun _ n' =>
      n' = { n with scopes := (n.scopes.declare v).2 }) (leads_pure rfl) ?_)
    rintro _ n1 rfl
    have length : (n.scopes.declare v).2.vars.length =
        (paramFrame frame n.scopes.vars.length [p.1]).2 := by
      rw [vars]
      rw [paramFrame]
      split
      · exact congrArg List.length (List.append_nil _)
      · exact List.length_append
    rw [List.map_cons, paramFrame_cons, ← length]
    refine (ih here).imp ?_
    rintro _ n' ⟨here', length', visits', new⟩
    refine ⟨here', length', visits.trans (visits.current ▸ visits'), fun id le lt => ?_⟩
    by_cases known : id < (n.scopes.declare v).2.vars.length
    · -- The first parameter itself, whose name was new.
      rw [vars] at known
      split at known
      next =>
        rw [List.append_nil] at known
        omega
      next absent =>
        have eq : id = n.scopes.vars.length := by
          rw [List.length_append, List.length_singleton] at known
          omega
        obtain ⟨others, more⟩ := visits'.vars
        refine ⟨v, ?_, rfl, lookup_paramFrame _ ?_, List.mem_cons_self⟩
        · rw [← more]
          rw [vars, if_neg absent, eq, List.append_assoc, List.getElem?_append_right (Nat.le_refl _),
            Nat.sub_self]
          rfl
        · rw [paramFrame, if_neg absent, eq]
          exact List.lookup_cons_self
    · obtain ⟨v', found, param, lookup, member⟩ := new id (Nat.le_of_not_lt known) lt
      exact ⟨v', found, param, lookup, List.mem_cons_of_mem _ member⟩

/-- The signature of a declared function has the parameters of the function and settled types, and a
result if one is written. -/
structure DeclaredAs (f : FunctionItem τ) (s : Signature) : Prop where
  signature : f.signature = some s
  names : s.allParams.map Prod.fst = f.paramNames
  params_complete : ∀ p ∈ s.allParams, p.2.isComplete = true
  result_complete : s.result.isComplete = true
  result_written : s.result.isVoid = false → f.result.any Returns.isValueType = true

def IsDeclared (f : FunctionItem τ) : Prop := ∃ s, DeclaredAs f s

/-- A function is resolved with its parameters declared first. -/
theorem leads_resolveFunction {f : FunctionItem Atom} (declared : IsDeclared f)
    (outside : n.scopes.current = []) (isCurrent : n.scopes.IsCurrent)
    (nodup : f.body.numbers.Nodup) (fresh : n.scopes.AllFresh f.body.numbers) :
    Leads (resolveFunction loader scope f) n fun f' n' =>
      FunctionScoped n'.scopes.vars n.scopes.vars.length f f' n'.scopes.vars.length ∧
        f'.signature = f.signature ∧ n'.scopes.IsCurrent ∧
        n.scopes.Visits 1 f.body.numbers n'.scopes ∧ f'.body.Marked n'.scopes [] false := by
  obtain ⟨s, signature, names, -, -, -⟩ := declared
  cases hb : f.body with
  | mk id body span =>
    rw [hb, Block.numbers] at nodup fresh
    have new := fresh id List.mem_cons_self n.scopes.current
    have start : ParamsHere [] (n.scopes.enter id false) := by
      have empty (name : String) : n.scopes.lookup name = Env.find? [] name := by
        rw [Scopes.lookup, outside]
        rfl
      refine ⟨.enter empty isCurrent new, ⟨false, []⟩, ?_, fun _ => rfl⟩
      · rw [Scopes.current_enter, Scopes.scope?_enter new, if_pos rfl]
    unfold resolveFunction
    rw [signature, hb]
    refine leads_bind (leads_within (P := fun body' n' =>
        FunctionScoped n'.scopes.vars n.scopes.vars.length f
            { f with body := .mk id body' span, signature := some s } n'.scopes.vars.length ∧
          n'.scopes.IsCurrent ∧ n.scopes.Visits 1 (id :: numbersOf body) n'.scopes ∧
          Block.Marked n'.scopes [] false (.mk id body' span)) ?_) ?_
    rotate_left
    · rintro body' n' ⟨judged, facts⟩
      exact leads_pure ⟨judged, rfl, facts⟩
    refine leads_bind (leads_declareParams f.span s.allParams start) ?_
    rintro _ n1 ⟨here, length, visits, params⟩
    have fresh1 : n1.scopes.AllFresh (numbersOf body) :=
      (fresh.enter nodup).visits visits fun _ _ => List.not_mem_nil
    refine (leads_resolveStmts loader scope body here.mirrors (List.nodup_cons.mp nodup).2
      fresh1).imp ?_
    rintro body' n' ⟨judged, isCurrent', visits', marked⟩
    rw [Scopes.vars_enter, names] at length params judged
    have current := visits.current.trans (Scopes.current_enter n.scopes id false)
    rw [current] at visits' marked
    rw [Scopes.current_enter] at visits
    have all := visits.trans visits'
    have leave := all.leave new
    rw [outside] at leave marked all
    refine ⟨⟨?_, ?_, fun i le lt => ?_⟩, isCurrent', leave, ?_, marked.keeps n'.scopes.keeps_leave⟩
    · rw [hb]
      rfl
    · rw [hb, ← length]
      exact judged
    · obtain ⟨v, found, param, lookup, member⟩ := params i le (length ▸ lt)
      obtain ⟨others, more⟩ := visits'.vars
      refine ⟨v, s, ?_, param, lookup, rfl, member⟩
      change n'.scopes.vars[i]? = _
      rw [← more, List.getElem?_append_left (List.getElem?_eq_some_iff.mp found).1]
      exact found
    · refine all.keeps _ false ?_
      rw [Scopes.marker?, Scopes.scope?_enter new, outside, if_pos rfl]
      rfl

/-- What resolving some functions comes to. -/
structure FunctionsResolved (fs fs' : List (FunctionItem Atom)) (s s' : Scopes) : Prop where
  judged : FunctionsScoped s'.vars s.vars.length fs fs' s'.vars.length
  signatures : List.Forall₂ (fun f f' => f'.signature = f.signature) fs fs'
  isCurrent : s'.IsCurrent
  visits : s.Visits 1 (fs.flatMap fun f => f.body.numbers) s'
  marked : ∀ f' ∈ fs', f'.body.Marked s' [] false

namespace FunctionsResolved

variable {fs fs' gs gs' : List (FunctionItem Atom)} {s s1 s2 : Scopes}

protected theorem nil (h : s.IsCurrent) : FunctionsResolved [] [] s s :=
  ⟨.nil, .nil, h, .refl _ _ s, List.forall_mem_nil _⟩

protected theorem append (h : FunctionsResolved fs fs' s s1) (h' : FunctionsResolved gs gs' s1 s2) :
    FunctionsResolved (fs ++ gs) (fs' ++ gs') s s2 where
  judged := (h.judged.mono h'.visits.vars).append h'.judged
  signatures := List.rel_append h.signatures h'.signatures
  isCurrent := h'.isCurrent
  visits := by
    rw [List.flatMap_append]
    exact h.visits.trans h'.visits
  marked := List.forall_mem_append.mpr
    ⟨fun f hf => (h.marked f hf).keeps h'.visits.keeps, h'.marked⟩

end FunctionsResolved

mutual

theorem leads_resolveItems :
    ∀ (scope : ModulePath) (is : List (Item Atom)) {n : Names σ},
      (∀ f ∈ functionsOf is, IsDeclared f) → n.scopes.current = [] → n.scopes.IsCurrent →
      (itemNumbers is).Nodup → n.scopes.AllFresh (itemNumbers is) →
      Leads (resolveItems loader scope is) n fun is' n' =>
        FunctionsResolved (functionsOf is) (functionsOf is') n.scopes n'.scopes
  | scope, [], n, _, _, isCurrent, _, _ => by
    refine leads_pure ?_
    exact .nil isCurrent
  | scope, i :: is, n, declared, outside, isCurrent, nodup, fresh => by
    unfold itemNumbers functionsOf at nodup fresh
    rw [List.flatMap_append] at nodup fresh
    obtain ⟨declared1, declared2⟩ := List.forall_mem_append.mp declared
    obtain ⟨nodup1, nodup2, disjoint⟩ := List.nodup_append.mp nodup
    refine leads_bind (leads_resolveItem scope i declared1 outside isCurrent nodup1 fun b hb =>
      fresh b (List.mem_append_left _ hb)) fun i' n1 h1 => ?_
    have fresh2 : n1.scopes.AllFresh (itemNumbers is) :=
      Scopes.AllFresh.visits (fun b hb => fresh b (List.mem_append_right _ hb)) h1.visits
        fun b hb hb' => disjoint b hb' b hb rfl
    refine leads_bind (leads_resolveItems scope is declared2 (h1.visits.current.trans outside)
      h1.isCurrent nodup2 fresh2) fun is' n2 h2 => leads_pure ?_
    exact h1.append h2

theorem leads_resolveItem :
    ∀ (scope : ModulePath) (i : Item Atom) {n : Names σ},
      (∀ f ∈ i.functions, IsDeclared f) → n.scopes.current = [] → n.scopes.IsCurrent →
      (i.functions.flatMap fun f => f.body.numbers).Nodup →
      n.scopes.AllFresh (i.functions.flatMap fun f => f.body.numbers) →
      Leads (resolveItem loader scope i) n fun i' n' =>
        FunctionsResolved i.functions i'.functions n.scopes n'.scopes
  | scope, .function f, n, declared, outside, isCurrent, nodup, fresh => by
    unfold Item.functions at declared nodup fresh
    rw [List.flatMap_singleton] at nodup fresh
    refine leads_bind (leads_resolveFunction loader scope (declared f List.mem_cons_self) outside
      isCurrent nodup fresh) ?_
    rintro f' n' ⟨judged, signature, isCurrent', visits, marked⟩
    refine leads_pure ?_
    unfold Item.functions
    refine ⟨.cons judged .nil, .cons signature .nil, isCurrent', ?_,
      List.forall_mem_singleton.mpr marked⟩
    rw [List.flatMap_singleton]
    exact visits
  | scope, .submodule name items isPub isExtend span, n, declared, outside, isCurrent, nodup,
      fresh => by
    refine leads_bind (leads_resolveItems (scope ++ [name]) items declared outside isCurrent nodup
      fresh) fun items' n' h => leads_pure ?_
    exact h
  | _, .imports _, n, _, _, isCurrent, _, _ | _, .global _, n, _, _, isCurrent, _, _
  | _, .struct _, n, _, _, isCurrent, _, _ => by
    refine leads_pure ?_
    exact .nil isCurrent

end

/-! ## Declaring functions -/

theorem ensures_failAt {position : Position} {fault : Fault} {P : α → Prop} :
    Ensures (failAt position fault : Resolving σ α) P :=
  fun _ _ h => nomatch h

theorem ensures_typeNamed (ty : TypeName) :
    Ensures (typeNamed loader scope ty) fun t => t.isComplete = true := by
  unfold typeNamed
  dsimp only
  split
  · exact ensures_failAt
  · exact ensures_pure (Ty.isComplete_ofPrim _)
  · split
    · exact ensures_then fun r => ensures_then fun r => ensures_pure rfl
    · exact ensures_failAt
    · refine ensures_then fun m => ensures_then fun n => ensures_then fun r => ensures_then fun _ => ?_
      split
      · exact ensures_then fun _ => ensures_pure rfl
      · exact ensures_pure rfl

theorem isValueType_of_ne_void {ty : TypeName} (h : (ty.name == Prim.void.name) = false) :
    Returns.isValueType ty = true := by
  refine bne_iff_ne.mpr fun found => ?_
  have same := List.find?_some found
  rw [beq_iff_eq.mp same, beq_self_eq_true] at h
  cases h

theorem ensures_resultNamed (result : Option TypeName) :
    Ensures (resultNamed loader scope result) fun t => t.isComplete = true ∧
      (t.isVoid = false → result.any Returns.isValueType = true) := by
  unfold resultNamed
  split
  · exact ensures_pure ⟨Ty.isComplete_ofPrim _, fun no => absurd no (by decide)⟩
  next ty =>
    split
    next => exact ensures_pure ⟨Ty.isComplete_ofPrim _, fun no => absurd no (by decide)⟩
    next written =>
      refine ensures_imp (ensures_typeNamed loader scope ty) fun t complete => ⟨complete, fun _ => ?_⟩
      exact isValueType_of_ne_void (Bool.eq_false_iff.mpr written)

theorem ensures_namedParameter (f : NamedField) :
    Ensures (namedParameter loader scope f) fun p => p.name = f.name ∧ p.ty.isComplete = true := by
  refine ensures_bind (ensures_typeNamed loader scope f.ty) fun ty complete => ?_
  split
  · exact ensures_then fun r => ensures_pure ⟨rfl, complete⟩
  · exact ensures_then fun n => ensures_pure ⟨rfl, complete⟩

theorem map_eq_of_forall₂ {β γ : Type} {f : α → γ} {g : β → γ} {as : List α} {bs : List β}
    (h : List.Forall₂ (fun a b => g b = f a) as bs) : bs.map g = as.map f := by
  induction h with
  | nil => rfl
  | cons eq _ ih => rw [List.map_cons, List.map_cons, eq, ih]

/-- Declaring a function only fills in its signature. -/
theorem ensures_declareFunction_isDeclared (f : FunctionItem τ) :
    Ensures (declareFunction loader scope f) fun f' =>
      f' = { f with signature := f'.signature } ∧ IsDeclared f' := by
  refine ensures_then fun home => ?_
  refine ensures_bind (ensures_mapM (R := fun p q => q.name = p.name ∧ q.ty.isComplete = true)
    fun p _ => ensures_bind (ensures_typeNamed loader scope p.ty) fun ty complete =>
      ensures_pure ⟨rfl, complete⟩) fun params hp => ?_
  refine ensures_bind (ensures_mapM fun n _ => ensures_namedParameter loader scope n)
    fun named hn => ?_
  refine ensures_bind (ensures_resultNamed loader scope f.result) fun result settled => ?_
  refine ensures_then fun index => ensures_then fun _ =>
    ensures_pure ⟨rfl, _, rfl, ?_, ?_, settled.1, settled.2⟩
  · rw [Signature.allParams, List.map_append, List.map_map, List.map_map]
    exact congrArg₂ _ (map_eq_of_forall₂ (hp.imp fun _ _ h => h.1))
      (map_eq_of_forall₂ (hn.imp fun _ _ h => h.1))
  · have complete_params := forall_of_forall₂ (hp.imp fun _ _ h => h.2)
    have complete_named := forall_of_forall₂ (hn.imp fun _ _ h => h.2)
    rw [Signature.allParams]
    simp only [List.forall_mem_append, List.forall_mem_map]
    exact ⟨complete_params, complete_named⟩

theorem ensures_declareStructs_functions (scope : ModulePath) (is : List (Item τ)) :
    Ensures (declareStructs (σ := σ) scope is) fun is' => functionsOf is' = functionsOf is := by
  refine ensures_imp (ensures_declareStructs scope is) fun is' same => ?_
  have functions : functionsOf is = functionsOf is' := by simpa using same.functions
  exact functions.symm

theorem ensures_declareValues_functions (scope : ModulePath) (is : List (Item τ)) :
    Ensures (declareValues loader scope is) fun is' =>
      List.Forall₂ (fun f f' => f' = { f with signature := f'.signature } ∧ IsDeclared f')
        (functionsOf is) (functionsOf is') :=
  ensures_imp (ensures_declareValues loader (ensures_declareFunction_isDeclared loader) scope is)
    fun _ same => same.functions

/-! ## Files -/

/-- The signature of a function does not matter for its names. -/
theorem functionScoped_of_declared {n n' : Nat} {f g f' : FunctionItem Atom}
    (same : g = { f with signature := g.signature }) (h : FunctionScoped vars n g f' n') :
    FunctionScoped vars n f f' n' := by
  rw [same] at h
  exact ⟨h.same, h.body, h.params⟩

theorem functionsScoped_of_declared {fs gs : List (FunctionItem Atom)}
    (same : List.Forall₂ (fun f g => g = { f with signature := g.signature }) fs gs) :
    ∀ {n n' : Nat} {fs' : List (FunctionItem Atom)}, FunctionsScoped vars n gs fs' n' →
      FunctionsScoped vars n fs fs' n' := by
  induction same with
  | nil => exact fun h => h
  | cons hf _ ih =>
    intro n n' fs' h
    cases h with
    | cons first rest => exact .cons (functionScoped_of_declared hf first) (ih rest)

theorem numbers_of_declared {fs gs : List (FunctionItem Atom)}
    (same : List.Forall₂ (fun f g => g = { f with signature := g.signature }) fs gs) :
    (gs.flatMap fun f => f.body.numbers) = fs.flatMap fun f => f.body.numbers := by
  induction same with
  | nil => rfl
  | cons hf _ ih => rw [List.flatMap_cons, List.flatMap_cons, ih, hf]

/-- A resolved function keeps its parameters and the signature it was declared with. -/
theorem isDeclared_of_scoped {fs fs' : List (FunctionItem Atom)}
    (signatures : List.Forall₂ (fun f f' => f'.signature = f.signature) fs fs') :
    ∀ {n n' : Nat}, FunctionsScoped vars n fs fs' n' → (∀ f ∈ fs, IsDeclared f) →
      ∀ f' ∈ fs', IsDeclared f' := by
  induction signatures with
  | nil => exact fun _ _ => List.forall_mem_nil _
  | @cons f f' fs fs' signature _ ih =>
    intro n n' h declared
    cases h with
    | cons first rest =>
      obtain ⟨⟨s, d⟩, others⟩ := List.forall_mem_cons.mp declared
      refine List.forall_mem_cons.mpr ⟨⟨s, signature.trans d.signature, ?_, d.params_complete,
        d.result_complete, ?_⟩, ih rest others⟩
      · rw [d.names, first.same]
        rfl
      · rw [first.same]
        exact d.result_written

/-- What is known of the functions of a file when its names are bound. -/
structure FileResolved (fs fs' : List (FunctionItem Atom)) (s : Scopes) : Prop where
  judged : FunctionsScoped s.vars 0 fs fs' s.vars.length
  declared : ∀ f ∈ fs', IsDeclared f
  outside : s.current = []
  marked : ∀ f ∈ fs', f.body.Marked s [] false

theorem leads_file {items : List (Item Atom)} (nodup : (itemNumbers items).Nodup)
    (start : n.scopes = {}) : Leads (file loader items) n fun is' n' =>
      FileResolved (functionsOf items) (functionsOf is') n'.scopes := by
  have keeps := declarations_scopes {} loader
  refine leads_bind (((keeps.declareStructs [] items).leads start).and
    (Ensures.leads (ensures_declareStructs_functions [] items))) ?_
  rintro items1 n1 ⟨scopes1, functions1⟩
  refine leads_bind ((keeps.declareImports items1).leads scopes1) fun _ n2 scopes2 => ?_
  refine leads_bind ((keeps.declareAllMembers [] items1).leads scopes2) fun _ n3 scopes3 => ?_
  refine leads_bind (((keeps.declareValues [] items1).leads scopes3).and
    (Ensures.leads (ensures_declareValues_functions loader [] items1))) ?_
  rintro items2 n4 ⟨scopes, declared⟩
  rw [functions1] at declared
  have same := declared.imp fun _ _ h => h.1
  have declared2 := forall_of_forall₂ (declared.imp fun _ _ h => h.2)
  have numbers : itemNumbers items2 = itemNumbers items := numbers_of_declared same
  rw [← numbers] at nodup
  refine (leads_resolveItems loader [] items2 declared2 (by rw [scopes]) ?_ nodup ?_).imp
    fun is' n' h => ?_
  · rw [scopes]
    rintro _ _ ⟨⟩
  · rw [scopes]
    exact fun _ _ _ => rfl
  · refine ⟨functionsScoped_of_declared same ?_, ?_, ?_, h.marked⟩
    · have judged := h.judged
      rwa [scopes] at judged
    · exact isDeclared_of_scoped h.signatures h.judged declared2
    · rw [h.visits.current, scopes]

theorem leads_runIn {file : String} {x : Resolving σ α} {shared : Shared σ}
    {P : α × Names σ → Shared σ → Prop}
    (h : Leads x { shared, decls := .new file } fun a n => P (a, n) n.shared) :
    Leads (runIn file x) shared P := by
  rintro ⟨a, n⟩ shared' ha
  cases hx : x.run.run { shared, decls := .new file } with
  | mk r n1 =>
    have run : (runIn file x).run.run shared = (r.map fun a => (a, n1), n1.shared) := by
      simp only [runIn, ExceptT.run_mk, StateT.run_bind, StateT.run_get, pure_bind]
      rw [hx]
      rfl
    have eq := run.symm.trans ha
    cases r with
    | error e => cases eq
    | ok b =>
      cases eq
      exact h a n hx

end Resolving

/-- The functions of a resolved file are those of the file, with their names bound. -/
theorem FileTree.leads_resolve (loader : Loader σ) {t : FileTree Atom}
    (nodup : (itemNumbers t.items).Nodup) (shared : Shared σ) :
    Leads (t.resolve loader) shared fun m _ =>
      ∃ fs, fs.Perm t.functions ∧ Resolving.FileResolved fs m.tree.functions m.scopes := by
  refine leads_bind (Ensures.leads (ensures_liftExcept (Merge.ensures_levels _ t.items)))
    fun items shared1 merged => ?_
  have perm := merged.functions
  have nodup' : (itemNumbers items).Nodup := (perm.flatMap_right _).nodup_iff.mpr nodup
  refine leads_bind (Resolving.leads_runIn (P := fun r _ =>
    Resolving.FileResolved (functionsOf items) (functionsOf r.1) r.2.scopes)
    (Resolving.leads_file loader nodup' rfl)) fun r shared2 h => ?_
  exact leads_pure ⟨functionsOf items, perm, h⟩

/-! ## Lexical scoping -/

/-- The names of a module are bound as the places where they stand in the file say, and different
declarations have different variables. -/
structure LexicallyScoped (t : FileTree Atom) (m : Module) : Prop where
  functions : ∃ fs, fs.Perm t.functions ∧
    FunctionsScoped m.scopes.vars 0 fs m.tree.functions m.scopes.vars.length
  distinct : (declaredIn m.tree.functions).Nodup

/-- Every file that is resolved is lexically scoped if its blocks have different numbers, as the
blocks of every file have that was read and rewritten. -/
theorem resolve_lexicallyScoped (loader : Loader σ) :
    (∀ (t : FileTree Atom) (shared : Shared σ), (itemNumbers t.items).Nodup →
      Leads (t.resolve loader) shared fun m _ => LexicallyScoped t m) ∧
    ∀ (l : Lexed) (name : String),
      Ensures (readTree l name) fun t => (itemNumbers t.items).Nodup := by
  refine ⟨fun t shared nodup => ?_, ensures_readTree_nodup⟩
  refine (t.leads_resolve loader nodup shared).imp ?_
  rintro m _ ⟨fs, perm, resolved⟩
  exact ⟨⟨fs, perm, resolved.judged⟩, resolved.judged.nodup_declared.2⟩

/-- A loader that knows no file. -/
def noFiles : Loader Unit := fun file position => throw ⟨.unknownModule file, position⟩

/-- A file with a parameter, a variable of its name in the body and another one in a loop, and a
global. -/
def shadowing : String :=
  "const g := 1\n" ++
  "fn f(x: I32, y: I32): I32 \x7b\n" ++
  "  x := x + g\n" ++
  "  while x < y \x7b x := x + 1; z := x \x7d\n" ++
  "  return x\n" ++
  "\x7d"

/-- The analysis of a file from its characters. -/
def analyseChars (text : List Char) : Loading Unit Module := do
  analyseLexed noFiles (← scanFrom (Position.start "m") text) "m"

theorem analyse_ofList (text : List Char) :
    analyse noFiles (String.ofList text) "m" "m" = analyseChars text := by
  rw [analyse, scan, String.toList_ofList, analyseChars]

def resolvesAs (source : String) (check : FileTree Atom → Module → Bool) : Bool :=
  resultAs (scan source "m") fun l => resultAs (readTree l "m") fun t =>
    givesAs (t.resolve noFiles) ⟨{}, ()⟩ fun m _ => check t m

theorem exists_of_resolvesAs {source : String} {check : FileTree Atom → Module → Bool}
    (h : resolvesAs source check = true) :
    ∃ l t m shared, scan source "m" = .ok l ∧ readTree l "m" = .ok t ∧
      Gives (t.resolve noFiles) ⟨{}, ()⟩ m shared ∧ check t m = true := by
  obtain ⟨l, scanned, h⟩ := exists_of_resultAs h
  obtain ⟨t, read, h⟩ := exists_of_resultAs h
  obtain ⟨m, shared, resolved, h⟩ := exists_of_givesAs h
  exact ⟨l, t, m, shared, scanned, read, resolved, h⟩

/-- What a check says of a file, next to another file. -/
def readsBeside (library source : String)
    (check : List (String × Declarations) → FileTree Atom → Bool) : Bool :=
  resolvesAs library fun _ lib => resultAs (scan source "main") fun l =>
    resultAs (readTree l "main") (check [("m", lib.decls)])

theorem exists_of_readsBeside {library source : String}
    {check : List (String × Declarations) → FileTree Atom → Bool}
    (h : readsBeside library source check = true) :
    ∃ known l t, scan source "main" = .ok l ∧ readTree l "main" = .ok t ∧ check known t = true := by
  obtain ⟨-, -, lib, -, -, -, -, h⟩ := exists_of_resolvesAs h
  obtain ⟨l, scanned, h⟩ := exists_of_resultAs h
  obtain ⟨t, read, h⟩ := exists_of_resultAs h
  exact ⟨_, l, t, scanned, read, h⟩

theorem resolve_lexicallyScoped_shadowing :
    ∃ l t m shared, scan shadowing "m" = .ok l ∧ readTree l "m" = .ok t ∧
      (itemNumbers t.items).Nodup ∧ Gives (t.resolve noFiles) ⟨{}, ()⟩ m shared ∧
      LexicallyScoped t m ∧ declaredIn m.tree.functions = [2, 3, 4] := by
  have read : resolvesAs shadowing (fun _ m => declaredIn m.tree.functions = [2, 3, 4]) = true := by
    decide +kernel
  obtain ⟨l, t, m, shared, scanned, read, resolved, ids⟩ := exists_of_resolvesAs read
  have nodup := (resolve_lexicallyScoped noFiles).2 l "m" t read
  exact ⟨l, t, m, shared, scanned, read, nodup, resolved,
    (resolve_lexicallyScoped noFiles).1 t _ nodup m shared resolved, of_decide_eq_true ids⟩

end EbLang
