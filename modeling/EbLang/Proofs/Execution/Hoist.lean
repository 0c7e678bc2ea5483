import EbLang.Proofs.Balance.Hoist
import EbLang.Proofs.Execution.ShortCircuit
import EbLang.Proofs.Execution.Simulation

/-!
# Hoisted value-`if`s run first

A body whose value-`if`s were hoisted, run strictly, does what the body does when all value-`if`s of
an expression run before its other steps.

The two executions are compared up to hidden variables.  While hoisted statements run, the hidden
variables that were there keep their values, apart from the one that receives the value of the branch
at hand, and names of hidden variables that were handed out before keep their meaning.
-/

namespace EbLang.Execution

open Hoist (temporaryName PreparedArm)

variable {V W : Type}

/-! ## Hidden variables -/

/-- Hidden variables that were there keep their values, apart from the one at `j` if it is a
target. -/
structure Kept (target : Option Nat) (j : Nat) (T T' : List V) : Prop where
  length : T.length ≤ T'.length
  get : ∀ i < T.length, (target.isSome → i ≠ j) → T'[i]? = T[i]?

namespace Kept

variable {target : Option Nat} {j j' k : Nat} {T T1 T2 : List V}

theorem refl : Kept target j T T := ⟨Nat.le_refl _, fun _ _ _ => rfl⟩

theorem trans (h : Kept target j T T1) (h' : Kept target j T1 T2) : Kept target j T T2 where
  length := Nat.le_trans h.length h'.length
  get i hi ne := (h'.get i (Nat.lt_of_lt_of_le hi h.length) ne).trans (h.get i hi ne)

theorem of_none (target : Option Nat) (j : Nat) (h : Kept none j' T T1) : Kept target j T T1 where
  length := h.length
  get i hi _ := h.get i hi nofun

theorem set (v : V) : Kept (some k) j T (T.set j v) where
  length := Nat.le_of_eq List.length_set.symm
  get i _ ne := by rw [List.getElem?_set_ne (ne rfl).symm]

/-- A hidden variable that was declared is not one that was there. -/
theorem of_append {u : V} (h : Kept (some k) T.length (T ++ [u]) T1) : Kept none j T T1 where
  length := by
    have := h.length
    rw [List.length_append, List.length_singleton] at this
    omega
  get i hi _ := by
    rw [h.get i (by simp; omega) (fun _ => by omega), List.getElem?_append_left hi]

theorem getElem? (h : Kept none j T T1) {i : Nat} {v : V} (stored : T[i]? = some v) :
    T1[i]? = some v := by
  rw [h.get i (List.getElem?_eq_some_iff.mp stored).1 nofun, stored]

end Kept

/-- Names of hidden variables below `n` keep their meaning. -/
def Grows (n : Nat) (env env1 : Env) : Prop :=
  ∀ k < n, env1.lookup (temporaryName k) = env.lookup (temporaryName k)

namespace Grows

variable {n m : Nat} {env env1 env2 : Env}

theorem refl : Grows n env env := fun _ _ => rfl

theorem trans (h : Grows n env env1) (h' : Grows n env1 env2) : Grows n env env2 :=
  fun k hk => (h' k hk).trans (h k hk)

theorem mono (h : Grows n env env1) (le : m ≤ n) : Grows m env env1 :=
  fun k hk => h k (Nat.lt_of_lt_of_le hk le)

theorem cons_plain {name : String} (plain : IsPlain name) (a : Address) :
    Grows n env ((name, a) :: env) :=
  fun k _ => lookup_cons_of_ne (Hoist.ne_temporaryName plain k).symm

theorem cons_temporary (a : Address) : Grows n env ((temporaryName n, a) :: env) := by
  intro k hk
  refine lookup_cons_of_ne fun eq => ?_
  have := Hoist.temporaryName_injective eq
  omega

end Grows

/-- Where hoisted statements start: the environments agree, and a target is a hidden variable. -/
structure Starts (target : Option Nat) (j n : Nat) (env env' : Env) (T : List V) : Prop where
  agree : Env.Agree env env'
  target : ∀ k ∈ target, k < n ∧ env'.lookup (temporaryName k) = some ⟨true, j⟩ ∧ j < T.length

/-- A value goes to the target, or is that of the statements if there is none. -/
def Delivered (target : Option Nat) (j : Nat) (last last' : Option V) (T : List V) : Prop :=
  match target with
  | none => last' = last
  | some _ => ∃ v, last = some v ∧ T[j]? = some v

/-- Where hoisted statements end. -/
structure Ends (target : Option Nat) (j n : Nat) (env' : Env) (T : List V)
    (r r' : Env × Option V) (T' : List V) : Prop where
  agree : Env.Agree r.1 r'.1
  grows : Grows n env' r'.1
  delivered : Delivered target j r.2 r'.2 T'
  kept : Kept target j T T'

theorem Ends.after {target : Option Nat} {j n : Nat} {env' env1 : Env} {T T1 T' : List V}
    {r r' : Env × Option V} (h : Ends target j n env1 T1 r r' T') (grows : Grows n env' env1)
    (kept : Kept target j T T1) : Ends target j n env' T r r' T' :=
  ⟨h.agree, grows.trans h.grows, h.delivered, kept.trans h.kept⟩

namespace Starts

variable {target : Option Nat} {j n m : Nat} {env env1 env' env1' : Env} {T T' : List V}

theorem mono (h : Starts target j n env env' T) (le : n ≤ m) : Starts target j m env env' T where
  agree := h.agree
  target k hk :=
    have ⟨less, found⟩ := h.target k hk
    ⟨Nat.lt_of_lt_of_le less le, found⟩

theorem next (h : Starts target j n env env' T) (agree : Env.Agree env1 env1')
    (grows : Grows n env' env1') (length : T.length ≤ T'.length) :
    Starts target j n env1 env1' T' where
  agree := agree
  target k hk :=
    have ⟨less, found, inside⟩ := h.target k hk
    ⟨less, (grows k less).trans found, Nat.lt_of_lt_of_le inside length⟩

theorem of_agree (h : Env.Agree env env') : Starts none j n env env' T where
  agree := h
  target := nofun

end Starts

section Flat

variable (I : Interpretation V W) (limit : Nat)

/-! ## Hoisted statements -/

/-- Runs statements without value-`if`s. -/
abbrev flat (env : Env) (last : Option V) (ss : List (Stmt Atom)) : Run V W (Env × Option V) :=
  stmts I .strict limit env last (mapStmts .atom ss)

/-- Computes a value after the statements that prepare it. -/
def afterFlat {α : Type} (env : Env) (last : Option V) (prelude : List (Stmt Atom))
    (x : Env → Run V W α) : Run V W (Env × α) := do
  let (env, _) ← flat I limit env last prelude
  return (env, ← x env)

/-- Runs an expression without value-`if`s after the statements that prepare it. -/
abbrev flatExpr (env : Env) (last : Option V) (prelude : List (Stmt Atom)) (e : Expr Atom) :
    Run V W (Env × V) :=
  afterFlat I limit env last prelude fun env => expr I .strict limit env (e.map .atom)

/-- Runs the arms of an `if`, each after the statements that prepare it.  What is prepared for one
arm is in view in those after it. -/
def prepared (env : Env) (last : Option V) (otherwise : Option (Block Atom)) :
    List PreparedArm → Run V W (Env × Option V)
  | [] => return (env, ← optionalBlock I .strict limit env (mapOtherwise .atom otherwise))
  | p :: ps => do
    let (env, v) ← flatExpr I limit env last p.prelude p.condition
    if I.truth v then return (env, ← block I .strict limit env (p.body.map .atom))
    else
      let (_, value) ← prepared env none otherwise ps
      return (env, value)

theorem mapStmts_append (ss ts : List (Stmt Atom)) :
    mapStmts Term.atom (ss ++ ts) = mapStmts Term.atom ss ++ mapStmts Term.atom ts := by
  induction ss with
  | nil => rfl
  | cons s ss ih => simp only [List.cons_append, mapStmts, ih]

theorem stmts_append (strategy : Strategy V W) (env : Env) (last : Option V)
    (ss ts : List (Stmt Term)) :
    stmts I strategy limit env last (ss ++ ts) = (do
      let (env, last) ← stmts I strategy limit env last ss
      stmts I strategy limit env last ts) := by
  induction ss generalizing env last with
  | nil => simp only [List.nil_append, stmts, pure_bind]
  | cons s ss ih => simp only [List.cons_append, stmts, ih, bind_assoc]

variable {p : PreparedArm} {ps : List PreparedArm} (env : Env)

theorem flat_append (last : Option V) (ss ts : List (Stmt Atom)) :
    flat I limit env last (ss ++ ts) = (do
      let (env, last) ← flat I limit env last ss
      flat I limit env last ts) := by
  rw [flat, mapStmts_append, stmts_append]

theorem flat_singleton (last : Option V) (s : Stmt Atom) :
    flat I limit env last [s] = stmt I .strict limit env (s.map .atom) := by
  exact bind_pure _

/-- An `if` after the statements that prepare its first condition. -/
theorem flat_branch {arms : List (Arm Atom)}
    {otherwise otherwise' : Option (Block Atom)} (h : ∀ env, branches I .strict limit env
        (optionalBlock I .strict limit env (mapOtherwise .atom otherwise')) (mapArms .atom arms) =
      do return (← prepared I limit env none otherwise ps).2)
    (env : Env) (last : Option V) (span : Span) :
    flat I limit env last (p.prelude ++ [.branch (p.arm :: arms) otherwise' span]) =
      prepared I limit env last otherwise (p :: ps) := by
  rw [flat_append]
  simp only [flat_singleton, prepared, afterFlat, Stmt.map, PreparedArm.arm, mapArms, stmt, branches,
    bind_assoc, pure_bind, h]
  refine bind_congr fun r => bind_congr fun v => ?_
  split
  · rfl
  · simp only [bind_assoc, pure_bind]

theorem ensures_chain (last : Span) (otherwise : Option (Block Atom)) :
    ∀ (ps : List PreparedArm) (σ : Hoist.Supply),
      Ensures ((Hoist.chain last ps otherwise).run σ) fun r =>
        r.2.temporary = σ.temporary ∧ ∀ env, branches I .strict limit env
            (optionalBlock I .strict limit env (mapOtherwise .atom r.1.2)) (mapArms .atom r.1.1) =
          do return (← prepared I limit env none otherwise ps).2
  | [], σ => by
    refine ensures_pure ⟨rfl, fun env => ?_⟩
    simp only [mapArms, branches, prepared, bind_assoc, pure_bind, bind_pure]
  | p :: ps, σ => by
    refine ensures_bind (ensures_chain last otherwise ps σ) ?_
    rintro ⟨⟨arms, rest⟩, σ1⟩ ⟨same, eq⟩
    dsimp only
    split
    next empty =>
      refine ensures_pure ⟨same, fun env => ?_⟩
      simp only [mapArms, PreparedArm.arm, branches, prepared, afterFlat, List.isEmpty_iff.mp empty,
        flat, mapStmts, stmts, eq, bind_assoc, pure_bind]
      refine bind_congr fun v => ?_
      split
      · simp only [bind_assoc, pure_bind, bind_pure]
      · simp only [bind_assoc, pure_bind]
    next =>
      refine ensures_pure ⟨same, fun env => ?_⟩
      rw [← flat_branch I limit eq env none]
      rfl

theorem ensures_branch (last span : Span) (otherwise : Option (Block Atom)) (ps : List PreparedArm)
    (σ : Hoist.Supply) :
    Ensures ((Hoist.branch last ps otherwise span).run σ) fun r =>
      r.2.temporary = σ.temporary ∧
        ∀ env value, flat I limit env value r.1 = prepared I limit env value otherwise ps := by
  unfold Hoist.branch
  split
  next =>
    refine ensures_pure ⟨rfl, fun env value => ?_⟩
    simp only [flat_singleton, Stmt.map, mapArms, stmt, branches, prepared]
  next p ps =>
    refine ensures_bind (ensures_chain I limit last otherwise ps σ) fun ⟨_, σ1⟩ ⟨same, eq⟩ => ?_
    exact ensures_pure ⟨same, fun env value => flat_branch I limit eq env value span⟩

/-- A round of a loop whose condition has to be prepared. -/
def guarded (env : Env) (prelude : List (Stmt Atom)) (condition : Expr Atom) (body : Block Atom) :
    Run V W Bool := do
  let (env, v) ← flatExpr I limit env none prelude condition
  if I.truth v then
    let _ ← block I .strict limit env (body.map .atom)
    return true
  else return false

theorem stmt_loop (condition : Expr Atom) (body : Block Atom) (span : Span) :
    stmt I .strict limit env ((Stmt.loop condition body span).map .atom) = (do
      rounds (guarded I limit env [] condition body) limit
      return (env, none)) := by
  simp only [Stmt.map, stmt, guarded, afterFlat, flat, mapStmts, stmts, bind_assoc, pure_bind]

/-- To leave a loop is to make no more rounds. -/
theorem ensures_guardLoop (prelude : List (Stmt Atom)) (condition : Expr Atom) (body : Block Atom)
    (span : Span) (σ : Hoist.Supply) :
    Ensures ((Hoist.guardLoop prelude condition body span).run σ) fun r =>
      r.2.temporary = σ.temporary ∧ ∀ env, stmt I .strict limit env (r.1.map .atom) = (do
        rounds (guarded I limit env prelude condition body) limit
        return (env, none)) := by
  refine ensures_pure ⟨rfl, fun env => ?_⟩
  have holds : expr I .strict limit env
      ((Expr.ofAtom (.bool true condition.span)).map .atom) = pure (I.ofBool true) := rfl
  simp only [Stmt.map, stmt, holds, pure_bind, I.truth_ofBool, if_true]
  refine congrArg (· >>= fun _ => pure (env, none)) (rounds_congr ?_ limit)
  cases body
  simp only [Block.map, Block.body, block, mapStmts_append, stmts_append, mapStmts, Stmt.map, mapArms,
    mapOtherwise, stmts, stmt, branches, optionalBlock, guarded, afterFlat, bind_assoc, pure_bind]
  refine tryCatch_bind_congr fun r => tryCatch_bind_congr fun v => ?_
  split
  · rw [pure_bind]
  · rfl

/-! ## Expressions -/

/-- What is left of a step after value-`if`s ran, and the atom in its place: a value-`if` gives way to
the variable with its value. -/
inductive Stands (n : Nat) (env : Env) (T : List V) : Step V W → Atom → Prop where
  | atom {a : Atom} (plain : ∀ m ∈ Collector.names.atom a, m.Plain) : Stands n env T (.atom a) a
  | value {v : V} {k j : Nat} (span : Span) (less : k < n)
      (found : env.lookup (temporaryName k) = some ⟨true, j⟩) (stored : T[j]? = some v) :
      Stands n env T (.choice (pure v)) (.var (temporaryName k) span)

variable {I limit}
variable {n : Nat} {as : List (Arm Term)} {otherwise : Option (Block Term)} {target : Option Nat}
  {prelude : List (Stmt Atom)}

theorem Stands.next {m : Nat} {env env1 : Env} {T T' : List V} {t : Step V W} {a : Atom}
    (h : Stands n env T t a) (le : n ≤ m) (grows : Grows n env env1) (kept : Kept none 0 T T') :
    Stands m env1 T' t a := by
  cases h with
  | atom plain => exact .atom plain
  | value span less found stored =>
    exact .value span (Nat.lt_of_lt_of_le less le) ((grows _ less).trans found) (kept.getElem? stored)

theorem steps_map_atom (strategy : Strategy V W) (env : Env) (as : List Atom) :
    steps I strategy limit env (as.map .atom) = as.map .atom := by
  induction as with
  | nil => rfl
  | cons a as ih => rw [List.map_cons, steps, step, ih, List.map_cons]

theorem sim_onlyValue (values : List V) (T : List V) :
    Sim (onlyValue values : Run V W V) (onlyValue values) T (Same T) (· = T) := by
  unfold onlyValue
  split
  · exact .pure ⟨rfl, rfl⟩
  · exact .throw rfl

/-- After value-`if`s ran, the other steps do the same. -/
theorem sim_runSteps {env env' : Env} {T : List V} (agree : Env.Agree env env')
    {ts : List (Step V W)} {as : List Atom} (h : List.Forall₂ (Stands n env' T) ts as)
    (values : List V) :
    Sim (runSteps I env values ts) (runSteps I env' values (as.map .atom)) T (Same T) (· = T) := by
  induction h generalizing values with
  | nil => exact sim_onlyValue values T
  | @cons t a ts as ht _ ih =>
    cases ht with
    | atom plain =>
      refine (sim_runAtom I agree plain values T).bind fun vs vs' T' ⟨hv, hT⟩ => ?_
      subst hv hT
      exact ih vs'
    | @value v k j span less found stored =>
      refine Sim.after (b := v :: values) _ (fun s => ?_) (ih (v :: values))
      change (Except.ok (valueOf I env' (temporaryName k) (s.withTemps T) :: values), _) = _
      rw [valueOf_temporary I found stored]

/-- Where an expression ends whose value-`if`s ran in prepared statements. -/
structure Settles {α : Type} (n : Nat) (env env' : Env) (T : List V) (v : α) (r' : Env × α)
    (T' : List V) : Prop where
  value : r'.2 = v
  agree : Env.Agree env r'.1
  grows : Grows n env' r'.1
  kept : Kept none 0 T T'

/-- Where the statements end that prepare some steps, in hidden variables from `a` up to `b`. -/
structure Prepares (a b : Nat) (env env' : Env) (as : List Atom) (T : List V)
    (rest : List (Step V W)) (r' : Env × Option V) (T' : List V) : Prop where
  agree : Env.Agree env r'.1
  grows : Grows a env' r'.1
  kept : Kept none 0 T T'
  stands : List.Forall₂ (Stands b r'.1 T') rest as

variable (I limit)

/-- Statements that prepare some steps run the value-`if`s among them. -/
def TermsRun (a b : Nat) (ts : List Term) (prelude : List (Stmt Atom)) (as : List Atom) : Prop :=
  ∀ env env' T last, Env.Agree env env' →
    Sim (runChoices (steps I .choicesFirst limit env ts)) (flat I limit env' last prelude) T
      (Prepares a b env env' as T) (Kept none 0 T)

/-- A value is computed as it is after the statements that prepare it. -/
def ValueRun {α : Type} (n : Nat) (x : Env → Run V W α) (prelude : List (Stmt Atom))
    (y : Env → Run V W α) : Prop :=
  ∀ env env' T last, Env.Agree env env' →
    Sim (x env) (afterFlat I limit env' last prelude y) T (Settles n env env' T) (Kept none 0 T)

/-- An expression runs as it does after the statements that prepare it. -/
abbrev ExprRun (n : Nat) (e : Expr Term) (prelude : List (Stmt Atom)) (e' : Expr Atom) : Prop :=
  ValueRun I limit n (fun env => expr I .choicesFirst limit env e) prelude fun env =>
    expr I .strict limit env (e'.map .atom)

/-- An expression that may be missing runs as it does after the statements that prepare it. -/
abbrev OptionalRun (n : Nat) (e : Option (Expr Term)) (prelude : List (Stmt Atom))
    (e' : Option (Expr Atom)) : Prop :=
  ValueRun I limit n (fun env => optionalExpr I .choicesFirst limit env e) prelude fun env =>
    optionalExpr I .strict limit env (e'.map (Expr.map .atom))

/-- A block, or one that may be missing, runs as the one made of it. -/
def BlockRun (target : Option Nat) (n : Nat) (x y : Env → Run V W (Option V)) : Prop :=
  ∀ j env env' T, Starts target j n env env' T →
    Sim (x env) (y env') T
      (fun last last' T' => Delivered target j last last' T' ∧ Kept target j T T') (Kept target j T)

/-- The branches of an `if` run as the statements made of them. -/
def BranchesRun (target : Option Nat) (n : Nat) (x : Env → Run V W (Option V))
    (y : Env → Run V W (Env × Option V)) : Prop :=
  ∀ j env env' T, Starts target j n env env' T →
    Sim (x env) (y env') T (fun last => Ends target j n env' T (env, last)) (Kept target j T)

/-- Statements run as what is made of them. -/
def StmtsRunAs (target : Option Nat) (n : Nat) (x : Env → Run V W (Env × Option V))
    (y : Env → Run V W (Env × Option V)) : Prop :=
  ∀ j env env' T, Starts target j n env env' T →
    Sim (x env) (y env') T (Ends target j n env' T) (Kept target j T)

variable {I limit}

theorem runChoices_append (ss ts : List (Step V W)) :
    runChoices (ss ++ ts) = (do return (← runChoices ss) ++ (← runChoices ts)) := by
  induction ss with
  | nil => simp [runChoices]
  | cons s ss ih =>
    cases s with
    | atom a => simp only [List.cons_append, runChoices, ih, bind_assoc, pure_bind]
    | choice x => simp only [List.cons_append, runChoices, ih, bind_assoc, pure_bind]

/-- Steps after others are prepared after them. -/
theorem TermsRun.append {a b c : Nat} {ts us : List Term} {p q : List (Stmt Atom)}
    {as bs : List Atom} (hts : TermsRun I limit a b ts p as) (hus : TermsRun I limit b c us q bs)
    (ab : a ≤ b) (bc : b ≤ c) : TermsRun I limit a c (ts ++ us) (p ++ q) (as ++ bs) := by
  intro env env' T last agree
  rw [steps_append, runChoices_append, flat_append]
  refine (hts env env' T last agree).bind fun first ⟨env1, last1⟩ T1 h1 => ?_
  have second := (hus env env1 T1 last1 h1.agree).imp (fun _ _ _ => id) fun _ => h1.kept.trans
  refine second.bind_left fun others r2 T2 h2 => .pure ⟨h2.agree, ?_, ?_, ?_⟩
  · exact h1.grows.trans (h2.grows.mono ab)
  · exact h1.kept.trans h2.kept
  · exact List.rel_append (h1.stands.imp fun _ _ h => h.next bc h2.grows h2.kept) h2.stands

/-- The other steps of an expression run after what prepares its value-`if`s. -/
theorem TermsRun.expr {a b : Nat} {ts : List Term} {p : List (Stmt Atom)} {as : List Atom}
    (h : TermsRun I limit a b ts p as) (span : Span) : ExprRun I limit a ⟨ts, span⟩ p ⟨as, span⟩ := by
  intro env env' T last agree
  refine (h env env' T last agree).bind fun rest ⟨env1, _⟩ T1 h1 => ?_
  have steps_eq : Execution.expr I .strict limit env1 (Expr.map .atom ⟨as, span⟩) =
      runSteps I env1 [] (as.map .atom) := by
    simp only [Execution.expr, Expr.map, Strategy.strict, steps_map_atom]
  dsimp only
  rw [steps_eq, ← bind_pure (runSteps I env [] rest)]
  have others := (sim_runSteps (I := I) h1.agree h1.stands []).imp (fun _ _ _ => id)
    fun _ eq => eq ▸ h1.kept
  refine others.bind fun v v' T' ⟨hv, hT⟩ => ?_
  subst hv hT
  exact .pure ⟨rfl, h1.agree, h1.grows, h1.kept⟩

/-- A value-`if` gives way to the hidden variable it was delivered to. -/
theorem TermsRun.choice {number : Nat} {inner : List (Stmt Atom)} (span : Span)
    (h : BranchesRun (some number) n
      (fun env => branches I .choicesFirst limit env
        (optionalBlock I .choicesFirst limit env otherwise) as)
      (fun env => flat I limit env none inner)) (less : number < n) :
    TermsRun I limit number (number + 1) [.choice as otherwise span]
      (Hoist.declareTemporary (temporaryName number) span :: inner)
      [.var (temporaryName number) span] := by
  intro env env' T last agree
  have declared : ∀ s : State V W, (stmt I .strict limit env'
      ((Hoist.declareTemporary (temporaryName number) span).map .atom)).run.run (s.withTemps T) =
      (.ok ((temporaryName number, ⟨true, T.length⟩) :: env', none),
        s.withTemps (T ++ [I.unset none])) :=
    fun s => rfl
  refine Sim.after _ declared ?_
  have starts : Starts (some number) T.length n env
      ((temporaryName number, ⟨true, T.length⟩) :: env') (T ++ [I.unset none]) := by
    refine ⟨agree.cons_temporary number _, fun k hk => ?_⟩
    cases hk
    exact ⟨less, List.lookup_cons_self, by simp⟩
  have inside := (h T.length env _ _ starts).imp (fun _ _ _ => id) fun _ => Kept.of_append (j := 0)
  simp only [steps, step, runChoices, bind_assoc, pure_bind]
  refine inside.bind_left fun value r' T' ends => ?_
  obtain ⟨v, rfl, stored⟩ := ends.delivered
  have found : r'.1.lookup (temporaryName number) = some ⟨true, T.length⟩ :=
    (ends.grows number less).trans List.lookup_cons_self
  refine .pure ⟨ends.agree, ?_, ends.kept.of_append, ?_⟩
  · exact (Grows.cons_temporary _).trans (ends.grows.mono (Nat.le_of_lt less))
  · exact .cons (.value span (Nat.lt_succ_self number) found stored) .nil

/-! ## Branches -/

theorem BlockRun.mono {m : Nat} {x y : Env → Run V W (Option V)}
    (h : BlockRun target m x y) (le : n ≤ m) : BlockRun target n x y :=
  fun j env env' T starts => h j env env' T (starts.mono le)

theorem BranchesRun.mono {m : Nat} {x : Env → Run V W (Option V)}
    {y : Env → Run V W (Env × Option V)} (h : BranchesRun target m x y) (le : n ≤ m) :
    BranchesRun target n x y := by
  intro j env env' T starts
  refine (h j env env' T (starts.mono le)).imp (fun last r' T' ends => ?_) fun _ => id
  exact ⟨ends.agree, ends.grows.mono le, ends.delivered, ends.kept⟩

/-- What follows the arms. -/
theorem BlockRun.nil {x : Env → Run V W (Option V)}
    {otherwise : Option (Block Atom)} (last : Option V) (h : BlockRun target n x fun env =>
      optionalBlock I .strict limit env (mapOtherwise .atom otherwise)) :
    BranchesRun target n x fun env => prepared I limit env last otherwise [] := by
  intro j env env' T starts
  rw [← bind_pure (x env)]
  refine (h j env env' T starts).bind fun value value' T' ⟨delivered, kept⟩ => ?_
  exact .pure ⟨starts.agree, .refl, delivered, kept⟩

variable {condition : Expr Term} {body : Block Term}

/-- An arm and those after it. -/
theorem BranchesRun.cons {o : Env → Run V W (Option V)} {otherwise : Option (Block Atom)}
    (last : Option V) (hc : ExprRun I limit n condition p.prelude p.condition)
    (hb : BlockRun target n (fun env => block I .choicesFirst limit env body) fun env =>
      block I .strict limit env (p.body.map .atom))
    (has : BranchesRun target n (fun env => branches I .choicesFirst limit env (o env) as) fun env =>
      prepared I limit env none otherwise ps) :
    BranchesRun target n
      (fun env => branches I .choicesFirst limit env (o env) (.mk condition body :: as)) fun env =>
      prepared I limit env last otherwise (p :: ps) := by
  intro j env env' T starts
  have first := (hc env env' T last starts.agree).imp (fun _ _ _ => id) fun _ =>
    Kept.of_none target j
  refine first.bind fun v ⟨env1, v'⟩ T1 h1 => ?_
  obtain ⟨rfl, agree, grows, kept⟩ := h1
  have starts1 := starts.next agree grows kept.length
  have kept1 := kept.of_none target j
  dsimp only
  split
  · rw [← bind_pure (block I .choicesFirst limit env body)]
    refine ((hb j env env1 T1 starts1).imp (fun _ _ _ => id) fun _ => kept1.trans).bind
      fun value value' T' ⟨delivered, kept'⟩ => ?_
    exact .pure ⟨agree, grows, delivered, kept1.trans kept'⟩
  · rw [← bind_pure (branches I .choicesFirst limit env (o env) as)]
    refine ((has j env env1 T1 starts1).imp (fun _ _ _ => id) fun _ => kept1.trans).bind
      fun value r' T' ends => ?_
    exact .pure ⟨agree, grows, ends.delivered, kept1.trans ends.kept⟩

/-! ## Statements -/

theorem optionalRun_none : OptionalRun I limit n none [] none := by
  intro env env' T last agree
  exact .pure ⟨rfl, agree, .refl, .refl⟩

theorem ValueRun.optional {e : Expr Term} {e' : Expr Atom}
    (h : ExprRun I limit n e prelude e') : OptionalRun I limit n (some e) prelude (some e') := by
  intro env env' T last agree
  have value := (h env env' T last agree).bind (f := fun v => pure (some v))
    (g := fun r => pure (r.1, some r.2)) (S := Settles n env env' T) fun v r' T1 h1 =>
      .pure ⟨congrArg some h1.value, h1.agree, h1.grows, h1.kept⟩
  simpa only [afterFlat, Option.map_some, optionalExpr, bind_assoc, pure_bind] using value

/-- A statement that uses a value after those that prepare it. -/
theorem ValueRun.stmt {α : Type} {x y : Env → Run V W α} {s : Stmt Term} {s' : Stmt Atom}
    {f g : Env → α → Run V W (Env × Option V)} (h : ValueRun I limit n x prelude y)
    (last : Option V) (source : ∀ env, stmt I .choicesFirst limit env s = x env >>= f env)
    (hoisted : ∀ env, stmt I .strict limit env (s'.map .atom) = y env >>= g env)
    (rest : ∀ j env env' T v, Starts target j n env env' T →
      Sim (f env v) (g env' v) T (Ends target j n env' T) (Kept target j T)) :
    StmtsRunAs target n (fun env => stmt I .choicesFirst limit env s) fun env =>
      flat I limit env last (prelude ++ [s']) := by
  intro j env env' T starts
  have eq : flat I limit env' last (prelude ++ [s']) = (do
      let (env, v) ← afterFlat I limit env' last prelude y
      g env v) := by
    rw [flat_append]
    simp only [flat_singleton, hoisted, afterFlat, bind_assoc, pure_bind]
  dsimp only
  rw [source, eq]
  refine (h env env' T last starts.agree).imp (fun _ _ _ => id) (fun _ => Kept.of_none _ _) |>.bind
    fun v ⟨env1, v'⟩ T1 h1 => ?_
  obtain ⟨rfl, agree, grows, kept⟩ := h1
  exact (rest j env env1 T1 _ (starts.next agree grows kept.length)).imp
    (fun _ _ _ ends => ends.after grows (kept.of_none _ _)) fun _ => (kept.of_none _ _).trans

theorem declare_run {name : String} {ty : Option TypeName} {init : Option (Expr Term)}
    {init' : Option (Expr Atom)} (var : Option Nat) (span : Span)
    (last : Option V) (plain : IsPlain name) (h : OptionalRun I limit n init prelude init') :
    StmtsRunAs none n
      (fun env => stmt I .choicesFirst limit env (.declare name ty init var false span)) fun env =>
      flat I limit env last (prelude ++ [.declare name ty init' var false span]) := by
  refine h.stmt last (fun _ => rfl) (fun _ => rfl) fun j env env' T v starts => ?_
  refine (Sim.get (R := fun s s' T' => s' = s.withTemps T ∧ T' = T) fun s => ⟨rfl, rfl⟩).bind ?_
  rintro s _ T ⟨rfl, rfl⟩
  refine (Sim.modify T (R := fun _ _ T2 => T2 = T) (fun s => rfl) rfl).bind ?_
  rintro _ _ _ rfl
  exact .pure ⟨starts.agree.cons name _, .cons_plain plain _, rfl, .refl⟩

variable {value : Expr Term} {value' : Expr Atom} (span : Span)

theorem assign_run {target : String}
    (binding : Option Binding) (members : List MemberRef) (span : Span)
    (last : Option V) (plain : IsPlain target) (h : ExprRun I limit n value prelude value') :
    StmtsRunAs none n
      (fun env => stmt I .choicesFirst limit env (.assign target binding members value span)) fun env =>
      flat I limit env last (prelude ++ [.assign target binding members value' span]) := by
  refine h.stmt last (fun _ => rfl) (fun _ => rfl) fun j env env' T v starts => ?_
  refine (Sim.modify T (R := fun _ _ T2 => T2 = T)
    (fun s => written_withTemps I starts.agree plain v s T) rfl).bind ?_
  rintro _ _ _ rfl
  exact .pure ⟨starts.agree, .refl, rfl, .refl⟩

/-- The value of a branch is delivered to its target. -/
theorem eval_run (last : Option V) (h : ExprRun I limit n value prelude value') :
    StmtsRunAs target n (fun env => stmt I .choicesFirst limit env (.eval value span)) fun env =>
      flat I limit env last
        (prelude ++ [Hoist.deliver (target.map temporaryName) value' span]) := by
  cases target with
  | none =>
    refine h.stmt last (fun _ => rfl) (fun _ => rfl) fun j env env' T v starts => ?_
    exact .pure ⟨starts.agree, .refl, rfl, .refl⟩
  | some k =>
    refine h.stmt last (fun _ => rfl) (fun _ => rfl) fun j env env' T v starts => ?_
    obtain ⟨-, found, inside⟩ := starts.target k rfl
    refine Sim.after (b := ⟨⟩) (T.set j v)
      (fun s => congrArg (Prod.mk _) (written_temporary I found v s)) ?_
    exact .pure ⟨starts.agree, .refl, ⟨v, rfl, List.getElem?_set_self inside⟩, .set v⟩

theorem ret_run {value : Option (Expr Term)} {value' : Option (Expr Atom)} (last : Option V)
    (h : OptionalRun I limit n value prelude value') :
    StmtsRunAs target n (fun env => stmt I .choicesFirst limit env (.ret value span)) fun env =>
      flat I limit env last (prelude ++ [.ret value' span]) :=
  h.stmt last (fun _ => rfl) (fun _ => rfl) fun _ _ _ _ _ _ => .throw .refl

theorem branch_run {y : Env → Run V W (Env × Option V)}
    (h : BranchesRun target n (fun env => branches I .choicesFirst limit env
      (optionalBlock I .choicesFirst limit env otherwise) as) y) :
    StmtsRunAs target n (fun env => stmt I .choicesFirst limit env (.branch as otherwise span)) y := by
  intro j env env' T starts
  exact (h j env env' T starts).bind_left fun value r' T' ends => .pure ends

/-- Loops make the same rounds. -/
theorem loop_run {condition' : Expr Atom} {body' : Block Atom}
    (hc : ExprRun I limit n condition prelude condition')
    (hb : BlockRun none n (fun env => block I .choicesFirst limit env body) fun env =>
      block I .strict limit env (body'.map .atom)) :
    StmtsRunAs none n (fun env => stmt I .choicesFirst limit env (.loop condition body span)) fun env =>
      (do rounds (guarded I limit env prelude condition' body') limit; return (env, none)) := by
  intro j env env' T starts
  have round : ∀ T1, Kept none j T T1 → Sim
      (do
        if I.truth (← expr I .choicesFirst limit env condition) then
          let _ ← block I .choicesFirst limit env body
          return true
        else return false)
      (guarded I limit env' prelude condition' body') T1 (fun a b T' => b = a ∧ Kept none j T T')
      (Kept none j T) := by
    intro T1 kept1
    refine (hc env env' T1 none starts.agree).imp (fun _ _ _ => id) (fun _ h => kept1.trans (h.of_none _ _))
      |>.bind fun v ⟨env1, v'⟩ T2 h2 => ?_
    obtain ⟨rfl, agree, grows, kept2⟩ := h2
    have kept2 := kept1.trans (kept2.of_none _ _)
    dsimp only
    split
    · refine (hb j env env1 T2 (.of_agree agree)).imp (fun _ _ _ => id) (fun _ => kept2.trans)
        |>.bind fun value value' T3 ⟨_, kept3⟩ => ?_
      exact .pure ⟨rfl, kept2.trans kept3⟩
    · exact .pure ⟨rfl, kept2⟩
  refine (Sim.rounds (fun T1 kept => (round T1 kept).catchRound) limit T .refl).bind
    fun _ _ T' kept => ?_
  exact .pure ⟨starts.agree, .refl, rfl, kept⟩

/-! ## Trees -/

theorem checkLast_branch {span : Span} (h : Hoist.checkLast (.branch as otherwise span) = .ok ()) :
    Hoist.checkArms span as = .ok () ∧ otherwise.isSome ∧
      Hoist.checkOtherwise span otherwise = .ok () := by
  unfold Hoist.checkLast at h
  cases otherwise with
  | none => cases h
  | some b =>
    cases arms : Hoist.checkArms span as with
    | error e =>
      rw [arms] at h
      cases h
    | ok _ =>
      rw [arms] at h
      exact ⟨rfl, rfl, h⟩

theorem checkArms_cons {outer : Span}
    (h : Hoist.checkArms outer (.mk condition body :: as) = .ok ()) :
    Hoist.checkBlock outer body = .ok () ∧ Hoist.checkArms outer as = .ok () := by
  unfold Hoist.checkArms at h
  cases first : Hoist.checkBlock outer body with
  | error e =>
    rw [first] at h
    cases h
  | ok _ =>
    rw [first] at h
    exact ⟨rfl, h⟩

/-- A sequence of two parts, each of which runs as what is made of it. -/
theorem StmtsRunAs.append {m : Nat} {s : Stmt Term} {ss : List (Stmt Term)}
    {first others : List (Stmt Atom)} (last : Option V)
    (hs : StmtsRunAs none n (fun env => stmt I .choicesFirst limit env s) fun env =>
      flat I limit env last first)
    (hss : ∀ last, StmtsRunAs target m (fun env => stmts I .choicesFirst limit env last ss) fun env =>
      flat I limit env last others) (le : n ≤ m) :
    StmtsRunAs target n (fun env => stmts I .choicesFirst limit env last (s :: ss)) fun env =>
      flat I limit env last (first ++ others) := by
  intro j env env' T starts
  dsimp only
  rw [flat_append]
  refine (hs j env env' T (.of_agree starts.agree)).imp (fun _ _ _ => id) (fun _ => Kept.of_none _ _)
    |>.bind fun ⟨env1, last1⟩ ⟨env1', last1'⟩ T1 h1 => ?_
  obtain ⟨agree, grows, same, kept⟩ := h1
  cases same
  have kept := kept.of_none target j
  have starts1 := (starts.next agree grows kept.length).mono le
  refine (hss last1 j env1 env1' T1 starts1).imp (fun r r' T' ends => ?_) fun _ => kept.trans
  exact ⟨ends.agree, grows.trans (ends.grows.mono le), ends.delivered, kept.trans ends.kept⟩

variable (I limit)

mutual

theorem ensures_hoistTerm (number : Nat) :
    ∀ t : Term, (∀ m ∈ t.collect .names, m.Plain) → Hoist.checkTerm t = .ok () →
      ∀ σ : Hoist.Supply, (t.isChoice → number < σ.temporary) →
        Ensures ((Hoist.term number t).run σ) fun r => σ.temporary ≤ r.2.temporary ∧
          TermsRun I limit number (if t.isChoice then number + 1 else number) [t] r.1.1 [r.1.2]
  | .atom a, plain, _, σ, _ => by
    refine ensures_pure ⟨Nat.le_refl _, fun env env' T last agree => ?_⟩
    exact .pure ⟨agree, .refl, .refl, .cons (.atom plain) .nil⟩
  | .choice as otherwise span, plain, checked, σ, less => by
    obtain ⟨has, ho⟩ := List.forall_mem_append.mp plain
    obtain ⟨checkedArms, isSome, checkedOther⟩ := checkLast_branch checked
    refine ensures_bind (ensures_hoistArms (some number) span as has (fun _ => checkedArms) σ)
      fun ⟨ps, σ1⟩ ⟨le1, arms⟩ => ?_
    refine ensures_bind (ensures_hoistOptionalBlock (some number) span otherwise ho
      (fun _ => ⟨isSome, checkedOther⟩) σ1) fun ⟨otherwise', σ2⟩ ⟨le2, other⟩ => ?_
    refine ensures_bind (ensures_branch I limit _ span otherwise' ps σ2)
      fun ⟨inner, σ3⟩ ⟨same, eq⟩ => ?_
    dsimp only at le1 le2 same eq
    refine ensures_pure ⟨by dsimp only; omega, .choice span ?_ (less rfl)⟩
    simp only [eq]
    exact arms none _ otherwise' other

theorem ensures_hoistTerms (number : Nat) :
    ∀ ts : List Term, (∀ m ∈ collectTerms .names ts, m.Plain) →
      (∀ t ∈ ts, Hoist.checkTerm t = .ok ()) →
      ∀ σ : Hoist.Supply, number + ts.countP Term.isChoice ≤ σ.temporary →
        Ensures ((Hoist.terms number ts).run σ) fun r => σ.temporary ≤ r.2.temporary ∧
          TermsRun I limit number (number + ts.countP Term.isChoice) ts r.1.1 r.1.2
  | [], _, _, σ, _ => by
    refine ensures_pure ⟨Nat.le_refl _, fun env env' T last agree => ?_⟩
    exact .pure ⟨agree, .refl, .refl, .nil⟩
  | t :: ts, plain, checked, σ, enough => by
    obtain ⟨ht, hts⟩ := List.forall_mem_append.mp plain
    obtain ⟨checkedFirst, checkedOthers⟩ := List.forall_mem_cons.mp checked
    have count : number + (t :: ts).countP Term.isChoice =
        (if t.isChoice then number + 1 else number) + ts.countP Term.isChoice := by
      rw [List.countP_cons]
      split <;> omega
    rw [count] at enough ⊢
    have less : t.isChoice → number < σ.temporary := by
      intro isChoice
      rw [if_pos isChoice] at enough
      omega
    refine ensures_bind (ensures_hoistTerm number t ht checkedFirst σ less)
      fun ⟨⟨first, a⟩, σ1⟩ ⟨le1, run1⟩ => ?_
    dsimp only at le1 run1 ⊢
    refine ensures_bind (ensures_hoistTerms _ ts hts checkedOthers σ1 (by omega))
      fun ⟨⟨others, as⟩, σ2⟩ ⟨le2, run2⟩ => ?_
    refine ensures_pure ⟨Nat.le_trans le1 le2, run1.append run2 ?_ (Nat.le_add_right _ _)⟩
    split <;> omega

theorem ensures_hoistExpr :
    ∀ e : Expr Term, (∀ m ∈ e.collect .names, m.Plain) → ∀ σ : Hoist.Supply,
      Ensures ((Hoist.expr e).run σ) fun r => σ.temporary ≤ r.2.temporary ∧
        ExprRun I limit σ.temporary e r.1.1 r.1.2
  | ⟨ts, span⟩, plain, σ => by
    -- The value-`if`s of the expression are numbered first.
    let σ1 : Hoist.Supply := { σ with temporary := σ.temporary + ts.countP Term.isChoice }
    refine ensures_bind (Hoist.ensures_checks ts σ1) fun ⟨_, σ2⟩ ⟨same, checked⟩ => ?_
    subst same
    refine ensures_bind (ensures_hoistTerms σ.temporary ts plain checked σ1 (Nat.le_refl _))
      fun ⟨⟨prelude, as⟩, σ3⟩ ⟨le, run⟩ => ?_
    exact ensures_pure ⟨Nat.le_trans (Nat.le_add_right _ _) le, run.expr span⟩

theorem ensures_hoistOptionalExpr :
    ∀ e : Option (Expr Term), (∀ m ∈ collectOptional .names e, m.Plain) → ∀ σ : Hoist.Supply,
      Ensures ((Hoist.optionalExpr e).run σ) fun r => σ.temporary ≤ r.2.temporary ∧
        OptionalRun I limit σ.temporary e r.1.1 r.1.2
  | none, _, σ => by
    exact ensures_pure ⟨Nat.le_refl _, optionalRun_none⟩
  | some e, plain, σ => by
    refine ensures_bind (ensures_hoistExpr e plain σ) fun ⟨⟨prelude, e'⟩, σ1⟩ ⟨le, run⟩ => ?_
    exact ensures_pure ⟨le, run.optional⟩

theorem ensures_hoistArms (target : Option Nat) (outer : Span) :
    ∀ as : List (Arm Term), (∀ m ∈ collectArms .names as, m.Plain) →
      (target.isSome → Hoist.checkArms outer as = .ok ()) → ∀ σ : Hoist.Supply,
      Ensures ((Hoist.arms (target.map temporaryName) as).run σ) fun r =>
        σ.temporary ≤ r.2.temporary ∧ ∀ last (o : Env → Run V W (Option V)) otherwise',
          BlockRun target r.2.temporary o
            (fun env => optionalBlock I .strict limit env (mapOtherwise .atom otherwise')) →
          BranchesRun target σ.temporary
            (fun env => branches I .choicesFirst limit env (o env) as)
            fun env => prepared I limit env last otherwise' r.1
  | [], _, _, σ => by
    exact ensures_pure ⟨Nat.le_refl _, fun last o otherwise' other => other.nil last⟩
  | .mk condition body :: as, plain, checked, σ => by
    obtain ⟨both, has⟩ := List.forall_mem_append.mp plain
    obtain ⟨hc, hb⟩ := List.forall_mem_append.mp both
    have checkedBody : target.isSome → Hoist.checkBlock outer body = .ok () :=
      fun h => (checkArms_cons (checked h)).1
    have checkedArms : target.isSome → Hoist.checkArms outer as = .ok () :=
      fun h => (checkArms_cons (checked h)).2
    refine ensures_bind (ensures_hoistExpr condition hc σ)
      fun ⟨⟨prelude, condition'⟩, σ1⟩ ⟨le1, runCondition⟩ => ?_
    dsimp only at le1 runCondition ⊢
    refine ensures_bind (ensures_hoistBlock target outer body hb checkedBody σ1)
      fun ⟨body', σ2⟩ ⟨le2, runBody⟩ => ?_
    dsimp only at le2 runBody ⊢
    refine ensures_bind (ensures_hoistArms target outer as has checkedArms σ2)
      fun ⟨ps, σ3⟩ ⟨le3, runArms⟩ => ?_
    dsimp only at le3 runArms ⊢
    refine ensures_pure ⟨by dsimp only; omega, fun last o otherwise' other => ?_⟩
    have others := (runArms none o otherwise' other).mono (Nat.le_trans le1 le2)
    exact others.cons last runCondition (runBody.mono le1)

theorem ensures_hoistOptionalBlock (target : Option Nat) (outer : Span) :
    ∀ b : Option (Block Term), (∀ m ∈ collectOtherwise .names b, m.Plain) →
      (target.isSome → b.isSome ∧ Hoist.checkOtherwise outer b = .ok ()) → ∀ σ : Hoist.Supply,
      Ensures ((Hoist.optionalBlock (target.map temporaryName) b).run σ) fun r =>
        σ.temporary ≤ r.2.temporary ∧ BlockRun target σ.temporary
          (fun env => optionalBlock I .choicesFirst limit env b)
          fun env => optionalBlock I .strict limit env (mapOtherwise .atom r.1)
  | none, _, checked, σ => by
    refine ensures_pure ⟨Nat.le_refl _, fun j env env' T starts => .pure ⟨?_, .refl⟩⟩
    cases target with
    | none => rfl
    | some k => cases (checked rfl).1
  | some b, plain, checked, σ => by
    refine ensures_bind (ensures_hoistBlock target outer b plain (fun h => (checked h).2) σ)
      fun ⟨b', σ1⟩ ⟨le, run⟩ => ?_
    exact ensures_pure ⟨le, run⟩

theorem ensures_hoistBlock (target : Option Nat) (outer : Span) :
    ∀ b : Block Term, (∀ m ∈ b.names, m.Plain) →
      (target.isSome → Hoist.checkBlock outer b = .ok ()) → ∀ σ : Hoist.Supply,
      Ensures ((Hoist.block (target.map temporaryName) b).run σ) fun r =>
        σ.temporary ≤ r.2.temporary ∧ BlockRun target σ.temporary
          (fun env => block I .choicesFirst limit env b)
          fun env => block I .strict limit env (r.1.map .atom)
  | .mk id body span, plain, checked, σ => by
    refine ensures_bind (ensures_hoistStmts target outer body plain checked σ)
      fun ⟨body', σ1⟩ ⟨le, run⟩ => ?_
    refine ensures_pure ⟨le, fun j env env' T starts => ?_⟩
    refine (run none j env env' T starts).bind fun r r' T' ends => ?_
    exact .pure ⟨ends.delivered, ends.kept⟩

theorem ensures_hoistStmts (target : Option Nat) (outer : Span) :
    ∀ ss : List (Stmt Term), (∀ m ∈ collectStmts .names ss, m.Plain) →
      (target.isSome → Hoist.checkTail outer ss = .ok ()) → ∀ σ : Hoist.Supply,
      Ensures ((Hoist.stmts (target.map temporaryName) ss).run σ) fun r =>
        σ.temporary ≤ r.2.temporary ∧ ∀ last, StmtsRunAs target σ.temporary
          (fun env => stmts I .choicesFirst limit env last ss)
          fun env => flat I limit env last r.1
  | [], _, checked, σ => by
    refine ensures_pure ⟨Nat.le_refl _, fun last j env env' T starts => ?_⟩
    refine .pure ⟨starts.agree, .refl, ?_, .refl⟩
    cases target with
    | none => rfl
    | some k => cases checked rfl
  | [s], plain, checked, σ => by
    obtain ⟨hs, -⟩ := List.forall_mem_append.mp plain
    refine ensures_bind (ensures_hoistStmt target s hs checked σ) fun ⟨first, σ1⟩ ⟨le, run⟩ => ?_
    refine ensures_pure ⟨le, fun last j env env' T starts => ?_⟩
    rw [List.append_nil]
    exact (run last j env env' T starts).bind_left fun r r' T' ends => .pure ends
  | s :: s1 :: ss, plain, checked, σ => by
    obtain ⟨hs, hss⟩ := List.forall_mem_append.mp plain
    refine ensures_bind (ensures_hoistStmt none s hs nofun σ) fun ⟨first, σ1⟩ ⟨le1, run1⟩ => ?_
    refine ensures_bind (ensures_hoistStmts target outer (s1 :: ss) hss checked σ1)
      fun ⟨others, σ2⟩ ⟨le2, run2⟩ => ?_
    exact ensures_pure ⟨Nat.le_trans le1 le2, fun last => (run1 last).append last run2 le1⟩

theorem ensures_hoistStmt (target : Option Nat) :
    ∀ s : Stmt Term, (∀ m ∈ s.collect .names, m.Plain) →
      (target.isSome → Hoist.checkLast s = .ok ()) → ∀ σ : Hoist.Supply,
      Ensures ((Hoist.stmt (target.map temporaryName) s).run σ) fun r =>
        σ.temporary ≤ r.2.temporary ∧ ∀ last, StmtsRunAs target σ.temporary
          (fun env => stmt I .choicesFirst limit env s) fun env => flat I limit env last r.1
  | .declare name ty init var hidden span, plain, checked, σ => by
    obtain ⟨hn, hi⟩ := List.forall_mem_append.mp plain
    obtain ⟨isPlain, visible⟩ := hn (.variable name hidden) List.mem_cons_self
    subst visible
    refine ensures_bind (ensures_hoistOptionalExpr init hi σ)
      fun ⟨⟨prelude, init'⟩, σ1⟩ ⟨le, run⟩ => ?_
    refine ensures_pure ⟨le, fun last => ?_⟩
    cases target with
    | none => exact declare_run var span last isPlain run
    | some k => cases checked rfl
  | .assign name binding members value span, plain, checked, σ => by
    obtain ⟨hn, hv⟩ := List.forall_mem_append.mp plain
    have isPlain := (hn (.variable name false) List.mem_cons_self).1
    refine ensures_bind (ensures_hoistExpr value hv σ) fun ⟨⟨prelude, value'⟩, σ1⟩ ⟨le, run⟩ => ?_
    refine ensures_pure ⟨le, fun last => ?_⟩
    cases target with
    | none => exact assign_run binding members span last isPlain run
    | some k => cases checked rfl
  | .eval value span, plain, checked, σ => by
    refine ensures_bind (ensures_hoistExpr value plain σ) fun ⟨⟨prelude, value'⟩, σ1⟩ ⟨le, run⟩ => ?_
    exact ensures_pure ⟨le, fun last => eval_run span last run⟩
  | .ret value span, plain, checked, σ => by
    refine ensures_bind (ensures_hoistOptionalExpr value plain σ)
      fun ⟨⟨prelude, value'⟩, σ1⟩ ⟨le, run⟩ => ?_
    exact ensures_pure ⟨le, fun last => ret_run span last run⟩
  | .branch as otherwise span, plain, checked, σ => by
    unfold Hoist.stmt
    obtain ⟨has, ho⟩ := List.forall_mem_append.mp plain
    have checkedArms : target.isSome → Hoist.checkArms span as = .ok () :=
      fun h => (checkLast_branch (checked h)).1
    have checkedOther := fun h => (checkLast_branch (checked h)).2
    refine ensures_bind (ensures_hoistArms target span as has checkedArms σ)
      fun ⟨ps, σ1⟩ ⟨le1, arms⟩ => ?_
    dsimp only at le1 arms ⊢
    refine ensures_bind (ensures_hoistOptionalBlock target span otherwise ho checkedOther σ1)
      fun ⟨otherwise', σ2⟩ ⟨le2, other⟩ => ?_
    dsimp only at le2 other ⊢
    refine ensures_imp (ensures_branch I limit _ span otherwise' ps σ2) fun ⟨ss, σ3⟩ ⟨same, eq⟩ => ?_
    refine ⟨by omega, fun last => branch_run span ?_⟩
    simp only [eq]
    exact arms last _ otherwise' other
  | .loop condition body span, plain, checked, σ => by
    unfold Hoist.stmt
    obtain ⟨hc, hb⟩ := List.forall_mem_append.mp plain
    cases target with
    | some k => cases checked rfl
    | none =>
      rw [StateT.run_bind]
      refine ensures_bind (ensures_hoistExpr condition hc σ)
        fun ⟨⟨prelude, condition'⟩, σ1⟩ ⟨le1, runCondition⟩ => ?_
      dsimp only at le1 runCondition ⊢
      rw [StateT.run_bind]
      refine ensures_bind (ensures_hoistBlock none span body hb nofun σ1)
        fun ⟨body', σ2⟩ ⟨le2, runBody⟩ => ?_
      dsimp only at le2 runBody ⊢
      have rounds := loop_run span runCondition (runBody.mono le1)
      split
      next empty =>
        refine ensures_pure ⟨Nat.le_trans le1 le2, fun last => ?_⟩
        rw [List.isEmpty_iff.mp empty] at rounds
        simp only [flat_singleton, stmt_loop]
        exact rounds
      next =>
        rw [StateT.run_bind]
        refine ensures_bind (ensures_guardLoop I limit prelude condition' body' span σ2)
          fun ⟨s, σ3⟩ ⟨same, eq⟩ => ?_
        dsimp only at same eq
        refine ensures_pure ⟨by dsimp only; omega, fun last => ?_⟩
        simp only [flat_singleton, eq]
        exact rounds
  | .breakOut amount span, _, _, σ => by
    exact ensures_pure ⟨Nat.le_refl _, fun last j env env' T starts => .throw .refl⟩
  | .continueLoop span, _, _, σ => by
    exact ensures_pure ⟨Nat.le_refl _, fun last j env env' T starts => .throw .refl⟩

end

end Flat

end EbLang.Execution
