import EbLang.Proofs.Balance.ShortCircuit
import EbLang.Proofs.Execution
import EbLang.Proofs.Reading

/-!
# Short-circuit operators run as they should

A body in which operators were made conditional, run strictly, does what the body does when `&&` and
`||` leave out their right operands.

Both read an expression onto a stack: the pass has the steps of an operand, the execution an operand
that has not run yet.  The two stacks correspond: running the steps of an operand on a stack of values
runs the operand and pushes its value.  An operand that the pass takes for one without effects only
reads the state, so it does not matter whether it runs.
-/

namespace EbLang.Execution

variable {V W α β : Type}

/-- What follows an execution only matters for the values it can give. -/
theorem run_bind_congr {x : Run V W α} {f g : α → Run V W β} {P : α → Prop} (hx : Ensures x P)
    (h : ∀ a, P a → f a = g a) : x >>= f = x >>= g := by
  apply ExceptT.ext
  rw [ExceptT.run_bind, ExceptT.run_bind]
  refine bind_congr_of_ensures (P := fun r => ∀ a, r = .ok a → P a) hx fun r hr => ?_
  cases r with
  | error e => rfl
  | ok a => exact h a (hr a rfl)

/-! ## Operands without effects -/

/-- An execution that gives a value that depends on the state and has no effect. -/
def Reads (x : Run V W α) : Prop := ∃ g : State V W → α, x = (do return g (← get))

namespace Reads

theorem pure (a : α) : Reads (Pure.pure a : Run V W α) := ⟨fun _ => a, rfl⟩

variable {x : Run V W α}

theorem bind_pure (hx : Reads x) (f : α → β) : Reads (do return f (← x) : Run V W β) := by
  obtain ⟨g, rfl⟩ := hx
  exact ⟨fun s => f (g s), rfl⟩

theorem bind (hx : Reads x) {f : α → Run V W β} (hf : ∀ a, Reads (f a)) : Reads (x >>= f) := by
  obtain ⟨g, rfl⟩ := hx
  choose h hh using hf
  refine ⟨fun s => h (g s) s, ?_⟩
  funext s
  change f (g s) s = _
  rw [hh]
  rfl

theorem mapM {xs : List (Run V W α)} (h : ∀ x ∈ xs, Reads x) : Reads (xs.mapM id) := by
  induction xs with
  | nil =>
    exact .pure _
  | cons x xs ih =>
    rw [List.mapM_cons]
    refine (h x List.mem_cons_self).bind fun v => ?_
    exact (ih fun x hx => h x (List.mem_cons_of_mem _ hx)).bind fun vs => .pure _

end Reads

/-! ## Operands -/

section Operands

variable (I : Interpretation V W) (limit : Nat) (env : Env)

theorem steps_append (strategy : Strategy V W) (ts us : List Term) :
    steps I strategy limit env (ts ++ us) =
      steps I strategy limit env ts ++ steps I strategy limit env us := by
  induction ts with
  | nil => rfl
  | cons t ts ih => rw [List.cons_append, steps, steps, ih, List.cons_append]

/-- Running the steps pushes the value that the operand gives. -/
def Pushes (ts : List Term) (x : Run V W V) : Prop :=
  ∀ values rest, runSteps I env values (steps I .strict limit env ts ++ rest) =
    x >>= fun v => runSteps I env (v :: values) rest

/-- Running the steps pushes the values that the operands give. -/
def PushesAll (ts : List Term) (xs : List (Run V W V)) : Prop :=
  ∀ values rest, runSteps I env values (steps I .strict limit env ts ++ rest) =
    xs.mapM id >>= fun vs => runSteps I env (vs.reverse ++ values) rest

/-- What the pass has of an operand corresponds to an operand that has not run yet. -/
structure Runs (o : ShortCircuit.Operand) (x : Run V W V) : Prop where
  pushes : Pushes I limit env o.terms x
  reads : o.effects = false → Reads x

variable {I limit env}
variable {ts : List Term} {x : Run V W V} {os : List ShortCircuit.Operand} {xs : List (Run V W V)}
  {a : Atom} {c : Call}

/-- Alone, steps give the value of their operand. -/
theorem Pushes.alone (h : Pushes I limit env ts x) :
    runSteps I env [] (steps I .strict limit env ts) = x := by
  have := h [] []
  rw [List.append_nil] at this
  rw [this]
  exact bind_pure x

theorem PushesAll.nil : PushesAll I limit env [] [] := by
  intro values rest
  rfl

theorem PushesAll.cons {us : List Term}
    (h : Pushes I limit env ts x) (hs : PushesAll I limit env us xs) :
    PushesAll I limit env (ts ++ us) (x :: xs) := by
  intro values rest
  rw [steps_append, List.append_assoc, h, List.mapM_cons, bind_assoc]
  refine bind_congr fun v => ?_
  rw [hs, bind_assoc]
  refine bind_congr fun vs => ?_
  rw [pure_bind, List.reverse_cons, List.append_assoc]
  rfl

theorem pushesAll_flatMap (h : List.Forall₂ (Runs I limit env) os xs) :
    PushesAll I limit env (os.flatMap ShortCircuit.Operand.terms) xs := by
  induction h with
  | nil => exact .nil
  | cons ho _ ih =>
    exact ih.cons ho.pushes

/-- An atom after its operands. -/
theorem PushesAll.snoc {f : List V → Run V W V} (h : PushesAll I limit env ts xs)
    (ha : ∀ vs values, vs.length = xs.length →
      runAtom I env a (vs.reverse ++ values) = do return (← f vs) :: values) :
    Pushes I limit env (ts ++ [.atom a]) (xs.mapM id >>= f) := by
  intro values rest
  rw [steps_append, List.append_assoc, h, bind_assoc]
  have lengths : Ensures (xs.mapM id) fun vs => vs.length = xs.length :=
    ensures_imp (ensures_mapM_forall (P := fun _ => True) fun x _ => ensures_of_forall fun _ => trivial)
      fun vs hvs => hvs.1
  refine run_bind_congr lengths fun vs hvs => ?_
  change (do runSteps I env (← runAtom I env a (vs.reverse ++ values)) rest) = _
  rw [ha vs values hvs, bind_assoc]
  simp only [pure_bind]

theorem runAtom_call {vs : List V} (kind : a.kind = .call c)
    (length : vs.length = c.argCount) (values : List V) :
    runAtom I env a (vs.reverse ++ values) = do return (← operate I c vs) :: values := by
  have enough : ¬ (vs.reverse ++ values).length < c.argCount := by
    rw [List.length_append, List.length_reverse]
    omega
  have taken : ((vs.reverse ++ values).take c.argCount).reverse = vs := by
    rw [List.take_append_of_le_length (by simp [length]), List.take_of_length_le (by simp [length]),
      List.reverse_reverse]
  have left : (vs.reverse ++ values).drop c.argCount = values := by
    rw [List.drop_append_of_le_length (by simp [length]), List.drop_of_length_le (by simp [length]),
      List.nil_append]
  unfold runAtom
  simp only [kind, if_neg enough, taken, left]

theorem pushes_leaf (ha : ∀ values, runAtom I env a values = do return (← x) :: values) :
    Pushes I limit env [.atom a] x := by
  intro values rest
  change (do runSteps I env (← runAtom I env a values) rest) = _
  rw [ha, bind_assoc]
  simp only [pure_bind]

/-- An atom that computes something from the value before it. -/
theorem Pushes.snoc {f : V → V} (h : Pushes I limit env ts x)
    (ha : ∀ v values, runAtom I env a (v :: values) = pure (f v :: values)) :
    Pushes I limit env (ts ++ [.atom a]) (do return f (← x)) := by
  intro values rest
  rw [steps_append, List.append_assoc, h, bind_assoc]
  refine bind_congr fun v => ?_
  change (do runSteps I env (← runAtom I env a (v :: values)) rest) = _
  rw [ha, pure_bind, pure_bind]

/-! ## Calls -/

theorem apply_logical (name : c.name = "&&" ∨ c.name = "||") (a b : V) :
    I.apply c.name [a, b] =
      if I.truth a = (c.name == "||") then I.ofBool (c.name == "||") else b := by
  rcases name with name | name
  · rw [name]
    simp [Interpretation.apply, Interpretation.and]
    cases I.truth a <;> rfl
  · rw [name]
    simp [Interpretation.apply, Interpretation.or]

variable {y : Run V W V} {isOr : Bool}

/-- Operands that only read may as well run: the operator gives the same. -/
theorem logical_eq_operate (isOperator : c.isOperator = true)
    (name : c.name = "&&" ∨ c.name = "||") (hx : Reads x) (hy : Reads y) :
    logical I (c.name == "||") x y = List.mapM id [x, y] >>= operate I c := by
  obtain ⟨g, rfl⟩ := hx
  obtain ⟨h, rfl⟩ := hy
  have operates : operate I c = fun vs => pure (I.apply c.name vs) := by
    funext vs
    simp only [operate, isOperator, if_true]
  rw [operates]
  funext s
  change (if I.truth (g s) = (c.name == "||") then pure (I.ofBool (c.name == "||"))
    else do return h (← get) : Run V W V) s = (.ok (I.apply c.name [g s, h s]), s)
  rw [apply_logical name]
  split <;> rfl

theorem block_valueBlock (h : Pushes I limit env ts x) (id : Nat) (span : Span) :
    block I .strict limit env (ShortCircuit.valueBlock id ⟨ts, span⟩) = do return some (← x) := by
  have value : expr I .strict limit env ⟨ts, span⟩ = x := h.alone
  simp only [ShortCircuit.valueBlock, block, stmts, stmt, value, bind_assoc, pure_bind]

theorem pushes_bool (b : Bool) (span : Span) :
    Pushes I limit env [.atom (.bool b span)] (pure (I.ofBool b)) :=
  pushes_leaf fun _ => rfl

/-- Only the truth of a condition matters. -/
theorem bind_ite_truth (x : Run V W V) (y z : Run V W α) :
    (do if I.truth (← x) then y else z) =
      (do return I.truth (← x) : Run V W Bool) >>= fun b => if b then y else z := by
  simp

/-- The condition of the value-`if` of an operator. -/
theorem condition_truth {left : List Term} (span span' : Span) (h : Pushes I limit env left x) :
    (do return I.truth (← expr I .strict limit env
        ⟨if isOr then left else left ++ [.atom (.operator "!" 1 span)], span'⟩) : Run V W Bool) =
      do return I.truth (← x) == isOr := by
  cases isOr with
  | true =>
    have value : expr I .strict limit env ⟨left, span'⟩ = x := h.alone
    simp [value]
  | false =>
    have value : expr I .strict limit env ⟨left ++ [.atom (.operator "!" 1 span)], span'⟩ =
        do return I.ofBool !(I.truth (← x)) :=
      (h.snoc fun v values => rfl).alone
    rw [if_neg (by decide), value]
    simp [I.truth_ofBool]

/-- The value-`if` of an operator leaves out what the operator does. -/
theorem conditional_pushes {left right : List Term} (span : Span)
    (thenId elseId : Nat) (hx : Pushes I limit env left x) (hy : Pushes I limit env right y) :
    Pushes I limit env [ShortCircuit.conditional isOr left right span thenId elseId]
      (logical I isOr x y) := by
  intro values rest
  refine congrArg (· >>= fun v => runSteps I env (v :: values) rest) ?_
  simp only [branches, optionalBlock, block_valueBlock hy, block_valueBlock (pushes_bool isOr span)]
  rw [bind_ite_truth, condition_truth span _ hx]
  simp only [bind_assoc, pure_bind, logical, beq_iff_eq]
  refine bind_congr fun a => ?_
  split
  · rfl
  · simp [required]

theorem delayCall_reads (isOperator : c.isOperator = true)
    (h : ∀ x ∈ xs, Reads x) : Reads (delayCall I c xs) := by
  unfold delayCall
  split
  next x y _ =>
    refine (h x (by simp)).bind fun a => ?_
    split
    · exact .pure _
    · exact h y (by simp)
  next =>
    refine (Reads.mapM h).bind fun vs => ?_
    simp only [operate, isOperator, if_true]
    exact .pure _

/-- Operands without effects only read. -/
theorem forall_reads (h : List.Forall₂ (Runs I limit env) os xs)
    (none : os.any ShortCircuit.Operand.effects = false) : ∀ x ∈ xs, Reads x := by
  induction h with
  | nil => exact List.forall_mem_nil _
  | cons ho _ ih =>
    simp only [List.any_cons, Bool.or_eq_false_iff] at none
    exact List.forall_mem_cons.mpr ⟨ho.reads none.1, ih none.2⟩

/-- A call that stays a call does what it does when its operands are put off. -/
theorem delayCall_eq_operate
    (h : List.Forall₂ (Runs I limit env) os xs) (length : os.length = c.argCount)
    (kept : (ShortCircuit.isShortCircuit c && os.any ShortCircuit.Operand.effects) = false) :
    delayCall I c xs = xs.mapM id >>= operate I c := by
  unfold delayCall
  split
  next x y logic =>
    rw [Bool.and_eq_true, Bool.or_eq_true, beq_iff_eq, beq_iff_eq] at logic
    have two : c.argCount = 2 := by rw [← length, h.length_eq]; rfl
    have short : ShortCircuit.isShortCircuit c = true := by
      unfold ShortCircuit.isShortCircuit
      rcases logic.2 with name | name <;> simp [logic.1, two, name]
    rw [short, Bool.true_and] at kept
    have reads := forall_reads h kept
    exact logical_eq_operate logic.1 logic.2 (reads x (by simp)) (reads y (by simp))
  next => rfl

/-- Two operands correspond to two. -/
theorem forall₂_pair {left right : ShortCircuit.Operand}
    (h : List.Forall₂ (Runs I limit env) [left, right] xs) :
    ∃ x y, Runs I limit env left x ∧ Runs I limit env right y ∧ xs = [x, y] := by
  obtain ⟨x, ys, hx, hys, rfl⟩ := List.forall₂_cons_left_iff.mp h
  obtain ⟨y, zs, hy, hzs, rfl⟩ := List.forall₂_cons_left_iff.mp hys
  cases hzs
  exact ⟨x, y, hx, hy, rfl⟩

variable (I limit)

/-- A call in place of its operands runs as one whose operands are put off. -/
theorem ensures_pushCall {operands stack : List ShortCircuit.Operand}
    (kind : a.kind = .call c) (length : operands.length = c.argCount) :
    Ensures (ShortCircuit.pushCall a c operands stack) fun r => ∃ o, r = o :: stack ∧
      ∀ env xs, List.Forall₂ (Runs I limit env) operands xs →
        Runs I limit env o (delayCall I c xs) := by
  unfold ShortCircuit.pushCall
  dsimp only
  split
  next left right lowered =>
    refine ensures_then fun thenId => ensures_then fun elseId => ensures_pure ⟨_, rfl, ?_⟩
    intro env xs h
    obtain ⟨x, y, hx, hy, rfl⟩ := forall₂_pair h
    refine ⟨?_, nofun⟩
    simp only [Bool.and_eq_true, ShortCircuit.isShortCircuit] at lowered
    have delayed : delayCall I c [x, y] = logical I (c.name == "||") x y := by
      unfold delayCall
      rw [lowered.1.1.1, lowered.1.2, Bool.and_true]
    rw [delayed]
    exact conditional_pushes a.span thenId elseId hx.pushes hy.pushes
  next operands _ _ kept =>
    refine ensures_pure ⟨_, rfl, ?_⟩
    intro env xs h
    have lengths : xs.length = c.argCount := h.length_eq.symm.trans length
    refine ⟨?_, fun none => ?_⟩
    · have stays : (ShortCircuit.isShortCircuit c &&
          operands.any ShortCircuit.Operand.effects) = false := by
        by_contra lowered
        rw [Bool.not_eq_false] at lowered
        have two : operands.length = 2 := by
          simp only [Bool.and_eq_true, ShortCircuit.isShortCircuit, beq_iff_eq] at lowered
          omega
        obtain ⟨left, right, eq⟩ := List.length_eq_two.mp two
        exact kept left right lowered eq
      rw [delayCall_eq_operate h length stays]
      exact (pushesAll_flatMap h).snoc fun vs values same =>
        runAtom_call kind (same.trans lengths) values
    · simp only [Bool.or_eq_false_iff, Bool.not_eq_false'] at none
      exact delayCall_reads none.2 (forall_reads h none.1)

/-- An atom on the stack of the pass runs as one on a stack of operands that are put off. -/
theorem ensures_push {stack : List ShortCircuit.Operand} (enough : a.takes ≤ stack.length) :
    Ensures (ShortCircuit.push a stack) fun r => ∃ o, r = some (o :: stack.drop a.takes) ∧
      ∀ env xs, List.Forall₂ (Runs I limit env) stack xs → ∃ x, Runs I limit env o x ∧
        delayAtom I env a xs = some (x :: xs.drop a.takes) := by
  unfold ShortCircuit.push
  split
  next l kind =>
    have takes : a.takes = 0 := by simp [Atom.takes, kind]
    rw [takes]
    refine ensures_pure ⟨_, rfl, fun env xs _ => ⟨pure (I.literal l a.ty), ⟨?_, fun _ => ?_⟩, ?_⟩⟩
    · exact pushes_leaf fun values => by simp [runAtom, kind]
    · exact .pure _
    · simp [delayAtom, kind]
  next name _ kind =>
    have takes : a.takes = 0 := by simp [Atom.takes, kind]
    rw [takes]
    refine ensures_pure ⟨_, rfl, fun env xs _ =>
      ⟨do return valueOf I env name (← get), ⟨?_, fun _ => ?_⟩, ?_⟩⟩
    · exact pushes_leaf fun values => by simp [runAtom, kind]
    · exact ⟨valueOf I env name, rfl⟩
    · simp [delayAtom, kind]
  next m base stack kind =>
    have takes : a.takes = 1 := by simp [Atom.takes, kind]
    rw [takes]
    refine ensures_pure ⟨_, rfl, fun env xs h => ?_⟩
    obtain ⟨x, xs, hx, -, rfl⟩ := List.forall₂_cons_left_iff.mp h
    refine ⟨do return I.member m.name (← x), ⟨?_, fun none => ?_⟩, ?_⟩
    · exact hx.pushes.snoc fun v values => by simp [runAtom, kind]
    · exact (hx.reads none).bind_pure _
    · simp [delayAtom, kind]
  next kind => simp [Atom.takes, kind] at enough
  next c kind =>
    have takes : a.takes = c.argCount := by simp [Atom.takes, kind]
    rw [takes] at enough ⊢
    rw [if_neg (by omega)]
    refine ensures_bind (ensures_pushCall I limit kind ?_) fun r hr => ?_
    · simp only [List.length_reverse, List.length_take]
      omega
    · obtain ⟨o, rfl, ho⟩ := hr
      refine ensures_pure ⟨o, rfl, fun env xs h => ⟨_, ho env (xs.take c.argCount).reverse ?_, ?_⟩⟩
      · exact List.rel_reverse (List.forall₂_take _ h)
      · have length := h.length_eq
        simp only [delayAtom, kind]
        rw [if_neg (by omega)]

/-! ## Trees -/

mutual

/-- A step on the stack of the pass runs as one on a stack of operands that are put off. -/
theorem ensures_term (stack : List ShortCircuit.Operand) :
    ∀ t : Term, t.WellFormed → t.takes ≤ stack.length →
      Ensures (ShortCircuit.term stack t) fun r => ∃ o, r = some (o :: stack.drop t.takes) ∧
        ∀ env xs, List.Forall₂ (Runs I limit env) stack xs → ∃ x, Runs I limit env o x ∧
          ∀ ts, delaySteps I env xs (step I .shortCircuit limit env t :: ts) =
            delaySteps I env (x :: xs.drop t.takes) ts
  | .atom a, _, enough => by
    refine ensures_imp (ensures_push I limit enough) fun r ⟨o, eq, runs⟩ => ⟨o, eq, ?_⟩
    intro env xs h
    obtain ⟨x, hx, delayed⟩ := runs env xs h
    refine ⟨x, hx, fun ts => ?_⟩
    simp only [step, delaySteps, delayed, Term.takes]
  | .choice as otherwise span, ⟨_, has, hotherwise⟩, _ => by
    refine ensures_bind (ensures_arms as has) fun as' arms_eq => ?_
    refine ensures_bind (ensures_optionalBlock otherwise hotherwise) fun otherwise' block_eq => ?_
    refine ensures_pure ⟨_, rfl, fun env xs _ => ⟨_, ⟨?_, nofun⟩, fun ts => rfl⟩⟩
    intro values rest
    rw [← arms_eq, ← block_eq]
    rfl

/-- An expression of which one operand is left. -/
theorem ensures_terms (stack : List ShortCircuit.Operand) :
    ∀ ts : List Term, TermsWellFormed ts → height? Term.takes stack.length ts = some 1 →
      Ensures (ShortCircuit.terms stack ts) fun us =>
        ∀ env xs, List.Forall₂ (Runs I limit env) stack xs →
          runSteps I env [] (steps I .strict limit env us) =
            delaySteps I env xs (steps I .shortCircuit limit env ts)
  | [], _, height => by
    obtain ⟨o, rfl⟩ := List.length_eq_one_iff.mp (Option.some.inj height)
    refine ensures_pure fun env xs h => ?_
    obtain ⟨x, rest, hx, none, rfl⟩ := List.forall₂_cons_left_iff.mp h
    cases none
    simpa [ShortCircuit.flatten, steps, delaySteps, onlyOperand] using hx.pushes.alone
  | t :: ts, ⟨ht, hts⟩, height => by
    simp only [height?] at height
    split at height
    next enough =>
      refine ensures_bind (ensures_term stack t ht enough) fun r hr => ?_
      obtain ⟨o, rfl, runs⟩ := hr
      refine ensures_imp (ensures_terms _ ts hts (ShortCircuit.height_push height)) fun us eq => ?_
      intro env xs h
      obtain ⟨x, hx, delayed⟩ := runs env xs h
      rw [eq env (x :: xs.drop t.takes) (.cons hx (List.forall₂_drop _ h))]
      exact (delayed _).symm
    next => cases height

theorem ensures_expr :
    ∀ e : Expr Term, e.WellFormed → Ensures (ShortCircuit.expr e) fun e' =>
      ∀ env, expr I .strict limit env e' = expr I .shortCircuit limit env e
  | ⟨ts, span⟩, ⟨balanced, wf⟩ => by
    exact ensures_bind (ensures_terms [] ts wf balanced) fun us eq =>
      ensures_pure fun env => eq env [] .nil

theorem ensures_optionalExpr :
    ∀ e : Option (Expr Term), OptionalWellFormed e →
      Ensures (ShortCircuit.optionalExpr e) fun e' =>
        ∀ env, optionalExpr I .strict limit env e' = optionalExpr I .shortCircuit limit env e
  | none, _ => by
    exact ensures_pure fun env => rfl
  | some e, h => by
    refine ensures_bind (ensures_expr e h) fun e' eq => ensures_pure fun env => ?_
    simp only [optionalExpr, eq]

theorem ensures_arms :
    ∀ as : List (Arm Term), ArmsWellFormed as →
      Ensures (ShortCircuit.arms as) fun as' => ∀ env otherwise,
        branches I .strict limit env otherwise as' = branches I .shortCircuit limit env otherwise as
  | [], _ => by
    exact ensures_pure fun env otherwise => rfl
  | .mk condition body :: as, ⟨hc, hb, has⟩ => by
    refine ensures_bind (ensures_expr condition hc) fun condition' hc' => ?_
    refine ensures_bind (ensures_block body hb) fun body' hb' => ?_
    refine ensures_bind (ensures_arms as has) fun as' has' => ?_
    refine ensures_pure fun env otherwise => ?_
    simp only [branches, hc', hb', has']

theorem ensures_optionalBlock :
    ∀ b : Option (Block Term), OtherwiseWellFormed b →
      Ensures (ShortCircuit.optionalBlock b) fun b' =>
        ∀ env, optionalBlock I .strict limit env b' = optionalBlock I .shortCircuit limit env b
  | none, _ => by
    exact ensures_pure fun env => rfl
  | some b, h => by
    exact ensures_bind (ensures_block b h) fun b' eq => ensures_pure eq

theorem ensures_block :
    ∀ b : Block Term, b.WellFormed → Ensures (ShortCircuit.block b) fun b' =>
      ∀ env, block I .strict limit env b' = block I .shortCircuit limit env b
  | .mk id body span, h => by
    refine ensures_bind (ensures_stmts body h) fun body' eq => ensures_pure fun env => ?_
    simp only [block, eq]

theorem ensures_stmts :
    ∀ ss : List (Stmt Term), StmtsWellFormed ss → Ensures (ShortCircuit.stmts ss) fun ss' =>
      ∀ env last, stmts I .strict limit env last ss' = stmts I .shortCircuit limit env last ss
  | [], _ => by
    exact ensures_pure fun env last => rfl
  | s :: ss, ⟨hs, hss⟩ => by
    refine ensures_bind (ensures_stmt s hs) fun s' hs' => ?_
    refine ensures_bind (ensures_stmts ss hss) fun ss' hss' => ensures_pure fun env last => ?_
    simp only [stmts, hs', hss']

theorem ensures_stmt :
    ∀ s : Stmt Term, s.WellFormed → Ensures (ShortCircuit.stmt s) fun s' =>
      ∀ env, stmt I .strict limit env s' = stmt I .shortCircuit limit env s
  | .declare name ty init var hidden span, h => by
    refine ensures_bind (ensures_optionalExpr init h) fun init' eq => ensures_pure fun env => ?_
    simp only [stmt, eq]
  | .assign target binding members value span, h => by
    refine ensures_bind (ensures_expr value h) fun value' eq => ensures_pure fun env => ?_
    simp only [stmt, eq]
  | .eval value span, h => by
    refine ensures_bind (ensures_expr value h) fun value' eq => ensures_pure fun env => ?_
    simp only [stmt, eq]
  | .ret value span, h => by
    refine ensures_bind (ensures_optionalExpr value h) fun value' eq => ensures_pure fun env => ?_
    simp only [stmt, eq]
  | .branch as otherwise span, ⟨_, has, ho⟩ => by
    refine ensures_bind (ensures_arms as has) fun as' arms_eq => ?_
    refine ensures_bind (ensures_optionalBlock otherwise ho) fun otherwise' block_eq => ?_
    refine ensures_pure fun env => ?_
    simp only [stmt, arms_eq, block_eq]
  | .loop condition body span, ⟨hc, hb⟩ => by
    refine ensures_bind (ensures_expr condition hc) fun condition' condition_eq => ?_
    refine ensures_bind (ensures_block body hb) fun body' body_eq => ensures_pure fun env => ?_
    simp only [stmt, condition_eq, body_eq]
  | .breakOut amount span, _ => by
    exact ensures_pure fun env => rfl
  | .continueLoop span, _ => by
    exact ensures_pure fun env => rfl

end

end Operands

/-! ## Files -/

/-- In every file that was read, every function does after operators were made conditional, run
strictly, what it did before with `&&` and `||` leaving out their right operands: it gives the same
value or exit from every state, and leaves the same variables, world and trace.  Nothing else of it
changes. -/
theorem run_shorten_eq_shortCircuit {l : Lexed} {name : String} {t : FileTree Term}
    (parsed : parse l name = .ok t) (I : Interpretation V W) (limit : Nat) (env : Env) :
    List.Forall₂
      (fun f g => g = { f with body := g.body } ∧
        block I .strict limit env g.body = block I .shortCircuit limit env f.body)
      t.functions t.shorten.functions := by
  have wf := (ensures_parse l name t parsed).wellFormed
  refine ensures_functionsOf (m := StateM Nat) t.items (fun f hf => ?_) t.nextBlock
  refine ensures_bind (ensures_block I limit f.body (wf.forall_functions f hf)) fun b eq => ?_
  exact ensures_pure ⟨rfl, eq env⟩

/-- Both operators, nested, with operands that have effects. -/
def nestedOperators : String :=
  "fn f(a: Bool): Bool \x7b g(a) || a && h(if a || g(a) \x7b a \x7d else \x7b k() \x7d) \x7d"

theorem run_shorten_eq_shortCircuit_nested :
    ∃ l t, scan nestedOperators "m" = .ok l ∧ parse l "m" = .ok t ∧
      t.functions.map (·.name) = ["f"] ∧
      ∀ (V W : Type) (I : Interpretation V W) limit env,
        List.Forall₂
          (fun f g => g = { f with body := g.body } ∧
            block I .strict limit env g.body = block I .shortCircuit limit env f.body)
          t.functions t.shorten.functions := by
  have read : readsAs nestedOperators (fun t => t.functions.map (·.name) = ["f"]) = true := by
    decide +kernel
  obtain ⟨l, t, scanned, parsed, name⟩ := exists_of_readsAs read
  exact ⟨l, t, scanned, parsed, of_decide_eq_true name, fun V W I limit env =>
    run_shorten_eq_shortCircuit parsed I limit env⟩

end EbLang.Execution
