import EbLang.Proofs.Execution.Hoist

/-!
# Loop guards and `else if`s

Two statements cannot have the value-`if`s of their conditions moved in front of them.  A loop first
gets a guard: `while c { .. }` becomes `while true { if c { } else { break 1 } .. }`.  An `if` is first
split: from the first `else if` on whose condition holds a value-`if`, its arms move into an `if`
inside an `else`.

Hoisting makes of these statements what it makes of their rewritten forms, and the rewritten forms
run as the statements do, whatever order expressions are evaluated in.
-/

namespace EbLang

/-- Whether an expression has a value-`if` among its steps. -/
def Expr.holdsChoice (e : Expr Term) : Bool := e.terms.any Term.isChoice

namespace Stmt

/-- A loop that tests its condition at the top of its body.  The blocks of the test are numbered
`goOn` and `leave`. -/
def guarded (goOn leave : Nat) (condition : Expr Term) (body : Block Term) (span : Span) : Stmt Term :=
  let place := condition.span
  let test : Stmt Term := .branch [.mk condition (.mk goOn [] place)]
    (some (.mk leave [.breakOut 1 place] place)) place
  .loop ⟨[.atom (.bool true place)], place⟩ (.mk body.id (test :: body.body) body.span) span

/-- A loop gets a guard if its condition holds a value-`if`. -/
def guard (goOn leave : Nat) : Stmt Term → Stmt Term
  | .loop condition body span =>
    if condition.holdsChoice then guarded goOn leave condition body span
    else .loop condition body span
  | s => s

/-- The block numbered `id` of an `else` with some arms of an `if`. -/
def nested (id : Nat) (a : Arm Term) (back : List (Arm Term)) (otherwise : Option (Block Term))
    (span : Span) : Block Term :=
  let place := a.condition.span.upTo (Hoist.lastSpan (a :: back) otherwise span)
  .mk id [.branch (a :: back) otherwise place] place

/-- An `if` has its arms, from the first `else if` on whose condition holds a value-`if`, inside an
`else`. -/
def split (id : Nat) : Stmt Term → Stmt Term
  | .branch (first :: others) otherwise span =>
    match others.dropWhile fun a => !a.condition.holdsChoice with
    | [] => .branch (first :: others) otherwise span
    | a :: back => .branch (first :: others.takeWhile fun a => !a.condition.holdsChoice)
        (some (nested id a back otherwise span)) span
  | s => s

theorem split_cases (s : Stmt Term) :
    (∀ id, s.split id = s) ∨
      ∃ first front a back otherwise span, s = .branch (first :: (front ++ a :: back)) otherwise span ∧
        (∀ f ∈ front, f.condition.holdsChoice = false) ∧ a.condition.holdsChoice = true ∧
          ∀ id, s.split id = .branch (first :: front) (some (nested id a back otherwise span)) span := by
  cases s with
  | branch arms otherwise span =>
    cases arms with
    | nil => exact .inl fun _ => rfl
    | cons first others =>
      let plain : Arm Term → Bool := fun a => !a.condition.holdsChoice
      cases h : others.dropWhile plain with
      | nil =>
        refine .inl fun id => ?_
        simp only [split]
        rw [h]
      | cons a back =>
        refine .inr ⟨first, others.takeWhile plain, a, back, otherwise, span, ?_, ?_, ?_, fun id => ?_⟩
        · rw [← h, List.takeWhile_append_dropWhile]
        · intro f hf
          have := List.all_takeWhile (p := plain) (l := others)
          simpa [plain] using List.all_eq_true.mp this f hf
        · have := List.head?_dropWhile_not plain others
          simpa [h, plain] using this
        · simp only [split]
          rw [h]
  | _ => exact .inl fun _ => rfl

end Stmt

namespace Execution

variable {V W : Type} (I : Interpretation V W) (limit : Nat)

/-- A statement runs as another one: the same calls, stores and outcome in the same order, whatever
order expressions are evaluated in. -/
def RunsAlike (s s' : Stmt Term) : Prop :=
  ∀ {V W : Type} (I : Interpretation V W) (limit : Nat) (env : Env),
    stmt I .strict limit env s = stmt I .strict limit env s' ∧
      stmt I .shortCircuit limit env s = stmt I .shortCircuit limit env s' ∧
        stmt I .choicesFirst limit env s = stmt I .choicesFirst limit env s'

variable (strategy : Strategy V W) (env : Env)

/-- To leave a loop is to make no more rounds. -/
theorem stmt_guarded (goOn leave : Nat) (condition : Expr Term) (body : Block Term) (span : Span)
    (literal : ∀ place, strategy I env [.atom (.bool true place)] = pure (I.ofBool true)) :
    stmt I strategy limit env (.loop condition body span) =
      stmt I strategy limit env (.guarded goOn leave condition body span) := by
  have holds : expr I strategy limit env ⟨[.atom (.bool true condition.span)], condition.span⟩ =
    pure (I.ofBool true) := literal _
  simp only [Stmt.guarded, stmt, holds, pure_bind, I.truth_ofBool, if_true]
  refine congrArg (· >>= fun _ => pure (env, none)) (rounds_congr ?_ limit)
  cases body
  simp only [block, Block.body, stmts, stmt, branches, optionalBlock, bind_assoc, pure_bind]
  refine tryCatch_bind_congr fun v => ?_
  split
  · rw [pure_bind]
  · rfl

theorem branches_append (otherwise : Run V W (Option V)) (front back : List (Arm Term)) :
    branches I strategy limit env otherwise (front ++ back) =
      branches I strategy limit env (branches I strategy limit env otherwise back) front := by
  induction front with
  | nil => rw [List.nil_append, branches]
  | cons a front ih =>
    obtain ⟨condition, body⟩ := a
    simp only [List.cons_append, branches, ih]

theorem stmt_split (s : Stmt Term) (id : Nat) :
    stmt I strategy limit env s = stmt I strategy limit env (s.split id) := by
  obtain same | ⟨first, front, a, back, otherwise, span, rfl, -, -, eq⟩ := s.split_cases
  · rw [same]
  · rw [eq, ← List.cons_append]
    simp only [stmt, branches_append, Stmt.nested, optionalBlock, block, stmts, bind_assoc, pure_bind,
      bind_pure]

end Execution

namespace Hoist

theorem isEmpty_of_terms (number : Nat) (ts : List Term) :
    Ensures (terms number ts) fun r => r.1.isEmpty = !ts.any Term.isChoice := by
  induction ts generalizing number with
  | nil =>
    exact ensures_pure rfl
  | cons t ts ih =>
    have first : Ensures (term number t) fun r => r.1.isEmpty = !t.isChoice := by
      cases t <;> unfold term
      · exact ensures_pure rfl
      · exact ensures_then fun _ => ensures_then fun _ => ensures_then fun _ => ensures_pure rfl
    refine ensures_bind first fun r hr => ensures_bind (ih _) fun r' hr' => ensures_pure ?_
    rw [List.any_cons, Bool.not_or, ← hr, ← hr']
    cases r.1 <;> rfl

/-- An expression needs preparation if it holds a value-`if`. -/
theorem ensures_expr_prepared (e : Expr Term) :
    Ensures (expr e) fun r => r.2.span = e.span ∧ r.1.isEmpty = !e.holdsChoice := by
  unfold expr
  refine ensures_then fun number => ensures_then fun _ => ?_
  exact ensures_bind (isEmpty_of_terms number e.terms) fun r hr => ensures_pure ⟨rfl, hr⟩

theorem expr_atom (a : Atom) (span : Span) : expr ⟨[.atom a], span⟩ = pure ([], ⟨[a], span⟩) := by
  rfl

variable (target : Option String) (s : Stmt Term) (front : List (Arm Term))

theorem stmt_guarded (goOn leave id : Nat) (condition : Expr Term)
    (body : List (Stmt Term)) (span' span : Span) :
    stmt target (.guarded goOn leave condition (.mk id body span') span) = (do
      let (prelude, c) ← expr condition
      let body ← stmts none body
      let place := condition.span
      let test : Stmt Atom := .branch [.mk c (.mk goOn [] place)]
        (some (.mk leave [.breakOut 1 place] place)) place
      return [.loop (.ofAtom (.bool true place)) (.mk id (prelude ++ test :: body) span') span]) := by
  unfold Stmt.guarded
  simp only [stmt, expr_atom, block, Block.body, Block.id, Block.span, stmts, arms, optionalBlock,
    branch, chain, pure_bind, bind_assoc, List.append_assoc, List.nil_append, List.cons_append,
    List.append_nil, List.isEmpty_nil, if_true, PreparedArm.arm, Expr.ofAtom]
  rfl

/-- Computations that begin alike end alike for some choice of numbers. -/
theorem exists_bind_eq {α β ι : Type} [Inhabited ι] {x : M α} {f : α → M β} {g : ι → α → M β}
    {σ : Supply} (h : ∀ a σ', x.run σ = .ok (a, σ') →
      ∃ i, Prod.fst <$> (f a).run σ' = Prod.fst <$> (g i a).run σ') :
    ∃ i, Prod.fst <$> (x >>= f).run σ = Prod.fst <$> (x >>= g i).run σ := by
  simp only [StateT.run_bind]
  rcases eq : x.run σ with e | ⟨a, σ'⟩
  · exact ⟨default, rfl⟩
  · exact h a σ' eq

/-- Hoisting makes of a loop what it makes of the loop with its guard. -/
theorem exists_stmt_guard (σ : Supply) :
    ∃ ids : Nat × Nat, Prod.fst <$> (stmt target s).run σ =
      Prod.fst <$> (stmt target (s.guard ids.1 ids.2)).run σ := by
  cases s with
  | loop condition body span =>
    obtain ⟨id, body, span'⟩ := body
    by_cases holds : condition.holdsChoice = true
    · simp only [Stmt.guard, holds, if_true, stmt_guarded, stmt, block, bind_assoc, pure_bind]
      refine exists_bind_eq fun r σ1 h1 => exists_bind_eq fun body' σ2 _ => ?_
      obtain ⟨place, empty⟩ := ensures_expr_prepared condition σ _ h1
      rw [holds] at empty
      refine ⟨(σ2.block, σ2.block + 1), ?_⟩
      rw [if_neg (by simp [empty]), ← place]
      rfl
    · exact ⟨(0, 0), by rw [Stmt.guard, if_neg holds]⟩
  | _ => exact ⟨(0, 0), rfl⟩

theorem arms_append (back : List (Arm Term)) :
    arms target (front ++ back) =
      (do return (← arms target front) ++ (← arms target back)) := by
  induction front with
  | nil => simp only [List.nil_append, arms, pure_bind, bind_pure]
  | cons a front ih =>
    obtain ⟨condition, body⟩ := a
    simp only [List.cons_append, arms, ih, bind_assoc, pure_bind]

theorem ensures_arms_prepared (as : List (Arm Term)) :
    Ensures (arms target as) (List.Forall₂ (fun a p => p.condition.span = a.condition.span ∧
      p.prelude.isEmpty = !a.condition.holdsChoice) as) := by
  induction as with
  | nil =>
    exact ensures_pure .nil
  | cons a as ih =>
    obtain ⟨condition, body⟩ := a
    refine ensures_bind (ensures_expr_prepared condition) fun r hr => ensures_then fun b => ?_
    exact ensures_bind ih fun ps hps => ensures_pure (.cons hr hps)

theorem chain_append (last : Span) (otherwise : Option (Block Atom)) (qs : List PreparedArm) :
    ∀ ps : List PreparedArm, (∀ p ∈ ps, p.prelude.isEmpty = true) →
      chain last (ps ++ qs) otherwise = (do
        let (arms, otherwise) ← chain last qs otherwise
        return (ps.map PreparedArm.arm ++ arms, otherwise))
  | [], _ => (bind_pure _).symm
  | p :: ps, h => by
    obtain ⟨hp, hps⟩ := List.forall_mem_cons.mp h
    simp only [List.cons_append, chain, chain_append last otherwise qs ps hps, hp, if_true,
      bind_assoc, pure_bind, List.map_cons]

theorem lastSpan_append (a : Arm Term) (back : List (Arm Term))
    (otherwise : Option (Block Term)) (span span' : Span) :
    lastSpan (front ++ a :: back) otherwise span = lastSpan (a :: back) otherwise span' := by
  cases otherwise <;> simp [lastSpan, List.getLast?_cons]

/-- Hoisting makes of an `if` what it makes of the `if` with its later arms split off. -/
theorem exists_stmt_split (σ : Supply) :
    ∃ id, Prod.fst <$> (stmt target s).run σ = Prod.fst <$> (stmt target (s.split id)).run σ := by
  obtain same | ⟨first, front, a, back, otherwise, span, rfl, plain, holds, eq⟩ := s.split_cases
  · exact ⟨0, by rw [same]⟩
  simp only [eq, Stmt.nested]
  rw [← List.cons_append]
  simp only [stmt, stmts, arms_append, optionalBlock, block, List.isEmpty_nil, if_true,
    lastSpan_append _ a back otherwise span span, bind_assoc, pure_bind, List.append_nil]
  refine exists_bind_eq fun ps σ1 h1 => exists_bind_eq fun qs σ2 h2 => exists_bind_eq fun o σ3 _ => ?_
  cases ensures_arms_prepared target _ σ _ h1 with
  | @cons _ p _ ps hp hps =>
  cases ensures_arms_prepared target _ σ1 _ h2 with
  | @cons _ q _ qs hq hqs =>
  obtain ⟨place, empty⟩ := hq
  rw [holds] at empty
  have early : ∀ p ∈ ps, p.prelude.isEmpty = true :=
    forall_of_forall₂ (forall₂_imp_of_mem hps fun f hf _ h => h.2.trans (by rw [plain f hf]; rfl))
  have alone (last : Span) (b : Option (Block Atom)) :
      chain last ps b = pure (ps.map PreparedArm.arm, b) := by
    simpa only [List.append_nil, chain, pure_bind] using chain_append last b [] ps early
  simp only [List.cons_append, branch, chain, chain_append _ _ _ ps early, alone, empty,
    ← place, bind_assoc, pure_bind, Bool.not_true, Bool.false_eq_true, if_false, List.append_nil]
  exact exists_bind_eq fun r σ4 _ => ⟨σ4.block, rfl⟩

end Hoist

/-- A loop runs as its guarded form, and an `if` as its split form; and hoisting makes of a statement,
but for the numbers of new blocks, what it makes of its guarded and of its split form. -/
theorem runsAlike_guarded_split :
    (∀ goOn leave condition body span, Execution.RunsAlike (.loop condition body span)
      (.guarded goOn leave condition body span)) ∧
    (∀ id s, Execution.RunsAlike s (s.split id)) ∧
    ∀ target s σ,
      (∃ ids : Nat × Nat, Prod.fst <$> (Hoist.stmt target s).run σ =
        Prod.fst <$> (Hoist.stmt target (s.guard ids.1 ids.2)).run σ) ∧
      ∃ id, Prod.fst <$> (Hoist.stmt target s).run σ =
        Prod.fst <$> (Hoist.stmt target (s.split id)).run σ := by
  refine ⟨fun goOn leave condition body span V W I limit env => ?_, fun id s V W I limit env => ?_,
    fun target s σ => ⟨Hoist.exists_stmt_guard target s σ, Hoist.exists_stmt_split target s σ⟩⟩
  · have guarded (strategy) :=
      Execution.stmt_guarded I limit strategy env goOn leave condition body span
    exact ⟨guarded _ fun _ => rfl, guarded _ fun _ => rfl, guarded _ fun _ => rfl⟩
  · exact ⟨Execution.stmt_split I limit _ env s id, Execution.stmt_split I limit _ env s id,
      Execution.stmt_split I limit _ env s id⟩

end EbLang
