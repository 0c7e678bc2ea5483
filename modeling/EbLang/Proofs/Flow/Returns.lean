import EbLang.Proofs.Flow.Executions
import EbLang.Proofs.Flow.Loops

/-!
# Functions with a result return

Adding returns makes control leave the body of every function with a result, and binding names does
not change how it leaves.  It cannot leave by `break` or `continue` once loops are checked, so every
execution that comes to an end returns.
-/

namespace EbLang

variable {σ : Type}
variable {n n' : Nat}
variable {env env' : Env} {s s' : Stmt Atom} {vars : List Variable}

theorem FileTree.ensures_addReturns_leaves (t : FileTree Atom) :
    Ensures t.addReturns fun t' => ∀ f ∈ t'.functions,
      f.result.any Returns.isValueType = true → Returns.Leaves (Flow.ofBlock f.body) :=
  ensures_imp (t.ensures_addReturns fun _ => True) fun _ same =>
    forall_of_forall₂ (same.functions.imp fun _ _ done => done.leaves)

/-! ## Flows of resolved files -/

theorem StmtScoped.span_eq (h : StmtScoped env n s s' env' n') : s'.span = s.span := by
  cases h <;> rfl

theorem StmtScoped.unreachable_eq {next next' : Stmt Atom}
    (h : StmtScoped env n s s' env' n') (span : next'.span = next.span) :
    Flow.unreachable s' next' = Flow.unreachable s next := by
  cases h with
  | branch => rfl
  | declare | assign | eval | ret | loop | breakOut | continueLoop =>
    unfold Flow.unreachable
    rw [span]

mutual

theorem StmtScoped.flow_eq :
    ∀ {env env' : Env} {n n' : Nat} {s s' : Stmt Atom}, StmtScoped env n s s' env' n' →
      Flow.ofStmt s' = Flow.ofStmt s
  | _, _, _, _, _, _, .branch arms otherwise => by
    unfold Flow.ofStmt
    rw [arms.flow_eq, otherwise.flow_eq]
  | _, _, _, _, _, _, .loop _ body => by
    unfold Flow.ofStmt
    rw [body.flow_eq]
  | _, _, _, _, _, _, .declare _ | _, _, _, _, _, _, .assign _ _ | _, _, _, _, _, _, .eval _ => by
    rfl
  | _, _, _, _, _, _, .ret _ | _, _, _, _, _, _, .breakOut | _, _, _, _, _, _, .continueLoop => by
    rfl

theorem ArmsScoped.flow_eq :
    ∀ {env : Env} {n n' : Nat} {arms arms' : List (Arm Atom)}, ArmsScoped env n arms arms' n' →
      Flow.ofArms arms' = Flow.ofArms arms
  | _, _, _, _, _, .nil => rfl
  | _, _, _, _, _, .cons _ body arms => by
    unfold Flow.ofArms
    rw [body.flow_eq, arms.flow_eq]

theorem OtherwiseScoped.flow_eq :
    ∀ {env : Env} {n n' : Nat} {b b' : Option (Block Atom)}, OtherwiseScoped env n b b' n' →
      Flow.ofOtherwise b' = Flow.ofOtherwise b
  | _, _, _, _, _, .none => rfl
  | _, _, _, _, _, .some body => by
    unfold Flow.ofOtherwise
    rw [body.flow_eq]

theorem BlockScoped.flow_eq :
    ∀ {env : Env} {n n' : Nat} {b b' : Block Atom}, BlockScoped env n b b' n' →
      Flow.ofBlock b' = Flow.ofBlock b
  | _, _, _, _, _, .mk body => by
    exact body.flow_eq

/-- Binding names does not change how control leaves statements. -/
theorem StmtsScoped.flow_eq :
    ∀ {env : Env} {n n' : Nat} {ss ss' : List (Stmt Atom)}, StmtsScoped env n ss ss' n' →
      Flow.ofStmts ss' = Flow.ofStmts ss
  | _, _, _, _, _, .nil => rfl
  | _, _, _, _, _, .cons s ss => by
    have rest := ss.flow_eq
    unfold Flow.ofStmts
    rw [s.flow_eq, rest]
    cases ss with
    | nil => rfl
    | cons next _ =>
      simp only [List.head?_cons, s.unreachable_eq next.span_eq]

end

theorem FunctionScoped.flow_eq {f f' : FunctionItem Atom}
    (h : FunctionScoped vars n f f' n') : Flow.ofBlock f'.body = Flow.ofBlock f.body := by
  have body := h.body.flow_eq
  cases hb : f.body with
  | mk id ss span =>
    cases hb' : f'.body with
    | mk id' ss' span' =>
      rw [hb, hb'] at body
      exact body

theorem FunctionsScoped.exists_of_mem
    {fs fs' : List (FunctionItem Atom)} (h : FunctionsScoped vars n fs fs' n') :
    ∀ f' ∈ fs', ∃ f ∈ fs, ∃ m m', FunctionScoped vars m f f' m' := by
  induction h with
  | nil => exact List.forall_mem_nil _
  | @cons n n1 n2 f f' fs fs' first _ ih =>
    refine List.forall_mem_cons.mpr ⟨⟨f, List.mem_cons_self, n, n1, first⟩, fun g' hg' => ?_⟩
    obtain ⟨g, hg, judged⟩ := ih g' hg'
    exact ⟨g, List.mem_cons_of_mem _ hg, judged⟩

/-! ## Functions that return a value -/

/-- No execution of a block gets to its end or jumps out of it. -/
structure Block.OnlyReturns (b : Block Atom) : Prop where
  not_ends : ¬ BlockRuns b .ends
  not_breaks (amount : Nat) : ¬ BlockRuns b (.breaks amount)
  not_continues : ¬ BlockRuns b .continues

theorem Block.onlyReturns_of_leaves {b : Block Atom} (leaves : Returns.Leaves (Flow.ofBlock b))
    (jumps : b.JumpsWithin 0) : b.OnlyReturns where
  not_ends run := by
    obtain ⟨flow, eq, left⟩ := leaves
    have exact := Flow.ofBlock_exact b
    rw [eq] at exact
    rw [exact.2.mpr run] at left
    cases left
  not_breaks amount run := by
    have within := run.within jumps
    unfold Outcome.Within at within
    omega
  not_continues run := Nat.not_succ_le_zero 0 (run.within jumps)

/-- Functions with a result only end by returning. -/
def Module.ResultsReturned (m : Module) : Prop :=
  ∀ f ∈ m.tree.functions, ∀ s, f.signature = some s → s.result.isVoid = false → f.body.OnlyReturns

theorem FileTree.leads_resolve_resultsReturned (loader : Loader σ) {t t' : FileTree Atom}
    (returns : t.addReturns = .ok t') (nodup : (itemNumbers t'.items).Nodup) (shared : Shared σ) :
    Leads (t'.resolve loader) shared fun m _ => Ensures m.checkLoops Module.ResultsReturned := by
  refine (t'.leads_resolve loader nodup shared).imp ?_
  rintro m _ ⟨fs, perm, resolved⟩
  refine ensures_imp (Module.ensures_checkLoops resolved.outside resolved.marked) ?_
  rintro m' ⟨tree, -, jumps⟩ f' member s signature value
  rw [tree] at member
  obtain ⟨f, among, n, n', judged⟩ := resolved.judged.exists_of_mem f' member
  obtain ⟨s', declared⟩ := resolved.declared f' member
  cases signature.symm.trans declared.signature
  have written := declared.result_written value
  have result : f'.result = f.result := by rw [judged.same]
  rw [result] at written
  have leaves := t.ensures_addReturns_leaves t' returns f (perm.mem_iff.mp among) written
  rw [← judged.flow_eq] at leaves
  exact Block.onlyReturns_of_leaves leaves (jumps f' member)

/-- The flow of a block is found exactly if all its statements can be reached, and it falls exactly
if an execution gets to the end. -/
theorem Flow.ofBlock_iff (b : Block Atom) :
    ((∃ e, Flow.ofBlock b = .error e) ↔
      ∃ p s, stmtAt? b.body p = some s ∧ ¬ BlockRuns b (.arrives p)) ∧
    ∀ flow, Flow.ofBlock b = .ok flow → (flow = .falls ↔ BlockRuns b .ends) := by
  have exact := Flow.ofBlock_exact b
  have reached : ¬ AllReached b.body ↔
      ∃ p s, stmtAt? b.body p = some s ∧ ¬ BlockRuns b (.arrives p) := by
    simp [AllReached, Option.isSome_iff_exists, blockRuns_iff]
  rw [← reached]
  cases eq : Flow.ofBlock b with
  | error e =>
    rw [eq] at exact
    exact ⟨⟨fun _ => exact, fun _ => ⟨e, rfl⟩⟩, fun _ falls => by cases falls⟩
  | ok flow =>
    rw [eq] at exact
    refine ⟨⟨?_, fun missed => absurd exact.1 missed⟩, ?_⟩
    · rintro ⟨e, error⟩
      cases error
    · rintro flow' same
      cases same
      exact exact.2

/-- Returns are added and loops are checked so that functions with a result return it, in every file
whose blocks have different numbers, as those of every file have that was read.  The flow of a block
without value-`if`s is found exactly if all its statements can be reached, and it falls exactly if an
execution gets to the end.  Every run of such a block by an interpretation is an execution of it. -/
theorem results_returned_and_flow_exact (loader : Loader σ) :
    (∀ (t t' : FileTree Atom) (shared : Shared σ), t.addReturns = .ok t' →
      (itemNumbers t'.items).Nodup →
      Leads (t'.resolve loader) shared fun m _ => Ensures m.checkLoops Module.ResultsReturned) ∧
    (∀ (l : Lexed) (name : String),
      Ensures (readTree l name) fun t => (itemNumbers t.items).Nodup) ∧
    (∀ b : Block Atom,
      ((∃ e, Flow.ofBlock b = .error e) ↔
        ∃ p s, stmtAt? b.body p = some s ∧ ¬ BlockRuns b (.arrives p)) ∧
      ∀ flow, Flow.ofBlock b = .ok flow → (flow = .falls ↔ BlockRuns b .ends)) ∧
    ∀ {V W : Type} (I : Execution.Interpretation V W) (limit : Nat) (env : Execution.Env)
      (b : Block Atom), Execution.Comes (Execution.block I .strict limit env (b.map .atom)) (BlockRuns b) :=
  ⟨fun _ _ shared returns nodup =>
    FileTree.leads_resolve_resultsReturned loader returns nodup shared,
    ensures_readTree_nodup, Flow.ofBlock_iff, Execution.comes_block⟩

/-- A function that returns from inside of a loop, after a loop left by `break`, and by the values of
the branches it ends with. -/
def returning : String :=
  "fn f(c: Bool): I32 \x7b\n" ++
  "  while c \x7b while c \x7b if c \x7b break *2 \x7d else \x7b return 1 \x7d \x7d \x7d\n" ++
  "  if c \x7b 2 \x7d else \x7b return 3 \x7d\n" ++
  "\x7d"

/-- What the check of loops and a check of its result say of a file. -/
def loopsCheckedAs (source : String) (check : Module → Bool) : Bool :=
  resolvesAs source fun _ m => resultAs m.checkLoops check

theorem exists_of_loopsCheckedAs {source : String} {check : Module → Bool}
    (h : loopsCheckedAs source check = true) :
    ∃ l t m shared m', scan source "m" = .ok l ∧ readTree l "m" = .ok t ∧
      Gives (t.resolve noFiles) ⟨{}, ()⟩ m shared ∧ m.checkLoops = .ok m' ∧ check m' = true := by
  obtain ⟨l, t, m, shared, scanned, read, resolved, checked⟩ := exists_of_resolvesAs h
  obtain ⟨m', eq, checked⟩ := exists_of_resultAs checked
  exact ⟨l, t, m, shared, m', scanned, read, resolved, eq, checked⟩

theorem exists_addReturns_of_readTree {l : Lexed} {name : String} {t : FileTree Atom}
    (h : readTree l name = .ok t) : ∃ t0 : FileTree Atom, t0.addReturns = .ok t := by
  have last : Ensures (readTree l name) fun t => ∃ t0 : FileTree Atom, t0.addReturns = .ok t := by
    refine ensures_bind ensures_self fun t1 _ => ensures_bind ensures_self fun t2 _ => ?_
    exact ensures_imp ensures_self fun t eq => ⟨t2, eq⟩
  exact last t h

theorem results_returned_and_flow_exact_returning :
    ∃ (l : Lexed) (t t' : FileTree Atom) (m : Module) (shared : Shared Unit) (m' : Module),
      scan returning "m" = .ok l ∧ readTree l "m" = .ok t' ∧
      t.addReturns = .ok t' ∧ (itemNumbers t'.items).Nodup ∧
      Gives (t'.resolve noFiles) ⟨{}, ()⟩ m shared ∧ m.checkLoops = .ok m' ∧
      ∃ f ∈ m'.tree.functions, ∃ s, f.signature = some s ∧ s.result.isVoid = false ∧
        f.body.OnlyReturns ∧ Flow.ofBlock f.body = .ok .returns ∧ ¬ BlockRuns f.body .ends := by
  have read : loopsCheckedAs returning (fun m => m.tree.functions.any fun f =>
      f.signature.any (fun s => !s.result.isVoid) &&
        (Flow.ofBlock f.body).toOption == some .returns) = true := by
    decide +kernel
  obtain ⟨l, t', m, shared, m', scanned, read, resolved, checked, found⟩ :=
    exists_of_loopsCheckedAs read
  obtain ⟨t, returns⟩ := exists_addReturns_of_readTree read
  obtain ⟨results, distinct, exact, -⟩ := results_returned_and_flow_exact noFiles
  have nodup := distinct l "m" t' read
  have returned := results t t' ⟨{}, ()⟩ returns nodup m shared resolved m' checked
  obtain ⟨f, member, holds⟩ := List.any_eq_true.mp found
  obtain ⟨typed, flow⟩ := Bool.and_eq_true_iff.mp holds
  cases signature : f.signature with
  | none =>
    rw [signature] at typed
    cases typed
  | some s =>
    rw [signature] at typed
    have value : s.result.isVoid = false := by simpa using typed
    have leaves : Flow.ofBlock f.body = .ok .returns := by
      cases eq : Flow.ofBlock f.body with
      | error e =>
        rw [eq] at flow
        cases flow
      | ok flow' =>
        rw [eq] at flow
        rw [show flow' = .returns by simpa [Except.toOption] using flow]
    have falls := ((exact f.body).2 _ leaves).not.mp (by simp)
    exact ⟨l, t, t', m, shared, m', scanned, read, returns, nodup, resolved, checked, f, member, s,
      signature, value, returned f member s signature value, leaves, falls⟩

end EbLang
