import EbLang.Proofs.Execution.Simulation
import EbLang.Proofs.Flow

/-!
# Runs are executions

A run of a block without value-`if`s by an interpretation is one of the executions in which conditions
come out either way.  Runs that find no value where one is needed, or in which a loop has made all its
rounds, are abandoned and come to nothing.
-/

namespace EbLang.Execution

variable {V W α β : Type}

/-- What a run has come to; nothing if it was abandoned. -/
def ending? : Except (Exit V) α → Option Outcome
  | .ok _ => some .ends
  | .error (.returned _) => some .returns
  | .error (.broke loops) => some (.breaks loops)
  | .error .continued => some .continues
  | .error .stuck | .error .spent => none

/-- Whatever a run comes to satisfies a condition. -/
def Comes (x : Run V W α) (P : Outcome → Prop) : Prop :=
  ∀ s o, ending? (x.run.run s).1 = some o → P o

section Rules

variable {P Q : Outcome → Prop} {x : Run V W α} {f : α → Run V W β}

theorem comes_pure {a : α} (ends : P .ends) : Comes (pure a : Run V W α) P := by
  rintro s _ ⟨⟩
  exact ends

theorem comes_throw {e : Exit V} {o : Outcome}
    (ending : ending? (.error e : Except (Exit V) α) = some o) (h : P o) :
    Comes (throw e : Run V W α) P := by
  intro s o' ending'
  cases ending.symm.trans ending'
  exact h

theorem comes_abandon {e : Exit V} (none : ending? (.error e : Except (Exit V) α) = none) :
    Comes (throw e : Run V W α) P := by
  intro s o ending
  cases none.symm.trans ending

theorem comes_modifyGet {g : State V W → α × State V W} (ends : P .ends) :
    Comes (modifyGet g : Run V W α) P := by
  rintro s _ ⟨⟩
  exact ends

theorem comes_get (ends : P .ends) : Comes (get : Run V W (State V W)) P := comes_modifyGet ends

/-- A run never comes to a statement only. -/
theorem Comes.imp (h : Comes x P)
    (imp : ∀ o, o.later = o → (∀ k, o.inBlock k = o) → P o → Q o) : Comes x Q := by
  intro s o ending
  refine imp o ?_ ?_ (h s o ending)
  all_goals
    unfold ending? at ending
    split at ending <;> cases ending <;> intros <;> rfl

theorem comes_bind (hx : Comes x P) (early : ∀ o, o ≠ .ends → P o → Q o)
    (hf : P .ends → ∀ a, Comes (f a) Q) : Comes (x >>= f) Q := by
  intro s o ending
  have first := hx s
  rw [run_bind] at ending
  cases run : x.run.run s with
  | mk r t =>
    rw [run] at first ending
    cases r with
    | ok a => exact hf (first .ends rfl) a t o ending
    | error e =>
      refine early o ?_ (first o ?_)
      · rintro rfl
        cases e <;> cases ending
      · cases e <;> exact ending

/-- What follows a run that only ends decides what comes of both. -/
theorem comes_after (hx : Comes x (· = .ends)) (hf : ∀ a, Comes (f a) Q) : Comes (x >>= f) Q :=
  comes_bind hx (fun _ no yes => absurd yes no) fun _ => hf

theorem comes_tryCatch {handle : Exit V → Run V W α} (hx : Comes x P) (ends : Q .ends)
    (caught : ∀ e, (∀ o, ending? (.error e : Except (Exit V) α) = some o → P o) →
      Comes (handle e) Q) : Comes (tryCatch x handle) Q := by
  intro s o ending
  have first := hx s
  rw [run_tryCatch] at ending
  cases run : x.run.run s with
  | mk r t =>
    rw [run] at first ending
    cases r with
    | ok a =>
      cases ending
      exact ends
    | error e => exact caught e first t o ending

end Rules

section Statements

variable (I : Interpretation V W) (limit : Nat)

/-- An expression without value-`if`s gives a value or is stuck. -/
theorem comes_runSteps (env : Env) : ∀ (ts : List Atom) (values : List V),
    Comes (runSteps I env values (steps I .strict limit env (ts.map .atom))) (· = .ends)
  | [], values => by
    simp only [List.map_nil, steps, runSteps]
    unfold onlyValue
    split
    · exact comes_pure rfl
    · exact comes_abandon rfl
  | a :: ts, values => by
    refine comes_after ?_ fun values => comes_runSteps env ts values
    unfold runAtom
    split
    · exact comes_pure rfl
    · exact comes_after (comes_get rfl) fun _ => comes_pure rfl
    · exact comes_pure rfl
    · exact comes_abandon rfl
    · split
      · exact comes_abandon rfl
      · refine comes_after ?_ fun _ => comes_pure rfl
        unfold operate
        split
        · exact comes_pure rfl
        · exact comes_modifyGet rfl

theorem comes_expr (env : Env) (e : Expr Atom) :
    Comes (expr I .strict limit env (e.map .atom)) (· = .ends) := comes_runSteps I limit env e.terms []

theorem comes_optionalExpr (env : Env) (e : Option (Expr Atom)) :
    Comes (optionalExpr I .strict limit env (e.map (Expr.map .atom))) (· = .ends) := by
  cases e with
  | none => exact comes_pure rfl
  | some e => exact comes_after (comes_expr I limit env e) fun _ => comes_pure rfl

/-- A loop comes to what one of its rounds makes of it. -/
theorem comes_rounds {condition : Expr Atom} {body : Block Atom} {span : Span} {x : Run V W Bool}
    (h : Comes x fun o => o = .ends ∨ BlockRuns body o) :
    ∀ n, Comes (rounds x n) (StmtRuns (.loop condition body span))
  | 0 => comes_abandon rfl
  | n + 1 => by
    refine comes_bind (P := StmtRuns (.loop condition body span)) ?_ (fun o _ run => run)
      fun _ more => ?_
    · refine comes_tryCatch h .stop fun e ran => ?_
      cases e with
      | continued => exact comes_pure .stop
      | broke loops =>
        have run := (ran _ rfl).resolve_left (by rintro ⟨⟩)
        simp only [afterRound]
        split
        next => exact comes_pure .stop
        next more =>
          exact comes_throw rfl (.round run (by simp [Outcome.ofRound?, more]))
      | returned value =>
        exact comes_throw rfl (.round ((ran _ rfl).resolve_left (by rintro ⟨⟩)) rfl)
      | stuck | spent => exact comes_abandon rfl
    · split
      · exact comes_rounds h n
      · exact comes_pure .stop

mutual

theorem comes_stmt (env : Env) : ∀ s : Stmt Atom,
    Comes (stmt I .strict limit env (s.map .atom)) (StmtRuns s)
  | .declare name ty init var hidden span =>
    comes_after (comes_optionalExpr I limit env init) fun _ =>
      comes_after (comes_get rfl) fun _ => comes_after (comes_modifyGet rfl) fun _ => comes_pure .declare
  | .assign target binding members value span =>
    comes_after (comes_expr I limit env value) fun _ =>
      comes_after (comes_modifyGet rfl) fun _ => comes_pure .assign
  | .eval value span => comes_after (comes_expr I limit env value) fun _ => comes_pure .eval
  | .ret value span => comes_after (comes_optionalExpr I limit env value) fun _ =>
    comes_throw rfl .ret
  | .branch arms otherwise span => by
    refine comes_bind (comes_branches env (comes_optionalBlock env otherwise) arms ?_)
      (fun o _ run => run) fun ends _ => comes_pure ends
    intro b there o inBlock run
    obtain ⟨k, found⟩ := List.mem_iff_getElem?.mp (List.mem_append_left otherwise.toList there)
    rw [← inBlock k]
    exact .branch found run
  | .loop condition body span => by
    refine comes_bind (comes_rounds ?_ limit) (fun o _ run => run) fun ends _ => comes_pure ends
    refine comes_after (comes_expr I limit env condition) fun v => ?_
    split
    · exact comes_bind (comes_block env body) (fun o _ run => .inr run) fun ends _ =>
        comes_pure (.inr ends)
    · exact comes_pure (.inl rfl)
  | .breakOut amount span => comes_throw rfl .breakOut
  | .continueLoop span => comes_throw rfl .continueLoop

theorem comes_branches (env : Env) {otherwise : Run V W (Option V)} {Q : Outcome → Prop}
    (last : Comes otherwise Q) : ∀ arms : List (Arm Atom),
      (∀ b ∈ arms.map Arm.body, ∀ o, (∀ k, o.inBlock k = o) → BlockRuns b o → Q o) →
      Comes (branches I .strict limit env otherwise (mapArms .atom arms)) Q
  | [], _ => last
  | .mk condition body :: arms, chosen => by
    obtain ⟨first, rest⟩ := List.forall_mem_cons.mp chosen
    refine comes_after (comes_expr I limit env condition) fun v => ?_
    split
    · exact (comes_block env body).imp fun o _ => first o
    · exact comes_branches env last arms rest

theorem comes_optionalBlock (env : Env) {arms : List (Arm Atom)} {span : Span} :
    ∀ otherwise : Option (Block Atom),
      Comes (optionalBlock I .strict limit env (mapOtherwise .atom otherwise))
        (StmtRuns (.branch arms otherwise span))
  | none => comes_pure .skip
  | some body => (comes_block env body).imp fun o _ inBlock run => by
    rw [← inBlock arms.length]
    exact .branch (by simp [Stmt.blocks]) run

/-- Every run of a block without value-`if`s is an execution of it. -/
theorem comes_block (env : Env) : ∀ b : Block Atom,
    Comes (block I .strict limit env (b.map .atom)) (BlockRuns b)
  | .mk _ body _ => comes_bind (comes_stmts env none body) (fun _ _ run => .mk run) fun ends _ =>
    comes_pure (.mk ends)

theorem comes_stmts (env : Env) (last : Option V) : ∀ ss : List (Stmt Atom),
    Comes (stmts I .strict limit env last (mapStmts .atom ss)) (StmtsRun ss)
  | [] => comes_pure .nil
  | s :: ss => by
    refine comes_bind (comes_stmt env s) (fun o early run => .leave run early) fun ends r => ?_
    refine (comes_stmts r.1 r.2 ss).imp fun o later _ run => ?_
    rw [← later]
    exact .next ends run

end

end Statements

end EbLang.Execution
