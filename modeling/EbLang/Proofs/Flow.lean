import EbLang.Analysis
import EbLang.Proofs.Balance

/-!
# Executions and control flow

How control may go through a block without value-`if`s if every condition may come out either way.
An execution is followed up to an outcome: it has come to a statement, or it has left the block by
falling off its end, by `return`, by `break` or by `continue`.  A loop runs any number of rounds.

The flow of a block says exactly this much: there is one if and only if every statement of the block
and of the blocks inside it can be reached, and it is `falls` if and only if some execution falls off
the end.
-/

namespace EbLang

variable {o : Outcome} {p : StmtPlace} {s : Stmt Atom} {ss : List (Stmt Atom)}

/-! ## Places -/

/-- Where a statement stands in some statements. -/
inductive StmtPlace where
  /-- It is one of the statements, by its index. -/
  | here (index : Nat)
  /-- It stands in a block of one of the statements. -/
  | within (index block : Nat) (place : StmtPlace)

/-- The blocks right inside a statement: the branches of an `if` in order, or the body of a loop. -/
def Stmt.blocks {τ : Type} : Stmt τ → List (Block τ)
  | .branch arms otherwise _ => arms.map Arm.body ++ otherwise.toList
  | .loop _ body _ => [body]
  | .declare .. | .assign .. | .eval .. | .ret .. | .breakOut .. | .continueLoop .. => []

/-- The statement at a place. -/
def stmtAt? (ss : List (Stmt Atom)) : StmtPlace → Option (Stmt Atom)
  | .here index => ss[index]?
  | .within index block place => do
    let s ← ss[index]?
    let b ← s.blocks[block]?
    stmtAt? b.body place

/-- The place as seen with one more statement in front. -/
def StmtPlace.later : StmtPlace → StmtPlace
  | here index => here (index + 1)
  | within index block place => within (index + 1) block place

/-! ## Executions -/

/-- What an execution has come to. -/
inductive Outcome where
  /-- It is about to run the statement at a place. -/
  | arrives (place : StmtPlace)
  /-- It has fallen off the end. -/
  | ends
  | returns
  /-- It leaves a number of loops. -/
  | breaks (amount : Nat)
  /-- It goes on with the next round of a loop. -/
  | continues

namespace Outcome

/-- The outcome as seen with one more statement in front. -/
def later : Outcome → Outcome
  | arrives place => arrives place.later
  | o => o

/-- The outcome of a block as that of the statement it belongs to. -/
def inBlock (block : Nat) : Outcome → Outcome
  | arrives place => arrives (.within 0 block place)
  | o => o

/-- The outcome of a loop after one of a round; none if there is another round. -/
def ofRound? : Outcome → Option Outcome
  | arrives place => some (arrives (.within 0 0 place))
  | ends | continues => none
  | returns => some returns
  | breaks amount => some (if amount ≤ 1 then ends else breaks (amount - 1))

end Outcome

mutual

/-- A statement may be run with an outcome.  Places are those of a list of which it is the first. -/
inductive StmtRuns : Stmt Atom → Outcome → Prop
  | declare {name : String} {ty : Option TypeName} {init : Option (Expr Atom)} {var : Option Nat}
      {hidden : Bool} {span : Span} : StmtRuns (.declare name ty init var hidden span) .ends
  | assign {target : String} {binding : Option Binding} {members : List MemberRef} {value : Expr Atom}
      {span : Span} : StmtRuns (.assign target binding members value span) .ends
  | eval {value : Expr Atom} {span : Span} : StmtRuns (.eval value span) .ends
  | ret {value : Option (Expr Atom)} {span : Span} : StmtRuns (.ret value span) .returns
  | breakOut {amount : Nat} {span : Span} : StmtRuns (.breakOut amount span) (.breaks amount)
  | continueLoop {span : Span} : StmtRuns (.continueLoop span) .continues
  /-- A condition holds, or none does and there is an `else`. -/
  | branch {arms : List (Arm Atom)} {otherwise : Option (Block Atom)} {span : Span} {k : Nat}
      {b : Block Atom} {o : Outcome} : (Stmt.branch arms otherwise span).blocks[k]? = some b →
      BlockRuns b o → StmtRuns (.branch arms otherwise span) (o.inBlock k)
  /-- No condition holds, and there is no `else`. -/
  | skip {arms : List (Arm Atom)} {span : Span} : StmtRuns (.branch arms none span) .ends
  /-- The condition does not hold. -/
  | stop {condition : Expr Atom} {body : Block Atom} {span : Span} :
      StmtRuns (.loop condition body span) .ends
  | round {condition : Expr Atom} {body : Block Atom} {span : Span} {o o' : Outcome} : BlockRuns body o →
      o.ofRound? = some o' → StmtRuns (.loop condition body span) o'
  | again {condition : Expr Atom} {body : Block Atom} {span : Span} {o o' : Outcome} : BlockRuns body o →
      o.ofRound? = none → StmtRuns (.loop condition body span) o' →
      StmtRuns (.loop condition body span) o'

/-- What a block may come to. -/
inductive BlockRuns : Block Atom → Outcome → Prop
  | mk {id : Nat} {body : List (Stmt Atom)} {span : Span} {o : Outcome} : StmtsRun body o →
      BlockRuns (.mk id body span) o

/-- Some statements may be run one after the other with an outcome. -/
inductive StmtsRun : List (Stmt Atom) → Outcome → Prop
  | nil : StmtsRun [] .ends
  | arrive {s : Stmt Atom} {ss : List (Stmt Atom)} : StmtsRun (s :: ss) (.arrives (.here 0))
  | next {s : Stmt Atom} {ss : List (Stmt Atom)} {o : Outcome} : StmtRuns s .ends → StmtsRun ss o →
      StmtsRun (s :: ss) o.later
  | leave {s : Stmt Atom} {ss : List (Stmt Atom)} {o : Outcome} : StmtRuns s o → o ≠ .ends →
      StmtsRun (s :: ss) o

end

theorem blockRuns_iff {b : Block Atom} : BlockRuns b o ↔ StmtsRun b.body o := by
  constructor
  · rintro ⟨run⟩
    exact run
  · intro run
    cases b
    exact .mk run

/-! ## What an outcome tells -/

theorem Outcome.later_eq_ends (h : o.later = .ends) : o = .ends := by
  cases o with
  | ends => rfl
  | arrives | returns | breaks | continues => cases h

theorem Outcome.inBlock_eq_ends {k : Nat} (h : o.inBlock k = .ends) : o = .ends := by
  cases o with
  | ends => rfl
  | arrives | returns | breaks | continues => cases h

theorem Outcome.later_eq_arrives (h : o.later = .arrives p) :
    ∃ q, o = .arrives q ∧ p = q.later := by
  cases o with
  | arrives q =>
    cases h
    exact ⟨q, rfl, rfl⟩
  | ends | returns | breaks | continues => cases h

theorem Outcome.inBlock_eq_arrives {k : Nat}
    (h : o.inBlock k = .arrives p) : ∃ q, o = .arrives q ∧ p = .within 0 k q := by
  cases o with
  | arrives q =>
    cases h
    exact ⟨q, rfl, rfl⟩
  | ends | returns | breaks | continues => cases h

theorem Outcome.ofRound?_eq_arrives (h : o.ofRound? = some (.arrives p)) :
    ∃ q, o = .arrives q ∧ p = .within 0 0 q := by
  cases o with
  | arrives q =>
    cases h
    exact ⟨q, rfl, rfl⟩
  | returns => cases h
  | ends | continues => cases h
  | breaks amount =>
    simp only [ofRound?, Option.some.injEq] at h
    split at h <;> cases h

/-- Whatever rounds a loop has run, it comes to a place as its body does in one round. -/
theorem arrives_of_loop {condition : Expr Atom} {body : Block Atom} {span : Span} :
    ∀ {s : Stmt Atom} {o : Outcome}, StmtRuns s o → s = .loop condition body span →
      o = .arrives p → ∃ q, p = .within 0 0 q ∧ BlockRuns body (.arrives q)
  | _, _, .round run round, eq, arrives => by
    cases eq
    cases arrives
    obtain ⟨q, rfl, rfl⟩ := Outcome.ofRound?_eq_arrives round
    exact ⟨q, rfl, run⟩
  | _, _, .again _ _ rest, eq, arrives => arrives_of_loop rest eq arrives
  | _, _, .stop, _, arrives => by cases arrives
  | _, _, .declare, eq, _ | _, _, .assign, eq, _ | _, _, .eval, eq, _ | _, _, .ret, eq, _ => by
    cases eq
  | _, _, .breakOut, eq, _ | _, _, .continueLoop, eq, _ | _, _, .branch .., eq, _
  | _, _, .skip, eq, _ => by
    cases eq

/-- A statement is run up to a place in one of its blocks as the block is. -/
theorem stmtRuns_arrives_iff :
    StmtRuns s (.arrives p) ↔
      ∃ k b q, s.blocks[k]? = some b ∧ p = .within 0 k q ∧ StmtsRun b.body (.arrives q) := by
  constructor
  · intro run
    generalize ho : Outcome.arrives p = o at run
    have whole := run
    cases run with
    | branch found run =>
      obtain ⟨q, rfl, rfl⟩ := Outcome.inBlock_eq_arrives ho.symm
      exact ⟨_, _, q, found, rfl, blockRuns_iff.mp run⟩
    | round | again =>
      obtain ⟨q, rfl, run⟩ := arrives_of_loop whole rfl ho.symm
      exact ⟨0, _, q, rfl, rfl, blockRuns_iff.mp run⟩
    | declare | assign | eval | ret | breakOut | continueLoop | skip | stop => cases ho
  · rintro ⟨k, b, q, found, rfl, run⟩
    cases s with
    | branch => exact .branch found (blockRuns_iff.mpr run)
    | loop condition body span =>
      cases k with
      | zero =>
        cases found
        exact .round (blockRuns_iff.mpr run) rfl
      | succ k => cases found
    | declare | assign | eval | ret | breakOut | continueLoop => cases found

theorem stmtsRun_cons_ends : StmtsRun (s :: ss) .ends ↔ StmtRuns s .ends ∧ StmtsRun ss .ends := by
  constructor
  · intro run
    generalize ho : Outcome.ends = o at run
    cases run with
    | arrive => cases ho
    | next first rest =>
      cases Outcome.later_eq_ends ho.symm
      exact ⟨first, rest⟩
    | leave _ leaves => exact absurd ho.symm leaves
  · rintro ⟨first, rest⟩
    exact .next first rest

/-- The statements after the first one are reached through its end. -/
theorem stmtsRun_cons_later :
    StmtsRun (s :: ss) (.arrives p.later) ↔ StmtRuns s .ends ∧ StmtsRun ss (.arrives p) := by
  constructor
  · intro run
    generalize ho : Outcome.arrives p.later = o at run
    cases run with
    | arrive => cases p <;> cases ho
    | next first rest =>
      obtain ⟨q, rfl, eq⟩ := Outcome.later_eq_arrives ho.symm
      cases p <;> cases q <;> cases eq
      all_goals exact ⟨first, rest⟩
    | leave run =>
      obtain ⟨k, b, q, -, eq, -⟩ := stmtRuns_arrives_iff.mp (ho ▸ run)
      cases p <;> cases eq
  · rintro ⟨first, rest⟩
    exact .next first rest

/-- The blocks of the first statement are reached in it. -/
theorem stmtsRun_cons_within {k : Nat} {q : StmtPlace} :
    StmtsRun (s :: ss) (.arrives (.within 0 k q)) ↔ StmtRuns s (.arrives (.within 0 k q)) := by
  constructor
  · intro run
    generalize ho : Outcome.arrives (.within 0 k q) = o at run
    cases run with
    | arrive => cases ho
    | next _ _ =>
      obtain ⟨p, -, eq⟩ := Outcome.later_eq_arrives ho.symm
      cases p <;> cases eq
    | leave run => exact ho ▸ run
  · exact fun run => .leave run (by simp)

/-! ## Statements that can be reached -/

/-- Every statement, and every statement inside one, can be reached from the start. -/
def AllReached (ss : List (Stmt Atom)) : Prop :=
  ∀ p, (stmtAt? ss p).isSome → StmtsRun ss (.arrives p)

theorem stmtAt?_nil (p : StmtPlace) : stmtAt? ([] : List (Stmt Atom)) p = none := by
  cases p <;> rfl

theorem stmtAt?_later (s : Stmt Atom) (ss : List (Stmt Atom)) (p : StmtPlace) :
    stmtAt? (s :: ss) p.later = stmtAt? ss p := by
  cases p <;> rfl

theorem allReached_nil : AllReached ([] : List (Stmt Atom)) := by
  intro p found
  rw [stmtAt?_nil] at found
  cases found

/-- All is reached if it is in the blocks of the first statement and in the rest, and control gets
from one to the other. -/
theorem allReached_cons :
    AllReached (s :: ss) ↔ (∀ b ∈ s.blocks, AllReached b.body) ∧
      (ss ≠ [] → StmtRuns s .ends) ∧ AllReached ss := by
  constructor
  · intro all
    refine ⟨fun b hb p found => ?_, fun some => ?_, fun p found => ?_⟩
    · obtain ⟨k, at_k⟩ := List.mem_iff_getElem?.mp hb
      have inner : (stmtAt? (s :: ss) (.within 0 k p)).isSome := by
        simpa [stmtAt?, at_k] using found
      obtain ⟨k', b', q, at_k', eq, run⟩ :=
        stmtRuns_arrives_iff.mp (stmtsRun_cons_within.mp (all _ inner))
      cases eq
      cases at_k.symm.trans at_k'
      exact run
    · obtain ⟨next, rest, rfl⟩ := List.exists_cons_of_ne_nil some
      exact (stmtsRun_cons_later.mp (all (StmtPlace.later (.here 0)) rfl)).1
    · rw [← stmtAt?_later s] at found
      exact (stmtsRun_cons_later.mp (all p.later found)).2
  · rintro ⟨inner, ends, rest⟩ p found
    have later (q : StmtPlace) (found : (stmtAt? ss q).isSome) :
        StmtsRun (s :: ss) (.arrives q.later) := by
      refine stmtsRun_cons_later.mpr ⟨ends ?_, rest q found⟩
      rintro rfl
      rw [stmtAt?_nil] at found
      cases found
    cases p with
    | here index =>
      cases index with
      | zero => exact .arrive
      | succ index => exact later (.here index) found
    | within index k q =>
      cases index with
      | zero =>
        cases at_k : s.blocks[k]? with
        | none => simp [stmtAt?, at_k] at found
        | some b =>
          have run := inner b (List.mem_of_getElem? at_k) q (by simpa [stmtAt?, at_k] using found)
          exact stmtsRun_cons_within.mpr (stmtRuns_arrives_iff.mpr ⟨k, b, q, at_k, rfl, run⟩)
      | succ index => exact later (.within index k q) found

/-! ## Flows tell exactly what executions do -/

/-- An `if` ends if one of its blocks does, or if it has no `else`. -/
theorem stmtRuns_branch_ends {arms : List (Arm Atom)} {otherwise : Option (Block Atom)} {span : Span} :
    StmtRuns (.branch arms otherwise span) .ends ↔
      otherwise = none ∨ ∃ b ∈ (Stmt.branch arms otherwise span).blocks, BlockRuns b .ends := by
  constructor
  · intro run
    generalize ho : Outcome.ends = o at run
    cases run with
    | branch found run =>
      cases Outcome.inBlock_eq_ends ho.symm
      exact .inr ⟨_, List.mem_of_getElem? found, run⟩
    | skip => exact .inl rfl
  · rintro (rfl | ⟨b, hb, run⟩)
    · exact .skip
    · obtain ⟨k, found⟩ := List.mem_iff_getElem?.mp hb
      exact .branch found run

namespace Flow

/-- A check succeeds if and only if all is reached, and then tells the truth. -/
def Exact {α : Type} (reached : Prop) (truth : α → Prop) : Except Error α → Prop
  | .error _ => ¬ reached
  | .ok a => reached ∧ truth a

theorem Exact.bind {α β : Type} {x : Except Error α} {f : α → Except Error β} {R1 R2 : Prop}
    {P : α → Prop} {Q : β → Prop} (hx : Exact R1 P x) (hf : ∀ a, P a → Exact R2 Q (f a)) :
    Exact (R1 ∧ R2) Q (x >>= f) := by
  cases x with
  | error e => exact fun both => hx both.1
  | ok a =>
    obtain ⟨reached, truth⟩ := hx
    have next := hf a truth
    change Exact _ _ (f a)
    cases hb : f a with
    | error e =>
      rw [hb] at next
      exact fun both => next both.2
    | ok b =>
      rw [hb] at next
      exact ⟨⟨reached, next.1⟩, next.2⟩

theorem Exact.congr {α : Type} {x : Except Error α} {R R' : Prop} {P P' : α → Prop}
    (h : Exact R P x) (reached : R ↔ R') (truth : ∀ a, P a ↔ P' a) : Exact R' P' x := by
  cases x with
  | error e => exact fun all => h (reached.mpr all)
  | ok a => exact ⟨reached.mp h.1, (truth a).mp h.2⟩

theorem ofBranches_eq_falls {flows : List Flow} : ofBranches flows = falls ↔ falls ∈ flows := by
  unfold ofBranches leaves
  split
  next some => simpa using some
  next none =>
    have absent : falls ∉ flows := by simpa using none
    split <;> simp [absent]

/-- Statements are checked one after the other; one that control leaves has to be the last. -/
theorem exact_cons
    (first : Exact (∀ b ∈ s.blocks, AllReached b.body) (fun flow => flow = falls ↔ StmtRuns s .ends)
      (ofStmt s))
    (rest : Exact (AllReached ss) (fun flow => flow = falls ↔ StmtsRun ss .ends) (ofStmts ss)) :
    Exact (AllReached (s :: ss)) (fun flow => flow = falls ↔ StmtsRun (s :: ss) .ends)
      (ofStmts (s :: ss)) := by
  rw [allReached_cons]
  refine first.bind fun flow ends => ?_
  cases leaves : flow.leaves with
  | true =>
    have stuck : ¬ StmtRuns s .ends := by
      rw [← ends]
      simpa [Flow.leaves] using leaves
    cases ss with
    | nil =>
      refine ⟨⟨fun no => absurd rfl no, allReached_nil⟩, ?_⟩
      beta_reduce
      rw [ends, stmtsRun_cons_ends]
      exact (and_iff_left .nil).symm
    | cons next others => exact fun both => stuck (both.1 (List.cons_ne_nil _ _))
  | false =>
    have goes : StmtRuns s .ends := ends.mp (by simpa [Flow.leaves] using leaves)
    refine rest.congr (and_iff_right fun _ => goes).symm fun flow => ?_
    rw [stmtsRun_cons_ends, and_iff_right goes]

mutual

theorem ofBlock_exact : ∀ b : Block Atom,
    Exact (AllReached b.body) (fun flow => flow = falls ↔ BlockRuns b .ends) (ofBlock b)
  | .mk id body span => by
    rw [blockRuns_iff]
    exact ofStmts_exact body

theorem ofStmts_exact : ∀ ss : List (Stmt Atom),
    Exact (AllReached ss) (fun flow => flow = falls ↔ StmtsRun ss .ends) (ofStmts ss)
  | [] => by
    exact ⟨allReached_nil, iff_of_true rfl .nil⟩
  | s :: ss => exact_cons (ofStmt_exact s) (ofStmts_exact ss)

theorem ofStmt_exact : ∀ s : Stmt Atom,
    Exact (∀ b ∈ s.blocks, AllReached b.body) (fun flow => flow = falls ↔ StmtRuns s .ends)
      (ofStmt s)
  | .branch arms otherwise span => by
    have bodies := ofArms_exact arms
    have last := ofOtherwise_exact otherwise
    unfold ofStmt Stmt.blocks
    rw [List.forall_mem_append]
    refine bodies.bind fun flows some_arm => ?_
    rw [← and_true (∀ b ∈ otherwise.toList, AllReached b.body)]
    refine last.bind fun flow some_last => ?_
    rw [stmtRuns_branch_ends, Stmt.blocks]
    cases otherwise with
    | none =>
      cases flow with
      | none => exact ⟨trivial, iff_of_true rfl (.inl rfl)⟩
      | some flow => simp at some_last
    | some b =>
      cases flow with
      | none => simp at some_last
      | some flow =>
        refine ⟨trivial, ?_⟩
        have one : flow = falls ↔ BlockRuns b .ends := by simpa using some_last
        beta_reduce
        rw [ofBranches_eq_falls, List.mem_append, some_arm, List.mem_singleton, eq_comm, one]
        simp [or_and_right, exists_or]
  | .loop condition body span => by
    have inner := ofBlock_exact body
    unfold ofStmt Stmt.blocks
    rw [List.forall_mem_singleton, ← and_true (AllReached body.body)]
    exact inner.bind fun flow _ => ⟨trivial, iff_of_true rfl .stop⟩
  | .ret .. => by
    exact ⟨List.forall_mem_nil _, iff_of_false (by simp) (by rintro ⟨⟩)⟩
  | .breakOut .. => by
    exact ⟨List.forall_mem_nil _, iff_of_false (by simp) (by rintro ⟨⟩)⟩
  | .continueLoop .. => by
    exact ⟨List.forall_mem_nil _, iff_of_false (by simp) (by rintro ⟨⟩)⟩
  | .declare .. => by
    exact ⟨List.forall_mem_nil _, iff_of_true rfl .declare⟩
  | .assign .. => by
    exact ⟨List.forall_mem_nil _, iff_of_true rfl .assign⟩
  | .eval .. => by
    exact ⟨List.forall_mem_nil _, iff_of_true rfl .eval⟩

theorem ofArms_exact : ∀ arms : List (Arm Atom),
    Exact (∀ b ∈ arms.map Arm.body, AllReached b.body)
      (fun flows => falls ∈ flows ↔ ∃ b ∈ arms.map Arm.body, BlockRuns b .ends) (ofArms arms)
  | [] => by
    exact ⟨List.forall_mem_nil _, by simp⟩
  | .mk condition body :: arms => by
    have first := ofBlock_exact body
    have others := ofArms_exact arms
    rw [List.map_cons, List.forall_mem_cons]
    refine first.bind fun flow ends => ?_
    rw [← and_true (∀ b ∈ arms.map Arm.body, AllReached b.body)]
    refine others.bind fun flows some_other => ⟨trivial, ?_⟩
    beta_reduce
    rw [List.mem_cons, eq_comm, ends, some_other]
    simp [Arm.body]

theorem ofOtherwise_exact : ∀ otherwise : Option (Block Atom),
    Exact (∀ b ∈ otherwise.toList, AllReached b.body)
      (fun flow => (flow = none ↔ otherwise = none) ∧
        (flow = some falls ↔ ∃ b ∈ otherwise.toList, BlockRuns b .ends)) (ofOtherwise otherwise)
  | none => by
    exact ⟨List.forall_mem_nil _, by simp⟩
  | some body => by
    have inner := ofBlock_exact body
    rw [Option.toList_some, List.forall_mem_singleton, ← and_true (AllReached body.body)]
    refine inner.bind fun flow ends => ⟨trivial, by simp, ?_⟩
    simp [ends]

end

end Flow

end EbLang
