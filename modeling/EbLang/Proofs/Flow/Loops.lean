import EbLang.Proofs.Scoping.Resolve

/-!
# Jumps stay within loops

A check of loops finds the blocks around a statement in the scopes.  The scopes of a resolved file tell
which blocks are bodies of loops; if there are none yet the check makes them itself.  Either way it
counts the loops around a statement as an execution does: after it no execution leaves a function by
`break` or `continue`.

This is so of trees without value-`if`s, which are those that are resolved and checked.  Of a tree as
written the check passes over the blocks of value-`if`s, with the jumps in them.
-/

namespace EbLang

variable {σ : Type}

/-! ## Loops around a statement -/

mutual

/-- Every jump out of a block leaves at most `d` loops around it. -/
def Block.JumpsWithin (d : Nat) : Block Atom → Prop
  | .mk _ body _ => StmtsJumpWithin d body

/-- Every jump out of some statements leaves at most `d` loops around them. -/
def StmtsJumpWithin (d : Nat) : List (Stmt Atom) → Prop
  | [] => True
  | s :: ss => s.JumpsWithin d ∧ StmtsJumpWithin d ss

/-- Every jump out of a statement leaves at most `d` loops around it. -/
def Stmt.JumpsWithin (d : Nat) : Stmt Atom → Prop
  | .breakOut amount _ => 1 ≤ amount ∧ amount ≤ d
  | .continueLoop _ => 1 ≤ d
  | .branch arms otherwise _ => ArmsJumpWithin d arms ∧ OtherwiseJumpsWithin d otherwise
  | .loop _ body _ => body.JumpsWithin (d + 1)
  | .declare .. | .assign .. | .eval .. | .ret .. => True

/-- Every jump out of the arms of an `if` leaves at most `d` loops around it. -/
def ArmsJumpWithin (d : Nat) : List (Arm Atom) → Prop
  | [] => True
  | .mk _ body :: arms => body.JumpsWithin d ∧ ArmsJumpWithin d arms

/-- Every jump out of the last branch of an `if` leaves at most `d` loops around it. -/
def OtherwiseJumpsWithin (d : Nat) : Option (Block Atom) → Prop
  | none => True
  | some body => body.JumpsWithin d

end

theorem armsJumpWithin_iff {d : Nat} {arms : List (Arm Atom)} :
    ArmsJumpWithin d arms ↔ ∀ b ∈ arms.map Arm.body, b.JumpsWithin d := by
  induction arms with
  | nil => simp [ArmsJumpWithin]
  | cons arm arms ih =>
    obtain ⟨condition, body⟩ := arm
    simp [ArmsJumpWithin, ih, Arm.body]

theorem otherwiseJumpsWithin_iff {d : Nat} {otherwise : Option (Block Atom)} :
    OtherwiseJumpsWithin d otherwise ↔ ∀ b ∈ otherwise.toList, b.JumpsWithin d := by
  cases otherwise <;> simp [OtherwiseJumpsWithin]

theorem Stmt.JumpsWithin.of_branch {d k : Nat} {arms : List (Arm Atom)} {otherwise : Option (Block Atom)}
    {span : Span} {b : Block Atom} (h : (Stmt.branch arms otherwise span).JumpsWithin d)
    (found : (Stmt.branch arms otherwise span).blocks[k]? = some b) : b.JumpsWithin d := by
  have all := List.forall_mem_append.mpr
    ⟨armsJumpWithin_iff.mp h.1, otherwiseJumpsWithin_iff.mp h.2⟩
  exact all b (List.mem_of_getElem? found)

/-- An execution that jumps leaves at most `d` loops. -/
def Outcome.Within (d : Nat) : Outcome → Prop
  | breaks amount => 1 ≤ amount ∧ amount ≤ d
  | continues => 1 ≤ d
  | arrives _ | ends | returns => True

namespace Outcome

variable {d : Nat} {o o' : Outcome}

theorem Within.later (h : o.Within d) : o.later.Within d := by
  cases o <;> exact h

theorem Within.inBlock (k : Nat) (h : o.Within d) : (o.inBlock k).Within d := by
  cases o <;> exact h

/-- A loop is one of the loops that a jump out of its body leaves. -/
theorem Within.ofRound (h : o.Within (d + 1)) (round : o.ofRound? = some o') : o'.Within d := by
  cases o with
  | breaks amount =>
    simp only [ofRound?, Option.some.injEq] at round
    subst round
    obtain ⟨some, le⟩ := h
    split
    next => trivial
    next more => exact ⟨by omega, by omega⟩
  | arrives | returns =>
    cases round
    trivial
  | ends | continues => cases round

end Outcome

mutual

theorem StmtRuns.within : ∀ {s : Stmt Atom} {o : Outcome} {d : Nat}, StmtRuns s o → s.JumpsWithin d →
    o.Within d
  | _, _, _, .branch found run, h => (run.within (h.of_branch found)).inBlock _
  | _, _, _, .round run round, h => (run.within h).ofRound round
  | _, _, _, .again _ _ rest, h => rest.within h
  | _, _, _, .breakOut, h => h
  | _, _, _, .continueLoop, h => h
  | _, _, _, .declare, _ | _, _, _, .assign, _ | _, _, _, .eval, _ | _, _, _, .ret, _ => trivial
  | _, _, _, .skip, _ | _, _, _, .stop, _ => trivial

theorem BlockRuns.within : ∀ {b : Block Atom} {o : Outcome} {d : Nat}, BlockRuns b o →
    b.JumpsWithin d → o.Within d
  | _, _, _, .mk run, h => run.within h

/-- An execution leaves no more loops than the jumps in the statements do. -/
theorem StmtsRun.within : ∀ {ss : List (Stmt Atom)} {o : Outcome} {d : Nat}, StmtsRun ss o →
    StmtsJumpWithin d ss → o.Within d
  | _, _, _, .nil, _ => trivial
  | _, _, _, .arrive, _ => trivial
  | _, _, _, .next _ rest, h => (rest.within h.2).later
  | _, _, _, .leave run _, h => run.within h.1

end

/-! ## Checked loops -/

namespace Scopes

/-- Entering a block makes its scope if there is none; the kind of a scope never changes. -/
theorem marker?_enter (s : Scopes) (b : Nat) (isLoop : Bool) (q : ScopePath) :
    (s.enter b isLoop).marker? q =
      if q = b :: s.current then some ((s.marker? q).getD isLoop) else s.marker? q := by
  cases found : s.scope? (b :: s.current) with
  | none =>
    rw [marker?, scope?_enter found]
    split
    next here =>
      rw [here, marker?, found]
      rfl
    next => rfl
  | some scope =>
    have eq : s.enter b isLoop =
        { s.setScope (b :: s.current) (s.reopened scope) with current := b :: s.current } := by
      simp only [enter, found]
    rw [eq]
    change ((s.setScope _ _).scope? q).map Scope.isLoop = _
    rw [scope?_setScope]
    split
    next here =>
      rw [here, marker?, found]
      rfl
    next => rfl

theorem keeps_enter (s : Scopes) (b : Nat) (isLoop : Bool) : s.Keeps (s.enter b isLoop) := by
  intro q marker found
  rw [marker?_enter, found]
  split <;> rfl

theorem loopsFrom_congr {s s' : Scopes} :
    ∀ {path : ScopePath}, (∀ q, q.length ≤ path.length → s'.marker? q = s.marker? q) →
      s'.loopsFrom path = s.loopsFrom path
  | [], _ => rfl
  | b :: path, same => by
    have here := same (b :: path) (Nat.le_refl _)
    unfold marker? at here
    unfold loopsFrom
    rw [here, loopsFrom_congr fun q short => same q (Nat.le_succ_of_le short)]

theorem length_loopsFrom_cons {s : Scopes} {b : Nat} {path : ScopePath} {isLoop : Bool}
    (known : s.marker? (b :: path) = some isLoop) :
    (s.loopsFrom (b :: path)).length = (s.loopsFrom path).length + if isLoop then 1 else 0 := by
  unfold marker? at known
  rw [loopsFrom, known]
  cases isLoop <;> rfl

theorem loop?_isNone_eq_false (s : Scopes) (amount : Nat) : (s.loop? amount).isNone = false ↔
    1 ≤ amount ∧ amount ≤ (s.loopsFrom s.current).length := by
  cases amount with
  | zero => simp [loop?]
  | succ n =>
    rw [loop?, Option.isNone_eq_false_iff, isSome_getElem?]
    omega

end Scopes

namespace Loops

/-- What a check of loops does to the scopes, whatever its outcome: it comes back to where it started,
and makes scopes only further in and of blocks whose numbers are listed. -/
structure Walked (numbers : List Nat) (s s' : Scopes) : Prop where
  current : s'.current = s.current
  vars : s'.vars = s.vars
  keeps : s.Keeps s'
  outer : ∀ q, q.length ≤ s.current.length → s'.marker? q = s.marker? q
  fresh : ∀ b, b ∉ numbers → (∀ q, s.marker? (b :: q) = none) → ∀ q, s'.marker? (b :: q) = none

/-- All blocks have scopes of their kinds, or none has one and they have different numbers. -/
def Ready (s : Scopes) (numbers : List Nat) (marked : Scopes → Prop) : Prop :=
  marked s ∨ numbers.Nodup ∧ ∀ b ∈ numbers, ∀ q, s.marker? (b :: q) = none

section Rules

variable {s s1 s2 : Scopes} {ns ms : List Nat} {b : Nat} {isLoop : Bool}

namespace Walked

theorem refl (ns : List Nat) (s : Scopes) : Walked ns s s :=
  ⟨rfl, rfl, fun _ _ => id, fun _ _ => rfl, fun _ _ => id⟩

theorem trans (h : Walked ns s s1) (h' : Walked ms s1 s2) : Walked (ns ++ ms) s s2 where
  current := h'.current.trans h.current
  vars := h'.vars.trans h.vars
  keeps q isLoop found := h'.keeps q isLoop (h.keeps q isLoop found)
  outer q short := (h'.outer q (h.current.symm ▸ short)).trans (h.outer q short)
  fresh b new none := by
    rw [List.mem_append, not_or] at new
    exact h'.fresh b new.2 (h.fresh b new.1 none)

theorem loops (h : Walked ns s s1) : s1.loopsFrom s1.current = s.loopsFrom s.current := by
  rw [h.current]
  exact Scopes.loopsFrom_congr h.outer

theorem within (h : Walked ns (s.enter b isLoop) s1) : Walked (b :: ns) s s1.leave where
  current := by
    rw [Scopes.leave, h.current, Scopes.current_enter]
    rfl
  vars := h.vars.trans (s.vars_enter b isLoop)
  keeps q marker found := h.keeps q marker (s.keeps_enter b isLoop q marker found)
  outer q short := by
    have there := h.outer q (by rw [Scopes.current_enter]; exact Nat.le_succ_of_le short)
    refine there.trans ((s.marker?_enter b isLoop q).trans (if_neg ?_))
    rintro rfl
    exact Nat.not_succ_le_self _ short
  fresh b' new none := by
    rw [List.mem_cons, not_or] at new
    refine h.fresh b' new.2 fun q => ?_
    rw [Scopes.marker?_enter, if_neg]
    · exact none q
    · rintro ⟨⟩
      exact new.1 rfl

end Walked

namespace Ready

variable {P Q : Scopes → Prop}

theorem append (h : Ready s (ns ++ ms) fun s => P s ∧ Q s) (keeps : ∀ s', s.Keeps s' → Q s → Q s') :
    Ready s ns P ∧ ∀ s', Walked ns s s' → Ready s' ms Q := by
  rcases h with ⟨first, rest⟩ | ⟨nodup, fresh⟩
  · exact ⟨.inl first, fun s' walked => .inl (keeps s' walked.keeps rest)⟩
  · obtain ⟨first, rest, disjoint⟩ := List.nodup_append.mp nodup
    obtain ⟨fresh1, fresh2⟩ := List.forall_mem_append.mp fresh
    refine ⟨.inr ⟨first, fresh1⟩, fun s' walked => .inr ⟨rest, fun b there => ?_⟩⟩
    exact walked.fresh b (fun here => disjoint b here b there rfl) (fresh2 b there)

/-- A block that is entered has a scope of its kind. -/
theorem enter (h : Ready s (b :: ns) fun s' => s'.marker? (b :: s.current) = some isLoop ∧ P s')
    (keeps : ∀ s', s.Keeps s' → P s → P s') :
    (s.enter b isLoop).marker? (b :: s.current) = some isLoop ∧ Ready (s.enter b isLoop) ns P := by
  rw [Scopes.marker?_enter, if_pos rfl]
  rcases h with ⟨marker, inner⟩ | ⟨nodup, fresh⟩
  · rw [marker]
    exact ⟨rfl, .inl (keeps _ (s.keeps_enter b isLoop) inner)⟩
  · obtain ⟨new, rest⟩ := List.nodup_cons.mp nodup
    obtain ⟨here, others⟩ := List.forall_mem_cons.mp fresh
    rw [here]
    refine ⟨rfl, .inr ⟨rest, fun b' there q => ?_⟩⟩
    rw [Scopes.marker?_enter, if_neg]
    · exact others b' there q
    · rintro ⟨⟩
      exact new there

end Ready

/-- A check succeeds if and only if something holds of the number of loops around the place. -/
structure Exact (numbers : List Nat) (jumps : Nat → Prop) (x : Walk Unit) (s : Scopes) : Prop where
  walked : Walked numbers s (x.run.run s).2
  succeeds : (x.run.run s).1 = .ok () ↔ jumps (s.loopsFrom s.current).length

variable {P Q : Nat → Prop} {x y : Walk Unit}

theorem exact_pure (h : ∀ d, P d) : Exact [] P (pure ()) s :=
  ⟨.refl [] s, iff_of_true rfl (h _)⟩

theorem exact_bind (hx : Exact ns P x s) (hy : ∀ s', Walked ns s s' → Exact ms Q y s') :
    Exact (ns ++ ms) (fun d => P d ∧ Q d) (x >>= fun _ => y) s := by
  obtain ⟨walked, succeeds⟩ := hx
  cases run : x.run.run s with
  | mk result s1 =>
    rw [run] at walked succeeds
    cases result with
    | error e =>
      have whole : (x >>= fun _ => y).run.run s = (.error e, s1) := by
        simp only [ExceptT.run_bind, StateT.run_bind, run]
        rfl
      refine ⟨?_, ?_⟩
      · rw [whole]
        exact walked.trans (.refl ms s1)
      · rw [whole]
        exact iff_of_false (by rintro ⟨⟩) fun both => by cases succeeds.mpr both.1
    | ok u =>
      have whole : (x >>= fun _ => y).run.run s = y.run.run s1 := by
        simp only [ExceptT.run_bind, StateT.run_bind, run]
        rfl
      obtain ⟨walked', succeeds'⟩ := hy s1 walked
      rw [walked.loops] at succeeds'
      refine ⟨?_, ?_⟩
      · rw [whole]
        exact walked.trans walked'
      · rw [whole, succeeds']
        exact (and_iff_right (succeeds.mp rfl)).symm

theorem exact_test (test : Scopes → Bool) (position : Position) (fault : Fault)
    (h : test s = false ↔ P (s.loopsFrom s.current).length) :
    Exact [] P (do if test (← get) then Walk.failAt position fault) s := by
  have run : (do if test (← get) then Walk.failAt position fault : Walk Unit).run.run s =
      (if test s then Walk.failAt position fault else pure () : Walk Unit).run.run s := rfl
  cases failed : test s with
  | false =>
    rw [failed] at run h
    refine ⟨?_, ?_⟩
    · rw [run]
      exact .refl [] s
    · rw [run]
      exact iff_of_true rfl (h.mp rfl)
  | true =>
    rw [failed] at run h
    refine ⟨?_, ?_⟩
    · rw [run]
      exact .refl [] s
    · rw [run]
      exact iff_of_false (by rintro ⟨⟩) fun jumps => by cases h.mpr jumps

/-- A block has one more loop around its statements if it is the body of a loop. -/
theorem exact_within (marker : (s.enter b isLoop).marker? (b :: s.current) = some isLoop)
    (h : Exact ns P x (s.enter b isLoop)) :
    Exact (b :: ns) (fun d => P (d + if isLoop then 1 else 0)) (Walk.within b isLoop x) s := by
  have outer : (s.enter b isLoop).loopsFrom s.current = s.loopsFrom s.current := by
    refine Scopes.loopsFrom_congr fun q short => (s.marker?_enter b isLoop q).trans (if_neg ?_)
    rintro rfl
    exact Nat.not_succ_le_self _ short
  have succeeds := h.succeeds
  rw [Scopes.current_enter, Scopes.length_loopsFrom_cons marker, outer] at succeeds
  refine ⟨?_, ?_⟩
  · exact h.walked.within
  · exact succeeds

end Rules

mutual

theorem exact_block (isLoop : Bool) :
    ∀ (b : Block Atom) {s : Scopes}, Ready s b.numbers (b.Marked · s.current isLoop) →
      Exact b.numbers (fun d => b.JumpsWithin (d + if isLoop then 1 else 0)) (block isLoop b) s
  | .mk id body span, s, ready => by
    obtain ⟨marker, inner⟩ := Ready.enter (P := (StmtsMarked · (id :: s.current) body)) ready
      fun _ keeps marked => marked.keeps keeps
    refine exact_within marker (exact_stmts body ?_)
    rwa [Scopes.current_enter]

theorem exact_stmts :
    ∀ (ss : List (Stmt Atom)) {s : Scopes}, Ready s (numbersOf ss) (StmtsMarked · s.current ss) →
      Exact (numbersOf ss) (StmtsJumpWithin · ss) (stmts ss) s
  | [], s, _ => by
    exact exact_pure fun _ => trivial
  | st :: ss, s, ready => by
    obtain ⟨first, rest⟩ := Ready.append (P := (st.Marked · s.current))
      (Q := (StmtsMarked · s.current ss)) ready fun _ keeps marked => marked.keeps keeps
    refine exact_bind (exact_stmt st first) fun s' walked => exact_stmts ss ?_
    rw [walked.current]
    exact rest s' walked

theorem exact_stmt :
    ∀ (st : Stmt Atom) {s : Scopes}, Ready s st.numbers (st.Marked · s.current) →
      Exact st.numbers st.JumpsWithin (stmt st) s
  | .breakOut amount span, s, _ => by
    exact exact_test (fun s => (s.loop? amount).isNone) _ _ (s.loop?_isNone_eq_false amount)
  | .continueLoop span, s, _ => by
    refine exact_test (fun s => (s.loop? 1).isNone) _ _ ((s.loop?_isNone_eq_false 1).trans ?_)
    exact and_iff_right (Nat.le_refl 1)
  | .branch as otherwise span, s, ready => by
    obtain ⟨first, rest⟩ := Ready.append (P := (ArmsMarked · s.current as))
      (Q := (OtherwiseMarked · s.current otherwise)) ready fun _ keeps marked => marked.keeps keeps
    refine exact_bind (exact_arms as first) fun s' walked => exact_optionalBlock otherwise ?_
    rw [walked.current]
    exact rest s' walked
  | .loop condition body span, s, ready => by
    exact exact_block true body ready
  | .declare .., s, _ | .assign .., s, _ | .eval .., s, _ | .ret .., s, _ => by
    exact exact_pure fun _ => trivial

theorem exact_arms :
    ∀ (as : List (Arm Atom)) {s : Scopes}, Ready s (armNumbers as) (ArmsMarked · s.current as) →
      Exact (armNumbers as) (ArmsJumpWithin · as) (arms as) s
  | [], s, _ => by
    exact exact_pure fun _ => trivial
  | .mk condition body :: as, s, ready => by
    obtain ⟨first, rest⟩ := Ready.append (P := (body.Marked · s.current false))
      (Q := (ArmsMarked · s.current as)) ready fun _ keeps marked => marked.keeps keeps
    refine exact_bind (exact_block false body first) fun s' walked => exact_arms as ?_
    rw [walked.current]
    exact rest s' walked

theorem exact_optionalBlock :
    ∀ (b : Option (Block Atom)) {s : Scopes},
      Ready s (otherwiseNumbers b) (OtherwiseMarked · s.current b) →
      Exact (otherwiseNumbers b) (OtherwiseJumpsWithin · b) (optionalBlock b) s
  | none, s, _ => by
    exact exact_pure fun _ => trivial
  | some body, s, ready => by
    exact exact_block false body ready

end

mutual

theorem items_eq : ∀ is : List (Item Atom), items is = forM (functionsOf is) fun f => block false f.body
  | [] => rfl
  | i :: is => by rw [items, item_eq i, items_eq is, functionsOf, List.forM_append]

theorem item_eq : ∀ i : Item Atom, item i = forM i.functions fun f => block false f.body
  | .function f => by rw [item, Item.functions, List.forM_cons, List.forM_nil, bind_pure_unit]
  | .submodule _ inner _ _ _ => items_eq inner
  | .imports _ | .global _ | .struct _ => rfl

end

theorem exact_functions {fs : List (FunctionItem Atom)} {s : Scopes}
    (ready : Ready s (fs.flatMap fun f => f.body.numbers) fun s' =>
      ∀ f ∈ fs, f.body.Marked s' s.current false) :
    Exact (fs.flatMap fun f => f.body.numbers) (fun d => ∀ f ∈ fs, f.body.JumpsWithin d)
      (forM fs fun f => block false f.body) s := by
  induction fs generalizing s with
  | nil => exact exact_pure fun _ => List.forall_mem_nil _
  | cons f fs ih =>
    simp only [List.forall_mem_cons] at ready ⊢
    obtain ⟨first, rest⟩ := Ready.append (P := (f.body.Marked · s.current false)) ready
      fun _ keeps marked f there => (marked f there).keeps keeps
    refine exact_bind (exact_block false f.body first) fun s' walked => ih ?_
    rw [walked.current]
    exact rest s' walked

end Loops

/-- The check of loops succeeds if and only if every jump of a file has the loops around it that it
leaves, and comes back to where it started in any case. -/
def FileTree.ChecksLoops (t : FileTree Atom) (s : Scopes) : Prop :=
  ((t.checkLoops.run.run s).1 = .ok () ↔ ∀ f ∈ t.functions, f.body.JumpsWithin 0) ∧
    (t.checkLoops.run.run s).2.current = s.current

theorem FileTree.exact_checkLoops {t : FileTree Atom} {s : Scopes} (outside : s.current = [])
    (ready : Loops.Ready s (itemNumbers t.items) fun s =>
      ∀ f ∈ t.functions, f.body.Marked s [] false) :
    t.ChecksLoops s ∧ (t.checkLoops.run.run s).2.vars = s.vars := by
  rw [← outside] at ready
  have exact := Loops.exact_functions ready
  rw [← FileTree.functions, FileTree.functions, ← Loops.items_eq] at exact
  have succeeds := exact.succeeds
  rw [outside] at succeeds
  exact ⟨⟨succeeds, exact.walked.current⟩, exact.walked.vars⟩

/-- A module whose loops are checked has the functions it had, and they jump within their loops. -/
theorem Module.ensures_checkLoops {m : Module} (outside : m.scopes.current = [])
    (marked : ∀ f ∈ m.tree.functions, f.body.Marked m.scopes [] false) :
    Ensures m.checkLoops fun m' => m'.tree = m.tree ∧ m'.scopes.vars = m.scopes.vars ∧
      ∀ f ∈ m.tree.functions, f.body.JumpsWithin 0 := by
  intro m' checked
  unfold Module.checkLoops at checked
  obtain ⟨⟨succeeds, -⟩, vars⟩ := FileTree.exact_checkLoops outside (.inl marked)
  cases run : m.tree.checkLoops.run.run m.scopes with
  | mk result scopes =>
    rw [run] at checked succeeds vars
    cases result with
    | error => cases checked
    | ok =>
      cases checked
      exact ⟨rfl, vars, succeeds.mp rfl⟩

/-- The check of loops is exact for every file whose blocks have different numbers, both before any
block has a scope and with the scopes that resolving the file leaves.  Every file that was read and
rewritten has such blocks. -/
theorem checkLoops_exact (loader : Loader σ) :
    (∀ t : FileTree Atom, (itemNumbers t.items).Nodup → t.ChecksLoops {}) ∧
    (∀ (t : FileTree Atom) (shared : Shared σ), (itemNumbers t.items).Nodup →
      Leads (t.resolve loader) shared fun m _ => m.tree.ChecksLoops m.scopes) ∧
    ∀ (l : Lexed) (name : String),
      Ensures (readTree l name) fun t => (itemNumbers t.items).Nodup := by
  refine ⟨fun t nodup => ?_, fun t shared nodup => ?_, ensures_readTree_nodup⟩
  · exact (FileTree.exact_checkLoops rfl (.inr ⟨nodup, fun _ _ _ => rfl⟩)).1
  · refine (t.leads_resolve loader nodup shared).imp ?_
    rintro m _ ⟨fs, -, resolved⟩
    exact (FileTree.exact_checkLoops resolved.outside (.inl resolved.marked)).1

/-- Jumps out of two loops and out of an `if` inside a loop. -/
def jumping : String :=
  "fn f(c: Bool) \x7b\n" ++
  "  while c \x7b while c \x7b break *2 \x7d \x7d\n" ++
  "  while c \x7b if c \x7b continue \x7d \x7d\n" ++
  "\x7d"

theorem checkLoops_exact_jumping :
    ∃ l t m shared, scan jumping "m" = .ok l ∧ readTree l "m" = .ok t ∧
      (itemNumbers t.items).Nodup ∧ Gives (t.resolve noFiles) ⟨{}, ()⟩ m shared ∧
      t.ChecksLoops {} ∧ m.tree.ChecksLoops m.scopes ∧
      m.tree.functions.map (fun f => f.body.numbers.length) = [5] := by
  have read : resolvesAs jumping (fun _ m =>
      m.tree.functions.map (fun f => f.body.numbers.length) = [5]) = true := by
    decide +kernel
  obtain ⟨l, t, m, shared, scanned, read, resolved, blocks⟩ := exists_of_resolvesAs read
  have nodup := (checkLoops_exact noFiles).2.2 l "m" t read
  exact ⟨l, t, m, shared, scanned, read, nodup, resolved,
    (checkLoops_exact noFiles).1 t nodup,
    (checkLoops_exact noFiles).2.1 t _ nodup m shared resolved, of_decide_eq_true blocks⟩

/-! ## Jumps in value-`if`s -/

mutual

/-- Whether every jump of a block as written leaves at most `d` loops around it. -/
def Block.jumpsWithin (d : Nat) : Block Term → Bool
  | .mk _ body _ => stmtsJumpWithin d body

/-- Whether every jump of some statements as written leaves at most `d` loops around it. -/
def stmtsJumpWithin (d : Nat) : List (Stmt Term) → Bool
  | [] => true
  | s :: ss => s.jumpsWithin d && stmtsJumpWithin d ss

/-- Whether every jump of a statement as written leaves at most `d` loops around it.  The condition
of a loop stands outside of its body. -/
def Stmt.jumpsWithin (d : Nat) : Stmt Term → Bool
  | .declare _ _ init _ _ _ => optionalJumpsWithin d init
  | .assign _ _ _ value _ => value.jumpsWithin d
  | .eval value _ => value.jumpsWithin d
  | .ret value _ => optionalJumpsWithin d value
  | .branch arms otherwise _ => armsJumpWithin d arms && otherwiseJumpsWithin d otherwise
  | .loop condition body _ => condition.jumpsWithin d && body.jumpsWithin (d + 1)
  | .breakOut amount _ => decide (1 ≤ amount ∧ amount ≤ d)
  | .continueLoop _ => decide (1 ≤ d)

/-- The same of an expression that may be missing. -/
def optionalJumpsWithin (d : Nat) : Option (Expr Term) → Bool
  | none => true
  | some e => e.jumpsWithin d

/-- The same of the value-`if`s of an expression. -/
def Expr.jumpsWithin (d : Nat) : Expr Term → Bool
  | ⟨ts, _⟩ => termsJumpWithin d ts

/-- The same of the value-`if`s among some steps. -/
def termsJumpWithin (d : Nat) : List Term → Bool
  | [] => true
  | .atom _ :: ts => termsJumpWithin d ts
  | .choice arms otherwise _ :: ts =>
    armsJumpWithin d arms && otherwiseJumpsWithin d otherwise && termsJumpWithin d ts

/-- The same of conditions and bodies. -/
def armsJumpWithin (d : Nat) : List (Arm Term) → Bool
  | [] => true
  | .mk condition body :: arms =>
    condition.jumpsWithin d && body.jumpsWithin d && armsJumpWithin d arms

/-- The same of a last branch that may be missing. -/
def otherwiseJumpsWithin (d : Nat) : Option (Block Term) → Bool
  | none => true
  | some body => body.jumpsWithin d

end

/-- The check passes a file as written, one of whose jumps leaves more loops than are around it. -/
def PassesOver (source : String) : Prop :=
  ∃ l t, scan source "m" = .ok l ∧ parse l "m" = .ok t ∧ (itemNumbers t.items).Nodup ∧
    (t.checkLoops.run.run {}).1 = .ok () ∧ ¬ ∀ f ∈ t.functions, f.body.jumpsWithin 0 = true

theorem passesOver_of_readsAs {source : String} (h : readsAs source (fun t =>
      (itemNumbers t.items).Nodup && resultAs (t.checkLoops.run.run {}).1 (fun _ => true) &&
        !t.functions.all fun f => f.body.jumpsWithin 0) = true) : PassesOver source := by
  obtain ⟨l, t, scanned, parsed, holds⟩ := exists_of_readsAs h
  simp only [Bool.and_eq_true, decide_eq_true_eq, Bool.not_eq_true'] at holds
  obtain ⟨⟨nodup, passes⟩, misses⟩ := holds
  obtain ⟨_, passes, -⟩ := exists_of_resultAs passes
  refine ⟨l, t, scanned, parsed, nodup, passes, fun within => ?_⟩
  rw [List.all_eq_true.mpr within] at misses
  cases misses

/-- A `break` in the value of a variable. -/
def valueJump : String := "fn f() \x7b x := if true \x7b break \x7d else \x7b 1 \x7d \x7d"

/-- A `break` in the condition of a loop. -/
def conditionJump : String :=
  "fn f() \x7b while if true \x7b break \x7d else \x7b true \x7d \x7b \x7d \x7d"

/-- Of files as written the check passes over the jumps in value-`if`s. -/
theorem checkLoops_misses_valueJumps : PassesOver valueJump ∧ PassesOver conditionJump :=
  ⟨passesOver_of_readsAs (by decide +kernel), passesOver_of_readsAs (by decide +kernel)⟩

end EbLang
