import EbLang.Proofs.Flow
import EbLang.Proofs.Occurrences

/-!
# When hoisting succeeds

A value-`if` needs a value whichever way it goes: it has an `else`, and each of its blocks ends in an
expression, in a jump, or in an `if` of which the same is true.  Hoisting succeeds if and only if all
value-`if`s of a file are such, those inside conditions and blocks of others included.

Whether hoisting succeeds does not depend on the numbers it hands out.  So a computation is looked at
by what it `Decides`, and a sequence decides what its parts decide.
-/

namespace EbLang

/-! ## Value-`if`s -/

mutual

/-- A statement gives a value or leaves. -/
inductive Stmt.Yields : Stmt Term → Prop
  | eval {value : Expr Term} {span : Span} : Stmt.Yields (.eval value span)
  | ret {value : Option (Expr Term)} {span : Span} : Stmt.Yields (.ret value span)
  | breakOut {amount : Nat} {span : Span} : Stmt.Yields (.breakOut amount span)
  | continueLoop {span : Span} : Stmt.Yields (.continueLoop span)
  | branch {arms : List (Arm Term)} {otherwise : Block Term} {span : Span} :
      (∀ b ∈ (Stmt.branch arms (some otherwise) span).blocks, Block.Yields b) →
        Stmt.Yields (.branch arms (some otherwise) span)

/-- A block ends in a statement that gives a value or leaves. -/
inductive Block.Yields : Block Term → Prop
  | mk {b : Block Term} {s : Stmt Term} : b.body.getLast? = some s → Stmt.Yields s → Block.Yields b

end

/-- A value-`if` stands in a statement, anywhere.  It is given as an `if` statement. -/
inductive Stmt.Holds (v : Stmt Term) : Stmt Term → Prop
  | step {s : Stmt Term} {e : Expr Term} {arms : List (Arm Term)} {otherwise : Option (Block Term)}
      {span : Span} : e ∈ s.exprs → .choice arms otherwise span ∈ e.terms →
        v = .branch arms otherwise span → Stmt.Holds v s
  /-- It stands inside a step of an expression. -/
  | inside {s : Stmt Term} {e : Expr Term} {arms : List (Arm Term)}
      {otherwise : Option (Block Term)} {span : Span} : e ∈ s.exprs →
        .choice arms otherwise span ∈ e.terms → Stmt.Holds v (.branch arms otherwise span) → Stmt.Holds v s
  /-- It stands in a block. -/
  | block {s s' : Stmt Term} {b : Block Term} : b ∈ s.blocks → s' ∈ b.body → Stmt.Holds v s' → Stmt.Holds v s

/-- All value-`if`s in a statement have a value. -/
def Stmt.Hoistable (s : Stmt Term) : Prop := ∀ v, Stmt.Holds v s → v.Yields

/-- All value-`if`s in a block have a value. -/
def Block.Hoistable (b : Block Term) : Prop := ∀ s ∈ b.body, s.Hoistable

/-- A step has a value, and so have all value-`if`s inside it. -/
def Term.Hoistable : Term → Prop
  | .atom _ => True
  | .choice arms otherwise span =>
    (Stmt.branch arms otherwise span).Yields ∧ (Stmt.branch arms otherwise span).Hoistable

theorem Stmt.hoistable_iff {s : Stmt Term} :
    s.Hoistable ↔ (∀ e ∈ s.exprs, ∀ t ∈ e.terms, t.Hoistable) ∧ ∀ b ∈ s.blocks, b.Hoistable := by
  constructor
  · intro h
    refine ⟨fun e he t ht => ?_, fun b hb s' hs' v hv => h v (.block hb hs' hv)⟩
    cases t with
    | atom a => trivial
    | choice arms otherwise span =>
      exact ⟨h _ (.step he ht rfl), fun v hv => h v (.inside he ht hv)⟩
  · rintro ⟨exprs, blocks⟩ v hv
    cases hv with
    | step he ht eq => exact eq ▸ (exprs _ he _ ht).1
    | inside he ht hv => exact (exprs _ he _ ht).2 v hv
    | block hb hs' hv => exact blocks _ hb _ hs' v hv

theorem Stmt.hoistable_branch {arms : List (Arm Term)} {otherwise : Option (Block Term)}
    {span : Span} : (Stmt.branch arms otherwise span).Hoistable ↔
      (∀ a ∈ arms, (∀ t ∈ a.condition.terms, t.Hoistable) ∧ a.body.Hoistable)
        ∧ ∀ b ∈ otherwise, b.Hoistable := by
  rw [Stmt.hoistable_iff]
  simp [Stmt.exprs, Stmt.blocks, or_imp, forall_and, and_assoc]

namespace Hoist

/-! ## Checks -/

theorem yields_branch {as : List (Arm Term)} {otherwise : Option (Block Term)} {span : Span} :
    (Stmt.branch as otherwise span).Yields ↔
      otherwise.isSome ∧ (∀ a ∈ as, a.body.Yields) ∧ ∀ b ∈ otherwise, b.Yields := by
  constructor
  · rintro ⟨⟩
    next h => simpa [Stmt.blocks, or_imp, forall_and] using h
  · rintro ⟨has, has', ho⟩
    obtain ⟨b, rfl⟩ := Option.isSome_iff_exists.mp has
    refine .branch ?_
    simpa [Stmt.blocks, or_imp, forall_and] using ⟨has', ho b rfl⟩

theorem then_eq_ok_iff {x y : Except Error Unit} :
    (do x; y) = .ok () ↔ x = .ok () ∧ y = .ok () := by
  cases x <;> simp [Bind.bind, Except.bind]

mutual

theorem checkTail_eq_ok_iff (outer : Span) : ∀ ss : List (Stmt Term),
    checkTail outer ss = .ok () ↔ ∃ s, ss.getLast? = some s ∧ s.Yields
  | [] => by simp [checkTail]
  | [s] => by simp [checkTail, checkLast_eq_ok_iff s]
  | s :: s' :: ss => by
    rw [checkTail, if_neg (by simp), checkTail_eq_ok_iff outer (s' :: ss), List.getLast?_cons_cons]

theorem checkLast_eq_ok_iff : ∀ s : Stmt Term, checkLast s = .ok () ↔ s.Yields
  | .eval .. => by simp [checkLast, Stmt.Yields.eval]
  | .ret .. => by simp [checkLast, Stmt.Yields.ret]
  | .breakOut .. => by simp [checkLast, Stmt.Yields.breakOut]
  | .continueLoop .. => by simp [checkLast, Stmt.Yields.continueLoop]
  | .branch as otherwise span => by
    rw [yields_branch, ← checkArms_eq_ok_iff span as, ← checkOtherwise_eq_ok_iff span otherwise,
      ← then_eq_ok_iff, checkLast]
    cases otherwise <;> simp [throw, throwThe, MonadExceptOf.throw, Bind.bind, Except.bind]
  | .declare .. | .assign .. | .loop .. => by
    simp only [checkLast, reduceCtorEq, false_iff]
    rintro ⟨⟩

theorem checkArms_eq_ok_iff (outer : Span) :
    ∀ as : List (Arm Term), checkArms outer as = .ok () ↔ ∀ a ∈ as, a.body.Yields
  | [] => by simp [checkArms]
  | .mk condition body :: as => by
    rw [checkArms, then_eq_ok_iff, checkBlock_eq_ok_iff outer body, checkArms_eq_ok_iff outer as,
      List.forall_mem_cons]
    rfl

theorem checkOtherwise_eq_ok_iff (outer : Span) :
    ∀ b : Option (Block Term), checkOtherwise outer b = .ok () ↔ ∀ b' ∈ b, b'.Yields
  | none => by simp [checkOtherwise]
  | some b => by simp [checkOtherwise, checkBlock_eq_ok_iff outer b]

theorem checkBlock_eq_ok_iff (outer : Span) :
    ∀ b : Block Term, checkBlock outer b = .ok () ↔ b.Yields
  | .mk id body span => by
    rw [checkBlock, checkTail_eq_ok_iff outer body]
    constructor
    · rintro ⟨s, last, hs⟩
      exact .mk last hs
    · rintro ⟨last, hs⟩
      exact ⟨_, last, hs⟩

end

/-! ## What a computation decides -/

variable {α β : Type} {p q : Prop}
variable {f : α → M β} {x : M α}

/-- Whatever numbers are handed out, the computation succeeds if and only if `p`. -/
def Decides (x : M α) (p : Prop) : Prop := ∀ σ, (∃ r, x.run σ = .ok r) ↔ p

theorem decides_pure (a : α) : Decides (pure a) True := fun σ => iff_true_intro ⟨(a, σ), rfl⟩

/-- What follows may count on what was decided. -/
theorem Decides.guard (hx : Decides x p)
    (hf : p → ∀ a, Decides (f a) q) : Decides (x >>= f) (p ∧ q) := by
  intro σ
  rw [StateT.run_bind]
  cases h : x.run σ with
  | error e =>
    have refused : ¬ p := by simp [← hx σ, h]
    simp [Bind.bind, Except.bind, refused]
  | ok r =>
    have holds := (hx σ).mp ⟨r, h⟩
    simpa [Bind.bind, Except.bind, holds] using hf holds r.1 r.2

theorem Decides.bind (hx : Decides x p) (hf : ∀ a, Decides (f a) q) : Decides (x >>= f) (p ∧ q) :=
  hx.guard fun _ => hf

theorem Decides.congr (h : Decides x p) (eq : p ↔ q) : Decides x q :=
  fun σ => (h σ).trans eq

/-- What follows may not fail. -/
theorem Decides.then (hx : Decides x p) (hf : ∀ a, Decides (f a) True) : Decides (x >>= f) p :=
  (hx.bind hf).congr (iff_of_eq (and_true p))

theorem decides_fresh {x : Supply → α × Supply} : Decides (modifyGet x) True :=
  fun σ => iff_true_intro ⟨x σ, rfl⟩

theorem decides_checks : ∀ ts : List Term,
    Decides (ts.forM fun t => checkTerm t) (∀ t ∈ ts, checkTerm t = .ok ())
  | [] => (decides_pure ()).congr (by simp)
  | t :: ts => by
    have first : Decides (checkTerm t : M Unit) (checkTerm t = .ok ()) := by
      intro σ
      cases checkTerm t with
      | error e => exact iff_of_false (by rintro ⟨_, ⟨⟩⟩) (by rintro ⟨⟩)
      | ok _ => exact iff_of_true ⟨_, rfl⟩ rfl
    exact (first.bind fun _ => decides_checks ts).congr (by simp)

/-! ## Hoisting -/

theorem decides_chain (last : Span) (otherwise : Option (Block Atom)) :
    ∀ ps : List PreparedArm, Decides (chain last ps otherwise) True
  | [] => decides_pure _
  | p :: ps => by
    refine (decides_chain last otherwise ps).then fun r => ?_
    dsimp only
    split
    · exact decides_pure _
    · exact decides_fresh.then fun _ => decides_pure _

theorem decides_branch (last span : Span) (otherwise : Option (Block Atom)) :
    ∀ ps : List PreparedArm, Decides (branch last ps otherwise span) True
  | [] => decides_pure _
  | _ :: ps => (decides_chain last otherwise ps).then fun _ => decides_pure _

mutual

theorem decides_term (number : Nat) : ∀ t : Term, checkTerm t = .ok () →
    Decides (term number t) t.Hoistable
  | .atom _, _ => by
    exact decides_pure _
  | .choice as otherwise span, yields => by
    refine (((decides_arms _ as).bind fun ps =>
      (decides_optionalBlock _ otherwise).then fun o =>
        (decides_branch _ span o ps).then fun _ => decides_pure _)).congr ?_
    rw [Term.Hoistable, Stmt.hoistable_branch, ← checkLast_eq_ok_iff]
    exact (and_iff_right yields).symm

theorem decides_terms : ∀ (number : Nat) (ts : List Term), (∀ t ∈ ts, checkTerm t = .ok ()) →
    Decides (terms number ts) (∀ t ∈ ts, t.Hoistable)
  | number, [], _ => by
    exact (decides_pure _).congr (by simp)
  | number, t :: ts, yields => by
    obtain ⟨ht, hts⟩ := List.forall_mem_cons.mp yields
    exact ((decides_term number t ht).bind fun _ => (decides_terms _ ts hts).then fun _ =>
      decides_pure _).congr List.forall_mem_cons.symm

theorem decides_expr : ∀ e : Expr Term, Decides (expr e) (∀ t ∈ e.terms, t.Hoistable)
  | ⟨ts, span⟩ => by
    have checked : (∀ t ∈ ts, t.Hoistable) → ∀ t ∈ ts, checkTerm t = .ok () := by
      intro h t ht
      cases t with
      | atom a => rfl
      | choice as otherwise span => exact (checkLast_eq_ok_iff _).mpr (h _ ht).1
    refine (decides_fresh.bind fun number => (decides_checks ts).guard fun yields _ =>
      (decides_terms number ts yields).then fun _ => decides_pure _).congr ?_
    simpa using checked

theorem decides_optionalExpr : ∀ e : Option (Expr Term),
    Decides (optionalExpr e) (∀ e' ∈ e, ∀ t ∈ e'.terms, t.Hoistable)
  | none => by
    exact (decides_pure _).congr (by simp)
  | some e => by
    exact ((decides_expr e).then fun _ => decides_pure _).congr (by simp)

theorem decides_arms (target : Option String) : ∀ as : List (Arm Term), Decides (arms target as)
    (∀ a ∈ as, (∀ t ∈ a.condition.terms, t.Hoistable) ∧ a.body.Hoistable)
  | [] => by
    exact (decides_pure _).congr (by simp)
  | .mk condition body :: as => by
    refine ((decides_expr condition).bind fun _ => (decides_block target body).bind fun _ =>
      (decides_arms target as).then fun _ => decides_pure _).congr ?_
    rw [List.forall_mem_cons, and_assoc]
    rfl

theorem decides_optionalBlock (target : Option String) : ∀ b : Option (Block Term),
    Decides (optionalBlock target b) (∀ b' ∈ b, b'.Hoistable)
  | none => by
    exact (decides_pure _).congr (by simp)
  | some b => by
    exact ((decides_block target b).then fun _ => decides_pure _).congr (by simp)

theorem decides_block (target : Option String) : ∀ b : Block Term,
    Decides (block target b) b.Hoistable
  | .mk id body span => by
    exact (decides_stmts target body).then fun _ => decides_pure _

theorem decides_stmts (target : Option String) : ∀ ss : List (Stmt Term),
    Decides (stmts target ss) (∀ s ∈ ss, s.Hoistable)
  | [] => by
    exact (decides_pure _).congr (by simp)
  | s :: ss => by
    exact ((decides_stmt _ s).bind fun _ => (decides_stmts target ss).then fun _ =>
      decides_pure _).congr List.forall_mem_cons.symm

theorem decides_stmt (target : Option String) : ∀ s : Stmt Term, Decides (stmt target s) s.Hoistable
  | .declare _ _ init _ _ _ => by
    exact ((decides_optionalExpr init).then fun _ => decides_pure _).congr
      (by simp [Stmt.hoistable_iff, Stmt.exprs, Stmt.blocks])
  | .assign _ _ _ value _ => by
    exact ((decides_expr value).then fun _ => decides_pure _).congr
      (by simp [Stmt.hoistable_iff, Stmt.exprs, Stmt.blocks])
  | .eval value _ => by
    exact ((decides_expr value).then fun _ => decides_pure _).congr
      (by simp [Stmt.hoistable_iff, Stmt.exprs, Stmt.blocks])
  | .ret value _ => by
    exact ((decides_optionalExpr value).then fun _ => decides_pure _).congr
      (by simp [Stmt.hoistable_iff, Stmt.exprs, Stmt.blocks])
  | .branch as otherwise span => by
    exact ((decides_arms target as).bind fun ps => (decides_optionalBlock target otherwise).then
      fun o => decides_branch _ span o ps).congr Stmt.hoistable_branch.symm
  | .loop condition body span => by
    refine ((decides_expr condition).bind fun r => (decides_block none body).then fun b => ?_).congr
      (by simp [Stmt.hoistable_iff, Stmt.exprs, Stmt.blocks])
    split
    · exact decides_pure _
    · exact (decides_fresh.then fun _ => decides_fresh.then fun _ => decides_pure _).then
        fun _ => decides_pure _
  | .breakOut .. | .continueLoop .. => by
    exact (decides_pure _).congr (by simp [Stmt.hoistable_iff, Stmt.exprs, Stmt.blocks])

end

/-! ## Files -/

mutual

theorem decides_item : ∀ i : Item Term,
    Decides (i.mapFunctionsM fun f => do return { f with body := ← block none f.body })
      (∀ f ∈ i.functions, f.body.Hoistable)
  | .function f => by
    unfold Item.mapFunctionsM Item.functions
    exact (((decides_block none f.body).then fun _ => decides_pure _).then fun _ =>
      decides_pure _).congr (by simp)
  | .submodule _ items _ _ _ => by
    exact (decides_items items).then fun _ => decides_pure _
  | .imports _ | .global _ | .struct _ => by
    unfold Item.mapFunctionsM Item.functions
    exact (decides_pure _).congr (by simp)

theorem decides_items : ∀ is : List (Item Term),
    Decides (mapItemsM (fun f => do return { f with body := ← block none f.body }) is)
      (∀ f ∈ functionsOf is, f.body.Hoistable)
  | [] => by
    unfold mapItemsM functionsOf
    exact (decides_pure _).congr (by simp)
  | i :: is => by
    exact ((decides_item i).bind fun _ => (decides_items is).then fun _ => decides_pure _).congr
      List.forall_mem_append.symm

end

end Hoist

/-- Hoisting succeeds if and only if every value-`if` that stands anywhere in a function has an
`else` and blocks that all end in an expression, in a jump, or in an `if` that is such itself. -/
theorem FileTree.exists_hoist_iff (t : FileTree Term) :
    (∃ t', t.hoist = .ok t') ↔
      ∀ f ∈ t.functions, ∀ s ∈ f.body.body, ∀ v, Stmt.Holds v s → v.Yields := by
  have file := ((Hoist.decides_items t.items).then fun is => Hoist.decides_pure
    { name := t.name, items := is, nextBlock := t.nextBlock : FileTree Atom }) ⟨0, t.nextBlock⟩
  refine Iff.trans ?_ file
  rw [FileTree.hoist, FileTree.mapFunctionsM]
  generalize StateT.run _ _ = x
  cases x <;> simp [Bind.bind, Except.bind, pure, Except.pure]

end EbLang
