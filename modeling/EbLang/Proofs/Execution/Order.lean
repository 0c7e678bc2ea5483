import EbLang.Proofs.Execution.Hoist

/-!
# The order of evaluation after hoisting

Hoisting moves the value-`if`s of an expression in front of it, past steps that were to run first.  So
a hoisted body does what the body does when its value-`if`s run first, which is not always what it
does from left to right: a call that stands before a value-`if` is made after it.

Where only literals, operators and members stand before a value-`if`, there is nothing to be seen of
the change.
-/

namespace EbLang

/-- Whether a step neither reads a variable nor calls a function. -/
def Atom.isStill (a : Atom) : Bool :=
  match a.kind with
  | .literal _ | .member _ => true
  | .var _ _ => false
  | .call c => c.isOperator

/-- No variable and no call of a function stands before a value-`if`. -/
def choicesLead : List Term → Bool
  | [] => true
  | .choice .. :: ts => choicesLead ts
  | .atom a :: ts => if a.isStill then choicesLead ts else ts.all fun t => !t.isChoice

mutual

/-- Whether value-`if`s come first in the expressions inside a term. -/
def Term.ordered : Term → Bool
  | .atom _ => true
  | .choice arms otherwise _ => armsOrdered arms && otherwiseOrdered otherwise

/-- Whether value-`if`s come first in the expressions inside some terms. -/
def termsOrdered : List Term → Bool
  | [] => true
  | t :: ts => t.ordered && termsOrdered ts

/-- Whether value-`if`s come first in an expression and those inside it. -/
def Expr.ordered : Expr Term → Bool
  | ⟨ts, _⟩ => choicesLead ts && termsOrdered ts

/-- The same of an expression that may be missing. -/
def optionalOrdered : Option (Expr Term) → Bool
  | none => true
  | some e => e.ordered

/-- The same of conditions and bodies. -/
def armsOrdered : List (Arm Term) → Bool
  | [] => true
  | .mk condition body :: arms => condition.ordered && body.ordered && armsOrdered arms

/-- The same of a last branch that may be missing. -/
def otherwiseOrdered : Option (Block Term) → Bool
  | none => true
  | some body => body.ordered

/-- Whether value-`if`s come first in all expressions of a block. -/
def Block.ordered : Block Term → Bool
  | .mk _ body _ => stmtsOrdered body

/-- Whether value-`if`s come first in all expressions of some statements. -/
def stmtsOrdered : List (Stmt Term) → Bool
  | [] => true
  | s :: ss => s.ordered && stmtsOrdered ss

/-- Whether value-`if`s come first in all expressions of a statement. -/
def Stmt.ordered : Stmt Term → Bool
  | .declare _ _ init _ _ _ => optionalOrdered init
  | .assign _ _ _ value _ => value.ordered
  | .eval value _ => value.ordered
  | .ret value _ => optionalOrdered value
  | .branch arms otherwise _ => armsOrdered arms && otherwiseOrdered otherwise
  | .loop condition body _ => condition.ordered && body.ordered
  | .breakOut _ _ => true
  | .continueLoop _ => true

end

namespace Execution

variable {V W : Type}

section Ordered

variable (I : Interpretation V W) (limit : Nat)
variable {strategy : Strategy V W} {env : Env} {ts : List Term}

/-! ## Expressions in which value-`if`s come first -/

theorem runChoices_of_all (none : ts.all (fun t => !t.isChoice) = true) :
    runChoices (steps I strategy limit env ts) = pure (steps I strategy limit env ts) := by
  induction ts with
  | nil => rfl
  | cons t ts ih =>
    rw [List.all_cons, Bool.and_eq_true] at none
    cases t with
    | choice => simp [Term.isChoice] at none
    | atom a => simp only [steps, step, runChoices, ih none.2, pure_bind]

/-- A step that finds its operands, and reads and calls nothing, only computes a value. -/
theorem runAtom_still (env : Env) {a : Atom} {values : List V} (still : a.isStill = true)
    (enough : a.takes ≤ values.length) :
    ∃ v, runAtom I env a values = pure (v :: values.drop a.takes) := by
  unfold runAtom
  unfold Atom.isStill at still
  split
  next l kind => exact ⟨I.literal l a.ty, by simp [Atom.takes, kind]⟩
  next kind => simp [kind] at still
  next m v values kind => exact ⟨I.member m.name v, by simp [Atom.takes, kind]⟩
  next kind => simp [Atom.takes, kind] at enough
  next values _ _ c kind =>
    rw [kind] at still
    have takes : a.takes = c.argCount := by simp [Atom.takes, kind]
    rw [takes] at enough ⊢
    rw [if_neg (by omega)]
    refine ⟨I.apply c.name (values.take c.argCount).reverse, ?_⟩
    simp only [operate, still, if_true, pure_bind]

/-- Value-`if`s that come first may run first. -/
theorem runSteps_eq_choicesFirst {m : Nat} (lead : choicesLead ts = true) :
    ∀ values : List V, height? Term.takes values.length ts = some m →
      runSteps I env values (steps I strategy limit env ts) =
        (do runSteps I env values (← runChoices (steps I strategy limit env ts))) := by
  induction ts with
  | nil =>
    intro values _
    simp only [steps, runChoices, pure_bind]
  | cons t ts ih =>
    intro values height
    simp only [height?] at height
    split at height
    next enough =>
      cases t with
      | choice as otherwise span =>
        simp only [steps, step, runChoices, runSteps, bind_assoc, pure_bind]
        exact bind_congr fun value => bind_congr fun v => ih lead _ height
      | atom a =>
        unfold choicesLead at lead
        split at lead
        next still =>
          obtain ⟨v, eq⟩ := runAtom_still I env still enough
          simp only [steps, step, runChoices, runSteps, bind_assoc, pure_bind, eq]
          refine ih lead _ ?_
          rwa [List.length_cons, List.length_drop]
        next => simp only [steps, step, runChoices, runChoices_of_all I limit lead, pure_bind]
    next => cases height

/-! ## Trees -/

mutual

theorem step_eq_choicesFirst :
    ∀ t : Term, t.WellFormed → t.ordered = true → ∀ env,
      step I .choicesFirst limit env t = step I .strict limit env t
  | .atom a, _, _, env => rfl
  | .choice as otherwise span, ⟨_, has, ho⟩, o, env => by
    obtain ⟨oas, oo⟩ := Bool.and_eq_true_iff.mp o
    simp only [step, branches_eq_choicesFirst as has oas,
      optionalBlock_eq_choicesFirst otherwise ho oo]

theorem steps_eq_choicesFirst :
    ∀ ts : List Term, TermsWellFormed ts → termsOrdered ts = true → ∀ env,
      steps I .choicesFirst limit env ts = steps I .strict limit env ts
  | [], _, _, env => rfl
  | t :: ts, ⟨ht, hts⟩, o, env => by
    obtain ⟨ot, ots⟩ := Bool.and_eq_true_iff.mp o
    simp only [steps, step_eq_choicesFirst t ht ot, steps_eq_choicesFirst ts hts ots]

theorem expr_eq_choicesFirst :
    ∀ e : Expr Term, e.WellFormed → e.ordered = true → ∀ env,
      expr I .choicesFirst limit env e = expr I .strict limit env e
  | ⟨ts, span⟩, ⟨balanced, wf⟩, o, env => by
    obtain ⟨lead, ordered⟩ := Bool.and_eq_true_iff.mp o
    simp only [expr, steps_eq_choicesFirst ts wf ordered]
    exact (runSteps_eq_choicesFirst I limit lead [] balanced).symm

theorem optionalExpr_eq_choicesFirst :
    ∀ e : Option (Expr Term), OptionalWellFormed e → optionalOrdered e = true → ∀ env,
      optionalExpr I .choicesFirst limit env e = optionalExpr I .strict limit env e
  | none, _, _, env => rfl
  | some e, h, o, env => by simp only [optionalExpr, expr_eq_choicesFirst e h o]

theorem branches_eq_choicesFirst :
    ∀ as : List (Arm Term), ArmsWellFormed as → armsOrdered as = true → ∀ env otherwise,
      branches I .choicesFirst limit env otherwise as = branches I .strict limit env otherwise as
  | [], _, _, env, otherwise => rfl
  | .mk condition body :: as, ⟨hc, hb, has⟩, o, env, otherwise => by
    obtain ⟨both, oas⟩ := Bool.and_eq_true_iff.mp o
    obtain ⟨oc, ob⟩ := Bool.and_eq_true_iff.mp both
    simp only [branches, expr_eq_choicesFirst condition hc oc, block_eq_choicesFirst body hb ob,
      branches_eq_choicesFirst as has oas]

theorem optionalBlock_eq_choicesFirst :
    ∀ b : Option (Block Term), OtherwiseWellFormed b → otherwiseOrdered b = true → ∀ env,
      optionalBlock I .choicesFirst limit env b = optionalBlock I .strict limit env b
  | none, _, _, env => rfl
  | some b, h, o, env => by simp only [optionalBlock, block_eq_choicesFirst b h o]

/-- Where value-`if`s come first, running them first changes nothing. -/
theorem block_eq_choicesFirst :
    ∀ b : Block Term, b.WellFormed → b.ordered = true → ∀ env,
      block I .choicesFirst limit env b = block I .strict limit env b
  | .mk id body span, h, o, env => by simp only [block, stmts_eq_choicesFirst body h o]

theorem stmts_eq_choicesFirst :
    ∀ ss : List (Stmt Term), StmtsWellFormed ss → stmtsOrdered ss = true → ∀ env last,
      stmts I .choicesFirst limit env last ss = stmts I .strict limit env last ss
  | [], _, _, env, last => rfl
  | s :: ss, ⟨hs, hss⟩, o, env, last => by
    obtain ⟨os, oss⟩ := Bool.and_eq_true_iff.mp o
    simp only [stmts, stmt_eq_choicesFirst s hs os, stmts_eq_choicesFirst ss hss oss]

theorem stmt_eq_choicesFirst :
    ∀ s : Stmt Term, s.WellFormed → s.ordered = true → ∀ env,
      stmt I .choicesFirst limit env s = stmt I .strict limit env s
  | .declare name ty init var hidden span, h, o, env => by
    simp only [stmt, optionalExpr_eq_choicesFirst init h o]
  | .assign target binding members value span, h, o, env => by
    simp only [stmt, expr_eq_choicesFirst value h o]
  | .eval value span, h, o, env => by simp only [stmt, expr_eq_choicesFirst value h o]
  | .ret value span, h, o, env => by simp only [stmt, optionalExpr_eq_choicesFirst value h o]
  | .branch as otherwise span, ⟨_, has, ho⟩, o, env => by
    obtain ⟨oas, oo⟩ := Bool.and_eq_true_iff.mp o
    simp only [stmt, branches_eq_choicesFirst as has oas,
      optionalBlock_eq_choicesFirst otherwise ho oo]
  | .loop condition body span, ⟨hc, hb⟩, o, env => by
    obtain ⟨oc, ob⟩ := Bool.and_eq_true_iff.mp o
    simp only [stmt, expr_eq_choicesFirst condition hc oc, block_eq_choicesFirst body hb ob]
  | .breakOut amount span, _, _, env => rfl
  | .continueLoop span, _, _, env => rfl

end

end Ordered

/-! ## Files -/

/-- What is to be seen of an execution from a state: how it ends, and the variables, the world and the
trace it leaves. -/
def seen {α : Type} (x : Run V W α) (s : State V W) :
    Except (Exit V) α × List V × W × List (Event V) :=
  let (r, t) := x.run.run s
  (r, t.vars, t.world, t.events)

theorem Sim.seen_eq {α : Type} {x y : Run V W α} {T : List V} {R : α → α → List V → Prop}
    {E : List V → Prop} (h : Sim x y T R E) (same : ∀ a b T', R a b T' → b = a) (s : State V W) :
    seen y (s.withTemps T) = seen x s := by
  have hs := h s
  unfold seen
  split at hs
  next a t eq =>
    obtain ⟨b, T', eq', hR⟩ := hs
    cases same a b T' hR
    rw [eq, eq']
    rfl
  next e t eq =>
    obtain ⟨T', eq', -⟩ := hs
    rw [eq, eq']
    rfl

/-- Of a function without value-`if`s, run strictly, the same is to be seen as of another one, run
by a strategy. -/
def RunsAs (I : Interpretation V W) (limit : Nat) (env : Env) (strategy : Strategy V W)
    (f : FunctionItem Term) (g : FunctionItem Atom) : Prop :=
  ∀ s, seen (block I .strict limit env (g.body.map .atom)) s =
    seen (block I strategy limit env f.body) s

/-- Hoisted functions run as the functions do when value-`if`s run first. -/
theorem ensures_hoist {t : FileTree Term} (plain : t.IsPlain) (I : Interpretation V W) (limit : Nat)
    {env : Env} (visible : ∀ e ∈ env, e.2.hidden = false) :
    Ensures t.hoist fun t' =>
      List.Forall₂ (RunsAs I limit env .choicesFirst) t.functions t'.functions := by
  refine ensures_imp (FileTree.ensures_hoist (R := RunsAs I limit env .choicesFirst) fun f hf σ => ?_)
    fun t' same => same.2.functions
  refine ensures_imp (ensures_hoistBlock I limit none f.span f.body (plain f hf) (by simp) σ) ?_
  rintro ⟨b, σ1⟩ ⟨_, run⟩ s
  have sim := run 0 env env s.temps (.of_agree (.refl visible))
  exact sim.seen_eq (fun a b T' h => h.1) s

/-- Of a file that was read, with operators made conditional or not, every hoisted function does what
the function does when the value-`if`s of an expression run before its other steps.  So hoisting keeps
the order of evaluation exactly where that makes no difference, and it makes none in a function
in which no variable and no call stands before a value-`if`. -/
theorem hoist_runs_choicesFirst {source file name : String} {l : Lexed} {t u : FileTree Term}
    {t' : FileTree Atom} (scanned : scan source file = .ok l) (parsed : parse l name = .ok t)
    (stage : u = t ∨ u = t.shorten) (hoisted : u.hoist = .ok t') (I : Interpretation V W) (limit : Nat)
    {env : Env} (visible : ∀ e ∈ env, e.2.hidden = false) :
    List.Forall₂
      (fun f g => RunsAs I limit env .choicesFirst f g ∧
        (RunsAs I limit env .strict f g ↔ ∀ s, seen (block I .choicesFirst limit env f.body) s =
          seen (block I .strict limit env f.body) s) ∧
        (f.body.ordered = true → RunsAs I limit env .strict f g))
      u.functions t'.functions := by
  have wf := (ensures_parse l name t parsed).wellFormed
  have plain := FileTree.isPlain_of_parse scanned parsed
  have both : u.WellFormed ∧ u.IsPlain := by
    rcases stage with rfl | rfl
    · exact ⟨wf, plain⟩
    · exact ⟨wf.shorten, plain.shorten wf⟩
  have runs := ensures_hoist both.2 I limit visible t' hoisted
  have all := (List.forall₂_and_left _ _).mpr ⟨both.1.forall_functions, runs⟩
  refine all.imp fun f g ⟨wellFormed, run⟩ => ⟨run, ?_, fun ordered s => ?_⟩
  · exact forall_congr' fun s => by rw [run s]
  · rw [run s, block_eq_choicesFirst I limit f.body wellFormed ordered]

/-- Whether a text can be read and hoisted and the functions before and after pass a test. -/
def hoistsAs (source : String) (test : List (FunctionItem Term) → List (FunctionItem Atom) → Bool) :
    Bool :=
  readsAs source fun t => resultAs t.shorten.hoist fun t' => test t.shorten.functions t'.functions

theorem exists_of_hoistsAs {source : String}
    {test : List (FunctionItem Term) → List (FunctionItem Atom) → Bool}
    (h : hoistsAs source test = true) :
    ∃ l t t', scan source "m" = .ok l ∧ parse l "m" = .ok t ∧ t.shorten.hoist = .ok t' ∧
      test t.shorten.functions t'.functions = true := by
  obtain ⟨l, t, scanned, parsed, passes⟩ := exists_of_readsAs h
  obtain ⟨t', hoisted, passes⟩ := exists_of_resultAs passes
  exact ⟨l, t, t', scanned, parsed, hoisted, passes⟩

/-- The value of an `if`, after which a function is called. -/
def choiceBeforeCall : String :=
  "fn f(): I32 \x7b 1 \x7d\n" ++
  "fn h(c: Bool): I32 \x7b return if c && f() < 2 \x7b f() \x7d else \x7b 3 \x7d + f() \x7d"

theorem hoist_runs_choicesFirst_choiceBeforeCall :
    ∃ l t t', scan choiceBeforeCall "m" = .ok l ∧ parse l "m" = .ok t ∧ t.shorten.hoist = .ok t' ∧
      t.shorten.functions.map (fun f => (f.name, f.body.ordered)) = [("f", true), ("h", true)] ∧
      (∀ e ∈ [("c", Address.mk false 0)], e.2.hidden = false) ∧
      ∀ (V W : Type) (I : Interpretation V W) limit,
        List.Forall₂
          (fun f g => RunsAs I limit [("c", ⟨false, 0⟩)] .choicesFirst f g ∧
            (RunsAs I limit [("c", ⟨false, 0⟩)] .strict f g ↔
              ∀ s, seen (block I .choicesFirst limit [("c", ⟨false, 0⟩)] f.body) s =
                seen (block I .strict limit [("c", ⟨false, 0⟩)] f.body) s) ∧
            (f.body.ordered = true → RunsAs I limit [("c", ⟨false, 0⟩)] .strict f g))
          t.shorten.functions t'.functions := by
  have read : hoistsAs choiceBeforeCall (fun fs _ =>
      fs.map (fun f => (f.name, f.body.ordered)) = [("f", true), ("h", true)]) = true := by
    decide +kernel
  obtain ⟨l, t, t', scanned, parsed, hoisted, names⟩ := exists_of_hoistsAs read
  have visible : ∀ e ∈ [("c", Address.mk false 0)], e.2.hidden = false := by simp
  exact ⟨l, t, t', scanned, parsed, hoisted, of_decide_eq_true names, visible, fun V W I limit =>
    hoist_runs_choicesFirst scanned parsed (.inr rfl) hoisted I limit visible⟩

/-- A call, after which the value of an `if` with another call is taken. -/
def callBeforeChoice : String :=
  "fn f(): I32 \x7b 1 \x7d\n" ++
  "fn g(): I32 \x7b 2 \x7d\n" ++
  "fn h(c: Bool): I32 \x7b return f() + if c \x7b g() \x7d else \x7b 3 \x7d \x7d\n" ++
  "fn stop(): I32 \x7b \x7d"

/-- All values are truth values, and all functions give `true`. -/
def allTrue : Interpretation Bool Unit where
  number _ _ := true
  ofBool b := b
  truth b := b
  truth_ofBool _ := rfl
  operator _ _ := true
  call _ _ _ w := (true, w)
  member _ v := v
  update _ v _ := v
  unset _ := true
  readGlobal _ _ := true
  writeGlobal _ _ w := w

/-- Hoisting calls `g` before `f` where the file has `f` first. -/
theorem hoist_reorders_callBeforeChoice :
    ∃ l t t', scan callBeforeChoice "m" = .ok l ∧ parse l "m" = .ok t ∧ t.shorten.hoist = .ok t' ∧
      ¬ List.Forall₂ (RunsAs allTrue 0 [("c", ⟨false, 0⟩)] .strict) t.shorten.functions t'.functions := by
  -- With `c` set, the traces differ.
  have read : hoistsAs callBeforeChoice (fun fs gs => (fs.zip gs).any fun (f, g) =>
      seen (block allTrue .strict 0 [("c", ⟨false, 0⟩)] (g.body.map .atom)) ⟨[true], [], (), []⟩ ≠
        seen (block allTrue .strict 0 [("c", ⟨false, 0⟩)] f.body) ⟨[true], [], (), []⟩) = true := by
    decide +kernel
  obtain ⟨l, t, t', scanned, parsed, hoisted, differs⟩ := exists_of_hoistsAs read
  obtain ⟨⟨f, g⟩, mem, differ⟩ := List.any_eq_true.mp differs
  refine ⟨l, t, t', scanned, parsed, hoisted, fun same => of_decide_eq_true differ ?_⟩
  exact (List.forall₂_iff_zip.mp same).2 mem _

end Execution

end EbLang
