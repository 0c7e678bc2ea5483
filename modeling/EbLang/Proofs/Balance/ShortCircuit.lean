import EbLang.Proofs.Shortening

/-!
# Balance of short-circuit operators

The operands found so far are balanced sequences of their own, so whatever takes the place of a call
is one again.  A balanced expression is therefore read to its end: no step misses an operand, and one
operand is left.  What occurs in it is counted on the way (`Gathered`).
-/

namespace EbLang

namespace ShortCircuit

variable {a : Atom} {stack : List Operand} {ts : List Term}
variable {os : List Operand} {takes m : Nat} {o : Operand}

/-- The steps of an operand leave one value. -/
structure Operand.WellFormed (o : Operand) : Prop where
  raises : Raises Term.takes 1 o.terms
  terms : TermsWellFormed o.terms

/-- Operands side by side leave one value each. -/
theorem flatMap_terms (h : ∀ o ∈ os, o.WellFormed) :
    Raises Term.takes os.length (os.flatMap Operand.terms) ∧
      TermsWellFormed (os.flatMap Operand.terms) := by
  induction os with
  | nil => exact ⟨raises_nil, trivial⟩
  | cons o os ih =>
    have ho := h o List.mem_cons_self
    have hos := ih fun o ho => h o (List.mem_cons_of_mem _ ho)
    rw [List.flatMap_cons, List.length_cons, Nat.add_comm]
    exact ⟨ho.raises.append hos.1, termsWellFormed_append.mpr ⟨ho.terms, hos.2⟩⟩

/-- A call that takes all the operands before it. -/
theorem call_wellFormed (h : ∀ o ∈ os, o.WellFormed)
    (takes : a.takes = os.length) (effects : Bool) :
    Operand.WellFormed ⟨os.flatMap Operand.terms ++ [.atom a], effects⟩ := by
  obtain ⟨raises, wf⟩ := flatMap_terms h
  have single : TermsWellFormed [.atom a] := ⟨trivial, trivial⟩
  exact ⟨raises.snoc takes, termsWellFormed_append.mpr ⟨wf, single⟩⟩

/-- A step that takes nothing. -/
theorem leaf_wellFormed (takes : a.takes = 0) : Operand.WellFormed ⟨[.atom a], false⟩ :=
  ⟨raises_singleton takes, trivial, trivial⟩

theorem flatten_wellFormed (h : ∀ o ∈ stack, o.WellFormed) :
    Raises Term.takes stack.length (flatten stack) ∧ TermsWellFormed (flatten stack) := by
  rw [← List.length_reverse]
  exact flatMap_terms fun o ho => h o (List.mem_reverse.mp ho)

theorem valueBlock_wellFormed (id : Nat) (span : Span)
    (h : Raises Term.takes 1 ts) (wf : TermsWellFormed ts) :
    (valueBlock id ⟨ts, span⟩).WellFormed :=
  ⟨⟨h, wf⟩, trivial⟩

theorem conditional_wellFormed {left right : Operand} (isOr : Bool) (span : Span)
    (thenId elseId : Nat) (hl : left.WellFormed) (hr : right.WellFormed) :
    (conditional isOr left.terms right.terms span thenId elseId).WellFormed := by
  have literal : Raises Term.takes 1 [.atom (.bool isOr span)] := raises_singleton rfl
  have decided := valueBlock_wellFormed thenId span literal ⟨trivial, trivial⟩
  have other := valueBlock_wellFormed elseId (firstSpan right.terms span) hr.raises hr.terms
  refine ⟨by simp, ⟨?_, decided, trivial⟩, other⟩
  cases isOr with
  | true => exact ⟨hl.raises, hl.terms⟩
  | false =>
    exact ⟨hl.raises.snoc rfl, termsWellFormed_append.mpr ⟨hl.terms, trivial, trivial⟩⟩

theorem choice_wellFormed {as : List (Arm Term)} {otherwise : Option (Block Term)} (span : Span)
    (h : Term.WellFormed (.choice as otherwise span)) :
    Operand.WellFormed ⟨[.choice as otherwise span], true⟩ :=
  ⟨raises_singleton rfl, h, trivial⟩

/-- The operands after a step that found its own. -/
theorem height_push (h : height? Term.takes (stack.length - takes + 1) ts = some m) :
    height? Term.takes (o :: stack.drop takes).length ts = some m := by
  rwa [List.length_cons, List.length_drop]

theorem forall_push (ho : o.WellFormed)
    (h : ∀ o ∈ stack, o.WellFormed) : ∀ p ∈ o :: stack.drop takes, p.WellFormed := by
  intro p hp
  rcases List.mem_cons.mp hp with rfl | hp
  · exact ho
  · exact h p (List.mem_of_mem_drop hp)

section Trees

variable {α : Type} {c : Collector α}

theorem ensures_pushCall (bare : c.IsBare) {call : Call} {operands : List Operand}
    (kind : a.kind = .call call) (length : operands.length = call.argCount)
    (h : ∀ o ∈ operands, o.WellFormed) (n : Nat) :
    Ensures ((pushCall a call operands stack).run n) fun r => ∃ o, o.WellFormed ∧ r.1 = o :: stack ∧
      Gathered c n r.2 (c.atom a ++ collectOperands c operands) (collectTerms c o.terms) := by
  have takes : a.takes = operands.length := by simp [Atom.takes, kind, length]
  unfold pushCall
  dsimp only
  split
  next left right _ =>
    have made : Operand.WellFormed
        ⟨[conditional (call.name == "||") left.terms right.terms a.span n (n + 1)], true⟩ :=
      choice_wellFormed _ (conditional_wellFormed _ _ _ _ (h left (by simp)) (h right (by simp)))
    have two : Gathered c n (n + 2) (collectOperands c [left, right]) _ :=
      (Gathered.refl n _).fresh.fresh
    refine ensures_pure ⟨_, made, rfl, two.of_countP (fun p => ?_) fun p => ?_⟩
    · simp only [List.countP_append]
      omega
    · simp only [collectOperands, List.flatMap_cons, List.flatMap_nil, collect_conditional bare,
        List.countP_append]
      omega
  next =>
    refine ensures_pure ⟨_, call_wellFormed h takes _, rfl, (Gathered.refl n _).perm (.refl _) ?_⟩
    rw [collectTerms_append, collectTerms_flatMap, collect_atom]
    exact List.perm_append_comm

theorem ensures_push (bare : c.IsBare) (enough : a.takes ≤ stack.length) (h : ∀ o ∈ stack, o.WellFormed) (n : Nat) :
    Ensures ((push a stack).run n) fun r =>
      ∃ o, o.WellFormed ∧ r.1 = some (o :: stack.drop a.takes) ∧
        Gathered c n r.2 (c.atom a ++ collectOperands c (stack.take a.takes)) (collectTerms c o.terms) := by
  have leaf (takes : a.takes = 0) : ∃ o, o.WellFormed ∧
      some (⟨[.atom a], false⟩ :: stack) = some (o :: stack.drop a.takes) ∧
      Gathered c n n (c.atom a ++ collectOperands c (stack.take a.takes)) (collectTerms c o.terms) := by
    rw [takes]
    exact ⟨_, leaf_wellFormed takes, rfl, .refl n _⟩
  unfold push
  split
  next kind => exact ensures_pure (leaf (by simp [Atom.takes, kind]))
  next kind => exact ensures_pure (leaf (by simp [Atom.takes, kind]))
  next base stack kind =>
    have takes : a.takes = 1 := by simp [Atom.takes, kind]
    have alone : ∀ o ∈ [base], o.WellFormed := by simpa using h base (by simp)
    have hb := call_wellFormed alone takes base.effects
    rw [List.flatMap_singleton] at hb
    rw [takes]
    refine ensures_pure ⟨_, hb, rfl, (Gathered.refl n _).perm List.perm_append_comm (.of_eq ?_)⟩
    rw [collectTerms_append, collect_atom]
    exact congrArg (· ++ _) (List.append_nil _)
  next kind => simp [Atom.takes, kind] at enough
  next call kind =>
    have takes : a.takes = call.argCount := by simp [Atom.takes, kind]
    rw [takes] at enough ⊢
    rw [if_neg (by omega), StateT.run_bind]
    refine ensures_bind (ensures_pushCall bare kind ?_ (fun o ho => ?_) n) ?_
    · simp only [List.length_reverse, List.length_take]
      omega
    · exact h o (List.mem_of_mem_take (List.mem_reverse.mp ho))
    · rintro ⟨_, n1⟩ ⟨o, ho, rfl, gathered⟩
      refine ensures_pure ⟨o, ho, rfl, gathered.perm (.append_left _ ?_) (.refl _)⟩
      exact (List.reverse_perm _).flatMap_right _

mutual

theorem ensures_term (bare : c.IsBare) (stack : List Operand) :
    ∀ t : Term, t.WellFormed → t.takes ≤ stack.length → (∀ o ∈ stack, o.WellFormed) → ∀ n : Nat,
      Ensures ((term stack t).run n) fun r =>
        ∃ o, o.WellFormed ∧ r.1 = some (o :: stack.drop t.takes) ∧
          Gathered c n r.2 (t.collect c ++ collectOperands c (stack.take t.takes))
            (collectTerms c o.terms)
  | .atom a, _, enough, h, n => ensures_push bare enough h n
  | .choice as otherwise span, ⟨some_arm, has, hotherwise⟩, _, h, n => by
    refine ensures_run_bind (ensures_arms bare as has n) fun as' n1 ⟨gas, has', empty⟩ => ?_
    refine ensures_run_bind (ensures_optionalBlock bare otherwise hotherwise n1) fun otherwise' n2 ho => ?_
    exact ensures_pure ⟨_, choice_wellFormed span ⟨mt empty some_arm, has', ho.2⟩, rfl,
      (gas.append ho.1).append (.refl n2 [])⟩

theorem ensures_terms (bare : c.IsBare) (m : Nat) :
    ∀ (ts : List Term) (stack : List Operand), TermsWellFormed ts →
      height? Term.takes stack.length ts = some m → (∀ o ∈ stack, o.WellFormed) → ∀ n : Nat,
      Ensures ((terms stack ts).run n) fun r =>
        Gathered c n r.2 (collectTerms c ts ++ collectOperands c stack) (collectTerms c r.1) ∧
          Raises Term.takes m r.1 ∧ TermsWellFormed r.1
  | [], stack, _, height, h, n => by
    cases height
    refine ensures_pure ⟨(Gathered.refl n _).of_countP (fun p => Nat.le_refl _) fun p => ?_,
      flatten_wellFormed h⟩
    exact Nat.le_of_eq (countP_flatten stack p)
  | t :: ts, stack, ⟨ht, hts⟩, height, h, n => by
    simp only [height?] at height
    split at height
    next enough =>
      refine ensures_run_bind (ensures_term bare stack t ht enough h n) fun r n1 hr => ?_
      obtain ⟨o, ho, rfl, first⟩ := hr
      refine ensures_imp (ensures_terms bare m ts _ hts (height_push height) (forall_push ho h) n1) ?_
      rintro _ ⟨rest, wf⟩
      have parts : collectOperands c stack =
          collectOperands c (stack.take t.takes) ++ collectOperands c (stack.drop t.takes) := by
        rw [collectOperands, collectOperands, collectOperands, ← List.flatMap_append,
          List.take_append_drop]
      have kept := Gathered.refl (c := c) n1 (collectTerms c ts ++ collectOperands c (stack.drop t.takes))
      refine ⟨((first.append kept).trans (rest.of_countP (fun p => ?_) fun p => Nat.le_refl _)).of_countP
        (fun p => ?_) fun p => Nat.le_refl _, wf⟩
      · simp only [collectOperands_cons, List.countP_append]
        omega
      · simp only [parts, collectTerms, List.countP_append]
        omega
    next => cases height

theorem ensures_expr (bare : c.IsBare) : ∀ e : Expr Term, e.WellFormed → ∀ n : Nat,
    Ensures ((expr e).run n) fun r => Gathered c n r.2 (e.collect c) (r.1.collect c) ∧ r.1.WellFormed
  | ⟨ts, span⟩, ⟨balanced, wf⟩, n => by
    refine ensures_run_bind (ensures_terms bare 1 ts [] wf balanced (by simp) n) fun us n1 ⟨gathered, h⟩ => ?_
    rw [collectOperands, List.flatMap_nil, List.append_nil] at gathered
    exact ensures_pure ⟨gathered, h⟩

theorem ensures_optionalExpr (bare : c.IsBare) :
    ∀ e : Option (Expr Term), OptionalWellFormed e → ∀ n : Nat, Ensures ((optionalExpr e).run n) fun r =>
      Gathered c n r.2 (collectOptional c e) (collectOptional c r.1) ∧ OptionalWellFormed r.1
  | none, _, n => by
    exact ensures_pure ⟨.refl n _, trivial⟩
  | some e, h, n => by
    exact ensures_run_bind (ensures_expr bare e h n) fun e' n1 h' => ensures_pure h'

theorem ensures_arms (bare : c.IsBare) :
    ∀ as : List (Arm Term), ArmsWellFormed as → ∀ n : Nat, Ensures ((arms as).run n) fun r =>
      Gathered c n r.2 (collectArms c as) (collectArms c r.1) ∧
        ArmsWellFormed r.1 ∧ (r.1 = [] → as = [])
  | [], _, n => by
    exact ensures_pure ⟨.refl n _, trivial, id⟩
  | .mk condition body :: as, ⟨hc, hb, has⟩, n => by
    refine ensures_run_bind (ensures_expr bare condition hc n) fun condition' n1 ⟨gc, hc'⟩ => ?_
    refine ensures_run_bind (ensures_block bare body hb n1) fun body' n2 ⟨gb, hb'⟩ => ?_
    refine ensures_run_bind (ensures_arms bare as has n2) fun as' n3 ⟨gas, has', _⟩ => ?_
    exact ensures_pure ⟨(gc.append gb).append gas, ⟨hc', hb', has'⟩, nofun⟩

theorem ensures_optionalBlock (bare : c.IsBare) :
    ∀ b : Option (Block Term), OtherwiseWellFormed b → ∀ n : Nat, Ensures ((optionalBlock b).run n) fun r =>
      Gathered c n r.2 (collectOtherwise c b) (collectOtherwise c r.1) ∧ OtherwiseWellFormed r.1
  | none, _, n => by
    exact ensures_pure ⟨.refl n _, trivial⟩
  | some b, h, n => by
    exact ensures_run_bind (ensures_block bare b h n) fun b' n1 h' => ensures_pure h'

/-- Making operators conditional hands out numbers and brings nothing else, and a block stays
well-formed. -/
theorem ensures_block (bare : c.IsBare) : ∀ b : Block Term, b.WellFormed → ∀ n : Nat,
    Ensures ((block b).run n) fun r => Gathered c n r.2 (b.collect c) (r.1.collect c) ∧ r.1.WellFormed
  | .mk id body span, h, n => by
    refine ensures_run_bind (ensures_stmts bare body h n) fun body' n1 ⟨gathered, h'⟩ => ?_
    exact ensures_pure ⟨(Gathered.refl n (c.block id)).append gathered, h'⟩

theorem ensures_stmts (bare : c.IsBare) :
    ∀ ss : List (Stmt Term), StmtsWellFormed ss → ∀ n : Nat, Ensures ((stmts ss).run n) fun r =>
      Gathered c n r.2 (collectStmts c ss) (collectStmts c r.1) ∧ StmtsWellFormed r.1
  | [], _, n => by
    exact ensures_pure ⟨.refl n _, trivial⟩
  | s :: ss, ⟨hs, hss⟩, n => by
    refine ensures_run_bind (ensures_stmt bare s hs n) fun s' n1 ⟨gs, hs'⟩ => ?_
    refine ensures_run_bind (ensures_stmts bare ss hss n1) fun ss' n2 ⟨gss, hss'⟩ => ?_
    exact ensures_pure ⟨gs.append gss, hs', hss'⟩

theorem ensures_stmt (bare : c.IsBare) : ∀ s : Stmt Term, s.WellFormed → ∀ n : Nat,
    Ensures ((stmt s).run n) fun r => Gathered c n r.2 (s.collect c) (r.1.collect c) ∧ r.1.WellFormed
  | .declare name ty init var hidden span, h, n => by
    refine ensures_run_bind (ensures_optionalExpr bare init h n) fun init' n1 ⟨gathered, h'⟩ => ?_
    exact ensures_pure ⟨(Gathered.refl n _).append gathered, h'⟩
  | .assign target binding members value span, h, n => by
    refine ensures_run_bind (ensures_expr bare value h n) fun value' n1 ⟨gathered, h'⟩ => ?_
    exact ensures_pure ⟨(Gathered.refl n _).append gathered, h'⟩
  | .eval value span, h, n => by
    exact ensures_run_bind (ensures_expr bare value h n) fun value' n1 h' => ensures_pure h'
  | .ret value span, h, n => by
    exact ensures_run_bind (ensures_optionalExpr bare value h n) fun value' n1 h' => ensures_pure h'
  | .branch as otherwise span, ⟨some_arm, has, ho⟩, n => by
    refine ensures_run_bind (ensures_arms bare as has n) fun as' n1 ⟨gas, has', empty⟩ => ?_
    refine ensures_run_bind (ensures_optionalBlock bare otherwise ho n1) fun otherwise' n2 ⟨go, ho'⟩ => ?_
    exact ensures_pure ⟨gas.append go, mt empty some_arm, has', ho'⟩
  | .loop condition body span, ⟨hc, hb⟩, n => by
    refine ensures_run_bind (ensures_expr bare condition hc n) fun condition' n1 ⟨gc, hc'⟩ => ?_
    refine ensures_run_bind (ensures_block bare body hb n1) fun body' n2 ⟨gb, hb'⟩ => ?_
    exact ensures_pure ⟨gc.append gb, hc', hb'⟩
  | .breakOut amount span, _, n => by
    exact ensures_pure ⟨.refl n _, trivial⟩
  | .continueLoop span, _, n => by
    exact ensures_pure ⟨.refl n _, trivial⟩

end

end Trees

theorem isBare_ids : Collector.ids.IsBare := ⟨fun _ => rfl, fun _ _ => rfl⟩

/-- A step finds its operands and leaves one. -/
theorem ensures_term_operand {t : Term} (wf : t.WellFormed) (enough : t.takes ≤ stack.length)
    (h : ∀ o ∈ stack, o.WellFormed) :
    Ensures (term stack t) fun r => ∃ o, o.WellFormed ∧ r = some (o :: stack.drop t.takes) :=
  fun n => ensures_imp (ensures_term isBare_ids stack t wf enough h n) fun _ ⟨o, ho, eq, _⟩ => ⟨o, ho, eq⟩

/-- The operands that some steps leave on a stack, none if a step misses its own. -/
def operandsAfter (stack : List Operand) : List Term → StateM Nat (Option (List Operand))
  | [] => return some stack
  | t :: ts => do
    match ← term stack t with
    | some stack => operandsAfter stack ts
    | none => return none

/-- A balanced expression is read to its end: no step misses an operand, and one is left. -/
theorem ensures_operandsAfter (wf : TermsWellFormed ts)
    (height : height? Term.takes stack.length ts = some m) (h : ∀ o ∈ stack, o.WellFormed) :
    Ensures (operandsAfter stack ts) fun r => ∃ os, r = some os ∧ os.length = m := by
  induction ts generalizing stack with
  | nil =>
    cases height
    exact ensures_pure ⟨stack, rfl, rfl⟩
  | cons t ts ih =>
    simp only [height?] at height
    split at height
    next enough =>
      refine ensures_bind (ensures_term_operand wf.1 enough h) fun r hr => ?_
      obtain ⟨o, ho, rfl⟩ := hr
      exact ih wf.2 (height_push height) (forall_push ho h)
    next => cases height

/-- A balanced expression is rewritten to what the operands left after its steps hold. -/
theorem terms_eq_operandsAfter (wf : TermsWellFormed ts)
    (height : height? Term.takes stack.length ts = some m) (h : ∀ o ∈ stack, o.WellFormed) :
    terms stack ts = do return (((← operandsAfter stack ts).map flatten).getD []) := by
  induction ts generalizing stack with
  | nil => rfl
  | cons t ts ih =>
    simp only [height?] at height
    split at height
    next enough =>
      unfold terms operandsAfter
      rw [bind_assoc]
      refine bind_congr_of_ensures (ensures_term_operand wf.1 enough h) fun r hr => ?_
      obtain ⟨o, ho, rfl⟩ := hr
      exact ih wf.2 (height_push height) (forall_push ho h)
    next => cases height

/-- A well-formed expression is read to its end, and becomes the one operand left. -/
theorem expr_reads_whole :
    ∀ {e : Expr Term}, e.WellFormed → ∀ n,
      ∃ o n', (operandsAfter [] e.terms).run n = (some [o], n') ∧
        (expr e).run n = (⟨o.terms, e.span⟩, n')
  | ⟨ts, span⟩, ⟨balanced, wf⟩, n => by
    have none : ∀ o ∈ ([] : List Operand), o.WellFormed := List.forall_mem_nil _
    have height : height? Term.takes ([] : List Operand).length ts = some 1 := balanced
    obtain ⟨os, eq, one⟩ := ensures_operandsAfter wf height none n
    obtain ⟨o, rfl⟩ := List.length_eq_one_iff.mp one
    cases run : (operandsAfter [] ts).run n with
    | mk r n' =>
      rw [run] at eq
      cases eq
      refine ⟨o, n', rfl, ?_⟩
      unfold expr
      rw [terms_eq_operandsAfter wf height none]
      simp only [StateT.run_bind, run, StateT.run_pure]
      change (Expr.mk (flatten [o]) span, n') = _
      simp [flatten]

end ShortCircuit

/-- Making operators conditional keeps a file well-formed. -/
theorem FileTree.WellFormed.shorten {t : FileTree Term} (h : t.WellFormed) :
    t.shorten.WellFormed := by
  refine ensures_wellFormed (m := StateM Nat) (P := Block.WellFormed) (Q := Block.WellFormed)
    (fun i hi => ?_) t.items h t.nextBlock
  have kept : Ensures (ShortCircuit.block i.body) Block.WellFormed := fun n =>
    ensures_imp (ShortCircuit.ensures_block ShortCircuit.isBare_ids i.body hi n) fun _ h => h.2
  exact ensures_bind kept fun b hb => ensures_pure ⟨hb, rfl⟩

end EbLang
