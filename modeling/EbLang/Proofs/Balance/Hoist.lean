import EbLang.Proofs.Flow
import EbLang.Proofs.Shortening

/-!
# Balance of hoisted value-`if`s and added returns

A value-`if` gives way to a variable, which takes no operands either, so an expression is as balanced
after hoisting as before.  The statements that prepare it come from expressions of the value-`if`.
Adding returns moves expressions from one statement to another.

On the way nothing is mentioned but hidden variables that was not mentioned before.  So with balance
goes any predicate `P` of what is mentioned that hidden variables satisfy.

With it go the numbers of blocks, which are counted, so that it does not matter where a pass puts
them (`Numbered`), and that control leaves a body to which returns were added (`Leaves`).
-/

namespace EbLang

variable {τ : Type} {P : Mention → Prop}

/-! ## Adding numbers -/

/-- Some numbers become others when the numbers from `n` up to `n'` are handed out: none occurs more
often than before, the new ones apart, which occur once more. -/
abbrev Numbered (n n' : Nat) (old new : List Nat) : Prop := Gathered .ids n n' old new

namespace Numbered

variable {n n1 : Nat} {old new : List Nat}

protected theorem refl (n : Nat) (old : List Nat) : Numbered n n old old := Gathered.refl n old

/-- A block is made. -/
theorem fresh (h : Numbered n n1 old new) : Numbered n (n1 + 1) old (n1 :: new) := Gathered.fresh h

theorem cons (id : Nat) (h : Numbered n n1 old new) : Numbered n n1 (id :: old) (id :: new) :=
  (Numbered.refl n [id]).append h

theorem count_le (h : Numbered n n1 old new) (i : Nat) :
    new.count i ≤ old.count i + if n ≤ i ∧ i < n1 then 1 else 0 := by
  have below (n : Nat) : Collector.ids.below (· == i) n = if i < n then 1 else 0 := by
    rw [Collector.below, show (List.range n).flatMap Collector.ids.block = List.range n from
      List.flatMap_singleton' _]
    exact List.count_range
  have counts := Gathered.count_le h (· == i)
  rw [below, below] at counts
  change new.countP (· == i) ≤ old.countP (· == i) + _
  split at counts <;> split at counts <;> split <;> omega

/-- Different numbers below `n` become different numbers below `n'`. -/
theorem distinct (h : Numbered n n1 old new) (nodup : old.Nodup) (below : ∀ i ∈ old, i < n) :
    new.Nodup ∧ ∀ i ∈ new, i < n1 := by
  have once := List.nodup_iff_count.mp nodup
  have le := h.le
  constructor
  · refine List.nodup_iff_count.mpr fun i => ?_
    have c := h.count_le i
    split at c
    next between =>
      have absent : i ∉ old := fun mem => by
        have := below i mem
        omega
      rwa [List.count_eq_zero.mpr absent, Nat.zero_add] at c
    next => exact Nat.le_trans c (once i)
  · intro i mem
    have c := h.count_le i
    have pos := List.count_pos_iff.mpr mem
    split at c
    next between => exact between.2
    next =>
      have lt := below i (List.count_pos_iff.mp (Nat.lt_of_lt_of_le pos c))
      omega

end Numbered

/-! ## Numbers and predicates of blocks -/

mutual

def Block.numbers : Block τ → List Nat
  | .mk id body _ => id :: numbersOf body

/-- The numbers of the blocks in some statements. -/
def numbersOf : List (Stmt τ) → List Nat
  | [] => []
  | s :: ss => s.numbers ++ numbersOf ss

/-- The numbers of the blocks in a statement. -/
def Stmt.numbers : Stmt τ → List Nat
  | .branch arms otherwise _ => armNumbers arms ++ otherwiseNumbers otherwise
  | .loop _ body _ => body.numbers
  | .declare .. | .assign .. | .eval .. | .ret .. | .breakOut .. | .continueLoop .. => []

/-- The numbers of the blocks in some arms. -/
def armNumbers : List (Arm τ) → List Nat
  | [] => []
  | .mk _ body :: arms => body.numbers ++ armNumbers arms

/-- The numbers of the blocks in a last branch. -/
def otherwiseNumbers : Option (Block τ) → List Nat
  | none => []
  | some body => body.numbers

end

theorem numbersOf_append (ss ts : List (Stmt τ)) :
    numbersOf (ss ++ ts) = numbersOf ss ++ numbersOf ts := by
  induction ss with
  | nil => rfl
  | cons s ss ih => rw [List.cons_append, numbersOf, numbersOf, ih, List.append_assoc]

/-- An expression is balanced, and what its steps mention satisfies a predicate. -/
structure Expr.IsFine (P : Mention → Prop) (e : Expr Atom) : Prop where
  balanced : Balanced Atom.takes e.terms
  mentions : ∀ a ∈ e.terms, ∀ m ∈ Collector.names.atom a, P m

/-- The expressions of a statement are fine, and it has a condition if it is an `if`. -/
structure Stmt.IsFine (P : Mention → Prop) (s : Stmt Atom) : Prop where
  exprs : ∀ e ∈ s.exprs, e.IsFine P
  hasArm : s.HasArm

/-- All expressions of a block are fine. -/
abbrev Block.IsFine (P : Mention → Prop) (b : Block Atom) : Prop := b.Everywhere (Stmt.IsFine P)

/-- All expressions of some statements are fine. -/
abbrev StmtsFine (P : Mention → Prop) (ss : List (Stmt Atom)) : Prop :=
  StmtsEverywhere (Stmt.IsFine P) ss

theorem isFine_of_single {s : Stmt Atom} {e : Expr Atom} (exprs : s.exprs = [e])
    (hasArm : s.HasArm) (he : e.IsFine P) : s.IsFine P where
  exprs e' he' := by
    rw [exprs] at he'
    cases List.mem_singleton.mp he'
    exact he
  hasArm := hasArm

theorem isFine_of_optional {s : Stmt Atom} {e : Option (Expr Atom)}
    (exprs : s.exprs = e.toList) (hasArm : s.HasArm) (he : ∀ e' ∈ e, e'.IsFine P) : s.IsFine P where
  exprs e' he' := by
    rw [exprs] at he'
    exact he e' (Option.mem_toList.mp he')
  hasArm := hasArm

/-! ## Hoisting -/

namespace Hoist

/-- The checks leave the supply alone. -/
theorem ensures_checks (ts : List Term) (σ : Supply) :
    Ensures ((ts.forM fun t => (checkTerm t : M Unit)).run σ) fun r =>
      r.2 = σ ∧ ∀ t ∈ ts, checkTerm t = .ok () := by
  induction ts with
  | nil => exact ensures_pure ⟨rfl, List.forall_mem_nil _⟩
  | cons t ts ih =>
    have checked : Ensures ((checkTerm t : M Unit).run σ) fun r =>
        r.2 = σ ∧ checkTerm t = .ok () := by
      cases checkTerm t with
      | error e => rintro _ ⟨⟩
      | ok _ => exact ensures_pure ⟨rfl, rfl⟩
    refine ensures_bind checked fun ⟨_, σ1⟩ ⟨same, ht⟩ => ?_
    subst same
    exact ensures_imp ih fun r ⟨same, hts⟩ => ⟨same, List.forall_mem_cons.mpr ⟨ht, hts⟩⟩

variable {P : Mention → Prop}
variable {otherwise : Option (Block Atom)}
variable {last span : Span} {prelude : List (Stmt Atom)}

structure PreparedArm.IsFine (P : Mention → Prop) (p : PreparedArm) : Prop where
  prelude : StmtsFine P p.prelude
  condition : p.condition.IsFine P
  body : p.body.IsFine P

/-- Arms and what follows them are fine. -/
structure BranchesFine (P : Mention → Prop) (arms : List (Arm Atom))
    (otherwise : Option (Block Atom)) : Prop where
  conditions : ∀ a ∈ arms, a.condition.IsFine P
  bodies : ArmsEverywhere (Stmt.IsFine P) arms
  otherwise : OtherwiseEverywhere (Stmt.IsFine P) otherwise

theorem BranchesFine.cons {p : PreparedArm} {arms : List (Arm Atom)}
    (hp : p.IsFine P) (h : BranchesFine P arms otherwise) :
    BranchesFine P (p.arm :: arms) otherwise where
  conditions a ha := by
    rcases List.mem_cons.mp ha with rfl | ha
    · exact hp.condition
    · exact h.conditions a ha
  bodies := ⟨hp.body, h.bodies⟩
  otherwise := h.otherwise

/-- An `if` after the statements that prepare its first condition. -/
theorem BranchesFine.stmts {p : PreparedArm} {arms : List (Arm Atom)}
    (hp : p.IsFine P) (h : BranchesFine P arms otherwise)
    (span : Span) : StmtsFine P (p.prelude ++ [.branch (p.arm :: arms) otherwise span]) := by
  have all := h.cons hp
  refine stmtsEverywhere_append.mpr ⟨hp.prelude, ⟨⟨fun e he => ?_, nofun⟩, all.bodies, h.otherwise⟩,
    trivial⟩
  obtain ⟨a, ha, rfl⟩ := List.mem_map.mp he
  exact all.conditions a ha

def preparedNumbers (ps : List PreparedArm) : List Nat :=
  ps.flatMap fun p => numbersOf p.prelude ++ p.body.numbers

theorem ensures_chain (ho : OtherwiseEverywhere (Stmt.IsFine P) otherwise) :
    ∀ {ps : List PreparedArm}, (∀ p ∈ ps, p.IsFine P) → ∀ σ : Supply,
      Ensures ((chain last ps otherwise).run σ) fun r =>
        Numbered σ.block r.2.block (preparedNumbers ps ++ otherwiseNumbers otherwise)
          (armNumbers r.1.1 ++ otherwiseNumbers r.1.2) ∧ BranchesFine P r.1.1 r.1.2
  | [], _, σ => by
    exact ensures_pure ⟨.refl _ _, by simp, trivial, ho⟩
  | p :: ps, h, σ => by
    refine ensures_bind (ensures_chain ho (fun p hp => h p (List.mem_cons_of_mem _ hp)) σ) ?_
    rintro ⟨⟨arms, rest⟩, σ1⟩ ⟨numbered, fine⟩
    have hp := h p List.mem_cons_self
    have all := (Numbered.refl σ.block (numbersOf p.prelude ++ p.body.numbers)).append numbered
    dsimp only
    split
    next empty =>
      refine ensures_pure ⟨all.perm (.of_eq (List.append_assoc ..).symm) (.of_eq ?_), fine.cons hp⟩
      rw [List.isEmpty_iff.mp empty]
      simp only [numbersOf, PreparedArm.arm, armNumbers, List.nil_append, List.append_assoc]
    next =>
      refine ensures_pure ⟨(Numbered.fresh all).perm (.of_eq (List.append_assoc ..).symm) (.of_eq ?_),
        by simp, trivial, fine.stmts hp _⟩
      simp only [armNumbers, otherwiseNumbers, Block.numbers, numbersOf_append, numbersOf,
        Stmt.numbers, PreparedArm.arm, List.nil_append, List.append_nil, List.append_assoc]

theorem ensures_branch {ps : List PreparedArm} (some_arm : ps ≠ []) (h : ∀ p ∈ ps, p.IsFine P)
    (ho : OtherwiseEverywhere (Stmt.IsFine P) otherwise) (σ : Supply) :
    Ensures ((branch last ps otherwise span).run σ) fun r =>
      Numbered σ.block r.2.block (preparedNumbers ps ++ otherwiseNumbers otherwise) (numbersOf r.1) ∧
        StmtsFine P r.1 := by
  unfold branch
  split
  next => exact absurd rfl some_arm
  next p ps =>
    refine ensures_bind (ensures_chain ho (fun p hp => h p (List.mem_cons_of_mem _ hp)) σ) ?_
    rintro ⟨⟨arms, rest⟩, σ1⟩ ⟨numbered, fine⟩
    have all := (Numbered.refl σ.block (numbersOf p.prelude ++ p.body.numbers)).append numbered
    refine ensures_pure ⟨all.perm (.of_eq (List.append_assoc ..).symm) (.of_eq ?_),
      fine.stmts (h p List.mem_cons_self) span⟩
    simp only [numbersOf_append, numbersOf, Stmt.numbers, PreparedArm.arm, armNumbers,
      List.append_nil, List.append_assoc]

theorem ensures_guardLoop {condition : Expr Atom} {body : Block Atom}
    (hp : StmtsFine P prelude) (hc : condition.IsFine P) (hb : body.IsFine P) (σ : Supply) :
    Ensures ((guardLoop prelude condition body span).run σ) fun r =>
      Numbered σ.block r.2.block (numbersOf prelude ++ body.numbers) r.1.numbers ∧
        r.1.Everywhere (Stmt.IsFine P) := by
  unfold guardLoop
  have two := (Numbered.refl σ.block (numbersOf prelude ++ body.numbers)).fresh.fresh
  refine ensures_pure ⟨two.perm (.refl _) (List.perm_iff_count.mpr fun i => ?_), ⟨?_, trivial⟩, ?_⟩
  · cases body
    simp only [Block.id, Block.body, Stmt.numbers, Block.numbers, numbersOf_append, numbersOf,
      armNumbers, otherwiseNumbers, List.count_append, List.count_cons, List.count_nil]
    omega
  · intro e he
    cases List.mem_singleton.mp he
    exact ⟨rfl, by simp [Expr.ofAtom, Atom.bool, Collector.names]⟩
  · refine stmtsEverywhere_append.mpr ⟨hp, ⟨⟨?_, List.cons_ne_nil _ _⟩, ⟨trivial, trivial⟩, ?_⟩, ?_⟩
    · intro e he
      cases List.mem_singleton.mp he
      exact hc
    · exact ⟨⟨by simp [Stmt.exprs], trivial⟩, trivial⟩
    · cases body
      exact hb

/-- A statement without blocks after those that prepare its only expression. -/
theorem prepared_snoc {n n' : Nat} {ids : List Nat} {s : Stmt Atom}
    (numbered : Numbered n n' ids (numbersOf prelude)) (hp : StmtsFine P prelude)
    (plain : s.numbers = []) (hs : s.Everywhere (Stmt.IsFine P)) :
    Numbered n n' ids (numbersOf (prelude ++ [s])) ∧ StmtsFine P (prelude ++ [s]) := by
  refine ⟨numbered.perm (.refl _) (.of_eq ?_), stmtsEverywhere_append.mpr ⟨hp, hs, trivial⟩⟩
  rw [numbersOf_append, numbersOf, plain, numbersOf, List.append_nil, List.append_nil]

theorem deliver_isFine {value : Expr Atom} (target : Option String) (span : Span)
    (h : value.IsFine P) : (deliver target value span).Everywhere (Stmt.IsFine P) := by
  cases target with
  | none => exact isFine_of_single rfl trivial h
  | some name => exact isFine_of_single rfl trivial h

mutual

/-- What takes the place of a term takes as many operands. -/
theorem ensures_term (made : ∀ name, P (.variable name false)) (number : Nat) :
    ∀ t : Term, t.WellFormed → (∀ m ∈ t.collect .names, P m) → ∀ σ : Supply,
      Ensures ((term number t).run σ) fun r =>
        Numbered σ.block r.2.block (t.collect .ids) (numbersOf r.1.1) ∧ StmtsFine P r.1.1 ∧
          r.1.2.takes = t.takes ∧ ∀ m ∈ Collector.names.atom r.1.2, P m
  | .atom a, _, ha, σ => by
    exact ensures_pure ⟨.refl _ _, trivial, rfl, ha⟩
  | .choice as otherwise span, ⟨some_arm, has, ho⟩, hm, σ => by
    obtain ⟨mas, mo⟩ := List.forall_mem_append.mp hm
    refine ensures_bind (ensures_arms made _ as has mas σ) fun ⟨ps, σ1⟩ ⟨nas, hps, empty⟩ => ?_
    refine ensures_bind (ensures_optionalBlock made _ otherwise ho mo σ1) fun ⟨rest, σ2⟩ ⟨no, ho'⟩ => ?_
    refine ensures_bind (ensures_branch (mt empty some_arm) hps ho' σ2) fun ⟨inner, σ3⟩ ⟨ni, hi⟩ => ?_
    refine ensures_pure ⟨(nas.append no).trans ni,
      ⟨isFine_of_optional (e := none) rfl trivial nofun, hi⟩, rfl, ?_⟩
    exact List.forall_mem_singleton.mpr (made _)

theorem ensures_terms (made : ∀ name, P (.variable name false)) (number : Nat) :
    ∀ ts : List Term, TermsWellFormed ts → (∀ m ∈ collectTerms .names ts, P m) → ∀ σ : Supply,
      Ensures ((terms number ts).run σ) fun r =>
        Numbered σ.block r.2.block (collectTerms .ids ts) (numbersOf r.1.1) ∧ StmtsFine P r.1.1 ∧
          r.1.2.map Atom.takes = ts.map Term.takes ∧ ∀ a ∈ r.1.2, ∀ m ∈ Collector.names.atom a, P m
  | [], _, _, σ => by
    exact ensures_pure ⟨.refl _ _, trivial, rfl, List.forall_mem_nil _⟩
  | t :: ts, ⟨ht, hts⟩, hm, σ => by
    obtain ⟨mt, mts⟩ := List.forall_mem_append.mp hm
    refine ensures_bind (ensures_term made number t ht mt σ) fun ⟨⟨first, a⟩, σ1⟩ ⟨nt, hf, ha, ma⟩ => ?_
    refine ensures_bind (ensures_terms made _ ts hts mts σ1) ?_
    rintro ⟨⟨others, as⟩, σ2⟩ ⟨nts, ho, has, mas⟩
    refine ensures_pure ⟨(nt.append nts).perm (.refl _) (.of_eq (numbersOf_append first others).symm),
      stmtsEverywhere_append.mpr ⟨hf, ho⟩, ?_, List.forall_mem_cons.mpr ⟨ma, mas⟩⟩
    exact List.cons_eq_cons.mpr ⟨ha, has⟩

theorem ensures_expr (made : ∀ name, P (.variable name false)) :
    ∀ e : Expr Term, e.WellFormed → (∀ m ∈ e.collect .names, P m) → ∀ σ : Supply,
      Ensures ((expr e).run σ) fun r =>
        Numbered σ.block r.2.block (e.collect .ids) (numbersOf r.1.1) ∧ StmtsFine P r.1.1 ∧
          r.1.2.IsFine P
  | ⟨ts, span⟩, ⟨balanced, wf⟩, hm, σ => by
    let σ1 : Supply := { σ with temporary := σ.temporary + ts.countP Term.isChoice }
    refine ensures_bind (ensures_checks ts σ1) fun ⟨_, σ2⟩ ⟨same, _⟩ => ?_
    subst same
    refine ensures_bind (ensures_terms made _ ts wf hm σ1) fun ⟨⟨prelude, as⟩, σ3⟩ ⟨nts, hp, has, mas⟩ => ?_
    exact ensures_pure ⟨nts, hp, (height?_congr has 0).trans balanced, mas⟩

theorem ensures_optionalExpr (made : ∀ name, P (.variable name false)) :
    ∀ e : Option (Expr Term), OptionalWellFormed e → (∀ m ∈ collectOptional .names e, P m) →
      ∀ σ : Supply, Ensures ((optionalExpr e).run σ) fun r =>
        Numbered σ.block r.2.block (collectOptional .ids e) (numbersOf r.1.1) ∧ StmtsFine P r.1.1 ∧
          ∀ e' ∈ r.1.2, e'.IsFine P
  | none, _, _, σ => by
    exact ensures_pure ⟨.refl _ _, trivial, nofun⟩
  | some e, h, hm, σ => by
    refine ensures_bind (ensures_expr made e h hm σ) fun ⟨⟨prelude, e'⟩, σ1⟩ ⟨ne, hp, he⟩ => ?_
    refine ensures_pure ⟨ne, hp, ?_⟩
    rintro _ ⟨⟩
    exact he

theorem ensures_arms (made : ∀ name, P (.variable name false)) (target : Option String) :
    ∀ as : List (Arm Term), ArmsWellFormed as → (∀ m ∈ collectArms .names as, P m) →
      ∀ σ : Supply, Ensures ((arms target as).run σ) fun r =>
        Numbered σ.block r.2.block (collectArms .ids as) (preparedNumbers r.1) ∧
          (∀ p ∈ r.1, p.IsFine P) ∧ (r.1 = [] → as = [])
  | [], _, _, σ => by
    exact ensures_pure ⟨.refl _ _, by simp, fun _ => rfl⟩
  | .mk condition body :: as, ⟨hc, hb, has⟩, hm, σ => by
    obtain ⟨both, mas⟩ := List.forall_mem_append.mp hm
    obtain ⟨mc, mb⟩ := List.forall_mem_append.mp both
    refine ensures_bind (ensures_expr made condition hc mc σ) ?_
    rintro ⟨⟨prelude, condition'⟩, σ1⟩ ⟨nc, hp, hc'⟩
    refine ensures_bind (ensures_block made target body hb mb σ1) fun ⟨body', σ2⟩ ⟨nb, hb'⟩ => ?_
    refine ensures_bind (ensures_arms made target as has mas σ2) fun ⟨ps, σ3⟩ ⟨nas, hps, _⟩ => ?_
    refine ensures_pure ⟨(nc.append nb).append nas, fun p h => ?_, nofun⟩
    rcases List.mem_cons.mp h with rfl | h
    · exact ⟨hp, hc', hb'⟩
    · exact hps p h

theorem ensures_optionalBlock (made : ∀ name, P (.variable name false)) (target : Option String) :
    ∀ b : Option (Block Term), OtherwiseWellFormed b → (∀ m ∈ collectOtherwise .names b, P m) →
      ∀ σ : Supply, Ensures ((optionalBlock target b).run σ) fun r =>
        Numbered σ.block r.2.block (collectOtherwise .ids b) (otherwiseNumbers r.1) ∧
          OtherwiseEverywhere (Stmt.IsFine P) r.1
  | none, _, _, σ => by
    exact ensures_pure ⟨.refl _ _, trivial⟩
  | some b, h, hm, σ => by
    exact ensures_bind (ensures_block made target b h hm σ) fun ⟨b', σ1⟩ h' => ensures_pure h'

/-- Hoisting hands out new numbers, and a block stays fine. -/
theorem ensures_block (made : ∀ name, P (.variable name false)) (target : Option String) :
    ∀ b : Block Term, b.WellFormed → (∀ m ∈ b.names, P m) → ∀ σ : Supply,
      Ensures ((block target b).run σ) fun r =>
        Numbered σ.block r.2.block b.ids r.1.numbers ∧ r.1.IsFine P
  | .mk id body span, h, hm, σ => by
    refine ensures_bind (ensures_stmts made target body h hm σ) fun ⟨body', σ1⟩ ⟨n, h'⟩ => ?_
    exact ensures_pure ⟨n.cons id, h'⟩

theorem ensures_stmts (made : ∀ name, P (.variable name false)) (target : Option String) :
    ∀ ss : List (Stmt Term), StmtsWellFormed ss → (∀ m ∈ collectStmts .names ss, P m) →
      ∀ σ : Supply, Ensures ((stmts target ss).run σ) fun r =>
        Numbered σ.block r.2.block (collectStmts .ids ss) (numbersOf r.1) ∧ StmtsFine P r.1
  | [], _, _, σ => by
    exact ensures_pure ⟨.refl _ _, trivial⟩
  | s :: ss, ⟨hs, hss⟩, hm, σ => by
    obtain ⟨ms, mss⟩ := List.forall_mem_append.mp hm
    refine ensures_bind (ensures_stmt made _ s hs ms σ) fun ⟨first, σ1⟩ ⟨ns, hf⟩ => ?_
    refine ensures_bind (ensures_stmts made target ss hss mss σ1) fun ⟨others, σ2⟩ ⟨nss, ho⟩ => ?_
    exact ensures_pure ⟨(ns.append nss).perm (.refl _) (.of_eq (numbersOf_append first others).symm),
      stmtsEverywhere_append.mpr ⟨hf, ho⟩⟩

theorem ensures_stmt (made : ∀ name, P (.variable name false)) (target : Option String) :
    ∀ s : Stmt Term, s.WellFormed → (∀ m ∈ s.collect .names, P m) → ∀ σ : Supply,
      Ensures ((stmt target s).run σ) fun r =>
        Numbered σ.block r.2.block (s.collect .ids) (numbersOf r.1) ∧ StmtsFine P r.1
  | .declare name ty init var hidden span, h, hm, σ => by
    have mi := (List.forall_mem_append.mp hm).2
    refine ensures_bind (ensures_optionalExpr made init h mi σ) fun ⟨⟨prelude, init'⟩, σ1⟩ ⟨n, hp, hi⟩ => ?_
    exact ensures_pure (prepared_snoc n hp rfl (isFine_of_optional rfl trivial hi))
  | .assign name binding members value span, h, hm, σ => by
    have mv := (List.forall_mem_append.mp hm).2
    refine ensures_bind (ensures_expr made value h mv σ) fun ⟨⟨prelude, value'⟩, σ1⟩ ⟨n, hp, hv⟩ => ?_
    exact ensures_pure (prepared_snoc n hp rfl (isFine_of_single rfl trivial hv))
  | .eval value span, h, hm, σ => by
    refine ensures_bind (ensures_expr made value h hm σ) fun ⟨⟨prelude, value'⟩, σ1⟩ ⟨n, hp, hv⟩ => ?_
    refine ensures_pure (prepared_snoc n hp ?_ (deliver_isFine target span hv))
    cases target <;> rfl
  | .ret value span, h, hm, σ => by
    refine ensures_bind (ensures_optionalExpr made value h hm σ) fun ⟨⟨prelude, value'⟩, σ1⟩ ⟨n, hp, hv⟩ => ?_
    exact ensures_pure (prepared_snoc n hp rfl (isFine_of_optional rfl trivial hv))
  | .branch as otherwise span, ⟨some_arm, has, ho⟩, hm, σ => by
    obtain ⟨mas, mo⟩ := List.forall_mem_append.mp hm
    refine ensures_bind (ensures_arms made target as has mas σ) fun ⟨ps, σ1⟩ ⟨nas, hps, empty⟩ => ?_
    refine ensures_bind (ensures_optionalBlock made _ otherwise ho mo σ1) fun ⟨rest, σ2⟩ ⟨no, ho'⟩ => ?_
    refine ensures_imp (ensures_branch (mt empty some_arm) hps ho' σ2) fun ⟨inner, σ3⟩ ⟨ni, hi⟩ => ?_
    exact ⟨(nas.append no).trans ni, hi⟩
  | .loop condition body span, ⟨hc, hb⟩, hm, σ => by
    obtain ⟨mc, mb⟩ := List.forall_mem_append.mp hm
    unfold stmt
    rw [StateT.run_bind]
    refine ensures_bind (ensures_expr made condition hc mc σ) ?_
    rintro ⟨⟨prelude, condition'⟩, σ1⟩ ⟨nc, hp, hc'⟩
    rw [StateT.run_bind]
    refine ensures_bind (ensures_block made none body hb mb σ1) fun ⟨body', σ2⟩ ⟨nb, hb'⟩ => ?_
    have both := nc.append nb
    split
    next empty =>
      refine ensures_pure ⟨both.perm (.refl _) (.of_eq ?_),
        ⟨isFine_of_single rfl trivial hc', hb'⟩, trivial⟩
      rw [List.isEmpty_iff.mp empty]
      simp only [numbersOf, Stmt.numbers, List.nil_append, List.append_nil]
    next =>
      rw [StateT.run_bind]
      refine ensures_bind (ensures_guardLoop hp hc' hb' σ2) fun ⟨loop, σ3⟩ ⟨nl, hl⟩ => ?_
      refine ensures_pure ⟨(both.trans nl).perm (.refl _) (.of_eq ?_), hl, trivial⟩
      simp only [numbersOf, List.append_nil]
  | .breakOut amount span, _, _, σ => by
    exact ensures_pure ⟨.refl _ _, ⟨nofun, trivial⟩, trivial⟩
  | .continueLoop span, _, _, σ => by
    exact ensures_pure ⟨.refl _ _, ⟨nofun, trivial⟩, trivial⟩

end

theorem ensures_block_isFine (made : ∀ name, P (.variable name false)) {b : Block Term} (wf : b.WellFormed) (hm : ∀ m ∈ b.names, P m) :
    Ensures (block none b) (Block.IsFine P) :=
  fun σ => ensures_imp (ensures_block made none b wf hm σ) fun _ h => h.2

end Hoist

/-! ## Adding returns -/

namespace Returns

/-- Control leaves by a flow other than falling off the end. -/
def Leaves (flow : Except Error Flow) : Prop := ∃ f, flow = .ok f ∧ f.leaves = true

theorem leaves_ofBranches {flows : List Flow} (h : ∀ f ∈ flows, f.leaves = true) :
    (Flow.ofBranches flows).leaves = true := by
  refine bne_iff_ne.mpr fun falls => ?_
  have := h _ (Flow.ofBranches_eq_falls.mp falls)
  cases this

theorem eq_falls_of_not_leaves {flow : Flow} (h : ¬ flow.leaves = true) : flow = .falls := by
  cases flow with
  | falls => rfl
  | returns | jumps => exact absurd rfl h

variable {s : Stmt τ} {ss : List (Stmt τ)}

/-- The statements before the last one fall through. -/
theorem ofStmts_cons_falls (h : Flow.ofStmts (s :: ss) = .ok .falls) :
    Flow.ofStmt s = .ok .falls ∧ Flow.ofStmts ss = .ok .falls := by
  unfold Flow.ofStmts at h
  cases hs : Flow.ofStmt s with
  | error e =>
    rw [hs] at h
    cases h
  | ok flow =>
    rw [hs] at h
    change (if flow.leaves then _ else Flow.ofStmts ss) = _ at h
    split at h
    next leaves =>
      split at h
      next => cases h
      next =>
        cases h
        cases leaves
    next falls =>
      rw [eq_falls_of_not_leaves falls]
      exact ⟨rfl, h⟩

theorem ofStmts_cons_of_falls (h : Flow.ofStmt s = .ok .falls) :
    Flow.ofStmts (s :: ss) = Flow.ofStmts ss := by
  rw [Flow.ofStmts, h]
  rfl

variable {P : Mention → Prop}

mutual

theorem ensures_block : ∀ b : Block Atom, Ensures (block b) fun b' => b'.numbers = b.numbers ∧
    (b.IsFine P → b'.IsFine P) ∧ (Flow.ofBlock b = .ok .falls → Leaves (Flow.ofBlock b'))
  | .mk id body span => by
    refine ensures_bind (ensures_stmts span body) fun body' ⟨same, rest⟩ => ensures_pure ⟨?_, rest⟩
    rw [Block.numbers, Block.numbers, same]

theorem ensures_stmts (outer : Span) :
    ∀ ss : List (Stmt Atom), Ensures (stmts outer ss) fun ss' => numbersOf ss' = numbersOf ss ∧
      (StmtsFine P ss → StmtsFine P ss') ∧
        (Flow.ofStmts ss = .ok .falls → Leaves (Flow.ofStmts ss'))
  | [] => by
    rintro _ ⟨⟩
  | s :: ss => by
    unfold stmts
    split
    next empty =>
      refine ensures_bind (ensures_last s) fun s' ⟨same, fine, leaves⟩ => ?_
      refine ensures_pure ⟨?_, fun h => ⟨fine h.1, trivial⟩, fun falls => ?_⟩
      · rw [List.isEmpty_iff.mp empty, numbersOf, numbersOf, same, numbersOf, numbersOf]
      · obtain ⟨flow, eq, leaves⟩ := leaves (ofStmts_cons_falls falls).1
        refine ⟨flow, ?_, leaves⟩
        rw [Flow.ofStmts, eq]
        change (if flow.leaves then _ else _) = _
        rw [if_pos leaves]
        rfl
    next =>
      refine ensures_bind (ensures_stmts outer ss) fun ss' ⟨same, fine, leaves⟩ => ?_
      refine ensures_pure ⟨?_, fun h => ⟨h.1, fine h.2⟩, fun falls => ?_⟩
      · rw [numbersOf, numbersOf, same]
      · obtain ⟨first, rest⟩ := ofStmts_cons_falls falls
        rw [ofStmts_cons_of_falls first]
        exact leaves rest

theorem ensures_last :
    ∀ s : Stmt Atom, Ensures (last s) fun s' => s'.numbers = s.numbers ∧
      (s.Everywhere (Stmt.IsFine P) → s'.Everywhere (Stmt.IsFine P)) ∧
        (Flow.ofStmt s = .ok .falls → Leaves (Flow.ofStmt s'))
  | .eval value span => by
    refine ensures_pure ⟨rfl, fun h => ?_, fun _ => ⟨.returns, rfl, rfl⟩⟩
    exact isFine_of_single rfl trivial (h.exprs value List.mem_cons_self)
  | .ret value span => by
    refine ensures_pure ⟨rfl, id, ?_⟩
    rintro ⟨⟩
  | .branch as otherwise span => by
    unfold last
    split
    next => rintro _ ⟨⟩
    next present =>
      refine ensures_bind (ensures_arms as) fun as' ⟨nas, conditions, fine, leave⟩ => ?_
      refine ensures_bind (ensures_optionalBlock otherwise) fun otherwise' ⟨no, fine', leaves⟩ => ?_
      refine ensures_pure ⟨?_, fun h => ⟨⟨?_, ?_⟩, fine h.2.1, fine' h.2.2⟩, fun _ => ?_⟩
      · rw [Stmt.numbers, Stmt.numbers, nas, no]
      · show ∀ e ∈ as'.map Arm.condition, _
        rw [conditions]
        exact h.1.exprs
      · rintro rfl
        exact h.1.hasArm (List.map_eq_nil_iff.mp conditions.symm)
      · obtain ⟨flows, eq, leave⟩ := leave
        have isSome := Option.isSome_iff_ne_none.mpr (mt Option.isNone_iff_eq_none.mpr present)
        obtain ⟨flow, eq', leaves⟩ := leaves isSome
        unfold Flow.ofStmt
        rw [eq, eq']
        refine ⟨_, rfl, leaves_ofBranches ?_⟩
        exact List.forall_mem_append.mpr ⟨leave, List.forall_mem_singleton.mpr leaves⟩
  | .declare .. | .assign .. | .loop .. | .breakOut .. | .continueLoop .. => by
    rintro _ ⟨⟩

theorem ensures_arms :
    ∀ as : List (Arm Atom), Ensures (arms as) fun as' => armNumbers as' = armNumbers as ∧
      as'.map Arm.condition = as.map Arm.condition ∧
      (ArmsEverywhere (Stmt.IsFine P) as → ArmsEverywhere (Stmt.IsFine P) as') ∧
      ∃ flows, Flow.ofArms as' = .ok flows ∧ ∀ f ∈ flows, f.leaves = true
  | [] => by
    exact ensures_pure ⟨rfl, rfl, id, [], rfl, List.forall_mem_nil _⟩
  | .mk condition body :: as => by
    have others (body' : Block Atom) (h : body'.numbers = body.numbers ∧
        (body.IsFine P → body'.IsFine P) ∧ Leaves (Flow.ofBlock body')) :
        Ensures (do return .mk condition body' :: (← arms as)) fun as' =>
          armNumbers as' = armNumbers (.mk condition body :: as) ∧
          as'.map Arm.condition = condition :: as.map Arm.condition ∧
          (ArmsEverywhere (Stmt.IsFine P) (.mk condition body :: as) →
            ArmsEverywhere (Stmt.IsFine P) as') ∧
          ∃ flows, Flow.ofArms as' = .ok flows ∧ ∀ f ∈ flows, f.leaves = true := by
      obtain ⟨same, fine, flow, eq, leaves⟩ := h
      refine ensures_bind (ensures_arms as) ?_
      rintro as' ⟨nas, conditions, fine', flows, eqs, leave⟩
      refine ensures_pure ⟨?_, List.cons_eq_cons.mpr ⟨rfl, conditions⟩, fun h => ⟨fine h.1, fine' h.2⟩,
        flow :: flows, ?_, List.forall_mem_cons.mpr ⟨leaves, leave⟩⟩
      · rw [armNumbers, armNumbers, same, nas]
      · rw [Flow.ofArms, eq, eqs]
        rfl
    refine ensures_bind ensures_self fun flow eq => ?_
    split
    next leaves => exact others body ⟨rfl, id, flow, eq, leaves⟩
    next falls =>
      rw [eq_falls_of_not_leaves falls] at eq
      refine ensures_bind (ensures_imp (ensures_block body) fun body' h => ?_) others
      exact ⟨h.1, h.2.1, h.2.2 eq⟩

theorem ensures_optionalBlock :
    ∀ b : Option (Block Atom), Ensures (optionalBlock b) fun b' =>
      otherwiseNumbers b' = otherwiseNumbers b ∧
      (OtherwiseEverywhere (Stmt.IsFine P) b → OtherwiseEverywhere (Stmt.IsFine P) b') ∧
      (b.isSome = true → ∃ flow, Flow.ofOtherwise b' = .ok (some flow) ∧ flow.leaves = true)
  | none => by
    refine ensures_pure ⟨rfl, id, ?_⟩
    rintro ⟨⟩
  | some b => by
    have leaving (b' : Block Atom) (leaves : Leaves (Flow.ofBlock b')) :
        ∃ flow, Flow.ofOtherwise (some b') = .ok (some flow) ∧ flow.leaves = true := by
      obtain ⟨flow, eq, leaves⟩ := leaves
      refine ⟨flow, ?_, leaves⟩
      rw [Flow.ofOtherwise, eq]
      rfl
    refine ensures_bind ensures_self fun flow eq => ?_
    split
    next leaves => exact ensures_pure ⟨rfl, id, fun _ => leaving b ⟨flow, eq, leaves⟩⟩
    next falls =>
      rw [eq_falls_of_not_leaves falls] at eq
      refine ensures_bind (ensures_block b) fun b' ⟨same, fine, leaves⟩ => ?_
      exact ensures_pure ⟨same, fine, fun _ => leaving b' (leaves eq)⟩

end

/-- A function keeps its blocks, and control leaves its body if it has a result. -/
structure Completed (P : Mention → Prop) (f f' : FunctionItem Atom) : Prop where
  numbers : f'.body.numbers = f.body.numbers
  fine : f.body.IsFine P → f'.body.IsFine P
  named : f'.named = f.named
  leaves : f'.result.any isValueType = true → Leaves (Flow.ofBlock f'.body)

theorem ensures_function (f : FunctionItem Atom) : Ensures (function f) (Completed P f) := by
  refine ensures_bind ensures_self fun flow eq => ?_
  split
  next asked =>
    have falls : flow = .falls := by
      refine eq_falls_of_not_leaves fun leaves => ?_
      rw [leaves] at asked
      simp at asked
    rw [falls] at eq
    refine ensures_bind (ensures_block (P := P) f.body) fun b h => ?_
    exact ensures_pure ⟨h.1, h.2.1, rfl, fun _ => h.2.2 eq⟩
  next not_asked =>
    refine ensures_pure ⟨rfl, id, rfl, fun value => ⟨flow, eq, ?_⟩⟩
    simpa [value] using not_asked

end Returns

/-! ## Files -/

/-- With no further predicate, what is fine is balanced. -/
theorem Block.isFine_iff_isBalanced {b : Block Atom} : b.IsFine (fun _ => True) ↔ b.IsBalanced :=
  ⟨Block.Everywhere.imp fun _ h => ⟨fun e he => (h.exprs e he).balanced, h.hasArm⟩,
    Block.Everywhere.imp fun _ h => ⟨fun e he => ⟨h.exprs e he, fun _ _ _ _ => trivial⟩, h.hasArm⟩⟩

variable {t : FileTree Term}

/-- What becomes of the body of every function becomes of a file. -/
theorem FileTree.ensures_hoist {R : FunctionItem Term → FunctionItem Atom → Prop}
    (h : ∀ f ∈ t.functions, Ensures (Hoist.block none f.body) fun b => R f { f with body := b }) :
    Ensures t.hoist fun t' => t'.name = t.name ∧ Corresponds R Eq Eq t.items t'.items := by
  have items := ensures_mapItemsM (m := Hoist.M) t.items fun f hf =>
    ensures_bind (h f hf) fun b hb => ensures_pure (a := { f with body := b }) hb
  have file : Ensures (t.mapFunctionsM fun f => do
      return { f with body := ← Hoist.block none f.body }) fun t' : FileTree Atom =>
        t'.name = t.name ∧ Corresponds R Eq Eq t.items t'.items :=
    ensures_bind items fun is his => ensures_pure ⟨rfl, his⟩
  exact ensures_bind (file _) fun r hr => ensures_pure hr

/-- Hoisting value-`if`s keeps a file well-formed. -/
theorem FileTree.WellFormed.hoist (h : t.WellFormed) : Ensures t.hoist FileTree.IsBalanced := by
  have bodies (f : FunctionItem Term) (hf : f ∈ t.functions) :=
    Hoist.ensures_block_isFine (fun _ => trivial) (ItemsWellFormed.forall_functions h f hf)
      fun _ _ => trivial
  refine ensures_imp (FileTree.ensures_hoist (R := fun f f' => f'.body.IsFine (fun _ => True) ∧
    f'.named = f.named) fun f hf => ensures_imp (bodies f hf) fun _ fine => ⟨fine, rfl⟩) fun t' same => ?_
  refine same.2.wellFormed (fun f f' hf => ⟨fun _ => Block.isFine_iff_isBalanced.mp hf.1, hf.2⟩) ?_ h
  rintro g _ rfl
  rfl

/-- What holds of hidden variables and of all that a file mentions holds of it after hoisting. -/
theorem FileTree.WellFormed.hoist_isFine (h : t.WellFormed)
    (made : ∀ name, P (.variable name false)) (hm : ∀ f ∈ t.functions, ∀ m ∈ f.body.names, P m) :
    Ensures t.hoist fun t' => ∀ f ∈ t'.functions, f.body.IsFine P := by
  refine ensures_imp (FileTree.ensures_hoist (R := fun _ f => f.body.IsFine P) fun f hf => ?_)
    fun t' same => forall_of_forall₂ same.2.functions
  exact Hoist.ensures_block_isFine made (ItemsWellFormed.forall_functions h f hf) (hm f hf)

/-- Adding returns keeps blocks and what is fine, and makes control leave what has a result. -/
theorem FileTree.ensures_addReturns (P : Mention → Prop) (t : FileTree Atom) :
    Ensures t.addReturns fun t' => Corresponds (Returns.Completed P) Eq Eq t.items t'.items :=
  ensures_bind (ensures_mapItemsM t.items fun f _ => Returns.ensures_function f)
    fun _ same => ensures_pure same

/-- Adding returns keeps a file well-formed. -/
theorem FileTree.IsBalanced.addReturns {t : FileTree Atom} (h : t.IsBalanced) :
    Ensures t.addReturns FileTree.IsBalanced := by
  refine ensures_imp (t.ensures_addReturns fun _ => True) fun t' same => same.wellFormed ?_ ?_ h
  · intro f f' hf
    rw [← Block.isFine_iff_isBalanced, ← Block.isFine_iff_isBalanced]
    exact ⟨hf.fine, hf.named⟩
  · rintro g _ rfl
    rfl

theorem FileTree.addReturns_isFine {t : FileTree Atom} (h : ∀ f ∈ t.functions, f.body.IsFine P) :
    Ensures t.addReturns fun t' => ∀ f ∈ t'.functions, f.body.IsFine P := by
  refine ensures_imp (t.ensures_addReturns P) fun t' same => ?_
  refine forall_of_forall₂ (forall₂_imp_of_mem same.functions fun f hf f' done => ?_)
  exact done.fine (h f hf)

end EbLang
