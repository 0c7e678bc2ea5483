import EbLang.Proofs.Outcome
import EbLang.Tree.Map

/-!
# Balanced postfix sequences

Every step of a postfix sequence takes some values from a stack and puts one back.  A sequence is
balanced if no step finds too few values and exactly one is left.  A tree is well-formed if all its
expressions are balanced, those inside value-`if`s included, and every `if` has a condition; that an
`if` has as many blocks as conditions, or one more, is how arms are built.  Without value-`if`s it is
enough to look at every statement, which is what `Everywhere` does.

A sequence is usually looked at from some height of the stack, so the lemmas are about `Raises`: the
steps find their operands among their own values and leave a given number more than there were.
-/

namespace EbLang

variable {τ : Type}
variable {P : Stmt τ → Prop}

/-! ## Heights -/

/-- How many values an atom takes. -/
def Atom.takes (a : Atom) : Nat :=
  match a.kind with
  | .literal _ | .var _ _ => 0
  | .call c => c.argCount
  | .member _ => 1

/-- How many values a term takes. -/
def Term.takes : Term → Nat
  | .atom a => a.takes
  | .choice .. => 0

/-- The height of the stack after some steps, none if a step does not find its operands. -/
def height? (takes : τ → Nat) : Nat → List τ → Option Nat
  | n, [] => some n
  | n, t :: ts => if takes t ≤ n then height? takes (n - takes t + 1) ts else none

/-- Every step finds its operands, and one value is left. -/
def Balanced (takes : τ → Nat) (ts : List τ) : Prop := height? takes 0 ts = some 1

instance (takes : τ → Nat) (ts : List τ) : Decidable (Balanced takes ts) :=
  inferInstanceAs (Decidable (height? takes 0 ts = some 1))

section Heights

variable {takes : τ → Nat}
variable {ts : List τ}

theorem height?_append (ts us : List τ) :
    ∀ n, height? takes n (ts ++ us) = (height? takes n ts).bind fun m => height? takes m us := by
  induction ts with
  | nil =>
    intro n
    rfl
  | cons t ts ih =>
    intro n
    simp only [List.cons_append, height?]
    split
    · exact ih _
    · rfl

/-- Values further down the stack are left alone. -/
theorem height?_add {n m : Nat} (k : Nat) (h : height? takes n ts = some m) :
    height? takes (n + k) ts = some (m + k) := by
  induction ts generalizing n with
  | nil =>
    simp only [height?, Option.some.injEq] at h ⊢
    omega
  | cons t ts ih =>
    simp only [height?] at h ⊢
    split at h
    next enough =>
      rw [if_pos (by omega)]
      have := ih h
      rwa [show n - takes t + 1 + k = n + k - takes t + 1 by omega] at this
    next => cases h

variable {us : List τ} {t : τ}

/-- A step that finds its operands in a sequence finds them at its place. -/
theorem takes_le_of_height? {n m : Nat} (h : height? takes n (ts ++ t :: us) = some m) :
    ∃ k, height? takes n ts = some k ∧ takes t ≤ k := by
  rw [height?_append] at h
  obtain ⟨k, hk, h⟩ := Option.bind_eq_some_iff.mp h
  refine ⟨k, hk, ?_⟩
  simp only [height?] at h
  split at h
  next enough => exact enough
  next => cases h

/-- The steps find their operands among their own values and leave `k` more than there were. -/
def Raises (takes : τ → Nat) (k : Nat) (ts : List τ) : Prop := height? takes 0 ts = some k

theorem Raises.height? {k : Nat} (h : Raises takes k ts) (n : Nat) :
    height? takes n ts = some (n + k) := by
  have := height?_add n h
  rwa [Nat.zero_add, Nat.add_comm k n] at this

theorem raises_nil : Raises takes 0 ([] : List τ) := rfl

theorem Raises.append {j k : Nat} (hts : Raises takes j ts)
    (hus : Raises takes k us) : Raises takes (j + k) (ts ++ us) := by
  unfold Raises
  rw [height?_append, hts]
  exact hus.height? j

/-- A step that takes all values leaves one. -/
theorem Raises.snoc {k : Nat} (hts : Raises takes k ts)
    (ht : takes t = k) : Raises takes 1 (ts ++ [t]) := by
  unfold Raises
  rw [height?_append, hts]
  simp [EbLang.height?, ht]

theorem raises_singleton (ht : takes t = 0) : Raises takes 1 [t] :=
  raises_nil.snoc ht

end Heights

/-! ## Well-formed trees -/

mutual

/-- Every expression in a term is balanced, and every `if` in it has a condition. -/
def Term.WellFormed : Term → Prop
  | .atom _ => True
  | .choice arms otherwise _ => arms ≠ [] ∧ ArmsWellFormed arms ∧ OtherwiseWellFormed otherwise

def TermsWellFormed : List Term → Prop
  | [] => True
  | t :: ts => t.WellFormed ∧ TermsWellFormed ts

/-- The expression is balanced, and so are those inside it. -/
def Expr.WellFormed : Expr Term → Prop
  | ⟨ts, _⟩ => Balanced Term.takes ts ∧ TermsWellFormed ts

def OptionalWellFormed : Option (Expr Term) → Prop
  | none => True
  | some e => e.WellFormed

/-- All conditions and bodies are well-formed. -/
def ArmsWellFormed : List (Arm Term) → Prop
  | [] => True
  | .mk condition body :: arms => condition.WellFormed ∧ body.WellFormed ∧ ArmsWellFormed arms

/-- A last branch that is there is well-formed. -/
def OtherwiseWellFormed : Option (Block Term) → Prop
  | none => True
  | some body => body.WellFormed

def Block.WellFormed : Block Term → Prop
  | .mk _ body _ => StmtsWellFormed body

/-- All statements are well-formed. -/
def StmtsWellFormed : List (Stmt Term) → Prop
  | [] => True
  | s :: ss => s.WellFormed ∧ StmtsWellFormed ss

/-- All expressions of the statement are balanced, and every `if` in it has a condition. -/
def Stmt.WellFormed : Stmt Term → Prop
  | .declare _ _ init _ _ _ => OptionalWellFormed init
  | .assign _ _ _ value _ => value.WellFormed
  | .eval value _ => value.WellFormed
  | .ret value _ => OptionalWellFormed value
  | .branch arms otherwise _ => arms ≠ [] ∧ ArmsWellFormed arms ∧ OtherwiseWellFormed otherwise
  | .loop condition body _ => condition.WellFormed ∧ body.WellFormed
  | .breakOut _ _ => True
  | .continueLoop _ => True

end

theorem termsWellFormed_append {ts us : List Term} :
    TermsWellFormed (ts ++ us) ↔ TermsWellFormed ts ∧ TermsWellFormed us := by
  induction ts with
  | nil => simp [TermsWellFormed]
  | cons t ts ih => simp [TermsWellFormed, ih, and_assoc]

theorem height?_congr {σ : Type} {takes : τ → Nat} {takes' : σ → Nat} :
    ∀ {ts : List τ} {us : List σ}, ts.map takes = us.map takes' →
      ∀ n, height? takes n ts = height? takes' n us
  | [], [], _, _ => rfl
  | t :: ts, u :: us, h, n => by
    obtain ⟨ht, hts⟩ := List.cons_eq_cons.mp h
    simp only [height?, ht, height?_congr hts]

/-- A step followed by some steps that take one value each. -/
def Extends (as : List Atom) (a : Atom) : Prop :=
  ∃ first others, as = first :: others ∧ first.takes = a.takes ∧ ∀ m ∈ others, m.takes = 1

variable {as : List Atom} {b : Block τ}

theorem height?_unary (h : ∀ a ∈ as, a.takes = 1) (n : Nat) :
    height? Atom.takes (n + 1) as = some (n + 1) := by
  induction as with
  | nil => rfl
  | cons a as ih =>
    rw [height?, h a List.mem_cons_self, if_pos (by omega), Nat.add_sub_cancel]
    exact ih fun a ha => h a (List.mem_cons_of_mem _ ha)

theorem height?_flatten {ass : List (List Atom)}
    (h : List.Forall₂ (fun a bs => Extends bs a) as ass) :
    ∀ n, height? Atom.takes n ass.flatten = height? Atom.takes n as := by
  induction h with
  | nil =>
    intro n
    rfl
  | @cons a bs as ass hab _ ih =>
    intro n
    obtain ⟨first, others, rfl, takes, unary⟩ := hab
    rw [List.flatten_cons, height?_append]
    simp only [height?, takes]
    split
    · rw [height?_unary unary, Option.bind_some, ih]
    · rfl

/-! ## Trees without value-`if`s -/

mutual

/-- A statement and all statements inside it satisfy a predicate. -/
def Stmt.Everywhere (P : Stmt τ → Prop) : Stmt τ → Prop
  | .branch arms otherwise span =>
    P (.branch arms otherwise span) ∧ ArmsEverywhere P arms ∧ OtherwiseEverywhere P otherwise
  | .loop condition body span => P (.loop condition body span) ∧ body.Everywhere P
  | .declare name ty init var hidden span => P (.declare name ty init var hidden span)
  | .assign target binding members value span => P (.assign target binding members value span)
  | .eval value span => P (.eval value span)
  | .ret value span => P (.ret value span)
  | .breakOut amount span => P (.breakOut amount span)
  | .continueLoop span => P (.continueLoop span)

/-- All statements in the bodies of some arms satisfy a predicate. -/
def ArmsEverywhere (P : Stmt τ → Prop) : List (Arm τ) → Prop
  | [] => True
  | .mk _ body :: arms => body.Everywhere P ∧ ArmsEverywhere P arms

/-- All statements in a last branch satisfy a predicate. -/
def OtherwiseEverywhere (P : Stmt τ → Prop) : Option (Block τ) → Prop
  | none => True
  | some body => body.Everywhere P

/-- All statements in a block satisfy a predicate. -/
def Block.Everywhere (P : Stmt τ → Prop) : Block τ → Prop
  | .mk _ body _ => StmtsEverywhere P body

/-- Some statements and all statements inside them satisfy a predicate. -/
def StmtsEverywhere (P : Stmt τ → Prop) : List (Stmt τ) → Prop
  | [] => True
  | s :: ss => s.Everywhere P ∧ StmtsEverywhere P ss

end

theorem stmtsEverywhere_append {ss ts : List (Stmt τ)} :
    StmtsEverywhere P (ss ++ ts) ↔ StmtsEverywhere P ss ∧ StmtsEverywhere P ts := by
  induction ss with
  | nil => simp [StmtsEverywhere]
  | cons s ss ih => simp [StmtsEverywhere, ih, and_assoc]

mutual

/-- A statement and the statements inside it. -/
def Stmt.statements : Stmt τ → List (Stmt τ)
  | .branch arms otherwise span =>
    .branch arms otherwise span :: (armStatements arms ++ otherwiseStatements otherwise)
  | .loop condition body span => .loop condition body span :: body.statements
  | .declare name ty init var hidden span => [.declare name ty init var hidden span]
  | .assign target binding members value span => [.assign target binding members value span]
  | .eval value span => [.eval value span]
  | .ret value span => [.ret value span]
  | .breakOut amount span => [.breakOut amount span]
  | .continueLoop span => [.continueLoop span]

/-- The statements in the bodies of some arms. -/
def armStatements : List (Arm τ) → List (Stmt τ)
  | [] => []
  | .mk _ body :: arms => body.statements ++ armStatements arms

/-- The statements of a last branch. -/
def otherwiseStatements : Option (Block τ) → List (Stmt τ)
  | none => []
  | some body => body.statements

/-- The statements of a block, those inside them included. -/
def Block.statements : Block τ → List (Stmt τ)
  | .mk _ body _ => statementsOf body

/-- Some statements and the statements inside them. -/
def statementsOf : List (Stmt τ) → List (Stmt τ)
  | [] => []
  | s :: ss => s.statements ++ statementsOf ss

end

mutual

theorem Stmt.everywhere_iff : ∀ {s : Stmt τ}, s.Everywhere P ↔ ∀ t ∈ s.statements, P t
  | .branch .. => by
    rw [Stmt.Everywhere, Stmt.statements, armsEverywhere_iff, otherwiseEverywhere_iff,
      List.forall_mem_cons, List.forall_mem_append]
  | .loop .. => by rw [Stmt.Everywhere, Stmt.statements, Block.everywhere_iff, List.forall_mem_cons]
  | .declare .. | .assign .. | .eval .. | .ret .. | .breakOut .. | .continueLoop .. => by
    rw [Stmt.Everywhere, Stmt.statements, List.forall_mem_singleton]

theorem armsEverywhere_iff :
    ∀ {arms : List (Arm τ)}, ArmsEverywhere P arms ↔ ∀ t ∈ armStatements arms, P t
  | [] => by simp [ArmsEverywhere, armStatements]
  | .mk .. :: _ => by
    rw [ArmsEverywhere, armStatements, Block.everywhere_iff, armsEverywhere_iff,
      List.forall_mem_append]

theorem otherwiseEverywhere_iff :
    ∀ {b : Option (Block τ)}, OtherwiseEverywhere P b ↔ ∀ t ∈ otherwiseStatements b, P t
  | none => by simp [OtherwiseEverywhere, otherwiseStatements]
  | some _ => by rw [OtherwiseEverywhere, otherwiseStatements, Block.everywhere_iff]

/-- What holds everywhere in a block holds of its statements and those inside them. -/
theorem Block.everywhere_iff : ∀ {b : Block τ}, b.Everywhere P ↔ ∀ t ∈ b.statements, P t
  | .mk .. => by rw [Block.Everywhere, Block.statements, stmtsEverywhere_iff]

theorem stmtsEverywhere_iff :
    ∀ {ss : List (Stmt τ)}, StmtsEverywhere P ss ↔ ∀ t ∈ statementsOf ss, P t
  | [] => by simp [StmtsEverywhere, statementsOf]
  | _ :: _ => by
    rw [StmtsEverywhere, statementsOf, Stmt.everywhere_iff, stmtsEverywhere_iff,
      List.forall_mem_append]

end

theorem Block.Everywhere.imp {Q : Stmt τ → Prop} (h : ∀ s, P s → Q s)
    (all : b.Everywhere P) : b.Everywhere Q :=
  Block.everywhere_iff.mpr fun t there => h t (Block.everywhere_iff.mp all t there)

theorem Block.Everywhere.body (h : b.Everywhere P) : StmtsEverywhere P b.body := by
  cases b
  exact h

/-- The bodies of arms put together from conditions and bodies. -/
theorem armsEverywhere_zipWith :
    ∀ {conditions : List (Expr τ)} {bodies : List (Block τ)}, (∀ b ∈ bodies, b.Everywhere P) →
      ArmsEverywhere P (List.zipWith .mk conditions bodies)
  | [], _, _ => by
    exact trivial
  | _ :: _, [], _ => trivial
  | c :: cs, b :: bs, h =>
    ⟨h b List.mem_cons_self, armsEverywhere_zipWith fun b hb => h b (List.mem_cons_of_mem _ hb)⟩

/-- The expressions of a statement itself, without those of statements inside it. -/
def Stmt.exprs : Stmt τ → List (Expr τ)
  | .declare _ _ init _ _ _ => init.toList
  | .assign _ _ _ value _ => [value]
  | .eval value _ => [value]
  | .ret value _ => value.toList
  | .branch arms _ _ => arms.map Arm.condition
  | .loop condition _ _ => [condition]
  | .breakOut _ _ => []
  | .continueLoop _ => []

/-- What the variable that a statement writes is bound to. -/
def Stmt.binding? : Stmt τ → Option Binding
  | .assign _ binding _ _ _ => binding
  | _ => none

/-- An `if` has a condition. -/
def Stmt.HasArm : Stmt τ → Prop
  | .branch arms _ _ => arms ≠ []
  | _ => True

/-- The expressions of a statement are balanced, and it has a condition if it is an `if`. -/
structure Stmt.IsBalanced (s : Stmt Atom) : Prop where
  exprs : ∀ e ∈ s.exprs, Balanced Atom.takes e.terms
  hasArm : s.HasArm

/-- All expressions of a block are balanced, and every `if` in it has a condition. -/
def Block.IsBalanced (b : Block Atom) : Prop := b.Everywhere Stmt.IsBalanced

/-- All statements, and those inside them, are balanced. -/
abbrev StmtsBalanced (ss : List (Stmt Atom)) : Prop := StmtsEverywhere Stmt.IsBalanced ss

theorem isBalanced_of_single {s : Stmt Atom} {e : Expr Atom} (exprs : s.exprs = [e])
    (hasArm : s.HasArm) (he : Balanced Atom.takes e.terms) : s.IsBalanced where
  exprs e' he' := by
    rw [exprs] at he'
    cases List.mem_singleton.mp he'
    exact he
  hasArm := hasArm

theorem isBalanced_of_optional {s : Stmt Atom} {e : Option (Expr Atom)} (exprs : s.exprs = e.toList)
    (hasArm : s.HasArm) (he : ∀ e' ∈ e, Balanced Atom.takes e'.terms) : s.IsBalanced where
  exprs e' he' := by
    rw [exprs] at he'
    exact he e' (Option.mem_toList.mp he')
  hasArm := hasArm

theorem map_condition_zipWith {conditions : List (Expr τ)} {bodies : List (Block τ)}
    (length : conditions.length = bodies.length) :
    (List.zipWith Arm.mk conditions bodies).map Arm.condition = conditions := by
  induction conditions generalizing bodies with
  | nil => rfl
  | cons c cs ih =>
    cases bodies with
    | nil => cases length
    | cons b bs => exact congrArg (c :: ·) (ih (Nat.succ.inj length))

/-! ## Well-formed files -/

mutual

/-- The body of every function satisfies a predicate, and defaults and first values are balanced. -/
def Item.WellFormed (P : Block τ → Prop) : Item τ → Prop
  | .function f => P f.body ∧ ∀ n ∈ f.named, OptionalWellFormed n.default
  | .global g => g.init.WellFormed
  | .submodule _ items _ _ _ => ItemsWellFormed P items
  | .imports _ | .struct _ => True

def ItemsWellFormed (P : Block τ → Prop) : List (Item τ) → Prop
  | [] => True
  | i :: is => i.WellFormed P ∧ ItemsWellFormed P is

end

/-- Every expression of a file is balanced, and every `if` has a condition. -/
def FileTree.WellFormed (t : FileTree Term) : Prop := ItemsWellFormed Block.WellFormed t.items

/-- Every expression of a file without value-`if`s in its functions is balanced, and every `if` has
a condition. -/
def FileTree.IsBalanced (t : FileTree Atom) : Prop := ItemsWellFormed Block.IsBalanced t.items

end EbLang
