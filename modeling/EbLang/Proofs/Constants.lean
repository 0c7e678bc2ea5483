import EbLang.Analysis
import Mathlib.Data.Int.Bitwise

/-!
# Exact values of constants

Constants are evaluated in 128 bits.  An expression of integers also has a value among all integers:
division and remainder truncate, a shift multiplies or divides by a power of two, rounding down, and
operators on bits work on two's complement without a first bit.

Evaluation gives exactly this value as long as every value on the way has 128 bits.  Two operators do
not notice when they leave 128 bits: a shift to the left drops bits, and the least integer is its own
negation.  `overflows` tells whether an evaluation comes to such a step.
-/

namespace EbLang.Constant

variable {a : Int}

/-! ## Expressions of integers -/

/-- The binary operators that give integers. -/
inductive IntOp where
  | add | sub | mul | div | rem | and | or | xor | shl | shr

/-- How an operator is written. -/
def IntOp.symbol : IntOp → String
  | add => "+" | sub => "-" | mul => "*" | div => "/" | rem => "%"
  | and => "&" | or => "|" | xor => "^" | shl => "<<" | shr => ">>"

/-- The exact value of an operator, if it has one. -/
def IntOp.exact : IntOp → Int → Int → Option Int
  | add, a, b => some (a + b)
  | sub, a, b => some (a - b)
  | mul, a, b => some (a * b)
  | div, a, b => if b = 0 then none else some (a.tdiv b)
  | rem, a, b => if b = 0 then none else some (a.tmod b)
  | and, a, b => some (a.land b)
  | or, a, b => some (a.lor b)
  | xor, a, b => some (a.xor b)
  | shl, a, b => if 0 ≤ b then some (a * twoPow b.toNat) else none
  | shr, a, b => if 0 ≤ b then some (a.fdiv (twoPow b.toNat)) else none

/-- Whether an operator takes its operands: a shift goes by less than 128 places, and a remainder is
of a quotient that has 128 bits. -/
def IntOp.takes : IntOp → Int → Int → Bool
  | shl, _, b | shr, _, b => decide (b < 128)
  | rem, a, b => inRange128 (a.tdiv b)
  | _, _, _ => true

/-- Whether an operator leaves 128 bits without an error. -/
def IntOp.overflows : IntOp → Int → Int → Bool
  | shl, a, b => decide (0 ≤ b ∧ b < 128) && !inRange128 (a * twoPow b.toNat)
  | _, _, _ => false

/-- An expression of integer literals, negation, reciprocal and binary operators. -/
inductive IntExpr where
  | literal (n : UInt64) (ty : Ty) (span : Span)
  | neg (operand : IntExpr) (span : Span)
  | recip (operand : IntExpr) (span : Span)
  | binary (op : IntOp) (left right : IntExpr) (span : Span)

namespace IntExpr

/-- The steps of an expression. -/
def terms : IntExpr → List Term
  | literal n ty span => [.atom ⟨.literal (.int n.toNat), ty, span⟩]
  | neg e span => e.terms ++ [.atom (.operator "-" 1 span)]
  | recip e span => e.terms ++ [.atom (.operator "/" 1 span)]
  | binary op l r span => l.terms ++ (r.terms ++ [.atom (.operator op.symbol 2 span)])

/-- The exact value, if every operator has one. -/
def value : IntExpr → Option Int
  | literal n _ _ => some n.toNat
  | neg e _ => e.value.map (- ·)
  | recip e _ => e.value.bind (IntOp.exact .div 1)
  | binary op l r _ => l.value.bind fun a => r.value.bind (op.exact a)

/-- The exact value, if all values on the way have 128 bits and operators take their operands. -/
def bounded : IntExpr → Option Int
  | literal n _ _ => some n.toNat
  | neg e _ => (e.bounded.map (- ·)).filter inRange128
  | recip e _ => (e.bounded.bind (IntOp.exact .div 1)).filter inRange128
  | binary op l r _ => l.bounded.bind fun a => r.bounded.bind fun b =>
    (op.exact a b).filter fun v => inRange128 v && op.takes a b

/-- Whether a step of the evaluation leaves 128 bits without an error. -/
def overflows : IntExpr → Bool
  | literal .. => false
  | neg e _ => e.overflows || e.bounded.any fun a => !inRange128 (-a)
  | recip e _ => e.overflows
  | binary op l r _ =>
    l.overflows || l.bounded.any fun a => r.overflows || r.bounded.any (op.overflows a)

/-- What is bounded is exact. -/
theorem value_of_bounded {e : IntExpr} {v : Int} (h : e.bounded = some v) :
    e.value = some v ∧ inRange128 v = true := by
  induction e generalizing v with
  | literal n ty span =>
    cases h
    have := n.toNat_lt
    exact ⟨rfl, decide_eq_true ⟨by omega, by simp [twoPow]; omega⟩⟩
  | neg e span ih =>
    simp only [bounded, Option.filter_eq_some_iff, Option.map_eq_some_iff] at h
    obtain ⟨⟨a, ha, rfl⟩, inside⟩ := h
    exact ⟨by simp [value, (ih ha).1], inside⟩
  | recip e span ih =>
    simp only [bounded, Option.filter_eq_some_iff, Option.bind_eq_some_iff] at h
    obtain ⟨⟨a, ha, eq⟩, inside⟩ := h
    exact ⟨by simp [value, (ih ha).1, eq], inside⟩
  | binary op l r span ihl ihr =>
    simp only [bounded, Option.filter_eq_some_iff, Option.bind_eq_some_iff, Bool.and_eq_true] at h
    obtain ⟨a, ha, b, hb, eq, inside, -⟩ := h
    exact ⟨by simp [value, (ihl ha).1, (ihr hb).1, eq], inside⟩

end IntExpr

/-! ## Bits -/

theorem inRange128_iff : inRange128 a = true ↔ -2 ^ 127 ≤ a ∧ a < 2 ^ 127 := by
  simp only [inRange128, decide_eq_true_eq]
  rfl

theorem getLsbD_bits128 (a : Int) {i : Nat} (h : i < 128) : (bits128 a).getLsbD i = a.testBit i := by
  unfold bits128
  cases a with
  | ofNat n =>
    rw [Int.ofNat_eq_natCast, BitVec.ofInt_natCast, BitVec.getLsbD_ofNat]
    simp [Int.testBit, h]
  | negSucc n =>
    rw [BitVec.ofInt_negSucc_eq_not_ofNat, BitVec.getLsbD_not, BitVec.getLsbD_ofNat]
    simp [Int.testBit, h]

/-- A number is below a power of two if its bits from there on are all the same. -/
theorem lt_two_pow_iff_testBit {n k : Nat} : n < 2 ^ k ↔ ∃ s, ∀ i, k ≤ i → n.testBit i = s := by
  constructor
  · intro h
    refine ⟨false, fun i hi => Nat.testBit_lt_two_pow ?_⟩
    exact Nat.lt_of_lt_of_le h (Nat.pow_le_pow_right Nat.two_pos hi)
  · rintro ⟨s, same⟩
    have far : n.testBit (n + k) = false := Nat.testBit_lt_two_pow
      (Nat.lt_of_lt_of_le n.lt_two_pow_self (Nat.pow_le_pow_right Nat.two_pos (n.le_add_right k)))
    rw [same _ (Nat.le_add_left k n)] at far
    subst far
    exact Nat.lt_pow_two_of_testBit n same

/-- An integer has 128 bits if its bits are all the same from the last of them on. -/
theorem inRange128_iff_testBit : inRange128 a = true ↔ ∃ s, ∀ i, 127 ≤ i → a.testBit i = s := by
  rw [inRange128_iff]
  cases a with
  | ofNat n =>
    refine Iff.trans ?_ (lt_two_pow_iff_testBit (n := n))
    rw [Int.ofNat_eq_natCast]
    omega
  | negSucc n =>
    refine Iff.trans (b := n < 2 ^ 127) (by omega) (lt_two_pow_iff_testBit.trans ?_)
    simp only [Int.testBit, Bool.not_eq_eq_eq_not]
    constructor <;> rintro ⟨s, h⟩ <;> exact ⟨!s, by simpa using h⟩

/-- An operator on the bits of two integers of 128 bits gives the integer with the bits it gives. -/
theorem toInt_bitwise {b v : Int} {x : BitVec 128} (f : Bool → Bool → Bool)
    (ha : inRange128 a = true) (hb : inRange128 b = true)
    (hx : ∀ i, i < 128 → x.getLsbD i = f ((bits128 a).getLsbD i) ((bits128 b).getLsbD i))
    (hv : ∀ i, v.testBit i = f (a.testBit i) (b.testBit i)) : x.toInt = v ∧ inRange128 v = true := by
  have inside : inRange128 v = true := by
    obtain ⟨s, hs⟩ := inRange128_iff_testBit.mp ha
    obtain ⟨r, hr⟩ := inRange128_iff_testBit.mp hb
    refine inRange128_iff_testBit.mpr ⟨f s r, fun i hi => ?_⟩
    rw [hv, hs i hi, hr i hi]
  have bits : x = bits128 v := by
    refine BitVec.eq_of_getLsbD_eq fun i hi => ?_
    rw [hx i hi, getLsbD_bits128 v hi, hv, getLsbD_bits128 a hi, getLsbD_bits128 b hi]
  obtain ⟨low, high⟩ := inRange128_iff.mp inside
  exact ⟨bits ▸ BitVec.toInt_ofInt_eq_self (by decide) low high, inside⟩

/-! ## Operators -/

/-- The value of an operator, or the error. -/
def outcome (v : Option Int) : Except Fault Constant :=
  v.elim (.error .expectedConstantExpression) fun v => .ok (.int v)

@[simp]
theorem outcome_none_bind {α : Type} (f : Constant → Except Fault α) :
    outcome none >>= f = .error .expectedConstantExpression :=
  rfl

@[simp]
theorem outcome_some_bind {α : Type} (v : Int) (f : Constant → Except Fault α) :
    outcome (some v) >>= f = f (.int v) :=
  rfl

theorem checked128_eq (i : Int) : checked128 i = outcome ((some i).filter inRange128) := by
  unfold checked128
  split
  next inside => simp [outcome, Option.filter_some, inside]
  next outside => simp [outcome, Option.filter_some, outside]

theorem wrap128_eq_self {i : Int} (h : inRange128 i = true) : wrap128 i = i := by
  obtain ⟨low, high⟩ := inRange128_iff.mp h
  have : (twoPow 128 : Int) = 2 ^ 128 := rfl
  exact Int.bmod_eq_of_le_mul_two (by omega) (by omega)

theorem inRange128_tmod (b : Int) (h : inRange128 a = true) : inRange128 (a.tmod b) = true := by
  rw [inRange128_iff] at h ⊢
  have size : (a.tmod b).natAbs ≤ a.natAbs := by
    rw [Int.natAbs_tmod]
    exact Nat.mod_le _ _
  rcases Int.lt_or_le a 0 with neg | pos
  · have := Int.tmod_nonneg b (show 0 ≤ -a by omega)
    rw [Int.neg_tmod] at this
    omega
  · omega

theorem inRange128_fdiv (n : Nat) (h : inRange128 a = true) :
    inRange128 (a.fdiv (twoPow n)) = true := by
  rw [inRange128_iff] at h ⊢
  have pos : 0 < (twoPow n : Int) := by exact_mod_cast Nat.two_pow_pos n
  rw [Int.fdiv_eq_ediv_of_nonneg _ (Int.le_of_lt pos)]
  constructor
  · exact Int.le_ediv_of_mul_le pos (by omega)
  · exact Int.ediv_lt_of_lt_mul pos (by omega)

/-- Operands of 128 bits are computed with exactly, unless a shift to the left goes beyond. -/
theorem evalInts_eq (op : IntOp) {b : Int} (ha : inRange128 a = true) (hb : inRange128 b = true)
    (sound : op.overflows a b = false) :
    evalInts op.symbol a b =
      outcome ((op.exact a b).filter fun v => inRange128 v && op.takes a b) := by
  cases op with
  | add | sub | mul => simp [IntOp.symbol, evalInts, IntOp.exact, IntOp.takes, checked128_eq]
  | div =>
    by_cases zero : b = 0 <;>
      simp [IntOp.symbol, evalInts, IntOp.exact, IntOp.takes, checked128_eq, zero, outcome]
  | rem =>
    have inside := inRange128_tmod b ha
    by_cases zero : b = 0 <;> by_cases quotient : inRange128 (a.tdiv b) = true <;>
      simp [IntOp.symbol, evalInts, IntOp.exact, IntOp.takes, zero, quotient, inside,
        outcome, Option.filter_some]
  | and =>
    obtain ⟨eq, inside⟩ := toInt_bitwise (· && ·) ha hb (fun _ _ => BitVec.getLsbD_and)
      (Int.testBit_land a b)
    simp only [IntOp.symbol, evalInts, eq]
    simp [IntOp.exact, IntOp.takes, inside, outcome, Option.filter_some]
  | or =>
    obtain ⟨eq, inside⟩ := toInt_bitwise (· || ·) ha hb (fun _ _ => BitVec.getLsbD_or)
      (Int.testBit_lor a b)
    simp only [IntOp.symbol, evalInts, eq]
    simp [IntOp.exact, IntOp.takes, inside, outcome, Option.filter_some]
  | xor =>
    obtain ⟨eq, inside⟩ := toInt_bitwise (· ^^ ·) ha hb (fun _ _ => BitVec.getLsbD_xor)
      (Int.testBit_lxor a b)
    simp only [IntOp.symbol, evalInts, eq]
    simp [IntOp.exact, IntOp.takes, inside, outcome, Option.filter_some]
  | shl =>
    simp only [IntOp.symbol, evalInts, shift128]
    by_cases low : 0 ≤ b <;> by_cases high : b < 128 <;>
      simp [IntOp.exact, IntOp.takes, outcome, low, high]
    have inside : inRange128 (a * twoPow b.toNat) = true := by
      simpa [IntOp.overflows, low, high] using sound
    simp [wrap128_eq_self inside, inside, Option.filter_some]
  | shr =>
    have inside := inRange128_fdiv b.toNat ha
    by_cases low : 0 ≤ b <;> by_cases high : b < 128 <;>
      simp [IntOp.symbol, evalInts, shift128, IntOp.exact, IntOp.takes, outcome, low, high, inside,
        Option.filter_some]

theorem evalUnary_neg (inside : inRange128 (-a) = true) :
    evalUnary "-" (.int a) = outcome (some (-a)) := by
  simp [evalUnary, wrap128_eq_self inside, outcome]

theorem evalUnary_recip (a : Int) :
    evalUnary "/" (.int a) = outcome ((IntOp.exact .div 1 a).filter inRange128) := by
  have size : (Int.tdiv 1 a).natAbs ≤ 1 := by
    rw [Int.natAbs_tdiv]
    exact Nat.div_le_self 1 _
  have inside : inRange128 (Int.tdiv 1 a) = true := by rw [inRange128_iff]; omega
  by_cases zero : a = 0 <;>
    simp [evalUnary, IntOp.exact, zero, outcome, Option.filter_some, inside]

/-! ## Expressions -/

variable (op : String) (span : Span) (ts : List Term)

/-- A prefix operator takes the value on top of the stack. -/
theorem evalTerms_unary (a : Constant) (stack : List Constant) :
    evalTerms (.atom (.operator op 1 span) :: ts) (a :: stack)
      = evalUnary op a >>= fun v => evalTerms ts (v :: stack) := by
  cases h : evalUnary op a <;> simp [evalTerms, evalTerm, Atom.operator, h] <;> rfl

/-- A binary operator takes the two values on top of the stack. -/
theorem evalTerms_binary (a b : Int) (stack : List Constant) :
    evalTerms (.atom (.operator op 2 span) :: ts) (.int b :: .int a :: stack)
      = evalInts op a b >>= fun v => evalTerms ts (v :: stack) := by
  cases h : evalInts op a b <;> simp [evalTerms, evalTerm, evalBinary, Atom.operator, h] <;> rfl

/-- The steps of an expression leave its value on the stack. -/
theorem evalTerms_append {e : IntExpr} (sound : e.overflows = false) (ts : List Term)
    (stack : List Constant) :
    evalTerms (e.terms ++ ts) stack
      = outcome e.bounded >>= fun v => evalTerms ts (v :: stack) := by
  induction e generalizing ts stack with
  | literal n ty span => rfl
  | neg e span ih =>
    simp only [IntExpr.overflows, Bool.or_eq_false_iff] at sound
    simp only [IntExpr.terms, IntExpr.bounded, List.append_assoc, List.singleton_append, ih sound.1]
    cases h : e.bounded with
    | none => rfl
    | some a =>
      have inside : inRange128 (-a) = true := by simpa [h] using sound.2
      simp [evalTerms_unary, evalUnary_neg inside, Option.filter_some, inside]
  | recip e span ih =>
    simp only [IntExpr.terms, IntExpr.bounded, List.append_assoc, List.singleton_append, ih sound]
    cases e.bounded with
    | none => rfl
    | some a => simp [evalTerms_unary, evalUnary_recip]
  | binary op l r span ihl ihr =>
    simp only [IntExpr.overflows, Bool.or_eq_false_iff] at sound
    simp only [IntExpr.terms, IntExpr.bounded, List.append_assoc, List.singleton_append,
      ihl sound.1]
    cases hl : l.bounded with
    | none => rfl
    | some a =>
      obtain ⟨soundr, here⟩ : r.overflows = false ∧ r.bounded.any (op.overflows a) = false := by
        simpa [hl] using sound.2
      simp only [outcome_some_bind, Option.bind_some, ihr soundr]
      cases hr : r.bounded with
      | none => rfl
      | some b =>
        have eq := evalInts_eq op (IntExpr.value_of_bounded hl).2 (IntExpr.value_of_bounded hr).2
          (by simpa [hr] using here)
        simp [evalTerms_binary, eq]

/-- An expression that leaves 128 bits at no left shift and at no negation has its exact value, or
is refused: where it has no exact value, or a value on the way is too large. -/
theorem eval_eq_bounded (e : IntExpr) (span : Span) (sound : e.overflows = false) :
    eval ⟨e.terms, span⟩ = e.bounded.elim (.error .expectedConstantExpression) (.ok <| .int ·)
      ∧ ∀ v, e.bounded = some v → e.value = some v ∧ inRange128 v = true := by
  refine ⟨?_, fun v => IntExpr.value_of_bounded⟩
  have run := evalTerms_append sound [] []
  rw [List.append_nil] at run
  simp only [eval, run]
  cases e.bounded <;> rfl

/-- The largest integer of 128 bits is computed from literals of 64. -/
theorem eval_largest :
    let int (n : UInt64) : IntExpr := .literal n (.ofPrim .i32) .null
    let half : IntExpr := .binary .shl (int 1) (int 126) .null
    let e : IntExpr := .binary .add (.binary .sub half (int 1) .null) half .null
    e.overflows = false ∧ eval ⟨e.terms, .null⟩ = .ok (.int (twoPow 127 - 1)) :=
  ⟨by decide +kernel, (eval_eq_bounded _ _ (by decide +kernel)).1.trans
    (congrArg outcome (by decide +kernel : _ = some (twoPow 127 - 1 : Int)))⟩

/-- One step further the value is the least integer of 128 bits, and not refused. -/
theorem eval_wraps :
    let int (n : UInt64) : IntExpr := .literal n (.ofPrim .i32) .null
    let e : IntExpr := .binary .shl (int 1) (int 127) .null
    eval ⟨e.terms, .null⟩ = .ok (.int (-twoPow 127)) ∧ e.value = some (twoPow 127 : Int)
      ∧ e.bounded = none :=
  ⟨congrArg (Except.ok ∘ int) (by decide +kernel : wrap128 (1 * twoPow 127) = -twoPow 127),
    by decide +kernel, by decide +kernel⟩

end EbLang.Constant
