import EbLang.Analysis
import EbLang.Proofs.Outcome
import Mathlib.Data.Nat.Digits.Defs

/-!
# Integers in source text

An integer is written in a radix: its digits, as many zeros before them as one likes, letters of either
case, underscores anywhere, and a suffix.  However it is written, reading gives the number, or
refuses it for exceeding what the suffix admits.  A number has no largest length.

What makes the parts of a text tell themselves apart is that no integer suffix begins with a digit of
any radix, with a point, with the letter of an exponent or with that of a radix.
-/

namespace EbLang.Number

/-- A base, with how its numbers begin. -/
inductive Radix where
  | plain
  | binary
  | quaternary
  | octal
  | decimal
  | hexadecimal

namespace Radix

def base : Radix → Nat
  | binary => 2
  | quaternary => 4
  | octal => 8
  | plain | decimal => 10
  | hexadecimal => 16

def start : Radix → List Char
  | plain => []
  | binary => ['0', 'b']
  | quaternary => ['0', 'q']
  | octal => ['0', 'o']
  | decimal => ['0', 'd']
  | hexadecimal => ['0', 'x']

theorem base_bounds (r : Radix) : 1 < r.base ∧ r.base ≤ 16 := by
  cases r <;> decide

end Radix

/-- A character for a digit, in either case. -/
def IsDigit (d : Nat) (c : Char) : Prop := c = Nat.digitChar d ∨ c = (Nat.digitChar d).toUpper

/-- A row of digits is that of a number, with zeros before it. -/
def Writes (base n : Nat) (ds : List Char) : Prop :=
  ds ≠ [] ∧ ∃ zeros, List.Forall₂ IsDigit (List.replicate zeros 0 ++ (Nat.digits base n).reverse) ds

/-- A text is a spelling of a number with a suffix.  Underscores mean nothing. -/
def Spelling (r : Radix) (n : Nat) (suffix : Suffix) (text : String) : Prop :=
  ∃ ds, Writes r.base n ds ∧
    text.toList.filter (· != '_') = r.start ++ (ds ++ suffix.spelling.toList)

/-! ## Digits -/

variable {base d n : Nat} {c : Char} {ds : List Char} {suffix : Suffix}

theorem digitValue?_of_isDigit (small : d < 16) (h : IsDigit d c) : digitValue? c = some d := by
  have both : ∀ d < 16, digitValue? (Nat.digitChar d) = some d ∧
      digitValue? (Nat.digitChar d).toUpper = some d := by decide
  rcases h with rfl | rfl
  · exact (both d small).1
  · exact (both d small).2

theorem isDigit_of_isDigit (small : d < 10) (h : IsDigit d c) : c.isDigit = true := by
  have both : ∀ d < 10, (Nat.digitChar d).isDigit = true ∧
      (Nat.digitChar d).toUpper.isDigit = true := by decide
  rcases h with rfl | rfl
  · exact (both d small).1
  · exact (both d small).2

theorem digits_small (base_two : 1 < base) (zeros : Nat) :
    ∀ d ∈ List.replicate zeros 0 ++ (Nat.digits base n).reverse, d < base := by
  intro d there
  rcases List.mem_append.mp there with zero | digit
  · rw [List.eq_of_mem_replicate zero]
    omega
  · exact Nat.digits_lt_base base_two (List.mem_reverse.mp digit)

theorem Writes.forall_digit (base_two : 1 < base) (h : Writes base n ds) :
    ∀ c ∈ ds, ∃ d < base, IsDigit d c := by
  obtain ⟨-, zeros, digits⟩ := h
  refine forall_of_forall₂ (forall₂_imp_of_mem digits fun d there c isDigit => ?_)
  exact ⟨d, digits_small base_two zeros d there, isDigit⟩

/-- The value of a row of digits is that of the numbers they stand for. -/
theorem foldl_digits {vs : List Nat} (small : ∀ d ∈ vs, d < 16)
    (h : List.Forall₂ IsDigit vs ds) (n : Nat) :
    ds.foldl (fun n c => n * base + (digitValue? c).getD 0) n =
      vs.foldl (fun n d => n * base + d) n := by
  induction h generalizing n with
  | nil => rfl
  | cons first _ ih =>
    rw [List.forall_mem_cons] at small
    rw [List.foldl_cons, List.foldl_cons, digitValue?_of_isDigit small.1 first]
    exact ih small.2 _

theorem foldl_zeros (zeros : Nat) :
    (List.replicate zeros 0).foldl (fun n d => n * base + d) 0 = 0 := by
  induction zeros with
  | zero => rfl
  | succ zeros ih => rwa [List.replicate_succ, List.foldl_cons, Nat.zero_mul]

/-- A row of digits is worth the number it is written for. -/
theorem Writes.ofDigits_eq (base_two : 1 < base) (sixteen : base ≤ 16) (h : Writes base n ds) :
    ofDigits base ds = n := by
  obtain ⟨-, zeros, digits⟩ := h
  have small : ∀ d ∈ List.replicate zeros 0 ++ (Nat.digits base n).reverse, d < 16 :=
    fun d there => Nat.lt_of_lt_of_le (digits_small base_two zeros d there) sixteen
  rw [ofDigits, foldl_digits small digits, List.foldl_append, foldl_zeros, List.foldl_reverse]
  have horner := Nat.ofDigits_digits base n
  rw [Nat.ofDigits_eq_foldr] at horner
  simpa only [Nat.cast_id, Nat.add_comm, Nat.mul_comm] using horner

/-! ## Suffixes -/

theorem ofSpelling?_spelling (suffix : Suffix) :
    Suffix.ofSpelling? suffix.spelling.toList = some suffix := by
  cases suffix <;> decide

theorem head_spelling (integer : suffix.isFloat = false) :
    ∀ c ∈ suffix.spelling.toList.head?, c = 'i' ∨ c = 'u' := by
  cases suffix with
  | f32 | f64 | float => cases integer
  | _ => simp [Suffix.spelling]

/-- Digits are taken up to the suffix. -/
theorem span_digits {p : Char → Bool} (digits : ∀ c ∈ ds, p c = true) (apart : p 'i' = false)
    (apart' : p 'u' = false) (integer : suffix.isFloat = false) :
    (ds ++ suffix.spelling.toList).takeWhile p = ds ∧
      (ds ++ suffix.spelling.toList).dropWhile p = suffix.spelling.toList := by
  rw [List.takeWhile_append_of_pos digits, List.dropWhile_append_of_pos digits]
  have first := head_spelling integer
  cases letters : suffix.spelling.toList with
  | nil => exact ⟨List.append_nil ds, rfl⟩
  | cons c cs =>
    rw [letters] at first
    have stops : ¬ p c = true := by
      rcases first c rfl with rfl | rfl
      · rw [apart]
        exact Bool.false_ne_true
      · rw [apart']
        exact Bool.false_ne_true
    rw [List.takeWhile_cons_of_neg stops, List.dropWhile_cons_of_neg stops]
    exact ⟨List.append_nil ds, rfl⟩

/-! ## Reading -/

/-- The number, if the suffix admits it. -/
def admitted (text : String) (n : Nat) (suffix : Suffix) : Except Fault Number :=
  if n ≤ suffix.limit then .ok ⟨.int n, suffix⟩ else .error (.integerOutOfRange text)

theorem ofIntegerDigits_eq (text : String) (some : ds ≠ []) (value : ofDigits base ds = n) :
    ofIntegerDigits text base ds suffix = admitted text n suffix := by
  unfold ofIntegerDigits admitted
  simp only [value, List.isEmpty_eq_false_iff.mpr some, Bool.false_or]
  by_cases within : n ≤ suffix.limit
  · rw [if_pos within, if_neg (by simpa using within)]
  · rw [if_neg within, if_pos (by simpa using within)]

theorem readBased_eq (text : String) (r : Radix) (integer : suffix.isFloat = false)
    (h : Writes r.base n ds) :
    readBased text r.base (ds ++ suffix.spelling.toList) = admitted text n suffix := by
  obtain ⟨two, sixteen⟩ := r.base_bounds
  have digits : ∀ c ∈ ds, isDigitOf r.base c = true := by
    intro c there
    obtain ⟨d, small, isDigit⟩ := h.forall_digit two c there
    rw [isDigitOf, digitValue?_of_isDigit (Nat.lt_of_lt_of_le small sixteen) isDigit]
    exact decide_eq_true small
  have apart : isDigitOf r.base 'i' = false ∧ isDigitOf r.base 'u' = false := by
    cases r <;> decide
  obtain ⟨taken, left⟩ := span_digits digits apart.1 apart.2 integer
  unfold readBased
  simp only [taken, left, ofSpelling?_spelling, integer, Bool.false_eq_true, if_false]
  exact ofIntegerDigits_eq text h.1 (h.ofDigits_eq two sixteen)

theorem readDecimal_eq (digits : ∀ c ∈ ds, c.isDigit = true) (integer : suffix.isFloat = false) :
    readDecimal (ds ++ suffix.spelling.toList) = ⟨ds, none, none, suffix.spelling.toList⟩ := by
  obtain ⟨taken, left⟩ := span_digits digits (by decide) (by decide) integer
  have point : (suffix.spelling.toList.head? == some '.') = false := by
    cases suffix <;> decide
  have exponent : readExponent? suffix.spelling.toList = none := by
    cases suffix <;> decide
  unfold readDecimal
  simp only [taken, left, point, Bool.false_eq_true, if_false, exponent]

theorem readPlain_eq (text : String) (integer : suffix.isFloat = false) (h : Writes 10 n ds) :
    readPlain text (ds ++ suffix.spelling.toList) = admitted text n suffix := by
  have digits : ∀ c ∈ ds, c.isDigit = true := by
    intro c there
    obtain ⟨d, small, isDigit⟩ := h.forall_digit (by decide) c there
    exact isDigit_of_isDigit small isDigit
  unfold readPlain
  simp only [readDecimal_eq digits integer, ofSpelling?_spelling, integer, Bool.false_eq_true,
    if_false, Decimal.isFloat, Option.isSome_none, Bool.or_self]
  exact ofIntegerDigits_eq text h.1 (h.ofDigits_eq (by decide) (by decide))

/-- Plain digits are not taken for a prefix. -/
theorem splitBase?_plain (integer : suffix.isFloat = false) (h : Writes 10 n ds) :
    splitBase? (ds ++ suffix.spelling.toList) = none := by
  have letters : ∀ c ∈ suffix.spelling.toList.head?, base? c = none := by
    intro c first
    rcases head_spelling integer c first with rfl | rfl <;> rfl
  have digits : ∀ c ∈ ds, base? c = none := by
    have both : ∀ d < 10, base? (Nat.digitChar d) = none ∧ base? (Nat.digitChar d).toUpper = none := by
      decide
    intro c there
    obtain ⟨d, small, rfl | rfl⟩ := h.forall_digit (by decide) c there
    · exact (both d small).1
    · exact (both d small).2
  have second : ∀ c ∈ (ds ++ suffix.spelling.toList).tail.head?, base? c = none := by
    cases ds with
    | nil => exact absurd rfl h.1
    | cons _ ds =>
      cases ds with
      | nil => exact letters
      | cons c _ => simpa using digits c (by simp)
  unfold splitBase?
  split
  next c body whole => rw [second c (by rw [whole]; rfl), Option.map_none]
  next => rfl

/-- However an integer is written, it is read as that integer, if its suffix admits it. -/
theorem read_spelling {r : Radix} {n : Nat} {suffix : Suffix} {text : String}
    (integer : suffix.isFloat = false) (h : Spelling r n suffix text) :
    (n ≤ suffix.limit → read text = .ok ⟨.int n, suffix⟩) ∧
      (suffix.limit < n → read text = .error (.integerOutOfRange text)) := by
  obtain ⟨ds, writes, cleaned⟩ := h
  have reads : read text = admitted text n suffix := by
    unfold read
    rw [cleaned]
    cases r with
    | plain =>
      simp only [Radix.start, List.nil_append, splitBase?_plain integer writes]
      exact readPlain_eq text integer writes
    | binary => exact readBased_eq text .binary integer writes
    | quaternary => exact readBased_eq text .quaternary integer writes
    | octal => exact readBased_eq text .octal integer writes
    | decimal => exact readBased_eq text .decimal integer writes
    | hexadecimal => exact readBased_eq text .hexadecimal integer writes
  rw [reads, admitted]
  exact ⟨fun within => if_pos within, fun beyond => if_neg (Nat.not_le.mpr beyond)⟩

theorem read_spelling_twice :
    (Spelling .hexadecimal 255 .u8 "0x0f_Fu8_" ∧ read "0x0f_Fu8_" = .ok ⟨.int 255, .u8⟩) ∧
      Spelling .plain 129 .i8 "0_129_i8" ∧
        read "0_129_i8" = .error (.integerOutOfRange "0_129_i8") := by
  have byte : Spelling .hexadecimal 255 .u8 "0x0f_Fu8_" := by
    have digits : Nat.digits 16 255 = [15, 15] := by norm_num
    refine ⟨['0', 'f', 'F'], ⟨by decide, 1, ?_⟩, rfl⟩
    rw [Radix.base, digits]
    exact .cons (.inl rfl) (.cons (.inl rfl) (.cons (.inr rfl) .nil))
  have large : Spelling .plain 129 .i8 "0_129_i8" := by
    refine ⟨['0', '1', '2', '9'], ⟨by decide, 1, ?_⟩, rfl⟩
    simp [Radix.base, IsDigit]
  exact ⟨⟨byte, (read_spelling rfl byte).1 (by decide)⟩, large, (read_spelling rfl large).2 (by decide)⟩

end EbLang.Number
