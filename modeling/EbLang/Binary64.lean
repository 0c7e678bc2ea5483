import EbLang.Power

/-!
# Binary64 numbers

A floating-point number is known by its 64 bits: a sign, eleven bits of exponent and 52 bits of
fraction.  `view` reads the bits as a number `± m · 2 ^ q`, and `ofRatio` finds the bits of the
binary64 number nearest to a quotient, a tie going to the even neighbour.  Every operation takes
the exact result of its operands and rounds it once, in integer arithmetic.

An operation without a meaningful result gives `invalid`; an operand that is not a number is handed
on.
-/

namespace EbLang

/-- A binary64 number, known by its bits. -/
structure Binary64 where
  /-- Sign, exponent and fraction, from the highest bit down. -/
  bits : UInt64
deriving DecidableEq, Inhabited

namespace Binary64

/-- What the bits stand for. -/
inductive View where
  /-- Not a number. -/
  | nan
  | infinite (neg : Bool)
  | finite (neg : Bool) (m : Nat) (q : Int)

/-! ## Reading and writing the bits -/

/-- The bit of the sign, `2 ^ 63`. -/
def signBit : Nat := 0x8000000000000000

/-- The lowest bit of the exponent, `2 ^ 52`, which is also the bit in front of a fraction. -/
def leadingBit : Nat := 0x10000000000000

/-- The highest bit of the fraction, `2 ^ 51`. -/
def quietBit : Nat := 0x8000000000000

/-- Whether the sign bit is set. -/
def isNegative (x : Binary64) : Bool := decide (signBit ≤ x.bits.toNat)

/-- The bits below the sign. -/
def magnitude (x : Binary64) : Nat := x.bits.toNat % signBit

/-- The number with the given sign and magnitude bits. -/
def ofMagnitude (neg : Bool) (n : Nat) : Binary64 :=
  ⟨UInt64.ofNat (n % signBit + if neg then signBit else 0)⟩

/-- The magnitude bits of an infinity. -/
def infinityMagnitude : Nat := 2047 * leadingBit

/-- The number the bits stand for. -/
def view (x : Binary64) : View :=
  let exponent : Nat := x.magnitude / leadingBit
  let fraction : Nat := x.magnitude % leadingBit
  if exponent = 2047 then
    if fraction = 0 then .infinite x.isNegative else .nan
  else if exponent = 0 then .finite x.isNegative fraction (-1074)
  else .finite x.isNegative (fraction + leadingBit) ((exponent : Int) - 1075)

/-- The zero of a sign. -/
def zero (neg : Bool) : Binary64 := ofMagnitude neg 0

/-- The infinity of a sign. -/
def infinity (neg : Bool) : Binary64 := ofMagnitude neg infinityMagnitude

/-- The result of an operation that has none, a quiet value with its sign bit set. -/
def invalid : Binary64 := ofMagnitude true (infinityMagnitude + quietBit)

/-- Whether the bits do not stand for a number. -/
def isNaN (x : Binary64) : Bool := decide (infinityMagnitude < x.magnitude)

/-- Whether the bits stand for a number that is not infinite. -/
def isFinite (x : Binary64) : Bool := decide (x.magnitude < infinityMagnitude)

/-! ## Rounding -/

/-- The quotient `num / den` rounded to the nearest integer, a tie going to the even one. -/
def roundQuotient (num den : Nat) : Nat :=
  let low := num / den
  let twice := 2 * (num % den)
  if twice < den then low
  else if den < twice then low + 1
  else low + low % 2

/-- The quotient `num / den` in units of `2 ^ q`, as a numerator and a denominator. -/
def inUnits (num den : Nat) (q : Int) : Nat × Nat :=
  if 0 ≤ q then (num, den * twoPow q.toNat) else (num * twoPow (-q).toNat, den)

/-- The binary64 number nearest to `num / den`, for `den` other than zero.  The unit is chosen so
that the quotient has 53 bits, or is the smallest unit there is; a carry out of the fraction moves
into the exponent by itself. -/
def ofRatio (neg : Bool) (num den : Nat) : Binary64 :=
  if num = 0 then zero neg
  else
    let guess : Int := (num.log2 : Int) - (den.log2 : Int) - 52
    let scaled := inUnits num den guess
    let unit := if scaled.1 / scaled.2 < leadingBit then guess - 1 else guess
    let q := if unit < -1074 then -1074 else unit
    let exact := inUnits num den q
    let n := (q + 1074).toNat * leadingBit + roundQuotient exact.1 exact.2
    ofMagnitude neg (if infinityMagnitude ≤ n then infinityMagnitude else n)

/-- The number nearest to `± n · 2 ^ q`. -/
def ofScaled (neg : Bool) (n : Nat) (q : Int) : Binary64 :=
  if 0 ≤ q then ofRatio neg (n * twoPow q.toNat) 1 else ofRatio neg n (twoPow (-q).toNat)

/-- The number nearest to an integer. -/
def ofInt (i : Int) : Binary64 := ofRatio (decide (i < 0)) i.natAbs 1

/-- The binary64 number nearest to `n · 10 ^ e`.  Far outside the range of the format the answer is
known from the number of digits, without computing the power. -/
def ofDecimal (n : Nat) (e : Int) : Binary64 :=
  let magnitude := e + (Nat.toDigits 10 n).length
  if n = 0 then zero false
  else if 400 < magnitude then infinity false
  else if magnitude < -400 then zero false
  else if 0 ≤ e then ofRatio false (n * tenPow e.toNat) 1
  else ofRatio false n (tenPow (-e).toNat)

/-! ## Arithmetic -/

/-- The number with the other sign. -/
def neg (x : Binary64) : Binary64 := ofMagnitude (!x.isNegative) x.magnitude

/-- The integer of a sign and a magnitude. -/
def signed (neg : Bool) (n : Nat) : Int := if neg then -(n : Int) else n

/-- Both finite numbers in the smaller of their units. -/
def align (m1 : Nat) (q1 : Int) (m2 : Nat) (q2 : Int) : Nat × Nat × Int :=
  let q := min q1 q2
  (m1 * twoPow (q1 - q).toNat, m2 * twoPow (q2 - q).toNat, q)

/-- The sum.  Two zeros of one sign keep it; any other exact zero is positive. -/
def add (x y : Binary64) : Binary64 :=
  match x.view, y.view with
  | .nan, _ => x
  | _, .nan => y
  | .infinite s, .infinite t => if s = t then x else invalid
  | .infinite _, _ => x
  | _, .infinite _ => y
  | .finite s m1 q1, .finite t m2 q2 =>
    let (n1, n2, q) := align m1 q1 m2 q2
    let sum := signed s n1 + signed t n2
    if sum = 0 then zero (s && t) else ofScaled (decide (sum < 0)) sum.natAbs q

/-- The difference. -/
def sub (x y : Binary64) : Binary64 := if y.isNaN then add x y else add x y.neg

/-- The product. -/
def mul (x y : Binary64) : Binary64 :=
  match x.view, y.view with
  | .nan, _ => x
  | _, .nan => y
  | .infinite s, .infinite t => infinity (s != t)
  | .infinite s, .finite t m _ => if m = 0 then invalid else infinity (s != t)
  | .finite s m _, .infinite t => if m = 0 then invalid else infinity (s != t)
  | .finite s m1 q1, .finite t m2 q2 => ofScaled (s != t) (m1 * m2) (q1 + q2)

/-- The quotient. -/
def div (x y : Binary64) : Binary64 :=
  match x.view, y.view with
  | .nan, _ => x
  | _, .nan => y
  | .infinite _, .infinite _ => invalid
  | .infinite s, .finite t _ _ => infinity (s != t)
  | .finite s _ _, .infinite t => zero (s != t)
  | .finite s m1 q1, .finite t m2 q2 =>
    if m2 = 0 then (if m1 = 0 then invalid else infinity (s != t))
    else
      let (n1, n2, _) := align m1 q1 m2 q2
      ofRatio (s != t) n1 n2

/-- The remainder of the division that truncates towards zero; it has the sign of `x`. -/
def rem (x y : Binary64) : Binary64 :=
  match x.view, y.view with
  | .nan, _ => x
  | _, .nan => y
  | .infinite _, _ => invalid
  | _, .infinite _ => x
  | .finite s m1 q1, .finite _ m2 q2 =>
    if m2 = 0 then invalid
    else
      let (n1, n2, q) := align m1 q1 m2 q2
      ofScaled s (n1 % n2) q

/-! ## Comparison -/

/-- The order of two numbers, none if one of them is not a number. -/
def compare? (x y : Binary64) : Option Ordering :=
  match x.view, y.view with
  | .nan, _ => none
  | _, .nan => none
  | .infinite s, .infinite t => some (compare t.toNat s.toNat)
  | .infinite s, _ => some (if s then .lt else .gt)
  | _, .infinite t => some (if t then .gt else .lt)
  | .finite s m1 q1, .finite t m2 q2 =>
    let (n1, n2, _) := align m1 q1 m2 q2
    some (compare (signed s n1) (signed t n2))

/-- Equality of numbers: the two zeros are equal, and nothing equals what is not a number. -/
def eq (x y : Binary64) : Bool := compare? x y == some .eq

/-- Less, as numbers. -/
def lt (x y : Binary64) : Bool := compare? x y == some .lt

/-- Less or equal, as numbers. -/
def le (x y : Binary64) : Bool := lt x y || eq x y

end Binary64

end EbLang
