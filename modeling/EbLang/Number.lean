import EbLang.Binary64
import EbLang.Error

/-!
# Numbers in source text

A number is an integer in base two, four, eight, ten or sixteen, or a decimal float, followed by an
optional suffix for its type.  Underscores between the digits mean nothing.

The suffix is judged before the value: `0x` digits are taken as long as they are digits of the base,
and what follows has to be a suffix.  A fraction or an exponent makes a float, and so does a float
suffix.
-/

namespace EbLang

/-! ## Suffixes -/

/-- The type suffix of a number. -/
inductive Suffix where
  /-- No suffix. -/
  | unspecified
  | i8
  | i16
  | i32
  | i64
  /-- Any signed integer. -/
  | signed
  | u8
  | u16
  | u32
  | u64
  /-- Any unsigned integer. -/
  | unsigned
  | f32
  | f64
  | float
deriving DecidableEq

namespace Suffix

/-- All suffixes. -/
def all : List Suffix :=
  [unspecified, i8, i16, i32, i64, signed, u8, u16, u32, u64, unsigned, f32, f64, float]

/-- How a suffix is written. -/
def spelling : Suffix → String
  | unspecified => ""
  | i8 => "i8"
  | i16 => "i16"
  | i32 => "i32"
  | i64 => "i64"
  | signed => "i"
  | u8 => "u8"
  | u16 => "u16"
  | u32 => "u32"
  | u64 => "u64"
  | unsigned => "u"
  | f32 => "f32"
  | f64 => "f64"
  | float => "f"

/-- The name in a list of tokens. -/
def name : Suffix → String
  | unspecified => "Unspecified"
  | i8 => "I8"
  | i16 => "I16"
  | i32 => "I32"
  | i64 => "I64"
  | signed => "Signed"
  | u8 => "U8"
  | u16 => "U16"
  | u32 => "U32"
  | u64 => "U64"
  | unsigned => "Unsigned"
  | f32 => "F32"
  | f64 => "F64"
  | float => "Float"

/-- The suffix some characters spell. -/
def ofSpelling? (cs : List Char) : Option Suffix := all.find? fun s => s.spelling.toList == cs

/-- Whether the suffix is one of floats. -/
def isFloat : Suffix → Bool
  | f32 | f64 | float => true
  | _ => false

/-- The largest integer that may carry the suffix.  A signed suffix admits the magnitude of the
least value of its type, which is only in range under a negation. -/
def limit : Suffix → Nat
  | i8 => 0x80
  | i16 => 0x8000
  | i32 => 0x80000000
  | i64 | signed => 0x8000000000000000
  | u8 => 0xff
  | u16 => 0xffff
  | u32 => 0xffffffff
  | _ => 0xffffffffffffffff

end Suffix

/-! ## Numbers -/

/-- The value of a number. -/
inductive NumberValue where
  | int (n : Nat)
  | float (x : Binary64)
deriving DecidableEq

/-- A number as read from source text. -/
structure Number where
  value : NumberValue
  suffix : Suffix
deriving DecidableEq

namespace Number

/-- The value of a digit in any base. -/
def digitValue? (c : Char) : Option Nat :=
  if c.isDigit then some (c.toNat - '0'.toNat)
  else if c.isLower then some (c.toNat - 'a'.toNat + 10)
  else if c.isUpper then some (c.toNat - 'A'.toNat + 10)
  else none

/-- Whether a character is a digit of a base. -/
def isDigitOf (base : Nat) (c : Char) : Bool :=
  match digitValue? c with
  | some d => decide (d < base)
  | none => false

/-- The value of a row of digits. -/
def ofDigits (base : Nat) (ds : List Char) : Nat :=
  ds.foldl (fun n c => n * base + (digitValue? c).getD 0) 0

/-- The base that a letter after a leading zero stands for. -/
def base? : Char → Option Nat
  | 'b' => some 2
  | 'q' => some 4
  | 'o' => some 8
  | 'x' => some 16
  | 'd' => some 10
  | _ => none

/-- An integer of the given digits, if there are any and the suffix admits it. -/
def ofIntegerDigits (text : String) (base : Nat) (ds : List Char) (suffix : Suffix) :
    Except Fault Number :=
  let n := ofDigits base ds
  if ds.isEmpty || suffix.limit < n then .error (.integerOutOfRange text)
  else .ok ⟨.int n, suffix⟩

/-- Reads what follows a base prefix. -/
def readBased (text : String) (base : Nat) (body : List Char) : Except Fault Number :=
  let ds := body.takeWhile (isDigitOf base)
  let tail := body.dropWhile (isDigitOf base)
  match Suffix.ofSpelling? tail with
  | some suffix =>
    if suffix.isFloat then .error (.invalidIntegralSuffix (String.ofList tail))
    else ofIntegerDigits text base ds suffix
  | none => .error (.invalidIntegralSuffix (String.ofList tail))

/-- A decimal number taken apart. -/
structure Decimal where
  /-- The digits before the point. -/
  whole : List Char
  /-- The digits after the point, none without a point. -/
  fraction : Option (List Char)
  /-- The exponent, none without one. -/
  exponent : Option Int
  /-- What follows the number. -/
  tail : List Char

/-- The exponent at the start of a text, and what follows it.  The letter alone is no exponent. -/
def readExponent? : List Char → Option (Int × List Char)
  | [] => none
  | c :: cs =>
    if c == 'e' || c == 'E' then
      let negative := cs.head? == some '-'
      let ds := if negative || cs.head? == some '+' then cs.drop 1 else cs
      let digits := ds.takeWhile Char.isDigit
      if digits.isEmpty then none
      else
        let n : Int := ofDigits 10 digits
        some (if negative then -n else n, ds.dropWhile Char.isDigit)
    else none

/-- Takes a decimal number apart. -/
def readDecimal (cs : List Char) : Decimal :=
  let whole := cs.takeWhile Char.isDigit
  let afterWhole := cs.dropWhile Char.isDigit
  let fraction :=
    if afterWhole.head? == some '.' then some ((afterWhole.drop 1).takeWhile Char.isDigit)
    else none
  let afterFraction :=
    if afterWhole.head? == some '.' then (afterWhole.drop 1).dropWhile Char.isDigit
    else afterWhole
  match readExponent? afterFraction with
  | some (e, tail) => ⟨whole, fraction, some e, tail⟩
  | none => ⟨whole, fraction, none, afterFraction⟩

namespace Decimal

/-- Whether it can only be a float. -/
def isFloat (d : Decimal) : Bool := d.fraction.isSome || d.exponent.isSome

/-- The nearest float, if that is finite. -/
def toFloat? (d : Decimal) : Option Binary64 :=
  let part := d.fraction.getD []
  let ds := d.whole ++ part
  let x := Binary64.ofDecimal (ofDigits 10 ds) (d.exponent.getD 0 - part.length)
  if ds.isEmpty || !x.isFinite then none else some x

end Decimal

/-- A float with its suffix. -/
def ofFloatDigits (text : String) (d : Decimal) (suffix : Suffix) : Except Fault Number :=
  match d.toFloat? with
  | some x => .ok ⟨.float x, suffix⟩
  | none => .error (.invalidFloat text)

/-- Reads a decimal number. -/
def readPlain (text : String) (cs : List Char) : Except Fault Number :=
  let d := readDecimal cs
  let tail := String.ofList d.tail
  match Suffix.ofSpelling? d.tail with
  | none => .error (if d.isFloat then .invalidFloatSuffix tail else .invalidIntegralSuffix tail)
  | some suffix =>
    if suffix.isFloat then ofFloatDigits text d suffix
    else if d.isFloat then
      if suffix = .unspecified then ofFloatDigits text d suffix
      else .error (.invalidFloatSuffix tail)
    else ofIntegerDigits text 10 d.whole suffix

/-- The base prefix of a number and what follows it. -/
def splitBase? : List Char → Option (Nat × List Char)
  | '0' :: c :: body => (base? c).map (·, body)
  | _ => none

/-- Reads a number. -/
def read (text : String) : Except Fault Number :=
  let cs := text.toList.filter (· != '_')
  match splitBase? cs with
  | some (base, body) => readBased text base body
  | none => readPlain text cs

end Number

end EbLang
