/-!
# Primitive types

The fourteen primitive types and the sets of them.  A set is kept as a mask with one bit for each
primitive, in the order of `Prim.all`.
-/

namespace EbLang

/-- A primitive type. -/
inductive Prim where
  | void
  | bool
  | i8
  | i16
  | i32
  | i64
  /-- A signed integer as wide as a pointer. -/
  | iptr
  | u8
  | u16
  | u32
  | u64
  /-- An unsigned integer as wide as a pointer. -/
  | uptr
  | f32
  | f64
deriving DecidableEq

namespace Prim

/-- The primitives in their order. -/
def all : List Prim :=
  [void, bool, i8, i16, i32, i64, iptr, u8, u16, u32, u64, uptr, f32, f64]

/-- The place of a primitive in the order. -/
def index : Prim → Nat
  | void => 0
  | bool => 1
  | i8 => 2
  | i16 => 3
  | i32 => 4
  | i64 => 5
  | iptr => 6
  | u8 => 7
  | u16 => 8
  | u32 => 9
  | u64 => 10
  | uptr => 11
  | f32 => 12
  | f64 => 13

/-- The name in source text. -/
def name : Prim → String
  | void => "Void"
  | bool => "Bool"
  | i8 => "I8"
  | i16 => "I16"
  | i32 => "I32"
  | i64 => "I64"
  | iptr => "IPtr"
  | u8 => "U8"
  | u16 => "U16"
  | u32 => "U32"
  | u64 => "U64"
  | uptr => "UPtr"
  | f32 => "F32"
  | f64 => "F64"

/-- The primitive of a name. -/
def ofName? (name : String) : Option Prim := all.find? fun p => p.name == name

/-- The width in bits; a pointer has 64. -/
def width : Prim → Nat
  | void => 0
  | bool => 1
  | i8 | u8 => 8
  | i16 | u16 => 16
  | i32 | u32 | f32 => 32
  | i64 | u64 | f64 | iptr | uptr => 64

/-- Whether it is a signed integer. -/
def isSigned : Prim → Bool
  | i8 | i16 | i32 | i64 | iptr => true
  | _ => false

/-- Whether it is an unsigned integer. -/
def isUnsigned : Prim → Bool
  | u8 | u16 | u32 | u64 | uptr => true
  | _ => false

/-- Whether it is an integer. -/
def isInt (p : Prim) : Bool := p.isSigned || p.isUnsigned

/-- Whether it is a float. -/
def isFloat : Prim → Bool
  | f32 | f64 => true
  | _ => false

/-- The byte a primitive is recorded as in a sidecar. -/
def tag : Prim → Char
  | void => 'v'
  | bool => 'b'
  | i8 => '1'
  | i16 => '2'
  | i32 => 'i'
  | i64 => '8'
  | iptr => 'p'
  | u8 => 'B'
  | u16 => 'S'
  | u32 => 'U'
  | u64 => 'L'
  | uptr => 'u'
  | f32 => 'f'
  | f64 => 'd'

/-- The primitive recorded as a byte. -/
def ofTag? (byte : Nat) : Option Prim := all.find? fun p => p.tag.toNat == byte

/-- Whether a value of one primitive may stand for another without being asked to: to a wider one
of its own signedness, from unsigned to a wider signed one, and between the floats. -/
def widensTo (source target : Prim) : Bool :=
  if source = target then false
  else if (source.isSigned && target.isSigned) || (source.isUnsigned && target.isUnsigned) ||
      (source.isUnsigned && target.isSigned) then
    decide (source.width < target.width)
  else decide (source = f32 ∧ target = f64)

/-- Whether the operator of `p` is more general than that of `q`, or as general and earlier: wider
first, then floats before integers, then signed before unsigned. -/
def isMoreGeneral (p q : Prim) : Bool :=
  if p.width ≠ q.width then decide (q.width < p.width)
  else if p.isFloat ≠ q.isFloat then p.isFloat
  else if p.isSigned ≠ q.isSigned then p.isSigned
  else decide (p.index ≤ q.index)

end Prim

/-! ## Sets of primitives -/

/-- A set of primitives. -/
structure PrimSet where
  /-- Bit `p.index` is set if `p` belongs to the set. -/
  mask : BitVec 14
deriving DecidableEq

namespace PrimSet

/-- The set of none. -/
def empty : PrimSet := ⟨0⟩

/-- The set of one primitive. -/
def single (p : Prim) : PrimSet := ⟨1#14 <<< p.index⟩

/-- Whether a primitive belongs to the set. -/
def has (s : PrimSet) (p : Prim) : Bool := s.mask.getLsbD p.index

/-- What both sets hold. -/
def inter (s t : PrimSet) : PrimSet := ⟨s.mask &&& t.mask⟩

/-- What either set holds. -/
def union (s t : PrimSet) : PrimSet := ⟨s.mask ||| t.mask⟩

/-- Whether all of `t` belongs to `s`. -/
def includes (s t : PrimSet) : Bool := s.mask &&& t.mask == t.mask

/-- Whether nothing belongs to the set. -/
def isEmpty (s : PrimSet) : Bool := s.mask == 0

/-- The members in their order. -/
def members (s : PrimSet) : List Prim := Prim.all.filter s.has

/-- The member of a set that has just one. -/
def only? (s : PrimSet) : Option Prim :=
  match s.members with
  | [p] => some p
  | _ => none

/-- The set of some primitives. -/
def ofList (ps : List Prim) : PrimSet := ps.foldl (fun s p => s.union (single p)) empty

/-- The signed integers. -/
def signed : PrimSet := ofList [.i8, .i16, .i32, .i64, .iptr]

/-- The unsigned integers. -/
def unsigned : PrimSet := ofList [.u8, .u16, .u32, .u64, .uptr]

/-- The integers. -/
def ints : PrimSet := signed.union unsigned

/-- The floats. -/
def floats : PrimSet := ofList [.f32, .f64]

/-- The integers and the floats. -/
def numeric : PrimSet := ints.union floats

/-- All primitives that values have. -/
def values : PrimSet := (single .bool).union numeric

end PrimSet

end EbLang
