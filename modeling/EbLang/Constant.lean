import EbLang.Binary64.Shortest
import EbLang.Ty

/-!
# Constants

The values that initialisers and defaults come to.  Integers are kept exactly; a primitive constant
is recorded in 64 bits.
-/

namespace EbLang

/-- A value known at compile time. -/
inductive Constant where
  | bool (b : Bool)
  | int (i : Int)
  | float (x : Binary64)
  | struct (members : List Constant)

namespace Constant

def zeroOfPrims (s : PrimSet) : Constant :=
  match s.only? with
  | some .bool => .bool false
  | some p => if p.isFloat then .float (Binary64.zero false) else .int 0
  | none => .int 0

/-- The zero of a type whose structs are nested at most `depth` deep. -/
def zeroAt (structs : StructTable) : Nat → Ty → Constant
  | _, .prims s => zeroOfPrims s
  | 0, .struct _ => .struct []
  | depth + 1, .struct r => .struct ((structs.members r).map fun m => zeroAt structs depth m.ty)

/-- The zero of a type.  Structs that do not contain themselves are nested at most as deep as there
are structs. -/
def zeroOf (structs : StructTable) (ty : Ty) : Constant := zeroAt structs (structs.nextRow + 1) ty

/-- The 64 bits a primitive constant is recorded as; integers keep their lowest bits. -/
def toBits : Constant → UInt64
  | .bool b => if b then 1 else 0
  | .int i => UInt64.ofNat (i % twoPow 64).toNat
  | .float x => x.bits
  | .struct _ => 0

def ofBits (bits : UInt64) (p : Prim) : Constant :=
  match p with
  | .bool => .bool (bits != 0)
  | .f32 | .f64 => .float ⟨bits⟩
  | p => .int (if p.isSigned then Int.bmod bits.toNat (twoPow 64) else bits.toNat)

mutual

def render : Constant → String
  | .bool b => "Bool(" ++ toString b ++ ")"
  | .int i => "Int(" ++ toString i ++ ")"
  | .float x => "Float(" ++ x.toText ++ ")"
  | .struct members => "Struct([" ++ ", ".intercalate (renderAll members) ++ "])"

def renderAll : List Constant → List String
  | [] => []
  | c :: cs => render c :: renderAll cs

end

mutual

/-- Whether two constants are equal, floats by their values. -/
def same : Constant → Constant → Bool
  | .bool a, .bool b => a == b
  | .int a, .int b => a == b
  | .float a, .float b => a.eq b
  | .struct as, .struct bs => sameAll as bs
  | _, _ => false

def sameAll : List Constant → List Constant → Bool
  | [], [] => true
  | a :: as, b :: bs => same a b && sameAll as bs
  | _, _ => false

end

end Constant

end EbLang
