import EbLang.Number
import EbLang.Position
import EbLang.Prim

/-!
# Types

A type is a set of primitives or a struct.  A set of one primitive is a settled type; a larger set
holds every primitive the value may still become.  Narrowing a type takes an intersection, so types
only ever shrink; a struct only agrees with itself.

Structs are compared by their mangled names.  What members they have is kept in a `StructTable`,
since structs may mention one another in any order.
-/

namespace EbLang

/-- A struct as a type. -/
structure StructRef where
  name : String
  /-- The name that is unique in a program. -/
  mangled : String
  isPub : Bool
  /-- The row of the struct table that holds its members. -/
  row : Nat
deriving DecidableEq, Inhabited

/-- A type. -/
inductive Ty where
  | prims (s : PrimSet)
  | struct (r : StructRef)
deriving DecidableEq

namespace Ty

/-- The settled type of a primitive. -/
def ofPrim (p : Prim) : Ty := .prims (.single p)

/-- The type of no value. -/
def void : Ty := ofPrim .void

/-- The type of conditions. -/
def bool : Ty := ofPrim .bool

/-- The type of a value about which nothing is known yet. -/
def anyValue : Ty := .prims .values

/-- The type of a number with a suffix. -/
def ofSuffix (suffix : Suffix) (isFloat : Bool) : Ty :=
  match suffix with
  | .unspecified => .prims (if isFloat then .floats else .numeric)
  | .i8 => ofPrim .i8
  | .i16 => ofPrim .i16
  | .i32 => ofPrim .i32
  | .i64 => ofPrim .i64
  | .signed => .prims .signed
  | .u8 => ofPrim .u8
  | .u16 => ofPrim .u16
  | .u32 => ofPrim .u32
  | .u64 => ofPrim .u64
  | .unsigned => .prims .unsigned
  | .f32 => ofPrim .f32
  | .f64 => ofPrim .f64
  | .float => .prims .floats

/-- Whether two types are the same; structs are known by their mangled names. -/
def same : Ty → Ty → Bool
  | .prims s, .prims t => s == t
  | .struct r, .struct q => r.mangled == q.mangled
  | _, _ => false

/-- The primitive of a settled type. -/
def prim? : Ty → Option Prim
  | .prims s => s.only?
  | .struct _ => none

/-- Whether nothing is left open. -/
def isComplete : Ty → Bool
  | .prims s => s.only?.isSome
  | .struct _ => true

/-- Whether the type is that of no value. -/
def isVoid (t : Ty) : Bool := t.prim? == some .void

/-- Whether a value of the first type may still become one of the second. -/
def contains : Ty → Ty → Bool
  | .prims s, .prims t => !t.isEmpty && s.includes t
  | .struct r, .struct q => r.mangled == q.mangled
  | _, _ => false

/-- What two types have in common, none if that is nothing. -/
def merge? : Ty → Ty → Option Ty
  | .prims s, .prims t => if (s.inter t).isEmpty then none else some (.prims (s.inter t))
  | .struct r, .struct q => if r.mangled == q.mangled then some (.struct r) else none
  | _, _ => none

/-- What either type admits, none between a struct and anything else. -/
def union? : Ty → Ty → Option Ty
  | .prims s, .prims t => some (.prims (s.union t))
  | .struct r, .struct q => if r.mangled == q.mangled then some (.struct r) else none
  | _, _ => none

/-- The order in which an open type is settled. -/
def defaultOrder : List Prim :=
  [.i32, .f64, .u32, .i64, .u64, .f32, .iptr, .uptr, .i16, .u16, .i8, .u8]

/-- The type with its default chosen.  A set that mixes `Bool` or `Void` with others has none. -/
def complete? : Ty → Option Ty
  | .struct r => some (.struct r)
  | .prims s =>
    match s.only? with
    | some p => some (ofPrim p)
    | none =>
      if s.has .bool || s.has .void || s.isEmpty then none
      else (defaultOrder.find? s.has).map ofPrim

/-- A set of primitives in braces, one by its name. -/
def renderPrims (s : PrimSet) : String :=
  match s.only? with
  | some p => p.name
  | none => "\x7b" ++ "|".intercalate (s.members.map Prim.name) ++ "\x7d"

/-- The type as messages and listings show it; a struct by its plain name. -/
def shown : Ty → String
  | .prims s => renderPrims s
  | .struct r => r.name

/-- The type in full; a struct by its mangled name. -/
def render : Ty → String
  | .prims s => renderPrims s
  | .struct r => "struct " ++ r.mangled

end Ty

/-- A type as written in source text. -/
structure TypeName where
  name : String
  span : Span
deriving DecidableEq

/-! ## Members of structs -/

/-- A member of a struct. -/
structure Member where
  name : String
  ty : Ty
deriving DecidableEq

/-- The members of all structs, one row for each struct. -/
structure StructTable where
  rows : List (List Member) := []

namespace StructTable

/-- The row of the next struct. -/
def nextRow (t : StructTable) : Nat := t.rows.length

/-- Adds a struct without members. -/
def addRow (t : StructTable) : StructTable := ⟨t.rows ++ [[]]⟩

/-- Replaces the members of a struct. -/
def setMembers (t : StructTable) (r : StructRef) (ms : List Member) : StructTable :=
  ⟨t.rows.set r.row ms⟩

/-- The members of a struct. -/
def members (t : StructTable) (r : StructRef) : List Member := t.rows.getD r.row []

/-- The place and the type of a member. -/
def member? (t : StructTable) (r : StructRef) (name : String) : Option (Nat × Ty) :=
  ((t.members r).zipIdx.find? fun m => m.1.name == name).map fun m => (m.2, m.1.ty)

/-- The place and the type of a member of a type. -/
def memberOf? (t : StructTable) (ty : Ty) (name : String) : Option (Nat × Ty) :=
  match ty with
  | .struct r => t.member? r name
  | .prims _ => none

end StructTable

end EbLang
