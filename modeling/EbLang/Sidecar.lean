import EbLang.Constant
import EbLang.Error

/-!
# Sidecars

A sidecar records an analysed file: its listing, the files it includes, and the part of its
interface that is public and primitive.  Integers are little-endian and names end in a zero byte:

    "eb$"
    [length of the listing: 8] {listing}
    [number of includes: 4] {file name}
    [number of functions: 4] {mangled name, result tag, [number of parameters: 1], {parameter tag}}
    [number of globals: 4] {[const: 1], mangled name, type tag, [value: 8]}
-/

namespace EbLang

/-- A sequence of bytes. -/
abbrev Bytes := List UInt8

/-- What is recorded of a function. -/
structure SidecarFunction where
  mangled : String
  result : Prim
  params : List Prim

/-- What is recorded of a global. -/
structure SidecarGlobal where
  isConst : Bool
  mangled : String
  ty : Prim
  value : Constant

/-- What is recorded of a file. -/
structure Sidecar where
  listing : Bytes
  includes : List String
  functions : List SidecarFunction
  globals : List SidecarGlobal

namespace Sidecar

/-! ## Writing -/

/-- What every sidecar begins with. -/
def magic : Bytes := [0x65, 0x62, 0x24]

/-- The lowest bytes of a number, the lowest first. -/
def littleEndian : (width : Nat) → Nat → Bytes
  | 0, _ => []
  | width + 1, n => UInt8.ofNat n :: littleEndian width (n / 256)

/-- The bytes of a text. -/
def utf8 (s : String) : Bytes := s.toUTF8.data.toList

/-- The bytes of a name, and a zero. -/
def writeName (name : String) : Bytes := utf8 name ++ [0]

/-- The byte of a primitive. -/
def tagByte (p : Prim) : UInt8 := UInt8.ofNat p.tag.toNat

/-- The number of a list's elements, and each of them. -/
def writeList {α : Type} (write : α → Bytes) (xs : List α) : Bytes :=
  littleEndian 4 xs.length ++ xs.flatMap write

/-- The bytes of a function. -/
def writeFunction (f : SidecarFunction) : Bytes :=
  writeName f.mangled ++ tagByte f.result :: UInt8.ofNat f.params.length :: f.params.map tagByte

/-- The bytes of a global. -/
def writeGlobal (g : SidecarGlobal) : Bytes :=
  (if g.isConst then 1 else 0) :: writeName g.mangled ++
    tagByte g.ty :: littleEndian 8 g.value.toBits.toNat

/-- The bytes of a sidecar. -/
def encode (s : Sidecar) : Bytes :=
  magic ++ littleEndian 8 s.listing.length ++ s.listing ++ writeList writeName s.includes ++
    writeList writeFunction s.functions ++ writeList writeGlobal s.globals

/-! ## Reading -/

/-- Reading takes bytes off the front and may fail. -/
abbrev Reader := StateT Bytes (Except Fault)

/-- Fails for the given reason. -/
def invalid {α : Type} (message : String) : Reader α := throw (.artifactError message)

/-- Reads a number of bytes. -/
def take (count : Nat) : Reader Bytes := do
  let bytes ← get
  if bytes.length < count then invalid "unexpected end of file"
  set (bytes.drop count)
  return bytes.take count

/-- The number whose lowest byte comes first. -/
def ofLittleEndian : Bytes → Nat
  | [] => 0
  | b :: bs => b.toNat + 256 * ofLittleEndian bs

/-- Reads a number of `width` bytes. -/
def readNat (width : Nat) : Reader Nat := return ofLittleEndian (← take width)

/-- The text of some bytes. -/
def ofUtf8? (bytes : Bytes) : Option String := String.fromUTF8? ⟨bytes.toArray⟩

/-- Reads a name and the zero after it. -/
def readName : Reader String := do
  let bytes ← get
  let name := bytes.takeWhile (· != 0)
  if name.length = bytes.length then invalid "unterminated name"
  match ofUtf8? name with
  | none => invalid "name is not UTF-8"
  | some text =>
    set (bytes.drop (name.length + 1))
    return text

/-- Reads a type tag. -/
def readPrim : Reader Prim := do
  let byte ← readNat 1
  match Prim.ofTag? byte with
  | some p => return p
  | none => invalid ("unknown type tag \x60" ++ String.singleton (Char.ofNat byte) ++ "\x60")

/-- Reads a number of things. -/
def readMany {α : Type} (read : Reader α) : Nat → Reader (List α)
  | 0 => return []
  | n + 1 => do
    let x ← read
    let xs ← readMany read n
    return x :: xs

/-- Reads a number, and as many things. -/
def readList {α : Type} (read : Reader α) : Reader (List α) := do readMany read (← readNat 4)

/-- Reads a function. -/
def readFunction : Reader SidecarFunction := do
  let mangled ← readName
  let result ← readPrim
  let count ← readNat 1
  let params ← readMany readPrim count
  return ⟨mangled, result, params⟩

/-- Reads a global. -/
def readGlobal : Reader SidecarGlobal := do
  let isConst ← readNat 1
  let mangled ← readName
  let ty ← readPrim
  let bits ← readNat 8
  return ⟨isConst != 0, mangled, ty, .ofBits (UInt64.ofNat bits) ty⟩

/-- Reads a sidecar to the last byte. -/
def reader : Reader Sidecar := do
  if (← take 3) != magic then invalid "missing \x60eb$\x60 header"
  let listing ← take (← readNat 8)
  let includes ← readList readName
  let functions ← readList readFunction
  let globals ← readList readGlobal
  if !(← get).isEmpty then invalid "trailing bytes"
  return ⟨listing, includes, functions, globals⟩

/-- The sidecar of some bytes. -/
def decode (bytes : Bytes) : Except Fault Sidecar := return (← reader.run bytes).1

/-! ## Equality -/

/-- Whether two functions are recorded alike. -/
def sameFunction (f g : SidecarFunction) : Bool :=
  f.mangled == g.mangled && f.result == g.result && f.params == g.params

/-- Whether two globals are recorded alike, floats by their values. -/
def sameGlobal (g h : SidecarGlobal) : Bool :=
  g.isConst == h.isConst && g.mangled == h.mangled && g.ty == h.ty && g.value.same h.value

/-- Whether two lists agree. -/
def sameList {α : Type} (same : α → α → Bool) (xs ys : List α) : Bool :=
  xs.length == ys.length && (xs.zip ys).all fun p => same p.1 p.2

/-- Whether two sidecars record the same. -/
def same (s t : Sidecar) : Bool :=
  s.listing == t.listing && s.includes == t.includes &&
    sameList sameFunction s.functions t.functions && sameList sameGlobal s.globals t.globals

end Sidecar

end EbLang
