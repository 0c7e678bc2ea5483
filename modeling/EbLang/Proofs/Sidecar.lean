import EbLang.Analysis
import EbLang.Sidecar.Interface

/-!
# Sidecars read back

The bytes of a sidecar are fields, one after the other.  `Sidecar.fields` lists them with what each
one holds, so that every byte of an encoding has a role.

*Writing, then reading.*  `Reads r bs a` says that a reader takes exactly `bs` from the front of
anything and gives `a`.  Readings of parts compose to a reading of the whole.

*Reading, then writing.*  `Takes r P` says that whatever a reader gives, it took bytes from the front
of which `P` holds.  A reader leaves no choice but for two fields: any byte other than zero is a
flag, and any value other than zero is a true `Bool`.

Hence a sidecar is read back exactly if it is *legible*, no name holds a zero byte and every value is
one of its type, and *within limits*, no count is too large for its field.
-/

namespace EbLang.Sidecar

variable {α β : Type}
variable {write : α → Bytes} {bs : Bytes} {f : α → Reader β} {r : Reader α} {s : Sidecar}
  {P : Bytes → α → Prop}
variable {width n : Nat} {p : Prim} {bits : UInt64} {a : α}

/-! ## Fields -/

/-- What a byte of a sidecar holds. -/
inductive Role where
  | magic
  | count
  | listing
  | name
  | tag
  /-- Whether a global is constant. -/
  | constFlag
  /-- The value of a global of the given type. -/
  | value (ty : Prim)
deriving DecidableEq

/-- Whether several bytes may mean the same. -/
def Role.isLoose : Role → Bool
  | constFlag => true
  | value ty => ty == .bool
  | _ => false

/-- Some bytes of one role. -/
structure Field where
  role : Role
  bytes : Bytes

def nameField (name : String) : Field := ⟨.name, writeName name⟩

/-- The field of a type. -/
def tagField (p : Prim) : Field := ⟨.tag, [tagByte p]⟩

/-- The field of a number. -/
def countField (width n : Nat) : Field := ⟨.count, littleEndian width n⟩

def functionFields (f : SidecarFunction) : List Field :=
  [nameField f.mangled, tagField f.result, countField 1 f.params.length] ++ f.params.map tagField

def globalFields (g : SidecarGlobal) : List Field :=
  [⟨.constFlag, [if g.isConst then 1 else 0]⟩, nameField g.mangled, tagField g.ty,
    ⟨.value g.ty, littleEndian 8 g.value.toBits.toNat⟩]

/-- The fields of a list: the number of its elements, and the fields of each of them. -/
def listFields (fields : α → List Field) (xs : List α) : List Field :=
  countField 4 xs.length :: xs.flatMap fields

def fields (s : Sidecar) : List Field :=
  [⟨.magic, magic⟩, countField 8 s.listing.length, ⟨.listing, s.listing⟩] ++
    (listFields ([nameField ·]) s.includes ++ (listFields functionFields s.functions ++
      listFields globalFields s.globals))

def spell (fs : List Field) : Bytes := fs.flatMap Field.bytes

/-- The role of every byte of some fields. -/
def rolesOf (fs : List Field) : List Role :=
  fs.flatMap fun f => List.replicate f.bytes.length f.role

/-- The role of every byte of a sidecar. -/
def roles (s : Sidecar) : List Role := rolesOf s.fields

theorem spell_append (fs gs : List Field) : spell (fs ++ gs) = spell fs ++ spell gs :=
  List.flatMap_append

theorem spell_functionFields (f : SidecarFunction) :
    spell (functionFields f) = writeFunction f := by
  have params : spell (f.params.map tagField) = f.params.map tagByte := by
    rw [spell, List.flatMap_map, List.map_eq_flatMap]
    rfl
  unfold functionFields
  rw [spell_append, params]
  simp [spell, nameField, tagField, countField, writeFunction, littleEndian]

theorem spell_globalFields (g : SidecarGlobal) : spell (globalFields g) = writeGlobal g := by
  simp [spell, globalFields, nameField, tagField, writeGlobal]

theorem spell_listFields {fields : α → List Field}
    (same : ∀ x, spell (fields x) = write x) (xs : List α) :
    spell (listFields fields xs) = writeList write xs := by
  have rest : (xs.flatMap fields).flatMap Field.bytes = xs.flatMap write := by
    rw [List.flatMap_assoc]
    exact congrArg (List.flatMap · xs) (funext same)
  unfold spell listFields writeList
  rw [List.flatMap_cons, rest]
  rfl

theorem spell_fields (s : Sidecar) : spell s.fields = s.encode := by
  have names : spell (listFields ([nameField ·]) s.includes) = writeList writeName s.includes :=
    spell_listFields (fun name => by simp [spell, nameField]) s.includes
  unfold fields encode
  rw [spell_append, spell_append, spell_append, names, spell_listFields spell_functionFields,
    spell_listFields spell_globalFields]
  simp [spell, countField]

/-- The bytes are those of the fields, up to what may be spelled in several ways. -/
def Spells : List Field → Bytes → Prop
  | [], bs => bs = []
  | f :: fs, bs => ∃ front rest, bs = front ++ rest ∧ front.length = f.bytes.length ∧
      (f.role.isLoose = false → front = f.bytes) ∧ Spells fs rest

theorem Spells.append {gs : List Field} {cs : Bytes} (hg : Spells gs cs) :
    ∀ {fs : List Field} {bs : Bytes}, Spells fs bs → Spells (fs ++ gs) (bs ++ cs)
  | [], _, rfl => hg
  | f :: fs, _, ⟨front, rest, whole, length, exact, hf⟩ => by
    refine ⟨front, rest ++ cs, ?_, length, exact, hg.append hf⟩
    rw [whole, List.append_assoc]

theorem spells_singleton {f : Field} (length : bs.length = f.bytes.length)
    (exact : f.role.isLoose = false → bs = f.bytes) : Spells [f] bs :=
  ⟨bs, [], (List.append_nil bs).symm, length, exact, rfl⟩

/-- Some fields are spelled by their own bytes. -/
theorem spells_spell : ∀ fs : List Field, Spells fs (spell fs)
  | [] => rfl
  | f :: fs => ⟨f.bytes, spell fs, rfl, rfl, fun _ => rfl, spells_spell fs⟩

theorem Spells.length_eq : ∀ {fs : List Field} {bs : Bytes}, Spells fs bs →
    (spell fs).length = bs.length
  | [], _, rfl => rfl
  | f :: fs, _, ⟨front, rest, whole, length, _, hf⟩ => by
    have := hf.length_eq
    rw [whole, spell, List.flatMap_cons, List.length_append, List.length_append, length]
    exact congrArg (f.bytes.length + ·) this

/-- Where the bytes differ from those of the fields, they may. -/
theorem Spells.loose_of_ne : ∀ {fs : List Field} {bs : Bytes}, Spells fs bs →
    ∀ {i : Nat}, (spell fs)[i]? ≠ bs[i]? → ∃ role ∈ (rolesOf fs)[i]?, role.isLoose = true
  | [], _, rfl, i, differ => absurd rfl differ
  | f :: fs, _, ⟨front, rest, whole, length, exact, hf⟩, i, differ => by
    subst whole
    rw [spell, List.flatMap_cons] at differ
    rw [rolesOf, List.flatMap_cons]
    by_cases inside : i < f.bytes.length
    · rw [List.getElem?_append_left inside, List.getElem?_append_left (length ▸ inside)] at differ
      rw [List.getElem?_append_left (by rwa [List.length_replicate])]
      refine ⟨f.role, by rw [List.getElem?_replicate_of_lt inside]; rfl, ?_⟩
      cases fixed : f.role.isLoose with
      | true => rfl
      | false =>
        rw [exact fixed] at differ
        exact absurd rfl differ
    · have beyond := Nat.le_of_not_lt inside
      rw [List.getElem?_append_right beyond, List.getElem?_append_right (length ▸ beyond),
        length] at differ
      rw [List.getElem?_append_right (by rwa [List.length_replicate]), List.length_replicate]
      exact hf.loose_of_ne differ

/-! ## Numbers -/

@[simp] theorem length_littleEndian (width n : Nat) : (littleEndian width n).length = width := by
  induction width generalizing n with
  | zero => rfl
  | succ width ih => rw [littleEndian, List.length_cons, ih]

theorem twoPow_byte (width : Nat) : twoPow (8 * (width + 1)) = twoPow (8 * width) * 256 :=
  Nat.pow_add 2 (8 * width) 8

theorem ofLittleEndian_littleEndian (h : n < twoPow (8 * width)) :
    ofLittleEndian (littleEndian width n) = n := by
  induction width generalizing n with
  | zero => exact (Nat.lt_one_iff.mp h).symm
  | succ width ih =>
    have lower : n / 256 < twoPow (8 * width) := by
      rw [Nat.div_lt_iff_lt_mul (by decide), ← twoPow_byte]
      exact h
    have low : (UInt8.ofNat n).toNat = n % 256 := UInt8.toNat_ofNat'
    rw [littleEndian, ofLittleEndian, ih lower, low]
    exact Nat.mod_add_div n 256

theorem ofLittleEndian_lt (bs : Bytes) : ofLittleEndian bs < twoPow (8 * bs.length) := by
  induction bs with
  | nil => exact Nat.one_pos
  | cons b bs ih =>
    have low := b.toNat_lt
    rw [ofLittleEndian, List.length_cons, twoPow_byte]
    omega

/-- Bytes read as a number are written as they were. -/
theorem littleEndian_ofLittleEndian (bs : Bytes) :
    littleEndian bs.length (ofLittleEndian bs) = bs := by
  induction bs with
  | nil => rfl
  | cons b bs ih =>
    have low := b.toNat_lt
    have remainder : (b.toNat + 256 * ofLittleEndian bs) % 256 = b.toNat := by omega
    have quotient : (b.toNat + 256 * ofLittleEndian bs) / 256 = ofLittleEndian bs := by omega
    have byte : UInt8.ofNat (b.toNat + 256 * ofLittleEndian bs) = b := by
      refine UInt8.toNat_inj.mp ?_
      exact UInt8.toNat_ofNat'.trans remainder
    rw [List.length_cons, ofLittleEndian, littleEndian, byte, quotient, ih]

/-! ## Texts and types -/

theorem ofUtf8?_utf8 (s : String) : ofUtf8? (utf8 s) = some s := by
  exact dif_pos s.isValidUTF8

theorem utf8_of_ofUtf8? {s : String} (h : ofUtf8? bs = some s) : utf8 s = bs := by
  unfold ofUtf8? String.fromUTF8? at h
  split at h
  next => cases h; rfl
  next => cases h

theorem ofTag?_tagByte (p : Prim) : Prim.ofTag? (tagByte p).toNat = some p := by
  cases p <;> decide

theorem tag_of_ofTag? (h : Prim.ofTag? n = some p) : p.tag.toNat = n := by
  have found := List.find?_some h
  exact beq_iff_eq.mp found

/-! ## Legible sidecars within limits -/

/-- A name that does not end before its end. -/
def IsName (name : String) : Prop := 0 ∉ utf8 name

/-- A constant that its bits tell, given its type. -/
def IsRecorded (value : Constant) (ty : Prim) : Prop := Constant.ofBits value.toBits ty = value

/-- What a sidecar holds can be told from its bytes. -/
structure Legible (s : Sidecar) : Prop where
  includes : ∀ name ∈ s.includes, IsName name
  functions : ∀ f ∈ s.functions, IsName f.mangled
  globals : ∀ g ∈ s.globals, IsName g.mangled ∧ IsRecorded g.value g.ty

/-- Every count fits its field. -/
structure WithinLimits (s : Sidecar) : Prop where
  listing : s.listing.length < twoPow 64
  includes : s.includes.length < twoPow 32
  functions : s.functions.length < twoPow 32
  params : ∀ f ∈ s.functions, f.params.length < twoPow 8
  globals : s.globals.length < twoPow 32

theorem toBits_int {i : Int} (h : i % twoPow 64 = bits.toNat) : (Constant.int i).toBits = bits := by
  rw [Constant.toBits, h, Int.toNat_natCast]
  exact UInt64.ofNat_toNat

/-- The bits of a constant that is not a `Bool` are those it was read from. -/
theorem toBits_ofBits (other : p ≠ .bool) : (Constant.ofBits bits p).toBits = bits := by
  have reduced : (bits.toNat : Int) % twoPow 64 = bits.toNat := by
    have lt : bits.toNat < twoPow 64 := bits.toNat_lt
    exact Int.emod_eq_of_lt (Int.natCast_nonneg _) (Int.ofNat_lt.mpr lt)
  have signed : Int.bmod bits.toNat (twoPow 64) % twoPow 64 = bits.toNat := by
    rw [Int.bmod_emod, reduced]
  cases p with
  | bool => exact absurd rfl other
  | f32 | f64 => rfl
  | i8 | i16 | i32 | i64 | iptr =>
    simp only [Constant.ofBits, Prim.isSigned, if_true]
    exact toBits_int signed
  | void | u8 | u16 | u32 | u64 | uptr =>
    exact toBits_int reduced

theorem isRecorded_ofBits (bits : UInt64) (p : Prim) : IsRecorded (Constant.ofBits bits p) p := by
  unfold IsRecorded
  by_cases bool : p = .bool
  · subst bool
    by_cases zero : bits = 0
    · simp [Constant.ofBits, Constant.toBits, zero]
    · simp [Constant.ofBits, Constant.toBits, zero]
  · rw [toBits_ofBits bool]

/-! ## Readers -/

theorem run_take (count : Nat) (bs : Bytes) :
    (take count).run bs = if bs.length < count then .error (.artifactError "unexpected end of file")
      else .ok (bs.take count, bs.drop count) := by
  change StateT.run (if bs.length < count then _ else _) bs = _
  split <;> rfl

theorem run_readName (bs : Bytes) :
    readName.run bs =
      if (bs.takeWhile (· != 0)).length = bs.length then .error (.artifactError "unterminated name")
      else match ofUtf8? (bs.takeWhile (· != 0)) with
        | none => .error (.artifactError "name is not UTF-8")
        | some text => .ok (text, bs.drop ((bs.takeWhile (· != 0)).length + 1)) := by
  change StateT.run (if (bs.takeWhile (· != 0)).length = bs.length then _ else _) bs = _
  split
  · rfl
  · cases ofUtf8? (bs.takeWhile (· != 0)) <;> rfl

/-- The end of a reading: nothing may be left. -/
def finish (s : Sidecar) : Reader Sidecar := do
  if !(← get).isEmpty then invalid "trailing bytes"
  return s

theorem run_finish (s : Sidecar) (bs : Bytes) :
    (finish s).run bs = if bs.isEmpty then .ok (s, bs) else .error (.artifactError "trailing bytes") := by
  cases bs <;> rfl

/-! ## Writing, then reading -/

/-- A reader takes the given bytes from the front and gives a value. -/
def Reads (r : Reader α) (bs : Bytes) (a : α) : Prop := ∀ rest, r.run (bs ++ rest) = .ok (a, rest)

theorem reads_pure (a : α) : Reads (pure a) [] a := fun _ => rfl

theorem Reads.run_bind (h : Reads r bs a)
    (rest : Bytes) : (r >>= f).run (bs ++ rest) = (f a).run rest := by
  rw [StateT.run_bind, h]
  rfl

theorem reads_bind {cs : Bytes} {b : β}
    (first : Reads r bs a) (second : Reads (f a) cs b) : Reads (r >>= f) (bs ++ cs) b := by
  intro rest
  rw [List.append_assoc, first.run_bind]
  exact second rest

theorem reads_take (bs : Bytes) : Reads (take bs.length) bs bs := by
  intro rest
  rw [run_take, if_neg (by simp), List.take_left, List.drop_left]

theorem reads_readNat (h : n < twoPow (8 * width)) :
    Reads (readNat width) (littleEndian width n) n := by
  intro rest
  have bytes := reads_take (littleEndian width n)
  rw [length_littleEndian] at bytes
  unfold readNat
  rw [bytes.run_bind, ofLittleEndian_littleEndian h]
  rfl

theorem reads_readName {name : String} (h : IsName name) : Reads readName (writeName name) name := by
  intro rest
  have name_only : (writeName name ++ rest).takeWhile (· != 0) = utf8 name := by
    unfold writeName
    rw [List.append_assoc, List.takeWhile_append_of_pos fun b member => ?_]
    · simp
    · exact bne_iff_ne.mpr fun zero => h (zero ▸ member)
  have left : (writeName name ++ rest).drop ((utf8 name).length + 1) = rest :=
    List.drop_left' (by simp [writeName])
  rw [run_readName, name_only, if_neg (by simp [writeName]), ofUtf8?_utf8, left]

theorem reads_readPrim (p : Prim) : Reads readPrim [tagByte p] p := by
  intro rest
  have byte : Reads (readNat 1) [tagByte p] (tagByte p).toNat := by
    intro rest
    exact (reads_take [tagByte p]).run_bind rest
  unfold readPrim
  rw [byte.run_bind, ofTag?_tagByte]
  rfl

theorem reads_readMany {read : Reader α} :
    ∀ {xs : List α}, (∀ x ∈ xs, Reads read (write x) x) →
      Reads (readMany read xs.length) (xs.flatMap write) xs
  | [], _ => reads_pure []
  | x :: xs, h => by
    obtain ⟨first, others⟩ := List.forall_mem_cons.mp h
    intro rest
    rw [List.length_cons, readMany, List.flatMap_cons, List.append_assoc, first.run_bind,
      (reads_readMany others).run_bind]
    rfl

theorem reads_readList {read : Reader α} {xs : List α}
    (limit : xs.length < twoPow 32) (h : ∀ x ∈ xs, Reads read (write x) x) :
    Reads (readList read) (writeList write xs) xs :=
  reads_bind (reads_readNat limit) (reads_readMany h)

theorem reads_readFunction {f : SidecarFunction} (name : IsName f.mangled)
    (limit : f.params.length < twoPow 8) : Reads readFunction (writeFunction f) f := by
  intro rest
  have count : Reads (readNat 1) [UInt8.ofNat f.params.length] f.params.length := reads_readNat limit
  have params : Reads (readMany readPrim f.params.length) (f.params.map tagByte) f.params := by
    rw [List.map_eq_flatMap]
    exact reads_readMany fun p _ => reads_readPrim p
  have split : writeFunction f ++ rest = writeName f.mangled ++ ([tagByte f.result] ++
      ([UInt8.ofNat f.params.length] ++ (f.params.map tagByte ++ rest))) := by
    simp [writeFunction]
  unfold readFunction
  rw [split, (reads_readName name).run_bind, (reads_readPrim f.result).run_bind, count.run_bind,
    params.run_bind]
  rfl

theorem reads_readGlobal {g : SidecarGlobal} (name : IsName g.mangled)
    (recorded : IsRecorded g.value g.ty) : Reads readGlobal (writeGlobal g) g := by
  intro rest
  have flag : Reads (readNat 1) [if g.isConst then 1 else 0] (if g.isConst then 1 else 0) := by
    cases g.isConst
    · exact reads_readNat (by decide)
    · exact reads_readNat (by decide)
  have value : Reads (readNat 8) (littleEndian 8 g.value.toBits.toNat) g.value.toBits.toNat :=
    reads_readNat g.value.toBits.toNat_lt
  have split : writeGlobal g ++ rest = [if g.isConst then 1 else 0] ++ (writeName g.mangled ++
      ([tagByte g.ty] ++ (littleEndian 8 g.value.toBits.toNat ++ rest))) := by
    simp [writeGlobal]
  have isConst : ((if g.isConst then 1 else 0) != 0) = g.isConst := by cases g.isConst <;> rfl
  unfold readGlobal
  rw [split, flag.run_bind, (reads_readName name).run_bind, (reads_readPrim g.ty).run_bind,
    value.run_bind, UInt64.ofNat_toNat, recorded, isConst]
  rfl

/-- What is written is read back. -/
theorem decode_encode (legible : s.Legible) (limits : s.WithinLimits) :
    decode s.encode = .ok s := by
  have magic_first : Reads (take 3) magic magic := reads_take magic
  have length : Reads (readNat 8) (littleEndian 8 s.listing.length) s.listing.length :=
    reads_readNat limits.listing
  have includes := reads_readList limits.includes fun name member =>
    reads_readName (legible.includes name member)
  have functions := reads_readList limits.functions fun f member =>
    reads_readFunction (legible.functions f member) (limits.params f member)
  have globals := reads_readList limits.globals fun g member =>
    reads_readGlobal (legible.globals g member).1 (legible.globals g member).2
  have split : s.encode = magic ++ (littleEndian 8 s.listing.length ++ (s.listing ++
      (writeList writeName s.includes ++ (writeList writeFunction s.functions ++
        (writeList writeGlobal s.globals ++ []))))) := by
    simp [encode]
  have run : reader.run s.encode = .ok (s, []) := by
    unfold reader
    rw [split, magic_first.run_bind]
    change StateT.run (readNat 8 >>= _) _ = _
    rw [length.run_bind, (reads_take s.listing).run_bind, includes.run_bind, functions.run_bind,
      globals.run_bind]
    exact run_finish s []
  unfold decode
  rw [run]
  rfl

/-! ## Reading, then writing -/

/-- Whatever a reader gives, it took bytes from the front of which a relation holds. -/
def Takes (r : Reader α) (P : Bytes → α → Prop) : Prop :=
  ∀ bs a rest, r.run bs = .ok (a, rest) → ∃ front, bs = front ++ rest ∧ P front a

theorem takes_pure (h : P [] a) : Takes (pure a) P := by
  rintro bs _ _ ⟨⟩
  exact ⟨[], rfl, h⟩

theorem takes_invalid {message : String} : Takes (invalid message) P := by
  rintro bs _ _ ⟨⟩

theorem takes_bind {Q : Bytes → β → Prop}
    (first : Takes r P) (second : ∀ a front, P front a → Takes (f a) fun cs b => Q (front ++ cs) b) :
    Takes (r >>= f) Q := by
  intro bs b rest run
  rw [StateT.run_bind] at run
  cases taken : r.run bs with
  | error e =>
    rw [taken] at run
    cases run
  | ok result =>
    rw [taken] at run
    obtain ⟨front, rfl, here⟩ := first bs result.1 result.2 taken
    obtain ⟨more, whole, there⟩ := second result.1 front here _ _ _ run
    exact ⟨front ++ more, by rw [whole, List.append_assoc], there⟩

theorem Takes.imp {Q : Bytes → α → Prop} (h : Takes r P)
    (imp : ∀ front a, P front a → Q front a) : Takes r Q := by
  intro bs a rest run
  obtain ⟨front, whole, here⟩ := h bs a rest run
  exact ⟨front, whole, imp front a here⟩

theorem takes_take (count : Nat) :
    Takes (take count) fun front bytes => front = bytes ∧ bytes.length = count := by
  intro bs bytes rest run
  rw [run_take] at run
  split at run
  next => cases run
  next enough =>
    cases run
    exact ⟨bs.take count, (List.take_append_drop count bs).symm, rfl,
      List.length_take_of_le (Nat.le_of_not_lt enough)⟩

theorem takes_readNat (width : Nat) :
    Takes (readNat width) fun front n => front = littleEndian width n ∧ n < twoPow (8 * width) := by
  refine takes_bind (takes_take width) ?_
  rintro _ bytes ⟨rfl, rfl⟩
  refine takes_pure ⟨?_, ofLittleEndian_lt bytes⟩
  rw [List.append_nil, littleEndian_ofLittleEndian]

theorem takes_readName : Takes readName fun front name => front = writeName name ∧ IsName name := by
  intro bs name rest run
  rw [run_readName] at run
  split at run
  next => cases run
  next more =>
    split at run
    next => cases run
    next text isText =>
      cases run
      -- Behind the bytes of the name stands one that is zero.
      have bytes := utf8_of_ofUtf8? isText
      have zero : ∃ others, bs.dropWhile (· != 0) = 0 :: others := by
        cases left : bs.dropWhile (· != 0) with
        | nil =>
          have whole := congrArg List.length (List.takeWhile_append_dropWhile (p := (· != 0)) (l := bs))
          rw [left, List.append_nil] at whole
          exact absurd whole more
        | cons b others =>
          have stops := List.head?_dropWhile_not (· != 0) bs
          exact ⟨others, by simp_all⟩
      obtain ⟨others, left⟩ := zero
      have whole : utf8 name ++ 0 :: others = bs := by
        rw [bytes, ← left]
        exact List.takeWhile_append_dropWhile
      refine ⟨writeName name, ?_, rfl, ?_⟩
      · have after : bs.drop ((utf8 name).length + 1) = others := by
          rw [← whole, List.drop_append]
          simp
        rw [← bytes, after, writeName, List.append_assoc]
        exact whole.symm
      · unfold IsName
        rw [bytes]
        intro member
        have other := List.all_eq_true.mp List.all_takeWhile 0 member
        exact absurd rfl (bne_iff_ne.mp other)

theorem takes_readPrim : Takes readPrim fun front p => front = [tagByte p] := by
  refine takes_bind (takes_readNat 1) ?_
  rintro n front ⟨rfl, -⟩
  split
  next p tag =>
    refine takes_pure ?_
    rw [List.append_nil, tagByte, tag_of_ofTag? tag]
    rfl
  next => exact takes_invalid

section Lists

variable {read : Reader α} {fields : α → List Field} {Good : α → Prop}

theorem takes_readMany (h : Takes read fun front x => Spells (fields x) front ∧ Good x) :
    ∀ n : Nat, Takes (readMany read n) fun front xs =>
      xs.length = n ∧ Spells (xs.flatMap fields) front ∧ ∀ x ∈ xs, Good x
  | 0 => takes_pure ⟨rfl, rfl, List.forall_mem_nil _⟩
  | n + 1 => by
    refine takes_bind h ?_
    rintro x front ⟨here, good⟩
    refine takes_bind (takes_readMany h n) ?_
    rintro xs more ⟨length, there, others⟩
    refine takes_pure ⟨congrArg (· + 1) length, ?_, List.forall_mem_cons.mpr ⟨good, others⟩⟩
    rw [List.append_nil]
    exact there.append here

theorem takes_readList (h : Takes read fun front x => Spells (fields x) front ∧ Good x) :
    Takes (readList read) fun front xs =>
      Spells (listFields fields xs) front ∧ xs.length < twoPow 32 ∧ ∀ x ∈ xs, Good x := by
  refine takes_bind (takes_readNat 4) ?_
  rintro n front ⟨rfl, limit⟩
  refine (takes_readMany h n).imp ?_
  rintro more xs ⟨rfl, there, good⟩
  exact ⟨⟨_, more, rfl, rfl, fun _ => rfl, there⟩, limit, good⟩

end Lists

theorem takes_readFunction : Takes readFunction fun front f =>
    Spells (functionFields f) front ∧ IsName f.mangled ∧ f.params.length < twoPow 8 := by
  have prim : Takes readPrim fun front p => Spells [tagField p] front ∧ True := by
    refine takes_readPrim.imp ?_
    rintro _ p rfl
    exact ⟨spells_spell [tagField p], trivial⟩
  refine takes_bind takes_readName ?_
  rintro mangled _ ⟨rfl, name⟩
  refine takes_bind takes_readPrim ?_
  rintro result _ rfl
  refine takes_bind (takes_readNat 1) ?_
  rintro count _ ⟨rfl, limit⟩
  refine takes_bind (takes_readMany prim count) ?_
  rintro params front ⟨rfl, tags, -⟩
  refine takes_pure ⟨?_, name, limit⟩
  rw [← List.map_eq_flatMap] at tags
  have whole := tags.append (spells_spell [nameField mangled, tagField result,
    countField 1 params.length])
  simpa [spell, nameField, tagField, countField, functionFields] using whole

theorem takes_readGlobal : Takes readGlobal fun front g =>
    Spells (globalFields g) front ∧ IsName g.mangled ∧ IsRecorded g.value g.ty := by
  refine takes_bind (takes_readNat 1) ?_
  rintro flag _ ⟨rfl, -⟩
  refine takes_bind takes_readName ?_
  rintro mangled _ ⟨rfl, name⟩
  refine takes_bind takes_readPrim ?_
  rintro ty _ rfl
  refine takes_bind (takes_readNat 8) ?_
  rintro bits _ ⟨rfl, limit⟩
  refine takes_pure ⟨?_, name, isRecorded_ofBits _ ty⟩
  have flagged : Spells [⟨.constFlag, [if flag != 0 then 1 else 0]⟩] (littleEndian 1 flag) :=
    spells_singleton rfl (by rintro ⟨⟩)
  have value : Spells [⟨.value ty, littleEndian 8 (Constant.ofBits (UInt64.ofNat bits) ty).toBits.toNat⟩]
      (littleEndian 8 bits) := by
    refine spells_singleton (by simp) fun fixed => ?_
    rw [toBits_ofBits (by rintro rfl; cases fixed), UInt64.toNat_ofNat_of_lt' limit]
  have whole := (value.append (spells_spell [nameField mangled, tagField ty])).append flagged
  simpa [spell, nameField, tagField, globalFields] using whole

theorem takes_finish (s : Sidecar) : Takes (finish s) fun front a => front = [] ∧ a = s := by
  intro bs a rest run
  rw [run_finish] at run
  split at run
  next =>
    cases run
    exact ⟨[], rfl, rfl, rfl⟩
  next => cases run

/-- What is read as a sidecar spells it. -/
theorem takes_reader : Takes reader fun front s =>
    Spells s.fields front ∧ s.Legible ∧ s.WithinLimits := by
  have name : Takes readName fun front name => Spells [nameField name] front ∧ IsName name := by
    refine takes_readName.imp ?_
    rintro _ name ⟨rfl, isName⟩
    refine ⟨?_, isName⟩
    simpa [spell, nameField] using spells_spell [nameField name]
  refine takes_bind (takes_take 3) ?_
  rintro _ header ⟨rfl, -⟩
  split
  next => exact takes_bind (P := fun _ _ => False) takes_invalid fun _ _ no => no.elim
  next isMagic =>
    have isMagic : header = magic := by simpa using isMagic
    refine takes_bind (takes_readNat 8) ?_
    rintro length _ ⟨rfl, limit⟩
    refine takes_bind (takes_take length) ?_
    rintro _ listing ⟨rfl, rfl⟩
    refine takes_bind (takes_readList name) ?_
    rintro includes front1 ⟨spells1, limit1, names1⟩
    refine takes_bind (takes_readList takes_readFunction) ?_
    rintro functions front2 ⟨spells2, limit2, good2⟩
    refine takes_bind (takes_readList takes_readGlobal) ?_
    rintro globals front3 ⟨spells3, limit3, good3⟩
    refine (takes_finish ⟨listing, includes, functions, globals⟩).imp ?_
    rintro _ s ⟨rfl, rfl⟩
    refine ⟨?_, ⟨names1, fun f member => (good2 f member).1, good3⟩,
      ⟨limit, limit1, limit2, fun f member => (good2 f member).2, limit3⟩⟩
    have whole := ((spells3.append spells2).append spells1).append
      (spells_spell [⟨.magic, magic⟩, countField 8 listing.length, ⟨.listing, listing⟩])
    simpa [fields, spell, countField, isMagic] using whole

/-- A reader leaves nothing. -/
def Ends (r : Reader α) : Prop := ∀ bs a rest, r.run bs = .ok (a, rest) → rest = []

theorem ends_bind (h : ∀ a, Ends (f a)) : Ends (r >>= f) := by
  intro bs b rest run
  rw [StateT.run_bind] at run
  cases taken : r.run bs with
  | error e =>
    rw [taken] at run
    cases run
  | ok result =>
    rw [taken] at run
    exact h result.1 _ _ _ run

theorem ends_finish (s : Sidecar) : Ends (finish s) := by
  intro bs a rest run
  rw [run_finish] at run
  split at run
  next empty =>
    cases run
    exact List.isEmpty_iff.mp empty
  next => cases run

/-- All of a sidecar, without the test that nothing is left. -/
def contents : Reader Sidecar := do
  if (← take 3) != magic then invalid "missing \x60eb$\x60 header"
  let listing ← take (← readNat 8)
  let includes ← readList readName
  let functions ← readList readFunction
  let globals ← readList readGlobal
  return ⟨listing, includes, functions, globals⟩

theorem reader_eq : reader = contents >>= finish := by
  unfold reader contents finish
  rw [bind_assoc]
  refine bind_congr fun header => ?_
  split <;> simp only [bind_assoc, pure_bind]

theorem ends_reader : Ends reader := by
  rw [reader_eq]
  exact ends_bind ends_finish

/-- Bytes that are read as a sidecar spell it, and it is legible and within limits. -/
theorem of_decode (h : decode bs = .ok s) : Spells s.fields bs ∧ s.Legible ∧ s.WithinLimits := by
  unfold decode at h
  cases run : reader.run bs with
  | error e =>
    rw [run] at h
    cases h
  | ok result =>
    rw [run] at h
    cases h
    obtain ⟨front, rfl, spells⟩ := takes_reader bs result.1 result.2 run
    rw [ends_reader _ _ _ run, List.append_nil]
    exact spells

/-- A sidecar is read back exactly if it is legible and within limits. -/
theorem decode_encode_iff : decode s.encode = .ok s ↔ s.Legible ∧ s.WithinLimits :=
  ⟨fun h => (of_decode h).2, fun h => decode_encode h.1 h.2⟩

/-- Encoding what was decoded loses nothing: it is read as the same sidecar, and it has the bytes
there were, but for those of a flag and of the value of a `Bool`. -/
theorem encode_of_decode {bs : Bytes} {s : Sidecar} (h : decode bs = .ok s) :
    decode s.encode = .ok s ∧ s.encode.length = bs.length ∧
      ∀ i : Nat, s.encode[i]? ≠ bs[i]? →
        s.roles[i]? = some .constFlag ∨ s.roles[i]? = some (.value .bool) := by
  obtain ⟨spells, legible, limits⟩ := of_decode h
  rw [← spell_fields] at *
  refine ⟨spell_fields s ▸ decode_encode legible limits, spells.length_eq, fun i differ => ?_⟩
  obtain ⟨role, there, loose⟩ := spells.loose_of_ne differ
  have here : s.roles[i]? = some role := there
  rw [here]
  cases role with
  | constFlag => exact .inl rfl
  | value ty => exact .inr (by rw [beq_iff_eq.mp loose])
  | magic | count | listing | name | tag => cases loose

/-- A sidecar with a global whose flag is 7 and whose value, a `Bool`, is 258. -/
def oddBytes : Bytes :=
  magic ++ littleEndian 8 1 ++ [0x21] ++ writeList writeName ["é"] ++
    writeList writeFunction [⟨"m.f.1.0", .void, [.u8]⟩] ++ littleEndian 4 1 ++
    7 :: writeName "m.g" ++ tagByte .bool :: littleEndian 8 258

/-- What `oddBytes` are read as. -/
def oddSidecar : Sidecar :=
  ⟨[0x21], ["é"], [⟨"m.f.1.0", .void, [.u8]⟩], [⟨true, "m.g", .bool, .bool true⟩]⟩

theorem encode_of_decode_oddBytes :
    decode oddBytes = .ok oddSidecar ∧ oddSidecar.encode ≠ oddBytes ∧
      decode oddSidecar.encode = .ok oddSidecar ∧ oddSidecar.encode.length = oddBytes.length ∧
      ∀ i : Nat, oddSidecar.encode[i]? ≠ oddBytes[i]? →
        oddSidecar.roles[i]? = some .constFlag ∨ oddSidecar.roles[i]? = some (.value .bool) := by
  have read : decode oddBytes = .ok oddSidecar := rfl
  exact ⟨read, by decide +kernel, encode_of_decode read⟩

end EbLang.Sidecar
