import EbLang.Proofs.Loading
import EbLang.Proofs.Mangling
import EbLang.Proofs.Sidecar
import Mathlib.Data.List.Perm.Basic

/-!
# Sidecars of analysed files

What is recorded of an analysed file can be told from the bytes: names of source text hold no zero
byte, and the value of a global was converted to its type, so it is one that its bits tell.  Hence the
sidecar of an analysed file is read back exactly if every count in it fits its field.

The field for the number of a function's parameters has one byte.  Source text may declare more than
255 parameters, and then the sidecar cannot be read.
-/

namespace EbLang

variable {σ : Type}

namespace Sidecar

variable {p : Prim}

/-! ## Names -/

theorem utf8_eq_flatMap (s : String) : utf8 s = s.toList.flatMap String.utf8EncodeChar := by
  simp only [utf8, String.toUTF8_eq_toByteArray, ← String.utf8Encode_toList, List.utf8Encode,
    List.data_toByteArray]

theorem eq_zero_of_zero_mem {c : Char} (h : 0 ∈ String.utf8EncodeChar c) : c = '\x00' := by
  have byte {n : Nat} (zero : 0 = UInt8.ofNat n) : n % 256 = 0 := by
    have := congrArg UInt8.toNat zero
    simpa using this.symm
  simp only [String.utf8EncodeChar] at h
  split at h
  · have zero := byte (List.mem_singleton.mp h)
    have code : c.val.toNat = 0 := by omega
    exact Char.toNat_inj.mp code
  · split at h
    · simp only [List.mem_cons, List.not_mem_nil, or_false] at h
      rcases h with h | h <;> have := byte h <;> omega
    · split at h
      · simp only [List.mem_cons, List.not_mem_nil, or_false] at h
        rcases h with h | h | h <;> have := byte h <;> omega
      · simp only [List.mem_cons, List.not_mem_nil, or_false] at h
        rcases h with h | h | h | h <;> have := byte h <;> omega

theorem isName_of_toList {s : String} (h : '\x00' ∉ s.toList) : IsName s := by
  intro zero
  rw [utf8_eq_flatMap] at zero
  obtain ⟨c, there, encoded⟩ := List.mem_flatMap.mp zero
  exact h (eq_zero_of_zero_mem encoded ▸ there)

theorem IsName.append {s t : String} (hs : IsName s) (ht : IsName t) : IsName (s ++ t) := by
  intro zero
  rcases List.mem_append.mp zero with zero | zero
  · exact hs zero
  · exact ht zero

theorem isName_joinName {parts : List String} (h : ∀ part ∈ parts, IsName part) :
    IsName (joinName parts) := by
  have dot : IsName "." := isName_of_toList (by decide)
  induction parts with
  | nil => exact isName_of_toList (by decide)
  | cons part parts ih =>
    obtain ⟨first, others⟩ := List.forall_mem_cons.mp h
    cases parts with
    | nil => simpa [joinName] using first
    | cons next rest =>
      have whole : joinName (part :: next :: rest) = part ++ "." ++ joinName (next :: rest) := by
        simp [joinName]
      rw [whole]
      exact (first.append dot).append (ih others)

theorem isName_toString (n : Nat) : IsName (toString n) := by
  apply isName_of_toList
  rw [toList_toString]
  intro zero
  exact absurd (Nat.isDigit_of_mem_toDigits (by decide) (by decide) zero) (by decide)

theorem isName_mangle {home name : String} (hh : IsName home) (hn : IsName name)
    (others : List Nat) : IsName (Resolving.mangle home name others) := by
  apply isName_joinName
  simp only [List.forall_mem_cons, List.forall_mem_map]
  exact ⟨hh, hn, fun n _ => isName_toString n⟩

/-- A name of source text holds no zero byte. -/
theorem isName_of_isNamePart {s : String} (h : ∀ c ∈ s.toList, IsNamePart c) : IsName s := by
  apply isName_of_toList
  intro zero
  rcases h _ zero with isName | isDot
  · exact absurd isName (by decide)
  · exact absurd isDot (by decide)

/-! ## Values -/

theorem ofBits_of_isInt (int : p.isInt = true) (bits : UInt64) :
    Constant.ofBits bits p =
      .int (if p.isSigned then Int.bmod bits.toNat (twoPow 64) else bits.toNat) := by
  cases p with
  | bool | f32 | f64 => cases int
  | void | i8 | i16 | i32 | i64 | iptr | u8 | u16 | u32 | u64 | uptr => rfl

/-- A value of an integer type is told from its lowest 64 bits. -/
theorem isRecorded_of_fits {i : Int} (int : p.isInt = true)
    (fits : Constant.fits i p = true) : IsRecorded (.int i) p := by
  have size : twoPow 64 = 18446744073709551616 := by decide
  have half : twoPow 63 = 9223372036854775808 := by decide
  have nonneg : 0 ≤ i % twoPow 64 := Int.emod_nonneg i (by omega)
  have bits : (UInt64.ofNat (i % twoPow 64).toNat).toNat = (i % twoPow 64).toNat :=
    UInt64.toNat_ofNat_of_lt' ((Int.toNat_lt nonneg).mpr (Int.emod_lt_of_pos i (by omega)))
  simp only [Constant.fits] at fits
  simp only [IsRecorded, Constant.toBits, ofBits_of_isInt int, bits, Int.toNat_of_nonneg nonneg]
  split at fits
  next signed =>
    have narrow : twoPow (p.width - 1) ≤ twoPow 63 := by cases p <;> decide
    have range := of_decide_eq_true fits
    rw [if_pos signed, Int.emod_bmod, Int.bmod_eq_of_le (by omega) (by omega)]
  next unsigned =>
    have narrow : twoPow p.width ≤ twoPow 64 := by cases p <;> decide
    have range := of_decide_eq_true fits
    rw [if_neg unsigned, Int.emod_eq_of_lt range.1 (by omega)]

theorem isRecorded_of_isFloat (float : p.isFloat = true) (x : Binary64) :
    IsRecorded (.float x) p := by
  cases p with
  | f32 | f64 => rfl
  | void | bool | i8 | i16 | i32 | i64 | iptr | u8 | u16 | u32 | u64 | uptr => cases float

/-- A converted value is told from its bits. -/
theorem isRecorded_of_convert {value value' : Constant} {ty : Ty}
    (converted : value.convert ty = .ok value') (prim : ty.prim? = some p) :
    IsRecorded value' p := by
  cases value with
  | bool b =>
    simp only [Constant.convert, prim] at converted
    by_cases isBool : p = .bool
    · rw [if_pos isBool] at converted
      cases converted
      subst isBool
      cases b <;> rfl
    · rw [if_neg isBool] at converted
      cases converted
  | int i =>
    simp only [Constant.convert, prim] at converted
    by_cases int : p.isInt = true
    · rw [if_pos int] at converted
      by_cases fits : Constant.fits i p = true
      · rw [if_pos fits] at converted
        cases converted
        exact isRecorded_of_fits int fits
      · rw [if_neg fits] at converted
        cases converted
    · rw [if_neg int] at converted
      by_cases float : p.isFloat = true
      · rw [if_pos float] at converted
        cases converted
        exact isRecorded_of_isFloat float _
      · rw [if_neg float] at converted
        cases converted
  | float x =>
    simp only [Constant.convert, prim] at converted
    by_cases float : p.isFloat = true
    · rw [if_pos float] at converted
      cases converted
      exact isRecorded_of_isFloat float x
    · rw [if_neg float] at converted
      cases converted
  | struct members =>
    simp only [Constant.convert, prim] at converted
    cases converted

theorem fits_of_isRecorded {i : Int} (int : p.isInt = true) (wide : p.width = 64)
    (recorded : IsRecorded (.int i) p) : Constant.fits i p = true := by
  have size : twoPow 64 = 18446744073709551616 := by decide
  have half : twoPow (64 - 1) = 9223372036854775808 := by decide
  rw [IsRecorded, ofBits_of_isInt int] at recorded
  generalize (Constant.int i).toBits = bits at recorded
  have lt := bits.toNat_lt
  cases recorded
  rw [Constant.fits, wide]
  split
  next =>
    have low := Int.le_bmod (x := bits.toNat) (m := twoPow 64) (by omega)
    have high := Int.bmod_lt (x := bits.toNat) (m := twoPow 64) (by omega)
    exact decide_eq_true (by omega)
  next => exact decide_eq_true (by omega)

/-- Converted constants are told from their bits.  For integers of 64 bits nothing else is: a value is
accepted exactly if no bit of it gets lost. -/
theorem ofBits_toBits_of_convert (p : Prim) :
    (∀ v w : Constant, v.convert (.ofPrim p) = .ok w → Constant.ofBits w.toBits p = w) ∧
      (p.isInt = true → p.width = 64 → ∀ i : Int,
        (∃ w, (Constant.int i).convert (.ofPrim p) = .ok w) ↔
          Constant.ofBits (Constant.int i).toBits p = .int i) := by
  have prim : (Ty.ofPrim p).prim? = some p := PrimSet.only?_single p
  refine ⟨fun v w converted => isRecorded_of_convert converted prim, fun int wide i => ?_⟩
  have accepted : (∃ w, (Constant.int i).convert (.ofPrim p) = .ok w) ↔
      Constant.fits i p = true := by
    simp only [Constant.convert, prim, int, if_true]
    split <;> simp_all
  exact accepted.trans ⟨isRecorded_of_fits int, fits_of_isRecorded int wide⟩

theorem isRecorded_of_evalAs {e : Expr Term} {declared : Option Ty} {value : Constant} {ty : Ty}
    (evaluated : Constant.evalAs e declared = .ok (value, ty))
    (prim : ty.prim? = some p) : IsRecorded value p := by
  have recorded : Ensures (Constant.evalAs e declared) fun r =>
      ∀ p, r.2.prim? = some p → IsRecorded r.1 p := by
    refine ensures_then fun v => ensures_bind ensures_self fun v' converted => ensures_pure ?_
    exact fun p prim => isRecorded_of_convert converted prim
  exact recorded _ evaluated p prim

end Sidecar

/-! ## Files -/

/-- What an analysed file declares is made of the items of its tree. -/
theorem leads_analyse_itemNames (loader : Loader σ) (source file name : String)
    (shared : Shared σ) :
    Leads (analyse loader source file name) shared fun m _ => m.decls.root = name ∧
      ∃ l t, scan source file = .ok l ∧ readTree l name = .ok t ∧ m.decls.MadeOf t.itemNames := by
  simp only [analyse, analyseLexed_eq]
  refine leads_bind (leads_lift ensures_self) ?_
  rintro l s1 ⟨-, scanned⟩
  refine leads_bind (leads_lift ensures_self) ?_
  rintro t s2 ⟨-, read⟩
  refine leads_bind (t.leads_resolve_madeOf loader s2) ?_
  rintro m s3 ⟨root, made⟩
  refine leads_get ((leads_lift (m.keeps_finish s3.structs)).imp ?_)
  rintro m' s4 ⟨-, same, -⟩
  rw [same]
  exact ⟨root.trans (ensures_readTree_named l name t read).1, l, t, scanned, read, made⟩

/-- What an analysed file declares is made of items with names of source text. -/
theorem leads_analyse_madeOf (loader : Loader σ) (source file name : String) (shared : Shared σ) :
    Leads (analyse loader source file name) shared fun m _ => m.decls.root = name ∧
      ∃ names, m.decls.MadeOf names ∧ ∀ x ∈ names, ∀ c ∈ x.text.toList, IsNamePart c := by
  refine (leads_analyse_itemNames loader source file name shared).imp ?_
  rintro m _ ⟨root, l, t, scanned, read, made⟩
  refine ⟨root, t.itemNames, made, fun x there => ?_⟩
  obtain ⟨token, mem, identifier, text⟩ := ((ensures_readTree_named l name t read).2 x there).1
  rw [← text]
  exact ensures_scan source file l scanned token mem identifier

namespace Declarations

variable (d : Declarations)

theorem perm_allFunctions : d.allFunctions.Perm d.functions :=
  (List.mergeSort_perm d.modules _).flatMap fun e _ => List.mergeSort_perm e.2.functions _

theorem perm_allGlobals : d.allGlobals.Perm d.globals :=
  (List.mergeSort_perm d.modules _).flatMap fun e _ => List.mergeSort_perm e.2.globals _

end Declarations

namespace Sidecar

variable {m : Module} {names : List ItemName} {listing : Bytes} {includes : List String}

theorem mangled_of_ofFunction? {s : Signature} {f : SidecarFunction} (h : ofFunction? s = some f) :
    f.mangled = s.mangled := by
  simp only [ofFunction?] at h
  split at h
  · obtain ⟨result, -, h⟩ := Option.bind_eq_some_iff.mp h
    obtain ⟨params, -, h⟩ := Option.bind_eq_some_iff.mp h
    cases h
    rfl
  · cases h

theorem ofGlobal?_eq_some {g : Global} {r : SidecarGlobal} (h : ofGlobal? g = some r) :
    g.ty.prim? = some r.ty ∧ r.mangled = g.mangled ∧ r.value = g.value := by
  simp only [ofGlobal?] at h
  split at h
  · obtain ⟨p, prim, h⟩ := Option.map_eq_some_iff.mp h
    cases h
    exact ⟨prim, rfl, rfl⟩
  · cases h

/-- What is recorded of a file can be told from the bytes. -/
theorem legible_ofModule (made : m.decls.MadeOf names) (root : IsName m.decls.root)
    (chars : ∀ x ∈ names, ∀ c ∈ x.text.toList, IsNamePart c)
    (named : ∀ i ∈ includes, IsName i) : (ofModule m listing includes).Legible := by
  have text {kind : ItemKind} {name : String} (there : ⟨kind, name⟩ ∈ names) : IsName name :=
    isName_of_isNamePart (chars _ there)
  have home (e) (mem : e ∈ m.decls.modules) : IsName (m.decls.dottedPath e.1) :=
    isName_joinName (List.forall_mem_cons.mpr
      ⟨root, fun part there => text (made.paths e mem part there)⟩)
  refine ⟨named, ?_, ?_⟩
  · intro f there
    obtain ⟨s, there, recorded⟩ := List.mem_filterMap.mp there
    obtain ⟨e, mem, there⟩ := List.mem_flatMap.mp (m.decls.perm_allFunctions.mem_iff.mp there)
    obtain ⟨i, there⟩ := List.mem_iff_getElem?.mp there
    obtain ⟨name, mangled⟩ := (made.members e mem).functions i s there
    rw [mangled_of_ofFunction? recorded, mangled]
    exact isName_mangle (home e mem) (name.elim text text) _
  · intro r there
    obtain ⟨g, there, recorded⟩ := List.mem_filterMap.mp there
    obtain ⟨e, mem, there⟩ := List.mem_flatMap.mp (m.decls.perm_allGlobals.mem_iff.mp there)
    obtain ⟨name, mangled, value, ty, evaluated⟩ := (made.members e mem).globals g there
    obtain ⟨prim, mangled', value'⟩ := ofGlobal?_eq_some recorded
    rw [mangled', mangled, value']
    exact ⟨isName_mangle (home e mem) (text name) [], isRecorded_of_evalAs evaluated prim⟩

/-- The counts of a file's sidecar do not depend on the order of its items. -/
theorem withinLimits_ofModule_iff :
    (ofModule m listing includes).WithinLimits ↔
      listing.length < twoPow 64 ∧ includes.length < twoPow 32 ∧
      (m.decls.functions.filterMap ofFunction?).length < twoPow 32 ∧
      (∀ f ∈ m.decls.functions.filterMap ofFunction?, f.params.length < twoPow 8) ∧
      (m.decls.globals.filterMap ofGlobal?).length < twoPow 32 := by
  have functions := m.decls.perm_allFunctions.filterMap ofFunction?
  have globals := m.decls.perm_allGlobals.filterMap ofGlobal?
  constructor
  · intro limits
    refine ⟨limits.listing, limits.includes, ?_, ?_, ?_⟩
    · exact functions.length_eq ▸ limits.functions
    · exact fun f there => limits.params f (functions.mem_iff.mpr there)
    · exact globals.length_eq ▸ limits.globals
  · intro limits
    obtain ⟨listing, includes, count, params, count'⟩ := limits
    refine ⟨listing, includes, ?_, ?_, ?_⟩
    · exact functions.length_eq.symm ▸ count
    · exact fun f there => params f (functions.mem_iff.mp there)
    · exact globals.length_eq.symm ▸ count'

/-! ## Reading back -/

/-- The sidecar of an analysed file is read back exactly if every count in it fits its field. -/
theorem decode_encode_ofModule_iff (loader : Loader σ) {source file name : String}
    {shared shared' : Shared σ} (analysed : Gives (analyse loader source file name) shared m shared')
    (root : IsName name) (listing : Bytes) (named : ∀ i ∈ includes, IsName i) :
    decode (ofModule m listing includes).encode = .ok (ofModule m listing includes) ↔
      (ofModule m listing includes).WithinLimits := by
  obtain ⟨same, names, made, chars⟩ := leads_analyse_madeOf loader source file name shared m _ analysed
  have legible : (ofModule m listing includes).Legible :=
    legible_ofModule made (same ▸ root) chars named
  rw [decode_encode_iff]
  exact and_iff_right legible

end Sidecar

namespace Sidecar

/-- Public functions and globals, in the file and in a module; `low` has a negative value. -/
def recordedItems : List Char :=
  "pub fn f(a: I8, b: F64) \x7b \x7d\n".toList ++
  "pub const low: I64 = -9223372036854775807\n".toList ++
  "pub global half: F32 = 0.5\n".toList ++
  "pub module a \x7b\n".toList ++
  "  pub fn f(b: Bool): U64 \x7b return 1 \x7d\n".toList ++
  "  pub const all: U64 = 18446744073709551615\n".toList ++
  "\x7d\n".toList

theorem decode_encode_ofModule_recordedItems :
    ∃ m shared, Gives (analyse noFiles (String.ofList recordedItems) "m" "m") ⟨{}, ()⟩ m shared ∧
      m.decls.functions.length = 2 ∧ m.decls.globals.length = 3 ∧
      IsName "m" ∧ (∀ i ∈ ["b"], IsName i) ∧ (ofModule m [0, 1] ["b"]).WithinLimits ∧
      decode (ofModule m [0, 1] ["b"]).encode = .ok (ofModule m [0, 1] ["b"]) := by
  have run : givesAs (analyseChars recordedItems) ⟨{}, ()⟩ (fun m _ =>
      (m.decls.functions.length = 2 ∧ m.decls.globals.length = 3) ∧
      (m.decls.functions.filterMap ofFunction?).length < twoPow 32 ∧
      (∀ f ∈ m.decls.functions.filterMap ofFunction?, f.params.length < twoPow 8) ∧
      (m.decls.globals.filterMap ofGlobal?).length < twoPow 32) = true := by
    decide +kernel
  obtain ⟨m, shared, analysed, checked⟩ := exists_of_givesAs run
  rw [← analyse_ofList] at analysed
  obtain ⟨⟨functions, globals⟩, counts⟩ := of_decide_eq_true checked
  have root : IsName "m" := isName_of_toList (by decide)
  have named : ∀ i ∈ ["b"], IsName i := by
    intro i there
    rw [List.mem_singleton.mp there]
    exact isName_of_toList (by decide)
  have limits : (ofModule m [0, 1] ["b"]).WithinLimits :=
    withinLimits_ofModule_iff.mpr ⟨by decide, by decide, counts⟩
  exact ⟨m, shared, analysed, functions, globals, root, named, limits,
    (decode_encode_ofModule_iff noFiles analysed root [0, 1] named).mpr limits⟩

/-- A function with 256 parameters. -/
def manyParameters : List Char :=
  "pub fn f(".toList ++ (List.replicate 256 "a:I8,".toList).flatten ++ ") \x7b \x7d".toList

/-- The number of parameters does not fit its byte, and the sidecar is not read back. -/
theorem decode_encode_ofModule_manyParameters :
    ∃ m shared, Gives (analyse noFiles (String.ofList manyParameters) "m" "m") ⟨{}, ()⟩ m shared ∧
      IsName "m" ∧ ∀ listing, decode (ofModule m listing []).encode ≠ .ok (ofModule m listing []) := by
  have run : givesAs (analyseChars manyParameters) ⟨{}, ()⟩ (fun m _ =>
      ∃ f ∈ m.decls.functions.filterMap ofFunction?, f.params.length = 256) = true := by
    decide +kernel
  obtain ⟨m, shared, analysed, checked⟩ := exists_of_givesAs run
  rw [← analyse_ofList] at analysed
  obtain ⟨f, there, count⟩ := of_decide_eq_true checked
  refine ⟨m, shared, analysed, isName_of_toList (by decide), fun listing same => ?_⟩
  have limits := withinLimits_ofModule_iff.mp (decode_encode_iff.mp same).2
  have few := limits.2.2.2.1 f there
  rw [count] at few
  exact absurd few (by decide)

end Sidecar

end EbLang
