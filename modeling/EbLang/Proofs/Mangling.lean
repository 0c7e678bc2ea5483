import EbLang.Proofs.Declared

/-!
# Mangled names

A mangled name is the root of the file, the path of the module and the name of the item, for functions
also their arity and number, with dots between them.

*Taking names apart.*  If no part holds a dot, the parts can be told from the whole, so two mangled
names with as many parts behind the item's are equal only if all their parts are.

*Files.*  Paths of modules differ, structs and globals of one module have different names, and
overloads of one function have different numbers; hence mangled names differ, as long as no name of a
struct or a global holds a dot itself.  Functions and modules with such names are not read.
-/

namespace EbLang

open Resolving (mangle)

/-! ## Taking names apart -/

theorem splitAtDots_append {cs : List Char} (h : '.' ∉ cs) (ds : List Char) :
    splitAtDots (cs ++ '.' :: ds) = cs :: splitAtDots ds := by
  induction cs with
  | nil => simp [splitAtDots]
  | cons c cs ih =>
    obtain ⟨first, others⟩ := List.ne_and_not_mem_of_not_mem_cons h
    simp only [List.cons_append, splitAtDots, if_neg (Ne.symm first), ih others]

theorem dot_not_mem {name : String} (h : isQualified name = false) : '.' ∉ name.toList := by
  simpa [isQualified] using h

/-- A name is taken apart into the parts it was put together from. -/
theorem splitName_joinName {parts : List String} (ne : parts ≠ [])
    (h : ∀ part ∈ parts, isQualified part = false) : splitName (joinName parts) = parts := by
  have lists : splitAtDots (joinName parts).toList = parts.map String.toList := by
    induction parts with
    | nil => exact absurd rfl ne
    | cons part parts ih =>
      obtain ⟨first, others⟩ := List.forall_mem_cons.mp h
      cases parts with
      | nil => simpa [joinName] using splitAtDots_eq_singleton (dot_not_mem first)
      | cons next rest =>
        have inner := ih (List.cons_ne_nil next rest) others
        have whole : (joinName (part :: next :: rest)).toList =
            part.toList ++ '.' :: (joinName (next :: rest)).toList := by
          simp [joinName]
        rw [whole, splitAtDots_append (dot_not_mem first), inner]
        rfl
  simp [splitName, lists]

theorem toList_toString (n : Nat) : (toString n).toList = Nat.toDigits 10 n := by
  rw [Nat.toString_eq_ofList_toDigits, String.toList_ofList]

theorem toString_injective {n k : Nat} (h : toString n = toString k) : n = k := by
  have digits : Nat.toDigits 10 n = Nat.toDigits 10 k := by
    rw [← toList_toString, ← toList_toString, h]
  rw [← Nat.ofDigitChars_ten_toDigits (n := n), digits, Nat.ofDigitChars_ten_toDigits]

theorem isQualified_toString (n : Nat) : isQualified (toString n) = false := by
  have digits : '.' ∉ (toString n).toList := by
    rw [toList_toString]
    intro dot
    exact absurd (Nat.isDigit_of_mem_toDigits (by decide) (by decide) dot) (by decide)
  simpa [isQualified] using digits

/-- A mangled name is the root with the other parts behind. -/
theorem mangle_eq (root : String) (path : ModulePath) (name : String) (others : List Nat) :
    mangle (joinName (root :: path)) name others =
      root ++ "." ++ joinName (path ++ name :: others.map toString) := by
  simp only [mangle, joinName]
  rw [String.intercalate_cons_of_ne_nil (by simp)]
  cases path with
  | nil => simp
  | cons part path =>
    rw [String.intercalate_cons_of_ne_nil (by simp),
      String.intercalate_append_of_ne_nil (by simp) (by simp)]
    simp only [String.append_assoc]

/-- Mangled names of one file with as many numbers are equal only if all their parts are. -/
theorem mangle_inj {root : String} {path path' : ModulePath} {name name' : String}
    {others others' : List Nat} (paths : ∀ part ∈ path, isQualified part = false)
    (paths' : ∀ part ∈ path', isQualified part = false) (plain : isQualified name = false)
    (plain' : isQualified name' = false) (length : others.length = others'.length)
    (h : mangle (joinName (root :: path)) name others =
      mangle (joinName (root :: path')) name' others') :
    path = path' ∧ name = name' ∧ others = others' := by
  have parts {path : ModulePath} {name : String} {others : List Nat}
      (paths : ∀ part ∈ path, isQualified part = false) (plain : isQualified name = false) :
      splitName (joinName (path ++ name :: others.map toString)) =
        path ++ name :: others.map toString := by
    apply splitName_joinName (by simp)
    simp only [List.forall_mem_append, List.forall_mem_cons, List.forall_mem_map]
    exact ⟨paths, plain, fun n _ => isQualified_toString n⟩
  rw [mangle_eq, mangle_eq, String.append_right_inj] at h
  have equal := congrArg splitName h
  rw [parts paths plain, parts paths' plain'] at equal
  obtain ⟨same, tails⟩ := List.append_inj' equal (by simp [length])
  obtain ⟨sameName, numbers⟩ := List.cons.inj tails
  exact ⟨same, sameName, List.map_injective_iff.mpr (fun _ _ => toString_injective) numbers⟩

/-! ## Files -/

/-- No name of the given kind has several parts. -/
def AllPlain (names : List ItemName) (kind : ItemKind) : Prop :=
  ∀ x ∈ names, x.kind = kind → isQualified x.text = false

namespace Declarations

/-- Every function of the file, constructors included, module by module. -/
def functions (d : Declarations) : List Signature := d.modules.flatMap fun e => e.2.functions

def structs (d : Declarations) : List StructRef := d.modules.flatMap fun e => e.2.structs

def globals (d : Declarations) : List Global := d.modules.flatMap fun e => e.2.globals

variable {names : List ItemName} {d : Declarations} {α : Type}
variable {items : ModuleMembers → List α} {mangled : α → String}

theorem MadeOf.isQualified_part (h : d.MadeOf names) (modules : AllPlain names .submodule)
    {e : ModulePath × ModuleMembers} (mem : e ∈ d.modules) :
    ∀ part ∈ e.1, isQualified part = false :=
  fun part there => modules _ (h.paths e mem part there) rfl

/-- Items of different modules have different mangled names. -/
theorem MadeOf.nodup_flatMap (h : d.MadeOf names) (modules : AllPlain names .submodule)
    (count : Nat)
    (shape : ∀ e ∈ d.modules, ∀ a ∈ items e.2, ∃ name others, isQualified name = false ∧
      others.length = count ∧ mangled a = mangle (d.dottedPath e.1) name others)
    (inner : ∀ e ∈ d.modules, ((items e.2).map mangled).Nodup) :
    ((d.modules.flatMap fun e => items e.2).map mangled).Nodup := by
  rw [List.map_flatMap]
  refine List.pairwise_flatMap.mpr ⟨inner, ?_⟩
  refine (List.pairwise_map.mp h.paths_distinct).imp_of_mem ?_
  intro e e' mem mem' differ x there y there' same
  obtain ⟨a, ha, rfl⟩ := List.mem_map.mp there
  obtain ⟨b, hb, rfl⟩ := List.mem_map.mp there'
  obtain ⟨name, others, plain, length, eq⟩ := shape e mem a ha
  obtain ⟨name', others', plain', length', eq'⟩ := shape e' mem' b hb
  rw [eq, eq'] at same
  exact differ (mangle_inj (h.isQualified_part modules mem) (h.isQualified_part modules mem') plain
    plain' (length.trans length'.symm) same).1

/-- Later overloads have larger numbers. -/
theorem overloadsBefore_lt {fs : List Signature} {i j : Nat} {s t : Signature} (lt : i < j)
    (here : fs[i]? = some s) (name : s.name = t.name) (arity : s.arity = t.arity) :
    overloadsBefore fs i s < overloadsBefore fs j t := by
  obtain ⟨bound, rfl⟩ := List.getElem?_eq_some_iff.mp here
  have longer : fs.take (i + 1) <+: fs.take j := List.take_prefix_take_left lt
  have more := (longer.sublist.filter fun u => u.name == t.name && u.arity == t.arity).length_le
  rw [List.take_succ_eq_append_getElem bound, List.filter_append, List.length_append] at more
  simp only [overloadsBefore, name, arity]
  simp [name, arity] at more
  omega

theorem MadeOf.nodup_functions (h : d.MadeOf names) (modules : AllPlain names .submodule)
    (functions : AllPlain names .function) (structs : AllPlain names .struct) :
    (d.functions.map Signature.mangled).Nodup := by
  have plain (e) (mem : e ∈ d.modules) (i : Nat) (s) (there : e.2.functions[i]? = some s) :
      isQualified s.name = false := by
    rcases ((h.members e mem).functions i s there).1 with named | named
    · exact functions _ named rfl
    · exact structs _ named rfl
  refine h.nodup_flatMap modules 2 ?_ ?_
  · intro e mem s there
    obtain ⟨i, there⟩ := List.mem_iff_getElem?.mp there
    exact ⟨s.name, _, plain e mem i s there, rfl, ((h.members e mem).functions i s there).2⟩
  · intro e mem
    have path := h.isQualified_part modules mem
    refine List.pairwise_map.mpr (List.pairwise_iff_getElem.mpr fun i j hi hj lt same => ?_)
    have first : e.2.functions[i]? = some e.2.functions[i] := List.getElem?_eq_getElem hi
    have second : e.2.functions[j]? = some e.2.functions[j] := List.getElem?_eq_getElem hj
    rw [((h.members e mem).functions i _ first).2, ((h.members e mem).functions j _ second).2] at same
    obtain ⟨-, name, numbers⟩ := mangle_inj path path (plain e mem i _ first)
      (plain e mem j _ second) (by simp) same
    obtain ⟨arity, index⟩ := List.cons.inj numbers
    exact absurd (List.cons.inj index).1 (Nat.ne_of_lt (overloadsBefore_lt lt first name arity))

/-- Items of one module that are known by their names have different mangled names. -/
theorem MadeOf.nodup_named (h : d.MadeOf names) (modules : AllPlain names .submodule)
    (name : α → String) (plain : ∀ e ∈ d.modules, ∀ a ∈ items e.2, isQualified (name a) = false)
    (shape : ∀ e ∈ d.modules, ∀ a ∈ items e.2, mangled a = mangle (d.dottedPath e.1) (name a) [])
    (distinct : ∀ e ∈ d.modules, ((items e.2).map name).Nodup) :
    ((d.modules.flatMap fun e => items e.2).map mangled).Nodup := by
  refine h.nodup_flatMap modules 0 ?_ ?_
  · intro e mem a there
    exact ⟨name a, [], plain e mem a there, rfl, shape e mem a there⟩
  · intro e mem
    have path := h.isQualified_part modules mem
    refine List.pairwise_map.mpr ((List.pairwise_map.mp (distinct e mem)).imp_of_mem ?_)
    intro a b ha hb differ same
    rw [shape e mem a ha, shape e mem b hb] at same
    exact differ (mangle_inj path path (plain e mem a ha) (plain e mem b hb) rfl same).2.1

theorem MadeOf.nodup_structs (h : d.MadeOf names) (modules : AllPlain names .submodule)
    (structs : AllPlain names .struct) : (d.structs.map StructRef.mangled).Nodup := by
  refine h.nodup_named modules StructRef.name ?_ ?_ ?_
  · exact fun e mem r there => structs _ ((h.members e mem).structs r there).1 rfl
  · exact fun e mem r there => ((h.members e mem).structs r there).2
  · exact fun e mem => (h.members e mem).structs_distinct

theorem MadeOf.nodup_globals (h : d.MadeOf names) (modules : AllPlain names .submodule)
    (globals : AllPlain names .global) : (d.globals.map Global.mangled).Nodup := by
  refine h.nodup_named modules Global.name ?_ ?_ ?_
  · exact fun e mem g there => globals _ ((h.members e mem).globals g there).1 rfl
  · exact fun e mem g there => ((h.members e mem).globals g there).2.1
  · exact fun e mem => (h.members e mem).globals_distinct

end Declarations

/-! ## Source text -/

variable {σ : Type}

/-- In every file that is read and resolved, functions have different mangled names, and so do
structs, if no struct is named with a dot; in particular types that compare as the same struct are.
Globals have different mangled names if none is named with a dot. -/
theorem nodup_mangled_of_resolve (loader : Loader σ) {l : Lexed} {name : String} {t : FileTree Atom}
    {m : Module} {shared shared' : Shared σ} (read : readTree l name = .ok t)
    (resolved : Gives (t.resolve loader) shared m shared') :
    (AllPlain t.itemNames .struct →
      (m.decls.functions.map Signature.mangled).Nodup ∧
      (m.decls.structs.map StructRef.mangled).Nodup ∧
      ∀ r ∈ m.decls.structs, ∀ q ∈ m.decls.structs,
        (Ty.struct r).same (.struct q) = true → r = q) ∧
    (AllPlain t.itemNames .global → (m.decls.globals.map Global.mangled).Nodup) := by
  have named := (ensures_readTree_named l name t read).2
  have functions : AllPlain t.itemNames .function := fun x there kind =>
    (named x there).2 (.inl kind)
  have modules : AllPlain t.itemNames .submodule := fun x there kind =>
    (named x there).2 (.inr kind)
  have made := (t.leads_resolve_madeOf loader shared m shared' resolved).2
  refine ⟨fun structs => ⟨made.nodup_functions modules functions structs,
    made.nodup_structs modules structs, ?_⟩, made.nodup_globals modules⟩
  intro r hr q hq same
  exact List.inj_on_of_nodup_map (made.nodup_structs modules structs) hr hq (beq_iff_eq.mp same)

/-- Functions, structs and globals of one name in a file, a module and a module of the module. -/
def repeatedNames : String :=
  "struct p \x7b x: I32 \x7d\n" ++
  "const c := 1\n" ++
  "fn f(a: I32) \x7b \x7d\n" ++
  "fn f(a: F64) \x7b \x7d\n" ++
  "module a \x7b\n" ++
  "  struct p \x7b x: I32 \x7d\n" ++
  "  const c := 2\n" ++
  "\x7d\n" ++
  "extend a \x7b module a \x7b fn f(a: I32) \x7b \x7d \x7d \x7d\n"

theorem nodup_mangled_of_resolve_repeatedNames :
    ∃ l t m shared, scan repeatedNames "m" = .ok l ∧ readTree l "m" = .ok t ∧
      Gives (t.resolve noFiles) ⟨{}, ()⟩ m shared ∧ m.decls.functions.length = 5 ∧
      AllPlain t.itemNames .struct ∧ AllPlain t.itemNames .global ∧
      (m.decls.functions.map Signature.mangled).Nodup ∧
      (m.decls.structs.map StructRef.mangled).Nodup ∧ (m.decls.globals.map Global.mangled).Nodup := by
  have run : resolvesAs repeatedNames (fun t m => m.decls.functions.length = 5 ∧
      (∀ x ∈ t.itemNames, x.kind = .struct → isQualified x.text = false) ∧
      ∀ x ∈ t.itemNames, x.kind = .global → isQualified x.text = false) = true := by
    decide +kernel
  obtain ⟨l, t, m, shared, scanned, read, resolved, holds⟩ := exists_of_resolvesAs run
  obtain ⟨count, structs, globals⟩ := of_decide_eq_true holds
  obtain ⟨distinct, distinct'⟩ := nodup_mangled_of_resolve noFiles read resolved
  obtain ⟨functions, refs, -⟩ := distinct structs
  exact ⟨l, t, m, shared, scanned, read, resolved, count, structs, globals, functions, refs,
    distinct' globals⟩

/-- A struct and a global whose names are those of items in a module. -/
def dottedNames : String :=
  "struct a.b \x7b x: I32 \x7d\n" ++
  "global a.c := 1\n" ++
  "module a \x7b\n" ++
  "  struct b \x7b y: F64 \x7d\n" ++
  "  global c := 2\n" ++
  "\x7d\n"

/-- Names with dots are mangled to names of other items. -/
theorem mangled_collide_dottedNames :
    ∃ l t m shared, scan dottedNames "m" = .ok l ∧ readTree l "m" = .ok t ∧
      Gives (t.resolve noFiles) ⟨{}, ()⟩ m shared ∧
      m.decls.functions.map Signature.mangled = ["m.a.b.0.0", "m.a.b.0.0"] ∧
      m.decls.structs.map StructRef.mangled = ["m.a.b", "m.a.b"] ∧
      m.decls.globals.map Global.mangled = ["m.a.c", "m.a.c"] ∧
      ∃ r ∈ m.decls.structs, ∃ q ∈ m.decls.structs,
        (Ty.struct r).same (.struct q) = true ∧ r ≠ q := by
  have run : resolvesAs dottedNames (fun _ m =>
      m.decls.functions.map Signature.mangled = ["m.a.b.0.0", "m.a.b.0.0"] ∧
      m.decls.structs.map StructRef.mangled = ["m.a.b", "m.a.b"] ∧
      m.decls.globals.map Global.mangled = ["m.a.c", "m.a.c"] ∧
      ∃ r ∈ m.decls.structs, ∃ q ∈ m.decls.structs,
        (Ty.struct r).same (.struct q) = true ∧ r ≠ q) = true := by
    decide +kernel
  obtain ⟨l, t, m, shared, scanned, read, resolved, collide⟩ := exists_of_resolvesAs run
  exact ⟨l, t, m, shared, scanned, read, resolved, of_decide_eq_true collide⟩

end EbLang
