import EbLang.Proofs.Reordering.Views
import EbLang.Proofs.Structs

/-!
# Filling in the structs of a file

The structs of a file get rows one after the other (`Opened`), and then their members, in the same
order (`leads_fill`).  Nothing after that changes the members of a struct (`leads_file_filled`), so the
constructor of a struct is declared when exactly the structs before it have their members.

Nothing keeps a struct from containing itself, and the zero of a type is built without end then.
-/

namespace EbLang

open Relation

variable {σ τ : Type}

/-- A struct with the path of its module. -/
abbrev PlacedStruct := ModulePath × StructItem

mutual

def Item.structs (scope : ModulePath) : Item τ → List PlacedStruct
  | .struct s => [(scope, s)]
  | .submodule name items _ _ _ => structsOf (scope ++ [name]) items
  | .function _ | .imports _ | .global _ => []

/-- The structs of some items, in order. -/
def structsOf (scope : ModulePath) : List (Item τ) → List PlacedStruct
  | [] => []
  | i :: is => i.structs scope ++ structsOf scope is

end

/-! ## Tables that grow -/

namespace StructTable

variable {s t u : StructTable} {r : StructRef} {first last : Nat}

/-- The second table has more rows; what the first has stays, but for the rows from `first` on and
before `last`. -/
structure Grows (first last : Nat) (s t : StructTable) : Prop where
  le : s.nextRow ≤ t.nextRow
  same : ∀ r : StructRef, r.row < s.nextRow → r.row < first ∨ last ≤ r.row →
    t.members r = s.members r

/-- Rows from `first` on and before `last` have no members. -/
def Vacant (first last : Nat) (t : StructTable) : Prop :=
  ∀ r : StructRef, first ≤ r.row → r.row < last → t.members r = []

theorem Grows.trans (h : Grows first last s t) (h' : Grows first last t u) : Grows first last s u where
  le := Nat.le_trans h.le h'.le
  same r old outside := (h'.same r (Nat.lt_of_lt_of_le old h.le) outside).trans (h.same r old outside)

theorem Grows.mono (h : Grows first last s t) {first' last' : Nat}
    (wider : ∀ row, row < first' ∨ last' ≤ row → row < first ∨ last ≤ row) :
    Grows first' last' s t where
  le := h.le
  same r old outside := h.same r old (wider r.row outside)

theorem grows_of_prefix (h : s.rows <+: t.rows) : Grows first last s t where
  le := h.length_le
  same r old _ := by
    obtain ⟨more, eq⟩ := h
    rw [members, members, List.getD_eq_getElem?_getD, List.getD_eq_getElem?_getD, ← eq,
      List.getElem?_append_left old]

theorem grows_setMembers (t : StructTable) (r : StructRef) (ms : List Member) :
    Grows r.row (r.row + 1) t (t.setMembers r ms) where
  le := by rw [nextRow, nextRow, setMembers, List.length_set]
  same q _ outside := by
    rw [members, members, setMembers, List.getD_eq_getElem?_getD, List.getD_eq_getElem?_getD,
      List.getElem?_set_ne (by omega)]

theorem members_setMembers (inside : r.row < t.nextRow) (ms : List Member) :
    (t.setMembers r ms).members r = ms := by
  rw [members, setMembers, List.getD_eq_getElem?_getD, List.getElem?_set_self inside,
    Option.getD_some]

theorem Vacant.members_eq_nil (vacant : s.Vacant first last)
    (new : ¬ (r.row < s.nextRow ∧ (r.row < first ∨ last ≤ r.row))) : s.members r = [] := by
  rcases Nat.lt_or_ge r.row s.nextRow with inside | outside
  · exact vacant r (by omega) (by omega)
  · exact StructTable.members_eq_nil outside

theorem Grows.members_eq_iff (h : Grows first last s t) (vacant : s.Vacant first last) :
    s.members r = t.members r ↔
      r.row < s.nextRow ∧ (r.row < first ∨ last ≤ r.row) ∨ t.members r = [] := by
  by_cases known : r.row < s.nextRow ∧ (r.row < first ∨ last ≤ r.row)
  · exact iff_of_true (h.same r known.1 known.2).symm (.inl known)
  · rw [vacant.members_eq_nil known, or_iff_right known, eq_comm]

theorem Grows.below (h : Grows first last s t) (vacant : s.Vacant first last) : s.Below t := by
  intro r
  by_cases known : r.row < s.nextRow ∧ (r.row < first ∨ last ≤ r.row)
  · exact .inr (h.same r known.1 known.2).symm
  · exact .inl (vacant.members_eq_nil known)

end StructTable

/-- Loading a file changes no members that are known already. -/
def Loader.KeepsRows (loader : Loader σ) : Prop :=
  ∀ rows file position, Keep (fun s => rows <+: s.structs.rows) (loader file position)
    (loader file position)

theorem noFiles.keepsRows : noFiles.KeepsRows := fun _ _ _ => agree_throw

namespace Resolving

variable {loader : Loader σ} {n n' n'' : Names σ} {scope : ModulePath} {first last : Nat}
variable {es : List PlacedStruct}

/-! ## What later rounds keep -/

/-- What happens to the names in view once structs are declared: rows from `first` on and before `last`
may get members, and functions may be added. -/
structure Goes (first last : Nat) (n n' : Names σ) : Prop where
  rows : n.shared.structs.Grows first last n'.shared.structs
  structs : ∀ path, (n'.decls.membersAt path).structs = (n.decls.membersAt path).structs
  functions : ∀ path, (n.decls.membersAt path).functions ⊆ (n'.decls.membersAt path).functions

theorem Goes.refl (n : Names σ) : Goes first last n n :=
  ⟨StructTable.grows_of_prefix (List.prefix_refl _), fun _ => rfl, fun _ => List.Subset.refl _⟩

theorem Goes.trans (h : Goes first last n n') (h' : Goes first last n' n'') : Goes first last n n'' where
  rows := h.rows.trans h'.rows
  structs path := (h'.structs path).trans (h.structs path)
  functions path := List.Subset.trans (h.functions path) (h'.functions path)

theorem Goes.mono (h : Goes first last n n') {first' last' : Nat}
    (wider : ∀ row, row < first' ∨ last' ≤ row → row < first ∨ last ≤ row) :
    Goes first' last' n n' :=
  ⟨h.rows.mono wider, h.structs, h.functions⟩

theorem Goes.any (h : Goes 0 0 n n') : Goes first last n n' :=
  h.mono fun _ _ => .inr (Nat.zero_le _)

theorem stable_goes (keeps : loader.KeepsRows) (n : Names σ) :
    Stable (Goes first last n) loader loader where
  scopes _ _ goes := ⟨goes.rows, goes.structs, goes.functions⟩
  externals _ _ goes := ⟨goes.rows, goes.structs, goes.functions⟩
  imports file path position := by
    refine keep_importFile (fun _ _ goes _ => ⟨goes.rows, goes.structs, goes.functions⟩)
      (agree_lift fun n' goes => ?_) path
    obtain ⟨same, leads⟩ := keeps n'.shared.structs.rows file position n'.shared (List.prefix_refl _)
    refine ⟨same, leads.imp fun _ _ rows _ => ⟨?_, goes.structs, goes.functions⟩⟩
    exact goes.rows.trans (StructTable.grows_of_prefix rows)

theorem leads_onModule (path : ModulePath) (position : Position)
    (f : ModuleMembers → Except Fault ModuleMembers) (n : Names σ) :
    Leads (onModule path position f) n fun _ n' => ∃ decls m, n' = { n with decls } ∧
      f (n.decls.membersAt path) = .ok m ∧
      decls.membersAt = Function.update n.decls.membersAt path m := by
  refine leads_get ?_
  cases changed : n.decls.change path f with
  | error fault => exact leads_throw_bind
  | ok decls =>
    obtain ⟨m, result, -, -, members⟩ := Declarations.change_eq_ok changed
    rintro _ n' ⟨⟩
    exact ⟨decls, m, rfl, result, members⟩

/-- Adding functions and globals to a module changes nothing else. -/
theorem leads_add {f : ModuleMembers → Except Fault ModuleMembers}
    (adds : ∀ m m', f m = .ok m' → m'.structs = m.structs ∧ m.functions ⊆ m'.functions)
    (path : ModulePath) (position : Position) (n : Names σ) :
    Leads (onModule path position f) n fun _ n' => Goes 0 0 n n' ∧
      ∃ m, f (n.decls.membersAt path) = .ok m ∧ n'.decls.membersAt path = m ∧ n'.shared = n.shared := by
  refine (leads_onModule path position f n).imp ?_
  rintro _ _ ⟨decls, m, rfl, added, members⟩
  obtain ⟨structs, functions⟩ := adds _ m added
  refine ⟨⟨StructTable.grows_of_prefix (List.prefix_refl _), fun q => ?_, fun q => ?_⟩, m, added,
    by rw [members, Function.update_self], rfl⟩
  all_goals
    rw [members]
    by_cases here : q = path
  · rw [here, Function.update_self, structs]
  · rw [Function.update_of_ne here]
  · rw [here, Function.update_self]
    exact functions
  · rw [Function.update_of_ne here]
    exact List.Subset.refl _

theorem adds_function (s : Signature) (m m' : ModuleMembers) (added : m.addFunction s = .ok m') :
    m'.structs = m.structs ∧ m.functions ⊆ m'.functions := by
  simp only [ModuleMembers.addFunction] at added
  split at added <;> cases added
  exact ⟨rfl, List.subset_append_left _ _⟩

theorem adds_global (g : Global) (m m' : ModuleMembers) (added : m.addGlobal g = .ok m') :
    m'.structs = m.structs ∧ m.functions ⊆ m'.functions := by
  simp only [ModuleMembers.addGlobal] at added
  split at added <;> cases added
  exact ⟨rfl, List.Subset.refl _⟩

theorem values_goes (keeps : loader.KeepsRows) (n : Names σ) :
    RespectsValues (fun _ => Keep (Goes first last n)) loader loader where
  toRespectsTypes := (stable_goes keeps n).types
  addFunction path position s := agree_self fun n1 goes =>
    (leads_add (adds_function s) path position n1).imp fun _ _ more => goes.trans more.1.any
  addGlobal path position g := agree_self fun n1 goes =>
    (leads_add (adds_global g) path position n1).imp fun _ _ more => goes.trans more.1.any

/-! ## Rows for the structs of a file -/

/-- Structs have rows one after the other. -/
def InRows : Nat → List PlacedStruct → Prop
  | _, [] => True
  | row, e :: es => (∃ r, e.2.ref = some r ∧ r.row = row) ∧ InRows (row + 1) es

theorem InRows.append {fs : List PlacedStruct} (h : InRows first es)
    (h' : InRows (first + es.length) fs) : InRows first (es ++ fs) := by
  induction es generalizing first with
  | nil => exact h'
  | cons e es ih =>
    refine ⟨h.1, ih h.2 ?_⟩
    rwa [List.length_cons, ← Nat.add_assoc, Nat.add_right_comm] at h'

theorem InRows.le (h : InRows first es) {e : PlacedStruct} (here : e ∈ es)
    {r : StructRef} (ref : e.2.ref = some r) : first ≤ r.row := by
  induction es generalizing first with
  | nil => cases here
  | cons e' es ih =>
    rcases List.mem_cons.mp here with rfl | there
    · obtain ⟨⟨r', ref', row⟩, -⟩ := h
      cases ref.symm.trans ref'
      exact Nat.le_of_eq row.symm
    · exact Nat.le_of_succ_le (ih h.2 there)

theorem InRows.exists (h : InRows first es) {row : Nat} (le : first ≤ row)
    (lt : row < first + es.length) : ∃ e ∈ es, ∃ r, e.2.ref = some r ∧ r.row = row := by
  induction es generalizing first with
  | nil => exact absurd lt (Nat.not_lt.mpr le)
  | cons e es ih =>
    rcases Nat.eq_or_lt_of_le le with rfl | more
    · exact ⟨e, .head _, h.1⟩
    · rw [List.length_cons] at lt
      obtain ⟨e', there, own⟩ := ih h.2 more (by omega)
      exact ⟨e', .tail _ there, own⟩

/-- Some structs of the file have been declared. -/
structure Opened (n : Names σ) (es : List PlacedStruct) (n' : Names σ) : Prop where
  inRows : InRows n.shared.structs.nextRow es
  rows : n'.shared.structs.rows = n.shared.structs.rows ++ List.replicate es.length []
  declared : ∀ path r, r ∈ (n'.decls.membersAt path).structs ↔
    r ∈ (n.decls.membersAt path).structs ∨ (∃ e ∈ es, e.1 = path ∧ e.2.ref = some r)

theorem Opened.refl (n : Names σ) : Opened n [] n :=
  ⟨trivial, (List.append_nil _).symm, by simp⟩

theorem Opened.trans {fs : List PlacedStruct} (h : Opened n es n') (h' : Opened n' fs n'') :
    Opened n (es ++ fs) n'' where
  inRows := by
    refine h.inRows.append ?_
    have inRows := h'.inRows
    rwa [StructTable.nextRow, h.rows, List.length_append, List.length_replicate] at inRows
  rows := by
    rw [h'.rows, h.rows, List.append_assoc, List.replicate_append_replicate, List.length_append]
  declared path r := by
    rw [h'.declared, h.declared]
    simp only [List.mem_append, or_and_right, exists_or, or_assoc]

theorem leads_declareStruct (scope : ModulePath) (s : StructItem) (n : Names σ) :
    Leads (declareStruct scope s) n fun s' n' => Opened n [(scope, s')] n' := by
  refine leads_bind (P := fun _ n' => n' = n) (leads_get (leads_pure rfl)) ?_
  rintro home _ rfl
  refine leads_get (leads_modify (leads_bind (leads_onModule scope _ _ _) ?_))
  rintro _ _ ⟨decls, m, rfl, added, members⟩
  simp only [ModuleMembers.addStruct] at added
  split at added <;> cases added
  refine leads_pure ⟨⟨⟨_, rfl, rfl⟩, trivial⟩, rfl, fun path r => ?_⟩
  rw [members]
  by_cases here : path = scope
  · subst here
    rw [Function.update_self]
    simp only [List.mem_append, List.mem_singleton, exists_eq_left, true_and, Option.some.injEq,
      @eq_comm _ r]
  · rw [Function.update_of_ne here]
    simp only [List.mem_singleton, exists_eq_left, Ne.symm here, false_and, or_false]

mutual

theorem leads_declareStructs : ∀ (scope : ModulePath) (is : List (Item τ)) (n : Names σ),
    Leads (declareStructs scope is) n fun is' n' => Opened n (structsOf scope is') n'
  | scope, [], n => leads_pure (.refl n)
  | scope, i :: is, n => by
    refine leads_bind (leads_declareStructsOf scope i n) fun i' n1 first => ?_
    refine leads_bind (leads_declareStructs scope is n1) fun is' n2 rest => ?_
    exact leads_pure (first.trans rest)

theorem leads_declareStructsOf : ∀ (scope : ModulePath) (i : Item τ) (n : Names σ),
    Leads (declareStructsOf scope i) n fun i' n' => Opened n (i'.structs scope) n'
  | scope, .struct s, n =>
    leads_bind (leads_declareStruct scope s n) fun s' n' opened => leads_pure opened
  | scope, .submodule name items isPub isExtend span, n => by
    refine leads_modify (leads_bind (leads_declareStructs _ items _) fun items' n' opened => ?_)
    refine leads_pure ⟨opened.inRows, opened.rows, fun path r => ?_⟩
    have same : (n.decls.enter (scope ++ [name])).membersAt path = n.decls.membersAt path :=
      n.decls.find?_enter _ path
    have declared := opened.declared path r
    rwa [same] at declared
  | _, .function _, n | _, .imports _, n | _, .global _, n => leads_pure (.refl n)

end

mutual

theorem declareAllMembers_eq : ∀ (scope : ModulePath) (is : List (Item τ)),
    declareAllMembers loader scope is =
      forM (structsOf scope is) fun e => declareMembers loader e.1 e.2
  | _, [] => rfl
  | scope, i :: is => by
    rw [declareAllMembers, declareMembersOf_eq scope i, declareAllMembers_eq scope is, structsOf,
      List.forM_append]

theorem declareMembersOf_eq : ∀ (scope : ModulePath) (i : Item τ),
    declareMembersOf loader scope i =
      forM (i.structs scope) fun e => declareMembers loader e.1 e.2
  | scope, .struct s => by
    rw [declareMembersOf, Item.structs, List.forM_cons, List.forM_nil, bind_pure_unit]
  | _, .submodule _ items _ _ _ => declareAllMembers_eq _ items
  | _, .function _ | _, .imports _ | _, .global _ => rfl

end

/-! ## Members -/

/-- Members are those of some fields, in order; their types are found under the names they are written
with, when all the structs of some declarations are known. -/
def WrittenAs (loader : Loader σ) (d : Declarations) (scope : ModulePath) :
    List Field → List Member → Prop :=
  List.Forall₂ fun f m => m.name = f.name ∧ ∃ n n',
    (∀ path, (n.decls.membersAt path).structs = (d.membersAt path).structs) ∧
    Gives (typeNamed loader scope f.ty) n m.ty n'

/-- A struct has got its members, as it is written, and its constructor, which was declared when the
members of structs were as in `before`. -/
structure Filled (loader : Loader σ) (last : Nat) (n : Names σ) (e : PlacedStruct) (r : StructRef)
    (before : StructTable) : Prop where
  ref : e.2.ref = some r
  row : r.row < last
  bound : last ≤ before.nextRow
  vacant : before.Vacant r.row last
  grows : before.Grows r.row last n.shared.structs
  members : WrittenAs loader n.decls e.1 e.2.members (n.shared.structs.members r)
  constructor : ∃ home index, constructorOf before home e.2 r (n.shared.structs.members r) index ∈
    (n.decls.membersAt e.1).functions

theorem WrittenAs.goes {fs : List Field} {ms : List Member}
    (h : WrittenAs loader n.decls scope fs ms) (goes : Goes first last n n') :
    WrittenAs loader n'.decls scope fs ms := by
  refine h.imp fun f m => ?_
  rintro ⟨name, n1, n2, known, found⟩
  exact ⟨name, n1, n2, fun path => (known path).trans (goes.structs path).symm, found⟩

section Fill

variable {e : PlacedStruct} {r : StructRef} {before : StructTable}

theorem Filled.inside (h : Filled loader last n e r before) : r.row < n.shared.structs.nextRow :=
  Nat.lt_of_lt_of_le h.row (Nat.le_trans h.bound h.grows.le)

theorem Filled.goes (h : Filled loader last n e r before) (goes : Goes (r.row + 1) last n n') :
    Filled loader last n' e r before := by
  have same := goes.rows.same r h.inside (.inl (Nat.lt_succ_self _))
  refine ⟨h.ref, h.row, h.bound, h.vacant, ?_, ?_, ?_⟩
  · exact h.grows.trans (goes.rows.mono fun row => by omega)
  · rw [same]
    exact h.members.goes goes
  · obtain ⟨home, index, there⟩ := h.constructor
    rw [same]
    exact ⟨home, index, goes.functions e.1 there⟩

theorem leads_declareMembers (keeps : loader.KeepsRows) {s : StructItem} (ref : s.ref = some r)
    (row : r.row < last) (bound : last ≤ n.shared.structs.nextRow)
    (vacant : n.shared.structs.Vacant r.row last) :
    Leads (declareMembers loader scope s) n fun _ n' => Goes r.row (r.row + 1) n n' ∧
      ∃ before, Filled loader last n' (scope, s) r before := by
  have each (n1 : Names σ) (f : Field) (_ : f ∈ s.members) (goes : Goes 0 0 n n1) :
      Leads (do return (⟨f.name, ← typeNamed loader scope f.ty⟩ : Member)) n1 fun m n2 =>
        (m.name = f.name ∧ ∃ n1 n2, (∀ path, (n1.decls.membersAt path).structs =
          (n.decls.membersAt path).structs) ∧ Gives (typeNamed loader scope f.ty) n1 m.ty n2) ∧
        Goes 0 0 n n2 := by
    have kept := ((stable_goes keeps n).types.typeNamed scope f.ty).leads goes
    refine leads_bind (fun ty n2 found => And.intro found (kept ty n2 found)) ?_
    rintro ty n2 ⟨found, goes'⟩
    exact leads_pure ⟨⟨rfl, n1, n2, goes.structs, found⟩, goes'⟩
  have looked := leads_mapM (Goes.refl n) each
  simp only [declareMembers, ref]
  refine leads_bind looked ?_
  rintro members n1 ⟨named, goes⟩
  refine leads_get (leads_modify (leads_get (leads_get ?_)))
  refine (leads_add (adds_function _) scope _ _).imp ?_
  rintro _ n2 ⟨declares, _, added, own, shared⟩
  simp only [ModuleMembers.addFunction] at added
  split at added <;> cases added
  have inside := Nat.le_trans bound goes.rows.le
  have filled : n2.shared.structs.members r = members := by
    rw [shared]
    exact StructTable.members_setMembers (Nat.lt_of_lt_of_le row inside) members
  have grows : n1.shared.structs.Grows r.row (r.row + 1) n2.shared.structs := by
    rw [shared]
    exact n1.shared.structs.grows_setMembers r members
  refine ⟨goes.any.trans ⟨grows, declares.structs, declares.functions⟩, n1.shared.structs, ref, row,
    inside, ?_, ?_, ?_, ?_⟩
  · intro q le lt
    exact (goes.rows.same q (Nat.lt_of_lt_of_le lt bound) (.inr (Nat.zero_le _))).trans
      (vacant q le lt)
  · exact grows.mono fun row => by omega
  · rw [filled]
    have written : WrittenAs loader n.decls scope s.members members := named
    exact (written.goes goes).goes ⟨grows, declares.structs, declares.functions⟩
  · rw [filled, own]
    exact ⟨_, _, List.mem_append_right _ (List.mem_singleton.mpr rfl)⟩

/-- The structs of a file are filled in one after the other; those after a struct have no members yet
when its constructor is declared. -/
theorem leads_fill (keeps : loader.KeepsRows) (inRows : InRows first es)
    (length : first + es.length = last) (bound : last ≤ n.shared.structs.nextRow)
    (vacant : n.shared.structs.Vacant first last) :
    Leads (forM es fun e => declareMembers loader e.1 e.2) n fun _ n' => Goes first last n n' ∧
      ∀ e ∈ es, ∃ r before, Filled loader last n' e r before := by
  induction es generalizing first n with
  | nil => exact leads_pure ⟨.refl n, List.forall_mem_nil _⟩
  | cons e es ih =>
    obtain ⟨⟨r, ref, rfl⟩, inRows⟩ := inRows
    rw [List.length_cons] at length
    refine leads_bind (leads_declareMembers keeps ref (by omega) bound vacant) ?_
    rintro _ n1 ⟨goes, before, filled⟩
    have vacant1 : n1.shared.structs.Vacant (r.row + 1) last := by
      intro q le lt
      exact (goes.rows.same q (Nat.lt_of_lt_of_le lt bound) (.inr le)).trans
        (vacant q (Nat.le_of_succ_le le) lt)
    refine (ih inRows (by omega) (Nat.le_trans bound goes.rows.le) vacant1).imp ?_
    rintro _ n2 ⟨goes', others⟩
    refine ⟨?_, List.forall_mem_cons.mpr ⟨⟨r, before, filled.goes goes'⟩, others⟩⟩
    exact (goes.mono fun row => by omega).trans (goes'.mono fun row => by omega)

end Fill

/-- The structs of a file have rows one after the other, and all of them have been filled in. -/
structure StructsFilled (loader : Loader σ) (shared : Shared σ) (es : List PlacedStruct)
    (n : Names σ) : Prop where
  inRows : InRows shared.structs.nextRow es
  declared : ∀ path r, r ∈ (n.decls.membersAt path).structs ↔
    ∃ e ∈ es, e.1 = path ∧ e.2.ref = some r
  filled : ∀ e ∈ es, ∃ r before, Filled loader (shared.structs.nextRow + es.length) n e r before

theorem StructsFilled.row_lt {shared : Shared σ}
    (h : StructsFilled loader shared es n) {path : ModulePath} {r : StructRef}
    (there : r ∈ (n.decls.membersAt path).structs) :
    r.row < shared.structs.nextRow + es.length := by
  obtain ⟨e, here, -, ref⟩ := (h.declared path r).mp there
  obtain ⟨_, before, filled⟩ := h.filled e here
  cases ref.symm.trans filled.ref
  exact filled.row

theorem leads_opening (keeps : loader.KeepsRows) (name : String) (shared : Shared σ)
    (items : List (Item Atom)) :
    Leads (opening loader items) { shared, decls := .new name } fun items' n' =>
      StructsFilled loader shared (structsOf [] items') n' := by
  refine leads_bind (leads_declareStructs [] items _) fun items' n1 opened => ?_
  have start : Goes 0 0 n1 n1 := .refl n1
  refine leads_bind (((stable_goes keeps n1).types.declareImports items').leads start) ?_
  intro _ n2 goes
  have length : n1.shared.structs.nextRow =
      shared.structs.nextRow + (structsOf [] items').length := by
    rw [StructTable.nextRow, opened.rows, List.length_append, List.length_replicate]
    rfl
  have vacant : n2.shared.structs.Vacant shared.structs.nextRow
      (shared.structs.nextRow + (structsOf [] items').length) := by
    intro r le lt
    rw [goes.rows.same r (length ▸ lt) (.inr (Nat.zero_le _)), StructTable.members,
      List.getD_eq_getElem?_getD, opened.rows, List.getElem?_append_right le, List.getElem?_replicate]
    split <;> rfl
  rw [declareAllMembers_eq]
  refine leads_bind (leads_fill keeps opened.inRows rfl (length ▸ goes.rows.le) vacant) ?_
  rintro _ n3 ⟨goes', filled⟩
  refine leads_pure ⟨opened.inRows, fun path r => ?_, filled⟩
  rw [goes'.structs, goes.structs, opened.declared, Sidecar.membersAt_new]
  exact or_iff_right List.not_mem_nil

/-- The structs of a file are filled in first, and stay as they are then. -/
theorem leads_file_filled (keeps : loader.KeepsRows) (name : String) (shared : Shared σ)
    (items : List (Item Atom)) :
    Leads (file loader items) { shared, decls := .new name } fun _ n' => ∃ es n,
      StructsFilled loader shared es n ∧ Goes 0 0 n n' := by
  rw [file_eq]
  refine leads_bind (leads_opening keeps name shared items) fun items' n filled => ?_
  have start : Goes 0 0 n n := .refl n
  refine leads_bind (((values_goes keeps n).declareValues [] items').leads start) ?_
  intro items1 n1 goes
  refine (((stable_goes keeps n).bodies.resolveItems [] items1).leads goes).imp ?_
  exact fun _ n2 goes => ⟨_, n, filled, goes⟩

end Resolving

/-! ## Structs that contain themselves -/

open Resolving

/-- A struct has the row of a struct that some modules declare. -/
def Declarations.IsOwn (d : Declarations) (r : StructRef) : Prop :=
  ∃ path, ∃ own ∈ (d.membersAt path).structs, own.row = r.row

/-- For every file whose structs are filled in: all of them have the members they are written with.
Building the zero of a type comes to an end if and only if no struct that is part of the type contains
itself, and then it is no deeper than there are structs; a type ends if and only if going deeper does
not change its zero.  If the structs of other files end, all types do if and only if no struct of the
file contains itself. -/
theorem structs_end_iff {loader : Loader σ} (keeps : loader.KeepsRows) {name : String}
    {shared : Shared σ} {items items' : List (Item Atom)} {n : Names σ}
    (opened : Gives (opening loader items) { shared, decls := .new name } items' n)
    (others : ∀ r, ¬ n.decls.IsOwn r → n.shared.structs.Ends (.struct r)) :
    (∀ e ∈ structsOf [] items', ∃ r ∈ (n.decls.membersAt e.1).structs, e.2.ref = some r ∧
      WrittenAs loader n.decls e.1 e.2.members (n.shared.structs.members r)) ∧
    (∀ ty, n.shared.structs.Ends ty ↔
      ∀ q, n.shared.structs.Reaches ty q → ¬ TransGen n.shared.structs.Contains q q) ∧
    (∀ ty, n.shared.structs.Ends ty → n.shared.structs.EndsWithin n.shared.structs.nextRow ty) ∧
    (∀ ty, n.shared.structs.Ends ty ↔ ∀ more,
      Constant.zeroAt n.shared.structs (n.shared.structs.nextRow + more) ty =
        Constant.zeroOf n.shared.structs ty) ∧
    ((∀ ty, n.shared.structs.Ends ty) ↔
      ∀ r, n.decls.IsOwn r → ¬ TransGen n.shared.structs.Contains r r) := by
  have filled := leads_opening keeps name shared items items' n opened
  refine ⟨fun e here => ?_, fun ty => StructTable.ends_iff, fun ty => StructTable.Ends.within,
    fun ty => StructTable.ends_iff_zeroAt, fun ends r _ => ?_,
    fun acyclic ty => StructTable.ends_iff.mpr fun q _ cycle => ?_⟩
  · obtain ⟨r, before, made⟩ := filled.filled e here
    exact ⟨r, (filled.declared e.1 r).mpr ⟨e, here, rfl, made.ref⟩, made.ref, made.members⟩
  · exact StructTable.ends_iff.mp (ends (.struct r)) r (StructTable.reaches_self _ r)
  · by_cases own : n.decls.IsOwn q
    · exact acyclic q own cycle
    · obtain ⟨depth, ends⟩ := others q own
      exact ends.not_transGen cycle

/-- A struct as it is read, with the names and types of its members. -/
def structOf (name : String) (members : List (String × String)) : Item Atom :=
  .struct ⟨name, members.map fun m => ⟨m.1, ⟨m.2, default⟩, default⟩, true, default, none⟩

/-- A struct that contains one of a module, which contains one that comes later. -/
def nestedStructs : List (Item Atom) :=
  [structOf "A" [("b", "m.B"), ("n", "I32")],
    .submodule "m" [structOf "B" [("c", "C")]] true false default, structOf "C" [("x", "I64")]]

theorem structs_end_iff_nestedStructs : ∃ items n,
    Gives (opening noFiles nestedStructs) { shared := ⟨{}, ()⟩, decls := .new "m" } items n ∧
    ((∀ ty, n.shared.structs.Ends ty) ↔
      ∀ r, n.decls.IsOwn r → ¬ TransGen n.shared.structs.Contains r r) := by
  have run : givesAs (opening noFiles nestedStructs) { shared := ⟨{}, ()⟩, decls := .new "m" }
      (fun _ n => n.shared.structs.nextRow == 3 && (List.range 3).all fun row =>
        [[], ["m"]].any fun path => (n.decls.membersAt path).structs.any (·.row == row)) = true := by
    decide +kernel
  obtain ⟨items, n, gives, checked⟩ := exists_of_givesAs run
  simp only [Bool.and_eq_true, beq_iff_eq, List.all_eq_true, List.any_eq_true, List.mem_range]
    at checked
  refine ⟨items, n, gives, (structs_end_iff noFiles.keepsRows gives fun r other => ?_).2.2.2.2⟩
  refine ⟨0, StructTable.members_eq_nil (Nat.le_of_not_lt fun inside => other ?_)⟩
  obtain ⟨path, -, own, there, row⟩ := checked.2 r.row (checked.1 ▸ inside)
  exact ⟨path, own, there, row⟩

/-- A struct may have a member of its own type; then building its zero never ends. -/
theorem struct_contains_itself : ∃ items n r,
    Gives (opening noFiles [structOf "A" [("a", "A")]]) { shared := ⟨{}, ()⟩, decls := .new "m" }
      items n ∧
    n.shared.structs.Contains r r ∧ ¬ n.shared.structs.Ends (.struct r) := by
  have run : givesAs (opening noFiles [structOf "A" [("a", "A")]])
      { shared := ⟨{}, ()⟩, decls := .new "m" }
      (fun _ n => n.shared.structs.rows == [[⟨"a", .struct ⟨"A", "m.A", true, 0⟩⟩]]) = true := by
    decide +kernel
  obtain ⟨items, n, gives, checked⟩ := exists_of_givesAs run
  have inside : n.shared.structs.Contains ⟨"A", "m.A", true, 0⟩ ⟨"A", "m.A", true, 0⟩ := by
    refine ⟨⟨"a", .struct ⟨"A", "m.A", true, 0⟩⟩, ?_, rfl⟩
    rw [StructTable.members, beq_iff_eq.mp checked]
    exact List.mem_singleton.mpr rfl
  refine ⟨items, n, _, gives, inside, ?_⟩
  rintro ⟨depth, ends⟩
  exact ends.not_transGen (.single inside)

/-! ## Constructors -/

/-- A struct has its members when the constructor of `r` is declared: it is known by then, and if it
is one of the file it comes before `r`. -/
def Module.FilledBefore (m : Module) (known : Nat) (r q : StructRef) : Prop :=
  q.row < known ∧ ∀ path, ∀ own ∈ (m.decls.membersAt path).structs, own.row = q.row →
    own.row < r.row

/-- Every struct of a resolved file has a constructor that takes its members by name.  The default of
a member is the zero of its type if and only if all structs that are part of it had their members
before, or have none; the structs that the file declares itself are filled in in their order. -/
theorem constructor_default_iff {loader : Loader σ} (keeps : loader.KeepsRows) {t : FileTree Atom}
    {shared shared' : Shared σ} {m : Module} (resolved : Gives (t.resolve loader) shared m shared')
    {path : ModulePath} {r : StructRef} (declared : r ∈ (m.decls.membersAt path).structs) :
    ∃ c ∈ (m.decls.membersAt path).functions, c.form = .constructor ∧ c.result = .struct r ∧
      c.params = [] ∧
      c.named.map (fun p => ⟨p.name, p.ty⟩) = shared'.structs.members r ∧
      ∃ known, (∀ path, ∀ own ∈ (m.decls.membersAt path).structs, own.row < known) ∧
        ∀ p ∈ c.named, shared'.structs.Ends p.ty →
          (p.default = Constant.zeroOf shared'.structs p.ty ↔
            ∀ q, shared'.structs.Reaches p.ty q →
              m.FilledBefore known r q ∨ shared'.structs.members q = []) := by
  obtain ⟨items, items', n', -, file, rfl, rfl⟩ := FileTree.gives_resolve.mp resolved
  obtain ⟨es, n, filled, after⟩ := leads_file_filled keeps t.name shared items items' n' file
  rw [after.structs, filled.declared] at declared
  obtain ⟨e, here, rfl, ref⟩ := declared
  obtain ⟨r', before, made⟩ := filled.filled e here
  cases ref.symm.trans made.ref
  obtain ⟨home, index, constructor⟩ := made.constructor
  have same := after.rows.same r made.inside (.inr (Nat.zero_le _))
  have grows := made.grows.trans after.any.rows
  refine ⟨_, after.functions _ constructor, rfl, rfl, rfl, ?_, before.nextRow, fun path own there => ?_,
    fun p there ends => ?_⟩
  · rw [constructorOf, List.map_map, same]
    exact List.map_id _
  · rw [after.structs] at there
    exact Nat.lt_of_lt_of_le (filled.row_lt there) made.bound
  · obtain ⟨member, -, rfl⟩ := List.mem_map.mp there
    refine ((grows.below made.vacant).zeroOf_eq_iff ends).trans ?_
    refine forall_congr' fun q => imp_congr_right fun _ => ?_
    rw [grows.members_eq_iff made.vacant, Module.FilledBefore]
    refine or_congr_left (and_congr_right fun _ => ?_)
    constructor
    · rintro outside path own there eq
      rw [after.structs] at there
      have := filled.row_lt there
      omega
    · intro all
      by_contra between
      have le : r.row ≤ q.row := by omega
      obtain ⟨e', here', own, ref', row⟩ := filled.inRows.exists
        (Nat.le_trans (filled.inRows.le here ref) le) (by omega)
      have := all e'.1 own (by rw [after.structs, filled.declared]; exact ⟨e', here', rfl, ref'⟩) row
      omega

/-- A struct whose member is a struct that comes later. -/
def laterStruct : FileTree Atom :=
  ⟨"m", [structOf "A" [("b", "B")], structOf "B" [("x", "I32")]], 0⟩

theorem constructor_default_iff_laterStruct : ∃ m shared r, ∃ c ∈ (m.decls.membersAt []).functions,
    Gives (laterStruct.resolve noFiles) ⟨{}, ()⟩ m shared ∧ c.result = .struct r ∧ ∃ known,
      ∀ p ∈ c.named, shared.structs.Ends p.ty →
        (p.default = Constant.zeroOf shared.structs p.ty ↔
          ∀ q, shared.structs.Reaches p.ty q →
            m.FilledBefore known r q ∨ shared.structs.members q = []) := by
  have run : givesAs (laterStruct.resolve noFiles) ⟨{}, ()⟩ (fun m _ =>
      (m.decls.membersAt []).structs.contains ⟨"A", "m.A", true, 0⟩) = true := by
    decide +kernel
  obtain ⟨m, shared, gives, declared⟩ := exists_of_givesAs run
  obtain ⟨c, there, -, result, -, -, known, -, defaults⟩ :=
    constructor_default_iff noFiles.keepsRows gives (List.contains_iff_mem.mp declared)
  exact ⟨m, shared, _, c, there, gives, result, known, defaults⟩

/-- The default of such a member is not the zero of its type. -/
theorem constructor_default_ne_zero : ∃ m shared, ∃ c ∈ (m.decls.membersAt []).functions,
    ∃ p ∈ c.named, Gives (laterStruct.resolve noFiles) ⟨{}, ()⟩ m shared ∧
      c.form = .constructor ∧ shared.structs.Ends p.ty ∧
      p.default ≠ Constant.zeroOf shared.structs p.ty := by
  have run : givesAs (laterStruct.resolve noFiles) ⟨{}, ()⟩ (fun m shared =>
      (m.decls.membersAt []).functions.any fun c => decide (c.form = .constructor) &&
        c.named.any fun p => p.ty == .struct ⟨"B", "m.B", true, 1⟩ &&
          shared.structs.rows.getD 1 [] == [⟨"x", .ofPrim .i32⟩] &&
          p.default.render != (Constant.zeroOf shared.structs p.ty).render) = true := by
    decide +kernel
  obtain ⟨m, shared, gives, checked⟩ := exists_of_givesAs run
  simp only [List.any_eq_true, Bool.and_eq_true, decide_eq_true_eq, beq_iff_eq, bne_iff_ne] at checked
  obtain ⟨c, there, form, p, named, ⟨ty, row⟩, different⟩ := checked
  refine ⟨m, shared, c, there, p, named, gives, form, ⟨1, ?_⟩, fun same => different (by rw [same])⟩
  rw [ty]
  intro member here
  rw [StructTable.members, row, List.mem_singleton] at here
  rw [here]
  trivial

end EbLang
