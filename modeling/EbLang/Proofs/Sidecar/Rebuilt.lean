import EbLang.Proofs.Sidecar.Recorded
import Mathlib.Data.List.Zip
import Mathlib.Logic.Function.Basic

/-!
# Declaring again what a sidecar records

A sidecar lists functions and globals under their mangled names only.  Declaring them again takes the
names apart and puts every item into its module, one after another.

*Modules.*  Declaring an item changes one module and leaves the others as they are, so what happens to
a module is what its own items do to it (`exists_foldlM_modules`).  The items of one module differed
when the file declared them, and they still do: nothing that tells them apart is lost.

*Files.*  Hence the sidecar of an analysed file declares again, module by module, exactly what the
sidecar tells of the file: public functions without named parameters and public globals, if their
types are primitive.  Only the names of parameters and the places in the text are lost.  The name of a
global must not hold a dot, or its parts would be taken for modules.
-/

namespace EbLang

open Resolving (mangle)

/-! ## What is recorded -/

/-- Whether a sidecar tells of a function: it is public, written in source text, takes nothing by
name, and its types are primitive. -/
def Signature.isRecorded (s : Signature) : Bool :=
  s.isPub && s.form == .user && s.named.isEmpty && s.result.prim?.isSome &&
    s.params.all fun p => p.ty.prim?.isSome

/-- What a sidecar tells of a function: all but the names of its parameters and its place. -/
def Signature.outline (s : Signature) : Signature :=
  { s with
    params := s.params.zipIdx.map fun p => ⟨"arg" ++ toString p.2, p.1.ty⟩
    span := .null }

/-- Whether a sidecar tells of a global: it is public, and its type is primitive. -/
def Global.isRecorded (g : Global) : Bool := g.isPub && g.ty.prim?.isSome

/-- The module at a path, an empty one if there is none. -/
def Declarations.membersAt (d : Declarations) (path : ModulePath) : ModuleMembers :=
  (d.find? path).getD {}

namespace Signature

variable {s t : Signature}

theorem map_ty_outline (s : Signature) :
    s.outline.params.map Parameter.ty = s.params.map Parameter.ty := by
  have types : s.outline.params.map Parameter.ty = (s.params.zipIdx.map Prod.fst).map Parameter.ty := by
    simp only [outline, List.map_map]
    rfl
  rw [types, List.zipIdx_map_fst]

theorem arity_outline (s : Signature) : s.outline.arity = s.arity := by
  simpa only [arity, List.length_map] using congrArg List.length s.map_ty_outline

/-- Functions clash by their names and the types of their parameters. -/
theorem clashesWith_eq (s t : Signature) :
    s.clashesWith t = (s.name == t.name && s.arity == t.arity &&
      ((s.params.map Parameter.ty).zip (t.params.map Parameter.ty)).all fun p => p.1.same p.2) := by
  rw [clashesWith, List.zip_map, List.all_map]
  rfl

theorem clashesWith_outline (s t : Signature) :
    s.outline.clashesWith t.outline = s.clashesWith t := by
  rw [clashesWith_eq, clashesWith_eq, map_ty_outline, map_ty_outline, arity_outline, arity_outline]
  rfl

theorem clashesWith_comm (s t : Signature) : s.clashesWith t = t.clashesWith s := by
  have same (a b : Ty) : a.same b = b.same a := by
    cases a <;> cases b <;> first | rfl | exact BEq.comm
  rw [clashesWith, clashesWith, BEq.comm (a := s.name), BEq.comm (a := s.arity),
    ← List.zip_swap s.params t.params, List.all_map]
  simp only [Function.comp_def, Prod.fst_swap, Prod.snd_swap, same]

end Signature

namespace ModuleMembers

variable {m : ModuleMembers}

/-- Functions that can be told apart are added one after another. -/
theorem foldlM_addFunction {ss : List Signature}
    (apart : (m.functions ++ ss).Pairwise fun s t => s.clashesWith t = false) :
    ss.foldlM addFunction m = .ok { m with functions := m.functions ++ ss } := by
  induction ss generalizing m with
  | nil => simp only [List.foldlM_nil, List.append_nil]; rfl
  | cons s ss ih =>
    have new : ((m.overloads s.name s.arity).any fun t => t.clashesWith s) = false := by
      refine List.any_eq_false.mpr fun t there => ?_
      have before := (List.pairwise_append.mp apart).2.2 t (List.mem_filter.mp there).1 s (.head _)
      exact Bool.eq_false_iff.mp before
    have added : m.addFunction s = .ok { m with functions := m.functions ++ [s] } := by
      rw [addFunction, new]
      rfl
    rw [List.foldlM_cons, added]
    rw [List.append_cons m.functions s ss] at apart ⊢
    exact ih (m := { m with functions := m.functions ++ [s] }) apart

/-- Globals of different names are added one after another. -/
theorem foldlM_addGlobal {gs : List Global} (distinct : ((m.globals ++ gs).map Global.name).Nodup) :
    gs.foldlM addGlobal m = .ok { m with globals := m.globals ++ gs } := by
  induction gs generalizing m with
  | nil => simp only [List.foldlM_nil, List.append_nil]; rfl
  | cons g gs ih =>
    have new : (m.global? g.name).isSome = false := by
      rw [Option.isSome_eq_false_iff, Option.isNone_iff_eq_none, global?, List.find?_eq_none]
      intro h there same
      rw [List.map_append, List.nodup_append] at distinct
      exact distinct.2.2 _ (List.mem_map_of_mem there) _ (.head _) (beq_iff_eq.mp same)
    have added : m.addGlobal g = .ok { m with globals := m.globals ++ [g] } := by
      rw [addGlobal, new]
      rfl
    rw [List.foldlM_cons, added]
    rw [List.append_cons m.globals g gs] at distinct ⊢
    exact ih (m := { m with globals := m.globals ++ [g] }) distinct

end ModuleMembers

/-! ## Changing modules -/

namespace Declarations

variable {α : Type} {d d' : Declarations} {path : ModulePath}

theorem membersAt_of_mem (distinct : (d.modules.map Prod.fst).Nodup)
    {e : ModulePath × ModuleMembers} (mem : e ∈ d.modules) : d.membersAt e.1 = e.2 := by
  cases found : d.find? e.1 with
  | none =>
    have missing := List.lookup_eq_none_iff.mp found e mem
    simp at missing
  | some m =>
    have there := mem_of_find? found
    have same : (e.1, m) = e := List.inj_on_of_nodup_map distinct there mem rfl
    rw [membersAt, found, ← same]
    rfl

theorem membersAt_of_not_mem (missing : path ∉ d.modules.map Prod.fst) : d.membersAt path = {} := by
  cases found : d.find? path with
  | none => rw [membersAt, found]; rfl
  | some m => exact absurd (List.mem_map_of_mem (mem_of_find? found)) missing

theorem has_enter (d : Declarations) (path : ModulePath) : (d.enter path).has path = true := by
  rw [enter, List.range_succ, List.foldl_append, List.foldl_cons, List.foldl_nil, List.take_length,
    has_addModule, beq_self_eq_true, Bool.or_true]

/-- Changing a module leaves the others as they are. -/
theorem exists_change {f : ModuleMembers → Except Fault ModuleMembers} {m : ModuleMembers}
    (h : f (d.membersAt path) = .ok m) :
    ∃ d', d.change path f = .ok d' ∧ d'.root = d.root ∧
      d'.membersAt = Function.update d.membersAt path m := by
  have entered (q : ModulePath) : (d.enter path).membersAt q = d.membersAt q := d.find?_enter path q
  refine ⟨(d.enter path).setModule path m, ?_, d.enter_root path, funext fun q => ?_⟩
  · have result : f ((d.enter path).membersAt path) = .ok m := by rw [entered, h]
    rw [membersAt] at result
    simp only [change, result]
    rfl
  · have looked := Scopes.lookup_mapValue path m q (d.enter path).modules
    rw [Function.update_apply, membersAt]
    by_cases here : q = path
    · subst here
      obtain ⟨old, there⟩ := Option.isSome_iff_exists.mp (d.has_enter q)
      rw [if_pos rfl] at looked ⊢
      rw [find?, setModule, looked]
      rw [find?] at there
      rw [there]
      rfl
    · rw [if_neg here] at looked ⊢
      rw [find?, setModule, looked]
      exact entered q

variable {declare : Declarations → α → Except Fault Declarations}
  (add : ModuleMembers → α → Except Fault ModuleMembers)

/-- Items of one module are declared one after another. -/
theorem exists_foldlM_change {items : List α} {m : ModuleMembers}
    (step : ∀ a ∈ items, ∀ d' : Declarations, d'.root = d.root →
      declare d' a = d'.change path fun m => add m a)
    (added : items.foldlM add (d.membersAt path) = .ok m) :
    ∃ d', items.foldlM declare d = .ok d' ∧ d'.root = d.root ∧
      d'.membersAt = Function.update d.membersAt path m := by
  induction items generalizing d with
  | nil =>
    cases added
    exact ⟨d, rfl, rfl, (Function.update_eq_self path d.membersAt).symm⟩
  | cons a items ih =>
    obtain ⟨first, others⟩ := List.forall_mem_cons.mp step
    rw [List.foldlM_cons] at added ⊢
    cases one : add (d.membersAt path) a with
    | error fault =>
      rw [one] at added
      cases added
    | ok m1 =>
      rw [one] at added
      obtain ⟨d1, changed, root1, members1⟩ := exists_change (f := fun m => add m a) one
      have rest : items.foldlM add (d1.membersAt path) = .ok m := by
        rw [members1, Function.update_self]
        exact added
      obtain ⟨d2, declared, root2, members2⟩ :=
        ih (fun b there d' root => others b there d' (root.trans root1)) rest
      refine ⟨d2, ?_, root2.trans root1, ?_⟩
      · rw [first d rfl, changed]
        exact declared
      · rw [members2, members1, Function.update_idem]

/-- The items of all modules are declared module by module; to each happens what its own items do. -/
theorem exists_foldlM_modules {es : List (ModulePath × ModuleMembers)}
    {items : ModuleMembers → List α} {result : ModulePath → ModuleMembers}
    (distinct : (es.map Prod.fst).Nodup)
    (step : ∀ e ∈ es, ∀ a ∈ items e.2, ∀ d' : Declarations, d'.root = d.root →
      declare d' a = d'.change e.1 fun m => add m a)
    (added : ∀ e ∈ es, (items e.2).foldlM add (d.membersAt e.1) = .ok (result e.1))
    (others : ∀ path, path ∉ es.map Prod.fst → result path = d.membersAt path) :
    ∃ d', (es.flatMap fun e => items e.2).foldlM declare d = .ok d' ∧ d'.root = d.root ∧
      d'.membersAt = result := by
  induction es generalizing d with
  | nil => exact ⟨d, rfl, rfl, funext fun path => (others path List.not_mem_nil).symm⟩
  | cons e es ih =>
    obtain ⟨step, steps⟩ := List.forall_mem_cons.mp step
    obtain ⟨here, added⟩ := List.forall_mem_cons.mp added
    obtain ⟨fresh, distinct⟩ := List.nodup_cons.mp distinct
    obtain ⟨d1, declared1, root1, members1⟩ := exists_foldlM_change add step here
    have elsewhere {path : ModulePath} (other : path ≠ e.1) :
        d1.membersAt path = d.membersAt path := by
      rw [members1, Function.update_of_ne other]
    obtain ⟨d2, declared2, root2, members2⟩ := ih (d := d1) distinct
      (fun e' there a mem d' root => steps e' there a mem d' (root.trans root1))
      (fun e' there => by
        rw [elsewhere fun same => fresh (same ▸ List.mem_map_of_mem there)]
        exact added e' there)
      (fun path missing => by
        by_cases same : path = e.1
        · rw [same, members1, Function.update_self]
        · rw [elsewhere same]
          exact others path (List.not_mem_cons_of_ne_of_not_mem same missing))
    refine ⟨d2, ?_, root2.trans root1, members2⟩
    rw [List.flatMap_cons, List.foldlM_append, declared1]
    exact declared2

end Declarations

/-! ## Items -/

namespace Sidecar

/-- The record of a function whose types are primitive. -/
def recordOf (s : Signature) : SidecarFunction :=
  ⟨s.mangled, s.result.prim?.getD .void, s.params.map fun p => p.ty.prim?.getD .void⟩

/-- The record of a global whose type is primitive. -/
def recordOfGlobal (g : Global) : SidecarGlobal :=
  ⟨g.isConst, g.mangled, g.ty.prim?.getD .void, g.value⟩

theorem ofPrim_prim?_getD {t : Ty} (h : t.prim?.isSome = true) : .ofPrim (t.prim?.getD .void) = t := by
  obtain ⟨p, prim⟩ := Option.isSome_iff_exists.mp h
  rw [prim, Option.getD_some, Ty.eq_ofPrim_of_prim? prim]

theorem mapM_prim? (ps : List Parameter) :
    (ps.mapM fun p => p.ty.prim?) =
      if ps.all fun p => p.ty.prim?.isSome then some (ps.map fun p => p.ty.prim?.getD .void)
      else none := by
  induction ps with
  | nil => rfl
  | cons p ps ih =>
    rw [List.mapM_cons, ih, List.all_cons, List.map_cons]
    cases p.ty.prim? with
    | none => rfl
    | some q => cases (ps.all fun p => p.ty.prim?.isSome) <;> rfl

theorem ofFunction?_eq (s : Signature) :
    ofFunction? s = if s.isRecorded then some (recordOf s) else none := by
  rw [ofFunction?, Signature.isRecorded, mapM_prim?]
  cases s.isPub && s.form == .user && s.named.isEmpty with
  | false => rfl
  | true =>
    rw [recordOf]
    cases s.result.prim? with
    | none => rfl
    | some q => cases (s.params.all fun p => p.ty.prim?.isSome) <;> rfl

theorem ofGlobal?_eq (g : Global) :
    ofGlobal? g = if g.isRecorded then some (recordOfGlobal g) else none := by
  rw [ofGlobal?, Global.isRecorded, recordOfGlobal]
  cases g.isPub with
  | false => rfl
  | true => cases g.ty.prim? <;> rfl

/-- A mangled name is taken apart into the path of the module and the name of the item. -/
theorem splitMangled_mangle {root : String} {path : ModulePath} {name : String} (others : List Nat)
    (paths : ∀ part ∈ path, isQualified part = false) (plain : isQualified name = false) :
    splitMangled (mangle (joinName (root :: path)) name others) root others.length =
      .ok (path, name) := by
  have parts : splitName (joinName (path ++ name :: others.map toString)) =
      path ++ name :: others.map toString := by
    refine splitName_joinName (by simp) ?_
    simp only [List.forall_mem_append, List.forall_mem_cons, List.forall_mem_map]
    exact ⟨paths, plain, fun n _ => isQualified_toString n⟩
  have whole : (mangle (joinName (root :: path)) name others).toList =
      (root.toList ++ ['.']) ++ (joinName (path ++ name :: others.map toString)).toList := by
    rw [mangle_eq, String.toList_append, String.toList_append]
    rfl
  have kept : (path ++ name :: others.map toString).take
      ((path ++ name :: others.map toString).length - others.length) = path ++ [name] := by
    rw [List.append_cons]
    refine List.take_left' ?_
    simp only [List.length_append, List.length_map, Nat.add_sub_cancel]
  simp only [splitMangled, whole, List.drop_left, String.ofList_toList, parts, kept]
  simp

variable {d : Declarations} {path : ModulePath}

/-- A recorded function is declared in its module, as far as the sidecar tells of it. -/
theorem declareFunction_recordOf {s : Signature} {index : Nat} (recorded : s.isRecorded = true)
    (paths : ∀ part ∈ path, isQualified part = false) (plain : isQualified s.name = false)
    (home : s.home = d.dottedPath path)
    (mangled : s.mangled = mangle (d.dottedPath path) s.name [s.arity, index]) :
    declareFunction d.root d (recordOf s) = d.change path fun m => m.addFunction s.outline := by
  obtain ⟨⟨⟨⟨isPub, isUser⟩, unnamed⟩, result⟩, params⟩ := by
    simpa only [Signature.isRecorded, Bool.and_eq_true] using recorded
  have split : splitMangled s.mangled d.root 2 = .ok (path, s.name) := by
    rw [mangled]
    exact splitMangled_mangle [s.arity, index] paths plain
  have types : (recordOf s).params.zipIdx.map (fun p => (⟨"arg" ++ toString p.2, .ofPrim p.1⟩ : Parameter)) =
      s.outline.params := by
    rw [recordOf, Signature.outline, List.zipIdx_map, List.map_map]
    refine List.map_congr_left fun p there => ?_
    have prim := List.all_eq_true.mp params p.1 (List.fst_mem_of_mem_zipIdx there)
    simp only [Function.comp, Prod.map, id, ofPrim_prim?_getD prim]
  have declared : s.outline =
      { name := s.name, mangled := s.mangled, params := s.outline.params, named := [],
        result := .ofPrim (recordOf s).result, form := .user, isPub := true,
        home := d.dottedPath path, span := .null } := by
    rw [recordOf, ofPrim_prim?_getD result, ← home, ← List.isEmpty_iff.mp unnamed, ← isPub,
      ← beq_iff_eq.mp isUser]
    rfl
  simp only [declareFunction]
  rw [declared, ← types]
  simp only [recordOf, split]
  rfl

theorem declareGlobal_recordOfGlobal {g : Global} (recorded : g.isRecorded = true)
    (paths : ∀ part ∈ path, isQualified part = false) (plain : isQualified g.name = false)
    (home : g.home = d.dottedPath path) (mangled : g.mangled = mangle (d.dottedPath path) g.name []) :
    declareGlobal d.root d (recordOfGlobal g) = d.change path fun m => m.addGlobal g := by
  obtain ⟨isPub, ty⟩ := by simpa only [Global.isRecorded, Bool.and_eq_true] using recorded
  have split : splitMangled g.mangled d.root 0 = .ok (path, g.name) := by
    rw [mangled]
    exact splitMangled_mangle [] paths plain
  have declared : g =
      { name := g.name, mangled := g.mangled, ty := .ofPrim (recordOfGlobal g).ty, value := g.value,
        isConst := g.isConst, isPub := true, home := d.dottedPath path } := by
    rw [recordOfGlobal, ofPrim_prim?_getD ty, ← home, ← isPub]
  refine Eq.trans ?_ (congrArg (fun h : Global => d.change path fun m => m.addGlobal h) declared.symm)
  simp only [declareGlobal, recordOfGlobal, split]
  rfl

end Sidecar

/-! ## Files -/

namespace ModuleMembers

/-- The functions of a module that a sidecar records, in their order there. -/
def recordedFunctions (m : ModuleMembers) : List Signature :=
  (m.functions.mergeSort fun s t => decide (s.mangled ≤ t.mangled)).filter Signature.isRecorded

/-- The globals of a module that a sidecar records, in their order there. -/
def recordedGlobals (m : ModuleMembers) : List Global :=
  (m.globals.mergeSort fun g h => decide (g.mangled ≤ h.mangled)).filter Global.isRecorded

variable (m : ModuleMembers)

theorem perm_recordedFunctions :
    m.recordedFunctions.Perm (m.functions.filter Signature.isRecorded) :=
  (List.mergeSort_perm m.functions _).filter _

theorem perm_recordedGlobals : m.recordedGlobals.Perm (m.globals.filter Global.isRecorded) :=
  (List.mergeSort_perm m.globals _).filter _

theorem recordedFunctions_empty : recordedFunctions {} = [] := by
  simp [recordedFunctions]

theorem recordedGlobals_empty : recordedGlobals {} = [] := by
  simp [recordedGlobals]

/-- The overloads among the recorded functions are the recorded ones among the overloads. -/
theorem perm_overloads_recorded (globals : List Global) (name : String) (arity : Nat) :
    (overloads { functions := m.recordedFunctions.map Signature.outline, globals } name arity).Perm
      (((m.overloads name arity).filter Signature.isRecorded).map Signature.outline) := by
  have alike : (fun s : Signature => s.name == name && s.arity == arity) ∘ Signature.outline =
      fun s => s.name == name && s.arity == arity := by
    funext s
    simp only [Function.comp, Signature.arity_outline]
    rfl
  simp only [overloads, List.filter_map, alike]
  rw [List.filter_comm]
  exact (m.perm_recordedFunctions.filter _).map _

variable {m} {names : List ItemName} {home : String}

/-- The recorded functions of a module can be declared in an empty one. -/
theorem MadeOf.foldlM_recordedFunctions (made : m.MadeOf names home) :
    (m.recordedFunctions.foldlM (fun m s => m.addFunction s.outline) ({} : ModuleMembers)) =
      .ok { functions := m.recordedFunctions.map Signature.outline } := by
  rw [← List.foldlM_map]
  refine foldlM_addFunction (m := {}) ?_
  rw [List.nil_append, List.pairwise_map]
  simp only [Signature.clashesWith_outline]
  have symmetric {s t : Signature} (h : s.clashesWith t = false) : t.clashesWith s = false :=
    t.clashesWith_comm s ▸ h
  exact (m.perm_recordedFunctions.pairwise_iff symmetric).mpr
    (made.functions_apart.sublist List.filter_sublist)

/-- The recorded globals of a module can be declared in a module that has none. -/
theorem MadeOf.foldlM_recordedGlobals (made : m.MadeOf names home) (functions : List Signature) :
    m.recordedGlobals.foldlM ModuleMembers.addGlobal { functions } =
      .ok { functions, globals := m.recordedGlobals } := by
  refine foldlM_addGlobal (m := { functions }) ?_
  rw [List.nil_append, (m.perm_recordedGlobals.map Global.name).nodup_iff]
  exact made.globals_distinct.sublist (List.filter_sublist.map Global.name)

end ModuleMembers

namespace Sidecar

variable {m : Module} {names : List ItemName} {listing : Bytes} {includes : List String}

theorem filterMap_ite {α β : Type} (p : α → Bool) (f : α → β) (l : List α) :
    (l.filterMap fun a => if p a then some (f a) else none) = (l.filter p).map f := by
  induction l with
  | nil => rfl
  | cons a l ih =>
    rw [List.filterMap_cons, List.filter_cons, ih]
    cases p a <;> rfl

theorem functions_ofModule : (ofModule m listing includes).functions =
    (m.decls.inOrder.flatMap fun e => e.2.recordedFunctions).map recordOf := by
  simp only [ofModule, funext ofFunction?_eq, filterMap_ite, Declarations.allFunctions,
    List.filter_flatMap]
  rfl

theorem globals_ofModule : (ofModule m listing includes).globals =
    (m.decls.inOrder.flatMap fun e => e.2.recordedGlobals).map recordOfGlobal := by
  simp only [ofModule, funext ofGlobal?_eq, filterMap_ite, Declarations.allGlobals,
    List.filter_flatMap]
  rfl

theorem membersAt_new (root : String) (path : ModulePath) :
    (Declarations.new root).membersAt path = {} := by
  by_cases here : path = []
  · rw [here]
    rfl
  · refine Declarations.membersAt_of_not_mem ?_
    simpa [Declarations.new] using here

section Rounds

theorem membersAt_of_not_mem_inOrder {path : ModulePath}
    (missing : path ∉ m.decls.inOrder.map Prod.fst) : m.decls.membersAt path = {} :=
  Declarations.membersAt_of_not_mem fun there => missing
    (((List.mergeSort_perm m.decls.modules _).map Prod.fst).mem_iff.mpr there)

variable (made : m.decls.MadeOf names) (modules : AllPlain names .submodule)

include made

theorem mem_modules_of_mem_inOrder {e : ModulePath × ModuleMembers} (there : e ∈ m.decls.inOrder) :
    e ∈ m.decls.modules ∧ m.decls.membersAt e.1 = e.2 := by
  have mem := (List.mergeSort_perm m.decls.modules _).mem_iff.mp there
  exact ⟨mem, Declarations.membersAt_of_mem made.paths_distinct mem⟩

theorem nodup_inOrder : (m.decls.inOrder.map Prod.fst).Nodup :=
  ((List.mergeSort_perm m.decls.modules _).map Prod.fst).nodup_iff.mpr made.paths_distinct

include modules

/-- The recorded functions are declared again, each in its module. -/
theorem exists_declareFunctions (functions : AllPlain names .function) (listing : Bytes)
    (includes : List String) :
    ∃ d, (ofModule m listing includes).functions.foldlM (declareFunction m.decls.root)
        (.new m.decls.root) = .ok d ∧ d.root = m.decls.root ∧
      d.membersAt = fun path =>
        { functions := (m.decls.membersAt path).recordedFunctions.map Signature.outline } := by
  rw [functions_ofModule, List.foldlM_map]
  refine Declarations.exists_foldlM_modules (d := .new m.decls.root)
    (fun m s => m.addFunction s.outline) (nodup_inOrder made) ?_ ?_ ?_
  · intro e there s recorded d root
    obtain ⟨mem, -⟩ := mem_modules_of_mem_inOrder made there
    obtain ⟨known, isRecorded⟩ := List.mem_filter.mp (e.2.perm_recordedFunctions.mem_iff.mp recorded)
    have isUser : s.form = .user := by
      simp only [Signature.isRecorded, Bool.and_eq_true, beq_iff_eq] at isRecorded
      exact isRecorded.1.1.1.2
    have members := made.members e mem
    obtain ⟨i, at_i⟩ := List.mem_iff_getElem?.mp known
    have home : m.decls.dottedPath e.1 = d.dottedPath e.1 := by
      rw [Declarations.dottedPath, Declarations.dottedPath, root]
      rfl
    have declared := declareFunction_recordOf (d := d) isRecorded (made.isQualified_part modules mem)
      (functions _ (members.functions_user s known isUser) rfl)
      (home ▸ members.functions_home s known) (home ▸ (members.functions i s at_i).2)
    rw [root] at declared
    exact declared
  · intro e there
    obtain ⟨mem, same⟩ := mem_modules_of_mem_inOrder made there
    rw [membersAt_new, same]
    exact (made.members e mem).foldlM_recordedFunctions
  · intro path missing
    rw [membersAt_new, membersAt_of_not_mem_inOrder missing, ModuleMembers.recordedFunctions_empty]
    rfl

/-- The recorded globals are declared again, each in its module. -/
theorem exists_declareGlobals (globals : ∀ g ∈ m.decls.globals, isQualified g.name = false)
    {d : Declarations} (root : d.root = m.decls.root) {functions : ModulePath → List Signature}
    (members : d.membersAt = fun path => { functions := functions path }) (listing : Bytes)
    (includes : List String) :
    ∃ d', (ofModule m listing includes).globals.foldlM (declareGlobal m.decls.root) d = .ok d' ∧
      d'.root = m.decls.root ∧ d'.membersAt = fun path =>
        { functions := functions path, globals := (m.decls.membersAt path).recordedGlobals } := by
  rw [globals_ofModule, List.foldlM_map, ← root]
  refine Declarations.exists_foldlM_modules ModuleMembers.addGlobal (nodup_inOrder made) ?_ ?_ ?_
  · intro e there g recorded d' root'
    obtain ⟨mem, -⟩ := mem_modules_of_mem_inOrder made there
    obtain ⟨known, isRecorded⟩ := List.mem_filter.mp (e.2.perm_recordedGlobals.mem_iff.mp recorded)
    have items := made.members e mem
    have home : m.decls.dottedPath e.1 = d'.dottedPath e.1 := by
      rw [Declarations.dottedPath, Declarations.dottedPath, root', root]
    have declared := declareGlobal_recordOfGlobal (d := d') isRecorded
      (made.isQualified_part modules mem) (globals g (List.mem_flatMap.mpr ⟨e, mem, known⟩))
      (home ▸ items.globals_home g known) (home ▸ (items.globals g known).2.1)
    rw [root'] at declared
    exact declared
  · intro e there
    obtain ⟨mem, same⟩ := mem_modules_of_mem_inOrder made there
    rw [members, same]
    exact (made.members e mem).foldlM_recordedGlobals _
  · intro path missing
    rw [members, membersAt_of_not_mem_inOrder missing, ModuleMembers.recordedGlobals_empty]

end Rounds

variable {σ : Type}

/-- The sidecar of an analysed file declares again exactly what it tells of the file: in every module
and for every name and arity the recorded functions, in some order, and the recorded globals. -/
theorem exists_toDeclarations_ofModule (loader : Loader σ) {source file name : String}
    {shared shared' : Shared σ} (analysed : Gives (analyse loader source file name) shared m shared')
    (plain : ∀ g ∈ m.decls.globals, isQualified g.name = false) (listing : Bytes)
    (includes : List String) :
    ∃ d, (ofModule m listing includes).toDeclarations name = .ok d ∧ d.root = name ∧
      ∀ path,
        (∀ function arity, (d.overloads path function arity).Perm
          (((m.decls.overloads path function arity).filter Signature.isRecorded).map
            Signature.outline)) ∧
        (d.membersAt path).globals.Perm
          ((m.decls.membersAt path).globals.filter Global.isRecorded) ∧
        (d.membersAt path).structs = [] := by
  obtain ⟨rfl, l, t, -, read, made⟩ :=
    leads_analyse_itemNames loader source file name shared m _ analysed
  have named := (ensures_readTree_named l m.decls.root t read).2
  have functions : AllPlain t.itemNames .function := fun x there kind =>
    (named x there).2 (.inl kind)
  have modules : AllPlain t.itemNames .submodule := fun x there kind =>
    (named x there).2 (.inr kind)
  obtain ⟨d1, declared1, root1, members1⟩ :=
    exists_declareFunctions made modules functions listing includes
  obtain ⟨d2, declared2, root2, members2⟩ :=
    exists_declareGlobals made modules plain root1 members1 listing includes
  refine ⟨d2, ?_, root2, fun path => ⟨fun function arity => ?_, ?_, ?_⟩⟩
  · simp only [toDeclarations, declared1]
    exact declared2
  · have here : d2.overloads path function arity = (d2.membersAt path).overloads function arity :=
      d2.overloads_eq path function arity
    have there : m.decls.overloads path function arity =
        (m.decls.membersAt path).overloads function arity := m.decls.overloads_eq path function arity
    rw [here, there, members2]
    exact ModuleMembers.perm_overloads_recorded _ _ function arity
  · rw [members2]
    exact (m.decls.membersAt path).perm_recordedGlobals
  · rw [members2]

/-- Overloads and globals in nested modules, among them private ones and such whose types are not
primitive; only five functions and two globals are recorded. -/
def nestedItems : List Char :=
  "pub fn f(a: I8, b: Bool): I8 \x7b return a \x7d\n".toList ++
  "pub fn f(a: F64, b: Bool) \x7b \x7d\n".toList ++
  "fn f(a: Bool, b: Bool) \x7b \x7d\n".toList ++
  "pub fn f(a: I8, [n: I8 = 1]) \x7b \x7d\n".toList ++
  "pub struct p \x7b x: I8 \x7d\n".toList ++
  "pub fn g(a: p) \x7b \x7d\n".toList ++
  "pub const c: I64 = 1\n".toList ++
  "const h: I64 = 2\n".toList ++
  "pub module a \x7b\n".toList ++
  "  pub fn f(a: I8, b: Bool) \x7b \x7d\n".toList ++
  "  module b \x7b\n".toList ++
  "    pub fn f(a: U8, b: Bool) \x7b \x7d\n".toList ++
  "    pub fn c() \x7b \x7d\n".toList ++
  "    pub global c: F32 = 0.5\n".toList ++
  "  \x7d\n".toList ++
  "\x7d\n".toList

theorem exists_toDeclarations_ofModule_nestedItems :
    ∃ m shared, Gives (analyse noFiles (String.ofList nestedItems) "m" "m") ⟨{}, ()⟩ m shared ∧
      (∀ g ∈ m.decls.globals, isQualified g.name = false) ∧
      m.decls.functions.length = 9 ∧ (m.decls.functions.filter Signature.isRecorded).length = 5 ∧
      m.decls.globals.length = 3 ∧ (m.decls.globals.filter Global.isRecorded).length = 2 ∧
      ∃ d, (ofModule m [] []).toDeclarations "m" = .ok d ∧ d.root = "m" ∧
        ∀ path,
          (∀ function arity, (d.overloads path function arity).Perm
            (((m.decls.overloads path function arity).filter Signature.isRecorded).map
              Signature.outline)) ∧
          (d.membersAt path).globals.Perm
            ((m.decls.membersAt path).globals.filter Global.isRecorded) ∧
          (d.membersAt path).structs = [] := by
  have run : givesAs (analyseChars nestedItems) ⟨{}, ()⟩ (fun m _ =>
      (∀ g ∈ m.decls.globals, isQualified g.name = false) ∧
      m.decls.functions.length = 9 ∧ (m.decls.functions.filter Signature.isRecorded).length = 5 ∧
      m.decls.globals.length = 3 ∧ (m.decls.globals.filter Global.isRecorded).length = 2) = true := by
    decide +kernel
  obtain ⟨m, shared, analysed, checked⟩ := exists_of_givesAs run
  rw [← analyse_ofList] at analysed
  obtain ⟨plain, counts⟩ := of_decide_eq_true checked
  obtain ⟨functions, recorded, globals, recordedGlobals⟩ := counts
  exact ⟨m, shared, analysed, plain, functions, recorded, globals, recordedGlobals,
    exists_toDeclarations_ofModule noFiles analysed plain [] []⟩

end Sidecar

end EbLang
