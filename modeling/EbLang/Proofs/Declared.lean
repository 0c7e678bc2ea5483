import EbLang.Proofs.Items
import EbLang.Proofs.Lookup
import EbLang.Proofs.Scoping.Resolve
import Mathlib.Data.List.Nodup

/-!
# What a file declares

Items are declared in rounds, and all rounds fill in the same modules.  `Declarations.MadeOf` says
what the modules hold at any time: every declaration is that of an item, its mangled name is that of
its module with its own name behind, and overloads are numbered in the order of their declaration and
differ in their parameters.

Adding a function, a struct or a global keeps this, and so does entering a module; every round is a
sequence of such steps, since looking names up changes no declaration.
-/

namespace EbLang

open Resolving (mangle)

variable {σ τ : Type} {names : List ItemName}

/-! ## Modules -/

/-- How many of the first functions have the name and arity of a function. -/
def overloadsBefore (fs : List Signature) (i : Nat) (s : Signature) : Nat :=
  ((fs.take i).filter fun t => t.name == s.name && t.arity == s.arity).length

structure ModuleMembers.MadeOf (names : List ItemName) (home : String) (m : ModuleMembers) :
    Prop where
  /-- A function is written as such or is the constructor of a struct; overloads are numbered. -/
  functions : ∀ (i : Nat) (s : Signature), m.functions[i]? = some s →
    (⟨.function, s.name⟩ ∈ names ∨ ⟨.struct, s.name⟩ ∈ names) ∧
      s.mangled = mangle home s.name [s.arity, overloadsBefore m.functions i s]
  functions_user : ∀ s ∈ m.functions, s.form = .user → ⟨.function, s.name⟩ ∈ names
  functions_home : ∀ s ∈ m.functions, s.home = home
  functions_form : ∀ s ∈ m.functions, s.form ≠ .cast
  /-- Functions of one name can be told apart by their arguments. -/
  functions_apart : m.functions.Pairwise fun s t => s.clashesWith t = false
  structs : ∀ r ∈ m.structs, ⟨.struct, r.name⟩ ∈ names ∧ r.mangled = mangle home r.name []
  structs_distinct : (m.structs.map StructRef.name).Nodup
  /-- A global has the value of an expression, converted to its type. -/
  globals : ∀ g ∈ m.globals, ⟨.global, g.name⟩ ∈ names ∧ g.mangled = mangle home g.name [] ∧
    ∃ e ty, Constant.evalAs e ty = .ok (g.value, g.ty)
  globals_home : ∀ g ∈ m.globals, g.home = home
  globals_distinct : (m.globals.map Global.name).Nodup

namespace ModuleMembers

variable {home : String} {m m' : ModuleMembers}

theorem madeOf_empty : MadeOf names home {} where
  functions i s there := by simp at there
  functions_user := by simp
  functions_home := by simp
  functions_form := by simp
  functions_apart := .nil
  structs := by simp
  structs_distinct := List.nodup_nil
  globals := by simp
  globals_home := by simp
  globals_distinct := List.nodup_nil

/-- A function that clashes with no overload clashes with no function. -/
theorem clashesWith_eq_false_of_overloads {s t : Signature}
    (new : ((m.overloads s.name s.arity).any fun u => u.clashesWith s) = false)
    (there : t ∈ m.functions) : t.clashesWith s = false := by
  rw [Bool.eq_false_iff]
  intro clash
  have alike : (t.name == s.name && t.arity == s.arity) = true := by
    simp only [Signature.clashesWith, Bool.and_eq_true] at clash ⊢
    exact clash.1
  exact List.any_eq_false.mp new t (List.mem_filter.mpr ⟨there, alike⟩) clash

theorem MadeOf.addFunction (h : MadeOf names home m) {s : Signature}
    (name : ⟨.function, s.name⟩ ∈ names ∨ s.form ≠ .user ∧ ⟨.struct, s.name⟩ ∈ names)
    (mangled : s.mangled = mangle home s.name [s.arity, (m.overloads s.name s.arity).length])
    (isHome : s.home = home) (form : s.form ≠ .cast) (added : m.addFunction s = .ok m') :
    MadeOf names home m' := by
  simp only [ModuleMembers.addFunction] at added
  split at added
  next => cases added
  next new =>
    cases added
    refine { h with
      functions := ?_, functions_user := ?_, functions_home := ?_, functions_form := ?_,
      functions_apart := ?_ }
    · intro i t there
      by_cases old : i < m.functions.length
      · have same : (m.functions ++ [s]).take i = m.functions.take i :=
          List.take_append_of_le_length (Nat.le_of_lt old)
        simp only [List.getElem?_append_left old] at there
        simpa only [overloadsBefore, same] using h.functions i t there
      · have last : i = m.functions.length ∧ t = s := by
          obtain ⟨bound, eq⟩ := List.getElem?_eq_some_iff.mp there
          simp only [List.length_append, List.length_singleton] at bound
          have : i = m.functions.length := by omega
          subst this
          simp at eq
          exact ⟨rfl, eq.symm⟩
        obtain ⟨rfl, rfl⟩ := last
        refine ⟨name.imp_right And.right, ?_⟩
        simp only [overloadsBefore, List.take_left]
        exact mangled
    · refine List.forall_mem_append.mpr ⟨h.functions_user, List.forall_mem_singleton.mpr ?_⟩
      intro isUser
      exact name.resolve_right fun other => other.1 isUser
    · exact List.forall_mem_append.mpr ⟨h.functions_home, List.forall_mem_singleton.mpr isHome⟩
    · exact List.forall_mem_append.mpr ⟨h.functions_form, List.forall_mem_singleton.mpr form⟩
    · refine List.pairwise_append.mpr ⟨h.functions_apart, List.pairwise_singleton _ _, ?_⟩
      intro t there u last
      rw [List.mem_singleton.mp last]
      exact clashesWith_eq_false_of_overloads (Bool.eq_false_iff.mpr new) there

/-- What is added under a new name leaves the names distinct. -/
theorem nodup_of_find?_eq_none {α : Type} {name : α → String} {l : List α} {a : α}
    (h : ¬ (l.find? fun b => name b == name a).isSome = true) (distinct : (l.map name).Nodup) :
    ((l ++ [a]).map name).Nodup := by
  have fresh : name a ∉ l.map name := by
    intro there
    obtain ⟨b, mem, eq⟩ := List.mem_map.mp there
    exact h (List.find?_isSome.mpr ⟨b, mem, by simp [eq]⟩)
  simpa using distinct.concat fresh

theorem MadeOf.addStruct (h : MadeOf names home m) {r : StructRef}
    (name : ⟨.struct, r.name⟩ ∈ names) (mangled : r.mangled = mangle home r.name [])
    (added : m.addStruct r = .ok m') : MadeOf names home m' := by
  simp only [ModuleMembers.addStruct] at added
  split at added
  next => cases added
  next fresh =>
    cases added
    refine { h with structs := ?_, structs_distinct := ?_ }
    · intro q there
      rcases List.mem_append.mp there with there | last
      · exact h.structs q there
      · cases List.mem_singleton.mp last
        exact ⟨name, mangled⟩
    · exact nodup_of_find?_eq_none fresh h.structs_distinct

theorem MadeOf.addGlobal (h : MadeOf names home m) {g : Global}
    (name : ⟨.global, g.name⟩ ∈ names) (mangled : g.mangled = mangle home g.name [])
    (value : ∃ e ty, Constant.evalAs e ty = .ok (g.value, g.ty)) (isHome : g.home = home)
    (added : m.addGlobal g = .ok m') : MadeOf names home m' := by
  simp only [ModuleMembers.addGlobal] at added
  split at added
  next => cases added
  next fresh =>
    cases added
    refine { h with globals := ?_, globals_home := ?_, globals_distinct := ?_ }
    · intro q there
      rcases List.mem_append.mp there with there | last
      · exact h.globals q there
      · cases List.mem_singleton.mp last
        exact ⟨name, mangled, value⟩
    · exact List.forall_mem_append.mpr ⟨h.globals_home, List.forall_mem_singleton.mpr isHome⟩
    · exact nodup_of_find?_eq_none fresh h.globals_distinct

end ModuleMembers

/-! ## Files -/

def IsScope (names : List ItemName) (path : ModulePath) : Prop :=
  ∀ part ∈ path, ⟨.submodule, part⟩ ∈ names

theorem IsScope.append {path : ModulePath} (h : IsScope names path) {part : String}
    (named : ⟨.submodule, part⟩ ∈ names) : IsScope names (path ++ [part]) := by
  intro p there
  rcases List.mem_append.mp there with there | last
  · exact h p there
  · cases List.mem_singleton.mp last
    exact named

structure Declarations.MadeOf (names : List ItemName) (d : Declarations) : Prop where
  paths_distinct : (d.modules.map Prod.fst).Nodup
  paths : ∀ e ∈ d.modules, IsScope names e.1
  members : ∀ e ∈ d.modules, e.2.MadeOf names (d.dottedPath e.1)

namespace Declarations

variable {d d' : Declarations} {path : ModulePath}
variable {f : ModuleMembers → Except Fault ModuleMembers}

theorem madeOf_new (root : String) : MadeOf names (new root) where
  paths_distinct := List.nodup_singleton _
  paths := by
    simp [new, IsScope]
  members := by
    simp [new, ModuleMembers.madeOf_empty]

theorem mem_of_find? {m : ModuleMembers} (h : d.find? path = some m) : (path, m) ∈ d.modules := by
  obtain ⟨front, back, eq, -⟩ := List.lookup_eq_some_iff.mp h
  simp [eq]

/-- The module at a path, or an empty one. -/
theorem MadeOf.find?_getD (h : d.MadeOf names) (path : ModulePath) :
    ((d.find? path).getD {}).MadeOf names (d.dottedPath path) := by
  cases found : d.find? path with
  | none => exact ModuleMembers.madeOf_empty
  | some m => exact h.members _ (mem_of_find? found)

theorem addModule_root (d : Declarations) (path : ModulePath) :
    (d.addModule path).root = d.root := by
  simp only [addModule]
  split <;> rfl

theorem MadeOf.addModule (h : d.MadeOf names) (scope : IsScope names path) :
    (d.addModule path).MadeOf names := by
  simp only [Declarations.addModule]
  split
  next => exact h
  next missing =>
    have fresh : path ∉ d.modules.map Prod.fst := by
      intro there
      obtain ⟨e, mem, rfl⟩ := List.mem_map.mp there
      simp only [has, find?, Bool.not_eq_true, Option.isSome_eq_false_iff,
        Option.isNone_iff_eq_none, List.lookup_eq_none_iff] at missing
      simpa using missing e mem
    refine ⟨?_, ?_, ?_⟩
    · simpa using h.paths_distinct.concat fresh
    · intro e there
      rcases List.mem_append.mp there with there | last
      · exact h.paths e there
      · cases List.mem_singleton.mp last
        exact scope
    · intro e there
      rcases List.mem_append.mp there with there | last
      · exact h.members e there
      · cases List.mem_singleton.mp last
        exact ModuleMembers.madeOf_empty

/-- A new module is empty. -/
theorem find?_addModule (d : Declarations) (path q : ModulePath) :
    ((d.addModule path).find? q).getD {} = (d.find? q).getD {} := by
  simp only [addModule]
  split
  next => rfl
  next =>
    simp only [find?, List.lookup_append]
    cases d.modules.lookup q with
    | some m => rfl
    | none =>
      simp only [List.lookup_cons, List.lookup_nil, Option.none_or]
      split <;> rfl

theorem enter_induction {P : Declarations → Prop} (path : ModulePath)
    (step : ∀ d n, P d → P (d.addModule (path.take n))) (h : P d) : P (d.enter path) := by
  simp only [enter]
  generalize List.range (path.length + 1) = ns
  induction ns generalizing d with
  | nil => exact h
  | cons n ns ih => exact ih (step d n h)

theorem MadeOf.enter (h : d.MadeOf names) (scope : IsScope names path) :
    (d.enter path).MadeOf names :=
  enter_induction path (fun _ _ hd => hd.addModule fun part there =>
    scope part (List.mem_of_mem_take there)) h

theorem enter_root (d : Declarations) (path : ModulePath) : (d.enter path).root = d.root :=
  enter_induction (P := fun d' => d'.root = d.root) path
    (fun d' _ hd => (addModule_root d' _).trans hd) rfl

theorem find?_enter (d : Declarations) (path q : ModulePath) :
    ((d.enter path).find? q).getD {} = (d.find? q).getD {} :=
  enter_induction (P := fun d' => (d'.find? q).getD {} = (d.find? q).getD {}) path
    (fun d' _ hd => (find?_addModule d' _ q).trans hd) rfl

theorem has_addModule (d : Declarations) (path q : ModulePath) :
    (d.addModule path).has q = (d.has q || q == path) := by
  simp only [addModule]
  split
  next there =>
    by_cases same : q = path
    · simp [same, there]
    · simp [beq_false_of_ne same]
  next =>
    simp only [has, find?, List.lookup_append, List.lookup_cons, List.lookup_nil]
    cases d.modules.lookup q with
    | some m => rfl
    | none => cases q == path <;> rfl

theorem has_setModule (d : Declarations) (path : ModulePath) (m : ModuleMembers) :
    (d.setModule path m).has = d.has := by
  funext q
  have looked := Scopes.lookup_mapValue path m q d.modules
  simp only [has, find?, setModule, looked]
  split
  · exact Option.isSome_map
  · rfl

/-- Changing a module enters it. -/
theorem has_change (changed : d.change path f = .ok d') : d'.has = (d.enter path).has := by
  simp only [change] at changed
  cases result : f (((d.enter path).find? path).getD {}) with
  | error fault =>
    rw [result] at changed
    cases changed
  | ok m =>
    rw [result] at changed
    cases changed
    exact has_setModule _ path m

/-- Entering a module removes none. -/
theorem has_enter_of_has {q : ModulePath} (there : d.has q = true) (path : ModulePath) :
    (d.enter path).has q = true :=
  enter_induction (P := fun d' => d'.has q = true) path
    (fun d' _ hd => by rw [has_addModule, hd, Bool.true_or]) there

/-- A step that keeps the module at a path keeps the file. -/
theorem MadeOf.change (h : d.MadeOf names) (scope : IsScope names path)
    (step : ∀ m', f ((d.find? path).getD {}) = .ok m' → m'.MadeOf names (d.dottedPath path))
    (changed : d.change path f = .ok d') : d'.root = d.root ∧ d'.MadeOf names := by
  have entered := h.enter scope
  simp only [Declarations.change, find?_enter] at changed
  cases result : f ((d.find? path).getD {}) with
  | error fault =>
    rw [result] at changed
    cases changed
  | ok m' =>
    rw [result] at changed
    cases changed
    have home (p : ModulePath) : d.dottedPath p = (d.enter path).dottedPath p := by
      simp only [dottedPath, enter_root]
    refine ⟨d.enter_root path, ?_, ?_, ?_⟩
    · have same : ((d.enter path).setModule path m').modules.map Prod.fst =
          (d.enter path).modules.map Prod.fst := by
        simp only [setModule, List.map_map]
        refine List.map_congr_left fun e _ => ?_
        simp only [Function.comp]
        split
        next eq => exact (beq_iff_eq.mp eq).symm
        next => rfl
      rw [same]
      exact entered.paths_distinct
    · intro e there
      obtain ⟨e0, mem, rfl⟩ := List.mem_map.mp there
      split
      next => exact scope
      next => exact entered.paths e0 mem
    · intro e there
      obtain ⟨e0, mem, rfl⟩ := List.mem_map.mp there
      split
      next => exact home path ▸ step m' result
      next => exact entered.members e0 mem

theorem overloads_eq (d : Declarations) (path : ModulePath) (name : String) (arity : Nat) :
    d.overloads path name arity = ((d.find? path).getD {}).overloads name arity := by
  simp only [overloads]
  cases d.find? path with
  | none => rfl
  | some m => rfl

end Declarations

/-! ## Rounds -/

namespace Resolving

/-- Looking names up changes no declaration. -/
theorem stable_decls (d : Declarations) (loader : Loader σ) :
    Stable (fun n => n.decls = d) loader loader where
  toLookups := lookups_of_forall loader fun _ _ _ _ same => same
  scopes _ _ hn := hn

section Steps

variable {d : Declarations} {root : String} {scope : ModulePath}

/-- The names in view in a file that is resolved: its root is known, and what it declares is made of
its items. -/
abbrev Declares (root : String) (names : List ItemName) (n : Names σ) : Prop :=
  n.decls.root = root ∧ n.decls.MadeOf names

/-- A step from given declarations is a step from all that are made of the same items. -/
theorem agree_of_decls {α : Type} {Q : α → Names σ → Prop} {x y : Resolving σ α}
    (h : ∀ d : Declarations, d.root = root → d.MadeOf names → Agree (fun n => n.decls = d) Q x y) :
    Agree (Declares root names) Q x y :=
  fun n hn => h n.decls hn.1 hn.2 n rfl

theorem agree_homeOf : Agree (fun n : Names σ => n.decls = d)
    (fun home n => home = d.dottedPath scope ∧ n.decls = d) (homeOf scope) (homeOf scope) := by
  refine agree_get fun n hn => agree_pure ?_
  rintro n' ⟨rfl, hn'⟩
  exact ⟨by rw [hn], hn'⟩

theorem agree_nextOverload (name : String) (arity : Nat) : Agree (fun n : Names σ => n.decls = d)
    (fun index n => index = (((d.find? scope).getD {}).overloads name arity).length ∧ n.decls = d)
    (nextOverload scope name arity) (nextOverload scope name arity) := by
  refine agree_get fun n hn => agree_pure ?_
  rintro n' ⟨rfl, hn'⟩
  exact ⟨by rw [hn, Declarations.overloads_eq], hn'⟩

theorem keep_onStructs (f : StructTable → StructTable) :
    Keep (fun n : Names σ => n.decls = d) (onStructs f) (onStructs f) :=
  agree_modify fun _ hn => hn

/-- A change of a module that keeps what it is made of keeps what the file is made of. -/
theorem agree_onModule (h : d.MadeOf names) (isScope : IsScope names scope)
    {f : ModuleMembers → Except Fault ModuleMembers}
    (step : ∀ m', f ((d.find? scope).getD {}) = .ok m' → m'.MadeOf names (d.dottedPath scope))
    (position : Position) : Agree (fun n : Names σ => n.decls = d) (fun _ => Declares d.root names)
      (onModule scope position f) (onModule scope position f) := by
  refine agree_get fun n hn => ?_
  subst hn
  refine agree_bind (agree_located position _) fun decls => agree_of_and fun changed => ?_
  exact agree_modify fun _ _ => h.change isScope step changed

theorem agree_declareStruct (isScope : IsScope names scope) (s : StructItem)
    (named : ⟨.struct, s.name⟩ ∈ names) :
    Agree (Declares (σ := σ) root names) (fun s' n => s'.name = s.name ∧ Declares root names n)
      (declareStruct scope s) (declareStruct scope s) := by
  refine agree_of_decls fun d isRoot h => ?_
  subst isRoot
  refine agree_bind agree_homeOf fun home => agree_of_and ?_
  rintro rfl
  refine agree_read fun n => ?_
  refine agree_bind (keep_onStructs _) fun _ => ?_
  refine agree_bind (agree_onModule h isScope (fun m' added => ?_) _) fun _ => ?_
  · exact (h.find?_getD scope).addStruct named rfl added
  · exact agree_pure fun n' hn' => ⟨rfl, hn'⟩

variable (loader : Loader σ)

theorem keep_declareMembers (isScope : IsScope names scope)
    (s : StructItem) (named : ⟨.struct, s.name⟩ ∈ names) :
    Keep (Declares root names) (declareMembers loader scope s) (declareMembers loader scope s) := by
  refine agree_of_decls fun d isRoot h => ?_
  subst isRoot
  have lookups := (stable_decls d loader).types
  simp only [declareMembers]
  split
  · exact agree_pure fun n hn => ⟨by rw [hn], hn ▸ h⟩
  · refine agree_bind (lookups.mapM (fun f => ?_) _) fun members => ?_
    · exact agree_bind (lookups.typeNamed scope f.ty) fun ty => keep_pure _
    refine agree_read fun n => ?_
    refine agree_bind (keep_onStructs _) fun _ => ?_
    refine agree_bind (agree_nextOverload s.name 0) fun index => agree_of_and ?_
    rintro rfl
    refine agree_bind agree_homeOf fun home => agree_of_and ?_
    rintro rfl
    refine agree_onModule h isScope (fun m' added => ?_) _
    exact (h.find?_getD scope).addFunction (.inr ⟨FunctionForm.noConfusion, named⟩) rfl rfl
      FunctionForm.noConfusion added

theorem keep_declareFunction (isScope : IsScope names scope)
    (f : FunctionItem τ) (named : ⟨.function, f.name⟩ ∈ names) :
    Keep (Declares root names) (declareFunction loader scope f) (declareFunction loader scope f) := by
  refine agree_of_decls fun d isRoot h => ?_
  subst isRoot
  have lookups := (stable_decls d loader).types
  refine agree_bind agree_homeOf fun home => agree_of_and ?_
  rintro rfl
  refine agree_bind (lookups.mapM (fun p => ?_) _) fun params => ?_
  · exact agree_bind (lookups.typeNamed scope p.ty) fun ty => keep_pure _
  refine agree_bind (lookups.mapM (lookups.looks.namedParameter scope) _) fun byName => ?_
  refine agree_bind (lookups.looks.resultNamed scope f.result) fun result => ?_
  refine agree_bind (agree_nextOverload f.name params.length) fun index => agree_of_and ?_
  rintro rfl
  refine agree_bind (agree_onModule h isScope (fun m' added => ?_) _) fun _ => ?_
  · exact (h.find?_getD scope).addFunction (.inl named) rfl rfl FunctionForm.noConfusion added
  · exact keep_pure _

theorem keep_declareGlobal (isScope : IsScope names scope)
    (g : GlobalItem) (named : ⟨.global, g.name⟩ ∈ names) :
    Keep (Declares root names) (declareGlobal loader scope g) (declareGlobal loader scope g) := by
  refine agree_of_decls fun d isRoot h => ?_
  subst isRoot
  have lookups := (stable_decls d loader).types
  refine agree_bind agree_homeOf fun home => agree_of_and ?_
  rintro rfl
  refine agree_bind (lookups.optionMapM (lookups.typeNamed scope) g.ty) fun declared => ?_
  refine agree_bind (agree_located _ _) fun r => agree_of_and fun value => ?_
  refine agree_bind (agree_onModule h isScope (fun m' added => ?_) _) fun _ => ?_
  · exact (h.find?_getD scope).addGlobal named rfl ⟨_, _, value⟩ rfl added
  · exact keep_pure _

end Steps

section Rounds

variable {root : String}

mutual

theorem agree_declareStructs :
    ∀ (scope : ModulePath) (is : List (Item τ)), IsScope names scope →
      (∀ x ∈ namesOf is, x ∈ names) →
      Agree (Declares (σ := σ) root names)
        (fun is' n => namesOf is' = namesOf is ∧ Declares root names n)
        (declareStructs scope is) (declareStructs scope is)
  | _, [], _, _ => by
    exact agree_pure fun n hn => ⟨rfl, hn⟩
  | scope, i :: is, isScope, named => by
    simp only [namesOf, List.forall_mem_append] at named
    refine agree_bind (agree_declareStructsOf scope i isScope named.1) fun i' => agree_of_and ?_
    intro same
    refine agree_bind (agree_declareStructs scope is isScope named.2) fun is' => agree_of_and ?_
    intro others
    exact agree_pure fun n hn => ⟨by simp only [namesOf, same, others], hn⟩

theorem agree_declareStructsOf :
    ∀ (scope : ModulePath) (i : Item τ), IsScope names scope → (∀ x ∈ i.names, x ∈ names) →
      Agree (Declares (σ := σ) root names) (fun i' n => i'.names = i.names ∧ Declares root names n)
        (declareStructsOf scope i) (declareStructsOf scope i)
  | scope, .struct s, isScope, named => by
    simp only [Item.names, List.forall_mem_singleton] at named
    refine agree_bind (agree_declareStruct isScope s named) fun s' => agree_of_and fun same => ?_
    exact agree_pure fun n hn => ⟨by simp only [Item.names, same], hn⟩
  | scope, .submodule name items isPub isExtend span, isScope, named => by
    simp only [Item.names, List.forall_mem_cons] at named
    have inner := isScope.append named.1
    refine agree_bind (P := fun _ => Declares root names) ?_ fun _ => ?_
    · exact agree_modify fun n hn => ⟨(n.decls.enter_root _).trans hn.1, hn.2.enter inner⟩
    refine agree_bind (agree_declareStructs _ items inner named.2) fun items' => agree_of_and ?_
    intro same
    exact agree_pure fun n hn => ⟨by simp only [Item.names, same], hn⟩
  | _, .function _, _, _ | _, .imports _, _, _ | _, .global _, _, _ => by
    exact agree_pure fun n hn => ⟨rfl, hn⟩

end

mutual

theorem keep_declareAllMembers (loader : Loader σ) :
    ∀ (scope : ModulePath) (is : List (Item τ)), IsScope names scope →
      (∀ x ∈ namesOf is, x ∈ names) →
      Keep (Declares root names) (declareAllMembers loader scope is)
        (declareAllMembers loader scope is)
  | _, [], _, _ => by
    exact keep_pure _
  | scope, i :: is, isScope, named => by
    simp only [namesOf, List.forall_mem_append] at named
    refine agree_bind (keep_declareMembersOf loader scope i isScope named.1) fun _ => ?_
    exact keep_declareAllMembers loader scope is isScope named.2

theorem keep_declareMembersOf (loader : Loader σ) :
    ∀ (scope : ModulePath) (i : Item τ), IsScope names scope → (∀ x ∈ i.names, x ∈ names) →
      Keep (Declares root names) (declareMembersOf loader scope i) (declareMembersOf loader scope i)
  | scope, .struct s, isScope, named => by
    simp only [Item.names, List.forall_mem_singleton] at named
    exact keep_declareMembers loader isScope s named
  | scope, .submodule name items isPub isExtend span, isScope, named => by
    simp only [Item.names, List.forall_mem_cons] at named
    exact keep_declareAllMembers loader _ items (isScope.append named.1) named.2
  | _, .function _, _, _ | _, .imports _, _, _ | _, .global _, _, _ => by
    exact keep_pure _

end

mutual

theorem keep_declareValues (loader : Loader σ) :
    ∀ (scope : ModulePath) (is : List (Item τ)), IsScope names scope →
      (∀ x ∈ namesOf is, x ∈ names) →
      Keep (Declares root names) (declareValues loader scope is) (declareValues loader scope is)
  | _, [], _, _ => by
    exact keep_pure _
  | scope, i :: is, isScope, named => by
    simp only [namesOf, List.forall_mem_append] at named
    refine agree_bind (keep_declareValuesOf loader scope i isScope named.1) fun i' => ?_
    refine agree_bind (keep_declareValues loader scope is isScope named.2) fun is' => ?_
    exact keep_pure _

theorem keep_declareValuesOf (loader : Loader σ) :
    ∀ (scope : ModulePath) (i : Item τ), IsScope names scope → (∀ x ∈ i.names, x ∈ names) →
      Keep (Declares root names) (declareValuesOf loader scope i) (declareValuesOf loader scope i)
  | scope, .function f, isScope, named => by
    simp only [Item.names, List.forall_mem_singleton] at named
    exact agree_bind (keep_declareFunction loader isScope f named) fun f' => keep_pure _
  | scope, .global g, isScope, named => by
    simp only [Item.names, List.forall_mem_singleton] at named
    exact agree_bind (keep_declareGlobal loader isScope g named) fun g' => keep_pure _
  | scope, .submodule name items isPub isExtend span, isScope, named => by
    simp only [Item.names, List.forall_mem_cons] at named
    refine agree_bind (keep_declareValues loader _ items (isScope.append named.1) named.2)
      fun items' => keep_pure _
  | _, .imports _, _, _ | _, .struct _, _, _ => by
    exact keep_pure _

end

/-- Looking names up keeps what a file declares. -/
theorem stable_declares (loader : Loader σ) : Stable (Declares root names) loader loader where
  toLookups := lookups_of_forall loader fun _ _ _ _ declares => declares
  scopes _ _ declares := declares

/-- A file declares what its items are. -/
theorem keep_file (loader : Loader σ) {items : List (Item Atom)}
    (named : ∀ x ∈ namesOf items, x ∈ names) :
    Keep (Declares root names) (file loader items) (file loader items) := by
  have scope : IsScope names [] := by simp [IsScope]
  have lookups : Stable (Declares root names) loader loader := stable_declares loader
  refine agree_bind (agree_declareStructs [] items scope named) fun items1 => agree_of_and ?_
  intro same
  rw [← same] at named
  refine agree_bind (lookups.types.declareImports items1) fun _ => ?_
  refine agree_bind (keep_declareAllMembers loader [] items1 scope named) fun _ => ?_
  refine agree_bind (keep_declareValues loader [] items1 scope named) fun items2 => ?_
  exact lookups.bodies.resolveItems [] items2

end Rounds

end Resolving

/-- A resolved file declares what its items are. -/
theorem FileTree.leads_resolve_madeOf (loader : Loader σ) (t : FileTree Atom) (shared : Shared σ) :
    Leads (t.resolve loader) shared fun m _ =>
      m.decls.root = t.name ∧ m.decls.MadeOf t.itemNames := by
  refine leads_bind (Ensures.leads (ensures_liftExcept (Merge.ensures_levels _ t.items)))
    fun items shared1 merged => ?_
  refine leads_bind (P := fun r _ => Resolving.Declares t.name t.itemNames r.2) ?_ fun r _ hr =>
    leads_pure hr
  have declares : Keep (Resolving.Declares t.name t.itemNames) (Resolving.file loader items)
      (Resolving.file loader items) := Resolving.keep_file loader merged.names
  exact Resolving.leads_runIn (declares.leads ⟨rfl, Declarations.madeOf_new t.name⟩)

end EbLang
