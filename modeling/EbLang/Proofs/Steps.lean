import EbLang.Proofs.Loading
import EbLang.Proofs.Mangling
import EbLang.Proofs.Moves

/-!
# What resolving does to the names in view

All that a file does to the names in view while it is resolved are steps of a few kinds (`Step`), one
after the other, also if it fails at some point (`stepwise_file`).  A fact about the names in view that
no step breaks holds at any time.

A step that notes a function or a global of another file tells where it comes from: it is public, and
an import declares it.  So what a name is found to stand for is built in, of the file itself, or such an
item, and then it is listed (`Known`).

An analysis knows the state of its loader through the loader only, so all it does to this state is to
load files (`moves_analyseLexed`).
-/

namespace EbLang

open Relation

variable {σ α β τ : Type}

/-- An item that a function body may refer to by its name. -/
inductive Reference where
  | function (s : Signature)
  | global (g : Global)

namespace Reference

/-- Whether other files may refer to an item. -/
def isPub : Reference → Bool
  | function s => s.isPub
  | global g => g.isPub

/-- An item is one of a file. -/
def DeclaredIn (d : Declarations) : Reference → Prop
  | function s => s ∈ d.functions
  | global g => g ∈ d.globals

/-- The name under which an item is known in a program. -/
def mangled : Reference → String
  | function s => s.mangled
  | global g => g.mangled

/-- An item is an operator of the language. -/
def IsBuiltIn : Reference → Prop
  | function s => ∃ symbol arity, s ∈ Builtin.operators symbol arity
  | global _ => False

/-- The mangled names of the items of other files that are of the same kind. -/
def listing (e : Externals) : Reference → List String
  | function _ => e.functions.map Signature.mangled
  | global _ => e.globals.map Global.mangled

end Reference

/-- The global that a variable is bound to. -/
def Binding.references : Binding → List Reference
  | .localVar _ => []
  | .globalVar g => [.global g]

/-- A public item of one of some imports. -/
def Offers (imports : List Import) (r : Reference) : Prop :=
  r.isPub = true ∧ ∃ i ∈ imports, r.DeclaredIn i.decls

/-- Lists an item. -/
def Externals.note (e : Externals) : Reference → Externals
  | .function s => e.addFunction s
  | .global g => e.addGlobal g

namespace Externals

variable (e : Externals) (q r : Reference)

theorem listing_subset_note : r.listing e ⊆ r.listing (e.note q) := by
  intro name there
  cases q <;> cases r <;> simp only [note, addFunction, addGlobal, Reference.listing] at there ⊢ <;>
    split <;> simp_all

theorem mangled_mem_note : r.mangled ∈ r.listing (e.note r) := by
  cases r <;> simp only [note, addFunction, addGlobal, Reference.listing, Reference.mangled] <;>
    split <;> simp_all

end Externals

namespace Declarations

variable {d : Declarations} {m : ModuleMembers} {path : ModulePath}
variable {s : Signature} {name : String}

theorem mem_functions_of_find? (h : d.find? path = some m)
    (there : s ∈ m.functions) : s ∈ d.functions :=
  List.mem_flatMap.mpr ⟨_, mem_of_find? h, there⟩

theorem mem_globals_of_find? (h : d.find? path = some m) {g : Global}
    (found : m.global? name = some g) : g ∈ d.globals :=
  List.mem_flatMap.mpr ⟨_, mem_of_find? h, List.mem_of_find?_eq_some found⟩

theorem mem_functions_of_overloads {arity : Nat}
    (there : s ∈ d.overloads path name arity) : s ∈ d.functions := by
  simp only [overloads] at there
  split at there
  next m found => exact mem_functions_of_find? found (List.mem_of_mem_filter there)
  next => cases there

end Declarations

namespace Resolving

/-- What may happen to the names in view while a file is resolved. -/
inductive Step (loader : Loader σ) (n : Names σ) : Names σ → Prop
  | scopes (scopes : Scopes) : Step loader n { n with scopes }
  | decls (decls : Declarations) (kept : ∀ path, n.decls.has path = true → decls.has path = true) :
      Step loader n { n with decls }
  | structs (structs : StructTable) : Step loader n { n with shared := { n.shared with structs } }
  | imports (i : Import) : Step loader n { n with imports := n.imports ++ [i] }
  | load (file : String) (position : Position) :
      Step loader n { n with shared := ((loader file position).run.run n.shared).2 }
  | noteStruct (r : StructRef) : Step loader n { n with externals := n.externals.addStruct r }
  | note {r : Reference} (offered : Offers n.imports r) :
      Step loader n { n with externals := n.externals.note r }

/-- All that a computation does to the names in view are such steps. -/
abbrev Stepwise (loader : Loader σ) (x : Resolving σ α) : Prop := Moves (Step loader) x

variable {loader : Loader σ}
variable {n : Names σ} {name : String}
variable {isOutside : Bool} {own : Declarations} {g : Global}

theorem compatible_stepwise (loader : Loader σ) : Compatible fun _ x _ => Stepwise loader x where
  pure := moves_pure
  fail _ _ := moves_throw _
  get := moves_get
  bind := moves_bind

theorem stepwise_onModule (path : ModulePath) (position : Position)
    (f : ModuleMembers → Except Fault ModuleMembers) :
    Stepwise loader (onModule path position f) := by
  intro n
  refine movesFrom_get (movesFrom_bind ((compatible_stepwise loader).located position _ n) ?_)
  intro decls n' gives
  cases changed : n.decls.change path f with
  | error fault =>
    rw [changed] at gives
    cases gives
  | ok d =>
    rw [changed] at gives
    cases gives
    refine .single (.decls decls fun q there => ?_)
    rw [Declarations.has_change changed]
    exact Declarations.has_enter_of_has there path

/-- An item of another file that passes is public. -/
theorem tells_checkVisible {isPub : Bool} {position : Position} :
    Tells (Step loader) (checkVisible isPub isOutside name position) n fun _ n' =>
      n' = n ∧ (isOutside = true → isPub = true) := by
  simp only [checkVisible]
  split
  · exact tells_throw
  next visible => exact tells_pure ⟨rfl, by simpa using visible⟩

/-- An item is built in, of the file itself, or offered by an import and listed. -/
def Known (n : Names σ) (r : Reference) : Prop :=
  r.IsBuiltIn ∨ r.DeclaredIn n.decls ∨ Offers n.imports r ∧ r.mangled ∈ r.listing n.externals

theorem known_note (offered : Offers n.imports r) :
    Known { n with externals := n.externals.note r } r :=
  .inr (.inr ⟨offered, n.externals.mangled_mem_note r⟩)

/-! ## Modules and types -/

variable {m : ModuleRef} (scope : ModulePath) (parts : List String) (c : Call)

theorem stepwise_importFile (file : String) (path : ModulePath) (position : Position) :
    Stepwise loader (importFile loader file path position) := by
  refine moves_bind moves_get fun n => ?_
  split
  · refine moves_bind moves_get fun n => ?_
    split
    · exact moves_bind (moves_modify fun _ => .imports _) fun _ => moves_pure _
    · exact moves_pure _
  · have load : Stepwise loader (lift (loader file position)) := fun n => .single (.load file position)
    refine moves_bind load fun decls => ?_
    exact moves_bind (moves_modify fun _ => .imports _) fun _ => moves_pure _

theorem types_stepwise (loader : Loader σ) :
    RespectsTypes (fun _ x _ => Stepwise loader x) loader loader where
  toCompatible := compatible_stepwise loader
  imports := stepwise_importFile
  noteStruct _ := moves_modify fun _ => .noteStruct _

theorem stepwise_findModule (position : Position) :
    Stepwise loader (findModule loader scope parts position) :=
  (types_stepwise loader).looks.findModule scope parts position

theorem leads_importFile (file : String) (path : ModulePath) (position : Position) (n : Names σ) :
    Leads (importFile loader file path position) n fun decls n' =>
      ∃ i ∈ n'.imports, i.decls = decls := by
  refine leads_get ?_
  split
  next known found =>
    have there := List.mem_of_find?_eq_some found
    refine leads_get ?_
    split
    · exact leads_modify (leads_pure ⟨known, List.mem_append_left _ there, rfl⟩)
    · exact leads_pure ⟨known, there, rfl⟩
  next =>
    refine leads_bind (P := fun _ _ => True) (fun _ _ _ => trivial) fun decls n' _ => ?_
    exact leads_modify (leads_pure ⟨⟨file, path, decls⟩, by simp, rfl⟩)

/-- A module of another file is a module of an import. -/
def Reached (n : Names σ) (m : ModuleRef) : Prop :=
  ∀ decls path, m = .outside decls path → ∃ i ∈ n.imports, i.decls = decls

theorem leads_findModule (position : Position)
    (n : Names σ) : Leads (findModule loader scope parts position) n fun m n' => Reached n' m := by
  simp only [findModule]
  refine leads_get ?_
  split
  · refine leads_pure ?_
    rintro decls path ⟨⟩
  · split
    next m reached =>
      refine leads_pure ?_
      rintro decls path rfl
      obtain ⟨i, there, found⟩ := List.exists_of_findSome?_eq_some reached
      obtain ⟨path', -, same⟩ := Option.map_eq_some_iff.mp found
      cases same
      exact ⟨i, there, rfl⟩
    · cases parts with
      | nil => exact leads_throw
      | cons file path =>
        have load : Leads (do
            let decls ← importFile loader file [] position
            if decls.has path then return ModuleRef.outside decls path
            else failAt position (.unknownModule (joinName (file :: path)))) n
              fun m n' => Reached n' m := by
          refine leads_bind (leads_importFile file [] position n) fun decls n' imported => ?_
          split
          · refine leads_pure ?_
            rintro decls path ⟨⟩
            exact imported
          · exact leads_throw
        dsimp only
        split
        · exact leads_throw_bind
        · exact load

/-! ## Globals -/

/-- The members of a module of another file are members of an import. -/
theorem Reached.exists_import (h : Reached n m)
    (outside : m.isOutside = true) {members : ModuleMembers}
    (found : m.members? own = some members) :
    ∃ i ∈ n.imports, ∃ path, i.decls.find? path = some members := by
  cases m with
  | inside path => cases outside
  | outside decls path =>
    obtain ⟨i, there, rfl⟩ := h decls path rfl
    exact ⟨i, there, path, found⟩

theorem offers_of_members (h : Reached n m) (outside : m.isOutside = true)
    (found : (m.members? own).bind (·.global? name) = some g) (isPub : g.isPub = true) :
    Offers n.imports (.global g) := by
  obtain ⟨members, here, found⟩ := Option.bind_eq_some_iff.mp found
  obtain ⟨i, there, path, here⟩ := h.exists_import outside here
  exact ⟨isPub, i, there, Declarations.mem_globals_of_find? here found⟩

theorem offers_of_imported
    (h : importedGlobal? n name = some g) : Offers n.imports (.global g) := by
  obtain ⟨i, there, found⟩ := List.exists_of_findSome?_eq_some h
  obtain ⟨found, isPub⟩ := Option.filter_eq_some_iff.mp found
  obtain ⟨members, here, found⟩ := Option.bind_eq_some_iff.mp found
  exact ⟨isPub, i, there, Declarations.mem_globals_of_find? here found⟩

/-- A global that is found is known. -/
abbrev GlobalKnown (found : Option Found) (n : Names σ) : Prop :=
  ∀ g, found = some g → Known n (.global g.1)

theorem tells_globalOf (position : Position) (home : List String) (name : String)
    (rest : List String) {next : Resolving σ (Option Found)}
    (goesOn : ∀ n, Tells (Step loader) next n GlobalKnown) {module? : Option ModuleRef}
    (reached : ∀ m, module? = some m → Reached n m) :
    Tells (Step loader) (globalOf position home name rest next module?) n GlobalKnown := by
  cases module? with
  | none =>
    refine tells_pure ?_
    rintro g ⟨⟩
  | some m =>
    refine tells_get ?_
    cases found : (m.members? n.decls).bind (·.global? name) with
    | none => exact goesOn n
    | some g =>
      refine tells_bind tells_checkVisible ?_
      rintro _ _ ⟨rfl, visible⟩
      cases m with
      | inside path =>
        refine tells_pure ?_
        rintro _ ⟨⟩
        obtain ⟨members, here, found⟩ := Option.bind_eq_some_iff.mp found
        exact .inr (.inl (Declarations.mem_globals_of_find? here found))
      | outside decls path =>
        have offered := offers_of_members (reached _ rfl) rfl found (visible rfl)
        refine tells_modify (.single (.note offered)) (tells_pure ?_)
        rintro _ ⟨⟩
        exact known_note offered

theorem tells_qualifiedGlobal (position : Position) (rest : List String) :
    ∀ home (n : Names σ),
      Tells (Step loader) (qualifiedGlobal loader scope position home rest) n GlobalKnown := by
  induction rest with
  | nil =>
    intro home n
    refine tells_pure ?_
    rintro g ⟨⟩
  | cons name rest ih =>
    intro home n
    have moves : Stepwise loader (some <$> findModule loader scope home position) :=
      moves_map (stepwise_findModule scope home position)
    have reached : Leads (some <$> findModule loader scope home position) n fun module? n' =>
        ∀ m, module? = some m → Reached n' m := by
      refine leads_map ((leads_findModule scope home position n).imp ?_)
      rintro m n' reached _ ⟨⟩
      exact reached
    have goesOn (module? : Option ModuleRef) (n' : Names σ)
        (reached : ∀ m, module? = some m → Reached n' m) :
        Tells (Step loader) (globalOf position home name rest
          (qualifiedGlobal loader scope position (home ++ [name]) rest) module?) n' GlobalKnown :=
      tells_globalOf position home name rest (ih (home ++ [name])) reached
    simp only [qualifiedGlobal]
    split
    · exact tells_bind ⟨moves n, reached⟩ goesOn
    · refine tells_bind ⟨moves_tryCatch moves (fun _ => moves_pure _) n,
        leads_tryCatch reached fun _ _ _ => leads_pure ?_⟩ goesOn
      rintro m ⟨⟩

theorem tells_findGlobal (position : Position) (n : Names σ) :
    Tells (Step loader) (findGlobal loader scope parts position) n GlobalKnown := by
  cases parts with
  | nil =>
    refine tells_pure ?_
    rintro g ⟨⟩
  | cons first rest =>
    refine tells_get ?_
    cases own : ownGlobal? n scope first with
    | some g =>
      refine tells_pure ?_
      rintro _ ⟨⟩
      obtain ⟨path, -, found⟩ := List.exists_of_findSome?_eq_some own
      obtain ⟨members, here, found⟩ := Option.bind_eq_some_iff.mp found
      exact .inr (.inl (Declarations.mem_globals_of_find? here found))
    | none =>
      refine tells_get ?_
      cases found : importedGlobal? n first with
      | none => exact tells_qualifiedGlobal scope position rest [first] n
      | some g =>
        have offered := offers_of_imported found
        refine tells_modify (.single (.note offered)) (tells_pure ?_)
        rintro _ ⟨⟩
        exact known_note offered

theorem tells_findVariable (name : String) (position : Position) (n : Names σ) :
    Tells (Step loader) (findVariable loader scope name position) n fun found n' =>
      ∀ r ∈ found.1.references, Known n' r := by
  refine tells_get ?_
  split
  · exact tells_pure (List.forall_mem_nil _)
  · refine tells_bind (tells_findGlobal scope _ position n) fun found n' known => ?_
    cases found with
    | none => exact tells_throw
    | some g => exact tells_pure (List.forall_mem_singleton.mpr (known g rfl))

theorem stepwise_findVariable (name : String) (position : Position) :
    Stepwise loader (findVariable loader scope name position) :=
  fun n => (tells_findVariable scope name position n).1

/-! ## Functions -/

/-- Overloads and whether they are of other files: those are of imports, others of the file itself. -/
structure Provided (n : Names σ) (r : List Signature × Bool) : Prop where
  own : r.2 = false → ∀ s ∈ r.1, s ∈ n.decls.functions
  imported : r.2 = true → ∀ s ∈ r.1, ∃ i ∈ n.imports, s ∈ i.decls.functions

theorem mem_of_mem_addDistinct {known more : List Signature} {s : Signature}
    (h : s ∈ addDistinct known more) : s ∈ known ∨ s ∈ more := by
  induction more generalizing known with
  | nil => exact .inl h
  | cons t more ih =>
    rcases ih h with old | new
    · simp only at old
      split at old
      · exact .inl old
      · rcases List.mem_append.mp old with old | new
        · exact .inl old
        · exact .inr (List.mem_cons.mpr (.inl (List.mem_singleton.mp new)))
    · exact .inr (List.mem_cons_of_mem t new)

theorem provided_overloadsInView (n : Names σ) (scope : ModulePath) (name : String) (arity : Nat) :
    Provided n (overloadsInView n scope name arity) := by
  simp only [overloadsInView]
  split
  next found own =>
    refine ⟨fun _ s there => ?_, fun outside => (by cases outside)⟩
    obtain ⟨path, -, rfl⟩ := List.mem_map.mp (List.mem_of_find?_eq_some own)
    exact Declarations.mem_functions_of_overloads there
  next =>
    refine ⟨fun inside => (by cases inside), fun _ s there => ?_⟩
    obtain ⟨i, listed, there⟩ := List.mem_flatMap.mp
      ((mem_of_mem_addDistinct there).resolve_left List.not_mem_nil)
    refine ⟨i, listed, ?_⟩
    have there := List.mem_of_mem_filter there
    cases found : i.members? with
    | none => simp [found] at there
    | some members =>
      simp only [found, Option.map_some, Option.getD_some] at there
      exact Declarations.mem_functions_of_find? found (List.mem_of_mem_filter there)

theorem leads_overloadsNamed (position : Position) (n : Names σ) :
    Leads (overloadsNamed loader scope c position) n fun r n' => Provided n' r := by
  simp only [overloadsNamed]
  split
  · exact leads_get (leads_pure (provided_overloadsInView n scope _ _))
  · exact leads_get (leads_pure (provided_overloadsInView n scope _ _))
  · refine leads_bind (leads_findModule scope _ position n) fun m n' reached => ?_
    refine leads_get (leads_pure ?_)
    cases found : m.members? n'.decls with
    | none => exact ⟨fun _ => List.forall_mem_nil _, fun _ => List.forall_mem_nil _⟩
    | some members =>
      refine ⟨fun inside s there => ?_, fun outside s there => ?_⟩
      · have listed := List.mem_of_mem_filter there
        cases m with
        | outside decls path => cases inside
        | inside path => exact Declarations.mem_functions_of_find? found listed
      · have there := List.mem_of_mem_filter there
        obtain ⟨i, listed, path, here⟩ := reached.exists_import outside found
        exact ⟨i, listed, Declarations.mem_functions_of_find? here there⟩

theorem stepwise_overloadsNamed (position : Position) :
    Stepwise loader (overloadsNamed loader scope c position) := by
  simp only [overloadsNamed]
  split
  · exact moves_bind moves_get fun n => moves_pure _
  · exact moves_bind moves_get fun n => moves_pure _
  · refine moves_bind (stepwise_findModule scope _ position) fun m => ?_
    exact moves_bind moves_get fun n => moves_pure _

/-- Public functions of imports are noted one after the other. -/
theorem steps_noteFunctions (ss : List Signature) :
    ∀ n : Names σ, (∀ s ∈ ss, Offers n.imports (.function s)) →
      ReflTransGen (Step loader) n { n with externals := ss.foldl Externals.addFunction n.externals } := by
  induction ss with
  | nil => exact fun n _ => .refl
  | cons s ss ih =>
    intro n offered
    obtain ⟨first, others⟩ := List.forall_mem_cons.mp offered
    exact .head (.note first) (ih { n with externals := n.externals.addFunction s } others)

/-- Functions that are noted one after the other are all listed. -/
theorem mangled_mem_foldl {ss : List Signature} {e : Externals} {s : Signature} (h : s ∈ ss) :
    s.mangled ∈ (ss.foldl Externals.addFunction e).functions.map Signature.mangled := by
  have kept (ss : List Signature) (e : Externals) :
      e.functions.map Signature.mangled ⊆
        (ss.foldl Externals.addFunction e).functions.map Signature.mangled := by
    induction ss generalizing e with
    | nil => exact List.Subset.refl _
    | cons t ss ih =>
      exact List.Subset.trans (e.listing_subset_note (.function t) (.function t))
        (ih (e.addFunction t))
  induction ss generalizing e with
  | nil => cases h
  | cons t ss ih =>
    rcases List.mem_cons.mp h with rfl | later
    · exact kept ss (e.addFunction s) (e.mangled_mem_note (.function s))
    · exact ih later

theorem tells_acceptable (position : Position) {found : List Signature}
    (provided : Provided n (found, isOutside)) :
    Tells (Step loader) (acceptable c position found isOutside) n fun ss n' =>
      ∀ s ∈ ss, Known n' (.function s) := by
  simp only [acceptable]
  split
  · exact tells_throw
  next first others visible =>
    have note : Tells (Step loader) (do
        if isOutside then onExternals fun e => ((first :: others).filter fun s =>
          (s.typesFor? c.named).isSome).foldl Externals.addFunction e
        return (first :: others).filter fun s => (s.typesFor? c.named).isSome) n fun ss n' =>
          ∀ s ∈ ss, Known n' (.function s) := by
      rw [← visible]
      cases isOutside with
      | false =>
        refine tells_pure fun s there => ?_
        have there := List.mem_of_mem_filter (List.mem_of_mem_filter there)
        exact .inr (.inl (provided.own rfl s there))
      | true =>
        have offered : ∀ s ∈ (found.filter fun s => !true || s.isPub).filter fun s =>
            (s.typesFor? c.named).isSome, Offers n.imports (.function s) := by
          intro s there
          obtain ⟨there, isPub⟩ := List.mem_filter.mp (List.mem_of_mem_filter there)
          exact ⟨isPub, provided.imported rfl s there⟩
        refine tells_modify (steps_noteFunctions _ n offered) (tells_pure fun s there => ?_)
        exact .inr (.inr ⟨offered s there, mangled_mem_foldl there⟩)
    split
    · exact ⟨.refl, leads_throw_bind⟩
    · exact note

theorem tells_candidatesOf (position : Position) (n : Names σ) :
    Tells (Step loader) (candidatesOf loader scope c position) n fun ss n' =>
      ∀ s ∈ ss, Known n' (.function s) := by
  simp only [candidatesOf]
  split
  · split
    · exact ⟨.refl, leads_throw_bind⟩
    · exact tells_pure fun s there => .inl ⟨c.name, c.arity, there⟩
  · refine tells_bind ⟨stepwise_overloadsNamed scope c position n, leads_overloadsNamed scope c position n⟩
      fun r n' provided => ?_
    split
    · exact ⟨.refl, leads_throw_bind⟩
    · exact tells_acceptable c position provided

/-! ## Whole files -/

theorem stepwise_within {x : Resolving σ α} (inner : Stepwise loader x) (block : Nat)
    (isLoop : Bool) : Stepwise loader (within block isLoop x) := by
  intro n
  have entered := inner { n with scopes := n.scopes.enter block isLoop }
  exact (ReflTransGen.head (.scopes _) entered).tail (.scopes _)

theorem bodies_stepwise (loader : Loader σ) :
    RespectsBodies (fun x _ _ => Stepwise loader x) loader loader {} where
  toRespectsTypes := types_stepwise loader
  give _ := moves_pure _
  chain := moves_bind
  step := (types_stepwise loader).resolveAtom stepwise_findVariable fun scope c position n =>
    (tells_candidatesOf scope c position n).1
  target := stepwise_findVariable
  declareVar _ _ := .single (.scopes _)
  within block isLoop inner := stepwise_within inner block isLoop
  carries _ _ := trivial

theorem declarations_stepwise (loader : Loader σ) :
    RespectsDeclarations (fun _ x _ => Stepwise loader x) loader loader where
  toRespectsTypes := types_stepwise loader
  enter _ := moves_modify fun _ => .decls _ fun _ there => Declarations.has_enter_of_has there _
  addRow := moves_modify fun _ => .structs _
  addStruct path position _ := stepwise_onModule path position _
  addFunction path position _ := stepwise_onModule path position _
  addGlobal path position _ := stepwise_onModule path position _
  members := (types_stepwise loader).declareMembers (fun path position _ =>
    stepwise_onModule path position _) fun _ _ => moves_modify fun _ => .structs _

theorem stepwise_file (items : List (Item Atom)) : Stepwise loader (file loader items) :=
  (bodies_stepwise loader).file (declarations_stepwise loader) items

end Resolving

/-! ## Analyses -/

/-- The state of the loader stays as it is, or a file is loaded. -/
def MayLoad (loader : Loader σ) (s s' : Shared σ) : Prop :=
  s'.world = s.world ∨ ∃ structs file position,
    s'.world = ((loader file position).run.run ⟨structs, s.world⟩).2.world

variable {loader : Loader σ}

theorem Resolving.Step.mayLoad {n n' : Names σ} (h : Resolving.Step loader n n') :
    MayLoad loader n.shared n'.shared := by
  cases h with
  | load file position => exact .inr ⟨n.shared.structs, file, position, rfl⟩
  | scopes | decls | structs | imports | noteStruct | note => exact .inl rfl

theorem moves_runIn {x : Resolving σ α} (h : Resolving.Stepwise loader x)
    (file : String) : Moves (MayLoad loader) (x.runIn file) :=
  fun shared => (h { shared, decls := .new file }).lift Names.shared fun _ _ step => step.mayLoad

/-- All an analysis does to the state of the loader is to load files, also when it fails. -/
theorem moves_analyseLexed (loader : Loader σ) (l : Lexed) (name : String) :
    Moves (MayLoad loader) (analyseLexed loader l name) := by
  rw [analyseLexed_eq]
  refine moves_bind (moves_liftExcept (readTree l name)) fun t => ?_
  refine moves_bind ?_ fun m => moves_bind moves_get fun shared => moves_liftExcept _
  refine moves_bind (moves_liftExcept (mergeModules t.items)) fun items => ?_
  exact moves_bind (moves_runIn (Resolving.stepwise_file items) t.name) fun r => moves_pure _

end EbLang
