import EbLang.Proofs.Agreement
import EbLang.Proofs.Compatible

/-!
# Looking names up

Looking for modules, types, variables and functions reads the names in view and changes them in two
ways only: it imports files and notes items of other files.  So a property of the names in view that
survives these two survives every look-up (`Lookups`), whichever of two loaders imports the files.  If
it survives changes of the variables too, it survives all that happens in bodies (`Stable`).

There is one place where a failure does not end the look-up: if the first parts of a dotted name stand
for no module, the search for a global ends without one.  Nothing is known of the names in view then,
but a variable that is not found is a failure after all.  So what look-ups have in common (`Searches`)
is told by two relations, one of them of searches that may end without a result.
-/

namespace EbLang.Resolving

variable {σ α β : Type}

/-! ## Globals and functions -/

/-- The global of a module, if there is such a module; or else the search goes on. -/
def globalOf (position : Position) (home : List String) (name : String)
    (rest : List String) (next : Resolving σ (Option Found)) (module? : Option ModuleRef) :
    Resolving σ (Option Found) := do
  match module? with
  | none => return none
  | some m =>
    match (m.members? (← get).decls).bind (·.global? name) with
    | some g =>
      checkVisible g.isPub m.isOutside (joinName (home ++ [name])) position
      if m.isOutside then onExternals (·.addGlobal g)
      return some (g, rest)
    | none => next

/-- Of the overloads found, those in view that know the named arguments. -/
def acceptable (c : Call) (position : Position) (found : List Signature) (isOutside : Bool) :
    Resolving σ (List Signature) := do
  match found.filter fun s => !isOutside || s.isPub with
  | [] => failAt position (.privateAccess c.name)
  | first :: others =>
    let accepting := (first :: others).filter fun s => (s.typesFor? c.named).isSome
    if accepting.isEmpty then
      failAt position (.unknownNamedParameter c.name (unknownArgument c.named first))
    if isOutside then onExternals fun e => accepting.foldl Externals.addFunction e
    return accepting

/-- A relation `R` that holds of looking names up, with a relation `W` of searches. -/
structure Searches (R : (α : Type) → Resolving σ α → Resolving σ α → Prop)
    (W : (α : Type) → Resolving σ (Option α) → Resolving σ (Option α) → Prop)
    (V : Names σ → Names σ → Prop) (loader loader' : Loader σ) : Prop
    extends Looks R V loader loader' where
  note : ∀ f : Externals → Externals, R _ (onExternals f) (onExternals f)
  search : ∀ {α : Type} {x y : Resolving σ (Option α)}, R _ x y → W α x y
  attempt : ∀ {α : Type} {x y : Resolving σ α}, R α x y → W α
    (tryCatch (some <$> x) fun _ => Pure.pure none) (tryCatch (some <$> y) fun _ => Pure.pure none)
  goOn : ∀ {α β : Type} {x y : Resolving σ (Option α)} {f g : Option α → Resolving σ (Option β)},
    W α x y → f none = Pure.pure none → g none = Pure.pure none →
    (∀ a, W β (f (some a)) (g (some a))) → W β (x >>= f) (y >>= g)
  readSome : ∀ {α : Type} {f g : Names σ → Resolving σ (Option α)}, (∀ {n m}, V n m → f m = f n) →
    (∀ n, W α (f n) (g n)) → W α (get >>= f) (get >>= g)

namespace Searches

variable {R : (α : Type) → Resolving σ α → Resolving σ α → Prop}
variable {W : (α : Type) → Resolving σ (Option α) → Resolving σ (Option α) → Prop}
variable {V : Names σ → Names σ → Prop} {loader loader' : Loader σ}
variable (h : Searches R W V loader loader')

include h

/-- Before something else, items of another file may be noted. -/
theorem noting {c : Prop} {_ : Decidable c} {f : Externals → Externals} {x y : Resolving σ α}
    (rest : R α x y) : R α (if c then onExternals f >>= fun _ => x else x)
      (if c then onExternals f >>= fun _ => y else y) := by
  split
  · exact h.bind (h.note f) fun _ => rest
  · exact rest

section Globals

variable (globals : ∀ {n m : Names σ}, V n m → ∀ path name,
  (m.decls.find? path).bind (·.global? name) = (n.decls.find? path).bind (·.global? name))

include globals

theorem qualifiedGlobal (scope : ModulePath) (position : Position) (rest : List String) :
    ∀ home : List String, W _ (qualifiedGlobal loader scope position home rest)
      (qualifiedGlobal loader' scope position home rest) := by
  induction rest with
  | nil => exact fun home => h.search (h.pure none)
  | cons name rest ih =>
    intro home
    have found := h.findModule scope home position
    have goesOn (m : ModuleRef) : W _
        (globalOf position home name rest
          (Resolving.qualifiedGlobal loader scope position (home ++ [name]) rest) (some m))
        (globalOf position home name rest
          (Resolving.qualifiedGlobal loader' scope position (home ++ [name]) rest) (some m)) := by
      refine h.readSome (fun same => ?_) fun n => ?_
      · cases m with
        | inside path => simp only [ModuleRef.members?, globals same]
        | outside decls path => rfl
      · split
        · exact h.search (h.bind (h.checkVisible _ _ _ _) fun _ => h.noting (h.pure _))
        · exact ih (home ++ [name])
    simp only [Resolving.qualifiedGlobal]
    split
    · exact h.goOn (h.search (h.map some found)) rfl rfl goesOn
    · exact h.goOn (h.attempt found) rfl rfl goesOn

theorem findGlobal (scope : ModulePath) (parts : List String) (position : Position) :
    W _ (findGlobal loader scope parts position) (findGlobal loader' scope parts position) := by
  cases parts with
  | nil => exact h.search (h.pure none)
  | cons first rest =>
    refine h.readSome (fun same => by simp only [ownGlobal?, globals same]) fun n => ?_
    split
    · exact h.search (h.pure _)
    · refine h.readSome (fun same => ?_) fun n => ?_
      · simp only [importedGlobal?, (h.sees same).imports]
      · split
        · exact h.search (h.bind (h.note _) fun _ => h.pure _)
        · exact h.qualifiedGlobal globals scope position rest [first]

end Globals

section Functions

variable (overloads : ∀ {n m : Names σ}, V n m → ∀ path name arity,
  m.decls.overloads path name arity = n.decls.overloads path name arity)

include overloads

theorem overloadsNamed (scope : ModulePath) (c : Call) (position : Position) :
    R _ (overloadsNamed loader scope c position) (overloadsNamed loader' scope c position) := by
  have inView : R _ (do return overloadsInView (← get) scope c.name c.arity)
      (do return overloadsInView (← get) scope c.name c.arity) := by
    refine h.read (fun same => ?_) fun n => h.pure _
    simp only [overloadsInView, (h.sees same).imports, overloads same]
  simp only [Resolving.overloadsNamed]
  split
  · exact inView
  · exact inView
  · refine h.bind (h.findModule scope _ position) fun r => h.read (fun same => ?_) fun n => h.pure _
    cases r with
    | outside decls path => rfl
    | inside path =>
      have eq (d : Declarations) (name : String) :
          (((ModuleRef.inside path).members? d).map fun ms => ms.overloads name c.arity).getD [] =
            d.overloads path name c.arity := by
        rw [ModuleRef.members?, Declarations.overloads]
        cases d.find? path <;> rfl
      simp only [eq, overloads same]

omit overloads in
theorem acceptable (c : Call) (position : Position) (found : List Signature) (isOutside : Bool) :
    R _ (acceptable c position found isOutside) (acceptable c position found isOutside) := by
  simp only [Resolving.acceptable]
  split
  · exact h.fail position _
  · split
    · exact h.bind (h.fail position _) fun _ => h.noting (h.pure _)
    · exact h.noting (h.pure _)

theorem candidatesOf (scope : ModulePath) (c : Call) (position : Position) :
    R _ (candidatesOf loader scope c position) (candidatesOf loader' scope c position) := by
  simp only [Resolving.candidatesOf]
  split
  · split
    · exact h.bind (h.fail position _) fun _ => h.pure _
    · exact h.pure _
  · refine h.bind (h.overloadsNamed overloads scope c position) fun r => ?_
    split
    · exact h.bind (h.fail position _) fun _ => h.acceptable c position r.1 r.2
    · exact h.acceptable c position r.1 r.2

end Functions

end Searches

/-! ## Properties that look-ups keep -/

/-- A property that look-ups keep, and two loaders with which they do the same as long as it
holds. -/
structure Lookups (I : Names σ → Prop) (loader loader' : Loader σ) : Prop where
  externals : ∀ n externals, I n → I { n with externals }
  imports : ∀ file path position,
    Keep I (importFile loader file path position) (importFile loader' file path position)

/-- It does not depend on the variables in view. -/
structure Stable (I : Names σ → Prop) (loader loader' : Loader σ) : Prop
    extends Lookups I loader loader' where
  scopes : ∀ n scopes, I n → I { n with scopes }

section Steps

variable {I : Names σ → Prop} {Q : α → Names σ → Prop}

theorem agree_failAt (position : Position) (fault : Fault) :
    Agree I Q (failAt position fault : Resolving σ α) (failAt position fault) :=
  agree_throw

theorem agree_located (position : Position) (x : Except Fault α) :
    Agree I (fun a n => x = .ok a ∧ I n) (located position x : Resolving σ α)
      (located position x) := by
  cases x with
  | ok a => exact agree_pure fun n hn => ⟨rfl, hn⟩
  | error fault => exact agree_failAt position fault

theorem compatible_keep (I : Names σ → Prop) : Compatible fun _ => Keep I where
  pure := keep_pure
  fail := agree_failAt
  get := agree_self fun n hn => by
    rintro _ _ ⟨⟩
    exact hn
  bind := agree_bind

theorem agree_lift {x y : Loading σ α} (h : ∀ n, I n → x.run.run n.shared = y.run.run n.shared ∧
      Leads x n.shared fun a shared => Q a { n with shared }) : Agree I Q (lift x) (lift y) := by
  intro n hn
  obtain ⟨same, leads⟩ := h n hn
  have run (z : Loading σ α) : (lift z).run.run n =
      ((z.run.run n.shared).1, { n with shared := (z.run.run n.shared).2 }) := rfl
  refine ⟨by rw [run, run, same], ?_⟩
  intro a n' gives
  rw [Gives, run] at gives
  cases ran : x.run.run n.shared with
  | mk r shared =>
    rw [ran] at gives
    cases gives
    exact leads a shared ran

/-- A file is loaded when it is first imported; after that it is only listed again. -/
theorem keep_importFile {loader loader' : Loader σ} {file : String} {position : Position}
    (again : ∀ n i, I n → i.file ∈ n.imports.map Import.file →
      I { n with imports := n.imports ++ [i] })
    (load : Agree I (fun decls n => ∀ path, I { n with imports := n.imports ++ [⟨file, path, decls⟩] })
      (lift (loader file position)) (lift (loader' file position))) (path : ModulePath) :
    Keep I (importFile loader file path position) (importFile loader' file path position) := by
  refine agree_get fun n hn => ?_
  cases found : n.imports.find? fun i => i.file == file with
  | none =>
    refine agree_bind (load.of_imp fun n' hn' => hn'.2) fun decls => ?_
    refine agree_bind (P := fun _ => I) ?_ fun _ => keep_pure decls
    exact agree_modify fun n' hn' => hn' path
  | some known =>
    have listed : file ∈ n.imports.map Import.file := by
      have eq := List.find?_some found
      exact List.mem_map.mpr ⟨known, List.mem_of_find?_eq_some found, by simpa using eq⟩
    refine agree_read fun n' => ?_
    split
    · refine agree_bind (P := fun _ => I) ?_ fun _ => keep_pure _
      refine agree_modify fun n' hn' => ?_
      obtain ⟨rfl, hn'⟩ := hn'
      exact again n' _ hn' listed
    · exact agree_pure fun n' hn' => hn'.2

end Steps

/-- What no import changes is kept by look-ups. -/
theorem lookups_of_forall {I : Names σ → Prop} (loader : Loader σ)
    (kept : ∀ n shared imports externals, I n → I { n with shared, imports, externals }) :
    Lookups I loader loader where
  externals n externals := kept n n.shared n.imports externals
  imports file path position := by
    refine keep_importFile (fun n i hn _ => kept n n.shared _ n.externals hn) ?_ path
    exact agree_lift fun n hn => ⟨rfl, fun _ shared _ path => kept n shared _ n.externals hn⟩

namespace Lookups

variable {I : Names σ → Prop} {loader loader' : Loader σ}

theorem types (h : Lookups I loader loader') : RespectsTypes (fun _ => Keep I) loader loader' where
  toCompatible := compatible_keep I
  imports := h.imports
  noteStruct _ := agree_modify fun n hn => h.externals n _ hn

/-- If a search finds something, the property holds still. -/
theorem searches (h : Lookups I loader loader') :
    Searches (fun _ => Keep I) (fun α => Agree I fun (found : Option α) n => ∀ a, found = some a → I n)
      Eq loader loader' where
  toLooks := h.types.looks
  note _ := agree_modify fun n hn => h.externals n _ hn
  search kept := kept.imp fun _ n hn _ _ => hn
  attempt := agree_attempt
  goOn first ends ends' rest := agree_bind first fun found => by
    cases found with
    | none =>
      rw [ends, ends']
      exact agree_pure fun n _ a found => by cases found
    | some a => exact (rest a).of_imp fun n hn => hn a rfl
  readSome _ := agree_read

theorem findVariable (h : Lookups I loader loader') (scope : ModulePath) (name : String)
    (position : Position) :
    Keep I (findVariable loader scope name position) (findVariable loader' scope name position) := by
  refine agree_read fun n => ?_
  cases (splitName name).head?.bind n.scopes.lookup with
  | some id => exact keep_pure _
  | none =>
    have same {n m : Names σ} (eq : n = m) (path : ModulePath) (name : String) :
        (m.decls.find? path).bind (·.global? name) = (n.decls.find? path).bind (·.global? name) := by
      rw [eq]
    refine agree_bind (h.searches.findGlobal same scope _ position) fun found => ?_
    cases found with
    | none => exact agree_failAt position _
    | some g => exact agree_pure fun n hn => hn g rfl

theorem candidatesOf (h : Lookups I loader loader') (scope : ModulePath) (c : Call)
    (position : Position) :
    Keep I (candidatesOf loader scope c position) (candidatesOf loader' scope c position) := by
  refine h.searches.candidatesOf (fun same path name arity => ?_) scope c position
  rw [same]

end Lookups

namespace Stable

variable {I : Names σ → Prop} {loader loader' : Loader σ}

/-! ## Bodies of functions -/

theorem declareVar (h : Stable I loader loader') (v : Variable) :
    Keep I (declareVar v : Resolving σ Nat) (declareVar v) := by
  refine agree_self fun n hn => ?_
  rintro id n' ⟨⟩
  exact h.scopes n _ hn

/-- Entering and leaving a block changes nothing but the variables. -/
theorem within (h : Stable I loader loader') {x y : Resolving σ α} (inner : Keep I x y)
    (block : Nat) (isLoop : Bool) : Keep I (within block isLoop x) (within block isLoop y) := by
  intro n hn
  obtain ⟨same, leads⟩ := inner _ (h.scopes n (n.scopes.enter block isLoop) hn)
  have run (z : Resolving σ α) : (Resolving.within block isLoop z).run.run n =
      ((z.run.run { n with scopes := n.scopes.enter block isLoop }).1,
        { (z.run.run { n with scopes := n.scopes.enter block isLoop }).2 with
          scopes := (z.run.run { n with scopes := n.scopes.enter block isLoop }).2.scopes.leave }) :=
    rfl
  refine ⟨by rw [run, run, same], ?_⟩
  intro a n' gives
  rw [Gives, run] at gives
  cases ran : x.run.run { n with scopes := n.scopes.enter block isLoop } with
  | mk r n1 =>
    rw [ran] at gives
    cases gives
    exact h.scopes n1 _ (leads a n1 ran)

theorem bodies (h : Stable I loader loader') :
    RespectsBodies (fun x y _ => Keep I x y) loader loader' {} where
  toRespectsTypes := h.types
  give _ := keep_pure _
  chain := agree_bind
  step := h.types.resolveAtom h.findVariable h.candidatesOf
  target := h.findVariable
  declareVar := h.declareVar
  within block isLoop inner := h.within inner block isLoop
  carries _ _ := trivial

end Stable

/-! ## Variables in view -/

variable (s : Scopes) (loader : Loader σ)

theorem lookups_scopes : Lookups (fun n => n.scopes = s) loader loader :=
  lookups_of_forall loader fun _ _ _ _ same => same

theorem keep_onModule (path : ModulePath) (position : Position)
    (f : ModuleMembers → Except Fault ModuleMembers) :
    Keep (fun n : Names σ => n.scopes = s) (onModule path position f) (onModule path position f) := by
  refine agree_read fun n => agree_bind ((compatible_keep _).located position _) fun decls => ?_
  exact agree_modify fun _ same => same

/-- Declaring items enters no block and declares no variable. -/
theorem declarations_scopes :
    RespectsDeclarations (fun _ => Keep fun n => n.scopes = s) loader loader where
  toRespectsTypes := (lookups_scopes s loader).types
  enter _ := agree_modify fun _ same => same
  addRow := agree_modify fun _ same => same
  addStruct path position _ := keep_onModule s path position _
  addFunction path position _ := keep_onModule s path position _
  addGlobal path position _ := keep_onModule s path position _
  members := (lookups_scopes s loader).types.declareMembers
    (fun path position _ => keep_onModule s path position _) fun _ _ => agree_modify fun _ same => same

end EbLang.Resolving
