import EbLang.Proofs.Sidecar.Rebuilt
import EbLang.Proofs.Steps

/-!
# Files that look alike

Declaring a function adds to the functions of one name in one module, and declaring a global adds to
the globals.  Two states that differ in other functions and globals only are alike, and a look-up that
does not depend on what differs finds the same in both (`Finds`), as long as it imports no file.

A file that is imported on the way is seen by all look-ups after it, so nothing is said of a look-up
that imports one.
-/

namespace EbLang

variable {σ α β τ : Type}

/-! ## Modules and declarations -/

/-- Two modules have the same structs, the same globals if `K` holds of no name, and the same
functions of the names of which `K` holds. -/
structure ModuleMembers.Alike (K : Option String → Prop) (m m' : ModuleMembers) : Prop where
  structs : m'.structs = m.structs
  globals : K none → m'.globals = m.globals
  overloads : ∀ name, K (some name) → ∀ arity, m'.overloads name arity = m.overloads name arity

namespace Reference

/-- The name of a function; globals have none to be told apart by. -/
def family : Reference → Option String
  | function s => some s.name
  | global _ => none

/-- Adds an item to a module. -/
def add : Reference → ModuleMembers → Except Fault ModuleMembers
  | function s, m => m.addFunction s
  | global g, m => m.addGlobal g

variable {K : Option String → Prop} {r : Reference} {m m' n : ModuleMembers}

/-- Adding an item changes only what has its name. -/
theorem alike_add (added : r.add m = .ok m') : m.Alike (· ≠ r.family) m' := by
  cases r with
  | function s =>
    simp only [add, ModuleMembers.addFunction] at added
    split at added <;> cases added
    refine ⟨rfl, fun _ => rfl, fun name other arity => ?_⟩
    have ne : s.name ≠ name := fun same => other (congrArg some same.symm)
    simp [ModuleMembers.overloads, List.filter_append, beq_false_of_ne ne]
  | global g =>
    simp only [add, ModuleMembers.addGlobal] at added
    split at added <;> cases added
    exact ⟨rfl, fun other => absurd rfl other, fun _ _ _ => rfl⟩

/-- An item can be added to a module that has the same items of its name. -/
theorem exists_add (alike : m.Alike K n) (own : K r.family) (added : r.add m = .ok m') :
    ∃ n', r.add n = .ok n' ∧ m'.Alike K n' := by
  cases r with
  | function s =>
    simp only [add, ModuleMembers.addFunction] at added ⊢
    rw [alike.overloads s.name own]
    split at added <;> cases added
    next free =>
      rw [if_neg free]
      refine ⟨_, rfl, alike.structs, alike.globals, fun name known arity => ?_⟩
      have before := alike.overloads name known arity
      simp only [ModuleMembers.overloads] at before
      simp only [ModuleMembers.overloads, List.filter_append, before]
  | global g =>
    have same : n.global? g.name = m.global? g.name := by
      rw [ModuleMembers.global?, ModuleMembers.global?, alike.globals own]
    simp only [add, ModuleMembers.addGlobal] at added ⊢
    rw [same]
    split at added <;> cases added
    next free =>
      rw [if_neg free]
      exact ⟨_, rfl, alike.structs, fun known => by rw [alike.globals known], alike.overloads⟩

end Reference

/-- The place of what is declared: the functions of a name in a module, or the globals. -/
abbrev ItemPlace := Option (ModulePath × String)

def Reference.place (path : ModulePath) (r : Reference) : ItemPlace := r.family.map (path, ·)

namespace Declarations

variable {K L : ItemPlace → Prop} {d d' e : Declarations} {path : ModulePath}

/-- Two files have the same modules, and what these declare is the same at the places of which `K`
holds. -/
structure Alike (K : ItemPlace → Prop) (d d' : Declarations) : Prop where
  root : d'.root = d.root
  has : d'.has = d.has
  members : ∀ path, (d.membersAt path).Alike (fun name => K (name.map (path, ·))) (d'.membersAt path)

theorem Alike.refl (d : Declarations) : d.Alike K d :=
  ⟨rfl, rfl, fun _ => ⟨rfl, fun _ => rfl, fun _ _ _ => rfl⟩⟩

theorem Alike.symm (h : d.Alike K e) : e.Alike K d := by
  refine ⟨h.root.symm, h.has.symm, fun path => ?_⟩
  have members := h.members path
  exact ⟨members.structs.symm, fun known => (members.globals known).symm,
    fun name known arity => (members.overloads name known arity).symm⟩

theorem Alike.trans (h : d.Alike K d') (h' : d'.Alike K e) : d.Alike K e := by
  refine ⟨h'.root.trans h.root, h'.has.trans h.has, fun path => ?_⟩
  have members := h.members path
  have members' := h'.members path
  exact ⟨members'.structs.trans members.structs,
    fun known => (members'.globals known).trans (members.globals known),
    fun name known arity => (members'.overloads name known arity).trans
      (members.overloads name known arity)⟩

theorem Alike.mono (h : d.Alike K e) (imp : ∀ place, L place → K place) : d.Alike L e := by
  refine ⟨h.root, h.has, fun path => ?_⟩
  have members := h.members path
  exact ⟨members.structs, fun known => members.globals (imp _ known),
    fun name known => members.overloads name (imp _ known)⟩

/-- What is alike at some places and at others is alike at all of them. -/
theorem Alike.or (h : d.Alike K e) (h' : d.Alike L e) : d.Alike (fun p => K p ∨ L p) e := by
  refine ⟨h.root, h.has, fun path => ?_⟩
  have members := h.members path
  have members' := h'.members path
  exact ⟨members.structs, fun known => known.elim members.globals members'.globals,
    fun name known => known.elim (members.overloads name) (members'.overloads name)⟩

/-- A module and all modules around it are there. -/
def Entered (d : Declarations) (path : ModulePath) : Prop := ∀ k, d.has (path.take k) = true

theorem Entered.enter_eq (entered : d.Entered path) : d.enter path = d :=
  enter_induction (P := fun d' => d' = d) path
    (fun d' k same => by rw [same, addModule, if_pos (entered k)]) rfl

/-- What changing a module comes to. -/
theorem change_eq_ok {f : ModuleMembers → Except Fault ModuleMembers}
    (changed : d.change path f = .ok d') :
    ∃ m, f (d.membersAt path) = .ok m ∧ d'.root = d.root ∧ d'.has = (d.enter path).has ∧
      d'.membersAt = Function.update d.membersAt path m := by
  cases result : f (d.membersAt path) with
  | error fault =>
    rw [membersAt, ← d.find?_enter path path] at result
    simp only [change, result] at changed
    cases changed
  | ok m =>
    obtain ⟨d1, changed1, root, members⟩ := exists_change result
    cases changed1.symm.trans changed
    exact ⟨m, rfl, root, has_change changed, members⟩

variable {r : Reference}

/-- Declaring an item changes one place. -/
theorem alike_change (entered : d.Entered path)
    (changed : d.change path r.add = .ok d') : d.Alike (· ≠ r.place path) d' := by
  obtain ⟨m, added, root, has, members⟩ := change_eq_ok changed
  refine ⟨root, has.trans (by rw [entered.enter_eq]), fun q => ?_⟩
  rw [members]
  by_cases here : q = path
  · subst here
    rw [Function.update_self]
    have alike := Reference.alike_add added
    refine ⟨alike.structs, fun other => alike.globals fun same => other ?_,
      fun name other => alike.overloads name fun same => other ?_⟩
    all_goals rw [Reference.place, ← same]
  · rw [Function.update_of_ne here]
    exact ⟨rfl, fun _ => rfl, fun _ _ _ => rfl⟩

/-- An item can be declared in a file that is alike at its place. -/
theorem Alike.change (alike : d.Alike K e) (own : K (r.place path))
    (entered : d.Entered path) (changed : d.change path r.add = .ok d') :
    ∃ e', e.change path r.add = .ok e' ∧ d'.Alike K e' := by
  obtain ⟨m, added, root, has, members⟩ := change_eq_ok changed
  obtain ⟨m', added', alike'⟩ := Reference.exists_add (alike.members path) own added
  obtain ⟨e', changed', -, -⟩ := exists_change added'
  have entered' : e.Entered path := fun k => by rw [alike.has]; exact entered k
  obtain ⟨m1, added1, root', has', members'⟩ := change_eq_ok changed'
  cases added'.symm.trans added1
  refine ⟨e', changed', ?_, ?_, fun q => ?_⟩
  · rw [root', root, alike.root]
  · rw [has', has, entered.enter_eq, entered'.enter_eq, alike.has]
  · rw [members, members']
    by_cases here : q = path
    · subst here
      rw [Function.update_self, Function.update_self]
      exact alike'
    · rw [Function.update_of_ne here, Function.update_of_ne here]
      exact alike.members q

theorem Alike.struct? (h : d.Alike K e) (path : ModulePath) (name : String) :
    (e.find? path).bind (·.struct? name) = (d.find? path).bind (·.struct? name) := by
  have eq (d : Declarations) :
      (d.find? path).bind (·.struct? name) = (d.membersAt path).struct? name := by
    rw [membersAt]
    cases d.find? path <;> rfl
  rw [eq, eq, ModuleMembers.struct?, ModuleMembers.struct?, (h.members path).structs]

theorem Alike.global? (h : d.Alike K e) (known : K none) (path : ModulePath) (name : String) :
    (e.find? path).bind (·.global? name) = (d.find? path).bind (·.global? name) := by
  have eq (d : Declarations) :
      (d.find? path).bind (·.global? name) = (d.membersAt path).global? name := by
    rw [membersAt]
    cases d.find? path <;> rfl
  rw [eq, eq, ModuleMembers.global?, ModuleMembers.global?, (h.members path).globals known]

theorem Alike.overloads (h : d.Alike K e) {name : String}
    (known : K (some (path, name))) (arity : Nat) :
    e.overloads path name arity = d.overloads path name arity := by
  rw [overloads_eq, overloads_eq]
  exact (h.members path).overloads name known arity

end Declarations

/-! ## Names in view -/

/-- The names in view in two files that share, import and declare the same, at the places of which `K`
holds. -/
structure Names.Alike (K : ItemPlace → Prop) (n n' : Names σ) : Prop where
  shared : n'.shared = n.shared
  imports : n'.imports = n.imports
  decls : n.decls.Alike K n'.decls

namespace Names.Alike

variable {K L : ItemPlace → Prop} {n n' m : Names σ}

theorem refl (n : Names σ) : n.Alike K n := ⟨rfl, rfl, .refl _⟩

theorem symm (h : n.Alike K m) : m.Alike K n := ⟨h.shared.symm, h.imports.symm, h.decls.symm⟩

theorem trans (h : n.Alike K n') (h' : n'.Alike K m) : n.Alike K m :=
  ⟨h'.shared.trans h.shared, h'.imports.trans h.imports, h.decls.trans h'.decls⟩

theorem mono (h : n.Alike K m) (imp : ∀ place, L place → K place) : n.Alike L m :=
  ⟨h.shared, h.imports, h.decls.mono imp⟩

end Names.Alike

namespace Resolving

/-! ## Look-ups that find the same -/

variable {loader : Loader σ} {K : ItemPlace → Prop}
variable {n n' : Names σ} {x : Resolving σ α} {f : α → Resolving σ β}

def Adds (n n' : Names σ) : Prop := n.imports <+: n'.imports

theorem adds_of_imports_eq (same : n'.imports = n.imports) : Adds n n' := by
  unfold Adds
  exact same ▸ List.prefix_rfl

theorem moves_adds (h : Stepwise loader x) : Moves Adds x := by
  intro n
  refine (h n).lift id fun m m' step => ?_
  cases step with
  | imports i => exact List.prefix_append _ _
  | scopes | decls | structs | load | noteStruct | note => exact List.prefix_rfl

variable {a : α} {m : Names σ} (position : Position) (fault : Fault)

theorem imports_prefix (h : Moves Adds x) (gives : Gives x n a n') : n.imports <+: n'.imports := by
  have kept : n.imports <+: (x.run.run n).2.imports := by
    refine h.keeps (P := fun m => n.imports <+: m.imports) ?_ List.prefix_rfl
    intro m m' adds before
    exact List.IsPrefix.trans before adds
  rwa [gives] at kept

/-- If a sequence ends with the imports it began with, neither half imports anything. -/
theorem imports_between {y : Resolving σ β} (hx : Moves Adds x)
    (hy : Moves Adds y) {n1 : Names σ} {b : β} (first : Gives x n a n1)
    (second : Gives y n1 b n') (quiet : n'.imports = n.imports) :
    n1.imports = n.imports ∧ n'.imports = n1.imports := by
  have before := imports_prefix hx first
  have after := imports_prefix hy second
  rw [quiet] at after
  have same := before.eq_of_length_le after.length_le
  exact ⟨same.symm, quiet.trans same⟩

/-- A look-up that, unless it imports a file, changes nothing but the list of items of other files,
and finds the same in all states that are alike. -/
structure Finds (K : ItemPlace → Prop) (x : Resolving σ α) : Prop where
  adds : Moves Adds x
  follows : ∀ {n n' m : Names σ} {a : α}, n.Alike K m → Gives x n a n' → n'.imports = n.imports →
    (∃ externals, n' = { n with externals }) ∧ ∃ externals, Gives x m a { m with externals }

theorem Finds.pure (a : α) : Finds K (pure a : Resolving σ α) := by
  refine ⟨moves_pure a, ?_⟩
  rintro n n' m b - gives -
  obtain ⟨rfl, rfl⟩ := Gives.pure_iff.mp gives
  exact ⟨⟨_, rfl⟩, _, rfl⟩

theorem Finds.failAt : Finds K (failAt position fault : Resolving σ α) := by
  refine ⟨moves_throw _, ?_⟩
  rintro n n' m a - gives -
  cases gives

theorem Finds.bind (hx : Finds K x) (hf : ∀ a, Finds K (f a)) : Finds K (x >>= f) := by
  refine ⟨moves_bind hx.adds fun a => (hf a).adds, ?_⟩
  intro n n' m b alike gives quiet
  obtain ⟨a, n1, first, second⟩ := gives.of_bind
  obtain ⟨quiet1, quiet2⟩ := imports_between hx.adds (hf a).adds first second quiet
  obtain ⟨⟨e, rfl⟩, e', first'⟩ := hx.follows alike first quiet1
  have alike1 : Names.Alike K { n with externals := e } { m with externals := e' } :=
    ⟨alike.shared, alike.imports, alike.decls⟩
  obtain ⟨⟨e1, rfl⟩, e1', second'⟩ := (hf a).follows alike1 second quiet2
  exact ⟨⟨e1, rfl⟩, e1', (first'.run_bind).trans second'⟩

/-- What is read must not depend on what may differ. -/
theorem Finds.read {k : Names σ → Resolving σ β} (same : ∀ {n m}, n.Alike K m → k m = k n)
    (hk : ∀ n, Finds K (k n)) : Finds K (get >>= k) := by
  refine ⟨moves_bind moves_get fun n => (hk n).adds, ?_⟩
  intro n n' m b alike gives quiet
  obtain ⟨others, e, gives'⟩ := (hk n).follows alike gives quiet
  refine ⟨others, e, ?_⟩
  change Gives (k m) m b _
  rw [same alike]
  exact gives'

theorem Finds.onExternals (f : Externals → Externals) :
    Finds K (onExternals f : Resolving σ Unit) := by
  refine ⟨moves_modify fun n => adds_of_imports_eq rfl, ?_⟩
  rintro n n' m a - gives -
  cases gives
  exact ⟨⟨_, rfl⟩, _, rfl⟩

theorem building_finds : Building fun _ (x _ : Resolving σ _) => Finds K x := ⟨.pure, .failAt, .bind⟩

theorem Finds.mapM (hf : ∀ a, Finds K (f a)) (l : List α) : Finds K (l.mapM f) :=
  building_finds.mapM (g := f) hf l

theorem Finds.optionMapM (hf : ∀ a, Finds K (f a)) (o : Option α) : Finds K (o.mapM f) :=
  building_finds.optionMapM (g := f) hf o

/-- Nothing is said of what imports a file. -/
theorem Finds.of_grows (adds : Moves Adds x)
    (grows : ∀ n, Leads x n fun _ n' => n.imports.length < n'.imports.length) : Finds K x := by
  refine ⟨adds, ?_⟩
  intro n n' m a _ gives quiet
  have longer : n.imports.length < n'.imports.length := grows n a n' gives
  rw [quiet] at longer
  exact absurd longer (Nat.lt_irrefl _)

theorem Finds.importFile (file : String) (path : ModulePath) (position : Position) :
    Finds K (importFile loader file path position) := by
  have adds (decls : Declarations) : Moves Adds (do
      modify fun n => { n with imports := n.imports ++ [⟨file, path, decls⟩] }
      return decls : Resolving σ Declarations) :=
    moves_bind (moves_modify fun _ => List.prefix_append _ _) fun _ => moves_pure _
  have grows (decls : Declarations) (n : Names σ) : Leads (do
      modify fun n => { n with imports := n.imports ++ [⟨file, path, decls⟩] }
      return decls : Resolving σ Declarations) n fun _ n' =>
        n.imports.length < n'.imports.length :=
    leads_modify (leads_pure (by simp))
  refine .read (fun alike => by rw [alike.imports]) fun n => ?_
  split
  · refine .read (fun alike => by rw [alike.imports]) fun n => ?_
    split
    · exact .of_grows (adds _) (grows _)
    · exact .pure _
  · have loads : Moves Adds (lift (loader file position)) :=
      fun n => .single (adds_of_imports_eq rfl)
    refine .of_grows (moves_bind loads adds) fun n => ?_
    refine leads_bind (P := fun _ n1 => n1.imports = n.imports) ?_ fun decls n1 same => ?_
    · intro decls n1 gives
      exact congrArg (fun r => r.2.imports) gives.symm
    · rw [← same]
      exact grows decls n1

/-! ## Searches -/

/-- A search that finds the same in all states that are alike if it finds something.  If it does not
there is a failure, and nothing is said of that. -/
def FindsSome (K : ItemPlace → Prop) (x : Resolving σ (Option α)) : Prop :=
  ∀ (β : Type) (k : Option α → Resolving σ β) (e : Error), k none = throw e →
    (∀ a, Finds K (k (some a))) → Finds K (x >>= k)

theorem Finds.findsSome {x : Resolving σ (Option α)} (hx : Finds K x) : FindsSome K x := by
  intro β k e failed hk
  refine hx.bind fun found => ?_
  cases found with
  | none =>
    rw [failed]
    exact .failAt e.position e.fault
  | some a => exact hk a

theorem FindsSome.bind {x : Resolving σ (Option α)} {f : Option α → Resolving σ (Option β)}
    (hx : FindsSome K x) (ends : f none = Pure.pure none) (hf : ∀ a, FindsSome K (f (some a))) :
    FindsSome K (x >>= f) := by
  intro γ k e failed hk
  rw [bind_assoc]
  refine hx γ _ e ?_ fun a => hf a γ k e failed hk
  rw [ends, pure_bind, failed]

theorem FindsSome.read {k : Names σ → Resolving σ (Option β)}
    (same : ∀ {n m}, n.Alike K m → k m = k n) (hk : ∀ n, FindsSome K (k n)) :
    FindsSome K (get >>= k) := by
  intro γ f e failed hf
  exact .read (fun alike => by rw [same alike]) fun n => hk n γ f e failed hf

theorem Finds.attempt (hx : Finds K x) :
    FindsSome K (tryCatch (some <$> x) fun _ => Pure.pure none) := by
  intro β k e failed hk
  have rest (found : Option α) : Moves Adds (k found) := by
    cases found with
    | none =>
      rw [failed]
      exact moves_throw e
    | some a => exact (hk a).adds
  have tried : Moves Adds (tryCatch (some <$> x) fun _ => Pure.pure none : Resolving σ (Option α)) :=
    moves_tryCatch (moves_map hx.adds) fun _ => moves_pure _
  refine ⟨moves_bind tried rest, ?_⟩
  intro n n' m b alike gives quiet
  obtain ⟨found, n1, first, second⟩ := gives.of_bind
  rcases gives_or_fails x n with ⟨a, n2, ran⟩ | ⟨e', n2, ran⟩
  · -- what is found is found by `x` itself, and then both go on as if nothing were caught
    cases (run_attempt ran).symm.trans first
    have direct : Gives (x >>= fun a => k (some a)) n b n' := ran.run_bind.trans second
    obtain ⟨others, e', direct'⟩ := (hx.bind hk).follows alike direct quiet
    obtain ⟨a', m1, ran', rest'⟩ := direct'.of_bind
    have caught : Gives (tryCatch (some <$> x) fun _ => Pure.pure none) m (some a') m1 :=
      run_attempt ran'
    exact ⟨others, e', caught.run_bind.trans rest'⟩
  · cases (run_attempt ran).symm.trans first
    change Gives (k none) _ _ _ at second
    rw [failed] at second
    cases second

theorem searches_finds (loader : Loader σ) (K : ItemPlace → Prop) :
    Searches (fun _ x _ => Finds K x) (fun _ x _ => FindsSome K x) (Names.Alike K) loader loader where
  toBuilding := building_finds
  sees alike := ⟨alike.shared, alike.imports, alike.decls.has, alike.decls.struct?⟩
  read := .read
  imports := .importFile
  noteStruct _ := .onExternals _
  note := .onExternals
  search := Finds.findsSome
  attempt := Finds.attempt
  goOn first ends _ rest := first.bind ends rest
  readSome := .read

/-! ## Before functions and globals are declared -/

/-- What is done with a file before its functions and globals are declared. -/
def opening (loader : Loader σ) (items : List (Item Atom)) : Resolving σ (List (Item Atom)) := do
  let items ← declareStructs [] items
  declareImports loader items
  declareAllMembers loader [] items
  return items

theorem file_eq (items : List (Item Atom)) :
    file loader items = (do
      let items ← opening loader items
      let items ← declareValues loader [] items
      resolveItems loader [] items) := by
  simp only [file, opening, bind_assoc, pure_bind]

theorem entered_enter (d : Declarations) (path : ModulePath) : (d.enter path).Entered path := by
  intro k
  have kept (ks : List Nat) (q : ModulePath) : ∀ d : Declarations, d.has q = true →
      (ks.foldl (fun d k => d.addModule (path.take k)) d).has q = true := by
    induction ks with
    | nil => exact fun d there => there
    | cons k ks ih =>
      exact fun d there => ih _ (by rw [Declarations.has_addModule, there, Bool.true_or])
  have reached (ks : List Nat) (k : Nat) (among : k ∈ ks) : ∀ d : Declarations,
      (ks.foldl (fun d k => d.addModule (path.take k)) d).has (path.take k) = true := by
    induction among with
    | head ks =>
      exact fun d => kept ks _ _ (by rw [Declarations.has_addModule, beq_self_eq_true, Bool.or_true])
    | tail j _ ih => exact fun d => ih _
  have short : path.take k = path.take (min k path.length) := by
    rw [List.take_eq_take_iff]
    omega
  rw [short]
  exact reached _ _ (List.mem_range.mpr (by omega)) d

theorem has_of_stepwise (h : Stepwise loader x)
    (gives : Gives x n a n') {path : ModulePath} (there : n.decls.has path = true) :
    n'.decls.has path = true := by
  have kept := h.keeps (P := fun n => n.decls.has path = true) (fun m m' step there => by
    cases step with
    | decls d kept => exact kept path there
    | scopes | structs | imports | load | noteStruct | note => exact there) there
  rwa [gives] at kept

end Resolving

theorem Resolving.gives_runIn {file : String} {x : Resolving σ α} {shared shared' : Shared σ}
    {r : α × Names σ} : Gives (x.runIn file) shared r shared' ↔
      Gives x { shared, decls := .new file } r.1 r.2 ∧ shared' = r.2.shared := by
  have run : (x.runIn file).run.run shared =
      ((x.run.run { shared, decls := .new file }).1.map
          fun a => (a, (x.run.run { shared, decls := .new file }).2),
        (x.run.run { shared, decls := .new file }).2.shared) := rfl
  rw [Gives, run, Gives]
  cases x.run.run { shared, decls := .new file } with
  | mk result n =>
    cases result with
    | error e =>
      constructor
      · intro h
        cases h
      · rintro ⟨h, -⟩
        cases h
    | ok a =>
      constructor
      · intro h
        cases h
        exact ⟨rfl, rfl⟩
      · rintro ⟨h, rfl⟩
        cases h
        rfl

theorem FileTree.gives_resolve {loader : Loader σ} {t : FileTree Atom} {m : Module}
    {shared shared' : Shared σ} :
    Gives (t.resolve loader) shared m shared' ↔
    ∃ items items' n, mergeModules t.items = .ok items ∧
      Gives (Resolving.file loader items) { shared, decls := .new t.name } items' n ∧
      m = ⟨{ t with items := items' }, n.decls, n.imports, n.externals, n.scopes⟩ ∧
      shared' = n.shared := by
  rw [FileTree.resolve]
  constructor
  · intro gives
    obtain ⟨items, s1, merged, gives⟩ := gives.of_bind
    obtain ⟨r, s2, ran, last⟩ := gives.of_bind
    obtain ⟨rfl, rfl⟩ := Gives.pure_iff.mp last
    cases merge : mergeModules t.items with
    | error e =>
      rw [merge] at merged
      cases merged
    | ok items1 =>
      rw [merge] at merged
      cases merged
      obtain ⟨file, rfl⟩ := Resolving.gives_runIn.mp ran
      exact ⟨items, r.1, r.2, rfl, file, rfl, rfl⟩
  · rintro ⟨items, items', n, merge, file, rfl, rfl⟩
    rw [merge]
    exact (Resolving.gives_runIn.mpr ⟨file, rfl⟩ : Gives _ shared (items', n) n.shared).run_bind

end EbLang
