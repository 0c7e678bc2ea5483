import EbLang.Proofs.Items
import EbLang.Proofs.Lookup
import EbLang.Proofs.Scoping.Resolve

/-!
# Analyses that agree

An analysis knows the files of its program through its loader only.  So it does the same with two
loaders that do the same, as long as a property of the names in view holds that every import keeps
(`Steady`); and the property holds of the names in view when it succeeds.

The rounds in which items are declared change what the file declares, and structs get rows and members
of complete types; the property must allow this.
-/

namespace EbLang

variable {σ α τ : Type}

namespace Resolving

/-- A property that look-ups and declarations keep, and two loaders with which they do the same as
long as it holds. -/
structure Steady (I : Names σ → Prop) (loader loader' : Loader σ) : Prop
    extends Stable I loader loader' where
  decls : ∀ n decls, I n → I { n with decls }
  addRow : ∀ n, I n →
    I { n with shared := { n.shared with structs := n.shared.structs.addRow } }
  setMembers : ∀ n r ms, (∀ m ∈ ms, m.ty.isComplete = true) → I n →
    I { n with shared := { n.shared with structs := n.shared.structs.setMembers r ms } }

namespace Steady

variable {I : Names σ → Prop} {loader loader' : Loader σ}

theorem onModule (h : Steady I loader loader') (scope : ModulePath) (position : Position)
    (f : ModuleMembers → Except Fault ModuleMembers) :
    Keep I (onModule scope position f) (onModule scope position f) := by
  refine agree_read fun n => ?_
  refine agree_bind ((compatible_keep I).located position _) fun decls => ?_
  exact agree_modify fun n hn => h.decls n decls hn

theorem declareMembers (h : Steady I loader loader') (scope : ModulePath) (s : StructItem) :
    Keep I (declareMembers loader scope s) (declareMembers loader' scope s) := by
  simp only [Resolving.declareMembers]
  cases s.ref with
  | none => exact keep_pure _
  | some ref =>
    have keep := h.types.mapM (fun (f : Field) => agree_bind (h.types.typeNamed scope f.ty) fun ty =>
      keep_pure (⟨f.name, ty⟩ : Member)) s.members
    have settled := ensures_mapM_forall (l := s.members) fun f _ =>
      ensures_bind (ensures_typeNamed loader scope f.ty) fun ty complete =>
        ensures_pure (P := fun m : Member => m.ty.isComplete = true) (a := ⟨f.name, ty⟩) complete
    refine agree_bind (keep.ensures settled) fun members => agree_of_and fun settled => ?_
    refine agree_read fun n => ?_
    refine agree_bind (P := fun _ => I) ?_ fun _ => ?_
    · exact agree_modify fun n => h.setMembers n ref members settled.2
    refine agree_bind (h.types.nextOverload scope s.name 0) fun index => ?_
    exact agree_bind (h.types.homeOf scope) fun home => h.onModule scope _ _

theorem declarations (h : Steady I loader loader') :
    RespectsDeclarations (fun _ => Keep I) loader loader' where
  toRespectsTypes := h.types
  enter _ := agree_modify fun n hn => h.decls n _ hn
  addRow := agree_modify h.addRow
  addStruct path position _ := h.onModule path position _
  addFunction path position _ := h.onModule path position _
  addGlobal path position _ := h.onModule path position _
  members := h.declareMembers

/-- All rounds over a file keep the property. -/
theorem file (h : Steady I loader loader') (items : List (Item Atom)) :
    Keep I (file loader items) (file loader' items) :=
  h.bodies.file h.declarations items

end Steady

theorem agree_runIn {I : Names σ → Prop} {Q : α → Names σ → Prop} {J : Shared σ → Prop}
    {x y : Resolving σ α} {name : String} (h : Agree I Q x y)
    (start : ∀ shared, J shared → I { shared, decls := .new name }) :
    Agree J (fun r shared => r.2.shared = shared ∧ Q r.1 r.2) (runIn name x) (runIn name y) := by
  intro shared hs
  obtain ⟨same, leads⟩ := h _ (start shared hs)
  have run (z : Resolving σ α) : (runIn name z).run.run shared =
      ((z.run.run { shared, decls := .new name }).1.map fun a =>
        (a, (z.run.run { shared, decls := .new name }).2),
        (z.run.run { shared, decls := .new name }).2.shared) := rfl
  refine ⟨by rw [run, run, same], ?_⟩
  intro r shared' gives
  rw [Gives, run] at gives
  cases ran : x.run.run { shared, decls := .new name } with
  | mk result names =>
    rw [ran] at gives
    cases result with
    | error e => cases gives
    | ok a =>
      cases gives
      exact ⟨rfl, leads a names ran⟩

end Resolving

/-! ## Whole analyses -/

theorem agree_liftExcept {J : Shared σ → Prop} (x : Except Error α) :
    Agree J (fun a shared => x = .ok a ∧ J shared) (liftM x : Loading σ α) (liftM x) := by
  cases x with
  | ok a => exact agree_pure fun shared hs => ⟨rfl, hs⟩
  | error e => exact agree_throw

/-- Checking loops changes variables only. -/
theorem Module.ensures_checkLoops_eq (m : Module) :
    Ensures m.checkLoops fun m' => m' = { m with scopes := m'.scopes } := by
  intro m' h
  simp only [Module.checkLoops] at h
  cases run : m.tree.checkLoops.run.run m.scopes with
  | mk result scopes =>
    rw [run] at h
    cases result with
    | error e => cases h
    | ok _ =>
      cases h
      rfl

/-- A walk through the functions of a module changes them and variables only. -/
theorem Module.ensures_walk_eq (m : Module) (f : FunctionItem Atom → Walk (FunctionItem Atom)) :
    Ensures (m.walk f) fun m' => m' = { m with tree := m'.tree, scopes := m'.scopes } := by
  intro m' h
  simp only [Module.walk] at h
  cases run : (m.tree.mapFunctionsM f).run.run m.scopes with
  | mk result scopes =>
    rw [run] at h
    cases result with
    | error e => cases h
    | ok tree =>
      cases h
      rfl

/-- The last stages declare and import nothing. -/
theorem Module.keeps_finish (m : Module) (structs : StructTable) :
    Ensures (m.finish structs) fun m' => m'.decls = m.decls ∧ m'.imports = m.imports := by
  refine ensures_bind m.ensures_checkLoops_eq fun m1 same1 => ?_
  refine ensures_bind (m1.ensures_walk_eq _) fun m2 same2 => ?_
  refine ensures_bind (m2.ensures_walk_eq _) fun m3 same3 => ?_
  refine ensures_then fun _ => ensures_pure ?_
  rw [same3, same2, same1]
  exact ⟨rfl, rfl⟩

/-- A file is read, its names are resolved, and its types settled. -/
theorem analyseLexed_eq (loader : Loader σ) (l : Lexed) (name : String) :
    analyseLexed loader l name = (do
      let t ← readTree l name
      let m ← t.resolve loader
      m.finish (← get).structs) := by
  simp only [analyseLexed, readTree, liftM_bind, bind_assoc]

section Analysis

variable {I : Names σ → Prop} {J : Shared σ → Prop} {loader loader' : Loader σ}

/-- The property holds of the names in view at the end, and the module imports what they do. -/
def EndsIn (I : Names σ → Prop) (m : Module) (shared : Shared σ) : Prop :=
  ∃ n, I n ∧ n.shared = shared ∧ m.imports = n.imports

theorem FileTree.agree_resolve (h : Resolving.Steady I loader loader') (t : FileTree Atom)
    (start : ∀ shared, J shared → I { shared, decls := .new t.name }) :
    Agree J (EndsIn I) (t.resolve loader) (t.resolve loader') := by
  refine agree_bind (agree_liftExcept _) fun items => agree_of_and fun _ => ?_
  refine agree_bind (Resolving.agree_runIn (h.file items) start) fun r => ?_
  exact agree_pure fun shared hs => ⟨r.2, hs.2, hs.1, rfl⟩

/-- An analysis does the same with either loader. -/
theorem agree_analyseLexed (h : Resolving.Steady I loader loader') (l : Lexed) (name : String)
    (start : ∀ shared, J shared → I { shared, decls := .new name }) :
    Agree J (EndsIn I) (analyseLexed loader l name) (analyseLexed loader' l name) := by
  simp only [analyseLexed_eq]
  refine agree_bind (agree_liftExcept (readTree l name)) fun t => agree_of_and fun read => ?_
  have named := (ensures_readTree_named l name t read).1
  refine agree_bind (t.agree_resolve h (named ▸ start)) fun m => agree_read fun shared => ?_
  refine (agree_liftExcept (m.finish shared.structs)).imp fun m' shared' finished => ?_
  obtain ⟨finished, n, hn, same, imports⟩ := finished
  exact ⟨n, hn, same, (m.keeps_finish _ m' finished).2.trans imports⟩

end Analysis

end EbLang
