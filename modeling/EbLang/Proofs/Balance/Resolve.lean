import EbLang.Proofs.Compatible
import EbLang.Proofs.Joins

/-!
# Balance of resolved files

Binding a name adds the members of a dotted name, each of which takes one value and gives one.
Merging modules moves items and declaring them leaves their bodies alone.
-/

namespace EbLang

variable {σ τ α : Type}

/-! ## Expressions -/

namespace Resolving

variable {x : Resolving σ α} {P : α → Prop} (loader : Loader σ) (scope : ModulePath)

theorem ensures_within {block : Nat} {isLoop : Bool}
    (h : Ensures x P) : Ensures (within block isLoop x) P :=
  fun n => h { n with scopes := n.scopes.enter block isLoop }

theorem ensures_resolveAtom (a : Atom) :
    Ensures (resolveAtom loader scope a) fun as => Extends as a := by
  unfold resolveAtom
  split
  next kind =>
    refine ensures_then fun ⟨binding, members⟩ => ensures_pure ⟨_, _, rfl, ?_, ?_⟩
    · simp only [Atom.takes, kind]
    · simp [Atom.takes, Atom.member]
  next kind =>
    refine ensures_then fun candidates => ensures_pure ⟨_, _, rfl, ?_, List.forall_mem_nil _⟩
    simp only [Atom.takes, kind, Call.argCount]
  next => exact ensures_pure ⟨a, [], rfl, rfl, List.forall_mem_nil _⟩
  next => exact ensures_pure ⟨a, [], rfl, rfl, List.forall_mem_nil _⟩

/-- Expressions stay balanced. -/
def balance : Knowledge σ where
  step a as _ := Extends as a
  before := Stmt.IsBalanced
  after s _ := s.IsBalanced

theorem balance_carries {n : Names σ} {s s' : Stmt Atom} (h : s.IsBalanced)
    (parts : balance.Stmt n s s') : s'.IsBalanced := by
  refine ⟨forall_of_forall₂ (forall₂_imp_of_mem parts.exprs ?_), parts.hasArm h.hasArm⟩
  rintro e there e' ⟨ass, steps, terms⟩
  rw [terms]
  exact (height?_flatten steps 0).trans (h.exprs e there)

theorem bodies_balance :
    RespectsBodies (fun x _ Q => Ensures x fun a => ∀ n, Q a n) loader loader balance := by
  have anything {α : Type} {x : Resolving σ α} : Ensures x fun a => ∀ n : Names σ, Anything a n :=
    ensures_of_forall fun _ _ => trivial
  exact
    { pure := fun _ => anything
      fail := fun _ _ => anything
      get := anything
      bind := fun _ _ => anything
      imports := fun _ _ _ => anything
      noteStruct := fun _ => anything
      give := fun known => ensures_pure known
      chain := fun first rest => ensures_bind first fun a known =>
        ensures_imp (rest a) fun _ h n => h n (known n)
      step := fun scope a => ensures_imp (ensures_resolveAtom loader scope a) fun _ h _ => h
      target := fun _ _ _ => anything
      declareVar := fun _ => anything
      within := fun _ _ inner => ensures_within inner
      carries := balance_carries }

/-! ## Items -/

theorem ensures_resolveItems {is : List (Item Atom)} (wf : ItemsWellFormed Block.IsBalanced is) :
    Ensures (resolveItems loader scope is) (ItemsWellFormed Block.IsBalanced) := by
  intro n is' given
  have same := (bodies_balance loader).resolveItems scope is n is' given n
  refine same.wellFormed (fun f f' known => ⟨fun before => ?_, by rw [known.rest]⟩) ?_ wf
  · cases signature : f.signature with
    | none =>
      rw [known.undeclared signature]
      exact before
    | some s => exact known.body (by rw [signature]; rfl) before
  · rintro g _ rfl
    rfl

mutual

theorem ensures_declareStructs : ∀ (scope : ModulePath) (is : List (Item τ)),
    Ensures (declareStructs (σ := σ) scope is) (Corresponds Eq Eq (fun _ _ => True) is)
  | _, [] => by
    exact ensures_pure .nil
  | scope, i :: is => by
    refine ensures_bind (ensures_declareStructsOf scope i) fun i' first => ?_
    exact ensures_bind (ensures_declareStructs scope is) fun is' others =>
      ensures_pure (first.cons others)

theorem ensures_declareStructsOf : ∀ (scope : ModulePath) (i : Item τ),
    Ensures (declareStructsOf (σ := σ) scope i) fun i' =>
      Corresponds Eq Eq (fun _ _ => True) [i] [i']
  | _, .struct s => by
    exact ensures_then fun s' => ensures_pure (.struct trivial .nil)
  | _, .submodule name items isPub isExtend span => by
    refine ensures_then fun _ => ?_
    exact ensures_bind (ensures_declareStructs _ items) fun is inside =>
      ensures_pure (.submodule inside .nil)
  | _, .function f => by
    exact ensures_pure (.function rfl .nil)
  | _, .imports i => by
    exact ensures_pure (.imports .nil)
  | _, .global g => by
    exact ensures_pure (.global rfl .nil)

end

theorem ensures_declareFunction (f : FunctionItem τ) :
    Ensures (declareFunction loader scope f) fun f' => f'.body = f.body ∧ f'.named = f.named := by
  iterate 6 refine ensures_then fun _ => ?_
  exact ensures_pure ⟨rfl, rfl⟩

section Values

variable (loader : Loader σ) {F : FunctionItem τ → FunctionItem τ → Prop}

mutual

/-- What declaring makes of functions it makes of the functions of a file. -/
theorem ensures_declareValues
    (function : ∀ scope f, Ensures (declareFunction loader scope f) (F f)) : ∀ (scope : ModulePath) (is : List (Item τ)),
    Ensures (declareValues loader scope is) (Corresponds F (fun g g' => g'.init = g.init) Eq is)
  | _, [] => by
    exact ensures_pure .nil
  | scope, i :: is => by
    refine ensures_bind (ensures_declareValuesOf function scope i) fun i' first => ?_
    exact ensures_bind (ensures_declareValues function scope is) fun is' others =>
      ensures_pure (first.cons others)

theorem ensures_declareValuesOf
    (function : ∀ scope f, Ensures (declareFunction loader scope f) (F f)) : ∀ (scope : ModulePath) (i : Item τ),
    Ensures (declareValuesOf loader scope i) fun i' =>
      Corresponds F (fun g g' => g'.init = g.init) Eq [i] [i']
  | scope, .function f => by
    exact ensures_bind (function scope f) fun f' declared => ensures_pure (.function declared .nil)
  | scope, .global g => by
    refine ensures_bind (P := fun g' => g'.init = g.init) ?_ fun g' init =>
      ensures_pure (.global init .nil)
    iterate 4 refine ensures_then fun _ => ?_
    exact ensures_pure rfl
  | _, .submodule name items isPub isExtend span => by
    exact ensures_bind (ensures_declareValues function _ items) fun is inside =>
      ensures_pure (.submodule inside .nil)
  | _, .imports i => by
    exact ensures_pure (.imports .nil)
  | _, .struct s => by
    exact ensures_pure (.struct rfl .nil)

end

end Values

theorem ensures_file (loader : Loader σ) {items : List (Item Atom)}
    (h : ItemsWellFormed Block.IsBalanced items) :
    Ensures (file loader items) (ItemsWellFormed Block.IsBalanced) := by
  refine ensures_bind (ensures_declareStructs [] items) fun items1 structs => ?_
  refine ensures_then fun _ => ensures_then fun _ => ?_
  refine ensures_bind (ensures_declareValues loader (ensures_declareFunction loader) [] items1)
    fun items2 values => ensures_resolveItems loader [] ?_
  refine values.wellFormed (fun f f' same => ⟨fun wf => same.1 ▸ wf, same.2⟩) (fun _ _ h => h)
    (structs.wellFormed ?_ ?_ h)
  · rintro f _ rfl
    exact ⟨fun wf => wf, rfl⟩
  · rintro g _ rfl
    rfl

theorem ensures_runIn {file : String} (h : Ensures x P) :
    Ensures (runIn file x) fun r => P r.1 := by
  intro shared r hr
  have start := h { shared, decls := .new file }
  change ((x.run.run { shared, decls := .new file }).1.map fun a => (a, _)) = _ at hr
  cases hx : (x.run.run { shared, decls := .new file }).1 with
  | error e =>
    rw [hx] at hr
    cases hr
  | ok a =>
    rw [hx] at hr
    cases hr
    exact start a hx

end Resolving

namespace Merge

variable {P : Block τ → Prop} {is js : List (Item τ)}

theorem itemsWellFormed_append :
    ItemsWellFormed P (is ++ js) ↔ ItemsWellFormed P is ∧ ItemsWellFormed P js := by
  induction is with
  | nil => simp [ItemsWellFormed]
  | cons i is ih => simp [ItemsWellFormed, ih, and_assoc]

theorem Joins.wellFormed (h : Joins is js) (wf : ItemsWellFormed P is) : ItemsWellFormed P js := by
  induction h with
  | refl is => exact wf
  | trans _ _ ih ih' => exact ih' (ih wf)
  | cons i _ ih => exact ⟨wf.1, ih wf.2⟩
  | inside is _ ih => exact ⟨ih wf.1, wf.2⟩
  | join is js =>
    obtain ⟨first, rest⟩ := wf
    obtain ⟨before, more, after⟩ := itemsWellFormed_append.mp rest
    exact ⟨itemsWellFormed_append.mpr ⟨first, more⟩, itemsWellFormed_append.mpr ⟨before, after⟩⟩

end Merge

/-- What a plain computation ensures it ensures among others, too. -/
theorem ensures_liftExcept {x : Except Error α} {P : α → Prop} (h : Ensures x P) :
    Ensures (liftM x : Loading σ α) P :=
  fun _ => h

/-- A resolved file is as well-formed as the file was. -/
theorem FileTree.IsBalanced.resolve {t : FileTree Atom} (h : t.IsBalanced) (loader : Loader σ) :
    Ensures (t.resolve loader) fun m => m.tree.IsBalanced := by
  refine ensures_bind (ensures_liftExcept (Merge.ensures_levels _ t.items)) fun items merged => ?_
  refine ensures_bind (Resolving.ensures_runIn (Resolving.ensures_file loader (merged.wellFormed h)))
    fun r hr => ?_
  exact ensures_pure hr

end EbLang
