import EbLang.Proofs.Balance

/-!
# What occurs in a tree

The names and the block numbers of a tree, each in the order in which they are written.  Both are
collected by the same walk: a `Collector` says what an atom, a name that is declared or assigned, and
a block contribute.  A name that is declared also tells whether its variable is hidden, and among the
names are the functions that calls are bound to.
-/

namespace EbLang

variable {α : Type}

/-- A name in a tree. -/
inductive Mention where
  /-- Of a variable, and whether a hidden one is declared by it. -/
  | variable (name : String) (hidden : Bool)
  /-- Of the function that a call is bound to. -/
  | function (target : Signature)

/-- What the parts of a tree contribute to a list. -/
structure Collector (α : Type) where
  atom : Atom → List α
  /-- Of a name that is declared or assigned. -/
  name : Mention → List α
  /-- Of the number of a block. -/
  block : Nat → List α

/-- Collects the names of variables, where they are read, declared or assigned, and the functions
that calls are bound to. -/
def Collector.names : Collector Mention where
  atom a :=
    match a.kind with
    | .var name _ => [.variable name false]
    | .call c => c.target.toList.map .function
    | .literal _ | .member _ => []
  name m := [m]
  block _ := []

/-- Collects the numbers of blocks. -/
def Collector.ids : Collector Nat where
  atom _ := []
  name _ := []
  block n := [n]

mutual

/-- What a term contributes. -/
def Term.collect (c : Collector α) : Term → List α
  | .atom a => c.atom a
  | .choice arms otherwise _ => collectArms c arms ++ collectOtherwise c otherwise

/-- What some terms contribute. -/
def collectTerms (c : Collector α) : List Term → List α
  | [] => []
  | t :: ts => t.collect c ++ collectTerms c ts

/-- What an expression contributes. -/
def Expr.collect (c : Collector α) : Expr Term → List α
  | ⟨ts, _⟩ => collectTerms c ts

/-- What an expression contributes, if it is there. -/
def collectOptional (c : Collector α) : Option (Expr Term) → List α
  | none => []
  | some e => e.collect c

/-- What the arms of an `if` contribute. -/
def collectArms (c : Collector α) : List (Arm Term) → List α
  | [] => []
  | .mk condition body :: arms => condition.collect c ++ body.collect c ++ collectArms c arms

/-- What the last branch of an `if` contributes. -/
def collectOtherwise (c : Collector α) : Option (Block Term) → List α
  | none => []
  | some body => body.collect c

/-- What a block contributes. -/
def Block.collect (c : Collector α) : Block Term → List α
  | .mk id body _ => c.block id ++ collectStmts c body

/-- What some statements contribute. -/
def collectStmts (c : Collector α) : List (Stmt Term) → List α
  | [] => []
  | s :: ss => s.collect c ++ collectStmts c ss

/-- What a statement contributes. -/
def Stmt.collect (c : Collector α) : Stmt Term → List α
  | .declare name _ init _ hidden _ => c.name (.variable name hidden) ++ collectOptional c init
  | .assign target _ _ value _ => c.name (.variable target false) ++ value.collect c
  | .eval value _ => value.collect c
  | .ret value _ => collectOptional c value
  | .branch arms otherwise _ => collectArms c arms ++ collectOtherwise c otherwise
  | .loop condition body _ => condition.collect c ++ body.collect c
  | .breakOut _ _ => []
  | .continueLoop _ => []

end

/-- The names of variables in a block. -/
abbrev Block.names (b : Block Term) : List Mention := b.collect .names

/-- The numbers of a block and of the blocks inside it. -/
abbrev Block.ids (b : Block Term) : List Nat := b.collect .ids

theorem collectTerms_append (c : Collector α) (ts us : List Term) :
    collectTerms c (ts ++ us) = collectTerms c ts ++ collectTerms c us := by
  induction ts with
  | nil => rfl
  | cons t ts ih => rw [List.cons_append, collectTerms, collectTerms, ih, List.append_assoc]

/-! ## Functions of a file -/

variable {τ : Type}

mutual

/-- The functions of an item, in order. -/
def Item.functions : Item τ → List (FunctionItem τ)
  | .function f => [f]
  | .submodule _ items _ _ _ => functionsOf items
  | .imports _ | .global _ | .struct _ => []

/-- The functions of some items, in order. -/
def functionsOf : List (Item τ) → List (FunctionItem τ)
  | [] => []
  | i :: is => i.functions ++ functionsOf is

end

/-- The functions of a file, those of its modules included, in order. -/
def FileTree.functions (t : FileTree τ) : List (FunctionItem τ) := functionsOf t.items

mutual

theorem Item.WellFormed.forall_functions {P : Block τ → Prop} :
    ∀ {i : Item τ}, i.WellFormed P → ∀ f ∈ i.functions, P f.body
  | .function f, h => by
    exact List.forall_mem_singleton.mpr h.1
  | .submodule _ items _ _ _, h => by
    exact ItemsWellFormed.forall_functions h
  | .imports _, _ | .global _, _ | .struct _, _ => by
    exact List.forall_mem_nil _

/-- What holds of all bodies of some items holds of the bodies of their functions. -/
theorem ItemsWellFormed.forall_functions {P : Block τ → Prop} :
    ∀ {is : List (Item τ)}, ItemsWellFormed P is → ∀ f ∈ functionsOf is, P f.body
  | [], _ => by
    exact List.forall_mem_nil _
  | i :: is, ⟨hi, his⟩ => by
    exact List.forall_mem_append.mpr ⟨hi.forall_functions, ItemsWellFormed.forall_functions his⟩

end

/-! ## Items in the places of others -/

/-- Some items are in the places of others: functions, globals and structs are as relations say, and
all else is the same. -/
inductive Corresponds {σ : Type} (F : FunctionItem τ → FunctionItem σ → Prop)
    (G : GlobalItem → GlobalItem → Prop) (S : StructItem → StructItem → Prop) :
    List (Item τ) → List (Item σ) → Prop
  | nil : Corresponds F G S [] []
  | function {f f' is is'} : F f f' → Corresponds F G S is is' →
    Corresponds F G S (.function f :: is) (.function f' :: is')
  | imports {i is is'} : Corresponds F G S is is' →
    Corresponds F G S (.imports i :: is) (.imports i :: is')
  | global {g g' is is'} : G g g' → Corresponds F G S is is' →
    Corresponds F G S (.global g :: is) (.global g' :: is')
  | struct {s s' is is'} : S s s' → Corresponds F G S is is' →
    Corresponds F G S (.struct s :: is) (.struct s' :: is')
  | submodule {name items items' isPub isExtend span is is'} : Corresponds F G S items items' →
    Corresponds F G S is is' → Corresponds F G S (.submodule name items isPub isExtend span :: is)
      (.submodule name items' isPub isExtend span :: is')

namespace Corresponds

variable {σ : Type} {F : FunctionItem τ → FunctionItem σ → Prop} {G : GlobalItem → GlobalItem → Prop}
  {S : StructItem → StructItem → Prop} {is : List (Item τ)} {js : List (Item σ)}

theorem cons {i : Item τ} {j : Item σ} (h : Corresponds F G S [i] [j])
    (others : Corresponds F G S is js) : Corresponds F G S (i :: is) (j :: js) := by
  cases h with
  | function related => exact .function related others
  | imports => exact .imports others
  | global related => exact .global related others
  | struct related => exact .struct related others
  | submodule inside => exact .submodule inside others

theorem functions (h : Corresponds F G S is js) :
    List.Forall₂ F (functionsOf is) (functionsOf js) := by
  induction h with
  | nil => exact .nil
  | function related _ ih => exact .cons related ih
  | imports _ ih | global _ _ ih | struct _ _ ih => exact ih
  | submodule _ _ ih ih' => exact List.rel_append ih ih'

theorem wellFormed {P : Block τ → Prop} {Q : Block σ → Prop} (h : Corresponds F G S is js)
    (functions : ∀ f f', F f f' → (P f.body → Q f'.body) ∧ f'.named = f.named)
    (globals : ∀ g g', G g g' → g'.init = g.init) (wf : ItemsWellFormed P is) :
    ItemsWellFormed Q js := by
  induction h with
  | nil => exact trivial
  | function related _ ih =>
    obtain ⟨body, named⟩ := functions _ _ related
    exact ⟨⟨body wf.1.1, named ▸ wf.1.2⟩, ih wf.2⟩
  | imports _ ih | struct _ _ ih => exact ⟨trivial, ih wf.2⟩
  | global related _ ih =>
    refine ⟨?_, ih wf.2⟩
    rw [Item.WellFormed, globals _ _ related]
    exact wf.1
  | submodule _ _ ih ih' => exact ⟨ih wf.1, ih' wf.2⟩

end Corresponds

section Files

variable {σ : Type} {m : Type → Type} [Monad m] [Ensuring m]
  {R : FunctionItem τ → FunctionItem σ → Prop} {f : FunctionItem τ → m (FunctionItem σ)}

mutual

theorem Item.ensures_mapFunctionsM :
    ∀ i : Item τ, (∀ a ∈ i.functions, Ensures (f a) (R a)) →
      Ensures (i.mapFunctionsM f) fun j => Corresponds R Eq Eq [i] [j]
  | .function a, h => by
    exact ensures_bind (h a List.mem_cons_self) fun b hb => ensures_pure (.function hb .nil)
  | .submodule _ items _ _ _, h => by
    exact ensures_bind (ensures_mapItemsM items h) fun js inside =>
      ensures_pure (.submodule inside .nil)
  | .imports _, _ => by
    exact ensures_pure (.imports .nil)
  | .global _, _ => by
    exact ensures_pure (.global rfl .nil)
  | .struct _, _ => by
    exact ensures_pure (.struct rfl .nil)

/-- What becomes of every function becomes of the items. -/
theorem ensures_mapItemsM :
    ∀ is : List (Item τ), (∀ a ∈ functionsOf is, Ensures (f a) (R a)) →
      Ensures (mapItemsM f is) (Corresponds R Eq Eq is)
  | [], _ => by
    exact ensures_pure .nil
  | i :: is, h => by
    obtain ⟨hi, his⟩ := List.forall_mem_append.mp h
    refine ensures_bind (i.ensures_mapFunctionsM hi) fun j first => ?_
    exact ensures_bind (ensures_mapItemsM is his) fun js others => ensures_pure (first.cons others)

end

/-- The functions of changed items correspond to those there were. -/
theorem ensures_functionsOf [LawfulMonad m] (is : List (Item τ))
    (h : ∀ a ∈ functionsOf is, Ensures (f a) (R a)) :
    Ensures (mapItemsM f is) fun js => List.Forall₂ R (functionsOf is) (functionsOf js) :=
  ensures_imp (ensures_mapItemsM is h) fun _ same => same.functions

/-- What happens to function bodies happens to a file. -/
theorem ensures_wellFormed [LawfulMonad m] {P : Block τ → Prop} {Q : Block σ → Prop}
    (hf : ∀ i, P i.body → Ensures (f i) fun j => Q j.body ∧ j.named = i.named) (is : List (Item τ))
    (wf : ItemsWellFormed P is) : Ensures (mapItemsM f is) (ItemsWellFormed Q) := by
  refine ensures_imp (ensures_mapItemsM is fun a there => hf a (wf.forall_functions a there)) ?_
  intro js same
  refine same.wellFormed (fun f f' related => ⟨fun _ => related.1, related.2⟩) ?_ wf
  rintro g _ rfl
  rfl

end Files

/-- What the bodies of some functions contribute. -/
def collectBodies (c : Collector α) (fs : List (FunctionItem Term)) : List α :=
  fs.flatMap fun f => f.body.collect c

end EbLang
