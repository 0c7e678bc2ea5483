import EbLang.Analysis
import EbLang.Proofs.Occurrences

/-!
# Relations that all of resolving respects

To resolve a file is to import files, note items of other files, add declarations and keep track of
variables, in an order that the items of the file determine.  So a relation of computations that holds
of these steps, with one loader and with another, and of what is built in the same way of related
computations (`Compatible`), holds of every round over the file.

A relation may look at one of its sides only; then it is a property of computations.  It may also say
something of what they give and of the names in view from then on.  What is known so of the steps of
a body (`Knowledge`) carries over to its statements, and from functions to items.
-/

namespace EbLang.Resolving

variable {σ α β τ : Type}

/-- A relation that holds of what is built in the same way of related computations that do not read
the names in view. -/
structure Building (R : (α : Type) → Resolving σ α → Resolving σ α → Prop) : Prop where
  pure : ∀ {α : Type} (a : α), R α (pure a) (pure a)
  fail : ∀ {α : Type} (position : Position) (fault : Fault),
    R α (failAt position fault) (failAt position fault)
  bind : ∀ {α β : Type} {x y : Resolving σ α} {f g : α → Resolving σ β}, R α x y →
    (∀ a, R β (f a) (g a)) → R β (x >>= f) (y >>= g)

/-- A relation that holds of what is built in the same way of related computations. -/
structure Compatible (R : (α : Type) → Resolving σ α → Resolving σ α → Prop) : Prop
    extends Building R where
  get : R (Names σ) get get

/-- In two states names of modules and types stand for the same. -/
structure SameTypes (n m : Names σ) : Prop where
  shared : m.shared = n.shared
  imports : m.imports = n.imports
  has : m.decls.has = n.decls.has
  struct? : ∀ path name, (m.decls.find? path).bind (·.struct? name) =
    (n.decls.find? path).bind (·.struct? name)

/-- A relation that holds of looking types up.  What is read must not depend on what may differ in two
states that are the same in the view `V`. -/
structure Looks (R : (α : Type) → Resolving σ α → Resolving σ α → Prop)
    (V : Names σ → Names σ → Prop) (loader loader' : Loader σ) : Prop extends Building R where
  sees : ∀ {n m}, V n m → SameTypes n m
  read : ∀ {α : Type} {f g : Names σ → Resolving σ α}, (∀ {n m}, V n m → f m = f n) →
    (∀ n, R α (f n) (g n)) → R α (get >>= f) (get >>= g)
  imports : ∀ (file : String) (path : ModulePath) (position : Position),
    R _ (importFile loader file path position) (importFile loader' file path position)
  noteStruct : ∀ r : StructRef,
    R _ (onExternals (·.addStruct r)) (onExternals (·.addStruct r))

/-- It also holds of importing a file, with one loader and with another, and of noting a struct. -/
structure RespectsTypes (R : (α : Type) → Resolving σ α → Resolving σ α → Prop)
    (loader loader' : Loader σ) : Prop extends Compatible R where
  imports : ∀ (file : String) (path : ModulePath) (position : Position),
    R _ (importFile loader file path position) (importFile loader' file path position)
  noteStruct : ∀ r : StructRef,
    R _ (onExternals (·.addStruct r)) (onExternals (·.addStruct r))

/-- It also holds of declaring functions and globals. -/
structure RespectsValues (R : (α : Type) → Resolving σ α → Resolving σ α → Prop)
    (loader loader' : Loader σ) : Prop extends RespectsTypes R loader loader' where
  addFunction : ∀ (path : ModulePath) (position : Position) (s : Signature),
    R _ (onModule path position (·.addFunction s)) (onModule path position (·.addFunction s))
  addGlobal : ∀ (path : ModulePath) (position : Position) (g : Global),
    R _ (onModule path position (·.addGlobal g)) (onModule path position (·.addGlobal g))

/-- It also holds of declaring modules and structs. -/
structure RespectsDeclarations (R : (α : Type) → Resolving σ α → Resolving σ α → Prop)
    (loader loader' : Loader σ) : Prop extends RespectsValues R loader loader' where
  enter : ∀ path : ModulePath,
    R _ (modify fun n => { n with decls := n.decls.enter path })
      (modify fun n => { n with decls := n.decls.enter path })
  addRow : R _ (onStructs StructTable.addRow) (onStructs StructTable.addRow)
  addStruct : ∀ (path : ModulePath) (position : Position) (r : StructRef),
    R _ (onModule path position (·.addStruct r)) (onModule path position (·.addStruct r))
  members : ∀ (scope : ModulePath) (s : StructItem),
    R _ (declareMembers loader scope s) (declareMembers loader' scope s)

/-! ### What is known of bodies -/

/-- Nothing in particular is known of what is given. -/
abbrev Anything (_ : α) (_ : Names σ) : Prop := True

/-- What is known of bodies whose names are bound: of a step and what it becomes, of a variable that
is written, and of statements before and after. -/
structure Knowledge (σ : Type) where
  step : Atom → List Atom → Names σ → Prop := fun _ => Anything
  target : Binding → Names σ → Prop := Anything
  before : Stmt Atom → Prop := fun _ => True
  after : Stmt Atom → Names σ → Prop := Anything

/-- An expression is made of what its steps become. -/
def Knowledge.Expr (K : Knowledge σ) (n : Names σ) (e e' : Expr Atom) : Prop :=
  ∃ ass, List.Forall₂ (K.step · · n) e.terms ass ∧ e'.terms = ass.flatten

/-- What becomes of a statement itself, without the statements inside it. -/
structure Knowledge.Stmt (K : Knowledge σ) (n : Names σ) (s s' : Stmt Atom) : Prop where
  exprs : List.Forall₂ (K.Expr n) s.exprs s'.exprs
  target : ∀ b ∈ s'.binding?, K.target b n
  hasArm : s.HasArm → s'.HasArm

/-- What becomes of a function. -/
structure Knowledge.Function (K : Knowledge σ) (n : Names σ) (f f' : FunctionItem Atom) : Prop where
  rest : f' = { f with body := f'.body }
  body : f.signature.isSome = true → f.body.Everywhere K.before → f'.body.Everywhere (K.after · n)
  undeclared : f.signature = none → f' = f

/-- A relation that says something of what computations give holds of what happens in the bodies of
functions.  What is known of what the first of two gives may be used for the second. -/
structure RespectsBodies
    (R : {α : Type} → Resolving σ α → Resolving σ α → (α → Names σ → Prop) → Prop)
    (loader loader' : Loader σ) (K : Knowledge σ) : Prop
    extends RespectsTypes (fun _ x y => R x y Anything) loader loader' where
  give : ∀ {α : Type} {a : α} {Q : α → Names σ → Prop}, (∀ n, Q a n) → R (Pure.pure a) (Pure.pure a) Q
  chain : ∀ {α β : Type} {x y : Resolving σ α} {f g : α → Resolving σ β} {P : α → Names σ → Prop}
    {Q : β → Names σ → Prop}, R x y P → (∀ a, R (f a) (g a) fun b n => P a n → Q b n) →
    R (x >>= f) (y >>= g) Q
  step : ∀ (scope : ModulePath) (a : Atom),
    R (resolveAtom loader scope a) (resolveAtom loader' scope a) (K.step a)
  target : ∀ (scope : ModulePath) (name : String) (position : Position),
    R (findVariable loader scope name position) (findVariable loader' scope name position)
      fun r => K.target r.1
  declareVar : ∀ v : Variable, R (declareVar v) (declareVar v) Anything
  within : ∀ {α : Type} {x y : Resolving σ α} {Q : α → Names σ → Prop} (block : Nat) (isLoop : Bool),
    R x y Q → R (within block isLoop x) (within block isLoop y) Q
  carries : ∀ {n : Names σ} {s s' : Stmt Atom}, K.before s → K.Stmt n s s' → K.after s' n

variable {R : (α : Type) → Resolving σ α → Resolving σ α → Prop} {loader loader' : Loader σ}

namespace Building

variable (h : Building R)

include h

theorem map {x y : Resolving σ α} (f : α → β) (first : R α x y) : R β (f <$> x) (f <$> y) := by
  exact h.bind first fun a => h.pure (f a)

theorem mapM {f g : α → Resolving σ β} (each : ∀ a, R β (f a) (g a)) (l : List α) :
    R _ (l.mapM f) (l.mapM g) := by
  induction l with
  | nil =>
    exact h.pure []
  | cons a l ih =>
    simp only [List.mapM_cons]
    exact h.bind (each a) fun b => h.bind ih fun bs => h.pure (b :: bs)

theorem forM {f g : α → Resolving σ PUnit} (each : ∀ a, R _ (f a) (g a)) (l : List α) :
    R _ (l.forM f) (l.forM g) := by
  induction l with
  | nil => exact h.pure _
  | cons a l ih => exact h.bind (each a) fun _ => ih

theorem optionMapM {f g : α → Resolving σ β} (each : ∀ a, R β (f a) (g a)) (o : Option α) :
    R _ (o.mapM f) (o.mapM g) := by
  cases o with
  | none => exact h.pure none
  | some a => exact h.map some (each a)

variable (position : Position)

theorem located (x : Except Fault α) : R α (located position x) (located position x) := by
  cases x with
  | ok a => exact h.pure a
  | error fault => exact h.fail position fault

theorem orFail (fault : Fault) (o : Option α) :
    R α (orFail position fault o) (orFail position fault o) := by
  cases o with
  | some a => exact h.pure a
  | none => exact h.fail position fault

theorem checkVisible (isPub isOutside : Bool) (name : String) (position : Position) :
    R _ (checkVisible isPub isOutside name position)
      (checkVisible isPub isOutside name position) := by
  simp only [Resolving.checkVisible]
  split
  · exact h.fail position _
  · exact h.pure _

end Building

namespace Compatible

variable (h : Compatible R) (scope : ModulePath)

include h

theorem read {f g : Names σ → Resolving σ α} (rest : ∀ n, R α (f n) (g n)) :
    R α (MonadState.get >>= f) (MonadState.get >>= g) :=
  h.bind h.get rest

theorem homeOf : R _ (homeOf scope) (homeOf scope) :=
  h.read fun _ => h.pure _

theorem nextOverload (name : String) (arity : Nat) :
    R _ (nextOverload scope name arity) (nextOverload scope name arity) :=
  h.read fun _ => h.pure _

end Compatible

/-! ## Modules and types -/

theorem RespectsTypes.looks (h : RespectsTypes R loader loader') : Looks R Eq loader loader' where
  toBuilding := h.toBuilding
  sees := by
    rintro n _ rfl
    exact ⟨rfl, rfl, rfl, fun _ _ => rfl⟩
  read _ := h.read
  imports := h.imports
  noteStruct := h.noteStruct

namespace Looks

variable {V : Names σ → Names σ → Prop} (h : Looks R V loader loader')

include h

theorem findModule (scope : ModulePath) (parts : List String) (position : Position) :
    R _ (findModule loader scope parts position)
      (findModule loader' scope parts position) := by
  simp only [Resolving.findModule]
  refine h.read (fun same => by rw [(h.sees same).imports, (h.sees same).has]) fun n => ?_
  split
  · exact h.pure _
  · split
    · exact h.pure _
    · cases parts with
      | nil => exact h.fail position _
      | cons file path =>
        have reach (decls : Declarations) :
            R _ (if decls.has path then return ModuleRef.outside decls path
              else failAt position (.unknownModule (joinName (file :: path))))
              (if decls.has path then return ModuleRef.outside decls path
              else failAt position (.unknownModule (joinName (file :: path)))) := by
          split
          · exact h.pure _
          · exact h.fail position _
        have load := h.bind (h.imports file [] position) reach
        dsimp only
        split
        · exact h.bind (h.fail position _) fun _ => load
        · exact load

theorem findStruct (scope : ModulePath) (name : String) :
    R _ (findStruct scope name) (findStruct scope name) := by
  simp only [Resolving.findStruct]
  refine h.read (fun same => by simp only [(h.sees same).imports, (h.sees same).struct?]) fun n => ?_
  split
  · exact h.pure _
  · split
    · exact h.bind (h.noteStruct _) fun _ => h.pure _
    · exact h.pure _

theorem typeNamed (scope : ModulePath) (ty : TypeName) :
    R _ (typeNamed loader scope ty) (typeNamed loader' scope ty) := by
  simp only [Resolving.typeNamed]
  split
  · exact h.fail _ _
  · exact h.pure _
  · split
    · refine h.bind (h.findStruct scope ty.name) fun r => ?_
      exact h.bind (h.orFail _ _ r) fun r => h.pure _
    · exact h.fail _ _
    · refine h.bind (h.findModule scope _ _) fun m => h.read (fun same => ?_) fun n => ?_
      · cases m with
        | inside path => rw [ModuleRef.members?, ModuleRef.members?, (h.sees same).struct?]
        | outside decls path => rfl
      refine h.bind (h.orFail _ _ _) fun r => ?_
      refine h.bind (h.checkVisible _ _ _ _) fun _ => ?_
      split
      · exact h.bind (h.noteStruct _) fun _ => h.pure _
      · exact h.pure _

theorem resultNamed (scope : ModulePath) (result : Option TypeName) :
    R _ (resultNamed loader scope result) (resultNamed loader' scope result) := by
  simp only [Resolving.resultNamed]
  split
  · exact h.pure _
  · split
    · exact h.pure _
    · exact h.typeNamed scope _

theorem namedParameter (scope : ModulePath) (f : NamedField) :
    R _ (namedParameter loader scope f) (namedParameter loader' scope f) := by
  refine h.bind (h.typeNamed scope f.ty) fun ty => ?_
  split
  · exact h.bind (h.located _ _) fun r => h.pure _
  · exact h.read (fun same => by rw [(h.sees same).shared]) fun n => h.pure _

end Looks

namespace RespectsTypes

variable (h : RespectsTypes R loader loader')

include h

theorem typeNamed (scope : ModulePath) (ty : TypeName) :
    R _ (typeNamed loader scope ty) (typeNamed loader' scope ty) :=
  h.looks.typeNamed scope ty

theorem declareImport (span : Span) (path : List String) :
    R _ (declareImport loader span path) (declareImport loader' span path) := by
  simp only [Resolving.declareImport]
  split
  · exact h.pure _
  · refine h.bind (h.imports _ _ _) fun decls => ?_
    split
    · exact h.fail _ _
    · exact h.pure _

mutual

theorem declareImports :
    ∀ is : List (Item τ), R _ (declareImports loader is) (declareImports loader' is)
  | [] => by
    exact h.pure _
  | i :: is => by
    exact h.bind (declareImportsOf i) fun _ => declareImports is

theorem declareImportsOf :
    ∀ i : Item τ, R _ (declareImportsOf loader i) (declareImportsOf loader' i)
  | .imports i => by
    exact h.forM (h.declareImport i.span) i.paths
  | .submodule _ items _ _ _ => by
    exact declareImports items
  | .function _ | .global _ | .struct _ => by
    exact h.pure _

end

/-- If any members may be set, the members of a struct may be declared. -/
theorem declareMembers (addFunction : ∀ (path : ModulePath) (position : Position) (s : Signature),
      R _ (onModule path position (·.addFunction s)) (onModule path position (·.addFunction s)))
    (setMembers : ∀ (r : StructRef) (members : List Member),
      R _ (onStructs (·.setMembers r members)) (onStructs (·.setMembers r members)))
    (scope : ModulePath) (s : StructItem) :
    R _ (declareMembers loader scope s) (declareMembers loader' scope s) := by
  simp only [Resolving.declareMembers]
  split
  · exact h.pure _
  · refine h.bind (h.mapM (fun f => ?_) _) fun members => h.read fun n => ?_
    · exact h.bind (h.typeNamed scope _) fun _ => h.pure _
    refine h.bind (setMembers _ _) fun _ => h.bind (h.nextOverload scope _ _) fun index => ?_
    exact h.bind (h.homeOf scope) fun home => addFunction scope _ _

end RespectsTypes

/-! ## Declarations -/

namespace RespectsValues

variable (h : RespectsValues R loader loader')

include h

theorem declareFunction (scope : ModulePath) (f : FunctionItem τ) :
    R _ (declareFunction loader scope f) (declareFunction loader' scope f) := by
  refine h.bind (h.homeOf scope) fun home => h.bind (h.mapM (fun p => ?_) _) fun params => ?_
  · exact h.bind (h.typeNamed scope _) fun _ => h.pure _
  refine h.bind (h.mapM (h.looks.namedParameter scope) _) fun named => ?_
  refine h.bind (h.looks.resultNamed scope _) fun result => ?_
  refine h.bind (h.nextOverload scope _ _) fun index => ?_
  exact h.bind (h.addFunction scope _ _) fun _ => h.pure _

theorem declareGlobal (scope : ModulePath) (g : GlobalItem) :
    R _ (declareGlobal loader scope g) (declareGlobal loader' scope g) := by
  refine h.bind (h.homeOf scope) fun home => ?_
  refine h.bind (h.optionMapM (h.typeNamed scope) _) fun ty => ?_
  refine h.bind (h.located _ _) fun r => ?_
  exact h.bind (h.addGlobal scope _ _) fun _ => h.pure _

mutual

theorem declareValues :
    ∀ (scope : ModulePath) (is : List (Item τ)),
      R _ (declareValues loader scope is) (declareValues loader' scope is)
  | _, [] => by
    exact h.pure []
  | scope, i :: is => by
    refine h.bind (declareValuesOf scope i) fun i => ?_
    exact h.bind (declareValues scope is) fun is => h.pure _

theorem declareValuesOf :
    ∀ (scope : ModulePath) (i : Item τ),
      R _ (declareValuesOf loader scope i) (declareValuesOf loader' scope i)
  | scope, .function f => by
    exact h.bind (h.declareFunction scope f) fun f => h.pure _
  | scope, .global g => by
    exact h.bind (h.declareGlobal scope g) fun g => h.pure _
  | _, .submodule name items isPub isExtend span => by
    exact h.bind (declareValues _ items) fun items => h.pure _
  | _, .imports _ | _, .struct _ => by
    exact h.pure _

end

end RespectsValues

namespace RespectsDeclarations

variable (h : RespectsDeclarations R loader loader')

include h

mutual

theorem declareStructs :
    ∀ (scope : ModulePath) (is : List (Item τ)),
      R _ (declareStructs scope is) (declareStructs scope is)
  | _, [] => by
    exact h.pure []
  | scope, i :: is => by
    refine h.bind (declareStructsOf scope i) fun i => ?_
    exact h.bind (declareStructs scope is) fun is => h.pure _

theorem declareStructsOf :
    ∀ (scope : ModulePath) (i : Item τ),
      R _ (declareStructsOf scope i) (declareStructsOf scope i)
  | scope, .struct s => by
    refine h.bind (h.bind (h.homeOf scope) fun home => h.read fun n => ?_) fun s => h.pure _
    exact h.bind h.addRow fun _ => h.bind (h.addStruct scope _ _) fun _ => h.pure _
  | scope, .submodule name items isPub isExtend span => by
    refine h.bind (h.enter _) fun _ => ?_
    exact h.bind (declareStructs _ items) fun items => h.pure _
  | _, .function _ | _, .imports _ | _, .global _ => by
    exact h.pure _

end

mutual

theorem declareAllMembers :
    ∀ (scope : ModulePath) (is : List (Item τ)),
      R _ (declareAllMembers loader scope is) (declareAllMembers loader' scope is)
  | _, [] => by
    exact h.pure _
  | scope, i :: is => by
    exact h.bind (declareMembersOf scope i) fun _ => declareAllMembers scope is

theorem declareMembersOf :
    ∀ (scope : ModulePath) (i : Item τ),
      R _ (declareMembersOf loader scope i) (declareMembersOf loader' scope i)
  | scope, .struct s => by
    exact h.members scope s
  | _, .submodule _ items _ _ _ => by
    exact declareAllMembers _ items
  | _, .function _ | _, .imports _ | _, .global _ => by
    exact h.pure _

end

end RespectsDeclarations

/-! ## Bodies of functions -/

theorem RespectsTypes.resolveAtom (h : RespectsTypes R loader loader')
    (found : ∀ (scope : ModulePath) (name : String) (position : Position),
      R _ (findVariable loader scope name position) (findVariable loader' scope name position))
    (candidates : ∀ (scope : ModulePath) (c : Call) (position : Position),
      R _ (candidatesOf loader scope c position) (candidatesOf loader' scope c position))
    (scope : ModulePath) (a : Atom) :
    R _ (resolveAtom loader scope a) (resolveAtom loader' scope a) := by
  simp only [Resolving.resolveAtom]
  split
  · exact h.bind (found scope _ _) fun found => h.pure _
  · exact h.bind (candidates scope _ _) fun candidates => h.pure _
  · exact h.pure _
  · exact h.pure _

namespace RespectsBodies

variable {R : {α : Type} → Resolving σ α → Resolving σ α → (α → Names σ → Prop) → Prop}
  {K : Knowledge σ} (h : RespectsBodies R loader loader' K)

include h

theorem imp {x y : Resolving σ α} {P Q : α → Names σ → Prop} (first : R x y P)
    (weaker : ∀ a n, P a n → Q a n) : R x y Q := by
  rw [← bind_pure x, ← bind_pure y]
  exact h.chain first fun a => h.give fun n => weaker a n

theorem mapM_chain {f g : α → Resolving σ β} {Q : α → β → Names σ → Prop}
    (each : ∀ a, R (f a) (g a) (Q a)) (l : List α) :
    R (l.mapM f) (l.mapM g) fun bs n => List.Forall₂ (Q · · n) l bs := by
  induction l with
  | nil =>
    exact h.give fun _ => .nil
  | cons a l ih =>
    simp only [List.mapM_cons]
    exact h.chain (each a) fun b => h.chain ih fun bs => h.give fun _ others first =>
      .cons first others

variable (scope : ModulePath)

theorem resolveExpr (e : Expr Atom) :
    R (resolveExpr loader scope e) (resolveExpr loader' scope e) fun e' n => K.Expr n e e' :=
  h.chain (h.mapM_chain (h.step scope) e.terms) fun ass => h.give fun _ steps => ⟨ass, steps, rfl⟩

theorem resolveOptional (e : Option (Expr Atom)) :
    R (e.mapM (Resolving.resolveExpr loader scope)) (e.mapM (Resolving.resolveExpr loader' scope))
      fun e' n => List.Forall₂ (K.Expr n) e.toList e'.toList := by
  cases e with
  | none => exact h.give fun _ => .nil
  | some e =>
    exact h.chain (h.resolveExpr scope e) fun e' => h.give fun _ known => .cons known .nil

mutual

theorem resolveBlock (scope : ModulePath) (isLoop : Bool) :
    ∀ b : Block Atom, R (resolveBlock loader scope isLoop b) (resolveBlock loader' scope isLoop b)
      fun b' n => b.Everywhere K.before → b'.Everywhere (K.after · n)
  | .mk id body span => by
    exact h.chain (h.within id isLoop (resolveStmts scope body)) fun body => h.give fun _ known => known

theorem resolveStmts (scope : ModulePath) :
    ∀ ss : List (Stmt Atom), R (resolveStmts loader scope ss) (resolveStmts loader' scope ss)
      fun ss' n => StmtsEverywhere K.before ss → StmtsEverywhere (K.after · n) ss'
  | [] => by
    exact h.give fun _ _ => trivial
  | s :: ss => by
    refine h.chain (resolveStmt scope s) fun s => ?_
    exact h.chain (resolveStmts scope ss) fun ss => h.give fun _ others first before =>
      ⟨first before.1, others before.2⟩

theorem resolveStmt (scope : ModulePath) :
    ∀ s : Stmt Atom, R (resolveStmt loader scope s) (resolveStmt loader' scope s)
      fun s' n => s.Everywhere K.before → s'.Everywhere (K.after · n)
  | .declare name ty init var hidden span => by
    refine h.chain (h.resolveOptional scope init) fun init => ?_
    split
    all_goals
      refine h.chain (P := Anything) ?_ fun declared => h.chain (h.declareVar _) fun id => h.give
        fun _ _ _ known before => h.carries before ⟨known, nofun, fun _ => trivial⟩
    · exact h.typeNamed scope _
    · exact h.pure _
  | .assign target binding members value span => by
    refine h.chain (h.resolveExpr scope value) fun value => ?_
    refine h.chain (h.target scope target _) fun found => h.give fun _ bound known before => ?_
    refine h.carries before ⟨.cons known .nil, ?_, fun _ => trivial⟩
    rintro _ ⟨⟩
    exact bound
  | .eval value span => by
    exact h.chain (h.resolveExpr scope value) fun value => h.give fun _ known before =>
      h.carries before ⟨.cons known .nil, nofun, fun _ => trivial⟩
  | .ret value span => by
    exact h.chain (h.resolveOptional scope value) fun value => h.give fun _ known before =>
      h.carries before ⟨known, nofun, fun _ => trivial⟩
  | .branch arms otherwise span => by
    refine h.chain (h.mapM_chain (h.resolveExpr scope) _) fun conditions => ?_
    refine h.chain (resolveBodies scope arms) fun bodies => ?_
    refine h.chain (resolveOptionalBlock scope otherwise) fun otherwise => h.give ?_
    rintro n last ⟨length, inBodies⟩ known ⟨before, inArms, inLast⟩
    have lengths : conditions.length = bodies.length := by
      rw [length, ← known.length_eq, List.length_map]
    refine ⟨h.carries before ⟨?_, nofun, fun some empty => some ?_⟩,
      armsEverywhere_zipWith (inBodies inArms), last inLast⟩
    · rw [Stmt.exprs, Stmt.exprs, map_condition_zipWith lengths]
      exact known
    · have := congrArg List.length empty
      rw [List.length_zipWith, lengths, Nat.min_self, length] at this
      exact List.length_eq_zero_iff.mp this
  | .loop condition body span => by
    refine h.chain (h.resolveExpr scope condition) fun condition => ?_
    refine h.chain (resolveBlock scope true body) fun body => h.give ?_
    rintro _ inside known ⟨before, inBody⟩
    exact ⟨h.carries before ⟨.cons known .nil, nofun, fun _ => trivial⟩, inside inBody⟩
  | .breakOut _ _ | .continueLoop _ => by
    exact h.give fun _ before => h.carries before ⟨.nil, nofun, fun _ => trivial⟩

theorem resolveBodies (scope : ModulePath) :
    ∀ arms : List (Arm Atom), R (resolveBodies loader scope arms) (resolveBodies loader' scope arms)
      fun bodies n => bodies.length = arms.length ∧
        (ArmsEverywhere K.before arms → ∀ b ∈ bodies, b.Everywhere (K.after · n))
  | [] => by
    exact h.give fun _ => ⟨rfl, fun _ => List.forall_mem_nil _⟩
  | .mk condition body :: arms => by
    refine h.chain (resolveBlock scope false body) fun body => ?_
    refine h.chain (resolveBodies scope arms) fun bodies => h.give fun _ others first => ?_
    exact ⟨congrArg (· + 1) others.1, fun before =>
      List.forall_mem_cons.mpr ⟨first before.1, others.2 before.2⟩⟩

theorem resolveOptionalBlock (scope : ModulePath) :
    ∀ b : Option (Block Atom), R (resolveOptionalBlock loader scope b)
      (resolveOptionalBlock loader' scope b)
      fun b' n => OtherwiseEverywhere K.before b → OtherwiseEverywhere (K.after · n) b'
  | none => by
    exact h.give fun _ _ => trivial
  | some body => by
    exact h.chain (resolveBlock scope false body) fun body => h.give fun _ known => known

end

theorem resolveFunction (scope : ModulePath) (f : FunctionItem Atom) :
    R (resolveFunction loader scope f) (resolveFunction loader' scope f)
      fun f' n => K.Function n f f' := by
  simp only [Resolving.resolveFunction]
  split
  next none =>
    exact h.give fun _ => ⟨rfl, fun some => by simp [none] at some, fun _ => rfl⟩
  next s id body span some eq =>
    have params := h.forM (fun p : String × Ty => h.bind
      (h.declareVar ⟨p.1, p.2, true, false, f.span⟩) fun _ => h.pure PUnit.unit)
      (s.params.map (fun p => (p.name, p.ty)) ++ s.named.map fun p => (p.name, p.ty))
    have inner := h.chain params fun _ => h.imp (h.resolveStmts scope body) fun _ _ known _ => known
    refine h.chain (h.within id false inner) fun body => h.give fun _ known => ?_
    refine ⟨rfl, fun _ before => ?_, fun none => by simp [none] at some⟩
    rw [eq] at before
    exact known before

mutual

theorem resolveItems :
    ∀ (scope : ModulePath) (is : List (Item Atom)),
      R (resolveItems loader scope is) (resolveItems loader' scope is)
        fun is' n => Corresponds (K.Function n) Eq Eq is is'
  | _, [] => by
    exact h.give fun _ => .nil
  | scope, i :: is => by
    refine h.chain (resolveItem scope i) fun i => ?_
    exact h.chain (resolveItems scope is) fun is => h.give fun _ others first => first.cons others

theorem resolveItem :
    ∀ (scope : ModulePath) (i : Item Atom),
      R (resolveItem loader scope i) (resolveItem loader' scope i)
        fun i' n => Corresponds (K.Function n) Eq Eq [i] [i']
  | scope, .function f => by
    exact h.chain (h.resolveFunction scope f) fun f => h.give fun _ known => .function known .nil
  | scope, .submodule name items isPub isExtend span => by
    exact h.chain (resolveItems _ items) fun items => h.give fun _ inside => .submodule inside .nil
  | _, .imports _ => by
    exact h.give fun _ => .imports .nil
  | _, .global _ => by
    exact h.give fun _ => .global rfl .nil
  | _, .struct _ => by
    exact h.give fun _ => .struct rfl .nil

end

/-- If it also holds of adding declarations, it holds of the whole file. -/
theorem file (declares : RespectsDeclarations (fun _ x y => R x y Anything) loader loader')
    (items : List (Item Atom)) : R (file loader items) (file loader' items) Anything := by
  refine h.bind (declares.declareStructs [] items) fun items => ?_
  refine h.bind (h.declareImports items) fun _ => ?_
  refine h.bind (declares.declareAllMembers [] items) fun _ => ?_
  refine h.bind (declares.toRespectsValues.declareValues [] items) fun items => ?_
  exact h.imp (h.resolveItems [] items) fun _ _ _ => trivial

end RespectsBodies

end EbLang.Resolving
