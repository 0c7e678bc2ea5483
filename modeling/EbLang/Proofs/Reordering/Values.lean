import EbLang.Proofs.Reordering.Views

/-!
# Declaring functions and globals in another order

The last round of declarations, and likewise the binding of names after it, goes through the functions
and globals of a file one after the other, whatever modules they are in.  What one of them declares
stands in one place, so two of them with different places may be declared in either order: both are
declared as before, and the file declares the same in the end.
-/

namespace EbLang

variable {σ τ : Type}

/-! ## The functions and globals of a file -/

/-- A function or a global. -/
inductive Value (τ : Type) where
  | function (f : FunctionItem τ)
  | global (g : GlobalItem)

namespace Value

/-- The numbers of the blocks that are no part of another block. -/
def roots : Value τ → List Nat
  | function f => [f.body.id]
  | global _ => []

/-- A function has been declared. -/
def HasSignature : Value τ → Prop
  | function f => ∃ s, f.signature = some s
  | global _ => True

/-- The place in a module where it is declared. -/
def place (path : ModulePath) : Value τ → ItemPlace
  | function f => some (path, f.name)
  | global _ => none

end Value

/-- A function or a global with the path of its module. -/
abbrev PlacedValue (τ : Type) := ModulePath × Value τ

mutual

/-- The functions and globals of an item, in order. -/
def Item.values (scope : ModulePath) : Item τ → List (PlacedValue τ)
  | .function f => [(scope, .function f)]
  | .global g => [(scope, .global g)]
  | .submodule name items _ _ _ => valuesOf (scope ++ [name]) items
  | .imports _ | .struct _ => []

/-- The functions and globals of some items, in order. -/
def valuesOf (scope : ModulePath) : List (Item τ) → List (PlacedValue τ)
  | [] => []
  | i :: is => i.values scope ++ valuesOf scope is

end

namespace Resolving

variable {loader : Loader σ}
variable {K : ItemPlace → Prop} {path : ModulePath}

section Visits

variable {f : PlacedValue τ → Resolving σ (PlacedValue τ)}
  {all : ModulePath → List (Item τ) → Resolving σ (List (Item τ))}
  {one : ModulePath → Item τ → Resolving σ (Item τ)}

/-- A round over some items, `all` of them one by one, that visits every function and global with `f`
and leaves the rest as it is. -/
structure IsRound (f : PlacedValue τ → Resolving σ (PlacedValue τ))
    (all : ModulePath → List (Item τ) → Resolving σ (List (Item τ)))
    (one : ModulePath → Item τ → Resolving σ (Item τ)) : Prop where
  nil : ∀ scope, all scope [] = pure []
  cons : ∀ scope i is, all scope (i :: is) = do
    let i ← one scope i
    let is ← all scope is
    return i :: is
  function : ∀ scope g, Item.values scope <$> one scope (.function g) =
    List.singleton <$> f (scope, .function g)
  global : ∀ scope g, Item.values scope <$> one scope (.global g) =
    List.singleton <$> f (scope, .global g)
  submodule : ∀ scope name items isPub isExtend span,
    one scope (.submodule name items isPub isExtend span) =
      (.submodule name · isPub isExtend span) <$> all (scope ++ [name]) items
  imports : ∀ scope i, one scope (.imports i) = pure (.imports i)
  struct : ∀ scope s, one scope (.struct s) = pure (.struct s)

mutual

theorem IsRound.values_one (round : IsRound f all one) :
    ∀ (scope : ModulePath) (i : Item τ),
      Item.values scope <$> one scope i = (i.values scope).mapM f
  | scope, .function g => by
    rw [round.function, Item.values, List.mapM_cons, List.mapM_nil, map_eq_pure_bind]
    rfl
  | scope, .global g => by
    rw [round.global, Item.values, List.mapM_cons, List.mapM_nil, map_eq_pure_bind]
    rfl
  | scope, .submodule name items isPub isExtend span => by
    rw [round.submodule, Functor.map_map, Item.values, ← round.values_all (scope ++ [name]) items]
    simp only [Item.values]
  | scope, .imports i => by
    rw [round.imports, map_pure, Item.values, List.mapM_nil]
  | scope, .struct s => by
    rw [round.struct, map_pure, Item.values, List.mapM_nil]

/-- A round goes through the functions and globals one after the other. -/
theorem IsRound.values_all (round : IsRound f all one) :
    ∀ (scope : ModulePath) (is : List (Item τ)),
      valuesOf scope <$> all scope is = (valuesOf scope is).mapM f
  | scope, [] => by rw [round.nil, map_pure, valuesOf, List.mapM_nil]
  | scope, i :: is => by
    rw [round.cons, valuesOf, List.mapM_append, ← round.values_one scope i,
      ← round.values_all scope is]
    simp [valuesOf]

end

end Visits

/-! ## Declaring one of them -/

/-- Declares a function or a global. -/
def declareValue (loader : Loader σ) : PlacedValue τ → Resolving σ (PlacedValue τ)
  | (path, .function f) => do return (path, .function (← declareFunction loader path f))
  | (path, .global g) => do return (path, .global (← declareGlobal loader path g))

theorem isRound_declareValues (loader : Loader σ) :
    IsRound (τ := τ) (declareValue loader) (declareValues loader) (declareValuesOf loader) where
  nil scope := by rw [declareValues]
  cons scope i is := by rw [declareValues]
  function scope g := by simp [declareValuesOf, declareValue, Item.values, List.singleton]
  global scope g := by simp [declareValuesOf, declareValue, Item.values, List.singleton]
  submodule scope name items isPub isExtend span := by
    rw [declareValuesOf, map_eq_pure_bind]
  imports scope i := by rw [declareValuesOf]
  struct scope s := by rw [declareValuesOf]

/-- What a function or a global is declared as, and how it looks afterwards. -/
def header (loader : Loader σ) (path : ModulePath) :
    Value τ → Resolving σ (Reference × Value τ)
  | .function f => do
    let home ← homeOf path
    let params ← f.params.mapM fun p => do
      return (⟨p.name, ← typeNamed loader path p.ty⟩ : Parameter)
    let named ← f.named.mapM (namedParameter loader path)
    let result ← resultNamed loader path f.result
    let index ← nextOverload path f.name params.length
    let signature : Signature :=
      { name := f.name
        mangled := mangle home f.name [params.length, index]
        params, named, result
        form := .user
        isPub := f.isPub
        home
        span := f.span }
    return (.function signature, .function { f with signature := some signature })
  | .global g => do
    let home ← homeOf path
    let declared ← g.ty.mapM (typeNamed loader path)
    let (value, ty) ← located g.init.span.start (Constant.evalAs g.init declared)
    let decl : Global :=
      { name := g.name, mangled := mangle home g.name [], ty, value
        isConst := g.isConst, isPub := g.isPub, home }
    return (.global decl, .global { g with decl := some decl })

/-- Where a fault in a declaration is reported. -/
def startOf : Value τ → Position
  | .function f => f.span.start
  | .global g => g.span.start

theorem declareValue_eq (path : ModulePath) (v : Value τ) :
    declareValue loader (path, v) = do
      let r ← header loader path v
      onModule path (startOf v) r.1.add
      return (path, r.2) := by
  cases v with
  | function f =>
    simp only [declareValue, declareFunction, header, bind_assoc, pure_bind]
    rfl
  | global g =>
    simp only [declareValue, declareGlobal, header, bind_assoc, pure_bind]
    rfl

theorem Finds.header {v : Value τ} (own : K (v.place path)) : Finds K (header loader path v) := by
  have finds := searches_finds loader K
  have home : Finds (σ := σ) K (homeOf path) := by
    refine .read (fun alike => ?_) fun n => .pure _
    rw [Declarations.dottedPath, Declarations.dottedPath, alike.decls.root]
  cases v with
  | function f =>
    refine home.bind fun home => ?_
    refine (Finds.mapM (fun p => ?_) _).bind fun params => ?_
    · exact Finds.bind (finds.typeNamed path _) fun ty => .pure _
    refine (Finds.mapM (finds.namedParameter path) _).bind fun named => ?_
    refine Finds.bind (finds.resultNamed path _) fun result => ?_
    have index : Finds (σ := σ) K (nextOverload path f.name params.length) := by
      refine .read (fun alike => ?_) fun n => .pure _
      rw [alike.decls.overloads own]
    exact index.bind fun index => .pure _
  | global g =>
    refine home.bind fun home => ?_
    refine (Finds.optionMapM (finds.typeNamed path) _).bind fun declared => ?_
    exact Finds.bind (finds.located _ _) fun r => .pure _

theorem ensures_header (path : ModulePath) (v : Value τ) :
    Ensures (header loader path v) fun r =>
      r.1.place path = v.place path ∧ r.2.roots = v.roots ∧ r.2.HasSignature := by
  cases v with
  | function f =>
    refine ensures_then fun home => ensures_then fun params => ensures_then fun named => ?_
    exact ensures_then fun result => ensures_then fun index => ensures_pure ⟨rfl, rfl, _, rfl⟩
  | global g =>
    refine ensures_then fun home => ensures_then fun declared => ?_
    exact ensures_then fun r => ensures_pure ⟨rfl, rfl, trivial⟩

theorem ensures_declareValue (e : PlacedValue τ) :
    Ensures (declareValue loader e) fun e' => e'.2.roots = e.2.roots ∧ e'.2.HasSignature := by
  rw [declareValue_eq e.1 e.2]
  refine ensures_bind (ensures_header e.1 e.2) fun r h => ?_
  exact ensures_then fun _ => ensures_pure h.2

theorem adds_declareValue (e : PlacedValue τ) : Moves Adds (declareValue loader e) := by
  obtain ⟨path, v⟩ := e
  have declares := declarations_stepwise loader
  have steps : Stepwise loader (declareValue loader (path, v)) := by
    cases v with
    | function f => exact moves_bind (declares.declareFunction path f) fun _ => moves_pure _
    | global g => exact moves_bind (declares.declareGlobal path g) fun _ => moves_pure _
  exact moves_adds steps

theorem gives_onModule {position : Position}
    {f : ModuleMembers → Except Fault ModuleMembers} {n n' : Names σ} :
    Gives (onModule path position f) n () n' ↔
      ∃ d, n.decls.change path f = .ok d ∧ n' = { n with decls := d } := by
  change Gives (located position (n.decls.change path f) >>= fun decls =>
    modify fun n => { n with decls }) n () n' ↔ _
  constructor
  · intro gives
    cases changed : n.decls.change path f with
    | error fault =>
      rw [changed] at gives
      cases gives
    | ok d =>
      rw [changed] at gives
      cases gives
      exact ⟨d, rfl, rfl⟩
  · rintro ⟨d, changed, rfl⟩
    rw [changed]
    rfl

/-- Declaring a value, if it imports no file, changes its place only, and does the same in all states
that are alike at that place. -/
theorem declareValue_follows {e e' : PlacedValue τ} {n n' m : Names σ}
    (alike : n.Alike K m) (own : K (e.2.place e.1)) (entered : n.decls.Entered e.1)
    (gives : Gives (declareValue loader e) n e' n') (quiet : n'.imports = n.imports) :
    n.Alike (· ≠ e.2.place e.1) n' ∧
      ∃ m', Gives (declareValue loader e) m e' m' ∧ n'.Alike K m' := by
  obtain ⟨path, v⟩ := e
  rw [declareValue_eq] at gives ⊢
  obtain ⟨r, n1, first, second⟩ := gives.of_bind
  obtain ⟨place, -⟩ := Ensures.of_gives (ensures_header path v) first
  have steps : Stepwise loader (do onModule path (startOf v) r.1.add; return (path, r.2) :
      Resolving σ (PlacedValue τ)) :=
    moves_bind (stepwise_onModule path _ _) fun _ => moves_pure _
  have finds : Finds K (header loader path v) := .header own
  obtain ⟨quiet1, -⟩ := imports_between finds.adds (moves_adds steps) first second quiet
  obtain ⟨⟨x, rfl⟩, x', first'⟩ := finds.follows alike first quiet1
  obtain ⟨_, n2, onto, last⟩ := second.of_bind
  obtain ⟨d, changed, rfl⟩ := gives_onModule.mp onto
  obtain ⟨rfl, rfl⟩ := Gives.pure_iff.mp last
  rw [← place] at own ⊢
  obtain ⟨d', changed', alike'⟩ := alike.decls.change own entered changed
  refine ⟨⟨rfl, rfl, Declarations.alike_change entered changed⟩,
    { m with externals := x', decls := d' }, ?_, alike.shared, alike.imports, alike'⟩
  have second' : Gives (onModule path (startOf v) r.1.add) { m with externals := x' } () _ :=
    gives_onModule.mpr ⟨d', changed', rfl⟩
  exact first'.run_bind.trans second'.run_bind

end Resolving

/-! ## Exchanging neighbours -/

/-- Two neighbours with different keys change places. -/
inductive Exchange {α κ : Type} (key : α → κ) : List α → List α → Prop
  | here {a b : α} (l : List α) : key a ≠ key b → Exchange key (a :: b :: l) (b :: a :: l)
  | there (a : α) {l l' : List α} : Exchange key l l' → Exchange key (a :: l) (a :: l')

theorem Exchange.perm {α κ : Type} {key : α → κ} {l l' : List α} (h : Exchange key l l') :
    l.Perm l' := by
  induction h with
  | here l _ => exact .swap _ _ l
  | there a _ ih => exact ih.cons a

theorem perm_of_exchanges {α κ : Type} {key : α → κ} {l l' : List α}
    (h : Relation.ReflTransGen (Exchange key) l l') : l.Perm l' := by
  induction h with
  | refl => exact .refl l
  | tail _ last ih => exact ih.trans last.perm

namespace Resolving

variable {loader : Loader σ} {l l' r : List (PlacedValue τ)} {n n' m : Names σ}

def placeOf (e : PlacedValue τ) : ItemPlace := e.2.place e.1

theorem adds_declareValues (l : List (PlacedValue τ)) : Moves Adds (l.mapM (declareValue loader)) :=
  moves_mapM adds_declareValue l

theorem Entered.alike {K : ItemPlace → Prop} (alike : n.Alike K n')
    (entered : ∀ e ∈ l, n.decls.Entered e.1) : ∀ e ∈ l, n'.decls.Entered e.1 :=
  fun e there k => (congrFun alike.decls.has _).trans (entered e there k)

theorem alike_declareValue {e e' : PlacedValue τ} (entered : n.decls.Entered e.1)
    (gives : Gives (declareValue loader e) n e' n') (quiet : n'.imports = n.imports) :
    n.Alike (· ≠ placeOf e) n' :=
  (declareValue_follows (K := fun _ => True) (.refl n) trivial entered gives quiet).1

/-- The two halves of a round that declares some values. -/
theorem gives_declare_cons {e : PlacedValue τ}
    (gives : Gives ((e :: l).mapM (declareValue loader)) n r n') (quiet : n'.imports = n.imports) :
    ∃ e' r' n1, r = e' :: r' ∧ Gives (declareValue loader e) n e' n1 ∧
      Gives (l.mapM (declareValue loader)) n1 r' n' ∧ n1.imports = n.imports ∧
      n'.imports = n1.imports := by
  rw [List.mapM_cons] at gives
  obtain ⟨e', n1, first, gives⟩ := gives.of_bind
  obtain ⟨r', n2, rest, gives⟩ := gives.of_bind
  obtain ⟨rfl, rfl⟩ := Gives.pure_iff.mp gives
  obtain ⟨quiet1, quiet2⟩ :=
    imports_between (adds_declareValue e) (adds_declareValues l) first rest quiet
  exact ⟨e', r', n1, rfl, first, rest, quiet1, quiet2⟩

theorem gives_cons {α β : Type} {f : α → Resolving σ β} {a : α} {as : List α} {b : β} {bs : List β}
    {n1 : Names σ} (first : Gives (f a) n b n1) (rest : Gives (as.mapM f) n1 bs n') :
    Gives ((a :: as).mapM f) n (b :: bs) n' := by
  rw [List.mapM_cons]
  refine first.run_bind.trans ?_
  exact rest.run_bind

/-- Values are declared in the same way in all states that are alike. -/
theorem declareValues_follows (alike : n.Alike (fun _ => True) m)
    (entered : ∀ e ∈ l, n.decls.Entered e.1)
    (gives : Gives (l.mapM (declareValue loader)) n r n') (quiet : n'.imports = n.imports) :
    ∃ m', Gives (l.mapM (declareValue loader)) m r m' ∧ n'.Alike (fun _ => True) m' := by
  induction l generalizing n m r with
  | nil =>
    obtain ⟨rfl, rfl⟩ := Gives.pure_iff.mp gives
    exact ⟨m, rfl, alike⟩
  | cons e l ih =>
    obtain ⟨e', r', n1, rfl, first, rest, quiet1, quiet2⟩ := gives_declare_cons gives quiet
    obtain ⟨own, others⟩ := List.forall_mem_cons.mp entered
    obtain ⟨kept, m1, first', alike1⟩ := declareValue_follows alike trivial own first quiet1
    obtain ⟨m', rest', alike'⟩ := ih alike1 (Entered.alike kept others) rest quiet2
    exact ⟨m', gives_cons first' rest', alike'⟩

/-- Two values with different places may be declared in either order. -/
theorem declareValues_swap {a b a' b' : PlacedValue τ} {n1 n2 : Names σ}
    (apart : placeOf a ≠ placeOf b) (alike : n.Alike (fun _ => True) m)
    (entered : n.decls.Entered a.1) (entered' : n.decls.Entered b.1)
    (first : Gives (declareValue loader a) n a' n1) (quiet1 : n1.imports = n.imports)
    (second : Gives (declareValue loader b) n1 b' n2) (quiet2 : n2.imports = n1.imports) :
    ∃ m1 m2, Gives (declareValue loader b) m b' m1 ∧ Gives (declareValue loader a) m1 a' m2 ∧
      n2.Alike (fun _ => True) m2 := by
  -- `n` and `n1` differ at the place of `a`, so `b` is declared in `m` as it was in `n1`
  have kept1 := alike_declareValue entered first quiet1
  have enteredB : n1.decls.Entered b.1 := fun k => (congrFun kept1.decls.has _).trans (entered' k)
  obtain ⟨kept2, m1, second', alike1⟩ := declareValue_follows (K := (· ≠ placeOf a))
    (kept1.symm.trans (alike.mono fun _ _ => trivial)) apart.symm enteredB second quiet2
  -- `m` and `m1` differ at the place of `b`, so `a` is declared in `m1` as it was in `n`
  have quietB : m1.imports = m.imports := by rw [alike1.imports, quiet2, quiet1, alike.imports]
  have enteredM : m.decls.Entered b.1 := fun k => (congrFun alike.decls.has _).trans (entered' k)
  have kept3 := alike_declareValue enteredM second' quietB
  obtain ⟨-, m2, first', alike2⟩ := declareValue_follows (K := (· ≠ placeOf b))
    ((alike.mono fun _ _ => trivial).trans kept3) apart entered first quiet1
  have enteredA : m1.decls.Entered a.1 := fun k =>
    (congrFun kept3.decls.has _).trans ((congrFun alike.decls.has _).trans (entered k))
  have quietA : m2.imports = m1.imports := by rw [alike2.imports, quiet1, quietB, alike.imports]
  have kept4 := alike_declareValue enteredA first' quietA
  -- every place is not that of `a` or not that of `b`
  have left : n2.decls.Alike (· ≠ placeOf a) m2.decls := alike1.decls.trans kept4.decls
  have right : n2.decls.Alike (· ≠ placeOf b) m2.decls := kept2.decls.symm.trans alike2.decls
  refine ⟨m1, m2, second', first', ?_, ?_, (left.or right).mono fun place _ => ?_⟩
  · exact (alike1.trans kept4).shared
  · exact (alike1.trans kept4).imports
  · by_contra neither
    rw [not_or, not_not, not_not] at neither
    exact apart (neither.1.symm.trans neither.2)

theorem declareValues_exchange (exchange : Exchange placeOf l l')
    (alike : n.Alike (fun _ => True) m) (entered : ∀ e ∈ l, n.decls.Entered e.1)
    (gives : Gives (l.mapM (declareValue loader)) n r n') (quiet : n'.imports = n.imports) :
    ∃ r' m', Gives (l'.mapM (declareValue loader)) m r' m' ∧ r.Perm r' ∧
      n'.Alike (fun _ => True) m' := by
  induction exchange generalizing n m r with
  | here l apart =>
    obtain ⟨a', ra, n1, rfl, first, gives, quiet1, quiet⟩ := gives_declare_cons gives quiet
    obtain ⟨b', rb, n2, rfl, second, rest, quiet2, quiet⟩ := gives_declare_cons gives quiet
    obtain ⟨enteredA, others⟩ := List.forall_mem_cons.mp entered
    obtain ⟨enteredB, -⟩ := List.forall_mem_cons.mp others
    obtain ⟨m1, m2, second', first', alike2⟩ :=
      declareValues_swap apart alike enteredA enteredB first quiet1 second quiet2
    have others1 := Entered.alike (alike_declareValue enteredA first quiet1) others
    obtain ⟨enteredB1, others1⟩ := List.forall_mem_cons.mp others1
    have others2 := Entered.alike (alike_declareValue enteredB1 second quiet2) others1
    obtain ⟨m', rest', alike'⟩ := declareValues_follows alike2 others2 rest quiet
    exact ⟨_, m', gives_cons second' (gives_cons first' rest'), .swap _ _ _, alike'⟩
  | there e _ ih =>
    obtain ⟨e', r', n1, rfl, first, rest, quiet1, quiet⟩ := gives_declare_cons gives quiet
    obtain ⟨own, others⟩ := List.forall_mem_cons.mp entered
    obtain ⟨kept, m1, first', alike1⟩ := declareValue_follows alike trivial own first quiet1
    obtain ⟨r'', m', rest', perm, alike'⟩ := ih alike1 (Entered.alike kept others) rest quiet
    exact ⟨_, m', gives_cons first' rest', perm.cons e', alike'⟩

/-- Values may be declared in any order in which those of one place stay as they are. -/
theorem declareValues_reorder (exchanges : Relation.ReflTransGen (Exchange placeOf) l l')
    (alike : n.Alike (fun _ => True) m) (entered : ∀ e ∈ l, n.decls.Entered e.1)
    (gives : Gives (l.mapM (declareValue loader)) n r n') (quiet : n'.imports = n.imports) :
    ∃ r' m', Gives (l'.mapM (declareValue loader)) m r' m' ∧ r.Perm r' ∧
      n'.Alike (fun _ => True) m' := by
  induction exchanges with
  | refl =>
    obtain ⟨m', gives', alike'⟩ := declareValues_follows alike entered gives quiet
    exact ⟨r, m', gives', .refl r, alike'⟩
  | @tail l1 l2 before last ih =>
    obtain ⟨r1, m1, gives1, perm1, alike1⟩ := ih
    have perm : l.Perm l1 := perm_of_exchanges before
    have quiet1 : m1.imports = m.imports := by rw [alike1.imports, quiet, alike.imports]
    have entered1 : ∀ e ∈ l1, m.decls.Entered e.1 :=
      Entered.alike alike fun e there => entered e (perm.mem_iff.mpr there)
    obtain ⟨r2, m2, gives2, perm2, alike2⟩ :=
      declareValues_exchange last (.refl m) entered1 gives1 quiet1
    exact ⟨r2, m2, gives2, perm1.trans perm2, alike1.trans alike2⟩

end Resolving

end EbLang
