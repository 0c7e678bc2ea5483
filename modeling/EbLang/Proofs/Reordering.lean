import EbLang.Proofs.Reordering.Bodies
import EbLang.Proofs.Merging
import EbLang.Proofs.Narrowing
import Mathlib.Logic.Equiv.Defs
import Mathlib.Tactic.SplitIfs

/-!
# Functions in another order

The items of a file may refer to one another in any order, so the order of its functions should not
matter.  It does where a function imports a file: a dotted name that stands for no module known so far
loads the file of that name, and from then on unqualified names may be those of its items.

If all files are imported before functions and globals are declared the order does not matter.  Moving
functions past items of other names (`Reordered`) leaves the rounds before that as they are, and
merging modules moves them in the same way.  After that functions and globals are declared and
resolved one by one, in an order that does not matter either.  The names of every function are bound to
the same, only the numbers of variables are others (`Module.SameNames`).
-/

namespace EbLang

open Relation

variable {σ τ α β : Type}
variable {loader : Loader σ} {m : Module}

/-! ## Items in another order -/

/-- The name of a function; other items have none. -/
def Item.key : Item τ → Option String
  | .function f => some f.name
  | .imports _ | .global _ | .struct _ | .submodule .. => none

/-- The functions of some modules stand in another order.  Functions of one name keep their order, and
so do all other items. -/
inductive Reordered : List (Item τ) → List (Item τ) → Prop
  | refl (is : List (Item τ)) : Reordered is is
  | trans {is is' is'' : List (Item τ)} : Reordered is is' → Reordered is' is'' → Reordered is is''
  | swap {i j : Item τ} (is : List (Item τ)) :
      i.key ≠ j.key → Reordered (i :: j :: is) (j :: i :: is)
  | cons (i : Item τ) {is is' : List (Item τ)} : Reordered is is' → Reordered (i :: is) (i :: is')
  | inside {name : String} {items items' : List (Item τ)} {isPub isExtend : Bool} {span : Span}
      (is : List (Item τ)) : Reordered items items' →
      Reordered (.submodule name items isPub isExtend span :: is)
        (.submodule name items' isPub isExtend span :: is)

theorem exists_function_of_apart {i j : Item τ} (apart : i.key ≠ j.key) :
    (∃ f, i = .function f) ∨ ∃ f, j = .function f := by
  cases i with
  | function f => exact .inl ⟨f, rfl⟩
  | imports | global | struct | submodule =>
    cases j with
    | function f => exact .inr ⟨f, rfl⟩
    | imports | global | struct | submodule => exact absurd rfl apart

namespace Reordered

variable {is is' js : List (Item τ)}

theorem symm (h : Reordered is is') : Reordered is' is := by
  induction h with
  | refl is => exact .refl is
  | trans _ _ ih ih' => exact ih'.trans ih
  | swap is apart => exact .swap is apart.symm
  | cons i _ ih => exact .cons i ih
  | inside is _ ih => exact .inside is ih

theorem append_right (h : Reordered is is') (js : List (Item τ)) :
    Reordered (is ++ js) (is' ++ js) := by
  induction h with
  | refl is => exact .refl _
  | trans _ _ ih ih' => exact ih.trans ih'
  | swap is apart => exact .swap _ apart
  | cons i _ ih => exact .cons i ih
  | inside is h _ => exact .inside _ h

theorem to_front {i : Item τ} (apart : ∀ j ∈ js, j.key ≠ i.key) :
    Reordered (js ++ i :: is) (i :: (js ++ is)) := by
  induction js with
  | nil => exact .refl _
  | cons j js ih =>
    rw [List.forall_mem_cons] at apart
    exact (Reordered.cons j (ih apart.2)).trans (.swap _ apart.1)

/-- Items may be put in any order that keeps the order of functions of one name and of other items. -/
theorem of_filter (h : ∀ key, is.filter (·.key == key) = is'.filter (·.key == key)) :
    Reordered is is' := by
  induction is' generalizing is with
  | nil =>
    cases is with
    | nil => exact .refl []
    | cons i is => simpa using h i.key
  | cons i is' ih =>
    have own : (i.key == i.key) = true := beq_self_eq_true i.key
    have first := h i.key
    rw [List.filter_cons, if_pos own] at first
    -- the first item with the key of `i` is `i`
    obtain ⟨js, rest, rfl, before, -, same⟩ := List.filter_eq_cons_iff.mp first
    have apart : ∀ j ∈ js, j.key ≠ i.key := fun j there => by simpa using before j there
    refine (to_front apart).trans (.cons i (ih fun key => ?_))
    by_cases own : i.key = key
    · subst own
      rw [List.filter_append, List.filter_eq_nil_iff.mpr before, same, List.nil_append]
    · have others := h key
      have other : ¬ (i.key == key) = true := by simpa using own
      rw [List.filter_append, List.filter_cons, if_neg other, List.filter_cons, if_neg other] at others
      rw [List.filter_append, others]

theorem append_left (js : List (Item τ)) (h : Reordered is is') :
    Reordered (js ++ is) (js ++ is') := by
  induction js with
  | nil => exact h
  | cons j js ih => exact .cons j ih

end Reordered

/-! ## Merging -/

namespace Merge

variable {is is' js : List (Item τ)} {i j : Item τ}

theorem repeats_of_apart (apart : i.key ≠ j.key) : repeats i j = false := by
  cases i with
  | submodule =>
    cases j with
    | submodule => exact absurd rfl apart
    | function | imports | global | struct => rfl
  | function | imports | global | struct => rfl

theorem blocks_reordered (h : Reordered is is') : blocks is' = blocks is := by
  induction h with
  | refl | inside => rfl
  | trans _ _ ih ih' => exact ih'.trans ih
  | swap is apart =>
    rcases exists_function_of_apart apart with ⟨f, rfl⟩ | ⟨f, rfl⟩ <;>
      simp only [blocks, List.filterMap_cons, block?]
  | cons i _ ih =>
    rw [blocks, List.filterMap_cons, ← blocks, ih]
    rfl

theorem inside_reordered (h : Reordered is is') (name : String) :
    Reordered (inside name is) (inside name is') := by
  induction h with
  | refl is => exact .refl _
  | trans _ _ ih ih' => exact ih.trans ih'
  | swap is apart =>
    rcases exists_function_of_apart apart with ⟨f, rfl⟩ | ⟨f, rfl⟩ <;> exact .refl _
  | cons i _ ih =>
    rw [inside_cons, inside_cons]
    exact ih.append_left _
  | @inside name' _ _ _ _ _ is h _ =>
    rw [inside_cons, inside_cons]
    refine .append_right ?_ _
    cases same : name' == name <;> simp only [isModule, same]
    · exact .refl _
    · exact h

theorem itemsAt_reordered (h : Reordered is is') (path : List String) :
    Reordered (itemsAt path is) (itemsAt path is') := by
  induction path generalizing is is' with
  | nil => exact h
  | cons name path ih => exact ih (inside_reordered h name)

theorem filter_reordered (h : Reordered is is') (i : Item τ) :
    Reordered (is.filter fun j => !repeats i j) (is'.filter fun j => !repeats i j) := by
  induction h with
  | refl is => exact .refl _
  | trans _ _ ih ih' => exact ih.trans ih'
  | swap is apart =>
    simp only [List.filter_cons]
    split_ifs
    · exact .swap _ apart
    all_goals exact .refl _
  | cons j _ ih =>
    simp only [List.filter_cons]
    split
    · exact .cons j ih
    · exact ih
  | @inside name items items' isPub isExtend span is h _ =>
    have same : repeats i (.submodule name items' isPub isExtend span) =
        repeats i (.submodule name items isPub isExtend span) := by
      cases i <;> rfl
    simp only [List.filter_cons, same]
    split
    · exact .inside _ h
    · exact .refl _

theorem firsts_reordered (h : Reordered is is') : Reordered (firsts is) (firsts is') := by
  induction h with
  | refl is => exact .refl _
  | trans _ _ ih ih' => exact ih.trans ih'
  | swap is apart =>
    simp only [firsts, List.filter_cons, repeats_of_apart apart, repeats_of_apart apart.symm,
      List.filter_filter, Bool.and_comm]
    exact .swap _ apart
  | cons i _ ih => exact .cons i (filter_reordered ih i)
  | inside is h _ => exact .inside _ h

theorem map_refill_reordered {f g : String → List (Item τ)} (h : Reordered is is')
    (inner : ∀ name, Reordered (f name) (g name)) :
    Reordered (is.map (refill f)) (is'.map (refill g)) := by
  have key (i : Item τ) : (refill g i).key = i.key := by
    cases i <;> rfl
  have same (is : List (Item τ)) : Reordered (is.map (refill f)) (is.map (refill g)) := by
    induction is with
    | nil => exact .refl []
    | cons i is ih =>
      cases i with
      | submodule name => exact (Reordered.inside _ (inner name)).trans (.cons _ ih)
      | function | imports | global | struct => exact .cons _ ih
  refine (same is).trans ?_
  induction h with
  | refl | inside => exact .refl _
  | trans _ _ ih ih' => exact ih.trans ih'
  | swap is apart => exact .swap _ (by rwa [key, key])
  | cons i _ ih => exact .cons _ ih

theorem gathered_reordered (n : Nat) (h : Reordered is is') :
    Reordered (gathered n is) (gathered n is') := by
  induction n generalizing is is' with
  | zero => exact map_refill_reordered (firsts_reordered h) (inside_reordered h)
  | succ n ih =>
    exact map_refill_reordered (firsts_reordered h) fun name => ih (inside_reordered h name)

theorem depths_eq (h : Reordered is is') : depths is' = depths is := by
  induction h with
  | refl is => rfl
  | trans _ _ ih ih' => exact ih'.trans ih
  | swap is _ => simp only [depths, Nat.max_left_comm]
  | cons i _ ih => simp only [depths, ih]
  | inside is _ ih => simp only [depths, depth, ih]

end Merge

theorem mergeModules_reordered {is is' js : List (Item τ)} (h : Reordered is is')
    (merged : mergeModules is = .ok js) : ∃ js', mergeModules is' = .ok js' ∧ Reordered js js' := by
  obtain ⟨introduced, rfl⟩ := (Merge.levels_eq_ok (Nat.le_refl _)).mp merged
  have introduced' (path : List String) : Merge.Introduced (Merge.itemsAt path is') := by
    rw [Merge.Introduced, Merge.blocks_reordered (Merge.itemsAt_reordered h path)]
    exact introduced path
  refine ⟨_, (Merge.levels_eq_ok (Nat.le_refl _)).mpr ⟨introduced', rfl⟩, ?_⟩
  rw [Merge.depths_eq h]
  exact Merge.gathered_reordered _ h

/-! ## Rounds -/

namespace Resolving

variable {loader : Loader σ} {is is' : List (Item τ)}
variable {n n' : Names σ}

theorem ensures_declareStructsOf_key (scope : ModulePath) (i : Item τ) :
    Ensures (declareStructsOf (σ := σ) scope i) fun i' => i'.key = i.key := by
  cases i with
  | struct s =>
    exact ensures_then fun _ => ensures_pure rfl
  | submodule name items isPub isExtend span =>
    exact ensures_then fun _ => ensures_then fun _ => ensures_pure rfl
  | function | imports | global =>
    exact ensures_pure rfl

variable {scope : ModulePath}
variable {i : Item τ}

theorem gives_declareStructs_cons {r : List (Item τ)} :
    Gives (declareStructs scope (i :: is)) n r n' ↔
      ∃ i' is' n1, r = i' :: is' ∧ Gives (declareStructsOf scope i) n i' n1 ∧
        Gives (declareStructs scope is) n1 is' n' := by
  constructor
  · intro gives
    obtain ⟨i', n1, first, gives⟩ := gives.of_bind
    obtain ⟨is', n2, rest, last⟩ := gives.of_bind
    obtain ⟨rfl, rfl⟩ := Gives.pure_iff.mp last
    exact ⟨i', is', n1, rfl, first, rest⟩
  · rintro ⟨i', is', n1, rfl, first, rest⟩
    exact first.run_bind.trans rest.run_bind

/-- A function has no part in the round that declares structs. -/
theorem gives_declareStructs_function {f : FunctionItem τ} :
    Gives (declareStructsOf scope (.function f)) n i n' ↔
      i = .function f ∧ n' = n := by
  exact Gives.pure_iff

theorem declareStructs_reordered (h : Reordered is is') :
    ∀ {scope : ModulePath} {n n' : Names σ} {r : List (Item τ)},
      Gives (declareStructs scope is) n r n' →
      ∃ r', Gives (declareStructs scope is') n r' n' ∧ Reordered r r' := by
  induction h with
  | refl is => exact fun gives => ⟨_, gives, .refl _⟩
  | trans _ _ ih ih' =>
    intro scope n n' r gives
    obtain ⟨r1, gives1, h1⟩ := ih gives
    obtain ⟨r2, gives2, h2⟩ := ih' gives1
    exact ⟨r2, gives2, h1.trans h2⟩
  | cons i _ ih =>
    intro scope n n' r gives
    obtain ⟨i', is', n1, rfl, first, rest⟩ := gives_declareStructs_cons.mp gives
    obtain ⟨r', rest', h'⟩ := ih rest
    exact ⟨_, gives_declareStructs_cons.mpr ⟨i', r', n1, rfl, first, rest'⟩, .cons i' h'⟩
  | inside is _ ih =>
    intro scope n n' r gives
    obtain ⟨i', is', n1, rfl, first, rest⟩ := gives_declareStructs_cons.mp gives
    obtain ⟨_, n2, enters, first⟩ := first.of_bind
    obtain ⟨items, n3, inner, last⟩ := first.of_bind
    obtain ⟨rfl, rfl⟩ := Gives.pure_iff.mp last
    obtain ⟨items', inner', h'⟩ := ih inner
    refine ⟨_, gives_declareStructs_cons.mpr ⟨_, is', n1, rfl, ?_, rest⟩, .inside is' h'⟩
    exact enters.run_bind.trans inner'.run_bind
  | @swap i j is apart =>
    intro scope n n' r gives
    obtain ⟨i', js', n1, rfl, first, gives⟩ := gives_declareStructs_cons.mp gives
    obtain ⟨j', is', n2, rfl, second, rest⟩ := gives_declareStructs_cons.mp gives
    have keys : i'.key ≠ j'.key := by
      rwa [Ensures.of_gives (ensures_declareStructsOf_key scope i) first,
        Ensures.of_gives (ensures_declareStructsOf_key scope j) second]
    refine ⟨j' :: i' :: is', ?_, .swap is' keys⟩
    -- one of the two is a function, which does nothing here
    rcases exists_function_of_apart apart with ⟨f, rfl⟩ | ⟨f, rfl⟩
    · obtain ⟨rfl, rfl⟩ := gives_declareStructs_function.mp first
      exact gives_declareStructs_cons.mpr ⟨j', _, n2, rfl, second,
        gives_declareStructs_cons.mpr ⟨_, is', n2, rfl, gives_declareStructs_function.mpr ⟨rfl, rfl⟩,
          rest⟩⟩
    · obtain ⟨rfl, rfl⟩ := gives_declareStructs_function.mp second
      exact gives_declareStructs_cons.mpr ⟨_, _, n, rfl,
        gives_declareStructs_function.mpr ⟨rfl, rfl⟩,
        gives_declareStructs_cons.mpr ⟨i', is', _, rfl, first, rest⟩⟩

theorem declareImports_reordered (h : Reordered is is') :
    declareImports loader is' = declareImports loader is := by
  induction h with
  | refl is => rfl
  | trans _ _ ih ih' => exact ih'.trans ih
  | cons i _ ih => rw [declareImports, declareImports, ih]
  | inside is _ ih => rw [declareImports, declareImports, declareImportsOf, declareImportsOf, ih]
  | @swap i j is apart =>
    simp only [declareImports]
    rcases exists_function_of_apart apart with ⟨f, rfl⟩ | ⟨f, rfl⟩ <;>
      simp only [declareImportsOf, pure_bind]

theorem declareAllMembers_reordered (h : Reordered is is') :
    ∀ scope, declareAllMembers loader scope is' = declareAllMembers loader scope is := by
  induction h with
  | refl is => exact fun _ => rfl
  | trans _ _ ih ih' => exact fun scope => (ih' scope).trans (ih scope)
  | cons i _ ih => exact fun scope => by rw [declareAllMembers, declareAllMembers, ih]
  | inside is _ ih =>
    intro scope
    rw [declareAllMembers, declareAllMembers, declareMembersOf, declareMembersOf, ih]
  | @swap i j is apart =>
    intro scope
    simp only [declareAllMembers]
    rcases exists_function_of_apart apart with ⟨f, rfl⟩ | ⟨f, rfl⟩ <;>
      simp only [declareMembersOf, pure_bind]

theorem opening_reordered {is is' r : List (Item Atom)} (h : Reordered is is')
    (gives : Gives (opening loader is) n r n') :
    ∃ r', Gives (opening loader is') n r' n' ∧ Reordered r r' := by
  obtain ⟨r1, n1, structs, gives⟩ := gives.of_bind
  obtain ⟨_, n2, imports, gives⟩ := gives.of_bind
  obtain ⟨_, n3, members, last⟩ := gives.of_bind
  obtain ⟨rfl, rfl⟩ := Gives.pure_iff.mp last
  obtain ⟨r', structs', h'⟩ := declareStructs_reordered h structs
  refine ⟨r', ?_, h'⟩
  rw [← declareImports_reordered h'] at imports
  rw [← declareAllMembers_reordered h'] at members
  exact structs'.run_bind.trans (imports.run_bind.trans members.run_bind)

/-! ## Functions and globals -/

section Values

variable {l l' : List (PlacedValue τ)} {scope : ModulePath}
variable {κ : Type} (l0 : List α)
variable {key : α → κ}

theorem exchanges_append_left {l l' : List α}
    (h : ReflTransGen (Exchange key) l l') : ReflTransGen (Exchange key) (l0 ++ l) (l0 ++ l') := by
  induction l0 with
  | nil => exact h
  | cons a l0 ih => exact ih.lift (a :: ·) fun _ _ => .there a

theorem exchanges_append_right {l l' : List α}
    (h : ReflTransGen (Exchange key) l l') : ReflTransGen (Exchange key) (l ++ l0) (l' ++ l0) := by
  refine h.lift (· ++ l0) fun l l' exchange => ?_
  induction exchange with
  | here l apart => exact .here _ apart
  | there a _ ih => exact .there a ih

/-- An element changes places with all of a list. -/
theorem exchanges_past {a : α} {l : List α} (apart : ∀ b ∈ l, key b ≠ key a) :
    ReflTransGen (Exchange key) (a :: (l ++ l0)) (l ++ a :: l0) ∧
      ReflTransGen (Exchange key) (l ++ a :: l0) (a :: (l ++ l0)) := by
  induction l with
  | nil => exact ⟨.refl, .refl⟩
  | cons b l ih =>
    obtain ⟨first, others⟩ := List.forall_mem_cons.mp apart
    obtain ⟨forth, back⟩ := ih others
    refine ⟨.head (.here _ first.symm) (forth.lift (b :: ·) fun _ _ => .there b), ?_⟩
    exact (back.lift (b :: ·) fun _ _ => .there b).tail (.here _ first)

mutual

theorem prefix_of_mem_values : ∀ (scope : ModulePath) (i : Item τ),
    ∀ e ∈ i.values scope, scope <+: e.1
  | scope, .function f, e, there | scope, .global f, e, there => by
    rw [Item.values, List.mem_singleton] at there
    exact there ▸ List.prefix_rfl
  | scope, .submodule name items _ _ _, e, there => by
    exact (List.prefix_append scope [name]).trans (prefix_of_mem_valuesOf _ items e there)
  | scope, .imports _, e, there | scope, .struct _, e, there => by
    cases there

theorem prefix_of_mem_valuesOf : ∀ (scope : ModulePath) (is : List (Item τ)),
    ∀ e ∈ valuesOf scope is, scope <+: e.1
  | scope, [], e, there => by
    cases there
  | scope, i :: is, e, there => by
    rw [valuesOf, List.mem_append] at there
    exact there.elim (prefix_of_mem_values scope i e) (prefix_of_mem_valuesOf scope is e)

end

/-- A function and what is declared by another item have different places. -/
theorem placeOf_values_ne {f : FunctionItem τ} {i : Item τ} (apart : i.key ≠ some f.name) :
    ∀ e ∈ i.values scope, placeOf e ≠ placeOf (scope, Value.function f) := by
  intro e there same
  cases i with
  | function g =>
    rw [Item.values, List.mem_singleton] at there
    subst there
    exact apart (congrArg (Option.map Prod.snd) same)
  | global g =>
    rw [Item.values, List.mem_singleton] at there
    subst there
    cases same
  | submodule name items isPub isExtend span =>
    have inner := (prefix_of_mem_valuesOf _ items e there).length_le
    obtain ⟨path, v⟩ := e
    cases v with
    | global g => cases same
    | function g =>
      cases congrArg (Option.map Prod.fst) same
      rw [List.length_append] at inner
      exact Nat.not_succ_le_self _ inner
  | imports | struct =>
    cases there

theorem exchanges_of_reordered (h : Reordered is is') :
    ∀ scope, ReflTransGen (Exchange placeOf) (valuesOf scope is) (valuesOf scope is') := by
  induction h with
  | refl is => exact fun _ => .refl
  | trans _ _ ih ih' => exact fun scope => (ih scope).trans (ih' scope)
  | cons i _ ih =>
    intro scope
    exact exchanges_append_left _ (ih scope)
  | inside is _ ih =>
    intro scope
    exact exchanges_append_right _ (ih _)
  | @swap i j is apart =>
    intro scope
    rcases exists_function_of_apart apart with ⟨f, rfl⟩ | ⟨f, rfl⟩
    · exact (exchanges_past _ (placeOf_values_ne apart.symm)).1
    · exact (exchanges_past _ (placeOf_values_ne apart)).2

end Values

/-! ## Modules that are there -/

mutual

theorem entered_declareStructs (loader : Loader σ) :
    ∀ (scope : ModulePath) (is : List (Item τ)) {n n' : Names σ} {r : List (Item τ)},
      n.decls.Entered scope → Gives (declareStructs scope is) n r n' →
      ∀ e ∈ valuesOf scope r, n'.decls.Entered e.1
  | scope, [], n, n', r, _, gives => by
    obtain ⟨rfl, rfl⟩ := Gives.pure_iff.mp gives
    exact List.forall_mem_nil _
  | scope, i :: is, n, n', r, entered, gives => by
    obtain ⟨i', is', n1, rfl, first, rest⟩ := gives_declareStructs_cons.mp gives
    have declares := declarations_stepwise loader
    have steps : Stepwise loader (declareStructsOf scope i) := declares.declareStructsOf scope i
    have steps' : Stepwise loader (declareStructs scope is) := declares.declareStructs scope is
    have entered1 : n1.decls.Entered scope := fun k => has_of_stepwise steps first (entered k)
    refine List.forall_mem_append.mpr ⟨fun e there k => has_of_stepwise steps' rest ?_, ?_⟩
    · exact entered_declareStructsOf loader scope i entered first e there k
    · exact entered_declareStructs loader scope is entered1 rest

theorem entered_declareStructsOf (loader : Loader σ) :
    ∀ (scope : ModulePath) (i : Item τ) {n n' : Names σ} {i' : Item τ},
      n.decls.Entered scope → Gives (declareStructsOf scope i) n i' n' →
      ∀ e ∈ i'.values scope, n'.decls.Entered e.1
  | scope, .submodule name items isPub isExtend span, n, n', i', entered, gives => by
    obtain ⟨_, n1, enters, gives⟩ := gives.of_bind
    cases enters
    obtain ⟨items', n2, inner, last⟩ := gives.of_bind
    obtain ⟨rfl, rfl⟩ := Gives.pure_iff.mp last
    exact entered_declareStructs loader _ items (entered_enter _ _) inner
  | scope, .struct s, n, n', i', entered, gives => by
    obtain ⟨s', n1, _, last⟩ := gives.of_bind
    obtain ⟨rfl, rfl⟩ := Gives.pure_iff.mp last
    exact List.forall_mem_nil _
  | scope, .function f, n, n', i', entered, gives | scope, .global f, n, n', i', entered, gives => by
    obtain ⟨rfl, rfl⟩ := Gives.pure_iff.mp gives
    exact List.forall_mem_singleton.mpr entered
  | scope, .imports i, n, n', i', entered, gives => by
    obtain ⟨rfl, rfl⟩ := Gives.pure_iff.mp gives
    exact List.forall_mem_nil _

end

variable (items : List (Item Atom))

theorem keep_opening (s : Scopes) :
    Keep (fun n => n.scopes = s) (opening loader items) (opening loader items) := by
  have keeps := declarations_scopes s loader
  refine agree_bind (keeps.declareStructs [] items) fun items => ?_
  refine agree_bind (keeps.declareImports items) fun _ => ?_
  exact agree_bind (keeps.declareAllMembers [] items) fun _ => keep_pure _

theorem ensures_opening_functions :
    Ensures (opening loader items) fun items' => functionsOf items' = functionsOf items := by
  refine ensures_bind (ensures_declareStructs_functions [] items) fun items' same => ?_
  exact ensures_then fun _ => ensures_then fun _ => ensures_pure same

theorem entered_opening {is r : List (Item Atom)} (entered : n.decls.Entered [])
    (gives : Gives (opening loader is) n r n') : ∀ e ∈ valuesOf [] r, n'.decls.Entered e.1 := by
  obtain ⟨r1, n1, structs, rest⟩ := gives.of_bind
  have steps : Stepwise loader (do
      declareImports loader r1
      declareAllMembers loader [] r1
      return r1) :=
    moves_bind ((declarations_stepwise loader).declareImports r1) fun _ =>
      moves_bind ((declarations_stepwise loader).declareAllMembers [] r1) fun _ => moves_pure _
  obtain ⟨_, n2, _, last⟩ := rest.of_bind
  obtain ⟨_, n3, _, last⟩ := last.of_bind
  obtain ⟨rfl, rfl⟩ := Gives.pure_iff.mp last
  intro e there k
  exact has_of_stepwise steps rest (entered_declareStructs loader [] is entered structs e there k)

end Resolving

/-! ## Numbers -/

/-- Two runs of numbers change places, `a` numbers from `k` on and the next `b`. -/
def moveRun (k a b i : Nat) : Nat :=
  if i < k then i else if i < k + a then i + b else if i < k + a + b then i - a else i

/-- Two runs of numbers change places. -/
def swapRuns (k a b : Nat) : Equiv.Perm Nat where
  toFun := moveRun k a b
  invFun := moveRun k b a
  left_inv i := by
    simp only [moveRun]
    split_ifs <;> omega
  right_inv i := by
    simp only [moveRun]
    split_ifs <;> omega

namespace Resolving

/-- A value with its module and the numbers of its variables changed. -/
def renumberPlaced (ρ : Nat → Nat) (e : PlacedValue Atom) : PlacedValue Atom := (e.1, e.2.renumber ρ)

variable {ps : List Part}

theorem placed_renumber
    (natural : ∀ p ∈ ps, Natural renumberPlaced p.scopes.vars.length p.made) {π : Nat → Nat} {k : Nat}
    (fixed : ∀ i, k ≤ i → π i = i) : (placed k ps).map (renumberPlaced π) = placed k ps := by
  induction ps generalizing k with
  | nil => rfl
  | cons p ps ih =>
    obtain ⟨own, others⟩ := List.forall_mem_cons.mp natural
    rw [placed, List.map_cons, ih others fun i le => fixed i (by omega)]
    exact congrArg (· :: _) (own π _ _ fun i _ => fixed _ (Nat.le_add_right _ _))

theorem placed_comp
    (natural : ∀ p ∈ ps, Natural renumberPlaced p.scopes.vars.length p.made) (π π' : Nat → Nat)
    (k : Nat) : (placed k ps).map (renumberPlaced (π' ∘ π)) =
      ((placed k ps).map (renumberPlaced π)).map (renumberPlaced π') := by
  induction ps generalizing k with
  | nil => rfl
  | cons p ps ih =>
    obtain ⟨own, others⟩ := List.forall_mem_cons.mp natural
    simp only [placed, List.map_cons, ih others]
    rw [own π _ (fun i => π (k + i)) fun _ _ => rfl,
      own π' _ (fun i => π' (π (k + i))) fun _ _ => rfl,
      own (π' ∘ π) _ (fun i => π' (π (k + i))) fun _ _ => rfl]

/-- If parts change places then the numbers of their variables do. -/
theorem exists_renumbering {ps' : List Part} (perm : ps.Perm ps') :
    ∀ base : List Variable, (∀ p ∈ ps, Natural renumberPlaced p.scopes.vars.length p.made) →
      ∃ π : Equiv.Perm Nat, (∀ i < base.length, π i = i) ∧
        (∀ i, (base ++ ownVars ps')[π i]? = (base ++ ownVars ps)[i]?) ∧
        ((placed base.length ps).map (renumberPlaced π)).Perm (placed base.length ps') := by
  induction perm with
  | nil => exact fun base _ => ⟨.refl Nat, fun _ _ => rfl, fun _ => rfl, .refl _⟩
  | @cons p ps ps' _ ih =>
    intro base natural
    obtain ⟨own, others⟩ := List.forall_mem_cons.mp natural
    obtain ⟨π, fixed, vars, perm⟩ := ih (base ++ p.scopes.vars) others
    rw [List.length_append] at fixed perm
    refine ⟨π, fun i lt => fixed i (by omega), fun i => ?_, ?_⟩
    · have same := vars i
      rwa [List.append_assoc, List.append_assoc] at same
    · rw [placed, placed, List.map_cons]
      rw [own π _ _ fun i lt => fixed _ (by omega)]
      exact perm.cons _
  | @swap p q ps =>
    intro base natural
    obtain ⟨ownQ, natural⟩ := List.forall_mem_cons.mp natural
    obtain ⟨ownP, others⟩ := List.forall_mem_cons.mp natural
    generalize size : q.scopes.vars.length = a at ownQ
    generalize size' : p.scopes.vars.length = b at ownP
    have moved (i : Nat) : swapRuns base.length a b i = moveRun base.length a b i := rfl
    refine ⟨swapRuns base.length a b, fun i lt => ?_, fun i => ?_, ?_⟩
    · rw [moved, moveRun, if_pos lt]
    · rw [moved, moveRun]
      simp only [ownVars, List.flatMap_cons, List.getElem?_append, size, size']
      grind
    · have up : ∀ i < a, swapRuns base.length a b (base.length + i) = base.length + b + i := by
        intro i lt
        rw [moved, moveRun]
        grind
      have down : ∀ i < b, swapRuns base.length a b (base.length + a + i) = base.length + i := by
        intro i lt
        rw [moved, moveRun]
        grind
      have still : ∀ i, base.length + a + b ≤ i → swapRuns base.length a b i = i := by
        intro i le
        rw [moved, moveRun]
        grind
      simp only [placed, List.map_cons, size, size']
      rw [ownQ _ _ _ up, ownP _ _ _ down, placed_renumber others still, Nat.add_right_comm]
      exact .swap _ _ _
  | trans first _ ih ih' =>
    intro base natural
    obtain ⟨π, fixed, vars, perm⟩ := ih base natural
    obtain ⟨π', fixed', vars', perm'⟩ := ih' base fun p there => natural p (first.mem_iff.mpr there)
    refine ⟨π.trans π', fun i lt => ?_, fun i => (vars' (π i)).trans (vars i), ?_⟩
    · rw [Equiv.trans_apply, fixed i lt, fixed' i lt]
    · have both := placed_comp natural π π' base.length
      change ((placed base.length _).map (renumberPlaced (π' ∘ π))).Perm _
      rw [both]
      exact (perm.map _).trans perm'

/-! ## Files -/

theorem roots_valuesOf_sublist :
    ∀ fs : List (FunctionItem τ), (fs.map fun f => f.body.id).Sublist
      (fs.flatMap fun f => f.body.numbers)
  | [] => .slnil
  | f :: fs => by
    rw [List.map_cons, List.flatMap_cons]
    cases body : f.body with
    | mk id ss span =>
      exact .cons_cons _ ((roots_valuesOf_sublist fs).trans (List.sublist_append_right _ _))

mutual

theorem roots_values : ∀ (scope : ModulePath) (i : Item τ),
    ((i.values scope).flatMap fun e => e.2.roots) = i.functions.map fun f => f.body.id
  | scope, .submodule name items _ _ _ => by
    exact roots_valuesOf _ items
  | scope, .function _ | scope, .global _ | scope, .imports _ | scope, .struct _ => by
    rfl

theorem roots_valuesOf : ∀ (scope : ModulePath) (is : List (Item τ)),
    ((valuesOf scope is).flatMap fun e => e.2.roots) = (functionsOf is).map fun f => f.body.id
  | scope, [] => by
    rfl
  | scope, i :: is => by
    rw [valuesOf, functionsOf, List.flatMap_append, List.map_append, roots_values scope i,
      roots_valuesOf scope is]

end

theorem gives_of_map {f : α → β} {x : Resolving σ α} {n n' : Names σ} {b : β}
    (gives : Gives (f <$> x) n b n') : ∃ a, Gives x n a n' ∧ f a = b := by
  obtain ⟨a, n1, first, last⟩ := gives.of_bind
  obtain ⟨rfl, rfl⟩ := Gives.pure_iff.mp last
  exact ⟨a, first, rfl⟩

/-- What is known of a round over reordered items that imports nothing. -/
theorem values_reordered {is is' r : List (Item Atom)} {n n1 n' : Names σ} (h : Reordered is is')
    (entered : ∀ e ∈ valuesOf [] is, n.decls.Entered e.1) (start : n.scopes = {})
    (nodup : (itemNumbers is).Nodup) {vs : List (Item Atom)}
    (declare : Gives (declareValues loader [] is) n vs n1)
    (bind : Gives (resolveItems loader [] vs) n1 r n') (quiet : n'.imports = n.imports) :
    ∃ vs' r' m1 m', Gives (declareValues loader [] is') n vs' m1 ∧
      Gives (resolveItems loader [] vs') m1 r' m' ∧ n'.Alike (fun _ => True) m' ∧
      ∃ π : Equiv.Perm Nat, (∀ id, m'.scopes.var? (π id) = n'.scopes.var? id) ∧
        ((valuesOf [] r).map (renumberPlaced π)).Perm (valuesOf [] r') := by
  obtain ⟨quiet1, quiet2⟩ := imports_between
    (moves_adds ((declarations_stepwise loader).declareValues [] is))
    (moves_adds ((bodies_stepwise loader).resolveItems [] vs)) declare bind quiet
  -- the functions and globals are declared in the other order
  have flat := declare.map (valuesOf [])
  rw [(isRound_declareValues loader).values_all] at flat
  obtain ⟨l', m1, flat', perm, alike⟩ :=
    declareValues_reorder (exchanges_of_reordered h []) (.refl n) entered flat quiet1
  have unflat := flat'
  rw [← (isRound_declareValues loader).values_all] at unflat
  obtain ⟨vs', declare', rfl⟩ := gives_of_map unflat
  -- the blocks of the functions are different, and none has been entered
  have signed (e : PlacedValue Atom) : Ensures (declareValue loader e) fun e' => e'.2.HasSignature :=
    ensures_imp (ensures_declareValue e) fun _ h => h.2
  have declared : ∀ e ∈ valuesOf [] vs, e.2.HasSignature :=
    (Ensures.of_gives (ensures_mapM_forall fun e _ => signed e) flat).2
  have keeps := declarations_scopes {} loader
  have scopes : n1.scopes = {} := (keeps.declareValues [] is).leads start vs n1 declare
  have scopes' : m1.scopes = {} := (keeps.declareValues [] is').leads start vs' m1 declare'
  have distinct : ((valuesOf [] vs).flatMap fun e => e.2.roots).Nodup := by
    have functions := Ensures.of_gives (ensures_declareValues_functions loader [] is) declare
    have numbers := numbers_of_declared (functions.imp fun _ _ h => h.1)
    rw [roots_valuesOf]
    refine (roots_valuesOf_sublist _).nodup ?_
    change (itemNumbers vs).Nodup
    rw [itemNumbers, numbers]
    exact nodup
  have fresh : Fresh n1.scopes (valuesOf [] vs) := by
    rw [scopes]
    exact ⟨rfl, distinct, fun _ _ _ _ _ _ => rfl⟩
  have fresh' : Fresh m1.scopes (valuesOf [] vs') := by
    rw [scopes']
    exact ⟨rfl, (perm.flatMap_right _).nodup_iff.mp distinct, fun _ _ _ _ _ _ => rfl⟩
  -- so what becomes of a function is the same in both orders, up to the numbers of its variables
  have bodies := bind.map (valuesOf [])
  rw [(isRound_resolveItems loader).values_all] at bodies
  obtain ⟨ps, parts⟩ := exists_parts (.refl n1) declared fresh bodies quiet2
  obtain ⟨n2, bodies2, alike2, vars⟩ := gives_parts (.refl n1) parts fresh
  obtain ⟨ps', parts', permParts⟩ := List.perm_comp_forall₂ perm.symm parts
  obtain ⟨m', bodies', alike', vars'⟩ := gives_parts alike parts' fresh'
  rw [← (isRound_resolveItems loader).values_all] at bodies'
  obtain ⟨r', bind', values'⟩ := gives_of_map bodies'
  have same : (_, _) = (_, _) := bodies.symm.trans bodies2
  injection same with values state
  injection values with values
  subst state
  have natural : ∀ p ∈ ps, Natural renumberPlaced p.scopes.vars.length p.made :=
    forall_of_forall₂ (parts.imp fun _ _ part => part.natural)
  obtain ⟨π, -, renumbered, permValues⟩ := exists_renumbering permParts.symm [] natural
  refine ⟨vs', r', m1, m', declare', bind', alike2.symm.trans alike', π, fun id => ?_, ?_⟩
  · rw [Scopes.var?, Scopes.var?, vars, vars', scopes, scopes']
    exact renumbered id
  · rw [values, values', scopes, scopes']
    exact permValues

end Resolving

/-! ## Resolved files -/

namespace FileTree

variable {loader : Loader σ} {t t' : FileTree Atom} {m : Module} {shared shared' : Shared σ}

/-- A file is resolved to a module, and all that this imports is imported before the functions and
globals of the file are declared. -/
structure ResolvesEarly (loader : Loader σ) (t : FileTree Atom) (shared : Shared σ) (m : Module)
    (shared' : Shared σ) : Prop where
  gives : Gives (t.resolve loader) shared m shared'
  early : ∃ items items' n, mergeModules t.items = .ok items ∧
    Gives (Resolving.opening loader items) { shared, decls := .new t.name } items' n ∧
    m.imports = n.imports

end FileTree

/-- The functions of two modules have the same names bound to the same.  The numbers of their variables
may differ, but variables with corresponding numbers do not. -/
def Module.SameNames (m m' : Module) : Prop :=
  m'.imports = m.imports ∧
    ∃ π : Equiv.Perm Nat, (∀ id, m'.scopes.var? (π id) = m.scopes.var? id) ∧
      ((valuesOf [] m.tree.items).map fun e => (e.1, e.2.renumber π)).Perm
        (valuesOf [] m'.tree.items)

theorem FileTree.ResolvesEarly.reordered {t t' : FileTree Atom}
    {shared shared' : Shared σ} (resolves : t.ResolvesEarly loader shared m shared')
    (name : t'.name = t.name) (h : Reordered t.items t'.items) (nodup : (itemNumbers t.items).Nodup) :
    ∃ m', t'.ResolvesEarly loader shared m' shared' ∧ m.SameNames m' := by
  obtain ⟨items, r, n, merged, file, rfl, rfl⟩ := gives_resolve.mp resolves.gives
  obtain ⟨items1, is, n1, merged1, opened1, early⟩ := resolves.early
  cases merged.symm.trans merged1
  obtain ⟨items', merged', reordered⟩ := mergeModules_reordered h merged
  rw [Resolving.file_eq] at file
  obtain ⟨is1, n2, opened, gives⟩ := file.of_bind
  cases opened1.symm.trans opened
  obtain ⟨vs, n3, declare, bind⟩ := gives.of_bind
  obtain ⟨is', opened', reordered'⟩ := Resolving.opening_reordered reordered opened
  have entered := Resolving.entered_opening (fun k => by rw [List.take_nil]; rfl) opened
  have start : n1.scopes = {} := (Resolving.keep_opening items {}).leads rfl is n1 opened
  have functions := (Merge.ensures_levels _ _ items merged).functions
  have nodup' : (itemNumbers is).Nodup := by
    rw [itemNumbers, Ensures.of_gives (Resolving.ensures_opening_functions items) opened]
    exact (functions.flatMap_right _).nodup_iff.mpr nodup
  obtain ⟨vs', r', m1, m', declare', bind', alike, same⟩ :=
    Resolving.values_reordered reordered' entered start nodup' declare bind early
  have file' : Gives (Resolving.file loader items') { shared, decls := .new t'.name } r' m' := by
    rw [Resolving.file_eq, name]
    exact opened'.run_bind.trans (declare'.run_bind.trans bind')
  rw [← name] at opened'
  refine ⟨_, ⟨gives_resolve.mpr ⟨items', r', m', merged', file', rfl, alike.shared.symm⟩,
    items', is', n1, merged', opened', alike.imports.trans early⟩, alike.imports, same⟩

theorem functionsOf_reordered {is is' : List (Item τ)} (h : Reordered is is') :
    (functionsOf is).Perm (functionsOf is') := by
  induction h with
  | refl is => exact .refl _
  | trans _ _ ih ih' => exact ih.trans ih'
  | swap is _ =>
    simp only [functionsOf, ← List.append_assoc]
    exact List.perm_append_comm.append_right _
  | cons i _ ih =>
    exact ih.append_left _
  | inside is _ ih =>
    exact ih.append_right _

/-- The order of functions does not matter if all files are imported before functions and globals are
declared: either none of the orders can be resolved in this way or all can, and then the names of every
function are bound to the same. -/
theorem resolve_reordered (loader : Loader σ) :
    (∀ (t t' : FileTree Atom) (shared : Shared σ), t'.name = t.name → Reordered t.items t'.items →
      (itemNumbers t.items).Nodup →
      ((∃ m shared', t.ResolvesEarly loader shared m shared') ↔
        ∃ m shared', t'.ResolvesEarly loader shared m shared') ∧
      ∀ m m' shared1 shared2, t.ResolvesEarly loader shared m shared1 →
        t'.ResolvesEarly loader shared m' shared2 → shared2 = shared1 ∧ m.SameNames m') ∧
    (∀ is is' : List (Item Atom),
      (∀ key, is.filter (·.key == key) = is'.filter (·.key == key)) → Reordered is is') ∧
    ∀ (l : Lexed) (name : String),
      Ensures (readTree l name) fun t => (itemNumbers t.items).Nodup := by
  refine ⟨fun t t' shared name h nodup => ⟨⟨?_, ?_⟩, ?_⟩, fun _ _ => .of_filter,
    ensures_readTree_nodup⟩
  · rintro ⟨m, shared', resolves⟩
    obtain ⟨m', resolves', -⟩ := resolves.reordered name h nodup
    exact ⟨m', shared', resolves'⟩
  · rintro ⟨m', shared', resolves'⟩
    have nodup' : (itemNumbers t'.items).Nodup :=
      ((functionsOf_reordered h).flatMap_right _).nodup_iff.mp nodup
    obtain ⟨m, resolves, -⟩ := resolves'.reordered name.symm h.symm nodup'
    exact ⟨m, shared', resolves⟩
  · intro m m' shared1 shared2 resolves resolves'
    obtain ⟨m1, resolves1, same⟩ := resolves.reordered name h nodup
    cases resolves1.gives.symm.trans resolves'.gives
    exact ⟨rfl, same⟩

def FileTree.resolved? (loader : Loader σ) (t : FileTree Atom) (shared : Shared σ) : Option Module :=
  ((t.resolve loader).run.run shared).1.toOption

variable {t : FileTree Atom}

theorem FileTree.resolved?_eq_some {shared : Shared σ} :
    t.resolved? loader shared = some m ↔ ∃ shared', Gives (t.resolve loader) shared m shared' := by
  rw [resolved?]
  cases run : (t.resolve loader).run.run shared with
  | mk r shared1 =>
    cases r with
    | error e =>
      constructor
      · intro h
        cases h
      · rintro ⟨shared', h⟩
        cases run.symm.trans h
    | ok m' =>
      constructor
      · intro h
        cases h
        exact ⟨shared1, run⟩
      · rintro ⟨shared', h⟩
        cases run.symm.trans h
        rfl

/-- Two functions, the later of which calls a function of the library by its own name. -/
def lateText : String :=
  "fn b(): I32 \x7b return m.f() \x7d\n" ++
  "fn a(): I32 \x7b return g() \x7d\n"

/-- A library of two functions. -/
def twoFunctions : String :=
  "pub fn f(): I32 \x7b return 1 \x7d\n" ++
  "pub fn g(): I32 \x7b return 2 \x7d\n"

/-- Whether a file of two items can be resolved in its order but not in the other. -/
def needsOrder (known : List (String × Declarations)) (t : FileTree Atom) : Bool :=
  match t.items with
  | [i, j] => i.key != j.key && (t.resolved? .ofKnown ⟨{}, known⟩).isSome &&
      (FileTree.resolved? .ofKnown { t with items := [j, i] } ⟨{}, known⟩).isNone
  | _ => false

/-- If a function imports a file then the order of functions matters. -/
theorem resolve_depends_on_order :
    ∃ known l, ∃ t t' : FileTree Atom, scan lateText "main" = .ok l ∧
      readTree l "main" = .ok t ∧ t'.name = t.name ∧ Reordered t.items t'.items ∧
      (∃ m shared, Gives (t.resolve .ofKnown) ⟨{}, known⟩ m shared) ∧
      ¬ ∃ m shared, Gives (t'.resolve .ofKnown) ⟨{}, known⟩ m shared := by
  have run : readsBeside twoFunctions lateText needsOrder = true := by
    decide +kernel
  obtain ⟨known, l, t, scanned, read, run⟩ := exists_of_readsBeside run
  rw [needsOrder] at run
  split at run
  next i j items =>
    simp only [Bool.and_eq_true, bne_iff_ne] at run
    obtain ⟨⟨apart, resolved⟩, failed⟩ := run
    obtain ⟨m, resolved⟩ := Option.isSome_iff_exists.mp resolved
    refine ⟨known, l, t, { t with items := [j, i] }, scanned, read, rfl, ?_, ?_, ?_⟩
    · rw [items]
      exact .swap [] apart
    · exact ⟨m, FileTree.resolved?_eq_some.mp resolved⟩
    · rintro ⟨m', gives⟩
      rw [FileTree.resolved?_eq_some.mpr gives] at failed
      cases failed
  next => cases run

/-- Two functions with a variable each, the earlier of which calls the later and, by its own name, a
function of a library that is imported before. -/
def earlyText : String :=
  "import m\n" ++
  "fn a(): I32 \x7b\n" ++
  "  x := 1\n" ++
  "  return b(x) + g()\n" ++
  "\x7d\n" ++
  "fn b(y: I32): I32 \x7b return y \x7d\n"

/-- Whether a module imports no more files than are imported before functions and globals are
declared. -/
def FileTree.importsEarly (loader : Loader σ) (t : FileTree Atom) (shared : Shared σ) (m : Module) :
    Bool :=
  match mergeModules t.items with
  | .error _ => false
  | .ok items =>
    let opened := (Resolving.opening loader items).run.run { shared, decls := .new t.name }
    m.imports.length ≤ opened.2.imports.length

theorem FileTree.resolvesEarly_of_importsEarly
    {shared shared' : Shared σ} (gives : Gives (t.resolve loader) shared m shared')
    (early : t.importsEarly loader shared m = true) : t.ResolvesEarly loader shared m shared' := by
  obtain ⟨items, r, n, merged, file, rfl, rfl⟩ := gives_resolve.mp gives
  rw [Resolving.file_eq] at file
  obtain ⟨is, n1, opened, file⟩ := file.of_bind
  have values : Resolving.Stepwise loader (do
      let items ← Resolving.declareValues loader [] is
      Resolving.resolveItems loader [] items) :=
    moves_bind ((Resolving.declarations_stepwise loader).declareValues [] is) fun items =>
      (Resolving.bodies_stepwise loader).resolveItems [] items
  rw [importsEarly, merged] at early
  simp only [show _ = _ from opened, decide_eq_true_eq] at early
  have grown := Resolving.imports_prefix (Resolving.moves_adds values) file
  exact ⟨gives, items, is, n1, merged, opened, (grown.eq_of_length_le early).symm⟩

/-- Whether a file of three items imports files only by its first item, and has variables of the given
names in this order and in the order with the other items exchanged. -/
def ordersVars (names names' : List String) (known : List (String × Declarations))
    (t : FileTree Atom) : Bool :=
  match t.items with
  | [i, j, k] => j.key != k.key &&
      ((t.resolved? .ofKnown ⟨{}, known⟩).any fun m =>
        t.importsEarly .ofKnown ⟨{}, known⟩ m && m.scopes.vars.map Variable.name == names) &&
      ((FileTree.resolved? .ofKnown { t with items := [i, k, j] } ⟨{}, known⟩).any fun m =>
        m.scopes.vars.map Variable.name == names')
  | _ => false

theorem resolve_reordered_earlyText :
    ∃ known l, ∃ t t' : FileTree Atom, ∃ m m' shared', scan earlyText "main" = .ok l ∧
      readTree l "main" = .ok t ∧ t'.name = t.name ∧ Reordered t.items t'.items ∧
      t.ResolvesEarly .ofKnown ⟨{}, known⟩ m shared' ∧
      t'.ResolvesEarly .ofKnown ⟨{}, known⟩ m' shared' ∧ m.SameNames m' ∧
      m.scopes.vars.map Variable.name = ["x", "y"] ∧
      m'.scopes.vars.map Variable.name = ["y", "x"] := by
  have run : readsBeside twoFunctions earlyText (ordersVars ["x", "y"] ["y", "x"]) = true := by
    decide +kernel
  obtain ⟨known, l, t, scanned, read, run⟩ := exists_of_readsBeside run
  rw [ordersVars] at run
  split at run
  next i j k items =>
    simp only [Bool.and_eq_true, bne_iff_ne, Option.any_eq_true, beq_iff_eq] at run
    obtain ⟨⟨apart, m, resolved, early, names⟩, m', resolved', names'⟩ := run
    obtain ⟨shared', gives⟩ := FileTree.resolved?_eq_some.mp resolved
    obtain ⟨shared1, gives'⟩ := FileTree.resolved?_eq_some.mp resolved'
    have resolves := FileTree.resolvesEarly_of_importsEarly gives early
    have reordered : Reordered t.items [i, k, j] := by
      rw [items]
      exact .cons i (.swap [] apart)
    have nodup : (itemNumbers t.items).Nodup :=
      (resolve_reordered .ofKnown).2.2 l "main" t read
    obtain ⟨same, bound⟩ := (resolve_reordered .ofKnown).1 t { t with items := [i, k, j] }
      ⟨{}, known⟩ rfl reordered nodup
    obtain ⟨m1, shared2, resolves'⟩ := same.mp ⟨m, shared', resolves⟩
    cases resolves'.gives.symm.trans gives'
    obtain ⟨rfl, names1⟩ := bound m m' shared' shared1 resolves resolves'
    exact ⟨known, l, t, { t with items := [i, k, j] }, m, m', shared1, scanned, read, rfl, reordered,
      resolves, resolves', names1, names, names'⟩
  next => cases run

end EbLang
