import EbLang.Analysis
import EbLang.Proofs.Joins
import Mathlib.Data.List.Induction

/-!
# Merged modules

The blocks of a module may be scattered over a file, and over the blocks of the module around it.
`itemsAt path` collects the items of all blocks with one path, in order.  Merging succeeds if at every
path each extension of a module comes after a block that opens it, and then the items of a path are the
first blocks of the modules there and all the definitions.

One round leaves the first block of each module with what is inside of all of them (`joined`), and all
rounds do so with what they leave there (`gathered`).
-/

namespace EbLang.Merge

variable {τ : Type} {is js : List (Item τ)} {i j : Item τ} {name : String} {n : Nat}

/-! ## Items of a path -/

def contents : Item τ → List (Item τ)
  | .submodule _ items _ _ _ => items
  | _ => []

/-- The name of a module, and whether it is extended. -/
def block? : Item τ → Option (String × Bool)
  | .submodule name _ _ isExtend _ => some (name, isExtend)
  | _ => none

/-- A module with other items, by its name; other items are kept. -/
def refill (f : String → List (Item τ)) : Item τ → Item τ
  | .submodule name _ isPub isExtend span => .submodule name (f name) isPub isExtend span
  | i => i

/-- A module without its items; other items are kept. -/
def outline : Item τ → Item τ := refill fun _ => []

/-- What is inside of all blocks of a module, in order. -/
def inside (name : String) (is : List (Item τ)) : List (Item τ) :=
  is.flatMap fun i => if isModule name i then contents i else []

/-- What is inside of all blocks with a path, in order. -/
def itemsAt : List String → List (Item τ) → List (Item τ)
  | [], is => is
  | name :: path, is => itemsAt path (inside name is)

/-- The items that are no modules. -/
def definitions (is : List (Item τ)) : List (Item τ) := is.filter fun i => (block? i).isNone

def blocks (is : List (Item τ)) : List (String × Bool) := is.filterMap block?

/-- Every extension of a module stands after a block that opens it. -/
def Introduced (is : List (Item τ)) : Prop :=
  ∀ before name, before ++ [(name, true)] <+: blocks is → (name, false) ∈ before

/-- Whether two items are blocks of one module. -/
def repeats : Item τ → Item τ → Bool
  | .submodule name _ _ _ _, j => isModule name j
  | _, _ => false

/-- Every module has at most one block. -/
def Single (is : List (Item τ)) : Prop := is.Pairwise fun i j => repeats i j = false

/-- The items without the blocks of modules that have a block before. -/
def firsts : List (Item τ) → List (Item τ)
  | [] => []
  | i :: is => i :: (firsts is).filter fun j => !repeats i j

/-- The first block of each module with what is inside of all of them. -/
def joined (is : List (Item τ)) : List (Item τ) := (firsts is).map (refill (inside · is))

/-- The first block of each module with what is inside of all of them, brought together in turn. -/
def gathered : Nat → List (Item τ) → List (Item τ)
  | 0, is => joined is
  | n + 1, is => (firsts is).map (refill fun name => gathered n (inside name is))

theorem exists_of_isModule (named : isModule name i = true) :
    ∃ items isPub isExtend span, i = .submodule name items isPub isExtend span := by
  cases i with
  | submodule => exact ⟨_, _, _, _, by rw [eq_of_beq named]⟩
  | function | imports | global | struct => cases named

theorem repeats_eq (named : isModule name i = true) : repeats i = isModule name := by
  obtain ⟨_, _, _, _, rfl⟩ := exists_of_isModule named
  rfl

theorem repeats_comm (i j : Item τ) : repeats i j = repeats j i := by
  cases i <;> cases j <;> simp [repeats, isModule, Bool.beq_comm]

theorem refill_refill (f g : String → List (Item τ)) (i : Item τ) :
    refill f (refill g i) = refill f i := by
  cases i <;> rfl

theorem any_isModule_map_refill (f : String → List (Item τ)) (is : List (Item τ)) :
    (is.map (refill f)).any (isModule name) = is.any (isModule name) := by
  rw [List.any_map]
  congr
  funext i
  cases i <;> rfl

theorem blocks_map_refill (f : String → List (Item τ)) (is : List (Item τ)) :
    blocks (is.map (refill f)) = blocks is := by
  rw [blocks, List.filterMap_map, blocks]
  congr
  funext i
  cases i <;> rfl

/-! ## First blocks -/

theorem firsts_sublist (is : List (Item τ)) : (firsts is).Sublist is := by
  induction is with
  | nil => exact .slnil
  | cons i is ih => exact (List.filter_sublist.trans ih).cons_cons i

theorem firsts_concat (is : List (Item τ)) (i : Item τ) :
    firsts (is ++ [i]) = firsts is ++ if is.any (repeats i) then [] else [i] := by
  induction is with
  | nil => rfl
  | cons j is ih =>
    rw [List.cons_append, firsts, firsts, ih, List.filter_append, List.any_cons, repeats_comm i j]
    cases again : is.any (repeats i) <;> cases here : repeats j i <;> simp [here]

theorem any_isModule_firsts (name : String) (is : List (Item τ)) :
    (firsts is).any (isModule name) = is.any (isModule name) := by
  induction is with
  | nil => rfl
  | cons i is ih =>
    rw [firsts, List.any_cons, List.any_cons, ← ih, List.any_filter]
    cases here : isModule name i with
    | true => rfl
    | false =>
      refine congrArg (false || (firsts is).any ·) (funext fun j => ?_)
      cases named : isModule name j with
      | true => rw [repeats_comm, repeats_eq named, here]; rfl
      | false => exact Bool.and_false _

theorem single_firsts (is : List (Item τ)) : Single (firsts is) := by
  induction is with
  | nil => exact .nil
  | cons i is ih =>
    exact List.pairwise_cons.mpr ⟨fun j there => by simpa using (List.mem_filter.mp there).2,
      ih.filter _⟩

theorem Single.firsts_eq (h : Single is) : firsts is = is := by
  induction h with
  | nil => rfl
  | cons first _ ih => rw [firsts, ih, List.filter_eq_self.mpr (by simpa using first)]

theorem single_map_refill (f : String → List (Item τ)) : Single (is.map (refill f)) ↔ Single is := by
  have same (i j : Item τ) : repeats (refill f i) (refill f j) = repeats i j := by
    cases i <;> cases j <;> rfl
  simp only [Single, List.pairwise_map, same]

theorem definitions_firsts (is : List (Item τ)) : definitions (firsts is) = definitions is := by
  induction is with
  | nil => rfl
  | cons i is ih =>
    have kept : definitions ((firsts is).filter fun j => !repeats i j) = definitions is := by
      rw [← ih, definitions, definitions, List.filter_filter]
      refine List.filter_congr fun j _ => ?_
      cases j <;> cases i <;> rfl
    rw [firsts, definitions, definitions, List.filter_cons, List.filter_cons]
    exact congrArg (fun rest => if (block? i).isNone then i :: rest else rest) kept

theorem definitions_map_outline (is : List (Item τ)) :
    definitions (is.map outline) = definitions is := by
  induction is with
  | nil => rfl
  | cons i is ih => cases i <;> simp_all [definitions, outline, refill, block?]

/-! ## Items of a module -/

theorem inside_eq_nil (h : is.any (isModule name) = false) : inside name is = [] :=
  List.flatMap_eq_nil_iff.mpr fun i there => if_neg (List.any_eq_false.mp h i there)

theorem inside_concat (name : String) (is : List (Item τ)) (i : Item τ) :
    inside name (is ++ [i]) = inside name is ++ if isModule name i then contents i else [] := by
  rw [inside, List.flatMap_append, List.flatMap_singleton]
  rfl

theorem inside_cons (name : String) (i : Item τ) (is : List (Item τ)) :
    inside name (i :: is) = (if isModule name i then contents i else []) ++ inside name is :=
  List.flatMap_cons

theorem Single.inside_of_mem (h : Single is) (there : i ∈ is) (named : isModule name i = true) :
    inside name is = contents i := by
  induction h with
  | nil => cases there
  | @cons j is first rest ih =>
    rcases List.mem_cons.mp there with rfl | there
    · rw [repeats_eq named] at first
      rw [inside_cons, if_pos named, inside_eq_nil (by simpa using first), List.append_nil]
    · have other := first i there
      rw [repeats_comm, repeats_eq named] at other
      rw [inside_cons, other]
      exact ih there

theorem Single.inside_refill (h : Single is) {f : String → List (Item τ)}
    (nothing : is.any (isModule name) = false → f name = []) :
    inside name (is.map (refill f)) = f name := by
  cases block : is.any (isModule name) with
  | false => rw [nothing block, inside_eq_nil (by rwa [any_isModule_map_refill])]
  | true =>
    obtain ⟨i, there, named⟩ := List.any_eq_true.mp block
    obtain ⟨_, _, _, _, rfl⟩ := exists_of_isModule named
    exact ((single_map_refill f).mpr h).inside_of_mem (List.mem_map_of_mem there) named

theorem Single.joined_eq (h : Single is) : joined is = is := by
  rw [joined, h.firsts_eq]
  refine (List.map_congr_left fun i there => ?_).trans (List.map_id is)
  cases i with
  | submodule name => rw [refill, h.inside_of_mem there (beq_self_eq_true name)]; rfl
  | function | imports | global | struct => rfl

/-! ## One round -/

theorem Single.appendTo_eq (h : Single is) (name : String) (more : List (Item τ)) :
    appendTo name more is = is.map fun i => if isModule name i then extend more i else i := by
  induction h with
  | nil => rfl
  | @cons i is first _ ih =>
    rw [appendTo_cons, List.map_cons]
    split
    next here =>
      rw [repeats_eq here] at first
      refine congrArg _ ((List.map_id is).symm.trans (List.map_congr_left fun j there => ?_))
      rw [first j there]
      rfl
    next => rw [ih]

theorem joined_concat_of_fresh (fresh : is.any (repeats i) = false) :
    joined (is ++ [i]) = joined is ++ [i] := by
  have last : refill (inside · (is ++ [i])) i = i := by
    cases i with
    | submodule name => simp [refill, inside_concat, inside_eq_nil fresh, isModule, contents]
    | function | imports | global | struct => rfl
  rw [joined, joined, firsts_concat, fresh, List.map_append]
  refine congr (congrArg _ (List.map_congr_left fun j there => ?_)) (congrArg ([·]) last)
  cases j with
  | submodule name =>
    have other : ¬ isModule name i = true := fun named =>
      List.any_eq_false.mp fresh _ ((firsts_sublist is).subset there) (by rwa [repeats_comm])
    simp only [refill, inside_concat, if_neg other, List.append_nil]
  | function | imports | global | struct => rfl

theorem joined_concat_of_mem {items : List (Item τ)} {isPub isExtend : Bool} {span : Span}
    (there : is.any (isModule name) = true) :
    joined (is ++ [.submodule name items isPub isExtend span]) = appendTo name items (joined is) := by
  have again : is.any (repeats (.submodule name items isPub isExtend span)) = true := there
  have single : Single (joined is) := (single_map_refill _).mpr (single_firsts is)
  rw [joined, firsts_concat, if_pos again, List.append_nil, single.appendTo_eq, joined, List.map_map]
  refine List.map_congr_left fun j _ => ?_
  cases j with
  | submodule name' =>
    by_cases same : name' = name
    · simp [refill, inside_concat, isModule, contents, extend, same]
    · simp [refill, inside_concat, isModule, same, Ne.symm same]
  | function | imports | global | struct => rfl

theorem introduced_nil : Introduced ([] : List (Item τ)) := by
  simp [Introduced, blocks]

theorem blocks_concat (is : List (Item τ)) (i : Item τ) :
    blocks (is ++ [i]) = blocks is ++ (block? i).toList := by
  cases i <;> simp [blocks, block?]

theorem introduced_concat : Introduced (is ++ [i]) ↔
    Introduced is ∧ ∀ name, block? i = some (name, true) → (name, false) ∈ blocks is := by
  rw [Introduced, blocks_concat]
  cases block? i with
  | none => simp [Introduced]
  | some b =>
    constructor
    · intro h
      refine ⟨fun before name earlier => h before name (earlier.trans (List.prefix_append _ _)), ?_⟩
      rintro name ⟨⟩
      exact h _ name List.prefix_rfl
    · rintro ⟨earlier, last⟩ before name start
      rcases List.prefix_concat_iff.mp start with same | start
      · obtain ⟨rfl, ⟨⟩⟩ := List.append_inj' same rfl
        exact last name rfl
      · exact earlier before name start

/-- Where every extension has a block before it, the modules are those that are opened. -/
theorem Introduced.mem_iff (h : Introduced is) :
    (name, false) ∈ blocks is ↔ is.any (isModule name) = true := by
  induction is using List.reverseRecOn with
  | nil => simp [blocks]
  | append_singleton is i ih =>
    obtain ⟨earlier, last⟩ := introduced_concat.mp h
    rw [blocks_concat, List.mem_append, List.any_append, Bool.or_eq_true, ← ih earlier]
    cases i with
    | submodule name' items isPub isExtend span =>
      cases isExtend with
      | false => simp [block?, isModule, @eq_comm _ name]
      | true =>
        have there : name' = name → (name, false) ∈ blocks is := fun same => last name (same ▸ rfl)
        simpa [block?, isModule] using there
    | function | imports | global | struct => simp [block?, isModule]

theorem bind_eq_ok {ε α β : Type} {x : Except ε α} {f : α → Except ε β} {b : β} :
    x >>= f = .ok b ↔ ∃ a, x = .ok a ∧ f a = .ok b := by
  cases x <;> simp [bind, Except.bind]

theorem add_joined (h : Introduced is) (i : Item τ) : add (joined is) i = .ok js ↔
    (∀ name, block? i = some (name, true) → (name, false) ∈ blocks is) ∧ joined (is ++ [i]) = js := by
  simp only [h.mem_iff]
  cases i with
  | submodule name items isPub isExtend span =>
    have same : (joined is).any (isModule name) = is.any (isModule name) := by
      rw [joined, any_isModule_map_refill, any_isModule_firsts]
    cases there : is.any (isModule name) with
    | true =>
      rw [add, same, if_pos there, joined_concat_of_mem there]
      refine Iff.trans (iff_of_eq (Except.ok.injEq ..)) (and_iff_right ?_).symm
      rintro _ ⟨⟩
      exact there
    | false =>
      rw [add, same, there, joined_concat_of_fresh there]
      cases isExtend with
      | false => simp [block?]
      | true => exact iff_of_false (by simp) fun h => by simpa [there] using h.1 name rfl
  | function | imports | global | struct =>
    rw [joined_concat_of_fresh (List.any_eq_false.mpr fun _ _ => by simp [repeats])]
    simp [add, block?]

/-- A round succeeds if every extension has a block before it. -/
theorem foldlM_add_eq_ok : is.foldlM add [] = .ok js ↔ Introduced is ∧ joined is = js := by
  induction is using List.reverseRecOn generalizing js with
  | nil => simp [introduced_nil, joined, firsts, pure, Except.pure]
  | append_singleton is i ih =>
    rw [List.foldlM_append, bind_eq_ok, introduced_concat]
    simp only [List.foldlM_cons, List.foldlM_nil, bind_pure, ih]
    constructor
    · rintro ⟨_, ⟨introduced, rfl⟩, last⟩
      obtain ⟨extensions, same⟩ := (add_joined introduced i).mp last
      exact ⟨⟨introduced, extensions⟩, same⟩
    · rintro ⟨⟨introduced, extensions⟩, same⟩
      exact ⟨_, ⟨introduced, rfl⟩, (add_joined introduced i).mpr ⟨extensions, same⟩⟩

/-! ## All rounds -/

theorem mapM_eq_ok {ε α β : Type} {f : α → Except ε β} {g : α → β} {P : α → Prop} :
    ∀ {l : List α} {l' : List β}, (∀ a ∈ l, ∀ b, f a = .ok b ↔ P a ∧ g a = b) →
      (l.mapM f = .ok l' ↔ (∀ a ∈ l, P a) ∧ l.map g = l')
  | [], l', _ => by simp [pure, Except.pure]
  | a :: l, l', h => by
    obtain ⟨first, rest⟩ := List.forall_mem_cons.mp h
    simp only [List.mapM_cons, bind_eq_ok, first, mapM_eq_ok rest, List.forall_mem_cons,
      List.map_cons]
    constructor
    · rintro ⟨_, ⟨here, rfl⟩, _, ⟨there, rfl⟩, ⟨⟩⟩
      exact ⟨⟨here, there⟩, rfl⟩
    · rintro ⟨⟨here, there⟩, rfl⟩
      exact ⟨_, ⟨here, rfl⟩, _, ⟨there, rfl⟩, rfl⟩

theorem depths_append (is js : List (Item τ)) : depths (is ++ js) = max (depths is) (depths js) := by
  induction is with
  | nil => simp [depths]
  | cons i is ih => rw [List.cons_append, depths, depths, ih, Nat.max_assoc]

theorem depths_inside (name : String) (is : List (Item τ)) :
    depths (inside name is) ≤ depths is - 1 ∧ (depths is = 0 → inside name is = []) := by
  induction is with
  | nil => exact ⟨Nat.le_refl 0, fun _ => rfl⟩
  | cons i is ih =>
    have first : depths (if isModule name i then contents i else []) ≤ depth i - 1 ∧
        (depth i = 0 → (if isModule name i then contents i else []) = []) := by
      cases i with
      | submodule name' =>
        cases named : name' == name <;> simp [isModule, contents, depth, depths, named]
      | function | imports | global | struct => simp [isModule, depths]
    rw [inside_cons, depths_append, depths]
    refine ⟨by omega, fun flat => ?_⟩
    rw [first.2 (by omega), ih.2 (by omega)]
    rfl

theorem itemsAt_nil (path : List String) : itemsAt path ([] : List (Item τ)) = [] := by
  induction path with
  | nil => rfl
  | cons name path ih => exact ih

theorem introduced_at_nil (path : List String) : Introduced (itemsAt path ([] : List (Item τ))) := by
  rw [itemsAt_nil]
  exact introduced_nil

theorem forall_contents_joined {P : List (Item τ) → Prop} (nothing : P []) :
    (∀ i ∈ joined is, P (contents i)) ↔ ∀ name, P (inside name is) := by
  constructor
  · intro h name
    cases there : is.any (isModule name) with
    | false => rwa [inside_eq_nil there]
    | true =>
      rw [← any_isModule_firsts] at there
      obtain ⟨i, first, named⟩ := List.any_eq_true.mp there
      obtain ⟨_, _, _, _, rfl⟩ := exists_of_isModule named
      exact h _ (List.mem_map_of_mem first)
  · intro h i there
    obtain ⟨j, -, rfl⟩ := List.mem_map.mp there
    cases j with
    | submodule name => exact h name
    | function | imports | global | struct => exact nothing

/-- All rounds succeed if at every path extensions have blocks before them. -/
theorem levels_eq_ok : ∀ {n : Nat} {is js : List (Item τ)}, depths is ≤ n →
    (levels n is = .ok js ↔ (∀ path, Introduced (itemsAt path is)) ∧ gathered n is = js)
  | 0, is, js, deep => by
    rw [levels, foldlM_add_eq_ok, gathered]
    refine and_congr_left fun _ => ⟨fun top path => ?_, fun all => all []⟩
    cases path with
    | nil => exact top
    | cons name path =>
      rw [itemsAt, (depths_inside name is).2 (Nat.le_zero.mp deep)]
      exact introduced_at_nil path
  | n + 1, is, js, deep => by
    have inner (name : String) : depths (inside name is) ≤ n := by
      have := (depths_inside name is).1
      omega
    have below : (∀ i ∈ joined is, ∀ path, Introduced (itemsAt path (contents i))) ↔
        ∀ name path, Introduced (itemsAt path (inside name is)) :=
      forall_contents_joined (P := fun l => ∀ path, Introduced (itemsAt path l)) introduced_at_nil
    rw [levels, bind_eq_ok]
    simp only [foldlM_add_eq_ok, and_assoc, exists_and_left, exists_eq_left']
    rw [mapM_eq_ok (g := refill fun name => gathered n (inside name is))
      (P := fun i => ∀ path, Introduced (itemsAt path (contents i))), below, ← and_assoc]
    · refine and_congr ⟨fun h path => ?_, fun h => ⟨h [], fun name path => h (name :: path)⟩⟩ ?_
      · cases path with
        | nil => exact h.1
        | cons name path => exact h.2 name path
      · rw [joined, List.map_map, gathered]
        refine iff_of_eq (congrArg (· = js) (List.map_congr_left fun i _ => ?_))
        exact refill_refill _ _ i
    · intro i there j
      obtain ⟨k, -, rfl⟩ := List.mem_map.mp there
      cases k with
      | submodule name items isPub isExtend span =>
        simp [refill, contents, bind_eq_ok, levels_eq_ok (inner name), pure, Except.pure]
      | function | imports | global | struct =>
        simp [refill, contents, pure, Except.pure, introduced_at_nil]

/-! ## Merged modules -/

theorem exists_gathered_eq : ∀ (n : Nat) (is : List (Item τ)),
    ∃ f, gathered n is = (firsts is).map (refill f)
  | 0, _ | _ + 1, _ => ⟨_, rfl⟩

theorem single_gathered (n : Nat) (is : List (Item τ)) : Single (gathered n is) := by
  obtain ⟨f, eq⟩ := exists_gathered_eq n is
  rw [eq, single_map_refill]
  exact single_firsts is

theorem map_outline_gathered (n : Nat) (is : List (Item τ)) :
    (gathered n is).map outline = (firsts is).map outline := by
  obtain ⟨f, eq⟩ := exists_gathered_eq n is
  rw [eq, List.map_map]
  exact List.map_congr_left fun i _ => refill_refill _ f i

theorem gathered_nil : ∀ n, gathered n ([] : List (Item τ)) = []
  | 0 | _ + 1 => rfl

theorem inside_gathered (deep : depths is ≤ n) (name : String) :
    inside name (gathered n is) = gathered (n - 1) (inside name is) := by
  have nothing (absent : (firsts is).any (isModule name) = false) : inside name is = [] :=
    inside_eq_nil (by rwa [← any_isModule_firsts])
  cases n with
  | zero =>
    rw [gathered, joined, (single_firsts is).inside_refill nothing,
      (depths_inside name is).2 (Nat.le_zero.mp deep), gathered_nil]
  | succ n =>
    refine (single_firsts is).inside_refill fun absent => ?_
    rw [nothing absent, gathered_nil]

theorem itemsAt_gathered (path : List String) (deep : depths is ≤ n) :
    itemsAt path (gathered n is) = gathered (n - path.length) (itemsAt path is) := by
  induction path generalizing is n with
  | nil => rfl
  | cons name path ih =>
    have inner := (depths_inside name is).1
    rw [itemsAt, itemsAt, inside_gathered deep, ih (by omega), List.length_cons, Nat.add_comm,
      Nat.sub_sub]

theorem gathered_eq_of_single (h : ∀ path, Single (itemsAt path is)) (n : Nat) :
    gathered n is = is := by
  induction n generalizing is with
  | zero => exact (h []).joined_eq
  | succ n ih =>
    have inner (name : String) : gathered n (inside name is) = inside name is :=
      ih fun path => h (name :: path)
    simp only [gathered, inner]
    exact (h []).joined_eq

theorem Introduced.not_mem_firsts (h : Introduced is) : (name, true) ∉ blocks (firsts is) := by
  induction is using List.reverseRecOn with
  | nil => exact List.not_mem_nil
  | append_singleton is i ih =>
    obtain ⟨earlier, last⟩ := introduced_concat.mp h
    rw [firsts_concat]
    split
    next => rw [List.append_nil]; exact ih earlier
    next fresh =>
      rw [blocks_concat, List.mem_append, Option.mem_toList]
      rintro (there | extension)
      · exact ih earlier there
      · have there := earlier.mem_iff.mp (last name extension)
        cases i <;> cases extension
        exact fresh there

theorem Introduced.gathered (h : Introduced is) (n : Nat) : Introduced (gathered n is) := by
  obtain ⟨f, eq⟩ := exists_gathered_eq n is
  rw [eq, Introduced, blocks_map_refill]
  intro before name start
  have there : (name, true) ∈ before ++ [(name, true)] := List.mem_append_right _ (.head _)
  exact absurd (start.subset there) h.not_mem_firsts

/-- Merging succeeds if at every path the extensions of a module come after a block that opens it.
At every path each module has one block then, the definitions are those of all blocks in order, and
the items stand in the order of the first blocks. -/
theorem mergeModules_concatenates (items : List (Item τ)) :
    ((∃ merged, mergeModules items = .ok merged) ↔ ∀ path, Introduced (itemsAt path items)) ∧
      ∀ merged, mergeModules items = .ok merged →
        (∀ path, Single (itemsAt path merged) ∧
          definitions (itemsAt path merged) = definitions (itemsAt path items) ∧
          (itemsAt path merged).map outline = (firsts (itemsAt path items)).map outline) ∧
        mergeModules merged = .ok merged := by
  have merges (l js : List (Item τ)) : mergeModules l = .ok js ↔
      (∀ path, Introduced (itemsAt path l)) ∧ gathered (depths l) l = js :=
    levels_eq_ok (Nat.le_refl _)
  simp only [merges, exists_and_left, exists_eq', and_true, true_and]
  rintro _ ⟨introduced, rfl⟩
  have at_path (path : List String) := itemsAt_gathered path (Nat.le_refl (depths items))
  have single (path : List String) : Single (itemsAt path (gathered (depths items) items)) := by
    rw [at_path]
    exact single_gathered _ _
  refine ⟨fun path => ⟨single path, ?_⟩, fun path => ?_, gathered_eq_of_single single _⟩
  · rw [at_path, ← definitions_map_outline, map_outline_gathered, definitions_map_outline,
      definitions_firsts]
    exact ⟨rfl, rfl⟩
  · rw [at_path]
    exact (introduced path).gathered _

def block (name : String) (isExtend : Bool) (items : List (Item Atom)) : Item Atom :=
  .submodule name items false isExtend default

def constant (name : String) : Item Atom := .struct ⟨name, [], false, default, none⟩

/-- A module in a module, both extended from afar. -/
theorem mergeModules_concatenates_scattered :
    let items := [block "m" false [block "n" false [constant "a"]], constant "b",
      block "m" true [constant "c", block "n" true [constant "d"], block "o" false []]]
    let merged := [block "m" false [block "n" false [constant "a", constant "d"], constant "c",
      block "o" false []], constant "b"]
    mergeModules items = .ok merged ∧ (∀ path, Introduced (itemsAt path items)) ∧
      definitions (itemsAt ["m", "n"] merged) = [constant "a", constant "d"] ∧
      mergeModules merged = .ok merged := by
  intro items merged
  have eq : mergeModules items = .ok merged := by rfl
  obtain ⟨paths, again⟩ := (mergeModules_concatenates items).2 merged eq
  exact ⟨eq, (mergeModules_concatenates items).1.mp ⟨merged, eq⟩, (paths ["m", "n"]).2.1, again⟩

end EbLang.Merge
