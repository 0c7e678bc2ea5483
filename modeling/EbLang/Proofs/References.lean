import EbLang.Proofs.Steps

/-!
# References to other files

What the bodies of a resolved file refer to by name is built in, of the file itself, or a public item
of an import that is listed among the items of other files (`Known`).  This holds where a name is
bound, whichever way the item was found, and it holds still when the rest of the file is resolved,
since imports and listed items are only added (`Later`).

That an item is listed once, and only if an import offers it, is kept by every step (`Noted`).
-/

namespace EbLang

open Relation

variable {σ α β : Type}

/-! ## What bodies refer to -/

namespace Reference

/-- An item is listed among those of other files. -/
def ListedIn (e : Externals) : Reference → Prop
  | function s => s ∈ e.functions
  | global g => g ∈ e.globals

end Reference

/-- What a step refers to: the functions that a call may be of, or a global. -/
def Atom.references (a : Atom) : List Reference :=
  match a.kind with
  | .var _ binding => binding.toList.flatMap Binding.references
  | .call c => c.candidates.map .function
  | .literal _ | .member _ => []

def Expr.references (e : Expr Atom) : List Reference := e.terms.flatMap Atom.references

/-- What the variable that a statement writes is bound to. -/
def Stmt.written : Stmt Atom → List Reference
  | .assign _ binding _ _ _ => binding.toList.flatMap Binding.references
  | _ => []

/-- What a statement itself refers to, without the statements inside it. -/
def Stmt.references (s : Stmt Atom) : List Reference :=
  s.written ++ s.exprs.flatMap Expr.references

/-- All that a statement itself refers to satisfies a predicate. -/
def Stmt.Refers (K : Reference → Prop) (s : Stmt Atom) : Prop := ∀ r ∈ s.references, K r

/-! ## Listed items -/

namespace Externals

theorem nodup_note {e : Externals} (h : ∀ r : Reference, (r.listing e).Nodup) (q r : Reference) :
    (r.listing (e.note q)).Nodup := by
  have before := h r
  cases q <;> cases r <;>
    simp only [note, addFunction, addGlobal, Reference.listing] at before ⊢ <;> split <;>
    simp_all [List.nodup_append]

theorem listedIn_of_note {e : Externals} {q r : Reference} (h : r.ListedIn (e.note q)) :
    r.ListedIn e ∨ r = q := by
  cases q <;> cases r <;> simp only [note, addFunction, addGlobal, Reference.ListedIn] at h ⊢ <;>
    split at h <;> simp_all

end Externals

namespace Resolving

variable {loader : Loader σ} {n n' : Names σ} {r : Reference}

/-- Items of other files are listed once, and only if an import offers them. -/
structure Noted (n : Names σ) : Prop where
  offered : ∀ r : Reference, r.ListedIn n.externals → Offers n.imports r
  once : ∀ r : Reference, (r.listing n.externals).Nodup

theorem Step.imports_subset (h : Step loader n n') : n.imports ⊆ n'.imports := by
  cases h with
  | imports i => exact List.subset_append_left _ _
  | scopes | decls | structs | load | noteStruct | note => exact List.Subset.refl _

theorem Step.listing_subset (h : Step loader n n') (r : Reference) :
    r.listing n.externals ⊆ r.listing n'.externals := by
  cases h with
  | note => exact n.externals.listing_subset_note _ r
  | noteStruct q =>
    simp only [Externals.addStruct]
    split
    · exact List.Subset.refl _
    · cases r <;> exact List.Subset.refl _
  | scopes | decls | structs | load | imports => exact List.Subset.refl _

theorem offers_of_subset {imports imports' : List Import} (h : imports ⊆ imports')
    (offered : Offers imports r) : Offers imports' r := by
  obtain ⟨isPub, i, there, declared⟩ := offered
  exact ⟨isPub, i, h there, declared⟩

theorem Step.noted (h : Step loader n n') (noted : Noted n) : Noted n' := by
  cases h with
  | note offered =>
    refine ⟨fun r there => ?_, fun r => Externals.nodup_note noted.once _ r⟩
    rcases Externals.listedIn_of_note there with old | rfl
    · exact noted.offered r old
    · exact offered
  | imports i =>
    refine ⟨fun r there => ?_, noted.once⟩
    exact offers_of_subset (List.subset_append_left _ _) (noted.offered r there)
  | noteStruct q =>
    refine ⟨fun r there => noted.offered r ?_, fun r => ?_⟩
    · cases r <;> simp only [Externals.addStruct] at there <;> split at there <;> exact there
    · have once := noted.once r
      cases r <;> simp only [Externals.addStruct] <;> split <;> exact once
  | scopes | decls | structs | load => exact ⟨noted.offered, noted.once⟩

/-! ## Known items -/

/-- The names in view after more of a file's bodies have been resolved. -/
structure Later (n n' : Names σ) : Prop where
  decls : n'.decls = n.decls
  imports : n.imports ⊆ n'.imports
  listing : ∀ r : Reference, r.listing n.externals ⊆ r.listing n'.externals

theorem Later.refl (n : Names σ) : Later n n :=
  ⟨rfl, List.Subset.refl _, fun _ => List.Subset.refl _⟩

theorem Later.trans {n1 n2 n3 : Names σ} (h : Later n1 n2) (h' : Later n2 n3) : Later n1 n3 :=
  ⟨h'.decls.trans h.decls, List.Subset.trans h.imports h'.imports,
    fun r => List.Subset.trans (h.listing r) (h'.listing r)⟩

theorem Known.later (h : Known n r) (later : Later n n') : Known n' r := by
  rcases h with builtIn | own | ⟨offered, listed⟩
  · exact .inl builtIn
  · rw [← later.decls] at own
    exact .inr (.inl own)
  · exact .inr (.inr ⟨offers_of_subset later.imports offered, later.listing r listed⟩)

variable {x : Resolving σ α} (scope : ModulePath) (items : List (Item Atom))

/-- What walks along steps and keeps the file's declarations leaves names in view for later. -/
theorem leads_later (steps : Stepwise loader x)
    (same : ∀ d, Keep (fun n => n.decls = d) x x) (n : Names σ) :
    Leads x n fun _ n' => Later n n' := by
  intro a n' gives
  have decls : n'.decls = n.decls := (same n.decls).leads rfl a n' gives
  have path : ReflTransGen (Step loader) n n' := by
    have moved := steps n
    rwa [MovesFrom, gives] at moved
  refine ⟨decls, ?_, fun r => ?_⟩
  · clear gives decls
    induction path with
    | refl => exact List.Subset.refl _
    | tail _ last ih => exact List.Subset.trans ih last.imports_subset
  · clear gives decls
    induction path with
    | refl => exact List.Subset.refl _
    | tail _ last ih => exact List.Subset.trans ih (last.listing_subset r)

/-! ## Bodies -/

theorem leads_resolveAtom_known (a : Atom) (n : Names σ) :
    Leads (resolveAtom loader scope a) n fun as n' =>
      ∀ r ∈ as.flatMap Atom.references, Known n' r := by
  simp only [resolveAtom]
  split
  · refine leads_bind (tells_findVariable scope _ _ n).2 fun found n' known => leads_pure ?_
    simpa [Atom.references, Atom.member, List.flatMap_map] using known
  · refine leads_bind (tells_candidatesOf scope _ _ n).2 fun ss n' known => leads_pure ?_
    simpa [Atom.references] using known
  · refine leads_pure ?_
    simp [Atom.references, *]
  · refine leads_pure ?_
    simp [Atom.references, *]

/-- A computation leaves names in view for later, and something is known from then on. -/
def Establishes (x : Resolving σ α) (Q : α → Names σ → Prop) : Prop :=
  ∀ n, Leads x n fun a n' => Later n n' ∧ ∀ n'', Later n' n'' → Q a n''

theorem establishes {Q : α → Names σ → Prop} (steps : Stepwise loader x)
    (same : ∀ d, Keep (fun n => n.decls = d) x x) (known : ∀ n, Leads x n Q)
    (lasts : ∀ a n n', Later n n' → Q a n → Q a n') : Establishes x Q := by
  intro n
  refine ((leads_later steps same n).and (known n)).imp ?_
  rintro a n' ⟨later, known⟩
  exact ⟨later, fun n'' after => lasts a n' n'' after known⟩

theorem establishes_anything (steps : Stepwise loader x)
    (same : ∀ d, Keep (fun n => n.decls = d) x x) : Establishes x Anything :=
  establishes steps same (fun _ _ _ _ => trivial) fun _ _ _ _ _ => trivial

theorem establishes_bind {f : α → Resolving σ β} {P : α → Names σ → Prop}
    {Q : β → Names σ → Prop} (first : Establishes x P)
    (rest : ∀ a, Establishes (f a) fun b n => P a n → Q b n) : Establishes (x >>= f) Q := by
  intro n
  refine leads_bind (first n) ?_
  rintro a n1 ⟨later, known⟩
  refine (rest a n1).imp ?_
  rintro b n2 ⟨later', known'⟩
  exact ⟨later.trans later', fun n3 after => known' n3 after (known n3 (later'.trans after))⟩

/-- Bodies refer to known items. -/
def references : Knowledge σ where
  step _ as n := ∀ r ∈ as.flatMap Atom.references, Known n r
  target b n := ∀ r ∈ b.references, Known n r
  after s n := s.Refers (Known n)

theorem references_carry {s s' : Stmt Atom} (h : references.Stmt n s s') : s'.Refers (Known n) := by
  have exprs : ∀ e ∈ s'.exprs, ∀ r ∈ e.references, Known n r := by
    refine forall_of_forall₂ (h.exprs.imp ?_)
    rintro e e' ⟨ass, steps, terms⟩ r there
    rw [Expr.references, terms] at there
    obtain ⟨a, here, there⟩ := List.mem_flatMap.mp there
    obtain ⟨as, listed, here⟩ := List.mem_flatten.mp here
    exact forall_of_forall₂ steps as listed r (List.mem_flatMap.mpr ⟨a, here, there⟩)
  have written : s'.written = s'.binding?.toList.flatMap Binding.references := by
    cases s' <;> rfl
  intro r there
  rw [Stmt.references, written] at there
  rcases List.mem_append.mp there with there | there
  · obtain ⟨b, bound, there⟩ := List.mem_flatMap.mp there
    exact h.target b (Option.mem_toList.mp bound) r there
  · obtain ⟨e, here, there⟩ := List.mem_flatMap.mp there
    exact exprs e here r there

theorem bodies_establish (loader : Loader σ) :
    RespectsBodies (fun x _ Q => Establishes x Q) loader loader references := by
  have steps := bodies_stepwise loader
  have keeps (d : Declarations) := (stable_decls d loader).bodies
  have known_lasts (rs : List Reference) (n n' : Names σ) (later : Later n n')
      (known : ∀ r ∈ rs, Known n r) : ∀ r ∈ rs, Known n' r :=
    fun r there => (known r there).later later
  refine
    { pure := fun a => establishes_anything (steps.pure a) fun d => (keeps d).pure a
      fail := fun position fault =>
        establishes_anything (steps.fail position fault) fun d => (keeps d).fail position fault
      get := establishes_anything steps.get fun d => (keeps d).get
      bind := fun first rest =>
        establishes_bind first fun a n => (rest a n).imp fun _ _ known => ⟨known.1, fun _ _ _ => trivial⟩
      imports := fun file path position => establishes_anything (steps.imports file path position)
        fun d => (keeps d).imports file path position
      noteStruct := fun r => establishes_anything (steps.noteStruct r) fun d => (keeps d).noteStruct r
      give := fun known n => leads_pure ⟨.refl n, fun n' _ => known n'⟩
      chain := establishes_bind
      step := fun scope a => establishes (steps.step scope a) (fun d => (keeps d).step scope a)
        (leads_resolveAtom_known scope a) fun _ => known_lasts _
      target := fun scope name position => establishes (steps.target scope name position)
        (fun d => (keeps d).target scope name position)
        (fun n => (tells_findVariable scope name position n).2) fun _ => known_lasts _
      declareVar := fun v => establishes_anything (steps.declareVar v) fun d => (keeps d).declareVar v
      within := fun block isLoop inner n => leads_within ((inner _).imp fun a n' known => ?_)
      carries := fun _ parts => references_carry parts }
  exact ⟨⟨known.1.decls, known.1.imports, known.1.listing⟩, fun n'' after =>
    known.2 n'' ⟨after.decls, after.imports, after.listing⟩⟩

/-- The bodies of some functions refer to known items only. -/
def AllKnown (n : Names σ) (fs : List (FunctionItem Atom)) : Prop :=
  ∀ f ∈ fs, f.body.Everywhere (Stmt.Refers (Known n))

theorem leads_resolveItems_known (is : List (Item Atom)) (n : Names σ)
    (declared : ∀ f ∈ functionsOf is, IsDeclared f) :
    Leads (resolveItems loader scope is) n fun is' n' => AllKnown n' (functionsOf is') := by
  refine ((bodies_establish loader).resolveItems scope is n).imp ?_
  rintro is' n' ⟨-, known⟩
  refine forall_of_forall₂ (forall₂_imp_of_mem (known n' (.refl n')).functions ?_)
  intro f there f' known
  obtain ⟨s, signature, -⟩ := declared f there
  exact known.body (by rw [signature]; rfl) (Block.everywhere_iff.mpr fun _ _ => trivial)

theorem leads_file_known (n : Names σ) :
    Leads (file loader items) n fun items' n' => AllKnown n' (functionsOf items') := by
  have unknown {α : Type} {x : Resolving σ α} {n : Names σ} : Leads x n fun _ _ => True :=
    fun _ _ _ => trivial
  refine leads_bind unknown fun items1 n1 _ => leads_bind unknown fun _ n2 _ => ?_
  refine leads_bind unknown fun _ n3 _ => ?_
  refine leads_bind (Ensures.leads (ensures_declareValues_functions loader [] items1)) ?_
  intro items2 n4 declared
  refine leads_resolveItems_known [] items2 n4 (forall_of_forall₂ (declared.imp ?_))
  exact fun _ _ h => h.2

theorem leads_file_noted (noted : Noted n) : Leads (file loader items) n fun _ n' => Noted n' := by
  intro a n' gives
  have steps : Stepwise loader (file loader items) := stepwise_file items
  have kept := steps.keeps (fun _ _ step => step.noted) noted
  rwa [gives] at kept

end Resolving

/-! ## Names of files -/

def firstPart (name : String) : Option String := (splitName name).head?

theorem head?_splitAtDots_append (cs ds : List Char) :
    (splitAtDots (cs ++ '.' :: ds)).head? = (splitAtDots cs).head? := by
  induction cs with
  | nil => simp [splitAtDots]
  | cons c cs ih =>
    simp only [List.cons_append, splitAtDots]
    split
    · rfl
    · generalize splitAtDots (cs ++ '.' :: ds) = whole at ih ⊢
      generalize splitAtDots cs = parts at ih ⊢
      cases whole <;> cases parts <;> simp_all

/-- A mangled name begins with the name of the file. -/
theorem firstPart_mangle (root : String) (path : ModulePath) (name : String) (others : List Nat) :
    firstPart (Resolving.mangle (joinName (root :: path)) name others) = firstPart root := by
  rw [mangle_eq]
  simp only [firstPart, splitName, List.head?_map, String.toList_append]
  have dot : ".".toList = ['.'] := rfl
  rw [dot, List.append_assoc, List.singleton_append, head?_splitAtDots_append]

variable {r : Reference}

theorem Declarations.MadeOf.firstPart_mangled {names : List ItemName} {d : Declarations}
    (h : d.MadeOf names) (declared : r.DeclaredIn d) : firstPart r.mangled = firstPart d.root := by
  cases r with
  | function s =>
    obtain ⟨e, mem, there⟩ := List.mem_flatMap.mp declared
    obtain ⟨i, there⟩ := List.mem_iff_getElem?.mp there
    rw [Reference.mangled, ((h.members e mem).functions i s there).2]
    exact firstPart_mangle d.root e.1 _ _
  | global g =>
    obtain ⟨e, mem, there⟩ := List.mem_flatMap.mp declared
    rw [Reference.mangled, ((h.members e mem).globals g there).2.1]
    exact firstPart_mangle d.root e.1 _ _

theorem Reference.exists_listedIn {e : Externals} {name : String}
    (h : name ∈ r.listing e) : ∃ q : Reference, q.ListedIn e ∧ q.mangled = name := by
  cases r with
  | function s =>
    obtain ⟨t, there, same⟩ := List.mem_map.mp h
    exact ⟨.function t, there, same⟩
  | global g =>
    obtain ⟨t, there, same⟩ := List.mem_map.mp h
    exact ⟨.global t, there, same⟩

/-! ## Resolved files -/

/-- An import is of another file than the one given, and the items of that file are named after it. -/
structure Import.OfOther (own : String) (i : Import) : Prop where
  other : some i.file ≠ firstPart own
  named : ∀ r : Reference, r.DeclaredIn i.decls → firstPart r.mangled = some i.file

/-- How a module refers to other files. -/
structure Module.RefersOpenly (m : Module) : Prop where
  /-- What a body refers to is built in, of the file itself, or a public item of an import whose
  mangled name is listed exactly once. -/
  bodies : ∀ f ∈ m.tree.functions, f.body.Everywhere (Stmt.Refers fun r =>
    r.IsBuiltIn ∨ r.DeclaredIn m.decls ∨
      Offers m.imports r ∧ (r.listing m.externals).count r.mangled = 1)
  /-- All items that are listed are public ones of imports. -/
  listed : ∀ r : Reference, r.ListedIn m.externals → Offers m.imports r
  /-- As long as imports are of other files, no item of the file itself is listed. -/
  own : (∀ i ∈ m.imports, i.OfOther m.decls.root) →
    ∀ r : Reference, r.DeclaredIn m.decls → r.mangled ∉ r.listing m.externals

/-- With every loader, a file that is resolved refers to public items of its imports only, and lists
each of them once. -/
theorem resolve_refersOpenly (loader : Loader σ) (t : FileTree Atom) {m : Module}
    {shared shared' : Shared σ} (resolved : Gives (t.resolve loader) shared m shared') :
    m.RefersOpenly := by
  have made := (t.leads_resolve_madeOf loader shared m shared' resolved).2
  obtain ⟨items, shared1, -, resolved⟩ := Gives.of_bind resolved
  obtain ⟨r, shared2, ran, resolved⟩ := Gives.of_bind resolved
  obtain ⟨rfl, -⟩ := Gives.pure_iff.mp resolved
  have start : Resolving.Noted { shared := shared1, decls := .new t.name } := by
    refine ⟨fun r there => ?_, fun r => ?_⟩
    · cases r <;> cases there
    · cases r <;> exact List.nodup_nil
  have facts : Leads ((Resolving.file loader items).runIn t.name) shared1 fun r _ =>
      Resolving.AllKnown r.2 (functionsOf r.1) ∧ Resolving.Noted r.2 :=
    Resolving.leads_runIn ((Resolving.leads_file_known items _).and
      (Resolving.leads_file_noted items start))
  obtain ⟨known, noted⟩ := facts r shared2 ran
  refine ⟨fun f there => (known f there).imp fun s refers q mem => ?_, noted.offered, ?_⟩
  · rcases refers q mem with builtIn | own | ⟨offered, listed⟩
    · exact .inl builtIn
    · exact .inr (.inl own)
    · exact .inr (.inr ⟨offered, List.count_eq_one_of_mem (noted.once q) listed⟩)
  · intro others q declared listed
    obtain ⟨q', there, same⟩ := Reference.exists_listedIn listed
    obtain ⟨-, i, imported, offered⟩ := noted.offered q' there
    have foreign := (others i imported).named q' offered
    rw [same, made.firstPart_mangled declared] at foreign
    exact (others i imported).other foreign.symm

/-- A file with a module, public items and a private one. -/
def libraryText : String :=
  "pub const c := 1\n" ++
  "pub fn f(a: I32): I32 \x7b return a \x7d\n" ++
  "fn hidden() \x7b \x7d\n" ++
  "module deep \x7b\n" ++
  "  pub const d := 3\n" ++
  "  pub fn g(): I32 \x7b return 2 \x7d\n" ++
  "\x7d\n"

/-- A file that refers to items of another one, by full paths and by the last part of an import, to
one of them twice, and to functions of its own. -/
def callerText : String :=
  "import m\n" ++
  "import m.deep\n" ++
  "fn f(): I32 \x7b return 0 \x7d\n" ++
  "fn main(): I32 \x7b\n" ++
  "  x := deep.g() + f()\n" ++
  "  while x < m.c \x7b x = m.f(x) + deep.g() \x7d\n" ++
  "  return m.deep.d\n" ++
  "\x7d\n"

theorem resolve_refersOpenly_callerText :
    ∃ known l t m shared, scan callerText "main" = .ok l ∧ readTree l "main" = .ok t ∧
      Gives (t.resolve .ofKnown) ⟨{}, known⟩ m shared ∧
      m.externals.functions.map Signature.mangled = ["m.deep.g.0.0", "m.f.1.0"] ∧
      m.externals.globals.map Global.mangled = ["m.c", "m.deep.d"] ∧ m.RefersOpenly ∧
      (∀ i ∈ m.imports, i.OfOther m.decls.root) ∧
      ∀ r : Reference, r.DeclaredIn m.decls → r.mangled ∉ r.listing m.externals := by
  have run : readsBeside libraryText callerText (fun known t =>
      givesAs (t.resolve .ofKnown) ⟨{}, known⟩ fun m _ =>
        m.externals.functions.map Signature.mangled = ["m.deep.g.0.0", "m.f.1.0"] ∧
        m.externals.globals.map Global.mangled = ["m.c", "m.deep.d"] ∧
        ∀ i ∈ m.imports, some i.file ≠ firstPart m.decls.root ∧
          (∀ s ∈ i.decls.functions, firstPart s.mangled = some i.file) ∧
          ∀ g ∈ i.decls.globals, firstPart g.mangled = some i.file) = true := by
    decide +kernel
  obtain ⟨known, l, t, scanned, read, run⟩ := exists_of_readsBeside run
  obtain ⟨m, shared, resolved, run⟩ := exists_of_givesAs run
  obtain ⟨functions, globals, others⟩ := of_decide_eq_true run
  have open' := resolve_refersOpenly .ofKnown t resolved
  have ofOther : ∀ i ∈ m.imports, i.OfOther m.decls.root := by
    intro i there
    obtain ⟨other, named, named'⟩ := others i there
    refine ⟨other, fun r declared => ?_⟩
    cases r with
    | function s => exact named s declared
    | global g => exact named' g declared
  exact ⟨known, l, t, m, shared, scanned, read, resolved, functions, globals, open', ofOther,
    open'.own ofOther⟩

end EbLang
