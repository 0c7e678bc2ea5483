import EbLang.Build
import EbLang.Proofs.Loading
import EbLang.Proofs.Moves
import Mathlib.Data.List.Nodup
import Mathlib.Data.List.Perm.Basic

/-!
# Chains of imports

An import may have another file analysed first, an import of that file a third one, and so on.  The
files whose analysis waits for an import, and the file at hand, are a *chain*, the file at hand first.
A build keeps no chain; it marks files as in progress.

*Drivers.*  `Build.compileAlong` builds with the chain at hand.  An import is circular if the imported
file is on the chain, and between any two of its actions the marks are compared with the chain.  If
they differ, if a file is not ready that should be, or if the depth of nested imports runs out, an
alarm is raised.

*Files.*  `Sound` says of the files of a build that the marks agree with a chain, and that every
analysed file imports files that were finished before it.  Starting and finishing a file keep it.

The main statement is that `compile` does the same as `compileAlong` whatever the alarm is, so that the
alarm is never raised, and that a build that succeeds leaves every file finished.
-/

namespace EbLang

/-! ## A driver with a chain -/

/-- The names of the files in progress. -/
def underway (files : List SourceFile) : List String :=
  (files.filter fun f => f.state == .inProgress).map SourceFile.name

namespace Build

/-- Raises an alarm unless the files in progress are those of a chain. -/
def watch (alarm : Building Unit) (chain : List String) : Building Unit := do
  if !(underway (← current).files).isPerm chain then alarm

/-- Imports a file into the first one of a chain, after it is analysed by the given function. -/
def importAlong (alarm : Building Unit) (analyseFile : Nat → Building Unit) (chain : List String) :
    Loader Build := fun name position => do
  watch alarm chain
  match (← current).indexOf? name with
  | none => throw ⟨.unknownModule name, position⟩
  | some index =>
    if name ∈ chain then throw ⟨.circularDependency name, position⟩
    else
      if (← current).files[index]?.any fun f => f.state == .ready then analyseFile index
      watch alarm chain
      match (← current).files[index]?.bind SourceFile.exports with
      | some decls => return decls
      | none =>
        alarm
        throw ⟨.unknownModule name, position⟩

/-- Analyses a file that is ready, for an import of the first file of a chain. -/
def analyseAlong (alarm : Building Unit) : Nat → List String → Nat → Building Unit
  | 0, _, _ => alarm
  | depth + 1, chain, index => do
    watch alarm chain
    match (← current).files[index]? with
    | none => alarm
    | some f =>
      if f.state != .ready then return
      onFile index fun f => { f with state := .inProgress, lexed := none }
      match f.lexed with
      | none => alarm
      | some lexed =>
        let longer := f.name :: chain
        let m ← analyseLexed (importAlong alarm (analyseAlong alarm depth longer) longer) lexed f.name
        watch alarm longer
        writeOutputs f m
        watch alarm longer
        onFile index fun f =>
          { f with exports := some m.decls, analysed := some m, state := .finished }

/-- Adds a file and, up to the given depth, the files it includes, each name once. -/
def addAlong (alarm : Building Unit) : Nat → Path → Building Unit
  | 0, _ => return
  | depth + 1, path => do
    watch alarm []
    let name ← moduleName path
    if ((← current).file? name).isSome then return
    let includes ← addOne path name
    watch alarm []
    includes.forM fun file => addAlong alarm depth (path.parent.join file)

/-- Builds a file and everything it includes. -/
def compileAlong (alarm : Building Unit) (path : Path) : Building Unit := do
  addAlong alarm ((← current).store.nodes.length + 2) path
  let count := (← current).files.length
  (List.range count).forM fun index => analyseAlong alarm (count + 1) [] index

end Build

/-! ## Files of a build -/

/-- What a file has at hand in its state. -/
def SourceFile.Consistent (f : SourceFile) : Prop :=
  match f.state with
  | .ready => f.lexed.isSome = true ∧ f.analysed = none
  | .inProgress => f.analysed = none
  | .finished => f.exports.isSome = true

/-- Where a file comes from, and what it includes. -/
def SourceFile.origin (f : SourceFile) : String × Path × List String := (f.name, f.path, f.includes)

/-- The file of a name is finished. -/
def Finished (files : List SourceFile) (name : String) : Prop :=
  ∃ f ∈ files, f.name = name ∧ f.state = .finished

/-- Analysed files import finished ones, and those before them in some order. -/
def Ordered (files : List SourceFile) : Prop :=
  ∃ rank : String → Nat, ∀ f ∈ files, ∀ m, f.analysed = some m → ∀ i ∈ m.imports,
    Finished files i.file ∧ rank i.file < rank f.name

/-- The files in progress are those of a chain, and all files are as their states say. -/
structure Sound (chain : List String) (files : List SourceFile) : Prop where
  distinct : (files.map SourceFile.name).Nodup
  marks : (underway files).Perm chain
  consistent : ∀ f ∈ files, f.Consistent
  ordered : Ordered files

section Steps

variable {chain : List String} {before after : List SourceFile} {f f' : SourceFile} {name : String}

theorem underway_append (fs gs : List SourceFile) : underway
    (fs ++ gs) = underway fs ++ underway gs := by
  simp [underway]

theorem underway_cons (f : SourceFile) (fs : List SourceFile) :
    underway (f :: fs) = if f.state = .inProgress then f.name :: underway fs else underway fs := by
  simp only [underway, List.filter_cons, beq_iff_eq]
  split
  · rfl
  · rfl

variable {g : SourceFile}

theorem mem_middle : g ∈ before ++ f :: after ↔ g = f ∨ g ∈ before ++ after :=
  List.perm_middle.mem_iff.trans List.mem_cons

theorem name_ne_of_mem (distinct : ((before ++ f :: after).map SourceFile.name).Nodup)
    (there : g ∈ before ++ after) : g.name ≠ f.name := by
  have swapped := (List.perm_middle.map SourceFile.name).nodup_iff.mp distinct
  intro same
  exact (List.nodup_cons.mp swapped).1 (same ▸ List.mem_map_of_mem there)

/-- A finished file stays finished when another one changes. -/
theorem Finished.replace (h : Finished (before ++ f :: after) name)
    (unfinished : f.state ≠ .finished)
    (f' : SourceFile) : Finished (before ++ f' :: after) name := by
  obtain ⟨g, there, named, finished⟩ := h
  rcases mem_middle.mp there with rfl | other
  · exact absurd finished unfinished
  · exact ⟨g, mem_middle.mpr (.inr other), named, finished⟩

theorem Finished.ne_name (h : Finished (before ++ f :: after) name)
    (distinct : ((before ++ f :: after).map SourceFile.name).Nodup)
    (unfinished : f.state ≠ .finished) : name ≠ f.name := by
  obtain ⟨g, there, rfl, finished⟩ := h
  rcases mem_middle.mp there with rfl | other
  · exact absurd finished unfinished
  · exact name_ne_of_mem distinct other

theorem forall_mem_replace {P : SourceFile → Prop} (old : ∀ g ∈ before ++ f :: after, P g)
    (new : P f') : ∀ g ∈ before ++ f' :: after, P g := by
  intro g there
  rcases mem_middle.mp there with rfl | other
  · exact new
  · exact old g (mem_middle.mpr (.inr other))

/-- A file that is started joins the chain. -/
theorem Sound.start (h : Sound chain (before ++ f :: after)) (ready : f.state = .ready) :
    Sound (f.name :: chain)
      (before ++ { f with state := .inProgress, lexed := none } :: after) := by
  have unfinished : f.state ≠ .finished := by simp [ready]
  have fresh : f.analysed = none := by
    have consistent := h.consistent f (mem_middle.mpr (.inl rfl))
    simp only [SourceFile.Consistent, ready] at consistent
    exact consistent.2
  refine ⟨?_, ?_, ?_, ?_⟩
  · simpa using h.distinct
  · have marks := h.marks
    simp only [underway_append, underway_cons, ready, reduceCtorEq, if_false, if_true] at marks ⊢
    exact List.perm_middle.trans (marks.cons f.name)
  · exact forall_mem_replace h.consistent fresh
  · obtain ⟨rank, ordered⟩ := h.ordered
    refine ⟨rank, forall_mem_replace (f := f) ?_ ?_⟩
    · intro g there m analysed i imported
      obtain ⟨finished, less⟩ := ordered g there m analysed i imported
      exact ⟨finished.replace unfinished _, less⟩
    · intro m analysed
      rw [fresh] at analysed
      cases analysed

theorem exists_rank_bound (rank : String → Nat) (imports : List Import) :
    ∃ bound, ∀ i ∈ imports, rank i.file < bound := by
  induction imports with
  | nil => exact ⟨0, List.forall_mem_nil _⟩
  | cons i imports ih =>
    obtain ⟨bound, below⟩ := ih
    refine ⟨max bound (rank i.file + 1), List.forall_mem_cons.mpr ⟨by omega, fun j there => ?_⟩⟩
    have := below j there
    omega

/-- A file that is finished leaves the chain. -/
theorem Sound.finish (h : Sound (f.name :: chain) (before ++ f :: after))
    (inProgress : f.state = .inProgress) {m : Module}
    (imported : ∀ i ∈ m.imports, Finished (before ++ f :: after) i.file) :
    Sound chain (before ++
      { f with exports := some m.decls, analysed := some m, state := .finished } :: after) := by
  have unfinished : f.state ≠ .finished := by simp [inProgress]
  refine ⟨?_, ?_, ?_, ?_⟩
  · simpa using h.distinct
  · have marks := h.marks
    simp only [underway_append, underway_cons, inProgress, reduceCtorEq, if_false, if_true] at marks ⊢
    exact (List.perm_middle.symm.trans marks).cons_inv
  · exact forall_mem_replace h.consistent rfl
  · obtain ⟨rank, ordered⟩ := h.ordered
    obtain ⟨bound, below⟩ := exists_rank_bound rank m.imports
    -- The finished file comes after all that it imports; none of the others imports it.
    obtain ⟨later, last, same⟩ : ∃ later : String → Nat, later f.name = bound ∧
        ∀ x, x ≠ f.name → later x = rank x :=
      ⟨fun x => if x = f.name then bound else rank x, if_pos rfl, fun x other => if_neg other⟩
    refine ⟨later, fun g there m' analysed i listed => ?_⟩
    rcases mem_middle.mp there with rfl | other
    · cases analysed
      have finished := imported i listed
      refine ⟨finished.replace unfinished _, ?_⟩
      rw [last, same _ (finished.ne_name h.distinct unfinished)]
      exact below i listed
    · obtain ⟨finished, less⟩ := ordered g (mem_middle.mpr (.inr other)) m' analysed i listed
      refine ⟨finished.replace unfinished _, ?_⟩
      rw [same _ (finished.ne_name h.distinct unfinished), same _ (name_ne_of_mem h.distinct other)]
      exact less

/-- A new file that is not in progress and not analysed changes nothing. -/
theorem Sound.add {files : List SourceFile} (h : Sound chain files)
    (fresh : f.name ∉ files.map SourceFile.name) (consistent : f.Consistent)
    (idle : f.state ≠ .inProgress) (unread : f.analysed = none) : Sound chain (files ++ [f]) := by
  refine ⟨?_, ?_, ?_, ?_⟩
  · simpa using h.distinct.concat fresh
  · simpa [underway_append, underway_cons, idle, underway] using h.marks
  · intro g there
    rcases List.mem_append.mp there with old | new
    · exact h.consistent g old
    · exact List.mem_singleton.mp new ▸ consistent
  · obtain ⟨rank, ordered⟩ := h.ordered
    refine ⟨rank, fun g there m analysed i listed => ?_⟩
    rcases List.mem_append.mp there with old | new
    · obtain ⟨⟨k, mem, named, finished⟩, less⟩ := ordered g old m analysed i listed
      exact ⟨⟨k, List.mem_append_left _ mem, named, finished⟩, less⟩
    · rw [List.mem_singleton.mp new, unread] at analysed
      cases analysed

end Steps

/-! ## What is known during a build -/

/-- What is known while the chain and the names of the files are given, and some files finished. -/
structure Known (chain names done : List String) (files : List SourceFile) : Prop
    extends Sound chain files where
  names : files.map SourceFile.name = names
  finished : ∀ name ∈ done, Finished files name

section Known

variable {chain names done : List String} {files : List SourceFile} {f : SourceFile} {index : Nat}

theorem Known.length_eq (h : Known chain names done files) : files.length = names.length := by
  rw [← h.names, List.length_map]

/-- A chain is no longer than there are files. -/
theorem Known.length_chain (h : Known chain names done files) : chain.length ≤ names.length := by
  rw [← h.marks.length_eq, ← h.length_eq, underway, List.length_map]
  exact List.length_filter_le _ _

theorem Known.done_cons (h : Known chain names done files) {name : String}
    (finished : Finished files name) : Known chain names (name :: done) files :=
  { h with finished := List.forall_mem_cons.mpr ⟨finished, h.finished⟩ }

theorem Known.of_subset {done' : List String} (h : Known chain names done files)
    (subset : ∀ name ∈ done', name ∈ done) : Known chain names done' files :=
  { h with finished := fun name there => h.finished name (subset name there) }

/-- A file is found again by its name. -/
theorem Sound.eq_of_name (h : Sound chain files) {g : SourceFile} (hf : f ∈ files) (hg : g ∈ files)
    (same : f.name = g.name) : f = g :=
  List.inj_on_of_nodup_map h.distinct hf hg same

theorem Sound.mem_chain_iff (h : Sound chain files) (there : f ∈ files) :
    f.name ∈ chain ↔ f.state = .inProgress := by
  rw [← h.marks.mem_iff, underway, List.mem_map]
  constructor
  · intro marked
    obtain ⟨g, mem, same⟩ := marked
    obtain ⟨mem, state⟩ := List.mem_filter.mp mem
    rw [h.eq_of_name there mem same.symm]
    exact beq_iff_eq.mp state
  · intro state
    exact ⟨f, List.mem_filter.mpr ⟨there, by simp [state]⟩, rfl⟩

/-- The files around the one at an index. -/
theorem exists_split (here : files[index]? = some f) :
    ∃ before after, files = before ++ f :: after ∧
      ∀ change, files.modify index change = before ++ change f :: after := by
  obtain ⟨bound, rfl⟩ := List.getElem?_eq_some_iff.mp here
  refine ⟨files.take index, files.drop (index + 1), ?_, ?_⟩
  · rw [List.getElem_cons_drop, List.take_append_drop]
  · exact fun change => List.modify_eq_take_cons_drop bound

theorem Known.start (h : Known chain names done files) (here : files[index]? = some f)
    (ready : f.state = .ready) :
    Known (f.name :: chain) names done
      (files.modify index fun f => { f with state := .inProgress, lexed := none }) := by
  obtain ⟨before, after, rfl, changed⟩ := exists_split here
  rw [changed]
  refine ⟨h.toSound.start ready, ?_, ?_⟩
  · rw [← h.names]
    simp
  · exact fun name there => (h.finished name there).replace (by simp [ready]) _

theorem Known.finish (h : Known (f.name :: chain) names done files) (here : files[index]? = some f)
    {m : Module} (imported : ∀ i ∈ m.imports, Finished files i.file) :
    Known chain names (f.name :: done) (files.modify index fun f =>
      { f with exports := some m.decls, analysed := some m, state := .finished }) := by
  obtain ⟨before, after, rfl, changed⟩ := exists_split here
  have inProgress : f.state = .inProgress :=
    (h.mem_chain_iff (mem_middle.mpr (.inl rfl))).mp (.head chain)
  rw [changed]
  refine ⟨h.toSound.finish inProgress imported, ?_, ?_⟩
  · rw [← h.names]
    simp
  · refine List.forall_mem_cons.mpr ⟨?_, fun name there => ?_⟩
    · exact ⟨_, mem_middle.mpr (.inl rfl), rfl, rfl⟩
    · exact (h.finished name there).replace (by simp [inProgress]) _

end Known

/-! ## Actions of a build -/

namespace Build

variable {α β : Type}
variable {x : Building α} {I : Shared Build → Prop} {R : α → Shared Build → Prop} {s : Shared Build}
  {done : List String} {index : Nat}

/-- The files are the same afterwards, also after a failure. -/
def SameFiles (x : Building α) : Prop := ∀ s, (x.run.run s).2.world.files = s.world.files

theorem sameFiles_pure (a : α) : SameFiles (pure a) := fun _ => rfl

theorem sameFiles_throw (e : Error) : SameFiles (throw e : Building α) := fun _ => rfl

theorem sameFiles_get : SameFiles (get : Building (Shared Build)) := fun _ => rfl

theorem sameFiles_current : SameFiles current := fun _ => rfl

theorem sameFiles_change {f : Build → Build} (h : ∀ b, (f b).files = b.files) :
    SameFiles (change f) :=
  fun s => h s.world

theorem sameFiles_bind {f : α → Building β} (hx : SameFiles x)
    (hf : ∀ a, SameFiles (f a)) : SameFiles (x >>= f) := by
  intro s
  have same := hx s
  simp only [ExceptT.run_bind, StateT.run_bind]
  cases run : x.run.run s with
  | mk r s' =>
    rw [run] at same
    cases r with
    | error e => exact same
    | ok a => exact (hf a s').trans same

variable (p : Path)

theorem sameFiles_onDisk (x : Except FileFault α) : SameFiles (onDisk p x) := by
  cases x with
  | ok a => exact sameFiles_pure a
  | error fault => exact sameFiles_throw _

theorem sameFiles_writeFile (content : Bytes) : SameFiles (writeFile p content) := by
  refine sameFiles_bind sameFiles_current fun b => ?_
  exact sameFiles_bind (sameFiles_onDisk p _) fun store => sameFiles_change fun _ => rfl

theorem sameFiles_makeDirectory : SameFiles (makeDirectory p) := by
  refine sameFiles_bind sameFiles_current fun b => ?_
  refine sameFiles_bind (sameFiles_change fun _ => rfl) fun _ => ?_
  split
  · exact sameFiles_pure _
  · exact sameFiles_throw _

theorem sameFiles_writeOutputs (f : SourceFile) (m : Module) : SameFiles (writeOutputs f m) := by
  refine sameFiles_bind sameFiles_current fun b => ?_
  refine sameFiles_bind (sameFiles_makeDirectory _) fun _ => ?_
  refine sameFiles_bind sameFiles_get fun s => ?_
  refine sameFiles_bind (sameFiles_writeFile _ _) fun _ => ?_
  split
  · exact sameFiles_writeFile _ _
  · exact sameFiles_pure _

/-- What is known of the files stays so while they do. -/
theorem SameFiles.keep (h : SameFiles x) (P : List SourceFile → Prop) :
    Keep (fun s => P s.world.files) x x := by
  refine agree_self fun s hs => ?_
  intro a s' gives
  have same := h s
  rw [gives] at same
  rw [same]
  exact hs

theorem agree_current {k k' : Build → Building α}
    (h : ∀ s, I s → Agree (fun s' => s' = s ∧ I s') R (k s.world) (k' s.world)) :
    Agree I R (current >>= k) (current >>= k') :=
  agree_get h

section Pinned

variable {I : Shared Build → Prop} {R : α → Shared Build → Prop} {s : Shared Build}
  {k : Build → Building α} {x : Building α}

theorem agree_current_left (h : Agree (fun s' => s' = s ∧ I s') R (k s.world) x) :
    Agree (fun s' => s' = s ∧ I s') R (current >>= k) x := by
  intro s' hs
  have here := h s' hs
  obtain ⟨rfl, -⟩ := hs
  exact here

theorem agree_current_right (h : Agree (fun s' => s' = s ∧ I s') R x (k s.world)) :
    Agree (fun s' => s' = s ∧ I s') R x (current >>= k) := by
  intro s' hs
  have here := h s' hs
  obtain ⟨rfl, -⟩ := hs
  exact here

end Pinned

variable {y : Building α} {alarm : Building Unit}

/-- On one side something may be done first that does nothing. -/
theorem agree_skip {w : Building Unit}
    (h : ∀ s, I s → w.run.run s = (.ok (), s)) (rest : Agree I R x y) :
    Agree I R (w >>= fun _ => x) y := by
  intro s hs
  have run : (w >>= fun _ => x).run.run s = x.run.run s := by
    simp only [ExceptT.run_bind, StateT.run_bind, h s hs]
    rfl
  obtain ⟨same, leads⟩ := rest s hs
  refine ⟨run.trans same, ?_⟩
  intro a s' gives
  exact leads a s' (run.symm.trans gives)

theorem run_watch {chain : List String}
    (marks : (underway s.world.files).Perm chain) : (watch alarm chain).run.run s = (.ok (), s) := by
  have agrees := List.isPerm_iff.mpr marks
  change ((if !(underway s.world.files).isPerm chain then alarm else pure () : Building Unit).run).run s = _
  rw [agrees]
  rfl

/-! ## Analysing along a chain -/

/-- What is known of the files of a build. -/
abbrev Knows (chain names done : List String) (s : Shared Build) : Prop :=
  Known chain names done s.world.files

theorem agree_watch {chain names : List String} (rest : Agree (Knows chain names done) R x y) :
    Agree (Knows chain names done) R (watch alarm chain >>= fun _ => x) y :=
  agree_skip (fun _ hs => run_watch hs.marks) rest

/-- Two ways to analyse a file do the same with a chain, and finish it unless it is on the chain. -/
def Analyses (chain names : List String) (along within : Nat → Building Unit) : Prop :=
  ∀ (done : List String) (index : Nat) (name : String), names[index]? = some name →
    name ∉ chain →
      Agree (Knows chain names done) (fun _ => Knows chain names (name :: done)) (along index)
        (within index)

variable {chain names : List String} {along within : Nat → Building Unit}

theorem Knows.getElem? (h : Knows chain names done s)
    {f : SourceFile} (here : s.world.files[index]? = some f) : names[index]? = some f.name := by
  rw [← h.names, List.getElem?_map, here]
  rfl

theorem Knows.exists_file (h : Knows chain names done s)
    {name : String} (named : names[index]? = some name) :
    ∃ f, s.world.files[index]? = some f ∧ f.name = name := by
  rw [← h.names, List.getElem?_map, Option.map_eq_some_iff] at named
  exact named

/-- What a finished file declares is at hand. -/
theorem agree_exports (alarm : Building Unit) (chain done : List String)
    {name : String} (named : names[index]? = some name) (unknown : Error) :
    Keep (Knows chain names (name :: done))
      (do
        watch alarm chain
        match (← current).files[index]?.bind SourceFile.exports with
        | some decls => return decls
        | none =>
          alarm
          throw unknown)
      (do
        match (← current).files[index]?.bind SourceFile.exports with
        | some decls => return decls
        | none => throw unknown) := by
  refine agree_watch (agree_current fun s hs => ?_)
  obtain ⟨f, here, rfl⟩ := hs.exists_file named
  have exported : f.exports.isSome = true := by
    obtain ⟨g, there, same, finished⟩ := hs.finished f.name (.head done)
    have consistent := hs.consistent g there
    rw [hs.eq_of_name there (List.mem_of_getElem? here) same] at consistent finished
    simpa only [SourceFile.Consistent, finished] using consistent
  obtain ⟨decls, exported⟩ := Option.isSome_iff_exists.mp exported
  simp only [here, Option.bind_some, exported]
  exact agree_pure fun s' hs' => hs'.2

theorem agree_importAlong (alarm : Building Unit) (h : Analyses chain names along within)
    (done : List String) (name : String) (position : Position) :
    Agree (Knows chain names done) (fun _ => Knows chain names (name :: done))
      (importAlong alarm along chain name position) (importWith within name position) := by
  refine agree_watch (agree_current fun s hs => ?_)
  cases found : s.world.indexOf? name with
  | none => exact agree_throw
  | some index =>
    obtain ⟨bound, same, -⟩ := List.findIdx?_eq_some_iff_getElem.mp found
    obtain ⟨f, here, rfl⟩ : ∃ f, s.world.files[index]? = some f ∧ f.name = name :=
      ⟨_, List.getElem?_eq_getElem bound, beq_iff_eq.mp same⟩
    have onChain := hs.mem_chain_iff (List.mem_of_getElem? here)
    have exports := agree_exports alarm chain done (hs.getElem? here)
      ⟨.unknownModule f.name, position⟩
    refine agree_current_right ?_
    simp only [here, Option.map_some]
    cases state : f.state with
    | inProgress =>
      rw [if_pos (onChain.mpr state)]
      exact agree_throw
    | ready =>
      have off : f.name ∉ chain := fun on => by simp [onChain.mp on] at state
      rw [if_neg off]
      refine agree_current_left ?_
      simp only [here, Option.any_some, state]
      have analysed := (h done index f.name (hs.getElem? here) off).of_imp
        fun s' (hs' : s' = s ∧ Knows chain names done s') => hs'.2
      exact agree_bind analysed fun _ => exports
    | finished =>
      have off : f.name ∉ chain := fun on => by simp [onChain.mp on] at state
      rw [if_neg off]
      refine agree_current_left ?_
      simp only [here, Option.any_some, state]
      refine exports.of_imp fun s' hs' => hs'.2.done_cons ?_
      obtain ⟨rfl, -⟩ := hs'
      exact ⟨f, List.mem_of_getElem? here, rfl, state⟩

/-- The names in view in a file that is analysed along a chain: all its imports are finished. -/
abbrev Imported (chain names done : List String) (n : Names Build) : Prop :=
  Knows chain names (n.imports.map Import.file ++ done) n.shared

theorem steady_importAlong (alarm : Building Unit) (h : Analyses chain names along within)
    (done : List String) :
    Resolving.Steady (Imported chain names done) (importAlong alarm along chain)
      (importWith within) where
  scopes _ _ hn := hn
  externals _ _ hn := hn
  decls _ _ hn := hn
  addRow _ hn := hn
  setMembers _ _ _ _ hn := hn
  imports file path position := by
    refine Resolving.keep_importFile ?_ (Resolving.agree_lift fun n hn => ?_) path
    · intro n i hn listed
      refine Known.of_subset hn ?_
      simp only [List.map_append, List.map_cons, List.map_nil, List.mem_append, List.mem_singleton]
      rintro name ((there | rfl) | there)
      · exact .inl there
      · exact .inl listed
      · exact .inr there
    · obtain ⟨same, leads⟩ := agree_importAlong alarm h _ file position n.shared hn
      refine ⟨same, leads.imp fun decls shared hs path => Known.of_subset hs ?_⟩
      simp only [List.map_append, List.map_cons, List.map_nil, List.mem_append, List.mem_cons]
      tauto

theorem agree_onFile {J : Shared Build → Prop} {g : SourceFile → SourceFile}
    (h : ∀ s, I s → J { s with world := { s.world with files := s.world.files.modify index g } }) :
    Agree I (fun _ => J) (onFile index g) (onFile index g) :=
  agree_modify h

/-- What is left to do when a file has been analysed. -/
theorem agree_finishFile (alarm : Building Unit) {f : SourceFile}
    (named : names[index]? = some f.name) (m : Module) :
    Agree (Knows (f.name :: chain) names (m.imports.map Import.file ++ done))
      (fun _ => Knows chain names (f.name :: done))
      (do
        watch alarm (f.name :: chain)
        writeOutputs f m
        watch alarm (f.name :: chain)
        onFile index fun f =>
          { f with exports := some m.decls, analysed := some m, state := .finished })
      (do
        writeOutputs f m
        onFile index fun f =>
          { f with exports := some m.decls, analysed := some m, state := .finished }) := by
  refine agree_watch (agree_bind ((sameFiles_writeOutputs f m).keep _) fun _ => agree_watch ?_)
  refine agree_onFile fun s hs => ?_
  obtain ⟨g, here, same⟩ := hs.exists_file named
  rw [← same] at hs ⊢
  have imported : ∀ i ∈ m.imports, Finished s.world.files i.file := fun i listed =>
    hs.finished i.file (List.mem_append_left _ (List.mem_map_of_mem listed))
  refine (hs.finish here imported).of_subset ?_
  simp only [List.mem_cons, List.mem_append]
  tauto

/-- Nested imports do not run out of depth, and analyse files in the same way. -/
theorem analyses_analyseAlong (alarm : Building Unit) (names : List String) :
    ∀ (depth : Nat) (chain : List String), names.length < depth + chain.length →
      Analyses chain names (analyseAlong alarm depth chain) (analyseWithin depth)
  | 0, chain, enough => by
    intro done index name named off s hs
    have := hs.length_chain
    omega
  | depth + 1, chain, enough => by
    intro done index name named off
    refine agree_watch (agree_current fun s hs => ?_)
    obtain ⟨f, here, rfl⟩ := hs.exists_file named
    have there := List.mem_of_getElem? here
    simp only [here]
    cases state : f.state with
    | inProgress => exact absurd ((hs.mem_chain_iff there).mpr state) off
    | finished =>
      refine agree_pure fun s' hs' => hs'.2.done_cons ?_
      obtain ⟨rfl, -⟩ := hs'
      exact ⟨f, there, rfl, state⟩
    | ready =>
      have lexed : f.lexed.isSome = true := by
        have consistent := hs.consistent f there
        simp only [SourceFile.Consistent, state] at consistent
        exact consistent.1
      obtain ⟨l, lexed⟩ := Option.isSome_iff_exists.mp lexed
      have inner := analyses_analyseAlong alarm names depth (f.name :: chain)
        (by simp only [List.length_cons]; omega)
      simp only [lexed]
      refine agree_bind (P := fun _ => Knows (f.name :: chain) names done) ?_ fun _ => ?_
      · refine agree_onFile fun s' hs' => ?_
        obtain ⟨rfl, known⟩ := hs'
        exact known.start here state
      · refine agree_bind ?_ (agree_finishFile alarm named)
        refine (agree_analyseLexed (steady_importAlong alarm inner done) l f.name ?_).imp ?_
        · exact fun shared known => known
        · intro m shared ended
          obtain ⟨n, known, rfl, imports⟩ := ended
          rw [imports]
          exact known

/-! ## Adding files -/

/-- One file is added, not in progress and not analysed, and at most its listing is written. -/
structure AddsOne (path : Path) (name : String) (s : Shared Build) (includes : List String)
    (s' : Shared Build) : Prop where
  files : ∃ f, s'.world.files = s.world.files ++ [f] ∧ f.origin = (name, path, includes) ∧
    f.Consistent ∧ f.state ≠ .inProgress ∧ f.analysed = none
  found : ∃ node, s.world.store.lookup path = .ok node
  store : s'.world.store = s.world.store ∨ ∃ content,
    s.world.store.write (s.world.options.listingPath name) content .fresh = .ok s'.world.store

section Adding

variable {s' : Shared Build} {path : Path} {name : String}

theorem leads_onDisk {p : Path} {x : Except FileFault α} :
    Leads (onDisk p x) s fun a s' => s' = s ∧ x = .ok a := by
  cases x with
  | error fault => exact leads_throw
  | ok a => exact leads_pure ⟨rfl, rfl⟩

theorem leads_writeFile {p : Path} {content : Bytes} :
    Leads (writeFile p content) s fun _ s' => ∃ store,
      s.world.store.write p content .fresh = .ok store ∧ s' = { s with world := { s.world with store } } := by
  refine leads_get (leads_bind leads_onDisk ?_)
  rintro store s1 ⟨rfl, written⟩ _ s' ⟨⟩
  exact ⟨store, written, rfl⟩

variable {store : FileStore}

theorem lookup_of_readText {text : String} (h : store.readText path = .ok text) :
    ∃ node, store.lookup path = .ok node := by
  cases found : store.lookup path with
  | error fault => simp [FileStore.readText, FileStore.read, found, bind, Except.bind] at h
  | ok node => exact ⟨node, rfl⟩

theorem lookup_of_stamp? {stamp : Stamp} (h : store.stamp? path = some stamp) :
    ∃ node, store.lookup path = .ok node := by
  cases found : store.lookup path with
  | error fault => simp [FileStore.stamp?, found] at h
  | ok node => exact ⟨node, rfl⟩

theorem leads_addFromSource : Leads (addFromSource path name) s (AddsOne path name s) := by
  refine leads_get (leads_bind leads_onDisk ?_)
  rintro text s1 ⟨rfl, read⟩
  refine leads_bind (leads_lift ensures_self) ?_
  rintro lexed s2 ⟨rfl, -⟩
  refine leads_modify (leads_modify (leads_pure ?_))
  exact ⟨⟨_, rfl, rfl, ⟨rfl, rfl⟩, by simp, rfl⟩, lookup_of_readText read, .inl rfl⟩

theorem leads_addFromSidecar (fresh : s.world.isFresh path name = true) :
    Leads (addFromSidecar path name) s (AddsOne path name s) := by
  have found : ∃ node, s.world.store.lookup path = .ok node := by
    simp only [isFresh, Bool.and_eq_true] at fresh
    split at fresh
    next source _ stamped _ => exact lookup_of_stamp? stamped
    next => simp at fresh
  refine leads_get (leads_bind leads_onDisk ?_)
  rintro bytes s1 ⟨rfl, -⟩
  split
  · exact leads_throw
  · refine leads_bind leads_writeFile ?_
    rintro _ s2 ⟨store, written, rfl⟩
    refine leads_modify (leads_pure ?_)
    exact ⟨⟨_, rfl, rfl, rfl, by simp, rfl⟩, found, .inr ⟨_, written⟩⟩

theorem run_current {k : Build → Building α} (s : Shared Build) :
    (current >>= k).run.run s = (k s.world).run.run s :=
  rfl

/-- A sidecar that cannot be used leaves nothing behind. -/
theorem eq_of_fails_addFromSidecar {e : Error} (h : Fails (addFromSidecar path name) s e s') :
    s' = s := by
  rw [Fails, addFromSidecar, run_current] at h
  simp only at h
  cases read : s.world.store.read (s.world.options.sidecarPath name) with
  | error fault =>
    rw [read] at h
    cases h
    rfl
  | ok bytes =>
    simp only [read, onDisk, pure_bind, writeFile, bind_assoc] at h
    split at h
    · cases h
      rfl
    next sidecar decls _ =>
      rw [run_current] at h
      cases written : s.world.store.write (s.world.options.listingPath name) sidecar.listing
          .fresh with
      | error fault =>
        rw [written] at h
        cases h
        rfl
      | ok store =>
        rw [written] at h
        cases h

theorem leads_addOne : Leads (addOne path name) s (AddsOne path name s) := by
  refine leads_get ?_
  split
  next fresh =>
    refine leads_tryCatch (leads_addFromSidecar fresh) fun e s1 fails => ?_
    rw [eq_of_fails_addFromSidecar fails]
    exact leads_addFromSource
  next => exact leads_addFromSource

end Adding

/-- While files are added none is in progress. -/
abbrev Adding (s : Shared Build) : Prop := Sound [] s.world.files

theorem keep_addAlong (alarm : Building Unit) : ∀ (depth : Nat) (path : Path),
    Keep Adding (addAlong alarm depth path) (addWithin depth path)
  | 0, path => keep_pure _
  | depth + 1, path => by
    refine agree_skip (fun _ hs => run_watch hs.marks) ?_
    refine agree_bind (agree_liftExcept _) fun name => agree_of_and fun _ => ?_
    refine agree_current fun s hs => ?_
    cases found : s.world.file? name with
    | some f => exact agree_pure fun s' hs' => hs'.2
    | none =>
      have fresh : name ∉ s.world.files.map SourceFile.name := by
        intro there
        obtain ⟨f, mem, rfl⟩ := List.mem_map.mp there
        simpa using List.find?_eq_none.mp found f mem
      refine agree_bind (P := fun _ => Adding) ?_ fun includes => ?_
      · refine agree_self fun s' hs' => ?_
        obtain ⟨rfl, -⟩ := hs'
        refine leads_addOne.imp ?_
        rintro includes s1 ⟨⟨f, files, origin, consistent, idle, unread⟩, -, -⟩
        cases origin
        rw [Adding, files]
        exact hs.add fresh consistent idle unread
      · refine agree_skip (fun _ hs => run_watch hs.marks) ?_
        exact keep_forM (fun file => keep_addAlong alarm depth _) includes

/-! ## Whole builds -/

/-- Every file in turn is analysed in the same way, and finished. -/
theorem agree_forM_analyseAlong (alarm : Building Unit) (names : List String) (depth : Nat)
    (enough : names.length < depth) : ∀ (indices : List Nat) (done : List String),
      (∀ index ∈ indices, index < names.length) →
      Agree (Knows [] names done)
        (fun _ s => Knows [] names done s ∧
          ∀ index ∈ indices, ∀ name, names[index]? = some name → Finished s.world.files name)
        (indices.forM fun index => analyseAlong alarm depth [] index)
        (indices.forM (analyseWithin depth))
  | [], done, _ => by
    refine agree_pure fun s hs => ⟨hs, ?_⟩
    simp
  | index :: indices, done, bounds => by
    obtain ⟨bound, others⟩ := List.forall_mem_cons.mp bounds
    have named := List.getElem?_eq_getElem bound
    have first := analyses_analyseAlong alarm names depth [] (by simpa using enough) done index _
      named (by simp)
    refine agree_bind first fun _ => ?_
    refine (agree_forM_analyseAlong alarm names depth enough indices _ others).imp ?_
    rintro _ s ⟨known, rest⟩
    refine ⟨known.of_subset fun name there => .tail _ there, List.forall_mem_cons.mpr ⟨?_, rest⟩⟩
    intro name same
    rw [named] at same
    cases same
    exact known.finished _ (.head _)

theorem agree_compileAlong (alarm : Building Unit) (path : Path) :
    Agree Adding
      (fun _ s => Sound [] s.world.files ∧ ∀ f ∈ s.world.files, Finished s.world.files f.name)
      (compileAlong alarm path) (compile path) := by
  simp only [compileAlong, compile, add, all, bind_assoc]
  refine agree_current fun s _ => ?_
  refine agree_bind ((keep_addAlong alarm _ path).of_imp fun s' hs' => hs'.2) fun _ => ?_
  refine agree_current fun s hs => ?_
  have count : (s.world.files.map SourceFile.name).length = s.world.files.length :=
    List.length_map _
  have loop := agree_forM_analyseAlong alarm (s.world.files.map SourceFile.name)
    (s.world.files.length + 1) (by omega) (List.range s.world.files.length) []
    (fun index there => by rw [count]; exact List.mem_range.mp there)
  refine (loop.of_imp ?_).imp ?_
  · rintro s' ⟨rfl, sound⟩
    exact ⟨sound, rfl, List.forall_mem_nil _⟩
  · rintro _ s' ⟨known, finished⟩
    refine ⟨known.toSound, fun f there => ?_⟩
    obtain ⟨index, here⟩ := List.mem_iff_getElem?.mp there
    have bound := (List.getElem?_eq_some_iff.mp here).1
    rw [known.length_eq, count] at bound
    exact finished index (List.mem_range.mpr bound) f.name (Knows.getElem? known here)

end Build

/-- An analysed file of a build imports another one. -/
def Imports (files : List SourceFile) (f g : SourceFile) : Prop :=
  f ∈ files ∧ g ∈ files ∧ g.analysed.isSome = true ∧
    ∃ m, f.analysed = some m ∧ ∃ i ∈ m.imports, i.file = g.name

/-- The files of a build whose imports are all resolved. -/
structure Resolved (files : List SourceFile) : Prop where
  distinct : (files.map SourceFile.name).Nodup
  finished : ∀ f ∈ files, f.state = .finished ∧ f.exports.isSome = true
  acyclic : ∀ f, ¬ Relation.TransGen (Imports files) f f

variable {files : List SourceFile}

theorem Ordered.acyclic (h : Ordered files) (f : SourceFile) :
    ¬ Relation.TransGen (Imports files) f f := by
  obtain ⟨rank, ordered⟩ := h
  have step {f g : SourceFile} (imports : Imports files f g) : rank g.name < rank f.name := by
    obtain ⟨there, -, -, m, analysed, i, listed, same⟩ := imports
    exact same ▸ (ordered f there m analysed i listed).2
  have descends {f g : SourceFile} (path : Relation.TransGen (Imports files) f g) :
      rank g.name < rank f.name := by
    induction path with
    | single imports => exact step imports
    | tail _ imports ih => exact Nat.lt_trans (step imports) ih
  exact fun cycle => Nat.lt_irrefl _ (descends cycle)

theorem Sound.resolved (h : Sound [] files)
    (all : ∀ f ∈ files, Finished files f.name) : Resolved files := by
  refine ⟨h.distinct, fun f there => ?_, h.ordered.acyclic⟩
  obtain ⟨g, mem, same, finished⟩ := all f there
  rw [h.eq_of_name mem there same] at finished
  have consistent := h.consistent f there
  simp only [SourceFile.Consistent, finished] at consistent
  exact ⟨finished, consistent⟩

/-- Whatever the alarm does, a build that keeps the chain of nested imports in hand, compares it with
the files in progress between any two actions, and by it tells circular imports does what a build does.
If it succeeds, files have different names and are all finished, what they declare is known, and no
analysed file imports itself through others. -/
theorem compile_alongChain (alarm : Building Unit) (path : Path) (options : Options)
    (store : FileStore) :
    (Build.compileAlong alarm path).run.run (Build.start options store) =
        (Build.compile path).run.run (Build.start options store) ∧
      Leads (Build.compile path) (Build.start options store) fun _ s => Resolved s.world.files := by
  have nothing : Build.Adding (Build.start options store) :=
    ⟨List.nodup_nil, .refl _, List.forall_mem_nil _, fun _ => 0, List.forall_mem_nil _⟩
  obtain ⟨same, leads⟩ := Build.agree_compileAlong alarm path _ nothing
  refine ⟨same, fun a s gives => ?_⟩
  obtain ⟨sound, all⟩ := leads a s (same.trans gives)
  exact sound.resolved all

/-- The message of a build that fails. -/
def buildMessage (path : Path) (options : Options) (store : FileStore) : Option String :=
  match (Build.compile path).run.run (Build.start options store) with
  | (.ok _, _) => none
  | (.error e, _) => some e.fault.message

/-- A file that imports another one, which imports a third. -/
def nestedImports : FileStore :=
  ⟨[(["a.eb"], .file (Sidecar.utf8 "#include b.eb\nimport b") (.known 0)),
    (["b.eb"], .file (Sidecar.utf8 "#include c.eb\nimport c") (.known 0)),
    (["c.eb"], .file (Sidecar.utf8 "pub fn f() \x7b \x7d") (.known 0))]⟩

theorem compile_alongChain_nestedImports :
    ∃ s, Gives (Build.compile ⟨"a.eb"⟩) (Build.start {} nestedImports) () s ∧
      s.world.files.map SourceFile.name = ["a", "b", "c"] ∧
      s.world.files.map (fun f => (f.analysed.map Module.imports).map (·.map Import.file)) =
        [some ["b"], some ["c"], some []] ∧
      Resolved s.world.files := by
  have run : givesAs (Build.compile ⟨"a.eb"⟩) (Build.start {} nestedImports) (fun _ s =>
      s.world.files.map SourceFile.name = ["a", "b", "c"] ∧
      s.world.files.map (fun f => (f.analysed.map Module.imports).map (·.map Import.file)) =
        [some ["b"], some ["c"], some []]) = true := by
    decide +kernel
  obtain ⟨_, s, built, checked⟩ := exists_of_givesAs run
  obtain ⟨names, imports⟩ := of_decide_eq_true checked
  exact ⟨s, built, names, imports,
    (compile_alongChain (pure ()) ⟨"a.eb"⟩ {} nestedImports).2 () s built⟩

/-- Two files that import each other. -/
def mutualImports : FileStore :=
  ⟨[(["a.eb"], .file (Sidecar.utf8 "#include b.eb\nimport b") (.known 0)),
    (["b.eb"], .file (Sidecar.utf8 "import a") (.known 0))]⟩

example : buildMessage ⟨"a.eb"⟩ {} mutualImports = some "Circular dependency on module \"a\"" := by
  decide +kernel

end EbLang
