import EbLang.Proofs.Imports
import EbLang.Proofs.Steps

/-!
# Builds that go on after a failure

A build may be asked again and again to add files and to analyse those it has, while the files on disk
change, and whether or not the earlier requests were met.

*Turns.*  `Turn` lists what `analyseWithin` does with one file.  The file is marked before it is
analysed, and its tokens are taken away, so a failure leaves it in progress for good.

*Progress.*  Only files that are ready ever change.  Whatever the outcome they are not ready any more
if they changed; if the analysis succeeds they are finished.

The main statement is that an analysis of all files that succeeds leaves no file ready, and that all
files are finished exactly if no such analysis failed before.
-/

namespace EbLang

open Relation

variable {f : SourceFile}

/-! ## What happens to files -/

/-- A file stays as it is, unless it is ready and gets into one of some states. -/
def GoesOver (S : FileState → Prop) (f g : SourceFile) : Prop :=
  f.Consistent → g = f ∨ f.state = .ready ∧ S g.state ∧ g.Consistent ∧ g.origin = f.origin

/-- The files of a build go over, each at its place. -/
structure AllGoOver (S : FileState → Prop) (fs gs : List SourceFile) : Prop where
  length_eq : gs.length = fs.length
  each : ∀ (index : Nat) (f g : SourceFile),
    fs[index]? = some f → gs[index]? = some g → GoesOver S f g

/-- A file whose analysis begins. -/
def SourceFile.begun (f : SourceFile) : SourceFile := { f with state := .inProgress, lexed := none }

/-- A file whose analysis has given a module. -/
def SourceFile.concluded (m : Module) (f : SourceFile) : SourceFile :=
  { f with exports := some m.decls, analysed := some m, state := .finished }

theorem SourceFile.Consistent.begun (h : f.Consistent) (ready : f.state = .ready) :
    f.begun.Consistent := by
  simp only [SourceFile.Consistent, ready] at h
  exact h.2

theorem SourceFile.Consistent.lexed (h : f.Consistent) (ready : f.state = .ready) :
    f.lexed.isSome = true := by
  simp only [SourceFile.Consistent, ready] at h
  exact h.1

theorem SourceFile.Consistent.exports (h : f.Consistent)
    (finished : f.state = .finished) : f.exports.isSome = true := by
  simpa only [SourceFile.Consistent, finished] using h

section Advance

variable {S : FileState → Prop} {fs gs hs : List SourceFile} {f g : SourceFile} {index : Nat}

theorem GoesOver.consistent (h : GoesOver S f g) (consistent : f.Consistent) : g.Consistent := by
  rcases h consistent with rfl | ⟨-, -, after, -⟩
  · exact consistent
  · exact after

theorem GoesOver.origin (h : GoesOver S f g) (consistent : f.Consistent) : g.origin = f.origin := by
  rcases h consistent with rfl | ⟨-, -, -, origin⟩
  · rfl
  · exact origin

theorem GoesOver.eq (h : GoesOver S f g) (consistent : f.Consistent) (busy : f.state ≠ .ready) :
    g = f := by
  rcases h consistent with same | ⟨ready, -⟩
  · exact same
  · exact absurd ready busy

theorem GoesOver.trans {h : SourceFile} (settled : ¬ S .ready) (first : GoesOver S f g)
    (second : GoesOver S g h) : GoesOver S f h := by
  intro consistent
  rcases first consistent with rfl | ⟨ready, state, after, origin⟩
  · exact second consistent
  · have same : h = g := second.eq after fun again => settled (again ▸ state)
    rw [same]
    exact .inr ⟨ready, state, after, origin⟩

theorem AllGoOver.refl (fs : List SourceFile) : AllGoOver S fs fs := by
  refine ⟨rfl, fun index f g here there => ?_⟩
  rw [here] at there
  cases there
  exact fun _ => .inl rfl

/-- The file that one at a place has become. -/
theorem AllGoOver.exists_here (h : AllGoOver S fs gs) (here : fs[index]? = some f) :
    ∃ g, gs[index]? = some g ∧ GoesOver S f g := by
  obtain ⟨bound, -⟩ := List.getElem?_eq_some_iff.mp here
  have there : gs[index]? = some _ := List.getElem?_eq_getElem (h.length_eq ▸ bound)
  exact ⟨_, there, h.each index f _ here there⟩

/-- The file that one at a place has been. -/
theorem AllGoOver.exists_there (h : AllGoOver S fs gs) (there : gs[index]? = some g) :
    ∃ f, fs[index]? = some f ∧ GoesOver S f g := by
  obtain ⟨bound, -⟩ := List.getElem?_eq_some_iff.mp there
  have here : fs[index]? = some _ := List.getElem?_eq_getElem (h.length_eq ▸ bound)
  exact ⟨_, here, h.each index _ g here there⟩

theorem AllGoOver.trans (settled : ¬ S .ready) (first : AllGoOver S fs gs)
    (second : AllGoOver S gs hs) : AllGoOver S fs hs := by
  refine ⟨second.length_eq.trans first.length_eq, fun index f h here there => ?_⟩
  obtain ⟨g, between, advances⟩ := first.exists_here here
  exact advances.trans settled (second.each index g h between there)

theorem AllGoOver.consistent (h : AllGoOver S fs gs) (consistent : ∀ f ∈ fs, f.Consistent) :
    ∀ g ∈ gs, g.Consistent := by
  intro g there
  obtain ⟨index, there⟩ := List.mem_iff_getElem?.mp there
  obtain ⟨f, here, advances⟩ := h.exists_there there
  exact advances.consistent (consistent f (List.mem_of_getElem? here))

/-- A file that is not ready is still there. -/
theorem AllGoOver.mem (h : AllGoOver S fs gs) (there : f ∈ fs) (consistent : f.Consistent)
    (busy : f.state ≠ .ready) : f ∈ gs := by
  obtain ⟨index, here⟩ := List.mem_iff_getElem?.mp there
  obtain ⟨g, there, advances⟩ := h.exists_here here
  rw [advances.eq consistent busy] at there
  exact List.mem_of_getElem? there

/-- The turn of one file: it begins, files advance, and it is changed once more. -/
theorem AllGoOver.turn {change : SourceFile → SourceFile} (here : fs[index]? = some f)
    (ready : f.state = .ready) (between : AllGoOver S (fs.modify index SourceFile.begun) gs)
    (final : f.Consistent → S (change f.begun).state ∧ (change f.begun).Consistent ∧
      (change f.begun).origin = f.origin) : AllGoOver S fs (gs.modify index change) := by
  refine ⟨?_, fun i f' g' here' there' => ?_⟩
  · rw [List.length_modify, between.length_eq, List.length_modify]
  rw [List.getElem?_modify, Option.map_eq_map, Option.map_eq_some_iff] at there'
  obtain ⟨g, there, rfl⟩ := there'
  split
  next same =>
    subst same
    rw [here] at here'
    cases here'
    intro consistent
    -- The file is in progress all the time, so nobody else touches it.
    have begun : (fs.modify index SourceFile.begun)[index]? = some f.begun := by
      rw [List.getElem?_modify_eq, here]
      rfl
    have kept := between.each index _ g begun there
    have same : g = f.begun := kept.eq (consistent.begun ready) (by simp [SourceFile.begun])
    rw [same]
    exact .inr ⟨ready, final consistent⟩
  next other =>
    refine between.each i f' g ?_ there
    rw [List.getElem?_modify_ne _ _ other, here']

end Advance

/-! ## The turn of a file -/

/-- A property of the state of the loader that files keep when they are loaded is kept by an analysis
that succeeds. -/
theorem keep_analyseLexed {σ : Type} {P : σ → Prop} {loader : Loader σ}
    (h : ∀ name position, Keep (fun s => P s.world) (loader name position) (loader name position))
    (l : Lexed) (name : String) :
    Keep (fun s => P s.world) (analyseLexed loader l name) (analyseLexed loader l name) := by
  have steady : Resolving.Steady (fun n => P n.shared.world) loader loader :=
    { scopes := fun _ _ hn => hn
      externals := fun _ _ hn => hn
      decls := fun _ _ hn => hn
      addRow := fun _ hn => hn
      setMembers := fun _ _ _ _ hn => hn
      imports := fun file path position => by
        refine Resolving.keep_importFile (fun n i hn _ => hn) (Resolving.agree_lift ?_) path
        intro n hn
        obtain ⟨same, leads⟩ := h file position n.shared hn
        exact ⟨same, leads.imp fun decls shared hs path => hs⟩ }
  refine (agree_analyseLexed steady l name fun shared hs => hs).imp fun m s' ended => ?_
  obtain ⟨n, known, rfl, -⟩ := ended
  exact known

namespace Build

variable {α : Type}
variable {s s' : Shared Build}
variable {analyseFile : Nat → Building Unit} {e : Error}

/-- The build with the file at an index in progress. -/
def begin (index : Nat) (s : Shared Build) : Shared Build :=
  { s with world := { s.world with files := s.world.files.modify index SourceFile.begun } }

/-- What becomes of the files in the turn of one of them, and with which outcome. -/
inductive Turn (loader : Loader Build) (index : Nat) (s : Shared Build) :
    Except Error Unit → List SourceFile → Prop
  | idle : (∀ f, s.world.files[index]? = some f → f.state ≠ .ready) →
      Turn loader index s (.ok ()) s.world.files
  | blank {f : SourceFile} : s.world.files[index]? = some f → f.state = .ready → f.lexed = none →
      Turn loader index s (.ok ())
        ((s.world.files.modify index SourceFile.begun).modify index fun f =>
          { f with state := .finished })
  | fails {f : SourceFile} {l : Lexed} {r : Except Error Module} {s' : Shared Build} (e : Error) :
      s.world.files[index]? = some f → f.state = .ready → f.lexed = some l →
      (analyseLexed loader l f.name).run.run (begin index s) = (r, s') →
      Turn loader index s (.error e) s'.world.files
  | succeeds {f : SourceFile} {l : Lexed} {m : Module} {s' : Shared Build} :
      s.world.files[index]? = some f → f.state = .ready → f.lexed = some l →
      Gives (analyseLexed loader l f.name) (begin index s) m s' →
      Turn loader index s (.ok ()) (s'.world.files.modify index (SourceFile.concluded m))

theorem run_begin (index : Nat) (k : Building α) (s : Shared Build) :
    (onFile index (fun f => { f with state := .inProgress, lexed := none }) >>= fun _ => k).run.run s =
      k.run.run (begin index s) :=
  rfl

variable (depth : Nat) (indices : List Nat) (path : Path) (name : String)

theorem turn_analyseWithin (index : Nat) (s : Shared Build) :
    Turn (importWith (analyseWithin depth)) index s ((analyseWithin (depth + 1) index).run.run s).1
      ((analyseWithin (depth + 1) index).run.run s).2.world.files := by
  rw [analyseWithin, run_current]
  cases here : s.world.files[index]? with
  | none => exact .idle fun f there => by rw [here] at there; cases there
  | some f =>
    by_cases ready : f.state = .ready
    · simp only [ready, bne_self_eq_false, Bool.false_eq_true, if_false, run_begin]
      cases lexed : f.lexed with
      | none => exact .blank here ready lexed
      | some l =>
        simp only
        rcases gives_or_fails (analyseLexed (importWith (analyseWithin depth)) l f.name)
          (begin index s) with ⟨m, s1, gives⟩ | ⟨e, s1, fails⟩
        · rw [gives.run_bind]
          have same := sameFiles_writeOutputs f m s1
          rcases gives_or_fails (writeOutputs f m) s1 with ⟨_, s2, written⟩ | ⟨e, s2, fails⟩
          · rw [written] at same
            rw [written.run_bind]
            have turn := Turn.succeeds here ready lexed gives
            rw [← same] at turn
            exact turn
          · rw [fails] at same
            rw [fails.run_bind]
            have turn := Turn.fails e here ready lexed gives
            rw [← same] at turn
            exact turn
        · rw [fails.run_bind]
          exact .fails e here ready lexed fails
    · have busy : (f.state != .ready) = true := by simpa using ready
      simp only [busy, if_true]
      refine .idle fun g there => ?_
      rw [here] at there
      cases there
      exact ready

/-! ## Whatever the outcome -/

/-- Files that are ready may be begun or finished. -/
abbrev Proceeds (s s' : Shared Build) : Prop :=
  AllGoOver (· ≠ .ready) s.world.files s'.world.files

theorem moves_importWith {R : Shared Build → Shared Build → Prop}
    (h : ∀ index, Moves R (analyseFile index)) (name : String) (position : Position) :
    Moves R (importWith analyseFile name position) := by
  simp only [importWith, current, bind_assoc, pure_bind]
  refine moves_bind moves_get fun s => ?_
  split
  · exact moves_throw _
  · refine moves_bind moves_get fun s => ?_
    split
    · exact moves_throw _
    · refine moves_bind (h _) fun _ => moves_bind moves_get fun s => ?_
      split
      · exact moves_pure _
      · exact moves_throw _
    · refine moves_bind moves_get fun s => ?_
      split
      · exact moves_pure _
      · exact moves_throw _

/-- Files proceed while one of them is analysed, if they do whenever one is imported. -/
theorem proceeds_analyseLexed {loader : Loader Build}
    (h : ∀ name position, Moves Proceeds (loader name position)) (l : Lexed) (name : String)
    (s : Shared Build) : Proceeds s ((analyseLexed loader l name).run.run s).2 := by
  refine (moves_analyseLexed loader l name).keeps (P := Proceeds s) ?_ (.refl _)
  intro s1 s2 step before
  rcases step with same | ⟨structs, file, position, loaded⟩
  · simpa only [Proceeds, same] using before
  · rw [Proceeds, loaded]
    refine (h file position).keeps (P := Proceeds s) ?_ before
    exact fun s1 s2 step before => before.trans (by simp) step

theorem moves_analyseWithin : ∀ index, Moves Proceeds (analyseWithin depth index) := by
  induction depth with
  | zero => exact fun index => moves_pure ()
  | succ depth ih =>
    intro index s
    refine .single ?_
    have analysed := proceeds_analyseLexed (moves_importWith ih)
    rw [Proceeds]
    have turn := turn_analyseWithin depth index s
    generalize ((analyseWithin (depth + 1) index).run.run s).1 = r at turn
    generalize ((analyseWithin (depth + 1) index).run.run s).2.world.files = files at turn ⊢
    cases turn with
    | idle => exact .refl _
    | blank here ready lexed =>
      refine (AllGoOver.refl _).turn here ready fun consistent => ?_
      simpa [lexed] using consistent.lexed ready
    | @fails f l r s' e here ready lexed run =>
      have between := analysed l f.name (begin index s)
      rw [run] at between
      rw [← List.modify_id index s'.world.files]
      exact between.turn here ready fun consistent =>
        ⟨by simp [SourceFile.begun], consistent.begun ready, rfl⟩
    | @succeeds f l m s' here ready lexed gives =>
      have between := analysed l f.name (begin index s)
      rw [gives] at between
      exact between.turn here ready fun _ => ⟨by simp [SourceFile.concluded], rfl, rfl⟩

/-- A file whose turn ends in a failure stays in progress. -/
theorem inProgress_of_fails {depth index : Nat} (consistent : ∀ f ∈ s.world.files, f.Consistent)
    (h : Fails (analyseWithin (depth + 1) index) s e s') :
    ∃ f ∈ s'.world.files, f.state = .inProgress := by
  have turn := turn_analyseWithin depth index s
  rw [h] at turn
  generalize s'.world.files = files at turn ⊢
  cases turn with
  | @fails f l r s1 e here ready lexed run =>
    have between := proceeds_analyseLexed (moves_importWith (moves_analyseWithin depth)) l f.name
      (begin index s)
    rw [run] at between
    have begun : f.begun ∈ (begin index s).world.files := by
      refine List.mem_of_getElem? (i := index) ?_
      simp only [begin]
      rw [List.getElem?_modify_eq, here]
      rfl
    have consistent := (consistent f (List.mem_of_getElem? here)).begun ready
    exact ⟨f.begun, between.mem begun consistent (by simp [SourceFile.begun]), rfl⟩

/-! ## If the analysis succeeds -/

/-- Files that are ready may be finished. -/
abbrev Settles (s s' : Shared Build) : Prop :=
  AllGoOver (· = .finished) s.world.files s'.world.files

theorem keep_importWith {I : Shared Build → Prop}
    (h : ∀ index, Keep I (analyseFile index) (analyseFile index)) (name : String)
    (position : Position) :
    Keep I (importWith analyseFile name position) (importWith analyseFile name position) := by
  refine agree_read fun s => ?_
  split
  · exact agree_throw
  · refine agree_read fun s => ?_
    split
    · exact agree_throw
    · refine agree_bind (h _) fun _ => agree_read fun s => ?_
      split
      · exact keep_pure _
      · exact agree_throw
    · refine agree_read fun s => ?_
      split
      · exact keep_pure _
      · exact agree_throw

theorem leads_analyseWithin :
    ∀ index s, Leads (analyseWithin depth index) s fun _ s' => Settles s s' := by
  induction depth with
  | zero => exact fun index s => leads_pure (.refl _)
  | succ depth ih =>
    intro index s a s' gives
    have keep (s1 : Shared Build) := keep_analyseLexed (P := fun b => AllGoOver (· = .finished)
      s1.world.files b.files) (keep_importWith fun index => agree_self fun s2 before =>
        (ih index s2).imp fun _ s3 step => before.trans (by simp) step)
    rw [Settles]
    have turn := turn_analyseWithin depth index s
    rw [gives] at turn
    generalize s'.world.files = files at turn ⊢
    cases turn with
    | idle => exact .refl _
    | blank here ready lexed =>
      refine (AllGoOver.refl _).turn here ready fun consistent => ?_
      simpa [lexed] using consistent.lexed ready
    | @succeeds f l m s1 here ready lexed gives =>
      have between := (keep (begin index s) l f.name).leads (.refl _) m s1 gives
      exact between.turn here ready fun _ => ⟨rfl, rfl, rfl⟩

/-- A file is not ready any more after its turn. -/
theorem ne_ready_of_gives {depth index : Nat} (h : Gives (analyseWithin (depth + 1) index) s () s')
    (there : s'.world.files[index]? = some f) : f.state ≠ .ready := by
  have turn := turn_analyseWithin depth index s
  rw [h] at turn
  generalize s'.world.files = files at turn there
  cases turn with
  | idle busy => exact busy f there
  | blank | succeeds =>
    rw [List.getElem?_modify_eq, Option.map_eq_map, Option.map_eq_some_iff] at there
    obtain ⟨g, -, rfl⟩ := there
    simp [SourceFile.concluded]

/-! ## All files in turn -/

/-- Every file is as its state says. -/
abbrev InOrder (s : Shared Build) : Prop := ∀ f ∈ s.world.files, f.Consistent

abbrev Stuck (s : Shared Build) : Prop := ∃ f ∈ s.world.files, f.state = .inProgress

/-- If all files in turn are analysed with success, those whose turn it was are not ready. -/
theorem leads_forM_analyseWithin : ∀ s, InOrder s →
    Leads (indices.forM (analyseWithin (depth + 1))) s fun _ s' => Settles s s' ∧
      ∀ index ∈ indices, ∀ f, s'.world.files[index]? = some f → f.state ≠ .ready := by
  induction indices with
  | nil => exact fun s _ => leads_pure ⟨.refl _, List.forall_mem_nil _⟩
  | cons index indices ih =>
    intro s inOrder a s' gives
    obtain ⟨_, s1, first, others⟩ := Gives.of_bind gives
    have before := leads_analyseWithin (depth + 1) index s _ s1 first
    obtain ⟨settles, done⟩ := ih s1 (before.consistent inOrder) a s' others
    refine ⟨before.trans (by simp) settles, List.forall_mem_cons.mpr ⟨fun f there => ?_, done⟩⟩
    obtain ⟨g, here, advances⟩ := settles.exists_there there
    have busy := ne_ready_of_gives first here
    have consistent := before.consistent inOrder g (List.mem_of_getElem? here)
    rw [advances.eq consistent busy]
    exact busy

theorem stuck_of_fails_forM : ∀ {s s' : Shared Build} {e : Error},
    InOrder s → Fails (indices.forM (analyseWithin (depth + 1))) s e s' → Stuck s' := by
  induction indices with
  | nil =>
    intro s s' e _ fails
    cases fails
  | cons index indices ih =>
    intro s s' e inOrder fails
    change Fails (analyseWithin (depth + 1) index >>= fun _ => indices.forM _) s e s' at fails
    rcases gives_or_fails (analyseWithin (depth + 1) index) s with
      ⟨_, s1, first⟩ | ⟨e1, s1, first⟩
    · have before := leads_analyseWithin (depth + 1) index s _ s1 first
      rw [Fails, first.run_bind] at fails
      exact ih (before.consistent inOrder) fails
    · rw [Fails, first.run_bind] at fails
      cases fails
      exact inProgress_of_fails inOrder first

theorem run_all (s : Shared Build) : all.run.run s =
    ((List.range s.world.files.length).forM (analyseWithin (s.world.files.length + 1))).run.run s := by
  rw [all, run_current]

theorem proceeds_all (s : Shared Build) : Proceeds s (all.run.run s).2 := by
  rw [run_all]
  have moves := moves_forM (moves_analyseWithin (s.world.files.length + 1))
    (List.range s.world.files.length)
  exact moves.keeps (fun s1 s2 step before => before.trans (by simp) step) (.refl _)

/-- After an analysis of all files that succeeds, none is ready. -/
theorem settles_all (inOrder : InOrder s) (h : Gives all s () s') :
    Settles s s' ∧ ∀ f ∈ s'.world.files, f.state ≠ .ready := by
  rw [Gives, run_all] at h
  obtain ⟨settles, done⟩ := leads_forM_analyseWithin _ _ s inOrder () s' h
  refine ⟨settles, fun f there => ?_⟩
  obtain ⟨index, there⟩ := List.mem_iff_getElem?.mp there
  have bound := (List.getElem?_eq_some_iff.mp there).1
  exact done index (List.mem_range.mpr (settles.length_eq ▸ bound)) f there

theorem stuck_of_fails_all (inOrder : InOrder s) (h : Fails all s e s') : Stuck s' := by
  rw [Fails, run_all] at h
  exact stuck_of_fails_forM _ _ inOrder h

theorem stuck_iff_of_settles (inOrder : InOrder s) (h : Settles s s') : Stuck s' ↔ Stuck s := by
  constructor
  · rintro ⟨g, there, marked⟩
    obtain ⟨index, there⟩ := List.mem_iff_getElem?.mp there
    obtain ⟨f, here, advances⟩ := h.exists_there there
    have mem := List.mem_of_getElem? here
    rcases advances (inOrder f mem) with rfl | ⟨-, finished, -, -⟩
    · exact ⟨g, mem, marked⟩
    · rw [marked] at finished
      cases finished
  · rintro ⟨f, there, marked⟩
    exact ⟨f, h.mem there (inOrder f there) (by simp [marked]), marked⟩

/-! ## Adding files -/

/-- Some files are added that are not in progress. -/
def Extends (s s' : Shared Build) : Prop :=
  ∃ more, s'.world.files = s.world.files ++ more ∧
    ∀ f ∈ more, f.Consistent ∧ f.state ≠ .inProgress

theorem SameFiles.moves {x : Building α} (h : SameFiles x) : Moves Extends x :=
  fun s => .single ⟨[], by rw [h s, List.append_nil], List.forall_mem_nil _⟩

theorem moves_addSource (consistent : f.Consistent) (idle : f.state ≠ .inProgress) :
    Moves Extends (addSource f) :=
  moves_modify fun s => ⟨[f], rfl, by simpa using ⟨consistent, idle⟩⟩

theorem moves_addFromSource : Moves Extends (addFromSource path name) := by
  refine moves_bind sameFiles_current.moves fun b => ?_
  refine moves_bind (sameFiles_onDisk path _).moves fun text => ?_
  refine moves_bind (moves_liftExcept _) fun lexed => ?_
  refine moves_bind (SameFiles.moves (sameFiles_change fun _ => rfl)) fun _ => ?_
  exact moves_bind (moves_addSource ⟨rfl, rfl⟩ (by simp)) fun _ => moves_pure _

theorem moves_addFromSidecar : Moves Extends (addFromSidecar path name) := by
  refine moves_bind sameFiles_current.moves fun b => ?_
  refine moves_bind (sameFiles_onDisk _ _).moves fun bytes => ?_
  split
  · exact moves_throw _
  · refine moves_bind (sameFiles_writeFile _ _).moves fun _ => ?_
    exact moves_bind (moves_addSource rfl (by simp)) fun _ => moves_pure _

theorem moves_addOne : Moves Extends (addOne path name) := by
  refine moves_bind sameFiles_current.moves fun b => ?_
  split
  · exact moves_tryCatch (moves_addFromSidecar path name) fun _ => moves_addFromSource path name
  · exact moves_addFromSource path name

theorem moves_addWithin : ∀ path, Moves Extends (addWithin depth path) := by
  induction depth with
  | zero => exact fun path => moves_pure ()
  | succ depth ih =>
    intro path
    refine moves_bind (moves_liftExcept _) fun name => ?_
    refine moves_bind sameFiles_current.moves fun b => ?_
    split
    · exact moves_pure _
    · exact moves_bind (moves_addOne path name) fun includes =>
        moves_forM (fun file => ih _) includes

theorem Extends.trans {s1 s2 s3 : Shared Build} (first : Extends s1 s2) (second : Extends s2 s3) :
    Extends s1 s3 := by
  obtain ⟨more, files, idle⟩ := first
  obtain ⟨others, files', idle'⟩ := second
  refine ⟨more ++ others, by rw [files', files, List.append_assoc], ?_⟩
  exact List.forall_mem_append.mpr ⟨idle, idle'⟩

theorem extends_add (s : Shared Build) : Extends s ((add path).run.run s).2 := by
  have moves : Moves Extends (add path) :=
    moves_bind sameFiles_current.moves fun b => moves_addWithin _ path
  exact moves.keeps (P := Extends s) (fun s1 s2 step before => before.trans step)
    ⟨[], (List.append_nil _).symm, List.forall_mem_nil _⟩

end Build

/-! ## Sessions -/

/-- What may happen to a build: it is asked to add a file, or to analyse all files, or the files on
disk change. -/
inductive Action where
  | add (path : Path)
  | all
  | edit (change : FileStore → FileStore)

namespace Action

/-- What is done about a request. -/
def serve : Action → Building Unit
  | add path => Build.add path
  | all => Build.all
  | edit change => Build.change fun b => { b with store := change b.store }

/-- The build after some requests, whether they were met or not. -/
def after (s : Shared Build) : List Action → Shared Build
  | [] => s
  | r :: rs => after (r.serve.run.run s).2 rs

/-- Whenever all files were to be analysed, this was done without a failure. -/
def NoneFailed (s : Shared Build) : List Action → Prop
  | [] => True
  | r :: rs => (r = .all → ∃ s', Gives Build.all s () s') ∧ NoneFailed (r.serve.run.run s).2 rs

open Build

variable {s : Shared Build}

theorem inOrder_serve (r : Action) (inOrder : InOrder s) : InOrder (r.serve.run.run s).2 := by
  cases r with
  | add path =>
    obtain ⟨more, files, idle⟩ := extends_add path s
    simp only [serve, InOrder, files]
    exact List.forall_mem_append.mpr ⟨inOrder, fun f there => (idle f there).1⟩
  | all => exact (proceeds_all s).consistent inOrder
  | edit change => exact inOrder

/-- A build gets stuck when an analysis of all files fails, and stays so. -/
theorem stuck_serve_iff (r : Action) (inOrder : InOrder s) :
    Stuck (r.serve.run.run s).2 ↔ Stuck s ∨ ¬ (r = .all → ∃ s', Gives Build.all s () s') := by
  cases r with
  | edit change => exact ⟨.inl, fun h => h.resolve_right (by simp)⟩
  | add path =>
    obtain ⟨more, files, idle⟩ := extends_add path s
    simp only [serve, Stuck, files, List.mem_append, reduceCtorEq, false_implies, not_true_eq_false,
      or_false]
    constructor
    · rintro ⟨f, old | new, marked⟩
      · exact ⟨f, old, marked⟩
      · exact absurd marked (idle f new).2
    · rintro ⟨f, old, marked⟩
      exact ⟨f, .inl old, marked⟩
  | all =>
    rcases gives_or_fails Build.all s with ⟨_, s', gives⟩ | ⟨e, s', fails⟩
    · have met : ¬ ¬ (all = all → ∃ s', Gives Build.all s () s') := not_not.mpr fun _ => ⟨s', gives⟩
      have run : (serve all).run.run s = (.ok (), s') := gives
      rw [run, or_iff_left met]
      exact stuck_iff_of_settles inOrder (settles_all inOrder gives).1
    · have run : (serve all).run.run s = (.error e, s') := fails
      rw [run]
      refine iff_of_true (stuck_of_fails_all inOrder fails) (.inr fun met => ?_)
      obtain ⟨s1, gives⟩ := met rfl
      rw [Gives, fails] at gives
      cases gives

/-- A build is stuck exactly if an analysis of all files failed before. -/
theorem stuck_after_iff (rs : List Action) : ∀ {s : Shared Build}, InOrder s →
    InOrder (after s rs) ∧ (Stuck (after s rs) ↔ Stuck s ∨ ¬ NoneFailed s rs) := by
  induction rs with
  | nil =>
    intro s inOrder
    simpa [after, NoneFailed] using inOrder
  | cons r rs ih =>
    intro s inOrder
    obtain ⟨later, stuck⟩ := ih (inOrder_serve r inOrder)
    refine ⟨later, ?_⟩
    rw [after, stuck, stuck_serve_iff r inOrder, NoneFailed, not_and_or, or_assoc]

end Action

/-- After any requests, met or not, let an analysis of all files succeed.  Then every file is finished,
and what it declares is known, or it is in progress; and there are none in progress exactly if no such
analysis failed before. -/
theorem all_finished_iff (options : Options) (store : FileStore) (rs : List Action)
    {s : Shared Build} (succeeds : Gives Build.all (Action.after (Build.start options store) rs) () s) :
    (∀ f ∈ s.world.files,
        f.state = .finished ∧ f.exports.isSome = true ∨ f.state = .inProgress) ∧
      ((∀ f ∈ s.world.files, f.state = .finished ∧ f.exports.isSome = true) ↔
        Action.NoneFailed (Build.start options store) rs) := by
  have nothing : Build.InOrder (Build.start options store) := List.forall_mem_nil _
  obtain ⟨inOrder, stuck⟩ := Action.stuck_after_iff rs nothing
  obtain ⟨settles, done⟩ := Build.settles_all inOrder succeeds
  have each : ∀ f ∈ s.world.files,
      f.state = .finished ∧ f.exports.isSome = true ∨ f.state = .inProgress := by
    intro f there
    have consistent := settles.consistent inOrder f there
    cases state : f.state with
    | ready => exact absurd state (done f there)
    | inProgress => exact .inr rfl
    | finished => exact .inl ⟨rfl, consistent.exports state⟩
  refine ⟨each, ?_⟩
  have unstuck : (∀ f ∈ s.world.files, f.state = .finished ∧ f.exports.isSome = true) ↔
      ¬ Build.Stuck s := by
    constructor
    · rintro all ⟨f, there, marked⟩
      rw [(all f there).1] at marked
      cases marked
    · intro free f there
      exact (each f there).resolve_right fun marked => free ⟨f, there, marked⟩
  have start : ¬ Build.Stuck (Build.start options store) := by simp [Build.Stuck, Build.start]
  rw [unstuck, Build.stuck_iff_of_settles inOrder settles, stuck, or_iff_right start, not_not]

/-! ## Two sessions -/

/-- A file whose function gives a value of a wrong type. -/
def faultyFile : FileStore :=
  ⟨[(["main.eb"], .file (Sidecar.utf8 "fn main(): I32 { true }") (.known 0))]⟩

/-- The same file put right. -/
def soundFile : FileStore :=
  ⟨[(["main.eb"], .file (Sidecar.utf8 "fn main(): I32 { 1 }") (.known 0))]⟩

/-- An analysis that failed is not made up for by the next one, which succeeds. -/
theorem exists_unfinished_faultyFile :
    ∃ s, Gives Build.all (Action.after (Build.start {} faultyFile) [.add ⟨"main.eb"⟩, .all]) () s ∧
      ¬ ∀ f ∈ s.world.files, f.state = .finished ∧ f.exports.isSome = true := by
  have run : givesAs Build.all (Action.after (Build.start {} faultyFile) [.add ⟨"main.eb"⟩, .all])
      (fun _ s => ¬ ∀ f ∈ s.world.files, f.state = .finished ∧ f.exports.isSome = true) = true := by
    decide +kernel
  obtain ⟨_, s, gives, checked⟩ := exists_of_givesAs run
  exact ⟨s, gives, of_decide_eq_true checked⟩

/-- A file that cannot be read is asked for first, and once more when it is there. -/
theorem all_finished_iff_soundFile :
    ∃ s, Gives Build.all (Action.after (Build.start {} ⟨[]⟩)
        [.add ⟨"main.eb"⟩, .all, .edit fun _ => soundFile, .add ⟨"main.eb"⟩]) () s ∧
      s.world.files.map SourceFile.name = ["main"] ∧
      Action.NoneFailed (Build.start {} ⟨[]⟩)
        [.add ⟨"main.eb"⟩, .all, .edit fun _ => soundFile, .add ⟨"main.eb"⟩] := by
  have run : givesAs Build.all (Action.after (Build.start {} ⟨[]⟩)
      [.add ⟨"main.eb"⟩, .all, .edit fun _ => soundFile, .add ⟨"main.eb"⟩])
      (fun _ s => s.world.files.map SourceFile.name = ["main"] ∧
        ∀ f ∈ s.world.files, f.state = .finished ∧ f.exports.isSome = true) = true := by
    decide +kernel
  obtain ⟨_, s, gives, checked⟩ := exists_of_givesAs run
  obtain ⟨names, finished⟩ := of_decide_eq_true checked
  exact ⟨s, gives, names, (all_finished_iff {} ⟨[]⟩ _ gives).2.mp finished⟩

end EbLang
