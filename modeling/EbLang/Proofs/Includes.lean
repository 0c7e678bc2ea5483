import EbLang.Proofs.Sessions
import EbLang.Proofs.Store

/-!
# Includes of a build

A file is added before the files it includes, so that files may include each other.  Adding a file that
is there already does nothing, whether or not what it includes could be added.

*Depth.*  Every file that is added has a node in the store, whose name gives the name of the file.
The nodes whose files are not added yet become fewer with each file, although listings are written on
the way; so the depth of nested includes never runs out.

*Closure.*  If a file is added with success, everything it includes is there, and so it is for every
file added on the way.  After any requests, a file whose includes are not all there was added by a
request that failed.
-/

namespace EbLang

/-! ## Stems -/

namespace Path

/-- A name without its extension. -/
def nameStem (name : String) : String :=
  ((beforeLastDot? name.toList).filter fun before => !before.isEmpty).elim name String.ofList

theorem stem_of_fileName? {p : Path} {name : String} (h : p.fileName? = some name) :
    p.stem = nameStem name := by
  simp only [stem, h, nameStem]
  cases beforeLastDot? name.toList with
  | none => rfl
  | some before =>
    cases before with
    | nil => rfl
    | cons c cs => rfl

theorem nameStem_listing {name : String} (h : isIdentifier name = true) :
    nameStem (name ++ ".ir") = name := by
  have nonempty : name.toList ≠ [] := by
    intro empty
    simp [isIdentifier, empty] at h
  have before : beforeLastDot? (name ++ ".ir").toList = some name.toList := by
    simp [beforeLastDot?]
  have kept : (some name.toList).filter (fun before => !before.isEmpty) = some name.toList := by
    simp [Option.filter, nonempty]
  rw [nameStem, before, kept, Option.elim_some, String.ofList_toList]

/-- The last name on the way to a path with a stem. -/
theorem exists_spot_eq {p : Path} (h : isIdentifier p.stem = true) :
    ∃ place name, FileStore.spot p = place ++ [name] ∧ nameStem name = p.stem ∧ name ≠ ".." := by
  cases named : p.fileName? with
  | none => simp [stem, named, isIdentifier] at h
  | some name =>
    obtain ⟨last, proper⟩ := Option.filter_eq_some_iff.mp named
    have proper : name ≠ ".." := by simpa using proper
    obtain ⟨front, parts⟩ := List.getLast?_eq_some_iff.mp last
    refine ⟨((if p.isAbsolute then "/" :: front else front).foldl FileStore.next []), name, ?_,
      (stem_of_fileName? named).symm, proper⟩
    have names : FileStore.namesOf p = (if p.isAbsolute then "/" :: front else front) ++ [name] := by
      rw [FileStore.namesOf, parts]
      split
      · rfl
      · rfl
    rw [FileStore.spot, names, List.foldl_append]
    simp [FileStore.next, proper]

end Path

namespace FileStore

variable {s : FileStore} {names : List String}

def placeStem (place : Place) : String := Path.nameStem (place.getLast?.getD "")

theorem placeStem_append (place : Place) (name : String) :
    placeStem (place ++ [name]) = Path.nameStem name := by
  simp [placeStem]

/-- What is found at a path with a stem is a node of that stem. -/
theorem exists_node_of_lookup {p : Path} {node : Node}
    (ident : isIdentifier p.stem = true) (h : s.lookup p = .ok node) :
    ∃ e ∈ s.nodes, placeStem e.1 = p.stem := by
  obtain ⟨place, name, spot, stem, proper⟩ := Path.exists_spot_eq ident
  simp only [lookup] at h
  cases reached : s.place p with
  | error fault => simp [reached, bind, Except.bind] at h
  | ok q =>
    have inside : isAround q = false := by
      rw [eq_spot_of_place reached, spot]
      -- A place around the working directory has no stem.
      have other : name ≠ "/" := by
        rintro rfl
        rw [← stem] at ident
        exact absurd ident (by decide +kernel)
      simp [isAround, proper, other]
    have found : s.node? q = some node := by
      simp only [reached, bind, Except.bind] at h
      split at h
      · cases h
      · cases h
        assumption
      · split at h
        · cases h
        · cases h
          assumption
    rw [node?, inside] at found
    obtain ⟨before, after, nodes, -⟩ := List.lookup_eq_some_iff.mp found
    refine ⟨(q, node), by simp [nodes], ?_⟩
    rw [eq_spot_of_place reached, spot, placeStem_append, stem]

/-- The nodes whose stems are none of some names. -/
def freeNodes (names : List String) (s : FileStore) : Nat :=
  s.nodes.countP fun e => decide (placeStem e.1 ∉ names)

theorem freeNodes_le (names : List String) (s : FileStore) : freeNodes names s ≤ s.nodes.length :=
  List.countP_le_length

theorem freeNodes_append_lt {name : String}
    (new : name ∉ names) (there : ∃ e ∈ s.nodes, placeStem e.1 = name) :
    freeNodes (names ++ [name]) s < freeNodes names s := by
  obtain ⟨e, there, stem⟩ := there
  obtain ⟨before, after, nodes⟩ := List.append_of_mem there
  have fewer (l : List (Place × Node)) :
      l.countP (fun e => decide (placeStem e.1 ∉ names ++ [name])) ≤
        l.countP fun e => decide (placeStem e.1 ∉ names) := by
    refine List.countP_mono_left fun e _ free => ?_
    simp only [List.mem_append, not_or, decide_eq_true_eq] at free ⊢
    exact free.1
  have first := fewer before
  have second := fewer after
  simp only [freeNodes, nodes, List.countP_append, List.countP_cons, stem, List.mem_append,
    List.mem_singleton, or_true, not_true_eq_false, decide_false, Bool.false_eq_true, if_false, new,
    not_false_eq_true, decide_true, if_true] at first second ⊢
  omega

/-- A node with one of the names as its stem does not count. -/
theorem freeNodes_put {place : Place} (named : placeStem place ∈ names) (node : Node) :
    freeNodes names (s.put place node) = freeNodes names s := by
  simp only [freeNodes, put]
  split
  · rw [List.countP_map]
    refine List.countP_congr fun e _ => ?_
    simp only [Function.comp_apply]
    split
    next same => rw [beq_iff_eq.mp same]
    next => rfl
  · simp [List.countP_append, named]

theorem freeNodes_write {t : FileStore} {p : Path} {content : Bytes}
    {stamp : Stamp} (named : placeStem (spot p) ∈ names) (h : s.write p content stamp = .ok t) :
    freeNodes names t = freeNodes names s := by
  rw [eq_put_of_write h]
  exact freeNodes_put named _

end FileStore

/-! ## Adding one file -/

namespace Build

variable {α : Type} {s s' : Shared Build} {path : Path} {name : String}

/-- A file of the name was added. -/
def HasFile (s : Shared Build) (name : String) : Prop := name ∈ s.world.files.map SourceFile.name

/-- The nodes whose files are not added. -/
def room (s : Shared Build) : Nat :=
  s.world.store.freeNodes (s.world.files.map SourceFile.name)

theorem stem_of_moduleName (h : moduleName path = .ok name) :
    isIdentifier path.stem = true ∧ path.stem = name := by
  simp only [moduleName] at h
  split at h
  next ident =>
    cases h
    exact ⟨ident, rfl⟩
  next => cases h

/-- A file takes the room of its node. -/
theorem AddsOne.room_lt {includes : List String} (h : AddsOne path name s includes s')
    (named : moduleName path = .ok name) (new : ¬ HasFile s name) : room s' < room s := by
  obtain ⟨⟨f, files, origin, -⟩, ⟨node, found⟩, store⟩ := h
  obtain ⟨ident, stem⟩ := stem_of_moduleName named
  have there := FileStore.exists_node_of_lookup ident found
  rw [stem] at ident there
  have kept : FileStore.freeNodes (s.world.files.map SourceFile.name ++ [name]) s'.world.store =
      FileStore.freeNodes (s.world.files.map SourceFile.name ++ [name]) s.world.store := by
    rcases store with same | ⟨content, written⟩
    · rw [same]
    · refine FileStore.freeNodes_write ?_ written
      rw [Options.spot_listingPath _ ident, FileStore.placeStem_append, Path.nameStem_listing ident]
      simp
  have same : f.name = name := congrArg Prod.fst origin
  rw [room, room, files, List.map_append, List.map_singleton, same, kept]
  exact FileStore.freeNodes_append_lt new there

theorem isSome_file?_iff : (s.world.file? name).isSome = true ↔ HasFile s name := by
  simp [file?, HasFile, List.find?_isSome]

/-! ## Adding what files include -/

/-- Everything a file includes is there. -/
def Closed (s : Shared Build) (f : SourceFile) : Prop :=
  ∀ file ∈ f.includes, HasFile s (f.path.parent.join file).stem

/-- Files are added whose includes are there in the end. -/
structure Closes (s s' : Shared Build) : Prop where
  files : ∃ more, s'.world.files = s.world.files ++ more ∧ ∀ f ∈ more, Closed s' f
  room : room s' ≤ room s

section Closes

variable {s1 s2 s3 : Shared Build}

theorem HasFile.mono (h : HasFile s1 name) {more : List SourceFile}
    (files : s2.world.files = s1.world.files ++ more) : HasFile s2 name := by
  rw [HasFile, files, List.map_append]
  exact List.mem_append_left _ h

theorem Closed.mono {f : SourceFile} (h : Closed s1 f) {more : List SourceFile}
    (files : s2.world.files = s1.world.files ++ more) : Closed s2 f :=
  fun file listed => (h file listed).mono files

theorem Closes.hasFile (h : Closes s1 s2) (there : HasFile s1 name) : HasFile s2 name := by
  obtain ⟨more, files, -⟩ := h.files
  exact there.mono files

theorem Closes.refl (s : Shared Build) : Closes s s :=
  ⟨⟨[], (List.append_nil _).symm, List.forall_mem_nil _⟩, Nat.le_refl _⟩

theorem Closes.trans (first : Closes s1 s2) (second : Closes s2 s3) : Closes s1 s3 := by
  obtain ⟨more, files, closed⟩ := first.files
  obtain ⟨others, files', closed'⟩ := second.files
  refine ⟨⟨more ++ others, by rw [files', files, List.append_assoc], ?_⟩,
    Nat.le_trans second.room first.room⟩
  exact List.forall_mem_append.mpr ⟨fun f there => (closed f there).mono files', closed'⟩

/-- A file is added, and then all that it includes. -/
theorem Closes.of_addsOne {includes : List String} (one : AddsOne path name s1 includes s2)
    (less : Build.room s2 < Build.room s1) (others : Closes s2 s3)
    (all : ∀ file ∈ includes, HasFile s3 (path.parent.join file).stem) :
    Closes s1 s3 ∧ HasFile s3 name := by
  obtain ⟨f, files, origin, -⟩ := one.files
  obtain ⟨more, files', closed⟩ := others.files
  obtain ⟨rfl, rfl, rfl⟩ := origin
  have whole : s3.world.files = s1.world.files ++ (f :: more) := by
    rw [files', files, List.append_assoc]
    rfl
  refine ⟨⟨⟨f :: more, whole, List.forall_mem_cons.mpr ⟨all, closed⟩⟩, ?_⟩, ?_⟩
  · exact Nat.le_trans others.room (Nat.le_of_lt less)
  · simp [HasFile, whole]

end Closes

/-- Some files are added one after the other, as long as there is enough depth for the first. -/
theorem leads_forM_addWithin {depth : Nat} (dir : Path) (each : ∀ path s, room s < depth →
      Leads (addWithin depth path) s fun _ s' => Closes s s' ∧ HasFile s' path.stem)
    (l : List String) : ∀ s, room s < depth →
      Leads (l.forM fun file => addWithin depth (dir.join file)) s fun _ s' =>
        Closes s s' ∧ ∀ file ∈ l, HasFile s' (dir.join file).stem := by
  induction l with
  | nil => exact fun s _ => leads_pure ⟨.refl s, List.forall_mem_nil _⟩
  | cons file l ih =>
    intro s enough
    refine leads_bind (each _ s enough) ?_
    rintro _ s1 ⟨first, there⟩
    refine (ih s1 (Nat.lt_of_le_of_lt first.room enough)).imp ?_
    rintro _ s2 ⟨others, all⟩
    exact ⟨first.trans others, List.forall_mem_cons.mpr ⟨others.hasFile there, all⟩⟩

/-- With enough depth for the room there is, everything that files include is added with them. -/
theorem leads_addWithin (depth : Nat) : ∀ path s, room s < depth →
    Leads (addWithin depth path) s fun _ s' => Closes s s' ∧ HasFile s' path.stem := by
  induction depth with
  | zero => exact fun path s enough => absurd enough (Nat.not_lt_zero _)
  | succ depth ih =>
    intro path s enough
    refine leads_bind (leads_lift ensures_self) ?_
    rintro name s1 ⟨rfl, named⟩
    obtain ⟨-, stem⟩ := stem_of_moduleName named
    refine leads_get ?_
    split
    next there => exact leads_pure ⟨.refl _, stem ▸ isSome_file?_iff.mp there⟩
    next new =>
      refine leads_bind leads_addOne ?_
      intro includes s2 one
      have less := one.room_lt named fun there => new (isSome_file?_iff.mpr there)
      refine (leads_forM_addWithin path.parent ih includes s2 (by omega)).imp ?_
      rintro _ s3 ⟨others, all⟩
      rw [stem]
      exact Closes.of_addsOne one less others all

/-- The depth of nested includes does not run out. -/
theorem leads_add (path : Path) (s : Shared Build) :
    Leads (add path) s fun _ s' => Closes s s' ∧ HasFile s' path.stem := by
  refine leads_get (leads_addWithin _ path s ?_)
  have := FileStore.freeNodes_le (s.world.files.map SourceFile.name) s.world.store
  rw [room]
  omega

end Build

/-! ## Sessions -/

namespace Action

open Build

/-- The names of the files that a request has added, if it failed. -/
def left (before : Shared Build) : Except Error Unit × Shared Build → List String
  | (.ok _, _) => []
  | (.error _, s) => (s.world.files.drop before.world.files.length).map SourceFile.name

/-- The names of the files that were added by requests which failed. -/
def leftOver (s : Shared Build) : List Action → List String
  | [] => []
  | r :: rs => left s (r.serve.run.run s) ++ leftOver (r.serve.run.run s).2 rs

variable {s s' : Shared Build} {T : List String}

/-- Files whose includes need not be there are among some names. -/
abbrev ClosedApart (T : List String) (s : Shared Build) : Prop :=
  ∀ f ∈ s.world.files, f.name ∉ T → Closed s f

/-- Files that are analysed keep their names and what they include. -/
theorem ClosedApart.all (h : ClosedApart T s) (inOrder : InOrder s) (proceeds : Proceeds s s') :
    ClosedApart T s' := by
  have origin {f : SourceFile} (there : f ∈ s.world.files) :
      ∃ g ∈ s'.world.files, g.origin = f.origin := by
    obtain ⟨index, here⟩ := List.mem_iff_getElem?.mp there
    obtain ⟨g, here', advances⟩ := proceeds.exists_here here
    exact ⟨g, List.mem_of_getElem? here', advances.origin (inOrder f there)⟩
  intro g there outside file listed
  obtain ⟨index, there⟩ := List.mem_iff_getElem?.mp there
  obtain ⟨f, here, advances⟩ := proceeds.exists_there there
  have mem := List.mem_of_getElem? here
  have same := advances.origin (inOrder f mem)
  simp only [SourceFile.origin, Prod.mk.injEq] at same
  obtain ⟨name, path, includes⟩ := same
  rw [includes] at listed
  obtain ⟨f', there', named⟩ := List.mem_map.mp (h f mem (name ▸ outside) file listed)
  obtain ⟨g', there'', same'⟩ := origin there'
  simp only [SourceFile.origin, Prod.mk.injEq] at same'
  rw [path, HasFile, ← named, ← same'.1]
  exact List.mem_map_of_mem there''

theorem ClosedApart.append (h : ClosedApart T s) {U : List String} {more : List SourceFile}
    (files : s'.world.files = s.world.files ++ more)
    (new : ∀ f ∈ more, f.name ∉ U → Closed s' f) : ClosedApart (T ++ U) s' := by
  intro f there outside
  rw [List.mem_append, not_or] at outside
  rw [files] at there
  rcases List.mem_append.mp there with old | new'
  · exact (h f old outside.1).mono files
  · exact new f new' outside.2

/-- Only a request that fails may leave files whose includes are not there. -/
theorem closedApart_serve (r : Action) (inOrder : InOrder s) (h : ClosedApart T s) :
    ClosedApart (T ++ left s (r.serve.run.run s)) (r.serve.run.run s).2 := by
  cases r with
  | edit change =>
    have run : (serve (edit change)).run.run s =
      (.ok (), { s with world := { s.world with store := change s.world.store } }) := rfl
    rw [run, left, List.append_nil]
    exact h
  | all =>
    intro f there outside
    exact h.all inOrder (proceeds_all s) f there fun inside => outside (List.mem_append_left _ inside)
  | add path =>
    rcases gives_or_fails (serve (add path)) s with ⟨_, s', gives⟩ | ⟨e, s', fails⟩
    · obtain ⟨⟨⟨more, files, closed⟩, -⟩, -⟩ := leads_add path s _ s' gives
      rw [gives]
      exact h.append files fun f there _ => closed f there
    · obtain ⟨more, files, -⟩ := extends_add path s
      have files : ((serve (add path)).run.run s).2.world.files = s.world.files ++ more := files
      rw [fails] at files ⊢
      refine h.append files fun f there outside => absurd ?_ outside
      rw [left, files, List.drop_left]
      exact List.mem_map_of_mem there

theorem closedApart_after (rs : List Action) : ∀ {s : Shared Build} {T : List String},
    InOrder s → ClosedApart T s → ClosedApart (T ++ leftOver s rs) (after s rs) := by
  induction rs with
  | nil =>
    intro s T _ closed
    simpa [leftOver, after] using closed
  | cons r rs ih =>
    intro s T inOrder closed
    have later := ih (inOrder_serve r inOrder) (closedApart_serve r inOrder closed)
    rwa [List.append_assoc] at later

end Action

/-- After any requests, met or not, let a file be added with success.  Then there is a file of the stem
of its path, and everything that files include is there, except for files that were added by a request
that failed. -/
theorem add_closed (options : Options) (store : FileStore) (rs : List Action) (path : Path)
    {s : Shared Build}
    (succeeds : Gives (Build.add path) (Action.after (Build.start options store) rs) () s) :
    Build.HasFile s path.stem ∧
      ∀ f ∈ s.world.files, f.name ∉ Action.leftOver (Build.start options store) rs →
        Build.Closed s f := by
  have nothing : Build.InOrder (Build.start options store) := List.forall_mem_nil _
  have before := Action.closedApart_after rs (T := []) nothing (List.forall_mem_nil _)
  obtain ⟨⟨⟨more, files, closed⟩, -⟩, there⟩ := Build.leads_add path _ () s succeeds
  refine ⟨there, fun f mem outside => ?_⟩
  exact before.append (U := []) files (fun f new _ => closed f new) f mem (by simpa using outside)

def missingInclude : FileStore :=
  ⟨[(["main.eb"], .file (Sidecar.utf8 "#include lib.eb") (.known 0))]⟩

/-- Two files that include each other. -/
def mutualIncludes : FileStore :=
  ⟨[(["one.eb"], .file (Sidecar.utf8 "#include two.eb") (.known 0)),
    (["two.eb"], .file (Sidecar.utf8 "#include one.eb") (.known 0))]⟩

/-- The file that a request has left over is taken for complete by the next one. -/
theorem exists_notClosed_missingInclude :
    ∃ s, Gives (Build.add ⟨"main.eb"⟩)
        (Action.after (Build.start {} missingInclude) [.add ⟨"main.eb"⟩]) () s ∧
      ∃ f ∈ s.world.files, f.name = "main" ∧ ¬ Build.Closed s f := by
  have run : givesAs (Build.add ⟨"main.eb"⟩)
      (Action.after (Build.start {} missingInclude) [.add ⟨"main.eb"⟩]) (fun _ s =>
      s.world.files.map SourceFile.origin = [("main", ⟨"main.eb"⟩, ["lib.eb"])]) = true := by
    decide +kernel
  obtain ⟨_, s, gives, checked⟩ := exists_of_givesAs run
  have origins := of_decide_eq_true checked
  obtain ⟨f, files⟩ : ∃ f, s.world.files = [f] := by
    refine List.length_eq_one_iff.mp ?_
    simpa using congrArg List.length origins
  simp only [files, List.map_cons, List.map_nil, SourceFile.origin, List.cons.injEq, Prod.mk.injEq,
    and_true] at origins
  obtain ⟨name, path, includes⟩ := origins
  refine ⟨s, gives, f, by simp [files], name, fun closed => ?_⟩
  have there := closed "lib.eb" (by simp [includes])
  rw [Build.HasFile, files, List.map_singleton, name, path] at there
  exact absurd there (by decide +kernel)

/-- A file that was left over keeps none of the later ones from being complete. -/
theorem add_closed_mutualIncludes :
    ∃ s, Gives (Build.add ⟨"one.eb"⟩) (Action.after (Build.start {} missingInclude)
        [.add ⟨"main.eb"⟩, .edit fun _ => mutualIncludes]) () s ∧
      s.world.files.map SourceFile.name = ["main", "one", "two"] ∧
      ∀ f ∈ s.world.files, f.name ≠ "main" → Build.Closed s f := by
  have run : givesAs (Build.add ⟨"one.eb"⟩) (Action.after (Build.start {} missingInclude)
      [.add ⟨"main.eb"⟩, .edit fun _ => mutualIncludes])
      (fun _ s => s.world.files.map SourceFile.name = ["main", "one", "two"]) = true := by
    decide +kernel
  have left : Action.leftOver (Build.start {} missingInclude)
      [.add ⟨"main.eb"⟩, .edit fun _ => mutualIncludes] = ["main"] := by
    decide +kernel
  obtain ⟨_, s, gives, checked⟩ := exists_of_givesAs run
  refine ⟨s, gives, of_decide_eq_true checked, fun f there other => ?_⟩
  exact (add_closed {} missingInclude _ _ gives).2 f there (by simpa [left] using other)

end EbLang
