import EbLang.Analysis
import EbLang.Build.FileStore
import EbLang.Build.Options
import EbLang.Listing
import EbLang.Sidecar.Interface

/-!
# Builds

A build has a list of source files.  A file is added together with the files it includes; then all
of them are analysed in order.  A file that another one imports is analysed before that one goes on.
Every analysed file leaves a listing and a sidecar.  A file whose sidecar is not older than itself
is not analysed again: what it declares is read from the sidecar.
-/

namespace EbLang

/-- How far a source file has come. -/
inductive FileState where
  | ready
  | inProgress
  | finished
deriving DecidableEq

/-- The name of a state in reports. -/
def FileState.name : FileState → String
  | ready => "Ready"
  | inProgress => "InProgress"
  | finished => "Finished"

/-- A file of a build. -/
structure SourceFile where
  name : String
  path : Path
  state : FileState
  /-- The files it includes, as written. -/
  includes : List String
  /-- The analysed module; a file read from a sidecar has none. -/
  analysed : Option Module
  /-- What files that import it see. -/
  exports : Option Declarations
  fromCache : Bool
  /-- Its tokens, until it is analysed. -/
  lexed : Option Lexed

/-- The options, files and store of a build. -/
structure Build where
  options : Options
  files : List SourceFile
  store : FileStore

/-- A step of a build. -/
abbrev Building := Loading Build

namespace Build

/-- A build without files. -/
def start (options : Options) (store : FileStore) : Shared Build := ⟨{}, ⟨options, [], store⟩⟩

/-- The file of a name. -/
def file? (b : Build) (name : String) : Option SourceFile := b.files.find? fun f => f.name == name

/-- The place of the file of a name. -/
def indexOf? (b : Build) (name : String) : Option Nat := b.files.findIdx? fun f => f.name == name

/-- The build as it is now. -/
def current : Building Build := return (← get).world

/-- Changes the build. -/
def change (f : Build → Build) : Building Unit := modify fun s => { s with world := f s.world }

/-- Adds a file at the end. -/
def addSource (f : SourceFile) : Building Unit :=
  change fun b => { b with files := b.files ++ [f] }

/-- Changes one file. -/
def onFile (index : Nat) (f : SourceFile → SourceFile) : Building Unit :=
  change fun b => { b with files := b.files.modify index f }

/-! ## Files on disk -/

/-- The error of a fault with a file. -/
def fileError (p : Path) (f : FileFault) : Error :=
  ⟨.fileReadError p.text f.message, .ofFile p.text⟩

/-- Fails with the error of a fault. -/
def onDisk {α : Type} (p : Path) (x : Except FileFault α) : Building α :=
  match x with
  | .ok a => return a
  | .error f => throw (fileError p f)

/-- Writes a file. -/
def writeFile (p : Path) (content : Bytes) : Building Unit := do
  let store ← onDisk p ((← current).store.write p content .fresh)
  change fun b => { b with store }

/-- Makes a directory and those around it. -/
def makeDirectory (p : Path) : Building Unit := do
  let (store, fault?) := (← current).store.makeDirs p
  change fun b => { b with store }
  match fault? with
  | none => return
  | some fault => throw (fileError p fault)

/-! ## Adding files -/

/-- Whether the sidecar of a file is not older than the file, and is to be used. -/
def isFresh (b : Build) (path : Path) (name : String) : Bool :=
  b.options.useCache && !b.options.force &&
    match b.store.stamp? path, b.store.stamp? (b.options.sidecarPath name) with
    | some source, some sidecar => source.le sidecar
    | _, _ => false

/-- The sidecar in some bytes and what it declares. -/
def readSidecar (bytes : Bytes) (name : String) : Except Fault (Sidecar × Declarations) := do
  let sidecar ← Sidecar.decode bytes
  return (sidecar, ← sidecar.toDeclarations name)

/-- Adds a file by its sidecar, and gives the files it includes. -/
def addFromSidecar (path : Path) (name : String) : Building (List String) := do
  let b ← current
  let sidecarPath := b.options.sidecarPath name
  let bytes ← onDisk sidecarPath (b.store.read sidecarPath)
  match readSidecar bytes name with
  | .error fault => throw ⟨fault, .ofFile sidecarPath.text⟩
  | .ok (sidecar, decls) =>
    writeFile (b.options.listingPath name) sidecar.listing
    addSource
      { name, path
        state := .finished
        includes := sidecar.includes
        analysed := none
        exports := some decls
        fromCache := true
        lexed := none }
    return sidecar.includes

/-- Adds a file by its text, and gives the files it includes.  Its other directives change the
options. -/
def addFromSource (path : Path) (name : String) : Building (List String) := do
  let text ← onDisk path ((← current).store.readText path)
  let lexed ← scan text path.text
  let includes := (lexed.directives.filter fun d => d.kind == .includeFile).map Directive.value
  change fun b => { b with options := lexed.directives.foldl Options.apply b.options }
  addSource
    { name, path
      state := .ready
      includes
      analysed := none
      exports := none
      fromCache := false
      lexed := some lexed }
  return includes

/-- Adds a file, by its sidecar if that is fresh and can be read. -/
def addOne (path : Path) (name : String) : Building (List String) := do
  if (← current).isFresh path name then
    tryCatch (addFromSidecar path name) fun _ => addFromSource path name
  else addFromSource path name

/-- Adds a file and, up to the given depth, the files it includes, each name once. -/
def addWithin : Nat → Path → Building Unit
  | 0, _ => return
  | depth + 1, path => do
    let name ← moduleName path
    if ((← current).file? name).isSome then return
    let includes ← addOne path name
    includes.forM fun file => addWithin depth (path.parent.join file)

/-- Adds a file and the files it includes.  Every file added on the way to another one has a name of
its own in the store, so includes are nested no deeper than the store has nodes. -/
def add (path : Path) : Building Unit := do
  addWithin ((← current).store.nodes.length + 2) path

/-! ## Analysing files -/

/-- Writes the listing and, if asked to, the sidecar of a file. -/
def writeOutputs (f : SourceFile) (m : Module) : Building Unit := do
  let options := (← current).options
  makeDirectory options.outBuild
  let listing := Sidecar.utf8 (m.listingText (← get).structs)
  writeFile (options.listingPath f.name) listing
  if options.useCache then
    writeFile (options.sidecarPath f.name) (Sidecar.ofModule m listing f.includes).encode

/-- What the file of the given name declares, after it is analysed by the given function. -/
def importWith (analyseFile : Nat → Building Unit) : Loader Build := fun name position => do
  let unknown : Error := ⟨.unknownModule name, position⟩
  match (← current).indexOf? name with
  | none => throw unknown
  | some index =>
    match (← current).files[index]?.map SourceFile.state with
    | some .inProgress => throw ⟨.circularDependency name, position⟩
    | some .ready => analyseFile index
    | _ => pure ()
    match (← current).files[index]?.bind SourceFile.exports with
    | some decls => return decls
    | none => throw unknown

/-- Analyses a file that is ready, with imports nested up to the given depth. -/
def analyseWithin : Nat → Nat → Building Unit
  | 0, _ => return
  | depth + 1, index => do
    match (← current).files[index]? with
    | none => return
    | some f =>
      if f.state != .ready then return
      onFile index fun f => { f with state := .inProgress, lexed := none }
      match f.lexed with
      | none => onFile index fun f => { f with state := .finished }
      | some lexed =>
        let m ← analyseLexed (importWith (analyseWithin depth)) lexed f.name
        writeOutputs f m
        onFile index fun f =>
          { f with exports := some m.decls, analysed := some m, state := .finished }

/-- Analyses every file that is ready.  Files on a chain of imports are all in progress, so a chain
is no longer than there are files. -/
def all : Building Unit := do
  let count := (← current).files.length
  (List.range count).forM (analyseWithin (count + 1))

/-- Builds a file and everything it includes. -/
def compile (path : Path) : Building Unit := do
  add path
  all

/-- The text that an excerpt of an error is taken from; nothing if it cannot be read. -/
def sourceOf (store : FileStore) (e : Error) : String :=
  match store.readText ⟨e.position.file⟩ with
  | .ok text => text
  | .error _ => ""

end Build

end EbLang
