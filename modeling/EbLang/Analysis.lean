import EbLang.Flow
import EbLang.Hoist
import EbLang.Scopes.Loops
import EbLang.ShortCircuit
import EbLang.Token.Scan
import EbLang.Tree.Items
import EbLang.Typing.Complete
import EbLang.Typing.Verify

/-!
# Analysis of a file

A file goes through a fixed sequence of stages, from its text to a module ready for code generation.
`Analysis.trace` keeps what every stage gave, up to the first one that failed.
-/

namespace EbLang

variable {σ : Type}

/-- Checks the jumps of a module. -/
def Module.checkLoops (m : Module) : Except Error Module :=
  let (result, scopes) := m.tree.checkLoops.run.run m.scopes
  result.map fun _ => { m with scopes }

/-- The module with its loops checked and its types settled. -/
def Module.finish (structs : StructTable) (m : Module) : Except Error Module := do
  let m ← m.checkLoops
  let m ← m.typeCheck structs
  let m ← m.complete structs
  m.verify
  return m

/-- Analyses a file from its tokens on. -/
def analyseLexed (loader : Loader σ) (l : Lexed) (name : String) : Loading σ Module := do
  let tree ← parse l name
  let tree ← tree.shorten.hoist
  let tree ← tree.addReturns
  let m ← tree.resolve loader
  m.finish (← get).structs

/-- Analyses a source text. -/
def analyse (loader : Loader σ) (source file name : String) : Loading σ Module := do
  analyseLexed loader (← scan source file) name

/-! ## Stages -/

/-- A stage of an analysis. -/
inductive Stage where
  | lex
  | parse
  | shorten
  | hoist
  | returns
  | resolve
  | loops
  | check
  | complete
  | verify
deriving DecidableEq

/-- What a stage gives. -/
inductive Snapshot where
  | lexed (l : Lexed)
  | written (t : FileTree Term)
  | flat (t : FileTree Atom)
  | resolved (m : Module)

namespace Analysis

/-- What the stages so far gave. -/
abbrev Trace := List (Stage × Snapshot)

abbrev Tracing (σ : Type) := ExceptT (Stage × Error) (StateT Trace (StateM (Shared σ)))

/-- Runs a stage and keeps what it gives. -/
def stage {α : Type} (s : Stage) (snapshot : α → Snapshot) (x : Loading σ α) : Tracing σ α := do
  match ← (x.run : StateM (Shared σ) _) with
  | .ok a =>
    modify (· ++ [(s, snapshot a)])
    return a
  | .error e => throw (s, e)

/-- Runs the stages one by one. -/
def stages (loader : Loader σ) (source file name : String) : Tracing σ Unit := do
  let l ← stage .lex .lexed (scan source file)
  let t ← stage .parse .written (EbLang.parse l name)
  let t ← stage .shorten .written (pure t.shorten)
  let t ← stage .hoist .flat t.hoist
  let t ← stage .returns .flat t.addReturns
  let m ← stage .resolve .resolved (t.resolve loader)
  let structs := (← getThe (Shared σ)).structs
  let m ← stage .loops .resolved m.checkLoops
  let m ← stage .check .resolved (m.typeCheck structs)
  let m ← stage .complete .resolved (m.complete structs)
  let _ ← stage .verify .resolved (do m.verify; return m)

/-- What every stage gave, and the stage that failed with its error. -/
def trace (loader : Loader σ) (source file name : String) (shared : Shared σ) :
    (Trace × Option (Stage × Error)) × StructTable :=
  let ((outcome, kept), shared) := ((stages loader source file name).run.run []).run shared
  let failure := match outcome with
    | .ok _ => none
    | .error e => some e
  ((kept, failure), shared.structs)

end Analysis

/-! ## Files in a row -/

/-- A loader of files that were analysed before. -/
def Loader.ofKnown : Loader (List (String × Declarations)) := fun name position => do
  match (← get).world.lookup name with
  | some decls => return decls
  | none => throw ⟨.unknownModule name, position⟩

end EbLang
