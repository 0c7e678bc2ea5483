import EbLang.Build.Footprint
import EbLang.CommandLine

/-!
# The program

Brings the files of a build into a store, runs the command line on the store, and writes back what
is new in it.
-/

namespace EbLang.Main

def textOf (place : Place) : String :=
  match place with
  | "/" :: names => "/" ++ "/".intercalate names
  | names => "/".intercalate names

def loadPlace (store : FileStore) (place : Place) : IO FileStore := do
  let text := textOf place
  try
    let info ← ((← IO.currentDir) / text).metadata
    match info.type with
    | .dir => return store.put place .dir
    | _ =>
      let content ← IO.FS.readBinFile text
      let time := info.modified.sec * 1000000000 + info.modified.nsec.toNat
      return store.put place (.file content.toList (.known time))
  catch _ => return store

/-- Brings what stands at a path, and the directories that lead to it, into a store. -/
def loadPath (store : FileStore) (path : Path) : IO FileStore := do
  let mut store := store
  let mut place : Place := []
  for name in FileStore.namesOf path do
    place := FileStore.next place name
    store ← loadPlace store place
  return store

/-- Brings every path of a footprint into a store, and what these files name. -/
partial def load (store : FileStore) (f : Footprint) : IO FileStore := do
  let mut store := store
  for path in f.paths do
    store ← loadPath store path
  let f' := f.grow store
  if f'.paths.length = f.paths.length then return store
  else load store f'

def writeBack (store : FileStore) : IO Unit := do
  for (place, node) in store.nodes do
    match node with
    | .file content .fresh =>
      if place.length > 1 then IO.FS.createDirAll (textOf place.dropLast)
      IO.FS.writeBinFile (textOf place) ⟨content.toArray⟩
    | .dir => if !FileStore.isAround place then IO.FS.createDirAll (textOf place)
    | _ => pure ()

/-- The store that a command line is about. -/
def storeFor (args : List String) : IO FileStore := do
  match CommandLine.read args with
  | some (.build r) => load {} ⟨r.input.toList, [(CommandLine.options r).outBuild]⟩
  | _ => return {}

end EbLang.Main

/-- Runs the command line. -/
def main (args : List String) : IO UInt32 := do
  let start ← IO.monoNanosNow
  let (outcome, store) := EbLang.CommandLine.run args (← EbLang.Main.storeFor args)
  EbLang.Main.writeBack store
  for line in outcome.stdout do
    IO.println line
  IO.eprint outcome.stderr
  if outcome.exitCode = 0 && outcome.isBuild then
    let elapsed := (← IO.monoNanosNow) - start
    IO.println ("Total time: " ++ EbLang.CommandLine.durationText elapsed)
  return UInt32.ofNat outcome.exitCode
