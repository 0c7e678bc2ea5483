import EbLang.Build

/-!
# The footprint of a build

The paths a build may look at can be told from the files themselves: the files a source includes, by
its text or by a sidecar, and the listings and sidecars in every directory named for them.  So the
files of a build can be brought into a store before it runs.
-/

namespace EbLang

/-- The sources of a build and the directories it may write to, as far as they are known. -/
structure Footprint where
  sources : List Path
  outDirs : List Path

namespace Footprint

/-- Adds what is new. -/
def union (known more : List Path) : List Path :=
  more.foldl (fun all p => if all.contains p then all else all ++ [p]) known

def outputs (outDir source : Path) : List Path :=
  let options : Options := { outBuild := outDir }
  [options.listingPath source.stem, options.sidecarPath source.stem]

def paths (f : Footprint) : List Path :=
  f.sources ++ f.outDirs ++ f.outDirs.flatMap fun dir => f.sources.flatMap (outputs dir)

def directives (store : FileStore) (source : Path) : List Directive :=
  match store.readText source with
  | .ok text => ((scan text source.text).toOption.map Lexed.directives).getD []
  | .error _ => []

def recorded (store : FileStore) (outDir source : Path) : List String :=
  let options : Options := { outBuild := outDir }
  match store.read (options.sidecarPath source.stem) with
  | .ok bytes => ((Sidecar.decode bytes).toOption.map Sidecar.includes).getD []
  | .error _ => []

def grow (store : FileStore) (f : Footprint) : Footprint :=
  let named := f.sources.flatMap fun p =>
    let written := ((directives store p).filter fun d => d.kind == .includeFile).map Directive.value
    (written ++ f.outDirs.flatMap fun dir => recorded store dir p).map p.parent.join
  let dirs := f.sources.flatMap fun p =>
    ((directives store p).filter fun d => d.kind == .outBuild).map fun d => ⟨d.value⟩
  ⟨union f.sources named, union f.outDirs dirs⟩

end Footprint

end EbLang
