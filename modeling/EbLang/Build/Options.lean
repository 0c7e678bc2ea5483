import EbLang.Path
import EbLang.Token

/-!
# Build options

Options come from the command line; directives of the files override them.
-/

namespace EbLang

structure Options where
  /-- The directory that receives listings and sidecars. -/
  outBuild : Path := ⟨"out_build"⟩
  /-- The name of the executable to link. -/
  outExec : Option String := none
  /-- Analyse every file, even with a fresh sidecar. -/
  force : Bool := false
  /-- Read and write sidecars. -/
  useCache : Bool := true
deriving DecidableEq

namespace Options

def apply (o : Options) (d : Directive) : Options :=
  match d.kind with
  | .outBuild => { o with outBuild := ⟨d.value⟩ }
  | .outExec => { o with outExec := some d.value }
  | .includeFile => o

/-- Where the listing of a module goes. -/
def listingPath (o : Options) (name : String) : Path := o.outBuild.join (name ++ ".ir")

/-- Where the sidecar of a module goes. -/
def sidecarPath (o : Options) (name : String) : Path := o.outBuild.join (name ++ ".ir.o")

end Options

/-- The module name of a file: its stem, which has to be an identifier. -/
def moduleName (p : Path) : Except Error String :=
  if isIdentifier p.stem then .ok p.stem
  else .error ⟨.invalidModuleName p.stem, Position.ofFile p.text⟩

end EbLang
