import EbLang.Declarations
import EbLang.Resolve
import EbLang.Sidecar

/-!
# Interfaces in sidecars

A sidecar records the public functions and globals of a file whose types are all primitive.  That is
enough to declare them again for the files that import it.
-/

namespace EbLang.Sidecar

/-! ## Recording -/

/-- The function as it is recorded, none if it is not. -/
def ofFunction? (s : Signature) : Option SidecarFunction :=
  if s.isPub && s.form == .user && s.named.isEmpty then do
    let result ← s.result.prim?
    let params ← s.params.mapM fun p => p.ty.prim?
    return ⟨s.mangled, result, params⟩
  else none

/-- The global as it is recorded, none if it is not. -/
def ofGlobal? (g : Global) : Option SidecarGlobal :=
  if g.isPub then g.ty.prim?.map fun ty => ⟨g.isConst, g.mangled, ty, g.value⟩ else none

def ofModule (m : Module) (listing : Bytes) (includes : List String) : Sidecar where
  listing := listing
  includes := includes
  functions := m.decls.allFunctions.filterMap ofFunction?
  globals := m.decls.allGlobals.filterMap ofGlobal?

/-! ## Declaring -/

/-- Splits a mangled name below `root` into the path of its module and its name, dropping the last
`extra` parts. -/
def splitMangled (mangled root : String) (extra : Nat) : Except Fault (ModulePath × String) :=
  let front := root.toList ++ ['.']
  if !front.isPrefixOf mangled.toList then
    .error (.artifactError
      ("\x60" ++ mangled ++ "\x60 does not belong to \x60" ++ root ++ "\x60"))
  else
    let parts := splitName (String.ofList (mangled.toList.drop front.length))
    let kept := parts.take (parts.length - extra)
    match kept.getLast? with
    | some name => .ok (kept.dropLast, name)
    | none => .error (.artifactError ("malformed name \x60" ++ mangled ++ "\x60"))

def declareFunction (root : String) (d : Declarations) (f : SidecarFunction) :
    Except Fault Declarations := do
  let (path, name) ← splitMangled f.mangled root 2
  let signature : Signature :=
    { name
      mangled := f.mangled
      params := f.params.zipIdx.map fun p => ⟨"arg" ++ toString p.2, .ofPrim p.1⟩
      named := []
      result := .ofPrim f.result
      form := .user
      isPub := true
      home := d.dottedPath path
      span := .null }
  d.change path (·.addFunction signature)

def declareGlobal (root : String) (d : Declarations) (g : SidecarGlobal) :
    Except Fault Declarations := do
  let (path, name) ← splitMangled g.mangled root 0
  let decl : Global :=
    { name
      mangled := g.mangled
      ty := .ofPrim g.ty
      value := g.value
      isConst := g.isConst
      isPub := true
      home := d.dottedPath path }
  d.change path (·.addGlobal decl)

def toDeclarations (s : Sidecar) (root : String) : Except Fault Declarations := do
  let d ← s.functions.foldlM (declareFunction root) (.new root)
  s.globals.foldlM (declareGlobal root) d

end EbLang.Sidecar
