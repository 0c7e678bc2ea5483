import EbLang.Error
import EbLang.Name
import EbLang.Signature

/-!
# Declarations

What a file declares, module by module: functions, globals and structs.  A module is known by its
path below the root of the file; the root has the empty path.  Functions of one name and arity are
overloads, in the order of their declaration.
-/

namespace EbLang

/-- What one module declares, without its submodules. -/
structure ModuleMembers where
  functions : List Signature := []
  globals : List Global := []
  structs : List StructRef := []

namespace ModuleMembers

/-- The functions of a name and an arity. -/
def overloads (m : ModuleMembers) (name : String) (arity : Nat) : List Signature :=
  m.functions.filter fun s => s.name == name && s.arity == arity

/-- The global of a name. -/
def global? (m : ModuleMembers) (name : String) : Option Global :=
  m.globals.find? fun g => g.name == name

/-- The struct of a name. -/
def struct? (m : ModuleMembers) (name : String) : Option StructRef :=
  m.structs.find? fun r => r.name == name

/-- Adds a function; no two overloads may have the same parameter types. -/
def addFunction (m : ModuleMembers) (s : Signature) : Except Fault ModuleMembers :=
  if (m.overloads s.name s.arity).any (·.clashesWith s) then
    .error (.functionAlreadyDeclared s.describe)
  else .ok { m with functions := m.functions ++ [s] }

/-- Adds a global of a new name. -/
def addGlobal (m : ModuleMembers) (g : Global) : Except Fault ModuleMembers :=
  if (m.global? g.name).isSome then .error (.globalAlreadyDeclared g.name)
  else .ok { m with globals := m.globals ++ [g] }

/-- Adds a struct of a new name. -/
def addStruct (m : ModuleMembers) (r : StructRef) : Except Fault ModuleMembers :=
  if (m.struct? r.name).isSome then .error (.structAlreadyDeclared r.name)
  else .ok { m with structs := m.structs ++ [r] }

end ModuleMembers

/-- The names that lead to a module. -/
abbrev ModulePath := List String

/-- Everything a file declares. -/
structure Declarations where
  root : String
  modules : List (ModulePath × ModuleMembers)

namespace Declarations

/-- The declarations of an empty file. -/
def new (root : String) : Declarations := ⟨root, [([], {})]⟩

/-- The module at a path. -/
def find? (d : Declarations) (path : ModulePath) : Option ModuleMembers := d.modules.lookup path

/-- Whether there is a module at a path. -/
def has (d : Declarations) (path : ModulePath) : Bool := (d.find? path).isSome

/-- A path with the root, as written. -/
def dottedPath (d : Declarations) (path : ModulePath) : String := joinName (d.root :: path)

/-- Adds an empty module, if there is none. -/
def addModule (d : Declarations) (path : ModulePath) : Declarations :=
  if d.has path then d else { d with modules := d.modules ++ [(path, {})] }

/-- The declarations with modules at a path and at every path that leads to it. -/
def enter (d : Declarations) (path : ModulePath) : Declarations :=
  (List.range (path.length + 1)).foldl (fun d n => d.addModule (path.take n)) d

/-- Replaces a module. -/
def setModule (d : Declarations) (path : ModulePath) (m : ModuleMembers) : Declarations :=
  { d with modules := d.modules.map fun e => if e.1 == path then (path, m) else e }

/-- Changes the module at a path. -/
def change (d : Declarations) (path : ModulePath)
    (f : ModuleMembers → Except Fault ModuleMembers) : Except Fault Declarations := do
  let d := d.enter path
  let m ← f ((d.find? path).getD {})
  return d.setModule path m

/-- The overloads a module declares. -/
def overloads (d : Declarations) (path : ModulePath) (name : String) (arity : Nat) :
    List Signature :=
  match d.find? path with
  | some m => m.overloads name arity
  | none => []

/-- The part at and below a path. -/
def below (d : Declarations) (path : ModulePath) : Declarations where
  root := d.dottedPath path
  modules := d.modules.filterMap fun e =>
    if path.isPrefixOf e.1 then some (e.1.drop path.length, e.2) else none

/-- The order of module paths: part by part, a module before its submodules. -/
def pathLe : ModulePath → ModulePath → Bool
  | [], _ => true
  | _ :: _, [] => false
  | p :: ps, q :: qs => if p = q then pathLe ps qs else decide (p < q)

/-- The modules by their paths. -/
def inOrder (d : Declarations) : List (ModulePath × ModuleMembers) :=
  d.modules.mergeSort fun a b => pathLe a.1 b.1

/-- Every function of the file, module by module, sorted by mangled name. -/
def allFunctions (d : Declarations) : List Signature :=
  d.inOrder.flatMap fun e => e.2.functions.mergeSort fun s t => decide (s.mangled ≤ t.mangled)

/-- Every global of the file, module by module, sorted by mangled name. -/
def allGlobals (d : Declarations) : List Global :=
  d.inOrder.flatMap fun e => e.2.globals.mergeSort fun g h => decide (g.mangled ≤ h.mangled)

end Declarations

/-- A module of another file, as named by an import. -/
structure Import where
  file : String
  path : ModulePath
  decls : Declarations

namespace Import

/-- The path as written in source text. -/
def fullPath (i : Import) : List String := i.file :: i.path

/-- What the named module declares. -/
def members? (i : Import) : Option ModuleMembers := i.decls.find? i.path

end Import

/-- The items of other files that a module refers to, each listed once, in the order of their first
use. -/
structure Externals where
  functions : List Signature := []
  globals : List Global := []
  structs : List StructRef := []

namespace Externals

/-- Lists a function. -/
def addFunction (e : Externals) (s : Signature) : Externals :=
  if e.functions.any fun f => f.mangled == s.mangled then e
  else { e with functions := e.functions ++ [s] }

/-- Lists a global. -/
def addGlobal (e : Externals) (g : Global) : Externals :=
  if e.globals.any fun f => f.mangled == g.mangled then e
  else { e with globals := e.globals ++ [g] }

/-- Lists a struct. -/
def addStruct (e : Externals) (r : StructRef) : Externals :=
  if e.structs.any fun s => s.mangled == r.mangled then e
  else { e with structs := e.structs ++ [r] }

end Externals

end EbLang
