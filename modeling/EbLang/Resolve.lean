import EbLang.Resolve.Bodies
import EbLang.Resolve.Declare
import EbLang.Resolve.Merge

/-!
# Resolved modules

Resolving a file merges its modules, declares its items and binds the names of its functions.
-/

namespace EbLang

/-- A file whose names are bound. -/
structure Module where
  tree : FileTree Atom
  decls : Declarations
  imports : List Import
  /-- The items of other files it refers to. -/
  externals : Externals
  /-- The variables of its functions. -/
  scopes : Scopes

variable {σ : Type}

/-- Declares the items of a file and binds the names of its functions. -/
def Resolving.file (loader : Loader σ) (items : List (Item Atom)) :
    Resolving σ (List (Item Atom)) := do
  let items ← declareStructs [] items
  declareImports loader items
  declareAllMembers loader [] items
  let items ← declareValues loader [] items
  resolveItems loader [] items

/-- The file with every name bound. -/
def FileTree.resolve (loader : Loader σ) (t : FileTree Atom) : Loading σ Module := do
  let items ← mergeModules t.items
  let (items, names) ← (Resolving.file loader items).runIn t.name
  return ⟨{ t with items }, names.decls, names.imports, names.externals, names.scopes⟩

end EbLang
