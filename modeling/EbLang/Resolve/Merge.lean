import EbLang.Error
import EbLang.Tree

/-!
# Merging modules

The blocks of one module, `module m` and every `extend m` after it, become one block with the items
of all of them in order, at every level of nesting.
-/

namespace EbLang

variable {τ : Type}

namespace Merge

def isModule (name : String) : Item τ → Bool
  | .submodule name' _ _ _ _ => name' == name
  | _ => false

/-- Appends items to the first block of a module. -/
def appendTo (name : String) (more : List (Item τ)) : List (Item τ) → List (Item τ)
  | [] => []
  | .submodule name' items isPub isExtend span :: is =>
    if name' == name then .submodule name' (items ++ more) isPub isExtend span :: is
    else .submodule name' items isPub isExtend span :: appendTo name more is
  | i :: is => i :: appendTo name more is

/-- Adds an item to merged ones; a module block joins the block of its name. -/
def add (merged : List (Item τ)) (i : Item τ) : Except Error (List (Item τ)) :=
  match i with
  | .submodule name items _ isExtend span =>
    if merged.any (isModule name) then .ok (appendTo name items merged)
    else if isExtend then .error ⟨.unknownModule name, span.start⟩
    else .ok (merged ++ [i])
  | i => .ok (merged ++ [i])

mutual

/-- How deep the modules of an item are nested. -/
def depth : Item τ → Nat
  | .submodule _ items _ _ _ => depths items + 1
  | _ => 0

/-- How deep the modules of some items are nested. -/
def depths : List (Item τ) → Nat
  | [] => 0
  | i :: is => max (depth i) (depths is)

end

def levels : Nat → List (Item τ) → Except Error (List (Item τ))
  | 0, items => items.foldlM add []
  | n + 1, items => do
    let merged ← items.foldlM add []
    merged.mapM fun
      | .submodule name items isPub isExtend span => do
        return .submodule name (← levels n items) isPub isExtend span
      | i => return i

end Merge

def mergeModules (items : List (Item τ)) : Except Error (List (Item τ)) :=
  Merge.levels (Merge.depths items) items

end EbLang
