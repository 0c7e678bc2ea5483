import EbLang.Error
import EbLang.Scopes

/-!
# Walks through scopes

A walk goes through the blocks of a tree, entering and leaving their scopes, and may fail.  Blocks
are left also by a walk that fails.
-/

namespace EbLang

abbrev Walk := ExceptT Error (StateM Scopes)

namespace Walk

variable {α : Type}

/-- Walks inside the scope of a block, and leaves it again. -/
def within (block : Nat) (isLoop : Bool) (x : Walk α) : Walk α := ExceptT.mk do
  modify (·.enter block isLoop)
  let result ← x.run
  modify Scopes.leave
  return result

/-- Fails at a position. -/
def failAt (position : Position) (fault : Fault) : Walk α := throw ⟨fault, position⟩

/-- Gives a fault its position. -/
def located (position : Position) : Except Fault α → Walk α
  | .ok a => return a
  | .error fault => failAt position fault

end Walk

end EbLang
