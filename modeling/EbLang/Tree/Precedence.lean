import EbLang.Token

/-!
# Precedence of operators

Every binary operator is left-associative.  From weakest to strongest: `||`, `&&`, `|`, `^`, `&`,
equality, order, shifts, addition, multiplication, then the prefix operators, then member access.
-/

namespace EbLang

/-- How strongly an operator binds; a token that goes on with no expression binds not at all. -/
def TokenKind.bindingPower : TokenKind → Nat
  | .or => 1
  | .and => 2
  | .pipe => 3
  | .caret => 4
  | .ampersand => 5
  | .equals | .notEquals => 6
  | .less | .lessEquals | .greater | .greaterEquals => 7
  | .shiftLeft | .shiftRight => 8
  | .plus | .dash => 9
  | .star | .slash | .percent => 10
  | .dot => 12
  | _ => 0

/-- How strongly a prefix operator binds: above every binary operator, below member access. -/
def prefixPower : Nat := 11

def TokenKind.binarySymbol? : TokenKind → Option String
  | .or => some "||"
  | .and => some "&&"
  | .pipe => some "|"
  | .caret => some "^"
  | .ampersand => some "&"
  | .equals => some "=="
  | .notEquals => some "!="
  | .less => some "<"
  | .lessEquals => some "<="
  | .greater => some ">"
  | .greaterEquals => some ">="
  | .shiftLeft => some "<<"
  | .shiftRight => some ">>"
  | .plus => some "+"
  | .dash => some "-"
  | .star => some "*"
  | .slash => some "/"
  | .percent => some "%"
  | _ => none

def TokenKind.prefixSymbol? : TokenKind → Option String
  | .dash => some "-"
  | .slash => some "/"
  | .not => some "!"
  | _ => none

def TokenKind.compoundSymbol? : TokenKind → Option String
  | .plusEquals => some "+"
  | .minusEquals => some "-"
  | .starEquals => some "*"
  | .slashEquals => some "/"
  | .ampersandEquals => some "&"
  | .pipeEquals => some "|"
  | .caretEquals => some "^"
  | _ => none

end EbLang
