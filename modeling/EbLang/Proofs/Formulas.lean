import EbLang.Proofs.Mangling

/-!
# Formulas

A formula is an expression as a tree, with the parentheses that its writer put in for clarity.
`Formula.render` prints it as signs, which say of every token what matters to the reader, and adds the
parentheses that precedence asks for: an operand is put in parentheses if it binds more weakly than
its place allows.  `Formula.postorder` lists its steps, those of the operands first.

Readings that succeed are stated by what they give and the cursor they leave (`Takes`, `Passes`).
-/

namespace EbLang

variable {ε α β : Type}
variable {a : α} {c : Cursor} {Q : β → Prop} {sign : Sign}

/-! ## Formulas -/

inductive PrefixOperator where
  | negate
  | invert
  | not

namespace PrefixOperator

def symbol : PrefixOperator → String
  | negate => "-"
  | invert => "/"
  | not => "!"

def kind : PrefixOperator → TokenKind
  | negate => .dash
  | invert => .slash
  | not => .not

/-- How strongly a prefix operator binds. -/
def level : Nat := 11

end PrefixOperator

inductive BinaryOperator where
  | or
  | and
  | bitOr
  | bitXor
  | bitAnd
  | equal
  | notEqual
  | less
  | lessEqual
  | greater
  | greaterEqual
  | shiftLeft
  | shiftRight
  | add
  | subtract
  | multiply
  | divide
  | remainder

namespace BinaryOperator

def symbol : BinaryOperator → String
  | or => "||"
  | and => "&&"
  | bitOr => "|"
  | bitXor => "^"
  | bitAnd => "&"
  | equal => "=="
  | notEqual => "!="
  | less => "<"
  | lessEqual => "<="
  | greater => ">"
  | greaterEqual => ">="
  | shiftLeft => "<<"
  | shiftRight => ">>"
  | add => "+"
  | subtract => "-"
  | multiply => "*"
  | divide => "/"
  | remainder => "%"

def kind : BinaryOperator → TokenKind
  | or => .or
  | and => .and
  | bitOr => .pipe
  | bitXor => .caret
  | bitAnd => .ampersand
  | equal => .equals
  | notEqual => .notEquals
  | less => .less
  | lessEqual => .lessEquals
  | greater => .greater
  | greaterEqual => .greaterEquals
  | shiftLeft => .shiftLeft
  | shiftRight => .shiftRight
  | add => .plus
  | subtract => .dash
  | multiply => .star
  | divide => .slash
  | remainder => .percent

/-- How strongly the operator binds. -/
def level : BinaryOperator → Nat
  | or => 1
  | and => 2
  | bitOr => 3
  | bitXor => 4
  | bitAnd => 5
  | equal | notEqual => 6
  | less | lessEqual | greater | greaterEqual => 7
  | shiftLeft | shiftRight => 8
  | add | subtract => 9
  | multiply | divide | remainder => 10

theorem level_pos (op : BinaryOperator) : 0 < op.level := by cases op <;> decide

variable (op : BinaryOperator)

theorem level_lt_prefixLevel : op.level < PrefixOperator.level := by
  cases op <;> decide

theorem bindingPower_kind : op.kind.bindingPower = op.level := by
  cases op <;> rfl

theorem binarySymbol?_kind : op.kind.binarySymbol? = some op.symbol := by
  cases op <;> rfl

end BinaryOperator

/-- How strongly a member access binds. -/
def memberLevel : Nat := 12

/-- How strongly something binds that has no open end. -/
def closedLevel : Nat := 13

structure MemberName where
  text : String
  simple : isQualified text = false := by decide

/-- An expression as a tree.  A group is a formula in parentheses that precedence need not ask for;
an access may go through several members at once, as in `f().a.b`. -/
inductive Formula where
  | truth (b : Bool)
  | number (n : Number)
  | name (text : String)
  | prefixed (op : PrefixOperator) (operand : Formula)
  | binary (op : BinaryOperator) (left right : Formula)
  | call (name : String) (positional : List Formula) (named : List (String × Formula))
  | member (base : Formula) (first : MemberName) (more : List MemberName)
  | group (inner : Formula)

/-- What a token has to be for the reader, its place in the text apart. -/
inductive Sign where
  | symbol (kind : TokenKind)
  | name (text : String)
  | number (n : Number)

def Sign.kind : Sign → TokenKind
  | symbol kind => kind
  | name _ => .identifier
  | number n => n.tokenKind

/-- A token is as a sign says. -/
def Token.Shows (t : Token) : Sign → Prop
  | .symbol kind => t.kind = kind
  | .name text => t.kind = .identifier ∧ t.text = text
  | .number n => t.kind = n.tokenKind ∧ t.number = some n

/-- Tokens are as signs say, one by one. -/
abbrev Shown (ts : List Token) (signs : List Sign) : Prop := List.Forall₂ Token.Shows ts signs

/-- Signs with parentheses around them. -/
def inParens (signs : List Sign) : List Sign :=
  .symbol .openParen :: (signs ++ [.symbol .closeParen])

/-- The signs of an operand, in parentheses if it binds more weakly than its place allows. -/
def fenced (needed strength : Nat) (signs : List Sign) : List Sign :=
  if strength < needed then inParens signs else signs

/-- The signs of some arguments with commas between them. -/
def separated : List (List Sign) → List Sign
  | [] => []
  | [signs] => signs
  | signs :: next :: others => signs ++ .symbol .comma :: separated (next :: others)

/-- The step of a number. -/
def Number.atom (n : Number) : Atom :=
  match n.value with
  | .int k => ⟨.literal (.int k), .ofSuffix n.suffix false, .null⟩
  | .float x => ⟨.literal (.float x), .ofSuffix n.suffix true, .null⟩

/-- The step without its place in the text. -/
def Atom.unplaced (a : Atom) : Atom := { a with span := .null }

/-- The term without its place in the text; a value-`if` stays as it is. -/
def Term.unplaced : Term → Term
  | .atom a => .atom a.unplaced
  | t => t

namespace Formula

/-- How strongly a formula binds: the level of the operator that is applied last. -/
def strength : Formula → Nat
  | binary op _ _ => op.level
  | prefixed _ _ => PrefixOperator.level
  | member _ _ _ => memberLevel
  | truth _ | number _ | name _ | call _ _ _ | group _ => closedLevel

mutual

/-- The signs of a formula, with the parentheses that precedence asks for. -/
def render : Formula → List Sign
  | truth b => [.symbol (if b then .kwTrue else .kwFalse)]
  | number n => [.number n]
  | name text => [.name text]
  | prefixed op e => .symbol op.kind :: fenced PrefixOperator.level e.strength e.render
  | binary op l r =>
    fenced op.level l.strength l.render ++
      .symbol op.kind :: fenced (op.level + 1) r.strength r.render
  | call f positional named =>
    .name f :: inParens (separated (renderAll positional ++ renderNamed named))
  | member e first more =>
    fenced memberLevel e.strength e.render ++
      [.symbol .dot, .name (joinName ((first :: more).map MemberName.text))]
  | group e => inParens e.render

/-- The signs of positional arguments. -/
def renderAll : List Formula → List (List Sign)
  | [] => []
  | e :: es => e.render :: renderAll es

/-- The signs of named arguments. -/
def renderNamed : List (String × Formula) → List (List Sign)
  | [] => []
  | arg :: args => renderArg arg :: renderNamed args

/-- The signs of a named argument. -/
def renderArg : String × Formula → List Sign
  | (label, e) => .name label :: .symbol .assignment :: e.render

end

mutual

/-- The steps of a formula: those of its operands in order, then its own. -/
def postorder : Formula → List Atom
  | truth b => [.bool b .null]
  | number n => [n.atom]
  | name text => [.var text .null]
  | prefixed op e => e.postorder ++ [.operator op.symbol 1 .null]
  | binary op l r => l.postorder ++ r.postorder ++ [.operator op.symbol 2 .null]
  | call f positional named =>
    postorderAll positional ++ postorderNamed named ++
      [.call f positional.length (named.map Prod.fst) .null]
  | member e first more => e.postorder ++ (first :: more).map fun m => .member m.text .null
  | group e => e.postorder

/-- The steps of positional arguments. -/
def postorderAll : List Formula → List Atom
  | [] => []
  | e :: es => e.postorder ++ postorderAll es

/-- The steps of named arguments. -/
def postorderNamed : List (String × Formula) → List Atom
  | [] => []
  | arg :: args => postorderArg arg ++ postorderNamed args

/-- The steps of a named argument. -/
def postorderArg : String × Formula → List Atom
  | (_, e) => e.postorder

end

end Formula

/-- A token that may go on with an expression: an operator, a dot, or the parenthesis of a call. -/
def TokenKind.GoesOn (kind : TokenKind) : Prop :=
  (∃ op : BinaryOperator, kind = op.kind) ∨ kind = .dot ∨ kind = .openParen

/-- Only a token that may go on with an expression binds. -/
theorem TokenKind.bindingPower_of_not_goesOn {kind : TokenKind} (h : ¬ kind.GoesOn) :
    kind.bindingPower = 0 := by
  have operator : ∀ op : BinaryOperator, kind ≠ op.kind := fun op same => h (.inl ⟨op, same⟩)
  have dot : kind ≠ .dot := fun same => h (.inr (.inl same))
  cases kind with
  | or => exact absurd rfl (operator .or)
  | and => exact absurd rfl (operator .and)
  | pipe => exact absurd rfl (operator .bitOr)
  | caret => exact absurd rfl (operator .bitXor)
  | ampersand => exact absurd rfl (operator .bitAnd)
  | equals => exact absurd rfl (operator .equal)
  | notEquals => exact absurd rfl (operator .notEqual)
  | less => exact absurd rfl (operator .less)
  | lessEquals => exact absurd rfl (operator .lessEqual)
  | greater => exact absurd rfl (operator .greater)
  | greaterEquals => exact absurd rfl (operator .greaterEqual)
  | shiftLeft => exact absurd rfl (operator .shiftLeft)
  | shiftRight => exact absurd rfl (operator .shiftRight)
  | plus => exact absurd rfl (operator .add)
  | dash => exact absurd rfl (operator .subtract)
  | star => exact absurd rfl (operator .multiply)
  | slash => exact absurd rfl (operator .divide)
  | percent => exact absurd rfl (operator .remainder)
  | dot => exact absurd rfl dot
  | _ => rfl

/-! ## Readings that succeed -/

/-- A computation gives a value, and one that satisfies a predicate. -/
def Succeeds (x : Except ε α) (P : α → Prop) : Prop := ∃ a, x = .ok a ∧ P a

theorem succeeds_pure {P : α → Prop} (h : P a) : Succeeds (pure a : Except ε α) P :=
  ⟨a, rfl, h⟩

def firstKind : List Token → TokenKind
  | [] => .eof
  | t :: _ => t.kind

/-- A reading gives a value and leaves a cursor. -/
def Takes {s : Cursor} (x : Except Error (Taken α s)) (a : α) (c : Cursor) : Prop :=
  Succeeds x fun r => r.value = a ∧ r.rest = c

/-- A reading, if need be of no token, gives a value and leaves a cursor. -/
def Passes {s : Cursor} (x : Except Error (Passed α s)) (a : α) (c : Cursor) : Prop :=
  Succeeds x fun r => r.value = a ∧ r.rest = c

theorem Takes.bind {s : Cursor} {x : Except Error (Taken α s)} {f : Taken α s → Except Error β}
    (hx : Takes x a c) (hf : ∀ shorter, Succeeds (f ⟨a, c, shorter⟩) Q) : Succeeds (x >>= f) Q := by
  obtain ⟨⟨_, _, shorter⟩, rfl, rfl, rfl⟩ := hx
  exact hf shorter

theorem Passes.bind {s : Cursor} {x : Except Error (Passed α s)} {f : Passed α s → Except Error β}
    (hx : Passes x a c)
    (hf : ∀ notLonger, Succeeds (f ⟨a, c, notLonger⟩) Q) : Succeeds (x >>= f) Q := by
  obtain ⟨⟨_, _, notLonger⟩, rfl, rfl, rfl⟩ := hx
  exact hf notLonger

namespace Cursor
variable {s : Cursor} {t : Token} {ts : List Token}

theorem kind_eq (s : Cursor) : s.kind = firstKind s.rest := by
  obtain ⟨rest, finish, lastEnd⟩ := s
  cases rest <;> rfl

def past (s : Cursor) (t : Token) (ts : List Token) : Cursor := ⟨ts, s.finish, t.span.stop⟩

theorem takes_take (h : s.rest = t :: ts) : Takes s.take t (s.past t ts) := by
  obtain ⟨rest, finish, lastEnd⟩ := s
  cases h
  exact ⟨_, rfl, rfl, rfl⟩

variable {kind : TokenKind}

theorem takes_expect (h : s.rest = t :: ts) (same : t.kind = kind) :
    Takes (s.expect kind) t (s.past t ts) := by
  unfold expect
  rw [if_pos (by rw [kind_eq, h]; exact same)]
  exact takes_take h

theorem takes_expectFor {wanted : String} (h : s.rest = t :: ts)
    (same : t.kind = kind) : Takes (s.expectFor kind wanted) t (s.past t ts) := by
  obtain ⟨rest, finish, lastEnd⟩ := s
  cases h
  exact ⟨⟨t, _, Nat.lt_succ_self _⟩, if_pos same, rfl, rfl⟩

theorem skipStops_eq (h : firstKind s.rest ≠ .stop) : s.skipStops.1 = s := by
  obtain ⟨rest, finish, lastEnd⟩ := s
  cases rest with
  | nil => rfl
  | cons t ts =>
    have same : dropStops lastEnd (t :: ts) = (lastEnd, t :: ts) := if_neg h
    simp only [skipStops, same]
end Cursor

/-! ## Tokens of signs -/

theorem Token.Shows.kind_eq {t : Token} (h : t.Shows sign) : t.kind = sign.kind := by
  cases sign with
  | symbol kind => exact h
  | name text => exact h.1
  | number n => exact h.1

variable {ts : List Token}

theorem Shown.of_cons {signs : List Sign}
    (h : Shown ts (sign :: signs)) : ∃ t us, ts = t :: us ∧ t.Shows sign ∧ Shown us signs := by
  obtain ⟨t, us, first, others, rfl⟩ := List.forall₂_cons_right_iff.mp h
  exact ⟨t, us, rfl, first, others⟩

theorem Shown.of_append {signs signs' : List Sign} (h : Shown ts (signs ++ signs')) :
    ∃ us vs, ts = us ++ vs ∧ Shown us signs ∧ Shown vs signs' :=
  ⟨_, _, (List.take_append_drop signs.length ts).symm, List.forall₂_take_append _ _ _ h,
    List.forall₂_drop_append _ _ _ h⟩

/-- What the first signs of an expression are not: the end of a statement or of a group, or the name
of an argument. -/
def Starts (signs : List Sign) : Prop :=
  ∃ sign more, signs = sign :: more ∧ sign.kind ≠ .stop ∧ sign.kind ≠ .closeParen ∧
    (sign.kind = .identifier → ∀ next ∈ more.head?, next.kind ≠ .assignment)

namespace Starts

variable {signs : List Sign} {ts rest : List Token}

theorem single (stop : sign.kind ≠ .stop) (close : sign.kind ≠ .closeParen) : Starts [sign] :=
  ⟨sign, [], rfl, stop, close, fun _ => by simp⟩

theorem symbol {kind : TokenKind} (stop : kind ≠ .stop) (close : kind ≠ .closeParen)
    (name : kind ≠ .identifier) (more : List Sign) : Starts (.symbol kind :: more) :=
  ⟨_, _, rfl, stop, close, fun same => absurd same name⟩

theorem append (h : Starts signs) (other : sign.kind ≠ .assignment)
    (more : List Sign) : Starts (signs ++ sign :: more) := by
  obtain ⟨first, others, rfl, stop, close, name⟩ := h
  refine ⟨first, others ++ sign :: more, rfl, stop, close, fun same next there => ?_⟩
  cases others with
  | nil => cases there; exact other
  | cons second others => exact name same next there

theorem firstKind_ne (h : Starts signs) (shown : Shown ts signs) (rest : List Token) :
    firstKind (ts ++ rest) ≠ .stop ∧ firstKind (ts ++ rest) ≠ .closeParen := by
  obtain ⟨sign, more, rfl, stop, close, -⟩ := h
  obtain ⟨t, us, rfl, first, -⟩ := shown.of_cons
  rw [← first.kind_eq] at stop close
  exact ⟨stop, close⟩

/-- An expression is not taken for a named argument. -/
theorem atArgumentName_eq_false (h : Starts signs) (shown : Shown ts signs) {s : Cursor}
    (whole : s.rest = ts ++ rest) (after : firstKind rest ≠ .assignment) :
    Tree.atArgumentName s = false := by
  obtain ⟨sign, more, rfl, -, -, name⟩ := h
  obtain ⟨t, us, rfl, first, others⟩ := shown.of_cons
  by_cases identifier : sign.kind = .identifier
  · have next : firstKind (us ++ rest) ≠ .assignment := by
      cases more with
      | nil => cases others; exact after
      | cons second more =>
        obtain ⟨u, vs, rfl, shows, -⟩ := others.of_cons
        have other := name identifier second rfl
        rw [← shows.kind_eq] at other
        exact other
    have peeked : s.peek 1 = firstKind (us ++ rest) := by
      rw [Cursor.peek, whole, List.cons_append]
      cases us ++ rest <;> rfl
    simp [Tree.atArgumentName, peeked, next]
  · have kind : s.kind = sign.kind := by rw [s.kind_eq, whole]; exact first.kind_eq
    simp [Tree.atArgumentName, kind, identifier]

end Starts

end EbLang
