import EbLang.Tree

/-!
# Cursors

A cursor is a place in the tokens of a file.  Reading from it gives what was read together with the
cursor after it and a proof that fewer tokens are left, so every loop over tokens ends.  The end of
the file is never read over.
-/

namespace EbLang

/-- A place in the tokens of a file. -/
structure Cursor where
  rest : List Token
  /-- The end of the file. -/
  finish : Position
  lastEnd : Position

/-- Something read, and the cursor after it. -/
structure Taken (α : Type) (s : Cursor) where
  value : α
  rest : Cursor
  shorter : rest.rest.length < s.rest.length

/-- Something read, if need be from no token at all, and the cursor after it. -/
structure Passed (α : Type) (s : Cursor) where
  value : α
  rest : Cursor
  notLonger : rest.rest.length ≤ s.rest.length

namespace Cursor

/-- The cursor at the first token. -/
def ofLexed (l : Lexed) : Cursor := ⟨l.tokens, l.finish, l.finish⟩

/-- The number of tokens that are left. -/
abbrev size (s : Cursor) : Nat := s.rest.length

/-- The next token, which may be the end of the file. -/
def current (s : Cursor) : Token := s.rest.head?.getD (Token.ofEnd s.finish)

/-- The kind of the next token. -/
def kind (s : Cursor) : TokenKind := s.current.kind

/-- The kind of the token `n` places ahead. -/
def peek (s : Cursor) (n : Nat) : TokenKind :=
  match s.rest[n]? with
  | some t => t.kind
  | none => .eof

/-- Where the next token starts. -/
def position (s : Cursor) : Position := s.current.span.start

/-- The span from a place to the last token read. -/
def spanFrom (s : Cursor) (start : Position) : Span := ⟨start, s.lastEnd⟩

/-- The error of a token that cannot stand here. -/
def unexpected (s : Cursor) : Error := ⟨.unexpectedToken s.current.shown, s.position⟩

/-- The error of a token that cannot stand here, and what was wanted. -/
def unexpectedFor (s : Cursor) (wanted : String) : Error :=
  ⟨.unexpectedTokenDetailed s.current.shown wanted, s.position⟩

/-- Reads a token, if there is one. -/
def take? (s : Cursor) : Option (Taken Token s) :=
  match h : s.rest with
  | [] => none
  | t :: ts => some ⟨t, { s with rest := ts, lastEnd := t.span.stop }, by simp [h]⟩

/-- Reads a token of any kind. -/
def take (s : Cursor) : Except Error (Taken Token s) :=
  match s.take? with
  | some t => .ok t
  | none => .error s.unexpected

/-- Reads a token of the given kind. -/
def expect (s : Cursor) (kind : TokenKind) : Except Error (Taken Token s) :=
  if s.kind = kind then s.take else .error s.unexpected

/-- Reads a token of the given kind; the error says what was wanted. -/
def expectFor (s : Cursor) (kind : TokenKind) (wanted : String) : Except Error (Taken Token s) :=
  match s.take? with
  | some t => if t.value.kind = kind then .ok t else .error (s.unexpectedFor wanted)
  | none => .error (s.unexpectedFor wanted)

/-- Reading on leaves fewer tokens. -/
theorem shorter_trans {r s t : Cursor} (h1 : s.rest.length < t.rest.length)
    (h2 : r.rest.length < s.rest.length) : r.rest.length < t.rest.length :=
  Nat.lt_trans h2 h1

/-- Reading on leaves no more tokens. -/
theorem notLonger_trans {r s t : Cursor} (h1 : s.rest.length < t.rest.length)
    (h2 : r.rest.length < s.rest.length) : r.rest.length ≤ t.rest.length :=
  Nat.le_of_lt (shorter_trans h1 h2)

/-- Without reading, no more tokens are left. -/
theorem notLonger_refl (s : Cursor) : s.rest.length ≤ s.rest.length := Nat.le_refl _

/-- The tokens after the statement ends they start with, and the end of the last one dropped. -/
def dropStops (lastEnd : Position) : List Token → Position × List Token
  | [] => (lastEnd, [])
  | t :: ts => if t.kind = .stop then dropStops t.span.stop ts else (lastEnd, t :: ts)

theorem length_dropStops_le (ts : List Token) (p : Position) :
    (dropStops p ts).2.length ≤ ts.length := by
  induction ts generalizing p with
  | nil => simp [dropStops]
  | cons t ts ih =>
    simp only [dropStops]
    split
    · exact Nat.le_trans (ih _) (by simp)
    · exact Nat.le_refl _

/-- Passes over statement ends. -/
def skipStops (s : Cursor) : { r : Cursor // r.rest.length ≤ s.rest.length } :=
  ⟨{ s with lastEnd := (dropStops s.lastEnd s.rest).1, rest := (dropStops s.lastEnd s.rest).2 },
    length_dropStops_le s.rest s.lastEnd⟩

end Cursor

end EbLang
