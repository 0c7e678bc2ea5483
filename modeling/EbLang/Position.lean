/-!
# Positions and spans

A position is a line and a column of a named file, both counted from one; columns count characters.
A span runs from the position of its first character to the position after its last.
-/

namespace EbLang

/-- A place in a file. -/
structure Position where
  /-- The line, counted from one; zero for a place outside every text. -/
  line : Nat
  column : Nat
  file : String
deriving DecidableEq, Inhabited

namespace Position

/-- The position of things that stand in no file. -/
def null : Position := ⟨0, 0, "<null>"⟩

/-- The first place of a file. -/
def start (file : String) : Position := ⟨1, 1, file⟩

/-- A file as a whole. -/
def ofFile (file : String) : Position := ⟨0, 0, file⟩

/-- The place after a character. -/
def step (p : Position) (c : Char) : Position :=
  if c = '\n' then { p with line := p.line + 1, column := 1 }
  else { p with column := p.column + 1 }

/-- The place after some characters. -/
def advance (p : Position) (cs : List Char) : Position := cs.foldl step p

/-- The position as `file:line:column`. -/
def render (p : Position) : String := s!"{p.file}:{p.line}:{p.column}"

end Position

/-- A stretch of a file. -/
structure Span where
  /-- The position of the first character. -/
  start : Position
  /-- The position after the last character. -/
  stop : Position
deriving DecidableEq, Inhabited

namespace Span

/-- The empty span at a place. -/
def point (p : Position) : Span := ⟨p, p⟩

/-- The span of things that stand in no file. -/
def null : Span := Span.point Position.null

/-- The span from the start of `a` to the end of `b`. -/
def upTo (a b : Span) : Span := ⟨a.start, b.stop⟩

/-- The span as `line:column-line:column`. -/
def render (s : Span) : String :=
  s!"{s.start.line}:{s.start.column}-{s.stop.line}:{s.stop.column}"

end Span

end EbLang
