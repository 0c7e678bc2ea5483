import EbLang.Error
import EbLang.Text.Blank

/-!
# Excerpts

An error is shown with the line it points into.  The line is printed without the blanks it starts
with and without the white space at its end, behind its number; below it a row of dashes ends in a
caret under the column of the error.

```text
Error: UnrecognisedToken (unrecognised token: "@")
-> main.eb:2:10
  |
2 | x := @
  | -----^
```
-/

namespace EbLang

/-- The lines of a text, each with the line feed that ends it. -/
def splitLines : List Char → List (List Char)
  | [] => []
  | c :: cs =>
    if c = '\n' then [c] :: splitLines cs
    else
      match splitLines cs with
      | [] => [[c]]
      | line :: lines => (c :: line) :: lines

/-- The line of the given number, counted from one, without its line end. -/
def lineAt? (source : String) (line : Nat) : Option (List Char) :=
  if line = 0 then none
  else
    ((splitLines source.toList)[line - 1]?).map
      (Text.dropEndWhile fun c => c == '\n' || c == '\r')

def isIndent (c : Char) : Bool := c == ' ' || c == '\t'

/-- Text moved to the right end of a field. -/
def padLeft (fill : Char) (width : Nat) (cs : List Char) : List Char :=
  List.replicate (width - cs.length) fill ++ cs

/-- A line and the caret under one of its columns. -/
structure Excerpt where
  /-- The bar above the line. -/
  bar : List Char
  /-- The number and the text of the line. -/
  text : List Char
  /-- The bar, the dashes and the caret. -/
  caret : List Char

def Excerpt.ofLine (line column : Nat) (content : List Char) : Excerpt :=
  let number := (toString line).toList
  let bar := padLeft ' ' (number.length + 2) ['|']
  let indent := (content.takeWhile isIndent).length
  { bar := bar
    text := number ++ [' ', '|', ' '] ++ Text.trimEnd (content.drop indent)
    caret := bar ++ [' '] ++ padLeft '-' (max (column - indent) 1) ['^'] }

/-- The three lines of an excerpt. -/
def Excerpt.render (e : Excerpt) : List Char :=
  e.bar ++ ['\n'] ++ e.text ++ ['\n'] ++ e.caret ++ ['\n']

namespace Error

/-- The two lines that say what happened and where. -/
def headline (e : Error) : String :=
  s!"Error: {e.fault.name} ({e.fault.tip?.getD e.fault.message})\n-> {e.position.render}\n"

/-- The error with an excerpt of the source, if the source has the line it points into. -/
def display (e : Error) (source : String) : String :=
  match lineAt? source e.position.line with
  | none => e.headline
  | some content =>
    e.headline ++
      String.ofList (Excerpt.ofLine e.position.line e.position.column content).render

end Error

end EbLang
