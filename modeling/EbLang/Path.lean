import EbLang.Text.Letter

/-!
# Paths

A path is a text whose parts stand between slashes.  A leading slash makes it absolute; a part `.`
means nothing except at the start of a relative path.
-/

namespace EbLang

/-- A path as written. -/
structure Path where
  text : String
deriving DecidableEq, Inhabited

namespace Path

/-- The stretches of a text between its slashes. -/
def splitAtSlashes : List Char → List (List Char)
  | [] => [[]]
  | c :: cs =>
    if c = '/' then [] :: splitAtSlashes cs
    else
      match splitAtSlashes cs with
      | [] => [[c]]
      | part :: parts => (c :: part) :: parts

/-- Whether the path starts at the root. -/
def isAbsolute (p : Path) : Bool := p.text.toList.head? == some '/'

/-- The parts that name something, in order.  Empty parts and `.` are left out. -/
def parts (p : Path) : List String :=
  ((splitAtSlashes p.text.toList).map String.ofList).filter fun s => s != "" && s != "."

/-- Appends `q` to `p`; an absolute path stands for itself. -/
def join (p : Path) (q : String) : Path :=
  if q.toList.head? == some '/' || p.text.isEmpty then ⟨q⟩
  else if p.text.toList.getLast? == some '/' then ⟨p.text ++ q⟩
  else ⟨p.text ++ "/" ++ q⟩

/-- Drops the last part of a reversed path text, with the slashes and dots before it. -/
def dropLastPart (rev : List Char) : List Char := (rev.dropWhile (· == '/')).dropWhile (· != '/')

/-- Drops slashes, and parts that are a single dot, from the front of a reversed path text. -/
def dropGaps : List Char → List Char
  | '/' :: cs => dropGaps cs
  | '.' :: '/' :: cs => dropGaps ('/' :: cs)
  | cs => cs

/-- The directory a path lies in. -/
def parent (p : Path) : Path :=
  let rest := dropGaps (dropLastPart (dropGaps p.text.toList.reverse))
  if rest.isEmpty && p.isAbsolute then ⟨"/"⟩ else ⟨String.ofList rest.reverse⟩

/-- A path and, as often as told, the directory it lies in. -/
def upward (p : Path) : Nat → List Path
  | 0 => [p]
  | n + 1 => p :: upward p.parent n

/-- A path and the directories it lies in, innermost first, as far as they have a spelling. -/
def ancestors (p : Path) : List Path :=
  (upward p p.parts.length).filter fun q => !q.text.isEmpty

/-- Whether the last part of a path is `.`. -/
def endsWithDot (p : Path) : Bool :=
  match p.text.toList.reverse.dropWhile (· == '/') with
  | ['.'] | '.' :: '/' :: _ => true
  | _ => false

/-- The last part of a path, none if it leads upwards or to the root. -/
def fileName? (p : Path) : Option String := p.parts.getLast?.filter (· != "..")

def beforeLastDot? (name : List Char) : Option (List Char) :=
  let tail := name.reverse.dropWhile (· != '.')
  if tail.isEmpty then none else some (tail.drop 1).reverse

/-- The last part of a path without its extension.  A dot at the start of a name begins none. -/
def stem (p : Path) : String :=
  match p.fileName? with
  | none => ""
  | some name =>
    match beforeLastDot? name.toList with
    | none => name
    | some before => if before.isEmpty then name else String.ofList before

end Path

def isIdentifier (name : String) : Bool :=
  match name.toList with
  | [] => false
  | c :: cs =>
    (Text.isLetter c || c == '_') && cs.all fun d => Text.isLetterOrDigit d || d == '_'

end EbLang
