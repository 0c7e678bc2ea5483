import EbLang.Text.Blank
import EbLang.Token

/-!
# Scanning

Source text is cut into segments: blanks and comments, directives, and tokens.  `segment` looks at
the characters ahead, decides what the next segment is and how long it is; `scan` repeats it to the
end of the text.

The rules are tried in this order: blanks, line ends and semicolons, comments, directives, numbers,
names, symbols of two characters, symbols of one.  Each takes the longest text it can.
-/

namespace EbLang

/-! ## Classes of characters -/

/-- A blank inside a line. -/
def isGap (c : Char) : Bool := c == ' ' || c == '\t' || c == '\r'

/-- A letter, a digit or an underscore of ASCII. -/
def isWordChar (c : Char) : Bool := c.isAlphanum || c == '_'

/-- A character that a name may start with: a letter, an underscore or anything beyond ASCII. -/
def isNameStart (c : Char) : Bool := c.isAlpha || c == '_' || decide (128 ≤ c.toNat)

def isNameChar (c : Char) : Bool := isNameStart c || c.isDigit

def isDigitOrGap (c : Char) : Bool := c.isDigit || c == '_'

/-- A letter of a directive's name. -/
def isDirectiveChar (c : Char) : Bool := c.isAlpha || c == '_'

/-! ## Lengths of segments -/

/-- How many characters before the first line feed. -/
def lineLength (cs : List Char) : Nat := (cs.takeWhile (· != '\n')).length

/-- How many characters stand before the end of a block comment. -/
def commentLength? : List Char → Option Nat
  | '*' :: '/' :: _ => some 0
  | _ :: cs => (commentLength? cs).map (· + 1)
  | [] => none

/-- The text before a line comment. -/
def beforeComment : List Char → List Char
  | '/' :: '/' :: _ => []
  | c :: cs => c :: beforeComment cs
  | [] => []

/-- How many characters go on with a name.  A dot belongs to it if a new part follows. -/
def nameTailLength : List Char → Nat
  | [] => 0
  | c :: cs =>
    if isNameChar c then nameTailLength cs + 1
    else if c == '.' && cs.head?.any isNameStart then nameTailLength cs + 1
    else 0

/-- How many characters an exponent has: a letter, an optional sign and at least one digit. -/
def exponentLength : List Char → Nat
  | [] => 0
  | c :: cs =>
    if c == 'e' || c == 'E' then
      let sign := if cs.head? == some '+' || cs.head? == some '-' then 1 else 0
      let digits := ((cs.drop sign).takeWhile Char.isDigit).length
      if digits = 0 then 0 else 1 + sign + digits
    else 0

/-- How many characters a point and the digits after it have, if a digit follows the point. -/
def fractionLength : List Char → Nat
  | '.' :: c :: cs => if c.isDigit then 2 + (cs.takeWhile isDigitOrGap).length else 0
  | _ => 0

/-- How many characters the digits of a decimal number have, the point included. -/
def mantissaLength (cs : List Char) : Nat :=
  if cs.head?.any Char.isDigit then
    let n := (cs.takeWhile isDigitOrGap).length
    n + fractionLength (cs.drop n)
  else fractionLength cs

/-- How many characters a number has, zero if there is none. -/
def numberLength (cs : List Char) : Nat :=
  match Number.splitBase? cs with
  | some (_, body) => 2 + (body.takeWhile isWordChar).length
  | none =>
    let n := mantissaLength cs
    if n = 0 then 0
    else
      let e := n + exponentLength (cs.drop n)
      e + ((cs.drop e).takeWhile isWordChar).length

/-! ## Segments -/

/-- What a segment of source text stands for. -/
inductive Lexeme where
  | blank
  | directive (kind : DirectiveKind) (value : String)
  | token (kind : TokenKind) (number : Option Number)

/-- A segment of source text. -/
structure Segment where
  lexeme : Lexeme
  /-- How many characters it has after its first. -/
  more : Nat

def directiveLexeme (name argument : List Char) : Except Fault Lexeme :=
  let value := Text.trim (beforeComment argument)
  match DirectiveKind.ofName? (String.ofList name) with
  | none => .error (.unknownDirective (String.ofList name))
  | some kind =>
    if value.isEmpty then .error (.missingDirectiveValue (String.ofList name))
    else .ok (.directive kind (String.ofList value))

def numberLexeme (text : List Char) : Except Fault Lexeme := do
  let number ← Number.read (String.ofList text)
  match number.value with
  | .int _ => return .token .int (some number)
  | .float _ => return .token .float (some number)

def nameLexeme (text : List Char) : Lexeme :=
  .token ((TokenKind.ofReserved? (String.ofList text)).getD .identifier) none

/-- The symbol at the start of a text. -/
def symbolSegment (c : Char) (cs : List Char) : Except Fault Segment :=
  match cs.head?.bind (TokenKind.ofPair? c) with
  | some kind => .ok ⟨.token kind none, 1⟩
  | none =>
    match TokenKind.ofChar? c with
    | some kind => .ok ⟨.token kind none, 0⟩
    | none => .error (.unrecognisedToken (String.singleton c))

/-- The number, name or symbol at the start of a text. -/
def tokenSegment (c : Char) (cs : List Char) : Except Fault Segment :=
  let n := numberLength (c :: cs)
  if n ≠ 0 then do
    let lexeme ← numberLexeme ((c :: cs).take n)
    return ⟨lexeme, n - 1⟩
  else if isNameStart c then
    let n := nameTailLength cs
    .ok ⟨nameLexeme (c :: cs.take n), n⟩
  else symbolSegment c cs

/-- The segment at the start of a text. -/
def segment (c : Char) (cs : List Char) : Except Fault Segment :=
  if isGap c then .ok ⟨.blank, (cs.takeWhile isGap).length⟩
  else if c = '/' && cs.head? == some '/' then .ok ⟨.blank, lineLength cs⟩
  else if c = '/' && cs.head? == some '*' then
    match commentLength? (cs.drop 1) with
    | some n => .ok ⟨.blank, n + 3⟩
    | none => .error .unterminatedComment
  else if c = '#' && cs.head?.any isDirectiveChar then do
    let line := cs.take (lineLength cs)
    let name := line.takeWhile isDirectiveChar
    let argument := (line.drop name.length).dropWhile fun b => b == ' ' || b == '\t'
    let lexeme ← directiveLexeme name argument
    return ⟨lexeme, lineLength cs⟩
  else tokenSegment c cs

/-! ## Files -/

/-- The file with one more segment in front. -/
def Lexed.push (lexeme : Lexeme) (text : List Char) (span : Span) (l : Lexed) : Lexed :=
  match lexeme with
  | .blank => l
  | .directive kind value => { l with directives := ⟨kind, value, span⟩ :: l.directives }
  | .token kind number =>
    { l with tokens := { kind, text := String.ofList text, span, number } :: l.tokens }

/-- Reads the text from a position to its end. -/
def scanFrom (p : Position) : List Char → Except Error Lexed
  | [] => .ok { tokens := [], finish := p, directives := [] }
  | c :: cs =>
    match segment c cs with
    | .error fault => .error ⟨fault, p⟩
    | .ok seg =>
      let text := c :: cs.take seg.more
      let next := p.advance text
      match scanFrom next (cs.drop seg.more) with
      | .error e => .error e
      | .ok l => .ok (l.push seg.lexeme text ⟨p, next⟩)
termination_by cs => cs.length
decreasing_by simp only [List.length_drop, List.length_cons]; omega

/-- Reads the text of a file into tokens. -/
def scan (source file : String) : Except Error Lexed :=
  scanFrom (Position.start file) source.toList

end EbLang
