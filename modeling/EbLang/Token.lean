import EbLang.Number

/-!
# Tokens and directives

A file is a list of tokens.  Line ends and semicolons are tokens of one kind, since both end a
statement.  A dotted name such as `geometry.Point` is one identifier.  Directives are lines of their
own for the build and are kept apart from the tokens.
-/

namespace EbLang

/-- What a token is. -/
inductive TokenKind where
  /-- The end of the file. -/
  | eof
  /-- A line end or a semicolon. -/
  | stop
  | int
  | float
  | identifier
  | openBracket
  | closeBracket
  | openCurly
  | closeCurly
  | openParen
  | closeParen
  | assignment
  | colonAssignment
  | equals
  | not
  | notEquals
  | less
  | lessEquals
  | greater
  | greaterEquals
  | shiftLeft
  | shiftRight
  | or
  | and
  | ampersand
  | pipe
  | caret
  | dot
  | colon
  | comma
  | plusEquals
  | minusEquals
  | starEquals
  | slashEquals
  | ampersandEquals
  | pipeEquals
  | caretEquals
  | plus
  | dash
  | slash
  | star
  | percent
  | kwFn
  | kwTrue
  | kwFalse
  | kwReturn
  | kwIf
  | kwElse
  | kwWhile
  | kwBreak
  | kwContinue
  | kwPub
  | kwImport
  | kwGlobal
  | kwConst
  | kwStruct
  | kwModule
  | kwExtend
deriving DecidableEq

namespace TokenKind

/-- The name in a list of tokens. -/
def name : TokenKind → String
  | eof => "EOF"
  | stop => "End"
  | int => "Int"
  | float => "Float"
  | identifier => "Identifier"
  | openBracket => "OpenBracket"
  | closeBracket => "CloseBracket"
  | openCurly => "OpenCurly"
  | closeCurly => "CloseCurly"
  | openParen => "OpenParen"
  | closeParen => "CloseParen"
  | assignment => "Assignment"
  | colonAssignment => "ColonAssignment"
  | equals => "Equals"
  | not => "Not"
  | notEquals => "NotEquals"
  | less => "Less"
  | lessEquals => "LessEquals"
  | greater => "Greater"
  | greaterEquals => "GreaterEquals"
  | shiftLeft => "ShiftLeft"
  | shiftRight => "ShiftRight"
  | or => "Or"
  | and => "And"
  | ampersand => "Ampersand"
  | pipe => "Pipe"
  | caret => "Caret"
  | dot => "Dot"
  | colon => "Colon"
  | comma => "Comma"
  | plusEquals => "PlusEquals"
  | minusEquals => "MinusEquals"
  | starEquals => "StarEquals"
  | slashEquals => "SlashEquals"
  | ampersandEquals => "AmpersandEquals"
  | pipeEquals => "PipeEquals"
  | caretEquals => "CaretEquals"
  | plus => "Plus"
  | dash => "Dash"
  | slash => "Slash"
  | star => "Star"
  | percent => "Percent"
  | kwFn => "Fn"
  | kwTrue => "True"
  | kwFalse => "False"
  | kwReturn => "Return"
  | kwIf => "If"
  | kwElse => "Else"
  | kwWhile => "While"
  | kwBreak => "Break"
  | kwContinue => "Continue"
  | kwPub => "Pub"
  | kwImport => "Import"
  | kwGlobal => "Global"
  | kwConst => "Const"
  | kwStruct => "Struct"
  | kwModule => "Module"
  | kwExtend => "Extend"

/-- The kind of a reserved word. -/
def ofReserved? : String → Option TokenKind
  | "fn" => some kwFn
  | "true" => some kwTrue
  | "false" => some kwFalse
  | "return" => some kwReturn
  | "if" => some kwIf
  | "else" => some kwElse
  | "while" => some kwWhile
  | "break" => some kwBreak
  | "continue" => some kwContinue
  | "pub" => some kwPub
  | "import" => some kwImport
  | "global" => some kwGlobal
  | "const" => some kwConst
  | "struct" => some kwStruct
  | "module" => some kwModule
  | "extend" => some kwExtend
  | _ => none

/-- The kind of a token of two characters. -/
def ofPair? : Char → Char → Option TokenKind
  | ':', '=' => some colonAssignment
  | '=', '=' => some equals
  | '!', '=' => some notEquals
  | '<', '=' => some lessEquals
  | '>', '=' => some greaterEquals
  | '<', '<' => some shiftLeft
  | '>', '>' => some shiftRight
  | '|', '|' => some or
  | '&', '&' => some and
  | '+', '=' => some plusEquals
  | '-', '=' => some minusEquals
  | '*', '=' => some starEquals
  | '/', '=' => some slashEquals
  | '&', '=' => some ampersandEquals
  | '|', '=' => some pipeEquals
  | '^', '=' => some caretEquals
  | _, _ => none

/-- The kind of a token of one character. -/
def ofChar? : Char → Option TokenKind
  | '\n' => some stop
  | ';' => some stop
  | '[' => some openBracket
  | ']' => some closeBracket
  | '\x7b' => some openCurly
  | '\x7d' => some closeCurly
  | '(' => some openParen
  | ')' => some closeParen
  | '!' => some not
  | '=' => some assignment
  | '<' => some less
  | '>' => some greater
  | '&' => some ampersand
  | '|' => some pipe
  | '^' => some caret
  | '.' => some dot
  | ':' => some colon
  | ',' => some comma
  | '+' => some plus
  | '-' => some dash
  | '/' => some slash
  | '*' => some star
  | '%' => some percent
  | _ => none

end TokenKind

/-- A token. -/
structure Token where
  kind : TokenKind
  /-- The characters of the source it was read from. -/
  text : String
  span : Span
  number : Option Number := none
deriving DecidableEq

namespace Token

/-- The token for the end of a file. -/
def ofEnd (p : Position) : Token := { kind := .eof, text := "EOF", span := Span.point p }

/-- The token as messages show it. -/
def shown (t : Token) : String :=
  match t.kind with
  | .stop => "end of statement"
  | .eof => "end of file"
  | _ => t.text

end Token

/-- What a directive is about. -/
inductive DirectiveKind where
  /-- Another file of the build. -/
  | includeFile
  /-- The directory that receives the outputs. -/
  | outBuild
  | outExec
deriving DecidableEq

namespace DirectiveKind

/-- The name in a list of directives. -/
def name : DirectiveKind → String
  | includeFile => "Include"
  | outBuild => "OutBuild"
  | outExec => "OutExec"

/-- The kind a directive's name stands for. -/
def ofName? : String → Option DirectiveKind
  | "include" => some includeFile
  | "out_build" => some outBuild
  | "out_exec" => some outExec
  | _ => none

end DirectiveKind

/-- A line for the build. -/
structure Directive where
  kind : DirectiveKind
  value : String
  span : Span
deriving DecidableEq

/-- A file read into tokens. -/
structure Lexed where
  /-- The tokens, without the one for the end of the file. -/
  tokens : List Token
  /-- The position after the last character. -/
  finish : Position
  directives : List Directive

/-- The tokens with the one for the end. -/
def Lexed.allTokens (l : Lexed) : List Token := l.tokens ++ [Token.ofEnd l.finish]

end EbLang
