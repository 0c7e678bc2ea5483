import EbLang.Tree.Parser

/-!
# Reading items

An item is a function, an import, a global, a struct or a module, with `pub` in front if other files
may use it.
-/

namespace EbLang

namespace Tree

/-- Reads a parameter or a member of a struct. -/
def field (s : Cursor) : Except Error (Taken Field s) := do
  let ⟨name, s1, h1⟩ ← s.expectFor .identifier "expected parameter name"
  let ⟨_, s2, h2⟩ ← s1.expectFor .colon "expected `:` after parameter name"
  let ⟨ty, s3, h3⟩ ← typeName s2
  have h := Cursor.shorter_trans h1 h2
  return ⟨⟨name.text, ty, s3.spanFrom name.span.start⟩, s3, Cursor.shorter_trans h h3⟩

def defaultValue (s : Cursor) : Except Error (Passed (Option (Expr Term)) s) :=
  if s.kind = .assignment then do
    let ⟨_, s1, h1⟩ ← s.take
    let ⟨value, s2, h2⟩ ← wholeExpression s1
    return ⟨some value, s2, Cursor.notLonger_trans h1 h2⟩
  else return ⟨none, s, s.notLonger_refl⟩

/-- Reads the parameters passed by name up to the closing bracket. -/
def namedFields (before : List NamedField) (s : Cursor) :
    Except Error (Passed (List NamedField) s) :=
  if s.kind = .closeBracket then return ⟨before, s, Nat.le_refl _⟩
  else do
    let ⟨f, s1, h1⟩ ← field s
    let ⟨value, s2, h2⟩ ← defaultValue s1
    let all := before ++ [⟨f.name, f.ty, value, s2.spanFrom f.span.start⟩]
    let ⟨s3, h3⟩ := s2.skipStops
    match s3.kind with
    | .comma =>
      let ⟨_, s4, h4⟩ ← s3.take
      let ⟨s5, h5⟩ := s4.skipStops
      let ⟨fields, s6, h6⟩ ← namedFields all s5
      return ⟨fields, s6, by omega⟩
    | .closeBracket => return ⟨all, s3, by omega⟩
    | _ => .error (s3.unexpectedFor "expected `,` or `]` in named parameters")
termination_by s.rest.length

/-- Reads the bracketed parameters passed by name. -/
def namedGroup (s : Cursor) : Except Error (Taken (List NamedField) s) := do
  let ⟨_, s1, h1⟩ ← s.expect .openBracket
  let ⟨s2, h2⟩ := s1.skipStops
  let ⟨named, s3, h3⟩ ← namedFields [] s2
  let ⟨_, s4, h4⟩ ← s3.take
  return ⟨named, s4, by omega⟩

/-- Reads the parameters of a function up to the closing parenthesis. -/
def parameters (before : List Field) (s : Cursor) :
    Except Error (Passed (List Field × List NamedField) s) :=
  match s.kind with
  | .closeParen => return ⟨(before, []), s, Nat.le_refl _⟩
  | .openBracket => do
    let ⟨named, s1, h1⟩ ← namedGroup s
    let ⟨s2, h2⟩ := s1.skipStops
    return ⟨(before, named), s2, by omega⟩
  | _ => do
    let ⟨f, s1, h1⟩ ← field s
    let ⟨s2, h2⟩ := s1.skipStops
    match s2.kind with
    | .comma =>
      let ⟨_, s3, h3⟩ ← s2.take
      let ⟨s4, h4⟩ := s3.skipStops
      let ⟨all, s5, h5⟩ ← parameters (before ++ [f]) s4
      return ⟨all, s5, by omega⟩
    | .closeParen => return ⟨(before ++ [f], []), s2, by omega⟩
    | _ => .error (s2.unexpectedFor "expected `,` or `)` in parameters")
termination_by s.rest.length

def resultType (s : Cursor) : Except Error (Passed (Option TypeName) s) :=
  if s.kind = .colon then do
    let ⟨_, s1, h1⟩ ← s.take
    let ⟨ty, s2, h2⟩ ← typeName s1
    return ⟨some ty, s2, Cursor.notLonger_trans h1 h2⟩
  else return ⟨none, s, s.notLonger_refl⟩

def function (isPub : Bool) (s : Cursor) : Except Error (Taken (Item Term) s) := do
  let ⟨keyword, s1, h1⟩ ← s.take
  let ⟨name, s2, h2⟩ ← s1.expectFor .identifier "expected function name"
  if isQualified name.text then
    .error ⟨.unexpectedTokenDetailed name.text "function names cannot be qualified",
      name.span.start⟩
  else
    let ⟨_, s3, h3⟩ ← s2.expectFor .openParen "expected `(` after function name"
    let ⟨s4, h4⟩ := s3.skipStops
    let ⟨(params, named), s5, h5⟩ ← parameters [] s4
    let ⟨_, s6, h6⟩ ← s5.expectFor .closeParen "expected `)` to close parameters"
    let ⟨result, s7, h7⟩ ← resultType s6
    let ⟨body, s8, h8⟩ ← block s7
    let span := s8.spanFrom keyword.span.start
    return ⟨.function ⟨name.text, params, named, result, body, isPub, span, none⟩, s8, by omega⟩

def importPaths (base : List String) (before : List (List String)) (s : Cursor) :
    Except Error (Passed (List (List String)) s) :=
  if s.kind = .closeBracket then return ⟨before, s, Nat.le_refl _⟩
  else do
    let ⟨tail, s1, h1⟩ ← s.expectFor .identifier "expected module path"
    let all := before ++ [base ++ splitName tail.text]
    let ⟨s2, h2⟩ := s1.skipStops
    match s2.kind with
    | .comma =>
      let ⟨_, s3, h3⟩ ← s2.take
      let ⟨s4, h4⟩ := s3.skipStops
      let ⟨paths, s5, h5⟩ ← importPaths base all s4
      return ⟨paths, s5, by omega⟩
    | .closeBracket => return ⟨all, s2, by omega⟩
    | _ => .error (s2.unexpectedFor "expected `,` or `]` in import list")
termination_by s.rest.length

/-- Reads an import of one module or of a bracketed list of modules. -/
def imports (s : Cursor) : Except Error (Taken (Item Term) s) := do
  let ⟨keyword, s1, h1⟩ ← s.take
  let ⟨head, s2, h2⟩ ← s1.expectFor .identifier "expected module path"
  let base := splitName head.text
  if s2.kind = .dot && s2.peek 1 = .openBracket then
    let ⟨_, s3, h3⟩ ← s2.take
    let ⟨_, s4, h4⟩ ← s3.take
    let ⟨s5, h5⟩ := s4.skipStops
    let ⟨paths, s6, h6⟩ ← importPaths base [] s5
    let ⟨_, s7, h7⟩ ← s6.take
    return ⟨.imports ⟨paths, s7.spanFrom keyword.span.start⟩, s7, by omega⟩
  else return ⟨.imports ⟨[base], s2.spanFrom keyword.span.start⟩, s2, Cursor.shorter_trans h1 h2⟩

def globalType (s : Cursor) : Except Error (Taken (Option TypeName) s) :=
  match s.kind with
  | .colonAssignment => do
    let ⟨_, s1, h1⟩ ← s.take
    return ⟨none, s1, h1⟩
  | .colon => do
    let ⟨_, s1, h1⟩ ← s.take
    let ⟨ty, s2, h2⟩ ← typeName s1
    let ⟨_, s3, h3⟩ ← s2.expectFor .assignment "globals must be initialised"
    have h := Cursor.shorter_trans h1 h2
    return ⟨some ty, s3, Cursor.shorter_trans h h3⟩
  | _ => .error (s.unexpectedFor "expected `:` or `:=` after global name")

def global (isPub : Bool) (s : Cursor) : Except Error (Taken (Item Term) s) := do
  let ⟨keyword, s1, h1⟩ ← s.take
  let ⟨name, s2, h2⟩ ← s1.expectFor .identifier "expected global name"
  let ⟨ty, s3, h3⟩ ← globalType s2
  let ⟨init, s4, h4⟩ ← wholeExpression s3
  let span := s4.spanFrom keyword.span.start
  let isConst := decide (keyword.kind = .kwConst)
  return ⟨.global ⟨name.text, ty, init, isConst, isPub, span, none⟩, s4, by omega⟩

/-- Reads the members of a struct up to the closing brace. -/
def structFields (before : List Field) (s : Cursor) : Except Error (Passed (List Field) s) :=
  let ⟨s1, h1⟩ := s.skipStops
  if s1.kind = .closeCurly then return ⟨before, s1, h1⟩
  else do
    let ⟨f, s2, h2⟩ ← field s1
    if s2.kind = .comma then
      let ⟨_, s3, h3⟩ ← s2.take
      let ⟨fields, s4, h4⟩ ← structFields (before ++ [f]) s3
      return ⟨fields, s4, by omega⟩
    else if atStatementEnd s2 then
      let ⟨fields, s3, h3⟩ ← structFields (before ++ [f]) s2
      return ⟨fields, s3, by omega⟩
    else .error (s2.unexpectedFor "expected `,` between struct members")
termination_by s.rest.length

def struct (isPub : Bool) (s : Cursor) : Except Error (Taken (Item Term) s) := do
  let ⟨keyword, s1, h1⟩ ← s.take
  let ⟨name, s2, h2⟩ ← s1.expectFor .identifier "expected struct name"
  let ⟨_, s3, h3⟩ ← s2.expectFor .openCurly "expected `\x7b` after struct name"
  let ⟨members, s4, h4⟩ ← structFields [] s3
  let ⟨_, s5, h5⟩ ← s4.take
  let span := s5.spanFrom keyword.span.start
  return ⟨.struct ⟨name.text, members, isPub, span, none⟩, s5, by omega⟩

def pubKeyword (s : Cursor) : Except Error (Passed Bool s) :=
  if s.kind = .kwPub then do
    let ⟨_, s1, h1⟩ ← s.take
    return ⟨true, s1, by omega⟩
  else return ⟨false, s, Nat.le_refl _⟩

mutual

def item (s : Cursor) : Except Error (Taken (Item Term) s) := do
  let ⟨isPub, s1, h1⟩ ← pubKeyword s
  match s1.kind with
  | .kwFn =>
    let ⟨i, s2, h2⟩ ← function isPub s1
    return ⟨i, s2, by omega⟩
  | .kwImport =>
    let ⟨i, s2, h2⟩ ← imports s1
    return ⟨i, s2, by omega⟩
  | .kwGlobal | .kwConst =>
    let ⟨i, s2, h2⟩ ← global isPub s1
    return ⟨i, s2, by omega⟩
  | .kwStruct =>
    let ⟨i, s2, h2⟩ ← struct isPub s1
    return ⟨i, s2, by omega⟩
  | .kwModule | .kwExtend =>
    let ⟨keyword, s2, h2⟩ ← s1.take
    let ⟨name, s3, h3⟩ ← s2.expectFor .identifier "expected module name"
    if isQualified name.text then .error ⟨.invalidModuleName name.text, name.span.start⟩
    else
      let ⟨_, s4, h4⟩ ← s3.expectFor .openCurly "expected `\x7b` after module name"
      let ⟨items, s5, h5⟩ ← moduleItems s4
      let ⟨_, s6, h6⟩ ← s5.take
      let span := s6.spanFrom keyword.span.start
      let isExtend := decide (keyword.kind = .kwExtend)
      return ⟨.submodule name.text items isPub isExtend span, s6, by omega⟩
  | _ =>
    .error (s1.unexpectedFor
      "expected `fn`, `import`, `global`, `const`, `struct`, `module` or `extend`")
termination_by s.rest.length * 2

/-- Reads the items of a module up to the closing brace. -/
def moduleItems (s : Cursor) : Except Error (Passed (List (Item Term)) s) :=
  let ⟨s1, h1⟩ := s.skipStops
  match s1.kind with
  | .closeCurly => return ⟨[], s1, h1⟩
  | .eof => .error (s1.unexpectedFor "expected `\x7d` to close the module")
  | _ => do
    let ⟨first, s2, h2⟩ ← item s1
    let ⟨others, s3, h3⟩ ← moduleItems s2
    return ⟨first :: others, s3, by omega⟩
termination_by s.rest.length * 2 + 1

end

def fileItems (s : Cursor) : Except Error (List (Item Term)) :=
  let ⟨s1, _h1⟩ := s.skipStops
  if s1.kind = .eof then return []
  else do
    let ⟨first, s2, _h2⟩ ← item s1
    let others ← fileItems s2
    return first :: others
termination_by s.rest.length

end Tree

/-- Reads the tokens of a file into its items. -/
def parse (l : Lexed) (name : String) : Except Error (FileTree Term) := do
  let items ← Tree.fileItems (Cursor.ofLexed l)
  return ⟨name, items, l.tokens.length + 1⟩

end EbLang
