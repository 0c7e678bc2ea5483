import EbLang.Name
import EbLang.Tree.Cursor
import EbLang.Tree.Precedence

/-!
# Reading statements and expressions

Expressions are read by precedence: an operand, then every operator that binds more strongly than
the context, each followed by its right operand.  The postfix sequence is written as the operands
and operators are read, so `a + b * c` gives `a b c * +`.

Each function returns a cursor with fewer tokens than it was given, and calls others with fewer
tokens or, on the same tokens, functions of lower rank; hence all of them end.
-/

namespace EbLang

namespace Tree

/-- The number of a block: how many tokens are left at its opening brace.  No other block of the
file starts there. -/
def blockNumber (s : Cursor) : Nat := s.size

def literal (t : Token) : Except Error Atom :=
  match t.kind, t.number with
  | .kwTrue, _ => .ok (Atom.bool true t.span)
  | .kwFalse, _ => .ok (Atom.bool false t.span)
  | _, some ⟨.int n, suffix⟩ => .ok ⟨.literal (.int n), .ofSuffix suffix false, t.span⟩
  | _, some ⟨.float x, suffix⟩ => .ok ⟨.literal (.float x), .ofSuffix suffix true, t.span⟩
  | _, none => .error ⟨.invalidFloat t.text, t.span.start⟩

def memberTerms (t : Token) : List Term :=
  (splitName t.text).map fun part => .atom (Atom.member part t.span)

def atArgumentName (s : Cursor) : Bool := s.kind = .identifier && s.peek 1 = .assignment

def argumentName (s : Cursor) : Except Error (Passed (Option String) s) :=
  if atArgumentName s then do
    let ⟨name, s1, h1⟩ ← s.take
    let ⟨_, s2, h2⟩ ← s1.take
    return ⟨some name.text, s2, by omega⟩
  else return ⟨none, s, Nat.le_refl _⟩

def typeName (s : Cursor) : Except Error (Taken TypeName s) := do
  let ⟨t, s1, h1⟩ ← s.expectFor .identifier "expected type name"
  return ⟨⟨t.text, t.span⟩, s1, h1⟩

/-- The arguments of a call, read so far. -/
structure Arguments where
  positional : Nat := 0
  named : List String := []
  terms : List Term := []

/-- The arguments with one more.  After a named argument every argument has a name. -/
def Arguments.add (a : Arguments) (name : Option String) (terms : List Term) : Arguments :=
  match name with
  | some name => { a with named := a.named ++ [name], terms := a.terms ++ terms }
  | none => { a with positional := a.positional + 1, terms := a.terms ++ terms }

/-- The statement of an expression that stands alone.  A lone value-`if` is a statement. -/
def lone (e : Expr Term) : Stmt Term :=
  match e.terms with
  | [.choice arms otherwise span] => .branch arms otherwise span
  | _ => .eval e e.span

def assignedValue (target operator : Token) (e : Expr Term) : Expr Term :=
  match operator.kind.compoundSymbol? with
  | some symbol =>
    ⟨.atom (Atom.var target.text target.span) :: e.terms ++
      [.atom (Atom.operator symbol 2 operator.span)], e.span⟩
  | none => e

/-- Reads how many loops to leave. -/
def breakAmount (s : Cursor) : Except Error (Passed Nat s) :=
  if s.kind = .star then do
    let ⟨_, s1, h1⟩ ← s.take
    let ⟨t, s2, h2⟩ ← s1.expectFor .int "expected loop count after `*`"
    match t.number with
    | some ⟨.int n, _⟩ =>
      if n ≤ 0xffffffff then return ⟨n, s2, by omega⟩
      else .error ⟨.integerOutOfRange t.text, t.span.start⟩
    | _ => .error ⟨.integerOutOfRange t.text, t.span.start⟩
  else return ⟨1, s, Nat.le_refl _⟩

def atStatementEnd (s : Cursor) : Bool :=
  s.kind = .stop || s.kind = .closeCurly

mutual

/-- Reads an expression whose operators bind more strongly than `power`. -/
def expression (power : Nat) (s : Cursor) : Except Error (Taken (List Term) s) := do
  let ⟨left, s1, h1⟩ ← operand s
  let ⟨terms, s2, h2⟩ ← operators power left s1
  return ⟨terms, s2, by omega⟩
termination_by s.rest.length * 8 + 3

/-- Reads the operators after an expression, with their right operands. -/
def operators (power : Nat) (left : List Term) (s : Cursor) :
    Except Error (Passed (List Term) s) :=
  if power < s.kind.bindingPower then do
    let ⟨operator, s1, h1⟩ ← s.take
    if operator.kind = .dot then
      let ⟨name, s2, h2⟩ ← s1.expectFor .identifier "expected member name"
      let ⟨terms, s3, h3⟩ ← operators power (left ++ memberTerms name) s2
      return ⟨terms, s3, by omega⟩
    else
      let ⟨s2, h2⟩ := s1.skipStops
      let ⟨right, s3, h3⟩ ← expression operator.kind.bindingPower s2
      let symbol := (operator.kind.binarySymbol?).getD operator.text
      let both := left ++ right ++ [.atom (Atom.operator symbol 2 operator.span)]
      let ⟨terms, s4, h4⟩ ← operators power both s3
      return ⟨terms, s4, by omega⟩
  else return ⟨left, s, Nat.le_refl _⟩
termination_by s.rest.length * 8

def operand (s : Cursor) : Except Error (Taken (List Term) s) :=
  match s.kind with
  | .int | .float | .kwTrue | .kwFalse => do
    let ⟨t, s1, h1⟩ ← s.take
    let atom ← literal t
    return ⟨[.atom atom], s1, h1⟩
  | .identifier => do
    let ⟨t, s1, h1⟩ ← s.take
    if s1.kind = .openParen then
      let ⟨_, s2, h2⟩ ← s1.take
      let ⟨s3, h3⟩ := s2.skipStops
      let ⟨args, s4, h4⟩ ← arguments {} s3
      let ⟨_, s5, h5⟩ ← s4.expect .closeParen
      let call := Atom.call t.text args.positional args.named (s5.spanFrom t.span.start)
      return ⟨args.terms ++ [.atom call], s5, by omega⟩
    else return ⟨[.atom (Atom.var t.text t.span)], s1, h1⟩
  | .dash | .slash | .not => do
    let ⟨t, s1, h1⟩ ← s.take
    let ⟨terms, s2, h2⟩ ← expression prefixPower s1
    let symbol := (t.kind.prefixSymbol?).getD t.text
    return ⟨terms ++ [.atom (Atom.operator symbol 1 t.span)], s2, by omega⟩
  | .openParen => do
    let ⟨_, s1, h1⟩ ← s.take
    let ⟨s2, h2⟩ := s1.skipStops
    let ⟨terms, s3, h3⟩ ← expression 0 s2
    let ⟨s4, h4⟩ := s3.skipStops
    let ⟨_, s5, h5⟩ ← s4.expectFor .closeParen "expected `)` to close the group"
    return ⟨terms, s5, by omega⟩
  | .kwIf => do
    let ⟨t, s1, h1⟩ ← s.take
    let ⟨condition, s2, h2⟩ ← wholeExpression s1
    let ⟨body, s3, h3⟩ ← block s2
    let ⟨(arms, otherwise), s4, h4⟩ ← elseBranches s3
    let span := s4.spanFrom t.span.start
    return ⟨[.choice (.mk condition body :: arms) otherwise span], s4, by omega⟩
  | _ => .error s.unexpected
termination_by s.rest.length * 8 + 2

/-- Reads the arguments of a call up to the closing parenthesis. -/
def arguments (before : Arguments) (s : Cursor) : Except Error (Passed Arguments s) :=
  if s.kind = .closeParen then return ⟨before, s, Nat.le_refl _⟩
  else if !before.named.isEmpty && !atArgumentName s then
    .error ⟨.expectedNamedArgument, s.position⟩
  else do
    let ⟨name, s1, h1⟩ ← argumentName s
    let ⟨terms, s2, h2⟩ ← expression 0 s1
    let ⟨s3, h3⟩ := s2.skipStops
    let all := before.add name terms
    match s3.kind with
    | .comma =>
      let ⟨_, s4, h4⟩ ← s3.take
      let ⟨s5, h5⟩ := s4.skipStops
      let ⟨args, s6, h6⟩ ← arguments all s5
      return ⟨args, s6, by omega⟩
    | .closeParen => return ⟨all, s3, by omega⟩
    | _ => .error (s3.unexpectedFor "expected `,` or `)` in argument list")
termination_by s.rest.length * 8 + 4

def elseBranches (s : Cursor) :
    Except Error (Passed (List (Arm Term) × Option (Block Term)) s) :=
  let ⟨s1, h1⟩ := s.skipStops
  if s1.kind = .kwElse then do
    let ⟨_, s2, h2⟩ ← s1.take
    if s2.kind = .kwIf then
      let ⟨_, s3, h3⟩ ← s2.take
      let ⟨condition, s4, h4⟩ ← wholeExpression s3
      let ⟨body, s5, h5⟩ ← block s4
      let ⟨(arms, otherwise), s6, h6⟩ ← elseBranches s5
      return ⟨(.mk condition body :: arms, otherwise), s6, by omega⟩
    else
      let ⟨body, s3, h3⟩ ← block s2
      return ⟨([], some body), s3, by omega⟩
  else return ⟨([], none), s, Nat.le_refl _⟩
termination_by s.rest.length * 8

/-- Reads an expression with its span. -/
def wholeExpression (s : Cursor) : Except Error (Taken (Expr Term) s) := do
  let ⟨terms, s1, h1⟩ ← expression 0 s
  return ⟨⟨terms, s1.spanFrom s.position⟩, s1, h1⟩
termination_by s.rest.length * 8 + 4

def block (s : Cursor) : Except Error (Taken (Block Term) s) := do
  let ⟨_, s1, h1⟩ ← s.expectFor .openCurly "expected `\x7b` to open a block"
  let ⟨body, s2, h2⟩ ← statements s1
  let ⟨_, s3, h3⟩ ← s2.take
  return ⟨.mk (blockNumber s) body (s3.spanFrom s.position), s3, by omega⟩
termination_by s.rest.length * 8

/-- Reads the statements of a block up to its closing brace. -/
def statements (s : Cursor) : Except Error (Passed (List (Stmt Term)) s) :=
  let ⟨s1, h1⟩ := s.skipStops
  match s1.kind with
  | .closeCurly => return ⟨[], s1, h1⟩
  | .eof => .error (s1.unexpectedFor "expected `\x7d` to close the block")
  | _ => do
    let ⟨first, s2, h2⟩ ← statement s1
    if atStatementEnd s2 then
      let ⟨others, s3, h3⟩ ← statements s2
      return ⟨first :: others, s3, by omega⟩
    else .error (s2.unexpectedFor "expected end of statement")
termination_by s.rest.length * 8 + 6

def statement (s : Cursor) : Except Error (Taken (Stmt Term) s) :=
  match s.kind with
  | .kwReturn => do
    let ⟨t, s1, h1⟩ ← s.take
    if atStatementEnd s1 || s1.kind = .eof then
      return ⟨.ret none (s1.spanFrom t.span.start), s1, h1⟩
    else
      let ⟨value, s2, h2⟩ ← wholeExpression s1
      return ⟨.ret (some value) (s2.spanFrom t.span.start), s2, by omega⟩
  | .kwWhile => do
    let ⟨t, s1, h1⟩ ← s.take
    if s1.kind = .openCurly then
      let ⟨body, s2, h2⟩ ← block s1
      let forever : Expr Term := ⟨[.atom (Atom.bool true t.span)], t.span⟩
      return ⟨.loop forever body (s2.spanFrom t.span.start), s2, by omega⟩
    else
      let ⟨condition, s2, h2⟩ ← wholeExpression s1
      let ⟨body, s3, h3⟩ ← block s2
      return ⟨.loop condition body (s3.spanFrom t.span.start), s3, by omega⟩
  | .kwBreak => do
    let ⟨t, s1, h1⟩ ← s.take
    let ⟨amount, s2, h2⟩ ← breakAmount s1
    return ⟨.breakOut amount (s2.spanFrom t.span.start), s2, by omega⟩
  | .kwContinue => do
    let ⟨t, s1, h1⟩ ← s.take
    return ⟨.continueLoop (s1.spanFrom t.span.start), s1, h1⟩
  | _ =>
    if s.kind = .identifier && (s.peek 1 = .colonAssignment || s.peek 1 = .colon) then
      declaration s
    else if s.kind = .identifier &&
        (s.peek 1 = .assignment || (s.peek 1).compoundSymbol?.isSome) then do
      let ⟨target, s1, h1⟩ ← s.take
      let ⟨operator, s2, h2⟩ ← s1.take
      let ⟨e, s3, h3⟩ ← wholeExpression s2
      let value := assignedValue target operator e
      let span := s3.spanFrom target.span.start
      return ⟨.assign target.text none [] value span, s3, by omega⟩
    else do
      let ⟨e, s1, h1⟩ ← wholeExpression s
      return ⟨lone e, s1, h1⟩
termination_by s.rest.length * 8 + 5

def declaration (s : Cursor) : Except Error (Taken (Stmt Term) s) := do
  let ⟨name, s1, h1⟩ ← s.take
  if isQualified name.text then
    .error ⟨.unexpectedTokenDetailed name.text "variable names cannot be qualified",
      name.span.start⟩
  else
    let ⟨operator, s2, h2⟩ ← s1.take
    if operator.kind = .colonAssignment then
      let ⟨init, s3, h3⟩ ← wholeExpression s2
      let span := s3.spanFrom name.span.start
      return ⟨.declare name.text none (some init) none false span, s3, by omega⟩
    else
      let ⟨ty, s3, h3⟩ ← typeName s2
      if s3.kind = .assignment then
        let ⟨_, s4, h4⟩ ← s3.take
        let ⟨init, s5, h5⟩ ← wholeExpression s4
        let span := s5.spanFrom name.span.start
        return ⟨.declare name.text (some ty) (some init) none false span, s5, by omega⟩
      else
        let span := s3.spanFrom name.span.start
        return ⟨.declare name.text (some ty) none none false span, s3, by omega⟩
termination_by s.rest.length * 8

end

end Tree

end EbLang
