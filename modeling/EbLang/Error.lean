import EbLang.Position
import EbLang.Text.Quoted

/-!
# Errors

A `Fault` is the cause of a failure, an `Error` is a fault at a position.  Each fault belongs to one
phase, has one name and one message, and some have a tip that says what to do about it.
-/

namespace EbLang

/-- The part of the front end a fault belongs to. -/
inductive Phase where
  | lex
  | parse
  | resolve
  | type
  | controlFlow
  | io
deriving DecidableEq

def Phase.name : Phase → String
  | .lex => "Lex"
  | .parse => "Parse"
  | .resolve => "Resolve"
  | .type => "Type"
  | .controlFlow => "ControlFlow"
  | .io => "Io"

/-- The causes of failure. -/
inductive Fault where
  /-- A character that begins no token. -/
  | unrecognisedToken (token : String)
  | invalidIntegralSuffix (suffix : String)
  | invalidFloatSuffix (suffix : String)
  /-- An integer that does not fit its type. -/
  | integerOutOfRange (literal : String)
  /-- A float without digits or beyond the range of binary64. -/
  | invalidFloat (literal : String)
  /-- A block comment that is never closed. -/
  | unterminatedComment
  | unknownDirective (directive : String)
  | missingDirectiveValue (directive : String)
  /-- A token that cannot stand where it does. -/
  | unexpectedToken (token : String)
  /-- A token that cannot stand where it does, and what was wanted. -/
  | unexpectedTokenDetailed (token message : String)
  | expectedNamedArgument
  | invalidModuleName (name : String)
  | variableNotDeclared (name : String)
  /-- A call that no visible function of that arity answers. -/
  | unknownFunction (function : String) (arity : Nat)
  /-- A module path that leads nowhere. -/
  | unknownModule (name : String)
  | unknownType (type : String)
  | unknownMember (member type : String)
  /-- A named argument that no candidate has. -/
  | unknownNamedParameter (function name : String)
  /-- A second function with the same parameter types. -/
  | functionAlreadyDeclared (function : String)
  | globalAlreadyDeclared (name : String)
  | structAlreadyDeclared (name : String)
  /-- A use of another file's private item. -/
  | privateAccess (name : String)
  /-- An import of a file whose analysis has not finished. -/
  | circularDependency (name : String)
  /-- A value of one type where another is wanted. -/
  | typeMatchError (expected received : String)
  /-- A call whose arguments no candidate takes. -/
  | noMatchingOverload (function arguments : String)
  /-- A call that several candidates take equally well. -/
  | ambiguousCall (function : String)
  /-- A type that stays open. -/
  | undeterminedType
  /-- An initialiser that is not made of literals and operators. -/
  | expectedConstantExpression
  | assignToParameter (name : String)
  | assignToConstant (name : String)
  /-- A statement after one that always leaves. -/
  | unreachableCode
  /-- A statement after an `if` that always leaves. -/
  | unreachableAfterIf
  /-- A body that falls off its end without a value. -/
  | expectedReturn
  /-- A body that ends in an `if` without an `else`. -/
  | expectedReturnAfterIf
  | noLoopToBreak
  | noLoopToContinue
  | droppingIfWithoutElse
  /-- A branch of a value-`if` that ends without a value. -/
  | expectedDrop
  | fileReadError (path message : String)
  /-- Bytes that are not a sidecar. -/
  | artifactError (message : String)
deriving DecidableEq

namespace Fault

def phase : Fault → Phase
  | unrecognisedToken .. | invalidIntegralSuffix .. | invalidFloatSuffix .. | integerOutOfRange ..
  | invalidFloat .. | unterminatedComment | unknownDirective .. | missingDirectiveValue .. => .lex
  | unexpectedToken .. | unexpectedTokenDetailed .. | expectedNamedArgument
  | invalidModuleName .. => .parse
  | variableNotDeclared .. | unknownFunction .. | unknownModule .. | unknownType ..
  | unknownMember .. | unknownNamedParameter .. | functionAlreadyDeclared ..
  | globalAlreadyDeclared .. | structAlreadyDeclared .. | privateAccess ..
  | circularDependency .. => .resolve
  | typeMatchError .. | noMatchingOverload .. | ambiguousCall .. | undeterminedType
  | expectedConstantExpression | assignToParameter .. | assignToConstant .. => .type
  | unreachableCode | unreachableAfterIf | expectedReturn | expectedReturnAfterIf | noLoopToBreak
  | noLoopToContinue | droppingIfWithoutElse | expectedDrop => .controlFlow
  | fileReadError .. | artifactError .. => .io

def name : Fault → String
  | unrecognisedToken .. => "UnrecognisedToken"
  | invalidIntegralSuffix .. => "InvalidIntegralSuffix"
  | invalidFloatSuffix .. => "InvalidFloatSuffix"
  | integerOutOfRange .. => "IntegerOutOfRange"
  | invalidFloat .. => "InvalidFloat"
  | unterminatedComment => "UnterminatedComment"
  | unknownDirective .. => "UnknownDirective"
  | missingDirectiveValue .. => "MissingDirectiveValue"
  | unexpectedToken .. => "UnexpectedToken"
  | unexpectedTokenDetailed .. => "UnexpectedTokenDetailed"
  | expectedNamedArgument => "ExpectedNamedArgument"
  | invalidModuleName .. => "InvalidModuleName"
  | variableNotDeclared .. => "VariableNotDeclared"
  | unknownFunction .. => "UnknownFunction"
  | unknownModule .. => "UnknownModule"
  | unknownType .. => "UnknownType"
  | unknownMember .. => "UnknownMember"
  | unknownNamedParameter .. => "UnknownNamedParameter"
  | functionAlreadyDeclared .. => "FunctionAlreadyDeclared"
  | globalAlreadyDeclared .. => "GlobalAlreadyDeclared"
  | structAlreadyDeclared .. => "StructAlreadyDeclared"
  | privateAccess .. => "PrivateAccess"
  | circularDependency .. => "CircularDependency"
  | typeMatchError .. => "TypeMatchError"
  | noMatchingOverload .. => "NoMatchingOverload"
  | ambiguousCall .. => "AmbiguousCall"
  | undeterminedType => "UndeterminedType"
  | expectedConstantExpression => "ExpectedConstantExpression"
  | assignToParameter .. => "AssignToParameter"
  | assignToConstant .. => "AssignToConstant"
  | unreachableCode => "UnreachableCode"
  | unreachableAfterIf => "UnreachableAfterIf"
  | expectedReturn => "ExpectedReturn"
  | expectedReturnAfterIf => "ExpectedReturnAfterIf"
  | noLoopToBreak => "NoLoopToBreak"
  | noLoopToContinue => "NoLoopToContinue"
  | droppingIfWithoutElse => "DroppingIfWithoutElse"
  | expectedDrop => "ExpectedDrop"
  | fileReadError .. => "FileReadError"
  | artifactError .. => "ArtifactError"

open Text (quote)

def message : Fault → String
  | unrecognisedToken token => s!"unrecognised token: {quote token}"
  | invalidIntegralSuffix suffix => s!"Invalid integral suffix {quote suffix}"
  | invalidFloatSuffix suffix => s!"Invalid fp suffix {quote suffix}"
  | integerOutOfRange literal => s!"Out of integer range: {quote literal}"
  | invalidFloat literal => s!"Invalid float: {quote literal}"
  | unterminatedComment => "Unterminated block comment"
  | unknownDirective directive => s!"unknown directive #{directive}"
  | missingDirectiveValue directive => s!"directive #{directive} needs a value"
  | unexpectedToken token => s!"unexpected token: {quote token}"
  | unexpectedTokenDetailed token message => s!"unexpected token ({message}): {quote token}"
  | expectedNamedArgument => "Must be named parameters to the end"
  | invalidModuleName name => s!"{quote name} is not a valid module name"
  | variableNotDeclared name => s!"variable {quote name} not declared"
  | unknownFunction function arity => s!"no function {quote function} with {arity} arguments"
  | unknownModule name => s!"Module could not be found: {quote name}"
  | unknownType type => s!"unknown type {type} found"
  | unknownMember member type => s!"type {type} has no member {quote member}"
  | unknownNamedParameter function name =>
    s!"function {quote function} has no named parameter {quote name}"
  | functionAlreadyDeclared function => s!"function {quote function} already declared"
  | globalAlreadyDeclared name => s!"global {quote name} already declared"
  | structAlreadyDeclared name => s!"struct {quote name} already declared"
  | privateAccess name => s!"{quote name} is not public"
  | circularDependency name => s!"Circular dependency on module {quote name}"
  | typeMatchError expected received =>
    s!"types do not match: expected {expected}, received {received}"
  | noMatchingOverload function arguments =>
    s!"no matching overload for {quote function} with arguments ({arguments})"
  | ambiguousCall function => s!"ambiguous call to {quote function}"
  | undeterminedType => "Type could not be determined"
  | expectedConstantExpression => "Expected constant expression"
  | assignToParameter name => s!"cannot assign to parameter {quote name}"
  | assignToConstant name => s!"cannot assign to constant {quote name}"
  | unreachableCode => "Unreachable code"
  | unreachableAfterIf => "Unreachable code after if"
  | expectedReturn => "Expected return"
  | expectedReturnAfterIf => "Expected return after if"
  | noLoopToBreak => "No loop to break out of"
  | noLoopToContinue => "No loop to continue"
  | droppingIfWithoutElse => "dropping if must have an else"
  | expectedDrop => "expected drop from block"
  | fileReadError path message => s!"could not read {quote path}: {message}"
  | artifactError message => s!"invalid build artifact: {message}"

/-- What to do about a fault, where there is something to say. -/
def tip? : Fault → Option String
  | invalidIntegralSuffix suffix =>
    some s!"`{suffix}` is not an integer suffix, expected one of i8 i16 i32 i64 i u8 u16 u32 u64 u"
  | invalidFloatSuffix suffix =>
    some s!"`{suffix}` is not a float suffix, expected one of f32 f64 f"
  | integerOutOfRange literal =>
    some s!"Invalid number: `{literal}`, is it above the limit of its type?"
  | unexpectedToken token =>
    some s!"Unexpected token: `{token}`, did you miss a newline or `;`?"
  | unexpectedTokenDetailed token message => some s!"Unexpected token: `{token}`, {message}"
  | expectedNamedArgument =>
    some "Once an argument is named, every following argument must be named too"
  | variableNotDeclared name => some s!"Variable `{name}` not declared"
  | unknownFunction function arity =>
    some s!"No function `{function}` taking {arity} positional arguments is visible here"
  | privateAccess name => some s!"Mark `{name}` as `pub` to use it from another module"
  | noMatchingOverload function arguments =>
    some s!"No overload of `{function}` accepts ({arguments})"
  | ambiguousCall function =>
    some (s!"Several overloads of `{function}` match equally well, " ++
      "add a type annotation or suffix")
  | undeterminedType => some "Add a type annotation so the type can be determined"
  | typeMatchError expected received => some s!"Expected type `{expected}`, received `{received}`"
  | expectedReturnAfterIf => some "Add an `else` branch that returns a value"
  | droppingIfWithoutElse => some "An `if` used as a value needs an `else` branch"
  | _ => none

end Fault

/-- A fault at a position. -/
structure Error where
  /-- The cause. -/
  fault : Fault
  /-- Where it shows. -/
  position : Position
deriving DecidableEq

namespace Error

def render (e : Error) : String := s!"{e.position.render}: {e.fault.message}"

end Error

end EbLang
