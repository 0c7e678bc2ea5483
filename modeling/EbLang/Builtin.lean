import EbLang.Name
import EbLang.Signature

/-!
# Built-in functions

Operators are overloaded functions named after their symbols, one overload for each primitive they
take, so that a use of an operator is a call like any other.  Conversions that need not be asked for
are functions named after the primitive they give.
-/

namespace EbLang.Builtin

/-- Sums, differences, products, quotients and remainders. -/
def arithmetic : List String := ["+", "-", "*", "/", "%"]

def bitwise : List String := ["&", "|", "^"]

def shifts : List String := ["<<", ">>"]

/-- Comparisons of size. -/
def ordering : List String := ["<", "<=", ">", ">="]

def equality : List String := ["==", "!="]

/-- Operators that need not look at their right operand. -/
def logical : List String := ["&&", "||"]

/-- Whether an operator gives a `Bool` whatever it takes. -/
def isComparison (symbol : String) : Bool := symbol ∈ ordering ++ equality

def binary (p : Prim) : List String :=
  if p.isInt then arithmetic ++ bitwise ++ shifts ++ ordering ++ equality
  else if p.isFloat then arithmetic ++ ordering ++ equality
  else if p = .bool then bitwise ++ equality ++ logical
  else []

/-- The prefix operators on a primitive. -/
def unary (p : Prim) : List String :=
  if p.isSigned || p.isFloat then ["/", "-"]
  else if p.isUnsigned then ["/"]
  else if p = .bool then ["!"]
  else []

/-- Whether an operator takes a number of operands of a primitive. -/
def takes (symbol : String) (arity : Nat) (p : Prim) : Bool :=
  match arity with
  | 1 => symbol ∈ unary p
  | 2 => symbol ∈ binary p
  | _ => false

def operator (symbol : String) (arity : Nat) (p : Prim) (index : Nat) : Signature where
  name := symbol
  mangled := joinName ["std", symbol, toString arity, toString index]
  params := (List.range arity).map fun n => ⟨"arg" ++ toString n, .ofPrim p⟩
  named := []
  result := if isComparison symbol then .bool else .ofPrim p
  form := .operator
  isPub := true
  home := ""
  span := .null

/-- The overloads of an operator, in the order of their primitives. -/
def operators (symbol : String) (arity : Nat) : List Signature :=
  (Prim.all.filter (takes symbol arity)).zipIdx.map fun e => operator symbol arity e.1 e.2

def castFunction (source target : Prim) : Signature where
  name := target.name
  mangled := joinName ["std", "cast", source.name, target.name]
  params := [⟨"value", .ofPrim source⟩]
  named := []
  result := .ofPrim target
  form := .cast
  isPub := true
  home := ""
  span := .null

/-- The conversion between two primitives, if it needs no asking. -/
def cast? (source target : Prim) : Option Signature :=
  if source.widensTo target then some (castFunction source target) else none

end EbLang.Builtin
