import EbLang.Error
import EbLang.Tree

/-!
# Evaluation of constants

Initialisers and defaults are made of literals and built-in operators.  They are evaluated on a
stack, integers within 128 bits, and the result is converted to the declared type, which decides
whether it fits.
-/

namespace EbLang.Constant

/-! ## Integers of 128 bits -/

def inRange128 (i : Int) : Bool := decide (-(twoPow 127 : Int) ≤ i ∧ i < twoPow 127)

/-- An integer cut down to its lowest 128 bits. -/
def wrap128 (i : Int) : Int := Int.bmod i (twoPow 128)

def checked128 (i : Int) : Except Fault Constant :=
  if inRange128 i then .ok (.int i) else .error .expectedConstantExpression

def bits128 (i : Int) : BitVec 128 := BitVec.ofInt 128 i

/-- The outcome of a shift, which goes by at least no and less than 128 places. -/
def shift128 (shift : Nat → Int) (amount : Int) : Except Fault Constant :=
  if 0 ≤ amount ∧ amount < 128 then .ok (.int (shift amount.toNat))
  else .error .expectedConstantExpression

/-! ## Operators -/

/-- A binary operator on integers. -/
def evalInts (op : String) (a b : Int) : Except Fault Constant :=
  match op with
  | "+" => checked128 (a + b)
  | "-" => checked128 (a - b)
  | "*" => checked128 (a * b)
  | "/" => if b = 0 then .error .expectedConstantExpression else checked128 (a.tdiv b)
  | "%" =>
    -- A remainder is in range, but not where the quotient is not.
    if b = 0 || !inRange128 (a.tdiv b) then .error .expectedConstantExpression
    else .ok (.int (a.tmod b))
  | "&" => .ok (.int (bits128 a &&& bits128 b).toInt)
  | "|" => .ok (.int (bits128 a ||| bits128 b).toInt)
  | "^" => .ok (.int (bits128 a ^^^ bits128 b).toInt)
  | "<<" => shift128 (fun n => wrap128 (a * twoPow n)) b
  | ">>" => shift128 (fun n => a.fdiv (twoPow n)) b
  | "==" => .ok (.bool (a == b))
  | "!=" => .ok (.bool (a != b))
  | "<" => .ok (.bool (decide (a < b)))
  | "<=" => .ok (.bool (decide (a ≤ b)))
  | ">" => .ok (.bool (decide (b < a)))
  | ">=" => .ok (.bool (decide (b ≤ a)))
  | _ => .error .expectedConstantExpression

def evalFloats (op : String) (a b : Binary64) : Except Fault Constant :=
  match op with
  | "+" => .ok (.float (a.add b))
  | "-" => .ok (.float (a.sub b))
  | "*" => .ok (.float (a.mul b))
  | "/" => .ok (.float (a.div b))
  | "%" => .ok (.float (a.rem b))
  | "==" => .ok (.bool (a.eq b))
  | "!=" => .ok (.bool (!a.eq b))
  | "<" => .ok (.bool (a.lt b))
  | "<=" => .ok (.bool (a.le b))
  | ">" => .ok (.bool (b.lt a))
  | ">=" => .ok (.bool (b.le a))
  | _ => .error .expectedConstantExpression

/-- A binary operator on truth values. -/
def evalBools (op : String) (a b : Bool) : Except Fault Constant :=
  match op with
  | "==" => .ok (.bool (a == b))
  | "!=" | "^" => .ok (.bool (a != b))
  | "&&" | "&" => .ok (.bool (a && b))
  | "||" | "|" => .ok (.bool (a || b))
  | _ => .error .expectedConstantExpression

/-- A binary operator.  An integer beside a float becomes a float. -/
def evalBinary (op : String) : Constant → Constant → Except Fault Constant
  | .bool a, .bool b => evalBools op a b
  | .int a, .int b => evalInts op a b
  | .float a, .float b => evalFloats op a b
  | .int a, .float b => evalFloats op (Binary64.ofInt a) b
  | .float a, .int b => evalFloats op a (Binary64.ofInt b)
  | _, _ => .error .expectedConstantExpression

/-- The number one. -/
def one : Binary64 := Binary64.ofInt 1

/-- A prefix operator; `/x` is the reciprocal. -/
def evalUnary (op : String) (a : Constant) : Except Fault Constant :=
  match op, a with
  | "!", .bool b => .ok (.bool !b)
  | "-", .int i => .ok (.int (wrap128 (-i)))
  | "-", .float x => .ok (.float x.neg)
  | "/", .int i => if i = 0 then .error .expectedConstantExpression else .ok (.int (Int.tdiv 1 i))
  | "/", .float x => .ok (.float (one.div x))
  | _, _ => .error .expectedConstantExpression

/-! ## Expressions -/

def evalTerm (t : Term) (stack : List Constant) : Except Fault (List Constant) :=
  match t with
  | .choice .. => .error .expectedConstantExpression
  | .atom a =>
    match a.kind, stack with
    | .literal (.bool b), stack => .ok (.bool b :: stack)
    | .literal (.int n), stack => .ok (.int n :: stack)
    | .literal (.float x), stack => .ok (.float x :: stack)
    | .call c, stack =>
      if c.isOperator && c.arity == 1 then
        match stack with
        | a :: stack => (evalUnary c.name a).map (· :: stack)
        | _ => .error .expectedConstantExpression
      else if c.isOperator && c.arity == 2 then
        match stack with
        | b :: a :: stack => (evalBinary c.name a b).map (· :: stack)
        | _ => .error .expectedConstantExpression
      else .error .expectedConstantExpression
    | _, _ => .error .expectedConstantExpression

def evalTerms : List Term → List Constant → Except Fault (List Constant)
  | [], stack => .ok stack
  | t :: ts, stack => do evalTerms ts (← evalTerm t stack)

def eval (e : Expr Term) : Except Fault Constant := do
  match ← evalTerms e.terms [] with
  | [value] => return value
  | _ => .error .expectedConstantExpression

/-! ## Conversion -/

def fits (i : Int) (p : Prim) : Bool :=
  if p.isSigned then decide (-(twoPow (p.width - 1) : Int) ≤ i ∧ i < twoPow (p.width - 1))
  else decide (0 ≤ i ∧ i < twoPow p.width)

def defaultType : Constant → Ty
  | .bool _ => .bool
  | .float _ => .ofPrim .f64
  | _ => .ofPrim .i32

def kindName : Constant → String
  | .bool _ => "Bool"
  | .int _ => "integer literal"
  | .float _ => "float literal"
  | .struct _ => "struct"

def convert (value : Constant) (ty : Ty) : Except Fault Constant :=
  let mismatch : Except Fault Constant := .error (.typeMatchError ty.shown value.kindName)
  match ty.prim? with
  | none => mismatch
  | some p =>
    match value with
    | .bool b => if p = .bool then .ok (.bool b) else mismatch
    | .int i =>
      if p.isInt then
        if fits i p then .ok (.int i) else .error (.integerOutOfRange (toString i))
      else if p.isFloat then .ok (.float (Binary64.ofInt i))
      else mismatch
    | .float x => if p.isFloat then .ok (.float x) else mismatch
    | .struct _ => mismatch

def evalAs (e : Expr Term) (ty : Option Ty) : Except Fault (Constant × Ty) := do
  let value ← eval e
  let ty := ty.getD value.defaultType
  let value ← convert value ty
  return (value, ty)

end EbLang.Constant
