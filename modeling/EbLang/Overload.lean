import EbLang.Builtin
import EbLang.Error

/-!
# Overload resolution

A call has a list of candidates and the types of its arguments.  A candidate takes an argument at no
cost if the argument may become the parameter's type, and at the cost of one conversion if its
primitive widens to the parameter's.  The cheapest candidates are left.

* One candidate left is the answer, with the conversions its arguments need.
* Of two operators left the more general one is the answer.
* Several operators left, while an argument is still open, put the decision off: the call keeps the
  candidates, and its arguments shrink to what these have in common.
* Anything else is ambiguous.
-/

namespace EbLang

/-- What a call comes to. -/
inductive Resolution where
  /-- A function, and for each argument the conversion it needs. -/
  | resolved (target : Signature) (casts : List (Option Signature))
  /-- The operators left, and the type that the arguments shrink to. -/
  | deferred (merged : Ty) (candidates : List Signature)

namespace Overload

/-- The conversion that makes an argument fit a parameter, if it is a matter of widening. -/
def widening? (arg param : Ty) : Option Signature := do
  let source ← arg.prim?
  let target ← param.prim?
  Builtin.cast? source target

/-- The number of conversions it takes to pass an argument, none if it cannot be passed. -/
def argumentCost? (arg param : Ty) : Option Nat :=
  if arg.contains param then some 0
  else if (widening? arg param).isSome then some 1
  else none

/-- The number of conversions it takes to pass all arguments. -/
def argumentsCost? : List Ty → List Ty → Option Nat
  | [], [] => some 0
  | arg :: args, param :: params => do
    let cost ← argumentCost? arg param
    let others ← argumentsCost? args params
    return cost + others
  | _, _ => none

/-- A candidate that takes the arguments. -/
structure Viable where
  cost : Nat
  signature : Signature
  /-- The types it asks of the arguments. -/
  params : List Ty

/-- A candidate that takes the arguments, with its cost. -/
def viable? (named : List String) (args : List Ty) (candidate : Signature) : Option Viable := do
  let params ← candidate.typesFor? named
  let cost ← argumentsCost? args params
  return ⟨cost, candidate, params⟩

/-- All such candidates. -/
def viable (named : List String) (candidates : List Signature) (args : List Ty) : List Viable :=
  candidates.filterMap (viable? named args)

/-- The candidates of least cost. -/
def cheapest (vs : List Viable) : List Viable :=
  match (vs.map Viable.cost).min? with
  | some cost => vs.filter (·.cost == cost)
  | none => []

/-- Whether a candidate is a built-in operator. -/
def Viable.isOperator (v : Viable) : Bool := v.signature.form == .operator

/-- The primitive an operator works on. -/
def operandPrim? (s : Signature) : Option Prim := s.params.head?.bind (·.ty.prim?)

/-- Whether the first of two operators is as general as the second. -/
def isAsGeneral (s t : Signature) : Bool :=
  match operandPrim? s, operandPrim? t with
  | _, none => true
  | none, some _ => false
  | some p, some q => p.isMoreGeneral q

/-- The more general one of two operators; other candidates stay as they are. -/
def breakTie : List Viable → List Viable
  | [a, b] =>
    if a.isOperator && b.isOperator then
      [if isAsGeneral a.signature b.signature then a else b]
    else [a, b]
  | vs => vs

/-- The conversion of an argument that needs one. -/
def castFor (arg param : Ty) : Option Signature :=
  if arg.contains param then none else widening? arg param

/-- What the candidates accept and the arguments may still become. -/
def common? (best : List Viable) (args : List Ty) : Option Ty := do
  let accepted ← (best.flatMap Viable.params).foldlM Ty.union? (.prims .empty)
  args.foldlM Ty.merge? accepted

/-- The function a call is of. -/
def resolve (name : String) (named : List String) (candidates : List Signature)
    (args : List Ty) : Except Fault Resolution :=
  match breakTie (cheapest (viable named candidates args)) with
  | [] =>
    .error (.noMatchingOverload name (", ".intercalate (args.map Ty.shown)))
  | [best] => .ok (.resolved best.signature (List.zipWith castFor args best.params))
  | best =>
    if best.all Viable.isOperator && args.any (!·.isComplete) then
      match common? best args with
      | some merged => .ok (.deferred merged (best.map Viable.signature))
      | none => .error (.ambiguousCall name)
    else .error (.ambiguousCall name)

end Overload

end EbLang
