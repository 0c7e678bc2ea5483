import EbLang.Constant

/-!
# Signatures and globals

A signature says how a function is called: positional parameters, parameters passed by name with
their defaults, and the type of the result.  Operators, casts and struct constructors have
signatures like any other function.
-/

namespace EbLang

/-- Where a function comes from. -/
inductive FunctionForm where
  /-- Written in source text. -/
  | user
  | operator
  /-- A built-in conversion. -/
  | cast
  | constructor
deriving DecidableEq

/-- The name of a form in listings. -/
def FunctionForm.name : FunctionForm → String
  | user => "User"
  | operator => "Operator"
  | cast => "Cast"
  | constructor => "Constructor"

/-- A positional parameter. -/
structure Parameter where
  name : String
  ty : Ty

/-- A parameter passed by name. -/
structure NamedParameter where
  name : String
  ty : Ty
  default : Constant

/-- How a function is called. -/
structure Signature where
  name : String
  /-- The name that is unique in a program, `module.name.arity.index`. -/
  mangled : String
  params : List Parameter
  named : List NamedParameter
  result : Ty
  form : FunctionForm
  isPub : Bool
  /-- The dotted path of the declaring module, empty for what is built in. -/
  home : String
  span : Span

namespace Signature

/-- The number of positional parameters. -/
def arity (s : Signature) : Nat := s.params.length

/-- The named parameter of a name. -/
def namedParameter? (s : Signature) (name : String) : Option NamedParameter :=
  s.named.find? fun p => p.name == name

/-- The types a call with the given named arguments has to supply, none if a name is unknown. -/
def typesFor? (s : Signature) (names : List String) : Option (List Ty) :=
  (names.mapM fun name => (s.namedParameter? name).map NamedParameter.ty).map
    (s.params.map Parameter.ty ++ ·)

/-- Whether two functions cannot be told apart by their positional arguments. -/
def clashesWith (s t : Signature) : Bool :=
  s.name == t.name && s.arity == t.arity &&
    (s.params.zip t.params).all fun p => p.1.ty.same p.2.ty

/-- The signature as messages show it. -/
def describe (s : Signature) : String :=
  s.name ++ "(" ++ ", ".intercalate (s.params.map fun p => p.ty.shown) ++ "): " ++ s.result.shown

end Signature

/-- A global variable or constant. -/
structure Global where
  name : String
  mangled : String
  ty : Ty
  value : Constant
  isConst : Bool
  isPub : Bool
  /-- The dotted path of the declaring module. -/
  home : String

end EbLang
