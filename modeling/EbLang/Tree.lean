import EbLang.Signature
import EbLang.Token

/-!
# Trees

A file is a list of items, a function body is a block of statements, and an expression is a postfix
sequence: literals and variables push a value, a call takes its arguments and pushes its result, a
member access replaces the value on top.

Source text also has `if` in the place of a value.  A `Term` is a step of an expression as written,
an `Atom` or a value-`if`; statements are the same over both, so `Stmt Term` is what is parsed and
`Stmt Atom` is what is left when no value-`if` remains.
-/

namespace EbLang

/-! ## Steps of an expression -/

/-- A value written in source text. -/
inductive Literal where
  | bool (b : Bool)
  | int (n : Nat)
  | float (x : Binary64)
deriving DecidableEq

/-- What a variable's name stands for. -/
inductive Binding where
  /-- A variable of the function, by its number. -/
  | localVar (id : Nat)
  | globalVar (g : Global)

/-- A call of a function or an operator. -/
structure Call where
  name : String
  /-- The number of positional arguments. -/
  arity : Nat
  named : List String
  isOperator : Bool
  /-- The functions the call may still be of. -/
  candidates : List Signature
  /-- The function the call is of. -/
  target : Option Signature

/-- The number of values a call takes. -/
def Call.argCount (c : Call) : Nat := c.arity + c.named.length

/-- A member by its name. -/
structure MemberRef where
  name : String
  /-- The place of the member. -/
  index : Option Nat

/-- What a step of a postfix sequence does. -/
inductive AtomKind where
  | literal (l : Literal)
  | var (name : String) (binding : Option Binding)
  | call (c : Call)
  | member (m : MemberRef)

/-- A step of a postfix sequence with its type. -/
structure Atom where
  kind : AtomKind
  ty : Ty
  span : Span

namespace Atom

/-- A truth value. -/
def bool (b : Bool) (span : Span) : Atom := ⟨.literal (.bool b), .bool, span⟩

/-- A variable by its name. -/
def var (name : String) (span : Span) : Atom := ⟨.var name none, .anyValue, span⟩

/-- A call of a function by its name. -/
def call (name : String) (arity : Nat) (named : List String) (span : Span) : Atom :=
  ⟨.call ⟨name, arity, named, false, [], none⟩, .anyValue, span⟩

/-- A use of an operator. -/
def operator (symbol : String) (arity : Nat) (span : Span) : Atom :=
  ⟨.call ⟨symbol, arity, [], true, [], none⟩, .anyValue, span⟩

/-- A conversion by a known function. -/
def cast (target : Signature) (span : Span) : Atom :=
  ⟨.call ⟨target.name, target.arity, [], false, [target], some target⟩, target.result, span⟩

/-- An access to a member. -/
def member (name : String) (span : Span) : Atom := ⟨.member ⟨name, none⟩, .anyValue, span⟩

end Atom

/-! ## Expressions and statements -/

/-- A postfix sequence. -/
structure Expr (τ : Type) where
  terms : List τ
  span : Span

/-- The expression of a single step. -/
def Expr.ofAtom (a : Atom) : Expr Atom := ⟨[a], a.span⟩

mutual

/-- A statement. -/
inductive Stmt (τ : Type) where
  | declare (name : String) (ty : Option TypeName) (init : Option (Expr τ)) (var : Option Nat)
      (hidden : Bool) (span : Span)
  /-- Writes a variable or a member of it. -/
  | assign (target : String) (binding : Option Binding) (members : List MemberRef)
      (value : Expr τ) (span : Span)
  | eval (value : Expr τ) (span : Span)
  /-- Leaves the function. -/
  | ret (value : Option (Expr τ)) (span : Span)
  /-- Runs the first block whose condition holds, or the last one. -/
  | branch (arms : List (Arm τ)) (otherwise : Option (Block τ)) (span : Span)
  | loop (condition : Expr τ) (body : Block τ) (span : Span)
  /-- Leaves a number of loops. -/
  | breakOut (amount : Nat) (span : Span)
  /-- Starts the next round of the innermost loop. -/
  | continueLoop (span : Span)

/-- A condition and the block it guards. -/
inductive Arm (τ : Type) where
  | mk (condition : Expr τ) (body : Block τ)

/-- A sequence of statements.  No two blocks of a file have the same number. -/
inductive Block (τ : Type) where
  | mk (id : Nat) (body : List (Stmt τ)) (span : Span)

end

variable {τ : Type}

namespace Arm

/-- The condition of an arm. -/
def condition : Arm τ → Expr τ
  | mk c _ => c

/-- The guarded block. -/
def body : Arm τ → Block τ
  | mk _ b => b

end Arm

namespace Block

/-- The number of a block. -/
def id : Block τ → Nat
  | mk n _ _ => n

/-- The statements of a block. -/
def body : Block τ → List (Stmt τ)
  | mk _ ss _ => ss

/-- The span of a block. -/
def span : Block τ → Span
  | mk _ _ s => s

end Block

/-- The span of a statement. -/
def Stmt.span : Stmt τ → Span
  | declare _ _ _ _ _ s => s
  | assign _ _ _ _ s => s
  | eval _ s => s
  | ret _ s => s
  | branch _ _ s => s
  | loop _ _ s => s
  | breakOut _ s => s
  | continueLoop s => s

/-- A step of an expression as written. -/
inductive Term where
  | atom (a : Atom)
  /-- An `if` whose value is that of the chosen block's last expression. -/
  | choice (arms : List (Arm Term)) (otherwise : Option (Block Term)) (span : Span)

/-- The span of a step. -/
def Term.span : Term → Span
  | .atom a => a.span
  | .choice _ _ s => s

/-- Whether a step is a value-`if`. -/
def Term.isChoice : Term → Bool
  | .atom _ => false
  | .choice .. => true

/-! ## Items -/

/-- A parameter or a member of a struct, as written. -/
structure Field where
  name : String
  ty : TypeName
  span : Span

/-- A parameter passed by name, as written. -/
structure NamedField where
  name : String
  ty : TypeName
  default : Option (Expr Term)
  span : Span

/-- A function, as written. -/
structure FunctionItem (τ : Type) where
  name : String
  params : List Field
  named : List NamedField
  result : Option TypeName
  body : Block τ
  isPub : Bool
  span : Span
  /-- How it is called, once it is declared. -/
  signature : Option Signature

/-- A list of modules to import. -/
structure ImportItem where
  paths : List (List String)
  span : Span

/-- A global variable or constant. -/
structure GlobalItem where
  name : String
  ty : Option TypeName
  init : Expr Term
  isConst : Bool
  isPub : Bool
  span : Span
  decl : Option Global

/-- A struct, as written. -/
structure StructItem where
  name : String
  members : List Field
  isPub : Bool
  span : Span
  /-- The struct as a type, once it is declared. -/
  ref : Option StructRef

/-- What a file or a module holds. -/
inductive Item (τ : Type) where
  | function (f : FunctionItem τ)
  | imports (i : ImportItem)
  | global (g : GlobalItem)
  | struct (s : StructItem)
  /-- A module, or more items for a module that was declared before. -/
  | submodule (name : String) (items : List (Item τ)) (isPub isExtend : Bool) (span : Span)

/-- A file. -/
structure FileTree (τ : Type) where
  /-- The name of the file's module. -/
  name : String
  items : List (Item τ)
  /-- A number that no block of the file has, nor any number above it. -/
  nextBlock : Nat

end EbLang
