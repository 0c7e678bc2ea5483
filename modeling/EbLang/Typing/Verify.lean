import EbLang.Resolve

/-!
# Modules ready for code generation

In a finished module every step has one type, every call one function, every name a binding and
every member its place.
-/

namespace EbLang.Verify

/-- Whether nothing about a step is open. -/
def isBound (a : Atom) : Bool :=
  a.ty.isComplete &&
    match a.kind with
    | .literal _ => true
    | .var _ binding => binding.isSome
    | .call c => c.target.isSome
    | .member m => m.index.isSome

/-- The error of a place where something is open. -/
def undetermined (span : Span) : Error := ⟨.undeterminedType, span.start⟩

def expr (e : Expr Atom) : Except Error Unit :=
  match e.terms.find? fun a => !isBound a with
  | some a => .error (undetermined a.span)
  | none => .ok ()

mutual

def block (scopes : Scopes) : Block Atom → Except Error Unit
  | .mk _ body _ => stmts scopes body

/-- Checks some statements. -/
def stmts (scopes : Scopes) : List (Stmt Atom) → Except Error Unit
  | [] => .ok ()
  | s :: ss => do
    stmt scopes s
    stmts scopes ss

/-- Checks a statement. -/
def stmt (scopes : Scopes) : Stmt Atom → Except Error Unit
  | .declare _ _ init var _ span => do
    if !(var.any fun id => (scopes.typeOf id).isComplete) then throw (undetermined span)
    init.forM expr
  | .assign _ binding members value span => do
    if !(binding.isSome && members.all fun m => m.index.isSome) then throw (undetermined span)
    expr value
  | .eval value _ => expr value
  | .ret value _ => value.forM expr
  | .branch arms otherwise _ => do
    (arms.map Arm.condition).forM expr
    blocks scopes arms
    optionalBlock scopes otherwise
  | .loop condition body _ => do
    expr condition
    block scopes body
  | .breakOut .. | .continueLoop .. => .ok ()

/-- Checks the bodies of some arms. -/
def blocks (scopes : Scopes) : List (Arm Atom) → Except Error Unit
  | [] => .ok ()
  | .mk _ body :: arms => do
    block scopes body
    blocks scopes arms

/-- Checks a block that may be missing. -/
def optionalBlock (scopes : Scopes) : Option (Block Atom) → Except Error Unit
  | none => .ok ()
  | some body => block scopes body

end

mutual

def item (scopes : Scopes) : Item Atom → Except Error Unit
  | .function f => block scopes f.body
  | .submodule _ inner _ _ _ => items scopes inner
  | .imports _ | .global _ | .struct _ => .ok ()

def items (scopes : Scopes) : List (Item Atom) → Except Error Unit
  | [] => .ok ()
  | i :: is => do
    item scopes i
    items scopes is

end

end Verify

/-- Checks that a module is ready for code generation. -/
def Module.verify (m : Module) : Except Error Unit := Verify.items m.scopes m.tree.items

end EbLang
