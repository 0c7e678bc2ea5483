import EbLang.Resolve

/-!
# Listings

The text of an analysed module: every item under its mangled name, and every expression as the
postfix sequence that it is, each step with its type.

    fn test.add.2.0(a: I32, b: I32): I32 {
      ret a#0:I32 b#1:I32 std.+.2.2:I32
    }
-/

namespace EbLang

namespace Listing

/-- A value typed as it is listed. -/
def typed (text : String) (ty : Ty) : String := text ++ ": " ++ ty.shown

/-- Lines one level further in. -/
def indent (lines : List String) : List String := lines.map ("  " ++ ·)

/-- A variable or global. -/
def bindingText (name : String) : Option Binding → String
  | some (.localVar id) => name ++ "#" ++ toString id
  | some (.globalVar g) => "@" ++ g.mangled
  | none => "?" ++ name

/-- What a step does. -/
def atomText : AtomKind → String
  | .literal (.bool b) => toString b
  | .literal (.int n) => toString n
  | .literal (.float x) => x.toText
  | .var name binding => bindingText name binding
  | .call c =>
    match c.target with
    | some target => target.mangled
    | none => "?" ++ c.name
  | .member m =>
    match m.index with
    | some index => "." ++ m.name ++ "#" ++ toString index
    | none => "." ++ m.name

/-- A step and its type. -/
def atom (a : Atom) : String := atomText a.kind ++ ":" ++ a.ty.shown

def expr (e : Expr Atom) : String := " ".intercalate (e.terms.map atom)

def opening (head : String) : String := head ++ " \x7b"

/-- The end of a block. -/
def closing : String := "\x7d"

def declaration (scopes : Scopes) (name : String) (var : Option Nat) (init : Option (Expr Atom)) :
    String :=
  let left := match var with
    | some id => "let " ++ typed (name ++ "#" ++ toString id) (scopes.typeOf id)
    | none => "let " ++ name ++ "#?: ?"
  match init with
  | some init => left ++ " = " ++ expr init
  | none => left

def assignment (target : String) (binding : Option Binding) (members : List MemberRef)
    (value : Expr Atom) : String :=
  let path := members.map fun m => "." ++ m.name ++ "#" ++ toString (m.index.getD 0)
  "set " ++ bindingText target binding ++ "".intercalate path ++ " = " ++ expr value

mutual

def block (scopes : Scopes) : Block Atom → List String
  | .mk _ body _ => stmts scopes body

/-- The lines of some statements. -/
def stmts (scopes : Scopes) : List (Stmt Atom) → List String
  | [] => []
  | s :: ss => stmt scopes s ++ stmts scopes ss

/-- The lines of a statement. -/
def stmt (scopes : Scopes) : Stmt Atom → List String
  | .declare name _ init var _ _ => [declaration scopes name var init]
  | .assign target binding members value _ => [assignment target binding members value]
  | .eval value _ => ["eval " ++ expr value]
  | .ret (some value) _ => ["ret " ++ expr value]
  | .ret none _ => ["ret"]
  | .branch as otherwise _ =>
    arms scopes "if " as ++ optionalBlock scopes otherwise ++ [closing]
  | .loop condition body _ =>
    opening ("while " ++ expr condition) :: indent (block scopes body) ++ [closing]
  | .breakOut amount _ => ["break " ++ toString amount]
  | .continueLoop _ => ["continue"]

/-- The lines of some arms; only the first one begins with `if`. -/
def arms (scopes : Scopes) (word : String) : List (Arm Atom) → List String
  | [] => []
  | .mk condition body :: as =>
    opening (word ++ expr condition) :: indent (block scopes body) ++ arms scopes "elif " as

/-- The lines of a last branch. -/
def optionalBlock (scopes : Scopes) : Option (Block Atom) → List String
  | none => []
  | some body => opening "else" :: indent (block scopes body)

end

def function (scopes : Scopes) (f : FunctionItem Atom) : List String :=
  match f.signature with
  | none => []
  | some s =>
    let params := s.params.map fun p => typed p.name p.ty
    let named := s.named.map fun p => "[" ++ typed p.name p.ty ++ " = " ++ p.default.render ++ "]"
    let head := "fn " ++ s.mangled ++ "(" ++ ", ".intercalate (params ++ named) ++ "): " ++
      s.result.shown
    opening head :: indent (block scopes f.body) ++ [closing]

def global (g : Global) : String :=
  (if g.isConst then "const " else "global ") ++ typed g.mangled g.ty ++ " = " ++ g.value.render

def struct (structs : StructTable) (r : StructRef) : String :=
  let members := (structs.members r).map fun m => typed m.name m.ty
  "struct " ++ r.mangled ++ " \x7b " ++ ", ".intercalate members ++ " \x7d"

mutual

def item (structs : StructTable) (scopes : Scopes) : Item Atom → List String
  | .function f => function scopes f
  | .global g => g.decl.toList.map global
  | .struct s => s.ref.toList.map (struct structs)
  | .submodule _ inner _ _ _ => items structs scopes inner
  | .imports _ => []

def items (structs : StructTable) (scopes : Scopes) : List (Item Atom) → List String
  | [] => []
  | i :: is => item structs scopes i ++ items structs scopes is

end

/-- The lines of the items of other files. -/
def externals (e : Externals) : List String :=
  e.functions.map (fun s => "extern fn " ++ s.mangled ++ "(" ++
    ", ".intercalate (s.params.map fun p => p.ty.shown) ++ "): " ++ s.result.shown) ++
    e.globals.map (fun g => "extern global " ++ typed g.mangled g.ty) ++
    e.structs.map fun r => "extern struct " ++ r.mangled

end Listing

def Module.listing (structs : StructTable) (m : Module) : List String :=
  ("; module " ++ m.decls.root) :: Listing.externals m.externals ++
    Listing.items structs m.scopes m.tree.items

def Module.listingText (structs : StructTable) (m : Module) : String :=
  "".intercalate ((m.listing structs).map (· ++ "\n"))

end EbLang
