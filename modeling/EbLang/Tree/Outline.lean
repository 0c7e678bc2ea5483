import EbLang.Declarations.Lines
import EbLang.Tree.Map

/-!
# Trees as text

The outline of a tree has one line for each node, with its span at the end; what belongs to a node
stands below it, one blank further in.
-/

namespace EbLang

namespace Outline

/-- Lines moved one blank to the right. -/
def indent (lines : List String) : List String := lines.map (" " ++ ·)

def spanMark (s : Span) : String := " @" ++ s.render

def mangledMark (name : Option String) : String :=
  match name with
  | some name => " = " ++ name
  | none => ""

def bindingMark : Option Binding → String
  | none => ""
  | some (.localVar id) => " -> #" ++ toString id
  | some (.globalVar g) => " -> @" ++ g.mangled

def memberMark (m : MemberRef) : String :=
  match m.index with
  | some index => m.name ++ "#" ++ toString index
  | none => m.name

/-- The bits of a float, the same text for everything that is not a number. -/
def floatMark (x : Binary64) : String :=
  if x.isNaN then "nan"
  else
    let digits := Nat.toDigits 16 x.bits.toNat
    String.ofList (List.replicate (16 - digits.length) '0' ++ digits)

def targetMark (c : Call) : String :=
  match c.target with
  | some target => " target=" ++ target.mangled
  | none =>
    if c.candidates.isEmpty then ""
    else " candidates=" ++ ",".intercalate (c.candidates.map Signature.mangled)

def atomText : AtomKind → String
  | .literal (.bool b) => "bool " ++ toString b
  | .literal (.int n) => "int " ++ toString n
  | .literal (.float x) => "float " ++ floatMark x
  | .var name binding => "var " ++ name ++ bindingMark binding
  | .member m => "member " ++ memberMark m
  | .call c =>
    (if c.isOperator then "op " else "call ") ++ c.name ++ "/" ++ toString c.arity ++
      "".intercalate (c.named.map fun name => " " ++ name ++ "=") ++ targetMark c

def atomLine (a : Atom) : String := atomText a.kind ++ " : " ++ a.ty.render ++ spanMark a.span

def typeLine (label : String) (ty : TypeName) : String :=
  label ++ " " ++ ty.name ++ spanMark ty.span

mutual

def term : Term → List String
  | .atom a => [atomLine a]
  | .choice arms otherwise span =>
    ("if : " ++ Ty.anyValue.render ++ spanMark span) ::
      indent (armLines arms ++ otherwiseLines otherwise)

def terms : List Term → List String
  | [] => []
  | t :: ts => term t ++ terms ts

def expr (label : String) : Expr Term → List String
  | ⟨ts, span⟩ => (label ++ spanMark span) :: indent (terms ts)

/-- The lines of an expression that may be missing. -/
def optionalExpr (label : String) : Option (Expr Term) → List String
  | none => []
  | some e => expr label e

def armLines : List (Arm Term) → List String
  | [] => []
  | .mk condition body :: arms => expr "cond" condition ++ block "then" body ++ armLines arms

/-- The lines of a last branch. -/
def otherwiseLines : Option (Block Term) → List String
  | none => []
  | some body => block "else" body

def block (label : String) : Block Term → List String
  | .mk _ body span => (label ++ spanMark span) :: indent (stmts body)

/-- The lines of some statements. -/
def stmts : List (Stmt Term) → List String
  | [] => []
  | s :: ss => stmt s ++ stmts ss

/-- The lines of a statement. -/
def stmt : Stmt Term → List String
  | .declare name ty init var hidden span =>
    let number := match var with
      | some id => " #" ++ toString id
      | none => ""
    ("decl " ++ name ++ (if hidden then " hidden" else "") ++ number ++ spanMark span) ::
      indent ((ty.map (typeLine "type")).toList ++ optionalExpr "init" init)
  | .assign target binding members value span =>
    ("assign " ++ target ++ bindingMark binding ++
      "".intercalate (members.map fun m => " ." ++ memberMark m) ++ spanMark span) ::
      indent (expr "value" value)
  | .eval value span => ("eval" ++ spanMark span) :: indent (expr "value" value)
  | .ret value span => ("return" ++ spanMark span) :: indent (optionalExpr "value" value)
  | .branch arms otherwise span =>
    ("if" ++ spanMark span) :: indent (armLines arms ++ otherwiseLines otherwise)
  | .loop condition body span =>
    ("while" ++ spanMark span) :: indent (expr "cond" condition ++ block "body" body)
  | .breakOut amount span => ["break " ++ toString amount ++ spanMark span]
  | .continueLoop span => ["continue" ++ spanMark span]

end

/-- The line of a parameter or a member. -/
def fieldLine (label : String) (name : String) (ty : TypeName) (span : Span) : String :=
  label ++ " " ++ name ++ ": " ++ ty.name ++ spanMark span ++ " type@" ++ ty.span.render

def function (f : FunctionItem Term) : List String :=
  ("fn " ++ f.name ++ pubMark f.isPub ++ mangledMark (f.signature.map Signature.mangled) ++
    spanMark f.span) ::
    indent (f.params.map (fun p => fieldLine "param" p.name p.ty p.span) ++
      f.named.flatMap (fun p =>
        fieldLine "named" p.name p.ty p.span :: indent (optionalExpr "default" p.default)) ++
      (f.result.map (typeLine "ret")).toList ++ block "body" f.body)

def global (g : GlobalItem) : List String :=
  ((if g.isConst then "const " else "global ") ++ g.name ++ pubMark g.isPub ++
    mangledMark (g.decl.map Global.mangled) ++ spanMark g.span) ::
    indent ((g.ty.map (typeLine "type")).toList ++ expr "init" g.init)

def struct (s : StructItem) : List String :=
  ("struct " ++ s.name ++ pubMark s.isPub ++ mangledMark (s.ref.map StructRef.mangled) ++
    spanMark s.span) ::
    indent (s.members.map fun m => fieldLine "member" m.name m.ty m.span)

mutual

def item : Item Term → List String
  | .function f => function f
  | .imports i =>
    ["import " ++ ", ".intercalate (i.paths.map joinName) ++ spanMark i.span]
  | .global g => global g
  | .struct s => struct s
  | .submodule name inner isPub isExtend span =>
    ((if isExtend then "extend " else "module ") ++ name ++ pubMark isPub ++ spanMark span) ::
      indent (items inner)

def items : List (Item Term) → List String
  | [] => []
  | i :: is => item i ++ items is

end

end Outline

def FileTree.outline (t : FileTree Term) : List String := Outline.items t.items

def FileTree.flatOutline (t : FileTree Atom) : List String := (t.map Term.atom).outline

end EbLang
