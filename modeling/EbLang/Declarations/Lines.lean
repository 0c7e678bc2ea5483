import EbLang.Declarations

/-!
# Declarations as text

One line for each declaration.  The functions of a module are sorted by name and arity, its globals
and structs by name; submodules follow their module.
-/

namespace EbLang

def pubMark (isPub : Bool) : String := if isPub then " pub" else ""

def Signature.line (s : Signature) : String :=
  let params := s.params.map fun p => p.name ++ ": " ++ p.ty.render
  let named := s.named.map fun p =>
    p.name ++ ": " ++ p.ty.render ++ " = " ++ p.default.render
  "fn " ++ s.mangled ++ " (" ++ ", ".intercalate params ++ ") [" ++ ", ".intercalate named ++
    "] -> " ++ s.result.render ++ " " ++ s.form.name ++ pubMark s.isPub ++ " in " ++
    Text.quote s.home

def Global.line (g : Global) : String :=
  (if g.isConst then "const " else "global ") ++ g.mangled ++ ": " ++ g.ty.render ++ " = " ++
    g.value.render ++ pubMark g.isPub ++ " in " ++ Text.quote g.home

def StructRef.line (structs : StructTable) (r : StructRef) : String :=
  let members := (structs.members r).map fun m => m.name ++ ": " ++ m.ty.render
  "struct " ++ r.mangled ++ " \x7b" ++ ", ".intercalate members ++ "\x7d" ++ pubMark r.isPub

/-- The order of functions: by name, then by arity. -/
def Signature.listedBefore (s t : Signature) : Bool :=
  if s.name = t.name then decide (s.arity ≤ t.arity) else decide (s.name < t.name)

def ModuleMembers.lines (structs : StructTable) (m : ModuleMembers) : List String :=
  ((m.functions.mergeSort Signature.listedBefore).map Signature.line) ++
    ((m.globals.mergeSort fun g h => decide (g.name ≤ h.name)).map Global.line) ++
    ((m.structs.mergeSort fun r q => decide (r.name ≤ q.name)).map (StructRef.line structs))

def Declarations.lines (structs : StructTable) (d : Declarations) : List String :=
  d.inOrder.flatMap fun e => ("module " ++ d.dottedPath e.1) :: e.2.lines structs

/-- The lines of the items of other files. -/
def Externals.lines (structs : StructTable) (e : Externals) : List String :=
  e.functions.map Signature.line ++ e.globals.map Global.line ++
    e.structs.map (StructRef.line structs)

end EbLang
