import EbLang.Name
import EbLang.Tree.Map

/-!
# Executing function bodies

What it means to run a body before its names are bound.  A name is looked up in the environment of
the place, which gives the address of a variable; a name that is not there is of a global.  Members
follow a dotted name.

*Interpretations.*  What values are, what built-in operators compute and what calls of functions do is
left to an `Interpretation`.  Operators are total and have no effects.  A call may change the world it
is made in, which also holds the globals.  Only the meaning of truth values is fixed.

*Traces.*  Every call with its arguments and every write of a variable is noted, in order.  Hidden
variables live in a store of their own and leave no trace.

*Strategies.*  Statements run in order; in which order the steps of an expression run is a parameter.
`Strategy.strict` runs them as they stand.  `Strategy.shortCircuit` runs the right operand of `&&` and
`||` only if it decides the result.  `Strategy.choicesFirst` runs all value-`if`s of an expression
before its other steps.

*Loops.*  A loop makes at most a given number of rounds, after which the execution is abandoned.  A
`break` or `continue` inside the condition of a loop is one of that loop.
-/

namespace EbLang.Execution

/-! ## Interpretations and states -/

/-- What values and calls mean. -/
structure Interpretation (V W : Type) where
  /-- The value of a number of a type. -/
  number : Literal → Ty → V
  /-- A truth value. -/
  ofBool : Bool → V
  /-- Whether a condition with the given value holds. -/
  truth : V → Bool
  truth_ofBool : ∀ b, truth (ofBool b) = b
  /-- The result of a built-in operator. -/
  operator : String → List V → V
  /-- A call of a function with the names of its named arguments. -/
  call : String → List String → List V → W → V × W
  /-- A member of a value. -/
  member : String → V → V
  /-- A value with a member, reached by a path, replaced. -/
  update : List String → V → V → V
  /-- The value of a variable before it is written. -/
  unset : Option TypeName → V
  readGlobal : String → W → V
  writeGlobal : String → V → W → W

/-- Something to be seen of an execution. -/
inductive Event (V : Type) where
  | call (name : String) (named : List String) (args : List V)
  | write (target : String) (value : V)
deriving DecidableEq

/-- The state of an execution. -/
structure State (V W : Type) where
  /-- The variables, by address. -/
  vars : List V
  /-- The hidden variables, by address. -/
  temps : List V
  world : W
  /-- What was to be seen so far, the last first. -/
  events : List (Event V)

/-- How an execution ends early. -/
inductive Exit (V : Type) where
  | returned (value : Option V)
  /-- Leaves a number of loops. -/
  | broke (loops : Nat)
  | continued
  /-- There is no value where one is needed. -/
  | stuck
  /-- A loop has made all its rounds. -/
  | spent
deriving DecidableEq

/-- An execution. -/
abbrev Run (V W : Type) := ExceptT (Exit V) (StateM (State V W))

/-- The address of a variable. -/
structure Address where
  hidden : Bool
  index : Nat

/-- The addresses of the variables in view, the last declared first. -/
abbrev Env := List (String × Address)

variable {V W α : Type}

namespace Interpretation

variable (I : Interpretation V W)

/-- The value of a literal. -/
def literal (l : Literal) (ty : Ty) : V :=
  match l with
  | .bool b => I.ofBool b
  | l => I.number l ty

/-- The conjunction of two values. -/
def and (a b : V) : V := if I.truth a then b else I.ofBool false

/-- The disjunction of two values. -/
def or (a b : V) : V := if I.truth a then I.ofBool true else b

/-- The result of an operator; those on truth values mean what they always mean. -/
def apply (symbol : String) (args : List V) : V :=
  match symbol, args with
  | "!", [a] => I.ofBool !(I.truth a)
  | "&&", [a, b] => I.and a b
  | "||", [a, b] => I.or a b
  | _, _ => I.operator symbol args

end Interpretation

/-! ## Variables and calls -/

/-- The value at an address. -/
def State.load (s : State V W) (a : Address) : Option V :=
  if a.hidden then s.temps[a.index]? else s.vars[a.index]?

/-- Replaces the value at an address. -/
def State.save (s : State V W) (a : Address) (v : V) : State V W :=
  if a.hidden then { s with temps := s.temps.set a.index v }
  else { s with vars := s.vars.set a.index v }

/-- The state after an event. -/
def State.note (s : State V W) (e : Event V) : State V W := { s with events := e :: s.events }

section Steps

variable (I : Interpretation V W) (env : Env)

/-- The variable that the first part of a name stands for. -/
def address? (name : String) : Option Address := (splitName name).head?.bind fun first => env.lookup first

/-- The value a name has. -/
def valueOf (name : String) (s : State V W) : V :=
  match (address? env name).bind s.load with
  | some v => ((splitName name).drop 1).foldl (fun v m => I.member m v) v
  | none => I.readGlobal name s.world

/-- The state after a variable or a member is written. -/
def written (name : String) (v : V) (s : State V W) : State V W :=
  match address? env name with
  | some a =>
    let members := (splitName name).drop 1
    let v' := if members.isEmpty then v else I.update members v ((s.load a).getD v)
    if a.hidden then s.save a v' else (s.save a v').note (.write name v)
  | none => { s with world := I.writeGlobal name v s.world }.note (.write name v)

/-- The address of the next variable. -/
def nextAddress (hidden : Bool) (s : State V W) : Address :=
  ⟨hidden, if hidden then s.temps.length else s.vars.length⟩

/-- The state with one more variable. -/
def declared (name : String) (hidden : Bool) (v : V) (s : State V W) : State V W :=
  if hidden then { s with temps := s.temps ++ [v] }
  else { s with vars := s.vars ++ [v] }.note (.write name v)

/-- Calls a function or an operator. -/
def operate (c : Call) (args : List V) : Run V W V :=
  if c.isOperator then pure (I.apply c.name args)
  else modifyGet fun s =>
    let (v, world) := I.call c.name c.named args s.world
    (v, { s with world }.note (.call c.name c.named args))

/-! ## Expressions -/

/-- A step of an expression; a value-`if` is known by how it runs. -/
inductive Step (V W : Type) where
  | atom (a : Atom)
  | choice (x : Run V W V)

/-- Runs one step on the values before it. -/
def runAtom (a : Atom) (values : List V) : Run V W (List V) := do
  match a.kind, values with
  | .literal l, values => return I.literal l a.ty :: values
  | .var name _, values => return valueOf I env name (← get) :: values
  | .member m, v :: values => return I.member m.name v :: values
  | .member _, [] => throw .stuck
  | .call c, values =>
    if values.length < c.argCount then throw .stuck
    else
      return (← operate I c (values.take c.argCount).reverse) :: values.drop c.argCount

/-- The only value on a stack. -/
def onlyValue : List V → Run V W V
  | [v] => return v
  | _ => throw .stuck

/-- Runs steps on a stack of values; one value must be left. -/
def runSteps : List V → List (Step V W) → Run V W V
  | values, [] => onlyValue values
  | values, .atom a :: ts => do runSteps (← runAtom I env a values) ts
  | values, .choice x :: ts => do runSteps ((← x) :: values) ts

/-- Runs the value-`if`s among some steps; what is left of each is its value. -/
def runChoices : List (Step V W) → Run V W (List (Step V W))
  | [] => return []
  | .atom a :: ts => do return .atom a :: (← runChoices ts)
  | .choice x :: ts => do
    let v ← x
    return .choice (pure v) :: (← runChoices ts)

/-- `a && b` or `a || b`, of which the right operand only runs if it decides the result. -/
def logical (isOr : Bool) (x y : Run V W V) : Run V W V := do
  let a ← x
  if I.truth a = isOr then return I.ofBool isOr else y

/-- A call that runs its operands when it needs them. -/
def delayCall (c : Call) (operands : List (Run V W V)) : Run V W V :=
  match c.isOperator && (c.name == "&&" || c.name == "||"), operands with
  | true, [x, y] => logical I (c.name == "||") x y
  | _, _ => do operate I c (← operands.mapM id)

/-- Puts an atom on a stack of operands that have not run yet, none if its own are missing. -/
def delayAtom (a : Atom) (stack : List (Run V W V)) : Option (List (Run V W V)) :=
  match a.kind, stack with
  | .literal l, stack => some (pure (I.literal l a.ty) :: stack)
  | .var name _, stack => some ((return valueOf I env name (← get)) :: stack)
  | .member m, x :: stack => some ((return I.member m.name (← x)) :: stack)
  | .member _, [] => none
  | .call c, stack =>
    if stack.length < c.argCount then none
    else some (delayCall I c (stack.take c.argCount).reverse :: stack.drop c.argCount)

/-- Runs the only operand on a stack. -/
def onlyOperand : List (Run V W V) → Run V W V
  | [x] => x
  | _ => throw .stuck

/-- Runs steps whose operands are put off; one operand must be left. -/
def delaySteps : List (Run V W V) → List (Step V W) → Run V W V
  | stack, [] => onlyOperand stack
  | stack, .atom a :: ts =>
    match delayAtom I env a stack with
    | some stack => delaySteps stack ts
    | none => throw .stuck
  | stack, .choice x :: ts => delaySteps (x :: stack) ts

end Steps

/-- A way to run the steps of an expression. -/
abbrev Strategy (V W : Type) := Interpretation V W → Env → List (Step V W) → Run V W V

/-- Runs all steps from left to right. -/
def Strategy.strict : Strategy V W := fun I env ts => runSteps I env [] ts

/-- Runs the right operand of `&&` and `||` only if it decides the result. -/
def Strategy.shortCircuit : Strategy V W := fun I env ts => delaySteps I env [] ts

/-- Runs all value-`if`s from left to right, then the other steps. -/
def Strategy.choicesFirst : Strategy V W := fun I env ts => do
  runSteps I env [] (← runChoices ts)

/-! ## Statements -/

/-- What a loop does with an exit of its body: whether it goes on. -/
def afterRound : Exit V → Run V W Bool
  | .continued => return true
  | .broke n => if n ≤ 1 then return false else throw (.broke (n - 1))
  | e => throw e

/-- Makes rounds until one says that it was the last. -/
def rounds (x : Run V W Bool) : Nat → Run V W Unit
  | 0 => throw .spent
  | n + 1 => do
    if ← tryCatch x afterRound then rounds x n

/-- The value of a value-`if` is that of the chosen block. -/
def required : Option V → Run V W V
  | some v => return v
  | none => throw .stuck

section Statements

variable (I : Interpretation V W) (strategy : Strategy V W) (limit : Nat)

mutual

/-- A step of an expression. -/
def step (env : Env) : Term → Step V W
  | .atom a => .atom a
  | .choice as otherwise _ =>
    .choice (do required (← branches env (optionalBlock env otherwise) as))

/-- The steps of an expression. -/
def steps (env : Env) : List Term → List (Step V W)
  | [] => []
  | t :: ts => step env t :: steps env ts

/-- Runs an expression. -/
def expr (env : Env) : Expr Term → Run V W V
  | ⟨ts, _⟩ => strategy I env (steps env ts)

/-- Runs an expression that may be missing. -/
def optionalExpr (env : Env) : Option (Expr Term) → Run V W (Option V)
  | none => return none
  | some e => return some (← expr env e)

/-- Runs the first block whose condition holds, or else what is given; gives its value. -/
def branches (env : Env) (otherwise : Run V W (Option V)) :
    List (Arm Term) → Run V W (Option V)
  | [] => otherwise
  | .mk condition body :: as => do
    if I.truth (← expr env condition) then block env body else branches env otherwise as

/-- Runs a block that may be missing. -/
def optionalBlock (env : Env) : Option (Block Term) → Run V W (Option V)
  | none => return none
  | some b => block env b

/-- Runs a block; its value is that of its last statement. -/
def block (env : Env) : Block Term → Run V W (Option V)
  | .mk _ body _ => do
    let (_, last) ← stmts env none body
    return last

/-- Runs statements after one with the given value; gives the environment after them and the value
of the last one. -/
def stmts (env : Env) (last : Option V) : List (Stmt Term) → Run V W (Env × Option V)
  | [] => return (env, last)
  | s :: ss => do
    let (env, last) ← stmt env s
    stmts env last ss

/-- Runs a statement; gives the environment after it, and its value if it is an expression. -/
def stmt (env : Env) : Stmt Term → Run V W (Env × Option V)
  | .declare name ty init _ hidden _ => do
    let v := (← optionalExpr env init).getD (I.unset ty)
    let a := nextAddress hidden (← get)
    modify (declared name hidden v)
    return ((name, a) :: env, none)
  | .assign target _ _ value _ => do
    let v ← expr env value
    modify (written I env target v)
    return (env, none)
  | .eval value _ => return (env, some (← expr env value))
  | .ret value _ => do
    let v ← optionalExpr env value
    throw (.returned v)
  | .branch as otherwise _ => return (env, ← branches env (optionalBlock env otherwise) as)
  | .loop condition body _ => do
    rounds (do
      if I.truth (← expr env condition) then
        let _ ← block env body
        return true
      else return false) limit
    return (env, none)
  | .breakOut amount _ => throw (.broke amount)
  | .continueLoop _ => throw .continued

end

end Statements

end EbLang.Execution
