import EbLang.Error
import EbLang.Tree.Map

/-!
# Control flow

How control leaves a block: by falling off its end, by `return`, or by `break` or `continue`.
Statements that can never run are rejected.  A function with a result whose body can fall off its
end returns the value it ends with.
-/

namespace EbLang

variable {τ : Type}

/-- How control leaves a statement or a block. -/
inductive Flow where
  /-- It goes on with the next statement. -/
  | falls
  | returns
  /-- It leaves by `break` or `continue`. -/
  | jumps
deriving DecidableEq

namespace Flow

/-- Whether control does not go on with the next statement. -/
def leaves (f : Flow) : Bool := f != falls

/-- How control leaves an `if` with the given branches and an `else`. -/
def ofBranches (flows : List Flow) : Flow :=
  if flows.any (!·.leaves) then falls
  else if flows.all (· == returns) then returns
  else jumps

/-- The error of a statement that follows one that control leaves. -/
def unreachable (s next : Stmt τ) : Error :=
  match s with
  | .branch _ _ span => ⟨.unreachableAfterIf, span.start⟩
  | _ => ⟨.unreachableCode, next.span.start⟩

mutual

/-- How control leaves a block. -/
def ofBlock : Block τ → Except Error Flow
  | .mk _ body _ => ofStmts body

/-- How control leaves some statements. -/
def ofStmts : List (Stmt τ) → Except Error Flow
  | [] => .ok falls
  | s :: ss => do
    let flow ← ofStmt s
    if flow.leaves then
      match ss.head? with
      | some next => throw (unreachable s next)
      | none => return flow
    else ofStmts ss

/-- How control leaves a statement. -/
def ofStmt : Stmt τ → Except Error Flow
  | .ret .. => .ok returns
  | .breakOut .. | .continueLoop .. => .ok jumps
  | .branch arms otherwise _ => do
    let flows ← ofArms arms
    match ← ofOtherwise otherwise with
    | some flow => return ofBranches (flows ++ [flow])
    | none => return falls
  | .loop _ body _ => do
    let _ ← ofBlock body
    return falls
  | .declare .. | .assign .. | .eval .. => .ok falls

/-- How control leaves the arms of an `if`. -/
def ofArms : List (Arm τ) → Except Error (List Flow)
  | [] => .ok []
  | .mk _ body :: arms => do
    let flow ← ofBlock body
    let flows ← ofArms arms
    return flow :: flows

/-- How control leaves the last branch of an `if`. -/
def ofOtherwise : Option (Block τ) → Except Error (Option Flow)
  | none => .ok none
  | some body => do return some (← ofBlock body)

end

end Flow

/-! ## Implicit returns -/

namespace Returns

def isValueType (ty : TypeName) : Bool := Prim.ofName? ty.name != some .void

mutual

/-- The block with the value it falls off with returned. -/
def block : Block τ → Except Error (Block τ)
  | .mk id body span => do return .mk id (← stmts span body) span

/-- The statements with the last one's value returned. -/
def stmts (outer : Span) : List (Stmt τ) → Except Error (List (Stmt τ))
  | [] => .error ⟨.expectedReturn, outer.start⟩
  | s :: ss => do
    if ss.isEmpty then return [← last s]
    else return s :: (← stmts outer ss)

/-- The statement with its value returned. -/
def last : Stmt τ → Except Error (Stmt τ)
  | .eval value span => .ok (.ret (some value) span)
  | .ret value span => .ok (.ret value span)
  | .branch as otherwise span => do
    if otherwise.isNone then throw ⟨.expectedReturnAfterIf, span.start⟩
    let as ← arms as
    let otherwise ← optionalBlock otherwise
    return .branch as otherwise span
  | .declare _ _ _ _ _ span => .error ⟨.expectedReturn, span.start⟩
  | .assign _ _ _ _ span => .error ⟨.expectedReturn, span.start⟩
  | .loop _ _ span => .error ⟨.expectedReturn, span.start⟩
  | .breakOut _ span => .error ⟨.expectedReturn, span.start⟩
  | .continueLoop span => .error ⟨.expectedReturn, span.start⟩

/-- The arms with the values of those that fall returned. -/
def arms : List (Arm τ) → Except Error (List (Arm τ))
  | [] => .ok []
  | .mk condition body :: as => do
    let flow ← Flow.ofBlock body
    let body' ← if flow.leaves then pure body else block body
    let as ← arms as
    return .mk condition body' :: as

/-- The last branch with its value returned if it falls. -/
def optionalBlock : Option (Block τ) → Except Error (Option (Block τ))
  | none => .ok none
  | some body => do
    let flow ← Flow.ofBlock body
    if flow.leaves then return some body
    else return some (← block body)

end

/-- The function with its reachability checked and its value returned. -/
def function (f : FunctionItem τ) : Except Error (FunctionItem τ) := do
  let flow ← Flow.ofBlock f.body
  if f.result.any isValueType && !flow.leaves then return { f with body := ← block f.body }
  else return f

end Returns

/-- The file with the reachability of its functions checked and their values returned. -/
def FileTree.addReturns (t : FileTree τ) : Except Error (FileTree τ) :=
  t.mapFunctionsM Returns.function

end EbLang
