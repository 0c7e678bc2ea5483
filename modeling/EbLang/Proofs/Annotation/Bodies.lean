import EbLang.Proofs.Annotation.Readings
import EbLang.Proofs.Passes.Files

/-!
# Annotated bodies

Type checking and settling go through the functions of a module and change expressions only.
`FileTree.Alike` says that two files are the same but for the expressions in function bodies, and
relates each expression to the one in its place, given what the context may ask of its value.  It
carries over from the parts of a body to whole files: a pass that changes every statement without
blocks and every condition as a relation says changes files so (`Pass.Relates.function`), and two
passes in a row do what a transitive relation says (`FileTree.Alike.trans`).
-/

namespace EbLang

/-! ## Bodies -/

section Alike

variable (R : (Ty → Prop) → Expr Atom → Expr Atom → Prop) (result : Ty)

mutual

/-- Two statements of a function with the given result are the same but for their expressions and the
places of the members that they write. -/
inductive StmtAlike : Stmt Atom → Stmt Atom → Prop
  /-- A variable or a member may ask for any type. -/
  | declare {name : String} {ty : Option TypeName} {init init' : Option (Expr Atom)}
      {var : Option Nat} {hidden : Bool} {span : Span} : Option.Rel (R fun _ => True) init init' →
      StmtAlike (.declare name ty init var hidden span) (.declare name ty init' var hidden span)
  | assign {target : String} {binding : Option Binding} {members members' : List MemberRef}
      {value value' : Expr Atom} {span : Span} :
      members'.map MemberRef.name = members.map MemberRef.name → R (fun _ => True) value value' →
      StmtAlike (.assign target binding members value span)
        (.assign target binding members' value' span)
  /-- Nothing is asked of a value that is not used. -/
  | eval {value value' : Expr Atom} {span : Span} : R (fun _ => False) value value' →
      StmtAlike (.eval value span) (.eval value' span)
  | ret {value value' : Option (Expr Atom)} {span : Span} :
      Option.Rel (R (· = result)) value value' → StmtAlike (.ret value span) (.ret value' span)
  | branch {arms arms' : List (Arm Atom)} {otherwise otherwise' : Option (Block Atom)}
      {span : Span} : ArmsAlike arms arms' → OtherwiseAlike otherwise otherwise' →
      StmtAlike (.branch arms otherwise span) (.branch arms' otherwise' span)
  | loop {condition condition' : Expr Atom} {body body' : Block Atom} {span : Span} :
      R (· = .bool) condition condition' → BlockAlike body body' →
      StmtAlike (.loop condition body span) (.loop condition' body' span)
  | breakOut {amount : Nat} {span : Span} :
      StmtAlike (.breakOut amount span) (.breakOut amount span)
  | continueLoop {span : Span} : StmtAlike (.continueLoop span) (.continueLoop span)

/-- The arms of two `if`s are the same but for expressions. -/
inductive ArmsAlike : List (Arm Atom) → List (Arm Atom) → Prop
  | nil : ArmsAlike [] []
  | cons {condition condition' : Expr Atom} {body body' : Block Atom} {arms arms' : List (Arm Atom)} :
      R (· = .bool) condition condition' → BlockAlike body body' → ArmsAlike arms arms' →
      ArmsAlike (.mk condition body :: arms) (.mk condition' body' :: arms')

/-- The last branches of two `if`s are the same but for expressions. -/
inductive OtherwiseAlike : Option (Block Atom) → Option (Block Atom) → Prop
  | none : OtherwiseAlike none none
  | some {body body' : Block Atom} : BlockAlike body body' → OtherwiseAlike (some body) (some body')

/-- Two blocks are the same but for expressions. -/
inductive BlockAlike : Block Atom → Block Atom → Prop
  | mk {id : Nat} {body body' : List (Stmt Atom)} {span : Span} : StmtsAlike body body' →
      BlockAlike (.mk id body span) (.mk id body' span)

/-- Some statements are the same as others but for expressions. -/
inductive StmtsAlike : List (Stmt Atom) → List (Stmt Atom) → Prop
  | nil : StmtsAlike [] []
  | cons {s s' : Stmt Atom} {ss ss' : List (Stmt Atom)} : StmtAlike s s' → StmtsAlike ss ss' →
      StmtsAlike (s :: ss) (s' :: ss')

end

end Alike

section Rules

variable {R R' : (Ty → Prop) → Expr Atom → Expr Atom → Prop} {result : Ty}

theorem optionRel_trans {α : Type} {Q : α → α → Prop} [IsTrans α Q] {a b c : Option α}
    (h : Option.Rel Q a b) (h' : Option.Rel Q b c) : Option.Rel Q a c := by
  cases h with
  | none => exact h'
  | some first =>
    cases h' with
    | some second => exact .some (trans_of Q first second)

mutual

theorem StmtAlike.trans [∀ asked, IsTrans (Expr Atom) (R asked)] :
    ∀ {s s' s'' : Stmt Atom}, StmtAlike R result s s' → StmtAlike R result s' s'' →
      StmtAlike R result s s''
  | _, _, _, .declare init, .declare init' => .declare (optionRel_trans init init')
  | _, _, _, .assign members value, .assign members' value' =>
    .assign (members'.trans members) (trans_of _ value value')
  | _, _, _, .eval value, .eval value' => .eval (trans_of _ value value')
  | _, _, _, .ret value, .ret value' => .ret (optionRel_trans value value')
  | _, _, _, .branch arms otherwise, .branch arms' otherwise' =>
    .branch (arms.trans arms') (otherwise.trans otherwise')
  | _, _, _, .loop condition body, .loop condition' body' =>
    .loop (trans_of _ condition condition') (body.trans body')
  | _, _, _, .breakOut, .breakOut => .breakOut
  | _, _, _, .continueLoop, .continueLoop => .continueLoop

theorem ArmsAlike.trans [∀ asked, IsTrans (Expr Atom) (R asked)] :
    ∀ {arms arms' arms'' : List (Arm Atom)}, ArmsAlike R result arms arms' →
      ArmsAlike R result arms' arms'' → ArmsAlike R result arms arms''
  | _, _, _, .nil, .nil => .nil
  | _, _, _, .cons condition body arms, .cons condition' body' arms' =>
    .cons (trans_of _ condition condition') (body.trans body') (arms.trans arms')

theorem OtherwiseAlike.trans [∀ asked, IsTrans (Expr Atom) (R asked)] :
    ∀ {b b' b'' : Option (Block Atom)}, OtherwiseAlike R result b b' →
      OtherwiseAlike R result b' b'' → OtherwiseAlike R result b b''
  | _, _, _, .none, .none => .none
  | _, _, _, .some body, .some body' => .some (body.trans body')

theorem BlockAlike.trans [∀ asked, IsTrans (Expr Atom) (R asked)] :
    ∀ {b b' b'' : Block Atom}, BlockAlike R result b b' → BlockAlike R result b' b'' →
      BlockAlike R result b b''
  | _, _, _, .mk body, .mk body' => .mk (body.trans body')

theorem StmtsAlike.trans [∀ asked, IsTrans (Expr Atom) (R asked)] :
    ∀ {ss ss' ss'' : List (Stmt Atom)}, StmtsAlike R result ss ss' → StmtsAlike R result ss' ss'' →
      StmtsAlike R result ss ss''
  | _, _, _, .nil, .nil => .nil
  | _, _, _, .cons s ss, .cons s' ss' => .cons (s.trans s') (ss.trans ss')

end

variable {P : Expr Atom → Prop}

theorem optionRel_imp {Q Q' : Expr Atom → Expr Atom → Prop} {a b : Option (Expr Atom)}
    (all : ∀ e ∈ a.toList, P e) (imp : ∀ e e', P e → Q e e' → Q' e e') (h : Option.Rel Q a b) :
    Option.Rel Q' a b := by
  cases h with
  | none => exact .none
  | some related => exact .some (imp _ _ (all _ List.mem_cons_self) related)

mutual

/-- The relation may be changed, given what holds of all expressions of the first statement. -/
theorem StmtAlike.imp (imp : ∀ asked e e', P e → R asked e e' → R' asked e e') :
    ∀ {s s' : Stmt Atom}, StmtAlike R result s s' → s.Everywhere (fun s => ∀ e ∈ s.exprs, P e) →
      StmtAlike R' result s s'
  | _, _, .declare init, all => .declare (optionRel_imp all (imp _) init)
  | _, _, .assign members value, all => .assign members (imp _ _ _ (all _ List.mem_cons_self) value)
  | _, _, .eval value, all => .eval (imp _ _ _ (all _ List.mem_cons_self) value)
  | _, _, .ret value, all => .ret (optionRel_imp all (imp _) value)
  | _, _, .branch arms otherwise, ⟨all, inArms, inOther⟩ =>
    .branch (arms.imp imp all inArms) (otherwise.imp imp inOther)
  | _, _, .loop condition body, ⟨all, inBody⟩ =>
    .loop (imp _ _ _ (all _ List.mem_cons_self) condition) (body.imp imp inBody)
  | _, _, .breakOut, _ => .breakOut
  | _, _, .continueLoop, _ => .continueLoop

theorem ArmsAlike.imp (imp : ∀ asked e e', P e → R asked e e' → R' asked e e') :
    ∀ {arms arms' : List (Arm Atom)}, ArmsAlike R result arms arms' →
      (∀ e ∈ arms.map Arm.condition, P e) → ArmsEverywhere (fun s => ∀ e ∈ s.exprs, P e) arms →
      ArmsAlike R' result arms arms'
  | _, _, .nil, _, _ => .nil
  | _, _, .cons condition body arms, all, ⟨inBody, inArms⟩ =>
    have ⟨first, others⟩ := List.forall_mem_cons.mp all
    .cons (imp _ _ _ first condition) (body.imp imp inBody) (arms.imp imp others inArms)

theorem OtherwiseAlike.imp (imp : ∀ asked e e', P e → R asked e e' → R' asked e e') :
    ∀ {b b' : Option (Block Atom)}, OtherwiseAlike R result b b' →
      OtherwiseEverywhere (fun s => ∀ e ∈ s.exprs, P e) b → OtherwiseAlike R' result b b'
  | _, _, .none, _ => .none
  | _, _, .some body, all => .some (body.imp imp all)

theorem BlockAlike.imp (imp : ∀ asked e e', P e → R asked e e' → R' asked e e') :
    ∀ {b b' : Block Atom}, BlockAlike R result b b' → b.Everywhere (fun s => ∀ e ∈ s.exprs, P e) →
      BlockAlike R' result b b'
  | _, _, .mk body, all => .mk (body.imp imp all)

theorem StmtsAlike.imp (imp : ∀ asked e e', P e → R asked e e' → R' asked e e') :
    ∀ {ss ss' : List (Stmt Atom)}, StmtsAlike R result ss ss' →
      StmtsEverywhere (fun s => ∀ e ∈ s.exprs, P e) ss → StmtsAlike R' result ss ss'
  | _, _, .nil, _ => .nil
  | _, _, .cons s ss, ⟨here, others⟩ => .cons (s.imp imp here) (ss.imp imp others)

end

end Rules

/-! ## Passes -/

/-- A pass changes every statement without blocks and every condition of a function with the given
result as a relation says. -/
structure Pass.Relates (R : (Ty → Prop) → Expr Atom → Expr Atom → Prop) (π : Pass) (result : Ty) :
    Prop where
  simple : ∀ s, s.isSimple = true → Ensures (π.simple s) (StmtAlike R result s)
  condition : ∀ e, Ensures (π.condition e) (R (· = .bool) e)

section Passes

variable {R : (Ty → Prop) → Expr Atom → Expr Atom → Prop} {result : Ty} {π : Pass}

/-- The arms of an `if` put together from conditions and bodies. -/
theorem armsAlike_zipWith :
    ∀ {arms : List (Arm Atom)} {conditions : List (Expr Atom)} {bodies : List (Block Atom)},
      List.Forall₂ (R (· = .bool)) (arms.map Arm.condition) conditions →
      List.Forall₂ (BlockAlike R result) (arms.map Arm.body) bodies →
      ArmsAlike R result arms (List.zipWith .mk conditions bodies)
  | [], _, _, .nil, .nil => .nil
  | .mk _ _ :: _, _, _, .cons condition conditions, .cons body bodies =>
    .cons condition body (armsAlike_zipWith conditions bodies)

namespace Pass.Relates

mutual

theorem block (h : π.Relates R result) :
    ∀ b : Block Atom, Ensures (π.block b) (BlockAlike R result b)
  | .mk id body span => by
    refine ensures_then fun _ => ?_
    exact ensures_bind (h.stmts body) fun body' alike => ensures_pure (.mk alike)

theorem stmts (h : π.Relates R result) :
    ∀ ss : List (Stmt Atom), Ensures (π.stmts ss) (StmtsAlike R result ss)
  | [] => by
    exact ensures_pure .nil
  | s :: ss => by
    refine ensures_bind (h.stmt s) fun s' alike => ?_
    exact ensures_bind (h.stmts ss) fun ss' others => ensures_pure (.cons alike others)

theorem stmt (h : π.Relates R result) : ∀ s : Stmt Atom, Ensures (π.stmt s) (StmtAlike R result s)
  | .branch arms otherwise span => by
    refine ensures_bind (ensures_mapM fun e _ => h.condition e) fun conditions related => ?_
    refine ensures_bind (h.bodies arms) fun bodies alike => ?_
    refine ensures_bind (h.otherwise otherwise) fun otherwise' other => ?_
    exact ensures_pure (.branch (armsAlike_zipWith related alike) other)
  | .loop condition body span => by
    refine ensures_bind (h.condition condition) fun condition' related => ?_
    exact ensures_bind (h.block body) fun body' alike => ensures_pure (.loop related alike)
  | .declare .. | .assign .. | .eval .. | .ret .. | .breakOut .. | .continueLoop .. => by
    exact h.simple _ rfl

theorem bodies (h : π.Relates R result) :
    ∀ arms : List (Arm Atom), Ensures (π.bodies arms) fun bodies =>
      List.Forall₂ (BlockAlike R result) (arms.map Arm.body) bodies
  | [] => by
    exact ensures_pure .nil
  | .mk _ body :: arms => by
    refine ensures_bind (h.block body) fun body' alike => ?_
    exact ensures_bind (h.bodies arms) fun bodies others => ensures_pure (.cons alike others)

theorem otherwise (h : π.Relates R result) :
    ∀ b : Option (Block Atom), Ensures (π.otherwise b) (OtherwiseAlike R result b)
  | none => by
    exact ensures_pure .none
  | some body => by
    exact ensures_bind (h.block body) fun body' alike => ensures_pure (.some alike)

end

end Pass.Relates

end Passes

/-! ## Files -/

/-- Two functions are the same but for the expressions of their bodies, or altogether if they are not
declared. -/
structure FunctionAlike (R : (Ty → Prop) → Expr Atom → Expr Atom → Prop)
    (f f' : FunctionItem Atom) : Prop where
  rest : f' = { f with body := f'.body }
  body : ∀ s ∈ f.signature, BlockAlike R s.result f.body f'.body
  undeclared : f.signature = none → f' = f

section Files

variable (F : FunctionItem Atom → FunctionItem Atom → Prop)

/-- Two files are the same but for their functions, which are related. -/
structure FileTree.Alike (t t' : FileTree Atom) : Prop where
  name : t'.name = t.name
  items : Corresponds F Eq Eq t.items t'.items
  nextBlock : t'.nextBlock = t.nextBlock

variable {F} {F' : FunctionItem Atom → FunctionItem Atom → Prop}

theorem Corresponds.trans {is is' is'' : List (Item Atom)}
    (trans : ∀ f f' f'', F f f' → F f' f'' → F f f'') (h : Corresponds F Eq Eq is is')
    (h' : Corresponds F Eq Eq is' is'') : Corresponds F Eq Eq is is'' := by
  induction h generalizing is'' with
  | nil => exact h'
  | function first _ ih =>
    cases h' with
    | function second others => exact .function (trans _ _ _ first second) (ih others)
  | imports _ ih =>
    cases h' with
    | imports others => exact .imports (ih others)
  | global same _ ih =>
    cases h' with
    | global same' others => exact .global (same.trans same') (ih others)
  | struct same _ ih =>
    cases h' with
    | struct same' others => exact .struct (same.trans same') (ih others)
  | submodule _ _ ih ih' =>
    cases h' with
    | submodule inside others => exact .submodule (ih inside) (ih' others)

/-- The relation may be changed, given what it says of the functions there are. -/
theorem Corresponds.imp {is is' : List (Item Atom)} (h : Corresponds F Eq Eq is is')
    (imp : ∀ f ∈ functionsOf is, ∀ f', F f f' → F' f f') : Corresponds F' Eq Eq is is' := by
  induction h with
  | nil => exact .nil
  | function related _ ih =>
    obtain ⟨first, others⟩ := List.forall_mem_cons.mp imp
    exact .function (first _ related) (ih others)
  | imports _ ih => exact .imports (ih imp)
  | global same _ ih => exact .global same (ih imp)
  | struct same _ ih => exact .struct same (ih imp)
  | submodule _ _ ih ih' =>
    obtain ⟨inside, others⟩ := List.forall_mem_append.mp imp
    exact .submodule (ih inside) (ih' others)

theorem FileTree.Alike.trans {t t' t'' : FileTree Atom} (h : t.Alike F t')
    (trans : ∀ f f' f'', F f f' → F f' f'' → F f f'') (h' : t'.Alike F t'') : t.Alike F t'' :=
  ⟨h'.name.trans h.name, h.items.trans trans h'.items, h'.nextBlock.trans h.nextBlock⟩

/-- A walk through the functions of a module changes them as it changes each of them, and beside them
only variables. -/
theorem Module.alike_walk {m : Module} {g : FunctionItem Atom → Walk (FunctionItem Atom)}
    (h : ∀ f, Ensures (g f) (F f)) : Ensures (m.walk g) fun m' =>
      m.tree.Alike F m'.tree ∧ m' = { m with tree := m'.tree, scopes := m'.scopes } := by
  have file : Ensures (m.tree.mapFunctionsM g) (m.tree.Alike F) :=
    ensures_bind (ensures_mapItemsM m.tree.items fun f _ => h f) fun is same =>
      ensures_pure ⟨rfl, same, rfl⟩
  intro m' walked
  unfold Module.walk at walked
  cases run : (m.tree.mapFunctionsM g).run.run m.scopes with
  | mk result scopes =>
    rw [run] at walked
    cases result with
    | error e => cases walked
    | ok tree =>
      cases walked
      exact ⟨Ensures.of_gives file run, rfl⟩

end Files

theorem FunctionAlike.trans {R : (Ty → Prop) → Expr Atom → Expr Atom → Prop}
    [∀ asked, IsTrans (Expr Atom) (R asked)] {f f' f'' : FunctionItem Atom}
    (h : FunctionAlike R f f') (h' : FunctionAlike R f' f'') : FunctionAlike R f f'' := by
  have same : f'.signature = f.signature := by rw [h.rest]
  refine ⟨h'.rest.trans (by rw [h.rest]), fun s signature => ?_, fun none => ?_⟩
  · exact (h.body s signature).trans (h'.body s (same ▸ signature))
  · exact (h'.undeclared (same.trans none)).trans (h.undeclared none)

theorem FunctionAlike.imp {R R' : (Ty → Prop) → Expr Atom → Expr Atom → Prop} {P : Expr Atom → Prop}
    (imp : ∀ asked e e', P e → R asked e e' → R' asked e e') {f f' : FunctionItem Atom}
    (all : f.body.Everywhere fun s => ∀ e ∈ s.exprs, P e) (h : FunctionAlike R f f') :
    FunctionAlike R' f f' :=
  ⟨h.rest, fun s signature => (h.body s signature).imp imp all, h.undeclared⟩

/-- A pass changes functions as it changes their parts. -/
theorem Pass.Relates.function {R : (Ty → Prop) → Expr Atom → Expr Atom → Prop} {π : Ty → Pass}
    (h : ∀ result, (π result).Relates R result) (f : FunctionItem Atom) :
    Ensures (Pass.function π f) (FunctionAlike R f) := by
  unfold Pass.function
  cases signature : f.signature with
  | none =>
    refine ensures_pure ⟨rfl, fun s there => ?_, fun _ => rfl⟩
    rw [signature] at there
    cases there
  | some s =>
    refine ensures_bind ((h s.result).block f.body) fun body alike => ensures_pure ⟨?_, ?_, ?_⟩
    · rw [signature]
    · rw [signature]
      rintro _ ⟨⟩
      exact alike
    · rw [signature]
      rintro ⟨⟩

/-! ## Checking and settling -/

theorem ensures_memberPath (structs : StructTable) (position : Position) :
    ∀ (ms : List MemberRef) (ty : Ty), Ensures (memberPath structs position ty ms) fun r =>
      r.2.map MemberRef.name = ms.map MemberRef.name
  | [], ty => by
    exact ensures_pure rfl
  | m :: ms, ty => by
    unfold memberPath
    split
    next => exact Walk.ensures_failAt
    next =>
      refine ensures_bind (ensures_memberPath structs position ms _) fun r names => ensures_pure ?_
      rw [List.map_cons, List.map_cons, names]

theorem ensures_assignmentType (structs : StructTable) (target : String) (binding : Option Binding)
    (members : List MemberRef) (position : Position) :
    Ensures (assignmentType structs target binding members position) fun r =>
      r.2.map MemberRef.name = members.map MemberRef.name := by
  unfold assignmentType
  split
  next => exact Walk.ensures_failAt
  next => exact ensures_then fun _ => ensures_memberPath structs position members _

namespace Check

variable (structs : StructTable) (result : Ty)

theorem turns_declaration (ty : Option TypeName) (init : Option (Expr Atom))
    (id : Nat) : Ensures (declaration structs ty init id)
      (Option.Rel (Expr.Turns fun _ => True) init) := by
  refine ensures_then fun scopes => ?_
  dsimp only
  split
  next init =>
    refine ensures_bind (turns_expr structs init _) fun r turns => ?_
    split
    next => exact ensures_bind Walk.ensures_failAt fun _ (no : False) => no.elim
    next =>
      exact ensures_then fun _ => ensures_pure (.some (turns.imp fun _ _ => trivial))
  next => exact ensures_then fun _ => ensures_pure .none

theorem relates_assignment (target : String)
    (binding : Option Binding) (members : List MemberRef) (value : Expr Atom) (span : Span) :
    Ensures (assignment structs target binding members value span)
      (StmtAlike Expr.Turns result (.assign target binding members value span)) := by
  refine ensures_then fun _ => ?_
  refine ensures_bind (ensures_assignmentType structs target binding members _) fun r names => ?_
  refine ensures_bind (turns_expr structs value (some r.1)) fun v turns => ?_
  have alike : StmtAlike Expr.Turns result (.assign target binding members value span)
      (.assign target binding r.2 v.2 span) := .assign names (turns.imp fun _ _ => trivial)
  dsimp only
  split
  next => exact ensures_then fun _ => ensures_pure alike
  next => exact ensures_pure alike

theorem relates_ret (value : Option (Expr Atom)) (span : Span) :
    Ensures (ret structs result value span) (StmtAlike Expr.Turns result (.ret value span)) := by
  unfold ret
  split
  next value =>
    split
    next =>
      refine ensures_then fun _ => ?_
      exact ensures_bind Walk.ensures_failAt fun _ (no : False) => no.elim
    next =>
      refine ensures_bind (turns_expr structs value (some result)) fun r turns => ensures_pure ?_
      exact .ret (.some (turns.imp fun _ there => (Option.some.inj there).symm))
  next =>
    split
    next => exact ensures_bind Walk.ensures_failAt fun _ (no : False) => no.elim
    next => exact ensures_pure (.ret .none)

/-- Type checking turns expressions and leaves everything else alone. -/
theorem relates_pass (structs : StructTable) (result : Ty) :
    (pass structs result).Relates Expr.Turns result where
  simple s isSimple := by
    change Ensures (simple structs result s) _
    cases s with
    | branch | loop => cases isSimple
    | declare name ty init var hidden span =>
      dsimp only [simple]
      split
      next => exact Walk.ensures_failAt
      next id =>
        exact ensures_bind (turns_declaration structs ty init id) fun init' turns =>
          ensures_pure (.declare turns)
    | assign target binding members value span =>
      exact relates_assignment structs result target binding members value span
    | eval value span =>
      refine ensures_bind (turns_expr structs value none) fun r turns => ensures_pure (.eval ?_)
      exact turns.imp fun ty there => Option.not_mem_none ty there
    | ret value span =>
      exact relates_ret structs result value span
    | breakOut =>
      exact ensures_pure .breakOut
    | continueLoop =>
      exact ensures_pure .continueLoop
  condition e := by
    refine ensures_bind (turns_expr structs e (some .bool)) fun r turns => ensures_pure ?_
    exact turns.imp fun _ there => (Option.some.inj there).symm

end Check

/-- Settling turns expressions and leaves everything else alone. -/
theorem Complete.relates_pass (structs : StructTable) (result : Ty) :
    (pass structs result).Relates Expr.Turns result where
  simple s isSimple := by
    change Ensures (simple structs result s) _
    cases s with
    | branch | loop => cases isSimple
    | declare name ty init var hidden span =>
      dsimp only [simple]
      split
      next value id =>
        refine ensures_then fun scopes => ?_
        refine ensures_bind (turns_expr value (some (scopes.typeOf id))) fun value' turns => ?_
        exact ensures_pure (.declare (.some (turns.imp fun _ _ => trivial)))
      next =>
        refine ensures_pure (.declare ?_)
        cases init with
        | none => exact .none
        | some value => exact .some (.refl value)
    | assign target binding members value span =>
      refine ensures_bind (ensures_assignmentType structs target binding members _) fun r names => ?_
      refine ensures_bind (turns_expr value (some r.1)) fun value' turns => ensures_pure ?_
      exact .assign names (turns.imp fun _ _ => trivial)
    | eval value span =>
      refine ensures_bind (turns_expr value none) fun value' turns => ensures_pure (.eval ?_)
      exact turns.imp fun ty there => Option.not_mem_none ty there
    | ret value span =>
      cases value with
      | none => exact ensures_pure (.ret .none)
      | some value =>
        have turned : Ensures (some <$> expr value (some result))
            (Option.Rel (Expr.Turns (· = result)) (some value)) :=
          ensures_map (turns_expr value (some result)) fun _ turns =>
            .some (turns.imp fun _ there => (Option.some.inj there).symm)
        exact ensures_bind turned fun value' turns => ensures_pure (.ret turns)
    | breakOut =>
      exact ensures_pure .breakOut
    | continueLoop =>
      exact ensures_pure .continueLoop
  condition e := by
    refine ensures_imp (turns_expr e (some .bool)) fun e' turns => ?_
    exact turns.imp fun _ there => (Option.some.inj there).symm

variable (structs : StructTable)

theorem Module.alike_typeCheck (m : Module) :
    Ensures (m.typeCheck structs) fun m' => m.tree.Alike (FunctionAlike Expr.Turns) m'.tree ∧
      m' = { m with tree := m'.tree, scopes := m'.scopes } := by
  unfold Module.typeCheck
  exact m.alike_walk (Pass.Relates.function (Check.relates_pass structs))

theorem Module.alike_complete (m : Module) :
    Ensures (m.complete structs) fun m' => m.tree.Alike (FunctionAlike Expr.Turns) m'.tree ∧
      m' = { m with tree := m'.tree, scopes := m'.scopes } := by
  unfold Module.complete
  exact m.alike_walk (Pass.Relates.function (Complete.relates_pass structs))

end EbLang
