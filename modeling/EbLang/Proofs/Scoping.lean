import EbLang.Analysis
import EbLang.Proofs.Occurrences

/-!
# Lexical scoping

What a tree looks like when its names are bound by the places where they stand.  At every place the
names in view are an environment, a frame for each block around it.  A declaration adds its name to
the innermost frame and takes the next number; a block works on a frame of its own, which is gone
when the block ends.

The judgements relate a tree to the tree with its names bound, one rule for each kind of statement.
Numbers are handed out in the order of the declarations, so no two declarations get the same one.
-/

namespace EbLang

variable {τ : Type}

/-! ## Environments -/

/-- The names that a block has declared so far with their variables, the last declaration first. -/
abbrev Frame := List (String × Nat)

/-- The names in view at a place: a frame for each block around it, innermost first. -/
abbrev Env := List Frame

namespace Env

/-- The variable of a name: the last declaration in the innermost block that has one. -/
def find? : Env → String → Option Nat
  | [], _ => none
  | frame :: env, name => (frame.lookup name).or (find? env name)

/-- The variable that the first part of a dotted name stands for. -/
def first? (env : Env) (name : String) : Option Nat := (splitName name).head?.bind env.find?

/-- Declares a name in the innermost block. -/
def declare (name : String) (id : Nat) : Env → Env
  | [] => [[(name, id)]]
  | frame :: env => ((name, id) :: frame) :: env

/-- The variables in view. -/
def vars (env : Env) : List Nat := env.flatten.map Prod.snd

variable (env : Env) (name : String) (id : Nat)

theorem find?_declare (q : String) :
    (env.declare name id).find? q = if q = name then some id else env.find? q := by
  cases env with
  | nil =>
    simp only [declare, find?, List.lookup_cons]
    by_cases h : q = name
    · simp [h]
    · simp [h, beq_false_of_ne h]
  | cons frame env =>
    simp only [declare, find?, List.lookup_cons]
    by_cases h : q = name
    · simp [h]
    · simp [h, beq_false_of_ne h]

theorem vars_declare : (env.declare name id).vars = id :: env.vars := by
  cases env <;> rfl

theorem mem_vars_of_find? {env : Env} {name : String} {id : Nat} (h : env.find? name = some id) :
    id ∈ env.vars := by
  induction env with
  | nil => cases h
  | cons frame env ih =>
    rw [vars, List.flatten_cons, List.map_append, List.mem_append]
    rw [find?] at h
    cases found : frame.lookup name with
    | none =>
      rw [found, Option.none_or] at h
      exact .inr (ih h)
    | some id' =>
      rw [found, Option.some_or] at h
      cases h
      refine .inl (List.mem_map.mpr ⟨(name, id), ?_, rfl⟩)
      obtain ⟨before, after, rfl, -⟩ := List.lookup_eq_some_iff.mp found
      simp

end Env

/-! ## Expressions -/

/-- What a name stands for, and the members that follow: a variable if its first part is declared,
and else a global. -/
inductive Binds (env : Env) (name : String) : Binding → List String → Prop
  | localVar {id : Nat} : env.first? name = some id →
      Binds env name (.localVar id) ((splitName name).drop 1)
  | globalVar {g : Global} {members : List String} : env.first? name = none →
      Binds env name (.globalVar g) members

/-- A step and the steps that stand for it when its names are bound. -/
inductive AtomBound (env : Env) : Atom → List Atom → Prop
  | literal {l : Literal} {ty : Ty} {span : Span} :
      AtomBound env ⟨.literal l, ty, span⟩ [⟨.literal l, ty, span⟩]
  | var {name own : String} {before : Option Binding} {b : Binding} {members : List String}
      {ty : Ty} {span : Span} : Binds env name b members →
      AtomBound env ⟨.var name before, ty, span⟩
        (⟨.var own (some b), ty, span⟩ :: members.map fun m => .member m span)
  | call {c : Call} {candidates : List Signature} {ty : Ty} {span : Span} :
      AtomBound env ⟨.call c, ty, span⟩ [⟨.call { c with candidates }, ty, span⟩]
  | member {m : MemberRef} {ty : Ty} {span : Span} :
      AtomBound env ⟨.member m, ty, span⟩ [⟨.member m, ty, span⟩]

def ExprBound (env : Env) (e e' : Expr Atom) : Prop :=
  ∃ ass, List.Forall₂ (AtomBound env) e.terms ass ∧ e' = ⟨ass.flatten, e.span⟩

/-- An expression that may be missing, and the one with its names bound. -/
def OptionalBound (env : Env) : Option (Expr Atom) → Option (Expr Atom) → Prop :=
  Option.Rel (ExprBound env)

/-! ## Statements -/

mutual

/-- A statement and the one with its names bound.  It is read among the names of `env` when `n` is
the next number; the statements after it are read among those of `env'` from `n'` on. -/
inductive StmtScoped : Env → Nat → Stmt Atom → Stmt Atom → Env → Nat → Prop
  /-- The name is not in view in its own first value. -/
  | declare {env : Env} {n : Nat} {name : String} {ty : Option TypeName}
      {init init' : Option (Expr Atom)} {var : Option Nat} {hidden : Bool} {span : Span} :
      OptionalBound env init init' →
      StmtScoped env n (.declare name ty init var hidden span)
        (.declare name ty init' (some n) hidden span) (env.declare name n) (n + 1)
  | assign {env : Env} {n : Nat} {target : String} {before : Option Binding} {b : Binding}
      {ms : List MemberRef} {members : List String} {value value' : Expr Atom} {span : Span} :
      ExprBound env value value' → Binds env target b members →
      StmtScoped env n (.assign target before ms value span)
        (.assign target (some b) (members.map fun m => ⟨m, none⟩) value' span) env n
  | eval {env : Env} {n : Nat} {value value' : Expr Atom} {span : Span} :
      ExprBound env value value' →
      StmtScoped env n (.eval value span) (.eval value' span) env n
  | ret {env : Env} {n : Nat} {value value' : Option (Expr Atom)} {span : Span} :
      OptionalBound env value value' →
      StmtScoped env n (.ret value span) (.ret value' span) env n
  | branch {env : Env} {n n1 n2 : Nat} {arms arms' : List (Arm Atom)}
      {otherwise otherwise' : Option (Block Atom)} {span : Span} :
      ArmsScoped env n arms arms' n1 → OtherwiseScoped env n1 otherwise otherwise' n2 →
      StmtScoped env n (.branch arms otherwise span) (.branch arms' otherwise' span) env n2
  | loop {env : Env} {n n' : Nat} {condition condition' : Expr Atom} {body body' : Block Atom}
      {span : Span} : ExprBound env condition condition' → BlockScoped env n body body' n' →
      StmtScoped env n (.loop condition body span) (.loop condition' body' span) env n'
  | breakOut {env : Env} {n amount : Nat} {span : Span} :
      StmtScoped env n (.breakOut amount span) (.breakOut amount span) env n
  | continueLoop {env : Env} {n : Nat} {span : Span} :
      StmtScoped env n (.continueLoop span) (.continueLoop span) env n

/-- The arms of an `if` and those with their names bound. -/
inductive ArmsScoped : Env → Nat → List (Arm Atom) → List (Arm Atom) → Nat → Prop
  | nil {env : Env} {n : Nat} : ArmsScoped env n [] [] n
  | cons {env : Env} {n n1 n2 : Nat} {condition condition' : Expr Atom} {body body' : Block Atom}
      {arms arms' : List (Arm Atom)} :
      ExprBound env condition condition' → BlockScoped env n body body' n1 →
      ArmsScoped env n1 arms arms' n2 →
      ArmsScoped env n (.mk condition body :: arms) (.mk condition' body' :: arms') n2

/-- The last branch of an `if` and the one with its names bound. -/
inductive OtherwiseScoped : Env → Nat → Option (Block Atom) → Option (Block Atom) → Nat → Prop
  | none {env : Env} {n : Nat} : OtherwiseScoped env n none none n
  | some {env : Env} {n n' : Nat} {body body' : Block Atom} :
      BlockScoped env n body body' n' → OtherwiseScoped env n (some body) (some body') n'

/-- A block and the one with its names bound.  What it declares is in view only in itself. -/
inductive BlockScoped : Env → Nat → Block Atom → Block Atom → Nat → Prop
  | mk {env : Env} {n n' id : Nat} {body body' : List (Stmt Atom)} {span : Span} :
      StmtsScoped ([] :: env) n body body' n' →
      BlockScoped env n (.mk id body span) (.mk id body' span) n'

/-- Some statements and those with their names bound. -/
inductive StmtsScoped : Env → Nat → List (Stmt Atom) → List (Stmt Atom) → Nat → Prop
  | nil {env : Env} {n : Nat} : StmtsScoped env n [] [] n
  | cons {env env1 : Env} {n n1 n2 : Nat} {s s' : Stmt Atom} {ss ss' : List (Stmt Atom)} :
      StmtScoped env n s s' env1 n1 → StmtsScoped env1 n1 ss ss' n2 →
      StmtsScoped env n (s :: ss) (s' :: ss') n2

end

/-! ## Functions -/

/-- The parameters as a frame, numbered from `n` on; parameters of one name share a variable. -/
def paramFrame : Frame → Nat → List String → Frame × Nat
  | frame, n, [] => (frame, n)
  | frame, n, name :: names =>
    if (frame.lookup name).isSome then paramFrame frame n names
    else paramFrame ((name, n) :: frame) (n + 1) names

def FunctionItem.paramNames (f : FunctionItem τ) : List String :=
  f.params.map Field.name ++ f.named.map NamedField.name

/-- The parameters of a function with their types, in order. -/
def Signature.allParams (s : Signature) : List (String × Ty) :=
  s.params.map (fun p => (p.name, p.ty)) ++ s.named.map fun p => (p.name, p.ty)

/-- A function and the one with the names of its body bound, in a file whose variables are `vars`.
Its parameters are declared at the start of the body, in the frame of the body itself. -/
structure FunctionScoped (vars : List Variable) (n : Nat) (f f' : FunctionItem Atom) (n' : Nat) :
    Prop where
  same : f' = { f with
    body := .mk f.body.id f'.body.body f.body.span
    signature := f'.signature }
  body : StmtsScoped [(paramFrame [] n f.paramNames).1] (paramFrame [] n f.paramNames).2
    f.body.body f'.body.body n'
  params : ∀ id, n ≤ id → id < (paramFrame [] n f.paramNames).2 →
    ∃ v s, vars[id]? = some v ∧ v.isParam = true ∧
      (paramFrame [] n f.paramNames).1.lookup v.name = some id ∧
      f'.signature = some s ∧ (v.name, v.ty) ∈ s.allParams

/-- Some functions and those with the names of their bodies bound. -/
inductive FunctionsScoped (vars : List Variable) :
    Nat → List (FunctionItem Atom) → List (FunctionItem Atom) → Nat → Prop
  | nil {n : Nat} : FunctionsScoped vars n [] [] n
  | cons {n n1 n2 : Nat} {f f' : FunctionItem Atom} {fs fs' : List (FunctionItem Atom)} :
      FunctionScoped vars n f f' n1 → FunctionsScoped vars n1 fs fs' n2 →
      FunctionsScoped vars n (f :: fs) (f' :: fs') n2

section Functions

variable {vars vars' : List Variable} {n n1 n2 : Nat} {f f' g : FunctionItem Atom}
  {fs fs' gs gs' : List (FunctionItem Atom)}

theorem FunctionScoped.mono (h : FunctionScoped vars n f f' n1) (more : vars <+: vars') :
    FunctionScoped vars' n f f' n1 := by
  refine ⟨h.same, h.body, fun id le lt => ?_⟩
  obtain ⟨v, s, found, facts⟩ := h.params id le lt
  obtain ⟨others, rfl⟩ := more
  refine ⟨v, s, ?_, facts⟩
  rw [List.getElem?_append_left (List.getElem?_eq_some_iff.mp found).1]
  exact found

theorem FunctionsScoped.mono (h : FunctionsScoped vars n fs fs' n1) (more : vars <+: vars') :
    FunctionsScoped vars' n fs fs' n1 := by
  induction h with
  | nil => exact .nil
  | cons hf _ ih => exact .cons (hf.mono more) ih

theorem FunctionsScoped.append (h : FunctionsScoped vars n fs fs' n1)
    (h' : FunctionsScoped vars n1 gs gs' n2) : FunctionsScoped vars n (fs ++ gs) (fs' ++ gs') n2 := by
  induction h with
  | nil => exact h'
  | cons hf _ ih => exact .cons hf (ih h')

end Functions

/-! ## The variables that are declared -/

mutual

/-- The variables that the statements of a block declare, in order. -/
def Block.declared : Block τ → List Nat
  | .mk _ body _ => declaredBy body

/-- The variables that some statements declare, in order. -/
def declaredBy : List (Stmt τ) → List Nat
  | [] => []
  | s :: ss => s.declared ++ declaredBy ss

/-- The variables that a statement and those inside it declare, in order. -/
def Stmt.declared : Stmt τ → List Nat
  | .declare _ _ _ var _ _ => var.toList
  | .branch arms otherwise _ => declaredByArms arms ++ declaredByOtherwise otherwise
  | .loop _ body _ => body.declared
  | .assign .. | .eval .. | .ret .. | .breakOut .. | .continueLoop .. => []

/-- The variables that the arms of an `if` declare, in order. -/
def declaredByArms : List (Arm τ) → List Nat
  | [] => []
  | .mk _ body :: arms => body.declared ++ declaredByArms arms

/-- The variables that the last branch of an `if` declares, in order. -/
def declaredByOtherwise : Option (Block τ) → List Nat
  | none => []
  | some body => body.declared

end

/-- The numbers from `n` up to `n'`. -/
def Spans (n n' : Nat) (ids : List Nat) : Prop := n ≤ n' ∧ ids = List.range' n (n' - n)

namespace Spans

variable {n n1 n2 : Nat} {ids ids' : List Nat}

protected theorem nil (n : Nat) : Spans n n [] := ⟨Nat.le_refl n, by rw [Nat.sub_self]; rfl⟩

protected theorem append (h : Spans n n1 ids) (h' : Spans n1 n2 ids') : Spans n n2 (ids ++ ids') := by
  obtain ⟨le, rfl⟩ := h
  obtain ⟨le', rfl⟩ := h'
  refine ⟨Nat.le_trans le le', ?_⟩
  rw [show n2 - n = (n1 - n) + (n2 - n1) by omega, ← List.range'_append_1]
  rw [Nat.add_sub_cancel' le]

theorem mem_iff (h : Spans n n1 ids) {i : Nat} : i ∈ ids ↔ n ≤ i ∧ i < n1 := by
  obtain ⟨le, rfl⟩ := h
  rw [List.mem_range'_1]
  omega

theorem nodup (h : Spans n n1 ids) : ids.Nodup := by
  rw [h.2]
  exact List.nodup_range'

end Spans

mutual

theorem StmtScoped.declared :
    ∀ {env env' : Env} {n n' : Nat} {s s' : Stmt Atom}, StmtScoped env n s s' env' n' →
      Spans n n' s'.declared
  | _, _, n, _, _, _, .declare _ => ⟨Nat.le_succ n, by rw [Nat.add_sub_cancel_left]; rfl⟩
  | _, _, _, _, _, _, .branch arms otherwise => arms.declared.append otherwise.declared
  | _, _, _, _, _, _, .loop _ body => body.declared
  | _, _, n, _, _, _, .assign _ _ | _, _, n, _, _, _, .eval _ | _, _, n, _, _, _, .ret _ => .nil n
  | _, _, n, _, _, _, .breakOut | _, _, n, _, _, _, .continueLoop => .nil n

theorem ArmsScoped.declared :
    ∀ {env : Env} {n n' : Nat} {arms arms' : List (Arm Atom)}, ArmsScoped env n arms arms' n' →
      Spans n n' (declaredByArms arms')
  | _, n, _, _, _, .nil => .nil n
  | _, _, _, _, _, .cons _ body arms => body.declared.append arms.declared

theorem OtherwiseScoped.declared :
    ∀ {env : Env} {n n' : Nat} {b b' : Option (Block Atom)}, OtherwiseScoped env n b b' n' →
      Spans n n' (declaredByOtherwise b')
  | _, n, _, _, _, .none => .nil n
  | _, _, _, _, _, .some body => body.declared

theorem BlockScoped.declared :
    ∀ {env : Env} {n n' : Nat} {b b' : Block Atom}, BlockScoped env n b b' n' →
      Spans n n' b'.declared
  | _, _, _, _, _, .mk body => body.declared

/-- The declarations of some statements take all numbers handed out among them, one each. -/
theorem StmtsScoped.declared :
    ∀ {env : Env} {n n' : Nat} {ss ss' : List (Stmt Atom)}, StmtsScoped env n ss ss' n' →
      Spans n n' (declaredBy ss')
  | _, n, _, _, _, .nil => .nil n
  | _, _, _, _, _, .cons s ss => s.declared.append ss.declared

end

theorem le_paramFrame (names : List String) :
    ∀ (frame : Frame) (n : Nat), n ≤ (paramFrame frame n names).2 := by
  induction names with
  | nil => exact fun _ n => Nat.le_refl n
  | cons name names ih =>
    intro frame n
    rw [paramFrame]
    split
    · exact ih _ _
    · exact Nat.le_of_succ_le (ih _ _)

/-- The variables that the functions of a file declare by statements. -/
def declaredIn (fs : List (FunctionItem τ)) : List Nat := fs.flatMap fun f => f.body.declared

theorem FunctionScoped.declared {vars : List Variable} {n n' : Nat} {f f' : FunctionItem Atom}
    (h : FunctionScoped vars n f f' n') :
    Spans (paramFrame [] n f.paramNames).2 n' f'.body.declared := by
  have body := h.body.declared
  cases hb : f'.body with
  | mk id ss span =>
    rw [hb] at body
    exact body

/-- Different declarations get different variables, in one function and in different ones. -/
theorem FunctionsScoped.nodup_declared {vars : List Variable} {n n' : Nat}
    {fs fs' : List (FunctionItem Atom)} (h : FunctionsScoped vars n fs fs' n') :
    (∀ id ∈ declaredIn fs', n ≤ id) ∧ (declaredIn fs').Nodup := by
  induction h with
  | nil => exact ⟨nofun, List.nodup_nil⟩
  | @cons n n1 n2 f f' fs fs' hf _ ih =>
    have own := hf.declared
    have params := le_paramFrame f.paramNames [] n
    have le := own.1
    refine ⟨fun id hid => ?_, ?_⟩
    · rcases List.mem_append.mp hid with hid | hid
      · exact Nat.le_trans params (own.mem_iff.mp hid).1
      · have := ih.1 id hid
        omega
    · refine List.nodup_append.mpr ⟨own.nodup, ih.2, ?_⟩
      rintro a ha b hb rfl
      have above := ih.1 a hb
      have below := own.mem_iff.mp ha
      omega

end EbLang
