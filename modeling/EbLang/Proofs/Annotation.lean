import EbLang.Proofs.Typing.Readings

/-!
# Annotated expressions

Typing reads every expression several times.  Each reading may bind calls to functions, fill in the
places of members and insert conversions, and leaves everything else as it was.

To say where a conversion stands, a postfix sequence is taken apart: an `Operation` is a step with the
operations whose values it takes.  `Operation.Annotated` says what a reading makes of an operation.  A
call that is not bound to a function may be bound, and only then may an operand of it be converted, to
the type that the function asks for in its place.  Since no reading binds a call again, two readings
in a row do what one may do (`Operation.Annotated.trans`).

If no call may be of a conversion to begin with, the inserted steps are those that call one, and
without them the steps are the old ones (`Operation.Fitted.erased_eq`).
-/

namespace EbLang

variable {o o' : Operation} {s : Signature}
variable {ty : Ty} {os os' : List Operation} {us : List Untyped}

/-! ## Operations -/

/-- A step without its type. -/
structure Untyped where
  kind : AtomKind
  span : Span

/-- The step without its type. -/
def Atom.untyped (a : Atom) : Untyped := ⟨a.kind, a.span⟩

namespace Untyped

/-- How many values a step takes. -/
def takes (u : Untyped) : Nat := Atom.takes ⟨u.kind, .void, u.span⟩

/-- The call of a conversion. -/
def cast (s : Signature) (span : Span) : Untyped := (Atom.cast s span).untyped

end Untyped

/-- A step and the operations whose values it takes. -/
inductive Operation where
  | mk (step : Untyped) (args : List Operation)

/-- The span of the last step. -/
def Operation.span : Operation → Span
  | .mk step _ => step.span

mutual

/-- The postfix sequence of an operation. -/
def Operation.steps : Operation → List Untyped
  | .mk step args => stepsOf args ++ [step]

/-- The postfix sequences of some operations, one after the other. -/
def stepsOf : List Operation → List Untyped
  | [] => []
  | o :: os => o.steps ++ stepsOf os

end

mutual

/-- Every step of an operation has as many operands as it takes. -/
def Operation.IsFull : Operation → Prop
  | .mk step args => args.length = step.takes ∧ AllFull args

/-- Every step of some operations has as many operands as it takes. -/
def AllFull : List Operation → Prop
  | [] => True
  | o :: os => o.IsFull ∧ AllFull os

end

/-! ## What becomes of a step -/

/-- The function is the conversion of some primitive that widens to a type. -/
def Signature.IsConversionTo (s : Signature) (ty : Ty) : Prop :=
  ∃ source target, source.widensTo target = true ∧ s = Builtin.castFunction source target ∧
    ty = .ofPrim target

/-- What a reading may make of a step. -/
inductive AtomKind.Becomes : AtomKind → AtomKind → Prop
  | literal (l : Literal) : Becomes (.literal l) (.literal l)
  | var (name : String) (binding : Option Binding) : Becomes (.var name binding) (.var name binding)
  | member (name : String) (i j : Option Nat) : Becomes (.member ⟨name, i⟩) (.member ⟨name, j⟩)
  | call (c : Call) : Becomes (.call c) (.call c)
  /-- Some candidates are ruled out. -/
  | narrowed {c : Call} {candidates : List Signature} (unbound : c.target = none)
      (fewer : candidates ⊆ c.candidates) : Becomes (.call c) (.call { c with candidates })
  /-- The call is bound to a candidate, or to an overload of the operator. -/
  | bound {c : Call} {t : Signature} (unbound : c.target = none)
      (among : t ∈ c.candidates ∨ c.isOperator = true ∧ t ∈ Builtin.operators c.name c.arity) :
      Becomes (.call c) (.call { c with candidates := [t], target := some t })

/-- The types that a call asks of its operands if a reading binds it, and nothing else. -/
def AtomKind.asks : AtomKind → AtomKind → List Ty
  | .call c, .call c' =>
    match c.target, c'.target with
    | none, some t => (t.typesFor? c.named).getD []
    | _, _ => []
  | _, _ => []

namespace AtomKind

variable {k k' k'' : AtomKind}

theorem Becomes.refl : ∀ k : AtomKind, k.Becomes k
  | .literal l => .literal l
  | .var name binding => .var name binding
  | .call c => .call c
  | .member m => .member m.name m.index m.index

theorem Becomes.takes (h : k.Becomes k') {span span' : Span} :
    Untyped.takes ⟨k', span'⟩ = Untyped.takes ⟨k, span⟩ := by
  cases h <;> rfl

/-- A call that is bound stays as it is. -/
theorem Becomes.eq_of_bound {c : Call} {t : Signature} (h : Becomes (.call c) k')
    (bound : c.target = some t) : k' = .call c := by
  cases h with
  | call => rfl
  | narrowed unbound | bound unbound =>
    rw [bound] at unbound
    cases unbound

theorem asks_of_bound {c : Call} {t : Signature} (bound : c.target = some t) (k' : AtomKind) :
    asks (.call c) k' = [] := by
  cases k' with
  | literal | var | member => rfl
  | call c' => rw [asks, bound]

theorem asks_self (c : Call) : asks (.call c) (.call c) = [] := by
  rw [asks]
  cases c.target <;> rfl

/-- Of two readings in a row at most one binds a call. -/
theorem Becomes.trans (h : k.Becomes k') (h' : k'.Becomes k'') :
    k.Becomes k'' ∧ (asks k k' = [] ∧ asks k k'' = asks k' k'' ∨
      asks k' k'' = [] ∧ asks k k'' = asks k k') := by
  cases h with
  | literal | var => exact ⟨h', .inl ⟨rfl, rfl⟩⟩
  | call c => exact ⟨h', .inl ⟨asks_self c, rfl⟩⟩
  | member name i j =>
    cases h'
    exact ⟨.member name i _, .inl ⟨rfl, rfl⟩⟩
  | @narrowed c candidates unbound fewer =>
    cases h' with
    | call => exact ⟨.narrowed unbound fewer, .inr ⟨by simp [asks, unbound], rfl⟩⟩
    | narrowed _ fewer' =>
      exact ⟨.narrowed unbound (List.Subset.trans fewer' fewer), .inl ⟨by simp [asks, unbound], rfl⟩⟩
    | bound _ among =>
      exact ⟨.bound unbound (among.imp_left fun there => fewer there),
        .inl ⟨by simp [asks, unbound], rfl⟩⟩
  | @bound c t unbound among =>
    cases h'.eq_of_bound rfl
    exact ⟨.bound unbound among, .inr ⟨asks_of_bound rfl _, rfl⟩⟩

end AtomKind

/-! ## What becomes of an operation -/

mutual

/-- What a reading may make of an operation. -/
inductive Operation.Annotated : Operation → Operation → Prop
  | mk {step step' : Untyped} {args args' : List Operation} :
      step.kind.Becomes step'.kind → step'.span = step.span →
      ArgsAnnotated (step.kind.asks step'.kind) args args' →
      Operation.Annotated (.mk step args) (.mk step' args')

/-- What a reading may make of the operands of a step, of which some types are asked. -/
inductive ArgsAnnotated : List Ty → List Operation → List Operation → Prop
  | nil {asked : List Ty} : ArgsAnnotated asked [] []
  | same {asked : List Ty} {o o' : Operation} {os os' : List Operation} :
      o.Annotated o' → ArgsAnnotated asked.tail os os' →
      ArgsAnnotated asked (o :: os) (o' :: os')
  /-- The operand is converted to the type asked for. -/
  | cast {ty : Ty} {asked : List Ty} {s : Signature} {o o' : Operation} {os os' : List Operation} :
      s.IsConversionTo ty → o.Annotated o' → ArgsAnnotated asked os os' →
      ArgsAnnotated (ty :: asked) (o :: os) (.mk (.cast s o'.span) [o'] :: os')

end

/-- What readings may make of a whole expression: its value may be converted to a type that its
context asks for. -/
inductive Operation.Fitted (asked : Ty → Prop) : Operation → Operation → Prop
  | same {o o' : Operation} : o.Annotated o' → Operation.Fitted asked o o'
  | cast {ty : Ty} {s : Signature} {o o' : Operation} :
      s.IsConversionTo ty → asked ty → Operation.Fitted asked o o' →
      Operation.Fitted asked o (.mk (.cast s o'.span) [o'])

mutual

theorem Operation.Annotated.refl : ∀ o : Operation, o.Annotated o
  | .mk _ args => .mk (.refl _) rfl (.refl args)

theorem ArgsAnnotated.refl {asked : List Ty} : ∀ os : List Operation, ArgsAnnotated asked os os
  | [] => .nil
  | o :: os => .same (.refl o) (.refl os)

end

theorem Operation.Annotated.span (h : o.Annotated o') : o'.span = o.span := by
  cases h with
  | mk _ span _ => exact span

/-- A conversion stays, and so does its place. -/
theorem Operation.Annotated.of_cast {span : Span}
    (h : Operation.Annotated (.mk (.cast s span) [o]) o') :
    ∃ o1, o.Annotated o1 ∧ o' = .mk (.cast s span) [o1] := by
  cases h with
  | @mk _ step' _ args' becomes sameSpan args =>
    have kind := becomes.eq_of_bound (t := s) rfl
    have step : step' = .cast s span := by
      cases step'
      cases kind
      cases sameSpan
      rfl
    subst step
    cases args with
    | same first others =>
      cases others
      exact ⟨_, first, rfl⟩

mutual

/-- Two readings in a row do what one may do. -/
theorem Operation.Annotated.trans :
    ∀ {o o' o'' : Operation}, o.Annotated o' → o'.Annotated o'' → o.Annotated o''
  | _, _, _, .mk becomes span args, .mk becomes' span' args' => by
    obtain ⟨whole, ⟨first, same⟩ | ⟨second, same⟩⟩ := becomes.trans becomes'
    · rw [first] at args
      exact .mk whole (span'.trans span) (same ▸ args.before args')
    · rw [second] at args'
      exact .mk whole (span'.trans span) (same ▸ args.after args')

/-- Operands that are read without conversions, then with. -/
theorem ArgsAnnotated.before :
    ∀ {asked : List Ty} {os os' os'' : List Operation}, ArgsAnnotated [] os os' →
      ArgsAnnotated asked os' os'' → ArgsAnnotated asked os os''
  | _, _, _, _, .nil, .nil => .nil
  | _, _, _, _, .same first others, .same first' others' =>
    .same (first.trans first') (others.before others')
  | _, _, _, _, .same first others, .cast conversion first' others' =>
    .cast conversion (first.trans first') (others.before others')

/-- Operands that are read with conversions, then without. -/
theorem ArgsAnnotated.after :
    ∀ {asked : List Ty} {os os' os'' : List Operation}, ArgsAnnotated asked os os' →
      ArgsAnnotated [] os' os'' → ArgsAnnotated asked os os''
  | _, _, _, _, .nil, .nil => .nil
  | _, _, _, _, .same first others, .same first' others' =>
    .same (first.trans first') (others.after others')
  | _, _, _, _, .cast conversion first others, .same first' others' => by
    obtain ⟨o1, inner, rfl⟩ := first'.of_cast
    rw [← inner.span]
    exact .cast conversion (first.trans inner) (others.after others')

end

namespace Operation.Fitted

variable {asked : Ty → Prop} {o o' o'' : Operation}

theorem then_annotated (h : o.Fitted asked o') (h' : o'.Annotated o'') : o.Fitted asked o'' := by
  induction h generalizing o'' with
  | same first => exact .same (first.trans h')
  | cast conversion wanted _ ih =>
    obtain ⟨o1, inner, rfl⟩ := h'.of_cast
    rw [← inner.span]
    exact .cast conversion wanted (ih inner)

theorem trans (h : o.Fitted asked o') (h' : o'.Fitted asked o'') : o.Fitted asked o'' := by
  induction h' with
  | same second => exact h.then_annotated second
  | cast conversion wanted _ ih => exact .cast conversion wanted (ih h)

theorem imp {asked' : Ty → Prop} (h : o.Fitted asked o') (weaker : ∀ ty, asked ty → asked' ty) :
    o.Fitted asked' o' := by
  induction h with
  | same first => exact .same first
  | cast conversion wanted _ ih => exact .cast conversion (weaker _ wanted) ih

end Operation.Fitted

/-! ## Full operations -/

theorem Signature.IsConversionTo.takes_cast (h : s.IsConversionTo ty)
    (span : Span) : (Untyped.cast s span).takes = 1 := by
  obtain ⟨source, target, -, rfl, -⟩ := h
  rfl

theorem ArgsAnnotated.length_eq {asked : List Ty}
    (h : ArgsAnnotated asked os os') : os'.length = os.length := by
  induction os generalizing asked os' with
  | nil =>
    cases h
    rfl
  | cons o os ih =>
    cases h with
    | same _ others | cast _ _ others => rw [List.length_cons, List.length_cons, ih others]

mutual

theorem Operation.Annotated.isFull : ∀ {o o' : Operation}, o.Annotated o' → o.IsFull → o'.IsFull
  | _, _, .mk becomes _ args, full => by
    exact ⟨args.length_eq.trans (full.1.trans becomes.takes.symm), args.allFull full.2⟩

theorem ArgsAnnotated.allFull :
    ∀ {asked : List Ty} {os os' : List Operation}, ArgsAnnotated asked os os' → AllFull os →
      AllFull os'
  | _, _, _, .nil, _ => by
    trivial
  | _, _, _, .same first others, full => by
    exact ⟨first.isFull full.1, others.allFull full.2⟩
  | _, _, _, .cast conversion first others, full => by
    refine ⟨?_, others.allFull full.2⟩
    exact ⟨(conversion.takes_cast _).symm, first.isFull full.1, trivial⟩

end

theorem Operation.Fitted.isFull {asked : Ty → Prop} (h : o.Fitted asked o')
    (full : o.IsFull) : o'.IsFull := by
  induction h with
  | same first => exact first.isFull full
  | cast conversion _ _ ih =>
    exact ⟨(conversion.takes_cast _).symm, ih full, trivial⟩

theorem stepsOf_append (os os' : List Operation) :
    stepsOf (os ++ os') = stepsOf os ++ stepsOf os' := by
  induction os with
  | nil => rw [List.nil_append, stepsOf, List.nil_append]
  | cons o os ih => rw [List.cons_append, stepsOf, stepsOf, ih, List.append_assoc]

theorem allFull_append : AllFull (os ++ os') ↔ AllFull os ∧ AllFull os' := by
  induction os with
  | nil => simp [AllFull]
  | cons o os ih => rw [List.cons_append, AllFull, AllFull, ih, and_assoc]

/-- A sequence in which every step finds its operands is that of some operations. -/
theorem Raises.exists_operations :
    ∀ {k : Nat}, Raises Untyped.takes k us → ∃ os, AllFull os ∧ os.length = k ∧ stepsOf os = us := by
  induction us using List.reverseRecOn with
  | nil =>
    intro k h
    cases h
    exact ⟨[], trivial, rfl, by rw [stepsOf]⟩
  | append_singleton us u ih =>
    intro k h
    rw [Raises, height?_append] at h
    obtain ⟨j, before, last⟩ := Option.bind_eq_some_iff.mp h
    simp only [EbLang.height?, Option.ite_none_right_eq_some, Option.some.injEq] at last
    obtain ⟨os, full, rfl, steps⟩ := ih before
    -- The last operations are the operands of the step.
    have split := List.take_append_drop (os.length - u.takes) os
    rw [← split, allFull_append] at full
    refine ⟨os.take (os.length - u.takes) ++ [.mk u (os.drop (os.length - u.takes))], ?_, ?_, ?_⟩
    · rw [allFull_append, AllFull, AllFull, Operation.IsFull, List.length_drop]
      exact ⟨full.1, ⟨by omega, full.2⟩, trivial⟩
    · rw [List.length_append, List.length_take, List.length_singleton]
      omega
    · rw [stepsOf_append, stepsOf, stepsOf, Operation.steps, List.append_nil, ← List.append_assoc,
        ← stepsOf_append, split, steps]

/-- A balanced expression is that of an operation. -/
theorem Balanced.exists_operation {as : List Atom} (h : Balanced Atom.takes as) :
    ∃ o : Operation, o.IsFull ∧ o.steps = as.map Atom.untyped := by
  have raises : Raises Untyped.takes 1 (as.map Atom.untyped) := by
    refine (height?_congr ?_ 0).trans h
    rw [List.map_map]
    rfl
  obtain ⟨os, full, length, steps⟩ := raises.exists_operations
  obtain ⟨o, rfl⟩ := List.length_eq_one_iff.mp length
  rw [stepsOf, stepsOf, List.append_nil] at steps
  exact ⟨o, full.1, steps⟩

/-! ## Erasing conversions -/

namespace AtomKind

/-- Whether a step calls a conversion. -/
def isCast : AtomKind → Bool
  | .call c => c.target.any fun t => t.form == .cast
  | .literal _ | .var _ _ | .member _ => false

/-- A step as it is before any reading: calls are not bound, and members have no places. -/
def bare : AtomKind → AtomKind
  | .literal l => .literal l
  | .var name binding => .var name binding
  | .call c => .call { c with candidates := [], target := none }
  | .member m => .member ⟨m.name, none⟩

/-- The step may not be a call of a conversion. -/
def CastFree : AtomKind → Prop
  | .call c => (∀ t ∈ c.target, t.form ≠ .cast) ∧ ∀ t ∈ c.candidates, t.form ≠ .cast
  | .literal _ | .var _ _ | .member _ => True

variable {k k' : AtomKind}

theorem Becomes.bare_eq (h : k.Becomes k') : k'.bare = k.bare := by
  cases h <;> rfl

theorem CastFree.isCast_eq_false (h : k.CastFree) : k.isCast = false := by
  cases k with
  | literal | var | member => rfl
  | call c =>
    rw [isCast, Option.any_eq_false]
    exact fun t there => by simpa using h.1 t there

theorem Becomes.castFree (h : k.Becomes k') (free : k.CastFree) : k'.CastFree := by
  cases h with
  | literal | var | member => trivial
  | call => exact free
  | narrowed _ fewer => exact ⟨free.1, fun t there => free.2 t (fewer there)⟩
  | @bound c t _ among =>
    have plain : t.form ≠ .cast := by
      rcases among with there | ⟨-, there⟩
      · exact free.2 t there
      · rw [Builtin.form_of_mem_operators there]
        exact FunctionForm.noConfusion
    refine ⟨?_, List.forall_mem_singleton.mpr plain⟩
    rintro _ ⟨⟩
    exact plain

end AtomKind

/-- A step as it is before any reading. -/
def Untyped.bare (u : Untyped) : Untyped := ⟨u.kind.bare, u.span⟩

/-- Some steps without calls of conversions, as they are before any reading. -/
def erased (us : List Untyped) : List Untyped :=
  (us.filter fun u => !u.kind.isCast).map Untyped.bare

theorem erased_append (us vs : List Untyped) : erased (us ++ vs) = erased us ++ erased vs := by
  rw [erased, List.filter_append, List.map_append]
  rfl

theorem erased_of_castFree (free : ∀ u ∈ us, u.kind.CastFree) :
    erased us = us.map Untyped.bare := by
  rw [erased, List.filter_eq_self.mpr]
  intro u there
  rw [(free u there).isCast_eq_false]
  rfl

theorem Signature.IsConversionTo.erased_cast (h : s.IsConversionTo ty)
    (span : Span) : erased [.cast s span] = [] := by
  obtain ⟨source, target, -, rfl, -⟩ := h
  rfl

mutual

/-- Without calls of conversions, the steps of an operation are the old ones. -/
theorem Operation.Annotated.erased_eq :
    ∀ {o o' : Operation}, o.Annotated o' → (∀ u ∈ o.steps, u.kind.CastFree) →
      erased o'.steps = erased o.steps
  | _, _, .mk becomes span args, free => by
    rw [Operation.steps, List.forall_mem_append] at free
    have last := List.forall_mem_singleton.mp free.2
    rw [Operation.steps, Operation.steps, erased_append, erased_append, args.erased_eq free.1,
      erased_of_castFree free.2,
      erased_of_castFree (List.forall_mem_singleton.mpr (becomes.castFree last)),
      List.map_singleton, List.map_singleton, Untyped.bare, Untyped.bare, becomes.bare_eq, span]

theorem ArgsAnnotated.erased_eq :
    ∀ {asked : List Ty} {os os' : List Operation}, ArgsAnnotated asked os os' →
      (∀ u ∈ stepsOf os, u.kind.CastFree) → erased (stepsOf os') = erased (stepsOf os)
  | _, _, _, .nil, _ => rfl
  | _, _, _, .same first others, free => by
    rw [stepsOf, List.forall_mem_append] at free
    rw [stepsOf, stepsOf, erased_append, erased_append, first.erased_eq free.1,
      others.erased_eq free.2]
  | _, _, _, .cast conversion first others, free => by
    rw [stepsOf, List.forall_mem_append] at free
    rw [stepsOf, stepsOf, Operation.steps, stepsOf, stepsOf, List.append_nil, erased_append,
      erased_append, erased_append, conversion.erased_cast, List.append_nil, first.erased_eq free.1,
      others.erased_eq free.2]

end

theorem Operation.Fitted.erased_eq {asked : Ty → Prop} (h : o.Fitted asked o')
    (free : ∀ u ∈ o.steps, u.kind.CastFree) : erased o'.steps = erased o.steps := by
  induction h with
  | same first => exact first.erased_eq free
  | cast conversion _ _ ih =>
    rw [Operation.steps, stepsOf, stepsOf, List.append_nil, erased_append, conversion.erased_cast,
      List.append_nil, ih free]

end EbLang
