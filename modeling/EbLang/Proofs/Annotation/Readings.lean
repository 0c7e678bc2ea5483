import EbLang.Proofs.Annotation

/-!
# Readings annotate

A reading goes through the steps of an expression from left to right and notes conversions by the
index of the step that each of them follows; they are inserted when all steps have been read.

`Progress.Annotates` says what one step may do, and every step of the three readings does it.  What a
whole reading comes to is shown along the operation that is read: its steps occupy a stretch of the
sequence, the conversions noted meanwhile stand inside this stretch and never after its last step, and
inserting them gives an annotated operation (`Stretch`).  So when a call converts an operand, the
conversion comes right after the operand and after no other conversion.
-/

namespace EbLang

variable {arg param : Ty} {cast : Signature} {e e' : Expr Atom}

/-! ## Inserting conversions -/

/-- Some steps, the first of which has index `n`, with conversions inserted. -/
def inserted (n : Nat) (us : List Untyped) (casts : List (Nat × Signature)) : List Untyped :=
  (us.zipIdx n).flatMap fun e =>
    e.1 :: ((casts.filter fun c => c.1 == e.2).reverse.map fun c => .cast c.2 e.1.span)

theorem map_untyped_insertCasts (steps : List Atom) (casts : List (Nat × Signature)) :
    (insertCasts steps casts).map Atom.untyped = inserted 0 (steps.map Atom.untyped) casts := by
  rw [insertCasts, inserted, List.map_flatMap, List.zipIdx_map, List.flatMap_map]
  refine List.flatMap_congr fun e _ => ?_
  simp only [List.map_cons, List.map_map]
  rfl

section Inserted

variable {n : Nat} {us vs : List Untyped} {casts casts' : List (Nat × Signature)}

theorem inserted_append :
    inserted n (us ++ vs) casts = inserted n us casts ++ inserted (n + us.length) vs casts := by
  rw [inserted, List.zipIdx_append, List.flatMap_append]
  rfl

/-- Only conversions after the steps themselves matter. -/
theorem inserted_congr (same : ∀ i, n ≤ i → i < n + us.length →
    (casts.filter fun c => c.1 == i) = casts'.filter fun c => c.1 == i) :
    inserted n us casts = inserted n us casts' := by
  refine List.flatMap_congr fun e there => ?_
  have index := List.mem_zipIdx there
  rw [same e.2 (by omega) (by omega)]

theorem filter_index_eq_nil {i : Nat} (other : ∀ c ∈ casts, c.1 ≠ i) :
    (casts.filter fun c => c.1 == i) = [] :=
  List.filter_eq_nil_iff.mpr fun c among => by simpa using other c among

/-- Conversions after some steps and after the steps behind them do not meet. -/
theorem inserted_append_append {ns ms ns' ms' : List (Nat × Signature)}
    (first : ∀ c ∈ ns ++ ns', c.1 < n + us.length) (second : ∀ c ∈ ms ++ ms', n + us.length ≤ c.1) :
    inserted n (us ++ vs) ((ns ++ ms) ++ (ns' ++ ms')) =
      inserted n us (ns ++ ns') ++ inserted (n + us.length) vs (ms ++ ms') := by
  rw [List.forall_mem_append] at first second
  rw [inserted_append]
  refine congrArg₂ _ (inserted_congr fun i _ lt => ?_) (inserted_congr fun i le _ => ?_)
  · have none : ∀ c ∈ ms, c.1 ≠ i := fun c among => by have := second.1 c among; omega
    have none' : ∀ c ∈ ms', c.1 ≠ i := fun c among => by have := second.2 c among; omega
    simp only [List.filter_append, filter_index_eq_nil none, filter_index_eq_nil none',
      List.append_nil]
  · have none : ∀ c ∈ ns, c.1 ≠ i := fun c among => by have := first.1 c among; omega
    have none' : ∀ c ∈ ns', c.1 ≠ i := fun c among => by have := first.2 c among; omega
    simp only [List.filter_append, filter_index_eq_nil none, filter_index_eq_nil none',
      List.nil_append]

variable (u : Untyped)

theorem inserted_singleton : inserted n [u] casts =
    u :: ((casts.filter fun c => c.1 == n).reverse.map fun c => .cast c.2 u.span) := by
  simp [inserted]

/-- The last step, if there are no conversions after it. -/
theorem inserted_concat (before : ∀ c ∈ casts, c.1 < n + us.length) :
    inserted n (us ++ [u]) casts = inserted n us casts ++ [u] := by
  have none : ∀ c ∈ casts, c.1 ≠ n + us.length := fun c among => by have := before c among; omega
  rw [inserted_append, inserted_singleton, filter_index_eq_nil none]
  rfl

end Inserted

/-! ## Stretches -/

/-- An operation is read to an annotated one: from index `n` on there are some steps, and inserting
the conversions noted, none of them after the last step, gives the annotated operation. -/
structure Stretch (n : Nat) (o o' : Operation) (us : List Untyped) (casts : List (Nat × Signature)) :
    Prop where
  annotated : o.Annotated o'
  steps : inserted n us casts = o'.steps
  nonempty : us ≠ []
  inside : ∀ c ∈ casts, n ≤ c.1 ∧ c.1 + 1 < n + us.length

namespace Stretch

variable {n : Nat} {o o' : Operation} {us : List Untyped} {casts : List (Nat × Signature)}

/-- The last step of a stretch is that of the annotated operation. -/
theorem exists_last (h : Stretch n o o' us casts) :
    ∃ front u, us = front ++ [u] ∧ o'.span = u.span ∧ inserted n front casts ++ [u] = o'.steps := by
  obtain ⟨front, u, rfl⟩ := (List.eq_nil_or_concat' us).resolve_left h.nonempty
  have before : ∀ c ∈ casts, c.1 < n + front.length := fun c among => by
    have := (h.inside c among).2
    rw [List.length_append, List.length_singleton] at this
    omega
  have steps := h.steps
  rw [inserted_concat u before] at steps
  refine ⟨front, u, rfl, ?_, steps⟩
  cases o' with
  | mk step args =>
    have last := (List.append_inj' steps rfl).2
    rw [Operation.span, List.cons.inj last |>.1]

/-- A conversion after the last step of a stretch follows the whole operation. -/
theorem inserted_cast (h : Stretch n o o' us casts) (s : Signature) :
    inserted n us (casts ++ [(n + us.length - 1, s)]) =
      (Operation.mk (.cast s o'.span) [o']).steps := by
  obtain ⟨front, u, rfl, span, steps⟩ := h.exists_last
  have length : (front ++ [u]).length = front.length + 1 := by simp
  have before : ∀ c ∈ casts, c.1 < n + front.length := fun c among => by
    have := (h.inside c among).2
    omega
  have front_eq : inserted n front (casts ++ [(n + front.length, s)]) = inserted n front casts := by
    refine inserted_congr fun i _ lt => ?_
    have other : ∀ c ∈ [(n + front.length, s)], c.1 ≠ i := by
      rw [List.forall_mem_singleton]
      exact Nat.ne_of_gt lt
    rw [List.filter_append, filter_index_eq_nil other, List.append_nil]
  have none : ∀ c ∈ casts, c.1 ≠ n + front.length := fun c among => Nat.ne_of_lt (before c among)
  rw [length, Nat.add_succ_sub_one, inserted_append, inserted_singleton, front_eq, List.filter_append,
    filter_index_eq_nil none, Operation.steps, stepsOf, stepsOf, List.append_nil, ← steps, span]
  simp

end Stretch

/-- Some operations are read one after the other; each begins at the index given for it. -/
inductive Stretches : Nat → List Operation → List Operation → List Untyped →
    List (Nat × Signature) → List Nat → Prop
  | nil {n : Nat} : Stretches n [] [] [] [] []
  | cons {n : Nat} {o o' : Operation} {os os' : List Operation} {us us' : List Untyped}
      {casts casts' : List (Nat × Signature)} {starts : List Nat} :
      Stretch n o o' us casts → Stretches (n + us.length) os os' us' casts' starts →
      Stretches n (o :: os) (o' :: os') (us ++ us') (casts ++ casts') (n :: starts)

/-- The conversions that some operands get, each after the last step of its operand: that is before
the first step of the next one, or before the step that takes them. -/
def castEnds (stop : Nat) : List Nat → List (Option Signature) → List (Nat × Signature)
  | _ :: starts, cast :: cs =>
    (cast.toList.map fun s => (starts.head?.getD stop - 1, s)) ++ castEnds stop starts cs
  | [], _ | _, [] => []

/-- The conversions are to the types asked for, in order. -/
def Conversions : List (Option Signature) → List Ty → Prop
  | [], _ => True
  | cast :: cs, asked => (∀ s ∈ cast, ∃ ty ∈ asked.head?, s.IsConversionTo ty) ∧
      Conversions cs asked.tail

/-- The first operand with its conversion. -/
theorem Stretch.convert {n : Nat} {o o' : Operation} {us : List Untyped}
    {casts : List (Nat × Signature)} (h : Stretch n o o' us casts) {cast : Option Signature}
    {asked : List Ty} (conversion : ∀ s ∈ cast, ∃ ty ∈ asked.head?, s.IsConversionTo ty) :
    ∃ o1, inserted n us (casts ++ cast.toList.map fun s => (n + us.length - 1, s)) =
        Operation.steps o1 ∧
      ∀ os os1, ArgsAnnotated asked.tail os os1 → ArgsAnnotated asked (o :: os) (o1 :: os1) := by
  cases cast with
  | none =>
    refine ⟨o', ?_, fun os os1 => .same h.annotated⟩
    rw [Option.toList_none, List.map_nil, List.append_nil, h.steps]
  | some s =>
    obtain ⟨ty, asks, isConversion⟩ := conversion s rfl
    obtain ⟨others, rfl⟩ := List.head?_eq_some_iff.mp asks
    exact ⟨_, h.inserted_cast s, fun os os1 => .cast isConversion h.annotated⟩

namespace Stretches

variable {n : Nat} {os os' : List Operation} {us : List Untyped} {casts : List (Nat × Signature)}
  {starts : List Nat}

theorem length_starts (h : Stretches n os os' us casts starts) : starts.length = os.length := by
  induction h with
  | nil => rfl
  | cons _ _ ih => rw [List.length_cons, List.length_cons, ih]

theorem inside (h : Stretches n os os' us casts starts) :
    ∀ c ∈ casts, n ≤ c.1 ∧ c.1 < n + us.length := by
  induction h with
  | nil => exact List.forall_mem_nil _
  | cons first _ ih =>
    rw [List.length_append]
    refine List.forall_mem_append.mpr ⟨fun c among => ?_, fun c among => ?_⟩
    · have := first.inside c among
      omega
    · have := ih c among
      omega

/-- The operations begin where their steps do. -/
theorem head?_starts (h : Stretches n os os' us casts starts) :
    starts.head?.getD (n + us.length) = n := by
  cases h <;> rfl

variable {cs : List (Option Signature)}

theorem exists_castEnds (stop start : Nat) (starts : List Nat)
    {asked : List Ty} (h : Conversions cs asked) :
    ∃ (cast : Option Signature) (rest : List (Option Signature)),
      castEnds stop (start :: starts) cs =
        (cast.toList.map fun s => (starts.head?.getD stop - 1, s)) ++ castEnds stop starts rest ∧
      (∀ s ∈ cast, ∃ ty ∈ asked.head?, s.IsConversionTo ty) ∧ Conversions rest asked.tail := by
  cases cs with
  | nil =>
    refine ⟨none, [], by cases starts <;> rfl, fun s there => ?_, trivial⟩
    exact absurd there (Option.not_mem_none s)
  | cons cast rest => exact ⟨cast, rest, rfl, h.1, h.2⟩

/-- Operands with their conversions. -/
theorem convert (h : Stretches n os os' us casts starts) :
    ∀ {cs : List (Option Signature)} {asked : List Ty}, Conversions cs asked →
      ∃ os1, ArgsAnnotated asked os os1 ∧
        inserted n us (casts ++ castEnds (n + us.length) starts cs) = stepsOf os1 ∧
        ∀ c ∈ castEnds (n + us.length) starts cs, n ≤ c.1 ∧ c.1 < n + us.length := by
  induction h with
  | nil =>
    intro cs asked _
    refine ⟨[], .nil, by rw [stepsOf]; rfl, ?_⟩
    cases cs <;> exact List.forall_mem_nil _
  | @cons n o o' os os' us us' casts casts' starts first others ih =>
    intro cs asked conversions
    have long : 0 < us.length := List.length_pos_of_ne_nil first.nonempty
    have start := others.head?_starts
    rw [List.length_append, ← Nat.add_assoc]
    obtain ⟨cast, rest, ends, conversion, inner⟩ :=
      exists_castEnds (n + us.length + us'.length) n starts conversions
    rw [start] at ends
    rw [ends]
    -- The conversion of the first operand stands before its end, all the others behind it.
    obtain ⟨o1, steps, annotated⟩ := first.convert conversion
    obtain ⟨os1, annotated', steps', place⟩ := ih inner
    have here : ∀ c ∈ cast.toList.map fun s => (n + us.length - 1, s),
        n ≤ c.1 ∧ c.1 < n + us.length := by
      intro c among
      obtain ⟨s, -, rfl⟩ := List.mem_map.mp among
      omega
    refine ⟨o1 :: os1, annotated os os1 annotated', ?_, List.forall_mem_append.mpr ⟨?_, ?_⟩⟩
    · rw [inserted_append_append, steps, steps', stepsOf]
      · refine List.forall_mem_append.mpr ⟨fun c among => ?_, fun c among => (here c among).2⟩
        have := first.inside c among
        omega
      · exact List.forall_mem_append.mpr
          ⟨fun c among => (others.inside c among).1, fun c among => (place c among).1⟩
    · intro c among
      have := here c among
      omega
    · intro c among
      have := place c among
      omega

/-- A step that takes some operations and what becomes of it, with the conversions of its operands. -/
theorem close (h : Stretches n os os' us casts starts) {u : Untyped} {kind : AtomKind}
    (becomes : u.kind.Becomes kind) (conversions : Conversions cs (u.kind.asks kind)) :
    ∃ o', Stretch n (.mk u os) o' (us ++ [⟨kind, u.span⟩])
      (casts ++ castEnds (n + us.length) starts cs) := by
  obtain ⟨os1, annotated, steps, place⟩ := h.convert conversions
  have inside : ∀ c ∈ casts ++ castEnds (n + us.length) starts cs,
      n ≤ c.1 ∧ c.1 < n + us.length := List.forall_mem_append.mpr ⟨h.inside, place⟩
  refine ⟨.mk ⟨kind, u.span⟩ os1, .mk becomes rfl annotated, ?_, by simp, fun c among => ?_⟩
  · rw [inserted_concat _ fun c among => (inside c among).2, steps, Operation.steps]
  · have := inside c among
    rw [List.length_append, List.length_singleton]
    omega

end Stretches

/-! ## What one step may do -/

theorem Overload.isConversionTo_of_widening?
    (h : widening? arg param = some cast) : cast.IsConversionTo param := by
  simp only [widening?, Builtin.cast?, Option.bind_eq_bind, Option.bind_eq_some_iff,
    Option.ite_none_right_eq_some, Option.some.injEq] at h
  obtain ⟨source, -, target, prim, widens, rfl⟩ := h
  exact ⟨source, target, widens, rfl, Ty.eq_ofPrim_of_prim? prim⟩

theorem Overload.isConversionTo_of_castFor
    (h : castFor arg param = some cast) : cast.IsConversionTo param := by
  unfold castFor at h
  split at h
  next => cases h
  next => exact isConversionTo_of_widening? h

/-- An operator is put off with some of its candidates. -/
theorem Overload.subset_of_resolve_deferred {name : String} {named : List String}
    {candidates left : List Signature} {args : List Ty} {merged : Ty}
    (h : resolve name named candidates args = .ok (.deferred merged left)) : left ⊆ candidates := by
  unfold resolve at h
  split at h
  next => cases h
  next => cases h
  next =>
    split at h
    next =>
      split at h
      next =>
        cases h
        intro s member
        obtain ⟨v, among, rfl⟩ := List.mem_map.mp member
        exact (of_mem_viable (mem_of_mem_cheapest (mem_of_mem_breakTie among))).1
      next => cases h
    next => cases h

theorem conversions_castFor : ∀ args params : List Ty,
    Conversions (List.zipWith Overload.castFor args params) params
  | [], _ | _ :: _, [] => True.intro
  | arg :: args, param :: params => by
    exact ⟨fun s there => ⟨param, rfl, Overload.isConversionTo_of_castFor there⟩,
      conversions_castFor args params⟩

namespace Progress

/-- Some types are narrowed and some conversions noted. -/
structure Notes (p : Progress) (casts : List (Nat × Signature)) (p' : Progress) : Prop where
  done : p'.done.map Atom.untyped = p.done.map Atom.untyped
  casts : p'.casts = p.casts ++ casts

/-- What a step may do: it becomes one of the things a reading may make of it, takes its operands
with conversions to the types it asks for and leaves one value. -/
structure Annotates (p : Progress) (a : Atom) (kind : AtomKind) (cs : List (Option Signature))
    (p' : Progress) : Prop where
  becomes : a.kind.Becomes kind
  conversions : Conversions cs (a.kind.asks kind)
  done : p'.done.map Atom.untyped = p.done.map Atom.untyped ++ [⟨kind, a.span⟩]
  casts : p'.casts =
    p.casts ++ castEnds p.index ((p.stack.take a.takes).reverse.map Operand.start) cs
  stack : p'.stack.map Operand.start =
    p.startOf (p.stack.take a.takes).reverse :: (p.stack.drop a.takes).map Operand.start

variable {p p' p'' : Progress} {casts casts' : List (Nat × Signature)}
variable {args rest : List Operand}

theorem Notes.refl (p : Progress) : p.Notes [] p := ⟨rfl, (List.append_nil _).symm⟩

theorem Notes.trans (h : p.Notes casts p') (h' : p'.Notes casts' p'') :
    p.Notes (casts ++ casts') p'' :=
  ⟨h'.done.trans h.done, by rw [h'.casts, h.casts, List.append_assoc]⟩

theorem Notes.index_eq (h : p.Notes casts p') : p'.index = p.index := by
  have length := congrArg List.length h.done
  rwa [List.length_map, List.length_map] at length

theorem notes_addCast (p : Progress) (after : Nat) (cast : Signature) :
    p.Notes [(after, cast)] (p.addCast after cast) := ⟨rfl, rfl⟩

theorem notes_narrow (p : Progress) (cells : List Cell) (ty : Ty) :
    Ensures (p.narrow cells ty) (p.Notes []) := by
  refine ensures_then fun scopes => ensures_then fun _ => ensures_pure ⟨?_, (List.append_nil _).symm⟩
  exact map_narrowCells (fun _ _ => rfl) cells ty p.done scopes

theorem notes_narrowAll (p : Progress) (args : List Operand) (ty : Ty) :
    Ensures (p.narrowAll args ty) (p.Notes []) :=
  ensures_foldlM (.refl p) fun q arg _ notes =>
    ensures_imp (notes_narrow q arg.cells ty) fun _ notes' => notes.trans notes'

theorem castEnds_nil (stop : Nat) (starts : List Nat) : castEnds stop starts [] = [] := by
  cases starts <;> rfl

/-- Fitting operands notes the conversions they need, each after its operand. -/
theorem notes_fit : ∀ (p : Progress) (args : List Operand) (cs : List (Option Signature))
    (params : List Ty), cs.length ≤ params.length →
      Ensures (p.fit args cs params) (p.Notes (castEnds p.index (args.map Operand.start) cs))
  | p, [], cs, params, _ => by
    refine ensures_pure ?_
    cases cs <;> exact .refl p
  | p, arg :: args, [], params, _ => by
    exact ensures_pure (.refl p)
  | p, arg :: args, cast :: cs, [], short => by
    cases short
  | p, arg :: args, cast :: cs, param :: params, short => by
    rw [fit_cons, List.map_cons, castEnds]
    refine ensures_bind (P := p.Notes (cast.toList.map fun s =>
      ((args.map Operand.start).head?.getD p.index - 1, s))) ?_ fun q notes => ?_
    · cases cast with
      | none => exact notes_narrow p arg.cells param
      | some cast =>
        rw [List.head?_map]
        exact ensures_pure (notes_addCast p _ cast)
    refine ensures_imp (notes_fit q args cs params (Nat.le_of_succ_le_succ short)) fun r notes' => ?_
    rw [notes.index_eq] at notes'
    exact notes.trans notes'

/-- Reading a step after what it needs has been noted. -/
theorem Notes.push {a b : Atom} {o : Operand}
    {cs : List (Option Signature)}
    (h : p.Notes (castEnds p.index (args.map Operand.start) cs) p')
    (taken : args = (p.stack.take a.takes).reverse) (left : rest = p.stack.drop a.takes)
    (becomes : a.kind.Becomes b.kind) (span : b.span = a.span)
    (conversions : Conversions cs (a.kind.asks b.kind)) (start : o.start = p.startOf args) :
    p.Annotates a b.kind cs (p'.push b o rest) where
  becomes := becomes
  conversions := conversions
  done := by
    rw [Progress.push, List.map_append, h.done, ← span]
    rfl
  casts := by
    rw [← taken]
    exact h.casts
  stack := by
    rw [← taken, ← left, ← start]
    rfl

/-- Reading a step that stays as it is. -/
theorem Notes.push_same {a b : Atom} {o : Operand} (h : p.Notes [] p')
    (taken : args = (p.stack.take a.takes).reverse) (left : rest = p.stack.drop a.takes)
    (kind : b.kind = a.kind) (span : b.span = a.span) (start : o.start = p.startOf args) :
    p.Annotates a b.kind [] (p'.push b o rest) := by
  refine Notes.push (castEnds_nil _ _ ▸ h) taken left ?_ span trivial start
  rw [kind]
  exact .refl a.kind

/-- Binding a call to one of the functions it may be of. -/
theorem annotates_bindCall {a : Atom} {c : Call} {target : Signature}
    {candidates : List Signature} {cs : List (Option Signature)} (kind : a.kind = .call c)
    (unbound : c.target = none)
    (resolved : Overload.resolve c.name c.named candidates (args.map Operand.ty) =
      .ok (.resolved target cs)) (among : target ∈ candidates →
      target ∈ c.candidates ∨ c.isOperator = true ∧ target ∈ Builtin.operators c.name c.arity)
    (taken : args = (p.stack.take a.takes).reverse) (left : rest = p.stack.drop a.takes) :
    Ensures (p.bindCall a c args rest target cs) fun p' =>
      ∃ kind cs, p.Annotates a kind cs p' := by
  obtain ⟨params, candidate, asked, rfl, -⟩ := Overload.of_resolve_resolved resolved
  unfold Progress.bindCall
  rw [asked, Option.getD_some]
  have short : (List.zipWith Overload.castFor (args.map Operand.ty) params).length ≤
      params.length := by
    rw [List.length_zipWith]
    exact Nat.min_le_right _ _
  refine ensures_bind (notes_fit p args _ params short) fun q notes => ?_
  refine ensures_pure ⟨_, _, notes.push taken left ?_ rfl ?_ ?_⟩
  · rw [kind]
    exact .bound unbound (among candidate)
  · rw [kind, AtomKind.asks, unbound]
    dsimp only
    rw [asked]
    exact conversions_castFor _ params
  · rw [startOf, startOf, notes.index_eq]

end Progress

/-- Every step of a reading does what a step may do. -/
def Annotating (step : Progress → Atom → Walk Progress) : Prop :=
  ∀ p a, Ensures (step p a) fun p' => ∃ kind cs, p.Annotates a kind cs p'

namespace Progress

variable {p : Progress} {a : Atom}

/-- A step that takes nothing and stays as it is. -/
theorem annotates_leaf {b : Atom} {o : Operand} (none : a.takes = 0) (kind : b.kind = a.kind)
    (span : b.span = a.span) (start : o.start = p.index) :
    p.Annotates a b.kind [] (p.push b o p.stack) := by
  have taken : [] = (p.stack.take a.takes).reverse := by
    rw [none]
    rfl
  have left : p.stack = p.stack.drop a.takes := by rw [none, List.drop_zero]
  exact (Notes.refl p).push_same taken left kind span start

/-- A step that takes one value takes the last one. -/
theorem take_one {base : Operand} {rest : List Operand} (one : a.takes = 1)
    (stack : p.stack = base :: rest) :
    [base] = (p.stack.take a.takes).reverse ∧ rest = p.stack.drop a.takes := by
  rw [one, stack]
  exact ⟨rfl, rfl⟩

theorem annotates_pushVar {name : String} {binding : Option Binding}
    (kind : a.kind = .var name binding) :
    Ensures (p.pushVar a name binding) fun p' => ∃ kind cs, p.Annotates a kind cs p' := by
  unfold pushVar
  split
  next => exact Walk.ensures_failAt
  next =>
    refine ensures_then fun scopes => ensures_pure ⟨_, _, annotates_leaf ?_ rfl rfl rfl⟩
    rw [Atom.takes, kind]

end Progress

namespace Check

theorem annotates_call {p : Progress} {a : Atom} {c : Call} (kind : a.kind = .call c) :
    Ensures (call p a c) fun p' => ∃ kind cs, p.Annotates a kind cs p' := by
  have takes : c.argCount = a.takes := by rw [Atom.takes, kind]
  unfold call
  split
  next => exact Walk.ensures_failAt
  next args rest operands =>
    obtain ⟨taken, left⟩ := Progress.of_operands? operands
    rw [takes] at taken left
    split
    next => exact ensures_pure ⟨_, _, (Progress.Notes.refl p).push_same taken left rfl rfl rfl⟩
    next unbound =>
      refine ensures_bind Walk.ensures_located fun resolution resolved => ?_
      split
      next => exact Progress.annotates_bindCall kind unbound resolved .inl taken left
      next merged candidates =>
        have becomes : a.kind.Becomes (.call { c with candidates }) := by
          rw [kind]
          exact .narrowed unbound (Overload.subset_of_resolve_deferred resolved)
        refine ensures_bind (Progress.notes_narrowAll p args merged) fun q notes => ?_
        rw [← Progress.castEnds_nil p.index (args.map Operand.start)] at notes
        have start : q.startOf args = p.startOf args := by
          rw [Progress.startOf, Progress.startOf, notes.index_eq]
        split
        next =>
          exact ensures_pure ⟨_, _, notes.push taken left becomes rfl trivial start⟩
        next => exact ensures_pure ⟨_, _, notes.push taken left becomes rfl trivial start⟩

theorem annotating_step (structs : StructTable) : Annotating (step structs) := by
  intro p a
  unfold step
  split
  next kind =>
    refine ensures_pure ⟨_, _, Progress.annotates_leaf ?_ rfl rfl rfl⟩
    rw [Atom.takes, kind]
  next kind => exact Progress.annotates_pushVar kind
  next kind => exact annotates_call kind
  next m kind =>
    split
    next => exact Walk.ensures_failAt
    next base rest stack =>
      obtain ⟨taken, left⟩ := Progress.take_one (by rw [Atom.takes, kind]) stack
      split
      next => exact Walk.ensures_failAt
      next index ty _ =>
        have notes : p.Notes (castEnds p.index ([base].map Operand.start) []) p := .refl p
        refine ensures_pure ⟨_, _, notes.push taken left ?_ rfl trivial rfl⟩
        rw [kind]
        exact .member m.name m.index _

end Check

namespace Complete

theorem annotates_bind {p : Progress} {a : Atom} {c : Call} {args rest : List Operand}
    (kind : a.kind = .call c) (unbound : c.target = none)
    (taken : args = (p.stack.take a.takes).reverse) (left : rest = p.stack.drop a.takes) :
    Ensures (bind p a c args rest) fun p' => ∃ kind cs, p.Annotates a kind cs p' := by
  refine ensures_bind Walk.ensures_located fun resolution resolved => ?_
  split
  next target _ =>
    refine Progress.annotates_bindCall kind unbound resolved (fun among => ?_) taken left
    split at among
    next operator => exact .inr ⟨operator, among⟩
    next => exact .inl among
  next => exact Walk.ensures_failAt

theorem annotates_call {p : Progress} {a : Atom} {c : Call} (kind : a.kind = .call c) :
    Ensures (call p a c) fun p' => ∃ kind cs, p.Annotates a kind cs p' := by
  have takes : c.argCount = a.takes := by rw [Atom.takes, kind]
  unfold call
  split
  next => exact Walk.ensures_failAt
  next args rest operands =>
    obtain ⟨taken, left⟩ := Progress.of_operands? operands
    rw [takes] at taken left
    split
    next => exact ensures_pure ⟨_, _, (Progress.Notes.refl p).push_same taken left rfl rfl rfl⟩
    next =>
      split
      next => exact Walk.ensures_failAt
      next settled _ =>
        refine ensures_bind (Progress.notes_narrowAll p args settled) fun q notes => ?_
        refine ensures_pure ⟨_, _, notes.push_same taken left rfl rfl ?_⟩
        rw [Progress.startOf, Progress.startOf, notes.index_eq]
    next => exact ensures_pure ⟨_, _, (Progress.Notes.refl p).push_same taken left rfl rfl rfl⟩
    next => exact ensures_pure ⟨_, _, (Progress.Notes.refl p).push_same taken left rfl rfl rfl⟩
    next unbound _ _ => exact annotates_bind kind unbound taken left

theorem annotating_step : Annotating step := by
  intro p a
  unfold step
  split
  next kind =>
    refine ensures_pure ⟨_, _, Progress.annotates_leaf ?_ rfl rfl rfl⟩
    rw [Atom.takes, kind]
  next kind => exact Progress.annotates_pushVar kind
  next kind => exact annotates_call kind
  next m kind =>
    split
    next => exact Walk.ensures_failAt
    next base rest stack =>
      obtain ⟨taken, left⟩ := Progress.take_one (by rw [Atom.takes, kind]) stack
      exact ensures_pure ⟨_, _, (Progress.Notes.refl p).push_same taken left rfl rfl rfl⟩

theorem annotating_finishStep : Annotating finishStep := by
  intro p a
  unfold finishStep
  split
  next kind =>
    refine ensures_pure ⟨_, _, Progress.annotates_leaf ?_ rfl rfl rfl⟩
    rw [Atom.takes, kind]
  next kind =>
    refine ensures_pure ⟨_, _, Progress.annotates_leaf ?_ rfl rfl rfl⟩
    rw [Atom.takes, kind]
  next kind =>
    refine ensures_then fun scopes => ensures_pure ⟨_, _, Progress.annotates_leaf ?_ rfl rfl rfl⟩
    rw [Atom.takes, kind]
  next kind =>
    have one : a.takes = 1 := by rw [Atom.takes, kind]
    refine ensures_pure ⟨_, _, (Progress.Notes.refl p).push_same rfl ?_ rfl rfl ?_⟩
    · rw [one, List.drop_one]
    · rw [one, Progress.startOf]
      cases p.stack <;> rfl
  next c kind =>
    have takes : c.argCount = a.takes := by rw [Atom.takes, kind]
    rw [takes]
    split
    next => exact ensures_pure ⟨_, _, (Progress.Notes.refl p).push_same rfl rfl rfl rfl rfl⟩
    next unbound => exact annotates_bind kind unbound rfl rfl

end Complete

/-! ## Whole readings -/

namespace Progress

/-- Some steps are read and some conversions noted; the values added begin at the given indices. -/
structure Grows (p : Progress) (us : List Untyped) (casts : List (Nat × Signature))
    (starts : List Nat) (p' : Progress) : Prop where
  done : p'.done.map Atom.untyped = p.done.map Atom.untyped ++ us
  casts : p'.casts = p.casts ++ casts
  stack : p'.stack.map Operand.start = starts.reverse ++ p.stack.map Operand.start

namespace Grows

variable {p p' p'' : Progress} {us us' : List Untyped} {casts casts' : List (Nat × Signature)}
  {starts starts' : List Nat}

theorem refl (p : Progress) : p.Grows [] [] [] p :=
  ⟨(List.append_nil _).symm, (List.append_nil _).symm, rfl⟩

theorem trans (h : p.Grows us casts starts p') (h' : p'.Grows us' casts' starts' p'') :
    p.Grows (us ++ us') (casts ++ casts') (starts ++ starts') p'' where
  done := by rw [h'.done, h.done, List.append_assoc]
  casts := by rw [h'.casts, h.casts, List.append_assoc]
  stack := by rw [h'.stack, h.stack, List.reverse_append, List.append_assoc]

theorem index_eq (h : p.Grows us casts starts p') : p'.index = p.index + us.length := by
  have length := congrArg List.length h.done
  rwa [List.length_map, List.length_append, List.length_map] at length

/-- A step takes the values added. -/
theorem close (h : p.Grows us casts starts p') {a : Atom} {kind : AtomKind}
    {cs : List (Option Signature)} (annotates : p'.Annotates a kind cs p'')
    (takes : starts.length = a.takes) :
    p.Grows (us ++ [⟨kind, a.span⟩]) (casts ++ castEnds (p.index + us.length) starts cs)
      [starts.head?.getD (p.index + us.length)] p'' := by
  have taken : (p'.stack.take a.takes).reverse.map Operand.start = starts := by
    rw [List.map_reverse, List.map_take, h.stack, ← takes, ← List.length_reverse, List.take_left,
      List.reverse_reverse]
  have left : (p'.stack.drop a.takes).map Operand.start = p.stack.map Operand.start := by
    rw [List.map_drop, h.stack, ← takes, ← List.length_reverse, List.drop_left]
  refine ⟨?_, ?_, ?_⟩
  · rw [annotates.done, h.done, List.append_assoc]
  · rw [annotates.casts, h.casts, taken, h.index_eq, List.append_assoc]
  · rw [annotates.stack, left, startOf, ← List.head?_map, taken, h.index_eq]
    rfl

end Grows

end Progress

namespace Annotating

variable {step : Progress → Atom → Walk Progress}

mutual

/-- Reading an operation gives a stretch of it. -/
theorem ensures_operation (h : Annotating step) :
    ∀ (o : Operation), o.IsFull → ∀ {as : List Atom} {p : Progress}, as.map Atom.untyped = o.steps →
      Ensures (as.foldlM step p) fun p' =>
        ∃ o' us casts, Stretch p.index o o' us casts ∧ p.Grows us casts [p.index] p'
  | .mk u args, full, as, p, steps => by
    obtain ⟨before, last, rfl, front, back⟩ := List.map_eq_append_iff.mp steps
    obtain ⟨a, rfl, rfl⟩ := List.map_eq_singleton_iff.mp back
    rw [List.foldlM_append]
    refine ensures_bind (ensures_operations h args full.2 front) ?_
    rintro q ⟨args', us, casts, starts, stretches, grows⟩
    refine ensures_bind (h q a) ?_
    rintro r ⟨kind, cs, annotates⟩
    obtain ⟨o', stretch⟩ := stretches.close (u := a.untyped) annotates.becomes annotates.conversions
    have grows' := grows.close annotates (stretches.length_starts.trans full.1)
    rw [stretches.head?_starts] at grows'
    exact ensures_pure ⟨o', _, _, stretch, grows'⟩

theorem ensures_operations (h : Annotating step) :
    ∀ (os : List Operation), AllFull os → ∀ {as : List Atom} {p : Progress},
      as.map Atom.untyped = stepsOf os → Ensures (as.foldlM step p) fun p' =>
        ∃ os' us casts starts, Stretches p.index os os' us casts starts ∧ p.Grows us casts starts p'
  | [], _, as, p, steps => by
    rw [stepsOf, List.map_eq_nil_iff] at steps
    rw [steps, List.foldlM_nil]
    exact ensures_pure ⟨[], [], [], [], .nil, .refl p⟩
  | o :: os, full, as, p, steps => by
    obtain ⟨before, after, rfl, front, back⟩ := List.map_eq_append_iff.mp steps
    rw [List.foldlM_append]
    refine ensures_bind (ensures_operation h o full.1 front) ?_
    rintro q ⟨o', us, casts, stretch, grows⟩
    refine ensures_imp (ensures_operations h os full.2 back) ?_
    rintro r ⟨os', us', casts', starts, stretches, grows'⟩
    rw [grows.index_eq] at stretches
    exact ⟨o' :: os', us ++ us', casts ++ casts', p.index :: starts, .cons stretch stretches,
      grows.trans grows'⟩

end

end Annotating

/-! ## Expressions -/

theorem Walk.ensures_forall {ι : Sort*} {α : Type} {x : Walk α} {P : ι → α → Prop}
    (h : ∀ i, Ensures x (P i)) : Ensures x fun a => ∀ i, P i a :=
  fun s a gives i => h i s a gives

/-- What readings may make of some steps, of whose value some types are asked. -/
def Turns (asked : Ty → Prop) (as as' : List Atom) : Prop :=
  ∀ o : Operation, o.IsFull → o.steps = as.map Atom.untyped →
    ∃ o', o.Fitted asked o' ∧ o'.steps = as'.map Atom.untyped

namespace Turns

variable {asked asked' : Ty → Prop} {as as' as'' : List Atom}

theorem trans (h : Turns asked as as') (h' : Turns asked as' as'') : Turns asked as as'' := by
  intro o full steps
  obtain ⟨o', fitted, steps'⟩ := h o full steps
  obtain ⟨o'', fitted', steps''⟩ := h' o' (fitted.isFull full) steps'
  exact ⟨o'', fitted.trans fitted', steps''⟩

theorem imp (h : Turns asked as as') (weaker : ∀ ty, asked ty → asked' ty) : Turns asked' as as' := by
  intro o full steps
  obtain ⟨o', fitted, steps'⟩ := h o full steps
  exact ⟨o', fitted.imp weaker, steps'⟩

end Turns

/-- What readings may make of an expression, of whose value some types are asked. -/
def Expr.Turns (asked : Ty → Prop) (e e' : Expr Atom) : Prop :=
  e'.span = e.span ∧ EbLang.Turns asked e.terms e'.terms

theorem Expr.Turns.refl {asked : Ty → Prop} (e : Expr Atom) : e.Turns asked e :=
  ⟨rfl, fun o _ steps => ⟨o, .same (.refl o), steps⟩⟩

theorem Expr.Turns.imp {asked asked' : Ty → Prop} (h : e.Turns asked e')
    (weaker : ∀ ty, asked ty → asked' ty) : e.Turns asked' e' :=
  ⟨h.1, h.2.imp weaker⟩

theorem Expr.Turns.trans {asked : Ty → Prop} {e'' : Expr Atom} (h : e.Turns asked e')
    (h' : e'.Turns asked e'') : e.Turns asked e'' :=
  ⟨h'.1.trans h.1, h.2.trans h'.2⟩

instance {asked : Ty → Prop} : IsTrans (Expr Atom) (Expr.Turns asked) :=
  ⟨fun _ _ _ => Expr.Turns.trans⟩

namespace Progress

/-- Some steps have been read to the end. -/
def Covers (p : Progress) (as : List Atom) : Prop :=
  ∀ o : Operation, o.IsFull → o.steps = as.map Atom.untyped →
    ∃ o', Stretch 0 o o' (p.done.map Atom.untyped) p.casts

/-- The value of an expression is made to fit: types are narrowed, and a conversion to the type asked
for may be noted after the last step. -/
def Fits (p : Progress) (asked : Ty → Prop) (p' : Progress) : Prop :=
  p.Notes [] p' ∨ ∃ ty cast, asked ty ∧ Signature.IsConversionTo cast ty ∧
    p.Notes [(p.index - 1, cast)] p'

variable {p p' p'' : Progress} {asked : Ty → Prop} {as : List Atom}

theorem Fits.refl (p : Progress) : p.Fits asked p := .inl (.refl p)

theorem Fits.then_notes (h : p.Fits asked p') (notes : p'.Notes [] p'') : p.Fits asked p'' := by
  rcases h with before | ⟨ty, cast, wanted, conversion, before⟩
  · exact .inl (before.trans notes)
  · exact .inr ⟨ty, cast, wanted, conversion, before.trans notes⟩

theorem Covers.turns (h : p.Covers as) (fits : p.Fits asked p') : Turns asked as p'.steps := by
  intro o full steps
  obtain ⟨o', stretch⟩ := h o full steps
  rw [Progress.steps, map_untyped_insertCasts]
  rcases fits with notes | ⟨ty, cast, wanted, conversion, notes⟩
  · refine ⟨o', .same stretch.annotated, ?_⟩
    rw [notes.done, notes.casts, List.append_nil, stretch.steps]
  · refine ⟨_, .cast conversion wanted (.same stretch.annotated), ?_⟩
    rw [← stretch.inserted_cast, notes.done, notes.casts, List.length_map, Nat.zero_add]
    rfl

theorem fits_apply (p : Progress) (top : Operand) (expected : Ty) (position : Position) :
    Ensures (p.apply top expected position) fun r => p.Fits (· = expected) r.2 := by
  unfold apply
  split
  next merged _ =>
    exact ensures_bind (notes_narrow p top.cells merged) fun q notes => ensures_pure (.inl notes)
  next =>
    split
    next cast widens =>
      exact ensures_pure (.inr ⟨expected, cast, rfl, Overload.isConversionTo_of_widening? widens,
        notes_addCast p _ cast⟩)
    next => exact Walk.ensures_failAt

end Progress

theorem Annotating.covers {step : Progress → Atom → Walk Progress} (h : Annotating step)
    (as : List Atom) : Ensures (as.foldlM step {}) (Progress.Covers · as) := by
  refine Walk.ensures_forall fun o => Walk.ensures_forall fun full =>
    Walk.ensures_forall fun steps => ?_
  refine ensures_imp (h.ensures_operation o full steps.symm) ?_
  rintro p ⟨o', us, casts, stretch, grows⟩
  rw [grows.done, grows.casts]
  exact ⟨o', stretch⟩

/-- Checking an expression may bind calls and insert conversions, in the end one to the type that the
context asks for. -/
theorem Check.turns_expr (structs : StructTable) (e : Expr Atom) (expected : Option Ty) :
    Ensures (expr structs e expected) fun r => e.Turns (· ∈ expected) r.2 := by
  refine ensures_bind ((annotating_step structs).covers e.terms) fun p covers => ?_
  split
  next top _ =>
    split
    next expected =>
      refine ensures_bind (p.fits_apply top expected e.span.start) fun r fits => ?_
      refine ensures_pure ⟨rfl, ?_⟩
      exact (covers.turns fits).imp fun ty => by rintro rfl; rfl
    next => exact ensures_pure ⟨rfl, covers.turns (.refl p)⟩
  next => exact Walk.ensures_failAt

namespace Complete

variable (p : Progress) (top : Operand)

theorem fits_fitTop (expected : Option Ty) (position : Position) :
    Ensures (fitTop p top expected position) fun r => p.Fits (· ∈ expected) r.2 := by
  cases expected with
  | none => exact ensures_pure (.refl p)
  | some expected =>
    refine ensures_imp (p.fits_apply top expected position) fun r fits => ?_
    refine fits.imp_right ?_
    rintro ⟨ty, cast, rfl, noted⟩
    exact ⟨ty, cast, rfl, noted⟩

theorem notes_settleTop (ty : Ty) (position : Position) :
    Ensures (settleTop p top ty position) (p.Notes []) := by
  unfold settleTop
  split
  next => exact ensures_pure (.refl p)
  next =>
    split
    next => exact Walk.ensures_failAt
    next settled _ => exact p.notes_narrow top.cells settled

theorem turns_settle (e : Expr Atom) (expected : Option Ty) :
    Ensures (settle e expected) (Turns (· ∈ expected) e.terms) := by
  refine ensures_bind (annotating_step.covers e.terms) fun p covers => ?_
  split
  next => exact Walk.ensures_failAt
  next top _ _ =>
    refine ensures_bind (fits_fitTop p top expected e.span.start) fun r fits => ?_
    refine ensures_bind (notes_settleTop r.2 top r.1 e.span.start) fun q notes => ensures_pure ?_
    exact covers.turns (fits.then_notes notes)

theorem turns_finish (steps : List Atom) (asked : Ty → Prop) :
    Ensures (finish steps) (Turns asked steps) := by
  refine ensures_bind (annotating_finishStep.covers steps) fun p covers => ?_
  exact ensures_then fun _ => ensures_pure (covers.turns (.refl p))

/-- Settling an expression may bind calls and insert conversions, at the end of the expression one to
the type that the context asks for. -/
theorem turns_expr (e : Expr Atom) (expected : Option Ty) :
    Ensures (expr e expected) (e.Turns (· ∈ expected)) := by
  rw [expr_eq_settle]
  refine ensures_bind (turns_settle e expected) fun steps settled => ?_
  refine ensures_bind (turns_finish steps (· ∈ expected)) fun as finished => ?_
  exact ensures_pure ⟨rfl, settled.trans finished⟩

end Complete

end EbLang
