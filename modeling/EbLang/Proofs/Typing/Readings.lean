import EbLang.Proofs.Typing.Tracking

/-!
# Typed expressions accept their operands

Both readings of an expression, the one that checks its types and the one that settles them, keep
track of their operands.  So in what they leave every step that will not change accepts its operands,
conversions included.
-/

namespace EbLang

/-! ## Steps with their conversions -/

/-- A step with the conversions after it. -/
def withCasts (casts : List (Nat × Signature)) (a : Atom) (index : Nat) : List Atom :=
  a :: ((casts.filter fun c => c.1 == index).reverse.map fun c => .cast c.2 a.span)

theorem insertCasts_concat (steps : List Atom) (a : Atom) (casts : List (Nat × Signature)) :
    insertCasts (steps ++ [a]) casts = insertCasts steps casts ++ withCasts casts a steps.length := by
  simp [insertCasts, withCasts, List.zipIdx_append]

variable {c : Signature} {structs : StructTable}

theorem filter_eq_singleton {casts : List (Nat × Signature)} {j : Nat}
    (once : (casts.map Prod.fst).Nodup) (member : (j, c) ∈ casts) :
    (casts.filter fun e => e.1 == j) = [(j, c)] := by
  induction casts with
  | nil => cases member
  | cons e casts ih =>
    rw [List.map_cons, List.nodup_cons] at once
    obtain ⟨new, once⟩ := once
    rcases List.mem_cons.mp member with rfl | member
    · rw [List.filter_cons_of_pos (by simp), List.filter_eq_nil_iff.mpr fun d among => ?_]
      simp only [beq_iff_eq]
      rintro rfl
      exact new (List.mem_map.mpr ⟨d, among, rfl⟩)
    · have other : e.1 ≠ j := by
        rintro rfl
        exact new (List.mem_map.mpr ⟨_, member, rfl⟩)
      rw [List.filter_cons_of_neg (by simpa using other)]
      exact ih once member

theorem Atom.takes_cast {a : Atom} {span : Span}
    (h : (Atom.cast c span).Accepts structs [a]) : (Atom.cast c span).takes = 1 := by
  cases h with
  | leaf soft => cases soft
  | member kind => cases kind
  | call kind target _ asked suit =>
    cases kind
    cases target
    have length := suit.length_eq
    simp only [Signature.typesFor?, List.mapM_nil, Option.pure_def, Option.map_some, List.append_nil,
      Option.some.injEq] at asked
    rw [← asked, List.length_map] at length
    exact length.symm

namespace Progress

variable {structs : StructTable} {p : Progress}

/-- One step gives a value. -/
theorem Sound.shows_unique (h : p.Sound structs) : Relator.RightUnique p.Shows := by
  intro j a b shown shown'
  cases shown with
  | cast found cast =>
    cases shown' with
    | step _ uncast => exact absurd cast (uncast _)
    | cast found' cast' =>
      cases List.inj_on_of_nodup_map h.once cast cast' rfl
      cases found.symm.trans found'
      rfl
  | step found uncast =>
    cases shown' with
    | cast _ cast' => exact absurd cast' (uncast _)
    | step found' _ => exact Option.some.inj (found.symm.trans found')

theorem Sound.accepts (h : p.Sound structs) {n : Nat} {a : Atom} (found : p.done[n]? = some a)
    {os : List Atom} (shown : List.Forall₂ p.Shows (operandsAt p.arities n) os) :
    a.Accepts structs os := by
  by_cases fixed : a.isFixed = true
  · obtain ⟨os', shown', accepts⟩ := h.fixed n a found fixed
    cases List.right_unique_forall₂' h.shows_unique shown shown'
    exact accepts
  · refine .leaf (Bool.eq_false_iff.mpr fixed) (h.putOff _ ?_)
    exact List.mem_map_of_mem (List.mem_of_getElem? found)

/-- The conversion after a step, if there is one, accepts it and gives the value in its place. -/
theorem Sound.allAccept_withCasts (h : p.Sound structs) {n : Nat} {a : Atom}
    (found : p.done[n]? = some a) {ls : List Nat} {stack : List Atom}
    (shown : List.Forall₂ p.Shows ls stack)
    (operands : (ls.take a.takes).reverse = operandsAt p.arities n) :
    AllAccept structs stack (withCasts p.casts a n) ∧
      List.Forall₂ p.Shows (n :: ls.drop a.takes) (lastAtoms stack (withCasts p.casts a n)) := by
  have accepts : a.Accepts structs (stack.take a.takes).reverse := by
    refine h.accepts found ?_
    rw [← operands]
    exact List.rel_reverse (List.forall₂_take _ shown)
  have rest := List.forall₂_drop a.takes shown
  unfold withCasts
  by_cases cast : ∃ c, (n, c) ∈ p.casts
  · obtain ⟨c, member⟩ := cast
    obtain ⟨b, found', accepts'⟩ := h.casts (n, c) member
    cases found.symm.trans found'
    rw [filter_eq_singleton h.once member]
    simp only [List.reverse_singleton, List.map_singleton, AllAccept, lastAtoms, List.foldl_cons,
      List.foldl_nil]
    rw [Atom.takes_cast accepts']
    exact ⟨⟨accepts, accepts', trivial⟩, .cons (.cast found member) rest⟩
  · have none : (p.casts.filter fun e => e.1 == n) = [] := by
      refine List.filter_eq_nil_iff.mpr fun e among => ?_
      simp only [beq_iff_eq]
      rintro rfl
      exact cast ⟨e.2, among⟩
    rw [none]
    exact ⟨⟨accepts, trivial⟩, .cons (.step found fun c member => cast ⟨c, member⟩) rest⟩

theorem Sound.allAccept_take (h : p.Sound structs) : ∀ n ≤ p.done.length,
    AllAccept structs [] (insertCasts (p.done.take n) p.casts) ∧
      List.Forall₂ p.Shows (lasts (p.arities.take n))
        (lastAtoms [] (insertCasts (p.done.take n) p.casts))
  | 0, _ => ⟨trivial, .nil⟩
  | n + 1, lt => by
    obtain ⟨accept, shown⟩ := h.allAccept_take n (Nat.le_of_succ_le lt)
    have found : p.done[n]? = some p.done[n] := List.getElem?_eq_getElem lt
    have arity : p.arities[n]? = some p.done[n].takes := by
      rw [arities, List.getElem?_map, found]
      rfl
    have length : (p.done.take n).length = n := by
      rw [List.length_take]
      omega
    have length' : (p.arities.take n).length = n := by
      rw [List.length_take, length_arities, index]
      omega
    obtain ⟨accept', shown'⟩ := h.allAccept_withCasts found shown (by
      rw [operandsAt, List.getD_eq_getElem?_getD, arity]
      rfl)
    rw [List.take_add_one, List.take_add_one, found, arity, Option.toList_some, Option.toList_some,
      insertCasts_concat, length, lasts_concat, length', allAccept_append, lastAtoms_append]
    exact ⟨⟨accept, accept'⟩, shown'⟩

/-- In what a sound reading leaves, every step that will not change accepts its operands. -/
theorem Sound.allAccept (h : p.Sound structs) : AllAccept structs [] p.steps ∧
    List.Forall₂ p.Shows (lasts p.arities) (lastAtoms [] p.steps) := by
  have all := h.allAccept_take p.done.length (Nat.le_refl _)
  have whole : p.arities.take p.done.length = p.arities := by
    rw [← index, ← length_arities, List.take_length]
  rw [List.take_length, whole] at all
  exact all

end Progress

/-! ## Resolved calls -/

namespace Overload

variable {v : Viable} {args : List Ty} {named : List String}
variable {candidates : List Signature} {name : String}

theorem mem_of_mem_breakTie : ∀ {vs : List Viable}, v ∈ breakTie vs → v ∈ vs
  | [], h | [_], h | _ :: _ :: _ :: _, h => h
  | [a, b], h => by
    rw [breakTie] at h
    split at h
    next =>
      rw [List.mem_singleton] at h
      split at h
      next => simp [h]
      next => simp [h]
    next => exact h

theorem mem_of_mem_cheapest {vs : List Viable} (h : v ∈ cheapest vs) : v ∈ vs := by
  unfold cheapest at h
  split at h
  next => exact (List.mem_filter.mp h).1
  next => cases h

/-- A function that a call may be of is a candidate, and takes the arguments. -/
theorem of_mem_viable (h : v ∈ viable named candidates args) : v.signature ∈ candidates ∧
      v.signature.typesFor? named = some v.params ∧ (argumentsCost? args v.params).isSome = true := by
  obtain ⟨candidate, among, found⟩ := List.mem_filterMap.mp h
  simp only [viable?, Option.bind_eq_bind, Option.bind_eq_some_iff, Option.pure_def,
    Option.some.injEq] at found
  obtain ⟨params, asked, cost, takes, rfl⟩ := found
  exact ⟨among, asked, by rw [takes]; rfl⟩

theorem of_resolve_resolved {target : Signature} {casts : List (Option Signature)}
    (h : resolve name named candidates args = .ok (.resolved target casts)) :
    ∃ params, target ∈ candidates ∧ target.typesFor? named = some params ∧
      casts = List.zipWith castFor args params ∧ (argumentsCost? args params).isSome = true := by
  unfold resolve at h
  split at h
  next => cases h
  next best left =>
    cases h
    have among : best ∈ breakTie (cheapest (viable named candidates args)) := by
      rw [left]
      exact List.mem_cons_self
    obtain ⟨candidate, asked, cost⟩ := of_mem_viable (mem_of_mem_cheapest (mem_of_mem_breakTie among))
    exact ⟨best.params, candidate, asked, rfl, cost⟩
  next =>
    split at h
    next => split at h <;> cases h
    next => cases h

/-- Only operators are put off. -/
theorem of_resolve_deferred {left : List Signature} {merged : Ty}
    (h : resolve name named candidates args = .ok (.deferred merged left)) :
    ∀ s ∈ left, s.form = .operator := by
  unfold resolve at h
  split at h
  next => cases h
  next => cases h
  next best _ _ =>
    split at h
    next operators =>
      split at h
      next =>
        cases h
        intro s member
        obtain ⟨v, among, rfl⟩ := List.mem_map.mp member
        have := List.all_eq_true.mp (Bool.and_eq_true_iff.mp operators).1 v among
        exact of_decide_eq_true this
      next => cases h
    next => cases h

end Overload

theorem Builtin.form_of_mem_operators {symbol : String} {arity : Nat} {s : Signature}
    (h : s ∈ operators symbol arity) : s.form = .operator := by
  obtain ⟨e, -, rfl⟩ := List.mem_map.mp h
  rfl

theorem StructTable.memberAt?_of_memberOf? {ty memberTy : Ty} {name : String}
    {index : Nat} (h : structs.memberOf? ty name = some (index, memberTy)) :
    structs.memberAt? ty index = some memberTy := by
  cases ty with
  | prims => cases h
  | struct r =>
    obtain ⟨⟨m, i⟩, found, eq⟩ := Option.map_eq_some_iff.mp h
    cases eq
    have among := List.mem_of_find?_eq_some found
    rw [List.mem_zipIdx_iff_getElem?] at among
    rw [memberAt?, among]
    rfl

/-! ## Checking an expression -/

theorem Progress.of_operands? {p : Progress} {count : Nat} {args rest : List Operand}
    (h : p.operands? count = some (args, rest)) :
    args = (p.stack.take count).reverse ∧ rest = p.stack.drop count := by
  unfold operands? at h
  split at h
  next => cases h
  next =>
    cases h
    exact ⟨rfl, rfl⟩

namespace Check

variable {structs : StructTable} {p : Progress} {s : Scopes}
variable {a : Atom}

theorem tracks_call (h : p.Tracks structs) {c : Call} (kind : a.kind = .call c)
    (untargeted : c.target = none) : Leads (call p a c) s fun p' _ => p'.Tracks structs := by
  have takes : c.argCount = a.takes := by simp only [Atom.takes, kind]
  unfold call
  split
  next => exact leads_throw
  next args rest operands =>
    obtain ⟨taken, rfl⟩ := Progress.of_operands? operands
    rw [takes] at taken ⊢
    split
    next targeted =>
      rw [untargeted] at targeted
      cases targeted
    next =>
      refine leads_bind Walk.leads_located ?_
      rintro resolution s1 ⟨resolved, -⟩
      split
      next target casts =>
        obtain ⟨params, -, asked, rfl, cost⟩ := Overload.of_resolve_resolved resolved
        exact (h.bindCall kind taken asked cost).imp fun _ _ tracked => tracked.1
      next merged candidates =>
        have standing := (h.split a.takes).2
        rw [← taken] at standing
        have putOff : (AtomKind.call { c with candidates }).PutsOffOperators := by
          intro _ s member
          unfold Call.overloads at member
          split at member
          next => exact Builtin.form_of_mem_operators member
          next => exact Overload.of_resolve_deferred resolved s member
        refine leads_bind (h.sound.narrowAll merged standing) ?_
        rintro p' s' ⟨sound, casts, agree⟩
        have takes' : Atom.takes { a with kind := .call { c with candidates } } = a.takes := by
          rw [← takes]
          rfl
        have taken' := takes' ▸ taken
        rw [← takes']
        split
        next =>
          refine leads_pure (h.push (a := ⟨.call { c with candidates }, .bool, a.span⟩) taken' sound
            agree (fun fixed => ?_) putOff (agree.startOf args) (fun _ => rfl) fun i linked => ?_).1
          · rw [Atom.isFixed, untargeted] at fixed
            cases fixed
          · cases linked
        next =>
          exact leads_pure (h.pushOpen (c := { c with candidates }) rfl untargeted putOff taken' sound
            casts agree).1

theorem tracks_step (h : p.Tracks structs) (untargeted : ∀ c, a.kind = .call c → c.target = none) :
    Leads (step structs p a) s fun p' _ => p'.Tracks structs := by
  unfold step
  split
  next kind =>
    refine leads_pure (h.pushLeaf ?_ ?_ ?_ fun i linked => ?_).1
    · rw [Atom.takes, kind]
    · rw [Atom.isFixed, kind]
    · rw [kind]
      trivial
    · cases List.mem_singleton.mp linked
      rfl
  next name binding kind => exact (h.pushVar kind).imp fun _ _ tracked => tracked.1
  next c kind => exact tracks_call h kind (untargeted c kind)
  next m kind =>
    split
    next => exact leads_throw
    next base rest stack =>
      split
      next => exact leads_throw
      next index ty found =>
        have taken : [base] = (p.stack.take 1).reverse := by
          rw [stack]
          rfl
        have pushed := h.pushFixed (a := ⟨.member ⟨m.name, some index⟩, ty, a.span⟩) taken trivial
          fun os _ types => ?_
        · rw [stack] at pushed
          exact leads_pure pushed.1
        · cases types with
          | cons type others =>
            cases others
            refine .member rfl rfl fun tight => ?_
            rw [type (Atom.isOperation_eq_false tight)]
            exact StructTable.memberAt?_of_memberOf? found

/-- In a checked expression every step that will not change accepts its operands. -/
theorem accepts_expr {e : Expr Atom} (expected : Option Ty)
    (untargeted : ∀ a ∈ e.terms, ∀ c, a.kind = .call c → c.target = none) :
    Leads (expr structs e expected) s fun r _ => AllAccept structs [] r.2.terms := by
  have reading : Leads (e.terms.foldlM (step structs) {}) s fun p _ => p.Tracks structs :=
    leads_foldlM .start fun p s a member tracked => tracks_step tracked (untargeted a member)
  refine leads_bind reading ?_
  intro p s' tracked
  split
  next top stack =>
    split
    next =>
      obtain ⟨j, -, -, last, stands⟩ := tracked.top stack
      refine leads_bind (tracked.sound.apply last stands) ?_
      rintro ⟨ty, q⟩ s1 ⟨sound, -⟩
      exact leads_pure sound.allAccept.1
    next => exact leads_pure tracked.sound.allAccept.1
  next => exact leads_throw

end Check

/-! ## Settling an expression -/

namespace Complete

/-- The value of an expression made to fit the type its context asks for. -/
def fitTop (p : Progress) (top : Operand) (expected : Option Ty) (position : Position) :
    Walk (Ty × Progress) :=
  match expected with
  | some expected => p.apply top expected position
  | none => return (top.ty, p)

/-- The value of an expression with the default of its type chosen, if that is still open. -/
def settleTop (p : Progress) (top : Operand) (ty : Ty) (position : Position) : Walk Progress :=
  if ty.isComplete then return p
  else
    match ty.complete? with
    | none => Walk.failAt position .undeterminedType
    | some settled => p.narrow top.cells settled

/-- The steps of an expression whose type is settled, before calls that were put off are bound. -/
def settle (e : Expr Atom) (expected : Option Ty) : Walk (List Atom) := do
  let p ← e.terms.foldlM step {}
  match p.stack with
  | [] => Walk.failAt e.span.start .undeterminedType
  | top :: _ =>
    let (ty, p) ← fitTop p top expected e.span.start
    return (← settleTop p top ty e.span.start).steps

theorem settleTop_bind {α : Type} (p : Progress) (top : Operand) (ty : Ty) (position : Position)
    (f : Progress → Walk α) :
    settleTop p top ty position >>= f =
      if ty.isComplete then f p
      else
        match ty.complete? with
        | none => Walk.failAt position .undeterminedType >>= f
        | some settled => p.narrow top.cells settled >>= f := by
  unfold settleTop
  split
  next => rw [pure_bind]
  next =>
    cases ty.complete? with
    | none => rfl
    | some settled => rfl

/-- An expression is settled before its calls are bound. -/
theorem expr_eq_settle (e : Expr Atom) (expected : Option Ty) :
    expr e expected = do return ⟨← finish (← settle e expected), e.span⟩ := by
  unfold expr settle
  rw [bind_assoc]
  refine bind_congr fun p => ?_
  cases p.stack with
  | nil => rfl
  | cons top others =>
    cases expected with
    | none =>
      simp only [fitTop, pure_bind, bind_assoc]
      exact (settleTop_bind ..).symm
    | some expected =>
      simp only [fitTop, pure_bind, bind_assoc]
      exact bind_congr fun r => (settleTop_bind ..).symm

end Complete

end EbLang
