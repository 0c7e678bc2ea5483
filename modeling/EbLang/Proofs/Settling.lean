import EbLang.Proofs.Passes.Files
import EbLang.Proofs.Typing.Readings

/-!
# Variables while types are settled

Reading an expression narrows the variables it mentions, but only those that are open: a settled one
is not linked to any operand.  So type checking never changes a parameter, and settling never changes
a variable that is settled.

An expression that has been settled is *ready*: every step has one type, every name its variable's
type, every call its function, every member its place, and integers fit.
-/

namespace EbLang

/-! ## Types of variables -/

namespace Scopes

variable {s s1 s2 : Scopes} {id q : Nat} {ty : Ty}

theorem var?_setType (s : Scopes) (id : Nat) (ty : Ty) (q : Nat) :
    (s.setType id ty).var? q = if q = id then (s.var? q).map fun v => { v with ty } else s.var? q := by
  unfold var? setType
  by_cases h : q = id
  · simp [h]
  · simp [h, Ne.symm h]

theorem typeOf_setType_ne (h : q ≠ id) : (s.setType id ty).typeOf q = s.typeOf q := by
  rw [typeOf, var?_setType, if_neg h, typeOf]

theorem typeOf_setType_self (ty : Ty) (h : (s.var? id).isSome) : (s.setType id ty).typeOf id = ty := by
  obtain ⟨v, found⟩ := Option.isSome_iff_exists.mp h
  rw [typeOf, var?_setType, if_pos rfl, found]
  rfl

/-- Only types of variables differ, and none of those kept. -/
structure Retypes (kept : Nat → Prop) (s s' : Scopes) : Prop where
  var : ∀ id, s'.var? id = (s.var? id).map fun v => { v with ty := s'.typeOf id }
  types : ∀ id, kept id → s'.typeOf id = s.typeOf id

namespace Retypes

variable {kept : Nat → Prop}

theorem refl (s : Scopes) : s.Retypes kept s where
  var id := by
    unfold typeOf
    cases s.var? id <;> rfl
  types _ _ := rfl

theorem trans (h : s.Retypes kept s1) (h' : s1.Retypes kept s2) : s.Retypes kept s2 where
  var id := by
    rw [h'.var, h.var]
    cases s.var? id <;> rfl
  types id keep := (h'.types id keep).trans (h.types id keep)

theorem setType (ty : Ty) (free : ¬ kept id) : s.Retypes kept (s.setType id ty) where
  var q := by
    by_cases h : q = id
    · subst h
      rw [typeOf, var?_setType, if_pos rfl]
      cases s.var? q <;> rfl
    · rw [typeOf_setType_ne h, var?_setType, if_neg h]
      unfold typeOf
      cases s.var? q <;> rfl
  types q keep := typeOf_setType_ne fun same => free (same ▸ keep)

theorem isParam (h : s.Retypes kept s1) (id : Nat) :
    (s1.var? id).any Variable.isParam = (s.var? id).any Variable.isParam := by
  rw [h.var]
  cases s.var? id <;> rfl

theorem mono {kept' : Nat → Prop} (h : s.Retypes kept s1) (less : ∀ id, kept' id → kept id) :
    s.Retypes kept' s1 :=
  ⟨h.var, fun id keep => h.types id (less id keep)⟩

end Retypes

/-- Only types of variables differ, and none that is settled. -/
def Settles (s s' : Scopes) : Prop := s.Retypes (fun id => (s.typeOf id).isComplete = true) s'

namespace Settles

theorem refl (s : Scopes) : s.Settles s := Retypes.refl s

theorem isComplete (h : s.Settles s1) (complete : (s.typeOf id).isComplete = true) :
    (s1.typeOf id).isComplete = true := by
  rw [h.types id complete]
  exact complete

theorem trans (h : s.Settles s1) (h' : s1.Settles s2) : s.Settles s2 :=
  Retypes.trans h (h'.mono fun _ complete => h.isComplete complete)

theorem bindingType (h : s.Settles s1) {b : Binding} (complete : (s.bindingType b).isComplete = true) :
    s1.bindingType b = s.bindingType b := by
  cases b with
  | localVar id => exact h.types id complete
  | globalVar g => rfl

/-- A variable may be set to the default of its type. -/
theorem setType (settled : (s.typeOf id).complete? = some ty) :
    s.Settles (s.setType id ty) ∧ ((s.setType id ty).typeOf id).isComplete = true := by
  have found : (s.var? id).isSome := by
    cases found : s.var? id with
    | some v => rfl
    | none =>
      rw [typeOf, found] at settled
      cases Ty.complete?_anyValue.symm.trans settled
  have self := typeOf_setType_self ty found
  rw [self]
  have any : s.Retypes (fun _ => False) (s.setType id ty) := .setType ty not_false
  refine ⟨⟨any.var, fun q complete => ?_⟩, Ty.isComplete_of_complete? settled⟩
  · by_cases same : q = id
    · subst same
      rw [self]
      exact Option.some.inj (settled.symm.trans (Ty.complete?_of_isComplete complete))
    · exact typeOf_setType_ne same

end Settles

end Scopes

/-! ## Types within others -/

/-- A type within another one: some of its primitives, or the same struct. -/
inductive Ty.Within : Ty → Ty → Prop
  | prims {s t : PrimSet} : (∀ p, s.has p = true → t.has p = true) → Within (.prims s) (.prims t)
  | struct {r : StructRef} : Within (.struct r) (.struct r)

namespace Ty.Within

variable {t u v : Ty} {s : PrimSet}

theorem refl (t : Ty) : t.Within t := by
  cases t with
  | prims s => exact .prims fun _ has => has
  | struct r => exact .struct

theorem trans (h : t.Within u) (h' : u.Within v) : t.Within v := by
  cases h with
  | struct => exact h'
  | prims less =>
    cases h' with
    | prims less' => exact .prims fun p has => less' p (less p has)

theorem inter_left (s t : PrimSet) : (Ty.prims (s.inter t)).Within (.prims s) := by
  refine .prims fun p has => ?_
  rw [PrimSet.has_inter, Bool.and_eq_true] at has
  exact has.1

theorem isOpen (h : t.Within (.prims s)) : ∃ s', t = .prims s' := by
  cases h with
  | prims less => exact ⟨_, rfl⟩

/-- What a type has in common with another is within it. -/
theorem of_merge? (h : t.merge? u = some v) : v.Within t := by
  cases t with
  | prims s =>
    cases u with
    | struct q => cases h
    | prims s' =>
      simp only [merge?, Option.ite_none_left_eq_some, Option.some.injEq] at h
      rw [← h.2]
      exact inter_left s s'
  | struct r =>
    cases u with
    | prims s => cases h
    | struct q =>
      simp only [merge?, Option.ite_none_right_eq_some, Option.some.injEq] at h
      rw [← h.2]
      exact refl _

theorem of_merge?_prims (h : t.merge? (.prims s) = some v) : v.Within (.prims s) := by
  cases t with
  | struct r => cases h
  | prims s' =>
    simp only [merge?, Option.ite_none_left_eq_some, Option.some.injEq] at h
    rw [← h.2, PrimSet.inter_comm]
    exact inter_left s s'

theorem of_contains (h : (Ty.prims s).contains u = true) : u.Within (.prims s) := by
  cases u with
  | struct q => cases h
  | prims s' =>
    rw [contains, Bool.and_eq_true] at h
    rw [← PrimSet.inter_of_includes h.2]
    exact inter_left s s'

/-- What is common to several types is within each. -/
theorem of_foldlM_merge? : ∀ {args : List Ty} {t : Ty}, args.foldlM Ty.merge? t = some v →
    v.Within t ∧ ∀ s, Ty.prims s ∈ args → v.Within (.prims s)
  | [], t, h => by
    cases h
    exact ⟨refl v, fun _ member => absurd member List.not_mem_nil⟩
  | arg :: args, t, h => by
    obtain ⟨u, first, others⟩ := Option.bind_eq_some_iff.mp h
    obtain ⟨within, each⟩ := of_foldlM_merge? others
    refine ⟨within.trans (of_merge? first), fun s member => ?_⟩
    rcases List.mem_cons.mp member with rfl | member
    · exact within.trans (of_merge?_prims first)
    · exact each s member

end Ty.Within

theorem Overload.within_of_resolve_deferred {name : String} {named : List String}
    {candidates left : List Signature} {args : List Ty} {merged : Ty}
    (h : resolve name named candidates args = .ok (.deferred merged left)) {s : PrimSet}
    (member : Ty.prims s ∈ args) : merged.Within (.prims s) := by
  simp only [resolve] at h
  split at h
  next => cases h
  next => cases h
  next =>
    split at h
    next =>
      split at h
      next common =>
        cases h
        simp only [common?, Option.bind_eq_bind, Option.bind_eq_some_iff] at common
        obtain ⟨accepted, -, merges⟩ := common
        exact (Ty.Within.of_foldlM_merge? merges).2 s member
      next => cases h
    next => cases h

/-! ## Reading an expression -/

/-- A name is bound and a member has its place. -/
def AtomKind.FoundIn (known : List Nat) : AtomKind → Prop
  | .var _ binding => IsBoundIn known binding
  | .member m => m.index.isSome = true
  | .literal _ | .call _ => True

/-- A property `S` of variables that a reading keeps: `Q t id` says that an operand of type `t` may be
linked to a variable, and `L t u` that `t` may take the place of `u`. -/
structure Linking (L : Ty → Ty → Prop) (Q : Ty → Nat → Prop) (S : Scopes → Prop) : Prop where
  set : ∀ {s t id}, Q t id → S s → S (s.setType id t)
  less : ∀ {t u id}, L t u → Q u id → Q t id
  within : ∀ {t u}, (∀ set, u = .prims set → t.Within u) → L t u
  read : ∀ {s id}, S s → (s.typeOf id).isComplete = false → Q (s.typeOf id) id

/-- Variables that are kept are settled, so no operand is linked to them. -/
theorem linking_retypes {kept : Nat → Prop} {s0 : Scopes}
    (settled : ∀ id, kept id → (s0.typeOf id).isComplete = true) :
    Linking (fun _ _ => True) (fun _ id => ¬ kept id) (s0.Retypes kept) where
  set free retypes := retypes.trans (.setType _ free)
  less _ free := free
  within _ := trivial
  read {s id} retypes isOpen keep := by
    rw [retypes.types id keep, settled id keep] at isOpen
    cases isOpen

variable {L : Ty → Ty → Prop} {Q : Ty → Nat → Prop} {S : Scopes → Prop}

theorem Linking.narrowCells (link : Linking L Q S) {ty : Ty} :
    ∀ {cells : List Cell}, (∀ id, Cell.var id ∈ cells → Q ty id) →
      ∀ (steps : List Atom) {s : Scopes}, S s → S (narrowCells cells ty steps s).2
  | [], _, _, _, h => h
  | .step _ :: _, linked, _, _, h =>
    link.narrowCells (fun id member => linked id (List.mem_cons_of_mem _ member)) _ h
  | .var id :: _, linked, _, _, h =>
    link.narrowCells (fun id member => linked id (List.mem_cons_of_mem _ member)) _
      (link.set (linked id List.mem_cons_self) h)

def Operand.Linked (Q : Ty → Nat → Prop) (o : Operand) : Prop := ∀ id, Cell.var id ∈ o.cells → Q o.ty id

namespace Progress

/-- How far a reading has come: `D` holds of what it has read and `S` of the variables, and operands are
linked as `Q` says. -/
structure Reads (D : AtomKind → Prop) (Q : Ty → Nat → Prop) (S : Scopes → Prop) (p : Progress)
    (s : Scopes) : Prop where
  found : ∀ kind ∈ p.done.map Atom.kind, D kind
  linked : ∀ o ∈ p.stack, o.Linked Q
  state : S s

theorem operands?_subset {p : Progress} {count : Nat} {args rest : List Operand}
    (h : p.operands? count = some (args, rest)) : args ⊆ p.stack ∧ rest ⊆ p.stack := by
  obtain ⟨rfl, rfl⟩ := of_operands? h
  exact ⟨fun o member => List.mem_of_mem_take (List.mem_reverse.mp member),
    fun o member => List.mem_of_mem_drop member⟩

namespace Reads

variable {D : AtomKind → Prop} {s : Scopes} {p : Progress} {a : Atom} {o : Operand} {ty : Ty}
variable {rest args : List Operand} {cells : List Cell}

theorem start (h : S s) : Reads D Q S {} s := ⟨List.forall_mem_nil _, List.forall_mem_nil _, h⟩

theorem push (h : p.Reads D Q S s) (found : D a.kind) (linked : o.Linked Q) (among : rest ⊆ p.stack) :
    (p.push a o rest).Reads D Q S s where
  found := by
    rw [Progress.push, List.map_append]
    exact List.forall_mem_append.mpr ⟨h.found, List.forall_mem_singleton.mpr found⟩
  linked := List.forall_mem_cons.mpr ⟨linked, fun o member => h.linked o (among member)⟩
  state := h.state

/-- A step whose result is not linked to anything. -/
theorem push_plain (h : p.Reads D Q S s) {start : Nat} (found : D a.kind) (among : rest ⊆ p.stack) :
    (p.push a ⟨ty, [], start⟩ rest).Reads D Q S s :=
  h.push found (fun _ member => absurd member List.not_mem_nil) among

theorem addCast (h : p.Reads D Q S s) (after : Nat) (cast : Signature) :
    (p.addCast after cast).Reads D Q S s :=
  ⟨h.found, h.linked, h.state⟩

theorem narrow (h : p.Reads D Q S s) (link : Linking L Q S) (linked : o.Linked Q) (less : L ty o.ty) :
    Leads (p.narrow o.cells ty) s fun p' s' => p'.Reads D Q S s' ∧ p'.stack = p.stack := by
  refine leads_narrow ⟨⟨?_, h.linked, ?_⟩, rfl⟩
  · rw [map_kind_narrowCells]
    exact h.found
  · exact link.narrowCells (fun id member => link.less less (linked id member)) p.done h.state

theorem narrowAll (h : p.Reads D Q S s) (link : Linking L Q S) (among : args ⊆ p.stack)
    (less : ∀ o ∈ args, L ty o.ty) :
    Leads (p.narrowAll args ty) s fun p' s' => p'.Reads D Q S s' ∧ p'.stack = p.stack := by
  have start : p.Reads D Q S s ∧ p.stack = p.stack := ⟨h, rfl⟩
  refine leads_foldlM (P := fun (p' : Progress) s' => p'.Reads D Q S s' ∧ p'.stack = p.stack) start ?_
  rintro p' s' arg member ⟨reads, stack⟩
  refine (reads.narrow link (h.linked arg (among member)) (less arg member)).imp ?_
  rintro q t ⟨reads', stack'⟩
  exact ⟨reads', stack'.trans stack⟩

theorem fit (link : Linking L Q S) : ∀ {args : List Operand} {params : List Ty} {p : Progress}
    {s : Scopes}, p.Reads D Q S s → (∀ o ∈ args, o.Linked Q) →
    (Overload.argumentsCost? (args.map Operand.ty) params).isSome = true →
    Leads (p.fit args (List.zipWith Overload.castFor (args.map Operand.ty) params) params) s
      fun p' s' => p'.Reads D Q S s' ∧ p'.stack = p.stack
  | [], [], p, s, h, _, _ => leads_pure ⟨h, rfl⟩
  | [], _ :: _, _, _, _, _, cost => by cases cost
  | _ :: _, [], _, _, _, _, cost => by cases cost
  | arg :: args, param :: params, p, s, h, linked, cost => by
    obtain ⟨first, others⟩ := List.forall_mem_cons.mp linked
    obtain ⟨passes, rest⟩ := Overload.isSome_argumentsCost?_cons cost
    rw [List.map_cons, List.zipWith_cons_cons, fit_cons]
    refine leads_bind (P := fun p1 s1 => p1.Reads D Q S s1 ∧ p1.stack = p.stack) ?_ ?_
    · by_cases contains : arg.ty.contains param = true
      · rw [Overload.castFor, if_pos contains]
        refine h.narrow link first (link.within fun set isOpen => ?_)
        rw [isOpen] at contains ⊢
        exact .of_contains contains
      · obtain ⟨cast, widens⟩ := Option.isSome_iff_exists.mp (passes.resolve_left contains)
        rw [Overload.castFor, if_neg contains, widens]
        exact leads_pure ⟨h.addCast _ cast, rfl⟩
    · rintro p1 s1 ⟨reads, stack⟩
      refine (reads.fit link others rest).imp ?_
      rintro p' s' ⟨reads', stack'⟩
      exact ⟨reads', stack'.trans stack⟩

/-- A call is bound to the function that was chosen for it. -/
theorem bindCall (h : p.Reads D Q S s) (link : Linking L Q S) (calls : ∀ c, D (.call c)) {c : Call}
    {candidates : List Signature} {target : Signature} {casts : List (Option Signature)}
    (args_among : args ⊆ p.stack) (rest_among : rest ⊆ p.stack)
    (resolved : Overload.resolve c.name c.named candidates (args.map Operand.ty) =
      .ok (.resolved target casts)) :
    Leads (p.bindCall a c args rest target casts) s fun p' s' => p'.Reads D Q S s' := by
  obtain ⟨params, -, asked, rfl, cost⟩ := Overload.of_resolve_resolved resolved
  simp only [Progress.bindCall, asked, Option.getD_some]
  refine leads_bind (h.fit link (fun o member => h.linked o (args_among member)) cost) ?_
  rintro p' s' ⟨reads, stack⟩
  exact leads_pure (reads.push_plain (calls _) (stack ▸ rest_among))

theorem pushOpen (h : p.Reads D Q S s) (link : Linking L Q S) (found : D a.kind)
    (args_among : args ⊆ p.stack) (rest_among : rest ⊆ p.stack) (less : ∀ o ∈ args, L ty o.ty) :
    (p.pushOpen a args rest ty).Reads D Q S s := by
  refine h.push found (fun id member => ?_) rest_among
  rcases List.mem_append.mp member with member | member
  · obtain ⟨o, among, linked⟩ := List.mem_flatMap.mp member
    exact link.less (less o among) (h.linked o (args_among among) id linked)
  · cases List.mem_singleton.mp member

theorem pushLeaf (h : p.Reads D Q S s) (found : D a.kind)
    (linked : a.ty.isComplete = false → ∀ id, Cell.var id ∈ cells → Q a.ty id) :
    (p.pushLeaf a cells).Reads D Q S s := by
  refine h.push found (fun id => ?_) (List.Subset.refl _)
  split
  next => exact fun member => absurd member List.not_mem_nil
  next isOpen => exact linked (Bool.eq_false_iff.mpr isOpen) id

theorem pushVar (h : p.Reads D Q S s) (link : Linking L Q S) {name : String}
    {binding : Option Binding} (found : D a.kind) :
    Leads (p.pushVar a name binding) s fun p' s' => p'.Reads D Q S s' := by
  cases binding with
  | none => exact leads_throw
  | some b =>
    refine leads_get (leads_pure (h.pushLeaf found fun isOpen id member => ?_))
    cases b with
    | globalVar g => simp at member
    | localVar id' =>
      have same : id = id' := by simpa using member
      subst same
      exact link.read h.state isOpen

theorem apply (h : p.Reads D Q S s) (link : Linking L Q S) {expected : Ty} {position : Position}
    (among : o ∈ p.stack) : Leads (p.apply o expected position) s fun r s' =>
      (r.2.Reads D Q S s' ∧ r.2.stack = p.stack) ∧ ∀ set, expected = .prims set → r.1.Within expected := by
  unfold Progress.apply
  split
  next merged merges =>
    refine leads_bind (h.narrow link (h.linked o among) (link.within fun _ _ => .of_merge? merges)) ?_
    rintro p' s' reads
    refine leads_pure ⟨reads, ?_⟩
    rintro set rfl
    exact .of_merge?_prims merges
  next =>
    split
    next cast _ => exact leads_pure ⟨⟨h.addCast _ cast, rfl⟩, fun _ _ => .refl expected⟩
    next => exact leads_throw

/-- What holds of steps holds of them with their conversions. -/
theorem found_steps (h : p.Reads D Q S s) (calls : ∀ c, D (.call c)) : ∀ a ∈ p.steps, D a.kind := by
  intro a member
  obtain ⟨e, step, member⟩ := List.mem_flatMap.mp member
  rcases List.mem_cons.mp member with rfl | member
  · exact h.found _ (List.mem_map_of_mem (List.fst_mem_of_mem_zipIdx step))
  · obtain ⟨c, -, rfl⟩ := List.mem_map.mp member
    exact calls _

end Reads

end Progress

/-! ## Targets of assignments -/

theorem leads_memberPath (structs : StructTable) (position : Position) {s : Scopes} :
    ∀ (ty : Ty) (ms : List MemberRef), Leads (memberPath structs position ty ms) s fun r s' =>
      s' = s ∧ r.2.all (fun m => m.index.isSome) = true ∧
        r.2.foldlM (fun ty m => m.index.bind (structs.memberAt? ty)) ty = some r.1
  | ty, [] => by
    exact leads_pure ⟨rfl, rfl, rfl⟩
  | ty, m :: ms => by
    unfold memberPath
    split
    next => exact leads_throw
    next index memberTy found =>
      refine leads_bind (leads_memberPath structs position memberTy ms) ?_
      rintro ⟨last, ms'⟩ _ ⟨rfl, placed, path⟩
      refine leads_pure ⟨rfl, placed, ?_⟩
      rw [List.foldlM_cons, Option.bind_some, StructTable.memberAt?_of_memberOf? found]
      exact path

theorem leads_assignmentType (structs : StructTable) {target : String} {binding : Option Binding}
    {members : List MemberRef} {position : Position} {s : Scopes} :
    Leads (assignmentType structs target binding members position) s fun r s' =>
      s' = s ∧ r.2.all (fun m => m.index.isSome) = true ∧ place? structs s binding r.2 = some r.1 := by
  unfold assignmentType
  split
  next => exact leads_throw
  next => exact leads_get (leads_memberPath structs position _ members)

/-! ## Checked expressions -/

/-- What type checking leaves of an expression: its names are bound, its members have their places,
and every step that will not change accepts its operands. -/
structure Expr.CheckedIn (structs : StructTable) (known : List Nat) (e : Expr Atom) : Prop where
  found : ∀ a ∈ e.terms, a.kind.FoundIn known
  accepts : AllAccept structs [] e.terms

/-- What type checking leaves of a statement. -/
def Stmt.CheckedIn (structs : StructTable) (known : List Nat) (s : Stmt Atom) : Prop :=
  (∀ e ∈ s.exprs, e.CheckedIn structs known) ∧ s.HeadBoundIn known

namespace Check

variable {kept : Nat → Prop} {s : Scopes} {p : Progress} {known : List Nat}
variable {e : Expr Atom} {target : String} {binding : Option Binding} {span : Span}

section Reads

variable {D : AtomKind → Prop} {a : Atom}

theorem reads_call (h : p.Reads D Q S s) (link : Linking L Q S) (calls : ∀ c, D (.call c)) {c : Call}
    (kind : a.kind = .call c) : Leads (call p a c) s fun p' s' => p'.Reads D Q S s' := by
  unfold call
  split
  next => exact leads_throw
  next args rest operands =>
    obtain ⟨args_among, rest_among⟩ := Progress.operands?_subset operands
    split
    next => exact leads_pure (h.push_plain (kind ▸ calls c) rest_among)
    next =>
      refine leads_bind Walk.leads_located ?_
      rintro resolution _ ⟨resolved, rfl⟩
      split
      next => exact h.bindCall link calls args_among rest_among resolved
      next merged candidates =>
        have less : ∀ o ∈ args, L merged o.ty := fun o member => link.within fun set isOpen => by
          rw [isOpen]
          exact Overload.within_of_resolve_deferred resolved (isOpen ▸ List.mem_map_of_mem member)
        refine leads_bind (h.narrowAll link args_among less) ?_
        rintro p' s' ⟨reads, stack⟩
        rw [← stack] at args_among rest_among
        split
        next => exact leads_pure (reads.push_plain (calls _) rest_among)
        next => exact leads_pure (reads.pushOpen link (calls _) args_among rest_among less)

variable (structs : StructTable) (expected : Option Ty)

theorem reads_step (h : p.Reads D Q S s) (link : Linking L Q S) (calls : ∀ c, D (.call c))
    (members : ∀ m, m.index.isSome = true → D (.member m))
    (found : (∀ m, a.kind ≠ .member m) → D a.kind) :
    Leads (step structs p a) s fun p' s' => p'.Reads D Q S s' := by
  unfold step
  split
  next kind =>
    refine leads_pure (h.pushLeaf (found (by simp [kind])) fun _ id member => ?_)
    cases List.mem_singleton.mp member
  next kind => exact h.pushVar link (found (by simp [kind]))
  next kind => exact reads_call h link calls kind
  next m kind =>
    split
    next => exact leads_throw
    next base rest stack =>
      split
      next => exact leads_throw
      next =>
        refine leads_pure (h.push_plain (members _ rfl) ?_)
        rw [stack]
        exact List.subset_cons_self base rest

/-- An expression keeps what holds of the variables, and gets a type within the one asked for. -/
theorem reads_expr (link : Linking L Q S) (calls : ∀ c, D (.call c))
    (members : ∀ m, m.index.isSome = true → D (.member m))
    (found : ∀ a ∈ e.terms, (∀ m, a.kind ≠ .member m) → D a.kind) (state : S s) :
    Leads (expr structs e expected) s fun r s' => (∀ a ∈ r.2.terms, D a.kind) ∧ S s' ∧
      ∀ set, expected = some (.prims set) → r.1.Within (.prims set) := by
  refine leads_bind (leads_foldlM (P := fun p s' => p.Reads D Q S s') (.start state)
    fun p s' a member reads => reads_step structs reads link calls members (found a member)) ?_
  intro p s' reads
  split
  next top stack =>
    have among : top ∈ p.stack := by
      rw [stack]
      exact List.mem_cons_self
    split
    next =>
      refine leads_bind (reads.apply link among) ?_
      rintro ⟨ty, q⟩ t ⟨⟨reads', -⟩, within⟩
      refine leads_pure ⟨reads'.found_steps calls, reads'.state, ?_⟩
      rintro set ⟨⟩
      exact within set rfl
    next => exact leads_pure ⟨reads.found_steps calls, reads.state, by simp⟩
  next => exact leads_throw

end Reads

variable (structs : StructTable) (expected : Option Ty)

theorem leads_expr
    (resolved : e.ResolvedIn known) (settled : ∀ id, kept id → (s.typeOf id).isComplete = true) :
    Leads (expr structs e expected) s fun r s' =>
      r.2.CheckedIn structs known ∧ s.Retypes kept s' := by
  have unbound : ∀ a ∈ e.terms, ∀ c, a.kind = .call c → c.target = none := by
    intro a member c kind
    have here := resolved a member
    rwa [kind] at here
  have found : ∀ a ∈ e.terms, (∀ m, a.kind ≠ .member m) → a.kind.FoundIn known := by
    intro a member plain
    have here := resolved a member
    cases kind : a.kind with
    | var =>
      rw [kind] at here
      exact here
    | member m => exact absurd kind (plain m)
    | literal | call => trivial
  refine ((reads_expr structs expected (linking_retypes settled) (fun _ => trivial) (fun _ placed => placed)
    found (.refl s)).and (accepts_expr expected unbound)).imp ?_
  rintro r s' ⟨⟨found, retypes, -⟩, accepts⟩
  exact ⟨⟨found, accepts⟩, retypes⟩

/-- What type checking does to the parts of a body: it finds members, and keeps the types of some
settled parameters. -/
def finding (structs : StructTable) (kept : Nat → Prop) : Contract where
  moves _ := Scopes.Retypes kept
  state _ s := ∀ id, kept id → (s.var? id).any Variable.isParam = true ∧
    (s.typeOf id).isComplete = true
  before result known st :=
    (result.isComplete = true ∧ st.ResolvedIn known) ∧ ∀ id ∈ st.declares, ¬ kept id
  conditionBefore := Expr.ResolvedIn
  after result _ known st := result.isComplete = true ∧ st.CheckedIn structs known
  conditionAfter _ := Expr.CheckedIn structs

theorem leads_declaration {ty : Option TypeName} {init : Option (Expr Atom)}
    {id : Nat} (bound : ∀ e ∈ init.toList, e.ResolvedIn known) (free : ¬ kept id)
    (settled : ∀ id, kept id → (s.typeOf id).isComplete = true) :
    Leads (declaration structs ty init id) s fun init' s' =>
      (∀ e ∈ init'.toList, e.CheckedIn structs known) ∧ s.Retypes kept s' := by
  refine leads_get ?_
  cases init with
  | none =>
    refine leads_modify (leads_pure ⟨List.forall_mem_nil _, .setType _ free⟩)
  | some init =>
    refine leads_bind (leads_expr structs _ (bound init List.mem_cons_self) settled) ?_
    rintro ⟨ty, checked⟩ s' ⟨found, retypes⟩
    dsimp only
    split
    next => exact leads_throw_bind
    next =>
      refine leads_modify (leads_pure ⟨List.forall_mem_singleton.mpr found, ?_⟩)
      exact retypes.trans (.setType _ free)

/-- An assignment that may be made does not write a parameter. -/
theorem leads_writable {position : Position} :
    Leads (writable target binding position) s fun _ s' => s' = s ∧
      ∀ id, binding = some (.localVar id) → (s.var? id).any Variable.isParam = false := by
  unfold writable
  split
  next id =>
    refine leads_get ?_
    split
    next => exact leads_throw
    next writable =>
      refine leads_pure ⟨rfl, ?_⟩
      rintro id' ⟨⟩
      exact Bool.eq_false_iff.mpr writable
  next =>
    split
    next => exact leads_throw
    next => exact leads_pure ⟨rfl, by simp⟩
  next => exact leads_pure ⟨rfl, by simp⟩

theorem leads_assignment
    {members : List MemberRef} {value : Expr Atom} (bound : value.ResolvedIn known)
    (state : (finding structs kept).state known s) :
    Leads (assignment structs target binding members value span) s fun st s' =>
      s.Retypes kept s' ∧ ∃ members' value', value'.CheckedIn structs known ∧
        st = .assign target binding members' value' span := by
  refine leads_bind leads_writable ?_
  rintro _ _ ⟨rfl, writable⟩
  refine leads_bind (leads_assignmentType structs) ?_
  rintro ⟨targetTy, members'⟩ _ ⟨rfl, -⟩
  refine leads_bind (leads_expr structs _ bound fun id keep => (state id keep).2) ?_
  rintro ⟨ty, value'⟩ s' ⟨found, retypes⟩
  dsimp only
  split
  next id _ =>
    have free : ¬ kept id := fun keep => by
      have := (state id keep).1
      rw [writable id rfl] at this
      cases this
    exact leads_modify (leads_pure ⟨retypes.trans (.setType ty free), members', value', found, rfl⟩)
  next => exact leads_pure ⟨retypes, members', value', found, rfl⟩

theorem leads_ret {result : Ty} {value : Option (Expr Atom)}
    (bound : ∀ e ∈ value.toList, e.ResolvedIn known)
    (settled : ∀ id, kept id → (s.typeOf id).isComplete = true) :
    Leads (ret structs result value span) s fun st s' =>
      s.Retypes kept s' ∧ ∃ value', (∀ e ∈ value'.toList, Expr.CheckedIn structs known e) ∧
        st = .ret value' span := by
  unfold ret
  cases value with
  | none =>
    dsimp only
    split
    next => exact leads_throw_bind
    next => exact leads_pure ⟨.refl s, none, List.forall_mem_nil _, rfl⟩
  | some value =>
    have here := bound value List.mem_cons_self
    dsimp only
    split
    next =>
      refine leads_bind (leads_expr structs _ here settled) fun _ _ _ => ?_
      exact leads_throw_bind
    next =>
      refine leads_bind (leads_expr structs _ here settled) ?_
      rintro ⟨ty, value'⟩ s' ⟨found, retypes⟩
      exact leads_pure ⟨retypes, some value', List.forall_mem_singleton.mpr found, rfl⟩

theorem meets_finding (structs : StructTable) (result : Ty) (kept : Nat → Prop) :
    (pass structs result).Meets (finding structs kept) result where
  refl := .refl
  trans := .trans
  state_subset _ state := state
  state_moves moves state id keep := by
    rw [moves.isParam, moves.types id keep]
    exact state id keep
  after_moves _ _ after := after
  conditionAfter_moves _ _ after := after
  enter state := leads_pure ⟨.refl _, state⟩
  condition {e known s} bound state := by
    refine leads_bind (leads_expr structs _ bound fun id keep => (state id keep).2) ?_
    rintro ⟨ty, e'⟩ s' ⟨found, retypes⟩
    exact leads_pure ⟨retypes, found⟩
  simple {st known s} isSimple before state := by
    obtain ⟨⟨complete, bound, head⟩, free⟩ := before
    have settled : ∀ id, kept id → (s.typeOf id).isComplete = true := fun id keep => (state id keep).2
    cases st with
    | branch | loop => cases isSimple
    | declare name ty init var hidden span =>
      cases var with
      | none => exact leads_throw
      | some id =>
        refine leads_bind (leads_declaration structs bound (free id List.mem_cons_self) settled) ?_
        rintro init' s' ⟨found, retypes⟩
        exact leads_pure ⟨retypes, ⟨complete, found, rfl⟩, rfl, rfl⟩
    | assign target binding members value span =>
      refine (leads_assignment structs (bound value List.mem_cons_self) state).imp ?_
      rintro _ s' ⟨retypes, members', value', found, rfl⟩
      exact ⟨retypes, ⟨complete, List.forall_mem_singleton.mpr found, head⟩, rfl, rfl⟩
    | eval value span =>
      refine leads_bind (leads_expr structs _ (bound value List.mem_cons_self) settled) ?_
      rintro ⟨ty, value'⟩ s' ⟨found, retypes⟩
      exact leads_pure ⟨retypes, ⟨complete, List.forall_mem_singleton.mpr found, trivial⟩, rfl, rfl⟩
    | ret value span =>
      refine (leads_ret structs bound settled).imp ?_
      rintro _ s' ⟨retypes, value', found, rfl⟩
      exact ⟨retypes, ⟨complete, found, trivial⟩, rfl, rfl⟩
    | breakOut | continueLoop =>
      exact leads_pure ⟨.refl s, ⟨complete, List.forall_mem_nil _, trivial⟩, rfl, rfl⟩

end Check

end EbLang
