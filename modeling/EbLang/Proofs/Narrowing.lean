import EbLang.Proofs.Sessions
import EbLang.Proofs.Settling

/-!
# Types that only shrink

A variable in an expression is read with the type that it has there, and each operand keeps a copy of
the types it was computed from.  What narrows an operand sets all variables it is linked to, also those
that have been narrowed since they were read; so a type may grow back in the middle of a statement.
But it is never more than the type at the start of the statement, since no operand is.

The bound holds for every variable that a statement does not declare itself.  It needs the members of
structs to have one type each, and resolving a file keeps to that.
-/

namespace EbLang

variable {σ : Type}

/-! ## Reading an expression -/

/-- No variable has got more than it had, apart from some. -/
def Scopes.Shrinks (free : List Nat) (s s' : Scopes) : Prop :=
  ∀ id, id ∉ free → (s'.typeOf id).Within (s.typeOf id)

namespace Scopes.Shrinks

variable {free free' : List Nat} {s s1 s2 : Scopes} {id : Nat} {ty : Ty}

theorem refl (s : Scopes) : Shrinks free s s := fun _ _ => .refl _

theorem trans (h : Shrinks free s s1) (h' : Shrinks free' s1 s2) : Shrinks (free ++ free') s s2 := by
  intro id kept
  simp only [List.mem_append, not_or] at kept
  exact (h' id kept.2).trans (h id kept.1)

theorem setType (h : Shrinks free s s1) (within : id ∉ free → ty.Within (s.typeOf id)) :
    Shrinks free s (s1.setType id ty) := by
  intro q kept
  by_cases same : q = id
  · subst same
    cases known : s1.var? q with
    | some v =>
      rw [typeOf_setType_self ty (by rw [known]; rfl)]
      exact within kept
    | none =>
      have : (s1.setType q ty).typeOf q = s1.typeOf q := by
        rw [typeOf, var?_setType, if_pos rfl, typeOf, known]
        rfl
      rw [this]
      exact h q kept
  · rw [typeOf_setType_ne same]
    exact h q kept

end Scopes.Shrinks

/-- The variables that an operand is linked to had its type when they were read, and it is open. -/
theorem linking_shrinks (s : Scopes) :
    Linking (fun t u => ∀ set, u = .prims set → t.Within u)
      (fun t id => (∃ set, t = .prims set) ∧ t.Within (s.typeOf id)) (s.Shrinks []) where
  set below shrinks := shrinks.setType fun _ => below.2
  less := by
    rintro t _ id within ⟨⟨set, rfl⟩, less⟩
    have less' := within set rfl
    exact ⟨less'.isOpen, less'.trans less⟩
  within less := less
  read {s' id} shrinks isOpen := by
    refine ⟨?_, shrinks id List.not_mem_nil⟩
    cases ty : s'.typeOf id with
    | prims set => exact ⟨set, rfl⟩
    | struct r =>
      rw [ty] at isOpen
      cases isOpen

/-! ## Checking a function -/

/-- The members of all structs have one type each. -/
def StructTable.IsSettled (t : StructTable) : Prop :=
  ∀ row ∈ t.rows, ∀ m ∈ row, m.ty.isComplete = true

namespace StructTable.IsSettled

variable {t : StructTable} {ty memberTy : Ty} {s : Scopes}

theorem memberAt? {index : Nat} (h : t.IsSettled) (found : t.memberAt? ty index = some memberTy) :
    memberTy.isComplete = true := by
  cases ty with
  | prims set => cases found
  | struct r =>
    obtain ⟨m, there, rfl⟩ := Option.map_eq_some_iff.mp found
    have member : m ∈ t.rows.getD r.row [] := List.mem_of_getElem? there
    cases row : t.rows[r.row]? with
    | none => simp [List.getD, row] at member
    | some ms =>
      simp only [List.getD, row, Option.getD_some] at member
      exact h ms (List.mem_of_getElem? row) m member

/-- A path of members ends where it starts or at one type. -/
theorem path (h : t.IsSettled) : ∀ {ms : List MemberRef} {ty : Ty},
    ms.foldlM (fun ty m => m.index.bind (t.memberAt? ty)) ty = some memberTy →
    memberTy = ty ∨ memberTy.isComplete = true
  | [], _, found => by
    cases found
    exact .inl rfl
  | m :: ms, ty, found => by
    obtain ⟨next, first, others⟩ := Option.bind_eq_some_iff.mp found
    obtain ⟨index, -, here⟩ := Option.bind_eq_some_iff.mp first
    rcases h.path others with rfl | complete
    · exact .inr (h.memberAt? here)
    · exact .inr complete

/-- A place whose type is open is a whole variable. -/
theorem place? (h : t.IsSettled) {id : Nat} {ms : List MemberRef}
    (found : EbLang.place? t s (some (.localVar id)) ms = some ty) (isOpen : ty.isComplete = false) :
    ty = s.typeOf id := by
  rcases h.path found with same | complete
  · exact same
  · rw [isOpen] at complete
    cases complete

end StructTable.IsSettled

namespace Check

variable {structs : StructTable} {s : Scopes} {result : Ty}
variable {e : Expr Atom} {span : Span} {declared others known : List Nat}

/-- An expression narrows variables, and gets a type within the one asked for. -/
theorem shrinks_expr {expected : Option Ty} :
    Leads (expr structs e expected) s fun r s' =>
      s.Shrinks [] s' ∧ ∀ set, expected = some (.prims set) → r.1.Within (.prims set) := by
  refine (reads_expr (D := fun _ => True) structs expected (linking_shrinks s) (fun _ => trivial)
    (fun _ _ => trivial) (fun _ _ _ => trivial) (.refl s)).imp ?_
  rintro r s' ⟨-, shrinks⟩
  exact shrinks

theorem shrinks_condition :
    Leads (condition structs e) s fun _ s' => s.Shrinks [] s' := by
  refine leads_bind shrinks_expr ?_
  rintro r s' ⟨types, -⟩
  exact leads_pure types

theorem shrinks_conditions : ∀ {es : List (Expr Atom)} {s : Scopes},
    Leads (es.mapM (condition structs)) s fun _ s' => s.Shrinks [] s'
  | [], s => by
    exact leads_pure (.refl s)
  | e :: es, s => by
    rw [List.mapM_cons]
    refine leads_bind shrinks_condition fun e' s1 first => ?_
    exact leads_bind shrinks_conditions fun es' s2 others => leads_pure (first.trans others)

theorem shrinks_declaration {ty : Option TypeName} {init : Option (Expr Atom)} {id : Nat} :
    Leads (declaration structs ty init id) s fun _ s' => s.Shrinks [id] s' := by
  have own {s' : Scopes} (types : s.Shrinks [] s') (t : Ty) : s.Shrinks [id] (s'.setType id t) := by
    refine Scopes.Shrinks.setType (fun q _ => types q List.not_mem_nil) fun free => ?_
    exact absurd List.mem_cons_self free
  refine leads_get ?_
  cases init with
  | none => exact leads_modify (leads_pure (own (.refl s) _))
  | some e =>
    refine leads_bind shrinks_expr ?_
    rintro ⟨t, checked⟩ s' ⟨types, -⟩
    simp only
    split
    next => exact leads_throw_bind
    next => exact leads_modify (leads_pure (own types t))

/-- An assignment to a variable whose type is open sets it to a type within the one that was read
before the value. -/
theorem shrinks_assignment (settled : structs.IsSettled) {target : String}
    {binding : Option Binding} {members : List MemberRef} {value : Expr Atom} :
    Leads (assignment structs target binding members value span) s fun _ s' => s.Shrinks [] s' := by
  refine leads_bind leads_writable ?_
  rintro _ _ ⟨rfl, -⟩
  refine leads_bind (leads_assignmentType structs) ?_
  rintro ⟨ty, members'⟩ _ ⟨rfl, -, place⟩
  refine leads_bind shrinks_expr ?_
  rintro ⟨given, value'⟩ s' ⟨types, within⟩
  simp only
  split
  next id isOpen =>
    have same : ty = _ := settled.place? place isOpen
    refine leads_modify (leads_pure (types.setType fun _ => ?_))
    rw [← same]
    cases ty with
    | prims set => exact within set rfl
    | struct r => cases isOpen
  next => exact leads_pure types

theorem shrinks_ret {value : Option (Expr Atom)} :
    Leads (ret structs result value span) s fun _ s' => s.Shrinks [] s' := by
  simp only [ret]
  cases value with
  | none =>
    simp only
    split
    next => exact leads_throw_bind
    next => exact leads_pure (.refl s)
  | some value =>
    simp only
    split
    next =>
      refine leads_bind shrinks_expr fun _ _ _ => ?_
      exact leads_throw_bind
    next =>
      refine leads_bind shrinks_expr ?_
      rintro r s' ⟨types, -⟩
      exact leads_pure types

/-- Nothing comes before the statements of a block. -/
theorem pass_block (id : Nat) (body : List (Stmt Atom)) (span : Span) :
    (pass structs result).block (.mk id body span) =
      do return .mk id (← (pass structs result).stmts body) span :=
  rfl

mutual

theorem shrinks_block (settled : structs.IsSettled) : ∀ (b : Block Atom) {s : Scopes},
    Leads ((pass structs result).block b) s fun _ s' => s.Shrinks b.declared s'
  | .mk id body span, s => by
    rw [pass_block]
    exact leads_bind (shrinks_stmts settled body) fun _ _ types => leads_pure types

theorem shrinks_stmts (settled : structs.IsSettled) : ∀ (ss : List (Stmt Atom)) {s : Scopes},
    Leads ((pass structs result).stmts ss) s fun _ s' => s.Shrinks (declaredBy ss) s'
  | [], s => by
    exact leads_pure (.refl s)
  | st :: ss, s => by
    refine leads_bind (shrinks_stmt settled st) fun _ _ first => ?_
    exact leads_bind (shrinks_stmts settled ss) fun _ _ others => leads_pure (first.trans others)

/-- A statement only narrows variables, apart from those that it declares. -/
theorem shrinks_stmt (settled : structs.IsSettled) : ∀ (st : Stmt Atom) {s : Scopes},
    Leads ((pass structs result).stmt st) s fun _ s' => s.Shrinks st.declared s'
  | .declare name ty init none hidden span, s => by
    exact leads_throw
  | .declare name ty init (some id) hidden span, s => by
    exact leads_bind shrinks_declaration fun _ _ types => leads_pure types
  | .assign target binding members value span, s => by
    exact shrinks_assignment settled
  | .eval value span, s => by
    refine leads_bind shrinks_expr ?_
    rintro r s' ⟨types, -⟩
    exact leads_pure types
  | .ret value span, s => by
    exact shrinks_ret
  | .branch arms otherwise span, s => by
    refine leads_bind shrinks_conditions fun _ _ conditions => ?_
    refine leads_bind (shrinks_blocks settled arms) fun _ _ bodies => ?_
    refine leads_bind (shrinks_optionalBlock settled otherwise) fun _ _ last => ?_
    exact leads_pure ((conditions.trans bodies).trans last)
  | .loop c body span, s => by
    refine leads_bind shrinks_condition fun _ _ condition => ?_
    refine leads_bind (shrinks_block settled body) fun _ _ inside => ?_
    exact leads_pure (condition.trans inside)
  | .breakOut amount span, s | .continueLoop span, s => by
    exact leads_pure (.refl s)

theorem shrinks_blocks (settled : structs.IsSettled) : ∀ (arms : List (Arm Atom)) {s : Scopes},
    Leads ((pass structs result).bodies arms) s fun _ s' => s.Shrinks (declaredByArms arms) s'
  | [], s => by
    exact leads_pure (.refl s)
  | .mk condition body :: arms, s => by
    refine leads_bind (shrinks_block settled body) fun _ _ first => ?_
    exact leads_bind (shrinks_blocks settled arms) fun _ _ others => leads_pure (first.trans others)

theorem shrinks_optionalBlock (settled : structs.IsSettled) :
    ∀ (b : Option (Block Atom)) {s : Scopes},
      Leads ((pass structs result).otherwise b) s fun _ s' => s.Shrinks (declaredByOtherwise b) s'
  | none, s => by
    exact leads_pure (.refl s)
  | some body, s => by
    exact leads_bind (shrinks_block settled body) fun _ _ types => leads_pure types

end

/-! ## The statements that are checked -/

section Reaches

variable (structs : StructTable) (result : Ty) (last : List Nat) (before : Scopes) (t : Stmt Atom)

mutual

/-- Checking a statement comes to the statement `t` in it.  The lists are the variables whose
declarations have been checked before each of the two, and the scopes those that the check of each
starts with. -/
inductive StmtReaches : List Nat → Scopes → Stmt Atom → Prop
  | here : StmtReaches last before t
  | arm {known : List Nat} {s s1 : Scopes} {arms : List (Arm Atom)}
      {otherwise : Option (Block Atom)} {span : Span} {conditions : List (Expr Atom)} :
      Gives ((arms.map Arm.condition).mapM (condition structs)) s conditions s1 →
      ArmsReach known s1 arms → StmtReaches known s (.branch arms otherwise span)
  | otherwise {known : List Nat} {s s1 s2 : Scopes} {arms : List (Arm Atom)} {b : Block Atom}
      {span : Span} {conditions : List (Expr Atom)} {bodies : List (Block Atom)} :
      Gives ((arms.map Arm.condition).mapM (condition structs)) s conditions s1 →
      Gives ((pass structs result).bodies arms) s1 bodies s2 →
      StmtsReach (declaredByArms arms ++ known) s2 b.body →
      StmtReaches known s (.branch arms (some b) span)
  | loop {known : List Nat} {s s1 : Scopes} {c c' : Expr Atom} {b : Block Atom} {span : Span} :
      Gives (condition structs c) s c' s1 → StmtsReach known s1 b.body →
      StmtReaches known s (.loop c b span)

/-- Checking the bodies of some arms comes to a statement in one of them. -/
inductive ArmsReach : List Nat → Scopes → List (Arm Atom) → Prop
  | here {known : List Nat} {s : Scopes} {c : Expr Atom} {b : Block Atom} {arms : List (Arm Atom)} :
      StmtsReach known s b.body → ArmsReach known s (.mk c b :: arms)
  | later {known : List Nat} {s s1 : Scopes} {c : Expr Atom} {b b' : Block Atom}
      {arms : List (Arm Atom)} : Gives ((pass structs result).block b) s b' s1 →
      ArmsReach (b.declared ++ known) s1 arms → ArmsReach known s (.mk c b :: arms)

/-- Checking some statements comes to a statement in one of them. -/
inductive StmtsReach : List Nat → Scopes → List (Stmt Atom) → Prop
  | here {known : List Nat} {s : Scopes} {st : Stmt Atom} {ss : List (Stmt Atom)} :
      StmtReaches known s st → StmtsReach known s (st :: ss)
  | later {known : List Nat} {s s1 : Scopes} {st st' : Stmt Atom} {ss : List (Stmt Atom)} :
      Gives ((pass structs result).stmt st) s st' s1 →
      StmtsReach (st.declared ++ known) s1 ss → StmtsReach known s (st :: ss)

end

/-- Checking some functions comes to a statement in one of them, a function with the given result. -/
inductive FunctionsReach : List Nat → Scopes → List (FunctionItem Atom) → Prop
  | here {known : List Nat} {s : Scopes} {f : FunctionItem Atom} {fs : List (FunctionItem Atom)}
      {sig : Signature} : f.signature = some sig → sig.result = result →
      StmtsReach structs result last before t known s f.body.body →
      FunctionsReach known s (f :: fs)
  | later {known : List Nat} {s s1 : Scopes} {f f' : FunctionItem Atom}
      {fs : List (FunctionItem Atom)} : Gives (Pass.function (pass structs) f) s f' s1 →
      FunctionsReach (f.body.declared ++ known) s1 fs → FunctionsReach known s (f :: fs)

end Reaches

variable {last : List Nat} {before : Scopes} {t : Stmt Atom}

theorem nodup_later (h : ((declared ++ others) ++ known).Nodup) :
    (others ++ (declared ++ known)).Nodup := by
  rw [List.append_assoc] at h
  refine (List.Perm.nodup_iff ?_).mp h
  rw [← List.append_assoc, ← List.append_assoc]
  exact List.perm_append_comm.append_right known

theorem nodup_here (h : ((declared ++ others) ++ known).Nodup) :
    (declared ++ known).Nodup :=
  h.sublist ((List.sublist_append_left declared others).append_right known)

/-- A statement declares variables among the given ones, and none of those declared before it. -/
def IsFresh (last : List Nat) (t : Stmt Atom) (among : List Nat) : Prop :=
  (t.declared ++ last).Nodup ∧ t.declared ⊆ among

theorem IsFresh.left (h : IsFresh last t declared) : IsFresh last t (declared ++ others) :=
  ⟨h.1, List.Subset.trans h.2 (List.subset_append_left _ _)⟩

theorem IsFresh.right (h : IsFresh last t others) : IsFresh last t (declared ++ others) :=
  ⟨h.1, List.Subset.trans h.2 (List.subset_append_right _ _)⟩

/-- A block declares what its statements do. -/
theorem IsFresh.of_body {b : Block Atom}
    (h : (declaredBy b.body ++ known).Nodup → IsFresh last t (declaredBy b.body)) :
    (b.declared ++ known).Nodup → IsFresh last t b.declared := by
  cases b
  exact h

mutual

/-- A statement that is come to declares none of the variables declared before it. -/
theorem StmtReaches.fresh : ∀ {known : List Nat} {s : Scopes} {st : Stmt Atom},
    StmtReaches structs result last before t known s st → (st.declared ++ known).Nodup →
      IsFresh last t st.declared
  | _, _, _, .here, nodup => ⟨nodup, List.Subset.refl _⟩
  | _, _, _, .arm _ reach, nodup => (reach.fresh (nodup_here nodup)).left
  | _, _, _, .otherwise _ _ reach, nodup => (IsFresh.of_body reach.fresh (nodup_later nodup)).right
  | _, _, _, .loop _ reach, nodup => IsFresh.of_body reach.fresh nodup

theorem ArmsReach.fresh : ∀ {known : List Nat} {s : Scopes} {arms : List (Arm Atom)},
    ArmsReach structs result last before t known s arms → (declaredByArms arms ++ known).Nodup →
      IsFresh last t (declaredByArms arms)
  | _, _, _, .here reach, nodup => (IsFresh.of_body reach.fresh (nodup_here nodup)).left
  | _, _, _, .later _ reach, nodup => (reach.fresh (nodup_later nodup)).right

theorem StmtsReach.fresh : ∀ {known : List Nat} {s : Scopes} {ss : List (Stmt Atom)},
    StmtsReach structs result last before t known s ss → (declaredBy ss ++ known).Nodup →
      IsFresh last t (declaredBy ss)
  | _, _, _, .here reach, nodup => (reach.fresh (nodup_here nodup)).left
  | _, _, _, .later _ reach, nodup => (reach.fresh (nodup_later nodup)).right

end

theorem FunctionsReach.fresh {fs : List (FunctionItem Atom)}
    (h : FunctionsReach structs result last before t known s fs)
    (nodup : (declaredIn fs ++ known).Nodup) : IsFresh last t (declaredIn fs) := by
  induction h with
  | here _ _ reach => exact (IsFresh.of_body reach.fresh (nodup_here nodup)).left
  | later _ _ ih => exact (ih (nodup_later nodup)).right

section Visits

variable {Q : Stmt Atom → Prop}

mutual

/-- Checking a statement comes to every statement in it, and checks it from there. -/
theorem visits_stmt : ∀ (st : Stmt Atom) {known : List Nat} {s s' : Scopes} {st' : Stmt Atom},
    Gives ((pass structs result).stmt st) s st' s' →
    (∀ {last before t t' after}, StmtReaches structs result last before t known s st →
      Gives ((pass structs result).stmt t) before t' after → Q t) → st.Everywhere Q
  | .branch arms none span, _, _, _, _, given, come => by
    obtain ⟨conditions, s1, typed, rest⟩ := Gives.of_bind given
    obtain ⟨bodies, s2, inArms, -⟩ := Gives.of_bind rest
    exact ⟨come .here given, visits_arms arms inArms fun reach => come (.arm typed reach), trivial⟩
  | .branch arms (some b) span, _, _, _, _, given, come => by
    obtain ⟨conditions, s1, typed, rest⟩ := Gives.of_bind given
    obtain ⟨bodies, s2, inArms, rest⟩ := Gives.of_bind rest
    obtain ⟨_, _, last, -⟩ := Gives.of_bind rest
    obtain ⟨_, _, inLast, -⟩ := Gives.of_bind last
    exact ⟨come .here given, visits_arms arms inArms fun reach => come (.arm typed reach),
      visits_block b inLast fun reach => come (.otherwise typed inArms reach)⟩
  | .loop c b span, _, _, _, _, given, come => by
    obtain ⟨c', s1, typed, rest⟩ := Gives.of_bind given
    obtain ⟨_, _, inside, -⟩ := Gives.of_bind rest
    exact ⟨come .here given, visits_block b inside fun reach => come (.loop typed reach)⟩
  | .declare .., _, _, _, _, given, come | .assign .., _, _, _, _, given, come
  | .eval .., _, _, _, _, given, come | .ret .., _, _, _, _, given, come
  | .breakOut .., _, _, _, _, given, come | .continueLoop .., _, _, _, _, given, come =>
    come .here given

theorem visits_arms :
    ∀ (arms : List (Arm Atom)) {known : List Nat} {s s' : Scopes} {bodies : List (Block Atom)},
    Gives ((pass structs result).bodies arms) s bodies s' →
    (∀ {last before t t' after}, ArmsReach structs result last before t known s arms →
      Gives ((pass structs result).stmt t) before t' after → Q t) → ArmsEverywhere Q arms
  | [], _, _, _, _, _, _ => trivial
  | .mk c b :: arms, _, _, _, _, given, come => by
    obtain ⟨b', s1, first, rest⟩ := Gives.of_bind given
    obtain ⟨_, _, others, -⟩ := Gives.of_bind rest
    exact ⟨visits_block b first fun reach => come (.here reach),
      visits_arms arms others fun reach => come (.later first reach)⟩

theorem visits_block : ∀ (b : Block Atom) {known : List Nat} {s s' : Scopes} {b' : Block Atom},
    Gives ((pass structs result).block b) s b' s' →
    (∀ {last before t t' after}, StmtsReach structs result last before t known s b.body →
      Gives ((pass structs result).stmt t) before t' after → Q t) → b.Everywhere Q
  | .mk id body span, _, _, _, _, given, come => by
    rw [pass_block] at given
    obtain ⟨_, _, inside, -⟩ := Gives.of_bind given
    exact visits_stmts body inside come

theorem visits_stmts :
    ∀ (ss : List (Stmt Atom)) {known : List Nat} {s s' : Scopes} {ss' : List (Stmt Atom)},
    Gives ((pass structs result).stmts ss) s ss' s' →
    (∀ {last before t t' after}, StmtsReach structs result last before t known s ss →
      Gives ((pass structs result).stmt t) before t' after → Q t) → StmtsEverywhere Q ss
  | [], _, _, _, _, _, _ => trivial
  | st :: ss, _, _, _, _, given, come => by
    obtain ⟨st', s1, first, rest⟩ := Gives.of_bind given
    obtain ⟨_, _, others, -⟩ := Gives.of_bind rest
    exact ⟨visits_stmt st first fun reach => come (.here reach),
      visits_stmts ss others fun reach => come (.later first reach)⟩

end

/-- Checking some functions comes to every statement of those that are declared. -/
theorem visits_functions {fs : List (FunctionItem Atom)} (known : List Nat)
    (come : ∀ {result last before t t' after},
      FunctionsReach structs result last before t known s fs →
      Gives ((pass structs result).stmt t) before t' after → Q t) :
    Leads (fs.mapM (Pass.function (pass structs))) s fun _ _ =>
      ∀ f ∈ fs, f.signature.isSome = true → f.body.Everywhere Q := by
  induction fs generalizing known s with
  | nil => exact leads_pure (List.forall_mem_nil _)
  | cons f fs ih =>
    rw [List.mapM_cons]
    intro _ _ given
    obtain ⟨f', s1, first, rest⟩ := Gives.of_bind given
    obtain ⟨fs', s2, others, -⟩ := Gives.of_bind rest
    refine List.forall_mem_cons.mpr
      ⟨fun declared => ?_, ih _ (fun reach => come (.later first reach)) fs' s2 others⟩
    obtain ⟨sig, signature⟩ := Option.isSome_iff_exists.mp declared
    unfold Pass.function at first
    rw [signature] at first
    obtain ⟨_, _, inside, -⟩ := Gives.of_bind first
    exact visits_block f.body inside fun reach => come (.here signature rfl reach)

end Visits

end Check

/-! ## Struct tables -/

namespace StructTable.IsSettled

variable {t : StructTable}

theorem addRow (h : t.IsSettled) : t.addRow.IsSettled := by
  refine List.forall_mem_append.mpr ⟨h, List.forall_mem_singleton.mpr ?_⟩
  exact List.forall_mem_nil _

theorem setMembers (h : t.IsSettled) (r : StructRef) {ms : List Member}
    (complete : ∀ m ∈ ms, m.ty.isComplete = true) : (t.setMembers r ms).IsSettled := by
  intro row member
  rcases List.mem_or_eq_of_mem_set member with member | rfl
  · exact h row member
  · exact complete

end StructTable.IsSettled

/-- Loading a file leaves the members of all structs with one type each. -/
def Loader.KeepsSettled (loader : Loader σ) : Prop :=
  ∀ file position, Keep (fun s => s.structs.IsSettled) (loader file position) (loader file position)

namespace Loader.KeepsSettled

variable {loader : Loader σ}

theorem steady (h : loader.KeepsSettled) :
    Resolving.Steady (fun n => n.shared.structs.IsSettled) loader loader where
  scopes _ _ settled := settled
  externals _ _ settled := settled
  decls _ _ settled := settled
  addRow _ settled := settled.addRow
  setMembers _ r _ complete settled := settled.setMembers r complete
  imports file path position := by
    refine Resolving.keep_importFile (fun n i settled _ => settled) (Resolving.agree_lift ?_) path
    intro n settled
    obtain ⟨same, leads⟩ := h file position n.shared settled
    exact ⟨same, leads.imp fun decls shared settled path => settled⟩

theorem resolve (h : loader.KeepsSettled) (t : FileTree Atom) :
    Keep (fun s => s.structs.IsSettled) (t.resolve loader) (t.resolve loader) := by
  refine (t.agree_resolve h.steady fun shared settled => settled).imp ?_
  rintro m shared ⟨n, settled, rfl, -⟩
  exact settled

theorem analyseLexed (h : loader.KeepsSettled) (l : Lexed) (name : String) :
    Keep (fun s => s.structs.IsSettled) (analyseLexed loader l name) (analyseLexed loader l name) := by
  refine (agree_analyseLexed h.steady l name fun shared settled => settled).imp ?_
  rintro m shared ⟨n, settled, rfl, -⟩
  exact settled

end Loader.KeepsSettled

namespace Build

section World

variable {I : Shared Build → Prop} (h : ∀ s world, I s → I { s with world })
include h

theorem keep_change (f : Build → Build) : Keep I (change f) (change f) :=
  agree_modify fun s hs => h s _ hs

theorem keep_writeFile (p : Path) (content : Bytes) :
    Keep I (writeFile p content) (writeFile p content) := by
  refine agree_read fun s => ?_
  cases s.world.store.write p content .fresh with
  | ok store => exact agree_bind (keep_pure store) fun _ => keep_change h _
  | error f => exact agree_throw

theorem keep_makeDirectory (p : Path) : Keep I (makeDirectory p) (makeDirectory p) := by
  simp only [makeDirectory, current, bind_assoc, pure_bind]
  refine agree_read fun s => agree_bind (keep_change h _) fun _ => ?_
  cases (s.world.store.makeDirs p).2 with
  | none => exact keep_pure _
  | some fault => exact agree_throw

/-- What an analysed file leaves on disk is no matter of the structs. -/
theorem keep_writeOutputs (f : SourceFile) (m : Module) :
    Keep I (writeOutputs f m) (writeOutputs f m) := by
  refine agree_read fun s => agree_bind (keep_makeDirectory h _) fun _ => agree_read fun s' => ?_
  refine agree_bind (keep_writeFile h _ _) fun _ => ?_
  split
  · exact keep_writeFile h _ _
  · exact keep_pure _

end World

theorem keepsSettled_importWith (depth : Nat) : (importWith (analyseWithin depth)).KeepsSettled := by
  refine keep_importWith ?_
  induction depth with
  | zero => exact fun index => keep_pure _
  | succ depth ih =>
    intro index
    have change (f : Build → Build) := keep_change (I := fun s => s.structs.IsSettled)
      (fun _ _ settled => settled) f
    have loader : (importWith (analyseWithin depth)).KeepsSettled := keep_importWith ih
    refine agree_read fun s => ?_
    split
    · exact keep_pure _
    · split
      · exact keep_pure _
      · refine agree_bind (change _) fun _ => ?_
        split
        · exact change _
        · refine agree_bind (loader.analyseLexed _ _) fun m => ?_
          refine agree_bind (keep_writeOutputs (fun _ _ settled => settled) _ m) fun _ => ?_
          exact change _

end Build

/-! ## Types only shrink -/

/-- Once the declaration of a variable has been checked, no statement that is checked gives it a type
that is not within the one it had; neither does any to a parameter.  A module that passes has had each
of its statements checked.  Files that have been read have blocks with different numbers, and struct
tables start empty and stay settled in a build. -/
theorem checked_types_shrink :
    (∀ (l : Lexed) (name : String), Ensures (readTree l name) fun t => (itemNumbers t.items).Nodup) ∧
    (∀ depth, (Build.importWith (Build.analyseWithin depth)).KeepsSettled) ∧
    ∀ (σ : Type) (loader : Loader σ) (t : FileTree Atom) (shared shared' : Shared σ) (m : Module),
      loader.KeepsSettled → (itemNumbers t.items).Nodup → shared.structs.IsSettled →
      Gives (t.resolve loader) shared m shared' → shared'.structs.IsSettled ∧
      (∀ scopes known before result st st' after,
        Check.FunctionsReach shared'.structs result known before st [] scopes m.tree.functions →
        Gives ((Check.pass shared'.structs result).stmt st) before st' after →
        ∀ id, id ∈ known ∨ id ∉ declaredIn m.tree.functions →
          (after.typeOf id).Within (before.typeOf id)) ∧
      Ensures (m.typeCheck shared'.structs) fun _ => ∀ f ∈ m.tree.functions,
        f.body.Everywhere fun st => ∃ result known before st' after,
          Check.FunctionsReach shared'.structs result known before st [] m.scopes m.tree.functions ∧
            Gives ((Check.pass shared'.structs result).stmt st) before st' after := by
  refine ⟨ensures_readTree_nodup, Build.keepsSettled_importWith, ?_⟩
  intro σ loader t shared shared' m keeps nodup start resolved
  have settled := (keeps.resolve t).leads start m shared' resolved
  obtain ⟨fs, -, file⟩ := t.leads_resolve loader nodup shared m shared' resolved
  refine ⟨settled, ?_, ?_⟩
  · intro scopes known before result st st' after reach checked id isKnown
    have distinct : (declaredIn m.tree.functions ++ []).Nodup := by
      rw [List.append_nil]
      exact file.judged.nodup_declared.2
    obtain ⟨apart, among⟩ := reach.fresh distinct
    refine Check.shrinks_stmt settled st st' after checked id fun own => ?_
    rcases isKnown with isKnown | new
    · exact (List.nodup_append'.mp apart).2.2 own isKnown
    · exact new (among own)
  · intro m' passed f member
    obtain ⟨sig, declared⟩ := file.declared f member
    refine Module.ensures_walk_of_leads (Check.visits_functions [] fun reach given => ?_) m' passed
      f member (Option.isSome_iff_exists.mpr ⟨sig, declared.signature⟩)
    exact ⟨_, _, _, _, _, reach, given⟩

/-- A function whose variable is open until it is added to the parameter. -/
def narrowedSum : String :=
  "fn f(n: I64): I64 \x7b\n" ++
  "  x := 1\n" ++
  "  x = x * 2 + n + x\n" ++
  "  return x\n" ++
  "\x7d"

/-- What a check says of the scopes before and after the second statement of a file. -/
def secondChecksAs (source : String) (check : Scopes → Scopes → Bool) : Bool :=
  resultAs (scan source "m") fun l => resultAs (readTree l "m") fun t =>
    givesAs (t.resolve noFiles) ⟨{}, ()⟩ fun m shared =>
      match m.tree.functions with
      | [] => false
      | f :: _ =>
        match f.signature, f.body with
        | some sig, .mk _ (st :: next :: _) _ =>
          givesAs ((Check.pass shared.structs sig.result).stmt st) m.scopes fun _ before =>
            givesAs ((Check.pass shared.structs sig.result).stmt next) before fun _ after =>
              (st.declared == [1]) && check before after
        | _, _ => false

theorem exists_of_secondChecksAs {source : String} {check : Scopes → Scopes → Bool}
    (h : secondChecksAs source check = true) :
    ∃ l t m shared result st st' before after, readTree l "m" = .ok t ∧
      Gives (t.resolve noFiles) ⟨{}, ()⟩ m shared ∧
      Check.FunctionsReach shared.structs result [1] before st [] m.scopes m.tree.functions ∧
      Gives ((Check.pass shared.structs result).stmt st) before st' after ∧ check before after = true := by
  obtain ⟨l, -, h⟩ := exists_of_resultAs h
  obtain ⟨t, read, h⟩ := exists_of_resultAs h
  obtain ⟨m, shared, resolved, h⟩ := exists_of_givesAs h
  split at h
  next => cases h
  next f fs functions =>
    split at h
    next sig id st next rest span signature body =>
      obtain ⟨st', before, first, h⟩ := exists_of_givesAs h
      obtain ⟨next', after, second, h⟩ := exists_of_givesAs h
      rw [Bool.and_eq_true] at h
      have declared : st.declared = [1] := by simpa using h.1
      refine ⟨l, t, m, shared, sig.result, next, next', before, after, read, resolved, ?_, second,
        h.2⟩
      rw [functions]
      refine .here signature rfl ?_
      rw [body]
      refine .later first (.here ?_)
      rw [declared]
      exact .here
    next => cases h

theorem checked_types_shrink_narrowedSum :
    ∃ l t m shared result st st' before after, readTree l "m" = .ok t ∧
      Gives (t.resolve noFiles) ⟨{}, ()⟩ m shared ∧
      Check.FunctionsReach shared.structs result [1] before st [] m.scopes m.tree.functions ∧
      Gives ((Check.pass shared.structs result).stmt st) before st' after ∧
      (before.typeOf 1).isComplete = false ∧ after.typeOf 1 = .ofPrim .i64 ∧
      (after.typeOf 1).Within (before.typeOf 1) := by
  have narrows : secondChecksAs narrowedSum (fun before after =>
      !(before.typeOf 1).isComplete && decide (after.typeOf 1 = .ofPrim .i64)) = true := by
    decide +kernel
  obtain ⟨l, t, m, shared, result, st, st', before, after, read, resolved, reach, checked, types⟩ :=
    exists_of_secondChecksAs narrows
  rw [Bool.and_eq_true, Bool.not_eq_true'] at types
  obtain ⟨numbered, -, shrinks⟩ := checked_types_shrink
  have keeps : noFiles.KeepsSettled := fun file position => agree_throw
  have empty : StructTable.IsSettled {} := List.forall_mem_nil _
  have within := (shrinks Unit noFiles t ⟨{}, ()⟩ shared m keeps (numbered l "m" t read) empty
    resolved).2.1 _ _ _ _ _ _ _ reach checked 1 (.inl List.mem_cons_self)
  exact ⟨l, t, m, shared, result, st, st', before, after, read, resolved, reach, checked, types.1,
    of_decide_eq_true types.2, within⟩

end EbLang
