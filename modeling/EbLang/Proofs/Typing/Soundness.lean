import EbLang.Proofs.Balance.Pipeline
import EbLang.Proofs.Settling.Ready

/-!
# Which modules are well-typed

In an analysed module every step has one type, every name the type of its variable, and every call a
function that accepts its operands unless they are loose.  So the postfix code of a module is
well-typed if and only if the loose values have the types asked for.

They need not: an operand on the stack keeps the type it was read with, and when a call narrows it
the variable is narrowed once more, after calls in between have been bound by what it was before.
-/

namespace EbLang

/-! ## Types of ready expressions -/

section Exprs

variable {structs : StructTable} {s : Scopes}
variable {e : Expr Atom}
variable {os : List Atom}

theorem allSame_eq_looseFit {asked : List Ty} (suit : List.Forall₂ Atom.Suits os asked)
    (complete : ∀ o ∈ os, o.ty.isComplete = true) : allSame (os.map Atom.ty) asked = looseFit os asked := by
  induction suit with
  | nil => rfl
  | @cons o ty os tys first _ ih =>
    obtain ⟨here, others⟩ := List.forall_mem_cons.mp complete
    rw [List.map_cons, allSame, looseFit, ih others]
    cases loose : o.isLoose with
    | true => rfl
    | false => rw [first loose here, Bool.not_false, Bool.true_or]

/-- A step of a ready expression gives its own type exactly if its loose operands fit. -/
theorem Atom.gives?_iff {a : Atom} (accepts : a.Accepts structs os)
    (bound : Verify.isBound a = true) (agrees : a.Agrees s) (length : os.length = a.takes)
    (complete : ∀ o ∈ os, o.ty.isComplete = true) :
    a.gives? structs s (os.map Atom.ty) = some a.ty ↔ a.fitsOperands structs os = true := by
  have bound := (Bool.and_eq_true_iff.mp bound).2
  cases kind : a.kind with
  | literal l =>
    rw [Atom.takes, kind] at length
    cases List.length_eq_zero_iff.mp length
    simp [Atom.gives?, Atom.fitsOperands, kind]
  | var name binding =>
    rw [Atom.takes, kind] at length
    cases List.length_eq_zero_iff.mp length
    rw [kind] at bound
    obtain ⟨b, rfl⟩ := Option.isSome_iff_exists.mp bound
    simp [Atom.gives?, Atom.fitsOperands, kind, agrees name b kind]
  | member m =>
    cases accepts with
    | leaf soft => simp [Atom.isFixed, kind] at soft
    | call kind' => cases kind.symm.trans kind'
    | member kind' operands type =>
      cases kind.symm.trans kind'
      subst operands
      simp only [Atom.gives?, Atom.fitsOperands, kind, List.map_singleton, List.all_cons, List.all_nil,
        Bool.and_true, Bool.or_eq_true, Bool.not_eq_true', beq_iff_eq]
      exact ⟨.inr, fun fits => fits.elim type id⟩
  | call c =>
    rw [kind] at bound
    cases accepts with
    | leaf soft => simp [Atom.isFixed, kind, Option.isSome_iff_ne_none.mp bound] at soft
    | member kind' => cases kind.symm.trans kind'
    | call kind' target type asked suit =>
      cases kind.symm.trans kind'
      have same := allSame_eq_looseFit suit complete
      simp only [Atom.gives?, Atom.fitsOperands, kind, Call.asks?, target, asked, same, type,
        Option.bind_eq_bind, Option.bind_some, Option.getD_some]
      cases looseFit os _ with
      | true => simp
      | false => simp

/-- What is asked of the steps of an expression that has been settled. -/
structure StepsReady (structs : StructTable) (s : Scopes) (stack as : List Atom) : Prop where
  accepts : AllAccept structs stack as
  bound : ∀ a ∈ as, Verify.isBound a = true
  agrees : ∀ a ∈ as, a.Agrees s
  complete : ∀ a ∈ stack, a.ty.isComplete = true

theorem StepsReady.tail {stack as : List Atom} {a : Atom} (h : StepsReady structs s stack (a :: as)) :
    StepsReady structs s (a :: stack.drop a.takes) as where
  accepts := h.accepts.2
  bound := (List.forall_mem_cons.mp h.bound).2
  agrees := (List.forall_mem_cons.mp h.agrees).2
  complete := List.forall_mem_cons.mpr
    ⟨(Bool.and_eq_true_iff.mp (h.bound a List.mem_cons_self)).1,
      fun b member => h.complete b (List.mem_of_mem_drop member)⟩

/-- A step gets stuck unless its loose operands fit. -/
theorem typeStep?_eq {stack as : List Atom} {a : Atom} (h : StepsReady structs s stack (a :: as))
    (enough : a.takes ≤ stack.length) : typeStep? structs s (stack.map Atom.ty) a =
      if a.fitsOperands structs (stack.take a.takes).reverse then
        some ((a :: stack.drop a.takes).map Atom.ty)
      else none := by
  have gives := Atom.gives?_iff h.accepts.1 (h.bound a List.mem_cons_self)
    (h.agrees a List.mem_cons_self) (by simp [enough]) fun o member =>
      h.complete o (List.mem_of_mem_take (List.mem_reverse.mp member))
  have operands : ((stack.map Atom.ty).take a.takes).reverse =
      (stack.take a.takes).reverse.map Atom.ty := by
    rw [List.map_reverse, List.map_take]
  unfold typeStep?
  rw [List.length_map, if_pos enough, operands, List.map_cons, List.map_drop]
  by_cases fits : a.fitsOperands structs (stack.take a.takes).reverse = true
  · rw [if_pos fits, gives.mpr fits, Option.bind_eq_bind, Option.bind_some, if_pos rfl]
  · rw [if_neg fits]
    cases given : a.gives? structs s ((stack.take a.takes).reverse.map Atom.ty) with
    | none => rfl
    | some ty =>
      rw [Option.bind_eq_bind, Option.bind_some, if_neg]
      rintro rfl
      exact fits (gives.mp given)

/-- The types that ready steps leave, if they do not get stuck, are those of the last steps. -/
theorem foldlM_typeStep? : ∀ {as stack : List Atom} {n : Nat}, StepsReady structs s stack as →
    height? Atom.takes stack.length as = some n →
    as.foldlM (typeStep? structs s) (stack.map Atom.ty) =
      (if operandsFit structs stack as then some ((lastAtoms stack as).map Atom.ty) else none) ∧
      (lastAtoms stack as).length = n
  | [], stack, n, _, height => ⟨rfl, Option.some.inj height⟩
  | a :: as, stack, n, h, height => by
    rw [height?] at height
    split at height
    next enough =>
      have length : (a :: stack.drop a.takes).length = stack.length - a.takes + 1 := by simp
      rw [← length] at height
      obtain ⟨types, leaves⟩ := foldlM_typeStep? h.tail height
      refine ⟨?_, leaves⟩
      rw [List.foldlM_cons, typeStep?_eq h enough, operandsFit]
      cases a.fitsOperands structs (stack.take a.takes).reverse with
      | true =>
        rw [if_pos rfl, Option.bind_eq_bind, Option.bind_some, types, Bool.true_and]
        rfl
      | false => rfl
    next => cases height

/-- A settled expression has the type of its last step, if its loose operands fit. -/
theorem Expr.type?_eq (ready : e.Ready s) (accepts : AllAccept structs [] e.terms)
    (balanced : Balanced Atom.takes e.terms) : ∃ a, e.terms.getLast? = some a ∧
      e.type? structs s = if operandsFit structs [] e.terms then some a.ty else none := by
  have steps : StepsReady structs s [] e.terms :=
    ⟨accepts, ready.bound, ready.agrees, List.forall_mem_nil _⟩
  obtain ⟨types, leaves⟩ := foldlM_typeStep? steps balanced
  obtain ⟨a, last⟩ := List.length_eq_one_iff.mp leaves
  have final := head?_lastAtoms e.terms
  rw [last] at final types
  refine ⟨a, final.symm, ?_⟩
  rw [Expr.type?, ← List.map_nil (f := Atom.ty), types]
  cases operandsFit structs [] e.terms with
  | true => rfl
  | false => rfl

/-- An expression has the type that its context asks for exactly if its loose values fit. -/
theorem Expr.any_type?_eq_fits {asked : Ty → Bool} (ready : e.Ready s)
    (balanced : Balanced Atom.takes e.terms) (passes : e.Passes structs asked) :
    (e.type? structs s).any asked = e.fits structs asked := by
  obtain ⟨a, final, type⟩ := Expr.type?_eq ready passes.accepts balanced
  rw [type, Expr.fits, final, Option.all_some]
  cases operandsFit structs [] e.terms with
  | false => rfl
  | true =>
    rw [if_pos rfl, Option.any_some, Bool.true_and]
    cases operation : a.isOperation with
    | true => rfl
    | false => rw [passes.gives a final operation, Bool.not_false, Bool.true_or]

theorem isComplete_of_foldlM_typeStep? : ∀ {as : List Atom} {stack tys : List Ty},
    (∀ a ∈ as, a.ty.isComplete = true) → (∀ ty ∈ stack, ty.isComplete = true) →
    as.foldlM (typeStep? structs s) stack = some tys → ∀ ty ∈ tys, ty.isComplete = true
  | [], _, _, _, complete, run => by
    cases run
    exact complete
  | a :: as, stack, tys, settled, complete, run => by
    obtain ⟨here, others⟩ := List.forall_mem_cons.mp settled
    obtain ⟨next, step, rest⟩ := Option.bind_eq_some_iff.mp run
    refine isComplete_of_foldlM_typeStep? others ?_ rest
    unfold typeStep? at step
    split at step
    next =>
      obtain ⟨ty, -, pushed⟩ := Option.bind_eq_some_iff.mp step
      split at pushed
      next same =>
        cases pushed
        rw [same]
        exact List.forall_mem_cons.mpr ⟨here, fun ty member => complete ty (List.mem_of_mem_drop member)⟩
      next => cases pushed
    next => cases step

theorem Expr.isComplete_of_type? {ty : Ty} (ready : e.Ready s)
    (type : e.type? structs s = some ty) : ty.isComplete = true := by
  have settled : ∀ a ∈ e.terms, a.ty.isComplete = true :=
    fun a member => (Bool.and_eq_true_iff.mp (ready.bound a member)).1
  unfold Expr.type? at type
  split at type
  next only run =>
    cases type
    exact isComplete_of_foldlM_typeStep? settled (List.forall_mem_nil _) run ty List.mem_cons_self
  next => cases type

end Exprs

/-! ## Well-typed modules -/

section Modules

variable {structs : StructTable} {s : Scopes}

theorem Stmt.map_fst_contexts (structs : StructTable) (s : Scopes) (result : Ty) (st : Stmt Atom) :
    (st.contexts structs s result).map Prod.fst = st.exprs := by
  cases st with
  | declare | ret => simp [Stmt.contexts, Stmt.exprs, Function.comp_def]
  | branch => simp [Stmt.contexts, Stmt.exprs, Function.comp_def]
  | assign | eval | loop | breakOut | continueLoop => rfl

variable {result : Ty} {st : Stmt Atom}

/-- A value fits no place that has several types. -/
theorem Stmt.isSettled_of_isWellTyped (ready : ∀ e ∈ st.exprs, e.Ready s)
    (wellTyped : st.isWellTyped structs s result = true) : st.isSettled structs s = true := by
  cases st with
  | declare | eval | ret | branch | loop | breakOut | continueLoop => rfl
  | assign target binding members value span =>
    simp only [Stmt.isWellTyped, Stmt.contexts, List.all_cons, List.all_nil, Bool.and_true,
      Option.any_eq_true] at wellTyped
    obtain ⟨ty, type, place, found, same⟩ := wellTyped
    have complete := Expr.isComplete_of_type? (ready value List.mem_cons_self) type
    rw [Stmt.isSettled, found, Option.all_some]
    exact Ty.isComplete_of_same same complete

theorem Stmt.isWellTyped_iff_fits (ready : ∀ e ∈ st.exprs, e.Ready s)
    (balanced : ∀ e ∈ st.exprs, Balanced Atom.takes e.terms) (passes : st.Passes structs s result) :
    st.isWellTyped structs s result = true ↔ st.fits structs s result = true := by
  have contexts (settled : st.isSettled structs s = true) : ∀ c ∈ st.contexts structs s result,
      (c.1.type? structs s).any c.2 = c.1.fits structs c.2 := by
    intro c member
    have among : c.1 ∈ st.exprs := by
      rw [← st.map_fst_contexts structs s result]
      exact List.mem_map_of_mem member
    exact Expr.any_type?_eq_fits (ready c.1 among) (balanced c.1 among) (passes settled c member)
  rw [Stmt.fits, Bool.and_eq_true, Stmt.isWellTyped]
  constructor
  · intro wellTyped
    have settled := Stmt.isSettled_of_isWellTyped ready wellTyped
    refine ⟨settled, List.all_eq_true.mpr fun c member => ?_⟩
    rw [← contexts settled c member]
    exact List.all_eq_true.mp wellTyped c member
  · rintro ⟨settled, fits⟩
    refine List.all_eq_true.mpr fun c member => ?_
    rw [contexts settled c member]
    exact List.all_eq_true.mp fits c member

/-- A ready module is well-typed exactly if its loose values have the types asked for. -/
theorem Module.wellTyped_iff_fits {m : Module} (ready : m.Ready) (passes : m.Passes structs)
    (balanced : m.tree.IsBalanced) : m.WellTyped structs ↔ m.Fits structs := by
  have bodies := ItemsWellFormed.forall_functions balanced
  refine forall₂_congr fun f member => ?_
  obtain ⟨sig, signature, fits⟩ := passes f member
  have stmts : ∀ st ∈ f.body.statements, st.isWellTyped structs m.scopes sig.result = true ↔
      st.fits structs m.scopes sig.result = true := by
    intro st among
    have parts := Block.everywhere_iff.mp (bodies f member) st among
    exact Stmt.isWellTyped_iff_fits (ready.exprs f member st among) parts.exprs (fits st among)
  constructor
  · rintro ⟨sig', signature', all⟩
    cases Option.mem_unique signature signature'
    exact ⟨sig, signature, fun st among => (stmts st among).mp (all st among)⟩
  · rintro ⟨sig', signature', all⟩
    cases Option.mem_unique signature signature'
    exact ⟨sig, signature, fun st among => (stmts st among).mpr (all st among)⟩

end Modules

/-! ## Analysed modules -/

variable {σ : Type}

theorem ensures_readTree_isBalanced (l : Lexed) (name : String) :
    Ensures (readTree l name) FileTree.IsBalanced := by
  refine ensures_bind (ensures_parse l name) fun t read => ?_
  have wf : t.WellFormed := read.wellFormed
  exact ensures_bind wf.shorten.hoist fun t' balanced => balanced.addReturns

variable (loader : Loader σ)

theorem leads_analyseUnverified_isBalanced (source file name : String) (shared : Shared σ) :
    Leads (analyseUnverified loader source file name) shared fun m _ => m.tree.IsBalanced := by
  refine leads_bind (leads_lift ensures_self) fun l s1 _ => ?_
  refine leads_bind (leads_lift
    (ensures_and (ensures_readTree_nodup l name) (ensures_readTree_isBalanced l name))) ?_
  rintro t s2 ⟨-, nodup, balanced⟩
  refine leads_bind ((t.leads_resolve loader nodup s2).and
    (Ensures.leads (balanced.resolve loader))) ?_
  rintro m s3 ⟨⟨fs, -, resolved⟩, balanced1⟩
  refine leads_get (leads_bind
    (leads_lift (Module.ensures_checkLoops resolved.outside resolved.marked)) ?_)
  rintro m1 s4 ⟨-, tree, -⟩
  rw [← tree] at balanced1
  refine leads_bind (leads_lift (m1.ensures_typeCheck s3.structs balanced1)) ?_
  rintro m2 s5 ⟨-, balanced2⟩
  exact (leads_lift (m2.ensures_complete s3.structs balanced2)).imp fun _ _ done => done.2

/-- The last check of an analysis never fails. -/
theorem analyse_eq_analyseUnverified (source file name : String) :
    analyse loader source file name = analyseUnverified loader source file name := by
  rw [analyse_eq_bind_verify]
  refine bind_eq_self fun shared => ?_
  refine (leads_analyseUnverified loader source file name shared).imp fun m _ ready => ?_
  rw [ready.verified]
  rfl

/-- An analysed module is well-typed exactly if its loose values have the types asked for: variables
and what operators give, where a step takes them, and what operators give, where it is the value of
an expression. -/
theorem analyse_wellTyped_iff_fits (loader : Loader σ) (source file name : String) (shared : Shared σ) :
    Leads (analyse loader source file name) shared fun m shared' =>
      m.WellTyped shared'.structs ↔ m.Fits shared'.structs := by
  rw [analyse_eq_analyseUnverified]
  refine ((leads_analyseUnverified_passes loader source file name shared).and
    (leads_analyseUnverified_isBalanced loader source file name shared)).imp ?_
  rintro m shared' ⟨⟨ready, passes⟩, balanced⟩
  exact m.wellTyped_iff_fits ready passes balanced

/-- `n` gets its type from the first call of `f`, and `p.x` is converted. -/
def narrowedOnce : List Char :=
  "struct P \x7b x: I16; y: F64 \x7d\n".toList ++
  "fn f(a: I64): I64 \x7b return a \x7d\n".toList ++
  "fn g(p: P, c: Bool): I64 \x7b\n".toList ++
  "  n := 1\n".toList ++
  "  m := f(n) + p.x\n".toList ++
  "  while c \x7b n = n + m \x7d\n".toList ++
  "  return f(n)\n".toList ++
  "\x7d".toList

theorem analyse_wellTyped_iff_fits_narrowedOnce :
    ∃ m shared, Gives (analyse noFiles (String.ofList narrowedOnce) "m" "m") ⟨{}, ()⟩ m shared ∧
      m.Fits shared.structs ∧ m.WellTyped shared.structs := by
  have fits : givesAs (analyseChars narrowedOnce) ⟨{}, ()⟩ (fun m shared =>
      m.Fits shared.structs) = true := by
    decide +kernel
  obtain ⟨m, shared, run, checked⟩ := exists_of_givesAs fits
  rw [← analyse_ofList] at run
  have fits := of_decide_eq_true checked
  exact ⟨m, shared, run, fits,
    (analyse_wellTyped_iff_fits noFiles _ "m" "m" _ m shared run).mpr fits⟩

/-- The first `x` is on the stack, open, when `f` narrows the second to `I64`; then `g` narrows the
first one, and with it the variable, to `I8`. -/
def narrowedTwice : List Char :=
  "fn f(a: I64): I64 \x7b return a \x7d\n".toList ++
  "fn g(a: I8, b: I64) \x7b \x7d\n".toList ++
  "fn main() \x7b\n".toList ++
  "  x := 1\n".toList ++
  "  g(x, f(x))\n".toList ++
  "\x7d".toList

/-- `f` is called with an `I8`, without a conversion. -/
theorem not_wellTyped_narrowedTwice :
    ∃ m shared, Gives (analyse noFiles (String.ofList narrowedTwice) "m" "m") ⟨{}, ()⟩ m shared ∧
      m.verify = .ok () ∧ ¬ m.WellTyped shared.structs := by
  have stuck : givesAs (analyseChars narrowedTwice) ⟨{}, ()⟩ (fun m shared =>
      ¬ m.WellTyped shared.structs) = true := by
    decide +kernel
  obtain ⟨m, shared, run, checked⟩ := exists_of_givesAs stuck
  rw [← analyse_ofList] at run
  have ready := leads_analyseUnverified noFiles (String.ofList narrowedTwice) "m" "m" ⟨{}, ()⟩
  rw [← analyse_eq_analyseUnverified] at ready
  exact ⟨m, shared, run, (ready m shared run).verified, of_decide_eq_true checked⟩

end EbLang
