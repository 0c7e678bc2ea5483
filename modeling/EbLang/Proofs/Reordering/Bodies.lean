import EbLang.Proofs.Reordering.Values
import EbLang.Proofs.Scopes.Rewalk

/-!
# Binding the names of functions in another order

The scopes of a function lie below the scope of its body, and functions have different bodies.  So a
function finds nothing in the scopes of the functions before it, and all that these change are the
numbers of its variables: its own scopes come after theirs, with every number raised (`after`).

Hence a walk through a function can be repeated after other functions (`Walks`).  It gives the same,
with the numbers of variables changed to those that are new there.
-/

namespace EbLang

variable {σ α β : Type}

/-! ## Scopes after others -/

namespace Scopes

/-- The slot with the numbers of its variables changed. -/
def renumberSlot (ρ : Nat → Nat) (slot : Slot) : Slot := ⟨slot.version, slot.vars.map ρ⟩

/-- The scope with the numbers of its variables changed. -/
def renumberScope (ρ : Nat → Nat) (scope : Scope) : Scope :=
  ⟨scope.isLoop, scope.names.map fun e => (e.1, renumberSlot ρ e.2)⟩

def number (base : Scopes) (i : Nat) : Nat := base.vars.length + i

def after (base s : Scopes) : Scopes where
  vars := base.vars ++ s.vars
  scopes := base.scopes ++ s.scopes.map fun e => (e.1, renumberScope base.number e.2)
  current := s.current

/-- No scope lies below that of the given block. -/
def Apart (base : Scopes) (root : Nat) : Prop :=
  ∀ path : ScopePath, path.getLast? = some root → base.scope? path = none

/-- All scopes lie below that of the given block, and so does the current place. -/
structure Inside (s : Scopes) (root : Nat) : Prop where
  tidy : s.Tidy
  current : s.current.getLast? = some root
  rooted : ∀ path : ScopePath, path.getLast? ≠ some root → s.scope? path = none

variable {base s : Scopes} {root : Nat} {path : ScopePath}

theorem lookup_mapSnd {κ γ δ : Type} [BEq κ] (f : γ → δ) (q : κ) :
    ∀ entries : List (κ × γ), (entries.map fun e => (e.1, f e.2)).lookup q = (entries.lookup q).map f
  | [] => rfl
  | (k, v) :: entries => by
    rw [List.map_cons, List.lookup_cons, List.lookup_cons, lookup_mapSnd f q entries]
    cases q == k <;> rfl

theorem scope?_after (apart : base.Apart root) (inside : path.getLast? = some root) :
    (base.after s).scope? path = (s.scope? path).map (renumberScope base.number) := by
  have missing := apart path inside
  rw [scope?] at missing
  rw [scope?, after, List.lookup_append, missing, lookup_mapSnd]
  rfl

theorem var?_after (i : Nat) : (base.after s).var? (base.number i) = s.var? i := by
  rw [var?, var?, after, number, List.getElem?_append_right (Nat.le_add_right _ _),
    Nat.add_sub_cancel_left]

theorem setScope_after (apart : base.Apart root) (inside : path.getLast? = some root)
    (scope : Scope) :
    (base.after s).setScope path (renumberScope base.number scope) =
      base.after (s.setScope path scope) := by
  have outside : ∀ e ∈ base.scopes, (e.1 == path) = false := fun e there => by
    have missing := List.lookup_eq_none_iff.mp (apart path inside) e there
    exact beq_false_of_ne (bne_iff_ne.mp missing).symm
  have left : (base.scopes.map fun e =>
      if e.1 == path then (path, renumberScope base.number scope) else e) = base.scopes := by
    refine (List.map_congr_left fun e there => ?_).trans (List.map_id _)
    rw [outside e there]
    rfl
  simp only [setScope, after, List.map_append, left, List.map_map]
  congr 2
  refine List.map_congr_left fun e _ => ?_
  simp only [Function.comp]
  split <;> rfl

variable (ρ : Nat → Nat) (scope : Scope) (name : String)

theorem slot_renumberScope :
    (renumberScope ρ scope).slot name = renumberSlot ρ (scope.slot name) := by
  rw [Scope.slot, Scope.slot, renumberScope, lookup_mapSnd]
  cases scope.names.lookup name <;> rfl

theorem setSlot_renumberScope (slot : Slot) :
    (renumberScope ρ scope).setSlot name (renumberSlot ρ slot) =
      renumberScope ρ (scope.setSlot name slot) := by
  simp only [Scope.setSlot, renumberScope, List.any_map, Function.comp_def]
  split
  · simp only [List.map_map]
    congr 1
    refine List.map_congr_left fun e _ => ?_
    simp only [Function.comp]
    split <;> rfl
  · simp only [List.map_append, List.map_cons, List.map_nil]

theorem reopened_after :
    (base.after s).reopened (renumberScope base.number scope) =
      renumberScope base.number (s.reopened scope) := by
  simp only [reopened, renumberScope, List.map_map]
  congr 1
  refine List.map_congr_left fun e _ => ?_
  have first : (renumberSlot base.number e.2).vars.head?.bind (base.after s).var? =
      e.2.vars.head?.bind s.var? := by
    rw [renumberSlot, List.head?_map]
    cases e.2.vars.head? with
    | none => rfl
    | some i => exact var?_after i
  simp only [Function.comp, reopen, first]
  rfl

theorem enter_after (apart : base.Apart root) {b : Nat}
    (inside : (b :: s.current).getLast? = some root) (isLoop : Bool) :
    (base.after s).enter b isLoop = base.after (s.enter b isLoop) := by
  have known := scope?_after (s := s) apart inside
  change (base.after s).scope? (b :: (base.after s).current) = _ at known
  simp only [enter, known]
  cases s.scope? (b :: s.current) with
  | none =>
    simp only [Option.map_none, after, List.map_append, List.append_assoc]
    rfl
  | some scope =>
    simp only [Option.map_some, reopened_after]
    change { (base.after s).setScope (b :: s.current) _ with current := b :: s.current } = _
    rw [setScope_after apart inside]
    rfl

theorem after_addVar (s : Scopes) (v : Variable) :
    { base.after s with vars := (base.after s).vars ++ [v] } =
      base.after { s with vars := s.vars ++ [v] } := by
  simp only [after, List.append_assoc]

theorem declare_after (apart : base.Apart root) (inside : s.current.getLast? = some root)
    (v : Variable) :
    (base.after s).declare v = (base.number (s.declare v).1, base.after (s.declare v).2) := by
  have known := scope?_after (s := s) apart inside
  change (base.after s).scope? (base.after s).current = _ at known
  simp only [declare, known]
  cases s.scope? s.current with
  | none =>
    simp only [Option.map_none, after, number, List.length_append, List.append_assoc]
  | some scope =>
    have set (slot : Slot) := setScope_after (s := s) apart inside (scope.setSlot v.name slot)
    simp only [← setSlot_renumberScope] at set
    simp only [Option.map_some, slot_renumberScope]
    generalize scope.slot v.name = slot at set ⊢
    have first : (renumberSlot base.number slot).vars.head? = slot.vars.head?.map base.number :=
      List.head?_map ..
    have next : (renumberSlot base.number slot).vars[nextVersion slot]? =
        slot.vars[nextVersion slot]?.map base.number := List.getElem?_map ..
    have old := set ⟨some (nextVersion slot), slot.vars⟩
    have new := set ⟨some (nextVersion slot), slot.vars ++ [s.vars.length]⟩
    rw [renumberSlot, List.map_append] at new
    have version : nextVersion (renumberSlot base.number slot) = nextVersion slot := rfl
    simp only [first, version, next]
    rw [show (renumberSlot base.number slot).version = slot.version from rfl]
    cases slot.vars[nextVersion slot]? with
    | some id =>
      have result := congrArg (Prod.mk (base.number id)) old
      cases v.isParam && slot.version == some 0 with
      | false => exact result
      | true => cases slot.vars.head? with
        | none => exact result
        | some _ => rfl
    | none =>
      have number : (base.after s).vars.length = base.number s.vars.length := List.length_append
      rw [List.map_singleton, ← number] at new
      have result := congrArg₂ Prod.mk number ((congrArg (fun t : Scopes =>
        { t with vars := t.vars ++ [v] }) new).trans (after_addVar _ v))
      cases v.isParam && slot.version == some 0 with
      | false => exact result
      | true => cases slot.vars.head? with
        | none => exact result
        | some _ => rfl

theorem lookup_after (apart : base.Apart root) (inside : s.current.getLast? = some root)
    (name : String) : (base.after s).lookup name = (s.lookup name).map base.number := by
  suffices h : ∀ path : ScopePath, path = [] ∨ path.getLast? = some root →
      (base.after s).lookupFrom name path = (s.lookupFrom name path).map base.number from
    h _ (.inr inside)
  intro path
  induction path with
  | nil => exact fun _ => rfl
  | cons b path ih =>
    intro inside
    have inside : (b :: path).getLast? = some root := by simpa using inside
    have rest : path = [] ∨ path.getLast? = some root := by
      cases path with
      | nil => exact .inl rfl
      | cons c path => exact .inr (by simpa using inside)
    have here : (base.after s).inView? (b :: path) name =
        (s.inView? (b :: path) name).map base.number := by
      simp only [inView?, scope?_after apart inside]
      cases s.scope? (b :: path) with
      | none => rfl
      | some scope =>
        simp only [Option.map_some, Option.bind_eq_bind, Option.bind_some, renumberScope,
          lookup_mapSnd]
        cases scope.names.lookup name with
        | none => rfl
        | some slot =>
          simp only [Option.map_some, Option.bind_some, renumberSlot]
          cases slot.version with
          | none => rfl
          | some version => exact List.getElem?_map ..
    simp only [lookupFrom, here]
    cases s.inView? (b :: path) name with
    | some i => rfl
    | none => exact ih rest

theorem Inside.enter (h : s.Inside root) (b : Nat) (isLoop : Bool) :
    (s.enter b isLoop).Inside root := by
  have inside : (b :: s.current).getLast? = some root := by
    rw [List.getLast?_cons, h.current]
    rfl
  refine ⟨h.tidy.enter b isLoop, by rw [current_enter, inside], fun path outside => ?_⟩
  rw [scope?_enter_other]
  · exact h.rooted path outside
  · rintro rfl
    exact outside inside

theorem Inside.leave {b : Nat} {s' : Scopes} (h : s.Inside root) (h' : s'.Inside root)
    (current : s'.current = b :: s.current) : s'.leave.Inside root := by
  refine ⟨h'.tidy.leave, ?_, h'.rooted⟩
  rw [Scopes.leave, current]
  exact h.current

theorem Inside.declare (h : s.Inside root) (v : Variable) :
    (s.declare v).2.Inside root ∧ (s.declare v).1 < (s.declare v).2.vars.length ∧
      s.vars.length ≤ (s.declare v).2.vars.length := by
  have around : s.current ≠ [] := fun empty => by simpa [empty] using h.current
  obtain ⟨tidy, grows⟩ := h.tidy.declare around v
  obtain ⟨scope, known⟩ :=
    Option.isSome_iff_exists.mp (h.tidy.around s.current List.suffix_rfl around)
  have numbers := (h.tidy.slots _ scope known v.name).numbers
  suffices rest : (∀ q, q ≠ s.current → (s.declare v).2.scope? q = s.scope? q) ∧
      (s.declare v).1 < (s.declare v).2.vars.length by
    refine ⟨⟨tidy, by rw [current_declare, h.current], fun path outside => ?_⟩, rest.2,
      grows.vars.length_le⟩
    rw [rest.1 path fun same => outside (same ▸ h.current)]
    exact h.rooted path outside
  by_cases retakes : Retakes (scope.slot v.name) v
  · obtain ⟨id, ids, listed⟩ := List.exists_cons_of_ne_nil retakes.2.2
    rw [declare_retaken known retakes (List.head?_eq_some_iff.mpr ⟨ids, listed⟩)]
    exact ⟨fun _ _ => rfl, numbers id (listed ▸ List.mem_cons_self)⟩
  cases there : (scope.slot v.name).vars[nextVersion (scope.slot v.name)]? with
  | some id =>
    obtain ⟨made, vars, set⟩ := declare_known known retakes there
    refine ⟨set.others, ?_⟩
    rw [made, vars]
    exact numbers id (List.mem_of_getElem? there)
  | none =>
    obtain ⟨made, vars, set⟩ := declare_fresh known retakes there
    refine ⟨set.others, ?_⟩
    rw [made, vars, List.length_append]
    exact Nat.lt_succ_self _

theorem Inside.lookup_lt (h : s.Inside root) {name : String} {i : Nat}
    (found : s.lookup name = some i) : i < s.vars.length := by
  rw [lookup] at found
  generalize s.current = path at found
  induction path with
  | nil => cases found
  | cons b path ih =>
    rw [lookupFrom] at found
    split at found
    next id shown =>
      cases found
      cases known : s.scope? (b :: path) with
      | none =>
        simp only [inView?, known] at shown
        cases shown
      | some scope =>
        rw [inView?_of_scope known, Slot.shown?] at shown
        obtain ⟨version, -, there⟩ := Option.bind_eq_some_iff.mp shown
        exact (h.tidy.slots _ scope known name).numbers _ (List.mem_of_getElem? there)
    next => exact ih found

end Scopes

/-! ## Trees with other numbers -/

/-- The binding with the number of its variable changed. -/
def Binding.renumber (ρ : Nat → Nat) : Binding → Binding
  | localVar id => localVar (ρ id)
  | globalVar g => globalVar g

/-- The step with the number of its variable changed. -/
def Atom.renumber (ρ : Nat → Nat) (a : Atom) : Atom :=
  match a.kind with
  | .var name binding => { a with kind := .var name (binding.map (Binding.renumber ρ)) }
  | .literal _ | .call _ | .member _ => a

/-- The expression with the numbers of its variables changed. -/
def Expr.renumber (ρ : Nat → Nat) : Expr Atom → Expr Atom := Expr.map (Atom.renumber ρ)

mutual

/-- The statement with the numbers of its variables changed. -/
def Stmt.renumber (ρ : Nat → Nat) : Stmt Atom → Stmt Atom
  | .declare name ty init var hidden span =>
    .declare name ty (init.map (Expr.renumber ρ)) (var.map ρ) hidden span
  | .assign target binding members value span =>
    .assign target (binding.map (Binding.renumber ρ)) members (value.renumber ρ) span
  | .eval value span => .eval (value.renumber ρ) span
  | .ret value span => .ret (value.map (Expr.renumber ρ)) span
  | .branch arms otherwise span =>
    .branch (renumberArms ρ arms) (renumberOtherwise ρ otherwise) span
  | .loop condition body span => .loop (condition.renumber ρ) (body.renumber ρ) span
  | .breakOut amount span => .breakOut amount span
  | .continueLoop span => .continueLoop span

/-- The arms with the numbers of their variables changed. -/
def renumberArms (ρ : Nat → Nat) : List (Arm Atom) → List (Arm Atom)
  | [] => []
  | .mk condition body :: arms =>
    .mk (condition.renumber ρ) (body.renumber ρ) :: renumberArms ρ arms

/-- The last branch with the numbers of its variables changed. -/
def renumberOtherwise (ρ : Nat → Nat) : Option (Block Atom) → Option (Block Atom)
  | none => none
  | some body => some (body.renumber ρ)

/-- The block with the numbers of its variables changed. -/
def Block.renumber (ρ : Nat → Nat) : Block Atom → Block Atom
  | .mk id body span => .mk id (renumberStmts ρ body) span

/-- The statements with the numbers of their variables changed. -/
def renumberStmts (ρ : Nat → Nat) : List (Stmt Atom) → List (Stmt Atom)
  | [] => []
  | s :: ss => s.renumber ρ :: renumberStmts ρ ss

end

theorem renumberArms_zipWith (ρ : Nat → Nat) :
    ∀ (conditions : List (Expr Atom)) (bodies : List (Block Atom)),
      renumberArms ρ (List.zipWith .mk conditions bodies) =
        List.zipWith .mk (conditions.map (Expr.renumber ρ)) (bodies.map (Block.renumber ρ))
  | [], _ | _ :: _, [] => by simp [renumberArms]
  | c :: cs, b :: bs => by
    simp only [List.zipWith_cons_cons, List.map_cons, renumberArms, renumberArms_zipWith ρ cs bs]

/-- The function or global with the numbers of its variables changed. -/
def Value.renumber (ρ : Nat → Nat) : Value Atom → Value Atom
  | function f => function { f with body := f.body.renumber ρ }
  | global g => global g

namespace Resolving

/-! ## Walks that can be repeated -/

/-- Something that is made from the numbers of variables, `count` of them: a change of these numbers
changes the numbers in what is made. -/
def Natural (act : (Nat → Nat) → α → α) (count : Nat) (made : (Nat → Nat) → α) : Prop :=
  ∀ π ρ ρ' : Nat → Nat, (∀ i < count, π (ρ i) = ρ' i) → act π (made ρ) = made ρ'

theorem Natural.mono {act : (Nat → Nat) → α → α} {count count' : Nat} {made : (Nat → Nat) → α}
    (h : Natural act count made) (le : count ≤ count') : Natural act count' made :=
  fun π ρ ρ' agree => h π ρ ρ' fun i lt => agree i (Nat.lt_of_lt_of_le lt le)

/-- What a walk from `n`, which gives `a` and ends in `n'`, makes of the scopes `s` of a function that
come after `base`: scopes `s'`.  The walk can be repeated after other scopes. -/
structure Repeats (act : (Nat → Nat) → α → α) (x : (Nat → Nat) → Resolving σ α) (root : Nat)
    (base s : Scopes) (n : Names σ) (a : α) (n' : Names σ) (made : (Nat → Nat) → α)
    (s' : Scopes) : Prop where
  natural : Natural act s'.vars.length made
  inside : s'.Inside root
  grows : s.vars.length ≤ s'.vars.length
  current : s'.current = s.current
  given : a = made base.number
  state : ∃ externals, n' = { n with externals, scopes := base.after s' }
  again : ∀ (m : Names σ) (base' : Scopes), n.Alike (fun _ => True) m → base'.Apart root →
    m.scopes = base'.after s → ∃ externals,
      Gives (x base'.number) m (made base'.number) { m with externals, scopes := base'.after s' }

/-- A walk through a function that has made at least `count` variables, given that `P` holds. -/
structure Walks (P : Prop) (act : (Nat → Nat) → α → α) (count : Nat)
    (x : (Nat → Nat) → Resolving σ α) : Prop where
  adds : ∀ ρ, Moves Adds (x ρ)
  follows : P → ∀ {root : Nat} {base s : Scopes} {n n' : Names σ} {a : α},
    count ≤ s.vars.length → base.Apart root → s.Inside root → n.scopes = base.after s →
    Gives (x base.number) n a n' → n'.imports = n.imports →
    ∃ made s', Repeats act x root base s n a n' made s'

section Rules

variable {P : Prop} {act : (Nat → Nat) → α → α} {act' : (Nat → Nat) → β → β} {count : Nat}
variable {x : (Nat → Nat) → Resolving σ α} {γ : Type}

theorem Walks.pure {made : (Nat → Nat) → α} (h : P → Natural act count made) :
    Walks P act count (fun ρ => (pure (made ρ) : Resolving σ α)) := by
  refine ⟨fun ρ => moves_pure _, ?_⟩
  intro holds root base s n n' a le apart inside scopes gives _
  obtain ⟨rfl, rfl⟩ := Gives.pure_iff.mp gives
  refine ⟨made, s, (h holds).mono le, inside, Nat.le_refl _, rfl, rfl, ⟨n'.externals, ?_⟩, ?_⟩
  · rw [← scopes]
  · intro m base' _ _ scopes'
    exact ⟨m.externals, by rw [← scopes']; rfl⟩

theorem Walks.bind {f : (Nat → Nat) → α → Resolving σ β} (hx : Walks P act count x)
    (hf : ∀ made count', count ≤ count' →
      Walks (P ∧ Natural act count' made) act' count' fun ρ => f ρ (made ρ)) :
    Walks P act' count (fun ρ => x ρ >>= f ρ) := by
  refine ⟨fun ρ => moves_bind (hx.adds ρ) fun a =>
    (hf (fun _ => a) count (Nat.le_refl _)).adds ρ, ?_⟩
  intro holds root base s n n' b le apart inside scopes gives quiet
  obtain ⟨a, n1, first, second⟩ := gives.of_bind
  obtain ⟨quiet1, quiet2⟩ := imports_between (hx.adds _)
    ((hf (fun _ => a) count (Nat.le_refl _)).adds base.number) first second quiet
  obtain ⟨made, s1, h1⟩ := hx.follows holds le apart inside scopes first quiet1
  obtain ⟨e1, rfl⟩ := h1.state
  rw [h1.given] at second
  obtain ⟨made', s2, h2⟩ :=
    (hf made s1.vars.length (Nat.le_trans le h1.grows)).follows ⟨holds, h1.natural⟩
    (Nat.le_refl _) apart h1.inside rfl second quiet2
  obtain ⟨e2, rfl⟩ := h2.state
  refine ⟨made', s2, h2.natural, h2.inside, Nat.le_trans h1.grows h2.grows,
    h2.current.trans h1.current, h2.given, ⟨e2, rfl⟩, ?_⟩
  intro m base' alike apart' scopes'
  obtain ⟨e1', first'⟩ := h1.again m base' alike apart' scopes'
  obtain ⟨e2', second'⟩ := h2.again { m with externals := e1', scopes := base'.after s1 } base'
    ⟨alike.shared, alike.imports, alike.decls⟩ apart' rfl
  exact ⟨e2', first'.run_bind.trans second'⟩

/-- A look-up makes no variable. -/
theorem Walks.finds {y : Resolving σ β} {f : (Nat → Nat) → β → Resolving σ α}
    (hy : Finds (fun _ => True) y) (hf : ∀ b, Walks P act count fun ρ => f ρ b) :
    Walks P act count (fun ρ => y >>= f ρ) := by
  refine ⟨fun ρ => moves_bind hy.adds fun b => (hf b).adds ρ, ?_⟩
  intro holds root base s n n' a le apart inside scopes gives quiet
  obtain ⟨b, n1, first, second⟩ := gives.of_bind
  obtain ⟨quiet1, quiet2⟩ := imports_between hy.adds ((hf b).adds base.number) first second quiet
  obtain ⟨⟨e, rfl⟩, -⟩ := hy.follows (.refl n) first quiet1
  obtain ⟨made, s', h⟩ := (hf b).follows holds le apart inside (n := { n with externals := e }) scopes
    second quiet2
  obtain ⟨e', rfl⟩ := h.state
  refine ⟨made, s', h.natural, h.inside, h.grows, h.current, h.given, ⟨e', rfl⟩, ?_⟩
  intro m base' alike apart' scopes'
  obtain ⟨-, e1, first'⟩ := hy.follows alike first quiet1
  obtain ⟨e2, second'⟩ := h.again { m with externals := e1 } base'
    ⟨alike.shared, alike.imports, alike.decls⟩ apart' scopes'
  exact ⟨e2, first'.run_bind.trans second'⟩

theorem Walks.mapM {f : γ → Resolving σ α}
    (hf : ∀ c P count, Walks P act count fun _ => f c) (l : List γ) :
    ∀ {P : Prop} {count : Nat},
      Walks P (fun ρ => List.map (act ρ)) count (fun _ => l.mapM f) := by
  induction l with
  | nil =>
    exact .pure fun _ _ _ _ _ => rfl
  | cons c l ih =>
    intro P count
    simp only [List.mapM_cons]
    refine (hf c P count).bind fun made count1 le => ih.bind fun rest count2 le' => .pure ?_
    rintro ⟨⟨-, h⟩, h'⟩ π ρ ρ' agree
    exact congrArg₂ List.cons (h.mono le' π ρ ρ' agree) (h' π ρ ρ' agree)

theorem Walks.optionMapM {f : γ → Resolving σ α}
    (hf : ∀ c, Walks P act count fun _ => f c) (o : Option γ) :
    Walks P (fun ρ => Option.map (act ρ)) count (fun _ => o.mapM f) := by
  cases o with
  | none => exact .pure fun _ _ _ _ _ => rfl
  | some c =>
    refine (hf c).bind fun made count1 le => .pure ?_
    rintro ⟨-, h⟩ π ρ ρ' agree
    exact congrArg some (h π ρ ρ' agree)

theorem Walks.declareVar (v : Variable) :
    Walks P (fun ρ => ρ) count (fun _ => (declareVar v : Resolving σ Nat)) := by
  have adds : Moves Adds (Resolving.declareVar v : Resolving σ Nat) :=
    fun n => .single (adds_of_imports_eq rfl)
  refine ⟨fun _ => adds, ?_⟩
  intro _ root base s n n' a le apart inside scopes gives _
  have run (m : Names σ) : Gives (Resolving.declareVar v) m (m.scopes.declare v).1
    { m with scopes := (m.scopes.declare v).2 } := rfl
  cases (run n).symm.trans gives
  obtain ⟨inside', lt, grows⟩ := inside.declare v
  rw [scopes, Scopes.declare_after apart inside.current]
  refine ⟨fun ρ => ρ (s.declare v).1, (s.declare v).2, ?_, inside', grows,
    Scopes.current_declare s v, rfl, ⟨n.externals, rfl⟩, ?_⟩
  · exact fun π ρ ρ' agree => agree _ lt
  · intro m base' _ apart' scopes'
    have again := run m
    rw [scopes', Scopes.declare_after apart' inside.current] at again
    exact ⟨m.externals, again⟩

theorem gives_within {b : Nat} {isLoop : Bool} {x : Resolving σ α} {n n' : Names σ} {a : α} :
    Gives (within b isLoop x) n a n' ↔
      ∃ n1, Gives x { n with scopes := n.scopes.enter b isLoop } a n1 ∧
        n' = { n1 with scopes := n1.scopes.leave } := by
  have run : (within b isLoop x).run.run n =
      ((x.run.run { n with scopes := n.scopes.enter b isLoop }).1,
        { (x.run.run { n with scopes := n.scopes.enter b isLoop }).2 with
          scopes := (x.run.run { n with scopes := n.scopes.enter b isLoop }).2.scopes.leave }) := rfl
  rw [Gives, run]
  constructor
  · intro gives
    have result : (x.run.run { n with scopes := n.scopes.enter b isLoop }).1 = .ok a :=
      congrArg Prod.fst gives
    exact ⟨(x.run.run { n with scopes := n.scopes.enter b isLoop }).2, Prod.ext result rfl,
      (congrArg Prod.snd gives).symm⟩
  · rintro ⟨n1, gives, rfl⟩
    rw [gives]

theorem Walks.within (hx : Walks P act count x) (b : Nat)
    (isLoop : Bool) : Walks P act count fun ρ => within b isLoop (x ρ) := by
  refine ⟨fun ρ => ?_, ?_⟩
  · have enters : Moves Adds (modify fun n => { n with scopes := n.scopes.enter b isLoop } :
        Resolving σ PUnit) := moves_modify fun n => adds_of_imports_eq rfl
    intro n
    refine (enters n).trans ((hx.adds ρ _).tail ?_)
    exact adds_of_imports_eq rfl
  intro holds root base s n n' a le apart inside scopes gives quiet
  obtain ⟨n1, inner, rfl⟩ := gives_within.mp gives
  have below : (b :: s.current).getLast? = some root := by
    rw [List.getLast?_cons, inside.current]
    rfl
  have entered : ({ n with scopes := n.scopes.enter b isLoop } : Names σ).scopes =
      base.after (s.enter b isLoop) := by
    rw [← Scopes.enter_after apart below, ← scopes]
  have le' : count ≤ (s.enter b isLoop).vars.length := by rwa [Scopes.vars_enter]
  obtain ⟨made, s1, h⟩ :=
    hx.follows holds le' apart (inside.enter b isLoop) entered inner quiet
  obtain ⟨e, rfl⟩ := h.state
  have current : s1.current = b :: s.current := h.current.trans (Scopes.current_enter s b isLoop)
  refine ⟨made, s1.leave, h.natural, inside.leave h.inside current, ?_, ?_, h.given, ⟨e, rfl⟩, ?_⟩
  · exact (Scopes.vars_enter s b isLoop) ▸ h.grows
  · rw [Scopes.leave, current]
    rfl
  · intro m base' alike apart' scopes'
    have entered' : ({ m with scopes := m.scopes.enter b isLoop } : Names σ).scopes =
        base'.after (s.enter b isLoop) := by
      rw [← Scopes.enter_after apart' below, ← scopes']
    obtain ⟨e', again⟩ := h.again { m with scopes := m.scopes.enter b isLoop } base'
      ⟨alike.shared, alike.imports, alike.decls⟩ apart' entered'
    exact ⟨e', gives_within.mpr ⟨_, again, rfl⟩⟩

end Rules

/-! ## Expressions and statements -/

section Bodies

variable {loader : Loader σ} {P : Prop} {count : Nat}
variable {s : Scopes}
variable {n n' n0 : Names σ} {l : List (PlacedValue Atom)}

/-- Finds the global that a name stands for where no variable has it. -/
def globalNamed (loader : Loader σ) (scope : ModulePath) (name : String) (position : Position) :
    Resolving σ (Binding × List String) := do
  let g ← findGlobal loader scope (splitName name) position >>=
    orFail position (.variableNotDeclared name)
  return (.globalVar g.1, g.2)

variable (scope : ModulePath) (name : String) (position : Position)

theorem run_findVariable (m : Names σ) :
    (findVariable loader scope name position).run.run m =
      ((splitName name).head?.bind m.scopes.lookup).elim
        ((globalNamed loader scope name position).run.run m)
        fun id => (.ok (.localVar id, (splitName name).drop 1), m) := by
  have start : Gives (get : Resolving σ (Names σ)) m m m := rfl
  rw [findVariable, start.run_bind]
  cases (splitName name).head?.bind m.scopes.lookup with
  | some id => rfl
  | none =>
    rw [Option.elim_none, globalNamed, bind_assoc]
    simp only
    congr 3
    funext found
    cases found <;> rfl

/-- A variable is found again under its new number, and a global as it was. -/
theorem Walks.findVariable :
    Walks P (fun ρ (r : Binding × List String) => (r.1.renumber ρ, r.2)) count
      (fun _ => findVariable loader scope name position) := by
  refine ⟨fun _ => moves_adds (stepwise_findVariable scope name position), ?_⟩
  have global : Walks P (fun ρ (r : Binding × List String) => (r.1.renumber ρ, r.2)) count
      (fun _ => globalNamed loader scope name position) :=
    Walks.finds ((searches_finds loader _).findGlobal (fun alike => alike.decls.global? trivial) scope _
      position _ _ _ rfl fun g => .pure _) fun g => .pure fun _ _ _ _ _ => rfl
  intro holds root base s n n' a le apart inside scopes gives quiet
  have found (m : Names σ) {base : Scopes} (apart : base.Apart root)
      (scopes : m.scopes = base.after s) : (splitName name).head?.bind m.scopes.lookup =
        ((splitName name).head?.bind s.lookup).map base.number := by
    rw [scopes]
    cases (splitName name).head? with
    | none => rfl
    | some first => exact Scopes.lookup_after apart inside.current first
  rw [Gives, run_findVariable, found n apart scopes] at gives
  cases seen : (splitName name).head?.bind s.lookup with
  | some i =>
    rw [seen] at gives
    obtain ⟨rfl, rfl⟩ := Gives.pure_iff.mp gives
    obtain ⟨first, -, shown⟩ := Option.bind_eq_some_iff.mp seen
    refine ⟨fun ρ => (.localVar (ρ i), (splitName name).drop 1), s, ?_, inside, Nat.le_refl _, rfl,
      rfl, ⟨n'.externals, by rw [← scopes]⟩, ?_⟩
    · intro π ρ ρ' agree
      exact congrArg (fun i => (Binding.localVar i, _)) (agree i (inside.lookup_lt shown))
    · intro m base' _ apart' scopes'
      refine ⟨m.externals, ?_⟩
      rw [Gives, run_findVariable, found m apart' scopes', seen, ← scopes']
      rfl
  | none =>
    rw [seen] at gives
    obtain ⟨made, s', h⟩ := global.follows holds le apart inside scopes gives quiet
    refine ⟨made, s', { h with again := fun m base' alike apart' scopes' => ?_ }⟩
    simp only [Gives, run_findVariable, found m apart' scopes', seen]
    exact h.again m base' alike apart' scopes'

theorem Walks.resolveAtom (scope : ModulePath) (a : Atom) :
    Walks P (fun ρ => List.map (Atom.renumber ρ)) count (fun _ => resolveAtom loader scope a) := by
  simp only [Resolving.resolveAtom]
  split
  next name binding kind =>
    refine (Walks.findVariable scope name a.span.start).bind fun made count' le => .pure ?_
    rintro ⟨-, h⟩ π ρ ρ' agree
    have same := h π ρ ρ' agree
    have members : (made ρ').2 = (made ρ).2 := (congrArg Prod.snd same).symm
    have binding : (made ρ').1 = (made ρ).1.renumber π := (congrArg Prod.fst same).symm
    simp only [members, binding, List.map_cons, List.map_map]
    refine congrArg₂ List.cons rfl (List.map_congr_left fun m _ => rfl)
  next c kind =>
    refine .finds ((searches_finds loader _).candidatesOf (fun alike _ _ => alike.decls.overloads trivial)
      scope c _) fun candidates => .pure ?_
    exact fun _ _ _ _ _ => rfl
  all_goals
    next kind =>
      refine .pure fun _ π ρ ρ' _ => ?_
      simp only [List.map_cons, List.map_nil, Atom.renumber, kind]

theorem Walks.resolveExpr (e : Expr Atom) :
    Walks P Expr.renumber count (fun _ => resolveExpr loader scope e) := by
  refine (Walks.mapM (fun a P count => Walks.resolveAtom scope a) e.terms).bind
    fun made count' le => .pure ?_
  rintro ⟨-, h⟩ π ρ ρ' agree
  have same := congrArg List.flatten (h π ρ ρ' agree)
  rw [← List.map_flatten] at same
  exact congrArg (Expr.mk · e.span) same

theorem Walks.optionalExpr (e : Option (Expr Atom)) :
    Walks P (fun ρ => Option.map (Expr.renumber ρ)) count
      (fun _ => e.mapM (Resolving.resolveExpr loader scope)) :=
  .optionMapM (fun e => Walks.resolveExpr scope e) e

mutual

theorem Walks.resolveBlock (scope : ModulePath) :
    ∀ (isLoop : Bool) (b : Block Atom) {P : Prop} {count : Nat},
      Walks P Block.renumber count (fun _ => resolveBlock loader scope isLoop b)
  | isLoop, .mk id body span, P, count => by
    refine ((Walks.resolveStmts scope body).within id isLoop).bind fun made count' le => .pure ?_
    rintro ⟨-, h⟩ π ρ ρ' agree
    exact congrArg (Block.mk id · span) (h π ρ ρ' agree)

theorem Walks.resolveStmts (scope : ModulePath) :
    ∀ (ss : List (Stmt Atom)) {P : Prop} {count : Nat},
      Walks P renumberStmts count (fun _ => resolveStmts loader scope ss)
  | [], P, count => by
    exact .pure fun _ _ _ _ _ => by rw [renumberStmts]
  | s :: ss, P, count => by
    refine (Walks.resolveStmt scope s).bind fun made count1 le =>
      (Walks.resolveStmts scope ss).bind fun rest count2 le' => .pure ?_
    rintro ⟨⟨-, h⟩, h'⟩ π ρ ρ' agree
    exact congrArg₂ List.cons (h.mono le' π ρ ρ' agree) (h' π ρ ρ' agree)

theorem Walks.resolveStmt (scope : ModulePath) :
    ∀ (s : Stmt Atom) {P : Prop} {count : Nat},
      Walks P Stmt.renumber count (fun _ => resolveStmt loader scope s)
  | .declare name ty init _ hidden span, P, count => by
    refine (Walks.optionalExpr scope init).bind fun made count1 le => ?_
    have declares (declared : Ty) : Walks (P ∧ Natural (fun ρ => Option.map (Expr.renumber ρ)) count1
        made) Stmt.renumber count1 (fun ρ => do
          let id ← (Resolving.declareVar ⟨name, declared, false, hidden, span⟩ : Resolving σ Nat)
          return .declare name ty (made ρ) (some id) hidden span) := by
      refine (Walks.declareVar _).bind fun made' count2 le' => .pure ?_
      rintro ⟨⟨-, h⟩, h'⟩ π ρ ρ' agree
      have init := h.mono le' π ρ ρ' agree
      have var := h' π ρ ρ' agree
      simp only [Stmt.renumber, Option.map_some, init, var]
    split
    · exact .finds ((searches_finds loader _).typeNamed scope _) declares
    · exact .finds (.pure _) declares
  | .assign target _ _ value span, P, count => by
    refine (Walks.resolveExpr scope value).bind fun made count1 le => ?_
    refine (Walks.findVariable scope target span.start).bind fun made' count2 le' => .pure ?_
    rintro ⟨⟨-, h⟩, h'⟩ π ρ ρ' agree
    have value := h.mono le' π ρ ρ' agree
    have same := h' π ρ ρ' agree
    have members : (made' ρ').2 = (made' ρ).2 := (congrArg Prod.snd same).symm
    have binding : (made' ρ').1 = (made' ρ).1.renumber π := (congrArg Prod.fst same).symm
    simp only [Stmt.renumber, Option.map_some, value, members, binding]
  | .eval value span, P, count => by
    refine (Walks.resolveExpr scope value).bind fun made count1 le => .pure ?_
    rintro ⟨-, h⟩ π ρ ρ' agree
    simp only [Stmt.renumber, h π ρ ρ' agree]
  | .ret value span, P, count => by
    refine (Walks.optionalExpr scope value).bind fun made count1 le => .pure ?_
    rintro ⟨-, h⟩ π ρ ρ' agree
    have value := h π ρ ρ' agree
    simp only [Stmt.renumber, value]
  | .branch arms otherwise span, P, count => by
    refine (Walks.mapM (fun e P count => Walks.resolveExpr scope e) _).bind
      fun conditions count1 le => ?_
    refine (Walks.resolveBodies scope arms).bind fun bodies count2 le' => ?_
    refine (Walks.resolveOptionalBlock scope otherwise).bind fun last count3 le'' => .pure ?_
    rintro ⟨⟨⟨-, h⟩, h'⟩, h''⟩ π ρ ρ' agree
    have conditions := (h.mono le').mono le'' π ρ ρ' agree
    have bodies := h'.mono le'' π ρ ρ' agree
    have last := h'' π ρ ρ' agree
    simp only [Stmt.renumber, renumberArms_zipWith, conditions, bodies, last]
  | .loop condition body span, P, count => by
    refine (Walks.resolveExpr scope condition).bind fun made count1 le => ?_
    refine (Walks.resolveBlock scope true body).bind fun made' count2 le' => .pure ?_
    rintro ⟨⟨-, h⟩, h'⟩ π ρ ρ' agree
    simp only [Stmt.renumber, h.mono le' π ρ ρ' agree, h' π ρ ρ' agree]
  | .breakOut amount span, P, count | .continueLoop span, P, count => by
    exact .pure fun _ _ _ _ _ => by rw [Stmt.renumber]

theorem Walks.resolveBodies (scope : ModulePath) :
    ∀ (arms : List (Arm Atom)) {P : Prop} {count : Nat},
      Walks P (fun ρ => List.map (Block.renumber ρ)) count
        (fun _ => resolveBodies loader scope arms)
  | [], P, count => by
    exact .pure fun _ _ _ _ _ => rfl
  | .mk _ body :: arms, P, count => by
    refine (Walks.resolveBlock scope false body).bind fun made count1 le =>
      (Walks.resolveBodies scope arms).bind fun rest count2 le' => .pure ?_
    rintro ⟨⟨-, h⟩, h'⟩ π ρ ρ' agree
    exact congrArg₂ List.cons (h.mono le' π ρ ρ' agree) (h' π ρ ρ' agree)

theorem Walks.resolveOptionalBlock (scope : ModulePath) :
    ∀ (b : Option (Block Atom)) {P : Prop} {count : Nat},
      Walks P renumberOtherwise count (fun _ => resolveOptionalBlock loader scope b)
  | none, P, count => by
    exact .pure fun _ _ _ _ _ => by rw [renumberOtherwise]
  | some body, P, count => by
    refine (Walks.resolveBlock scope false body).bind fun made count1 le => .pure ?_
    rintro ⟨-, h⟩ π ρ ρ' agree
    exact congrArg some (h π ρ ρ' agree)

end

theorem Walks.declareParams (s : Signature) (span : Span) :
    Walks P (fun _ u => u) count (fun _ => (declareParams s span : Resolving σ Unit)) := by
  simp only [Resolving.declareParams]
  generalize (s.params.map fun p => (p.name, p.ty)) ++ (s.named.map fun p => (p.name, p.ty)) = params
  induction params generalizing P count with
  | nil => exact .pure fun _ _ _ _ _ => rfl
  | cons p params ih =>
    have first : Walks P (fun _ u => u) count fun _ => (do
        let _ ← Resolving.declareVar ⟨p.1, p.2, true, false, span⟩ : Resolving σ Unit) :=
      (Walks.declareVar _).bind fun _ _ _ => .pure fun _ _ _ _ _ => rfl
    refine first.bind ?_
    intro _ _ _
    exact ih

/-! ## Functions -/

/-- Binds the names of a function. -/
def resolveValue (loader : Loader σ) : PlacedValue Atom → Resolving σ (PlacedValue Atom)
  | (path, .function f) => do return (path, .function (← resolveFunction loader path f))
  | (path, .global g) => return (path, .global g)

theorem isRound_resolveItems (loader : Loader σ) :
    IsRound (resolveValue loader) (resolveItems loader) (resolveItem loader) where
  nil scope := by rw [resolveItems]
  cons scope i is := by rw [resolveItems]
  function scope g := by simp [resolveItem, resolveValue, Item.values, List.singleton]
  global scope g := by simp [resolveItem, resolveValue, Item.values, List.singleton]
  submodule scope name items isPub isExtend span := by rw [resolveItem, map_eq_pure_bind]
  imports scope i := by rw [resolveItem]
  struct scope s := by rw [resolveItem]

/-- A value with its names bound, by the numbers of its variables, and its scopes. -/
structure Part where
  made : (Nat → Nat) → PlacedValue Atom
  scopes : Scopes

/-- What binding the names of a value comes to, after whatever other functions it is done. -/
structure PartOf (loader : Loader σ) (n : Names σ) (e : PlacedValue Atom) (p : Part) : Prop where
  natural : Natural (fun ρ e => (e.1, e.2.renumber ρ)) p.scopes.vars.length p.made
  outside : p.scopes.current = []
  rooted : ∀ path : ScopePath, (∀ root ∈ e.2.roots, path.getLast? ≠ some root) →
    p.scopes.scope? path = none
  again : ∀ m : Names σ, n.Alike (fun _ => True) m → m.scopes.current = [] →
    (∀ root ∈ e.2.roots, m.scopes.Apart root) → ∃ externals,
      Gives (resolveValue loader e) m (p.made m.scopes.number)
        { m with externals, scopes := m.scopes.after p.scopes }

theorem after_new (outside : s.current = []) : s.after {} = s := by
  obtain ⟨vars, scopes, current⟩ := s
  cases outside
  simp [Scopes.after]

/-- The body of a function is entered as if there were no other scopes. -/
theorem enter_eq_after {root : Nat} (outside : s.current = []) (apart : s.Apart root) :
    s.enter root false = s.after (({} : Scopes).enter root false) := by
  have enter := Scopes.enter_after (s := {}) (b := root) apart rfl false
  rwa [after_new outside] at enter

theorem inside_new (root : Nat) : (({} : Scopes).enter root false).Inside root := by
  refine ⟨Scopes.tidy_new.enter root false, by rw [Scopes.current_enter]; rfl, fun path outside => ?_⟩
  rw [Scopes.scope?_enter_other]
  · rfl
  · rintro rfl
    exact outside rfl

theorem resolveValue_function {path : ModulePath} {f : FunctionItem Atom} {s : Signature} {id : Nat}
    {ss : List (Stmt Atom)} {span : Span} (signature : f.signature = some s)
    (body : f.body = .mk id ss span) : resolveValue loader (path, .function f) = (do
      let body ← within id false do
        declareParams s f.span
        resolveStmts loader path ss
      return (path, .function { f with body := .mk id body span })) := by
  simp only [resolveValue, resolveFunction, signature, body, bind_assoc, pure_bind]

theorem exists_part {e e' : PlacedValue Atom} (declared : e.2.HasSignature)
    (outside : n.scopes.current = []) (apart : ∀ root ∈ e.2.roots, n.scopes.Apart root)
    (gives : Gives (resolveValue loader e) n e' n') (quiet : n'.imports = n.imports) :
    ∃ p, PartOf loader n e p := by
  obtain ⟨path, v⟩ := e
  cases v with
  | global g =>
    refine ⟨⟨fun _ => (path, .global g), {}⟩, fun _ _ _ _ => rfl, rfl, fun _ _ => rfl, ?_⟩
    intro m _ outside' _
    refine ⟨m.externals, ?_⟩
    rw [after_new outside']
    rfl
  | function f =>
    obtain ⟨s, signature⟩ := declared
    cases body : f.body with
    | mk id ss span =>
      have roots (m : Names σ) (apart : ∀ root ∈ (Value.function f).roots, m.scopes.Apart root) :
          m.scopes.Apart id := by
        have own := apart f.body.id List.mem_cons_self
        rwa [body] at own
      have walks : Walks True renumberStmts 0 (fun _ => do
          declareParams s f.span
          resolveStmts loader path ss) :=
        (Walks.declareParams s f.span).bind fun _ _ _ => .resolveStmts path ss
      rw [resolveValue_function signature body] at gives
      obtain ⟨ss', n1, first, last⟩ := gives.of_bind
      obtain ⟨rfl, rfl⟩ := Gives.pure_iff.mp last
      obtain ⟨n2, inner, rfl⟩ := gives_within.mp first
      obtain ⟨made, s1, h⟩ := walks.follows trivial (Nat.zero_le _) (roots n apart) (inside_new id)
        (n := { n with scopes := n.scopes.enter id false }) (enter_eq_after outside (roots n apart))
        inner quiet
      have current : s1.current = [id] := h.current.trans (Scopes.current_enter _ id false)
      refine ⟨⟨fun ρ => (path, .function { f with body := .mk id (made ρ) span }), s1.leave⟩,
        ?_, ?_, ?_, ?_⟩
      · intro π ρ ρ' agree
        have same := h.natural π ρ ρ' agree
        simp only [Value.renumber, Block.renumber, same]
      · rw [Scopes.leave, current]
        rfl
      · intro q outside
        refine h.inside.rooted q fun inside => outside f.body.id List.mem_cons_self ?_
        rw [body]
        exact inside
      · intro m alike outside' apart'
        obtain ⟨e', again⟩ := h.again { m with scopes := m.scopes.enter id false } m.scopes
          ⟨alike.shared, alike.imports, alike.decls⟩ (roots m apart')
          (enter_eq_after outside' (roots m apart'))
        refine ⟨e', ?_⟩
        rw [resolveValue_function signature body]
        have block := gives_within.mpr ⟨_, again, rfl⟩
        exact block.run_bind

/-! ## Files -/

/-- Parts one after the other, with the numbers of their variables. -/
def placed : Nat → List Part → List (PlacedValue Atom)
  | _, [] => []
  | k, p :: ps => p.made (k + ·) :: placed (k + p.scopes.vars.length) ps

def ownVars (ps : List Part) : List Variable := ps.flatMap fun p => p.scopes.vars

/-- The blocks of some values are new, and all of them are different. -/
structure Fresh (s : Scopes) (l : List (PlacedValue Atom)) : Prop where
  outside : s.current = []
  nodup : (l.flatMap fun e => e.2.roots).Nodup
  apart : ∀ e ∈ l, ∀ root ∈ e.2.roots, s.Apart root

theorem Fresh.after {e : PlacedValue Atom}
    {p : Part} (h : Fresh s (e :: l)) (part : PartOf loader n e p) : Fresh (s.after p.scopes) l := by
  have nodup := h.nodup
  rw [List.flatMap_cons, List.nodup_append'] at nodup
  refine ⟨part.outside, nodup.2.1, fun e' there root own path inside => ?_⟩
  have elsewhere : p.scopes.scope? path = none := by
    refine part.rooted path fun root' own' inside' => ?_
    cases inside.symm.trans inside'
    exact nodup.2.2 own' (List.mem_flatMap.mpr ⟨e', there, own⟩)
  have missing := h.apart e' (List.mem_cons_of_mem _ there) root own path inside
  rw [Scopes.scope?] at elsewhere missing
  rw [Scopes.scope?, Scopes.after, List.lookup_append, missing, Scopes.lookup_mapSnd, elsewhere]
  rfl

theorem adds_resolveValue (e : PlacedValue Atom) : Moves Adds (resolveValue loader e) := by
  obtain ⟨path, v⟩ := e
  cases v with
  | function f =>
    have steps : Stepwise loader (resolveFunction loader path f) :=
      (bodies_stepwise loader).resolveFunction path f
    exact moves_bind (moves_adds steps) fun _ => moves_pure _
  | global g => exact moves_pure _

/-- Binding the names of some values comes to one part for each. -/
theorem exists_parts {r : List (PlacedValue Atom)}
    (alike : n0.Alike (fun _ => True) n) (declared : ∀ e ∈ l, e.2.HasSignature)
    (fresh : Fresh n.scopes l) (gives : Gives (l.mapM (resolveValue loader)) n r n')
    (quiet : n'.imports = n.imports) : ∃ ps, List.Forall₂ (PartOf loader n0) l ps := by
  induction l generalizing n r with
  | nil => exact ⟨[], .nil⟩
  | cons e l ih =>
    rw [List.mapM_cons] at gives
    obtain ⟨e', n1, first, gives⟩ := gives.of_bind
    obtain ⟨r', n2, rest, last⟩ := gives.of_bind
    obtain ⟨rfl, rfl⟩ := Gives.pure_iff.mp last
    obtain ⟨quiet1, quiet2⟩ :=
      imports_between (adds_resolveValue e) (moves_mapM adds_resolveValue l) first rest quiet
    obtain ⟨own, others⟩ := List.forall_mem_cons.mp declared
    have apart := fresh.apart e List.mem_cons_self
    obtain ⟨p, part⟩ := exists_part own fresh.outside apart first quiet1
    obtain ⟨x, again⟩ := part.again n (.refl n) fresh.outside apart
    cases again.symm.trans first
    obtain ⟨ps, parts⟩ := ih (n := { n with externals := x, scopes := n.scopes.after p.scopes })
      ⟨alike.shared, alike.imports, alike.decls⟩ others (fresh.after part) rest quiet2
    refine ⟨p :: ps, .cons ⟨part.natural, part.outside, part.rooted, ?_⟩ parts⟩
    exact fun m alike' => part.again m (alike.symm.trans alike')

/-- The names of some values are bound as their parts say. -/
theorem gives_parts {ps : List Part}
    (alike : n0.Alike (fun _ => True) n) (parts : List.Forall₂ (PartOf loader n0) l ps)
    (fresh : Fresh n.scopes l) :
    ∃ n', Gives (l.mapM (resolveValue loader)) n (placed n.scopes.vars.length ps) n' ∧
      n0.Alike (fun _ => True) n' ∧ n'.scopes.vars = n.scopes.vars ++ ownVars ps := by
  induction parts generalizing n with
  | nil => exact ⟨n, rfl, alike, (List.append_nil _).symm⟩
  | @cons e p l ps part _ ih =>
    obtain ⟨x, first⟩ := part.again n alike fresh.outside (fresh.apart e List.mem_cons_self)
    obtain ⟨n', rest, alike', vars⟩ :=
      ih (n := { n with externals := x, scopes := n.scopes.after p.scopes })
        ⟨alike.shared, alike.imports, alike.decls⟩ (fresh.after part)
    refine ⟨n', ?_, alike', ?_⟩
    · refine gives_cons first ?_
      rwa [Scopes.after, List.length_append] at rest
    · rw [vars, Scopes.after, ownVars, ownVars, List.flatMap_cons, List.append_assoc]

end Bodies

end Resolving

end EbLang
