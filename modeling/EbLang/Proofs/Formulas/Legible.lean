import EbLang.Proofs.Formulas

/-!
# Formulas read back

Reading the tokens of a printed formula gives its steps in postorder and stops at the first token
after it.

The reader has no trees: after an operand it goes on with every operator that binds more strongly
than the context.  So what is proved of a formula speaks of that loop (`Legible`): reading an
expression from the formula's first token on comes to going on with the loop after its last token,
the formula's steps being the left operand.  This holds in a context whose power is below the
*opening* of the formula, and before a token that binds no more strongly than its *strength*.  The
two differ for prefix operators alone, which may stand in any context.
-/

namespace EbLang

/-! ## Steps of the reader -/

namespace Tree

variable {s s1 s2 : Cursor} {t u : Token} {ts us rest : List Token} {left terms : List Term}
  {power : Nat}

theorem takes_expression (h1 : Takes (operand s) left s1)
    (h2 : Passes (operators power left s1) terms s2) : Takes (expression power s) terms s2 := by
  unfold expression
  refine h1.bind fun _ => ?_
  refine h2.bind fun _ => ?_
  exact succeeds_pure ⟨rfl, rfl⟩

/-- The loop ends before a token that binds too weakly. -/
theorem passes_operators_nil (weak : (firstKind s.rest).bindingPower ≤ power) :
    Passes (operators power left s) left s := by
  unfold operators
  rw [if_neg (by rw [s.kind_eq]; omega)]
  exact succeeds_pure ⟨rfl, rfl⟩

theorem passes_operators_member (here : s.rest = t :: u :: us) (dot : t.kind = .dot)
    (name : u.kind = .identifier) (strong : power < memberLevel)
    (others : Passes (operators power (left ++ memberTerms u) ((s.past t (u :: us)).past u us))
      terms s2) : Passes (operators power left s) terms s2 := by
  have kind : s.kind = .dot := by rw [s.kind_eq, here]; exact dot
  unfold operators
  rw [if_pos (by rw [kind]; exact strong)]
  refine (Cursor.takes_take here).bind fun _ => ?_
  dsimp only
  rw [if_pos dot]
  refine (Cursor.takes_expectFor rfl name).bind fun _ => ?_
  refine others.bind fun _ => ?_
  exact succeeds_pure ⟨rfl, rfl⟩

theorem passes_operators_binary (op : BinaryOperator) {right : List Term}
    (here : s.rest = t :: ts) (kind : t.kind = op.kind) (strong : power < op.level)
    (start : firstKind ts ≠ .stop) (inner : Takes (expression op.level (s.past t ts)) right s1)
    (others : Passes (operators power
      (left ++ right ++ [.atom (.operator op.symbol 2 t.span)]) s1) terms s2) :
    Passes (operators power left s) terms s2 := by
  have same : s.kind = op.kind := by rw [s.kind_eq, here]; exact kind
  unfold operators
  rw [if_pos (by rw [same, op.bindingPower_kind]; exact strong)]
  refine (Cursor.takes_take here).bind fun _ => ?_
  dsimp only
  rw [if_neg (by rw [kind]; cases op <;> decide)]
  rw [← op.bindingPower_kind, ← kind, ← Cursor.skipStops_eq (s := s.past t ts) start] at inner
  refine inner.bind fun _ => ?_
  have symbol : t.kind.binarySymbol?.getD t.text = op.symbol := by
    rw [kind, op.binarySymbol?_kind]; rfl
  rw [symbol]
  refine others.bind fun _ => ?_
  exact succeeds_pure ⟨rfl, rfl⟩

theorem takes_operand_truth (b : Bool) (here : s.rest = t :: ts)
    (kind : t.kind = if b then .kwTrue else .kwFalse) :
    Takes (operand s) [.atom (.bool b t.span)] (s.past t ts) := by
  have same : s.kind = t.kind := by rw [s.kind_eq, here]; rfl
  unfold operand
  cases b with
  | true =>
    rw [same, kind]
    refine (Cursor.takes_take here).bind fun _ => ?_
    simp only [literal, kind]
    exact succeeds_pure ⟨rfl, rfl⟩
  | false =>
    rw [same, kind]
    refine (Cursor.takes_take here).bind fun _ => ?_
    simp only [literal, kind]
    exact succeeds_pure ⟨rfl, rfl⟩

theorem takes_operand_number (n : Number) (here : s.rest = t :: ts)
    (kind : t.kind = n.tokenKind) (number : t.number = some n) :
    Takes (operand s) [.atom { n.atom with span := t.span }] (s.past t ts) := by
  have same : s.kind = t.kind := by rw [s.kind_eq, here]; rfl
  obtain ⟨value, suffix⟩ := n
  unfold operand
  cases value with
  | int k =>
    rw [same, kind]
    refine (Cursor.takes_take here).bind fun _ => ?_
    simp only [literal, kind, number]
    exact succeeds_pure ⟨rfl, rfl⟩
  | float x =>
    rw [same, kind]
    refine (Cursor.takes_take here).bind fun _ => ?_
    simp only [literal, kind, number]
    exact succeeds_pure ⟨rfl, rfl⟩

theorem takes_operand_name (here : s.rest = t :: ts) (kind : t.kind = .identifier)
    (after : firstKind ts ≠ .openParen) :
    Takes (operand s) [.atom (.var t.text t.span)] (s.past t ts) := by
  have same : s.kind = .identifier := by rw [s.kind_eq, here]; exact kind
  unfold operand
  rw [same]
  refine (Cursor.takes_take here).bind fun _ => ?_
  dsimp only
  rw [if_neg (by rw [Cursor.kind_eq]; exact after)]
  exact succeeds_pure ⟨rfl, rfl⟩

theorem takes_operand_prefixed (op : PrefixOperator) (here : s.rest = t :: ts)
    (kind : t.kind = op.kind)
    (inner : Takes (expression PrefixOperator.level (s.past t ts)) terms s1) :
    Takes (operand s) (terms ++ [.atom (.operator op.symbol 1 t.span)]) s1 := by
  have same : s.kind = op.kind := by rw [s.kind_eq, here]; exact kind
  have symbol : t.kind.prefixSymbol?.getD t.text = op.symbol := by
    rw [kind]; cases op <;> rfl
  unfold operand
  rw [← symbol]
  cases op with
  | negate =>
    rw [same]
    refine (Cursor.takes_take here).bind fun _ => ?_
    exact inner.bind fun _ => succeeds_pure ⟨rfl, rfl⟩
  | invert =>
    rw [same]
    refine (Cursor.takes_take here).bind fun _ => ?_
    exact inner.bind fun _ => succeeds_pure ⟨rfl, rfl⟩
  | not =>
    rw [same]
    refine (Cursor.takes_take here).bind fun _ => ?_
    exact inner.bind fun _ => succeeds_pure ⟨rfl, rfl⟩

theorem takes_operand_group (opened : s.rest = t :: ts) (paren : t.kind = .openParen)
    (start : firstKind ts ≠ .stop) (inner : Takes (expression 0 (s.past t ts)) terms s1)
    (closed : s1.rest = u :: us) (paren' : u.kind = .closeParen) :
    Takes (operand s) terms (s1.past u us) := by
  have kind : s.kind = .openParen := by rw [s.kind_eq, opened]; exact paren
  have here : firstKind s1.rest ≠ .stop := by rw [closed]; simp [firstKind, paren']
  have skipped := Cursor.skipStops_eq here
  unfold operand
  rw [kind]
  refine (Cursor.takes_take opened).bind fun _ => ?_
  rw [← Cursor.skipStops_eq (s := s.past t ts) start] at inner
  refine inner.bind fun _ => ?_
  rw [← skipped] at closed
  refine (Cursor.takes_expectFor closed paren').bind fun _ => ?_
  exact succeeds_pure ⟨rfl, congrArg (Cursor.past · u us) skipped⟩

theorem takes_operand_call {args : Arguments} (here : s.rest = t :: u :: us)
    (name : t.kind = .identifier) (paren : u.kind = .openParen) (start : firstKind us ≠ .stop)
    (inner : Passes (arguments {} ((s.past t (u :: us)).past u us)) args s1)
    {v : Token} (closed : s1.rest = v :: rest) (paren' : v.kind = .closeParen) :
    Takes (operand s) (args.terms ++ [.atom (.call t.text args.positional args.named
      ((s1.past v rest).spanFrom t.span.start))]) (s1.past v rest) := by
  have same : s.kind = .identifier := by rw [s.kind_eq, here]; exact name
  unfold operand
  rw [same]
  refine (Cursor.takes_take here).bind fun _ => ?_
  dsimp only
  rw [if_pos (by rw [Cursor.kind_eq]; exact paren)]
  refine (Cursor.takes_take rfl).bind fun _ => ?_
  rw [← Cursor.skipStops_eq (s := (s.past t (u :: us)).past u us) start] at inner
  refine inner.bind fun _ => ?_
  refine (Cursor.takes_expect closed paren').bind fun _ => ?_
  exact succeeds_pure ⟨rfl, rfl⟩

end Tree

/-! ## Operators and groups -/

/-- Tokens of the signs are read as the steps, in every context below `opening` and before every token
that binds no more strongly than `closing`: what is read from the first of them on is what the loop
over operators reads after them, with the steps as left operand. -/
structure Legible (opening closing : Nat) (signs : List Sign) (steps : List Atom) : Prop where
  start : Starts signs
  reads : ∀ {power : Nat} {s : Cursor} {ts rest : List Token}, power < opening → Shown ts signs →
    s.rest = ts ++ rest → (firstKind rest).bindingPower ≤ closing → firstKind rest ≠ .openParen →
    ∃ left c, c.rest = rest ∧ left.map Term.unplaced = steps.map .atom ∧
      ∀ {terms : List Term} {d : Cursor}, Passes (Tree.operators power left c) terms d →
        Takes (Tree.expression power s) terms d

namespace Legible

open EbLang.Tree

variable {opening closing opening' closing' : Nat} {signs signs' : List Sign}
  {steps steps' : List Atom}

theorem mono (h : Legible opening closing signs steps) (ho : opening' ≤ opening)
    (hc : closing' ≤ closing) : Legible opening' closing' signs steps where
  start := h.start
  reads low shown whole weak paren :=
    h.reads (Nat.lt_of_lt_of_le low ho) shown whole (Nat.le_trans weak hc) paren

/-- What is read as a single operand may stand in every context. -/
theorem of_operand (start : Starts signs)
    (reads : ∀ {s : Cursor} {ts rest : List Token}, Shown ts signs → s.rest = ts ++ rest →
      (firstKind rest).bindingPower ≤ closing → firstKind rest ≠ .openParen →
      ∃ left c, c.rest = rest ∧ left.map Term.unplaced = steps.map .atom ∧
        Takes (operand s) left c) : Legible opening closing signs steps where
  start := start
  reads _ shown whole weak paren := by
    obtain ⟨left, c, here, same, taken⟩ := reads shown whole weak paren
    exact ⟨left, c, here, same, takes_expression taken⟩

/-- Before a token that is too weak for the context, nothing more is read. -/
theorem takes (h : Legible opening closing signs steps) {power : Nat} {s : Cursor}
    {ts rest : List Token} (low : power < opening) (shown : Shown ts signs)
    (whole : s.rest = ts ++ rest) (weak : (firstKind rest).bindingPower ≤ power)
    (weak' : (firstKind rest).bindingPower ≤ closing) (paren : firstKind rest ≠ .openParen) :
    ∃ terms c, c.rest = rest ∧ terms.map Term.unplaced = steps.map .atom ∧
      Takes (expression power s) terms c := by
  obtain ⟨left, c, rfl, same, goOn⟩ := h.reads low shown whole weak' paren
  exact ⟨left, c, rfl, same, goOn (passes_operators_nil weak)⟩

theorem truth (b : Bool) :
    Legible opening closing [.symbol (if b then .kwTrue else .kwFalse)] [.bool b .null] := by
  refine of_operand (.single (by cases b <;> decide) (by cases b <;> decide)) ?_
  intro s ts rest shown whole _ _
  obtain ⟨t, us, rfl, first, others⟩ := shown.of_cons
  cases others
  exact ⟨_, _, rfl, rfl, takes_operand_truth b whole first⟩

theorem number (n : Number) : Legible opening closing [.number n] [n.atom] := by
  refine of_operand (.single ?_ ?_) ?_
  · obtain ⟨value, suffix⟩ := n
    cases value <;> exact TokenKind.noConfusion
  · obtain ⟨value, suffix⟩ := n
    cases value <;> exact TokenKind.noConfusion
  · intro s ts rest shown whole _ _
    obtain ⟨t, us, rfl, first, others⟩ := shown.of_cons
    cases others
    refine ⟨_, _, rfl, ?_, takes_operand_number n whole first.1 first.2⟩
    obtain ⟨value, suffix⟩ := n
    cases value <;> rfl

theorem name (text : String) : Legible opening closing [.name text] [.var text .null] := by
  refine of_operand (.single TokenKind.noConfusion TokenKind.noConfusion) ?_
  intro s ts rest shown whole _ paren
  obtain ⟨t, us, rfl, first, others⟩ := shown.of_cons
  cases others
  refine ⟨_, _, rfl, ?_, takes_operand_name whole first.1 paren⟩
  rw [first.2]
  rfl

theorem inParens (h : Legible opening' closing' signs steps) (pos : 0 < opening') :
    Legible opening closing (inParens signs) steps := by
  refine of_operand (.symbol TokenKind.noConfusion TokenKind.noConfusion TokenKind.noConfusion _) ?_
  intro s ts rest shown whole _ _
  obtain ⟨t, us, rfl, paren, others⟩ := shown.of_cons
  obtain ⟨inside, close, rfl, inner, last⟩ := others.of_append
  obtain ⟨u, us, rfl, paren', others⟩ := last.of_cons
  cases others
  rw [List.cons_append, List.append_assoc] at whole
  have kind : firstKind ([u] ++ rest) = .closeParen := paren'
  obtain ⟨terms, c, here, same, taken⟩ := h.takes (s := s.past t (inside ++ ([u] ++ rest))) pos inner
    rfl (by rw [kind]; exact Nat.zero_le _) (by rw [kind]; exact Nat.zero_le _)
    (by rw [kind]; exact TokenKind.noConfusion)
  exact ⟨terms, c.past u rest, rfl, same, takes_operand_group whole paren
    (h.start.firstKind_ne inner _).1 taken here paren'⟩

/-- An operand in its place, in parentheses if need be. -/
theorem fenced {needed strength : Nat} (h : Legible opening' strength signs steps)
    (pos : 0 < opening') (opens : needed ≤ strength → opening ≤ opening') :
    Legible opening needed (fenced needed strength signs) steps := by
  unfold EbLang.fenced
  split
  next => exact h.inParens pos
  next strong => exact h.mono (opens (Nat.le_of_not_lt strong)) (Nat.le_of_not_lt strong)

theorem prefixed (op : PrefixOperator) (h : Legible opening' PrefixOperator.level signs steps)
    (high : PrefixOperator.level < opening') :
    Legible opening PrefixOperator.level (.symbol op.kind :: signs)
      (steps ++ [.operator op.symbol 1 .null]) := by
  refine of_operand (.symbol ?_ ?_ ?_ _) ?_
  · cases op <;> exact TokenKind.noConfusion
  · cases op <;> exact TokenKind.noConfusion
  · cases op <;> exact TokenKind.noConfusion
  intro s ts rest shown whole weak paren
  obtain ⟨t, us, rfl, kind, inner⟩ := shown.of_cons
  obtain ⟨terms, c, here, same, taken⟩ := h.takes (s := s.past t (us ++ rest)) high inner rfl weak
    weak paren
  refine ⟨_, c, here, ?_, takes_operand_prefixed op whole kind taken⟩
  rw [List.map_append, List.map_append, same]
  rfl

theorem binary (op : BinaryOperator) (hl : Legible op.level op.level signs steps)
    (hr : Legible (op.level + 1) (op.level + 1) signs' steps') :
    Legible op.level op.level (signs ++ .symbol op.kind :: signs')
      (steps ++ steps' ++ [.operator op.symbol 2 .null]) where
  start := hl.start.append (by cases op <;> exact TokenKind.noConfusion) _
  reads := by
    intro power s ts rest low shown whole weak paren
    obtain ⟨us, vs, rfl, shownLeft, others⟩ := shown.of_append
    obtain ⟨t, vs, rfl, kind, shownRight⟩ := others.of_cons
    rw [List.append_assoc] at whole
    -- The left operand ends at the operator, which binds no more strongly than it.
    have first : firstKind (t :: vs ++ rest) = op.kind := kind
    obtain ⟨left, c, here, same, goOn⟩ := hl.reads low shownLeft whole
      (Nat.le_of_eq (by rw [first, op.bindingPower_kind]))
      (by rw [first]; cases op <;> exact TokenKind.noConfusion)
    -- The right operand ends where the whole ends, since what follows binds no more strongly.
    obtain ⟨right, d, there, same', taken⟩ := hr.takes (s := c.past t (vs ++ rest))
      (Nat.lt_succ_self _) shownRight rfl weak (Nat.le_succ_of_le weak) paren
    refine ⟨left ++ right ++ [.atom (.operator op.symbol 2 t.span)], d, there, ?_, fun others => ?_⟩
    · rw [List.map_append, List.map_append, List.map_append, List.map_append, same, same']
      rfl
    · exact goOn (passes_operators_binary op here kind low (hr.start.firstKind_ne shownRight _).1
        taken others)

theorem member (h : Legible memberLevel memberLevel signs steps) (first : MemberName)
    (more : List MemberName) :
    Legible memberLevel memberLevel
      (signs ++ [.symbol .dot, .name (joinName ((first :: more).map MemberName.text))])
      (steps ++ (first :: more).map fun m => .member m.text .null) where
  start := h.start.append TokenKind.noConfusion _
  reads := by
    intro power s ts rest low shown whole _ paren
    obtain ⟨us, vs, rfl, shownBase, others⟩ := shown.of_append
    obtain ⟨t, vs, rfl, dot, others⟩ := others.of_cons
    obtain ⟨u, vs, rfl, path, others⟩ := others.of_cons
    cases others
    rw [List.append_assoc] at whole
    have kind : firstKind (t :: [u] ++ rest) = .dot := dot
    obtain ⟨left, c, here, same, goOn⟩ := h.reads low shownBase whole (by rw [kind]; exact Nat.le_refl _)
      (by rw [kind]; exact TokenKind.noConfusion)
    have parts : splitName u.text = (first :: more).map MemberName.text := by
      rw [path.2]
      refine splitName_joinName (by simp) fun part there => ?_
      obtain ⟨m, -, rfl⟩ := List.mem_map.mp there
      exact m.simple
    refine ⟨left ++ memberTerms u, (c.past t ([u] ++ rest)).past u rest, rfl, ?_, fun others => ?_⟩
    · rw [List.map_append, List.map_append, same, memberTerms, parts, List.map_map, List.map_map,
        List.map_map]
      rfl
    · exact goOn (passes_operators_member here dot path.1 low others)

end Legible

/-! ## Arguments -/

theorem separated_cons (signs : List Sign) (others : List (List Sign)) :
    ∃ more, separated (signs :: others) = signs ++ more := by
  cases others with
  | nil => exact ⟨[], (List.append_nil _).symm⟩
  | cons next others => exact ⟨_, rfl⟩

/-- An argument of a call: its name if it has one, and the signs and the steps of its value. -/
structure Argument where
  name : Option String
  signs : List Sign
  steps : List Atom

namespace Argument

open EbLang.Tree

/-- The signs of an argument, its name included. -/
def allSigns (a : Argument) : List Sign :=
  match a.name with
  | none => a.signs
  | some name => .name name :: .symbol .assignment :: a.signs

/-- The value of an argument is read back. -/
def IsLegible (a : Argument) : Prop :=
  ∃ opening closing, 0 < opening ∧ Legible opening closing a.signs a.steps

variable {a : Argument} {s : Cursor} {ts rest : List Token}

theorem firstKind_ne (h : a.IsLegible) (shown : Shown ts a.allSigns) (rest : List Token) :
    firstKind (ts ++ rest) ≠ .stop ∧ firstKind (ts ++ rest) ≠ .closeParen := by
  obtain ⟨opening, closing, -, legible⟩ := h
  obtain ⟨name, signs, steps⟩ := a
  cases name with
  | none => exact legible.start.firstKind_ne shown rest
  | some name =>
    obtain ⟨t, us, rfl, ⟨first, -⟩, -⟩ := shown.of_cons
    have kind : firstKind (t :: us ++ rest) = .identifier := first
    rw [kind]
    exact ⟨TokenKind.noConfusion, TokenKind.noConfusion⟩

/-- The name of an argument is read, and then its value. -/
theorem reads (h : a.IsLegible) (shown : Shown ts a.allSigns) (whole : s.rest = ts ++ rest)
    (after : firstKind rest = .comma ∨ firstKind rest = .closeParen) :
    (a.name.isSome → atArgumentName s = true) ∧
      ∃ c terms d, Passes (argumentName s) a.name c ∧ Takes (expression 0 c) terms d ∧
        d.rest = rest ∧ terms.map Term.unplaced = a.steps.map .atom := by
  obtain ⟨opening, closing, pos, legible⟩ := h
  obtain ⟨name, signs, steps⟩ := a
  have weak : (firstKind rest).bindingPower = 0 := by rcases after with h | h <;> rw [h] <;> rfl
  have paren : firstKind rest ≠ .openParen := by
    rcases after with h | h <;> rw [h] <;> exact TokenKind.noConfusion
  have value : ∀ {us : List Token} {c : Cursor}, Shown us signs → c.rest = us ++ rest →
      ∃ terms d, d.rest = rest ∧ terms.map Term.unplaced = steps.map .atom ∧
        Takes (expression 0 c) terms d := fun shown whole =>
    legible.takes pos shown whole (Nat.le_of_eq weak) (weak ▸ Nat.zero_le _) paren
  cases name with
  | none =>
    have plain : atArgumentName s = false := by
      refine legible.start.atArgumentName_eq_false shown whole ?_
      rcases after with h | h <;> rw [h] <;> exact TokenKind.noConfusion
    obtain ⟨terms, d, here, same, taken⟩ := value shown whole
    refine ⟨fun some => absurd some Bool.noConfusion, s, terms, d, ?_, taken, here, same⟩
    unfold argumentName
    rw [if_neg (by rw [plain]; decide)]
    exact succeeds_pure ⟨rfl, rfl⟩
  | some name =>
    obtain ⟨t, us, rfl, ⟨kind, text⟩, others⟩ := shown.of_cons
    obtain ⟨u, us, rfl, equals, shownValue⟩ := others.of_cons
    have named : atArgumentName s = true := by
      have first : s.kind = .identifier := by rw [s.kind_eq, whole]; exact kind
      have second : s.peek 1 = .assignment := by
        rw [Cursor.peek, whole]
        exact equals
      simp [atArgumentName, first, second]
    obtain ⟨terms, d, here, same, taken⟩ :=
      value (c := (s.past t (u :: us ++ rest)).past u (us ++ rest)) shownValue rfl
    refine ⟨fun _ => named, _, terms, d, ?_, taken, here, same⟩
    unfold argumentName
    rw [if_pos named]
    refine (Cursor.takes_take whole).bind fun _ => ?_
    refine (Cursor.takes_take rfl).bind fun _ => ?_
    exact succeeds_pure ⟨congrArg some text, rfl⟩

end Argument

/-- Arguments were added to others, in order. -/
structure Collected (before : Tree.Arguments) (args : List Argument) (all : Tree.Arguments) :
    Prop where
  positional : all.positional = before.positional + args.countP (·.name.isNone)
  named : all.named = before.named ++ args.filterMap Argument.name
  terms : all.terms.map Term.unplaced =
    before.terms.map Term.unplaced ++ (args.flatMap Argument.steps).map .atom

namespace Collected

variable {before all : Tree.Arguments} {args : List Argument}

theorem nil (before : Tree.Arguments) : Collected before [] before where
  positional := rfl
  named := (List.append_nil _).symm
  terms := (List.append_nil _).symm

theorem cons {a : Argument} {terms : List Term} (same : terms.map Term.unplaced = a.steps.map .atom)
    (h : Collected (before.add a.name terms) args all) : Collected before (a :: args) all := by
  obtain ⟨name, signs, steps⟩ := a
  obtain ⟨positional, named, all_terms⟩ := h
  cases name with
  | none =>
    refine ⟨?_, named, ?_⟩
    · rw [positional, List.countP_cons_of_pos rfl]
      simp only [Tree.Arguments.add]
      omega
    · simp only [all_terms, Tree.Arguments.add, List.map_append, same, List.flatMap_cons,
        List.append_assoc]
  | some name =>
    refine ⟨?_, ?_, ?_⟩
    · rw [positional, List.countP_cons_of_neg (by simp)]
      rfl
    · simp only [named, Tree.Arguments.add, List.filterMap_cons, List.append_assoc,
        List.singleton_append]
    · simp only [all_terms, Tree.Arguments.add, List.map_append, same, List.flatMap_cons,
        List.append_assoc]

end Collected

namespace Tree

variable {before : Arguments} {s : Cursor} {ts us : List Token} {u : Token}

/-- An argument is read, and then the others if a comma follows. -/
theorem exists_passes_arguments {a : Argument} {rest : List Token} (h : a.IsLegible)
    (shown : Shown ts a.allSigns) (whole : s.rest = ts ++ rest)
    (names : before.named ≠ [] → a.name.isSome)
    (after : firstKind rest = .comma ∨ firstKind rest = .closeParen) :
    ∃ terms d, d.rest = rest ∧ terms.map Term.unplaced = a.steps.map .atom ∧
      (firstKind rest = .closeParen → Passes (arguments before s) (before.add a.name terms) d) ∧
      ∀ {t : Token} {vs : List Token} {all : Arguments} {d' : Cursor}, rest = t :: vs →
        t.kind = .comma → firstKind vs ≠ .stop →
        Passes (arguments (before.add a.name terms) (d.past t vs)) all d' →
        Passes (arguments before s) all d' := by
  obtain ⟨isNamed, c, terms, d, name, value, here, same⟩ := a.reads h shown whole after
  have start : s.kind ≠ .closeParen := by
    rw [s.kind_eq, whole]
    exact (a.firstKind_ne h shown rest).2
  have allowed : (!before.named.isEmpty && !atArgumentName s) ≠ true := by
    by_cases first : before.named = []
    · simp [first]
    · simp [isNamed (names first)]
  have skipped : d.skipStops.1 = d := Cursor.skipStops_eq (by
    rw [here]
    rcases after with kind | kind <;> rw [kind] <;> exact TokenKind.noConfusion)
  have kind : d.skipStops.1.kind = firstKind rest := by rw [skipped, d.kind_eq, here]
  refine ⟨terms, d, here, same, fun close => ?_, fun {t vs all d'} cons comma next others => ?_⟩
  all_goals
    unfold arguments
    rw [if_neg start, if_neg allowed]
    refine name.bind fun _ => ?_
    refine value.bind fun _ => ?_
    dsimp only
  · rw [kind, close]
    exact succeeds_pure ⟨rfl, skipped⟩
  · subst cons
    rw [kind, firstKind, comma]
    refine (Cursor.takes_take (by rw [skipped, here])).bind fun _ => ?_
    rw [← Cursor.skipStops_eq (s := d.past t vs) next, ← skipped] at others
    refine others.bind fun _ => ?_
    exact succeeds_pure ⟨rfl, rfl⟩

theorem firstKind_arguments_ne (close : u.kind = .closeParen) {args : List Argument}
    (legible : ∀ a ∈ args, a.IsLegible)
    (shown : Shown ts (separated (args.map Argument.allSigns))) :
    firstKind (ts ++ u :: us) ≠ .stop := by
  cases args with
  | nil =>
    cases shown
    exact fun stop => TokenKind.noConfusion (close.symm.trans stop)
  | cons a args =>
    obtain ⟨more, whole⟩ := separated_cons a.allSigns (args.map Argument.allSigns)
    rw [List.map_cons, whole] at shown
    obtain ⟨vs, ws, rfl, first, -⟩ := shown.of_append
    rw [List.append_assoc]
    exact (a.firstKind_ne (legible a (.head _)) first _).1

/-- Arguments are read up to the closing parenthesis. -/
theorem passes_arguments (close : u.kind = .closeParen) :
    ∀ {args : List Argument} {before : Arguments} {s : Cursor} {ts : List Token},
      (∀ a ∈ args, a.IsLegible) → args.Pairwise (fun a b => a.name.isSome → b.name.isSome) →
      (before.named ≠ [] → ∀ a ∈ args, a.name.isSome) →
      Shown ts (separated (args.map Argument.allSigns)) → s.rest = ts ++ u :: us →
      ∃ all d, Passes (arguments before s) all d ∧ d.rest = u :: us ∧ Collected before args all
  | [], before, s, ts, _, _, _, shown, whole => by
    cases shown
    refine ⟨before, s, ?_, whole, .nil before⟩
    unfold arguments
    rw [if_pos (by rw [s.kind_eq, whole]; exact close)]
    exact succeeds_pure ⟨rfl, rfl⟩
  | [a], before, s, ts, legible, _, names, shown, whole => by
    obtain ⟨terms, d, here, same, last, -⟩ := exists_passes_arguments (legible a (.head _)) shown
      whole (fun first => names first a (.head _)) (.inr close)
    exact ⟨_, d, last close, here, .cons same (.nil _)⟩
  | a :: b :: args, before, s, ts, legible, sorted, names, shown, whole => by
    obtain ⟨vs, ws, rfl, shownFirst, others⟩ := shown.of_append
    obtain ⟨t, ws, rfl, comma, shownOthers⟩ := others.of_cons
    rw [List.append_assoc] at whole
    obtain ⟨terms, d, here, same, -, goOn⟩ := exists_passes_arguments (legible a (.head _))
      shownFirst whole (fun first => names first a (.head _)) (.inl comma)
    obtain ⟨later, sorted⟩ := List.pairwise_cons.mp sorted
    have names' : (before.add a.name terms).named ≠ [] → ∀ c ∈ b :: args, c.name.isSome := by
      intro first c there
      cases isNamed : a.name with
      | none => exact names (by rw [isNamed] at first; exact first) c (.tail _ there)
      | some name => exact later c there (by rw [isNamed]; rfl)
    have legible' : ∀ c ∈ b :: args, c.IsLegible := fun c there => legible c (.tail _ there)
    obtain ⟨all, d', passed, there, collected⟩ := passes_arguments close legible' sorted names'
      shownOthers (s := d.past t (ws ++ u :: us)) rfl
    exact ⟨all, d', goOn rfl comma (firstKind_arguments_ne close legible' shownOthers) passed, there,
      .cons same collected⟩

end Tree

/-- A call with its arguments in parentheses. -/
theorem Legible.call {opening closing : Nat} (f : String) {args : List Argument}
    (legible : ∀ a ∈ args, a.IsLegible)
    (sorted : args.Pairwise fun a b => a.name.isSome → b.name.isSome) :
    Legible opening closing (.name f :: EbLang.inParens (separated (args.map Argument.allSigns)))
      (args.flatMap Argument.steps ++
        [.call f (args.countP (·.name.isNone)) (args.filterMap Argument.name) .null]) := by
  refine of_operand ⟨_, _, rfl, TokenKind.noConfusion, TokenKind.noConfusion, ?_⟩ ?_
  · rintro - next ⟨⟩
    exact TokenKind.noConfusion
  intro s ts rest shown whole _ _
  obtain ⟨t, ts, rfl, ⟨kind, text⟩, others⟩ := shown.of_cons
  obtain ⟨u, us, rfl, paren, others⟩ := others.of_cons
  obtain ⟨inside, last, rfl, inner, others⟩ := others.of_append
  obtain ⟨v, vs, rfl, close, others⟩ := others.of_cons
  cases others
  simp only [List.cons_append, List.append_assoc, List.nil_append] at whole
  have noNames : ({} : Tree.Arguments).named ≠ [] → ∀ a ∈ args, a.name.isSome :=
    fun first => absurd rfl first
  obtain ⟨all, d, passed, here, collected⟩ := Tree.passes_arguments close legible sorted noNames inner
    (s := (s.past t (u :: (inside ++ v :: rest))).past u (inside ++ v :: rest)) rfl
  refine ⟨_, d.past v rest, rfl, ?_, Tree.takes_operand_call whole kind paren
    (Tree.firstKind_arguments_ne close legible inner) passed here close⟩
  obtain ⟨positional, named, terms⟩ := collected
  rw [List.map_append, List.map_append, terms, positional, named, text]
  simp only [Nat.zero_add, List.nil_append, List.map_nil]
  rfl

/-! ## Formulas -/

namespace Formula

/-- The powers of the contexts that a formula may be read in are below this. -/
def opening : Formula → Nat
  | prefixed _ _ => closedLevel
  | e => e.strength

/-- A positional argument. -/
def argument (e : Formula) : Argument := ⟨none, e.render, e.postorder⟩

def namedArgument (arg : String × Formula) : Argument :=
  ⟨some arg.1, arg.2.render, arg.2.postorder⟩

variable (e : Formula) (es : List Formula) (args : List (String × Formula))

theorem opening_pos : 0 < e.opening := by
  cases e with
  | binary op l r => exact op.level_pos
  | _ => simp [opening, strength, closedLevel, memberLevel]

theorem strength_le_opening : e.strength ≤ e.opening := by
  cases e with
  | prefixed op e => exact Nat.le_add_right 11 2
  | _ => exact Nat.le_refl _

/-- What binds as strongly as a prefix operator may follow one. -/
theorem prefixLevel_lt_opening {e : Formula} (h : PrefixOperator.level ≤ e.strength) :
    PrefixOperator.level < e.opening := by
  cases e with
  | binary op l r => exact absurd h (Nat.not_le.mpr op.level_lt_prefixLevel)
  | _ => simp [opening, strength, closedLevel, memberLevel, PrefixOperator.level]

theorem renderAll_eq : renderAll es = (es.map argument).map Argument.allSigns := by
  induction es with
  | nil => rfl
  | cons e es ih => rw [renderAll, ih]; rfl

theorem renderNamed_eq : renderNamed args = (args.map namedArgument).map Argument.allSigns := by
  induction args with
  | nil => rfl
  | cons arg args ih => rw [renderNamed, ih, renderArg]; rfl

theorem postorderAll_eq : postorderAll es = (es.map argument).flatMap Argument.steps := by
  induction es with
  | nil => rfl
  | cons e es ih => rw [postorderAll, ih]; rfl

theorem postorderNamed_eq :
    postorderNamed args = (args.map namedArgument).flatMap Argument.steps := by
  induction args with
  | nil => rfl
  | cons arg args ih => rw [postorderNamed, ih, postorderArg]; rfl

theorem legible_call (f : String) {positional : List Formula} {named : List (String × Formula)}
    (hp : ∀ a ∈ positional.map argument, a.IsLegible)
    (hn : ∀ a ∈ named.map namedArgument, a.IsLegible) :
    Legible closedLevel closedLevel (call f positional named).render
      (call f positional named).postorder := by
  have sorted : (positional.map argument ++ named.map namedArgument).Pairwise
      fun a b => a.name.isSome → b.name.isSome := by
    refine List.pairwise_append.mpr ⟨?_, ?_, ?_⟩
    · exact List.pairwise_map.mpr (List.pairwise_of_forall fun _ _ => id)
    · exact List.pairwise_map.mpr (List.pairwise_of_forall fun _ _ => id)
    · intro a _ b there _
      obtain ⟨arg, -, rfl⟩ := List.mem_map.mp there
      rfl
  have h : Legible closedLevel closedLevel _ _ :=
    .call f (List.forall_mem_append.mpr ⟨hp, hn⟩) sorted
  have count : (positional.map argument ++ named.map namedArgument).countP (·.name.isNone)
      = positional.length := by
    simp [List.countP_map, Function.comp_def, argument, namedArgument]
  have names : (positional.map argument ++ named.map namedArgument).filterMap Argument.name
      = named.map Prod.fst := by
    simp [List.filterMap_map, Function.comp_def, argument, namedArgument]
  rw [count, names, List.flatMap_append, List.map_append, ← renderAll_eq, ← renderNamed_eq,
    ← postorderAll_eq, ← postorderNamed_eq] at h
  exact h

mutual

/-- A printed formula is read back. -/
theorem legible : ∀ e : Formula, Legible e.opening e.strength e.render e.postorder
  | truth b => .truth b
  | number n => .number n
  | name text => .name text
  | prefixed op e =>
    .prefixed op ((legible e).fenced e.opening_pos fun h => prefixLevel_lt_opening h) (Nat.lt_succ_self _)
  | binary op l r => by
    refine .binary op ((legible l).fenced l.opening_pos fun h => ?_)
      ((legible r).fenced r.opening_pos fun h => ?_)
    · exact Nat.le_trans h l.strength_le_opening
    · exact Nat.le_trans h r.strength_le_opening
  | call f positional named => legible_call f (legible_arguments positional)
      (legible_namedArguments named)
  | member e first more => by
    refine .member ((legible e).fenced e.opening_pos fun h => ?_) first more
    exact Nat.le_trans h e.strength_le_opening
  | group e => (legible e).inParens e.opening_pos

theorem legible_arguments : ∀ es : List Formula, ∀ a ∈ es.map argument, a.IsLegible
  | [] => List.forall_mem_nil _
  | e :: es => List.forall_mem_cons.mpr
      ⟨⟨_, _, e.opening_pos, legible e⟩, legible_arguments es⟩

theorem legible_namedArguments :
    ∀ args : List (String × Formula), ∀ a ∈ args.map namedArgument, a.IsLegible
  | [] => List.forall_mem_nil _
  | (_, e) :: args => List.forall_mem_cons.mpr
      ⟨⟨_, _, e.opening_pos, legible e⟩, legible_namedArguments args⟩

end

end Formula

/-- The tokens of a printed formula, before a token that cannot go on with an expression, are read as
the steps of the formula in postorder, and nothing after them is read. -/
theorem wholeExpression_render (e : Formula) {ts rest : List Token} {s : Cursor}
    (shown : Shown ts e.render) (whole : s.rest = ts ++ rest) (after : ¬ (firstKind rest).GoesOn) :
    ∃ r, Tree.wholeExpression s = .ok r ∧
      r.value.terms.map Term.unplaced = e.postorder.map .atom ∧ r.rest.rest = rest := by
  have weak := TokenKind.bindingPower_of_not_goesOn after
  obtain ⟨terms, c, here, same, taken⟩ := e.legible.takes e.opening_pos shown whole
    (Nat.le_of_eq weak) (weak ▸ Nat.zero_le _) fun paren => after (.inr (.inr paren))
  unfold Tree.wholeExpression
  exact taken.bind fun _ => succeeds_pure ⟨same, here⟩

/-- A token as a sign says, at no place. -/
def Sign.token : Sign → Token
  | symbol kind => { kind, text := "", span := .null }
  | name text => { kind := .identifier, text, span := .null }
  | number n => { kind := n.tokenKind, text := "", span := .null, number := some n }

theorem shown_token (signs : List Sign) : Shown (signs.map Sign.token) signs := by
  induction signs with
  | nil => exact .nil
  | cons sign signs ih =>
    refine .cons ?_ ih
    cases sign with
    | symbol kind => rfl
    | name text => exact ⟨rfl, rfl⟩
    | number n => exact ⟨rfl, rfl⟩

/-- `-(a + b * 2).c.d - f(x, !true, k = (g())) << / -y` -/
def crowdedFormula : Formula :=
  .binary .shiftLeft
    (.binary .subtract
      (.prefixed .negate (.member
        (.binary .add (.name "a") (.binary .multiply (.name "b") (.number ⟨.int 2, .unspecified⟩)))
        { text := "c" } [{ text := "d" }]))
      (.call "f" [.name "x", .prefixed .not (.truth true)] [("k", .group (.call "g" [] []))]))
    (.prefixed .invert (.prefixed .negate (.name "y")))

theorem wholeExpression_render_crowdedFormula :
    ∃ r, Tree.wholeExpression
        ⟨crowdedFormula.render.map Sign.token ++ [Sign.token (.symbol .stop)], .null, .null⟩ = .ok r ∧
      r.value.terms.map Term.unplaced = List.map .atom
        [.var "a" .null, .var "b" .null, Number.atom ⟨.int 2, .unspecified⟩, .operator "*" 2 .null,
          .operator "+" 2 .null, .member "c" .null, .member "d" .null, .operator "-" 1 .null,
          .var "x" .null, .bool true .null, .operator "!" 1 .null, .call "g" 0 [] .null,
          .call "f" 2 ["k"] .null, .operator "-" 2 .null, .var "y" .null, .operator "-" 1 .null,
          .operator "/" 1 .null, .operator "<<" 2 .null] ∧
      r.rest.rest = [Sign.token (.symbol .stop)] := by
  refine wholeExpression_render crowdedFormula (shown_token _) rfl ?_
  rintro (⟨op, same⟩ | same | same)
  · cases op <;> cases same
  · cases same
  · cases same

end EbLang
