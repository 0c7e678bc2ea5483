import EbLang.Proofs.Occurrences
import EbLang.Token.Scan
import EbLang.Tree.Items

/-!
# What the parser reads

Whatever part of a file is read, three things hold of it.  Its expressions are balanced; the names in
it are texts of identifiers among the tokens it was read from; and its blocks are numbered downwards,
by numbers between the tokens left after it and the tokens left before it.  The last two are kept in
`Reading`, which composes like the reading itself.

Items have names as well, which are identifiers of the file, too.  The name of a function or a module
has one part (`NamedIn`); nothing is said of the name of a struct or a global, which may have several.
-/

namespace EbLang

/-- A stretch of tokens was read that holds the given names and block numbers. -/
structure Reading (s s' : Cursor) (names : List Mention) (ids : List Nat) : Prop where
  suffix : s'.rest <:+ s.rest
  /-- Names are written in the file. -/
  names_mem : ∀ x ∈ names, ∃ t ∈ s.rest, t.kind = .identifier ∧ x = .variable t.text false
  /-- Block numbers fall. -/
  ids_falling : ids.Pairwise (· > ·)
  ids_between : ∀ i ∈ ids, s'.size < i ∧ i ≤ s.size

namespace Reading

variable {s s1 s2 : Cursor} {names names' : List Mention} {ids ids' : List Nat}

/-- Tokens that hold neither a name nor a block. -/
theorem skip (h : s1.rest <:+ s.rest) : Reading s s1 [] [] :=
  ⟨h, by simp, .nil, by simp⟩

theorem name {t : Token} (h : s1.rest <:+ s.rest) (mem : t ∈ s.rest)
    (kind : t.kind = .identifier) : Reading s s1 [.variable t.text false] [] :=
  ⟨h, by simpa using ⟨t, mem, kind, rfl⟩, .nil, by simp⟩

theorem trans (h : Reading s s1 names ids) (h' : Reading s1 s2 names' ids') :
    Reading s s2 (names ++ names') (ids ++ ids') where
  suffix := h'.suffix.trans h.suffix
  names_mem x hx := by
    rcases List.mem_append.mp hx with hx | hx
    · exact h.names_mem x hx
    · obtain ⟨t, mem, ht⟩ := h'.names_mem x hx
      exact ⟨t, h.suffix.subset mem, ht⟩
  ids_falling := by
    refine List.pairwise_append.mpr ⟨h.ids_falling, h'.ids_falling, fun i hi j hj => ?_⟩
    have := (h.ids_between i hi).1
    have := (h'.ids_between j hj).2
    omega
  ids_between i hi := by
    have hs := h.suffix.length_le
    have hs' := h'.suffix.length_le
    rcases List.mem_append.mp hi with hi | hi
    · have := h.ids_between i hi
      exact ⟨by simp only [Cursor.size] at *; omega, this.2⟩
    · have := h'.ids_between i hi
      exact ⟨this.1, by simp only [Cursor.size] at *; omega⟩

/-- Tokens before what was read. -/
theorem after (h' : Reading s1 s2 names ids) (h : s1.rest <:+ s.rest) : Reading s s2 names ids :=
  (skip h).trans h'

/-- Tokens after what was read. -/
theorem before (h : Reading s s1 names ids) (h' : s2.rest <:+ s1.rest) :
    Reading s s2 names ids := by
  have := h.trans (skip h')
  rwa [List.append_nil, List.append_nil] at this

/-- A block counts the tokens left at its opening brace. -/
theorem block (h : Reading s1 s2 names ids) (suffix : s1.rest <:+ s.rest) (less : s1.size < s.size) :
    Reading s s2 names (Tree.blockNumber s :: ids) where
  suffix := h.suffix.trans suffix
  names_mem := (h.after suffix).names_mem
  ids_falling := by
    refine .cons (fun i hi => ?_) h.ids_falling
    have := (h.ids_between i hi).2
    simp only [Tree.blockNumber]
    omega
  ids_between i hi := by
    have hs := h.suffix.length_le
    simp only [Tree.blockNumber, Cursor.size, List.mem_cons] at *
    rcases hi with rfl | hi
    · omega
    · have := h.ids_between i hi
      simp only [Cursor.size] at this
      omega

end Reading

/-! ## Tokens -/

namespace Cursor

variable {s : Cursor}

theorem take?_eq_some {r : Taken Token s} (h : s.take? = some r) :
    s.rest = r.value :: r.rest.rest := by
  unfold take? at h
  split at h
  next => cases h
  next eq =>
    cases h
    exact eq

theorem ensures_take (s : Cursor) :
    Ensures s.take fun r => r.rest.rest <:+ s.rest ∧ r.value ∈ s.rest ∧ r.value.kind = s.kind := by
  intro r h
  unfold take at h
  split at h
  next ht =>
    cases h
    have eq := take?_eq_some ht
    refine ⟨⟨[r.value], eq.symm⟩, by simp [eq], ?_⟩
    simp [Cursor.kind, Cursor.current, eq]
  next => cases h

theorem ensures_expect (s : Cursor) (kind : TokenKind) :
    Ensures (s.expect kind) fun r => r.rest.rest <:+ s.rest := by
  unfold expect
  split
  next => exact ensures_imp s.ensures_take fun r h => h.1
  next => rintro _ ⟨⟩

theorem ensures_expectFor (s : Cursor) (kind : TokenKind) (wanted : String) :
    Ensures (s.expectFor kind wanted) fun r =>
      r.rest.rest <:+ s.rest ∧ r.value ∈ s.rest ∧ r.value.kind = kind := by
  intro r h
  unfold expectFor at h
  split at h
  next ht =>
    split at h
    next hk =>
      cases h
      have eq := take?_eq_some ht
      exact ⟨⟨[r.value], eq.symm⟩, by simp [eq], hk⟩
    next => cases h
  next => cases h

theorem dropStops_suffix (ts : List Token) (p : Position) : (dropStops p ts).2 <:+ ts := by
  induction ts generalizing p with
  | nil => exact List.suffix_refl _
  | cons t ts ih =>
    simp only [dropStops]
    split
    · exact (ih _).trans (List.suffix_cons t ts)
    · exact List.suffix_refl _

theorem skipStops_suffix (s : Cursor) : s.skipStops.1.rest <:+ s.rest :=
  dropStops_suffix _ _

end Cursor

/-! ## Expressions and statements -/

/-- Terms were read that take the stack from one height to another. -/
structure TermsRead (n m : Nat) (s s' : Cursor) (ts : List Term) : Prop where
  height : height? Term.takes n ts = some m
  wellFormed : TermsWellFormed ts
  reading : Reading s s' (collectTerms .names ts) (collectTerms .ids ts)

/-- An expression was read between two cursors. -/
structure ExprRead (s s' : Cursor) (e : Expr Term) : Prop where
  wellFormed : e.WellFormed
  reading : Reading s s' (e.collect .names) (e.collect .ids)

/-- The branches of an `if` were read. -/
structure ArmsRead (s s' : Cursor) (arms : List (Arm Term)) (otherwise : Option (Block Term)) :
    Prop where
  armsWellFormed : ArmsWellFormed arms
  otherwiseWellFormed : OtherwiseWellFormed otherwise
  reading : Reading s s' (collectArms .names arms ++ collectOtherwise .names otherwise)
    (collectArms .ids arms ++ collectOtherwise .ids otherwise)

/-- A statement was read. -/
structure StmtRead (s s' : Cursor) (stmt : Stmt Term) : Prop where
  wellFormed : stmt.WellFormed
  reading : Reading s s' (stmt.collect .names) (stmt.collect .ids)

/-- A block was read. -/
structure BlockRead (s s' : Cursor) (b : Block Term) : Prop where
  wellFormed : b.WellFormed
  reading : Reading s s' b.names b.ids

namespace TermsRead

variable {n m k : Nat} {s s1 s2 : Cursor} {ts us : List Term}

theorem append (h : TermsRead n m s s1 ts) (h' : TermsRead m k s1 s2 us) :
    TermsRead n k s s2 (ts ++ us) where
  height := by rw [height?_append, h.height, Option.bind_some, h'.height]
  wellFormed := termsWellFormed_append.mpr ⟨h.wellFormed, h'.wellFormed⟩
  reading := by
    rw [collectTerms_append, collectTerms_append]
    exact h.reading.trans h'.reading

/-- Terms do not touch what is further down the stack. -/
theorem add (h : TermsRead n m s s1 ts) (k : Nat) : TermsRead (n + k) (m + k) s s1 ts :=
  { h with height := height?_add k h.height }

theorem after (h' : TermsRead n m s1 s2 ts) (h : s1.rest <:+ s.rest) : TermsRead n m s s2 ts :=
  { h' with reading := h'.reading.after h }

theorem before (h : TermsRead n m s s1 ts) (h' : s2.rest <:+ s1.rest) : TermsRead n m s s2 ts :=
  { h with reading := h.reading.before h' }

/-- An atom that is no variable. -/
theorem atom {a : Atom} (takes : a.takes = n) (name : Collector.names.atom a = []) :
    TermsRead n 1 s s [.atom a] where
  height := by simp [height?, Term.takes, takes]
  wellFormed := ⟨trivial, trivial⟩
  reading := by
    simp only [collectTerms, Term.collect, name]
    exact .skip (List.suffix_refl _)

theorem nil : TermsRead n n s s [] := ⟨rfl, trivial, .skip (List.suffix_refl _)⟩

theorem expr (h : TermsRead 0 1 s s1 ts) (span : Span) : ExprRead s s1 ⟨ts, span⟩ :=
  ⟨⟨h.height, h.wellFormed⟩, h.reading⟩

end TermsRead

theorem ExprRead.terms {s s1 : Cursor} :
    ∀ {e : Expr Term}, ExprRead s s1 e → TermsRead 0 1 s s1 e.terms
  | ⟨_, _⟩, ⟨⟨balanced, wellFormed⟩, reading⟩ => ⟨balanced, wellFormed, reading⟩

namespace ArmsRead

variable {s s1 s2 s3 : Cursor} {arms : List (Arm Term)} {otherwise : Option (Block Term)}

theorem after (h' : ArmsRead s1 s2 arms otherwise) (h : s1.rest <:+ s.rest) :
    ArmsRead s s2 arms otherwise :=
  { h' with reading := h'.reading.after h }

theorem cons {condition : Expr Term} {body : Block Term} (h : ArmsRead s2 s3 arms otherwise)
    (hc : ExprRead s s1 condition) (hb : BlockRead s1 s2 body) :
    ArmsRead s s3 (.mk condition body :: arms) otherwise where
  armsWellFormed := ⟨hc.wellFormed, hb.wellFormed, h.armsWellFormed⟩
  otherwiseWellFormed := h.otherwiseWellFormed
  reading := by
    have := (hc.reading.trans hb.reading).trans h.reading
    rw [← List.append_assoc, ← List.append_assoc] at this
    exact this

end ArmsRead

namespace Tree

theorem memberTerms_read (t : Token) (s : Cursor) : TermsRead 1 1 s s (memberTerms t) := by
  unfold memberTerms
  induction splitName t.text with
  | nil => exact .nil
  | cons part parts ih =>
    have first : TermsRead 1 1 s s [.atom (Atom.member part t.span)] := .atom rfl rfl
    exact first.append ih

theorem operator_read (symbol : String) (arity : Nat) (span : Span) (s : Cursor) :
    TermsRead arity 1 s s [.atom (Atom.operator symbol arity span)] :=
  .atom rfl rfl

variable {e : Expr Term} (s : Cursor) (a : Arguments) (name : Option String) (ts : List Term)

theorem assignedValue_read {target : Token} {s s1 s2 : Cursor} (operator : Token)
    (hn : Reading s s1 [.variable target.text false] []) (he : ExprRead s1 s2 e) (span : Span) :
    StmtRead s s2 (.assign target.text none [] (assignedValue target operator e) span) := by
  unfold assignedValue
  split
  next symbol _ =>
    have sum := (he.terms.add 1).append (operator_read symbol 2 operator.span s2)
    refine ⟨⟨sum.height, trivial, sum.wellFormed⟩, ?_⟩
    -- The target is read as well as written.
    obtain ⟨suffix, names, falling, between⟩ := hn.trans sum.reading
    refine ⟨suffix, fun x hx => names x ?_, falling, between⟩
    rcases List.mem_cons.mp hx with rfl | hx
    · exact List.mem_cons_self
    · exact hx
  next => exact ⟨he.wellFormed, hn.trans he.reading⟩

theorem lone_read {s s1 : Cursor} (h : ExprRead s s1 e) : StmtRead s s1 (lone e) := by
  unfold lone
  split
  next eq =>
    obtain ⟨-, wf, reading⟩ := eq ▸ h.terms
    simp only [collectTerms, Term.collect, List.append_nil] at reading
    exact ⟨wf.1, reading⟩
  next => exact ⟨h.wellFormed, h.reading⟩

theorem ensures_literal (t : Token) :
    Ensures (literal t) fun a => a.takes = 0 ∧ Collector.names.atom a = [] := by
  unfold literal
  split
  · exact ensures_pure ⟨rfl, rfl⟩
  · exact ensures_pure ⟨rfl, rfl⟩
  · exact ensures_pure ⟨rfl, rfl⟩
  · exact ensures_pure ⟨rfl, rfl⟩
  · rintro _ ⟨⟩

theorem ensures_argumentName : Ensures (argumentName s) fun r => r.rest.rest <:+ s.rest := by
  unfold argumentName
  split
  next =>
    refine ensures_bind s.ensures_take fun r1 h1 => ?_
    exact ensures_bind r1.rest.ensures_take fun r2 h2 => ensures_pure (h2.1.trans h1.1)
  next => exact ensures_pure (List.suffix_refl _)

theorem ensures_typeName : Ensures (typeName s) fun r => r.rest.rest <:+ s.rest := by
  exact ensures_bind (s.ensures_expectFor _ _) fun r h => ensures_pure h.1

theorem ensures_breakAmount : Ensures (breakAmount s) fun r => r.rest.rest <:+ s.rest := by
  unfold breakAmount
  split
  next =>
    refine ensures_bind s.ensures_take fun r1 h1 => ?_
    refine ensures_bind (r1.rest.ensures_expectFor _ _) fun r2 h2 => ?_
    dsimp only
    split
    · split
      · exact ensures_pure (h2.1.trans h1.1)
      · rintro _ ⟨⟩
    · rintro _ ⟨⟩
  next => exact ensures_pure (List.suffix_refl _)

/-- How many arguments there are. -/
def Arguments.count (a : Arguments) : Nat := a.positional + a.named.length

theorem Arguments.add_terms : (a.add name ts).terms = a.terms ++ ts := by
  cases name <;> rfl

theorem Arguments.add_count : (a.add name ts).count = a.count + 1 := by
  cases name with
  | none => simp only [Arguments.add, Arguments.count]; omega
  | some name =>
    simp only [Arguments.add, Arguments.count, List.length_append, List.length_singleton]
    omega

mutual

theorem ensures_expression (power : Nat) (s : Cursor) :
    Ensures (expression power s) fun r => TermsRead 0 1 s r.rest r.value := by
  unfold expression
  refine ensures_bind (ensures_operand s) fun ⟨left, s1, h1⟩ hl => ?_
  refine ensures_bind (ensures_operators power left s1) fun ⟨ts, s2, h2⟩ ⟨added, eq, ho⟩ => ?_
  cases eq
  exact ensures_pure (hl.append ho)
termination_by s.rest.length * 8 + 3

/-- Operators stand after what was read before them. -/
theorem ensures_operators (power : Nat) (left : List Term) (s : Cursor) :
    Ensures (operators power left s) fun r =>
      ∃ added, r.value = left ++ added ∧ TermsRead 1 1 s r.rest added := by
  unfold operators
  split
  next =>
    refine ensures_bind s.ensures_take fun ⟨operator, s1, h1⟩ hop => ?_
    dsimp only
    split
    next =>
      refine ensures_bind (s1.ensures_expectFor _ _) fun ⟨name, s2, h2⟩ hn => ?_
      refine ensures_bind (ensures_operators power _ s2) fun ⟨ts, s3, h3⟩ ⟨added, eq, ho⟩ => ?_
      cases eq
      refine ensures_pure ⟨memberTerms name ++ added, List.append_assoc .., ?_⟩
      exact ((memberTerms_read name s2).append ho).after (hn.1.trans hop.1)
    next =>
      have h2 := s1.skipStops.2
      refine ensures_bind (ensures_expression _ s1.skipStops.1) fun ⟨right, s3, h3⟩ hr => ?_
      refine ensures_bind (ensures_operators power _ s3) fun ⟨ts, s4, h4⟩ ⟨added, eq, ho⟩ => ?_
      have symbol := operator_read (operator.kind.binarySymbol?.getD operator.text) 2 operator.span s3
      have both := (hr.add 1).append (symbol.append ho)
      refine ensures_pure ⟨_, ?_, both.after (s1.skipStops_suffix.trans hop.1)⟩
      exact eq.trans (by simp only [List.append_assoc])
  next => exact ensures_pure ⟨[], (List.append_nil _).symm, .nil⟩
termination_by s.rest.length * 8

theorem ensures_operand (s : Cursor) :
    Ensures (operand s) fun r => TermsRead 0 1 s r.rest r.value := by
  unfold operand
  split
  -- Numbers and truth values.
  iterate 4
    next =>
      refine ensures_bind s.ensures_take fun ⟨t, s1, h1⟩ ht => ?_
      refine ensures_bind (ensures_literal t) fun a ha => ?_
      exact ensures_pure ((TermsRead.atom ha.1 ha.2).after ht.1)
  next kind =>
    refine ensures_bind s.ensures_take fun ⟨t, s1, h1⟩ ht => ?_
    dsimp only
    split
    next =>
      refine ensures_bind s1.ensures_take fun ⟨paren, s2, h2⟩ hp => ?_
      have h3 := s2.skipStops.2
      refine ensures_bind (ensures_arguments _ s2.skipStops.1)
        fun ⟨args, s4, h4⟩ ⟨added, eq, ha⟩ => ?_
      refine ensures_bind (s4.ensures_expect _) fun ⟨_, s5, h5⟩ hc => ?_
      cases eq
      refine ensures_pure ((ha.before hc).append (.atom ?_ rfl) |>.after ?_)
      · rfl
      · exact s2.skipStops_suffix.trans (hp.1.trans ht.1)
    next =>
      refine ensures_pure ⟨rfl, ⟨trivial, trivial⟩, ?_⟩
      exact .name ht.1 ht.2.1 (ht.2.2.trans kind)
  -- Prefix operators.
  iterate 3
    next =>
      refine ensures_bind s.ensures_take fun ⟨t, s1, h1⟩ ht => ?_
      refine ensures_bind (ensures_expression _ s1) fun ⟨ts, s2, h2⟩ he => ?_
      exact ensures_pure ((he.append (operator_read _ 1 _ s2)).after ht.1)
  next =>
    refine ensures_bind s.ensures_take fun ⟨_, s1, h1⟩ ht => ?_
    have h2 := s1.skipStops.2
    refine ensures_bind (ensures_expression _ s1.skipStops.1) fun ⟨ts, s3, h3⟩ he => ?_
    refine ensures_bind (s3.skipStops.1.ensures_expectFor _ _) fun ⟨_, s5, h5⟩ hc => ?_
    have closed := he.before (hc.1.trans s3.skipStops_suffix)
    exact ensures_pure (closed.after (s1.skipStops_suffix.trans ht.1))
  next =>
    refine ensures_bind s.ensures_take fun ⟨t, s1, h1⟩ ht => ?_
    refine ensures_bind (ensures_wholeExpression s1) fun ⟨condition, s2, h2⟩ hc => ?_
    refine ensures_bind (ensures_block s2) fun ⟨body, s3, h3⟩ hb => ?_
    refine ensures_bind (ensures_elseBranches s3) fun ⟨(arms, otherwise), s4, h4⟩ he => ?_
    have all := he.cons hc hb
    refine ensures_pure ⟨rfl, ⟨⟨by simp, all.armsWellFormed, all.otherwiseWellFormed⟩, trivial⟩, ?_⟩
    simp only [collectTerms, Term.collect, List.append_nil]
    exact all.reading.after ht.1
  next => rintro _ ⟨⟩
termination_by s.rest.length * 8 + 2

/-- Arguments stand after those read before them. -/
theorem ensures_arguments (before : Arguments) (s : Cursor) :
    Ensures (arguments before s) fun r =>
      ∃ added, r.value.terms = before.terms ++ added ∧
        TermsRead before.count r.value.count s r.rest added := by
  unfold arguments
  split
  next => exact ensures_pure ⟨[], (List.append_nil _).symm, .nil⟩
  split
  next => rintro _ ⟨⟩
  refine ensures_bind (ensures_argumentName s) fun ⟨name, s1, h1⟩ hn => ?_
  refine ensures_bind (ensures_expression 0 s1) fun ⟨ts, s2, h2⟩ he => ?_
  have one : TermsRead before.count (before.add name ts).count s s2 ts := by
    rw [Arguments.add_count, Nat.add_comm]
    have := he.add before.count
    rw [Nat.zero_add] at this
    exact this.after hn
  have stops := s2.skipStops_suffix
  have h3 := s2.skipStops.2
  dsimp only
  split
  next =>
    refine ensures_bind s2.skipStops.1.ensures_take fun ⟨_, s4, h4⟩ hc => ?_
    have h5 := s4.skipStops.2
    refine ensures_bind (ensures_arguments (before.add name ts) s4.skipStops.1)
      fun ⟨args, s6, h6⟩ ⟨added, eq, ha⟩ => ?_
    refine ensures_pure ⟨ts ++ added, ?_, ?_⟩
    · exact eq.trans (by rw [Arguments.add_terms, List.append_assoc])
    · exact (one.before ((s4.skipStops_suffix.trans hc.1).trans stops)).append ha
  next =>
    exact ensures_pure ⟨ts, Arguments.add_terms .., one.before stops⟩
  next => rintro _ ⟨⟩
termination_by s.rest.length * 8 + 4

theorem ensures_elseBranches (s : Cursor) :
    Ensures (elseBranches s) fun r => ArmsRead s r.rest r.value.1 r.value.2 := by
  unfold elseBranches
  have h1 := s.skipStops.2
  split
  next =>
    refine ensures_bind s.skipStops.1.ensures_take fun ⟨_, s2, h2⟩ he => ?_
    have suffix := he.1.trans s.skipStops_suffix
    dsimp only
    split
    next =>
      refine ensures_bind s2.ensures_take fun ⟨_, s3, h3⟩ hi => ?_
      refine ensures_bind (ensures_wholeExpression s3) fun ⟨condition, s4, h4⟩ hc => ?_
      have less4 : s4.rest.length < s3.rest.length := h4
      refine ensures_bind (ensures_block s4) fun ⟨body, s5, h5⟩ hb => ?_
      have less5 : s5.rest.length < s4.rest.length := h5
      refine ensures_bind (ensures_elseBranches s5) fun ⟨(arms, otherwise), s6, h6⟩ ha => ?_
      exact ensures_pure ((ha.cons hc hb).after (hi.1.trans suffix))
    next =>
      refine ensures_bind (ensures_block s2) fun ⟨body, s3, h3⟩ hb => ?_
      exact ensures_pure ⟨trivial, hb.wellFormed, hb.reading.after suffix⟩
  next => exact ensures_pure ⟨trivial, trivial, .skip (List.suffix_refl _)⟩
termination_by s.rest.length * 8

theorem ensures_wholeExpression (s : Cursor) :
    Ensures (wholeExpression s) fun r => ExprRead s r.rest r.value := by
  unfold wholeExpression
  exact ensures_bind (ensures_expression 0 s) fun r h => ensures_pure (h.expr _)
termination_by s.rest.length * 8 + 4

theorem ensures_block (s : Cursor) : Ensures (block s) fun r => BlockRead s r.rest r.value := by
  unfold block
  refine ensures_bind (s.ensures_expectFor _ _) fun ⟨_, s1, h1⟩ ho => ?_
  refine ensures_bind (ensures_statements s1) fun ⟨body, s2, h2⟩ ⟨wf, hb⟩ => ?_
  refine ensures_bind s2.ensures_take fun ⟨_, s3, h3⟩ hc => ?_
  exact ensures_pure ⟨wf, (hb.before hc.1).block ho.1 h1⟩
termination_by s.rest.length * 8

theorem ensures_statements (s : Cursor) :
    Ensures (statements s) fun r => StmtsWellFormed r.value ∧
      Reading s r.rest (collectStmts .names r.value) (collectStmts .ids r.value) := by
  unfold statements
  have h1 := s.skipStops.2
  have suffix := s.skipStops_suffix
  split
  next => exact ensures_pure ⟨trivial, .skip suffix⟩
  next => rintro _ ⟨⟩
  next =>
    refine ensures_bind (ensures_statement s.skipStops.1) fun ⟨first, s2, h2⟩ hf => ?_
    dsimp only
    split
    next =>
      refine ensures_bind (ensures_statements s2) fun ⟨others, s3, h3⟩ ⟨wf, ho⟩ => ?_
      exact ensures_pure ⟨⟨hf.wellFormed, wf⟩, (hf.reading.trans ho).after suffix⟩
    next => rintro _ ⟨⟩
termination_by s.rest.length * 8 + 6

theorem ensures_statement (s : Cursor) :
    Ensures (statement s) fun r => StmtRead s r.rest r.value := by
  unfold statement
  split
  next =>
    refine ensures_bind s.ensures_take fun ⟨t, s1, h1⟩ ht => ?_
    dsimp only
    split
    next => exact ensures_pure ⟨trivial, .skip ht.1⟩
    next =>
      refine ensures_bind (ensures_wholeExpression s1) fun ⟨value, s2, h2⟩ hv => ?_
      exact ensures_pure ⟨hv.wellFormed, hv.reading.after ht.1⟩
  next =>
    refine ensures_bind s.ensures_take fun ⟨t, s1, h1⟩ ht => ?_
    dsimp only
    split
    next =>
      refine ensures_bind (ensures_block s1) fun ⟨body, s2, h2⟩ hb => ?_
      exact ensures_pure ⟨⟨⟨rfl, trivial, trivial⟩, hb.wellFormed⟩, hb.reading.after ht.1⟩
    next =>
      refine ensures_bind (ensures_wholeExpression s1) fun ⟨condition, s2, h2⟩ hc => ?_
      refine ensures_bind (ensures_block s2) fun ⟨body, s3, h3⟩ hb => ?_
      exact ensures_pure ⟨⟨hc.wellFormed, hb.wellFormed⟩, (hc.reading.trans hb.reading).after ht.1⟩
  next =>
    refine ensures_bind s.ensures_take fun ⟨t, s1, h1⟩ ht => ?_
    refine ensures_bind (ensures_breakAmount s1) fun ⟨amount, s2, h2⟩ ha => ?_
    exact ensures_pure ⟨trivial, .skip (ha.trans ht.1)⟩
  next =>
    refine ensures_bind s.ensures_take fun ⟨t, s1, h1⟩ ht => ?_
    exact ensures_pure ⟨trivial, .skip ht.1⟩
  next =>
    split
    next at_name =>
      simp only [Bool.and_eq_true, decide_eq_true_eq] at at_name
      exact ensures_declaration s at_name.1
    split
    next at_name =>
      simp only [Bool.and_eq_true, decide_eq_true_eq] at at_name
      refine ensures_bind s.ensures_take fun ⟨target, s1, h1⟩ ht => ?_
      refine ensures_bind s1.ensures_take fun ⟨operator, s2, h2⟩ ho => ?_
      refine ensures_bind (ensures_wholeExpression s2) fun ⟨e, s3, h3⟩ he => ?_
      have isName := ht.2.2.trans at_name.1
      have named := (Reading.name ht.1 ht.2.1 isName).before ho.1
      exact ensures_pure (assignedValue_read operator named he _)
    next =>
      refine ensures_bind (ensures_wholeExpression s) fun ⟨e, s1, h1⟩ he => ?_
      exact ensures_pure (lone_read he)
termination_by s.rest.length * 8 + 5

theorem ensures_declaration (s : Cursor) (kind : s.kind = .identifier) :
    Ensures (declaration s) fun r => StmtRead s r.rest r.value := by
  unfold declaration
  refine ensures_bind s.ensures_take fun ⟨name, s1, h1⟩ hn => ?_
  dsimp only
  split
  next => rintro _ ⟨⟩
  refine ensures_bind s1.ensures_take fun ⟨operator, s2, h2⟩ ho => ?_
  have named : Reading s s2 [.variable name.text false] [] :=
    (Reading.name hn.1 hn.2.1 (hn.2.2.trans kind)).before ho.1
  dsimp only
  split
  next =>
    refine ensures_bind (ensures_wholeExpression s2) fun ⟨init, s3, h3⟩ hi => ?_
    exact ensures_pure ⟨hi.wellFormed, named.trans hi.reading⟩
  next =>
    refine ensures_bind (ensures_typeName s2) fun ⟨ty, s3, h3⟩ ht => ?_
    dsimp only
    split
    next =>
      refine ensures_bind s3.ensures_take fun ⟨_, s4, h4⟩ hs => ?_
      refine ensures_bind (ensures_wholeExpression s4) fun ⟨init, s5, h5⟩ hi => ?_
      exact ensures_pure ⟨hi.wellFormed, (named.before (hs.1.trans ht)).trans hi.reading⟩
    next => exact ensures_pure ⟨trivial, named.before ht⟩
termination_by s.rest.length * 8

end

/-! ## Items -/

theorem ensures_field : Ensures (field s) fun r => r.rest.rest <:+ s.rest := by
  refine ensures_bind (s.ensures_expectFor _ _) fun ⟨name, s1, h1⟩ hn => ?_
  refine ensures_bind (s1.ensures_expectFor _ _) fun ⟨_, s2, h2⟩ hc => ?_
  refine ensures_bind (ensures_typeName s2) fun ⟨ty, s3, h3⟩ ht => ?_
  exact ensures_pure (ht.trans (hc.1.trans hn.1))

theorem ensures_defaultValue :
    Ensures (defaultValue s) fun r => OptionalWellFormed r.value ∧ r.rest.rest <:+ s.rest := by
  unfold defaultValue
  split
  next =>
    refine ensures_bind s.ensures_take fun ⟨_, s1, h1⟩ ht => ?_
    refine ensures_bind (ensures_wholeExpression s1) fun ⟨value, s2, h2⟩ hv => ?_
    exact ensures_pure ⟨hv.wellFormed, hv.reading.suffix.trans ht.1⟩
  next => exact ensures_pure ⟨trivial, List.suffix_refl _⟩

theorem ensures_namedFields (before : List NamedField) (s : Cursor)
    (hb : ∀ n ∈ before, OptionalWellFormed n.default) :
    Ensures (namedFields before s) fun r =>
      (∀ n ∈ r.value, OptionalWellFormed n.default) ∧ r.rest.rest <:+ s.rest := by
  unfold namedFields
  split
  next => exact ensures_pure ⟨hb, List.suffix_refl _⟩
  refine ensures_bind (ensures_field s) ?_
  rintro ⟨f, s1, h1⟩ hf
  refine ensures_bind (ensures_defaultValue s1) ?_
  rintro ⟨value, s2, h2⟩ hv
  have suffix := s2.skipStops_suffix.trans (hv.2.trans hf)
  have all : ∀ n ∈ before ++ [⟨f.name, f.ty, value, s2.spanFrom f.span.start⟩],
      OptionalWellFormed n.default := by
    intro n hn
    rcases List.mem_append.mp hn with hn | hn
    · exact hb n hn
    · cases List.mem_singleton.mp hn
      exact hv.1
  have h3 := s2.skipStops.2
  dsimp only
  split
  next =>
    refine ensures_bind s2.skipStops.1.ensures_take ?_
    rintro ⟨_, s4, h4⟩ hc
    have h5 := s4.skipStops.2
    refine ensures_bind (ensures_namedFields _ s4.skipStops.1 all) ?_
    rintro ⟨fields, s6, h6⟩ hn
    exact ensures_pure ⟨hn.1, hn.2.trans (s4.skipStops_suffix.trans (hc.1.trans suffix))⟩
  next => exact ensures_pure ⟨all, suffix⟩
  next => rintro _ ⟨⟩
termination_by s.rest.length

theorem ensures_namedGroup :
    Ensures (namedGroup s) fun r =>
      (∀ n ∈ r.value, OptionalWellFormed n.default) ∧ r.rest.rest <:+ s.rest := by
  refine ensures_bind (s.ensures_expect _) fun ⟨_, s1, h1⟩ ho => ?_
  refine ensures_bind (ensures_namedFields [] s1.skipStops.1 (by simp))
    fun ⟨named, s3, h3⟩ hn => ?_
  refine ensures_bind s3.ensures_take fun ⟨_, s4, h4⟩ hc => ?_
  exact ensures_pure ⟨hn.1, hc.1.trans (hn.2.trans (s1.skipStops_suffix.trans ho))⟩

theorem ensures_parameters (before : List Field) (s : Cursor) :
    Ensures (parameters before s) fun r =>
      (∀ n ∈ r.value.2, OptionalWellFormed n.default) ∧ r.rest.rest <:+ s.rest := by
  unfold parameters
  split
  next => exact ensures_pure ⟨by simp, List.suffix_refl _⟩
  next =>
    refine ensures_bind (ensures_namedGroup s) ?_
    rintro ⟨named, s1, h1⟩ hn
    exact ensures_pure ⟨hn.1, s1.skipStops_suffix.trans hn.2⟩
  next =>
    refine ensures_bind (ensures_field s) ?_
    rintro ⟨f, s1, h1⟩ hf
    have suffix := s1.skipStops_suffix.trans hf
    have h2 := s1.skipStops.2
    dsimp only
    split
    next =>
      refine ensures_bind s1.skipStops.1.ensures_take ?_
      rintro ⟨_, s3, h3⟩ hc
      have h4 := s3.skipStops.2
      refine ensures_bind (ensures_parameters _ s3.skipStops.1) ?_
      rintro ⟨all, s5, h5⟩ ha
      exact ensures_pure ⟨ha.1, ha.2.trans (s3.skipStops_suffix.trans (hc.1.trans suffix))⟩
    next => exact ensures_pure ⟨by simp, suffix⟩
    next => rintro _ ⟨⟩
termination_by s.rest.length

theorem ensures_resultType : Ensures (resultType s) fun r => r.rest.rest <:+ s.rest := by
  unfold resultType
  split
  next =>
    refine ensures_bind s.ensures_take fun ⟨_, s1, h1⟩ hc => ?_
    exact ensures_bind (ensures_typeName s1) fun ⟨ty, s2, h2⟩ ht => ensures_pure (ht.trans hc.1)
  next => exact ensures_pure (List.suffix_refl _)

theorem ensures_importPaths (base : List String) (before : List (List String)) (s : Cursor) :
    Ensures (importPaths base before s) fun r => r.rest.rest <:+ s.rest := by
  unfold importPaths
  split
  next => exact ensures_pure (List.suffix_refl _)
  refine ensures_bind (s.ensures_expectFor _ _) ?_
  rintro ⟨tail, s1, h1⟩ ht
  have suffix := s1.skipStops_suffix.trans ht.1
  have h2 := s1.skipStops.2
  dsimp only
  split
  next =>
    refine ensures_bind s1.skipStops.1.ensures_take ?_
    rintro ⟨_, s3, h3⟩ hc
    have h4 := s3.skipStops.2
    refine ensures_bind (ensures_importPaths _ _ s3.skipStops.1) ?_
    rintro ⟨paths, s5, h5⟩ hp
    exact ensures_pure (hp.trans (s3.skipStops_suffix.trans (hc.1.trans suffix)))
  next => exact ensures_pure suffix
  next => rintro _ ⟨⟩
termination_by s.rest.length

theorem ensures_structFields (before : List Field) (s : Cursor) :
    Ensures (structFields before s) fun r => r.rest.rest <:+ s.rest := by
  unfold structFields
  have suffix := s.skipStops_suffix
  have h1 := s.skipStops.2
  split
  next => exact ensures_pure suffix
  refine ensures_bind (ensures_field s.skipStops.1) fun ⟨f, s2, h2⟩ hf => ?_
  dsimp only
  split
  next =>
    refine ensures_bind s2.ensures_take fun ⟨_, s3, h3⟩ hc => ?_
    refine ensures_bind (ensures_structFields _ s3) fun ⟨fields, s4, h4⟩ hs => ?_
    exact ensures_pure (hs.trans (hc.1.trans (hf.trans suffix)))
  split
  next =>
    refine ensures_bind (ensures_structFields _ s2) fun ⟨fields, s3, h3⟩ hs => ?_
    exact ensures_pure (hs.trans (hf.trans suffix))
  next => rintro _ ⟨⟩
termination_by s.rest.length

theorem ensures_globalType : Ensures (globalType s) fun r => r.rest.rest <:+ s.rest := by
  unfold globalType
  split
  next => exact ensures_bind s.ensures_take fun r h => ensures_pure h.1
  next =>
    refine ensures_bind s.ensures_take fun ⟨_, s1, h1⟩ hc => ?_
    refine ensures_bind (ensures_typeName s1) fun ⟨ty, s2, h2⟩ ht => ?_
    refine ensures_bind (s2.ensures_expectFor _ _) fun ⟨_, s3, h3⟩ ha => ?_
    exact ensures_pure (ha.1.trans (ht.trans hc.1))
  next => rintro _ ⟨⟩

theorem ensures_pubKeyword : Ensures (pubKeyword s) fun r => r.rest.rest <:+ s.rest := by
  unfold pubKeyword
  split
  next => exact ensures_bind s.ensures_take fun r h => ensures_pure h.1
  next => exact ensures_pure (List.suffix_refl _)

end Tree

/-! ## Names of items -/

section Names

variable {τ : Type}

/-- The kinds of items that have a name. -/
inductive ItemKind where
  | function
  | global
  | struct
  | submodule
deriving DecidableEq

structure ItemName where
  kind : ItemKind
  text : String
deriving DecidableEq

mutual

def Item.names : Item τ → List ItemName
  | .function f => [⟨.function, f.name⟩]
  | .imports _ => []
  | .global g => [⟨.global, g.name⟩]
  | .struct s => [⟨.struct, s.name⟩]
  | .submodule name items _ _ _ => ⟨.submodule, name⟩ :: namesOf items

def namesOf : List (Item τ) → List ItemName
  | [] => []
  | i :: is => i.names ++ namesOf is

end

def FileTree.itemNames (t : FileTree τ) : List ItemName := namesOf t.items

theorem namesOf_append (is js : List (Item τ)) : namesOf (is ++ js) = namesOf is ++ namesOf js := by
  induction is with
  | nil => simp [namesOf]
  | cons i is ih => simp [namesOf, ih]

/-- The name is an identifier among the tokens, of one part if it is that of a function or a
module. -/
def NamedIn (tokens : List Token) (x : ItemName) : Prop :=
  (∃ t ∈ tokens, t.kind = .identifier ∧ t.text = x.text) ∧
    (x.kind = .function ∨ x.kind = .submodule → isQualified x.text = false)

theorem NamedIn.of_suffix {ts us : List Token} {x : ItemName} (h : NamedIn ts x) (suffix : ts <:+ us) :
    NamedIn us x := by
  obtain ⟨⟨t, mem, identifier⟩, plain⟩ := h
  exact ⟨⟨t, suffix.subset mem, identifier⟩, plain⟩

theorem NamedIn.of_token (kind : ItemKind) {ts : List Token} {t : Token} (mem : t ∈ ts)
    (identifier : t.kind = .identifier)
    (plain : kind = .function ∨ kind = .submodule → isQualified t.text = false) :
    NamedIn ts ⟨kind, t.text⟩ := ⟨⟨t, mem, identifier, rfl⟩, plain⟩

end Names

/-- Items were read; names and numbers are those of the function bodies in them. -/
structure ItemsRead (s s' : Cursor) (items : List (Item Term)) : Prop where
  wellFormed : ItemsWellFormed Block.WellFormed items
  reading : Reading s s' (collectBodies .names (functionsOf items))
    (collectBodies .ids (functionsOf items))
  named : ∀ x ∈ namesOf items, NamedIn s.rest x

namespace ItemsRead

variable {s s1 s2 s3 : Cursor} {i : Item Term} {is : List (Item Term)}

theorem nil (h : s1.rest <:+ s.rest) : ItemsRead s s1 [] :=
  ⟨trivial, .skip h, List.forall_mem_nil _⟩

theorem cons (h : ItemsRead s s1 [i]) (h' : ItemsRead s1 s2 is) : ItemsRead s s2 (i :: is) where
  wellFormed := ⟨h.wellFormed.1, h'.wellFormed⟩
  reading := by
    have := h.reading.trans h'.reading
    simpa only [functionsOf, collectBodies, List.append_nil, List.flatMap_append] using this
  named := by
    have first := h.named
    rw [namesOf, namesOf, List.append_nil] at first
    exact List.forall_mem_append.mpr ⟨first, fun x hx => (h'.named x hx).of_suffix h.reading.suffix⟩

theorem after (h' : ItemsRead s1 s2 is) (h : s1.rest <:+ s.rest) : ItemsRead s s2 is :=
  { h' with reading := h'.reading.after h, named := fun x hx => (h'.named x hx).of_suffix h }

/-- An item without functions. -/
theorem single (wf : i.WellFormed Block.WellFormed) (none : i.functions = [])
    (named : ∀ x ∈ i.names, NamedIn s.rest x) (h : s1.rest <:+ s.rest) : ItemsRead s s1 [i] where
  wellFormed := ⟨wf, trivial⟩
  reading := by
    simp only [functionsOf, none, List.append_nil]
    exact .skip h
  named := by rwa [namesOf, namesOf, List.append_nil]

theorem function {f : FunctionItem Term} (named : NamedIn s.rest ⟨.function, f.name⟩)
    (hn : ∀ n ∈ f.named, OptionalWellFormed n.default) (hb : BlockRead s1 s2 f.body)
    (h : s1.rest <:+ s.rest) : ItemsRead s s2 [.function f] where
  wellFormed := ⟨⟨hb.wellFormed, hn⟩, trivial⟩
  reading := by
    have := hb.reading.after h
    simpa only [functionsOf, Item.functions, collectBodies, List.append_nil, List.flatMap_cons,
      List.flatMap_nil] using this
  named := List.forall_mem_singleton.mpr named

theorem submodule {name : String} {isPub isExtend : Bool} {span : Span}
    (named : NamedIn s.rest ⟨.submodule, name⟩) (h : ItemsRead s1 s2 is) (h1 : s1.rest <:+ s.rest)
    (h2 : s3.rest <:+ s2.rest) : ItemsRead s s3 [.submodule name is isPub isExtend span] where
  wellFormed := ⟨h.wellFormed, trivial⟩
  reading := by
    simp only [functionsOf, Item.functions, List.append_nil]
    exact (h.reading.after h1).before h2
  named := by
    rw [namesOf, namesOf, List.append_nil]
    exact List.forall_mem_cons.mpr ⟨named, (h.after h1).named⟩

end ItemsRead

namespace Tree

variable (isPub : Bool) (s : Cursor)

theorem ensures_function : Ensures (function isPub s) fun r => ItemsRead s r.rest [r.value] := by
  refine ensures_bind s.ensures_take fun ⟨_, s1, h1⟩ hk => ?_
  refine ensures_bind (s1.ensures_expectFor _ _) fun ⟨name, s2, h2⟩ hn => ?_
  dsimp only
  split
  next => rintro _ ⟨⟩
  next plain =>
    refine ensures_bind (s2.ensures_expectFor _ _) fun ⟨_, s3, h3⟩ ho => ?_
    refine ensures_bind (ensures_parameters [] s3.skipStops.1) fun ⟨(params, named), s5, h5⟩ hp => ?_
    refine ensures_bind (s5.ensures_expectFor _ _) fun ⟨_, s6, h6⟩ hc => ?_
    refine ensures_bind (ensures_resultType s6) fun ⟨result, s7, h7⟩ hr => ?_
    refine ensures_bind (ensures_block s7) fun ⟨body, s8, h8⟩ hb => ?_
    have header := ho.1.trans (hn.1.trans hk.1)
    have parameters := hc.1.trans (hp.2.trans (s3.skipStops_suffix.trans header))
    have plain := Bool.eq_false_iff.mpr plain
    have named := NamedIn.of_token .function (hk.1.subset hn.2.1) hn.2.2 fun _ => plain
    exact ensures_pure (.function named hp.1 hb (hr.trans parameters))

theorem ensures_imports : Ensures (imports s) fun r => ItemsRead s r.rest [r.value] := by
  refine ensures_bind s.ensures_take fun ⟨_, s1, h1⟩ hk => ?_
  refine ensures_bind (s1.ensures_expectFor _ _) fun ⟨head, s2, h2⟩ hh => ?_
  have suffix := hh.1.trans hk.1
  dsimp only
  split
  next =>
    refine ensures_bind s2.ensures_take fun ⟨_, s3, h3⟩ hd => ?_
    refine ensures_bind s3.ensures_take fun ⟨_, s4, h4⟩ ho => ?_
    refine ensures_bind (ensures_importPaths _ [] s4.skipStops.1) fun ⟨paths, s6, h6⟩ hp => ?_
    refine ensures_bind s6.ensures_take fun ⟨_, s7, h7⟩ hc => ?_
    have list := hp.trans (s4.skipStops_suffix.trans (ho.1.trans hd.1))
    exact ensures_pure (.single trivial rfl (List.forall_mem_nil _) (hc.1.trans (list.trans suffix)))
  next => exact ensures_pure (.single trivial rfl (List.forall_mem_nil _) suffix)

theorem ensures_global : Ensures (global isPub s) fun r => ItemsRead s r.rest [r.value] := by
  refine ensures_bind s.ensures_take fun ⟨_, s1, h1⟩ hk => ?_
  refine ensures_bind (s1.ensures_expectFor _ _) fun ⟨name, s2, h2⟩ hn => ?_
  refine ensures_bind (ensures_globalType s2) fun ⟨ty, s3, h3⟩ ht => ?_
  refine ensures_bind (ensures_wholeExpression s3) fun ⟨init, s4, h4⟩ hi => ?_
  have header := ht.trans (hn.1.trans hk.1)
  have named := NamedIn.of_token .global (hk.1.subset hn.2.1) hn.2.2 (by simp)
  exact ensures_pure (.single hi.wellFormed rfl (List.forall_mem_singleton.mpr named)
    (hi.reading.suffix.trans header))

theorem ensures_struct : Ensures (struct isPub s) fun r => ItemsRead s r.rest [r.value] := by
  refine ensures_bind s.ensures_take fun ⟨_, s1, h1⟩ hk => ?_
  refine ensures_bind (s1.ensures_expectFor _ _) fun ⟨name, s2, h2⟩ hn => ?_
  refine ensures_bind (s2.ensures_expectFor _ _) fun ⟨_, s3, h3⟩ ho => ?_
  refine ensures_bind (ensures_structFields [] s3) fun ⟨members, s4, h4⟩ hm => ?_
  refine ensures_bind s4.ensures_take fun ⟨_, s5, h5⟩ hc => ?_
  have header := ho.1.trans (hn.1.trans hk.1)
  have named := NamedIn.of_token .struct (hk.1.subset hn.2.1) hn.2.2 (by simp)
  exact ensures_pure (.single trivial rfl (List.forall_mem_singleton.mpr named)
    (hc.1.trans (hm.trans header)))

mutual

theorem ensures_item (s : Cursor) : Ensures (item s) fun r => ItemsRead s r.rest [r.value] := by
  unfold item
  refine ensures_bind (ensures_pubKeyword s) fun ⟨isPub, s1, h1⟩ hp => ?_
  dsimp only
  split
  next =>
    exact ensures_bind (ensures_function isPub s1) fun r h => ensures_pure (h.after hp)
  next => exact ensures_bind (ensures_imports s1) fun r h => ensures_pure (h.after hp)
  iterate 2
    next => exact ensures_bind (ensures_global isPub s1) fun r h => ensures_pure (h.after hp)
  next => exact ensures_bind (ensures_struct isPub s1) fun r h => ensures_pure (h.after hp)
  iterate 2
    next =>
      refine ensures_bind s1.ensures_take fun ⟨_, s2, h2⟩ hk => ?_
      refine ensures_bind (s2.ensures_expectFor _ _) fun ⟨name, s3, h3⟩ hn => ?_
      have less3 : s3.rest.length < s2.rest.length := h3
      dsimp only
      split
      next => rintro _ ⟨⟩
      next plain =>
        refine ensures_bind (s3.ensures_expectFor _ _) fun ⟨_, s4, h4⟩ ho => ?_
        refine ensures_bind (ensures_moduleItems s4) fun ⟨items, s5, h5⟩ hi => ?_
        refine ensures_bind s5.ensures_take fun ⟨_, s6, h6⟩ hc => ?_
        have keyword := hk.1.trans hp
        have plain := Bool.eq_false_iff.mpr plain
        have named := NamedIn.of_token .submodule (keyword.subset hn.2.1) hn.2.2 fun _ => plain
        exact ensures_pure (.submodule named hi (ho.1.trans (hn.1.trans keyword)) hc.1)
  next => rintro _ ⟨⟩
termination_by s.rest.length * 2

theorem ensures_moduleItems (s : Cursor) :
    Ensures (moduleItems s) fun r => ItemsRead s r.rest r.value := by
  unfold moduleItems
  have h1 := s.skipStops.2
  split
  next => exact ensures_pure (.nil s.skipStops_suffix)
  next => rintro _ ⟨⟩
  next =>
    refine ensures_bind (ensures_item s.skipStops.1) fun ⟨first, s2, h2⟩ hf => ?_
    refine ensures_bind (ensures_moduleItems s2) fun ⟨others, s3, h3⟩ ho => ?_
    exact ensures_pure ((hf.cons ho).after s.skipStops_suffix)
termination_by s.rest.length * 2 + 1

end

theorem ensures_fileItems (s : Cursor) :
    Ensures (fileItems s) fun items => ∃ s', ItemsRead s s' items := by
  unfold fileItems
  have h1 := s.skipStops.2
  split
  next => exact ensures_pure ⟨s, .nil (List.suffix_refl _)⟩
  next =>
    refine ensures_bind (ensures_item s.skipStops.1) fun ⟨first, s2, h2⟩ hf => ?_
    refine ensures_bind (ensures_fileItems s2) fun others ⟨s', ho⟩ => ?_
    exact ensures_pure ⟨s', (hf.cons ho).after s.skipStops_suffix⟩
termination_by s.rest.length

end Tree

/-! ## Files -/

/-- A file that is read is well-formed, its names are written in it, its blocks have different
numbers, and the number it leaves to the passes is above them. -/
structure FileRead (l : Lexed) (t : FileTree Term) : Prop where
  wellFormed : t.WellFormed
  names_mem : ∀ x ∈ collectBodies .names t.functions,
    ∃ k ∈ l.tokens, k.kind = .identifier ∧ x = .variable k.text false
  ids_nodup : (collectBodies .ids t.functions).Nodup
  ids_lt : ∀ i ∈ collectBodies .ids t.functions, i < t.nextBlock

theorem ensures_parse (l : Lexed) (name : String) : Ensures (parse l name) (FileRead l) := by
  refine ensures_bind (Tree.ensures_fileItems _) fun items ⟨s', wf, reading, _⟩ => ?_
  refine ensures_pure ⟨wf, reading.names_mem, ?_, fun i hi => ?_⟩
  · exact reading.ids_falling.imp fun h => Nat.ne_of_gt h
  · exact Nat.lt_succ_of_le (reading.ids_between i hi).2

theorem ensures_parse_named (l : Lexed) (name : String) :
    Ensures (parse l name) fun t => t.name = name ∧ ∀ x ∈ t.itemNames, NamedIn l.tokens x := by
  refine ensures_bind (Tree.ensures_fileItems _) fun items ⟨_, read⟩ => ?_
  exact ensures_pure ⟨rfl, read.named⟩

/-- Whether a text can be read as a file that passes a test. -/
def readsAs (source : String) (test : FileTree Term → Bool) : Bool :=
  resultAs (scan source "m") fun l => resultAs (parse l "m") test

theorem exists_of_readsAs {source : String} {test : FileTree Term → Bool}
    (h : readsAs source test = true) :
    ∃ l t, scan source "m" = .ok l ∧ parse l "m" = .ok t ∧ test t = true := by
  obtain ⟨l, scanned, h⟩ := exists_of_resultAs h
  obtain ⟨t, parsed, h⟩ := exists_of_resultAs h
  exact ⟨l, t, scanned, parsed, h⟩

end EbLang
