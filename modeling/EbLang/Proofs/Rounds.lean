import EbLang.Proofs.Reading

/-!
# Progress of the parser

Whatever is read successfully leaves a proper suffix of the tokens: at least one token was read, and
the end of the file was not passed.  Each round of a loop reads a token of its own, so a loop makes at
most as many rounds as there are tokens, and reading a file comes to an end.
-/

namespace EbLang.Tree

/-! ## Rounds of loops -/

theorem ensures_arguments_count (before : Arguments) (s : Cursor) :
    Ensures (arguments before s) fun r =>
      r.value.count + r.rest.rest.length ≤ before.count + s.rest.length := by
  unfold arguments
  split
  next => exact ensures_pure (Nat.le_refl _)
  split
  next => rintro _ ⟨⟩
  refine ensures_then ?_
  rintro ⟨name, s1, h1⟩
  refine ensures_then ?_
  rintro ⟨terms, s2, h2⟩
  have h3 := s2.skipStops.2
  have one := before.add_count name terms
  dsimp only at h2 ⊢
  split
  next =>
    refine ensures_then ?_
    rintro ⟨_, s4, h4⟩
    have h5 := s4.skipStops.2
    refine ensures_bind (ensures_arguments_count _ _) ?_
    rintro ⟨args, s6, h6⟩ fewer
    exact ensures_pure (by dsimp only at fewer ⊢; omega)
  next => exact ensures_pure (by dsimp only; omega)
  next => rintro _ ⟨⟩
termination_by s.rest.length

theorem ensures_elseBranches_length (s : Cursor) :
    Ensures (elseBranches s) fun r =>
      r.value.1.length + r.value.2.toList.length + r.rest.rest.length ≤ s.rest.length := by
  unfold elseBranches
  have h1 := s.skipStops.2
  split
  next =>
    refine ensures_then ?_
    rintro ⟨_, s2, h2⟩
    dsimp only
    split
    next =>
      refine ensures_then ?_
      rintro ⟨_, s3, h3⟩
      dsimp only
      refine ensures_then ?_
      rintro ⟨condition, s4, h4⟩
      dsimp only
      refine ensures_then ?_
      rintro ⟨body, s5, h5⟩
      refine ensures_bind (ensures_elseBranches_length _) ?_
      rintro ⟨⟨arms, otherwise⟩, s6, h6⟩ fewer
      exact ensures_pure (by simp at fewer ⊢; omega)
    next =>
      refine ensures_then ?_
      rintro ⟨body, s3, h3⟩
      exact ensures_pure (by simp; omega)
  next => exact ensures_pure (by simp)
termination_by s.rest.length

theorem ensures_statements_length (s : Cursor) :
    Ensures (statements s) fun r => r.value.length + r.rest.rest.length ≤ s.rest.length := by
  unfold statements
  have h1 := s.skipStops.2
  split
  next => exact ensures_pure (by simpa using h1)
  next => rintro _ ⟨⟩
  next =>
    refine ensures_then ?_
    rintro ⟨first, s2, h2⟩
    dsimp only
    split
    next =>
      refine ensures_bind (ensures_statements_length _) ?_
      rintro ⟨others, s3, h3⟩ fewer
      exact ensures_pure (by simp at fewer ⊢; omega)
    next => rintro _ ⟨⟩
termination_by s.rest.length

theorem ensures_namedFields_length (before : List NamedField) (s : Cursor) :
    Ensures (namedFields before s) fun r =>
      r.value.length + r.rest.rest.length ≤ before.length + s.rest.length := by
  unfold namedFields
  split
  next => exact ensures_pure (Nat.le_refl _)
  refine ensures_then ?_
  rintro ⟨f, s1, h1⟩
  refine ensures_then ?_
  rintro ⟨value, s2, h2⟩
  have h3 := s2.skipStops.2
  dsimp only at h2 ⊢
  split
  next =>
    refine ensures_then ?_
    rintro ⟨_, s4, h4⟩
    have h5 := s4.skipStops.2
    refine ensures_bind (ensures_namedFields_length _ _) ?_
    rintro ⟨fields, s6, h6⟩ fewer
    exact ensures_pure (by simp at fewer ⊢; omega)
  next => exact ensures_pure (by simp; omega)
  next => rintro _ ⟨⟩
termination_by s.rest.length

theorem ensures_parameters_length (before : List Field) (s : Cursor) :
    Ensures (parameters before s) fun r =>
      r.value.1.length + r.value.2.length + r.rest.rest.length ≤ before.length + s.rest.length := by
  unfold parameters
  split
  next => exact ensures_pure (Nat.le_refl _)
  next =>
    have group : Ensures (namedGroup s) fun r => r.value.length + r.rest.rest.length ≤ s.rest.length := by
      refine ensures_then ?_
      rintro ⟨_, s1, h1⟩
      have h2 := s1.skipStops.2
      dsimp only
      refine ensures_bind (ensures_namedFields_length _ _) ?_
      rintro ⟨named, s3, h3⟩ fewer
      refine ensures_then ?_
      rintro ⟨_, s4, h4⟩
      exact ensures_pure (by simp at fewer h4 ⊢; omega)
    refine ensures_bind group ?_
    rintro ⟨named, s1, h1⟩ fewer
    have h2 := s1.skipStops.2
    dsimp only at fewer ⊢
    exact ensures_pure (by dsimp only; omega)
  refine ensures_then ?_
  rintro ⟨f, s1, h1⟩
  have h2 := s1.skipStops.2
  dsimp only
  split
  next =>
    refine ensures_then ?_
    rintro ⟨_, s3, h3⟩
    have h4 := s3.skipStops.2
    refine ensures_bind (ensures_parameters_length _ _) ?_
    rintro ⟨⟨fields, named⟩, s5, h5⟩ fewer
    exact ensures_pure (by simp at fewer ⊢; omega)
  next => exact ensures_pure (by simp; omega)
  next => rintro _ ⟨⟩
termination_by s.rest.length

theorem ensures_importPaths_length (base : List String) (before : List (List String)) (s : Cursor) :
    Ensures (importPaths base before s) fun r =>
      r.value.length + r.rest.rest.length ≤ before.length + s.rest.length := by
  unfold importPaths
  split
  next => exact ensures_pure (Nat.le_refl _)
  refine ensures_then ?_
  rintro ⟨tail, s1, h1⟩
  have h2 := s1.skipStops.2
  dsimp only
  split
  next =>
    refine ensures_then ?_
    rintro ⟨_, s3, h3⟩
    have h4 := s3.skipStops.2
    refine ensures_bind (ensures_importPaths_length _ _ _) ?_
    rintro ⟨paths, s5, h5⟩ fewer
    exact ensures_pure (by simp at fewer ⊢; omega)
  next => exact ensures_pure (by simp; omega)
  next => rintro _ ⟨⟩
termination_by s.rest.length

theorem ensures_structFields_length (before : List Field) (s : Cursor) :
    Ensures (structFields before s) fun r =>
      r.value.length + r.rest.rest.length ≤ before.length + s.rest.length := by
  unfold structFields
  have h1 := s.skipStops.2
  split
  next => exact ensures_pure (Nat.add_le_add_left h1 _)
  refine ensures_then ?_
  rintro ⟨f, s2, h2⟩
  dsimp only
  split
  next =>
    refine ensures_then ?_
    rintro ⟨_, s3, h3⟩
    refine ensures_bind (ensures_structFields_length _ _) ?_
    rintro ⟨fields, s4, h4⟩ fewer
    exact ensures_pure (by simp at fewer ⊢; omega)
  split
  next =>
    refine ensures_bind (ensures_structFields_length _ _) ?_
    rintro ⟨fields, s3, h3⟩ fewer
    exact ensures_pure (by simp at fewer ⊢; omega)
  next => rintro _ ⟨⟩
termination_by s.rest.length

theorem ensures_moduleItems_length (s : Cursor) :
    Ensures (moduleItems s) fun r => r.value.length + r.rest.rest.length ≤ s.rest.length := by
  unfold moduleItems
  have h1 := s.skipStops.2
  split
  next => exact ensures_pure (by simpa using h1)
  next => rintro _ ⟨⟩
  next =>
    refine ensures_then ?_
    rintro ⟨first, s2, h2⟩
    refine ensures_bind (ensures_moduleItems_length _) ?_
    rintro ⟨others, s3, h3⟩ fewer
    exact ensures_pure (by simp at fewer h3 ⊢; omega)
termination_by s.rest.length

/-! ## Files -/

/-- Reads the items of a file in at most so many rounds, none if more are needed. -/
def itemsWithin : Nat → Cursor → Option (Except Error (List (Item Term)))
  | 0, _ => none
  | rounds + 1, s =>
    if s.skipStops.1.kind = .eof then some (.ok [])
    else
      match item s.skipStops.1 with
      | .error e => some (.error e)
      | .ok r => (itemsWithin rounds r.rest).map (Except.map (r.value :: ·))

/-- One round for each token, and one to find the end. -/
theorem itemsWithin_eq {rounds : Nat} {s : Cursor} (enough : s.rest.length < rounds) :
    itemsWithin rounds s = some (fileItems s) := by
  induction rounds generalizing s with
  | zero => omega
  | succ rounds ih =>
    have h1 := s.skipStops.2
    rw [itemsWithin, fileItems]
    dsimp only
    split
    next => rfl
    next =>
      cases item s.skipStops.1 with
      | error e => rfl
      | ok r =>
        have := r.shorter
        dsimp only [bind, Except.bind]
        rw [ih (by omega), Option.map_some]
        cases fileItems r.rest <;> rfl

/-- The tokens left are those behind some that were read. -/
def Advances (s s' : Cursor) : Prop := ∃ read, read ≠ [] ∧ s.rest = read ++ s'.rest

theorem advances_of_suffix {s s' : Cursor} (suffix : s'.rest <:+ s.rest)
    (shorter : s'.rest.length < s.rest.length) : Advances s s' := by
  obtain ⟨read, eq⟩ := suffix
  refine ⟨read, ?_, eq.symm⟩
  rintro rfl
  rw [← eq, List.nil_append] at shorter
  exact Nat.lt_irrefl _ shorter

/-- No loop makes more rounds than it reads tokens. -/
structure BoundedLoops : Prop where
  items : ∀ s, Ensures (moduleItems s) fun r => r.value.length + r.rest.size ≤ s.size
  statements : ∀ s, Ensures (statements s) fun r => r.value.length + r.rest.size ≤ s.size
  arguments : ∀ before s, Ensures (arguments before s) fun r =>
    r.value.count + r.rest.size ≤ before.count + s.size
  parameters : ∀ before s, Ensures (parameters before s) fun r =>
    r.value.1.length + r.value.2.length + r.rest.size ≤ before.length + s.size
  members : ∀ before s, Ensures (structFields before s) fun r =>
    r.value.length + r.rest.size ≤ before.length + s.size
  imports : ∀ base before s, Ensures (importPaths base before s) fun r =>
    r.value.length + r.rest.size ≤ before.length + s.size
  branches : ∀ s, Ensures (elseBranches s) fun r =>
    r.value.1.length + r.value.2.toList.length + r.rest.size ≤ s.size

/-- Items, statements, blocks, operands (an `if` is one) and expressions take at least a token, loops
make at most as many rounds as they take tokens, and so a file is read in at most one round for each
of its tokens and one for its end. -/
theorem parse_progress (l : Lexed) (name : String) :
    (∀ s, Ensures (item s) (Advances s ·.rest) ∧ Ensures (statement s) (Advances s ·.rest) ∧
      Ensures (block s) (Advances s ·.rest) ∧ Ensures (operand s) (Advances s ·.rest) ∧
      ∀ power, Ensures (expression power s) (Advances s ·.rest)) ∧
    BoundedLoops ∧
    ∃ outcome, itemsWithin (l.tokens.length + 1) (.ofLexed l) = some outcome ∧
      parse l name = outcome.map fun items => ⟨name, items, l.tokens.length + 1⟩ := by
  refine ⟨fun s => ⟨?_, ?_, ?_, ?_, fun power => ?_⟩, ?_, fileItems (.ofLexed l), ?_, ?_⟩
  · exact ensures_imp (ensures_item s) fun r h => advances_of_suffix h.reading.suffix r.shorter
  · exact ensures_imp (ensures_statement s) fun r h => advances_of_suffix h.reading.suffix r.shorter
  · exact ensures_imp (ensures_block s) fun r h => advances_of_suffix h.reading.suffix r.shorter
  · exact ensures_imp (ensures_operand s) fun r h => advances_of_suffix h.reading.suffix r.shorter
  · exact ensures_imp (ensures_expression power s) fun r h =>
      advances_of_suffix h.reading.suffix r.shorter
  · exact ⟨ensures_moduleItems_length, ensures_statements_length, ensures_arguments_count,
      ensures_parameters_length, ensures_structFields_length, ensures_importPaths_length,
      ensures_elseBranches_length⟩
  · exact itemsWithin_eq (Nat.lt_succ_self _)
  · rw [parse]
    cases fileItems (.ofLexed l) <;> rfl

end EbLang.Tree
