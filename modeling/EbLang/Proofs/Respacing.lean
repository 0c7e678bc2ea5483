import EbLang.Analysis
import EbLang.Proofs.Segments

/-!
# Re-spacing a text

The tokens of a text, written with one space between each two of them, are read as the same tokens.
A token does not depend on what follows it: the length of a number, of a name or of a symbol stays the
same if the text is cut anywhere behind it and goes on with a space, and the rules that come first do
not begin to apply.  Rules look up to three characters ahead, but no rule looks for a space.
-/

namespace EbLang

variable {c : Char} {cs ds rest : List Char} {n N : Nat} {p : Char → Bool} {f g : List Char → Nat}

/-! ## Cut texts -/

/-- Nothing follows, or a space. -/
def AtSpace (rest : List Char) : Prop := ∀ c ∈ rest.head?, c = ' '

theorem AtSpace.cases (space : AtSpace ds) : ds = [] ∨ ∃ rest, ds = ' ' :: rest := by
  cases ds with
  | nil => exact .inl rfl
  | cons d ds => exact .inr ⟨ds, by rw [space d rfl]⟩

/-- A text is another one up to some character, and then ends or goes on with a space. -/
inductive CutAt : Nat → List Char → List Char → Prop
  | stop {N : Nat} {cs ds : List Char} (space : AtSpace ds) (here : N = 0 ∨ cs = []) : CutAt N cs ds
  | go {N : Nat} {cs ds : List Char} (c : Char) (h : CutAt N cs ds) :
    CutAt (N + 1) (c :: cs) (c :: ds)

theorem cutAt_append (space : AtSpace rest) : ∀ (N : Nat) (cs : List Char),
    CutAt N cs (cs.take N ++ rest)
  | 0, _ => .stop space (.inl rfl)
  | _ + 1, [] => .stop space (.inr rfl)
  | N + 1, c :: cs => .go c (cutAt_append space N cs)

/-- What stands at the start of a text that is cut stood there before, or is a space. -/
theorem CutAt.any_of_any (h : CutAt N cs ds) (other : p ' ' = false) (there : ds.head?.any p = true) :
    cs.head?.any p = true := by
  cases h with
  | stop space _ =>
    rcases space.cases with rfl | ⟨rest, rfl⟩
    · cases there
    · exact absurd there (by simp [other])
  | go c _ => exact there

theorem CutAt.drop (h : CutAt N cs ds) (behind : n ≤ N) (within : n ≤ cs.length) :
    CutAt (N - n) (cs.drop n) (ds.drop n) := by
  induction n generalizing N cs ds with
  | zero => exact h
  | succ n ih =>
    cases h with
    | stop _ here =>
      rcases here with rfl | rfl
      · omega
      · simp at within
    | go c h =>
      rw [Nat.add_sub_add_right]
      exact ih h (by omega) (by simpa using within)

/-! ## Lengths that no cut behind them changes -/

structure CutProof (length : List Char → Nat) : Prop where
  le : ∀ cs, length cs ≤ cs.length
  eq : ∀ {N cs ds}, CutAt N cs ds → length cs ≤ N → length ds = length cs

/-- A length is cut-proof if it is zero at a space and if a character in front does not change that. -/
theorem cutProof_of {length : List Char → Nat} (le : ∀ cs, length cs ≤ cs.length)
    (zero : ∀ rest, length (' ' :: rest) = 0)
    (front : ∀ {N c cs ds}, CutAt N cs ds → length (c :: cs) ≤ N + 1 →
      (length cs ≤ N → length ds = length cs) → length (c :: ds) = length (c :: cs)) :
    CutProof length := by
  refine ⟨le, fun {N cs ds} h behind => ?_⟩
  have empty : length [] = 0 := Nat.le_zero.mp (le [])
  induction h with
  | @stop N cs ds space here =>
    have none : length ds = 0 := by
      rcases space.cases with rfl | ⟨rest, rfl⟩
      · exact empty
      · exact zero rest
    rw [none]
    rcases here with rfl | rfl
    · exact (Nat.le_zero.mp behind).symm
    · exact empty.symm
  | go c h ih => exact front h behind ih

theorem cutProof_takeWhile (p : Char → Bool) (other : p ' ' = false) :
    CutProof fun cs => (cs.takeWhile p).length := by
  refine cutProof_of (fun cs => (List.takeWhile_prefix p).length_le) (fun rest => ?_)
    fun {N c cs ds} _ behind ih => ?_
  · rw [List.takeWhile_cons_of_neg (by rw [other]; decide), List.length_nil]
  · by_cases more : p c = true
    · simp only [List.takeWhile_cons_of_pos more, List.length_cons] at behind ⊢
      rw [ih (Nat.le_of_succ_le_succ behind)]
    · simp only [List.takeWhile_cons_of_neg more]

/-- A character, and what follows it; if `need` is set, only if something does. -/
def lead (need : Bool) (p : Char → Bool) (length : List Char → Nat) : List Char → Nat
  | [] => 0
  | c :: cs => if p c ∧ (need → length cs ≠ 0) then length cs + 1 else 0

theorem CutProof.lead (need : Bool) (other : p ' ' = false) (hf : CutProof f) :
    CutProof (lead need p f) := by
  refine cutProof_of (fun cs => ?_) (fun rest => if_neg (by simp [other]))
    fun {N c cs ds} h behind _ => ?_
  · cases cs with
    | nil => exact Nat.le_refl 0
    | cons c cs =>
      have := hf.le cs
      simp only [EbLang.lead, List.length_cons]
      split <;> omega
  · simp only [EbLang.lead] at behind ⊢
    by_cases first : p c = true
    · rw [hf.eq h (by split at behind <;> grind)]
    · rw [if_neg fun all => first all.1, if_neg fun all => first all.1]

theorem CutProof.orElse (hf : CutProof f) (hg : CutProof g) :
    CutProof fun cs => if f cs = 0 then g cs else f cs where
  le cs := by
    have := hf.le cs
    have := hg.le cs
    split <;> assumption
  eq h behind := by
    split at behind
    next none => rw [hf.eq h (by omega), if_pos none, if_pos none, hg.eq h behind]
    next some => rw [hf.eq h behind, if_neg some, if_neg some]

theorem CutProof.andThen (hf : CutProof f) (hg : CutProof g) :
    CutProof fun cs => f cs + g (cs.drop (f cs)) where
  le cs := by
    have first := hf.le cs
    have second := hg.le (cs.drop (f cs))
    rw [List.length_drop] at second
    omega
  eq h behind := by
    rw [hf.eq h (by omega), hg.eq (h.drop (by omega) (hf.le _)) (by omega)]

/-- What follows something, if it is there. -/
theorem CutProof.ifSome (hf : CutProof f) (hg : CutProof g) :
    CutProof fun cs => if f cs = 0 then 0 else f cs + g (cs.drop (f cs)) where
  le cs := by
    have := (hf.andThen hg).le cs
    split
    · exact Nat.zero_le _
    · exact this
  eq h behind := by
    split at behind
    next none => rw [hf.eq h (by omega), if_pos none, if_pos none]
    next => rw [hf.eq h (by omega), hg.eq (h.drop (by omega) (hf.le _)) (by omega)]

/-! ## The lengths of tokens -/

def wordLength (p : Char → Bool) (cs : List Char) : Nat := (cs.takeWhile p).length

/-- How many characters a digit has with the digits and underscores after it. -/
def digitsLength : List Char → Nat := lead false Char.isDigit (wordLength isDigitOrGap)

theorem digitsLength_eq (cs : List Char) :
    digitsLength cs = if cs.head?.any Char.isDigit then wordLength isDigitOrGap cs else 0 := by
  cases cs with
  | nil => rfl
  | cons c cs =>
    by_cases digit : c.isDigit = true
    · have first : isDigitOrGap c = true := by rw [isDigitOrGap, digit, Bool.true_or]
      simp [digitsLength, lead, wordLength, digit, first]
    · simp [digitsLength, lead, digit]

theorem fractionLength_eq : fractionLength = lead true (· == '.') digitsLength := by
  funext cs
  unfold fractionLength
  split
  next c cs =>
    by_cases digit : c.isDigit = true
    · simp [lead, digitsLength, wordLength, digit]
      omega
    · simp [lead, digitsLength, digit]
  next other =>
    cases cs with
    | nil => rfl
    | cons c cs =>
      cases cs with
      | nil => simp [lead, digitsLength]
      | cons d cs =>
        have point : ¬ c = '.' := by
          rintro rfl
          exact other d cs rfl
        simp [lead, point]

theorem mantissaLength_eq :
    mantissaLength = fun cs => digitsLength cs + fractionLength (cs.drop (digitsLength cs)) := by
  funext cs
  rw [mantissaLength, digitsLength_eq]
  split
  next => rfl
  next => rw [List.drop_zero, Nat.zero_add]

/-- How many characters a sign has with the digits after it. -/
def signedLength : List Char → Nat :=
  lead true (fun c => c == '+' || c == '-') (wordLength Char.isDigit)

theorem exponentLength_eq : exponentLength = lead true (fun c => c == 'e' || c == 'E') fun cs =>
    if signedLength cs = 0 then wordLength Char.isDigit cs else signedLength cs := by
  funext cs
  cases cs with
  | nil => rfl
  | cons c cs =>
    cases cs with
    | nil => simp [exponentLength, lead, signedLength, wordLength]
    | cons d cs =>
      have head : ((d :: cs).head? == some '+' || (d :: cs).head? == some '-') =
          (d == '+' || d == '-') := rfl
      simp only [exponentLength, head, lead, signedLength]
      by_cases sign : (d == '+' || d == '-') = true
      · have noDigit : ¬ d.isDigit = true := by
          rcases Bool.or_eq_true_iff.mp sign with plus | minus
          · rw [beq_iff_eq.mp plus]; decide
          · rw [beq_iff_eq.mp minus]; decide
        simp only [wordLength, sign, List.takeWhile_cons_of_neg noDigit, if_true, List.length_nil,
          List.drop_succ_cons, List.drop_zero]
        generalize (cs.takeWhile Char.isDigit).length = n
        grind
      · rw [Bool.not_eq_true] at sign
        simp only [wordLength, sign, Bool.false_eq_true, if_false, List.drop_zero]
        generalize ((d :: cs).takeWhile Char.isDigit).length = n
        grind

/-- How many characters a number with a base prefix has. -/
def basedLength : List Char → Nat :=
  lead true (· == '0') (lead false (fun c => (Number.base? c).isSome) (wordLength isWordChar))

/-- How many characters a number without one has. -/
def plainLength (cs : List Char) : Nat :=
  if mantissaLength cs = 0 then 0 else mantissaLength cs +
    (exponentLength (cs.drop (mantissaLength cs)) + wordLength isWordChar
      ((cs.drop (mantissaLength cs)).drop (exponentLength (cs.drop (mantissaLength cs)))))

theorem numberLength_eq :
    numberLength = fun cs => if basedLength cs = 0 then plainLength cs else basedLength cs := by
  funext cs
  unfold numberLength Number.splitBase?
  split
  next b body based =>
    split at based
    next c body' =>
      obtain ⟨b', known, eq⟩ := Option.map_eq_some_iff.mp based
      cases eq
      simp [basedLength, lead, known, wordLength]
      omega
    next => cases based
  next based =>
    have none : basedLength cs = 0 := by
      cases cs with
      | nil => rfl
      | cons c cs =>
        cases cs with
        | nil => simp [basedLength, lead]
        | cons d cs =>
          by_cases zero : c = '0'
          · subst zero
            have unknown : Number.base? d = none := by simpa using based
            simp [basedLength, lead, unknown]
          · simp [basedLength, lead, zero]
    rw [if_pos none]
    simp only [plainLength, List.drop_drop, Nat.add_assoc]
    rfl

theorem cutProof_numberLength : CutProof numberLength := by
  have digits (p : Char → Bool) (other : p ' ' = false) := cutProof_takeWhile p other
  have fraction : CutProof fractionLength := by
    rw [fractionLength_eq]
    exact ((digits isDigitOrGap (by decide)).lead false (by decide)).lead true (by decide)
  have mantissa : CutProof mantissaLength := by
    rw [mantissaLength_eq]
    exact ((digits isDigitOrGap (by decide)).lead false (by decide)).andThen fraction
  have exponent : CutProof exponentLength := by
    rw [exponentLength_eq]
    have signed := (digits Char.isDigit (by decide)).lead true
      (p := fun c => c == '+' || c == '-') (by decide)
    exact (signed.orElse (digits Char.isDigit (by decide))).lead true (by decide)
  have plain : CutProof plainLength := mantissa.ifSome (exponent.andThen (digits isWordChar (by decide)))
  rw [numberLength_eq]
  exact (((digits isWordChar (by decide)).lead false (by decide)).lead true (by decide)).orElse plain

theorem nameTailLength_le (cs : List Char) : nameTailLength cs ≤ cs.length := by
  fun_induction nameTailLength cs with
  | case1 => exact Nat.le_refl 0
  | case2 c cs _ ih => exact Nat.succ_le_succ ih
  | case3 c cs _ _ ih => exact Nat.succ_le_succ ih
  | case4 => exact Nat.zero_le _

theorem nameTailLength_pos (first : cs.head?.any isNameStart = true) : nameTailLength cs ≠ 0 := by
  cases cs with
  | nil => cases first
  | cons c cs =>
    have isName : isNameChar c = true := by
      rw [isNameChar, show isNameStart c = true from first, Bool.true_or]
    rw [nameTailLength, if_pos isName]
    exact Nat.succ_ne_zero _

theorem cutProof_nameTailLength : CutProof nameTailLength := by
  refine cutProof_of nameTailLength_le (fun rest => ?_) fun {N c cs ds} h behind ih => ?_
  · simp [nameTailLength, show isNameChar ' ' = false by decide]
  rw [nameTailLength] at behind
  rw [nameTailLength, nameTailLength]
  split
  next isName =>
    rw [if_pos isName] at behind
    rw [ih (Nat.le_of_succ_le_succ behind)]
  next isName =>
    rw [if_neg isName] at behind
    by_cases dot : (c == '.' && cs.head?.any isNameStart) = true
    · have isDot := Bool.and_eq_true_iff.mp dot
      have positive := nameTailLength_pos isDot.2
      rw [if_pos dot] at behind
      have start : ds.head?.any isNameStart = true := by
        cases h with
        | stop _ here =>
          rcases here with rfl | rfl
          · omega
          · exact absurd rfl positive
        | go d _ => exact isDot.2
      rw [if_pos dot, if_pos (Bool.and_eq_true_iff.mpr ⟨isDot.1, start⟩),
        ih (Nat.le_of_succ_le_succ behind)]
    · rw [if_neg dot, if_neg fun dot' => dot ?_]
      rw [Bool.and_eq_true] at dot' ⊢
      exact ⟨dot'.1, h.any_of_any (by decide) dot'.2⟩

/-! ## Segments -/

theorem ofPair?_space (c : Char) : TokenKind.ofPair? c ' ' = none := by
  unfold TokenKind.ofPair?
  split
  case h_17 => rfl
  all_goals contradiction

theorem head?_beq (cs : List Char) (b : Char) : (cs.head? == some b) = cs.head?.any (· == b) := by
  cases cs <;> rfl

theorem take_cut (within : n ≤ cs.length) : (cs.take n ++ rest).take n = cs.take n :=
  List.take_left' (List.length_take_of_le within)

section Cut

variable {seg : Segment} (space : AtSpace rest)

include space

theorem symbolSegment_cut (h : symbolSegment c cs = .ok seg) :
    seg.more ≤ cs.length ∧ symbolSegment c (cs.take seg.more ++ rest) = .ok seg := by
  unfold symbolSegment at h
  split at h
  next kind pair =>
    cases h
    obtain ⟨b, first, symbol⟩ := Option.bind_eq_some_iff.mp pair
    obtain ⟨cs, rfl⟩ := List.head?_eq_some_iff.mp first
    simp [symbolSegment, symbol]
  next =>
    split at h
    next kind single =>
      cases h
      have alone : rest.head?.bind (TokenKind.ofPair? c) = none := by
        rcases space.cases with rfl | ⟨rest, rfl⟩
        · rfl
        · exact ofPair?_space c
      simp [symbolSegment, alone, single]
    next => cases h

theorem tokenSegment_cut (h : tokenSegment c cs = .ok seg) :
    seg.more ≤ cs.length ∧ tokenSegment c (cs.take seg.more ++ rest) = .ok seg := by
  have cut := CutAt.go c (cutAt_append space seg.more cs)
  unfold tokenSegment at h ⊢
  dsimp only at h ⊢
  split at h
  next isNumber =>
    obtain ⟨m, length⟩ := Nat.exists_eq_succ_of_ne_zero isNumber
    have within := cutProof_numberLength.le (c :: cs)
    rw [length, List.length_cons] at within
    have more : seg.more = m := by
      rw [length] at h
      cases read : numberLexeme ((c :: cs).take (m + 1)) with
      | error => rw [read] at h; cases h
      | ok lexeme => rw [read] at h; cases h; rfl
    rw [more] at cut ⊢
    refine ⟨Nat.le_of_succ_le_succ within, ?_⟩
    rw [cutProof_numberLength.eq cut (by omega), length, if_pos (Nat.succ_ne_zero m),
      List.take_succ_cons, take_cut (Nat.le_of_succ_le_succ within)]
    rwa [length, List.take_succ_cons] at h
  next noNumber =>
    rw [cutProof_numberLength.eq cut (by omega), if_neg (by simpa using noNumber)]
    split at h
    next start =>
      cases h
      refine ⟨nameTailLength_le cs, ?_⟩
      rw [if_pos start, cutProof_nameTailLength.eq (cutAt_append space _ cs) (Nat.le_refl _),
        take_cut (nameTailLength_le cs)]
    next other =>
      rw [if_neg other]
      exact symbolSegment_cut space h

/-- A token is read again if a space follows it. -/
theorem segment_cut {kind : TokenKind} {number : Option Number} (h : segment c cs = .ok seg)
    (token : seg.lexeme = .token kind number) :
    isGap c = false ∧ seg.more ≤ cs.length ∧
      segment c (cs.take seg.more ++ rest) = .ok seg := by
  have cut := cutAt_append space seg.more cs
  have pair (a b : Char) (none : (' ' == b) = false) (absent : ¬ (c = a && cs.head? == some b) = true) :
      ¬ (c = a && (cs.take seg.more ++ rest).head? == some b) = true := by
    rw [head?_beq, Bool.and_eq_true] at absent ⊢
    exact fun there => absent ⟨there.1, cut.any_of_any none there.2⟩
  unfold segment at h
  split at h
  next => cases h; cases token
  next gap =>
    split at h
    next => cases h; cases token
    next line =>
      split at h
      next =>
        split at h
        next => cases h; cases token
        next => cases h
      next block =>
        split at h
        next =>
          have directive : ∃ kind value, seg.lexeme = .directive kind value := by
            refine ensures_bind (Q := fun seg => ∃ kind value, seg.lexeme = .directive kind value)
              (ensures_directiveLexeme _ _) ?_ seg h
            rintro _ ⟨kind, value, eq, -⟩
            exact ensures_pure ⟨kind, value, eq⟩
          obtain ⟨kind, value, eq⟩ := directive
          cases token.symm.trans eq
        next hash =>
          have hash' : ¬ (c = '#' && (cs.take seg.more ++ rest).head?.any isDirectiveChar) = true := by
            rw [Bool.and_eq_true] at hash ⊢
            exact fun there => hash ⟨there.1, cut.any_of_any (by decide) there.2⟩
          refine ⟨by simpa using gap, ?_⟩
          rw [segment, if_neg gap, if_neg (pair _ _ (by decide) line),
            if_neg (pair _ _ (by decide) block), if_neg hash']
          exact tokenSegment_cut space h

end Cut

/-! ## Texts -/

theorem scanFrom_append {q : Position} {seg : Segment} {l : Lexed} (text : List Char)
    (first : segment c (text ++ rest) = .ok seg) (length : seg.more = text.length)
    (others : scanFrom (q.advance (c :: text)) rest = .ok l) :
    scanFrom q (c :: text ++ rest) =
      .ok (l.push seg.lexeme (c :: text) ⟨q, q.advance (c :: text)⟩) := by
  rw [List.cons_append, scanFrom, first]
  simp only [length, List.take_left, List.drop_left, others]

/-- What a token is, wherever it stands. -/
def Token.content (t : Token) : TokenKind × String × Option Number := (t.kind, t.text, t.number)

/-- The texts of some tokens, with a space between each two of them. -/
def spaced (ts : List Token) : String := " ".intercalate (ts.map Token.text)

/-- Text is read as some tokens and nothing else, wherever it stands. -/
def ReadAs (cs : List Char) (ts : List Token) : Prop :=
  ∀ q, ∃ l, scanFrom q cs = .ok l ∧ l.directives = [] ∧
    l.tokens.map Token.content = ts.map Token.content

theorem ReadAs.space {ts : List Token} (h : ReadAs cs ts) (noGap : cs.takeWhile isGap = []) :
    ReadAs (' ' :: cs) ts := by
  intro q
  have blank : segment ' ' cs = .ok ⟨.blank, 0⟩ := by
    rw [segment, if_pos (by decide), noGap, List.length_nil]
  obtain ⟨l, read, same⟩ := h (q.advance [' '])
  exact ⟨l, scanFrom_append [] blank rfl read, same⟩

theorem ReadAs.token {ts : List Token} {seg : Segment} {kind : TokenKind} {number : Option Number}
    (h : ReadAs rest ts) (space : AtSpace rest) (first : segment c cs = .ok seg)
    (token : seg.lexeme = .token kind number) (span : Span) :
    ReadAs (c :: cs.take seg.more ++ rest)
      (⟨kind, String.ofList (c :: cs.take seg.more), span, number⟩ :: ts) := by
  obtain ⟨-, within, again⟩ := segment_cut space first token
  intro q
  obtain ⟨l, read, none, same⟩ := h (q.advance (c :: cs.take seg.more))
  refine ⟨_, scanFrom_append _ again (List.length_take_of_le within).symm read, ?_⟩
  rw [token]
  exact ⟨none, by rw [Lexed.push, List.map_cons, List.map_cons, same]; rfl⟩

theorem spaced_cons (t : Token) (ts : List Token) :
    (spaced (t :: ts)).toList =
      t.text.toList ++ if ts.isEmpty then [] else ' ' :: (spaced ts).toList := by
  cases ts with
  | nil => simp [spaced]
  | cons t' ts => simp [spaced, String.toList_intercalate]

theorem ensures_scanFrom_readAs (q : Position) (cs : List Char) :
    Ensures (scanFrom q cs) fun l => ReadAs (spaced l.tokens).toList l.tokens ∧
      (spaced l.tokens).toList.takeWhile isGap = [] := by
  fun_induction scanFrom q cs with
  | case1 => exact ensures_pure ⟨fun q => ⟨_, scanFrom.eq_1 q, rfl, rfl⟩, rfl⟩
  | case2 => rintro _ ⟨⟩
  | case3 => rintro _ ⟨⟩
  | case4 q c cs seg first text next l others ih =>
    obtain ⟨read, noGap⟩ := ih l others
    refine ensures_pure ?_
    cases lexeme : seg.lexeme with
    | blank => exact ⟨read, noGap⟩
    | directive kind value => exact ⟨read, noGap⟩
    | token kind number =>
      rw [Lexed.push, spaced_cons, String.toList_ofList]
      have gap := (segment_cut (show AtSpace [] by simp [AtSpace]) first lexeme).1
      refine ⟨.token ?_ ?_ first lexeme _, List.takeWhile_cons_of_neg (by rw [gap]; decide)⟩
      · split
        next none =>
          rw [List.isEmpty_iff] at none
          rw [none]
          exact fun q => ⟨_, scanFrom.eq_1 q, rfl, rfl⟩
        next => exact read.space noGap
      · split <;> simp [AtSpace]

/-- The tokens of a text, with a space between each two of them, are read as the same tokens. -/
theorem scan_spaced {source file : String} {l : Lexed} (h : scan source file = .ok l)
    (file' : String) :
    ∃ l', scan (spaced l.tokens) file' = .ok l' ∧ l'.directives = [] ∧
      l'.allTokens.map Token.content = l.allTokens.map Token.content := by
  obtain ⟨l', read, none, same⟩ := (ensures_scanFrom_readAs _ _ l h).1 (.start file')
  refine ⟨l', read, none, ?_⟩
  rw [Lexed.allTokens, Lexed.allTokens, List.map_append, List.map_append, same]
  rfl

theorem scan_spaced_mixedText :
    ∃ l l', scan (String.ofList mixedText) "m" = .ok l ∧ l.tokens.length = 11 ∧
      scan (spaced l.tokens) "n" = .ok l' ∧ l'.directives = [] ∧
      l'.allTokens.map Token.content = l.allTokens.map Token.content := by
  obtain ⟨l, read, lengths⟩ := exists_of_scanOutcome
    (show scanOutcome mixedText = .inr (11, 2) by decide +kernel)
  obtain ⟨l', again⟩ := scan_spaced read "n"
  exact ⟨l, l', read, congrArg Prod.fst lengths, again⟩

end EbLang
