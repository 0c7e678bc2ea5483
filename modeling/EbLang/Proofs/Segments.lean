import EbLang.Proofs.Outcome
import EbLang.Token.Scan

/-!
# Segments of source text

A text is cut into segments: blanks, comments, directives and tokens.  `Cut` says what the segments
are, without the rules that find them: together they are the whole text, in order, each token is one
of its own text, and each span runs from the position of its first character to the position after
its last (`Position.after`).

Every rule of the scanner is shown to give such a segment (`Lexeme.Spelled`), whatever follows; the
run to the end of the text puts them together.
-/

namespace EbLang

variable {cs : List Char} {token : String}

/-! ## Positions -/

/-- The position after some text at the start of a file: a line for every line feed in it, and a
column for every character since the last one. -/
def Position.after (file : String) (before : List Char) : Position :=
  ⟨1 + before.count '\n', 1 + (before.reverse.takeWhile (· != '\n')).length, file⟩

/-- The span of a text that stands after another. -/
def Span.after (file : String) (before text : List Char) : Span :=
  ⟨.after file before, .after file (before ++ text)⟩

variable (file : String) (c : Char) (p : Char → Bool)

theorem Position.step_after (before : List Char) (c : Char) :
    (after file before).step c = after file (before ++ [c]) := by
  unfold step after
  split
  next newline => simp [newline, Nat.add_assoc]
  next other =>
    have column : (before ++ [c]).reverse.takeWhile (· != '\n')
        = c :: before.reverse.takeWhile (· != '\n') := by
      rw [List.reverse_append, List.reverse_singleton, List.singleton_append,
        List.takeWhile_cons_of_pos (by simpa using other)]
    rw [column, List.count_append, List.count_singleton, if_neg (by simpa using other)]
    rfl

/-- Moving over a text counts its lines and columns. -/
theorem Position.advance_after (before cs : List Char) :
    (after file before).advance cs = after file (before ++ cs) := by
  induction cs generalizing before with
  | nil => rw [List.append_nil]; rfl
  | cons c cs ih =>
    have first : ((after file before).step c).advance cs = after file (before ++ [c] ++ cs) := by
      rw [step_after, ih]
    rw [List.append_assoc] at first
    exact first

/-! ## What a segment is -/

/-- What follows is the end of a line. -/
def AtLineEnd (rest : List Char) : Prop := ∀ c ∈ rest.head?, c = '\n'

/-- A text that stands for nothing. -/
inductive IsSkipped : (text rest : List Char) → Prop
  | blanks {text rest : List Char} (blank : ∀ c ∈ text, c = ' ' ∨ c = '\t' ∨ c = '\r') :
      IsSkipped text rest
  /-- From two slashes to the end of the line. -/
  | lineComment {body rest : List Char} (line : '\n' ∉ body) (lineEnd : AtLineEnd rest) :
      IsSkipped ('/' :: '/' :: body) rest
  /-- Up to the first end mark. -/
  | blockComment {body rest : List Char} (closed : ¬ ['*', '/'] <:+: body) :
      IsSkipped ('/' :: '*' :: (body ++ ['*', '/'])) rest

/-- The text of a directive: a name and what follows it on the line, the value among it. -/
structure IsDirective (kind : DirectiveKind) (value : String) (text rest : List Char) : Prop where
  named : ∃ name more, text = '#' :: (name ++ more) ∧
    DirectiveKind.ofName? (String.ofList name) = some kind ∧ value.toList <:+: more
  line : '\n' ∉ text
  lineEnd : AtLineEnd rest

def Number.tokenKind (n : Number) : TokenKind :=
  match n.value with
  | .int _ => .int
  | .float _ => .float

/-- A character that a name in source text may hold. -/
def IsNamePart (c : Char) : Prop := isNameChar c = true ∨ c = '.'

inductive IsToken : TokenKind → Option Number → (text : List Char) → Prop
  | number {text : List Char} {n : Number} (read : Number.read (String.ofList text) = .ok n) :
      IsToken n.tokenKind (some n) text
  | word {text : List Char} (name : ∀ c ∈ text, IsNamePart c) :
      IsToken ((TokenKind.ofReserved? (String.ofList text)).getD .identifier) none text
  | pair {a b : Char} {kind : TokenKind} (symbol : TokenKind.ofPair? a b = some kind) :
      IsToken kind none [a, b]
  | single {c : Char} {kind : TokenKind} (symbol : TokenKind.ofChar? c = some kind) :
      IsToken kind none [c]

/-- A text after another is cut into segments, no segment empty, with these tokens and directives
among them. -/
inductive Cut (file : String) : (before text : List Char) → List Token → List Directive → Prop
  | finish {before : List Char} : Cut file before [] [] []
  | skip {before text rest : List Char} {ts : List Token} {ds : List Directive}
      (more : text ≠ []) (skipped : IsSkipped text rest)
      (others : Cut file (before ++ text) rest ts ds) : Cut file before (text ++ rest) ts ds
  | directive {before text rest : List Char} {ts : List Token} {ds : List Directive}
      {kind : DirectiveKind} {value : String}
      (more : text ≠ []) (directive : IsDirective kind value text rest)
      (others : Cut file (before ++ text) rest ts ds) :
      Cut file before (text ++ rest) ts (⟨kind, value, .after file before text⟩ :: ds)
  | token {before text rest : List Char} {ts : List Token} {ds : List Directive}
      {kind : TokenKind} {number : Option Number}
      (more : text ≠ []) (token : IsToken kind number text)
      (others : Cut file (before ++ text) rest ts ds) :
      Cut file before (text ++ rest)
        (⟨kind, String.ofList text, .after file before text, number⟩ :: ts) ds

/-- A text is one of what a segment stands for. -/
def Lexeme.Spelled : Lexeme → (text rest : List Char) → Prop
  | .blank, text, rest => IsSkipped text rest
  | .directive kind value, text, rest => IsDirective kind value text rest
  | .token kind number, text, _ => IsToken kind number text

/-- A text with a segment in front is cut as the rest of it is. -/
theorem Cut.push {file : String} {before text rest : List Char} {lexeme : Lexeme} {l : Lexed}
    (more : text ≠ []) (spelled : lexeme.Spelled text rest)
    (others : Cut file (before ++ text) rest l.tokens l.directives) :
    Cut file before (text ++ rest) (l.push lexeme text (.after file before text)).tokens
      (l.push lexeme text (.after file before text)).directives := by
  cases lexeme with
  | blank => exact .skip more spelled others
  | directive kind value => exact .directive more spelled others
  | token kind number => exact .token more spelled others

/-! ## Stretches of a text -/

theorem take_takeWhile (cs : List Char) : cs.take (cs.takeWhile p).length = cs.takeWhile p :=
  (List.prefix_iff_eq_take.mp (List.takeWhile_prefix p)).symm

theorem drop_takeWhile (cs : List Char) : cs.drop (cs.takeWhile p).length = cs.dropWhile p := by
  have whole := List.take_append_drop (cs.takeWhile p).length cs
  rw [take_takeWhile] at whole
  exact List.append_cancel_left (whole.trans List.takeWhile_append_dropWhile.symm)

theorem newline_notMem_line (cs : List Char) : '\n' ∉ cs.take (lineLength cs) := by
  rw [lineLength, take_takeWhile]
  intro there
  simpa using List.all_eq_true.mp List.all_takeWhile '\n' there

theorem atLineEnd_drop_lineLength (cs : List Char) : AtLineEnd (cs.drop (lineLength cs)) := by
  intro c first
  rw [lineLength, drop_takeWhile] at first
  have stopped := List.head?_dropWhile_not (· != '\n') cs
  rw [Option.mem_def.mp first] at stopped
  simpa using stopped

/-- A block comment is taken up to the first end mark. -/
theorem take_commentLength {n : Nat} (h : commentLength? cs = some n) :
    ∃ body, cs.take (n + 2) = body ++ ['*', '/'] ∧ ¬ ['*', '/'] <:+: body := by
  fun_induction commentLength? cs generalizing n with
  | case1 => cases h; exact ⟨[], rfl, by simp⟩
  | case2 c cs other ih =>
    obtain ⟨k, found, rfl⟩ := Option.map_eq_some_iff.mp h
    obtain ⟨body, whole, closed⟩ := ih found
    refine ⟨c :: body, by rw [List.take_succ_cons, whole]; rfl, ?_⟩
    rw [List.infix_cons_iff]
    rintro (start | inside)
    · -- An end mark at the front would have been the first one.
      obtain ⟨tail, front⟩ := start
      obtain ⟨rfl, rfl⟩ := List.cons.inj front
      cases cs with
      | nil => simp at whole
      | cons d cs =>
        obtain ⟨rfl, -⟩ := List.cons.inj (whole.symm.trans List.take_succ_cons)
        exact other _ rfl rfl
    · exact closed inside
  | case3 => cases h

theorem isNamePart_of_mem_nameTail (cs : List Char) :
    ∀ c ∈ cs.take (nameTailLength cs), IsNamePart c := by
  fun_induction nameTailLength cs with
  | case1 => simp
  | case2 c cs isName ih =>
    exact List.forall_mem_cons.mpr ⟨.inl isName, ih⟩
  | case3 c cs _ dot ih =>
    exact List.forall_mem_cons.mpr ⟨.inr (by simp_all), ih⟩
  | case4 => simp

theorem isPrefix_beforeComment (cs : List Char) : beforeComment cs <+: cs := by
  fun_induction beforeComment cs with
  | case1 => exact List.nil_prefix
  | case2 c cs _ ih => exact List.cons_prefix_cons.mpr ⟨rfl, ih⟩
  | case3 => exact List.nil_prefix

theorem isInfix_trim (cs : List Char) : Text.trim cs <:+: cs := by
  have ending : Text.trim cs <+: cs.dropWhile Text.isBlank := by
    have reversed := List.reverse_prefix.mpr
      (List.dropWhile_suffix Text.isBlank (l := (cs.dropWhile Text.isBlank).reverse))
    rwa [List.reverse_reverse] at reversed
  exact ending.isInfix.trans (List.dropWhile_suffix _).isInfix

/-! ## Rules of the scanner -/

theorem ensures_directiveLexeme (name argument : List Char) :
    Ensures (directiveLexeme name argument) fun lexeme => ∃ kind value,
      lexeme = .directive kind value ∧ DirectiveKind.ofName? (String.ofList name) = some kind ∧
        value.toList <:+: argument := by
  unfold directiveLexeme
  dsimp only
  split
  next => rintro _ ⟨⟩
  next kind known =>
    split
    next => rintro _ ⟨⟩
    next =>
      refine ensures_pure ⟨kind, _, rfl, known, ?_⟩
      rw [String.toList_ofList]
      exact (isInfix_trim _).trans (isPrefix_beforeComment argument).isInfix

theorem ensures_numberLexeme_spelled (text rest : List Char) :
    Ensures (numberLexeme text) (Lexeme.Spelled · text rest) := by
  refine ensures_bind ensures_self fun n read => ?_
  have token : IsToken n.tokenKind (some n) text := .number read
  rw [Number.tokenKind] at token
  cases value : n.value with
  | int k =>
    rw [value] at token
    exact ensures_pure token
  | float x =>
    rw [value] at token
    exact ensures_pure token

/-- The text of a segment is one of what it stands for. -/
def Segment.Spelled (c : Char) (cs : List Char) (seg : Segment) : Prop :=
  seg.lexeme.Spelled (c :: cs.take seg.more) (cs.drop seg.more)

theorem ensures_symbolSegment_spelled (cs : List Char) :
    Ensures (symbolSegment c cs) (Segment.Spelled c cs) := by
  unfold symbolSegment
  split
  next kind pair =>
    obtain ⟨b, first, pair⟩ := Option.bind_eq_some_iff.mp pair
    obtain ⟨cs, rfl⟩ := List.head?_eq_some_iff.mp first
    exact ensures_pure (IsToken.pair pair)
  next =>
    split
    next kind single => exact ensures_pure (IsToken.single single)
    next => rintro _ ⟨⟩

theorem ensures_tokenSegment_spelled (cs : List Char) :
    Ensures (tokenSegment c cs) (Segment.Spelled c cs) := by
  unfold tokenSegment
  dsimp only
  split
  next isNumber =>
    obtain ⟨n, length⟩ := Nat.exists_eq_succ_of_ne_zero isNumber
    rw [length, List.take_succ_cons]
    exact ensures_bind (ensures_numberLexeme_spelled _ (cs.drop n)) fun _ spelled =>
      ensures_pure spelled
  next =>
    split
    next start =>
      refine ensures_pure (IsToken.word ?_)
      exact List.forall_mem_cons.mpr
        ⟨.inl (by simp [isNameChar, start]), isNamePart_of_mem_nameTail cs⟩
    next => exact ensures_symbolSegment_spelled c cs

theorem ensures_segment_spelled (cs : List Char) :
    Ensures (segment c cs) (Segment.Spelled c cs) := by
  unfold segment
  split
  next gap =>
    refine ensures_pure (IsSkipped.blanks (List.forall_mem_cons.mpr ⟨?_, ?_⟩))
    · simpa [isGap, or_assoc] using gap
    · intro d there
      rw [take_takeWhile] at there
      simpa [isGap, or_assoc] using List.all_eq_true.mp List.all_takeWhile d there
  split
  next slashes =>
    simp only [Bool.and_eq_true, decide_eq_true_eq, beq_iff_eq] at slashes
    obtain ⟨rfl, second⟩ := slashes
    obtain ⟨body, rfl⟩ := List.head?_eq_some_iff.mp second
    have length : lineLength ('/' :: body) = lineLength body + 1 := by simp [lineLength]
    refine ensures_pure ?_
    unfold Segment.Spelled
    exact IsSkipped.lineComment (newline_notMem_line body) (atLineEnd_drop_lineLength body)
  split
  next comment =>
    simp only [Bool.and_eq_true, decide_eq_true_eq, beq_iff_eq] at comment
    obtain ⟨rfl, second⟩ := comment
    obtain ⟨body, rfl⟩ := List.head?_eq_some_iff.mp second
    split
    next n found =>
      obtain ⟨inside, whole, closed⟩ := take_commentLength found
      rw [List.drop_succ_cons, List.drop_zero] at whole
      refine ensures_pure ?_
      unfold Segment.Spelled
      rw [List.take_succ_cons, whole]
      exact IsSkipped.blockComment closed
    next => rintro _ ⟨⟩
  split
  next hash =>
    simp only [Bool.and_eq_true, decide_eq_true_eq] at hash
    obtain ⟨rfl, -⟩ := hash
    refine ensures_bind (ensures_directiveLexeme _ _) ?_
    rintro _ ⟨kind, value, rfl, known, inside⟩
    rw [drop_takeWhile] at inside
    refine ensures_pure ⟨⟨_, _, congrArg ('#' :: ·) List.takeWhile_append_dropWhile.symm, known,
      inside.trans (List.dropWhile_suffix _).isInfix⟩, ?_, atLineEnd_drop_lineLength cs⟩
    · exact fun there => (List.mem_cons.mp there).elim (by decide) (newline_notMem_line cs)
  next => exact ensures_tokenSegment_spelled c cs

/-! ## Characters that no rule takes -/

namespace Number

theorem ofIntegerDigits_ne_unrecognised (text token : String) (base : Nat) (ds : List Char)
    (suffix : Suffix) :
    ofIntegerDigits text base ds suffix ≠ .error (.unrecognisedToken token) := by
  unfold ofIntegerDigits
  dsimp only
  split <;> simp

theorem ofFloatDigits_ne_unrecognised (text token : String) (d : Decimal) (suffix : Suffix) :
    ofFloatDigits text d suffix ≠ .error (.unrecognisedToken token) := by
  unfold ofFloatDigits
  split <;> simp

theorem readBased_ne_unrecognised (text token : String) (base : Nat) (body : List Char) :
    readBased text base body ≠ .error (.unrecognisedToken token) := by
  unfold readBased
  dsimp only
  split
  next =>
    split
    next => simp
    next => exact ofIntegerDigits_ne_unrecognised _ _ _ _ _
  next => simp

theorem readPlain_ne_unrecognised (text token : String) (cs : List Char) :
    readPlain text cs ≠ .error (.unrecognisedToken token) := by
  unfold readPlain
  dsimp only
  split
  next => split <;> simp
  next =>
    split
    next => exact ofFloatDigits_ne_unrecognised _ _ _ _
    next =>
      split
      next =>
        split
        next => exact ofFloatDigits_ne_unrecognised _ _ _ _
        next => simp
      next => exact ofIntegerDigits_ne_unrecognised _ _ _ _ _

theorem read_ne_unrecognised (text token : String) :
    read text ≠ .error (.unrecognisedToken token) := by
  unfold read
  dsimp only
  split
  next => exact readBased_ne_unrecognised _ _ _ _
  next => exact readPlain_ne_unrecognised _ _ _

end Number

theorem symbolSegment_unrecognised {c : Char}
    (h : symbolSegment c cs = .error (.unrecognisedToken token)) : token = String.singleton c := by
  unfold symbolSegment at h
  split at h
  next => cases h
  next =>
    split at h
    next => cases h
    next => cases h; rfl

theorem tokenSegment_unrecognised {c : Char}
    (h : tokenSegment c cs = .error (.unrecognisedToken token)) : token = String.singleton c := by
  unfold tokenSegment at h
  dsimp only at h
  split at h
  next =>
    unfold numberLexeme at h
    cases read : Number.read (String.ofList ((c :: cs).take (numberLength (c :: cs)))) with
    | error fault =>
      rw [read] at h
      cases h
      exact absurd read (Number.read_ne_unrecognised _ _)
    | ok n =>
      rw [read] at h
      obtain ⟨value, suffix⟩ := n
      cases value <;> cases h
  next =>
    split at h
    next => cases h
    next => exact symbolSegment_unrecognised h

/-- Only a character that no rule takes is not recognised. -/
theorem segment_unrecognised {c : Char}
    (h : segment c cs = .error (.unrecognisedToken token)) : token = String.singleton c := by
  unfold segment at h
  split at h
  next => cases h
  split at h
  next => cases h
  split at h
  next => split at h <;> cases h
  split at h
  next =>
    unfold directiveLexeme at h
    dsimp only at h
    split at h
    next => cases h
    next => split at h <;> cases h
  next => exact tokenSegment_unrecognised h

/-! ## The run to the end of the text -/

theorem ensures_scanFrom_cut (file : String) (before cs : List Char) :
    Ensures (scanFrom (.after file before) cs) fun l =>
      Cut file before cs l.tokens l.directives ∧ l.finish = .after file (before ++ cs) := by
  generalize start : Position.after file before = p
  fun_induction scanFrom p cs generalizing before with
  | case1 => exact ensures_pure ⟨.finish, by rw [List.append_nil, start]⟩
  | case2 => rintro _ ⟨⟩
  | case3 => rintro _ ⟨⟩
  | case4 p c cs seg first text next l others ih =>
    subst start
    have whole : text ++ cs.drop seg.more = c :: cs := congrArg (c :: ·) (List.take_append_drop ..)
    have moved : Position.after file (before ++ text) = next := (Position.advance_after ..).symm
    obtain ⟨cut, finish⟩ := ih (before ++ text) moved l others
    refine ensures_pure ⟨?_, ?_⟩
    · rw [← whole, ← moved]
      exact cut.push (List.cons_ne_nil _ _) (ensures_segment_spelled c cs seg first)
    · rw [List.append_assoc, whole] at finish
      rw [← finish]
      unfold Lexed.push
      split <;> rfl

theorem scanFrom_unrecognised {file : String} {before : List Char}
    {p : Position} (h : scanFrom (.after file before) cs = .error ⟨.unrecognisedToken token, p⟩) :
    ∃ passed c rest, cs = passed ++ c :: rest ∧ token = String.singleton c ∧
      p = .after file (before ++ passed) := by
  generalize start : Position.after file before = q at h
  fun_induction scanFrom q cs generalizing before with
  | case1 => cases h
  | case2 q c cs fault failed =>
    cases h
    exact ⟨[], c, cs, rfl, segment_unrecognised failed, by rw [List.append_nil, start]⟩
  | case3 q c cs seg first text next e failed =>
    rename_i ih
    subst start
    have moved : Position.after file (before ++ text) = next := (Position.advance_after ..).symm
    cases h
    obtain ⟨passed, d, rest, whole, same, place⟩ := ih moved failed
    refine ⟨text ++ passed, d, rest, ?_, same, by rw [← List.append_assoc, place]⟩
    rw [List.append_assoc, ← whole]
    exact (congrArg (c :: ·) (List.take_append_drop ..)).symm
  | case4 => cases h

/-- A text that can be read is cut into segments and ends with the last token, and a text with a
character that no rule takes is refused at that character. -/
theorem scan_cuts (source file : String) :
    (∀ l, scan source file = .ok l →
      Cut file [] source.toList l.tokens l.directives ∧
      l.allTokens.getLast? = some (.ofEnd (.after file source.toList))) ∧
    (∀ token p, scan source file = .error ⟨.unrecognisedToken token, p⟩ →
      ∃ before c rest, source.toList = before ++ c :: rest ∧ token = String.singleton c ∧
        p = .after file before) := by
  constructor
  · intro l read
    obtain ⟨cut, finish⟩ := ensures_scanFrom_cut file [] source.toList l read
    refine ⟨cut, ?_⟩
    rw [Lexed.allTokens, List.getLast?_concat, finish, List.nil_append]
  · intro token p refused
    have start : scanFrom (.after file []) source.toList = .error ⟨.unrecognisedToken token, p⟩ :=
      refused
    exact scanFrom_unrecognised start

/-- Directives, comments of both kinds, a dotted name, numbers that touch points, and letters beyond
ASCII. -/
def mixedText : List Char :=
  "#include a.b // not c\n".toList ++
  "pub é.x/*\n **/ .5 0x1f 1.5e-3f64.y\t:=/= //\n".toList ++
  "#out_exec\tp".toList

/-- A character of no use, in the third column of the second line. -/
def strayText : List Char := "é\nxé?".toList

/-- The error of a text, or how many tokens and directives it has. -/
def scanOutcome (text : List Char) : Error ⊕ Nat × Nat :=
  match scanFrom (.start "m") text with
  | .error e => .inl e
  | .ok l => .inr (l.tokens.length, l.directives.length)

theorem exists_of_scanOutcome {text : List Char} {lengths : Nat × Nat}
    (h : scanOutcome text = .inr lengths) :
    ∃ l, scan (String.ofList text) "m" = .ok l ∧
      (l.tokens.length, l.directives.length) = lengths := by
  unfold scanOutcome at h
  split at h
  next => cases h
  next l read => exact ⟨l, by rw [scan, String.toList_ofList, read], Sum.inr.inj h⟩

theorem scan_cuts_mixedText_strayText :
    (∃ l, scan (String.ofList mixedText) "m" = .ok l ∧
      (l.tokens.length, l.directives.length) = (11, 2) ∧
      Cut "m" [] (String.ofList mixedText).toList l.tokens l.directives ∧
      l.allTokens.getLast? = some (.ofEnd (.after "m" (String.ofList mixedText).toList))) ∧
    (∃ before c rest, (String.ofList strayText).toList = before ++ c :: rest ∧
      "?" = String.singleton c ∧ ⟨2, 3, "m"⟩ = Position.after "m" before) := by
  constructor
  · have reads : scanOutcome mixedText = .inr (11, 2) := by decide +kernel
    obtain ⟨l, scanned, lengths⟩ := exists_of_scanOutcome reads
    exact ⟨l, scanned, lengths, (scan_cuts _ "m").1 l scanned⟩
  · have refuses : scanOutcome strayText = .inl ⟨.unrecognisedToken "?", ⟨2, 3, "m"⟩⟩ := by
      decide +kernel
    unfold scanOutcome at refuses
    split at refuses
    next e refused =>
      refine (scan_cuts (String.ofList strayText) "m").2 "?" ⟨2, 3, "m"⟩ ?_
      rw [scan, String.toList_ofList, refused, Sum.inl.inj refuses]
    next => cases refuses

end EbLang
