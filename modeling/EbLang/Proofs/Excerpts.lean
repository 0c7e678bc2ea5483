import EbLang.Analysis
import EbLang.Error.Excerpt
import Mathlib.Data.List.DropRight

/-!
# Carets under errors

The caret of an excerpt stands under the character at the position of the error.  The position is one
that reading the text counts: lines and columns of `splitLines` are those of `Position.advance`.
-/

namespace EbLang

variable {cs whole content : List Char} {c : Char}

/-! ## Lines -/

/-- The place of a character in its line is where reading arrives at it. -/
theorem advance_of_splitLines {i j : Nat} (p : Position) (row : (splitLines cs)[i]? = some whole)
    (here : whole[j]? = some c) :
    ∃ n, cs[n]? = some c ∧
      p.advance (cs.take n) = ⟨p.line + i, (if i = 0 then p.column else 1) + j, p.file⟩ := by
  fun_induction splitLines cs generalizing p i j whole with
  | case1 => simp at row
  | case2 cs ih =>
    rcases i with _ | i
    · cases row
      rcases j with _ | j
      · exact ⟨0, here, rfl⟩
      · simp at here
    · obtain ⟨n, there, arrives⟩ := ih (p.step '\n') row here
      refine ⟨n + 1, there, arrives.trans ?_⟩
      simp [Position.step, Nat.add_assoc, Nat.add_comm 1]
  | case3 d cs other none ih =>
    rcases i with _ | i
    · cases row
      rcases j with _ | j
      · exact ⟨0, here, rfl⟩
      · simp at here
    · simp at row
  | case4 d cs other first lines eq ih =>
    have behind {j' : Nat} {whole' : List Char} (row' : (first :: lines)[i]? = some whole')
        (here' : whole'[j']? = some c) (column : (if i = 0 then p.column + 1 else 1) + j' =
          (if i = 0 then p.column else 1) + j) :
        ∃ n, (d :: cs)[n]? = some c ∧ p.advance ((d :: cs).take n) =
          ⟨p.line + i, (if i = 0 then p.column else 1) + j, p.file⟩ := by
      obtain ⟨n, there, arrives⟩ := ih (p.step d) (eq ▸ row') here'
      refine ⟨n + 1, there, arrives.trans ?_⟩
      simp only [Position.step, if_neg other, column]
    rcases i with _ | i
    · cases row
      rcases j with _ | j
      · exact ⟨0, here, rfl⟩
      · exact behind rfl here (by simp; omega)
    · exact behind row here rfl

/-- A line feed only ends a line. -/
theorem eq_nil_of_splitLines {init rest : List Char}
    (row : init ++ '\n' :: rest ∈ splitLines cs) : rest = [] := by
  fun_induction splitLines cs generalizing init with
  | case1 => cases row
  | case2 cs ih =>
    rcases List.mem_cons.mp row with eq | row
    · have eq := List.append_eq_singleton_iff.mp eq
      grind
    · exact ih row
  | case3 c cs other none ih =>
    have eq := List.append_eq_singleton_iff.mp (List.mem_singleton.mp row)
    grind
  | case4 c cs other first lines eq ih =>
    rw [eq] at ih
    rcases List.mem_cons.mp row with row | row
    · cases init with
      | nil => exact absurd (List.cons.inj row).1.symm other
      | cons d init => exact ih (List.mem_cons.mpr (.inl (List.cons.inj row).2))
    · exact ih (.tail _ row)

theorem dropEndWhile_isPrefix (p : Char → Bool) (cs : List Char) : Text.dropEndWhile p cs <+: cs :=
  List.rdropWhile_prefix p cs

theorem getElem?_of_isPrefix {n : Nat} {ds : List Char} (start : cs <+: ds) (here : cs[n]? = some c) :
    ds[n]? = some c := by
  obtain ⟨rest, rfl⟩ := start
  rw [List.getElem?_append_left (List.getElem?_eq_some_iff.mp here).1, here]

/-- What is shown of a line is what it starts with, and it has no line feed. -/
theorem lineAt?_spec {source : String} {number : Nat} (h : lineAt? source number = some content) :
    ∃ whole, number ≠ 0 ∧ (splitLines source.toList)[number - 1]? = some whole ∧ content <+: whole ∧
      '\n' ∉ content := by
  unfold lineAt? at h
  split at h
  next => cases h
  next positive =>
    obtain ⟨whole, row, rfl⟩ := Option.map_eq_some_iff.mp h
    have start := dropEndWhile_isPrefix (fun c => c == '\n' || c == '\r') whole
    refine ⟨whole, positive, row, start, fun feed => ?_⟩
    have last := List.rdropWhile_last_not (fun c => c == '\n' || c == '\r') whole
      (List.ne_nil_of_mem feed)
    obtain ⟨init, rest, eq⟩ := List.append_of_mem feed
    obtain ⟨tail, joined⟩ := start
    have ends : rest = [] := by
      rw [eq, List.append_assoc, List.cons_append] at joined
      exact (List.append_eq_nil_iff.mp
        (eq_nil_of_splitLines (joined ▸ List.mem_of_getElem? row))).1
    subst ends
    exact last (by simp [show List.rdropWhile _ whole = _ from eq])

/-! ## Excerpts -/

theorem not_mem_toString (n : Nat) : '\n' ∉ (toString n).toList := by
  intro feed
  rw [Nat.toString_eq_repr, Nat.repr, String.toList_ofList] at feed
  exact absurd (Nat.isDigit_of_mem_toDigits (by decide) (by decide) feed) (by decide)

/-- The caret stands in the last line at the offset that the character at the position of the error
has in the line above: behind the number and the bar, as far in as the column is behind the blanks that
the line starts with. -/
theorem caret_under_error (e : Error) {source : String}
    (there : lineAt? source e.position.line = some content)
    (behind : (content.takeWhile isIndent).length < e.position.column)
    (within : e.position.column ≤ (content.takeWhile isIndent).length +
      (Text.trimEnd (content.dropWhile isIndent)).length) :
    ∃ n c bar text dashes, source.toList[n]? = some c ∧
      (Position.start e.position.file).advance (source.toList.take n) = e.position ∧
      e.display source = e.headline ++
        String.ofList (bar ++ ['\n'] ++ text ++ ['\n'] ++ (dashes ++ ['^']) ++ ['\n']) ∧
      '\n' ∉ text ∧ '\n' ∉ dashes ∧ '^' ∉ dashes ∧ text[dashes.length]? = some c ∧
      text = (toString e.position.line).toList ++ [' ', '|', ' '] ++
        Text.trimEnd (content.dropWhile isIndent) ∧
      dashes.length + (content.takeWhile isIndent).length + 1 =
        (toString e.position.line).toList.length + 3 + e.position.column := by
  obtain ⟨fault, number, column, file⟩ := e
  dsimp only at there behind within
  obtain ⟨whole, positive, row, start, noFeed⟩ := lineAt?_spec there
  generalize indent : (content.takeWhile isIndent).length = k at behind within
  obtain ⟨m, rfl⟩ : ∃ m, column = k + m + 1 := ⟨column - k - 1, by omega⟩
  obtain ⟨c, shown⟩ : ∃ c, (Text.trimEnd (content.dropWhile isIndent))[m]? = some c :=
    ⟨_, List.getElem?_eq_getElem (by omega)⟩
  have split := List.takeWhile_append_dropWhile (p := isIndent) (l := content)
  have printed := dropEndWhile_isPrefix Text.isBlank (content.dropWhile isIndent)
  have here : content[k + m]? = some c := by
    rw [← split, List.getElem?_append_right (by omega), indent, Nat.add_sub_cancel_left]
    exact getElem?_of_isPrefix printed shown
  have dropped : content.drop k = content.dropWhile isIndent := by
    conv => lhs; rw [← split]
    rw [← indent, List.drop_left]
  obtain ⟨n, found, arrives⟩ :=
    advance_of_splitLines (.start file) row (getElem?_of_isPrefix start here)
  let bar := padLeft ' ' ((toString number).toList.length + 2) ['|']
  have caret : padLeft '-' (max (k + m + 1 - k) 1) ['^'] = List.replicate m '-' ++ ['^'] := by
    rw [padLeft, show max (k + m + 1 - k) 1 - ['^'].length = m by simp; omega]
  refine ⟨n, c, bar,
    (toString number).toList ++ [' ', '|', ' '] ++ Text.trimEnd (content.dropWhile isIndent),
    bar ++ [' '] ++ List.replicate m '-', found, arrives.trans ?_, ?_, ?_, ?_, ?_, ?_, rfl, ?_⟩
  · simp [Position.start]
    omega
  · simp only [Error.display, there, Excerpt.render, Excerpt.ofLine, indent, dropped, caret,
      List.append_assoc, bar]
  · simp only [List.mem_append, not_or]
    refine ⟨⟨not_mem_toString number, by decide⟩, fun feed => noFeed ?_⟩
    exact (List.dropWhile_suffix _).subset (printed.subset feed)
  · simp [bar, padLeft]
  · simp [bar, padLeft]
  · rw [List.getElem?_append_right (by simp [bar, padLeft]; omega), ← shown]
    congr 1
    simp [bar, padLeft]
    omega
  · simp [bar, padLeft]
    omega

/-- An indented line between two others. -/
def indentedText : List Char :=
  ['f', '\n', ' ', '\t', 'é', ' ', '@', ' ', '\r', '\n', '}']

/-- An error at the sign `@` of the indented line. -/
def indentedError : Error := ⟨.expectedNamedArgument, ⟨2, 5, "m"⟩⟩

theorem caret_under_indentedError :
    lineAt? (String.ofList indentedText) 2 = some [' ', '\t', 'é', ' ', '@', ' '] ∧
      ∃ n c bar text dashes, (String.ofList indentedText).toList[n]? = some c ∧
        (Position.start "m").advance ((String.ofList indentedText).toList.take n) = ⟨2, 5, "m"⟩ ∧
        indentedError.display (String.ofList indentedText) = indentedError.headline ++
          String.ofList (bar ++ ['\n'] ++ text ++ ['\n'] ++ (dashes ++ ['^']) ++ ['\n']) ∧
        '\n' ∉ text ∧ '\n' ∉ dashes ∧ '^' ∉ dashes ∧ text[dashes.length]? = some c ∧
        text = (toString 2).toList ++ [' ', '|', ' '] ++ ['é', ' ', '@'] ∧
        dashes.length + 2 + 1 = (toString 2).toList.length + 3 + 5 := by
  have there : lineAt? (String.ofList indentedText) 2 = some [' ', '\t', 'é', ' ', '@', ' '] := by
    rw [lineAt?, String.toList_ofList]
    decide
  exact ⟨there, caret_under_error indentedError there (by decide) (by decide)⟩

end EbLang
