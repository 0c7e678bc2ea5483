import EbLang.Hoist
import EbLang.Proofs.Balance.ShortCircuit
import EbLang.Proofs.Reading
import EbLang.Proofs.Segments

/-!
# Names of source text

Hidden variables are named with a `$`, which no name in source text holds: a name is read from
letters, digits, underscores, dots and what is beyond ASCII.  Nor does source text declare a hidden
variable.  Both are still so after operators were made conditional, which brings no names.
-/

namespace EbLang

/-- A name that source text can hold. -/
def IsPlain (name : String) : Prop := '$' ∉ name.toList

/-- A name of source text that declares no hidden variable. -/
def Mention.Plain : Mention → Prop
  | .variable name hidden => IsPlain name ∧ hidden = false
  | .function _ => False

/-- A name of a variable. -/
def Mention.IsVariable : Mention → Prop
  | .variable _ _ => True
  | .function _ => False

/-! ## Parts of names -/

theorem mem_of_mem_splitAtDots {cs part : List Char} (h : part ∈ splitAtDots cs) {c : Char}
    (hc : c ∈ part) : c ∈ cs := by
  induction cs generalizing part with
  | nil => simp_all [splitAtDots]
  | cons d cs ih =>
    unfold splitAtDots at h
    split at h
    next =>
      rcases List.mem_cons.mp h with rfl | h
      · cases hc
      · exact List.mem_cons_of_mem _ (ih h hc)
    next =>
      split at h
      next => simp_all
      next first others eq =>
        rcases List.mem_cons.mp h with rfl | h
        · rcases List.mem_cons.mp hc with rfl | hc
          · exact List.mem_cons_self
          · exact List.mem_cons_of_mem _ (ih (eq ▸ List.mem_cons_self) hc)
        · exact List.mem_cons_of_mem _ (ih (eq ▸ List.mem_cons_of_mem _ h) hc)

variable {name : String}

theorem isPlain_of_mem_splitName {part : String} (h : IsPlain name)
    (hp : part ∈ splitName name) : IsPlain part := by
  obtain ⟨cs, hcs, rfl⟩ := List.mem_map.mp hp
  intro hd
  rw [String.toList_ofList] at hd
  exact h (mem_of_mem_splitAtDots hcs hd)

theorem splitAtDots_eq_singleton {cs : List Char} (h : '.' ∉ cs) : splitAtDots cs = [cs] := by
  induction cs with
  | nil => rfl
  | cons c cs ih =>
    have hc : c ≠ '.' := fun eq => h (eq ▸ List.mem_cons_self)
    rw [splitAtDots, if_neg hc, ih (fun hd => h (List.mem_cons_of_mem _ hd))]

/-! ## Names of hidden variables -/

namespace Hoist

variable (k : Nat)

theorem toList_temporaryName : (temporaryName k).toList = "eb$tmp".toList ++ Nat.toDigits 10 k := by
  rw [temporaryName, String.toList_append, Nat.toString_eq_ofList_toDigits]
  exact congrArg ("eb$tmp".toList ++ ·) (String.toList_ofList ..)

theorem temporaryName_injective {k m : Nat} (h : temporaryName k = temporaryName m) : k = m := by
  have lists := congrArg String.toList h
  rw [toList_temporaryName, toList_temporaryName] at lists
  have digits := List.append_cancel_left lists
  rw [← Nat.ofDigitChars_ten_toDigits (n := k), digits, Nat.ofDigitChars_ten_toDigits]

theorem not_isPlain_temporaryName : ¬ IsPlain (temporaryName k) := by
  intro h
  refine h ?_
  rw [toList_temporaryName]
  exact List.mem_append_left _ (by decide)

theorem ne_temporaryName {name : String} (h : IsPlain name) (k : Nat) :
    name ≠ temporaryName k := fun eq => not_isPlain_temporaryName k (eq ▸ h)

/-- The name of a hidden variable has one part. -/
theorem splitName_temporaryName : splitName (temporaryName k) = [temporaryName k] := by
  have noDot : '.' ∉ (temporaryName k).toList := by
    rw [toList_temporaryName]
    intro h
    rcases List.mem_append.mp h with h | h
    · exact absurd h (by decide)
    · exact absurd (Nat.isDigit_of_mem_toDigits (by decide) (by decide) h) (by decide)
  rw [splitName, splitAtDots_eq_singleton noDot, List.map_singleton, String.ofList_toList]

end Hoist

/-! ## Tokens -/

/-- A text of such characters is plain. -/
theorem isPlain_of_isNamePart (h : ∀ c ∈ name.toList, IsNamePart c) : IsPlain name := by
  intro dollar
  rcases h _ dollar with isName | isDot
  · exact absurd isName (by decide)
  · exact absurd isDot (by decide)

theorem ofPair?_ne_identifier (a b : Char) : TokenKind.ofPair? a b ≠ some .identifier := by
  unfold TokenKind.ofPair?
  split <;> simp

theorem ofChar?_ne_identifier (c : Char) : TokenKind.ofChar? c ≠ some .identifier := by
  unfold TokenKind.ofChar?
  split <;> simp

theorem IsToken.isNamePart {number : Option Number} {text : List Char}
    (h : IsToken .identifier number text) : ∀ c ∈ text, IsNamePart c := by
  generalize eq : TokenKind.identifier = kind at h
  cases h with
  | number read =>
    unfold Number.tokenKind at eq
    split at eq <;> cases eq
  | word name => exact name
  | pair symbol => exact absurd (eq ▸ symbol) (ofPair?_ne_identifier _ _)
  | single symbol => exact absurd (eq ▸ symbol) (ofChar?_ne_identifier _)

theorem Cut.isNamePart {file : String} {before text : List Char} {ts : List Token}
    {ds : List Directive} (h : Cut file before text ts ds) :
    ∀ t ∈ ts, t.kind = .identifier → ∀ c ∈ t.text.toList, IsNamePart c := by
  induction h with
  | finish => exact List.forall_mem_nil _
  | skip _ _ _ ih => exact ih
  | directive _ _ _ ih => exact ih
  | token _ token _ ih =>
    refine List.forall_mem_cons.mpr ⟨fun identifier => ?_, ih⟩
    cases identifier
    rw [String.toList_ofList]
    exact token.isNamePart

/-- Names in a text are of the characters that names may hold. -/
theorem ensures_scan (source file : String) :
    Ensures (scan source file) fun l =>
      ∀ t ∈ l.tokens, t.kind = .identifier → ∀ c ∈ t.text.toList, IsNamePart c :=
  fun l read => (ensures_scanFrom_cut file [] source.toList l read).1.isNamePart

/-! ## Files -/

def FileTree.IsPlain (t : FileTree Term) : Prop := ∀ f ∈ t.functions, ∀ m ∈ f.body.names, m.Plain

variable {t : FileTree Term}

theorem FileTree.isPlain_of_parse {source file : String} {l : Lexed}
    (scanned : scan source file = .ok l) (parsed : parse l name = .ok t) : t.IsPlain := by
  intro f hf m hm
  have mem : m ∈ collectBodies .names t.functions := List.mem_flatMap.mpr ⟨f, hf, hm⟩
  obtain ⟨k, hk, identifier, rfl⟩ := (ensures_parse l name t parsed).names_mem m mem
  exact ⟨isPlain_of_isNamePart (ensures_scan source file l scanned k hk identifier), rfl⟩

/-- Making operators conditional brings no names. -/
theorem FileTree.WellFormed.names_shorten {P : Mention → Prop}
    (wf : t.WellFormed) (h : ∀ f ∈ t.functions, ∀ m ∈ f.body.names, P m) :
    ∀ f ∈ t.shorten.functions, ∀ m ∈ f.body.names, P m := by
  have bodies : List.Forall₂ (fun _ g => (∀ m ∈ g.body.names, P m) ∧ True) t.functions
      t.shorten.functions := by
    refine ensures_functionsOf (m := StateM Nat) t.items (fun f hf => ?_) t.nextBlock
    refine ensures_bind (P := fun b => ∀ m ∈ b.names, P m) (fun n => ?_) fun b hb =>
      ensures_pure ⟨hb, trivial⟩
    have gathered := (ShortCircuit.ensures_block (c := .names) ⟨fun _ => rfl, fun _ _ => rfl⟩ f.body
      (ItemsWellFormed.forall_functions wf f hf) n).1
    exact gathered.forall_mem (fun _ => rfl) (h f hf)
  exact ((List.forall₂_and_left _ _).mp bodies.flip).1

theorem FileTree.IsPlain.shorten (h : t.IsPlain) (wf : t.WellFormed) : t.shorten.IsPlain :=
  wf.names_shorten h

end EbLang
