import EbLang.Build.FileStore
import EbLang.Build.Options
import Mathlib.Data.List.Basic

/-!
# What a write changes

A path has at most one place (`spot`), whatever the store.  A write puts a file there if the place can
be reached and no directory stands there; nothing else changes.  The listing of a module has its place
in the directory for outputs, under the name of the module.
-/

namespace EbLang

namespace FileStore

def spot (p : Path) : Place := (namesOf p).foldl next []

variable {s t : FileStore} {p : Path} {place q : Place}

theorem eq_foldl_of_reach {names : List String} (h : s.reach place names = .ok q) :
    q = names.foldl next place := by
  induction names generalizing place with
  | nil =>
    cases h
    rfl
  | cons name names ih =>
    simp only [reach] at h
    split at h
    · split at h
      · cases h
      · exact ih h
    · cases h
    · cases h

theorem eq_spot_of_place (h : s.place p = .ok q) : q = spot p := by
  simp only [FileStore.place] at h
  split at h
  · cases h
  · split at h
    · cases h
    · split at h
      · cases h
      · exact eq_foldl_of_reach h

/-- A write puts the file at the place of its path. -/
theorem eq_put_of_write {content : Bytes} {stamp : Stamp} (h : s.write p content stamp = .ok t) :
    t = s.put (spot p) (.file content stamp) := by
  rw [write] at h
  cases reached : s.place p with
  | error e =>
    rw [reached] at h
    cases h
  | ok q =>
    rw [reached] at h
    rw [← eq_spot_of_place reached]
    simp only [bind, Except.bind] at h
    split at h
    · cases h
    · split at h
      · cases h
      · cases h
        rfl

end FileStore

/-! ## Places of outputs -/

namespace Path

variable {name : String}

theorem splitAtSlashes_ne_nil (cs : List Char) : splitAtSlashes cs ≠ [] := by
  cases cs with
  | nil => simp [splitAtSlashes]
  | cons c cs =>
    simp only [splitAtSlashes]
    split
    · simp
    · split
      · simp
      · simp

theorem splitAtSlashes_append (cs ds : List Char) :
    splitAtSlashes (cs ++ '/' :: ds) = splitAtSlashes cs ++ splitAtSlashes ds := by
  induction cs with
  | nil => rfl
  | cons c cs ih =>
    rw [List.cons_append, splitAtSlashes, splitAtSlashes, ih]
    split
    · rfl
    · cases parts : splitAtSlashes cs with
      | nil => exact absurd parts (splitAtSlashes_ne_nil cs)
      | cons part parts => rfl

theorem splitAtSlashes_of_notMem {cs : List Char} (h : '/' ∉ cs) : splitAtSlashes cs = [cs] := by
  induction cs with
  | nil => rfl
  | cons c cs ih =>
    have first := List.ne_of_not_mem_cons h
    rw [splitAtSlashes, if_neg (Ne.symm first), ih (List.not_mem_of_not_mem_cons h)]

/-- A name that can stand between slashes. -/
structure IsName (name : String) : Prop where
  noSlash : '/' ∉ name.toList
  nonempty : name ≠ ""
  notHere : name ≠ "."
  notAround : name ≠ ".."

theorem parts_of_isName (h : IsName name) : parts ⟨name⟩ = [name] := by
  rw [parts, splitAtSlashes_of_notMem h.noSlash]
  simp [h.nonempty, h.notHere]

theorem head?_ne_slash (h : IsName name) : (name.toList.head? == some '/') = false := by
  cases chars : name.toList with
  | nil => rfl
  | cons c cs =>
    have noSlash := h.noSlash
    rw [chars] at noSlash
    simpa using Ne.symm (List.ne_of_not_mem_cons noSlash)

theorem parts_of_slash {text : String} {cs ds : List Char} (h : text.toList = cs ++ '/' :: ds) :
    parts ⟨text⟩ = parts ⟨String.ofList cs⟩ ++ parts ⟨String.ofList ds⟩ := by
  simp only [parts, h, splitAtSlashes_append, List.map_append, List.filter_append,
    String.toList_ofList]

theorem namesOf_append {p : Path} {text : String} {more : List String} (h : p.text.toList ≠ [])
    (parts : parts ⟨p.text ++ text⟩ = p.parts ++ more) :
    FileStore.namesOf ⟨p.text ++ text⟩ = FileStore.namesOf p ++ more := by
  have absolute : isAbsolute ⟨p.text ++ text⟩ = p.isAbsolute := by
    simp only [isAbsolute, String.toList_append, List.head?_append_of_ne_nil _ h]
  rw [FileStore.namesOf, absolute, parts, FileStore.namesOf]
  split
  · rfl
  · rfl

/-- The names of a path inside a directory. -/
theorem namesOf_join (h : IsName name) (p : Path) :
    FileStore.namesOf (p.join name) = FileStore.namesOf p ++ [name] := by
  rw [join, head?_ne_slash h, Bool.false_or]
  split
  · rename_i empty
    have text : p.text = "" := String.isEmpty_iff.mp empty
    have around : FileStore.namesOf p = [] := by
      cases p
      cases text
      rfl
    rw [FileStore.namesOf, isAbsolute, head?_ne_slash h, around, parts_of_isName h]
    rfl
  · rename_i spelled
    have some : p.text.toList ≠ [] := by
      intro none
      exact spelled (String.isEmpty_iff.mpr (String.toList_eq_nil_iff.mp none))
    split
    · rename_i slash
      obtain ⟨cs, chars⟩ : ∃ cs, p.text.toList = cs ++ ['/'] := by
        refine ⟨p.text.toList.dropLast, ?_⟩
        rw [← List.dropLast_append_getLast some]
        simpa [List.getLast?_eq_some_getLast some] using slash
      refine namesOf_append some ?_
      have whole : (p.text ++ name).toList = cs ++ '/' :: name.toList := by simp [chars]
      rw [parts_of_slash whole, String.ofList_toList, parts_of_isName h]
      have front := parts_of_slash chars
      have nothing : parts ⟨String.ofList []⟩ = [] := rfl
      rw [show p.parts = parts ⟨p.text⟩ from rfl, front, nothing, List.append_nil]
    · rw [String.append_assoc]
      refine namesOf_append some ?_
      have whole : (p.text ++ ("/" ++ name)).toList = p.text.toList ++ '/' :: name.toList := by simp
      rw [parts_of_slash whole, String.ofList_toList, String.ofList_toList, parts_of_isName h]

theorem spot_join (h : IsName name) (p : Path) :
    FileStore.spot (p.join name) = FileStore.spot p ++ [name] := by
  rw [FileStore.spot, namesOf_join h, List.foldl_append]
  simp only [List.foldl_cons, List.foldl_nil, FileStore.next, FileStore.spot]
  rw [if_pos (by simp [h.notAround])]

end Path

namespace Options

variable {name : String}

theorem noSlash_of_isIdentifier (h : isIdentifier name = true) : '/' ∉ name.toList := by
  have noLetter : (Text.isLetter '/' || '/' == '_') = false := by decide +kernel
  have neither : (Text.isLetterOrDigit '/' || '/' == '_') = false := by decide +kernel
  simp only [isIdentifier] at h
  split at h
  · cases h
  · rename_i c cs chars
    obtain ⟨first, others⟩ := (Bool.and_eq_true _ _).mp h
    rw [chars]
    intro slash
    rcases List.mem_cons.mp slash with rfl | inner
    · rw [noLetter] at first
      cases first
    · have allowed := List.all_eq_true.mp others '/' inner
      rw [neither] at allowed
      cases allowed

theorem isName_append {extension : String} (h : isIdentifier name = true)
    (noSlash : '/' ∉ extension.toList) (long : 3 ≤ extension.toList.length) :
    Path.IsName (name ++ extension) := by
  have other (text : String) (short : text.toList.length < 3) : name ++ extension ≠ text := by
    rintro rfl
    simp only [String.toList_append, List.length_append] at short
    omega
  refine ⟨?_, other "" (by decide), other "." (by decide), other ".." (by decide)⟩
  simpa [noSlash] using noSlash_of_isIdentifier h

theorem isName_listing (h : isIdentifier name = true) : Path.IsName (name ++ ".ir") :=
  isName_append h (by decide) (by decide)

variable (o : Options)

theorem spot_listingPath (h : isIdentifier name = true) :
    FileStore.spot (o.listingPath name) = FileStore.spot o.outBuild ++ [name ++ ".ir"] :=
  Path.spot_join (isName_listing h) o.outBuild

end Options

end EbLang
