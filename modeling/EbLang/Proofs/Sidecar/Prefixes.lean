import EbLang.Proofs.Sidecar

/-!
# Sidecars cut short or run on

A file that was cut short is never taken for a smaller sidecar, nor one that runs on for a larger one.
Every reader is *confined*: it takes some bytes from the front, and would take the same ones whatever
stood behind them, or fails for a stated reason.  Readers in sequence are confined if each of them is.
So where a sidecar ends is told by its own bytes, and the test for its end refuses any others.
-/

namespace EbLang.Sidecar

variable {α β : Type} {r : Reader α} {f : α → Reader β} {bs : Bytes}

/-- A reader takes bytes from the front, the same ones whatever follows them, or it fails for a stated
reason. -/
def Confined (r : Reader α) : Prop :=
  ∀ bs, (∃ front rest a, bs = front ++ rest ∧ Reads r front a) ∨
    ∃ message, r.run bs = .error (.artifactError message)

theorem confined_pure (a : α) : Confined (pure a) :=
  fun bs => .inl ⟨[], bs, a, rfl, reads_pure a⟩

theorem confined_invalid (message : String) : Confined (invalid (α := α) message) :=
  fun _ => .inr ⟨message, rfl⟩

theorem confined_bind (first : Confined r) (second : ∀ a, Confined (f a)) : Confined (r >>= f) := by
  intro bs
  rcases first bs with ⟨front, rest, a, rfl, taken⟩ | ⟨message, failed⟩
  · rcases second a rest with ⟨front', rest', b, rfl, taken'⟩ | ⟨message, failed⟩
    · exact .inl ⟨front ++ front', rest', b, (List.append_assoc ..).symm, reads_bind taken taken'⟩
    · exact .inr ⟨message, (taken.run_bind rest).trans failed⟩
  · refine .inr ⟨message, ?_⟩
    rw [StateT.run_bind, failed]
    rfl

theorem confined_take (count : Nat) : Confined (take count) := by
  intro bs
  by_cases short : bs.length < count
  · exact .inr ⟨_, by rw [run_take, if_pos short]⟩
  · have taken := reads_take (bs.take count)
    rw [List.length_take_of_le (Nat.le_of_not_lt short)] at taken
    exact .inl ⟨bs.take count, bs.drop count, _, (List.take_append_drop count bs).symm, taken⟩

theorem confined_readNat (width : Nat) : Confined (readNat width) :=
  confined_bind (confined_take width) fun _ => confined_pure _

theorem confined_readName : Confined readName := by
  intro bs
  cases run : readName.run bs with
  | ok result =>
    obtain ⟨front, whole, rfl, isName⟩ := takes_readName bs result.1 result.2 run
    exact .inl ⟨_, result.2, result.1, whole, reads_readName isName⟩
  | error fault =>
    right
    rw [run_readName] at run
    split at run
    · cases run
      exact ⟨_, rfl⟩
    · split at run
      · cases run
        exact ⟨_, rfl⟩
      · cases run

theorem confined_readPrim : Confined readPrim := by
  refine confined_bind (confined_readNat 1) fun byte => ?_
  split
  · exact confined_pure _
  · exact confined_invalid _

theorem confined_readMany (h : Confined r) : ∀ n, Confined (readMany r n)
  | 0 => confined_pure _
  | n + 1 => confined_bind h fun _ => confined_bind (confined_readMany h n) fun _ => confined_pure _

theorem confined_readList (h : Confined r) : Confined (readList r) :=
  confined_bind (confined_readNat 4) fun n => confined_readMany h n

theorem confined_readFunction : Confined readFunction :=
  confined_bind confined_readName fun _ => confined_bind confined_readPrim fun _ =>
    confined_bind (confined_readNat 1) fun n =>
      confined_bind (confined_readMany confined_readPrim n) fun _ => confined_pure _

theorem confined_readGlobal : Confined readGlobal :=
  confined_bind (confined_readNat 1) fun _ => confined_bind confined_readName fun _ =>
    confined_bind confined_readPrim fun _ => confined_bind (confined_readNat 8) fun _ => confined_pure _

theorem confined_contents : Confined contents := by
  have parts : Confined (do
      let listing ← take (← readNat 8)
      let includes ← readList readName
      let functions ← readList readFunction
      let globals ← readList readGlobal
      return (⟨listing, includes, functions, globals⟩ : Sidecar)) :=
    confined_bind (confined_readNat 8) fun n => confined_bind (confined_take n) fun _ =>
      confined_bind (confined_readList confined_readName) fun _ =>
        confined_bind (confined_readList confined_readFunction) fun _ =>
          confined_bind (confined_readList confined_readGlobal) fun _ => confined_pure _
  refine confined_bind (confined_take 3) fun header => ?_
  split
  · exact confined_bind (confined_invalid _) fun _ => parts
  · exact parts

/-- What is left after a sidecar is not taken for a part of it. -/
theorem decode_append {front : Bytes} {s : Sidecar} (h : Reads contents front s) (rest : Bytes) :
    decode (front ++ rest) =
      if rest.isEmpty then .ok s else .error (.artifactError "trailing bytes") := by
  unfold decode
  rw [reader_eq, h.run_bind, run_finish]
  split <;> rfl

/-- Bytes are a sidecar, or a sidecar and more, or they are none for a stated reason. -/
theorem decode_cases (bs : Bytes) :
    (∃ front rest s, bs = front ++ rest ∧ Reads contents front s) ∨
      ∃ message, decode bs = .error (.artifactError message) := by
  rcases confined_contents bs with taken | ⟨message, failed⟩
  · exact .inl taken
  · refine .inr ⟨message, ?_⟩
    unfold decode
    rw [reader_eq, StateT.run_bind, failed]
    rfl

theorem reads_of_decode {s : Sidecar} (h : decode bs = .ok s) : Reads contents bs s := by
  rcases decode_cases bs with ⟨front, rest, s', rfl, taken⟩ | ⟨message, failed⟩
  · rw [decode_append taken] at h
    split at h
    next empty =>
      cases h
      rwa [List.isEmpty_iff.mp empty, List.append_nil]
    next => cases h
  · rw [failed] at h
    cases h

/-- Sidecars are told apart from any text that begins with one or that one begins with, and whatever
the bytes are, every reader stays within them and the outcome is a sidecar or a stated reason. -/
theorem decode_prefixFree (bs : Bytes) :
    (∀ s, decode bs = .ok s →
      (∀ more, more ≠ [] → ∃ message, decode (bs ++ more) = .error (.artifactError message)) ∧
      ∀ front rest, bs = front ++ rest → rest ≠ [] →
        ∃ message, decode front = .error (.artifactError message)) ∧
    (∀ count, Confined (take count)) ∧ Confined readName ∧ Confined contents ∧
    ((∃ s, decode bs = .ok s) ∨ ∃ message, decode bs = .error (.artifactError message)) := by
  have longer : ∀ {bs s}, decode bs = .ok s → ∀ more, more ≠ [] →
      decode (bs ++ more) = .error (.artifactError "trailing bytes") := by
    intro bs s read more some
    rw [decode_append (reads_of_decode read), if_neg (by simpa using some)]
  have outcome : ∀ bs, (∃ s, decode bs = .ok s) ∨
      ∃ message, decode bs = .error (.artifactError message) := by
    intro bs
    rcases decode_cases bs with ⟨front, rest, s, rfl, taken⟩ | failed
    · rw [decode_append taken]
      split
      · exact .inl ⟨s, rfl⟩
      · exact .inr ⟨_, rfl⟩
    · exact .inr failed
  refine ⟨fun s read => ⟨fun more some => ⟨_, longer read more some⟩, ?_⟩, confined_take,
    confined_readName, confined_contents, outcome bs⟩
  rintro front rest rfl some
  refine (outcome front).resolve_left ?_
  rintro ⟨s', short⟩
  rw [longer short rest some] at read
  cases read

theorem decode_prefixFree_oddBytes :
    decode oddBytes = .ok oddSidecar ∧
      (∃ message, decode (oddBytes ++ [0]) = .error (.artifactError message)) ∧
      ∃ message, decode oddBytes.dropLast = .error (.artifactError message) := by
  have read : decode oddBytes = .ok oddSidecar := rfl
  obtain ⟨longer, shorter⟩ := (decode_prefixFree oddBytes).1 oddSidecar read
  exact ⟨read, longer [0] (by decide), shorter oddBytes.dropLast [0] (by decide +kernel) (by decide)⟩

end EbLang.Sidecar
