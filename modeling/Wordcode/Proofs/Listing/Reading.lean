import Wordcode.Proofs.Text.Pieces
import Wordcode.Proofs.Word.Spelling

/-!
# Reading the lines of a listing

What reading makes of a line of each kind (`reads_readLine`), and of a run of lines: it succeeds
with the entries that the lines hold (`readLines_eq_ok_iff`), or fails with the error of the first
line that cannot be read (`readLines_eq_error_iff`). So reading decides the language of listings: it
accepts the texts all of whose lines are well formed with words for tokens, gives the entries that
these lines hold, and rejects every other text for the first of its lines that is not so.
-/

namespace Wordcode.Listing

/-! ### One line -/

section Line

variable {number : Nat} {line token : List Char}

theorem readLine_of_malformed (h : ¬ ∃ token, HasToken line token) :
    readLine number line = .error (.malformedLine number (String.ofList (Text.trim line))) := by
  rw [readLine, token?_eq_none_iff.2 h]

theorem readLine_of_bare (h : HasToken line []) : readLine number line = .ok none := by
  rw [readLine, token?_eq_some_iff.2 h]

theorem readLine_of_word {w : Word} (h : HasToken line token) (hw : Word.Spells token w) :
    readLine number line = .ok (some ⟨number, w⟩) := by
  rw [readLine, token?_eq_some_iff.2 h]
  cases token with
  | nil => exact absurd rfl hw.ne_nil
  | cons c token =>
    dsimp only
    rw [Word.ofSpelling?_eq_some_iff_spells.2 hw]

theorem readLine_of_invalid (h : HasToken line token) (hne : token ≠ [])
    (hw : ¬ ∃ w, Word.Spells token w) :
    readLine number line = .error (.invalidWord number (String.ofList token)) := by
  rw [readLine, token?_eq_some_iff.2 h]
  cases token with
  | nil => exact absurd rfl hne
  | cons c token =>
    dsimp only
    rw [Word.ofSpelling?_eq_none_iff.2 hw]

/-- What reading makes of a line, told by the form of the line. -/
inductive Reads (number : Nat) (line : List Char) : Except ListingError (Option Entry) → Prop
  | malformed : (¬ ∃ token, HasToken line token) →
      Reads number line (.error (.malformedLine number (String.ofList (Text.trim line))))
  | bare : HasToken line [] → Reads number line (.ok none)
  | word {token : List Char} {w : Word} : HasToken line token → Word.Spells token w →
      Reads number line (.ok (some ⟨number, w⟩))
  | invalid {token : List Char} : HasToken line token → token ≠ [] →
      (¬ ∃ w, Word.Spells token w) →
      Reads number line (.error (.invalidWord number (String.ofList token)))

theorem reads_readLine (number : Nat) (line : List Char) :
    Reads number line (readLine number line) := by
  by_cases hformed : ∃ token, HasToken line token
  · obtain ⟨token, htoken⟩ := hformed
    by_cases hnil : token = []
    · rw [hnil] at htoken
      rw [readLine_of_bare htoken]
      exact Reads.bare htoken
    · by_cases hword : ∃ w, Word.Spells token w
      · obtain ⟨w, hw⟩ := hword
        rw [readLine_of_word htoken hw]
        exact Reads.word htoken hw
      · rw [readLine_of_invalid htoken hnil hword]
        exact Reads.invalid htoken hnil hword
  · rw [readLine_of_malformed hformed]
    exact Reads.malformed hformed

theorem readLine_eq_none_iff : readLine number line = .ok none ↔ HasToken line [] := by
  refine ⟨fun h => ?_, readLine_of_bare⟩
  have hreads := reads_readLine number line
  rw [h] at hreads
  cases hreads with
  | bare htoken => exact htoken

theorem readLine_eq_some_iff {e : Entry} :
    readLine number line = .ok (some e) ↔
      e.line = number ∧ ∃ token, HasToken line token ∧ Word.Spells token e.word := by
  refine ⟨fun h => ?_, fun h => ?_⟩
  · have hreads := reads_readLine number line
    rw [h] at hreads
    cases hreads with
    | word htoken hw => exact ⟨rfl, _, htoken, hw⟩
  · obtain ⟨hline, token, htoken, hw⟩ := h
    rw [readLine_of_word htoken hw, ← hline]

theorem readLine_eq_malformedLine_iff {k : Nat} {s : String} :
    readLine number line = .error (.malformedLine k s) ↔
      k = number ∧ (¬ ∃ token, HasToken line token) ∧ s = String.ofList (Text.trim line) := by
  refine ⟨fun h => ?_, fun h => ?_⟩
  · have hreads := reads_readLine number line
    rw [h] at hreads
    cases hreads with
    | malformed hformed => exact ⟨rfl, hformed, rfl⟩
  · obtain ⟨hnumber, hformed, hs⟩ := h
    rw [readLine_of_malformed hformed, hnumber, hs]

theorem readLine_eq_invalidWord_iff {k : Nat} {s : String} :
    readLine number line = .error (.invalidWord k s) ↔
      k = number ∧ HasToken line s.toList ∧ s.toList ≠ [] ∧ ¬ ∃ w, Word.Spells s.toList w := by
  refine ⟨fun h => ?_, fun h => ?_⟩
  · have hreads := reads_readLine number line
    rw [h] at hreads
    cases hreads with
    | invalid htoken hne hw =>
      rw [String.toList_ofList]
      exact ⟨rfl, htoken, hne, hw⟩
  · obtain ⟨hnumber, htoken, hne, hw⟩ := h
    rw [readLine_of_invalid htoken hne hw, hnumber, String.ofList_toList]

end Line

/-! ### Runs of lines -/

theorem readLines_cons (number : Nat) (line : List Char) (rest : List (List Char)) :
    readLines number (line :: rest) =
      readLine number line >>= fun entry =>
        readLines (number + 1) rest >>= fun entries => .ok (entry.toList ++ entries) := rfl

theorem readLines_append (number : Nat) (first second : List (List Char)) :
    readLines number (first ++ second) =
      readLines number first >>= fun entries =>
        readLines (number + first.length) second >>= fun others => .ok (entries ++ others) := by
  induction first generalizing number with
  | nil =>
    show readLines number second = readLines number second >>= fun others => .ok others
    cases readLines number second <;> rfl
  | cons line first ih =>
    have hnumber : number + 1 + first.length = number + (line :: first).length := by
      rw [List.length_cons]
      omega
    rw [List.cons_append, readLines_cons, readLines_cons, ih, hnumber]
    cases readLine number line with
    | error e => rfl
    | ok entry =>
      cases readLines (number + 1) first with
      | error e => rfl
      | ok entries =>
        show (readLines _ second >>= fun others => .ok (entries ++ others)) >>= (fun all =>
          .ok (entry.toList ++ all)) =
            readLines _ second >>= fun others => .ok (entry.toList ++ entries ++ others)
        cases readLines (number + (line :: first).length) second with
        | error e => rfl
        | ok others => exact congrArg Except.ok (List.append_assoc ..).symm

theorem holds_of_readLines {number : Nat} {lines : List (List Char)} {entries : List Entry}
    (h : readLines number lines = .ok entries) : Holds number lines entries := by
  induction lines generalizing number entries with
  | nil =>
    cases h
    exact Holds.nil
  | cons line rest ih =>
    rw [readLines_cons, bind_eq_ok_iff] at h
    obtain ⟨entry, hentry, h⟩ := h
    rw [bind_eq_ok_iff] at h
    obtain ⟨others, hothers, h⟩ := h
    cases h
    have hrest := ih hothers
    cases entry with
    | none => exact Holds.bare (readLine_eq_none_iff.1 hentry) hrest
    | some e =>
      obtain ⟨hline, token, htoken, hw⟩ := readLine_eq_some_iff.1 hentry
      rw [← hline] at hrest ⊢
      exact Holds.word htoken hw hrest

theorem readLines_of_holds {number : Nat} {lines : List (List Char)} {entries : List Entry}
    (h : Holds number lines entries) : readLines number lines = .ok entries := by
  induction h with
  | nil => rfl
  | bare hbare _ ih =>
    rw [readLines_cons, readLine_of_bare hbare, ih]
    rfl
  | word htoken hw _ ih =>
    rw [readLines_cons, readLine_of_word htoken hw, ih]
    rfl

theorem readLines_eq_ok_iff {number : Nat} {lines : List (List Char)} {entries : List Entry} :
    readLines number lines = .ok entries ↔ Holds number lines entries :=
  ⟨holds_of_readLines, readLines_of_holds⟩

theorem readLines_eq_error_iff {number : Nat} {lines : List (List Char)} {e : ListingError} :
    readLines number lines = .error e ↔
      ∃ before line after entries, lines = before ++ line :: after ∧
        Holds number before entries ∧ readLine (number + before.length) line = .error e := by
  refine ⟨?_, ?_⟩
  · intro h
    induction lines generalizing number with
    | nil => cases h
    | cons line rest ih =>
      rw [readLines_cons, bind_eq_error_iff] at h
      rcases h with h | ⟨entry, hentry, h⟩
      · exact ⟨[], line, rest, [], rfl, Holds.nil, h⟩
      · rw [bind_eq_error_iff] at h
        rcases h with h | ⟨others, _, h⟩
        · obtain ⟨before, bad, after, entries, hrest, hbefore, hbad⟩ := ih h
          have hfirst : readLines number (line :: before) = .ok (entry.toList ++ entries) := by
            rw [readLines_cons, hentry, readLines_of_holds hbefore]
            rfl
          have hnumber : number + (line :: before).length = number + 1 + before.length := by
            rw [List.length_cons]
            omega
          refine ⟨line :: before, bad, after, _, ?_, holds_of_readLines hfirst, ?_⟩
          · rw [hrest, List.cons_append]
          · rw [hnumber, hbad]
        · cases h
  · intro h
    obtain ⟨before, line, after, entries, hlines, hbefore, hline⟩ := h
    rw [hlines, readLines_append, readLines_of_holds hbefore, readLines_cons, hline]
    rfl

/-! ### Texts -/

/-- Reading a text, in terms of its lines: their entries if all of them are in order, and otherwise
the first line that is not, as malformed with its text trimmed, or with its token if that is what
is wrong. -/
theorem parse_decides_listing (text : String) :
    Text.lines text.toList = Text.linesOfPieces (text.toList.splitOn '\n') ∧
    (∀ entries, parse text = .ok entries ↔ Holds 1 (Text.lines text.toList) entries) ∧
    (∀ k s, parse text = .error (.malformedLine k s) ↔
      ∃ before line after entries, Text.lines text.toList = before ++ line :: after ∧
        Holds 1 before entries ∧ k = before.length + 1 ∧
        (¬ ∃ token, HasToken line token) ∧ s = String.ofList (Text.trim line)) ∧
    (∀ k s, parse text = .error (.invalidWord k s) ↔
      ∃ before line after entries, Text.lines text.toList = before ++ line :: after ∧
        Holds 1 before entries ∧ k = before.length + 1 ∧
        HasToken line s.toList ∧ s.toList ≠ [] ∧ ¬ ∃ w, Word.Spells s.toList w) := by
  refine ⟨Text.lines_eq_linesOfPieces _, fun entries => readLines_eq_ok_iff, ?_, ?_⟩
  · intro k s
    simp only [parse, readLines_eq_error_iff, readLine_eq_malformedLine_iff, Nat.add_comm 1]
  · intro k s
    simp only [parse, readLines_eq_error_iff, readLine_eq_invalidWord_iff, Nat.add_comm 1]

end Wordcode.Listing
