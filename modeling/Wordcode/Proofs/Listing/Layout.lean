import Wordcode.Proofs.Listing.Reading

/-!
# Layouts of a list of entries

A list of entries can be laid out as a text in many ways: with any spelling of its words, blanks
and comments around them, lines without a word between them, and either end for each line. Every
layout reads back as the same entries (`parse_ofLines`), and what is read from any text is laid out
there (`laidOut_of_holds`), so that exactly the lists with ascending line numbers come out.
-/

namespace Wordcode.Listing

/-! ### Lines -/

/-- The line shows a text, with blanks on either side of it and perhaps a comment behind. -/
def Shows (line text : List Char) : Prop :=
  ∃ before after comment,
    line = before ++ text ++ after ++ comment ∧
    (∀ c ∈ before, Text.isBlank c = true) ∧
    (∀ c ∈ after, Text.isBlank c = true) ∧
    IsComment comment

theorem hasToken_iff_shows {line token : List Char} :
    HasToken line token ↔ Shows line token ∧ ∀ c ∈ token, isTokenChar c = true := by
  refine ⟨?_, ?_⟩
  · intro h
    obtain ⟨before, after, comment, hline, hbefore, htoken, hafter, hcomment⟩ := h
    exact ⟨⟨before, after, comment, hline, hbefore, hafter, hcomment⟩, htoken⟩
  · intro h
    obtain ⟨⟨before, after, comment, hline, hbefore, hafter, hcomment⟩, htoken⟩ := h
    exact ⟨before, after, comment, hline, hbefore, htoken, hafter, hcomment⟩

theorem hasToken_nil_iff {line : List Char} : HasToken line [] ↔ Shows line [] := by
  rw [hasToken_iff_shows, and_iff_left (List.forall_mem_nil _)]

theorem hasToken_of_spells {line spelling : List Char} {w : Word} (h : Shows line spelling)
    (hw : Word.Spells spelling w) : HasToken line spelling :=
  hasToken_iff_shows.2 ⟨h, hw.isTokenChar⟩

/-! ### Layouts -/

theorem getElem?_cons_sub (line : List Char) (lines : List (List Char)) {number m : Nat}
    (h : number + 1 ≤ m) : (line :: lines)[m - number]? = lines[m - (number + 1)]? := by
  have hindex : m - number = m - (number + 1) + 1 := by omega
  rw [hindex, List.getElem?_cons_succ]

/-- Of these lines, the first of which has the given number, the ones with the numbers of entries
show the words of the entries in some spelling, and no other line shows anything. -/
structure LaidOut (number : Nat) (lines : List (List Char)) (entries : List Entry) : Prop where
  ascending : entries.Pairwise fun e f => e.line < f.line
  number_le : ∀ e ∈ entries, number ≤ e.line
  word : ∀ e ∈ entries, ∃ line spelling, lines[e.line - number]? = some line ∧
    Shows line spelling ∧ Word.Spells spelling e.word
  bare : ∀ k line, lines[k]? = some line → (∀ e ∈ entries, e.line ≠ number + k) → Shows line []

namespace LaidOut

variable {number : Nat} {line : List Char} {lines : List (List Char)} {entries : List Entry}

theorem nil (number : Nat) : LaidOut number [] [] where
  ascending := List.Pairwise.nil
  number_le := List.forall_mem_nil _
  word := List.forall_mem_nil _
  bare _ _ h := by cases h

theorem cons_bare (hline : Shows line []) (h : LaidOut (number + 1) lines entries) :
    LaidOut number (line :: lines) entries where
  ascending := h.ascending
  number_le f hf := Nat.le_of_succ_le (h.number_le f hf)
  word f hf := by
    rw [getElem?_cons_sub line lines (h.number_le f hf)]
    exact h.word f hf
  bare k other hk hnone := by
    cases k with
    | zero => exact Option.some.inj hk ▸ hline
    | succ k =>
      refine h.bare k other hk fun f hf hnumber => hnone f hf ?_
      omega

theorem cons_word {spelling : List Char} {w : Word} (hline : Shows line spelling)
    (hw : Word.Spells spelling w) (h : LaidOut (number + 1) lines entries) :
    LaidOut number (line :: lines) (⟨number, w⟩ :: entries) where
  ascending := List.pairwise_cons.2 ⟨fun f hf => h.number_le f hf, h.ascending⟩
  number_le := List.forall_mem_cons.2
    ⟨Nat.le_refl number, fun f hf => Nat.le_of_succ_le (h.number_le f hf)⟩
  word := by
    refine List.forall_mem_cons.2 ⟨⟨line, spelling, ?_, hline, hw⟩, ?_⟩
    · rw [Nat.sub_self, List.getElem?_cons_zero]
    · intro f hf
      rw [getElem?_cons_sub line lines (h.number_le f hf)]
      exact h.word f hf
  bare k other hk hnone := by
    obtain ⟨hfirst, hrest⟩ := List.forall_mem_cons.1 hnone
    cases k with
    | zero => exact absurd rfl hfirst
    | succ k =>
      refine h.bare k other hk fun f hf hnumber => hrest f hf ?_
      omega

/-- What is left of a layout without its first line is a layout of the entries on later lines. -/
theorem tail (h : LaidOut number (line :: lines) entries) {others : List Entry}
    (hsub : others.Sublist entries) (hlater : ∀ f ∈ others, number < f.line)
    (hkept : ∀ f ∈ entries, number < f.line → f ∈ others) :
    LaidOut (number + 1) lines others where
  ascending := h.ascending.sublist hsub
  number_le := hlater
  word f hf := by
    rw [← getElem?_cons_sub line lines (hlater f hf)]
    exact h.word f (hsub.subset hf)
  bare k other hk hnone := by
    refine h.bare (k + 1) other hk fun f hf hnumber => ?_
    exact hnone f (hkept f hf (by omega)) (by omega)

theorem later_of_ne (h : LaidOut number lines entries)
    (hfirst : ¬ ∃ w others, entries = ⟨number, w⟩ :: others) :
    ∀ f ∈ entries, number < f.line := by
  cases entries with
  | nil => exact List.forall_mem_nil _
  | cons e others =>
    have hle := h.number_le e (List.mem_cons_self ..)
    have hne : e.line ≠ number := fun heq => hfirst ⟨e.word, others, by rw [← heq]⟩
    have hascending := (List.pairwise_cons.1 h.ascending).1
    refine List.forall_mem_cons.2 ⟨by omega, fun f hf => ?_⟩
    have hlater := hascending f hf
    omega

/-- The first line of a layout shows the word of the first entry, or nothing. -/
theorem cases_cons (h : LaidOut number (line :: lines) entries) :
    (Shows line [] ∧ LaidOut (number + 1) lines entries) ∨
      ∃ spelling w others, entries = ⟨number, w⟩ :: others ∧ Shows line spelling ∧
        Word.Spells spelling w ∧ LaidOut (number + 1) lines others := by
  by_cases hfirst : ∃ w others, entries = ⟨number, w⟩ :: others
  · right
    obtain ⟨w, others, hentries⟩ := hfirst
    subst hentries
    obtain ⟨hlater, _⟩ := List.pairwise_cons.1 h.ascending
    obtain ⟨shown, spelling, hshown, hshows, hw⟩ := h.word _ (List.mem_cons_self ..)
    rw [Nat.sub_self, List.getElem?_cons_zero] at hshown
    rw [← Option.some.inj hshown] at hshows
    refine ⟨spelling, w, others, rfl, hshows, hw, ?_⟩
    refine h.tail (List.sublist_cons_self ..) hlater fun f hf hlt => ?_
    refine (List.mem_cons.1 hf).resolve_left fun heq => ?_
    rw [heq] at hlt
    exact Nat.lt_irrefl _ hlt
  · left
    have hlater := h.later_of_ne hfirst
    have hnone : ∀ f ∈ entries, f.line ≠ number + 0 := fun f hf => Nat.ne_of_gt (hlater f hf)
    exact ⟨h.bare 0 line rfl hnone, h.tail (List.Sublist.refl _) hlater fun f hf _ => hf⟩

end LaidOut

theorem laidOut_of_holds {number : Nat} {lines : List (List Char)} {entries : List Entry}
    (h : Holds number lines entries) : LaidOut number lines entries := by
  induction h with
  | nil => exact LaidOut.nil _
  | bare hbare _ ih => exact LaidOut.cons_bare (hasToken_nil_iff.1 hbare) ih
  | word htoken hw _ ih => exact LaidOut.cons_word (hasToken_iff_shows.1 htoken).1 hw ih

theorem holds_of_laidOut {number : Nat} {lines : List (List Char)} {entries : List Entry}
    (h : LaidOut number lines entries) : Holds number lines entries := by
  -- On the lines and not on the entries: a line without an entry moves the numbers on as well.
  induction lines generalizing number entries with
  | nil =>
    cases entries with
    | nil => exact Holds.nil
    | cons e entries =>
      obtain ⟨line, _, hline, _⟩ := h.word e (List.mem_cons_self ..)
      cases hline
  | cons line lines ih =>
    rcases h.cases_cons with ⟨hline, hrest⟩ | ⟨spelling, w, others, hentries, hline, hw, hrest⟩
    · exact Holds.bare (hasToken_nil_iff.2 hline) (ih hrest)
    · rw [hentries]
      exact Holds.word (hasToken_of_spells hline hw) hw (ih hrest)

/-! ### Texts -/

theorem Holds.not_line_end {number : Nat} {lines : List (List Char)} {entries : List Entry}
    (h : Holds number lines entries) : ∀ line ∈ lines, '\r' ∉ line ∧ '\n' ∉ line := by
  have hline : ∀ {line token : List Char}, HasToken line token → '\r' ∉ line ∧ '\n' ∉ line :=
    fun htoken => ⟨fun hc => (htoken.not_line_end _ hc).1 rfl,
      fun hc => (htoken.not_line_end _ hc).2 rfl⟩
  induction h with
  | nil => exact List.forall_mem_nil _
  | bare hbare _ ih => exact List.forall_mem_cons.2 ⟨hline hbare, ih⟩
  | word htoken _ _ ih => exact List.forall_mem_cons.2 ⟨hline htoken, ih⟩

theorem readLines_concat_nil (number : Nat) (lines : List (List Char)) :
    readLines number (lines ++ [[]]) = readLines number lines := by
  rw [readLines_append]
  cases readLines number lines with
  | error e => rfl
  | ok entries => exact congrArg Except.ok (List.append_nil entries)

theorem parse_ofLines {ended : List (List Char × Text.LineEnd)} {last : List Char}
    {entries : List Entry} (h : Holds 1 (ended.map Prod.fst ++ [last]) entries) :
    parse (String.ofList (Text.ofLines ended last)) = .ok entries := by
  have hfree := h.not_line_end
  have hended : ∀ p ∈ ended, '\r' ∉ p.1 ∧ '\n' ∉ p.1 := fun p hp =>
    hfree p.1 (List.mem_append_left _ (List.mem_map_of_mem hp))
  have hlast : '\n' ∉ last := (hfree last (List.mem_append_right _ (List.mem_singleton_self _))).2
  rw [parse, String.toList_ofList, Text.lines_ofLines hended hlast, ← readLines_of_holds h]
  -- An empty text behind the last end is no line, but read as one it would hold no entry.
  split
  · rename_i hnil
    rw [hnil, List.append_nil, readLines_concat_nil]
  · rfl

theorem parse_ended (lineEnd : Text.LineEnd) {lines : List (List Char)} {entries : List Entry}
    (h : Holds 1 lines entries) :
    parse (String.ofList (Text.ofLines (lines.map fun line => (line, lineEnd)) [])) =
      .ok entries := by
  apply parse_ofLines
  have hlines : (lines.map fun line => (line, lineEnd)).map Prod.fst = lines := by
    rw [List.map_map]
    exact List.map_id _
  rw [hlines, ← readLines_eq_ok_iff, readLines_concat_nil]
  exact readLines_of_holds h

theorem bounds_of_parse {text : String} {entries : List Entry} (h : parse text = .ok entries) :
    entries.Pairwise (fun e f => e.line < f.line) ∧
      ∀ e ∈ entries, 1 ≤ e.line ∧ e.line ≤ (Text.lines text.toList).length := by
  have hlaid := laidOut_of_holds (holds_of_readLines h)
  refine ⟨hlaid.ascending, fun e he => ⟨hlaid.number_le e he, ?_⟩⟩
  obtain ⟨line, _, hline, _⟩ := hlaid.word e he
  have hindex := (List.getElem?_eq_some_iff.1 hline).1
  omega

/-! ### Writing -/

/-- The lines of a plain layout: every word as written, and lines without anything in between. -/
def writtenLines (number : Nat) : List Entry → List (List Char)
  | [] => []
  | e :: entries =>
    List.replicate (e.line - number) [] ++ e.word.written :: writtenLines (e.line + 1) entries

def write (entries : List Entry) : String :=
  String.ofList (Text.ofLines ((writtenLines 1 entries).map fun line => (line, .lf)) [])

theorem shows_self (text : List Char) : Shows text text :=
  ⟨[], [], [], by simp, List.forall_mem_nil _, List.forall_mem_nil _, Or.inl rfl⟩

theorem holds_replicate_append {number count : Nat} {lines : List (List Char)}
    {entries : List Entry} (h : Holds (number + count) lines entries) :
    Holds number (List.replicate count [] ++ lines) entries := by
  induction count generalizing number with
  | zero => exact h
  | succ count ih =>
    rw [List.replicate_succ, List.cons_append]
    have hnumber : number + (count + 1) = number + 1 + count := by omega
    rw [hnumber] at h
    exact Holds.bare (hasToken_nil_iff.2 (shows_self [])) (ih h)

theorem holds_writtenLines {number : Nat} {entries : List Entry}
    (hascending : entries.Pairwise fun e f => e.line < f.line)
    (hle : ∀ e ∈ entries, number ≤ e.line) :
    Holds number (writtenLines number entries) entries := by
  induction entries generalizing number with
  | nil => exact Holds.nil
  | cons e entries ih =>
    obtain ⟨hlater, hrest⟩ := List.pairwise_cons.1 hascending
    have hnumber : number + (e.line - number) = e.line := by
      have hfirst := hle e (List.mem_cons_self ..)
      omega
    have hword := Word.spells_written e.word
    apply holds_replicate_append
    rw [hnumber]
    exact Holds.word (hasToken_of_spells (shows_self _) hword) hword (ih hrest hlater)

theorem parse_write {entries : List Entry}
    (hascending : entries.Pairwise fun e f => e.line < f.line)
    (hpos : ∀ e ∈ entries, 1 ≤ e.line) : parse (write entries) = .ok entries :=
  parse_ended .lf (holds_writtenLines hascending hpos)

/-- Whatever the layout of a list of entries, reading gives that list back, and what is read from
a text has ascending line numbers within the text; so the lists that reading results in are
exactly the ascending ones. -/
theorem parse_inverts_layout :
    (∀ ended last entries, LaidOut 1 (ended.map Prod.fst ++ [last]) entries →
      parse (String.ofList (Text.ofLines ended last)) = .ok entries) ∧
    (∀ text entries, parse text = .ok entries →
      entries.Pairwise (fun e f => e.line < f.line) ∧
      ∀ e ∈ entries, 1 ≤ e.line ∧ e.line ≤ (Text.lines text.toList).length) ∧
    (∀ entries, (∃ text, parse text = .ok entries) ↔
      entries.Pairwise (fun e f => e.line < f.line) ∧ ∀ e ∈ entries, 1 ≤ e.line) := by
  refine ⟨fun ended last entries h => parse_ofLines (holds_of_laidOut h),
    fun text entries => bounds_of_parse, fun entries => ⟨?_, ?_⟩⟩
  · intro h
    obtain ⟨text, htext⟩ := h
    obtain ⟨hascending, hbounds⟩ := bounds_of_parse htext
    exact ⟨hascending, fun e he => (hbounds e he).1⟩
  · intro h
    exact ⟨write entries, parse_write h.1 h.2⟩

theorem parse_inverts_mixed_layout :
    LaidOut 1 ["\t0X_0f # a".toList, [], "1".toList] [⟨1, 15⟩, ⟨3, 1⟩] ∧
      parse "\t0X_0f # a\r\n\n1" = .ok [⟨1, 15⟩, ⟨3, 1⟩] := by
  have hlaid : LaidOut 1 ["\t0X_0f # a".toList, [], "1".toList] [⟨1, 15⟩, ⟨3, 1⟩] := by
    have hfirst : Shows "\t0X_0f # a".toList "0X_0f".toList :=
      ⟨['\t'], [' '], "# a".toList, by decide, List.all_eq_true.1 (by decide),
        List.all_eq_true.1 (by decide),
        Or.inr ⟨" a".toList, by decide, List.all_eq_true.1 (by decide)⟩⟩
    have hword : Word.Spells "0X_0f".toList 15 :=
      Word.ofSpelling?_eq_some_iff_spells.1 (by decide)
    have hlast : Word.Spells "1".toList 1 := Word.ofSpelling?_eq_some_iff_spells.1 (by decide)
    exact LaidOut.cons_word hfirst hword
      (LaidOut.cons_bare (shows_self []) (LaidOut.cons_word (shows_self _) hlast (LaidOut.nil 4)))
  exact ⟨hlaid, parse_inverts_layout.1 [("\t0X_0f # a".toList, .crLf), ([], .lf)] "1".toList _ hlaid⟩

end Wordcode.Listing
