import Mathlib.Data.List.DropRight
import Wordcode.Proofs.Listing.Layout

/-!
# Texts that errors report

An error shows the text that it is about: a token as it was written, or a malformed line without
the white space at its ends. Read as a listing of its own, a token is refused for the same reason
again. A malformed line is so if the shown text is malformed (`parse_trimmed_iff`), which it is
where nothing but blanks was taken from the line; other white space may be all that was wrong with
the line, and then the shown text is in order.
-/

namespace Wordcode

/-! ### Trimming -/

namespace Text

/-- What trimming takes away is white space, at either end. -/
theorem exists_trim_eq (s : List Char) :
    ∃ front back, s = front ++ trim s ++ back ∧
      (∀ c ∈ front, isWhiteSpace c = true) ∧ ∀ c ∈ back, isWhiteSpace c = true := by
  let rest := s.dropWhile isWhiteSpace
  refine ⟨s.takeWhile isWhiteSpace, rest.rtakeWhile isWhiteSpace, ?_,
    fun c hc => List.mem_takeWhile_imp hc, fun c hc => List.mem_rtakeWhile_imp hc⟩
  have hback : trim s ++ rest.rtakeWhile isWhiteSpace = rest := List.rdropWhile_append_rtakeWhile
  rw [List.append_assoc, hback, List.takeWhile_append_dropWhile]

theorem ends_dropWhile (p : Char → Bool) (s : List Char) :
    Listing.Ends p (s.dropWhile p) := by
  intro c hc
  have hhead := List.head?_dropWhile_not p s
  rw [Option.mem_def.1 hc] at hhead
  exact hhead

theorem trim_trim (s : List Char) : trim (trim s) = trim s := by
  have hstart : Listing.Ends isWhiteSpace (trim s) := by
    intro c hc
    have hprefix : trim s <+: s.dropWhile isWhiteSpace := List.rdropWhile_prefix isWhiteSpace _
    obtain ⟨rest, hrest⟩ := List.head?_eq_some_iff.1 hc
    obtain ⟨back, hback⟩ := hprefix
    refine ends_dropWhile isWhiteSpace s c ?_
    rw [← hback, hrest]
    rfl
  have hkept : (trim s).dropWhile isWhiteSpace = trim s :=
    Listing.dropWhile_append_of_ends (List.forall_mem_nil _) hstart
  have hagain : trim (trim s) = ((trim s).dropWhile isWhiteSpace).rdropWhile isWhiteSpace := rfl
  rw [hagain, hkept]
  exact List.rdropWhile_idempotent isWhiteSpace _

theorem not_mem_trim {c : Char} {s : List Char} (h : c ∉ s) : c ∉ trim s := by
  obtain ⟨front, back, hs, _, _⟩ := exists_trim_eq s
  intro hmem
  rw [hs] at h
  exact h (List.mem_append_left _ (List.mem_append_right _ hmem))

end Text

namespace Listing

/-! ### Blanks around a line -/

theorem isCommentChar_of_isBlank {c : Char} (h : Text.isBlank c = true) :
    isCommentChar c = true := by
  simp only [Text.isBlank, Bool.or_eq_true, beq_iff_eq] at h
  rcases h with h | h <;> rw [h] <;> decide

/-- Blanks put before and behind a well-formed line leave it well formed. -/
theorem HasToken.surround {front line back token : List Char} (h : HasToken line token)
    (hfront : ∀ c ∈ front, Text.isBlank c = true) (hback : ∀ c ∈ back, Text.isBlank c = true) :
    HasToken (front ++ line ++ back) token := by
  obtain ⟨before, after, comment, hline, hbefore, htoken, hafter, hcomment⟩ := h
  have hfirst : ∀ c ∈ front ++ before, Text.isBlank c = true :=
    List.forall_mem_append.2 ⟨hfront, hbefore⟩
  rcases hcomment with hnone | ⟨body, hbody, hchars⟩
  · refine ⟨front ++ before, after ++ back, [], ?_, hfirst, htoken,
      List.forall_mem_append.2 ⟨hafter, hback⟩, Or.inl rfl⟩
    rw [hline, hnone]
    simp only [List.append_assoc, List.append_nil]
  · -- Behind a comment the blanks are part of it.
    refine ⟨front ++ before, after, comment ++ back, ?_, hfirst, htoken, hafter,
      Or.inr ⟨body ++ back, ?_, ?_⟩⟩
    · rw [hline]
      simp only [List.append_assoc]
    · rw [hbody, List.cons_append]
    · exact List.forall_mem_append.2 ⟨hchars, fun c hc => isCommentChar_of_isBlank (hback c hc)⟩

/-- The white space at the ends of the line is made of blanks. -/
def EndsBlank (line : List Char) : Prop :=
  ∃ front back, line = front ++ Text.trim line ++ back ∧
    (∀ c ∈ front, Text.isBlank c = true) ∧ ∀ c ∈ back, Text.isBlank c = true

theorem not_hasToken_trim {line : List Char} (h : ¬ ∃ token, HasToken line token)
    (hends : EndsBlank line) : ¬ ∃ token, HasToken (Text.trim line) token := by
  intro htrim
  obtain ⟨token, htoken⟩ := htrim
  obtain ⟨front, back, hline, hfront, hback⟩ := hends
  have hsurround := htoken.surround hfront hback
  rw [← hline] at hsurround
  exact h ⟨token, hsurround⟩

/-! ### Texts of one line -/

theorem hasToken_nil : HasToken [] [] := hasToken_nil_iff.2 (shows_self [])

theorem parse_eq_error_iff {s : String} (h : '\n' ∉ s.toList) {e : ListingError} :
    parse s = .error e ↔ readLine 1 s.toList = .error e := by
  rw [parse, Text.lines_of_not_mem h]
  split
  · rename_i hnil
    have hread : readLines 1 [] ≠ .error e := by
      intro herror
      cases herror
    have hline : readLine 1 [] ≠ .error e := by
      rw [readLine_of_bare hasToken_nil]
      intro herror
      cases herror
    rw [hnil]
    exact iff_of_false hread hline
  · rw [readLines_cons, bind_eq_error_iff]
    refine ⟨fun h => ?_, Or.inl⟩
    rcases h with h | ⟨_, _, h⟩
    · exact h
    · cases h

theorem parse_token {s : String} (htoken : ∀ c ∈ s.toList, isTokenChar c = true)
    (hne : s.toList ≠ []) (hw : ¬ ∃ w, Word.Spells s.toList w) :
    parse s = .error (.invalidWord 1 s) := by
  have hself : HasToken s.toList s.toList := hasToken_iff_shows.2 ⟨shows_self _, htoken⟩
  have hlf : '\n' ∉ s.toList := fun hmem => (hself.not_line_end _ hmem).2 rfl
  exact (parse_eq_error_iff hlf).2 (readLine_eq_invalidWord_iff.2 ⟨rfl, hself, hne, hw⟩)

theorem parse_trimmed_iff {line : List Char} (hlf : '\n' ∉ line) :
    parse (String.ofList (Text.trim line)) =
        .error (.malformedLine 1 (String.ofList (Text.trim line))) ↔
      ¬ ∃ token, HasToken (Text.trim line) token := by
  have hfree : '\n' ∉ (String.ofList (Text.trim line)).toList := by
    rw [String.toList_ofList]
    exact Text.not_mem_trim hlf
  rw [parse_eq_error_iff hfree, readLine_eq_malformedLine_iff, String.toList_ofList,
    Text.trim_trim]
  exact ⟨fun h => h.2.1, fun h => ⟨rfl, h, rfl⟩⟩

/-! ### Reported texts -/

theorem exists_line_of_parse {text : String} {e : ListingError} (h : parse text = .error e) :
    ∃ k line, (Text.lines text.toList)[k]? = some line ∧ '\n' ∉ line ∧
      readLine (k + 1) line = .error e := by
  obtain ⟨before, line, after, entries, hlines, _, hline⟩ := readLines_eq_error_iff.1 h
  have hmem : line ∈ Text.lines text.toList := by
    rw [hlines]
    exact List.mem_append_right _ (List.mem_cons_self ..)
  refine ⟨before.length, line, ?_, Text.not_mem_of_mem_lines hmem, ?_⟩
  · rw [hlines, List.getElem?_append_right (Nat.le_refl _), Nat.sub_self, List.getElem?_cons_zero]
  · rw [Nat.add_comm]
    exact hline

/-- The text that an error reports, read on its own: a token is refused again for the same reason.
The text of a malformed line is refused again exactly if it is itself malformed, and it is where
the line has nothing but blanks at its ends. -/
theorem parse_reported (text : String) (k : Nat) (s : String) :
    (parse text = .error (.invalidWord k s) → parse s = .error (.invalidWord 1 s)) ∧
    (parse text = .error (.malformedLine k s) →
      (parse s = .error (.malformedLine 1 s) ↔ ¬ ∃ token, HasToken s.toList token) ∧
      ∃ line, (Text.lines text.toList)[k - 1]? = some line ∧ s = String.ofList (Text.trim line) ∧
        (EndsBlank line → parse s = .error (.malformedLine 1 s))) := by
  refine ⟨fun h => ?_, fun h => ?_⟩
  · obtain ⟨_, line, _, _, hline⟩ := exists_line_of_parse h
    obtain ⟨_, htoken, hne, hw⟩ := readLine_eq_invalidWord_iff.1 hline
    exact parse_token (hasToken_iff_shows.1 htoken).2 hne hw
  · obtain ⟨m, line, hm, hlf, hline⟩ := exists_line_of_parse h
    obtain ⟨hk, hformed, hs⟩ := readLine_eq_malformedLine_iff.1 hline
    have hiff := parse_trimmed_iff hlf
    rw [hs, String.toList_ofList, hk, Nat.add_sub_cancel]
    exact ⟨hiff, line, hm, rfl, fun hends => hiff.2 (not_hasToken_trim hformed hends)⟩

theorem parse_reported_two_words :
    parse "1\n\t0x1 0x2 \n" = .error (.malformedLine 2 "0x1 0x2") ∧
    EndsBlank "\t0x1 0x2 ".toList ∧
    parse "0x1 0x2" = .error (.malformedLine 1 "0x1 0x2") ∧
    parse "\n zz#" = .error (.invalidWord 2 "zz") ∧
    parse "zz" = .error (.invalidWord 1 "zz") := by
  have hmalformed : parse "1\n\t0x1 0x2 \n" = .error (.malformedLine 2 "0x1 0x2") := by decide
  have hinvalid : parse "\n zz#" = .error (.invalidWord 2 "zz") := by decide
  have hends : EndsBlank "\t0x1 0x2 ".toList :=
    ⟨['\t'], [' '], by decide, List.all_eq_true.1 (by decide), List.all_eq_true.1 (by decide)⟩
  have hsecond : (Text.lines "1\n\t0x1 0x2 \n".toList)[2 - 1]? = some "\t0x1 0x2 ".toList := by
    decide
  obtain ⟨_, line, hline, _, hagain⟩ := (parse_reported _ 2 _).2 hmalformed
  have heq : "\t0x1 0x2 ".toList = line := Option.some.inj (hsecond.symm.trans hline)
  rw [← heq] at hagain
  exact ⟨hmalformed, hends, hagain hends, hinvalid, (parse_reported _ 2 _).1 hinvalid⟩

/-- A no-break space before a word makes a line malformed, but the text that is reported is the
word without it, which reads as a listing; of a lone carriage return no text is left at all. -/
theorem parse_reported_no_break_space :
    parse "\u00a00x1" = .error (.malformedLine 1 "0x1") ∧ parse "0x1" = .ok [⟨1, 1⟩] ∧
    parse "\r" = .error (.malformedLine 1 "") ∧ parse "" = .ok [] := by
  decide

end Listing

end Wordcode
