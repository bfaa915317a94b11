import Mathlib.Data.List.TakeWhile
import Wordcode.Listing.Line

/-!
# The token of a line

Reading a line once from left to right, each run of characters taken as far as it goes, finds the
token of every well-formed line and of no other (`token?_eq_some_iff`). Runs of different kinds
cannot be cut otherwise: a blank, a character of a token and the mark of a comment are three
different things, so that each run ends where the next one starts.
-/

namespace Wordcode.Listing

/-! ### Runs of characters -/

/-- A run of characters with the property `p` does not go on into the text. -/
def Ends (p : Char → Bool) (s : List Char) : Prop := ∀ c ∈ s.head?, p c = false

theorem takeWhile_append_of_ends {p : Char → Bool} {run rest : List Char}
    (hrun : ∀ c ∈ run, p c = true) (hrest : Ends p rest) : (run ++ rest).takeWhile p = run := by
  rw [List.takeWhile_append_of_pos hrun]
  cases rest with
  | nil => exact List.append_nil run
  | cons c rest =>
    have hc : ¬ p c = true := ne_true_of_eq_false (hrest c rfl)
    rw [List.takeWhile_cons_of_neg hc, List.append_nil]

theorem dropWhile_append_of_ends {p : Char → Bool} {run rest : List Char}
    (hrun : ∀ c ∈ run, p c = true) (hrest : Ends p rest) : (run ++ rest).dropWhile p = rest := by
  rw [List.dropWhile_append_of_pos hrun]
  cases rest with
  | nil => rfl
  | cons c rest =>
    have hc : ¬ p c = true := ne_true_of_eq_false (hrest c rfl)
    rw [List.dropWhile_cons_of_neg hc]

theorem ends_append {p : Char → Bool} {s rest : List Char} (hs : ∀ c ∈ s, p c = false)
    (hrest : Ends p rest) : Ends p (s ++ rest) := by
  cases s with
  | nil => exact hrest
  | cons c s =>
    intro d hd
    have hdc : c = d := Option.some.inj hd
    rw [← hdc]
    exact hs c (List.mem_cons_self ..)

/-! ### Kinds of characters -/

theorem isTokenChar_of_isBlank {c : Char} (h : Text.isBlank c = true) : isTokenChar c = false := by
  rw [isTokenChar, Text.isWhiteSpace_of_isBlank h]
  rfl

theorem isBlank_of_isTokenChar {c : Char} (h : isTokenChar c = true) : Text.isBlank c = false := by
  cases hb : Text.isBlank c with
  | false => rfl
  | true =>
    rw [isTokenChar_of_isBlank hb] at h
    cases h

theorem ends_of_isComment {p : Char → Bool} (hp : p '#' = false) {s : List Char}
    (h : IsComment s) : Ends p s := by
  intro c hc
  rcases h with h | ⟨body, h, _⟩
  · rw [h] at hc
    cases hc
  · rw [h] at hc
    rw [← Option.some.inj hc]
    exact hp

/-! ### Lines -/

theorem hasToken_of_token?_eq_some {line token : List Char} (h : token? line = some token) :
    HasToken line token := by
  rw [token?] at h
  split at h
  · rename_i hcomment
    have htoken := Option.some.inj h
    let rest := line.dropWhile Text.isBlank
    refine ⟨line.takeWhile Text.isBlank, (rest.dropWhile isTokenChar).takeWhile Text.isBlank,
      (rest.dropWhile isTokenChar).dropWhile Text.isBlank, ?_, ?_, ?_, ?_, isComment_iff.1 hcomment⟩
    · rw [← htoken, List.append_assoc _ (List.takeWhile _ _), List.takeWhile_append_dropWhile,
        List.append_assoc, List.takeWhile_append_dropWhile, List.takeWhile_append_dropWhile]
    · exact fun c hc => List.mem_takeWhile_imp hc
    · rw [← htoken]
      exact fun c hc => List.mem_takeWhile_imp hc
    · exact fun c hc => List.mem_takeWhile_imp hc
  · cases h

theorem token?_eq_some_of_hasToken {line token : List Char} (h : HasToken line token) :
    token? line = some token := by
  obtain ⟨before, after, comment, hline, hbefore, htoken, hafter, hcomment⟩ := h
  have hblank : Ends Text.isBlank comment := ends_of_isComment rfl hcomment
  have hnone : Ends isTokenChar comment := ends_of_isComment (by decide) hcomment
  have hend : Ends isTokenChar (after ++ comment) :=
    ends_append (fun c hc => isTokenChar_of_isBlank (hafter c hc)) hnone
  -- Without a token the blanks before and after it are one run, which is skipped as a whole.
  have hskip : line.dropWhile Text.isBlank = token ++ (after ++ comment) ∨
      token = [] ∧ line.dropWhile Text.isBlank = comment := by
    cases token with
    | nil =>
      right
      have hblanks : ∀ c ∈ before ++ after, Text.isBlank c = true := by
        intro c hc
        rcases List.mem_append.1 hc with hc | hc
        · exact hbefore c hc
        · exact hafter c hc
      refine ⟨rfl, ?_⟩
      rw [hline, List.append_nil]
      exact dropWhile_append_of_ends hblanks hblank
    | cons t token =>
      left
      have hstart : Ends Text.isBlank (t :: token ++ (after ++ comment)) := by
        intro c hc
        rw [← Option.some.inj hc]
        exact isBlank_of_isTokenChar (htoken t (List.mem_cons_self ..))
      rw [hline, List.append_assoc, List.append_assoc]
      exact dropWhile_append_of_ends hbefore hstart
  rw [token?]
  rcases hskip with hskip | ⟨hnil, hskip⟩
  · rw [hskip, dropWhile_append_of_ends htoken hend, dropWhile_append_of_ends hafter hblank,
      if_pos (isComment_iff.2 hcomment), takeWhile_append_of_ends htoken hend]
  · have hdrop : comment.dropWhile isTokenChar = comment :=
      dropWhile_append_of_ends (List.forall_mem_nil _) hnone
    have htake : comment.takeWhile isTokenChar = [] :=
      takeWhile_append_of_ends (List.forall_mem_nil _) hnone
    have hrest : comment.dropWhile Text.isBlank = comment :=
      dropWhile_append_of_ends (List.forall_mem_nil _) hblank
    rw [hskip, hdrop, hrest, if_pos (isComment_iff.2 hcomment), htake, hnil]

theorem token?_eq_some_iff {line token : List Char} :
    token? line = some token ↔ HasToken line token :=
  ⟨hasToken_of_token?_eq_some, token?_eq_some_of_hasToken⟩

theorem token?_eq_none_iff {line : List Char} :
    token? line = none ↔ ¬ ∃ token, HasToken line token := by
  rw [Option.eq_none_iff_forall_not_mem, not_exists]
  exact forall_congr' fun token => not_congr token?_eq_some_iff

theorem HasToken.eq {line s t : List Char} (hs : HasToken line s) (ht : HasToken line t) :
    s = t :=
  Option.some.inj ((token?_eq_some_of_hasToken hs).symm.trans (token?_eq_some_of_hasToken ht))

/-- No character of a well-formed line is one that ends lines. -/
theorem HasToken.not_line_end {line token : List Char} (h : HasToken line token) :
    ∀ c ∈ line, c ≠ '\r' ∧ c ≠ '\n' := by
  obtain ⟨before, after, comment, hline, hbefore, htoken, hafter, hcomment⟩ := h
  have hblank : ∀ c, Text.isBlank c = true → c ≠ '\r' ∧ c ≠ '\n' := by
    intro c hc
    refine ⟨?_, ?_⟩ <;> intro heq <;> rw [heq] at hc <;> revert hc <;> decide
  have htok : ∀ c, isTokenChar c = true → c ≠ '\r' ∧ c ≠ '\n' := by
    intro c hc
    refine ⟨?_, ?_⟩ <;> intro heq <;> rw [heq] at hc <;> revert hc <;> decide
  intro c hc
  rw [hline, List.mem_append, List.mem_append, List.mem_append] at hc
  rcases hc with ((hc | hc) | hc) | hc
  · exact hblank c (hbefore c hc)
  · exact htok c (htoken c hc)
  · exact hblank c (hafter c hc)
  · rcases hcomment with h | ⟨body, h, hbody⟩
    · rw [h] at hc
      cases hc
    · rw [h] at hc
      rcases List.mem_cons.1 hc with hc | hc
      · rw [hc]
        decide
      · simpa only [isCommentChar, Bool.and_eq_true, bne_iff_ne] using hbody c hc

end Wordcode.Listing
