import Wordcode.Listing.Line
import Wordcode.Proofs.Listing.Token

/-!
# Readers and the grammar of lines

The readers for a line take every run as far as it goes and never go back. They still accept every
well-formed line, leave nothing of it and read its one token (`line_eq_some_iff`): what they read
is what `token?` finds (`line_eq_map_token?`).
-/

namespace Wordcode

/-! ### Readers put together -/

namespace Text.Reader

variable {α β : Type} {r : Reader α} {q : Reader β} {s mid rest : List Char} {a : α} {b : β}

theorem both_eq_some (hr : r s = some (mid, a)) (hq : q mid = some (rest, b)) :
    both r q s = some (rest, a, b) := by
  rw [both, hr, Option.bind_some]
  dsimp only
  rw [hq]
  rfl

theorem first_eq_some (hr : r s = some (mid, a)) (hq : q mid = some (rest, b)) :
    first r q s = some (rest, a) := by
  rw [first, both_eq_some hr hq]
  rfl

theorem second_eq_some (hr : r s = some (mid, a)) (hq : q mid = some (rest, b)) :
    second r q s = some (rest, b) := by
  rw [second, both_eq_some hr hq]
  rfl

end Text.Reader

namespace Listing.LineReader

open Text (Reader)

/-! ### Parts of a line -/

/-- A token as its reader gives it: an empty one is none. -/
def shown : List Char → Option (List Char)
  | [] => none
  | c :: rest => some (c :: rest)

theorem getD_shown (t : List Char) : (shown t).getD [] = t := by
  cases t <;> rfl

theorem shown_injective {t u : List Char} (h : shown t = shown u) : t = u := by
  rw [← getD_shown t, h, getD_shown]

theorem optional_token (s : List Char) :
    Reader.optional token s = some (s.dropWhile isTokenChar, shown (s.takeWhile isTokenChar)) := by
  have hsplit := List.takeWhile_append_dropWhile (p := isTokenChar) (l := s)
  rw [Reader.optional, token, Reader.run1]
  cases htaken : s.takeWhile isTokenChar with
  | nil =>
    rw [htaken, List.nil_append] at hsplit
    rw [hsplit]
    rfl
  | cons c taken => rfl

theorem exists_optional_comment (s : List Char) :
    ∃ rest body, Reader.optional comment s = some (rest, body) ∧
      (rest = [] ↔ isComment s = true) := by
  cases s with
  | nil => exact ⟨[], none, rfl, iff_of_true rfl rfl⟩
  | cons c body =>
    by_cases hc : c = '#'
    · have hmark : Reader.char '#' (c :: body) = some (body, c) := if_pos hc
      have hcomment : comment (c :: body) =
          some (body.dropWhile isCommentChar, body.takeWhile isCommentChar) :=
        Reader.second_eq_some hmark rfl
      refine ⟨body.dropWhile isCommentChar, some (body.takeWhile isCommentChar), ?_, ?_⟩
      · rw [Reader.optional, hcomment]
      · rw [List.dropWhile_eq_nil_iff, isComment, hc, beq_self_eq_true, Bool.true_and,
          List.all_eq_true]
    · have hmark : Reader.char '#' (c :: body) = none := if_neg hc
      have hcomment : comment (c :: body) = none := by
        rw [comment, Reader.second, Reader.both, hmark]
        rfl
      refine ⟨c :: body, none, ?_, ?_⟩
      · rw [Reader.optional, hcomment]
      · refine iff_of_false (List.cons_ne_nil _ _) ?_
        rw [isComment, Bool.and_eq_true, beq_iff_eq]
        exact fun h => hc h.1

/-! ### Lines -/

theorem line_eq_map_token? (s : List Char) :
    line s = (token? s).map fun t => ([], shown t) := by
  let start := s.dropWhile Text.isBlank
  let tail := (start.dropWhile isTokenChar).dropWhile Text.isBlank
  obtain ⟨rest, body, hcomment, hrest⟩ := exists_optional_comment tail
  have htoken : Reader.second blanks (Reader.optional token) s =
      some (start.dropWhile isTokenChar, shown (start.takeWhile isTokenChar)) :=
    Reader.second_eq_some rfl (optional_token start)
  have hread := Reader.first_eq_some htoken (Reader.both_eq_some (r := blanks) rfl hcomment)
  rw [line, Reader.whole, hread, token?]
  by_cases hend : isComment tail = true
  · rw [if_pos hend, hrest.2 hend]
    rfl
  · have hne : rest ≠ [] := fun hnil => hend (hrest.1 hnil)
    rw [if_neg hend, Option.filter_some, if_neg fun hempty => hne (List.isEmpty_iff.1 hempty)]
    rfl

theorem line_eq_some_iff {s : List Char} {r : List Char × Option (List Char)} :
    line s = some r ↔ ∃ token, HasToken s token ∧ r = ([], shown token) := by
  rw [line_eq_map_token?, Option.map_eq_some_iff]
  refine ⟨fun h => ?_, fun h => ?_⟩
  · obtain ⟨token, htoken, hr⟩ := h
    exact ⟨token, token?_eq_some_iff.1 htoken, hr.symm⟩
  · obtain ⟨token, htoken, hr⟩ := h
    exact ⟨token, token?_eq_some_iff.2 htoken, hr.symm⟩

example : line "0x1# no space".toList = some ([], some "0x1".toList) := by decide

example : line "0x1 # a\rb".toList = none := by decide

theorem hasToken_iff_line {s token : List Char} :
    HasToken s token ↔ line s = some ([], shown token) := by
  rw [line_eq_some_iff]
  refine ⟨fun h => ⟨token, h, rfl⟩, fun h => ?_⟩
  obtain ⟨other, hother, hr⟩ := h
  rw [shown_injective (Prod.mk.inj hr).2]
  exact hother

theorem token?_eq_map_line (s : List Char) :
    token? s = (line s).map fun r => r.2.getD [] := by
  rw [line_eq_map_token?, Option.map_map]
  cases token? s with
  | none => rfl
  | some t => exact congrArg some (getD_shown t).symm

/-- Reading a line from left to right accepts what the grammar does, with nothing left over, and
gives the token of the line; in whatever way the line is written by the grammar, its token is that
one. This is the token that entries of a listing are made of. -/
theorem line_reads_grammar (s : List Char) :
    (∀ r, line s = some r ↔ ∃ token, HasToken s token ∧ r = ([], shown token)) ∧
    (∀ token, HasToken s token ↔ line s = some ([], shown token)) ∧
    ((∃ token, HasToken s token) ↔ ∃! token, HasToken s token) ∧
    token? s = (line s).map fun r => r.2.getD [] := by
  refine ⟨fun r => line_eq_some_iff, fun token => hasToken_iff_line, ⟨fun h => ?_, fun h => ?_⟩,
    token?_eq_map_line s⟩
  · obtain ⟨token, htoken⟩ := h
    exact ⟨token, htoken, fun other hother => hother.eq htoken⟩
  · exact h.exists

end Listing.LineReader

end Wordcode
