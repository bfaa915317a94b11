import Wordcode.Text.Lines

/-!
# Lines and the pieces of a text

Line feeds cut a text into pieces, and its lines are these pieces up to what belongs to the ends
of lines (`lines_eq_ofPieces`), so that none of them holds a line feed (`not_mem_of_mem_lines`). A
text that is put together from lines and their ends has these lines again, however each of them is
ended (`lines_ofLines`). Behind a line feed lines start anew, so that the lines of two texts one
below the other are those of both (`lines_append_lf_append`).
-/

namespace Wordcode.Text

/-! ### Carriage returns -/

/-- A piece without the carriage return at its end, if there is one. -/
def dropReturn (piece : List Char) : List Char :=
  if piece.getLast? = some '\r' then piece.dropLast else piece

theorem dropReturn_nil : dropReturn [] = [] := rfl

theorem dropReturn_concat (line : List Char) : dropReturn (line ++ ['\r']) = line := by
  rw [dropReturn, if_pos List.getLast?_concat, List.dropLast_concat]

theorem dropReturn_eq_self {line : List Char} (h : '\r' ∉ line) : dropReturn line = line := by
  rw [dropReturn, if_neg fun hlast => h (List.mem_of_getLast? hlast)]

theorem dropReturn_cons {c : Char} {line : List Char} (h : c = '\r' → line ≠ []) :
    dropReturn (c :: line) = c :: dropReturn line := by
  cases line with
  | nil =>
    have hc : c ≠ '\r' := fun heq => h heq rfl
    have hlast : [c].getLast? ≠ some '\r' := fun hlast => hc (Option.some.inj hlast)
    rw [dropReturn_nil, dropReturn, if_neg hlast]
  | cons d line =>
    rw [dropReturn, dropReturn, List.getLast?_cons_cons, List.dropLast_cons_cons]
    split <;> rfl

/-! ### One line at a time -/

theorem lines_append_lf {piece : List Char} (h : '\n' ∉ piece) (rest : List Char) :
    lines (piece ++ '\n' :: rest) = dropReturn piece :: lines rest := by
  induction piece with
  | nil => exact lines_lf rest
  | cons c piece ih =>
    have hc : c ≠ '\n' := fun heq => h (heq ▸ List.mem_cons_self ..)
    have hpiece : '\n' ∉ piece := fun hmem => h (List.mem_cons_of_mem _ hmem)
    -- A carriage return that is the whole of what is left belongs to the line feed behind it.
    by_cases hreturn : c = '\r' ∧ piece = []
    · obtain ⟨hcr, hnil⟩ := hreturn
      rw [hcr, hnil]
      exact lines_cr_lf rest
    · have hnext : c = '\r' → (piece ++ '\n' :: rest).head? ≠ some '\n' := by
        intro hcr hhead
        cases piece with
        | nil => exact hreturn ⟨hcr, rfl⟩
        | cons d piece => exact hpiece (Option.some.inj hhead ▸ List.mem_cons_self ..)
      rw [List.cons_append, lines_cons hc hnext, ih hpiece,
        dropReturn_cons fun hcr hnil => hreturn ⟨hcr, hnil⟩]

theorem lines_of_not_mem {piece : List Char} (h : '\n' ∉ piece) :
    lines piece = if piece = [] then [] else [piece] := by
  induction piece with
  | nil => rfl
  | cons c piece ih =>
    have hc : c ≠ '\n' := fun heq => h (heq ▸ List.mem_cons_self ..)
    have hpiece : '\n' ∉ piece := fun hmem => h (List.mem_cons_of_mem _ hmem)
    have hnext : c = '\r' → piece.head? ≠ some '\n' :=
      fun _ hhead => hpiece (List.mem_of_mem_head? hhead)
    rw [lines_cons hc hnext, ih hpiece, if_neg (List.cons_ne_nil c piece)]
    cases piece <;> rfl

/-! ### Pieces -/

/-- The lines of a text in terms of its pieces between line feeds: a carriage return at the end
of a piece belongs to the line feed behind it, and the last piece is a line unless it is empty. -/
def linesOfPieces : List (List Char) → List (List Char)
  | [] => []
  | [last] => if last = [] then [] else [last]
  | piece :: pieces => dropReturn piece :: linesOfPieces pieces

theorem lines_intercalate {pieces : List (List Char)} (h : ∀ piece ∈ pieces, '\n' ∉ piece) :
    lines (['\n'].intercalate pieces) = linesOfPieces pieces := by
  induction pieces with
  | nil => rfl
  | cons piece pieces ih =>
    have hpiece := h piece (List.mem_cons_self ..)
    cases pieces with
    | nil =>
      rw [List.intercalate_singleton]
      exact lines_of_not_mem hpiece
    | cons next pieces =>
      have hrest := ih fun p hp => h p (List.mem_cons_of_mem _ hp)
      rw [List.intercalate_cons_cons, List.append_assoc, List.singleton_append,
        lines_append_lf hpiece, hrest]
      rfl

theorem not_mem_of_mem_splitOn {sep : Char} {s piece : List Char} (h : piece ∈ s.splitOn sep) :
    sep ∉ piece := by
  induction s generalizing piece with
  | nil =>
    rw [List.splitOn_nil, List.mem_singleton] at h
    rw [h]
    exact List.not_mem_nil
  | cons c s ih =>
    obtain ⟨first, rest, hs⟩ := List.exists_cons_of_ne_nil (List.splitOn_ne_nil sep s)
    rw [List.splitOn_cons_eq_if_modifyHead] at h
    split at h
    · rcases List.mem_cons.1 h with h | h
      · rw [h]
        exact List.not_mem_nil
      · exact ih h
    · rename_i hc
      rw [hs, List.modifyHead_cons] at h
      rcases List.mem_cons.1 h with h | h
      · rw [h, List.mem_cons]
        refine fun hsep => hsep.elim (fun heq => hc ?_) (ih (hs ▸ List.mem_cons_self ..))
        exact beq_iff_eq.2 heq.symm
      · exact ih (hs ▸ List.mem_cons_of_mem _ h)

theorem lines_eq_linesOfPieces (s : List Char) : lines s = linesOfPieces (s.splitOn '\n') := by
  rw [← lines_intercalate fun piece => not_mem_of_mem_splitOn, List.intercalate_splitOn]

theorem not_mem_dropReturn {c : Char} {piece : List Char} (h : c ∉ piece) :
    c ∉ dropReturn piece := by
  rw [dropReturn]
  split
  · exact fun hmem => h (List.dropLast_subset _ hmem)
  · exact h

/-- No line holds a line feed. -/
theorem not_mem_of_mem_linesOfPieces {pieces : List (List Char)}
    (h : ∀ piece ∈ pieces, '\n' ∉ piece) : ∀ line ∈ linesOfPieces pieces, '\n' ∉ line := by
  induction pieces with
  | nil => exact List.forall_mem_nil _
  | cons piece pieces ih =>
    obtain ⟨hpiece, hpieces⟩ := List.forall_mem_cons.1 h
    cases pieces with
    | nil =>
      rw [linesOfPieces]
      split
      · exact List.forall_mem_nil _
      · exact h
    | cons next pieces => exact List.forall_mem_cons.2 ⟨not_mem_dropReturn hpiece, ih hpieces⟩

theorem not_mem_of_mem_lines {s line : List Char} (h : line ∈ lines s) : '\n' ∉ line := by
  rw [lines_eq_linesOfPieces] at h
  exact not_mem_of_mem_linesOfPieces (fun _ => not_mem_of_mem_splitOn) line h

/-! ### Texts made of lines -/

theorem lines_ofLines {ended : List (List Char × LineEnd)} {last : List Char}
    (hended : ∀ p ∈ ended, '\r' ∉ p.1 ∧ '\n' ∉ p.1) (hlast : '\n' ∉ last) :
    lines (ofLines ended last) = ended.map Prod.fst ++ if last = [] then [] else [last] := by
  induction ended with
  | nil => exact lines_of_not_mem hlast
  | cons p ended ih =>
    obtain ⟨hcr, hlf⟩ := hended p (List.mem_cons_self ..)
    have hrest := ih fun q hq => hended q (List.mem_cons_of_mem _ hq)
    have hcons : ofLines (p :: ended) last = p.1 ++ p.2.chars ++ ofLines ended last := by
      rw [ofLines, List.flatMap_cons, List.append_assoc]
      rfl
    rw [hcons, List.map_cons, List.cons_append, ← hrest]
    cases p.2 with
    | lf =>
      rw [LineEnd.chars, List.append_assoc, List.singleton_append, lines_append_lf hlf,
        dropReturn_eq_self hcr]
    | crLf =>
      have hpiece : '\n' ∉ p.1 ++ ['\r'] := by
        rw [List.mem_append, List.mem_singleton]
        exact fun hmem => hmem.elim hlf (by decide)
      have hsplit : p.1 ++ LineEnd.crLf.chars = p.1 ++ ['\r'] ++ ['\n'] :=
        (List.append_assoc p.1 ['\r'] ['\n']).symm
      rw [hsplit, List.append_assoc, List.singleton_append, lines_append_lf hpiece,
        dropReturn_concat]

/-! ### Texts one below the other -/

theorem lines_return_cons {s : List Char} (h : s.head? = some '\n') :
    lines ('\r' :: s) = lines s := by
  cases s with
  | nil => cases h
  | cons c s =>
    have hc : c = '\n' := Option.some.inj h
    rw [hc, lines_cr_lf, lines_lf]

theorem length_lines_cons {c : Char} {s : List Char} (hc : c ≠ '\n') (hs : lines s ≠ []) :
    (lines (c :: s)).length = (lines s).length := by
  by_cases hreturn : c = '\r' ∧ s.head? = some '\n'
  · rw [hreturn.1, lines_return_cons hreturn.2]
  · obtain ⟨line, rest, hlines⟩ := List.exists_cons_of_ne_nil hs
    rw [lines_cons hc fun hcr hhead => hreturn ⟨hcr, hhead⟩, hlines, List.length_cons,
      List.length_cons]

theorem length_lines_concat_lf (a : List Char) :
    (lines (a ++ ['\n'])).length = a.count '\n' + 1 := by
  induction a with
  | nil => rfl
  | cons c a ih =>
    by_cases hc : c = '\n'
    · rw [hc, List.cons_append, lines_lf, List.length_cons, ih, List.count_cons_self]
    · have hne : lines (a ++ ['\n']) ≠ [] := by
        intro hnil
        rw [hnil] at ih
        cases ih
      rw [List.cons_append, length_lines_cons hc hne, ih, List.count_cons_of_ne hc]

theorem lines_append_lf_append (a b : List Char) :
    lines (a ++ '\n' :: b) = lines (a ++ ['\n']) ++ lines b := by
  induction a with
  | nil =>
    rw [List.nil_append, List.nil_append, lines_lf, lines_lf]
    rfl
  | cons c a ih =>
    -- As far as it matters to a character what follows, the same follows it with and without `b`.
    have hhead : (a ++ '\n' :: b).head? = (a ++ ['\n']).head? := by cases a <;> rfl
    rw [List.cons_append, List.cons_append]
    by_cases hc : c = '\n'
    · rw [hc, lines_lf, lines_lf, ih, List.cons_append]
    · by_cases hreturn : c = '\r' ∧ (a ++ ['\n']).head? = some '\n'
      · obtain ⟨hcr, hlf⟩ := hreturn
        rw [hcr, lines_return_cons (hhead.trans hlf), lines_return_cons hlf, ih]
      · have hnext : c = '\r' → (a ++ ['\n']).head? ≠ some '\n' :=
          fun hcr hlf => hreturn ⟨hcr, hlf⟩
        obtain ⟨line, rest, hlines⟩ : ∃ line rest, lines (a ++ ['\n']) = line :: rest :=
          List.exists_cons_of_length_eq_add_one (length_lines_concat_lf a)
        rw [lines_cons hc (hhead ▸ hnext), lines_cons hc hnext, ih, hlines, List.cons_append]
        rfl

/-! ### Either end for a line -/

theorem ReturnsAdded.head?_eq_lf {s t : List Char} (h : ReturnsAdded s t)
    (ht : t.head? = some '\n') : s.head? = some '\n' := by
  cases h with
  | nil => exact ht
  | keep c h => exact ht
  | add h => rfl

theorem lines_eq_of_returnsAdded {s t : List Char} (h : ReturnsAdded s t)
    (hs : ¬ ['\r', '\n'] <:+: s) : lines t = lines s := by
  induction h with
  | nil => rfl
  | @keep c s t h ih =>
    have hrest := ih fun hcrlf => hs (hcrlf.trans (List.suffix_cons c s).isInfix)
    by_cases hc : c = '\n'
    · rw [hc, lines_lf, lines_lf, hrest]
    · -- A carriage return that is kept has no line feed behind it before, and so none after.
      have hsnext : c = '\r' → s.head? ≠ some '\n' := by
        intro hcr hhead
        obtain ⟨rest, hrest⟩ := List.head?_eq_some_iff.1 hhead
        exact hs ⟨[], rest, by rw [hcr, hrest]; rfl⟩
      have htnext : c = '\r' → t.head? ≠ some '\n' :=
        fun hcr hhead => hsnext hcr (h.head?_eq_lf hhead)
      rw [lines_cons hc hsnext, lines_cons hc htnext, hrest]
  | @add s t h ih =>
    have hrest := ih fun hcrlf => hs (hcrlf.trans (List.suffix_cons '\n' s).isInfix)
    rw [lines_cr_lf, lines_lf, hrest]

end Wordcode.Text
