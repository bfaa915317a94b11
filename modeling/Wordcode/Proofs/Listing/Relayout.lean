import Mathlib.Data.Set.Monotone
import Mathlib.Order.Interval.Set.Basic
import Wordcode.Proofs.Listing.Layout
import Wordcode.Proofs.Listing.Stacking

/-!
# Listings in another layout

What a listing says does not hang on its layout. Its lines may end either way, blanks and comments
may be changed on any of them, and lines without a word may be put in between: the same is read, or
the same fault is found, with line numbers that have moved along with the lines
(`readLines_relaid`).
-/

namespace Wordcode.Listing

/-! ### Ends of lines -/

/-- Where no carriage return stands before a line feed, it makes no difference which of the line
feeds are given one. -/
theorem reading_eq_of_returnsAdded {s t : String} (hs : ¬ ['\r', '\n'] <:+: s.toList)
    (h : Text.ReturnsAdded s.toList t.toList) : parse t = parse s ∧ decode t = decode s := by
  have hparse : parse t = parse s := by
    rw [parse, parse, Text.lines_eq_of_returnsAdded h hs]
  refine ⟨hparse, ?_⟩
  rw [decode, decode, hparse]

theorem reading_eq_of_returnsAdded_stray :
    ¬ ['\r', '\n'] <:+: "1\n#\n\r2\n".toList ∧
    Text.ReturnsAdded "1\n#\n\r2\n".toList "1\r\n#\n\r2\r\n".toList ∧
    parse "1\r\n#\n\r2\r\n" = parse "1\n#\n\r2\n" ∧
    decode "1\r\n#\n\r2\r\n" = decode "1\n#\n\r2\n" := by
  have hs : "1\n#\n\r2\n".toList = ['1', '\n', '#', '\n', '\r', '2', '\n'] := by decide
  have ht : "1\r\n#\n\r2\r\n".toList = ['1', '\r', '\n', '#', '\n', '\r', '2', '\r', '\n'] := by
    decide
  have hfree : ¬ ['\r', '\n'] <:+: "1\n#\n\r2\n".toList := by
    rw [hs]
    decide
  have hadded : Text.ReturnsAdded "1\n#\n\r2\n".toList "1\r\n#\n\r2\r\n".toList := by
    rw [hs, ht]
    exact .keep '1' (.add (.keep '#' (.keep '\n' (.keep '\r' (.keep '2' (.add .nil))))))
  exact ⟨hfree, hadded, reading_eq_of_returnsAdded hfree hadded⟩

/-! ### Lines -/

/-- The lines are the same, or they differ in nothing but blanks and comments. -/
def ReadAlike (line line' : List Char) : Prop :=
  line = line' ∨ ∃ token, HasToken line token ∧ HasToken line' token

theorem readLine_of_readAlike {line line' : List Char} (h : ReadAlike line line') (number : Nat) :
    readLine number line' = readLine number line := by
  rcases h with h | ⟨token, htoken, htoken'⟩
  · rw [h]
  · rw [readLine, readLine, token?_eq_some_iff.2 htoken, token?_eq_some_iff.2 htoken']
    cases token <;> rfl

/-- The numbers of some lines, the first of which has the given number. -/
def numbers (first : Nat) (lines : List (List Char)) : Set Nat :=
  Set.Ico first (first + lines.length)

theorem mem_numbers_cons {k first : Nat} {line : List Char} {lines : List (List Char)} :
    k ∈ numbers first (line :: lines) ↔ k = first ∨ k ∈ numbers (first + 1) lines := by
  simp only [numbers, Set.mem_Ico, List.length_cons]
  omega

/-- The lines `b`, numbered from `n`, are the lines `a`, numbered from `m`, in another layout: line
`k` has become line `f k`, and what is new holds no word. -/
structure Relaid (f : Nat → Nat) (m : Nat) (a : List (List Char)) (n : Nat)
    (b : List (List Char)) : Prop where
  ascending : StrictMonoOn f (numbers m a)
  mapsTo : Set.MapsTo f (numbers m a) (numbers n b)
  alike : ∀ k ∈ numbers m a, ∀ line line', a[k - m]? = some line → b[f k - n]? = some line' →
    ReadAlike line line'
  bare : ∀ k ∈ numbers n b, k ∉ f '' numbers m a →
    ∀ line, b[k - n]? = some line → HasToken line []

namespace Relaid

variable {f : Nat → Nat} {m n : Nat} {line line' : List Char} {a b : List (List Char)}

theorem eq_nil (h : Relaid f m a n []) : a = [] := by
  cases a with
  | nil => rfl
  | cons line rest =>
    have himage := h.mapsTo (mem_numbers_cons.2 (.inl rfl))
    exact absurd himage.1 (Nat.not_le_of_lt himage.2)

theorem drop_new (h : Relaid f m a n (line' :: b)) (hnew : n ∉ f '' numbers m a) :
    Relaid f m a (n + 1) b := by
  have hmaps : Set.MapsTo f (numbers m a) (numbers (n + 1) b) := fun k hk =>
    (mem_numbers_cons.1 (h.mapsTo hk)).resolve_left fun heq => hnew ⟨k, hk, heq⟩
  refine ⟨h.ascending, hmaps, ?_, ?_⟩
  · intro k hk old new hold hline
    refine h.alike k hk old new hold ?_
    rw [getElem?_cons_sub line' b (hmaps hk).1]
    exact hline
  · intro k hk hout new hline
    refine h.bare k (mem_numbers_cons.2 (.inr hk)) hout new ?_
    rw [getElem?_cons_sub line' b hk.1]
    exact hline

theorem tail (h : Relaid f m (line :: a) n (line' :: b)) (hfirst : f m = n) :
    Relaid f (m + 1) a (n + 1) b := by
  have hm : m ∈ numbers m (line :: a) := mem_numbers_cons.2 (.inl rfl)
  have hsub : numbers (m + 1) a ⊆ numbers m (line :: a) := fun k hk =>
    mem_numbers_cons.2 (.inr hk)
  have hmaps : Set.MapsTo f (numbers (m + 1) a) (numbers (n + 1) b) := by
    intro k hk
    refine (mem_numbers_cons.1 (h.mapsTo (hsub hk))).resolve_left fun heq => ?_
    have hlater := h.ascending hm (hsub hk) hk.1
    omega
  refine ⟨h.ascending.mono hsub, hmaps, ?_, ?_⟩
  · intro k hk old new hold hline
    refine h.alike k (hsub hk) old new ?_ ?_
    · rw [getElem?_cons_sub line a hk.1]
      exact hold
    · rw [getElem?_cons_sub line' b (hmaps hk).1]
      exact hline
  · intro k hk hout new hline
    refine h.bare k (mem_numbers_cons.2 (.inr hk)) ?_ new ?_
    · intro himage
      obtain ⟨j, hj, hjk⟩ := himage
      rcases mem_numbers_cons.1 hj with hj | hj
      · rw [hj, hfirst] at hjk
        exact absurd hk.1 (by omega)
      · exact hout ⟨j, hj, hjk⟩
    · rw [getElem?_cons_sub line' b hk.1]
      exact hline

/-- The first of the new lines is one that holds no word, or it is the first of the old ones. -/
theorem cases_cons (h : Relaid f m a n (line' :: b)) :
    (HasToken line' [] ∧ Relaid f m a (n + 1) b) ∨
      ∃ line rest, a = line :: rest ∧ f m = n ∧ ReadAlike line line' ∧
        Relaid f (m + 1) rest (n + 1) b := by
  by_cases hfirst : n ∈ f '' numbers m a
  · right
    obtain ⟨k, hk, hkn⟩ := hfirst
    have hm : m ∈ numbers m a := ⟨Nat.le_refl m, Nat.lt_of_le_of_lt hk.1 hk.2⟩
    -- `f` ascends, so that no line but the least can become the least new one.
    have hfm : f m = n := by
      have hle := h.ascending.monotoneOn hm hk hk.1
      have hge := (h.mapsTo hm).1
      omega
    cases a with
    | nil => exact absurd hm.1 (Nat.not_le_of_lt hm.2)
    | cons line rest =>
      refine ⟨line, rest, rfl, hfm, ?_, h.tail hfm⟩
      refine h.alike m hm line line' ?_ ?_
      · rw [Nat.sub_self, List.getElem?_cons_zero]
      · rw [hfm, Nat.sub_self, List.getElem?_cons_zero]
  · left
    refine ⟨h.bare n (mem_numbers_cons.2 (.inl rfl)) hfirst line' ?_, h.drop_new hfirst⟩
    rw [Nat.sub_self, List.getElem?_cons_zero]

end Relaid

theorem readLines_of_bare {line : List Char} (h : HasToken line []) (number : Nat)
    (lines : List (List Char)) :
    readLines number (line :: lines) = readLines (number + 1) lines := by
  rw [readLines_cons, readLine_of_bare h]
  show (readLines (number + 1) lines >>= fun entries => .ok ([] ++ entries)) = _
  cases readLines (number + 1) lines <;> rfl

theorem readLines_relaid {f : Nat → Nat} {m n : Nat} {a b : List (List Char)}
    (h : Relaid f m a n b) :
    readLines n b = renumbered f (List.map (Entry.renumber f)) (readLines m a) := by
  -- On the new lines: those that are not among them in `a` are passed over.
  induction b generalizing m n a with
  | nil =>
    rw [h.eq_nil]
    rfl
  | cons line' b ih =>
    rcases h.cases_cons with ⟨hbare, hrest⟩ | ⟨line, rest, ha, hfirst, halike, hrest⟩
    · rw [readLines_of_bare hbare, ih hrest]
    · rw [ha]
      refine readLines_cons_renumbered ?_ (ih hrest)
      rw [readLine_of_readAlike halike, ← hfirst, readLine_renumber]

theorem map_renumbered {α β : Type} {f : Nat → Nat} {g : α → α} {g' : β → β} {d : α → β}
    (h : ∀ a, d (g a) = g' (d a)) (x : Except ListingError α) :
    (renumbered f g x).map d = renumbered f g' (x.map d) := by
  cases x with
  | error e => rfl
  | ok a => exact congrArg Except.ok (h a)

/-- A text in another layout is read like the text itself, entry for entry or up to the same fault,
where every line number `k` has become `f k`. -/
theorem reading_relaid {f : Nat → Nat} {a b : String}
    (h : Relaid f 1 (Text.lines a.toList) 1 (Text.lines b.toList)) :
    parse b = renumbered f (List.map (Entry.renumber f)) (parse a) ∧
    decode b = renumbered f (List.map (DecodedEntry.renumber f)) (decode a) := by
  have hparse : parse b = renumbered f (List.map (Entry.renumber f)) (parse a) :=
    readLines_relaid h
  refine ⟨hparse, ?_⟩
  rw [decode, hparse]
  refine map_renumbered (fun entries => ?_) (parse a)
  rw [List.map_map, List.map_map]
  exact List.map_congr_left fun e _ => rfl

theorem reading_relaid_fault :
    Relaid (2 * ·) 1 (Text.lines "0x1 # one\nzz\n".toList) 1
      (Text.lines "# head\n\t0x1\r\n\nzz#bad".toList) ∧
    parse "0x1 # one\nzz\n" = .error (.invalidWord 2 "zz") ∧
    parse "# head\n\t0x1\r\n\nzz#bad" = .error (.invalidWord 4 "zz") := by
  have ha : Text.lines "0x1 # one\nzz\n".toList = ["0x1 # one".toList, "zz".toList] := by decide
  have hb : Text.lines "# head\n\t0x1\r\n\nzz#bad".toList =
      ["# head".toList, "\t0x1".toList, "".toList, "zz#bad".toList] := by decide
  have hrelaid : Relaid (2 * ·) 1 (Text.lines "0x1 # one\nzz\n".toList) 1
      (Text.lines "# head\n\t0x1\r\n\nzz#bad".toList) := by
    rw [ha, hb]
    refine ⟨fun i _ j _ hij => ?_, fun k hk => ?_, ?_, ?_⟩
    · omega
    · simp only [numbers, Set.mem_Ico, List.length_cons, List.length_nil] at hk ⊢
      omega
    · intro k hk line line' hline hline'
      obtain ⟨hlow, hhigh⟩ := hk
      right
      obtain rfl | rfl : k = 1 ∨ k = 2 := by
        simp only [List.length_cons, List.length_nil] at hhigh
        omega
      · rw [← Option.some.inj hline, ← Option.some.inj hline']
        exact ⟨"0x1".toList, token?_eq_some_iff.1 (by decide), token?_eq_some_iff.1 (by decide)⟩
      · rw [← Option.some.inj hline, ← Option.some.inj hline']
        exact ⟨"zz".toList, token?_eq_some_iff.1 (by decide), token?_eq_some_iff.1 (by decide)⟩
    · intro k hk hout line hline
      obtain ⟨hlow, hhigh⟩ := hk
      have hodd : k = 1 ∨ k = 3 := by
        have htwo : k ≠ 2 := fun heq => hout ⟨1, ⟨by decide, by decide⟩, heq.symm⟩
        have hfour : k ≠ 4 := fun heq => hout ⟨2, ⟨by decide, by decide⟩, heq.symm⟩
        simp only [List.length_cons, List.length_nil] at hhigh
        omega
      obtain rfl | rfl := hodd
      · rw [← Option.some.inj hline]
        exact token?_eq_some_iff.1 (by decide)
      · rw [← Option.some.inj hline]
        exact token?_eq_some_iff.1 (by decide)
  have hparse : parse "0x1 # one\nzz\n" = .error (.invalidWord 2 "zz") := by decide
  refine ⟨hrelaid, hparse, ?_⟩
  rw [(reading_relaid hrelaid).1, hparse]
  rfl

end Wordcode.Listing
