import Wordcode.Proofs.Listing.Reading

/-!
# Listings one below the other

A listing may be cut behind any line feed and its parts read apart. The first part stands where it
stood; what is read from the second, and the error that it may hold, keeps everything but its line
numbers, which move on by the lines above (`readLines_add`).
-/

namespace Wordcode.Listing

/-! ### Lines further down -/

/-- An outcome of reading with its line numbers put through `f`; `g` does so for what was read. -/
def renumbered {α : Type} (f : Nat → Nat) (g : α → α) :
    Except ListingError α → Except ListingError α
  | .ok a => .ok (g a)
  | .error e => .error (e.renumber f)

theorem readLine_renumber (f : Nat → Nat) (number : Nat) (line : List Char) :
    readLine (f number) line =
      renumbered f (Option.map (Entry.renumber f)) (readLine number line) := by
  rw [readLine, readLine]
  cases token? line with
  | none => rfl
  | some token =>
    cases token with
    | nil => rfl
    | cons c token =>
      dsimp only
      cases Word.ofSpelling? (c :: token) with
      | none => rfl
      | some w => rfl

theorem readLines_cons_renumbered {f : Nat → Nat} {m n : Nat} {line line' : List Char}
    {lines lines' : List (List Char)}
    (hfirst : readLine n line' =
      renumbered f (Option.map (Entry.renumber f)) (readLine m line))
    (hrest : readLines (n + 1) lines' =
      renumbered f (List.map (Entry.renumber f)) (readLines (m + 1) lines)) :
    readLines n (line' :: lines') =
      renumbered f (List.map (Entry.renumber f)) (readLines m (line :: lines)) := by
  rw [readLines_cons, readLines_cons, hfirst, hrest]
  cases readLine m line with
  | error e => rfl
  | ok entry =>
    cases readLines (m + 1) lines with
    | error e => rfl
    | ok entries => cases entry <;> rfl

theorem readLines_add (number k : Nat) (lines : List (List Char)) :
    readLines (number + k) lines =
      renumbered (· + k) (List.map (Entry.renumber (· + k))) (readLines number lines) := by
  induction lines generalizing number with
  | nil => rfl
  | cons line rest ih =>
    have hfirst := readLine_renumber (· + k) number line
    have hrest := ih (number + 1)
    rw [Nat.add_right_comm] at hrest
    exact readLines_cons_renumbered hfirst hrest

/-! ### Two texts -/

/-- The number of lines that a text takes up if a line feed and another text follow it. -/
def height (text : String) : Nat := 1 + text.toList.count '\n'

/-- The outcome for two texts one below the other, from the outcomes for either of them: an error
of the first is the error of both, and what comes from the second is `k` lines further down. -/
def stacked {α : Type} (k : Nat) (move : α → α) :
    Except ListingError (List α) → Except ListingError (List α) → Except ListingError (List α)
  | .error e, _ => .error e
  | .ok _, .error e => .error (e.renumber (· + k))
  | .ok first, .ok second => .ok (first ++ second.map move)

theorem stacked_eq_bind (k : Nat) (first second : Except ListingError (List Entry)) :
    stacked k (Entry.renumber (· + k)) first second =
      first >>= fun entries =>
        renumbered (· + k) (List.map (Entry.renumber (· + k))) second >>= fun others =>
          .ok (entries ++ others) := by
  cases first with
  | error e => rfl
  | ok entries => cases second <;> rfl

theorem map_stacked {α β : Type} {k : Nat} {f : α → β} {move : α → α} {move' : β → β}
    (h : ∀ a, f (move a) = move' (f a)) (first second : Except ListingError (List α)) :
    (stacked k move first second).map (List.map f) =
      stacked k move' (first.map (List.map f)) (second.map (List.map f)) := by
  cases first with
  | error e => rfl
  | ok entries =>
    cases second with
    | error e => rfl
    | ok others =>
      have hmove : f ∘ move = move' ∘ f := funext h
      refine congrArg Except.ok ?_
      rw [List.map_append, List.map_map, List.map_map, hmove]

theorem parse_append_lf_append (a b : String) :
    parse (a ++ "\n" ++ b) =
      stacked (height a) (Entry.renumber (· + height a)) (parse (a ++ "\n")) (parse b) := by
  have hlf : "\n".toList = ['\n'] := by decide
  have hab : (a ++ "\n" ++ b).toList = a.toList ++ '\n' :: b.toList := by
    rw [String.toList_append, String.toList_append, hlf, List.append_assoc, List.singleton_append]
  have ha : (a ++ "\n").toList = a.toList ++ ['\n'] := by rw [String.toList_append, hlf]
  have hheight : (Text.lines (a.toList ++ ['\n'])).length = height a := by
    rw [Text.length_lines_concat_lf, height, Nat.add_comm]
  rw [stacked_eq_bind, parse, parse, parse, hab, ha, Text.lines_append_lf_append, readLines_append,
    hheight, readLines_add]

/-- Reading a text in two parts: the entries of the second are `height a` lines further down, what
their words stand for is the same there, and a first part that cannot be read makes the same error
of the whole, whatever follows it. -/
theorem reading_append_eq_stacked (a b : String) :
    parse (a ++ "\n" ++ b) =
      stacked (height a) (Entry.renumber (· + height a)) (parse (a ++ "\n")) (parse b) ∧
    decode (a ++ "\n" ++ b) =
      stacked (height a) (DecodedEntry.renumber (· + height a)) (decode (a ++ "\n"))
        (decode b) := by
  refine ⟨parse_append_lf_append a b, ?_⟩
  have hdecode : ∀ e : Entry,
      (e.renumber (· + height a)).decode = e.decode.renumber (· + height a) := fun _ => rfl
  rw [decode, parse_append_lf_append]
  exact map_stacked hdecode _ _

end Wordcode.Listing
