import Wordcode.Proofs.Text.Phrase

/-!
# Messages of listing errors

The text that an error shows stands in the message as it is, whatever it holds, be it another
message. The message still determines the error (`message_injective`): the number of the line is
the run of digits behind the fixed beginning, the characters behind that run tell the kind, and for
either kind a fixed ending stands behind the text.
-/

namespace Wordcode.ListingError

/-! ### Parts of a message -/

def line : ListingError → Nat
  | .malformedLine line _ => line
  | .invalidWord line _ => line

def text : ListingError → String
  | .malformedLine _ text => text
  | .invalidWord _ text => text

/-- What stands between the number and the text. -/
def opening : ListingError → String
  | .malformedLine _ _ => ": expected a single word, found `"
  | .invalidWord _ _ => ": `"

/-- What stands behind the text. -/
def closing : ListingError → String
  | .malformedLine _ _ => "`."
  | .invalidWord _ _ => "` is not a 64 bit hexadecimal word."

theorem message_eq (e : ListingError) :
    e.message = "Error on line " ++ toString e.line ++ e.opening ++ e.text ++ e.closing := by
  cases e <;> rfl

theorem toList_message (e : ListingError) :
    e.message.toList =
      "Error on line ".toList ++ ((toString e.line).toList ++
        (e.opening.toList ++ (e.text.toList ++ e.closing.toList))) := by
  rw [message_eq]
  simp only [String.toList_append, List.append_assoc]

/-! ### Reading a message -/

theorem ends_isDigit_opening (e : ListingError) (s : List Char) :
    Listing.Ends Char.isDigit (e.opening.toList ++ s) := by
  have hmalformed : ": expected a single word, found `".toList.head? = some ':' := by decide
  have hinvalid : ": `".toList.head? = some ':' := by decide
  have hopening : e.opening.toList.head? = some ':' := by
    cases e with
    | malformedLine k s => exact hmalformed
    | invalidWord k s => exact hinvalid
  obtain ⟨rest, hrest⟩ := List.head?_eq_some_iff.1 hopening
  intro c hc
  rw [hrest] at hc
  rw [← Option.some.inj hc]
  decide

/-- The number is read off the front of what follows the beginning of a message. -/
theorem takeWhile_isDigit_decimal (e : ListingError) (s : List Char) :
    ((toString e.line).toList ++ (e.opening.toList ++ s)).takeWhile Char.isDigit =
      (toString e.line).toList :=
  Listing.takeWhile_append_of_ends (fun _ => Text.isDigit_of_mem_decimal)
    (e.ends_isDigit_opening s)

/-- The third character of what stands before a text tells the kinds of errors apart. -/
theorem opening_append_ne {k l : Nat} {s t : String} (u v : List Char) :
    (malformedLine k s).opening.toList ++ u ≠ (invalidWord l t).opening.toList ++ v := by
  have hmalformed : ": expected a single word, found `".toList =
      ':' :: ' ' :: 'e' :: "xpected a single word, found `".toList := by decide
  have hinvalid : ": `".toList = [':', ' ', '`'] := by decide
  intro h
  rw [opening, opening, hmalformed, hinvalid] at h
  have hthird := (List.cons.inj (List.cons.inj (List.cons.inj h).2).2).1
  revert hthird
  decide

theorem frame_eq_of_opening_append_eq {e f : ListingError} {u v : List Char}
    (h : e.opening.toList ++ u = f.opening.toList ++ v) :
    e.opening = f.opening ∧ e.closing = f.closing := by
  cases e with
  | malformedLine k s =>
    cases f with
    | malformedLine l t => exact ⟨rfl, rfl⟩
    | invalidWord l t => exact absurd h (opening_append_ne u v)
  | invalidWord k s =>
    cases f with
    | malformedLine l t => exact absurd h.symm (opening_append_ne v u)
    | invalidWord l t => exact ⟨rfl, rfl⟩

theorem eq_of_parts {e f : ListingError} (hline : e.line = f.line)
    (hopening : e.opening = f.opening) (htext : e.text = f.text) : e = f := by
  have hne : ": expected a single word, found `" ≠ ": `" := by decide
  cases e with
  | malformedLine k s =>
    cases f with
    | malformedLine l t => exact congrArg₂ malformedLine hline htext
    | invalidWord l t => exact absurd hopening hne
  | invalidWord k s =>
    cases f with
    | malformedLine l t => exact absurd hopening.symm hne
    | invalidWord l t => exact congrArg₂ invalidWord hline htext

theorem message_injective {e f : ListingError} (h : e.message = f.message) : e = f := by
  have hlist := congrArg String.toList h
  rw [toList_message, toList_message] at hlist
  have hbehind := List.append_cancel_left hlist
  -- The number goes first: it is cut off where the digits end, whatever is behind it.
  have hdecimal := congrArg (List.takeWhile Char.isDigit) hbehind
  rw [takeWhile_isDigit_decimal, takeWhile_isDigit_decimal] at hdecimal
  rw [hdecimal] at hbehind
  have hrest := List.append_cancel_left hbehind
  obtain ⟨hopening, hclosing⟩ := frame_eq_of_opening_append_eq hrest
  rw [hopening, hclosing] at hrest
  have htext := List.append_cancel_right (List.append_cancel_left hrest)
  exact eq_of_parts (Nat.repr_injective (String.toList_inj.1 hdecimal)) hopening
    (String.toList_inj.1 htext)

/-- No two errors have the same message, whatever the texts that they show. -/
theorem message_eq_iff (e f : ListingError) : e.message = f.message ↔ e = f :=
  ⟨message_injective, congrArg message⟩

end Wordcode.ListingError
