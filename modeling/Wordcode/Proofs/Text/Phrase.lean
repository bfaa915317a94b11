import Mathlib
import Wordcode.Proofs.Listing.Token
import Wordcode.Proofs.Table.Cells
import Wordcode.Proofs.Text.Digits
import Wordcode.Report

/-!
# Atoms and phrases

What reports show is put together from atoms: names, labels, numbers and words. An atom ends
where a space or a mark of punctuation starts. A phrase is an atom with further ones behind it,
each behind a separator that starts with such a character; so its atoms can be read off the text
(`phrase_injective`), and the text can stand in a cell of a table (`isCell_phrase`).
-/

namespace Wordcode.Text

/-! ### Atoms -/

def isAtomChar (c : Char) : Bool := c.isAlphanum || c == '_' || c == '-'

theorem isAtomChar_iff {c : Char} :
    isAtomChar c = true ↔ 65 ≤ c.toNat ∧ c.toNat ≤ 90 ∨ 97 ≤ c.toNat ∧ c.toNat ≤ 122 ∨
      48 ≤ c.toNat ∧ c.toNat ≤ 57 ∨ c = '_' ∨ c = '-' := by
  unfold isAtomChar Char.isAlphanum Char.isAlpha Char.isUpper Char.isLower Char.isDigit
  simp only [Bool.or_eq_true, Bool.and_eq_true, decide_eq_true_eq, ge_iff_le,
    UInt32.le_iff_toNat_le, beq_iff_eq, or_assoc]
  exact Iff.rfl

def IsAtom (s : List Char) : Prop := s ≠ [] ∧ ∀ c ∈ s, isAtomChar c = true

-- The text is gone through, not the characters there are.
instance (s : List Char) : Decidable (IsAtom s) :=
  decidable_of_iff (s ≠ [] ∧ s.all isAtomChar = true) (and_congr_right' List.all_eq_true)

theorem isAtom_name {α : Type} [Closed α] [Named α]
    (h : ∀ a ∈ Closed.members (α := α), IsAtom (Named.name a).toList) (a : α) :
    IsAtom (Named.name a).toList :=
  h a (Closed.mem_members a)

/-! ### Numbers -/

theorem isDigit_of_mem_decimal {n : Nat} {c : Char} (h : c ∈ (toString n).toList) :
    c.isDigit = true := by
  have hdigits : (toString n).toList = Nat.toDigits 10 n := Nat.toList_repr
  rw [hdigits] at h
  exact Nat.isDigit_of_mem_toDigits (by decide) (by decide) h

theorem isAtom_decimal (n : Nat) : IsAtom (toString n).toList := by
  refine ⟨?_, ?_⟩
  · have hdigits : (toString n).toList = Nat.toDigits 10 n := Nat.toList_repr
    rw [hdigits]
    exact Nat.toDigits_ne_nil
  · intro c hc
    unfold isAtomChar Char.isAlphanum
    rw [isDigit_of_mem_decimal hc, Bool.or_true]
    rfl

theorem toList_negSucc (n : Nat) :
    (toString (Int.negSucc n)).toList = '-' :: (toString (n + 1)).toList := by
  have hminus : toString (Int.negSucc n) = "-" ++ toString (n + 1) := rfl
  rw [hminus, String.toList_append]
  rfl

theorem isAtom_signed (z : Int) : IsAtom (toString z).toList := by
  cases z with
  | ofNat n => exact isAtom_decimal n
  | negSucc n =>
    rw [toList_negSucc]
    exact ⟨List.cons_ne_nil _ _, List.forall_mem_cons.2 ⟨by decide, (isAtom_decimal _).2⟩⟩

theorem isAtomChar_of_isDigit {c : Char} (h : Hexadecimal.isDigit c = true) :
    isAtomChar c = true := by
  have hcode := Hexadecimal.isDigit_iff.1 h
  rw [isAtomChar_iff]
  omega

theorem isAtom_written (w : Word) : IsAtom w.written := by
  refine ⟨List.cons_ne_nil _ _, ?_⟩
  rw [Word.written, List.forall_mem_cons, List.forall_mem_cons]
  refine ⟨by decide, by decide, ?_⟩
  exact fun c hc => isAtomChar_of_isDigit (Hexadecimal.isDigit_of_mem_padded hc)

/-! ### Phrases -/

def isPrinted (c : Char) : Bool := 32 ≤ c.toNat && c.toNat ≤ 126

theorem isPrinted_of_isAtomChar {c : Char} (h : isAtomChar c = true) : isPrinted c = true := by
  rw [isPrinted, Bool.and_eq_true, decide_eq_true_eq, decide_eq_true_eq]
  rcases isAtomChar_iff.1 h with h | h | h | h | h
  · omega
  · omega
  · omega
  · rw [h]
    decide
  · rw [h]
    decide

def IsSeparator (s : List Char) : Prop :=
  s.head?.map isAtomChar = some false ∧ ∀ c ∈ s, isPrinted c = true

instance (s : List Char) : Decidable (IsSeparator s) :=
  decidable_of_iff (s.head?.map isAtomChar = some false ∧ s.all isPrinted = true)
    (and_congr_right' List.all_eq_true)

/-- A text and then some others, each with a separator before it. -/
def phrase (first : String) : List (String × String) → List Char
  | [] => first.toList
  | (sep, next) :: rest => first.toList ++ (sep.toList ++ phrase next rest)

/-- The texts of a phrase are atoms, and what stands between them separates them. -/
def IsPhrase (first : String) (rest : List (String × String)) : Prop :=
  IsAtom first.toList ∧ ∀ p ∈ rest, IsSeparator p.1.toList ∧ IsAtom p.2.toList

theorem IsPhrase.tail {first sep next : String} {rest : List (String × String)}
    (h : IsPhrase first ((sep, next) :: rest)) : IsSeparator sep.toList ∧ IsPhrase next rest := by
  obtain ⟨_, hrest⟩ := h
  obtain ⟨⟨hsep, hnext⟩, hrest⟩ := List.forall_mem_cons.1 hrest
  exact ⟨hsep, hnext, hrest⟩

theorem ends_separator {sep : List Char} (h : IsSeparator sep) (rest : List Char) :
    Listing.Ends isAtomChar (sep ++ rest) := by
  intro c hc
  obtain ⟨hhead, _⟩ := h
  cases sep with
  | nil => cases hhead
  | cons d sep =>
    have hcd : d = c := Option.some.inj hc
    rw [← hcd]
    exact Option.some.inj hhead

theorem takeWhile_phrase {first : String} {rest : List (String × String)}
    (h : IsPhrase first rest) : (phrase first rest).takeWhile isAtomChar = first.toList := by
  cases rest with
  | nil => exact List.takeWhile_eq_self_iff.2 h.1.2
  | cons p rest =>
    obtain ⟨sep, next⟩ := p
    rw [phrase, Listing.takeWhile_append_of_ends h.1.2 (ends_separator h.tail.1 _)]

/-- The first atom of a phrase is the longest run of its kind at the start of the text. -/
theorem first_eq_of_phrase_eq {first first' : String} {rest rest' : List (String × String)}
    (h : IsPhrase first rest) (h' : IsPhrase first' rest')
    (heq : phrase first rest = phrase first' rest') : first = first' := by
  have hrun := congrArg (List.takeWhile isAtomChar) heq
  rw [takeWhile_phrase h, takeWhile_phrase h'] at hrun
  exact String.toList_inj.1 hrun

theorem phrase_injective {first first' : String} {rest rest' : List (String × String)}
    (h : IsPhrase first rest) (h' : IsPhrase first' rest')
    (hseps : rest.map Prod.fst = rest'.map Prod.fst)
    (heq : phrase first rest = phrase first' rest') : first = first' ∧ rest = rest' := by
  induction rest generalizing first first' rest' with
  | nil => exact ⟨first_eq_of_phrase_eq h h' heq, (List.map_eq_nil_iff.1 hseps.symm).symm⟩
  | cons p rest ih =>
    cases rest' with
    | nil => cases hseps
    | cons p' rest' =>
      obtain ⟨sep, next⟩ := p
      obtain ⟨sep', next'⟩ := p'
      have hfirst := first_eq_of_phrase_eq h h' heq
      obtain ⟨hsep, hrests⟩ := List.cons.inj hseps
      dsimp only at hsep
      rw [phrase, phrase, hfirst, hsep] at heq
      have htails := List.append_cancel_left (List.append_cancel_left heq)
      obtain ⟨hnext, hrest⟩ := ih h.tail.2 h'.tail.2 hrests htails
      rw [hsep, hnext, hrest]
      exact ⟨hfirst, rfl⟩

/-! ### Phrases in cells -/

theorem isPrinted_phrase {first : String} {rest : List (String × String)}
    (h : IsPhrase first rest) : ∀ c ∈ phrase first rest, isPrinted c = true := by
  induction rest generalizing first with
  | nil => exact fun c hc => isPrinted_of_isAtomChar (h.1.2 c hc)
  | cons p rest ih =>
    obtain ⟨sep, next⟩ := p
    obtain ⟨hsep, htail⟩ := h.tail
    rw [phrase, List.forall_mem_append, List.forall_mem_append]
    exact ⟨fun c hc => isPrinted_of_isAtomChar (h.1.2 c hc), hsep.2, ih htail⟩

theorem phrase_ne_nil {first : String} {rest : List (String × String)}
    (h : IsPhrase first rest) : phrase first rest ≠ [] := by
  intro hnil
  have hfirst := takeWhile_phrase h
  rw [hnil] at hfirst
  exact h.1.1 hfirst.symm

theorem isAtomChar_head_phrase {first : String} {rest : List (String × String)}
    (h : IsPhrase first rest) : ∀ c ∈ (phrase first rest).head?, isAtomChar c = true := by
  intro c hc
  cases rest with
  | nil => exact h.1.2 c (List.mem_of_mem_head? hc)
  | cons p rest =>
    rw [phrase, List.head?_append_of_ne_nil _ h.1.1] at hc
    exact h.1.2 c (List.mem_of_mem_head? hc)

theorem isAtomChar_last_phrase {first : String} {rest : List (String × String)}
    (h : IsPhrase first rest) : ∀ c ∈ (phrase first rest).getLast?, isAtomChar c = true := by
  induction rest generalizing first with
  | nil => exact fun c hc => h.1.2 c (List.mem_of_getLast? hc)
  | cons p rest ih =>
    obtain ⟨sep, next⟩ := p
    have hne : sep.toList ++ phrase next rest ≠ [] :=
      List.append_ne_nil_of_right_ne_nil _ (phrase_ne_nil h.tail.2)
    rw [phrase, List.getLast?_append_of_ne_nil _ hne,
      List.getLast?_append_of_ne_nil _ (phrase_ne_nil h.tail.2)]
    exact ih h.tail.2

theorem isWhiteSpace_of_isAtomChar {c : Char} (h : isAtomChar c = true) :
    isWhiteSpace c = false := by
  have hprinted := isPrinted_of_isAtomChar h
  have hspace : c.toNat ≠ 32 := by
    intro hcode
    obtain rfl : c = ' ' := Char.toNat_inj.1 hcode
    revert h
    decide
  rw [isPrinted, Bool.and_eq_true, decide_eq_true_eq, decide_eq_true_eq] at hprinted
  simp only [isWhiteSpace, whiteSpaceRanges, List.any_cons, List.any_nil, Bool.or_false,
    Bool.or_eq_false_iff, decide_eq_false_iff_not]
  omega

theorem exists_head_phrase {first : String} {rest : List (String × String)}
    (h : IsPhrase first rest) :
    ∃ c, (phrase first rest).head? = some c ∧ isWhiteSpace c = false := by
  have hhead := List.head?_eq_some_head (phrase_ne_nil h)
  exact ⟨_, hhead, isWhiteSpace_of_isAtomChar (isAtomChar_head_phrase h _ hhead)⟩

theorem exists_last_phrase {first : String} {rest : List (String × String)}
    (h : IsPhrase first rest) :
    ∃ c, (phrase first rest).getLast? = some c ∧ isWhiteSpace c = false := by
  have hlast := List.getLast?_eq_some_getLast (phrase_ne_nil h)
  exact ⟨_, hlast, isWhiteSpace_of_isAtomChar (isAtomChar_last_phrase h _ hlast)⟩

theorem isCell_phrase {divider : Char} (hdivider : isPrinted divider = false) {first : String}
    {rest : List (String × String)} (h : IsPhrase first rest) :
    IsCell divider (phrase first rest) where
  not_divider hmem := by
    have hprinted := isPrinted_phrase h _ hmem
    rw [hdivider] at hprinted
    cases hprinted
  unbroken c hc := by
    have hprinted := isPrinted_phrase h c hc
    refine ⟨?_, ?_⟩ <;> intro heq <;> rw [heq] at hprinted <;> revert hprinted <;> decide
  head hspace := by
    have hatom := isAtomChar_head_phrase h _ hspace
    revert hatom
    decide
  last hspace := by
    have hatom := isAtomChar_last_phrase h _ hspace
    revert hatom
    decide

theorem IsAtom.isCell {divider : Char} (hdivider : isPrinted divider = false) {text : String}
    (h : IsAtom text.toList) : IsCell divider text.toList :=
  isCell_phrase hdivider ⟨h, List.forall_mem_nil _⟩

end Wordcode.Text
