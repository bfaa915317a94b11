import Wordcode.Proofs.Text.Phrase

/-!
# Texts of results

The line that describes an instruction determines the instruction, whatever its parts are, and
the message of a fault determines the fault. The first word of such a text tells an instruction
from a fault, so the text of a result determines the result (`resultText_injective`).
-/

namespace Wordcode

open Text

/-! ### Instructions -/

namespace Instruction

/-- The texts of the parts that follow the class in a summary, each behind its separator. -/
def summaryParts (i : Instruction) : List (String × String) :=
  [(" off=(", offsetText i.off0), (", ", offsetText i.off1), (", ", offsetText i.off2),
   (") dst=", Named.name i.dst), (" op0=", Named.name i.op0), (" op1=", Named.name i.op1),
   (" res=", Named.name i.res), (" pc=", Named.name i.pc), (" ap=", Named.name i.ap),
   (" fp=", Named.name i.fp)]

theorem toList_summary (i : Instruction) :
    i.summary.toList = phrase (Named.name i.opcode) i.summaryParts := by
  unfold summary
  simp only [summaryParts, phrase, String.toList_append, List.append_assoc]

theorem isAtom_offsetText (o : Int16) : IsAtom (offsetText o).toList := by
  rw [offsetText]
  exact isAtom_signed o.toInt

theorem isPhrase_summary (i : Instruction) : IsPhrase (Named.name i.opcode) i.summaryParts := by
  refine ⟨isAtom_name (by decide) _, ?_⟩
  simp only [summaryParts, List.forall_mem_cons]
  exact ⟨⟨by decide, isAtom_offsetText _⟩, ⟨by decide, isAtom_offsetText _⟩,
    ⟨by decide, isAtom_offsetText _⟩, ⟨by decide, isAtom_name (by decide) _⟩,
    ⟨by decide, isAtom_name (by decide) _⟩, ⟨by decide, isAtom_name (by decide) _⟩,
    ⟨by decide, isAtom_name (by decide) _⟩, ⟨by decide, isAtom_name (by decide) _⟩,
    ⟨by decide, isAtom_name (by decide) _⟩, ⟨by decide, isAtom_name (by decide) _⟩,
    List.forall_mem_nil _⟩

theorem offsetText_injective {o p : Int16} (h : offsetText o = offsetText p) : o = p :=
  Int16.toInt_inj.1 (Int.repr_injective h)

theorem summary_injective {i j : Instruction} (h : i.summary = j.summary) : i = j := by
  have hphrase := congrArg String.toList h
  rw [toList_summary, toList_summary] at hphrase
  have hseps : i.summaryParts.map Prod.fst = j.summaryParts.map Prod.fst := by
    simp only [summaryParts, List.map_cons, List.map_nil]
  obtain ⟨hopcode, hparts⟩ :=
    phrase_injective i.isPhrase_summary j.isPhrase_summary hseps hphrase
  obtain ⟨⟨dst, op0, op1, res, pc, ap, fp, opcode⟩, off0, off1, off2⟩ := i
  obtain ⟨⟨dst', op0', op1', res', pc', ap', fp', opcode'⟩, off0', off1', off2'⟩ := j
  simp only [summaryParts, List.cons.injEq, Prod.mk.injEq, true_and, and_true] at hparts
  obtain ⟨h0, h1, h2, hdst, hop0, hop1, hres, hpc, hap, hfp⟩ := hparts
  have hclass : opcode = opcode' := Named.name_injective hopcode
  rw [hclass, offsetText_injective h0, offsetText_injective h1, offsetText_injective h2,
    Named.name_injective hdst, Named.name_injective hop0, Named.name_injective hop1,
    Named.name_injective hres, Named.name_injective hpc, Named.name_injective hap,
    Named.name_injective hfp]

end Instruction

/-! ### Faults -/

namespace DecodeError

def messageFirst : DecodeError → String
  | .highBitSet => "Instruction"
  | .illegalCode _ _ => "Invalid"

def messageParts : DecodeError → List (String × String)
  | .highBitSet => [(" ", "high"), (" ", "bit"), (" ", "was"), (" ", "not"), (" ", "set"),
      (" ", "to"), (" ", "zero")]
  | .illegalCode field code => [(" ", field.label), (" code: ", toString code.toNat)]

theorem toList_message (e : DecodeError) :
    e.message.toList = phrase e.messageFirst e.messageParts := by
  cases e with
  | highBitSet => decide
  | illegalCode field code =>
    have hinvalid : "Invalid ".toList = "Invalid".toList ++ " ".toList := by decide
    simp only [message, messageFirst, messageParts, phrase, String.toList_append, hinvalid,
      List.append_assoc]

theorem isPhrase_message (e : DecodeError) : IsPhrase e.messageFirst e.messageParts := by
  cases e with
  | highBitSet => exact ⟨by decide, by decide⟩
  | illegalCode field code =>
    have hinvalid : IsAtom "Invalid".toList := by decide
    have hlabel : IsAtom field.label.toList := by cases field <;> decide
    refine ⟨hinvalid, ?_⟩
    simp only [messageParts, List.forall_mem_cons]
    exact ⟨⟨by decide, hlabel⟩, ⟨by decide, isAtom_decimal _⟩, List.forall_mem_nil _⟩

theorem message_injective {e f : DecodeError} (h : e.message = f.message) : e = f := by
  have hphrase := congrArg String.toList h
  rw [toList_message, toList_message] at hphrase
  have hfirst := first_eq_of_phrase_eq e.isPhrase_message f.isPhrase_message hphrase
  have hne : "Instruction" ≠ "Invalid" := by decide
  cases e with
  | highBitSet =>
    cases f with
    | highBitSet => rfl
    | illegalCode field code => exact absurd hfirst hne
  | illegalCode field code =>
    cases f with
    | highBitSet => exact absurd hfirst.symm hne
    | illegalCode field' code' =>
      obtain ⟨_, hparts⟩ := phrase_injective (illegalCode field code).isPhrase_message
        (illegalCode field' code').isPhrase_message rfl hphrase
      simp only [messageParts, List.cons.injEq, Prod.mk.injEq, true_and, and_true] at hparts
      obtain ⟨hlabel, hcode⟩ := hparts
      rw [FlagField.label_injective hlabel, UInt8.toNat_inj.1 (Nat.repr_injective hcode)]

end DecodeError

/-! ### Results -/

namespace Report

def resultFirst : Except DecodeError Instruction → String
  | .ok i => Named.name i.opcode
  | .error _ => "error"

def resultParts : Except DecodeError Instruction → List (String × String)
  | .ok i => i.summaryParts
  | .error e => (": ", e.messageFirst) :: e.messageParts

theorem toList_resultText (r : Except DecodeError Instruction) :
    (resultText r).toList = phrase (resultFirst r) (resultParts r) := by
  cases r with
  | ok i => exact i.toList_summary
  | error e =>
    have herror : "error: ".toList = "error".toList ++ ": ".toList := by decide
    simp only [resultText, resultFirst, resultParts, phrase, String.toList_append, herror,
      List.append_assoc, e.toList_message]

theorem isPhrase_resultText (r : Except DecodeError Instruction) :
    IsPhrase (resultFirst r) (resultParts r) := by
  cases r with
  | ok i => exact i.isPhrase_summary
  | error e =>
    obtain ⟨hfirst, hparts⟩ := e.isPhrase_message
    have herror : IsAtom "error".toList := by decide
    have hcolon : IsSeparator ": ".toList := by decide
    exact ⟨herror, List.forall_mem_cons.2 ⟨⟨hcolon, hfirst⟩, hparts⟩⟩

theorem name_ne_error (o : Opcode) : Named.name o ≠ "error" := by
  cases o <;> decide

theorem resultText_injective {r r' : Except DecodeError Instruction}
    (h : resultText r = resultText r') : r = r' := by
  have hphrase := congrArg String.toList h
  rw [toList_resultText, toList_resultText] at hphrase
  have hfirst :=
    first_eq_of_phrase_eq (isPhrase_resultText r) (isPhrase_resultText r') hphrase
  cases r with
  | ok i =>
    cases r' with
    | ok j => exact congrArg Except.ok (Instruction.summary_injective h)
    | error f => exact absurd hfirst (name_ne_error _)
  | error e =>
    cases r' with
    | ok j => exact absurd hfirst.symm (name_ne_error _)
    | error f =>
      have hmessage : e.message = f.message := by
        refine String.toList_inj.1 ?_
        rw [e.toList_message, f.toList_message]
        exact List.append_cancel_left (List.append_cancel_left hphrase)
      exact congrArg Except.error (DecodeError.message_injective hmessage)

theorem name_ne_messageFirst (o : Opcode) (e : DecodeError) : Named.name o ≠ e.messageFirst := by
  have hinstruction : Named.name o ≠ "Instruction" := by cases o <;> decide
  have hinvalid : Named.name o ≠ "Invalid" := by cases o <;> decide
  cases e with
  | highBitSet => exact hinstruction
  | illegalCode field code => exact hinvalid

theorem summary_ne_message (i : Instruction) (e : DecodeError) : i.summary ≠ e.message := by
  intro h
  have hphrase := congrArg String.toList h
  rw [i.toList_summary, e.toList_message] at hphrase
  exact name_ne_messageFirst _ e
    (first_eq_of_phrase_eq i.isPhrase_summary e.isPhrase_message hphrase)

/-- The text of a result determines the result, and with it the summary of an instruction the
instruction and the message of a fault the fault; no instruction reads like a fault, with or without
the word that marks one. Such a text stands on one line of printed characters, which the dividers of
tables are not among, and starts and ends with something other than white space. -/
theorem resultText_determines :
    (∀ r r', resultText r = resultText r' ↔ r = r') ∧
    (∀ i j : Instruction, i.summary = j.summary ↔ i = j) ∧
    (∀ e f : DecodeError, e.message = f.message ↔ e = f) ∧
    (∀ (i : Instruction) (e : DecodeError),
      i.summary ≠ "error: " ++ e.message ∧ i.summary ≠ e.message) ∧
    ∀ r, (∀ c ∈ (resultText r).toList, isPrinted c = true) ∧
      '\n' ∉ (resultText r).toList ∧ '\r' ∉ (resultText r).toList ∧
      '│' ∉ (resultText r).toList ∧
      (∃ c, (resultText r).toList.head? = some c ∧ isWhiteSpace c = false) ∧
      ∃ c, (resultText r).toList.getLast? = some c ∧ isWhiteSpace c = false := by
  refine ⟨fun r r' => ⟨resultText_injective, congrArg resultText⟩,
    fun i j => ⟨Instruction.summary_injective, congrArg Instruction.summary⟩,
    fun e f => ⟨DecodeError.message_injective, congrArg DecodeError.message⟩, ?_, ?_⟩
  · intro i e
    refine ⟨fun h => ?_, summary_ne_message i e⟩
    have hresult : Except.ok i = Except.error e := resultText_injective h
    cases hresult
  · intro r
    have hphrase := isPhrase_resultText r
    have hprinted := isPrinted_phrase hphrase
    have habsent : ∀ c, isPrinted c = false → c ∉ phrase (resultFirst r) (resultParts r) := by
      intro c hc hmem
      rw [hprinted c hmem] at hc
      cases hc
    rw [toList_resultText]
    exact ⟨hprinted, habsent _ (by decide), habsent _ (by decide), habsent _ (by decide),
      exists_head_phrase hphrase, exists_last_phrase hphrase⟩

end Report

end Wordcode
