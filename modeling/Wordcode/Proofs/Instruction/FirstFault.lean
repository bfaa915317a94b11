import Wordcode.Proofs.Instruction.RoundTrip

/-!
# The first fault of a word

A word that stands for no instruction is rejected with the first of its faults, and every word
without faults is accepted. The faults are those of the word itself: bit 63, and in each checked
field the bits that the field takes in the word (`faults_eq_checks`).
-/

namespace Wordcode

/-! ### Faults of outcomes -/

section Outcome

variable {ε α β : Type}

/-- The error that an outcome is, if it is one. -/
def fault? : Except ε α → Option ε
  | .ok _ => none
  | .error e => some e

theorem fault?_eq_some_iff {x : Except ε α} {e : ε} : fault? x = some e ↔ x = .error e := by
  cases x <;> simp [fault?]

theorem fault?_eq_none_iff {x : Except ε α} : fault? x = none ↔ ∃ a, x = .ok a := by
  cases x <;> simp [fault?]

theorem fault?_map (f : α → β) (x : Except ε α) : fault? (x.map f) = fault? x := by
  cases x <;> rfl

end Outcome

/-! ### One field after the other -/

namespace FlagField

/-- The faults of a flag block in some of its fields, in the order of the fields. -/
def faultsIn (fields : List FlagField) (flags : UInt16) : List DecodeError :=
  (fields.filter fun f => f.read flags ∉ f.legalCodes).map fun f =>
    .illegalCode f (f.read flags)

theorem faultsIn_cons_of_mem {f : FlagField} {flags : UInt16} (h : f.read flags ∈ f.legalCodes)
    (fields : List FlagField) : faultsIn (f :: fields) flags = faultsIn fields flags := by
  simp only [faultsIn, List.filter_cons, h, not_true_eq_false, decide_false, Bool.false_eq_true,
    ite_false]

theorem faultsIn_cons_of_not_mem {f : FlagField} {flags : UInt16}
    (h : f.read flags ∉ f.legalCodes) (fields : List FlagField) :
    faultsIn (f :: fields) flags = .illegalCode f (f.read flags) :: faultsIn fields flags := by
  simp only [faultsIn, List.filter_cons, h, not_false_eq_true, decide_true, ite_true,
    List.map_cons]

theorem select_eq_error_of_not_mem {α : Type} [Closed α] [Coded α] {f : FlagField}
    (hcodes : f.legalCodes = Closed.members.map (Coded.code : α → UInt8)) {flags : UInt16}
    (h : f.read flags ∉ f.legalCodes) :
    f.select α flags = .error (.illegalCode f (f.read flags)) := by
  have hnone : Coded.ofCode? α (f.read flags) = none := by
    rw [Coded.ofCode?_eq_none_iff]
    intro hlegal
    obtain ⟨a, ha⟩ := hlegal
    rw [hcodes, ← ha] at h
    exact h (List.mem_map_of_mem (Closed.mem_members a))
  rw [select, hnone]

/-- If all that follows the selection fails by the faults in `fields`, then the selection and
what follows fail by those in `f :: fields`. -/
theorem fault?_select_bind {α β : Type} [Closed α] [Coded α] {f : FlagField}
    (hcodes : f.legalCodes = Closed.members.map (Coded.code : α → UInt8)) {flags : UInt16}
    {next : α → Except DecodeError β} {fields : List FlagField}
    (hnext : ∀ a, fault? (next a) = (faultsIn fields flags).head?) :
    fault? (f.select α flags >>= next) = (faultsIn (f :: fields) flags).head? := by
  by_cases h : f.read flags ∈ f.legalCodes
  · rw [faultsIn_cons_of_mem h]
    rw [hcodes, List.mem_map] at h
    obtain ⟨a, _, ha⟩ := h
    rw [select_eq_ok_iff.2 ha.symm]
    exact hnext a
  · rw [faultsIn_cons_of_not_mem h, select_eq_error_of_not_mem hcodes h]
    rfl

end FlagField

theorem Control.fault?_decode (flags : UInt16) :
    fault? (Control.decode flags) = (FlagField.faultsIn FlagField.checked flags).head? := by
  refine FlagField.fault?_select_bind rfl fun op1 => ?_
  refine FlagField.fault?_select_bind rfl fun pc => ?_
  refine FlagField.fault?_select_bind rfl fun res => ?_
  refine FlagField.fault?_select_bind rfl fun opcode => ?_
  refine FlagField.fault?_select_bind rfl fun ap => ?_
  rfl

/-! ### Words -/

theorem Word.faults_eq (w : Word) :
    w.faults = (if w.highBit then [.highBitSet] else []) ++
      FlagField.faultsIn FlagField.checked w.lanes.flags := rfl

theorem Instruction.fault?_decode (w : Word) :
    fault? (Instruction.decode w) = w.faults.head? := by
  rw [Instruction.decode, Word.faults_eq]
  cases w.highBit with
  | true => rfl
  | false =>
    rw [if_neg Bool.false_ne_true, if_neg Bool.false_ne_true, fault?_map, Control.fault?_decode]
    rfl

theorem Instruction.exists_decode_iff {w : Word} :
    (∃ i, Instruction.decode w = .ok i) ↔
      w.highBit = false ∧ ∀ f ∈ FlagField.checked, w.code f ∈ f.legalCodes := by
  rw [← fault?_eq_none_iff, Instruction.fault?_decode, List.head?_eq_none_iff, Word.faults]
  simp

/-- What is wrong with the `width` bits from bit `lo` upwards, where the word holds the field: their
number is none of the legal ones. -/
def Word.check (w : Word) (f : FlagField) (lo width : Nat) (legal : List Nat) :
    List DecodeError :=
  let n := w.toNat >>> lo % 1 <<< width
  if n ∈ legal then [] else [.illegalCode f (UInt8.ofNat n)]

theorem Word.faultsIn_cons (w : Word) (f : FlagField) (lo width : Nat) (legal : List Nat)
    (hrange : f.wordRange = ⟨lo, width⟩) (hlegal : f.legalCodes.map UInt8.toNat = legal)
    (fields : List FlagField) :
    FlagField.faultsIn (f :: fields) w.lanes.flags =
      w.check f lo width legal ++ FlagField.faultsIn fields w.lanes.flags := by
  have hcode : (w.code f).toNat = w.toNat >>> lo % 1 <<< width := by
    rw [w.toNat_code f, hrange]
    rfl
  have hread : f.read w.lanes.flags = UInt8.ofNat (w.toNat >>> lo % 1 <<< width) := by
    rw [← hcode, UInt8.ofNat_toNat]
    rfl
  have hmem : w.toNat >>> lo % 1 <<< width ∈ legal ↔ f.read w.lanes.flags ∈ f.legalCodes := by
    rw [← hlegal, ← hcode, List.mem_map]
    refine ⟨?_, fun h => ⟨_, h, rfl⟩⟩
    intro h
    obtain ⟨c, hc, heq⟩ := h
    have hsame : c = f.read w.lanes.flags := UInt8.toNat_inj.1 heq
    rw [← hsame]
    exact hc
  rw [check]
  by_cases h : f.read w.lanes.flags ∈ f.legalCodes
  · rw [FlagField.faultsIn_cons_of_mem h, if_pos (hmem.2 h), List.nil_append]
  · rw [FlagField.faultsIn_cons_of_not_mem h, if_neg (mt hmem.1 h), ← hread]
    rfl

theorem Word.faults_eq_checks (w : Word) :
    w.faults = (if w.toNat.testBit 63 then [.highBitSet] else []) ++
      w.check .op1Src 50 3 [0, 1, 2, 4] ++ w.check .pcUpdate 55 3 [0, 1, 2, 4] ++
      w.check .resLogic 53 2 [0, 1, 2] ++ w.check .opcode 60 3 [0, 1, 2, 4] ++
      w.check .apUpdate 58 2 [0, 1, 2] := by
  rw [faults_eq, highBit_eq_testBit, FlagField.checked,
    w.faultsIn_cons .op1Src 50 3 [0, 1, 2, 4] rfl rfl,
    w.faultsIn_cons .pcUpdate 55 3 [0, 1, 2, 4] rfl rfl,
    w.faultsIn_cons .resLogic 53 2 [0, 1, 2] rfl rfl,
    w.faultsIn_cons .opcode 60 3 [0, 1, 2, 4] rfl rfl,
    w.faultsIn_cons .apUpdate 58 2 [0, 1, 2] rfl rfl]
  simp only [FlagField.faultsIn, List.filter_nil, List.map_nil, List.append_nil,
    List.append_assoc]

/-- Decoding fails with the first of the checks that the word does not pass, and with the very
bits that did not pass it; it succeeds if the word passes them all. A field on which another one
depends is checked before that one, whatever their places in the word. -/
theorem Instruction.decode_eq_error_iff_first_check (w : Word) :
    (∀ e, Instruction.decode w = .error e ↔ w.faults.head? = some e) ∧
    ((∃ i, Instruction.decode w = .ok i) ↔ w.faults = []) ∧
    w.faults = (if w.toNat.testBit 63 then [.highBitSet] else []) ++
      w.check .op1Src 50 3 [0, 1, 2, 4] ++ w.check .pcUpdate 55 3 [0, 1, 2, 4] ++
      w.check .resLogic 53 2 [0, 1, 2] ++ w.check .opcode 60 3 [0, 1, 2, 4] ++
      w.check .apUpdate 58 2 [0, 1, 2] := by
  refine ⟨?_, ?_, w.faults_eq_checks⟩
  · intro e
    rw [← fault?_decode, fault?_eq_some_iff]
  · rw [← List.head?_eq_none_iff, ← fault?_decode, fault?_eq_none_iff]

end Wordcode
