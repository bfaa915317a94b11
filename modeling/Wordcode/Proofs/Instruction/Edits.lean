import Wordcode.Proofs.Instruction.FirstFault
import Wordcode.Proofs.Instruction.Offsets

/-!
# Edits of one field

What an instruction becomes if one field of its word is given another legal code. Its word still
stands for an instruction, in which the part that the field stores has changed. Three parts hang on
another one: the result on the program counter's update and the allocation pointer's update on the
opcode, as far as the word leaves them implied, and the frame pointer's update on the opcode.
-/

namespace Wordcode

/-! ### Parts and their codes -/

/-- The part of an instruction that the field stores is the one that the code stands for, given
the other parts. -/
def FlagField.Selects (f : FlagField) (code : UInt8) (c : Control) : Prop :=
  match f with
  | .dstReg => Coded.code c.dst = code
  | .op0Reg => Coded.code c.op0 = code
  | .op1Src => Coded.code c.op1 = code
  | .resLogic => ∃ s : ResLogic.Stored, Coded.code s = code ∧ s.resolve c.pc = c.res
  | .pcUpdate => Coded.code c.pc = code
  | .apUpdate => ∃ s : ApUpdate.Stored, Coded.code s = code ∧ s.resolve c.opcode = c.ap
  | .opcode => Coded.code c.opcode = code

theorem Control.selects_of_coherent {c : Control} (h : c.Coherent) (f : FlagField) :
    f.Selects (c.code f) c := by
  obtain ⟨_, hres, hap⟩ := Control.coherent_iff.1 h
  cases f with
  | resLogic => exact ⟨c.res.stored, rfl, hres⟩
  | apUpdate => exact ⟨c.ap.stored, rfl, hap⟩
  | _ => rfl

theorem Instruction.selects_of_decode {w : Word} {i : Instruction}
    (h : Instruction.decode w = .ok i) (f : FlagField) : f.Selects (w.code f) i.toControl := by
  obtain ⟨_, hcontrol, _⟩ := Instruction.decode_eq_ok_iff_parts.1 h
  obtain ⟨hcoherent, hread⟩ := Control.decode_eq_ok_iff_read.1 hcontrol
  have hcode : w.code f = i.toControl.code f := hread f
  rw [hcode]
  exact Control.selects_of_coherent hcoherent f

theorem Instruction.fp_of_decode {w : Word} {i : Instruction} (h : Instruction.decode w = .ok i) :
    i.fp = .ofOpcode i.opcode := by
  obtain ⟨_, hcontrol, _⟩ := Instruction.decode_eq_ok_iff_parts.1 h
  exact (Control.decode_eq_ok_iff_read.1 hcontrol).1.1

/-! ### Implied parts -/

theorem ResLogic.Stored.resolve_ne_iff {s : ResLogic.Stored} {pc pc' : PcUpdate} :
    s.resolve pc' ≠ s.resolve pc ↔ Coded.code s = 0 ∧ ¬ (pc = .jnz ↔ pc' = .jnz) := by
  cases s <;> cases pc <;> cases pc' <;> decide

theorem ResLogic.Stored.resolve_swap {s : ResLogic.Stored} {pc pc' : PcUpdate}
    (h : s.resolve pc' ≠ s.resolve pc) :
    s.resolve pc = .op1 ∧ s.resolve pc' = .unconstrained ∨
      s.resolve pc = .unconstrained ∧ s.resolve pc' = .op1 := by
  revert h
  cases s <;> cases pc <;> cases pc' <;> decide

theorem ApUpdate.Stored.resolve_ne_iff {s : ApUpdate.Stored} {opcode opcode' : Opcode} :
    s.resolve opcode' ≠ s.resolve opcode ↔
      Coded.code s = 0 ∧ ¬ (opcode = .call ↔ opcode' = .call) := by
  cases s <;> cases opcode <;> cases opcode' <;> decide

theorem ApUpdate.Stored.resolve_swap {s : ApUpdate.Stored} {opcode opcode' : Opcode}
    (h : s.resolve opcode' ≠ s.resolve opcode) :
    s.resolve opcode = .regular ∧ s.resolve opcode' = .add2 ∨
      s.resolve opcode = .add2 ∧ s.resolve opcode' = .regular := by
  revert h
  cases s <;> cases opcode <;> cases opcode' <;> decide

/-! ### Edits -/

/-- What the instruction `i` of the word `w` has become in `i'`, the field `f` having been given a
code. A part that neither is the field's nor hangs on it is the same. -/
structure Instruction.Edited (w : Word) (f : FlagField) (code : UInt8) (i i' : Instruction) :
    Prop where
  selected : f.Selects code i'.toControl
  offset : ∀ k, i'.offset k = i.offset k
  dst : f ≠ .dstReg → i'.dst = i.dst
  op0 : f ≠ .op0Reg → i'.op0 = i.op0
  op1 : f ≠ .op1Src → i'.op1 = i.op1
  pc : f ≠ .pcUpdate → i'.pc = i.pc
  opcode : f ≠ .opcode → i'.opcode = i.opcode
  res : f ≠ .resLogic → f ≠ .pcUpdate → i'.res = i.res
  ap : f ≠ .apUpdate → f ≠ .opcode → i'.ap = i.ap
  fp : f ≠ .opcode → i'.fp = i.fp
  res_of_pc : f = .pcUpdate →
    (i'.res ≠ i.res ↔ w.code .resLogic = 0 ∧ ¬ (i.pc = .jnz ↔ i'.pc = .jnz))
  res_swap : f = .pcUpdate → i'.res ≠ i.res →
    i.res = .op1 ∧ i'.res = .unconstrained ∨ i.res = .unconstrained ∧ i'.res = .op1
  ap_of_opcode : f = .opcode →
    (i'.ap ≠ i.ap ↔ w.code .apUpdate = 0 ∧ ¬ (i.opcode = .call ↔ i'.opcode = .call))
  ap_swap : f = .opcode → i'.ap ≠ i.ap →
    i.ap = .regular ∧ i'.ap = .add2 ∨ i.ap = .add2 ∧ i'.ap = .regular
  fp_of_opcode : f = .opcode →
    (i'.fp ≠ i.fp ↔ FpUpdate.ofOpcode i'.opcode ≠ FpUpdate.ofOpcode i.opcode)

namespace Instruction

variable {w : Word} {i i' : Instruction} {f : FlagField} {code : UInt8}

theorem exists_decode_withCode (h : Instruction.decode w = .ok i) (hcode : code ∈ f.legalCodes) :
    ∃ i', Instruction.decode (w.withCode f code) = .ok i' := by
  have hfits := FlagField.toNat_lt_of_mem_legalCodes hcode
  obtain ⟨hbit, hlegal⟩ := exists_decode_iff.1 ⟨i, h⟩
  apply exists_decode_iff.2
  constructor
  · rw [Word.highBit_withCode w hfits, hbit]
  · intro g hg
    by_cases hgf : g = f
    · rw [hgf, Word.code_withCode_self w hfits]
      exact hcode
    · rw [Word.code_withCode_of_ne w hfits hgf]
      exact hlegal g hg

theorem edited_of_decode (h : Instruction.decode w = .ok i)
    (hfits : code.toNat < f.wordRange.bound)
    (h' : Instruction.decode (w.withCode f code) = .ok i') : Edited w f code i i' := by
  have hsel := selects_of_decode h
  have hself : f.Selects code i'.toControl := by
    have hsel' := selects_of_decode h' f
    rw [Word.code_withCode_self w hfits] at hsel'
    exact hsel'
  have hother : ∀ g, f ≠ g → g.Selects (w.code g) i'.toControl := by
    intro g hg
    have hsel' := selects_of_decode h' g
    rw [Word.code_withCode_of_ne w hfits hg.symm] at hsel'
    exact hsel'
  have hpc : f ≠ .pcUpdate → i'.pc = i.pc := fun hf =>
    Coded.code_injective ((hother .pcUpdate hf).trans (hsel .pcUpdate).symm)
  have hopcode : f ≠ .opcode → i'.opcode = i.opcode := fun hf =>
    Coded.code_injective ((hother .opcode hf).trans (hsel .opcode).symm)
  -- What is stored of the two dependent parts is the same after the edit, and resolved anew.
  obtain ⟨s, hs, hres⟩ := hsel .resLogic
  have hres' : f ≠ .resLogic → s.resolve i'.pc = i'.res := by
    intro hf
    obtain ⟨s', hs', hresolve⟩ := hother .resLogic hf
    have heq : s' = s := Coded.code_injective (hs'.trans hs.symm)
    rw [← heq, hresolve]
  obtain ⟨t, ht, hap⟩ := hsel .apUpdate
  have hap' : f ≠ .apUpdate → t.resolve i'.opcode = i'.ap := by
    intro hf
    obtain ⟨t', ht', hresolve⟩ := hother .apUpdate hf
    have heq : t' = t := Coded.code_injective (ht'.trans ht.symm)
    rw [← heq, hresolve]
  have hfp := fp_of_decode h
  have hfp' := fp_of_decode h'
  exact {
    selected := hself
    offset := fun k => by
      rw [offset_of_decode h', offset_of_decode h, Word.lane_withCode w hfits k.isLt]
    dst := fun hf => Coded.code_injective ((hother .dstReg hf).trans (hsel .dstReg).symm)
    op0 := fun hf => Coded.code_injective ((hother .op0Reg hf).trans (hsel .op0Reg).symm)
    op1 := fun hf => Coded.code_injective ((hother .op1Src hf).trans (hsel .op1Src).symm)
    pc := hpc
    opcode := hopcode
    res := fun hf hpcf => by rw [← hres' hf, hpc hpcf, hres]
    ap := fun hf hopf => by rw [← hap' hf, hopcode hopf, hap]
    fp := fun hf => by rw [hfp', hopcode hf, hfp]
    res_of_pc := fun hf => by
      rw [← hres' (by rw [hf]; decide), ← hres, ResLogic.Stored.resolve_ne_iff, hs]
    res_swap := fun hf => by
      rw [← hres' (by rw [hf]; decide), ← hres]
      exact ResLogic.Stored.resolve_swap
    ap_of_opcode := fun hf => by
      rw [← hap' (by rw [hf]; decide), ← hap, ApUpdate.Stored.resolve_ne_iff, ht]
    ap_swap := fun hf => by
      rw [← hap' (by rw [hf]; decide), ← hap]
      exact ApUpdate.Stored.resolve_swap
    fp_of_opcode := fun _ => by rw [hfp', hfp] }

/-- A field that is given another legal code keeps the word an instruction's, and changes what is
stored in it and what hangs on that, under the conditions of `Edited` and under no others. -/
theorem decode_withCode_edited (h : Instruction.decode w = .ok i) (hcode : code ∈ f.legalCodes) :
    (∀ k, (w.withCode f code).toNat.testBit k =
      if f.wordRange.lo ≤ k ∧ k < f.wordRange.lo + f.wordRange.width then
        code.toNat.testBit (k - f.wordRange.lo)
      else w.toNat.testBit k) ∧
    ∃ i', Instruction.decode (w.withCode f code) = .ok i' ∧ Edited w f code i i' := by
  have hfits := FlagField.toNat_lt_of_mem_legalCodes hcode
  obtain ⟨i', hi'⟩ := exists_decode_withCode h hcode
  exact ⟨Word.testBit_write f.wordRange_le hfits w, i', hi', edited_of_decode h hfits hi'⟩

theorem decode_withCode_edited_jnz :
    let plain : Instruction :=
      { dst := .ap, op0 := .ap, op1 := .op0, res := .op1, pc := .regular, ap := .regular,
        fp := .regular, opcode := .nop, off0 := 0, off1 := 0, off2 := 0 }
    Instruction.decode 0x0000_8000_8000_8000 = .ok plain ∧
    (4 : UInt8) ∈ FlagField.pcUpdate.legalCodes ∧
    ∃ i', Instruction.decode (Word.withCode 0x0000_8000_8000_8000 .pcUpdate 4) = .ok i' ∧
      Edited 0x0000_8000_8000_8000 .pcUpdate 4 plain i' ∧ i'.res = .unconstrained := by
  intro plain
  have hplain : Instruction.decode 0x0000_8000_8000_8000 = .ok plain := rfl
  have hcode : (4 : UInt8) ∈ FlagField.pcUpdate.legalCodes := by decide
  obtain ⟨_, i', hi', hedited⟩ := decode_withCode_edited hplain hcode
  have hpc : i'.pc = .jnz := Coded.code_injective hedited.selected
  have hres : i'.res ≠ plain.res := by
    rw [hedited.res_of_pc rfl, hpc]
    decide
  refine ⟨hplain, hcode, i', hi', hedited, ?_⟩
  rcases hedited.res_swap rfl hres with ⟨_, h⟩ | ⟨h, _⟩
  · exact h
  · cases h

end Instruction

end Wordcode
