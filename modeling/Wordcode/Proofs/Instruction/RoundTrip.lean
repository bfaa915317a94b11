import Mathlib.Logic.ExistsUnique
import Wordcode.Proofs.Word.Fields

/-!
# Decoding and encoding are inverse

A word stands for an instruction exactly if the instruction is coherent and the word is the one
that it is encoded to. The part of a word that holds choices is settled first, field by field
(`decode_eq_ok_iff_read`), then brought to the flag block that holds all of them.
-/

namespace Wordcode

/-! ### Single fields -/

theorem FlagField.select_eq_ok_iff {α : Type} [Closed α] [Coded α] {f : FlagField}
    {flags : UInt16} {a : α} : f.select α flags = .ok a ↔ f.read flags = Coded.code a := by
  have hcode : Coded.ofCode? α (f.read flags) = some a ↔ f.read flags = Coded.code a :=
    Coded.ofCode?_eq_some_iff.trans eq_comm
  rw [← hcode, select]
  cases Coded.ofCode? α (f.read flags) with
  | none => simp only [reduceCtorEq]
  | some b => simp only [Except.ok.injEq, Option.some.injEq]

theorem FlagField.selectRegister_eq_iff {f : FlagField} (hf : f.range.bound = 2) {flags : UInt16}
    {r : Register} : f.selectRegister flags = r ↔ f.read flags = Coded.code r := by
  have hlt := f.read_lt flags
  have hone : ¬ f.read flags = 0 ↔ f.read flags = 1 := by
    rw [← UInt8.toNat_inj, ← UInt8.toNat_inj, UInt8.toNat_zero, UInt8.toNat_one]
    omega
  rw [selectRegister]
  cases r with
  | ap => simp [Coded.code]
  | fp => simp [Coded.code, hone]

/-! ### Flag blocks -/

namespace Control

theorem coherent_iff {c : Control} :
    c.Coherent ↔ c.fp = .ofOpcode c.opcode ∧ c.res.stored.resolve c.pc = c.res ∧
      c.ap.stored.resolve c.opcode = c.ap := by
  rw [ResLogic.resolve_stored_iff, ApUpdate.resolve_stored_iff, and_assoc]
  rfl

theorem decode_eq_ok_iff_read {flags : UInt16} {c : Control} :
    Control.decode flags = .ok c ↔ c.Coherent ∧ ∀ f : FlagField, f.read flags = c.code f := by
  simp only [decode, bind_eq_ok_iff, FlagField.select_eq_ok_iff, pure, Except.pure,
    Except.ok.injEq]
  refine ⟨?_, ?_⟩
  · intro h
    obtain ⟨op1, hop1, pc, hpc, res, hres, opcode, hopcode, ap, hap, hc⟩ := h
    subst hc
    -- What is resolved is stored as it was, so that resolving it again changes nothing.
    refine ⟨coherent_iff.2 ⟨rfl, ?_, ?_⟩, ?_⟩
    · rw [ResLogic.stored_resolve]
    · rw [ApUpdate.stored_resolve]
    · intro f
      cases f with
      | dstReg => exact (FlagField.selectRegister_eq_iff rfl).1 rfl
      | op0Reg => exact (FlagField.selectRegister_eq_iff rfl).1 rfl
      | op1Src => exact hop1
      | resLogic => rw [code, ResLogic.stored_resolve, hres]
      | pcUpdate => exact hpc
      | apUpdate => rw [code, ApUpdate.stored_resolve, hap]
      | opcode => exact hopcode
  · intro h
    obtain ⟨hcoherent, hread⟩ := h
    obtain ⟨hfp, hres, hap⟩ := coherent_iff.1 hcoherent
    refine ⟨c.op1, hread .op1Src, c.pc, hread .pcUpdate, c.res.stored, hread .resLogic,
      c.opcode, hread .opcode, c.ap.stored, hread .apUpdate, ?_⟩
    rw [(FlagField.selectRegister_eq_iff rfl).2 (hread .dstReg),
      (FlagField.selectRegister_eq_iff rfl).2 (hread .op0Reg), hres, hap, ← hfp]

theorem toNat_flags (c : Control) :
    c.flags.toNat = (Coded.code c.dst).toNat + 2 * (Coded.code c.op0).toNat
      + 4 * (Coded.code c.op1).toNat + 32 * (Coded.code c.res.stored).toNat
      + 128 * (Coded.code c.pc).toNat + 1024 * (Coded.code c.ap.stored).toNat
      + 4096 * (Coded.code c.opcode).toNat :=
  FlagField.toNat_assemble c.fits_code

theorem toNat_flags_lt (c : Control) : c.flags.toNat < 0x8000 := by
  have hfits (f : FlagField) := c.fits_code f
  have h0 := hfits .dstReg
  have h1 := hfits .op0Reg
  have h2 := hfits .op1Src
  have h3 := hfits .resLogic
  have h4 := hfits .pcUpdate
  have h5 := hfits .apUpdate
  have h6 := hfits .opcode
  simp only [code, FlagField.range, BitRange.bound, Nat.reduceShiftLeft] at h0 h1 h2 h3 h4 h5 h6
  rw [toNat_flags]
  omega

theorem read_eq_code_iff {flags : UInt16} (h : flags.toNat < 0x8000) {c : Control} :
    (∀ f : FlagField, f.read flags = c.code f) ↔ flags = c.flags := by
  refine ⟨?_, ?_⟩
  · intro hread
    have hcode : c.code = fun f => f.read flags := (funext hread).symm
    rw [Control.flags, hcode, FlagField.assemble_read h]
  · intro hflags f
    rw [hflags, Control.flags, FlagField.read_assemble c.fits_code]

end Control

/-! ### Words -/

theorem Offset.unbias_eq_iff {raw : UInt16} {o : Int16} :
    Offset.unbias raw = o ↔ raw = Offset.bias o := by
  refine ⟨?_, ?_⟩
  · intro h
    rw [← h, Offset.bias_unbias]
  · intro h
    rw [h, Offset.unbias_bias]

namespace Instruction

theorem lanes_encode (i : Instruction) :
    i.encode.lanes = ⟨Offset.bias i.off0, Offset.bias i.off1, Offset.bias i.off2, i.flags⟩ :=
  Lanes.lanes_toWord _

theorem toNat_encode (i : Instruction) :
    (i.encode.toNat : Int) =
      (i.off0.toInt + 0x8000) + 0x1_0000 * (i.off1.toInt + 0x8000)
        + 0x1_0000_0000 * (i.off2.toInt + 0x8000)
        + 0x1_0000_0000_0000 * i.flags.toNat := by
  have h0 := Offset.toNat_bias i.off0
  have h1 := Offset.toNat_bias i.off1
  have h2 := Offset.toNat_bias i.off2
  rw [encode, Lanes.toNat_toWord]
  dsimp only
  omega

theorem eq_encode_iff {w : Word} {i : Instruction} :
    w = i.encode ↔ Offset.unbias w.lanes.off0 = i.off0 ∧ Offset.unbias w.lanes.off1 = i.off1 ∧
      Offset.unbias w.lanes.off2 = i.off2 ∧ w.lanes.flags = i.flags := by
  rw [Offset.unbias_eq_iff, Offset.unbias_eq_iff, Offset.unbias_eq_iff]
  refine ⟨?_, ?_⟩
  · intro h
    rw [h, lanes_encode]
    exact ⟨rfl, rfl, rfl, rfl⟩
  · intro h
    obtain ⟨h0, h1, h2, hflags⟩ := h
    rw [← w.toWord_lanes, encode, ← h0, ← h1, ← h2, ← hflags]

theorem highBit_encode (i : Instruction) : i.encode.highBit = false := by
  rw [Word.highBit_eq_false_iff, lanes_encode]
  exact i.toNat_flags_lt

/-- What decoding a word to an instruction comes to, part by part. -/
theorem decode_eq_ok_iff_parts {w : Word} {i : Instruction} :
    Instruction.decode w = .ok i ↔
      w.highBit = false ∧ Control.decode w.lanes.flags = .ok i.toControl ∧
        Offset.unbias w.lanes.off0 = i.off0 ∧ Offset.unbias w.lanes.off1 = i.off1 ∧
        Offset.unbias w.lanes.off2 = i.off2 := by
  rw [Instruction.decode]
  cases hbit : w.highBit with
  | true => simp only [ite_true, reduceCtorEq, false_and]
  | false =>
    cases Control.decode w.lanes.flags with
    | error e => simp [Except.map]
    | ok c =>
      cases i with
      | mk control off0 off1 off2 => simp [Except.map]

theorem decode_eq_ok_iff_encode {w : Word} {i : Instruction} :
    Instruction.decode w = .ok i ↔ i.Coherent ∧ w = i.encode := by
  rw [decode_eq_ok_iff_parts, Control.decode_eq_ok_iff_read]
  refine ⟨?_, ?_⟩
  · intro h
    obtain ⟨hbit, hcontrol, h0, h1, h2⟩ := h
    have hflags := (Control.read_eq_code_iff (Word.highBit_eq_false_iff.1 hbit)).1 hcontrol.2
    exact ⟨hcontrol.1, eq_encode_iff.2 ⟨h0, h1, h2, hflags⟩⟩
  · intro h
    obtain ⟨hcoherent, hw⟩ := h
    have hbit : w.highBit = false := by rw [hw, highBit_encode]
    obtain ⟨h0, h1, h2, hflags⟩ := eq_encode_iff.1 hw
    have hread := (Control.read_eq_code_iff (Word.highBit_eq_false_iff.1 hbit)).2 hflags
    exact ⟨hbit, ⟨hcoherent, hread⟩, h0, h1, h2⟩

/-- Decoding and the layout of words are exact inverses: the instructions that words stand for
are the coherent ones, and each of them is stood for by the one word whose number is the sum of
its offsets and codes at their places. -/
theorem decode_inverse_encode (w : Word) (i : Instruction) :
    (Instruction.decode w = .ok i ↔ i.Coherent ∧ w = i.encode) ∧
    (i.encode.toNat : Int) =
      (i.off0.toInt + 0x8000) + 0x1_0000 * (i.off1.toInt + 0x8000)
        + 0x1_0000_0000 * (i.off2.toInt + 0x8000)
        + 0x1_0000_0000_0000 * ((Coded.code i.dst).toNat + 2 * (Coded.code i.op0).toNat
          + 4 * (Coded.code i.op1).toNat + 32 * (Coded.code i.res.stored).toNat
          + 128 * (Coded.code i.pc).toNat + 1024 * (Coded.code i.ap.stored).toNat
          + 4096 * (Coded.code i.opcode).toNat) ∧
    (i.Coherent ↔ ∃! v : Word, Instruction.decode v = .ok i) := by
  refine ⟨decode_eq_ok_iff_encode, ?_, ?_, ?_⟩
  · have hword := i.toNat_encode
    have hflags := i.toNat_flags
    omega
  · intro h
    refine ⟨i.encode, decode_eq_ok_iff_encode.2 ⟨h, rfl⟩, ?_⟩
    intro v hv
    exact (decode_eq_ok_iff_encode.1 hv).2
  · intro h
    obtain ⟨v, hv, _⟩ := h
    exact (decode_eq_ok_iff_encode.1 hv).1

end Instruction

end Wordcode
