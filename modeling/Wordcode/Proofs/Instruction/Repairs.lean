import Wordcode.Proofs.Instruction.Edits

/-!
# Repairing a word

A word that stands for no instruction is mended one reported fault at a time: the high bit is
cleared, or an illegal code gives way to a legal one that is chosen anew for each report. A report
is the first of the faults that are left, and mending it takes away just this one
(`faults_eq_cons_repair`). So whatever codes are chosen, every fault of the word is reported once
and in order, the repair ends, and all that no report was about is as it was.
-/

namespace Wordcode

/-! ### One repair -/

namespace DecodeError

/-- The field that a fault is about; a set high bit is about none. -/
def field? : DecodeError → Option FlagField
  | .highBitSet => none
  | .illegalCode f _ => some f

/-- The bits of the word that a fault is about. -/
def place : DecodeError → BitRange
  | .highBitSet => Word.highBitRange
  | .illegalCode f _ => f.wordRange

/-- The number that takes the place of the faulty bits. -/
def replacement (choice : FlagField → UInt8) : DecodeError → Nat
  | .highBitSet => 0
  | .illegalCode f _ => (choice f).toNat

theorem place_le (e : DecodeError) : e.place.lo + e.place.width ≤ 64 := by
  cases e with
  | highBitSet => decide
  | illegalCode f _ => exact f.wordRange_le

theorem replacement_lt {choice : FlagField → UInt8} (hchoice : ∀ f, choice f ∈ f.legalCodes)
    (e : DecodeError) : e.replacement choice < e.place.bound := by
  cases e with
  | highBitSet => exact Word.highBitRange.bound_pos
  | illegalCode f _ => exact FlagField.toNat_lt_of_mem_legalCodes (hchoice f)

theorem apart_place {e : DecodeError} {f : FlagField} (h : e.field? ≠ some f) :
    f.wordRange.Apart e.place := by
  cases e with
  | highBitSet => exact f.wordRange_apart_highBit
  | illegalCode g _ => exact FlagField.wordRange_apart fun hfg => h (congrArg some hfg.symm)

theorem lane_apart_place (e : DecodeError) {k : Nat} (hk : k < 3) :
    (Word.laneRange k).Apart e.place := by
  cases e with
  | highBitSet =>
    left
    simp only [Word.laneRange, place, Word.highBitRange]
    omega
  | illegalCode f _ => exact f.wordRange_apart_lane hk

end DecodeError

namespace Word

theorem repair_eq_write (choice : FlagField → UInt8) (w : Word) (e : DecodeError) :
    w.repair choice e = w.write e.place (e.replacement choice) := by
  cases e <;> rfl

section Repair

variable {choice : FlagField → UInt8} (hchoice : ∀ f, choice f ∈ f.legalCodes) (w : Word)
  {e : DecodeError}
include hchoice

theorem testBit_repair {k : Nat} (hk : ¬ e.place.Covers k) :
    (w.repair choice e).toNat.testBit k = w.toNat.testBit k := by
  rw [repair_eq_write, testBit_write e.place_le (e.replacement_lt hchoice)]
  exact if_neg hk

theorem get_repair {r : BitRange} (h : r.Apart e.place) :
    r.get (w.repair choice e).toNat = r.get w.toNat := by
  rw [repair_eq_write]
  exact get_write_of_apart e.place_le (e.replacement_lt hchoice) w h

theorem lane_repair {k : Nat} (hk : k < 3) : (w.repair choice e).lane k = w.lane k :=
  congrArg UInt16.ofNat (w.get_repair hchoice (e.lane_apart_place hk))

theorem code_repair {f : FlagField} (h : e.field? ≠ some f) :
    (w.repair choice e).code f = w.code f := by
  apply UInt8.toNat_inj.1
  rw [toNat_code, toNat_code]
  exact w.get_repair hchoice (DecodeError.apart_place h)

end Repair

theorem highBit_clearHighBit (w : Word) : w.clearHighBit.highBit = false := by
  have hget : highBitRange.get w.clearHighBit.toNat = 0 :=
    get_write_self (by decide) (by decide) w
  rw [highBit, hget]
  rfl

end Word

/-! ### The faults that are left -/

namespace FlagField

theorem faultsIn_congr {fields : List FlagField} {flags flags' : UInt16}
    (h : ∀ f ∈ fields, f.read flags' = f.read flags) :
    faultsIn fields flags' = faultsIn fields flags := by
  rw [faultsIn, faultsIn, List.filter_congr fun f hf => by rw [h f hf]]
  exact List.map_congr_left fun f hf => by rw [h f (List.mem_filter.1 hf).1]

/-- A legal code in the field of the first fault leaves the faults behind it. -/
theorem faultsIn_of_mended {fields : List FlagField} (hnodup : fields.Nodup)
    {flags flags' : UInt16} {f : FlagField} {code : UInt8} {rest : List DecodeError}
    (hfaults : faultsIn fields flags = .illegalCode f code :: rest)
    (hself : f.read flags' ∈ f.legalCodes)
    (hother : ∀ g, g ≠ f → g.read flags' = g.read flags) :
    faultsIn fields flags' = rest := by
  induction fields with
  | nil => cases hfaults
  | cons g fields ih =>
    obtain ⟨hg, hfields⟩ := List.nodup_cons.1 hnodup
    by_cases hlegal : g.read flags ∈ g.legalCodes
    · have hlegal' : g.read flags' ∈ g.legalCodes := by
        by_cases hgf : g = f
        · rw [hgf]
          exact hself
        · rw [hother g hgf]
          exact hlegal
      rw [faultsIn_cons_of_mem hlegal] at hfaults
      rw [faultsIn_cons_of_mem hlegal', ih hfields hfaults]
    · rw [faultsIn_cons_of_not_mem hlegal] at hfaults
      obtain ⟨hfirst, hrest⟩ := List.cons.inj hfaults
      obtain ⟨hgf, _⟩ := DecodeError.illegalCode.inj hfirst
      rw [faultsIn_cons_of_mem (hgf ▸ hself), ← hrest]
      refine faultsIn_congr fun g' hg' => hother g' ?_
      rintro rfl
      exact hg (hgf ▸ hg')

theorem exists_of_mem_faultsIn {fields : List FlagField} {flags : UInt16} {e : DecodeError}
    (h : e ∈ faultsIn fields flags) : ∃ f ∈ fields, e = .illegalCode f (f.read flags) := by
  obtain ⟨f, hf, heq⟩ := List.mem_map.1 h
  exact ⟨f, (List.mem_filter.1 hf).1, heq.symm⟩

end FlagField

namespace Word

theorem faults_eq_cons_repair {choice : FlagField → UInt8}
    (hchoice : ∀ f, choice f ∈ f.legalCodes) {w : Word} {e : DecodeError}
    (h : Instruction.decode w = .error e) : w.faults = e :: (w.repair choice e).faults := by
  have hhead : w.faults.head? = some e := by
    rw [← Instruction.fault?_decode, fault?_eq_some_iff]
    exact h
  rw [faults_eq] at hhead
  rw [faults_eq, faults_eq]
  cases hbit : w.highBit with
  | true =>
    rw [hbit] at hhead
    have he : e = .highBitSet := (Option.some.inj hhead).symm
    have hcodes : ∀ f : FlagField, f.read (w.repair choice e).lanes.flags = f.read w.lanes.flags :=
      fun f => w.code_repair hchoice (by rw [he]; exact fun hnone => nomatch hnone)
    have hclear : (w.repair choice e).highBit = false := by
      rw [he]
      exact w.highBit_clearHighBit
    rw [FlagField.faultsIn_congr fun f _ => hcodes f, hclear, he]
    rfl
  | false =>
    rw [hbit, if_neg Bool.false_ne_true, List.nil_append] at hhead
    obtain ⟨rest, hfaults⟩ := List.head?_eq_some_iff.1 hhead
    obtain ⟨f, _, he⟩ := FlagField.exists_of_mem_faultsIn (List.mem_of_mem_head? hhead)
    have hfits := FlagField.toNat_lt_of_mem_legalCodes (hchoice f)
    have hself : f.read (w.repair choice e).lanes.flags = choice f := by
      rw [he]
      exact w.code_withCode_self hfits
    have hother : ∀ g, g ≠ f →
        g.read (w.repair choice e).lanes.flags = g.read w.lanes.flags := by
      intro g hg
      refine w.code_repair hchoice ?_
      rw [he]
      exact fun hsome => hg (Option.some.inj hsome).symm
    have hclear : (w.repair choice e).highBit = false := by
      rw [he, ← hbit]
      exact w.highBit_withCode hfits
    have hrest : FlagField.faultsIn FlagField.checked (w.repair choice e).lanes.flags = rest :=
      FlagField.faultsIn_of_mended (by decide) (he ▸ hfaults) (hself ▸ hchoice f) hother
    rw [hclear, hrest, hfaults]
    rfl

/-! ### Repairs one after the other -/

/-- The second word is the first one with the reported faults mended, each by itself and as decoding
has reported it; the legal codes may be chosen differently each time. -/
inductive Repaired : Word → List DecodeError → Word → Prop
  | refl (w : Word) : Repaired w [] w
  | step {w last : Word} {e : DecodeError} {reports : List DecodeError}
      (choice : FlagField → UInt8) :
      Instruction.decode w = .error e → (∀ f, choice f ∈ f.legalCodes) →
      Repaired (w.repair choice e) reports last → Repaired w (e :: reports) last

variable {w last : Word} {reports : List DecodeError}

theorem Repaired.faults_eq_append (h : w.Repaired reports last) :
    w.faults = reports ++ last.faults := by
  induction h with
  | refl w => rfl
  | step choice he hchoice _ ih =>
    rw [faults_eq_cons_repair hchoice he, ih]
    rfl

theorem Repaired.concat (h : w.Repaired reports last) {e : DecodeError}
    (he : Instruction.decode last = .error e) {choice : FlagField → UInt8}
    (hchoice : ∀ f, choice f ∈ f.legalCodes) :
    w.Repaired (reports ++ [e]) (last.repair choice e) := by
  induction h with
  | refl w => exact Repaired.step choice he hchoice (Repaired.refl _)
  | step choice' he' hchoice' _ ih => exact Repaired.step choice' he' hchoice' (ih he)

/-- What each of the repairs leaves alone is the same at the end. -/
theorem Repaired.eq_of_forall {α : Type} (view : Word → α) (p : DecodeError → Prop)
    (hview : ∀ (choice : FlagField → UInt8) (w : Word) (e : DecodeError),
      (∀ f, choice f ∈ f.legalCodes) → p e → view (w.repair choice e) = view w)
    (h : w.Repaired reports last) (hp : ∀ e ∈ reports, p e) : view last = view w := by
  induction h with
  | refl w => rfl
  | step choice he hchoice _ ih =>
    obtain ⟨hfirst, hrest⟩ := List.forall_mem_cons.1 hp
    rw [ih hrest, hview choice _ _ hchoice hfirst]

theorem Repaired.testBit_eq (h : w.Repaired reports last) {k : Nat}
    (hk : ∀ e ∈ reports, ¬ e.place.Covers k) : last.toNat.testBit k = w.toNat.testBit k :=
  h.eq_of_forall (fun v => v.toNat.testBit k) (fun e => ¬ e.place.Covers k)
    (fun _ v _ hchoice he => v.testBit_repair hchoice he) hk

theorem Repaired.lane_eq (h : w.Repaired reports last) {k : Nat} (hk : k < 3) :
    last.lane k = w.lane k :=
  h.eq_of_forall (fun v => v.lane k) (fun _ => True)
    (fun _ v _ hchoice _ => v.lane_repair hchoice hk) fun _ _ => trivial

theorem Repaired.code_eq (h : w.Repaired reports last) {f : FlagField}
    (hf : ∀ e ∈ reports, e.field? ≠ some f) : last.code f = w.code f :=
  h.eq_of_forall (fun v => v.code f) (fun e => e.field? ≠ some f)
    (fun _ v _ hchoice he => v.code_repair hchoice he) hf

theorem faults_eq_nil_iff {w : Word} :
    w.faults = [] ↔ ∃ i, Instruction.decode w = .ok i := by
  rw [← fault?_eq_none_iff, Instruction.fault?_decode, List.head?_eq_none_iff]

theorem Repaired.decode_iff (h : w.Repaired reports last) :
    (∃ i, Instruction.decode last = .ok i) ↔ reports = w.faults := by
  rw [← faults_eq_nil_iff, h.faults_eq_append, List.self_eq_append_right]

/-! ### With one code for each field -/

theorem repaired_repairs {choice : FlagField → UInt8} (hchoice : ∀ f, choice f ∈ f.legalCodes)
    (n : Nat) (w : Word) : w.Repaired (w.repairs choice n).1 (w.repairs choice n).2 := by
  induction n generalizing w with
  | zero => exact Repaired.refl w
  | succ n ih =>
    rw [repairs]
    cases hdecode : Instruction.decode w with
    | ok i => exact Repaired.refl w
    | error e => exact Repaired.step choice hdecode hchoice (ih _)

theorem faults_repairs {choice : FlagField → UInt8} (hchoice : ∀ f, choice f ∈ f.legalCodes)
    (n : Nat) (w : Word) : (w.repairs choice n).2.faults = w.faults.drop n := by
  induction n generalizing w with
  | zero => rfl
  | succ n ih =>
    rw [repairs]
    cases hdecode : Instruction.decode w with
    | ok i =>
      have hnil : w.faults = [] := faults_eq_nil_iff.2 ⟨i, hdecode⟩
      rw [hnil, List.drop_nil]
    | error e =>
      rw [faults_eq_cons_repair hchoice hdecode, List.drop_succ_cons]
      exact ih _

theorem repairs_eq_take {choice : FlagField → UInt8} (hchoice : ∀ f, choice f ∈ f.legalCodes)
    (n : Nat) (w : Word) : (w.repairs choice n).1 = w.faults.take n := by
  have happend := (repaired_repairs hchoice n w).faults_eq_append
  rw [faults_repairs hchoice] at happend
  exact List.append_cancel_right (happend.symm.trans (List.take_append_drop n w.faults).symm)

/-! ### The faults of a word -/

theorem length_faults (w : Word) :
    w.faults.length = (if w.toNat.testBit 63 then 1 else 0) +
      FlagField.checked.countP fun f => w.code f ∉ f.legalCodes := by
  rw [faults, List.length_append, List.length_map, ← List.countP_eq_length_filter,
    highBit_eq_testBit]
  cases w.toNat.testBit 63 <;> rfl

theorem fields_faults_sublist (w : Word) :
    (w.faults.map DecodeError.field?).Sublist (none :: FlagField.checked.map some) := by
  have hcodes : ((FlagField.checked.filter fun f => w.code f ∉ f.legalCodes).map fun f =>
      DecodeError.illegalCode f (w.code f)).map DecodeError.field? =
      (FlagField.checked.filter fun f => w.code f ∉ f.legalCodes).map some := List.map_map
  have hchecked := (List.filter_sublist (p := fun f => w.code f ∉ f.legalCodes)
    (l := FlagField.checked)).map some
  rw [faults, List.map_append, hcodes]
  cases w.highBit with
  | true => exact hchecked.cons_cons none
  | false => exact hchecked.cons none

theorem code_of_mem_faults {w : Word} {f : FlagField} {code : UInt8}
    (h : .illegalCode f code ∈ w.faults) : f ∈ FlagField.checked ∧ code = w.code f := by
  rw [faults_eq, List.mem_append] at h
  rcases h with h | h
  · split at h
    · cases List.mem_singleton.1 h
    · cases h
  · obtain ⟨g, hg, heq⟩ := FlagField.exists_of_mem_faultsIn h
    obtain ⟨hfg, hcode⟩ := DecodeError.illegalCode.inj heq
    rw [hfg, hcode]
    exact ⟨hg, rfl⟩

end Word

/-! ### What is left of the word -/

/-- The instruction has from the word its offsets, and every part that hangs on no other field than
those in which the word's codes are kept: the part that these codes of the word stand for. -/
structure Instruction.Retains (i : Instruction) (w : Word) (kept : FlagField → Prop) : Prop where
  offset : ∀ k : Fin 3, i.offset k = Offset.unbias (w.lane k)
  dst : Coded.ofCode? Register (w.code .dstReg) = some i.dst
  op0 : Coded.ofCode? Register (w.code .op0Reg) = some i.op0
  op1 : kept .op1Src → Coded.ofCode? Op1Source (w.code .op1Src) = some i.op1
  pc : kept .pcUpdate → Coded.ofCode? PcUpdate (w.code .pcUpdate) = some i.pc
  opcode : kept .opcode → Coded.ofCode? Opcode (w.code .opcode) = some i.opcode
  res : kept .resLogic → kept .pcUpdate → ∃ s pc,
    Coded.ofCode? ResLogic.Stored (w.code .resLogic) = some s ∧
    Coded.ofCode? PcUpdate (w.code .pcUpdate) = some pc ∧ i.res = s.resolve pc
  ap : kept .apUpdate → kept .opcode → ∃ s opcode,
    Coded.ofCode? ApUpdate.Stored (w.code .apUpdate) = some s ∧
    Coded.ofCode? Opcode (w.code .opcode) = some opcode ∧ i.ap = s.resolve opcode
  fp : kept .opcode → ∃ opcode,
    Coded.ofCode? Opcode (w.code .opcode) = some opcode ∧ i.fp = .ofOpcode opcode

namespace Word

variable {w last : Word} {reports : List DecodeError}

theorem Repaired.code_eq_of_not_reported (h : w.Repaired reports last) {f : FlagField}
    (hf : ∀ code, .illegalCode f code ∉ reports) : last.code f = w.code f := by
  refine h.code_eq fun e he hfield => ?_
  cases e with
  | highBitSet => cases hfield
  | illegalCode g code =>
    obtain rfl : g = f := Option.some.inj hfield
    exact hf code he

theorem Repaired.not_reported (h : w.Repaired reports last) {f : FlagField}
    (hf : f ∉ FlagField.checked) (code : UInt8) : .illegalCode f code ∉ reports := by
  intro hmem
  have hfault : .illegalCode f code ∈ w.faults := by
    rw [h.faults_eq_append]
    exact List.mem_append_left _ hmem
  exact hf (code_of_mem_faults hfault).1

theorem Repaired.retains (h : w.Repaired reports last) {i : Instruction}
    (hi : Instruction.decode last = .ok i) :
    i.Retains w fun f => ∀ code, .illegalCode f code ∉ reports := by
  have hsel : ∀ f : FlagField, (∀ code, .illegalCode f code ∉ reports) →
      f.Selects (w.code f) i.toControl := by
    intro f hf
    rw [← h.code_eq_of_not_reported hf]
    exact Instruction.selects_of_decode hi f
  have hpc := fun hkept => Coded.ofCode?_eq_some_iff.2 (hsel .pcUpdate hkept)
  have hopcode := fun hkept => Coded.ofCode?_eq_some_iff.2 (hsel .opcode hkept)
  exact {
    offset := fun k => by rw [Instruction.offset_of_decode hi, h.lane_eq k.isLt]
    dst := Coded.ofCode?_eq_some_iff.2 (hsel .dstReg (h.not_reported (by decide)))
    op0 := Coded.ofCode?_eq_some_iff.2 (hsel .op0Reg (h.not_reported (by decide)))
    op1 := fun hkept => Coded.ofCode?_eq_some_iff.2 (hsel .op1Src hkept)
    pc := hpc
    opcode := hopcode
    res := fun hkept hkeptPc => by
      obtain ⟨s, hs, hres⟩ := hsel .resLogic hkept
      exact ⟨s, i.pc, Coded.ofCode?_eq_some_iff.2 hs, hpc hkeptPc, hres.symm⟩
    ap := fun hkept hkeptOpcode => by
      obtain ⟨s, hs, hap⟩ := hsel .apUpdate hkept
      exact ⟨s, i.opcode, Coded.ofCode?_eq_some_iff.2 hs, hopcode hkeptOpcode, hap.symm⟩
    fp := fun hkept => ⟨i.opcode, hopcode hkept, Instruction.fp_of_decode hi⟩ }

/-- Repairing a word reports each of its faults once: first the high bit and then the illegal codes,
each with the code that the word has in the field, and the field on which another one depends before
that one. Whatever legal codes are chosen, the repair goes on until all the faults are reported and
not further, and then the word stands for an instruction. Of the first word it keeps every bit that
no fault is about, and the instruction keeps every part that no repaired code has to do with. -/
theorem repaired_reports_each_fault (w : Word) :
    (w.faults.length = (if w.toNat.testBit 63 then 1 else 0) +
      FlagField.checked.countP fun f => w.code f ∉ f.legalCodes) ∧
    (w.faults.map DecodeError.field?).Sublist (none :: FlagField.checked.map some) ∧
    (∀ f code, .illegalCode f code ∈ w.faults → code = w.code f) ∧
    (∀ choice : FlagField → UInt8, (∀ f, choice f ∈ f.legalCodes) → ∀ n,
      w.Repaired (w.repairs choice n).1 (w.repairs choice n).2 ∧
      (w.repairs choice n).1 = w.faults.take n ∧
      ((∃ i, Instruction.decode (w.repairs choice n).2 = .ok i) ↔ w.faults.length ≤ n)) ∧
    ∀ reports last, w.Repaired reports last →
      reports <+: w.faults ∧
      ((∃ i, Instruction.decode last = .ok i) ↔ reports = w.faults) ∧
      (∀ e, Instruction.decode last = .error e → ∀ choice : FlagField → UInt8,
        (∀ f, choice f ∈ f.legalCodes) → w.Repaired (reports ++ [e]) (last.repair choice e)) ∧
      (∀ k, (∀ e ∈ reports, ¬ e.place.Covers k) →
        last.toNat.testBit k = w.toNat.testBit k) ∧
      ∀ i, Instruction.decode last = .ok i →
        i.Retains w fun f => ∀ code, .illegalCode f code ∉ reports := by
  refine ⟨w.length_faults, w.fields_faults_sublist, fun f code hmem => (code_of_mem_faults hmem).2,
    ?_, ?_⟩
  · intro choice hchoice n
    refine ⟨repaired_repairs hchoice n w, repairs_eq_take hchoice n w, ?_⟩
    rw [← faults_eq_nil_iff, faults_repairs hchoice, List.drop_eq_nil_iff]
  · intro reports last h
    refine ⟨⟨last.faults, h.faults_eq_append.symm⟩, h.decode_iff, ?_, ?_, ?_⟩
    · intro e he choice hchoice
      exact h.concat he hchoice
    · intro k hk
      exact h.testBit_eq hk
    · intro i hi
      exact h.retains hi

theorem repaired_reports_each_fault_of_six :
    let w : Word := 0xFFFC_8000_7FFF_8001
    (∀ f : FlagField, (1 : UInt8) ∈ f.legalCodes) ∧
    (w.repairs (fun _ => 1) 6).1 =
      [.highBitSet, .illegalCode .op1Src 7, .illegalCode .pcUpdate 7, .illegalCode .resLogic 3,
       .illegalCode .opcode 7, .illegalCode .apUpdate 3] ∧
    ∃ i, Instruction.decode (w.repairs (fun _ => 1) 6).2 = .ok i ∧
      i.offset 0 = 1 ∧ i.offset 1 = -1 ∧ i.dst = .ap := by
  intro w
  have hlegal : ∀ f : FlagField, (1 : UInt8) ∈ f.legalCodes := by
    intro f
    cases f <;> decide
  obtain ⟨_, _, _, hrepairs, hrun⟩ := repaired_reports_each_fault w
  obtain ⟨hrepaired, hreports, hdecode⟩ := hrepairs (fun _ => 1) hlegal 6
  have hfaults : w.faults.take 6 =
      [.highBitSet, .illegalCode .op1Src 7, .illegalCode .pcUpdate 7, .illegalCode .resLogic 3,
       .illegalCode .opcode 7, .illegalCode .apUpdate 3] := by decide
  obtain ⟨i, hi⟩ := hdecode.2 (by decide)
  have hretains := (hrun _ _ hrepaired).2.2.2.2 i hi
  have hlane0 : Offset.unbias (w.lane 0) = 1 := by decide
  have hlane1 : Offset.unbias (w.lane 1) = -1 := by decide
  have hdst : Coded.ofCode? Register (w.code .dstReg) = some .ap := by decide
  exact ⟨hlegal, hreports.trans hfaults, i, hi, (hretains.offset 0).trans hlane0,
    (hretains.offset 1).trans hlane1, Option.some.inj (hretains.dst.symm.trans hdst)⟩

end Word

end Wordcode
