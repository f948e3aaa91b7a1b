import Dacrs.Vm8051

/-!
# The parity flag of the 8051 core

`PSW.P` is brought up to date where the accumulator is set by name or by bit.  A write by address,
`SetRamData`, reaches the accumulator and the program status word like any other byte and leaves the
flag alone, and a bit instruction may name the flag itself.  `stepRun_parityOk_iff` says for every
opcode when the flag is right afterwards.
-/

open Codec (Bytes)

namespace Dacrs

namespace CVm8051

/-! ## The flag and the accumulator -/

/-- The parity of a byte, as `Updata_A_P_Flag` computes it. -/
def parity (a : UInt8) : Bool :=
  let a := a ^^^ a >>> 4
  let a := a ^^^ a >>> 2
  let a := a ^^^ a >>> 1
  a &&& 1 == 1

/-- The flag in a program status word. -/
def pBit (psw : UInt8) : Bool := psw &&& parityBit != 0

/-- `PSW.P` is the parity of the accumulator. -/
def ParityOk (c : CVm8051) : Prop := c.flag parityBit = parity c.acc

instance parityOkDecidable (c : CVm8051) : Decidable c.ParityOk := by
  unfold ParityOk
  infer_instance

theorem every_byte {P : UInt8 → Prop} (h : ∀ n < 256, P (UInt8.ofNat n)) (data : UInt8) : P data := by
  rw [← UInt8.ofNat_toNat (x := data)]
  exact h data.toNat data.toNat_lt

theorem or_and (p q r : UInt8) : (p ||| q) &&& r = p &&& r ||| q &&& r := by
  apply UInt8.toBitVec_inj.mp
  simp only [UInt8.toBitVec_and, UInt8.toBitVec_or]
  ext i hi
  simp [Bool.and_or_distrib_right]

theorem pBit_or {bit : UInt8} (hbit : bit &&& parityBit = 0) (psw : UInt8) :
    pBit (psw ||| bit) = pBit psw := by
  unfold pBit
  rw [or_and, hbit, UInt8.or_zero]

theorem pBit_and {bit : UInt8} (hbit : ~~~bit &&& parityBit = parityBit) (psw : UInt8) :
    pBit (psw &&& ~~~bit) = pBit psw := by
  unfold pBit
  rw [UInt8.and_assoc, hbit]

theorem pBit_or_parityBit (psw : UInt8) : pBit (psw ||| parityBit) = true := by
  revert psw
  exact every_byte (by decide +kernel)

theorem pBit_and_not_parityBit (psw : UInt8) : pBit (psw &&& ~~~parityBit) = false := by
  revert psw
  exact every_byte (by decide +kernel)

section
variable (c : CVm8051)

@[simp] theorem parityOk_next (n : UInt16) : (c.next n).ParityOk ↔ c.ParityOk := Iff.rfl

@[simp] theorem parityOk_jumpRel (rel : UInt8) : (c.jumpRel rel).ParityOk ↔ c.ParityOk := Iff.rfl

@[simp] theorem parityOk_jumpIf (on : Bool) (rel : UInt8) :
    (c.jumpIf on rel).ParityOk ↔ c.ParityOk := by
  cases on
  · exact Iff.rfl
  · exact Iff.rfl

@[simp] theorem parityOk_jump2 (on : Bool) : (c.jump2 on).ParityOk ↔ c.ParityOk :=
  parityOk_jumpIf _ on _

@[simp] theorem parityOk_jumpBit (on : Bool) : (c.jumpBit on).ParityOk ↔ c.ParityOk :=
  parityOk_jumpIf _ on _

@[simp] theorem parityOk_setRamDataAt (addr data : UInt8) :
    (c.setRamDataAt addr data).ParityOk ↔ c.ParityOk := Iff.rfl

@[simp] theorem parityOk_setExRam (addr : UInt16) (data : UInt8) :
    (c.setExRam addr data).ParityOk ↔ c.ParityOk := Iff.rfl

/-- The other special registers. -/
theorem parityOk_setSfr {addr : UInt8} (hacc : addr ≠ accAddr) (hpsw : addr ≠ pswAddr) (data : UInt8) :
    (c.setSfr addr data).ParityOk ↔ c.ParityOk := by
  unfold ParityOk flag psw acc setSfr
  dsimp only
  rw [Function.update_of_ne hacc.symm, Function.update_of_ne hpsw.symm]

@[simp] theorem parityOk_setSp (data : UInt8) : (c.setSp data).ParityOk ↔ c.ParityOk :=
  c.parityOk_setSfr (by decide) (by decide) data

@[simp] theorem parityOk_setB (data : UInt8) : (c.setB data).ParityOk ↔ c.ParityOk :=
  c.parityOk_setSfr (by decide) (by decide) data

@[simp] theorem parityOk_setDptr (data : UInt16) : (c.setDptr data).ParityOk ↔ c.ParityOk := by
  unfold setDptr
  rw [parityOk_setSfr _ (by decide) (by decide), parityOk_setSfr _ (by decide) (by decide)]

@[simp] theorem parityOk_setPC (pc : UInt16) : ({ c with pc } : CVm8051).ParityOk ↔ c.ParityOk :=
  Iff.rfl

theorem acc_setFlag (bit : UInt8) (on : Bool) : (c.setFlag bit on).acc = c.acc := by
  have hne : accAddr ≠ pswAddr := by decide
  unfold setFlag setSfr acc
  dsimp only
  rw [Function.update_of_ne hne]

theorem psw_setFlag (bit : UInt8) (on : Bool) :
    (c.setFlag bit on).psw = if on then c.psw ||| bit else c.psw &&& ~~~bit := by
  exact Function.update_self pswAddr _ c.chipSfr

/-- The flags besides the parity flag. -/
theorem parityOk_setFlag {bit : UInt8} (hset : bit &&& parityBit = 0)
    (hclear : ~~~bit &&& parityBit = parityBit) (on : Bool) :
    (c.setFlag bit on).ParityOk ↔ c.ParityOk := by
  have hflag : ∀ c : CVm8051, c.flag parityBit = pBit c.psw := fun _ => rfl
  unfold ParityOk
  rw [acc_setFlag, hflag, hflag, psw_setFlag]
  cases on
  · rw [if_neg Bool.false_ne_true, pBit_and hclear]
  · rw [if_pos rfl, pBit_or hset]

@[simp] theorem parityOk_setCarry (on : Bool) : (c.setFlag carryBit on).ParityOk ↔ c.ParityOk :=
  c.parityOk_setFlag (by decide) (by decide) on

@[simp] theorem parityOk_setOverflow (on : Bool) :
    (c.setFlag overflowBit on).ParityOk ↔ c.ParityOk :=
  c.parityOk_setFlag (by decide) (by decide) on

@[simp] theorem parityOk_setAuxiliary (on : Bool) :
    (c.setFlag auxiliaryBit on).ParityOk ↔ c.ParityOk :=
  c.parityOk_setFlag (by decide) (by decide) on

@[simp] theorem parityOk_carryBy (f : Bool → Bool → Bool) : (c.carryBy f).ParityOk ↔ c.ParityOk :=
  c.parityOk_setCarry _

/-- `Updata_A_P_Flag` makes it right. -/
theorem parityOk_updataParity : c.updataParity.ParityOk := by
  have hflag : ∀ c : CVm8051, c.flag parityBit = pBit c.psw := fun _ => rfl
  have hup : c.updataParity = c.setFlag parityBit (parity c.acc) := rfl
  unfold ParityOk
  rw [hup, acc_setFlag, hflag, psw_setFlag]
  cases parity c.acc
  · rw [if_neg Bool.false_ne_true, pBit_and_not_parityBit]
  · rw [if_pos rfl, pBit_or_parityBit]

theorem acc_setAcc (data : UInt8) : (c.setAcc data).acc = data := by
  have hset : (c.setSfr accAddr data).acc = data := by
    exact Function.update_self accAddr data c.chipSfr
  have hup : c.setAcc data = (c.setSfr accAddr data).setFlag parityBit (parity (c.setSfr accAddr data).acc) :=
    rfl
  rw [hup, acc_setFlag, hset]

@[simp] theorem parityOk_setAcc (data : UInt8) : (c.setAcc data).ParityOk :=
  parityOk_updataParity _

end

/-! ## Writes that go around the setters -/

/-- What an opcode writes by address: a byte, with the accumulator as it is then, or a bit. -/
inductive DirectWrite
  | none
  | byte (acc addr data : UInt8)
  | bit (addr : UInt8) (on : Bool)

/-- The bit address of `PSW.P`. -/
def parityFlagAddr : UInt8 := 0xD0

/-- A byte for the accumulator has the accumulator's parity, one for the program status word carries
it, and so does a bit written into the flag. -/
def DirectWrite.Keeps (c : CVm8051) : DirectWrite → Prop
  | .none => True
  | .byte acc addr data =>
    (addr = accAddr → parity data = parity acc) ∧ (addr = pswAddr → pBit data = parity acc)
  | .bit addr on => addr = parityFlagAddr → on = parity c.acc

instance directWriteKeepsDecidable (c : CVm8051) (w : DirectWrite) : Decidable (w.Keeps c) := by
  unfold DirectWrite.Keeps
  split <;> infer_instance

section
variable {c : CVm8051}

/-- A byte written by address. -/
theorem parityOk_setRamData (h : c.ParityOk) (addr data : UInt8) :
    (c.setRamData addr data).ParityOk ↔ (DirectWrite.byte c.acc addr data).Keeps c := by
  unfold DirectWrite.Keeps setRamData
  split
  · by_cases hacc : addr = accAddr
    · have hne : accAddr ≠ pswAddr := by decide
      have hflag : (c.setSfr addr data).flag parityBit = c.flag parityBit := by
        unfold flag psw setSfr
        dsimp only
        rw [hacc, Function.update_of_ne hne.symm]
      have hset : (c.setSfr addr data).acc = data := by
        rw [hacc]
        exact Function.update_self accAddr data c.chipSfr
      unfold ParityOk at h ⊢
      rw [hflag, hset, h, hacc]
      simp [hne, eq_comm]
    · by_cases hpsw : addr = pswAddr
      · have hflag : (c.setSfr addr data).flag parityBit = pBit data := by
          unfold flag psw setSfr pBit
          dsimp only
          rw [hpsw, Function.update_self]
        have hset : (c.setSfr addr data).acc = c.acc := by
          unfold acc setSfr
          dsimp only
          rw [Function.update_of_ne (Ne.symm hacc)]
        have hne : pswAddr ≠ accAddr := by decide
        unfold ParityOk
        rw [hflag, hset]
        simp [hpsw, hne]
      · rw [c.parityOk_setSfr hacc hpsw]
        simp [hacc, hpsw, h]
  · next hlow =>
    have hacc : addr ≠ accAddr := by
      rintro rfl
      exact hlow (by decide)
    have hpsw : addr ≠ pswAddr := by
      rintro rfl
      exact hlow (by decide)
    simp [hacc, hpsw, h]

/-- Which register a bit address belongs to. -/
theorem bitAddr_eq_acc (addr : UInt8) :
    0x7F < addr → (bitAddr addr = accAddr ↔ 0xE0 ≤ addr ∧ addr ≤ 0xE7) := by
  revert addr
  exact every_byte (by decide +kernel)

theorem bitAddr_eq_psw (addr : UInt8) :
    0x7F < addr → bitAddr addr = pswAddr → (addr = parityFlagAddr ∧ (1 : UInt8) <<< (addr % 8) = parityBit) ∨
      (addr ≠ parityFlagAddr ∧ (1 : UInt8) <<< (addr % 8) &&& parityBit = 0 ∧
        ~~~((1 : UInt8) <<< (addr % 8)) &&& parityBit = parityBit) := by
  revert addr
  exact every_byte (by decide +kernel)

/-- A bit written by `SetBitFlag` or `ClrBitFlag`. -/
theorem parityOk_putBitFlag (h : c.ParityOk) (addr : UInt8) (on : Bool) :
    (c.putBitFlag addr on).ParityOk ↔ (DirectWrite.bit addr on).Keeps c := by
  unfold putBitFlag
  dsimp only
  by_cases hbits : 0xE0 ≤ addr ∧ addr ≤ 0xE7
  · rw [if_pos hbits]
    refine iff_of_true (parityOk_updataParity _) ?_
    rintro rfl
    exact absurd hbits (by decide)
  · rw [if_neg hbits]
    unfold setBitRam DirectWrite.Keeps
    by_cases hlow : addr ≤ 0x7F
    · rw [if_pos hlow, parityOk_setRamDataAt]
      refine iff_of_true h ?_
      rintro rfl
      exact absurd hlow (by decide)
    · have hhigh : 0x7F < addr := UInt8.not_le.mp hlow
      have hacc : bitAddr addr ≠ accAddr := fun heq => hbits ((bitAddr_eq_acc addr hhigh).mp heq)
      rw [if_neg hlow]
      by_cases hpsw : bitAddr addr = pswAddr
      · have hget : c.getBitRam addr = c.psw := by
          unfold getBitRam psw
          rw [if_neg hlow, hpsw]
        rw [hget, hpsw]
        rcases bitAddr_eq_psw addr hhigh hpsw with ⟨rfl, hbit⟩ | ⟨hother, hset, hclear⟩
        · -- the flag itself
          rw [hbit]
          have hflag : c.setSfr pswAddr (if on then c.psw ||| parityBit else c.psw &&& ~~~parityBit)
              = c.setFlag parityBit on := rfl
          have hread : (c.setFlag parityBit on).flag parityBit
              = pBit (c.setFlag parityBit on).psw := rfl
          rw [hflag]
          unfold ParityOk
          rw [hread, psw_setFlag, acc_setFlag]
          cases on
          · rw [if_neg Bool.false_ne_true, pBit_and_not_parityBit]
            simp
          · rw [if_pos rfl, pBit_or_parityBit]
            simp
        · -- another bit of the same register
          have hflag : ∀ bit : UInt8, c.setSfr pswAddr (if on then c.psw ||| bit else c.psw &&& ~~~bit)
              = c.setFlag bit on := fun _ => rfl
          rw [hflag, c.parityOk_setFlag hset hclear]
          exact iff_of_true h fun heq => absurd heq hother
      · rw [c.parityOk_setSfr hacc hpsw]
        refine iff_of_true h ?_
        rintro rfl
        exact absurd (by decide) hpsw

/-! ## The opcodes -/

end

section
variable (c : CVm8051)

/-- Low digit 0: JBC and POP. -/
def writeColumn0 (hi : UInt8) : DirectWrite :=
  match hi.toNat with
  | 0x1 => if c.getBitFlag c.get1Opcode then .bit c.get1Opcode false else .none
  | 0xD => .byte c.acc c.get1Opcode (c.getRamDataAt c.sp)
  | _ => .none

/-- Low digit 2: ORL, ANL, XRL with the accumulator, MOV from the carry, CPL, CLR, SETB. -/
def writeColumn2 (hi : UInt8) : DirectWrite :=
  match hi.toNat with
  | 0x4 => .byte c.acc c.get1Opcode (c.getRamData c.get1Opcode ||| c.acc)
  | 0x5 => .byte c.acc c.get1Opcode (c.getRamData c.get1Opcode &&& c.acc)
  | 0x6 => .byte c.acc c.get1Opcode (c.getRamData c.get1Opcode ^^^ c.acc)
  | 0x9 => .bit c.get1Opcode (c.flag carryBit)
  | 0xB => .bit c.get1Opcode !c.getBitFlag c.get1Opcode
  | 0xC => .bit c.get1Opcode false
  | 0xD => .bit c.get1Opcode true
  | _ => .none

/-- Low digit 3: the same with a third byte. -/
def writeColumn3 (hi : UInt8) : DirectWrite :=
  match hi.toNat with
  | 0x4 => .byte c.acc c.get1Opcode (c.getRamData c.get1Opcode ||| c.get2Opcode)
  | 0x5 => .byte c.acc c.get1Opcode (c.getRamData c.get1Opcode &&& c.get2Opcode)
  | 0x6 => .byte c.acc c.get1Opcode (c.getRamData c.get1Opcode ^^^ c.get2Opcode)
  | _ => .none

/-- Low digit 5: the operand is the memory at the next byte. -/
def writeColumn5 (hi : UInt8) : DirectWrite :=
  let addr := c.get1Opcode
  let data := c.getRamData addr
  match hi.toNat with
  | 0x0 => .byte c.acc addr (data + 1)
  | 0x1 => .byte c.acc addr (data + -1)
  | 0x7 => .byte c.acc addr c.get2Opcode
  | 0x8 => .byte c.acc c.get2Opcode data
  | 0xC => .byte data addr c.acc -- XCH: the accumulator has its new value by then
  | 0xD => .byte c.acc addr (data - 1)
  | 0x2 | 0x3 | 0x4 | 0x5 | 0x6 | 0x9 | 0xA | 0xB | 0xE => .none
  | _ => .byte c.acc addr c.acc

/-- The write of an opcode that no setter of a register sees. -/
def directWrite (code : UInt8) : DirectWrite :=
  let hi := code >>> 4
  let lo := code &&& 0x0F
  match lo.toNat with
  | 0x0 => c.writeColumn0 hi
  | 0x1 => .none
  | 0x2 => c.writeColumn2 hi
  | 0x3 => c.writeColumn3 hi
  | 0x4 => .none
  | 0x5 => c.writeColumn5 hi
  | _ => if hi = 8 then .byte c.acc c.get1Opcode (c.operand lo) else .none

variable {c}

@[simp] theorem keeps_none : DirectWrite.none.Keeps c := trivial

theorem stepColumn0_parityOk_iff (h : c.ParityOk) (hi : UInt8) :
    (c.stepColumn0 hi).ParityOk ↔ (c.writeColumn0 hi).Keeps c := by
  unfold stepColumn0 writeColumn0
  split
  case h_2 heq =>
    simp only [heq]
    by_cases hbit : c.getBitFlag c.get1Opcode = true
    · rw [if_pos hbit, if_pos hbit, parityOk_jumpRel]
      have hnext : (c.next 3).ParityOk := h
      exact parityOk_putBitFlag hnext c.get1Opcode false
    · rw [if_neg hbit, if_neg hbit]
      exact iff_of_true h trivial
  case h_14 heq =>
    simp only [heq, parityOk_next, parityOk_setSp]
    exact parityOk_setRamData h c.get1Opcode (c.getRamDataAt c.sp)
  all_goals simp [*]

@[simp] theorem parityOk_pushPC (pc : UInt16) : (c.pushPC pc).ParityOk ↔ c.ParityOk := by
  simp [pushPC]

@[simp] theorem parityOk_opcodeRET : c.opcodeRET.ParityOk ↔ c.ParityOk := by
  simp [opcodeRET]

@[simp] theorem parityOk_opcodeRETI : c.opcodeRETI.ParityOk ↔ c.ParityOk := by
  simp [opcodeRETI]

theorem stepColumn2_parityOk_iff (h : c.ParityOk) (hi : UInt8) :
    (c.stepColumn2 hi).ParityOk ↔ (c.writeColumn2 hi).Keeps c := by
  unfold stepColumn2 writeColumn2 logicDirect
  split
  case h_5 heq | h_6 heq | h_7 heq =>
    simp only [heq, parityOk_next]
    exact parityOk_setRamData h _ _
  case h_10 heq | h_12 heq | h_13 heq | h_14 heq =>
    simp only [heq, parityOk_next]
    exact parityOk_putBitFlag h _ _
  all_goals simp [*, opcodeLCALL]

theorem stepColumn3_parityOk_iff (h : c.ParityOk) (hi : UInt8) :
    (c.stepColumn3 hi).ParityOk ↔ (c.writeColumn3 hi).Keeps c := by
  unfold stepColumn3 writeColumn3 logicDirect
  split
  case h_5 heq | h_6 heq | h_7 heq =>
    simp only [heq, parityOk_next]
    exact parityOk_setRamData h _ _
  all_goals simp [*, opcodeRR, opcodeRRC, opcodeRL, opcodeRLC]

/-- Arithmetic ends in the accumulator, or in other registers after it. -/
@[simp] theorem parityOk_mdADD (carry data : UInt8) : (c.mdADD carry data).ParityOk :=
  parityOk_setAcc _ _

@[simp] theorem parityOk_mdSUBB (data : UInt8) : (c.mdSUBB data).ParityOk := parityOk_setAcc _ _

theorem parityOk_opcodeDIV (h : c.ParityOk) : c.opcodeDIV.ParityOk := by
  unfold opcodeDIV
  simp only [parityOk_next, parityOk_setCarry]
  split
  · simp [h]
  · simp

theorem parityOk_opcodeDA (h : c.ParityOk) : c.opcodeDA.ParityOk := by
  have hone : ∀ (c : CVm8051), c.ParityOk → ∀ (p : Prop) [Decidable p] (data : UInt8),
      (if p then c.setAcc data else c).ParityOk := by
    intro c h p _ data
    split
    · simp
    · exact h
  unfold opcodeDA
  dsimp only
  rw [parityOk_next]
  exact hone _ (hone c h _ _) _ _

theorem parityOk_opcodeCJNE (h : c.ParityOk) (left right : UInt8) :
    (c.opcodeCJNE left right).ParityOk := by
  simp [opcodeCJNE, h]

/-- Low digit 4 writes nothing by address. -/
theorem parityOk_stepColumn4 (h : c.ParityOk) (hi : UInt8) : (c.stepColumn4 hi).ParityOk := by
  unfold stepColumn4
  split
  · exact parityOk_opcodeDIV h
  · simp [opcodeMUL]
  · exact parityOk_opcodeCJNE h _ _
  · simp [opcodeSWAP]
  · exact parityOk_opcodeDA h
  · simp
  · simp

/-- The operands of low digits other than 5 are set by name, or lie in the other memory. -/
theorem parityOk_setOperand (h : c.ParityOk) {lo : UInt8} (hlo : lo ≠ 5) (data : UInt8) :
    (c.setOperand lo data).ParityOk := by
  unfold setOperand
  by_cases h4 : lo = 4
  · simp [h4]
  · rw [if_neg h4, if_neg hlo]
    split
    · exact h
    · exact h

/-- Low digit 5. -/
theorem stepRow5_parityOk_iff (h : c.ParityOk) (hi : UInt8) :
    (c.stepRow hi 5).ParityOk ↔ (c.writeColumn5 hi).Keeps c := by
  have hoperand : c.operand 5 = c.getRamData c.get1Opcode := rfl
  have hset : ∀ data, (c.setOperand 5 data).ParityOk ↔
      (DirectWrite.byte c.acc c.get1Opcode data).Keeps c := fun data =>
    parityOk_setRamData h c.get1Opcode data
  have h5 : ¬ ((5 : UInt8) = 4) := by decide
  unfold stepRow writeColumn5
  split
  case h_1 heq | h_2 heq =>
    simp only [heq, opcodeINC, if_neg h5, parityOk_next, hoperand]
    exact hset _
  case h_8 heq =>
    simp only [heq, if_neg h5, if_true, parityOk_next]
    exact parityOk_setRamData h _ _
  case h_10 =>
    rw [if_neg h5]
    unfold stepOperand
    split
    case h_1 heq =>
      simp only [heq, if_true, parityOk_next, hoperand]
      exact parityOk_setRamData h _ _
    case h_3 heq =>
      simp only [heq, if_true]
      exact iff_of_true (parityOk_opcodeCJNE h _ _) trivial
    case h_4 heq =>
      simp only [heq, opcodeXCH, parityOk_next, hoperand]
      have hacc := c.acc_setAcc (c.getRamData c.get1Opcode)
      have hwrite := parityOk_setRamData (c.parityOk_setAcc (c.getRamData c.get1Opcode)) c.get1Opcode c.acc
      rw [hacc] at hwrite
      exact hwrite
    case h_5 heq =>
      simp only [heq, if_true, opcodeDJNZDirect, parityOk_jumpIf, parityOk_next]
      exact parityOk_setRamData h _ _
    case h_7 =>
      rw [parityOk_next, hset]
      simp [*]
    all_goals simp [*, logicAcc]
  all_goals simp [*, logicAcc]

/-- Low digit 4. -/
theorem parityOk_stepRow4 (h : c.ParityOk) (hi : UInt8) : (c.stepRow hi 4).ParityOk := by
  have hset : ∀ c : CVm8051, c.ParityOk → ∀ data, (c.setOperand 4 data).ParityOk := fun c hc data =>
    parityOk_setOperand hc (by decide) data
  unfold stepRow
  split
  case h_10 =>
    rw [if_pos rfl]
    exact parityOk_stepColumn4 h hi
  all_goals simp [opcodeINC, logicAcc]

/-- Low digits from 6 on: only MOV to an address writes by address. -/
theorem stepRow_parityOk_iff (h : c.ParityOk) {hi lo : UInt8} (h4 : lo ≠ 4) (h5 : lo ≠ 5) :
    (c.stepRow hi lo).ParityOk ↔
      (if hi = 8 then DirectWrite.byte c.acc c.get1Opcode (c.operand lo) else .none).Keeps c := by
  have hset := fun data => parityOk_setOperand h h5 data
  by_cases h8 : hi = 8
  · subst h8
    rw [if_pos rfl]
    have hstep : c.stepRow 8 lo = (c.setRamData c.get1Opcode (c.operand lo)).next 2 := by
      have hrow : c.stepRow 8 lo = if lo = 4 then c.stepColumn4 8 else c.stepOperand 8 lo := rfl
      have hmov : c.stepOperand 8 lo = if lo = 5 then (c.setRamData c.get2Opcode (c.operand lo)).next 3
        else (c.setRamData c.get1Opcode (c.operand lo)).next 2 := rfl
      rw [hrow, if_neg h4, hmov, if_neg h5]
    rw [hstep, parityOk_next]
    exact parityOk_setRamData h _ _
  · rw [if_neg h8]
    refine iff_of_true ?_ trivial
    unfold stepRow
    split
    case h_10 =>
      rw [if_neg h4]
      unfold stepOperand
      split
      case h_1 heq => exact absurd (UInt8.toNat_inj.mp heq) h8
      case h_3 =>
        rw [if_neg h5]
        exact parityOk_opcodeCJNE h _ _
      case h_4 =>
        have hacc := c.parityOk_setAcc (c.operand lo)
        simp only [opcodeXCH, parityOk_next]
        exact parityOk_setOperand hacc h5 _
      case h_5 =>
        rw [if_neg h5]
        split
        · have hacc := c.parityOk_setAcc (c.acc &&& 0xF0 ||| c.operand lo &&& 0x0F)
          simp only [opcodeXCHD, parityOk_next]
          exact parityOk_setOperand hacc h5 _
        · simp [opcodeDJNZ, h]
      all_goals simp [*, logicAcc]
    all_goals simp [*, opcodeINC, logicAcc]

/-! ## Any opcode -/

/-- After an opcode that found the parity flag right, it is right exactly when what the opcode wrote by
address was in keeping with it. -/
theorem stepRun_parityOk_iff (c : CVm8051) (code : UInt8) (h : c.ParityOk) :
    (c.stepRun code).ParityOk ↔ (c.directWrite code).Keeps c := by
  unfold stepRun directWrite
  dsimp only
  generalize hhi : code >>> 4 = hi
  generalize hlo : code &&& 0x0F = lo
  split
  case h_1 heq =>
    simp only [heq]
    exact stepColumn0_parityOk_iff h hi
  case h_2 heq =>
    simp only [heq]
    refine iff_of_true ?_ trivial
    split
    · exact h
    · simp [acall, h]
  case h_3 heq =>
    simp only [heq]
    exact stepColumn2_parityOk_iff h hi
  case h_4 heq =>
    simp only [heq]
    exact stepColumn3_parityOk_iff h hi
  case h_5 =>
    by_cases h4 : lo = 4
    · subst h4
      exact iff_of_true (parityOk_stepRow4 h hi) trivial
    · by_cases h5 : lo = 5
      · subst h5
        exact stepRow5_parityOk_iff h hi
      · have h4' : lo.toNat ≠ 4 := fun heq => h4 (UInt8.toNat_inj.mp heq)
        have h5' : lo.toNat ≠ 5 := fun heq => h5 (UInt8.toNat_inj.mp heq)
        rw [stepRow_parityOk_iff h h4 h5]
        simp [*]

/-- `MOV 0E0H, #1` on a fresh machine. -/
def movAcc : CVm8051 := start [0x75, 0xE0, 0x01] [] fun _ => 0

/-- The accumulator is 1 and its parity flag still clear. -/
theorem movAcc_parity : ¬ ∀ (c : CVm8051) (code : UInt8), c.ParityOk → (c.stepRun code).ParityOk := by
  intro h
  have hstep := h movAcc 0x75 (by decide +kernel)
  revert hstep
  decide +kernel

/-- A byte of even parity keeps the flag right. -/
theorem stepRun_parityOk_same :
    ((start [0x75, 0xE0, 0x03] [] fun _ => 0).stepRun 0x75).ParityOk :=
  (stepRun_parityOk_iff (start [0x75, 0xE0, 0x03] [] fun _ => 0) 0x75 (by decide +kernel)).mpr
    (by decide +kernel)

end

end CVm8051

end Dacrs
