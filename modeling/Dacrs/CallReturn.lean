import Dacrs.Vm8051

/-!
# Calls and returns

`ACALL` and `LCALL` push the address of the next instruction, `RET` and `RETI` take one off.
`callReturn_holds`: a call and the return that finds the stack as the call left it pair up exactly
when the return is a `RET` and the call lies in the program as a whole.  `RETI` adds one to the
address it reads, and reads it from the special registers where the stack lies above them.
-/

namespace Dacrs

namespace CVm8051

/-! ## Addresses as two bytes -/

def word (high low : UInt8) : UInt16 := high.toUInt16 <<< 8 ||| low.toUInt16

theorem toNat_word (high low : UInt8) : (word high low).toNat = high.toNat * 256 + low.toNat := by
  have hhigh := high.toNat_lt
  have hlow := low.toNat_lt
  unfold word
  rw [UInt16.toNat_or, UInt16.toNat_shiftLeft, UInt8.toNat_toUInt16, UInt8.toNat_toUInt16]
  show high.toNat <<< 8 % 2 ^ 16 ||| low.toNat = _
  rw [Nat.mod_eq_of_lt (by rw [Nat.shiftLeft_eq]; omega),
    ← Nat.shiftLeft_add_eq_or_of_lt (show low.toNat < 2 ^ 8 by omega), Nat.shiftLeft_eq]

theorem toNat_lowByte (pc : UInt16) : pc.toUInt8.toNat = pc.toNat % 256 := UInt16.toNat_toUInt8 pc

theorem toNat_highByte (pc : UInt16) : (pc >>> 8).toUInt8.toNat = pc.toNat / 256 := by
  have hlt := pc.toNat_lt
  rw [UInt16.toNat_toUInt8, UInt16.toNat_shiftRight]
  show pc.toNat >>> 8 % 2 ^ 8 = _
  rw [Nat.shiftRight_eq_div_pow]
  omega

/-- What the call pushes is what the return puts together. -/
theorem word_bytes (pc : UInt16) : word (pc >>> 8).toUInt8 pc.toUInt8 = pc := by
  apply UInt16.toNat.inj
  rw [toNat_word, toNat_highByte, toNat_lowByte]
  omega

theorem word_lowByte (high low : UInt8) : (word high low).toUInt8 = low := by
  apply UInt8.toNat.inj
  rw [toNat_lowByte, toNat_word]
  have hlow := low.toNat_lt
  omega

/-- One more changes the low byte. -/
theorem word_add_one_ne (high low : UInt8) (pc : UInt16) (h : low = pc.toUInt8) :
    word high low + 1 ≠ pc := by
  intro heq
  have hlow := congrArg UInt8.toNat h
  have hnat := congrArg UInt16.toNat heq
  rw [UInt16.toNat_add, toNat_word] at hnat
  rw [toNat_lowByte] at hlow
  have hone : (1 : UInt16).toNat = 1 := rfl
  rw [hone] at hnat
  omega

/-! ## The instructions -/

inductive CallOp where
  | ACALL (page : Fin 8)
  | LCALL

inductive RetOp where
  | RET
  | RETI
deriving DecidableEq

def CallOp.opCode : CallOp → UInt8
  | .ACALL page => UInt8.ofNat page * 0x20 + 0x11
  | .LCALL => 0x12

/-- The opcode and the bytes that belong to it. -/
def CallOp.size : CallOp → UInt16
  | .ACALL _ => 2
  | .LCALL => 3

def RetOp.opCode : RetOp → UInt8
  | .RET => 0x22
  | .RETI => 0x32

theorem stepRun_ACALL (c : CVm8051) (page : Fin 8) :
    c.stepRun (CallOp.ACALL page).opCode = c.acall (CallOp.ACALL page).opCode := by
  fin_cases page <;> rfl

theorem stepRun_LCALL (c : CVm8051) : c.stepRun CallOp.LCALL.opCode = c.opcodeLCALL := rfl

theorem stepRun_RET (c : CVm8051) : c.stepRun RetOp.RET.opCode = c.opcodeRET := rfl

theorem stepRun_RETI (c : CVm8051) : c.stepRun RetOp.RETI.opCode = c.opcodeRETI := rfl

/-! ## The stack -/

/-- The address on top of the stack, its high byte where the stack pointer is. -/
def topFrame (c : CVm8051) : UInt16 := word (c.chipRam c.sp) (c.chipRam (c.sp - 1))

theorem sp_setSp (c : CVm8051) (data : UInt8) : (c.setSp data).sp = data := by
  show Function.update c.chipSfr spAddr data spAddr = data
  rw [Function.update_self]

theorem chipRam_setSp (c : CVm8051) (data : UInt8) : (c.setSp data).chipRam = c.chipRam := rfl

theorem sp_setRamDataAt (c : CVm8051) (addr data : UInt8) :
    (c.setRamDataAt addr data).sp = c.sp := rfl

theorem chipRam_setRamDataAt (c : CVm8051) (addr data : UInt8) :
    (c.setRamDataAt addr data).chipRam = Function.update c.chipRam addr data := rfl

theorem add_one_add_one (s : UInt8) : s + 1 + 1 = s + 2 := by
  rw [UInt8.add_assoc]
  rfl

theorem add_two_sub_one (s : UInt8) : s + 2 - 1 = s + 1 := by
  rw [← add_one_add_one, UInt8.add_sub_cancel]

theorem sub_one_sub_one (s : UInt8) : s + 2 - 1 - 1 = s := by
  rw [add_two_sub_one, UInt8.add_sub_cancel]

theorem toNat_add_of_le (s : UInt8) (hroom : s ≤ 0xFD) :
    (s + 1).toNat = s.toNat + 1 ∧ (s + 2).toNat = s.toNat + 2 := by
  have hnat : s.toNat ≤ 253 := UInt8.le_iff_toNat_le.mp hroom
  have hone : (1 : UInt8).toNat = 1 := rfl
  have htwo : (2 : UInt8).toNat = 2 := rfl
  rw [UInt8.toNat_add, UInt8.toNat_add, hone, htwo]
  omega

theorem sp_pushPC (c : CVm8051) (pc : UInt16) : (c.pushPC pc).sp = c.sp + 2 := by
  unfold pushPC
  simp only [sp_setRamDataAt, sp_setSp, add_one_add_one]

theorem chipRam_pushPC (c : CVm8051) (pc : UInt16) : (c.pushPC pc).chipRam
    = Function.update (Function.update c.chipRam (c.sp + 1) pc.toUInt8) (c.sp + 2)
      (pc >>> 8).toUInt8 := by
  unfold pushPC
  simp only [sp_setRamDataAt, sp_setSp, chipRam_setRamDataAt, chipRam_setSp, add_one_add_one]

theorem topFrame_pushPC (c : CVm8051) (pc : UInt16) : (c.pushPC pc).topFrame = pc := by
  have hne : c.sp + 1 ≠ c.sp + 2 := by
    intro h
    have hnat := congrArg UInt8.toNat h
    rw [UInt8.toNat_add, UInt8.toNat_add] at hnat
    have hone : (1 : UInt8).toNat = 1 := rfl
    have htwo : (2 : UInt8).toNat = 2 := rfl
    rw [hone, htwo] at hnat
    omega
  unfold topFrame
  rw [sp_pushPC, chipRam_pushPC, add_two_sub_one, Function.update_self,
    Function.update_of_ne hne, Function.update_self]
  exact word_bytes pc

/-- A call moves the stack pointer by two, and what it leaves on top is the address of the next
instruction. -/
theorem call_spec (call : CallOp) (c : CVm8051) :
    (c.stepRun call.opCode).sp = c.sp + 2 ∧ (c.stepRun call.opCode).topFrame = c.pc + call.size ∧
      ∀ addr, addr ≠ c.sp + 1 → addr ≠ c.sp + 2 →
        (c.stepRun call.opCode).chipRam addr = c.chipRam addr := by
  have hpushed : ∀ pc addr, addr ≠ c.sp + 1 → addr ≠ c.sp + 2 →
      (c.pushPC pc).chipRam addr = c.chipRam addr := by
    intro pc addr h₁ h₂
    rw [chipRam_pushPC, Function.update_of_ne h₂, Function.update_of_ne h₁]
  cases call with
  | ACALL page =>
    rw [stepRun_ACALL]
    exact ⟨sp_pushPC c _, topFrame_pushPC c _, hpushed _⟩
  | LCALL =>
    rw [stepRun_LCALL]
    exact ⟨sp_pushPC c _, topFrame_pushPC c _, hpushed _⟩

theorem ret_spec (c : CVm8051) : (c.stepRun RetOp.RET.opCode).sp = c.sp - 1 - 1 ∧
    (c.stepRun RetOp.RET.opCode).pc = c.topFrame ∧
      (c.stepRun RetOp.RET.opCode).chipRam = c.chipRam := by
  rw [stepRun_RET]
  refine ⟨?_, ?_, rfl⟩
  · show ((c.setSp (c.sp - 1)).setSp ((c.setSp (c.sp - 1)).sp - 1)).sp = _
    rw [sp_setSp, sp_setSp]
  · show word _ ((c.setSp (c.sp - 1)).chipRam (c.setSp (c.sp - 1)).sp) = _
    rw [sp_setSp]
    rfl

theorem reti_spec (c : CVm8051) : (c.stepRun RetOp.RETI.opCode).sp = c.sp - 1 - 1 ∧
    (c.stepRun RetOp.RETI.opCode).pc
      = word (c.getRamData c.sp) ((c.setSp (c.sp - 1)).getRamData (c.sp - 1)) + 1 := by
  rw [stepRun_RETI]
  constructor
  · show ((c.setSp (c.sp - 1)).setSp ((c.setSp (c.sp - 1)).sp - 1)).sp = _
    rw [sp_setSp, sp_setSp]
  · show word _ ((c.setSp (c.sp - 1)).getRamData (c.setSp (c.sp - 1)).sp) + 1 = _
    rw [sp_setSp]

/-! ## Operands -/

def withRom (exeFile : ℕ → UInt8) (c : CVm8051) : CVm8051 := { c with exeFile := exeFile }

/-- The instruction asks the program image only: what lies behind its 64K makes no difference. -/
def FetchInside (opCode : UInt8) (c : CVm8051) : Prop :=
  ∀ exeFile : ℕ → UInt8, (∀ i < 65536, exeFile i = c.exeFile i) →
    (c.withRom exeFile).stepRun opCode = (c.stepRun opCode).withRom exeFile

/-- The low byte of the target is the operand. -/
theorem addr11_lowByte (c : CVm8051) (opCode data : UInt8) : (c.addr11 opCode data).toUInt8 = data := by
  apply UInt8.toNat.inj
  have hdata := data.toNat_lt
  have hpage : ((c.pc + 2) &&& 0xF800).toNat % 2 ^ 8 = 0 := by
    rw [UInt16.toNat_and, Nat.and_mod_two_pow]
    show _ &&& 0 = 0
    rw [Nat.and_zero]
  have hbits : ((opCode >>> 5).toUInt16 <<< 8).toNat % 2 ^ 8 = 0 := by
    rw [UInt16.toNat_shiftLeft]
    show (opCode >>> 5).toUInt16.toNat <<< 8 % 2 ^ 16 % 2 ^ 8 = 0
    rw [Nat.shiftLeft_eq]
    omega
  unfold addr11
  rw [toNat_lowByte]
  show _ % 2 ^ 8 = _
  rw [UInt16.toNat_or, UInt16.toNat_or, Nat.or_mod_two_pow, Nat.or_mod_two_pow, hpage, hbits,
    UInt8.toNat_toUInt16, Nat.zero_or, Nat.zero_or]
  omega

/-- A call with another program does the same exactly if its operands are the same. -/
theorem call_withRom (call : CallOp) (c : CVm8051) (exeFile : ℕ → UInt8) :
    (c.withRom exeFile).stepRun call.opCode = (c.stepRun call.opCode).withRom exeFile ↔
      ∀ k < call.size.toNat, 0 < k → exeFile (c.pc.toNat + k) = c.exeFile (c.pc.toNat + k) := by
  cases call with
  | ACALL page =>
    rw [stepRun_ACALL, stepRun_ACALL]
    constructor
    · intro h k hk hpos
      have htwo : (CallOp.ACALL page).size.toNat = 2 := rfl
      obtain rfl : k = 1 := by omega
      have hpc := congrArg (fun c' => c'.pc.toUInt8) h
      have hleft := addr11_lowByte c (CallOp.ACALL page).opCode (exeFile (c.pc.toNat + 1))
      have hright := addr11_lowByte c (CallOp.ACALL page).opCode (c.exeFile (c.pc.toNat + 1))
      exact hleft.symm.trans (hpc.trans hright)
    · intro h
      have hone : (c.withRom exeFile).get1Opcode = c.get1Opcode :=
        h 1 (by show 1 < 2; omega) (by omega)
      unfold acall
      rw [hone]
      rfl
  | LCALL =>
    rw [stepRun_LCALL, stepRun_LCALL]
    constructor
    · intro h k hk hpos
      have hthree : CallOp.LCALL.size.toNat = 3 := rfl
      have hpc := congrArg (fun c' => c'.pc.toNat) h
      have hboth : (exeFile (c.pc.toNat + 1)).toNat * 256 + (exeFile (c.pc.toNat + 2)).toNat
          = (c.exeFile (c.pc.toNat + 1)).toNat * 256 + (c.exeFile (c.pc.toNat + 2)).toNat :=
        (toNat_word _ _).symm.trans (hpc.trans (toNat_word _ _))
      have h₁ := (exeFile (c.pc.toNat + 2)).toNat_lt
      have h₂ := (c.exeFile (c.pc.toNat + 2)).toNat_lt
      apply UInt8.toNat.inj
      rcases (show k = 1 ∨ k = 2 by omega) with rfl | rfl
      · omega
      · omega
    · intro h
      have hone : (c.withRom exeFile).get1Opcode = c.get1Opcode :=
        h 1 (by show 1 < 3; omega) (by omega)
      have htwo : (c.withRom exeFile).get2Opcode = c.get2Opcode :=
        h 2 (by show 2 < 3; omega) (by omega)
      unfold opcodeLCALL opcodeAddr
      rw [hone, htwo]
      rfl

/-- The operands are fetched from the image exactly when the call lies in it as a whole. -/
theorem fetchInside_iff (call : CallOp) (c : CVm8051) :
    FetchInside call.opCode c ↔ c.pc.toNat + call.size.toNat ≤ 65536 := by
  have hsize : 2 ≤ call.size.toNat := by
    cases call with
    | ACALL page => show 2 ≤ 2; omega
    | LCALL => show 2 ≤ 3; omega
  constructor
  · intro h
    by_contra hout
    -- the last byte of the call is behind the image
    set last := c.pc.toNat + (call.size.toNat - 1) with hlast
    have hcall := (call_withRom call c _).mp
      (h (Function.update c.exeFile last (c.exeFile last + 1)) (by
        intro i hi
        rw [Function.update_of_ne (by omega)]))
    have hsame := hcall (call.size.toNat - 1) (by omega) (by omega)
    rw [← hlast, Function.update_self] at hsame
    have hnat := congrArg UInt8.toNat hsame
    rw [UInt8.toNat_add] at hnat
    have hone : (1 : UInt8).toNat = 1 := rfl
    rw [hone] at hnat
    omega
  · intro hin exeFile hagree
    rw [call_withRom]
    intro k hk _
    apply hagree
    omega

/-! ## Call and return -/

/-- The stack is as the call left it: the pointer, and the address that was pushed. -/
structure StackKept (c₁ c₂ : CVm8051) : Prop where
  sp : c₂.sp = c₁.sp
  high : c₂.chipRam c₁.sp = c₁.chipRam c₁.sp
  low : c₂.chipRam (c₁.sp - 1) = c₁.chipRam (c₁.sp - 1)

theorem StackKept.topFrame {c₁ c₂ : CVm8051} (h : StackKept c₁ c₂) : c₂.topFrame = c₁.topFrame := by
  unfold CVm8051.topFrame
  rw [h.sp, h.high, h.low]

/-- A run that leaves the stack alone or pairs each call with a `RET`. -/
inductive Balanced : CVm8051 → CVm8051 → Prop
  | done (c : CVm8051) : Balanced c c
  | step {c c₂ : CVm8051} (opCode : UInt8) (hsp : (c.stepRun opCode).sp = c.sp)
      (hram : ∀ addr ≤ c.sp, (c.stepRun opCode).chipRam addr = c.chipRam addr)
      (hrest : Balanced (c.stepRun opCode) c₂) : Balanced c c₂
  | call {c c₁ c₂ : CVm8051} (call : CallOp) (hroom : c.sp ≤ 0xFD)
      (hbody : Balanced (c.stepRun call.opCode) c₁)
      (hrest : Balanced (c₁.stepRun RetOp.RET.opCode) c₂) : Balanced c c₂

/-- Nothing up to the stack pointer changes. -/
theorem Balanced.kept {c c₂ : CVm8051} (h : Balanced c c₂) :
    c₂.sp = c.sp ∧ ∀ addr ≤ c.sp, c₂.chipRam addr = c.chipRam addr := by
  induction h with
  | done c => exact ⟨rfl, fun _ _ => rfl⟩
  | step opCode hsp hram hrest ih =>
    obtain ⟨ihsp, ihram⟩ := ih
    refine ⟨ihsp.trans hsp, ?_⟩
    intro addr haddr
    rw [ihram addr (by rw [hsp]; exact haddr), hram addr haddr]
  | @call c c₁ c₂ call hroom hbody hrest ihbody ihrest =>
    obtain ⟨hcallsp, -, hcallram⟩ := call_spec call c
    obtain ⟨hretsp, -, hretram⟩ := ret_spec c₁
    obtain ⟨hbodysp, hbodyram⟩ := ihbody
    obtain ⟨hrestsp, hrestram⟩ := ihrest
    have hback : (c₁.stepRun RetOp.RET.opCode).sp = c.sp := by
      rw [hretsp, hbodysp, hcallsp, sub_one_sub_one]
    refine ⟨hrestsp.trans hback, ?_⟩
    intro addr haddr
    have haddrNat := UInt8.le_iff_toNat_le.mp haddr
    obtain ⟨hone, htwo⟩ := toNat_add_of_le c.sp hroom
    have hne₁ : addr ≠ c.sp + 1 := by
      intro heq
      have hnat := congrArg UInt8.toNat heq
      omega
    have hne₂ : addr ≠ c.sp + 2 := by
      intro heq
      have hnat := congrArg UInt8.toNat heq
      omega
    have hbelow : addr ≤ (c.stepRun call.opCode).sp := by
      rw [hcallsp, UInt8.le_iff_toNat_le]
      omega
    rw [hrestram addr (by rw [hback]; exact haddr), hretram, hbodyram addr hbelow,
      hcallram addr hne₁ hne₂]

/-- Whatever a balanced run does between them, a call and its `RET` pair up. -/
theorem Balanced.returns {c c₂ : CVm8051} (call : CallOp) (hroom : c.sp ≤ 0xFD)
    (h : Balanced (c.stepRun call.opCode) c₂) : StackKept (c.stepRun call.opCode) c₂ ∧
      (c₂.stepRun RetOp.RET.opCode).pc = c.pc + call.size ∧
        (c₂.stepRun RetOp.RET.opCode).sp = c.sp := by
  obtain ⟨hcallsp, hcalltop, -⟩ := call_spec call c
  obtain ⟨hbodysp, hram⟩ := h.kept
  obtain ⟨hretsp, hretpc, -⟩ := ret_spec c₂
  have hkept : StackKept (c.stepRun call.opCode) c₂ := by
    refine ⟨hbodysp, hram _ (UInt8.le_refl _), hram _ ?_⟩
    obtain ⟨hone, htwo⟩ := toNat_add_of_le c.sp hroom
    rw [hcallsp, add_two_sub_one, UInt8.le_iff_toNat_le]
    omega
  refine ⟨hkept, ?_, ?_⟩
  · rw [hretpc, hkept.topFrame, hcalltop]
  · rw [hretsp, hbodysp, hcallsp, sub_one_sub_one]

/-- The return resumes after the call with the stack pointer as it was, and the call's operands were
in the program. -/
structure PairsUp (call : CallOp) (ret : RetOp) (c c₂ : CVm8051) : Prop where
  pc : (c₂.stepRun ret.opCode).pc = c.pc + call.size
  sp : (c₂.stepRun ret.opCode).sp = c.sp
  fetch : FetchInside call.opCode c

/-- The address `RETI` finds above the stack: in the special registers, where the stack pointer is one
of them and has moved by the time the low byte is read. -/
def sfrFrame (c : CVm8051) : UInt16 :=
  word (c.chipSfr c.sp) (if c.sp = 0x82 then 0x81 else c.chipSfr (c.sp - 1))

/-- Below the special registers the low byte is the one that was pushed. -/
theorem reti_low {c c₂ : CVm8051} {s : UInt8} (hsp : c₂.sp = s + 2) (hroom : s ≤ 0xFD)
    (hlow : s < 0x7F) (htop : c₂.topFrame = c.pc) :
    (c₂.stepRun RetOp.RETI.opCode).pc ≠ c.pc := by
  obtain ⟨-, hpc⟩ := reti_spec c₂
  rw [hpc]
  apply word_add_one_ne
  rw [← htop]
  unfold topFrame
  rw [word_lowByte]
  have hram : ¬ 0x7F < c₂.sp - 1 := by
    rw [hsp, add_two_sub_one, UInt8.lt_iff_toNat_lt, (toNat_add_of_le s hroom).1]
    have hnat : s.toNat < 127 := UInt8.lt_iff_toNat_lt.mp hlow
    show ¬ 127 < s.toNat + 1
    omega
  unfold getRamData
  rw [if_neg hram]
  rfl

theorem reti_high {c₂ : CVm8051} {s : UInt8} (hsp : c₂.sp = s + 2) (hroom : s ≤ 0xFD)
    (hhigh : 0x7F ≤ s) : (c₂.stepRun RetOp.RETI.opCode).pc = c₂.sfrFrame + 1 := by
  obtain ⟨-, hpc⟩ := reti_spec c₂
  have hnat : 127 ≤ s.toNat := UInt8.le_iff_toNat_le.mp hhigh
  obtain ⟨hone, htwo⟩ := toNat_add_of_le s hroom
  have hsfr₁ : 0x7F < c₂.sp - 1 := by
    rw [hsp, add_two_sub_one, UInt8.lt_iff_toNat_lt, hone]
    show 127 < s.toNat + 1
    omega
  have hsfr₂ : 0x7F < c₂.sp := by
    rw [hsp, UInt8.lt_iff_toNat_lt, htwo]
    show 127 < s.toNat + 2
    omega
  rw [hpc]
  unfold sfrFrame getRamData
  rw [if_pos hsfr₁, if_pos hsfr₂]
  congr 2
  show Function.update c₂.chipSfr spAddr (c₂.sp - 1) (c₂.sp - 1) = _
  by_cases h82 : c₂.sp = 0x82
  · rw [if_pos h82, h82]
    exact Function.update_self ..
  · rw [if_neg h82]
    apply Function.update_of_ne
    intro h81
    apply h82
    have hback := UInt8.sub_add_cancel c₂.sp 1
    rw [h81] at hback
    exact hback.symm

/-- A call and the return that finds the stack unchanged pair up exactly when no operand lies behind the
program and the return is a `RET`; or a `RETI` with the stack above the special registers, which hold
one less than the address there. -/
theorem callReturn_holds (call : CallOp) (ret : RetOp) (c c₂ : CVm8051) (hroom : c.sp ≤ 0xFD)
    (hkept : StackKept (c.stepRun call.opCode) c₂) :
    PairsUp call ret c c₂ ↔ c.pc.toNat + call.size.toNat ≤ 65536 ∧
      (ret = .RET ∨ 0x7F ≤ c.sp ∧ c₂.sfrFrame + 1 = c.pc + call.size) := by
  obtain ⟨hcallsp, hcalltop, -⟩ := call_spec call c
  have hsp : c₂.sp = c.sp + 2 := hkept.sp.trans hcallsp
  have htop : c₂.topFrame = c.pc + call.size := hkept.topFrame.trans hcalltop
  have hback : (c₂.stepRun ret.opCode).sp = c.sp := by
    cases ret with
    | RET => rw [(ret_spec c₂).1, hsp, sub_one_sub_one]
    | RETI => rw [(reti_spec c₂).1, hsp, sub_one_sub_one]
  have hpc : (c₂.stepRun ret.opCode).pc = c.pc + call.size ↔
      ret = .RET ∨ 0x7F ≤ c.sp ∧ c₂.sfrFrame + 1 = c.pc + call.size := by
    cases ret with
    | RET =>
      rw [(ret_spec c₂).2.1, htop]
      simp
    | RETI =>
      by_cases hhigh : 0x7F ≤ c.sp
      · rw [reti_high hsp hroom hhigh]
        simp [hhigh]
      · have hne := @reti_low { c with pc := c.pc + call.size } c₂ c.sp hsp hroom
          (UInt8.not_le.mp hhigh) htop
        constructor
        · intro h
          exact absurd h hne
        · rintro (h | ⟨h, -⟩)
          · cases h
          · exact absurd h hhigh
  constructor
  · intro h
    exact ⟨(fetchInside_iff call c).mp h.fetch, hpc.mp h.pc⟩
  · rintro ⟨hin, hret⟩
    exact ⟨hpc.mpr hret, hback, (fetchInside_iff call c).mpr hin⟩

/-- `ACALL` to page 3 at the start of a program, and a `RET` at once. -/
theorem callReturn_holds_acall : PairsUp (.ACALL 3) .RET (start [0x71, 0x20] [] fun _ => 0)
    ((start [0x71, 0x20] [] fun _ => 0).stepRun (CallOp.ACALL 3).opCode) := by
  apply (callReturn_holds (.ACALL 3) .RET (start [0x71, 0x20] [] fun _ => 0)
    ((start [0x71, 0x20] [] fun _ => 0).stepRun (CallOp.ACALL 3).opCode) (by decide +kernel)
    ⟨rfl, rfl, rfl⟩).mpr
  exact ⟨by decide +kernel, Or.inl rfl⟩

/-- `LCALL` at the start of a program, and a `RETI` at once, resumes a byte too far. -/
theorem reti_skips : ¬ ∀ (call : CallOp) (ret : RetOp) (c c₂ : CVm8051), c.sp ≤ 0xFD →
    StackKept (c.stepRun call.opCode) c₂ → PairsUp call ret c c₂ := by
  intro h
  have hpair := h .LCALL .RETI (start [0x12, 0x01, 0x00] [] fun _ => 0)
    ((start [0x12, 0x01, 0x00] [] fun _ => 0).stepRun CallOp.LCALL.opCode) (by decide +kernel)
    ⟨rfl, rfl, rfl⟩
  have hpc := congrArg UInt16.toNat hpair.pc
  revert hpc
  decide +kernel

end CVm8051

end Dacrs
