import Dacrs.Vm

/-!
# The 8051 core

`CVm8051`: the memories, the registers in them, and `StepRun` with its opcodes.  Most opcodes come in
rows: the high digit says what is done, the low digit to which operand, and a row is one function of the
operand here.
-/

open Codec (Bytes)

namespace Dacrs

structure CVm8051 where
  chipRam : UInt8 → UInt8
  chipSfr : UInt8 → UInt8
  exRam : UInt16 → UInt8
  /-- `m_ExeFile`, and the memory that follows it -/
  exeFile : ℕ → UInt8
  /-- `Sys.PC` -/
  pc : UInt16

namespace CVm8051

/-! ## Memory and registers -/

def accAddr : UInt8 := 0xE0
def bAddr : UInt8 := 0xF0
def spAddr : UInt8 := 0x81
def dptrl : UInt8 := 0x82
def dptrh : UInt8 := 0x83
def pswAddr : UInt8 := 0xD0

/-- VM_SHARE_ADDR, VM_FUN_CALL_ADDR, MAX_SHARE_RAM. -/
def vmShareAddr : ℕ := 0xEFFF
def vmFunCallAddr : UInt16 := 0xEFFD
def maxShareRam : ℕ := 4 * 1024

/-- Bits of the `psw`. -/
def parityBit : UInt8 := 0x01
def overflowBit : UInt8 := 0x04
def auxiliaryBit : UInt8 := 0x40
def carryBit : UInt8 := 0x80

variable (c : CVm8051)

/-- `GetRamDataAt`, `SetRamDataAt`. -/
def getRamDataAt (addr : UInt8) : UInt8 := c.chipRam addr
def setRamDataAt (addr data : UInt8) : CVm8051 :=
  { c with chipRam := Function.update c.chipRam addr data }

def setSfr (addr data : UInt8) : CVm8051 := { c with chipSfr := Function.update c.chipSfr addr data }

/-- `GetRamData`, `SetRamData`: the upper half of the addresses is that of the special registers. -/
def getRamData (addr : UInt8) : UInt8 := if 0x7F < addr then c.chipSfr addr else c.chipRam addr
def setRamData (addr data : UInt8) : CVm8051 :=
  if 0x7F < addr then c.setSfr addr data else c.setRamDataAt addr data

/-- `SetExRam`. -/
def setExRam (addr : UInt16) (data : UInt8) : CVm8051 :=
  { c with exRam := Function.update c.exRam addr data }

def psw : UInt8 := c.chipSfr pswAddr
def flag (bit : UInt8) : Bool := c.psw &&& bit != 0
def setFlag (bit : UInt8) (on : Bool) : CVm8051 :=
  c.setSfr pswAddr (if on then c.psw ||| bit else c.psw &&& ~~~bit)

/-- `Sys.psw().cy`. -/
def cy : UInt8 := if c.flag carryBit then 1 else 0

def acc : UInt8 := c.chipSfr accAddr

/-- `Updata_A_P_Flag`. -/
def updataParity : CVm8051 :=
  let a := c.acc
  let a := a ^^^ a >>> 4
  let a := a ^^^ a >>> 2
  let a := a ^^^ a >>> 1
  c.setFlag parityBit (a &&& 1 == 1)

/-- `Sys.a = data`, which keeps the parity flag. -/
def setAcc (data : UInt8) : CVm8051 := (c.setSfr accAddr data).updataParity

def regB : UInt8 := c.chipSfr bAddr
def setB (data : UInt8) : CVm8051 := c.setSfr bAddr data

def sp : UInt8 := c.chipSfr spAddr
def setSp (data : UInt8) : CVm8051 := c.setSfr spAddr data

def dptr : UInt16 := (c.chipSfr dptrl).toUInt16 ||| (c.chipSfr dptrh).toUInt16 <<< 8
def setDptr (data : UInt16) : CVm8051 :=
  (c.setSfr dptrl data.toUInt8).setSfr dptrh (data >>> 8).toUInt8

/-- `Rges.R0` to `R7`: there is one bank of registers. -/
def reg (n : UInt8) : UInt8 := c.chipRam n

/-- `GetBitRamRef`. -/
def bitAddr (addr : UInt8) : UInt8 := if addr ≤ 0x7F then addr / 8 + 0x20 else addr - (addr - 0x80) % 8
def getBitRam (addr : UInt8) : UInt8 :=
  if addr ≤ 0x7F then c.chipRam (bitAddr addr) else c.chipSfr (bitAddr addr)
def setBitRam (addr data : UInt8) : CVm8051 :=
  if addr ≤ 0x7F then c.setRamDataAt (bitAddr addr) data else c.setSfr (bitAddr addr) data

/-- `GetBitFlag`. -/
def getBitFlag (addr : UInt8) : Bool := c.getBitRam addr &&& 1 <<< (addr % 8) != 0

/-- `SetBitFlag`, `ClrBitFlag`. -/
def putBitFlag (addr : UInt8) (on : Bool) : CVm8051 :=
  let bit : UInt8 := 1 <<< (addr % 8)
  let c' := c.setBitRam addr (if on then c.getBitRam addr ||| bit else c.getBitRam addr &&& ~~~bit)
  if 0xE0 ≤ addr ∧ addr ≤ 0xE7 then c'.updataParity else c'

/-! ## The program counter -/

/-- `GetOpcode`, and the bytes after it. -/
def getOpcode : UInt8 := c.exeFile c.pc.toNat
def get1Opcode : UInt8 := c.exeFile (c.pc.toNat + 1)
def get2Opcode : UInt8 := c.exeFile (c.pc.toNat + 2)

/-- Both bytes, high byte first. -/
def opcodeAddr : UInt16 := c.get1Opcode.toUInt16 <<< 8 ||| c.get2Opcode.toUInt16

def next (n : UInt16) : CVm8051 := { c with pc := c.pc + n }

/-- `Sys.PC += rel`, a signed byte. -/
def jumpRel (rel : UInt8) : CVm8051 := c.next rel.toInt8.toInt16.toUInt16
def jumpIf (on : Bool) (rel : UInt8) : CVm8051 := if on then c.jumpRel rel else c

/-- Where `AJMP` and `ACALL` go to, from the next opcode on. -/
def addr11 (opCode data : UInt8) : UInt16 :=
  let page : UInt16 := (c.pc + 2) &&& 0xF800
  page ||| (opCode >>> 5).toUInt16 <<< 8 ||| data.toUInt16

/-- `AJMP`. -/
def ajmp (opCode : UInt8) : CVm8051 := { c with pc := c.addr11 opCode c.get1Opcode }

/-- The program counter goes onto the stack, low byte first. -/
def pushPC (pc : UInt16) : CVm8051 :=
  let c := c.setSp (c.sp + 1)
  let c := c.setRamDataAt c.sp pc.toUInt8
  let c := c.setSp (c.sp + 1)
  c.setRamDataAt c.sp (pc >>> 8).toUInt8

/-- `ACALL`. -/
def acall (opCode : UInt8) : CVm8051 :=
  { c.pushPC (c.pc + 2) with pc := c.addr11 opCode c.get1Opcode }

def opcodeLCALL : CVm8051 := { c.pushPC (c.pc + 3) with pc := c.opcodeAddr }

def opcodeRET : CVm8051 :=
  let high := c.getRamDataAt c.sp
  let c := c.setSp (c.sp - 1)
  let low := c.getRamDataAt c.sp
  let c := c.setSp (c.sp - 1)
  { c with pc := high.toUInt16 <<< 8 ||| low.toUInt16 }

/-- Other than `RET` it reads the special registers, and skips a byte. -/
def opcodeRETI : CVm8051 :=
  let high := c.getRamData c.sp
  let c := c.setSp (c.sp - 1)
  let low := c.getRamData c.sp
  let c := c.setSp (c.sp - 1)
  { c with pc := (high.toUInt16 <<< 8 ||| low.toUInt16) + 1 }

/-! ## Operands -/

/-- What the low digit of an opcode names: the byte that follows, the memory at it, the memory at R0 or
R1, a register. -/
def operand (lo : UInt8) : UInt8 :=
  if lo = 4 then c.get1Opcode
  else if lo = 5 then c.getRamData c.get1Opcode
  else if lo < 8 then c.getRamDataAt (c.reg (lo - 6))
  else c.reg (lo - 8)

def setOperand (lo data : UInt8) : CVm8051 :=
  if lo = 4 then c.setAcc data
  else if lo = 5 then c.setRamData c.get1Opcode data
  else if lo < 8 then c.setRamDataAt (c.reg (lo - 6)) data
  else c.setRamDataAt (lo - 8) data

/-- The bytes of an opcode with such an operand. -/
def size (lo : UInt8) : UInt16 := if lo ≤ 5 then 2 else 1

/-! ## Arithmetic -/

/-- `MD_ADD`, `MD_ADDC`, with the carry to be added. -/
def mdADD (carry data : UInt8) : CVm8051 :=
  let a := c.acc
  let tep := a.toNat + data.toNat + carry.toNat
  let tep2 := (a &&& 0x7F).toNat + (data &&& 0x7F).toNat + carry.toNat
  let c := c.setFlag auxiliaryBit (0x0F < (a &&& 0x0F).toNat + (data &&& 0x0F).toNat + carry.toNat)
  let c := c.setFlag carryBit (0xFF < tep)
  let c := c.setFlag overflowBit (decide (0xFF < tep) != decide (0x7F < tep2))
  c.setAcc (UInt8.ofNat tep)

/-- `MD_SUBB`. -/
def mdSUBB (data : UInt8) : CVm8051 :=
  let a := c.acc
  let bcy := c.cy
  let borrow : Bool := a.toNat < data.toNat + bcy.toNat
  let borrow7 : Bool := (a &&& 0x7F).toNat < (data &&& 0x7F).toNat + bcy.toNat
  let c := c.setFlag auxiliaryBit ((a &&& 0x0F).toNat < (data &&& 0x0F).toNat + bcy.toNat)
  let c := c.setFlag carryBit borrow
  let c := c.setFlag overflowBit (borrow != borrow7)
  c.setAcc (a - data - bcy)

def opcodeDIV : CVm8051 :=
  let a := c.acc
  let b := c.regB
  let c := if b = 0 then c.setFlag overflowBit true
    else ((c.setAcc (a / b)).setB (a % b)).setFlag overflowBit false
  (c.setFlag carryBit false).next 1

def opcodeMUL : CVm8051 :=
  let temp := c.acc.toUInt16 * c.regB.toUInt16
  let c := c.setFlag overflowBit (255 < temp)
  ((c.setAcc temp.toUInt8).setB (temp >>> 8).toUInt8).next 1

/-- `DA A`: it reads the carry and leaves it. -/
def opcodeDA : CVm8051 :=
  let low : UInt8 := c.acc &&& 0x0F
  let c := if 9 < low ∨ c.flag auxiliaryBit then c.setAcc (c.acc &&& 0xF0 ||| (low + 6) % 16) else c
  let high : UInt8 := c.acc >>> 4
  let shifted : UInt8 := ((high + 6) % 16) <<< 4
  let c := if 9 < high ∨ c.flag carryBit then c.setAcc (c.acc &&& 0x0F ||| shifted) else c
  c.next 1

def opcodeSWAP : CVm8051 := (c.setAcc (c.acc >>> 4 ||| c.acc <<< 4)).next 1

def opcodeRR : CVm8051 := (c.setAcc (c.acc >>> 1 ||| c.acc <<< 7)).next 1
def opcodeRL : CVm8051 := (c.setAcc (c.acc <<< 1 ||| c.acc >>> 7)).next 1
def opcodeRRC : CVm8051 :=
  ((c.setAcc (c.acc >>> 1 ||| c.cy <<< 7)).setFlag carryBit (c.acc &&& 1 != 0)).next 1
def opcodeRLC : CVm8051 :=
  ((c.setAcc (c.acc <<< 1 ||| c.cy)).setFlag carryBit (c.acc &&& 0x80 != 0)).next 1

/-- `MOVC A, @A + base`; past the end of the address space it reads 0. -/
def movc (base : UInt16) : UInt8 :=
  if 0xFFFF < base.toNat + c.acc.toNat then 0 else c.exeFile (base.toNat + c.acc.toNat)

/-! ## Rows of opcodes -/

/-- ORL, ANL, XRL of the memory at the next byte, with the accumulator or a third byte. -/
def logicDirect (f : UInt8 → UInt8 → UInt8) (data : UInt8) (n : UInt16) : CVm8051 :=
  (c.setRamData c.get1Opcode (f (c.getRamData c.get1Opcode) data)).next n

/-- ADD, ADDC, ORL, ANL, XRL, SUBB, MOV of the accumulator with an operand. -/
def logicAcc (f : UInt8 → UInt8 → UInt8) (lo : UInt8) : CVm8051 :=
  (c.setAcc (f c.acc (c.operand lo))).next (size lo)

/-- INC, DEC; those of the accumulator have one byte. -/
def opcodeINC (delta lo : UInt8) : CVm8051 :=
  if lo = 4 then (c.setAcc (c.acc + delta)).next 1
  else (c.setOperand lo (c.operand lo + delta)).next (size lo)

/-- CJNE; the jump is one over three bytes. -/
def opcodeCJNE (left right : UInt8) : CVm8051 :=
  ((c.next 3).jumpIf (left != right) c.get2Opcode).setFlag carryBit (left < right)

/-- DJNZ of the memory at the next byte, and of a register. -/
def opcodeDJNZDirect : CVm8051 :=
  let data := c.getRamData c.get1Opcode - 1
  ((c.setRamData c.get1Opcode data).next 3).jumpIf (data != 0) c.get2Opcode
def opcodeDJNZ (n : UInt8) : CVm8051 :=
  let data := c.reg n - 1
  ((c.setRamDataAt n data).next 2).jumpIf (data != 0) c.get1Opcode

def opcodeXCH (lo : UInt8) : CVm8051 :=
  ((c.setAcc (c.operand lo)).setOperand lo c.acc).next (size lo)

def opcodeXCHD (lo : UInt8) : CVm8051 :=
  let data := c.operand lo
  ((c.setAcc (c.acc &&& 0xF0 ||| data &&& 0x0F)).setOperand lo (data &&& 0xF0 ||| c.acc &&& 0x0F)).next 1

/-- A jump over two bytes, and one on a bit over three. -/
def jump2 (on : Bool) : CVm8051 := (c.next 2).jumpIf on c.get1Opcode
def jumpBit (on : Bool) : CVm8051 := (c.next 3).jumpIf on c.get2Opcode

/-- The carry with the bit at the next byte. -/
def carryBy (f : Bool → Bool → Bool) : CVm8051 :=
  (c.setFlag carryBit (f (c.flag carryBit) (c.getBitFlag c.get1Opcode))).next 2

/-- Opcodes with low digit 0. -/
def stepColumn0 (hi : UInt8) : CVm8051 :=
  match hi.toNat with
  | 0x0 => c.next 1
  | 0x1 => -- JBC
    if c.getBitFlag c.get1Opcode then
      ((c.next 3).putBitFlag c.get1Opcode false).jumpRel c.get2Opcode
    else c.next 3
  | 0x2 => c.jumpBit (c.getBitFlag c.get1Opcode)
  | 0x3 => c.jumpBit (!c.getBitFlag c.get1Opcode)
  | 0x4 => c.jump2 (c.flag carryBit)
  | 0x5 => c.jump2 (!c.flag carryBit)
  | 0x6 => c.jump2 (c.acc == 0)
  | 0x7 => c.jump2 (c.acc != 0)
  | 0x8 => c.jump2 true
  | 0x9 => (c.setDptr c.opcodeAddr).next 3
  | 0xA => c.carryBy fun cy bit => cy || !bit
  | 0xB => c.carryBy fun cy bit => cy && !bit
  | 0xC => -- PUSH: the stack pointer has moved when the memory is read
    let c' := c.setSp (c.sp + 1)
    (c'.setRamDataAt c'.sp (c'.getRamData c'.get1Opcode)).next 2
  | 0xD => -- POP
    let c' := c.setRamData c.get1Opcode (c.getRamDataAt c.sp)
    (c'.setSp (c'.sp - 1)).next 2
  | 0xE => (c.setAcc (c.exRam c.dptr)).next 1
  | _ => (c.setExRam c.dptr c.acc).next 1

/-- Low digit 2. -/
def stepColumn2 (hi : UInt8) : CVm8051 :=
  match hi.toNat with
  | 0x0 => { c with pc := c.opcodeAddr }
  | 0x1 => c.opcodeLCALL
  | 0x2 => c.opcodeRET
  | 0x3 => c.opcodeRETI
  | 0x4 => c.logicDirect (· ||| ·) c.acc 2
  | 0x5 => c.logicDirect (· &&& ·) c.acc 2
  | 0x6 => c.logicDirect (· ^^^ ·) c.acc 2
  | 0x7 => c.carryBy (· || ·)
  | 0x8 => c.carryBy (· && ·)
  | 0x9 => (c.putBitFlag c.get1Opcode (c.flag carryBit)).next 2
  | 0xA => c.carryBy fun _ bit => bit
  | 0xB => (c.putBitFlag c.get1Opcode !c.getBitFlag c.get1Opcode).next 2
  | 0xC => (c.putBitFlag c.get1Opcode false).next 2
  | 0xD => (c.putBitFlag c.get1Opcode true).next 2
  | 0xE => (c.setAcc (c.exRam (c.reg 0).toUInt16)).next 1
  | _ => (c.setExRam (c.reg 0).toUInt16 c.acc).next 1

/-- Low digit 3. -/
def stepColumn3 (hi : UInt8) : CVm8051 :=
  match hi.toNat with
  | 0x0 => c.opcodeRR
  | 0x1 => c.opcodeRRC
  | 0x2 => c.opcodeRL
  | 0x3 => c.opcodeRLC
  | 0x4 => c.logicDirect (· ||| ·) c.get2Opcode 3
  | 0x5 => c.logicDirect (· &&& ·) c.get2Opcode 3
  | 0x6 => c.logicDirect (· ^^^ ·) c.get2Opcode 3
  | 0x7 => { c with pc := c.acc.toUInt16 + c.dptr }
  | 0x8 => (c.next 1).setAcc (c.movc (c.pc + 1))
  | 0x9 => (c.setAcc (c.movc c.dptr)).next 1
  | 0xA => (c.setDptr (c.dptr + 1)).next 1
  | 0xB => (c.setFlag carryBit !c.flag carryBit).next 1
  | 0xC => (c.setFlag carryBit false).next 1
  | 0xD => (c.setFlag carryBit true).next 1
  | 0xE => (c.setAcc (c.exRam (c.reg 1).toUInt16)).next 1
  | _ => (c.setExRam (c.reg 1).toUInt16 c.acc).next 1

/-- Low digit 4: the accumulator, with the byte that follows where there is one. -/
def stepColumn4 (hi : UInt8) : CVm8051 :=
  match hi.toNat with
  | 0x8 => c.opcodeDIV
  | 0xA => c.opcodeMUL
  | 0xB => c.opcodeCJNE c.acc c.get1Opcode
  | 0xC => c.opcodeSWAP
  | 0xD => c.opcodeDA
  | 0xE => (c.setAcc 0).next 1
  | _ => (c.setAcc (~~~c.acc)).next 1

/-- Low digits from 5 on: the memory at the next byte, that at R0 or R1, a register. -/
def stepOperand (hi lo : UInt8) : CVm8051 :=
  match hi.toNat with
  | 0x8 => -- MOV direct; two addresses follow where the operand is direct too, source first
    if lo = 5 then (c.setRamData c.get2Opcode (c.operand lo)).next 3
    else (c.setRamData c.get1Opcode (c.operand lo)).next 2
  | 0xA => -- MOV from direct; the reserved opcode does nothing
    if lo = 5 then c else (c.setOperand lo (c.getRamData c.get1Opcode)).next 2
  | 0xB => -- the accumulator is compared with the memory, the others with a byte
    if lo = 5 then c.opcodeCJNE c.acc (c.operand lo) else c.opcodeCJNE (c.operand lo) c.get1Opcode
  | 0xC => c.opcodeXCH lo
  | 0xD =>
    if lo = 5 then c.opcodeDJNZDirect
    else if lo < 8 then c.opcodeXCHD lo
    else c.opcodeDJNZ (lo - 8)
  | 0xE => c.logicAcc (fun _ data => data) lo
  | _ => (c.setOperand lo c.acc).next (size lo)

/-- The rows that have the same meaning for all operands from low digit 4 on. -/
def stepRow (hi lo : UInt8) : CVm8051 :=
  match hi.toNat with
  | 0x0 => c.opcodeINC 1 lo
  | 0x1 => c.opcodeINC (-1) lo
  | 0x2 => (c.mdADD 0 (c.operand lo)).next (size lo)
  | 0x3 => (c.mdADD c.cy (c.operand lo)).next (size lo)
  | 0x4 => c.logicAcc (· ||| ·) lo
  | 0x5 => c.logicAcc (· &&& ·) lo
  | 0x6 => c.logicAcc (· ^^^ ·) lo
  | 0x7 => -- MOV a byte; after an address it is the second one
    if lo = 4 then (c.setAcc c.get1Opcode).next 2
    else if lo = 5 then (c.setRamData c.get1Opcode c.get2Opcode).next 3
    else (c.setOperand lo c.get1Opcode).next 2
  | 0x9 => (c.mdSUBB (c.operand lo)).next (size lo)
  | _ => if lo = 4 then c.stepColumn4 hi else c.stepOperand hi lo

/-- `StepRun`. -/
def stepRun (code : UInt8) : CVm8051 :=
  let hi := code >>> 4
  let lo := code &&& 0x0F
  match lo.toNat with
  | 0x0 => c.stepColumn0 hi
  | 0x1 => if hi % 2 = 0 then c.ajmp code else c.acall code
  | 0x2 => c.stepColumn2 hi
  | 0x3 => c.stepColumn3 hi
  | _ => c.stepRow hi lo

end CVm8051

/-! ## Start -/

namespace CVm8051

/-- `InitalReg`, and the constructor with a program, a contract, and the memory behind the program. -/
def start (vRom inputData : Bytes) (behind : ℕ → UInt8) : CVm8051 :=
  let blank : CVm8051 :=
    { chipRam := fun _ => 0
      chipSfr := fun _ => 0
      exRam := fun addr =>
        let i := addr.toNat - vmShareAddr
        if addr.toNat < vmShareAddr then 0
        else if i < 2 then (Codec.leBytes 2 inputData.length).getD i 0
        else inputData.getD (i - 2) 0
      exeFile := fun i => if i < 65536 then vRom.getD i 0 else behind (i - 65536)
      pc := 0 }
  ((((blank.setRamData 0x80 0xFF).setRamData 0x90 0xFF).setRamData 0xA0 0xFF).setRamData 0xB0 0xFF).setSp 7

end CVm8051

end Dacrs
