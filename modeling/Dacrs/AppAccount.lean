import Dacrs.BlockIndex
import Dacrs.ScriptView

/-!
# App accounts

The accounts a contract keeps for its users in the contract database: a free balance and
frozen funds that become free at a height, or (for contracts registered after the fork) at
a block time.  `autoMergeFreezeToFree` takes its limit from the active chain of the node.
-/

open Codec (Bytes)

namespace Dacrs

/-! ## The active chain -/

/-- `g_cChainActive`: the tip and its ancestors.  `CChain::operator[]`. -/
def chainAt (chainActive : PBlockIndex) (nHeight : ℤ) : Option CBlockIndex :=
  if nHeight < 0 ∨ (chainActive.length : ℤ) ≤ nHeight then none
  else chainActive[chainActive.length - 1 - nHeight.toNat]?

/-! ## Checked arithmetic (SafeInt3.hpp) -/

def safeAdd (a b : UInt64) : Option UInt64 :=
  if a.toNat + b.toNat < 2 ^ 64 then some (a + b) else none

def safeMultiply (a b : UInt64) : Option UInt64 :=
  if a.toNat * b.toNat < 2 ^ 64 then some (a * b) else none

/-- On `int64_t`. -/
def safeAddInt (a b : Int64) : Option Int64 :=
  if -2 ^ 63 ≤ a.toInt + b.toInt ∧ a.toInt + b.toInt < 2 ^ 63 then some (a + b) else none

def safeSubtractInt (a b : Int64) : Option Int64 :=
  if -2 ^ 63 ≤ a.toInt - b.toInt ∧ a.toInt - b.toInt < 2 ^ 63 then some (a - b) else none

/-! ## Data -/

/-- `g_sBlockTime4AppAccountHeight`. -/
def blockTime4AppAccountHeight : ℤ := 600000

structure CAppCFund where
  nllValue : UInt64
  nHeight : ℤ
  vTag : Bytes
deriving DecidableEq, Inhabited

structure CAppUserAccout where
  ullValues : UInt64
  vuchAccUserID : Bytes
  vcFreezedFund : List CAppCFund
deriving DecidableEq, Inhabited

/-- What a contract asks for one app user.  The arrays of the source hold 40 bytes; the
length bytes say how many count. -/
structure CAppFundOperate where
  uchOpeatorType : UInt8
  unOutHeight : UInt32
  llMoney : Int64
  uchFundTaglen : UInt8
  arruchFundTag : Bytes
deriving DecidableEq, Inhabited

/-- EM_ADD_FREE_OP, EM_SUB_FREE_OP, EM_ADD_TAG_OP, EM_SUB_TAG_OP. -/
def addFreeOp : UInt8 := 1
def subFreeOp : UInt8 := 2
def addTagOp : UInt8 := 3
def subTagOp : UInt8 := 4

/-- An `unsigned int` stored in an `int`. -/
def toInt32 (n : UInt32) : ℤ := n.toInt32.toInt

namespace CAppFundOperate

def getUint64Value (op : CAppFundOperate) : UInt64 := op.llMoney.toUInt64

/-- `GetFundTagV`, which asserts that the tag fits its array. -/
def getFundTagV (op : CAppFundOperate) : Exec Bytes :=
  if op.uchFundTaglen.toNat ≤ 40 then .ok (op.arruchFundTag.take op.uchFundTaglen.toNat)
  else Exec.throw "assert(sizeof(m_arruchFundTag) >= m_uchFundTaglen)"

/-- `toJSON`, of an operation of the user it is listed under: his id and the tag are asserted to fit, and
the name of the type is looked up among five. -/
def toJSON (vuchUserId : Bytes) (op : CAppFundOperate) : Exec Unit :=
  if vuchUserId.length ≤ 40 ∧ 0 < vuchUserId.length then do
    let _ ← op.getFundTagV
    if op.uchOpeatorType.toNat < 5 then return ()
    else Exec.throw "strTep[m_uchOpeatorType] past the array"
  else Exec.throw "assert(sizeof(m_arruchAppuser) >= m_uchAppuserIDlen && m_uchAppuserIDlen > 0)"

end CAppFundOperate

namespace CAppCFund

/-- `CAppCFund(const CAppFundOperate &)`. -/
def ofOperate (op : CAppFundOperate) : Exec CAppCFund :=
  if op.unOutHeight = 0 then Exec.throw "assert(cOp.m_unOutHeight > 0)"
  else do
    let vTag ← op.getFundTagV
    return ⟨op.getUint64Value, toInt32 op.unOutHeight, vTag⟩

def codec : Codec CAppCFund :=
  (Codec.seq varUInt64 fun _ => Codec.seq varInt32 fun _ => vchCodec).imap
    (fun p => ⟨p.1, p.2.1, p.2.2⟩) (fun f => (f.nllValue, f.nHeight, f.vTag))
    (fun f => varInt32.Fits f.nHeight ∧ vchCodec.Fits f.vTag)
    fun _ h => ⟨⟨trivial, h.1, h.2⟩, rfl⟩

/-- Same tag and same out-height. -/
def sameSlot (f g : CAppCFund) : Bool := f.vTag == g.vTag && f.nHeight == g.nHeight

end CAppCFund

namespace CAppUserAccout

/-- `CAppUserAccout(const vector<unsigned char> &)`. -/
def ofUser (vuchUserId : Bytes) : CAppUserAccout := ⟨0, vuchUserId, []⟩

def codec : Codec CAppUserAccout :=
  (Codec.seq varUInt64 fun _ => Codec.seq vchCodec fun _ => Codec.vec maxSize CAppCFund.codec).imap
    (fun p => ⟨p.1, p.2.1, p.2.2⟩) (fun a => (a.ullValues, a.vuchAccUserID, a.vcFreezedFund))
    (fun a => vchCodec.Fits a.vuchAccUserID ∧ (Codec.vec maxSize CAppCFund.codec).Fits a.vcFreezedFund)
    fun _ h => ⟨⟨trivial, h.1, h.2⟩, rfl⟩

/-! ## Frozen funds -/

/-- Replace the first fund that satisfies `p`; `none` removes it. -/
def updateFirst (p : CAppCFund → Bool) (f : CAppCFund → Option CAppCFund) :
    List CAppCFund → List CAppCFund
  | [] => []
  | fund :: rest =>
    if p fund then (f fund).toList ++ rest else fund :: updateFirst p f rest

/-- `AddAppCFund`.  The result of `MergeCFund` is not looked at: a sum that overflows leaves
the fund as it was. -/
def addAppCFund (a : CAppUserAccout) (fund : CAppCFund) : Exec CAppUserAccout :=
  match a.vcFreezedFund.find? (·.sameSlot fund) with
  | some _ =>
    if fund.nllValue = 0 then Exec.throw "assert(cFund.getValue() > 0)"
    else
      let merge (old : CAppCFund) : Option CAppCFund :=
        match safeAdd fund.nllValue old.nllValue with
        | some v => some { old with nllValue := v }
        | none => some old
      .ok { a with vcFreezedFund := updateFirst (·.sameSlot fund) merge a.vcFreezedFund }
  | none => .ok { a with vcFreezedFund := a.vcFreezedFund ++ [fund] }

/-- `MinusAppCFund`. -/
def minusAppCFund (a : CAppUserAccout) (fund : CAppCFund) : Exec CAppUserAccout :=
  if fund.nHeight ≤ 0 then Exec.throw "assert(cInFound.getHeight() > 0)"
  else match a.vcFreezedFund.find? (·.sameSlot fund) with
    | some old =>
      if old.nllValue < fund.nllValue then Exec.returnFalse
      else
        let minus (old : CAppCFund) : Option CAppCFund :=
          if old.nllValue = fund.nllValue then none
          else some { old with nllValue := old.nllValue - fund.nllValue }
        .ok { a with vcFreezedFund := updateFirst (·.sameSlot fund) minus a.vcFreezedFund }
    | none => Exec.returnFalse

/-- `CAppUserAccout::Operate` on one operation. -/
def operateOne (a : CAppUserAccout) (op : CAppFundOperate) : Exec CAppUserAccout :=
  if op.uchOpeatorType = addFreeOp then
    match safeAdd a.ullValues op.getUint64Value with
    | some v => .ok { a with ullValues := v }
    | none => Exec.returnFalse
  else if op.uchOpeatorType = subFreeOp then
    if op.getUint64Value ≤ a.ullValues then
      .ok { a with ullValues := a.ullValues - op.getUint64Value }
    else Exec.returnFalse
  else if op.uchOpeatorType = addTagOp then do
    let fund ← CAppCFund.ofOperate op
    a.addAppCFund fund
  else if op.uchOpeatorType = subTagOp then do
    let fund ← CAppCFund.ofOperate op
    a.minusAppCFund fund
  else Exec.returnFalse

/-- On a list of operations. -/
def operate (a : CAppUserAccout) (ops : List CAppFundOperate) : Exec CAppUserAccout :=
  if ops = [] then Exec.throw "assert(vcOp.size() > 0)" else ops.foldlM operateOne a

/-! ## Unfreezing -/

/-- The limit below which frozen funds become free: the height, or after the fork the time of
the block at that height in the active chain, of its tip if the chain is not that high. -/
def freezeLimit (chainActive : PBlockIndex) (unAppHeight : UInt32) (nHeight : ℤ) : Exec ℤ :=
  if blockTime4AppAccountHeight ≤ unAppHeight.toNat ∧ blockTime4AppAccountHeight ≤ nHeight then
    match chainActive with
    | [] => Exec.throw "g_cChainActive.Tip() is NULL"
    | tip :: _ =>
      if nHeight ≤ tip.nHeight then
        match chainAt chainActive nHeight with
        | some index => .ok (toInt32 index.unTime)
        | none => Exec.throw "g_cChainActive[nHeight] is NULL"
      else .ok (toInt32 tip.unTime)
  else .ok nHeight

/-- Move the matured funds into the free balance; `none` when the balance overflows. -/
def mergeFunds (limit : ℤ) : UInt64 → List CAppCFund → Option UInt64
  | free, [] => some free
  | free, fund :: rest =>
    if fund.nHeight ≤ limit then
      match safeAdd free fund.nllValue with
      | some v => mergeFunds limit v rest
      | none => none
    else mergeFunds limit free rest

/-- `AutoMergeFreezeToFree`. -/
def autoMergeFreezeToFree (a : CAppUserAccout) (chainActive : PBlockIndex) (unAppHeight : UInt32)
    (nHeight : ℤ) : Exec CAppUserAccout := do
  let limit ← freezeLimit chainActive unAppHeight nHeight
  match mergeFunds limit a.ullValues a.vcFreezedFund with
  | some v => return { a with
      ullValues := v
      vcFreezedFund := a.vcFreezedFund.filter fun fund => ¬ fund.nHeight ≤ limit }
  | none => Exec.returnFalse

end CAppUserAccout

/-! ## Stored app accounts -/

namespace CScriptDBViewCache

variable (s : CScriptDBViewCache)

/-- `GetScriptAcc`; a record that does not parse throws. -/
def getScriptAcc (r : CRegID) (vchAccKey : Bytes) : Exec (Option CAppUserAccout) :=
  match s.getData (scriptAccKey r.getVec6 vchAccKey) with
  | none => .ok none
  | some v => match CAppUserAccout.codec.read v with
    | some (a, _) => .ok (some a)
    | none => Exec.throw "end of data"

/-- `SetScriptAcc`. -/
def setScriptAcc (r : CRegID) (a : CAppUserAccout) : CScriptDBViewCache × CScriptDBOperLog :=
  s.setDataLogged (scriptAccKey r.getVec6 a.vuchAccUserID) (CAppUserAccout.codec.write a)

end CScriptDBViewCache

end Dacrs
