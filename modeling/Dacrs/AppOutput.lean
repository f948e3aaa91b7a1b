import Dacrs.Sample

/-!
# What contracts ask for app accounts

The records a contract of either kind hands over for its users, and the way they take from there to
the accounts: each is inserted under the user id it names, and the operations of a user are applied
one after the other.  The functions on this way assert what they need and look at little of it:
`appOperate_orderly_iff` says when the whole of it succeeds or returns false.
-/

open Codec (Bytes Reader)

namespace Dacrs

/-! ## Records -/

/-- `CAppCFund::MAX_TAG_SIZE`. -/
def maxTagSize : ℕ := 40

/-- A whole `CAppFundOperate`, with the user id it names.  The tag's 40 bytes are those of the
operation. -/
structure AppFundRecord extends CAppFundOperate where
  uchAppuserIDlen : UInt8
  arruchAppuser : Bytes

namespace AppFundRecord

/-- The serialized size. -/
def size : ℕ := 95

def unserialize : Reader AppFundRecord := do
  let uchOpeatorType ← Codec.u8.read
  let unOutHeight ← Codec.u32.read
  let llMoney ← Codec.i64.read
  let uchAppuserIDlen ← Codec.u8.read
  let arruchAppuser ← Codec.readAll Codec.u8 maxTagSize
  let uchFundTaglen ← Codec.u8.read
  let arruchFundTag ← Codec.readAll Codec.u8 maxTagSize
  return { uchOpeatorType, unOutHeight, llMoney, uchFundTaglen, arruchFundTag, uchAppuserIDlen,
           arruchAppuser }

/-- `ss >> temp`, a number of times. -/
def unserializeAll : ℕ → Reader (List AppFundRecord)
  | 0 => return []
  | n + 1 => do
    let r ← unserialize
    let rest ← unserializeAll n
    return r :: rest

theorem takes_unserialize : Codec.Takes unserialize size := by
  have htag : Codec.Takes (Codec.readAll Codec.u8 maxTagSize) 40 :=
    Codec.takes_readAll Codec.takes_u8 maxTagSize
  exact Codec.takes_u8.bind fun _ => Codec.takes_u32.bind fun _ => Codec.takes_i64.bind fun _ =>
    Codec.takes_u8.bind fun _ => htag.bind fun _ => Codec.takes_u8.bind fun _ =>
    htag.bind fun _ => Codec.Takes.pure _

theorem takes_unserializeAll (n : ℕ) : Codec.Takes (unserializeAll n) (n * size) := by
  induction n with
  | zero =>
    rw [Nat.zero_mul]
    exact Codec.Takes.pure []
  | succ n ih =>
    have hlen : (n + 1) * size = size + (n * size + 0) := by rw [Nat.succ_mul]; omega
    rw [hlen]
    exact takes_unserialize.bind fun _ => ih.bind fun _ => Codec.Takes.pure _

/-- `GetAppUserV`. -/
def getAppUserV (r : AppFundRecord) : Exec Bytes :=
  if r.uchAppuserIDlen.toNat ≤ maxTagSize ∧ 0 < r.uchAppuserIDlen.toNat then
    .ok (r.arruchAppuser.take r.uchAppuserIDlen.toNat)
  else Exec.throw "assert(sizeof(m_arruchAppuser) >= m_uchAppuserIDlen && m_uchAppuserIDlen > 0)"

end AppFundRecord

/-- `CAssetOperate`. -/
structure CAssetOperate where
  unOutHeight : UInt32
  ullMoney : UInt64
  uchFundTaglen : UInt8
  vuchFundTag : Bytes

namespace CAssetOperate

/-- `GetFundTagV`. -/
def getFundTagV (a : CAssetOperate) : Exec Bytes :=
  if a.uchFundTaglen.toNat ≤ maxTagSize then .ok (a.vuchFundTag.take a.uchFundTaglen.toNat)
  else Exec.throw "assert(sizeof(m_vuchFundTag) >= m_uchFundTaglen)"

/-- `getheight`. -/
def getheight (a : CAssetOperate) : ℤ := toInt32 a.unOutHeight

end CAssetOperate

/-- The table a Lua contract passes: its numbers, without their fractions, and its arrays of
numbers, when they have as many entries as are asked for. -/
structure LuaTable where
  number : String → Option ℤ
  array : String → ℕ → Option Bytes
  array_length : ∀ key n vch, array key n = some vch → vch.length = n

namespace LuaTable

/-- `getArrayInTable`. -/
def getArrayInTable (t : LuaTable) (key : String) (usLen : ℕ) : Option Bytes :=
  if usLen = 0 ∨ 500 < usLen then none else t.array key usLen

/-- The tag: read when its length fits the array, zeroes (from the `memset`) otherwise. -/
def fundTag (t : LuaTable) (uchFundTaglen : UInt8) : Option Bytes :=
  if 0 < uchFundTaglen.toNat ∧ uchFundTaglen.toNat ≤ maxTagSize then
    t.getArrayInTable "fundTagTbl" uchFundTaglen.toNat
  else some (List.replicate maxTagSize 0)

/-- `GetDataTableOutAppOperate`. -/
def getDataTableOutAppOperate (t : LuaTable) : Option AppFundRecord := do
  let operatorType ← t.number "operatorType"
  let outHeight ← t.number "outHeight"
  let money ← t.getArrayInTable "moneyTbl" 8
  let (llMoney, _) ← Codec.i64.read money
  let userIdLen ← t.number "userIdLen"
  let uchAppuserIDlen := UInt8.ofInt userIdLen
  if uchAppuserIDlen.toNat < 1 ∨ maxTagSize < uchAppuserIDlen.toNat then none
  else
    let arruchAppuser ← t.getArrayInTable "userIdTbl" uchAppuserIDlen.toNat
    let fundTagLen ← t.number "fundTagLen"
    let uchFundTaglen := UInt8.ofInt fundTagLen
    let arruchFundTag ← t.fundTag uchFundTaglen
    return { uchOpeatorType := UInt8.ofInt operatorType, unOutHeight := UInt32.ofInt outHeight, llMoney,
             uchFundTaglen, arruchFundTag, uchAppuserIDlen, arruchAppuser }

/-- `GetDataTableAssetOperate`: the receiver and the operation. -/
def getDataTableAssetOperate (t : LuaTable) : Option (Bytes × CAssetOperate) := do
  let toAddr ← t.getArrayInTable "toAddrTbl" 34
  let outHeight ← t.number "outHeight"
  let money ← t.getArrayInTable "moneyTbl" 8
  let (ullMoney, _) ← Codec.u64.read money
  let fundTagLen ← t.number "fundTagLen"
  let uchFundTaglen := UInt8.ofInt fundTagLen
  let vuchFundTag ← t.fundTag uchFundTaglen
  return (toAddr, { unOutHeight := UInt32.ofInt outHeight, ullMoney, uchFundTaglen, vuchFundTag })

end LuaTable

/-! ## The calls of a contract -/

/-- `g_sFreezeBlackAcctHeight`. -/
def freezeBlackAcctHeight : ℤ := 99854

/-- The insertions into `m_MapAppOperate`, in order. -/
abbrev AppOutput := List (Bytes × CAppFundOperate)

/-- A write past one of the two arrays of a record. -/
def outsideRecord : String := "write past the array of a record"

section
variable (node : Node) (view : CAccountViewCache) (des src : CRegID) (nHeight : ℤ)

/-- A record with a negative amount is refused from some height on. -/
def AppFundRecord.refused (r : AppFundRecord) : Bool :=
  freezeBlackAcctHeight < nHeight && r.llMoney < 0

/-- `InsertOutAPPOperte(temp.GetAppUserV(), temp)`. -/
def insertRecord (out : AppOutput) (r : AppFundRecord) : Exec AppOutput := do
  let vuchUserId ← r.getAppUserV
  return out ++ [(vuchUserId, r.toCAppFundOperate)]

/-- The loop of `ExWriteOutAppOperateFunc` (8051).  A refused record ends it, and those before it stay. -/
def writeOutAppOperate : List AppFundRecord → AppOutput → Exec AppOutput
  | [], out => .ok out
  | r :: rest, out =>
    if r.refused nHeight then .ok out
    else do
      let out ← insertRecord out r
      writeOutAppOperate rest out

/-- `ExWriteOutAppOperateFunc` of vm8051.cpp, on what `GetData` took from the parameter area.  A call
that fails does not end the run of the contract. -/
def exWriteOutAppOperate8051 (retdata : List Bytes) (out : AppOutput) : Exec AppOutput :=
  match retdata with
  | [data] =>
    if data.length % AppFundRecord.size ≠ 0 then .ok out
    else do
      let (records, _) ← Exec.ofOption
        (AppFundRecord.unserializeAll (data.length / AppFundRecord.size) data) (Exec.throw "end of data")
      writeOutAppOperate nHeight records out
  | _ => .ok out

/-- `ExWriteOutAppOperateFunc` of lmylib.cpp.  A call of a Lua contract that fails leaves the
output as it is too. -/
def exWriteOutAppOperateLua (t : LuaTable) (out : AppOutput) : Exec AppOutput :=
  match t.getDataTableOutAppOperate with
  | none => .ok out
  | some r => if r.refused nHeight then .ok out else insertRecord out r

/-- The address of the account the transaction is from. -/
def sendAddress : Bytes :=
  CKeyID.toAddress node.cfg node.cr ((view.getKeyId node.cr (.regID src)).getD 0)

/-- The operations of one transfer: taken from the sender, given to the receiver.  The ids are
copied into the array of the record. -/
def transferPair (minusOp addOp : UInt8) (op : CAppFundOperate) (recv : Bytes) (out : AppOutput) :
    Exec AppOutput :=
  let send := sendAddress node view src
  if maxTagSize < send.length ∨ maxTagSize < recv.length then Exec.throw outsideRecord
  else .ok (out ++ [(send, { op with uchOpeatorType := minusOp }),
    (recv, { op with uchOpeatorType := addOp })])

/-- A receiver is another account with an address. -/
def receiverValid (recv : Bytes) : Bool :=
  sendAddress node view src != recv && (CTransaction.appUserKeyId node view recv).isSome

/-- `ExTransferSomeAsset`. -/
def exTransferSomeAsset (t : LuaTable) (out : AppOutput) : Exec AppOutput :=
  match t.getDataTableAssetOperate with
  | none => .ok out
  | some (recv, asset) =>
    if ¬ receiverValid node view src recv ∨ asset.ullMoney = 0 ∨ asset.getheight < 0 then .ok out
    else do
      let vtag ← asset.getFundTagV
      let op : CAppFundOperate :=
        { uchOpeatorType := 0
          unOutHeight := asset.unOutHeight
          llMoney := asset.ullMoney.toInt64
          uchFundTaglen := UInt8.ofNat vtag.length
          arruchFundTag := vtag }
      if 0 < asset.getheight then transferPair node view src subTagOp addTagOp op recv out
      else transferPair node view src subFreeOp addFreeOp op recv out

/-- The free balance where the loop of `AutoMergeFreezeToFree` ends. -/
def mergedUntil (limit : ℤ) : UInt64 → List CAppCFund → UInt64
  | free, [] => free
  | free, fund :: rest =>
    if fund.nHeight ≤ limit then
      match safeAdd free fund.nllValue with
      | some v => mergedUntil limit v rest
      | none => free
    else mergedUntil limit free rest

/-- What `AutoMergeFreezeToFree` leaves of the account when its result is not looked at. -/
def autoMerged (a : CAppUserAccout) : Exec CAppUserAccout :=
  match node.chainActive with
  | [] => Exec.throw "g_cChainActive.Tip() is NULL"
  | tip :: _ => do
    let limit ← CAppUserAccout.freezeLimit node.chainActive des.uHeight tip.nHeight
    match CAppUserAccout.mergeFunds limit a.ullValues a.vcFreezedFund with
    | some v => return { a with
        ullValues := v
        vcFreezedFund := a.vcFreezedFund.filter fun fund => ¬ fund.nHeight ≤ limit }
    | none => return { a with ullValues := mergedUntil limit a.ullValues a.vcFreezedFund }

/-- One frozen fund handed on.  The length of the tag becomes one byte. -/
def transferFund (recv : Bytes) (out : AppOutput) (fund : CAppCFund) : Exec AppOutput :=
  let uchFundTaglen := UInt8.ofNat fund.vTag.length
  if maxTagSize < uchFundTaglen.toNat then Exec.throw outsideRecord
  else
    transferPair node view src subTagOp addTagOp
      { uchOpeatorType := 0
        unOutHeight := UInt32.ofInt fund.nHeight
        llMoney := fund.nllValue.toInt64
        uchFundTaglen
        arruchFundTag := fund.vTag.take uchFundTaglen.toNat } recv out

/-- The free balance handed on. -/
def transferFree (recv : Bytes) (ullMoney : UInt64) (out : AppOutput) : Exec AppOutput :=
  if 0 < ullMoney then
    transferPair node view src subFreeOp addFreeOp
      { uchOpeatorType := 0
        unOutHeight := 0
        llMoney := ullMoney.toInt64
        uchFundTaglen := 0
        arruchFundTag := [] } recv out
  else .ok out

/-- `ExTransferContactAsset` to the receiver it is given, with the account `GetScriptAcc` finds. -/
def exTransferContactAsset (recv : Bytes) (stored : Option CAppUserAccout) (out : AppOutput) :
    Exec AppOutput :=
  if recv.length ≠ 34 ∨ ¬ receiverValid node view src recv then .ok out
  else match stored with
    | none => .ok out
    | some a => do
      let a ← autoMerged node des a
      let out ← transferFree node view src recv a.ullValues out
      a.vcFreezedFund.foldlM (transferFund node view src recv) out

/-- A call of a contract that leads to operations on app accounts. -/
inductive AppCall where
  | write8051 (retdata : List Bytes)
  | writeLua (t : LuaTable)
  | transferSomeAsset (t : LuaTable)
  | transferContactAsset (recv : Bytes) (stored : Option CAppUserAccout)

def appCall (out : AppOutput) : AppCall → Exec AppOutput
  | .write8051 retdata => exWriteOutAppOperate8051 nHeight retdata out
  | .writeLua t => exWriteOutAppOperateLua nHeight t out
  | .transferSomeAsset t => exTransferSomeAsset node view src t out
  | .transferContactAsset recv stored => exTransferContactAsset node view des src recv stored out

/-- The calls of a contract, and the application of what they asked for to the stored accounts. -/
def appOperate (s : CScriptDBViewCache) (calls : List AppCall) : Exec CVmRunEvn.AppWork := do
  let out ← calls.foldlM (appCall node view des src nHeight) []
  CVmRunEvn.opeatorAppAccount node.chainActive des nHeight s (CVmRunEvn.mapAppOperate out)

end

/-! ## Success, or a refusal -/

/-- A violated assertion, an access past a fixed array, an exception. -/
def Throws : Exit → Prop
  | .fail _ => False
  | .throw _ => True

/-- A computation that succeeds or returns false. -/
abbrev Exec.Orderly {α : Type} (x : Exec α) : Prop := Except.Avoids Throws x

namespace Exec

open Except (avoids_ok avoids_error)

variable {α β : Type}

theorem orderly_bind {x : Exec α} {f : α → Exec β} :
    Orderly (x >>= f) ↔ Orderly x ∧ ∀ a, x = .ok a → Orderly (f a) := Except.avoids_bind

theorem orderly_returnFalse : Orderly (returnFalse : Exec α) := avoids_error.mpr not_false

theorem not_orderly_throw {what : String} : ¬ Orderly (throw what : Exec α) :=
  fun h => avoids_error.mp h trivial

end Exec

open Except (avoids_ok avoids_error StepsSafe avoids_foldlM)

/-! ## One operation -/

namespace CAppFundOperate

/-- The fund an operation speaks of. -/
def fund (op : CAppFundOperate) : CAppCFund :=
  ⟨op.getUint64Value, toInt32 op.unOutHeight, op.arruchFundTag.take op.uchFundTaglen.toNat⟩

/-- It has an out-height, and its tag fits. -/
def FundNamed (op : CAppFundOperate) : Prop := op.unOutHeight ≠ 0 ∧ op.uchFundTaglen.toNat ≤ maxTagSize

theorem ofOperate_eq {op : CAppFundOperate} (h : op.FundNamed) :
    CAppCFund.ofOperate op = .ok op.fund := by
  have htag : op.uchFundTaglen.toNat ≤ 40 := h.2
  unfold CAppCFund.ofOperate getFundTagV
  rw [if_neg h.1, if_pos htag]
  rfl

theorem ofOperate_orderly {op : CAppFundOperate} :
    (CAppCFund.ofOperate op).Orderly ↔ op.FundNamed := by
  by_cases h : op.FundNamed
  · rw [ofOperate_eq h]
    exact iff_of_true (avoids_ok _) h
  · refine iff_of_false ?_ h
    unfold CAppCFund.ofOperate getFundTagV
    by_cases h0 : op.unOutHeight = 0
    · rw [if_pos h0]
      exact Exec.not_orderly_throw
    · have htag : ¬ op.uchFundTaglen.toNat ≤ 40 := fun hle => h ⟨h0, hle⟩
      rw [if_neg h0, if_neg htag]
      exact Exec.not_orderly_throw

/-- It can be printed for a user: his id and the tag fit, and the type has a name. -/
def Prints (vuchUserId : Bytes) (op : CAppFundOperate) : Prop :=
  (vuchUserId.length ≤ maxTagSize ∧ 0 < vuchUserId.length) ∧ op.uchFundTaglen.toNat ≤ maxTagSize ∧
    op.uchOpeatorType.toNat < 5

theorem toJSON_eq {vuchUserId : Bytes} {op : CAppFundOperate} (h : op.Prints vuchUserId) :
    op.toJSON vuchUserId = .ok () := by
  obtain ⟨hid, htag, htype⟩ := h
  unfold toJSON getFundTagV
  unfold maxTagSize at hid htag
  rw [if_pos hid, if_pos htag, Except.ok_bind, if_pos htype]
  rfl

theorem toJSON_orderly {vuchUserId : Bytes} {op : CAppFundOperate} :
    (op.toJSON vuchUserId).Orderly ↔ op.Prints vuchUserId := by
  by_cases h : op.Prints vuchUserId
  · rw [toJSON_eq h]
    exact iff_of_true (avoids_ok _) h
  · refine iff_of_false (fun horderly => ?_) h
    unfold toJSON getFundTagV at horderly
    by_cases hid : vuchUserId.length ≤ 40 ∧ 0 < vuchUserId.length
    · rw [if_pos hid] at horderly
      obtain ⟨htag, htype⟩ := Exec.orderly_bind.mp horderly
      by_cases hfits : op.uchFundTaglen.toNat ≤ 40
      · rw [if_pos hfits] at htype
        have hname := htype _ rfl
        rw [if_neg fun h5 => h ⟨hid, hfits, h5⟩] at hname
        exact Exec.not_orderly_throw hname
      · rw [if_neg hfits] at htag
        exact Exec.not_orderly_throw htag
    · rw [if_neg hid] at horderly
      exact Exec.not_orderly_throw horderly

end CAppFundOperate

namespace CAppUserAccout

/-- What an operation must give for the assertions on its way: to freeze money, a named fund, and an
amount if that fund is there already; to take frozen money, a named fund whose height is positive. -/
def OpSafe (a : CAppUserAccout) (op : CAppFundOperate) : Prop :=
  (op.uchOpeatorType = addTagOp → op.FundNamed ∧
    (op.getUint64Value = 0 → a.vcFreezedFund.find? (·.sameSlot op.fund) = none)) ∧
  (op.uchOpeatorType = subTagOp → op.FundNamed ∧ 0 < toInt32 op.unOutHeight)

theorem addAppCFund_orderly {a : CAppUserAccout} {fund : CAppCFund} :
    (a.addAppCFund fund).Orderly ↔
      (fund.nllValue = 0 → a.vcFreezedFund.find? (·.sameSlot fund) = none) := by
  unfold addAppCFund
  cases hfind : a.vcFreezedFund.find? (·.sameSlot fund) with
  | none => exact iff_of_true (avoids_ok _) fun _ => rfl
  | some old =>
    dsimp only
    by_cases h0 : fund.nllValue = 0
    · rw [if_pos h0]
      refine iff_of_false Exec.not_orderly_throw fun h => ?_
      cases h h0
    · rw [if_neg h0]
      exact iff_of_true (avoids_ok _) fun h => absurd h h0

theorem minusAppCFund_orderly {a : CAppUserAccout} {fund : CAppCFund} :
    (a.minusAppCFund fund).Orderly ↔ 0 < fund.nHeight := by
  unfold minusAppCFund
  by_cases h0 : fund.nHeight ≤ 0
  · rw [if_pos h0]
    exact iff_of_false Exec.not_orderly_throw (by omega)
  · rw [if_neg h0]
    refine iff_of_true ?_ (by omega)
    split
    · split
      · exact Exec.orderly_returnFalse
      · exact avoids_ok _
    · exact Exec.orderly_returnFalse

theorem operateOne_orderly (a : CAppUserAccout) (op : CAppFundOperate) :
    (a.operateOne op).Orderly ↔ a.OpSafe op := by
  have hfree : op.uchOpeatorType ≠ addTagOp → op.uchOpeatorType ≠ subTagOp → a.OpSafe op :=
    fun h1 h2 => ⟨fun h => absurd h h1, fun h => absurd h h2⟩
  unfold operateOne
  split
  · next htype =>
    refine iff_of_true ?_ (hfree (by rw [htype]; decide) (by rw [htype]; decide))
    split
    · exact avoids_ok _
    · exact Exec.orderly_returnFalse
  · split
    · next htype =>
      refine iff_of_true ?_ (hfree (by rw [htype]; decide) (by rw [htype]; decide))
      split
      · exact avoids_ok _
      · exact Exec.orderly_returnFalse
    · split
      · next htype =>
        have hne : op.uchOpeatorType ≠ subTagOp := by rw [htype]; decide
        refine Exec.orderly_bind.trans ?_
        rw [CAppFundOperate.ofOperate_orderly]
        constructor
        · rintro ⟨hnamed, h⟩
          have hadd := h op.fund (CAppFundOperate.ofOperate_eq hnamed)
          exact ⟨fun _ => ⟨hnamed, addAppCFund_orderly.mp hadd⟩, fun h => absurd h hne⟩
        · rintro ⟨h, -⟩
          obtain ⟨hnamed, hzero⟩ := h htype
          refine ⟨hnamed, fun fund hfund => ?_⟩
          rw [CAppFundOperate.ofOperate_eq hnamed] at hfund
          obtain rfl := Except.ok.inj hfund
          exact addAppCFund_orderly.mpr hzero
      · split
        · next hne htype =>
          refine Exec.orderly_bind.trans ?_
          rw [CAppFundOperate.ofOperate_orderly]
          constructor
          · rintro ⟨hnamed, h⟩
            have hminus := h op.fund (CAppFundOperate.ofOperate_eq hnamed)
            exact ⟨fun h => absurd h hne, fun _ => ⟨hnamed, minusAppCFund_orderly.mp hminus⟩⟩
          · rintro ⟨-, h⟩
            obtain ⟨hnamed, hpos⟩ := h htype
            refine ⟨hnamed, fun fund hfund => ?_⟩
            rw [CAppFundOperate.ofOperate_eq hnamed] at hfund
            obtain rfl := Except.ok.inj hfund
            exact minusAppCFund_orderly.mpr hpos
        · next h1 h2 => exact iff_of_true Exec.orderly_returnFalse (hfree h1 h2)

/-- Each operation of a user, on the account as it then stands. -/
theorem operate_orderly {a : CAppUserAccout} {ops : List CAppFundOperate} (hops : ops ≠ []) :
    (a.operate ops).Orderly ↔ StepsSafe operateOne OpSafe a ops := by
  unfold operate
  rw [if_neg hops]
  exact avoids_foldlM operateOne_orderly ops a

/-- An operation that an account refuses: an addition past 64 bits, more to take than there is, or
frozen money to take where there is no such fund, or a type that is none. -/
def Refuses (a : CAppUserAccout) (op : CAppFundOperate) : Prop :=
  (op.uchOpeatorType = addFreeOp ∧ 2 ^ 64 ≤ a.ullValues.toNat + op.getUint64Value.toNat) ∨
  (op.uchOpeatorType = subFreeOp ∧ a.ullValues < op.getUint64Value) ∨
  (op.uchOpeatorType = subTagOp ∧
    ∀ old, a.vcFreezedFund.find? (·.sameSlot op.fund) = some old → old.nllValue < op.getUint64Value) ∨
  op.uchOpeatorType ∉ [addFreeOp, subFreeOp, addTagOp, subTagOp]

/-- One of a list is refused on the account as those before leave it. -/
def RefusesOne : CAppUserAccout → List CAppFundOperate → Prop
  | _, [] => False
  | a, op :: ops => a.Refuses op ∨ ∃ b, a.operateOne op = .ok b ∧ RefusesOne b ops

theorem refuses_addFree {a : CAppUserAccout} {op : CAppFundOperate} (h : op.uchOpeatorType = addFreeOp) :
    a.Refuses op ↔ 2 ^ 64 ≤ a.ullValues.toNat + op.getUint64Value.toNat := by
  simp [Refuses, h, addFreeOp, subFreeOp, subTagOp]

theorem refuses_subFree {a : CAppUserAccout} {op : CAppFundOperate} (h : op.uchOpeatorType = subFreeOp) :
    a.Refuses op ↔ a.ullValues < op.getUint64Value := by
  simp [Refuses, h, addFreeOp, subFreeOp, subTagOp]

theorem refuses_subTag {a : CAppUserAccout} {op : CAppFundOperate} (h : op.uchOpeatorType = subTagOp) :
    a.Refuses op ↔
      ∀ old, a.vcFreezedFund.find? (·.sameSlot op.fund) = some old → old.nllValue < op.getUint64Value := by
  simp [Refuses, h, addFreeOp, subFreeOp, subTagOp]

theorem not_refuses_addTag {a : CAppUserAccout} {op : CAppFundOperate} (h : op.uchOpeatorType = addTagOp) :
    ¬ a.Refuses op := by
  simp [Refuses, h, addFreeOp, subFreeOp, addTagOp, subTagOp]

/-- A safe operation is refused, or done. -/
theorem operateOne_safe {a : CAppUserAccout} {op : CAppFundOperate} (h : a.OpSafe op) :
    (a.Refuses op ∧ a.operateOne op = Exec.returnFalse) ∨ (¬ a.Refuses op ∧ ∃ b, a.operateOne op = .ok b) := by
  unfold operateOne
  split
  · next htype =>
    rw [refuses_addFree htype]
    unfold safeAdd
    by_cases hlt : a.ullValues.toNat + op.getUint64Value.toNat < 2 ^ 64
    · rw [if_pos hlt]
      exact .inr ⟨not_le.mpr hlt, _, rfl⟩
    · rw [if_neg hlt]
      exact .inl ⟨not_lt.mp hlt, rfl⟩
  · split
    · next htype =>
      rw [refuses_subFree htype]
      by_cases hle : op.getUint64Value ≤ a.ullValues
      · rw [if_pos hle]
        exact .inr ⟨UInt64.not_lt.mpr hle, _, rfl⟩
      · rw [if_neg hle]
        exact .inl ⟨UInt64.not_le.mp hle, rfl⟩
    · split
      · next htype =>
        obtain ⟨hnamed, hzero⟩ := h.1 htype
        refine .inr ⟨not_refuses_addTag htype, ?_⟩
        rw [CAppFundOperate.ofOperate_eq hnamed, Except.ok_bind]
        unfold addAppCFund
        cases hfind : a.vcFreezedFund.find? (·.sameSlot op.fund) with
        | none => exact ⟨_, rfl⟩
        | some old =>
          dsimp only
          by_cases h0 : op.fund.nllValue = 0
          · cases hfind.symm.trans (hzero h0)
          · rw [if_neg h0]
            exact ⟨_, rfl⟩
      · split
        · next htype =>
          obtain ⟨hnamed, hpos⟩ := h.2 htype
          rw [refuses_subTag htype, CAppFundOperate.ofOperate_eq hnamed, Except.ok_bind]
          have hheight : ¬ op.fund.nHeight ≤ 0 := not_le.mpr hpos
          unfold minusAppCFund
          rw [if_neg hheight]
          cases hfind : a.vcFreezedFund.find? (·.sameSlot op.fund) with
          | none => exact .inl ⟨nofun, rfl⟩
          | some old =>
            dsimp only
            by_cases hlt : old.nllValue < op.fund.nllValue
            · rw [if_pos hlt]
              refine .inl ⟨?_, rfl⟩
              rintro _ ⟨⟩
              exact hlt
            · rw [if_neg hlt]
              exact .inr ⟨fun hall => hlt (hall old rfl), _, rfl⟩
        · next h1 h2 h3 h4 =>
          refine .inl ⟨.inr (.inr (.inr ?_)), rfl⟩
          simp [h1, h2, h3, h4]

/-- Safe operations are done one after the other, or one of them is refused. -/
theorem operate_safe {a : CAppUserAccout} {ops : List CAppFundOperate}
    (h : StepsSafe operateOne OpSafe a ops) :
    (a.RefusesOne ops ∧ ops.foldlM operateOne a = Exec.returnFalse) ∨
      (¬ a.RefusesOne ops ∧ ∃ b, ops.foldlM operateOne a = .ok b) := by
  induction ops generalizing a with
  | nil => exact .inr ⟨not_false, a, rfl⟩
  | cons op ops ih =>
    obtain ⟨hop, hrest⟩ := h
    rw [List.foldlM_cons]
    rcases operateOne_safe hop with ⟨hrefuses, hfalse⟩ | ⟨hno, b, hb⟩
    · rw [hfalse]
      exact .inl ⟨.inl hrefuses, rfl⟩
    · rw [hb, Except.ok_bind]
      rcases ih (hrest b hb) with ⟨hone, hfalse⟩ | ⟨hnone, hdone⟩
      · exact .inl ⟨.inr ⟨b, hb, hone⟩, hfalse⟩
      · refine .inr ⟨?_, hdone⟩
        rintro (hrefuses | ⟨c, hc, hone⟩)
        · exact hno hrefuses
        · obtain rfl := Except.ok.inj (hb.symm.trans hc)
          exact hnone hone

/-- An operation with an amount, a positive out-height and a tag that fits is safe on every account. -/
theorem opSafe_of_positive (a : CAppUserAccout) {op : CAppFundOperate} (hamount : op.getUint64Value ≠ 0)
    (hheight : 0 < toInt32 op.unOutHeight) (htag : op.uchFundTaglen.toNat ≤ maxTagSize) : a.OpSafe op := by
  have hne : op.unOutHeight ≠ 0 := by
    intro h0
    rw [h0] at hheight
    exact absurd hheight (by decide)
  exact ⟨fun _ => ⟨⟨hne, htag⟩, fun h0 => absurd h0 hamount⟩, fun _ => ⟨⟨hne, htag⟩, hheight⟩⟩

end CAppUserAccout

/-! ## The operations of one user -/

namespace CVmRunEvn

variable {chainActive : PBlockIndex} {des : CRegID} {nHeight : ℤ}

theorem insertOutAPPOperte_ne_nil {vuchUserId : Bytes} {op : CAppFundOperate}
    {m : List (Bytes × List CAppFundOperate)} (hm : ∀ item ∈ m, item.2 ≠ []) :
    ∀ item ∈ insertOutAPPOperte vuchUserId op m, item.2 ≠ [] := by
  induction m with
  | nil => simp [insertOutAPPOperte]
  | cons p m ih =>
    obtain ⟨k, ops⟩ := p
    have hops : ops ≠ [] := hm _ (List.mem_cons_self ..)
    have hrest : ∀ item ∈ m, item.2 ≠ [] := fun item hitem => hm item (List.mem_cons_of_mem _ hitem)
    unfold insertOutAPPOperte
    split
    · simpa using hrest
    · split
      · simpa [hops] using hrest
      · simpa [hops] using ih hrest

/-- Who has an entry asked for something. -/
theorem mapAppOperate_ne_nil (out : AppOutput) : ∀ item ∈ mapAppOperate out, item.2 ≠ [] := by
  have hrun : ∀ (l : AppOutput) (m : List (Bytes × List CAppFundOperate)), (∀ item ∈ m, item.2 ≠ []) →
      ∀ item ∈ l.foldl (fun m p => insertOutAPPOperte p.1 p.2 m) m, item.2 ≠ [] := by
    intro l
    induction l with
    | nil => exact fun m hm => hm
    | cons p l ih => exact fun m hm => ih _ (insertOutAPPOperte_ne_nil hm)
  exact hrun out [] (by simp)

/-- The active chain has the blocks whose times `AutoMergeFreezeToFree` looks up. -/
def ChainReaches (chainActive : PBlockIndex) (unAppHeight : UInt32) (nHeight : ℤ) : Prop :=
  blockTime4AppAccountHeight ≤ unAppHeight.toNat ∧ blockTime4AppAccountHeight ≤ nHeight →
    ∃ tip rest, chainActive = tip :: rest ∧
      (nHeight ≤ tip.nHeight → (chainAt chainActive nHeight).isSome)

/-- A chain from the genesis block on has them. -/
theorem chainReaches_of_length {tip : CBlockIndex} {rest : List CBlockIndex}
    (hlen : ((tip :: rest).length : ℤ) = tip.nHeight + 1) (unAppHeight : UInt32) (nHeight : ℤ) :
    ChainReaches (tip :: rest) unAppHeight nHeight := by
  rintro ⟨-, hheight⟩
  refine ⟨tip, rest, rfl, fun hle => ?_⟩
  unfold blockTime4AppAccountHeight at hheight
  unfold chainAt
  rw [if_neg (by omega), List.getElem?_eq_getElem (by omega)]
  rfl

/-- The record of the user, if there is one, is an account. -/
def RecordReads (s : CScriptDBViewCache) (des : CRegID) (id : Bytes) : Prop :=
  ∀ v, s.getData (CScriptDBViewCache.scriptAccKey des.getVec6 id) = some v → (CAppUserAccout.codec.read v).isSome

/-- The account can be loaded, each operation of the user is safe on it as those before leave it, and if
one is refused they can all be printed. -/
def UserSafe (chainActive : PBlockIndex) (des : CRegID) (nHeight : ℤ) (w : AppWork)
    (item : Bytes × List CAppFundOperate) : Prop :=
  (RecordReads w.scriptDB des item.1 ∧ ChainReaches chainActive des.uHeight nHeight) ∧
    ∀ a b, getAppUserAccout chainActive w.scriptDB des nHeight item.1 = .ok a →
      a.autoMergeFreezeToFree chainActive des.uHeight nHeight = .ok b →
      StepsSafe CAppUserAccout.operateOne CAppUserAccout.OpSafe b item.2 ∧
        (b.RefusesOne item.2 → ∀ op ∈ item.2, op.Prints item.1)

theorem freezeLimit_orderly (unAppHeight : UInt32) :
    (CAppUserAccout.freezeLimit chainActive unAppHeight nHeight).Orderly ↔
      ChainReaches chainActive unAppHeight nHeight := by
  unfold CAppUserAccout.freezeLimit ChainReaches
  by_cases hfork : blockTime4AppAccountHeight ≤ unAppHeight.toNat ∧ blockTime4AppAccountHeight ≤ nHeight
  · rw [if_pos hfork, forall_prop_of_true hfork]
    cases chainActive with
    | nil =>
      refine iff_of_false Exec.not_orderly_throw ?_
      rintro ⟨_, _, ⟨⟩, _⟩
    | cons tip rest =>
      have htip : (∃ t r, tip :: rest = t :: r ∧
          (nHeight ≤ t.nHeight → (chainAt (tip :: rest) nHeight).isSome)) ↔
          (nHeight ≤ tip.nHeight → (chainAt (tip :: rest) nHeight).isSome) := by
        constructor
        · rintro ⟨_, _, ⟨rfl, rfl⟩, h⟩
          exact h
        · exact fun h => ⟨tip, rest, rfl, h⟩
      rw [htip]
      dsimp only
      by_cases hle : nHeight ≤ tip.nHeight
      · rw [if_pos hle, forall_prop_of_true hle]
        cases chainAt (tip :: rest) nHeight with
        | none =>
          refine iff_of_false Exec.not_orderly_throw ?_
          rintro ⟨⟩
        | some index => exact iff_of_true (avoids_ok _) rfl
      · rw [if_neg hle]
        exact iff_of_true (avoids_ok _) fun h => absurd h hle
  · rw [if_neg hfork]
    exact iff_of_true (avoids_ok _) fun h => absurd h hfork

theorem autoMergeFreezeToFree_orderly (a : CAppUserAccout) (unAppHeight : UInt32) :
    (a.autoMergeFreezeToFree chainActive unAppHeight nHeight).Orderly ↔
      ChainReaches chainActive unAppHeight nHeight := by
  refine Exec.orderly_bind.trans ?_
  rw [freezeLimit_orderly]
  refine and_iff_left fun limit _ => ?_
  split
  · exact avoids_ok _
  · exact Exec.orderly_returnFalse

theorem getScriptAcc_orderly (s : CScriptDBViewCache) (id : Bytes) :
    (s.getScriptAcc des id).Orderly ↔ RecordReads s des id := by
  unfold CScriptDBViewCache.getScriptAcc RecordReads
  cases s.getData (CScriptDBViewCache.scriptAccKey des.getVec6 id) with
  | none =>
    refine iff_of_true (avoids_ok _) ?_
    rintro _ ⟨⟩
  | some v =>
    simp only [Option.some.injEq, forall_eq']
    cases CAppUserAccout.codec.read v with
    | none =>
      refine iff_of_false Exec.not_orderly_throw ?_
      rintro ⟨⟩
    | some p => exact iff_of_true (avoids_ok _) rfl

theorem getScriptAcc_ok {s : CScriptDBViewCache} {id : Bytes} (h : RecordReads s des id) :
    ∃ stored, s.getScriptAcc des id = .ok stored := by
  unfold CScriptDBViewCache.getScriptAcc
  cases hdata : s.getData (CScriptDBViewCache.scriptAccKey des.getVec6 id) with
  | none => exact ⟨none, rfl⟩
  | some v =>
    obtain ⟨p, hp⟩ := Option.isSome_iff_exists.mp (h v hdata)
    dsimp only
    rw [hp]
    exact ⟨some p.1, rfl⟩

/-- Loading the account of a user and freeing what has matured. -/
theorem loadUser_orderly (s : CScriptDBViewCache) (id : Bytes) :
    ((getAppUserAccout chainActive s des nHeight id).Orderly ∧
        ∀ a, getAppUserAccout chainActive s des nHeight id = .ok a →
          (a.autoMergeFreezeToFree chainActive des.uHeight nHeight).Orderly) ↔
      RecordReads s des id ∧ ChainReaches chainActive des.uHeight nHeight := by
  unfold getAppUserAccout
  constructor
  · rintro ⟨hget, hmerge⟩
    obtain ⟨hread, hfree⟩ := Exec.orderly_bind.mp hget
    have hrecord := (getScriptAcc_orderly s id).mp hread
    refine ⟨hrecord, ?_⟩
    obtain ⟨stored, hstored⟩ := getScriptAcc_ok hrecord
    cases stored with
    | none =>
      refine (autoMergeFreezeToFree_orderly _ _).mp (hmerge (CAppUserAccout.ofUser id) ?_)
      rw [hstored]
      rfl
    | some a => exact (autoMergeFreezeToFree_orderly a _).mp (hfree _ hstored)
  · rintro ⟨hrecord, hchain⟩
    refine ⟨Exec.orderly_bind.mpr ⟨(getScriptAcc_orderly s id).mpr hrecord, fun stored _ => ?_⟩,
      fun a _ => (autoMergeFreezeToFree_orderly a _).mpr hchain⟩
    cases stored with
    | none => exact avoids_ok _
    | some a => exact (autoMergeFreezeToFree_orderly a _).mpr hchain

/-- The operations of a user on his account, printed if one of them is refused. -/
theorem operateOrPrint_orderly {a : CAppUserAccout} {item : Bytes × List CAppFundOperate} (hops : item.2 ≠ []) :
    (operateOrPrint a item).Orderly ↔ StepsSafe CAppUserAccout.operateOne CAppUserAccout.OpSafe a item.2 ∧
      (a.RefusesOne item.2 → ∀ op ∈ item.2, op.Prints item.1) := by
  have horderly := CAppUserAccout.operate_orderly (a := a) hops
  have hoperate : a.operate item.2 = item.2.foldlM CAppUserAccout.operateOne a := if_neg hops
  by_cases hsafe : StepsSafe CAppUserAccout.operateOne CAppUserAccout.OpSafe a item.2
  · rw [and_iff_right hsafe]
    unfold operateOrPrint
    rw [hoperate]
    rcases CAppUserAccout.operate_safe hsafe with ⟨hrefuses, hfalse⟩ | ⟨hno, b, hb⟩
    · rw [hfalse, forall_prop_of_true hrefuses]
      refine Exec.orderly_bind.trans ((and_iff_left fun _ _ => Exec.orderly_returnFalse).trans ?_)
      refine (Except.avoids_forM fun op _ h => ?_).trans ?_
      · exact CAppFundOperate.toJSON_eq (CAppFundOperate.toJSON_orderly.mp h)
      · exact forall_congr' fun op => imp_congr_right fun _ => CAppFundOperate.toJSON_orderly
    · rw [hb]
      exact iff_of_true (avoids_ok _) fun h => absurd h hno
  · refine iff_of_false (fun h => hsafe (horderly.mp ?_)) fun h => hsafe h.1
    unfold operateOrPrint at h
    split at h
    · next calls hfail =>
      rw [hfail]
      exact avoids_error.mpr not_false
    · exact h

theorem opeatorAppAccountOne_orderly (w : AppWork) {item : Bytes × List CAppFundOperate}
    (hops : item.2 ≠ []) :
    (opeatorAppAccountOne chainActive des nHeight w item).Orderly ↔
      UserSafe chainActive des nHeight w item := by
  unfold opeatorAppAccountOne UserSafe
  rw [← loadUser_orderly]
  constructor
  · intro h
    obtain ⟨hget, hload⟩ := Exec.orderly_bind.mp h
    refine ⟨⟨hget, fun a ha => (Exec.orderly_bind.mp (hload a ha)).1⟩, fun a b ha hb => ?_⟩
    have hmerge := (Exec.orderly_bind.mp (hload a ha)).2 b hb
    exact (operateOrPrint_orderly hops).mp (Exec.orderly_bind.mp hmerge).1
  · rintro ⟨⟨hget, hmerge⟩, h⟩
    refine Exec.orderly_bind.mpr ⟨hget, fun a ha => ?_⟩
    refine Exec.orderly_bind.mpr ⟨hmerge a ha, fun b hb => ?_⟩
    refine Exec.orderly_bind.mpr ⟨(operateOrPrint_orderly hops).mpr (h a b ha hb), ?_⟩
    exact fun _ _ => avoids_ok _

theorem opeatorAppAccount_orderly (s : CScriptDBViewCache) (out : AppOutput) :
    (opeatorAppAccount chainActive des nHeight s (mapAppOperate out)).Orderly ↔
      StepsSafe (opeatorAppAccountOne chainActive des nHeight) (UserSafe chainActive des nHeight)
        ⟨s, [], []⟩ (mapAppOperate out) :=
  Except.avoids_foldlM_of_mem _
    (fun w item hitem => opeatorAppAccountOne_orderly w (mapAppOperate_ne_nil out item hitem)) _

end CVmRunEvn

/-! ## The records of one call -/

/-- The record names a user by 1 to 40 bytes. -/
def AppFundRecord.Identified (r : AppFundRecord) : Prop :=
  r.uchAppuserIDlen.toNat ≤ maxTagSize ∧ 0 < r.uchAppuserIDlen.toNat

instance AppFundRecord.instDecidableIdentified (r : AppFundRecord) : Decidable r.Identified := by
  unfold Identified
  infer_instance

/-- Every record up to the first refused one names a user. -/
def NamesUsers (nHeight : ℤ) : List AppFundRecord → Prop
  | [] => True
  | r :: rest => r.refused nHeight = true ∨ (r.Identified ∧ NamesUsers nHeight rest)

theorem insertRecord_eq (out : AppOutput) {r : AppFundRecord} (h : r.Identified) :
    insertRecord out r =
      .ok (out ++ [(r.arruchAppuser.take r.uchAppuserIDlen.toNat, r.toCAppFundOperate)]) := by
  unfold insertRecord
  have hid : r.getAppUserV = .ok (r.arruchAppuser.take r.uchAppuserIDlen.toNat) := if_pos h
  rw [hid]
  rfl

theorem insertRecord_orderly (out : AppOutput) (r : AppFundRecord) :
    (insertRecord out r).Orderly ↔ r.Identified := by
  by_cases h : r.Identified
  · rw [insertRecord_eq out h]
    exact iff_of_true (avoids_ok _) h
  · refine iff_of_false (fun hx => ?_) h
    have hassert := (Exec.orderly_bind.mp hx).1
    have hid : r.getAppUserV = Exec.throw
        "assert(sizeof(m_arruchAppuser) >= m_uchAppuserIDlen && m_uchAppuserIDlen > 0)" := if_neg h
    rw [hid] at hassert
    exact Exec.not_orderly_throw hassert

theorem writeOutAppOperate_orderly (nHeight : ℤ) (records : List AppFundRecord) (out : AppOutput) :
    (writeOutAppOperate nHeight records out).Orderly ↔ NamesUsers nHeight records := by
  induction records generalizing out with
  | nil => exact iff_of_true (avoids_ok _) trivial
  | cons r rest ih =>
    unfold writeOutAppOperate NamesUsers
    by_cases href : r.refused nHeight = true
    · rw [if_pos href]
      exact iff_of_true (avoids_ok _) (.inl href)
    · rw [if_neg href, or_iff_right href]
      refine Exec.orderly_bind.trans ?_
      rw [insertRecord_orderly]
      constructor
      · rintro ⟨hid, hrest⟩
        exact ⟨hid, (ih _).mp (hrest _ (insertRecord_eq out hid))⟩
      · rintro ⟨hid, hrest⟩
        exact ⟨hid, fun out' _ => (ih out').mpr hrest⟩

/-- What the length byte of the record is when the table of a Lua contract gives one. -/
theorem getDataTableOutAppOperate_identified {t : LuaTable} {r : AppFundRecord}
    (h : t.getDataTableOutAppOperate = some r) : r.Identified := by
  unfold LuaTable.getDataTableOutAppOperate at h
  simp only [Option.bind_eq_bind, Option.bind_eq_some_iff] at h
  obtain ⟨_, -, _, -, _, -, _, -, userIdLen, -, h⟩ := h
  split at h
  · cases h
  · next hlen =>
    simp only [Option.bind_eq_some_iff, Option.pure_def, Option.some.injEq] at h
    obtain ⟨_, -, _, -, _, -, rfl⟩ := h
    unfold AppFundRecord.Identified
    dsimp only
    omega

theorem exWriteOutAppOperateLua_orderly (nHeight : ℤ) (t : LuaTable) (out : AppOutput) :
    (exWriteOutAppOperateLua nHeight t out).Orderly := by
  unfold exWriteOutAppOperateLua
  split
  · exact avoids_ok _
  · next r hr =>
    split
    · exact avoids_ok _
    · exact (insertRecord_orderly out r).mpr (getDataTableOutAppOperate_identified hr)

theorem getDataTableAssetOperate_length {t : LuaTable} {recv : Bytes} {asset : CAssetOperate}
    (h : t.getDataTableAssetOperate = some (recv, asset)) : recv.length = 34 := by
  unfold LuaTable.getDataTableAssetOperate at h
  simp only [Option.bind_eq_bind, Option.bind_eq_some_iff] at h
  obtain ⟨toAddr, haddr, _, -, _, -, _, -, _, -, _, -, h⟩ := h
  simp only [Option.pure_def, Option.some.injEq, Prod.mk.injEq] at h
  obtain ⟨rfl, -⟩ := h
  unfold LuaTable.getArrayInTable at haddr
  rw [if_neg (by omega)] at haddr
  exact t.array_length _ _ _ haddr

section
variable (node : Node) (view : CAccountViewCache) (des src : CRegID) (nHeight : ℤ)

/-- The sender's address fits the array of a record. -/
def AddressFits : Prop := (sendAddress node view src).length ≤ maxTagSize

/-- With a version of one byte, as every network has, it always does. -/
theorem addressFits (hversion : node.cfg.pubkeyAddressPrefix.length = 1) :
    AddressFits node view src := by
  unfold AddressFits sendAddress CKeyID.toAddress
  split
  · exact Nat.zero_le _
  · refine (encodeBase58_length _).trans ?_
    simp only [List.length_append, List.length_take, hversion, length_uint160Codec_write,
      length_uint256Codec_write]
    unfold maxTagSize
    omega

theorem transferPair_orderly {minusOp addOp : UInt8} {op : CAppFundOperate} {recv : Bytes}
    (out : AppOutput) (hrecv : recv.length = 34) :
    (transferPair node view src minusOp addOp op recv out).Orderly ↔ AddressFits node view src := by
  unfold transferPair AddressFits
  dsimp only
  by_cases h : maxTagSize < (sendAddress node view src).length ∨ maxTagSize < recv.length
  · rw [if_pos h]
    refine iff_of_false Exec.not_orderly_throw ?_
    unfold maxTagSize at *
    omega
  · rw [if_neg h]
    exact iff_of_true (avoids_ok _) (by omega)

/-- The active chain has the blocks `ExTransferContactAsset` looks up at its tip. -/
def TipReaches : Prop :=
  ∃ tip rest, node.chainActive = tip :: rest ∧
    CVmRunEvn.ChainReaches node.chainActive des.uHeight tip.nHeight

/-! ## The calls -/

/-- What each call asks of its arguments.  A table of `ExWriteOutAppOperateFunc` is always right. -/
def AppCall.Safe : AppCall → Prop
  | .write8051 retdata => ∀ data records rest, retdata = [data] → data.length % AppFundRecord.size = 0 →
      AppFundRecord.unserializeAll (data.length / AppFundRecord.size) data = some (records, rest) →
      NamesUsers nHeight records
  | .writeLua _ => True
  | .transferSomeAsset t => ∀ recv asset, t.getDataTableAssetOperate = some (recv, asset) →
      receiverValid node view src recv → asset.ullMoney ≠ 0 → 0 ≤ asset.getheight →
      asset.uchFundTaglen.toNat ≤ maxTagSize ∧ AddressFits node view src
  | .transferContactAsset recv stored => ∀ a, recv.length = 34 → receiverValid node view src recv →
      stored = some a → TipReaches node des ∧ ∀ b, autoMerged node des a = .ok b →
        (0 < b.ullValues → AddressFits node view src) ∧
        ∀ fund ∈ b.vcFreezedFund, fund.vTag.length % 256 ≤ maxTagSize ∧ AddressFits node view src

theorem exWriteOutAppOperate8051_orderly (retdata : List Bytes) (out : AppOutput) :
    (exWriteOutAppOperate8051 nHeight retdata out).Orderly ↔
      AppCall.Safe node view des src nHeight (.write8051 retdata) := by
  unfold exWriteOutAppOperate8051 AppCall.Safe
  split
  · next data =>
    by_cases hlen : data.length % AppFundRecord.size ≠ 0
    · rw [if_pos hlen]
      refine iff_of_true (avoids_ok _) ?_
      rintro _ _ _ ⟨rfl⟩ h
      exact absurd h hlen
    · rw [if_neg hlen]
      refine Exec.orderly_bind.trans ?_
      -- the parameter is long enough for its records
      obtain ⟨records, hread⟩ := AppFundRecord.takes_unserializeAll
        (data.length / AppFundRecord.size) data (Nat.div_mul_le_self _ _)
      rw [hread]
      constructor
      · rintro ⟨-, h⟩ _ _ _ ⟨rfl⟩ _ h'
        obtain ⟨rfl, rfl⟩ := Prod.mk.inj (Option.some.inj (hread.symm.trans h'))
        exact (writeOutAppOperate_orderly nHeight records out).mp (h (records, _) rfl)
      · intro h
        refine ⟨avoids_ok _, ?_⟩
        rintro _ ⟨⟩
        exact (writeOutAppOperate_orderly nHeight records out).mpr
          (h data records _ rfl (not_not.mp hlen) hread)
  · next hno =>
    refine iff_of_true (avoids_ok _) ?_
    rintro data _ _ rfl
    exact absurd rfl (hno data)

theorem exTransferSomeAsset_orderly (t : LuaTable) (out : AppOutput) :
    (exTransferSomeAsset node view src t out).Orderly ↔
      AppCall.Safe node view des src nHeight (.transferSomeAsset t) := by
  unfold exTransferSomeAsset AppCall.Safe
  cases htable : t.getDataTableAssetOperate with
  | none =>
    refine iff_of_true (avoids_ok _) ?_
    rintro _ _ h
    cases htable.symm.trans h
  | some p =>
    obtain ⟨recv, asset⟩ := p
    have hrecv := getDataTableAssetOperate_length htable
    dsimp only
    by_cases hskip : ¬ receiverValid node view src recv ∨ asset.ullMoney = 0 ∨ asset.getheight < 0
    · rw [if_pos hskip]
      refine iff_of_true (avoids_ok _) ?_
      intro _ _ h hvalid hmoney hheight
      obtain ⟨rfl, rfl⟩ := Prod.mk.inj (Option.some.inj (htable.symm.trans h))
      rcases hskip with h | h | h
      · exact absurd hvalid h
      · exact absurd h hmoney
      · omega
    · rw [if_neg hskip]
      obtain ⟨hvalid, hmoney, hheight⟩ : receiverValid node view src recv ∧ asset.ullMoney ≠ 0 ∧
          0 ≤ asset.getheight := by
        obtain ⟨hvalid, hrest⟩ := not_or.mp hskip
        obtain ⟨hmoney, hheight⟩ := not_or.mp hrest
        exact ⟨not_not.mp hvalid, hmoney, by omega⟩
      refine Iff.trans (b := asset.uchFundTaglen.toNat ≤ maxTagSize ∧ AddressFits node view src) ?_ ?_
      · refine Exec.orderly_bind.trans ?_
        by_cases htag : asset.uchFundTaglen.toNat ≤ maxTagSize
        · have hget : asset.getFundTagV = .ok (asset.vuchFundTag.take asset.uchFundTaglen.toNat) :=
            if_pos htag
          rw [hget, and_iff_right htag, and_iff_right (avoids_ok _)]
          simp only [Except.ok.injEq, forall_eq']
          split
          · exact transferPair_orderly node view src out hrecv
          · exact transferPair_orderly node view src out hrecv
        · have hget : asset.getFundTagV = Exec.throw "assert(sizeof(m_vuchFundTag) >= m_uchFundTaglen)" :=
            if_neg htag
          rw [hget]
          exact iff_of_false (fun h => Exec.not_orderly_throw h.1) fun h => htag h.1
      · constructor
        · intro h _ _ h' _ _ _
          obtain ⟨rfl, rfl⟩ := Prod.mk.inj (Option.some.inj (htable.symm.trans h'))
          exact h
        · exact fun h => h recv asset htable hvalid hmoney hheight

theorem autoMerged_orderly (a : CAppUserAccout) :
    (autoMerged node des a).Orderly ↔ TipReaches node des := by
  unfold autoMerged TipReaches
  cases node.chainActive with
  | nil =>
    refine iff_of_false Exec.not_orderly_throw ?_
    rintro ⟨_, _, ⟨⟩, _⟩
  | cons tip rest =>
    refine Exec.orderly_bind.trans ?_
    rw [CVmRunEvn.freezeLimit_orderly]
    constructor
    · rintro ⟨h, -⟩
      exact ⟨tip, rest, rfl, h⟩
    · rintro ⟨_, _, ⟨rfl, rfl⟩, h⟩
      refine ⟨h, fun limit _ => ?_⟩
      split
      · exact avoids_ok _
      · exact avoids_ok _

theorem transferFree_orderly {recv : Bytes} (hrecv : recv.length = 34) (ullMoney : UInt64)
    (out : AppOutput) :
    (transferFree node view src recv ullMoney out).Orderly ↔
      (0 < ullMoney → AddressFits node view src) := by
  unfold transferFree
  by_cases h : 0 < ullMoney
  · rw [if_pos h, forall_prop_of_true h]
    exact transferPair_orderly node view src out hrecv
  · rw [if_neg h]
    exact iff_of_true (avoids_ok _) fun h' => absurd h' h

theorem transferFund_orderly {recv : Bytes} (hrecv : recv.length = 34) (out : AppOutput)
    (fund : CAppCFund) :
    (transferFund node view src recv out fund).Orderly ↔
      fund.vTag.length % 256 ≤ maxTagSize ∧ AddressFits node view src := by
  have hbyte : (UInt8.ofNat fund.vTag.length).toNat = fund.vTag.length % 256 := by simp
  unfold transferFund
  dsimp only
  rw [hbyte]
  by_cases h : maxTagSize < fund.vTag.length % 256
  · rw [if_pos h]
    exact iff_of_false Exec.not_orderly_throw (by omega)
  · rw [if_neg h, and_iff_right (by omega)]
    exact transferPair_orderly node view src out hrecv

theorem transferFund_ok {recv : Bytes} (hrecv : recv.length = 34) (out : AppOutput) {fund : CAppCFund}
    (hfund : fund.vTag.length % 256 ≤ maxTagSize ∧ AddressFits node view src) :
    ∃ out', transferFund node view src recv out fund = .ok out' := by
  have hbyte : (UInt8.ofNat fund.vTag.length).toNat = fund.vTag.length % 256 := by simp
  have hsend : (sendAddress node view src).length ≤ maxTagSize := hfund.2
  have htag := hfund.1
  unfold transferFund transferPair
  dsimp only
  rw [hbyte, if_neg (by omega), if_neg (by unfold maxTagSize at *; omega)]
  exact ⟨_, rfl⟩

/-- Handing on frozen funds ends in no other way than the asserted one. -/
theorem transferFunds_orderly {recv : Bytes} (hrecv : recv.length = 34) (funds : List CAppCFund)
    (out : AppOutput) :
    (funds.foldlM (transferFund node view src recv) out).Orderly ↔
      ∀ fund ∈ funds, fund.vTag.length % 256 ≤ maxTagSize ∧ AddressFits node view src := by
  induction funds generalizing out with
  | nil => exact iff_of_true (avoids_ok _) (by simp)
  | cons fund funds ih =>
    rw [List.foldlM_cons, List.forall_mem_cons]
    refine Exec.orderly_bind.trans ?_
    rw [transferFund_orderly node view src hrecv]
    refine and_congr_right fun hfund => ?_
    constructor
    · intro h
      obtain ⟨out', hout'⟩ := transferFund_ok node view src hrecv out hfund
      exact (ih out').mp (h out' hout')
    · exact fun h out' _ => (ih out').mpr h

theorem transferFree_ok {recv : Bytes} (hrecv : recv.length = 34) {ullMoney : UInt64} (out : AppOutput)
    (hfits : 0 < ullMoney → AddressFits node view src) :
    ∃ out', transferFree node view src recv ullMoney out = .ok out' := by
  unfold transferFree
  by_cases h : 0 < ullMoney
  · have hsend : (sendAddress node view src).length ≤ maxTagSize := hfits h
    unfold transferPair
    dsimp only
    rw [if_pos h, if_neg (by unfold maxTagSize at *; omega)]
    exact ⟨_, rfl⟩
  · rw [if_neg h]
    exact ⟨_, rfl⟩

theorem exTransferContactAsset_orderly (recv : Bytes) (stored : Option CAppUserAccout)
    (out : AppOutput) :
    (exTransferContactAsset node view des src recv stored out).Orderly ↔
      AppCall.Safe node view des src nHeight (.transferContactAsset recv stored) := by
  unfold exTransferContactAsset AppCall.Safe
  by_cases hskip : recv.length ≠ 34 ∨ ¬ receiverValid node view src recv
  · rw [if_pos hskip]
    refine iff_of_true (avoids_ok _) fun _ hrecv hvalid _ => ?_
    rcases hskip with h | h
    · exact absurd hrecv h
    · exact absurd hvalid h
  · rw [if_neg hskip]
    obtain ⟨hrecv, hvalid⟩ := not_or.mp hskip
    rw [not_not] at hrecv hvalid
    cases stored with
    | none =>
      refine iff_of_true (avoids_ok _) ?_
      rintro _ _ _ ⟨⟩
    | some a =>
      refine Exec.orderly_bind.trans ?_
      rw [autoMerged_orderly]
      constructor
      · rintro ⟨htip, h⟩ _ _ _ ⟨rfl⟩
        refine ⟨htip, fun b hb => ?_⟩
        obtain ⟨hfree, hfunds⟩ := Exec.orderly_bind.mp (h b hb)
        have hfits := (transferFree_orderly node view src hrecv b.ullValues out).mp hfree
        obtain ⟨out', hout'⟩ := transferFree_ok node view src hrecv out hfits
        exact ⟨hfits, (transferFunds_orderly node view src hrecv _ out').mp (hfunds out' hout')⟩
      · intro h
        obtain ⟨htip, hall⟩ := h a hrecv hvalid rfl
        refine ⟨htip, fun b hb => Exec.orderly_bind.mpr ?_⟩
        obtain ⟨hfits, hfunds⟩ := hall b hb
        exact ⟨(transferFree_orderly node view src hrecv b.ullValues out).mpr hfits,
          fun out' _ => (transferFunds_orderly node view src hrecv _ out').mpr hfunds⟩

theorem appCall_orderly (out : AppOutput) (call : AppCall) :
    (appCall node view des src nHeight out call).Orderly ↔ call.Safe node view des src nHeight := by
  cases call with
  | write8051 retdata => exact exWriteOutAppOperate8051_orderly node view des src nHeight retdata out
  | writeLua t => exact iff_of_true (exWriteOutAppOperateLua_orderly nHeight t out) trivial
  | transferSomeAsset t => exact exTransferSomeAsset_orderly node view des src nHeight t out
  | transferContactAsset recv stored =>
    exact exTransferContactAsset_orderly node view des src nHeight recv stored out

/-- The whole succeeds or returns false exactly when each call that is reached gives what it must, and
each operation on an account too. -/
theorem appOperate_orderly_iff (s : CScriptDBViewCache) (calls : List AppCall) :
    (appOperate node view des src nHeight s calls).Orderly ↔
      StepsSafe (appCall node view des src nHeight)
          (fun _ call => call.Safe node view des src nHeight) [] calls ∧
        ∀ out, calls.foldlM (appCall node view des src nHeight) [] = .ok out →
          StepsSafe (CVmRunEvn.opeatorAppAccountOne node.chainActive des nHeight)
            (CVmRunEvn.UserSafe node.chainActive des nHeight) ⟨s, [], []⟩
            (CVmRunEvn.mapAppOperate out) := by
  unfold appOperate
  refine Exec.orderly_bind.trans ?_
  refine and_congr (avoids_foldlM (appCall_orderly node view des src nHeight) calls []) ?_
  exact forall_congr' fun out => imp_congr_right fun _ => CVmRunEvn.opeatorAppAccount_orderly s out

end

/-! ## Contracts that throw -/

namespace Sample

/-- A table for one user, with every entry of its arrays 1. -/
def userTable (operatorType outHeight fundTagLen : ℤ) : LuaTable where
  number key :=
    if key = "operatorType" then some operatorType
    else if key = "outHeight" then some outHeight
    else if key = "fundTagLen" then some fundTagLen
    else some 1
  array _ n := some (List.replicate n 1)
  array_length _ n vch h := by
    obtain rfl := Option.some.inj h
    exact List.length_replicate

/-- The calls of a contract that has no record yet, on an empty account view. -/
def operated (calls : List AppCall) : Exec CVmRunEvn.AppWork :=
  appOperate node (viewOf [] [] 0) ⟨50, 1⟩ ⟨50, 2⟩ 100 (scriptsOf []) calls

set_option maxRecDepth 4000 in
/-- A record of zeroes names no user, a table may ask to freeze until height 0, and it may give a tag
longer than the array; where more is taken than there is, the tag of a free amount is looked at too, and
so is a type that has no name. -/
theorem records_throw :
    operated [.write8051 [List.replicate 95 0]] =
      Exec.throw "assert(sizeof(m_arruchAppuser) >= m_uchAppuserIDlen && m_uchAppuserIDlen > 0)" ∧
    operated [.writeLua (userTable 3 0 1)] = Exec.throw "assert(cOp.m_unOutHeight > 0)" ∧
    operated [.writeLua (userTable 3 7 41)] =
      Exec.throw "assert(sizeof(m_arruchFundTag) >= m_uchFundTaglen)" ∧
    operated [.writeLua (userTable 2 0 41)] =
      Exec.throw "assert(sizeof(m_arruchFundTag) >= m_uchFundTaglen)" ∧
    operated [.writeLua (userTable 9 0 1)] = Exec.throw "strTep[m_uchOpeatorType] past the array" ∧
    ¬ ∀ calls : List AppCall, (operated calls).Orderly := by
  have hzero : operated [.write8051 [List.replicate 95 0]] =
      Exec.throw "assert(sizeof(m_arruchAppuser) >= m_uchAppuserIDlen && m_uchAppuserIDlen > 0)" := by
    rfl
  refine ⟨hzero, rfl, rfl, rfl, rfl, fun hall => ?_⟩
  have h := hall [.write8051 [List.replicate 95 0]]
  rw [hzero] at h
  exact Exec.not_orderly_throw h

end Sample

end Dacrs
