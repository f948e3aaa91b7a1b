import Dacrs.CheckedTx

/-!
# Transactions on the wire

The polymorphic reader of `shared_ptr<CBaseTransaction>`, and what a transaction's bytes say.  The
format has no sign and no invalid key: `WriteVarInt` stops at the first seven bits of a negative
number, and a `CID` of an invalid public key is as empty as that of no id.  `written` is what is left
of a transaction; two transactions have the same bytes when this is the same.
-/

open Codec (Bytes Reader)

namespace Dacrs

/-! ## Fields -/

/-- A `VARINT` of an `int64_t` field. -/
def varInt64 : Codec Int64 where
  write n := writeVarInt n.toInt
  read := Int64.ofNat <$> (Codec.varNat 64).read
  Fits n := 0 ≤ n.toInt
  read_write n rest h := by
    have hlt := n.toInt_lt
    have hr := (Codec.varNat 64).read_write n.toInt.toNat rest (by show n.toInt.toNat < 2 ^ 64; omega)
    have hw : writeVarInt n.toInt = (Codec.varNat 64).write n.toInt.toNat := by
      rw [writeVarInt, if_neg (by omega)]
      rfl
    have hn : Int64.ofNat n.toInt.toNat = n := by
      rw [← Int64.ofInt_eq_ofNat, Int.toNat_of_nonneg h, Int64.ofInt_toInt]
    rw [hw]
    show StateT.map Int64.ofNat (Codec.varNat 64).read _ = _
    simp only [StateT.map, hr, Option.bind_eq_bind, Option.bind_some, hn]
    rfl

/-- The number the bytes of an `int` stand for. -/
def writtenInt (n : ℤ) : ℤ := if n < 0 then n % 128 else n

theorem writtenInt_nonneg (n : ℤ) : 0 ≤ writtenInt n := by
  unfold writtenInt
  split <;> omega

theorem writeVarInt_writtenInt (n : ℤ) : writeVarInt n = writeVarInt (writtenInt n) := by
  by_cases hn : n < 0
  · have hw : writtenInt n = n % 128 := if_pos hn
    rw [hw, writeVarInt, if_pos hn, writeVarInt, if_neg (by omega), Codec.writeVarNat, Codec.varNatGo,
      if_pos (by omega), if_pos rfl]
    congr 2
    omega
  · rw [writtenInt, if_neg hn]

/-- A number takes at least a byte, and seven bits a byte suffice. -/
theorem length_varNatGo (n k : ℕ) (tail : Bytes) (hn : n < 128 ^ (k + 1)) :
    tail.length < (Codec.varNatGo n tail).length ∧ (Codec.varNatGo n tail).length ≤ tail.length + (k + 1) := by
  induction k generalizing n tail with
  | zero =>
    rw [Codec.varNatGo, if_pos (by omega)]
    simp
  | succ k ih =>
    rw [Codec.varNatGo]
    split
    · simp
    · have hdiv : n / 128 - 1 < 128 ^ (k + 1) := by
        have h := Nat.div_lt_of_lt_mul (show n < 128 * 128 ^ (k + 1) by rwa [← pow_succ'])
        omega
      have h := ih (n / 128 - 1) (UInt8.ofNat (if tail = [] then n % 128 else n % 128 + 128) :: tail) hdiv
      rw [List.length_cons] at h
      omega

theorem CRegID.length_write (r : CRegID) :
    1 < (CRegID.codec.write r).length ∧ (CRegID.codec.write r).length ≤ 10 := by
  have hheight := length_varNatGo r.uHeight.toNat 4 [] (lt_trans r.uHeight.toNat_lt (by norm_num))
  have hindex := length_varNatGo r.ushIndex.toNat 2 [] (lt_trans r.ushIndex.toNat_lt (by norm_num))
  have hlen : (CRegID.codec.write r).length =
      (Codec.varNatGo r.uHeight.toNat []).length + (Codec.varNatGo r.ushIndex.toNat []).length :=
    List.length_append
  rw [List.length_nil] at hheight hindex
  omega

namespace CUserID

/-- The invalid key, which leaves no bytes. -/
def invalidKey : CUserID := .pubKey CPubKey.invalid

/-- The id the bytes stand for. -/
def written (id : CUserID) : CUserID := if id = invalidKey then .null else id

theorem written_ne_invalidKey (id : CUserID) : id.written ≠ invalidKey := by
  unfold written
  split
  · exact nofun
  · next h => exact h

theorem toVector_written (id : CUserID) : id.written.toVector = id.toVector := by
  unfold written
  split
  · next h =>
    rw [h]
    rfl
  · rfl

theorem length_toVector (id : CUserID) : id.toVector.length ≤ 33 := by
  cases id with
  | null => exact Nat.zero_le _
  | regID r => exact le_trans r.length_write.2 (by omega)
  | keyID k =>
    have h : (CUserID.keyID k).toVector.length = 20 := length_uint160Codec_write k
    omega
  | pubKey p =>
    rcases p.wf with h | ⟨h, -⟩
    · show p.vch.length ≤ 33
      simp [h]
    · exact le_of_eq h

/-- `GetUserId` after `Set`: the length tells the alternatives apart. -/
theorem ofVector_toVector {id : CUserID} (h : id ≠ invalidKey) : ofVector id.toVector = some id := by
  cases id with
  | null => rfl
  | regID r =>
    have hread := CRegID.codec.read_write_nil r trivial
    show ofVector (CRegID.codec.write r) = _
    rw [ofVector, if_pos r.length_write, hread]
    rfl
  | keyID k =>
    have hlen := length_uint160Codec_write k
    have hread := uint160Codec.read_write_nil k trivial
    show ofVector (uint160Codec.write k) = _
    rw [ofVector, hlen, if_neg (by omega), if_neg (by omega), if_pos rfl, hread]
    rfl
  | pubKey p =>
    rcases p.wf with hnil | ⟨hlen, hhead⟩
    · refine absurd ?_ h
      cases p
      cases hnil
      rfl
    · show ofVector p.vch = _
      rw [ofVector, hlen, if_neg (by omega), if_pos rfl, CPubKey.ofBytes, dif_pos ⟨hlen, hhead⟩]

end CUserID

/-- A user id as a `CID`. -/
def cidCodec : Codec CUserID where
  write := writeCID
  read := do
    let m_vchData ← vchCodec.read
    StateT.lift (CUserID.ofVector m_vchData)
  Fits id := id ≠ CUserID.invalidKey
  read_write id rest h := by
    have hlen := lt_of_le_of_lt id.length_toVector (show 33 < maxSize by decide)
    rw [writeCID, vchCodec.read_bind _ _ _ (vchCodec_fits (le_of_lt hlen)), CUserID.ofVector_toVector h]
    rfl

/-! ## The reader -/

def CRegisterAccountTx.unserialize : Reader CRegisterAccountTx := do
  let nVersion ← varInt32.read
  let nValidHeight ← varInt32.read
  let cUserId ← cidCodec.read
  let cMinerId ← cidCodec.read
  let llFees ← varInt64.read
  let vchSignature ← vchCodec.read
  return ⟨nVersion, nValidHeight, cUserId, cMinerId, llFees, vchSignature⟩

def CTransaction.unserialize (chTxType : CTransactionType) : Reader CTransaction := do
  let nVersion ← varInt32.read
  let nValidHeight ← varInt32.read
  let cSrcRegId ← cidCodec.read
  let cDesUserId ← cidCodec.read
  let ullFees ← varUInt64.read
  let ullValues ← varUInt64.read
  let vchContract ← vchCodec.read
  let vchSignature ← vchCodec.read
  return ⟨chTxType, nVersion, nValidHeight, cSrcRegId, cDesUserId, ullFees, ullValues, vchContract, vchSignature⟩

def CRewardTransaction.unserialize : Reader CRewardTransaction := do
  let nVersion ← varInt32.read
  let cAccount ← cidCodec.read
  let ullRewardValue ← varUInt64.read
  let nHeight ← varInt32.read
  return ⟨nVersion, cAccount, ullRewardValue, nHeight⟩

def CRegisterAppTx.unserialize : Reader CRegisterAppTx := do
  let nVersion ← varInt32.read
  let nValidHeight ← varInt32.read
  let cRegAcctId ← cidCodec.read
  let vchScript ← vchCodec.read
  let ullFees ← varUInt64.read
  let vchSignature ← vchCodec.read
  return ⟨nVersion, nValidHeight, cRegAcctId, vchScript, ullFees, vchSignature⟩

/-- `Unserialize` of a shared pointer: the class is chosen by the leading byte. -/
def CBaseTransaction.unserializePtr : Reader CBaseTransaction := do
  let nTxType ← Codec.u8.read
  if nTxType = EmTxType.regAcct.tag then registerAccount <$> CRegisterAccountTx.unserialize
  else if nTxType = EmTxType.common.tag then transaction <$> CTransaction.unserialize .common
  else if nTxType = EmTxType.contract.tag then transaction <$> CTransaction.unserialize .contract
  else if nTxType = EmTxType.reward.tag then reward <$> CRewardTransaction.unserialize
  else if nTxType = EmTxType.regApp.tag then registerApp <$> CRegisterAppTx.unserialize
  else failure

/-! ## Round trips -/

theorem read_map {α β : Type} {r : Reader α} {s rest : Bytes} {a : α} (f : α → β)
    (h : r s = some (a, rest)) : (f <$> r) s = some (f a, rest) := by
  show StateT.map f r s = _
  simp [StateT.map, h]

theorem CRegisterAccountTx.unserialize_serialize (tx : CRegisterAccountTx) (rest : Bytes)
    (hversion : varInt32.Fits tx.nVersion) (hheight : varInt32.Fits tx.nValidHeight)
    (huser : cidCodec.Fits tx.cUserId) (hminer : cidCodec.Fits tx.cMinerId)
    (hfees : varInt64.Fits tx.llFees) (hsig : vchCodec.Fits tx.vchSignature) :
    unserialize (tx.serialize ++ rest) = some (tx, rest) := by
  simp only [serialize, List.append_assoc]
  unfold unserialize
  rw [show writeVarInt tx.nVersion = varInt32.write tx.nVersion from rfl, varInt32.read_bind _ _ _ hversion,
    show writeVarInt tx.nValidHeight = varInt32.write tx.nValidHeight from rfl,
    varInt32.read_bind _ _ _ hheight, show writeCID tx.cUserId = cidCodec.write tx.cUserId from rfl,
    cidCodec.read_bind _ _ _ huser, show writeCID tx.cMinerId = cidCodec.write tx.cMinerId from rfl,
    cidCodec.read_bind _ _ _ hminer, show writeVarInt tx.llFees.toInt = varInt64.write tx.llFees from rfl,
    varInt64.read_bind _ _ _ hfees, vchCodec.read_bind _ _ _ hsig]
  rfl

theorem CTransaction.unserialize_serialize (tx : CTransaction) (rest : Bytes)
    (hversion : varInt32.Fits tx.nVersion) (hheight : varInt32.Fits tx.nValidHeight)
    (hsrc : cidCodec.Fits tx.cSrcRegId) (hdes : cidCodec.Fits tx.cDesUserId)
    (hcontract : vchCodec.Fits tx.vchContract) (hsig : vchCodec.Fits tx.vchSignature) :
    unserialize tx.chTxType (tx.serialize ++ rest) = some (tx, rest) := by
  simp only [serialize, List.append_assoc]
  unfold unserialize
  rw [show writeVarInt tx.nVersion = varInt32.write tx.nVersion from rfl, varInt32.read_bind _ _ _ hversion,
    show writeVarInt tx.nValidHeight = varInt32.write tx.nValidHeight from rfl,
    varInt32.read_bind _ _ _ hheight, show writeCID tx.cSrcRegId = cidCodec.write tx.cSrcRegId from rfl,
    cidCodec.read_bind _ _ _ hsrc, show writeCID tx.cDesUserId = cidCodec.write tx.cDesUserId from rfl,
    cidCodec.read_bind _ _ _ hdes, varUInt64.read_bind _ _ _ trivial, varUInt64.read_bind _ _ _ trivial,
    vchCodec.read_bind _ _ _ hcontract, vchCodec.read_bind _ _ _ hsig]
  rfl

theorem CRewardTransaction.unserialize_serialize (tx : CRewardTransaction) (rest : Bytes)
    (hversion : varInt32.Fits tx.nVersion) (haccount : cidCodec.Fits tx.cAccount)
    (hheight : varInt32.Fits tx.nHeight) :
    unserialize (tx.serialize ++ rest) = some (tx, rest) := by
  simp only [serialize, List.append_assoc]
  unfold unserialize
  rw [show writeVarInt tx.nVersion = varInt32.write tx.nVersion from rfl, varInt32.read_bind _ _ _ hversion,
    show writeCID tx.cAccount = cidCodec.write tx.cAccount from rfl, cidCodec.read_bind _ _ _ haccount,
    varUInt64.read_bind _ _ _ trivial, show writeVarInt tx.nHeight = varInt32.write tx.nHeight from rfl,
    varInt32.read_bind _ _ _ hheight]
  rfl

theorem CRegisterAppTx.unserialize_serialize (tx : CRegisterAppTx) (rest : Bytes)
    (hversion : varInt32.Fits tx.nVersion) (hheight : varInt32.Fits tx.nValidHeight)
    (hacct : cidCodec.Fits tx.cRegAcctId) (hscript : vchCodec.Fits tx.vchScript)
    (hsig : vchCodec.Fits tx.vchSignature) :
    unserialize (tx.serialize ++ rest) = some (tx, rest) := by
  simp only [serialize, List.append_assoc]
  unfold unserialize
  rw [show writeVarInt tx.nVersion = varInt32.write tx.nVersion from rfl, varInt32.read_bind _ _ _ hversion,
    show writeVarInt tx.nValidHeight = varInt32.write tx.nValidHeight from rfl,
    varInt32.read_bind _ _ _ hheight, show writeCID tx.cRegAcctId = cidCodec.write tx.cRegAcctId from rfl,
    cidCodec.read_bind _ _ _ hacct, vchCodec.read_bind _ _ _ hscript, varUInt64.read_bind _ _ _ trivial,
    vchCodec.read_bind _ _ _ hsig]
  rfl

namespace CBaseTransaction

/-- What the format can carry: no negative `int`, no invalid key where the check lets one pass, no
byte vector over `g_sMaxSize`. -/
def Carried : CBaseTransaction → Prop
  | reward tx => varInt32.Fits tx.nVersion ∧ varInt32.Fits tx.nHeight ∧ tx.cAccount ≠ CUserID.invalidKey
  | registerAccount tx => varInt32.Fits tx.nVersion ∧ varInt32.Fits tx.nValidHeight ∧
      tx.cMinerId ≠ CUserID.invalidKey ∧ tx.vchSignature.length ≤ maxSize
  | transaction tx => varInt32.Fits tx.nVersion ∧ varInt32.Fits tx.nValidHeight ∧
      tx.vchContract.length ≤ maxSize ∧ tx.vchSignature.length ≤ maxSize
  | registerApp tx => varInt32.Fits tx.nVersion ∧ varInt32.Fits tx.nValidHeight ∧
      tx.vchScript.length ≤ maxSize ∧ tx.vchSignature.length ≤ maxSize

theorem unserializePtr_cons (type : EmTxType) (s : Bytes) :
    unserializePtr (type.tag :: s) = match type with
      | .regAcct => (registerAccount <$> CRegisterAccountTx.unserialize : Reader _) s
      | .common => (transaction <$> CTransaction.unserialize .common : Reader _) s
      | .contract => (transaction <$> CTransaction.unserialize .contract : Reader _) s
      | .reward => (reward <$> CRewardTransaction.unserialize : Reader _) s
      | .regApp => (registerApp <$> CRegisterAppTx.unserialize : Reader _) s := by
  have hread := Codec.u8.read_bind (fun nTxType =>
    if nTxType = EmTxType.regAcct.tag then registerAccount <$> CRegisterAccountTx.unserialize
    else if nTxType = EmTxType.common.tag then transaction <$> CTransaction.unserialize .common
    else if nTxType = EmTxType.contract.tag then transaction <$> CTransaction.unserialize .contract
    else if nTxType = EmTxType.reward.tag then reward <$> CRewardTransaction.unserialize
    else if nTxType = EmTxType.regApp.tag then registerApp <$> CRegisterAppTx.unserialize
    else failure) type.tag s trivial
  have hbyte : Codec.u8.write type.tag ++ s = type.tag :: s := by
    cases type <;> rfl
  rw [hbyte] at hread
  refine hread.trans ?_
  cases type <;> rfl

/-- The check looks at the fee of a registration and at the ids it needs. -/
theorem checkTransction_fields {node : Node} {view : CAccountViewCache} {s : CScriptDBViewCache}
    {tx : CBaseTransaction} (h : tx.checkTransction node view s = .ok ()) : match tx with
      | reward _ => True
      | registerAccount tx => tx.cUserId ≠ CUserID.invalidKey ∧ 0 ≤ tx.llFees.toInt
      | transaction tx => tx.cSrcRegId ≠ CUserID.invalidKey ∧ tx.cDesUserId ≠ CUserID.invalidKey
      | registerApp tx => tx.cRegAcctId ≠ CUserID.invalidKey := by
  cases tx with
  | reward tx => trivial
  | registerAccount tx =>
    change tx.checkTransction node = .ok () at h
    unfold CRegisterAccountTx.checkTransction at h
    split at h
    · next pk hpk =>
      obtain ⟨_, -, h⟩ := Except.bind_eq_ok.mp h
      obtain ⟨_, hvalid, h⟩ := Except.bind_eq_ok.mp h
      obtain ⟨_, -, h⟩ := Except.bind_eq_ok.mp h
      have hfull := (Exec.require_eq_ok (Exec.fails_doS _ _ _ _)).mp hvalid
      have hmoney := (Exec.require_eq_ok (Exec.fails_doS _ _ _ _)).mp h
      constructor
      · show tx.cUserId ≠ _
        rw [hpk]
        rintro ⟨rfl⟩
        cases hfull
      · unfold SysCfg.moneyRange at hmoney
        simp at hmoney
        exact hmoney.1
    · cases h
  | transaction tx =>
    change tx.checkTransction node view = .ok () at h
    unfold CTransaction.checkTransction at h
    split at h
    · next r hr =>
      obtain ⟨_, hdes, -⟩ := Except.bind_eq_ok.mp h
      have htype := (Exec.require_eq_ok (Exec.fails_doS _ _ _ _)).mp hdes
      constructor
      · show tx.cSrcRegId ≠ _
        rw [hr]
        exact nofun
      · intro hinvalid
        have hkey : tx.cDesUserId = CUserID.invalidKey := hinvalid
        rw [hkey] at htype
        rcases htype with h | h <;> cases h
    · cases h
  | registerApp tx =>
    change tx.checkTransction node view s = .ok () at h
    unfold CRegisterAppTx.checkTransction at h
    split at h
    · next r hr =>
      show tx.cRegAcctId ≠ _
      rw [hr]
      exact nofun
    · cases h

theorem unserializePtr_serializePtr {node : Node} {view : CAccountViewCache} {s : CScriptDBViewCache}
    {tx : CBaseTransaction} (hcheck : tx.checkTransction node view s = .ok ()) (hc : tx.Carried)
    (rest : Bytes) : unserializePtr (tx.serializePtr ++ rest) = some (tx, rest) := by
  have hfields := checkTransction_fields hcheck
  show unserializePtr (tx.chTxType.tag :: (tx.serialize ++ rest)) = _
  rw [unserializePtr_cons]
  cases tx with
  | reward tx =>
    obtain ⟨hversion, hheight, haccount⟩ := hc
    exact read_map reward (tx.unserialize_serialize rest hversion haccount hheight)
  | registerAccount tx =>
    obtain ⟨hversion, hheight, hminer, hsig⟩ := hc
    exact read_map registerAccount (tx.unserialize_serialize rest hversion hheight hfields.1 hminer
      hfields.2 (vchCodec_fits hsig))
  | transaction tx =>
    obtain ⟨hversion, hheight, hcontract, hsig⟩ := hc
    have hread := read_map transaction (tx.unserialize_serialize rest hversion hheight hfields.1 hfields.2
      (vchCodec_fits hcontract) (vchCodec_fits hsig))
    show (match tx.chTxType.toTxType with
      | .regAcct => (registerAccount <$> CRegisterAccountTx.unserialize : Reader _) (tx.serialize ++ rest)
      | .common => (transaction <$> CTransaction.unserialize .common : Reader _) (tx.serialize ++ rest)
      | .contract => (transaction <$> CTransaction.unserialize .contract : Reader _) (tx.serialize ++ rest)
      | .reward => (reward <$> CRewardTransaction.unserialize : Reader _) (tx.serialize ++ rest)
      | .regApp => (registerApp <$> CRegisterAppTx.unserialize : Reader _) (tx.serialize ++ rest)) = _
    cases htype : tx.chTxType with
    | common =>
      rw [htype] at hread
      exact hread
    | contract =>
      rw [htype] at hread
      exact hread
  | registerApp tx =>
    obtain ⟨hversion, hheight, hscript, hsig⟩ := hc
    exact read_map registerApp (tx.unserialize_serialize rest hversion hheight hfields
      (vchCodec_fits hscript) (vchCodec_fits hsig))

/-- A checked transaction the format can carry is read back from its bytes, and no other such
transaction has them. -/
theorem serializePtr_exact (node : Node) (view : CAccountViewCache) (s : CScriptDBViewCache)
    (tx : CBaseTransaction) (hcheck : tx.checkTransction node view s = .ok ()) (hc : tx.Carried) :
    (∀ rest, unserializePtr (tx.serializePtr ++ rest) = some (tx, rest)) ∧
      ∀ tx' node' view' s', tx'.checkTransction node' view' s' = .ok () → tx'.Carried → tx ≠ tx' →
        tx.serializePtr ≠ tx'.serializePtr := by
  refine ⟨unserializePtr_serializePtr hcheck hc, ?_⟩
  intro tx' node' view' s' hcheck' hc' hne heq
  have hread := unserializePtr_serializePtr hcheck hc []
  rw [heq, unserializePtr_serializePtr hcheck' hc' []] at hread
  exact hne (Prod.mk.inj (Option.some.inj hread)).1.symm

/-- A registration is read back. -/
theorem serializePtr_exact_registration :
    unserializePtr ((registration (2 :: List.replicate 20 0)).serializePtr ++ [7]) =
      some (registration (2 :: List.replicate 20 0), [7]) :=
  (serializePtr_exact Sample.node holderViews.view holderViews.scriptDB
    (registration (2 :: List.replicate 20 0)) (by decide +kernel)
    ⟨⟨by decide, by decide⟩, ⟨by decide, by decide⟩, by decide +kernel, by decide +kernel⟩).1 [7]

/-- A call of a contract with any arguments, signed. -/
def callWith (vchContract : Bytes) : CTransaction :=
  let tx : CTransaction :=
    ⟨.contract, 2, 100, .regID ⟨50, 1⟩, .regID ⟨50, 1⟩, 20000, 500000000, vchContract, []⟩
  { tx with vchSignature := Sample.sign (.transaction tx) 5 }

theorem callWith_checked (vchContract : Bytes) :
    (transaction (callWith vchContract)).checkTransction Sample.node holderViews.view
      holderViews.scriptDB = .ok () := by
  have hacct : holderViews.view.getAccountReg ⟨50, 1⟩ = some Sample.holder := by decide +kernel
  have hsign : checkSignScript Sample.crypto
      ((transaction (callWith vchContract)).signatureHash Sample.crypto.Hash)
      (callWith vchContract).vchSignature Sample.holder.cPublicKey = true := by
    unfold checkSignScript
    rw [show Sample.holder.cPublicKey.isFullyValid Sample.crypto = true by decide +kernel]
    exact beq_self_eq_true _
  show (do
    Exec.require (CUserID.isRegID (.regID ⟨50, 1⟩) ∨ CUserID.isKeyID (.regID ⟨50, 1⟩))
      (Exec.reject "desaddr-type-error")
    Exec.require (Sample.node.cfg.moneyRange (20000 : UInt64).toInt64) (Exec.reject "bad-appeal-fee-toolarge")
    checkAccountSign Sample.node holderViews.view ⟨50, 1⟩ _ (callWith vchContract).vchSignature) = _
  unfold checkAccountSign
  rw [hacct]
  show (do
    Exec.require (Sample.holder.isRegister Sample.crypto) (Exec.reject "bad-no-pubkey")
    Exec.require _ (Exec.reject "bad-signscript-check")) = _
  rw [show Sample.holder.isRegister Sample.crypto = true by decide +kernel]
  exact (Exec.require_eq_ok (Exec.fails_doS _ _ _ _)).mpr hsign

theorem readCompactSize_over {n m : ℕ} (hn : 0x10000 ≤ n) (hlt : n ≤ 0xffffffff) (hm : m < n) (rest : Bytes) :
    Codec.readCompactSize m (Codec.writeCompactSize n ++ rest) = none := by
  have hr := Codec.readLe_leBytes 4 n rest (by omega)
  unfold Codec.writeCompactSize
  rw [if_neg (by omega), if_neg (by omega), if_pos hlt]
  simp [Codec.readCompactSize, hr, hm, show ¬ n < 65536 by omega]

theorem vchCodec_read_over {v : Bytes} (hm : maxSize < v.length) (hlt : v.length ≤ 0xffffffff) (rest : Bytes) :
    vchCodec.read (vchCodec.write v ++ rest) = none := by
  show ((Codec.compactSize maxSize).read >>= Codec.readAll Codec.u8)
    ((Codec.writeCompactSize v.length ++ Codec.writeAll Codec.u8 v) ++ rest) = none
  have hn : 0x10000 ≤ v.length := le_of_lt (lt_of_le_of_lt (by decide) hm)
  rw [List.append_assoc]
  show (Codec.readCompactSize maxSize _).bind _ = none
  rw [readCompactSize_over hn hlt hm]
  rfl

/-- A negative number has the bytes of another one, an invalid key those of no id, and a vector over
`g_sMaxSize` is not read back. -/
theorem serializePtr_lossy :
    (reward ⟨2, .null, 0, -1⟩).serializePtr = (reward ⟨2, .null, 0, 127⟩).serializePtr ∧
      (reward ⟨2, CUserID.invalidKey, 0, 1⟩).serializePtr = (reward ⟨2, .null, 0, 1⟩).serializePtr ∧
      (∃ tx : CBaseTransaction, tx.checkTransction Sample.node holderViews.view holderViews.scriptDB = .ok () ∧
        unserializePtr tx.serializePtr = none) ∧
      ¬ ∀ tx : CBaseTransaction,
        tx.checkTransction Sample.node holderViews.view holderViews.scriptDB = .ok () →
          unserializePtr tx.serializePtr = some (tx, []) := by
  have hlong : ∀ v : Bytes, maxSize < v.length → v.length ≤ 0xffffffff →
      unserializePtr (transaction (callWith v)).serializePtr = none := by
    intro v hm hlt
    show unserializePtr (EmTxType.contract.tag :: (callWith v).serialize) = _
    rw [unserializePtr_cons]
    show (transaction <$> CTransaction.unserialize .contract : Reader _) (callWith v).serialize = none
    have hread : CTransaction.unserialize .contract (callWith v).serialize = none := by
      have hids : ∀ r : CRegID, cidCodec.Fits (.regID r) := fun r => nofun
      simp only [CTransaction.serialize, List.append_assoc]
      unfold CTransaction.unserialize
      rw [show writeVarInt (callWith v).nVersion = varInt32.write 2 from rfl,
        varInt32.read_bind _ _ _ ⟨by decide, by decide⟩,
        show writeVarInt (callWith v).nValidHeight = varInt32.write 100 from rfl,
        varInt32.read_bind _ _ _ ⟨by decide, by decide⟩,
        show writeCID (callWith v).cSrcRegId = cidCodec.write (.regID ⟨50, 1⟩) from rfl,
        cidCodec.read_bind _ _ _ (hids _),
        show writeCID (callWith v).cDesUserId = cidCodec.write (.regID ⟨50, 1⟩) from rfl,
        cidCodec.read_bind _ _ _ (hids _), varUInt64.read_bind _ _ _ trivial,
        varUInt64.read_bind _ _ _ trivial]
      show (vchCodec.read _).bind _ = none
      rw [show (callWith v).vchContract = v from rfl, vchCodec_read_over hm hlt]
      rfl
    show StateT.map transaction (CTransaction.unserialize .contract) _ = none
    simp [StateT.map, hread]
  have hread := hlong (List.replicate (maxSize + 1) 0) (by rw [List.length_replicate]; omega)
    (by rw [List.length_replicate]; decide)
  have hnegative : writeVarInt (-1) = writeVarInt 127 := writeVarInt_writtenInt (-1)
  refine ⟨?_, rfl, ⟨_, callWith_checked _, hread⟩, ?_⟩
  · show EmTxType.reward.tag :: (_ ++ writeVarInt (-1)) = EmTxType.reward.tag :: (_ ++ writeVarInt 127)
    rw [hnegative]
  intro hall
  have h := hall _ (callWith_checked (List.replicate (maxSize + 1) 0))
  rw [hread] at h
  cases h

end CBaseTransaction

end Dacrs
