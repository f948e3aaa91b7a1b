import Dacrs.TransactionWire

/-!
# What a signature binds

The preimages of the four `SignatureHash`s of version 2 are the number 2, the class and the fields in
their self-delimiting forms.  So equal preimages come from transactions that are the same as written;
`signaturePreimage_binds_iff` says when that makes them the same.
-/

open Codec (Bytes)

namespace Dacrs

/-! ## Fields from their bytes -/

/-- A vector's size is a `size_t`, whatever a reader would take. -/
abbrev sizedCodec : Codec Bytes := Codec.vecBytes (2 ^ 64 - 1)

theorem sizedCodec_fits {v : Bytes} (h : v.length < 2 ^ 64) : sizedCodec.Fits v :=
  ⟨⟨by omega, lt_of_lt_of_le h (by norm_num)⟩, fun _ _ => trivial⟩

theorem vch_append_inj {v w r s : Bytes} (hv : v.length < 2 ^ 64) (hw : w.length < 2 ^ 64)
    (h : vchCodec.write v ++ r = vchCodec.write w ++ s) : v = w ∧ r = s :=
  sizedCodec.write_append_inj (sizedCodec_fits hv) (sizedCodec_fits hw) h

theorem writeVarInt_append_inj {a b : ℤ} {r s : Bytes} (h : writeVarInt a ++ r = writeVarInt b ++ s) :
    writtenInt a = writtenInt b ∧ r = s := by
  have ha := writtenInt_nonneg a
  have hb := writtenInt_nonneg b
  rw [writeVarInt_writtenInt a, writeVarInt_writtenInt b, writeVarInt, writeVarInt, if_neg (by omega),
    if_neg (by omega)] at h
  -- both numbers fit the sum's width
  have hwide : ∀ n ≤ (writtenInt a).toNat + (writtenInt b).toNat,
      (Codec.varNat ((writtenInt a).toNat + (writtenInt b).toNat)).Fits n := by
    intro n hn
    exact lt_of_le_of_lt hn Nat.lt_two_pow_self
  obtain ⟨heq, hrest⟩ := Codec.write_append_inj _ (hwide (writtenInt a).toNat (by omega))
    (hwide (writtenInt b).toNat (by omega)) h
  exact ⟨by omega, hrest⟩

theorem writeVarInt_inj {a b : ℤ} (h : writeVarInt a = writeVarInt b) : writtenInt a = writtenInt b := by
  have happ : writeVarInt a ++ [] = writeVarInt b ++ [] := by rw [h]
  exact (writeVarInt_append_inj happ).1

theorem writeCID_written (id : CUserID) : writeCID id.written = writeCID id := by
  unfold writeCID
  rw [id.toVector_written]

theorem writeCID_append_inj {a b : CUserID} {r s : Bytes} (h : writeCID a ++ r = writeCID b ++ s) :
    a.written = b.written ∧ r = s := by
  rw [← writeCID_written a, ← writeCID_written b] at h
  exact cidCodec.write_append_inj a.written_ne_invalidKey b.written_ne_invalidKey h

/-- The fee of a registration as its bytes have it. -/
def writtenInt64 (n : Int64) : Int64 := Int64.ofInt (writtenInt n.toInt)

theorem toInt_writtenInt64 (n : Int64) : (writtenInt64 n).toInt = writtenInt n.toInt := by
  have hnonneg := writtenInt_nonneg n.toInt
  have hlt := n.toInt_lt
  have hle : writtenInt n.toInt < 2 ^ 63 := by
    unfold writtenInt
    split <;> omega
  exact Int64.toInt_ofInt_of_le (by omega) hle

namespace CBaseTransaction

/-! ## Transactions as written -/

/-- All but the signature. -/
def unsigned : CBaseTransaction → CBaseTransaction
  | reward tx => reward tx
  | registerAccount tx => registerAccount { tx with vchSignature := [] }
  | transaction tx => transaction { tx with vchSignature := [] }
  | registerApp tx => registerApp { tx with vchSignature := [] }

/-- What the bytes of the fields tell: a negative number by its low seven bits, an invalid key as no
id. -/
def written : CBaseTransaction → CBaseTransaction
  | reward tx => reward { tx with
      nVersion := writtenInt tx.nVersion
      cAccount := tx.cAccount.written
      nHeight := writtenInt tx.nHeight }
  | registerAccount tx => registerAccount { tx with
      nVersion := writtenInt tx.nVersion
      nValidHeight := writtenInt tx.nValidHeight
      cUserId := tx.cUserId.written
      cMinerId := tx.cMinerId.written
      llFees := writtenInt64 tx.llFees }
  | transaction tx => transaction { tx with
      nVersion := writtenInt tx.nVersion
      nValidHeight := writtenInt tx.nValidHeight
      cSrcRegId := tx.cSrcRegId.written
      cDesUserId := tx.cDesUserId.written }
  | registerApp tx => registerApp { tx with
      nVersion := writtenInt tx.nVersion
      nValidHeight := writtenInt tx.nValidHeight
      cRegAcctId := tx.cRegAcctId.written }

/-- The byte vectors a signature covers have sizes. -/
def Sized : CBaseTransaction → Prop
  | reward _ => True
  | registerAccount _ => True
  | transaction tx => tx.vchContract.length < 2 ^ 64
  | registerApp tx => tx.vchScript.length < 2 ^ 64

/-- The two differ, and only by a negative number against its low seven bits or by an invalid key
against no id. -/
def Confused (tx tx' : CBaseTransaction) : Prop :=
  tx.written.unsigned = tx'.written.unsigned ∧ tx.unsigned ≠ tx'.unsigned

/-- The signed fields of version 2 after the version and the class. -/
def body : CBaseTransaction → Bytes
  | reward tx => writeCID tx.cAccount ++ (varUInt64.write tx.ullRewardValue ++ writeVarInt tx.nHeight)
  | registerAccount tx => writeVarInt tx.nValidHeight ++ (writeCID tx.cUserId ++
      (writeCID tx.cMinerId ++ writeVarInt tx.llFees.toInt))
  | transaction tx => writeVarInt tx.nValidHeight ++ (writeCID tx.cSrcRegId ++ (writeCID tx.cDesUserId ++
      (varUInt64.write tx.ullFees ++ (varUInt64.write tx.ullValues ++ vchCodec.write tx.vchContract))))
  | registerApp tx => writeVarInt tx.nValidHeight ++ (writeCID tx.cRegAcctId ++
      (vchCodec.write tx.vchScript ++ varUInt64.write tx.ullFees))

theorem signaturePreimage_version2 {tx : CBaseTransaction} (h : tx.nVersion = txVersion2) :
    tx.signaturePreimage = writeVarInt txVersion2 ++ tx.chTxType.tag :: tx.body := by
  cases tx with
  | reward tx =>
    have hversion : tx.nVersion = txVersion2 := h
    show CRewardTransaction.signaturePreimage tx = _
    unfold CRewardTransaction.signaturePreimage
    rw [if_pos hversion, hversion]
    simp [body, chTxType]
  | registerAccount tx =>
    have hversion : tx.nVersion = txVersion2 := h
    show CRegisterAccountTx.signaturePreimage tx = _
    unfold CRegisterAccountTx.signaturePreimage
    rw [if_pos hversion, hversion]
    simp [body, chTxType]
  | transaction tx =>
    have hversion : tx.nVersion = txVersion2 := h
    show CTransaction.signaturePreimage tx = _
    unfold CTransaction.signaturePreimage
    rw [if_pos hversion, hversion]
    simp [body, chTxType]
  | registerApp tx =>
    have hversion : tx.nVersion = txVersion2 := h
    show CRegisterAppTx.signaturePreimage tx = _
    unfold CRegisterAppTx.signaturePreimage
    rw [if_pos hversion, hversion]
    simp [body, chTxType]

/-- The signed fields are those of the transaction as written. -/
theorem body_written (tx : CBaseTransaction) : tx.written.unsigned.body = tx.body := by
  cases tx with
  | reward tx =>
    simp only [written, unsigned, body]
    rw [writeCID_written, ← writeVarInt_writtenInt]
  | registerAccount tx =>
    simp only [written, unsigned, body]
    rw [writeCID_written, writeCID_written, ← writeVarInt_writtenInt, toInt_writtenInt64,
      ← writeVarInt_writtenInt tx.llFees.toInt]
  | transaction tx =>
    simp only [written, unsigned, body]
    rw [writeCID_written, writeCID_written, ← writeVarInt_writtenInt]
  | registerApp tx =>
    simp only [written, unsigned, body]
    rw [writeCID_written, ← writeVarInt_writtenInt]

theorem chTxType_written (tx : CBaseTransaction) : tx.written.unsigned.chTxType = tx.chTxType := by
  cases tx <;> rfl

theorem tag_inj {a b : EmTxType} (h : a.tag = b.tag) : a = b := by
  cases a <;> cases b <;> first | rfl | cases h

/-- Within a class the fields are read off one after the other. -/
theorem written_of_body {tx tx' : CBaseTransaction} (h : tx.nVersion = tx'.nVersion) (hs : tx.Sized)
    (hs' : tx'.Sized) (htype : tx.chTxType = tx'.chTxType) (hbody : tx.body = tx'.body) :
    tx.written.unsigned = tx'.written.unsigned := by
  cases tx with
  | reward tx =>
    cases tx' with
    | reward tx' =>
      have hversion : tx.nVersion = tx'.nVersion := h
      obtain ⟨haccount, hbody⟩ := writeCID_append_inj hbody
      obtain ⟨hvalue, hbody⟩ := varUInt64.write_append_inj trivial trivial hbody
      have hheight := writeVarInt_inj hbody
      simp only [written, unsigned, hversion, haccount, hvalue, hheight]
    | registerAccount tx' => cases htype
    | transaction tx' =>
      revert htype
      show EmTxType.reward = tx'.chTxType.toTxType → _
      cases tx'.chTxType <;> exact nofun
    | registerApp tx' => cases htype
  | registerAccount tx =>
    cases tx' with
    | reward tx' => cases htype
    | registerAccount tx' =>
      have hversion : tx.nVersion = tx'.nVersion := h
      obtain ⟨hheight, hbody⟩ := writeVarInt_append_inj hbody
      obtain ⟨huser, hbody⟩ := writeCID_append_inj hbody
      obtain ⟨hminer, hbody⟩ := writeCID_append_inj hbody
      have hfees := writeVarInt_inj hbody
      simp only [written, unsigned, writtenInt64, hversion, hheight, huser, hminer, hfees]
    | transaction tx' =>
      revert htype
      show EmTxType.regAcct = tx'.chTxType.toTxType → _
      cases tx'.chTxType <;> exact nofun
    | registerApp tx' => cases htype
  | transaction tx =>
    have hnot : ∀ type : EmTxType, type ≠ .common → type ≠ .contract → tx.chTxType.toTxType ≠ type := by
      intro type h1 h2
      cases tx.chTxType
      · exact h1.symm
      · exact h2.symm
    cases tx' with
    | reward tx' => exact absurd htype (hnot .reward nofun nofun)
    | registerAccount tx' => exact absurd htype (hnot .regAcct nofun nofun)
    | transaction tx' =>
      have hversion : tx.nVersion = tx'.nVersion := h
      have hclass : tx.chTxType = tx'.chTxType := by
        have heq : tx.chTxType.toTxType = tx'.chTxType.toTxType := htype
        revert heq
        cases tx.chTxType <;> cases tx'.chTxType <;> first | exact fun _ => rfl | exact nofun
      obtain ⟨hheight, hbody⟩ := writeVarInt_append_inj hbody
      obtain ⟨hsrc, hbody⟩ := writeCID_append_inj hbody
      obtain ⟨hdes, hbody⟩ := writeCID_append_inj hbody
      obtain ⟨hfees, hbody⟩ := varUInt64.write_append_inj trivial trivial hbody
      obtain ⟨hvalues, hbody⟩ := varUInt64.write_append_inj trivial trivial hbody
      have hcontract := sizedCodec.write_inj (sizedCodec_fits hs) (sizedCodec_fits hs') hbody
      simp only [written, unsigned, hclass, hversion, hheight, hsrc, hdes, hfees, hvalues, hcontract]
    | registerApp tx' => exact absurd htype (hnot .regApp nofun nofun)
  | registerApp tx =>
    cases tx' with
    | reward tx' => cases htype
    | registerAccount tx' => cases htype
    | transaction tx' =>
      revert htype
      show EmTxType.regApp = tx'.chTxType.toTxType → _
      cases tx'.chTxType <;> exact nofun
    | registerApp tx' =>
      have hversion : tx.nVersion = tx'.nVersion := h
      obtain ⟨hheight, hbody⟩ := writeVarInt_append_inj hbody
      obtain ⟨hacct, hbody⟩ := writeCID_append_inj hbody
      obtain ⟨hscript, hbody⟩ := vch_append_inj hs hs' hbody
      have hfees := varUInt64.write_inj trivial trivial hbody
      simp only [written, unsigned, hversion, hheight, hacct, hscript, hfees]

/-- Version-2 transactions are signed alike exactly when they are the same as written. -/
theorem signaturePreimage_eq_iff {tx tx' : CBaseTransaction} (h : tx.nVersion = txVersion2)
    (h' : tx'.nVersion = txVersion2) (hs : tx.Sized) (hs' : tx'.Sized) :
    tx.signaturePreimage = tx'.signaturePreimage ↔ tx.written.unsigned = tx'.written.unsigned := by
  rw [signaturePreimage_version2 h, signaturePreimage_version2 h']
  constructor
  · intro heq
    obtain ⟨htag, hbody⟩ := List.cons.inj (List.append_cancel_left heq)
    exact written_of_body (h.trans h'.symm) hs hs' (tag_inj htag) hbody
  · intro heq
    rw [← chTxType_written tx, ← body_written tx, heq, chTxType_written, body_written]

/-- Equal preimages mean the same class and the same fields, the signature apart, exactly for two
transactions that do not differ by a negative number or an invalid key only. -/
theorem signaturePreimage_binds_iff (tx tx' : CBaseTransaction) (h : tx.nVersion = txVersion2)
    (h' : tx'.nVersion = txVersion2) (hs : tx.Sized) (hs' : tx'.Sized) :
    (tx.signaturePreimage = tx'.signaturePreimage → tx.unsigned = tx'.unsigned) ↔ ¬ Confused tx tx' := by
  rw [signaturePreimage_eq_iff h h' hs hs']
  unfold Confused
  tauto

/-- A payment of five coins is told apart from one of six. -/
theorem signaturePreimage_binds_payment :
    (transaction ⟨.common, 2, 100, .regID ⟨50, 1⟩, .regID ⟨60, 1⟩, 20000, 500000000, [], [1]⟩).signaturePreimage ≠
      (transaction ⟨.common, 2, 100, .regID ⟨50, 1⟩, .regID ⟨60, 1⟩, 20000, 600000000, [], [1]⟩).signaturePreimage := by
  intro heq
  have h := (signaturePreimage_binds_iff
    (transaction ⟨.common, 2, 100, .regID ⟨50, 1⟩, .regID ⟨60, 1⟩, 20000, 500000000, [], [1]⟩)
    (transaction ⟨.common, 2, 100, .regID ⟨50, 1⟩, .regID ⟨60, 1⟩, 20000, 600000000, [], [1]⟩)
    rfl rfl (Nat.two_pow_pos 64) (Nat.two_pow_pos 64)).mpr ?_ heq
  · revert h
    decide
  · rintro ⟨hwritten, -⟩
    revert hwritten
    decide

/-- A transaction valid at height 127 and one at height -1 are signed alike, and so are registrations
without a miner and with an invalid miner key. -/
theorem signaturePreimage_shared :
    (transaction ⟨.common, 2, -1, .regID ⟨50, 1⟩, .regID ⟨60, 1⟩, 20000, 500000000, [], []⟩).signaturePreimage =
      (transaction ⟨.common, 2, 127, .regID ⟨50, 1⟩, .regID ⟨60, 1⟩, 20000, 500000000, [], []⟩).signaturePreimage ∧
    (∀ key : CPubKey, (registerAccount ⟨2, 100, .pubKey key, .null, 0, []⟩).signaturePreimage =
      (registerAccount ⟨2, 100, .pubKey key, CUserID.invalidKey, 0, []⟩).signaturePreimage) ∧
    ¬ ∀ tx tx' : CBaseTransaction, tx.nVersion = txVersion2 → tx'.nVersion = txVersion2 →
      tx.signaturePreimage = tx'.signaturePreimage → tx.unsigned = tx'.unsigned := by
  have hheights : (transaction ⟨.common, 2, -1, .regID ⟨50, 1⟩, .regID ⟨60, 1⟩, 20000, 500000000, [], []⟩).signaturePreimage =
      (transaction ⟨.common, 2, 127, .regID ⟨50, 1⟩, .regID ⟨60, 1⟩, 20000, 500000000, [], []⟩).signaturePreimage := by
    refine (signaturePreimage_eq_iff rfl rfl ?_ ?_).mpr (by decide)
    · exact Nat.two_pow_pos 64
    · exact Nat.two_pow_pos 64
  refine ⟨hheights, ?_, ?_⟩
  · intro key
    refine (signaturePreimage_eq_iff rfl rfl ?_ ?_).mpr rfl
    · exact True.intro
    · exact True.intro
  · intro hall
    have heq := hall _ _ rfl rfl hheights
    revert heq
    decide

end CBaseTransaction

end Dacrs
