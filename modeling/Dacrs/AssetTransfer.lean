import Dacrs.FundLaws
import Dacrs.AppUsers
import Dacrs.SampleChain

/-!
# Handing on all of an app account

`ExTransferContactAsset` plans one operation for the free balance and one for each frozen fund, and the
same ones for the receiver, from a copy of the account unfrozen at the tip of the chain;
`OpeatorAppAccount` applies them to the account unfrozen at the height of the run.  `transfer_moves_iff`
says for which accounts, heights and receivers everything moves.
-/

open Codec (Bytes)

namespace Dacrs

/-! ## The operations of each user -/

namespace CVmRunEvn

/-- What a user is asked for, in order. -/
def asked (u : Bytes) (l : List (Bytes × CAppFundOperate)) : List CAppFundOperate :=
  (l.filter fun p => p.1 = u).map Prod.snd

theorem asked_append (u : Bytes) (l l' : List (Bytes × CAppFundOperate)) :
    asked u (l ++ l') = asked u l ++ asked u l' := by
  unfold asked
  rw [List.filter_append, List.map_append]

/-- The operations a map has for a user. -/
def opsOf (u : Bytes) : List (Bytes × List CAppFundOperate) → List CAppFundOperate
  | [] => []
  | (k, ops) :: rest => if k = u then ops else opsOf u rest

theorem opsOf_of_notMem {u : Bytes} {m : List (Bytes × List CAppFundOperate)}
    (h : u ∉ m.map Prod.fst) : opsOf u m = [] := by
  induction m with
  | nil => rfl
  | cons p m ih =>
    obtain ⟨k, ops⟩ := p
    rw [List.map_cons, List.mem_cons, not_or] at h
    have hk : k ≠ u := fun he => h.1 he.symm
    rw [opsOf, if_neg hk, ih h.2]

theorem opsOf_of_mem {item : Bytes × List CAppFundOperate} {m : List (Bytes × List CAppFundOperate)}
    (hkeys : (m.map Prod.fst).Nodup) (h : item ∈ m) : opsOf item.1 m = item.2 := by
  induction m with
  | nil => cases h
  | cons p m ih =>
    obtain ⟨k, ops⟩ := p
    rw [List.map_cons, List.nodup_cons] at hkeys
    rw [opsOf]
    rcases List.mem_cons.mp h with rfl | hmem
    · rw [if_pos rfl]
    · have hin : item.1 ∈ m.map Prod.fst := List.mem_map_of_mem hmem
      have hk : k ≠ item.1 := by
        intro he
        rw [← he] at hin
        exact hkeys.1 hin
      rw [if_neg hk, ih hkeys.2 hmem]

theorem mem_of_opsOf {u : Bytes} {m : List (Bytes × List CAppFundOperate)} (h : opsOf u m ≠ []) :
    (u, opsOf u m) ∈ m := by
  induction m with
  | nil => exact absurd rfl h
  | cons p m ih =>
    obtain ⟨k, ops⟩ := p
    rw [opsOf] at h ⊢
    by_cases hk : k = u
    · rw [if_pos hk, ← hk]
      exact List.mem_cons_self
    · rw [if_neg hk] at h ⊢
      exact List.mem_cons_of_mem _ (ih h)

theorem opsOf_insert (u v : Bytes) (op : CAppFundOperate) {m : List (Bytes × List CAppFundOperate)}
    (hsorted : (m.map Prod.fst).Pairwise (· < ·)) :
    opsOf v (insertOutAPPOperte u op m) = if u = v then opsOf v m ++ [op] else opsOf v m := by
  induction m with
  | nil => rfl
  | cons p m ih =>
    obtain ⟨k, ops⟩ := p
    rw [List.map_cons, List.pairwise_cons] at hsorted
    rw [insertOutAPPOperte]
    by_cases hk : k = u
    · rw [if_pos hk, opsOf, opsOf, hk]
      split
      · rfl
      · rfl
    rw [if_neg hk]
    by_cases hlt : u < k
    · -- no later entry is the user's
      rw [if_pos hlt, opsOf]
      by_cases huv : u = v
      · have hnot : v ∉ ((k, ops) :: m).map Prod.fst := by
          rw [← huv, List.map_cons, List.mem_cons, not_or]
          refine ⟨fun he => hk he.symm, fun hmem => ?_⟩
          exact List.lt_irrefl u (List.lt_trans hlt (hsorted.1 u hmem))
        rw [if_pos huv, if_pos huv, opsOf_of_notMem hnot]
        rfl
      · rw [if_neg huv, if_neg huv]
    · rw [if_neg hlt, opsOf, opsOf, ih hsorted.2]
      by_cases hkv : k = v
      · have huv : u ≠ v := fun he => hk (hkv.trans he.symm)
        rw [if_pos hkv, if_pos hkv, if_neg huv]
      · rw [if_neg hkv, if_neg hkv]

theorem opsOf_mapAppOperate (u : Bytes) (l : List (Bytes × CAppFundOperate)) :
    opsOf u (mapAppOperate l) = asked u l := by
  induction l using List.reverseRecOn with
  | nil => rfl
  | append_singleton l p ih =>
    have hsnoc : mapAppOperate (l ++ [p]) = insertOutAPPOperte p.1 p.2 (mapAppOperate l) := by
      unfold mapAppOperate
      rw [List.foldl_append]
      rfl
    rw [hsnoc, opsOf_insert _ _ _ (mapAppOperate_sorted l), ih, asked_append]
    by_cases hp : p.1 = u
    · rw [if_pos hp]
      simp [asked, hp]
    · rw [if_neg hp]
      simp [asked, hp]

/-- The map has what each user is asked for. -/
theorem mem_mapAppOperate {item : Bytes × List CAppFundOperate} {l : List (Bytes × CAppFundOperate)} :
    item ∈ mapAppOperate l ↔ item.2 = asked item.1 l ∧ item.2 ≠ [] := by
  constructor
  · intro h
    refine ⟨?_, mapAppOperate_ne_nil l item h⟩
    rw [← opsOf_mapAppOperate, opsOf_of_mem (mapAppOperate_nodup l) h]
  · rintro ⟨heq, hne⟩
    rw [heq, ← opsOf_mapAppOperate] at hne
    have hmem := mem_of_opsOf hne
    rw [opsOf_mapAppOperate, ← heq] at hmem
    exact hmem

section

variable {chainActive : PBlockIndex} {des : CRegID} {nHeight : ℤ}

/-- One user's operations that succeed on its account. -/
theorem opeatorAppAccountOne_ok {w : AppWork} {item : Bytes × List CAppFundOperate} {a b : CAppUserAccout}
    (hload : loadedAccount chainActive w.scriptDB des nHeight item.1 = .ok a) (hops : item.2 ≠ [])
    (hop : item.2.foldlM CAppUserAccout.operateOne a = .ok b) :
    ∃ w', opeatorAppAccountOne chainActive des nHeight w item = .ok w' := by
  unfold loadedAccount at hload
  rw [Except.bind_eq_ok] at hload
  obtain ⟨a₀, h0, h1⟩ := hload
  have hoperate : a.operate item.2 = .ok b := by
    unfold CAppUserAccout.operate
    rw [if_neg hops, hop]
  unfold opeatorAppAccountOne
  rw [h0, Except.ok_bind, h1, Except.ok_bind]
  dsimp only
  rw [operateOrPrint_ok.mpr hoperate]
  exact ⟨_, rfl⟩

/-- When all users' operations succeed, each on its stored account, the whole does. -/
theorem opeatorAppAccount_ok {mapOp : List (Bytes × List CAppFundOperate)} {w : AppWork}
    (hkeys : (mapOp.map Prod.fst).Nodup) (hown : ∀ item ∈ mapOp, OwnRecord w.scriptDB des item.1)
    (hall : ∀ item ∈ mapOp, item.2 ≠ [] ∧ ∃ a b,
      loadedAccount chainActive w.scriptDB des nHeight item.1 = .ok a ∧
        item.2.foldlM CAppUserAccout.operateOne a = .ok b) :
    ∃ w', mapOp.foldlM (opeatorAppAccountOne chainActive des nHeight) w = .ok w' := by
  induction mapOp generalizing w with
  | nil => exact ⟨w, rfl⟩
  | cons item mapOp ih =>
    rw [List.map_cons, List.nodup_cons] at hkeys
    obtain ⟨hops, a, b, hload, hop⟩ := hall item List.mem_cons_self
    obtain ⟨w₁, h1⟩ := opeatorAppAccountOne_ok hload hops hop
    have hlater : ∀ item' ∈ mapOp,
        w₁.scriptDB.getData (CScriptDBViewCache.scriptAccKey des.getVec6 item'.1)
          = w.scriptDB.getData (CScriptDBViewCache.scriptAccKey des.getVec6 item'.1) := by
      intro item' hitem'
      have hone : [item].foldlM (opeatorAppAccountOne chainActive des nHeight) w = .ok w₁ := by
        rw [List.foldlM_cons, h1]
        rfl
      have hkey : ([item].map Prod.fst).Nodup := List.nodup_singleton item.1
      refine (opeatorAppAccount_users hkey ?_ hone).1 _ ?_
      · intro i hi
        rw [List.mem_singleton.mp hi]
        exact hown item List.mem_cons_self
      · intro i hi he
        rw [List.mem_singleton.mp hi] at he
        refine hkeys.1 ?_
        rw [← scriptAccKey_inj he]
        exact List.mem_map_of_mem hitem'
    obtain ⟨w', h2⟩ := ih (w := w₁) hkeys.2
      (fun item' hitem' c hc => by
        rw [getScriptAcc_congr (hlater item' hitem')] at hc
        exact hown item' (List.mem_cons_of_mem item hitem') c hc)
      fun item' hitem' => by
        obtain ⟨hne, a', b', hload', hop'⟩ := hall item' (List.mem_cons_of_mem item hitem')
        refine ⟨hne, a', b', ?_, hop'⟩
        rw [loadedAccount_congr (hlater item' hitem')]
        exact hload'
    refine ⟨w', ?_⟩
    rw [List.foldlM_cons, h1]
    exact h2

end

end CVmRunEvn

open CVmRunEvn (asked asked_append loadedAccount)

/-! ## The plan -/

/-- The operation on the free balance. -/
def freeOp (uchOpeatorType : UInt8) (ullMoney : UInt64) : CAppFundOperate :=
  ⟨uchOpeatorType, 0, ullMoney.toInt64, 0, []⟩

/-- The operation on a frozen fund. -/
def fundOp (uchOpeatorType : UInt8) (fund : CAppCFund) : CAppFundOperate :=
  let uchFundTaglen := UInt8.ofNat fund.vTag.length
  ⟨uchOpeatorType, UInt32.ofInt fund.nHeight, fund.nllValue.toInt64, uchFundTaglen,
    fund.vTag.take uchFundTaglen.toNat⟩

/-- All operations of one kind. -/
def plan (freeType tagType : UInt8) (ullMoney : UInt64) (funds : List CAppCFund) : List CAppFundOperate :=
  (if 0 < ullMoney then [freeOp freeType ullMoney] else []) ++ funds.map (fundOp tagType)

/-- The output asks the sender and the receiver for these operations, and nobody else. -/
structure Asks (send recv : Bytes) (out : AppOutput) (minus add : List CAppFundOperate) : Prop where
  ofSend : asked send out = minus
  ofRecv : asked recv out = add
  others : ∀ u, u ≠ send → u ≠ recv → asked u out = []
  fits : minus ≠ [] → send.length ≤ maxTagSize

section

variable {node : Node} {view : CAccountViewCache} {des src : CRegID} {recv : Bytes}
  {out out' : AppOutput} {minus add : List CAppFundOperate}

theorem transferPair_asks {minusOp addOp : UInt8} {op : CAppFundOperate}
    (hne : sendAddress node view src ≠ recv) (hasks : Asks (sendAddress node view src) recv out minus add)
    (h : transferPair node view src minusOp addOp op recv out = .ok out') :
    Asks (sendAddress node view src) recv out' (minus ++ [{ op with uchOpeatorType := minusOp }])
      (add ++ [{ op with uchOpeatorType := addOp }]) := by
  unfold transferPair at h
  dsimp only at h
  split at h
  · cases h
  · next hfits =>
    obtain rfl := Except.ok.inj h
    refine ⟨?_, ?_, fun u hsend hrecv => ?_, fun _ => by omega⟩
    · rw [asked_append, hasks.ofSend]
      simp [asked, hne.symm]
    · rw [asked_append, hasks.ofRecv]
      simp [asked, hne]
    · rw [asked_append, hasks.others u hsend hrecv]
      simp [asked, hsend.symm, hrecv.symm]

theorem transferFree_asks {ullMoney : UInt64} (hne : sendAddress node view src ≠ recv)
    (h : transferFree node view src recv ullMoney [] = .ok out) :
    Asks (sendAddress node view src) recv out (plan subFreeOp subTagOp ullMoney [])
      (plan addFreeOp addTagOp ullMoney []) := by
  have hnone : Asks (sendAddress node view src) recv [] [] [] :=
    ⟨rfl, rfl, fun _ _ _ => rfl, fun h => absurd rfl h⟩
  unfold transferFree at h
  unfold plan
  split at h
  · next hpos =>
    rw [if_pos hpos, if_pos hpos]
    exact transferPair_asks hne hnone h
  · next hzero =>
    rw [if_neg hzero, if_neg hzero]
    obtain rfl := Except.ok.inj h
    exact hnone

theorem transferFunds_asks {funds : List CAppCFund} (hne : sendAddress node view src ≠ recv)
    (hasks : Asks (sendAddress node view src) recv out minus add)
    (h : funds.foldlM (transferFund node view src recv) out = .ok out') :
    Asks (sendAddress node view src) recv out' (minus ++ funds.map (fundOp subTagOp))
      (add ++ funds.map (fundOp addTagOp)) := by
  induction funds generalizing out minus add with
  | nil =>
    obtain rfl := Except.ok.inj h
    simpa using hasks
  | cons f funds ih =>
    rw [List.foldlM_cons, Except.bind_eq_ok] at h
    obtain ⟨out₁, h1, h2⟩ := h
    unfold transferFund at h1
    dsimp only at h1
    split at h1
    · cases h1
    · have hrest := ih (transferPair_asks hne hasks h1) h2
      rw [List.append_assoc, List.append_assoc] at hrest
      exact hrest

/-- The output of a call that goes through. -/
theorem exTransferContactAsset_asks {a b : CAppUserAccout} (hlen : recv.length = 34)
    (hvalid : receiverValid node view src recv = true) (hmerged : autoMerged node des a = .ok b)
    (h : exTransferContactAsset node view des src recv (some a) [] = .ok out) :
    Asks (sendAddress node view src) recv out (plan subFreeOp subTagOp b.ullValues b.vcFreezedFund)
      (plan addFreeOp addTagOp b.ullValues b.vcFreezedFund) := by
  have hne : sendAddress node view src ≠ recv := by
    unfold receiverValid at hvalid
    rw [Bool.and_eq_true, bne_iff_ne] at hvalid
    exact hvalid.1
  have hgo : ¬ (recv.length ≠ 34 ∨ ¬ receiverValid node view src recv = true) := by
    rintro (h | h)
    · exact h hlen
    · exact h hvalid
  unfold exTransferContactAsset at h
  rw [if_neg hgo] at h
  dsimp only at h
  rw [hmerged, Except.ok_bind, Except.bind_eq_ok] at h
  obtain ⟨out₁, h1, h2⟩ := h
  have hall := transferFunds_asks hne (transferFree_asks hne h1) h2
  unfold plan at hall ⊢
  simpa using hall

end

/-! ## The accounts, unfrozen -/

namespace CAppUserAccout

open CAppCFund (totalOf)

/-- The amounts matured at a limit. -/
def matured (limit : ℤ) (a : CAppUserAccout) : ℕ :=
  totalOf (a.vcFreezedFund.filter fun f => f.nHeight ≤ limit)

/-- The funds that stay frozen. -/
def stillFrozen (limit : ℤ) (a : CAppUserAccout) : List CAppCFund :=
  a.vcFreezedFund.filter fun f => ¬ f.nHeight ≤ limit

/-- The free balance has room for the matured amounts. -/
def HasRoom (limit : ℤ) (a : CAppUserAccout) : Prop :=
  a.ullValues.toNat + a.matured limit < 2 ^ 64

instance (limit : ℤ) (a : CAppUserAccout) : Decidable (a.HasRoom limit) :=
  inferInstanceAs (Decidable (_ < _))

/-- The account with its matured funds freed. -/
def thawed (limit : ℤ) (a : CAppUserAccout) : CAppUserAccout :=
  { a with
    ullValues := a.ullValues + UInt64.ofNat (a.matured limit)
    vcFreezedFund := a.stillFrozen limit }

section

variable {a : CAppUserAccout} {limit : ℤ}

theorem thawed_free (h : a.HasRoom limit) :
    (a.thawed limit).ullValues.toNat = a.ullValues.toNat + a.matured limit := by
  unfold HasRoom at h
  show (a.ullValues + UInt64.ofNat (a.matured limit)).toNat = _
  have hlt : a.matured limit < 2 ^ 64 := by omega
  rw [UInt64.toNat_add, UInt64.toNat_ofNat_of_lt' hlt, Nat.mod_eq_of_lt h]

theorem funds_eq (limit : ℤ) (a : CAppUserAccout) :
    a.funds = a.ullValues.toNat + a.matured limit + totalOf (a.stillFrozen limit) := by
  have hparts := totalOf_filter_add (fun f => f.nHeight ≤ limit) a.vcFreezedFund
  unfold funds matured stillFrozen
  omega

theorem stillFrozen_above {f : CAppCFund} (h : f ∈ a.stillFrozen limit) : limit < f.nHeight := by
  have hkept := (List.mem_filter.mp h).2
  simpa using hkept

end

end CAppUserAccout

open CAppUserAccout (freezeLimit mergeFunds)

section

variable {chainActive : PBlockIndex} {s : CScriptDBViewCache} {des : CRegID} {nHeight limit : ℤ}
  {u : Bytes} {a : CAppUserAccout} {stored : Option CAppUserAccout}

theorem autoMergeFreezeToFree_room (hlimit : freezeLimit chainActive des.uHeight nHeight = .ok limit)
    (hroom : a.HasRoom limit) :
    a.autoMergeFreezeToFree chainActive des.uHeight nHeight = .ok (a.thawed limit) := by
  rw [CAppUserAccout.autoMergeFreezeToFree_eq, CAppUserAccout.autoMergeMut_fits hlimit hroom]
  rfl

/-- What `OpeatorAppAccount` loads for a user. -/
theorem loadedAccount_eq (hlimit : freezeLimit chainActive des.uHeight nHeight = .ok limit)
    (hstored : s.getScriptAcc des u = .ok stored) :
    loadedAccount chainActive s des nHeight u
      = if (stored.getD (CAppUserAccout.ofUser u)).HasRoom limit then
          .ok ((stored.getD (CAppUserAccout.ofUser u)).thawed limit)
        else Exec.returnFalse := by
  unfold loadedAccount CVmRunEvn.getAppUserAccout
  rw [hstored, Except.ok_bind]
  cases stored with
  | none =>
    have hfresh : (CAppUserAccout.ofUser u).HasRoom limit := by
      show 0 + 0 < 2 ^ 64
      decide
    rw [Option.getD_none, if_pos hfresh]
    exact autoMergeFreezeToFree_room hlimit hfresh
  | some a =>
    rw [Option.getD_some]
    by_cases hroom : a.HasRoom limit
    · rw [if_pos hroom]
      dsimp only
      rw [autoMergeFreezeToFree_room hlimit hroom, Except.ok_bind,
        CAppUserAccout.autoMergeFreezeToFree_eq, CAppUserAccout.autoMergeMut_again hlimit]
      · rfl
      · intro f hf
        exact not_le.mpr (CAppUserAccout.stillFrozen_above hf)
    · rw [if_neg hroom]
      dsimp only
      rw [CAppUserAccout.autoMergeFreezeToFree_eq, CAppUserAccout.autoMergeMut_over hlimit hroom]
      rfl

/-- What the plan is made from. -/
theorem autoMerged_eq {node : Node} {tip : CBlockIndex} {rest : List CBlockIndex}
    (hchain : node.chainActive = tip :: rest)
    (hlimit : freezeLimit node.chainActive des.uHeight tip.nHeight = .ok limit) (a : CAppUserAccout) :
    autoMerged node des a = .ok (if a.HasRoom limit then a.thawed limit
      else { a with ullValues := mergedUntil limit a.ullValues a.vcFreezedFund }) := by
  unfold autoMerged
  rw [hchain] at hlimit ⊢
  dsimp only
  rw [hlimit, Except.ok_bind]
  by_cases hroom : a.HasRoom limit
  · rw [if_pos hroom, CAppUserAccout.mergeFunds_fits hroom]
    rfl
  · rw [if_neg hroom, CAppUserAccout.mergeFunds_over hroom]
    rfl

end

/-! ## Taking it all from the sender -/

namespace CAppUserAccout

open CAppCFund (totalOf)

/-- A fund an operation can name: a positive out-height, a tag of at most 40 bytes. -/
def Named (f : CAppCFund) : Prop := 0 < f.nHeight ∧ f.vTag.length ≤ maxTagSize

/-- An out-height is an `int`. -/
def Int32 (f : CAppCFund) : Prop := -2 ^ 31 ≤ f.nHeight ∧ f.nHeight < 2 ^ 31

theorem toInt32_ofInt {n : ℤ} (hlow : -2 ^ 31 ≤ n) (hhigh : n < 2 ^ 31) : toInt32 (UInt32.ofInt n) = n := by
  have hnat : (UInt32.ofInt n).toNat = (n % 2 ^ 32).toNat := by
    simp [UInt32.ofInt]
    omega
  have hstated := toInt32_stated (UInt32.ofInt n)
  have hle := (UInt32.ofInt n).toInt32.le_toInt
  have hlt := (UInt32.ofInt n).toInt32.toInt_lt
  unfold toInt32 at hstated ⊢
  omega

section

variable {a b : CAppUserAccout} {f : CAppCFund} {t : UInt8}

theorem freeOp_value (t : UInt8) (v : UInt64) : (freeOp t v).getUint64Value = v := by
  simp [freeOp, CAppFundOperate.getUint64Value]

theorem fundOp_value (t : UInt8) (f : CAppCFund) : (fundOp t f).getUint64Value = f.nllValue := by
  simp [fundOp, CAppFundOperate.getUint64Value]

theorem fundOp_height (hint : Int32 f) : toInt32 (fundOp t f).unOutHeight = f.nHeight :=
  toInt32_ofInt hint.1 hint.2

theorem operateOne_addFree {op : CAppFundOperate} (h : op.uchOpeatorType = addFreeOp) :
    a.operateOne op = if a.ullValues.toNat + op.getUint64Value.toNat < 2 ^ 64 then
      .ok { a with ullValues := a.ullValues + op.getUint64Value } else Exec.returnFalse := by
  unfold operateOne safeAdd
  rw [if_pos h]
  by_cases hfits : a.ullValues.toNat + op.getUint64Value.toNat < 2 ^ 64
  · rw [if_pos hfits, if_pos hfits]
  · rw [if_neg hfits, if_neg hfits]

theorem operateOne_subFree {op : CAppFundOperate} (h : op.uchOpeatorType = subFreeOp) :
    a.operateOne op = if op.getUint64Value ≤ a.ullValues then
      .ok { a with ullValues := a.ullValues - op.getUint64Value } else Exec.returnFalse := by
  unfold operateOne
  rw [h, if_neg (by decide), if_pos rfl]

theorem operateOne_addTag {op : CAppFundOperate} (h : op.uchOpeatorType = addTagOp) :
    a.operateOne op = CAppCFund.ofOperate op >>= a.addAppCFund := by
  unfold operateOne
  rw [h, if_neg (by decide), if_neg (by decide), if_pos rfl]

theorem operateOne_subTag {op : CAppFundOperate} (h : op.uchOpeatorType = subTagOp) :
    a.operateOne op = CAppCFund.ofOperate op >>= a.minusAppCFund := by
  unfold operateOne
  rw [h, if_neg (by decide), if_neg (by decide), if_neg (by decide), if_pos rfl]

/-- The length of a tag that fits its array fits its byte. -/
theorem tagByte (h : f.vTag.length ≤ maxTagSize) : (UInt8.ofNat f.vTag.length).toNat = f.vTag.length := by
  unfold maxTagSize at h
  simp
  omega

/-- The operation names the fund, when the fund can be named. -/
theorem fundOp_fund (hint : Int32 f) (hnamed : Named f) :
    CAppCFund.ofOperate (fundOp t f) = .ok f := by
  obtain ⟨hpos, htag⟩ := hnamed
  have hbyte := tagByte htag
  have hheight := fundOp_height (t := t) hint
  have hne : (fundOp t f).unOutHeight ≠ 0 := by
    intro h0
    rw [h0] at hheight
    have hzero : toInt32 0 = 0 := by decide
    omega
  have hlen : (fundOp t f).uchFundTaglen.toNat = f.vTag.length := hbyte
  have htake : (fundOp t f).arruchFundTag = f.vTag := by
    show f.vTag.take (UInt8.ofNat f.vTag.length).toNat = f.vTag
    rw [hbyte, List.take_length]
  rw [CAppFundOperate.ofOperate_eq ⟨hne, by rw [hlen]; exact htag⟩]
  unfold CAppFundOperate.fund
  rw [fundOp_value, hheight, hlen, htake, List.take_length]

/-- Taking the first fund takes it away. -/
theorem operateOne_takeHead {rest : List CAppCFund} (hint : Int32 f) (hnamed : Named f)
    (hfirst : a.vcFreezedFund = f :: rest) :
    a.operateOne (fundOp subTagOp f) = .ok { a with vcFreezedFund := rest } := by
  have hself : f.sameSlot f = true := (f.sameSlot_iff f).mpr rfl
  have hfind : (f :: rest).find? (·.sameSlot f) = some f := List.find?_cons_of_pos hself
  have hpos : ¬ f.nHeight ≤ 0 := not_le.mpr hnamed.1
  have hminus : a.minusAppCFund f = .ok { a with vcFreezedFund := rest } := by
    unfold minusAppCFund
    rw [if_neg hpos, hfirst, hfind]
    dsimp only
    rw [if_neg (UInt64.lt_irrefl f.nllValue), updateFirst, if_pos hself, if_pos rfl]
    rfl
  rw [operateOne_subTag rfl, fundOp_fund hint hnamed]
  exact hminus

/-- Taking all funds, in their order, empties the list. -/
theorem takeAll {l : List CAppCFund} (hl : ∀ f ∈ l, Int32 f ∧ Named f) (hall : a.vcFreezedFund = l) :
    (l.map (fundOp subTagOp)).foldlM operateOne a = .ok { a with vcFreezedFund := [] } := by
  induction l generalizing a with
  | nil =>
    show Except.ok a = _
    rw [← hall]
  | cons f l ih =>
    obtain ⟨hint, hnamed⟩ := hl f List.mem_cons_self
    rw [List.map_cons, List.foldlM_cons, operateOne_takeHead hint hnamed hall, Except.ok_bind]
    exact ih (fun g hg => hl g (List.mem_cons_of_mem f hg)) rfl

theorem updateFirst_length (p : CAppCFund → Bool) (g : CAppCFund → Option CAppCFund) (l : List CAppCFund) :
    l.length ≤ (updateFirst p g l).length + 1 := by
  induction l with
  | nil => exact Nat.zero_le _
  | cons f l ih =>
    rw [updateFirst]
    split
    · simp
    · simp
      omega

/-- A fund that is not looked for stays. -/
theorem mem_updateFirst {p : CAppCFund → Bool} {g : CAppCFund → Option CAppCFund} {l : List CAppCFund}
    (hf : f ∈ l) (hp : ¬ p f = true) : f ∈ updateFirst p g l := by
  induction l with
  | nil => cases hf
  | cons f' l ih =>
    rw [updateFirst]
    rcases List.mem_cons.mp hf with rfl | hmem
    · rw [if_neg hp]
      exact List.mem_cons_self
    · split
      · exact List.mem_append_right _ hmem
      · exact List.mem_cons_of_mem f' (ih hmem)

/-- An operation that takes a fund finds one of its out-height, and takes one away at most; it cannot name
a tag of more than 40 bytes. -/
theorem takeOne_cases (hint : Int32 f) (h : a.operateOne (fundOp subTagOp f) = .ok b) :
    b.ullValues = a.ullValues ∧ 0 < f.nHeight ∧ (∃ g ∈ a.vcFreezedFund, g.nHeight = f.nHeight) ∧
      a.vcFreezedFund.length ≤ b.vcFreezedFund.length + 1 ∧
      (∀ g ∈ b.vcFreezedFund, ∃ g' ∈ a.vcFreezedFund, g'.nHeight = g.nHeight) ∧
      ∀ g ∈ a.vcFreezedFund, maxTagSize < g.vTag.length → g ∈ b.vcFreezedFund := by
  rw [operateOne_subTag rfl, Except.bind_eq_ok] at h
  obtain ⟨fund, hfund, h⟩ := h
  obtain ⟨-, hslot, hlen⟩ := ofOperate_cases hfund
  have hheight : fund.nHeight = f.nHeight := (congrArg Prod.fst hslot).trans (fundOp_height hint)
  have htag : fund.vTag.length ≤ maxTagSize := by
    have hvTag : fund.vTag = _ := congrArg Prod.snd hslot
    rw [hvTag, List.length_take]
    unfold maxTagSize
    omega
  have hslots := minusAppCFund_slots h
  unfold minusAppCFund at h
  split at h
  · cases h
  · next hpos =>
    cases hfind : a.vcFreezedFund.find? (·.sameSlot fund) with
    | none =>
      rw [hfind] at h
      cases h
    | some old =>
      rw [hfind] at h
      dsimp only at h
      split at h
      · cases h
      · obtain rfl : { a with
            vcFreezedFund := updateFirst (·.sameSlot fund) (takeFrom fund) a.vcFreezedFund } = b :=
          Except.ok.inj h
        have hsame : old.sameSlot fund = true := by simpa using List.find?_some hfind
        have hold : old.nHeight = fund.nHeight :=
          congrArg Prod.fst ((old.sameSlot_iff fund).mp hsame)
        refine ⟨rfl, by omega, ⟨old, List.mem_of_find?_eq_some hfind, hold.trans hheight⟩,
          updateFirst_length _ _ _, fun g hg => ?_, fun g hg hlong => mem_updateFirst hg fun hg' => ?_⟩
        · obtain ⟨g', hg', heq⟩ := List.mem_map.mp (hslots.subset (List.mem_map_of_mem hg))
          exact ⟨g', hg', congrArg Prod.fst heq⟩
        · have hgtag : g.vTag = fund.vTag := congrArg Prod.snd ((g.sameSlot_iff fund).mp hg')
          rw [hgtag] at hlong
          omega

/-- The same of a list of them. -/
theorem takeAll_cases {l : List CAppCFund} (hl : ∀ f ∈ l, Int32 f)
    (h : (l.map (fundOp subTagOp)).foldlM operateOne a = .ok b) :
    b.ullValues = a.ullValues ∧
      (∀ f ∈ l, 0 < f.nHeight ∧ ∃ g ∈ a.vcFreezedFund, g.nHeight = f.nHeight) ∧
      a.vcFreezedFund.length ≤ b.vcFreezedFund.length + l.length ∧
      ∀ g ∈ a.vcFreezedFund, maxTagSize < g.vTag.length → g ∈ b.vcFreezedFund := by
  induction l generalizing a with
  | nil =>
    obtain rfl := Except.ok.inj h
    exact ⟨rfl, by simp, Nat.le_refl _, fun g hg _ => hg⟩
  | cons f l ih =>
    rw [List.map_cons, List.foldlM_cons, Except.bind_eq_ok] at h
    obtain ⟨c, h1, h2⟩ := h
    obtain ⟨hfree, hpos, hfound, hlen, hheights, hlong⟩ := takeOne_cases (hl f List.mem_cons_self) h1
    obtain ⟨hfree', hall, hlen', hlong'⟩ := ih (fun g hg => hl g (List.mem_cons_of_mem f hg)) h2
    refine ⟨hfree'.trans hfree, ?_, ?_, fun g hg htag => hlong' g (hlong g hg htag) htag⟩
    · rw [List.forall_mem_cons]
      refine ⟨⟨hpos, hfound⟩, fun g hg => ?_⟩
      obtain ⟨hgpos, g', hg', heq⟩ := hall g hg
      obtain ⟨g'', hg'', heq'⟩ := hheights g' hg'
      exact ⟨hgpos, g'', hg'', heq'.trans heq⟩
    · rw [List.length_cons]
      omega

theorem eq_zero_of_not_pos {v : UInt64} (h : ¬ 0 < v) : v = 0 := by
  rw [UInt64.lt_iff_toNat_lt] at h
  refine UInt64.toNat.inj ?_
  have h0 : (0 : UInt64).toNat = 0 := rfl
  omega

/-- The operation on the free balance comes first. -/
theorem plan_run {freeType tagType : UInt8} {v : UInt64} {l : List CAppCFund} :
    (plan freeType tagType v l).foldlM operateOne a
      = (if 0 < v then a.operateOne (freeOp freeType v) else .ok a) >>= fun c =>
          (l.map (fundOp tagType)).foldlM operateOne c := by
  unfold plan
  split
  · rfl
  · rfl

/-- Of one list the funds that are planned and those that are still frozen: if for each planned one there
is a frozen one of the same height, and not fewer are planned, they are the same. -/
theorem planned_eq_frozen {l planned frozen : List CAppCFund} {p : CAppCFund → Prop} [DecidablePred p]
    {limit : ℤ} (hplanned : planned = l.filter fun f => p f)
    (hfrozen : frozen = l.filter fun f => ¬ f.nHeight ≤ limit)
    (hfound : ∀ f ∈ planned, ∃ g ∈ frozen, g.nHeight = f.nHeight)
    (hlen : frozen.length ≤ planned.length) : planned = frozen := by
  have hin : ∀ f ∈ planned, limit < f.nHeight := by
    intro f hf
    obtain ⟨g, hg, heq⟩ := hfound f hf
    rw [hfrozen, List.mem_filter] at hg
    have habove := hg.2
    simp only [decide_eq_true_eq, not_le] at habove
    omega
  have hsub : planned = frozen.filter fun f => p f := by
    rw [hplanned, hfrozen, List.filter_filter]
    refine List.filter_congr fun f hf => ?_
    by_cases hp : p f
    · have hmem : f ∈ planned := by
        rw [hplanned]
        exact List.mem_filter.mpr ⟨hf, by simpa using hp⟩
      have habove := not_le.mpr (hin f hmem)
      simp [hp, habove]
    · simp [hp]
  have hsublist : planned.Sublist frozen := by
    rw [hsub]
    exact List.filter_sublist
  exact hsublist.eq_of_length_le hlen

/-- The plan empties an account exactly when it names its free balance and its frozen funds, and each of
these can be named. -/
theorem plan_empties_iff {l planned : List CAppCFund} {p : CAppCFund → Prop} [DecidablePred p]
    {limit : ℤ} {v : UInt64} (hplanned : planned = l.filter fun f => p f)
    (hfrozen : a.vcFreezedFund = l.filter fun f => ¬ f.nHeight ≤ limit) (hint : ∀ f ∈ l, Int32 f) :
    (∃ b, (plan subFreeOp subTagOp v planned).foldlM operateOne a = .ok b ∧ b.ullValues = 0 ∧
        b.vcFreezedFund = []) ↔
      v = a.ullValues ∧ planned = a.vcFreezedFund ∧ ∀ f ∈ planned, Named f := by
  have hints : ∀ f ∈ planned, Int32 f := by
    intro f hf
    rw [hplanned] at hf
    exact hint f (List.mem_filter.mp hf).1
  rw [plan_run, operateOne_subFree rfl, freeOp_value]
  constructor
  · rintro ⟨b, hrun, hfree, hempty⟩
    rw [Except.bind_eq_ok] at hrun
    obtain ⟨c, h1, h2⟩ := hrun
    obtain ⟨hkeep, hall, hlen, hlong⟩ := takeAll_cases hints h2
    have hc : c.vcFreezedFund = a.vcFreezedFund ∧ c.ullValues + v = a.ullValues := by
      split at h1
      · split at h1
        · obtain rfl := Except.ok.inj h1
          exact ⟨rfl, UInt64.sub_add_cancel _ _⟩
        · cases h1
      · next hzero =>
        obtain rfl := Except.ok.inj h1
        rw [eq_zero_of_not_pos hzero, UInt64.add_zero]
        exact ⟨rfl, rfl⟩
    rw [hempty, hc.1, List.length_nil, Nat.zero_add] at hlen
    rw [hc.1] at hall hlong
    have heq := planned_eq_frozen hplanned hfrozen (fun f hf => (hall f hf).2) hlen
    refine ⟨?_, heq, fun f hf => ⟨(hall f hf).1, not_lt.mp fun htag => ?_⟩⟩
    · rw [← hc.2, ← hkeep, hfree, UInt64.zero_add]
    · have hin := hlong f (heq ▸ hf) htag
      rw [hempty] at hin
      cases hin
  · rintro ⟨hv, heq, hnamed⟩
    have htake (c : CAppUserAccout) (hc : c.vcFreezedFund = planned) :
        (planned.map (fundOp subTagOp)).foldlM operateOne c = .ok { c with vcFreezedFund := [] } :=
      takeAll (fun f hf => ⟨hints f hf, hnamed f hf⟩) hc
    by_cases hpos : 0 < v
    · rw [if_pos hpos, if_pos (by rw [hv]; exact UInt64.le_refl _), Except.ok_bind,
        htake { a with ullValues := a.ullValues - v } heq.symm]
      refine ⟨_, rfl, ?_, rfl⟩
      show a.ullValues - v = 0
      rw [hv, UInt64.sub_self]
    · rw [if_neg hpos, Except.ok_bind, htake a heq.symm]
      refine ⟨_, rfl, ?_, rfl⟩
      show a.ullValues = 0
      rw [← hv, eq_zero_of_not_pos hpos]

end

/-! ## Giving it all to the receiver -/

/-- What is frozen under a slot: the first fund there. -/
def held (l : List CAppCFund) (s : FundSlot) : ℕ :=
  ((l.find? fun g => g.slot = s).map CAppCFund.amount).getD 0

/-- The frozen funds have room for the new ones: under no slot the sum comes to 2^64, and a fund without an
amount comes to a slot where there is none yet. -/
structure RoomFor (l new : List CAppCFund) : Prop where
  sums : ∀ s : FundSlot, held l s + totalOf (new.filter fun f => f.slot = s) < 2 ^ 64
  zeros : ∀ pre f post, new = pre ++ f :: post → f.amount = 0 → f.slot ∉ (l ++ pre).map CAppCFund.slot

/-- One of them. -/
def RoomForOne (l : List CAppCFund) (f : CAppCFund) : Prop :=
  ∀ g, l.find? (·.sameSlot f) = some g → f.amount ≠ 0 ∧ g.amount + f.amount < 2 ^ 64

/-- The frozen funds with one more. -/
def put (l : List CAppCFund) (f : CAppCFund) : List CAppCFund :=
  match l.find? (·.sameSlot f) with
  | some _ => updateFirst (·.sameSlot f) (mergeInto f) l
  | none => l ++ [f]

section

variable {a b : CAppUserAccout} {f : CAppCFund} {l new : List CAppCFund}

theorem find?_sameSlot (l : List CAppCFund) (f : CAppCFund) :
    l.find? (·.sameSlot f) = l.find? fun g => g.slot = f.slot := by
  congr 1
  funext g
  rw [Bool.eq_iff_iff, g.sameSlot_iff f, decide_eq_true_eq]

theorem addAppCFund_room (h : RoomForOne a.vcFreezedFund f) :
    a.addAppCFund f = .ok { a with vcFreezedFund := put a.vcFreezedFund f } := by
  unfold addAppCFund put
  cases hfind : a.vcFreezedFund.find? (·.sameSlot f) with
  | none => rfl
  | some g =>
    have hne : f.nllValue ≠ 0 := fun h0 => (h g hfind).1 (congrArg UInt64.toNat h0)
    dsimp only
    rw [if_neg hne]
    rfl

theorem put_total (h : RoomForOne l f) : totalOf (put l f) = totalOf l + f.amount := by
  unfold put
  cases hfind : l.find? (·.sameSlot f) with
  | none => simp [totalOf]
  | some g =>
    obtain ⟨-, hfits⟩ := h g hfind
    have hroom : f.amount + g.amount < 2 ^ 64 := by omega
    obtain ⟨g', hg', -, hamount⟩ := mergeInto_fits hroom
    have htotal := (updateFirst_total (f := mergeInto f) hfind).1
    rw [hg'] at htotal
    have hsum : ((some g').map CAppCFund.amount).getD 0 = g'.amount := rfl
    dsimp only
    omega

/-- Without room nothing is added, or an assertion fails. -/
theorem addAppCFund_full (h : ¬ RoomForOne a.vcFreezedFund f) (hrun : a.addAppCFund f = .ok b) :
    b = a ∧ f.amount ≠ 0 := by
  unfold RoomForOne at h
  push Not at h
  obtain ⟨g, hfind, hg⟩ := h
  unfold addAppCFund at hrun
  rw [hfind] at hrun
  dsimp only at hrun
  split at hrun
  · cases hrun
  · next hne =>
    have hne' : f.amount ≠ 0 := fun h0 => hne (UInt64.toNat.inj h0)
    have hover := hg hne'
    obtain rfl : { a with vcFreezedFund := updateFirst (·.sameSlot f) (mergeInto f) a.vcFreezedFund } = b :=
      Except.ok.inj hrun
    refine ⟨?_, hne'⟩
    rw [updateFirst_congr hfind (mergeInto_over (by omega)), updateFirst_self]

/-- Each new fund in turn. -/
def RoomInTurn : List CAppCFund → List CAppCFund → Prop
  | _, [] => True
  | l, f :: new => RoomForOne l f ∧ RoomInTurn (put l f) new

theorem giveAll_funds_le (hnew : ∀ f ∈ new, Int32 f ∧ Named f)
    (h : (new.map (fundOp addTagOp)).foldlM operateOne a = .ok b) : b.funds ≤ a.funds + totalOf new := by
  induction new generalizing a with
  | nil =>
    obtain rfl := Except.ok.inj h
    exact Nat.le_add_right _ _
  | cons f new ih =>
    obtain ⟨hint, hnamed⟩ := hnew f List.mem_cons_self
    rw [List.map_cons, List.foldlM_cons, operateOne_addTag rfl, fundOp_fund hint hnamed, Except.ok_bind,
      Except.bind_eq_ok] at h
    obtain ⟨c, h1, h2⟩ := h
    have hrest := ih (fun g hg => hnew g (List.mem_cons_of_mem f hg)) h2
    have hhead : totalOf (f :: new) = f.amount + totalOf new := rfl
    obtain ⟨-, hfree, hcase⟩ := addAppCFund_cases h1
    have hc : c.funds ≤ a.funds + f.amount := by
      unfold funds
      rcases hcase with ⟨-, htotal, -⟩ | ⟨-, rfl⟩
      · rw [hfree]
        omega
      · omega
    omega

/-- All of them are added exactly when there is room for each in turn. -/
theorem giveAll_iff (hnew : ∀ f ∈ new, Int32 f ∧ Named f) :
    (∃ b, (new.map (fundOp addTagOp)).foldlM operateOne a = .ok b ∧ b.funds = a.funds + totalOf new) ↔
      RoomInTurn a.vcFreezedFund new := by
  induction new generalizing a with
  | nil => exact iff_of_true ⟨a, rfl, rfl⟩ trivial
  | cons f new ih =>
    obtain ⟨hint, hnamed⟩ := hnew f List.mem_cons_self
    have hrest : ∀ g ∈ new, Int32 g ∧ Named g := fun g hg => hnew g (List.mem_cons_of_mem f hg)
    have hhead : totalOf (f :: new) = f.amount + totalOf new := rfl
    rw [List.map_cons, List.foldlM_cons, operateOne_addTag rfl, fundOp_fund hint hnamed, Except.ok_bind]
    by_cases hroom : RoomForOne a.vcFreezedFund f
    · have htotal := put_total hroom
      have hfunds : ({ a with vcFreezedFund := put a.vcFreezedFund f } : CAppUserAccout).funds
          = a.funds + f.amount := by
        unfold funds
        dsimp only
        omega
      have hlater := ih (a := { a with vcFreezedFund := put a.vcFreezedFund f }) hrest
      rw [hfunds, Nat.add_assoc, ← hhead] at hlater
      rw [addAppCFund_room hroom, Except.ok_bind, RoomInTurn, and_iff_right hroom]
      exact hlater
    · refine iff_of_false ?_ fun h => hroom h.1
      rintro ⟨b, hrun, hb⟩
      rw [Except.bind_eq_ok] at hrun
      obtain ⟨c, h1, h2⟩ := hrun
      obtain ⟨rfl, hpos⟩ := addAppCFund_full hroom h1
      have hle := giveAll_funds_le hrest h2
      omega

/-! ### In turn, or in sum -/

theorem mergeInto_some (f g : CAppCFund) : ∃ g', mergeInto f g = some g' ∧ g'.slot = g.slot := by
  unfold mergeInto
  split
  · exact ⟨_, rfl, rfl⟩
  · exact ⟨_, rfl, rfl⟩

theorem updateFirst_slots (p : CAppCFund → Bool) (f : CAppCFund) (l : List CAppCFund) :
    (updateFirst p (mergeInto f) l).map CAppCFund.slot = l.map CAppCFund.slot := by
  induction l with
  | nil => rfl
  | cons g l ih =>
    obtain ⟨g', hg', hslot⟩ := mergeInto_some f g
    rw [updateFirst, hg']
    split
    · show g'.slot :: l.map CAppCFund.slot = g.slot :: l.map CAppCFund.slot
      rw [hslot]
    · rw [List.map_cons, ih, List.map_cons]

theorem put_slots (l : List CAppCFund) (f : CAppCFund) (s : FundSlot) :
    s ∈ (put l f).map CAppCFund.slot ↔ s ∈ l.map CAppCFund.slot ∨ s = f.slot := by
  unfold put
  cases hfind : l.find? (·.sameSlot f) with
  | none => simp
  | some g =>
    have hsame : g.sameSlot f = true := by simpa using List.find?_some hfind
    have hin : f.slot ∈ l.map CAppCFund.slot := by
      rw [← (g.sameSlot_iff f).mp hsame]
      exact List.mem_map_of_mem (List.mem_of_find?_eq_some hfind)
    dsimp only
    rw [updateFirst_slots]
    constructor
    · exact Or.inl
    · rintro (h | rfl)
      · exact h
      · exact hin

theorem held_cons (g : CAppCFund) (l : List CAppCFund) (s : FundSlot) :
    held (g :: l) s = if g.slot = s then g.amount else held l s := by
  unfold held
  by_cases h : g.slot = s
  · rw [if_pos h, List.find?_cons_of_pos (by simpa using h)]
    rfl
  · rw [if_neg h, List.find?_cons_of_neg (by simpa using h)]

/-- One more fund adds to what is held under its slot. -/
theorem held_put (h : RoomForOne l f) (s : FundSlot) :
    held (put l f) s = held l s + if f.slot = s then f.amount else 0 := by
  induction l with
  | nil =>
    show held [f] s = 0 + _
    rw [held_cons, Nat.zero_add]
    rfl
  | cons g l ih =>
    have hself := g.sameSlot_iff f
    by_cases hg : g.slot = f.slot
    · have hsame := hself.mpr hg
      have hfind : (g :: l).find? (·.sameSlot f) = some g := List.find?_cons_of_pos hsame
      obtain ⟨-, hfits⟩ := h g hfind
      have hroom : f.amount + g.amount < 2 ^ 64 := by omega
      obtain ⟨g', hg', hslot, hamount⟩ := mergeInto_fits hroom
      have hput : put (g :: l) f = g' :: l := by
        unfold put
        rw [hfind]
        dsimp only
        rw [updateFirst, if_pos hsame, hg']
        rfl
      rw [hput, held_cons, held_cons, hslot, hg]
      split
      · exact hamount
      · rfl
    · have hother : ¬ g.sameSlot f = true := fun hs => hg (hself.mp hs)
      have hfind : (g :: l).find? (·.sameSlot f) = l.find? (·.sameSlot f) :=
        List.find?_cons_of_neg hother
      have hput : put (g :: l) f = g :: put l f := by
        unfold put
        rw [hfind]
        cases l.find? (·.sameSlot f) with
        | none => rfl
        | some old =>
          dsimp only
          rw [updateFirst, if_neg hother]
      have hroom : RoomForOne l f := fun old hold => h old (hfind.trans hold)
      rw [hput, held_cons, held_cons, ih hroom]
      by_cases hs : g.slot = s
      · have hne : f.slot ≠ s := fun he => hg (hs.trans he.symm)
        rw [if_pos hs, if_pos hs, if_neg hne]
        rfl
      · rw [if_neg hs, if_neg hs]

/-- There is room for one fund more. -/
theorem roomForOne_iff :
    RoomForOne l f ↔ (f.amount = 0 → f.slot ∉ l.map CAppCFund.slot) ∧ held l f.slot + f.amount < 2 ^ 64 := by
  have hlt : f.amount < 2 ^ 64 := f.nllValue.toNat_lt
  unfold RoomForOne held
  rw [find?_sameSlot]
  cases hfind : l.find? fun g => g.slot = f.slot with
  | none =>
    have hnot : f.slot ∉ l.map CAppCFund.slot := by
      intro hmem
      obtain ⟨g, hg, hslot⟩ := List.mem_map.mp hmem
      exact List.find?_eq_none.mp hfind g hg (by simpa using hslot)
    refine iff_of_true ?_ ⟨fun _ => hnot, ?_⟩
    · intro g hg
      cases hg
    · show 0 + f.amount < 2 ^ 64
      omega
  | some g =>
    have hslot : g.slot = f.slot := by simpa using List.find?_some hfind
    have hin : f.slot ∈ l.map CAppCFund.slot := by
      rw [← hslot]
      exact List.mem_map_of_mem (List.mem_of_find?_eq_some hfind)
    constructor
    · intro h
      obtain ⟨hne, hfits⟩ := h g rfl
      exact ⟨fun h0 => absurd h0 hne, hfits⟩
    · rintro ⟨hzero, hfits⟩ old hold
      obtain rfl := Option.some.inj hold
      exact ⟨fun h0 => hzero h0 hin, hfits⟩

theorem held_lt (l : List CAppCFund) (s : FundSlot) : held l s < 2 ^ 64 := by
  unfold held
  cases l.find? fun g => g.slot = s with
  | none => exact Nat.two_pow_pos 64
  | some g => exact g.nllValue.toNat_lt

/-- The slots in use once `f` has come, and some more. -/
theorem notMem_put_append (l pre : List CAppCFund) (f : CAppCFund) (s : FundSlot) :
    s ∉ (put l f ++ pre).map CAppCFund.slot ↔ s ∉ (l ++ f :: pre).map CAppCFund.slot := by
  rw [List.map_append, List.mem_append, put_slots, List.map_append, List.mem_append, List.map_cons,
    List.mem_cons, or_assoc]

/-- Room for each in turn is room for their sums. -/
theorem roomInTurn_iff : RoomInTurn l new ↔ RoomFor l new := by
  induction new generalizing l with
  | nil =>
    refine iff_of_true trivial ⟨fun s => held_lt l s, fun pre f post h => ?_⟩
    cases pre with
    | nil => cases h
    | cons g pre => cases h
  | cons f new ih =>
    rw [RoomInTurn, ih]
    have hsum (s : FundSlot) : totalOf ((f :: new).filter fun g => g.slot = s)
        = (if f.slot = s then f.amount else 0) + totalOf (new.filter fun g => g.slot = s) := by
      by_cases hs : f.slot = s
      · rw [if_pos hs, List.filter_cons_of_pos (by simpa using hs)]
        rfl
      · rw [if_neg hs, List.filter_cons_of_neg (by simpa using hs), Nat.zero_add]
    constructor
    · rintro ⟨hone, hrest⟩
      refine ⟨fun s => ?_, fun pre g post hsplit hzero => ?_⟩
      · rw [hsum, ← Nat.add_assoc, ← held_put hone]
        exact hrest.sums s
      · cases pre with
        | nil =>
          obtain ⟨rfl, rfl⟩ := List.cons.inj hsplit
          rw [List.append_nil]
          exact (roomForOne_iff.mp hone).1 hzero
        | cons f' pre =>
          obtain ⟨rfl, rfl⟩ := List.cons.inj hsplit
          exact (notMem_put_append l pre f g.slot).mp (hrest.zeros pre g post rfl hzero)
    · intro h
      have hone : RoomForOne l f := by
        refine roomForOne_iff.mpr ⟨fun hzero => ?_, ?_⟩
        · have hnot := h.zeros [] f new rfl hzero
          rwa [List.append_nil] at hnot
        · have hlt := h.sums f.slot
          rw [hsum, if_pos rfl] at hlt
          omega
      refine ⟨hone, fun s => ?_, fun pre g post hsplit hzero => ?_⟩
      · rw [held_put hone, Nat.add_assoc, ← hsum]
        exact h.sums s
      · refine (notMem_put_append l pre f g.slot).mpr (h.zeros (f :: pre) g post ?_ hzero)
        rw [hsplit]
        rfl

/-- The plan raises the receiver by all of it exactly when its free balance and its frozen funds have room
for it. -/
theorem plan_gives_iff {v : UInt64} (hnew : ∀ f ∈ new, Int32 f ∧ Named f) :
    (∃ b, (plan addFreeOp addTagOp v new).foldlM operateOne a = .ok b ∧
        b.funds = a.funds + v.toNat + totalOf new) ↔
      a.ullValues.toNat + v.toNat < 2 ^ 64 ∧ RoomFor a.vcFreezedFund new := by
  rw [plan_run, operateOne_addFree rfl, freeOp_value, ← roomInTurn_iff]
  by_cases hpos : 0 < v
  · rw [if_pos hpos]
    by_cases hfits : a.ullValues.toNat + v.toNat < 2 ^ 64
    · have hsum : (a.ullValues + v).toNat = a.ullValues.toNat + v.toNat := by
        rw [UInt64.toNat_add, Nat.mod_eq_of_lt hfits]
      have hfunds : ({ a with ullValues := a.ullValues + v } : CAppUserAccout).funds = a.funds + v.toNat := by
        unfold funds
        dsimp only
        omega
      have hgive := giveAll_iff (a := { a with ullValues := a.ullValues + v }) hnew
      rw [hfunds] at hgive
      rw [if_pos hfits, Except.ok_bind, and_iff_right hfits]
      exact hgive
    · rw [if_neg hfits]
      refine iff_of_false ?_ fun h => hfits h.1
      rintro ⟨b, hrun, -⟩
      cases hrun
  · rw [if_neg hpos, Except.ok_bind, eq_zero_of_not_pos hpos]
    have hlt : a.ullValues.toNat + (0 : UInt64).toNat < 2 ^ 64 := a.ullValues.toNat_lt
    rw [and_iff_right hlt]
    exact giveAll_iff hnew

end

/-! ## The two limits -/

section

variable {a b : CAppUserAccout} {tipLimit runLimit : ℤ}

/-- What is planned, from the account unfrozen at the tip. -/
def plannedFrom (tipLimit : ℤ) (a : CAppUserAccout) : CAppUserAccout :=
  if a.HasRoom tipLimit then a.thawed tipLimit
  else { a with ullValues := mergedUntil tipLimit a.ullValues a.vcFreezedFund }

/-- The funds matured at the tip are those matured at the height of the run.  Or the loop at the tip fails
at its first amount, and none has matured at the height of the run. -/
def LimitsAgree (tipLimit runLimit : ℤ) (a : CAppUserAccout) : Prop :=
  (a.HasRoom tipLimit ∧ ∀ f ∈ a.vcFreezedFund, (f.nHeight ≤ tipLimit ↔ f.nHeight ≤ runLimit)) ∨
    (¬ a.HasRoom tipLimit ∧ BlockedAtOnce tipLimit a.ullValues a.vcFreezedFund ∧
      ∀ f ∈ a.vcFreezedFund, ¬ f.nHeight ≤ runLimit)

theorem stillFrozen_congr
    (h : ∀ f ∈ a.vcFreezedFund, (f.nHeight ≤ tipLimit ↔ f.nHeight ≤ runLimit)) :
    a.thawed tipLimit = a.thawed runLimit := by
  have hmatured : a.matured tipLimit = a.matured runLimit := congrArg totalOf (filter_eq_iff.mpr h)
  have hfrozen : a.stillFrozen tipLimit = a.stillFrozen runLimit :=
    filter_eq_iff.mpr fun f hf => not_congr (h f hf)
  unfold thawed
  rw [hmatured, hfrozen]

/-- Then, and only then, what is planned is what there is. -/
theorem plannedFrom_eq_iff :
    (plannedFrom tipLimit a).ullValues = (a.thawed runLimit).ullValues ∧
        (plannedFrom tipLimit a).vcFreezedFund = (a.thawed runLimit).vcFreezedFund ↔
      LimitsAgree tipLimit runLimit a := by
  unfold plannedFrom LimitsAgree
  by_cases hroom : a.HasRoom tipLimit
  · rw [if_pos hroom]
    constructor
    · rintro ⟨-, hfrozen⟩
      refine .inl ⟨hroom, fun f hf => not_iff_not.mp ?_⟩
      exact filter_eq_iff.mp hfrozen f hf
    · rintro (⟨-, hsame⟩ | ⟨hno, -⟩)
      · rw [stillFrozen_congr hsame]
        exact ⟨rfl, rfl⟩
      · exact absurd hroom hno
  · rw [if_neg hroom]
    have hthaw (hnone : ∀ f ∈ a.vcFreezedFund, ¬ f.nHeight ≤ runLimit) :
        (a.thawed runLimit).ullValues = a.ullValues ∧ a.stillFrozen runLimit = a.vcFreezedFund := by
      have hempty : (a.vcFreezedFund.filter fun f => f.nHeight ≤ runLimit) = [] := by
        rw [List.filter_eq_nil_iff]
        simpa using hnone
      refine ⟨?_, ?_⟩
      · unfold thawed matured
        rw [hempty]
        exact UInt64.add_zero _
      · unfold stillFrozen
        rw [List.filter_eq_self]
        simpa using hnone
    constructor
    · rintro ⟨hfree, hfrozen⟩
      have hnone : ∀ f ∈ a.vcFreezedFund, ¬ f.nHeight ≤ runLimit := by
        intro f hf
        have hmem : f ∈ a.stillFrozen runLimit := by
          rw [← show a.vcFreezedFund = a.stillFrozen runLimit from hfrozen]
          exact hf
        exact not_le.mpr (stillFrozen_above hmem)
      rw [(hthaw hnone).1] at hfree
      exact .inr ⟨hroom, (mergedUntil_eq_iff (mergeFunds_over hroom)).mp hfree, hnone⟩
    · rintro (⟨hyes, -⟩ | ⟨-, hblocked, hnone⟩)
      · exact absurd hyes hroom
      · refine ⟨?_, (hthaw hnone).2.symm⟩
        rw [(hthaw hnone).1]
        exact (mergedUntil_eq_iff (mergeFunds_over hroom)).mpr hblocked

theorem thawed_funds (h : a.HasRoom runLimit) : (a.thawed runLimit).funds = a.funds := by
  rw [funds_eq runLimit a, ← thawed_free h]
  rfl

/-- What is planned is some of the frozen funds. -/
theorem plannedFrom_filter (tipLimit : ℤ) (a : CAppUserAccout) :
    ∃ (p : CAppCFund → Prop) (_ : DecidablePred p),
      (plannedFrom tipLimit a).vcFreezedFund = a.vcFreezedFund.filter fun f => p f := by
  unfold plannedFrom
  split
  · exact ⟨fun f => ¬ f.nHeight ≤ tipLimit, inferInstance, rfl⟩
  · refine ⟨fun _ => True, inferInstance, ?_⟩
    simp

/-- Operations that only take bring no slot. -/
theorem subOps_slots {ops : List CAppFundOperate}
    (hops : ∀ op ∈ ops, op.uchOpeatorType = subFreeOp ∨ op.uchOpeatorType = subTagOp)
    (h : ops.foldlM operateOne a = .ok b) :
    (b.vcFreezedFund.map CAppCFund.slot).Sublist (a.vcFreezedFund.map CAppCFund.slot) := by
  induction ops generalizing a with
  | nil =>
    obtain rfl := Except.ok.inj h
    exact List.Sublist.refl _
  | cons op ops ih =>
    rw [List.foldlM_cons, Except.bind_eq_ok] at h
    obtain ⟨c, h1, h2⟩ := h
    have hrest := ih (fun o ho => hops o (List.mem_cons_of_mem op ho)) h2
    refine hrest.trans ?_
    rcases hops op List.mem_cons_self with hfree | htag
    · rw [operateOne_subFree hfree] at h1
      split at h1
      · obtain rfl := Except.ok.inj h1
        exact List.Sublist.refl _
      · cases h1
    · rw [operateOne_subTag htag, Except.bind_eq_ok] at h1
      obtain ⟨fund, -, h1⟩ := h1
      exact minusAppCFund_slots h1

end

end CAppUserAccout

/-! ## The whole of it -/

open CAppUserAccout (HasRoom thawed matured stillFrozen plannedFrom LimitsAgree Named Int32 RoomFor)

/-- `OpeatorAppAccount` applies the output, the sender's account is empty afterwards, and the receiver's funds
have risen by what the sender's were. -/
def HandsOver (chainActive : PBlockIndex) (des : CRegID) (nHeight : ℤ) (s : CScriptDBViewCache)
    (send recv : Bytes) (out : AppOutput) : Prop :=
  ∃ w, CVmRunEvn.opeatorAppAccount chainActive des nHeight s (CVmRunEvn.mapAppOperate out) = .ok w ∧
    (∃ b, w.scriptDB.getScriptAcc des send = .ok (some b) ∧ b.ullValues = 0 ∧ b.vcFreezedFund = []) ∧
    appFunds w.scriptDB des recv = appFunds s des recv + appFunds s des send

/-- Everything can move from `a` to `r`: there is something, both heights see the same of it, each fund can
be named, and `r` has room for all. -/
structure Movable (tipLimit runLimit : ℤ) (a r : CAppUserAccout) : Prop where
  moves : 0 < a.ullValues.toNat + a.matured runLimit ∨ a.stillFrozen runLimit ≠ []
  agree : LimitsAgree tipLimit runLimit a
  named : ∀ f ∈ a.stillFrozen runLimit, Named f
  free : r.ullValues.toNat + r.matured runLimit + (a.ullValues.toNat + a.matured runLimit) < 2 ^ 64
  frozen : RoomFor (r.stillFrozen runLimit) (a.stillFrozen runLimit)

/-- The call has returned true, and left `out`. -/
structure Returned (node : Node) (view : CAccountViewCache) (des src : CRegID) (recv : Bytes)
    (s : CScriptDBViewCache) (a : CAppUserAccout) (out : AppOutput) : Prop where
  stored : s.getScriptAcc des (sendAddress node view src) = .ok (some a)
  length : recv.length = 34
  valid : receiverValid node view src recv = true
  call : exTransferContactAsset node view des src recv (some a) [] = .ok out

section

variable {node : Node} {view : CAccountViewCache} {des src : CRegID} {recv : Bytes}
  {s : CScriptDBViewCache} {a : CAppUserAccout} {r : Option CAppUserAccout} {out : AppOutput}
  {tip : CBlockIndex} {rest : List CBlockIndex} {tipLimit runLimit nHeight : ℤ}

theorem plan_eq_nil {freeType tagType : UInt8} {v : UInt64} {l : List CAppCFund} :
    plan freeType tagType v l = [] ↔ v = 0 ∧ l = [] := by
  unfold plan
  rw [List.append_eq_nil_iff, List.map_eq_nil_iff]
  refine and_congr_left fun _ => ?_
  by_cases hpos : 0 < v
  · rw [if_pos hpos]
    refine iff_of_false (List.cons_ne_nil _ _) ?_
    rintro rfl
    exact absurd hpos (by decide)
  · rw [if_neg hpos]
    exact iff_of_true rfl (CAppUserAccout.eq_zero_of_not_pos hpos)

theorem plan_type {freeType tagType : UInt8} {v : UInt64} {l : List CAppCFund} {op : CAppFundOperate}
    (h : op ∈ plan freeType tagType v l) : op.uchOpeatorType = freeType ∨ op.uchOpeatorType = tagType := by
  rcases List.mem_append.mp h with hfree | htag
  · left
    split at hfree
    · rw [List.mem_singleton.mp hfree]
      rfl
    · cases hfree
  · right
    obtain ⟨f, -, rfl⟩ := List.mem_map.mp htag
    rfl

theorem plan_length (freeType tagType : UInt8) (v : UInt64) (l : List CAppCFund) :
    (plan freeType tagType v l).length ≤ l.length + 1 := by
  unfold plan
  split
  · simp
  · simp

theorem Returned.asks (h : Returned node view des src recv s a out)
    (hchain : node.chainActive = tip :: rest)
    (htip : freezeLimit node.chainActive des.uHeight tip.nHeight = .ok tipLimit) :
    Asks (sendAddress node view src) recv out
      (plan subFreeOp subTagOp (plannedFrom tipLimit a).ullValues (plannedFrom tipLimit a).vcFreezedFund)
      (plan addFreeOp addTagOp (plannedFrom tipLimit a).ullValues (plannedFrom tipLimit a).vcFreezedFund) :=
  exTransferContactAsset_asks h.length h.valid (autoMerged_eq hchain htip a) h.call

/-- Only the two have entries. -/
theorem Asks.mem {send : Bytes} {minus add : List CAppFundOperate} (h : Asks send recv out minus add)
    {item : Bytes × List CAppFundOperate} (hitem : item ∈ CVmRunEvn.mapAppOperate out) :
    item = (send, minus) ∨ item = (recv, add) := by
  obtain ⟨hops, hne⟩ := CVmRunEvn.mem_mapAppOperate.mp hitem
  by_cases hsend : item.1 = send
  · left
    rw [hsend, h.ofSend] at hops
    exact Prod.ext hsend hops
  by_cases hrecv : item.1 = recv
  · right
    rw [hrecv, h.ofRecv] at hops
    exact Prod.ext hrecv hops
  · rw [h.others item.1 hsend hrecv] at hops
    exact absurd hops hne

/-- Out-heights that have been read are `int`s, and their funds can be written again. -/
theorem stored_storable {u : Bytes} (h : s.getScriptAcc des u = .ok (some a)) :
    ∀ f ∈ a.vcFreezedFund, CAppCFund.Storable f.slot := by
  obtain ⟨v, more, hread⟩ := getScriptAcc_read h
  exact CAppUserAccout.returns_codec v a more hread

theorem appFunds_stored {u : Bytes} (h : s.getScriptAcc des u = .ok r) :
    appFunds s des u = (r.getD (CAppUserAccout.ofUser u)).funds := by
  unfold appFunds
  rw [h]
  cases r with
  | none => rfl
  | some a => rfl

theorem getScriptAcc_of_record {u : Bytes} {b : CAppUserAccout} (hfits : b.Fits)
    (h : s.getData (CScriptDBViewCache.scriptAccKey des.getVec6 u)
      = some (CAppUserAccout.codec.write b)) : s.getScriptAcc des u = .ok (some b.reread) := by
  unfold CScriptDBViewCache.getScriptAcc
  rw [h]
  dsimp only
  rw [CAppUserAccout.read_write hfits]

/-- A user's account as it is loaded, when it can be. -/
theorem loadedAccount_ok {u : Bytes} {b : CAppUserAccout}
    (hrun : freezeLimit node.chainActive des.uHeight nHeight = .ok runLimit)
    (hr : s.getScriptAcc des u = .ok r)
    (h : loadedAccount node.chainActive s des nHeight u = .ok b) :
    (r.getD (CAppUserAccout.ofUser u)).HasRoom runLimit ∧
      b = (r.getD (CAppUserAccout.ofUser u)).thawed runLimit := by
  rw [loadedAccount_eq hrun hr] at h
  split at h
  · next hroom => exact ⟨hroom, (Except.ok.inj h).symm⟩
  · cases h

/-- What the application of both plans leaves. -/
theorem applied {send : Bytes} {p : CAppUserAccout} {w : CVmRunEvn.AppWork}
    (hasks : Asks send recv out (plan subFreeOp subTagOp p.ullValues p.vcFreezedFund)
      (plan addFreeOp addTagOp p.ullValues p.vcFreezedFund))
    (hne : plan subFreeOp subTagOp p.ullValues p.vcFreezedFund ≠ [])
    (hcount : p.vcFreezedFund.length ≤ a.vcFreezedFund.length)
    (hrun : freezeLimit node.chainActive des.uHeight nHeight = .ok runLimit)
    (hs : s.getScriptAcc des send = .ok (some a)) (hr : s.getScriptAcc des recv = .ok r)
    (hlength : recv.length = 34) (hown : ∀ u, u = send ∨ u = recv → OwnRecord s des u)
    (hroom : frozenCount s des recv + a.vcFreezedFund.length < maxSize)
    (hw : CVmRunEvn.opeatorAppAccount node.chainActive des nHeight s (CVmRunEvn.mapAppOperate out) = .ok w) :
    ∃ b c, a.HasRoom runLimit ∧ (r.getD (CAppUserAccout.ofUser recv)).HasRoom runLimit ∧
      (plan subFreeOp subTagOp p.ullValues p.vcFreezedFund).foldlM CAppUserAccout.operateOne
        (a.thawed runLimit) = .ok b ∧
      (plan addFreeOp addTagOp p.ullValues p.vcFreezedFund).foldlM CAppUserAccout.operateOne
        ((r.getD (CAppUserAccout.ofUser recv)).thawed runLimit) = .ok c ∧
      w.scriptDB.getScriptAcc des send = .ok (some b.reread) ∧ appFunds w.scriptDB des recv = c.funds := by
  have hne' : plan addFreeOp addTagOp p.ullValues p.vcFreezedFund ≠ [] := by
    rw [Ne, plan_eq_nil] at hne ⊢
    exact hne
  have hall : ∀ item ∈ CVmRunEvn.mapAppOperate out, OwnRecord s des item.1 := by
    intro item hitem
    rcases hasks.mem hitem with rfl | rfl
    · exact hown send (.inl rfl)
    · exact hown recv (.inr rfl)
  obtain ⟨-, husers⟩ := CVmRunEvn.opeatorAppAccount_users (CVmRunEvn.mapAppOperate_nodup out) hall hw
  obtain ⟨x, b, hx, hb, hbdata⟩ := husers (send, _)
    (CVmRunEvn.mem_mapAppOperate.mpr ⟨hasks.ofSend.symm, hne⟩)
  obtain ⟨y, c, hy, hc, hcdata⟩ := husers (recv, _)
    (CVmRunEvn.mem_mapAppOperate.mpr ⟨hasks.ofRecv.symm, hne'⟩)
  obtain ⟨hxroom, rfl⟩ := loadedAccount_ok hrun hs hx
  obtain ⟨hyid, -, hyslots, hycount⟩ := CVmRunEvn.loadedAccount_cases (hown recv (.inr rfl)) hy
  obtain ⟨hyroom, rfl⟩ := loadedAccount_ok hrun hr hy
  have hmax : 40 < maxSize := by norm_num [maxSize]
  have hbfits : b.Fits := by
    have hsub := (CAppUserAccout.subOps_slots (fun _ => plan_type) hb).trans
      (List.Sublist.map CAppCFund.slot (List.filter_sublist (l := a.vcFreezedFund)))
    refine ⟨?_, ?_, fun f hf => ?_⟩
    · rw [CAppUserAccout.foldlM_operateOne_user hb]
      show a.vuchAccUserID.length ≤ maxSize
      have hsend := hasks.fits hne
      rw [hown send (.inl rfl) a hs]
      unfold maxTagSize at hsend
      omega
    · have hle := hsub.length_le
      rw [List.length_map, List.length_map] at hle
      omega
    · obtain ⟨g, hg, hslot⟩ := List.mem_map.mp (hsub.subset (List.mem_map_of_mem hf))
      rw [← hslot]
      exact stored_storable hs g hg
  have hcfits : c.Fits := by
    refine CAppUserAccout.Fits.operate ?_ ?_ hyslots (CAppUserAccout.foldlM_operateOne_user hc) hc
    · rw [hyid, hlength]
      omega
    · have hplan := plan_length addFreeOp addTagOp p.ullValues p.vcFreezedFund
      show _ + (plan addFreeOp addTagOp p.ullValues p.vcFreezedFund).length ≤ maxSize
      omega
  exact ⟨b, c, hxroom, hyroom, hb, hc, getScriptAcc_of_record hbfits hbdata,
    appFunds_of_record hcfits hcdata⟩

/-- Where something is planned. -/
theorem handsOver_iff {p : CAppUserAccout}
    (hasks : Asks (sendAddress node view src) recv out (plan subFreeOp subTagOp p.ullValues p.vcFreezedFund)
      (plan addFreeOp addTagOp p.ullValues p.vcFreezedFund))
    (hne : plan subFreeOp subTagOp p.ullValues p.vcFreezedFund ≠ [])
    (hcount : p.vcFreezedFund.length ≤ a.vcFreezedFund.length)
    (hrun : freezeLimit node.chainActive des.uHeight nHeight = .ok runLimit)
    (h : Returned node view des src recv s a out) (hr : s.getScriptAcc des recv = .ok r)
    (hown : ∀ u, u = sendAddress node view src ∨ u = recv → OwnRecord s des u)
    (hroom : frozenCount s des recv + a.vcFreezedFund.length < maxSize) :
    HandsOver node.chainActive des nHeight s (sendAddress node view src) recv out ↔
      (a.HasRoom runLimit ∧ ∃ b, (plan subFreeOp subTagOp p.ullValues p.vcFreezedFund).foldlM
          CAppUserAccout.operateOne (a.thawed runLimit) = .ok b ∧ b.ullValues = 0 ∧ b.vcFreezedFund = []) ∧
        (r.getD (CAppUserAccout.ofUser recv)).HasRoom runLimit ∧
          ∃ c, (plan addFreeOp addTagOp p.ullValues p.vcFreezedFund).foldlM CAppUserAccout.operateOne
              ((r.getD (CAppUserAccout.ofUser recv)).thawed runLimit) = .ok c ∧
            c.funds = (r.getD (CAppUserAccout.ofUser recv)).funds + a.funds := by
  have hfunds := appFunds_stored hr
  have hfunds' : appFunds s des (sendAddress node view src) = a.funds := appFunds_stored h.stored
  constructor
  · rintro ⟨w, hw, ⟨b', hb', hfree, hempty⟩, hmoved⟩
    obtain ⟨b, c, hxroom, hyroom, hb, hc, hbread, hcread⟩ :=
      applied hasks hne hcount hrun h.stored hr h.length hown hroom hw
    obtain rfl := Option.some.inj (Except.ok.inj (hb'.symm.trans hbread))
    refine ⟨⟨hxroom, b, hb, hfree, List.map_eq_nil_iff.mp hempty⟩, hyroom, c, hc, ?_⟩
    rw [← hcread, hmoved, hfunds, hfunds']
  · rintro ⟨⟨hxroom, b, hb, hfree, hempty⟩, hyroom, c, hc, hmoved⟩
    have hok : ∀ item ∈ CVmRunEvn.mapAppOperate out, item.2 ≠ [] ∧ ∃ x y,
        loadedAccount node.chainActive s des nHeight item.1 = .ok x ∧
          item.2.foldlM CAppUserAccout.operateOne x = .ok y := by
      intro item hitem
      refine ⟨CVmRunEvn.mapAppOperate_ne_nil out item hitem, ?_⟩
      rcases hasks.mem hitem with rfl | rfl
      · exact ⟨_, b, (loadedAccount_eq hrun h.stored).trans (if_pos hxroom), hb⟩
      · exact ⟨_, c, (loadedAccount_eq hrun hr).trans (if_pos hyroom), hc⟩
    have hall : ∀ item ∈ CVmRunEvn.mapAppOperate out, OwnRecord s des item.1 := by
      intro item hitem
      rcases hasks.mem hitem with rfl | rfl
      · exact hown _ (.inl rfl)
      · exact hown _ (.inr rfl)
    obtain ⟨w, hw⟩ := CVmRunEvn.opeatorAppAccount_ok (w := ⟨s, [], []⟩)
      (CVmRunEvn.mapAppOperate_nodup out) hall hok
    obtain ⟨b', c', -, -, hb', hc', hbread, hcread⟩ :=
      applied hasks hne hcount hrun h.stored hr h.length hown hroom hw
    obtain rfl := Except.ok.inj (hb.symm.trans hb')
    obtain rfl := Except.ok.inj (hc.symm.trans hc')
    refine ⟨w, hw, ⟨b.reread, hbread, hfree, ?_⟩, ?_⟩
    · show b.vcFreezedFund.map CAppCFund.reread = []
      rw [hempty]
      rfl
    · rw [hcread, hmoved, hfunds, hfunds']

/-- What is planned is no more than what there is. -/
theorem plannedFrom_length (tipLimit : ℤ) (a : CAppUserAccout) :
    (plannedFrom tipLimit a).vcFreezedFund.length ≤ a.vcFreezedFund.length := by
  obtain ⟨p, _, hp⟩ := CAppUserAccout.plannedFrom_filter tipLimit a
  rw [hp]
  exact List.length_filter_le _ _

/-- Nothing is planned: nothing moves, and only an empty account is left empty. -/
theorem handsOver_nothing {send : Bytes} (hasks : Asks send recv out [] [])
    (hs : s.getScriptAcc des send = .ok (some a)) :
    HandsOver node.chainActive des nHeight s send recv out ↔ a.ullValues = 0 ∧ a.vcFreezedFund = [] := by
  have hnone : CVmRunEvn.mapAppOperate out = [] := by
    refine List.eq_nil_iff_forall_not_mem.mpr fun item hitem => ?_
    refine CVmRunEvn.mapAppOperate_ne_nil out item hitem ?_
    rcases hasks.mem hitem with rfl | rfl
    · rfl
    · rfl
  unfold HandsOver
  rw [hnone]
  constructor
  · rintro ⟨w, hw, ⟨b, hb, hfree, hempty⟩, -⟩
    obtain rfl := Except.ok.inj hw
    obtain rfl := Option.some.inj (Except.ok.inj (hs.symm.trans hb))
    exact ⟨hfree, hempty⟩
  · rintro ⟨hfree, hempty⟩
    refine ⟨⟨s, [], []⟩, rfl, ⟨a, hs, hfree, hempty⟩, ?_⟩
    have hzero : appFunds s des send = 0 := by
      rw [appFunds_stored hs]
      show a.ullValues.toNat + CAppCFund.totalOf a.vcFreezedFund = 0
      rw [hfree, hempty]
      rfl
    rw [hzero, Nat.add_zero]

theorem Movable.rooms {b : CAppUserAccout} (h : Movable tipLimit runLimit a b) :
    a.HasRoom runLimit ∧ b.HasRoom runLimit := by
  have hfree := h.free
  unfold CAppUserAccout.HasRoom
  constructor
  · omega
  · omega

/-- Nothing is planned from an empty account. -/
theorem plan_of_empty (hfree : a.ullValues = 0) (hempty : a.vcFreezedFund = []) :
    plan subFreeOp subTagOp (plannedFrom tipLimit a).ullValues (plannedFrom tipLimit a).vcFreezedFund
      = [] := by
  have hmatured : a.matured tipLimit = 0 := by
    unfold CAppUserAccout.matured
    rw [hempty]
    rfl
  have hroom : a.HasRoom tipLimit := by
    unfold CAppUserAccout.HasRoom
    rw [hfree, hmatured]
    decide
  refine plan_eq_nil.mpr ?_
  unfold CAppUserAccout.plannedFrom
  rw [if_pos hroom]
  refine ⟨?_, ?_⟩
  · show a.ullValues + UInt64.ofNat (a.matured tipLimit) = 0
    rw [hfree, hmatured]
    rfl
  · show a.stillFrozen tipLimit = []
    unfold CAppUserAccout.stillFrozen
    rw [hempty]
    rfl

/-- Both plans can be carried out in full exactly when all can move. -/
theorem movable_iff {b : CAppUserAccout} (hints : ∀ f ∈ a.vcFreezedFund, Int32 f)
    (hne : plan subFreeOp subTagOp (plannedFrom tipLimit a).ullValues
      (plannedFrom tipLimit a).vcFreezedFund ≠ []) :
    ((a.HasRoom runLimit ∧ (plannedFrom tipLimit a).ullValues = (a.thawed runLimit).ullValues ∧
          (plannedFrom tipLimit a).vcFreezedFund = (a.thawed runLimit).vcFreezedFund ∧
          ∀ f ∈ (plannedFrom tipLimit a).vcFreezedFund, Named f) ∧
        b.HasRoom runLimit ∧ ∃ c, (plan addFreeOp addTagOp (plannedFrom tipLimit a).ullValues
              (plannedFrom tipLimit a).vcFreezedFund).foldlM CAppUserAccout.operateOne
            (b.thawed runLimit) = .ok c ∧ c.funds = b.funds + a.funds) ↔
      Movable tipLimit runLimit a b := by
  -- with the same free balance and funds planned as there are
  have hgives (hv : (plannedFrom tipLimit a).ullValues = (a.thawed runLimit).ullValues)
      (hl : (plannedFrom tipLimit a).vcFreezedFund = (a.thawed runLimit).vcFreezedFund)
      (hnamed : ∀ f ∈ a.stillFrozen runLimit, Named f) (ha : a.HasRoom runLimit)
      (hb : b.HasRoom runLimit) :
      (∃ c, (plan addFreeOp addTagOp (plannedFrom tipLimit a).ullValues
            (plannedFrom tipLimit a).vcFreezedFund).foldlM CAppUserAccout.operateOne
          (b.thawed runLimit) = .ok c ∧ c.funds = b.funds + a.funds) ↔
        b.ullValues.toNat + b.matured runLimit + (a.ullValues.toNat + a.matured runLimit) < 2 ^ 64 ∧
          RoomFor (b.stillFrozen runLimit) (a.stillFrozen runLimit) := by
    have hnew : ∀ f ∈ a.stillFrozen runLimit, Int32 f ∧ Named f := fun f hf =>
      ⟨hints f (List.mem_filter.mp hf).1, hnamed f hf⟩
    have hiff := CAppUserAccout.plan_gives_iff (a := b.thawed runLimit)
      (v := (a.thawed runLimit).ullValues) hnew
    rw [CAppUserAccout.thawed_funds hb, CAppUserAccout.thawed_free ha, CAppUserAccout.thawed_free hb,
      Nat.add_assoc b.funds, ← CAppUserAccout.funds_eq] at hiff
    rw [hv, hl]
    exact hiff
  constructor
  · rintro ⟨⟨ha, hv, hl, hnamed⟩, hb, hc⟩
    rw [hl] at hnamed
    obtain ⟨hfree, hfrozen⟩ := (hgives hv hl hnamed ha hb).mp hc
    refine ⟨?_, CAppUserAccout.plannedFrom_eq_iff.mp ⟨hv, hl⟩, hnamed, hfree, hfrozen⟩
    by_contra hno
    obtain ⟨hzero, hempty⟩ := not_or.mp hno
    refine hne (plan_eq_nil.mpr ⟨?_, hl.trans (not_not.mp hempty)⟩)
    rw [hv]
    refine UInt64.toNat.inj ?_
    rw [CAppUserAccout.thawed_free ha]
    have h0 : (0 : UInt64).toNat = 0 := rfl
    omega
  · intro h
    obtain ⟨hv, hl⟩ := CAppUserAccout.plannedFrom_eq_iff.mpr h.agree
    obtain ⟨ha, hb⟩ := h.rooms
    refine ⟨⟨ha, hv, hl, ?_⟩, hb, (hgives hv hl h.named ha hb).mpr ⟨h.free, h.frozen⟩⟩
    rw [hl]
    exact h.named

/-- Everything moves exactly when there was nothing, or all of it can move. -/
theorem transfer_moves_iff (h : Returned node view des src recv s a out)
    (hchain : node.chainActive = tip :: rest)
    (htip : freezeLimit node.chainActive des.uHeight tip.nHeight = .ok tipLimit)
    (hrun : freezeLimit node.chainActive des.uHeight nHeight = .ok runLimit)
    (hr : s.getScriptAcc des recv = .ok r)
    (hown : ∀ u, u = sendAddress node view src ∨ u = recv → OwnRecord s des u)
    (hroom : frozenCount s des recv + a.vcFreezedFund.length < maxSize) :
    HandsOver node.chainActive des nHeight s (sendAddress node view src) recv out ↔
      (a.ullValues = 0 ∧ a.vcFreezedFund = []) ∨
        Movable tipLimit runLimit a (r.getD (CAppUserAccout.ofUser recv)) := by
  have hasks := h.asks hchain htip
  have hints : ∀ f ∈ a.vcFreezedFund, Int32 f := fun f hf =>
    ⟨(stored_storable h.stored f hf).1, (stored_storable h.stored f hf).2.1⟩
  obtain ⟨p, _, hplanned⟩ := CAppUserAccout.plannedFrom_filter tipLimit a
  by_cases hnil : plan subFreeOp subTagOp (plannedFrom tipLimit a).ullValues
      (plannedFrom tipLimit a).vcFreezedFund = []
  · have hnil' : plan addFreeOp addTagOp (plannedFrom tipLimit a).ullValues
        (plannedFrom tipLimit a).vcFreezedFund = [] := plan_eq_nil.mpr (plan_eq_nil.mp hnil)
    rw [hnil, hnil'] at hasks
    rw [handsOver_nothing hasks h.stored, iff_self_or]
    intro hmovable
    -- what is there would be planned
    obtain ⟨hv, hl⟩ := CAppUserAccout.plannedFrom_eq_iff.mpr hmovable.agree
    obtain ⟨hzero, hempty⟩ := plan_eq_nil.mp hnil
    rw [hv] at hzero
    rw [hl] at hempty
    have hfree := CAppUserAccout.thawed_free hmovable.rooms.1
    rw [hzero] at hfree
    have h0 : (0 : UInt64).toNat = 0 := rfl
    rcases hmovable.moves with hpos | hsome
    · omega
    · exact absurd hempty hsome
  · rw [handsOver_iff hasks hnil (plannedFrom_length tipLimit a) hrun h hr hown hroom,
      CAppUserAccout.plan_empties_iff hplanned rfl hints, movable_iff hints hnil]
    refine (or_iff_right ?_).symm
    rintro ⟨hfree, hempty⟩
    exact hnil (plan_of_empty hfree hempty)

end

/-! ## At genesis -/

namespace Sample

/-- A node that has only the genesis block. -/
def genesisNode : Node := nodeOn ⟨fun _ => none, fun _ => none⟩ [entryOf genesisBlock]

def senderView : CAccountViewCache := viewOf [holder] [(⟨50, 1⟩, keyId 5)] 1

def sender : Bytes := sendAddress genesisNode senderView ⟨50, 1⟩

def receiver : Bytes := (keyId 7).toAddress cfg crypto

/-- 3 free, and 5 frozen until some height. -/
def frozenUntil (nHeight : ℤ) : CAppUserAccout := ⟨3, sender, [⟨5, nHeight, [7]⟩]⟩

/-- It is the only app account of the contract. -/
def frozenStore (nHeight : ℤ) : CScriptDBViewCache :=
  scriptsOf [(CScriptDBViewCache.scriptAccKey (CRegID.getVec6 ⟨0, 2⟩) sender,
    CAppUserAccout.codec.write (frozenUntil nHeight))]

/-- What the call asks for while the fund is frozen. -/
def handed (nHeight : ℤ) : AppOutput :=
  [(sender, freeOp subFreeOp 3), (receiver, freeOp addFreeOp 3),
    (sender, fundOp subTagOp ⟨5, nHeight, [7]⟩), (receiver, fundOp addTagOp ⟨5, nHeight, [7]⟩)]

theorem frozen_returned_first : Returned genesisNode senderView ⟨0, 2⟩ ⟨50, 1⟩ receiver (frozenStore 1)
    (frozenUntil 1) (handed 1) where
  stored := by decide +kernel
  length := by decide +kernel
  valid := by decide +kernel
  call := by decide +kernel

theorem frozen_returned_later : Returned genesisNode senderView ⟨0, 2⟩ ⟨50, 1⟩ receiver (frozenStore 2)
    (frozenUntil 2) (handed 2) where
  stored := by decide +kernel
  length := by decide +kernel
  valid := by decide +kernel
  call := by decide +kernel

/-- A fund frozen until height 2 moves in a run at height 1. -/
theorem transfer_moves_later :
    HandsOver genesisNode.chainActive ⟨0, 2⟩ 1 (frozenStore 2) sender receiver (handed 2) := by
  have hown : ∀ u, u = sender ∨ u = receiver → OwnRecord (frozenStore 2) ⟨0, 2⟩ u := by
    rintro u (rfl | rfl) b hb
    · obtain rfl := Option.some.inj (Except.ok.inj (frozen_returned_later.stored.symm.trans hb))
      rfl
    · have hnone : (frozenStore 2).getScriptAcc ⟨0, 2⟩ receiver = .ok none := by decide +kernel
      cases hnone.symm.trans hb
  have htip : freezeLimit genesisNode.chainActive (⟨0, 2⟩ : CRegID).uHeight (entryOf genesisBlock).nHeight = .ok 0 := by
    decide +kernel
  have hrun : freezeLimit genesisNode.chainActive (⟨0, 2⟩ : CRegID).uHeight 1 = .ok 1 := by decide +kernel
  have hnew : (frozenStore 2).getScriptAcc ⟨0, 2⟩ receiver = .ok none := by decide +kernel
  refine (transfer_moves_iff frozen_returned_later rfl htip hrun hnew hown
    (by decide +kernel)).mpr (.inr ⟨by decide +kernel, ?_, ?_, by decide +kernel, ?_⟩)
  · refine .inl ⟨by decide +kernel, fun f hf => ?_⟩
    obtain rfl := List.mem_singleton.mp hf
    decide
  · intro f hf
    obtain rfl := List.mem_singleton.mp (List.mem_filter.mp hf).1
    exact ⟨by decide, by decide⟩
  · refine CAppUserAccout.roomInTurn_iff.mp ⟨fun g hg => ?_, trivial⟩
    cases hg

/-- A fund frozen until height 1 has matured in that run, but not at the tip. -/
theorem transfer_stuck :
    ∃ out, Returned genesisNode senderView ⟨0, 2⟩ ⟨50, 1⟩ receiver (frozenStore 1) (frozenUntil 1) out ∧
      ¬ HandsOver genesisNode.chainActive ⟨0, 2⟩ 1 (frozenStore 1) sender receiver out := by
  refine ⟨handed 1, frozen_returned_first, ?_⟩
  rintro ⟨w, hw, -⟩
  have hrefused : (CVmRunEvn.opeatorAppAccount genesisNode.chainActive ⟨0, 2⟩ 1 (frozenStore 1)
      (CVmRunEvn.mapAppOperate (handed 1))).toOption.isSome = false := by decide +kernel
  rw [hw] at hrefused
  cases hrefused

end Sample

end Dacrs
