import Dacrs.AppRecord
import Dacrs.ContractData

/-!
# The app users of a contract run

`OpeatorAppAccount` works on the users of a map one by one, each on a record of its own, so what
it does to one user is what it would do to the stored account alone (`opeatorAppAccount_users`).
The contract data and the output log of a run lie under other keys (`runDb_getData`,
`writeOutPut_getData`).
-/

open Codec (Bytes)

namespace Dacrs

/-! ## The order of the map -/

instance transLtUInt8 : Trans (α := UInt8) (· < ·) (· < ·) (· < ·) := ⟨fun h h' => UInt8.lt_trans h h'⟩

instance irreflLtUInt8 : Std.Irrefl (α := UInt8) (· < ·) := ⟨fun _ => UInt8.lt_irrefl _⟩

theorem bytes_lt_of_not_lt {a b : Bytes} (h : ¬ a < b) (hne : b ≠ a) : b < a := by
  by_contra h'
  refine hne (List.le_antisymm (i := ⟨fun x y hx hy => ?_⟩) h h')
  exact UInt8.le_antisymm (UInt8.not_lt.mp hy) (UInt8.not_lt.mp hx)

namespace CVmRunEvn

theorem insertOutAPPOperte_mem {u v : Bytes} {op : CAppFundOperate}
    {m : List (Bytes × List CAppFundOperate)}
    (h : v ∈ (insertOutAPPOperte u op m).map Prod.fst) : v = u ∨ v ∈ m.map Prod.fst := by
  induction m with
  | nil => exact .inl (List.mem_singleton.mp h)
  | cons p m ih =>
    obtain ⟨k, ops⟩ := p
    rw [insertOutAPPOperte] at h
    split at h
    · exact .inr h
    · split at h
      · exact List.mem_cons.mp h
      · rcases List.mem_cons.mp h with rfl | hrest
        · exact .inr List.mem_cons_self
        · rcases ih hrest with rfl | hold
          · exact .inl rfl
          · exact .inr (List.mem_cons_of_mem k hold)

theorem insertOutAPPOperte_sorted {u : Bytes} {op : CAppFundOperate}
    {m : List (Bytes × List CAppFundOperate)} (h : (m.map Prod.fst).Pairwise (· < ·)) :
    ((insertOutAPPOperte u op m).map Prod.fst).Pairwise (· < ·) := by
  induction m with
  | nil => exact List.pairwise_singleton _ _
  | cons p m ih =>
    obtain ⟨k, ops⟩ := p
    rw [List.map_cons, List.pairwise_cons] at h
    rw [insertOutAPPOperte]
    split
    · exact List.pairwise_cons.mpr h
    · next hne =>
      split
      · next hlt =>
        refine List.pairwise_cons.mpr ⟨fun v hv => ?_, List.pairwise_cons.mpr h⟩
        rcases List.mem_cons.mp hv with rfl | hrest
        · exact hlt
        · exact List.lt_trans hlt (h.1 v hrest)
      · next hnot =>
        refine List.pairwise_cons.mpr ⟨fun v hv => ?_, ih h.2⟩
        rcases insertOutAPPOperte_mem hv with rfl | hold
        · exact bytes_lt_of_not_lt hnot hne
        · exact h.1 v hold

theorem mapAppOperate_sorted (l : List (Bytes × CAppFundOperate)) :
    ((mapAppOperate l).map Prod.fst).Pairwise (· < ·) := by
  have hrun : ∀ (l : List (Bytes × CAppFundOperate)) (m : List (Bytes × List CAppFundOperate)),
      (m.map Prod.fst).Pairwise (· < ·) →
      ((l.foldl (fun m p => insertOutAPPOperte p.1 p.2 m) m).map Prod.fst).Pairwise (· < ·) := by
    intro l
    induction l with
    | nil => exact fun m hm => hm
    | cons p l ih => exact fun m hm => ih _ (insertOutAPPOperte_sorted hm)
  exact hrun l [] .nil

/-- Every user has one entry. -/
theorem mapAppOperate_nodup (l : List (Bytes × CAppFundOperate)) :
    ((mapAppOperate l).map Prod.fst).Nodup := by
  refine (mapAppOperate_sorted l).imp ?_
  rintro u _ h rfl
  exact List.lt_irrefl u h

end CVmRunEvn

/-! ## Stored app accounts -/

/-- What the app account of a user holds. -/
def appFunds (s : CScriptDBViewCache) (des : CRegID) (u : Bytes) : ℕ :=
  match s.getScriptAcc des u with
  | .ok (some a) => a.funds
  | _ => 0

/-- How many frozen funds the app account of a user has. -/
def frozenCount (s : CScriptDBViewCache) (des : CRegID) (u : Bytes) : ℕ :=
  match s.getScriptAcc des u with
  | .ok (some a) => a.vcFreezedFund.length
  | _ => 0

/-- The app account under a user id is that user's own. -/
def OwnRecord (s : CScriptDBViewCache) (des : CRegID) (u : Bytes) : Prop :=
  ∀ a, s.getScriptAcc des u = .ok (some a) → a.vuchAccUserID = u

/-- The stored account of a user is read alike where its record is the same. -/
theorem getScriptAcc_congr {s t : CScriptDBViewCache} {des : CRegID} {u : Bytes}
    (h : t.getData (CScriptDBViewCache.scriptAccKey des.getVec6 u)
      = s.getData (CScriptDBViewCache.scriptAccKey des.getVec6 u)) :
    t.getScriptAcc des u = s.getScriptAcc des u := by
  unfold CScriptDBViewCache.getScriptAcc
  rw [h]

theorem scriptAccKey_inj {id u v : Bytes}
    (h : CScriptDBViewCache.scriptAccKey id u = CScriptDBViewCache.scriptAccKey id v) : u = v := by
  simpa [CScriptDBViewCache.scriptAccKey] using h

/-- A stored account has been read from a record. -/
theorem getScriptAcc_read {s : CScriptDBViewCache} {des : CRegID} {u : Bytes} {a : CAppUserAccout}
    (h : s.getScriptAcc des u = .ok (some a)) :
    ∃ v rest, CAppUserAccout.codec.read v = some (a, rest) := by
  unfold CScriptDBViewCache.getScriptAcc at h
  split at h
  · cases h
  · next v _ =>
    split at h
    · next c rest hr =>
      obtain rfl := Option.some.inj (Except.ok.inj h)
      exact ⟨v, rest, hr⟩
    · cases h

/-- What a user's record says once it is written. -/
theorem appFunds_of_record {s : CScriptDBViewCache} {des : CRegID} {u : Bytes} {a : CAppUserAccout}
    (hfits : a.Fits) (h : s.getData (CScriptDBViewCache.scriptAccKey des.getVec6 u)
      = some (CAppUserAccout.codec.write a)) : appFunds s des u = a.funds := by
  unfold appFunds CScriptDBViewCache.getScriptAcc
  rw [h]
  dsimp only
  rw [CAppUserAccout.read_write hfits]
  exact a.reread_funds

namespace CVmRunEvn

open CScriptDBViewCache (scriptAccKey)

/-- The account `OpeatorAppAccount` works on: the stored one with matured funds freed. -/
def loadedAccount (chainActive : PBlockIndex) (s : CScriptDBViewCache) (des : CRegID) (nHeight : ℤ)
    (u : Bytes) : Exec CAppUserAccout := do
  let a ← getAppUserAccout chainActive s des nHeight u
  a.autoMergeFreezeToFree chainActive des.uHeight nHeight

section
variable {chainActive : PBlockIndex} {s t : CScriptDBViewCache} {des : CRegID} {nHeight : ℤ}
  {u : Bytes} {a b : CAppUserAccout}

theorem loadedAccount_congr
    (h : t.getData (scriptAccKey des.getVec6 u) = s.getData (scriptAccKey des.getVec6 u)) :
    loadedAccount chainActive t des nHeight u = loadedAccount chainActive s des nHeight u := by
  unfold loadedAccount getAppUserAccout
  rw [getScriptAcc_congr h]

/-- Loading an account changes its funds in no way. -/
theorem loadedAccount_cases (hown : OwnRecord s des u)
    (h : loadedAccount chainActive s des nHeight u = .ok a) :
    a.vuchAccUserID = u ∧ a.funds = appFunds s des u ∧
      (∀ f ∈ a.vcFreezedFund, CAppCFund.Storable f.slot) ∧
      a.vcFreezedFund.length ≤ frozenCount s des u := by
  unfold loadedAccount getAppUserAccout at h
  rw [Except.bind_eq_ok] at h
  obtain ⟨b, hb, h⟩ := h
  rw [Except.bind_eq_ok] at hb
  obtain ⟨o, ho, hb⟩ := hb
  cases o with
  | none =>
    obtain rfl := Except.ok.inj hb
    obtain ⟨hid, hfunds, hsub⟩ := CAppUserAccout.autoMergeFreezeToFree_cases h
    have hnil : a.vcFreezedFund = [] := List.sublist_nil.mp hsub
    refine ⟨hid, ?_, ?_, ?_⟩
    · rw [hfunds, appFunds, ho]
      rfl
    · rw [hnil]
      exact fun f hf => nomatch hf
    · rw [hnil]
      exact Nat.zero_le _
  | some old =>
    obtain ⟨hid₁, hfunds₁, hsub₁⟩ := CAppUserAccout.autoMergeFreezeToFree_cases hb
    obtain ⟨hid₂, hfunds₂, hsub₂⟩ := CAppUserAccout.autoMergeFreezeToFree_cases h
    have hsub := hsub₂.trans hsub₁
    refine ⟨hid₂.trans (hid₁.trans (hown old ho)), ?_, fun f hf => ?_, ?_⟩
    · rw [hfunds₂, hfunds₁, appFunds, ho]
    · obtain ⟨v, rest, hr⟩ := getScriptAcc_read ho
      exact CAppUserAccout.returns_codec v old rest hr f (hsub.subset hf)
    · rw [frozenCount, ho]
      exact hsub.length_le

/-! ## One user after the other -/

/-- The operations of one user write one record. -/
theorem opeatorAppAccountOne_cases {w w' : AppWork} {item : Bytes × List CAppFundOperate}
    (h : opeatorAppAccountOne chainActive des nHeight w item = .ok w') :
    ∃ a b, loadedAccount chainActive w.scriptDB des nHeight item.1 = .ok a ∧
      item.2.foldlM CAppUserAccout.operateOne a = .ok b ∧
      w'.scriptDB = w.scriptDB.setData (scriptAccKey des.getVec6 b.vuchAccUserID)
        (CAppUserAccout.codec.write b) := by
  unfold opeatorAppAccountOne at h
  rw [Except.bind_eq_ok] at h
  obtain ⟨a₀, h0, h⟩ := h
  rw [Except.bind_eq_ok] at h
  obtain ⟨a, h1, h⟩ := h
  dsimp only at h
  rw [Except.bind_eq_ok] at h
  obtain ⟨b, hop, h⟩ := h
  obtain rfl := Except.ok.inj h
  refine ⟨a, b, ?_, CAppUserAccout.operate_eq_ok (operateOrPrint_ok.mp hop), rfl⟩
  unfold loadedAccount
  rw [h0]
  exact h1

/-- Each user's record is what its own operations make of its stored account; no other record
changes. -/
theorem opeatorAppAccount_users {mapOp : List (Bytes × List CAppFundOperate)} {w w' : AppWork}
    (hkeys : (mapOp.map Prod.fst).Nodup) (hown : ∀ item ∈ mapOp, OwnRecord w.scriptDB des item.1)
    (h : mapOp.foldlM (opeatorAppAccountOne chainActive des nHeight) w = .ok w') :
    (∀ k, (∀ item ∈ mapOp, k ≠ scriptAccKey des.getVec6 item.1) →
        w'.scriptDB.getData k = w.scriptDB.getData k) ∧
      ∀ item ∈ mapOp, ∃ a b, loadedAccount chainActive w.scriptDB des nHeight item.1 = .ok a ∧
        item.2.foldlM CAppUserAccout.operateOne a = .ok b ∧
        w'.scriptDB.getData (scriptAccKey des.getVec6 item.1)
          = some (CAppUserAccout.codec.write b) := by
  induction mapOp generalizing w with
  | nil =>
    obtain rfl := Except.ok.inj h
    exact ⟨fun k _ => rfl, fun item hitem => nomatch hitem⟩
  | cons item mapOp ih =>
    rw [List.map_cons, List.nodup_cons] at hkeys
    rw [List.foldlM_cons, Except.bind_eq_ok] at h
    obtain ⟨w₁, h1, h2⟩ := h
    obtain ⟨a, b, hload, hop, hdb⟩ := opeatorAppAccountOne_cases h1
    obtain ⟨hid, -⟩ := loadedAccount_cases (hown item List.mem_cons_self) hload
    have hidb : b.vuchAccUserID = item.1 := (CAppUserAccout.foldlM_operateOne_user hop).trans hid
    rw [hidb] at hdb
    have hother : ∀ k, k ≠ scriptAccKey des.getVec6 item.1 →
        w₁.scriptDB.getData k = w.scriptDB.getData k := by
      intro k hk
      rw [hdb, CScriptDBViewCache.getData_setData_ne _ _ hk]
    -- the users still to come have other records
    have hlater : ∀ item' ∈ mapOp, w₁.scriptDB.getData (scriptAccKey des.getVec6 item'.1)
        = w.scriptDB.getData (scriptAccKey des.getVec6 item'.1) := by
      intro item' hitem'
      refine hother _ fun he => hkeys.1 ?_
      rw [← scriptAccKey_inj he]
      exact List.mem_map_of_mem hitem'
    have hown₁ : ∀ item' ∈ mapOp, OwnRecord w₁.scriptDB des item'.1 := by
      intro item' hitem' c hc
      rw [getScriptAcc_congr (hlater item' hitem')] at hc
      exact hown item' (List.mem_cons_of_mem item hitem') c hc
    obtain ⟨hframe, hall⟩ := ih hkeys.2 hown₁ h2
    refine ⟨fun k hk => ?_, fun item' hitem' => ?_⟩
    · rw [hframe k fun i hi => hk i (List.mem_cons_of_mem item hi),
        hother k (hk item List.mem_cons_self)]
    · rcases List.mem_cons.mp hitem' with rfl | hmem
      · refine ⟨a, b, hload, hop, ?_⟩
        rw [hframe _ fun i hi he => hkeys.1 ?_, hdb, CScriptDBViewCache.getData_setData, if_pos rfl,
          CScriptDBViewCache.liveValue_of_ne b.write_ne_nil]
        rw [scriptAccKey_inj he]
        exact List.mem_map_of_mem hi
      · obtain ⟨a', b', hload', hop', hdata⟩ := hall item' hmem
        rw [loadedAccount_congr (hlater item' hmem)] at hload'
        exact ⟨a', b', hload', hop', hdata⟩

/-! ## The other records of a run -/

/-- 'a', which the records of app accounts start with. -/
def acctInitial : UInt8 := 97

theorem ne_of_head {k key : Bytes} (hk : k.head? = some acctInitial)
    (hkey : key.head? ≠ some acctInitial) : k ≠ key := fun he => hkey (he ▸ hk)

/-- A counter is written under its own key, or not at all. -/
theorem increaseUnless_getData {p : Bool} {key k : Bytes} (hne : k ≠ key)
    (h : s.increaseUnless p key = .ok t) : t.getData k = s.getData k := by
  unfold CScriptDBViewCache.increaseUnless at h
  split at h
  · obtain rfl := Except.ok.inj h
    rfl
  · obtain ⟨n, -, rfl⟩ := CScriptDBViewCache.increaseCount_record h
    rw [s.getData_setData_ne _ hne]

theorem decreaseIf_getData {p : Bool} {key k : Bytes} (hne : k ≠ key)
    (h : s.decreaseIf p key = .ok t) : t.getData k = s.getData k := by
  unfold CScriptDBViewCache.decreaseIf CScriptDBViewCache.decreaseCount at h
  split at h
  · rw [Except.bind_eq_ok] at h
    obtain ⟨o, -, h⟩ := h
    cases o with
    | none => cases h
    | some n =>
      unfold CScriptDBViewCache.setCount at h
      dsimp only at h
      split at h
      · obtain rfl := Except.ok.inj h
        rw [s.getData_setData_ne _ hne]
      · split at h
        · cases h
        · obtain rfl := Except.ok.inj h
          rw [s.getData_setData_ne _ hne]
  · obtain rfl := Except.ok.inj h
    rfl

/-- Contract data lies under other keys than the app accounts. -/
theorem dbStep_getData {id k : Bytes} (hk : k.head? = some acctInitial)
    {st st' : CScriptDBViewCache × List CScriptDBOperLog} {op : VmDbOp}
    (h : dbStep id st op = .ok st') : st'.1.getData k = st.1.getData k := by
  have hcount : k ≠ CScriptDBViewCache.scriptDataCountKey id :=
    ne_of_head hk (by simp [CScriptDBViewCache.scriptDataCountKey_head,
      CScriptDBViewCache.countInitial, acctInitial])
  have hdata : ∀ key, k ≠ CScriptDBViewCache.scriptDataKey id key := fun key =>
    ne_of_head hk (by simp [CScriptDBViewCache.scriptDataKey_head, acctInitial])
  have hset : ∀ {key value t log}, st.1.setScriptData id key value = .ok (t, log) →
      t.getData k = st.1.getData k := by
    intro key value t log ht
    unfold CScriptDBViewCache.setScriptData at ht
    rw [Except.bind_eq_ok] at ht
    obtain ⟨s₁, h1, ht⟩ := ht
    obtain ⟨rfl, -⟩ := Prod.mk.inj (Except.ok.inj ht)
    rw [s₁.getData_setData_ne _ (hdata key), increaseUnless_getData hcount h1]
  have herase : ∀ {key t log}, st.1.eraseScriptData id key = .ok (t, log) →
      t.getData k = st.1.getData k := by
    intro key t log ht
    unfold CScriptDBViewCache.eraseScriptData at ht
    rw [Except.bind_eq_ok] at ht
    obtain ⟨s₁, h1, ht⟩ := ht
    split at ht
    · cases ht
    · rw [Except.bind_eq_ok] at ht
      obtain ⟨s₂, h2, ht⟩ := ht
      obtain ⟨rfl, -⟩ := Prod.mk.inj (Except.ok.inj ht)
      unfold CScriptDBViewCache.eraseKey at h2
      split at h2
      · obtain rfl := Except.ok.inj h2
        rw [s₁.getData_setData_ne _ (hdata key), decreaseIf_getData hcount h1]
      · cases h2
  unfold dbStep at h
  cases op with
  | set key value hne =>
    dsimp only at h
    split at h
    · next t log ht =>
      obtain rfl := Except.ok.inj h
      exact hset ht
    · obtain rfl := Except.ok.inj h
      rfl
    · cases h
  | erase key =>
    dsimp only at h
    split at h
    · next t log ht =>
      obtain rfl := Except.ok.inj h
      exact herase ht
    · obtain rfl := Except.ok.inj h
      rfl
    · cases h

theorem runDb_getData {id k : Bytes} (hk : k.head? = some acctInitial)
    {logs : List CScriptDBOperLog} {ops : List VmDbOp} (h : runDb id s ops = .ok (t, logs)) :
    t.getData k = s.getData k :=
  Except.foldlM_invariant (fun st => st.1.getData k = s.getData k) (dbStep id) ops
    (fun _ _ _ _ hst hstep => (dbStep_getData hk hstep).trans hst) rfl h

theorem writeOutPut_getData {cfg : SysCfg} {hash : Uint256} {ops : List CVmOperate} {w : AppWork}
    {k : Bytes} (hk : k.head? = some acctInitial) :
    (writeOutPut cfg hash ops w).1.getData k = w.scriptDB.getData k := by
  unfold writeOutPut
  split
  · refine CScriptDBViewCache.getData_setData_ne _ _ (ne_of_head hk ?_)
    simp [CScriptDBViewCache.txOutPutKey, CScriptDBViewCache.outputPrefix, acctInitial]
  · rfl

end

end CVmRunEvn

end Dacrs
