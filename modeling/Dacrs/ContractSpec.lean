import Dacrs.ExecuteSpec
import Dacrs.Lib.Ledger

/-!
# What a contract's operations do to the accounts

`OpeatorAccount` works on copies that are saved afterwards.  Laid over the account view, the
copies are the accounts the operations have made so far: every operation is one exact movement
of that store (`opeatorAccount_moves`), and saving the copies turns the view into it
(`saveContractAccounts_accounts`).  `CheckOperate` makes the movements of a run cancel
(`checkOperate_sum`).
-/

open Codec (Bytes)

namespace Dacrs

/-- The balance of an account. -/
def CAccount.balance (a : CAccount) : ℕ := a.ullValues.toNat

/-! ## One operation -/

/-- What an operation is meant to add to a balance. -/
def EmOperType.signed (type : EmOperType) (value : UInt64) : ℤ :=
  match type with
  | addFree => value.toNat
  | minusFree => -value.toNat
  | null => 0

/-- Below 2^63 every operation adds exactly what it is meant to, and stays below. -/
theorem CAccount.operateAccount_exact (cfg : SysCfg) {type : EmOperType} {value : UInt64} {h : ℤ}
    {a b : CAccount} (hop : a.operateAccount cfg type value h = some b)
    (hbelow : a.balance < 2 ^ 63) :
    (b.balance : ℤ) = a.balance + type.signed value ∧ b.balance < 2 ^ 63 := by
  obtain ⟨-, -, -, hcase⟩ := operateAccount_cases cfg hop
  cases type with
  | addFree =>
    have hadd : b.balance = a.balance + value.toNat := operateAccount_add cfg hop hbelow
    refine ⟨by simp [EmOperType.signed, hadd], ?_⟩
    rcases hcase with ⟨h0, hval⟩ | ⟨-, -, hrange⟩ | ⟨htype, -⟩
    · rw [balance, hval]
      exact hbelow
    · have := toNat_le_of_isMoneyOverflow cfg hrange
      rw [balance]
      omega
    · cases htype
  | minusFree =>
    have hsub : b.balance + value.toNat = a.balance := operateAccount_minus cfg hop
    simp only [EmOperType.signed]
    omega
  | null =>
    rcases hcase with ⟨-, hval⟩ | ⟨htype, -⟩ | ⟨htype, -⟩
    · rw [balance, balance, hval]
      exact ⟨by simp [EmOperType.signed], hbelow⟩
    · cases htype
    · cases htype

/-- The amount a contract's operation moves. -/
def CVmOperate.signed (op : CVmOperate) : ℤ := op.operType.signed op.arruchMoney

/-! ## The working copies -/

namespace CVmRunEvn

open CAccountViewCache (WellKeyed)

section
variable {cfg : SysCfg} {cr : Crypto} {view : CAccountViewCache}

/-- The account an operation names is the stored one, or a fresh one where none is stored. -/
theorem operateTarget_eq (hv : view.WellKeyed) {op : CVmOperate} {tem : CAccount}
    (h : operateTarget cfg cr view op = some tem) :
    tem = (view.accounts.lookup tem.cKeyID).getD (CAccount.fresh tem.cKeyID) := by
  unfold operateTarget at h
  split at h
  · have hlook := hv.getAccount cr h
    rw [hlook]
    rfl
  · have htem := (Option.some.inj h).symm
    set k := CKeyID.ofAddress cfg cr (getAccountID cfg cr view op) with hk
    have hget : view.getAccount cr (.keyID k) = view.accounts.lookup k := rfl
    rw [hget] at htem
    cases hlook : view.accounts.lookup k with
    | none =>
      rw [hlook] at htem
      have hkey : tem.cKeyID = k := by
        rw [htem]
        rfl
      rw [hkey, hlook]
      exact htem
    | some a =>
      rw [hlook] at htem
      have hkey : tem.cKeyID = k := by
        rw [htem]
        exact hv k a hlook
      rw [hkey, hlook]
      exact htem

/-- The key id of the account an operation works on. -/
def operateKey (cfg : SysCfg) (cr : Crypto) (view : CAccountViewCache) (op : CVmOperate) :
    Option CKeyID :=
  (operateTarget cfg cr view op).map CAccount.cKeyID

/-- What one operation does to the copies. -/
theorem opeatorAccountOne_cases {nCurHeight : ℤ} {w w' : AccountWork} {op : CVmOperate}
    (h : opeatorAccountOne cfg cr view nCurHeight w op = some w') :
    ∃ tem acct, operateTarget cfg cr view op = some tem ∧
      ((w.rawAccont.lookup tem.cKeyID).getD tem).operateAccount cfg op.operType op.arruchMoney
        nCurHeight = some acct ∧
      w' = ⟨w.rawAccont.put tem.cKeyID (some acct), w.newAccont ++ [tem.cKeyID]⟩ := by
  unfold opeatorAccountOne at h
  simp only [Option.bind_eq_bind, Option.bind_eq_some_iff, Option.pure_def,
    Option.some.injEq] at h
  obtain ⟨tem, htem, acct, hop, rfl⟩ := h
  exact ⟨tem, acct, htem, hop, rfl⟩

/-- The copies are those of the listed key ids; each is a later state of the stored account, or
of a fresh one where none is stored. -/
structure AccountWork.Over (view : CAccountViewCache) (w : AccountWork) : Prop where
  listed : ∀ k, (w.rawAccont.lookup k).isSome = true ↔ k ∈ w.newAccont
  same : ∀ k x, w.rawAccont.lookup k = some x →
    k ≠ 0 ∧ x.SameIdentity ((view.accounts.lookup k).getD (CAccount.fresh k))

theorem AccountWork.Over.empty (view : CAccountViewCache) : AccountWork.Over view ⟨∅, []⟩ where
  listed k := by simp
  same k x h := by simp at h

/-- The copies laid over the view. -/
def AccountWork.overlay (w : AccountWork) (view : CAccountViewCache) : Store CKeyID CAccount :=
  w.rawAccont ∪ view.accounts

/-- A copy has the key id it is filed under. -/
theorem AccountWork.Over.key_eq (hv : view.WellKeyed) {w : AccountWork} (hw : w.Over view)
    {k : CKeyID} {x : CAccount} (h : w.rawAccont.lookup k = some x) : x.cKeyID = k := by
  rw [(hw.same k x h).2.cKeyID]
  cases hlook : view.accounts.lookup k with
  | none => rfl
  | some a => exact hv k a hlook

/-- The copy an operation works on, and the copies after it. -/
theorem opeatorAccountOne_copy (hv : view.WellKeyed) {nCurHeight : ℤ} {w w' : AccountWork}
    {op : CVmOperate} (h : opeatorAccountOne cfg cr view nCurHeight w op = some w')
    (hw : w.Over view) :
    ∃ (k : CKeyID) (old acct : CAccount), k ≠ 0 ∧
      operateKey cfg cr view op = some k ∧
      old.SameIdentity ((view.accounts.lookup k).getD (CAccount.fresh k)) ∧
      old.balance = Store.measure CAccount.balance ((w.overlay view).lookup k) ∧
      old.operateAccount cfg op.operType op.arruchMoney nCurHeight = some acct ∧
      w' = ⟨w.rawAccont.put k (some acct), w.newAccont ++ [k]⟩ := by
  obtain ⟨tem, acct, htem, hop, rfl⟩ := opeatorAccountOne_cases h
  have htarget := operateTarget_eq hv htem
  set k := tem.cKeyID with hk
  have hold : ((w.rawAccont.lookup k).getD tem).SameIdentity
        ((view.accounts.lookup k).getD (CAccount.fresh k)) ∧
      ((w.rawAccont.lookup k).getD tem).balance
        = Store.measure CAccount.balance ((w.overlay view).lookup k) := by
    rw [AccountWork.overlay, Store.lookup_union]
    cases hraw : w.rawAccont.lookup k with
    | some x => exact ⟨(hw.same k x hraw).2, rfl⟩
    | none =>
      rw [← htarget]
      refine ⟨.refl tem, ?_⟩
      rw [Option.none_or, Option.getD_none, htarget]
      cases view.accounts.lookup k <;> rfl
  have hkey : k ≠ 0 := by
    have := CAccount.operateAccount_key_ne cfg hop
    rw [hold.1.cKeyID, ← htarget] at this
    exact this
  exact ⟨k, _, acct, hkey, by rw [operateKey, htem, Option.map_some], hold.1, hold.2, hop, rfl⟩

/-- One operation keeps the copies in order. -/
theorem opeatorAccountOne_over (hv : view.WellKeyed) {nCurHeight : ℤ} {w w' : AccountWork}
    {op : CVmOperate} (h : opeatorAccountOne cfg cr view nCurHeight w op = some w')
    (hw : w.Over view) : w'.Over view := by
  obtain ⟨k, old, acct, hkey, -, hid, -, hop, rfl⟩ := opeatorAccountOne_copy hv h hw
  refine ⟨fun j => ?_, fun j x hx => ?_⟩
  · rw [Store.lookup_put]
    split
    · next hj => simp [hj]
    · next hj => simp [hw.listed j, hj]
  · rw [Store.lookup_put] at hx
    split at hx
    · next hj =>
      obtain rfl := Option.some.inj hx
      rw [hj]
      exact ⟨hkey, (CAccount.operateAccount_sameIdentity cfg hop).trans hid⟩
    · exact hw.same j x hx

/-- One operation is one exact movement of the overlay. -/
theorem opeatorAccountOne_moves (hv : view.WellKeyed) {nCurHeight : ℤ} {w w' : AccountWork}
    {op : CVmOperate} (h : opeatorAccountOne cfg cr view nCurHeight w op = some w')
    (hw : w.Over view) (hbelow : ∀ k a, (w.overlay view).lookup k = some a → a.balance < 2 ^ 63) :
    (∀ k a, (w'.overlay view).lookup k = some a → a.balance < 2 ^ 63) ∧
      ∃ k, Store.Moves CAccount.balance (w.overlay view) [(k, op.signed)] (w'.overlay view) := by
  obtain ⟨k, old, acct, -, -, -, hbal, hop, rfl⟩ := opeatorAccountOne_copy hv h hw
  have hsmall : old.balance < 2 ^ 63 := by
    rw [hbal]
    cases hlook : (w.overlay view).lookup k with
    | none => simp
    | some a => exact hbelow k a hlook
  obtain ⟨hexact, hbelow'⟩ := CAccount.operateAccount_exact cfg hop hsmall
  have hover : AccountWork.overlay ⟨w.rawAccont.put k (some acct), w.newAccont ++ [k]⟩ view
      = (w.overlay view).put k (some acct) := Store.put_union w.rawAccont view.accounts k acct
  rw [hover]
  refine ⟨fun j x hx => ?_, k, Store.Moves.single k (some acct) _ ?_⟩
  · rw [Store.lookup_put] at hx
    split at hx
    · obtain rfl := Option.some.inj hx
      exact hbelow'
    · exact hbelow j x hx
  · rw [Store.measure_some, hexact, hbal]
    rfl

theorem opeatorAccount_over (hv : view.WellKeyed) {nCurHeight : ℤ} {ops : List CVmOperate}
    {w : AccountWork} (h : opeatorAccount cfg cr view nCurHeight ops = some w) : w.Over view := by
  have hrun : ∀ (ops : List CVmOperate) (w w' : AccountWork), w.Over view →
      ops.foldlM (opeatorAccountOne cfg cr view nCurHeight) w = some w' → w'.Over view := by
    intro ops
    induction ops with
    | nil =>
      intro w w' hw hfold
      obtain rfl := Option.some.inj hfold
      exact hw
    | cons op ops ih =>
      intro w w' hw hfold
      rw [List.foldlM_cons, Option.bind_eq_bind, Option.bind_eq_some_iff] at hfold
      obtain ⟨w₁, h1, h2⟩ := hfold
      exact ih w₁ w' (opeatorAccountOne_over hv h1 hw) h2
  exact hrun ops ⟨∅, []⟩ w (.empty view) h

/-- A list of operations moves the overlay by their amounts. -/
theorem opeatorAccount_moves (hv : view.WellKeyed)
    (hbelow : ∀ k a, view.accounts.lookup k = some a → a.balance < 2 ^ 63) {nCurHeight : ℤ}
    {ops : List CVmOperate} {w : AccountWork}
    (h : opeatorAccount cfg cr view nCurHeight ops = some w) :
    ∃ ms, ms.map Prod.snd = ops.map CVmOperate.signed ∧
      Store.Moves CAccount.balance view.accounts ms (w.overlay view) := by
  have hrun : ∀ (ops : List CVmOperate) (w w' : AccountWork), w.Over view →
      (∀ k a, (w.overlay view).lookup k = some a → a.balance < 2 ^ 63) →
      ops.foldlM (opeatorAccountOne cfg cr view nCurHeight) w = some w' →
      ∃ ms, ms.map Prod.snd = ops.map CVmOperate.signed ∧
        Store.Moves CAccount.balance (w.overlay view) ms (w'.overlay view) := by
    intro ops
    induction ops with
    | nil =>
      intro w w' _ _ hfold
      obtain rfl := Option.some.inj hfold
      exact ⟨[], rfl, .nil⟩
    | cons op ops ih =>
      intro w w' hw hsmall hfold
      rw [List.foldlM_cons, Option.bind_eq_bind, Option.bind_eq_some_iff] at hfold
      obtain ⟨w₁, h1, h2⟩ := hfold
      obtain ⟨hsmall₁, k, hmove⟩ := opeatorAccountOne_moves hv h1 hw hsmall
      obtain ⟨ms, hms, hmoves⟩ := ih w₁ w' (opeatorAccountOne_over hv h1 hw) hsmall₁ h2
      refine ⟨(k, op.signed) :: ms, ?_, hmove.append hmoves⟩
      rw [List.map_cons, List.map_cons, hms]
  have hbase : AccountWork.overlay ⟨∅, []⟩ view = view.accounts := Finmap.empty_union
  obtain ⟨ms, hms, hmoves⟩ := hrun ops ⟨∅, []⟩ w (.empty view) (by rwa [hbase]) h
  rw [hbase] at hmoves
  exact ⟨ms, hms, hmoves⟩

/-! ## The sums of CheckOperate -/

theorem safeAdd_eq_some {a b c : UInt64} (h : safeAdd a b = some c) :
    c.toNat = a.toNat + b.toNat := by
  unfold safeAdd at h
  split at h
  · next hlt =>
    obtain rfl := Option.some.inj h
    rw [UInt64.toNat_add, Nat.mod_eq_of_lt hlt]
  · cases h

/-- An accepted operation passes both of its checks. -/
theorem checkOperateOne_cases {s : CScriptDBViewCache} {des : CRegID} {sums sums' : UInt64 × UInt64}
    {op : CVmOperate} (h : checkOperateOne cfg cr view s des sums op = some sums') :
    checkSums s des (CRegID.ofVec6 (getAccountID cfg cr view op)) sums op = some sums' ∧
      checkRegid cr view s (CRegID.ofVec6 (getAccountID cfg cr view op)) op = true := by
  unfold checkOperateOne at h
  dsimp only at h
  split at h
  · cases h
  · split at h
    · cases h
    · next t ht =>
      split at h
      · next hreg =>
        rw [ht, h]
        exact ⟨rfl, hreg⟩
      · cases h

/-- One accepted operation moves the difference of the two sums by its amount. -/
theorem checkOperateOne_sum {s : CScriptDBViewCache} {des : CRegID} {sums sums' : UInt64 × UInt64}
    {op : CVmOperate} (h : checkOperateOne cfg cr view s des sums op = some sums') :
    (sums'.1.toNat : ℤ) - sums'.2.toNat = sums.1.toNat - sums.2.toNat + op.signed := by
  obtain ⟨hsums, -⟩ := checkOperateOne_cases h
  unfold checkSums at hsums
  split at hsums
  · next htype =>
    rw [Option.map_eq_some_iff] at hsums
    obtain ⟨v, hv, rfl⟩ := hsums
    have := safeAdd_eq_some hv
    have hsigned : op.signed = op.arruchMoney.toNat := by rw [CVmOperate.signed, htype]; rfl
    rw [hsigned]
    dsimp only
    omega
  · next htype =>
    split at hsums
    · cases hsums
    · split at hsums
      · cases hsums
      · rw [Option.map_eq_some_iff] at hsums
        obtain ⟨v, hv, rfl⟩ := hsums
        have := safeAdd_eq_some hv
        have hsigned : op.signed = -op.arruchMoney.toNat := by rw [CVmOperate.signed, htype]; rfl
        rw [hsigned]
        dsimp only
        omega
  · cases hsums

/-- The operations `CheckOperate` accepts add as much as they take. -/
theorem checkOperate_sum {s : CScriptDBViewCache} {des : CRegID} {ops : List CVmOperate}
    (h : checkOperate cfg cr view s des ops = true) : (ops.map CVmOperate.signed).sum = 0 := by
  have hrun : ∀ (ops : List CVmOperate) (sums sums' : UInt64 × UInt64),
      ops.foldlM (checkOperateOne cfg cr view s des) sums = some sums' →
      (sums'.1.toNat : ℤ) - sums'.2.toNat
        = sums.1.toNat - sums.2.toNat + (ops.map CVmOperate.signed).sum := by
    intro ops
    induction ops with
    | nil =>
      intro sums sums' hfold
      obtain rfl := Option.some.inj hfold
      simp
    | cons op ops ih =>
      intro sums sums' hfold
      rw [List.foldlM_cons, Option.bind_eq_bind, Option.bind_eq_some_iff] at hfold
      obtain ⟨t, h1, h2⟩ := hfold
      have hone := checkOperateOne_sum h1
      have hrest := ih t sums' h2
      rw [List.map_cons, List.sum_cons]
      omega
  unfold checkOperate at h
  split at h
  · cases h
  · split at h
    · cases h
    · next add minus hfold =>
      have hsum := hrun ops (0, 0) (add, minus) hfold
      have heq : add = minus := by simpa using h
      rw [heq] at hsum
      simpa using hsum.symm

end

end CVmRunEvn

/-! ## Saving the copies -/

namespace CTransaction

open CVmRunEvn (AccountWork)

variable {w : AccountWork} {view view' : CAccountViewCache}

/-- Saving one copy: what it replaces is logged. -/
theorem saveContractAccount_cases {logs logs' : List CAccountLog} {k : CKeyID}
    (h : saveContractAccount w (view, logs) k = .ok (view', logs')) :
    view' = view.setAccountKey k ((w.rawAccont.lookup k).getD CAccount.null) ∧
      logs' = logs ++ [.ofAccount ((view.accounts.lookup k).getD (CAccount.fresh k))] := by
  unfold saveContractAccount at h
  rw [Except.bind_eq_ok] at h
  obtain ⟨old, hold, h⟩ := h
  obtain ⟨rfl, rfl⟩ := Prod.mk.inj (Except.ok.inj h)
  unfold oldContractAccount at hold
  split at hold
  · next a ha =>
    obtain rfl := Except.ok.inj hold
    rw [ha]
    exact ⟨rfl, rfl⟩
  · next hnone =>
    split at hold
    · cases hold
    · obtain rfl := Except.ok.inj hold
      rw [hnone]
      exact ⟨rfl, rfl⟩

/-- After saving the copies of some keys the view has them under these keys. -/
theorem saveContractAccounts_lookup (hlive : ∀ k x, w.rawAccont.lookup k = some x → x.cKeyID ≠ 0)
    {keys : List CKeyID} {logs logs' : List CAccountLog}
    (hin : ∀ k ∈ keys, (w.rawAccont.lookup k).isSome = true)
    (h : keys.foldlM (saveContractAccount w) (view, logs) = .ok (view', logs')) :
    view'.keyIds = view.keyIds ∧ view'.cHashBlock = view.cHashBlock ∧
      ∀ j, view'.accounts.lookup j
        = if j ∈ keys then w.rawAccont.lookup j else view.accounts.lookup j := by
  induction keys generalizing view logs with
  | nil =>
    obtain ⟨rfl, rfl⟩ := Prod.mk.inj (Except.ok.inj h)
    exact ⟨rfl, rfl, fun j => by simp⟩
  | cons k keys ih =>
    rw [List.foldlM_cons, Except.bind_eq_ok] at h
    obtain ⟨⟨view₁, logs₁⟩, h1, h2⟩ := h
    obtain ⟨rfl, -⟩ := saveContractAccount_cases h1
    obtain ⟨hkeys, hhash, hlook⟩ := ih (fun j hj => hin j (List.mem_cons_of_mem k hj)) h2
    refine ⟨hkeys, hhash, fun j => ?_⟩
    obtain ⟨x, hx⟩ := Option.isSome_iff_exists.mp (hin k List.mem_cons_self)
    rw [hlook j, CAccountViewCache.setAccountKey_accounts, hx, Option.getD_some,
      CAccountViewCache.liveAccount_of_ne (hlive k x hx), Store.lookup_put]
    by_cases hjk : j = k
    · subst hjk
      by_cases hmem : j ∈ keys <;> simp [hmem, hx]
    · simp [hjk]

/-- Saving all copies turns the view into the overlay. -/
theorem saveContractAccounts_accounts (hv : view.WellKeyed) (hw : w.Over view)
    {logs logs' : List CAccountLog}
    (h : w.newAccont.foldlM (saveContractAccount w) (view, logs) = .ok (view', logs')) :
    view'.accounts = w.overlay view ∧ view'.keyIds = view.keyIds ∧
      view'.cHashBlock = view.cHashBlock := by
  have hlive : ∀ k x, w.rawAccont.lookup k = some x → x.cKeyID ≠ 0 := by
    intro k x hx
    rw [hw.key_eq hv hx]
    exact (hw.same k x hx).1
  obtain ⟨hkeys, hhash, hlook⟩ :=
    saveContractAccounts_lookup hlive (fun k hk => (hw.listed k).mpr hk) h
  refine ⟨Finmap.ext_lookup fun j => ?_, hkeys, hhash⟩
  rw [hlook j, AccountWork.overlay, Store.lookup_union]
  split
  · next hj =>
    obtain ⟨x, hx⟩ := Option.isSome_iff_exists.mp ((hw.listed j).mpr hj)
    rw [hx]
    rfl
  · next hj =>
    have hnone : w.rawAccont.lookup j = none := by
      cases hlk : w.rawAccont.lookup j with
      | none => rfl
      | some x => exact absurd ((hw.listed j).mp (by rw [hlk]; rfl)) hj
    rw [hnone]
    rfl

/-- The saved copies keep the view in order. -/
theorem saveContractAccounts_wellKeyed (hv : view.WellKeyed) (hw : w.Over view)
    {logs logs' : List CAccountLog}
    (h : w.newAccont.foldlM (saveContractAccount w) (view, logs) = .ok (view', logs')) :
    view'.WellKeyed := by
  obtain ⟨hacc, -, -⟩ := saveContractAccounts_accounts hv hw h
  intro k a ha
  rw [hacc, AccountWork.overlay, Store.lookup_union] at ha
  cases hraw : w.rawAccont.lookup k with
  | none =>
    rw [hraw, Option.none_or] at ha
    exact hv k a ha
  | some x =>
    rw [hraw] at ha
    obtain rfl := Option.some.inj ha
    exact hw.key_eq hv hraw

end CTransaction

end Dacrs
