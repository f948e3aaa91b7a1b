import Dacrs.ContractSpec
import Dacrs.Sample

/-!
# Whose money a contract can take

`CheckOperate` lets an operation take money only from the account of the called contract
(`checkOperate_mem`), however the account is named.  So a list of operations lowers no other
balance and keeps the total, unless an addition wraps modulo 2^64: `OperateAccount` looks at the
sum only after it has wrapped.  `contract_authority_iff` says exactly when that happens.
-/

open Codec (Bytes)

namespace Dacrs

/-! ## One addition -/

/-- An operation that adds a nonzero amount. -/
def CVmOperate.Adds (op : CVmOperate) : Prop := op.operType = .addFree ∧ op.arruchMoney ≠ 0

/-- An addition to 2^63 or more that passes the range check has wrapped; every other operation is
exact. -/
theorem CAccount.operateAccount_wraps (cfg : SysCfg) {op : CVmOperate} {h : ℤ} {a b : CAccount}
    (hop : a.operateAccount cfg op.operType op.arruchMoney h = some b) :
    (¬ (op.Adds ∧ 2 ^ 63 ≤ a.balance) ∧ (b.balance : ℤ) = a.balance + op.signed) ∨
      ((op.Adds ∧ 2 ^ 63 ≤ a.balance) ∧ (b.balance : ℤ) = a.balance + op.signed - 2 ^ 64) := by
  have hlt := a.ullValues.toNat_lt
  have hb := b.ullValues.toNat_lt
  unfold CVmOperate.Adds CVmOperate.signed EmOperType.signed balance
  obtain ⟨hrange, -, -, hcase⟩ := operateAccount_cases cfg hop
  have hsmall := toNat_le_of_isMoneyOverflow cfg hrange
  rcases hcase with ⟨h0, hval⟩ | ⟨htype, hval, hsum⟩ | ⟨htype, hle, hval⟩
  · left
    rw [h0, hval]
    refine ⟨fun hw => hw.1.2 rfl, ?_⟩
    cases op.operType <;> simp
  · have hmax := toNat_le_of_isMoneyOverflow cfg hsum
    rw [hval, UInt64.toNat_add] at hmax
    rw [htype, hval, UInt64.toNat_add]
    by_cases h0 : op.arruchMoney = 0
    · left
      rw [h0]
      refine ⟨fun hw => hw.1.2 rfl, ?_⟩
      simp only [UInt64.toNat_zero]
      omega
    · by_cases hbig : 2 ^ 63 ≤ a.ullValues.toNat
      · right
        refine ⟨⟨⟨rfl, h0⟩, hbig⟩, ?_⟩
        dsimp only
        omega
      · left
        refine ⟨fun hw => hbig hw.2, ?_⟩
        dsimp only
        omega
  · left
    have hnat := UInt64.le_iff_toNat_le.mp hle
    rw [htype, hval, UInt64.toNat_sub_of_le _ _ hle]
    refine ⟨fun hw => ?_, ?_⟩
    · cases hw.1.1
    · dsimp only
      omega

namespace CVmRunEvn

open CAccountViewCache (WellKeyed)

section
variable {cfg : SysCfg} {cr : Crypto} {view : CAccountViewCache}

/-! ## What CheckOperate allows -/

/-- An accepted operation adds money, or takes it from the account of the called contract. -/
theorem checkOperateOne_allows {s : CScriptDBViewCache} {des : CRegID}
    {sums sums' : UInt64 × UInt64} {op : CVmOperate}
    (h : checkOperateOne cfg cr view s des sums op = some sums') :
    op.operType = .addFree ∨
      op.operType = .minusFree ∧ CRegID.ofVec6 (getAccountID cfg cr view op) = some des := by
  obtain ⟨hsums, hreg⟩ := checkOperateOne_cases h
  cases htype : op.operType with
  | addFree => exact .inl rfl
  | null =>
    unfold checkSums at hsums
    rw [htype] at hsums
    cases hsums
  | minusFree =>
    right
    refine ⟨rfl, ?_⟩
    unfold checkSums at hsums
    rw [htype] at hsums
    cases hid : CRegID.ofVec6 (getAccountID cfg cr view op) with
    | none =>
      rw [hid] at hsums
      cases hsums
    | some r =>
      rw [hid] at hsums hreg
      dsimp only at hsums
      -- another contract's account fails the first check, an account without a script the second
      have hscript : s.haveScript r.getVec6 = true := by
        unfold checkRegid at hreg
        by_contra hno
        simp [htype, hno] at hreg
      split at hsums
      · cases hsums
      · next hown =>
        rw [not_and_not_right] at hown
        rw [hown hscript]

theorem checkOperate_mem {s : CScriptDBViewCache} {des : CRegID} {ops : List CVmOperate}
    (h : checkOperate cfg cr view s des ops = true) {op : CVmOperate} (hop : op ∈ ops) :
    op.operType = .addFree ∨
      op.operType = .minusFree ∧ CRegID.ofVec6 (getAccountID cfg cr view op) = some des := by
  have hrun : ∀ (ops : List CVmOperate) (sums sums' : UInt64 × UInt64),
      ops.foldlM (checkOperateOne cfg cr view s des) sums = some sums' → op ∈ ops →
      op.operType = .addFree ∨
        op.operType = .minusFree ∧ CRegID.ofVec6 (getAccountID cfg cr view op) = some des := by
    intro ops
    induction ops with
    | nil =>
      intro sums sums' _ hmem
      cases hmem
    | cons o ops ih =>
      intro sums sums' hfold hmem
      rw [List.foldlM_cons, Option.bind_eq_bind, Option.bind_eq_some_iff] at hfold
      obtain ⟨t, h1, h2⟩ := hfold
      rcases List.mem_cons.mp hmem with rfl | hrest
      · exact checkOperateOne_allows h1
      · exact ih t sums' h2 hrest
  unfold checkOperate at h
  split at h
  · cases h
  · split at h
    · cases h
    · next add minus hfold => exact hrun ops _ _ hfold hop

/-- The account of the called contract is the one its money is taken from. -/
theorem operateKey_des (hv : view.WellKeyed) {des : CRegID} {op : CVmOperate} {k : CKeyID}
    (hid : CRegID.ofVec6 (getAccountID cfg cr view op) = some des)
    (hk : operateKey cfg cr view op = some k) : view.keyIds.lookup des = some k := by
  unfold operateKey operateTarget at hk
  rw [hid] at hk
  obtain ⟨a, ha, rfl⟩ := Option.map_eq_some_iff.mp hk
  obtain ⟨j, hj, hlook⟩ := (view.getAccount_eq_some_iff cr (.regID des) a).mp ha
  rw [hv j a hlook]
  exact hj

/-! ## Running balances -/

variable (cfg cr view) in
/-- No nonzero amount is added to a balance of 2^63 or more.  `bal` is the exact balance under each
key id before the operations. -/
def NoWrap : (CKeyID → ℤ) → List CVmOperate → Prop
  | _, [] => True
  | bal, op :: ops =>
    match operateKey cfg cr view op with
    | none => True
    | some k => (op.Adds → bal k < 2 ^ 63) ∧ NoWrap (Function.update bal k (bal k + op.signed)) ops

/-- The balances the copies have made. -/
def AccountWork.balances (w : AccountWork) (view : CAccountViewCache) (k : CKeyID) : ℤ :=
  Store.measure CAccount.balance ((w.overlay view).lookup k)

/-- One operation, exact or wrapped. -/
theorem opeatorAccountOne_wraps (hv : view.WellKeyed) {nCurHeight : ℤ} {w w' : AccountWork}
    {op : CVmOperate} (h : opeatorAccountOne cfg cr view nCurHeight w op = some w')
    (hw : w.Over view) :
    ∃ k, operateKey cfg cr view op = some k ∧
      ((¬ (op.Adds ∧ 2 ^ 63 ≤ w.balances view k) ∧
          Store.Moves CAccount.balance (w.overlay view) [(k, op.signed)] (w'.overlay view)) ∨
        ((op.Adds ∧ 2 ^ 63 ≤ w.balances view k) ∧
          Store.Moves CAccount.balance (w.overlay view) [(k, op.signed - 2 ^ 64)]
            (w'.overlay view))) := by
  obtain ⟨k, old, acct, -, hkey, -, hbal, hop, rfl⟩ := opeatorAccountOne_copy hv h hw
  have hover : AccountWork.overlay ⟨w.rawAccont.put k (some acct), w.newAccont ++ [k]⟩ view
      = (w.overlay view).put k (some acct) := Store.put_union w.rawAccont view.accounts k acct
  have hold : w.balances view k = old.balance := by
    rw [AccountWork.balances, hbal]
  refine ⟨k, hkey, ?_⟩
  rw [hover, hold]
  rcases CAccount.operateAccount_wraps cfg hop with ⟨hno, hexact⟩ | ⟨hyes, hwrap⟩
  · left
    refine ⟨fun hw => hno ⟨hw.1, by exact_mod_cast hw.2⟩, Store.Moves.single k _ _ ?_⟩
    rw [Store.measure_some, hexact, hbal]
  · right
    refine ⟨⟨hyes.1, by exact_mod_cast hyes.2⟩, Store.Moves.single k _ _ ?_⟩
    rw [Store.measure_some, hwrap, hbal]
    ring

/-- After an exact operation the balances are the running ones. -/
theorem AccountWork.balances_update {w w' : AccountWork} {k : CKeyID} {d : ℤ}
    (h : Store.Moves CAccount.balance (w.overlay view) [(k, d)] (w'.overlay view)) :
    w'.balances view = Function.update (w.balances view) k (w.balances view k + d) := by
  funext j
  have hj := h.balance j
  unfold AccountWork.balances
  rw [hj]
  by_cases hjk : j = k
  · subst hjk
    simp
  · simp [hjk, Ne.symm hjk]

/-- However often an addition wraps, the total falls by a multiple of 2^64 below the sum of the
amounts. -/
theorem opeatorAccounts_total (hv : view.WellKeyed) {nCurHeight : ℤ} {ops : List CVmOperate}
    {w w' : AccountWork} (hw : w.Over view)
    (h : ops.foldlM (opeatorAccountOne cfg cr view nCurHeight) w = some w') :
    ∃ n : ℕ, (Store.total CAccount.balance (w'.overlay view) : ℤ)
      = Store.total CAccount.balance (w.overlay view) + (ops.map CVmOperate.signed).sum
        - 2 ^ 64 * n := by
  induction ops generalizing w with
  | nil =>
    obtain rfl := Option.some.inj h
    exact ⟨0, by simp⟩
  | cons op ops ih =>
    rw [List.foldlM_cons, Option.bind_eq_bind, Option.bind_eq_some_iff] at h
    obtain ⟨w₁, h1, h2⟩ := h
    obtain ⟨n, hn⟩ := ih (opeatorAccountOne_over hv h1 hw) h2
    obtain ⟨k, -, ⟨-, hmove⟩ | ⟨-, hmove⟩⟩ := opeatorAccountOne_wraps hv h1 hw
    · have htotal := hmove.total
      refine ⟨n, ?_⟩
      rw [hn, htotal]
      simp only [List.map_cons, List.map_nil, List.sum_cons, List.sum_nil]
      ring
    · have htotal := hmove.total
      refine ⟨n + 1, ?_⟩
      rw [hn, htotal]
      simp only [List.map_cons, List.map_nil, List.sum_cons, List.sum_nil]
      push_cast
      ring

/-- With a wrapped addition it does fall. -/
theorem opeatorAccounts_wrapped (hv : view.WellKeyed) {nCurHeight : ℤ} {ops : List CVmOperate}
    {w w' : AccountWork} (hw : w.Over view)
    (h : ops.foldlM (opeatorAccountOne cfg cr view nCurHeight) w = some w')
    (hwrap : ¬ NoWrap cfg cr view (w.balances view) ops) :
    (Store.total CAccount.balance (w'.overlay view) : ℤ)
      < Store.total CAccount.balance (w.overlay view) + (ops.map CVmOperate.signed).sum := by
  induction ops generalizing w with
  | nil => exact absurd trivial hwrap
  | cons op ops ih =>
    rw [List.foldlM_cons, Option.bind_eq_bind, Option.bind_eq_some_iff] at h
    obtain ⟨w₁, h1, h2⟩ := h
    have hw₁ := opeatorAccountOne_over hv h1 hw
    obtain ⟨k, hkey, ⟨hno, hmove⟩ | ⟨-, hmove⟩⟩ := opeatorAccountOne_wraps hv h1 hw
    · have hrest : ¬ NoWrap cfg cr view (w₁.balances view) ops := by
        intro hnext
        refine hwrap ?_
        rw [NoWrap, hkey]
        refine ⟨fun hadds => ?_, ?_⟩
        · by_contra hbig
          exact hno ⟨hadds, not_lt.mp hbig⟩
        · rw [AccountWork.balances_update hmove] at hnext
          exact hnext
      have hfinal := ih hw₁ h2 hrest
      have htotal := hmove.total
      simp only [List.map_cons, List.map_nil, List.sum_cons, List.sum_nil] at htotal ⊢
      omega
    · obtain ⟨n, hn⟩ := opeatorAccounts_total hv hw₁ h2
      have htotal := hmove.total
      simp only [List.map_cons, List.map_nil, List.sum_cons, List.sum_nil] at htotal ⊢
      omega

/-- A movement that is what an operation asks for. -/
def Applies (cfg : SysCfg) (cr : Crypto) (view : CAccountViewCache) (op : CVmOperate)
    (m : CKeyID × ℤ) : Prop :=
  operateKey cfg cr view op = some m.1 ∧ m.2 = op.signed

/-- Without one, every operation moves its amount. -/
theorem opeatorAccounts_exact (hv : view.WellKeyed) {nCurHeight : ℤ} {ops : List CVmOperate}
    {w w' : AccountWork} (hw : w.Over view)
    (h : ops.foldlM (opeatorAccountOne cfg cr view nCurHeight) w = some w')
    (hwrap : NoWrap cfg cr view (w.balances view) ops) :
    ∃ ms, List.Forall₂ (Applies cfg cr view) ops ms ∧
      Store.Moves CAccount.balance (w.overlay view) ms (w'.overlay view) := by
  induction ops generalizing w with
  | nil =>
    obtain rfl := Option.some.inj h
    exact ⟨[], .nil, .nil⟩
  | cons op ops ih =>
    rw [List.foldlM_cons, Option.bind_eq_bind, Option.bind_eq_some_iff] at h
    obtain ⟨w₁, h1, h2⟩ := h
    have hw₁ := opeatorAccountOne_over hv h1 hw
    obtain ⟨k, hkey, hone⟩ := opeatorAccountOne_wraps hv h1 hw
    rw [NoWrap, hkey] at hwrap
    rcases hone with ⟨-, hmove⟩ | ⟨hbad, -⟩
    · obtain ⟨ms, hms, hrest⟩ := ih hw₁ h2 (by
        rw [AccountWork.balances_update hmove]
        exact hwrap.2)
      exact ⟨(k, op.signed) :: ms, .cons ⟨hkey, rfl⟩ hms, hmove.append hrest⟩
    · have := hwrap.1 hbad.1
      omega

theorem Applies.sum {ops : List CVmOperate} {ms : List (CKeyID × ℤ)}
    (h : List.Forall₂ (Applies cfg cr view) ops ms) :
    (ms.map Prod.snd).sum = (ops.map CVmOperate.signed).sum := by
  induction h with
  | nil => rfl
  | cons hone _ ih => rw [List.map_cons, List.map_cons, List.sum_cons, List.sum_cons, ih, hone.2]

/-- Only additions concern an account that is not the called contract's. -/
theorem Applies.filter_nonneg (hv : view.WellKeyed) {des : CRegID} {k : CKeyID}
    {ops : List CVmOperate} {ms : List (CKeyID × ℤ)}
    (h : List.Forall₂ (Applies cfg cr view) ops ms)
    (hallowed : ∀ op ∈ ops, op.operType = .addFree ∨
      op.operType = .minusFree ∧ CRegID.ofVec6 (getAccountID cfg cr view op) = some des)
    (hk : view.keyIds.lookup des ≠ some k) : 0 ≤ ((ms.filter (·.1 == k)).map Prod.snd).sum := by
  induction h with
  | nil => simp
  | @cons op m ops ms hone _ ih =>
    have hrest := ih fun o ho => hallowed o (List.mem_cons_of_mem op ho)
    by_cases hm : m.1 = k
    · have hadds : op.operType = .addFree := by
        rcases hallowed op List.mem_cons_self with hadd | ⟨-, hid⟩
        · exact hadd
        · rw [operateKey_des hv hid hone.1, hm] at hk
          exact absurd rfl hk
      have hpos : 0 ≤ m.2 := by
        rw [hone.2, CVmOperate.signed, hadds]
        exact Int.natCast_nonneg _
      simp only [List.filter_cons, hm, beq_self_eq_true, if_true, List.map_cons, List.sum_cons]
      omega
    · simpa [List.filter_cons, hm] using hrest

end

end CVmRunEvn

/-! ## Authority -/

/-- Nobody but the called contract has lost money, and the total is the same. -/
def TakesOnlyFrom (des : CRegID) (view view' : CAccountViewCache) : Prop :=
  (∀ k, view.keyIds.lookup des ≠ some k →
    Store.measure CAccount.balance (view.accounts.lookup k)
      ≤ Store.measure CAccount.balance (view'.accounts.lookup k)) ∧
  view'.total = view.total

namespace CVmRunEvn

/-- The operations of a contract that are accepted, applied and saved take money only from the
contract's own account and keep the total exactly when none of their additions wraps. -/
theorem contract_authority_iff (cfg : SysCfg) (cr : Crypto) (view view' : CAccountViewCache)
    (s : CScriptDBViewCache) (des : CRegID) (nCurHeight : ℤ) (ops : List CVmOperate)
    (w : AccountWork) (logs logs' : List CAccountLog) (hv : view.WellKeyed)
    (hcheck : checkOperate cfg cr view s des ops = true)
    (hop : opeatorAccount cfg cr view nCurHeight ops = some w)
    (hsave : w.newAccont.foldlM (CTransaction.saveContractAccount w) (view, logs)
      = .ok (view', logs')) :
    TakesOnlyFrom des view view' ↔
      NoWrap cfg cr view (fun k => Store.measure CAccount.balance (view.accounts.lookup k)) ops := by
  have hsum := checkOperate_sum hcheck
  obtain ⟨hacc, -, -⟩ :=
    CTransaction.saveContractAccounts_accounts hv (opeatorAccount_over hv hop) hsave
  have hbase : AccountWork.overlay ⟨∅, []⟩ view = view.accounts := Finmap.empty_union
  have hbal : AccountWork.balances ⟨∅, []⟩ view
      = fun k => (Store.measure CAccount.balance (view.accounts.lookup k) : ℤ) := by
    funext k
    rw [AccountWork.balances, hbase]
  rw [← hbal]
  constructor
  · rintro ⟨-, htotal⟩
    by_contra hwrap
    have hless := opeatorAccounts_wrapped hv (.empty view) hop hwrap
    rw [hsum, hbase, ← hacc] at hless
    have hsame : Store.total CAccount.balance view'.accounts
      = Store.total CAccount.balance view.accounts := htotal
    omega
  · intro hwrap
    obtain ⟨ms, hms, hmoves⟩ := opeatorAccounts_exact hv (.empty view) hop hwrap
    rw [hbase, ← hacc] at hmoves
    constructor
    · intro k hk
      have hbalance := hmoves.balance k
      have hadds := Applies.filter_nonneg hv hms (fun op h => checkOperate_mem hcheck h) hk
      omega
    · have htotal := hmoves.total
      rw [Applies.sum hms, hsum, add_zero] at htotal
      exact_mod_cast htotal

/-- A contract with ten units, and another account. -/
def sampleHoldings (ullValues : UInt64) : CAccountViewCache :=
  Sample.viewOf [{ CAccount.fresh 6 with ullValues := 10 }, { CAccount.fresh 9 with ullValues }]
    [(⟨60, 1⟩, 6), (⟨50, 1⟩, 9)] 0

def sampleScripts : CScriptDBViewCache :=
  Sample.scriptsOf [(CScriptDBViewCache.scriptKey (CRegID.getVec6 ⟨60, 1⟩), [1])]

def sampleOperate (r : CRegID) (type : UInt8) (money : UInt64) : CVmOperate where
  uchNaccType := CVmOperate.emRegid
  arruchAccountId := Vector.ofFn fun i => r.getVec6.getD i 0
  uchOpeatorType := type
  unOutHeight := 0
  arruchMoney := money

/-- The contract pays its ten units to the other account. -/
def samplePayment : List CVmOperate :=
  [sampleOperate ⟨60, 1⟩ CVmOperate.emMinusFree 10, sampleOperate ⟨50, 1⟩ CVmOperate.emAddFree 10]

theorem contract_authority_iff_payment : ∃ w view' logs,
    opeatorAccount Sample.cfg Sample.crypto (sampleHoldings 7) 100 samplePayment = some w ∧
    w.newAccont.foldlM (CTransaction.saveContractAccount w) (sampleHoldings 7, [])
      = .ok (view', logs) ∧
    TakesOnlyFrom ⟨60, 1⟩ (sampleHoldings 7) view' :=
  ⟨_, _, _, rfl, rfl, (contract_authority_iff Sample.cfg Sample.crypto (sampleHoldings 7) _
    sampleScripts ⟨60, 1⟩ 100 samplePayment _ [] _ (Sample.viewOf_wellKeyed _ _ _) (by decide) rfl
    rfl).mpr ⟨fun _ => by decide, fun _ => by decide, trivial⟩⟩

/-- Paid to an account that holds 2^64 - 1, the ten units leave it with nine. -/
theorem payment_wraps : ¬ ∀ (view view' : CAccountViewCache) (s : CScriptDBViewCache) (des : CRegID)
    (ops : List CVmOperate) (w : AccountWork) (logs : List CAccountLog), view.WellKeyed →
    checkOperate Sample.cfg Sample.crypto view s des ops = true →
    opeatorAccount Sample.cfg Sample.crypto view 100 ops = some w →
    w.newAccont.foldlM (CTransaction.saveContractAccount w) (view, []) = .ok (view', logs) →
    TakesOnlyFrom des view view' := by
  intro h
  have hall := h (sampleHoldings (UInt64.ofNat (2 ^ 64 - 1))) _ sampleScripts ⟨60, 1⟩ samplePayment
    _ _ (Sample.viewOf_wellKeyed _ _ _) (by decide) rfl rfl
  have hless := hall.1 9 (by decide)
  revert hless
  decide

end CVmRunEvn

end Dacrs
