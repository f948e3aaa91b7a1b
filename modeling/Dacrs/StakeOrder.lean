import Dacrs.CoinDay
import Dacrs.Lib.OrderedSet
import Dacrs.Mining

/-!
# The order of the stake candidates

`ST_AccountComparator` says yes wherever the second account has not more coin days than the first, and
brings the coin days of both up to date as it compares them.  `stakeOrder_holds`: it is no strict order
on any account, since it says yes to an account and itself; what it does to the accounts changes no
later answer, and the set of `CreatePosTx` still gets each account it should, in descending order.
-/

namespace Dacrs

namespace CAccount

/-! ## The comparison -/

section
variable (cfg : SysCfg) (nCurHeight : ℤ)

/-- What `GetAccountPos` returns; the account it is asked of becomes `upDateCoinDay`. -/
def getAccountPos (a : CAccount) : UInt64 := (a.upDateCoinDay cfg nCurHeight).ullCoinDay

/-- The answer of `ST_AccountComparator`, at the height after the tip. -/
def precedes (cAccountA cAccountB : CAccount) : Bool :=
  if cAccountA.getAccountPos cfg nCurHeight < cAccountB.getAccountPos cfg nCurHeight then false
  else true

theorem upDateCoinDay_idem (a : CAccount) :
    (a.upDateCoinDay cfg nCurHeight).upDateCoinDay cfg nCurHeight = a.upDateCoinDay cfg nCurHeight := by
  by_cases hle : nCurHeight ≤ a.nHeight
  · rw [a.upDateCoinDay_of_le cfg hle, a.upDateCoinDay_of_le cfg hle]
  · apply upDateCoinDay_of_le
    rw [a.upDateCoinDay_nHeight cfg (by omega)]

theorem getAccountPos_upDateCoinDay (a : CAccount) :
    (a.upDateCoinDay cfg nCurHeight).getAccountPos cfg nCurHeight = a.getAccountPos cfg nCurHeight := by
  unfold getAccountPos
  rw [upDateCoinDay_idem]

theorem precedes_iff (a b : CAccount) : precedes cfg nCurHeight a b = true ↔
    b.getAccountPos cfg nCurHeight ≤ a.getAccountPos cfg nCurHeight := by
  unfold precedes
  rw [← UInt64.not_lt]
  split
  · next hlt => simp [hlt]
  · next hlt => simp [hlt]

/-- Equal stakes are what two accounts precede each other with. -/
theorem precedes_both_iff (a b : CAccount) :
    (precedes cfg nCurHeight a b = true ∧ precedes cfg nCurHeight b a = true) ↔
      a.getAccountPos cfg nCurHeight = b.getAccountPos cfg nCurHeight := by
  rw [precedes_iff, precedes_iff]
  constructor
  · rintro ⟨hba, hab⟩
    exact UInt64.le_antisymm hab hba
  · intro heq
    rw [heq]
    exact ⟨UInt64.le_refl _, UInt64.le_refl _⟩

theorem precedes_trans {a b c : CAccount} (hab : precedes cfg nCurHeight a b = true)
    (hbc : precedes cfg nCurHeight b c = true) : precedes cfg nCurHeight a c = true := by
  rw [precedes_iff] at hab hbc ⊢
  exact UInt64.le_trans hbc hab

end

/-! ## A pass of comparisons -/

section
variable (cfg : SysCfg) (nCurHeight : ℤ)

/-- `GetAccountPos` of the account at an address. -/
def settle (m : ℕ → CAccount) (i : ℕ) : ℕ → CAccount :=
  Function.update m i ((m i).upDateCoinDay cfg nCurHeight)

/-- `ST_AccountComparator` on the accounts at two addresses, and the accounts it leaves behind. -/
def accountComparator (m : ℕ → CAccount) (i j : ℕ) : Bool × (ℕ → CAccount) :=
  let posA := (m i).getAccountPos cfg nCurHeight
  let m' := settle cfg nCurHeight m i
  let posB := (m' j).getAccountPos cfg nCurHeight
  (if posA < posB then false else true, settle cfg nCurHeight m' j)

/-- One comparison after the other. -/
def compareAll (m : ℕ → CAccount) (asked : List (ℕ × ℕ)) : ℕ → CAccount :=
  asked.foldl (fun m ask => (accountComparator cfg nCurHeight m ask.1 ask.2).2) m

theorem getAccountPos_settle (m : ℕ → CAccount) (i k : ℕ) :
    (settle cfg nCurHeight m i k).getAccountPos cfg nCurHeight = (m k).getAccountPos cfg nCurHeight := by
  unfold settle
  by_cases hik : k = i
  · subst hik
    rw [Function.update_self, getAccountPos_upDateCoinDay]
  · rw [Function.update_of_ne hik]

/-- The answer is that for the accounts themselves, also where both are the same one. -/
theorem accountComparator_fst (m : ℕ → CAccount) (i j : ℕ) :
    (accountComparator cfg nCurHeight m i j).1 = precedes cfg nCurHeight (m i) (m j) := by
  unfold accountComparator precedes
  dsimp only
  rw [getAccountPos_settle]

theorem getAccountPos_accountComparator (m : ℕ → CAccount) (i j k : ℕ) :
    ((accountComparator cfg nCurHeight m i j).2 k).getAccountPos cfg nCurHeight
      = (m k).getAccountPos cfg nCurHeight := by
  show (settle cfg nCurHeight (settle cfg nCurHeight m i) j k).getAccountPos cfg nCurHeight = _
  rw [getAccountPos_settle, getAccountPos_settle]

theorem getAccountPos_compareAll (m : ℕ → CAccount) (asked : List (ℕ × ℕ)) (k : ℕ) :
    (compareAll cfg nCurHeight m asked k).getAccountPos cfg nCurHeight
      = (m k).getAccountPos cfg nCurHeight := by
  induction asked generalizing m with
  | nil => rfl
  | cons ask asked ih =>
    show (compareAll cfg nCurHeight (accountComparator cfg nCurHeight m ask.1 ask.2).2 asked
      k).getAccountPos cfg nCurHeight = _
    rw [ih, getAccountPos_accountComparator]

/-- Asked again later, the comparison says the same. -/
theorem accountComparator_again (m : ℕ → CAccount) (asked : List (ℕ × ℕ)) (i j : ℕ) :
    (accountComparator cfg nCurHeight (compareAll cfg nCurHeight m asked) i j).1
      = (accountComparator cfg nCurHeight m i j).1 := by
  rw [accountComparator_fst, accountComparator_fst]
  unfold precedes
  rw [getAccountPos_compareAll, getAccountPos_compareAll]

end

end CAccount

/-! ## The set -/

namespace CBlock

open CAccount

section
variable (node : Node) (wallet : CWallet) (setCreateKey : List CKeyID) (b : CBlock)
  (view : CAccountViewCache)

/-- The accounts that are inserted, as they are then. -/
def eligible : List CAccount := wallet.getKeys.filterMap (minerAccount node setCreateKey b view)

/-- `g_cChainActive.Tip()->m_nHeight+1`, an `int`. -/
def tipHeight (q : CBlockIndex) : ℤ := (UInt32.ofInt (q.nHeight + 1)).toInt32.toInt

/-- `setAcctInfo` as a search tree.  The comparison leaves the accounts in it as they are
(`eligible_settled`), so its answers are all it does. -/
def SetAcctInfo (q : CBlockIndex) : OrderedSet.Tree CAccount → Prop :=
  OrderedSet.Built (precedes node.cfg (tipHeight q)) (eligible node wallet setCreateKey b view)

variable {node wallet setCreateKey b view}

theorem tipHeight_eq {q : CBlockIndex} (hguard : UInt32.ofInt (q.nHeight + 1) = b.unHeight) :
    tipHeight q = b.height := by
  unfold tipHeight height
  rw [hguard]

/-- Their coin days are up to date at the height of the block. -/
theorem eligible_settled {a : CAccount} (h : a ∈ eligible node wallet setCreateKey b view) :
    a.upDateCoinDay node.cfg b.height = a := by
  obtain ⟨keyid, -, hkey⟩ := List.mem_filterMap.mp h
  obtain ⟨c, -, -, -, rfl⟩ := minerAccount_eq_some hkey
  exact upDateCoinDay_idem node.cfg b.height c

/-- The order that the answers are those of. -/
def StakeGe (cfg : SysCfg) (nCurHeight : ℤ) (a c : CAccount) : Prop :=
  c.getAccountPos cfg nCurHeight ≤ a.getAccountPos cfg nCurHeight

instance decidableStakeGe (cfg : SysCfg) (nCurHeight : ℤ) : DecidableRel (StakeGe cfg nCurHeight) :=
  fun a c => inferInstanceAs (Decidable (c.getAccountPos cfg nCurHeight ≤ a.getAccountPos cfg nCurHeight))

instance totalStakeGe (cfg : SysCfg) (nCurHeight : ℤ) : Std.Total (StakeGe cfg nCurHeight) :=
  ⟨fun _ _ => UInt64.le_total _ _⟩

instance transStakeGe (cfg : SysCfg) (nCurHeight : ℤ) : IsTrans CAccount (StakeGe cfg nCurHeight) :=
  ⟨fun _ _ _ hab hbc => UInt64.le_trans hbc hab⟩

theorem precedes_eq (cfg : SysCfg) (nCurHeight : ℤ) :
    precedes cfg nCurHeight = fun a c => decide (StakeGe cfg nCurHeight a c) := by
  funext a c
  rw [Bool.eq_iff_iff, precedes_iff, decide_eq_true_iff]
  rfl

/-- Among settled accounts the place is the one `insertAccount` finds. -/
theorem orderedInsert_settled {nCurHeight : ℤ} {k : CAccount} {l : List CAccount}
    (hk : k.upDateCoinDay node.cfg nCurHeight = k)
    (hl : ∀ a ∈ l, a.upDateCoinDay node.cfg nCurHeight = a) :
    l.orderedInsert (StakeGe node.cfg nCurHeight) k = insertAccount k l := by
  induction l with
  | nil => rfl
  | cons c l ih =>
    have hiff : StakeGe node.cfg nCurHeight k c ↔ c.ullCoinDay ≤ k.ullCoinDay := by
      unfold StakeGe getAccountPos
      rw [hk, hl c List.mem_cons_self]
    rw [List.orderedInsert_cons, ih fun a ha => hl a (List.mem_cons_of_mem c ha)]
    unfold insertAccount
    by_cases hle : c.ullCoinDay ≤ k.ullCoinDay
    · rw [if_pos hle, if_pos (hiff.mpr hle)]
    · rw [if_neg hle, if_neg (hle ∘ hiff.mp)]
      cases l with
      | nil => rfl
      | cons d l => rfl

theorem minerAccounts_eq {l : List CAccount} {nCurHeight : ℤ}
    (hl : ∀ a ∈ l, a.upDateCoinDay node.cfg nCurHeight = a) :
    l.foldl (fun s k => s.orderedInsert (StakeGe node.cfg nCurHeight) k) []
      = l.foldl (fun setAcctInfo a => insertAccount a setAcctInfo) [] ∧
    ∀ a ∈ l.foldl (fun setAcctInfo a => insertAccount a setAcctInfo) [],
      a.upDateCoinDay node.cfg nCurHeight = a := by
  induction l using List.reverseRecOn with
  | nil => simp
  | append_singleton l k ih =>
    obtain ⟨hlist, hset⟩ := ih fun a ha => hl a (List.mem_append_left [k] ha)
    have hk : k.upDateCoinDay node.cfg nCurHeight = k := hl k (by simp)
    rw [List.foldl_append, List.foldl_append, hlist]
    refine ⟨orderedInsert_settled hk hset, ?_⟩
    intro a ha
    rcases mem_insertAccount.mp ha with rfl | ha
    · exact hk
    · exact hset a ha

/-- However the set is balanced, it is the list that the search goes through: each account that may
mine once, the one with the most coin days first. -/
theorem setAcctInfo_complete {q : CBlockIndex} (hguard : UInt32.ofInt (q.nHeight + 1) = b.unHeight)
    {t : OrderedSet.Tree CAccount} (ht : SetAcctInfo node wallet setCreateKey b view q t) :
    t.toList = minerAccounts node wallet setCreateKey b view ∧
      t.toList.Perm (eligible node wallet setCreateKey b view) ∧
      t.toList.Pairwise fun a c => c.getAccountPos node.cfg b.height ≤ a.getAccountPos node.cfg b.height := by
  unfold SetAcctInfo at ht
  rw [tipHeight_eq hguard, precedes_eq] at ht
  obtain ⟨hlist, hperm, hsorted⟩ := ht.toList_eq
  refine ⟨?_, hperm, hsorted⟩
  rw [hlist]
  exact (minerAccounts_eq fun a ha => eligible_settled ha).1

end

/-! ## What is asked of the order -/

/-- Answers that can be chained and asked again, and a set with all candidates in order. -/
structure StakeListing (node : Node) (nCurHeight : ℤ) (S : Set CAccount) : Prop where
  trans : ∀ a ∈ S, ∀ c ∈ S, ∀ d ∈ S, precedes node.cfg nCurHeight a c = true →
    precedes node.cfg nCurHeight c d = true → precedes node.cfg nCurHeight a d = true
  again : ∀ m : ℕ → CAccount, (∀ i, m i ∈ S) → ∀ asked i j,
    (accountComparator node.cfg nCurHeight (compareAll node.cfg nCurHeight m asked) i j).1
      = (accountComparator node.cfg nCurHeight m i j).1
  candidates : ∀ wallet setCreateKey b view q chain, node.chainActive = q :: chain →
    UInt32.ofInt (q.nHeight + 1) = b.unHeight →
      (∃ t, SetAcctInfo node wallet setCreateKey b view q t) ∧
      ∀ t, SetAcctInfo node wallet setCreateKey b view q t →
        t.toList = minerAccounts node wallet setCreateKey b view ∧
        t.toList.Perm (eligible node wallet setCreateKey b view) ∧
        t.toList.Pairwise fun a c =>
          c.getAccountPos node.cfg b.height ≤ a.getAccountPos node.cfg b.height

/-- With it a strict order on the accounts. -/
structure StakeOrder (node : Node) (nCurHeight : ℤ) (S : Set CAccount) : Prop
    extends StakeListing node nCurHeight S where
  irrefl : ∀ a ∈ S, precedes node.cfg nCurHeight a a = false
  asymm : ∀ a ∈ S, ∀ c ∈ S, precedes node.cfg nCurHeight a c = true →
    precedes node.cfg nCurHeight c a = false

theorem stakeListing (node : Node) (nCurHeight : ℤ) (S : Set CAccount) :
    StakeListing node nCurHeight S where
  trans _ _ _ _ _ _ hac hcd := precedes_trans node.cfg nCurHeight hac hcd
  again m _ asked i j := accountComparator_again node.cfg nCurHeight m asked i j
  candidates _ _ _ _ _ _ _ hguard :=
    ⟨OrderedSet.exists_built _ _, fun _ ht => setAcctInfo_complete hguard ht⟩

/-- The comparison is a strict order on no account; two accounts are on one side of each other exactly
when their stakes differ; the rest of what is asked holds of all accounts. -/
theorem stakeOrder_holds (node : Node) (nCurHeight : ℤ) (S : Set CAccount) :
    (StakeOrder node nCurHeight S ↔ S = ∅) ∧ StakeListing node nCurHeight S ∧
      ∀ a ∈ S, ∀ c ∈ S, (precedes node.cfg nCurHeight a c = !precedes node.cfg nCurHeight c a) ↔
        a.getAccountPos node.cfg nCurHeight ≠ c.getAccountPos node.cfg nCurHeight := by
  refine ⟨?_, stakeListing node nCurHeight S, ?_⟩
  · constructor
    · intro h
      apply Set.eq_empty_of_forall_notMem
      intro a ha
      have hself := ((precedes_both_iff node.cfg nCurHeight a a).mpr rfl).1
      rw [h.irrefl a ha] at hself
      cases hself
    · rintro rfl
      exact { stakeListing node nCurHeight ∅ with
        irrefl := fun a ha => absurd ha (Set.notMem_empty a)
        asymm := fun a ha => absurd ha (Set.notMem_empty a) }
  · intro a _ c _
    have hboth := precedes_both_iff node.cfg nCurHeight a c
    have hone : precedes node.cfg nCurHeight a c = true ∨ precedes node.cfg nCurHeight c a = true := by
      rw [precedes_iff, precedes_iff]
      exact UInt64.le_total _ _
    rw [Ne, ← hboth]
    cases hac : precedes node.cfg nCurHeight a c with
    | false => simp_all
    | true => simp

/-- Two registered accounts of the same balance and age: each goes before the other. -/
theorem ties_precede : ¬ ∀ (node : Node) (nCurHeight : ℤ) (S : Set CAccount),
    StakeOrder node nCurHeight S := by
  intro h
  have horder := h Sample.node 100
    {Sample.miner, { Sample.holder with ullValues := Sample.miner.ullValues }}
  have hback := horder.asymm Sample.miner (by simp)
    { Sample.holder with ullValues := Sample.miner.ullValues } (by simp) (by decide +kernel)
  revert hback
  decide +kernel

end CBlock

end Dacrs
