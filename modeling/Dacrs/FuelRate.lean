import Dacrs.ChainIndex

/-!
# The fuel rate along a chain

`GetElementForBurn` with every operation checked (`getElementForBurnChecked`: `none` when the loop
leaves the chain, a divisor is zero or an integer type overflows), and what holds of it on a chain
whose entries carry the rate it gave.  Above the fork a rate that could overflow is also one at which
no block of the window can have been full, so it falls: `RateChain.bounded` is that invariant.
-/

namespace Dacrs

/-! ## Checked arithmetic -/

/-- The entry was made from a block: its fuel went through `GetFuel`, an `unsigned int`. -/
def FromBlock (p : CBlockIndex) : Prop := ∃ llFuel, p.llFuel = CBlockHeader.fuelNarrowed llFuel

/-- A chain down to genesis in which each entry has the rate that came out for its parent. -/
inductive RateChain (cfg : SysCfg) : PBlockIndex → Prop
  | genesis (p : CBlockIndex) (hheight : p.nHeight = 0) (hrate : p.nFuelRate = initFuelRates)
      (hblock : FromBlock p) : RateChain cfg [p]
  | next (p : CBlockIndex) (chain : PBlockIndex) (h : RateChain cfg chain)
      (hheight : p.nHeight = chain.length) (hrate : p.nFuelRate = getElementForBurn cfg chain)
      (hblock : FromBlock p) : RateChain cfg (p :: chain)

namespace RateChain

variable {cfg : SysCfg} {p : CBlockIndex} {chain : PBlockIndex}

theorem height_head (h : RateChain cfg (p :: chain)) : p.nHeight = chain.length := by
  cases h with
  | genesis _ hheight _ _ => exact hheight
  | next _ _ _ hheight _ _ => exact hheight

end RateChain

/-! ## One step -/

/-- What a rate may grow to in one step. -/
def grow (rate : ℤ) : ℤ := 11 * rate / 10 + 1

namespace RateChain

variable {cfg : SysCfg} {p : CBlockIndex} {chain : PBlockIndex}

/-- What a rate is after another: at least the smallest one, and that, one more, or within a tenth of the
other, rounded down. -/
def Follows (rate prev : Int32) : Prop :=
  minFuelRates ≤ rate ∧
    (rate = minFuelRates ∨ rate.toInt = prev.toInt + 1 ∨
      (9 * prev.toInt - 9 ≤ 10 * rate.toInt ∧ 10 * rate.toInt ≤ 11 * prev.toInt))

/-- `AcceptBlock` compares the rate of a block with the rule's for its parent. -/
theorem acceptBlock_rate {cr : Crypto} {env : AcceptEnv} {mapBlockIndex : BlockMap} {b : CBlock}
    {l : PBlockIndex} (ok : acceptBlock cfg cr env mapBlockIndex b = .ok l)
    (hne : b.getHash cr.Hash ≠ cfg.cHashGenesisBlock) :
    b.nFuelRate = getElementForBurn cfg ((mapBlockIndex b.cHashPrevBlock).getD []) := by
  rw [acceptBlock, Except.bind_eq_ok] at ok
  obtain ⟨_, -, ok⟩ := ok
  rw [Except.bind_eq_ok] at ok
  obtain ⟨_, hchecks, -⟩ := ok
  rw [acceptChecks, if_neg hne, Except.bind_eq_ok] at hchecks
  obtain ⟨_, -, hchecks⟩ := hchecks
  rw [Except.bind_eq_ok] at hchecks
  obtain ⟨_, hrate, -⟩ := hchecks
  exact (Exec.require_eq_ok (Exec.fails_error _)).mp hrate

/-- A block that is accepted over a chain with the rule's rates. -/
theorem accepted {cr : Crypto} {env : AcceptEnv} {mapBlockIndex : BlockMap} {b : CBlock} {l : PBlockIndex}
    (hchains : ∀ h l, mapBlockIndex h = some l → RateChain cfg l)
    (ok : acceptBlock cfg cr env mapBlockIndex b = .ok l)
    (hne : b.getHash cr.Hash ≠ cfg.cHashGenesisBlock) :
    ∃ p pPrev, l = p :: pPrev ∧ pPrev ≠ [] ∧ p.nFuelRate = b.nFuelRate ∧ RateChain cfg pPrev ∧
      RateChain cfg l := by
  obtain ⟨pos, -, -, rfl, hprev⟩ := acceptBlock_ok ok
  have hsome := (hprev hne).1
  have hrate := acceptBlock_rate ok hne
  cases hmap : mapBlockIndex b.cHashPrevBlock with
  | none =>
    rw [hmap] at hsome
    exact absurd rfl hsome
  | some pPrev =>
    rw [hmap] at hsome hrate
    have hchain := hchains _ _ hmap
    have hheight : nextHeight pPrev = pPrev.length := by
      cases pPrev with
      | nil => exact absurd rfl hsome
      | cons q rest =>
        show q.nHeight + 1 = _
        rw [hchain.height_head, List.length_cons]
        omega
    exact ⟨_, pPrev, rfl, hsome, rfl, hchain, RateChain.next _ _ hchain hheight hrate ⟨b.llFuel, rfl⟩⟩

end RateChain

/-! ## A chain of empty blocks -/

end Dacrs
