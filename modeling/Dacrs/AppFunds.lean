import Dacrs.AppAccount

/-!
# The funds of an app user

An app account holds a free amount and frozen amounts, told apart by out-height and tag.
`operateOne_cases` says what one operation does to them: with a nonnegative amount exactly what it
is meant to, with a negative one nothing, or something that leaves an amount of 2^63 or more.
`Stays.moves` and `Within.stays` follow a list of operations, and `autoMergeFreezeToFree_cases`
the thawing of matured funds.
-/

open Codec (Bytes)

namespace Dacrs

/-- Which frozen fund: its out-height and its tag. -/
abbrev FundSlot := ℤ × Bytes

def CAppCFund.slot (f : CAppCFund) : FundSlot := (f.nHeight, f.vTag)

theorem CAppCFund.sameSlot_iff (f g : CAppCFund) : f.sameSlot g = true ↔ f.slot = g.slot := by
  simp [sameSlot, slot, and_comm]

namespace CAppFundOperate

/-- What an operation is meant to add. -/
def signed (op : CAppFundOperate) : ℤ :=
  if op.uchOpeatorType = addFreeOp ∨ op.uchOpeatorType = addTagOp then op.llMoney.toInt
  else if op.uchOpeatorType = subFreeOp ∨ op.uchOpeatorType = subTagOp then -op.llMoney.toInt
  else 0

/-- The amount it is about: the free one, or a frozen fund. -/
def slot (op : CAppFundOperate) : Option FundSlot :=
  if op.uchOpeatorType = addTagOp ∨ op.uchOpeatorType = subTagOp then
    some (toInt32 op.unOutHeight, op.arruchFundTag.take op.uchFundTaglen.toNat)
  else none

/-- A negative amount is read as 2^64 more. -/
theorem getUint64Value_toNat (op : CAppFundOperate) :
    (0 ≤ op.llMoney.toInt ∧ (op.getUint64Value.toNat : ℤ) = op.llMoney.toInt) ∨
      (op.llMoney.toInt < 0 ∧ 2 ^ 63 ≤ op.getUint64Value.toNat) := by
  have hint : op.llMoney.toInt = op.llMoney.toBitVec.toInt := rfl
  have hnat : op.getUint64Value.toNat = op.llMoney.toBitVec.toNat := rfl
  have hlt := op.llMoney.toBitVec.isLt
  rw [hint, hnat, BitVec.toInt_eq_toNat_cond]
  split <;> omega

end CAppFundOperate

/-! ## A list of frozen funds -/

namespace CAppCFund

def amount (f : CAppCFund) : ℕ := f.nllValue.toNat

def totalOf (l : List CAppCFund) : ℕ := (l.map amount).sum

/-- A fund as an exact amount. -/
def entry (f : CAppCFund) : Option FundSlot × ℤ := (some f.slot, f.amount)

end CAppCFund

/-- Exact amounts: `d` is added to the first one under `s`.  A frozen fund that is used up goes, one
that is not there is appended. -/
def moveIn (s : Option FundSlot) (d : ℤ) :
    List (Option FundSlot × ℤ) → List (Option FundSlot × ℤ)
  | [] => [(s, d)]
  | (t, v) :: rest =>
    if t = s then if v + d = 0 ∧ t ≠ none then rest else (t, v + d) :: rest
    else (t, v) :: moveIn s d rest

namespace CAppUserAccout

open CAppCFund (totalOf entry)

section
variable {p : CAppCFund → Bool} {f : CAppCFund → Option CAppCFund} {l : List CAppCFund}

/-- Only the first fund that fits is looked at. -/
theorem updateFirst_congr {g : CAppCFund → Option CAppCFund} {old : CAppCFund}
    (hfind : l.find? p = some old) (h : f old = g old) : updateFirst p f l = updateFirst p g l := by
  induction l with
  | nil => rfl
  | cons e l ih =>
    rw [updateFirst, updateFirst]
    by_cases he : p e = true
    · rw [List.find?_cons_of_pos he] at hfind
      obtain rfl := Option.some.inj hfind
      rw [if_pos he, if_pos he, h]
    · rw [List.find?_cons_of_neg he] at hfind
      rw [if_neg he, if_neg he, ih hfind]

theorem updateFirst_self : updateFirst p some l = l := by
  induction l with
  | nil => rfl
  | cons e l ih =>
    rw [updateFirst, ih]
    split
    · rfl
    · rfl

/-- An update in place adds no slot. -/
theorem updateFirst_sublist (hf : ∀ g g', f g = some g' → g'.slot = g.slot) :
    ((updateFirst p f l).map CAppCFund.slot).Sublist (l.map CAppCFund.slot) := by
  induction l with
  | nil => exact List.Sublist.refl _
  | cons g l ih =>
    rw [updateFirst]
    split
    · cases hg : f g with
      | none => exact List.sublist_cons_self _ _
      | some g' =>
        show (g'.slot :: l.map CAppCFund.slot).Sublist _
        rw [hf g g' hg]
        exact List.Sublist.refl _
    · exact List.Sublist.cons_cons _ ih

/-- An update concerns the first fund it looks for. -/
theorem updateFirst_total {old : CAppCFund} (hfind : l.find? p = some old) :
    totalOf (updateFirst p f l) + old.amount = totalOf l + ((f old).map CAppCFund.amount).getD 0 ∧
      ∀ g, f old = some g → g ∈ updateFirst p f l := by
  induction l with
  | nil => cases hfind
  | cons g l ih =>
    rw [updateFirst]
    by_cases hg : p g = true
    · rw [List.find?_cons_of_pos hg] at hfind
      obtain rfl := Option.some.inj hfind
      rw [if_pos hg]
      refine ⟨?_, fun g' hg' => ?_⟩
      · cases f g with
        | none => simp [totalOf, Nat.add_comm]
        | some g' =>
          simp [totalOf]
          omega
      · rw [hg']
        exact List.mem_append_left _ List.mem_cons_self
    · rw [List.find?_cons_of_neg hg] at hfind
      obtain ⟨htotal, hmem⟩ := ih hfind
      rw [if_neg hg]
      refine ⟨?_, fun g' hg' => List.mem_cons_of_mem g (hmem g' hg')⟩
      simp only [totalOf, List.map_cons, List.sum_cons] at htotal ⊢
      omega

/-- An update that moves the amount by `d` does so on the exact amounts. -/
theorem updateFirst_entries {s : FundSlot} {old : CAppCFund} {d : ℤ}
    (hp : ∀ g, p g = true ↔ g.slot = s) (hfind : l.find? p = some old)
    (hnew : (f old).toList.map entry
      = if (old.amount : ℤ) + d = 0 then [] else [(some old.slot, old.amount + d)]) :
    (updateFirst p f l).map entry = moveIn (some s) d (l.map entry) := by
  induction l with
  | nil => cases hfind
  | cons g l ih =>
    rw [updateFirst, List.map_cons, show entry g = (some g.slot, (g.amount : ℤ)) from rfl, moveIn]
    by_cases hg : p g = true
    · rw [List.find?_cons_of_pos hg] at hfind
      obtain rfl := Option.some.inj hfind
      rw [if_pos hg, if_pos (congrArg some ((hp g).mp hg)), List.map_append, hnew]
      by_cases hzero : (g.amount : ℤ) + d = 0
      · rw [if_pos hzero, if_pos ⟨hzero, Option.some_ne_none _⟩]
        rfl
      · rw [if_neg hzero, if_neg fun h => hzero h.1]
        rfl
    · rw [List.find?_cons_of_neg hg] at hfind
      have hslot : (some g.slot : Option FundSlot) ≠ some s := by
        intro h
        exact hg ((hp g).mpr (Option.some.inj h))
      rw [if_neg hg, if_neg hslot, List.map_cons, ih hfind]
      rfl

/-- A fund in a slot that is not there yet. -/
theorem moveIn_append {s : FundSlot} {d : ℤ} (h : ∀ g ∈ l, g.slot ≠ s) :
    moveIn (some s) d (l.map entry) = l.map entry ++ [(some s, d)] := by
  induction l with
  | nil => rfl
  | cons g l ih =>
    have hne : (some g.slot : Option FundSlot) ≠ some s := by
      intro he
      exact h g List.mem_cons_self (Option.some.inj he)
    rw [List.map_cons, show entry g = (some g.slot, (g.amount : ℤ)) from rfl, moveIn, if_neg hne,
      ih fun g' hg' => h g' (List.mem_cons_of_mem g hg'), List.cons_append]

end

/-! ## One operation -/

section
variable {a b : CAppUserAccout} {fund : CAppCFund} {op : CAppFundOperate}

/-- `MergeCFund` as `AddAppCFund` calls it. -/
def mergeInto (fund old : CAppCFund) : Option CAppCFund :=
  match safeAdd fund.nllValue old.nllValue with
  | some v => some { old with nllValue := v }
  | none => some old

theorem mergeInto_slot (fund g g' : CAppCFund) (h : mergeInto fund g = some g') :
    g'.slot = g.slot := by
  unfold mergeInto at h
  split at h <;>
  · obtain rfl := Option.some.inj h
    rfl

theorem mergeInto_fits {old : CAppCFund} (h : fund.amount + old.amount < 2 ^ 64) :
    ∃ g, mergeInto fund old = some g ∧ g.slot = old.slot ∧ g.amount = old.amount + fund.amount := by
  unfold CAppCFund.amount at h
  unfold mergeInto safeAdd
  rw [if_pos h]
  refine ⟨_, rfl, rfl, ?_⟩
  show (fund.nllValue + old.nllValue).toNat = old.nllValue.toNat + fund.nllValue.toNat
  rw [UInt64.toNat_add, Nat.mod_eq_of_lt h, Nat.add_comm]

theorem mergeInto_over {old : CAppCFund} (h : ¬ fund.amount + old.amount < 2 ^ 64) :
    mergeInto fund old = some old := by
  unfold CAppCFund.amount at h
  unfold mergeInto safeAdd
  rw [if_neg h]

/-- What `MinusAppCFund` makes of a fund. -/
def takeFrom (fund old : CAppCFund) : Option CAppCFund :=
  if old.nllValue = fund.nllValue then none
  else some { old with nllValue := old.nllValue - fund.nllValue }

theorem takeFrom_slot (fund g g' : CAppCFund) (h : takeFrom fund g = some g') :
    g'.slot = g.slot := by
  unfold takeFrom at h
  split at h
  · cases h
  · obtain rfl := Option.some.inj h
    rfl

theorem takeFrom_entry {old : CAppCFund} (h : fund.amount ≤ old.amount) :
    (takeFrom fund old).toList.map entry
      = if (old.amount : ℤ) + -fund.amount = 0 then []
        else [(some old.slot, (old.amount : ℤ) + -fund.amount)] := by
  unfold CAppCFund.amount at h
  have hle := UInt64.toNat_sub_of_le _ _ (UInt64.le_iff_toNat_le.mpr h)
  unfold takeFrom
  by_cases heq : old.nllValue = fund.nllValue
  · have hzero : (old.amount : ℤ) + -fund.amount = 0 := by
      rw [CAppCFund.amount, CAppCFund.amount, heq]
      omega
    rw [if_pos heq, if_pos hzero]
    rfl
  · have hne : (old.amount : ℤ) + -fund.amount ≠ 0 := by
      intro h0
      refine heq (UInt64.toNat.inj ?_)
      rw [CAppCFund.amount, CAppCFund.amount] at h0
      omega
    rw [if_neg heq, if_neg hne]
    show [(some old.slot, (((old.nllValue - fund.nllValue).toNat : ℕ) : ℤ))] = _
    rw [hle, Nat.cast_sub h]
    rfl

theorem takeFrom_amount {old : CAppCFund} (h : fund.amount ≤ old.amount) :
    ((takeFrom fund old).map CAppCFund.amount).getD 0 = old.amount - fund.amount := by
  unfold takeFrom CAppCFund.amount
  split
  · next heq =>
    rw [heq, Nat.sub_self]
    rfl
  · exact UInt64.toNat_sub_of_le _ _ (UInt64.le_iff_toNat_le.mpr h)

/-- Adding to a frozen fund: exactly, or not at all when the sum does not fit 64 bits. -/
theorem addAppCFund_cases (h : a.addAppCFund fund = .ok b) :
    b.vuchAccUserID = a.vuchAccUserID ∧ b.ullValues = a.ullValues ∧
      ((b.vcFreezedFund.map entry
            = moveIn (some fund.slot) fund.amount (a.vcFreezedFund.map entry) ∧
          totalOf b.vcFreezedFund = totalOf a.vcFreezedFund + fund.amount ∧
          ∃ g ∈ b.vcFreezedFund, fund.amount ≤ g.amount) ∨
        (∃ old ∈ a.vcFreezedFund, old.slot = fund.slot ∧ 2 ^ 64 ≤ old.amount + fund.amount) ∧
          b = a) := by
  have hp : ∀ g : CAppCFund, g.sameSlot fund = true ↔ g.slot = fund.slot :=
    fun g => g.sameSlot_iff fund
  unfold addAppCFund at h
  cases hfind : a.vcFreezedFund.find? (·.sameSlot fund) with
  | none =>
    rw [hfind] at h
    obtain rfl := Except.ok.inj h
    have hnot : ∀ g ∈ a.vcFreezedFund, g.slot ≠ fund.slot := by
      intro g hg hslot
      exact List.find?_eq_none.mp hfind g hg ((hp g).mpr hslot)
    refine ⟨rfl, rfl, .inl ⟨?_, ?_, fund, ?_, Nat.le_refl _⟩⟩
    · rw [moveIn_append hnot, List.map_append]
      rfl
    · simp [totalOf]
    · exact List.mem_append_right _ List.mem_cons_self
  | some old =>
    rw [hfind] at h
    dsimp only at h
    split at h
    · cases h
    · next hpos =>
      obtain rfl : { a with
          vcFreezedFund := updateFirst (·.sameSlot fund) (mergeInto fund) a.vcFreezedFund } = b :=
        Except.ok.inj h
      refine ⟨rfl, rfl, ?_⟩
      have hpos' : fund.amount ≠ 0 := fun h0 => hpos (UInt64.toNat.inj h0)
      obtain ⟨htotal, hmem⟩ := updateFirst_total (f := mergeInto fund) hfind
      by_cases hfits : fund.amount + old.amount < 2 ^ 64
      · left
        obtain ⟨g, hg, hslot, hamount⟩ := mergeInto_fits hfits
        have hne : (old.amount : ℤ) + fund.amount ≠ 0 := by omega
        have hnew : (mergeInto fund old).toList.map entry
            = if (old.amount : ℤ) + fund.amount = 0 then []
              else [(some old.slot, (old.amount : ℤ) + fund.amount)] := by
          rw [hg, if_neg hne, ← Nat.cast_add, ← hamount, ← hslot]
          rfl
        rw [hg] at htotal
        have hsum : ((some g).map CAppCFund.amount).getD 0 = g.amount := rfl
        exact ⟨updateFirst_entries hp hfind hnew, by dsimp only; omega, g, hmem g hg, by omega⟩
      · right
        have hsame : old.sameSlot fund = true := by simpa using List.find?_some hfind
        have hslot := (hp old).mp hsame
        refine ⟨⟨old, List.mem_of_find?_eq_some hfind, hslot, by omega⟩, ?_⟩
        rw [updateFirst_congr hfind (mergeInto_over hfits), updateFirst_self]

/-- Taking from a frozen fund. -/
theorem minusAppCFund_cases (h : a.minusAppCFund fund = .ok b) :
    b.vuchAccUserID = a.vuchAccUserID ∧ b.ullValues = a.ullValues ∧
      (∃ old ∈ a.vcFreezedFund, fund.amount ≤ old.amount) ∧
      b.vcFreezedFund.map entry
        = moveIn (some fund.slot) (-fund.amount) (a.vcFreezedFund.map entry) ∧
      totalOf b.vcFreezedFund + fund.amount = totalOf a.vcFreezedFund := by
  have hp : ∀ g : CAppCFund, g.sameSlot fund = true ↔ g.slot = fund.slot :=
    fun g => g.sameSlot_iff fund
  unfold minusAppCFund at h
  split at h
  · cases h
  · cases hfind : a.vcFreezedFund.find? (·.sameSlot fund) with
    | none =>
      rw [hfind] at h
      cases h
    | some old =>
      rw [hfind] at h
      dsimp only at h
      split at h
      · cases h
      · next hle =>
        obtain rfl : { a with
            vcFreezedFund := updateFirst (·.sameSlot fund) (takeFrom fund) a.vcFreezedFund } = b :=
          Except.ok.inj h
        have hle' : fund.amount ≤ old.amount := UInt64.le_iff_toNat_le.mp (UInt64.not_lt.mp hle)
        obtain ⟨htotal, -⟩ := updateFirst_total (f := takeFrom fund) hfind
        rw [takeFrom_amount hle'] at htotal
        exact ⟨rfl, rfl, ⟨old, List.mem_of_find?_eq_some hfind, hle'⟩,
          updateFirst_entries hp hfind (takeFrom_entry hle'), by dsimp only; omega⟩

/-- What the account holds as exact amounts: the free one, then the frozen funds in their order. -/
def amounts (a : CAppUserAccout) : List (Option FundSlot × ℤ) :=
  (none, (a.ullValues.toNat : ℤ)) :: a.vcFreezedFund.map entry

/-- Free and frozen funds together. -/
def funds (a : CAppUserAccout) : ℕ := a.ullValues.toNat + totalOf a.vcFreezedFund

/-- Every amount is below 2^63. -/
def Small (a : CAppUserAccout) : Prop :=
  a.ullValues.toNat < 2 ^ 63 ∧ ∀ f ∈ a.vcFreezedFund, f.amount < 2 ^ 63

theorem small_iff : a.Small ↔ ∀ e ∈ a.amounts, e.2 < 2 ^ 63 := by
  unfold Small amounts
  rw [List.forall_mem_cons, List.forall_mem_map]
  refine and_congr ?_ (forall_congr' fun f => imp_congr_right fun _ => ?_)
  · show _ ↔ (a.ullValues.toNat : ℤ) < 2 ^ 63
    omega
  · show _ ↔ (f.amount : ℤ) < 2 ^ 63
    omega

theorem moveIn_free (a : CAppUserAccout) (d : ℤ) :
    moveIn none d a.amounts
      = (none, (a.ullValues.toNat : ℤ) + d) :: a.vcFreezedFund.map entry := by
  rw [amounts, moveIn, if_pos rfl, if_neg fun h => h.2 rfl]

theorem moveIn_frozen (a : CAppUserAccout) (s : FundSlot) (d : ℤ) :
    moveIn (some s) d a.amounts
      = (none, (a.ullValues.toNat : ℤ)) :: moveIn (some s) d (a.vcFreezedFund.map entry) := by
  rw [amounts, moveIn, if_neg (Option.some_ne_none s).symm]

/-- The fund a tagged operation names. -/
theorem ofOperate_cases (h : CAppCFund.ofOperate op = .ok fund) :
    fund.amount = op.getUint64Value.toNat ∧
      fund.slot = (toInt32 op.unOutHeight, op.arruchFundTag.take op.uchFundTaglen.toNat) ∧
      op.uchFundTaglen.toNat ≤ 40 := by
  unfold CAppCFund.ofOperate at h
  split at h
  · cases h
  · rw [Except.bind_eq_ok] at h
    obtain ⟨vTag, htag, h⟩ := h
    obtain rfl := Except.ok.inj h
    unfold CAppFundOperate.getFundTagV at htag
    split at htag
    · next hlen =>
      obtain rfl := Except.ok.inj htag
      exact ⟨rfl, rfl, hlen⟩
    · cases htag

/-- What one operation does, whatever its amount: it adds, or does nothing where a sum overflows, or
takes away. -/
theorem operateOne_moves (h : a.operateOne op = .ok b) :
    b.vuchAccUserID = a.vuchAccUserID ∧
      ((op.signed = op.llMoney.toInt ∧
          b.amounts = moveIn op.slot op.getUint64Value.toNat a.amounts ∧
          b.funds = a.funds + op.getUint64Value.toNat ∧
          (b.Small → op.getUint64Value.toNat < 2 ^ 63)) ∨
        (op.signed = op.llMoney.toInt ∧ b.funds = a.funds ∧
          (a.Small → 2 ^ 63 ≤ op.getUint64Value.toNat)) ∨
        (op.signed = -op.llMoney.toInt ∧
          b.amounts = moveIn op.slot (-op.getUint64Value.toNat) a.amounts ∧
          b.funds + op.getUint64Value.toNat = a.funds ∧
          (a.Small → op.getUint64Value.toNat < 2 ^ 63))) := by
  unfold operateOne at h
  by_cases hadd : op.uchOpeatorType = addFreeOp
  · have hslot : op.slot = none := by
      rw [CAppFundOperate.slot, hadd]
      rfl
    have hsigned : op.signed = op.llMoney.toInt := by
      rw [CAppFundOperate.signed, hadd]
      rfl
    rw [if_pos hadd] at h
    unfold safeAdd at h
    by_cases hfits : a.ullValues.toNat + op.getUint64Value.toNat < 2 ^ 64
    · rw [if_pos hfits] at h
      obtain rfl := Except.ok.inj h
      have hsum : (a.ullValues + op.getUint64Value).toNat
          = a.ullValues.toNat + op.getUint64Value.toNat := by
        rw [UInt64.toNat_add, Nat.mod_eq_of_lt hfits]
      refine ⟨rfl, .inl ⟨hsigned, ?_, ?_, fun hsmall => ?_⟩⟩
      · rw [hslot, moveIn_free, ← Nat.cast_add, ← hsum]
        rfl
      · unfold funds
        dsimp only
        omega
      · have hfree := hsmall.1
        dsimp only at hfree
        omega
    · rw [if_neg hfits] at h
      cases h
  by_cases hsub : op.uchOpeatorType = subFreeOp
  · have hslot : op.slot = none := by
      rw [CAppFundOperate.slot, hsub]
      rfl
    have hsigned : op.signed = -op.llMoney.toInt := by
      rw [CAppFundOperate.signed, hsub]
      rfl
    rw [if_neg hadd, if_pos hsub] at h
    by_cases hle : op.getUint64Value ≤ a.ullValues
    · rw [if_pos hle] at h
      obtain rfl := Except.ok.inj h
      have hdiff := UInt64.toNat_sub_of_le _ _ hle
      have hnat := UInt64.le_iff_toNat_le.mp hle
      refine ⟨rfl, .inr (.inr ⟨hsigned, ?_, ?_, fun hsmall => ?_⟩)⟩
      · rw [hslot, moveIn_free, ← Int.sub_eq_add_neg, ← Nat.cast_sub hnat, ← hdiff]
        rfl
      · unfold funds
        dsimp only
        omega
      · have hfree := hsmall.1
        omega
    · rw [if_neg hle] at h
      cases h
  by_cases haddTag : op.uchOpeatorType = addTagOp
  · have hslot : op.slot = some (toInt32 op.unOutHeight,
        op.arruchFundTag.take op.uchFundTaglen.toNat) := by
      rw [CAppFundOperate.slot, haddTag]
      rfl
    have hsigned : op.signed = op.llMoney.toInt := by
      rw [CAppFundOperate.signed, haddTag]
      rfl
    rw [if_neg hadd, if_neg hsub, if_pos haddTag, Except.bind_eq_ok] at h
    obtain ⟨fund, hfund, h⟩ := h
    obtain ⟨hamount, hfslot, -⟩ := ofOperate_cases hfund
    rw [← hfslot] at hslot
    obtain ⟨hid, hfree, hcase⟩ := addAppCFund_cases h
    refine ⟨hid, ?_⟩
    rw [hslot, ← hamount]
    unfold funds
    rcases hcase with ⟨hmove, htotal, g, hg, hle⟩ | ⟨⟨old, hold, -, hover⟩, rfl⟩
    · refine .inl ⟨hsigned, ?_, by rw [hfree]; omega, fun hsmall => ?_⟩
      · rw [moveIn_frozen, ← hmove, ← hfree]
        rfl
      · have hgsmall := hsmall.2 g hg
        omega
    · refine .inr (.inl ⟨hsigned, rfl, fun hsmall => ?_⟩)
      have holdsmall := hsmall.2 old hold
      omega
  by_cases hsubTag : op.uchOpeatorType = subTagOp
  · have hslot : op.slot = some (toInt32 op.unOutHeight,
        op.arruchFundTag.take op.uchFundTaglen.toNat) := by
      rw [CAppFundOperate.slot, hsubTag]
      rfl
    have hsigned : op.signed = -op.llMoney.toInt := by
      rw [CAppFundOperate.signed, hsubTag]
      rfl
    rw [if_neg hadd, if_neg hsub, if_neg haddTag, if_pos hsubTag, Except.bind_eq_ok] at h
    obtain ⟨fund, hfund, h⟩ := h
    obtain ⟨hamount, hfslot, -⟩ := ofOperate_cases hfund
    rw [← hfslot] at hslot
    obtain ⟨hid, hfree, ⟨old, hold, hle⟩, hmove, htotal⟩ := minusAppCFund_cases h
    refine ⟨hid, ?_⟩
    rw [hslot, ← hamount]
    unfold funds
    refine .inr (.inr ⟨hsigned, ?_, by rw [hfree]; omega, fun hsmall => ?_⟩)
    · rw [moveIn_frozen, ← hmove, ← hfree]
      rfl
    · have holdsmall := hsmall.2 old hold
      omega
  rw [if_neg hadd, if_neg hsub, if_neg haddTag, if_neg hsubTag] at h
  cases h

/-- One operation on an account whose amounts are below 2^63: exact if its amount is not negative,
else nothing or an amount of 2^63 and more. -/
theorem operateOne_cases (hsmall : a.Small) (h : a.operateOne op = .ok b) :
    (0 ≤ op.llMoney.toInt ∧ b.amounts = moveIn op.slot op.signed a.amounts ∧
        (b.funds : ℤ) = a.funds + op.signed) ∨
      (op.llMoney.toInt < 0 ∧ op.signed < 0 ∧ b.funds = a.funds) ∨
      (op.llMoney.toInt < 0 ∧ ¬ b.Small) := by
  obtain ⟨-, hcase⟩ := operateOne_moves h
  rcases op.getUint64Value_toNat with ⟨hpos, hvalue⟩ | ⟨hneg, hvalue⟩
  · left
    refine ⟨hpos, ?_⟩
    rcases hcase with ⟨hsigned, hamounts, hfunds, -⟩ | ⟨-, -, hover⟩ | ⟨hsigned, hamounts, hfunds, -⟩
    · rw [hvalue, ← hsigned] at hamounts
      exact ⟨hamounts, by omega⟩
    · have hlt := op.llMoney.toInt_lt
      have hbig := hover hsmall
      omega
    · rw [hvalue, ← hsigned] at hamounts
      exact ⟨hamounts, by omega⟩
  · right
    rcases hcase with ⟨-, -, -, hb⟩ | ⟨hsigned, hfunds, -⟩ | ⟨-, -, -, ha⟩
    · right
      refine ⟨hneg, fun hsmall' => ?_⟩
      have hlt := hb hsmall'
      omega
    · exact .inl ⟨hneg, by omega, hfunds⟩
    · have hlt := ha hsmall
      omega

/-! ## A list of operations -/

/-- Every amount stays below 2^63, before the operations and after each of them. -/
def Stays : CAppUserAccout → List CAppFundOperate → Prop
  | a, [] => a.Small
  | a, op :: ops => a.Small ∧ ∀ b, a.operateOne op = .ok b → Stays b ops

/-- The exact running amounts stay below 2^63; `l` are the amounts before the operations. -/
def Within : List (Option FundSlot × ℤ) → List CAppFundOperate → Prop
  | l, [] => ∀ e ∈ l, e.2 < 2 ^ 63
  | l, op :: ops => (∀ e ∈ l, e.2 < 2 ^ 63) ∧ Within (moveIn op.slot op.signed l) ops

def decideWithin :
    (l : List (Option FundSlot × ℤ)) → (ops : List CAppFundOperate) → Decidable (Within l ops)
  | l, [] => inferInstanceAs (Decidable (∀ e ∈ l, e.2 < 2 ^ 63))
  | l, op :: ops =>
    have := decideWithin (moveIn op.slot op.signed l) ops
    inferInstanceAs (Decidable ((∀ e ∈ l, e.2 < 2 ^ 63) ∧ Within (moveIn op.slot op.signed l) ops))

instance (l : List (Option FundSlot × ℤ)) (ops : List CAppFundOperate) : Decidable (Within l ops) :=
  decideWithin l ops

theorem Stays.small {ops : List CAppFundOperate} (h : a.Stays ops) : a.Small := by
  cases ops with
  | nil => exact h
  | cons op ops => exact h.1

/-- While all amounts stay small, the funds move by the sum of the amounts, and by something more
exactly when a negative amount was not carried out. -/
theorem Stays.moves {ops : List CAppFundOperate} (hstays : a.Stays ops)
    (h : ops.foldlM operateOne a = .ok b) :
    ∃ x : ℕ, (b.funds : ℤ) = a.funds + (ops.map CAppFundOperate.signed).sum + x ∧
      (x = 0 ↔ ∀ op ∈ ops, 0 ≤ op.llMoney.toInt) := by
  induction ops generalizing a with
  | nil =>
    obtain rfl := Except.ok.inj h
    exact ⟨0, by simp, by simp⟩
  | cons op ops ih =>
    rw [List.foldlM_cons, Except.bind_eq_ok] at h
    obtain ⟨c, h1, h2⟩ := h
    have hnext := hstays.2 c h1
    obtain ⟨x, hx, hiff⟩ := ih hnext h2
    rw [List.map_cons, List.sum_cons]
    rcases operateOne_cases hstays.1 h1 with ⟨hpos, -, hexact⟩ | ⟨hneg, hsigned, hfunds⟩ | ⟨-, hbig⟩
    · refine ⟨x, ?_, ?_⟩
      · rw [hx, hexact]
        ring
      · rw [hiff, List.forall_mem_cons]
        exact ⟨fun hall => ⟨hpos, hall⟩, fun hall => hall.2⟩
    · refine ⟨x + (-op.signed).toNat, ?_, ?_⟩
      · rw [hx, hfunds]
        omega
      · rw [List.forall_mem_cons]
        constructor
        · intro hzero
          omega
        · intro hall
          omega
    · exact absurd hnext.small hbig

/-- With nonnegative amounts whose exact sums stay small, all amounts do. -/
theorem Within.stays {ops : List CAppFundOperate} (hpos : ∀ op ∈ ops, 0 ≤ op.llMoney.toInt)
    (h : Within a.amounts ops) : a.Stays ops := by
  induction ops generalizing a with
  | nil => exact small_iff.mpr h
  | cons op ops ih =>
    have ha := small_iff.mpr h.1
    refine ⟨ha, fun b hb => ?_⟩
    have hop := hpos op List.mem_cons_self
    rcases operateOne_cases ha hb with ⟨-, hexact, -⟩ | ⟨hneg, -⟩ | ⟨hneg, -⟩
    · refine ih (fun o ho => hpos o (List.mem_cons_of_mem op ho)) ?_
      rw [hexact]
      exact h.2
    · omega
    · omega

/-- And the other way round, for operations that go through. -/
theorem Stays.within {ops : List CAppFundOperate} (hpos : ∀ op ∈ ops, 0 ≤ op.llMoney.toInt)
    (h : a.Stays ops) (hrun : ops.foldlM operateOne a = .ok b) : Within a.amounts ops := by
  induction ops generalizing a with
  | nil => exact small_iff.mp h
  | cons op ops ih =>
    rw [List.foldlM_cons, Except.bind_eq_ok] at hrun
    obtain ⟨c, h1, h2⟩ := hrun
    refine ⟨small_iff.mp h.1, ?_⟩
    have hop := hpos op List.mem_cons_self
    rcases operateOne_cases h.1 h1 with ⟨-, hexact, -⟩ | ⟨hneg, -⟩ | ⟨hneg, -⟩
    · rw [← hexact]
      exact ih (fun o ho => hpos o (List.mem_cons_of_mem op ho)) (h.2 c h1) h2
    · omega
    · omega

theorem operate_eq_ok {ops : List CAppFundOperate} (h : a.operate ops = .ok b) :
    ops.foldlM operateOne a = .ok b := by
  unfold operate at h
  split at h
  · cases h
  · exact h

theorem foldlM_operateOne_user {ops : List CAppFundOperate} (h : ops.foldlM operateOne a = .ok b) :
    b.vuchAccUserID = a.vuchAccUserID := by
  refine Except.foldlM_invariant (fun c => c.vuchAccUserID = a.vuchAccUserID) operateOne ops ?_
    rfl h
  intro c op d _ hc hstep
  exact (operateOne_moves hstep).1.trans hc

/-! ## Thawing -/

theorem mergeFunds_total {limit : ℤ} {free v : UInt64} {l : List CAppCFund}
    (h : mergeFunds limit free l = some v) :
    v.toNat + totalOf (l.filter fun f => ¬ f.nHeight ≤ limit) = free.toNat + totalOf l := by
  induction l generalizing free with
  | nil =>
    obtain rfl := Option.some.inj h
    rfl
  | cons f l ih =>
    rw [mergeFunds] at h
    by_cases hf : f.nHeight ≤ limit
    · rw [if_pos hf] at h
      unfold safeAdd at h
      by_cases hfits : free.toNat + f.nllValue.toNat < 2 ^ 64
      · rw [if_pos hfits] at h
        have hrest := ih h
        rw [UInt64.toNat_add, Nat.mod_eq_of_lt hfits] at hrest
        have hhead : totalOf (f :: l) = f.nllValue.toNat + totalOf l := rfl
        rw [List.filter_cons_of_neg (by simpa using hf), hhead]
        omega
      · rw [if_neg hfits] at h
        cases h
    · rw [if_neg hf] at h
      have hrest := ih h
      rw [List.filter_cons_of_pos (by simpa using hf)]
      simp only [totalOf, List.map_cons, List.sum_cons] at hrest ⊢
      omega

/-- Thawing moves funds, it makes none. -/
theorem autoMergeFreezeToFree_cases {chainActive : PBlockIndex} {unAppHeight : UInt32} {nHeight : ℤ}
    (h : a.autoMergeFreezeToFree chainActive unAppHeight nHeight = .ok b) :
    b.vuchAccUserID = a.vuchAccUserID ∧ b.funds = a.funds ∧
      b.vcFreezedFund.Sublist a.vcFreezedFund := by
  unfold autoMergeFreezeToFree at h
  rw [Except.bind_eq_ok] at h
  obtain ⟨limit, -, h⟩ := h
  split at h
  · next v hv =>
    obtain rfl := Except.ok.inj h
    exact ⟨rfl, mergeFunds_total hv, List.filter_sublist⟩
  · cases h

end

end CAppUserAccout

end Dacrs
