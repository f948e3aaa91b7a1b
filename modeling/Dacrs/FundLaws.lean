import Dacrs.AppOutput
import Dacrs.AppRecord

/-!
# What operations on frozen funds keep

The two functions of an app account that return a `bool` and may change the account as they return false:
`Operate` on one operation, which looks away where two funds cannot be merged
(`operate_conserves_iff`), and `AutoMergeFreezeToFree`, which adds fund by fund to the free balance before
it erases them, and reads out-heights as signed (`unfreeze_exact_iff`).
-/

open Codec (Bytes)

namespace Dacrs

/-- A call that returns true with what it has made, or false and leaves the object. -/
def Exec.leaving {α : Type} (a : α) : Exec α → Exec (Bool × α)
  | .ok b => .ok (true, b)
  | .error (.fail _) => .ok (false, a)
  | .error (.throw what) => .error (.throw what)

namespace CAppUserAccout

open CAppCFund (totalOf)

/-! ## One operation -/

/-- `MergeCFund`: what it returns, and the fund it leaves. -/
def mergeCFund (fund old : CAppCFund) : Exec (Bool × CAppCFund) :=
  if fund.nllValue = 0 then Exec.throw "assert(cFund.getValue() > 0)"
  else match safeAdd fund.nllValue old.nllValue with
    | some v => .ok (true, { old with nllValue := v })
    | none => .ok (false, old)

/-- `AddAppCFund`, which returns true. -/
def addAppCFundMut (a : CAppUserAccout) (fund : CAppCFund) : Exec (Bool × CAppUserAccout) :=
  match a.vcFreezedFund.find? (·.sameSlot fund) with
  | some old => do
    let merged ← mergeCFund fund old
    let vcFreezedFund := updateFirst (·.sameSlot fund) (fun _ => some merged.2) a.vcFreezedFund
    return (true, { a with vcFreezedFund })
  | none => .ok (true, { a with vcFreezedFund := a.vcFreezedFund ++ [fund] })

/-- `MinusAppCFund`. -/
def minusAppCFundMut (a : CAppUserAccout) (fund : CAppCFund) : Exec (Bool × CAppUserAccout) :=
  if fund.nHeight ≤ 0 then Exec.throw "assert(cInFound.getHeight() > 0)"
  else match a.vcFreezedFund.find? (·.sameSlot fund) with
    | some old =>
      if old.nllValue < fund.nllValue then .ok (false, a)
      else if old.nllValue = fund.nllValue then
        let vcFreezedFund := updateFirst (·.sameSlot fund) (fun _ => none) a.vcFreezedFund
        .ok (true, { a with vcFreezedFund })
      else
        let left := { old with nllValue := old.nllValue - fund.nllValue }
        let vcFreezedFund := updateFirst (·.sameSlot fund) (fun _ => some left) a.vcFreezedFund
        .ok (true, { a with vcFreezedFund })
    | none => .ok (false, a)

/-- `CAppUserAccout::Operate` on one operation: what it returns, and the account it leaves. -/
def operateMut (a : CAppUserAccout) (op : CAppFundOperate) : Exec (Bool × CAppUserAccout) :=
  if op.uchOpeatorType = addFreeOp then
    match safeAdd a.ullValues op.getUint64Value with
    | some v => .ok (true, { a with ullValues := v })
    | none => .ok (false, a)
  else if op.uchOpeatorType = subFreeOp then
    if op.getUint64Value ≤ a.ullValues then
      .ok (true, { a with ullValues := a.ullValues - op.getUint64Value })
    else .ok (false, a)
  else if op.uchOpeatorType = addTagOp then do
    let fund ← CAppCFund.ofOperate op
    a.addAppCFundMut fund
  else if op.uchOpeatorType = subTagOp then do
    let fund ← CAppCFund.ofOperate op
    a.minusAppCFundMut fund
  else .ok (false, a)

section

variable {a b : CAppUserAccout} {fund old : CAppCFund} {op : CAppFundOperate}

/-- The result of `MergeCFund` aside, the fund it leaves. -/
theorem mergeCFund_merged (h0 : fund.nllValue ≠ 0) :
    ∃ r, mergeCFund fund old = .ok r ∧ mergeInto fund old = some r.2 := by
  unfold mergeCFund mergeInto
  rw [if_neg h0]
  cases safeAdd fund.nllValue old.nllValue with
  | none => exact ⟨(false, old), rfl, rfl⟩
  | some v => exact ⟨(true, { old with nllValue := v }), rfl, rfl⟩

theorem addAppCFundMut_eq (a : CAppUserAccout) (fund : CAppCFund) :
    a.addAppCFundMut fund = (a.addAppCFund fund).leaving a := by
  unfold addAppCFundMut addAppCFund
  cases hfind : a.vcFreezedFund.find? (·.sameSlot fund) with
  | none => rfl
  | some old =>
    dsimp only
    by_cases h0 : fund.nllValue = 0
    · unfold mergeCFund
      rw [if_pos h0, if_pos h0]
      rfl
    · obtain ⟨r, hr, hmerge⟩ := @mergeCFund_merged fund old h0
      rw [if_neg h0, hr]
      show _ = Exec.leaving a (.ok { a with
        vcFreezedFund := updateFirst (·.sameSlot fund) (mergeInto fund) a.vcFreezedFund })
      rw [← updateFirst_congr hfind (f := fun _ => some r.2) hmerge.symm]
      rfl

theorem minusAppCFundMut_eq (a : CAppUserAccout) (fund : CAppCFund) :
    a.minusAppCFundMut fund = (a.minusAppCFund fund).leaving a := by
  unfold minusAppCFundMut minusAppCFund
  by_cases h0 : fund.nHeight ≤ 0
  · rw [if_pos h0, if_pos h0]
    rfl
  rw [if_neg h0, if_neg h0]
  cases hfind : a.vcFreezedFund.find? (·.sameSlot fund) with
  | none => rfl
  | some old =>
    dsimp only
    by_cases hlt : old.nllValue < fund.nllValue
    · rw [if_pos hlt, if_pos hlt]
      rfl
    rw [if_neg hlt, if_neg hlt]
    show _ = Exec.leaving a (.ok { a with
      vcFreezedFund := updateFirst (·.sameSlot fund) (takeFrom fund) a.vcFreezedFund })
    by_cases heq : old.nllValue = fund.nllValue
    · have htake : takeFrom fund old = none := if_pos heq
      rw [if_pos heq, ← updateFirst_congr hfind (f := fun _ => none) htake.symm]
      rfl
    · have htake : takeFrom fund old = some { old with nllValue := old.nllValue - fund.nllValue } :=
        if_neg heq
      rw [if_neg heq, ← updateFirst_congr hfind (f := fun _ => some _) htake.symm]
      rfl

/-- A fund cannot be made from an operation: an assertion. -/
theorem ofOperate_error {e : Exit} (h : CAppCFund.ofOperate op = .error e) :
    ∃ what, e = .throw what := by
  unfold CAppCFund.ofOperate CAppFundOperate.getFundTagV at h
  split at h
  · cases h
    exact ⟨_, rfl⟩
  · split at h
    · cases h
    · cases h
      exact ⟨_, rfl⟩

/-- The two readings of `Operate`. -/
theorem operateMut_eq (a : CAppUserAccout) (op : CAppFundOperate) :
    a.operateMut op = (a.operateOne op).leaving a := by
  unfold operateMut operateOne
  by_cases hadd : op.uchOpeatorType = addFreeOp
  · rw [if_pos hadd, if_pos hadd]
    cases safeAdd a.ullValues op.getUint64Value with
    | none => rfl
    | some v => rfl
  by_cases hsub : op.uchOpeatorType = subFreeOp
  · rw [if_neg hadd, if_neg hadd, if_pos hsub, if_pos hsub]
    by_cases hle : op.getUint64Value ≤ a.ullValues
    · rw [if_pos hle, if_pos hle]
      rfl
    · rw [if_neg hle, if_neg hle]
      rfl
  rw [if_neg hadd, if_neg hadd, if_neg hsub, if_neg hsub]
  by_cases haddTag : op.uchOpeatorType = addTagOp
  · rw [if_pos haddTag, if_pos haddTag]
    cases hfund : CAppCFund.ofOperate op with
    | ok fund => exact addAppCFundMut_eq a fund
    | error e =>
      obtain ⟨what, rfl⟩ := ofOperate_error hfund
      rfl
  rw [if_neg haddTag, if_neg haddTag]
  by_cases hsubTag : op.uchOpeatorType = subTagOp
  · rw [if_pos hsubTag, if_pos hsubTag]
    cases hfund : CAppCFund.ofOperate op with
    | ok fund => exact minusAppCFundMut_eq a fund
    | error e =>
      obtain ⟨what, rfl⟩ := ofOperate_error hfund
      rfl
  rw [if_neg hsubTag, if_neg hsubTag]
  rfl

/-! ## What it keeps -/

/-- Every out-height and tag at most once. -/
def Slotted (a : CAppUserAccout) : Prop := (a.vcFreezedFund.map CAppCFund.slot).Nodup

/-- The amount of an operation, with its sign. -/
def moved (op : CAppFundOperate) : ℤ :=
  if op.uchOpeatorType = addFreeOp ∨ op.uchOpeatorType = addTagOp then op.getUint64Value.toNat
  else if op.uchOpeatorType = subFreeOp ∨ op.uchOpeatorType = subTagOp then -op.getUint64Value.toNat
  else 0

/-- If `Operate` returns true the funds have moved by the amount and no slot is there twice, if it
returns false the account is as before. -/
def Conserves (a : CAppUserAccout) (op : CAppFundOperate) : Prop :=
  ∀ ok b, a.operateMut op = .ok (ok, b) →
    (ok = true → (b.funds : ℤ) = a.funds + moved op ∧ b.Slotted) ∧ (ok = false → b = a)

/-- The fund to add to is there, and has no room. -/
def Overfull (a : CAppUserAccout) (op : CAppFundOperate) : Prop :=
  op.uchOpeatorType = addTagOp ∧ op.uchFundTaglen.toNat ≤ 40 ∧
    ∃ g ∈ a.vcFreezedFund, some g.slot = op.slot ∧ 2 ^ 64 ≤ g.amount + op.getUint64Value.toNat

/-- An account's fund to add to. -/
theorem find_of_mem (hslots : a.Slotted) {g : CAppCFund} (hg : g ∈ a.vcFreezedFund)
    (hslot : g.slot = fund.slot) : a.vcFreezedFund.find? (·.sameSlot fund) = some g := by
  have hsame : g.sameSlot fund = true := (g.sameSlot_iff fund).mpr hslot
  cases hfind : a.vcFreezedFund.find? (·.sameSlot fund) with
  | none => exact absurd hsame (List.find?_eq_none.mp hfind g hg)
  | some old =>
    have hold : old.sameSlot fund = true := by simpa using List.find?_some hfind
    have hmem := List.mem_of_find?_eq_some hfind
    have hslots' : old.slot = g.slot := ((old.sameSlot_iff fund).mp hold).trans hslot.symm
    rw [List.inj_on_of_nodup_map hslots hmem hg hslots']

theorem addAppCFund_slotted (hslots : a.Slotted) (h : a.addAppCFund fund = .ok b) : b.Slotted := by
  unfold addAppCFund at h
  cases hfind : a.vcFreezedFund.find? (·.sameSlot fund) with
  | none =>
    rw [hfind] at h
    obtain rfl := Except.ok.inj h
    have hnew : fund.slot ∉ a.vcFreezedFund.map CAppCFund.slot := by
      intro hmem
      obtain ⟨g, hg, hslot⟩ := List.mem_map.mp hmem
      exact List.find?_eq_none.mp hfind g hg ((g.sameSlot_iff fund).mpr hslot)
    show ((a.vcFreezedFund ++ [fund]).map CAppCFund.slot).Nodup
    rw [List.map_append]
    exact List.nodup_append.mpr ⟨hslots, List.nodup_singleton _, fun s hs t ht => by
      rw [List.mem_singleton.mp ht]
      intro heq
      exact hnew (heq ▸ hs)⟩
  | some old =>
    rw [hfind] at h
    dsimp only at h
    split at h
    · cases h
    · obtain rfl := Except.ok.inj h
      exact (updateFirst_sublist (mergeInto_slot fund)).nodup hslots

/-- An operation that goes through keeps the slots apart. -/
theorem operateOne_slotted (hslots : a.Slotted) (h : a.operateOne op = .ok b) : b.Slotted := by
  unfold operateOne at h
  split at h
  · split at h
    · obtain rfl := Except.ok.inj h
      exact hslots
    · cases h
  split at h
  · split at h
    · obtain rfl := Except.ok.inj h
      exact hslots
    · cases h
  split at h
  · rw [Except.bind_eq_ok] at h
    obtain ⟨fund, -, h⟩ := h
    exact addAppCFund_slotted hslots h
  split at h
  · rw [Except.bind_eq_ok] at h
    obtain ⟨fund, -, h⟩ := h
    exact (minusAppCFund_slots h).nodup hslots
  · cases h

/-- And moves the funds by its amount, when there is room for it. -/
theorem operateOne_moved (hroom : ¬ a.Overfull op) (h : a.operateOne op = .ok b) :
    (b.funds : ℤ) = a.funds + moved op := by
  unfold operateOne at h
  unfold moved funds
  by_cases hadd : op.uchOpeatorType = addFreeOp
  · rw [if_pos hadd] at h
    rw [if_pos (Or.inl hadd)]
    unfold safeAdd at h
    by_cases hfits : a.ullValues.toNat + op.getUint64Value.toNat < 2 ^ 64
    · rw [if_pos hfits] at h
      obtain rfl := Except.ok.inj h
      have hsum : (a.ullValues + op.getUint64Value).toNat
          = a.ullValues.toNat + op.getUint64Value.toNat := by
        rw [UInt64.toNat_add, Nat.mod_eq_of_lt hfits]
      dsimp only
      omega
    · rw [if_neg hfits] at h
      cases h
  by_cases hsub : op.uchOpeatorType = subFreeOp
  · rw [if_neg hadd, if_pos hsub] at h
    have hminus : ¬ (op.uchOpeatorType = addFreeOp ∨ op.uchOpeatorType = addTagOp) := by
      rw [hsub]
      decide
    rw [if_neg hminus, if_pos (Or.inl hsub)]
    by_cases hle : op.getUint64Value ≤ a.ullValues
    · rw [if_pos hle] at h
      obtain rfl := Except.ok.inj h
      have hdiff := UInt64.toNat_sub_of_le _ _ hle
      have hnat := UInt64.le_iff_toNat_le.mp hle
      dsimp only
      omega
    · rw [if_neg hle] at h
      cases h
  by_cases haddTag : op.uchOpeatorType = addTagOp
  · rw [if_neg hadd, if_neg hsub, if_pos haddTag, Except.bind_eq_ok] at h
    rw [if_pos (Or.inr haddTag)]
    obtain ⟨fund, hfund, h⟩ := h
    obtain ⟨hamount, hslot, hlen⟩ := ofOperate_cases hfund
    obtain ⟨-, hfree, ⟨-, htotal, -⟩ | ⟨⟨g, hg, hgslot, hover⟩, -⟩⟩ := addAppCFund_cases h
    · rw [hfree]
      omega
    · refine absurd ⟨haddTag, hlen, g, hg, ?_, by omega⟩ hroom
      rw [hgslot, hslot, CAppFundOperate.slot, if_pos (Or.inl haddTag)]
  by_cases hsubTag : op.uchOpeatorType = subTagOp
  · rw [if_neg hadd, if_neg hsub, if_neg haddTag, if_pos hsubTag, Except.bind_eq_ok] at h
    rw [if_neg (not_or.mpr ⟨hadd, haddTag⟩), if_pos (Or.inr hsubTag)]
    obtain ⟨fund, hfund, h⟩ := h
    obtain ⟨hamount, -, -⟩ := ofOperate_cases hfund
    obtain ⟨-, hfree, -, -, htotal⟩ := minusAppCFund_cases h
    rw [hfree]
    omega
  rw [if_neg hadd, if_neg hsub, if_neg haddTag, if_neg hsubTag] at h
  cases h

/-- Without room the fund stays as it is, and the operation goes through. -/
theorem operateOne_overfull (hslots : a.Slotted) (hheight : op.unOutHeight ≠ 0) (hfull : a.Overfull op) :
    a.operateOne op = .ok a := by
  obtain ⟨haddTag, hlen, g, hg, hslot, hover⟩ := hfull
  have hfund := CAppFundOperate.ofOperate_eq ⟨hheight, hlen⟩
  rw [CAppFundOperate.slot, if_pos (Or.inl haddTag)] at hslot
  have hsame : g.slot = op.fund.slot := Option.some.inj hslot
  have hfind := find_of_mem hslots hg hsame
  have hpos : op.fund.nllValue ≠ 0 := by
    intro h0
    have hlt : g.amount < 2 ^ 64 := g.nllValue.toNat_lt
    have hzero : op.getUint64Value.toNat = 0 := by
      rw [show op.getUint64Value = 0 from h0]
      rfl
    omega
  have hmerge : mergeInto op.fund g = some g := by
    refine mergeInto_over ?_
    show ¬ op.getUint64Value.toNat + g.amount < 2 ^ 64
    omega
  have hadd : a.addAppCFund op.fund = .ok a := by
    unfold addAppCFund
    rw [hfind]
    show (if op.fund.nllValue = 0 then _ else Except.ok { a with
      vcFreezedFund := updateFirst (·.sameSlot op.fund) (mergeInto op.fund) a.vcFreezedFund }) = _
    rw [if_neg hpos, updateFirst_congr hfind hmerge, updateFirst_self]
  unfold operateOne
  rw [if_neg (by rw [haddTag]; decide), if_neg (by rw [haddTag]; decide), if_pos haddTag, hfund]
  exact hadd

/-- `Operate` conserves money, unless the fund it adds to has no room: then it returns true and has done
nothing. -/
theorem operate_conserves_iff (hslots : a.Slotted) (hheight : op.unOutHeight ≠ 0) :
    a.Conserves op ↔ ¬ a.Overfull op := by
  constructor
  · intro hkeeps hfull
    have hrun : a.operateMut op = .ok (true, a) := by
      rw [operateMut_eq, operateOne_overfull hslots hheight hfull]
      rfl
    obtain ⟨hmoved, -⟩ := (hkeeps true a hrun).1 rfl
    obtain ⟨haddTag, -, g, -, -, hover⟩ := hfull
    rw [moved, if_pos (Or.inr haddTag)] at hmoved
    have hlt : g.amount < 2 ^ 64 := g.nllValue.toNat_lt
    omega
  · intro hroom ok b hrun
    rw [operateMut_eq] at hrun
    cases hone : a.operateOne op with
    | ok c =>
      rw [hone] at hrun
      cases hrun
      refine ⟨fun _ => ⟨operateOne_moved hroom hone, operateOne_slotted hslots hone⟩, ?_⟩
      intro hfalse
      cases hfalse
    | error e =>
      rw [hone] at hrun
      cases e with
      | fail reason =>
        cases hrun
        refine ⟨?_, fun _ => rfl⟩
        intro htrue
        cases htrue
      | throw what => cases hrun

/-- Freeze `llMoney` until `unOutHeight`, under a tag of one byte. -/
def freezing (llMoney : Int64) (unOutHeight : UInt32) : CAppFundOperate :=
  ⟨addTagOp, unOutHeight, llMoney, 1, [7]⟩

/-- An account with one frozen fund. -/
def freezer (nllValue : UInt64) : CAppUserAccout := ⟨3, [1, 2], [⟨nllValue, 20, [7]⟩]⟩

/-- 5 more for a fund of 100. -/
theorem operate_conserves_more :
    (freezer 100).operateMut (freezing 5 20) = .ok (true, freezer 105) ∧
      (freezer 100).Conserves (freezing 5 20) := by
  refine ⟨by decide, (operate_conserves_iff ?_ (by decide)).mpr ?_⟩
  · unfold Slotted
    decide
  · rintro ⟨-, -, g, hg, -, hover⟩
    obtain rfl := List.mem_singleton.mp hg
    revert hover
    decide

/-- Twice the largest amount has been frozen; a third time nothing is added. -/
theorem operate_conserves_full :
    ¬ ∀ (a : CAppUserAccout) (op : CAppFundOperate), a.Slotted → 0 < op.llMoney.toInt →
      0 < op.unOutHeight → a.Conserves op := by
  intro hall
  have hslots : (freezer 18446744073709551614).Slotted := by
    unfold Slotted
    decide
  have hrun : (freezer 18446744073709551614).operateMut (freezing 9223372036854775807 20)
      = .ok (true, freezer 18446744073709551614) := by decide
  have hkeeps := hall _ _ hslots (by decide) (by decide) true _ hrun
  have hmoved := (hkeeps.1 rfl).1
  revert hmoved
  decide

end

/-! ## Unfreezing -/

/-- `AutoMergeFreezeToFree`: what it returns, and the account it leaves. -/
def autoMergeFreezeToFreeMut (a : CAppUserAccout) (chainActive : PBlockIndex) (unAppHeight : UInt32)
    (nHeight : ℤ) : Exec (Bool × CAppUserAccout) := do
  let limit ← freezeLimit chainActive unAppHeight nHeight
  match mergeFunds limit a.ullValues a.vcFreezedFund with
  | some v => return (true, { a with
      ullValues := v
      vcFreezedFund := a.vcFreezedFund.filter fun fund => ¬ fund.nHeight ≤ limit })
  | none => return (false, { a with ullValues := mergedUntil limit a.ullValues a.vcFreezedFund })

/-- The limit that is meant: the height, or the block time as the header has it. -/
def statedLimit (chainActive : PBlockIndex) (unAppHeight : UInt32) (nHeight : ℤ) : Exec ℤ :=
  if blockTime4AppAccountHeight ≤ unAppHeight.toNat ∧ blockTime4AppAccountHeight ≤ nHeight then
    match chainActive with
    | [] => Exec.throw "g_cChainActive.Tip() is NULL"
    | tip :: _ =>
      if nHeight ≤ tip.nHeight then
        match chainAt chainActive nHeight with
        | some index => .ok index.unTime.toNat
        | none => Exec.throw "g_cChainActive[nHeight] is NULL"
      else .ok tip.unTime.toNat
  else .ok nHeight

/-- What an `int` makes of it. -/
def signed32 (limit : ℤ) : ℤ := if limit < 2 ^ 31 then limit else limit - 2 ^ 32

/-- The out-height as the contract stated it is at most the limit. -/
def Due (limit : ℤ) (f : CAppCFund) : Prop := f.nHeight % 2 ^ 32 ≤ limit

instance (limit : ℤ) (f : CAppCFund) : Decidable (Due limit f) :=
  inferInstanceAs (Decidable (_ ≤ _))

/-- The free balance has room for what is due. -/
def Fits64 (limit : ℤ) (a : CAppUserAccout) : Prop :=
  a.ullValues.toNat + totalOf (a.vcFreezedFund.filter fun f => Due limit f) < 2 ^ 64

instance (limit : ℤ) (a : CAppUserAccout) : Decidable (Fits64 limit a) :=
  inferInstanceAs (Decidable (_ < _))

/-- What unfreezing is meant to do: release all that is due, or nothing and say so. -/
def unfrozen (limit : ℤ) (a : CAppUserAccout) : Bool × CAppUserAccout :=
  if Fits64 limit a then
    (true, { a with
      ullValues := a.ullValues + UInt64.ofNat (totalOf (a.vcFreezedFund.filter fun f => Due limit f))
      vcFreezedFund := a.vcFreezedFund.filter fun f => ¬ Due limit f })
  else (false, a)

/-- `AutoMergeFreezeToFree` does this, makes and loses no money, and does nothing the second time. -/
def UnfreezesExactly (a : CAppUserAccout) (chainActive : PBlockIndex) (unAppHeight : UInt32)
    (nHeight limit : ℤ) : Prop :=
  ∀ ok b, a.autoMergeFreezeToFreeMut chainActive unAppHeight nHeight = .ok (ok, b) →
    (ok, b) = unfrozen limit a ∧ b.funds = a.funds ∧
      b.autoMergeFreezeToFreeMut chainActive unAppHeight nHeight = .ok (ok, b)

/-- The sign of an out-height, as an `int`, is that of the limit. -/
def SignsAgree (limit : ℤ) (f : CAppCFund) : Prop :=
  if limit < 0 then limit < f.nHeight else (0 ≤ f.nHeight ↔ limit < 2 ^ 31)

/-- A fund that the loop adds: matured as an `int`, with an amount. -/
def adds (limit : ℤ) (f : CAppCFund) : Bool := f.nHeight ≤ limit && f.nllValue ≠ 0

/-- The first one has no room in the free balance. -/
def BlockedAtOnce (limit : ℤ) (free : UInt64) (l : List CAppCFund) : Prop :=
  ∃ f, l.find? (adds limit) = some f ∧ 2 ^ 64 ≤ free.toNat + f.amount

section

variable {a b : CAppUserAccout} {chainActive : PBlockIndex} {unAppHeight : UInt32}
  {nHeight limit : ℤ} {free v : UInt64} {l : List CAppCFund}

/-- What a contract states is read back from the `int`. -/
theorem toInt32_stated (n : UInt32) : toInt32 n % 2 ^ 32 = n.toNat := by
  have hint : toInt32 n = n.toBitVec.toInt := rfl
  have hnat : n.toNat = n.toBitVec.toNat := rfl
  have hlt := n.toBitVec.isLt
  rw [hint, hnat, BitVec.toInt_eq_toNat_cond]
  split <;> omega

theorem toInt32_signed32 (n : UInt32) : toInt32 n = signed32 n.toNat := by
  have hint : toInt32 n = n.toBitVec.toInt := rfl
  have hnat : n.toNat = n.toBitVec.toNat := rfl
  have hlt := n.toBitVec.isLt
  unfold signed32
  rw [hint, hnat, BitVec.toInt_eq_toNat_cond]
  split <;> split <;> omega

/-- The limit of the source is the stated one as an `int`. -/
theorem freezeLimit_stated (hheight : nHeight < 2 ^ 31)
    (h : statedLimit chainActive unAppHeight nHeight = .ok limit) :
    freezeLimit chainActive unAppHeight nHeight = .ok (signed32 limit) ∧ limit < 2 ^ 32 := by
  unfold statedLimit at h
  unfold freezeLimit
  split at h
  · next hfork =>
    rw [if_pos hfork]
    cases chainActive with
    | nil => cases h
    | cons tip rest =>
      dsimp only at h ⊢
      split at h
      · next hle =>
        rw [if_pos hle]
        cases hat : chainAt (tip :: rest) nHeight with
        | none =>
          rw [hat] at h
          cases h
        | some index =>
          rw [hat] at h
          obtain rfl := Except.ok.inj h
          have hlt := index.unTime.toNat_lt
          exact ⟨congrArg Except.ok (toInt32_signed32 index.unTime), by omega⟩
      · next hle =>
        rw [if_neg hle]
        obtain rfl := Except.ok.inj h
        have hlt := tip.unTime.toNat_lt
        exact ⟨congrArg Except.ok (toInt32_signed32 tip.unTime), by omega⟩
  · next hfork =>
    rw [if_neg hfork]
    obtain rfl := Except.ok.inj h
    refine ⟨?_, by omega⟩
    rw [signed32, if_pos hheight]

/-- Where the signs agree the comparison of the source is the one that is meant. -/
theorem signsAgree_iff {f : CAppCFund} (hlow : -2 ^ 31 ≤ f.nHeight) (hhigh : f.nHeight < 2 ^ 31)
    (hlimit : limit < 2 ^ 32) : (f.nHeight ≤ signed32 limit ↔ Due limit f) ↔ SignsAgree limit f := by
  unfold SignsAgree Due signed32
  split <;> split <;> omega

/-- The loop, when the free balance has room. -/
theorem mergeFunds_fits
    (h : free.toNat + totalOf (l.filter fun f => f.nHeight ≤ limit) < 2 ^ 64) :
    mergeFunds limit free l
      = some (free + UInt64.ofNat (totalOf (l.filter fun f => f.nHeight ≤ limit))) := by
  induction l generalizing free with
  | nil =>
    show some free = some (free + 0)
    rw [UInt64.add_zero]
  | cons f l ih =>
    rw [mergeFunds]
    by_cases hf : f.nHeight ≤ limit
    · rw [List.filter_cons_of_pos (by simpa using hf)] at h ⊢
      have hhead (k : List CAppCFund) : totalOf (f :: k) = f.nllValue.toNat + totalOf k := rfl
      rw [hhead] at h ⊢
      have hfits : free.toNat + f.nllValue.toNat < 2 ^ 64 := by omega
      have hsum : (free + f.nllValue).toNat = free.toNat + f.nllValue.toNat := by
        rw [UInt64.toNat_add, Nat.mod_eq_of_lt hfits]
      rw [if_pos hf, safeAdd, if_pos hfits]
      dsimp only
      rw [ih (by omega), UInt64.add_assoc, UInt64.ofNat_add, UInt64.ofNat_toNat]
    · rw [List.filter_cons_of_neg (by simpa using hf)] at h ⊢
      rw [if_neg hf, ih h]

/-- A list of funds falls into those that satisfy `p` and the others. -/
theorem totalOf_filter_add (p : CAppCFund → Prop) [DecidablePred p] (l : List CAppCFund) :
    totalOf (l.filter fun f => p f) + totalOf (l.filter fun f => ¬ p f) = totalOf l := by
  induction l with
  | nil => rfl
  | cons f l ih =>
    have hhead (k : List CAppCFund) : totalOf (f :: k) = f.amount + totalOf k := rfl
    by_cases hf : p f
    · rw [List.filter_cons_of_pos (by simpa using hf), List.filter_cons_of_neg (by simpa using hf),
        hhead, hhead]
      omega
    · rw [List.filter_cons_of_neg (by simpa using hf), List.filter_cons_of_pos (by simpa using hf),
        hhead, hhead]
      omega

theorem mergeFunds_over
    (h : ¬ free.toNat + totalOf (l.filter fun f => f.nHeight ≤ limit) < 2 ^ 64) :
    mergeFunds limit free l = none := by
  cases hv : mergeFunds limit free l with
  | none => rfl
  | some v =>
    have htotal := mergeFunds_total hv
    have hparts := totalOf_filter_add (fun f => f.nHeight ≤ limit) l
    have hlt := v.toNat_lt
    omega

/-- The loop only adds. -/
theorem le_mergedUntil (limit : ℤ) (free : UInt64) (l : List CAppCFund) :
    free.toNat ≤ (mergedUntil limit free l).toNat := by
  induction l generalizing free with
  | nil => exact Nat.le_refl _
  | cons f l ih =>
    rw [mergedUntil]
    by_cases hf : f.nHeight ≤ limit
    · rw [if_pos hf]
      unfold safeAdd
      by_cases hfits : free.toNat + f.nllValue.toNat < 2 ^ 64
      · rw [if_pos hfits]
        have hsum : (free + f.nllValue).toNat = free.toNat + f.nllValue.toNat := by
          rw [UInt64.toNat_add, Nat.mod_eq_of_lt hfits]
        have hrest := ih (free + f.nllValue)
        dsimp only
        omega
      · rw [if_neg hfits]
    · rw [if_neg hf]
      exact ih free

/-- A loop that fails leaves the free balance when it fails at the first amount. -/
theorem mergedUntil_eq_iff (h : mergeFunds limit free l = none) :
    mergedUntil limit free l = free ↔ BlockedAtOnce limit free l := by
  unfold BlockedAtOnce
  induction l with
  | nil => cases h
  | cons f l ih =>
    rw [mergeFunds] at h
    rw [mergedUntil]
    by_cases hf : f.nHeight ≤ limit
    · rw [if_pos hf] at h ⊢
      by_cases h0 : f.nllValue = 0
      · have hsame : safeAdd free f.nllValue = some free := by
          unfold safeAdd
          rw [h0, UInt64.add_zero]
          exact if_pos free.toNat_lt
        have hskip : ¬ adds limit f = true := by simp [adds, h0]
        rw [hsame] at h ⊢
        rw [List.find?_cons_of_neg hskip]
        exact ih h
      · have hfound : adds limit f = true := by simp [adds, h0, hf]
        have hpos : f.nllValue.toNat ≠ 0 := fun hzero => h0 (UInt64.toNat.inj hzero)
        rw [List.find?_cons_of_pos hfound]
        unfold safeAdd
        by_cases hfits : free.toNat + f.nllValue.toNat < 2 ^ 64
        · rw [if_pos hfits]
          have hsum : (free + f.nllValue).toNat = free.toNat + f.nllValue.toNat := by
            rw [UInt64.toNat_add, Nat.mod_eq_of_lt hfits]
          have hle := le_mergedUntil limit (free + f.nllValue) l
          refine iff_of_false (fun heq => ?_) ?_
          · dsimp only at heq
            rw [heq] at hle
            omega
          · rintro ⟨g, hg, hover⟩
            obtain rfl := Option.some.inj hg
            unfold CAppCFund.amount at hover
            omega
        · rw [if_neg hfits]
          exact iff_of_true rfl ⟨f, rfl, not_lt.mp hfits⟩
    · have hskip : ¬ adds limit f = true := by simp [adds, hf]
      rw [if_neg hf] at h ⊢
      rw [List.find?_cons_of_neg hskip]
      exact ih h

/-- Blocked at the first amount, there is no room for all of them. -/
theorem BlockedAtOnce.over (h : BlockedAtOnce limit free l) :
    ¬ free.toNat + totalOf (l.filter fun f => f.nHeight ≤ limit) < 2 ^ 64 := by
  obtain ⟨f, hfind, hover⟩ := h
  have hmem := List.mem_of_find?_eq_some hfind
  have hdue := List.find?_some hfind
  unfold adds at hdue
  rw [Bool.and_eq_true] at hdue
  have hin : f ∈ l.filter fun f => f.nHeight ≤ limit := List.mem_filter.mpr ⟨hmem, hdue.1⟩
  have hle : f.amount ≤ totalOf (l.filter fun f => f.nHeight ≤ limit) :=
    List.single_le_sum (fun _ _ => Nat.zero_le _) _ (List.mem_map_of_mem hin)
  omega

/-- One fund is matured in the source where it is not due, or the other way round: it is released where
it should not be, or kept. -/
theorem filter_eq_iff {p q : CAppCFund → Prop} [DecidablePred p] [DecidablePred q] :
    (l.filter fun f => p f) = (l.filter fun f => q f) ↔ ∀ f ∈ l, (p f ↔ q f) := by
  constructor
  · intro h f hf
    have hp : f ∈ (l.filter fun f => p f) ↔ p f := by simp [hf]
    have hq : f ∈ (l.filter fun f => q f) ↔ q f := by simp [hf]
    rw [← hp, h, hq]
  · intro h
    exact List.filter_congr fun f hf => decide_eq_decide.mpr (h f hf)

/-- The two readings of `AutoMergeFreezeToFree`. -/
theorem autoMergeFreezeToFree_eq (a : CAppUserAccout) (chainActive : PBlockIndex) (unAppHeight : UInt32)
    (nHeight : ℤ) :
    a.autoMergeFreezeToFree chainActive unAppHeight nHeight
      = a.autoMergeFreezeToFreeMut chainActive unAppHeight nHeight >>= fun r =>
          if r.1 then .ok r.2 else Exec.returnFalse := by
  unfold autoMergeFreezeToFree autoMergeFreezeToFreeMut
  cases freezeLimit chainActive unAppHeight nHeight with
  | error e => rfl
  | ok limit =>
    simp only [Except.ok_bind]
    cases mergeFunds limit a.ullValues a.vcFreezedFund with
    | none => rfl
    | some v => rfl

theorem autoMergeMut_fits (hlimit : freezeLimit chainActive unAppHeight nHeight = .ok limit)
    (h : a.ullValues.toNat + totalOf (a.vcFreezedFund.filter fun f => f.nHeight ≤ limit) < 2 ^ 64) :
    a.autoMergeFreezeToFreeMut chainActive unAppHeight nHeight = .ok (true, { a with
      ullValues := a.ullValues
        + UInt64.ofNat (totalOf (a.vcFreezedFund.filter fun f => f.nHeight ≤ limit))
      vcFreezedFund := a.vcFreezedFund.filter fun f => ¬ f.nHeight ≤ limit }) := by
  unfold autoMergeFreezeToFreeMut
  rw [hlimit, Except.ok_bind, mergeFunds_fits h]
  rfl

theorem autoMergeMut_over (hlimit : freezeLimit chainActive unAppHeight nHeight = .ok limit)
    (h : ¬ a.ullValues.toNat + totalOf (a.vcFreezedFund.filter fun f => f.nHeight ≤ limit) < 2 ^ 64) :
    a.autoMergeFreezeToFreeMut chainActive unAppHeight nHeight
      = .ok (false, { a with ullValues := mergedUntil limit a.ullValues a.vcFreezedFund }) := by
  unfold autoMergeFreezeToFreeMut
  rw [hlimit, Except.ok_bind, mergeFunds_over h]
  rfl

/-- Nothing is left to unfreeze. -/
theorem autoMergeMut_again (hlimit : freezeLimit chainActive unAppHeight nHeight = .ok limit)
    (hnone : ∀ f ∈ b.vcFreezedFund, ¬ f.nHeight ≤ limit) :
    b.autoMergeFreezeToFreeMut chainActive unAppHeight nHeight = .ok (true, b) := by
  have hempty : (b.vcFreezedFund.filter fun f => f.nHeight ≤ limit) = [] := by
    rw [List.filter_eq_nil_iff]
    simpa using hnone
  have hall : (b.vcFreezedFund.filter fun f => ¬ f.nHeight ≤ limit) = b.vcFreezedFund := by
    rw [List.filter_eq_self]
    simpa using hnone
  rw [autoMergeMut_fits hlimit (by rw [hempty]; exact b.ullValues.toNat_lt), hempty, hall]
  show Except.ok (true, { b with ullValues := b.ullValues + 0 }) = _
  rw [UInt64.add_zero]

/-- Unfreezing is exact when the free balance has room and the signs agree, or when it has none and the
first amount already finds none. -/
theorem unfreeze_exact_iff (hlimit : statedLimit chainActive unAppHeight nHeight = .ok limit)
    (hheight : nHeight < 2 ^ 31)
    (hint : ∀ f ∈ a.vcFreezedFund, -2 ^ 31 ≤ f.nHeight ∧ f.nHeight < 2 ^ 31) :
    a.UnfreezesExactly chainActive unAppHeight nHeight limit ↔
      (Fits64 limit a ∧ ∀ f ∈ a.vcFreezedFund, SignsAgree limit f) ∨
        (¬ Fits64 limit a ∧ BlockedAtOnce (signed32 limit) a.ullValues a.vcFreezedFund) := by
  obtain ⟨hfreeze, hlt⟩ := freezeLimit_stated hheight hlimit
  have hsigns : (∀ f ∈ a.vcFreezedFund, SignsAgree limit f) ↔
      ∀ f ∈ a.vcFreezedFund, (f.nHeight ≤ signed32 limit ↔ Due limit f) :=
    forall₂_congr fun f hf => (signsAgree_iff (hint f hf).1 (hint f hf).2 hlt).symm
  rw [hsigns]
  constructor
  · intro hexact
    by_cases hroom : a.ullValues.toNat
        + totalOf (a.vcFreezedFund.filter fun f => f.nHeight ≤ signed32 limit) < 2 ^ 64
    · obtain ⟨heq, -, -⟩ := hexact _ _ (autoMergeMut_fits hfreeze hroom)
      unfold unfrozen at heq
      split at heq
      · next hfits =>
        have hlist := congrArg (fun r => r.2.vcFreezedFund) heq
        refine .inl ⟨hfits, fun f hf => not_iff_not.mp ?_⟩
        exact filter_eq_iff.mp hlist f hf
      · cases congrArg Prod.fst heq
    · obtain ⟨heq, -, -⟩ := hexact _ _ (autoMergeMut_over hfreeze hroom)
      unfold unfrozen at heq
      split at heq
      · cases congrArg Prod.fst heq
      · next hfits =>
        have hfree : mergedUntil (signed32 limit) a.ullValues a.vcFreezedFund = a.ullValues :=
          congrArg (fun r => r.2.ullValues) heq
        exact .inr ⟨hfits, (mergedUntil_eq_iff (mergeFunds_over hroom)).mp hfree⟩
  · rintro (⟨hfits, hagree⟩ | ⟨hfits, hblocked⟩) ok b hrun
    · have hsame := filter_eq_iff.mpr hagree
      have hkept := filter_eq_iff.mpr fun f hf => not_congr (hagree f hf)
      have hroom : a.ullValues.toNat
          + totalOf (a.vcFreezedFund.filter fun f => f.nHeight ≤ signed32 limit) < 2 ^ 64 := by
        rw [hsame]
        exact hfits
      have htotal := mergeFunds_total (mergeFunds_fits hroom)
      rw [autoMergeMut_fits hfreeze hroom] at hrun
      obtain ⟨rfl, rfl⟩ := Prod.mk.inj (Except.ok.inj hrun)
      refine ⟨?_, htotal, autoMergeMut_again hfreeze ?_⟩
      · unfold unfrozen
        rw [if_pos hfits, hsame, hkept]
      · intro f hf
        have hmem := (List.mem_filter.mp hf).2
        simpa using hmem
    · have hfree := (mergedUntil_eq_iff (mergeFunds_over hblocked.over)).mpr hblocked
      have hfalse : a.autoMergeFreezeToFreeMut chainActive unAppHeight nHeight = .ok (false, a) := by
        rw [autoMergeMut_over hfreeze hblocked.over, hfree]
      rw [hfalse] at hrun
      obtain ⟨rfl, rfl⟩ := Prod.mk.inj (Except.ok.inj hrun)
      refine ⟨?_, rfl, hfalse⟩
      unfold unfrozen
      rw [if_neg hfits]

/-- One fund is due, one is not. -/
theorem unfreeze_exact_due :
    UnfreezesExactly ⟨3, [1], [⟨5, 90, [7]⟩, ⟨6, 110, [7]⟩]⟩ [] 0 100 100 := by
  refine (unfreeze_exact_iff (by decide) (by decide) (by decide)).mpr (.inl ⟨by decide, ?_⟩)
  intro f hf
  rcases List.mem_cons.mp hf with rfl | hf
  · unfold SignsAgree
    decide
  · obtain rfl := List.mem_singleton.mp hf
    unfold SignsAgree
    decide

/-- At height 100 a fund frozen until 2^31 is released; and where the second of two funds has no room,
the first one stays added. -/
theorem unfreeze_exact_early_or_twice :
    ¬ UnfreezesExactly ⟨3, [1], [⟨5, toInt32 2147483648, [7]⟩]⟩ [] 0 100 100 ∧
      ¬ UnfreezesExactly ⟨18446744073709551610, [1], [⟨5, 90, [7]⟩, ⟨6, 91, [7]⟩]⟩ [] 0 100 100 := by
  constructor
  · intro hexact
    have hrun : autoMergeFreezeToFreeMut ⟨3, [1], [⟨5, toInt32 2147483648, [7]⟩]⟩ [] 0 100
        = .ok (true, ⟨8, [1], []⟩) := by decide
    have heq := (hexact true _ hrun).1
    revert heq
    decide
  · intro hexact
    have hrun : autoMergeFreezeToFreeMut
        ⟨18446744073709551610, [1], [⟨5, 90, [7]⟩, ⟨6, 91, [7]⟩]⟩ [] 0 100
        = .ok (false, ⟨18446744073709551615, [1], [⟨5, 90, [7]⟩, ⟨6, 91, [7]⟩]⟩) := by decide
    have heq := (hexact false _ hrun).1
    revert heq
    decide

end

end CAppUserAccout

end Dacrs
