import Dacrs.AppFunds
import Dacrs.Vm

/-!
# App accounts in the contract database

What is stored for an app user is read back with the same funds (`CAppUserAccout.read_write`,
`reread_funds`), although a negative out-height is not: its record ends after seven bits.
-/

open Codec (Bytes Returns)

namespace Dacrs

/-! ## Out-heights in a record -/

/-- What is read back for an out-height. -/
def rereadHeight (n : ℤ) : ℤ := if n < 0 then n % 128 else n

theorem writeVarInt_rereadHeight (n : ℤ) : writeVarInt (rereadHeight n) = writeVarInt n := by
  unfold rereadHeight
  by_cases h : n < 0
  · have hlow := Int.emod_nonneg n (show (128 : ℤ) ≠ 0 by norm_num)
    have hhigh := Int.emod_lt_of_pos n (show (0 : ℤ) < 128 by norm_num)
    rw [if_pos h, writeVarInt, if_neg (not_lt.mpr hlow), writeVarInt, if_pos h, Codec.writeVarNat,
      Codec.varNatGo]
    have hle : (n % 128).toNat ≤ 127 := by omega
    simp only [if_pos hle, if_true]
    rw [Nat.mod_eq_of_lt (by omega)]
  · rw [if_neg h]

namespace CAppCFund

/-- Slots a record can hold. -/
def Storable (s : FundSlot) : Prop := -2 ^ 31 ≤ s.1 ∧ s.1 < 2 ^ 31 ∧ s.2.length ≤ maxSize

def reread (f : CAppCFund) : CAppCFund := { f with nHeight := rereadHeight f.nHeight }

theorem codec_reread (f : CAppCFund) : codec.write f.reread = codec.write f := by
  show varUInt64.write f.nllValue ++ (writeVarInt (rereadHeight f.nHeight) ++ vchCodec.write f.vTag)
    = varUInt64.write f.nllValue ++ (writeVarInt f.nHeight ++ vchCodec.write f.vTag)
  rw [writeVarInt_rereadHeight]

theorem reread_fits {f : CAppCFund} (h : Storable f.slot) : codec.Fits f.reread := by
  obtain ⟨hlow, hhigh, htag⟩ := h
  dsimp only [slot] at hlow hhigh htag
  refine ⟨?_, vchCodec_fits htag⟩
  show 0 ≤ rereadHeight f.nHeight ∧ rereadHeight f.nHeight < 2 ^ 31
  unfold rereadHeight
  split <;> omega

theorem returns_codec : Returns codec.read fun f => Storable f.slot := by
  refine Codec.Returns.map (Returns.bind (P := fun _ => True) (.of_all fun _ => trivial) fun v _ => ?_)
  refine Returns.bind (P := fun p : ℤ × Bytes =>
    -2 ^ 31 ≤ p.1 ∧ p.1 < 2 ^ 31 ∧ p.2.length ≤ maxSize) ?_ fun p hp => Returns.pure hp
  refine Returns.bind (P := fun n : ℤ => -2 ^ 31 ≤ n ∧ n < 2 ^ 31) ?_ fun n hn => ?_
  · refine Returns.map (.of_all fun n => ?_)
    have hlow := BitVec.le_toInt (BitVec.ofNat 32 n)
    have hhigh := BitVec.toInt_lt (x := BitVec.ofNat 32 n)
    exact ⟨by simpa using hlow, by simpa using hhigh⟩
  · refine Returns.bind (Codec.returns_vec (P := fun _ => True) (.of_all fun _ => trivial) maxSize)
      fun v hv => Returns.pure ⟨hn.1, hn.2, hv.1⟩

end CAppCFund

namespace CAppUserAccout

open CAppCFund (Storable totalOf)

/-- An account a record can hold: its user id, its number of frozen funds and their slots. -/
structure Fits (a : CAppUserAccout) : Prop where
  user : a.vuchAccUserID.length ≤ maxSize
  count : a.vcFreezedFund.length ≤ maxSize
  slots : ∀ f ∈ a.vcFreezedFund, Storable f.slot

def reread (a : CAppUserAccout) : CAppUserAccout :=
  { a with vcFreezedFund := a.vcFreezedFund.map CAppCFund.reread }

theorem reread_funds (a : CAppUserAccout) : a.reread.funds = a.funds := by
  unfold funds reread totalOf
  rw [List.map_map]
  rfl

/-- The record of an account, and what is read back from it. -/
theorem read_write {a : CAppUserAccout} (h : a.Fits) :
    codec.read (codec.write a) = some (a.reread, []) := by
  have hfits : codec.Fits a.reread := by
    refine ⟨vchCodec_fits h.user, ⟨?_, ?_⟩⟩
    · show a.reread.vcFreezedFund.length ≤ maxSize ∧ _
      rw [show a.reread.vcFreezedFund.length = a.vcFreezedFund.length from List.length_map _]
      exact ⟨h.count, lt_of_le_of_lt h.count (by norm_num [maxSize])⟩
    · intro f hf
      obtain ⟨g, hg, rfl⟩ := List.mem_map.mp hf
      exact CAppCFund.reread_fits (h.slots g hg)
  have hwrite : codec.write a.reread = codec.write a := by
    show varUInt64.write a.ullValues ++ (vchCodec.write a.vuchAccUserID ++
        (Codec.writeCompactSize (a.vcFreezedFund.map CAppCFund.reread).length ++
          Codec.writeAll CAppCFund.codec (a.vcFreezedFund.map CAppCFund.reread)))
      = varUInt64.write a.ullValues ++ (vchCodec.write a.vuchAccUserID ++
        (Codec.writeCompactSize a.vcFreezedFund.length ++
          Codec.writeAll CAppCFund.codec a.vcFreezedFund))
    have hall : Codec.writeAll CAppCFund.codec (a.vcFreezedFund.map CAppCFund.reread)
        = Codec.writeAll CAppCFund.codec a.vcFreezedFund := by
      unfold Codec.writeAll
      rw [List.flatMap_map]
      exact congrArg (List.flatMap · a.vcFreezedFund) (funext CAppCFund.codec_reread)
    rw [List.length_map, hall]
  rw [← hwrite]
  exact codec.read_write_nil a.reread hfits

theorem write_ne_nil (a : CAppUserAccout) : codec.write a ≠ [] := by
  intro h
  have hfirst : varUInt64.write a.ullValues = [] := (List.append_eq_nil_iff.mp h).1
  have hread := varUInt64.read_write a.ullValues [] trivial
  rw [hfirst] at hread
  cases hread

theorem returns_codec : Returns codec.read fun a => ∀ f ∈ a.vcFreezedFund, Storable f.slot := by
  refine Codec.Returns.map (Returns.bind (P := fun _ => True) (.of_all fun _ => trivial) fun v _ => ?_)
  refine Returns.bind (P := fun p : Bytes × List CAppCFund => ∀ f ∈ p.2, Storable f.slot) ?_
    fun p hp => Returns.pure hp
  refine Returns.bind (P := fun _ => True) (.of_all fun _ => trivial) fun id _ => ?_
  refine Returns.bind (Codec.returns_vec CAppCFund.returns_codec maxSize) fun l hl => ?_
  exact Returns.pure hl.2

/-! ## The slots after some operations -/

section
variable {a b : CAppUserAccout} {op : CAppFundOperate} {fund : CAppCFund}

theorem addAppCFund_slots (h : a.addAppCFund fund = .ok b) :
    (b.vcFreezedFund.map CAppCFund.slot).Sublist
      (a.vcFreezedFund.map CAppCFund.slot ++ [fund.slot]) := by
  unfold addAppCFund at h
  cases hfind : a.vcFreezedFund.find? (·.sameSlot fund) with
  | none =>
    rw [hfind] at h
    obtain rfl := Except.ok.inj h
    rw [List.map_append]
    exact List.Sublist.refl _
  | some old =>
    rw [hfind] at h
    dsimp only at h
    split at h
    · cases h
    · obtain rfl := Except.ok.inj h
      exact (updateFirst_sublist (mergeInto_slot fund)).trans (List.sublist_append_left _ _)

theorem minusAppCFund_slots (h : a.minusAppCFund fund = .ok b) :
    (b.vcFreezedFund.map CAppCFund.slot).Sublist (a.vcFreezedFund.map CAppCFund.slot) := by
  unfold minusAppCFund at h
  split at h
  · cases h
  · cases hfind : a.vcFreezedFund.find? (·.sameSlot fund) with
    | none =>
      rw [hfind] at h
      cases h
    | some old =>
      rw [hfind] at h
      dsimp only at h
      split at h
      · cases h
      · obtain rfl := Except.ok.inj h
        exact updateFirst_sublist (takeFrom_slot fund)

theorem ofOperate_storable (h : CAppCFund.ofOperate op = .ok fund) : Storable fund.slot := by
  obtain ⟨-, hslot, hlen⟩ := ofOperate_cases h
  rw [hslot]
  have hlow := op.unOutHeight.toInt32.le_toInt
  have hhigh := op.unOutHeight.toInt32.toInt_lt
  refine ⟨hlow, hhigh, ?_⟩
  show (op.arruchFundTag.take op.uchFundTaglen.toNat).length ≤ maxSize
  rw [List.length_take]
  have hmax : 40 ≤ maxSize := by norm_num [maxSize]
  omega

/-- One operation adds at most one slot, which a record can hold. -/
theorem operateOne_slots (h : a.operateOne op = .ok b) :
    ∃ new, (b.vcFreezedFund.map CAppCFund.slot).Sublist
        (a.vcFreezedFund.map CAppCFund.slot ++ new) ∧ new.length ≤ 1 ∧ ∀ s ∈ new, Storable s := by
  have hsame : ∀ {c : CAppUserAccout}, c.vcFreezedFund = a.vcFreezedFund →
      ∃ new, (c.vcFreezedFund.map CAppCFund.slot).Sublist
        (a.vcFreezedFund.map CAppCFund.slot ++ new) ∧ new.length ≤ 1 ∧ ∀ s ∈ new, Storable s := by
    intro c hc
    refine ⟨[], ?_, Nat.zero_le _, fun s hs => nomatch hs⟩
    rw [hc, List.append_nil]
  unfold operateOne at h
  by_cases hadd : op.uchOpeatorType = addFreeOp
  · rw [if_pos hadd] at h
    split at h
    · obtain rfl := Except.ok.inj h
      exact hsame rfl
    · cases h
  by_cases hsub : op.uchOpeatorType = subFreeOp
  · rw [if_neg hadd, if_pos hsub] at h
    split at h
    · obtain rfl := Except.ok.inj h
      exact hsame rfl
    · cases h
  by_cases haddTag : op.uchOpeatorType = addTagOp
  · rw [if_neg hadd, if_neg hsub, if_pos haddTag, Except.bind_eq_ok] at h
    obtain ⟨fund, hfund, h⟩ := h
    refine ⟨[fund.slot], addAppCFund_slots h, Nat.le_refl 1, fun s hs => ?_⟩
    rw [List.mem_singleton.mp hs]
    exact ofOperate_storable hfund
  by_cases hsubTag : op.uchOpeatorType = subTagOp
  · rw [if_neg hadd, if_neg hsub, if_neg haddTag, if_pos hsubTag, Except.bind_eq_ok] at h
    obtain ⟨fund, hfund, h⟩ := h
    refine ⟨[], ?_, Nat.zero_le _, fun s hs => nomatch hs⟩
    rw [List.append_nil]
    exact minusAppCFund_slots h
  rw [if_neg hadd, if_neg hsub, if_neg haddTag, if_neg hsubTag] at h
  cases h

/-- A list of operations adds at most one slot each. -/
theorem foldlM_operateOne_slots {ops : List CAppFundOperate} (h : ops.foldlM operateOne a = .ok b) :
    ∃ new, (b.vcFreezedFund.map CAppCFund.slot).Sublist
        (a.vcFreezedFund.map CAppCFund.slot ++ new) ∧ new.length ≤ ops.length ∧
      ∀ s ∈ new, Storable s := by
  induction ops generalizing a with
  | nil =>
    obtain rfl := Except.ok.inj h
    exact ⟨[], by rw [List.append_nil], Nat.le_refl 0, fun s hs => nomatch hs⟩
  | cons op ops ih =>
    rw [List.foldlM_cons, Except.bind_eq_ok] at h
    obtain ⟨c, h1, h2⟩ := h
    obtain ⟨new₁, hsub₁, hlen₁, hst₁⟩ := operateOne_slots h1
    obtain ⟨new₂, hsub₂, hlen₂, hst₂⟩ := ih h2
    refine ⟨new₁ ++ new₂, ?_, ?_, fun s hs => ?_⟩
    · rw [← List.append_assoc]
      exact hsub₂.trans (hsub₁.append_right new₂)
    · rw [List.length_append, List.length_cons]
      omega
    · exact (List.mem_append.mp hs).elim (hst₁ s) (hst₂ s)

/-- After some operations the account still fits its record. -/
theorem Fits.operate {ops : List CAppFundOperate} (huser : a.vuchAccUserID.length ≤ maxSize)
    (hcount : a.vcFreezedFund.length + ops.length ≤ maxSize)
    (hslots : ∀ f ∈ a.vcFreezedFund, Storable f.slot) (hid : b.vuchAccUserID = a.vuchAccUserID)
    (h : ops.foldlM operateOne a = .ok b) : b.Fits := by
  obtain ⟨new, hsub, hlen, hnew⟩ := foldlM_operateOne_slots h
  refine ⟨hid ▸ huser, ?_, fun f hf => ?_⟩
  · have hle := hsub.length_le
    rw [List.length_map, List.length_append, List.length_map] at hle
    omega
  · rcases List.mem_append.mp (hsub.subset (List.mem_map_of_mem hf)) with hold | hadded
    · obtain ⟨g, hg, hslot⟩ := List.mem_map.mp hold
      rw [← hslot]
      exact hslots g hg
    · exact hnew _ hadded

end

end CAppUserAccout

end Dacrs
