import Mathlib.Data.List.GetD
import Dacrs.BaseUint

/-!
# base_uint counts modulo a power of two

Every operation on the limbs is the operation on the number (`toNat`), modulo `2 ^ (32 * width)`; so is, on 8
limbs, the operation on `BitVec 256` that the rest of the development works with (`implements`).
-/

namespace Dacrs

namespace BaseUint

open Limbs

/-- The numbers in the limbs. -/
def nats (pn : List UInt32) : List ℕ := pn.map UInt32.toNat

@[simp] theorem nats_nil : nats [] = [] := rfl

@[simp] theorem nats_cons (p : UInt32) (pn : List UInt32) : nats (p :: pn) = p.toNat :: nats pn := rfl

@[simp] theorem length_nats (pn : List UInt32) : (nats pn).length = pn.length := List.length_map _

variable {width : ℕ}

def toNat (a : BaseUint width) : ℕ := value 32 (nats a.pn)

theorem fits_nats (pn : List UInt32) : Fits 32 (nats pn) := by
  intro d hd
  obtain ⟨p, -, rfl⟩ := List.mem_map.mp hd
  exact p.toNat_lt

theorem toNat_lt (a : BaseUint width) : a.toNat < 2 ^ (32 * width) := by
  have hlt := (fits_nats a.pn).value_lt
  rwa [length_nats, a.length_pn, ← pow_mul] at hlt

@[simp] theorem toNat_zero : (zero width).toNat = 0 := by
  show value 32 ((List.replicate width 0).map UInt32.toNat) = 0
  rw [List.map_replicate]
  exact value_replicate width

/-! ## Words -/

theorem toNat_lowWord (n : UInt64) : (lowWord n).toNat = n.toNat % 2 ^ 32 := by
  rw [lowWord, UInt64.toNat_toUInt32, UInt64.toNat_and]
  show (n.toNat &&& (2 ^ 32 - 1)) % 2 ^ 32 = n.toNat % 2 ^ 32
  rw [Nat.and_two_pow_sub_one_eq_mod, Nat.mod_mod]

theorem toNat_carry (n : UInt64) : (n >>> 32).toNat = n.toNat / 2 ^ 32 := by
  rw [UInt64.toNat_shiftRight]
  exact Nat.shiftRight_eq_div_pow _ _

/-- A sum of words in 64 bits. -/
theorem toNat_sum (carry : UInt64) {n : UInt64} {c : ℕ} (hn : n.toNat = c) (hlt : carry.toNat + c < 2 ^ 64) :
    (carry + n).toNat = carry.toNat + c := by
  rw [UInt64.toNat_add, hn]
  exact Nat.mod_eq_of_lt hlt

theorem word_mul_le (p q : UInt32) : p.toNat * q.toNat ≤ (2 ^ 32 - 1) * (2 ^ 32 - 1) :=
  Nat.mul_le_mul (Nat.le_sub_one_of_lt p.toNat_lt) (Nat.le_sub_one_of_lt q.toNat_lt)

theorem toNat_word_mul (p q : UInt32) : (p.toUInt64 * q.toUInt64).toNat = p.toNat * q.toNat := by
  have hle := word_mul_le p q
  rw [UInt64.toNat_mul, UInt32.toNat_toUInt64, UInt32.toNat_toUInt64]
  exact Nat.mod_eq_of_lt (by omega)

/-! ## Sums -/

theorem nats_addLoop {pn qn : List UInt32} (h : pn.length = qn.length) (carry : UInt64)
    (hcarry : carry.toNat ≤ 1) :
    nats (addLoop pn qn carry) = ripple 32 (List.zipWith (· + ·) (nats pn) (nats qn)) carry.toNat := by
  induction pn generalizing qn carry with
  | nil => rfl
  | cons p pn ih =>
    cases qn with
    | nil => cases h
    | cons q qn =>
      have hp := p.toNat_lt
      have hq := q.toNat_lt
      have hsum : (carry + p.toUInt64 + q.toUInt64).toNat = carry.toNat + (p.toNat + q.toNat) := by
        simp only [UInt64.toNat_add, UInt32.toNat_toUInt64]
        omega
      have hnext : ((carry + p.toUInt64 + q.toUInt64) >>> 32).toNat ≤ 1 := by
        rw [toNat_carry, hsum]
        omega
      rw [addLoop]
      simp only [nats_cons, List.zipWith_cons_cons, ripple, toNat_lowWord, ih (Nat.succ.inj h) _ hnext,
        toNat_carry, hsum]

theorem toNat_add (a b : BaseUint width) : (a.add b).toNat = (a.toNat + b.toNat) % 2 ^ (32 * width) := by
  have hlength : (nats a.pn).length = (nats b.pn).length := by
    rw [length_nats, length_nats, a.length_pn, b.length_pn]
  show value 32 (nats (addLoop a.pn b.pn 0)) = _
  rw [nats_addLoop (a.length_pn.trans b.length_pn.symm) 0 (by decide), value_ripple, value_add hlength,
    List.length_zipWith, ← hlength, Nat.min_self, length_nats, a.length_pn, ← pow_mul]
  rfl

theorem value_not (pn : List UInt32) :
    value 32 (nats (pn.map (~~~ ·))) + value 32 (nats pn) + 1 = (2 ^ 32) ^ pn.length := by
  induction pn with
  | nil => rfl
  | cons p pn ih =>
    have hnot : (~~~p).toNat + p.toNat + 1 = 2 ^ 32 := by
      have hp := p.toNat_lt
      rw [UInt32.toNat_not, UInt32.size]
      omega
    rw [List.map_cons, nats_cons, nats_cons, value_cons, value_cons, List.length_cons, pow_succ' _ pn.length]
    calc _ = ((~~~p).toNat + p.toNat + 1) + 2 ^ 32 * (value 32 (nats (pn.map (~~~ ·))) + value 32 (nats pn)) := by
          ring
      _ = 2 ^ 32 * (value 32 (nats (pn.map (~~~ ·))) + value 32 (nats pn) + 1) := by rw [hnot]; ring
      _ = _ := by rw [ih]

theorem nats_incLoop (pn : List UInt32) : nats (incLoop pn) = ripple 32 (nats pn) 1 := by
  induction pn with
  | nil => rfl
  | cons p pn ih =>
    have hp := p.toNat_lt
    have hsucc : (p + 1).toNat = (1 + p.toNat) % 2 ^ 32 := by rw [UInt32.toNat_add, Nat.add_comm]; rfl
    rw [incLoop, nats_cons, ripple]
    split
    · next h =>
      have hzero : (1 + p.toNat) % 2 ^ 32 = 0 := by rw [← hsucc, h]; rfl
      have hcarry : (1 + p.toNat) / 2 ^ 32 = 1 := by omega
      rw [nats_cons, ih, hsucc, hcarry]
    · next h =>
      have hne : (1 + p.toNat) % 2 ^ 32 ≠ 0 := fun hzero => h (UInt32.toNat_inj.mp (hsucc.trans hzero))
      have hcarry : (1 + p.toNat) / 2 ^ 32 = 0 := by omega
      rw [nats_cons, hsucc, hcarry, (fits_nats pn).ripple_zero]

theorem toNat_inc (a : BaseUint width) : a.inc.toNat = (a.toNat + 1) % 2 ^ (32 * width) := by
  show value 32 (nats (incLoop a.pn)) = _
  rw [nats_incLoop, value_ripple, length_nats, a.length_pn, ← pow_mul]
  rfl

theorem value_decLoop (pn : List UInt32) :
    (value 32 (nats (decLoop pn)) + 1) % (2 ^ 32) ^ pn.length = value 32 (nats pn) := by
  induction pn with
  | nil => simp [decLoop]
  | cons p pn ih =>
    have hp := p.toNat_lt
    have hpred : (p - 1).toNat = (p.toNat + (2 ^ 32 - 1)) % 2 ^ 32 := by
      rw [UInt32.toNat_sub, Nat.add_comm]
      rfl
    rw [decLoop, nats_cons, value_cons, List.length_cons, pow_succ' _ pn.length]
    split
    · next h =>
      have hones : (p - 1).toNat = 2 ^ 32 - 1 := congrArg UInt32.toNat h
      have hzero : p.toNat = 0 := by omega
      have hsum : (p - 1).toNat + 2 ^ 32 * value 32 (nats (decLoop pn)) + 1
          = 2 ^ 32 * (value 32 (nats (decLoop pn)) + 1) := by
        rw [hones, Nat.mul_add]
        omega
      rw [nats_cons, value_cons, hsum, Nat.mul_mod_mul_left, ih, hzero, Nat.zero_add]
    · next h =>
      have hne : p.toNat ≠ 0 := by
        intro hzero
        obtain rfl : p = 0 := UInt32.toNat_inj.mp hzero
        exact h rfl
      have hlt := (fits_nats (p :: pn)).value_lt
      rw [nats_cons, value_cons, List.length_cons, length_nats, pow_succ' _ pn.length] at hlt
      rw [nats_cons, value_cons, hpred, show (p.toNat + (2 ^ 32 - 1)) % 2 ^ 32 = p.toNat - 1 by omega,
        Nat.mod_eq_of_lt (by omega)]
      omega

theorem toNat_neg (a : BaseUint width) : a.neg.toNat = (2 ^ (32 * width) - a.toNat) % 2 ^ (32 * width) := by
  have hnot := value_not a.pn
  rw [a.length_pn, ← pow_mul] at hnot
  have hsum : a.not.toNat + a.toNat + 1 = 2 ^ (32 * width) := hnot
  rw [neg, toNat_inc]
  congr 1
  omega

theorem toNat_sub (a b : BaseUint width) :
    (a.sub b).toNat = (a.toNat + (2 ^ (32 * width) - b.toNat)) % 2 ^ (32 * width) := by
  rw [sub, toNat_add, toNat_neg, Nat.add_mod_mod]

theorem toNat_sub_of_le {a b : BaseUint width} (h : b.toNat ≤ a.toNat) :
    (a.sub b).toNat = a.toNat - b.toNat := by
  have ha := a.toNat_lt
  rw [toNat_sub, show a.toNat + (2 ^ (32 * width) - b.toNat) = a.toNat - b.toNat + 2 ^ (32 * width) by omega,
    Nat.add_mod_right, Nat.mod_eq_of_lt (by omega)]

/-! ## Products -/

theorem nats_mulWordLoop (b32 : UInt32) (pn : List UInt32) (carry : UInt64) (hcarry : carry.toNat < 2 ^ 32) :
    nats (mulWordLoop b32 pn carry) = ripple 32 ((nats pn).map (b32.toNat * ·)) carry.toNat := by
  induction pn generalizing carry with
  | nil => rfl
  | cons p pn ih =>
    have hle := word_mul_le b32 p
    have hsum := toNat_sum carry (toNat_word_mul b32 p) (by omega)
    have hnext : ((carry + b32.toUInt64 * p.toUInt64) >>> 32).toNat < 2 ^ 32 := by
      rw [toNat_carry, hsum]
      omega
    rw [mulWordLoop]
    simp only [nats_cons, List.map_cons, ripple, toNat_lowWord, ih _ hnext, toNat_carry, hsum]

theorem toNat_mulWord (a : BaseUint width) (b32 : UInt32) :
    (a.mulWord b32).toNat = a.toNat * b32.toNat % 2 ^ (32 * width) := by
  show value 32 (nats (mulWordLoop b32 a.pn 0)) = _
  rw [nats_mulWordLoop b32 a.pn 0 (by decide), value_ripple, value_mul, List.length_map, length_nats,
    a.length_pn, ← pow_mul, Nat.mul_comm]
  rfl

theorem nats_mulRow (aj : UInt32) {pn qn : List UInt32} (h : pn.length ≤ qn.length) (carry : UInt64)
    (hcarry : carry.toNat < 2 ^ 32) : nats (mulRow aj pn qn carry)
      = ripple 32 (List.zipWith (· + ·) (nats pn) (((nats qn).take pn.length).map (aj.toNat * ·))) carry.toNat := by
  induction pn generalizing qn carry with
  | nil => cases qn <;> rfl
  | cons p pn ih =>
    cases qn with
    | nil => cases h
    | cons q qn =>
      have hp := p.toNat_lt
      have hle := word_mul_le aj q
      have hfirst : (carry + p.toUInt64).toNat = carry.toNat + p.toNat :=
        toNat_sum carry (UInt32.toNat_toUInt64 p) (by omega)
      have hsum : (carry + p.toUInt64 + aj.toUInt64 * q.toUInt64).toNat
          = carry.toNat + (p.toNat + aj.toNat * q.toNat) := by
        rw [toNat_sum _ (toNat_word_mul aj q) (by omega), hfirst, Nat.add_assoc]
      have hnext : ((carry + p.toUInt64 + aj.toUInt64 * q.toUInt64) >>> 32).toNat < 2 ^ 32 := by
        rw [toNat_carry, hsum]
        omega
      rw [mulRow]
      simp only [nats_cons, List.map_cons, List.length_cons, List.take_succ_cons,
        List.zipWith_cons_cons, ripple, toNat_lowWord, ih (Nat.le_of_succ_le_succ h) _ hnext, toNat_carry, hsum]

theorem value_mulRow (aj : UInt32) {pn qn : List UInt32} (h : pn.length ≤ qn.length) :
    value 32 (nats (mulRow aj pn qn 0))
      = (value 32 (nats pn) + aj.toNat * value 32 (nats qn)) % (2 ^ 32) ^ pn.length := by
  have hlength : (nats pn).length = (((nats qn).take pn.length).map (aj.toNat * ·)).length := by
    rw [length_nats, List.length_map, List.length_take, length_nats, Nat.min_eq_left h]
  rw [nats_mulRow aj h 0 (by decide), value_ripple, value_add hlength, value_mul, (fits_nats qn).value_take,
    List.length_zipWith, ← hlength, Nat.min_self, length_nats]
  show (_ + 0) % _ = _
  rw [Nat.add_zero, Nat.add_mod, Nat.mul_mod, Nat.mod_mod, ← Nat.mul_mod, ← Nat.add_mod]

theorem value_mulRows {b a pn : List UInt32} (ha : a.length = pn.length) (hb : pn.length ≤ b.length) :
    value 32 (nats (mulRows b a pn))
      = (value 32 (nats pn) + value 32 (nats a) * value 32 (nats b)) % (2 ^ 32) ^ pn.length := by
  induction a generalizing pn with
  | nil =>
    obtain rfl := List.length_eq_zero_iff.mp ha.symm
    simp [mulRows]
  | cons aj a ih =>
    have hrow := value_mulRow aj hb
    have hlength := length_mulRow aj pn b 0
    rw [mulRows]
    split
    · next h =>
      rw [h] at hlength
      rw [← hlength] at ha
      cases ha
    · next p row h =>
      rw [h] at hrow hlength
      have hlen : pn.length = row.length + 1 := hlength.symm
      have hpos : 0 < 2 ^ 32 := Nat.two_pow_pos 32
      have hp := p.toNat_lt
      rw [nats_cons, value_cons, ih (by rw [List.length_cons] at ha; omega) (by omega), nats_cons, value_cons, hlen,
        pow_succ' _ row.length]
      rw [nats_cons, value_cons, hlen, pow_succ' _ row.length] at hrow
      -- the rows that are left start one limb higher
      symm
      calc (value 32 (nats pn) + (aj.toNat + 2 ^ 32 * value 32 (nats a)) * value 32 (nats b))
            % (2 ^ 32 * (2 ^ 32) ^ row.length)
          = (value 32 (nats pn) + aj.toNat * value 32 (nats b) + 2 ^ 32 * (value 32 (nats a) * value 32 (nats b)))
            % (2 ^ 32 * (2 ^ 32) ^ row.length) := by
            congr 1
            ring
        _ = (p.toNat + 2 ^ 32 * (value 32 (nats row) + value 32 (nats a) * value 32 (nats b)))
            % (2 ^ 32 * (2 ^ 32) ^ row.length) := by
            rw [Nat.add_mod, ← hrow, Nat.add_mod_mod, Nat.add_assoc, ← Nat.mul_add]
        _ = _ := by
            rw [Nat.mod_mul, Nat.add_mul_mod_self_left, Nat.mod_eq_of_lt hp, Nat.add_mul_div_left _ _ hpos,
              Nat.div_eq_of_lt hp, Nat.zero_add]

theorem toNat_mul (a b : BaseUint width) : (a.mul b).toNat = a.toNat * b.toNat % 2 ^ (32 * width) := by
  have hzero : value 32 (nats (zero width).pn) = 0 := toNat_zero
  show value 32 (nats (mulRows b.pn a.pn (zero width).pn)) = _
  rw [value_mulRows (a.length_pn.trans (zero width).length_pn.symm)
    (by rw [(zero width).length_pn, b.length_pn]), hzero, Nat.zero_add, (zero width).length_pn, ← pow_mul]
  rfl

/-! ## Bits -/

/-- A bit of a word of the list. -/
def bitAt (pn : List UInt32) (j r : ℕ) : Bool := (pn.getD j 0).toNat.testBit r

theorem testBit_toNat (a : BaseUint width) (m : ℕ) : a.toNat.testBit m = bitAt a.pn (m / 32) (m % 32) := by
  have hget : (nats a.pn).getD (m / 32) 0 = (a.pn.getD (m / 32) 0).toNat := by
    rw [List.getD_eq_getElem?_getD, List.getD_eq_getElem?_getD, nats, List.getElem?_map]
    cases a.pn[m / 32]? <;> rfl
  rw [toNat, (fits_nats a.pn).testBit_value (by decide), hget, bitAt]

theorem testBit_of_width_le (a : BaseUint width) {m : ℕ} (h : 32 * width ≤ m) : a.toNat.testBit m = false :=
  Nat.testBit_lt_two_pow (lt_of_lt_of_le a.toNat_lt (Nat.pow_le_pow_right (by decide) h))

theorem bitAt_of_length_le {pn : List UInt32} {j : ℕ} (h : pn.length ≤ j) (r : ℕ) : bitAt pn j r = false := by
  rw [bitAt, List.getD_eq_default _ _ h]
  exact Nat.zero_testBit r

theorem bitAt_zip (f : UInt32 → UInt32 → UInt32) {pn qn : List UInt32} (hlength : pn.length = qn.length) {j : ℕ}
    (h : j < pn.length) (r : ℕ) :
    bitAt (List.zipWith f pn qn) j r = (f (pn.getD j 0) (qn.getD j 0)).toNat.testBit r := by
  rw [bitAt, List.getD_eq_getElem _ _ (by rw [List.length_zipWith]; omega), List.getElem_zipWith,
    List.getD_eq_getElem _ _ h, List.getD_eq_getElem _ _ (hlength ▸ h)]

theorem bitAt_orAt {pn : List UInt32} {i : ℕ} (hi : i < pn.length) (word : UInt32) (j r : ℕ) :
    bitAt (orAt pn i word) j r = (bitAt pn j r || (decide (i = j) && word.toNat.testBit r)) := by
  rw [bitAt, bitAt, orAt, List.getD_eq_getElem?_getD, List.getElem?_modify]
  by_cases h : i = j
  · subst h
    rw [List.getElem?_eq_getElem hi, List.getD_eq_getElem _ _ hi]
    simp
  · rw [List.getD_eq_getElem?_getD]
    cases pn[j]? <;> simp [h]

/-- An assignment under a condition. -/
theorem bitAt_ite_orAt {c : Prop} [Decidable c] {pn : List UInt32} {i : ℕ} (hi : c → i < pn.length) (word : UInt32)
    (j r : ℕ) :
    bitAt (if c then orAt pn i word else pn) j r
      = (bitAt pn j r || (decide (c ∧ i = j) && word.toNat.testBit r)) := by
  split
  · next h => rw [bitAt_orAt (hi h), decide_eq_decide.mpr (and_iff_right h)]
  · next h => rw [decide_eq_false (fun hc => h hc.1), Bool.false_and, Bool.or_false]

theorem testBit_shiftLeft (p : UInt32) {s : ℕ} (hs : s < 32) {r : ℕ} (hr : r < 32) :
    (p <<< UInt32.ofNat s).toNat.testBit r = (decide (s ≤ r) && p.toNat.testBit (r - s)) := by
  rw [UInt32.toNat_shiftLeft, UInt32.toNat_ofNat', Nat.mod_eq_of_lt (by omega : s < 2 ^ 32), Nat.mod_eq_of_lt hs,
    Nat.testBit_mod_two_pow, Nat.testBit_shiftLeft]
  simp [hr]

theorem testBit_shiftRight (p : UInt32) {s : ℕ} (hs : s < 32) (r : ℕ) :
    (p >>> UInt32.ofNat s).toNat.testBit r = p.toNat.testBit (s + r) := by
  rw [UInt32.toNat_shiftRight, UInt32.toNat_ofNat', Nat.mod_eq_of_lt (by omega : s < 2 ^ 32), Nat.mod_eq_of_lt hs,
    Nat.testBit_shiftRight]

theorem testBit_of_32_le (p : UInt32) {r : ℕ} (hr : 32 ≤ r) : p.toNat.testBit r = false :=
  Nat.testBit_lt_two_pow (lt_of_lt_of_le p.toNat_lt (Nat.pow_le_pow_right (by decide) hr))

/-! ## Shifts -/

section
variable {a : List UInt32} {k s : ℕ} (hs : s < 32)
include hs

/-- What a turn of `operator<<=` adds to bit `r` of word `j`. -/
theorem bitAt_shlTurn {pn : List UInt32} (hpn : pn.length = width) {i j r : ℕ} (hj : j < width) (hr : r < 32) :
    bitAt (shlTurn width k s a pn i) j r
      = (bitAt pn j r || (decide (i + k + 1 = j ∧ s ≠ 0) && bitAt a i (32 - s + r)) ||
        (decide (i + k = j ∧ s ≤ r) && bitAt a i (r - s))) := by
  rw [shlTurn, bitAt_ite_orAt (by rw [length_ite_orAt, hpn]; exact id),
    bitAt_ite_orAt (by rw [hpn]; exact And.left), testBit_shiftLeft _ hs hr, ← Bool.and_assoc, ← Bool.decide_and]
  congr 2
  · by_cases hs0 : s = 0
    · rw [decide_eq_false (by omega), decide_eq_false (by omega), Bool.false_and, Bool.false_and]
    · rw [testBit_shiftRight _ (by omega)]
      congr 1
      rw [decide_eq_decide]
      omega
  · rw [decide_eq_decide]
    omega

/-- After `n` turns. -/
theorem bitAt_shlLoop {n j r : ℕ} (hn : n ≤ width) (hj : j < width) (hr : r < 32) :
    bitAt ((List.range n).foldl (shlTurn width k s a) (zero width).pn) j r
      = ((decide (k + 1 ≤ j ∧ j < n + k + 1 ∧ s ≠ 0) && bitAt a (j - k - 1) (32 - s + r)) ||
        (decide (k ≤ j ∧ j < n + k ∧ s ≤ r) && bitAt a (j - k) (r - s))) := by
  induction n with
  | zero =>
    have hzero : bitAt (zero width).pn j r = false := by
      rw [bitAt, zero, List.getD_replicate _ hj]
      exact Nat.zero_testBit r
    have hlow : ¬ (k + 1 ≤ j ∧ j < 0 + k + 1 ∧ s ≠ 0) := by omega
    have hhigh : ¬ (k ≤ j ∧ j < 0 + k ∧ s ≤ r) := by omega
    rw [List.range_zero, List.foldl_nil, hzero, decide_eq_false hlow, decide_eq_false hhigh]
    rfl
  | succ n ih =>
    have hlength : ((List.range n).foldl (shlTurn width k s a) (zero width).pn).length = width := by
      rw [length_foldl (length_shlTurn _ _ _), (zero width).length_pn]
    rw [List.range_succ, List.foldl_append, List.foldl_cons, List.foldl_nil, bitAt_shlTurn hs hlength hj hr,
      ih (by omega), Bool.eq_iff_iff]
    simp only [Bool.or_eq_true, Bool.and_eq_true, decide_eq_true_eq]
    constructor
    · rintro (((⟨h, hbit⟩ | ⟨h, hbit⟩) | ⟨⟨rfl, hs0⟩, hbit⟩) | ⟨⟨rfl, hle⟩, hbit⟩)
      · exact .inl ⟨by omega, hbit⟩
      · exact .inr ⟨by omega, hbit⟩
      · refine .inl ⟨by omega, ?_⟩
        rwa [show n + k + 1 - k - 1 = n by omega]
      · refine .inr ⟨by omega, ?_⟩
        rwa [show n + k - k = n by omega]
    · rintro (⟨h, hbit⟩ | ⟨h, hbit⟩)
      · by_cases hlast : n + k + 1 = j
        · refine .inl (.inr ⟨⟨hlast, h.2.2⟩, ?_⟩)
          rwa [show n = j - k - 1 by omega]
        · exact .inl (.inl (.inl ⟨by omega, hbit⟩))
      · by_cases hlast : n + k = j
        · refine .inr ⟨⟨hlast, h.2.2⟩, ?_⟩
          rwa [show n = j - k by omega]
        · exact .inl (.inl (.inr ⟨by omega, hbit⟩))

/-- What a turn of `operator>>=` adds to bit `r` of word `j`. -/
theorem bitAt_shrTurn {pn : List UInt32} (hpn : pn.length = width) {i j r : ℕ} (hi : i < width) (hr : r < 32) :
    bitAt (shrTurn k s a pn i) j r
      = (bitAt pn j r || (decide (i = j + k + 1 ∧ s ≠ 0 ∧ 32 - s ≤ r) && bitAt a i (r - (32 - s))) ||
        (decide (i = j + k) && bitAt a i (s + r))) := by
  rw [shrTurn, bitAt_ite_orAt (by rw [length_ite_orAt, hpn]; omega), bitAt_ite_orAt (by rw [hpn]; omega),
    testBit_shiftRight _ hs]
  congr 2
  · by_cases hs0 : s = 0
    · rw [decide_eq_false (by omega), decide_eq_false (by omega), Bool.false_and, Bool.false_and]
    · rw [testBit_shiftLeft _ (by omega) hr, ← Bool.and_assoc, ← Bool.decide_and]
      congr 1
      rw [decide_eq_decide]
      omega
  · rw [decide_eq_decide]
    omega

theorem bitAt_shrLoop {n j r : ℕ} (hn : n ≤ width) (hj : j < width) (hr : r < 32) :
    bitAt ((List.range n).foldl (shrTurn k s a) (zero width).pn) j r
      = ((decide (j + k + 1 < n ∧ s ≠ 0 ∧ 32 - s ≤ r) && bitAt a (j + k + 1) (r - (32 - s))) ||
        (decide (j + k < n) && bitAt a (j + k) (s + r))) := by
  induction n with
  | zero =>
    have hzero : bitAt (zero width).pn j r = false := by
      rw [bitAt, zero, List.getD_replicate _ hj]
      exact Nat.zero_testBit r
    simp [hzero]
  | succ n ih =>
    have hlength : ((List.range n).foldl (shrTurn k s a) (zero width).pn).length = width := by
      rw [length_foldl (length_shrTurn _ _ _), (zero width).length_pn]
    rw [List.range_succ, List.foldl_append, List.foldl_cons, List.foldl_nil,
      bitAt_shrTurn hs hlength (by omega) hr, ih (by omega), Bool.eq_iff_iff]
    simp only [Bool.or_eq_true, Bool.and_eq_true, decide_eq_true_eq]
    constructor
    · rintro (((⟨h, hbit⟩ | ⟨h, hbit⟩) | ⟨⟨rfl, h⟩, hbit⟩) | ⟨rfl, hbit⟩)
      · exact .inl ⟨⟨by omega, h.2⟩, hbit⟩
      · exact .inr ⟨by omega, hbit⟩
      · exact .inl ⟨⟨by omega, h⟩, hbit⟩
      · exact .inr ⟨by omega, hbit⟩
    · rintro (⟨h, hbit⟩ | ⟨h, hbit⟩)
      · by_cases hlast : n = j + k + 1
        · exact .inl (.inr ⟨⟨hlast, h.2⟩, hlast ▸ hbit⟩)
        · exact .inl (.inl (.inl ⟨⟨by omega, h.2⟩, hbit⟩))
      · by_cases hlast : n = j + k
        · exact .inr ⟨hlast, hlast ▸ hbit⟩
        · exact .inl (.inl (.inr ⟨by omega, hbit⟩))

end

theorem toNat_shl (a : BaseUint width) (shift : ℕ) :
    (a.shl shift).toNat = a.toNat * 2 ^ shift % 2 ^ (32 * width) := by
  apply Nat.eq_of_testBit_eq
  intro m
  rw [Nat.testBit_mod_two_pow, Nat.testBit_mul_two_pow]
  by_cases hm : m < 32 * width
  · have hs : shift % 32 < 32 := Nat.mod_lt _ (by decide)
    have hr : m % 32 < 32 := Nat.mod_lt _ (by decide)
    rw [testBit_toNat]
    show bitAt ((List.range width).foldl _ _) _ _ = _
    rw [bitAt_shlLoop hs le_rfl (by omega) hr, testBit_toNat]
    by_cases hle : shift ≤ m
    · by_cases hsmall : shift % 32 ≤ m % 32
      · have hfirst : bitAt a.pn (m / 32 - shift / 32 - 1) (32 - shift % 32 + m % 32) = false :=
          testBit_of_32_le _ (by omega)
        rw [hfirst, show (m - shift) / 32 = m / 32 - shift / 32 by omega,
          show (m - shift) % 32 = m % 32 - shift % 32 by omega]
        simp only [Bool.and_false, Bool.false_or]
        rw [decide_eq_true (by omega), decide_eq_true hm, decide_eq_true hle]
        simp
      · rw [decide_eq_true (by omega), decide_eq_false (by omega), decide_eq_true hm, decide_eq_true hle,
          show (m - shift) / 32 = m / 32 - shift / 32 - 1 by omega,
          show (m - shift) % 32 = 32 - shift % 32 + m % 32 by omega]
        simp
    · rw [decide_eq_false hle, decide_eq_false (by omega), decide_eq_false (by omega)]
      simp
  · rw [testBit_of_width_le _ (not_lt.mp hm), decide_eq_false hm, Bool.false_and]

theorem toNat_shr (a : BaseUint width) (shift : ℕ) : (a.shr shift).toNat = a.toNat / 2 ^ shift := by
  apply Nat.eq_of_testBit_eq
  intro m
  rw [Nat.testBit_div_two_pow]
  have hs : shift % 32 < 32 := Nat.mod_lt _ (by decide)
  have hr : m % 32 < 32 := Nat.mod_lt _ (by decide)
  by_cases hm : m < 32 * width
  · rw [testBit_toNat]
    show bitAt ((List.range width).foldl _ _) _ _ = _
    rw [bitAt_shrLoop hs le_rfl (by omega) hr, testBit_toNat]
    by_cases hsmall : shift % 32 + m % 32 < 32
    · rw [decide_eq_false (by omega), Bool.false_and, Bool.false_or,
        show (m + shift) / 32 = m / 32 + shift / 32 by omega,
        show (m + shift) % 32 = shift % 32 + m % 32 by omega]
      by_cases hin : m / 32 + shift / 32 < width
      · rw [decide_eq_true hin, Bool.true_and]
      · rw [decide_eq_false hin, Bool.false_and, bitAt_of_length_le (by rw [a.length_pn]; omega)]
    · have hsecond : bitAt a.pn (m / 32 + shift / 32) (shift % 32 + m % 32) = false :=
        testBit_of_32_le _ (by omega)
      rw [hsecond, Bool.and_false, Bool.or_false,
        show (m + shift) / 32 = m / 32 + shift / 32 + 1 by omega,
        show (m + shift) % 32 = m % 32 - (32 - shift % 32) by omega]
      by_cases hin : m / 32 + shift / 32 + 1 < width
      · rw [decide_eq_true (by omega), Bool.true_and]
      · rw [decide_eq_false (by omega), Bool.false_and, bitAt_of_length_le (by rw [a.length_pn]; omega)]
  · rw [testBit_of_width_le _ (not_lt.mp hm), testBit_of_width_le _ (by omega)]

/-! ## Comparison, length and division -/

theorem compareLoop_eq {pn qn : List UInt32} (h : pn.length = qn.length) :
    compareLoop pn qn = if value 32 (nats pn) < value 32 (nats qn) then -1
      else if value 32 (nats qn) < value 32 (nats pn) then 1 else 0 := by
  induction pn generalizing qn with
  | nil =>
    obtain rfl := List.length_eq_zero_iff.mp h.symm
    rfl
  | cons p pn ih =>
    cases qn with
    | nil => cases h
    | cons q qn =>
      have hp := p.toNat_lt
      have hq := q.toNat_lt
      rw [compareLoop, ih (Nat.succ.inj h), nats_cons, nats_cons]
      simp only [value_cons_lt hp hq, value_cons_lt hq hp]
      rcases lt_trichotomy (value 32 (nats pn)) (value 32 (nats qn)) with hlt | heq | hgt
      · rw [if_pos hlt]
        show (-1 : ℤ) = _
        rw [if_pos (Or.inl hlt)]
      · simp only [heq, lt_irrefl, false_or, true_and, if_false]
        rfl
      · have hnot : ¬ value 32 (nats pn) < value 32 (nats qn) := lt_asymm hgt
        have hnot' : ¬ (value 32 (nats pn) < value 32 (nats qn) ∨
            value 32 (nats pn) = value 32 (nats qn) ∧ p.toNat < q.toNat) := by omega
        rw [if_neg hnot, if_pos hgt]
        show (1 : ℤ) = _
        rw [if_neg hnot', if_pos (Or.inl hgt)]

theorem compareTo_eq (a b : BaseUint width) :
    a.compareTo b = if a.toNat < b.toNat then -1 else if b.toNat < a.toNat then 1 else 0 :=
  compareLoop_eq (a.length_pn.trans b.length_pn.symm)

theorem compareTo_nonneg {a b : BaseUint width} : 0 ≤ a.compareTo b ↔ b.toNat ≤ a.toNat := by
  rw [compareTo_eq]
  split
  · next h => exact iff_of_false (by decide) (by omega)
  · next h => exact iff_of_true (by split <;> decide) (by omega)

theorem compareTo_pos {a b : BaseUint width} : 0 < a.compareTo b ↔ b.toNat < a.toNat := by
  rw [compareTo_eq]
  split
  · next h => exact iff_of_false (by decide) (by omega)
  · next h =>
    split
    · next h' => exact iff_of_true (by decide) h'
    · next h' => exact iff_of_false (by decide) h'

theorem topBit_eq (p : UInt32) (n : ℕ) (hn : n < 32) (hne : p ≠ 0) (hp : p.toNat < 2 ^ (n + 1)) :
    topBit p n = p.toNat.size := by
  have hpos : 0 < p.toNat := Nat.pos_of_ne_zero fun h => hne (UInt32.toNat_inj.mp h)
  induction n with
  | zero =>
    have hone : p.toNat = 1 := by omega
    rw [topBit, hone]
    rfl
  | succ n ih =>
    have hmask : (1 <<< UInt32.ofNat (n + 1) : UInt32).toNat = 2 ^ (n + 1) := by
      rw [UInt32.toNat_shiftLeft, UInt32.toNat_ofNat', Nat.mod_eq_of_lt (by omega : n + 1 < 2 ^ 32),
        Nat.mod_eq_of_lt hn]
      show 1 <<< (n + 1) % 2 ^ 32 = _
      rw [Nat.one_shiftLeft, Nat.mod_eq_of_lt (Nat.pow_lt_pow_right (by decide) hn)]
    have hbit : p &&& 1 <<< UInt32.ofNat (n + 1) ≠ 0 ↔ p.toNat.testBit (n + 1) = true := by
      have hzero : p.toNat &&& 2 ^ (n + 1) = 0 ↔ p.toNat.testBit (n + 1) = false := and_two_pow_eq_zero_iff
      rw [Ne, ← UInt32.toNat_inj, UInt32.toNat_and, hmask]
      show ¬ p.toNat &&& 2 ^ (n + 1) = 0 ↔ _
      rw [hzero, Bool.not_eq_false]
    rw [topBit]
    split
    · next h =>
      have hge := Nat.ge_two_pow_of_testBit (hbit.mp h)
      exact le_antisymm (Nat.lt_size.mpr hge) (Nat.size_le.mpr hp)
    · next h =>
      apply ih (by omega)
      by_contra hge
      apply h
      rw [hbit, Nat.testBit_eq_decide_div_mod_eq, decide_eq_true_eq]
      have hdiv : p.toNat / 2 ^ (n + 1) = 1 := by
        apply Nat.div_eq_of_lt_le
        · omega
        · rw [pow_succ _ (n + 1)] at hp
          omega
      rw [hdiv]

theorem bitsLoop_eq (pos : ℕ) (pn : List UInt32) :
    bitsLoop pos pn = if value 32 (nats pn) = 0 then 0 else 32 * pos + (value 32 (nats pn)).size := by
  induction pn generalizing pos with
  | nil => rfl
  | cons p pn ih =>
    have hp := p.toNat_lt
    rw [bitsLoop, ih, nats_cons, size_value_cons hp]
    by_cases hrest : value 32 (nats pn) = 0
    · rw [if_pos hrest, if_pos hrest, value_cons, hrest, Nat.mul_zero, Nat.add_zero]
      by_cases hzero : p = 0
      · subst hzero
        rfl
      · have hne : p.toNat ≠ 0 := fun h => hzero (UInt32.toNat_inj.mp h)
        rw [if_neg hne, ← topBit_eq p 31 (by decide) hzero hp]
        simp [hzero]
    · have hsize := Nat.size_pos.mpr (Nat.pos_of_ne_zero hrest)
      have hwhole : ¬ value 32 (p.toNat :: nats pn) = 0 := by
        rw [value_cons]
        omega
      rw [if_neg hrest, if_neg hrest, if_neg hwhole]
      split
      · next h => omega
      · omega

theorem bits_eq (a : BaseUint width) : a.bits = a.toNat.size := by
  rw [bits, bitsLoop_eq]
  split
  · next h =>
    have hzero : a.toNat = 0 := h
    rw [hzero, Nat.size_zero]
  · rw [Nat.mul_zero, Nat.zero_add]
    rfl

theorem testBit_one (r : ℕ) : (1 : UInt32).toNat.testBit r = decide (r = 0) := by
  have hbit := Nat.testBit_two_pow (n := 0) (m := r)
  rw [pow_zero] at hbit
  show Nat.testBit 1 r = _
  rw [hbit]
  exact decide_eq_decide.mpr eq_comm

/-- A bit of the quotient. -/
theorem toNat_setBit (a : BaseUint width) {shift : ℕ} (hshift : shift < 32 * width)
    (h : (orAt a.pn (shift / 32) (1 <<< UInt32.ofNat (shift % 32))).length = width) :
    (⟨orAt a.pn (shift / 32) (1 <<< UInt32.ofNat (shift % 32)), h⟩ : BaseUint width).toNat
      = a.toNat ||| 2 ^ shift := by
  apply Nat.eq_of_testBit_eq
  intro m
  have hs : shift % 32 < 32 := Nat.mod_lt _ (by decide)
  have hr : m % 32 < 32 := Nat.mod_lt _ (by decide)
  rw [testBit_toNat, Nat.testBit_or, Nat.testBit_two_pow, testBit_toNat,
    bitAt_orAt (by rw [a.length_pn]; omega), testBit_shiftLeft _ hs hr, testBit_one, ← Bool.decide_and,
    ← Bool.decide_and]
  congr 1
  rw [decide_eq_decide]
  omega

/-- The loop is that on numbers. -/
theorem toNat_divLoop (shift : ℕ) (hshift : shift ≤ 32 * width) (num div quotient : BaseUint width) :
    (divLoop shift num div quotient).toNat = ArithUint256.divLoop shift num.toNat div.toNat quotient.toNat := by
  induction shift generalizing num div quotient with
  | zero => rfl
  | succ shift ih =>
    have hhalf : (div.shr 1).toNat = div.toNat / 2 := by rw [toNat_shr, pow_one]
    rw [divLoop, ArithUint256.divLoop]
    by_cases hle : div.toNat ≤ num.toNat
    · rw [if_pos hle, if_pos (compareTo_nonneg.mpr hle), ih (by omega), toNat_sub_of_le hle, hhalf,
        toNat_setBit _ (by omega)]
    · rw [if_neg hle, if_neg (fun h => hle (compareTo_nonneg.mp h)), ih (by omega), hhalf]

theorem divide_toNat (num div : BaseUint width) :
    (num.divide div).map toNat = if div.toNat = 0 then none else some (num.toNat / div.toNat) := by
  by_cases hzero : div.toNat = 0
  · rw [divide, bits_eq, if_pos (by rw [hzero, Nat.size_zero]), if_pos hzero]
    rfl
  · have hpos := Nat.size_pos.mpr (Nat.pos_of_ne_zero hzero)
    have hnum : num.toNat.size ≤ 32 * width := Nat.size_le.mpr num.toNat_lt
    have hspec : ArithUint256.divide num.toNat div.toNat = some (num.toNat / div.toNat) :=
      ArithUint256.divide_eq (Nat.pos_of_ne_zero hzero)
    rw [if_neg hzero, ← hspec, divide, ArithUint256.divide, bits_eq, bits_eq, if_neg hpos.ne', if_neg hpos.ne']
    split
    · rw [Option.map_some, toNat_zero]
    · next hle =>
      have hshift : (div.shl (num.toNat.size - div.toNat.size)).toNat
          = div.toNat * 2 ^ (num.toNat.size - div.toNat.size) := by
        rw [toNat_shl]
        apply Nat.mod_eq_of_lt
        calc div.toNat * 2 ^ (num.toNat.size - div.toNat.size)
            < 2 ^ div.toNat.size * 2 ^ (num.toNat.size - div.toNat.size) :=
              Nat.mul_lt_mul_of_pos_right (Nat.lt_size_self _) (Nat.two_pow_pos _)
          _ = 2 ^ num.toNat.size := by
              rw [← pow_add]
              congr 1
              omega
          _ ≤ 2 ^ (32 * width) := Nat.pow_le_pow_right (by decide) hnum
      rw [Option.map_some, toNat_divLoop _ (by omega), hshift, toNat_zero]

/-! ## As bit vectors -/

def toBitVec (a : BaseUint width) : BitVec (32 * width) := BitVec.ofNat (32 * width) a.toNat

@[simp] theorem toNat_toBitVec (a : BaseUint width) : a.toBitVec.toNat = a.toNat := by
  rw [toBitVec, BitVec.toNat_ofNat, Nat.mod_eq_of_lt a.toNat_lt]

theorem value_nats_inj {pn qn : List UInt32} (hlength : pn.length = qn.length)
    (h : value 32 (nats pn) = value 32 (nats qn)) : pn = qn := by
  induction pn generalizing qn with
  | nil => exact (List.length_eq_zero_iff.mp hlength.symm).symm
  | cons p pn ih =>
    cases qn with
    | nil => cases hlength
    | cons q qn =>
      obtain ⟨hrest, hword⟩ := (value_cons_inj p.toNat_lt q.toNat_lt).mp h
      rw [ih (Nat.succ.inj hlength) hrest, UInt32.toNat_inj.mp hword]

theorem toBitVec_inj {a b : BaseUint width} : a.toBitVec = b.toBitVec ↔ a = b := by
  constructor
  · intro h
    have hnat := congrArg BitVec.toNat h
    rw [toNat_toBitVec, toNat_toBitVec] at hnat
    exact BaseUint.ext (value_nats_inj (a.length_pn.trans b.length_pn.symm) hnat)
  · rintro rfl
    rfl

theorem toBitVec_not (a : BaseUint width) : a.not.toBitVec = ~~~a.toBitVec := by
  have hsum := value_not a.pn
  rw [a.length_pn, ← pow_mul] at hsum
  have hnot : a.not.toNat + a.toNat + 1 = 2 ^ (32 * width) := hsum
  apply BitVec.eq_of_toNat_eq
  rw [BitVec.toNat_not, toNat_toBitVec, toNat_toBitVec]
  omega

theorem toBitVec_dec (a : BaseUint width) : a.dec.toBitVec = a.toBitVec - 1 := by
  have hpred := value_decLoop a.pn
  rw [a.length_pn, ← pow_mul] at hpred
  have hdec : (a.dec.toNat + 1) % 2 ^ (32 * width) = a.toNat := hpred
  have hone : a.dec.toBitVec + 1 = a.toBitVec := by
    rw [toBitVec, toBitVec, ← hdec]
    apply BitVec.eq_of_toNat_eq
    simp
  rw [← hone, BitVec.add_sub_cancel]

theorem testBit_zip {f : UInt32 → UInt32 → UInt32} {g : Bool → Bool → Bool} (hg : g false false = false)
    (hf : ∀ (p q : UInt32) (r : ℕ), (f p q).toNat.testBit r = g (p.toNat.testBit r) (q.toNat.testBit r))
    (a b : BaseUint width) (m : ℕ) :
    (zip f a b).toNat.testBit m = g (a.toNat.testBit m) (b.toNat.testBit m) := by
  by_cases hm : m < 32 * width
  · rw [testBit_toNat, testBit_toNat, testBit_toNat]
    show bitAt (List.zipWith f a.pn b.pn) _ _ = _
    rw [bitAt_zip f (a.length_pn.trans b.length_pn.symm) (by rw [a.length_pn]; omega), hf]
    rfl
  · rw [testBit_of_width_le _ (not_lt.mp hm), testBit_of_width_le _ (not_lt.mp hm),
      testBit_of_width_le _ (not_lt.mp hm), hg]

theorem toBitVec_and (a b : BaseUint width) : (a.and b).toBitVec = a.toBitVec &&& b.toBitVec := by
  apply BitVec.eq_of_toNat_eq
  rw [BitVec.toNat_and, toNat_toBitVec, toNat_toBitVec, toNat_toBitVec]
  apply Nat.eq_of_testBit_eq
  intro m
  rw [Nat.testBit_and]
  exact testBit_zip rfl (fun p q r => by rw [UInt32.toNat_and, Nat.testBit_and]) a b m

theorem toBitVec_or (a b : BaseUint width) : (a.or b).toBitVec = a.toBitVec ||| b.toBitVec := by
  apply BitVec.eq_of_toNat_eq
  rw [BitVec.toNat_or, toNat_toBitVec, toNat_toBitVec, toNat_toBitVec]
  apply Nat.eq_of_testBit_eq
  intro m
  rw [Nat.testBit_or]
  exact testBit_zip rfl (fun p q r => by rw [UInt32.toNat_or, Nat.testBit_or]) a b m

theorem toBitVec_xor (a b : BaseUint width) : (a.xor b).toBitVec = a.toBitVec ^^^ b.toBitVec := by
  apply BitVec.eq_of_toNat_eq
  rw [BitVec.toNat_xor, toNat_toBitVec, toNat_toBitVec, toNat_toBitVec]
  apply Nat.eq_of_testBit_eq
  intro m
  rw [Nat.testBit_xor]
  exact testBit_zip rfl (fun p q r => by rw [UInt32.toNat_xor, Nat.testBit_xor]) a b m

theorem toBitVec_add (a b : BaseUint width) : (a.add b).toBitVec = a.toBitVec + b.toBitVec := by
  apply BitVec.eq_of_toNat_eq
  rw [BitVec.toNat_add, toNat_toBitVec, toNat_toBitVec, toNat_toBitVec, toNat_add]

theorem toBitVec_sub (a b : BaseUint width) : (a.sub b).toBitVec = a.toBitVec - b.toBitVec := by
  apply BitVec.eq_of_toNat_eq
  rw [BitVec.toNat_sub, toNat_toBitVec, toNat_toBitVec, toNat_toBitVec, toNat_sub, Nat.add_comm]

theorem toBitVec_neg (a : BaseUint width) : a.neg.toBitVec = -a.toBitVec := by
  apply BitVec.eq_of_toNat_eq
  rw [BitVec.toNat_neg, toNat_toBitVec, toNat_toBitVec, toNat_neg]

theorem toBitVec_inc (a : BaseUint width) : a.inc.toBitVec = a.toBitVec + 1 := by
  apply BitVec.eq_of_toNat_eq
  rw [BitVec.toNat_add, toNat_toBitVec, toNat_toBitVec, toNat_inc]
  show _ = (a.toNat + 1 % 2 ^ (32 * width)) % 2 ^ (32 * width)
  rw [Nat.add_mod_mod]

theorem toBitVec_mul (a b : BaseUint width) : (a.mul b).toBitVec = a.toBitVec * b.toBitVec := by
  apply BitVec.eq_of_toNat_eq
  rw [BitVec.toNat_mul, toNat_toBitVec, toNat_toBitVec, toNat_toBitVec, toNat_mul]

theorem toBitVec_mulWord (a : BaseUint width) (b32 : UInt32) :
    (a.mulWord b32).toBitVec = a.toBitVec * BitVec.ofNat _ b32.toNat := by
  apply BitVec.eq_of_toNat_eq
  rw [BitVec.toNat_mul, toNat_toBitVec, toNat_toBitVec, toNat_mulWord, BitVec.toNat_ofNat, Nat.mul_mod_mod]

theorem toBitVec_shl (a : BaseUint width) (shift : ℕ) : (a.shl shift).toBitVec = a.toBitVec <<< shift := by
  apply BitVec.eq_of_toNat_eq
  rw [BitVec.toNat_shiftLeft, toNat_toBitVec, toNat_toBitVec, toNat_shl, Nat.shiftLeft_eq]

theorem toBitVec_shr (a : BaseUint width) (shift : ℕ) : (a.shr shift).toBitVec = a.toBitVec >>> shift := by
  apply BitVec.eq_of_toNat_eq
  rw [BitVec.toNat_ushiftRight, toNat_toBitVec, toNat_toBitVec, toNat_shr, Nat.shiftRight_eq_div_pow]

theorem toBitVec_eq_zero {a : BaseUint width} : a.toBitVec = 0 ↔ a.toNat = 0 := by
  rw [← BitVec.toNat_inj, toNat_toBitVec]
  show a.toNat = 0 % 2 ^ (32 * width) ↔ _
  rw [Nat.zero_mod]

theorem toBitVec_divide (a b : BaseUint width) :
    (a.divide b).map toBitVec = if b.toBitVec = 0 then none else some (a.toBitVec / b.toBitVec) := by
  have hmap : (a.divide b).map toBitVec = ((a.divide b).map toNat).map (BitVec.ofNat (32 * width)) := by
    rw [Option.map_map]
    rfl
  rw [hmap, divide_toNat]
  by_cases hzero : b.toNat = 0
  · rw [if_pos hzero, if_pos (toBitVec_eq_zero.mpr hzero), Option.map_none]
  · rw [if_neg hzero, if_neg (mt toBitVec_eq_zero.mp hzero), Option.map_some]
    congr 1
    apply BitVec.eq_of_toNat_eq
    rw [BitVec.toNat_udiv, toNat_toBitVec, toNat_toBitVec, BitVec.toNat_ofNat]
    exact Nat.mod_eq_of_lt (lt_of_le_of_lt (Nat.div_le_self _ _) a.toNat_lt)

theorem compareTo_neg {a b : BaseUint width} : a.compareTo b < 0 ↔ a.toBitVec < b.toBitVec := by
  rw [BitVec.lt_def, toNat_toBitVec, toNat_toBitVec, ← not_le, compareTo_nonneg, not_le]

theorem compareTo_eq_zero {a b : BaseUint width} : a.compareTo b = 0 ↔ a = b := by
  rw [← toBitVec_inj, ← BitVec.toNat_inj, toNat_toBitVec, toNat_toBitVec, compareTo_eq]
  split
  · next h => exact iff_of_false (by decide) h.ne
  · next h =>
    split
    · next h' => exact iff_of_false (by decide) h'.ne'
    · next h' => exact iff_of_true rfl (by omega)

/-- The operations on the limbs are those on bit vectors of their length. -/
theorem implements (a b : BaseUint width) (b32 : UInt32) (shift : ℕ) :
    (a.add b).toBitVec = a.toBitVec + b.toBitVec ∧ (a.sub b).toBitVec = a.toBitVec - b.toBitVec ∧
      a.neg.toBitVec = -a.toBitVec ∧ a.inc.toBitVec = a.toBitVec + 1 ∧ a.dec.toBitVec = a.toBitVec - 1 ∧
      (a.mul b).toBitVec = a.toBitVec * b.toBitVec ∧
      (a.mulWord b32).toBitVec = a.toBitVec * BitVec.ofNat _ b32.toNat ∧
      (a.divide b).map toBitVec = (if b.toBitVec = 0 then none else some (a.toBitVec / b.toBitVec)) ∧
      (a.shl shift).toBitVec = a.toBitVec <<< shift ∧ (a.shr shift).toBitVec = a.toBitVec >>> shift ∧
      a.not.toBitVec = ~~~a.toBitVec ∧ (a.and b).toBitVec = a.toBitVec &&& b.toBitVec ∧
      (a.or b).toBitVec = a.toBitVec ||| b.toBitVec ∧ (a.xor b).toBitVec = a.toBitVec ^^^ b.toBitVec ∧
      (a.compareTo b < 0 ↔ a.toBitVec < b.toBitVec) ∧ (a.compareTo b = 0 ↔ a.toBitVec = b.toBitVec) ∧
      (a.toBitVec = b.toBitVec ↔ a = b) ∧ a.bits = a.toBitVec.toNat.size := by
  have hcompare : a.compareTo b = 0 ↔ a.toBitVec = b.toBitVec := compareTo_eq_zero.trans toBitVec_inj.symm
  have hbits : a.bits = a.toBitVec.toNat.size := by rw [bits_eq, toNat_toBitVec]
  have hlogic : a.not.toBitVec = ~~~a.toBitVec ∧ (a.and b).toBitVec = a.toBitVec &&& b.toBitVec ∧
      (a.or b).toBitVec = a.toBitVec ||| b.toBitVec ∧ (a.xor b).toBitVec = a.toBitVec ^^^ b.toBitVec :=
    ⟨toBitVec_not a, toBitVec_and a b, toBitVec_or a b, toBitVec_xor a b⟩
  refine ⟨toBitVec_add a b, toBitVec_sub a b, toBitVec_neg a, toBitVec_inc a, toBitVec_dec a, toBitVec_mul a b,
    toBitVec_mulWord a b32, toBitVec_divide a b, toBitVec_shl a shift, toBitVec_shr a shift, hlogic.1, hlogic.2.1,
    hlogic.2.2.1, hlogic.2.2.2, compareTo_neg, hcompare, toBitVec_inj, hbits⟩

end BaseUint

end Dacrs
