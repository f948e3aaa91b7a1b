import Mathlib.Data.Nat.Digits.Lemmas
import Mathlib.Data.Nat.Size
import Mathlib.Tactic

/-!
# Numbers in limbs

A list of limbs of `w` bits is a number, least significant limb first (`value`), and a number is cut into limbs
(`limbs`).  A loop that adds up a column for every limb and carries what does not fit into the next one is
`ripple`; its result is the sum of the columns modulo the size of the list.  Loops on the bits of the limbs are read off the bits of the number
(`testBit_value`).
-/

namespace Limbs

open Nat (ofDigits)

/-- The number of the limbs. -/
def value (w : ℕ) (l : List ℕ) : ℕ := ofDigits (2 ^ w) l

/-- The first limbs of a number. -/
def limbs (w : ℕ) : ℕ → ℕ → List ℕ
  | 0, _ => []
  | k + 1, n => n % 2 ^ w :: limbs w k (n / 2 ^ w)

/-- Every limb has `w` bits. -/
def Fits (w : ℕ) (l : List ℕ) : Prop := ∀ d ∈ l, d < 2 ^ w

/-- Sums of columns, with a carry. -/
def ripple (w : ℕ) : List ℕ → ℕ → List ℕ
  | [], _ => []
  | c :: cs, carry => (carry + c) % 2 ^ w :: ripple w cs ((carry + c) / 2 ^ w)

variable {w : ℕ} {d e n m : ℕ} {l l' : List ℕ}

@[simp] theorem value_nil : value w [] = 0 := rfl

@[simp] theorem value_cons : value w (d :: l) = d + 2 ^ w * value w l := Nat.ofDigits_cons

@[simp] theorem value_replicate (n : ℕ) : value w (List.replicate n 0) = 0 := by
  induction n with
  | zero => rfl
  | succ n ih => simp [List.replicate_succ, ih]

theorem value_add (h : l.length = l'.length) : value w (List.zipWith (· + ·) l l') = value w l + value w l' :=
  (Nat.ofDigits_add_ofDigits_eq_ofDigits_zipWith_of_length_eq h).symm

theorem value_mul (n : ℕ) (l : List ℕ) : value w (l.map (n * ·)) = n * value w l := (Nat.mul_ofDigits n).symm

theorem Fits.cons_iff : Fits w (d :: l) ↔ d < 2 ^ w ∧ Fits w l := List.forall_mem_cons

theorem Fits.value_lt (h : Fits w l) : value w l < (2 ^ w) ^ l.length := by
  induction l with
  | nil => simp
  | cons d l ih =>
    obtain ⟨hd, hl⟩ := Fits.cons_iff.mp h
    have hlt := ih hl
    rw [value_cons, List.length_cons, pow_succ']
    calc d + 2 ^ w * value w l < 2 ^ w * (value w l + 1) := by rw [Nat.mul_add, Nat.mul_one]; omega
      _ ≤ 2 ^ w * (2 ^ w) ^ l.length := Nat.mul_le_mul_left _ hlt

theorem Fits.value_take (h : Fits w l) (n : ℕ) : value w (l.take n) = value w l % (2 ^ w) ^ n := by
  induction n generalizing l with
  | zero => simp [Nat.mod_one]
  | succ n ih =>
    cases l with
    | nil => simp
    | cons d l =>
      obtain ⟨hd, hl⟩ := Fits.cons_iff.mp h
      have hpos : 0 < 2 ^ w := Nat.two_pow_pos w
      rw [List.take_succ_cons, value_cons, value_cons, ih hl, pow_succ', Nat.mod_mul,
        Nat.add_mul_mod_self_left, Nat.mod_eq_of_lt hd, Nat.add_mul_div_left _ _ hpos, Nat.div_eq_of_lt hd,
        Nat.zero_add]

@[simp] theorem length_limbs (k n : ℕ) : (limbs w k n).length = k := by
  induction k generalizing n with
  | zero => rfl
  | succ k ih => rw [limbs, List.length_cons, ih]

theorem value_limbs (k n : ℕ) : value w (limbs w k n) = n % (2 ^ w) ^ k := by
  induction k generalizing n with
  | zero => simp [limbs, Nat.mod_one]
  | succ k ih => rw [limbs, value_cons, ih, pow_succ', Nat.mod_mul]

/-! ## Columns -/

theorem Fits.ripple_zero (h : Fits w l) : ripple w l 0 = l := by
  induction l with
  | nil => rfl
  | cons d l ih =>
    obtain ⟨hd, hl⟩ := Fits.cons_iff.mp h
    rw [ripple, Nat.zero_add, Nat.mod_eq_of_lt hd, Nat.div_eq_of_lt hd, ih hl]

/-- What is carried out of the last limb is lost. -/
theorem value_ripple (cs : List ℕ) (carry : ℕ) :
    value w (ripple w cs carry) = (value w cs + carry) % (2 ^ w) ^ cs.length := by
  induction cs generalizing carry with
  | nil => simp [ripple, Nat.mod_one]
  | cons c cs ih =>
    have hpos : 0 < 2 ^ w := Nat.two_pow_pos w
    have hlow : (c + 2 ^ w * value w cs + carry) % 2 ^ w = (carry + c) % 2 ^ w := by
      rw [Nat.add_right_comm, Nat.add_mul_mod_self_left, Nat.add_comm]
    have hhigh : (c + 2 ^ w * value w cs + carry) / 2 ^ w = value w cs + (carry + c) / 2 ^ w := by
      rw [Nat.add_right_comm, Nat.add_mul_div_left _ _ hpos, Nat.add_comm c, Nat.add_comm]
    rw [ripple, value_cons, ih, value_cons, List.length_cons, pow_succ', Nat.mod_mul, hlow, hhigh]

/-! ## Order -/

theorem value_cons_lt (hd : d < 2 ^ w) (he : e < 2 ^ w) :
    value w (d :: l) < value w (e :: l') ↔ value w l < value w l' ∨ value w l = value w l' ∧ d < e := by
  rw [value_cons, value_cons]
  rcases lt_trichotomy (value w l) (value w l') with hlt | heq | hgt
  · have hstep : 2 ^ w * (value w l + 1) ≤ 2 ^ w * value w l' := Nat.mul_le_mul_left _ hlt
    rw [Nat.mul_add, Nat.mul_one] at hstep
    exact iff_of_true (by omega) (.inl hlt)
  · rw [heq]
    constructor
    · exact fun h => .inr ⟨rfl, by omega⟩
    · rintro (h | ⟨-, h⟩) <;> omega
  · have hstep : 2 ^ w * (value w l' + 1) ≤ 2 ^ w * value w l := Nat.mul_le_mul_left _ hgt
    rw [Nat.mul_add, Nat.mul_one] at hstep
    constructor
    · intro h
      omega
    · rintro (h | ⟨h, -⟩) <;> omega

theorem value_cons_inj (hd : d < 2 ^ w) (he : e < 2 ^ w) :
    value w (d :: l) = value w (e :: l') ↔ value w l = value w l' ∧ d = e := by
  constructor
  · intro h
    have hdiv := congrArg (· / 2 ^ w) h
    have hmod := congrArg (· % 2 ^ w) h
    have hpos : 0 < 2 ^ w := Nat.two_pow_pos w
    simp only [value_cons, Nat.add_mul_div_left _ _ hpos, Nat.add_mul_mod_self_left, Nat.div_eq_of_lt hd,
      Nat.div_eq_of_lt he, Nat.mod_eq_of_lt hd, Nat.mod_eq_of_lt he, Nat.zero_add] at hdiv hmod
    exact ⟨hdiv, hmod⟩
  · rintro ⟨hl, rfl⟩
    rw [value_cons, value_cons, hl]

/-! ## Bits -/

theorem size_value_cons (hd : d < 2 ^ w) :
    (value w (d :: l)).size = if value w l = 0 then d.size else w + (value w l).size := by
  rw [value_cons]
  split
  · next h => rw [h, Nat.mul_zero, Nat.add_zero]
  · next h =>
    have hsize := Nat.lt_size_self (value w l)
    have hlow : 2 ^ ((value w l).size - 1) ≤ value w l :=
      Nat.lt_size.mp (by have := Nat.size_pos.mpr (Nat.pos_of_ne_zero h); omega)
    apply le_antisymm
    · rw [Nat.size_le, pow_add]
      calc d + 2 ^ w * value w l < 2 ^ w * (value w l + 1) := by rw [Nat.mul_add, Nat.mul_one]; omega
        _ ≤ 2 ^ w * 2 ^ (value w l).size := Nat.mul_le_mul_left _ hsize
    · have hpos := Nat.size_pos.mpr (Nat.pos_of_ne_zero h)
      rw [show w + (value w l).size = w + ((value w l).size - 1) + 1 by omega, Nat.succ_le_iff, Nat.lt_size,
        pow_add]
      calc 2 ^ w * 2 ^ ((value w l).size - 1) ≤ 2 ^ w * value w l := Nat.mul_le_mul_left _ hlow
        _ ≤ d + 2 ^ w * value w l := Nat.le_add_left _ _

theorem and_two_pow_eq_zero_iff : n &&& 2 ^ m = 0 ↔ n.testBit m = false := by
  constructor
  · intro h
    have hbit := congrArg (Nat.testBit · m) h
    simpa [Nat.testBit_and, Nat.testBit_two_pow_self] using hbit
  · intro h
    apply Nat.eq_of_testBit_eq
    intro i
    rw [Nat.testBit_and, Nat.testBit_two_pow, Nat.zero_testBit]
    by_cases hi : m = i
    · rw [← hi, h, Bool.false_and]
    · rw [decide_eq_false hi, Bool.and_false]

/-- Bit `m` of the number is in limb `m / w`. -/
theorem Fits.testBit_value (hw : 0 < w) (h : Fits w l) (m : ℕ) :
    (value w l).testBit m = (l.getD (m / w) 0).testBit (m % w) := by
  induction l generalizing m with
  | nil => simp
  | cons d l ih =>
    obtain ⟨hd, hl⟩ := Fits.cons_iff.mp h
    rw [value_cons, Nat.add_comm, Nat.testBit_two_pow_mul_add _ hd]
    split
    · next hm => rw [Nat.div_eq_of_lt hm, Nat.mod_eq_of_lt hm, List.getD_cons_zero]
    · next hm =>
      have hle : w ≤ m := not_lt.mp hm
      have hdiv : m / w = (m - w) / w + 1 := Nat.div_eq_sub_div hw hle
      have hmod : (m - w) % w = m % w := (Nat.mod_eq_sub_mod hle).symm
      rw [ih hl, hdiv, List.getD_cons_succ, hmod]

end Limbs
