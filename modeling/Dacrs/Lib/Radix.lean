import Mathlib.Data.Nat.Digits.Lemmas
import Mathlib.Data.List.TakeWhile
import Mathlib.Order.Lattice

/-!
# Numbers in a buffer of digits

A buffer holds a number in base `base`, least significant digit first.  `mulAdd` is the
school multiplication by a small factor with a carry coming in, `convert` reads the digits of
another base into the buffer, and `strip` takes the leading zeroes off.  The digits of the
result are those of the number, as long as the number fits the buffer.
-/

namespace Radix

open Nat (ofDigits)

/-- "digits = digits * mul + carry". -/
def mulAdd (base mul : ℕ) : List ℕ → ℕ → List ℕ
  | [], _ => []
  | d :: rest, carry => (carry + mul * d) % base :: mulAdd base mul rest ((carry + mul * d) / base)

/-- What `mulAdd` carries out of the buffer. -/
def carryOut (base mul : ℕ) : List ℕ → ℕ → ℕ
  | [], carry => carry
  | d :: rest, carry => carryOut base mul rest ((carry + mul * d) / base)

/-- Reads the digits of base `mul`, most significant first, into the buffer. -/
def convert (base mul : ℕ) (buffer digits : List ℕ) : List ℕ :=
  digits.foldl (mulAdd base mul) buffer

/-- The digits from the first one other than 0 on, most significant first. -/
def strip (buffer : List ℕ) : List ℕ := buffer.reverse.dropWhile (· == 0)

/-! ## One turn -/

section Turn

variable {base : ℕ} (mul : ℕ) (buffer : List ℕ) (carry : ℕ)

@[simp] theorem length_mulAdd : (mulAdd base mul buffer carry).length = buffer.length := by
  induction buffer generalizing carry with
  | nil => rfl
  | cons d rest ih => simp [mulAdd, ih]

theorem mulAdd_lt (hbase : 0 < base) : ∀ d ∈ mulAdd base mul buffer carry, d < base := by
  induction buffer generalizing carry with
  | nil => simp [mulAdd]
  | cons d rest ih =>
    intro e he
    rcases List.mem_cons.mp he with rfl | he
    · exact Nat.mod_lt _ hbase
    · exact ih _ e he

theorem mulAdd_value : ofDigits base (mulAdd base mul buffer carry)
    + base ^ buffer.length * carryOut base mul buffer carry
      = mul * ofDigits base buffer + carry := by
  induction buffer generalizing carry with
  | nil => simp [mulAdd, carryOut]
  | cons d rest ih =>
    have hrest := ih ((carry + mul * d) / base)
    have hdm := Nat.mod_add_div (carry + mul * d) base
    simp only [mulAdd, carryOut, Nat.ofDigits_cons, List.length_cons, pow_succ]
    calc _ = (carry + mul * d) % base + base * (ofDigits base
              (mulAdd base mul rest ((carry + mul * d) / base))
            + base ^ rest.length * carryOut base mul rest ((carry + mul * d) / base)) := by ring
      _ = (carry + mul * d) % base + base * ((carry + mul * d) / base)
            + base * (mul * ofDigits base rest) := by rw [hrest]; ring
      _ = _ := by rw [hdm]; ring

/-- Nothing is carried out exactly when the new number fits. -/
theorem carryOut_eq_zero_iff (hbase : 1 < base) : carryOut base mul buffer carry = 0 ↔
    mul * ofDigits base buffer + carry < base ^ buffer.length := by
  have hval := @mulAdd_value base mul buffer carry
  have hlt : ofDigits base (mulAdd base mul buffer carry) < base ^ buffer.length := by
    have h := Nat.ofDigits_lt_base_pow_length hbase (mulAdd_lt mul buffer carry (by omega))
    simpa using h
  constructor
  · intro hzero
    rw [hzero] at hval
    omega
  · intro hfit
    by_contra hne
    have hle : base ^ buffer.length * 1 ≤ base ^ buffer.length * carryOut base mul buffer carry :=
      Nat.mul_le_mul_left _ (Nat.one_le_iff_ne_zero.mpr hne)
    omega

end Turn

/-! ## A whole number -/

section Convert

variable {base mul : ℕ}

/-- The number read before the digits to come is not more than that with them. -/
theorem le_append_value (digits rest : List ℕ) (hmul : 0 < mul) :
    ofDigits mul digits.reverse ≤ ofDigits mul (digits ++ rest).reverse := by
  rw [List.reverse_append, Nat.ofDigits_append]
  have hpos : 1 ≤ mul ^ rest.reverse.length := Nat.one_le_pow _ _ hmul
  have hle := Nat.mul_le_mul_right (ofDigits mul digits.reverse) hpos
  omega

@[simp] theorem length_convert (buffer digits : List ℕ) :
    (convert base mul buffer digits).length = buffer.length := by
  unfold convert
  induction digits generalizing buffer with
  | nil => rfl
  | cons d digits ih => rw [List.foldl_cons, ih, length_mulAdd]

theorem convert_append (buffer digits : List ℕ) (d : ℕ) :
    convert base mul buffer (digits ++ [d]) = mulAdd base mul (convert base mul buffer digits) d := by
  simp [convert]

theorem convert_lt (hbase : 0 < base) (buffer digits : List ℕ) (h : ∀ d ∈ buffer, d < base) :
    ∀ d ∈ convert base mul buffer digits, d < base := by
  induction digits using List.reverseRecOn with
  | nil => exact h
  | append_singleton digits d ih =>
    rw [convert_append]
    exact mulAdd_lt mul _ d hbase

theorem reverse_value (digits : List ℕ) (d : ℕ) :
    ofDigits mul (digits ++ [d]).reverse = mul * ofDigits mul digits.reverse + d := by
  rw [List.reverse_append, List.reverse_singleton, List.singleton_append, Nat.ofDigits_cons]
  exact Nat.add_comm _ _

/-- Digits whose number fits the buffer are read without a carry, and the buffer holds their
number. -/
theorem convert_value (hbase : 1 < base) (hmul : 0 < mul) (n : ℕ) (digits : List ℕ)
    (hfit : ofDigits mul digits.reverse < base ^ n) :
    ofDigits base (convert base mul (List.replicate n 0) digits) = ofDigits mul digits.reverse := by
  induction digits using List.reverseRecOn with
  | nil =>
    show ofDigits base (List.replicate n 0) = ofDigits mul []
    rw [Nat.ofDigits_replicate_zero, Nat.ofDigits_nil]
  | append_singleton digits d ih =>
    have hprev := ih (lt_of_le_of_lt (le_append_value digits [d] hmul) hfit)
    rw [convert_append]
    set buffer := convert base mul (List.replicate n 0) digits
    have hlen : buffer.length = n := by simp [buffer]
    rw [reverse_value, ← hprev] at hfit ⊢
    have hval := @mulAdd_value base mul buffer d
    have hout := (carryOut_eq_zero_iff mul buffer d hbase).mpr (by rw [hlen]; exact hfit)
    rw [hout] at hval
    omega

/-- The carry after a digit is 0. -/
theorem convert_carry (hbase : 1 < base) (hmul : 0 < mul) (n : ℕ) (digits : List ℕ) (d : ℕ)
    (hfit : ofDigits mul (digits ++ [d]).reverse < base ^ n) :
    carryOut base mul (convert base mul (List.replicate n 0) digits) d = 0 := by
  have hprev := convert_value hbase hmul n digits
    (lt_of_le_of_lt (le_append_value digits [d] hmul) hfit)
  apply (carryOut_eq_zero_iff mul _ d hbase).mpr
  rw [hprev, length_convert, List.length_replicate, ← reverse_value]
  exact hfit

end Convert

/-! ## Without leading zeroes -/

section Strip

variable {base : ℕ}

theorem strip_append_zero (buffer : List ℕ) : strip (buffer ++ [0]) = strip buffer := by
  simp [strip]

theorem strip_append (buffer : List ℕ) {d : ℕ} (h : d ≠ 0) :
    strip (buffer ++ [d]) = (buffer ++ [d]).reverse := by
  simp [strip, h]

/-- What is left are the digits of the number. -/
theorem strip_eq (hbase : 1 < base) (buffer : List ℕ) (h : ∀ d ∈ buffer, d < base) :
    strip buffer = (Nat.digits base (ofDigits base buffer)).reverse := by
  induction buffer using List.reverseRecOn with
  | nil => simp [strip]
  | append_singleton buffer d ih =>
    have hbuffer : ∀ e ∈ buffer, e < base := by
      intro e he
      exact h e (List.mem_append_left _ he)
    by_cases hd : d = 0
    · subst hd
      have hval : ofDigits base (buffer ++ [0]) = ofDigits base buffer := by
        rw [Nat.ofDigits_append, Nat.ofDigits_singleton]
        omega
      rw [strip_append_zero, hval, ih hbuffer]
    · rw [strip_append buffer hd, Nat.digits_ofDigits base hbase _ h]
      intro hne
      simpa using hd

/-- Digits without a leading zero are those of their number. -/
theorem digits_of_head (hbase : 1 < base) (digits : List ℕ) (h : ∀ d ∈ digits, d < base)
    (hhead : digits.head? ≠ some 0) :
    (Nat.digits base (ofDigits base digits.reverse)).reverse = digits := by
  rw [Nat.digits_ofDigits base hbase, List.reverse_reverse]
  · intro d hd
    exact h d (List.mem_reverse.mp hd)
  · intro hne hzero
    apply hhead
    rw [List.getLast_reverse] at hzero
    rw [List.head?_eq_some_head (by simpa using hne), hzero]

/-- The digits of a number have no leading zero. -/
theorem head?_digits (v : ℕ) :
    (Nat.digits base v).reverse.head? ≠ some 0 := by
  intro hzero
  rw [List.head?_reverse] at hzero
  have hne : Nat.digits base v ≠ [] := by
    intro hnil
    rw [hnil] at hzero
    cases hzero
  rw [List.getLast?_eq_some_getLast hne, Option.some_inj] at hzero
  have hv : v ≠ 0 := Nat.digits_ne_nil_iff_ne_zero.mp hne
  exact Nat.getLast_digit_ne_zero base hv hzero

/-- Converted and stripped: the digits of the same number in the other base. -/
theorem strip_convert (hbase : 1 < base) {mul : ℕ} (hmul : 0 < mul) (n : ℕ) (digits : List ℕ)
    (hfit : ofDigits mul digits.reverse < base ^ n) :
    strip (convert base mul (List.replicate n 0) digits)
      = (Nat.digits base (ofDigits mul digits.reverse)).reverse := by
  have hlt : ∀ d ∈ convert base mul (List.replicate n 0) digits, d < base := by
    apply convert_lt (by omega)
    intro d hd
    rw [List.eq_of_mem_replicate hd]
    omega
  rw [strip_eq hbase _ hlt, convert_value hbase hmul n digits hfit]

end Strip

end Radix
