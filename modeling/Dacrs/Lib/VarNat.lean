import Dacrs.Lib.Codec

/-!
# Base-128 numbers with one subtracted from all digits but the last

`IsVarNat` is a sequence that ends at its first byte without the continuation bit, and
`varNumber` the number it stands for, without a bound.  A reader of `w` bits gives that
number modulo `2 ^ w` (`readVarNatGo_code`), and a number has one sequence only
(`IsVarNat.eq_writeVarNat`).
-/

namespace Codec

/-- The digits with the continuation bit, least significant first. -/
def highNumber : Bytes → ℕ
  | [] => 0
  | b :: rest => b.toNat % 128 + 1 + 128 * highNumber rest

/-- "(a[len-1] & 0x7F) + sum(i=1..len-1, 128^i*((a[len-i-1] & 0x7F)+1))". -/
def varNumber (a : Bytes) : ℕ :=
  match a.reverse with
  | [] => 0
  | last :: high => last.toNat % 128 + 128 * highNumber high

/-- All but the last byte have bit 128 set. -/
def IsVarNat (a : Bytes) : Prop :=
  ∃ (high : Bytes) (last : UInt8),
    a = high ++ [last] ∧ (∀ b ∈ high, 128 ≤ b.toNat) ∧ last.toNat < 128

theorem varNumber_append (high : Bytes) (last : UInt8) :
    varNumber (high ++ [last]) = last.toNat % 128 + 128 * highNumber high.reverse := by
  unfold varNumber
  rw [List.reverse_append]
  rfl

theorem highNumber_append (high : Bytes) (b : UInt8) :
    highNumber (high ++ [b]) = highNumber high + 128 ^ high.length * (b.toNat % 128 + 1) := by
  induction high with
  | nil => simp [highNumber]
  | cons c high ih =>
    rw [List.cons_append, highNumber, ih, highNumber, List.length_cons, pow_succ]
    ring

/-! ## Reading -/

/-- The digits with the continuation bit go into the accumulator. -/
theorem readVarNatGo_high (w acc : ℕ) (high rest : Bytes) (hacc : acc < 2 ^ w)
    (h : ∀ b ∈ high, 128 ≤ b.toNat) : readVarNatGo w acc (high ++ rest)
      = readVarNatGo w ((128 ^ high.length * acc + highNumber high.reverse) % 2 ^ w) rest := by
  induction high generalizing acc with
  | nil => simp [highNumber, Nat.mod_eq_of_lt hacc]
  | cons b high ih =>
    have hb := h b List.mem_cons_self
    have hrest : ∀ c ∈ high, 128 ≤ c.toNat := by
      intro c hc
      exact h c (List.mem_cons_of_mem b hc)
    have hstep : readVarNatGo w acc (b :: (high ++ rest))
        = readVarNatGo w (((acc * 128 + b.toNat % 128) % 2 ^ w + 1) % 2 ^ w) (high ++ rest) :=
      if_neg (by omega)
    rw [List.cons_append, hstep, ih _ (Nat.mod_lt _ (Nat.two_pow_pos w)) hrest]
    apply congrArg fun n => readVarNatGo w n rest
    rw [List.reverse_cons, highNumber_append, List.length_reverse, List.length_cons, pow_succ]
    -- what the accumulator lost is a multiple of the modulus
    have hacc : ((acc * 128 + b.toNat % 128) % 2 ^ w + 1) % 2 ^ w
        ≡ acc * 128 + b.toNat % 128 + 1 [MOD 2 ^ w] :=
      ((Nat.mod_modEq _ _).trans ((Nat.mod_modEq _ _).add_right 1))
    have hmul := (hacc.mul_left (128 ^ high.length)).add_right (highNumber high.reverse)
    apply hmul.trans
    have heq : 128 ^ high.length * (acc * 128 + b.toNat % 128 + 1) + highNumber high.reverse
        = 128 ^ high.length * 128 * acc
          + (highNumber high.reverse + 128 ^ high.length * (b.toNat % 128 + 1)) := by ring
    rw [heq]

/-- A sequence is read as its number, modulo what the accumulator holds. -/
theorem readVarNatGo_code (w : ℕ) {a : Bytes} (h : IsVarNat a) (rest : Bytes) :
    readVarNatGo w 0 (a ++ rest) = some (varNumber a % 2 ^ w, rest) := by
  obtain ⟨high, last, rfl, hhigh, hlast⟩ := h
  rw [List.append_assoc, readVarNatGo_high w 0 high _ (Nat.two_pow_pos w) hhigh,
    List.singleton_append]
  unfold readVarNatGo
  dsimp only
  rw [if_pos hlast, varNumber_append, Nat.mul_zero, Nat.zero_add]
  congr 2
  have hmul := ((Nat.mod_modEq (highNumber high.reverse) (2 ^ w)).mul_right 128).add_right
    (last.toNat % 128)
  apply hmul.trans
  rw [Nat.add_comm, Nat.mul_comm]

/-- What a reader takes away is such a sequence. -/
theorem isVarNat_of_read (w : ℕ) (a rest : Bytes) (acc n : ℕ)
    (h : readVarNatGo w acc (a ++ rest) = some (n, rest)) : IsVarNat a := by
  induction a generalizing acc with
  | nil =>
    have hcount := (readVarNatGo_count w acc rest).2 n rest h
    omega
  | cons b a ih =>
    rw [List.cons_append] at h
    unfold readVarNatGo at h
    dsimp only at h
    by_cases hb : b.toNat < 128
    · rw [if_pos hb] at h
      have hrest : a ++ rest = rest := congrArg Prod.snd (Option.some.inj h)
      have ha : a = [] := List.append_left_eq_self.mp hrest
      subst ha
      exact ⟨[], b, rfl, by simp, hb⟩
    · rw [if_neg hb] at h
      obtain ⟨high, last, rfl, hhigh, hlast⟩ := ih _ h
      refine ⟨b :: high, last, rfl, ?_, hlast⟩
      intro c hc
      rcases List.mem_cons.mp hc with rfl | hc
      · omega
      · exact hhigh c hc

/-! ## One sequence for a number -/

theorem highNumber_inj {h₁ h₂ : Bytes} (hc₁ : ∀ b ∈ h₁, 128 ≤ b.toNat) (hc₂ : ∀ b ∈ h₂, 128 ≤ b.toNat)
    (h : highNumber h₁ = highNumber h₂) : h₁ = h₂ := by
  induction h₁ generalizing h₂ with
  | nil =>
    cases h₂ with
    | nil => rfl
    | cons c h₂ =>
      unfold highNumber at h
      omega
  | cons b h₁ ih =>
    cases h₂ with
    | nil =>
      unfold highNumber at h
      omega
    | cons c h₂ =>
      rw [highNumber, highNumber] at h
      have hb := hc₁ b List.mem_cons_self
      have hc := hc₂ c List.mem_cons_self
      have hblt := b.toNat_lt
      have hclt := c.toNat_lt
      have hbc : b = c := UInt8.toNat.inj (by omega)
      have htail : h₁ = h₂ := ih (fun d hd => hc₁ d (List.mem_cons_of_mem b hd))
        (fun d hd => hc₂ d (List.mem_cons_of_mem c hd)) (by omega)
      rw [hbc, htail]

theorem IsVarNat.ext {a b : Bytes} (ha : IsVarNat a) (hb : IsVarNat b)
    (h : varNumber a = varNumber b) : a = b := by
  obtain ⟨high, last, rfl, hhigh, hlast⟩ := ha
  obtain ⟨high', last', rfl, hhigh', hlast'⟩ := hb
  rw [varNumber_append, varNumber_append] at h
  have hl : last = last' := UInt8.toNat.inj (by omega)
  have hh : high.reverse = high'.reverse := by
    apply highNumber_inj
    · intro b hb
      exact hhigh b (List.mem_reverse.mp hb)
    · intro b hb
      exact hhigh' b (List.mem_reverse.mp hb)
    · omega
  rw [hl, List.reverse_injective hh]

/-- No sequence goes on where another one ends. -/
theorem IsVarNat.eq_of_append {a b t : Bytes} (ha : IsVarNat a) (hb : IsVarNat b)
    (h : b = a ++ t) : a = b := by
  have hread := readVarNatGo_code 0 hb []
  rw [List.append_nil, h, readVarNatGo_code 0 ha t] at hread
  have ht : t = [] := congrArg Prod.snd (Option.some.inj hread)
  rw [h, ht, List.append_nil]

/-! ## Writing -/

theorem isVarNat_varNatGo (n : ℕ) (tail : Bytes) (h : tail = [] ∨ IsVarNat tail) :
    IsVarNat (varNatGo n tail) := by
  induction n using Nat.strong_induction_on generalizing tail with
  | _ n ih =>
    have hcons : IsVarNat (UInt8.ofNat (if tail = [] then n % 128 else n % 128 + 128) :: tail) := by
      rcases h with rfl | ⟨high, last, rfl, hhigh, hlast⟩
      · refine ⟨[], _, rfl, by simp, ?_⟩
        rw [if_pos rfl, UInt8.toNat_ofNat']
        omega
      · refine ⟨_ :: high, last, rfl, ?_, hlast⟩
        intro b hb
        rcases List.mem_cons.mp hb with rfl | hb
        · rw [if_neg (by simp), UInt8.toNat_ofNat']
          omega
        · exact hhigh b hb
    rw [varNatGo]
    split
    · exact hcons
    · exact ih (n / 128 - 1) (by omega) _ (Or.inr hcons)

theorem isVarNat_writeVarNat (n : ℕ) : IsVarNat (writeVarNat n) :=
  isVarNat_varNatGo n [] (Or.inl rfl)

@[simp] theorem varNumber_writeVarNat (n : ℕ) : varNumber (writeVarNat n) = n := by
  -- an accumulator that both numbers fit
  set w := n + varNumber (writeVarNat n) + 1 with hw
  have hwide : ∀ m, m < w → m < 2 ^ w := by
    intro m hm
    exact lt_trans hm Nat.lt_two_pow_self
  have hread := readVarNatGo_code w (isVarNat_writeVarNat n) []
  have hback := (varNat w).read_write n [] (hwide n (by omega))
  have heq := Option.some.inj (hread.symm.trans hback)
  have hmod : varNumber (writeVarNat n) % 2 ^ w = n := congrArg Prod.fst heq
  rwa [Nat.mod_eq_of_lt (hwide _ (by omega))] at hmod

theorem IsVarNat.eq_writeVarNat {a : Bytes} (h : IsVarNat a) : a = writeVarNat (varNumber a) :=
  h.ext (isVarNat_writeVarNat _) (varNumber_writeVarNat _).symm

/-! ## Length -/

/-- A digit with the continuation bit counts at least one. -/
theorem pow_le_highNumber (high : Bytes) (b : UInt8) :
    128 ^ high.length ≤ highNumber (high ++ [b]) := by
  rw [highNumber_append]
  have hle := Nat.mul_le_mul_left (128 ^ high.length) (show 1 ≤ b.toNat % 128 + 1 by omega)
  omega

/-- A number of more than one byte reaches the value of its first digit. -/
theorem pow_le_varNumber {a : Bytes} (h : 1 < a.length) : 128 ^ (a.length - 1) ≤ varNumber a := by
  have hne : a ≠ [] := by
    intro hnil
    rw [hnil] at h
    simp at h
  obtain ⟨high, last, rfl⟩ := (List.eq_nil_or_concat' a).resolve_left hne
  cases high with
  | nil => simp at h
  | cons b high =>
    rw [varNumber_append, List.reverse_cons]
    have hle := pow_le_highNumber high.reverse b
    rw [List.length_reverse] at hle
    simp only [List.length_append, List.length_cons, List.length_nil]
    have hpow : 128 ^ (high.length + 1 + (0 + 1) - 1) = 128 * 128 ^ high.length := by
      rw [show high.length + 1 + (0 + 1) - 1 = high.length + 1 by omega, pow_succ, Nat.mul_comm]
    omega

/-- A number of `w` bits takes no more bytes than there are groups of seven bits. -/
theorem length_writeVarNat_le {n w : ℕ} (hw : 0 < w) (h : n < 2 ^ w) :
    (writeVarNat n).length ≤ (w + 6) / 7 := by
  by_contra hlong
  have hlen : 1 < (writeVarNat n).length := by omega
  have hle := pow_le_varNumber hlen
  rw [varNumber_writeVarNat] at hle
  have hpow : (2 : ℕ) ^ w ≤ 128 ^ ((writeVarNat n).length - 1) := by
    rw [show (128 : ℕ) = 2 ^ 7 by norm_num, ← pow_mul]
    apply Nat.pow_le_pow_right (by norm_num)
    omega
  omega

end Codec
