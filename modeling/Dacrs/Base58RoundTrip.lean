import Dacrs.Base58
import Dacrs.Lib.Radix
import Mathlib.Data.List.DropRight

/-!
# Base 58 both ways

Bytes and base 58 characters are two digit lists of one number, with the leading zeroes kept
aside as `'1'` characters.  `decodeBase58_word` and `encodeBase58_word` say so of the two
functions; the round trips follow because the digits of a number are unique.  The second part
has the two functions with their `assert(carry == 0)`, which never aborts.
-/

open Codec (Bytes)
open Nat (ofDigits)

namespace Dacrs

/-! ## The alphabet -/

/-- `g_pstaBase58[d]`. -/
def base58Char (d : ℕ) : UInt8 := g_pstaBase58.getD d 0

theorem idxOf?_base58Char : ∀ d, d < 58 → g_pstaBase58.idxOf? (base58Char d) = some d := by
  decide +kernel

theorem isspace_base58Char : ∀ d, d < 58 → isspace (base58Char d).toNat = false := by decide +kernel

theorem base58Char_eq_one : ∀ d, d < 58 → base58Char d = 49 → d = 0 := by decide +kernel

theorem idxOf?_base58 {c : UInt8} {d : ℕ} (h : g_pstaBase58.idxOf? c = some d) :
    d < 58 ∧ base58Char d = c := by
  rw [List.idxOf?, List.findIdx?_eq_some_iff_getElem] at h
  obtain ⟨hd, heq, -⟩ := h
  refine ⟨hd, ?_⟩
  unfold base58Char
  rw [List.getD_eq_getElem?_getD, List.getElem?_eq_getElem hd]
  exact beq_iff_eq.mp heq

/-- The digits that characters stand for; `none` when one is outside the alphabet. -/
def base58Digits (chars : Bytes) : Option (List ℕ) := chars.mapM fun c => g_pstaBase58.idxOf? c

theorem base58Digits_map {digits : List ℕ} (h : ∀ d ∈ digits, d < 58) :
    base58Digits (digits.map base58Char) = some digits := by
  unfold base58Digits
  induction digits with
  | nil => rfl
  | cons d digits ih =>
    have hd := idxOf?_base58Char d (h d List.mem_cons_self)
    have hrest := ih fun e he => h e (List.mem_cons_of_mem d he)
    rw [List.map_cons, List.mapM_cons, hd, hrest]
    rfl

theorem base58Digits_spec {chars : Bytes} {digits : List ℕ} (h : base58Digits chars = some digits) :
    digits.map base58Char = chars ∧ ∀ d ∈ digits, d < 58 := by
  unfold base58Digits at h
  induction chars generalizing digits with
  | nil =>
    cases h
    simp
  | cons c chars ih =>
    rw [List.mapM_cons] at h
    obtain ⟨d, hd, h⟩ := Option.bind_eq_some_iff.mp h
    obtain ⟨rest, hrest, h⟩ := Option.bind_eq_some_iff.mp h
    cases h
    obtain ⟨hlt, hchar⟩ := idxOf?_base58 hd
    obtain ⟨hmap, hall⟩ := ih hrest
    refine ⟨by rw [List.map_cons, hchar, hmap], ?_⟩
    intro e he
    rcases List.mem_cons.mp he with rfl | he
    · exact hlt
    · exact hall e he

/-! ## The loops as conversions between the bases -/

theorem mulAdd58_eq (b256 : List UInt8) (carry : ℕ) :
    (mulAdd58 b256 carry).1.map UInt8.toNat = Radix.mulAdd 256 58 (b256.map UInt8.toNat) carry := by
  induction b256 generalizing carry with
  | nil => rfl
  | cons b rest ih => simp [mulAdd58, Radix.mulAdd, ih]

theorem mulAdd256_eq (b58 : List UInt8) (carry : ℕ) :
    (mulAdd256 b58 carry).map UInt8.toNat = Radix.mulAdd 58 256 (b58.map UInt8.toNat) carry := by
  induction b58 generalizing carry with
  | nil => rfl
  | cons d rest ih =>
    have hlt : (carry + 256 * d.toNat) % 58 < 58 := Nat.mod_lt _ (by norm_num)
    simp only [mulAdd256, Radix.mulAdd, List.map_cons, ih, UInt8.toNat_ofNat']
    rw [Nat.mod_eq_of_lt (by omega)]

theorem foldl_mulAdd58_eq (digits : List ℕ) (b256 : List UInt8) :
    (digits.foldl (fun b256 ch => (mulAdd58 b256 ch).1) b256).map UInt8.toNat
      = Radix.convert 256 58 (b256.map UInt8.toNat) digits := by
  induction digits generalizing b256 with
  | nil => rfl
  | cons d digits ih =>
    rw [List.foldl_cons, ih, mulAdd58_eq]
    rfl

theorem foldl_mulAdd256_eq (vch : Bytes) (b58 : List UInt8) :
    (vch.foldl (fun b58 ch => mulAdd256 b58 ch.toNat) b58).map UInt8.toNat
      = Radix.convert 58 256 (b58.map UInt8.toNat) (vch.map UInt8.toNat) := by
  induction vch generalizing b58 with
  | nil => rfl
  | cons ch vch ih =>
    rw [List.foldl_cons, ih, mulAdd256_eq]
    rfl

/-- Skipping the leading zeroes of a buffer of bytes. -/
theorem dropWhile_eq_strip (buffer : List UInt8) :
    (buffer.reverse.dropWhile (· == 0)).map UInt8.toNat = Radix.strip (buffer.map UInt8.toNat) := by
  unfold Radix.strip
  rw [← List.map_reverse, List.dropWhile_map]
  congr 2
  funext b
  show (b == 0) = (b.toNat == 0)
  rw [Bool.eq_iff_iff, beq_iff_eq, beq_iff_eq]
  exact UInt8.toNat_inj.symm

/-- The loop reads the characters up to the first space. -/
theorem decodeChars_eq (b256 : List UInt8) (psz : Bytes) : decodeChars b256 psz
    = (base58Digits (psz.takeWhile fun c => !isspace c.toNat)).map fun digits =>
      (digits.foldl (fun b256 ch => (mulAdd58 b256 ch).1) b256, psz.dropWhile fun c => !isspace c.toNat) := by
  induction psz generalizing b256 with
  | nil => rfl
  | cons c psz ih =>
    unfold decodeChars
    cases hspace : isspace c.toNat with
    | true => simp [base58Digits, hspace]
    | false =>
      rw [if_neg Bool.false_ne_true]
      cases hidx : g_pstaBase58.idxOf? c with
      | none => simp [base58Digits, hspace, hidx]
      | some ch =>
        show decodeChars (mulAdd58 b256 ch).1 psz = _
        rw [ih]
        unfold base58Digits
        cases hrest : (psz.takeWhile fun c => !isspace c.toNat).mapM fun c => g_pstaBase58.idxOf? c with
        | none => simp [hspace, hidx, hrest]
        | some digits => simp [hspace, hidx, hrest]

/-! ## What the two functions compute -/

/-- Bytes of a number, most significant first. -/
def bytesOf (v : ℕ) : Bytes := (Nat.digits 256 v).reverse.map UInt8.ofNat

/-- Characters of a number, most significant first. -/
def base58Of (v : ℕ) : Bytes := (Nat.digits 58 v).reverse.map base58Char

theorem toNat_bytesOf (v : ℕ) : (bytesOf v).map UInt8.toNat = (Nat.digits 256 v).reverse := by
  unfold bytesOf
  rw [List.map_map]
  calc _ = (Nat.digits 256 v).reverse.map id := by
        apply List.map_congr_left
        intro d hd
        have hlt := Nat.digits_lt_base (by norm_num : 1 < 256) (List.mem_reverse.mp hd)
        show (UInt8.ofNat d).toNat = d
        rw [UInt8.toNat_ofNat']
        exact Nat.mod_eq_of_lt hlt
    _ = _ := List.map_id _

theorem toNat_inj_list {l₁ l₂ : List UInt8} (h : l₁.map UInt8.toNat = l₂.map UInt8.toNat) :
    l₁ = l₂ :=
  List.map_injective_iff.mpr (fun _ _ hab => UInt8.toNat.inj hab) h

theorem bytesOf_head (v : ℕ) : (bytesOf v).head? ≠ some 0 := by
  intro hzero
  apply @Radix.head?_digits 256 v
  rw [← toNat_bytesOf, List.head?_map, hzero]
  rfl

/-- Bytes without a leading zero are those of their number. -/
theorem bytesOf_value {bs : Bytes} (h : bs.head? ≠ some 0) :
    bytesOf (ofDigits 256 (bs.map UInt8.toNat).reverse) = bs := by
  apply toNat_inj_list
  rw [toNat_bytesOf]
  apply Radix.digits_of_head (by norm_num)
  · intro d hd
    obtain ⟨b, -, rfl⟩ := List.mem_map.mp hd
    exact b.toNat_lt
  · intro hzero
    rw [List.head?_map] at hzero
    obtain ⟨b, hb, hb0⟩ := Option.map_eq_some_iff.mp hzero
    have hbyte : b = 0 := UInt8.toNat.inj hb0
    rw [hbyte] at hb
    exact h hb

/-- What is skipped in front of a word without it. -/
theorem takeWhile_replicate_append {c : UInt8} (k : ℕ) {w : Bytes} (h : w.head? ≠ some c) :
    (List.replicate k c ++ w).takeWhile (· == c) = List.replicate k c := by
  rw [List.takeWhile_append_of_pos]
  · cases w with
    | nil => simp
    | cons b w =>
      have hb : (b == c) = false := by
        apply Bool.eq_false_iff.mpr
        intro heq
        exact h (congrArg some (beq_iff_eq.mp heq))
      rw [List.takeWhile_cons, if_neg (Bool.eq_false_iff.mp hb), List.append_nil]
  · intro b hb
    rw [List.eq_of_mem_replicate hb]
    exact BEq.rfl

/-- The number of the bytes fits the buffer of `EncodeBase58`. -/
theorem bytes_fit (bs : Bytes) :
    ofDigits 256 (bs.map UInt8.toNat).reverse < 58 ^ (bs.length * 138 / 100 + 1) := by
  have hlt : ofDigits 256 (bs.map UInt8.toNat).reverse < 256 ^ (bs.map UInt8.toNat).reverse.length := by
    apply Nat.ofDigits_lt_base_pow_length (by norm_num)
    intro d hd
    obtain ⟨b, -, rfl⟩ := List.mem_map.mp (List.mem_reverse.mp hd)
    exact b.toNat_lt
  rw [List.length_reverse, List.length_map] at hlt
  exact lt_of_lt_of_le hlt (pow256_le_digits bs.length)

/-- Zeroes in front, then bytes that start with another one: `'1'`s, then the digits. -/
theorem encodeBase58_word (k : ℕ) {bs : Bytes} (h : bs.head? ≠ some 0) :
    encodeBase58 (List.replicate k 0 ++ bs)
      = List.replicate k 49 ++ base58Of (ofDigits 256 (bs.map UInt8.toNat).reverse) := by
  unfold encodeBase58
  dsimp only
  rw [takeWhile_replicate_append k h, List.length_replicate]
  have hdrop : (List.replicate k 0 ++ bs).drop k = bs := by
    rw [List.drop_append_of_le_length (by simp), List.drop_of_length_le (by simp)]
    rfl
  rw [hdrop]
  congr 1
  have hdigits := Radix.strip_convert (by norm_num : 1 < 58) (by norm_num : 0 < 256) _ _
    (bytes_fit bs)
  unfold base58Of
  rw [← hdigits]
  have hzero : List.replicate (bs.length * 138 / 100 + 1) 0
      = (List.replicate (bs.length * 138 / 100 + 1) (0 : UInt8)).map UInt8.toNat := by simp
  rw [hzero, ← foldl_mulAdd256_eq, ← dropWhile_eq_strip, List.map_map]
  rfl

/-- The first character of a word is not the one that stands for a leading zero. -/
theorem word_head {digits : List ℕ} {back : Bytes} (hback : ∀ c ∈ back, isspace c.toNat)
    (hdigits : ∀ d ∈ digits, d < 58) (hhead : digits.head? ≠ some 0) :
    (digits.map base58Char ++ back).head? ≠ some 49 := by
  intro hone
  cases digits with
  | nil =>
    rw [List.map_nil, List.nil_append] at hone
    have hspace := hback 49 (List.mem_of_mem_head? hone)
    exact absurd hspace (by decide)
  | cons d digits =>
    rw [List.map_cons, List.cons_append, List.head?_cons, Option.some_inj] at hone
    have hd := base58Char_eq_one d (hdigits d List.mem_cons_self) hone
    exact hhead (by rw [List.head?_cons, hd])

theorem drop_replicate_append (c : UInt8) (k : ℕ) (w : Bytes) :
    (List.replicate k c ++ w).drop k = w := by
  rw [List.drop_append_of_le_length (by simp), List.drop_of_length_le (by simp)]
  rfl

/-- A word of digits is never interrupted by a space. -/
theorem takeWhile_word {digits : List ℕ} {back : Bytes} (hback : ∀ c ∈ back, isspace c.toNat)
    (hdigits : ∀ d ∈ digits, d < 58) :
    (digits.map base58Char ++ back).takeWhile (fun c => !isspace c.toNat) = digits.map base58Char ∧
    (digits.map base58Char ++ back).dropWhile (fun c => !isspace c.toNat) = back := by
  have hword : ∀ c ∈ digits.map base58Char, (!isspace c.toNat) = true := by
    intro c hc
    obtain ⟨d, hd, rfl⟩ := List.mem_map.mp hc
    rw [isspace_base58Char d (hdigits d hd)]
    rfl
  have hstop : back.takeWhile (fun c => !isspace c.toNat) = [] ∧
      back.dropWhile (fun c => !isspace c.toNat) = back := by
    cases back with
    | nil => exact ⟨rfl, rfl⟩
    | cons c back =>
      have hc := hback c List.mem_cons_self
      simp [hc]
  rw [List.takeWhile_append_of_pos hword, List.dropWhile_append_of_pos hword, hstop.1, hstop.2]
  exact ⟨List.append_nil _, rfl⟩

/-- Behind the leading spaces: `'1'`s, a word of digits that starts with another one, and
trailing spaces. -/
theorem decodeBase58_of_word {psz back : Bytes} {k : ℕ} {digits : List ℕ}
    (hpsz : psz.dropWhile (isspace ·.toNat) = List.replicate k 49 ++ (digits.map base58Char ++ back))
    (hback : ∀ c ∈ back, isspace c.toNat) (hdigits : ∀ d ∈ digits, d < 58)
    (hhead : digits.head? ≠ some 0) :
    decodeBase58 psz = some (List.replicate k 0 ++ bytesOf (ofDigits 58 digits.reverse)) := by
  have hspaces : back.dropWhile (isspace ·.toNat) = [] := List.dropWhile_eq_nil_iff.mpr hback
  have hfit : ofDigits 58 digits.reverse
      < 256 ^ bufferSize (digits.map base58Char ++ back).length := by
    have hlt : ofDigits 58 digits.reverse < 58 ^ digits.reverse.length := by
      apply Nat.ofDigits_lt_base_pow_length (by norm_num)
      intro d hd
      exact hdigits d (List.mem_reverse.mp hd)
    calc ofDigits 58 digits.reverse < 58 ^ digits.reverse.length := hlt
      _ ≤ 58 ^ (digits.map base58Char ++ back).length := by
        apply Nat.pow_le_pow_right (by norm_num)
        simp
      _ < _ := pow58_lt_bufferSize _
  unfold decodeBase58
  dsimp only
  rw [hpsz, takeWhile_replicate_append k (word_head hback hdigits hhead), List.length_replicate,
    drop_replicate_append, decodeChars_eq, (takeWhile_word hback hdigits).1,
    (takeWhile_word hback hdigits).2, base58Digits_map hdigits]
  show (if (back.dropWhile (isspace ·.toNat)).isEmpty then _ else none) = _
  rw [hspaces, if_pos List.isEmpty_nil]
  show some _ = some _
  congr 2
  apply toNat_inj_list
  rw [dropWhile_eq_strip, foldl_mulAdd58_eq, List.map_replicate, toNat_bytesOf]
  exact Radix.strip_convert (by norm_num) (by norm_num) _ _ hfit

/-- An accepted string has that form. -/
theorem word_of_decodeBase58 {psz vch : Bytes} (h : decodeBase58 psz = some vch) :
    ∃ (back : Bytes) (k : ℕ) (digits : List ℕ),
      psz.dropWhile (isspace ·.toNat) = List.replicate k 49 ++ (digits.map base58Char ++ back) ∧
      (∀ c ∈ back, isspace c.toNat) ∧ (∀ d ∈ digits, d < 58) ∧ digits.head? ≠ some 0 := by
  unfold decodeBase58 at h
  dsimp only at h
  set word := psz.dropWhile (isspace ·.toNat) with hword
  set k := (word.takeWhile (· == 49)).length with hk
  have hdrop : word.drop k = word.dropWhile (· == 49) := by
    calc word.drop k = (word.takeWhile (· == 49) ++ word.dropWhile (· == 49)).drop k := by
          rw [List.takeWhile_append_dropWhile]
      _ = _ := List.drop_left' rfl
  obtain ⟨⟨b256, back⟩, hchars, h⟩ := Option.bind_eq_some_iff.mp h
  rw [decodeChars_eq] at hchars
  obtain ⟨digits, hdigits, heq⟩ := Option.map_eq_some_iff.mp hchars
  have hback : (word.drop k).dropWhile (fun c => !isspace c.toNat) = back := congrArg Prod.snd heq
  obtain ⟨hmap, hlt⟩ := base58Digits_spec hdigits
  have hsplit : word.drop k = digits.map base58Char ++ back := by
    rw [hmap, ← hback]
    exact List.takeWhile_append_dropWhile.symm
  have hones : word.takeWhile (· == 49) = List.replicate k 49 := by
    apply List.eq_replicate_iff.mpr
    refine ⟨rfl, ?_⟩
    intro c hc
    have hone := List.mem_takeWhile_imp hc
    exact beq_iff_eq.mp hone
  refine ⟨back, k, digits, ?_, ?_, hlt, ?_⟩
  · rw [← hsplit, hdrop, ← hones]
    exact List.takeWhile_append_dropWhile.symm
  · have hempty : (back.dropWhile (isspace ·.toNat)).isEmpty = true := by
      by_contra hne
      simp [hne] at h
    exact List.dropWhile_eq_nil_iff.mp (List.isEmpty_iff.mp hempty)
  · intro hzero
    have hfirst : (word.dropWhile (· == 49)).head? = some 49 := by
      rw [← hdrop, hsplit]
      cases digits with
      | nil => cases hzero
      | cons d digits =>
        cases hzero
        rfl
    have hnot := List.head?_dropWhile_not (· == 49) word
    rw [hfirst] at hnot
    simp at hnot

/-! ## The assertions -/

/-- How a run ends whose `assert(carry == 0)` fails. -/
inductive Aborted where
  | carry
  deriving DecidableEq, Repr

/-- `decodeChars` with the assertion after each character. -/
def decodeCharsAsserted (b256 : List UInt8) : Bytes → Except Aborted (Option (List UInt8 × Bytes))
  | [] => .ok (some (b256, []))
  | c :: psz =>
    if isspace c.toNat then .ok (some (b256, c :: psz))
    else match g_pstaBase58.idxOf? c with
      | none => .ok none
      | some ch =>
        if (mulAdd58 b256 ch).2 = 0 then decodeCharsAsserted (mulAdd58 b256 ch).1 psz
        else .error .carry

/-- `DecodeBase58` with its assertions. -/
def decodeBase58Asserted (psz : Bytes) : Except Aborted (Option Bytes) := do
  let psz := psz.dropWhile (isspace ·.toNat)
  let nZeroes := (psz.takeWhile (· == 49)).length
  let psz := psz.drop nZeroes
  match ← decodeCharsAsserted (List.replicate (bufferSize psz.length) 0) psz with
  | none => return none
  | some (b256, rest) =>
    if (rest.dropWhile (isspace ·.toNat)).isEmpty then
      return some (List.replicate nZeroes 0 ++ b256.reverse.dropWhile (· == 0))
    else return none

/-- The carry that "b58 = b58 * 256 + ch" ends with. -/
def carry256 : List UInt8 → Nat → Nat
  | [], carry => carry
  | d :: rest, carry => carry256 rest ((carry + 256 * d.toNat) / 58)

/-- One byte of `EncodeBase58`, with the assertion after it. -/
def mulAdd256Asserted (b58 : List UInt8) (ch : UInt8) : Except Aborted (List UInt8) :=
  if carry256 b58 ch.toNat = 0 then .ok (mulAdd256 b58 ch.toNat) else .error .carry

/-- `EncodeBase58` with its assertions. -/
def encodeBase58Asserted (vch : Bytes) : Except Aborted Bytes := do
  let nZeroes := (vch.takeWhile (· == 0)).length
  let vch := vch.drop nZeroes
  let b58 ← vch.foldlM mulAdd256Asserted (List.replicate (vch.length * 138 / 100 + 1) 0)
  return List.replicate nZeroes 49
    ++ (b58.reverse.dropWhile (· == 0)).map fun d => g_pstaBase58.getD d.toNat 0

theorem carry256_eq (b58 : List UInt8) (carry : ℕ) :
    carry256 b58 carry = Radix.carryOut 58 256 (b58.map UInt8.toNat) carry := by
  induction b58 generalizing carry with
  | nil => rfl
  | cons d rest ih =>
    rw [List.map_cons]
    exact ih _

theorem decodeCharsAsserted_eq (b256 : List UInt8) (psz : Bytes)
    (hroom : (bufferValue b256 + 1) * 58 ^ psz.length ≤ 256 ^ b256.length) :
    decodeCharsAsserted b256 psz = .ok (decodeChars b256 psz) := by
  induction psz generalizing b256 with
  | nil => rfl
  | cons c psz ih =>
    unfold decodeCharsAsserted decodeChars
    split
    · rfl
    · cases hidx : g_pstaBase58.idxOf? c with
      | none => rfl
      | some ch =>
        obtain ⟨hcarry, hnext⟩ :=
          decodeBase58_carry b256 psz.length ch (idxOf?_base58 hidx).1 hroom
        show (if (mulAdd58 b256 ch).2 = 0 then _ else _) = _
        rw [if_pos hcarry]
        exact ih _ hnext

theorem bufferValue_replicate (n : ℕ) : bufferValue (List.replicate n 0) = 0 := by
  induction n with
  | zero => rfl
  | succ n ih =>
    rw [List.replicate_succ]
    unfold bufferValue
    rw [ih]
    rfl

theorem decodeBase58Asserted_eq (psz : Bytes) :
    decodeBase58Asserted psz = .ok (decodeBase58 psz) := by
  unfold decodeBase58Asserted decodeBase58
  dsimp only
  rw [decodeCharsAsserted_eq]
  · cases decodeChars _ _ with
    | none => rfl
    | some result =>
      show (if _ then _ else _) = Except.ok (if _ then _ else _)
      split <;> rfl
  · rw [bufferValue_replicate, List.length_replicate, Nat.zero_add, Nat.one_mul]
    exact (pow58_lt_bufferSize _).le

theorem foldlM_mulAdd256Asserted (n : ℕ) (vch : Bytes)
    (hfit : ofDigits 256 (vch.map UInt8.toNat).reverse < 58 ^ n) :
    vch.foldlM mulAdd256Asserted (List.replicate n 0)
      = .ok (vch.foldl (fun b58 ch => mulAdd256 b58 ch.toNat) (List.replicate n 0)) := by
  induction vch using List.reverseRecOn with
  | nil => rfl
  | append_singleton vch ch ih =>
    rw [List.map_append, List.map_singleton] at hfit
    have hprev := ih (lt_of_le_of_lt
      (Radix.le_append_value (vch.map UInt8.toNat) [ch.toNat] (by norm_num)) hfit)
    have hcarry := Radix.convert_carry (by norm_num) (by norm_num) n _ _ hfit
    rw [List.foldlM_append, hprev, List.foldl_append, List.foldl_cons, List.foldl_nil]
    show mulAdd256Asserted _ ch >>= _ = _
    unfold mulAdd256Asserted
    rw [carry256_eq, foldl_mulAdd256_eq, List.map_replicate, if_pos]
    · rfl
    · exact hcarry

theorem encodeBase58Asserted_eq (vch : Bytes) :
    encodeBase58Asserted vch = .ok (encodeBase58 vch) := by
  unfold encodeBase58Asserted encodeBase58
  dsimp only
  rw [foldlM_mulAdd256Asserted _ _ (bytes_fit _)]
  rfl

/-! ## The round trips -/

/-- The string with surrounding white space removed. -/
def trimSpaces (psz : Bytes) : Bytes := (psz.dropWhile (isspace ·.toNat)).rdropWhile (isspace ·.toNat)

theorem dropWhile_isspace_word (k : ℕ) {digits : List ℕ} (hdigits : ∀ d ∈ digits, d < 58) :
    (List.replicate k 49 ++ digits.map base58Char).dropWhile (isspace ·.toNat)
      = List.replicate k 49 ++ digits.map base58Char ∧
    (List.replicate k 49 ++ digits.map base58Char).rdropWhile (isspace ·.toNat)
      = List.replicate k 49 ++ digits.map base58Char := by
  have hword : ∀ c ∈ List.replicate k 49 ++ digits.map base58Char, ¬isspace c.toNat := by
    intro c hc
    rcases List.mem_append.mp hc with hc | hc
    · rw [List.eq_of_mem_replicate hc]
      decide
    · obtain ⟨d, hd, rfl⟩ := List.mem_map.mp hc
      rw [isspace_base58Char d (hdigits d hd)]
      exact Bool.false_ne_true
  constructor
  · apply List.dropWhile_eq_self_iff.mpr
    intro hl
    exact hword _ (List.getElem_mem hl)
  · apply List.rdropWhile_eq_self_iff.mpr
    intro hl
    exact hword _ (List.getLast_mem hl)

/-- Bytes: leading zeroes, then a number. -/
theorem exists_bytes_word (b : Bytes) :
    ∃ (k : ℕ) (bs : Bytes), b = List.replicate k 0 ++ bs ∧ bs.head? ≠ some 0 := by
  refine ⟨(b.takeWhile (· == 0)).length, b.dropWhile (· == 0), ?_, ?_⟩
  · have hzeroes : b.takeWhile (· == 0) = List.replicate (b.takeWhile (· == 0)).length 0 := by
      apply List.eq_replicate_iff.mpr
      refine ⟨rfl, ?_⟩
      intro c hc
      have hzero := List.mem_takeWhile_imp hc
      exact beq_iff_eq.mp hzero
    rw [← hzeroes]
    exact List.takeWhile_append_dropWhile.symm
  · intro hzero
    have hnot := List.head?_dropWhile_not (· == 0) b
    rw [hzero] at hnot
    simp at hnot

theorem decodeBase58_encodeBase58 (b : Bytes) : decodeBase58 (encodeBase58 b) = some b := by
  obtain ⟨k, bs, rfl, hhead⟩ := exists_bytes_word b
  set v := ofDigits 256 (bs.map UInt8.toNat).reverse with hv
  have hdigits : ∀ d ∈ (Nat.digits 58 v).reverse, d < 58 := by
    intro d hd
    exact Nat.digits_lt_base (by norm_num) (List.mem_reverse.mp hd)
  have hword : (encodeBase58 (List.replicate k 0 ++ bs)).dropWhile (isspace ·.toNat)
      = List.replicate k 49 ++ ((Nat.digits 58 v).reverse.map base58Char ++ []) := by
    rw [encodeBase58_word k hhead, ← hv, List.append_nil]
    exact (dropWhile_isspace_word k hdigits).1
  rw [decodeBase58_of_word hword (by simp) hdigits (Radix.head?_digits v), List.reverse_reverse,
    Nat.ofDigits_digits, hv, bytesOf_value hhead]

theorem encodeBase58_decodeBase58 {psz vch : Bytes} (h : decodeBase58 psz = some vch) :
    encodeBase58 vch = trimSpaces psz := by
  obtain ⟨back, k, digits, hword, hback, hdigits, hhead⟩ := word_of_decodeBase58 h
  rw [decodeBase58_of_word hword hback hdigits hhead] at h
  obtain rfl : _ = vch := Option.some_inj.mp h
  have htrim : trimSpaces psz = List.replicate k 49 ++ digits.map base58Char := by
    unfold trimSpaces
    rw [hword, ← List.append_assoc, List.rdropWhile]
    rw [List.reverse_append, List.dropWhile_append_of_pos]
    · exact (dropWhile_isspace_word k hdigits).2
    · intro c hc
      exact hback c (List.mem_reverse.mp hc)
  rw [htrim, encodeBase58_word k (bytesOf_head _), toNat_bytesOf, List.reverse_reverse,
    Nat.ofDigits_digits]
  unfold base58Of
  rw [Radix.digits_of_head (by norm_num) digits hdigits hhead]

/-- Decoding undoes encoding, encoding undoes decoding up to the surrounding spaces, and no
assertion about a carry fails on any input. -/
theorem base58_roundTrip (b psz : Bytes) :
    decodeBase58 (encodeBase58 b) = some b ∧
    (∀ vch, decodeBase58 psz = some vch → encodeBase58 vch = trimSpaces psz) ∧
    decodeBase58Asserted psz = .ok (decodeBase58 psz) ∧
    encodeBase58Asserted b = .ok (encodeBase58 b) :=
  ⟨decodeBase58_encodeBase58 b, fun _ h => encodeBase58_decodeBase58 h, decodeBase58Asserted_eq psz,
    encodeBase58Asserted_eq b⟩

/-- Spaces around `"12"`: the zero byte and the byte 1. -/
theorem base58_roundTrip_spaces : decodeBase58 [32, 49, 50, 9] = some [0, 1] ∧
    encodeBase58 [0, 1] = [49, 50] := by
  have hdecode : decodeBase58 [32, 49, 50, 9] = some [0, 1] := by decide +kernel
  refine ⟨hdecode, ?_⟩
  rw [(base58_roundTrip [] [32, 49, 50, 9]).2.1 _ hdecode]
  decide +kernel

end Dacrs
