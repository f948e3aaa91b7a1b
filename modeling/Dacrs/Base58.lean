import Dacrs.Env
import Mathlib.Data.List.TakeWhile

/-!
# Addresses in base 58

The decoder behind `CKeyID(const string &)`, with its fixed buffer and its carry loop.
`decodeBase58_carry` is the assertion the source makes after each character: the buffer
is always long enough.
-/

open Codec (Bytes)

namespace Dacrs

/-- `g_pstaBase58`: the ASCII codes of the alphabet in order. -/
def g_pstaBase58 : Bytes :=
  [49, 50, 51, 52, 53, 54, 55, 56, 57, 65, 66, 67, 68, 69, 70, 71, 72, 74, 75, 76, 77, 78, 80, 81,
    82, 83, 84, 85, 86, 87, 88, 89, 90, 97, 98, 99, 100, 101, 102, 103, 104, 105, 106, 107, 109,
    110, 111, 112, 113, 114, 115, 116, 117, 118, 119, 120, 121, 122]

/-- "b256 = b256 * 58 + ch", from the least significant byte on; returns the carry left over. -/
def mulAdd58 : List UInt8 → Nat → List UInt8 × Nat
  | [], carry => ([], carry)
  | b :: rest, carry =>
    let carry := carry + 58 * b.toNat
    let (rest, out) := mulAdd58 rest (carry / 256)
    (UInt8.ofNat (carry % 256) :: rest, out)

/-- The characters up to the first space, into a buffer kept least significant byte first;
returns what follows them.  `none` is a character outside the alphabet. -/
def decodeChars (b256 : List UInt8) : Bytes → Option (List UInt8 × Bytes)
  | [] => some (b256, [])
  | c :: psz =>
    if isspace c.toNat then some (b256, c :: psz)
    else match g_pstaBase58.idxOf? c with
      | none => none
      | some ch => decodeChars (mulAdd58 b256 ch).1 psz

/-- Bytes of the buffer for `n` characters: log(58) / log(256), rounded up. -/
def bufferSize (n : Nat) : Nat := n * 733 / 1000 + 1

/-- `DecodeBase58` on a zero-terminated string. -/
def decodeBase58 (psz : Bytes) : Option Bytes := do
  let psz := psz.dropWhile (isspace ·.toNat)
  let nZeroes := (psz.takeWhile (· == 49)).length
  let psz := psz.drop nZeroes
  let (b256, rest) ← decodeChars (List.replicate (bufferSize psz.length) 0) psz
  if (rest.dropWhile (isspace ·.toNat)).isEmpty then
    return List.replicate nZeroes 0 ++ b256.reverse.dropWhile (· == 0)
  else none

/-- `DecodeBase58Check`; `[]` where the source clears the vector. -/
def decodeBase58Check (cr : Crypto) (psz : Bytes) : Bytes :=
  match decodeBase58 psz with
  | none => []
  | some vch =>
    if vch.length < 4 then []
    else
      let body := vch.take (vch.length - 4)
      if (uint256Codec.write (cr.Hash body)).take 4 = vch.drop (vch.length - 4) then body else []

/-- `CBaseParams::EM_ACC_ADDRESS`. -/
def emAccAddress : UInt8 := 5

/-- `CKeyID(const string &)` on a string that is not 40 characters long:
`CDacrsAddress::SetString` and `GetKeyID`.  The null key where the address says nothing. -/
def CKeyID.ofAddress (cfg : SysCfg) (cr : Crypto) (strAddress : Bytes) : CKeyID :=
  let vchTemp := decodeBase58Check cr (strAddress.takeWhile (· != 0))
  let vchVersion := vchTemp.take 1
  let vchData := vchTemp.drop 1
  let key : CKeyID := match uint160Codec.read vchData with
    | some (k, _) => k
    | none => 0
  if vchVersion = cfg.pubkeyAddressPrefix ∧ vchData.length = 20 then key
  else if vchData.length = 26 ∧ vchVersion = [emAccAddress] then key
  else 0

/-! ## Encoding -/

/-- "b58 = b58 * 256 + ch", from the least significant digit on. -/
def mulAdd256 : List UInt8 → Nat → List UInt8
  | [], _ => []
  | d :: rest, carry =>
    let carry := carry + 256 * d.toNat
    UInt8.ofNat (carry % 58) :: mulAdd256 rest (carry / 58)

/-- `EncodeBase58`. -/
def encodeBase58 (vch : Bytes) : Bytes :=
  let nZeroes := (vch.takeWhile (· == 0)).length
  let vch := vch.drop nZeroes
  let b58 := vch.foldl (fun b58 ch => mulAdd256 b58 ch.toNat)
    (List.replicate (vch.length * 138 / 100 + 1) 0)
  List.replicate nZeroes 49 ++ (b58.reverse.dropWhile (· == 0)).map fun d => g_pstaBase58.getD d.toNat 0

/-- `EncodeBase58Check`. -/
def encodeBase58Check (cr : Crypto) (vch : Bytes) : Bytes :=
  encodeBase58 (vch ++ (uint256Codec.write (cr.Hash vch)).take 4)

/-- `CKeyID::ToAddress`. -/
def CKeyID.toAddress (cfg : SysCfg) (cr : Crypto) (k : CKeyID) : Bytes :=
  if k = 0 then [] else encodeBase58Check cr (cfg.pubkeyAddressPrefix ++ uint160Codec.write k)

theorem mulAdd256_length (b58 : List UInt8) (carry : Nat) :
    (mulAdd256 b58 carry).length = b58.length := by
  induction b58 generalizing carry with
  | nil => rfl
  | cons d rest ih => simp [mulAdd256, ih]

theorem encodeBase58_length (vch : Bytes) :
    (encodeBase58 vch).length ≤ vch.length * 138 / 100 + 1 := by
  have hfold : ∀ (l : Bytes) (b58 : List UInt8),
      (l.foldl (fun b58 ch => mulAdd256 b58 ch.toNat) b58).length = b58.length := by
    intro l
    induction l with
    | nil => exact fun b58 => rfl
    | cons ch l ih =>
      intro b58
      rw [List.foldl_cons, ih, mulAdd256_length]
  unfold encodeBase58
  dsimp only
  set nZeroes := (vch.takeWhile (· == 0)).length with hn
  have hzeroes : nZeroes ≤ vch.length := (List.takeWhile_prefix _).length_le
  set b58 := (vch.drop nZeroes).foldl (fun b58 ch => mulAdd256 b58 ch.toNat)
    (List.replicate ((vch.drop nZeroes).length * 138 / 100 + 1) 0) with hb
  have hlen : b58.length = (vch.length - nZeroes) * 138 / 100 + 1 := by
    rw [hb, hfold, List.length_replicate, List.length_drop]
  have hdrop := (List.dropWhile_sublist (fun d : UInt8 => d == 0) (l := b58.reverse)).length_le
  rw [List.length_reverse] at hdrop
  simp only [List.length_append, List.length_replicate, List.length_map]
  omega

/-! ## The buffer suffices -/

/-- The number a buffer holds. -/
def bufferValue : List UInt8 → Nat
  | [] => 0
  | b :: rest => b.toNat + 256 * bufferValue rest

theorem mulAdd58_value (b256 : List UInt8) (carry : Nat) :
    bufferValue (mulAdd58 b256 carry).1 + 256 ^ b256.length * (mulAdd58 b256 carry).2
      = 58 * bufferValue b256 + carry := by
  induction b256 generalizing carry with
  | nil => simp [mulAdd58, bufferValue]
  | cons b rest ih =>
    have hrest := ih ((carry + 58 * b.toNat) / 256)
    simp only [mulAdd58, bufferValue, List.length_cons, pow_succ]
    have hbyte : (UInt8.ofNat ((carry + 58 * b.toNat) % 256)).toNat
        = (carry + 58 * b.toNat) % 256 := by
      simp
    rw [hbyte]
    have hdm := Nat.div_add_mod (carry + 58 * b.toNat) 256
    calc _ = (carry + 58 * b.toNat) % 256
          + 256 * (bufferValue (mulAdd58 rest ((carry + 58 * b.toNat) / 256)).1
            + 256 ^ rest.length * (mulAdd58 rest ((carry + 58 * b.toNat) / 256)).2) := by ring
      _ = _ := by rw [hrest]; omega

theorem mulAdd58_length (b256 : List UInt8) (carry : Nat) :
    (mulAdd58 b256 carry).1.length = b256.length := by
  induction b256 generalizing carry with
  | nil => rfl
  | cons b rest ih => simp [mulAdd58, ih]

/-- `58 ^ n` fits the buffer of `n` characters. -/
theorem pow58_lt_bufferSize (n : Nat) : 58 ^ n < 256 ^ bufferSize n := by
  -- 58 ^ 1000 < 256 ^ 733, and the rounding of the division is on the safe side
  have hbase : 58 ^ 1000 < 256 ^ 733 := by decide +kernel
  have hpow : (58 ^ n) ^ 1000 < (256 ^ bufferSize n) ^ 1000 := by
    calc (58 ^ n) ^ 1000 = (58 ^ 1000) ^ n := by rw [← pow_mul, ← pow_mul, Nat.mul_comm]
      _ ≤ (256 ^ 733) ^ n := Nat.pow_le_pow_left hbase.le n
      _ = 256 ^ (733 * n) := by rw [← pow_mul]
      _ < 256 ^ (1000 * bufferSize n) := by
        refine Nat.pow_lt_pow_right (by norm_num) ?_
        unfold bufferSize
        omega
      _ = (256 ^ bufferSize n) ^ 1000 := by rw [← pow_mul, Nat.mul_comm]
  exact lt_of_pow_lt_pow_left₀ 1000 (Nat.zero_le _) hpow

/-- While `k` characters are still to come the number read so far leaves room for them, so
no character ends with a carry: the assertion in `DecodeBase58` holds. -/
theorem decodeBase58_carry (b256 : List UInt8) (k ch : Nat) (hch : ch < 58)
    (hroom : (bufferValue b256 + 1) * 58 ^ (k + 1) ≤ 256 ^ b256.length) :
    (mulAdd58 b256 ch).2 = 0 ∧
      (bufferValue (mulAdd58 b256 ch).1 + 1) * 58 ^ k ≤ 256 ^ (mulAdd58 b256 ch).1.length := by
  have hval := mulAdd58_value b256 ch
  have hlen := mulAdd58_length b256 ch
  have hk : 1 ≤ 58 ^ k := Nat.one_le_pow _ _ (by norm_num)
  have hnext : (58 * bufferValue b256 + ch + 1) * 58 ^ k ≤ 256 ^ b256.length := by
    calc (58 * bufferValue b256 + ch + 1) * 58 ^ k
        ≤ (58 * (bufferValue b256 + 1)) * 58 ^ k := Nat.mul_le_mul_right _ (by omega)
      _ = (bufferValue b256 + 1) * 58 ^ (k + 1) := by ring
      _ ≤ _ := hroom
  have hsmall : 58 * bufferValue b256 + ch < 256 ^ b256.length := by
    have h1 := Nat.mul_le_mul_left (58 * bufferValue b256 + ch + 1) hk
    omega
  have hzero : (mulAdd58 b256 ch).2 = 0 := by
    by_contra hne
    have hle : 256 ^ b256.length * 1 ≤ 256 ^ b256.length * (mulAdd58 b256 ch).2 :=
      Nat.mul_le_mul_left _ (Nat.one_le_iff_ne_zero.mpr hne)
    omega
  refine ⟨hzero, ?_⟩
  rw [hzero, Nat.mul_zero, Nat.add_zero] at hval
  rw [hval, hlen]
  exact hnext

/-! ## An address is never empty -/

/-- The number that digits stand for, from the least significant one on. -/
def digitValue : List UInt8 → Nat
  | [] => 0
  | d :: rest => d.toNat + 58 * digitValue rest

theorem digitValue_zeroes {b58 : List UInt8} (h : ∀ d ∈ b58, d = 0) : digitValue b58 = 0 := by
  induction b58 with
  | nil => rfl
  | cons d rest ih =>
    have hd := h d List.mem_cons_self
    unfold digitValue
    rw [hd, ih fun e he => h e (List.mem_cons_of_mem d he)]
    rfl

/-- Up to what is carried out of the digits. -/
theorem mulAdd256_value (b58 : List UInt8) (carry : Nat) : ∃ out,
    digitValue (mulAdd256 b58 carry) + 58 ^ b58.length * out = 256 * digitValue b58 + carry := by
  induction b58 generalizing carry with
  | nil => exact ⟨carry, by simp [mulAdd256, digitValue]⟩
  | cons d rest ih =>
    obtain ⟨out, hout⟩ := ih ((carry + 256 * d.toNat) / 58)
    have hdigit : (UInt8.ofNat ((carry + 256 * d.toNat) % 58)).toNat = (carry + 256 * d.toNat) % 58 := by
      have hlt : (carry + 256 * d.toNat) % 58 < 58 := Nat.mod_lt _ (by norm_num)
      rw [UInt8.toNat_ofNat']
      omega
    have hdm := Nat.div_add_mod (carry + 256 * d.toNat) 58
    refine ⟨out, ?_⟩
    simp only [mulAdd256, digitValue, List.length_cons, pow_succ, hdigit]
    calc _ = (carry + 256 * d.toNat) % 58
          + 58 * (digitValue (mulAdd256 rest ((carry + 256 * d.toNat) / 58)) + 58 ^ rest.length * out) := by
          ring
      _ = _ := by rw [hout]; omega

/-- The number that bytes stand for, from the most significant one on. -/
def byteValue (vch : Bytes) : Nat := vch.foldl (fun v ch => 256 * v + ch.toNat) 0

theorem foldl_byteValue_lt (vch : Bytes) (v : Nat) :
    vch.foldl (fun v ch => 256 * v + ch.toNat) v < 256 ^ vch.length * (v + 1) := by
  induction vch generalizing v with
  | nil => simp
  | cons ch vch ih =>
    have hch := ch.toNat_lt
    rw [List.foldl_cons, List.length_cons]
    calc _ < 256 ^ vch.length * (256 * v + ch.toNat + 1) := ih _
      _ ≤ 256 ^ vch.length * (256 * (v + 1)) := Nat.mul_le_mul_left _ (by omega)
      _ = _ := by rw [pow_succ]; ring

theorem le_foldl_byteValue (vch : Bytes) (v : Nat) :
    v ≤ vch.foldl (fun v ch => 256 * v + ch.toNat) v := by
  induction vch generalizing v with
  | nil => exact le_refl v
  | cons ch vch ih =>
    rw [List.foldl_cons]
    exact le_trans (by omega) (ih _)

/-- The digits hold the number of the bytes, up to what is carried out of them. -/
theorem foldl_mulAdd256_value (vch : Bytes) (b58 : List UInt8) (v : Nat)
    (h : digitValue b58 % 58 ^ b58.length = v % 58 ^ b58.length) :
    digitValue (vch.foldl (fun b58 ch => mulAdd256 b58 ch.toNat) b58) % 58 ^ b58.length
      = vch.foldl (fun v ch => 256 * v + ch.toNat) v % 58 ^ b58.length := by
  induction vch generalizing b58 v with
  | nil => exact h
  | cons ch vch ih =>
    rw [List.foldl_cons, List.foldl_cons]
    have hlen := mulAdd256_length b58 ch.toNat
    have hnext := ih (mulAdd256 b58 ch.toNat) (256 * v + ch.toNat)
    rw [hlen] at hnext
    apply hnext
    obtain ⟨out, hout⟩ := mulAdd256_value b58 ch.toNat
    calc _ = (digitValue (mulAdd256 b58 ch.toNat) + 58 ^ b58.length * out) % 58 ^ b58.length := by
          rw [Nat.add_mul_mod_self_left]
      _ = (256 * digitValue b58 + ch.toNat) % 58 ^ b58.length := by rw [hout]
      _ = (256 * v + ch.toNat) % 58 ^ b58.length :=
          (Nat.ModEq.add_right _ (Nat.ModEq.mul_left 256 h))

/-- The buffer has room for the digits of so many bytes. -/
theorem pow256_le_digits (n : Nat) : 256 ^ n ≤ 58 ^ (n * 138 / 100 + 1) := by
  have hbase : 256 ^ 100 ≤ 58 ^ 138 := by decide +kernel
  have hpow : (256 ^ n) ^ 100 < (58 ^ (n * 138 / 100 + 1)) ^ 100 := by
    calc (256 ^ n) ^ 100 = (256 ^ 100) ^ n := by rw [← pow_mul, ← pow_mul, Nat.mul_comm]
      _ ≤ (58 ^ 138) ^ n := Nat.pow_le_pow_left hbase n
      _ = 58 ^ (138 * n) := by rw [← pow_mul]
      _ < 58 ^ (100 * (n * 138 / 100 + 1)) := Nat.pow_lt_pow_right (by norm_num) (by omega)
      _ = (58 ^ (n * 138 / 100 + 1)) ^ 100 := by rw [← pow_mul, Nat.mul_comm]
  exact (lt_of_pow_lt_pow_left₀ 100 (Nat.zero_le _) hpow).le

theorem encodeBase58_ne_nil {vch : Bytes} (h : vch ≠ []) : encodeBase58 vch ≠ [] := by
  obtain ⟨ch, rest, rfl⟩ := List.exists_cons_of_ne_nil h
  unfold encodeBase58
  by_cases hzero : (ch == 0) = true
  · rw [List.takeWhile_cons, if_pos hzero]
    simp
  · rw [List.takeWhile_cons, if_neg hzero]
    dsimp only
    rw [List.length_nil, List.drop_zero, List.replicate_zero, List.nil_append]
    intro hnil
    -- without a digit the bytes stand for 0
    have hdigits := List.dropWhile_eq_nil_iff.mp (List.map_eq_nil_iff.mp hnil)
    have hvalue := foldl_mulAdd256_value (ch :: rest)
      (List.replicate ((ch :: rest).length * 138 / 100 + 1) 0) 0 (by
        rw [digitValue_zeroes fun d hd => List.eq_of_mem_replicate hd])
    rw [digitValue_zeroes fun d hd => beq_iff_eq.mp (hdigits d (List.mem_reverse.mpr hd)),
      List.length_replicate, Nat.zero_mod] at hvalue
    have hlt := foldl_byteValue_lt (ch :: rest) 0
    have hroom := pow256_le_digits (ch :: rest).length
    rw [Nat.mod_eq_of_lt (by omega), List.foldl_cons] at hvalue
    have hpos := le_foldl_byteValue rest (256 * 0 + ch.toNat)
    have hch : ch.toNat = 0 := by omega
    exact hzero (beq_iff_eq.mpr (UInt8.toNat.inj hch))

theorem CKeyID.toAddress_ne_nil (cfg : SysCfg) (cr : Crypto) {k : CKeyID} (h : k ≠ 0) :
    k.toAddress cfg cr ≠ [] := by
  unfold CKeyID.toAddress encodeBase58Check
  rw [if_neg h]
  apply encodeBase58_ne_nil
  intro hnil
  have hlen := congrArg List.length hnil
  rw [List.length_append, List.length_append, length_uint160Codec_write, List.length_nil] at hlen
  omega

end Dacrs
