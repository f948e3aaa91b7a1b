import Dacrs.Types
import Dacrs.Lib.VarNat

/-!
# `VARINT` fields

`ReadVarInt` and `WriteVarInt` at any integer type.  The round trip and the prefix property
hold throughout.  "Every integer has exactly one encoding" holds of the sequences whose number
the type has: the accumulator wraps on the others, and `varInt_holds` says exactly that.
-/

open Codec (Bytes Reader varNumber IsVarNat)

namespace Dacrs

/-- An integer type of C++. -/
structure VarIntType where
  width : ℕ
  signed : Bool
  byte : 8 ≤ width

namespace VarIntType

/-- One more than the largest value of the type. -/
def bound (I : VarIntType) : ℕ := if I.signed then 2 ^ (I.width - 1) else 2 ^ I.width

/-- The value of the type with these bits. -/
def ofBits (I : VarIntType) (n : ℕ) : ℤ :=
  if I.signed then (BitVec.ofNat I.width n).toInt else (BitVec.ofNat I.width n).toNat

/-- `unsigned char`. -/
def uchar : VarIntType := ⟨8, false, by norm_num⟩
/-- `unsigned short`. -/
def ushort : VarIntType := ⟨16, false, by norm_num⟩
/-- `short`. -/
def short : VarIntType := ⟨16, true, by norm_num⟩
/-- `unsigned int`. -/
def uint : VarIntType := ⟨32, false, by norm_num⟩
/-- `int`. -/
def int : VarIntType := ⟨32, true, by norm_num⟩
/-- `uint64_t`. -/
def uint64 : VarIntType := ⟨64, false, by norm_num⟩
/-- `int64_t`. -/
def int64 : VarIntType := ⟨64, true, by norm_num⟩

theorem bound_le (I : VarIntType) : I.bound ≤ 2 ^ I.width := by
  unfold bound
  split
  · exact Nat.pow_le_pow_right (by norm_num) (by omega)
  · exact le_refl _

/-- Seven bits fit every type. -/
theorem le_bound (I : VarIntType) : 128 ≤ I.bound := by
  have hbyte := I.byte
  have hpow : (128 : ℕ) = 2 ^ 7 := by norm_num
  unfold bound
  rw [hpow]
  split
  · exact Nat.pow_le_pow_right (by norm_num) (by omega)
  · exact Nat.pow_le_pow_right (by norm_num) (by omega)

theorem two_pow_width (I : VarIntType) : 2 ^ I.width = 2 * 2 ^ (I.width - 1) := by
  have hbyte := I.byte
  rw [← pow_succ']
  congr 1
  omega

theorem ofBits_mod (I : VarIntType) (n : ℕ) : I.ofBits (n % 2 ^ I.width) = I.ofBits n := by
  unfold ofBits
  rw [show BitVec.ofNat I.width (n % 2 ^ I.width) = BitVec.ofNat I.width n by
    apply BitVec.eq_of_toNat_eq
    simp]

/-- A number the type has is its own value. -/
theorem ofBits_of_lt (I : VarIntType) {n : ℕ} (h : n < I.bound) : I.ofBits n = n := by
  have hlt : n < 2 ^ I.width := lt_of_lt_of_le h I.bound_le
  have hwidth := I.two_pow_width
  unfold ofBits
  cases hs : I.signed with
  | true =>
    have hhalf : n < 2 ^ (I.width - 1) := by simpa [bound, hs] using h
    rw [if_pos rfl, BitVec.toInt_eq_toNat_of_lt]
    · rw [BitVec.toNat_ofNat, Nat.mod_eq_of_lt hlt]
    · rw [BitVec.toNat_ofNat, Nat.mod_eq_of_lt hlt]
      omega
  | false =>
    rw [if_neg Bool.false_ne_true, BitVec.toNat_ofNat, Nat.mod_eq_of_lt hlt]

/-- A value of the type is below its bound. -/
theorem ofBits_lt (I : VarIntType) (n : ℕ) : I.ofBits n < I.bound := by
  have hbyte := I.byte
  unfold ofBits bound
  cases hs : I.signed with
  | true =>
    rw [if_pos rfl, if_pos rfl]
    have hlt := (BitVec.ofNat I.width n).toInt_lt (w := I.width)
    exact_mod_cast hlt
  | false =>
    rw [if_neg Bool.false_ne_true, if_neg Bool.false_ne_true]
    exact_mod_cast (BitVec.ofNat I.width n).isLt

end VarIntType

/-! ## The three functions -/

/-- `ReadVarInt`. -/
def readVarInt (I : VarIntType) : Reader ℤ := fun is =>
  (Codec.readVarNatGo I.width 0 is).map fun p => (I.ofBits p.1, p.2)

/-- `GetSizeOfVarInt`. -/
def getSizeOfVarInt (n : ℤ) : ℕ := if n ≤ 127 then 1 else getSizeOfVarInt (n / 128 - 1) + 1
termination_by n.toNat
decreasing_by omega

/-- The codecs of the fields read their types. -/
theorem varInt32_read (s : Bytes) : varInt32.read s = readVarInt VarIntType.int s := by
  unfold readVarInt
  show (Codec.readVarNatGo 32 0 s).bind _ = (Codec.readVarNatGo 32 0 s).map _
  cases Codec.readVarNatGo 32 0 s with
  | none => rfl
  | some p => rfl

theorem varUInt64_read (s : Bytes) : (varUInt64.read s).map (fun p => ((p.1.toNat : ℤ), p.2))
    = readVarInt VarIntType.uint64 s := by
  unfold readVarInt
  show ((Codec.readVarNatGo 64 0 s).bind _).map _ = (Codec.readVarNatGo 64 0 s).map _
  cases Codec.readVarNatGo 64 0 s with
  | none => rfl
  | some p => rfl

theorem varNatGo_size (n : ℕ) (tail : Bytes) :
    (Codec.varNatGo n tail).length = getSizeOfVarInt n + tail.length := by
  induction n using Nat.strong_induction_on generalizing tail with
  | _ n ih =>
    by_cases h : n ≤ 127
    · have hsize : getSizeOfVarInt n = 1 := by
        rw [getSizeOfVarInt, if_pos (by omega)]
      rw [Codec.varNatGo, if_pos h, hsize, List.length_cons]
      omega
    · have hnext : (n : ℤ) / 128 - 1 = ((n / 128 - 1 : ℕ) : ℤ) := by omega
      have hsize : getSizeOfVarInt n = getSizeOfVarInt ((n / 128 - 1 : ℕ) : ℤ) + 1 := by
        rw [getSizeOfVarInt, if_neg (by omega), hnext]
      rw [Codec.varNatGo, if_neg h, ih _ (by omega), hsize, List.length_cons]
      omega

/-- The size that is announced is the size that is written. -/
theorem length_writeVarInt (n : ℤ) : (writeVarInt n).length = getSizeOfVarInt n := by
  unfold writeVarInt
  split
  · next h =>
    rw [getSizeOfVarInt, if_pos (by omega)]
    rfl
  · next h =>
    have hn : ((n.toNat : ℕ) : ℤ) = n := Int.toNat_of_nonneg (by omega)
    rw [Codec.writeVarNat, varNatGo_size, hn]
    rfl

/-- `szTemp` has room for the digits of every value of the type. -/
theorem length_writeVarInt_le (I : VarIntType) {n : ℤ} (h : n < I.bound) :
    (writeVarInt n).length ≤ (I.width + 6) / 7 := by
  have hbyte := I.byte
  unfold writeVarInt
  split
  · rw [List.length_singleton]
    omega
  · apply Codec.length_writeVarNat_le (by omega)
    have hle := I.bound_le
    omega

/-! ## One encoding for a number -/

/-- What is written for a value of the type stands for a number the type has. -/
theorem varNumber_writeVarInt_lt (I : VarIntType) {n : ℤ} (h : n < I.bound) :
    varNumber (writeVarInt n) < I.bound := by
  have hseven := I.le_bound
  unfold writeVarInt
  split
  · have hnumber : varNumber [UInt8.ofNat (n % 128).toNat] < 128 := by
      show (UInt8.ofNat (n % 128).toNat).toNat % 128 + 128 * 0 < 128
      omega
    omega
  · rw [Codec.varNumber_writeVarNat]
    omega

theorem readVarInt_code (I : VarIntType) {enc : Bytes} (h : IsVarNat enc) (rest : Bytes) :
    readVarInt I (enc ++ rest) = some (I.ofBits (varNumber enc), rest) := by
  unfold readVarInt
  rw [Codec.readVarNatGo_code I.width h rest, Option.map_some, I.ofBits_mod]

theorem readVarInt_writeVarInt (I : VarIntType) {n : ℤ} (hnonneg : 0 ≤ n) (h : n < I.bound)
    (rest : Bytes) : readVarInt I (writeVarInt n ++ rest) = some (n, rest) := by
  unfold writeVarInt
  rw [if_neg (by omega), readVarInt_code I (Codec.isVarNat_writeVarNat _) rest,
    Codec.varNumber_writeVarNat, I.ofBits_of_lt (by omega), Int.toNat_of_nonneg hnonneg]

theorem writeVarInt_prefix_free {m n : ℤ} (hm : 0 ≤ m) (hn : 0 ≤ n)
    (h : writeVarInt m <+: writeVarInt n) : writeVarInt m = writeVarInt n := by
  obtain ⟨t, ht⟩ := h
  unfold writeVarInt at ht ⊢
  rw [if_neg (by omega), if_neg (by omega)] at ht ⊢
  exact (Codec.isVarNat_writeVarNat _).eq_of_append (Codec.isVarNat_writeVarNat _) ht.symm

/-- A string that was read is the one that is written exactly when its number is one of the
type. -/
theorem readVarInt_canonical (I : VarIntType) {enc rest : Bytes} {n : ℤ}
    (h : readVarInt I (enc ++ rest) = some (n, rest)) :
    enc = writeVarInt n ↔ varNumber enc < I.bound := by
  obtain ⟨⟨bits, tail⟩, hread, heq⟩ := Option.map_eq_some_iff.mp h
  have htail : tail = rest := congrArg Prod.snd heq
  rw [htail] at hread
  have hcode := Codec.isVarNat_of_read I.width enc rest 0 bits hread
  have hvalue : I.ofBits (varNumber enc) = n := by
    have hsame := (readVarInt_code I hcode rest).symm.trans h
    exact congrArg Prod.fst (Option.some.inj hsame)
  constructor
  · intro henc
    have hlt := I.ofBits_lt (varNumber enc)
    rw [hvalue] at hlt
    rw [henc]
    exact varNumber_writeVarInt_lt I hlt
  · intro hlt
    rw [I.ofBits_of_lt hlt] at hvalue
    rw [← hvalue, writeVarInt, if_neg (by omega), Int.toNat_natCast]
    exact hcode.eq_writeVarNat

/-- Round trip, prefix freedom, and when the string read is the only one for its value. -/
theorem varInt_holds (I : VarIntType) :
    (∀ n : ℤ, 0 ≤ n → n < I.bound → ∀ rest, readVarInt I (writeVarInt n ++ rest) = some (n, rest)) ∧
    (∀ m n : ℤ, 0 ≤ m → 0 ≤ n → writeVarInt m <+: writeVarInt n → writeVarInt m = writeVarInt n) ∧
    ∀ enc rest n, readVarInt I (enc ++ rest) = some (n, rest) →
      (enc = writeVarInt n ↔ varNumber enc < I.bound) := by
  refine ⟨?_, ?_, ?_⟩
  · intro n hnonneg h rest
    exact readVarInt_writeVarInt I hnonneg h rest
  · intro m n hm hn h
    exact writeVarInt_prefix_free hm hn h
  · intro enc rest n h
    exact readVarInt_canonical I h

/-- 256 in two bytes. -/
theorem varInt_holds_256 : readVarInt VarIntType.ushort ([0x81, 0x00] ++ [7]) = some (256, [7]) ∧
    [0x81, 0x00] = writeVarInt 256 := by
  have hread : readVarInt VarIntType.ushort ([0x81, 0x00] ++ [7]) = some (256, [7]) := by
    decide +kernel
  exact ⟨hread, ((varInt_holds VarIntType.ushort).2.2 _ _ _ hread).mpr (by decide +kernel)⟩

/-- 65536 in three bytes is read into an `unsigned short` as 0, which is written as one byte. -/
theorem overlong_varInt : ¬ ∀ (enc rest : Bytes) (n : ℤ),
    readVarInt VarIntType.ushort (enc ++ rest) = some (n, rest) → enc = writeVarInt n := by
  intro h
  have hread : readVarInt VarIntType.ushort ([0x82, 0xff, 0x00] ++ []) = some (0, []) := by
    decide +kernel
  have henc := h _ _ _ hread
  have hlen := congrArg List.length henc
  rw [length_writeVarInt, getSizeOfVarInt, if_pos (by norm_num)] at hlen
  simp at hlen

end Dacrs
