import Dacrs.Lib.Limbs
import Dacrs.NextWork

/-!
# base_uint

The arithmetic of arith_uint256.h on its 32-bit limbs, with the 64-bit carries of the source.
-/

namespace Dacrs

/-- The limbs `pn`, least significant first. -/
@[ext]
structure BaseUint (width : ℕ) where
  pn : List UInt32
  length_pn : pn.length = width
deriving DecidableEq

namespace BaseUint

variable {width : ℕ}

def zero (width : ℕ) : BaseUint width := ⟨List.replicate width 0, List.length_replicate⟩

/-- `n & 0xffffffff` -/
def lowWord (n : UInt64) : UInt32 := (n &&& 0xffffffff).toUInt32

/-- `base_uint(uint64_t)` -/
def ofUInt64 (b : UInt64) : BaseUint (width + 2) :=
  ⟨b.toUInt32 :: (b >>> 32).toUInt32 :: List.replicate width 0, by simp⟩

/-- `GetLow64` -/
def getLow64 (a : BaseUint (width + 2)) : UInt64 :=
  (a.pn.getD 0 0).toUInt64 ||| (a.pn.getD 1 0).toUInt64 <<< 32

/-! ## Limb by limb -/

/-- `operator~` -/
def not (a : BaseUint width) : BaseUint width := ⟨a.pn.map (~~~ ·), by simp [a.length_pn]⟩

def zip (f : UInt32 → UInt32 → UInt32) (a b : BaseUint width) : BaseUint width :=
  ⟨List.zipWith f a.pn b.pn, by simp [a.length_pn, b.length_pn]⟩

/-- `operator^=`, `operator&=`, `operator|=` -/
def xor (a b : BaseUint width) : BaseUint width := zip (· ^^^ ·) a b
def and (a b : BaseUint width) : BaseUint width := zip (· &&& ·) a b
def or (a b : BaseUint width) : BaseUint width := zip (· ||| ·) a b

/-! ## Sums -/

/-- The loop of `operator+=`. -/
def addLoop : List UInt32 → List UInt32 → UInt64 → List UInt32
  | p :: pn, q :: qn, carry =>
    let n := carry + p.toUInt64 + q.toUInt64
    lowWord n :: addLoop pn qn (n >>> 32)
  | _, _, _ => []

/-- The loop of `operator++`: on to the next limb where one comes round to zero. -/
def incLoop : List UInt32 → List UInt32
  | [] => []
  | p :: pn => if p + 1 = 0 then (p + 1) :: incLoop pn else (p + 1) :: pn

/-- The loop of `operator--`. -/
def decLoop : List UInt32 → List UInt32
  | [] => []
  | p :: pn => if p - 1 = 0xffffffff then (p - 1) :: decLoop pn else (p - 1) :: pn

@[simp] theorem length_addLoop (pn qn : List UInt32) (carry : UInt64) (h : pn.length = qn.length) :
    (addLoop pn qn carry).length = pn.length := by
  induction pn generalizing qn carry with
  | nil => rfl
  | cons p pn ih =>
    cases qn with
    | nil => cases h
    | cons q qn => simp [addLoop, ih qn _ (Nat.succ.inj h)]

@[simp] theorem length_incLoop (pn : List UInt32) : (incLoop pn).length = pn.length := by
  induction pn with
  | nil => rfl
  | cons p pn ih =>
    rw [incLoop]
    split <;> simp [ih]

@[simp] theorem length_decLoop (pn : List UInt32) : (decLoop pn).length = pn.length := by
  induction pn with
  | nil => rfl
  | cons p pn ih =>
    rw [decLoop]
    split <;> simp [ih]

def add (a b : BaseUint width) : BaseUint width :=
  ⟨addLoop a.pn b.pn 0, by rw [length_addLoop _ _ _ (a.length_pn.trans b.length_pn.symm), a.length_pn]⟩

def inc (a : BaseUint width) : BaseUint width := ⟨incLoop a.pn, by rw [length_incLoop, a.length_pn]⟩

def dec (a : BaseUint width) : BaseUint width := ⟨decLoop a.pn, by rw [length_decLoop, a.length_pn]⟩

/-- `operator-()` -/
def neg (a : BaseUint width) : BaseUint width := a.not.inc

/-- `operator-=` -/
def sub (a b : BaseUint width) : BaseUint width := a.add b.neg

/-! ## Products -/

/-- The loop of `operator*=(uint32_t)`. -/
def mulWordLoop (b32 : UInt32) : List UInt32 → UInt64 → List UInt32
  | [], _ => []
  | p :: pn, carry =>
    let n := carry + b32.toUInt64 * p.toUInt64
    lowWord n :: mulWordLoop b32 pn (n >>> 32)

/-- The inner loop of `operator*=`, on the limbs from `pn[j]` on. -/
def mulRow (aj : UInt32) : List UInt32 → List UInt32 → UInt64 → List UInt32
  | p :: pn, q :: qn, carry =>
    let n := carry + p.toUInt64 + aj.toUInt64 * q.toUInt64
    lowWord n :: mulRow aj pn qn (n >>> 32)
  | pn, _, _ => pn

/-- The outer loop: a row leaves `pn[j]` as it will be. -/
def mulRows (b : List UInt32) : List UInt32 → List UInt32 → List UInt32
  | [], pn => pn
  | aj :: a, pn =>
    match mulRow aj pn b 0 with
    | [] => []
    | p :: pn => p :: mulRows b a pn

@[simp] theorem length_mulWordLoop (b32 : UInt32) (pn : List UInt32) (carry : UInt64) :
    (mulWordLoop b32 pn carry).length = pn.length := by
  induction pn generalizing carry with
  | nil => rfl
  | cons p pn ih => simp [mulWordLoop, ih]

@[simp] theorem length_mulRow (aj : UInt32) (pn qn : List UInt32) (carry : UInt64) :
    (mulRow aj pn qn carry).length = pn.length := by
  induction pn generalizing qn carry with
  | nil => cases qn <;> rfl
  | cons p pn ih =>
    cases qn with
    | nil => rfl
    | cons q qn => simp [mulRow, ih]

@[simp] theorem length_mulRows (b a pn : List UInt32) : (mulRows b a pn).length = pn.length := by
  induction a generalizing pn with
  | nil => rfl
  | cons aj a ih =>
    have hrow := length_mulRow aj pn b 0
    rw [mulRows]
    split
    · next h => rw [h] at hrow; exact hrow
    · next p row h => rw [List.length_cons, ih, ← List.length_cons, ← h, hrow]

def mulWord (a : BaseUint width) (b32 : UInt32) : BaseUint width :=
  ⟨mulWordLoop b32 a.pn 0, by rw [length_mulWordLoop, a.length_pn]⟩

def mul (a b : BaseUint width) : BaseUint width :=
  ⟨mulRows b.pn a.pn (zero width).pn, by rw [length_mulRows, (zero width).length_pn]⟩

/-! ## Shifts -/

/-- `pn[i] |= word` -/
def orAt (pn : List UInt32) (i : ℕ) (word : UInt32) : List UInt32 := pn.modify i (· ||| word)

/-- A turn of the loop of `operator<<=`, with the words and the bits of the shift. -/
def shlTurn (width k shift : ℕ) (a pn : List UInt32) (i : ℕ) : List UInt32 :=
  let pn :=
    if i + k + 1 < width ∧ shift ≠ 0 then orAt pn (i + k + 1) (a.getD i 0 >>> UInt32.ofNat (32 - shift))
    else pn
  if i + k < width then orAt pn (i + k) (a.getD i 0 <<< UInt32.ofNat shift) else pn

/-- A turn of the loop of `operator>>=`. -/
def shrTurn (k shift : ℕ) (a pn : List UInt32) (i : ℕ) : List UInt32 :=
  let pn :=
    if k + 1 ≤ i ∧ shift ≠ 0 then orAt pn (i - k - 1) (a.getD i 0 <<< UInt32.ofNat (32 - shift)) else pn
  if k ≤ i then orAt pn (i - k) (a.getD i 0 >>> UInt32.ofNat shift) else pn

theorem length_ite_orAt {c : Prop} [Decidable c] (pn : List UInt32) (i : ℕ) (word : UInt32) :
    (if c then orAt pn i word else pn).length = pn.length := by
  split
  · exact List.length_modify _ _ _
  · rfl

@[simp] theorem length_shlTurn (k shift : ℕ) (a pn : List UInt32) (i : ℕ) :
    (shlTurn width k shift a pn i).length = pn.length := by
  rw [shlTurn, length_ite_orAt, length_ite_orAt]

@[simp] theorem length_shrTurn (k shift : ℕ) (a pn : List UInt32) (i : ℕ) :
    (shrTurn k shift a pn i).length = pn.length := by
  rw [shrTurn, length_ite_orAt, length_ite_orAt]

theorem length_foldl {turn : List UInt32 → ℕ → List UInt32} (h : ∀ pn i, (turn pn i).length = pn.length)
    (is : List ℕ) (pn : List UInt32) : (is.foldl turn pn).length = pn.length := by
  induction is generalizing pn with
  | nil => rfl
  | cons i is ih => rw [List.foldl_cons, ih, h]

/-- `operator<<=` -/
def shl (a : BaseUint width) (shift : ℕ) : BaseUint width :=
  ⟨(List.range width).foldl (shlTurn width (shift / 32) (shift % 32) a.pn) (zero width).pn, by
    rw [length_foldl (length_shlTurn _ _ _), (zero width).length_pn]⟩

/-- `operator>>=` -/
def shr (a : BaseUint width) (shift : ℕ) : BaseUint width :=
  ⟨(List.range width).foldl (shrTurn (shift / 32) (shift % 32) a.pn) (zero width).pn, by
    rw [length_foldl (length_shrTurn _ _ _), (zero width).length_pn]⟩

/-! ## Comparison and division -/

/-- `CompareTo`, from the last limb down. -/
def compareLoop : List UInt32 → List UInt32 → ℤ
  | p :: pn, q :: qn =>
    match compareLoop pn qn with
    | 0 => if p < q then -1 else if q < p then 1 else 0
    | r => r
  | _, _ => 0

def compareTo (a b : BaseUint width) : ℤ := compareLoop a.pn b.pn

/-- `EqualTo` -/
def equalTo (a : BaseUint (width + 2)) (b : UInt64) : Bool :=
  (a.pn.drop 2).all (· == 0) && decide (a.pn.getD 1 0 = (b >>> 32).toUInt32) &&
    decide (a.pn.getD 0 0 = lowWord b)

/-- The loop of `bits` on one limb, from bit `bits` down. -/
def topBit (p : UInt32) : ℕ → ℕ
  | 0 => 1
  | bits + 1 => if p &&& 1 <<< UInt32.ofNat (bits + 1) ≠ 0 then bits + 2 else topBit p bits

/-- The loop of `bits` on the limbs from position `pos` on, from the last one down. -/
def bitsLoop : ℕ → List UInt32 → ℕ
  | _, [] => 0
  | pos, p :: pn =>
    match bitsLoop (pos + 1) pn with
    | 0 => if p ≠ 0 then 32 * pos + topBit p 31 else 0
    | bits => bits

/-- `bits` -/
def bits (a : BaseUint width) : ℕ := bitsLoop 0 a.pn

/-- The loop of `operator/=`, with `shift + 1` turns to go. -/
def divLoop : ℕ → BaseUint width → BaseUint width → BaseUint width → BaseUint width
  | 0, _, _, quotient => quotient
  | shift + 1, num, div, quotient =>
    if 0 ≤ num.compareTo div then
      divLoop shift (num.sub div) (div.shr 1)
        ⟨orAt quotient.pn (shift / 32) (1 <<< UInt32.ofNat (shift % 32)), by
          rw [orAt, List.length_modify, quotient.length_pn]⟩
    else divLoop shift num (div.shr 1) quotient

/-- `operator/=`; `none` is `uint_error`. -/
def divide (num div : BaseUint width) : Option (BaseUint width) :=
  if div.bits = 0 then none
  else if num.bits < div.bits then some (zero width)
  else some (divLoop (num.bits - div.bits + 1) num (div.shl (num.bits - div.bits)) (zero width))

end BaseUint

end Dacrs
