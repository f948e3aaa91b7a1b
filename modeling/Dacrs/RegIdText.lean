import Dacrs.Env
import Mathlib.Data.List.TakeWhile

/-!
# The text form of a registration id

`CRegID(string)` reads `height-index` in decimal, or the six bytes in hexadecimal.  Nothing between
`IsSimpleRegIdStr` and the two calls of `atoi` asks for the dash or bounds the two numbers, and the
hexadecimal branch asks for twelve characters only; `setRegID_right_iff` says which strings are read
right.
-/

open Codec (Bytes)

namespace Dacrs

namespace CRegID

/-! ## Library functions -/

/-- `atoi`, on a string of digits: `strtol` stops at the largest `long`, and the result is cut to an
`int`. -/
def atoi (str : List Char) : Int32 := Int32.ofNat (min (Nat.ofDigitChars 10 str 0) (2 ^ 63 - 1))

/-- The table `g_util_hexdigit`: the codes of `0` to `9`, `A` to `F` and `a` to `f`. -/
def hexDigit (c : Char) : Option ℕ :=
  if 48 ≤ c.toNat ∧ c.toNat ≤ 57 then some (c.toNat - 48)
  else if 65 ≤ c.toNat ∧ c.toNat ≤ 70 then some (c.toNat - 55)
  else if 97 ≤ c.toNat ∧ c.toNat ≤ 102 then some (c.toNat - 87)
  else none

/-- `ParseHex`: blanks before a byte are passed over, and the first pair that is none ends it.  After
one last character comes the end of the string, which is no digit. -/
def parseHex : List Char → Bytes
  | [] => []
  | [_] => []
  | c :: d :: rest =>
    if isspace c.toNat then parseHex (d :: rest)
    else match hexDigit c, hexDigit d with
      | some high, some low => UInt8.ofNat (high * 16 + low) :: parseHex rest
      | _, _ => []

/-! ## Reading and printing -/

/-- The substrings before and after the first dash.  Without a dash `find` gives -1, and `substr`
the whole string both times. -/
def splitDash (str : List Char) : List Char × List Char :=
  match str.dropWhile (· ≠ '-') with
  | [] => (str, str)
  | _ :: strEnd => (str.takeWhile (· ≠ '-'), strEnd)

/-- One to ten digits. -/
def isNumber (str : List Char) : Bool := !(10 < str.length || str.length == 0) && str.all Char.isDigit

/-- `IsSimpleRegIdStr` -/
def isSimpleRegIdStr (str : List Char) : Bool :=
  if 3 ≤ str.length then isNumber (splitDash str).1 && isNumber (splitDash str).2 else false

/-- `SetRegID` on a string, with the raw bytes it leaves in `m_vchRegID`.  The first six of them are
read whether there are six or not. -/
def setRegID (strRegID : List Char) : Exec (CRegID × Bytes) :=
  if isSimpleRegIdStr strRegID then
    let uHeight := (atoi (splitDash strRegID).1).toUInt32
    let ushIndex := (atoi (splitDash strRegID).2).toUInt32.toUInt16
    .ok (⟨uHeight, ushIndex⟩, Codec.u32.write uHeight ++ Codec.u16.write ushIndex)
  else if strRegID.length = 12 then
    match ofVec6 (parseHex strRegID) with
    | some r => .ok (r, parseHex strRegID)
    | none => Exec.throw "read past the end of m_vchRegID"
  else .ok (null, [])

/-- `ToString` -/
def toString (r : CRegID) : List Char :=
  if r.isEmpty then [' ']
  else Nat.toDigits 10 r.uHeight.toNat ++ '-' :: Nat.toDigits 10 r.ushIndex.toNat

/-! ## The two forms -/

/-- The number a string of digits stands for. -/
def Decimal (str : List Char) (n : ℕ) : Prop :=
  str ≠ [] ∧ (∀ c ∈ str, c.isDigit) ∧ Nat.ofDigitChars 10 str 0 = n

/-- Two hexadecimal digits for each byte. -/
def Hex : List Char → Bytes → Prop
  | [], [] => True
  | c :: d :: str, b :: vch => hexDigit c = some (b.toNat / 16) ∧ hexDigit d = some (b.toNat % 16) ∧ Hex str vch
  | _, _ => False

/-- A text form of the id: height and index in decimal, or the raw bytes in hexadecimal. -/
def Form (str : List Char) (r : CRegID) : Prop :=
  (∃ first last, str = first ++ '-' :: last ∧ Decimal first r.uHeight.toNat ∧
    Decimal last r.ushIndex.toNat) ∨ Hex str r.getVec6

/-- The string is refused with an empty id, or is a form of the one id it is read as. -/
def ReadRight (str : List Char) : Prop := ∃ r vch, setRegID str = .ok (r, vch) ∧
  (r.isEmpty ∨ Form str r ∧ (∀ s, Form str s → s = r) ∧ vch = r.getVec6)

/-- What the branches do not ask: both numbers fit (or the id comes out empty all the same), there is
a dash, and all twelve characters are digits. -/
structure Asked (str : List Char) : Prop where
  fits : ∀ first last, str = first ++ '-' :: last → isNumber first → isNumber last →
    (Nat.ofDigitChars 10 first 0 < 2 ^ 32 ∧ Nat.ofDigitChars 10 last 0 < 2 ^ 16) ∨
      (2 ^ 32 ∣ Nat.ofDigitChars 10 first 0 ∧ 2 ^ 16 ∣ Nat.ofDigitChars 10 last 0)
  dash : 3 ≤ str.length → isNumber str → 2 ^ 32 ∣ Nat.ofDigitChars 10 str 0
  hex : str.length = 12 → isSimpleRegIdStr str = false → ∀ c ∈ str, (hexDigit c).isSome

/-! ### Numbers -/

theorem isNumber_iff (str : List Char) : isNumber str = true ↔
    str ≠ [] ∧ str.length ≤ 10 ∧ ∀ c ∈ str, c.isDigit := by
  unfold isNumber
  simp
  tauto

theorem dash_not_mem {str : List Char} (h : ∀ c ∈ str, c.isDigit) : ∀ c ∈ str, c ≠ '-' := by
  rintro c hc rfl
  exact absurd (h '-' hc) (by decide)

theorem digit_le {c : Char} (h : c.isDigit) : c.toNat - '0'.toNat ≤ 9 := by
  have hc := Char.isDigit_iff_toNat.mp h
  have h0 : '0'.toNat = 48 := rfl
  have h9 : '9'.toNat = 57 := rfl
  omega

theorem ofDigitChars_lt {str : List Char} (h : ∀ c ∈ str, c.isDigit) :
    Nat.ofDigitChars 10 str 0 < 10 ^ str.length := by
  induction str with
  | nil => simp
  | cons c str ih =>
    have hc := digit_le (h c List.mem_cons_self)
    have hrest := ih fun d hd => h d (List.mem_cons_of_mem c hd)
    rw [Nat.ofDigitChars_cons, Nat.ofDigitChars_eq_ofDigitChars_zero, List.length_cons, pow_succ]
    have hmul : 10 ^ str.length * (10 * 0 + (c.toNat - '0'.toNat)) ≤ 10 ^ str.length * 9 :=
      Nat.mul_le_mul_left _ (by omega)
    omega

/-- Ten digits stay far below the largest `long`; the casts take the number modulo the field. -/
theorem atoi_toUInt32 {str : List Char} (h : isNumber str = true) :
    (atoi str).toUInt32 = UInt32.ofNat (Nat.ofDigitChars 10 str 0) := by
  obtain ⟨-, hlen, hdigits⟩ := (isNumber_iff str).mp h
  have hlt := ofDigitChars_lt hdigits
  have hpow : 10 ^ str.length ≤ 10 ^ 10 := Nat.pow_le_pow_right (by omega) hlen
  unfold atoi
  rw [min_eq_left (by omega)]
  rfl

/-! ### Dashes -/

theorem splitDash_append {first last : List Char} (h : ∀ c ∈ first, c ≠ '-') :
    splitDash (first ++ '-' :: last) = (first, last) := by
  have hp : ∀ c ∈ first, decide (c ≠ '-') = true := by
    intro c hc
    exact decide_eq_true (h c hc)
  unfold splitDash
  rw [List.dropWhile_append_of_pos hp, List.takeWhile_append_of_pos hp]
  simp

theorem splitDash_none {str : List Char} (h : ∀ c ∈ str, c ≠ '-') : splitDash str = (str, str) := by
  have hnil : str.dropWhile (· ≠ '-') = [] := by
    apply List.dropWhile_eq_nil_iff.mpr
    intro c hc
    exact decide_eq_true (h c hc)
  unfold splitDash
  rw [hnil]

/-- A string is cut at its first dash, or has none. -/
theorem splitDash_cases (str : List Char) :
    (str = (splitDash str).1 ++ '-' :: (splitDash str).2) ∨ splitDash str = (str, str) := by
  unfold splitDash
  split
  · exact .inr rfl
  · next c strEnd hdrop =>
    left
    have hne : str.dropWhile (fun c => decide (c ≠ '-')) ≠ [] := by
      rw [hdrop]
      exact List.cons_ne_nil c strEnd
    have hc := List.head_dropWhile_not (fun c => decide (c ≠ '-')) hne
    have hdash : c = '-' := by
      simp only [hdrop, List.head_cons] at hc
      simpa using hc
    have happ := List.takeWhile_append_dropWhile (p := fun c : Char => decide (c ≠ '-')) (l := str)
    rw [hdrop, hdash] at happ
    exact happ.symm

theorem dash_mem (first last : List Char) : '-' ∈ first ++ '-' :: last := by
  simp

theorem isSimpleRegIdStr_dash {first last : List Char} (hfirst : isNumber first = true)
    (hlast : isNumber last = true) : isSimpleRegIdStr (first ++ '-' :: last) = true := by
  obtain ⟨hne, -, hdigits⟩ := (isNumber_iff first).mp hfirst
  obtain ⟨hne', -, -⟩ := (isNumber_iff last).mp hlast
  have h1 := List.length_pos_iff.mpr hne
  have h2 := List.length_pos_iff.mpr hne'
  unfold isSimpleRegIdStr
  rw [splitDash_append (dash_not_mem hdigits), if_pos (by simp; omega), hfirst, hlast]
  rfl

theorem isSimpleRegIdStr_number {str : List Char} (h : isNumber str = true) (hlen : 3 ≤ str.length) :
    isSimpleRegIdStr str = true := by
  unfold isSimpleRegIdStr
  rw [splitDash_none (dash_not_mem ((isNumber_iff str).mp h).2.2), if_pos hlen, h]
  rfl

theorem isSimpleRegIdStr_cases {str : List Char} (h : isSimpleRegIdStr str = true) :
    (∃ first last, str = first ++ '-' :: last ∧ isNumber first = true ∧ isNumber last = true) ∨
      (3 ≤ str.length ∧ isNumber str = true) := by
  unfold isSimpleRegIdStr at h
  split at h
  · next hlen =>
    obtain ⟨hfirst, hlast⟩ := Bool.and_eq_true_iff.mp h
    rcases splitDash_cases str with hsplit | hsplit
    · exact .inl ⟨_, _, hsplit, hfirst, hlast⟩
    · rw [hsplit] at hfirst
      exact .inr ⟨hlen, hfirst⟩
  · cases h

theorem setRegID_dash {first last : List Char} (hfirst : isNumber first = true)
    (hlast : isNumber last = true) : ∃ r, setRegID (first ++ '-' :: last) = .ok (r, r.getVec6) ∧
      r.uHeight = UInt32.ofNat (Nat.ofDigitChars 10 first 0) ∧
      r.ushIndex = (UInt32.ofNat (Nat.ofDigitChars 10 last 0)).toUInt16 := by
  have hdigits := ((isNumber_iff first).mp hfirst).2.2
  unfold setRegID
  rw [if_pos (isSimpleRegIdStr_dash hfirst hlast), splitDash_append (dash_not_mem hdigits),
    atoi_toUInt32 hfirst, atoi_toUInt32 hlast]
  exact ⟨_, rfl, rfl, rfl⟩

theorem setRegID_number {str : List Char} (h : isNumber str = true) (hlen : 3 ≤ str.length) :
    ∃ r, setRegID str = .ok (r, r.getVec6) ∧ r.uHeight = UInt32.ofNat (Nat.ofDigitChars 10 str 0) ∧
      r.ushIndex = (UInt32.ofNat (Nat.ofDigitChars 10 str 0)).toUInt16 := by
  have hdigits := ((isNumber_iff str).mp h).2.2
  unfold setRegID
  rw [if_pos (isSimpleRegIdStr_number h hlen), splitDash_none (dash_not_mem hdigits), atoi_toUInt32 h]
  exact ⟨_, rfl, rfl, rfl⟩

/-! ### Hexadecimal digits -/

theorem hexDigit_lt {c : Char} {n : ℕ} (h : hexDigit c = some n) : n < 16 := by
  unfold hexDigit at h
  split at h
  · cases h
    omega
  · split at h
    · cases h
      omega
    · split at h
      · cases h
        omega
      · cases h

theorem not_isspace_of_hexDigit {c : Char} (h : (hexDigit c).isSome) : isspace c.toNat = false := by
  by_contra hspace
  have hle : c.toNat ≤ 32 := by
    unfold isspace at hspace
    simp at hspace
    omega
  have hnone : hexDigit c = none := by
    unfold hexDigit
    rw [if_neg (by omega), if_neg (by omega), if_neg (by omega)]
  rw [hnone] at h
  cases h

/-- A byte takes two characters. -/
theorem parseHex_length (str : List Char) : 2 * (parseHex str).length ≤ str.length := by
  induction str using parseHex.induct with
  | case1 => simp [parseHex]
  | case2 c => simp [parseHex]
  | case3 c d rest hspace ih =>
    rw [parseHex, if_pos hspace]
    simp only [List.length_cons] at ih ⊢
    omega
  | case4 c d rest hspace high low hlow hhigh ih =>
    rw [parseHex, if_neg hspace, hhigh, hlow]
    simp only [List.length_cons]
    omega
  | case5 c d rest hspace hno =>
    rw [parseHex, if_neg hspace]
    split
    · next high low hhigh hlow => exact absurd hlow (hno high low hhigh)
    · simp

/-- With as many bytes as pairs nothing was passed over. -/
theorem hex_parseHex {str : List Char} (h : 2 * (parseHex str).length = str.length) :
    Hex str (parseHex str) := by
  induction str using parseHex.induct with
  | case1 => simp [parseHex, Hex]
  | case2 c => simp [parseHex] at h
  | case3 c d rest hspace ih =>
    rw [parseHex, if_pos hspace] at h
    have hlen := parseHex_length (d :: rest)
    simp only [List.length_cons] at h hlen
    omega
  | case4 c d rest hspace high low hlow hhigh ih =>
    rw [parseHex, if_neg hspace, hhigh, hlow] at h ⊢
    simp only [List.length_cons] at h
    have hh := hexDigit_lt hhigh
    have hl := hexDigit_lt hlow
    have hbyte : (UInt8.ofNat (high * 16 + low)).toNat = high * 16 + low := by
      rw [UInt8.toNat_ofNat']
      omega
    refine ⟨?_, ?_, ih (by omega)⟩
    · rw [hhigh, hbyte]
      congr 1
      omega
    · rw [hlow, hbyte]
      congr 1
      omega
  | case5 c d rest hspace hno =>
    rw [parseHex, if_neg hspace] at h
    split at h
    · next high low hhigh hlow => exact absurd hlow (hno high low hhigh)
    · simp at h

theorem hex_digits {str : List Char} {vch : Bytes} (h : Hex str vch) : ∀ c ∈ str, (hexDigit c).isSome := by
  induction str, vch using Hex.induct with
  | case1 => exact nofun
  | case2 c d str b vch ih =>
    obtain ⟨hc, hd, hrest⟩ := h
    intro e he
    rcases List.mem_cons.mp he with rfl | he
    · rw [hc]
      rfl
    · rcases List.mem_cons.mp he with rfl | he
      · rw [hd]
        rfl
      · exact ih hrest e he
  | case3 str vch h1 h2 =>
    rw [Hex] at h
    · exact h.elim
    · exact h1
    · exact h2

theorem hex_length {str : List Char} {vch : Bytes} (h : Hex str vch) : str.length = 2 * vch.length := by
  induction str, vch using Hex.induct with
  | case1 => rfl
  | case2 c d str b vch ih =>
    have hlen := ih h.2.2
    simp only [List.length_cons]
    omega
  | case3 str vch h1 h2 =>
    rw [Hex] at h
    · exact h.elim
    · exact h1
    · exact h2

/-- Pairs of digits are parsed as they are. -/
theorem parseHex_of_hex {str : List Char} {vch : Bytes} (h : Hex str vch) : parseHex str = vch := by
  induction str, vch using Hex.induct with
  | case1 => rfl
  | case2 c d str b vch ih =>
    obtain ⟨hc, hd, hrest⟩ := h
    have hspace : isspace c.toNat = false := not_isspace_of_hexDigit (by rw [hc]; rfl)
    have hbyte : b.toNat / 16 * 16 + b.toNat % 16 = b.toNat := Nat.div_add_mod' _ _
    rw [parseHex, hspace, hc, hd, ih hrest]
    simp [hbyte]
  | case3 str vch h1 h2 =>
    rw [Hex] at h
    · exact h.elim
    · exact h1
    · exact h2

theorem parseHex_of_digits {k : ℕ} {str : List Char} (h : ∀ c ∈ str, (hexDigit c).isSome)
    (hlen : str.length = 2 * k) : (parseHex str).length = k := by
  induction k generalizing str with
  | zero =>
    rw [List.length_eq_zero_iff.mp hlen]
    rfl
  | succ k ih =>
    obtain ⟨c, d, rest, rfl⟩ : ∃ c d rest, str = c :: d :: rest := by
      cases str with
      | nil => simp at hlen
      | cons c str =>
        cases str with
        | nil =>
          simp only [List.length_cons, List.length_nil] at hlen
          omega
        | cons d rest => exact ⟨c, d, rest, rfl⟩
    have hc := h c (by simp)
    obtain ⟨high, hhigh⟩ := Option.isSome_iff_exists.mp hc
    obtain ⟨low, hlow⟩ := Option.isSome_iff_exists.mp (h d (by simp))
    simp only [List.length_cons] at hlen
    have hrest := ih (fun e he => h e (by simp [he])) (show rest.length = 2 * k by omega)
    rw [parseHex, not_isspace_of_hexDigit hc, hhigh, hlow]
    simp [hrest]

/-! ### Forms -/

theorem hex_inj {str : List Char} {vch vch' : Bytes} (h : Hex str vch) (h' : Hex str vch') : vch = vch' :=
  (parseHex_of_hex h).symm.trans (parseHex_of_hex h')

theorem not_hex_of_dash {str : List Char} (hdash : '-' ∈ str) (vch : Bytes) : ¬ Hex str vch :=
  fun h => absurd (hex_digits h '-' hdash) (by decide)

theorem dash_cut {first last first' last' : List Char} (h : ∀ c ∈ first, c ≠ '-')
    (h' : ∀ c ∈ first', c ≠ '-') (heq : first ++ '-' :: last = first' ++ '-' :: last') :
    first = first' ∧ last = last' := by
  have hsplit : splitDash (first ++ '-' :: last) = (first, last) := splitDash_append h
  rw [heq, splitDash_append h'] at hsplit
  exact ⟨(Prod.mk.inj hsplit).1.symm, (Prod.mk.inj hsplit).2.symm⟩

/-- A string is a form of one id at most. -/
theorem Form.unique {str : List Char} {r s : CRegID} (hr : Form str r) (hs : Form str s) : r = s := by
  rcases hr with ⟨first, last, heq, hfirst, hlast⟩ | hhex
  · rcases hs with ⟨first', last', heq', hfirst', hlast'⟩ | hhex'
    · obtain ⟨rfl, rfl⟩ := dash_cut (dash_not_mem hfirst.2.1) (dash_not_mem hfirst'.2.1)
        (heq.symm.trans heq')
      have hheight : r.uHeight = s.uHeight := UInt32.toNat.inj (hfirst.2.2.symm.trans hfirst'.2.2)
      have hindex : r.ushIndex = s.ushIndex := UInt16.toNat.inj (hlast.2.2.symm.trans hlast'.2.2)
      cases r
      cases s
      cases hheight
      cases hindex
      rfl
    · exact absurd hhex' (not_hex_of_dash (heq ▸ dash_mem first last) _)
  · rcases hs with ⟨first', last', heq', -, -⟩ | hhex'
    · exact absurd hhex (not_hex_of_dash (heq' ▸ dash_mem first' last') _)
    · exact getVec6_inj (hex_inj hhex hhex')

theorem readRight_of_eq {str : List Char} {r : CRegID} {vch : Bytes} (h : setRegID str = .ok (r, vch)) :
    ReadRight str ↔ r.isEmpty ∨ Form str r ∧ vch = r.getVec6 := by
  constructor
  · rintro ⟨s, vch', h', hright⟩
    obtain ⟨rfl, rfl⟩ := Prod.mk.inj (Except.ok.inj (h.symm.trans h'))
    exact hright.imp_right fun hform => ⟨hform.1, hform.2.2⟩
  · intro hright
    exact ⟨r, vch, h, hright.imp_right fun hform => ⟨hform.1, fun s hs => hs.unique hform.1, hform.2⟩⟩

theorem isEmpty_iff (r : CRegID) : r.isEmpty = true ↔ r.uHeight.toNat = 0 ∧ r.ushIndex.toNat = 0 := by
  unfold isEmpty
  rw [Bool.and_eq_true_iff, beq_iff_eq, beq_iff_eq, ← UInt32.toNat_inj, ← UInt16.toNat_inj]
  rfl

theorem ofVec6_of_length {vch : Bytes} (h : vch.length = 6) : ∃ r, ofVec6 vch = some r := by
  have htakes : Codec.Takes (Codec.seq Codec.u32 fun _ => Codec.u16).read (4 + (2 + 0)) :=
    Codec.takes_u32.bind fun _ => ((Codec.takes_readLe 2).map _).bind fun _ => Codec.Takes.pure _
  obtain ⟨a, ha⟩ := htakes vch (le_of_eq h.symm)
  unfold ofVec6
  rw [if_pos h, ha]
  exact ⟨_, rfl⟩

/-- Each branch of the parser that takes a string, and what its numbers come to. -/
theorem readRight_dash {first last : List Char} (hfirst : isNumber first = true)
    (hlast : isNumber last = true) : ReadRight (first ++ '-' :: last) ↔
      (Nat.ofDigitChars 10 first 0 < 2 ^ 32 ∧ Nat.ofDigitChars 10 last 0 < 2 ^ 16) ∨
        (2 ^ 32 ∣ Nat.ofDigitChars 10 first 0 ∧ 2 ^ 16 ∣ Nat.ofDigitChars 10 last 0) := by
  obtain ⟨r, hr, hheight, hindex⟩ := setRegID_dash hfirst hlast
  obtain ⟨hne, -, hdigits⟩ := (isNumber_iff first).mp hfirst
  obtain ⟨hne', -, hdigits'⟩ := (isNumber_iff last).mp hlast
  generalize hh : Nat.ofDigitChars 10 first 0 = height at *
  generalize hi : Nat.ofDigitChars 10 last 0 = index at *
  have hheight' : r.uHeight.toNat = height % 2 ^ 32 := by
    rw [hheight, UInt32.toNat_ofNat']
  have hindex' : r.ushIndex.toNat = index % 2 ^ 16 := by
    rw [hindex, UInt32.toNat_toUInt16, UInt32.toNat_ofNat']
    omega
  have hform : Form (first ++ '-' :: last) r ↔ height < 2 ^ 32 ∧ index < 2 ^ 16 := by
    constructor
    · rintro (⟨first', last', heq, hf, hl⟩ | hhex)
      · obtain ⟨rfl, rfl⟩ := dash_cut (dash_not_mem hdigits) (dash_not_mem hf.2.1) heq
        have h1 := hf.2.2
        have h2 := hl.2.2
        omega
      · exact absurd hhex (not_hex_of_dash (dash_mem first last) _)
    · rintro ⟨h1, h2⟩
      refine .inl ⟨first, last, rfl, ⟨hne, hdigits, ?_⟩, hne', hdigits', ?_⟩
      · omega
      · omega
  rw [readRight_of_eq hr, isEmpty_iff, hform, and_iff_left rfl]
  omega

theorem readRight_number {str : List Char} (h : isNumber str = true) (hlen : 3 ≤ str.length) :
    ReadRight str ↔ 2 ^ 32 ∣ Nat.ofDigitChars 10 str 0 := by
  obtain ⟨r, hr, hheight, hindex⟩ := setRegID_number h hlen
  obtain ⟨-, hlen', hdigits⟩ := (isNumber_iff str).mp h
  have hform : ¬ Form str r := by
    rintro (⟨first, last, rfl, -, -⟩ | hhex)
    · exact dash_not_mem hdigits '-' (dash_mem first last) rfl
    · have h12 := hex_length hhex
      rw [length_getVec6] at h12
      omega
  have hheight' : r.uHeight.toNat = Nat.ofDigitChars 10 str 0 % 2 ^ 32 := by
    rw [hheight, UInt32.toNat_ofNat']
  have hindex' : r.ushIndex.toNat = Nat.ofDigitChars 10 str 0 % 2 ^ 32 % 2 ^ 16 := by
    rw [hindex, UInt32.toNat_toUInt16, UInt32.toNat_ofNat']
  rw [readRight_of_eq hr, isEmpty_iff]
  constructor
  · rintro (hempty | hf)
    · omega
    · exact absurd hf.1 hform
  · intro hdvd
    left
    omega

theorem readRight_hex {str : List Char} (hsimple : isSimpleRegIdStr str = false) (hlen : str.length = 12) :
    ReadRight str ↔ ∀ c ∈ str, (hexDigit c).isSome := by
  have hread : setRegID str = match ofVec6 (parseHex str) with
      | some r => .ok (r, parseHex str)
      | none => Exec.throw "read past the end of m_vchRegID" := by
    unfold setRegID
    rw [if_neg (by rw [hsimple]; exact Bool.false_ne_true), if_pos hlen]
  constructor
  · rintro ⟨r, vch, h, -⟩
    rw [hread] at h
    cases hvch : ofVec6 (parseHex str) with
    | none =>
      rw [hvch] at h
      cases h
    | some s =>
      have hsix : (parseHex str).length = 6 := by
        rw [← getVec6_ofVec6 hvch, length_getVec6]
      exact hex_digits (hex_parseHex (by omega))
  · intro hdigits
    have hsix := parseHex_of_digits hdigits (k := 6) hlen
    obtain ⟨r, hr⟩ := ofVec6_of_length hsix
    rw [hr] at hread
    have hvec := getVec6_ofVec6 hr
    refine (readRight_of_eq hread).mpr (.inr ⟨.inr ?_, hvec.symm⟩)
    rw [hvec]
    exact hex_parseHex (by omega)

theorem setRegID_toString (r : CRegID) :
    setRegID r.toString = .ok (r, if r.isEmpty then [] else r.getVec6) := by
  unfold toString
  by_cases hempty : r.isEmpty
  · obtain ⟨h1, h2⟩ := (isEmpty_iff r).mp hempty
    have hnull : r = null := by
      have hheight : r.uHeight = 0 := UInt32.toNat.inj h1
      have hindex : r.ushIndex = 0 := UInt16.toNat.inj h2
      cases r
      cases hheight
      cases hindex
      rfl
    rw [if_pos hempty, if_pos hempty, hnull]
    rfl
  · rw [if_neg hempty, if_neg hempty]
    have hnumber : ∀ n < 10 ^ 10, isNumber (Nat.toDigits 10 n) = true := by
      intro n hn
      rw [isNumber_iff]
      refine ⟨Nat.toDigits_ne_nil, (Nat.length_toDigits_le_iff (by omega) (by omega)).mpr hn, ?_⟩
      intro c hc
      exact Nat.isDigit_of_mem_toDigits (by omega) (le_refl 10) hc
    have hh := r.uHeight.toNat_lt
    have hi := r.ushIndex.toNat_lt
    obtain ⟨s, hs, hheight, hindex⟩ := setRegID_dash (hnumber r.uHeight.toNat (by omega))
      (hnumber r.ushIndex.toNat (by omega))
    rw [Nat.ofDigitChars_ten_toDigits] at hheight hindex
    have hsr : s = r := by
      have h1 : s.uHeight = r.uHeight := by
        rw [hheight]
        simp
      have h2 : s.ushIndex = r.ushIndex := by
        apply UInt16.toNat.inj
        rw [hindex, UInt32.toNat_toUInt16, UInt32.toNat_ofNat']
        omega
      cases s
      cases r
      cases h1
      cases h2
      rfl
    rw [hs, hsr]

/-- `CRegID(string)` refuses a string or reads it as the one id it is a form of exactly when the
string has what its branches do not ask for; what `ToString` and `GetVec6` give is always read back. -/
theorem setRegID_right_iff (str : List Char) (r : CRegID) :
    (ReadRight str ↔ Asked str) ∧
      (∃ vch, setRegID r.toString = .ok (r, vch)) ∧ ofVec6 r.getVec6 = some r := by
  refine ⟨?_, ⟨_, setRegID_toString r⟩, ofVec6_getVec6 r⟩
  cases hsimple : isSimpleRegIdStr str with
  | true =>
    rcases isSimpleRegIdStr_cases hsimple with ⟨first, last, rfl, hfirst, hlast⟩ | ⟨hlen, hnumber⟩
    · have hdigits := ((isNumber_iff first).mp hfirst).2.2
      rw [readRight_dash hfirst hlast]
      constructor
      · intro h
        refine ⟨?_, ?_, ?_⟩
        · intro first' last' heq hfirst' hlast'
          obtain ⟨rfl, rfl⟩ := dash_cut (dash_not_mem hdigits)
            (dash_not_mem ((isNumber_iff first').mp hfirst').2.2) heq
          exact h
        · intro _ hnumber
          have hall := ((isNumber_iff _).mp hnumber).2.2
          exact absurd rfl (dash_not_mem hall '-' (dash_mem first last))
        · intro _ hno
          rw [hsimple] at hno
          cases hno
      · intro h
        exact h.fits first last rfl hfirst hlast
    · have hdigits := ((isNumber_iff str).mp hnumber).2.2
      rw [readRight_number hnumber hlen]
      constructor
      · intro h
        refine ⟨?_, fun _ _ => h, ?_⟩
        · rintro first last rfl _ _
          exact absurd rfl (dash_not_mem hdigits '-' (dash_mem first last))
        · intro _ hno
          rw [hsimple] at hno
          cases hno
      · intro h
        exact h.dash hlen hnumber
  | false =>
    have hfits : ∀ first last, str = first ++ '-' :: last → isNumber first → ¬ isNumber last := by
      rintro first last rfl hfirst hlast
      rw [isSimpleRegIdStr_dash hfirst hlast] at hsimple
      cases hsimple
    have hdash : 3 ≤ str.length → ¬ isNumber str := by
      intro hlen hnumber
      rw [isSimpleRegIdStr_number hnumber hlen] at hsimple
      cases hsimple
    by_cases hlen : str.length = 12
    · rw [readRight_hex hsimple hlen]
      constructor
      · intro h
        exact ⟨fun first last heq hf hl => absurd hl (hfits first last heq hf),
          fun h3 hn => absurd hn (hdash h3), fun _ _ => h⟩
      · intro h
        exact h.hex hlen hsimple
    · have hnull : setRegID str = .ok (null, []) := by
        unfold setRegID
        rw [if_neg (by rw [hsimple]; exact Bool.false_ne_true), if_neg hlen]
      refine iff_of_true ((readRight_of_eq hnull).mpr (.inl rfl)) ?_
      exact ⟨fun first last heq hf hl => absurd hl (hfits first last heq hf),
        fun h3 hn => absurd hn (hdash h3), fun h12 => absurd h12 hlen⟩

/-- A number without a dash names the account at that height and index, and an index too large
another one. -/
theorem setRegID_noDash : ¬ ReadRight ['1', '2', '3'] ∧ ¬ ReadRight ['7', '-', '6', '5', '5', '3', '7'] := by
  constructor
  · rw [readRight_number (by decide) (by decide)]
    decide
  · rw [show ['7', '-', '6', '5', '5', '3', '7'] = ['7'] ++ '-' :: ['6', '5', '5', '3', '7'] from rfl,
      readRight_dash (by decide) (by decide)]
    decide

end CRegID

end Dacrs
