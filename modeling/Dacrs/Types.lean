import Dacrs.Lib.Codec
import Mathlib.Data.Finmap

/-!
# Identifiers and constants

The three ways an account is named (`CRegID`, `CKeyID`, `CPubKey`), the variant
`CUserID` over them, and its form in a serialized transaction: one byte vector
whose length tells the alternative apart (`CID`).
-/

open Codec (Bytes)

namespace Dacrs

abbrev Uint256 := BitVec 256
abbrev Uint160 := BitVec 160

/-- `g_sMaxSize` of serialize.h. -/
def maxSize : Nat := 0x02000000

/-- `vector<unsigned char>` on the wire. -/
abbrev vchCodec : Codec Bytes := Codec.vecBytes maxSize

/-- A byte string within the size limit can be written. -/
theorem vchCodec_fits {v : Bytes} (h : v.length ≤ maxSize) : vchCodec.Fits v :=
  ⟨⟨h, lt_of_le_of_lt h (by decide)⟩, fun _ _ => trivial⟩

abbrev uint256Codec : Codec Uint256 := Codec.bitVec 32
abbrev uint160Codec : Codec Uint160 := Codec.bitVec 20

@[simp] theorem length_uint256Codec_write (h : Uint256) : (uint256Codec.write h).length = 32 :=
  Codec.length_leBytes 32 h.toNat

@[simp] theorem length_uint160Codec_write (h : Uint160) : (uint160Codec.write h).length = 20 :=
  Codec.length_leBytes 20 h.toNat

/-- A `VARINT` of an unsigned 64-bit field. -/
def varUInt64 : Codec UInt64 :=
  (Codec.varNat 64).imap UInt64.ofNat UInt64.toNat (fun _ => True)
    fun a _ => ⟨a.toNat_lt, by simp⟩

def varUInt32 : Codec UInt32 :=
  (Codec.varNat 32).imap UInt32.ofNat UInt32.toNat (fun _ => True)
    fun a _ => ⟨a.toNat_lt, by simp⟩

def varUInt16 : Codec UInt16 :=
  (Codec.varNat 16).imap UInt16.ofNat UInt16.toNat (fun _ => True)
    fun a _ => ⟨a.toNat_lt, by simp⟩

/-- `WriteVarInt` on a signed type: a negative value stops at its first seven bits. -/
def writeVarInt (n : ℤ) : Bytes :=
  if n < 0 then [UInt8.ofNat (n % 128).toNat] else Codec.writeVarNat n.toNat

/-- A `VARINT` of an `int` field.  Only nonnegative values survive. -/
def varInt32 : Codec ℤ where
  write := writeVarInt
  read := (fun n : Nat => (BitVec.ofNat 32 n).toInt) <$> (Codec.varNat 32).read
  Fits n := 0 ≤ n ∧ n < 2 ^ 31
  read_write n rest h := by
    have hr := (Codec.varNat 32).read_write n.toNat rest (by show n.toNat < 2 ^ 32; omega)
    have hw : writeVarInt n = (Codec.varNat 32).write n.toNat := by
      rw [writeVarInt, if_neg (by omega)]
      rfl
    have hv : (BitVec.ofNat 32 n.toNat).toInt = n := by
      simp only [BitVec.toInt, BitVec.toNat_ofNat]
      omega
    rw [hw]
    show (StateT.map _ (Codec.varNat 32).read) _ = _
    simp [StateT.map, hr, hv]

/-! ## Account identifiers -/

/-- Position of the registering transaction: block height and index in the block. -/
structure CRegID where
  uHeight : UInt32
  ushIndex : UInt16
deriving DecidableEq, Inhabited

namespace CRegID

/-- `CRegID()`, what `clean` leaves. -/
def null : CRegID := ⟨0, 0⟩

def isEmpty (r : CRegID) : Bool := r.uHeight == 0 && r.ushIndex == 0

/-- The six raw bytes (`GetVec6`). -/
def getVec6 (r : CRegID) : Bytes := Codec.u32.write r.uHeight ++ Codec.u16.write r.ushIndex

/-- `CRegID(const vector<unsigned char> &)`; the source asserts six bytes. -/
def ofVec6 (vch : Bytes) : Option CRegID :=
  if vch.length = 6 then
    (Codec.seq Codec.u32 fun _ => Codec.u16).read vch |>.map fun p => ⟨p.1.1, p.1.2⟩
  else none

/-- Serialized as two `VARINT`s. -/
def codec : Codec CRegID :=
  (Codec.seq varUInt32 fun _ => varUInt16).imap (fun p => ⟨p.1, p.2⟩) (fun r => (r.uHeight, r.ushIndex))
    (fun _ => True) fun _ _ => ⟨⟨trivial, trivial⟩, rfl⟩

end CRegID

theorem CRegID.length_getVec6 (r : CRegID) : r.getVec6.length = 6 := by
  simp [CRegID.getVec6, Codec.u32, Codec.u16, Codec.raw, Codec.imap, Codec.leNat]

theorem CRegID.ofVec6_getVec6 (r : CRegID) : CRegID.ofVec6 r.getVec6 = some r := by
  have hr := (Codec.seq Codec.u32 fun _ => Codec.u16).read_write_nil (r.uHeight, r.ushIndex)
    ⟨trivial, trivial⟩
  rw [CRegID.ofVec6, if_pos r.length_getVec6]
  show Option.map _ ((Codec.seq Codec.u32 fun _ => Codec.u16).read _) = some r
  simp only [CRegID.getVec6]
  rw [show Codec.u32.write r.uHeight ++ Codec.u16.write r.ushIndex
    = (Codec.seq Codec.u32 fun _ => Codec.u16).write (r.uHeight, r.ushIndex) from rfl, hr]
  rfl

/-- Six bytes are the registration id read from them. -/
theorem CRegID.getVec6_ofVec6 {v : Bytes} {r : CRegID} (h : CRegID.ofVec6 v = some r) :
    r.getVec6 = v := by
  unfold CRegID.ofVec6 at h
  split at h
  · next hlen =>
    obtain ⟨⟨⟨uHeight, ushIndex⟩, rest⟩, hread, rfl⟩ := Option.map_eq_some_iff.mp h
    change (Codec.u32.read >>= fun a => Codec.u16.read >>= fun b => pure (a, b)) v = _ at hread
    obtain ⟨⟨a, s⟩, ha, hread⟩ := Option.bind_eq_some_iff.mp hread
    obtain ⟨⟨b, t⟩, hb, hread⟩ := Option.bind_eq_some_iff.mp hread
    obtain ⟨hpair, rfl⟩ := Prod.mk.inj (Option.some.inj hread)
    obtain ⟨rfl, rfl⟩ := Prod.mk.inj hpair
    have h4 := Codec.write_readRaw UInt32.toNat
      (fun n hn => UInt32.toNat_ofNat_of_lt' (by simpa using hn)) ha
    have h2 := Codec.write_readRaw UInt16.toNat
      (fun n hn => UInt16.toNat_ofNat_of_lt' (by simpa using hn)) hb
    have hrest : t = [] := by
      refine List.length_eq_zero_iff.mp ?_
      have h4len := congrArg List.length h4
      have h2len := congrArg List.length h2
      simp only [List.length_append, Codec.length_leBytes] at h4len h2len
      omega
    rw [h4, h2, hrest, List.append_nil]
    rfl
  · cases h

theorem CRegID.getVec6_inj {r s : CRegID} (h : r.getVec6 = s.getVec6) : r = s := by
  have hr := r.ofVec6_getVec6
  rw [h, s.ofVec6_getVec6] at hr
  exact (Option.some.inj hr).symm

/-- Hash of a public key or of a contract's registration id; 0 is no key. -/
abbrev CKeyID := Uint160

/-- `CPubKey` holds nothing or 33 bytes that start with 2 or 3. -/
structure CPubKey where
  vch : Bytes
  wf : vch = [] ∨ (vch.length = 33 ∧ (vch.head? = some 2 ∨ vch.head? = some 3))
deriving DecidableEq

namespace CPubKey

/-- `CPubKey()`. -/
def invalid : CPubKey := ⟨[], .inl rfl⟩

instance : Inhabited CPubKey := ⟨invalid⟩

/-- `CPubKey::Set`: any other byte string invalidates. -/
def ofBytes (v : Bytes) : CPubKey :=
  if h : v.length = 33 ∧ (v.head? = some 2 ∨ v.head? = some 3) then ⟨v, .inr h⟩ else invalid

def size (p : CPubKey) : Nat := p.vch.length

/-- `IsValid`: the length is 33. -/
def isValid (p : CPubKey) : Bool := p.size == 33

end CPubKey

/-- `boost::variant<CNullID, CRegID, CKeyID, CPubKey>`. -/
inductive CUserID where
  | null
  | regID (r : CRegID)
  | keyID (k : CKeyID)
  | pubKey (p : CPubKey)
deriving DecidableEq, Inhabited

/-! ## The byte form of a user id -/

/-- `CID::Set`. -/
def CUserID.toVector : CUserID → Bytes
  | null => []
  | regID r => CRegID.codec.write r
  | keyID k => uint160Codec.write k
  | pubKey p => p.vch

/-- `CID::GetUserId`; `none` is the exception. -/
def CUserID.ofVector (v : Bytes) : Option CUserID :=
  if 1 < v.length ∧ v.length ≤ 10 then
    (CRegID.codec.read v).map fun p => .regID p.1
  else if v.length = 33 then some (.pubKey (CPubKey.ofBytes v))
  else if v.length = 20 then (uint160Codec.read v).map fun p => .keyID p.1
  else if v = [] then some .null
  else none

end Dacrs
