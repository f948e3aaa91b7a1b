import Dacrs.CallSafe

/-!
# Struct decompression

`Decompress` turns the variable-length numbers of a contract into fixed-width ones, as a format of
type bytes tells it.  `decompress_iff` says for which formats it keeps to its buffers, and for which
it returns every field as it was written.
-/

open Codec (Bytes)

namespace Dacrs

namespace CVm8051

open Except (avoids_ok)

/-! ## Formats with their values -/

/-- The numbers of `COMPRESS_TYPE`. -/
inductive NumberType
  | u16
  | i16
  | u32
  | i32
  | u64
  | i64
  deriving DecidableEq

namespace NumberType

def tag : NumberType → UInt8
  | u16 => 0
  | i16 => 1
  | u32 => 2
  | i32 => 3
  | u64 => 4
  | i64 => 5

/-- The width the name declares, in bytes. -/
def width : NumberType → ℕ
  | u16 => 2
  | i16 => 2
  | u32 => 4
  | i32 => 4
  | u64 => 8
  | i64 => 8

/-- One more than the largest number of the type. -/
def bound : NumberType → ℕ
  | u16 => 2 ^ 16
  | i16 => 2 ^ 15
  | u32 => 2 ^ 32
  | i32 => 2 ^ 31
  | u64 => 2 ^ 64
  | i64 => 2 ^ 63

theorem tag_ne_six (type : NumberType) : type.tag ≠ 6 := by
  cases type <;> decide

theorem tag_le_six (type : NumberType) : ¬ 6 < type.tag := by
  cases type <;> decide

end NumberType

/-- A field of a well-formed format and its value: a number of a declared type, or a count of
bytes. -/
inductive Field
  | number (type : NumberType) (i : ℕ) (hi : i < type.bound)
  | bytes (vch : Bytes) (hlen : vch.length < 256)

namespace Field

def format : Field → Bytes
  | number type _ _ => [type.tag]
  | bytes vch _ => [6, UInt8.ofNat vch.length]

/-- The field as a contract holds it. -/
def contact : Field → Bytes
  | number _ i _ => Codec.writeVarNat i
  | bytes vch _ => vch.flatMap fun b => Codec.writeVarNat b.toNat

/-- The field at its declared width. -/
def fixed : Field → Bytes
  | number type i _ => Codec.leBytes type.width i
  | bytes vch _ => vch

/-- A number of the type that is read as a `short`. -/
def IsU32 : Field → Prop
  | number type _ _ => type = NumberType.u32
  | bytes _ _ => False

end Field

/-! ## The end of the format -/

/-- The numbers a format asks for before it ends in the type of a byte string without a count;
`none` when it does not end so, or an unknown type stops it first. -/
def danglingAfter : Bytes → Option ℕ
  | [] => none
  | 6 :: [] => some 0
  | 6 :: te :: format => (danglingAfter format).map (te.toNat + ·)
  | item :: format => if 6 < item then none else (danglingAfter format).map (1 + ·)

/-- The numbers of a contract: each ends at a byte without the continuation bit. -/
def numbersIn (contact : Bytes) : ℕ := contact.countP fun b => b.toNat < 128

/-- The contract runs out of numbers before the format runs out of types. -/
def EndsInTime (format contact : Bytes) : Prop := ∀ n, danglingAfter format = some n → numbersIn contact < n

theorem inflate_numbersIn (bits : ℕ) (contact : Bytes) :
    (inflate bits contact = none ↔ numbersIn contact = 0) ∧
      ∀ vch rest, inflate bits contact = some (vch, rest) → numbersIn contact = numbersIn rest + 1 := by
  have hcount := Codec.readVarNatGo_count bits 0 contact
  constructor
  · exact Option.map_eq_none_iff.trans hcount.1
  · intro vch rest h
    obtain ⟨⟨n, rest'⟩, hread, heq⟩ := Option.map_eq_some_iff.mp h
    have hrest : rest' = rest := (Prod.mk.inj heq).2
    rw [← hrest]
    exact hcount.2 n rest' hread

theorem inflateBytes_numbersIn (n : ℕ) (contact : Bytes) :
    (inflateBytes n contact = none ↔ numbersIn contact < n) ∧
      ∀ vch rest, inflateBytes n contact = some (vch, rest) → numbersIn contact = numbersIn rest + n := by
  induction n generalizing contact with
  | zero =>
    constructor
    · simp [inflateBytes]
    · rintro vch rest ⟨⟩
      rfl
  | succ n ih =>
    obtain ⟨hnone, hsome⟩ := inflate_numbersIn 8 contact
    rw [inflateBytes]
    cases hone : inflate 8 contact with
    | none =>
      have hzero := hnone.mp hone
      constructor
      · refine iff_of_true rfl ?_
        omega
      · rintro vch rest ⟨⟩
    | some p =>
      obtain ⟨vch, contact'⟩ := p
      have hcount := hsome vch contact' hone
      obtain ⟨hnone', hsome'⟩ := ih contact'
      show ((inflateBytes n contact').bind _ = none ↔ _) ∧ ∀ _ _, (inflateBytes n contact').bind _ = _ → _
      cases hmore : inflateBytes n contact' with
      | none =>
        have hlt := hnone'.mp hmore
        constructor
        · refine iff_of_true rfl ?_
          omega
        · rintro vch rest ⟨⟩
      | some q =>
        obtain ⟨more, rest⟩ := q
        have hcount' := hsome' more rest hmore
        constructor
        · refine iff_of_false nofun ?_
          omega
        · rintro _ _ ⟨⟩
          omega

theorem danglingAfter_number {item : UInt8} (h6 : item ≠ 6) (format : Bytes) :
    danglingAfter (item :: format) = if 6 < item then none else (danglingAfter format).map (1 + ·) := by
  rw [danglingAfter]
  · exact fun h => absurd h h6
  · exact fun _ _ h => absurd h h6

/-- After `n` numbers are taken the rest of the format decides. -/
theorem endsInTime_map {n : ℕ} {found : Option ℕ} {contact rest : Bytes}
    (hcount : numbersIn contact = numbersIn rest + n) :
    (∀ m, found.map (n + ·) = some m → numbersIn contact < m) ↔ ∀ m, found = some m → numbersIn rest < m := by
  constructor
  · rintro h m rfl
    have hlt := h (n + m) rfl
    omega
  · intro h m hm
    obtain ⟨k, hk, rfl⟩ := Option.map_eq_some_iff.mp hm
    have hlt := h k hk
    omega

theorem endsInTime_short {n : ℕ} (found : Option ℕ) {contact : Bytes} (hcount : numbersIn contact < n) :
    ∀ m, found.map (n + ·) = some m → numbersIn contact < m := by
  intro m hm
  obtain ⟨k, -, rfl⟩ := Option.map_eq_some_iff.mp hm
  omega

theorem formatEnds_iff (format contact : Bytes) : FormatEnds format contact ↔ EndsInTime format contact := by
  unfold EndsInTime
  induction format, contact using decompress.induct with
  | case1 contact => simp [FormatEnds, danglingAfter]
  | case2 contact =>
    refine iff_of_false not_false ?_
    intro h
    have hlt := h 0 rfl
    omega
  | case3 te format contact hnone =>
    rw [FormatEnds, danglingAfter, hnone]
    refine iff_of_true (fun vch rest h => by cases h) (endsInTime_short _ ?_)
    exact (inflateBytes_numbersIn te.toNat contact).1.mp hnone
  | case4 te format contact vch rest hsome ih =>
    have hcount := (inflateBytes_numbersIn te.toNat contact).2 vch rest hsome
    rw [FormatEnds, danglingAfter, hsome, endsInTime_map hcount, ← ih]
    constructor
    · exact fun h => h vch rest rfl
    · rintro h _ _ ⟨⟩
      exact h
  | case5 item format contact h1 h2 hhigh =>
    rw [formatEnds_number (ne_six h1 h2), danglingAfter_number (ne_six h1 h2), if_pos hhigh]
    exact iff_of_true (fun h => absurd h (UInt8.lt_asymm hhigh)) (fun k h => by cases h)
  | case6 item format contact h1 h2 bits hhigh hnone =>
    have hinflate : inflate (bitsOf item) contact = none := hnone
    have hzero := (inflate_numbersIn (bitsOf item) contact).1.mp hinflate
    rw [formatEnds_number (ne_six h1 h2), danglingAfter_number (ne_six h1 h2), if_neg hhigh, hinflate]
    refine iff_of_true (fun hlow vch rest h => by cases h) (endsInTime_short _ ?_)
    omega
  | case7 item format contact h1 h2 bits hhigh vch rest hsome ih =>
    have hinflate : inflate (bitsOf item) contact = some (vch, rest) := hsome
    have hcount := (inflate_numbersIn (bitsOf item) contact).2 vch rest hinflate
    have hlow : item < 6 := UInt8.lt_of_le_of_ne (UInt8.not_lt.mp hhigh) (ne_six h1 h2)
    rw [formatEnds_number (ne_six h1 h2), danglingAfter_number (ne_six h1 h2), if_neg hhigh, hinflate,
      endsInTime_map hcount, ← ih, forall_prop_of_true hlow]
    constructor
    · exact fun h => h vch rest rfl
    · rintro h _ _ ⟨⟩
      exact h

/-! ## The fields -/

/-- The bytes a field comes out as: a `U32_TYPE` is read and written as a `short`. -/
def Field.width : Field → ℕ
  | .number type _ _ => bitsOf type.tag / 8
  | .bytes vch _ => vch.length

theorem inflate_writeVarNat {bits i : ℕ} (hi : i < 2 ^ bits) (rest : Bytes) :
    inflate bits (Codec.writeVarNat i ++ rest) = some (Codec.leBytes (bits / 8) i, rest) := by
  have hread : (Codec.varNat bits).read (Codec.writeVarNat i ++ rest) = some (i, rest) :=
    (Codec.varNat bits).read_write i rest hi
  unfold inflate
  rw [hread]
  rfl

theorem leBytes_one (b : UInt8) : Codec.leBytes 1 b.toNat = [b] := by
  simp [Codec.leBytes]

theorem inflateBytes_contact (vch rest : Bytes) :
    inflateBytes vch.length ((vch.flatMap fun b => Codec.writeVarNat b.toNat) ++ rest) = some (vch, rest) := by
  induction vch with
  | nil => rfl
  | cons b vch ih =>
    rw [List.length_cons, inflateBytes, List.flatMap_cons, List.append_assoc,
      inflate_writeVarNat (show b.toNat < 2 ^ 8 from b.toNat_lt), Option.bind_eq_bind, Option.bind_some]
    show (inflateBytes vch.length ((vch.flatMap fun b => Codec.writeVarNat b.toNat) ++ rest)).bind _ = _
    rw [ih]
    show some (Codec.leBytes 1 b.toNat ++ vch, rest) = _
    rw [leBytes_one]
    rfl

/-- One field of a format: something of its width is returned, the field itself unless it is a
`U32_TYPE`, and the rest of the contract goes to the rest of the format. -/
theorem decompress_field (f : Field) (format rest : Bytes) : ∃ vch : Bytes, vch.length = f.width ∧
    (¬ f.IsU32 → vch = f.fixed) ∧
    decompress (f.format ++ format) (f.contact ++ rest) =
      (do let more ← decompress format rest
          return more.map (vch ++ ·)) := by
  cases f with
  | number type i hi =>
    obtain ⟨m, hm⟩ := Codec.readVarNatGo_writeVarNat (bitsOf type.tag) i rest
    have hinflate : inflate (bitsOf type.tag) (Codec.writeVarNat i ++ rest) =
        some (Codec.leBytes (bitsOf type.tag / 8) m, rest) := by
      show Option.map _ (Codec.readVarNatGo _ 0 _) = _
      rw [hm]
      rfl
    refine ⟨Codec.leBytes (bitsOf type.tag / 8) m, Codec.length_leBytes _ _, ?_, ?_⟩
    · intro hne
      have hexact : inflate (bitsOf type.tag) (Codec.writeVarNat i ++ rest) =
          some (Codec.leBytes (bitsOf type.tag / 8) i, rest) := by
        apply inflate_writeVarNat
        cases type with
        | u32 => exact absurd rfl hne
        | u16 => exact hi
        | i16 => exact lt_trans hi (by decide)
        | i32 => exact lt_trans hi (by decide)
        | u64 => exact hi
        | i64 => exact lt_trans hi (by decide)
      have heq := (Prod.mk.inj (Option.some.inj (hinflate.symm.trans hexact))).1
      rw [heq]
      cases type with
      | u32 => exact absurd rfl hne
      | _ => rfl
    · show decompress (type.tag :: format) (Codec.writeVarNat i ++ rest) = _
      rw [decompress_number type.tag_ne_six, if_neg type.tag_le_six, hinflate]
  | bytes vch hlen =>
    refine ⟨vch, rfl, fun _ => rfl, ?_⟩
    show decompress (6 :: UInt8.ofNat vch.length :: format) _ = _
    have hcount : (UInt8.ofNat vch.length).toNat = vch.length := by
      rw [UInt8.toNat_ofNat']
      omega
    have hread : inflateBytes vch.length ((Field.bytes vch hlen).contact ++ rest) = some (vch, rest) :=
      inflateBytes_contact vch rest
    rw [decompress, hcount, hread]

theorem Field.fixed_length (f : Field) : f.width ≤ f.fixed.length ∧ (f.IsU32 → f.width < f.fixed.length) := by
  cases f with
  | number type i hi =>
    have hwidth : bitsOf type.tag / 8 ≤ type.width ∧ (type = .u32 → bitsOf type.tag / 8 < type.width) := by
      clear hi
      revert type
      rintro (_ | _ | _ | _ | _ | _) <;> decide
    unfold Field.fixed
    rw [Codec.length_leBytes]
    exact hwidth
  | bytes vch hlen => exact ⟨le_refl _, False.elim⟩

/-- A well-formed format is always served, with fields of the widths the code gives them. -/
theorem decompress_fields (fields : List Field) (rest : Bytes) : ∃ ret : Bytes,
    decompress (fields.flatMap Field.format) (fields.flatMap Field.contact ++ rest) = .ok (some ret) ∧
    ret.length = (fields.map Field.width).sum ∧
    ((∀ f ∈ fields, ¬ f.IsU32) → ret = fields.flatMap Field.fixed) := by
  induction fields with
  | nil => exact ⟨[], rfl, rfl, fun _ => rfl⟩
  | cons f fields ih =>
    obtain ⟨more, hmore, hlen, hexact⟩ := ih
    obtain ⟨vch, hwidth, hfixed, hf⟩ := decompress_field f (fields.flatMap Field.format)
      (fields.flatMap Field.contact ++ rest)
    refine ⟨vch ++ more, ?_, ?_, ?_⟩
    · rw [List.flatMap_cons, List.flatMap_cons, List.append_assoc, hf, hmore]
      rfl
    · simp [hwidth, hlen]
    · intro hno
      rw [List.flatMap_cons, hfixed (hno f List.mem_cons_self),
        hexact fun g hg => hno g (List.mem_cons_of_mem f hg)]

theorem sum_width_lt {fields : List Field} (h : ∃ f ∈ fields, f.IsU32) :
    (fields.map Field.width).sum < (fields.flatMap Field.fixed).length := by
  rw [List.length_flatMap]
  obtain ⟨f, hf, hu⟩ := h
  exact List.sum_lt_sum _ _ (fun g _ => g.fixed_length.1) ⟨f, hf, f.fixed_length.2 hu⟩

/-- `Decompress` stays inside its buffers exactly when the format does not end in the type of a byte
string while the contract still has numbers for it, and returns every field of a well-formed format
exactly when none of them is a `U32_TYPE`. -/
theorem decompress_iff (format contact : Bytes) (fields : List Field) (rest : Bytes) :
    ((decompress format contact).Orderly ↔ EndsInTime format contact) ∧
      (decompress (fields.flatMap Field.format) (fields.flatMap Field.contact ++ rest)
          = .ok (some (fields.flatMap Field.fixed)) ↔
        ∀ f ∈ fields, ¬ f.IsU32) := by
  constructor
  · rw [decompress_orderly, formatEnds_iff]
  · obtain ⟨ret, hret, hlen, hexact⟩ := decompress_fields fields rest
    constructor
    · intro h
      by_contra hu
      have hu' : ∃ f ∈ fields, f.IsU32 := by
        simpa using hu
      have heq : ret = fields.flatMap Field.fixed := Option.some.inj (Except.ok.inj (hret.symm.trans h))
      have hlt := sum_width_lt hu'
      rw [← heq, hlen] at hlt
      omega
    · intro hno
      rw [hret, hexact hno]

/-- A `U32_TYPE` of seventy thousand comes out as two bytes, and a lone byte-string type runs off the
format. -/
theorem decompress_u32 :
    decompress [2] (Codec.writeVarNat 70000) ≠ .ok (some (Codec.leBytes 4 70000)) ∧
      ¬ (decompress [6] []).Orderly := by
  constructor
  · intro h
    obtain ⟨ret, hret, hlen, -⟩ := decompress_fields [Field.number .u32 70000 (by decide)] []
    have hcontact : [Field.number .u32 70000 (by decide)].flatMap Field.contact ++ [] =
        Codec.writeVarNat 70000 := by
      simp [Field.contact]
    rw [hcontact] at hret
    have heq : ret = Codec.leBytes 4 70000 := Option.some.inj (Except.ok.inj (hret.symm.trans h))
    rw [heq, Codec.length_leBytes] at hlen
    cases hlen
  · rw [decompress_orderly]
    exact not_false

end CVm8051

end Dacrs
