import Mathlib.Tactic

/-!
# Byte codecs

A codec is a writer of bytes, a reader that takes a value off the front of a
byte stream, and the proof that the reader gives back what the writer put
there, whatever follows (`Codec.read_write`).  From that alone: two encodings
followed by anything determine the value and the rest (`Codec.write_append_inj`),
so a format written field by field is injective.

The primitive codecs are the little-endian fixed-width integers, the base-128
variable-length integer with its "minus one" continuation digits (`varNat`),
the length prefix of 1, 3, 5 or 9 bytes (`compactSize`) and counted byte strings
(`vecBytes`).
-/

namespace Codec

/-- A byte stream. -/
abbrev Bytes := List UInt8

/-- A reader consumes a prefix of the stream or fails. -/
abbrev Reader (α : Type) := StateT Bytes Option α

end Codec

open Codec in
/-- A writer, a reader, the values the format can carry, and the round trip. -/
structure Codec (α : Type) where
  write : α → Bytes
  read : Reader α
  Fits : α → Prop
  read_write : ∀ a rest, Fits a → read (write a ++ rest) = some (a, rest)

namespace Codec

variable {α β γ : Type}

/-- The value and what follows it are determined by the bytes. -/
theorem write_append_inj (c : Codec α) {a b : α} {r s : Bytes}
    (ha : c.Fits a) (hb : c.Fits b) (h : c.write a ++ r = c.write b ++ s) : a = b ∧ r = s := by
  have hr := c.read_write a r ha
  rw [h, c.read_write b s hb] at hr
  simp only [Option.some.injEq, Prod.mk.injEq] at hr
  exact ⟨hr.1.symm, hr.2.symm⟩

theorem write_inj (c : Codec α) {a b : α} (ha : c.Fits a) (hb : c.Fits b)
    (h : c.write a = c.write b) : a = b := by
  have h' : c.write a ++ [] = c.write b ++ [] := by rw [h]
  exact (c.write_append_inj ha hb h').1

/-- Reading a whole encoding. -/
theorem read_write_nil (c : Codec α) (a : α) (ha : c.Fits a) :
    c.read (c.write a) = some (a, []) := by
  have h := c.read_write a [] ha
  rwa [List.append_nil] at h

/-- The round trip in the form that runs through a `do` block of readers. -/
theorem read_bind (c : Codec α) (f : α → Reader β) (a : α) (rest : Bytes) (ha : c.Fits a) :
    (c.read >>= f) (c.write a ++ rest) = f a rest := by
  show (StateT.bind c.read f) (c.write a ++ rest) = f a rest
  simp only [StateT.bind, c.read_write a rest ha, Option.bind_eq_bind, Option.bind_some]

/-- A codec read through an injection `f` with partial inverse `g`. -/
def imap (c : Codec α) (f : α → β) (g : β → α) (fits : β → Prop)
    (h : ∀ b, fits b → c.Fits (g b) ∧ f (g b) = b) : Codec β where
  write b := c.write (g b)
  read := f <$> c.read
  Fits := fits
  read_write b rest hb := by
    have hr := c.read_write (g b) rest (h b hb).1
    show (StateT.map f c.read) (c.write (g b) ++ rest) = _
    simp [StateT.map, hr, (h b hb).2]

/-- A field present only under a condition the stream has already told. -/
def writeIf (c : Codec α) (p : Prop) [Decidable p] (a : α) : Bytes := if p then c.write a else []

def readIf (c : Codec α) (p : Prop) [Decidable p] (dflt : α) : Reader α :=
  if p then c.read else pure dflt

/-- A conditional field reads back as itself, or as the default when it was not written. -/
theorem readIf_bind (c : Codec α) (p : Prop) [Decidable p] (dflt a : α) (f : α → Reader β)
    (rest : Bytes) (ha : p → c.Fits a) :
    (c.readIf p dflt >>= f) (c.writeIf p a ++ rest) = f (if p then a else dflt) rest := by
  unfold readIf writeIf
  split
  · next h => exact c.read_bind f a rest (ha h)
  · rfl

/-! ## Little-endian naturals -/

/-- The `k` low base-256 digits of `n`, low digit first. -/
def leBytes : (k n : Nat) → Bytes
  | 0, _ => []
  | k + 1, n => UInt8.ofNat n :: leBytes k (n / 256)

def readLe : (k : Nat) → Reader Nat
  | 0 => pure 0
  | k + 1 => fun s =>
    match s with
    | [] => none
    | b :: rest => (readLe k rest).map fun p => (b.toNat + 256 * p.1, p.2)

theorem readLe_leBytes (k n : Nat) (rest : Bytes) (h : n < 256 ^ k) :
    readLe k (leBytes k n ++ rest) = some (n, rest) := by
  induction k generalizing n with
  | zero =>
    have h0 : n = 0 := by simpa using h
    subst h0
    rfl
  | succ k ih =>
    have hq : n / 256 < 256 ^ k := by
      rw [Nat.div_lt_iff_lt_mul (by norm_num)]
      rwa [pow_succ] at h
    simp only [leBytes, List.cons_append, readLe, ih _ hq, Option.map_some, UInt8.toNat_ofNat']
    have hd : n % 256 + 256 * (n / 256) = n := Nat.mod_add_div n 256
    simp [hd]

/-- The digits read are the bytes that were there. -/
theorem leBytes_readLe {k n : Nat} {s rest : Bytes} (h : readLe k s = some (n, rest)) :
    n < 256 ^ k ∧ s = leBytes k n ++ rest := by
  induction k generalizing n s with
  | zero =>
    obtain ⟨rfl, rfl⟩ := Prod.mk.inj (Option.some.inj h)
    exact ⟨by norm_num, rfl⟩
  | succ k ih =>
    cases s with
    | nil => cases h
    | cons b s =>
      obtain ⟨⟨m, t⟩, hm, he⟩ := Option.map_eq_some_iff.mp h
      obtain ⟨rfl, rfl⟩ := Prod.mk.inj he
      obtain ⟨hmlt, hs⟩ := ih hm
      have hlt := b.toNat_lt
      have hlow : UInt8.ofNat (b.toNat + 256 * m) = b := by
        refine UInt8.toNat.inj ?_
        rw [UInt8.toNat_ofNat']
        omega
      have hhigh : (b.toNat + 256 * m) / 256 = m := by omega
      refine ⟨by rw [pow_succ]; omega, ?_⟩
      rw [leBytes, hlow, hhigh, List.cons_append, ← hs]

/-- A field read from its raw bytes is written as them. -/
theorem write_readRaw {k : Nat} (toNat : α → Nat) {ofNat : Nat → α} {a : α} {s rest : Bytes}
    (hof : ∀ n < 256 ^ k, toNat (ofNat n) = n)
    (h : (ofNat <$> readLe k : Reader α) s = some (a, rest)) :
    s = leBytes k (toNat a) ++ rest := by
  obtain ⟨⟨n, t⟩, hn, he⟩ := Option.bind_eq_some_iff.mp h
  obtain ⟨rfl, rfl⟩ := Prod.mk.inj (Option.some.inj he)
  obtain ⟨hlt, hs⟩ := leBytes_readLe hn
  rw [hof n hlt]
  exact hs

@[simp] theorem length_leBytes (k n : Nat) : (leBytes k n).length = k := by
  induction k generalizing n with
  | zero => rfl
  | succ k ih => simp [leBytes, ih]

/-- `k` raw bytes of a natural, least significant first. -/
def leNat (k : Nat) : Codec Nat where
  write := leBytes k
  read := readLe k
  Fits n := n < 256 ^ k
  read_write n rest h := readLe_leBytes k n rest h

/-- A fixed-width field stored as its `k` raw bytes. -/
def raw (k : Nat) (toNat : α → Nat) (ofNat : Nat → α) (hlt : ∀ a, toNat a < 256 ^ k)
    (hinv : ∀ a, ofNat (toNat a) = a) : Codec α :=
  (leNat k).imap ofNat toNat (fun _ => True) fun a _ => ⟨hlt a, hinv a⟩

def u8 : Codec UInt8 :=
  raw 1 UInt8.toNat UInt8.ofNat (fun a => by simpa using a.toNat_lt) (fun a => by simp)

def u16 : Codec UInt16 :=
  raw 2 UInt16.toNat UInt16.ofNat (fun a => by simpa using a.toNat_lt) (fun a => by simp)

def u32 : Codec UInt32 :=
  raw 4 UInt32.toNat UInt32.ofNat (fun a => by simpa using a.toNat_lt) (fun a => by simp)

def u64 : Codec UInt64 :=
  raw 8 UInt64.toNat UInt64.ofNat (fun a => by simpa using a.toNat_lt) (fun a => by simp)

def i32 : Codec Int32 :=
  u32.imap UInt32.toInt32 Int32.toUInt32 (fun _ => True) fun _ _ => ⟨trivial, rfl⟩

def i64 : Codec Int64 :=
  u64.imap UInt64.toInt64 Int64.toUInt64 (fun _ => True) fun _ _ => ⟨trivial, rfl⟩

/-- A bit vector of `k` bytes. -/
def bitVec (k : Nat) : Codec (BitVec (8 * k)) :=
  raw k BitVec.toNat (BitVec.ofNat (8 * k))
    (fun a => by
      have h := a.isLt
      rwa [pow_mul] at h)
    (fun a => by simp)

/-! ## Variable-length integers -/

/-- Base-128 digits of `n`, most significant first, one subtracted from all but
the last; `tail` holds the less significant digits already produced. -/
def varNatGo (n : Nat) (tail : Bytes) : Bytes :=
  let digit := UInt8.ofNat (if tail = [] then n % 128 else n % 128 + 128)
  if n ≤ 127 then digit :: tail else varNatGo (n / 128 - 1) (digit :: tail)
termination_by n
decreasing_by omega

def writeVarNat (n : Nat) : Bytes := varNatGo n []

/-- Reads digits into an accumulator of `w` bits. -/
def readVarNatGo (w acc : Nat) : Reader Nat
  | [] => none
  | b :: rest =>
    let n := (acc * 128 + b.toNat % 128) % 2 ^ w
    if b.toNat < 128 then some (n, rest) else readVarNatGo w ((n + 1) % 2 ^ w) rest

/-- With digits still to come the reader arrives at `tail` holding `n + 1`: the
subtraction the writer made at each continuation digit is undone by the reader. -/
theorem readVarNatGo_varNatGo (w n : Nat) (tail rest : Bytes) (hn : n < 2 ^ w)
    (ht : tail ≠ [] → n + 1 < 2 ^ w) :
    readVarNatGo w 0 (varNatGo n tail ++ rest)
      = if tail = [] then some (n, rest) else readVarNatGo w (n + 1) (tail ++ rest) := by
  induction n using Nat.strong_induction_on generalizing tail with
  | _ n ih =>
    rw [varNatGo]
    by_cases hs : n ≤ 127
    · simp only [hs, if_true]
      by_cases h0 : tail = []
      · subst h0
        have hb : n % 128 = n := by omega
        simp [readVarNatGo, hb, Nat.mod_eq_of_lt hn, Nat.mod_eq_of_lt (show n < 256 by omega),
          show n < 128 by omega]
      · have hlt := ht h0
        have hb : (n % 128 + 128) % 256 = n + 128 := by omega
        simp [h0, readVarNatGo, hb, show ¬ (n + 128 < 128) by omega,
          show (n + 128) % 128 = n by omega, Nat.mod_eq_of_lt hn, Nat.mod_eq_of_lt hlt]
    · simp only [hs, if_false]
      have hm : n / 128 - 1 + 1 = n / 128 := by omega
      have hlt : n / 128 < 2 ^ w := lt_of_le_of_lt (Nat.div_le_self n 128) hn
      rw [ih (n / 128 - 1) (by omega) _ (by omega) (fun _ => by omega), if_neg (by simp), hm]
      have hd : n / 128 * 128 + n % 128 = n := Nat.div_add_mod' n 128
      by_cases h0 : tail = []
      · subst h0
        simp [readVarNatGo, Nat.mod_eq_of_lt (show n % 128 < 256 by omega), hd,
          Nat.mod_eq_of_lt hn, show n % 128 < 128 by omega]
      · have hb : (n % 128 + 128) % 256 = n % 128 + 128 := by omega
        have hlt' := ht h0
        simp [h0, readVarNatGo, hb, hd, Nat.mod_eq_of_lt hn, Nat.mod_eq_of_lt hlt']

/-- Whatever the accumulator, a number ends at the first byte without the continuation bit. -/
theorem readVarNatGo_snd (w w' acc acc' : Nat) (s : Bytes) :
    (readVarNatGo w acc s).map Prod.snd = (readVarNatGo w' acc' s).map Prod.snd := by
  induction s generalizing acc acc' with
  | nil => rfl
  | cons b rest ih =>
    simp only [readVarNatGo]
    by_cases hb : b.toNat < 128
    · simp [hb]
    · simp only [hb, if_false]
      apply ih

/-- A number is there when one of the bytes ends it, and takes that byte away. -/
theorem readVarNatGo_count (w acc : Nat) (s : Bytes) :
    (readVarNatGo w acc s = none ↔ s.countP (fun b => b.toNat < 128) = 0) ∧
      ∀ n rest, readVarNatGo w acc s = some (n, rest) →
        s.countP (fun b => b.toNat < 128) = rest.countP (fun b => b.toNat < 128) + 1 := by
  induction s generalizing acc with
  | nil => exact ⟨by simp [readVarNatGo], by simp [readVarNatGo]⟩
  | cons b rest ih =>
    simp only [readVarNatGo]
    by_cases hb : b.toNat < 128
    · simp only [hb, if_true]
      constructor
      · simp [hb]
      · intro n rest' h
        obtain ⟨-, rfl⟩ := Prod.mk.inj (Option.some.inj h)
        simp [hb]
    · simp only [hb, if_false]
      have hcount : (b :: rest).countP (fun b => b.toNat < 128) = rest.countP (fun b => b.toNat < 128) := by
        simp [hb]
      rw [hcount]
      apply ih

/-- Read into any width, a written number is taken away whole. -/
theorem readVarNatGo_writeVarNat (w n : Nat) (rest : Bytes) :
    ∃ m, readVarNatGo w 0 (writeVarNat n ++ rest) = some (m, rest) := by
  have hwide : readVarNatGo (n + 1) 0 (writeVarNat n ++ rest) = some (n, rest) := by
    have hn : n < 2 ^ (n + 1) := lt_of_lt_of_le Nat.lt_two_pow_self (Nat.pow_le_pow_right (by omega) (by omega))
    rw [writeVarNat, readVarNatGo_varNatGo (n + 1) n [] rest hn (fun h0 => absurd rfl h0), if_pos rfl]
  have hsnd := readVarNatGo_snd w (n + 1) 0 0 (writeVarNat n ++ rest)
  rw [hwide, Option.map_some] at hsnd
  obtain ⟨⟨m, rest'⟩, hread, heq⟩ := Option.map_eq_some_iff.mp hsnd
  have hrest : rest' = rest := heq
  exact ⟨m, by rw [hread, hrest]⟩

/-- A variable-length integer read into `w` bits. -/
def varNat (w : Nat) : Codec Nat where
  write := writeVarNat
  read := readVarNatGo w 0
  Fits n := n < 2 ^ w
  read_write n rest h := by
    rw [writeVarNat, readVarNatGo_varNatGo w n [] rest h (fun h0 => absurd rfl h0), if_pos rfl]

/-! ## Length prefixes -/

/-- A count written in 1, 3, 5 or 9 bytes. -/
def writeCompactSize (n : Nat) : Bytes :=
  if n < 253 then leBytes 1 n
  else if n ≤ 0xffff then 253 :: leBytes 2 n
  else if n ≤ 0xffffffff then 254 :: leBytes 4 n
  else 255 :: leBytes 8 n

/-- Non-canonical prefixes and counts above `maxSize` are refused. -/
def readCompactSize (maxSize : Nat) : Reader Nat
  | [] => none
  | b :: rest => do
    let (n, rest) ←
      if b.toNat < 253 then some (b.toNat, rest)
      else
        let (width, least) :=
          if b = 253 then (2, 253) else if b = 254 then (4, 0x10000) else (8, 0x100000000)
        match readLe width rest with
        | some (n, rest) => if n < least then none else some (n, rest)
        | none => none
    if n > maxSize then none else some (n, rest)

theorem writeCompactSize_ne_nil (n : Nat) : writeCompactSize n ≠ [] := by
  intro h
  have hl := congrArg List.length h
  unfold writeCompactSize at hl
  split at hl
  · simp at hl
  · split at hl
    · simp at hl
    · split at hl <;> simp at hl

theorem readCompactSize_writeCompactSize (maxSize n : Nat) (rest : Bytes)
    (hmax : n ≤ maxSize) (hn : n < 256 ^ 8) :
    readCompactSize maxSize (writeCompactSize n ++ rest) = some (n, rest) := by
  unfold writeCompactSize
  split
  · next h =>
    have hb : n % 256 = n := Nat.mod_eq_of_lt (by omega)
    simp [leBytes, readCompactSize, hb, h, hmax]
  · split
    · next h0 h =>
      have hr := readLe_leBytes 2 n rest (by omega)
      simp [readCompactSize, hr, h0, hmax]
    · split
      · next h0 h1 h =>
        have hr := readLe_leBytes 4 n rest (by omega)
        simp [readCompactSize, hr, hmax, show ¬ n < 65536 by omega]
      · next h0 h1 h =>
        have hr := readLe_leBytes 8 n rest hn
        simp [readCompactSize, hr, hmax, show ¬ n < 4294967296 by omega]

def compactSize (maxSize : Nat) : Codec Nat where
  write := writeCompactSize
  read := readCompactSize maxSize
  Fits n := n ≤ maxSize ∧ n < 256 ^ 8
  read_write n rest h := readCompactSize_writeCompactSize maxSize n rest h.1 h.2

/-! ## Sequences -/

def writeAll (c : Codec α) (l : List α) : Bytes := l.flatMap c.write

/-- Reads `k` values in a row. -/
def readAll (c : Codec α) : Nat → Reader (List α)
  | 0 => pure []
  | k + 1 => do
    let a ← c.read
    let l ← readAll c k
    return a :: l

theorem readAll_writeAll (c : Codec α) (l : List α) (rest : Bytes) (h : ∀ a ∈ l, c.Fits a) :
    readAll c l.length (writeAll c l ++ rest) = some (l, rest) := by
  induction l with
  | nil => rfl
  | cons a l ih =>
    have hl := ih (fun b hb => h b (List.mem_cons_of_mem a hb))
    have ha := h a List.mem_cons_self
    simp only [writeAll, List.flatMap_cons, List.append_assoc, List.length_cons, readAll]
    rw [c.read_bind _ a _ ha]
    show (StateT.bind (readAll c l.length) _) (writeAll c l ++ rest) = _
    simp only [StateT.bind, hl]
    rfl

/-- A counted sequence: the count, then the values in order. -/
def vec (maxSize : Nat) (c : Codec α) : Codec (List α) where
  write l := writeCompactSize l.length ++ writeAll c l
  read := do
    let n ← (compactSize maxSize).read
    readAll c n
  Fits l := (compactSize maxSize).Fits l.length ∧ ∀ a ∈ l, c.Fits a
  read_write l rest h := by
    rw [List.append_assoc]
    have hs := (compactSize maxSize).read_bind (readAll c) l.length (writeAll c l ++ rest) h.1
    exact hs.trans (readAll_writeAll c l rest h.2)

/-- A counted byte string. -/
def vecBytes (maxSize : Nat) : Codec Bytes := vec maxSize u8

/-- A counted byte string is longer than its bytes. -/
theorem length_le_vecBytes_write (maxSize : Nat) (l : Bytes) :
    l.length ≤ ((vecBytes maxSize).write l).length := by
  show l.length ≤ (writeCompactSize l.length ++ l.flatMap u8.write).length
  have hone : ∀ a : UInt8, (u8.write a).length = 1 := fun a => length_leBytes 1 a.toNat
  rw [List.length_append, List.length_flatMap]
  simp [hone]

/-- Two values, one after the other; the second format may depend on the first value. -/
def seq (c : Codec α) (d : α → Codec β) : Codec (α × β) where
  write p := c.write p.1 ++ (d p.1).write p.2
  read := do
    let a ← c.read
    let b ← (d a).read
    return (a, b)
  Fits p := c.Fits p.1 ∧ (d p.1).Fits p.2
  read_write p rest h := by
    rw [List.append_assoc, c.read_bind _ p.1 _ h.1, (d p.1).read_bind _ p.2 _ h.2]
    rfl

/-! ## What a reader can return -/

/-- Whatever the reader returns satisfies `P`. -/
def Returns (r : Reader α) (P : α → Prop) : Prop := ∀ s a rest, r s = some (a, rest) → P a

theorem Returns.of_all {r : Reader α} {P : α → Prop} (h : ∀ a, P a) : Returns r P :=
  fun _ a _ _ => h a

theorem Returns.bind {r : Reader α} {f : α → Reader β} {P : α → Prop} {Q : β → Prop}
    (h : Returns r P) (hf : ∀ a, P a → Returns (f a) Q) : Returns (r >>= f) Q := by
  intro s b rest hb
  replace hb : (StateT.bind r f) s = some (b, rest) := hb
  simp only [StateT.bind, Option.bind_eq_bind, Option.bind_eq_some_iff] at hb
  obtain ⟨⟨a, t⟩, ha, hb⟩ := hb
  exact hf a (h s a t ha) t b rest hb

theorem Returns.map {r : Reader α} {f : α → β} {P : β → Prop}
    (h : Returns r fun a => P (f a)) : Returns (f <$> r) P := by
  intro s b rest hb
  replace hb : (StateT.map f r) s = some (b, rest) := hb
  simp only [StateT.map, Option.bind_eq_bind, Option.bind_eq_some_iff, Option.pure_def,
    Option.some.injEq, Prod.mk.injEq] at hb
  obtain ⟨⟨a, t⟩, ha, rfl, -⟩ := hb
  exact h s a t ha

theorem Returns.pure {a : α} {P : α → Prop} (h : P a) : Returns (Pure.pure a) P := by
  intro s b rest hb
  obtain ⟨rfl, -⟩ := Prod.mk.inj (Option.some.inj hb)
  exact h

theorem returns_readCompactSize (m : Nat) : Returns (readCompactSize m) fun n => n ≤ m := by
  intro s n rest h
  cases s with
  | nil => cases h
  | cons b t =>
    have hlimit : ∀ k t', (if k > m then none else some (k, t')) = some (n, rest) → n ≤ m := by
      intro k t' hk
      split at hk
      · cases hk
      · next hle =>
        obtain ⟨rfl, -⟩ := Prod.mk.inj (Option.some.inj hk)
        exact not_lt.mp hle
    unfold readCompactSize at h
    simp only [Option.bind_eq_bind] at h
    split at h
    · exact hlimit _ t h
    · generalize (if b = 253 then (2, 253) else if b = 254 then (4, 0x10000)
        else (8, 0x100000000)) = form at h
      split at h
      · split at h
        · cases h
        · exact hlimit _ _ h
      · cases h

theorem returns_readAll {c : Codec α} {P : α → Prop} (h : Returns c.read P) (k : Nat) :
    Returns (readAll c k) fun l => l.length = k ∧ ∀ a ∈ l, P a := by
  induction k with
  | zero => exact Returns.pure ⟨rfl, fun _ ha => nomatch ha⟩
  | succ k ih =>
    refine Returns.bind h fun a ha => Returns.bind ih fun l hl => Returns.pure ?_
    refine ⟨congrArg (· + 1) hl.1, fun b hb => ?_⟩
    rcases List.mem_cons.mp hb with rfl | hmem
    · exact ha
    · exact hl.2 b hmem

/-- A counted sequence is never longer than its limit. -/
theorem returns_vec {c : Codec α} {P : α → Prop} (h : Returns c.read P) (m : Nat) :
    Returns (vec m c).read fun l => l.length ≤ m ∧ ∀ a ∈ l, P a := by
  refine Returns.bind (returns_readCompactSize m) fun n hn => ?_
  intro s l rest hl
  obtain ⟨hlen, hall⟩ := returns_readAll h n s l rest hl
  exact ⟨hlen ▸ hn, hall⟩

/-! ## What a reader takes -/

/-- The reader takes `k` bytes when there are as many, whatever they are. -/
def Takes (r : Reader α) (k : Nat) : Prop := ∀ s, k ≤ s.length → ∃ a, r s = some (a, s.drop k)

theorem Takes.pure (a : α) : Takes (Pure.pure a) 0 := fun _ _ => ⟨a, rfl⟩

theorem Takes.bind {r : Reader α} {f : α → Reader β} {j k : Nat} (h : Takes r j)
    (hf : ∀ a, Takes (f a) k) : Takes (r >>= f) (j + k) := by
  intro s hs
  obtain ⟨a, ha⟩ := h s (by omega)
  obtain ⟨b, hb⟩ := hf a (s.drop j) (by rw [List.length_drop]; omega)
  refine ⟨b, ?_⟩
  show StateT.bind r f s = _
  simp only [StateT.bind, ha, Option.bind_eq_bind, Option.bind_some]
  rw [hb, List.drop_drop]

theorem Takes.map {r : Reader α} {k : Nat} (h : Takes r k) (f : α → β) : Takes (f <$> r) k := by
  intro s hs
  obtain ⟨a, ha⟩ := h s hs
  refine ⟨f a, ?_⟩
  show StateT.map f r s = _
  simp [StateT.map, ha]

theorem takes_readLe (k : Nat) : Takes (readLe k) k := by
  induction k with
  | zero => exact Takes.pure 0
  | succ k ih =>
    intro s hs
    cases s with
    | nil => cases hs
    | cons b s =>
      obtain ⟨n, hn⟩ := ih s (Nat.le_of_succ_le_succ hs)
      exact ⟨b.toNat + 256 * n, by simp [readLe, hn]⟩

theorem takes_u8 : Takes u8.read 1 := (takes_readLe 1).map _

theorem takes_u32 : Takes u32.read 4 := (takes_readLe 4).map _

theorem takes_i64 : Takes i64.read 8 := ((takes_readLe 8).map _).map _

theorem takes_readAll {c : Codec α} {k : Nat} (h : Takes c.read k) (n : Nat) :
    Takes (readAll c n) (n * k) := by
  induction n with
  | zero =>
    rw [Nat.zero_mul]
    exact Takes.pure []
  | succ n ih =>
    have hlen : (n + 1) * k = k + (n * k + 0) := by rw [Nat.succ_mul]; omega
    rw [hlen]
    exact h.bind fun _ => ih.bind fun _ => Takes.pure _

end Codec
