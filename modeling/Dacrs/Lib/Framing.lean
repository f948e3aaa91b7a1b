import Dacrs.Lib.Codec

/-!
# Frames in a byte stream

A stream of encodings, cut anywhere.  `Framed c s l rest` says that the bytes `s` are the encodings of `l`
and then bytes with no whole encoding in front.  There is exactly one such cut of every stream
(`Framed.unique`, `framed_frames`), and what it says of a stream stays when more bytes come
(`Framed.isPrefix`).  A receiver that keeps `Framed` while the bytes come in pieces has no choice left in
what it hands on.
-/

namespace Codec

variable {α β : Type} {c : Codec α} {s t rest rest' : Bytes} {l l' : List α} {a : α}

/-- The reader takes only what the writer makes. -/
def Exact (c : Codec α) : Prop :=
  ∀ s a rest, c.read s = some (a, rest) → c.Fits a ∧ s = c.write a ++ rest

/-- `n` bytes as they are. -/
def flat (n : ℕ) : Codec Bytes where
  write l := l
  read s := if s.length < n then none else some (s.take n, s.drop n)
  Fits l := l.length = n
  read_write l rest h := by
    subst h
    simp

theorem exact_flat (n : ℕ) : Exact (flat n) := by
  intro s a rest h
  simp only [flat] at h ⊢
  split at h
  · cases h
  · next hn =>
    obtain ⟨rfl, rfl⟩ := Prod.mk.inj (Option.some.inj h)
    refine ⟨?_, (List.take_append_drop n s).symm⟩
    rw [List.length_take]
    omega

theorem exact_u32 : Exact u32 := fun s a rest h =>
  ⟨trivial, write_readRaw UInt32.toNat (fun n hn => by simpa using hn) h⟩

/-- A value, read back only if it passes a test. -/
def only (c : Codec α) (P : α → Prop) [DecidablePred P] : Codec α where
  write := c.write
  read s := (c.read s).filter fun p => decide (P p.1)
  Fits a := c.Fits a ∧ P a
  read_write a rest h := by simp [c.read_write a rest h.1, h.2]

theorem Exact.only {P : α → Prop} [DecidablePred P] (hc : Exact c) : Exact (c.only P) := by
  intro s a rest h
  obtain ⟨hread, hP⟩ := Option.filter_eq_some_iff.mp h
  obtain ⟨hfits, hs⟩ := hc s a rest hread
  exact ⟨⟨hfits, by simpa using hP⟩, hs⟩

theorem Exact.seq {d : α → Codec β} (hc : Exact c) (hd : ∀ a, Exact (d a)) : Exact (c.seq d) := by
  intro s p rest h
  obtain ⟨⟨a, s₁⟩, ha, h⟩ := Option.bind_eq_some_iff.mp h
  obtain ⟨⟨b, s₂⟩, hb, h⟩ := Option.bind_eq_some_iff.mp h
  obtain ⟨rfl, rfl⟩ := Prod.mk.inj (Option.some.inj h)
  obtain ⟨hfa, rfl⟩ := hc s a s₁ ha
  obtain ⟨hfb, rfl⟩ := hd a s₁ b s₂ hb
  exact ⟨⟨hfa, hfb⟩, (List.append_assoc _ _ _).symm⟩

theorem Exact.imap {f : α → β} {g : β → α} {fits : β → Prop}
    (h : ∀ b, fits b → c.Fits (g b) ∧ f (g b) = b) (hc : Exact c)
    (hback : ∀ a, c.Fits a → fits (f a) ∧ g (f a) = a) : Exact (c.imap f g fits h) := by
  intro s b rest hread
  obtain ⟨⟨a, s₁⟩, ha, he⟩ := Option.bind_eq_some_iff.mp hread
  obtain ⟨rfl, rfl⟩ := Prod.mk.inj (Option.some.inj he)
  obtain ⟨hfits, hs⟩ := hc s a s₁ ha
  refine ⟨(hback a hfits).1, ?_⟩
  show s = c.write (g (f a)) ++ s₁
  rw [(hback a hfits).2]
  exact hs

theorem takes_flat (n : ℕ) : Takes (flat n).read n := by
  intro s hs
  exact ⟨s.take n, if_neg (by omega)⟩

theorem Takes.seq {d : α → Codec β} {j k : ℕ} (hc : Takes c.read j) (hd : ∀ a, Takes (d a).read k) :
    Takes (c.seq d).read (j + k) :=
  hc.bind fun a => (hd a).bind fun b => Takes.pure (a, b)

/-! ## The cut of a stream -/

/-- The encodings of `l`, then bytes with no whole encoding in front. -/
def Framed (c : Codec α) (s : Bytes) (l : List α) (rest : Bytes) : Prop :=
  s = c.writeAll l ++ rest ∧ (∀ a ∈ l, c.Fits a) ∧ c.read rest = none

@[simp] theorem writeAll_nil : c.writeAll [] = [] := rfl

@[simp] theorem writeAll_cons : c.writeAll (a :: l) = c.write a ++ c.writeAll l := List.flatMap_cons

@[simp] theorem writeAll_append : c.writeAll (l ++ l') = c.writeAll l ++ c.writeAll l' :=
  List.flatMap_append

/-- Bytes that follow encodings: no whole encoding has come yet. -/
theorem Framed.more (h : Framed c s l rest) (hrest : c.read (rest ++ t) = none) :
    Framed c (s ++ t) l (rest ++ t) := by
  obtain ⟨rfl, hfits, -⟩ := h
  exact ⟨List.append_assoc _ _ _, hfits, hrest⟩

/-- Bytes that complete an encoding. -/
theorem Framed.complete (h : Framed c s l rest) (ha : c.Fits a) (hrest : rest ++ t = c.write a)
    (hnil : c.read [] = none) : Framed c (s ++ t) (l ++ [a]) [] := by
  obtain ⟨rfl, hfits, -⟩ := h
  refine ⟨?_, ?_, hnil⟩
  · simp [List.append_assoc, hrest]
  · intro b hb
    rcases List.mem_append.mp hb with hb | hb
    · exact hfits b hb
    · rwa [List.mem_singleton.mp hb]

/-- More bytes leave the whole encodings as they are. -/
theorem Framed.isPrefix (h : Framed c s l rest) (h' : Framed c (s ++ t) l' rest') : l <+: l' := by
  induction l generalizing s l' with
  | nil => exact List.nil_prefix
  | cons a l ih =>
    obtain ⟨rfl, hfits, hrest⟩ := h
    obtain ⟨hs, hfits', hrest'⟩ := h'
    have hread := c.read_write a (c.writeAll l ++ rest ++ t) (hfits a List.mem_cons_self)
    rw [writeAll_cons, List.append_assoc, List.append_assoc, ← List.append_assoc (c.writeAll l)] at hs
    cases l' with
    | nil =>
      rw [hs, writeAll_nil, List.nil_append, hrest'] at hread
      cases hread
    | cons b l' =>
      rw [writeAll_cons, List.append_assoc (c.write b)] at hs
      obtain ⟨rfl, htails⟩ :=
        c.write_append_inj (hfits a List.mem_cons_self) (hfits' b List.mem_cons_self) hs
      have htail := ih ⟨rfl, fun b hb => hfits b (List.mem_cons_of_mem _ hb), hrest⟩
        ⟨htails, fun b hb => hfits' b (List.mem_cons_of_mem _ hb), hrest'⟩
      exact (List.prefix_cons_inj _).mpr htail

/-- A stream has one cut. -/
theorem Framed.unique (h : Framed c s l rest) (h' : Framed c s l' rest') : l = l' ∧ rest = rest' := by
  have hle : l <+: l' := h.isPrefix (t := []) (by rwa [List.append_nil])
  have hge : l' <+: l := h'.isPrefix (t := []) (by rwa [List.append_nil])
  obtain rfl : l = l' := hle.eq_of_length (le_antisymm hle.length_le hge.length_le)
  exact ⟨rfl, List.append_cancel_left (h.1.symm.trans h'.1)⟩

/-- The whole encodings at the front of a stream. -/
def frames (c : Codec α) : ℕ → Bytes → List α
  | 0, _ => []
  | n + 1, s =>
    match c.read s with
    | none => []
    | some (a, rest) => a :: frames c n rest

theorem framed_frames (hc : Exact c) (hnil : c.read [] = none) (n : ℕ) (s : Bytes) (hn : s.length ≤ n) :
    ∃ rest, Framed c s (frames c n s) rest := by
  induction n generalizing s with
  | zero =>
    obtain rfl := List.length_eq_zero_iff.mp (Nat.le_zero.mp hn)
    exact ⟨[], rfl, by simp [frames], hnil⟩
  | succ n ih =>
    rw [frames]
    cases hread : c.read s with
    | none => exact ⟨s, rfl, by simp, hread⟩
    | some p =>
      obtain ⟨a, s₁⟩ := p
      obtain ⟨hfits, rfl⟩ := hc s a s₁ hread
      have hpos : c.write a ≠ [] := by
        intro he
        have hr := c.read_write a [] hfits
        rw [he, List.append_nil, hnil] at hr
        cases hr
      have hlength := List.length_pos_of_ne_nil hpos
      rw [List.length_append] at hn
      obtain ⟨rest, hs, hall, hrest⟩ := ih s₁ (by omega)
      refine ⟨rest, ?_, List.forall_mem_cons.mpr ⟨hfits, hall⟩, hrest⟩
      rw [writeAll_cons, List.append_assoc, ← hs]

end Codec
