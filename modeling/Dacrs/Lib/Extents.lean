import Mathlib.Tactic

/-!
# Extents of a file

A file as the list of its bytes, with the ways to change it: a write at a position, growing to a length,
cutting to a length.  A gap that this makes is filled with `z`.  `Keeps n f g` says that what `f` has below
`n` is still there in `g`; it takes every extent that ends at `n` or before along (`Holds.keeps`).
-/

namespace Extents

variable {α : Type} (z : α)

/-- The file grows to `n` at least. -/
def grow (n : ℕ) (f : List α) : List α := f ++ List.replicate (n - f.length) z

/-- The file gets the length `n`. -/
def resize (n : ℕ) (f : List α) : List α := grow z n (f.take n)

/-- `bs` are written over what is at `p`; a file does not grow by writing nothing behind its end. -/
def writeAt (p : ℕ) (bs f : List α) : List α :=
  if bs.isEmpty then f else (grow z p f).take p ++ bs ++ f.drop (p + bs.length)

/-- The extent at `p` is `bs`. -/
def Holds (f : List α) (p : ℕ) (bs : List α) : Prop := bs <+: f.drop p

/-- What is below `n` stays. -/
def Keeps (n : ℕ) (f g : List α) : Prop := f.take n <+: g

variable {z} {f g h bs cs : List α} {p q m n : ℕ}

theorem Keeps.refl (n : ℕ) (f : List α) : Keeps n f f := List.take_prefix n f

theorem Keeps.mono (hm : m ≤ n) (hk : Keeps n f g) : Keeps m f g :=
  (List.take_prefix_take_left hm).trans hk

theorem Keeps.trans (hfg : Keeps n f g) (hgh : Keeps n g h) : Keeps n f h := by
  have hshort : f.take n <+: g.take n := by
    rw [List.prefix_take_iff]
    exact ⟨hfg, List.length_take_le n f⟩
  exact hshort.trans hgh

theorem keeps_grow (m n : ℕ) (f : List α) : Keeps m f (grow z n f) :=
  (List.take_prefix m f).trans (List.prefix_append _ _)

theorem keeps_resize (n : ℕ) (f : List α) : Keeps n f (resize z n f) := List.prefix_append _ _

theorem keeps_writeAt (p : ℕ) (bs f : List α) : Keeps p f (writeAt z p bs f) := by
  have hgrow : f.take p <+: (grow z p f).take p := by
    rw [grow, List.take_append]
    exact List.prefix_append _ _
  unfold writeAt
  split
  · exact Keeps.refl p f
  · rw [List.append_assoc]
    exact hgrow.trans (List.prefix_append _ _)

theorem holds_writeAt (p : ℕ) (bs f : List α) : Holds (writeAt z p bs f) p bs := by
  have hlength : ((grow z p f).take p).length = p := by
    rw [List.length_take, grow, List.length_append, List.length_replicate]
    omega
  unfold writeAt
  split
  · next hempty =>
    rw [List.isEmpty_iff.mp hempty]
    exact List.nil_prefix
  · rw [Holds, List.append_assoc, List.drop_left' hlength]
    exact List.prefix_append _ _

/-- Writing over an extent of the same length. -/
theorem writeAt_extent (f g : List α) (h : bs.length = cs.length) :
    writeAt z f.length cs (f ++ bs ++ g) = f ++ cs ++ g := by
  have hgrow : (grow z f.length (f ++ bs ++ g)).take f.length = f := by
    rw [grow, List.append_assoc, List.append_assoc, List.take_left]
  have hdrop : (f ++ bs ++ g).drop (f.length + cs.length) = g := by
    rw [← h, ← List.length_append, List.drop_left]
  unfold writeAt
  split
  · next hempty =>
    have hcs := List.isEmpty_iff.mp hempty
    have hbs : bs = [] := by
      rw [hcs] at h
      exact List.eq_nil_of_length_eq_zero h
    rw [hbs, hcs]
  · rw [hgrow, hdrop]

/-- An extent below `n` is still there. -/
theorem Holds.keeps (hf : Holds f p bs) (hend : p + bs.length ≤ n) (hk : Keeps n f g) : Holds g p bs := by
  obtain ⟨rest, rfl⟩ := hk
  have hbs : bs <+: (f.take n).drop p := by
    rw [List.drop_take, List.prefix_take_iff]
    exact ⟨hf, by omega⟩
  rw [Holds, List.drop_append]
  exact hbs.trans (List.prefix_append _ _)

/-- The end of an extent. -/
theorem Holds.right (hf : Holds f p (bs ++ cs)) : Holds f (p + bs.length) cs := by
  obtain ⟨rest, hrest⟩ := hf
  rw [Holds, ← List.drop_drop, ← hrest, List.append_assoc, List.drop_left]
  exact List.prefix_append _ _

end Extents
