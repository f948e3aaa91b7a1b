import Mathlib.Tactic
import Mathlib.Data.Nat.Bitwise

/-!
# Binary hash trees with a duplicated odd node

A tree over a list of leaves, level by level; `node` combines two children, and the last node
of an odd level is its own sibling.  `levels` holds the nodes at every height, `climb` goes from
a leaf to the root along the siblings.  A tree that is injective in each child is climbed
injectively.
-/

namespace MerkleTree

variable {α : Type} (node : α → α → α)

/-- The parents of a level. -/
def level : List α → List α
  | [] => []
  | [a] => [node a a]
  | a :: b :: rest => node a b :: level rest

/-- The nodes at a height. -/
def levels (leaves : List α) : ℕ → List α
  | 0 => leaves
  | h + 1 => level node (levels leaves h)

/-- How many nodes a height has. -/
def width (n h : ℕ) : ℕ := (n + 2 ^ h - 1) / 2 ^ h

/-- From a node up to the root, given the siblings on the way; `i` is the node's position. -/
def climb : α → List α → ℕ → α
  | c, [], _ => c
  | c, s :: rest, i => climb (if i % 2 = 1 then node s c else node c s) rest (i / 2)

/-! ## Widths -/

@[simp] theorem width_zero (n : ℕ) : width n 0 = n := by simp [width]

theorem width_succ (n h : ℕ) : width n (h + 1) = (width n h + 1) / 2 := by
  unfold width
  have hpos : 0 < 2 ^ h := Nat.two_pow_pos h
  have hnum : n + 2 ^ (h + 1) - 1 = (n + 2 ^ h - 1) + 2 ^ h := by
    rw [pow_succ]
    omega
  rw [hnum, pow_succ, ← Nat.div_div_eq_div_mul, Nat.add_div_right _ hpos]

/-- A node of the level above has its left child on this one. -/
theorem left_lt_width {n h i : ℕ} (hi : i < width n (h + 1)) : 2 * i < width n h := by
  rw [width_succ] at hi
  omega

/-- A position is on a level exactly when one of its leaves is there. -/
theorem lt_width_iff (n h i : ℕ) : i < width n h ↔ i * 2 ^ h < n := by
  have hpos : 0 < 2 ^ h := Nat.two_pow_pos h
  unfold width
  rw [← Nat.succ_le_iff, Nat.le_div_iff_mul_le hpos, Nat.succ_mul]
  omega

@[simp] theorem length_level (l : List α) : (level node l).length = (l.length + 1) / 2 := by
  induction l using level.induct with
  | case1 => simp [level]
  | case2 a => simp [level]
  | case3 a b rest ih =>
    simp only [level, List.length_cons, ih]
    omega

@[simp] theorem length_levels (leaves : List α) (h : ℕ) :
    (levels node leaves h).length = width leaves.length h := by
  induction h with
  | zero => simp [levels]
  | succ h ih => rw [levels, length_level, ih, width_succ]

theorem levels_level (leaves : List α) (h : ℕ) :
    levels node (level node leaves) h = levels node leaves (h + 1) := by
  induction h with
  | zero => rfl
  | succ h ih =>
    rw [levels, ih]
    rfl

/-! ## Children and siblings -/

/-- A parent combines the two children below it, or the only one with itself. -/
theorem level_getElem? {l : List α} {i : ℕ} {left : α} (hl : l[2 * i]? = some left) :
    (level node l)[i]? = some (node left (l[2 * i + 1]?.getD left)) := by
  induction l using level.induct generalizing i with
  | case1 => simp at hl
  | case2 a =>
    have hi : i = 0 := by
      by_contra hne
      rw [List.getElem?_eq_none (by simp; omega)] at hl
      cases hl
    subst hi
    cases hl
    rfl
  | case3 a b rest ih =>
    cases i with
    | zero =>
      cases hl
      rfl
    | succ i =>
      have hstep : 2 * (i + 1) = 2 * i + 2 := by omega
      rw [hstep] at hl ⊢
      exact ih hl

theorem levels_getElem? {leaves : List α} {h i : ℕ} {left : α}
    (hl : (levels node leaves h)[2 * i]? = some left) : (levels node leaves (h + 1))[i]?
      = some (node left ((levels node leaves h)[2 * i + 1]?.getD left)) :=
  level_getElem? node hl

/-- The sibling of a node is on its level, and the two make the node above. -/
theorem sibling_spec {l : List α} {i : ℕ} {c : α} (hc : l[i]? = some c) :
    ∃ s, l[min (i ^^^ 1) (l.length - 1)]? = some s ∧
      (level node l)[i / 2]? = some (if i % 2 = 1 then node s c else node c s) := by
  have hi : i < l.length := (List.getElem?_eq_some_iff.mp hc).1
  by_cases hodd : i % 2 = 1
  · -- a right child: its sibling is there
    have hxor : i ^^^ 1 = i - 1 := Nat.xor_one_of_odd (Nat.odd_iff.mpr hodd)
    have hmin : min (i ^^^ 1) (l.length - 1) = 2 * (i / 2) := by omega
    have hthis : 2 * (i / 2) + 1 = i := by omega
    have hs := List.getElem?_eq_getElem (show 2 * (i / 2) < l.length by omega)
    refine ⟨_, by rw [hmin]; exact hs, ?_⟩
    rw [level_getElem? node hs, hthis, hc, if_pos hodd, Option.getD_some]
  · have hxor : i ^^^ 1 = i + 1 := Nat.xor_one_of_even (Nat.even_iff.mpr (by omega))
    have hthis : 2 * (i / 2) = i := by omega
    have hleft : l[2 * (i / 2)]? = some c := by rw [hthis]; exact hc
    rw [level_getElem? node hleft, hthis, hxor]
    by_cases hlast : i + 1 < l.length
    · have hmin : min (i + 1) (l.length - 1) = i + 1 := by omega
      have hs := List.getElem?_eq_getElem hlast
      refine ⟨_, by rw [hmin]; exact hs, ?_⟩
      rw [hs, if_neg hodd, Option.getD_some]
    · -- the last node of an odd level is its own sibling
      have hmin : min (i + 1) (l.length - 1) = i := by omega
      refine ⟨c, by rw [hmin]; exact hc, ?_⟩
      rw [List.getElem?_eq_none (by omega), if_neg hodd, Option.getD_none]

/-! ## Climbing -/

/-- With the same siblings, another node leads to another root. -/
theorem climb_inj (hleft : ∀ s, Function.Injective fun a => node a s)
    (hright : ∀ s, Function.Injective fun a => node s a) (branch : List α) (i : ℕ) :
    Function.Injective fun c => climb node c branch i := by
  induction branch generalizing i with
  | nil =>
    intro a b hab
    exact hab
  | cons s branch ih =>
    intro a b hab
    have hnode := ih (i / 2) hab
    by_cases hodd : i % 2 = 1
    · rw [if_pos hodd, if_pos hodd] at hnode
      exact hright s hnode
    · rw [if_neg hodd, if_neg hodd] at hnode
      exact hleft s hnode

end MerkleTree
