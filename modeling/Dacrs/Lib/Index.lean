import Dacrs.Lib.Store

/-!
# An index beside a table

A table stores items under their keys, an index leads from names to keys.  Every item carries a name
of its own; an item without one carries `anon`.  The two are kept apart, so each write must keep them
linked: items may change but for their names (`Linked.kept`), and a name is registered, or taken
away, together with its item (`Linked.register`, `Linked.unregister`) provided name and item are free
for each other.
-/

namespace Index

variable {ι κ α : Type} [DecidableEq ι] [DecidableEq κ] {name : α → ι} {anon : ι}
  {table t u : Store κ α} {index : Store ι κ} {n : ι} {k : κ} {a : α}

variable (name anon) in
/-- A name leads to the item that carries it, and an item with a name is led to. -/
structure Linked (table : Store κ α) (index : Store ι κ) : Prop where
  leads : ∀ n k, index.lookup n = some k → ∃ a, table.lookup k = some a ∧ name a = n
  owned : ∀ k a, table.lookup k = some a → name a ≠ anon → index.lookup (name a) = some k

/-- Two names never lead to one item. -/
theorem Linked.injective (h : Linked name anon table index) {m : ι} (hn : index.lookup n = some k)
    (hm : index.lookup m = some k) : m = n := by
  obtain ⟨a, ha, rfl⟩ := h.leads n k hn
  obtain ⟨b, hb, rfl⟩ := h.leads m k hm
  rw [ha] at hb
  rw [Option.some.inj hb]

/-! ## Items that keep their names -/

variable (name anon) in
/-- Items stay, with their names, and new ones have none. -/
structure Kept (t u : Store κ α) : Prop where
  old : ∀ k a, t.lookup k = some a → ∃ b, u.lookup k = some b ∧ name b = name a
  new : ∀ k b, u.lookup k = some b → t.lookup k = none → name b = anon

omit [DecidableEq ι] in
theorem Kept.refl (t : Store κ α) : Kept name anon t t where
  old _ a h := ⟨a, h, rfl⟩
  new _ b hb hnone := by
    rw [hnone] at hb
    cases hb

omit [DecidableEq ι] in
theorem Kept.trans (h : Kept name anon table t) (h' : Kept name anon t u) :
    Kept name anon table u where
  old k a ha := by
    obtain ⟨b, hb, hname⟩ := h.old k a ha
    obtain ⟨c, hc, hname'⟩ := h'.old k b hb
    exact ⟨c, hc, hname'.trans hname⟩
  new k c hc hnone := by
    cases hb : t.lookup k with
    | none => exact h'.new k c hc hb
    | some b =>
      obtain ⟨c', hc', hname⟩ := h'.old k b hb
      rw [hc] at hc'
      obtain rfl := Option.some.inj hc'
      rw [hname]
      exact h.new k b hb hnone

omit [DecidableEq ι] in
/-- One write under a key. -/
theorem Kept.put (hold : ∀ b, t.lookup k = some b → name a = name b)
    (hnew : t.lookup k = none → name a = anon) : Kept name anon t (t.put k (some a)) where
  old j b hb := by
    rw [Store.lookup_put]
    by_cases hj : j = k
    · subst hj
      exact ⟨a, if_pos rfl, hold b hb⟩
    · rw [if_neg hj]
      exact ⟨b, hb, rfl⟩
  new j b hb hnone := by
    rw [Store.lookup_put] at hb
    by_cases hj : j = k
    · subst hj
      rw [if_pos rfl] at hb
      obtain rfl := Option.some.inj hb
      exact hnew hnone
    · rw [if_neg hj, hnone] at hb
      cases hb

theorem Linked.kept (h : Linked name anon t index) (hk : Kept name anon t u) :
    Linked name anon u index where
  leads n k hn := by
    obtain ⟨a, ha, hname⟩ := h.leads n k hn
    obtain ⟨b, hb, hsame⟩ := hk.old k a ha
    exact ⟨b, hb, hsame.trans hname⟩
  owned k b hb hname := by
    cases ha : t.lookup k with
    | none => exact absurd (hk.new k b hb ha) hname
    | some a =>
      obtain ⟨b', hb', hsame⟩ := hk.old k a ha
      rw [hb] at hb'
      obtain rfl := Option.some.inj hb'
      rw [hsame] at hname ⊢
      exact h.owned k a ha hname

/-! ## Names that come and go -/

/-- The name leads nowhere but to the key, and no other name leads there. -/
def Free (index : Store ι κ) (n : ι) (k : κ) : Prop :=
  (∀ j, index.lookup n = some j → j = k) ∧ ∀ m, index.lookup m = some k → m = n

theorem Linked.register (h : Linked name anon table index) (hfree : Free index n k)
    (hname : name a = n) : Linked name anon (table.put k (some a)) (index.put n (some k)) where
  leads m j hm := by
    rw [Store.lookup_put] at hm
    rw [Store.lookup_put]
    by_cases hmn : m = n
    · rw [if_pos hmn] at hm
      obtain rfl := Option.some.inj hm
      exact ⟨a, if_pos rfl, hname.trans hmn.symm⟩
    · rw [if_neg hmn] at hm
      have hj : j ≠ k := by
        rintro rfl
        exact hmn (hfree.2 m hm)
      rw [if_neg hj]
      exact h.leads m j hm
  owned j b hb hne := by
    rw [Store.lookup_put] at hb
    rw [Store.lookup_put]
    by_cases hj : j = k
    · rw [if_pos hj] at hb
      obtain rfl := Option.some.inj hb
      rw [if_pos hname, hj]
    · rw [if_neg hj] at hb
      have hlead := h.owned j b hb hne
      have hbn : name b ≠ n := by
        intro heq
        rw [heq] at hlead
        exact hj (hfree.1 j hlead)
      rw [if_neg hbn]
      exact hlead

theorem Linked.unregister (h : Linked name anon table index) (hfree : Free index n k) :
    Linked name anon (table.put k none) (index.put n none) where
  leads m j hm := by
    rw [Store.lookup_put] at hm
    rw [Store.lookup_put]
    by_cases hmn : m = n
    · rw [if_pos hmn] at hm
      cases hm
    · rw [if_neg hmn] at hm
      have hj : j ≠ k := by
        rintro rfl
        exact hmn (hfree.2 m hm)
      rw [if_neg hj]
      exact h.leads m j hm
  owned j b hb hne := by
    rw [Store.lookup_put] at hb
    rw [Store.lookup_put]
    by_cases hj : j = k
    · rw [if_pos hj] at hb
      cases hb
    · rw [if_neg hj] at hb
      have hlead := h.owned j b hb hne
      have hbn : name b ≠ n := by
        intro heq
        rw [heq] at hlead
        exact hj (hfree.1 j hlead)
      rw [if_neg hbn]
      exact hlead

/-- An item that no name leads to may go. -/
theorem Linked.erase (h : Linked name anon table index) (hno : ∀ m, index.lookup m ≠ some k) :
    Linked name anon (table.put k none) index where
  leads m j hm := by
    have hj : j ≠ k := by
      rintro rfl
      exact hno m hm
    rw [Store.lookup_put, if_neg hj]
    exact h.leads m j hm
  owned j b hb hne := by
    rw [Store.lookup_put] at hb
    by_cases hj : j = k
    · rw [if_pos hj] at hb
      cases hb
    · rw [if_neg hj] at hb
      exact h.owned j b hb hne

end Index
