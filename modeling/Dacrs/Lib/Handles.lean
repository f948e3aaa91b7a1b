import Dacrs.Lib.Store

/-!
# Lists with handles, and an index into them

A list whose elements are named by handles, which stay good while the element is in the list, as the
iterators of a linked list do.  Owners have a list each, and an index says of each key which element of
which owner's list is the key's.  `Indexed` is that they agree, for handles given out so far; it is kept
by adding an element under a new handle, by erasing what the index points to, and by dropping an owner.
-/

namespace Handles

variable {α κ π : Type}

/-- The elements of a list with their handles. -/
abbrev Listed (α : Type) := List (ℕ × α)

/-- Erase the element with this handle. -/
def erase (l : Listed α) (c : ℕ) : Listed α := l.eraseP fun e => e.1 == c

/-- Where one element is meant, erasing the first that fits leaves those that do not. -/
theorem eraseP_eq_filter {l : List α} {P : α → Bool} (hl : l.Nodup)
    (hone : ∀ a ∈ l, ∀ b ∈ l, P a = true → P b = true → a = b) : l.eraseP P = l.filter fun a => !P a := by
  induction l with
  | nil => rfl
  | cons a l ih =>
    obtain ⟨ha, hl'⟩ := List.nodup_cons.mp hl
    by_cases hP : P a = true
    · rw [List.eraseP_cons_of_pos hP, List.filter_cons_of_neg (by simp [hP])]
      refine (List.filter_eq_self.mpr fun b hb => ?_).symm
      have hb' : ¬ P b = true := by
        intro hPb
        obtain rfl := hone a List.mem_cons_self b (List.mem_cons_of_mem a hb) hP hPb
        exact ha hb
      simpa using hb'
    · rw [List.eraseP_cons_of_neg hP, List.filter_cons_of_pos (by simp [hP])]
      rw [ih hl' fun b hb c hc => hone b (List.mem_cons_of_mem a hb) c (List.mem_cons_of_mem a hc)]

theorem mem_erase {l : Listed α} {c : ℕ} (hl : (l.map Prod.fst).Nodup) {e : ℕ × α} :
    e ∈ erase l c ↔ e ∈ l ∧ e.1 ≠ c := by
  have hone : ∀ a ∈ l, ∀ b ∈ l, (a.1 == c) = true → (b.1 == c) = true → a = b := by
    intro a ha b hb hac hbc
    rw [beq_iff_eq] at hac hbc
    exact List.inj_on_of_nodup_map hl ha hb (hac.trans hbc.symm)
  unfold erase
  rw [eraseP_eq_filter hl.of_map hone, List.mem_filter]
  simp

theorem nodup_erase {l : Listed α} (hl : (l.map Prod.fst).Nodup) (c : ℕ) :
    ((erase l c).map Prod.fst).Nodup :=
  hl.sublist (List.eraseP_sublist.map Prod.fst)

theorem length_erase {l : Listed α} {c : ℕ} {a : α} (h : (c, a) ∈ l) :
    (erase l c).length + 1 = l.length := by
  have hlen := List.length_eraseP_of_mem (p := fun e : ℕ × α => e.1 == c) h (by simp)
  have hpos := List.length_pos_of_mem h
  unfold erase
  omega

section Index

variable [DecidableEq κ] (key : α → κ)

/-- The index and the lists agree, for handles below `n`. -/
structure Indexed (index : Store κ (π × ℕ)) (list : π → Listed α) (n : ℕ) : Prop where
  /-- what the index points to is there, under its key -/
  points : ∀ {k p c}, index.lookup k = some (p, c) → ∃ a, (c, a) ∈ list p ∧ key a = k
  /-- what is listed is what the index points to -/
  listed : ∀ {p c a}, (c, a) ∈ list p → index.lookup (key a) = some (p, c)
  /-- a handle names one element of a list -/
  nodup : ∀ p, ((list p).map Prod.fst).Nodup
  below : ∀ {p c a}, (c, a) ∈ list p → c < n

variable {key} {index : Store κ (π × ℕ)} {list list' : π → Listed α} {n : ℕ}

theorem indexed_empty : Indexed key (∅ : Store κ (π × ℕ)) (fun _ => []) 0 where
  points h := Store.of_lookup_empty h
  listed h := absurd h (by simp)
  nodup _ := List.nodup_nil
  below h := absurd h (by simp)

/-- Handles that have not been given out change nothing. -/
theorem Indexed.mono {m : ℕ} (h : Indexed key index list n) (hm : n ≤ m) : Indexed key index list m :=
  { h with below := fun he => (h.below he).trans_le hm }

/-- A key that is new gets a new element at the end of a list. -/
theorem Indexed.push (h : Indexed key index list n) {p : π} {a : α} (hk : index.lookup (key a) = none)
    (hp : list' p = list p ++ [(n, a)]) (hne : ∀ q, q ≠ p → list' q = list q) :
    Indexed key (index.put (key a) (some (p, n))) list' (n + 1) := by
  have hmem : ∀ {q c b}, (c, b) ∈ list' q ↔ (c, b) ∈ list q ∨ q = p ∧ c = n ∧ b = a := by
    intro q c b
    by_cases hq : q = p
    · subst hq
      simp [hp]
    · simp [hne q hq, hq]
  constructor
  · intro k q c hlook
    rw [Store.lookup_put] at hlook
    split at hlook
    · next hka =>
      obtain ⟨rfl, rfl⟩ := Prod.mk.inj (Option.some.inj hlook)
      exact ⟨a, hmem.mpr (.inr ⟨rfl, rfl, rfl⟩), hka.symm⟩
    · obtain ⟨b, hb, hkb⟩ := h.points hlook
      exact ⟨b, hmem.mpr (.inl hb), hkb⟩
  · intro q c b hb
    rcases hmem.mp hb with hold | ⟨rfl, rfl, rfl⟩
    · have hlook := h.listed hold
      have hother : key b ≠ key a := by
        intro heq
        rw [heq, hk] at hlook
        cases hlook
      rw [Store.lookup_put_ne _ _ hother]
      exact hlook
    · exact Store.lookup_put_self _ _ _
  · intro q
    by_cases hq : q = p
    · subst hq
      rw [hp, List.map_append, List.nodup_append]
      refine ⟨h.nodup q, by simp, ?_⟩
      intro c hc d hd heq
      obtain ⟨⟨c', b⟩, hb, rfl⟩ := List.mem_map.mp hc
      have hlt := h.below hb
      simp at hd
      omega
    · rw [hne q hq]
      exact h.nodup q
  · intro q c b hb
    rcases hmem.mp hb with hold | ⟨-, rfl, -⟩
    · exact (h.below hold).trans (by omega)
    · omega

/-- What the index points to is erased, and its key with it. -/
theorem Indexed.erase (h : Indexed key index list n) {k : κ} {p : π} {c : ℕ}
    (hk : index.lookup k = some (p, c)) (hp : list' p = Handles.erase (list p) c)
    (hne : ∀ q, q ≠ p → list' q = list q) : Indexed key (index.put k none) list' n := by
  have hmem : ∀ {q d b}, (d, b) ∈ list' q ↔ (d, b) ∈ list q ∧ ¬ (q = p ∧ d = c) := by
    intro q d b
    by_cases hq : q = p
    · subst hq
      rw [hp, mem_erase (h.nodup q)]
      simp
    · simp [hne q hq, hq]
  obtain ⟨a, ha, hka⟩ := h.points hk
  constructor
  · intro j q d hlook
    rw [Store.lookup_put] at hlook
    split at hlook
    · cases hlook
    · next hj =>
      obtain ⟨b, hb, hkb⟩ := h.points hlook
      refine ⟨b, hmem.mpr ⟨hb, ?_⟩, hkb⟩
      -- one handle of one list is one element, so the keys would be one
      rintro ⟨rfl, rfl⟩
      have hsame : (d, b) = (d, a) := List.inj_on_of_nodup_map (h.nodup q) hb ha rfl
      obtain rfl : b = a := (Prod.mk.inj hsame).2
      exact hj (hkb.symm.trans hka)
  · intro q d b hb
    obtain ⟨hold, hother⟩ := hmem.mp hb
    have hlook := h.listed hold
    have hne' : key b ≠ k := by
      intro heq
      rw [heq, hk] at hlook
      obtain ⟨rfl, rfl⟩ := Prod.mk.inj (Option.some.inj hlook)
      exact hother ⟨rfl, rfl⟩
    rw [Store.lookup_put_ne _ _ hne']
    exact hlook
  · intro q
    by_cases hq : q = p
    · subst hq
      rw [hp]
      exact nodup_erase (h.nodup q) c
    · rw [hne q hq]
      exact h.nodup q
  · intro q d b hb
    exact h.below (hmem.mp hb).1

/-- Erasing the keys of a list one by one. -/
theorem lookup_foldl_put_none (l : Listed α) (index : Store κ (π × ℕ)) (k : κ) :
    (l.foldl (fun index e => index.put (key e.2) none) index).lookup k
      = if ∃ e ∈ l, key e.2 = k then none else index.lookup k := by
  induction l generalizing index with
  | nil => simp
  | cons a l ih =>
    rw [List.foldl_cons, ih, Store.lookup_put]
    by_cases hl : ∃ e ∈ l, key e.2 = k
    · obtain ⟨e, he, hke⟩ := hl
      rw [if_pos ⟨e, he, hke⟩, if_pos ⟨e, List.mem_cons_of_mem a he, hke⟩]
    · rw [if_neg hl]
      by_cases ha : k = key a.2
      · rw [if_pos ha, if_pos ⟨a, List.mem_cons_self, ha.symm⟩]
      · rw [if_neg ha, if_neg]
        rintro ⟨e, he, hke⟩
        rcases List.mem_cons.mp he with rfl | he
        · exact ha hke.symm
        · exact hl ⟨e, he, hke⟩

/-- An owner goes, with the keys of its list. -/
theorem Indexed.drop (h : Indexed key index list n) {p : π} (hp : list' p = [])
    (hne : ∀ q, q ≠ p → list' q = list q) :
    Indexed key ((list p).foldl (fun index e => index.put (key e.2) none) index) list' n := by
  constructor
  · intro k q c hlook
    rw [lookup_foldl_put_none] at hlook
    split at hlook
    · cases hlook
    · next hno =>
      obtain ⟨a, ha, hka⟩ := h.points hlook
      have hq : q ≠ p := by
        rintro rfl
        exact hno ⟨(c, a), ha, hka⟩
      exact ⟨a, by rwa [hne q hq], hka⟩
  · intro q c a ha
    have hq : q ≠ p := by
      rintro rfl
      rw [hp] at ha
      cases ha
    rw [hne q hq] at ha
    have hlook := h.listed ha
    rw [lookup_foldl_put_none, if_neg]
    · exact hlook
    · rintro ⟨e, he, hke⟩
      have hlook' := h.listed he
      rw [hke, hlook] at hlook'
      exact hq (Prod.mk.inj (Option.some.inj hlook')).1
  · intro q
    by_cases hq : q = p
    · subst hq
      rw [hp]
      exact List.nodup_nil
    · rw [hne q hq]
      exact h.nodup q
  · intro q c a ha
    by_cases hq : q = p
    · subst hq
      rw [hp] at ha
      cases ha
    · rw [hne q hq] at ha
      exact h.below ha

end Index

end Handles
