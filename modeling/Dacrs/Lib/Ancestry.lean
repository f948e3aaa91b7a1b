import Mathlib.Data.List.Infix
import Mathlib.Order.Lattice

/-!
# Marks on the nodes of a tree

A node is the list of entries from itself down to its root, so its ancestors are the suffixes of the
list.  `Clean` nodes have no marked ancestor, `firstMarked` looks for one from the tip down, and
`greatest` picks the last of a set under a comparator.
-/

namespace Ancestry

variable {α : Type}

/-! ## Nodes without a marked ancestor -/

/-- Neither the node nor an ancestor is marked. -/
def Clean (marked : List α → Bool) : List α → Prop
  | [] => True
  | p :: rest => marked (p :: rest) = false ∧ Clean marked rest

/-- The first marked node from the tip down, up to where the walk stops. -/
def firstMarked (stop marked : List α → Bool) : List α → Option (List α)
  | [] => none
  | p :: rest =>
    if stop (p :: rest) then none
    else if marked (p :: rest) then some (p :: rest)
    else firstMarked stop marked rest

/-- The tip moved down past the marked nodes on top. -/
def dropMarked (marked : List α → Bool) : List α → List α
  | [] => []
  | p :: rest => if marked (p :: rest) then dropMarked marked rest else p :: rest

/-- The marked nodes of the chain are all on top. -/
def TopMarked (marked : List α → Bool) (l : List α) : Prop := Clean marked (dropMarked marked l)

section
variable {marked marked' stop : List α → Bool} {l s t : List α}

theorem clean_iff : Clean marked l ↔ ∀ s, s ≠ [] → s <:+ l → marked s = false := by
  induction l with
  | nil =>
    refine iff_of_true trivial ?_
    intro s hs hsuffix
    exact absurd (List.suffix_nil.mp hsuffix) hs
  | cons p rest ih =>
    rw [Clean, ih]
    constructor
    · rintro ⟨htip, hrest⟩ s hs hsuffix
      rcases List.suffix_cons_iff.mp hsuffix with rfl | h
      · exact htip
      · exact hrest s hs h
    · intro h
      exact ⟨h _ (List.cons_ne_nil _ _) (List.suffix_refl _),
        fun s hs hsuffix => h s hs (hsuffix.trans (List.suffix_cons _ _))⟩

theorem Clean.of_suffix (h : Clean marked l) (hs : s <:+ l) : Clean marked s :=
  clean_iff.mpr fun t ht hsuffix => clean_iff.mp h t ht (hsuffix.trans hs)

/-- Marks that no ancestor gets leave a clean node clean. -/
theorem Clean.mono (h : Clean marked l)
    (hnew : ∀ s, s ≠ [] → s <:+ l → marked' s = true → marked s = true) : Clean marked' l := by
  rw [clean_iff] at h ⊢
  intro s hs hsuffix
  by_contra hmark
  have hold := hnew s hs hsuffix (Bool.not_eq_false _ ▸ hmark)
  rw [h s hs hsuffix] at hold
  cases hold

theorem firstMarked_eq_some (h : firstMarked stop marked l = some t) :
    t <:+ l ∧ t ≠ [] ∧ marked t = true := by
  induction l with
  | nil => cases h
  | cons p rest ih =>
    rw [firstMarked] at h
    split at h
    · cases h
    · split at h
      · next hmark =>
        cases h
        exact ⟨List.suffix_refl _, List.cons_ne_nil _ _, hmark⟩
      · obtain ⟨hsuffix, hrest⟩ := ih h
        exact ⟨hsuffix.trans (List.suffix_cons _ _), hrest⟩

theorem clean_of_firstMarked_eq_none (hstop : ∀ s, stop s = true → Clean marked s)
    (h : firstMarked stop marked l = none) : Clean marked l := by
  induction l with
  | nil => trivial
  | cons p rest ih =>
    rw [firstMarked] at h
    split at h
    · next hs => exact hstop _ hs
    · split at h
      · cases h
      · next hmark => exact ⟨Bool.not_eq_true _ ▸ hmark, ih h⟩

/-- A walk that meets no mark has passed every node it did not stop above. -/
theorem unmarked_of_firstMarked_eq_none (hstop : ∀ s t, stop s = true → t ≠ [] → t <:+ s → stop t = true)
    (h : firstMarked stop marked l = none) (ht : t ≠ []) (hsuffix : t <:+ l) (hpass : stop t = false) :
    marked t = false := by
  induction l with
  | nil => exact absurd (List.suffix_nil.mp hsuffix) ht
  | cons p rest ih =>
    have hgo : stop (p :: rest) = false := by
      rw [← Bool.not_eq_true] at hpass ⊢
      exact fun hs => hpass (hstop _ t hs ht hsuffix)
    rw [firstMarked, if_neg (Bool.not_eq_true _ ▸ hgo)] at h
    split at h
    · cases h
    · next hmark =>
      rcases List.suffix_cons_iff.mp hsuffix with rfl | hrest
      · exact Bool.not_eq_true _ ▸ hmark
      · exact ih h hrest

theorem dropMarked_suffix : dropMarked marked l <:+ l := by
  induction l with
  | nil => exact List.suffix_refl _
  | cons p rest ih =>
    rw [dropMarked]
    split
    · exact ih.trans (List.suffix_cons _ _)
    · exact List.suffix_refl _

/-- The tip is not marked. -/
theorem dropMarked_unmarked (hne : dropMarked marked l ≠ []) : marked (dropMarked marked l) = false := by
  induction l with
  | nil => exact absurd rfl hne
  | cons p rest ih =>
    rw [dropMarked] at hne ⊢
    split
    · next hmark =>
      rw [if_pos hmark] at hne
      exact ih hne
    · next hmark => exact Bool.not_eq_true _ ▸ hmark

theorem dropMarked_eq_self (h : Clean marked l) : dropMarked marked l = l := by
  cases l with
  | nil => rfl
  | cons p rest => rw [dropMarked, if_neg (by simp [h.1])]

theorem Clean.topMarked (h : Clean marked l) : TopMarked marked l := by
  rw [TopMarked, dropMarked_eq_self h]
  exact h

theorem topMarked_cons {p : α} {rest : List α} (h : marked (p :: rest) = true) :
    TopMarked marked (p :: rest) ↔ TopMarked marked rest := by
  rw [TopMarked, TopMarked, dropMarked, if_pos h]

theorem topMarked_cons_of_not {p : α} {rest : List α} (h : marked (p :: rest) = false) :
    TopMarked marked (p :: rest) ↔ Clean marked (p :: rest) := by
  rw [TopMarked, dropMarked, if_neg (by simp [h])]

theorem TopMarked.congr (h : TopMarked marked l)
    (heq : ∀ s, s ≠ [] → s <:+ l → marked' s = marked s) : TopMarked marked' l := by
  induction l with
  | nil => trivial
  | cons p rest ih =>
    have htip := heq _ (List.cons_ne_nil p rest) (List.suffix_refl _)
    by_cases hmark : marked (p :: rest) = true
    · rw [topMarked_cons hmark] at h
      rw [topMarked_cons (htip.trans hmark)]
      exact ih h fun s hne hs => heq s hne (hs.trans (List.suffix_cons _ _))
    · rw [Bool.not_eq_true] at hmark
      rw [topMarked_cons_of_not hmark] at h
      refine Clean.topMarked (h.mono fun s hne hs hs' => ?_)
      rw [← heq s hne hs]
      exact hs'

/-- A chain whose marked nodes are on top stays so when only unclean nodes get new marks, or one of
its nodes does whose nodes above are all marked. -/
theorem TopMarked.mark (h : TopMarked marked l) (t : List α)
    (hnew : ∀ s, s ≠ [] → s <:+ l → (marked' s = true ↔ marked s = true ∨ s = t))
    (habove : ∀ s, s <:+ l → t <:+ s → s ≠ t → marked s = true) : TopMarked marked' l := by
  induction l with
  | nil => trivial
  | cons p rest ih =>
    have hrest : ∀ s, s <:+ rest → s <:+ p :: rest := fun s hs => hs.trans (List.suffix_cons _ _)
    have hrec : TopMarked marked rest → TopMarked marked' rest := fun hr =>
      ih hr (fun s hne hs => hnew s hne (hrest s hs)) fun s hs => habove s (hrest s hs)
    by_cases hmark : marked (p :: rest) = true
    · have hmark' : marked' (p :: rest) = true := (hnew _ (List.cons_ne_nil _ _) (List.suffix_refl _)).mpr (.inl hmark)
      rw [topMarked_cons hmark] at h
      rw [topMarked_cons hmark']
      exact hrec h
    · rw [Bool.not_eq_true] at hmark
      have hclean := (topMarked_cons_of_not hmark).mp h
      by_cases ht : p :: rest = t
      · rw [topMarked_cons ((hnew _ (List.cons_ne_nil _ _) (List.suffix_refl _)).mpr (.inr ht))]
        exact hrec (Clean.topMarked hclean.2)
      · apply Clean.topMarked
        refine Clean.mono hclean fun s hne hsuffix hs' => ?_
        rcases (hnew s hne hsuffix).mp hs' with hold | rfl
        · exact hold
        · have habs := habove (p :: rest) (List.suffix_refl _) hsuffix ht
          rw [hmark] at habs
          cases habs

end

/-! ## The last of a set -/

/-- The last element under a comparator. -/
def greatest (less : α → α → Bool) : List α → Option α
  | [] => none
  | a :: rest => match greatest less rest with
    | none => some a
    | some b => if less a b then some b else some a

section
variable {less : α → α → Bool} {κ : Type} [LinearOrder κ] {key : α → κ} {l : List α} {a : α}

theorem greatest_eq_none : greatest less l = none ↔ l = [] := by
  cases l with
  | nil => exact iff_of_true rfl rfl
  | cons a rest =>
    refine iff_of_false ?_ (List.cons_ne_nil _ _)
    rw [greatest]
    cases greatest less rest with
    | none => exact Option.some_ne_none _
    | some b =>
      dsimp only
      split
      · exact Option.some_ne_none _
      · exact Option.some_ne_none _

/-- It is in the set and none of the set is after it. -/
theorem greatest_spec (hless : ∀ a b, less a b = true ↔ key a < key b) (h : greatest less l = some a) :
    a ∈ l ∧ ∀ b ∈ l, key b ≤ key a := by
  induction l generalizing a with
  | nil => cases h
  | cons c rest ih =>
    rw [greatest] at h
    cases hrest : greatest less rest with
    | none =>
      rw [hrest] at h
      cases h
      rw [greatest_eq_none.mp hrest]
      exact ⟨List.mem_singleton_self _, fun b hb => le_of_eq (congrArg key (List.mem_singleton.mp hb))⟩
    | some d =>
      rw [hrest] at h
      dsimp only at h
      obtain ⟨hd, hmax⟩ := ih hrest
      by_cases hcd : less c d = true
      · rw [if_pos hcd] at h
        cases h
        refine ⟨List.mem_cons_of_mem _ hd, ?_⟩
        intro b hb
        rcases List.mem_cons.mp hb with rfl | hb
        · exact le_of_lt ((hless _ _).mp hcd)
        · exact hmax b hb
      · rw [if_neg hcd] at h
        cases h
        have hdc : key d ≤ key c := not_lt.mp fun hlt => hcd ((hless _ _).mpr hlt)
        refine ⟨List.mem_cons_self, ?_⟩
        intro b hb
        rcases List.mem_cons.mp hb with rfl | hb
        · exact le_refl _
        · exact le_trans (hmax b hb) hdc

end

end Ancestry
