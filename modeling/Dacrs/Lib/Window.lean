import Dacrs.Lib.Store

/-!
# A window on a list that grows and shrinks at its head

A store may keep the values of the first `n` elements of a list, each under its own key
(`Store.Lists`).  When an element is pushed, the one at the far edge is evicted; when the head is
popped, the one behind the edge is reloaded.

If every element carries tags that none of the `n` elements behind it carries, and elements with a
common tag are at most `n` apart, no tag occurs twice (`Window.nodup_tags`).
-/

namespace Store

variable {κ ν ε : Type} [DecidableEq κ] {key : ε → κ} {val : ε → ν} {s : Store κ ν}

/-- Some value under some key. -/
theorem any_iff {f : κ → ν → Bool} {s : Store κ ν} :
    s.any f = true ↔ ∃ k v, s.lookup k = some v ∧ f k v = true := by
  induction s using Finmap.induction_on with
  | H s =>
    have hfold : ∀ (l : List (Σ _ : κ, ν)) (b : Bool),
        l.foldl (fun x e => x || f e.1 e.2) b = true ↔ b = true ∨ ∃ e ∈ l, f e.1 e.2 = true := by
      intro l
      induction l with
      | nil => simp
      | cons e l ih =>
        intro b
        rw [List.foldl_cons, ih, Bool.or_eq_true, or_assoc]
        simp
    refine (hfold s.entries false).trans ?_
    constructor
    · rintro (h | ⟨⟨k, v⟩, he, hf⟩)
      · cases h
      · refine ⟨k, v, ?_, hf⟩
        rw [Finmap.lookup_toFinmap]
        exact AList.mem_lookup_iff.mpr he
    · rintro ⟨k, v, hk, hf⟩
      rw [Finmap.lookup_toFinmap] at hk
      exact .inr ⟨⟨k, v⟩, AList.mem_lookup_iff.mp hk, hf⟩

variable (key val) in
/-- The store holds the values of the listed elements under their keys, and nothing else. -/
def Lists (s : Store κ ν) (l : List ε) : Prop :=
  ∀ k v, s.lookup k = some v ↔ ∃ e ∈ l, key e = k ∧ val e = v

namespace Lists

variable {l m : List ε} {a : ε}

theorem congr (h : Lists key val s l) (hm : ∀ e, e ∈ m ↔ e ∈ l) : Lists key val s m := by
  intro k v
  rw [h k v]
  simp only [hm]

/-- One element more. -/
theorem add (h : Lists key val s l) (hm : ∀ e, e ∈ m ↔ e = a ∨ e ∈ l)
    (hnew : ∀ e ∈ l, key e ≠ key a) : Lists key val (s.put (key a) (some (val a))) m := by
  intro k v
  rw [lookup_put]
  by_cases hk : k = key a
  · subst hk
    rw [if_pos rfl]
    constructor
    · intro hv
      exact ⟨a, (hm a).mpr (.inl rfl), rfl, Option.some.inj hv⟩
    · rintro ⟨e, he, hke, rfl⟩
      rcases (hm e).mp he with rfl | he
      · rfl
      · exact absurd hke (hnew e he)
  · rw [if_neg hk, h k v]
    constructor
    · rintro ⟨e, he, hke, hv⟩
      exact ⟨e, (hm e).mpr (.inr he), hke, hv⟩
    · rintro ⟨e, he, rfl, hv⟩
      rcases (hm e).mp he with rfl | he
      · exact absurd rfl hk
      · exact ⟨e, he, rfl, hv⟩

/-- One element less. -/
theorem remove (h : Lists key val s l) (hm : ∀ e, e ∈ l ↔ e = a ∨ e ∈ m)
    (hnew : ∀ e ∈ m, key e ≠ key a) : Lists key val (s.put (key a) none) m := by
  intro k v
  rw [lookup_put]
  by_cases hk : k = key a
  · subst hk
    rw [if_pos rfl]
    constructor
    · intro hv
      cases hv
    · rintro ⟨e, he, hke, -⟩
      exact absurd hke (hnew e he)
  · rw [if_neg hk, h k v]
    constructor
    · rintro ⟨e, he, rfl, hv⟩
      rcases (hm e).mp he with rfl | he
      · exact absurd rfl hk
      · exact ⟨e, he, rfl, hv⟩
    · rintro ⟨e, he, hke, hv⟩
      exact ⟨e, (hm e).mpr (.inr he), hke, hv⟩

/-! ### The four moves of a window -/

omit [DecidableEq κ] in
theorem key_ne_of_mem_tail (hkeys : ((a :: l).map key).Nodup) {e : ε} (he : e ∈ l) :
    key e ≠ key a := by
  rw [List.map_cons, List.nodup_cons] at hkeys
  intro h
  apply hkeys.1
  rw [← h]
  exact List.mem_map_of_mem he

/-- The head is pushed, and the window is one too long. -/
theorem push {n : ℕ} (hkeys : ((a :: l).map key).Nodup) (h : Lists key val s (l.take n)) :
    Lists key val (s.put (key a) (some (val a))) ((a :: l).take (n + 1)) := by
  rw [List.take_succ_cons]
  apply h.add
  · intro e
    exact List.mem_cons
  · intro e he
    exact key_ne_of_mem_tail hkeys (List.mem_of_mem_take he)

/-- The head is popped, and the window is one too short. -/
theorem pop {n : ℕ} (hkeys : ((a :: l).map key).Nodup)
    (h : Lists key val s ((a :: l).take (n + 1))) :
    Lists key val (s.put (key a) none) (l.take n) := by
  rw [List.take_succ_cons] at h
  apply h.remove
  · intro e
    exact List.mem_cons
  · intro e he
    exact key_ne_of_mem_tail hkeys (List.mem_of_mem_take he)

theorem mem_take_succ {n : ℕ} {d e : ε} (hd : l[n]? = some d) :
    e ∈ l.take (n + 1) ↔ e = d ∨ e ∈ l.take n := by
  rw [List.take_add_one, hd, List.mem_append, or_comm]
  simp

omit [DecidableEq κ] in
theorem key_ne_of_mem_take {n : ℕ} {d e : ε} (hkeys : (l.map key).Nodup) (hd : l[n]? = some d)
    (he : e ∈ l.take n) : key e ≠ key d := by
  obtain ⟨i, hi, hget⟩ := List.mem_take_iff_getElem.mp he
  obtain ⟨hn, rfl⟩ := List.getElem?_eq_some_iff.mp hd
  intro h
  rw [← hget] at h
  have hlen : (l.map key).length = l.length := List.length_map _
  have hi' : i < (l.map key).length := by omega
  have hn' : n < (l.map key).length := by omega
  have hmap : (l.map key)[i] = (l.map key)[n] := by
    rw [List.getElem_map, List.getElem_map]
    exact h
  have hin := hkeys.getElem_inj_iff.mp hmap
  omega

/-- The element at the far edge is evicted. -/
theorem evict {n : ℕ} {d : ε} (hkeys : (l.map key).Nodup) (hd : l[n]? = some d)
    (h : Lists key val s (l.take (n + 1))) : Lists key val (s.put (key d) none) (l.take n) := by
  apply h.remove
  · intro e
    exact mem_take_succ hd
  · intro e he
    exact key_ne_of_mem_take hkeys hd he

/-- The element behind the edge is reloaded. -/
theorem reload {n : ℕ} {d : ε} (hkeys : (l.map key).Nodup) (hd : l[n]? = some d)
    (h : Lists key val s (l.take n)) :
    Lists key val (s.put (key d) (some (val d))) (l.take (n + 1)) := by
  apply h.add
  · intro e
    exact mem_take_succ hd
  · intro e he
    exact key_ne_of_mem_take hkeys hd he

end Lists

end Store

namespace Window

variable {ε τ : Type} {tags : ε → List τ} {l : List ε} {n : ℕ}

/-- No element carries a tag of one of the `n` elements behind it. -/
def Fresh (tags : ε → List τ) (n : ℕ) (l : List ε) : Prop :=
  ∀ i e, l[i]? = some e → ∀ e' ∈ (l.drop (i + 1)).take n, ∀ t ∈ tags e, t ∉ tags e'

/-- Elements with a common tag are at most `n` apart. -/
def Near (tags : ε → List τ) (n : ℕ) (l : List ε) : Prop :=
  ∀ i j e e', l[i]? = some e → l[j]? = some e' → i < j → ∀ t ∈ tags e, t ∈ tags e' → j ≤ i + n

theorem Fresh.cons {a : ε} (h : Fresh tags n l)
    (ha : ∀ e ∈ l.take n, ∀ t ∈ tags a, t ∉ tags e) : Fresh tags n (a :: l) := by
  intro i e hi
  cases i with
  | zero =>
    obtain rfl := Option.some.inj hi
    exact ha
  | succ i => exact h i e hi

theorem Fresh.tail {a : ε} (h : Fresh tags n (a :: l)) : Fresh tags n l :=
  fun i e hi => h (i + 1) e hi

/-- A tag that came twice would come twice within the window. -/
theorem nodup_tags (hfresh : Fresh tags n l) (hnear : Near tags n l)
    (heach : ∀ e ∈ l, (tags e).Nodup) : (l.flatMap tags).Nodup := by
  rw [List.nodup_flatMap]
  refine ⟨heach, ?_⟩
  rw [List.pairwise_iff_getElem]
  intro i j hi hj hij t hti htj
  have hei := List.getElem?_eq_getElem hi
  have hej := List.getElem?_eq_getElem hj
  have hle := hnear i j _ _ hei hej hij t hti htj
  apply hfresh i l[i] hei l[j] ?_ t hti htj
  rw [List.mem_take_iff_getElem]
  refine ⟨j - (i + 1), ?_, ?_⟩
  · rw [List.length_drop]
    omega
  · rw [List.getElem_drop]
    congr 1
    omega

end Window
