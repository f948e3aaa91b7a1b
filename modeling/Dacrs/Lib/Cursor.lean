import Mathlib.Data.Finmap
import Mathlib.Data.Finset.Sort
import Mathlib.Data.List.Sort
import Mathlib.Tactic

/-!
# Walks through a map in key order

A partial function from an ordered type of keys, and a cursor that is asked for its first entry and
then, from each entry, for the next (`walk`).  `Least m P r` says that `r` is the entry of `m` with
the least key among those in `P`, or that there is none.

* `listed_of_answers`: a cursor that answers every question of its walk with the least entry lists
  the whole map, each entry once and in ascending order, and stops.
* `Least.of_upper`, `Least.of_lower`, `Least.of_neither`, `Least.skip`: the least entry of a map
  laid over another one, from the least entries of the two.
-/

namespace Cursor

variable {κ ν σ ε : Type} [LinearOrder κ]

/-! ## Keys in order -/

/-- The members of a multiset in ascending order. -/
def inOrder (s : Multiset κ) : List κ :=
  Quot.liftOn s (List.insertionSort (· ≤ ·)) fun a b h => by
    have ha := List.perm_insertionSort (· ≤ ·) a
    have hb := List.perm_insertionSort (· ≤ ·) b
    exact (ha.trans (h.trans hb.symm)).eq_of_pairwise (fun _ _ _ _ => le_antisymm)
      (List.pairwise_insertionSort (· ≤ ·) a) (List.pairwise_insertionSort (· ≤ ·) b)

theorem mem_inOrder {s : Multiset κ} {k : κ} : k ∈ inOrder s ↔ k ∈ s := by
  induction s using Quot.inductionOn with
  | h l => exact List.mem_insertionSort (· ≤ ·)

/-- Different members are in strictly ascending order. -/
theorem inOrder_ascending {s : Multiset κ} (h : s.Nodup) : (inOrder s).Pairwise (· < ·) := by
  induction s using Quot.inductionOn with
  | h l =>
    have hle := List.pairwise_insertionSort (· ≤ ·) l
    have hne : (List.insertionSort (· ≤ ·) l).Nodup :=
      (List.perm_insertionSort (· ≤ ·) l).nodup_iff.mpr (Multiset.coe_nodup.mp h)
    exact (hle.and hne).imp fun hxy => lt_of_le_of_ne hxy.1 hxy.2

/-! ## Least entries -/

/-- The entry of the least key of `m` among those in `P`, or none. -/
def Least (m : κ → Option ν) (P : κ → Prop) : Option (κ × ν) → Prop
  | none => ∀ k, P k → m k = none
  | some e => P e.1 ∧ m e.1 = some e.2 ∧ ∀ k, P k → k < e.1 → m k = none

variable {m m' upper lower : κ → Option ν} {P Q : κ → Prop} {r r' : Option (κ × ν)} {e f : κ × ν}

theorem Least.unique (h : Least m P r) (h' : Least m P r') : r = r' := by
  cases r with
  | none =>
    cases r' with
    | none => rfl
    | some f => cases (h f.1 h'.1).symm.trans h'.2.1
  | some e =>
    cases r' with
    | none => cases (h' e.1 h.1).symm.trans h.2.1
    | some f =>
      obtain ⟨heP, he, hemin⟩ := h
      obtain ⟨hfP, hf, hfmin⟩ := h'
      have hkey : e.1 = f.1 := by
        apply le_antisymm
        · by_contra hlt
          cases (hemin f.1 hfP (not_le.mp hlt)).symm.trans hf
        · by_contra hlt
          cases (hfmin e.1 heP (not_le.mp hlt)).symm.trans he
      have hval : e.2 = f.2 := by
        rw [hkey, hf] at he
        exact (Option.some.inj he).symm
      exact congrArg some (Prod.ext hkey hval)

theorem Least.congr (h : Least m P r) (hm : ∀ k, P k → m' k = m k) : Least m' P r := by
  cases r with
  | none => exact fun k hk => (hm k hk).trans (h k hk)
  | some e =>
    obtain ⟨hP, he, hmin⟩ := h
    exact ⟨hP, (hm e.1 hP).trans he, fun k hk hlt => (hm k hk).trans (hmin k hk hlt)⟩

theorem Least.congr_set (h : Least m P r) (hPQ : ∀ k, Q k ↔ P k) : Least m Q r := by
  have hQ : Q = P := funext fun k => propext (hPQ k)
  exact hQ ▸ h

/-- The keys that come after a question: all of them, or those above a key. -/
def After : Option κ → κ → Prop
  | none, _ => True
  | some j, k => j < k

/-- The same in other names for the keys. -/
theorem Least.comap {ι : Type} [LinearOrder ι] {name : ι → κ} (hname : StrictMono name) {id : κ → ι}
    (hid : ∀ i, id (name i) = i) (h : Least m P r) (hrange : ∀ e, r = some e → ∃ i, name i = e.1) :
    Least (fun i => m (name i)) (fun i => P (name i)) (r.map fun e => (id e.1, e.2)) := by
  cases r with
  | none => exact fun i hi => h (name i) hi
  | some e =>
    obtain ⟨i, hi⟩ := hrange e rfl
    obtain ⟨heP, he, hmin⟩ := h
    show P (name (id e.1)) ∧ m (name (id e.1)) = some e.2 ∧ ∀ j, P (name j) → j < id e.1 → m (name j) = none
    rw [← hi, hid, hi]
    refine ⟨heP, he, fun j hj hlt => hmin (name j) hj ?_⟩
    rw [← hi]
    exact hname hlt

instance decidableAfter (q : Option κ) (k : κ) : Decidable (After q k) :=
  match q with
  | none => isTrue trivial
  | some j => inferInstanceAs (Decidable (j < k))

theorem After.mono {q : Option κ} {j k : κ} (h : After q j) (hle : j ≤ k) : After q k := by
  cases q with
  | none => trivial
  | some i => exact lt_of_lt_of_le h hle

/-- Fewer keys are left behind a key that a question leads to. -/
theorem card_after_lt {B : Finset κ} {q : Option κ} {k : κ} (hq : After q k) (hk : k ∈ B) :
    (B.filter (After (some k))).card < (B.filter (After q)).card := by
  refine Finset.card_lt_card (Finset.ssubset_iff_of_subset (fun j hj => ?_) |>.mpr ⟨k, ?_, ?_⟩)
  · obtain ⟨hjB, hj⟩ := Finset.mem_filter.mp hj
    exact Finset.mem_filter.mpr ⟨hjB, hq.mono (le_of_lt hj)⟩
  · exact Finset.mem_filter.mpr ⟨hk, hq⟩
  · intro hmem
    exact lt_irrefl k (Finset.mem_filter.mp hmem).2

/-! ## Maps laid over one another -/

/-- Nothing but the entries of the two. -/
def Within (m upper lower : κ → Option ν) : Prop := ∀ k, upper k = none → lower k = none → m k = none

theorem Least.of_neither (hm : Within m upper lower) (hu : Least upper P none) (hl : Least lower P none) :
    Least m P none := fun k hk => hm k (hu k hk) (hl k hk)

/-- The entry of the upper map, when the lower one has nothing before it. -/
theorem Least.of_upper (hm : Within m upper lower) (hu : Least upper P (some e)) (he : m e.1 = some e.2)
    (hl : Least lower P r) (hr : ∀ f, r = some f → e.1 ≤ f.1) : Least m P (some e) := by
  refine ⟨hu.1, he, fun k hk hlt => hm k (hu.2.2 k hk hlt) ?_⟩
  cases r with
  | none => exact hl k hk
  | some f => exact hl.2.2 k hk (lt_of_lt_of_le hlt (hr f rfl))

/-- The entry of the lower map, when the upper one has nothing before it. -/
theorem Least.of_lower (hm : Within m upper lower) (hl : Least lower P (some e)) (he : m e.1 = some e.2)
    (hu : Least upper P r) (hr : ∀ f, r = some f → e.1 ≤ f.1) : Least m P (some e) := by
  refine ⟨hl.1, he, fun k hk hlt => hm k ?_ (hl.2.2 k hk hlt)⟩
  cases r with
  | none => exact hu k hk
  | some f => exact hu.2.2 k hk (lt_of_lt_of_le hlt (hr f rfl))

/-- Keys without entries make no difference. -/
theorem Least.widen (h : Least m P r) (hPQ : ∀ k, P k → Q k) (hnone : ∀ k, Q k → ¬ P k → m k = none) :
    Least m Q r := by
  cases r with
  | none =>
    intro k hk
    by_cases hP : P k
    · exact h k hP
    · exact hnone k hk hP
  | some e =>
    obtain ⟨hP, he, hmin⟩ := h
    refine ⟨hPQ e.1 hP, he, fun k hk hlt => ?_⟩
    by_cases hP : P k
    · exact hmin k hP hlt
    · exact hnone k hk hP

/-- Past the least key of the lower map, when the whole has nothing up to it. -/
theorem Least.skip {j : κ} (hP : ∀ k, j < k → P k) (hbefore : ∀ k, P k → k ≤ j → m k = none)
    (h : Least m (After (some j)) r) : Least m P r :=
  h.widen hP fun k hk hle => hbefore k hk (not_lt.mp hle)

/-- Further entries that all come after one that is there. -/
theorem Least.of_subset (h : Least m P r) (hsub : ∀ k v, P k → m k = some v → m' k = some v)
    (hextra : ∀ k, P k → m k = none → m' k ≠ none → ∃ j, P j ∧ j < k ∧ m j ≠ none) : Least m' P r := by
  cases r with
  | none =>
    intro k hk
    by_contra hne
    obtain ⟨j, hj, _, hmj⟩ := hextra k hk (h k hk) hne
    exact hmj (h j hj)
  | some e =>
    obtain ⟨hP, he, hmin⟩ := h
    refine ⟨hP, hsub e.1 e.2 hP he, fun k hk hlt => ?_⟩
    by_contra hne
    obtain ⟨j, hj, hjk, hmj⟩ := hextra k hk (hmin k hk hlt) hne
    exact hmj (hmin j hj (lt_trans hjk hlt))

/-! ## A search through a list of keys -/

/-- The first key that qualifies in a list in ascending order. -/
theorem least_find {p : κ → Bool} {l : List κ} (hl : l.Pairwise (· < ·)) {get : κ → ν}
    (hm : ∀ k, P k → (m k = if k ∈ l ∧ p k = true then some (get k) else none))
    (hP : ∀ k ∈ l, p k = true → P k) : Least m P ((l.find? p).map fun k => (k, get k)) := by
  cases hfind : l.find? p with
  | none =>
    intro k hk
    rw [hm k hk, if_neg]
    rintro ⟨hmem, hp⟩
    exact List.find?_eq_none.mp hfind k hmem hp
  | some e =>
    have hp : p e = true := List.find?_some hfind
    have hmem : e ∈ l := List.mem_of_find?_eq_some hfind
    refine ⟨hP e hmem hp, (hm e (hP e hmem hp)).trans (if_pos ⟨hmem, hp⟩), fun k hk hlt => ?_⟩
    rw [hm k hk, if_neg]
    rintro ⟨hkmem, hkp⟩
    obtain ⟨_, l₁, l₂, rfl, hbefore⟩ := List.find?_eq_some_iff_append.mp hfind
    rcases List.mem_append.mp hkmem with h | h
    · have hfalse := hbefore k h
      rw [hkp] at hfalse
      exact absurd hfalse (by simp)
    · rcases List.mem_cons.mp h with rfl | h
      · exact lt_irrefl _ hlt
      · have hafter := (List.pairwise_append.mp hl).2.1
        exact lt_asymm hlt ((List.pairwise_cons.mp hafter).1 k h)

/-- What is left after the keys that a lower set holds. -/
theorem mem_dropWhile {p : κ → Bool} (hp : ∀ j k, j < k → p k = true → p j = true) {l : List κ}
    (hl : l.Pairwise (· < ·)) {k : κ} : k ∈ l.dropWhile p ↔ k ∈ l ∧ p k = false := by
  induction l with
  | nil => simp
  | cons j l ih =>
    obtain ⟨hj, hl⟩ := List.pairwise_cons.mp hl
    cases hpj : p j with
    | true =>
      rw [List.dropWhile_cons_of_pos hpj, ih hl, List.mem_cons]
      constructor
      · rintro ⟨hk, hpk⟩
        exact ⟨.inr hk, hpk⟩
      · rintro ⟨rfl | hk, hpk⟩
        · cases hpj.symm.trans hpk
        · exact ⟨hk, hpk⟩
    | false =>
      rw [List.dropWhile_cons_of_neg (by simp [hpj]), List.mem_cons]
      constructor
      · rintro (rfl | hk)
        · exact ⟨.inl rfl, hpj⟩
        · refine ⟨.inr hk, ?_⟩
          cases hpk : p k with
          | false => rfl
          | true => cases hpj.symm.trans (hp j k (hj k hk) hpk)
      · exact fun h => h.1

/-- The keys from `j` on, and the keys above `j`. -/
theorem mem_dropWhile_lt {l : List κ} (hl : l.Pairwise (· < ·)) {j k : κ} :
    k ∈ l.dropWhile (fun i => decide (i < j)) ↔ k ∈ l ∧ j ≤ k := by
  rw [mem_dropWhile (fun a b hab hb => by simp at *; exact lt_trans hab hb) hl, decide_eq_false_iff_not, not_lt]

theorem mem_dropWhile_le {l : List κ} (hl : l.Pairwise (· < ·)) {j k : κ} :
    k ∈ l.dropWhile (fun i => decide (i ≤ j)) ↔ k ∈ l ∧ j < k := by
  rw [mem_dropWhile (fun a b hab hb => by simp at *; exact (lt_of_lt_of_le hab hb).le) hl,
    decide_eq_false_iff_not, not_le]

theorem pairwise_dropWhile {l : List κ} (p : κ → Bool) (hl : l.Pairwise (· < ·)) :
    (l.dropWhile p).Pairwise (· < ·) := hl.sublist (List.dropWhile_sublist p)

/-- From `j` on, and above `j`: only `j` itself makes a difference. -/
theorem dropWhile_lt_of_mem {l : List κ} (hl : l.Pairwise (· < ·)) {j : κ} (hj : j ∈ l) :
    l.dropWhile (fun i => decide (i < j)) = j :: l.dropWhile (fun i => decide (i ≤ j)) := by
  induction l with
  | nil => cases hj
  | cons k l ih =>
    obtain ⟨hk, hl⟩ := List.pairwise_cons.mp hl
    rcases List.mem_cons.mp hj with rfl | hj
    · have hfirst : l.dropWhile (fun i => decide (i ≤ j)) = l := by
        cases l with
        | nil => rfl
        | cons i l => exact List.dropWhile_cons_of_neg (by simpa using hk i List.mem_cons_self)
      rw [List.dropWhile_cons_of_neg (by simp), List.dropWhile_cons_of_pos (by simp), hfirst]
    · have hlt := hk j hj
      rw [List.dropWhile_cons_of_pos (by simp [hlt]), List.dropWhile_cons_of_pos (by simp [hlt.le]), ih hl hj]

theorem dropWhile_lt_of_notMem {l : List κ} {j : κ} (hj : j ∉ l) :
    l.dropWhile (fun i => decide (i < j)) = l.dropWhile (fun i => decide (i ≤ j)) := by
  induction l with
  | nil => rfl
  | cons k l ih =>
    obtain ⟨hne, hj⟩ := not_or.mp (mt List.mem_cons.mpr hj)
    rcases lt_or_gt_of_ne hne with hlt | hlt
    · rw [List.dropWhile_cons_of_neg (by simp [hlt.le]), List.dropWhile_cons_of_neg (by simp [hlt])]
    · rw [List.dropWhile_cons_of_pos (by simp [hlt]), List.dropWhile_cons_of_pos (by simp [hlt.le]), ih hj]

/-! ## Walks -/

/-- Ask for the first entry, and from each entry for the next, `n` questions at most. -/
def walk (ask : σ → Option κ → Except ε (Option (κ × ν) × σ)) (stuck : ε) :
    ℕ → σ → Option κ → Except ε (List (κ × ν))
  | 0, _, _ => .error stuck
  | n + 1, s, q =>
    match ask s q with
    | .error what => .error what
    | .ok (none, _) => .ok []
    | .ok (some e, s') => (walk ask stuck n s' (some e.1)).map (e :: ·)

/-- The entries of `m` after a question, each once and in ascending order. -/
structure Listing (m : κ → Option ν) (q : Option κ) (l : List (κ × ν)) : Prop where
  ascending : l.Pairwise (·.1 < ·.1)
  mem : ∀ e, e ∈ l ↔ After q e.1 ∧ m e.1 = some e.2

/-- With enough fuel the outcome is a list of all of `m`. -/
def Enumerates (outcome : ℕ → Except ε (List (κ × ν))) (m : κ → Option ν) : Prop :=
  ∃ l, Listing m none l ∧ ∃ N, ∀ n, N ≤ n → outcome n = .ok l

theorem Listing.least {q : Option κ} {l : List (κ × ν)} (h : Listing m q l) : Least m (After q) l.head? := by
  cases l with
  | nil =>
    intro k hk
    cases hmk : m k with
    | none => rfl
    | some v => cases (h.mem (k, v)).mpr ⟨hk, hmk⟩
  | cons e l =>
    obtain ⟨hq, he⟩ := (h.mem e).mp List.mem_cons_self
    refine ⟨hq, he, fun k hk hlt => ?_⟩
    cases hmk : m k with
    | none => rfl
    | some v =>
      rcases List.mem_cons.mp ((h.mem (k, v)).mpr ⟨hk, hmk⟩) with rfl | hmem
      · exact absurd hlt (lt_irrefl _)
      · exact absurd hlt (lt_asymm ((List.pairwise_cons.mp h.ascending).1 _ hmem))

/-- What comes after the first entry. -/
theorem Listing.tail {q : Option κ} {l : List (κ × ν)} (h : Listing m q (e :: l)) : Listing m (some e.1) l := by
  obtain ⟨hhead, htail⟩ := List.pairwise_cons.mp h.ascending
  refine ⟨htail, fun f => ⟨fun hf => ⟨hhead f hf, ((h.mem f).mp (List.mem_cons_of_mem e hf)).2⟩, ?_⟩⟩
  rintro ⟨hlt, hf⟩
  have hq : After q f.1 := by
    have he := ((h.mem e).mp List.mem_cons_self).1
    cases q with
    | none => trivial
    | some j => exact lt_trans he hlt
  rcases List.mem_cons.mp ((h.mem f).mpr ⟨hq, hf⟩) with rfl | hmem
  · exact absurd hlt (lt_irrefl _)
  · exact hmem

/-- A map of finitely many keys has a listing. -/
theorem exists_listing (hfin : ∃ B : Finset κ, ∀ k, m k ≠ none → k ∈ B) : ∃ l, Listing m none l := by
  obtain ⟨B, hB⟩ := hfin
  refine ⟨(inOrder B.val).filterMap fun k => (m k).map (k, ·), ?_, fun e => ?_⟩
  · refine List.Pairwise.filterMap _ (fun j k hlt e he f hf => ?_) (inOrder_ascending B.nodup)
    obtain ⟨v, _, rfl⟩ := Option.map_eq_some_iff.mp he
    obtain ⟨w, _, rfl⟩ := Option.map_eq_some_iff.mp hf
    exact hlt
  · rw [List.mem_filterMap]
    constructor
    · rintro ⟨k, _, he⟩
      obtain ⟨v, hv, rfl⟩ := Option.map_eq_some_iff.mp he
      exact ⟨trivial, hv⟩
    · rintro ⟨_, he⟩
      refine ⟨e.1, mem_inOrder.mpr (hB e.1 ?_), by rw [he]; rfl⟩
      rw [he]
      simp

/-- Two maps with one listing are the same. -/
theorem Listing.unique {l : List (κ × ν)} (h : Listing m none l) (h' : Listing m' none l) : m = m' := by
  funext k
  refine Option.ext fun v => ?_
  have hiff := (h.mem (k, v)).symm.trans (h'.mem (k, v))
  simpa [After] using hiff

/-- A cursor that leaves its state alone and answers with the least entry. -/
def Answers (ask : ℕ → σ → Option κ → Except ε (Option (κ × ν) × σ)) (s : σ) (m : κ → Option ν)
    (q : Option κ) : Prop :=
  ∃ r, Least m (After q) r ∧ ∃ N, ∀ n, N ≤ n → ask n s q = .ok (r, s)

variable {ask : ℕ → σ → Option κ → Except ε (Option (κ × ν) × σ)} {stuck : ε} {s : σ} {q : Option κ}

/-- The walk of a cursor that answers as the map does. -/
theorem walk_of_answers {l : List (κ × ν)} (hl : Listing m q l) (hq : Answers ask s m q)
    (hnext : ∀ e ∈ l, Answers ask s m (some e.1)) :
    ∃ N, ∀ n, N ≤ n → walk (ask n) stuck n s q = .ok l := by
  -- the fuel of a question and of the walk are the same number, so the walk from the second
  -- question on is taken at every larger fuel of its questions
  have hmain : ∃ N, ∀ n i, N ≤ n → N ≤ i → walk (ask n) stuck i s q = .ok l := by
    induction l generalizing q with
    | nil =>
      obtain ⟨r, hr, N, hN⟩ := hq
      obtain rfl := hr.unique hl.least
      refine ⟨N + 1, fun n i hn hi => ?_⟩
      obtain ⟨i, rfl⟩ := Nat.exists_eq_add_of_le' hi
      show walk (ask n) stuck (i + N + 1) s q = _
      rw [walk, hN n (by omega)]
      rfl
    | cons e l ih =>
      obtain ⟨r, hr, N, hN⟩ := hq
      obtain rfl := hr.unique hl.least
      obtain ⟨M, hM⟩ := ih hl.tail (hnext e List.mem_cons_self) fun f hf => hnext f (List.mem_cons_of_mem e hf)
      refine ⟨N + M + 1, fun n i hn hi => ?_⟩
      obtain ⟨i, rfl⟩ := Nat.exists_eq_add_of_le' hi
      show walk (ask n) stuck (i + (N + M) + 1) s q = _
      rw [walk, hN n (by omega)]
      show (walk (ask n) stuck (i + (N + M)) s (some e.1)).map (e :: ·) = _
      rw [hM n (i + (N + M)) (by omega) (by omega)]
      rfl
  obtain ⟨N, hN⟩ := hmain
  exact ⟨N, fun n hn => hN n n hn hn⟩

/-- Every question of the walk is answered as the map `shown` does: the walk lists `shown`, and is
an enumeration of `m` exactly if the two maps are the same. -/
theorem enumerates_iff {shown : κ → Option ν} (hfin : ∃ B : Finset κ, ∀ k, shown k ≠ none → k ∈ B)
    (hfirst : Answers ask s shown none) (hnext : ∀ k, shown k ≠ none → Answers ask s shown (some k)) :
    Enumerates (fun n => walk (ask n) stuck n s none) m ↔ shown = m := by
  obtain ⟨l, hl⟩ := exists_listing hfin
  have hwalk : ∃ N, ∀ n, N ≤ n → walk (ask n) stuck n s none = .ok l :=
    walk_of_answers hl hfirst fun e he => hnext e.1 (by simp [((hl.mem e).mp he).2])
  constructor
  · rintro ⟨l', hl', N', hN'⟩
    obtain ⟨N, hN⟩ := hwalk
    have heq := (hN (N + N') (by omega)).symm.trans (hN' (N + N') (by omega))
    exact hl.unique (Except.ok.inj heq ▸ hl')
  · rintro rfl
    exact ⟨l, hl, hwalk⟩

/-- Nothing is enumerated when no fuel is enough. -/
theorem not_enumerates {outcome : ℕ → Except ε (List (κ × ν))} (h : ∀ n, ∃ what, outcome n = .error what) :
    ¬ Enumerates outcome m := by
  rintro ⟨l, _, N, hN⟩
  obtain ⟨what, herr⟩ := h N
  cases herr.symm.trans (hN N le_rfl)

/-! ## Byte strings -/

/-- Byte by byte, a shorter one before the longer ones it begins. -/
instance bytesOrder : LinearOrder (List UInt8) :=
  { (List.instLT : LT (List UInt8)), (List.instLE : LE (List UInt8)) with
    le_refl := List.le_refl
    le_trans := fun _ _ _ => List.le_trans
    le_antisymm := fun _ _ => List.le_antisymm
    le_total := List.le_total
    lt_iff_le_not_ge := fun a b => by
      rw [List.not_le]
      exact ⟨fun h => ⟨List.le_of_lt h, h⟩, fun h => h.2⟩
    toDecidableLE := List.decidableLE
    toDecidableEq := instDecidableEqList
    toDecidableLT := List.decidableLT
    compare := fun a b => @compareOfLessAndEq _ a b List.instLT (List.decidableLT a b) instDecidableEqList
    compare_eq_compareOfLessAndEq := fun _ _ => rfl }

theorem append_lt_append {p a b : List UInt8} : p ++ a < p ++ b ↔ a < b := by
  induction p with
  | nil => rfl
  | cons x p ih => rw [List.cons_append, List.cons_append, List.cons_lt_cons_iff, ih]; simp [UInt8.lt_irrefl]

/-- The strings with one beginning are names for what follows it, in the same order. -/
theorem append_strictMono (p : List UInt8) : StrictMono (p ++ ·) := fun _ _ h => append_lt_append.mpr h

theorem not_lt_nil (a : List UInt8) : ¬ a < [] := List.not_lt_nil a

theorem nil_lt_iff {a : List UInt8} : [] < a ↔ a ≠ [] := by
  cases a with
  | nil => simp
  | cons x a => simp

/-- What follows a beginning without having it comes after everything that has it. -/
theorem append_lt_of_not_prefix {p a : List UInt8} (hle : p ≤ a) (h : ¬ p <+: a) (b : List UInt8) :
    p ++ b < a := by
  induction p generalizing a with
  | nil => exact absurd (List.nil_prefix) h
  | cons x p ih =>
    cases a with
    | nil => exact absurd (List.nil_lt_cons x p) (not_lt.mpr hle)
    | cons y a =>
      rw [List.cons_append, List.cons_lt_cons_iff]
      rcases lt_or_eq_of_le hle with hlt | heq
      · rcases List.cons_lt_cons_iff.mp hlt with hxy | ⟨rfl, hrest⟩
        · exact .inl hxy
        · exact .inr ⟨rfl, ih (le_of_lt hrest) fun hp => h (List.prefix_cons_inj x |>.mpr hp)⟩
      · rw [heq] at h
        exact absurd (List.prefix_refl _) h

end Cursor
