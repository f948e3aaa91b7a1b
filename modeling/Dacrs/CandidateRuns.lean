import Dacrs.Checkpoints

/-!
# What holds of the candidates over a run

A failure mark is lost only where `CheckBlockProofWorkWithCoinDay` connects a marked block of a side
branch, and the most-work chain keeps a failed block only where one fails below its tip.
`candidates_hold` is about the runs in which neither happens and `CheckActiveChain` takes no candidate out:
the set is complete and without marks, and `FindMostWorkChain` finds the best of it.
-/

open Codec (Bytes)

namespace Dacrs

open Ancestry

namespace ChainState

/-! ## Well-formed states -/

/-- The entry is in the index. -/
def Entry (st : ChainState) (l : PBlockIndex) : Prop := st.mapBlockIndex l.hash = some l

structure Sound (st : ChainState) : Prop where
  index : IndexSound st.mapBlockIndex
  parent : ∀ p rest, st.Entry (p :: rest) → rest ≠ [] → st.Entry rest
  setEntry : ∀ l ∈ st.setBlockIndexValid, st.Entry l
  nodup : st.setBlockIndexValid.Nodup

section
variable {st : ChainState} {l m s : PBlockIndex}

theorem Entry.of_map (hs : st.Sound) {h : Uint256} (hl : st.mapBlockIndex h = some l) : st.Entry l := by
  obtain ⟨p, rest, rfl, hhash, -⟩ := hs.index h l hl
  show st.mapBlockIndex p.hashBlock = _
  rw [hhash, hl]

theorem Entry.ne_nil (hs : st.Sound) (hl : st.Entry l) : l ≠ [] := by
  obtain ⟨p, rest, rfl, -, -⟩ := hs.index _ l hl
  exact List.cons_ne_nil _ _

theorem Entry.eq_of_hash (hl : st.Entry l) (hm : st.Entry m) (hhash : l.hash = m.hash) : l = m := by
  rw [Entry, hhash, hm] at hl
  exact (Option.some.inj hl).symm

theorem Entry.of_suffix (hs : st.Sound) (hl : st.Entry l) (hne : s ≠ []) (hsuffix : s <:+ l) :
    st.Entry s := by
  induction l with
  | nil => exact absurd (List.suffix_nil.mp hsuffix) hne
  | cons p rest ih =>
    rcases List.suffix_cons_iff.mp hsuffix with rfl | hrest
    · exact hl
    · have hrest' : rest ≠ [] := by
        rintro rfl
        exact hne (List.suffix_nil.mp hrest)
      exact ih (hs.parent p rest hl hrest') hrest

end

/-! ## One mark -/

theorem or_and_eq (s flag mask : UInt32) : (s ||| flag) &&& mask = (s &&& mask) ||| (flag &&& mask) := by
  apply UInt32.toNat_inj.mp
  simp only [UInt32.toNat_and, UInt32.toNat_or]
  exact Nat.and_or_distrib_right ..

/-- The two failure bits. -/
def FailureBit (flag : UInt32) : Prop := flag = blockFailedValid ∨ flag = blockFailedChild

theorem FailureBit.failed {flag : UInt32} (hf : FailureBit flag) (s : UInt32) :
    (s ||| flag) &&& blockFailedMask ≠ 0 := by
  rw [or_and_eq]
  intro h
  have hflag := (UInt32.or_eq_zero_iff.mp h).2
  rcases hf with rfl | rfl
  · exact absurd hflag (by decide)
  · exact absurd hflag (by decide)

theorem FailureBit.valid {flag : UInt32} (hf : FailureBit flag) (s : UInt32) :
    (s ||| flag) &&& blockValidMask = s &&& blockValidMask := by
  have hzero : flag &&& blockValidMask = 0 := by
    rcases hf with rfl | rfl
    · decide
    · decide
  rw [or_and_eq, hzero, UInt32.or_zero]

section
variable {st : ChainState} {l m : PBlockIndex} {flag : UInt32}

theorem status_markFailed_self : (markFailed flag st l).status l = st.status l ||| flag := by
  show Function.update st.unStatus l.hash _ l.hash = _
  rw [Function.update_self]

theorem status_markFailed_of_ne (h : m.hash ≠ l.hash) : (markFailed flag st l).status m = st.status m := by
  show Function.update st.unStatus l.hash _ m.hash = _
  rw [Function.update_of_ne h]
  rfl

theorem failed_markFailed (hf : FailureBit flag) (hl : st.Entry l) (hm : st.Entry m) :
    (markFailed flag st l).failed m = true ↔ st.failed m = true ∨ m = l := by
  unfold failed
  by_cases heq : m = l
  · subst heq
    rw [status_markFailed_self]
    exact iff_of_true (decide_eq_true (hf.failed _)) (.inr rfl)
  · rw [status_markFailed_of_ne fun hhash => heq (hm.eq_of_hash hl hhash)]
    simp [heq]

theorem reached_markFailed (hf : FailureBit flag) : (markFailed flag st l).reached m = st.reached m := by
  unfold reached
  by_cases heq : m.hash = l.hash
  · have hst : (markFailed flag st l).status m = st.status m ||| flag := by
      unfold status
      rw [heq]
      exact status_markFailed_self
    rw [hst, hf.valid]
  · rw [status_markFailed_of_ne heq]

theorem mem_markFailed (hs : st.Sound) :
    m ∈ (markFailed flag st l).setBlockIndexValid ↔ m ∈ st.setBlockIndexValid ∧ m ≠ l := by
  show m ∈ st.setBlockIndexValid.erase l ↔ _
  rw [hs.nodup.mem_erase_iff]
  exact and_comm

theorem Sound.markFailed (hs : st.Sound) : (markFailed flag st l).Sound where
  index := hs.index
  parent := hs.parent
  setEntry m hm := hs.setEntry m ((mem_markFailed hs).mp hm).1
  nodup := hs.nodup.erase l

end

/-! ## States with the same tree and fewer candidates -/

/-- What marking entries with a failed ancestor does. -/
structure Pruned (st st' : ChainState) : Prop where
  map : st'.mapBlockIndex = st.mapBlockIndex
  active : st'.chainActive = st.chainActive
  mostWork : st'.chainMostWork = st.chainMostWork
  sound : st'.Sound
  kept : ∀ l, st.Entry l → st.failed l = true → st'.failed l = true
  clean : ∀ l, (l ≠ [] → st.Entry l) → Clean st.failed l → Clean st'.failed l
  reached : ∀ l, st'.reached l = st.reached l
  subset : ∀ l ∈ st'.setBlockIndexValid, l ∈ st.setBlockIndexValid
  listed : ∀ l ∈ st.setBlockIndexValid, st'.failed l = false → l ∈ st'.setBlockIndexValid
  unmarked : (∀ l ∈ st.setBlockIndexValid, st.failed l = false) →
    ∀ l ∈ st'.setBlockIndexValid, st'.failed l = false

section
variable {st st' st'' : ChainState} {l t : PBlockIndex} {flag : UInt32}

theorem Pruned.entry (h : Pruned st st') : st'.Entry l ↔ st.Entry l := by
  rw [Entry, Entry, h.map]

theorem Pruned.refl (hs : st.Sound) : Pruned st st :=
  ⟨rfl, rfl, rfl, hs, fun _ _ h => h, fun _ _ h => h, fun _ => rfl, fun _ h => h, fun _ h _ => h, fun h => h⟩

theorem Pruned.trans (h : Pruned st st') (hs : st.Sound) (h' : Pruned st' st'') : Pruned st st'' where
  map := h'.map.trans h.map
  active := h'.active.trans h.active
  mostWork := h'.mostWork.trans h.mostWork
  sound := h'.sound
  kept l hl hfail := h'.kept l (h.entry.mpr hl) (h.kept l hl hfail)
  clean l hl hc := h'.clean l (fun hne => h.entry.mpr (hl hne)) (h.clean l hl hc)
  reached l := (h'.reached l).trans (h.reached l)
  subset l hl := h.subset l (h'.subset l hl)
  listed l hl hfail := by
    have hl' := h.entry.mpr (hs.setEntry l hl)
    refine h'.listed l (h.listed l hl ?_) hfail
    rw [← Bool.not_eq_true] at hfail ⊢
    exact fun hmark => hfail (h'.kept l hl' hmark)
  unmarked hun := h'.unmarked (h.unmarked hun)

/-- A candidate without a failed ancestor stays one. -/
theorem Pruned.stays (h : Pruned st st') (hs : st.Sound) (hl : l ∈ st.setBlockIndexValid)
    (hc : Clean st.failed l) : l ∈ st'.setBlockIndexValid := by
  have hentry := hs.setEntry l hl
  exact h.listed l hl (clean_iff.mp (h.clean l (fun _ => hentry) hc) l (hentry.ne_nil hs) (List.suffix_refl l))

/-- Marks only get more. -/
theorem Pruned.clean_of_clean (h : Pruned st st') (hs : st.Sound) (hl : l ≠ [] → st.Entry l)
    (hc : Clean st'.failed l) : Clean st.failed l := by
  refine hc.mono fun s hne hsuffix hfail => h.kept s ?_ hfail
  have hlne : l ≠ [] := by
    rintro rfl
    exact hne (List.suffix_nil.mp hsuffix)
  exact (hl hlne).of_suffix hs hne hsuffix

/-- An entry with a failed ancestor is marked itself. -/
theorem Pruned.markFailed (hs : st.Sound) (hf : FailureBit flag) (hl : st.Entry l)
    (hunclean : ¬ Clean st.failed l) : Pruned st (markFailed flag st l) where
  map := rfl
  active := rfl
  mostWork := rfl
  sound := hs.markFailed
  kept m hm hfail := (failed_markFailed hf hl hm).mpr (.inl hfail)
  clean m hm hc := by
    refine hc.mono fun s hne hsuffix hfail => ?_
    have hmne : m ≠ [] := by
      rintro rfl
      exact hne (List.suffix_nil.mp hsuffix)
    have hs' : st.Entry s := (hm hmne).of_suffix hs hne hsuffix
    rcases (failed_markFailed hf hl hs').mp hfail with h | rfl
    · exact h
    · exact absurd (hc.of_suffix hsuffix) hunclean
  reached _ := reached_markFailed hf
  subset m hm := ((mem_markFailed hs).mp hm).1
  listed m hm hfail := by
    refine (mem_markFailed hs).mpr ⟨hm, ?_⟩
    rintro rfl
    rw [(failed_markFailed hf hl hl).mpr (.inr rfl)] at hfail
    cases hfail
  unmarked hun m hm := by
    obtain ⟨hmem, hne⟩ := (mem_markFailed hs).mp hm
    rw [← Bool.not_eq_true, failed_markFailed hf hl (hs.setEntry m hmem)]
    simp [hun m hmem, hne]

theorem Pruned.markChildren (hs : st.Sound) (ht : t ≠ []) (hfail : st.failed t = true) (hl : st.Entry l)
    (hsuffix : t <:+ l) :
    Pruned st (markChildren t st l) ∧ (l ≠ t → l ∉ (markChildren t st l).setBlockIndexValid) := by
  induction l generalizing st with
  | nil => exact absurd (List.suffix_nil.mp hsuffix) ht
  | cons p rest ih =>
    rw [ChainState.markChildren]
    by_cases heq : p :: rest = t
    · rw [if_pos heq]
      exact ⟨Pruned.refl hs, fun hne => absurd heq hne⟩
    · rw [if_neg heq]
      have hrest : t <:+ rest := (List.suffix_cons_iff.mp hsuffix).resolve_left (Ne.symm heq)
      have hrne : rest ≠ [] := by
        rintro rfl
        exact ht (List.suffix_nil.mp hrest)
      have hunclean : ¬ Clean st.failed (p :: rest) := by
        intro hc
        rw [clean_iff.mp hc t ht hsuffix] at hfail
        cases hfail
      have hone : Pruned st (ChainState.markFailed blockFailedChild st (p :: rest)) :=
        Pruned.markFailed hs (.inr rfl) hl hunclean
      have htEntry : st.Entry t := hl.of_suffix hs ht hsuffix
      obtain ⟨hmore, -⟩ := ih hone.sound (hone.kept t htEntry hfail)
        (hone.entry.mpr (hs.parent p rest hl hrne)) hrest
      refine ⟨hone.trans hs hmore, fun _ hmem => ?_⟩
      exact ((mem_markFailed hs).mp (hmore.subset _ hmem)).2 rfl

theorem Pruned.length_lt (h : Pruned st st') (hl : l ∈ st.setBlockIndexValid)
    (hgone : l ∉ st'.setBlockIndexValid) :
    st'.setBlockIndexValid.length < st.setBlockIndexValid.length := by
  have hsub : l :: st'.setBlockIndexValid ⊆ st.setBlockIndexValid := by
    intro m hm
    rcases List.mem_cons.mp hm with rfl | hm
    · exact hl
    · exact h.subset m hm
  have hle := ((List.nodup_cons.mpr ⟨hgone, h.sound.nodup⟩).subperm hsub).length_le
  rw [List.length_cons] at hle
  omega

end

/-! ## The best candidate -/

/-- The order of candidates as a key: more work, then earlier arrival, then the lower address. -/
def workKey (addr : Uint256 ↪ ℕ) (l : PBlockIndex) : ℤ ×ₗ ℤ ×ₗ ℤ :=
  toLex ((chainWorkAt l).toNat, toLex (-(sequenceAt l).toNat, -addr l.hash))

theorem workLess_iff (addr : Uint256 ↪ ℕ) (a b : PBlockIndex) :
    workLess addr a b = true ↔ workKey addr a < workKey addr b := by
  simp only [workKey, Prod.Lex.toLex_lt_toLex, workLess, BitVec.lt_def, UInt32.lt_iff_toNat_lt]
  split
  · simp
    omega
  · split
    · simp
      omega
    · split
      · simp
        omega
      · split
        · simp
          omega
        · split
          · simp
            omega
          · simp
            omega

/-- What the search comes to: no block between the active chain and the greatest of the candidates that are
left is marked. -/
structure Searched (addr : Uint256 ↪ ℕ) (st st' : ChainState) (best : Option PBlockIndex) : Prop where
  pruned : Pruned st st'
  none_left : best = none → st'.setBlockIndexValid = []
  greatest : ∀ b, best = some b → b ∈ st'.setBlockIndexValid ∧
    firstMarked (contains st'.chainActive) st'.failed b = none ∧
    ∀ l ∈ st'.setBlockIndexValid, workKey addr l ≤ workKey addr b

/-- Each turn that goes on takes a candidate out of the set. -/
theorem findCandidate_searched (addr : Uint256 ↪ ℕ) {st : ChainState} (hs : st.Sound)
    (hun : ∀ l ∈ st.setBlockIndexValid, st.failed l = false) :
    ∃ st' best, (∀ fuel, st.setBlockIndexValid.length < fuel →
      findCandidate addr fuel st = some (st', best)) ∧ Searched addr st st' best := by
  induction hn : st.setBlockIndexValid.length using Nat.strong_induction_on generalizing st with
  | _ n ih =>
    cases hlast : Ancestry.greatest (workLess addr) st.setBlockIndexValid with
    | none =>
      refine ⟨st, none, ?_, Pruned.refl hs, fun _ => greatest_eq_none.mp hlast, ?_⟩
      · intro fuel hfuel
        obtain ⟨k, rfl⟩ : ∃ k, fuel = k + 1 := ⟨fuel - 1, by omega⟩
        rw [findCandidate, hlast]
      · intro b hb
        cases hb
    | some b =>
      obtain ⟨hb, hmax⟩ := greatest_spec (workLess_iff addr) hlast
      have hbEntry := hs.setEntry b hb
      cases hpath : firstMarked (contains st.chainActive) st.failed b with
      | none =>
        refine ⟨st, some b, ?_, Pruned.refl hs, ?_, ?_⟩
        · intro fuel hfuel
          obtain ⟨k, rfl⟩ : ∃ k, fuel = k + 1 := ⟨fuel - 1, by omega⟩
          rw [findCandidate, hlast]
          dsimp only
          rw [hpath]
        · intro h
          cases h
        · intro b' hb'
          cases hb'
          exact ⟨hb, hpath, hmax⟩
      | some t =>
        obtain ⟨hsuffix, htne, htfail⟩ := firstMarked_eq_some hpath
        have hne : b ≠ t := by
          rintro rfl
          rw [hun b hb] at htfail
          cases htfail
        obtain ⟨hpruned, hgone⟩ := Pruned.markChildren hs htne htfail hbEntry hsuffix
        have hlt := hpruned.length_lt hb (hgone hne)
        obtain ⟨st', best, hrun, hfound⟩ := ih _ (by omega) hpruned.sound (hpruned.unmarked hun) rfl
        refine ⟨st', best, ?_, hpruned.trans hs hfound.pruned, hfound.none_left, hfound.greatest⟩
        intro fuel hfuel
        obtain ⟨k, rfl⟩ : ∃ k, fuel = k + 1 := ⟨fuel - 1, by omega⟩
        rw [findCandidate, hlast]
        dsimp only
        rw [hpath]
        exact hrun k (by omega)

/-- Over an active chain without marks: the greatest of the candidates that are left has no failed
ancestor. -/
structure Found (addr : Uint256 ↪ ℕ) (st st' : ChainState) (best : Option PBlockIndex) : Prop where
  pruned : Pruned st st'
  none_left : best = none → st'.setBlockIndexValid = []
  greatest : ∀ b, best = some b → b ∈ st'.setBlockIndexValid ∧ Clean st'.failed b ∧
    ∀ l ∈ st'.setBlockIndexValid, workKey addr l ≤ workKey addr b

theorem findCandidate_spec (addr : Uint256 ↪ ℕ) {st : ChainState} (hs : st.Sound)
    (hun : ∀ l ∈ st.setBlockIndexValid, st.failed l = false) (hactive : Clean st.failed st.chainActive)
    (hentry : st.chainActive ≠ [] → st.Entry st.chainActive) :
    ∃ st' best, (∀ fuel, st.setBlockIndexValid.length < fuel →
      findCandidate addr fuel st = some (st', best)) ∧ Found addr st st' best := by
  obtain ⟨st', best, hrun, hsearch⟩ := findCandidate_searched addr hs hun
  have hactive' : Clean st'.failed st'.chainActive := by
    rw [hsearch.pruned.active]
    exact hsearch.pruned.clean _ hentry hactive
  refine ⟨st', best, hrun, hsearch.pruned, hsearch.none_left, fun b hb => ?_⟩
  obtain ⟨hmem, hpath, hmax⟩ := hsearch.greatest b hb
  refine ⟨hmem, clean_of_firstMarked_eq_none (fun s hstop => ?_) hpath, hmax⟩
  exact hactive'.of_suffix (of_decide_eq_true hstop).2

/-! ## The invariant -/

structure Inv (st : ChainState) : Prop where
  sound : st.Sound
  reached : ∀ l, st.Entry l → st.reached l = true
  unmarked : ∀ l ∈ st.setBlockIndexValid, st.failed l = false
  complete : ∀ l, st.Entry l → Clean st.failed l → l ∈ st.setBlockIndexValid
  activeEntry : st.chainActive ≠ [] → st.Entry st.chainActive
  active : Clean st.failed st.chainActive
  mostEntry : st.chainMostWork ≠ [] → st.Entry st.chainMostWork
  /-- the failed blocks of the most-work chain are on top -/
  most : TopMarked st.failed st.chainMostWork

/-- No entry is in an index without entries. -/
theorem not_entry_init (l : PBlockIndex) : ¬ init.Entry l := by
  intro h
  cases h

theorem Inv.init : init.Inv where
  sound :=
    { index := by
        intro _ l h
        cases h
      parent := fun p rest h _ => absurd h (not_entry_init (p :: rest))
      setEntry := fun l h => absurd h List.not_mem_nil
      nodup := List.nodup_nil }
  reached l h := absurd h (not_entry_init l)
  unmarked l h := absurd h List.not_mem_nil
  complete l h := absurd h (not_entry_init l)
  activeEntry h := absurd rfl h
  active := trivial
  mostEntry h := absurd rfl h
  most := trivial

section
variable {st st' : ChainState} {l pNewIndex : PBlockIndex}

/-- Nothing failed is in the set, so only the most-work chain changes. -/
theorem popMostWork_eq (hun : ∀ m ∈ st.setBlockIndexValid, st.failed m = false) (l : PBlockIndex) :
    popMostWork st l = { st with chainMostWork := dropMarked st.failed l } := by
  induction l with
  | nil => rfl
  | cons p rest ih =>
    rw [popMostWork, dropMarked]
    by_cases hfail : st.failed (p :: rest) = true
    · have herase : st.erase (p :: rest) = st := by
        have hmem : p :: rest ∉ st.setBlockIndexValid := by
          intro hmem
          rw [hun _ hmem] at hfail
          cases hfail
        unfold erase
        rw [List.erase_of_not_mem hmem]
      rw [if_pos hfail, if_pos hfail, herase, ih]
    · rw [if_neg hfail, if_neg hfail]

theorem Inv.pruned (h : st.Inv) (hp : Pruned st st') (hmost : TopMarked st'.failed st'.chainMostWork) :
    st'.Inv where
  sound := hp.sound
  reached l hl := by
    rw [hp.reached]
    exact h.reached l (hp.entry.mp hl)
  unmarked := hp.unmarked h.unmarked
  complete l hl hc := by
    have hl' := hp.entry.mp hl
    have hc' := hp.clean_of_clean h.sound (fun _ => hl') hc
    exact hp.stays h.sound (h.complete l hl' hc') hc'
  activeEntry hne := by
    rw [hp.active] at hne ⊢
    exact hp.entry.mpr (h.activeEntry hne)
  active := by
    rw [hp.active]
    exact hp.clean _ h.activeEntry h.active
  mostEntry hne := by
    rw [hp.mostWork] at hne ⊢
    exact hp.entry.mpr (h.mostEntry hne)
  most := hmost

/-- The most-work chain may be any with its failed blocks on top. -/
theorem Inv.moved (h : st.Inv) (hl : l ≠ [] → st.Entry l) (htop : TopMarked st.failed l) :
    Inv { st with chainMostWork := l } where
  sound := ⟨h.sound.index, h.sound.parent, h.sound.setEntry, h.sound.nodup⟩
  reached := h.reached
  unmarked := h.unmarked
  complete := h.complete
  activeEntry := h.activeEntry
  active := h.active
  mostEntry := hl
  most := htop

theorem Inv.withMostWork (h : st.Inv) (hl : l ≠ [] → st.Entry l) (hc : Clean st.failed l) :
    Inv { st with chainMostWork := l } := h.moved hl hc.topMarked

theorem Inv.withActive (h : st.Inv) (hl : l ≠ [] → st.Entry l) (hc : Clean st.failed l) :
    Inv { st with chainActive := l } where
  sound := ⟨h.sound.index, h.sound.parent, h.sound.setEntry, h.sound.nodup⟩
  reached := h.reached
  unmarked := h.unmarked
  complete := h.complete
  activeEntry := hl
  active := hc
  mostEntry := h.mostEntry
  most := h.most

theorem entry_connected {m : PBlockIndex} {unStatus : UInt32} :
    (st.connectTip l (.connected unStatus)).Entry m ↔ st.Entry m := Iff.rfl

theorem set_connected {unStatus : UInt32} :
    (st.connectTip l (.connected unStatus)).setBlockIndexValid = st.setBlockIndexValid := rfl

theorem status_setStatus (unStatus : UInt32) (l m : PBlockIndex) :
    (st.setStatus l unStatus).status m = if m.hash = l.hash then unStatus else st.status m := by
  show Function.update st.unStatus l.hash unStatus m.hash = _
  rw [Function.update_apply]
  rfl

/-- Status bits that no mark depends on. -/
theorem failed_setStatus {unStatus : UInt32}
    (hfailed : decide (unStatus &&& blockFailedMask ≠ 0) = st.failed l) :
    (st.setStatus l unStatus).failed = st.failed := by
  funext m
  unfold failed
  rw [status_setStatus]
  split
  · next heq =>
    rw [hfailed]
    unfold failed status
    rw [heq]
  · rfl

theorem Inv.setStatus (h : st.Inv) {unStatus : UInt32}
    (hfailed : decide (unStatus &&& blockFailedMask ≠ 0) = st.failed l)
    (hreached : blockValidTransactions ≤ unStatus &&& blockValidMask) :
    (st.setStatus l unStatus).Inv ∧ (st.setStatus l unStatus).failed = st.failed := by
  have hsame := failed_setStatus hfailed
  refine ⟨⟨⟨h.sound.index, h.sound.parent, h.sound.setEntry, h.sound.nodup⟩, ?_, ?_, ?_, h.activeEntry, ?_,
    h.mostEntry, ?_⟩, hsame⟩
  · intro m hm
    unfold ChainState.reached
    rw [status_setStatus]
    split
    · exact decide_eq_true hreached
    · exact h.reached m hm
  · rw [hsame]
    exact h.unmarked
  · rw [hsame]
    exact h.complete
  · rw [hsame]
    exact h.active
  · rw [hsame]
    exact h.most

end

/-- No failure mark is lost. -/
def KeepsFailures (st st' : ChainState) : Prop :=
  ∀ m, st.Entry m → st'.Entry m ∧ (st.failed m = true → st'.failed m = true)

/-! ## The result of the search -/

/-- `FindMostWorkChain` comes back, with the best candidate that has no failed ancestor. -/
def FindsBest (addr : Uint256 ↪ ℕ) (st : ChainState) : Prop :=
  ∃ st', (∀ fuel, st.setBlockIndexValid.length < fuel → st.findMostWorkChain addr fuel = some st') ∧
    ∀ l ∈ st.setBlockIndexValid, Clean st.failed l →
      st'.chainMostWork ∈ st.setBlockIndexValid ∧ Clean st.failed st'.chainMostWork ∧
        workLess addr st'.chainMostWork l = false

section
variable {st st' : ChainState} {l pNewIndex : PBlockIndex}

/-- The most-work chain without its marked blocks on top. -/
theorem Sound.entry_dropMarked (hs : st.Sound) (hmost : st.chainMostWork ≠ [] → st.Entry st.chainMostWork)
    (hne : dropMarked st.failed st.chainMostWork ≠ []) : st.Entry (dropMarked st.failed st.chainMostWork) := by
  have hne' : st.chainMostWork ≠ [] := by
    intro hnil
    rw [hnil] at hne
    exact hne rfl
  exact (hmost hne').of_suffix hs hne dropMarked_suffix

/-- One call of `FindMostWorkChain`. -/
theorem Inv.findMostWorkChain (h : st.Inv) (addr : Uint256 ↪ ℕ) :
    ∃ st', (∀ fuel, st.setBlockIndexValid.length < fuel → st.findMostWorkChain addr fuel = some st') ∧
      st'.Inv ∧ KeepsFailures st st' ∧
      ∀ m ∈ st.setBlockIndexValid, Clean st.failed m →
        st'.chainMostWork ∈ st.setBlockIndexValid ∧ Clean st.failed st'.chainMostWork ∧
          workLess addr st'.chainMostWork m = false := by
  have hclean : Clean st.failed (dropMarked st.failed st.chainMostWork) := h.most
  have hmostEntry := h.sound.entry_dropMarked h.mostEntry
  have hpop := h.withMostWork hmostEntry hclean
  obtain ⟨st', best, hrun, hfound⟩ := findCandidate_spec addr hpop.sound hpop.unmarked hpop.active
    hpop.activeEntry
  have hp := hfound.pruned
  have hmost' : st'.chainMostWork = dropMarked st.failed st.chainMostWork := hp.mostWork
  have hinv : st'.Inv := by
    refine hpop.pruned hp ?_
    rw [hmost']
    exact Clean.topMarked (hp.clean _ hmostEntry hclean)
  have hback : ∀ m ∈ st'.setBlockIndexValid, Clean st'.failed m →
      m ∈ st.setBlockIndexValid ∧ Clean st.failed m := fun m hm hc =>
    ⟨hp.subset m hm, hp.clean_of_clean hpop.sound (fun _ => hpop.sound.setEntry m (hp.subset m hm)) hc⟩
  refine ⟨st'.improve addr best, ?_, ?_, ?_, ?_⟩
  · intro fuel hfuel
    rw [ChainState.findMostWorkChain, popMostWork_eq h.unmarked, hrun fuel hfuel]
    rfl
  · cases best with
    | none => exact hinv
    | some b =>
      obtain ⟨hb, hbclean, -⟩ := hfound.greatest b rfl
      unfold improve
      dsimp only
      split
      · exact hinv
      · exact hinv.withMostWork (fun _ => hinv.sound.setEntry b hb) hbclean
  · intro m hm
    have hm' : st'.Entry m ∧ (st.failed m = true → st'.failed m = true) := ⟨hp.entry.mpr hm, hp.kept m hm⟩
    cases best with
    | none => exact hm'
    | some b =>
      unfold improve
      dsimp only
      split
      · exact hm'
      · exact hm'
  · intro m hm hmclean
    have hstays := hp.stays hpop.sound hm hmclean
    cases best with
    | none =>
      rw [hfound.none_left rfl] at hstays
      cases hstays
    | some b =>
      obtain ⟨hb, hbclean, hmax⟩ := hfound.greatest b rfl
      have hle := hmax m hstays
      unfold improve
      dsimp only
      split
      · next hkeep =>
        rw [hmost'] at hkeep ⊢
        have hmem := h.complete _ (hmostEntry hkeep.1) hclean
        refine ⟨hmem, hclean, ?_⟩
        rw [← Bool.not_eq_true, workLess_iff, not_lt]
        have hbm : workKey addr b ≤ workKey addr (dropMarked st.failed st.chainMostWork) := by
          rw [workLess_iff, not_lt] at hkeep
          exact hkeep.2
        exact le_trans hle hbm
      · obtain ⟨hmem, hbclean'⟩ := hback b hb hbclean
        refine ⟨hmem, hbclean', ?_⟩
        rw [← Bool.not_eq_true, workLess_iff, not_lt]
        exact hle

theorem Inv.findsBest (h : st.Inv) (addr : Uint256 ↪ ℕ) : st.FindsBest addr := by
  obtain ⟨st', hrun, -, -, hbest⟩ := h.findMostWorkChain addr
  exact ⟨st', hrun, hbest⟩

/-! ## Steps that keep the invariant -/

/-- The blocks above one on the most-work chain are all marked. -/
def AboveMarked (st : ChainState) (l : PBlockIndex) : Prop :=
  ∀ s, s <:+ st.chainMostWork → l <:+ s → s ≠ l → st.failed s = true

/-- `InvalidBlockFound` on a block over the active tip. -/
theorem Inv.invalidBlockFound (h : st.Inv) (hl : st.Entry l) (htail : l.tail = st.chainActive)
    {bCorruptionPossible : Bool} (habove : bCorruptionPossible = true ∨ st.AboveMarked l) :
    (st.invalidBlockFound l bCorruptionPossible).Inv ∧
      KeepsFailures st (st.invalidBlockFound l bCorruptionPossible) := by
  unfold ChainState.invalidBlockFound
  split
  · exact ⟨h, fun m hm => ⟨hm, id⟩⟩
  · next hcorrupt =>
    have hflag : FailureBit blockFailedValid := .inl rfl
    have hfailed := fun m (hm : st.Entry m) => failed_markFailed hflag hl hm
    have hmono : ∀ m, (m ≠ [] → st.Entry m) → Clean (markFailed blockFailedValid st l).failed m →
        Clean st.failed m := by
      intro m hm hc
      refine hc.mono fun s hne hsuffix hfail => ?_
      have hmne : m ≠ [] := by
        rintro rfl
        exact hne (List.suffix_nil.mp hsuffix)
      exact (hfailed s ((hm hmne).of_suffix h.sound hne hsuffix)).mpr (.inl hfail)
    refine ⟨⟨h.sound.markFailed, ?_, ?_, ?_, h.activeEntry, ?_, h.mostEntry, ?_⟩, fun m hm => ⟨hm, ?_⟩⟩
    · intro m hm
      rw [reached_markFailed hflag]
      exact h.reached m hm
    · intro m hm
      obtain ⟨hmem, hne⟩ := (mem_markFailed h.sound).mp hm
      rw [← Bool.not_eq_true, hfailed m (h.sound.setEntry m hmem)]
      simp [h.unmarked m hmem, hne]
    · intro m hm hc
      refine (mem_markFailed h.sound).mpr ⟨h.complete m hm (hmono m (fun _ => hm) hc), ?_⟩
      rintro rfl
      have hself := (hfailed m hl).mpr (.inr rfl)
      rw [clean_iff.mp hc m (hl.ne_nil h.sound) (List.suffix_refl _)] at hself
      cases hself
    · refine h.active.mono fun s hne hsuffix hfail => ?_
      have hane : st.chainActive ≠ [] := by
        intro hnil
        rw [hnil] at hsuffix
        exact hne (List.suffix_nil.mp hsuffix)
      rcases (hfailed s ((h.activeEntry hane).of_suffix h.sound hne hsuffix)).mp hfail with hold | rfl
      · exact hold
      · -- the block is longer than the active chain it lies on
        have hlen := hsuffix.length_le
        have hpos := List.length_pos_of_ne_nil hne
        rw [← htail, List.length_tail] at hlen
        omega
    · rcases habove with hc | habove
      · exact absurd hc hcorrupt
      · refine h.most.mark l (fun s hne hsuffix => ?_) habove
        have hmne : st.chainMostWork ≠ [] := by
          intro hnil
          rw [hnil] at hsuffix
          exact hne (List.suffix_nil.mp hsuffix)
        exact hfailed s ((h.mostEntry hmne).of_suffix h.sound hne hsuffix)
    · exact fun hfail => (hfailed m hm).mpr (.inl hfail)

/-- Blocks of a side branch that have no mark get a fresh status. -/
theorem Inv.reconnect (h : st.Inv) (connects : PBlockIndex → Bool) (blocks : List PBlockIndex)
    (hblocks : ∀ m ∈ blocks.takeWhile connects, st.failed m = false) :
    (st.reconnect connects blocks).Inv ∧ KeepsFailures st (st.reconnect connects blocks) := by
  induction blocks generalizing st with
  | nil => exact ⟨h, fun m hm => ⟨hm, id⟩⟩
  | cons m rest ih =>
    rw [ChainState.reconnect]
    split
    · next hconnects =>
      rw [List.takeWhile_cons_of_pos hconnects] at hblocks
      have hm := hblocks m List.mem_cons_self
      have hbits : decide ((blockValidTransactions ||| blockHaveData) &&& blockFailedMask ≠ 0)
          = st.failed m := by
        rw [hm]
        decide
      obtain ⟨hinv, hsame⟩ := h.setStatus hbits (by decide)
      obtain ⟨hmore, hkeeps⟩ := ih hinv fun m' hm' => by
        rw [hsame]
        exact hblocks m' (List.mem_cons_of_mem _ hm')
      refine ⟨hmore, fun m' hm' => ⟨(hkeeps m' hm').1, fun hfail => (hkeeps m' hm').2 ?_⟩⟩
      rw [hsame]
      exact hfail
    · exact ⟨h, fun m hm => ⟨hm, id⟩⟩

/-- An index with one more entry. -/
theorem entry_addEntry {p : CBlockIndex} {rest : PBlockIndex} (hnew : st.mapBlockIndex p.hashBlock = none)
    (m : PBlockIndex) : (st.addEntry (p :: rest)).Entry m ↔ m = p :: rest ∨ st.Entry m := by
  show (if m.hash = p.hashBlock then some (p :: rest) else st.mapBlockIndex m.hash) = some m ↔ _
  split
  · next heq =>
    constructor
    · intro hm
      exact .inl (Option.some.inj hm).symm
    · rintro (rfl | hm)
      · rfl
      · rw [Entry, heq, hnew] at hm
        cases hm
  · next hne =>
    constructor
    · exact .inr
    · rintro (rfl | hm)
      · exact absurd rfl hne
      · exact hm

theorem entry_addEntry_self (l : PBlockIndex) : (st.addEntry l).Entry l := if_pos rfl

theorem status_addEntry_self (l : PBlockIndex) :
    (st.addEntry l).status l = blockValidTransactions ||| blockHaveData := by
  show Function.update st.unStatus l.hash _ l.hash = _
  rw [Function.update_self]

theorem status_addEntry_of_entry {p : CBlockIndex} {rest m : PBlockIndex}
    (hnew : st.mapBlockIndex p.hashBlock = none) (hm : st.Entry m) :
    (st.addEntry (p :: rest)).status m = st.status m := by
  have hne : m.hash ≠ p.hashBlock := by
    intro heq
    rw [Entry, heq, hnew] at hm
    cases hm
  show Function.update st.unStatus p.hashBlock _ m.hash = _
  rw [Function.update_of_ne hne]
  rfl

theorem failed_addEntry_self (l : PBlockIndex) : (st.addEntry l).failed l = false := by
  unfold failed
  rw [status_addEntry_self]
  decide

theorem failed_addEntry_of_entry {p : CBlockIndex} {rest m : PBlockIndex}
    (hnew : st.mapBlockIndex p.hashBlock = none) (hm : st.Entry m) :
    (st.addEntry (p :: rest)).failed m = st.failed m := by
  unfold failed
  rw [status_addEntry_of_entry hnew hm]

theorem Sound.set_addEntry (hs : st.Sound) {p : CBlockIndex} (rest : PBlockIndex)
    (hnew : st.mapBlockIndex p.hashBlock = none) :
    p :: rest ∉ st.setBlockIndexValid ∧
      (st.addEntry (p :: rest)).setBlockIndexValid = (p :: rest) :: st.setBlockIndexValid := by
  have hfresh : p :: rest ∉ st.setBlockIndexValid := by
    intro hmem
    have hentry : st.mapBlockIndex p.hashBlock = some (p :: rest) := hs.setEntry _ hmem
    rw [hnew] at hentry
    cases hentry
  exact ⟨hfresh, if_neg hfresh⟩

theorem Sound.addEntry (hs : st.Sound) {p : CBlockIndex} {rest : PBlockIndex}
    (hnew : st.mapBlockIndex p.hashBlock = none) (hp : 0 ≤ p.nHeight) (hrest : rest ≠ [] → st.Entry rest) :
    (st.addEntry (p :: rest)).Sound := by
  obtain ⟨hfresh, hset⟩ := hs.set_addEntry rest hnew
  have hentry : ∀ m, (st.addEntry (p :: rest)).Entry m ↔ m = p :: rest ∨ st.Entry m := entry_addEntry hnew
  refine ⟨hs.index.insert hp rest, ?_, ?_, ?_⟩
  · intro q qs hq hne
    rcases (hentry _).mp hq with heq | hq
    · cases heq
      exact (hentry _).mpr (.inr (hrest hne))
    · exact (hentry _).mpr (.inr (hs.parent q qs hq hne))
  · rw [hset]
    intro m hm
    rcases List.mem_cons.mp hm with rfl | hm
    · exact (hentry _).mpr (.inl rfl)
    · exact (hentry _).mpr (.inr (hs.setEntry m hm))
  · rw [hset]
    exact List.nodup_cons.mpr ⟨hfresh, hs.nodup⟩

/-- A new block over one of the index. -/
theorem Inv.addEntry (h : st.Inv) {p : CBlockIndex} {rest : PBlockIndex}
    (hnew : st.mapBlockIndex p.hashBlock = none) (hp : 0 ≤ p.nHeight) (hrest : rest ≠ [] → st.Entry rest) :
    (st.addEntry (p :: rest)).Inv ∧ KeepsFailures st (st.addEntry (p :: rest)) := by
  have hentry : ∀ m, (st.addEntry (p :: rest)).Entry m ↔ m = p :: rest ∨ st.Entry m := entry_addEntry hnew
  have hfailed : ∀ m, st.Entry m → (st.addEntry (p :: rest)).failed m = st.failed m :=
    fun m hm => failed_addEntry_of_entry hnew hm
  have hsuffix : ∀ m, (m ≠ [] → st.Entry m) → ∀ s, s ≠ [] → s <:+ m →
      (st.addEntry (p :: rest)).failed s = st.failed s := by
    intro m hm s hne hs
    have hmne : m ≠ [] := by
      rintro rfl
      exact hne (List.suffix_nil.mp hs)
    exact hfailed s ((hm hmne).of_suffix h.sound hne hs)
  have hset : (st.addEntry (p :: rest)).setBlockIndexValid = (p :: rest) :: st.setBlockIndexValid :=
    (h.sound.set_addEntry rest hnew).2
  refine ⟨⟨h.sound.addEntry hnew hp hrest, ?_, ?_, ?_, ?_, ?_, ?_, ?_⟩, ?_⟩
  · intro m hm
    unfold ChainState.reached
    rcases (hentry _).mp hm with rfl | hm
    · rw [status_addEntry_self]
      decide
    · rw [status_addEntry_of_entry hnew hm]
      exact h.reached m hm
  · rw [hset]
    intro m hm
    rcases List.mem_cons.mp hm with rfl | hm
    · exact failed_addEntry_self _
    · rw [hfailed m (h.sound.setEntry m hm)]
      exact h.unmarked m hm
  · rw [hset]
    intro m hm hc
    rcases (hentry _).mp hm with rfl | hm
    · exact List.mem_cons_self
    · refine List.mem_cons_of_mem _ (h.complete m hm (hc.mono fun s hne hs hfail => ?_))
      rw [hsuffix m (fun _ => hm) s hne hs]
      exact hfail
  · exact fun hne => (hentry _).mpr (.inr (h.activeEntry hne))
  · refine h.active.mono fun s hne hs hfail => ?_
    rw [← hsuffix _ h.activeEntry s hne hs]
    exact hfail
  · exact fun hne => (hentry _).mpr (.inr (h.mostEntry hne))
  · exact h.most.congr (hsuffix _ h.mostEntry)
  · intro m hm
    rw [hfailed m hm]
    exact ⟨(hentry m).mpr (.inr hm), id⟩

end

/-! ## What connecting does to a status -/

/-- The failure bits stay and the entry stays as valid as it was. -/
def KeepsMarks (s s' : UInt32) : Prop :=
  s' &&& blockFailedMask = s &&& blockFailedMask ∧
    (blockValidTransactions ≤ s &&& blockValidMask → blockValidTransactions ≤ s' &&& blockValidMask)

def TipResult.Keeps (s : UInt32) : TipResult → Prop
  | .connected unStatus => KeepsMarks s unStatus
  | .invalid _ => True
  | .failed unStatus => KeepsMarks s unStatus

theorem KeepsMarks.refl (s : UInt32) : KeepsMarks s s := ⟨rfl, id⟩

theorem keepsMarks_undo (s : UInt32) : KeepsMarks s (s ||| blockHaveUndo) := by
  have hfailed : blockHaveUndo &&& blockFailedMask = 0 := by decide
  have hvalid : blockHaveUndo &&& blockValidMask = 0 := by decide
  constructor
  · rw [or_and_eq, hfailed, UInt32.or_zero]
  · rw [or_and_eq, hvalid, UInt32.or_zero]
    exact id

theorem keepsMarks_scripts (s : UInt32) :
    KeepsMarks s ((s &&& ~~~ blockValidMask) ||| blockValidScripts) := by
  have hfailed : blockValidScripts &&& blockFailedMask = 0 := by decide
  have hmask : ~~~ blockValidMask &&& blockFailedMask = blockFailedMask := by decide
  have hzero : ~~~ blockValidMask &&& blockValidMask = 0 := by decide
  constructor
  · rw [or_and_eq, hfailed, UInt32.or_zero, UInt32.and_assoc, hmask]
  · intro _
    rw [or_and_eq, UInt32.and_assoc, hzero, UInt32.and_zero, UInt32.zero_or]
    decide

theorem KeepsMarks.trans {s s' s'' : UInt32} (h : KeepsMarks s s') (h' : KeepsMarks s' s'') :
    KeepsMarks s s'' := ⟨h'.1.trans h.1, fun hv => h'.2 (h.2 hv)⟩

section
variable {node : Node} {pIndex pIndex' : CBlockIndex} {pPrev : PBlockIndex} {undo : CBlockUndo}
  {files files' : UndoFiles}

theorem writeUndo_keepsMarks (h : CBlock.writeUndo node pIndex pPrev undo files = .ok (pIndex', files')) :
    KeepsMarks pIndex.unStatus pIndex'.unStatus := by
  unfold CBlock.writeUndo at h
  split at h
  · unfold CBlock.writeNewUndo at h
    split at h
    · cases h
    · split at h
      · cases h
      · rw [Except.bind_eq_ok] at h
        obtain ⟨_, -, h⟩ := h
        obtain ⟨rfl, -⟩ := Prod.mk.inj (Except.ok.inj h)
        exact keepsMarks_undo _
  · obtain ⟨rfl, -⟩ := Prod.mk.inj (Except.ok.inj h)
    exact KeepsMarks.refl _

theorem connectEntry_keepsMarks
    (h : CBlock.connectEntry node pIndex pPrev undo files = .ok (pIndex', files')) :
    KeepsMarks pIndex.unStatus pIndex'.unStatus := by
  unfold CBlock.connectEntry at h
  split at h
  · rw [Except.bind_eq_ok] at h
    obtain ⟨⟨pIndex₁, files₁⟩, hwrite, h⟩ := h
    rw [Except.bind_eq_ok] at h
    obtain ⟨_, -, h⟩ := h
    obtain ⟨rfl, -⟩ := Prod.mk.inj (Except.ok.inj h)
    exact (writeUndo_keepsMarks hwrite).trans (keepsMarks_scripts _)
  · obtain ⟨rfl, -⟩ := Prod.mk.inj (Except.ok.inj h)
    exact KeepsMarks.refl _

/-- The status that `ConnectBlock` leaves in an entry keeps its marks. -/
theorem connectBlock_keepsMarks {b : CBlock} {vs : Views} {cache : CTransactionDBCache}
    {out : CBlock.Connected}
    (h : b.connectBlock node vs (pIndex :: pPrev) cache files false = .ok out) :
    KeepsMarks pIndex.unStatus out.pBlockIndex.unStatus := by
  by_cases hgen : b.getHash node.cr.Hash = node.cfg.cHashGenesisBlock
  · simp only [CBlock.connectBlock, Except.bind_eq_ok, if_pos hgen] at h
    obtain ⟨_, -, _, -, v, -, hout⟩ := h
    obtain rfl := Except.ok.inj hout
    exact KeepsMarks.refl _
  · obtain ⟨pIndex₁, pPrev₁, vs', undo, hp, -, -, -, hrec⟩ := CBlock.connectBlock_ok h hgen
    obtain ⟨rfl, rfl⟩ := List.cons.inj hp
    unfold CBlock.connectRecords at hrec
    dsimp only at hrec
    rw [Except.bind_eq_ok] at hrec
    obtain ⟨⟨pIndex', files'⟩, hentry, hrec⟩ := hrec
    rw [Except.bind_eq_ok] at hrec
    obtain ⟨c, -, hrec⟩ := hrec
    cases hrec
    exact connectEntry_keepsMarks hentry

end

/-! ## Runs -/

/-- A call of `ConnectTip` connects no marked block, and finds none invalid under one of the most-work
chain that has no mark. -/
def ConnectHarmless (st : ChainState) (pNewIndex : PBlockIndex) : TipResult → Prop
  | .connected _ => st.failed pNewIndex = false
  | .invalid bCorruptionPossible => bCorruptionPossible = true ∨ st.AboveMarked pNewIndex
  | .failed _ => True

namespace Op

/-- What the callers see to, some of it with an assertion; the checkpoint is one that `GetLastCheckpoint`
finds in the index. -/
def Called (st : ChainState) : Op → Prop
  | .invalidBlockFound pIndex _ => st.Entry pIndex ∧ pIndex.tail = st.chainActive
  | .connectTip pNewIndex result =>
    st.Entry pNewIndex ∧ pNewIndex.tail = st.chainActive ∧ result.Keeps (st.status pNewIndex)
  | .disconnectTip _ => st.chainActive ≠ []
  | .checkActiveChain _ _ pcheckpoint connect _ =>
    (pcheckpoint ≠ [] → st.Entry pcheckpoint) ∧ ∀ l, st.Entry l → (connect l).Keeps (st.status l)
  | _ => True

section
variable (addr : Uint256 ↪ ℕ)

/-- Where the candidates stay as they should be. -/
def Harmless (st : ChainState) : Op → Prop
  | .checkSideBranch pPreBlockIndex cached connects =>
    chainWorkAt st.chainActive < chainWorkAt pPreBlockIndex →
      ∀ l ∈ (preBlocks cached st.chainActive pPreBlockIndex).reverse.takeWhile connects, st.failed l = false
  | .invalidBlockFound pIndex bCorruptionPossible =>
    bCorruptionPossible = true ∨ st.AboveMarked pIndex
  | .connectTip pNewIndex result => st.ConnectHarmless pNewIndex result
  | .checkActiveChain nHeight cHash pcheckpoint connect disconnects =>
    st.Agrees nHeight cHash pcheckpoint ∨
    ∃ most, st.Spares addr nHeight cHash pcheckpoint most ∧ TopMarked st.failed most ∧
      ∀ l, Reaches connect disconnects { st with chainMostWork := most } l →
        ConnectHarmless { st with chainMostWork := most } l (connect l)
  | _ => True

def Safe (st : ChainState) (op : Op) : Prop := op.Called st ∧ op.Harmless addr st

end

end Op

/-- Steps one after the other, each of them allowed where it is made. -/
inductive Run (cfg : SysCfg) (cr : Crypto) (addr : Uint256 ↪ ℕ) (allowed : ChainState → Op → Prop) :
    ChainState → ChainState → Prop
  | refl (st : ChainState) : Run cfg cr addr allowed st st
  | step {st mid st' : ChainState} (run : Run cfg cr addr allowed st mid) (op : Op)
      (ok : allowed mid op) (next : mid.apply cfg cr addr op = some st') : Run cfg cr addr allowed st st'

theorem Run.imp {cfg : SysCfg} {cr : Crypto} {addr : Uint256 ↪ ℕ} {allowed also : ChainState → Op → Prop}
    {st st' : ChainState} (h : ∀ st op, allowed st op → also st op) (run : Run cfg cr addr allowed st st') :
    Run cfg cr addr also st st' := by
  induction run with
  | refl => exact .refl _
  | step _ op ok next ih => exact .step ih op (h _ op ok) next

/-- What `LoadBlockIndexDB` leaves: every entry without a failure mark is in the set. -/
structure Loaded (st : ChainState) : Prop where
  sound : st.Sound
  reached : ∀ l, st.Entry l → st.reached l = true
  set : ∀ l, l ∈ st.setBlockIndexValid ↔ st.Entry l ∧ st.failed l = false
  activeEntry : st.chainActive ≠ [] → st.Entry st.chainActive
  active : Clean st.failed st.chainActive
  mostWork : st.chainMostWork = []

theorem Loaded.inv {st : ChainState} (h : st.Loaded) : st.Inv where
  sound := h.sound
  reached := h.reached
  unmarked l hl := ((h.set l).mp hl).2
  complete l hl hc :=
    (h.set l).mpr ⟨hl, clean_iff.mp hc l (hl.ne_nil h.sound) (List.suffix_refl l)⟩
  activeEntry := h.activeEntry
  active := h.active
  mostEntry hne := absurd h.mostWork hne
  most := by
    rw [h.mostWork]
    trivial

theorem Loaded.init : init.Loaded where
  sound := Inv.init.sound
  reached := Inv.init.reached
  set l := iff_of_false List.not_mem_nil fun h => not_entry_init l h.1
  activeEntry := Inv.init.activeEntry
  active := trivial
  mostWork := rfl

section
variable {cfg : SysCfg} {cr : Crypto} {addr : Uint256 ↪ ℕ} {st st' : ChainState}

theorem KeepsFailures.refl (st : ChainState) : KeepsFailures st st := fun _ hm => ⟨hm, id⟩

theorem KeepsFailures.trans {st'' : ChainState} (h : KeepsFailures st st') (h' : KeepsFailures st' st'') :
    KeepsFailures st st'' := fun m hm =>
  ⟨(h' m (h m hm).1).1, fun hfail => (h' m (h m hm).1).2 ((h m hm).2 hfail)⟩

/-- A connected block. -/
theorem Inv.connected (h : st.Inv) {l : PBlockIndex} (hl : st.Entry l) (htail : l.tail = st.chainActive)
    {unStatus : UInt32} (hkeeps : KeepsMarks (st.status l) unStatus) (hfail : st.failed l = false) :
    (st.connectTip l (.connected unStatus)).Inv ∧
      KeepsFailures st (st.connectTip l (.connected unStatus)) := by
  have hbits : decide (unStatus &&& blockFailedMask ≠ 0) = st.failed l := by
    rw [hkeeps.1]
    rfl
  obtain ⟨hinv, hsame⟩ := h.setStatus hbits (hkeeps.2 (of_decide_eq_true (h.reached l hl)))
  have hclean : Clean st.failed l := by
    cases l with
    | nil => trivial
    | cons p rest =>
      refine ⟨hfail, ?_⟩
      rw [List.tail_cons] at htail
      rw [htail]
      exact h.active
  refine ⟨hinv.withActive (fun _ => hl) (by rw [hsame]; exact hclean), fun m hm => ⟨hm, fun hmf => ?_⟩⟩
  show (st.setStatus l unStatus).failed m = true
  rw [hsame]
  exact hmf

/-- A block that could not be connected. -/
theorem Inv.connectFailed (h : st.Inv) {l : PBlockIndex} (hl : st.Entry l) {unStatus : UInt32}
    (hkeeps : KeepsMarks (st.status l) unStatus) :
    (st.connectTip l (.failed unStatus)).Inv ∧ KeepsFailures st (st.connectTip l (.failed unStatus)) := by
  have hbits : decide (unStatus &&& blockFailedMask ≠ 0) = st.failed l := by
    rw [hkeeps.1]
    rfl
  obtain ⟨hinv, hsame⟩ := h.setStatus hbits (hkeeps.2 (of_decide_eq_true (h.reached l hl)))
  refine ⟨hinv, fun m hm => ⟨hm, fun hmf => ?_⟩⟩
  show (st.setStatus l unStatus).failed m = true
  rw [hsame]
  exact hmf

/-- The chain that a call of `CheckActiveChain` moves to is one of the index. -/
theorem Spares.entry {nHeight : ℤ} {cHash : Uint256} {pcheckpoint most : PBlockIndex}
    (h : st.Spares addr nHeight cHash pcheckpoint most) (hs : st.Sound)
    (hactive : st.chainActive ≠ [] → st.Entry st.chainActive)
    (hcheckpoint : pcheckpoint ≠ [] → st.Entry pcheckpoint) (hne : most ≠ []) : st.Entry most := by
  unfold Spares at h
  split at h
  · rw [h.1] at hne ⊢
    have hsuffix := chainTo_suffix st.chainActive (nHeight - 1)
    have hane : st.chainActive ≠ [] := by
      intro hnil
      rw [hnil] at hsuffix
      exact hne (List.suffix_nil.mp (hnil ▸ hsuffix))
    exact (hactive hane).of_suffix hs hne hsuffix
  · rcases h.mem with rfl | hmem
    · exact hcheckpoint hne
    · exact hs.setEntry most (mem_candidates.mp hmem)

theorem Reaches.entry {connect : PBlockIndex → TipResult} {disconnects : PBlockIndex → Bool}
    {l : PBlockIndex} (hl : st.Reaches connect disconnects l) (hs : st.Sound)
    (hmost : st.chainMostWork ≠ [] → st.Entry st.chainMostWork) : st.Entry l := by
  have hne : st.chainMostWork ≠ [] := by
    intro hnil
    have hon := hl.on
    rw [hnil] at hon
    exact hl.ne_nil (List.suffix_nil.mp hon)
  exact (hmost hne).of_suffix hs hl.ne_nil hl.on

theorem mem_insert {l m : PBlockIndex} :
    m ∈ (st.insert l).setBlockIndexValid ↔ m = l ∨ m ∈ st.setBlockIndexValid := by
  show m ∈ (if _ then _ else _) ↔ _
  split
  · next hin => exact ⟨.inr, fun hm => hm.elim (fun heq => heq ▸ hin) id⟩
  · exact List.mem_cons

theorem Sound.insert (hs : st.Sound) {l : PBlockIndex} (hl : st.Entry l) : (st.insert l).Sound := by
  refine ⟨hs.index, hs.parent, ?_, ?_⟩
  · intro m hm
    rcases mem_insert.mp hm with rfl | hm
    · exact hl
    · exact hs.setEntry m hm
  · show List.Nodup (if _ then _ else _)
    split
    · exact hs.nodup
    · next hnot => exact List.nodup_cons.mpr ⟨hnot, hs.nodup⟩

/-- A candidate that is in the set already, or is put in without a mark. -/
theorem Inv.insert (h : st.Inv) {l : PBlockIndex} (hl : st.Entry l) (hfail : st.failed l = false) :
    (st.insert l).Inv := by
  refine ⟨h.sound.insert hl, h.reached, ?_, ?_, h.activeEntry, h.active, h.mostEntry, h.most⟩
  · intro m hm
    rcases mem_insert.mp hm with rfl | hm
    · exact hfail
    · exact h.unmarked m hm
  · exact fun m hm hc => mem_insert.mpr (.inr (h.complete m hm hc))

/-- The states on the way of a call of `CheckActiveChain`. -/
structure OnTheWay (st st₁ : ChainState) : Prop where
  map : st₁.mapBlockIndex = st.mapBlockIndex
  mostWork : st₁.chainMostWork = st.chainMostWork
  failed : st₁.failed = st.failed
  /-- no block above the active chain was touched -/
  status : ∀ m, st.Entry m → ¬ m <:+ st₁.chainActive → st₁.status m = st.status m

theorem OnTheWay.entry {st₁ : ChainState} (h : OnTheWay st st₁) {m : PBlockIndex} : st₁.Entry m ↔ st.Entry m := by
  rw [Entry, Entry, h.map]

theorem OnTheWay.connected {st₁ : ChainState} (h : OnTheWay st st₁) {l : PBlockIndex} (hl : st.Entry l)
    (htail : l.tail = st₁.chainActive) {unStatus : UInt32} (hkeeps : KeepsMarks (st₁.status l) unStatus) :
    OnTheWay st ((st₁.connectTip l (.connected unStatus)).insert l) where
  map := h.map
  mostWork := h.mostWork
  failed := by
    have hbits : decide (unStatus &&& blockFailedMask ≠ 0) = st₁.failed l := by
      rw [hkeeps.1]
      rfl
    have hsame : (st₁.setStatus l unStatus).failed = st₁.failed := failed_setStatus hbits
    exact hsame.trans h.failed
  status m hm hnew := by
    have hout : ¬ m <:+ l := hnew
    have hne : m.hash ≠ l.hash := by
      intro heq
      rw [hm.eq_of_hash hl heq] at hout
      exact hout (List.suffix_refl l)
    have hsame : (st₁.setStatus l unStatus).status m = st₁.status m := by
      rw [status_setStatus, if_neg hne]
    refine hsame.trans (h.status m hm fun hold => hout ?_)
    rw [← htail] at hold
    exact hold.trans (List.tail_suffix l)

theorem OnTheWay.keepsFailures {st₁ : ChainState} (h : OnTheWay st st₁) : KeepsFailures st st₁ := by
  intro m hm
  rw [h.failed]
  exact ⟨h.entry.mpr hm, id⟩

/-- The block above the active chain has the status it had before. -/
theorem OnTheWay.status_next {st₁ : ChainState} (h : OnTheWay st st₁) {l : PBlockIndex} (hne : l ≠ [])
    (htail : l.tail = st₁.chainActive) (hl : st.Entry l) : st₁.status l = st.status l := by
  refine h.status l hl fun hold => ?_
  have hle := hold.length_le
  have hpos := List.length_pos_of_ne_nil hne
  rw [← htail, List.length_tail] at hle
  omega

/-- The active chain follows the most-work chain over blocks without a mark. -/
theorem Inv.followMostWork (h : st.Inv) {connect : PBlockIndex → TipResult}
    {disconnects : PBlockIndex → Bool} (hkeeps : ∀ l, st.Entry l → (connect l).Keeps (st.status l))
    (hconnect : ∀ l, st.Reaches connect disconnects l → st.ConnectHarmless l (connect l)) :
    (followMostWork connect disconnects st).Inv ∧
      KeepsFailures st (followMostWork connect disconnects st) := by
  have hentry : ∀ l, st.Reaches connect disconnects l → st.Entry l :=
    fun l hl => hl.entry h.sound h.mostEntry
  refine followMostWork_rule (Q := fun st₁ => st₁.Inv ∧ OnTheWay st st₁)
    (R := fun st₁ => st₁.Inv ∧ KeepsFailures st st₁) ?_ ?_ ?_ ?_
  · intro s hs
    refine ⟨h.withActive (fun hne => ?_) (h.active.of_suffix hs), rfl, rfl, rfl, fun _ _ _ => rfl⟩
    have hane : st.chainActive ≠ [] := by
      intro hnil
      rw [hnil] at hs
      exact hne (List.suffix_nil.mp hs)
    exact (h.activeEntry hane).of_suffix h.sound hne hs
  · rintro st₁ l unStatus ⟨hinv, hway⟩ htail hl hresult
    have hl₁ : st₁.Entry l := hway.entry.mpr (hentry l hl)
    have hmarks := hkeeps l (hentry l hl)
    have hfail := hconnect l hl
    rw [hresult] at hmarks hfail
    rw [← hway.status_next hl.ne_nil htail (hentry l hl)] at hmarks
    have hfail₁ : st₁.failed l = false := by
      rw [hway.failed]
      exact hfail
    have hnext := hway.connected (hentry l hl) htail hmarks
    refine ⟨(hinv.connected hl₁ htail hmarks hfail₁).1.insert hl₁ ?_, hnext⟩
    have hsame : (st₁.connectTip l (.connected unStatus)).failed = st.failed := hnext.failed
    rw [hsame]
    exact hfail
  · rintro st₁ l ⟨hinv, hway⟩ htail hl hstops
    have hl₁ : st₁.Entry l := hway.entry.mpr (hentry l hl)
    have hmarks := hkeeps l (hentry l hl)
    have hharm := hconnect l hl
    cases hresult : connect l with
    | connected unStatus => exact absurd hresult (hstops unStatus)
    | invalid bCorruptionPossible =>
      rw [hresult] at hharm
      have habove : bCorruptionPossible = true ∨ st₁.AboveMarked l := by
        refine hharm.imp_right fun habove s hs hsuffix hne => ?_
        rw [hway.failed]
        rw [hway.mostWork] at hs
        exact habove s hs hsuffix hne
      obtain ⟨hinv', hstep⟩ := hinv.invalidBlockFound hl₁ htail habove
      exact ⟨hinv', hway.keepsFailures.trans hstep⟩
    | failed unStatus =>
      rw [hresult] at hmarks
      rw [← hway.status_next hl.ne_nil htail (hentry l hl)] at hmarks
      obtain ⟨hinv', hstep⟩ := hinv.connectFailed hl₁ hmarks
      exact ⟨hinv', hway.keepsFailures.trans hstep⟩
  · exact fun st₁ hst₁ => ⟨hst₁.1, hst₁.2.keepsFailures⟩

/-- One harmless step. -/
theorem Inv.apply (h : st.Inv) {op : Op} (called : op.Called st) (harmless : op.Harmless addr st)
    (ok : st.apply cfg cr addr op = some st') : st'.Inv ∧ KeepsFailures st st' := by
  cases op with
  | addToBlockIndex env b tDiskBlockPos =>
    rw [ChainState.apply] at ok
    cases hadd : Dacrs.addToBlockIndex cr env st.mapBlockIndex b tDiskBlockPos with
    | error e =>
      rw [hadd] at ok
      cases ok
      exact ⟨h, KeepsFailures.refl st⟩
    | ok l =>
      rw [hadd] at ok
      cases ok
      obtain ⟨hnew, -, rfl⟩ := addToBlockIndex_ok hadd
      refine h.addEntry hnew (h.sound.index.nextHeight_nonneg _) fun hne => ?_
      cases hprev : st.mapBlockIndex b.cHashPrevBlock with
      | none =>
        rw [hprev] at hne
        exact absurd rfl hne
      | some pPrev => exact Entry.of_map h.sound hprev
  | checkSideBranch pPreBlockIndex cached connects =>
    cases ok
    unfold ChainState.checkSideBranch
    split
    · next hmore =>
      split
      · exact ⟨h, KeepsFailures.refl st⟩
      · exact h.reconnect connects _ (harmless hmore.2)
    · exact ⟨h, KeepsFailures.refl st⟩
  | invalidBlockFound pIndex bCorruptionPossible =>
    cases ok
    exact h.invalidBlockFound called.1 called.2 harmless
  | findMostWorkChain =>
    obtain ⟨found, hrun, hinv, hkeeps, -⟩ := h.findMostWorkChain addr
    rw [ChainState.apply, hrun _ (Nat.lt_succ_self _)] at ok
    cases ok
    exact ⟨hinv, hkeeps⟩
  | connectTip pNewIndex result =>
    cases ok
    obtain ⟨hl, htail, hkeeps⟩ := called
    cases result with
    | connected unStatus => exact h.connected hl htail hkeeps harmless
    | invalid bCorruptionPossible => exact h.invalidBlockFound hl htail harmless
    | failed unStatus => exact h.connectFailed hl hkeeps
  | disconnectTip success =>
    cases ok
    split
    · refine ⟨h.withActive (fun hne => ?_) (h.active.of_suffix (List.tail_suffix _)), KeepsFailures.refl st⟩
      exact (h.activeEntry called).of_suffix h.sound hne (List.tail_suffix _)
    · exact ⟨h, KeepsFailures.refl st⟩
  | checkActiveChain nHeight cHash pcheckpoint connect disconnects =>
    obtain ⟨hcheckpoint, hkeeps⟩ := called
    by_cases hagrees : st.Agrees nHeight cHash pcheckpoint
    · rw [ChainState.apply, checkActiveChain_of_agrees hagrees] at ok
      cases ok
      exact ⟨h, KeepsFailures.refl st⟩
    · obtain ⟨most, hspares, htop, hconnect⟩ := harmless.resolve_left hagrees
      rw [ChainState.apply, checkActiveChain_of_spares hagrees hspares] at ok
      cases ok
      have hmoved : Inv { st with chainMostWork := most } :=
        h.moved (hspares.entry h.sound h.activeEntry hcheckpoint) htop
      exact hmoved.followMostWork hkeeps hconnect

/-- A call that takes no candidate out and goes back to a block of the active chain is harmless. -/
theorem Op.safe_of_suffix {nHeight : ℤ} {cHash : Uint256} {pcheckpoint most : PBlockIndex}
    {connect : PBlockIndex → TipResult} {disconnects : PBlockIndex → Bool}
    (called : (Op.checkActiveChain nHeight cHash pcheckpoint connect disconnects).Called st)
    (h : st.Spares addr nHeight cHash pcheckpoint most) (hclean : Clean st.failed most)
    (hpart : most <:+ st.chainActive) :
    (Op.checkActiveChain nHeight cHash pcheckpoint connect disconnects).Safe addr st :=
  ⟨called, .inr ⟨most, h, Clean.topMarked hclean, fun _ hl => absurd hl (not_reaches_of_suffix hpart)⟩⟩

theorem Run.inv (run : Run cfg cr addr (Op.Safe addr) st st') (h : st.Inv) : st'.Inv ∧ KeepsFailures st st' := by
  induction run with
  | refl => exact ⟨h, KeepsFailures.refl _⟩
  | step _ op ok next ih =>
    obtain ⟨hmid, hkeeps⟩ := ih
    obtain ⟨hinv, hstep⟩ := hmid.apply ok.1 ok.2 next
    exact ⟨hinv, hkeeps.trans hstep⟩

end

/-- The candidates are as they should be. -/
structure Candidates (addr : Uint256 ↪ ℕ) (st : ChainState) : Prop where
  /-- no block that may become the tip is missing -/
  complete : ∀ l, st.Entry l → st.reached l = true → Clean st.failed l →
    chainWorkAt st.chainActive ≤ chainWorkAt l → l ∈ st.setBlockIndexValid
  /-- no block of the set is marked -/
  unmarked : ∀ l ∈ st.setBlockIndexValid, st.failed l = false
  best : st.FindsBest addr

/-- In every state of a run of harmless steps the candidates are as they should be, and no mark that was
there is gone. -/
theorem candidates_hold (cfg : SysCfg) (cr : Crypto) (addr : Uint256 ↪ ℕ) (start mid st : ChainState)
    (loaded : start.Loaded) (run : Run cfg cr addr (Op.Safe addr) start mid)
    (later : Run cfg cr addr (Op.Safe addr) mid st) :
    st.Candidates addr ∧ ∀ l, mid.Entry l → mid.failed l = true → st.failed l = true := by
  obtain ⟨hmid, -⟩ := run.inv loaded.inv
  obtain ⟨hinv, hkeeps⟩ := later.inv hmid
  refine ⟨⟨fun l hl _ hc _ => hinv.complete l hl hc, hinv.unmarked, hinv.findsBest addr⟩, ?_⟩
  exact fun l hl => (hkeeps l hl).2

/-! ## Two runs -/

section
open Sample

/-- Addresses in the order of the hashes. -/
def sampleAddr : Uint256 ↪ ℕ := ⟨BitVec.toNat, fun _ _ => BitVec.eq_of_toNat_eq⟩

def genesisEntry : PBlockIndex := acceptedOn genesisBlock []

def firstEntry : PBlockIndex := acceptedOn (firstBlock 0 1000000000 []) genesisEntry

/-- Genesis is connected. -/
def onGenesis : ChainState := (init.addEntry genesisEntry).connectTip genesisEntry (.connected 11)

/-- The next block is known. -/
def firstKnown : ChainState := onGenesis.addEntry firstEntry

theorem genesis_added : Dacrs.addToBlockIndex crypto acceptEnv init.mapBlockIndex genesisBlock ⟨0, 8⟩
    = .ok genesisEntry := by
  decide +kernel

theorem first_added : Dacrs.addToBlockIndex crypto acceptEnv onGenesis.mapBlockIndex
    (firstBlock 0 1000000000 []) ⟨0, 8⟩ = .ok firstEntry := by
  decide +kernel

/-- A block that came in is connected as a valid one. -/
theorem keepsMarks_added (st : ChainState) (l : PBlockIndex) :
    KeepsMarks ((st.addEntry l).status l) 11 := by
  rw [status_addEntry_self]
  unfold KeepsMarks
  decide

theorem onGenesis_run : Run chainCfg crypto sampleAddr (Op.Safe sampleAddr) init onGenesis := by
  have hstep : init.apply chainCfg crypto sampleAddr (.addToBlockIndex acceptEnv genesisBlock ⟨0, 8⟩)
      = some (init.addEntry genesisEntry) := by
    rw [apply, genesis_added]
  exact .step (.step (.refl _) (.addToBlockIndex acceptEnv genesisBlock ⟨0, 8⟩) ⟨trivial, trivial⟩ hstep)
    (.connectTip genesisEntry (.connected 11))
    ⟨⟨entry_addEntry_self _, rfl, keepsMarks_added _ _⟩, failed_addEntry_self _⟩ rfl

/-- The step in which the block comes in. -/
def firstArrives : Op := .addToBlockIndex acceptEnv (firstBlock 0 1000000000 []) ⟨0, 8⟩

theorem firstKnown_step : onGenesis.apply chainCfg crypto sampleAddr firstArrives = some firstKnown := by
  rw [firstArrives, apply, first_added]
  rfl

theorem firstKnown_run : Run chainCfg crypto sampleAddr (Op.Safe sampleAddr) init firstKnown :=
  .step onGenesis_run firstArrives ⟨trivial, trivial⟩ firstKnown_step

theorem first_new : onGenesis.mapBlockIndex
    (newBlockIndex crypto acceptEnv (firstBlock 0 1000000000 []) genesisEntry ⟨0, 8⟩).hashBlock = none :=
  (addToBlockIndex_ok first_added).1

theorem firstKnown_entries : firstKnown.Entry firstEntry ∧ firstKnown.Entry genesisEntry := by
  have hold : onGenesis.Entry genesisEntry := by
    rw [onGenesis, entry_connected]
    exact entry_addEntry_self genesisEntry
  exact ⟨entry_addEntry_self firstEntry, (entry_addEntry first_new genesisEntry).mpr (.inr hold)⟩

theorem firstKnown_set : firstKnown.setBlockIndexValid = [firstEntry, genesisEntry] := by
  have hold : onGenesis.setBlockIndexValid = [genesisEntry] := by
    rw [onGenesis, set_connected]
    exact (Inv.init.sound.set_addEntry [] rfl).2
  have hset := ((onGenesis_run.inv Inv.init).1.sound.set_addEntry genesisEntry first_new).2
  rw [hold] at hset
  exact hset

/-- It is connected. -/
def firstTip : ChainState := firstKnown.connectTip firstEntry (.connected 11)

theorem firstTip_set : firstTip.setBlockIndexValid = [firstEntry, genesisEntry] := by
  rw [firstTip, set_connected, firstKnown_set]

theorem firstTip_run : Run chainCfg crypto sampleAddr (Op.Safe sampleAddr) firstKnown firstTip :=
  .step (.refl _) (.connectTip firstEntry (.connected 11))
    ⟨⟨firstKnown_entries.1, rfl, keepsMarks_added _ _⟩, failed_addEntry_self _⟩ rfl

/-- A checkpoint at its height has another block. -/
def otherCheckpoint : Op := .checkActiveChain 1 0 [] (fun _ => .invalid true) fun _ => true

/-- The tip is disconnected, and stays among the candidates. -/
def firstUndone : ChainState := { firstTip with chainMostWork := genesisEntry, chainActive := genesisEntry }

theorem otherCheckpoint_acts : ¬ firstTip.Agrees 1 0 [] := by
  unfold Agrees
  decide +kernel

theorem otherCheckpoint_spares : firstTip.Spares sampleAddr 1 0 [] genesisEntry := by
  refine ⟨rfl, fun l hl => .inl ?_⟩
  rw [firstTip_set] at hl
  rcases List.mem_cons.mp hl with rfl | hl
  · rfl
  · obtain rfl := List.mem_singleton.mp hl
    rfl

theorem genesisEntry_suffix : genesisEntry <:+ firstTip.chainActive := List.suffix_cons _ _

theorem otherCheckpoint_safe : otherCheckpoint.Safe sampleAddr firstTip := by
  have called : otherCheckpoint.Called firstTip := ⟨fun hne => absurd rfl hne, fun _ _ => trivial⟩
  have hmem : genesisEntry ∈ firstTip.setBlockIndexValid := by
    rw [firstTip_set]
    exact List.mem_cons_of_mem _ (List.mem_singleton_self _)
  have hinv := (firstTip_run.inv (firstKnown_run.inv Inv.init).1).1
  have hclean : Clean firstTip.failed genesisEntry := ⟨hinv.unmarked _ hmem, trivial⟩
  exact Op.safe_of_suffix called otherCheckpoint_spares hclean genesisEntry_suffix

theorem firstUndone_step : firstTip.apply chainCfg crypto sampleAddr otherCheckpoint = some firstUndone := by
  have hne : genesisEntry ≠ [] := List.cons_ne_nil _ _
  have happly : firstTip.apply chainCfg crypto sampleAddr otherCheckpoint
      = firstTip.checkActiveChain sampleAddr 1 0 [] (fun _ => .invalid true) fun _ => true := by
    rw [otherCheckpoint, apply]
  rw [happly, checkActiveChain_of_suffix otherCheckpoint_acts otherCheckpoint_spares hne (fun _ => rfl)
    genesisEntry_suffix, firstUndone]

/-- The candidates after two blocks came in, and the second was disconnected for a checkpoint. -/
theorem firstUndone_candidates : firstUndone.Candidates sampleAddr ∧
    ∀ l, firstKnown.Entry l → firstKnown.failed l = true → firstUndone.failed l = true :=
  candidates_hold chainCfg crypto sampleAddr init firstKnown firstUndone Loaded.init firstKnown_run
    (.step firstTip_run otherCheckpoint otherCheckpoint_safe firstUndone_step)

/-- The block fails when it is connected to the tip. -/
def firstFailed : ChainState := firstKnown.connectTip firstEntry (.invalid false)

/-- It is connected in a check of a block above it, without failing this time. -/
def firstChecked : ChainState :=
  firstFailed.checkSideBranch chainCfg.nIntervalPos (fun _ => false) (fun _ => true) firstEntry

theorem firstFailed_run : Run chainCfg crypto sampleAddr Op.Called init firstFailed := by
  have hsafe : ∀ {st st'}, Run chainCfg crypto sampleAddr (Op.Safe sampleAddr) st st' →
      Run chainCfg crypto sampleAddr Op.Called st st' := by
    intro st st' run
    induction run with
    | refl => exact .refl _
    | step _ op ok next ih => exact .step ih op ok.1 next
  exact .step (hsafe firstKnown_run) (.connectTip firstEntry (.invalid false))
    ⟨firstKnown_entries.1, rfl, trivial⟩ rfl

/-- The mark is gone and the block is not among the candidates, though it has the most work. -/
theorem firstChecked_not_candidates :
    Run chainCfg crypto sampleAddr Op.Called init firstFailed ∧
    Run chainCfg crypto sampleAddr Op.Called firstFailed firstChecked ∧
    firstFailed.Entry firstEntry ∧ firstFailed.failed firstEntry = true ∧
    firstChecked.failed firstEntry = false ∧ ¬ firstChecked.Candidates sampleAddr := by
  have hentry : firstFailed.Entry firstEntry := by
    unfold Entry
    decide +kernel
  have hclean : Clean firstChecked.failed firstEntry := by
    show firstChecked.failed firstEntry = false ∧ firstChecked.failed genesisEntry = false ∧ True
    decide +kernel
  have hmissing : firstEntry ∉ firstChecked.setBlockIndexValid := by decide +kernel
  have hreached : firstChecked.reached firstEntry = true := by decide +kernel
  have hwork : chainWorkAt firstChecked.chainActive ≤ chainWorkAt firstEntry := by decide +kernel
  have hentry' : firstChecked.Entry firstEntry := by
    unfold Entry
    decide +kernel
  refine ⟨firstFailed_run, ?_, hentry, by decide +kernel, by decide +kernel, ?_⟩
  · exact .step (.refl _) (.checkSideBranch firstEntry (fun _ => false) fun _ => true) trivial rfl
  · exact fun h => hmissing (h.complete firstEntry hentry' hreached hclean hwork)

end

end ChainState

end Dacrs
