import Dacrs.Candidates

/-!
# Calls of CheckActiveChain

A call comes back early, or it may take candidates out of the set and then moves the active chain.
`Agrees` is where it comes back, `Spares` where it takes no candidate out, and `followMostWork_rule` is an
induction rule for what it does to the active chain.
-/

namespace Dacrs

namespace ChainState

section
variable {st : ChainState} {l : PBlockIndex}

theorem contains_iff {chain : PBlockIndex} : contains chain l = true ↔ l ≠ [] ∧ l <:+ chain :=
  decide_eq_true_iff

/-! ## Places on a chain -/

theorem chainTo_suffix (chain : PBlockIndex) (nHeight : ℤ) : chainTo chain nHeight <:+ chain := by
  unfold chainTo
  split
  · exact List.nil_suffix
  · exact List.drop_suffix _ _

/-- The next block of a chain over a part of it. -/
theorem chainTo_spec {chain active : PBlockIndex} (hpart : active <:+ chain) (hne : active ≠ chain) :
    chainTo chain active.length ≠ [] ∧ chainTo chain active.length <:+ chain ∧
      (chainTo chain active.length).length = active.length + 1 ∧
      (chainTo chain active.length).tail = active := by
  have hlt : active.length < chain.length :=
    lt_of_le_of_ne hpart.length_le fun heq => hne (hpart.eq_of_length heq)
  have hdrop : chainTo chain active.length = chain.drop (chain.length - 1 - active.length) := by
    unfold chainTo
    rw [if_neg (by omega)]
    rfl
  have hlength : (chainTo chain active.length).length = active.length + 1 := by
    rw [hdrop, List.length_drop]
    omega
  have hsuffix : chainTo chain active.length <:+ chain := chainTo_suffix chain active.length
  refine ⟨?_, hsuffix, hlength, ?_⟩
  · intro hnil
    rw [hnil] at hlength
    cases hlength
  · have htail := (List.tail_suffix (chainTo chain active.length)).trans hsuffix
    refine (List.suffix_of_suffix_length_le htail hpart ?_).eq_of_length ?_
    · rw [List.length_tail]
      omega
    · rw [List.length_tail]
      omega

variable (st) in
/-- Blocks are taken off the active chain until it is a part of the most-work chain; no common block is. -/
theorem disconnectDown_spec (disconnects : PBlockIndex → Bool) (l : PBlockIndex) :
    ∃ s, s <:+ l ∧ (disconnectDown disconnects st l).1 = { st with chainActive := s } ∧
      ((disconnectDown disconnects st l).2 = true → s <:+ st.chainMostWork) ∧
      ((disconnectDown disconnects st l).2 = false → ∃ t, disconnects t = false) ∧
      ∀ t, t ≠ [] → t <:+ l → t <:+ st.chainMostWork → t.length ≤ s.length := by
  induction l with
  | nil =>
    refine ⟨[], List.suffix_refl _, rfl, fun _ => List.nil_suffix, fun h => Bool.noConfusion h, ?_⟩
    intro t hne ht _
    exact absurd (List.suffix_nil.mp ht) hne
  | cons p rest ih =>
    rw [disconnectDown]
    by_cases hin : contains st.chainMostWork (p :: rest) = true
    · rw [if_pos hin]
      exact ⟨p :: rest, List.suffix_refl _, rfl, fun _ => (contains_iff.mp hin).2,
        fun h => Bool.noConfusion h, fun t _ ht _ => ht.length_le⟩
    · rw [if_neg hin]
      have hout : ∀ t, t ≠ [] → t <:+ p :: rest → t <:+ st.chainMostWork → t <:+ rest := by
        intro t hne ht hmost
        rcases List.suffix_cons_iff.mp ht with rfl | hrest
        · exact absurd (contains_iff.mpr ⟨hne, hmost⟩) hin
        · exact hrest
      split
      · obtain ⟨s, hs, hst, hdone, hstop, hcommon⟩ := ih
        refine ⟨s, hs.trans (List.suffix_cons _ _), hst, hdone, hstop, ?_⟩
        exact fun t hne ht hmost => hcommon t hne (hout t hne ht hmost) hmost
      · next hfails =>
        refine ⟨p :: rest, List.suffix_refl _, rfl, ?_, fun _ => ?_, fun t _ ht _ => ht.length_le⟩
        · intro h
          cases h
        · exact ⟨p :: rest, Bool.not_eq_true _ ▸ hfails⟩

/-- Every block off the most-work chain was disconnected. -/
theorem disconnects_of_disconnectDown {disconnects : PBlockIndex → Bool}
    (h : (disconnectDown disconnects st l).2 = true) {s : PBlockIndex} (hne : s ≠ []) (hs : s <:+ l)
    (hoff : ¬ s <:+ st.chainMostWork) : disconnects s = true := by
  induction l with
  | nil => exact absurd (List.suffix_nil.mp hs) hne
  | cons p rest ih =>
    rw [disconnectDown] at h
    split at h
    · next hin => exact absurd (hs.trans (contains_iff.mp hin).2) hoff
    · split at h
      · next hp =>
        rcases List.suffix_cons_iff.mp hs with rfl | hrest
        · exact hp
        · exact ih h hrest
      · cases h

/-! ## Calls that come back early -/

/-- The active chain does not contradict the checkpoint: it has the block, or is not that high and, when
an earlier checkpoint is in the index, contains that one. -/
def Agrees (st : ChainState) (nHeight : ℤ) (cHash : Uint256) (pcheckpoint : PBlockIndex) : Prop :=
  nHeight < 1 ∨
  (chainTo st.chainActive nHeight ≠ [] ∧ (chainTo st.chainActive nHeight).hash = cHash) ∨
  (chainTo st.chainActive nHeight = [] ∧
    (pcheckpoint = [] ∨ contains st.chainActive pcheckpoint = true))

section
variable {addr : Uint256 ↪ ℕ} {nHeight : ℤ} {cHash : Uint256} {pcheckpoint most : PBlockIndex}
  {connect : PBlockIndex → TipResult} {disconnects : PBlockIndex → Bool}

theorem checkActiveChain_of_agrees (h : st.Agrees nHeight cHash pcheckpoint) :
    st.checkActiveChain addr nHeight cHash pcheckpoint connect disconnects = some st := by
  unfold checkActiveChain
  by_cases h1 : nHeight < 1
  · rw [if_pos h1]
  · rw [if_neg h1]
    rcases h.resolve_left h1 with hsame | ⟨hshort, hcheck⟩
    · rw [if_pos hsame]
    · rw [if_neg (fun hboth => hboth.1 hshort)]
      rcases hcheck with rfl | hin
      · rw [if_neg (fun hne => hne rfl), if_pos hshort]
      · by_cases hne : pcheckpoint ≠ []
        · rw [if_pos hne, if_pos ⟨hshort, hin⟩]
        · rw [if_neg hne, if_pos hshort]

/-! ## Calls that take no candidate out of the set -/

/-- The most-work chain after a turn of the loop with a checkpoint. -/
def extended (most pIndexCheck pIndexTest : PBlockIndex) : PBlockIndex :=
  if contains most pIndexCheck ∧ most = pIndexCheck ∧ chainWorkAt most < chainWorkAt pIndexTest then
    pIndexTest
  else most

theorem extendMostWork_eq (pIndexCheck pIndexTest : PBlockIndex) :
    st.extendMostWork pIndexCheck pIndexTest =
      { st with chainMostWork := extended st.chainMostWork pIndexCheck pIndexTest } := by
  unfold extendMostWork extended
  split
  · rfl
  · rfl

/-- The loop with a checkpoint passes candidates, best first, up to one on the most-work chain: each is
below the height, or meets the most-work chain at the checkpoint or over it.  The chains are the most-work
chain before and after. -/
inductive Passes (pcheckpoint : PBlockIndex) (nHeight : ℤ) :
    PBlockIndex → List PBlockIndex → PBlockIndex → Prop
  | done (most : PBlockIndex) : Passes pcheckpoint nHeight most [] most
  | met {most l : PBlockIndex} (rest : List PBlockIndex) (on : contains most l = true) :
    Passes pcheckpoint nHeight most (l :: rest) most
  | low {most l last : PBlockIndex} {rest : List PBlockIndex} (off : contains most l = false)
    (first : nextHeight pcheckpoint ≤ nHeight) (height : nextHeight l ≤ nHeight)
    (later : Passes pcheckpoint nHeight most rest last) : Passes pcheckpoint nHeight most (l :: rest) last
  | forked {most l last : PBlockIndex} {rest : List PBlockIndex} (off : contains most l = false)
    (high : nHeight < nextHeight pcheckpoint)
    (fork : nextHeight pcheckpoint ≤ nextHeight (downToChain most l.tail))
    (later : Passes pcheckpoint nHeight (extended most (downToChain most l.tail) l) rest last) :
    Passes pcheckpoint nHeight most (l :: rest) last

/-- A call that acts takes no candidate out and moves the most-work chain to `most`. -/
def Spares (addr : Uint256 ↪ ℕ) (st : ChainState) (nHeight : ℤ) (cHash : Uint256)
    (pcheckpoint most : PBlockIndex) : Prop :=
  if pcheckpoint = [] then
    most = chainTo st.chainActive (nHeight - 1) ∧
      ∀ l ∈ st.setBlockIndexValid, downToHeight nHeight l = l ∨ (downToHeight nHeight l).hash = cHash
  else Passes pcheckpoint nHeight pcheckpoint (st.candidates addr) most

theorem mem_candidates : l ∈ st.candidates addr ↔ l ∈ st.setBlockIndexValid :=
  List.mem_insertionSort _

theorem length_candidates : (st.candidates addr).length = st.setBlockIndexValid.length :=
  List.length_insertionSort _ _

theorem dropOffCheckpoint_of_passes (hheight : 1 ≤ nHeight) {fuel it : ℕ}
    (hpass : Passes pcheckpoint nHeight st.chainMostWork ((st.candidates addr).drop it) most)
    (hfuel : st.setBlockIndexValid.length - it < fuel) :
    dropOffCheckpoint addr pcheckpoint nHeight fuel it st = some { st with chainMostWork := most } := by
  induction fuel generalizing it st with
  | zero => omega
  | succ fuel ih =>
    rw [dropOffCheckpoint]
    cases hit : (st.candidates addr)[it]? with
    | none =>
      rw [List.drop_eq_nil_of_le (List.getElem?_eq_none_iff.mp hit)] at hpass
      cases hpass
      rfl
    | some l =>
      obtain ⟨hlt, hl⟩ := List.getElem?_eq_some_iff.mp hit
      rw [List.drop_eq_getElem_cons hlt, hl] at hpass
      rw [length_candidates] at hlt
      dsimp only
      cases hpass with
      | met rest on => rw [if_pos on]
      | low off first height later =>
        rw [if_neg (Bool.eq_false_iff.mp off), if_pos first, if_neg (by omega)]
        exact ih later (by omega)
      | forked off high fork later =>
        have hne : downToChain st.chainMostWork l.tail ≠ [] := by
          intro hnil
          rw [hnil] at fork
          have hzero : nextHeight pcheckpoint ≤ 0 := fork
          omega
        rw [if_neg (Bool.eq_false_iff.mp off), if_neg (by omega), if_neg hne, if_neg (by omega),
          extendMostWork_eq]
        exact ih later (by
          show st.setBlockIndexValid.length - (it + 1) < fuel
          omega)

theorem dropMismatch_of_spares
    (h : ∀ l ∈ st.setBlockIndexValid, downToHeight nHeight l = l ∨ (downToHeight nHeight l).hash = cHash)
    {fuel it : ℕ} (hfuel : st.setBlockIndexValid.length - it < fuel) :
    dropMismatch addr nHeight cHash fuel it st = some st := by
  induction fuel generalizing it with
  | zero => omega
  | succ fuel ih =>
    rw [dropMismatch]
    cases hit : (st.candidates addr)[it]? with
    | none => rfl
    | some l =>
      obtain ⟨hlt, hl⟩ := List.getElem?_eq_some_iff.mp hit
      have hmem : l ∈ st.setBlockIndexValid := by
        rw [← mem_candidates, ← hl]
        exact List.getElem_mem hlt
      rw [length_candidates] at hlt
      have hkeep : ¬ ((downToHeight nHeight l).hash ≠ cHash ∧ l ≠ downToHeight nHeight l) := by
        rintro ⟨hhash, hne⟩
        rcases h l hmem with hsame | hsame
        · exact hne hsame.symm
        · exact hhash hsame
      dsimp only
      rw [if_neg hkeep]
      exact ih (by omega)

theorem lt_loopFuel : st.setBlockIndexValid.length - 0 < st.loopFuel := by
  unfold loopFuel
  rw [Nat.mul_add]
  omega

/-- A call that acts and takes no candidate out comes back. -/
theorem checkActiveChain_of_spares (hacts : ¬ st.Agrees nHeight cHash pcheckpoint)
    (h : st.Spares addr nHeight cHash pcheckpoint most) :
    st.checkActiveChain addr nHeight cHash pcheckpoint connect disconnects =
      some (followMostWork connect disconnects { st with chainMostWork := most }) := by
  unfold Agrees at hacts
  rw [not_or, not_or] at hacts
  obtain ⟨hheight, hhash, hshort⟩ := hacts
  unfold checkActiveChain
  rw [if_neg hheight, if_neg hhash]
  unfold Spares at h
  split at h
  · next hnone =>
    obtain ⟨rfl, hset⟩ := h
    have hhigh : chainTo st.chainActive nHeight ≠ [] := fun hnil => hshort ⟨hnil, .inl hnone⟩
    rw [if_neg (not_not_intro hnone), if_neg hhigh, dropMismatch_of_spares hset lt_loopFuel]
    rfl
  · next hsome =>
    have hoff : ¬ (chainTo st.chainActive nHeight = [] ∧ contains st.chainActive pcheckpoint = true) :=
      fun hboth => hshort ⟨hboth.1, .inr hboth.2⟩
    have hdrop : dropOffCheckpoint addr pcheckpoint nHeight st.loopFuel 0
        { st with chainMostWork := pcheckpoint } = some { st with chainMostWork := most } :=
      dropOffCheckpoint_of_passes (by omega) h lt_loopFuel
    rw [if_pos hsome, if_neg hoff, hdrop]
    rfl

/-- The most-work chain is the checkpoint's or a candidate. -/
theorem Passes.mem {candidates : List PBlockIndex} {last : PBlockIndex}
    (h : Passes pcheckpoint nHeight most candidates last) : last = most ∨ last ∈ candidates := by
  induction h with
  | done => exact .inl rfl
  | met => exact .inl rfl
  | low off first height later ih => exact ih.imp_right (List.mem_cons_of_mem _)
  | forked off high fork later ih =>
    rcases ih with rfl | hmem
    · unfold extended
      split
      · exact .inr List.mem_cons_self
      · exact .inl rfl
    · exact .inr (List.mem_cons_of_mem _ hmem)

/-! ## What a call does to the active chain -/

/-- The call comes to the block when it connects the most-work chain: the blocks off that chain were
disconnected, and those under the block connected. -/
structure Reaches (connect : PBlockIndex → TipResult) (disconnects : PBlockIndex → Bool) (st : ChainState)
    (l : PBlockIndex) : Prop where
  down : ∀ s, s ≠ [] → s <:+ st.chainActive → ¬ s <:+ st.chainMostWork → disconnects s = true
  on : l <:+ st.chainMostWork
  new : ¬ l <:+ st.chainActive
  up : ∀ s, s <:+ l → s ≠ l → ¬ s <:+ st.chainActive → ∃ unStatus, connect s = .connected unStatus

theorem Reaches.ne_nil (h : st.Reaches connect disconnects l) : l ≠ [] := by
  rintro rfl
  exact h.new List.nil_suffix

/-- A call that goes back to a block of the active chain comes to no block. -/
theorem not_reaches_of_suffix (hpart : st.chainMostWork <:+ st.chainActive) :
    ¬ st.Reaches connect disconnects l :=
  fun hl => hl.new (hl.on.trans hpart)

theorem disconnectDown_of_suffix (hne : st.chainMostWork ≠ []) (hall : ∀ s, disconnects s = true)
    (hpart : st.chainMostWork <:+ l) :
    disconnectDown disconnects st l = ({ st with chainActive := st.chainMostWork }, true) := by
  induction l with
  | nil => exact absurd (List.suffix_nil.mp hpart) hne
  | cons p rest ih =>
    rw [disconnectDown]
    rcases List.suffix_cons_iff.mp hpart with heq | hrest
    · have hin : contains st.chainMostWork (p :: rest) = true :=
        contains_iff.mpr ⟨List.cons_ne_nil p rest, heq ▸ List.suffix_refl _⟩
      rw [if_pos hin, heq]
    · have hout : ¬ contains st.chainMostWork (p :: rest) = true := by
        intro hin
        have hle := ((contains_iff.mp hin).2.trans hrest).length_le
        rw [List.length_cons] at hle
        omega
      rw [if_neg hout, if_pos (hall _)]
      exact ih hrest

theorem followMostWork_of_suffix (hne : st.chainMostWork ≠ []) (hall : ∀ s, disconnects s = true)
    (hpart : st.chainMostWork <:+ st.chainActive) :
    followMostWork connect disconnects st = { st with chainActive := st.chainMostWork } := by
  have hnil : chainTo st.chainMostWork st.chainMostWork.length = [] := by
    unfold chainTo
    rw [if_pos (.inr (le_refl _))]
  rw [followMostWork, if_neg hne, disconnectDown_of_suffix hne hall hpart]
  dsimp only
  cases st.chainMostWork.length with
  | zero => rfl
  | succ turns =>
    rw [connectUp]
    dsimp only
    rw [hnil]

/-- A call that takes no candidate out and goes back to a block of the active chain. -/
theorem checkActiveChain_of_suffix (hacts : ¬ st.Agrees nHeight cHash pcheckpoint)
    (h : st.Spares addr nHeight cHash pcheckpoint most) (hne : most ≠ []) (hall : ∀ s, disconnects s = true)
    (hpart : most <:+ st.chainActive) :
    st.checkActiveChain addr nHeight cHash pcheckpoint connect disconnects =
      some { st with chainMostWork := most, chainActive := most } := by
  rw [checkActiveChain_of_spares hacts h]
  exact congrArg some (followMostWork_of_suffix hne hall hpart)

section
variable {Q R : ChainState → Prop}

theorem connectUp_rule (hdown : ∀ s, s ≠ [] → s <:+ st.chainActive → ¬ s <:+ st.chainMostWork →
      disconnects s = true)
    (next : ∀ st₁ l unStatus, Q st₁ → l.tail = st₁.chainActive → st.Reaches connect disconnects l →
      connect l = .connected unStatus → Q ((st₁.connectTip l (.connected unStatus)).insert l))
    (last : ∀ st₁ l, Q st₁ → l.tail = st₁.chainActive → st.Reaches connect disconnects l →
      (∀ unStatus, connect l ≠ .connected unStatus) → R (st₁.connectTip l (connect l)))
    (stop : ∀ st₁, Q st₁ → R st₁) (turns : ℕ) {st₁ : ChainState} (hQ : Q st₁)
    (hmost : st₁.chainMostWork = st.chainMostWork) (hpart : st₁.chainActive <:+ st.chainMostWork)
    (hcommon : ∀ s, s <:+ st.chainActive → s <:+ st.chainMostWork → s <:+ st₁.chainActive)
    (hup : ∀ s, s <:+ st₁.chainActive → ¬ s <:+ st.chainActive → ∃ unStatus, connect s = .connected unStatus) :
    R (connectUp connect turns st₁) := by
  induction turns generalizing st₁ with
  | zero => exact stop st₁ hQ
  | succ turns ih =>
    rw [connectUp, hmost]
    by_cases hdone : st₁.chainActive = st.chainMostWork
    · have hnil : chainTo st.chainMostWork st₁.chainActive.length = [] := by
        unfold chainTo
        rw [hdone, if_pos (.inr (le_refl _))]
      rw [hnil]
      exact stop st₁ hQ
    · obtain ⟨hne, hsuffix, hlength, htail⟩ := chainTo_spec hpart hdone
      generalize chainTo st.chainMostWork st₁.chainActive.length = l at hne hsuffix hlength htail
      have hreach : st.Reaches connect disconnects l := by
        refine ⟨hdown, hsuffix, fun hold => ?_, fun s hs hsne hnew => hup s ?_ hnew⟩
        · have hle := (hcommon l hold hsuffix).length_le
          omega
        · cases l with
          | nil => exact absurd rfl hne
          | cons p rest =>
            rw [← htail]
            exact (List.suffix_cons_iff.mp hs).resolve_left hsne
      cases l with
      | nil => exact absurd rfl hne
      | cons p rest =>
        dsimp only
        cases hresult : connect (p :: rest) with
        | connected unStatus =>
          refine ih (next st₁ _ unStatus hQ htail hreach hresult) hmost hsuffix ?_ ?_
          · intro s hs hin
            exact (hcommon s hs hin).trans (htail ▸ List.suffix_cons p rest)
          · intro s hs hnew
            rcases List.suffix_cons_iff.mp hs with rfl | hrest
            · exact ⟨unStatus, hresult⟩
            · exact hup s (htail ▸ hrest) hnew
        | invalid bCorruptionPossible =>
          have hend := last st₁ _ hQ htail hreach fun u h => by
            rw [hresult] at h
            cases h
          rw [hresult] at hend
          exact hend
        | failed unStatus =>
          have hend := last st₁ _ hQ htail hreach fun u h => by
            rw [hresult] at h
            cases h
          rw [hresult] at hend
          exact hend

/-- What holds of the states on the way, for the blocks that the call comes to, and then of the last. -/
theorem followMostWork_rule (start : ∀ s, s <:+ st.chainActive → Q { st with chainActive := s })
    (next : ∀ st₁ l unStatus, Q st₁ → l.tail = st₁.chainActive → st.Reaches connect disconnects l →
      connect l = .connected unStatus → Q ((st₁.connectTip l (.connected unStatus)).insert l))
    (last : ∀ st₁ l, Q st₁ → l.tail = st₁.chainActive → st.Reaches connect disconnects l →
      (∀ unStatus, connect l ≠ .connected unStatus) → R (st₁.connectTip l (connect l)))
    (stop : ∀ st₁, Q st₁ → R st₁) : R (followMostWork connect disconnects st) := by
  unfold followMostWork
  split
  · exact stop st (start st.chainActive (List.suffix_refl _))
  · obtain ⟨s, hs, hst, hdone, -, hcommon⟩ := st.disconnectDown_spec disconnects st.chainActive
    have hall : (disconnectDown disconnects st st.chainActive).2 = true → ∀ t, t ≠ [] →
        t <:+ st.chainActive → ¬ t <:+ st.chainMostWork → disconnects t = true :=
      fun h t => disconnects_of_disconnectDown h
    generalize disconnectDown disconnects st st.chainActive = r at hst hdone hall
    obtain ⟨st₁, success⟩ := r
    cases success with
    | false =>
      rw [show st₁ = _ from hst]
      exact stop _ (start s hs)
    | true =>
      dsimp only at hst
      subst hst
      refine connectUp_rule (hall rfl) next last stop _ (start s hs) rfl (hdone rfl) ?_ ?_
      · intro t ht hin
        by_cases hne : t = []
        · rw [hne]
          exact List.nil_suffix
        · exact List.suffix_of_suffix_length_le ht hs (hcommon t hne ht hin)
      · exact fun t ht hnew => absurd (ht.trans hs) hnew

end

end

end

end ChainState

end Dacrs
