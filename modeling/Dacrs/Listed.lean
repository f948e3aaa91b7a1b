import Dacrs.CandidateRuns

/-!
# Index entries without a mark are candidates

`Listed` is what `LoadBlockIndexDB` sees to: the set holds every entry without a failure mark.  It says
less than `Inv` of the active chain and of the most-work chain, and so it stays when a block fails below
the tip of the most-work chain.
-/

open Codec (Bytes)

namespace Dacrs

open Ancestry

namespace ChainState

structure Listed (st : ChainState) : Prop where
  sound : st.Sound
  unmarked : ∀ l ∈ st.setBlockIndexValid, st.failed l = false
  listed : ∀ l, st.Entry l → st.failed l = false → l ∈ st.setBlockIndexValid
  activeEntry : st.chainActive ≠ [] → st.Entry st.chainActive
  mostEntry : st.chainMostWork ≠ [] → st.Entry st.chainMostWork

section
variable {st st' : ChainState} {l : PBlockIndex} {addr : Uint256 ↪ ℕ}

theorem Loaded.listed (h : st.Loaded) : st.Listed where
  sound := h.sound
  unmarked l hl := ((h.set l).mp hl).2
  listed l hl hfail := (h.set l).mpr ⟨hl, hfail⟩
  activeEntry := h.activeEntry
  mostEntry hne := absurd h.mostWork hne

theorem Listed.pruned (h : st.Listed) (hp : Pruned st st') : st'.Listed where
  sound := hp.sound
  unmarked := hp.unmarked h.unmarked
  listed l hl hfail := by
    have hl' := hp.entry.mp hl
    refine hp.listed l (h.listed l hl' ?_) hfail
    rw [← Bool.not_eq_true] at hfail ⊢
    exact fun hmark => hfail (hp.kept l hl' hmark)
  activeEntry hne := by
    rw [hp.active] at hne ⊢
    exact hp.entry.mpr (h.activeEntry hne)
  mostEntry hne := by
    rw [hp.mostWork] at hne ⊢
    exact hp.entry.mpr (h.mostEntry hne)

theorem Listed.withMostWork (h : st.Listed) (hl : l ≠ [] → st.Entry l) :
    Listed { st with chainMostWork := l } :=
  ⟨⟨h.sound.index, h.sound.parent, h.sound.setEntry, h.sound.nodup⟩, h.unmarked, h.listed, h.activeEntry, hl⟩

theorem Listed.withActive (h : st.Listed) (hl : l ≠ [] → st.Entry l) :
    Listed { st with chainActive := l } :=
  ⟨⟨h.sound.index, h.sound.parent, h.sound.setEntry, h.sound.nodup⟩, h.unmarked, h.listed, hl, h.mostEntry⟩

/-- Status bits that no mark depends on. -/
theorem Listed.setStatus (h : st.Listed) {unStatus : UInt32}
    (hfailed : decide (unStatus &&& blockFailedMask ≠ 0) = st.failed l) : (st.setStatus l unStatus).Listed := by
  have hsame := failed_setStatus hfailed
  refine ⟨⟨h.sound.index, h.sound.parent, h.sound.setEntry, h.sound.nodup⟩, ?_, ?_, h.activeEntry, h.mostEntry⟩
  · rw [hsame]
    exact h.unmarked
  · rw [hsame]
    exact h.listed

/-- A status that keeps its marks. -/
theorem Listed.keepsMarks (h : st.Listed) {unStatus : UInt32} (hkeeps : KeepsMarks (st.status l) unStatus) :
    (st.setStatus l unStatus).Listed ∧ (st.setStatus l unStatus).failed = st.failed := by
  have hbits : decide (unStatus &&& blockFailedMask ≠ 0) = st.failed l := by
    rw [hkeeps.1]
    rfl
  exact ⟨h.setStatus hbits, failed_setStatus hbits⟩

/-! ## A failed block -/

/-- The block is marked and no candidate. -/
structure Dropped (st st' : ChainState) (l : PBlockIndex) : Prop where
  listed : st'.Listed
  keeps : KeepsFailures st st'
  failed : st'.failed l = true
  notMem : l ∉ st'.setBlockIndexValid
  length : st'.setBlockIndexValid.length ≤ st.setBlockIndexValid.length
  shorter : st.failed l = false → st'.setBlockIndexValid.length < st.setBlockIndexValid.length

theorem Listed.dropped (h : st.Listed) (hl : st.Entry l) :
    Dropped st (markFailed blockFailedValid st l) l := by
  have hfailed := fun m (hm : st.Entry m) => failed_markFailed (.inl rfl : FailureBit blockFailedValid) hl hm
  have hmem : ∀ m, m ∈ (markFailed blockFailedValid st l).setBlockIndexValid ↔
      m ∈ st.setBlockIndexValid ∧ m ≠ l := fun m => mem_markFailed h.sound
  refine ⟨⟨h.sound.markFailed, ?_, ?_, h.activeEntry, h.mostEntry⟩, fun m hm => ⟨hm, ?_⟩, ?_, ?_, ?_, ?_⟩
  · intro m hm
    obtain ⟨hold, hne⟩ := (hmem m).mp hm
    rw [← Bool.not_eq_true, hfailed m (h.sound.setEntry m hold)]
    simp [h.unmarked m hold, hne]
  · intro m hm hfail
    have hnot : ¬ (st.failed m = true ∨ m = l) := by
      rw [← hfailed m hm, hfail]
      exact Bool.false_ne_true
    rw [not_or, Bool.not_eq_true] at hnot
    exact (hmem m).mpr ⟨h.listed m hm hnot.1, hnot.2⟩
  · exact fun hfail => (hfailed m hm).mpr (.inl hfail)
  · exact (hfailed l hl).mpr (.inr rfl)
  · exact fun hin => ((hmem l).mp hin).2 rfl
  · exact List.length_erase_le
  · intro hfail
    have hin := h.listed l hl hfail
    show (st.setBlockIndexValid.erase l).length < _
    rw [List.length_erase_of_mem hin]
    have hpos := List.length_pos_of_mem hin
    omega

/-! ## The search -/

/-- Two entries with the same key are one. -/
theorem eq_of_workKey {a b : PBlockIndex} (ha : st.Entry a) (hb : st.Entry b)
    (h : workKey addr a = workKey addr b) : a = b := by
  unfold workKey at h
  have hlow := congrArg (fun k => (ofLex (ofLex k).2).2) h
  have haddr : addr a.hash = addr b.hash := by
    have hneg : (-(addr a.hash : ℤ)) = -(addr b.hash : ℤ) := hlow
    omega
  exact ha.eq_of_hash hb (addr.injective haddr)

/-- What a call of `FindMostWorkChain` leaves. -/
structure Chosen (addr : Uint256 ↪ ℕ) (st st' : ChainState) : Prop where
  listed : st'.Listed
  keeps : KeepsFailures st st'
  active : st'.chainActive = st.chainActive
  length : st'.setBlockIndexValid.length ≤ st.setBlockIndexValid.length
  /-- no candidate is better -/
  best : ∀ l ∈ st'.setBlockIndexValid, st'.chainMostWork ≠ [] ∧ workKey addr l ≤ workKey addr st'.chainMostWork
  /-- no block that was marked is chosen -/
  notMarked : ∀ l, l ≠ [] → st.failed l = true → st'.chainMostWork ≠ l
  /-- a chain with a marked block above the active chain stays only when its tip gets its mark now -/
  path : st'.setBlockIndexValid.length < st.setBlockIndexValid.length ∨
    firstMarked (contains st'.chainActive) st'.failed st'.chainMostWork = none

theorem Pruned.length_le (h : Pruned st st') :
    st'.setBlockIndexValid.length ≤ st.setBlockIndexValid.length :=
  (h.sound.nodup.subperm h.subset).length_le

theorem Listed.findMostWorkChain (h : st.Listed) (addr : Uint256 ↪ ℕ) :
    ∃ st', (∀ fuel, st.setBlockIndexValid.length < fuel → st.findMostWorkChain addr fuel = some st') ∧
      Chosen addr st st' := by
  have htop : dropMarked st.failed st.chainMostWork ≠ [] →
      st.Entry (dropMarked st.failed st.chainMostWork) ∧
        st.failed (dropMarked st.failed st.chainMostWork) = false := fun hne =>
    ⟨h.sound.entry_dropMarked h.mostEntry hne, dropMarked_unmarked hne⟩
  have hpop := h.withMostWork fun hne => (htop hne).1
  obtain ⟨st', best, hrun, hsearch⟩ := findCandidate_searched addr hpop.sound hpop.unmarked
  have hp := hsearch.pruned
  have hmost : st'.chainMostWork = dropMarked st.failed st.chainMostWork := hp.mostWork
  have hlisted := hpop.pruned hp
  have hkeeps : KeepsFailures st st' := fun m hm => ⟨hp.entry.mpr hm, hp.kept m hm⟩
  -- the old tip is a candidate, unless it is marked now
  have htopMem : dropMarked st.failed st.chainMostWork ≠ [] →
      dropMarked st.failed st.chainMostWork ∈ st.setBlockIndexValid := fun hne =>
    h.listed _ (htop hne).1 (htop hne).2
  have hgone : ∀ m ∈ st.setBlockIndexValid, m ∉ st'.setBlockIndexValid →
      st'.setBlockIndexValid.length < st.setBlockIndexValid.length := fun m hm hnot => hp.length_lt hm hnot
  have hold : ∀ l, l ≠ [] → st.failed l = true → dropMarked st.failed st.chainMostWork ≠ l := by
    rintro l hne hfail rfl
    rw [(htop hne).2] at hfail
    cases hfail
  refine ⟨st'.improve addr best, ?_, ?_⟩
  · intro fuel hfuel
    rw [ChainState.findMostWorkChain, popMostWork_eq h.unmarked, hrun fuel hfuel]
    rfl
  · cases best with
    | none =>
      have hnil := hsearch.none_left rfl
      refine ⟨hlisted, hkeeps, hp.active, hp.length_le, ?_, ?_, ?_⟩
      · intro l hl
        rw [improve, hnil] at hl
        cases hl
      · intro l hne hfail
        show st'.chainMostWork ≠ l
        rw [hmost]
        exact hold l hne hfail
      · show _ ∨ firstMarked _ _ st'.chainMostWork = none
        rw [hmost]
        by_cases htopNil : dropMarked st.failed st.chainMostWork = []
        · rw [htopNil]
          exact .inr rfl
        · refine .inl (hgone _ (htopMem htopNil) ?_)
          rw [hnil]
          exact List.not_mem_nil
    | some b =>
      obtain ⟨hb, hpath, hmax⟩ := hsearch.greatest b rfl
      have hbEntry := hp.sound.setEntry b hb
      unfold improve
      dsimp only
      split
      · next hkeep =>
        rw [hmost, workLess_iff, not_lt] at hkeep
        obtain ⟨hne, hle⟩ := hkeep
        refine ⟨hlisted, hkeeps, hp.active, hp.length_le, ?_, ?_, ?_⟩
        · intro l hl
          rw [hmost]
          exact ⟨hne, le_trans (hmax l hl) hle⟩
        · intro l hlne hfail
          rw [hmost]
          exact hold l hlne hfail
        · rw [hmost]
          by_cases hstill : dropMarked st.failed st.chainMostWork ∈ st'.setBlockIndexValid
          · have hkey := le_antisymm (hmax _ hstill) hle
            rw [eq_of_workKey (hp.sound.setEntry _ hstill) hbEntry hkey]
            exact .inr hpath
          · exact .inl (hgone _ (htopMem hne) hstill)
      · refine ⟨hlisted.withMostWork fun _ => hbEntry, hkeeps, hp.active, hp.length_le, ?_, ?_, .inr hpath⟩
        · intro l hl
          exact ⟨hbEntry.ne_nil hp.sound, hmax l hl⟩
        · rintro l - hfail rfl
          have hun : st.failed b = false := hpop.unmarked b (hp.subset b hb)
          have hmark : st.failed b = true := hfail
          rw [hun] at hmark
          cases hmark

/-! ## Steps -/

theorem Listed.addEntry (h : st.Listed) {p : CBlockIndex} {rest : PBlockIndex}
    (hnew : st.mapBlockIndex p.hashBlock = none) (hp : 0 ≤ p.nHeight) (hrest : rest ≠ [] → st.Entry rest) :
    (st.addEntry (p :: rest)).Listed ∧ KeepsFailures st (st.addEntry (p :: rest)) := by
  have hentry : ∀ m, (st.addEntry (p :: rest)).Entry m ↔ m = p :: rest ∨ st.Entry m := entry_addEntry hnew
  have hfailed : ∀ m, st.Entry m → (st.addEntry (p :: rest)).failed m = st.failed m :=
    fun m hm => failed_addEntry_of_entry hnew hm
  have hset : (st.addEntry (p :: rest)).setBlockIndexValid = (p :: rest) :: st.setBlockIndexValid :=
    (h.sound.set_addEntry rest hnew).2
  refine ⟨⟨h.sound.addEntry hnew hp hrest, ?_, ?_, ?_, ?_⟩, fun m hm => ⟨(hentry m).mpr (.inr hm), ?_⟩⟩
  · rw [hset]
    intro m hm
    rcases List.mem_cons.mp hm with rfl | hm
    · exact failed_addEntry_self _
    · rw [hfailed m (h.sound.setEntry m hm)]
      exact h.unmarked m hm
  · rw [hset]
    intro m hm hfail
    rcases (hentry m).mp hm with rfl | hm
    · exact List.mem_cons_self
    · rw [hfailed m hm] at hfail
      exact List.mem_cons_of_mem _ (h.listed m hm hfail)
  · exact fun hne => (hentry _).mpr (.inr (h.activeEntry hne))
  · exact fun hne => (hentry _).mpr (.inr (h.mostEntry hne))
  · rw [hfailed m hm]
    exact id

/-- Blocks of a side branch that have no mark get a fresh status. -/
theorem Listed.reconnect (h : st.Listed) (connects : PBlockIndex → Bool) (blocks : List PBlockIndex)
    (hblocks : ∀ m ∈ blocks.takeWhile connects, st.failed m = false) :
    (st.reconnect connects blocks).Listed ∧ KeepsFailures st (st.reconnect connects blocks) := by
  induction blocks generalizing st with
  | nil => exact ⟨h, KeepsFailures.refl st⟩
  | cons m rest ih =>
    rw [ChainState.reconnect]
    split
    · next hconnects =>
      rw [List.takeWhile_cons_of_pos hconnects] at hblocks
      have hbits : decide ((blockValidTransactions ||| blockHaveData) &&& blockFailedMask ≠ 0)
          = st.failed m := by
        rw [hblocks m List.mem_cons_self]
        decide
      have hsame := failed_setStatus hbits
      obtain ⟨hmore, hkeeps⟩ := ih (h.setStatus hbits) fun m' hm' => by
        rw [hsame]
        exact hblocks m' (List.mem_cons_of_mem _ hm')
      refine ⟨hmore, fun m' hm' => ⟨(hkeeps m' hm').1, fun hfail => (hkeeps m' hm').2 ?_⟩⟩
      rw [hsame]
      exact hfail
    · exact ⟨h, KeepsFailures.refl st⟩

/-- A status that keeps its marks, and a new tip. -/
theorem Listed.connected (h : st.Listed) (hl : st.Entry l) {unStatus : UInt32}
    (hkeeps : KeepsMarks (st.status l) unStatus) :
    (st.connectTip l (.connected unStatus)).Listed ∧
      (st.connectTip l (.connected unStatus)).failed = st.failed := by
  obtain ⟨hlisted, hsame⟩ := h.keepsMarks hkeeps
  exact ⟨hlisted.withActive fun _ => hl, hsame⟩

variable (addr) in
/-- Where no entry without a mark leaves the set, and no mark is taken away. -/
def Op.Lists (st : ChainState) (op : Op) : Prop :=
  op.Called st ∧ match op with
    | .checkSideBranch pPreBlockIndex cached connects =>
      chainWorkAt st.chainActive < chainWorkAt pPreBlockIndex →
        ∀ l ∈ (preBlocks cached st.chainActive pPreBlockIndex).reverse.takeWhile connects, st.failed l = false
    | .checkActiveChain nHeight cHash pcheckpoint connect disconnects =>
      st.Agrees nHeight cHash pcheckpoint ∨
      ∃ most, st.Spares addr nHeight cHash pcheckpoint most ∧
        ∀ l, Reaches connect disconnects { st with chainMostWork := most } l →
          (∃ unStatus, connect l = .connected unStatus) → st.failed l = false
    | _ => True

theorem Op.Safe.lists {op : Op} (h : op.Safe addr st) : op.Lists addr st := by
  obtain ⟨called, harmless⟩ := h
  refine ⟨called, ?_⟩
  cases op with
  | checkSideBranch pPreBlockIndex cached connects => exact harmless
  | checkActiveChain nHeight cHash pcheckpoint connect disconnects =>
    refine harmless.imp_right fun ⟨most, hspares, _, hconnect⟩ => ⟨most, hspares, fun l hl hconnected => ?_⟩
    obtain ⟨unStatus, hresult⟩ := hconnected
    have hfail := hconnect l hl
    rw [hresult] at hfail
    exact hfail
  | _ => trivial

variable {cfg : SysCfg} {cr : Crypto}

theorem keepsFailures_of_failed (hentry : ∀ m, st.Entry m → st'.Entry m) (hsame : st'.failed = st.failed) :
    KeepsFailures st st' := by
  intro m hm
  rw [hsame]
  exact ⟨hentry m hm, id⟩

/-- A block that is found invalid. -/
theorem Listed.connectInvalid (h : st.Listed) (hl : st.Entry l) (bCorruptionPossible : Bool) :
    (st.connectTip l (.invalid bCorruptionPossible)).Listed ∧
      KeepsFailures st (st.connectTip l (.invalid bCorruptionPossible)) := by
  unfold ChainState.connectTip ChainState.invalidBlockFound
  dsimp only
  split
  · exact ⟨h, KeepsFailures.refl st⟩
  · have hdropped := h.dropped hl
    exact ⟨hdropped.listed, hdropped.keeps⟩

theorem Listed.insert (h : st.Listed) (hl : st.Entry l) (hfail : st.failed l = false) : (st.insert l).Listed := by
  refine ⟨h.sound.insert hl, ?_, ?_, h.activeEntry, h.mostEntry⟩
  · intro m hm
    rcases mem_insert.mp hm with rfl | hm
    · exact hfail
    · exact h.unmarked m hm
  · exact fun m hm hmfail => mem_insert.mpr (.inr (h.listed m hm hmfail))

/-- The active chain follows the most-work chain over blocks without a mark. -/
theorem Listed.followMostWork (h : st.Listed) {connect : PBlockIndex → TipResult}
    {disconnects : PBlockIndex → Bool} (hkeeps : ∀ l, st.Entry l → (connect l).Keeps (st.status l))
    (hconnect : ∀ l, st.Reaches connect disconnects l → (∃ unStatus, connect l = .connected unStatus) →
      st.failed l = false) :
    (followMostWork connect disconnects st).Listed ∧
      KeepsFailures st (followMostWork connect disconnects st) := by
  have hentry : ∀ l, st.Reaches connect disconnects l → st.Entry l :=
    fun l hl => hl.entry h.sound h.mostEntry
  refine followMostWork_rule (Q := fun st₁ => st₁.Listed ∧ OnTheWay st st₁)
    (R := fun st₁ => st₁.Listed ∧ KeepsFailures st st₁) ?_ ?_ ?_ ?_
  · intro s hs
    refine ⟨h.withActive fun hne => ?_, rfl, rfl, rfl, fun _ _ _ => rfl⟩
    have hane : st.chainActive ≠ [] := by
      intro hnil
      rw [hnil] at hs
      exact hne (List.suffix_nil.mp hs)
    exact (h.activeEntry hane).of_suffix h.sound hne hs
  · rintro st₁ l unStatus ⟨hlisted, hway⟩ htail hl hresult
    have hl₁ : st₁.Entry l := hway.entry.mpr (hentry l hl)
    have hmarks := hkeeps l (hentry l hl)
    rw [hresult, ← hway.status_next hl.ne_nil htail (hentry l hl)] at hmarks
    have hnext := hway.connected (hentry l hl) htail hmarks
    refine ⟨(hlisted.connected hl₁ hmarks).1.insert hl₁ ?_, hnext⟩
    have hsame : (st₁.connectTip l (.connected unStatus)).failed = st.failed := hnext.failed
    rw [hsame]
    exact hconnect l hl ⟨unStatus, hresult⟩
  · rintro st₁ l ⟨hlisted, hway⟩ htail hl hstops
    have hl₁ : st₁.Entry l := hway.entry.mpr (hentry l hl)
    have hmarks := hkeeps l (hentry l hl)
    cases hresult : connect l with
    | connected unStatus => exact absurd hresult (hstops unStatus)
    | invalid bCorruptionPossible =>
      obtain ⟨hlisted', hstep⟩ := hlisted.connectInvalid hl₁ bCorruptionPossible
      exact ⟨hlisted', hway.keepsFailures.trans hstep⟩
    | failed unStatus =>
      rw [hresult, ← hway.status_next hl.ne_nil htail (hentry l hl)] at hmarks
      obtain ⟨hlisted', hsame⟩ := hlisted.keepsMarks hmarks
      exact ⟨hlisted', hway.keepsFailures.trans (keepsFailures_of_failed (fun _ hm => hm) hsame)⟩
  · exact fun st₁ hst₁ => ⟨hst₁.1, hst₁.2.keepsFailures⟩

theorem Listed.apply (h : st.Listed) {op : Op} (lists : op.Lists addr st)
    (ok : st.apply cfg cr addr op = some st') : st'.Listed ∧ KeepsFailures st st' := by
  obtain ⟨called, harmless⟩ := lists
  cases op with
  | addToBlockIndex env b tDiskBlockPos =>
    rw [ChainState.apply] at ok
    cases hadd : Dacrs.addToBlockIndex cr env st.mapBlockIndex b tDiskBlockPos with
    | error e =>
      rw [hadd] at ok
      cases ok
      exact ⟨h, KeepsFailures.refl st⟩
    | ok l =>
      rw [hadd] at ok
      cases ok
      obtain ⟨hnew, -, rfl⟩ := addToBlockIndex_ok hadd
      refine h.addEntry hnew (h.sound.index.nextHeight_nonneg _) fun hne => ?_
      cases hprev : st.mapBlockIndex b.cHashPrevBlock with
      | none =>
        rw [hprev] at hne
        exact absurd rfl hne
      | some pPrev => exact Entry.of_map h.sound hprev
  | checkSideBranch pPreBlockIndex cached connects =>
    cases ok
    unfold ChainState.checkSideBranch
    split
    · next hmore =>
      split
      · exact ⟨h, KeepsFailures.refl st⟩
      · exact h.reconnect connects _ (harmless hmore.2)
    · exact ⟨h, KeepsFailures.refl st⟩
  | invalidBlockFound pIndex bCorruptionPossible =>
    cases ok
    exact h.connectInvalid called.1 bCorruptionPossible
  | findMostWorkChain =>
    obtain ⟨found, hrun, hchosen⟩ := h.findMostWorkChain addr
    rw [ChainState.apply, hrun _ (Nat.lt_succ_self _)] at ok
    cases ok
    exact ⟨hchosen.listed, hchosen.keeps⟩
  | connectTip pNewIndex result =>
    cases ok
    obtain ⟨hl, -, hkeeps⟩ := called
    cases result with
    | connected unStatus =>
      obtain ⟨hlisted, hsame⟩ := h.connected hl hkeeps
      exact ⟨hlisted, keepsFailures_of_failed (fun _ hm => hm) hsame⟩
    | invalid bCorruptionPossible => exact h.connectInvalid hl bCorruptionPossible
    | failed unStatus =>
      obtain ⟨hlisted, hsame⟩ := h.keepsMarks hkeeps
      exact ⟨hlisted, keepsFailures_of_failed (fun _ hm => hm) hsame⟩
  | disconnectTip success =>
    cases ok
    split
    · refine ⟨h.withActive fun hne => ?_, KeepsFailures.refl st⟩
      exact (h.activeEntry called).of_suffix h.sound hne (List.tail_suffix _)
    · exact ⟨h, KeepsFailures.refl st⟩
  | checkActiveChain nHeight cHash pcheckpoint connect disconnects =>
    obtain ⟨hcheckpoint, hkeeps⟩ := called
    by_cases hagrees : st.Agrees nHeight cHash pcheckpoint
    · rw [ChainState.apply, checkActiveChain_of_agrees hagrees] at ok
      cases ok
      exact ⟨h, KeepsFailures.refl st⟩
    · obtain ⟨most, hspares, hconnect⟩ := harmless.resolve_left hagrees
      rw [ChainState.apply, checkActiveChain_of_spares hagrees hspares] at ok
      cases ok
      have hmoved : Listed { st with chainMostWork := most } :=
        h.withMostWork (hspares.entry h.sound h.activeEntry hcheckpoint)
      exact hmoved.followMostWork hkeeps hconnect

theorem Listed.run (h : st.Listed) (run : Run cfg cr addr (Op.Lists addr) st st') :
    st'.Listed ∧ KeepsFailures st st' := by
  induction run with
  | refl => exact ⟨h, KeepsFailures.refl _⟩
  | step _ op ok next ih =>
    obtain ⟨hmid, hkeeps⟩ := ih
    obtain ⟨hlisted, hstep⟩ := hmid.apply ok next
    exact ⟨hlisted, hkeeps.trans hstep⟩

end

end ChainState

end Dacrs
