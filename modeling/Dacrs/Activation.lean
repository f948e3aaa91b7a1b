import Dacrs.BlockRejection
import Dacrs.Listed

/-!
# Activating the best chain

`ConnectTip` and `ActivateBestChain`, which goes on with another chain when a block is invalid and stops
when anything else goes wrong.  Where the rejections of blocks are recorded it stops only for the disk
(`activates_best`), and then no candidate has more work than the tip.  The block log is off.
-/

open Codec (Bytes)

namespace Dacrs

open Ancestry

namespace ChainState

/-! ## ConnectTip -/

/-- What a call of `ConnectTip` finds, and how its writes go. -/
structure TipRead where
  node : Node
  /-- `ReadBlockFromDisk` -/
  cBlock : Option CBlock
  views : Views
  cTxCache : CTransactionDBCache
  files : UndoFiles
  nUndoPos : UInt32
  /-- `WriteChainState` -/
  bWritten : Bool
  /-- what a call that fails leaves of the entry's status -/
  unStatusLeft : UInt32 → UInt32
  keeps : ∀ s, KeepsMarks s (unStatusLeft s)

namespace TipRead

/-- The entry with its ancestors, as it is when it is connected. -/
def entry (c : TipRead) (st : ChainState) : PBlockIndex → PBlockIndex
  | [] => []
  | p :: rest => p.later (st.status (p :: rest)) c.nUndoPos :: rest

def connectBlock (c : TipRead) (st : ChainState) (l : PBlockIndex) (b : CBlock) : Exec CBlock.Connected :=
  b.connectBlock c.node c.views (c.entry st l) c.cTxCache c.files false

/-- `ConnectTip` on a validation state; `none` is an exception. -/
def connectTip (c : TipRead) (cValidationState : CValidationState) (st : ChainState) (l : PBlockIndex) :
    Option TipResult :=
  match c.cBlock with
  | none => some (.failed (c.unStatusLeft (st.status l)))
  | some b => match c.connectBlock st l b with
    | .ok out =>
      if c.bWritten then some (.connected out.pBlockIndex.unStatus)
      else some (.failed (c.unStatusLeft (st.status l)))
    | .error (.throw _) => none
    | .error (.fail calls) =>
      let state := calls.foldl CValidationState.apply cValidationState
      if state.isInvalid then some (.invalid state.bCorruptionPossible)
      else some (.failed (c.unStatusLeft (st.status l)))

/-- Every rejection of the block is recorded. -/
def Records (c : TipRead) (st : ChainState) (l : PBlockIndex) : Prop :=
  ∀ b, c.cBlock = some b → b.Recording c.node c.views (c.entry st l) c.cTxCache c.files false

/-- The block cannot be read, or a write fails. -/
def DiskFails (c : TipRead) (st : ChainState) (l : PBlockIndex) : Prop :=
  c.cBlock = none ∨ ∃ b, c.cBlock = some b ∧
    (b.WriteFails c.node c.views (c.entry st l) c.cTxCache c.files false ∨
      (c.bWritten = false ∧ ∃ out, c.connectBlock st l b = .ok out))

variable {c : TipRead} {st : ChainState} {l : PBlockIndex} {state : CValidationState}

/-- Where the rejections are recorded a call connects the block, finds it invalid, or has trouble with the
disk. -/
theorem connectTip_cases (hvalid : state.emMode = .valid) (hrecords : c.Records st l) {r : TipResult}
    (h : c.connectTip state st l = some r) :
    (∃ s, r = .connected s ∧ KeepsMarks (st.status l) s) ∨ r = .invalid false ∨
      (∃ s, r = .failed s ∧ KeepsMarks (st.status l) s ∧ c.DiskFails st l) := by
  have hleft := c.keeps (st.status l)
  unfold connectTip at h
  cases hb : c.cBlock with
  | none =>
    rw [hb] at h
    cases h
    exact .inr (.inr ⟨_, rfl, hleft, .inl hb⟩)
  | some b =>
    rw [hb] at h
    dsimp only at h
    cases hconnect : c.connectBlock st l b with
    | ok out =>
      rw [hconnect] at h
      dsimp only at h
      split at h
      · cases h
        refine .inl ⟨_, rfl, ?_⟩
        cases l with
        | nil =>
          obtain ⟨_, -, hout⟩ := Except.bind_eq_ok.mp hconnect
          cases hout
        | cons p rest =>
          have hkeeps := connectBlock_keepsMarks hconnect
          exact hkeeps
      · next hwritten =>
        cases h
        exact .inr (.inr ⟨_, rfl, hleft, .inr ⟨b, hb, .inr ⟨Bool.not_eq_true _ ▸ hwritten, out, hconnect⟩⟩⟩)
    | error e =>
      rw [hconnect] at h
      cases e with
      | throw what => cases h
      | fail calls =>
        dsimp only at h
        by_cases hwrite : b.WriteFails c.node c.views (c.entry st l) c.cTxCache c.files false
        · obtain ⟨reason, habort⟩ := CBlock.connectBlock_of_writeFails hwrite
          have hcalls : calls = [.error reason] := by
            have heq := hconnect.symm.trans habort
            cases heq
            rfl
          subst hcalls
          have hstate : (state.apply (.error reason)).isInvalid = false := by
            rfl
          rw [List.foldl_cons, List.foldl_nil, hstate] at h
          cases h
          exact .inr (.inr ⟨_, rfl, hleft, .inr ⟨b, hb, .inl hwrite⟩⟩)
        · obtain ⟨hinvalid, hcorrupt⟩ := CBlock.records_iff.mpr (hrecords b hb) calls hconnect hwrite state hvalid
          rw [hinvalid, hcorrupt] at h
          cases h
          exact .inr (.inl rfl)

/-- A rejection ends as an invalid block. -/
theorem connectTip_rejected (hvalid : state.emMode = .valid) (hrecords : c.Records st l) {b : CBlock}
    {calls : List StateCall} (hb : c.cBlock = some b) (hfail : c.connectBlock st l b = .error (.fail calls))
    (hwrite : ¬ b.WriteFails c.node c.views (c.entry st l) c.cTxCache c.files false) :
    c.connectTip state st l = some (.invalid false) := by
  obtain ⟨hinvalid, hcorrupt⟩ := CBlock.records_iff.mpr (hrecords b hb) calls hfail hwrite state hvalid
  unfold connectTip
  rw [hb]
  dsimp only
  rw [hfail]
  dsimp only
  rw [hinvalid, hcorrupt]
  rfl

end TipRead

/-! ## ActivateBestChain -/

/-- How a turn of the outer loop ends. -/
inductive TurnEnd where
  /-- `return true` -/
  | complete
  /-- a block is invalid; the loop goes on -/
  | invalid
  /-- `DisconnectTip` fails: `return false` -/
  | disconnectFailed
  /-- `ConnectTip` fails on a block that is not known to be invalid: `return false` -/
  | connectFailed (pindexConnect : PBlockIndex)
  | exception
deriving DecidableEq

/-- What the calls of a turn find. -/
structure TurnReads where
  /-- `DisconnectTip` -/
  disconnects : PBlockIndex → Bool
  tip : PBlockIndex → TipRead

/-- The inner loop that connects the most-work chain; `none` when its turns are used up. -/
def connectNew (tip : PBlockIndex → TipRead) (cValidationState : CValidationState) :
    ℕ → ChainState → Option (ChainState × TurnEnd)
  | 0, _ => none
  | turns + 1, st =>
    if contains st.chainActive st.chainMostWork then some (st, .complete)
    else
      let pindexConnect := chainTo st.chainMostWork st.chainActive.length
      match (tip pindexConnect).connectTip cValidationState st pindexConnect with
      | none => some (st, .exception)
      | some (.connected unStatus) =>
        connectNew tip cValidationState turns (st.connectTip pindexConnect (.connected unStatus))
      | some (.invalid bCorruptionPossible) =>
        some (st.connectTip pindexConnect (.invalid bCorruptionPossible), .invalid)
      | some (.failed unStatus) =>
        some (st.connectTip pindexConnect (.failed unStatus), .connectFailed pindexConnect)

section
variable (addr : Uint256 ↪ ℕ)

/-- One turn of the outer loop. -/
def activateTurn (reads : TurnReads) (cValidationState : CValidationState) (st : ChainState) :
    Option (ChainState × TurnEnd) :=
  match st.findMostWorkChain addr (st.setBlockIndexValid.length + 1) with
  | none => none
  | some st =>
    if st.chainMostWork = [] then some (st, .complete)
    else
      match disconnectDown reads.disconnects st st.chainActive with
      | (st, false) => some (st, .disconnectFailed)
      | (st, true) => connectNew reads.tip cValidationState (st.chainMostWork.length + 1) st

/-- `ActivateBestChain`; the state is a new one in every further turn. -/
def activateBestChain : ℕ → (ℕ → TurnReads) → CValidationState → ChainState → Option (ChainState × TurnEnd)
  | 0, _, _, _ => none
  | fuel + 1, reads, cValidationState, st =>
    match activateTurn addr (reads 0) cValidationState st with
    | some (st, .invalid) => activateBestChain fuel (fun turn => reads (turn + 1)) .init st
    | r => r

end

/-! ## The loops of a turn -/

section
variable {st st' : ChainState} {l : PBlockIndex}

/-- The blocks of the most-work chain above the active one have no mark. -/
def AboveUnmarked (st : ChainState) : Prop :=
  ∀ t, t <:+ st.chainMostWork → st.chainActive.length < t.length → st.failed t = false

/-- How a run of connections ends. -/
structure TurnEnds (tip : PBlockIndex → TipRead) (st st' : ChainState) (e : TurnEnd) : Prop where
  listed : st'.Listed
  keeps : KeepsFailures st st'
  length : st'.setBlockIndexValid.length ≤ st.setBlockIndexValid.length
  ends : match e with
    | .complete => st'.setBlockIndexValid = st.setBlockIndexValid ∧ st'.chainActive = st.chainMostWork
    | .invalid => st.AboveUnmarked → st'.setBlockIndexValid.length < st.setBlockIndexValid.length
    | .connectFailed l => ∃ mid, (tip l).DiskFails mid l
    | .disconnectFailed => False
    | .exception => True

theorem connectNew_spec {tip : PBlockIndex → TipRead} {state : CValidationState}
    (hvalid : state.emMode = .valid) (hrecords : ∀ l st, (tip l).Records st l) (turns : ℕ) (h : st.Listed)
    (hmost : st.chainMostWork ≠ []) (hpart : st.chainActive <:+ st.chainMostWork)
    (hturns : st.chainMostWork.length < turns + st.chainActive.length) :
    ∃ st' e, connectNew tip state turns st = some (st', e) ∧ TurnEnds tip st st' e := by
  induction turns generalizing st with
  | zero =>
    have hle := hpart.length_le
    omega
  | succ turns ih =>
    rw [connectNew]
    by_cases hdone : contains st.chainActive st.chainMostWork = true
    · rw [if_pos hdone]
      have hsame : st.chainActive = st.chainMostWork :=
        hpart.eq_of_length (le_antisymm hpart.length_le (contains_iff.mp hdone).2.length_le)
      exact ⟨st, .complete, rfl, h, KeepsFailures.refl st, le_refl _, rfl, hsame⟩
    · rw [if_neg hdone]
      have hne : st.chainActive ≠ st.chainMostWork := by
        intro heq
        rw [heq] at hdone
        exact hdone (contains_iff.mpr ⟨hmost, List.suffix_refl _⟩)
      obtain ⟨hlne, hlsuffix, hllength, hltail⟩ := chainTo_spec hpart hne
      have hlEntry := (h.mostEntry hmost).of_suffix h.sound hlne hlsuffix
      dsimp only
      generalize chainTo st.chainMostWork st.chainActive.length = l at hlne hlsuffix hllength hltail hlEntry ⊢
      cases hresult : (tip l).connectTip state st l with
      | none =>
        exact ⟨st, .exception, rfl, h, KeepsFailures.refl st, le_refl _, trivial⟩
      | some r =>
        rcases TipRead.connectTip_cases hvalid (hrecords l st) hresult with
          ⟨s, rfl, hkeeps⟩ | rfl | ⟨s, rfl, hkeeps, hdisk⟩
        · obtain ⟨hlisted, hsame⟩ := h.connected hlEntry hkeeps
          obtain ⟨st', e, hrun, hends⟩ := ih hlisted hmost hlsuffix (by
            show st.chainMostWork.length < turns + l.length
            omega)
          have hfirst : KeepsFailures st (st.connectTip l (.connected s)) :=
            keepsFailures_of_failed (fun _ hm => hm) hsame
          refine ⟨st', e, hrun, hends.listed, hfirst.trans hends.keeps, hends.length, ?_⟩
          cases e with
          | invalid =>
            intro habove
            refine hends.ends fun t ht hlong => ?_
            rw [hsame]
            refine habove t ht ?_
            have hlong' : l.length < t.length := hlong
            omega
          | _ => exact hends.ends
        · have hdropped := h.dropped hlEntry
          refine ⟨_, .invalid, rfl, hdropped.listed, hdropped.keeps, hdropped.length, fun habove => ?_⟩
          exact hdropped.shorter (habove l hlsuffix (by omega))
        · obtain ⟨hlisted, hsame⟩ := h.keepsMarks hkeeps
          exact ⟨_, .connectFailed l, rfl, hlisted, keepsFailures_of_failed (fun _ hm => hm) hsame,
            le_refl _, st, hdisk⟩

/-! ## Turns -/

variable {addr : Uint256 ↪ ℕ}

/-- How one turn of the outer loop ends. -/
structure TurnSpec (addr : Uint256 ↪ ℕ) (reads : TurnReads) (st st' : ChainState) (e : TurnEnd) : Prop where
  listed : st'.Listed
  keeps : KeepsFailures st st'
  ends : match e with
    | .complete => ∀ l ∈ st'.setBlockIndexValid, workKey addr l ≤ workKey addr st'.chainActive
    | .invalid => st'.setBlockIndexValid.length < st.setBlockIndexValid.length
    | .connectFailed l => ∃ mid, (reads.tip l).DiskFails mid l
    | .disconnectFailed => ∃ l, reads.disconnects l = false
    | .exception => True

variable (addr) in
/-- A turn that goes on takes a candidate out of the set, in the search or because of the invalid block. -/
theorem activateTurn_spec {reads : TurnReads} {state : CValidationState} (hvalid : state.emMode = .valid)
    (hrecords : ∀ l st, (reads.tip l).Records st l) (h : st.Listed) :
    ∃ st' e, activateTurn addr reads state st = some (st', e) ∧ TurnSpec addr reads st st' e := by
  obtain ⟨found, hrun, hchosen⟩ := h.findMostWorkChain addr
  rw [activateTurn, hrun _ (Nat.lt_succ_self _)]
  dsimp only
  by_cases hmost : found.chainMostWork = []
  · rw [if_pos hmost]
    refine ⟨found, .complete, rfl, hchosen.listed, hchosen.keeps, fun l hl => ?_⟩
    exact absurd hmost (hchosen.best l hl).1
  · rw [if_neg hmost]
    obtain ⟨s, hs, hst, hdone, hstop, hcommon⟩ := disconnectDown_spec found reads.disconnects
      found.chainActive
    have hpartEntry : s ≠ [] → found.Entry s := by
      intro hne
      have hactive : found.chainActive ≠ [] := by
        intro hnil
        rw [hnil] at hs
        exact hne (List.suffix_nil.mp hs)
      exact (hchosen.listed.activeEntry hactive).of_suffix hchosen.listed.sound hne hs
    have hlisted := hchosen.listed.withActive hpartEntry
    have hkeeps : KeepsFailures st { found with chainActive := s } := hchosen.keeps
    rcases hdown : disconnectDown reads.disconnects found found.chainActive with ⟨down, ok⟩
    rw [hdown] at hst hdone hstop
    obtain rfl : down = { found with chainActive := s } := hst
    cases ok with
    | false => exact ⟨_, .disconnectFailed, rfl, hlisted, hkeeps, hstop rfl⟩
    | true =>
      dsimp only
      obtain ⟨st', e, hconnect, hends⟩ := connectNew_spec hvalid hrecords (found.chainMostWork.length + 1)
        hlisted hmost (hdone rfl) (by
          show found.chainMostWork.length < found.chainMostWork.length + 1 + s.length
          omega)
      refine ⟨st', e, hconnect, hends.listed, hkeeps.trans hends.keeps, ?_⟩
      have hresult := hends.ends
      cases e with
      | complete =>
        intro l hl
        rw [hresult.1] at hl
        rw [hresult.2]
        exact (hchosen.best l hl).2
      | invalid =>
        rcases hchosen.path with hshorter | hpath
        · exact lt_of_le_of_lt hends.length hshorter
        · refine lt_of_lt_of_le (hresult fun t ht hlong => ?_) hchosen.length
          have hlong' : s.length < t.length := hlong
          have htne : t ≠ [] := by
            rintro rfl
            exact Nat.not_lt_zero _ hlong'
          refine unmarked_of_firstMarked_eq_none (fun a b ha hb hab => ?_) hpath htne ht ?_
          · exact contains_iff.mpr ⟨hb, hab.trans (contains_iff.mp ha).2⟩
          · rw [← Bool.not_eq_true]
            intro hin
            have hle := hcommon t htne (contains_iff.mp hin).2 ht
            omega
      | connectFailed l => exact hresult
      | disconnectFailed => exact absurd hresult id
      | exception => trivial

/-- How `ActivateBestChain` ends. -/
structure Activated (addr : Uint256 ↪ ℕ) (reads : ℕ → TurnReads) (st st' : ChainState) (e : TurnEnd) :
    Prop where
  listed : st'.Listed
  keeps : KeepsFailures st st'
  ends : match e with
    /- no block without a mark is better than the tip -/
    | .complete => ∀ l, st'.Entry l → st'.failed l = false → workLess addr st'.chainActive l = false
    | .invalid => False
    | .connectFailed l => ∃ turn mid, ((reads turn).tip l).DiskFails mid l
    | .disconnectFailed => ∃ turn l, (reads turn).disconnects l = false
    | .exception => True

theorem Listed.activateBestChain (addr : Uint256 ↪ ℕ) {reads : ℕ → TurnReads} {state : CValidationState}
    (h : st.Listed) (hvalid : state.emMode = .valid)
    (hrecords : ∀ turn l st, ((reads turn).tip l).Records st l) :
    ∃ st' e, (∀ fuel, st.setBlockIndexValid.length < fuel →
      ChainState.activateBestChain addr fuel reads state st = some (st', e)) ∧
      Activated addr reads st st' e := by
  induction hn : st.setBlockIndexValid.length using Nat.strong_induction_on generalizing st reads state with
  | _ n ih =>
    obtain ⟨st₁, e₁, hturn, hspec⟩ := activateTurn_spec addr hvalid (hrecords 0) h
    have hends := hspec.ends
    have hstops : (e₁ ≠ .invalid) → ∀ fuel, n < fuel →
        ChainState.activateBestChain addr fuel reads state st = some (st₁, e₁) := by
      intro hne fuel hfuel
      obtain ⟨k, rfl⟩ : ∃ k, fuel = k + 1 := ⟨fuel - 1, by omega⟩
      rw [ChainState.activateBestChain, hturn]
      cases e₁ with
      | invalid => exact absurd rfl hne
      | _ => rfl
    cases e₁ with
    | invalid =>
      have hnext := @ih st₁.setBlockIndexValid.length (by omega) st₁ (fun turn => reads (turn + 1)) .init hspec.listed
        rfl (fun turn => hrecords (turn + 1)) rfl
      obtain ⟨st', e, hrun, hactivated⟩ := hnext
      refine ⟨st', e, fun fuel hfuel => ?_, hactivated.listed, hspec.keeps.trans hactivated.keeps, ?_⟩
      · obtain ⟨k, rfl⟩ : ∃ k, fuel = k + 1 := ⟨fuel - 1, by omega⟩
        rw [ChainState.activateBestChain, hturn]
        exact hrun k (by omega)
      · have hlater := hactivated.ends
        cases e with
        | connectFailed l =>
          obtain ⟨turn, mid, hdisk⟩ := hlater
          exact ⟨turn + 1, mid, hdisk⟩
        | disconnectFailed =>
          obtain ⟨turn, l, hdisk⟩ := hlater
          exact ⟨turn + 1, l, hdisk⟩
        | _ => exact hlater
    | complete =>
      refine ⟨st₁, .complete, hstops (by decide), hspec.listed, hspec.keeps, fun l hl hfail => ?_⟩
      rw [← Bool.not_eq_true, workLess_iff, not_lt]
      exact hends l (hspec.listed.listed l hl hfail)
    | disconnectFailed =>
      exact ⟨st₁, .disconnectFailed, hstops (by decide), hspec.listed, hspec.keeps, 0, hends⟩
    | connectFailed l =>
      refine ⟨st₁, .connectFailed l, hstops ?_, hspec.listed, hspec.keeps, 0, hends⟩
      intro heq
      cases heq
    | exception => exact ⟨st₁, .exception, hstops (by decide), hspec.listed, hspec.keeps, trivial⟩

end

/-! ## Whole runs -/

section
variable (cfg : SysCfg) (cr : Crypto) (addr : Uint256 ↪ ℕ) (start st : ChainState)

/-- Whatever came before, `ActivateBestChain` comes to an end, keeps the entries and their marks and stops
early for the disk or an exception only; when it is through, no block without a mark is better than the
tip. -/
theorem activates_best (loaded : start.Loaded) (run : Run cfg cr addr (Op.Lists addr) start st)
    (reads : ℕ → TurnReads) (hrecords : ∀ turn l st, ((reads turn).tip l).Records st l) :
    ∃ st' e, (∀ fuel, st.setBlockIndexValid.length < fuel →
        activateBestChain addr fuel reads .init st = some (st', e)) ∧
      (∀ l, st.Entry l → st'.Entry l ∧ (st.failed l = true → st'.failed l = true)) ∧
      match e with
      | .complete => ∀ l, st'.Entry l → st'.failed l = false → workLess addr st'.chainActive l = false
      | .invalid => False
      | .connectFailed l => ∃ turn mid, ((reads turn).tip l).DiskFails mid l
      | .disconnectFailed => ∃ turn l, (reads turn).disconnects l = false
      | .exception => True := by
  obtain ⟨hlisted, -⟩ := loaded.listed.run run
  have hinit : CValidationState.init.emMode = .valid := rfl
  obtain ⟨st', e, hrun, hactivated⟩ := hlisted.activateBestChain addr hinit hrecords
  exact ⟨st', e, hrun, hactivated.keeps, hactivated.ends⟩

/-- A block that `ConnectBlock` rejects is marked from then on, is no candidate, and is never again the tip
of the most-work chain. -/
theorem rejected_never_chosen (loaded : start.Loaded) (run : Run cfg cr addr (Op.Lists addr) start st)
    (c : TipRead) (l : PBlockIndex) (b : CBlock) (calls : List StateCall) (hl : st.Entry l)
    (hrecords : c.Records st l) (hb : c.cBlock = some b)
    (hfail : c.connectBlock st l b = .error (.fail calls))
    (hwrite : ¬ b.WriteFails c.node c.views (c.entry st l) c.cTxCache c.files false) :
    ∃ st₁, (c.connectTip .init st l).map (st.connectTip l) = some st₁ ∧
      ∀ st₂, Run cfg cr addr (Op.Lists addr) st₁ st₂ →
        st₂.failed l = true ∧ l ∉ st₂.setBlockIndexValid ∧
        ∃ st₃, (∀ fuel, st₂.setBlockIndexValid.length < fuel →
          st₂.findMostWorkChain addr fuel = some st₃) ∧ st₃.chainMostWork ≠ l := by
  obtain ⟨hlisted, -⟩ := loaded.listed.run run
  have hne : l ≠ [] := hl.ne_nil hlisted.sound
  have hdropped := hlisted.dropped hl
  refine ⟨st.connectTip l (.invalid false), ?_, fun st₂ later => ?_⟩
  · rw [TipRead.connectTip_rejected rfl hrecords hb hfail hwrite]
    rfl
  · obtain ⟨hlater, hkeeps⟩ := hdropped.listed.run later
    have hmark : st₂.failed l = true := (hkeeps l (hdropped.keeps l hl).1).2 hdropped.failed
    obtain ⟨st₃, hrun, hchosen⟩ := hlater.findMostWorkChain addr
    refine ⟨hmark, fun hin => ?_, st₃, hrun, hchosen.notMarked l hne hmark⟩
    rw [hlater.unmarked l hin] at hmark
    cases hmark

end

section
open Sample

/-- The block without its transactions. -/
def emptyBlock : CBlock := { firstBlock 0 1000000000 [] with vptx := [] }

/-- It is what the disk has. -/
def emptyRead : TipRead where
  node := chainNode []
  cBlock := some emptyBlock
  views := .empty
  cTxCache := .empty
  files := ∅
  nUndoPos := 0
  bWritten := true
  unStatusLeft s := s
  keeps s := KeepsMarks.refl s

theorem emptyBlock_rejected (st : ChainState) (l : PBlockIndex) :
    emptyRead.connectBlock st l emptyBlock
      = .error (.fail [.doS 100 rejectInvalid "bad-blk-length" false]) := by
  have hcheck : emptyBlock.checkBlock emptyRead.node Views.empty.view Views.empty.scriptDB true true
      = .error (.fail [.doS 100 rejectInvalid "bad-blk-length" false]) := rfl
  unfold TipRead.connectBlock CBlock.connectBlock
  rw [show emptyRead.views = Views.empty from rfl, Bool.not_false, hcheck]
  rfl

theorem emptyRead_records (st : ChainState) (l : PBlockIndex) : emptyRead.Records st l := by
  intro b hb
  cases hb
  refine CBlock.records_iff.mp fun calls hfail _ => ?_
  have heq := (emptyBlock_rejected st l).symm.trans hfail
  cases heq
  exact recorded_doS _ _ _

theorem emptyRead_not_writeFails (st : ChainState) (l : PBlockIndex) :
    ¬ emptyBlock.WriteFails emptyRead.node emptyRead.views (emptyRead.entry st l) emptyRead.cTxCache
      emptyRead.files false := by
  intro hwrite
  obtain ⟨reason, habort⟩ := CBlock.connectBlock_of_writeFails hwrite
  cases (emptyBlock_rejected st l).symm.trans habort

theorem firstKnown_lists : Run chainCfg crypto sampleAddr (Op.Lists sampleAddr) init firstKnown :=
  .step (onGenesis_run.imp fun _ _ h => h.lists) firstArrives ⟨trivial, trivial⟩ firstKnown_step

/-- The chain is activated with the new block rejected. -/
theorem firstKnown_activates : ∃ st' e, (∀ fuel, firstKnown.setBlockIndexValid.length < fuel →
      activateBestChain sampleAddr fuel (fun _ => ⟨fun _ => true, fun _ => emptyRead⟩) .init firstKnown
        = some (st', e)) ∧
    firstKnown.Entry genesisEntry ∧ st'.Entry genesisEntry ∧ e ≠ .invalid := by
  obtain ⟨st', e, hrun, hkeeps, hends⟩ := activates_best chainCfg crypto sampleAddr init firstKnown
    Loaded.init firstKnown_lists (fun _ => ⟨fun _ => true, fun _ => emptyRead⟩)
    (fun _ l st => emptyRead_records st l)
  have hentry := firstKnown_entries.2
  refine ⟨st', e, hrun, hentry, (hkeeps genesisEntry hentry).1, ?_⟩
  rintro rfl
  exact hends

/-- The new block is not chosen again. -/
theorem firstKnown_rejects : ∃ st₁, (emptyRead.connectTip .init firstKnown firstEntry).map
      (firstKnown.connectTip firstEntry) = some st₁ ∧
    ∀ st₂, Run chainCfg crypto sampleAddr (Op.Lists sampleAddr) st₁ st₂ →
      st₂.failed firstEntry = true ∧ firstEntry ∉ st₂.setBlockIndexValid ∧
      ∃ st₃, (∀ fuel, st₂.setBlockIndexValid.length < fuel →
        st₂.findMostWorkChain sampleAddr fuel = some st₃) ∧ st₃.chainMostWork ≠ firstEntry := by
  exact rejected_never_chosen chainCfg crypto sampleAddr init firstKnown Loaded.init firstKnown_lists
    emptyRead firstEntry emptyBlock _ firstKnown_entries.1 (emptyRead_records _ _) rfl
    (emptyBlock_rejected _ _) (emptyRead_not_writeFails _ _)

end

end ChainState

end Dacrs
