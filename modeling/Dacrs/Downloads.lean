import Dacrs.Env
import Dacrs.Lib.Calls
import Dacrs.Lib.Handles
import Dacrs.Lib.Outcome

/-!
# Block downloads

The blocks a node wants and the blocks it has asked for: two maps of list iterators, and for each peer two
lists and two counters.  An iterator is the handle of its element; erasing through an iterator whose
element is gone, and reading the state of a peer that has none, is an exception of the model.
`downloads_consistent` says what holds after every sequence of the five functions.
-/

namespace Dacrs

open Handles (Listed Indexed)

abbrev NodeId := ℤ

structure ST_QueuedBlock where
  cHash : Uint256
  llTime : ℤ
  nQueuedBefore : ℤ
deriving DecidableEq, Inhabited

/-- What the download functions use of `ST_NodeState`. -/
structure ST_NodeState where
  nMisbehavior : ℤ
  bShouldBan : Bool
  strName : String
  vBlocksInFlight : Listed ST_QueuedBlock
  nBlocksInFlight : ℤ
  vBlocksToDownload : Listed Uint256
  nBlocksToDownload : ℤ
  llLastBlockReceive : ℤ
deriving DecidableEq, Inhabited

/-- `ST_NodeState()`. -/
def ST_NodeState.null : ST_NodeState := ⟨0, false, "", [], 0, [], 0, 0⟩

/-- The globals, and the handle of the next list element. -/
structure Downloads where
  mapNodeState : Store NodeId ST_NodeState
  mapBlocksInFlight : Store Uint256 (NodeId × ℕ)
  mapBlocksToDownload : Store Uint256 (NodeId × ℕ)
  handle : ℕ

/-- The counters are the lengths of the lists. -/
structure ST_NodeState.Counted (st : ST_NodeState) : Prop where
  toDownload : st.nBlocksToDownload = st.vBlocksToDownload.length
  inFlight : st.nBlocksInFlight = st.vBlocksInFlight.length

namespace Downloads

def empty : Downloads := ⟨∅, ∅, ∅, 0⟩

/-- `State`, dereferenced. -/
def state (s : Downloads) (cNodeId : NodeId) : Exec ST_NodeState :=
  Exec.ofOption (s.mapNodeState.lookup cNodeId) (Exec.throw "null pointer")

def setState (s : Downloads) (cNodeId : NodeId) (st : ST_NodeState) : Downloads :=
  { s with mapNodeState := s.mapNodeState.put cNodeId (some st) }

/-- `list::erase`. -/
def listErase {α : Type} (l : Listed α) (it : ℕ) : Exec (Listed α) :=
  if it ∈ l.map Prod.fst then .ok (Handles.erase l it) else Exec.throw "dangling iterator"

def initializeNode (s : Downloads) (cNodeId : NodeId) (strAddrName : String) : Downloads :=
  s.setState cNodeId { (s.mapNodeState.lookup cNodeId).getD .null with strName := strAddrName }

def finalizeNode (s : Downloads) (cNodeId : NodeId) : Exec Downloads := do
  let st ← s.state cNodeId
  return { s with
    mapBlocksInFlight :=
      st.vBlocksInFlight.foldl (fun m entry => m.put entry.2.cHash none) s.mapBlocksInFlight
    mapBlocksToDownload :=
      st.vBlocksToDownload.foldl (fun m hash => m.put hash.2 none) s.mapBlocksToDownload
    mapNodeState := s.mapNodeState.put cNodeId none }

/-- The first half of `MarkBlockAsReceived`. -/
def receiveToDownload (s : Downloads) (cHash : Uint256) : Exec Downloads :=
  match s.mapBlocksToDownload.lookup cHash with
  | none => .ok s
  | some (cNodeId, it) => do
    let st ← s.state cNodeId
    let vBlocksToDownload ← listErase st.vBlocksToDownload it
    let st := { st with
      vBlocksToDownload := vBlocksToDownload, nBlocksToDownload := st.nBlocksToDownload - 1 }
    return { s.setState cNodeId st with mapBlocksToDownload := s.mapBlocksToDownload.put cHash none }

/-- The second half of `MarkBlockAsReceived`. -/
def receiveInFlight (s : Downloads) (cHash : Uint256) (cNodeFrom : NodeId) (llNow : ℤ) : Exec Downloads :=
  match s.mapBlocksInFlight.lookup cHash with
  | none => .ok s
  | some (cNodeId, it) => do
    let st ← s.state cNodeId
    let vBlocksInFlight ← listErase st.vBlocksInFlight it
    let st := { st with
      vBlocksInFlight := vBlocksInFlight, nBlocksInFlight := st.nBlocksInFlight - 1
      llLastBlockReceive := if cNodeId = cNodeFrom then llNow else st.llLastBlockReceive }
    return { s.setState cNodeId st with mapBlocksInFlight := s.mapBlocksInFlight.put cHash none }

def markBlockAsReceived (s : Downloads) (cHash : Uint256) (cNodeFrom : NodeId) (llNow : ℤ) :
    Exec Downloads := do
  let s ← s.receiveToDownload cHash
  s.receiveInFlight cHash cNodeFrom llNow

/-- `Misbehaving`, on the state of a peer. -/
def misbehaving (banScore : ℤ) (st : ST_NodeState) (nHowMuch : ℤ) : ST_NodeState :=
  let nMisbehavior := st.nMisbehavior + nHowMuch
  { st with nMisbehavior := nMisbehavior, bShouldBan := if banScore ≤ nMisbehavior then true else st.bShouldBan }

/-- What `AddBlockToQueue` does to the state of the peer. -/
def queueBlock (banScore : ℤ) (st : ST_NodeState) (entry : ℕ × Uint256) : ST_NodeState :=
  let st := { st with
    vBlocksToDownload := st.vBlocksToDownload ++ [entry], nBlocksToDownload := st.nBlocksToDownload + 1 }
  if 5000 < st.nBlocksToDownload then misbehaving banScore st 10 else st

/-- `AddBlockToQueue`; `none` is `return false`. -/
def addBlockToQueue (banScore : ℤ) (s : Downloads) (cNodeId : NodeId) (cHash : Uint256) : Option Downloads :=
  if cHash ∈ s.mapBlocksToDownload ∨ cHash ∈ s.mapBlocksInFlight then none
  else match s.mapNodeState.lookup cNodeId with
    | none => none
    | some st =>
      some { s.setState cNodeId (queueBlock banScore st (s.handle, cHash)) with
        mapBlocksToDownload := s.mapBlocksToDownload.put cHash (some (cNodeId, s.handle))
        handle := s.handle + 1 }

def markBlockAsInFlight (s : Downloads) (cNodeId : NodeId) (cHash : Uint256) (llNow : ℤ) : Exec Downloads := do
  let _ ← s.state cNodeId
  let s ← s.markBlockAsReceived cHash (-1) llNow
  let st ← s.state cNodeId
  let tNewEntry : ST_QueuedBlock := ⟨cHash, llNow, st.nBlocksInFlight⟩
  let st := { st with
    llLastBlockReceive := if st.nBlocksInFlight = 0 then tNewEntry.llTime else st.llLastBlockReceive
    vBlocksInFlight := st.vBlocksInFlight ++ [(s.handle, tNewEntry)]
    nBlocksInFlight := st.nBlocksInFlight + 1 }
  return { s.setState cNodeId st with
    mapBlocksInFlight := s.mapBlocksInFlight.put cHash (some (cNodeId, s.handle))
    handle := s.handle + 1 }

end Downloads

inductive DownloadCall where
  | initializeNode (cNodeId : NodeId) (strAddrName : String)
  | finalizeNode (cNodeId : NodeId)
  | markBlockAsReceived (cHash : Uint256) (cNodeFrom : NodeId) (llNow : ℤ)
  | addBlockToQueue (cNodeId : NodeId) (cHash : Uint256)
  | markBlockAsInFlight (cNodeId : NodeId) (cHash : Uint256) (llNow : ℤ)

namespace DownloadCall

def run (banScore : ℤ) (s : Downloads) : DownloadCall → Exec Downloads
  | initializeNode p name => .ok (s.initializeNode p name)
  | finalizeNode p => s.finalizeNode p
  | markBlockAsReceived h p now => s.markBlockAsReceived h p now
  | addBlockToQueue p h => .ok ((s.addBlockToQueue banScore p h).getD s)
  | markBlockAsInFlight p h now => s.markBlockAsInFlight p h now

/-- The caller hands over a peer that has to have a state. -/
def Unknown (s : Downloads) : DownloadCall → Prop
  | finalizeNode p => s.mapNodeState.lookup p = none
  | markBlockAsInFlight p _ _ => s.mapNodeState.lookup p = none
  | _ => False

end DownloadCall

namespace Downloads

/-! ## What is kept -/

section

variable {α : Type} (f : ST_NodeState → Listed α)

/-- The list of a peer; a peer without a state has none. -/
def listOf (m : Store NodeId ST_NodeState) (p : NodeId) : Listed α := ((m.lookup p).map f).getD []

variable {f} {m : Store NodeId ST_NodeState} {p : NodeId} {st : ST_NodeState}

theorem listOf_of_lookup (f : ST_NodeState → Listed α) (h : m.lookup p = some st) : listOf f m p = f st := by
  unfold listOf
  rw [h]
  rfl

theorem listOf_put : listOf f (m.put p (some st)) p = f st :=
  listOf_of_lookup f (Store.lookup_put_self _ _ _)

theorem listOf_put_none : listOf f (m.put p none) p = [] := by
  unfold listOf
  rw [Store.lookup_put_self]
  rfl

theorem listOf_put_ne (o : Option ST_NodeState) (q : NodeId) (h : q ≠ p) :
    listOf f (m.put p o) q = listOf f m q := by
  unfold listOf
  rw [Store.lookup_put_ne _ _ h]

theorem listOf_eq_getD (f : ST_NodeState → Listed α) (h : f .null = []) : listOf f m p = f ((m.lookup p).getD .null) := by
  unfold listOf
  cases m.lookup p with
  | none => exact h.symm
  | some st => rfl

/-- A state whose list is the same changes no list. -/
theorem listOf_put_same (h : f st = listOf f m p) : listOf f (m.put p (some st)) = listOf f m := by
  funext q
  by_cases hq : q = p
  · subst hq
    rw [listOf_put, h]
  · exact listOf_put_ne _ q hq

/-- What is not a peer's list may change in its state. -/
theorem indexed_put_same {key : α → Uint256} {index : Store Uint256 (NodeId × ℕ)} {n : ℕ}
    (h : Indexed key index (listOf f m) n) (hst : f st = listOf f m p) :
    Indexed key index (listOf f (m.put p (some st))) n := by
  rwa [listOf_put_same hst]

end

/-- No hash is in both maps, each map entry points to one element of the list of the peer it names, each
list element has its map entry, and the counters of a peer are the lengths of its lists. -/
structure Consistent (s : Downloads) : Prop where
  toDownload : Indexed id s.mapBlocksToDownload (listOf ST_NodeState.vBlocksToDownload s.mapNodeState) s.handle
  inFlight : Indexed ST_QueuedBlock.cHash s.mapBlocksInFlight
    (listOf ST_NodeState.vBlocksInFlight s.mapNodeState) s.handle
  apart : ∀ h, s.mapBlocksToDownload.lookup h = none ∨ s.mapBlocksInFlight.lookup h = none
  counted : ∀ p st, s.mapNodeState.lookup p = some st → st.Counted

theorem consistent_empty : Consistent empty where
  toDownload := Handles.indexed_empty
  inFlight := Handles.indexed_empty
  apart _ := .inl (Finmap.lookup_empty _)
  counted _ _ h := Store.of_lookup_empty h

variable {s : Downloads}

/-- One peer gets a state whose counters are right. -/
theorem counted_put (hs : ∀ p st, s.mapNodeState.lookup p = some st → st.Counted) {p : NodeId}
    {st : ST_NodeState} (hst : st.Counted) (q : NodeId) (sq : ST_NodeState)
    (hq : (s.mapNodeState.put p (some st)).lookup q = some sq) : sq.Counted := by
  rw [Store.lookup_put] at hq
  split at hq
  · obtain rfl := Option.some.inj hq
    exact hst
  · exact hs q sq hq

theorem counted_null : ST_NodeState.null.Counted := ⟨rfl, rfl⟩

theorem initializeNode_consistent (hs : s.Consistent) (p : NodeId) (name : String) :
    (s.initializeNode p name).Consistent := by
  have hst : ((s.mapNodeState.lookup p).getD .null).Counted := by
    cases hp : s.mapNodeState.lookup p with
    | none => exact counted_null
    | some st => exact hs.counted p st hp
  constructor
  · exact indexed_put_same hs.toDownload (listOf_eq_getD ST_NodeState.vBlocksToDownload rfl).symm
  · exact indexed_put_same hs.inFlight (listOf_eq_getD ST_NodeState.vBlocksInFlight rfl).symm
  · exact hs.apart
  · exact counted_put hs.counted ⟨hst.toDownload, hst.inFlight⟩

theorem lookup_foldl_put_none {α : Type} (key : α → Uint256) (l : Listed α)
    (m : Store Uint256 (NodeId × ℕ)) (h : Uint256) (hm : m.lookup h = none) :
    (l.foldl (fun m e => m.put (key e.2) none) m).lookup h = none := by
  rw [Handles.lookup_foldl_put_none, hm, ite_self]

theorem finalizeNode_consistent (hs : s.Consistent) {p : NodeId} {st : ST_NodeState}
    (hp : s.mapNodeState.lookup p = some st) :
    ∃ t, s.finalizeNode p = .ok t ∧ t.Consistent := by
  refine ⟨_, by rw [finalizeNode, state, hp]; rfl, ?_⟩
  constructor
  · have hlist := listOf_of_lookup ST_NodeState.vBlocksToDownload hp
    have hdrop := hs.toDownload.drop (p := p) listOf_put_none (listOf_put_ne none)
    rwa [hlist] at hdrop
  · have hlist := listOf_of_lookup ST_NodeState.vBlocksInFlight hp
    have hdrop := hs.inFlight.drop (p := p) listOf_put_none (listOf_put_ne none)
    rwa [hlist] at hdrop
  · intro h
    cases hs.apart h with
    | inl hnone => exact .inl (lookup_foldl_put_none id _ _ h hnone)
    | inr hnone => exact .inr (lookup_foldl_put_none ST_QueuedBlock.cHash _ _ h hnone)
  · intro q sq hq
    have hq' : (s.mapNodeState.put p none).lookup q = some sq := hq
    rw [Store.lookup_put] at hq'
    split at hq'
    · cases hq'
    · exact hs.counted q sq hq'

/-- What the index points to has a peer with a state, and can be erased from its list. -/
theorem indexed_reads {α : Type} {key : α → Uint256} {f : ST_NodeState → Listed α}
    {m : Store NodeId ST_NodeState} {index : Store Uint256 (NodeId × ℕ)} {n : ℕ}
    (h : Indexed key index (listOf f m) n) {k : Uint256} {p : NodeId} {c : ℕ}
    (hk : index.lookup k = some (p, c)) :
    ∃ st, m.lookup p = some st ∧ listErase (f st) c = .ok (Handles.erase (f st) c) ∧
      (Handles.erase (f st) c).length + 1 = (f st).length := by
  obtain ⟨a, ha, -⟩ := h.points hk
  cases hp : m.lookup p with
  | none =>
    unfold listOf at ha
    rw [hp] at ha
    cases ha
  | some st =>
    rw [listOf_of_lookup _ hp] at ha
    refine ⟨st, rfl, ?_, Handles.length_erase ha⟩
    unfold listErase
    rw [if_pos (List.mem_map.mpr ⟨(c, a), ha, rfl⟩)]

/-- The first half takes the hash off the queue. -/
theorem receiveToDownload_consistent (hs : s.Consistent) (h : Uint256) :
    ∃ t, s.receiveToDownload h = .ok t ∧ t.Consistent ∧ t.mapBlocksToDownload.lookup h = none ∧
      ∀ p, (t.mapNodeState.lookup p).isSome = (s.mapNodeState.lookup p).isSome := by
  unfold receiveToDownload
  cases hk : s.mapBlocksToDownload.lookup h with
  | none => exact ⟨s, rfl, hs, hk, fun _ => rfl⟩
  | some e =>
    obtain ⟨p, c⟩ := e
    obtain ⟨st, hp, herase, hlen⟩ := indexed_reads hs.toDownload hk
    have hcounted := hs.counted p st hp
    have hq := hcounted.toDownload
    refine ⟨_, by simp only [state, hp, herase, Exec.ofOption, Except.ok_bind]; rfl, ?_, ?_, ?_⟩
    · constructor
      · exact hs.toDownload.erase hk (by rw [listOf_of_lookup _ hp]; exact listOf_put) (listOf_put_ne _)
      · exact indexed_put_same hs.inFlight (listOf_of_lookup ST_NodeState.vBlocksInFlight hp).symm
      · intro j
        cases hs.apart j with
        | inl hnone =>
          left
          show (s.mapBlocksToDownload.put h none).lookup j = none
          rw [Store.lookup_put, hnone, ite_self]
        | inr hnone => exact .inr hnone
      · apply counted_put hs.counted
        refine ⟨?_, hcounted.inFlight⟩
        show st.nBlocksToDownload - 1 = ((Handles.erase st.vBlocksToDownload c).length : ℤ)
        omega
    · exact Store.lookup_put_self _ _ _
    · intro q
      show ((s.mapNodeState.put p _).lookup q).isSome = _
      rw [Store.lookup_put]
      split
      · next hq => rw [hq, hp]; rfl
      · rfl

/-- The second half takes it from the blocks in flight. -/
theorem receiveInFlight_consistent (hs : s.Consistent) (h : Uint256) (cNodeFrom : NodeId) (llNow : ℤ) :
    ∃ t, s.receiveInFlight h cNodeFrom llNow = .ok t ∧ t.Consistent ∧
      t.mapBlocksInFlight.lookup h = none ∧ t.mapBlocksToDownload = s.mapBlocksToDownload ∧
      ∀ p, (t.mapNodeState.lookup p).isSome = (s.mapNodeState.lookup p).isSome := by
  unfold receiveInFlight
  cases hk : s.mapBlocksInFlight.lookup h with
  | none => exact ⟨s, rfl, hs, hk, rfl, fun _ => rfl⟩
  | some e =>
    obtain ⟨p, c⟩ := e
    obtain ⟨st, hp, herase, hlen⟩ := indexed_reads hs.inFlight hk
    have hcounted := hs.counted p st hp
    have hq := hcounted.inFlight
    refine ⟨_, by simp only [state, hp, herase, Exec.ofOption, Except.ok_bind]; rfl, ?_, ?_, ?_, ?_⟩
    · constructor
      · exact indexed_put_same hs.toDownload (listOf_of_lookup ST_NodeState.vBlocksToDownload hp).symm
      · exact hs.inFlight.erase hk (by rw [listOf_of_lookup _ hp]; exact listOf_put) (listOf_put_ne _)
      · intro j
        cases hs.apart j with
        | inl hnone => exact .inl hnone
        | inr hnone =>
          right
          show (s.mapBlocksInFlight.put h none).lookup j = none
          rw [Store.lookup_put, hnone, ite_self]
      · apply counted_put hs.counted
        refine ⟨hcounted.toDownload, ?_⟩
        show st.nBlocksInFlight - 1 = ((Handles.erase st.vBlocksInFlight c).length : ℤ)
        omega
    · exact Store.lookup_put_self _ _ _
    · rfl
    · intro q
      show ((s.mapNodeState.put p _).lookup q).isSome = _
      rw [Store.lookup_put]
      split
      · next hq => rw [hq, hp]; rfl
      · rfl

theorem markBlockAsReceived_consistent (hs : s.Consistent) (h : Uint256) (cNodeFrom : NodeId) (llNow : ℤ) :
    ∃ t, s.markBlockAsReceived h cNodeFrom llNow = .ok t ∧ t.Consistent ∧
      t.mapBlocksToDownload.lookup h = none ∧ t.mapBlocksInFlight.lookup h = none ∧
      ∀ p, (t.mapNodeState.lookup p).isSome = (s.mapNodeState.lookup p).isSome := by
  obtain ⟨t, ht, htc, hqueue, hknown⟩ := receiveToDownload_consistent hs h
  obtain ⟨u, hu, huc, hflight, hsame, hknown'⟩ := receiveInFlight_consistent htc h cNodeFrom llNow
  refine ⟨u, ?_, huc, hsame ▸ hqueue, hflight, fun p => (hknown' p).trans (hknown p)⟩
  rw [markBlockAsReceived, ht]
  exact hu

section

variable (banScore : ℤ) (st : ST_NodeState) (entry : ℕ × Uint256)

theorem queueBlock_vBlocksToDownload :
    (queueBlock banScore st entry).vBlocksToDownload = st.vBlocksToDownload ++ [entry] := by
  unfold queueBlock
  dsimp only
  split
  · rfl
  · rfl

theorem queueBlock_vBlocksInFlight : (queueBlock banScore st entry).vBlocksInFlight = st.vBlocksInFlight := by
  unfold queueBlock
  dsimp only
  split
  · rfl
  · rfl

theorem queueBlock_counted (h : st.Counted) : (queueBlock banScore st entry).Counted := by
  have hmore : ({ st with
      vBlocksToDownload := st.vBlocksToDownload ++ [entry]
      nBlocksToDownload := st.nBlocksToDownload + 1 } : ST_NodeState).Counted := by
    have hqueue := h.toDownload
    refine ⟨?_, h.inFlight⟩
    dsimp only
    rw [List.length_append, List.length_singleton]
    omega
  unfold queueBlock
  dsimp only
  split
  · exact ⟨hmore.toDownload, hmore.inFlight⟩
  · exact hmore

end

/-- A hash that is in neither map gets one more entry. -/
theorem apart_put {m m' : Store Uint256 (NodeId × ℕ)} (h : ∀ j, m.lookup j = none ∨ m'.lookup j = none)
    {k : Uint256} (hk : m'.lookup k = none) (e : NodeId × ℕ) (j : Uint256) :
    (m.put k (some e)).lookup j = none ∨ m'.lookup j = none := by
  by_cases hj : j = k
  · exact .inr (hj ▸ hk)
  · rw [Store.lookup_put_ne _ _ hj]
    exact h j

theorem addBlockToQueue_consistent (hs : s.Consistent) (banScore : ℤ) (p : NodeId) (h : Uint256) :
    ((s.addBlockToQueue banScore p h).getD s).Consistent := by
  unfold addBlockToQueue
  split
  · exact hs
  · next hno =>
    split
    · exact hs
    · next st hp =>
      have hqueue : s.mapBlocksToDownload.lookup h = none :=
        Finmap.lookup_eq_none.mpr fun hmem => hno (.inl hmem)
      have hflight : s.mapBlocksInFlight.lookup h = none :=
        Finmap.lookup_eq_none.mpr fun hmem => hno (.inr hmem)
      constructor
      · refine hs.toDownload.push (p := p) hqueue ?_ (listOf_put_ne _)
        rw [listOf_of_lookup _ hp]
        exact listOf_put.trans (queueBlock_vBlocksToDownload banScore st _)
      · refine (indexed_put_same hs.inFlight ?_).mono (Nat.le_succ _)
        rw [listOf_of_lookup _ hp]
        exact queueBlock_vBlocksInFlight banScore st _
      · exact apart_put hs.apart hflight _
      · exact counted_put hs.counted (queueBlock_counted banScore st _ (hs.counted p st hp))

theorem markBlockAsInFlight_consistent (hs : s.Consistent) {p : NodeId} {st : ST_NodeState}
    (hp : s.mapNodeState.lookup p = some st) (h : Uint256) (llNow : ℤ) :
    ∃ t, s.markBlockAsInFlight p h llNow = .ok t ∧ t.Consistent := by
  obtain ⟨t, ht, htc, hqueue, hflight, hknown⟩ := markBlockAsReceived_consistent hs h (-1) llNow
  -- the peer still has its state when the hash has gone from both maps
  obtain ⟨st', hp'⟩ : ∃ st', t.mapNodeState.lookup p = some st' := by
    have hsome := hknown p
    rw [hp] at hsome
    exact Option.isSome_iff_exists.mp hsome
  have hcounted := htc.counted p st' hp'
  have hq := hcounted.inFlight
  refine ⟨_, by simp only [markBlockAsInFlight, state, hp, ht, hp', Exec.ofOption, Except.ok_bind]; rfl, ?_⟩
  constructor
  · refine (indexed_put_same htc.toDownload ?_).mono (Nat.le_succ _)
    exact (listOf_of_lookup ST_NodeState.vBlocksToDownload hp').symm
  · refine htc.inFlight.push (p := p) (a := ⟨h, llNow, st'.nBlocksInFlight⟩) hflight ?_ (listOf_put_ne _)
    rw [listOf_of_lookup _ hp']
    exact listOf_put
  · intro j
    exact (apart_put (fun j => (htc.apart j).symm) hqueue _ j).symm
  · apply counted_put htc.counted
    refine ⟨hcounted.toDownload, ?_⟩
    dsimp only
    rw [List.length_append, List.length_singleton]
    omega

end Downloads

/-- From a consistent state, a call goes through unless its peer has no state, and leaves a consistent
state. -/
theorem DownloadCall.run_consistent (banScore : ℤ) {s : Downloads} (hs : s.Consistent) (call : DownloadCall) :
    (call.Unknown s ∧ call.run banScore s = Exec.throw "null pointer") ∨
      (¬ call.Unknown s ∧ ∃ t, call.run banScore s = .ok t ∧ t.Consistent) := by
  cases call with
  | initializeNode p name => exact .inr ⟨id, _, rfl, Downloads.initializeNode_consistent hs p name⟩
  | finalizeNode p =>
    cases hp : s.mapNodeState.lookup p with
    | none => exact .inl ⟨hp, by simp only [run, Downloads.finalizeNode, Downloads.state, hp]; rfl⟩
    | some st =>
      refine .inr ⟨?_, Downloads.finalizeNode_consistent hs hp⟩
      intro hno
      rw [Unknown, hp] at hno
      cases hno
  | markBlockAsReceived h p now =>
    obtain ⟨t, ht, htc, -⟩ := Downloads.markBlockAsReceived_consistent hs h p now
    exact .inr ⟨id, t, ht, htc⟩
  | addBlockToQueue p h => exact .inr ⟨id, _, rfl, Downloads.addBlockToQueue_consistent hs banScore p h⟩
  | markBlockAsInFlight p h now =>
    cases hp : s.mapNodeState.lookup p with
    | none => exact .inl ⟨hp, by simp only [run, Downloads.markBlockAsInFlight, Downloads.state, hp]; rfl⟩
    | some st =>
      refine .inr ⟨?_, Downloads.markBlockAsInFlight_consistent hs hp h now⟩
      intro hno
      rw [Unknown, hp] at hno
      cases hno

/-- After every sequence of calls the maps, the lists and the counters agree, and the next call returns
unless it is for a peer that has to have a state and has none. -/
theorem downloads_consistent (banScore : ℤ) (s : Downloads)
    (h : Calls.Reached (fun s (call : DownloadCall) t => call.run banScore s = .ok t) .empty s) :
    s.Consistent ∧ ∀ call : DownloadCall, (∃ t, call.run banScore s = .ok t) ↔ ¬ call.Unknown s := by
  have hs : s.Consistent := by
    refine h.invariant Downloads.consistent_empty fun t call u ht _ hu => ?_
    obtain ⟨-, hthrow⟩ | ⟨-, v, hv, hvc⟩ := call.run_consistent banScore ht
    · rw [hthrow] at hu
      cases hu
    · rw [hv] at hu
      obtain rfl := Except.ok.inj hu
      exact hvc
  refine ⟨hs, fun call => ?_⟩
  obtain ⟨hno, hthrow⟩ | ⟨hyes, t, ht, -⟩ := call.run_consistent banScore hs
  · rw [hthrow]
    exact ⟨fun ⟨_, hu⟩ => (Exec.fails_throw _ _ hu).elim, fun hyes => absurd hno hyes⟩
  · exact ⟨fun _ => hyes, fun _ => ⟨t, ht⟩⟩

/-! ### One peer -/

namespace Sample

/-- A peer is known, a block is queued from it and asked for. -/
theorem downloads_consistent_inFlight :
    ∃ s : Downloads, s.mapBlocksToDownload.lookup 7 = none ∧ s.mapBlocksInFlight.lookup 7 = some (1, 1) ∧
      s.Consistent := by
  have hrun : Calls.Reached (fun s (call : DownloadCall) t => call.run 100 s = .ok t) Downloads.empty _ :=
    .call (i := .markBlockAsInFlight 1 7 20)
      (.call (i := .addBlockToQueue 1 7)
        (.call (i := .initializeNode 1 "peer") .start trivial rfl) trivial rfl) trivial rfl
  exact ⟨_, by decide +kernel, by decide +kernel, (downloads_consistent 100 _ hrun).1⟩

end Sample

end Dacrs
