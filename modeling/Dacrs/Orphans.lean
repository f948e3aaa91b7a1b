import Dacrs.Block
import Dacrs.Env
import Dacrs.Lib.Calls
import Dacrs.Lib.Handles
import Dacrs.Lib.Outcome
import Dacrs.Lib.Store
import Dacrs.Sample

/-!
# Orphan blocks

Blocks whose parent is not known yet are held in three containers: a map by hash, a multimap by parent and
a set ordered by height, in which a second block of one height has no place.  Pointers are addresses with
what was allocated there, which nothing writes to; reading through one that has been freed is an exception
of the model, and so is the last element of an empty set.  `orphans_consistent` follows the runs that hold
no two orphans of one height.
-/

namespace Dacrs

structure ST_OrphanBlock where
  cBlockHash : Uint256
  cPrevHash : Uint256
  nHeight : ℤ
  /-- what `vchBlock` is read back as -/
  block : CBlock
deriving DecidableEq

/-- `ST_OrphanBlock *`, with the object it points to as long as that is allocated. -/
structure OrphanPtr where
  addr : ℕ
  obj : ST_OrphanBlock
deriving DecidableEq

def maxOrphanBlocks : ℕ := 750

/-- `GetHeight` as the `int` it is stored in. -/
def CBlockHeader.intHeight (b : CBlockHeader) : ℤ := b.unHeight.toInt32.toInt

/-- What `ProcessBlock` asks of the rest of the node. -/
structure OrphanNode (ν : Type) where
  cr : Crypto
  /-- `g_mapBlockIndex.count` -/
  known : ν → Uint256 → Bool
  checkBlock : ν → CBlock → Bool
  acceptBlock : ν → CBlock → Bool × ν

structure Orphans where
  mapOrphanBlocks : Store Uint256 OrphanPtr
  /-- in the order of insertion, which is that of the values of one key -/
  mapOrphanBlocksByPrev : List (Uint256 × OrphanPtr)
  /-- in its order -/
  setOrphanBlock : List OrphanPtr
  /-- the addresses that are allocated, and the next one -/
  allocated : Finset ℕ
  next : ℕ
  nSyncTipHeight : UInt32
deriving DecidableEq

namespace Orphans

def empty : Orphans := ⟨∅, [], [], ∅, 0, 0⟩

/-! ## Pointers and the set -/

def deref (s : Orphans) (p : OrphanPtr) : Exec ST_OrphanBlock :=
  if p.addr ∈ s.allocated then .ok p.obj else Exec.throw "freed block"

/-- `delete`. -/
def free (s : Orphans) (p : OrphanPtr) : Orphans := { s with allocated := s.allocated.erase p.addr }

/-- What the comparator reads, taken to be all of the set and the key. -/
def compareAll (s : Orphans) (p : OrphanPtr) : Exec Unit :=
  (p :: s.setOrphanBlock).forM fun q => do
    let _ ← s.deref q
    return

/-- `g_setOrphanBlock.insert`: of one height there is one. -/
def setInsert (s : Orphans) (p : OrphanPtr) : Exec Orphans := do
  s.compareAll p
  if ∃ q ∈ s.setOrphanBlock, q.obj.nHeight = p.obj.nHeight then return s
  else return { s with
    setOrphanBlock := s.setOrphanBlock.takeWhile (fun q => q.obj.nHeight < p.obj.nHeight) ++
      p :: s.setOrphanBlock.dropWhile (fun q => q.obj.nHeight < p.obj.nHeight) }

/-- `g_setOrphanBlock.erase`, of whatever has this height. -/
def setErase (s : Orphans) (p : OrphanPtr) : Exec Orphans := do
  s.compareAll p
  return { s with setOrphanBlock := s.setOrphanBlock.filter fun q => q.obj.nHeight ≠ p.obj.nHeight }

/-- `*g_setOrphanBlock.rbegin()`. -/
def setLast (s : Orphans) : Exec OrphanPtr :=
  Exec.ofOption s.setOrphanBlock.getLast? (Exec.throw "rbegin of an empty set")

/-! ## PruneOrphanBlocks -/

/-- The first entry of the parent's range with this hash goes. -/
def eraseByPrev (s : Orphans) (cPrevHash cHash : Uint256) :
    List (Uint256 × OrphanPtr) → Exec (List (Uint256 × OrphanPtr))
  | [] => .ok []
  | (k, q) :: rest =>
    if k = cPrevHash then do
      let b ← s.deref q
      if b.cBlockHash = cHash then return rest
      else
        let rest ← s.eraseByPrev cPrevHash cHash rest
        return (k, q) :: rest
    else do
      let rest ← s.eraseByPrev cPrevHash cHash rest
      return (k, q) :: rest

/-- The orphan to prune goes from the three containers. -/
def dropOrphan (s : Orphans) (p : OrphanPtr) (b : ST_OrphanBlock) : Exec Orphans := do
  let s ← s.setErase p
  let byPrev ← s.eraseByPrev b.cPrevHash b.cBlockHash s.mapOrphanBlocksByPrev
  let s := { s with
    mapOrphanBlocksByPrev := byPrev, mapOrphanBlocks := s.mapOrphanBlocks.put b.cBlockHash none }
  return s.free p

/-- The loop that logs the set reads all of it. -/
def pruneOrphanBlocks (s : Orphans) (nHeight : ℤ) : Exec (Bool × Orphans) :=
  if s.mapOrphanBlocksByPrev.length ≤ maxOrphanBlocks then .ok (true, s)
  else do
    s.setOrphanBlock.forM fun q => do
      let _ ← s.deref q
      return
    let pOrphanBlock ← s.setLast
    let b ← s.deref pOrphanBlock
    if b.nHeight ≤ nHeight then return (false, s)
    else
      let s ← s.dropOrphan pOrphanBlock b
      return (true, s)

/-! ## ProcessBlock -/

section

variable {ν : Type} (node : OrphanNode ν)

/-- `new ST_OrphanBlock()`, and the three insertions. -/
def holdOrphan (s : Orphans) (cHash : Uint256) (pBlock : CBlock) : Exec Orphans :=
  let pBlock2 : OrphanPtr := ⟨s.next, cHash, pBlock.cHashPrevBlock, pBlock.intHeight, pBlock⟩
  let s := { s with
    allocated := insert s.next s.allocated
    next := s.next + 1
    mapOrphanBlocks := if cHash ∈ s.mapOrphanBlocks then s.mapOrphanBlocks
      else s.mapOrphanBlocks.put cHash (some pBlock2)
    mapOrphanBlocksByPrev := s.mapOrphanBlocksByPrev ++ [(pBlock.cHashPrevBlock, pBlock2)] }
  s.setInsert pBlock2

/-- `g_nSyncTipHeight` follows the highest block. -/
def raiseSyncTip (s : Orphans) (pBlock : CBlock) : Orphans :=
  if s.nSyncTipHeight < pBlock.unHeight then { s with nSyncTipHeight := pBlock.unHeight } else s

/-- A block without its parent; without a peer to ask for the parent it is dropped. -/
def shunt (s : Orphans) (pFromNode : Bool) (cHash : Uint256) (pBlock : CBlock) : Exec Orphans :=
  let s := s.raiseSyncTip pBlock
  if pFromNode then do
    let (room, s) ← s.pruneOrphanBlocks pBlock.intHeight
    if room then s.holdOrphan cHash pBlock else return s
  else .ok s

/-- One orphan of the parent's range: what `AcceptBlock` says of it, and what is left. -/
def acceptOrphan (env : ν) (s : Orphans) (p : OrphanPtr) : Exec (Bool × ν × Orphans) := do
  let b ← s.deref p
  let (accepted, env) := node.acceptBlock env b.block
  let s ← s.setErase p
  let s := { s with mapOrphanBlocks := s.mapOrphanBlocks.put b.cBlockHash none }
  return (accepted, env, s.free p)

/-- The parent's range. -/
def acceptRange (env : ν) (s : Orphans) : List OrphanPtr → Exec (List (OrphanPtr × Bool) × ν × Orphans)
  | [] => .ok ([], env, s)
  | p :: range => do
    let (accepted, env, s) ← acceptOrphan node env s p
    let (processed, env, s) ← acceptRange env s range
    return ((p, accepted) :: processed, env, s)

def rangeOf (s : Orphans) (cPrevHash : Uint256) : List OrphanPtr :=
  (s.mapOrphanBlocksByPrev.filter fun e => e.1 = cPrevHash).map Prod.snd

/-- `vcWorkQueue`, for so many of its elements; with what was processed, in order. -/
def workQueue : ℕ → List Uint256 → ν → Orphans → Exec (List (OrphanPtr × Bool) × ν × Orphans)
  | _, [], env, s => .ok ([], env, s)
  | 0, _ :: _, _, _ => Exec.throw "work queue"
  | n + 1, cPrevHash :: queue, env, s => do
    let (found, env, s) ← acceptRange node env s (s.rangeOf cPrevHash)
    let s := { s with
      mapOrphanBlocksByPrev := s.mapOrphanBlocksByPrev.filter fun e => e.1 ≠ cPrevHash }
    let accepted := (found.filter Prod.snd).map fun e => e.1.obj.cBlockHash
    let (processed, env, s) ← workQueue n (queue ++ accepted) env s
    return (found ++ processed, env, s)

/-- How `ProcessBlock` ends. -/
structure Outcome (ν : Type) where
  ok : Bool
  env : ν
  orphans : Orphans
  processed : List (OrphanPtr × Bool)
deriving DecidableEq

/-- A block with a known parent, and the orphans that depend on it. -/
def connectBlock (env : ν) (s : Orphans) (cHash : Uint256) (pBlock : CBlock) : Exec (Outcome ν) :=
  match node.acceptBlock env pBlock with
  | (false, env) => .ok ⟨false, env, s, []⟩
  | (true, env) => do
    -- every element takes its range off the multimap, so this many are enough
    let (processed, env, s) ← workQueue node (s.mapOrphanBlocksByPrev.length + 1) [cHash] env s
    return ⟨true, env, s, processed⟩

def processBlock (env : ν) (s : Orphans) (pFromNode : Bool) (pBlock : CBlock) : Exec (Outcome ν) :=
  let cHash := pBlock.getHash node.cr.Hash
  if node.known env cHash then .ok ⟨false, env, s, []⟩
  else if cHash ∈ s.mapOrphanBlocks then .ok ⟨false, env, s, []⟩
  else if !node.checkBlock env pBlock then .ok ⟨false, env, s, []⟩
  else if pBlock.cHashPrevBlock ≠ 0 ∧ node.known env pBlock.cHashPrevBlock = false then do
    let s ← s.shunt pFromNode cHash pBlock
    return ⟨true, env, s, []⟩
  else s.connectBlock node env cHash pBlock

end

/-! ## What the containers agree on -/

/-- The map, the set and the allocations hold these orphans, one of each hash and one of each height. -/
structure AgreeOn (O : OrphanPtr → Prop) (s : Orphans) : Prop where
  map : ∀ h p, s.mapOrphanBlocks.lookup h = some p ↔ O p ∧ p.obj.cBlockHash = h
  set : ∀ p, p ∈ s.setOrphanBlock ↔ O p
  sorted : s.setOrphanBlock.Pairwise fun p q => p.obj.nHeight < q.obj.nHeight
  allocated : ∀ a, a ∈ s.allocated ↔ ∃ p, O p ∧ p.addr = a
  addr : ∀ p q, O p → O q → p.addr = q.addr → p = q
  below : ∀ a ∈ s.allocated, a < s.next

/-- The three containers hold the same orphans, each once, and no others are allocated. -/
structure Agree (s : Orphans) : Prop where
  on : AgreeOn (fun p => p ∈ s.mapOrphanBlocksByPrev.map Prod.snd) s
  keyed : ∀ e ∈ s.mapOrphanBlocksByPrev, e.1 = e.2.obj.cPrevHash
  nodup : (s.mapOrphanBlocksByPrev.map Prod.snd).Nodup

theorem agree_empty : Agree empty where
  on :=
    { map := fun _ _ => ⟨Store.of_lookup_empty, fun h => absurd h.1 (by simp [empty])⟩
      set := fun _ => Iff.rfl
      sorted := List.Pairwise.nil
      allocated := fun _ => ⟨fun h => absurd h (by simp [empty]), fun ⟨_, h, _⟩ => absurd h (by simp [empty])⟩
      addr := fun _ _ h => absurd h (by simp [empty])
      below := fun _ h => absurd h (by simp [empty]) }
  keyed _ h := absurd h (by simp [empty])
  nodup := List.nodup_nil

section

variable {O : OrphanPtr → Prop} {s : Orphans} {p q : OrphanPtr}

theorem AgreeOn.hash (h : AgreeOn O s) (hp : O p) (hq : O q) (heq : p.obj.cBlockHash = q.obj.cBlockHash) :
    p = q := by
  have hlp := (h.map _ p).mpr ⟨hp, heq⟩
  have hlq := (h.map _ q).mpr ⟨hq, rfl⟩
  exact Option.some.inj (hlp.symm.trans hlq)

theorem AgreeOn.height (h : AgreeOn O s) (hp : O p) (hq : O q) (heq : p.obj.nHeight = q.obj.nHeight) :
    p = q := by
  have : Std.Symm fun p q : OrphanPtr => p.obj.nHeight ≠ q.obj.nHeight := ⟨fun _ _ hne => hne.symm⟩
  have hne : s.setOrphanBlock.Pairwise fun p q => p.obj.nHeight ≠ q.obj.nHeight := h.sorted.imp ne_of_lt
  by_contra hpq
  exact hne.forall ((h.set p).mpr hp) ((h.set q).mpr hq) hpq heq

theorem AgreeOn.deref (h : AgreeOn O s) (hp : O p) : s.deref p = .ok p.obj :=
  if_pos ((h.allocated _).mpr ⟨p, hp, rfl⟩)

theorem forM_deref_ok {l : List OrphanPtr} (h : ∀ q ∈ l, s.deref q = .ok q.obj) :
    (l.forM fun q => do
      let _ ← s.deref q
      return : Exec Unit) = .ok () := by
  apply Except.forM_eq_ok.mpr
  intro q hq
  rw [h q hq]
  rfl

theorem AgreeOn.setErase (h : AgreeOn O s) (hp : O p) : s.setErase p = .ok { s with
    setOrphanBlock := s.setOrphanBlock.filter fun q => q.obj.nHeight ≠ p.obj.nHeight } := by
  have hall : s.compareAll p = .ok () := by
    apply forM_deref_ok
    intro q hq
    rcases List.mem_cons.mp hq with rfl | hq
    · exact h.deref hp
    · exact h.deref ((h.set q).mp hq)
  rw [Orphans.setErase, hall]
  rfl

/-- The map, the set and the allocations without an orphan. -/
def removed (s : Orphans) (p : OrphanPtr) (byPrev : List (Uint256 × OrphanPtr)) : Orphans where
  mapOrphanBlocks := s.mapOrphanBlocks.put p.obj.cBlockHash none
  mapOrphanBlocksByPrev := byPrev
  setOrphanBlock := s.setOrphanBlock.filter fun q => q.obj.nHeight ≠ p.obj.nHeight
  allocated := s.allocated.erase p.addr
  next := s.next
  nSyncTipHeight := s.nSyncTipHeight

theorem AgreeOn.removed (h : AgreeOn O s) (hp : O p) (byPrev : List (Uint256 × OrphanPtr)) :
    AgreeOn (fun q => O q ∧ q ≠ p) (s.removed p byPrev) := by
  unfold Orphans.removed
  constructor
  · intro k q
    dsimp only
    rw [Store.lookup_put]
    by_cases hk : k = p.obj.cBlockHash
    · rw [if_pos hk]
      constructor
      · intro hnone
        cases hnone
      · rintro ⟨⟨hq, hne⟩, hqk⟩
        exact absurd (h.hash hq hp (hqk.trans hk)) hne
    · rw [if_neg hk, h.map]
      constructor
      · rintro ⟨hq, hqk⟩
        refine ⟨⟨hq, ?_⟩, hqk⟩
        rintro rfl
        exact hk hqk.symm
      · rintro ⟨⟨hq, -⟩, hqk⟩
        exact ⟨hq, hqk⟩
  · intro q
    dsimp only
    rw [List.mem_filter, h.set, decide_eq_true_eq]
    constructor
    · rintro ⟨hq, hne⟩
      refine ⟨hq, ?_⟩
      rintro rfl
      exact hne rfl
    · rintro ⟨hq, hne⟩
      exact ⟨hq, fun heq => hne (h.height hq hp heq)⟩
  · exact h.sorted.filter _
  · intro a
    dsimp only
    rw [Finset.mem_erase, h.allocated]
    constructor
    · rintro ⟨hne, q, hq, rfl⟩
      refine ⟨q, ⟨hq, ?_⟩, rfl⟩
      rintro rfl
      exact hne rfl
    · rintro ⟨q, ⟨hq, hne⟩, rfl⟩
      exact ⟨fun heq => hne (h.addr q p hq hp heq), q, hq, rfl⟩
  · exact fun q r hq hr heq => h.addr q r hq.1 hr.1 heq
  · exact fun a ha => h.below a (Finset.mem_of_mem_erase ha)

/-- What counts as the same orphans. -/
theorem AgreeOn.congr {O' : OrphanPtr → Prop} (h : AgreeOn O s) (hO : ∀ p, O p ↔ O' p) : AgreeOn O' s := by
  obtain rfl : O = O' := funext fun p => propext (hO p)
  exact h

/-! ### The work queue -/

variable {ν : Type} (node : OrphanNode ν)

theorem AgreeOn.acceptOrphan (h : AgreeOn O s) (hp : O p) (env : ν) :
    ∃ accepted env' t, acceptOrphan node env s p = .ok (accepted, env', t) ∧
      AgreeOn (fun q => O q ∧ q ≠ p) t ∧ t.mapOrphanBlocksByPrev = s.mapOrphanBlocksByPrev ∧
      t.next = s.next := by
  refine ⟨(node.acceptBlock env p.obj.block).1, (node.acceptBlock env p.obj.block).2, _, ?_,
    h.removed hp s.mapOrphanBlocksByPrev, rfl, rfl⟩
  rw [Orphans.acceptOrphan, h.deref hp, Except.ok_bind, h.setErase hp]
  rfl

/-- The orphans of a range are processed one after the other. -/
theorem AgreeOn.acceptRange {range : List OrphanPtr} (h : AgreeOn O s) (hin : ∀ p ∈ range, O p)
    (hnodup : range.Nodup) (env : ν) :
    ∃ found env' t, acceptRange node env s range = .ok (found, env', t) ∧
      AgreeOn (fun q => O q ∧ q ∉ range) t ∧ t.mapOrphanBlocksByPrev = s.mapOrphanBlocksByPrev ∧
      t.next = s.next ∧ found.map Prod.fst = range := by
  induction range generalizing O s env with
  | nil => exact ⟨[], env, s, rfl, h.congr (by simp), rfl, rfl, rfl⟩
  | cons p range ih =>
    obtain ⟨accepted, env₁, t₁, hrun₁, hagree₁, hprev₁, hnext₁⟩ :=
      h.acceptOrphan node (hin p List.mem_cons_self) env
    obtain ⟨hnotin, hnodup'⟩ := List.nodup_cons.mp hnodup
    have hin' : ∀ q ∈ range, O q ∧ q ≠ p := by
      intro q hq
      refine ⟨hin q (List.mem_cons_of_mem p hq), ?_⟩
      rintro rfl
      exact hnotin hq
    obtain ⟨found, env₂, t₂, hrun₂, hagree₂, hprev₂, hnext₂, hfound⟩ := ih hagree₁ hin' hnodup' env₁
    refine ⟨(p, accepted) :: found, env₂, t₂, ?_, ?_, hprev₂.trans hprev₁, hnext₂.trans hnext₁, ?_⟩
    · rw [Orphans.acceptRange, hrun₁, Except.ok_bind]
      dsimp only
      rw [hrun₂]
      rfl
    · apply hagree₂.congr
      intro q
      rw [List.mem_cons, not_or, and_assoc]
    · rw [List.map_cons, hfound]

/-- What hangs on the queue by blocks that were accepted. -/
inductive Connects (O : OrphanPtr → Prop) (queue : List Uint256) (accepted : OrphanPtr → Prop) :
    OrphanPtr → Prop
  | queued {p : OrphanPtr} (hp : O p) (hprev : p.obj.cPrevHash ∈ queue) : Connects O queue accepted p
  | next {p q : OrphanPtr} (hq : Connects O queue accepted q) (ha : accepted q) (hp : O p)
      (hprev : p.obj.cPrevHash = q.obj.cBlockHash) : Connects O queue accepted p

/-- What was accepted of what was processed. -/
def Accepted (processed : List (OrphanPtr × Bool)) (p : OrphanPtr) : Prop := (p, true) ∈ processed

/-- What hangs on the queue, and nothing else, was processed, once, and is held no more. -/
structure ProcessedOnce (O : OrphanPtr → Prop) (queue : List Uint256) (processed : List (OrphanPtr × Bool))
    (t : Orphans) : Prop where
  once : (processed.map Prod.fst).Nodup
  connects : ∀ p, p ∈ processed.map Prod.fst ↔ Connects O queue (Accepted processed) p
  left : ∀ p, p ∈ t.mapOrphanBlocksByPrev.map Prod.snd ↔ O p ∧ p ∉ processed.map Prod.fst

theorem Connects.mono {O O' : OrphanPtr → Prop} {queue queue' : List Uint256} {accepted accepted' : OrphanPtr → Prop}
    (hO : ∀ p, O p → O' p) (hqueue : ∀ p, O p → p.obj.cPrevHash ∈ queue → Connects O' queue' accepted' p)
    (ha : ∀ p, accepted p → accepted' p) {p : OrphanPtr} (h : Connects O queue accepted p) :
    Connects O' queue' accepted' p := by
  induction h with
  | queued hp hprev => exact hqueue _ hp hprev
  | next _ hacc hp hprev ih => exact .next ih (ha _ hacc) (hO _ hp) hprev

theorem not_connects_nil {O : OrphanPtr → Prop} {accepted : OrphanPtr → Prop} {p : OrphanPtr} :
    ¬ Connects O [] accepted p := by
  intro h
  induction h with
  | queued _ hprev => cases hprev
  | next _ _ _ _ ih => exact ih

/-- The orphans of a range, and what follows from them, are what hangs on the queue. -/
theorem ProcessedOnce.cons {found processed : List (OrphanPtr × Bool)} {queue : List Uint256} {h : Uint256}
    {t : Orphans} (hnodup : (found.map Prod.fst).Nodup)
    (hfound : ∀ p, p ∈ found.map Prod.fst ↔ O p ∧ p.obj.cPrevHash = h)
    (hrest : ProcessedOnce (fun p => O p ∧ p.obj.cPrevHash ≠ h)
      (queue ++ (found.filter Prod.snd).map fun e => e.1.obj.cBlockHash) processed t) :
    ProcessedOnce O (h :: queue) (found ++ processed) t := by
  have hacc : ∀ p, Accepted (found ++ processed) p ↔ Accepted found p ∨ Accepted processed p :=
    fun p => List.mem_append
  have hgone : ∀ p, p ∈ (found ++ processed).map Prod.fst
      ↔ p ∈ found.map Prod.fst ∨ p ∈ processed.map Prod.fst := by
    intro p
    rw [List.map_append, List.mem_append]
  have hmem : ∀ p, p ∈ processed.map Prod.fst → O p ∧ p.obj.cPrevHash ≠ h := by
    intro p hp
    cases (hrest.connects p).mp hp with
    | queued hO _ => exact hO
    | next _ _ hO _ => exact hO
  have hqueue : ∀ p k, Accepted found p → p.obj.cBlockHash = k →
      k ∈ queue ++ (found.filter Prod.snd).map fun e => e.1.obj.cBlockHash := by
    rintro p k hp rfl
    apply List.mem_append_right
    exact List.mem_map.mpr ⟨(p, true), List.mem_filter.mpr ⟨hp, rfl⟩, rfl⟩
  constructor
  · rw [List.map_append]
    refine List.nodup_append.mpr ⟨hnodup, hrest.once, ?_⟩
    rintro p hp q hq rfl
    exact (hmem p hq).2 ((hfound p).mp hp).2
  · intro p
    rw [hgone]
    constructor
    · rintro (hp | hp)
      · obtain ⟨hO, hprev⟩ := (hfound p).mp hp
        exact .queued hO (hprev ▸ List.mem_cons_self)
      · apply Connects.mono (fun q hq => hq.1) ?_ (fun q hq => (hacc q).mpr (.inr hq)) ((hrest.connects p).mp hp)
        rintro q ⟨hO, -⟩ hq
        rcases List.mem_append.mp hq with hold | hnew
        · exact .queued hO (List.mem_cons_of_mem h hold)
        · -- the child of one of the range
          obtain ⟨⟨r, ok⟩, hr, hprev⟩ := List.mem_map.mp hnew
          obtain ⟨hr, hok⟩ := List.mem_filter.mp hr
          obtain rfl : ok = true := hok
          obtain ⟨hrO, hrprev⟩ := (hfound r).mp (List.mem_map.mpr ⟨(r, true), hr, rfl⟩)
          exact .next (.queued hrO (hrprev ▸ List.mem_cons_self)) ((hacc r).mpr (.inl hr)) hO hprev.symm
    · intro hp
      -- each is in the range, or hangs on what is left of the queue with what the range has added
      have hstep : ∀ q, O q → (q.obj.cPrevHash ≠ h → q ∈ processed.map Prod.fst) →
          q ∈ found.map Prod.fst ∨ q ∈ processed.map Prod.fst := by
        intro q hO hq
        by_cases hprev : q.obj.cPrevHash = h
        · exact .inl ((hfound q).mpr ⟨hO, hprev⟩)
        · exact .inr (hq hprev)
      induction hp with
      | queued hO hprev =>
        refine hstep _ hO fun hne => (hrest.connects _).mpr (.queued ⟨hO, hne⟩ ?_)
        rcases List.mem_cons.mp hprev with heq | hq
        · exact absurd heq hne
        · exact List.mem_append_left _ hq
      | next _ ha hO hprev ih =>
        refine hstep _ hO fun hne => (hrest.connects _).mpr ?_
        rcases (hacc _).mp ha with hfnd | hprc
        · exact .queued ⟨hO, hne⟩ (hqueue _ _ hfnd hprev.symm)
        · have hq := (hrest.connects _).mp (List.mem_map.mpr ⟨_, hprc, rfl⟩)
          exact .next hq hprc ⟨hO, hne⟩ hprev
  · intro p
    rw [hrest.left, hgone, hfound]
    tauto

/-- The orphans of some of the entries, told apart by their parents. -/
theorem mem_filter_prev {l : List (Uint256 × OrphanPtr)} (hkeyed : ∀ e ∈ l, e.1 = e.2.obj.cPrevHash)
    (P : Uint256 → Prop) [DecidablePred P] {p : OrphanPtr} :
    p ∈ (l.filter fun e => P e.1).map Prod.snd ↔ p ∈ l.map Prod.snd ∧ P p.obj.cPrevHash := by
  simp only [List.mem_map, List.mem_filter, decide_eq_true_eq]
  constructor
  · rintro ⟨e, ⟨he, hP⟩, rfl⟩
    exact ⟨⟨e, he, rfl⟩, hkeyed e he ▸ hP⟩
  · rintro ⟨⟨e, he, rfl⟩, hP⟩
    exact ⟨e, ⟨he, (hkeyed e he).symm ▸ hP⟩, rfl⟩

/-- The queue runs empty within the number of its elements and of the orphans. -/
theorem Agree.workQueue (n : ℕ) (queue : List Uint256) (env : ν) (hs : s.Agree)
    (hn : queue.length + s.mapOrphanBlocksByPrev.length ≤ n) :
    ∃ processed env' t, workQueue node n queue env s = .ok (processed, env', t) ∧ t.Agree ∧ t.next = s.next ∧
      ProcessedOnce (fun p => p ∈ s.mapOrphanBlocksByPrev.map Prod.snd) queue processed t := by
  induction n generalizing queue env s with
  | zero =>
    obtain rfl : queue = [] := List.length_eq_zero_iff.mp (by omega)
    refine ⟨[], env, s, rfl, hs, rfl, List.nodup_nil, fun p => ?_, fun p => by simp⟩
    simp [not_connects_nil]
  | succ n ih =>
    cases queue with
    | nil =>
      refine ⟨[], env, s, rfl, hs, rfl, List.nodup_nil, fun p => ?_, fun p => by simp⟩
      simp [not_connects_nil]
    | cons h queue =>
      have hrange : ∀ p, p ∈ s.rangeOf h ↔ p ∈ s.mapOrphanBlocksByPrev.map Prod.snd ∧ p.obj.cPrevHash = h :=
        fun p => mem_filter_prev hs.keyed (· = h)
      have hnodup : (s.rangeOf h).Nodup := hs.nodup.sublist (List.filter_sublist.map Prod.snd)
      obtain ⟨found, env₁, t₁, hrun₁, hagree₁, hprev₁, hnext₁, hfound⟩ :=
        hs.on.acceptRange node (fun p hp => ((hrange p).mp hp).1) hnodup env
      have hleft : ∀ p, p ∈ (s.mapOrphanBlocksByPrev.filter fun e => e.1 ≠ h).map Prod.snd
          ↔ p ∈ s.mapOrphanBlocksByPrev.map Prod.snd ∧ p.obj.cPrevHash ≠ h :=
        fun p => mem_filter_prev hs.keyed (· ≠ h)
      have hagree : Agree { t₁ with
          mapOrphanBlocksByPrev := s.mapOrphanBlocksByPrev.filter fun e => e.1 ≠ h } := by
        constructor
        · have hsame : ∀ p, p ∈ s.mapOrphanBlocksByPrev.map Prod.snd ∧ p ∉ s.rangeOf h
              ↔ p ∈ (s.mapOrphanBlocksByPrev.filter fun e => e.1 ≠ h).map Prod.snd := by
            intro p
            rw [hleft, hrange]
            tauto
          have hon := hagree₁.congr hsame
          exact ⟨hon.map, hon.set, hon.sorted, hon.allocated, hon.addr, hon.below⟩
        · exact fun e he => hs.keyed e (List.mem_of_mem_filter he)
        · exact hs.nodup.sublist (List.filter_sublist.map Prod.snd)
      have hlen := List.length_eq_length_filter_add (l := s.mapOrphanBlocksByPrev) fun e => decide (e.1 = h)
      have hnew : ((found.filter Prod.snd).map fun e => e.1.obj.cBlockHash).length ≤ (s.rangeOf h).length := by
        rw [List.length_map, ← hfound, List.length_map]
        exact List.length_filter_le _ _
      have hbudget : (queue ++ (found.filter Prod.snd).map fun e => e.1.obj.cBlockHash).length
          + (s.mapOrphanBlocksByPrev.filter fun e => e.1 ≠ h).length ≤ n := by
        have hrest : (s.mapOrphanBlocksByPrev.filter fun e => e.1 ≠ h)
            = s.mapOrphanBlocksByPrev.filter fun e => !decide (e.1 = h) := List.filter_congr (by simp)
        have hrangeLen : (s.rangeOf h).length
            = (s.mapOrphanBlocksByPrev.filter fun e => decide (e.1 = h)).length := List.length_map _
        rw [List.length_append, hrest]
        rw [List.length_cons] at hn
        omega
      obtain ⟨processed, env₂, t₂, hrun₂, hagree₂, hnext₂, honce⟩ := ih _ env₁ hagree hbudget
      refine ⟨found ++ processed, env₂, t₂, ?_, hagree₂, hnext₂.trans hnext₁, ?_⟩
      · rw [Orphans.workQueue, hrun₁, Except.ok_bind]
        dsimp only
        rw [hprev₁, hrun₂]
        rfl
      · apply ProcessedOnce.cons (hfound ▸ hnodup) (fun p => hfound ▸ hrange p)
        have hO : (fun p => p ∈ (s.mapOrphanBlocksByPrev.filter fun e => e.1 ≠ h).map Prod.snd)
            = fun p => p ∈ s.mapOrphanBlocksByPrev.map Prod.snd ∧ p.obj.cPrevHash ≠ h :=
          funext fun p => propext (hleft p)
        rwa [← hO]

/-! ### A new orphan -/

theorem mem_setInsert {l : List OrphanPtr} {P : OrphanPtr → Bool} :
    q ∈ l.takeWhile P ++ p :: l.dropWhile P ↔ q = p ∨ q ∈ l := by
  have hsplit : q ∈ l ↔ q ∈ l.takeWhile P ∨ q ∈ l.dropWhile P := by
    rw [← List.mem_append, List.takeWhile_append_dropWhile]
  rw [List.mem_append, List.mem_cons, hsplit]
  tauto

/-- The set stays in its order. -/
theorem sorted_setInsert {l : List OrphanPtr} (hl : l.Pairwise fun p q => p.obj.nHeight < q.obj.nHeight)
    (hne : ∀ q ∈ l, q.obj.nHeight ≠ p.obj.nHeight) :
    (l.takeWhile (fun q => q.obj.nHeight < p.obj.nHeight) ++
      p :: l.dropWhile (fun q => q.obj.nHeight < p.obj.nHeight)).Pairwise
        fun p q => p.obj.nHeight < q.obj.nHeight := by
  induction l with
  | nil => simp
  | cons a l ih =>
    obtain ⟨ha, hl'⟩ := List.pairwise_cons.mp hl
    have hne' := hne a List.mem_cons_self
    by_cases hlt : a.obj.nHeight < p.obj.nHeight
    · rw [List.takeWhile_cons_of_pos (by simpa using hlt), List.dropWhile_cons_of_pos (by simpa using hlt),
        List.cons_append, List.pairwise_cons]
      refine ⟨fun q hq => ?_, ih hl' fun q hq => hne q (List.mem_cons_of_mem a hq)⟩
      rcases mem_setInsert.mp hq with rfl | hq
      · exact hlt
      · exact ha q hq
    · rw [List.takeWhile_cons_of_neg (by simpa using hlt), List.dropWhile_cons_of_neg (by simpa using hlt),
        List.nil_append, List.pairwise_cons]
      refine ⟨fun q hq => ?_, hl⟩
      rcases List.mem_cons.mp hq with rfl | hq
      · omega
      · have hgt := ha q hq
        omega

/-- The containers with one more orphan. -/
def added (s : Orphans) (p : OrphanPtr) : Orphans where
  mapOrphanBlocks := s.mapOrphanBlocks.put p.obj.cBlockHash (some p)
  mapOrphanBlocksByPrev := s.mapOrphanBlocksByPrev ++ [(p.obj.cPrevHash, p)]
  setOrphanBlock := s.setOrphanBlock.takeWhile (fun q => q.obj.nHeight < p.obj.nHeight) ++
    p :: s.setOrphanBlock.dropWhile (fun q => q.obj.nHeight < p.obj.nHeight)
  allocated := insert s.next s.allocated
  next := s.next + 1
  nSyncTipHeight := s.nSyncTipHeight

theorem mem_added_byPrev :
    q ∈ (s.added p).mapOrphanBlocksByPrev.map Prod.snd ↔ q = p ∨ q ∈ s.mapOrphanBlocksByPrev.map Prod.snd := by
  unfold added
  rw [List.map_append, List.mem_append]
  simp [or_comm]

theorem Agree.added (hs : s.Agree) (haddr : p.addr = s.next)
    (hnew : s.mapOrphanBlocks.lookup p.obj.cBlockHash = none)
    (hheight : ∀ q ∈ s.setOrphanBlock, q.obj.nHeight ≠ p.obj.nHeight) : (s.added p).Agree := by
  have hon := hs.on
  have hbelow : ∀ q, q ∈ s.mapOrphanBlocksByPrev.map Prod.snd → q.addr < s.next :=
    fun q hq => hon.below q.addr ((hon.allocated _).mpr ⟨q, hq, rfl⟩)
  have hnotin : p ∉ s.mapOrphanBlocksByPrev.map Prod.snd := by
    intro hp
    have hlt := hbelow p hp
    omega
  refine ⟨⟨?_, ?_, sorted_setInsert hon.sorted hheight, ?_, ?_, ?_⟩, ?_, ?_⟩
  · intro k q
    rw [mem_added_byPrev]
    show (s.mapOrphanBlocks.put _ _).lookup k = some q ↔ _
    rw [Store.lookup_put]
    by_cases hk : k = p.obj.cBlockHash
    · rw [if_pos hk]
      constructor
      · intro heq
        obtain rfl := Option.some.inj heq
        exact ⟨.inl rfl, hk.symm⟩
      · rintro ⟨rfl | hq, hqk⟩
        · rfl
        · have hlook := (hon.map k q).mpr ⟨hq, hqk⟩
          rw [hk, hnew] at hlook
          cases hlook
    · rw [if_neg hk, hon.map]
      constructor
      · exact fun hq => ⟨.inr hq.1, hq.2⟩
      · rintro ⟨rfl | hq, hqk⟩
        · exact absurd hqk.symm hk
        · exact ⟨hq, hqk⟩
  · intro q
    rw [mem_added_byPrev, ← hon.set]
    exact mem_setInsert
  · intro a
    show a ∈ insert s.next s.allocated ↔ _
    rw [Finset.mem_insert, hon.allocated]
    constructor
    · rintro (rfl | ⟨q, hq, rfl⟩)
      · exact ⟨p, mem_added_byPrev.mpr (.inl rfl), haddr⟩
      · exact ⟨q, mem_added_byPrev.mpr (.inr hq), rfl⟩
    · rintro ⟨q, hq, rfl⟩
      rcases mem_added_byPrev.mp hq with rfl | hq
      · exact .inl haddr
      · exact .inr ⟨q, hq, rfl⟩
  · intro q r hq hr heq
    rcases mem_added_byPrev.mp hq with rfl | hq'
    · rcases mem_added_byPrev.mp hr with rfl | hr'
      · rfl
      · have hlt := hbelow r hr'
        omega
    · rcases mem_added_byPrev.mp hr with rfl | hr'
      · have hlt := hbelow q hq'
        omega
      · exact hon.addr q r hq' hr' heq
  · intro a ha
    rcases Finset.mem_insert.mp ha with rfl | ha
    · exact Nat.lt_succ_self _
    · exact (hon.below a ha).trans (Nat.lt_succ_self _)
  · intro e he
    rcases List.mem_append.mp he with he | he
    · exact hs.keyed e he
    · obtain rfl := List.mem_singleton.mp he
      rfl
  · unfold Orphans.added
    rw [List.map_append, List.nodup_append]
    refine ⟨hs.nodup, by simp, ?_⟩
    rintro q hq r hr rfl
    obtain rfl : q = p := by simpa using hr
    exact hnotin hq

theorem Agree.holdOrphan (hs : s.Agree) {cHash : Uint256} {b : CBlock}
    (hnew : s.mapOrphanBlocks.lookup cHash = none)
    (hheight : ∀ q ∈ s.setOrphanBlock, q.obj.nHeight ≠ b.intHeight) :
    ∃ p : OrphanPtr, p.addr = s.next ∧ s.holdOrphan cHash b = .ok (s.added p) ∧ (s.added p).Agree := by
  refine ⟨⟨s.next, cHash, b.cHashPrevBlock, b.intHeight, b⟩, rfl, ?_, hs.added rfl hnew hheight⟩
  have hon := hs.on
  rw [Orphans.holdOrphan, if_neg (Finmap.lookup_eq_none.mp hnew), setInsert, compareAll, forM_deref_ok,
    Except.ok_bind, if_neg]
  · rfl
  · rintro ⟨q, hq, heq⟩
    exact hheight q hq heq
  · intro q hq
    apply if_pos
    rcases List.mem_cons.mp hq with rfl | hq
    · exact Finset.mem_insert_self _ _
    · exact Finset.mem_insert_of_mem ((hon.allocated _).mpr ⟨q, (hon.set q).mp hq, rfl⟩)

/-! ### The orphan to prune -/

theorem eraseByPrev_eq {l : List (Uint256 × OrphanPtr)} (hl : ∀ e ∈ l, s.deref e.2 = .ok e.2.obj)
    (cPrevHash cHash : Uint256) :
    s.eraseByPrev cPrevHash cHash l
      = .ok (l.eraseP fun e => decide (e.1 = cPrevHash ∧ e.2.obj.cBlockHash = cHash)) := by
  induction l with
  | nil => rfl
  | cons e l ih =>
    obtain ⟨k, q⟩ := e
    have hrest := ih fun e he => hl e (List.mem_cons_of_mem _ he)
    have hq : s.deref q = .ok q.obj := hl (k, q) List.mem_cons_self
    unfold eraseByPrev
    by_cases hk : k = cPrevHash
    · rw [if_pos hk, hq, Except.ok_bind]
      by_cases hh : q.obj.cBlockHash = cHash
      · rw [if_pos hh, List.eraseP_cons_of_pos (by simp [hk, hh])]
        rfl
      · rw [if_neg hh, hrest, List.eraseP_cons_of_neg (by simp [hh])]
        rfl
    · rw [if_neg hk, hrest, List.eraseP_cons_of_neg (by simp [hk])]
      rfl

theorem Agree.dropOrphan (hs : s.Agree) (hp : p ∈ s.setOrphanBlock) :
    ∃ byPrev, s.dropOrphan p p.obj = .ok (s.removed p byPrev) ∧ (s.removed p byPrev).Agree ∧
      byPrev.length + 1 = s.mapOrphanBlocksByPrev.length := by
  have hon := hs.on
  have hO := (hon.set p).mp hp
  obtain ⟨e, he, hep⟩ := List.mem_map.mp hO
  have hkey : e.1 = p.obj.cPrevHash := hep ▸ hs.keyed e he
  -- of the entries only the orphan's own has its hash
  have hone : ∀ a ∈ s.mapOrphanBlocksByPrev, ∀ b ∈ s.mapOrphanBlocksByPrev,
      decide (a.1 = p.obj.cPrevHash ∧ a.2.obj.cBlockHash = p.obj.cBlockHash) = true →
      decide (b.1 = p.obj.cPrevHash ∧ b.2.obj.cBlockHash = p.obj.cBlockHash) = true → a = b := by
    intro a ha b hb hpa hpb
    have hsame := hon.hash (List.mem_map_of_mem ha) (List.mem_map_of_mem hb)
      ((of_decide_eq_true hpa).2.trans (of_decide_eq_true hpb).2.symm)
    exact List.inj_on_of_nodup_map hs.nodup ha hb hsame
  have hlen := List.length_eraseP_of_mem
    (p := fun e => decide (e.1 = p.obj.cPrevHash ∧ e.2.obj.cBlockHash = p.obj.cBlockHash)) he
    (decide_eq_true ⟨hkey, by rw [hep]⟩)
  have hpos := List.length_pos_of_mem he
  have hread : ∀ e ∈ s.mapOrphanBlocksByPrev, s.deref e.2 = .ok e.2.obj :=
    fun e he => hon.deref (List.mem_map_of_mem he)
  have hrest := Handles.eraseP_eq_filter hs.nodup.of_map hone
  rw [hrest] at hlen
  have hrun := eraseByPrev_eq (s := { s with
    setOrphanBlock := s.setOrphanBlock.filter fun q => q.obj.nHeight ≠ p.obj.nHeight }) hread
    p.obj.cPrevHash p.obj.cBlockHash
  have hmem : ∀ a, a ∈ s.mapOrphanBlocksByPrev.filter
      (fun e => !decide (e.1 = p.obj.cPrevHash ∧ e.2.obj.cBlockHash = p.obj.cBlockHash))
      ↔ a ∈ s.mapOrphanBlocksByPrev ∧ a.2 ≠ p := by
    intro a
    rw [List.mem_filter, Bool.not_eq_true', decide_eq_false_iff_not]
    refine and_congr_right fun ha => not_congr ⟨fun hsame => ?_, ?_⟩
    · exact hon.hash (List.mem_map_of_mem ha) hO hsame.2
    · rintro rfl
      exact ⟨hs.keyed a ha, rfl⟩
  refine ⟨s.mapOrphanBlocksByPrev.filter
    (fun e => !decide (e.1 = p.obj.cPrevHash ∧ e.2.obj.cBlockHash = p.obj.cBlockHash)), ?_, ⟨?_, ?_, ?_⟩, ?_⟩
  · rw [Orphans.dropOrphan, hon.setErase hO, Except.ok_bind]
    dsimp only
    rw [hrun, hrest, Except.ok_bind]
    rfl
  · apply (hon.removed hO _).congr
    intro q
    constructor
    · rintro ⟨hq, hne⟩
      obtain ⟨a, ha, rfl⟩ := List.mem_map.mp hq
      exact List.mem_map_of_mem ((hmem a).mpr ⟨ha, hne⟩)
    · intro hq
      obtain ⟨a, ha, rfl⟩ := List.mem_map.mp hq
      obtain ⟨ha, hne⟩ := (hmem a).mp ha
      exact ⟨List.mem_map_of_mem ha, hne⟩
  · exact fun a ha => hs.keyed a (List.mem_of_mem_filter ha)
  · exact hs.nodup.sublist (List.filter_sublist.map Prod.snd)
  · omega

/-- Nothing comes in. -/
structure Shrinks (s t : Orphans) : Prop where
  next : t.next = s.next
  allocated : t.allocated ⊆ s.allocated
  set : ∀ q ∈ t.setOrphanBlock, q ∈ s.setOrphanBlock
  map : ∀ h, s.mapOrphanBlocks.lookup h = none → t.mapOrphanBlocks.lookup h = none

theorem Shrinks.refl (s : Orphans) : Shrinks s s := ⟨rfl, Finset.Subset.refl _, fun _ hq => hq, fun _ h => h⟩

theorem shrinks_removed (s : Orphans) (p : OrphanPtr) (byPrev : List (Uint256 × OrphanPtr)) :
    Shrinks s (s.removed p byPrev) where
  next := rfl
  allocated := Finset.erase_subset _ _
  set _ hq := List.mem_of_mem_filter hq
  map h hnone := by
    show (s.mapOrphanBlocks.put p.obj.cBlockHash none).lookup h = none
    rw [Store.lookup_put, hnone, ite_self]

/-- There is room when there are no more orphans than may be, or the highest gives way. -/
theorem Agree.pruneOrphanBlocks (hs : s.Agree) (nHeight : ℤ)
    (hlen : s.mapOrphanBlocksByPrev.length ≤ maxOrphanBlocks + 1) :
    (s.pruneOrphanBlocks nHeight = .ok (false, s)) ∨
    ∃ t, s.pruneOrphanBlocks nHeight = .ok (true, t) ∧ t.Agree ∧ Shrinks s t ∧
      t.mapOrphanBlocksByPrev.length ≤ s.mapOrphanBlocksByPrev.length ∧
      t.mapOrphanBlocksByPrev.length ≤ maxOrphanBlocks ∧
      (s.mapOrphanBlocksByPrev.length ≤ maxOrphanBlocks ∨ ∃ p ∈ s.setOrphanBlock, nHeight < p.obj.nHeight) := by
  unfold Orphans.pruneOrphanBlocks
  by_cases hfew : s.mapOrphanBlocksByPrev.length ≤ maxOrphanBlocks
  · rw [if_pos hfew]
    exact .inr ⟨s, rfl, hs, .refl s, le_refl _, hfew, .inl hfew⟩
  · have hall : (s.setOrphanBlock.forM fun q => do
        let _ ← s.deref q
        return : Exec Unit) = .ok () := forM_deref_ok fun q hq => hs.on.deref ((hs.on.set q).mp hq)
    have hne : s.setOrphanBlock ≠ [] := by
      intro hnil
      obtain ⟨e, he⟩ := List.exists_mem_of_length_pos (show 0 < s.mapOrphanBlocksByPrev.length by omega)
      have hin := (hs.on.set e.2).mpr (List.mem_map_of_mem he)
      rw [hnil] at hin
      cases hin
    have hlast := List.getLast_mem hne
    have hlast' : s.setLast = .ok (s.setOrphanBlock.getLast hne) := by
      rw [setLast, List.getLast?_eq_getLast_of_ne_nil hne]
      rfl
    have hread := hs.on.deref ((hs.on.set _).mp hlast)
    rw [if_neg hfew, hall, Except.ok_bind, hlast', Except.ok_bind, hread, Except.ok_bind]
    by_cases hlow : (s.setOrphanBlock.getLast hne).obj.nHeight ≤ nHeight
    · rw [if_pos hlow]
      exact .inl rfl
    · obtain ⟨byPrev, hrun, hagree, hless⟩ := hs.dropOrphan hlast
      rw [if_neg hlow, hrun]
      refine .inr ⟨_, rfl, hagree, shrinks_removed s _ byPrev, ?_, ?_, .inr ⟨_, hlast, by omega⟩⟩
      · show byPrev.length ≤ _
        omega
      · show byPrev.length ≤ _
        omega

/-- What is allocated was, or is new. -/
structure Later (s t : Orphans) : Prop where
  next : s.next ≤ t.next
  allocated : ∀ a ∈ t.allocated, a ∈ s.allocated ∨ s.next ≤ a

theorem Later.refl (s : Orphans) : Later s s := ⟨le_refl _, fun _ ha => .inl ha⟩

theorem Shrinks.later {t : Orphans} (h : Shrinks s t) : Later s t := ⟨h.next.ge, fun _ ha => .inl (h.allocated ha)⟩

theorem raiseSyncTip_eq (s : Orphans) (b : CBlock) : ∃ n, s.raiseSyncTip b = { s with nSyncTipHeight := n } := by
  unfold raiseSyncTip
  split
  · exact ⟨_, rfl⟩
  · exact ⟨s.nSyncTipHeight, rfl⟩

theorem Agree.raiseSyncTip (hs : s.Agree) (b : CBlock) : (s.raiseSyncTip b).Agree := by
  obtain ⟨n, hn⟩ := raiseSyncTip_eq s b
  rw [hn]
  exact ⟨⟨hs.on.map, hs.on.set, hs.on.sorted, hs.on.allocated, hs.on.addr, hs.on.below⟩, hs.keyed, hs.nodup⟩

/-- A block without its parent is held where there is room, as the only one of its height. -/
theorem Agree.holdPruned (hs : s.Agree) (hlen : s.mapOrphanBlocksByPrev.length ≤ maxOrphanBlocks + 1)
    {cHash : Uint256} {b : CBlock} (hnew : s.mapOrphanBlocks.lookup cHash = none)
    (hheight : (s.mapOrphanBlocksByPrev.length ≤ maxOrphanBlocks ∨
        ∃ p ∈ s.setOrphanBlock, b.intHeight < p.obj.nHeight) →
      ∀ p ∈ s.setOrphanBlock, p.obj.nHeight ≠ b.intHeight) :
    ∃ room t u, s.pruneOrphanBlocks b.intHeight = .ok (room, t) ∧
      (if room then t.holdOrphan cHash b else pure t) = .ok u ∧ u.Agree ∧ Later s u ∧
      u.mapOrphanBlocksByPrev.length ≤ maxOrphanBlocks + 1 ∧
      u.mapOrphanBlocksByPrev.length ≤ s.mapOrphanBlocksByPrev.length + 1 := by
  obtain hfull | ⟨t, ht, hagree, hshrinks, hless, hmax, hroom⟩ := hs.pruneOrphanBlocks b.intHeight hlen
  · exact ⟨false, s, s, hfull, rfl, hs, .refl s, hlen, Nat.le_succ _⟩
  · obtain ⟨p, hp, hrun, hadded⟩ := hagree.holdOrphan (hshrinks.map cHash hnew)
      fun q hq => hheight hroom q (hshrinks.set q hq)
    have hlen' : (t.added p).mapOrphanBlocksByPrev.length = t.mapOrphanBlocksByPrev.length + 1 := by
      simp [Orphans.added]
    refine ⟨true, t, t.added p, ht, hrun, hadded, ⟨?_, ?_⟩, by omega, by omega⟩
    · show s.next ≤ t.next + 1
      have hnext := hshrinks.next
      omega
    · intro a ha
      rcases Finset.mem_insert.mp ha with rfl | ha
      · exact .inr hshrinks.next.ge
      · exact .inl (hshrinks.allocated ha)

theorem Agree.shunt (hs : s.Agree) (hlen : s.mapOrphanBlocksByPrev.length ≤ maxOrphanBlocks + 1)
    (pFromNode : Bool) {cHash : Uint256} {b : CBlock} (hnew : s.mapOrphanBlocks.lookup cHash = none)
    (hheight : pFromNode = true →
      (s.mapOrphanBlocksByPrev.length ≤ maxOrphanBlocks ∨ ∃ p ∈ s.setOrphanBlock, b.intHeight < p.obj.nHeight) →
      ∀ p ∈ s.setOrphanBlock, p.obj.nHeight ≠ b.intHeight) :
    ∃ t, s.shunt pFromNode cHash b = .ok t ∧ t.Agree ∧ Later s t ∧
      t.mapOrphanBlocksByPrev.length ≤ maxOrphanBlocks + 1 ∧
      ((pFromNode = true → s.mapOrphanBlocksByPrev.length < maxOrphanBlocks) →
        s.mapOrphanBlocksByPrev.length ≤ maxOrphanBlocks → t.mapOrphanBlocksByPrev.length ≤ maxOrphanBlocks) := by
  have htip := hs.raiseSyncTip b
  obtain ⟨n, hn⟩ := raiseSyncTip_eq s b
  unfold Orphans.shunt
  rw [hn] at htip ⊢
  cases pFromNode with
  | false => exact ⟨_, rfl, htip, ⟨le_refl _, fun _ ha => .inl ha⟩, hlen, fun _ hle => hle⟩
  | true =>
    obtain ⟨room, t, u, ht, hu, hagree, hlater, hlen', hmore⟩ :=
      htip.holdPruned hlen hnew (hheight rfl)
    refine ⟨u, ?_, hagree, ⟨hlater.next, hlater.allocated⟩, hlen', fun hroom _ => ?_⟩
    · dsimp only
      rw [if_pos rfl, ht]
      exact hu
    · have hlt := hroom rfl
      have hmore' : u.mapOrphanBlocksByPrev.length ≤ s.mapOrphanBlocksByPrev.length + 1 := hmore
      omega

end

/-! ## Runs -/

section

variable {ν : Type}

/-- A call of `ProcessBlock`, by a node as it is then. -/
structure Call (ν : Type) where
  env : ν
  pFromNode : Bool
  pBlock : CBlock

namespace Call

variable (node : OrphanNode ν) (s : Orphans) (call : Call ν)

def cHash : Uint256 := call.pBlock.getHash node.cr.Hash

/-- The block is new, and passes the check. -/
def Fresh : Prop :=
  node.known call.env (call.cHash node) = false ∧ call.cHash node ∉ s.mapOrphanBlocks ∧
    node.checkBlock call.env call.pBlock = true

/-- Its parent is not known, and there is a peer to ask. -/
def Shunted : Prop :=
  call.Fresh node s ∧ call.pBlock.cHashPrevBlock ≠ 0 ∧
    node.known call.env call.pBlock.cHashPrevBlock = false ∧ call.pFromNode = true

/-- `AcceptBlock` is asked and says yes. -/
def Connected : Prop :=
  call.Fresh node s ∧ (call.pBlock.cHashPrevBlock = 0 ∨ node.known call.env call.pBlock.cHashPrevBlock = true) ∧
    (node.acceptBlock call.env call.pBlock).1 = true

/-- A block that is going to be held has a height that no orphan has. -/
def NewHeight : Prop :=
  call.Shunted node s →
  (s.mapOrphanBlocksByPrev.length ≤ maxOrphanBlocks ∨
    ∃ p ∈ s.setOrphanBlock, call.pBlock.intHeight < p.obj.nHeight) →
  ∀ p ∈ s.setOrphanBlock, p.obj.nHeight ≠ call.pBlock.intHeight

/-- A block that is going to be held finds fewer orphans than may be. -/
def HasRoom : Prop := call.Shunted node s → s.mapOrphanBlocksByPrev.length < maxOrphanBlocks

def run : Exec (Outcome ν) := processBlock node call.env s call.pFromNode call.pBlock

end Call

variable (node : OrphanNode ν)

/-- What a call keeps, and what it processes. -/
structure Keeps (s : Orphans) (call : Call ν) (out : Outcome ν) : Prop where
  agree : out.orphans.Agree
  later : Later s out.orphans
  bound : out.orphans.mapOrphanBlocksByPrev.length ≤ maxOrphanBlocks + 1
  room : call.HasRoom node s → s.mapOrphanBlocksByPrev.length ≤ maxOrphanBlocks →
    out.orphans.mapOrphanBlocksByPrev.length ≤ maxOrphanBlocks
  connected : call.Connected node s → ProcessedOnce (fun p => p ∈ s.mapOrphanBlocksByPrev.map Prod.snd)
    [call.cHash node] out.processed out.orphans
  other : ¬ call.Connected node s → out.processed = []

variable {s : Orphans}

theorem Agree.unchanged (hs : s.Agree) (hlen : s.mapOrphanBlocksByPrev.length ≤ maxOrphanBlocks + 1)
    {call : Call ν} (hno : ¬ call.Connected node s) (ok : Bool) (env : ν) :
    Keeps node s call ⟨ok, env, s, []⟩ :=
  ⟨hs, .refl s, hlen, fun _ hle => hle, fun hyes => absurd hyes hno, fun _ => rfl⟩

/-- What was held and was not processed is still held, and nothing else. -/
theorem ProcessedOnce.length_le {t : Orphans} (ht : t.Agree) {queue : List Uint256}
    {processed : List (OrphanPtr × Bool)}
    (h : ProcessedOnce (fun p => p ∈ s.mapOrphanBlocksByPrev.map Prod.snd) queue processed t) :
    t.mapOrphanBlocksByPrev.length ≤ s.mapOrphanBlocksByPrev.length := by
  have hsub : t.mapOrphanBlocksByPrev.map Prod.snd ⊆ s.mapOrphanBlocksByPrev.map Prod.snd :=
    fun p hp => ((h.left p).mp hp).1
  have hle := (List.subperm_of_subset ht.nodup hsub).length_le
  rwa [List.length_map, List.length_map] at hle

/-- A block with a known parent: `AcceptBlock` is asked, and its orphans after it. -/
theorem Agree.connect (hs : s.Agree) (hlen : s.mapOrphanBlocksByPrev.length ≤ maxOrphanBlocks + 1)
    {call : Call ν} (hfresh : call.Fresh node s)
    (hparent : call.pBlock.cHashPrevBlock = 0 ∨ node.known call.env call.pBlock.cHashPrevBlock = true) :
    ∃ out, s.connectBlock node call.env (call.cHash node) call.pBlock = .ok out ∧ Keeps node s call out := by
  unfold connectBlock
  cases hacc : node.acceptBlock call.env call.pBlock with
  | mk ok env =>
    cases ok with
    | false =>
      refine ⟨_, rfl, hs.unchanged node hlen (fun hyes => ?_) _ _⟩
      have hyes' := hyes.2.2
      rw [hacc] at hyes'
      cases hyes'
    | true =>
      obtain ⟨processed, env', t, ht, hagree, hnext, honce⟩ :=
        hs.workQueue node (s.mapOrphanBlocksByPrev.length + 1) [call.cHash node] env (by simp; omega)
      have hless := honce.length_le hagree
      dsimp only
      rw [ht]
      refine ⟨_, rfl, hagree, ⟨hnext.ge, fun a ha => ?_⟩, hless.trans hlen, fun _ => hless.trans,
        fun _ => honce, fun hno => ?_⟩
      · obtain ⟨p, hp, rfl⟩ := (hagree.on.allocated a).mp ha
        exact .inl ((hs.on.allocated _).mpr ⟨p, ((honce.left p).mp hp).1, rfl⟩)
      · exact absurd ⟨hfresh, hparent, by rw [hacc]⟩ hno

theorem Agree.processBlock (hs : s.Agree)
    (hlen : s.mapOrphanBlocksByPrev.length ≤ maxOrphanBlocks + 1) (call : Call ν)
    (hheight : call.NewHeight node s) : ∃ out, call.run node s = .ok out ∧ Keeps node s call out := by
  have hhash : call.pBlock.getHash node.cr.Hash = call.cHash node := rfl
  unfold Call.run Orphans.processBlock
  rw [hhash]
  dsimp only
  by_cases hknown : node.known call.env (call.cHash node) = true
  · rw [if_pos hknown]
    refine ⟨_, rfl, hs.unchanged node hlen (fun hyes => ?_) _ _⟩
    exact absurd (hknown.symm.trans hyes.1.1) (by simp)
  · rw [if_neg hknown]
    by_cases hheld : call.cHash node ∈ s.mapOrphanBlocks
    · rw [if_pos hheld]
      exact ⟨_, rfl, hs.unchanged node hlen (fun hyes => hyes.1.2.1 hheld) _ _⟩
    · rw [if_neg hheld]
      by_cases hcheck : node.checkBlock call.env call.pBlock = true
      · rw [hcheck, Bool.not_true, if_neg (by simp)]
        have hfresh : call.Fresh node s := ⟨by simpa using hknown, hheld, hcheck⟩
        by_cases hparent : call.pBlock.cHashPrevBlock ≠ 0 ∧
            node.known call.env call.pBlock.cHashPrevBlock = false
        · rw [if_pos hparent]
          obtain ⟨t, ht, hagree, hlater, hbound, hroom⟩ := hs.shunt hlen call.pFromNode
            (Finmap.lookup_eq_none.mpr hheld)
            (fun hfrom => hheight ⟨hfresh, hparent.1, hparent.2, hfrom⟩)
          have hno : ¬ call.Connected node s := by
            rintro ⟨-, h0 | hyes, -⟩
            · exact hparent.1 h0
            · exact absurd (hparent.2.symm.trans hyes) (by simp)
          rw [ht]
          refine ⟨_, rfl, hagree, hlater, hbound, fun hless => hroom fun hfrom => ?_,
            fun hyes => absurd hyes hno, fun _ => rfl⟩
          exact hless ⟨hfresh, hparent.1, hparent.2, hfrom⟩
        · rw [if_neg hparent]
          have hparent' : call.pBlock.cHashPrevBlock = 0 ∨
              node.known call.env call.pBlock.cHashPrevBlock = true := by
            by_contra hno
            rw [not_or] at hno
            exact hparent ⟨hno.1, by simpa using hno.2⟩
          exact hs.connect node hlen hfresh hparent'
      · rw [Bool.not_eq_true] at hcheck
        rw [hcheck, Bool.not_false, if_pos rfl]
        refine ⟨_, rfl, hs.unchanged node hlen (fun hyes => ?_) _ _⟩
        exact absurd (hcheck.symm.trans hyes.1.2.2) (by simp)

/-! ### Every run -/

/-- The containers, with what has been processed so far. -/
structure Traced where
  orphans : Orphans
  processed : List OrphanPtr

def Step (t : Traced) (call : Call ν) (u : Traced) : Prop :=
  ∃ out, call.run node t.orphans = .ok out ∧ u = ⟨out.orphans, t.processed ++ out.processed.map Prod.fst⟩

/-- The containers agree, and what was processed is no longer allocated and will not be again. -/
structure Traced.Good (t : Traced) : Prop where
  agree : t.orphans.Agree
  bound : t.orphans.mapOrphanBlocksByPrev.length ≤ maxOrphanBlocks + 1
  once : t.processed.Nodup
  gone : ∀ p ∈ t.processed, p.addr < t.orphans.next ∧ p.addr ∉ t.orphans.allocated

theorem Traced.good_empty : Traced.Good ⟨.empty, []⟩ :=
  ⟨agree_empty, Nat.zero_le _, List.nodup_nil, fun _ h => absurd h (by simp)⟩

theorem Traced.Good.step {t u : Traced} (ht : t.Good) {call : Call ν} (hheight : call.NewHeight node t.orphans)
    (hstep : Step node t call u) : u.Good := by
  obtain ⟨out, hrun, rfl⟩ := hstep
  obtain ⟨out', hrun', hkeeps⟩ := ht.agree.processBlock node ht.bound call hheight
  obtain rfl : out' = out := Except.ok.inj (hrun'.symm.trans hrun)
  have hagree := ht.agree
  -- what the call has processed was allocated, and is not any more
  have hnow : (out'.processed.map Prod.fst).Nodup ∧ ∀ p ∈ out'.processed.map Prod.fst,
      p.addr ∈ t.orphans.allocated ∧ p.addr ∉ out'.orphans.allocated := by
    by_cases hyes : call.Connected node t.orphans
    · have honce := hkeeps.connected hyes
      refine ⟨honce.once, fun p hp => ?_⟩
      have hheld : p ∈ t.orphans.mapOrphanBlocksByPrev.map Prod.snd := by
        cases (honce.connects p).mp hp with
        | queued hO _ => exact hO
        | next _ _ hO _ => exact hO
      refine ⟨(hagree.on.allocated _).mpr ⟨p, hheld, rfl⟩, fun hin => ?_⟩
      obtain ⟨q, hq, hqp⟩ := (hkeeps.agree.on.allocated _).mp hin
      obtain ⟨hqheld, hqleft⟩ := (honce.left q).mp hq
      obtain rfl := hagree.on.addr q p hqheld hheld hqp
      exact hqleft hp
    · rw [hkeeps.other hyes]
      exact ⟨List.nodup_nil, fun p hp => absurd hp (by simp)⟩
  refine ⟨hkeeps.agree, hkeeps.bound, ?_, ?_⟩
  · refine List.nodup_append.mpr ⟨ht.once, hnow.1, ?_⟩
    rintro p hp q hq rfl
    exact (ht.gone p hp).2 (hnow.2 p hq).1
  · intro p hp
    have hup := hkeeps.later.next
    rcases List.mem_append.mp hp with hold | hnew
    · obtain ⟨hlt, hnot⟩ := ht.gone p hold
      refine ⟨hlt.trans_le hup, fun hin => ?_⟩
      rcases hkeeps.later.allocated _ hin with hin | hge
      · exact hnot hin
      · omega
    · obtain ⟨hwas, hnot⟩ := hnow.2 p hnew
      exact ⟨(hagree.on.below _ hwas).trans_le hup, hnot⟩

/-- In a run that holds no two orphans of one height the containers agree after every call, nothing else is
allocated, every further such call returns, and a block that connects has what hangs on it processed: in
that call, each once, and none that was processed before.  There is at most one orphan more than there may
be, and none more where no orphan is held on top of as many as there may be. -/
theorem orphans_consistent (t : Traced) :
    (Calls.ReachedIf (Step node) (fun t call => call.NewHeight node t.orphans) ⟨.empty, []⟩ t →
      t.orphans.Agree ∧ t.orphans.mapOrphanBlocksByPrev.length ≤ maxOrphanBlocks + 1 ∧ t.processed.Nodup ∧
      ∀ call : Call ν, call.NewHeight node t.orphans →
        ∃ out, call.run node t.orphans = .ok out ∧ Keeps node t.orphans call out) ∧
    (Calls.ReachedIf (Step node)
        (fun t call => call.NewHeight node t.orphans ∧ call.HasRoom node t.orphans) ⟨.empty, []⟩ t →
      t.orphans.mapOrphanBlocksByPrev.length ≤ maxOrphanBlocks) := by
  constructor
  · intro h
    have ht : t.Good := h.invariant Traced.good_empty fun _ _ _ ht hheight hstep => ht.step node hheight hstep
    exact ⟨ht.agree, ht.bound, ht.once, fun call => ht.agree.processBlock node ht.bound call⟩
  · intro h
    have ht : t.Good ∧ t.orphans.mapOrphanBlocksByPrev.length ≤ maxOrphanBlocks := by
      refine h.invariant (P := fun t => t.Good ∧ t.orphans.mapOrphanBlocksByPrev.length ≤ maxOrphanBlocks)
        ⟨Traced.good_empty, Nat.zero_le _⟩ ?_
      rintro t call u ⟨ht, hle⟩ ⟨hheight, hroom⟩ hstep
      refine ⟨ht.step node hheight hstep, ?_⟩
      obtain ⟨out, hrun, rfl⟩ := hstep
      obtain ⟨out', hrun', hkeeps⟩ := ht.agree.processBlock node ht.bound call hheight
      obtain rfl : out' = out := Except.ok.inj (hrun'.symm.trans hrun)
      exact hkeeps.room hroom hle
    exact ht.2

end

end Orphans

/-! ### A few orphans -/

namespace Sample

open Orphans

/-- It knows no block and takes every block. -/
def orphanNode : OrphanNode Unit := ⟨crypto, fun _ _ => false, fun _ _ => true, fun _ _ => (true, ())⟩

def parentBlock : CBlock := { CBlockHeader.null with vptx := [] }

def childBlock : CBlock :=
  { parentBlock with cHashPrevBlock := parentBlock.getHash crypto.Hash, unHeight := 1 }

/-- Another block of the child's height. -/
def otherBlock : CBlock := { childBlock with unNonce := 1 }

def orphanOf (addr : ℕ) (b : CBlock) : OrphanPtr :=
  ⟨addr, b.getHash crypto.Hash, b.cHashPrevBlock, b.intHeight, b⟩

def childHeld : Orphans := { Orphans.empty.added (orphanOf 0 childBlock) with nSyncTipHeight := 1 }

/-- The second of one height is not in the set. -/
def bothHeld : Orphans :=
  { childHeld.added (orphanOf 1 otherBlock) with setOrphanBlock := [orphanOf 0 childBlock] }

theorem childHeld_step :
    Step orphanNode ⟨.empty, []⟩ ⟨(), true, childBlock⟩ ⟨childHeld, []⟩ :=
  ⟨⟨true, (), childHeld, []⟩, by decide +kernel, rfl⟩

theorem orphans_disagree : ¬ ∀ t : Traced, Calls.Reached (Step orphanNode) ⟨.empty, []⟩ t →
    ∀ p, p ∈ t.orphans.setOrphanBlock ↔ p ∈ t.orphans.mapOrphanBlocksByPrev.map Prod.snd := by
  intro hall
  have hstep : Step orphanNode ⟨childHeld, []⟩ ⟨(), true, otherBlock⟩ ⟨bothHeld, []⟩ :=
    ⟨⟨true, (), bothHeld, []⟩, by decide +kernel, rfl⟩
  have hmissing := hall ⟨bothHeld, []⟩ (.call (.call .start trivial childHeld_step) trivial hstep)
    (orphanOf 1 otherBlock)
  revert hmissing
  decide +kernel

/-- The child waits for its parent, and is processed with it. -/
theorem orphans_consistent_connected : ∃ t : Traced, t.processed = [orphanOf 0 childBlock] ∧
    t.orphans.Agree ∧ t.orphans.mapOrphanBlocksByPrev.length ≤ maxOrphanBlocks := by
  have hstep : Step orphanNode ⟨childHeld, []⟩ ⟨(), true, parentBlock⟩
      ⟨childHeld.removed (orphanOf 0 childBlock) [], [orphanOf 0 childBlock]⟩ :=
    ⟨⟨true, (), childHeld.removed (orphanOf 0 childBlock) [], [(orphanOf 0 childBlock, true)]⟩,
      by decide +kernel, rfl⟩
  have hrun : Calls.ReachedIf (Step orphanNode)
      (fun t call => call.NewHeight orphanNode t.orphans ∧ call.HasRoom orphanNode t.orphans) ⟨.empty, []⟩ _ :=
    .call (.call .start ⟨fun _ _ _ hp => absurd hp (by simp [Orphans.empty]), fun _ => by decide⟩ childHeld_step)
      ⟨fun hshunted => absurd rfl hshunted.2.1, fun hshunted => absurd rfl hshunted.2.1⟩ hstep
  have hall := orphans_consistent orphanNode
    ⟨childHeld.removed (orphanOf 0 childBlock) [], [orphanOf 0 childBlock]⟩
  exact ⟨_, rfl, (hall.1 (hrun.mono fun _ _ h => h.1)).1, hall.2 hrun⟩

end Sample

end Dacrs
