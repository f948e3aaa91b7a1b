import Dacrs.TxCache
import Dacrs.Sample
import Dacrs.Lib.Overlay
import Dacrs.Lib.Window
import Dacrs.Lib.Cursor
import Mathlib.Data.List.MinMax

/-!
# The transaction cache over another one

A `CTransactionDBCache` built over the cache of the chain tip, which itself lies over
`CTransactionDB`.  Here a block that was taken out keeps its entry, with an empty list, as in
the code, and the database answers no question: `CTransactionDB` keeps the answers of
`CTransactionDBView`.

`Merged` is what the two are for: the blocks of the lower cache, with the additions and without
the deletions of the upper one.  The code answers a question about a block from either cache
alone, so a deletion is not seen, and one about a transaction from the upper cache alone, so a
block of the lower cache is not seen.  `exact_iff` says when the answers are right all the same.
-/

open Codec (Bytes)

namespace Dacrs

open CTransactionDBCache (liveHashes liveHashes_ne liveHashes_of_ne)

/-- `mapTxHashByBlockHash` of one cache. -/
abbrev TxHashMap := AList fun _ : Uint256 => List Uint256

namespace TxHashMap

section
variable (m : TxHashMap)

/-- `IsInMap`. -/
def isInMap (hash : Uint256) : Bool :=
  hash != 0 && !((m.lookup hash).getD []).isEmpty

/-- The blocks whose list names a transaction. -/
def listing (cTxHash : Uint256) : List Uint256 :=
  m.keys.filter fun k => ((m.lookup k).getD []).contains cTxHash

/-- The loop of `IsContainTx`: the first such block, in the order of the bytes. -/
def findTx (cTxHash : Uint256) : Option Uint256 := (m.listing cTxHash).argmin uint256Codec.write

/-- `BatchWrite` of `CTransactionDBCache`: every entry is copied, the empty ones too. -/
def batchWrite (mapIn : TxHashMap) : TxHashMap :=
  mapIn.entries.foldl (fun m item => m.insert item.1 item.2) m

/-- What `Flush` leaves of the map it has written. -/
def dropEmpty : TxHashMap :=
  m.entries.foldl (fun m item => if item.2.isEmpty then m.erase item.1 else m) m

/-- The blocks of a cache. -/
def blocks (k : Uint256) : Option (List Uint256) := (m.lookup k).bind liveHashes

end

variable {m mapIn : TxHashMap} {h k cTxHash : Uint256} {l : List Uint256}

theorem blocks_eq_some : m.blocks h = some l ↔ m.lookup h = some l ∧ l ≠ [] := by
  unfold blocks liveHashes
  cases hl : m.lookup h with
  | none => simp
  | some l' =>
    rw [Option.bind_some]
    by_cases hne : l' = []
    · simp only [hne, if_true, Option.some.injEq, reduceCtorEq, false_iff]
      rintro ⟨rfl, h⟩
      exact h rfl
    · simp only [hne, if_false, Option.some.injEq]
      constructor
      · rintro rfl
        exact ⟨rfl, hne⟩
      · exact fun h => h.1

theorem isInMap_iff : m.isInMap h = true ↔ h ≠ 0 ∧ (m.blocks h).isSome := by
  unfold isInMap blocks liveHashes
  cases hl : m.lookup h with
  | none => simp
  | some l => by_cases hne : l = [] <;> simp [hne]

theorem mem_listing : k ∈ m.listing cTxHash ↔ ∃ l, m.lookup k = some l ∧ cTxHash ∈ l := by
  unfold listing
  rw [List.mem_filter]
  constructor
  · rintro ⟨hk, hc⟩
    obtain ⟨l, hl⟩ := Option.isSome_iff_exists.mp (AList.lookup_isSome.mpr hk)
    rw [hl] at hc
    exact ⟨l, hl, by simpa using hc⟩
  · rintro ⟨l, hl, hc⟩
    refine ⟨AList.lookup_isSome.mp (by rw [hl]; rfl), ?_⟩
    rw [hl]
    simpa using hc

theorem findTx_eq_some (h : m.findTx cTxHash = some k) :
    ∃ l, m.lookup k = some l ∧ cTxHash ∈ l :=
  mem_listing.mp (List.argmin_mem h)

theorem findTx_eq_none : m.findTx cTxHash = none ↔ ∀ k l, m.lookup k = some l → cTxHash ∉ l := by
  unfold findTx
  rw [List.argmin_eq_none, List.eq_nil_iff_forall_not_mem]
  constructor
  · intro h k l hl hc
    exact h k (mem_listing.mpr ⟨l, hl, hc⟩)
  · intro h k hk
    obtain ⟨l, hl, hc⟩ := mem_listing.mp hk
    exact h k l hl hc

/-- No hash comes before the null one. -/
theorem eq_zero_of_write_le (h : uint256Codec.write k ≤ uint256Codec.write 0) : k = 0 := by
  have hleast : ∀ {n : ℕ} {bytes : Bytes}, bytes.length = n → bytes ≤ List.replicate n 0 →
      bytes = List.replicate n 0 := by
    intro n
    induction n with
    | zero => exact fun hlen _ => List.eq_nil_of_length_eq_zero hlen
    | succ n ih =>
      intro bytes hlen hle
      obtain ⟨b, bytes, rfl⟩ := List.exists_cons_of_length_eq_add_one hlen
      rw [List.replicate_succ, List.cons_le_cons_iff] at hle
      rcases hle with hlt | ⟨rfl, hle⟩
      · exact absurd hlt UInt8.not_lt_zero
      · rw [List.replicate_succ, ih (Nat.succ.inj hlen) hle]
  have hzero : uint256Codec.write 0 = List.replicate 32 0 := by decide
  rw [hzero] at h
  exact uint256Codec.write_inj trivial trivial ((hleast (length_uint256Codec_write k) h).trans hzero.symm)

theorem batchWrite_lookup :
    (m.batchWrite mapIn).lookup k = (mapIn.lookup k).or (m.lookup k) := by
  have hloop := Overlay.foldl_keyed (fun (m : TxHashMap) item => m.insert item.1 item.2)
    (fun m k => m.lookup k) (fun _ l _ => some l)
    (fun m item j => by
      by_cases hj : j = item.1
      · subst hj
        rw [if_pos rfl, AList.lookup_insert]
      · rw [if_neg hj, AList.lookup_insert_ne hj]) mapIn m k
  refine hloop.trans ?_
  cases mapIn.lookup k with
  | none => rfl
  | some l => rfl

end TxHashMap

/-! ## The caches, the upper one first -/

namespace TxCacheStack

section
variable (Hash : Bytes → Uint256)

def isContainBlock : List TxHashMap → Uint256 → Bool
  | [], _ => false
  | m :: base, hash => m.isInMap hash || isContainBlock base hash

def isContainTx : List TxHashMap → Uint256 → Uint256
  | [], _ => 0
  | m :: base, cTxHash =>
    match m.findTx cTxHash with
    | some k => k
    | none =>
      -- what the lower cache answers is kept only if it is a block of this one
      let cBlockHash := isContainTx base cTxHash
      if m.isInMap cBlockHash then cBlockHash else 0

def addBlockToCache (cBlock : CBlock) : List TxHashMap → List TxHashMap
  | [] => []
  | m :: base => m.insert (cBlock.getHash Hash) (cBlock.vptx.map (CBaseTransaction.getHash Hash)) :: base

/-- `none` is `return false`. -/
def deleteBlockFromCache (cBlock : CBlock) : List TxHashMap → Option (List TxHashMap)
  | [] => none
  | m :: base =>
    if isContainBlock (m :: base) (cBlock.getHash Hash) then
      some (m.insert (cBlock.getHash Hash) [] :: base)
    else none

/-- `Flush` of the upper cache; the writes to the database are not followed. -/
def flush : List TxHashMap → List TxHashMap
  | [] => []
  | [m] => [m.dropEmpty]
  | m :: base :: below => m.dropEmpty :: base.batchWrite m :: below

end

/-! ## What the two caches are for -/

/-- A call that changes the upper cache. -/
inductive Call
  | addBlockToCache (cBlock : CBlock)
  | deleteBlockFromCache (cBlock : CBlock)

section
variable (Hash : Bytes → Uint256)

def Call.run (caches : List TxHashMap) : Call → List TxHashMap
  | .addBlockToCache cBlock => TxCacheStack.addBlockToCache Hash cBlock caches
  | .deleteBlockFromCache cBlock => (TxCacheStack.deleteBlockFromCache Hash cBlock caches).getD caches

/-- A new cache over `base`, after some calls. -/
def child (base : TxHashMap) (calls : List Call) : List TxHashMap :=
  calls.foldl (Call.run Hash) [∅, base]

/-- What a call adds or deletes.  No block has the hash `uint256()`, so there is nothing to
delete under it. -/
def Call.record (J : Overlay.Level Uint256 (List Uint256)) :
    Call → Overlay.Level Uint256 (List Uint256)
  | .addBlockToCache cBlock =>
    Function.update J (cBlock.getHash Hash)
      (some (some (cBlock.vptx.map (CBaseTransaction.getHash Hash))))
  | .deleteBlockFromCache cBlock =>
    if cBlock.getHash Hash = 0 then J else Function.update J (cBlock.getHash Hash) (some none)

/-- The additions and deletions of the upper cache. -/
def journal (calls : List Call) : Overlay.Level Uint256 (List Uint256) :=
  calls.foldl (Call.record Hash) fun _ => none

/-- The blocks of the lower cache, with the additions and without the deletions. -/
def Merged (base : TxHashMap) (calls : List Call) : Uint256 → Option (List Uint256) :=
  Overlay.resolve base.blocks [journal Hash calls]

end

/-- The two questions are answered by a map of blocks. -/
structure Answers (caches : List TxHashMap) (M : Uint256 → Option (List Uint256)) : Prop where
  block : ∀ h, isContainBlock caches h = (M h).isSome
  found : ∀ cTxHash, isContainTx caches cTxHash ≠ 0 →
    ∃ l, M (isContainTx caches cTxHash) = some l ∧ cTxHash ∈ l
  absent : ∀ cTxHash, isContainTx caches cTxHash = 0 → ∀ h l, M h = some l → cTxHash ∉ l

/-- The upper cache answers from the merged map, and after `Flush` so does the lower one. -/
def Layered (Hash : Bytes → Uint256) (base : TxHashMap) (calls : List Call) : Prop :=
  Answers (child Hash base calls) (Merged Hash base calls) ∧
    Answers (flush (child Hash base calls)).tail (Merged Hash base calls)

/-- The lower cache has nothing to say that the upper one does not say itself. -/
structure BaseRepeated (Hash : Bytes → Uint256) (base : TxHashMap) (calls : List Call) : Prop where
  named : ∀ h l, Merged Hash base calls h = some l → h ≠ 0 ∧ l ≠ []
  kept : ∀ h, (base.blocks h).isSome → (Merged Hash base calls h).isSome
  repeated : ∀ h l cTxHash, base.lookup h = some l → cTxHash ∈ l →
    ∃ k l', journal Hash calls k = some (some l') ∧ cTxHash ∈ l'

/-! ## The map of the upper cache -/

/-- The map of the upper cache against its journal.  A deleted block without an entry was not
in the lower cache either. -/
structure Follows (base c : TxHashMap) (J : Overlay.Level Uint256 (List Uint256)) : Prop where
  added : ∀ h l, J h = some (some l) → c.lookup h = some l
  deleted : ∀ h, J h = some none → h ≠ 0 ∧
    (c.lookup h = some [] ∨ (c.lookup h = none ∧ base.blocks h = none))
  untouched : ∀ h, J h = none → c.lookup h = none

section
variable {Hash : Bytes → Uint256} {base c : TxHashMap} {J : Overlay.Level Uint256 (List Uint256)}
  {calls : List Call}

theorem Follows.empty : Follows base ∅ fun _ => none where
  added _ _ h := by cases h
  deleted _ h := by cases h
  untouched _ _ := AList.lookup_empty _

theorem Follows.add (hf : Follows base c J) (k : Uint256) (l : List Uint256) :
    Follows base (c.insert k l) (Function.update J k (some (some l))) where
  added h m hm := by
    by_cases hk : h = k
    · subst hk
      rw [Function.update_self] at hm
      cases hm
      exact AList.lookup_insert c
    · rw [Function.update_of_ne hk] at hm
      rw [AList.lookup_insert_ne hk]
      exact hf.added h m hm
  deleted h hd := by
    by_cases hk : h = k
    · subst hk
      rw [Function.update_self] at hd
      cases hd
    · rw [Function.update_of_ne hk] at hd
      rw [AList.lookup_insert_ne hk]
      exact hf.deleted h hd
  untouched h hn := by
    by_cases hk : h = k
    · subst hk
      rw [Function.update_self] at hn
      cases hn
    · rw [Function.update_of_ne hk] at hn
      rw [AList.lookup_insert_ne hk]
      exact hf.untouched h hn

/-- A deletion, whether it left an empty list or found nothing to delete. -/
theorem Follows.delete {c' : TxHashMap} {k : Uint256} (hf : Follows base c J) (h0 : k ≠ 0)
    (hk : c'.lookup k = some [] ∨ (c'.lookup k = none ∧ base.blocks k = none))
    (hother : ∀ h, h ≠ k → c'.lookup h = c.lookup h) :
    Follows base c' (Function.update J k (some none)) where
  added h m hm := by
    by_cases hhk : h = k
    · subst hhk
      rw [Function.update_self] at hm
      cases hm
    · rw [Function.update_of_ne hhk] at hm
      rw [hother h hhk]
      exact hf.added h m hm
  deleted h hd := by
    by_cases hhk : h = k
    · subst hhk
      exact ⟨h0, hk⟩
    · rw [Function.update_of_ne hhk] at hd
      rw [hother h hhk]
      exact hf.deleted h hd
  untouched h hn := by
    by_cases hhk : h = k
    · subst hhk
      rw [Function.update_self] at hn
      cases hn
    · rw [Function.update_of_ne hhk] at hn
      rw [hother h hhk]
      exact hf.untouched h hn

theorem isContainBlock_iff {h : Uint256} :
    isContainBlock [c, base] h = true ↔ h ≠ 0 ∧ ((c.blocks h).isSome ∨ (base.blocks h).isSome) := by
  unfold isContainBlock isContainBlock isContainBlock
  simp only [Bool.or_false, Bool.or_eq_true, TxHashMap.isInMap_iff]
  tauto

/-- One call of the upper cache. -/
theorem Follows.run (hf : Follows base c J) (call : Call) :
    ∃ c', call.run Hash [c, base] = [c', base] ∧ Follows base c' (call.record Hash J) := by
  cases call with
  | addBlockToCache b => exact ⟨_, rfl, hf.add _ _⟩
  | deleteBlockFromCache b =>
    show ∃ c', (if isContainBlock [c, base] (b.getHash Hash) = true then
        some (c.insert (b.getHash Hash) [] :: [base]) else none).getD [c, base] = [c', base] ∧
      Follows base c' (if b.getHash Hash = 0 then J
        else Function.update J (b.getHash Hash) (some none))
    by_cases h0 : b.getHash Hash = 0
    · have hnot : ¬ isContainBlock [c, base] (b.getHash Hash) = true := by
        rw [isContainBlock_iff]
        exact fun h => h.1 h0
      rw [if_neg hnot, if_pos h0]
      exact ⟨c, rfl, hf⟩
    · rw [if_neg h0]
      by_cases hin : isContainBlock [c, base] (b.getHash Hash) = true
      · rw [if_pos hin]
        refine ⟨_, rfl, hf.delete h0 (.inl (AList.lookup_insert c)) ?_⟩
        intro h hh
        exact AList.lookup_insert_ne hh
      · rw [if_neg hin]
        refine ⟨c, rfl, hf.delete h0 ?_ fun _ _ => rfl⟩
        -- neither cache has the block
        rw [isContainBlock_iff] at hin
        have hc : c.blocks (b.getHash Hash) = none := by
          by_contra h
          exact hin ⟨h0, .inl (Option.isSome_iff_ne_none.mpr h)⟩
        have hb : base.blocks (b.getHash Hash) = none := by
          by_contra h
          exact hin ⟨h0, .inr (Option.isSome_iff_ne_none.mpr h)⟩
        cases hl : c.lookup (b.getHash Hash) with
        | none => exact .inr ⟨rfl, hb⟩
        | some l =>
          by_cases hne : l = []
          · exact .inl (by rw [hne])
          · rw [TxHashMap.blocks_eq_some.mpr ⟨hl, hne⟩] at hc
            cases hc

theorem child_follows (Hash : Bytes → Uint256) (base : TxHashMap) (calls : List Call) :
    ∃ c, child Hash base calls = [c, base] ∧ Follows base c (journal Hash calls) := by
  have hrun : ∀ (calls : List Call) (c : TxHashMap) (J : Overlay.Level Uint256 (List Uint256)),
      Follows base c J → ∃ c', calls.foldl (Call.run Hash) [c, base] = [c', base] ∧
        Follows base c' (calls.foldl (Call.record Hash) J) := by
    intro calls
    induction calls with
    | nil =>
      intro c J hf
      exact ⟨c, rfl, hf⟩
    | cons call calls ih =>
      intro c J hf
      obtain ⟨c', hc', hf'⟩ := hf.run call
      rw [List.foldl_cons, hc', List.foldl_cons]
      exact ih c' _ hf'
  exact hrun calls ∅ _ .empty

end

/-! ## When the answers are right -/

section
variable {base c : TxHashMap} {J : Overlay.Level Uint256 (List Uint256)} {h tx : Uint256}
  {l : List Uint256}

theorem resolve_eq_some : Overlay.resolve base.blocks [J] h = some l ↔
    J h = some (some l) ∨ (J h = none ∧ base.blocks h = some l) := by
  cases hJ : J h with
  | none =>
    rw [Overlay.resolve_cons_of_none hJ]
    simp [Overlay.resolve]
  | some o =>
    rw [Overlay.resolve_cons_of_some hJ]
    simp

/-- What the upper cache lists is what its journal lists. -/
theorem Follows.listed (hf : Follows base c J) (hl : c.lookup h = some l) (htx : tx ∈ l) :
    J h = some (some l) := by
  cases hJ : J h with
  | none =>
    rw [hf.untouched h hJ] at hl
    cases hl
  | some o =>
    cases o with
    | some l' =>
      rw [hf.added h l' hJ] at hl
      cases hl
      rfl
    | none =>
      obtain ⟨-, hd | ⟨hd, -⟩⟩ := hf.deleted h hJ
      · rw [hd] at hl
        cases hl
        cases htx
      · rw [hd] at hl
        cases hl

theorem Follows.blocks_iff (hf : Follows base c J) :
    c.blocks h = some l ↔ J h = some (some l) ∧ l ≠ [] := by
  rw [TxHashMap.blocks_eq_some]
  constructor
  · rintro ⟨hl, hne⟩
    obtain ⟨tx, htx⟩ := List.exists_mem_of_ne_nil l hne
    exact ⟨hf.listed hl htx, hne⟩
  · rintro ⟨hJ, hne⟩
    exact ⟨hf.added h l hJ, hne⟩

theorem isContainTx_single : isContainTx [base] tx = (base.findTx tx).getD 0 := by
  unfold isContainTx
  cases base.findTx tx with
  | some k => rfl
  | none =>
    unfold isContainTx
    simp

/-- A cache over the database answers for its own blocks. -/
theorem answers_single {M : Uint256 → Option (List Uint256)} (hM : ∀ h, base.blocks h = M h)
    (h0 : M 0 = none) : Answers [base] M where
  block h := by
    rw [Bool.eq_iff_iff, ← hM]
    simp only [isContainBlock, Bool.or_false, TxHashMap.isInMap_iff]
    refine and_iff_right_of_imp ?_
    rintro hs rfl
    rw [hM, h0] at hs
    cases hs
  found tx hne := by
    rw [isContainTx_single] at hne ⊢
    cases hfind : base.findTx tx with
    | none =>
      rw [hfind] at hne
      exact absurd rfl hne
    | some k =>
      obtain ⟨l, hl, htx⟩ := TxHashMap.findTx_eq_some hfind
      refine ⟨l, ?_, htx⟩
      rw [Option.getD_some, ← hM]
      exact TxHashMap.blocks_eq_some.mpr ⟨hl, List.ne_nil_of_mem htx⟩
  absent tx hz := by
    intro h l hl htx
    rw [← hM] at hl
    have hlook := (TxHashMap.blocks_eq_some.mp hl).1
    rw [isContainTx_single] at hz
    cases hfind : base.findTx tx with
    | none => exact TxHashMap.findTx_eq_none.mp hfind h l hlook htx
    | some k =>
      rw [hfind, Option.getD_some] at hz
      subst hz
      obtain ⟨l', hl', htx'⟩ := TxHashMap.findTx_eq_some hfind
      have hb := TxHashMap.blocks_eq_some.mpr ⟨hl', List.ne_nil_of_mem htx'⟩
      rw [hM, h0] at hb
      cases hb

/-- The lower cache after `Flush`. -/
theorem Follows.batchWrite_blocks (hf : Follows base c J)
    (hne : ∀ h l, J h = some (some l) → l ≠ []) :
    (base.batchWrite c).blocks h = Overlay.resolve base.blocks [J] h := by
  unfold TxHashMap.blocks
  rw [TxHashMap.batchWrite_lookup]
  cases hJ : J h with
  | none =>
    rw [hf.untouched h hJ, Overlay.resolve_cons_of_none hJ]
    rfl
  | some o =>
    rw [Overlay.resolve_cons_of_some hJ]
    cases o with
    | some l =>
      rw [hf.added h l hJ, Option.some_or, Option.bind_some]
      exact liveHashes_of_ne (hne h l hJ)
    | none =>
      obtain ⟨-, hd | ⟨hd, hb⟩⟩ := hf.deleted h hJ
      · rw [hd]
        rfl
      · rw [hd]
        exact hb

end

section
variable {Hash : Bytes → Uint256} {base c : TxHashMap} {calls : List Call} {tx : Uint256}

theorem BaseRepeated.answers (hB : BaseRepeated Hash base calls)
    (hf : Follows base c (journal Hash calls)) : Answers [c, base] (Merged Hash base calls) := by
  have hzero : Merged Hash base calls 0 = none := by
    cases h0 : Merged Hash base calls 0 with
    | none => rfl
    | some l => exact absurd rfl (hB.named 0 l h0).1
  -- nothing is listed below that is not listed above
  have hbelow : ∀ tx, c.findTx tx = none → base.findTx tx = none := by
    intro tx hc
    rw [TxHashMap.findTx_eq_none]
    intro h l hl htx
    obtain ⟨k, l', hk, htx'⟩ := hB.repeated h l tx hl htx
    exact TxHashMap.findTx_eq_none.mp hc k l' (hf.added k l' hk) htx'
  refine ⟨fun h => ?_, fun tx hne => ?_, fun tx hz h l hl htx => ?_⟩
  · rw [Bool.eq_iff_iff, isContainBlock_iff]
    constructor
    · rintro ⟨-, hs | hs⟩
      · obtain ⟨l, hl⟩ := Option.isSome_iff_exists.mp hs
        rw [Merged, resolve_eq_some.mpr (.inl (hf.blocks_iff.mp hl).1)]
        rfl
      · exact hB.kept h hs
    · intro hs
      obtain ⟨l, hl⟩ := Option.isSome_iff_exists.mp hs
      obtain ⟨h0, hne⟩ := hB.named h l hl
      refine ⟨h0, ?_⟩
      obtain hJ | ⟨-, hb⟩ := resolve_eq_some.mp hl
      · exact .inl (by rw [hf.blocks_iff.mpr ⟨hJ, hne⟩]; rfl)
      · exact .inr (by rw [hb]; rfl)
  · unfold isContainTx at hne ⊢
    cases hc : c.findTx tx with
    | some k =>
      obtain ⟨l, hl, htx⟩ := TxHashMap.findTx_eq_some hc
      exact ⟨l, resolve_eq_some.mpr (.inl (hf.listed hl htx)), htx⟩
    | none =>
      rw [hc] at hne
      simp [isContainTx_single, hbelow tx hc] at hne
  · have hc : c.findTx tx = none := by
      cases hc : c.findTx tx with
      | none => rfl
      | some k =>
        have hk : k = 0 := by simpa [isContainTx, hc] using hz
        subst hk
        obtain ⟨l', hl', htx'⟩ := TxHashMap.findTx_eq_some hc
        rw [Merged, resolve_eq_some.mpr (.inl (hf.listed hl' htx'))] at hzero
        cases hzero
    obtain hJ | ⟨-, hb⟩ := resolve_eq_some.mp hl
    · exact TxHashMap.findTx_eq_none.mp hc h l (hf.added h l hJ) htx
    · exact TxHashMap.findTx_eq_none.mp (hbelow tx hc) h l (TxHashMap.blocks_eq_some.mp hb).1 htx

theorem BaseRepeated.flushed (hB : BaseRepeated Hash base calls)
    (hf : Follows base c (journal Hash calls)) :
    Answers [base.batchWrite c] (Merged Hash base calls) := by
  apply answers_single
  · intro h
    apply hf.batchWrite_blocks
    intro k l hJ
    exact (hB.named k l (resolve_eq_some.mpr (.inl hJ))).2
  · cases h0 : Merged Hash base calls 0 with
    | none => rfl
    | some l => exact absurd rfl (hB.named 0 l h0).1

theorem baseRepeated_of_layered (hf : Follows base c (journal Hash calls))
    (hA : Answers [c, base] (Merged Hash base calls))
    (hF : Answers [base.batchWrite c] (Merged Hash base calls)) :
    BaseRepeated Hash base calls := by
  have hnamed : ∀ h l, Merged Hash base calls h = some l → h ≠ 0 ∧ l ≠ [] := by
    intro h l hl
    have hin := hA.block h
    rw [hl, Option.isSome_some, isContainBlock_iff] at hin
    refine ⟨hin.1, ?_⟩
    -- a block without transactions is gone after the flush
    rintro rfl
    have hflush := hF.block h
    rw [hl, Option.isSome_some] at hflush
    simp only [isContainBlock, Bool.or_false, TxHashMap.isInMap_iff] at hflush
    obtain ⟨l', hl'⟩ := Option.isSome_iff_exists.mp hflush.2
    obtain hJ | ⟨-, hb⟩ := resolve_eq_some.mp hl
    · obtain ⟨hlook, hne⟩ := TxHashMap.blocks_eq_some.mp hl'
      rw [TxHashMap.batchWrite_lookup, hf.added h [] hJ] at hlook
      cases hlook
      exact hne rfl
    · exact (TxHashMap.blocks_eq_some.mp hb).2 rfl
  have hkept : ∀ h, (base.blocks h).isSome → (Merged Hash base calls h).isSome := by
    intro h hs
    by_cases h0 : h = 0
    · subst h0
      cases hJ : journal Hash calls 0 with
      | none =>
        rw [Merged, Overlay.resolve_cons_of_none hJ]
        exact hs
      | some o =>
        cases o with
        | none => exact absurd rfl (hf.deleted 0 hJ).1
        | some l =>
          rw [Merged, Overlay.resolve_cons_of_some hJ]
          rfl
    · rw [← hA.block h, isContainBlock_iff]
      exact ⟨h0, .inr hs⟩
  refine ⟨hnamed, hkept, fun h l tx hl htx => ?_⟩
  by_contra hno
  push Not at hno
  -- the upper cache finds nothing, the lower one finds `k`
  have hc : c.findTx tx = none :=
    TxHashMap.findTx_eq_none.mpr fun k l' hl' htx' => hno k l' (hf.listed hl' htx') htx'
  obtain ⟨k, hk⟩ : ∃ k, base.findTx tx = some k := by
    cases hb : base.findTx tx with
    | some k => exact ⟨k, rfl⟩
    | none => exact absurd htx (TxHashMap.findTx_eq_none.mp hb h l hl)
  obtain ⟨m, hm, htxm⟩ := TxHashMap.findTx_eq_some hk
  have hbk : base.blocks k = some m :=
    TxHashMap.blocks_eq_some.mpr ⟨hm, List.ne_nil_of_mem htxm⟩
  obtain ⟨m', hm'⟩ := Option.isSome_iff_exists.mp (hkept k (by rw [hbk]; rfl))
  obtain ⟨hk0, hne'⟩ := hnamed k m' hm'
  have hres : isContainTx [c, base] tx = if c.isInMap k then k else 0 := by
    unfold isContainTx
    rw [hc, isContainTx_single, hk]
    rfl
  obtain hJ | ⟨hJ, hb⟩ := resolve_eq_some.mp hm'
  · -- the upper cache lists `k` without the transaction, and `k` is returned
    have hin : c.isInMap k = true := by
      rw [TxHashMap.isInMap_iff, hf.blocks_iff.mpr ⟨hJ, hne'⟩]
      exact ⟨hk0, rfl⟩
    rw [if_pos hin] at hres
    obtain ⟨l', hl', htx'⟩ := hA.found tx (by rw [hres]; exact hk0)
    rw [hres, hm'] at hl'
    cases hl'
    exact hno k m' hJ htx'
  · -- only the lower cache has `k`, and nothing is returned
    have hout : ¬ c.isInMap k = true := by
      rw [TxHashMap.isInMap_iff, TxHashMap.blocks, hf.untouched k hJ]
      simp
    rw [if_neg hout] at hres
    rw [hb] at hbk
    cases hbk
    exact hA.absent tx hres k m hm' htxm

/-- The two caches are one map exactly when the lower one has nothing of its own to say: its
blocks are not deleted above, and what they list is listed above too. -/
theorem layered_iff (Hash : Bytes → Uint256) (base : TxHashMap) (calls : List Call) :
    Layered Hash base calls ↔ BaseRepeated Hash base calls := by
  obtain ⟨c, hchild, hf⟩ := child_follows Hash base calls
  unfold Layered
  rw [hchild]
  constructor
  · rintro ⟨hA, hF⟩
    exact baseRepeated_of_layered hf hA hF
  · intro hB
    exact ⟨hB.answers hf, hB.flushed hf⟩

end

open Sample in
/-- The cache of the tip after one block. -/
def sampleTip : TxHashMap :=
  let b : CBlock := { CBlockHeader.null with vptx := [.reward ⟨1, .pubKey (pubKey 5), 1000, 0⟩] }
  (addBlockToCache crypto.Hash b [∅]).headD ∅

/-- A new cache over the tip does not find the transaction of the tip's block. -/
theorem tip_transaction_lost : ¬ Layered Sample.crypto.Hash sampleTip [] := by
  rintro ⟨hA, -⟩
  have hlost : (sampleTip.entries.any fun e =>
      e.2.any fun tx => isContainTx [∅, sampleTip] tx == 0) = true := by decide +kernel
  simp only [List.any_eq_true, beq_iff_eq] at hlost
  obtain ⟨e, he, tx, htx, hz⟩ := hlost
  have hblock : sampleTip.blocks e.1 = some e.2 :=
    TxHashMap.blocks_eq_some.mpr ⟨AList.mem_lookup_iff.mpr he, List.ne_nil_of_mem htx⟩
  have hmerged (base : TxHashMap) : Merged Sample.crypto.Hash base [] e.1 = base.blocks e.1 := rfl
  exact hA.absent tx hz e.1 e.2 ((hmerged sampleTip).trans hblock) htx

/-! ## One cache over the database -/

/-- What the cache of the tip holds, without the blocks that were taken out. -/
def flat (m : TxHashMap) : CTransactionDBCache :=
  m.entries.foldl (fun c item => c.putHashes item.1 item.2) .empty

section
variable {m : TxHashMap} {k tx : Uint256} {l : List Uint256}

theorem flat_lookup : (flat m).mapTxHashByBlockHash.lookup k = m.blocks k := by
  have hloop := Overlay.foldl_keyed (fun (c : CTransactionDBCache) item => c.putHashes item.1 item.2)
    (fun c k => c.mapTxHashByBlockHash.lookup k) (fun _ l _ => liveHashes l)
    (fun c item j => Store.lookup_put c.mapTxHashByBlockHash item.1 j (liveHashes item.2))
    m .empty k
  refine hloop.trans ?_
  unfold TxHashMap.blocks
  cases m.lookup k with
  | none => exact Finmap.lookup_empty k
  | some l => rfl

theorem flat_insert : flat (m.insert k l) = (flat m).putHashes k l := by
  refine CTransactionDBCache.ext (Finmap.ext_lookup fun j => ?_)
  refine Eq.trans ?_ (Store.lookup_put (flat m).mapTxHashByBlockHash k j (liveHashes l)).symm
  rw [flat_lookup, flat_lookup]
  unfold TxHashMap.blocks
  by_cases hj : j = k
  · subst hj
    rw [if_pos rfl, AList.lookup_insert]
    rfl
  · rw [if_neg hj, AList.lookup_insert_ne hj]

theorem isContainBlock_flat : isContainBlock [m] k = (flat m).isInMap k := by
  rw [Bool.eq_iff_iff]
  unfold isContainBlock isContainBlock CTransactionDBCache.isInMap
  rw [Bool.or_false, TxHashMap.isInMap_iff, Bool.and_eq_true, bne_iff_ne, flat_lookup]

theorem addBlockToCache_flat (Hash : Bytes → Uint256) (b : CBlock) :
    (addBlockToCache Hash b [m]).map flat = [(flat m).addBlockToCache Hash b] := by
  show [flat (m.insert _ _)] = _
  rw [flat_insert]
  rfl

theorem deleteBlockFromCache_flat (Hash : Bytes → Uint256) (b : CBlock) :
    (deleteBlockFromCache Hash b [m]).map (List.map flat) =
      ((flat m).deleteBlockFromCache Hash b).map fun c => [c] := by
  show (if isContainBlock [m] (b.getHash Hash) = true then
    some (m.insert (b.getHash Hash) [] :: []) else none).map (List.map flat) = _
  unfold CTransactionDBCache.deleteBlockFromCache
  rw [isContainBlock_flat]
  by_cases h : (flat m).isInMap (b.getHash Hash) = true
  · rw [if_pos h, if_pos h, Option.map_some, List.map_cons, List.map_nil, flat_insert]
    rfl
  · rw [if_neg h, if_neg h]
    rfl

/-- The block found is the null one only if that is the first to list the transaction. -/
theorem isContainTx_flat : isContainTx [m] tx ≠ 0 ↔ (flat m).isContainTx tx = true := by
  have hlists (j : Uint256) : tx ∈ ((flat m).mapTxHashByBlockHash.lookup j).getD [] ↔
      j ∈ m.listing tx := by
    rw [flat_lookup, TxHashMap.mem_listing]
    cases hb : m.blocks j with
    | some l => simp [(TxHashMap.blocks_eq_some.mp hb).1]
    | none =>
      rw [Option.getD_none]
      refine iff_of_false List.not_mem_nil ?_
      rintro ⟨l, hl, htx⟩
      rw [TxHashMap.blocks_eq_some.mpr ⟨hl, List.ne_nil_of_mem htx⟩] at hb
      cases hb
  rw [isContainTx_single]
  unfold CTransactionDBCache.isContainTx
  rw [Bool.and_eq_true, Store.any_iff]
  simp only [Bool.and_eq_true, bne_iff_ne, List.contains_iff_mem, Bool.not_eq_true',
    Bool.eq_false_iff, ne_eq, hlists]
  cases hfind : m.findTx tx with
  | none =>
    rw [TxHashMap.findTx_eq_none] at hfind
    simp only [Option.getD_none, not_true_eq_false, false_iff]
    rintro ⟨⟨k, l, hl, -, htx⟩, -⟩
    rw [flat_lookup] at hl
    exact hfind k l (TxHashMap.blocks_eq_some.mp hl).1 htx
  | some k =>
    rw [Option.getD_some]
    constructor
    · intro hk
      obtain ⟨l, hl, htx⟩ := TxHashMap.findTx_eq_some hfind
      refine ⟨⟨k, l, ?_, hk, htx⟩, ?_⟩
      · rw [flat_lookup]
        exact TxHashMap.blocks_eq_some.mpr ⟨hl, List.ne_nil_of_mem htx⟩
      · -- the null hash would come first
        intro h0
        have hle := List.le_of_mem_argmin h0 hfind
        exact hk (TxHashMap.eq_zero_of_write_le hle)
    · rintro ⟨-, h0⟩ rfl
      exact h0 (List.argmin_mem hfind)

end

end TxCacheStack

end Dacrs
