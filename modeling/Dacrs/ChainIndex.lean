import Dacrs.AcceptBlock

/-!
# The in-memory chain

`CChain`: a vector of pointers by height.  `SetTip` stops at the first equal slot, which is right
because the slots below a slot always hold its ancestors (`Holds`).
-/

open Codec (Bytes)

namespace Dacrs

/-- `CChain`; a `NULL` slot is `[]`. -/
structure CChain where
  m_vcChain : List PBlockIndex
deriving DecidableEq

namespace CChain

/-! ## Access -/

/-- `Genesis`, `NULL` if the chain is empty. -/
def genesis (c : CChain) : PBlockIndex := c.m_vcChain.head?.getD []

/-- `Tip`, `NULL` if the chain is empty. -/
def tip (c : CChain) : PBlockIndex := c.m_vcChain.getLast?.getD []

/-- `operator[]`: `NULL` where no such height exists. -/
def atHeight (c : CChain) (nHeight : ℤ) : PBlockIndex :=
  if nHeight < 0 ∨ c.m_vcChain.length ≤ nHeight then [] else c.m_vcChain.getD nHeight.toNat []

/-- `Contains`, of a block. -/
def contains (c : CChain) (pIndex : PBlockIndex) : Bool :=
  match pIndex with
  | [] => false
  | p :: rest => c.atHeight p.nHeight == p :: rest

/-! ## SetTip -/

/-- `m_vcChain.resize`. -/
def resize (vcChain : List PBlockIndex) (n : ℕ) : List PBlockIndex :=
  vcChain.take n ++ List.replicate (n - vcChain.length) []

/-- The loop of `SetTip`; `none` is an access behind the end of the vector. -/
def setTipGo : List PBlockIndex → PBlockIndex → Option (List PBlockIndex × PBlockIndex)
  | vcChain, [] => some (vcChain, [])
  | vcChain, p :: pprev => do
    let slot ← vcChain[p.nHeight.toNat]?
    if slot = p :: pprev then some (vcChain, p :: pprev)
    else setTipGo (vcChain.set p.nHeight.toNat (p :: pprev)) pprev

/-- `SetTip`: the chain and the forking point. -/
def setTip (c : CChain) (pIndex : PBlockIndex) : Option (CChain × PBlockIndex) :=
  match pIndex with
  | [] => some (⟨[]⟩, [])
  | p :: pprev => do
    let (vcChain, fork) ← setTipGo (resize c.m_vcChain (p.nHeight + 1).toNat) (p :: pprev)
    return (⟨vcChain⟩, fork)

/-- The chain after `SetTip` of one tip after the other, from an empty chain. -/
def setTips (tips : List PBlockIndex) : Option CChain :=
  tips.foldlM (fun c pIndex => (c.setTip pIndex).map Prod.fst) ⟨[]⟩

end CChain

/-! ## The tree of the index -/

/-- The entry of the map has its hash, stands one above its predecessor, and the predecessor is
in the map. -/
structure Linked (mapBlockIndex : BlockMap) (h : Uint256) (p : CBlockIndex) (pprev : PBlockIndex) :
    Prop where
  hash : p.hashBlock = h
  height : p.nHeight = pprev.length
  prev : pprev ≠ [] → mapBlockIndex (PBlockIndex.hash pprev) = some pprev

/-- A tree of blocks over one genesis block. -/
structure IndexTree (mapBlockIndex : BlockMap) : Prop where
  linked : ∀ h l, mapBlockIndex h = some l → ∃ p pprev, l = p :: pprev ∧ Linked mapBlockIndex h p pprev
  genesis : ∀ h h' l l', mapBlockIndex h = some l → mapBlockIndex h' = some l' →
    l.length = 1 → l'.length = 1 → l = l'

/-- A block of the tree, under its hash. -/
def Known (mapBlockIndex : BlockMap) (l : PBlockIndex) : Prop :=
  mapBlockIndex (PBlockIndex.hash l) = some l

instance decidableKnown (mapBlockIndex : BlockMap) (l : PBlockIndex) : Decidable (Known mapBlockIndex l) :=
  inferInstanceAs (Decidable (mapBlockIndex (PBlockIndex.hash l) = some l))

/-- Heights count from genesis. -/
def HeightsFit : PBlockIndex → Prop
  | [] => True
  | p :: pprev => p.nHeight = pprev.length ∧ HeightsFit pprev

/-- The ancestor at a height; `NULL` if there is none. -/
def ancestorAt : PBlockIndex → ℤ → PBlockIndex
  | [], _ => []
  | p :: pprev, h => if p.nHeight = h then p :: pprev else ancestorAt pprev h

section
variable {mapBlockIndex : BlockMap} {l s : PBlockIndex}

theorem Known.ne_nil (tree : IndexTree mapBlockIndex) (hl : Known mapBlockIndex l) : l ≠ [] := by
  obtain ⟨p, pprev, rfl, -⟩ := tree.linked _ _ hl
  exact List.cons_ne_nil p pprev

/-- The ancestors of a block of the tree are in the tree. -/
theorem Known.suffix (tree : IndexTree mapBlockIndex) (hl : Known mapBlockIndex l) (hs : s ≠ [])
    (hsuffix : s <:+ l) : Known mapBlockIndex s := by
  induction l with
  | nil => exact absurd (List.suffix_nil.mp hsuffix) hs
  | cons p pprev ih =>
    rcases List.suffix_cons_iff.mp hsuffix with rfl | hrest
    · exact hl
    · obtain ⟨q, qprev, heq, hlinked⟩ := tree.linked _ _ hl
      obtain ⟨rfl, rfl⟩ := List.cons.inj heq
      have hne : pprev ≠ [] := by
        intro hnil
        rw [hnil] at hrest
        exact hs (List.suffix_nil.mp hrest)
      exact ih (hlinked.prev hne) hrest

theorem Known.heightsFit (tree : IndexTree mapBlockIndex) (hl : Known mapBlockIndex l) :
    HeightsFit l := by
  induction l with
  | nil => trivial
  | cons p pprev ih =>
    obtain ⟨q, qprev, heq, hlinked⟩ := tree.linked _ _ hl
    obtain ⟨rfl, rfl⟩ := List.cons.inj heq
    refine ⟨hlinked.height, ?_⟩
    by_cases hne : pprev = []
    · rw [hne]
      trivial
    · exact ih (hlinked.prev hne)

theorem HeightsFit.suffix (hl : HeightsFit l) (hsuffix : s <:+ l) : HeightsFit s := by
  induction l with
  | nil =>
    rw [List.suffix_nil.mp hsuffix]
    trivial
  | cons p pprev ih =>
    rcases List.suffix_cons_iff.mp hsuffix with rfl | hrest
    · exact hl
    · exact ih hl.2 hrest

end

/-- An accepted block was not in the map. -/
theorem acceptBlock_new {cfg : SysCfg} {cr : Crypto} {env : AcceptEnv} {mapBlockIndex : BlockMap}
    {b : CBlock} {l : PBlockIndex} (ok : acceptBlock cfg cr env mapBlockIndex b = .ok l) :
    mapBlockIndex (b.getHash cr.Hash) = none := by
  rw [acceptBlock, Except.bind_eq_ok] at ok
  obtain ⟨_, hnew, -⟩ := ok
  exact (Exec.require_eq_ok (Exec.fails_error _)).mp hnew

/-- A block without a predecessor is the genesis block. -/
theorem BlockTree.genesis_hash {cfg : SysCfg} {cr : Crypto} {mapBlockIndex : BlockMap}
    (tree : BlockTree cfg cr mapBlockIndex) {h : Uint256} {l : PBlockIndex}
    (hl : mapBlockIndex h = some l) (hone : l.length = 1) : h = cfg.cHashGenesisBlock := by
  induction tree with
  | empty => cases hl
  | accept _ ok ih =>
    rename_i m env b l' _
    dsimp only at hl
    by_cases hh : h = b.getHash cr.Hash
    · rw [if_pos hh] at hl
      cases hl
      obtain ⟨_, -, -, rfl, hprev⟩ := acceptBlock_ok ok
      by_contra hne
      rw [hh] at hne
      have hnil : (m b.cHashPrevBlock).getD [] = [] := by simpa using hone
      exact (hprev hne).1 hnil
    · rw [if_neg hh] at hl
      exact ih hl

/-- The maps that accepting blocks leads to are such trees. -/
theorem BlockTree.indexTree {cfg : SysCfg} {cr : Crypto} {mapBlockIndex : BlockMap}
    (tree : BlockTree cfg cr mapBlockIndex) : IndexTree mapBlockIndex := by
  have hgenesis : ∀ h h' l l', mapBlockIndex h = some l → mapBlockIndex h' = some l' →
      l.length = 1 → l'.length = 1 → l = l' := by
    intro h h' l l' hl hl' hone hone'
    rw [tree.genesis_hash hl hone, ← tree.genesis_hash hl' hone', hl'] at hl
    exact (Option.some_inj.mp hl).symm
  refine ⟨?_, hgenesis⟩
  clear hgenesis
  induction tree with
  | empty =>
    intro h l hl
    cases hl
  | accept tree ok ih =>
    rename_i m env b l' 
    have hnew := acceptBlock_new ok
    -- what was linked stays linked: no key is overwritten
    have hkeep : ∀ k t, m k = some t → (if k = b.getHash cr.Hash then some l' else m k) = some t := by
      intro k t hk
      rw [if_neg, hk]
      intro hkb
      rw [hkb, hnew] at hk
      cases hk
    intro h l hl
    dsimp only at hl
    by_cases hh : h = b.getHash cr.Hash
    · rw [if_pos hh] at hl
      cases hl
      obtain ⟨pos, -, -, hl', -⟩ := acceptBlock_ok ok
      refine ⟨_, _, hl', hh.symm, ?_, ?_⟩
      · show nextHeight ((m b.cHashPrevBlock).getD []) = _
        cases hprev : m b.cHashPrevBlock with
        | none => rfl
        | some prev =>
          obtain ⟨p, pprev, rfl, hlinked⟩ := ih _ _ hprev
          show p.nHeight + 1 = _
          rw [hlinked.height, Option.getD_some, List.length_cons]
          omega
      · intro hne
        apply hkeep
        cases hprev : m b.cHashPrevBlock with
        | none =>
          rw [hprev] at hne
          exact absurd rfl hne
        | some prev =>
          obtain ⟨p, pprev, rfl, hlinked⟩ := ih _ _ hprev
          show m p.hashBlock = _
          rw [hlinked.hash, hprev]
          rfl
    · rw [if_neg hh] at hl
      obtain ⟨p, pprev, rfl, hlinked⟩ := ih h l hl
      exact ⟨p, pprev, rfl, hlinked.hash, hlinked.height, fun hne => hkeep _ _ (hlinked.prev hne)⟩

section
variable {l s : PBlockIndex} {k : ℕ}

theorem ancestorAt_suffix (l : PBlockIndex) (h : ℤ) : ancestorAt l h <:+ l := by
  induction l with
  | nil => exact List.suffix_refl _
  | cons p pprev ih =>
    unfold ancestorAt
    split
    · exact List.suffix_refl _
    · exact ih.trans (List.suffix_cons p pprev)

/-- Where heights count from genesis there is one ancestor at each height up to the block's. -/
theorem length_ancestorAt (hl : HeightsFit l) (hk : k < l.length) :
    (ancestorAt l k).length = k + 1 := by
  induction l with
  | nil => simp at hk
  | cons p pprev ih =>
    have hheight := hl.1
    rw [List.length_cons] at hk
    unfold ancestorAt
    split
    · rw [List.length_cons]
      omega
    · exact ih hl.2 (by omega)

/-- Two ancestors of one block at one height are the same. -/
theorem suffix_unique {t : PBlockIndex} (hs : s <:+ l) (ht : t <:+ l) (h : s.length = t.length) :
    s = t := by
  have hst : s <:+ t := List.suffix_of_suffix_length_le hs ht (by omega)
  exact hst.eq_of_length h

theorem ancestorAt_eq (hl : HeightsFit l) (hs : s <:+ l) (hlen : s.length = k + 1) :
    ancestorAt l k = s := by
  have hle := hs.length_le
  apply suffix_unique (ancestorAt_suffix l k) hs
  rw [length_ancestorAt hl (by omega), hlen]

/-- An ancestor has the block's ancestors. -/
theorem ancestorAt_of_suffix (hl : HeightsFit l) (hs : s <:+ l) (hk : k < s.length) :
    ancestorAt l k = ancestorAt s k :=
  ancestorAt_eq hl ((ancestorAt_suffix s k).trans hs) (length_ancestorAt (hl.suffix hs) hk)

end

/-! ## What the vector holds -/

/-- At each height up to the tip's, the tip's ancestor, and nothing beyond. -/
structure CChain.Holds (c : CChain) (tip : PBlockIndex) : Prop where
  length : c.m_vcChain.length = tip.length
  slot : ∀ k, k < tip.length → c.m_vcChain[k]? = some (ancestorAt tip k)

namespace CChain

/-- In the middle of `SetTip`: the slots above `s` are written, those below are as in the chain of
the old tip, or `NULL`. -/
structure Rewriting (old tip s : PBlockIndex) (vcChain : List PBlockIndex) : Prop where
  length : vcChain.length = tip.length
  above : ∀ k, s.length ≤ k → k < tip.length → vcChain[k]? = some (ancestorAt tip k)
  below : ∀ k, k < s.length → vcChain[k]? = some (if k < old.length then ancestorAt old k else [])

section
variable {old tip s : PBlockIndex} {vcChain : List PBlockIndex}

/-- The slot at hand is an ancestor of the tip: so are all below it. -/
theorem Rewriting.stop {p : CBlockIndex} {pprev : PBlockIndex} (hold : HeightsFit old)
    (htip : HeightsFit tip) (hs : p :: pprev <:+ tip) (h : Rewriting old tip (p :: pprev) vcChain)
    (hslot : vcChain[pprev.length]? = some (p :: pprev)) : Holds ⟨vcChain⟩ tip := by
  refine ⟨h.length, ?_⟩
  intro k hk
  by_cases habove : (p :: pprev).length ≤ k
  · exact h.above k habove hk
  · have hold_slot := h.below pprev.length (by rw [List.length_cons]; omega)
    rw [hslot] at hold_slot
    have heq := Option.some_inj.mp hold_slot
    by_cases hin : pprev.length < old.length
    · rw [if_pos hin] at heq
      have hsuffix : p :: pprev <:+ old := by
        rw [heq]
        exact ancestorAt_suffix old _
      have hle := hsuffix.length_le
      rw [h.below k (by omega), if_pos (by omega), ancestorAt_of_suffix hold hsuffix (by omega),
        ancestorAt_of_suffix htip hs (by omega)]
    · rw [if_neg hin] at heq
      cases heq

/-- The slot at hand is written, and the predecessor comes next. -/
theorem Rewriting.write {p : CBlockIndex} {pprev : PBlockIndex} (htip : HeightsFit tip)
    (hs : p :: pprev <:+ tip) (h : Rewriting old tip (p :: pprev) vcChain) :
    Rewriting old tip pprev (vcChain.set pprev.length (p :: pprev)) := by
  have hle := hs.length_le
  have hlen := h.length
  rw [List.length_cons] at hle
  refine ⟨by rw [List.length_set, hlen], ?_, ?_⟩
  · intro k hk hklt
    by_cases hhere : pprev.length = k
    · subst hhere
      rw [List.getElem?_set_self (by omega), ancestorAt_eq htip hs (List.length_cons)]
    · rw [List.getElem?_set_ne hhere, h.above k (by rw [List.length_cons]; omega) hklt]
  · intro k hk
    rw [List.getElem?_set_ne (by omega), h.below k (by rw [List.length_cons]; omega)]

theorem setTipGo_spec (hold : HeightsFit old) (htip : HeightsFit tip) (hs : s <:+ tip)
    (h : Rewriting old tip s vcChain) :
    ∃ vcChain' fork, setTipGo vcChain s = some (vcChain', fork) ∧ Holds ⟨vcChain'⟩ tip := by
  induction s generalizing vcChain with
  | nil =>
    refine ⟨vcChain, [], rfl, h.length, ?_⟩
    intro k hk
    exact h.above k (Nat.zero_le k) hk
  | cons p pprev ih =>
    have hheight : p.nHeight.toNat = pprev.length := by
      have hp := (htip.suffix hs).1
      omega
    have hin := h.below pprev.length (by rw [List.length_cons]; omega)
    unfold setTipGo
    rw [hheight, hin, Option.bind_eq_bind, Option.bind_some]
    by_cases heq : (if pprev.length < old.length then ancestorAt old pprev.length else [])
        = p :: pprev
    · rw [heq] at hin
      rw [if_pos heq]
      exact ⟨vcChain, _, rfl, h.stop hold htip hs hin⟩
    · rw [if_neg heq]
      exact ih ((List.suffix_cons p pprev).trans hs) (h.write htip hs)

theorem resize_spec (c : CChain) (hc : c.Holds old) (tip : PBlockIndex) :
    Rewriting old tip tip (resize c.m_vcChain tip.length) := by
  have hlen := hc.length
  unfold resize
  refine ⟨?_, fun k hk hklt => by omega, ?_⟩
  · rw [List.length_append, List.length_take, List.length_replicate]
    omega
  · intro k hk
    by_cases hin : k < old.length
    · rw [List.getElem?_append_left (by rw [List.length_take]; omega), List.getElem?_take_of_lt hk,
        hc.slot k hin, if_pos hin]
    · rw [List.getElem?_append_right (by rw [List.length_take]; omega), List.getElem?_replicate,
        if_pos (by rw [List.length_take]; omega), if_neg hin]

/-- `SetTip` stays inside the vector and leaves the ancestors of the new tip there. -/
theorem setTip_spec {c : CChain} (hc : c.Holds old) (hold : HeightsFit old) (htip : HeightsFit tip) :
    ∃ c' fork, c.setTip tip = some (c', fork) ∧ c'.Holds tip := by
  cases tip with
  | nil =>
    refine ⟨⟨[]⟩, [], rfl, rfl, ?_⟩
    intro k hk
    simp at hk
  | cons p pprev =>
    have hheight : (p.nHeight + 1).toNat = (p :: pprev).length := by
      have hp := htip.1
      rw [List.length_cons]
      omega
    obtain ⟨vcChain', fork, hgo, hholds⟩ := setTipGo_spec hold htip (List.suffix_refl _)
      (resize_spec c hc (p :: pprev))
    refine ⟨⟨vcChain'⟩, fork, ?_, hholds⟩
    unfold setTip
    dsimp only
    rw [hheight, hgo]
    rfl

/-- Whatever tips are set one after the other, the vector holds the chain of the last one. -/
theorem setTips_spec (tips : List PBlockIndex) (htips : ∀ t ∈ tips, HeightsFit t) :
    ∃ c, setTips tips = some c ∧ c.Holds (tips.getLast?.getD []) := by
  have hfit : ∀ ts : List PBlockIndex, (∀ t ∈ ts, HeightsFit t) → HeightsFit (ts.getLast?.getD []) := by
    intro ts hts
    cases hlast : ts.getLast? with
    | none => trivial
    | some t => exact hts t (List.mem_of_getLast? hlast)
  induction tips using List.reverseRecOn with
  | nil => exact ⟨⟨[]⟩, rfl, rfl, fun k hk => by simp at hk⟩
  | append_singleton tips t ih =>
    have htips' : ∀ u ∈ tips, HeightsFit u := by
      intro u hu
      exact htips u (List.mem_append_left _ hu)
    obtain ⟨c, hc, hholds⟩ := ih htips'
    obtain ⟨c', fork, hset, hholds'⟩ := setTip_spec hholds (hfit tips htips')
      (htips t (by simp))
    refine ⟨c', ?_, ?_⟩
    · unfold setTips at hc ⊢
      rw [List.foldlM_append, hc]
      show ((c.setTip t).map Prod.fst).bind _ = _
      rw [hset]
      rfl
    · rw [List.getLast?_append]
      exact hholds'

end

end CChain

end Dacrs
