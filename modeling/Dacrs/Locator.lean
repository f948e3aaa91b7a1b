import Dacrs.ChainIndex

/-!
# Locators

`GetLocator` steps back over ancestors, one height at a time and then ever further, down to
genesis; `FindFork` finds the highest of them that the chain contains.  Both rest on what the
vector holds after any sequence of `SetTip` calls.
-/

open Codec (Bytes)

namespace Dacrs

namespace CChain

/-! ## GetLocator and FindFork -/

section
variable (c : CChain)

/-- "while (pIndex->m_nHeight > nHeight && !Contains(pIndex)) pIndex = pIndex->m_pPrevBlockIndex". -/
def walkBack (nHeight : ℤ) : PBlockIndex → PBlockIndex
  | [] => []
  | p :: pprev =>
    if nHeight < p.nHeight ∧ c.contains (p :: pprev) = false then walkBack nHeight pprev
    else p :: pprev

/-- The block whose hash comes next: `nStep` heights back, or genesis. -/
def stepBack (nStep : ℤ) (p : CBlockIndex) (pprev : PBlockIndex) : PBlockIndex :=
  let nHeight := max (p.nHeight - nStep) 0
  match c.walkBack nHeight (p :: pprev) with
  | [] => []
  | q :: qprev => if nHeight < q.nHeight then c.atHeight nHeight else q :: qprev

/-- `nStep *= 2` from the eleventh turn on; `none` when the `int` overflows. -/
def nextStep (nStep : ℤ) (vcHave : List Uint256) : Option ℤ :=
  if 10 < vcHave.length then
    if nStep * 2 < 2 ^ 31 then some (nStep * 2) else none
  else some nStep

/-- The loop of `GetLocator`; `none` when it has not ended after so many turns or `nStep` overflows. -/
def getLocatorGo : ℕ → ℤ → List Uint256 → PBlockIndex → Option (List Uint256)
  | 0, _, _, _ => none
  | _ + 1, _, vcHave, [] => some vcHave
  | k + 1, nStep, vcHave, p :: pprev =>
    let vcHave := vcHave ++ [p.hashBlock]
    if p.nHeight = 0 then some vcHave
    else
      match nextStep nStep vcHave with
      | none => none
      | some next => getLocatorGo k next vcHave (c.stepBack nStep p pprev)

/-- `GetLocator`, with a turn for each height and one more. -/
def getLocator (pIndex : PBlockIndex) : Option (List Uint256) :=
  let start := if pIndex = [] then c.tip else pIndex
  c.getLocatorGo (start.length + 1) 1 [] start

/-- `FindFork`. -/
def findFork (mapBlockIndex : BlockMap) : List Uint256 → PBlockIndex
  | [] => c.genesis
  | cHash :: rest =>
    match mapBlockIndex cHash with
    | none => findFork mapBlockIndex rest
    | some pindex => if c.contains pindex then pindex else findFork mapBlockIndex rest

end

/-! ## Reading the vector -/

section
variable {c : CChain} {tip l : PBlockIndex}

theorem ancestorAt_eq_nil (hl : HeightsFit l) {h : ℤ} (hout : h < 0 ∨ l.length ≤ h) :
    ancestorAt l h = [] := by
  induction l with
  | nil => rfl
  | cons p pprev ih =>
    have hheight := hl.1
    rw [List.length_cons] at hout
    unfold ancestorAt
    rw [if_neg (by omega)]
    exact ih hl.2 (by omega)

theorem Holds.atHeight (hc : c.Holds tip) (htip : HeightsFit tip) (h : ℤ) :
    c.atHeight h = ancestorAt tip h := by
  have hlen := hc.length
  unfold CChain.atHeight
  split
  · rw [ancestorAt_eq_nil htip (by omega)]
  · have hslot := hc.slot h.toNat (by omega)
    have hnat : ((h.toNat : ℕ) : ℤ) = h := by omega
    rw [List.getD_eq_getElem?_getD, hslot, hnat]
    rfl

/-- The chain contains the ancestors of its tip. -/
theorem Holds.contains_iff (hc : c.Holds tip) (htip : HeightsFit tip) (hl : HeightsFit l)
    (hne : l ≠ []) : c.contains l = true ↔ l <:+ tip := by
  cases l with
  | nil => exact absurd rfl hne
  | cons p pprev =>
    unfold contains
    dsimp only
    rw [hc.atHeight htip, hl.1, beq_iff_eq]
    constructor
    · intro heq
      rw [← heq]
      exact ancestorAt_suffix tip _
    · intro hsuffix
      exact ancestorAt_eq htip hsuffix List.length_cons

theorem Holds.tip_eq (hc : c.Holds tip) (htip : HeightsFit tip) : c.tip = tip := by
  unfold CChain.tip
  rw [List.getLast?_eq_getElem?, hc.length]
  by_cases hne : tip = []
  · subst hne
    rw [List.length_eq_zero_iff.mp hc.length]
    rfl
  · have hpos := List.length_pos_iff.mpr hne
    rw [hc.slot _ (by omega), Option.getD_some]
    exact ancestorAt_eq htip (List.suffix_refl _) (by omega)

/-! ## One step back -/

/-- The walk ends at an ancestor that is low enough or in the chain. -/
theorem walkBack_spec (c : CChain) {h : ℤ} (hh : 0 ≤ h) (hl : HeightsFit l) (hlen : h < l.length) :
    ∃ q qprev, c.walkBack h l = q :: qprev ∧ q :: qprev <:+ l ∧ h ≤ q.nHeight ∧
      (h < q.nHeight → c.contains (q :: qprev) = true) := by
  induction l with
  | nil =>
    rw [List.length_nil] at hlen
    omega
  | cons p pprev ih =>
    have hheight := hl.1
    rw [List.length_cons] at hlen
    unfold walkBack
    by_cases hwalk : h < p.nHeight ∧ c.contains (p :: pprev) = false
    · obtain ⟨q, qprev, hwalked, hsuffix, hlow, hin⟩ := ih hl.2 (by omega)
      rw [if_pos hwalk]
      exact ⟨q, qprev, hwalked, hsuffix.trans (List.suffix_cons p pprev), hlow, hin⟩
    · rw [if_neg hwalk]
      refine ⟨p, pprev, rfl, List.suffix_refl _, by omega, ?_⟩
      intro hlt
      by_contra hout
      exact hwalk ⟨hlt, Bool.not_eq_true _ ▸ hout⟩

/-- A step leads to the ancestor `nStep` heights below, or to genesis. -/
theorem stepBack_spec (hc : c.Holds tip) (htip : HeightsFit tip) {nStep : ℤ} (hstep : 1 ≤ nStep)
    {p : CBlockIndex} {pprev : PBlockIndex} (hl : HeightsFit (p :: pprev)) :
    c.stepBack nStep p pprev <:+ p :: pprev ∧
      ((c.stepBack nStep p pprev).length : ℤ) = max (p.nHeight - nStep) 0 + 1 := by
  have hheight := hl.1
  set h := max (p.nHeight - nStep) 0 with hh
  obtain ⟨q, qprev, hwalk, hsuffix, hlow, hin⟩ := c.walkBack_spec (h := h) (by omega) hl (by
    rw [List.length_cons]
    omega)
  have hq := hl.suffix hsuffix
  have hqheight := hq.1
  unfold stepBack
  dsimp only
  rw [← hh, hwalk]
  dsimp only
  split
  · next hhigh =>
    -- the walk met the chain: the chain's entry at the height is an ancestor of the block met
    have hontip := (hc.contains_iff htip hq (List.cons_ne_nil q qprev)).mp (hin hhigh)
    obtain ⟨k, hk⟩ := Int.eq_ofNat_of_zero_le (show 0 ≤ h by omega)
    have hklt : k < (q :: qprev).length := by
      rw [List.length_cons]
      omega
    have hlen := length_ancestorAt hq hklt
    rw [hc.atHeight htip, hk, ancestorAt_of_suffix htip hontip hklt]
    refine ⟨(ancestorAt_suffix _ _).trans hsuffix, ?_⟩
    rw [hlen]
    omega
  · refine ⟨hsuffix, ?_⟩
    rw [List.length_cons]
    omega

/-! ## The locator -/

/-- Ancestors of a block, from the block itself strictly down to genesis. -/
structure Descends (start : PBlockIndex) (blocks : List PBlockIndex) : Prop where
  head : blocks.head? = some start
  ancestor : ∀ b ∈ blocks, b ≠ [] ∧ b <:+ start
  descending : blocks.Pairwise fun a b => nextHeight b < nextHeight a
  last : ∃ g, blocks.getLast? = some g ∧ nextHeight g = 1

theorem nextHeight_eq (hl : HeightsFit l) : nextHeight l = l.length := by
  cases l with
  | nil => rfl
  | cons p pprev =>
    show p.nHeight + 1 = _
    rw [hl.1, List.length_cons]
    omega

/-- Once over the heights of a lower block, then the block itself in front. -/
theorem Descends.cons {next : PBlockIndex} {blocks : List PBlockIndex} (hl : HeightsFit l)
    (hne : l ≠ []) (hsuffix : next <:+ l) (hlt : next.length < l.length)
    (h : Descends next blocks) : Descends l (l :: blocks) := by
  refine ⟨rfl, ?_, ?_, ?_⟩
  · intro b hb
    rcases List.mem_cons.mp hb with rfl | hb
    · exact ⟨hne, List.suffix_refl _⟩
    · exact ⟨(h.ancestor b hb).1, (h.ancestor b hb).2.trans hsuffix⟩
  · refine List.pairwise_cons.mpr ⟨?_, h.descending⟩
    intro b hb
    have hb' := (h.ancestor b hb).2
    have hle := hb'.length_le
    rw [nextHeight_eq hl, nextHeight_eq (hl.suffix (hb'.trans hsuffix))]
    omega
  · obtain ⟨g, hg, hone⟩ := h.last
    refine ⟨g, ?_, hone⟩
    rw [List.getLast?_cons, hg]
    rfl

/-- The turns that are left do not make `nStep` overflow. -/
def StepFits (nStep : ℤ) (vcHave : List Uint256) (l : PBlockIndex) : Prop :=
  nextHeight l = 1 ∨ nextHeight l + nStep ≤ 2 ^ 30 + 1 + (10 - vcHave.length : ℕ)

theorem getLocatorGo_spec (hc : c.Holds tip) (htip : HeightsFit tip) (k : ℕ) {nStep : ℤ}
    (hstep : 1 ≤ nStep) (vcHave : List Uint256) (hl : HeightsFit l) (hne : l ≠ [])
    (hfuel : l.length ≤ k) (hfits : StepFits nStep vcHave l) : ∃ blocks,
      c.getLocatorGo k nStep vcHave l = some (vcHave ++ blocks.map PBlockIndex.hash) ∧
      Descends l blocks := by
  induction k generalizing nStep vcHave l with
  | zero =>
    have hpos := List.length_pos_iff.mpr hne
    omega
  | succ k ih =>
    cases l with
    | nil => exact absurd rfl hne
    | cons p pprev =>
      unfold getLocatorGo
      dsimp only
      by_cases hgenesis : p.nHeight = 0
      · rw [if_pos hgenesis]
        refine ⟨[p :: pprev], rfl, rfl, ?_, List.pairwise_singleton _ _, ?_⟩
        · intro b hb
          rw [List.mem_singleton.mp hb]
          exact ⟨hne, List.suffix_refl _⟩
        · refine ⟨_, rfl, ?_⟩
          show p.nHeight + 1 = 1
          omega
      · rw [if_neg hgenesis]
        have hheight := hl.1
        obtain ⟨hsuffix, hlength⟩ := stepBack_spec hc htip hstep hl
        have hnext : c.stepBack nStep p pprev ≠ [] := by
          intro hnil
          rw [hnil, List.length_nil] at hlength
          omega
        have hlt : (c.stepBack nStep p pprev).length < (p :: pprev).length := by
          rw [List.length_cons]
          omega
        have hlater := nextHeight_eq (hl.suffix hsuffix)
        have hroom : p.nHeight + nStep ≤ 2 ^ 30 + (10 - vcHave.length : ℕ) := by
          have hhead : nextHeight (p :: pprev) = p.nHeight + 1 := rfl
          rcases hfits with hone | hroom
          · omega
          · omega
        obtain ⟨next, hdouble, hpos, hlaterFits⟩ : ∃ next,
            nextStep nStep (vcHave ++ [p.hashBlock]) = some next ∧ 1 ≤ next ∧
              StepFits next (vcHave ++ [p.hashBlock]) (c.stepBack nStep p pprev) := by
          unfold nextStep StepFits
          rw [List.length_append, List.length_singleton, hlater, hlength]
          by_cases hmany : 10 < vcHave.length + 1
          · rw [if_pos hmany, if_pos (by omega)]
            exact ⟨nStep * 2, rfl, by omega, by omega⟩
          · rw [if_neg hmany]
            exact ⟨nStep, rfl, hstep, by omega⟩
        rw [hdouble]
        obtain ⟨blocks, hgo, hdesc⟩ := ih hpos (vcHave ++ [p.hashBlock]) (hl.suffix hsuffix) hnext
          (by omega) hlaterFits
        refine ⟨(p :: pprev) :: blocks, ?_, hdesc.cons hl hne hsuffix hlt⟩
        dsimp only
        rw [hgo, List.append_assoc]
        rfl

/-- From high enough up the step doubles until it overflows. -/
theorem getLocatorGo_overflows (hc : c.Holds tip) (htip : HeightsFit tip) (k : ℕ) {j : ℕ} (hj : j ≤ 30)
    (vcHave : List Uint256) (hfirst : vcHave.length < 10 → j = 0) (hl : HeightsFit l)
    (hhigh : 2 ^ 30 + 1 + (10 - vcHave.length : ℕ) < nextHeight l + 2 ^ j) (hone : 1 < nextHeight l) :
    c.getLocatorGo k (2 ^ j) vcHave l = none := by
  induction k generalizing j vcHave l with
  | zero => rfl
  | succ k ih =>
    cases l with
    | nil =>
      have hzero : nextHeight [] = 0 := rfl
      omega
    | cons p pprev =>
      have hhead : nextHeight (p :: pprev) = p.nHeight + 1 := rfl
      have hpow : (1 : ℤ) ≤ 2 ^ j := one_le_pow₀ (by decide)
      obtain ⟨hsuffix, hlength⟩ := stepBack_spec hc htip hpow hl
      have hlater := nextHeight_eq (hl.suffix hsuffix)
      unfold getLocatorGo nextStep
      dsimp only
      rw [if_neg (by omega), List.length_append, List.length_singleton]
      by_cases hmany : 10 < vcHave.length + 1
      · rw [if_pos hmany]
        rcases eq_or_lt_of_le hj with rfl | hlt
        · rw [if_neg (by norm_num)]
        · have hle : (2 : ℤ) ^ j * 2 ≤ 2 ^ 30 := by
            rw [← pow_succ]
            exact pow_le_pow_right₀ (by decide) hlt
          rw [if_pos (by omega), ← pow_succ]
          refine ih (by omega) _ (fun h => ?_) (hl.suffix hsuffix) ?_ ?_
          · rw [List.length_append, List.length_singleton] at h
            omega
          · rw [List.length_append, List.length_singleton, hlater, hlength, pow_succ]
            omega
          · rw [hlater, hlength]
            omega
      · have hzero := hfirst (by omega)
        subst hzero
        rw [if_neg hmany]
        refine ih hj _ (fun _ => rfl) (hl.suffix hsuffix) ?_ ?_
        · rw [List.length_append, List.length_singleton, hlater, hlength]
          omega
        · rw [hlater, hlength]
          omega

section
variable (hc : c.Holds tip) (htip : HeightsFit tip) (q : PBlockIndex) (hq : HeightsFit q)
include hc htip hq

/-- The locator of a block, or of the chain's tip, that is not too high. -/
theorem getLocator_spec (hlow : nextHeight (if q = [] then tip else q) ≤ 2 ^ 30 + 10) :
    ∃ blocks, c.getLocator q = some (blocks.map PBlockIndex.hash) ∧
      ((if q = [] then tip else q) = [] → blocks = []) ∧
      ((if q = [] then tip else q) ≠ [] → Descends (if q = [] then tip else q) blocks) := by
  unfold getLocator
  rw [hc.tip_eq htip]
  set start := if q = [] then tip else q with hstart
  have hfit : HeightsFit start := by
    rw [hstart]
    split
    · exact htip
    · exact hq
  by_cases hnil : start = []
  · refine ⟨[], ?_, fun _ => rfl, fun hne => absurd hnil hne⟩
    dsimp only
    rw [hnil]
    rfl
  · have hfits : StepFits 1 [] start := by
      right
      rw [List.length_nil]
      omega
    obtain ⟨blocks, hgo, hdesc⟩ := getLocatorGo_spec hc htip (start.length + 1) (le_refl 1) [] hfit
      hnil (by omega) hfits
    exact ⟨blocks, hgo, fun h => absurd h hnil, fun _ => hdesc⟩

theorem getLocator_overflows (hhigh : 2 ^ 30 + 10 < nextHeight (if q = [] then tip else q)) :
    c.getLocator q = none := by
  unfold getLocator
  rw [hc.tip_eq htip]
  have hfit : HeightsFit (if q = [] then tip else q) := by
    split
    · exact htip
    · exact hq
  refine getLocatorGo_overflows hc htip _ (Nat.zero_le 30) [] (fun _ => rfl) hfit ?_ (by omega)
  rw [List.length_nil]
  omega

end

/-! ## The fork -/

/-- Where every known hash leads to the block it was taken from, the first one in the chain is
found. -/
theorem findFork_eq (c : CChain) (mapBlockIndex : BlockMap) (blocks : List PBlockIndex)
    (hsame : ∀ b ∈ blocks, ∀ l, mapBlockIndex (PBlockIndex.hash b) = some l → l = b) :
    c.findFork mapBlockIndex (blocks.map PBlockIndex.hash)
      = (blocks.find? fun b => decide (Known mapBlockIndex b) && c.contains b).getD c.genesis := by
  induction blocks with
  | nil => rfl
  | cons b blocks ih =>
    have hrest := ih fun b' hb' => hsame b' (List.mem_cons_of_mem b hb')
    have hb := hsame b List.mem_cons_self
    rw [List.map_cons, findFork, List.find?_cons]
    cases hknown : mapBlockIndex (PBlockIndex.hash b) with
    | none =>
      have hnot : decide (Known mapBlockIndex b) = false := by
        apply decide_eq_false
        intro h
        rw [Known, hknown] at h
        cases h
      rw [hnot, Bool.false_and]
      exact hrest
    | some l =>
      have hl := hb l hknown
      subst hl
      have hyes : decide (Known mapBlockIndex l) = true := decide_eq_true hknown
      rw [hyes, Bool.true_and]
      dsimp only
      cases c.contains l with
      | true => rfl
      | false => exact hrest

/-- The blocks of a locator are descending, so the first in the chain is the highest. -/
theorem find?_highest {blocks : List PBlockIndex} {good : PBlockIndex → Bool} {f : PBlockIndex}
    (hdesc : blocks.Pairwise fun a b => nextHeight b < nextHeight a)
    (hfind : blocks.find? good = some f) (b : PBlockIndex) (hb : b ∈ blocks) (hgood : good b = true) :
    nextHeight b ≤ nextHeight f := by
  induction blocks with
  | nil => cases hb
  | cons a blocks ih =>
    rw [List.pairwise_cons] at hdesc
    rw [List.find?_cons] at hfind
    cases ha : good a with
    | true =>
      rw [ha] at hfind
      cases hfind
      rcases List.mem_cons.mp hb with rfl | hb
      · exact le_refl _
      · exact le_of_lt (hdesc.1 b hb)
    | false =>
      rw [ha] at hfind
      rcases List.mem_cons.mp hb with rfl | hb
      · rw [ha] at hgood
        cases hgood
      · exact ih hdesc.2 hfind hb

end

end CChain

/-! ## The chain over its whole life -/

/-- A tip that can be set: none, or a block of the tree. -/
def TipOf (mapBlockIndex : BlockMap) (t : PBlockIndex) : Prop := t = [] ∨ Known mapBlockIndex t

theorem TipOf.heightsFit {mapBlockIndex : BlockMap} (tree : IndexTree mapBlockIndex) {t : PBlockIndex}
    (ht : TipOf mapBlockIndex t) : HeightsFit t := by
  rcases ht with rfl | ht
  · trivial
  · exact ht.heightsFit tree

theorem TipOf.last {mapBlockIndex : BlockMap} {tips : List PBlockIndex}
    (htips : ∀ t ∈ tips, TipOf mapBlockIndex t) : TipOf mapBlockIndex (tips.getLast?.getD []) := by
  cases hlast : tips.getLast? with
  | none => exact Or.inl rfl
  | some t => exact htips t (List.mem_of_getLast? hlast)

/-- The fork of a chain with a locator that was made in a larger tree. -/
theorem findFork_spec {m m' : BlockMap} (tree : IndexTree m) (tree' : IndexTree m')
    (part : ∀ h l, m h = some l → m' h = some l) {c : CChain} {tip start : PBlockIndex}
    (hc : c.Holds tip) (htip : TipOf m tip) (hstart : Known m' start) {blocks : List PBlockIndex}
    (hblocks : CChain.Descends start blocks) :
    (tip ≠ [] → c.contains (c.findFork m (blocks.map PBlockIndex.hash)) = true ∧
      PBlockIndex.hash (c.findFork m (blocks.map PBlockIndex.hash)) ∈ blocks.map PBlockIndex.hash) ∧
    ∀ h ∈ blocks.map PBlockIndex.hash, ∀ b, m h = some b → c.contains b = true →
      nextHeight b ≤ nextHeight (c.findFork m (blocks.map PBlockIndex.hash)) := by
  have hfit := htip.heightsFit tree
  have hknown' : ∀ b ∈ blocks, Known m' b := by
    intro b hb
    exact hstart.suffix tree' (hblocks.ancestor b hb).1 (hblocks.ancestor b hb).2
  have hsame : ∀ b ∈ blocks, ∀ l, m (PBlockIndex.hash b) = some l → l = b := by
    intro b hb l hl
    have hl' := part _ _ hl
    rw [hknown' b hb] at hl'
    exact (Option.some_inj.mp hl').symm
  rw [c.findFork_eq m blocks hsame]
  -- the genesis block at the end of the locator is that of the chain
  have hfound : tip ≠ [] → ∃ f, (blocks.find? fun b => decide (Known m b) && c.contains b) = some f := by
    intro hne
    have hknown : Known m tip := htip.resolve_left hne
    have hlen := length_ancestorAt hfit (k := 0) (List.length_pos_iff.mpr hne)
    have hg : Known m (ancestorAt tip (0 : ℕ)) := by
      apply hknown.suffix tree _ (ancestorAt_suffix tip _)
      intro hnil
      rw [hnil] at hlen
      simp at hlen
    obtain ⟨g, hlast, hone⟩ := hblocks.last
    have hgmem := List.mem_of_getLast? hlast
    have hgfit := (hknown' g hgmem).heightsFit tree'
    rw [CChain.nextHeight_eq hgfit] at hone
    have heq : g = ancestorAt tip (0 : ℕ) := by
      apply tree'.genesis _ _ _ _ (hknown' g hgmem) (part _ _ hg)
      · omega
      · exact hlen
    have hin : c.contains g = true := by
      rw [hc.contains_iff hfit hgfit (hblocks.ancestor g hgmem).1, heq]
      exact ancestorAt_suffix tip _
    have hsome : (blocks.find? fun b => decide (Known m b) && c.contains b).isSome = true := by
      rw [List.find?_isSome]
      refine ⟨g, hgmem, ?_⟩
      rw [hin, Bool.and_true]
      apply decide_eq_true
      rw [heq]
      exact hg
    exact Option.isSome_iff_exists.mp hsome
  constructor
  · intro hne
    obtain ⟨f, hf⟩ := hfound hne
    have hgood := List.find?_some hf
    rw [Bool.and_eq_true] at hgood
    rw [hf]
    exact ⟨hgood.2, List.mem_map_of_mem (List.mem_of_find?_eq_some hf)⟩
  · intro h hh b hb hin
    obtain ⟨b', hb', rfl⟩ := List.mem_map.mp hh
    have hbb := hsame b' hb' b hb
    subst hbb
    have hne : tip ≠ [] := by
      intro hnil
      subst hnil
      have hsuffix := (hc.contains_iff hfit ((hknown' b hb').heightsFit tree')
        (hblocks.ancestor b hb').1).mp hin
      exact (hblocks.ancestor b hb').1 (List.suffix_nil.mp hsuffix)
    obtain ⟨f, hf⟩ := hfound hne
    rw [hf]
    apply CChain.find?_highest hblocks.descending hf b hb'
    rw [hin, Bool.and_true]
    exact decide_eq_true hb

/-- After any sequence of `SetTip` calls on blocks of a tree: the vector holds the last tip's
ancestors by height and nothing beyond; a locator of any block up to height 2^30 + 9 lists ancestors strictly
down to genesis; and the fork with a locator that a chain made for any block of the tree, or of a larger
one, is the highest block of the chain that the locator names and the tree has. -/
theorem chain_structure (m m' : BlockMap) (tree : IndexTree m) (tree' : IndexTree m')
    (part : ∀ h l, m h = some l → m' h = some l) (tips : List PBlockIndex)
    (htips : ∀ t ∈ tips, TipOf m t) :
    ∃ c, CChain.setTips tips = some c ∧
      ((c.m_vcChain.length : ℤ) = nextHeight (tips.getLast?.getD []) ∧
        ∀ k, k < c.m_vcChain.length →
          c.m_vcChain[k]? = some (ancestorAt (tips.getLast?.getD []) k) ∧
            nextHeight (ancestorAt (tips.getLast?.getD []) k) = k + 1) ∧
      (∀ q, TipOf m q → nextHeight (if q = [] then tips.getLast?.getD [] else q) ≤ 2 ^ 30 + 10 →
        ∃ blocks, c.getLocator q = some (blocks.map PBlockIndex.hash) ∧
        ((if q = [] then tips.getLast?.getD [] else q) = [] → blocks = []) ∧
        ((if q = [] then tips.getLast?.getD [] else q) ≠ [] →
          CChain.Descends (if q = [] then tips.getLast?.getD [] else q) blocks)) ∧
      ∀ tips' c' q vcHave, (∀ t ∈ tips', TipOf m' t) → CChain.setTips tips' = some c' → TipOf m' q →
        c'.getLocator q = some vcHave →
        (tips.getLast?.getD [] ≠ [] → vcHave ≠ [] →
          c.contains (c.findFork m vcHave) = true ∧ PBlockIndex.hash (c.findFork m vcHave) ∈ vcHave) ∧
        ∀ h ∈ vcHave, ∀ b, m h = some b → c.contains b = true →
          nextHeight b ≤ nextHeight (c.findFork m vcHave) := by
  obtain ⟨c, hset, hc⟩ := CChain.setTips_spec tips fun t ht => (htips t ht).heightsFit tree
  have htip := TipOf.last htips
  have hfit := htip.heightsFit tree
  refine ⟨c, hset, ⟨?_, ?_⟩, ?_, ?_⟩
  · rw [hc.length, CChain.nextHeight_eq hfit]
  · intro k hk
    rw [hc.length] at hk
    refine ⟨hc.slot k hk, ?_⟩
    rw [CChain.nextHeight_eq (hfit.suffix (ancestorAt_suffix _ _)), length_ancestorAt hfit hk]
    rfl
  · intro q hq hlow
    exact CChain.getLocator_spec hc hfit q (hq.heightsFit tree) hlow
  · intro tips' c' q vcHave htips' hset' hq hlocator
    obtain ⟨c'', hset'', hc'⟩ := CChain.setTips_spec tips' fun t ht => (htips' t ht).heightsFit tree'
    have heq : c'' = c' := Option.some_inj.mp (hset''.symm.trans hset')
    subst heq
    have htip' := TipOf.last htips'
    have hlow : nextHeight (if q = [] then tips'.getLast?.getD [] else q) ≤ 2 ^ 30 + 10 := by
      by_contra hhigh
      rw [CChain.getLocator_overflows hc' (htip'.heightsFit tree') q (hq.heightsFit tree') (by omega)] at hlocator
      cases hlocator
    obtain ⟨blocks, hmade, hempty, hdesc⟩ :=
      CChain.getLocator_spec hc' (htip'.heightsFit tree') q (hq.heightsFit tree') hlow
    have hhave : blocks.map PBlockIndex.hash = vcHave := Option.some_inj.mp (hmade.symm.trans hlocator)
    subst hhave
    by_cases hstart : (if q = [] then tips'.getLast?.getD [] else q) = []
    · rw [hempty hstart]
      exact ⟨fun _ h => absurd rfl h, fun h hh => by cases hh⟩
    · have hknown : Known m' (if q = [] then tips'.getLast?.getD [] else q) := by
        by_cases hnil : q = []
        · rw [if_pos hnil] at hstart ⊢
          exact htip'.resolve_left hstart
        · rw [if_neg hnil]
          exact hq.resolve_left hnil
      obtain ⟨hfork, hhighest⟩ := findFork_spec tree tree' part hc htip hknown (hdesc hstart)
      exact ⟨fun hne _ => hfork hne, hhighest⟩

/-! ## A tree with two branches -/

namespace Sample

/-- The block on one branch. -/
def leftEntry : PBlockIndex := acceptedOn (firstBlock 0 1000000000 []) (acceptedOn genesisBlock [])

/-- The two blocks on the other. -/
def rightEntry : PBlockIndex := acceptedOn fundBlock (acceptedOn genesisBlock [])
def rightTip : PBlockIndex := acceptedOn registerLaterBlock rightEntry

def leftMap : BlockMap := fun h =>
  if h = (firstBlock 0 1000000000 []).getHash crypto.Hash then some leftEntry else genesisMap h

def rightMap : BlockMap := fun h =>
  if h = fundBlock.getHash crypto.Hash then some rightEntry else leftMap h

def forkMap : BlockMap := fun h =>
  if h = registerLaterBlock.getHash crypto.Hash then some rightTip else rightMap h

theorem forkMap_tree : BlockTree chainCfg crypto forkMap := by
  have hleft : acceptBlock chainCfg crypto acceptEnv genesisMap (firstBlock 0 1000000000 [])
      = .ok leftEntry := by decide +kernel
  have hright : acceptBlock chainCfg crypto acceptEnv leftMap fundBlock = .ok rightEntry := by decide +kernel
  have htip : acceptBlock chainCfg crypto acceptEnv rightMap registerLaterBlock = .ok rightTip := by
    decide +kernel
  exact .accept (.accept (.accept genesisMap_tree hleft) hright) htip

theorem forkMap_tips : ∀ t ∈ [leftEntry, rightTip, leftEntry], TipOf forkMap t := by
  have hleft : Known forkMap leftEntry := by decide +kernel
  have hright : Known forkMap rightTip := by decide +kernel
  intro t ht
  rcases List.mem_cons.mp ht with rfl | ht
  · exact .inr hleft
  · rcases List.mem_cons.mp ht with rfl | ht
    · exact .inr hright
    · rw [List.mem_singleton.mp ht]
      exact .inr hleft

end Sample

open Sample in
/-- A chain that went to the longer branch and came back has the genesis block in common with a locator that
was made on the longer one. -/
theorem chain_structure_forked : ∃ c c' vcHave, CChain.setTips [leftEntry, rightTip, leftEntry] = some c ∧
    (c.m_vcChain.length : ℤ) = nextHeight leftEntry ∧ CChain.setTips [leftEntry, rightTip] = some c' ∧
    c'.getLocator [] = some vcHave ∧
    vcHave = [rightTip, rightEntry, acceptedOn genesisBlock []].map PBlockIndex.hash ∧
    c.contains (c.findFork forkMap vcHave) = true ∧
    nextHeight (acceptedOn genesisBlock []) ≤ nextHeight (c.findFork forkMap vcHave) := by
  have htips' : ∀ t ∈ [leftEntry, rightTip], TipOf forkMap t := by
    intro t ht
    refine forkMap_tips t ?_
    rcases List.mem_cons.mp ht with rfl | ht
    · exact List.mem_cons_self
    · rw [List.mem_singleton.mp ht]
      exact List.mem_cons_of_mem _ List.mem_cons_self
  obtain ⟨c, hset, ⟨hlen, -⟩, -, hfork⟩ := chain_structure forkMap forkMap forkMap_tree.indexTree
    forkMap_tree.indexTree (fun h l hl => hl) [leftEntry, rightTip, leftEntry] forkMap_tips
  obtain ⟨c', hset', -, -, -⟩ := chain_structure forkMap forkMap forkMap_tree.indexTree
    forkMap_tree.indexTree (fun h l hl => hl) [leftEntry, rightTip] htips'
  -- the locator of the longer branch
  have hmade : (CChain.setTips [leftEntry, rightTip]).bind (fun c' => c'.getLocator [])
      = some ([rightTip, rightEntry, acceptedOn genesisBlock []].map PBlockIndex.hash) := by decide +kernel
  rw [hset', Option.bind_some] at hmade
  have hroot : (CChain.setTips [leftEntry, rightTip, leftEntry]).map
      (fun c => c.contains (acceptedOn genesisBlock [])) = some true := by decide +kernel
  rw [hset, Option.map_some, Option.some_inj] at hroot
  obtain ⟨hfound, hhighest⟩ := hfork _ c' [] _ htips' hset' (.inl rfl) hmade
  have hnonempty : ([leftEntry, rightTip, leftEntry].getLast?).getD [] ≠ [] := by decide +kernel
  have hvcHave : [rightTip, rightEntry, acceptedOn genesisBlock []].map PBlockIndex.hash ≠ [] :=
    List.cons_ne_nil _ _
  have hknown : forkMap (PBlockIndex.hash (acceptedOn genesisBlock [])) = some (acceptedOn genesisBlock []) := by
    decide +kernel
  refine ⟨c, c', _, hset, hlen, hset', hmade, rfl, (hfound hnonempty hvcHave).1,
    hhighest _ ?_ _ hknown hroot⟩
  exact List.mem_cons_of_mem _ (List.mem_cons_of_mem _ List.mem_cons_self)

/-! ## A chain that is too high -/

namespace Sample

def straightEntry (n : ℕ) : CBlockIndex :=
  { (default : CBlockIndex) with
    hashBlock := BitVec.ofNat 256 n
    nHeight := n }

/-- A chain of blocks up to a height. -/
def straight : ℕ → PBlockIndex
  | 0 => [straightEntry 0]
  | n + 1 => straightEntry (n + 1) :: straight n

def straightMap (n : ℕ) : BlockMap := fun h => if h.toNat ≤ n then some (straight h.toNat) else none

theorem length_straight (n : ℕ) : (straight n).length = n + 1 := by
  induction n with
  | zero => rfl
  | succ n ih => rw [straight, List.length_cons, ih]

theorem straight_head (n : ℕ) : ∃ pprev, straight n = straightEntry n :: pprev := by
  cases n with
  | zero => exact ⟨[], rfl⟩
  | succ n => exact ⟨straight n, rfl⟩

theorem straightMap_at {n k : ℕ} (hk : k ≤ n) (hn : n < 2 ^ 256) :
    straightMap n (PBlockIndex.hash (straight k)) = some (straight k) := by
  obtain ⟨pprev, heq⟩ := straight_head k
  have hnat : (PBlockIndex.hash (straight k)).toNat = k := by
    rw [heq]
    show (BitVec.ofNat 256 k).toNat = k
    rw [BitVec.toNat_ofNat]
    exact Nat.mod_eq_of_lt (by omega)
  unfold straightMap
  rw [hnat, if_pos hk]

theorem straightMap_tree {n : ℕ} (hn : n < 2 ^ 256) : IndexTree (straightMap n) := by
  have hentry : ∀ h l, straightMap n h = some l → h.toNat ≤ n ∧ l = straight h.toNat := by
    intro h l hl
    unfold straightMap at hl
    split at hl
    · next hle =>
      cases hl
      exact ⟨hle, rfl⟩
    · cases hl
  constructor
  · intro h l hl
    obtain ⟨hle, rfl⟩ := hentry h l hl
    have hhash : BitVec.ofNat 256 h.toNat = h := BitVec.eq_of_toNat_eq (by
      rw [BitVec.toNat_ofNat]
      exact Nat.mod_eq_of_lt h.isLt)
    cases hk : h.toNat with
    | zero =>
      rw [hk] at hhash
      exact ⟨straightEntry 0, [], rfl, hhash, rfl, fun hne => absurd rfl hne⟩
    | succ k =>
      rw [hk] at hhash hle
      refine ⟨straightEntry (k + 1), straight k, rfl, hhash, ?_, fun _ => straightMap_at (by omega) hn⟩
      rw [length_straight]
      rfl
  · intro h h' l l' hl hl' hone hone'
    obtain ⟨-, rfl⟩ := hentry h l hl
    obtain ⟨-, rfl⟩ := hentry h' l' hl'
    rw [length_straight] at hone hone'
    rw [show h.toNat = h'.toNat by omega]

/-- On a chain that is high enough `nStep` overflows. -/
theorem straight_overflows {n : ℕ} (hhigh : 2 ^ 30 + 10 ≤ n) (hn : n < 2 ^ 256) :
    ∃ c, CChain.setTips [straight n] = some c ∧ TipOf (straightMap n) (straight n) ∧
      c.getLocator [] = none := by
  have htip : TipOf (straightMap n) (straight n) := .inr (straightMap_at (le_refl n) hn)
  have hfit := htip.heightsFit (straightMap_tree hn)
  obtain ⟨c, hset, hc⟩ := CChain.setTips_spec [straight n] fun t ht => by
    rw [List.mem_singleton.mp ht]
    exact hfit
  refine ⟨c, hset, htip, CChain.getLocator_overflows hc hfit [] trivial ?_⟩
  rw [if_pos rfl]
  show _ < nextHeight (straight n)
  rw [CChain.nextHeight_eq hfit, length_straight]
  omega

end Sample

open Sample in
/-- With a tip at height 2^30 + 10 no locator comes out. -/
theorem locator_overflows : IndexTree (straightMap (2 ^ 30 + 10)) ∧
    ∃ c, CChain.setTips [straight (2 ^ 30 + 10)] = some c ∧
      TipOf (straightMap (2 ^ 30 + 10)) (straight (2 ^ 30 + 10)) ∧ c.getLocator [] = none :=
  ⟨straightMap_tree (by norm_num), straight_overflows (le_refl _) (by norm_num)⟩

end Dacrs
