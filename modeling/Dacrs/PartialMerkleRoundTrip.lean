import Dacrs.PartialMerkle

/-!
# The partial merkle tree round trip

Extraction mirrors the construction: where the bits and hashes that `TraverseAndBuild` pushed
for a node come next, `TraverseAndExtract` takes exactly them, gives the node's hash and the
matched leaves below it (`traverseAndExtract_build`).  The wire form adds only bits that pad the
last byte.
-/

open Codec (Bytes Reader)

namespace Dacrs

namespace CPartialMerkleTree

/-! ## Packed bits -/

theorem testBit_byteOfBits (bit : ℕ → Bool) (k : ℕ) (hk : k < 8) :
    (byteOfBits bit).toNat.testBit k = bit k := by
  have hall : ∀ b₀ b₁ b₂ b₃ b₄ b₅ b₆ b₇ : Bool, ∀ k < 8,
      (byteOfBits fun i => [b₀, b₁, b₂, b₃, b₄, b₅, b₆, b₇].getD i false).toNat.testBit k
        = [b₀, b₁, b₂, b₃, b₄, b₅, b₆, b₇].getD k false := by
    decide +kernel
  have h := hall (bit 0) (bit 1) (bit 2) (bit 3) (bit 4) (bit 5) (bit 6) (bit 7) k hk
  have hsame : (byteOfBits fun i =>
      [bit 0, bit 1, bit 2, bit 3, bit 4, bit 5, bit 6, bit 7].getD i false) = byteOfBits bit := rfl
  rw [hsame] at h
  rw [h]
  have hcases : k = 0 ∨ k = 1 ∨ k = 2 ∨ k = 3 ∨ k = 4 ∨ k = 5 ∨ k = 6 ∨ k = 7 := by omega
  rcases hcases with rfl | rfl | rfl | rfl | rfl | rfl | rfl | rfl <;> rfl

/-- The padding of the last byte. -/
def padding (vbBits : List Bool) : List Bool :=
  List.replicate ((vbBits.length + 7) / 8 * 8 - vbBits.length) false

theorem bytesToBits_bitsToBytes (vbBits : List Bool) :
    bytesToBits (bitsToBytes vbBits) = vbBits ++ padding vbBits := by
  have hbytes : (bitsToBytes vbBits).length = (vbBits.length + 7) / 8 := by simp [bitsToBytes]
  apply List.ext_getElem?
  intro p
  unfold bytesToBits
  rw [hbytes, List.getElem?_map]
  by_cases hp : p < (vbBits.length + 7) / 8 * 8
  · have hbyte : (bitsToBytes vbBits).getD (p / 8) 0
        = byteOfBits fun k => vbBits.getD (p / 8 * 8 + k) false := by
      unfold bitsToBytes
      rw [List.getD_eq_getElem?_getD, List.getElem?_map, List.getElem?_range (by omega)]
      rfl
    have hback : p / 8 * 8 + p % 8 = p := by omega
    rw [List.getElem?_range hp, Option.map_some, hbyte,
      testBit_byteOfBits _ _ (Nat.mod_lt p (by norm_num)), hback, List.getD_eq_getElem?_getD]
    by_cases hin : p < vbBits.length
    · rw [List.getElem?_append_left hin, List.getElem?_eq_getElem hin]
      rfl
    · rw [List.getElem?_append_right (by omega), List.getElem?_eq_none (by omega)]
      unfold padding
      rw [List.getElem?_replicate, if_pos (by omega)]
      rfl
  · rw [List.getElem?_eq_none (by simp; omega), List.getElem?_eq_none]
    · rfl
    · unfold padding
      rw [List.length_append, List.length_replicate]
      omega

/-! ## Widths and heights -/

/-- No sum wraps for the counts and heights that occur. -/
theorem calcTreeWidth_eq {u : UInt32} {h : ℕ} (hu : u.toNat ≤ 2 ^ 31) (hh : h ≤ 31) :
    calcTreeWidth u h = MerkleTree.width u.toNat h := by
  unfold calcTreeWidth MerkleTree.width
  have hpow : 2 ^ h ≤ 2 ^ 31 := Nat.pow_le_pow_right (by norm_num) hh
  rw [Nat.mod_eq_of_lt (by omega)]

theorem calcTreeHeightGo_spec (u : UInt32) (k h : ℕ) :
    h ≤ calcTreeHeightGo u k h ∧ calcTreeHeightGo u k h ≤ h + k ∧
    (∀ i, h ≤ i → i < calcTreeHeightGo u k h → 1 < calcTreeWidth u i) ∧
    (calcTreeWidth u (h + k) ≤ 1 → calcTreeWidth u (calcTreeHeightGo u k h) ≤ 1) := by
  induction k generalizing h with
  | zero =>
    refine ⟨le_refl _, le_refl _, ?_, fun hlast => hlast⟩
    intro i hle hlt
    have hgo : calcTreeHeightGo u 0 h = h := rfl
    omega
  | succ k ih =>
    unfold calcTreeHeightGo
    split
    · next hwide =>
      obtain ⟨hge, hle, hbelow, hend⟩ := ih (h + 1)
      refine ⟨by omega, by omega, ?_, ?_⟩
      · intro i hi hlt
        by_cases heq : i = h
        · subst heq
          exact hwide
        · exact hbelow i (by omega) hlt
      · intro hlast
        apply hend
        have hsame : h + 1 + k = h + (k + 1) := by omega
        rw [hsame]
        exact hlast
    · next hwide =>
      refine ⟨le_refl _, by omega, ?_, ?_⟩
      · intro i hi hlt
        omega
      · intro _
        omega

/-- The loop over the heights ends by itself, at the first level of one node. -/
theorem calcTreeHeight_spec (u : UInt32) : calcTreeHeight u ≤ 31 ∧
    (∀ i < calcTreeHeight u, 1 < calcTreeWidth u i) ∧ calcTreeWidth u (calcTreeHeight u) ≤ 1 := by
  obtain ⟨-, hle, hbelow, hend⟩ := calcTreeHeightGo_spec u 31 0
  refine ⟨by unfold calcTreeHeight; omega, fun i hi => hbelow i (Nat.zero_le i) hi, ?_⟩
  apply hend
  unfold calcTreeWidth
  omega

/-! ## Matched leaves below a node -/

section Mirror
variable (Hash : Bytes → Uint256) {u : UInt32} {vcTxid : List Uint256} {vbMatch : List Bool}
  (hcount : u.toNat = vcTxid.length) (hsmall : vcTxid.length ≤ maxBlockSize / 60)
  (hmask : vbMatch.length = vcTxid.length)

/-- The matched txids at the positions `lo` up to `lo + len`. -/
def matchedIn (vcTxid : List Uint256) (vbMatch : List Bool) (lo len : ℕ) : List Uint256 :=
  ((((vcTxid.zip vbMatch).drop lo).take len).filter fun p => p.2).map fun p => p.1

theorem matchedIn_add (lo a b : ℕ) : matchedIn vcTxid vbMatch lo (a + b)
    = matchedIn vcTxid vbMatch lo a ++ matchedIn vcTxid vbMatch (lo + a) b := by
  unfold matchedIn
  rw [List.take_add, List.filter_append, List.map_append, List.drop_drop]

theorem matchedIn_beyond {lo : ℕ} (h : vcTxid.length ≤ lo) (len : ℕ) :
    matchedIn vcTxid vbMatch lo len = [] := by
  unfold matchedIn
  rw [List.drop_eq_nil_of_le (by rw [List.length_zip]; omega)]
  simp

include hmask in
/-- One leaf. -/
theorem matchedIn_one {pos : ℕ} (h : pos < vcTxid.length) : matchedIn vcTxid vbMatch pos 1
    = if vbMatch.getD pos false then [vcTxid.getD pos 0] else [] := by
  have hzip : pos < (vcTxid.zip vbMatch).length := by
    rw [List.length_zip]
    omega
  have hmatch : pos < vbMatch.length := by omega
  unfold matchedIn
  rw [List.drop_eq_getElem_cons hzip, List.take_succ_cons, List.take_zero, List.getElem_zip,
    List.getD_eq_getElem?_getD, List.getD_eq_getElem?_getD, List.getElem?_eq_getElem h,
    List.getElem?_eq_getElem hmatch]
  cases hbit : vbMatch[pos] with
  | true => simp
  | false => simp

include hcount hmask in
/-- Below a node that is no parent of a match nothing is matched. -/
theorem matchedIn_eq_nil {h pos : ℕ} (hno : parentOfMatch u vbMatch h pos = false) :
    matchedIn vcTxid vbMatch (pos * 2 ^ h) (2 ^ h) = [] := by
  unfold parentOfMatch at hno
  rw [List.any_eq_false] at hno
  have hnone : ∀ len, len ≤ 2 ^ h → matchedIn vcTxid vbMatch (pos * 2 ^ h) len = [] := by
    intro len hlen
    induction len with
    | zero => simp [matchedIn]
    | succ len ih =>
      rw [matchedIn_add, ih (by omega), List.nil_append]
      by_cases hin : pos * 2 ^ h + len < vcTxid.length
      · have hbit := hno (pos * 2 ^ h + len) (by rw [List.mem_range'_1]; omega)
        have hfalse : vbMatch.getD (pos * 2 ^ h + len) false = false := by
          rw [hcount] at hbit
          simpa [hin] using hbit
        rw [matchedIn_one hmask hin, hfalse]
        rfl
      · exact matchedIn_beyond (by omega) 1
  exact hnone (2 ^ h) (le_refl _)

/-- Above the leaves: what is matched below the two children. -/
theorem matchedIn_children (h pos : ℕ) : matchedIn vcTxid vbMatch (pos * 2 ^ (h + 1)) (2 ^ (h + 1))
    = matchedIn vcTxid vbMatch (pos * 2 * 2 ^ h) (2 ^ h)
      ++ if pos * 2 + 1 < MerkleTree.width vcTxid.length h then
          matchedIn vcTxid vbMatch ((pos * 2 + 1) * 2 ^ h) (2 ^ h) else [] := by
  have hleft : pos * 2 ^ (h + 1) = pos * 2 * 2 ^ h := by rw [pow_succ]; ring
  have hright : pos * 2 * 2 ^ h + 2 ^ h = (pos * 2 + 1) * 2 ^ h := by ring
  have hboth : 2 ^ (h + 1) = 2 ^ h + 2 ^ h := by rw [pow_succ]; ring
  rw [hleft, hboth, matchedIn_add, hright]
  congr 1
  split
  · rfl
  · next hwide =>
    rw [MerkleTree.lt_width_iff] at hwide
    exact matchedIn_beyond (by omega) _

/-! ## The hash of a node -/

include hcount hsmall in
theorem width_eq {h : ℕ} (hh : h ≤ 31) : calcTreeWidth u h = MerkleTree.width vcTxid.length h := by
  have hmax : maxBlockSize / 60 ≤ 2 ^ 31 := by decide
  rw [calcTreeWidth_eq (by omega) hh, hcount]

theorem calcHash_succ (h pos : ℕ) : calcHash Hash u vcTxid (h + 1) pos
    = hashNode Hash (calcHash Hash u vcTxid h (pos * 2))
        (if pos * 2 + 1 < calcTreeWidth u h then calcHash Hash u vcTxid h (pos * 2 + 1)
          else calcHash Hash u vcTxid h (pos * 2)) := rfl

include hcount hsmall in
/-- `CalcHash` gives the node of the full tree. -/
theorem calcHash_eq {h : ℕ} (hh : h ≤ 31) {pos : ℕ}
    (hpos : pos < MerkleTree.width vcTxid.length h) :
    (MerkleTree.levels (hashNode Hash) vcTxid h)[pos]? = some (calcHash Hash u vcTxid h pos) := by
  induction h generalizing pos with
  | zero =>
    rw [MerkleTree.width_zero] at hpos
    unfold MerkleTree.levels calcHash
    rw [List.getD_eq_getElem?_getD, List.getElem?_eq_getElem hpos]
    rfl
  | succ h ih =>
    have hwidth := width_eq hcount hsmall (show h ≤ 31 by omega)
    have hleft := ih (by omega) (MerkleTree.left_lt_width hpos)
    rw [MerkleTree.levels_getElem? (hashNode Hash) hleft]
    rw [calcHash_succ, hwidth, Nat.mul_comm 2 pos]
    by_cases hwide : pos * 2 + 1 < MerkleTree.width vcTxid.length h
    · rw [if_pos hwide, ih (by omega) hwide]
      rfl
    · rw [if_neg hwide, List.getElem?_eq_none (by rw [MerkleTree.length_levels]; omega)]
      rfl

/-! ## Construction and extraction -/

/-- The node's bits and hashes come next, and more behind them. -/
structure Ahead (t : CPartialMerkleTree) (st : Extraction) (pushed : List Bool × List Uint256)
    (bits : List Bool) (hashes : List Uint256) : Prop where
  bits : t.vbBits.drop st.unBitsUsed = pushed.1 ++ bits
  hashes : t.vcHash.drop st.unHashUsed = pushed.2 ++ hashes

/-- What was pushed has been taken, and so many txids were matched. -/
def Extraction.take (st : Extraction) (pushed : List Bool × List Uint256)
    (vcMatch : List Uint256) : Extraction :=
  { st with
    unBitsUsed := st.unBitsUsed + pushed.1.length
    unHashUsed := st.unHashUsed + pushed.2.length
    vcMatch := st.vcMatch ++ vcMatch }

theorem getElem?_of_drop {α : Type} {l rest : List α} {i : ℕ} {a : α} (h : l.drop i = a :: rest) :
    ¬ l.length ≤ i ∧ l[i]? = some a := by
  have hget : l[i]? = some a := by
    have hhead := congrArg List.head? h
    rwa [List.head?_drop] at hhead
  refine ⟨?_, hget⟩
  intro hle
  rw [List.getElem?_eq_none hle] at hget
  cases hget

/-- A bit that comes next is taken. -/
theorem nextBit_of_drop {t : CPartialMerkleTree} {st : Extraction} {bit : Bool} {bits : List Bool}
    (h : t.vbBits.drop st.unBitsUsed = bit :: bits) : ¬ t.vbBits.length ≤ st.unBitsUsed ∧
      t.nextBit st = some (bit, { st with unBitsUsed := st.unBitsUsed + 1 }) := by
  obtain ⟨hin, hget⟩ := getElem?_of_drop h
  refine ⟨hin, ?_⟩
  unfold nextBit
  rw [hget]
  rfl

/-- A hash that comes next is taken. -/
theorem storedHash_of_drop {t : CPartialMerkleTree} {st : Extraction} {hash : Uint256}
    {hashes : List Uint256} (h : t.vcHash.drop st.unHashUsed = hash :: hashes) (bMatch : Bool) :
    t.storedHash bMatch st = some (hash, { st with
      unHashUsed := st.unHashUsed + 1
      vcMatch := st.vcMatch ++ if bMatch then [hash] else [] }) := by
  obtain ⟨hin, hget⟩ := getElem?_of_drop h
  unfold storedHash
  rw [if_neg hin, hget]
  cases bMatch with
  | true => rfl
  | false =>
    show some (hash, _) = some (hash, _)
    simp

include hcount hsmall hmask in
/-- The extractor takes what the construction pushed for a node, and gives the node's hash and
the matches below it. -/
theorem traverseAndExtract_build {h : ℕ} (hh : h ≤ 31) {pos : ℕ}
    (hpos : pos < MerkleTree.width vcTxid.length h) {t : CPartialMerkleTree}
    (hu : t.unTransactions = u) {st : Extraction} {bits : List Bool} {hashes : List Uint256}
    (hahead : Ahead t st (traverseAndBuild Hash u vcTxid vbMatch h pos) bits hashes) :
    t.traverseAndExtract Hash h pos st = some (calcHash Hash u vcTxid h pos,
      Extraction.take st (traverseAndBuild Hash u vcTxid vbMatch h pos)
        (matchedIn vcTxid vbMatch (pos * 2 ^ h) (2 ^ h))) := by
  induction h generalizing pos st bits hashes with
  | zero =>
    rw [MerkleTree.width_zero] at hpos
    obtain ⟨hin, hbit⟩ := nextBit_of_drop hahead.bits
    unfold traverseAndExtract
    rw [if_neg hin, hbit, Option.bind_eq_bind, Option.bind_some]
    have hleaf : parentOfMatch u vbMatch 0 pos = vbMatch.getD pos false := by
      unfold parentOfMatch
      simp [hcount, hpos]
    have hstored := @storedHash_of_drop t { st with unBitsUsed := st.unBitsUsed + 1 } _ _
      hahead.hashes (parentOfMatch u vbMatch 0 pos)
    rw [hstored]
    unfold Extraction.take traverseAndBuild
    rw [pow_zero, Nat.mul_one, matchedIn_one hmask hpos, hleaf]
    rfl
  | succ h ih =>
    have hwidth := width_eq hcount hsmall (show h ≤ 31 by omega)
    cases hparent : parentOfMatch u vbMatch (h + 1) pos with
    | false =>
      have hpushed : traverseAndBuild Hash u vcTxid vbMatch (h + 1) pos
          = ([false], [calcHash Hash u vcTxid (h + 1) pos]) := by
        unfold traverseAndBuild
        rw [hparent]
        rfl
      rw [hpushed] at hahead ⊢
      obtain ⟨hin, hbit⟩ := nextBit_of_drop hahead.bits
      unfold traverseAndExtract
      rw [if_neg hin, hbit, Option.bind_eq_bind, Option.bind_some, if_pos rfl]
      have hstored := @storedHash_of_drop t { st with unBitsUsed := st.unBitsUsed + 1 } _ _
        hahead.hashes false
      rw [hstored, matchedIn_eq_nil hcount hmask hparent]
      rfl
    | true =>
      set left := traverseAndBuild Hash u vcTxid vbMatch h (pos * 2) with hleftdef
      set right := (if pos * 2 + 1 < calcTreeWidth u h then
        traverseAndBuild Hash u vcTxid vbMatch h (pos * 2 + 1) else ([], [])) with hrightdef
      have hpushed : traverseAndBuild Hash u vcTxid vbMatch (h + 1) pos
          = (true :: (left.1 ++ right.1), left.2 ++ right.2) := by
        unfold traverseAndBuild
        rw [hparent]
        rfl
      rw [hpushed] at hahead ⊢
      obtain ⟨hin, hbit⟩ := nextBit_of_drop hahead.bits
      set st₁ : Extraction := { st with unBitsUsed := st.unBitsUsed + 1 } with hst₁
      -- the left subtree's share comes first
      have hahead₁ : Ahead t st₁ left (right.1 ++ bits) (right.2 ++ hashes) := by
        constructor
        · have hbits := hahead.bits
          rw [hst₁, ← List.drop_drop, hbits, List.cons_append, List.drop_succ_cons, List.drop_zero,
            List.append_assoc]
        · have hhashes := hahead.hashes
          rw [hst₁, hhashes, List.append_assoc]
      have hposl : pos * 2 < MerkleTree.width vcTxid.length h := by
        have hlt := MerkleTree.left_lt_width hpos
        omega
      have hleft := ih (by omega) hposl hahead₁
      set st₂ := Extraction.take st₁ left (matchedIn vcTxid vbMatch (pos * 2 * 2 ^ h) (2 ^ h)) with hst₂
      have hahead₂ : Ahead t st₂ right bits hashes := by
        constructor
        · have hbits := hahead₁.bits
          rw [hst₂]
          unfold Extraction.take
          rw [← List.drop_drop, hbits, List.drop_left]
        · have hhashes := hahead₁.hashes
          rw [hst₂]
          unfold Extraction.take
          rw [← List.drop_drop, hhashes, List.drop_left]
      have hfinal : ∀ m, Extraction.take st (true :: (left.1 ++ right.1), left.2 ++ right.2)
            (matchedIn vcTxid vbMatch (pos * 2 * 2 ^ h) (2 ^ h) ++ m) = Extraction.take st₂ right m := by
        intro m
        rw [hst₂, hst₁]
        unfold Extraction.take
        simp only [List.length_cons, List.length_append, List.append_assoc]
        congr 1
        · omega
        · omega
      unfold traverseAndExtract
      rw [if_neg hin, hbit, Option.bind_eq_bind, Option.bind_some, if_neg Bool.true_eq_false.mp]
      rw [hleft, Option.bind_eq_bind, Option.bind_some, hu, matchedIn_children, hfinal,
        calcHash_succ]
      by_cases hwide : pos * 2 + 1 < calcTreeWidth u h
      · have hright : right = traverseAndBuild Hash u vcTxid vbMatch h (pos * 2 + 1) := if_pos hwide
        rw [hright] at hahead₂ ⊢
        rw [if_pos hwide, if_pos hwide, if_pos (by omega), ih (by omega) (by omega) hahead₂]
        rfl
      · have hright : right = ([], []) := if_neg hwide
        rw [if_neg hwide, if_neg hwide, if_neg (by omega), hright]
        unfold Extraction.take
        simp

include hcount hsmall in
/-- A node's share has a bit for each hash, and a leaf for each hash. -/
theorem length_traverseAndBuild {h : ℕ} (hh : h ≤ 31) {pos : ℕ}
    (hpos : pos < MerkleTree.width vcTxid.length h) :
    (traverseAndBuild Hash u vcTxid vbMatch h pos).2.length
        ≤ (traverseAndBuild Hash u vcTxid vbMatch h pos).1.length ∧
      pos * 2 ^ h + (traverseAndBuild Hash u vcTxid vbMatch h pos).2.length
        ≤ min vcTxid.length ((pos + 1) * 2 ^ h) := by
  induction h generalizing pos with
  | zero =>
    rw [MerkleTree.width_zero] at hpos
    unfold traverseAndBuild
    simp only [List.length_singleton]
    omega
  | succ h ih =>
    have hwidth := width_eq hcount hsmall (show h ≤ 31 by omega)
    have hleaf := (MerkleTree.lt_width_iff vcTxid.length (h + 1) pos).mp hpos
    have hpow : 0 < 2 ^ h := Nat.two_pow_pos h
    have hdouble : ∀ k, k * 2 ^ (h + 1) = k * 2 * 2 ^ h := by
      intro k
      rw [pow_succ]
      ring
    unfold traverseAndBuild
    dsimp only
    cases parentOfMatch u vbMatch (h + 1) pos with
    | false =>
      rw [if_pos rfl, List.length_singleton, List.length_singleton]
      have hnext : (pos + 1) * 2 ^ (h + 1) = pos * 2 ^ (h + 1) + 2 ^ (h + 1) := by ring
      have hone : 1 ≤ 2 ^ (h + 1) := Nat.one_le_two_pow
      omega
    | true =>
      rw [if_neg Bool.true_eq_false.mp]
      have hposl : pos * 2 < MerkleTree.width vcTxid.length h := by
        have hlt := MerkleTree.left_lt_width hpos
        omega
      obtain ⟨hbits, hleaves⟩ := ih (by omega) hposl
      have hmid : (pos * 2 + 1) * 2 ^ h + 2 ^ h = (pos + 1) * 2 * 2 ^ h := by ring
      rw [hdouble, hdouble]
      by_cases hwide : pos * 2 + 1 < calcTreeWidth u h
      · rw [if_pos hwide, List.length_cons, List.length_append, List.length_append]
        obtain ⟨hbits', hleaves'⟩ := @ih (by omega) (pos * 2 + 1) (by omega)
        have hend : (pos * 2 + 1 + 1) * 2 ^ h = (pos + 1) * 2 * 2 ^ h := by ring
        rw [hend] at hleaves'
        omega
      · rw [if_neg hwide]
        dsimp only
        rw [List.append_nil, List.append_nil, List.length_cons]
        omega

end Mirror

/-! ## The root -/

/-- The last entry of the full tree is the node of the first level that has only one. -/
theorem merkleTreeGo_getLast? (Hash : Bytes → Uint256) (k h : ℕ) {level : List Uint256}
    (hfuel : level.length ≤ k + 1) (hone : MerkleTree.width level.length h = 1)
    (hwide : ∀ i < h, 1 < MerkleTree.width level.length i) :
    (merkleTreeGo Hash k level).getLast? = (MerkleTree.levels (hashNode Hash) level h)[0]? := by
  induction h generalizing k level with
  | zero =>
    rw [MerkleTree.width_zero] at hone
    obtain ⟨a, rfl⟩ := List.length_eq_one_iff.mp hone
    cases k with
    | zero => rfl
    | succ k =>
      unfold merkleTreeGo
      rw [if_pos (by simp)]
      rfl
  | succ h ih =>
    have htwo := hwide 0 (by omega)
    rw [MerkleTree.width_zero] at htwo
    obtain ⟨k, rfl⟩ := Nat.exists_eq_succ_of_ne_zero (show k ≠ 0 by omega)
    have hlen : (merkleLevel Hash level).length = (level.length + 1) / 2 := by
      rw [merkleLevel_eq, MerkleTree.length_level]
    have hshift : ∀ i, MerkleTree.width (merkleLevel Hash level).length i
        = MerkleTree.width level.length (i + 1) := by
      intro i
      rw [merkleLevel_eq, ← MerkleTree.length_levels (hashNode Hash), MerkleTree.levels_level,
        MerkleTree.length_levels]
    have hnext := @ih k (merkleLevel Hash level) (by omega) (by rw [hshift]; exact hone)
      (fun i hi => by rw [hshift]; exact hwide (i + 1) (by omega))
    rw [merkleLevel_eq, MerkleTree.levels_level] at hnext
    have hne : merkleTreeGo Hash k (merkleLevel Hash level) ≠ [] := by
      intro hnil
      rw [merkleLevel_eq] at hnil
      rw [hnil] at hnext
      have hsize := MerkleTree.length_levels (hashNode Hash) level (h + 1)
      rw [hone] at hsize
      rw [List.getElem?_eq_getElem (by omega)] at hnext
      cases hnext
    unfold merkleTreeGo
    rw [if_neg (by omega), List.getLast?_append_of_ne_nil _ hne, merkleLevel_eq, hnext]

/-- The tree that was built is extracted again, whatever pads its bits to whole bytes. -/
theorem extractMatches_ofTxids (Hash : Bytes → Uint256) {vcTxid : List Uint256} {vbMatch : List Bool}
    (hne : vcTxid ≠ []) (hsmall : vcTxid.length ≤ maxBlockSize / 60)
    (hmask : vbMatch.length = vcTxid.length) :
    ∃ st, extractMatches Hash { ofTxids Hash vcTxid vbMatch with
        vbBits := (ofTxids Hash vcTxid vbMatch).vbBits ++ padding (ofTxids Hash vcTxid vbMatch).vbBits }
      = some (merkleRoot Hash vcTxid, st) ∧ st.vcMatch = matchedTxids vcTxid vbMatch := by
  set u := UInt32.ofNat vcTxid.length with hu
  have hmax : maxBlockSize / 60 < 2 ^ 31 := by decide
  have hpos : 0 < vcTxid.length := List.length_pos_iff.mpr hne
  have hcount : u.toNat = vcTxid.length := by
    rw [hu, UInt32.toNat_ofNat']
    omega
  have hu0 : u ≠ 0 := by
    intro hzero
    rw [hzero] at hcount
    have hz : (0 : UInt32).toNat = 0 := rfl
    omega
  obtain ⟨hheight, hbelow, hend⟩ := calcTreeHeight_spec u
  set h := calcTreeHeight u with hh
  -- the top level is one node
  have hwidth := width_eq hcount hsmall hheight
  have hroot : 0 < MerkleTree.width vcTxid.length h := by
    rw [MerkleTree.lt_width_iff]
    omega
  have hone : MerkleTree.width vcTxid.length h = 1 := by omega
  have hwide : ∀ i < h, 1 < MerkleTree.width vcTxid.length i := by
    intro i hi
    rw [← width_eq hcount hsmall (by omega)]
    exact hbelow i hi
  set pushed := traverseAndBuild Hash u vcTxid vbMatch h 0 with hpushed
  obtain ⟨hbits, hleaves⟩ := @length_traverseAndBuild Hash u vcTxid vbMatch hcount hsmall _ hheight 0 hroot
  rw [← hpushed] at hbits hleaves
  have htree : ofTxids Hash vcTxid vbMatch = ⟨u, pushed.1, pushed.2, false⟩ := rfl
  have hahead : Ahead ⟨u, pushed.1 ++ padding pushed.1, pushed.2, false⟩ ⟨0, 0, [], false⟩ pushed
      (padding pushed.1) [] := ⟨rfl, (List.append_nil _).symm⟩
  have hrun := traverseAndExtract_build Hash hcount hsmall hmask hheight hroot rfl hahead
  rw [← hpushed] at hrun
  have hlast : merkleRoot Hash vcTxid = calcHash Hash u vcTxid h 0 := by
    unfold merkleRoot
    rw [merkleTreeGo_getLast? Hash vcTxid.length h (by omega) hone hwide,
      calcHash_eq Hash hcount hsmall hheight hroot]
    rfl
  have hall : matchedIn vcTxid vbMatch (0 * 2 ^ h) (2 ^ h) = matchedTxids vcTxid vbMatch := by
    have hspan : vcTxid.length ≤ 2 ^ h := by
      have hnot : ¬ 1 < MerkleTree.width vcTxid.length h := by omega
      rw [MerkleTree.lt_width_iff, Nat.one_mul] at hnot
      omega
    unfold matchedIn matchedTxids
    rw [Nat.zero_mul, List.drop_zero, List.take_of_length_le]
    rw [List.length_zip]
    omega
  have hpad : (pushed.1 ++ padding pushed.1).length = (pushed.1.length + 7) / 8 * 8 := by
    unfold padding
    rw [List.length_append, List.length_replicate]
    omega
  rw [htree]
  unfold extractMatches
  dsimp only
  rw [if_neg hu0, if_neg (by omega), if_neg (by omega), if_neg (by omega), hrun,
    Option.bind_eq_bind, Option.bind_some]
  unfold Extraction.take
  dsimp only
  rw [if_neg Bool.false_ne_true, if_neg (by omega), if_neg (by omega), hlast]
  exact ⟨_, rfl, by rw [List.nil_append, hall]⟩

/-- The wire form gives the tree back with its bits padded. -/
theorem deserialize_serialize (t : CPartialMerkleTree) (hhash : t.vcHash.length ≤ maxSize)
    (hbits : (bitsToBytes t.vbBits).length ≤ maxSize) (hbad : t.bBad = false) :
    deserialize (serialize t) = some ({ t with vbBits := t.vbBits ++ padding t.vbBits }, []) := by
  have hfits : (Codec.vec maxSize uint256Codec).Fits t.vcHash :=
    ⟨⟨hhash, lt_of_le_of_lt hhash (by decide)⟩, fun _ _ => trivial⟩
  unfold serialize deserialize
  rw [Codec.u32.read_bind _ _ _ trivial, (Codec.vec maxSize uint256Codec).read_bind _ _ _ hfits]
  have hlast := vchCodec.read_bind (fun vcBytes => (return ⟨t.unTransactions, bytesToBits vcBytes,
    t.vcHash, false⟩ : Reader CPartialMerkleTree)) (bitsToBytes t.vbBits) [] (vchCodec_fits hbits)
  rw [List.append_nil] at hlast
  rw [hlast, bytesToBits_bitsToBytes, ← hbad]
  rfl

/-! ## Sizes on the wire -/

/-- A node and everything below it. -/
theorem length_bits_lt (Hash : Bytes → Uint256) (u : UInt32) (vcTxid : List Uint256)
    (vbMatch : List Bool) (h pos : ℕ) :
    (traverseAndBuild Hash u vcTxid vbMatch h pos).1.length < 2 ^ (h + 1) := by
  induction h generalizing pos with
  | zero =>
    unfold traverseAndBuild
    simp
  | succ h ih =>
    have hleft := ih (pos * 2)
    have hright := ih (pos * 2 + 1)
    have hpow : 2 ^ (h + 1 + 1) = 2 ^ (h + 1) + 2 ^ (h + 1) := by ring
    unfold traverseAndBuild
    dsimp only
    split
    · rw [List.length_singleton]
      omega
    · split
      · rw [List.length_cons, List.length_append]
        omega
      · rw [List.append_nil, List.length_cons]
        omega

theorem ofTxids_sizes (Hash : Bytes → Uint256) {vcTxid : List Uint256} (vbMatch : List Bool)
    (hne : vcTxid ≠ []) (hsmall : vcTxid.length ≤ maxBlockSize / 60) :
    (ofTxids Hash vcTxid vbMatch).vcHash.length ≤ maxSize ∧
      (bitsToBytes (ofTxids Hash vcTxid vbMatch).vbBits).length ≤ maxSize := by
  set u := UInt32.ofNat vcTxid.length with hu
  have hmax : maxBlockSize / 60 = 16666 := by decide
  have hsize : maxSize = 33554432 := by decide
  have hpos : 0 < vcTxid.length := List.length_pos_iff.mpr hne
  have hcount : u.toNat = vcTxid.length := by
    rw [hu, UInt32.toNat_ofNat']
    omega
  obtain ⟨hheight, hbelow, -⟩ := calcTreeHeight_spec u
  set h := calcTreeHeight u with hh
  have htree : ofTxids Hash vcTxid vbMatch = ⟨u, (traverseAndBuild Hash u vcTxid vbMatch h 0).1,
    (traverseAndBuild Hash u vcTxid vbMatch h 0).2, false⟩ := rfl
  have hroot : 0 < MerkleTree.width vcTxid.length h := by
    rw [MerkleTree.lt_width_iff]
    omega
  obtain ⟨-, hleaves⟩ := @length_traverseAndBuild Hash u vcTxid vbMatch hcount hsmall _ hheight 0 hroot
  -- the level below the root has two nodes
  have hspan : 2 ^ (h + 1) ≤ 4 * vcTxid.length := by
    cases hcase : h with
    | zero =>
      rw [Nat.zero_add, pow_one]
      omega
    | succ k =>
      have hwide := hbelow k (by omega)
      rw [width_eq hcount hsmall (by omega), MerkleTree.lt_width_iff, Nat.one_mul] at hwide
      have hpow : 2 ^ (k + 1 + 1) = 4 * 2 ^ k := by ring
      omega
  have hlt := length_bits_lt Hash u vcTxid vbMatch h 0
  have hbytes : ∀ bits, (bitsToBytes bits).length = (bits.length + 7) / 8 := by
    intro bits
    simp [bitsToBytes]
  rw [htree, hbytes]
  dsimp only
  omega

/-! ## Round trip and refusal -/

theorem length_bytesToBits (vcBytes : Bytes) : (bytesToBits vcBytes).length = vcBytes.length * 8 := by
  simp [bytesToBits]

/-- What is deserialized has whole bytes of bits. -/
theorem bits_of_deserialize {s rest : Bytes} {t : CPartialMerkleTree}
    (h : deserialize s = some (t, rest)) : t.vbBits.length % 8 = 0 := by
  unfold deserialize at h
  obtain ⟨⟨u, s₁⟩, -, h⟩ := Option.bind_eq_some_iff.mp h
  obtain ⟨⟨vcHash, s₂⟩, -, h⟩ := Option.bind_eq_some_iff.mp h
  obtain ⟨⟨vcBytes, s₃⟩, -, h⟩ := Option.bind_eq_some_iff.mp h
  obtain ⟨rfl, -⟩ := Prod.mk.inj (Option.some.inj h)
  rw [length_bytesToBits]
  omega

end CPartialMerkleTree

open CPartialMerkleTree in
/-- Building, writing, reading and extracting gives the root and the matched txids.  Whatever
bytes were read, the extractor stays inside its vectors, and its root is 0 if a hash or eight
bits are left unused. -/
theorem partialMerkle_roundTrip (Hash : Bytes → Uint256) :
    (∀ (vcTxid : List Uint256) (vbMatch : List Bool), vcTxid ≠ [] →
      vcTxid.length ≤ maxBlockSize / 60 → vbMatch.length = vcTxid.length →
      ∃ t st, deserialize (serialize (ofTxids Hash vcTxid vbMatch)) = some (t, []) ∧
        t.extractMatches Hash = some (merkleRoot Hash vcTxid, st) ∧
        st.vcMatch = matchedTxids vcTxid vbMatch) ∧
    ∀ (s rest : Bytes) (t : CPartialMerkleTree), deserialize s = some (t, rest) →
      ∃ root st, t.extractMatches Hash = some (root, st) ∧
        (st.unHashUsed ≠ t.vcHash.length → root = 0) ∧
        (st.unBitsUsed + 8 ≤ t.vbBits.length → root = 0) := by
  constructor
  · intro vcTxid vbMatch hne hsmall hmask
    obtain ⟨hhash, hbits⟩ := ofTxids_sizes Hash vbMatch hne hsmall
    obtain ⟨st, hextract, hmatch⟩ := extractMatches_ofTxids Hash hne hsmall hmask
    exact ⟨_, st, deserialize_serialize _ hhash hbits rfl, hextract, hmatch⟩
  · intro s rest t ht
    have hwhole := bits_of_deserialize ht
    obtain ⟨root, st, hextract, hhash, hbits⟩ := t.extractMatches_unused Hash
    refine ⟨root, st, hextract, hhash, ?_⟩
    intro hleft
    apply hbits
    omega

open CPartialMerkleTree in
/-- Two txids, the second one matched. -/
theorem partialMerkle_roundTrip_two : ∃ t st,
    deserialize (serialize (ofTxids xorHash [5, 6] [false, true])) = some (t, []) ∧
      t.extractMatches xorHash = some (3, st) ∧ st.vcMatch = [6] := by
  obtain ⟨t, st, hread, hextract, hmatch⟩ := (partialMerkle_roundTrip xorHash).1 [5, 6] [false, true]
    (by decide) (by decide) rfl
  have hroot : merkleRoot xorHash [5, 6] = 3 := by decide +kernel
  have hmatched : matchedTxids [5, 6] [false, true] = [6] := by decide +kernel
  rw [hroot] at hextract
  rw [hmatched] at hmatch
  exact ⟨t, st, hread, hextract, hmatch⟩

open CPartialMerkleTree in
/-- One txid: seven of the eight bits on the wire are not used. -/
theorem unused_padding : ¬ ∀ (s rest : Bytes) (t : CPartialMerkleTree),
    deserialize s = some (t, rest) → ∃ root st, t.extractMatches xorHash = some (root, st) ∧
      (st.unBitsUsed ≠ t.vbBits.length ∨ st.unHashUsed ≠ t.vcHash.length → root = 0) := by
  intro h
  have hread : deserialize (serialize ⟨1, [true], [5], false⟩)
      = some (⟨1, [true, false, false, false, false, false, false, false], [5], false⟩, []) := by
    decide +kernel
  have hrun : extractMatches xorHash
      ⟨1, [true, false, false, false, false, false, false, false], [5], false⟩
      = some (5, ⟨1, 1, [5], false⟩) := by
    decide +kernel
  obtain ⟨root, st, hextract, hunused⟩ := h _ _ _ hread
  rw [hrun] at hextract
  obtain ⟨rfl, rfl⟩ := Prod.mk.inj (Option.some.inj hextract)
  exact absurd (hunused (Or.inl (by decide))) (by decide)

end Dacrs
