import Dacrs.VmRun

/-!
# Parameters in the shared memory

`GetData` over the memory itself, with the addresses it reads.  The memory is `m_ExRam` and what
lies behind it, so that a read past the end of the RAM shows.  `paraList_spec`: the function
succeeds exactly on a list of nonempty items that fills the stored length; the length prefix is
read past the stored length where one byte is left over.
-/

open Codec (Bytes)

namespace Dacrs

namespace CVm8051

/-- `GetParaLen`: two bytes, least significant first. -/
def paraLenAt (m : ℕ → UInt8) (ipara : ℕ) : ℕ := (m ipara).toNat + 256 * (m (ipara + 1)).toNat

/-- The `n` bytes from an address on. -/
def bytesAt (m : ℕ → UInt8) (ipara n : ℕ) : Bytes := (List.range n).map fun i => m (ipara + i)

/-- How `GetData` ends: what it returns, what it has put into `ret`, the addresses it has read. -/
structure DataRun where
  ok : Bool
  ret : List Bytes
  reads : List ℕ
deriving DecidableEq

/-- The loop of `GetData`. -/
def dataLoop (m : ℕ → UInt8) (ipara totallen : ℕ) : DataRun :=
  if totallen = 0 then ⟨true, [], []⟩
  else
    let length := paraLenAt m ipara
    if length = 0 ∨ totallen < length + 2 then ⟨false, [], [ipara, ipara + 1]⟩
    else
      let rest := dataLoop m (ipara + 2 + length) (totallen - (length + 2))
      ⟨rest.ok, bytesAt m (ipara + 2) length :: rest.ret,
        List.range' ipara (2 + length) ++ rest.reads⟩
termination_by totallen
decreasing_by omega

/-- `GetData` at an address. -/
def getDataAt (m : ℕ → UInt8) (ipara : ℕ) : DataRun :=
  let totallen := paraLenAt m ipara
  if totallen = 0 ∨ maxShareRam ≤ totallen then ⟨false, [], [ipara, ipara + 1]⟩
  else
    let run := dataLoop m (ipara + 2) totallen
    ⟨run.ok, run.ret, ipara :: (ipara + 1) :: run.reads⟩

/-! ## Lists of items -/

/-- An item with its length in two bytes in front. -/
def itemBytes (item : Bytes) : Bytes := Codec.leBytes 2 item.length ++ item

/-- The items one after the other. -/
def itemsBytes (items : List Bytes) : Bytes := items.flatMap itemBytes

/-- The bytes are the items, each of a length that two bytes hold. -/
def HoldsItems (m : ℕ → UInt8) (ipara n : ℕ) (items : List Bytes) : Prop :=
  bytesAt m ipara n = itemsBytes items ∧ ∀ item ∈ items, item.length < 65536

/-- None of the items is empty. -/
def NoEmpty (items : List Bytes) : Prop := ∀ item ∈ items, item ≠ []

section
variable {m : ℕ → UInt8} {ipara n : ℕ} {items : List Bytes}

@[simp] theorem length_bytesAt (m : ℕ → UInt8) (ipara n : ℕ) : (bytesAt m ipara n).length = n := by
  simp [bytesAt]

theorem bytesAt_add (m : ℕ → UInt8) (ipara a b : ℕ) :
    bytesAt m ipara (a + b) = bytesAt m ipara a ++ bytesAt m (ipara + a) b := by
  unfold bytesAt
  rw [List.range_add, List.map_append, List.map_map]
  congr 1
  apply List.map_congr_left
  intro i _
  show m (ipara + (a + i)) = m (ipara + a + i)
  rw [Nat.add_assoc]

theorem paraLenAt_lt (m : ℕ → UInt8) (ipara : ℕ) : paraLenAt m ipara < 65536 := by
  have h₀ := (m ipara).toNat_lt
  have h₁ := (m (ipara + 1)).toNat_lt
  unfold paraLenAt
  omega

/-- The two bytes of a length. -/
theorem bytesAt_two (m : ℕ → UInt8) (ipara : ℕ) :
    bytesAt m ipara 2 = Codec.leBytes 2 (paraLenAt m ipara) := by
  have h₀ := (m ipara).toNat_lt
  have hlow : UInt8.ofNat (paraLenAt m ipara) = m ipara := by
    apply UInt8.toNat.inj
    rw [UInt8.toNat_ofNat']
    unfold paraLenAt
    omega
  have hhigh : UInt8.ofNat (paraLenAt m ipara / 256) = m (ipara + 1) := by
    have h₁ := (m (ipara + 1)).toNat_lt
    apply UInt8.toNat.inj
    rw [UInt8.toNat_ofNat']
    unfold paraLenAt
    omega
  unfold Codec.leBytes Codec.leBytes Codec.leBytes
  rw [hlow, hhigh]
  rfl

theorem leBytes_two_inj {a b : ℕ} (ha : a < 65536) (hb : b < 65536)
    (h : Codec.leBytes 2 a = Codec.leBytes 2 b) : a = b := by
  have hread := Codec.readLe_leBytes 2 a [] ha
  rw [h, Codec.readLe_leBytes 2 b [] hb] at hread
  exact (congrArg Prod.fst (Option.some.inj hread)).symm

@[simp] theorem length_itemBytes (item : Bytes) : (itemBytes item).length = item.length + 2 := by
  unfold itemBytes
  rw [List.length_append, Codec.length_leBytes, Nat.add_comm]

/-- An item in front of items. -/
theorem items_cons (hlen : paraLenAt m ipara + 2 ≤ n)
    (hrest : HoldsItems m (ipara + 2 + paraLenAt m ipara) (n - (paraLenAt m ipara + 2)) items) :
    HoldsItems m ipara n (bytesAt m (ipara + 2) (paraLenAt m ipara) :: items) := by
  have hsplit : n = 2 + (paraLenAt m ipara + (n - (paraLenAt m ipara + 2))) := by omega
  refine ⟨?_, ?_⟩
  · rw [hsplit, bytesAt_add, bytesAt_add, bytesAt_two, hrest.1]
    show _ = itemBytes _ ++ itemsBytes items
    unfold itemBytes
    rw [length_bytesAt, List.append_assoc]
  · intro item hitem
    rcases List.mem_cons.mp hitem with rfl | hitem
    · rw [length_bytesAt]
      exact paraLenAt_lt m ipara
    · exact hrest.2 item hitem

/-- What items begin with: the length and the bytes of the first one. -/
theorem items_head (h : HoldsItems m ipara n items) (hn : 0 < n) : ∃ rest,
    items = bytesAt m (ipara + 2) (paraLenAt m ipara) :: rest ∧ paraLenAt m ipara + 2 ≤ n ∧
      HoldsItems m (ipara + 2 + paraLenAt m ipara) (n - (paraLenAt m ipara + 2)) rest := by
  obtain ⟨hbytes, hlengths⟩ := h
  cases items with
  | nil =>
    have hlen := congrArg List.length hbytes
    rw [length_bytesAt] at hlen
    change n = 0 at hlen
    omega
  | cons item rest =>
    have hitem := hlengths item List.mem_cons_self
    change _ = itemBytes item ++ itemsBytes rest at hbytes
    have hlen := congrArg List.length hbytes
    rw [length_bytesAt, List.length_append, length_itemBytes] at hlen
    have hsplit : n = 2 + (item.length + (n - (item.length + 2))) := by omega
    unfold itemBytes at hbytes
    rw [hsplit, bytesAt_add, bytesAt_add, List.append_assoc] at hbytes
    obtain ⟨htwo, hbytes⟩ := List.append_inj hbytes (by rw [length_bytesAt, Codec.length_leBytes])
    obtain ⟨hbody, htail⟩ := List.append_inj hbytes (by rw [length_bytesAt])
    have hpara : item.length = paraLenAt m ipara := by
      rw [bytesAt_two] at htwo
      exact (leBytes_two_inj (paraLenAt_lt m ipara) hitem htwo).symm
    rw [hpara] at hbody htail hlen
    refine ⟨rest, by rw [hbody], by omega, htail, ?_⟩
    intro v hv
    exact hlengths v (List.mem_cons_of_mem item hv)

/-! ## The loop -/

theorem dataLoop_zero (m : ℕ → UInt8) (ipara : ℕ) : dataLoop m ipara 0 = ⟨true, [], []⟩ := by
  rw [dataLoop, if_pos rfl]

theorem dataLoop_refuse (hn : n ≠ 0) (h : paraLenAt m ipara = 0 ∨ n < paraLenAt m ipara + 2) :
    dataLoop m ipara n = ⟨false, [], [ipara, ipara + 1]⟩ := by
  rw [dataLoop, if_neg hn]
  dsimp only
  rw [if_pos h]

theorem dataLoop_item (hn : n ≠ 0) (h : ¬ (paraLenAt m ipara = 0 ∨ n < paraLenAt m ipara + 2)) :
    dataLoop m ipara n =
      ⟨(dataLoop m (ipara + 2 + paraLenAt m ipara) (n - (paraLenAt m ipara + 2))).ok,
        bytesAt m (ipara + 2) (paraLenAt m ipara) ::
          (dataLoop m (ipara + 2 + paraLenAt m ipara) (n - (paraLenAt m ipara + 2))).ret,
        List.range' ipara (2 + paraLenAt m ipara) ++
          (dataLoop m (ipara + 2 + paraLenAt m ipara) (n - (paraLenAt m ipara + 2))).reads⟩ := by
  rw [dataLoop, if_neg hn]
  dsimp only
  rw [if_neg h]

/-- The loop succeeds exactly on nonempty items that fill the length, and returns them. -/
theorem dataLoop_ok_iff (m : ℕ → UInt8) (ipara n : ℕ) (items : List Bytes) :
    (dataLoop m ipara n).ok = true ∧ (dataLoop m ipara n).ret = items ↔
      HoldsItems m ipara n items ∧ NoEmpty items := by
  induction n using Nat.strong_induction_on generalizing ipara items with
  | _ n ih =>
    by_cases hn : n = 0
    · subst hn
      rw [dataLoop_zero]
      constructor
      · rintro ⟨-, rfl⟩
        exact ⟨⟨rfl, by simp⟩, fun item hitem => by cases hitem⟩
      · rintro ⟨⟨hbytes, -⟩, -⟩
        refine ⟨rfl, ?_⟩
        cases items with
        | nil => rfl
        | cons item rest =>
          have hlen := congrArg List.length hbytes
          change 0 = (itemBytes item ++ itemsBytes rest).length at hlen
          rw [List.length_append, length_itemBytes] at hlen
          omega
    by_cases hrefuse : paraLenAt m ipara = 0 ∨ n < paraLenAt m ipara + 2
    · rw [dataLoop_refuse hn hrefuse]
      constructor
      · rintro ⟨hok, -⟩
        cases hok
      · rintro ⟨hitems, hne⟩
        obtain ⟨rest, rfl, hlen, -⟩ := items_head hitems (by omega)
        have hfirst := hne _ List.mem_cons_self
        have hpos := List.length_pos_iff.mpr hfirst
        rw [length_bytesAt] at hpos
        omega
    · rw [dataLoop_item hn hrefuse]
      dsimp only
      have hlen : paraLenAt m ipara + 2 ≤ n := by omega
      constructor
      · rintro ⟨hok, rfl⟩
        obtain ⟨hrest, hne⟩ := (ih _ (by omega) _ _).mp ⟨hok, rfl⟩
        refine ⟨items_cons hlen hrest, ?_⟩
        intro item hitem
        rcases List.mem_cons.mp hitem with rfl | hitem
        · apply List.length_pos_iff.mp
          rw [length_bytesAt]
          omega
        · exact hne item hitem
      · rintro ⟨hitems, hne⟩
        obtain ⟨rest, rfl, -, hrest⟩ := items_head hitems (by omega)
        have hne' : NoEmpty rest := by
          intro item hitem
          exact hne item (List.mem_cons_of_mem _ hitem)
        obtain ⟨hok, hret⟩ := (ih _ (by omega) _ _).mpr ⟨hrest, hne'⟩
        exact ⟨hok, by rw [hret]⟩

/-- All but one of the bytes are a list of nonempty items. -/
def LeftOver (m : ℕ → UInt8) (ipara n : ℕ) : Prop :=
  0 < n ∧ ∃ items, HoldsItems m ipara (n - 1) items ∧ NoEmpty items

/-- The loop reads up to the byte behind the length, and that byte exactly when it finds one byte
left over. -/
theorem dataLoop_reads (m : ℕ → UInt8) (ipara n : ℕ) :
    (∀ a ∈ (dataLoop m ipara n).reads, ipara ≤ a ∧ a ≤ ipara + n) ∧
      (ipara + n ∈ (dataLoop m ipara n).reads ↔ LeftOver m ipara n) := by
  induction n using Nat.strong_induction_on generalizing ipara with
  | _ n ih =>
    by_cases hn : n = 0
    · subst hn
      rw [dataLoop_zero]
      refine ⟨by simp, ?_⟩
      constructor
      · intro h
        cases h
      · rintro ⟨h, -⟩
        omega
    by_cases hrefuse : paraLenAt m ipara = 0 ∨ n < paraLenAt m ipara + 2
    · rw [dataLoop_refuse hn hrefuse]
      dsimp only
      refine ⟨?_, ?_⟩
      · intro a ha
        simp only [List.mem_cons, List.not_mem_nil, or_false] at ha
        omega
      · constructor
        · intro h
          simp only [List.mem_cons, List.not_mem_nil, or_false] at h
          have hone : n = 1 := by omega
          subst hone
          exact ⟨by omega, [], ⟨rfl, by simp⟩, fun item hitem => by cases hitem⟩
        · rintro ⟨-, items, hitems, hne⟩
          by_cases hone : n = 1
          · subst hone
            simp
          · obtain ⟨rest, rfl, hlen, -⟩ := items_head hitems (by omega)
            have hpos := List.length_pos_iff.mpr (hne _ List.mem_cons_self)
            rw [length_bytesAt] at hpos
            omega
    · rw [dataLoop_item hn hrefuse]
      dsimp only
      obtain ⟨hbounds, hlast⟩ := ih (n - (paraLenAt m ipara + 2)) (by omega) (ipara + 2 + paraLenAt m ipara)
      have hend : ipara + 2 + paraLenAt m ipara + (n - (paraLenAt m ipara + 2)) = ipara + n := by omega
      rw [hend] at hlast hbounds
      refine ⟨?_, ?_⟩
      · intro a ha
        rcases List.mem_append.mp ha with ha | ha
        · rw [List.mem_range'_1] at ha
          omega
        · have hb := hbounds a ha
          omega
      · rw [List.mem_append, List.mem_range'_1, hlast]
        constructor
        · rintro (h | ⟨hpos, items, hitems, hne⟩)
          · omega
          · have hrest : n - (paraLenAt m ipara + 2) - 1 = n - 1 - (paraLenAt m ipara + 2) := by omega
            rw [hrest] at hitems
            refine ⟨by omega, _, items_cons (by omega) hitems, ?_⟩
            intro item hitem
            rcases List.mem_cons.mp hitem with rfl | hitem
            · apply List.length_pos_iff.mp
              rw [length_bytesAt]
              omega
            · exact hne item hitem
        · rintro ⟨-, items, hitems, hne⟩
          right
          obtain ⟨rest, rfl, hlen, htail⟩ := items_head hitems (by omega)
          have hrest : n - 1 - (paraLenAt m ipara + 2) = n - (paraLenAt m ipara + 2) - 1 := by omega
          rw [hrest] at htail
          exact ⟨by omega, rest, htail, fun item hitem => hne item (List.mem_cons_of_mem _ hitem)⟩

/-- A list that fills the length leaves no byte over. -/
theorem not_leftOver (hitems : HoldsItems m ipara n items) (hne : NoEmpty items) :
    ¬ LeftOver m ipara n := by
  induction n using Nat.strong_induction_on generalizing ipara items with
  | _ n ih =>
    rintro ⟨hpos, items', hitems', hne'⟩
    obtain ⟨rest, rfl, hlen, htail⟩ := items_head hitems hpos
    obtain ⟨rest', rfl, hlen', htail'⟩ := items_head hitems' (by omega)
    have hback : n - 1 - (paraLenAt m ipara + 2) = n - (paraLenAt m ipara + 2) - 1 := by omega
    rw [hback] at htail'
    apply ih (n - (paraLenAt m ipara + 2)) (by omega) htail
      (fun item hitem => hne item (List.mem_cons_of_mem _ hitem))
    exact ⟨by omega, rest', htail', fun item hitem => hne' item (List.mem_cons_of_mem _ hitem)⟩

/-! ## The function -/

/-- What `GetData` reads behind the stored length when one byte is left over there. -/
theorem leftOver_reads (hlow : 0 < paraLenAt m ipara) (hhigh : paraLenAt m ipara < maxShareRam) :
    ipara + 2 + paraLenAt m ipara ∈ (getDataAt m ipara).reads ↔
      LeftOver m (ipara + 2) (paraLenAt m ipara) := by
  have hlast := (dataLoop_reads m (ipara + 2) (paraLenAt m ipara)).2
  unfold getDataAt
  dsimp only
  rw [if_neg (by omega), List.mem_cons, List.mem_cons, hlast]
  constructor
  · rintro (h | h | h)
    · omega
    · omega
    · exact h
  · intro h
    exact Or.inr (Or.inr h)

theorem getDataAt_ok_iff (m : ℕ → UInt8) (ipara : ℕ) (items : List Bytes) :
    (getDataAt m ipara).ok = true ∧ (getDataAt m ipara).ret = items ↔
      (0 < paraLenAt m ipara ∧ paraLenAt m ipara < maxShareRam) ∧
        HoldsItems m (ipara + 2) (paraLenAt m ipara) items ∧ NoEmpty items := by
  unfold getDataAt
  dsimp only
  by_cases hrefuse : paraLenAt m ipara = 0 ∨ maxShareRam ≤ paraLenAt m ipara
  · rw [if_pos hrefuse]
    constructor
    · rintro ⟨hok, -⟩
      cases hok
    · rintro ⟨hrange, -⟩
      omega
  · rw [if_neg hrefuse]
    dsimp only
    rw [dataLoop_ok_iff]
    constructor
    · intro h
      exact ⟨by omega, h⟩
    · rintro ⟨-, h⟩
      exact h

/-- No read goes further than that byte. -/
theorem getDataAt_bounds (m : ℕ → UInt8) (ipara : ℕ) : ∀ a ∈ (getDataAt m ipara).reads,
    ipara ≤ a ∧ a ≤ ipara + 2 + paraLenAt m ipara ∧ a ≤ ipara + maxShareRam + 1 := by
  have hbounds := (dataLoop_reads m (ipara + 2) (paraLenAt m ipara)).1
  have hmax : maxShareRam = 4096 := rfl
  unfold getDataAt
  dsimp only
  intro a ha
  by_cases hrefuse : paraLenAt m ipara = 0 ∨ maxShareRam ≤ paraLenAt m ipara
  · rw [if_pos hrefuse] at ha
    simp only [List.mem_cons, List.not_mem_nil, or_false] at ha
    omega
  · rw [if_neg hrefuse] at ha
    dsimp only at ha
    rcases List.mem_cons.mp ha with rfl | ha
    · omega
    rcases List.mem_cons.mp ha with rfl | ha
    · omega
    have hb := hbounds a ha
    omega

/-- The byte behind the stored length is not read when none is left over. -/
theorem getDataAt_reads (hno : ¬ LeftOver m (ipara + 2) (paraLenAt m ipara)) :
    ∀ a ∈ (getDataAt m ipara).reads,
      ipara ≤ a ∧ a < ipara + 2 + paraLenAt m ipara ∧ a ≤ ipara + maxShareRam := by
  intro a ha
  have hb := getDataAt_bounds m ipara a ha
  have hmax : maxShareRam = 4096 := rfl
  by_cases hrefuse : paraLenAt m ipara = 0 ∨ maxShareRam ≤ paraLenAt m ipara
  · unfold getDataAt at ha
    dsimp only at ha
    rw [if_pos hrefuse] at ha
    simp only [List.mem_cons, List.not_mem_nil, or_false] at ha
    omega
  · have hne : a ≠ ipara + 2 + paraLenAt m ipara := by
      rintro rfl
      exact hno ((leftOver_reads (by omega) (by omega)).mp ha)
    omega

end

/-! ## The parser of the handlers -/

theorem bytesAt_drop (m : ℕ → UInt8) (ipara : ℕ) {k n : ℕ} (h : k ≤ n) :
    (bytesAt m ipara n).drop k = bytesAt m (ipara + k) (n - k) := by
  have hsplit := bytesAt_add m ipara k (n - k)
  rw [Nat.add_sub_cancel' h] at hsplit
  rw [hsplit]
  exact List.drop_left' (length_bytesAt m ipara k)

theorem bytesAt_take (m : ℕ → UInt8) (ipara : ℕ) {k n : ℕ} (h : k ≤ n) :
    (bytesAt m ipara n).take k = bytesAt m ipara k := by
  have hsplit := bytesAt_add m ipara k (n - k)
  rw [Nat.add_sub_cancel' h] at hsplit
  rw [hsplit]
  exact List.take_left' (length_bytesAt m ipara k)

theorem getD_bytesAt (m : ℕ → UInt8) (ipara : ℕ) {i n : ℕ} (h : i < n) :
    (bytesAt m ipara n).getD i 0 = m (ipara + i) := by
  unfold bytesAt
  rw [List.getD_eq_getElem?_getD, List.getElem?_map, List.getElem?_range h]
  rfl

theorem getParaLen_bytesAt (m : ℕ → UInt8) (ipara : ℕ) {n : ℕ} (h : 2 ≤ n) :
    getParaLen (bytesAt m ipara n) = paraLenAt m ipara := by
  unfold getParaLen
  rw [getD_bytesAt m ipara (by omega), getD_bytesAt m ipara (by omega)]
  rfl

/-- The loop over bytes that the handlers get is the one over the memory. -/
theorem getParas_eq (m : ℕ → UInt8) (k ipara totallen n : ℕ) (hfuel : totallen ≤ k)
    (hn : totallen ≤ n) : (getParas k totallen (bytesAt m ipara n)).map (List.map Subtype.val)
      = if (dataLoop m ipara totallen).ok then some (dataLoop m ipara totallen).ret else none := by
  induction k generalizing ipara totallen n with
  | zero =>
    have hzero : totallen = 0 := by omega
    subst hzero
    rw [dataLoop_zero]
    rfl
  | succ k ih =>
    by_cases hzero : totallen = 0
    · subst hzero
      rw [dataLoop_zero]
      rfl
    obtain ⟨t, rfl⟩ : ∃ t, totallen = t + 1 := ⟨totallen - 1, by omega⟩
    unfold getParas
    dsimp only
    by_cases hone : n = 1
    · -- one byte: the length does not fit, whatever it is
      rw [if_pos (by omega), dataLoop_refuse (by omega) (by omega)]
      rfl
    rw [getParaLen_bytesAt m ipara (by omega)]
    by_cases hrefuse : paraLenAt m ipara = 0 ∨ t + 1 < paraLenAt m ipara + 2
    · rw [if_pos hrefuse, dataLoop_refuse (by omega) hrefuse]
      rfl
    · have hbody : ((bytesAt m ipara n).drop 2).take (paraLenAt m ipara)
          = bytesAt m (ipara + 2) (paraLenAt m ipara) := by
        rw [bytesAt_drop m ipara (by omega), bytesAt_take m (ipara + 2) (by omega)]
      have hne : bytesAt m (ipara + 2) (paraLenAt m ipara) ≠ [] := by
        apply List.length_pos_iff.mp
        rw [length_bytesAt]
        omega
      have hrest := ih (ipara + 2 + paraLenAt m ipara) (t + 1 - (paraLenAt m ipara + 2))
        (n - (paraLenAt m ipara + 2)) (by omega) (by omega)
      have hbehind : (bytesAt m ipara n).drop (paraLenAt m ipara + 2)
          = bytesAt m (ipara + 2 + paraLenAt m ipara) (n - (paraLenAt m ipara + 2)) := by
        have hend : ipara + (paraLenAt m ipara + 2) = ipara + 2 + paraLenAt m ipara := by omega
        rw [bytesAt_drop m ipara (by omega), hend]
      rw [if_neg hrefuse, dataLoop_item (by omega) hrefuse]
      simp only [hbody, hbehind]
      rw [dif_pos hne, Option.map_map]
      cases hgo : getParas k (t + 1 - (paraLenAt m ipara + 2))
          (bytesAt m (ipara + 2 + paraLenAt m ipara) (n - (paraLenAt m ipara + 2))) with
      | none =>
        rw [hgo, Option.map_none] at hrest
        by_cases hok : (dataLoop m (ipara + 2 + paraLenAt m ipara)
            (t + 1 - (paraLenAt m ipara + 2))).ok = true
        · rw [if_pos hok] at hrest
          cases hrest
        · rw [if_neg hok]
          rfl
      | some paras =>
        rw [hgo, Option.map_some] at hrest
        by_cases hok : (dataLoop m (ipara + 2 + paraLenAt m ipara)
            (t + 1 - (paraLenAt m ipara + 2))).ok = true
        · rw [if_pos hok] at hrest ⊢
          rw [← Option.some_inj.mp hrest]
          rfl
        · rw [if_neg hok] at hrest
          cases hrest

/-- What a handler gets is what `GetData` makes of the machine's shared memory. -/
theorem getData_share (c : CVm8051) :
    (getData c.share).map (List.map Subtype.val)
      = if (getDataAt (fun a => c.exRam (UInt16.ofNat a)) vmShareAddr).ok
        then some (getDataAt (fun a => c.exRam (UInt16.ofNat a)) vmShareAddr).ret else none := by
  have hshare : c.share = bytesAt (fun a => c.exRam (UInt16.ofNat a)) vmShareAddr (65536 - vmShareAddr) :=
    rfl
  have hsize : 65536 - vmShareAddr = 4097 := rfl
  have hmax : maxShareRam = 4096 := rfl
  rw [hshare, hsize]
  unfold getData getDataAt
  dsimp only
  rw [getParaLen_bytesAt _ _ (by omega)]
  by_cases hrefuse : paraLenAt (fun a => c.exRam (UInt16.ofNat a)) vmShareAddr = 0 ∨
      maxShareRam ≤ paraLenAt (fun a => c.exRam (UInt16.ofNat a)) vmShareAddr
  · rw [if_pos hrefuse, if_pos hrefuse]
    rfl
  · rw [if_neg hrefuse, if_neg hrefuse, bytesAt_drop _ _ (by omega),
      getParas_eq _ _ _ _ _ (le_refl _) (by omega)]

/-- A memory with these bytes at `VM_SHARE_ADDR` and zeroes elsewhere. -/
def shareMemory (vch : Bytes) (a : ℕ) : UInt8 :=
  if a < vmShareAddr then 0 else vch.getD (a - vmShareAddr) 0

end CVm8051

open CVm8051 in
/-- From any address of any memory: the function succeeds exactly when the stored length is from 1
to 4095 and the bytes behind it are a list of nonempty items that fills it, and returns that list.
Where it succeeds, and wherever no single byte is left over, it reads the stored length and bytes
that it counts, which from `VM_SHARE_ADDR` end at 0xFFFF; anywhere it reads at most the byte behind
them too, and that one exactly where a byte is left over. -/
theorem paraList_spec (m : ℕ → UInt8) (ipara : ℕ) :
    (∀ items, (getDataAt m ipara).ok = true ∧ (getDataAt m ipara).ret = items ↔
      (0 < paraLenAt m ipara ∧ paraLenAt m ipara < maxShareRam) ∧
        HoldsItems m (ipara + 2) (paraLenAt m ipara) items ∧ NoEmpty items) ∧
    ((getDataAt m ipara).ok = true ∨ ¬ LeftOver m (ipara + 2) (paraLenAt m ipara) →
      ∀ a ∈ (getDataAt m ipara).reads,
        ipara ≤ a ∧ a < ipara + 2 + paraLenAt m ipara ∧ a ≤ ipara + maxShareRam) ∧
    (∀ a ∈ (getDataAt m ipara).reads,
      ipara ≤ a ∧ a ≤ ipara + 2 + paraLenAt m ipara ∧ a ≤ ipara + maxShareRam + 1) ∧
    (0 < paraLenAt m ipara → paraLenAt m ipara < maxShareRam →
      (ipara + 2 + paraLenAt m ipara ∈ (getDataAt m ipara).reads ↔
        LeftOver m (ipara + 2) (paraLenAt m ipara))) := by
  refine ⟨getDataAt_ok_iff m ipara, ?_, getDataAt_bounds m ipara, leftOver_reads⟩
  intro h
  apply getDataAt_reads
  rcases h with hok | hno
  · obtain ⟨-, hitems, hne⟩ := (getDataAt_ok_iff m ipara _).mp ⟨hok, rfl⟩
    exact not_leftOver hitems hne
  · exact hno

open CVm8051 in
/-- One item of three bytes: eight addresses are read, all of them in the shared memory. -/
theorem paraList_spec_one :
    (getDataAt (shareMemory [5, 0, 3, 0, 7, 8, 9]) vmShareAddr).ret = [[7, 8, 9]] ∧
      ∀ a ∈ (getDataAt (shareMemory [5, 0, 3, 0, 7, 8, 9]) vmShareAddr).reads, a ≤ 0xffff := by
  obtain ⟨hiff, hreads, -⟩ := paraList_spec (shareMemory [5, 0, 3, 0, 7, 8, 9]) vmShareAddr
  obtain ⟨hok, hret⟩ := (hiff [[7, 8, 9]]).mpr
    ⟨by decide +kernel, ⟨by decide +kernel, by decide +kernel⟩, by
      intro item hitem
      rw [List.mem_singleton.mp hitem]
      exact List.cons_ne_nil _ _⟩
  refine ⟨hret, ?_⟩
  intro a ha
  exact (hreads (Or.inl hok) a ha).2.2

open CVm8051 in
/-- A list of one empty item that fills the stored length is refused. -/
theorem empty_item_refused : ¬ ∀ (m : ℕ → UInt8) (ipara : ℕ),
    (∀ a ∈ (getDataAt m ipara).reads, ipara ≤ a ∧ a ≤ ipara + maxShareRam) ∧
      ∀ items, (getDataAt m ipara).ok = true ∧ (getDataAt m ipara).ret = items ↔
        HoldsItems m (ipara + 2) (paraLenAt m ipara) items := by
  intro h
  have hitems : HoldsItems (shareMemory [2, 0, 0, 0]) (vmShareAddr + 2)
      (paraLenAt (shareMemory [2, 0, 0, 0]) vmShareAddr) [[]] := by
    refine ⟨by decide +kernel, ?_⟩
    intro item hitem
    rw [List.mem_singleton.mp hitem]
    decide
  obtain ⟨hok, -⟩ := ((h (shareMemory [2, 0, 0, 0]) vmShareAddr).2 [[]]).mpr hitems
  obtain ⟨-, -, hne⟩ := (getDataAt_ok_iff _ _ _).mp ⟨hok, rfl⟩
  have hret : (getDataAt (shareMemory [2, 0, 0, 0]) vmShareAddr).ret = [[]] :=
    (((h (shareMemory [2, 0, 0, 0]) vmShareAddr).2 [[]]).mpr hitems).2
  rw [hret] at hne
  exact hne [] List.mem_cons_self rfl

end Dacrs
