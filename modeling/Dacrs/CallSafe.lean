import Dacrs.RunSteps

/-!
# Calls that are served

A call out of the 8051 core is served when its method is in the table, its handler throws nothing, and
what the handler hands back can be copied.  `call_served_iff` says for which methods, parameters and
states that is so, and for which runs it is so of every call.
-/

open Codec (Bytes)

namespace Dacrs

namespace CVm8051

open Except (avoids_ok avoids_error)

/-! ## Handing back -/

/-- What is copied into the shared memory has no empty string: `&it.at(0)` is taken of each. -/
def RetDefine.Copied (ret : RetDefine) : Prop :=
  ret.status = 1 → (ret.data.map fun it => it.length + 2).sum + 2 < maxShareRam → [] ∉ ret.data

/-- The handler throws nothing, and what it hands back can be copied. -/
def Served (x : Exec (RetDefine × VmState)) : Prop :=
  x.Orderly ∧ ∀ ret st, x = .ok (ret, st) → ret.Copied

theorem writeBack_orderly (c : CVm8051) (data : List Bytes) : (c.writeBack data).Orderly ↔
    ((data.map fun it => it.length + 2).sum + 2 < maxShareRam → [] ∉ data) := by
  unfold writeBack
  dsimp only
  by_cases hroom : (data.map fun it => it.length + 2).sum + 2 < maxShareRam
  · rw [if_pos hroom, forall_prop_of_true hroom]
    by_cases hmem : [] ∈ data
    · rw [if_pos hmem]
      exact iff_of_false Exec.not_orderly_throw (not_not.mpr hmem)
    · rw [if_neg hmem]
      exact iff_of_true (avoids_ok _) hmem
  · rw [if_neg hroom]
    exact iff_of_true (avoids_ok _) fun h => absurd h hroom

theorem afterCall_orderly (maxstep : UInt64) (r : RunState) (ret : RetDefine) (st : VmState) :
    (afterCall maxstep r ret st).Orderly ↔ ret.Copied := by
  unfold afterCall RetDefine.Copied
  dsimp only
  by_cases hone : ret.status = 1
  · rw [if_pos hone, forall_prop_of_true hone, ← writeBack_orderly r.cpu.clearShare]
    refine Exec.orderly_bind.trans ?_
    exact and_iff_left fun cpu _ => avoids_ok _
  · rw [if_neg hone]
    refine iff_of_true ?_ fun h => absurd h hone
    split
    · exact avoids_ok _
    · exact avoids_ok _

theorem served_ok {ret : RetDefine} {st : VmState} : Served (.ok (ret, st)) ↔ ret.Copied := by
  constructor
  · rintro ⟨-, h⟩
    exact h ret st rfl
  · intro h
    refine ⟨avoids_ok _, ?_⟩
    rintro _ _ ⟨⟩
    exact h

theorem not_served_throw {what : String} : ¬ Served (Exec.throw what) :=
  fun h => Exec.not_orderly_throw h.1

theorem served_bind {α : Type} {x : Exec α} {f : α → Exec (RetDefine × VmState)} :
    Served (x >>= f) ↔ x.Orderly ∧ ∀ a, x = .ok a → Served (f a) := by
  unfold Served
  constructor
  · rintro ⟨horderly, hcopied⟩
    obtain ⟨hx, hf⟩ := Exec.orderly_bind.mp horderly
    refine ⟨hx, fun a ha => ⟨hf a ha, fun ret st hret => hcopied ret st ?_⟩⟩
    rw [ha]
    exact hret
  · rintro ⟨hx, hf⟩
    refine ⟨Exec.orderly_bind.mpr ⟨hx, fun a ha => (hf a ha).1⟩, fun ret st h => ?_⟩
    obtain ⟨a, ha, hret⟩ := Except.bind_eq_ok.mp h
    exact (hf a ha).2 ret st hret

theorem served_refuse (st : VmState) : Served (refuse st) := by
  refine served_ok.mpr ?_
  rintro ⟨⟩

theorem served_answer {data : List Bytes} {st : VmState} : Served (answer data st) ↔
    ((data.map fun it => it.length + 2).sum + 2 < maxShareRam → [] ∉ data) := by
  refine served_ok.trans ?_
  exact forall_prop_of_true rfl

theorem served_answer_one {vch : Bytes} {st : VmState} : Served (answer [vch] st) ↔ vch ≠ [] := by
  refine served_answer.trans ?_
  rw [List.mem_singleton]
  constructor
  · rintro h rfl
    exact h (by decide) rfl
  · intro h _ heq
    exact h heq.symm

theorem served_answerOption {data : Option Bytes} {st : VmState} : Served (answerOption data st) ↔
    ∀ vch, data = some vch → vch ≠ [] := by
  cases data with
  | none =>
    refine iff_of_true (served_refuse st) ?_
    rintro _ ⟨⟩
  | some vch =>
    refine served_answer_one.trans ?_
    simp

theorem served_flag (on : Bool) (status step : ℤ) (st : VmState) :
    Served (.ok (⟨status, step, [boolBytes on]⟩, st)) := by
  refine served_ok.mpr fun _ _ => ?_
  dsimp only
  rw [List.mem_singleton]
  rintro ⟨⟩

/-! ## Conditions -/

/-- What a handler needs of the parameters and the state. -/
abbrev Needs := Option (List Para) → VmState → Prop

/-- Most handlers serve every call. -/
def nothing : Needs := fun _ _ => True

/-- The quotient of the two numbers is one of 64 bits. -/
def needsQuotient : Needs := fun para _ => ∀ p q, para = some [p, q] → p.val.length = 8 →
  q.val.length = 8 → ¬ (int64Of p.val = Int64.minValue ∧ int64Of q.val = -1)

section
variable (node : Node) (lib : VmLibrary) (tx : CTransaction) (view : CAccountViewCache) (des : CRegID)
  (nHeight : ℤ)

/-- The transaction of a hash, if there is one, is a `CTransaction` of some kind. -/
def needsTransaction (Q : CTransaction → Prop) : Needs := fun para st => ∀ p, para = some [p] →
  p.val.length = 32 → ∀ t, (getTransaction node lib st (hashOf p.val)).1 = some t →
    ∃ tx, t = .transaction tx ∧ Q tx

/-- Its contract has a byte. -/
def HasContract (tx : CTransaction) : Prop := tx.vchContract ≠ []

/-- Its sender is a registration id. -/
def FromRegID (tx : CTransaction) : Prop := ∃ r, tx.cSrcRegId = .regID r

/-- The account of an id has a key. -/
def needsKey : Needs := fun para _ => ∀ p, para = some [p] → p.val.length = 6 ∨ p.val.length = 34 →
  ∀ a, accountOf node view p.val = some a → a.cPublicKey.isFullyValid node.cr

/-- The counter record of the contract's data can be read. -/
def CountReads (s : CScriptDBViewCache) : Prop :=
  ∀ v, s.getData (CScriptDBViewCache.scriptDataCountKey des.getVec6) = some v →
    (Codec.i32.read v).isSome

/-- A new key is counted. -/
def needsCountUnless : Needs := fun para st => ∀ p q, para = some [p, q] →
  st.scriptDB.haveScriptData des.getVec6 p.val = false → CountReads des st.scriptDB

/-- A deleted key is counted too. -/
def needsCountIf : Needs := fun para st => ∀ p, para = some [p] →
  st.scriptDB.haveScriptData des.getVec6 p.val = true → CountReads des st.scriptDB

def needsCount : Needs := fun _ st => CountReads des st.scriptDB

/-- A pair that is copied has two parts. -/
def PairCopied (key value : Bytes) : Prop :=
  key.length + value.length + 6 < maxShareRam → key ≠ [] ∧ value ≠ []

/-- The record behind a key, or the first one, is found without reading a key past its end, and can be
copied. -/
def IndexServes (q : Option Bytes) (st : VmState) : Prop :=
  ScriptStack.Reads st.db des.getVec6 st.caches q ∧
    ∀ key value, Cursor.Least (ScriptStack.shownAfter st.db st.caches des.getVec6 q) (Cursor.After q)
      (some (key, value)) → PairCopied key value

/-- The first parameter has an `int`, and what it asks for is found and copied. -/
def needsIndex : Needs := fun para st => lib.bDbTraversal = true →
  (∀ p rest, para = some (p :: rest) → rest.length ≤ 1 → 4 ≤ p.val.length) ∧
  ∀ p rest, para = some (p :: rest) → rest.length ≤ 1 → ∀ index, intOf p.val = .ok index →
    (index = 0 → IndexServes des none st) ∧ (index = 1 → ∀ q, rest = [q] → IndexServes des (some q.val) st)

/-- A format that is not read past its end: while the numbers it names are in the contract, the type
of a byte string is not the last one. -/
def FormatEnds : Bytes → Bytes → Prop
  | [], _ => True
  | 6 :: [], _ => False
  | 6 :: te :: format, contact =>
    ∀ vch rest, inflateBytes te.toNat contact = some (vch, rest) → FormatEnds format rest
  | item :: format, contact => item < 6 →
    ∀ vch rest, inflate (if item < 3 then 16 else if item = 3 then 32 else 64) contact = some (vch, rest) →
      FormatEnds format rest

/-- A format of nothing but byte strings without a byte. -/
def formatBlank : Bytes → Bool
  | [] => true
  | 6 :: 0 :: format => formatBlank format
  | _ => false

/-- The format ends in time, and names something. -/
def FormatServes (format contact : Bytes) : Prop := FormatEnds format contact ∧ formatBlank format = false

def needsFormat : Needs := fun para _ => ∀ p, para = some [p] → FormatServes p.val tx.vchContract

def needsFormatOf : Needs := fun para st => ∀ p q, para = some [p, q] → q.val.length = 32 →
  ∀ t, (getTransaction node lib st (hashOf q.val)).1 = some t →
    ∃ tx, t = .transaction tx ∧ FormatServes p.val tx.vchContract

/-- The account of an app user can be loaded. -/
def UserLoads (s : CScriptDBViewCache) (id : Bytes) : Prop :=
  CVmRunEvn.RecordReads s des id ∧
    ((s.getData (CScriptDBViewCache.scriptAccKey des.getVec6 id)).isSome →
      CVmRunEvn.ChainReaches node.chainActive des.uHeight nHeight)

/-- The id of an app user has a length that fits. -/
def needsUser : Needs := fun para st => ∀ p, para = some [p] → p.val.length = 41 →
  (p.val.headD 0).toNat ≤ maxTagSize ∧
    UserLoads node des nHeight st.scriptDB ((p.val.drop 1).take (p.val.headD 0).toNat)

/-- The record names a user, and the tag fits when an account is loaded for him. -/
def needsFund : Needs := fun para st => ∀ p, para = some [p] → p.val.length = AppFundRecord.size →
  ∀ userfund rest, AppFundRecord.unserialize p.val = some (userfund, rest) →
    userfund.Identified ∧
    UserLoads node des nHeight st.scriptDB
      (userfund.arruchAppuser.take userfund.uchAppuserIDlen.toNat) ∧
    ∀ a copied, getAppUserAccout node des nHeight st
        (userfund.arruchAppuser.take userfund.uchAppuserIDlen.toNat) = .ok (some a, copied) →
      userfund.uchFundTaglen.toNat ≤ maxTagSize

/-- The records up to a refused one name users. -/
def needsUsers : Needs := fun para _ => ∀ p, para = some [p] →
  p.val.length % AppFundRecord.size = 0 → ∀ records rest,
    AppFundRecord.unserializeAll (p.val.length / AppFundRecord.size) p.val = some (records, rest) →
    NamesUsers nHeight records

def needsSender : Needs := fun _ _ => FromRegID tx
def needsContract : Needs := fun _ _ => HasContract tx

/-- What the handlers of the table need. -/
def needsMap : List Needs :=
  [nothing, nothing, nothing, nothing, needsQuotient, nothing, nothing, nothing, nothing, nothing,
    needsTransaction node lib HasContract, needsTransaction node lib FromRegID, needsKey node view,
    nothing, nothing, nothing, nothing, needsCountUnless des, needsCountIf des, nothing, needsCount des,
    needsIndex lib des, nothing, nothing, nothing, nothing, nothing, needsSender tx, needsContract tx,
    needsFormat tx, needsFormatOf node lib, nothing, needsUser node des nHeight,
    needsFund node des nHeight, needsUsers nHeight, nothing]

/-- The method is in the table, and its handler has what it needs. -/
def CallSafe (method : ℕ) (para : Option (List Para)) (st : VmState) : Prop :=
  ∃ needs, (needsMap node lib tx view des nHeight)[method]? = some needs ∧ needs para st

end

/-! ## Handlers -/

/-- Two parameters of eight bytes. -/
theorem exInt64Func_served (f : Int64 → Int64 → Exec (Option Bytes)) (para : Option (List Para))
    (st : VmState) : Served (exInt64Func f para st) ↔ ∀ p q, para = some [p, q] → p.val.length = 8 →
      q.val.length = 8 → (f (int64Of p.val) (int64Of q.val)).Orderly ∧
        ∀ vch, f (int64Of p.val) (int64Of q.val) = .ok (some vch) → vch ≠ [] := by
  unfold exInt64Func
  split
  · next p q =>
    by_cases hlen : p.val.length = 8 ∧ q.val.length = 8
    · rw [if_pos hlen, served_bind]
      simp only [served_answerOption]
      constructor
      · rintro ⟨horderly, hvch⟩ _ _ ⟨rfl⟩ _ _
        exact ⟨horderly, fun vch h => hvch (some vch) h vch rfl⟩
      · intro h
        obtain ⟨horderly, hvch⟩ := h p q rfl hlen.1 hlen.2
        refine ⟨horderly, ?_⟩
        rintro _ ha vch rfl
        exact hvch vch ha
    · rw [if_neg hlen]
      refine iff_of_true (served_refuse st) ?_
      rintro _ _ ⟨rfl⟩ hp hq
      exact absurd ⟨hp, hq⟩ hlen
  · next hno =>
    refine iff_of_true (served_refuse st) ?_
    rintro p q rfl
    exact absurd rfl (hno p q)

theorem i64_write_ne_nil (m : Int64) : Codec.i64.write m ≠ [] := by
  intro h
  cases h

/-- A function that always has an answer is served. -/
theorem exInt64Func_total {f : Int64 → Int64 → Bytes} (hf : ∀ m1 m2, f m1 m2 ≠ [])
    (para : Option (List Para)) (st : VmState) :
    Served (exInt64Func (fun m1 m2 => .ok (some (f m1 m2))) para st) := by
  refine (exInt64Func_served _ para st).mpr fun p q _ _ _ => ⟨avoids_ok _, ?_⟩
  rintro vch ⟨⟩
  exact hf _ _

theorem exInt64DivFunc_served (para : Option (List Para)) (st : VmState) :
    Served (exInt64DivFunc para st) ↔ needsQuotient para st := by
  refine (exInt64Func_served _ para st).trans ?_
  refine forall_congr' fun p => forall_congr' fun q => imp_congr_right fun _ => imp_congr_right fun _ =>
    imp_congr_right fun _ => ?_
  unfold int64Div
  by_cases h0 : int64Of q.val = 0
  · rw [if_pos h0]
    refine iff_of_true ⟨avoids_ok _, ?_⟩ ?_
    · rintro _ ⟨⟩
    · rintro ⟨-, h1⟩
      rw [h0] at h1
      cases h1
  · rw [if_neg h0]
    by_cases hmin : int64Of p.val = Int64.minValue ∧ int64Of q.val = -1
    · rw [if_pos hmin]
      exact iff_of_false (fun h => Exec.not_orderly_throw h.1) (not_not.mpr hmin)
    · rw [if_neg hmin]
      refine iff_of_true ⟨avoids_ok _, ?_⟩ hmin
      rintro _ ⟨⟩
      exact i64_write_ne_nil _

theorem uint256_write_ne_nil (h : Uint256) : uint256Codec.write h ≠ [] := by
  intro hnil
  have hlen := length_uint256Codec_write h
  rw [hnil] at hlen
  cases hlen

theorem u64_write_ne_nil (v : UInt64) : Codec.u64.write v ≠ [] := by
  intro h
  cases h

theorem u32_write_ne_nil (v : UInt32) : Codec.u32.write v ≠ [] := by
  intro h
  cases h

theorem getVec6_ne_nil (r : CRegID) : r.getVec6 ≠ [] := by
  intro h
  cases h

section
variable {node : Node} {lib : VmLibrary} {tx : CTransaction} {view : CAccountViewCache} {des : CRegID}
  {nHeight : ℤ} (para : Option (List Para)) (st : VmState)

theorem exSha256Func_served : Served (exSha256Func node para st) := by
  unfold exSha256Func
  split
  · exact served_answer_one.mpr (uint256_write_ne_nil _)
  · exact served_refuse st

theorem exDesFunc_served : Served (exDesFunc lib para st) := by
  unfold exDesFunc
  split
  · next p q r =>
    split
    · refine served_answer_one.mpr ?_
      -- a parameter has a byte, and so a block
      have hpos := List.length_pos_iff.mpr p.property
      obtain ⟨n, hn⟩ : ∃ n, (p.val.length + 7) / 8 = n + 1 := ⟨(p.val.length + 7) / 8 - 1, by omega⟩
      rw [hn]
      intro hnil
      have hblock := congrArg List.length (List.append_eq_nil_iff.mp hnil).1
      rw [Vector.length_toList] at hblock
      cases hblock
    · exact served_refuse st
  · exact served_refuse st

theorem exVerifySignatureFunc_served : Served (exVerifySignatureFunc node para st) := by
  unfold exVerifySignatureFunc
  split
  · split
    · dsimp only
      split
      · exact served_flag true 1 0 st
      · exact served_refuse st
    · exact served_refuse st
  · exact served_refuse st

theorem exSignatureFunc_served : Served (exSignatureFunc para st) := served_answer.mpr fun _ => List.not_mem_nil

theorem exLogPrintFunc_served : Served (exLogPrintFunc para st) := by
  unfold exLogPrintFunc
  split
  · exact served_answer.mpr fun _ => List.not_mem_nil
  · exact served_refuse st

/-- What is done with the transaction a handler looks up. -/
theorem asTransaction_served {f : CTransaction → Exec (RetDefine × VmState)} (t : CBaseTransaction) :
    Served (asTransaction t f) ↔ ∃ tx, t = .transaction tx ∧ Served (f tx) := by
  cases t with
  | transaction tx =>
    unfold asTransaction
    constructor
    · exact fun h => ⟨tx, rfl, h⟩
    · rintro ⟨_, ⟨rfl⟩, h⟩
      exact h
  | reward tx =>
    refine iff_of_false not_served_throw ?_
    rintro ⟨_, ⟨⟩, _⟩
  | registerAccount tx =>
    refine iff_of_false not_served_throw ?_
    rintro ⟨_, ⟨⟩, _⟩
  | registerApp tx =>
    refine iff_of_false not_served_throw ?_
    rintro ⟨_, ⟨⟩, _⟩

/-- A transaction that is looked up and cast. -/
theorem lookup_served (o : Option CBaseTransaction × VmState)
    (f : CTransaction → VmState → Exec (RetDefine × VmState)) :
    Served (match o with
      | (pBaseTx, st) => match pBaseTx with
        | some t => asTransaction t fun tx => f tx st
        | none => refuse st) ↔
      ∀ t, o.1 = some t → ∃ tx, t = .transaction tx ∧ Served (f tx o.2) := by
  obtain ⟨pBaseTx, st⟩ := o
  cases pBaseTx with
  | none =>
    refine iff_of_true (served_refuse st) ?_
    rintro _ ⟨⟩
  | some t =>
    dsimp only
    rw [asTransaction_served]
    simp

theorem srcVec6_served (tx : CTransaction) :
    Served (srcVec6 tx >>= fun item => answer [item] st) ↔ FromRegID tx := by
  refine served_bind.trans ?_
  unfold srcVec6 FromRegID
  cases htx : tx.cSrcRegId with
  | regID r =>
    refine iff_of_true ⟨avoids_ok _, ?_⟩ ⟨r, rfl⟩
    rintro _ ⟨⟩
    exact served_answer_one.mpr (getVec6_ne_nil r)
  | null =>
    refine iff_of_false (fun h => Exec.not_orderly_throw h.1) ?_
    rintro ⟨_, ⟨⟩⟩
  | keyID k =>
    refine iff_of_false (fun h => Exec.not_orderly_throw h.1) ?_
    rintro ⟨_, ⟨⟩⟩
  | pubKey k =>
    refine iff_of_false (fun h => Exec.not_orderly_throw h.1) ?_
    rintro ⟨_, ⟨⟩⟩

/-- A handler with one parameter that must have some length. -/
theorem one_served {P : Bytes → Prop} [DecidablePred P] {f : Para → Exec (RetDefine × VmState)}
    {h : Handler} (hone : ∀ p, h (some [p]) st = if P p.val then f p else refuse st)
    (hother : ∀ para, (∀ p, para ≠ some [p]) → h para st = refuse st) :
    Served (h para st) ↔ ∀ p, para = some [p] → P p.val → Served (f p) := by
  by_cases hpara : ∃ p, para = some [p]
  · obtain ⟨p, rfl⟩ := hpara
    rw [hone]
    by_cases hP : P p.val
    · rw [if_pos hP]
      constructor
      · rintro hserved _ ⟨rfl⟩ _
        exact hserved
      · exact fun hall => hall p rfl hP
    · rw [if_neg hP]
      refine iff_of_true (served_refuse st) ?_
      rintro _ ⟨rfl⟩ h
      exact absurd h hP
  · have hno := not_exists.mp hpara
    rw [hother para hno]
    exact iff_of_true (served_refuse st) fun p hp => absurd hp (hno p)

theorem exGetTxContractsFunc_served :
    Served (exGetTxContractsFunc node lib para st) ↔ needsTransaction node lib HasContract para st := by
  refine (one_served para st (P := fun vch => vch.length = 32) (fun p => rfl) ?_).trans ?_
  · intro para hno
    unfold exGetTxContractsFunc
    split
    · exact absurd rfl (hno _)
    · rfl
  · refine forall_congr' fun p => imp_congr_right fun _ => imp_congr_right fun _ => ?_
    refine (lookup_served (getTransaction node lib st (hashOf p.val)) fun tx st =>
      answer [tx.vchContract] st).trans ?_
    simp only [served_answer_one]
    exact Iff.rfl

theorem exGetTxAccountsFunc_served :
    Served (exGetTxAccountsFunc node lib para st) ↔ needsTransaction node lib FromRegID para st := by
  refine (one_served para st (P := fun vch => vch.length = 32) (fun p => rfl) ?_).trans ?_
  · intro para hno
    unfold exGetTxAccountsFunc
    split
    · exact absurd rfl (hno _)
    · rfl
  · refine forall_congr' fun p => imp_congr_right fun _ => imp_congr_right fun _ => ?_
    refine (lookup_served (getTransaction node lib st (hashOf p.val)) fun tx st =>
      srcVec6 tx >>= fun item => answer [item] st).trans ?_
    simp only [srcVec6_served]

/-- A key that is fully valid has bytes. -/
theorem vch_ne_nil_of_isFullyValid {cr : Crypto} {pk : CPubKey} (h : pk.isFullyValid cr = true) :
    pk.vch ≠ [] := by
  intro hnil
  obtain ⟨vch, size⟩ := pk
  dsimp only at hnil
  subst hnil
  cases h

theorem exGetAccountPublickeyFunc_served :
    Served (exGetAccountPublickeyFunc node view para st) ↔ needsKey node view para st := by
  refine (one_served para st (P := fun vch => vch.length = 6 ∨ vch.length = 34) (fun p => rfl) ?_).trans ?_
  · intro para hno
    unfold exGetAccountPublickeyFunc
    split
    · exact absurd rfl (hno _)
    · rfl
  · refine forall_congr' fun p => imp_congr_right fun _ => imp_congr_right fun _ => ?_
    cases accountOf node view p.val with
    | none =>
      refine iff_of_true (served_refuse st) ?_
      rintro _ ⟨⟩
    | some a =>
      dsimp only
      simp only [Option.some.injEq, forall_eq']
      by_cases hvalid : a.cPublicKey.isFullyValid node.cr = true
      · rw [if_pos hvalid]
        exact iff_of_true (served_answer_one.mpr (vch_ne_nil_of_isFullyValid hvalid)) hvalid
      · rw [if_neg hvalid]
        exact iff_of_false not_served_throw hvalid

theorem exQueryAccountBalanceFunc_served : Served (exQueryAccountBalanceFunc node view para st) := by
  unfold exQueryAccountBalanceFunc
  split
  · split
    · refine served_answerOption.mpr fun vch h => ?_
      obtain ⟨a, -, rfl⟩ := Option.map_eq_some_iff.mp h
      exact u64_write_ne_nil _
    · exact served_refuse st
  · exact served_refuse st

theorem exGetTxConFirmHeightFunc_served : Served (exGetTxConFirmHeightFunc node para st) := by
  unfold exGetTxConFirmHeightFunc
  split
  · split
    · refine served_answerOption.mpr fun vch h => ?_
      obtain ⟨height, -, rfl⟩ := Option.map_eq_some_iff.mp h
      exact u32_write_ne_nil _
    · exact served_refuse st
  · exact served_refuse st

/-- A height that the chain has reached is one of its blocks. -/
theorem chainAt_isSome {chain : PBlockIndex} {height : ℤ} (h0 : 0 < height)
    (h : ¬ (chain.length : ℤ) - 1 < height) : (chainAt chain height).isSome := by
  unfold chainAt
  rw [if_neg (by omega), List.getElem?_eq_getElem (by omega)]
  rfl

theorem exGetBlockHashFunc_served : Served (exGetBlockHashFunc node nHeight para st) := by
  unfold exGetBlockHashFunc
  split
  · dsimp only
    split
    · split
      · exact served_refuse st
      · next hlow =>
        split
        · exact served_refuse st
        · next hhigh =>
          obtain ⟨hpos, -⟩ := not_or.mp hlow
          obtain ⟨pindex, hat⟩ := Option.isSome_iff_exists.mp (chainAt_isSome (not_le.mp hpos) hhigh)
          rw [hat]
          exact served_answer_one.mpr (uint256_write_ne_nil _)
    · exact served_refuse st
  · exact served_refuse st

theorem exGetCurRunEnvHeightFunc_served : Served (exGetCurRunEnvHeightFunc nHeight para st) :=
  served_answer_one.mpr (CScriptDBViewCache.i32_write_ne_nil _)

/-! ### Contract data -/

theorem getScriptDataCount_orderly :
    (ScriptStack.getScriptDataCount st.db st.caches des.getVec6).Orderly ↔ CountReads des st.scriptDB := by
  have hval := st.getData_fst (CScriptDBViewCache.scriptDataCountKey des.getVec6)
  unfold ScriptStack.getScriptDataCount ScriptStack.getCount CountReads
  rw [← hval]
  unfold VmState.getData
  rcases ScriptStack.getData st.db st.caches (CScriptDBViewCache.scriptDataCountKey des.getVec6) with ⟨o, caches⟩
  cases o with
  | none =>
    refine iff_of_true (avoids_ok _) ?_
    rintro _ ⟨⟩
  | some v =>
    simp only [Option.some.injEq, forall_eq']
    cases Codec.i32.read v with
    | none =>
      refine iff_of_false Exec.not_orderly_throw ?_
      rintro ⟨⟩
    | some p => exact iff_of_true (avoids_ok _) rfl

theorem setScriptDataCount_orderly (caches : List ScriptCache) (id : Bytes) (n : Int32) :
    (ScriptStack.setScriptDataCount caches id n).Orderly := by
  unfold ScriptStack.setScriptDataCount
  split
  · exact avoids_ok _
  · split
    · exact Exec.orderly_returnFalse
    · exact avoids_ok _

theorem haveScriptData_eq (id key : Bytes) :
    ScriptStack.haveData st.db st.caches (CScriptDBViewCache.scriptDataKey id key)
      = st.scriptDB.haveScriptData id key :=
  (ScriptStack.haveData_eq ..).trans (congrArg Option.isSome (ScriptStack.getData_view ..).symm)

theorem setScriptData_orderly (key value : Bytes) :
    (ScriptStack.setScriptData st.db st.caches des.getVec6 key value).Orderly ↔
      (st.scriptDB.haveScriptData des.getVec6 key = false → CountReads des st.scriptDB) := by
  unfold ScriptStack.setScriptData ScriptStack.countUnless
  rw [haveScriptData_eq]
  refine Exec.orderly_bind.trans ?_
  cases st.scriptDB.haveScriptData des.getVec6 key with
  | true =>
    refine iff_of_true ⟨avoids_ok _, fun s' _ => avoids_ok _⟩ ?_
    rintro ⟨⟩
  | false =>
    rw [forall_prop_of_true rfl, ← getScriptDataCount_orderly]
    constructor
    · rintro ⟨h, -⟩
      exact (Exec.orderly_bind.mp h).1
    · intro h
      exact ⟨Exec.orderly_bind.mpr ⟨h, fun p _ => setScriptDataCount_orderly p.2 _ _⟩, fun s' _ => avoids_ok _⟩

/-- Reading and erasing a key is orderly on any caches. -/
theorem eraseRead_orderly (caches : List ScriptCache) (key : Bytes) :
    (match ScriptStack.getData st.db caches key with
      | (none, _) => Exec.returnFalse
      | (some vchValue, caches) =>
        match ScriptStack.eraseKey st.db key caches with
        | (false, _) => Exec.returnFalse
        | (true, caches) => return (caches, (⟨key, vchValue⟩ : CScriptDBOperLog)) :
      Exec (List ScriptCache × CScriptDBOperLog)).Orderly := by
  split
  · exact Exec.orderly_returnFalse
  · split
    · exact Exec.orderly_returnFalse
    · exact avoids_ok _

theorem eraseScriptData_orderly (key : Bytes) :
    (ScriptStack.eraseScriptData st.db st.caches des.getVec6 key).Orderly ↔
      (st.scriptDB.haveScriptData des.getVec6 key = true → CountReads des st.scriptDB) := by
  unfold ScriptStack.eraseScriptData ScriptStack.uncountIf
  rw [haveScriptData_eq]
  refine Exec.orderly_bind.trans ?_
  cases st.scriptDB.haveScriptData des.getVec6 key with
  | false =>
    refine iff_of_true ⟨avoids_ok _, fun caches _ => eraseRead_orderly st caches _⟩ ?_
    rintro ⟨⟩
  | true =>
    rw [forall_prop_of_true rfl, ← getScriptDataCount_orderly]
    constructor
    · rintro ⟨h, -⟩
      exact (Exec.orderly_bind.mp h).1
    · intro h
      refine ⟨Exec.orderly_bind.mpr ⟨h, ?_⟩, fun caches _ => eraseRead_orderly st caches _⟩
      rintro ⟨nCount, caches⟩ _
      cases nCount with
      | none => exact Exec.orderly_returnFalse
      | some nCount => exact setScriptDataCount_orderly caches _ _

/-- A call on the contract data is refused where the data refuses it. -/
theorem dbCall_set_orderly (key value : Bytes) (hvalue : value ≠ []) :
    (dbCall des.getVec6 (.set key value hvalue) st).Orderly ↔
      (ScriptStack.setScriptData st.db st.caches des.getVec6 key value).Orderly := by
  unfold dbCall
  dsimp only
  cases ScriptStack.setScriptData st.db st.caches des.getVec6 key value with
  | ok p => exact iff_of_true (avoids_ok _) (avoids_ok _)
  | error e =>
    cases e with
    | fail calls => exact iff_of_true (avoids_ok _) (avoids_error.mpr not_false)
    | throw what => exact iff_of_false Exec.not_orderly_throw Exec.not_orderly_throw

theorem dbCall_erase_orderly (key : Bytes) : (dbCall des.getVec6 (.erase key) st).Orderly ↔
    (ScriptStack.eraseScriptData st.db st.caches des.getVec6 key).Orderly := by
  unfold dbCall
  dsimp only
  cases ScriptStack.eraseScriptData st.db st.caches des.getVec6 key with
  | ok p => exact iff_of_true (avoids_ok _) (avoids_ok _)
  | error e =>
    cases e with
    | fail calls => exact iff_of_true (avoids_ok _) (avoids_error.mpr not_false)
    | throw what => exact iff_of_false Exec.not_orderly_throw Exec.not_orderly_throw

/-- A read before a call makes no difference to it. -/
theorem haveScriptData_getData (k id key : Bytes) :
    (st.getData k).2.scriptDB.haveScriptData id key = st.scriptDB.haveScriptData id key :=
  congrArg Option.isSome (st.getData_getData k _)

theorem countReads_getData (k : Bytes) :
    CountReads des (st.getData k).2.scriptDB ↔ CountReads des st.scriptDB := by
  unfold CountReads
  rw [st.getData_getData]

theorem exWriteDataDBFunc_served : Served (exWriteDataDBFunc des para st) ↔ needsCountUnless des para st := by
  unfold exWriteDataDBFunc needsCountUnless
  split
  · next p q =>
    refine served_bind.trans ?_
    rw [dbCall_set_orderly, setScriptData_orderly]
    constructor
    · rintro ⟨h, -⟩ _ _ ⟨rfl⟩
      exact h
    · exact fun h => ⟨h p q rfl, fun r _ => served_flag r.1 _ _ r.2⟩
  · next hno =>
    refine iff_of_true (served_refuse st) ?_
    rintro p q rfl
    exact absurd rfl (hno p q)

theorem exDeleteDataDBFunc_served : Served (exDeleteDataDBFunc des para st) ↔ needsCountIf des para st := by
  unfold exDeleteDataDBFunc needsCountIf
  split
  · next p =>
    refine served_bind.trans ?_
    change (dbCall des.getVec6 (.erase p.val) (st.getData _).2).Orderly ∧ _ ↔ _
    rw [dbCall_erase_orderly, eraseScriptData_orderly, haveScriptData_getData, countReads_getData]
    constructor
    · rintro ⟨h, -⟩ _ ⟨rfl⟩
      exact h
    · exact fun h => ⟨h p rfl, fun r _ => served_flag r.1 _ _ r.2⟩
  · next hno =>
    refine iff_of_true (served_refuse st) ?_
    rintro p rfl
    exact absurd rfl (hno p)

/-- Stored data has a byte. -/
theorem served_stored (key : Bytes) : Served (answerOption (st.getData key).1 (st.getData key).2) := by
  refine served_answerOption.mpr fun vch h => ?_
  rw [st.getData_fst] at h
  exact st.scriptDB.nonempty _ vch h

theorem exReadDataValueDBFunc_served : Served (exReadDataValueDBFunc des para st) := by
  unfold exReadDataValueDBFunc
  split
  · exact served_stored _ _
  · exact served_refuse _

theorem exGetDBSizeFunc_served : Served (exGetDBSizeFunc des para st) ↔ needsCount des para st := by
  refine served_bind.trans ?_
  rw [getScriptDataCount_orderly]
  refine and_iff_left fun p _ => served_answerOption.mpr fun vch h => ?_
  obtain ⟨n, -, rfl⟩ := Option.map_eq_some_iff.mp h
  exact CScriptDBViewCache.i32_write_ne_nil n

theorem exGetCurTxHash_served : Served (exGetCurTxHash node tx para st) :=
  served_answer_one.mpr (uint256_write_ne_nil _)

/-- What is there already is not counted again. -/
theorem exModifyDataDBVavleFunc_served : Served (exModifyDataDBVavleFunc des para st) := by
  unfold exModifyDataDBVavleFunc
  split
  · next p q =>
    have hread := st.getData_fst (CScriptDBViewCache.scriptDataKey des.getVec6 p.val)
    unfold getScriptData
    rcases hst : st.getData (CScriptDBViewCache.scriptDataKey des.getVec6 p.val) with ⟨vTemp, copied⟩
    dsimp only
    cases vTemp with
    | none => exact served_flag false _ _ _
    | some vTemp =>
      refine served_bind.mpr ⟨?_, fun r _ => served_flag r.1 _ _ r.2⟩
      rw [dbCall_set_orderly, setScriptData_orderly]
      intro hnone
      have hhave : copied.scriptDB.haveScriptData des.getVec6 p.val = true := by
        rw [hst] at hread
        have hsame := haveScriptData_getData st (CScriptDBViewCache.scriptDataKey des.getVec6 p.val) des.getVec6 p.val
        rw [hst] at hsame
        rw [hsame]
        exact Option.isSome_iff_exists.mpr ⟨vTemp, hread.symm⟩
      rw [hnone] at hhave
      cases hhave
  · exact served_refuse st

theorem exGetScriptDataFunc_served : Served (exGetScriptDataFunc para st) := by
  unfold exGetScriptDataFunc
  split
  · split
    · exact served_stored st _
    · exact served_refuse st
  · exact served_refuse st

theorem served_pair (key value : Bytes) : Served (answer [key, value] st) ↔ PairCopied key value := by
  refine served_answer.trans ?_
  unfold PairCopied
  have hsum : ([key, value].map fun it => it.length + 2).sum + 2 = key.length + value.length + 6 := by
    simp only [List.map_cons, List.map_nil, List.sum_cons, List.sum_nil]
    omega
  rw [hsum]
  refine imp_congr_right fun _ => ?_
  simp only [List.mem_cons, List.not_mem_nil, or_false, not_or]
  exact and_congr ⟨fun h heq => h heq.symm, fun h heq => h heq.symm⟩
    ⟨fun h heq => h heq.symm, fun h heq => h heq.symm⟩

/-- A record is handed back where no key is read past its end and the record can be copied. -/
theorem getDBValue_served (q : Option Bytes) : Served (getDBValue des q st) ↔ IndexServes des q st := by
  obtain ⟨hreads, houtside⟩ := ScriptStack.getScriptData_answers (q := q) des.length_getVec6
    (le_refl (ScriptStack.rounds st.db st.caches))
  unfold getDBValue IndexServes
  by_cases h : ScriptStack.Reads st.db des.getVec6 st.caches q
  · obtain ⟨r, hleast, hr⟩ := hreads h
    rw [hr, and_iff_right h]
    cases r with
    | none =>
      refine iff_of_true (served_refuse st) fun key value hsome => ?_
      cases hsome.unique hleast
    | some e =>
      refine (served_pair st e.1 e.2).trans ?_
      constructor
      · intro hpair key value hsome
        obtain rfl := Option.some.inj (hsome.unique hleast)
        exact hpair
      · exact fun hall => hall e.1 e.2 hleast
  · rw [houtside h]
    exact iff_of_false not_served_throw fun hserves => h hserves.1

theorem intOf_orderly (vch : Bytes) : (intOf vch).Orderly ↔ 4 ≤ vch.length := by
  unfold intOf
  by_cases hlen : vch.length < 4
  · rw [if_pos hlen]
    exact iff_of_false Exec.not_orderly_throw (by omega)
  · rw [if_neg hlen]
    exact iff_of_true (avoids_ok _) (by omega)

/-- What the index of a parameter asks for. -/
theorem index_served (p : Para) (f : Int32 → Exec (RetDefine × VmState)) (Q : Int32 → Prop)
    (hf : ∀ index, Served (f index) ↔ Q index) :
    Served (intOf p.val >>= f) ↔ 4 ≤ p.val.length ∧ ∀ index, intOf p.val = .ok index → Q index := by
  refine served_bind.trans ?_
  rw [intOf_orderly]
  exact and_congr_right fun _ => forall_congr' fun index => imp_congr_right fun _ => hf index

/-- With one parameter or two, the first of them asks. -/
theorem needsIndex_iff (hon : lib.bDbTraversal = true) (p : Para) {rest : List Para} (hrest : rest.length ≤ 1) :
    needsIndex lib des (some (p :: rest)) st ↔ 4 ≤ p.val.length ∧ ∀ index, intOf p.val = .ok index →
      (index = 0 → IndexServes des none st) ∧
      (index = 1 → ∀ q, rest = [q] → IndexServes des (some q.val) st) := by
  unfold needsIndex
  rw [forall_prop_of_true hon]
  constructor
  · rintro ⟨hlen, hindex⟩
    exact ⟨hlen p rest rfl hrest, hindex p rest rfl hrest⟩
  · rintro ⟨hlen, hindex⟩
    constructor
    · rintro _ _ ⟨rfl⟩ _
      exact hlen
    · rintro _ _ ⟨rfl⟩ _
      exact hindex

/-- Any other call is refused. -/
theorem needsIndex_other (hone : ∀ p, para ≠ some [p]) (htwo : ∀ p q, para ≠ some [p, q]) :
    needsIndex lib des para st := by
  have hno : ∀ (p : Para) rest, para = some (p :: rest) → ¬ rest.length ≤ 1 := by
    rintro p rest rfl hlen
    cases rest with
    | nil => exact absurd rfl (hone p)
    | cons q rest =>
      cases rest with
      | nil => exact absurd rfl (htwo p q)
      | cons r rest =>
        rw [List.length_cons, List.length_cons] at hlen
        omega
  exact fun _ => ⟨fun p rest h hlen => absurd hlen (hno p rest h), fun p rest h hlen =>
    absurd hlen (hno p rest h)⟩

theorem exGetDBValueFunc_served :
    Served (exGetDBValueFunc lib des para st) ↔ needsIndex lib des para st := by
  unfold exGetDBValueFunc
  by_cases hon : lib.bDbTraversal = false
  · rw [if_pos hon]
    refine iff_of_true (served_refuse st) fun h => ?_
    rw [hon] at h
    cases h
  · rw [if_neg hon]
    have hon := Bool.eq_true_of_not_eq_false hon
    split
    · next p =>
      rw [needsIndex_iff st hon p (Nat.zero_le _)]
      refine index_served p _ _ fun index => ?_
      have hno : index = 1 → ∀ q : Para, [] = [q] → IndexServes des (some q.val) st := by
        rintro _ _ ⟨⟩
      rw [and_iff_left hno]
      by_cases h0 : index = 0
      · rw [if_pos h0, forall_prop_of_true h0, getDBValue_served]
      · rw [if_neg h0]
        exact iff_of_true (served_refuse st) fun h => absurd h h0
    · next p q =>
      rw [needsIndex_iff st hon p (le_refl 1)]
      refine index_served p _ _ fun index => ?_
      have hnext : (∀ q', [q] = [q'] → IndexServes des (some q'.val) st) ↔
          IndexServes des (some q.val) st := by
        refine ⟨fun h => h q rfl, ?_⟩
        rintro h _ ⟨rfl⟩
        exact h
      rw [hnext]
      by_cases h0 : index = 0
      · rw [if_pos h0, forall_prop_of_true h0, getDBValue_served]
        refine (and_iff_left fun h1 => ?_).symm
        rw [h0] at h1
        cases h1
      · rw [if_neg h0]
        by_cases h1 : index = 1
        · rw [if_pos h1, forall_prop_of_true h1, getDBValue_served]
          exact (and_iff_right fun h => absurd h h0).symm
        · rw [if_neg h1]
          exact iff_of_true (served_refuse st) ⟨fun h => absurd h h0, fun h => absurd h h1⟩
    · next hone htwo =>
      exact iff_of_true (served_refuse st) (needsIndex_other para st hone htwo)

/-! ### The call -/

theorem takes_unserialize : Codec.Takes CVmOperate.unserialize CVmOperate.size := by
  have hid : Codec.Takes (Codec.readAll Codec.u8 34) 34 := Codec.takes_readAll Codec.takes_u8 34
  have hmoney : Codec.Takes Codec.u64.read 8 := (Codec.takes_readLe 8).map _
  exact Codec.takes_u8.bind fun _ => hid.bind fun _ => Codec.takes_u8.bind fun _ =>
    Codec.takes_u32.bind fun _ => hmoney.bind fun _ => Codec.Takes.pure _

theorem exGetScriptIDFunc_served : Served (exGetScriptIDFunc des para st) :=
  served_answer_one.mpr (getVec6_ne_nil des)

theorem exGetCurTxAccountFunc_served : Served (exGetCurTxAccountFunc tx para st) ↔ needsSender tx para st :=
  srcVec6_served st tx

theorem exGetCurTxContactFunc_served : Served (exGetCurTxContactFunc tx para st) ↔ needsContract tx para st :=
  served_answer_one

theorem getCurTxPayAmountFunc_served : Served (getCurTxPayAmountFunc tx para st) :=
  served_answer_one.mpr (u64_write_ne_nil _)

theorem exGetBase58AddrFunc_served : Served (exGetBase58AddrFunc node view para st) := by
  unfold exGetBase58AddrFunc
  split
  · next p =>
    split
    · refine served_answerOption.mpr fun vch h => ?_
      obtain ⟨k, hk, rfl⟩ := Option.map_eq_some_iff.mp h
      refine k.toAddress_ne_nil node.cfg node.cr ?_
      unfold CTransaction.appUserKeyId at hk
      obtain ⟨hne, hsome⟩ := Option.ite_none_left_eq_some.mp hk
      obtain rfl := Option.some.inj hsome
      exact hne
    · exact served_refuse st
  · exact served_refuse st

theorem takes_unserializeAll (n : ℕ) : Codec.Takes (CVmOperate.unserializeAll n) (n * CVmOperate.size) := by
  induction n with
  | zero =>
    rw [Nat.zero_mul]
    exact Codec.Takes.pure []
  | succ n ih =>
    have hlen : (n + 1) * CVmOperate.size = CVmOperate.size + (n * CVmOperate.size + 0) := by
      rw [Nat.succ_mul]
      omega
    rw [hlen]
    exact takes_unserialize.bind fun _ => ih.bind fun _ => Codec.Takes.pure _

/-- The output is always long enough for its operations. -/
theorem exWriteOutputFunc_served : Served (exWriteOutputFunc para st) := by
  unfold exWriteOutputFunc
  split
  · next p =>
    split
    · exact served_refuse st
    · obtain ⟨source, hsource⟩ := takes_unserializeAll (p.val.length / CVmOperate.size) p.val
        (Nat.div_mul_le_self _ _)
      rw [hsource]
      refine served_bind.mpr ⟨avoids_ok _, fun r _ => served_ok.mpr fun _ _ => ?_⟩
      exact List.not_mem_nil
  · exact served_refuse st

/-! ### Formats -/

theorem ne_six {item : UInt8} {format : Bytes} (h1 : item = 6 → format = [] → False)
    (h2 : ∀ (te : UInt8) (rest : Bytes), item = 6 → format = te :: rest → False) : item ≠ 6 := by
  intro h6
  cases format with
  | nil => exact h1 h6 rfl
  | cons te rest => exact h2 te rest h6 rfl

/-- The width of a number in a format. -/
def bitsOf (item : UInt8) : ℕ := if item < 3 then 16 else if item = 3 then 32 else 64

theorem decompress_number {item : UInt8} (h6 : item ≠ 6) (format contact : Bytes) :
    decompress (item :: format) contact =
      if 6 < item then .ok none
      else match inflate (bitsOf item) contact with
        | none => .ok none
        | some (vch, contact) => do
          let rest ← decompress format contact
          return rest.map (vch ++ ·) := by
  rw [decompress]
  · rfl
  · exact fun h => absurd h h6
  · exact fun _ _ h => absurd h h6

theorem formatEnds_number {item : UInt8} (h6 : item ≠ 6) (format contact : Bytes) :
    FormatEnds (item :: format) contact ↔ (item < 6 → ∀ vch rest,
      inflate (bitsOf item) contact = some (vch, rest) → FormatEnds format rest) := by
  rw [FormatEnds]
  · rfl
  · exact fun h => absurd h h6
  · exact fun _ _ h => absurd h h6

theorem decompress_orderly (format contact : Bytes) :
    (decompress format contact).Orderly ↔ FormatEnds format contact := by
  induction format, contact using decompress.induct with
  | case1 contact => exact iff_of_true (avoids_ok _) trivial
  | case2 contact => exact iff_of_false Exec.not_orderly_throw not_false
  | case3 te format contact hnone =>
    rw [decompress, FormatEnds, hnone]
    refine iff_of_true (avoids_ok _) ?_
    rintro _ _ ⟨⟩
  | case4 te format contact vch rest hsome ih =>
    rw [decompress, FormatEnds, hsome]
    refine (Exec.orderly_bind.trans (and_iff_left fun _ _ => avoids_ok _)).trans (ih.trans ?_)
    constructor
    · rintro h _ _ ⟨⟩
      exact h
    · exact fun h => h vch rest rfl
  | case5 item format contact h1 h2 hhigh =>
    rw [decompress_number (ne_six h1 h2), formatEnds_number (ne_six h1 h2), if_pos hhigh]
    exact iff_of_true (avoids_ok _) fun h => absurd h (UInt8.lt_asymm hhigh)
  | case6 item format contact h1 h2 bits hhigh hnone =>
    have hinflate : inflate (bitsOf item) contact = none := hnone
    rw [decompress_number (ne_six h1 h2), formatEnds_number (ne_six h1 h2), if_neg hhigh, hinflate]
    refine iff_of_true (avoids_ok _) ?_
    rintro _ _ _ ⟨⟩
  | case7 item format contact h1 h2 bits hhigh vch rest hsome ih =>
    have hinflate : inflate (bitsOf item) contact = some (vch, rest) := hsome
    rw [decompress_number (ne_six h1 h2), formatEnds_number (ne_six h1 h2), if_neg hhigh, hinflate]
    refine (Exec.orderly_bind.trans (and_iff_left fun _ _ => avoids_ok _)).trans (ih.trans ?_)
    have hlow : item < 6 := UInt8.lt_of_le_of_ne (UInt8.not_lt.mp hhigh) (ne_six h1 h2)
    rw [forall_prop_of_true hlow]
    constructor
    · rintro h _ _ ⟨⟩
      exact h
    · exact fun h => h vch rest rfl

theorem inflateBytes_length {n : ℕ} {contact vch rest : Bytes} (h : inflateBytes n contact = some (vch, rest)) :
    vch.length = n := by
  induction n generalizing contact vch with
  | zero =>
    cases h
    rfl
  | succ n ih =>
    unfold inflateBytes at h
    obtain ⟨⟨one, contact'⟩, hone, h⟩ := Option.bind_eq_some_iff.mp h
    obtain ⟨⟨more, rest'⟩, hmore, h⟩ := Option.bind_eq_some_iff.mp h
    cases h
    obtain ⟨q, -, hq⟩ := Option.map_eq_some_iff.mp hone
    obtain ⟨rfl, -⟩ := Prod.mk.inj hq
    rw [List.length_append, Codec.length_leBytes, ih hmore]
    omega

theorem inflate_ne_nil {item : UInt8} {contact vch rest : Bytes}
    (h : inflate (bitsOf item) contact = some (vch, rest)) : vch ≠ [] := by
  obtain ⟨q, -, hq⟩ := Option.map_eq_some_iff.mp h
  obtain ⟨rfl, -⟩ := Prod.mk.inj hq
  intro hnil
  have hlen := congrArg List.length hnil
  rw [Codec.length_leBytes] at hlen
  unfold bitsOf at hlen
  split at hlen
  · cases hlen
  · split at hlen
    · cases hlen
    · cases hlen

theorem formatBlank_number {item : UInt8} (h6 : item ≠ 6) (format : Bytes) :
    formatBlank (item :: format) = false := by
  rw [formatBlank]
  · exact nofun
  · rintro _ h
    exact h6 (List.cons.inj h).1

/-- Only a blank format has nothing to hand back. -/
theorem decompress_eq_nil (format contact : Bytes) : ∀ v, decompress format contact = .ok (some v) →
    (v = [] ↔ formatBlank format = true) := by
  induction format, contact using decompress.induct with
  | case1 contact =>
    rintro _ ⟨⟩
    exact iff_of_true rfl rfl
  | case2 contact => rintro _ ⟨⟩
  | case3 te format contact hnone =>
    rw [decompress, hnone]
    rintro _ ⟨⟩
  | case4 te format contact vch rest hsome ih =>
    rw [decompress, hsome]
    intro v hv
    obtain ⟨more, hmore, hv⟩ := Except.bind_eq_ok.mp hv
    obtain ⟨w, rfl, rfl⟩ := Option.map_eq_some_iff.mp (Except.ok.inj hv)
    have hlen := inflateBytes_length hsome
    rw [List.append_eq_nil_iff, ih w hmore]
    by_cases hte : te = 0
    · subst hte
      have hnil := List.length_eq_zero_iff.mp hlen
      exact and_iff_right hnil
    · refine iff_of_false ?_ ?_
      · rintro ⟨rfl, -⟩
        exact hte (UInt8.toNat.inj hlen.symm)
      · rw [formatBlank]
        · exact Bool.false_ne_true
        · exact nofun
        · rintro _ h
          exact hte (List.cons.inj (List.cons.inj h).2).1
  | case5 item format contact h1 h2 hhigh =>
    rw [decompress_number (ne_six h1 h2), if_pos hhigh]
    rintro _ ⟨⟩
  | case6 item format contact h1 h2 bits hhigh hnone =>
    have hinflate : inflate (bitsOf item) contact = none := hnone
    rw [decompress_number (ne_six h1 h2), if_neg hhigh, hinflate]
    rintro _ ⟨⟩
  | case7 item format contact h1 h2 bits hhigh vch rest hsome ih =>
    have hinflate : inflate (bitsOf item) contact = some (vch, rest) := hsome
    rw [decompress_number (ne_six h1 h2), if_neg hhigh, hinflate]
    intro v hv
    obtain ⟨more, hmore, hv⟩ := Except.bind_eq_ok.mp hv
    obtain ⟨w, rfl, rfl⟩ := Option.map_eq_some_iff.mp (Except.ok.inj hv)
    rw [formatBlank_number (ne_six h1 h2), List.append_eq_nil_iff]
    refine iff_of_false ?_ Bool.false_ne_true
    rintro ⟨h, -⟩
    exact inflate_ne_nil hinflate h

theorem decompress_blank {format : Bytes} (contact : Bytes) (h : formatBlank format = true) :
    decompress format contact = .ok (some []) := by
  induction format using formatBlank.induct with
  | case1 => rfl
  | case2 format ih =>
    rw [formatBlank] at h
    show (do let rest ← decompress format contact; return rest.map ([] ++ ·) : Exec (Option Bytes)) = _
    rw [ih h]
    rfl
  | case3 format h1 h2 =>
    rw [formatBlank] at h
    · cases h
    · exact h1
    · exact h2

theorem format_served (format contact : Bytes) :
    Served (decompress format contact >>= fun out => answerOption out st) ↔
      FormatServes format contact := by
  refine served_bind.trans ?_
  unfold FormatServes
  rw [decompress_orderly]
  refine and_congr_right fun _ => ?_
  simp only [served_answerOption]
  constructor
  · intro h
    by_contra hblank
    exact h _ (decompress_blank contact (Bool.eq_true_of_not_eq_false hblank)) [] rfl rfl
  · rintro h _ hout v rfl hnil
    rw [(decompress_eq_nil format contact v hout).mp hnil] at h
    cases h

theorem exCurDeCompressContactFunc_served :
    Served (exCurDeCompressContactFunc tx para st) ↔ needsFormat tx para st := by
  unfold exCurDeCompressContactFunc needsFormat
  split
  · next p =>
    refine (format_served st p.val tx.vchContract).trans ?_
    constructor
    · rintro h _ ⟨rfl⟩
      exact h
    · exact fun h => h p rfl
  · next hno =>
    refine iff_of_true (served_refuse st) ?_
    rintro p rfl
    exact absurd rfl (hno p)

theorem exDeCompressContactFunc_served :
    Served (exDeCompressContactFunc node lib para st) ↔ needsFormatOf node lib para st := by
  unfold exDeCompressContactFunc needsFormatOf
  split
  · next p q =>
    by_cases hlen : q.val.length = 32
    · rw [if_pos hlen]
      refine (lookup_served (getTransaction node lib st (hashOf q.val)) fun tx st =>
        decompress p.val tx.vchContract >>= fun out => answerOption out st).trans ?_
      simp only [format_served]
      constructor
      · rintro h _ _ ⟨rfl⟩ _
        exact h
      · exact fun h => h p q rfl hlen
    · rw [if_neg hlen]
      refine iff_of_true (served_refuse st) ?_
      rintro _ _ ⟨rfl⟩ h
      exact absurd h hlen
  · next hno =>
    refine iff_of_true (served_refuse st) ?_
    rintro p q rfl
    exact absurd rfl (hno p q)

/-! ### App accounts -/

theorem getAppUserAccout_orderly (id : Bytes) :
    (getAppUserAccout node des nHeight st id).Orderly ↔ UserLoads node des nHeight st.scriptDB id := by
  have hload : (CVmRunEvn.getAppUserAccout node.chainActive st.scriptDB des nHeight id).Orderly ↔
      UserLoads node des nHeight st.scriptDB id := by
    unfold CVmRunEvn.getAppUserAccout UserLoads
    refine Exec.orderly_bind.trans ?_
    rw [CVmRunEvn.getScriptAcc_orderly]
    refine and_congr_right fun hrecord => ?_
    unfold CVmRunEvn.RecordReads at hrecord
    unfold CScriptDBViewCache.getScriptAcc
    cases hdata : st.scriptDB.getData (CScriptDBViewCache.scriptAccKey des.getVec6 id) with
    | none =>
      refine iff_of_true ?_ ?_
      · rintro _ ⟨⟩
        exact avoids_ok _
      · rintro ⟨⟩
    | some v =>
      obtain ⟨p, hp⟩ := Option.isSome_iff_exists.mp (hrecord v hdata)
      dsimp only
      rw [hp, forall_prop_of_true (show (some v).isSome = true from rfl)]
      constructor
      · exact fun h => (CVmRunEvn.autoMergeFreezeToFree_orderly _ _).mp (h _ rfl)
      · rintro h _ ⟨⟩
        exact (CVmRunEvn.autoMergeFreezeToFree_orderly _ _).mpr h
  rw [← hload]
  unfold getAppUserAccout
  dsimp only
  cases CVmRunEvn.getAppUserAccout node.chainActive st.scriptDB des nHeight id with
  | ok a => exact iff_of_true (avoids_ok _) (avoids_ok _)
  | error e =>
    cases e with
    | fail calls => exact iff_of_true (avoids_ok _) (avoids_error.mpr not_false)
    | throw what => exact iff_of_false Exec.not_orderly_throw Exec.not_orderly_throw

theorem getUserAppAccValue_served :
    Served (getUserAppAccValue node des nHeight para st) ↔ needsUser node des nHeight para st := by
  refine (one_served para st (P := fun vch => vch.length = 41) (fun p => rfl) ?_).trans ?_
  · intro para hno
    unfold getUserAppAccValue
    split
    · exact absurd rfl (hno _)
    · rfl
  · refine forall_congr' fun p => imp_congr_right fun _ => imp_congr_right fun _ => ?_
    refine served_bind.trans ?_
    unfold getIdV
    by_cases hlen : (p.val.headD 0).toNat ≤ maxTagSize
    · rw [if_pos hlen]
      constructor
      · rintro ⟨-, h⟩
        exact ⟨hlen, (getAppUserAccout_orderly st _).mp (served_bind.mp (h _ rfl)).1⟩
      · rintro ⟨-, h⟩
        refine ⟨avoids_ok _, ?_⟩
        rintro _ ⟨⟩
        refine served_bind.mpr ⟨(getAppUserAccout_orderly st _).mpr h, fun acc _ => ?_⟩
        refine served_answerOption.mpr fun vch hvch => ?_
        obtain ⟨a, -, rfl⟩ := Option.map_eq_some_iff.mp hvch
        exact u64_write_ne_nil _
    · rw [if_neg hlen]
      refine iff_of_false (fun h => Exec.not_orderly_throw h.1) ?_
      rintro ⟨h, -⟩
      exact hlen h

theorem foundFund_served (a : CAppUserAccout) (r : AppFundRecord) :
    Served (foundFund a r st) ↔ r.uchFundTaglen.toNat ≤ maxTagSize := by
  refine served_bind.trans ?_
  unfold CAppFundOperate.getFundTagV
  by_cases hlen : r.uchFundTaglen.toNat ≤ 40
  · rw [if_pos hlen]
    refine iff_of_true ⟨avoids_ok _, fun tag _ => served_answerOption.mpr fun vch hvch => ?_⟩ hlen
    obtain ⟨fund, -, rfl⟩ := Option.map_eq_some_iff.mp hvch
    exact u64_write_ne_nil _
  · rw [if_neg hlen]
    exact iff_of_false (fun h => Exec.not_orderly_throw h.1) hlen

theorem fundOf_served (r : AppFundRecord) : Served (fundOf node des nHeight r st) ↔
    r.Identified ∧ UserLoads node des nHeight st.scriptDB (r.arruchAppuser.take r.uchAppuserIDlen.toNat) ∧
      ∀ a copied, getAppUserAccout node des nHeight st (r.arruchAppuser.take r.uchAppuserIDlen.toNat)
        = .ok (some a, copied) → r.uchFundTaglen.toNat ≤ maxTagSize := by
  refine served_bind.trans ?_
  unfold AppFundRecord.getAppUserV
  by_cases hid : r.uchAppuserIDlen.toNat ≤ maxTagSize ∧ 0 < r.uchAppuserIDlen.toNat
  · rw [if_pos hid]
    constructor
    · rintro ⟨-, h⟩
      obtain ⟨hloads, hfound⟩ := served_bind.mp (h _ rfl)
      refine ⟨hid, (getAppUserAccout_orderly ..).mp hloads, fun a copied ha => ?_⟩
      exact (foundFund_served copied a r).mp (hfound (some a, copied) ha)
    · rintro ⟨-, hloads, htag⟩
      refine ⟨avoids_ok _, ?_⟩
      rintro _ ⟨⟩
      refine served_bind.mpr ⟨(getAppUserAccout_orderly ..).mpr hloads, ?_⟩
      rintro ⟨acc, copied⟩ hacc
      cases acc with
      | none => exact served_refuse copied
      | some a => exact (foundFund_served copied a r).mpr (htag a copied hacc)
  · rw [if_neg hid]
    refine iff_of_false (fun h => Exec.not_orderly_throw h.1) ?_
    rintro ⟨h, -⟩
    exact hid h

theorem getUserAppAccFoudWithTag_served :
    Served (getUserAppAccFoudWithTag node des nHeight para st) ↔ needsFund node des nHeight para st := by
  refine (one_served para st (P := fun vch => vch.length = AppFundRecord.size) (fun p => rfl) ?_).trans ?_
  · intro para hno
    unfold getUserAppAccFoudWithTag
    split
    · exact absurd rfl (hno _)
    · rfl
  · refine forall_congr' fun p => imp_congr_right fun _ => imp_congr_right fun hlen => ?_
    -- the parameter is long enough for the record
    obtain ⟨r, hread⟩ := AppFundRecord.takes_unserialize p.val hlen.ge
    rw [hread]
    refine served_bind.trans ?_
    constructor
    · rintro ⟨-, h⟩ _ _ ⟨⟩
      exact (fundOf_served st r).mp (h _ rfl)
    · intro h
      refine ⟨avoids_ok _, ?_⟩
      rintro _ ⟨⟩
      exact (fundOf_served st r).mpr (h r _ rfl)

theorem exWriteOutAppOperateFunc_served :
    Served (exWriteOutAppOperateFunc nHeight para st) ↔ needsUsers nHeight para st := by
  unfold exWriteOutAppOperateFunc needsUsers
  split
  · next p =>
    by_cases hlen : p.val.length % AppFundRecord.size ≠ 0
    · rw [if_pos hlen]
      refine iff_of_true (served_refuse st) ?_
      rintro _ ⟨rfl⟩ h
      exact absurd h hlen
    · rw [if_neg hlen]
      obtain ⟨records, hread⟩ := AppFundRecord.takes_unserializeAll
        (p.val.length / AppFundRecord.size) p.val (Nat.div_mul_le_self _ _)
      dsimp only
      rw [hread]
      refine served_bind.trans ?_
      constructor
      · rintro ⟨-, h⟩ _ ⟨rfl⟩ _ records' rest hread'
        obtain ⟨rfl, -⟩ := Prod.mk.inj (Option.some.inj (hread.symm.trans hread'))
        exact (writeOutAppOperate_orderly nHeight records st.appOperate).mp (served_bind.mp (h _ rfl)).1
      · intro h
        have hnames := h p rfl (not_not.mp hlen) records _ hread
        refine ⟨avoids_ok _, ?_⟩
        rintro _ ⟨⟩
        refine served_bind.mpr ⟨(writeOutAppOperate_orderly nHeight records st.appOperate).mpr hnames,
          fun out _ => ?_⟩
        dsimp only
        split
        · exact served_refuse _
        · exact served_ok.mpr fun _ _ => List.not_mem_nil
  · next hno =>
    refine iff_of_true (served_refuse st) ?_
    rintro p rfl
    exact absurd rfl (hno p)

end

/-! ## The table -/

section
variable (node : Node) (lib : VmLibrary) (tx : CTransaction) (view : CAccountViewCache) (des : CRegID)
  (nHeight : ℤ)

/-- Each handler of the table serves what it gets exactly when it has what it needs. -/
theorem funMap_served : List.Forall₂ (fun (handler : Handler) (needs : Needs) =>
      ∀ para st, Served (handler para st) ↔ needs para st)
    (funMap node lib tx view des nHeight) (needsMap node lib tx view des nHeight) := by
  have hcomp : ∀ m1 m2 : Int64, ([if m2 < m1 then 2 else if m1 = m2 then 0 else 1] : Bytes) ≠ [] := by
    intro m1 m2 h
    cases h
  have hall : ∀ {handler : Handler}, (∀ para st, Served (handler para st)) →
      ∀ para st, Served (handler para st) ↔ nothing para st :=
    fun h para st => iff_of_true (h para st) trivial
  unfold funMap needsMap
  refine .cons (hall (exInt64Func_total hcomp)) ?_
  refine .cons (hall (exInt64Func_total fun m1 m2 => i64_write_ne_nil _)) ?_
  refine .cons (hall (exInt64Func_total fun m1 m2 => i64_write_ne_nil _)) ?_
  refine .cons (hall (exInt64Func_total fun m1 m2 => i64_write_ne_nil _)) ?_
  refine .cons exInt64DivFunc_served ?_
  refine .cons (hall exSha256Func_served) ?_
  refine .cons (hall exDesFunc_served) ?_
  refine .cons (hall exVerifySignatureFunc_served) ?_
  refine .cons (hall exSignatureFunc_served) ?_
  refine .cons (hall exLogPrintFunc_served) ?_
  refine .cons exGetTxContractsFunc_served ?_
  refine .cons exGetTxAccountsFunc_served ?_
  refine .cons exGetAccountPublickeyFunc_served ?_
  refine .cons (hall exQueryAccountBalanceFunc_served) ?_
  refine .cons (hall exGetTxConFirmHeightFunc_served) ?_
  refine .cons (hall exGetBlockHashFunc_served) ?_
  refine .cons (hall exGetCurRunEnvHeightFunc_served) ?_
  refine .cons exWriteDataDBFunc_served ?_
  refine .cons exDeleteDataDBFunc_served ?_
  refine .cons (hall exReadDataValueDBFunc_served) ?_
  refine .cons exGetDBSizeFunc_served ?_
  refine .cons exGetDBValueFunc_served ?_
  refine .cons (hall exGetCurTxHash_served) ?_
  refine .cons (hall exModifyDataDBVavleFunc_served) ?_
  refine .cons (hall exWriteOutputFunc_served) ?_
  refine .cons (hall exGetScriptDataFunc_served) ?_
  refine .cons (hall exGetScriptIDFunc_served) ?_
  refine .cons exGetCurTxAccountFunc_served ?_
  refine .cons exGetCurTxContactFunc_served ?_
  refine .cons exCurDeCompressContactFunc_served ?_
  refine .cons exDeCompressContactFunc_served ?_
  refine .cons (hall getCurTxPayAmountFunc_served) ?_
  refine .cons getUserAppAccValue_served ?_
  refine .cons getUserAppAccFoudWithTag_served ?_
  refine .cons exWriteOutAppOperateFunc_served ?_
  exact .cons (hall exGetBase58AddrFunc_served) .nil

theorem callExternalFunc_served (method : ℕ) (ipara : Bytes) (st : VmState) :
    Served (callExternalFunc node lib tx view des nHeight method ipara st) ↔
      CallSafe node lib tx view des nHeight method (getData ipara) st := by
  have htable := funMap_served node lib tx view des nHeight
  unfold callExternalFunc CallSafe
  by_cases hmethod : method < (funMap node lib tx view des nHeight).length
  · have hneeds : method < (needsMap node lib tx view des nHeight).length := by
      rw [← htable.length_eq]
      exact hmethod
    rw [List.getElem?_eq_getElem hmethod, List.getElem?_eq_getElem hneeds]
    dsimp only
    refine Iff.trans (htable.get hmethod hneeds (getData ipara) st) ?_
    constructor
    · exact fun h => ⟨_, rfl, h⟩
    · rintro ⟨_, ⟨rfl⟩, h⟩
      exact h
  · have hneeds : ¬ method < (needsMap node lib tx view des nHeight).length := by
      rw [← htable.length_eq]
      exact hmethod
    rw [List.getElem?_eq_none (not_lt.mp hmethod), List.getElem?_eq_none (not_lt.mp hneeds)]
    refine iff_of_false not_served_throw ?_
    rintro ⟨_, ⟨⟩, _⟩

/-- The call of a turn, and what is done with its result. -/
theorem externalCall_served (maxstep : UInt64) (r : RunState) :
    (externalCall node lib tx view des nHeight r >>= fun p => afterCall maxstep r p.1 p.2).Orderly ↔
      CallSafe node lib tx view des nHeight r.cpu.methodID (getData r.cpu.share) r.st := by
  rw [← callExternalFunc_served]
  refine Exec.orderly_bind.trans ?_
  unfold externalCall Served
  refine and_congr_right fun _ => ?_
  constructor
  · exact fun h ret st hret => (afterCall_orderly maxstep r ret st).mp (h (ret, st) hret)
  · exact fun h p hp => (afterCall_orderly maxstep r p.1 p.2).mpr (h p.1 p.2 hp)

theorem turn_orderly (maxstep : UInt64) (r : RunState) :
    Exec.Orderly (turn node lib tx view des nHeight maxstep r) ↔ (r.stepped.cpu.pc = 0x0012 →
      CallSafe node lib tx view des nHeight r.stepped.cpu.methodID (getData r.stepped.cpu.share) r.stepped.st) := by
  unfold turn
  dsimp only
  by_cases hpc : r.stepped.cpu.pc = 0x0012
  · rw [if_pos hpc, forall_prop_of_true hpc]
    exact externalCall_served node lib tx view des nHeight maxstep r.stepped
  · rw [if_neg hpc]
    refine iff_of_true ?_ fun h => absurd h hpc
    split
    · exact avoids_ok _
    · exact avoids_ok _

/-- A call out of the core throws nothing exactly when its method is in the table and its handler has what
it needs; a run throws nothing exactly when that is so of all its calls. -/
theorem call_served_iff :
    (∀ maxstep r, (externalCall node lib tx view des nHeight r >>= fun p =>
        afterCall maxstep r p.1 p.2).Orderly ↔
      CallSafe node lib tx view des nHeight r.cpu.methodID (getData r.cpu.share) r.st) ∧
    ∀ maxstep r, maxstep ≠ 0 → ((∀ n what, ¬ Run node lib tx view des nHeight maxstep r n
        (.error (.throw what))) ↔
      ∀ t, Machine.Reach (turn node lib tx view des nHeight maxstep) r t → t.stepped.cpu.pc = 0x0012 →
        CallSafe node lib tx view des nHeight t.stepped.cpu.methodID (getData t.stepped.cpu.share)
          t.stepped.st) := by
  refine ⟨externalCall_served node lib tx view des nHeight, fun maxstep r hzero => ?_⟩
  unfold Run
  simp only [if_neg hzero]
  constructor
  · intro h t ht hpc
    refine (turn_orderly node lib tx view des nHeight maxstep t).mp ?_ hpc
    intro e he hthrow
    cases e with
    | fail calls => exact hthrow
    | throw what =>
      obtain ⟨n, hn⟩ := Machine.runs_exit_iff.mpr ⟨t, ht, he⟩
      exact h n what hn
  · intro h n what hrun
    obtain ⟨t, ht, he⟩ := Machine.runs_exit_iff.mp ⟨n, hrun⟩
    exact (turn_orderly node lib tx view des nHeight maxstep t).mpr (h t ht) _ he trivial

end

end CVm8051

/-! ## Calls that throw -/

namespace Sample

open CVm8051 Machine

/-- The core with the traversal of the contract data switched on. -/
def traversing : VmLibrary := { vmLibrary with bDbTraversal := true }

/-- The state in which a contract starts that calls a method, on the sample's data. -/
def callStart (method : UInt8) (vchContract : Bytes) : RunState :=
  .start (callRom method) vchContract (fun _ => 0) (vmScripts (callRom method)) [∅]

/-- Its turns. -/
abbrev callTurn (lib : VmLibrary) (vchContract : Bytes) : Turn RunState (ℤ × VmState) Exit :=
  turn node lib (vmCall vchContract) vmView ⟨60, 1⟩ 100 10000

/-- What a result throws. -/
def thrown (res : Except Exit (ℤ × VmState)) : Option String :=
  match res with
  | .error (.throw what) => some what
  | _ => none

theorem eq_of_thrown {res : Except Exit (ℤ × VmState)} {what : String} (h : thrown res = some what) :
    res = .error (.throw what) := by
  cases res with
  | ok out => cases h
  | error e =>
    cases e with
    | fail calls => cases h
    | throw w =>
      obtain rfl := Option.some.inj h
      rfl

theorem run_of_thrown {lib : VmLibrary} {method : UInt8} {vchContract : Bytes} {what : String}
    (h : (runFor (callTurn lib vchContract) 100 (callStart method vchContract)).bind thrown = some what) :
    ∃ n, CVm8051.Run node lib (vmCall vchContract) vmView ⟨60, 1⟩ 100 10000 (callStart method vchContract) n
      (.error (.throw what)) := by
  obtain ⟨res, hrun, hres⟩ := Option.bind_eq_some_iff.mp h
  obtain rfl := eq_of_thrown hres
  exact runs_of_runFor hrun

/-- The smallest number and -1. -/
def divParas : Bytes := [8, 0] ++ Codec.i64.write Int64.minValue ++ [8, 0] ++ Codec.i64.write (-1)

/-- The index 1, and the only data key of the contract: the key of its code comes next. -/
def nextParas : Bytes := [4, 0, 1, 0, 0, 0, 1, 0, 0xAA]

/-- A method past the table, a quotient that does not exist, a contract without bytes, which is handed
back, and the data behind the last key, where eleven bytes of a key of nine are compared. -/
theorem calls_throw : (∃ n, CVm8051.Run node vmLibrary (vmCall []) vmView ⟨60, 1⟩ 100 10000
      (callStart 36 []) n (.error (.throw "FunMap[method] past the table"))) ∧
    (∃ n, CVm8051.Run node vmLibrary (vmCall divParas) vmView ⟨60, 1⟩ 100 10000
      (callStart 4 divParas) n (.error (.throw "INT64_MIN / -1"))) ∧
    (∃ n, CVm8051.Run node vmLibrary (vmCall []) vmView ⟨60, 1⟩ 100 10000
      (callStart 28 []) n (.error (.throw "it.at(0) of an empty vector"))) ∧
    ∃ n, CVm8051.Run node traversing (vmCall nextParas) vmView ⟨60, 1⟩ 100 10000
      (callStart 21 nextParas) n (.error (.throw "bytes past the end of a key")) :=
  ⟨run_of_thrown (by decide +kernel), run_of_thrown (by decide +kernel), run_of_thrown (by decide +kernel),
    run_of_thrown (by decide +kernel)⟩

/-- A call made in this turn writes data, with a counter that can be read. -/
def writesCounted (r : RunState) : Bool :=
  r.stepped.cpu.pc != 0x0012 || (r.stepped.cpu.methodID == 17 &&
    (r.stepped.st.scriptDB.getData (CScriptDBViewCache.scriptDataCountKey (CRegID.getVec6 ⟨60, 1⟩))).all
      fun v => (Codec.i32.read v).isSome)

/-- A comparison without parameters is refused; the run that writes three bytes throws nothing, and
counts eleven steps. -/
theorem call_served_iff_written : Exec.Orderly
    (externalCall node vmLibrary (vmCall []) vmView ⟨60, 1⟩ 100 (callStart 0 []) >>= fun p =>
      afterCall 10000 (callStart 0 []) p.1 p.2) ∧
    (∀ n what, ¬ CVm8051.Run node vmLibrary (vmCall writeParas) vmView ⟨60, 1⟩ 100 10000
      (callStart 17 writeParas) n (.error (.throw what))) ∧
    ∃ n st, CVm8051.Run node vmLibrary (vmCall writeParas) vmView ⟨60, 1⟩ 100 10000
      (callStart 17 writeParas) n (.ok (11, st)) := by
  refine ⟨?_, ?_, ?_⟩
  · refine ((call_served_iff node vmLibrary (vmCall []) vmView ⟨60, 1⟩ 100).1 10000 _).mpr ?_
    have hmethod : (callStart 0 []).cpu.methodID = 0 := by decide +kernel
    rw [hmethod]
    exact ⟨nothing, rfl, trivial⟩
  · refine ((call_served_iff node vmLibrary (vmCall writeParas) vmView ⟨60, 1⟩ 100).2 10000 _ (by decide)).mpr ?_
    have hpasses : passes (callTurn vmLibrary writeParas) writesCounted 100 (callStart 17 writeParas) = true := by
      decide +kernel
    intro t ht hpc
    have hcounted := passes_of_reach hpasses ht
    unfold writesCounted at hcounted
    rw [hpc, bne_self_eq_false, Bool.false_or, Bool.and_eq_true, beq_iff_eq] at hcounted
    rw [hcounted.1]
    refine ⟨needsCountUnless ⟨60, 1⟩, rfl, fun p q _ _ v hv => ?_⟩
    rw [hv] at hcounted
    exact hcounted.2
  · have hresult : ((runFor (callTurn vmLibrary writeParas) 100 (callStart 17 writeParas)).map
        fun res => res.toOption.map Prod.fst) = some (some 11) := by decide +kernel
    obtain ⟨res, hres, hstep⟩ := Option.map_eq_some_iff.mp hresult
    obtain ⟨⟨step, st⟩, hok, rfl⟩ := Option.map_eq_some_iff.mp hstep
    obtain ⟨n, hn⟩ := runs_of_runFor hres
    cases res with
    | error e => cases hok
    | ok out =>
      obtain rfl := Option.some.inj hok
      exact ⟨n, st, hn⟩

end Sample

end Dacrs
