import Dacrs.ContractSpec
import Dacrs.Guarded

/-!
# Faults

The exits that no execution of a checked transaction should take, and the parts of an execution that
never take them.
-/

open Codec (Bytes)

namespace Dacrs

/-! ## Faults -/

/-- A bad variant access, a deserialization exception of `intial`, a read outside of the code, a null
account. -/
def Fault (e : Exit) : Prop :=
  e = .throw "boost::bad_get" ∨
    e = .throw "CVmScriptRun::intial() Unserialize to vmScript error" ∨
    e = .throw outsideRom ∨ e = .throw CTransaction.nullAccount

instance instDecidableFault (e : Exit) : Decidable (Fault e) := by
  unfold Fault
  infer_instance

/-- An execution that does not end in a fault. -/
abbrev Exec.Sound {α : Type} (x : Exec α) : Prop := Except.Avoids Fault x

/-- A plain `return false`, or an exception that is no fault. -/
def Exit.Plain : Exit → Prop
  | .fail calls => calls = []
  | .throw what => ¬ Fault (.throw what)

/-- An execution that fails plainly, if it fails. -/
abbrev Exec.Plain {α : Type} (x : Exec α) : Prop := Except.Avoids (fun e => ¬ e.Plain) x

namespace Exec

open Except (avoids_ok avoids_error)

variable {α β : Type}

theorem not_fault_fail (calls : List StateCall) : ¬ Fault (.fail calls) := by
  rintro (h | h | h | h) <;> cases h

@[simp] theorem sound_fail (calls : List StateCall) : Sound (.error (.fail calls) : Exec α) :=
  avoids_error.mpr (not_fault_fail calls)

theorem sound_bind {x : Exec α} {f : α → Exec β} :
    Sound (x >>= f) ↔ Sound x ∧ ∀ a, x = .ok a → Sound (f a) := Except.avoids_bind

@[simp] theorem sound_returnFalse : Sound (returnFalse : Exec α) := sound_fail []

@[simp] theorem sound_updateFail (reason : String) : Sound (updateFail reason : Exec α) :=
  sound_fail _

@[simp] theorem sound_pure (a : α) : Sound (pure a : Exec α) := avoids_ok a

theorem sound_throw {what : String} : Sound (throw what : Exec α) ↔ ¬ Fault (.throw what) :=
  avoids_error

theorem sound_ofOption {o : Option α} {els : Exec α} :
    Sound (ofOption o els) ↔ (o = none → Sound els) := by
  cases o with
  | none =>
    constructor
    · intro h _
      exact h
    · intro h
      exact h rfl
  | some a =>
    constructor
    · intro _ h
      cases h
    · intro _
      exact avoids_ok a

theorem sound_require {p : Prop} [Decidable p] {els : Exec Unit} (h : Sound els) :
    Sound (require p els) := by
  unfold require
  split
  · exact avoids_ok ()
  · exact h

theorem sound_onFalse {x : Exec α} {call : StateCall} : Sound (x.onFalse call) ↔ Sound x := by
  unfold onFalse
  split
  · exact iff_of_true (sound_fail _) (sound_fail _)
  · exact Iff.rfl

@[simp] theorem plain_returnFalse : Plain (returnFalse : Exec α) := avoids_error.mpr fun h => h rfl

theorem plain_throw {what : String} (h : ¬ Fault (.throw what)) : Plain (throw what : Exec α) :=
  avoids_error.mpr fun hne => hne h

theorem plain_bind {x : Exec α} {f : α → Exec β} :
    Plain (x >>= f) ↔ Plain x ∧ ∀ a, x = .ok a → Plain (f a) := Except.avoids_bind

theorem plain_ofOption {o : Option α} {els : Exec α} (h : Plain els) : Plain (ofOption o els) := by
  cases o with
  | none => exact h
  | some a => exact avoids_ok a

/-- What fails plainly does not fault. -/
theorem Plain.sound {x : Exec α} (h : Plain x) : Sound x := by
  intro e he hfault
  refine h e he ?_
  cases e with
  | fail calls => exact absurd hfault (not_fault_fail calls)
  | throw what => exact fun hplain => hplain hfault

end Exec

/-! ## What fails plainly -/

namespace CScriptDBViewCache

open Except (avoids_ok avoids_error)

variable (s : CScriptDBViewCache)

theorem getCount_plain (key : Bytes) : (s.getCount key).Plain := by
  unfold getCount
  split
  · exact avoids_ok _
  · split
    · exact avoids_ok _
    · exact Exec.plain_throw (by decide)

theorem setCount_plain (key : Bytes) (n : Int32) : (s.setCount key n).Plain := by
  unfold setCount
  split
  · exact avoids_ok _
  · split
    · exact Exec.plain_returnFalse
    · exact avoids_ok _

theorem increaseUnless_plain (present : Bool) (key : Bytes) : (s.increaseUnless present key).Plain := by
  unfold increaseUnless
  split
  · exact avoids_ok _
  · exact Exec.plain_bind.mpr ⟨s.getCount_plain key, fun n _ => s.setCount_plain key _⟩

theorem decreaseIf_plain (present : Bool) (key : Bytes) : (s.decreaseIf present key).Plain := by
  unfold decreaseIf
  split
  · refine Exec.plain_bind.mpr ⟨s.getCount_plain key, fun n _ => ?_⟩
    cases n with
    | none => exact Exec.plain_returnFalse
    | some n => exact s.setCount_plain key _
  · exact avoids_ok _

theorem eraseKey_plain (key : Bytes) : (s.eraseKey key).Plain := by
  unfold eraseKey
  split
  · exact avoids_ok _
  · exact Exec.plain_returnFalse

theorem setScript_plain (id value : Bytes) : (s.setScript id value).Plain :=
  Exec.plain_bind.mpr ⟨s.increaseUnless_plain _ _, fun _ _ => avoids_ok _⟩

theorem setScriptData_plain (id key value : Bytes) : (s.setScriptData id key value).Plain :=
  Exec.plain_bind.mpr ⟨s.increaseUnless_plain _ _, fun _ _ => avoids_ok _⟩

theorem eraseScriptData_plain (id key : Bytes) : (s.eraseScriptData id key).Plain := by
  refine Exec.plain_bind.mpr ⟨s.decreaseIf_plain _ _, fun s _ => ?_⟩
  split
  · exact Exec.plain_returnFalse
  · exact Exec.plain_bind.mpr ⟨s.eraseKey_plain _, fun _ _ => avoids_ok _⟩

theorem getScriptAcc_plain (r : CRegID) (key : Bytes) : (s.getScriptAcc r key).Plain := by
  unfold getScriptAcc
  split
  · exact avoids_ok _
  · split
    · exact avoids_ok _
    · exact Exec.plain_throw (by decide)

end CScriptDBViewCache

theorem CAppFundOperate.toJSON_plain (vuchUserId : Bytes) (op : CAppFundOperate) :
    (op.toJSON vuchUserId).Plain := by
  unfold toJSON getFundTagV
  split
  · refine Exec.plain_bind.mpr ⟨?_, fun _ _ => ?_⟩
    · split
      · exact Except.avoids_ok _
      · exact Exec.plain_throw (by decide)
    · split
      · exact Except.avoids_ok _
      · exact Exec.plain_throw (by decide)
  · exact Exec.plain_throw (by decide)

namespace CAppUserAccout

open Except (avoids_ok)

variable (a : CAppUserAccout)

theorem ofOperate_plain (op : CAppFundOperate) : (CAppCFund.ofOperate op).Plain := by
  unfold CAppCFund.ofOperate CAppFundOperate.getFundTagV
  split
  · exact Exec.plain_throw (by decide)
  · refine Exec.plain_bind.mpr ⟨?_, fun _ _ => avoids_ok _⟩
    split
    · exact avoids_ok _
    · exact Exec.plain_throw (by decide)

theorem addAppCFund_plain (fund : CAppCFund) : (a.addAppCFund fund).Plain := by
  unfold addAppCFund
  split
  · split
    · exact Exec.plain_throw (by decide)
    · exact avoids_ok _
  · exact avoids_ok _

theorem minusAppCFund_plain (fund : CAppCFund) : (a.minusAppCFund fund).Plain := by
  unfold minusAppCFund
  split
  · exact Exec.plain_throw (by decide)
  · split
    · split
      · exact Exec.plain_returnFalse
      · exact avoids_ok _
    · exact Exec.plain_returnFalse

theorem operateOne_plain (op : CAppFundOperate) : (a.operateOne op).Plain := by
  unfold operateOne
  split
  · split
    · exact avoids_ok _
    · exact Exec.plain_returnFalse
  · split
    · split
      · exact avoids_ok _
      · exact Exec.plain_returnFalse
    · split
      · exact Exec.plain_bind.mpr ⟨ofOperate_plain op, fun fund _ => a.addAppCFund_plain fund⟩
      · split
        · exact Exec.plain_bind.mpr ⟨ofOperate_plain op, fun fund _ => a.minusAppCFund_plain fund⟩
        · exact Exec.plain_returnFalse

theorem operate_plain (ops : List CAppFundOperate) : (a.operate ops).Plain := by
  unfold operate
  split
  · exact Exec.plain_throw (by decide)
  · exact Except.Avoids.foldlM (fun a op => a.operateOne_plain op) ops a

theorem autoMergeFreezeToFree_plain (chainActive : PBlockIndex) (unAppHeight : UInt32) (nHeight : ℤ) :
    (a.autoMergeFreezeToFree chainActive unAppHeight nHeight).Plain := by
  refine Exec.plain_bind.mpr ⟨?_, fun limit _ => ?_⟩
  · unfold freezeLimit
    split
    · split
      · exact Exec.plain_throw (by decide)
      · split
        · split
          · exact avoids_ok _
          · exact Exec.plain_throw (by decide)
        · exact avoids_ok _
    · exact avoids_ok _
  · split
    · exact avoids_ok _
    · exact Exec.plain_returnFalse

end CAppUserAccout

namespace CVmRunEvn

open Except (avoids_ok avoids_error)

theorem dbStep_plain (id : Bytes) (st : CScriptDBViewCache × List CScriptDBOperLog) (op : VmDbOp) :
    (dbStep id st op).Plain := by
  cases op with
  | set key value h =>
    have hset := st.1.setScriptData_plain id key value
    unfold dbStep
    dsimp only
    cases hr : st.1.setScriptData id key value with
    | ok r => exact avoids_ok _
    | error e =>
      cases e with
      | fail calls => exact avoids_ok _
      | throw what => exact avoids_error.mpr (hset _ hr)
  | erase key =>
    have herase := st.1.eraseScriptData_plain id key
    unfold dbStep
    dsimp only
    cases hr : st.1.eraseScriptData id key with
    | ok r => exact avoids_ok _
    | error e =>
      cases e with
      | fail calls => exact avoids_ok _
      | throw what => exact avoids_error.mpr (herase _ hr)

theorem runDb_plain (id : Bytes) (s : CScriptDBViewCache) (ops : List VmDbOp) :
    (runDb id s ops).Plain := Except.Avoids.foldlM (dbStep_plain id) ops (s, [])

theorem getAppUserAccout_plain (chainActive : PBlockIndex) (s : CScriptDBViewCache) (des : CRegID)
    (nHeight : ℤ) (id : Bytes) : (getAppUserAccout chainActive s des nHeight id).Plain := by
  refine Exec.plain_bind.mpr ⟨s.getScriptAcc_plain des id, fun o _ => ?_⟩
  cases o with
  | none => exact avoids_ok _
  | some a => exact a.autoMergeFreezeToFree_plain chainActive des.uHeight nHeight

theorem operateOrPrint_plain (a : CAppUserAccout) (item : Bytes × List CAppFundOperate) :
    (operateOrPrint a item).Plain := by
  have hoperate := a.operate_plain item.2
  unfold operateOrPrint
  split
  · next calls hfail =>
    rw [hfail] at hoperate
    exact Exec.plain_bind.mpr ⟨Except.Avoids.forM fun op _ => op.toJSON_plain item.1, fun _ _ => hoperate⟩
  · exact hoperate

theorem opeatorAppAccount_plain (chainActive : PBlockIndex) (des : CRegID) (nHeight : ℤ)
    (s : CScriptDBViewCache) (mapOp : List (Bytes × List CAppFundOperate)) :
    (opeatorAppAccount chainActive des nHeight s mapOp).Plain := by
  refine Except.Avoids.foldlM (fun w item => ?_) mapOp _
  refine Exec.plain_bind.mpr ⟨getAppUserAccout_plain chainActive w.scriptDB des nHeight item.1, fun a _ => ?_⟩
  refine Exec.plain_bind.mpr ⟨a.autoMergeFreezeToFree_plain chainActive des.uHeight nHeight, fun a _ => ?_⟩
  exact Exec.plain_bind.mpr ⟨operateOrPrint_plain a item, fun a _ => avoids_ok _⟩

theorem interpret_plain (node : Node) (input : VmInput) : (interpret node input).Plain := by
  unfold interpret
  split
  · exact Exec.plain_returnFalse
  · split
    · exact Exec.plain_throw (by decide)
    · exact avoids_ok _

/-- Every account of `m_NewAccont` has its object in `m_RawAccont`. -/
theorem opeatorAccount_newAccont {cfg : SysCfg} {cr : Crypto} {view : CAccountViewCache}
    {nCurHeight : ℤ} {ops : List CVmOperate} {w : AccountWork}
    (h : opeatorAccount cfg cr view nCurHeight ops = some w) :
    ∀ k ∈ w.newAccont, (w.rawAccont.lookup k).isSome = true := by
  have hrun : ∀ (ops : List CVmOperate) (w w' : AccountWork),
      (∀ k ∈ w.newAccont, (w.rawAccont.lookup k).isSome = true) →
      ops.foldlM (opeatorAccountOne cfg cr view nCurHeight) w = some w' →
      ∀ k ∈ w'.newAccont, (w'.rawAccont.lookup k).isSome = true := by
    intro ops
    induction ops with
    | nil =>
      intro w w' hw hrun
      obtain rfl := Option.some.inj hrun
      exact hw
    | cons op ops ih =>
      intro w w' hw hrun
      rw [List.foldlM_cons] at hrun
      obtain ⟨w1, hstep, hrest⟩ := Option.bind_eq_some_iff.mp hrun
      refine ih w1 w' ?_ hrest
      obtain ⟨tem, -, hstep⟩ := Option.bind_eq_some_iff.mp hstep
      obtain ⟨acct, -, hstep⟩ := Option.bind_eq_some_iff.mp hstep
      obtain rfl := Option.some.inj hstep
      intro k hk
      show ((w.rawAccont.put tem.cKeyID (some acct)).lookup k).isSome = true
      rw [Store.lookup_put]
      by_cases hkey : tem.cKeyID = k
      · simp [hkey]
      · have hmem : k ∈ w.newAccont := by
          rcases List.mem_append.mp hk with hk | hk
          · exact hk
          · exact absurd (List.mem_singleton.mp hk).symm hkey
        split
        · rfl
        · exact hw k hmem
  refine hrun ops ⟨∅, []⟩ w (fun k hk => ?_) h
  cases hk

end CVmRunEvn

open Except (avoids_ok avoids_error)

theorem writeAddressIndex_plain (node : Node) (vs : Views) (ids : List CUserID) (nHeight nIndex : ℤ)
    (hash : Uint256) : (writeAddressIndex node vs ids nHeight nIndex hash).Plain := by
  have hkeys : ∀ ids : List CUserID,
      (ids.mapM fun id => Exec.ofOption (vs.view.getKeyId node.cr id) Exec.returnFalse).Plain := by
    intro ids
    induction ids with
    | nil => exact avoids_ok _
    | cons id ids ih =>
      rw [List.mapM_cons]
      refine Exec.plain_bind.mpr ⟨Exec.plain_ofOption Exec.plain_returnFalse, fun k _ => ?_⟩
      exact Exec.plain_bind.mpr ⟨ih, fun _ _ => avoids_ok _⟩
  unfold writeAddressIndex
  split
  · exact Exec.plain_bind.mpr ⟨hkeys ids, fun _ _ => avoids_ok _⟩
  · exact avoids_ok _

end Dacrs
