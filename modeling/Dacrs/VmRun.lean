import Dacrs.ExternalCall
import Dacrs.Mining
import Dacrs.Lib.Machine

/-!
# The run of a contract on the 8051 core

`CVm8051::run` as a machine: a turn runs one opcode, makes the call when the program counter is at
0x0012, stops at 0x0008, and compares the steps with the limits.  A call costs what its handler reports,
which may be nothing or less: `run_halts` says what holds of the runs in which every call costs.
-/

open Codec (Bytes)

namespace Dacrs

namespace CVm8051

open Machine

/-! ## One turn -/

/-- The method number in the call area. -/
def methodID (c : CVm8051) : ℕ :=
  (c.exRam vmFunCallAddr).toNat + 256 * (c.exRam (vmFunCallAddr + 1)).toNat

/-- The shared memory, to the end of the external memory. -/
def share (c : CVm8051) : Bytes :=
  (List.range (65536 - vmShareAddr)).map fun i => c.exRam (UInt16.ofNat (vmShareAddr + i))

theorem share_getD (c : CVm8051) {i : ℕ} (h : i < 65536 - vmShareAddr) :
    c.share.getD i 0 = c.exRam (UInt16.ofNat (vmShareAddr + i)) := by
  unfold share
  rw [List.getD_eq_getElem?_getD, List.getElem?_map, List.getElem?_range h]
  rfl

/-- Bytes over the shared memory. -/
def setShare (c : CVm8051) (vch : Bytes) : CVm8051 :=
  { c with exRam := fun addr =>
      let i := addr.toNat - vmShareAddr
      if vmShareAddr ≤ addr.toNat ∧ i < vch.length then vch.getD i 0 else c.exRam addr }

/-- `memset(ipara, 0, MAX_SHARE_RAM)`. -/
def clearShare (c : CVm8051) : CVm8051 := c.setShare (List.replicate maxShareRam 0)

theorem clearShare_exRam (c : CVm8051) (addr : UInt16) : c.clearShare.exRam addr =
    if vmShareAddr ≤ addr.toNat ∧ addr.toNat - vmShareAddr < maxShareRam then 0 else c.exRam addr := by
  unfold clearShare setShare
  dsimp only
  rw [List.length_replicate]
  split
  · next h =>
    rw [List.getD_eq_getElem?_getD, List.getElem?_replicate, if_pos h.2]
    rfl
  · rfl

/-- What the call hands back goes into the shared memory, if there is room for it. -/
def writeBack (c : CVm8051) (data : List Bytes) : Exec CVm8051 :=
  let totalsize := (data.map fun it => it.length + 2).sum
  if totalsize + 2 < maxShareRam then
    if [] ∈ data then Exec.throw "it.at(0) of an empty vector"
    else .ok (c.setShare (data.flatMap fun it => Codec.leBytes 2 it.length ++ it))
  else .ok c

structure RunState where
  cpu : CVm8051
  st : VmState
  step : ℤ

/-- The limits at the end of the loop. -/
def checkStep (maxstep : UInt64) (r : RunState) : RunState ⊕ ℤ × VmState :=
  if (maxBlockRunStep.toNat : ℤ) ≤ r.step ∨ maxstep.toInt64.toInt ≤ r.step then .inr (-1, r.st)
  else .inl r

/-- After the opcode. -/
def RunState.stepped (r : RunState) : RunState :=
  { r with cpu := r.cpu.stepRun r.cpu.getOpcode, step := r.step + 1 }

section
variable (node : Node) (lib : VmLibrary) (tx : CTransaction) (view : CAccountViewCache) (des : CRegID)
  (nHeight : ℤ) (maxstep : UInt64)

/-- The call out of the core. -/
def externalCall (r : RunState) : Exec (RetDefine × VmState) :=
  callExternalFunc node lib tx view des nHeight r.cpu.methodID r.cpu.share r.st

/-- What is done with what the call returned. -/
def afterCall (r : RunState) (ret : RetDefine) (st : VmState) : Exec (RunState ⊕ ℤ × VmState) :=
  let step := r.step + (ret.step - 1)
  let cpu := r.cpu.clearShare
  if ret.status = 1 then do
    let cpu ← cpu.writeBack ret.data
    return checkStep maxstep ⟨cpu, st, step⟩
  else if ret.status = -1 then .ok (.inr (-1, st))
  else .ok (checkStep maxstep ⟨cpu, st, step⟩)

/-- One turn of the loop of `run`. -/
def turn : Turn RunState (ℤ × VmState) Exit := fun r =>
  let r := r.stepped
  if r.cpu.pc = 0x0012 then do
    let (ret, st) ← externalCall node lib tx view des nHeight r
    afterCall maxstep r ret st
  else if r.cpu.pc = 0x0008 then
    .ok (.inr (if r.cpu.exRam vmFunCallAddr = 1 then r.step else 0, r.st))
  else .ok (checkStep maxstep r)

/-- `run`, with the number of opcodes it runs. -/
def Run (r : RunState) (n : ℕ) (res : Except Exit (ℤ × VmState)) : Prop :=
  if maxstep = 0 then n = 0 ∧ res = .ok (-1, r.st)
  else Runs (turn node lib tx view des nHeight maxstep) r n res

end

/-- The state a run starts in. -/
def RunState.start (vRom inputData : Bytes) (behind : ℕ → UInt8) (db : CScriptDB) (caches : List ScriptCache) :
    RunState := ⟨CVm8051.start vRom inputData behind, ⟨db, caches, [], [], []⟩, 0⟩

/-! ## Calls that cost -/

section
variable {node : Node} {lib : VmLibrary} {tx : CTransaction} {view : CAccountViewCache} {des : CRegID}
  {nHeight : ℤ} {maxstep : UInt64}

/-- A call that is made in this turn reports at least one step, unless it ends the run. -/
def CallCharged (node : Node) (lib : VmLibrary) (tx : CTransaction) (view : CAccountViewCache)
    (des : CRegID) (nHeight : ℤ) (r : RunState) : Prop :=
  r.stepped.cpu.pc = 0x0012 → ∀ ret st,
    externalCall node lib tx view des nHeight r.stepped = .ok (ret, st) →
    ret.status ≠ -1 → 1 ≤ ret.step

/-- Every call of the run does. -/
def CallsCharged (node : Node) (lib : VmLibrary) (tx : CTransaction) (view : CAccountViewCache)
    (des : CRegID) (nHeight : ℤ) (maxstep : UInt64) (r : RunState) : Prop :=
  ∀ t, Reach (turn node lib tx view des nHeight maxstep) r t →
    CallCharged node lib tx view des nHeight t

/-- The call of this turn, evaluated. -/
def callCosts (node : Node) (lib : VmLibrary) (tx : CTransaction) (view : CAccountViewCache)
    (des : CRegID) (nHeight : ℤ) (r : RunState) : Bool :=
  r.stepped.cpu.pc != 0x0012 ||
    match externalCall node lib tx view des nHeight r.stepped with
    | .ok (ret, _) => ret.status == -1 || decide (1 ≤ ret.step)
    | .error _ => true

theorem callCharged_of_callCosts {r : RunState}
    (h : callCosts node lib tx view des nHeight r = true) :
    CallCharged node lib tx view des nHeight r := by
  intro hpc ret st hret hstatus
  unfold callCosts at h
  rw [hpc, hret] at h
  simp only [bne_self_eq_false, Bool.false_or, Bool.or_eq_true, beq_iff_eq, decide_eq_true_eq] at h
  exact h.resolve_left hstatus

theorem callsCharged_of_passes {r : RunState} {n : ℕ}
    (h : passes (turn node lib tx view des nHeight maxstep) (callCosts node lib tx view des nHeight) n r
      = true) : CallsCharged node lib tx view des nHeight maxstep r :=
  fun _ ht => callCharged_of_callCosts (passes_of_reach h ht)

/-- The steps that must be left for another turn. -/
def budget (maxstep : UInt64) : ℤ := max (min maxBlockRunStep.toNat maxstep.toInt64.toInt) 1

theorem checkStep_inl {r u : RunState} (h : checkStep maxstep r = .inl u) :
    u = r ∧ r.step < budget maxstep := by
  unfold checkStep at h
  split at h
  · cases h
  · next hlimit =>
    cases h
    obtain ⟨hblock, hmax⟩ := not_or.mp hlimit
    exact ⟨rfl, lt_max_of_lt_left (lt_min (not_le.mp hblock) (not_le.mp hmax))⟩

theorem checkStep_inr {r : RunState} {out : ℤ × VmState} (h : checkStep maxstep r = .inr out) :
    out.1 = -1 := by
  unfold checkStep at h
  split at h
  · cases h
    rfl
  · cases h

/-- After a call the machine goes on with the steps the call reported, or stops with -1. -/
theorem afterCall_inl {r u : RunState} {ret : RetDefine} {st : VmState}
    (h : afterCall maxstep r ret st = .ok (.inl u)) :
    ret.status ≠ -1 ∧ u.step = r.step + (ret.step - 1) ∧ u.step < budget maxstep := by
  unfold afterCall at h
  dsimp only at h
  split at h
  · next hone =>
    rw [Except.bind_eq_ok] at h
    obtain ⟨cpu, -, hcheck⟩ := h
    obtain ⟨rfl, hlt⟩ := checkStep_inl (Except.ok.inj hcheck)
    exact ⟨by omega, rfl, hlt⟩
  · split at h
    · cases h
    · next hend =>
      obtain ⟨rfl, hlt⟩ := checkStep_inl (Except.ok.inj h)
      exact ⟨hend, rfl, hlt⟩

theorem afterCall_inr {r : RunState} {ret : RetDefine} {st : VmState} {out : ℤ × VmState}
    (h : afterCall maxstep r ret st = .ok (.inr out)) : out.1 = -1 := by
  unfold afterCall at h
  dsimp only at h
  split at h
  · rw [Except.bind_eq_ok] at h
    obtain ⟨cpu, -, hcheck⟩ := h
    exact checkStep_inr (Except.ok.inj hcheck)
  · split at h
    · cases h
      rfl
    · exact checkStep_inr (Except.ok.inj h)

/-- A turn that goes on has counted a step more, with calls that cost. -/
theorem turn_inl {r u : RunState} (hcall : CallCharged node lib tx view des nHeight r)
    (h : turn node lib tx view des nHeight maxstep r = .ok (.inl u)) :
    r.step + 1 ≤ u.step ∧ u.step < budget maxstep := by
  have hstep : r.stepped.step = r.step + 1 := rfl
  unfold turn at h
  dsimp only at h
  split at h
  · next hpc =>
    rw [Except.bind_eq_ok] at h
    obtain ⟨⟨ret, st⟩, hret, hafter⟩ := h
    obtain ⟨hstatus, hnext, hlt⟩ := afterCall_inl hafter
    have hcost := hcall hpc ret st hret hstatus
    dsimp only at hnext
    exact ⟨by omega, hlt⟩
  · split at h
    · cases h
    · obtain ⟨rfl, hlt⟩ := checkStep_inl (Except.ok.inj h)
      exact ⟨le_of_eq hstep.symm, hlt⟩

/-- A turn that stops has -1, or nothing, or one step more than there were. -/
theorem turn_inr {r : RunState} {out : ℤ × VmState}
    (h : turn node lib tx view des nHeight maxstep r = .ok (.inr out)) :
    out.1 = -1 ∨ out.1 = 0 ∨ out.1 = r.step + 1 := by
  unfold turn at h
  dsimp only at h
  split at h
  · rw [Except.bind_eq_ok] at h
    obtain ⟨⟨ret, st⟩, -, hafter⟩ := h
    exact .inl (afterCall_inr hafter)
  · split at h
    · cases h
      dsimp only
      split
      · exact .inr (.inr rfl)
      · exact .inr (.inl rfl)
    · exact .inl (checkStep_inr (Except.ok.inj h))

/-- A turn that goes on counts a step exactly when it makes no call or one that costs. -/
theorem turn_counts_iff {r u : RunState}
    (h : turn node lib tx view des nHeight maxstep r = .ok (.inl u)) :
    r.step < u.step ↔ CallCharged node lib tx view des nHeight r := by
  refine ⟨fun hlt hpc ret st hret hstatus => ?_, fun hcall => ?_⟩
  · have hstep : r.stepped.step = r.step + 1 := rfl
    unfold turn at h
    rw [if_pos hpc, hret, Except.ok_bind] at h
    obtain ⟨-, hnext, -⟩ := afterCall_inl h
    omega
  · have hup := (turn_inl hcall h).1
    omega

theorem metered {r : RunState} (hcalls : CallsCharged node lib tx view des nHeight maxstep r) :
    Metered (turn node lib tx view des nHeight maxstep) RunState.step (budget maxstep) r :=
  fun t _ ht hu => turn_inl (hcalls t ht) hu

theorem budget_le (h : maxstep ≠ 0) : budget maxstep ≤ maxstep.toNat ∧ budget maxstep ≤ 12000000 := by
  have hmax : maxBlockRunStep.toNat = 12000000 := rfl
  have hpos : maxstep.toNat ≠ 0 := fun h0 => h (UInt64.toNat.inj h0)
  have hcond := BitVec.toInt_eq_toNat_cond maxstep.toInt64.toBitVec
  have hint : maxstep.toInt64.toInt = maxstep.toInt64.toBitVec.toInt := rfl
  have hnat : maxstep.toInt64.toBitVec.toNat = maxstep.toNat := rfl
  unfold budget
  rw [hnat] at hcond
  split at hcond
  · omega
  · omega

/-- A run with calls that cost ends within its steps, and what it counts is no less than what it ran. -/
theorem run_halts (maxstep : UInt64) {r : RunState} (hstart : r.step = 0)
    (hcalls : CallsCharged node lib tx view des nHeight maxstep r) :
    (∃ n res, Run node lib tx view des nHeight maxstep r n res ∧ n ≤ maxstep.toNat) ∧
      ∀ n step st, Run node lib tx view des nHeight maxstep r n (.ok (step, st)) → step ≠ 0 →
        step ≠ -1 → 1 ≤ step ∧ step ≤ maxstep.toNat ∧ step ≤ 12000000 ∧ n ≤ step := by
  unfold Run
  by_cases hzero : maxstep = 0
  · simp only [if_pos hzero]
    refine ⟨⟨0, .ok (-1, r.st), ⟨rfl, rfl⟩, Nat.zero_le _⟩, ?_⟩
    rintro n step st ⟨-, hres⟩ - hminus
    exact absurd (congrArg Prod.fst (Except.ok.inj hres)) hminus
  · simp only [if_neg hzero]
    obtain ⟨hle, hmax⟩ := budget_le hzero
    have hroom : r.step < budget maxstep := by
      unfold budget
      omega
    refine ⟨?_, fun n step st hrun h0 h1 => ?_⟩
    · obtain ⟨n, res, hrun, hn⟩ := (metered hcalls).halts hroom
      exact ⟨n, res, hrun, by omega⟩
    · obtain ⟨t, -, ht, hn, hlt⟩ := (metered hcalls).last hrun hroom
      rcases turn_inr ht with h | h | h
      · exact absurd h h1
      · exact absurd h h0
      · dsimp only at h
        have hpos := hrun.pos
        omega

end

end CVm8051

end Dacrs
