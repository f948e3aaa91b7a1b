import Dacrs.CheckedTx
import Dacrs.Vm8051
import Mathlib.Data.List.GetD

/-!
# Loading a registered contract

`ExecuteTx` of a registration checks the code with `IsValid` and, for Lua, the syntax check;
`CVmRunEvn::intial` copies it into an array of 64 KiB, and the Lua interpreter takes from there what
`strlen` measures.  `registered_loads_iff` says which of the accepted codes are loaded as they were registered.
-/

open Codec (Bytes)

namespace Dacrs

/-! ## The arrays of an interpreter -/

/-- What a write past the end of an array ends in. -/
def outsideRam : String := "write outside of an array of the interpreter"

/-- `unsigned char[65536]`. -/
structure Ram where
  bytes : Bytes
  size : bytes.length = 65536

namespace Ram

/-- `memset(…, 0, sizeof(…))`. -/
def blank : Ram := ⟨List.replicate 65536 0, List.length_replicate⟩

theorem size_memcpy (m : Ram) {pos : ℕ} {src : Bytes} (h : pos + src.length ≤ 65536) :
    (m.bytes.take pos ++ src ++ m.bytes.drop (pos + src.length)).length = 65536 := by
  have hsize := m.size
  rw [List.length_append, List.length_append, List.length_take, List.length_drop]
  omega

/-- `memcpy(&m[pos], …)`. -/
def memcpy (m : Ram) (pos : ℕ) (src : Bytes) : Exec Ram :=
  if h : pos + src.length ≤ 65536 then
    .ok ⟨m.bytes.take pos ++ src ++ m.bytes.drop (pos + src.length), m.size_memcpy h⟩
  else Exec.throw outsideRam

theorem memcpy_ok (m : Ram) {pos : ℕ} {src : Bytes} (h : pos + src.length ≤ 65536) :
    m.memcpy pos src = .ok ⟨m.bytes.take pos ++ src ++ m.bytes.drop (pos + src.length), m.size_memcpy h⟩ :=
  dif_pos h

/-- A write behind what has been written of a blank array. -/
theorem memcpy_blank {m : Ram} {written src : Bytes} {n : ℕ} (hm : m.bytes = written ++ List.replicate n 0)
    (h : src.length ≤ n) :
    ∃ m', m.memcpy written.length src = .ok m' ∧
      m'.bytes = (written ++ src) ++ List.replicate (n - src.length) 0 := by
  have hsize := m.size
  rw [hm, List.length_append, List.length_replicate] at hsize
  refine ⟨_, memcpy_ok m (by omega), ?_⟩
  show m.bytes.take written.length ++ src ++ m.bytes.drop (written.length + src.length) = _
  rw [hm, List.take_left, List.drop_append, List.drop_eq_nil_of_le (by omega), List.nil_append,
    List.drop_replicate, Nat.add_sub_cancel_left]

end Ram

/-- The arrays of `CVm8051` that its constructor fills. -/
structure McuRam where
  exRam : Ram
  exeFile : Ram

/-- `CVm8051::CVm8051`. -/
def McuRam.load (vRom inputData : Bytes) : Exec McuRam := do
  let exeFile ← Ram.blank.memcpy 0 vRom
  let exRam ← Ram.blank.memcpy CVm8051.vmShareAddr (Codec.leBytes 2 inputData.length)
  let exRam ← exRam.memcpy (CVm8051.vmShareAddr + 2) inputData
  return ⟨exRam, exeFile⟩

structure CVmlua where
  exRam : Ram
  exeFile : Ram

namespace CVmlua

/-- `CVmlua::CVmlua`.  `intial` turns its exceptions into false. -/
def load (vuchRom vuchInputData : Bytes) : Exec CVmlua :=
  if 65536 ≤ vuchRom.length then Exec.returnFalse
  else do
    let exeFile ← Ram.blank.memcpy 0 vuchRom
    let usCount := vuchInputData.length % 65536
    if 65536 - 2 < usCount then Exec.returnFalse
    else do
      let exRam ← Ram.blank.memcpy 0 (Codec.leBytes 2 usCount)
      let exRam ← exRam.memcpy 2 (vuchInputData.take usCount)
      return ⟨exRam, exeFile⟩

/-- What `run` gives to `luaL_loadbuffer`: `strlen` bytes of `m_arruchExeFile`. -/
def program (m : CVmlua) : Bytes := m.exeFile.bytes.takeWhile (· ≠ 0)

end CVmlua

/-- `m_pMcu` or `m_pLua`. -/
inductive LoadedVm where
  | mcu (m : McuRam)
  | lua (m : CVmlua)

/-- The interpreter has the program: in its memory from address 0 on, or in what it compiles. -/
def LoadedVm.Runs (rom : Bytes) : LoadedVm → Prop
  | .mcu m => m.exeFile.bytes = rom ++ List.replicate (65536 - rom.length) 0
  | .lua m => m.program = rom

namespace CVmRunEvn

/-- The constructor that `intial` calls. -/
def makeVm (script : CVmScript) (vchContract : Bytes) : ScriptType → Exec LoadedVm
  | .mcs8051 => LoadedVm.mcu <$> McuRam.load script.vuchRom vchContract
  | .lua => LoadedVm.lua <$> CVmlua.load script.vuchRom vchContract

/-- `intial`, to its end. -/
def intialVm (s : CScriptDBViewCache) (des : CRegID) (tx : CTransaction) : Exec LoadedVm := do
  let (script, type, _) ← intialGuarded s des tx
  makeVm script tx.vchContract type

end CVmRunEvn

/-! ## The constructors -/

section

variable {rom contract : Bytes}

theorem leBytes_two (n : ℕ) : (Codec.leBytes 2 n).length = 2 := rfl

/-- The 8051 has room for every code of up to 64 KiB, and for every contract below 4096 bytes behind the
shared address. -/
theorem McuRam.load_eq (hrom : rom.length ≤ 65536) (hcontract : contract.length < 4 * 1024) :
    ∃ m, McuRam.load rom contract = .ok m ∧
      m.exeFile.bytes = rom ++ List.replicate (65536 - rom.length) 0 ∧
      m.exRam.bytes = (List.replicate CVm8051.vmShareAddr 0 ++ Codec.leBytes 2 contract.length ++ contract)
        ++ List.replicate (4095 - contract.length) 0 := by
  have hblank : Ram.blank.bytes = List.replicate CVm8051.vmShareAddr 0 ++ List.replicate 4097 0 := by
    rw [List.replicate_append_replicate]
    rfl
  have hempty : Ram.blank.bytes = [] ++ List.replicate 65536 0 := rfl
  have htwo : (Codec.leBytes 2 contract.length).length ≤ 4097 := by
    rw [leBytes_two]
    omega
  have hrest : contract.length ≤ 4097 - 2 := by omega
  obtain ⟨exeFile, hexe, hbytes⟩ := Ram.memcpy_blank hempty hrom
  obtain ⟨ram₁, h1, hram₁⟩ := Ram.memcpy_blank hblank htwo
  rw [leBytes_two] at hram₁
  obtain ⟨ram₂, h2, hram₂⟩ := Ram.memcpy_blank hram₁ hrest
  rw [List.length_replicate] at h1
  rw [List.length_append, List.length_replicate, leBytes_two] at h2
  refine ⟨⟨ram₂, exeFile⟩, ?_, hbytes, hram₂⟩
  unfold McuRam.load
  rw [show Ram.blank.memcpy 0 rom = .ok exeFile from hexe, Except.ok_bind, h1, Except.ok_bind, h2]
  rfl

/-- Zeros at the end are what is read there anyway. -/
theorem getD_zeros (l : Bytes) (n i : ℕ) : (l ++ List.replicate n 0).getD i 0 = l.getD i 0 := by
  by_cases hi : i < l.length
  · exact List.getD_append _ _ _ _ hi
  · rw [List.getD_append_right _ _ _ _ (not_lt.mp hi), List.getD_eq_default l _ (not_lt.mp hi)]
    by_cases hn : i - l.length < n
    · exact List.getD_replicate _ hn
    · exact List.getD_eq_default _ _ (by rw [List.length_replicate]; omega)

/-- The memories the machine starts with are these arrays. -/
theorem McuRam.load_start (hrom : rom.length ≤ 65536) (hcontract : contract.length < 4 * 1024)
    (behind : ℕ → UInt8) :
    ∃ m, McuRam.load rom contract = .ok m ∧
      (∀ i < 65536, (CVm8051.start rom contract behind).exeFile i = m.exeFile.bytes.getD i 0) ∧
      ∀ addr, (CVm8051.start rom contract behind).exRam addr = m.exRam.bytes.getD addr.toNat 0 := by
  obtain ⟨m, hload, hexe, hram⟩ := McuRam.load_eq hrom hcontract
  refine ⟨m, hload, fun i hi => ?_, fun addr => ?_⟩
  · show (if i < 65536 then rom.getD i 0 else behind (i - 65536)) = _
    rw [if_pos hi, hexe, getD_zeros]
  · show (if addr.toNat < CVm8051.vmShareAddr then 0
      else if addr.toNat - CVm8051.vmShareAddr < 2 then
        (Codec.leBytes 2 contract.length).getD (addr.toNat - CVm8051.vmShareAddr) 0
      else contract.getD (addr.toNat - CVm8051.vmShareAddr - 2) 0) = _
    have hlen : (List.replicate CVm8051.vmShareAddr (0 : UInt8) ++ Codec.leBytes 2 contract.length).length
        = CVm8051.vmShareAddr + 2 := by
      rw [List.length_append, List.length_replicate, leBytes_two]
    rw [hram, getD_zeros]
    by_cases hlow : addr.toNat < CVm8051.vmShareAddr
    · rw [if_pos hlow, List.getD_append _ _ _ _ (by omega),
        List.getD_append _ _ _ _ (by rw [List.length_replicate]; exact hlow), List.getD_replicate _ hlow]
    rw [if_neg hlow]
    by_cases hcount : addr.toNat - CVm8051.vmShareAddr < 2
    · rw [if_pos hcount, List.getD_append _ _ _ _ (by omega),
        List.getD_append_right _ _ _ _ (by rw [List.length_replicate]; omega), List.length_replicate]
    · rw [if_neg hcount, List.getD_append_right _ _ _ _ (by omega), hlen, Nat.sub_sub]

/-- Lua has room for less than 64 KiB. -/
theorem CVmlua.load_ok (hrom : rom.length < 65536) (hcontract : contract.length < 4 * 1024) :
    ∃ m, CVmlua.load rom contract = .ok m ∧
      m.exeFile.bytes = rom ++ List.replicate (65536 - rom.length) 0 := by
  have hcount : contract.length % 65536 = contract.length := Nat.mod_eq_of_lt (by omega)
  have htwo := leBytes_two contract.length
  have hblank : Ram.blank.bytes = [] ++ List.replicate 65536 0 := rfl
  have hlen : (Codec.leBytes 2 contract.length).length ≤ 65536 := by omega
  have hrest : contract.length ≤ 65536 - 2 := by omega
  obtain ⟨exeFile, hexe, hbytes⟩ := Ram.memcpy_blank hblank (le_of_lt hrom)
  obtain ⟨ram₁, h1, hram₁⟩ := Ram.memcpy_blank hblank hlen
  rw [htwo] at hram₁
  obtain ⟨ram₂, h2, -⟩ := Ram.memcpy_blank hram₁ hrest
  rw [List.nil_append, htwo] at h2
  refine ⟨⟨ram₂, exeFile⟩, ?_, hbytes⟩
  unfold CVmlua.load
  rw [if_neg (by omega), show Ram.blank.memcpy 0 rom = .ok exeFile from hexe, Except.ok_bind]
  dsimp only
  rw [hcount, if_neg (by omega), List.take_length,
    show Ram.blank.memcpy 0 (Codec.leBytes 2 contract.length) = .ok ram₁ from h1, Except.ok_bind, h2]
  rfl

theorem CVmlua.load_full (hrom : 65536 ≤ rom.length) : CVmlua.load rom contract = Exec.returnFalse :=
  if_pos hrom

/-- What `strlen` measures is all of it when no byte is zero. -/
theorem takeWhile_zeros {n : ℕ} (hn : 0 < n) :
    (rom ++ List.replicate n 0).takeWhile (· ≠ 0) = rom ↔ (0 : UInt8) ∉ rom := by
  induction rom with
  | nil =>
    cases n with
    | zero => omega
    | succ n => simp [List.replicate_succ]
  | cons b rom ih =>
    rw [List.cons_append]
    by_cases hb : b = 0
    · rw [hb, List.takeWhile_cons_of_neg (by simp)]
      simp
    · rw [List.takeWhile_cons_of_pos (by simpa using hb), List.cons.injEq, and_iff_right rfl, ih,
        List.mem_cons, not_or]
      exact (and_iff_right (fun h => hb h.symm)).symm

/-- Lua runs the code exactly when it is shorter than 64 KiB and has no zero byte. -/
theorem CVmlua.load_runs_iff (hcontract : contract.length < 4 * 1024) :
    (∃ m, CVmlua.load rom contract = .ok m ∧ LoadedVm.Runs rom (.lua m)) ↔
      rom.length < 65536 ∧ (0 : UInt8) ∉ rom := by
  by_cases hrom : rom.length < 65536
  · obtain ⟨m, hload, hbytes⟩ := CVmlua.load_ok hrom hcontract
    have hprogram : LoadedVm.Runs rom (.lua m) ↔ (0 : UInt8) ∉ rom := by
      show m.exeFile.bytes.takeWhile (· ≠ 0) = rom ↔ _
      rw [hbytes]
      exact takeWhile_zeros (by omega)
    rw [and_iff_right hrom, ← hprogram]
    constructor
    · rintro ⟨m', hload', hruns⟩
      obtain rfl := Except.ok.inj (hload.symm.trans hload')
      exact hruns
    · exact fun hruns => ⟨m, hload, hruns⟩
  · refine iff_of_false ?_ fun h => hrom h.1
    rintro ⟨m, hload, -⟩
    rw [CVmlua.load_full (not_lt.mp hrom)] at hload
    cases hload

end

/-! ## What a registration accepts -/

section

variable {node : Node} {tx : CRegisterAppTx} {nIndex nHeight : ℤ} {vs : Views} {ex : Executed}
  {script : CVmScript} {rest : Bytes} {type : ScriptType}

/-- Everything in the index of addresses starts with 'A'. -/
theorem writeAddressIndex_getData {ids : List CUserID} {hash : Uint256}
    {p : CScriptDBViewCache × List CScriptDBOperLog} {k : Bytes} (hk : k.head? ≠ some 65)
    (h : writeAddressIndex node vs ids nHeight nIndex hash = .ok p) :
    p.1.getData k = vs.scriptDB.getData k := by
  have hrun : ∀ (keys : List CKeyID) (st : CScriptDBViewCache × List CScriptDBOperLog),
      (keys.foldl (indexAddress nHeight nIndex hash) st).1.getData k = st.1.getData k := by
    intro keys
    induction keys with
    | nil => exact fun _ => rfl
    | cons key keys ih =>
      intro st
      rw [List.foldl_cons, ih]
      refine CScriptDBViewCache.getData_setData_ne _ _ fun he => hk ?_
      rw [he]
      rfl
  unfold writeAddressIndex at h
  split at h
  · rw [Except.bind_eq_ok] at h
    obtain ⟨keys, -, h⟩ := h
    obtain rfl := Except.ok.inj h
    exact hrun keys _
  · obtain rfl := Except.ok.inj h
    rfl

/-- The checks an accepted registration has passed. -/
theorem CRegisterAppTx.checkScriptGuarded_cases
    (hread : CVmScript.unserialize tx.vchScript = some (script, rest))
    (h : tx.checkScriptGuarded node nHeight = .ok ()) :
    script.ReadsInside ∧ ∃ type, script.isValid = some type ∧
      (type = .lua → node.luaSyntaxcheck script.vuchRom = true) := by
  unfold checkScriptGuarded at h
  rw [hread] at h
  dsimp only at h
  by_cases hin : script.ReadsInside
  · rw [CVmScript.isValidGuarded_eq hin, Except.ok_bind] at h
    refine ⟨hin, ?_⟩
    cases hvalid : script.isValid with
    | none =>
      rw [hvalid] at h
      dsimp only at h
      cases h
    | some type =>
      refine ⟨type, rfl, ?_⟩
      rintro rfl
      rw [hvalid] at h
      exact (Exec.require_eq_ok (fails_updateFail _)).mp h
  · rw [CVmScript.isValidGuarded_outside hin] at h
    cases h

/-- A registration that goes through has passed the checks, and its script is stored. -/
theorem CRegisterAppTx.executeTxGuarded_cases (h : tx.executeTxGuarded node nIndex nHeight vs = .ok ex) :
    tx.checkScriptGuarded node nHeight = .ok () ∧
      (tx.vchScript ≠ [] →
        ex.views.scriptDB.getScript (CRegID.ofPosition nHeight nIndex).getVec6 = some tx.vchScript) := by
  unfold executeTxGuarded at h
  rw [Except.bind_eq_ok] at h
  obtain ⟨a, -, h⟩ := h
  rw [Except.bind_eq_ok] at h
  obtain ⟨⟨b, logs⟩, -, h⟩ := h
  dsimp only at h
  rw [Except.bind_eq_ok] at h
  obtain ⟨⟨⟩, hcheck, h⟩ := h
  rw [Except.bind_eq_ok] at h
  obtain ⟨s, hs, h⟩ := h
  rw [Except.bind_eq_ok] at h
  obtain ⟨⟨s', addrLogs⟩, haddr, h⟩ := h
  dsimp only at h
  rw [Except.bind_eq_ok] at h
  obtain ⟨-, -, h⟩ := h
  obtain rfl := Except.ok.inj h
  refine ⟨hcheck, fun hne => ?_⟩
  rw [Exec.onFalse_eq_ok] at hs
  unfold CScriptDBViewCache.setScript at hs
  rw [Except.bind_eq_ok] at hs
  obtain ⟨s₁, -, hs⟩ := hs
  obtain rfl := Except.ok.inj hs
  have hkey : (CScriptDBViewCache.scriptKey (CRegID.ofPosition nHeight nIndex).getVec6).head? ≠ some 65 := by
    show some (100 : UInt8) ≠ some 65
    decide
  show s'.getData _ = _
  rw [writeAddressIndex_getData hkey haddr, CScriptDBViewCache.getData_setData, if_pos rfl,
    CScriptDBViewCache.liveValue_of_ne hne]

/-- The type and the size of a valid code. -/
theorem CVmScript.isValid_cases (h : script.isValid = some type) :
    script.vuchRom.length ≤ 65536 ∧ (type = .mcs8051 ↔ script.vuchRom.head? = some 2) := by
  unfold isValid at h
  split at h
  · cases h
  · next hsize =>
    refine ⟨by omega, ?_⟩
    split at h
    · next hhead =>
      refine iff_of_false ?_ hhead
      split at h
      · obtain rfl := Option.some.inj h
        decide
      · cases h
    · next hhead =>
      split at h
      · cases h
      · exact iff_of_true (Option.some.inj h).symm (not_not.mp hhead)

end

/-! ## Loaded as registered -/

/-- Whatever a contract transaction of the admitted size passes on, `intial` succeeds, writes inside of the
arrays, and the interpreter has the code as it is. -/
def LoadsAsRegistered (s : CScriptDBViewCache) (des : CRegID) (rom : Bytes) : Prop :=
  ∀ tx : CTransaction, tx.vchContract.length < 4 * 1024 →
    ∃ vm, CVmRunEvn.intialVm s des tx = .ok vm ∧ vm.Runs rom

section

variable {node : Node} {tx : CRegisterAppTx} {nIndex nHeight : ℤ} {vs : Views} {ex : Executed}
  {script : CVmScript} {rest : Bytes} {s : CScriptDBViewCache} {des : CRegID}

/-- `intial` up to the constructor. -/
theorem intialVm_eq {type : ScriptType} {ctx : CTransaction} (hs : s.getScript des.getVec6 = some tx.vchScript)
    (hread : CVmScript.unserialize tx.vchScript = some (script, rest)) (hin : script.ReadsInside)
    (hvalid : script.isValid = some type) (hcontract : ctx.vchContract.length < 4 * 1024) :
    CVmRunEvn.intialVm s des ctx = CVmRunEvn.makeVm script ctx.vchContract type := by
  have hguarded : CVmRunEvn.intialGuarded s des ctx
      = .ok (script, type, script.isCheckAccount type) := by
    have hchecked := CVmScript.isCheckAccountGuarded_eq hin hvalid
    unfold CVmRunEvn.intialGuarded
    simp only [hs, Exec.ofOption, Except.ok_bind, hread, CVmScript.isValidGuarded_eq hin, hvalid, hchecked]
    unfold Exec.require
    rw [if_pos hcontract]
    rfl
  unfold CVmRunEvn.intialVm
  rw [hguarded]
  rfl

/-- A stored code that is valid. -/
theorem loads_iff {type : ScriptType} (hs : s.getScript des.getVec6 = some tx.vchScript)
    (hread : CVmScript.unserialize tx.vchScript = some (script, rest)) (hin : script.ReadsInside)
    (hvalid : script.isValid = some type) :
    LoadsAsRegistered s des script.vuchRom ↔
      script.vuchRom.head? = some 2 ∨ script.vuchRom.length < 65536 ∧ (0 : UInt8) ∉ script.vuchRom := by
  obtain ⟨hsize, htype⟩ := CVmScript.isValid_cases hvalid
  unfold LoadsAsRegistered
  cases type with
  | mcs8051 =>
    refine iff_of_true (fun ctx hcontract => ?_) (.inl (htype.mp rfl))
    obtain ⟨m, hload, hbytes, -⟩ := McuRam.load_eq hsize hcontract
    refine ⟨.mcu m, ?_, hbytes⟩
    rw [intialVm_eq hs hread hin hvalid hcontract]
    unfold CVmRunEvn.makeVm
    rw [hload]
    rfl
  | lua =>
    have hhead : script.vuchRom.head? ≠ some 2 := fun he => by cases htype.mpr he
    rw [or_iff_right hhead]
    constructor
    · intro hall
      have hcontract : (default : CTransaction).vchContract.length < 4 * 1024 := by decide
      obtain ⟨vm, hvm, hruns⟩ := hall default hcontract
      rw [intialVm_eq hs hread hin hvalid hcontract] at hvm
      refine (CVmlua.load_runs_iff hcontract).mp ?_
      unfold CVmRunEvn.makeVm at hvm
      cases hload : CVmlua.load script.vuchRom (default : CTransaction).vchContract with
      | error e =>
        rw [hload] at hvm
        cases hvm
      | ok m =>
        rw [hload] at hvm
        obtain rfl := Except.ok.inj hvm
        exact ⟨m, rfl, hruns⟩
    · intro hok ctx hcontract
      obtain ⟨m, hload, hruns⟩ := (CVmlua.load_runs_iff hcontract).mpr hok
      refine ⟨.lua m, ?_, hruns⟩
      rw [intialVm_eq hs hread hin hvalid hcontract]
      unfold CVmRunEvn.makeVm
      rw [hload]
      rfl

/-- An accepted registration is loaded as it was registered exactly when its code is for the 8051, or is
shorter than 64 KiB and has no zero byte. -/
theorem registered_loads_iff (h : tx.executeTxGuarded node nIndex nHeight vs = .ok ex)
    (hread : CVmScript.unserialize tx.vchScript = some (script, rest))
    (hs : s.getScript des.getVec6 = some tx.vchScript) :
    LoadsAsRegistered s des script.vuchRom ↔
      script.vuchRom.head? = some 2 ∨ script.vuchRom.length < 65536 ∧ (0 : UInt8) ∉ script.vuchRom := by
  obtain ⟨hin, type, hvalid, -⟩ :=
    CRegisterAppTx.checkScriptGuarded_cases hread (CRegisterAppTx.executeTxGuarded_cases h).1
  exact loads_iff hs hread hin hvalid

end

namespace Sample

/-- The holder registers a code. -/
def registerCode (rom : Bytes) : CRegisterAppTx :=
  ⟨2, 1, .regID ⟨50, 1⟩, vchCodec.write rom ++ vchCodec.write [], 10000, []⟩

def holderViews : Views := ⟨viewOf [holder] [(⟨50, 1⟩, keyId 5)] 1, scriptsOf []⟩

/-- Code for the 8051 from before the switch for the account check. -/
def mcuCode : Bytes := [2, 0, 18, 0, 0, 0, 0]

/-- mylib = require "mylib" --, a zero byte, a new line and x(). -/
def luaCode : Bytes :=
  CVmScript.luaHeader ++ [32, 34, 109, 121, 108, 105, 98, 34, 32, 45, 45, 0, 10, 120, 40, 41]

theorem registered_loads_mcu :
    ∃ ex, (registerCode mcuCode).executeTxGuarded node 1 100 holderViews = .ok ex ∧
      LoadsAsRegistered ex.views.scriptDB (.ofPosition 100 1) mcuCode := by
  obtain ⟨ex, hex⟩ := Except.exists_of_toOption
    (x := (registerCode mcuCode).executeTxGuarded node 1 100 holderViews) (by decide +kernel)
  have hread : CVmScript.unserialize (registerCode mcuCode).vchScript = some (⟨mcuCode, []⟩, []) := by
    decide +kernel
  have hstored := (CRegisterAppTx.executeTxGuarded_cases hex).2 (by decide +kernel)
  exact ⟨ex, hex, (registered_loads_iff hex hread hstored).mpr (.inl rfl)⟩

/-- The program ends at the zero byte. -/
theorem registered_truncated :
    ∃ ex, (registerCode luaCode).executeTxGuarded node 1 100 holderViews = .ok ex ∧
      ¬ LoadsAsRegistered ex.views.scriptDB (.ofPosition 100 1) luaCode := by
  obtain ⟨ex, hex⟩ := Except.exists_of_toOption
    (x := (registerCode luaCode).executeTxGuarded node 1 100 holderViews) (by decide +kernel)
  have hread : CVmScript.unserialize (registerCode luaCode).vchScript = some (⟨luaCode, []⟩, []) := by
    decide +kernel
  obtain ⟨hcheck, hget⟩ := CRegisterAppTx.executeTxGuarded_cases hex
  obtain ⟨hin, type, hvalid, -⟩ := CRegisterAppTx.checkScriptGuarded_cases hread hcheck
  refine ⟨ex, hex, fun hloads => ?_⟩
  rcases (loads_iff (hget (by decide +kernel)) hread hin hvalid).mp hloads with hhead | ⟨-, hzero⟩
  · revert hhead
    decide
  · revert hzero
    decide

end Sample

end Dacrs
