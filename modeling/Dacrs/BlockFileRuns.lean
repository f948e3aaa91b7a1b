import Dacrs.BlockFiles
import Dacrs.BlockUndo

/-!
# Runs on the block files

A record is kept where its bytes are in the file and the infos of the file, in the database and in memory,
end behind it.  Every call keeps the records there are, since it writes behind the end that an info states.
-/

open Codec (Bytes)

namespace Dacrs

open Extents

namespace BlockFiles

/-- The info of the file in the database says so, and so does the one in memory. -/
structure Infos (st : BlockFiles) (nFile : ℤ) (P : CBlockFileInfo → Prop) : Prop where
  database : ∃ info, st.fileInfo.lookup nFile = some info ∧ P info
  memory : st.nLastBlockFile = nFile → P st.infoLastBlockFile

/-- The block is in its file if no byte of it was lost, and the infos cover it. -/
structure KeepsBlock (st : BlockFiles) (e : StoredBlock) : Prop where
  holds : e.flushed = true → Holds (st.blk e.pos.nFile) e.pos.unPos.toNat e.cBlock
  infos : st.Infos e.pos.nFile (·.Covers e)

/-- The undo data end in the used part of their file. -/
def UndoEnds (Hash : Bytes → Uint256) (e : StoredUndo) (info : CBlockFileInfo) : Prop :=
  e.pos.unPos.toNat + (e.record Hash).length ≤ info.unUndoSize.toNat

structure KeepsUndo (Hash : Bytes → Uint256) (st : BlockFiles) (e : StoredUndo) : Prop where
  holds : e.flushed = true → Holds (st.rev e.pos.nFile) e.pos.unPos.toNat (e.record Hash)
  infos : st.Infos e.pos.nFile (UndoEnds Hash e)

structure Sane (st : BlockFiles) : Prop where
  memory : st.infoLastBlockFile.Sane
  database : ∀ nFile info, st.fileInfo.lookup nFile = some info → info.Sane

/-- What every call that spares what is there sees to. -/
structure Frame (Hash : Bytes → Uint256) (st st' : BlockFiles) : Prop where
  blocks : ∀ e, st.KeepsBlock e → st'.KeepsBlock e
  undos : ∀ e, st.KeepsUndo Hash e → st'.KeepsUndo Hash e
  sane : st'.Sane

section
variable {Hash : Bytes → Uint256} {calls : DiskCalls} {st st' st'' : BlockFiles} {nFile : ℤ}
  {P : CBlockFileInfo → Prop}

theorem Frame.refl (hsane : st.Sane) : Frame Hash st st := ⟨fun _ h => h, fun _ h => h, hsane⟩

theorem Frame.trans (h : Frame Hash st st') (h' : Frame Hash st' st'') : Frame Hash st st'' :=
  ⟨fun e he => h'.blocks e (h.blocks e he), fun e he => h'.undos e (h.undos e he), h'.sane⟩

/-- It is enough that the bytes in front of the ends in memory stay, and that the infos do. -/
theorem Frame.of
    (hblk : ∀ f n, (st.nLastBlockFile = f → n ≤ st.infoLastBlockFile.unSize.toNat) →
      Keeps n (st.blk f) (st'.blk f))
    (hrev : ∀ f n, (st.nLastBlockFile = f → n ≤ st.infoLastBlockFile.unUndoSize.toNat) →
      Keeps n (st.rev f) (st'.rev f))
    (hblocks : ∀ e : StoredBlock, st.Infos e.pos.nFile (·.Covers e) → st'.Infos e.pos.nFile (·.Covers e))
    (hundos : ∀ e : StoredUndo, st.Infos e.pos.nFile (UndoEnds Hash e) →
      st'.Infos e.pos.nFile (UndoEnds Hash e))
    (hsane : st'.Sane) : Frame Hash st st' where
  blocks e he :=
    ⟨fun hflushed => (he.holds hflushed).keeps (le_refl _) (hblk _ _ fun hlast => (he.infos.memory hlast).size),
      hblocks e he.infos⟩
  undos e he :=
    ⟨fun hflushed => (he.holds hflushed).keeps (le_refl _) (hrev _ _ fun hlast => he.infos.memory hlast),
      hundos e he.infos⟩
  sane := hsane

/-! ## The infos -/

theorem Sane.recorded (h : st.Sane) (nFile : ℤ) : ((st.fileInfo.lookup nFile).getD .null).Sane := by
  cases hlookup : st.fileInfo.lookup nFile with
  | none => exact CBlockFileInfo.null_sane
  | some info => exact h.database nFile info hlookup

variable (calls) in
theorem Sane.readInfo (h : st.Sane) (nFile : ℤ) : (st.readInfo calls nFile).Sane := by
  unfold BlockFiles.readInfo readBlockFileInfo
  split
  · exact h.recorded nFile
  · exact CBlockFileInfo.null_sane

theorem Sane.infoOf (h : st.Sane) (nFile : ℤ) : (st.infoOf nFile).Sane := by
  unfold BlockFiles.infoOf
  split
  · exact h.memory
  · exact h.recorded nFile

/-- What is read where no info is missed. -/
theorem readInfo_eq (hfinds : calls.FindsInfos) (nFile : ℤ) :
    st.readInfo calls nFile = (st.fileInfo.lookup nFile).getD .null := by
  rw [readInfo, readBlockFileInfo, if_pos (hfinds nFile)]

theorem Infos.infoOf (h : st.Infos nFile P) : P (st.infoOf nFile) := by
  unfold BlockFiles.infoOf
  split
  · next heq => exact h.memory heq.symm
  · obtain ⟨info, hlookup, hP⟩ := h.database
    rw [hlookup]
    exact hP

/-- Another file becomes the last one, and its info is read. -/
theorem Infos.turn {nNew : ℤ} (h : st.Infos nFile P) (hfinds : calls.FindsInfos)
    (hfileInfo : st'.fileInfo = st.fileInfo) (hlast : st'.nLastBlockFile = nNew)
    (hinfo : st'.infoLastBlockFile = st.readInfo calls nNew) : st'.Infos nFile P := by
  obtain ⟨info, hlookup, hP⟩ := h.database
  refine ⟨⟨info, ?_, hP⟩, fun heq => ?_⟩
  · rw [hfileInfo]
    exact hlookup
  · rw [hlast] at heq
    rw [hinfo, heq, readInfo_eq hfinds, hlookup]
    exact hP

theorem Infos.imp {Q : CBlockFileInfo → Prop} (h : st.Infos nFile P) (himp : ∀ info, P info → Q info) :
    st.Infos nFile Q := by
  obtain ⟨info, hlookup, hP⟩ := h.database
  exact ⟨⟨info, hlookup, himp info hP⟩, fun hlast => himp _ (h.memory hlast)⟩

theorem Infos.congr (h : st.Infos nFile P) (hfileInfo : st'.fileInfo = st.fileInfo)
    (hlast : st'.nLastBlockFile = st.nLastBlockFile) (hinfo : st'.infoLastBlockFile = st.infoLastBlockFile) :
    st'.Infos nFile P := by
  refine ⟨?_, ?_⟩
  · rw [hfileInfo]
    exact h.database
  · rw [hlast, hinfo]
    exact h.memory

/-- The info in memory changes. -/
theorem Infos.withMemory (h : st.Infos nFile P) {info : CBlockFileInfo}
    (hkeeps : P st.infoLastBlockFile → P info) : (st.withMemory info).Infos nFile P :=
  ⟨h.database, fun heq => hkeeps (h.memory heq)⟩

theorem Sane.put (h : st.Sane) {nPut : ℤ} {info : CBlockFileInfo} (hinfo : info.Sane) :
    (st.withInfo nPut info).Sane := by
  refine ⟨h.memory, fun nFile found hfound => ?_⟩
  have hlookup : (st.fileInfo.put nPut (some info)).lookup nFile = some found := hfound
  rw [Store.lookup_put] at hlookup
  split at hlookup
  · cases hlookup
    exact hinfo
  · exact h.database nFile found hlookup

/-! ## Going from file to file -/

theorem leaves_eq {opening : Opening} (h : opening.empties = false) (f : Bytes) : opening.leaves f = f := by
  unfold Opening.leaves
  rw [h]
  rfl

theorem keeps_update {files : ℤ → Bytes} {nUpdated : ℤ} {file : Bytes} {f : ℤ} {n : ℕ}
    (h : nUpdated = f → Keeps n (files nUpdated) file) :
    Keeps n (files f) (Function.update files nUpdated file f) := by
  by_cases heq : nUpdated = f
  · subst heq
    rw [Function.update_self]
    exact h rfl
  · rw [Function.update_of_ne (Ne.symm heq)]
    exact Keeps.refl n _

/-- A file that is flushed keeps what is in front of its size. -/
theorem keeps_flushFile (bFinalize truncates : Bool) {opening : Opening} {unSize : UInt32} {n : ℕ} (f : Bytes)
    (hopening : opening.empties = false) (hn : n ≤ unSize.toNat) :
    Keeps n f (flushFile bFinalize opening truncates unSize f) := by
  unfold flushFile
  rw [leaves_eq hopening]
  split
  · exact (keeps_resize unSize.toNat f).mono hn
  · exact Keeps.refl n f

variable (Hash) in
theorem frame_flushBlockFile (bFinalize : Bool) (hfiles : calls.KeepsFiles) (hsane : st.Sane) :
    Frame Hash st (st.flushBlockFile calls bFinalize) :=
  .of (fun _ _ hn => keeps_update fun heq => keeps_flushFile bFinalize _ _ (hfiles.flushBlk _) (hn heq))
    (fun _ _ hn => keeps_update fun heq => keeps_flushFile bFinalize _ _ (hfiles.flushRev _) (hn heq))
    (fun _ he => he.congr rfl rfl rfl) (fun _ he => he.congr rfl rfl rfl) ⟨hsane.memory, hsane.database⟩

/-- The last file becomes another one. -/
theorem frame_turn (nNew : ℤ) (hfinds : calls.FindsInfos) (hsane : st.Sane) :
    Frame Hash st { st with nLastBlockFile := nNew, infoLastBlockFile := st.readInfo calls nNew } :=
  .of (fun _ n _ => Keeps.refl n _) (fun _ n _ => Keeps.refl n _) (fun _ he => he.turn hfinds rfl rfl rfl)
    (fun _ he => he.turn hfinds rfl rfl rfl) ⟨hsane.readInfo calls _, hsane.database⟩

variable (Hash) in
theorem frame_nextFile (hfiles : calls.KeepsFiles) (hfinds : calls.FindsInfos) (hsane : st.Sane) :
    Frame Hash st (st.nextFile calls) := by
  have hflushed := frame_flushBlockFile Hash true hfiles hsane
  exact hflushed.trans (frame_turn (st.nLastBlockFile + 1) hfinds hflushed.sane)

variable (Hash) in
theorem frame_leaveFullFiles {nAddSize : UInt32} {fuel : ℕ} {bUpdatedLast : Bool} {r : BlockFiles × Bool}
    (hfiles : calls.KeepsFiles) (hfinds : calls.FindsInfos) (hsane : st.Sane)
    (h : leaveFullFiles calls nAddSize fuel st bUpdatedLast = some r) :
    Frame Hash st r.1 ∧ r.1.fileInfo = st.fileInfo ∧
      ¬ maxBlockfileSize ≤ r.1.infoLastBlockFile.unSize + nAddSize := by
  induction fuel generalizing st bUpdatedLast with
  | zero => cases h
  | succ fuel ih =>
    rw [leaveFullFiles] at h
    split at h
    · have hnext := frame_nextFile Hash hfiles hfinds hsane
      obtain ⟨hframe, hdatabase, hroom⟩ := ih hnext.sane h
      exact ⟨hnext.trans hframe, hdatabase, hroom⟩
    · next hroom =>
      cases h
      exact ⟨Frame.refl hsane, rfl, hroom⟩

variable (Hash nFile) in
theorem frame_enterFile (hfinds : calls.FindsInfos) (hsane : st.Sane) :
    Frame Hash st (st.enterFile calls nFile).1 := by
  unfold enterFile
  split
  · exact frame_turn nFile hfinds hsane
  · exact Frame.refl hsane

/-! ## Taking room for a block -/

variable (Hash) in
theorem frame_withBlock {nAddSize : UInt32} (nHeight : UInt32) (ullTime : UInt64) (hsane : st.Sane)
    (hadd : 8 ≤ nAddSize.toNat)
    (hfits : st.infoLastBlockFile.unSize.toNat + nAddSize.toNat < maxBlockfileSize.toNat) :
    Frame Hash st (st.withMemory (st.infoLastBlockFile.withBlock nAddSize nHeight ullTime)) :=
  .of (fun _ n _ => Keeps.refl n _) (fun _ n _ => Keeps.refl n _)
    (fun _ he => he.withMemory fun hcovers => hcovers.withBlock hsane.memory hfits)
    (fun _ he => he.withMemory id) ⟨hsane.memory.withBlock hadd hfits, hsane.database⟩

theorem keeps_preallocate {chunk unPos unNewSize : UInt32} {f file : Bytes} (hfiles : calls.KeepsFiles)
    (h : preallocate calls chunk unPos unNewSize f = some file) (n : ℕ) : Keeps n f file := by
  unfold preallocate at h
  split at h
  · split at h
    · obtain rfl := Option.some.inj h
      unfold allocateFileRange
      rw [leaves_eq hfiles.allocOpening]
      split
      · exact keeps_grow _ _ _
      · exact Keeps.refl n f
    · cases h
  · obtain rfl := Option.some.inj h
    exact Keeps.refl n f

theorem frame_withBlk {file : Bytes} (hsane : st.Sane) (h : ∀ n, Keeps n (st.blk nFile) file) :
    Frame Hash st (st.withBlk nFile file) :=
  .of (fun _ n _ => keeps_update fun _ => h n) (fun _ n _ => Keeps.refl n _)
    (fun _ he => he.congr rfl rfl rfl) (fun _ he => he.congr rfl rfl rfl) ⟨hsane.memory, hsane.database⟩

theorem frame_withRev {file : Bytes} (hsane : st.Sane) (h : ∀ n, Keeps n (st.rev nFile) file) :
    Frame Hash st (st.withRev nFile file) :=
  .of (fun _ n _ => Keeps.refl n _) (fun _ n _ => keeps_update fun _ => h n)
    (fun _ he => he.congr rfl rfl rfl) (fun _ he => he.congr rfl rfl rfl) ⟨hsane.memory, hsane.database⟩

variable (calls) in
/-- The database gets what memory has. -/
theorem frame_writeInfo (hsane : st.Sane) (bUpdatedLast : Bool) :
    Frame Hash st (st.writeInfo calls bUpdatedLast).1 := by
  have hinfos : ∀ {nFile : ℤ} {P : CBlockFileInfo → Prop}, st.Infos nFile P →
      ∃ info, (st.fileInfo.put st.nLastBlockFile (some st.infoLastBlockFile)).lookup nFile = some info ∧
        P info := by
    intro nFile P he
    rw [Store.lookup_put]
    split
    · next heq => exact ⟨_, rfl, he.memory heq.symm⟩
    · exact he.database
  unfold writeInfo
  split
  · exact .of (fun _ n _ => Keeps.refl n _) (fun _ n _ => Keeps.refl n _)
      (fun _ he => ⟨hinfos he, he.memory⟩) (fun _ he => ⟨hinfos he, he.memory⟩)
      ⟨hsane.memory, (hsane.put hsane.memory).database⟩
  · exact Frame.refl hsane

/-- The info in memory is the one in the database. -/
structure Written (st st' : BlockFiles) : Prop where
  database : st'.fileInfo.lookup st.nLastBlockFile = some st.infoLastBlockFile
  last : st'.nLastBlockFile = st.nLastBlockFile
  memory : st'.infoLastBlockFile = st.infoLastBlockFile

theorem foundPos_writeInfo {bUpdatedLast : Bool} {pos pos' : DiskBlockPos}
    (h : (foundPos (st.writeInfo calls bUpdatedLast) pos).2 = .ok pos') :
    pos' = pos ∧ Written st (st.writeInfo calls bUpdatedLast).1 := by
  unfold writeInfo foundPos at *
  split at h
  · next hwritten =>
    rw [if_pos hwritten]
    exact ⟨(Except.ok.inj h).symm, Store.lookup_put_self _ _ _, rfl, rfl⟩
  · cases h

theorem writeInfo_blk (bUpdatedLast : Bool) : (st.writeInfo calls bUpdatedLast).1.blk = st.blk := by
  unfold writeInfo
  split <;> rfl

variable (Hash calls) in
theorem enterBlock_spec (hsane : st.Sane) (unPos : UInt32) (bUpdatedLast : Bool) {file : Option Bytes}
    (hfile : ∀ f, file = some f → ∀ n, Keeps n (st.blk st.nLastBlockFile) f) :
    Frame Hash st (st.enterBlock calls unPos bUpdatedLast file).1 ∧
      ∀ pos, (st.enterBlock calls unPos bUpdatedLast file).2 = .ok pos →
        pos = ⟨st.nLastBlockFile, unPos⟩ ∧ Written st (st.enterBlock calls unPos bUpdatedLast file).1 := by
  cases file with
  | none => exact ⟨Frame.refl hsane, fun pos hpos => by cases hpos⟩
  | some file =>
    have halloc : Frame Hash st (st.withBlk st.nLastBlockFile file) := frame_withBlk hsane (hfile file rfl)
    refine ⟨halloc.trans (frame_writeInfo calls halloc.sane bUpdatedLast), fun pos hpos => ?_⟩
    obtain ⟨rfl, hwritten⟩ := foundPos_writeInfo hpos
    exact ⟨rfl, hwritten.database, hwritten.last, hwritten.memory⟩

/-- A place behind the blocks in the file; the infos take in a block that is put there. -/
structure BlockPlace (st st' : BlockFiles) (pos : DiskBlockPos) (nAddSize nHeight : UInt32)
    (ullTime : UInt64) : Prop where
  fits : pos.unPos.toNat + nAddSize.toNat < maxBlockfileSize.toNat
  behind : ∀ e, st.KeepsBlock e → e.pos.nFile = pos.nFile →
    e.pos.unPos.toNat + e.cBlock.length ≤ pos.unPos.toNat
  infos : ∀ e : StoredBlock, e.pos.nFile = pos.nFile → e.nHeight = nHeight → e.ullTime = ullTime →
    e.pos.unPos.toNat + e.cBlock.length ≤ pos.unPos.toNat + nAddSize.toNat →
    st'.Infos pos.nFile (·.Covers e)

/-- The info in memory has taken in a block of the last file, and is written. -/
theorem Written.infos {info : CBlockFileInfo} {nAddSize : UInt32} {e : StoredBlock} (h : Written st st')
    (hinfo : info.Sane) (hfits : info.unSize.toNat + nAddSize.toNat < maxBlockfileSize.toNat)
    (hmemory : st.infoLastBlockFile = info.withBlock nAddSize e.nHeight e.ullTime)
    (hend : e.pos.unPos.toNat + e.cBlock.length ≤ info.unSize.toNat + nAddSize.toNat) :
    st'.Infos st.nLastBlockFile (·.Covers e) := by
  have hcovers : st.infoLastBlockFile.Covers e := by
    rw [hmemory]
    refine CBlockFileInfo.covers_withBlock hinfo ?_
    rw [CBlockFileInfo.toNat_withBlock_unSize hfits]
    exact hend
  refine ⟨⟨_, h.database, hcovers⟩, fun _ => ?_⟩
  rw [h.memory]
  exact hcovers

variable (Hash calls) in
theorem findNewBlockPos_spec {fuel : ℕ} {nAddSize nHeight : UInt32} {ullTime : UInt64}
    {r : BlockFiles × Except String DiskBlockPos} (hfiles : calls.KeepsFiles) (hfinds : calls.FindsInfos)
    (hsane : st.Sane) (hadd : 8 ≤ nAddSize.toNat) (hmax : nAddSize.toNat ≤ maxBlockSize + 8)
    (h : st.findNewBlockPos calls fuel nAddSize nHeight ullTime = some r) :
    Frame Hash st r.1 ∧ ∀ pos, r.2 = .ok pos → BlockPlace st r.1 pos nAddSize nHeight ullTime := by
  rw [findNewBlockPos, Option.map_eq_some_iff] at h
  obtain ⟨found, hloop, rfl⟩ := h
  obtain ⟨hframe, -, hroom⟩ := frame_leaveFullFiles Hash hfiles hfinds hsane hloop
  have hfits : found.1.infoLastBlockFile.unSize.toNat + nAddSize.toNat < maxBlockfileSize.toNat := by
    have hsize := hframe.sane.memory.size
    have hlimit : maxBlockfileSize.toNat = 134217728 := rfl
    have hblock : maxBlockSize = 1000000 := rfl
    rw [UInt32.le_iff_toNat_le, UInt32.toNat_add, Nat.mod_eq_of_lt (by omega)] at hroom
    omega
  have hgrown := hframe.trans (frame_withBlock Hash nHeight ullTime hframe.sane hadd hfits)
  obtain ⟨halloc, hpos⟩ := enterBlock_spec Hash calls hgrown.sane found.1.infoLastBlockFile.unSize found.2
    fun _ hfile => keeps_preallocate hfiles hfile
  refine ⟨hgrown.trans halloc, fun pos hok => ?_⟩
  obtain ⟨rfl, hwritten⟩ := hpos pos hok
  refine ⟨hfits, fun e he hfile => ((hframe.blocks e he).infos.memory hfile.symm).size, ?_⟩
  rintro e hfile rfl rfl hend
  exact hwritten.infos hframe.sane.memory hfits rfl hend

variable (st nFile) in
theorem enterFile_infos (hfinds : calls.FindsInfos) : (st.enterFile calls nFile).1.nLastBlockFile = nFile ∧
    (st.enterFile calls nFile).1.infoLastBlockFile = st.infoOf nFile ∧
    (st.enterFile calls nFile).1.blk = st.blk := by
  unfold enterFile infoOf
  by_cases hlast : st.nLastBlockFile = nFile
  · rw [if_neg (not_not.mpr hlast), if_pos hlast.symm]
    exact ⟨hlast, rfl, rfl⟩
  · rw [if_pos hlast, if_neg fun heq => hlast heq.symm]
    exact ⟨rfl, readInfo_eq hfinds nFile, rfl⟩

variable (Hash) in
theorem findKnownBlockPos_spec (pos : DiskBlockPos) {nAddSize : UInt32} (nHeight : UInt32) (ullTime : UInt64)
    (hfinds : calls.FindsInfos) (hsane : st.Sane) (hadd : 8 ≤ nAddSize.toNat)
    (hfits : (st.infoOf pos.nFile).unSize.toNat + nAddSize.toNat < maxBlockfileSize.toNat) :
    Frame Hash st (st.findKnownBlockPos calls pos nAddSize nHeight ullTime).1 ∧
      (st.findKnownBlockPos calls pos nAddSize nHeight ullTime).1.blk = st.blk ∧
      ∀ pos', (st.findKnownBlockPos calls pos nAddSize nHeight ullTime).2 = .ok pos' → pos' = pos ∧
        ∀ e : StoredBlock, e.nHeight = nHeight → e.ullTime = ullTime →
          e.pos.unPos.toNat + e.cBlock.length ≤ (st.infoOf pos.nFile).unSize.toNat + nAddSize.toNat →
          (st.findKnownBlockPos calls pos nAddSize nHeight ullTime).1.Infos pos.nFile (·.Covers e) := by
  have henter := frame_enterFile Hash pos.nFile hfinds hsane
  obtain ⟨hlast, hinfo, hblk⟩ := enterFile_infos st pos.nFile hfinds
  rw [← hinfo] at hfits ⊢
  have hgrown := henter.trans (frame_withBlock Hash nHeight ullTime henter.sane hadd hfits)
  have hall := hgrown.trans (frame_writeInfo calls hgrown.sane (st.enterFile calls pos.nFile).2)
  refine ⟨hall, (writeInfo_blk _).trans hblk, fun pos' hok => ?_⟩
  obtain ⟨rfl, hwritten⟩ := foundPos_writeInfo hok
  refine ⟨rfl, ?_⟩
  rintro e rfl rfl hend
  have hinfos := hwritten.infos henter.sane.memory hfits rfl hend
  have hfile : (st.enterFile calls pos'.nFile).1.nLastBlockFile = pos'.nFile := hlast
  rw [← hfile]
  exact ⟨hinfos.database, hinfos.memory⟩

/-! ## Taking room for undo data -/

theorem toNat_withUndo {info : CBlockFileInfo} {unAddSize : UInt32}
    (hfits : info.unUndoSize.toNat + unAddSize.toNat < UInt32.size) :
    (info.withUndo unAddSize).unUndoSize.toNat = info.unUndoSize.toNat + unAddSize.toNat := by
  show (info.unUndoSize + unAddSize).toNat = _
  rw [UInt32.toNat_add, Nat.mod_eq_of_lt hfits]

theorem enterUndo_spec (hsane : st.Sane) {pos : DiskBlockPos} {file : Option Bytes}
    (hfile : ∀ f, file = some f → ∀ n, Keeps n (st.rev pos.nFile) f) :
    Frame Hash st (st.enterUndo pos file).1 := by
  cases file with
  | none => exact Frame.refl hsane
  | some file => exact frame_withRev hsane (hfile file rfl)

variable (st) in
theorem enterUndo_infos (pos : DiskBlockPos) (file : Option Bytes) :
    (st.enterUndo pos file).1.fileInfo = st.fileInfo ∧
      (st.enterUndo pos file).1.nLastBlockFile = st.nLastBlockFile ∧
      (st.enterUndo pos file).1.infoLastBlockFile = st.infoLastBlockFile ∧
      ∀ pos', (st.enterUndo pos file).2 = .ok pos' → pos' = pos := by
  cases file with
  | none => exact ⟨rfl, rfl, rfl, fun pos' hpos => by cases hpos⟩
  | some file => exact ⟨rfl, rfl, rfl, fun pos' hpos => (Except.ok.inj hpos).symm⟩

/-- A size is added to the info that `FindUndoPos` uses, and that info may go to the database. -/
structure UndoGrows (st st' : BlockFiles) (nFile : ℤ) (unAddSize : UInt32) : Prop where
  last : st'.nLastBlockFile = st.nLastBlockFile
  memory : st'.infoLastBlockFile =
    if nFile = st.nLastBlockFile then (st.infoOf nFile).withUndo unAddSize else st.infoLastBlockFile
  database : st'.fileInfo = st.fileInfo ∨
    st'.fileInfo = st.fileInfo.put nFile (some ((st.infoOf nFile).withUndo unAddSize))

theorem Infos.grows {unAddSize : UInt32} {f : ℤ} (h : st.Infos f P) (hgrows : UndoGrows st st' nFile unAddSize)
    (hP : P (st.infoOf nFile) → P ((st.infoOf nFile).withUndo unAddSize)) : st'.Infos f P := by
  refine ⟨?_, fun hlast => ?_⟩
  · rcases hgrows.database with hsame | hput
    · rw [hsame]
      exact h.database
    · rw [hput, Store.lookup_put]
      split
      · next heq =>
        subst heq
        exact ⟨_, rfl, hP h.infoOf⟩
      · exact h.database
  · rw [hgrows.last] at hlast
    rw [hgrows.memory]
    split
    · next heq =>
      rw [← heq] at hlast
      subst hlast
      exact hP h.infoOf
    · exact h.memory hlast

variable (Hash) in
theorem UndoGrows.frame {unAddSize : UInt32} (hgrows : UndoGrows st st' nFile unAddSize) (hsane : st.Sane)
    (hfits : (st.infoOf nFile).unUndoSize.toNat + unAddSize.toNat < UInt32.size) (hblk : st'.blk = st.blk)
    (hrev : st'.rev = st.rev) : Frame Hash st st' := by
  have hgrown := toNat_withUndo hfits
  have hsize : ((st.infoOf nFile).withUndo unAddSize).Sane := by
    have hold := hsane.infoOf nFile
    exact ⟨hold.size, hold.blocks⟩
  refine .of (fun f n _ => ?_) (fun f n _ => ?_) (fun e he => ?_) (fun e he => ?_) ⟨?_, fun f info hlookup => ?_⟩
  · rw [hblk]
    exact Keeps.refl n _
  · rw [hrev]
    exact Keeps.refl n _
  · refine he.grows hgrows fun hcovers => ?_
    exact ⟨hcovers.size, hcovers.blocks, hcovers.heightFirst, hcovers.heightLast, hcovers.timeFirst,
      hcovers.timeLast⟩
  · refine he.grows hgrows fun hends => ?_
    unfold UndoEnds at hends ⊢
    rw [hgrown]
    omega
  · rw [hgrows.memory]
    split
    · exact hsize
    · exact hsane.memory
  · rcases hgrows.database with hsame | hput
    · rw [hsame] at hlookup
      exact hsane.database f info hlookup
    · rw [hput] at hlookup
      exact (hsane.put hsize).database f info hlookup

/-- The info is written and room for the undo data taken. -/
theorem UndoGrows.place {unAddSize : UInt32} {pos : DiskBlockPos} {file : Option Bytes}
    (hgrows : UndoGrows st st' nFile unAddSize) (hsane : st.Sane)
    (hfits : (st.infoOf nFile).unUndoSize.toNat + unAddSize.toNat < UInt32.size) (hblk : st'.blk = st.blk)
    (hrev : st'.rev = st.rev)
    (hput : st'.fileInfo = st.fileInfo.put nFile (some ((st.infoOf nFile).withUndo unAddSize)))
    (hfile : ∀ f, file = some f → ∀ n, Keeps n (st'.rev pos.nFile) f) :
    Frame Hash st (st'.enterUndo pos file).1 ∧
      ∀ pos', (st'.enterUndo pos file).2 = .ok pos' → pos' = pos ∧
        (st'.enterUndo pos file).1.Infos nFile fun info =>
          (st.infoOf nFile).unUndoSize.toNat + unAddSize.toNat ≤ info.unUndoSize.toNat := by
  have hframe := hgrows.frame Hash hsane hfits hblk hrev
  obtain ⟨hdatabase, hlast, hinfo, hpos⟩ := enterUndo_infos st' pos file
  refine ⟨hframe.trans (enterUndo_spec hframe.sane hfile), fun pos' hok => ⟨hpos pos' hok, ?_⟩⟩
  have hgrown := le_of_eq (toNat_withUndo hfits).symm
  have hwritten : st'.Infos nFile fun info =>
      (st.infoOf nFile).unUndoSize.toNat + unAddSize.toNat ≤ info.unUndoSize.toNat := by
    refine ⟨⟨(st.infoOf nFile).withUndo unAddSize, ?_, hgrown⟩, fun heq => ?_⟩
    · rw [hput]
      exact Store.lookup_put_self _ _ _
    · rw [hgrows.memory, if_pos (heq.symm.trans hgrows.last)]
      exact hgrown
  exact hwritten.congr hdatabase hlast hinfo

variable (Hash) in
/-- The place is at the old end of the undo data, and the infos end behind it. -/
theorem findUndoPos_spec {unAddSize : UInt32} (hfiles : calls.KeepsFiles) (hsane : st.Sane)
    (hfits : (st.infoOf nFile).unUndoSize.toNat + unAddSize.toNat < UInt32.size) :
    Frame Hash st (st.findUndoPos calls nFile unAddSize).1 ∧
      ∀ pos, (st.findUndoPos calls nFile unAddSize).2 = .ok pos →
        pos = ⟨nFile, (st.infoOf nFile).unUndoSize⟩ ∧
        (st.findUndoPos calls nFile unAddSize).1.Infos nFile fun info =>
          (st.infoOf nFile).unUndoSize.toNat + unAddSize.toNat ≤ info.unUndoSize.toNat := by
  unfold findUndoPos
  by_cases hlast : nFile = st.nLastBlockFile
  · have hinfo : st.infoOf nFile = st.infoLastBlockFile := if_pos hlast
    rw [if_pos hlast, ← hinfo]
    split
    · exact UndoGrows.place ⟨rfl, (if_pos hlast).symm, .inr rfl⟩ hsane hfits rfl rfl rfl
        fun _ hfile => keeps_preallocate hfiles hfile
    · have hgrows : UndoGrows st (st.withMemory ((st.infoOf nFile).withUndo unAddSize)) nFile unAddSize :=
        ⟨rfl, (if_pos hlast).symm, .inl rfl⟩
      exact ⟨hgrows.frame Hash hsane hfits rfl rfl, fun pos hpos => by cases hpos⟩
  · rw [if_neg hlast]
    cases hread : st.readBlockFileInfo calls nFile with
    | none => exact ⟨Frame.refl hsane, fun pos hpos => by cases hpos⟩
    | some info =>
      have hinfo : st.infoOf nFile = info := by
        have hlookup : st.fileInfo.lookup nFile = some info := by
          unfold readBlockFileInfo at hread
          split at hread
          · exact hread
          · cases hread
        rw [infoOf, if_neg hlast, hlookup]
        rfl
      dsimp only
      rw [← hinfo]
      split
      · exact UndoGrows.place ⟨rfl, (if_neg hlast).symm, .inr rfl⟩ hsane hfits rfl rfl rfl
          fun _ hfile => keeps_preallocate hfiles hfile
      · exact ⟨Frame.refl hsane, fun pos hpos => by cases hpos⟩

/-! ## Writing records -/

section
variable {messageStart : Bytes}

theorem length_recordHeader (hmagic : messageStart.length = 4) (n : ℕ) :
    (recordHeader messageStart n).length = 8 := by
  rw [recordHeader, List.length_append, hmagic]
  exact congrArg (4 + ·) (Codec.length_leBytes 4 _)

theorem keeps_putRecord {unSize : ℕ} {data f : Bytes} {unPos : UInt32} {n : ℕ} (hfiles : calls.KeepsFiles)
    (hn : n ≤ unPos.toNat) : Keeps n f (putRecord calls messageStart unSize data unPos f) := by
  unfold putRecord
  rw [leaves_eq hfiles.writeOpening]
  split
  · exact (keeps_writeAt _ _ _).mono hn
  · exact Keeps.refl n f

theorem dataPos_eq_some {pos pos' : DiskBlockPos} (h : dataPos calls pos = some pos') :
    calls.writeOpening.opens = true ∧ pos' = ⟨pos.nFile, pos.unPos + 8⟩ := by
  unfold dataPos at h
  split at h
  · next hreported => exact ⟨hreported.1, (Option.some.inj h).symm⟩
  · cases h

/-- A write that loses nothing puts the data behind the header. -/
theorem holds_putRecord {unPos : UInt32} (unSize : ℕ) (data f : Bytes) (hmagic : messageStart.length = 4)
    (hopens : calls.writeOpening.opens = true) (hflushed : calls.writing.flushed = true) :
    Holds (putRecord calls messageStart unSize data unPos f) (unPos.toNat + 8) data := by
  have hwhole : calls.writing = .whole := of_decide_eq_true hflushed
  have hwritten := holds_writeAt (z := 0) unPos.toNat (recordHeader messageStart unSize ++ data)
    (calls.writeOpening.leaves f)
  have hright := hwritten.right
  rw [length_recordHeader hmagic] at hright
  rw [putRecord, if_pos hopens, hwhole]
  exact hright

theorem KeepsBlock.writeBlock {e : StoredBlock} {cBlock : Bytes} {pos : DiskBlockPos}
    (hfiles : calls.KeepsFiles) (h : st.KeepsBlock e)
    (hend : e.pos.nFile = pos.nFile → e.pos.unPos.toNat + e.cBlock.length ≤ pos.unPos.toNat) :
    (st.writeBlockToDisk calls messageStart cBlock pos).KeepsBlock e :=
  ⟨fun hflushed => (h.holds hflushed).keeps (le_refl _) (keeps_update fun heq =>
    keeps_putRecord hfiles (hend heq.symm)), h.infos.congr rfl rfl rfl⟩

theorem KeepsUndo.writeBlock {e : StoredUndo} {cBlock : Bytes} {pos : DiskBlockPos}
    (h : st.KeepsUndo Hash e) : (st.writeBlockToDisk calls messageStart cBlock pos).KeepsUndo Hash e :=
  ⟨h.holds, h.infos.congr rfl rfl rfl⟩

theorem KeepsBlock.writeUndo {e : StoredBlock} {unSize : ℕ} {record : Bytes} {pos : DiskBlockPos}
    (h : st.KeepsBlock e) : (st.writeUndoToDisk calls messageStart unSize record pos).KeepsBlock e :=
  ⟨h.holds, h.infos.congr rfl rfl rfl⟩

theorem KeepsUndo.writeUndo {e : StoredUndo} {unSize : ℕ} {record : Bytes} {pos : DiskBlockPos}
    (hfiles : calls.KeepsFiles) (h : st.KeepsUndo Hash e)
    (hend : e.pos.nFile = pos.nFile → e.pos.unPos.toNat + (e.record Hash).length ≤ pos.unPos.toNat) :
    (st.writeUndoToDisk calls messageStart unSize record pos).KeepsUndo Hash e :=
  ⟨fun hflushed => (h.holds hflushed).keeps (le_refl _) (keeps_update fun heq =>
    keeps_putRecord hfiles (hend heq.symm)), h.infos.congr rfl rfl rfl⟩

/-! ## Steps -/

/-- The records are kept, and no undo record reaches into a later one. -/
structure Inv (Hash : Bytes → Uint256) (st : BlockFiles) (log : Stored) : Prop where
  sane : st.Sane
  blocks : ∀ e ∈ log.blocks, st.KeepsBlock e
  undos : ∀ e ∈ log.undos, st.KeepsUndo Hash e
  apart : log.undos.Pairwise fun later earlier => later.pos.nFile = earlier.pos.nFile →
    earlier.pos.unPos.toNat + (earlier.record Hash).length ≤ later.pos.unPos.toNat

theorem Inv.frame {log : Stored} (h : Inv Hash st log) (hframe : Frame Hash st st') : Inv Hash st' log :=
  ⟨hframe.sane, fun e he => hframe.blocks e (h.blocks e he), fun e he => hframe.undos e (h.undos e he),
    h.apart⟩

theorem Fresh.inv (h : st.Fresh) : Inv Hash st ⟨[], []⟩ where
  sane := by
    refine ⟨?_, fun nFile info hlookup => ?_⟩
    · rw [h.info]
      exact CBlockFileInfo.null_sane
    · rw [h.fileInfo] at hlookup
      exact Store.of_lookup_empty hlookup
  blocks e he := by cases he
  undos e he := by cases he
  apart := .nil

theorem toNat_add_eight {n : UInt32} (h : n.toNat + 8 < UInt32.size) : (n + 8).toNat = n.toNat + 8 := by
  rw [UInt32.toNat_add]
  exact Nat.mod_eq_of_lt h

theorem toNat_ofNat_add {n k : ℕ} (h : n + k < UInt32.size) : (UInt32.ofNat (n + k)).toNat = n + k := by
  rw [UInt32.toNat_ofNat']
  exact Nat.mod_eq_of_lt h

theorem Inv.withBlock {log : Stored} (h : Inv Hash st log) {e : StoredBlock} (he : st.KeepsBlock e) :
    Inv Hash st { log with blocks := e :: log.blocks } := by
  refine ⟨h.sane, ?_, h.undos, h.apart⟩
  rintro e' (_ | ⟨_, he'⟩)
  · exact he
  · exact h.blocks e' he'

/-- A block is written where there is room for it. -/
theorem Inv.storeBlock {log : Stored} {cBlock : Bytes} {nHeight : UInt32} {ullTime : UInt64}
    {found : BlockFiles × Except String DiskBlockPos} (hmagic : messageStart.length = 4)
    (hfiles : calls.KeepsFiles) (h : Inv Hash st log) (hsize : cBlock.length ≤ maxBlockSize)
    (hframe : Frame Hash st found.1)
    (hplace : ∀ pos, found.2 = .ok pos →
      BlockPlace st found.1 pos (UInt32.ofNat (cBlock.length + 8)) nHeight ullTime) :
    Inv Hash (BlockFiles.storeBlock messageStart calls log cBlock nHeight ullTime found).1
      (BlockFiles.storeBlock messageStart calls log cBlock nHeight ullTime found).2 := by
  have hfound := h.frame hframe
  obtain ⟨written, result⟩ := found
  cases result with
  | error reason => exact hfound
  | ok pos =>
    have place := hplace pos rfl
    have hmax : maxBlockSize = 1000000 := rfl
    have hlimit : maxBlockfileSize.toNat = 134217728 := rfl
    have hword : UInt32.size = 4294967296 := rfl
    have hfits := place.fits
    rw [toNat_ofNat_add (by omega)] at hfits
    have hwritten : Inv Hash (written.writeBlockToDisk calls messageStart cBlock pos) log := by
      refine ⟨⟨hframe.sane.memory, hframe.sane.database⟩, fun e he => ?_,
        fun e he => (hfound.undos e he).writeBlock, h.apart⟩
      exact (hfound.blocks e he).writeBlock hfiles (place.behind e (h.blocks e he))
    unfold BlockFiles.storeBlock
    dsimp only
    cases hdata : dataPos calls pos with
    | none => exact hwritten
    | some pos' =>
      obtain ⟨hopens, rfl⟩ := dataPos_eq_some hdata
      have hpos : (pos.unPos + 8).toNat = pos.unPos.toNat + 8 := toNat_add_eight (by omega)
      refine hwritten.withBlock ⟨fun hflushed => ?_, ?_⟩
      · show Holds (Function.update written.blk pos.nFile _ pos.nFile) (pos.unPos + 8).toNat cBlock
        rw [Function.update_self, hpos]
        exact holds_putRecord cBlock.length cBlock _ hmagic hopens hflushed
      · have hinfos := place.infos ⟨⟨pos.nFile, pos.unPos + 8⟩, cBlock, nHeight, ullTime, calls.writing.flushed⟩
          rfl rfl rfl (by
            dsimp only
            rw [hpos, toNat_ofNat_add (by omega)]
            omega)
        exact hinfos.congr rfl rfl rfl

theorem Inv.newBlock {log : Stored} {cBlock : Bytes} {nHeight : UInt32} {ullTime : UInt64}
    {r : BlockFiles × Stored} (hmagic : messageStart.length = 4) (hfiles : calls.KeepsFiles)
    (hfinds : calls.FindsInfos) (h : Inv Hash st log) (hsize : cBlock.length ≤ maxBlockSize)
    (next : st.apply Hash messageStart log (.newBlock calls cBlock nHeight ullTime) = some r) :
    Inv Hash r.1 r.2 := by
  have hmax : maxBlockSize = 1000000 := rfl
  have hword : UInt32.size = 4294967296 := rfl
  have hlength : (UInt32.ofNat (cBlock.length + 8)).toNat = cBlock.length + 8 := toNat_ofNat_add (by omega)
  rw [BlockFiles.apply, Option.map_eq_some_iff] at next
  obtain ⟨found, hfind, rfl⟩ := next
  obtain ⟨hframe, hplace⟩ := findNewBlockPos_spec Hash calls hfiles hfinds h.sane (by omega) (by omega) hfind
  exact h.storeBlock hmagic hfiles hsize hframe hplace

theorem Inv.knownBlock {log : Stored} {pos : DiskBlockPos} {cBlock : Bytes} {nHeight : UInt32}
    {ullTime : UInt64} {r : BlockFiles × Stored} (hfinds : calls.FindsInfos) (h : Inv Hash st log)
    (ok : st.Allowed (.knownBlock calls pos cBlock nHeight ullTime))
    (next : st.apply Hash messageStart log (.knownBlock calls pos cBlock nHeight ullTime) = some r) :
    Inv Hash r.1 r.2 := by
  obtain ⟨hholds, hgap, hfits⟩ := ok
  have hlimit : maxBlockfileSize.toNat = 134217728 := rfl
  have hword : UInt32.size = 4294967296 := rfl
  have hlength : (UInt32.ofNat (cBlock.length + 8)).toNat = cBlock.length + 8 := toNat_ofNat_add (by omega)
  obtain ⟨hframe, hblk, hplace⟩ := findKnownBlockPos_spec Hash pos nHeight ullTime hfinds h.sane
    (by omega : 8 ≤ (UInt32.ofNat (cBlock.length + 8)).toNat) (by omega)
  obtain rfl := Option.some.inj next
  have hfound := h.frame hframe
  generalize st.findKnownBlockPos calls pos (UInt32.ofNat (cBlock.length + 8)) nHeight ullTime = found at *
  obtain ⟨entered, result⟩ := found
  cases result with
  | error reason => exact hfound
  | ok pos' =>
    obtain ⟨rfl, hinfos⟩ := hplace pos' rfl
    refine hfound.withBlock ⟨fun _ => ?_, hinfos ⟨pos', cBlock, nHeight, ullTime, true⟩ rfl rfl ?_⟩
    · dsimp only at hblk ⊢
      rw [hblk]
      exact hholds
    · dsimp only
      rw [hlength]
      omega

/-- Undo data are written behind those that are there. -/
theorem Inv.undo {log : Stored} {nFile : ℤ} {cBlockUndo : CBlockUndo} {cHashBlock : Uint256}
    {r : BlockFiles × Stored} (hmagic : messageStart.length = 4) (hfiles : calls.KeepsFiles)
    (h : Inv Hash st log) (ok : st.Allowed (.undo calls nFile cBlockUndo cHashBlock))
    (next : st.apply Hash messageStart log (.undo calls nFile cBlockUndo cHashBlock) = some r) :
    Inv Hash r.1 r.2 := by
  have hroom : (st.infoOf nFile).unUndoSize.toNat + undoSize cBlockUndo + 40 < UInt32.size := ok
  have hlength : (UInt32.ofNat (undoSize cBlockUndo + 40)).toNat = undoSize cBlockUndo + 40 :=
    toNat_ofNat_add (by omega)
  have hfits : (st.infoOf nFile).unUndoSize.toNat + (UInt32.ofNat (undoSize cBlockUndo + 40)).toNat
      < UInt32.size := by omega
  obtain ⟨hframe, hplace⟩ := findUndoPos_spec Hash hfiles h.sane hfits
  obtain rfl := Option.some.inj next
  have hfound := h.frame hframe
  generalize st.findUndoPos calls nFile (UInt32.ofNat (undoSize cBlockUndo + 40)) = found at *
  obtain ⟨grown, result⟩ := found
  cases result with
  | error reason => exact hfound
  | ok pos =>
    obtain ⟨rfl, hinfos⟩ := hplace pos rfl
    rw [hlength] at hinfos
    have hbehind : ∀ e ∈ log.undos, e.pos.nFile = nFile →
        e.pos.unPos.toNat + (e.record Hash).length ≤ (st.infoOf nFile).unUndoSize.toNat := by
      rintro e he rfl
      exact (h.undos e he).infos.infoOf
    have hwritten : Inv Hash (grown.writeUndoToDisk calls messageStart (undoSize cBlockUndo)
        (cBlockUndo.record Hash cHashBlock) ⟨nFile, (st.infoOf nFile).unUndoSize⟩) log := by
      refine ⟨⟨hframe.sane.memory, hframe.sane.database⟩, fun e he => (hfound.blocks e he).writeUndo,
        fun e he => ?_, h.apart⟩
      exact (hfound.undos e he).writeUndo hfiles (hbehind e he)
    unfold storeUndo
    dsimp only
    cases hdata : dataPos calls ⟨nFile, (st.infoOf nFile).unUndoSize⟩ with
    | none => exact hwritten
    | some pos' =>
      obtain ⟨hopens, rfl⟩ := dataPos_eq_some hdata
      dsimp only
      have hpos : ((st.infoOf nFile).unUndoSize + 8).toNat = (st.infoOf nFile).unUndoSize.toNat + 8 :=
        toNat_add_eight (by omega)
      have hrecord : (cBlockUndo.record Hash cHashBlock).length = undoSize cBlockUndo + 32 := by
        rw [CBlockUndo.record, List.length_append, length_uint256Codec_write]
        rfl
      refine ⟨hwritten.sane, hwritten.blocks, ?_, List.pairwise_cons.mpr ⟨fun e he hsame => ?_, h.apart⟩⟩
      · rintro e (_ | ⟨_, he⟩)
        · refine ⟨fun hflushed => ?_, ?_⟩
          · show Holds (Function.update grown.rev nFile _ nFile) ((st.infoOf nFile).unUndoSize + 8).toNat _
            rw [Function.update_self, hpos]
            exact holds_putRecord (undoSize cBlockUndo) _ _ hmagic hopens hflushed
          · have hends : grown.Infos nFile (UndoEnds Hash ⟨⟨nFile, (st.infoOf nFile).unUndoSize + 8⟩, cBlockUndo,
                cHashBlock, calls.writing.flushed⟩) := hinfos.imp fun info hend => by
              show ((st.infoOf nFile).unUndoSize + 8).toNat + (cBlockUndo.record Hash cHashBlock).length ≤ _
              rw [hpos, hrecord]
              omega
            exact hends.congr rfl rfl rfl
        · exact hwritten.undos e he
      · have hend := hbehind e he hsame.symm
        dsimp only
        omega

theorem Inv.apply {log : Stored} {op : FileOp} {r : BlockFiles × Stored} (hmagic : messageStart.length = 4)
    (h : Inv Hash st log) (ok : st.Allowed op) (spares : op.Spares)
    (next : st.apply Hash messageStart log op = some r) : Inv Hash r.1 r.2 := by
  cases op with
  | newBlock calls cBlock nHeight ullTime => exact h.newBlock hmagic spares.1 spares.2 ok next
  | knownBlock calls pos cBlock nHeight ullTime => exact h.knownBlock spares ok next
  | undo calls nFile cBlockUndo cHashBlock => exact h.undo hmagic spares ok next
  | flush calls =>
    obtain rfl := Option.some.inj next
    exact h.frame (frame_flushBlockFile Hash false spares h.sane)
  | restart calls =>
    obtain rfl := Option.some.inj next
    exact h.frame (frame_turn _ spares h.sane)

theorem Inv.run {start : BlockFiles} {log : Stored} (hmagic : messageStart.length = 4) (hstart : start.Fresh)
    (run : Run Hash messageStart start st log) : Inv Hash st log := by
  induction run with
  | refl => exact hstart.inv
  | step _ op ok spares next ih => exact ih.apply hmagic ok spares next

end

/-! ## Turns -/

/-- The recorded files that are still ahead. -/
def filesAhead (st : BlockFiles) : Finset ℤ := st.fileInfo.keys.filter (st.nLastBlockFile < ·)

variable (calls) in
/-- Each turn of the loop passes a recorded file, or comes to one without a record, which is empty. -/
theorem leaveFullFiles_ends {nAddSize : UInt32} (hsmall : nAddSize < maxBlockfileSize) {fuel : ℕ}
    (bUpdatedLast : Bool) (hfuel : st.filesAhead.card + 1 < fuel) :
    ∃ r, leaveFullFiles calls nAddSize fuel st bUpdatedLast = some r := by
  induction fuel generalizing st bUpdatedLast with
  | zero => exact absurd hfuel (Nat.not_lt_zero _)
  | succ fuel ih =>
    rw [leaveFullFiles]
    split
    · by_cases hnext : st.nLastBlockFile + 1 ∈ st.fileInfo.keys
      · have hahead : (st.nextFile calls).filesAhead.card < st.filesAhead.card := by
          refine Finset.card_lt_card (Finset.ssubset_iff_of_subset ?_ |>.mpr ⟨st.nLastBlockFile + 1, ?_, ?_⟩)
          · intro f hf
            obtain ⟨hkey, hlt⟩ := Finset.mem_filter.mp hf
            have hlt' : st.nLastBlockFile + 1 < f := hlt
            exact Finset.mem_filter.mpr ⟨hkey, by omega⟩
          · exact Finset.mem_filter.mpr ⟨hnext, by omega⟩
          · intro hf
            exact lt_irrefl _ (Finset.mem_filter.mp hf).2
        exact ih true (by omega)
      · obtain ⟨turns, rfl⟩ : ∃ turns, fuel = turns + 1 := ⟨fuel - 1, by omega⟩
        have hinfo : (st.nextFile calls).infoLastBlockFile = .null := by
          have hnone : st.fileInfo.lookup (st.nLastBlockFile + 1) = none := by
            rw [Finmap.lookup_eq_none, ← Finmap.mem_keys]
            exact hnext
          show st.readInfo calls (st.nLastBlockFile + 1) = .null
          rw [readInfo, readBlockFileInfo, hnone]
          split <;> rfl
        rw [leaveFullFiles, hinfo, if_neg]
        · exact ⟨_, rfl⟩
        · show ¬ maxBlockfileSize ≤ 0 + nAddSize
          rw [UInt32.zero_add, UInt32.not_le]
          exact hsmall
    · exact ⟨_, rfl⟩

theorem apply_ends {messageStart : Bytes} {log : Stored} {op : FileOp} (ok : st.Allowed op) :
    ∃ r, st.apply Hash messageStart log op = some r := by
  cases op with
  | newBlock calls cBlock nHeight ullTime =>
    have hsize : cBlock.length ≤ maxBlockSize := ok
    have hmax : maxBlockSize = 1000000 := rfl
    have hlimit : maxBlockfileSize.toNat = 134217728 := rfl
    have hword : UInt32.size = 4294967296 := rfl
    have hsmall : UInt32.ofNat (cBlock.length + 8) < maxBlockfileSize := by
      rw [UInt32.lt_iff_toNat_lt, toNat_ofNat_add (by omega)]
      omega
    have hahead : st.filesAhead.card ≤ st.fileInfo.keys.card := Finset.card_filter_le _ _
    obtain ⟨r, hloop⟩ := leaveFullFiles_ends calls hsmall false
      (show st.filesAhead.card + 1 < st.fileInfo.keys.card + 2 by omega)
    rw [BlockFiles.apply, findNewBlockPos, hloop]
    exact ⟨_, rfl⟩
  | knownBlock calls pos cBlock nHeight ullTime => exact ⟨_, rfl⟩
  | undo calls nFile cBlockUndo cHashBlock => exact ⟨_, rfl⟩
  | flush calls => exact ⟨_, rfl⟩
  | restart calls => exact ⟨_, rfl⟩

/-! ## Reading -/

/-- The bytes from a position on, as `OpenBlockFile` and `OpenUndoFile` give them to a reader. -/
def blockAt (st : BlockFiles) (pos : DiskBlockPos) : Bytes := (st.blk pos.nFile).drop pos.unPos.toNat
def undoAt (st : BlockFiles) (pos : DiskBlockPos) : Bytes := (st.rev pos.nFile).drop pos.unPos.toNat

theorem KeepsUndo.reads {e : StoredUndo} (h : st.KeepsUndo Hash e) (hflushed : e.flushed = true)
    (hfits : e.cBlockUndo.Fits) (cHashBlock : Uint256) :
    CBlockUndo.readFromDisk Hash cHashBlock (st.undoAt e.pos)
      = CBlockUndo.readFromDisk Hash cHashBlock (e.record Hash) := by
  obtain ⟨rest, hrest⟩ := h.holds hflushed
  have hread := (Codec.seq CBlockUndo.codec fun _ => uint256Codec).read_write
    (e.cBlockUndo, e.cBlockUndo.checksum Hash e.cHashBlock)
  have hrecord : e.record Hash = (Codec.seq CBlockUndo.codec fun _ => uint256Codec).write
      (e.cBlockUndo, e.cBlockUndo.checksum Hash e.cHashBlock) := rfl
  have hwhole := hread [] ⟨hfits, trivial⟩
  rw [List.append_nil] at hwhole
  rw [undoAt, ← hrest, hrecord, CBlockUndo.readFromDisk, CBlockUndo.readFromDisk,
    hread rest ⟨hfits, trivial⟩, hwhole]

/-- The records in the undo files, as `ConnectBlock` sees them. -/
def undoFiles (Hash : Bytes → Uint256) (undos : List StoredUndo) : UndoFiles :=
  undos.foldr (fun e files => files.put (e.pos.nFile, e.pos.unPos) (some (e.record Hash))) ∅

theorem lookup_undoFiles {undos : List StoredUndo} {k : ℤ × UInt32} {record : Bytes}
    (h : (undoFiles Hash undos).lookup k = some record) :
    ∃ e ∈ undos, (e.pos.nFile, e.pos.unPos) = k ∧ e.record Hash = record := by
  induction undos with
  | nil => exact Store.of_lookup_empty h
  | cons e undos ih =>
    rw [undoFiles, List.foldr_cons, Store.lookup_put] at h
    split at h
    · next heq => exact ⟨e, List.mem_cons_self, heq.symm, Option.some.inj h⟩
    · obtain ⟨e', he', hk, hrecord⟩ := ih h
      exact ⟨e', List.mem_cons_of_mem _ he', hk, hrecord⟩

/-- A step stores the undo data of one block at most. -/
theorem apply_undos {messageStart : Bytes} {log : Stored} {op : FileOp} {r : BlockFiles × Stored}
    (next : st.apply Hash messageStart log op = some r) :
    r.2.undos = log.undos ∨ ∃ e, r.2.undos = e :: log.undos := by
  cases op with
  | newBlock calls cBlock nHeight ullTime =>
    rw [BlockFiles.apply, Option.map_eq_some_iff] at next
    obtain ⟨⟨found, result⟩, -, rfl⟩ := next
    refine .inl ?_
    cases result with
    | error reason => rfl
    | ok pos =>
      unfold storeBlock
      dsimp only
      cases dataPos calls pos <;> rfl
  | knownBlock calls pos cBlock nHeight ullTime =>
    obtain rfl := Option.some.inj next
    generalize st.findKnownBlockPos calls pos (UInt32.ofNat (cBlock.length + 8)) nHeight ullTime = found
    obtain ⟨entered, result⟩ := found
    cases result <;> exact .inl rfl
  | undo calls nFile cBlockUndo cHashBlock =>
    obtain rfl := Option.some.inj next
    generalize st.findUndoPos calls nFile (UInt32.ofNat (undoSize cBlockUndo + 40)) = found
    obtain ⟨grown, result⟩ := found
    cases result with
    | error reason => exact .inl rfl
    | ok pos =>
      unfold storeUndo
      dsimp only
      cases dataPos calls pos with
      | none => exact .inl rfl
      | some pos' => exact .inr ⟨_, rfl⟩
  | flush calls =>
    obtain rfl := Option.some.inj next
    exact .inl rfl
  | restart calls =>
    obtain rfl := Option.some.inj next
    exact .inl rfl

end

/-! ## Whole runs -/

section
variable (Hash : Bytes → Uint256) (messageStart : Bytes) (hmagic : messageStart.length = 4)
  (start st : BlockFiles) (log : Stored) (hstart : start.Fresh) (run : Run Hash messageStart start st log)
include hmagic hstart run

/-- Whatever blocks came in, were found in the files or had their undo data written, whatever of it failed
without reaching what was there, and however often the node was started: what was stored without loss is still
read, the info of a file covers its blocks, and every further step comes to an end. -/
theorem stored_reads :
    (∀ e ∈ log.blocks, (e.flushed = true → e.cBlock <+: st.blockAt e.pos) ∧
      ∃ info, st.fileInfo.lookup e.pos.nFile = some info ∧ info.Covers e) ∧
    (∀ e ∈ log.undos, e.flushed = true → e.cBlockUndo.Fits →
      CBlockUndo.readFromDisk Hash e.cHashBlock (st.undoAt e.pos) = some e.cBlockUndo) ∧
    ∀ op, st.Allowed op → ∃ r, st.apply Hash messageStart log op = some r := by
  have hinv := Inv.run hmagic hstart run
  refine ⟨fun e he => ?_, fun e he hflushed hfits => ?_, fun op ok => apply_ends ok⟩
  · have hkeeps := hinv.blocks e he
    exact ⟨hkeeps.holds, hkeeps.infos.database⟩
  · rw [(hinv.undos e he).reads hflushed hfits]
    have hread := CBlockUndo.readFromDisk_record Hash e.cHashBlock e.cBlockUndo [] hfits
    rw [List.append_nil] at hread
    exact hread

/-- The store of undo records that `ConnectBlock` and `DisconnectBlock` work on is what the undo files are: a
record of the store that was written without loss is in its file and reads there as in the store, and a step
leaves the store as it is or puts one record where there was none. -/
theorem undoFiles_refine :
    (∀ k record, (undoFiles Hash log.undos).lookup k = some record →
      ∃ e ∈ log.undos, (e.pos.nFile, e.pos.unPos) = k ∧ e.record Hash = record ∧
        (e.flushed = true → record <+: st.undoAt ⟨k.1, k.2⟩ ∧
          (e.cBlockUndo.Fits → ∀ cHashBlock,
            CBlockUndo.readFromDisk Hash cHashBlock (st.undoAt ⟨k.1, k.2⟩)
              = CBlockUndo.readFromDisk Hash cHashBlock record))) ∧
    ∀ op st' log', st.Allowed op → op.Spares → st.apply Hash messageStart log op = some (st', log') →
      undoFiles Hash log'.undos = undoFiles Hash log.undos ∨
      ∃ k record, (undoFiles Hash log.undos).lookup k = none ∧
        undoFiles Hash log'.undos = (undoFiles Hash log.undos).put k (some record) := by
  have hinv := Inv.run hmagic hstart run
  refine ⟨fun k record hlookup => ?_, fun op st' log' ok spares next => ?_⟩
  · obtain ⟨e, he, rfl, rfl⟩ := lookup_undoFiles hlookup
    have hkeeps := hinv.undos e he
    exact ⟨e, he, rfl, rfl, fun hflushed => ⟨hkeeps.holds hflushed, hkeeps.reads hflushed⟩⟩
  · have hinv' := hinv.apply hmagic ok spares next
    rcases apply_undos next with hsame | ⟨e, hnew⟩
    · rw [hsame]
      exact .inl rfl
    · refine .inr ⟨(e.pos.nFile, e.pos.unPos), e.record Hash, ?_, ?_⟩
      · have hapart := hinv'.apart
        rw [hnew, List.pairwise_cons] at hapart
        by_contra hsome
        obtain ⟨record, hlookup⟩ := Option.ne_none_iff_exists'.mp hsome
        obtain ⟨earlier, hmem, hk, -⟩ := lookup_undoFiles hlookup
        obtain ⟨hfile, hpos⟩ := Prod.mk.inj hk
        have hbehind := hapart.1 earlier hmem hfile.symm
        have hlength : 32 ≤ (earlier.record Hash).length := by
          show 32 ≤ (earlier.cBlockUndo.record Hash earlier.cHashBlock).length
          rw [CBlockUndo.record, List.length_append, length_uint256Codec_write]
          omega
        rw [hpos] at hbehind
        omega
      · rw [hnew]
        rfl

end

section
open Sample

/-- A disk on which everything works, and one where the end of a record is lost. -/
def goodDisk : DiskCalls where
  spaceLeft _ := true
  flushBlk _ := ⟨false, true⟩
  flushRev _ := ⟨false, true⟩
  truncatesBlk _ := true
  truncatesRev _ := true
  allocOpening := ⟨false, true⟩
  allocates := false
  writeOpening := ⟨false, true⟩
  writing := .whole
  infoRead _ := true
  lastRead := true
  infoWritten := true
  lastWritten := true

def fullDisk : DiskCalls := { goodDisk with writing := .lost 20 }

theorem goodDisk_keepsFiles : goodDisk.KeepsFiles := ⟨fun _ => rfl, fun _ => rfl, rfl, rfl⟩

/-- Nothing on the disk. -/
def noFiles : BlockFiles := ⟨0, .null, ∅, none, fun _ => [], fun _ => []⟩

theorem noFiles_fresh : noFiles.Fresh := ⟨rfl, rfl, rfl, rfl⟩

def magic : Bytes := [0xff, 0x42, 0x1d, 0x1a]

/-- A transaction that changed an account and a record of a contract. -/
def someUndo : CBlockUndo := [⟨9, [⟨keyId 5, 300, 6, 40⟩], [⟨[1, 2], [3]⟩]⟩]

def blockComes : FileOp := .newBlock goodDisk [1, 2, 3] 7 60
def undoComes (calls : DiskCalls) : FileOp := .undo calls 0 someUndo 0

/-- A block is stored, then undo data twice, the first time not to the end. -/
def firstStored : Option (BlockFiles × Stored) := noFiles.apply crypto.Hash magic ⟨[], []⟩ blockComes
def lostStored : Option (BlockFiles × Stored) :=
  firstStored.bind fun r => r.1.apply crypto.Hash magic r.2 (undoComes fullDisk)
def bothStored : Option (BlockFiles × Stored) :=
  lostStored.bind fun r => r.1.apply crypto.Hash magic r.2 (undoComes goodDisk)

theorem bothStored_run : ∃ st log, Run crypto.Hash magic noFiles st log ∧
    log.blocks.map (fun e => (e.cBlock, e.flushed)) = [([1, 2, 3], true)] ∧
    log.undos.map (fun e => (e.cBlockUndo, e.flushed)) = [(someUndo, true), (someUndo, false)] := by
  have hboth : bothStored.map (fun r => (r.2.blocks.map fun e => (e.cBlock, e.flushed),
      r.2.undos.map fun e => (e.cBlockUndo, e.flushed)))
      = some ([([1, 2, 3], true)], [(someUndo, true), (someUndo, false)]) := by
    decide +kernel
  have hroom : firstStored.map (fun r => (r.1.infoOf 0).unUndoSize) = some 0 := by decide +kernel
  have hroom' : lostStored.map (fun r => (r.1.infoOf 0).unUndoSize.toNat)
      = some (undoSize someUndo + 40) := by decide +kernel
  obtain ⟨⟨st, log⟩, hrun, hlog⟩ := Option.map_eq_some_iff.mp hboth
  obtain ⟨⟨lost, second⟩, hlost, hlast⟩ := Option.bind_eq_some_iff.mp hrun
  obtain ⟨⟨mid, first⟩, hfirst, hnext⟩ := Option.bind_eq_some_iff.mp hlost
  rw [hfirst] at hroom
  rw [hlost] at hroom'
  have hundo : (mid.infoOf 0).unUndoSize = 0 := Option.some.inj hroom
  have hundo' : (lost.infoOf 0).unUndoSize.toNat = undoSize someUndo + 40 := Option.some.inj hroom'
  have hsize : undoSize someUndo < 1000 := by decide +kernel
  have hword : UInt32.size = 4294967296 := rfl
  obtain ⟨hblocks, hundos⟩ := Prod.mk.inj hlog
  have hsmall : noFiles.Allowed blockComes := by
    show 3 ≤ maxBlockSize
    decide
  have hfits : mid.Allowed (undoComes fullDisk) := by
    show (mid.infoOf 0).unUndoSize.toNat + undoSize someUndo + 40 < UInt32.size
    rw [hundo]
    show 0 + undoSize someUndo + 40 < UInt32.size
    omega
  have hfits' : lost.Allowed (undoComes goodDisk) := by
    show (lost.infoOf 0).unUndoSize.toNat + undoSize someUndo + 40 < UInt32.size
    omega
  have hlostFiles : fullDisk.KeepsFiles := ⟨fun _ => rfl, fun _ => rfl, rfl, rfl⟩
  have hstart := Run.step .refl blockComes hsmall ⟨goodDisk_keepsFiles, fun _ => rfl⟩ hfirst
  exact ⟨st, log, .step (.step hstart (undoComes fullDisk) hfits hlostFiles hnext) (undoComes goodDisk) hfits'
    goodDisk_keepsFiles hlast, hblocks, hundos⟩

theorem someUndo_fits : someUndo.Fits := CBlock.ShortUndo.fits (by decide)

/-- The block is read, and the undo data that came to the end. -/
theorem bothStored_read : ∃ st log, Run crypto.Hash magic noFiles st log ∧
    log.blocks.map (fun e => (e.cBlock, e.flushed)) = [([1, 2, 3], true)] ∧
    (∀ e ∈ log.blocks, e.cBlock <+: st.blockAt e.pos ∧
      ∃ info, st.fileInfo.lookup e.pos.nFile = some info ∧ info.Covers e) ∧
    log.undos.map (fun e => (e.cBlockUndo, e.flushed)) = [(someUndo, true), (someUndo, false)] ∧
    ∀ e ∈ log.undos, e.flushed = true →
      CBlockUndo.readFromDisk crypto.Hash e.cHashBlock (st.undoAt e.pos) = some e.cBlockUndo := by
  obtain ⟨st, log, hrun, hblocks, hundos⟩ := bothStored_run
  obtain ⟨hread, hreadUndo, -⟩ := stored_reads crypto.Hash magic rfl noFiles st log noFiles_fresh hrun
  refine ⟨st, log, hrun, hblocks, fun e he => ?_, hundos, fun e he hflushed => hreadUndo e he hflushed ?_⟩
  · have hmem := List.mem_map_of_mem (f := fun e : StoredBlock => (e.cBlock, e.flushed)) he
    rw [hblocks, List.mem_singleton] at hmem
    exact ⟨(hread e he).1 (Prod.mk.inj hmem).2, (hread e he).2⟩
  · have hmem := List.mem_map_of_mem (f := fun e : StoredUndo => (e.cBlockUndo, e.flushed)) he
    rw [hundos] at hmem
    have hsame : e.cBlockUndo = someUndo := by
      rcases List.mem_pair.mp hmem with h | h <;> exact (Prod.mk.inj h).1
    rw [hsame]
    exact someUndo_fits

/-- The store has both records, and the file the one that came to the end. -/
theorem bothStored_refines : ∃ st log, Run crypto.Hash magic noFiles st log ∧
    log.undos.map (fun e => (e.cBlockUndo, e.flushed)) = [(someUndo, true), (someUndo, false)] ∧
    ∀ k record, (undoFiles crypto.Hash log.undos).lookup k = some record →
      ∃ e ∈ log.undos, (e.pos.nFile, e.pos.unPos) = k ∧ e.record crypto.Hash = record ∧
        (e.flushed = true → record <+: st.undoAt ⟨k.1, k.2⟩) := by
  obtain ⟨st, log, hrun, -, hundos⟩ := bothStored_run
  refine ⟨st, log, hrun, hundos, fun k record hlookup => ?_⟩
  obtain ⟨e, he, hk, hrecord, hholds⟩ :=
    (undoFiles_refine crypto.Hash magic rfl noFiles st log noFiles_fresh hrun).1 k record hlookup
  exact ⟨e, he, hk, hrecord, fun hflushed => (hholds hflushed).1⟩

end

end BlockFiles

end Dacrs
