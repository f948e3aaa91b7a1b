import Dacrs.Execute

/-!
# Undo data on disk

`CBlockUndo` and its record in an undo file: the serialized undo data of a block, then a
checksum over the hash of the block before it and the data.  `CBlockUndo.readFromDisk_record` is
the round trip.
-/

open Codec (Bytes Reader)

namespace Dacrs

/-! ## Formats -/

def CAccountLog.codec : Codec CAccountLog :=
  (Codec.seq uint160Codec fun _ => Codec.seq varUInt64 fun _ => Codec.seq varInt32 fun _ =>
      varUInt64).imap
    (fun p => ⟨p.1, p.2.1, p.2.2.1, p.2.2.2⟩)
    (fun log => (log.cKeyID, log.ullValues, log.nHeight, log.ullCoinDay))
    (fun log => varInt32.Fits log.nHeight)
    fun _ h => ⟨⟨trivial, trivial, h, trivial⟩, rfl⟩

def CScriptDBOperLog.codec : Codec CScriptDBOperLog :=
  (Codec.seq vchCodec fun _ => vchCodec).imap (fun p => ⟨p.1, p.2⟩)
    (fun log => (log.vchKey, log.vchValue))
    (fun log => vchCodec.Fits log.vchKey ∧ vchCodec.Fits log.vchValue)
    fun _ h => ⟨h, rfl⟩

def CTxUndo.codec : Codec CTxUndo :=
  (Codec.seq uint256Codec fun _ => Codec.seq (Codec.vec maxSize CAccountLog.codec) fun _ =>
      Codec.vec maxSize CScriptDBOperLog.codec).imap
    (fun p => ⟨p.1, p.2.1, p.2.2⟩)
    (fun undo => (undo.cTxHash, undo.vcAccountLog, undo.vcScriptOperLog))
    (fun undo => (Codec.vec maxSize CAccountLog.codec).Fits undo.vcAccountLog ∧
      (Codec.vec maxSize CScriptDBOperLog.codec).Fits undo.vcScriptOperLog)
    fun _ h => ⟨⟨trivial, h⟩, rfl⟩

/-- `CBlockUndo`, a vector of the transactions' undo records. -/
abbrev CBlockUndo := List CTxUndo

namespace CBlockUndo

def codec : Codec CBlockUndo := Codec.vec maxSize CTxUndo.codec

/-- The values an undo record must keep to for the format to carry it. -/
def Fits (undo : CBlockUndo) : Prop := codec.Fits undo

/-! ## Files -/

/-- The checksum at the end of a record. -/
def checksum (Hash : Bytes → Uint256) (cHashBlock : Uint256) (undo : CBlockUndo) : Uint256 :=
  Hash (uint256Codec.write cHashBlock ++ codec.write undo)

/-- What `WriteToDisk` puts at the position it returns. -/
def record (Hash : Bytes → Uint256) (cHashBlock : Uint256) (undo : CBlockUndo) : Bytes :=
  codec.write undo ++ uint256Codec.write (checksum Hash cHashBlock undo)

/-- `ReadFromDisk` on the bytes at a position; `none` is `return false`. -/
def readFromDisk (Hash : Bytes → Uint256) (cHashBlock : Uint256) (file : Bytes) :
    Option CBlockUndo :=
  match (Codec.seq codec fun _ => uint256Codec).read file with
  | none => none
  | some ((undo, cHashChecksum), _) =>
    if cHashChecksum = checksum Hash cHashBlock undo then some undo else none

/-- A record is read back, whatever follows it in the file. -/
theorem readFromDisk_record (Hash : Bytes → Uint256) (cHashBlock : Uint256) (undo : CBlockUndo)
    (rest : Bytes) (h : undo.Fits) :
    readFromDisk Hash cHashBlock (record Hash cHashBlock undo ++ rest) = some undo := by
  have hr := (Codec.seq codec fun _ => uint256Codec).read_write
    (undo, checksum Hash cHashBlock undo) rest ⟨h, trivial⟩
  have hw : record Hash cHashBlock undo ++ rest
      = (Codec.seq codec fun _ => uint256Codec).write (undo, checksum Hash cHashBlock undo)
          ++ rest := rfl
  rw [readFromDisk, hw, hr]
  exact if_pos rfl

end CBlockUndo

end Dacrs
