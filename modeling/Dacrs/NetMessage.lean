import Dacrs.Types
import Dacrs.Lib.Framing
import Dacrs.Lib.Extents

/-!
# Messages between nodes

One direction of a connection: `PushMessage` and `SocketSendData` on one side, the socket between, and
`ReceiveMsgBytes` and `ProcessMessages` on the other.  What `send` and `recv` make of a call, and what the
node does besides, comes in with the steps.
-/

open Codec (Bytes)

namespace Dacrs

/-! ## CMessageHeader -/

structure CMessageHeader where
  pchMessageStart : Bytes
  pchCommand : Bytes
  unMessageSize : UInt32
  unChecksum : UInt32
deriving DecidableEq

/-- What `SysCfg()` and the hash give. -/
structure MessageCfg where
  pchMessageStart : Bytes
  start_length : pchMessageStart.length = 4
  Hash : Bytes → Uint256

namespace CMessageHeader

/-- COMMAND_SIZE, MESSAGE_SIZE_OFFSET, CHECKSUM_OFFSET, HEADER_SIZE. -/
def commandSize : ℕ := 12
def messageSizeOffset : ℕ := 16
def checksumOffset : ℕ := 20
def headerSize : ℕ := 24

def codec : Codec CMessageHeader :=
  ((Codec.flat 4).seq fun _ => (Codec.flat commandSize).seq fun _ => Codec.u32.seq fun _ => Codec.u32).imap
    (fun p => ⟨p.1, p.2.1, p.2.2.1, p.2.2.2⟩)
    (fun h => (h.pchMessageStart, h.pchCommand, h.unMessageSize, h.unChecksum))
    (fun h => h.pchMessageStart.length = 4 ∧ h.pchCommand.length = commandSize)
    fun _ hfits => ⟨⟨hfits.1, hfits.2, trivial, trivial⟩, rfl⟩

/-- The text before the first zero; all of it where the last byte is not zero. -/
def getCommand (h : CMessageHeader) : Bytes :=
  if h.pchCommand.getLast? = some 0 then h.pchCommand.takeWhile (· ≠ 0) else h.pchCommand

/-- Printable, and all zeros after the first zero. -/
def commandValid : Bytes → Bool
  | [] => true
  | p :: rest =>
    if p = 0 then rest.all (· = 0)
    else if p < 0x20 ∨ 0x7E < p then false
    else commandValid rest

def isValid (cfg : MessageCfg) (h : CMessageHeader) : Bool :=
  h.pchMessageStart = cfg.pchMessageStart && commandValid h.pchCommand && h.unMessageSize.toNat ≤ maxSize

end CMessageHeader

open CMessageHeader

/-- The first four bytes of the hash. -/
def checksum (cfg : MessageCfg) (data : Bytes) : UInt32 := UInt32.ofNat (cfg.Hash data).toNat

/-! ## Receiving -/

/-- A message that comes in, `m_bInData` telling the two apart.  The positions are the lengths. -/
inductive CNetMessage
  | inHeader (vHeaderBuf : Bytes) (hopen : vHeaderBuf.length < headerSize)
  | inData (cMessageHeader : CMessageHeader) (vRecv : Bytes)
      (hsize : vRecv.length ≤ cMessageHeader.unMessageSize.toNat)
deriving DecidableEq

namespace CNetMessage

def fresh : CNetMessage := .inHeader [] (by decide)

def complete : CNetMessage → Bool
  | inHeader _ _ => false
  | inData cMessageHeader vRecv _ => cMessageHeader.unMessageSize.toNat == vRecv.length

/-- The message after `nHandled` bytes, with that number, or `none` where the source returns -1. -/
def readHeader (vHeaderBuf pch : Bytes) : Option (CNetMessage × ℕ) :=
  let nCopy := min (headerSize - vHeaderBuf.length) pch.length
  let vHeaderBuf := vHeaderBuf ++ pch.take nCopy
  if hopen : vHeaderBuf.length < headerSize then some (.inHeader vHeaderBuf hopen, nCopy)
  else
    match CMessageHeader.codec.read vHeaderBuf with
    | none => none
    | some (cMessageHeader, _) =>
      if maxSize < cMessageHeader.unMessageSize.toNat then none
      else some (.inData cMessageHeader [] (Nat.zero_le _), nCopy)

def readData (cMessageHeader : CMessageHeader) (vRecv pch : Bytes)
    (hsize : vRecv.length ≤ cMessageHeader.unMessageSize.toNat) : CNetMessage × ℕ :=
  let nCopy := min (cMessageHeader.unMessageSize.toNat - vRecv.length) pch.length
  (.inData cMessageHeader (vRecv ++ pch.take nCopy) (by simp only [List.length_append, List.length_take]; omega),
    nCopy)

/-- Network data is absorbed. -/
def absorb (pch : Bytes) : CNetMessage → Option (CNetMessage × ℕ)
  | inHeader vHeaderBuf _ => readHeader vHeaderBuf pch
  | inData cMessageHeader vRecv hsize => some (readData cMessageHeader vRecv pch hsize)

/-- The message that absorbs, with those before it. -/
def current (vRecvMsg : List CNetMessage) : List CNetMessage × CNetMessage :=
  match vRecvMsg.getLast? with
  | none => (vRecvMsg, fresh)
  | some back => if back.complete then (vRecvMsg, fresh) else (vRecvMsg.dropLast, back)

theorem current_open (vRecvMsg : List CNetMessage) : (current vRecvMsg).2.complete = false := by
  unfold current
  split
  · rfl
  · split
    · rfl
    · next h => simpa using h

/-- Every turn of the loop absorbs something. -/
theorem absorb_shorter {m m' : CNetMessage} {pch : Bytes} {nHandled : ℕ} (hopen : m.complete = false)
    (hpch : pch ≠ []) (h : m.absorb pch = some (m', nHandled)) :
    (pch.drop nHandled).length < pch.length := by
  have hlength := List.length_pos_of_ne_nil hpch
  have hpos : 0 < nHandled := by
    cases m with
    | inHeader vHeaderBuf hbuf =>
      have hcopy : nHandled = min (headerSize - vHeaderBuf.length) pch.length := by
        simp only [absorb, readHeader] at h
        split at h
        · exact (Prod.mk.inj (Option.some.inj h)).2.symm
        · split at h
          · cases h
          · split at h
            · cases h
            · exact (Prod.mk.inj (Option.some.inj h)).2.symm
      omega
    | inData cMessageHeader vRecv hsize =>
      have hcopy : min (cMessageHeader.unMessageSize.toNat - vRecv.length) pch.length = nHandled :=
        (Prod.mk.inj (Option.some.inj h)).2
      have hne : cMessageHeader.unMessageSize.toNat ≠ vRecv.length := by simpa [complete] using hopen
      omega
  rw [List.length_drop]
  omega

end CNetMessage

open CNetMessage

/-- `ReceiveMsgBytes`: the queue after the bytes, or `none` where it returns false. -/
def receiveMsgBytes (vRecvMsg : List CNetMessage) (pch : Bytes) : Option (List CNetMessage) :=
  if hpch : pch = [] then some vRecvMsg
  else
    match h : (current vRecvMsg).2.absorb pch with
    | none => none
    | some (cNetMsg, nHandled) =>
      have := absorb_shorter (current_open vRecvMsg) hpch h
      receiveMsgBytes ((current vRecvMsg).1 ++ [cNetMsg]) (pch.drop nHandled)
termination_by pch.length
decreasing_by assumption

/-! ## Sending -/

/-- `strncpy`: the text, cut or filled with zeros. -/
def strncpy (n : ℕ) (text : Bytes) : Bytes := text.take n ++ List.replicate (n - text.length) 0

/-- `BeginMessage` -/
def beginMessage (cfg : MessageCfg) (pszCommand : Bytes) : Bytes :=
  CMessageHeader.codec.write ⟨cfg.pchMessageStart, strncpy commandSize pszCommand, 0, 0⟩

/-- `EndMessage`: the size and the checksum are written into the header. -/
def endMessage (cfg : MessageCfg) (cDSSend : Bytes) : Bytes :=
  let unSize := UInt32.ofNat (cDSSend.length - headerSize)
  let cDSSend := Extents.writeAt 0 messageSizeOffset (Codec.u32.write unSize) cDSSend
  Extents.writeAt 0 checksumOffset (Codec.u32.write (checksum cfg (cDSSend.drop headerSize))) cDSSend

/-- What `send` makes of a call: it takes some bytes, or none for now, or the socket fails. -/
inductive SendResult
  | accepted (n : ℕ)
  | wouldBlock
  | failed
deriving DecidableEq

/-- The node that sends, and the bytes the network carries. -/
structure SendSide where
  vSendMsg : List Bytes
  unSendOffset : ℕ
  unSendSize : UInt64
  socketOpen : Bool
  wire : Bytes
deriving DecidableEq

namespace SendSide

def start : SendSide := ⟨[], 0, 0, true, []⟩

/-- The loop of `SocketSendData`, with what `send` makes of its calls; `none` where an assertion fails. -/
def sendLoop : List Bytes → List SendResult → SendSide → Option SendSide
  | [], _, st =>
    if st.unSendOffset = 0 ∧ st.unSendSize = 0 then some { st with vSendMsg := [] } else none
  | msg :: it, calls, st =>
    if msg.length ≤ st.unSendOffset then none
    else
      match calls with
      | .accepted n :: calls =>
        let taken := (msg.drop st.unSendOffset).take n
        if taken = [] then some { st with vSendMsg := msg :: it }
        else if st.unSendOffset + taken.length = msg.length then
          sendLoop it calls
            { st with
              unSendOffset := 0
              unSendSize := st.unSendSize - UInt64.ofNat msg.length
              wire := st.wire ++ taken }
        else
          some { st with
            vSendMsg := msg :: it
            unSendOffset := st.unSendOffset + taken.length
            wire := st.wire ++ taken }
      | .failed :: _ => some { st with vSendMsg := msg :: it, socketOpen := false }
      | .wouldBlock :: _ => some { st with vSendMsg := msg :: it }
      | [] => some { st with vSendMsg := msg :: it }

/-- `SocketSendData`; on a closed socket every `send` fails. -/
def socketSendData (calls : List SendResult) (st : SendSide) : Option SendSide :=
  sendLoop st.vSendMsg (if st.socketOpen then calls else [.failed]) st

/-- `PushMessage`, with the optimistic write. -/
def pushMessage (cfg : MessageCfg) (pszCommand payload : Bytes) (calls : List SendResult) (st : SendSide) :
    Option SendSide :=
  let msg := endMessage cfg (beginMessage cfg pszCommand ++ payload)
  let pushed : SendSide :=
    { st with
      vSendMsg := st.vSendMsg ++ [msg]
      unSendSize := st.unSendSize + UInt64.ofNat msg.length }
  if st.vSendMsg = [] then pushed.socketSendData calls else some pushed

end SendSide

/-! ## ProcessMessages -/

/-- What `ProcessMessage` does to the connection: `m_bDisconnect` is set, or the socket is closed. -/
inductive Afterwards
  | stays
  | disconnects
  | closes
deriving DecidableEq

/-- What the node does besides, in one call of `ProcessMessages`. -/
structure ProcessCalls where
  /-- `m_vRecvGetData` is not empty after `ProcessGetData` -/
  getDataLeft : Bool
  /-- the send buffer is full, or the node disconnected, when so many messages are left -/
  stops : ℕ → Bool
  after : Afterwards

/-- The command and the data that `ProcessMessage` gets. -/
abbrev Message := Bytes × Bytes

/-- What the loop of `ProcessMessages` leaves in the queue, what it hands on, and `bOk`. -/
structure LoopEnd where
  left : List CNetMessage
  handed : Option Message
  bOk : Bool

/-- The loop of `ProcessMessages`. -/
def processLoop (cfg : MessageCfg) (stops : ℕ → Bool) : List CNetMessage → LoopEnd
  | [] => ⟨[], none, true⟩
  | msg :: it =>
    if stops (it.length + 1) then ⟨msg :: it, none, true⟩
    else
      match msg with
      | .inHeader _ _ => ⟨msg :: it, none, true⟩
      | .inData cMessageHeader vRecv _ =>
        if msg.complete = false then ⟨msg :: it, none, true⟩
        else if cMessageHeader.pchMessageStart ≠ cfg.pchMessageStart then ⟨it, none, false⟩
        else if cMessageHeader.isValid cfg = false then processLoop cfg stops it
        else if checksum cfg vRecv ≠ cMessageHeader.unChecksum then processLoop cfg stops it
        else ⟨it, some (cMessageHeader.getCommand, vRecv), true⟩

/-- The node that receives, with what it has received and handed to `ProcessMessage` so far. -/
structure ReceiveSide where
  vRecvMsg : List CNetMessage
  bDisconnect : Bool
  socketOpen : Bool
  received : Bytes
  processed : List Message
deriving DecidableEq

namespace ReceiveSide

def start : ReceiveSide := ⟨[], false, true, [], []⟩

/-- `CloseSocketDisconnect`; the queue is cleared only with its lock. -/
def closeSocketDisconnect (lockRecv : Bool) (st : ReceiveSide) : ReceiveSide :=
  { st with
    bDisconnect := true
    socketOpen := false
    vRecvMsg := if lockRecv then [] else st.vRecvMsg }

/-- Bytes from `recv`. -/
def receive (pchBuf : Bytes) (st : ReceiveSide) : ReceiveSide :=
  if st.socketOpen then
    match receiveMsgBytes st.vRecvMsg pchBuf with
    | none => { st with received := st.received ++ pchBuf }.closeSocketDisconnect true
    | some vRecvMsg => { st with received := st.received ++ pchBuf, vRecvMsg := vRecvMsg }
  else st

/-- `ProcessMessages`, with its result. -/
def processMessages (cfg : MessageCfg) (calls : ProcessCalls) (st : ReceiveSide) : ReceiveSide × Bool :=
  if calls.getDataLeft ∨ st.bDisconnect then (st, true)
  else
    let loop := processLoop cfg calls.stops st.vRecvMsg
    match loop.handed with
    | none => ({ st with vRecvMsg := loop.left }, loop.bOk)
    | some msg =>
      let handed := { st with processed := st.processed ++ [msg] }
      match calls.after with
      | .stays => ({ handed with vRecvMsg := loop.left }, loop.bOk)
      | .disconnects => ({ handed with bDisconnect := true }, loop.bOk)
      | .closes => (handed.closeSocketDisconnect true, loop.bOk)

/-- The turn of `ThreadMessageHandler`. -/
def handleMessages (cfg : MessageCfg) (calls : ProcessCalls) (st : ReceiveSide) : ReceiveSide :=
  if st.bDisconnect then st
  else
    let r := st.processMessages cfg calls
    if r.2 then r.1 else r.1.closeSocketDisconnect true

end ReceiveSide

/-- What happens to the node that receives. -/
inductive ReceiveStep
  | receive (pchBuf : Bytes)
  | handleMessages (calls : ProcessCalls)
  | disconnect
  | closeSocket (lockRecv : Bool)

namespace ReceiveSide

def apply (cfg : MessageCfg) : ReceiveStep → ReceiveSide → ReceiveSide
  | .receive pchBuf, st => st.receive pchBuf
  | .handleMessages calls, st => st.handleMessages cfg calls
  | .disconnect, st => { st with bDisconnect := true }
  | .closeSocket lockRecv, st => st.closeSocketDisconnect lockRecv

inductive Run (cfg : MessageCfg) : List ReceiveStep → ReceiveSide → Prop
  | start : Run cfg [] .start
  | step {steps : List ReceiveStep} {st : ReceiveSide} (hrun : Run cfg steps st) (step : ReceiveStep) :
      Run cfg (steps ++ [step]) (st.apply cfg step)

end ReceiveSide

/-! ## The two sides together -/

structure Link where
  sender : SendSide
  receiver : ReceiveSide
  /-- what the sender has pushed so far -/
  pushed : List Message

inductive LinkStep
  | pushMessage (pszCommand payload : Bytes) (calls : List SendResult)
  | socketSendData (calls : List SendResult)
  | closeSender
  /-- `recv` takes so many bytes from the network -/
  | recv (nBytes : ℕ)
  | handleMessages (calls : ProcessCalls)
  | disconnect
  | closeReceiver (lockRecv : Bool)

/-- The connection stays: no socket is closed, and no message makes the node disconnect. -/
def LinkStep.Calm : LinkStep → Prop
  | .handleMessages calls => calls.after = .stays
  | .disconnect => False
  | .closeReceiver _ => False
  | _ => True

namespace Link

def start : Link := ⟨.start, .start, []⟩

def apply (cfg : MessageCfg) : LinkStep → Link → Option Link
  | .pushMessage pszCommand payload calls, st =>
    (st.sender.pushMessage cfg pszCommand payload calls).map fun sender =>
      { st with sender := sender, pushed := st.pushed ++ [(pszCommand, payload)] }
  | .socketSendData calls, st => (st.sender.socketSendData calls).map fun sender => { st with sender := sender }
  | .closeSender, st => some { st with sender.socketOpen := false }
  | .recv nBytes, st =>
    if st.receiver.socketOpen then
      some { st with
        sender.wire := st.sender.wire.drop nBytes
        receiver := st.receiver.apply cfg (.receive (st.sender.wire.take nBytes)) }
    else some st
  | .handleMessages calls, st => some { st with receiver := st.receiver.apply cfg (.handleMessages calls) }
  | .disconnect, st => some { st with receiver := st.receiver.apply cfg .disconnect }
  | .closeReceiver lockRecv, st => some { st with receiver := st.receiver.apply cfg (.closeSocket lockRecv) }

inductive Run (cfg : MessageCfg) : List LinkStep → Link → Prop
  | start : Run cfg [] .start
  | step {steps : List LinkStep} {st st' : Link} {step : LinkStep} (hrun : Run cfg steps st)
      (happly : apply cfg step st = some st') : Run cfg (steps ++ [step]) st'

end Link

end Dacrs
