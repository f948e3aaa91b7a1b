import Dacrs.NetMessage

/-!
# What a connection delivers

A message is a frame of `frameCodec`.  The queue of a receiver is the cut of the stream so far into frames,
and `ProcessMessages` takes them off its front, so that what is processed depends on the bytes alone and not
on how they came in.  The sender keeps the frames it has not got rid of in its queue.
-/

open Codec (Bytes Framed)

namespace Dacrs

open CMessageHeader CNetMessage

/-! ## Frames -/

abbrev Frame := CMessageHeader × Bytes

/-- A message on the wire: its header, then as many bytes as that says. -/
def frameCodec : Codec Frame :=
  (CMessageHeader.codec.only fun h => h.unMessageSize.toNat ≤ maxSize).seq fun h =>
    Codec.flat h.unMessageSize.toNat

/-- The frames of a stream. -/
def framesOf (s : Bytes) : List Frame := frameCodec.frames s.length s

/-- What is handed on of the frames, in their order. -/
def handedOn (cfg : MessageCfg) : List Frame → List Message
  | [] => []
  | f :: frames =>
    if f.1.pchMessageStart ≠ cfg.pchMessageStart then []
    else if f.1.isValid cfg = false ∨ checksum cfg f.2 ≠ f.1.unChecksum then handedOn cfg frames
    else (f.1.getCommand, f.2) :: handedOn cfg frames

theorem exact_headerCodec : CMessageHeader.codec.Exact :=
  Codec.Exact.imap _
    ((Codec.exact_flat 4).seq fun _ => (Codec.exact_flat commandSize).seq fun _ =>
      Codec.exact_u32.seq fun _ => Codec.exact_u32)
    fun _ hfits => ⟨⟨hfits.1, hfits.2.1⟩, rfl⟩

theorem exact_frameCodec : frameCodec.Exact := exact_headerCodec.only.seq fun _ => Codec.exact_flat _

theorem length_headerCodec_write {h : CMessageHeader} (hfits : CMessageHeader.codec.Fits h) :
    (CMessageHeader.codec.write h).length = headerSize := by
  have hwrite : CMessageHeader.codec.write h
      = h.pchMessageStart ++ (h.pchCommand ++ (Codec.u32.write h.unMessageSize ++ Codec.u32.write h.unChecksum)) :=
    rfl
  have hu32 : ∀ a : UInt32, (Codec.u32.write a).length = 4 := fun a => Codec.length_leBytes 4 a.toNat
  obtain ⟨hstart, hcommand⟩ := hfits
  simp [hwrite, hu32, hstart, hcommand, commandSize, headerSize]

/-- A header is in 24 bytes, and only in so many. -/
theorem headerCodec_read {s : Bytes} (hs : headerSize ≤ s.length) :
    ∃ h, CMessageHeader.codec.read s = some (h, s.drop headerSize) :=
  (((Codec.takes_flat 4).seq fun _ => (Codec.takes_flat commandSize).seq fun _ =>
    Codec.takes_u32.seq fun _ => Codec.takes_u32).map _) s hs

theorem headerCodec_short {s : Bytes} (hs : s.length < headerSize) : CMessageHeader.codec.read s = none := by
  cases hread : CMessageHeader.codec.read s with
  | none => rfl
  | some p =>
    obtain ⟨hfits, rfl⟩ := exact_headerCodec s p.1 p.2 hread
    rw [List.length_append, length_headerCodec_write hfits] at hs
    omega

theorem frameCodec_nil : frameCodec.read [] = none := rfl

/-- A header that says too much stands in front of no frame. -/
theorem frameCodec_oversize {s : Bytes} {h : CMessageHeader} {rest : Bytes}
    (hread : CMessageHeader.codec.read s = some (h, rest)) (hsize : maxSize < h.unMessageSize.toNat) :
    frameCodec.read s = none := by
  cases hframe : frameCodec.read s with
  | none => rfl
  | some p =>
    obtain ⟨⟨⟨hfits, hle⟩, -⟩, rfl⟩ := exact_frameCodec s p.1 p.2 hframe
    have hheader : CMessageHeader.codec.read (frameCodec.write p.1 ++ p.2) = some (p.1.1, p.1.2 ++ p.2) := by
      have hwrite : frameCodec.write p.1 = CMessageHeader.codec.write p.1.1 ++ p.1.2 := rfl
      rw [hwrite, List.append_assoc]
      exact CMessageHeader.codec.read_write p.1.1 _ hfits
    rw [hheader] at hread
    obtain ⟨rfl, -⟩ := Prod.mk.inj (Option.some.inj hread)
    have hle : p.1.1.unMessageSize.toNat ≤ maxSize := hle
    omega

/-- Nor does one that says more than there is. -/
theorem frameCodec_partial {h : CMessageHeader} (hfits : CMessageHeader.codec.Fits h) {data : Bytes}
    (hdata : data.length < h.unMessageSize.toNat) :
    frameCodec.read (CMessageHeader.codec.write h ++ data) = none := by
  cases hframe : frameCodec.read (CMessageHeader.codec.write h ++ data) with
  | none => rfl
  | some p =>
    obtain ⟨⟨⟨hfits', -⟩, hlength⟩, hs⟩ := exact_frameCodec _ p.1 p.2 hframe
    have hwrite : frameCodec.write p.1 = CMessageHeader.codec.write p.1.1 ++ p.1.2 := rfl
    rw [hwrite, List.append_assoc] at hs
    obtain ⟨rfl, rfl⟩ := CMessageHeader.codec.write_append_inj hfits hfits' hs
    have hlength : p.1.2.length = p.1.1.unMessageSize.toNat := hlength
    rw [List.length_append] at hdata
    omega

/-! ## The queue of the receiver -/

namespace CNetMessage

/-- The bytes that the message has absorbed. -/
def raw : CNetMessage → Bytes
  | inHeader vHeaderBuf _ => vHeaderBuf
  | inData cMessageHeader vRecv _ => CMessageHeader.codec.write cMessageHeader ++ vRecv

/-- A header that was let through. -/
def Sound : CNetMessage → Prop
  | inHeader _ _ => True
  | inData cMessageHeader _ _ =>
    CMessageHeader.codec.Fits cMessageHeader ∧ cMessageHeader.unMessageSize.toNat ≤ maxSize

variable {m m' : CNetMessage} {pch : Bytes} {nHandled : ℕ}

/-- A message that is not complete is no frame yet. -/
theorem Sound.read_raw (hsound : m.Sound) (hopen : m.complete = false) : frameCodec.read m.raw = none := by
  cases m with
  | inHeader vHeaderBuf hbuf =>
    show (CMessageHeader.codec.only _ |>.read vHeaderBuf) >>= _ = none
    simp [Codec.only, headerCodec_short hbuf]
  | inData cMessageHeader vRecv hsize =>
    have hne : cMessageHeader.unMessageSize.toNat ≠ vRecv.length := by simpa [complete] using hopen
    exact frameCodec_partial hsound.1 (by omega)

theorem absorb_some (hsound : m.Sound) (h : m.absorb pch = some (m', nHandled)) :
    m'.Sound ∧ m'.raw = m.raw ++ pch.take nHandled := by
  cases m with
  | inHeader vHeaderBuf hbuf =>
    simp only [absorb, readHeader] at h
    split at h
    · obtain ⟨rfl, rfl⟩ := Prod.mk.inj (Option.some.inj h)
      exact ⟨trivial, rfl⟩
    · next hfull =>
      split at h
      · cases h
      · next cMessageHeader rest hread =>
        split at h
        · cases h
        · next hsize =>
          obtain ⟨rfl, rfl⟩ := Prod.mk.inj (Option.some.inj h)
          obtain ⟨hfits, hbytes⟩ := exact_headerCodec _ _ _ hread
          have hlength := congrArg List.length hbytes
          rw [List.length_append, List.length_append, length_headerCodec_write hfits,
            List.length_take] at hlength
          have hrest : rest = [] := List.length_eq_zero_iff.mp (by omega)
          subst hrest
          refine ⟨⟨hfits, not_lt.mp hsize⟩, ?_⟩
          show CMessageHeader.codec.write cMessageHeader ++ [] = _
          exact hbytes.symm
  | inData cMessageHeader vRecv hsize =>
    obtain ⟨rfl, rfl⟩ := Prod.mk.inj (Option.some.inj h)
    exact ⟨hsound, (List.append_assoc _ _ _).symm⟩

/-- Where the source returns -1, no frame is there, whatever may follow. -/
theorem absorb_none (h : m.absorb pch = none) (t : Bytes) : frameCodec.read (m.raw ++ pch ++ t) = none := by
  cases m with
  | inHeader vHeaderBuf hbuf =>
    simp only [absorb, readHeader] at h
    split at h
    · cases h
    · next hfull =>
      split at h
      · next hread =>
        obtain ⟨cMessageHeader, hsome⟩ := headerCodec_read (not_lt.mp hfull)
        rw [hread] at hsome
        cases hsome
      · next cMessageHeader rest hread =>
        split at h
        · next hsize =>
          obtain ⟨hfits, hbytes⟩ := exact_headerCodec _ _ _ hread
          have hall : vHeaderBuf ++ pch ++ t = CMessageHeader.codec.write cMessageHeader
              ++ (rest ++ (pch.drop (min (headerSize - vHeaderBuf.length) pch.length) ++ t)) := by
            rw [← List.append_assoc, ← hbytes, List.append_assoc, List.append_assoc,
              ← List.append_assoc (pch.take _), List.take_append_drop]
          show frameCodec.read (vHeaderBuf ++ pch ++ t) = none
          rw [hall]
          exact frameCodec_oversize (CMessageHeader.codec.read_write _ _ hfits) hsize
        · cases h
  | inData cMessageHeader vRecv hsize => cases h

end CNetMessage

/-- The message is the whole frame. -/
def IsFrame (m : CNetMessage) (f : Frame) : Prop :=
  m.complete = true ∧ m.Sound ∧ ∃ hsize, m = .inData f.1 f.2 hsize

/-- The queue holds whole frames and at its end the start `part` of one. -/
def Queued (vRecvMsg : List CNetMessage) (frames : List Frame) (part : Bytes) : Prop :=
  ∃ front : List CNetMessage, ∃ back : Option CNetMessage,
    vRecvMsg = front ++ back.toList ∧ List.Forall₂ IsFrame front frames ∧
      (∀ m ∈ back, m.complete = false ∧ m.Sound) ∧ part = (back.map raw).getD []

variable {vRecvMsg vRecvMsg' : List CNetMessage} {frames frames' past : List Frame} {f : Frame}
  {m : CNetMessage} {s part pch t : Bytes}

theorem IsFrame.fits (h : IsFrame m f) : frameCodec.Fits f := by
  obtain ⟨hcomplete, hsound, hsize, rfl⟩ := h
  exact ⟨hsound, (by simpa [complete] using hcomplete : f.1.unMessageSize.toNat = f.2.length).symm⟩

theorem IsFrame.raw (h : IsFrame m f) : m.raw = frameCodec.write f := by
  obtain ⟨-, -, hsize, rfl⟩ := h
  rfl

theorem CNetMessage.Sound.isFrame (hsound : m.Sound) (hcomplete : m.complete = true) : ∃ f, IsFrame m f := by
  cases m with
  | inHeader vHeaderBuf hbuf => cases hcomplete
  | inData cMessageHeader vRecv hsize => exact ⟨(cMessageHeader, vRecv), hcomplete, hsound, hsize, rfl⟩

theorem complete_of_mem (h : List.Forall₂ IsFrame vRecvMsg frames) (hm : m ∈ vRecvMsg) : m.complete = true := by
  induction h with
  | nil => cases hm
  | cons hframe _ ih =>
    rcases List.mem_cons.mp hm with rfl | hm
    · exact hframe.1
    · exact ih hm

/-- The message that absorbs the next bytes, and the whole ones before it. -/
theorem Queued.current (h : Queued vRecvMsg frames part) :
    (current vRecvMsg).2.Sound ∧ (current vRecvMsg).2.raw = part ∧
      List.Forall₂ IsFrame (current vRecvMsg).1 frames := by
  obtain ⟨front, back, rfl, hfront, hback, rfl⟩ := h
  cases back with
  | some m =>
    obtain ⟨hopen, hsound⟩ := hback m rfl
    have hcurrent : CNetMessage.current (front ++ [m]) = (front, m) := by simp [CNetMessage.current, hopen]
    rw [Option.toList_some, hcurrent]
    exact ⟨hsound, rfl, hfront⟩
  | none =>
    have hcurrent : CNetMessage.current front = (front, fresh) := by
      unfold CNetMessage.current
      split
      · rfl
      · next m hlast => rw [if_pos (complete_of_mem hfront (List.mem_of_getLast? hlast))]
    rw [Option.toList_none, List.append_nil, hcurrent]
    exact ⟨trivial, rfl, hfront⟩

theorem queued_start : Queued [] [] [] := ⟨[], none, rfl, .nil, by simp, rfl⟩

/-- One turn of the loop. -/
theorem Queued.absorb {m' : CNetMessage} {nHandled : ℕ} (hqueued : Queued vRecvMsg frames part)
    (hframed : Framed frameCodec s (past ++ frames) part)
    (h : (CNetMessage.current vRecvMsg).2.absorb pch = some (m', nHandled)) :
    ∃ frames' part', Queued ((CNetMessage.current vRecvMsg).1 ++ [m']) frames' part' ∧
      Framed frameCodec (s ++ pch.take nHandled) (past ++ frames') part' := by
  obtain ⟨hsound, hraw, hfront⟩ := hqueued.current
  obtain ⟨hsound', hraw'⟩ := absorb_some hsound h
  rw [hraw] at hraw'
  cases hcomplete : m'.complete with
  | false =>
    refine ⟨frames, m'.raw, ⟨_, some m', rfl, hfront, ?_, rfl⟩, ?_⟩
    · rintro m ⟨⟩
      exact ⟨hcomplete, hsound'⟩
    · rw [hraw']
      exact hframed.more (hraw' ▸ hsound'.read_raw hcomplete)
  | true =>
    obtain ⟨f, hframe⟩ := hsound'.isFrame hcomplete
    have hfront' := List.rel_append hfront (.cons hframe .nil)
    refine ⟨frames ++ [f], [], ⟨_, none, (List.append_nil _).symm, hfront', by simp, rfl⟩, ?_⟩
    rw [← List.append_assoc]
    exact hframed.complete hframe.fits (hraw'.symm.trans hframe.raw) frameCodec_nil

/-- The queue after bytes is the cut of the longer stream. -/
theorem Queued.receive (hqueued : Queued vRecvMsg frames part) (hframed : Framed frameCodec s (past ++ frames) part)
    (h : receiveMsgBytes vRecvMsg pch = some vRecvMsg') :
    ∃ frames' part', Queued vRecvMsg' frames' part' ∧ Framed frameCodec (s ++ pch) (past ++ frames') part' := by
  induction vRecvMsg, pch using receiveMsgBytes.induct generalizing frames part s with
  | case1 vRecvMsg =>
    rw [receiveMsgBytes, dif_pos rfl] at h
    obtain rfl := Option.some.inj h
    rw [List.append_nil]
    exact ⟨frames, part, hqueued, hframed⟩
  | case2 vRecvMsg pch hpch hnone =>
    rw [receiveMsgBytes, dif_neg hpch] at h
    split at h
    · cases h
    · next hsome =>
      rw [hnone] at hsome
      cases hsome
  | case3 vRecvMsg pch hpch cNetMsg nHandled hsome _ ih =>
    rw [receiveMsgBytes, dif_neg hpch] at h
    split at h
    · cases h
    · next cNetMsg' nHandled' hsome' =>
      obtain ⟨rfl, rfl⟩ := Prod.mk.inj (Option.some.inj (hsome.symm.trans hsome'))
      obtain ⟨frames', part', hqueued', hframed'⟩ := hqueued.absorb hframed hsome
      have htail := ih hqueued' hframed' h
      rwa [List.append_assoc, List.take_append_drop] at htail

/-- Where `ReceiveMsgBytes` returns false, the stream ends in no frame, whatever may follow. -/
theorem Queued.receive_none (hqueued : Queued vRecvMsg frames part)
    (hframed : Framed frameCodec s (past ++ frames) part) (h : receiveMsgBytes vRecvMsg pch = none) (t : Bytes) :
    ∃ frames' part', Framed frameCodec (s ++ pch ++ t) frames' part' ∧ part' ≠ [] := by
  induction vRecvMsg, pch using receiveMsgBytes.induct generalizing frames part s with
  | case1 vRecvMsg =>
    rw [receiveMsgBytes, dif_pos rfl] at h
    cases h
  | case2 vRecvMsg pch hpch hnone =>
    obtain ⟨hsound, hraw, -⟩ := hqueued.current
    have hread := absorb_none hnone t
    rw [hraw, List.append_assoc] at hread
    rw [List.append_assoc]
    exact ⟨_, _, hframed.more hread, by simp [hpch]⟩
  | case3 vRecvMsg pch hpch cNetMsg nHandled hsome _ ih =>
    rw [receiveMsgBytes, dif_neg hpch] at h
    split at h
    · next hnone =>
      rw [hnone] at hsome
      cases hsome
    · next cNetMsg' nHandled' hsome' =>
      obtain ⟨rfl, rfl⟩ := Prod.mk.inj (Option.some.inj (hsome.symm.trans hsome'))
      obtain ⟨frames', part', hqueued', hframed'⟩ := hqueued.absorb hframed hsome
      have htail := ih hqueued' hframed' h
      rwa [List.append_assoc s, List.take_append_drop] at htail

/-! ## What is handed on -/

theorem framed_framesOf (s : Bytes) : ∃ part, Framed frameCodec s (framesOf s) part :=
  Codec.framed_frames exact_frameCodec frameCodec_nil s.length s le_rfl

theorem framesOf_eq (h : Framed frameCodec s frames part) : framesOf s = frames := by
  obtain ⟨part', hframes⟩ := framed_framesOf s
  exact (hframes.unique h).1

theorem framesOf_append (s t : Bytes) : framesOf s <+: framesOf (s ++ t) := by
  obtain ⟨part, hs⟩ := framed_framesOf s
  obtain ⟨part', hst⟩ := framed_framesOf (s ++ t)
  exact hs.isPrefix hst

section
variable {cfg : MessageCfg} {stops : ℕ → Bool}

theorem handedOn_append (hpast : ∀ f ∈ past, f.1.pchMessageStart = cfg.pchMessageStart) (frames : List Frame) :
    handedOn cfg (past ++ frames) = handedOn cfg past ++ handedOn cfg frames := by
  induction past with
  | nil => rfl
  | cons f past ih =>
    have hstart : ¬ f.1.pchMessageStart ≠ cfg.pchMessageStart := not_not.mpr (hpast f List.mem_cons_self)
    have htail := ih fun g hg => hpast g (List.mem_cons_of_mem f hg)
    rw [List.cons_append, handedOn, handedOn, if_neg hstart, if_neg hstart, htail]
    split
    · rfl
    · rfl

theorem handedOn_isPrefix (cfg : MessageCfg) {frames' : List Frame} (h : frames <+: frames') :
    handedOn cfg frames <+: handedOn cfg frames' := by
  obtain ⟨more, rfl⟩ := h
  induction frames with
  | nil => exact List.nil_prefix
  | cons f frames ih =>
    rw [List.cons_append, handedOn, handedOn]
    split
    · exact List.prefix_rfl
    · split
      · exact ih
      · exact (List.prefix_cons_inj _).mpr ih

/-- The loop of `ProcessMessages` has taken the frames `gone` off the queue. -/
structure Taken (cfg : MessageCfg) (loop : LoopEnd) (gone left : List Frame) (part : Bytes) : Prop where
  queued : Queued loop.left left part
  handed : loop.bOk = true → handedOn cfg gone = loop.handed.toList
  starts : loop.bOk = true → ∀ f ∈ gone, f.1.pchMessageStart = cfg.pchMessageStart
  refused : loop.bOk = false → loop.handed = none ∧ ∃ f ∈ gone, f.1.pchMessageStart ≠ cfg.pchMessageStart

/-- A frame is passed over. -/
theorem Taken.skip {loop : LoopEnd} {gone left : List Frame} (h : Taken cfg loop gone left part)
    (hstart : f.1.pchMessageStart = cfg.pchMessageStart)
    (hskip : f.1.isValid cfg = false ∨ checksum cfg f.2 ≠ f.1.unChecksum) :
    Taken cfg loop (f :: gone) left part where
  queued := h.queued
  handed hok := by rw [handedOn, if_neg (not_not.mpr hstart), if_pos hskip, h.handed hok]
  starts hok := List.forall_mem_cons.mpr ⟨hstart, h.starts hok⟩
  refused hok := by
    obtain ⟨hnone, g, hg, hne⟩ := h.refused hok
    exact ⟨hnone, g, List.mem_cons_of_mem f hg, hne⟩

theorem Queued.processLoop (cfg : MessageCfg) (h : Queued vRecvMsg frames part) (stops : ℕ → Bool) :
    ∃ gone left, frames = gone ++ left ∧ Taken cfg (processLoop cfg stops vRecvMsg) gone left part := by
  obtain ⟨front, back, rfl, hfront, hback, rfl⟩ := h
  induction hfront with
  | nil =>
    have hloop : Dacrs.processLoop cfg stops ([] ++ back.toList) = ⟨back.toList, none, true⟩ := by
      cases back with
      | none => rfl
      | some m =>
        obtain ⟨hopen, -⟩ := hback m rfl
        cases m <;> simp [Dacrs.processLoop, hopen]
    rw [hloop]
    exact ⟨[], [], rfl, ⟨[], back, rfl, .nil, hback, rfl⟩, fun _ => rfl, by simp, by simp⟩
  | @cons m f front frames hframe hfront ih =>
    have hall := List.Forall₂.cons hframe hfront
    have hrest : Queued (front ++ back.toList) frames ((back.map raw).getD []) :=
      ⟨front, back, rfl, hfront, hback, rfl⟩
    obtain ⟨gone, left, hsplit, htaken⟩ := ih
    obtain ⟨hcomplete, -, hsize, rfl⟩ := hframe
    simp only [List.cons_append, Dacrs.processLoop, hcomplete, Bool.true_eq_false, if_false]
    split
    · exact ⟨[], f :: frames, rfl, ⟨_, back, rfl, hall, hback, rfl⟩, fun _ => rfl, by simp, by simp⟩
    · split
      · next hstart => exact ⟨[f], frames, rfl, hrest, by simp, by simp, fun _ => ⟨rfl, f, by simp, hstart⟩⟩
      · next hstart =>
        have hstart := not_not.mp hstart
        split
        · next hvalid => exact ⟨f :: gone, left, by rw [hsplit]; rfl, htaken.skip hstart (.inl hvalid)⟩
        · next hvalid =>
          split
          · next hsum => exact ⟨f :: gone, left, by rw [hsplit]; rfl, htaken.skip hstart (.inr hsum)⟩
          · next hsum =>
            refine ⟨[f], frames, rfl, hrest, fun _ => ?_, by simpa using hstart, by simp⟩
            rw [handedOn, if_neg (not_not.mpr hstart), if_neg (not_or.mpr ⟨hvalid, hsum⟩)]
            rfl

/-! ## Runs of the receiver -/

namespace ReceiveSide

/-- The queue is the end of the cut, and what is before it has been handed on. -/
structure InStep (cfg : MessageCfg) (st : ReceiveSide) (past frames : List Frame) (part : Bytes) : Prop where
  queued : Queued st.vRecvMsg frames part
  framed : Framed frameCodec st.received (past ++ frames) part
  processed : st.processed = handedOn cfg past
  starts : ∀ f ∈ past, f.1.pchMessageStart = cfg.pchMessageStart

structure Inv (cfg : MessageCfg) (st : ReceiveSide) : Prop where
  processed : st.processed <+: handedOn cfg (framesOf st.received)
  inStep : st.bDisconnect = false → ∃ past frames part, st.InStep cfg past frames part
  socketOpen : st.bDisconnect = false → st.socketOpen = true

variable {st : ReceiveSide} {past frames : List Frame} {part pchBuf : Bytes} {calls : ProcessCalls}

theorem InStep.processed_isPrefix (h : st.InStep cfg past frames part) :
    st.processed <+: handedOn cfg (framesOf st.received) := by
  rw [framesOf_eq h.framed, handedOn_append h.starts, h.processed]
  exact List.prefix_append _ _

/-- A node that is about to be disconnected. -/
theorem Inv.of_disconnected (hprocessed : st.processed <+: handedOn cfg (framesOf st.received))
    (hdown : st.bDisconnect = true) : st.Inv cfg :=
  ⟨hprocessed, fun h => by simp [hdown] at h, fun h => by simp [hdown] at h⟩

theorem Inv.start : Inv cfg start where
  processed := List.nil_prefix
  inStep _ := ⟨[], [], [], queued_start, ⟨rfl, by simp, frameCodec_nil⟩, rfl, by simp⟩
  socketOpen _ := rfl

theorem Inv.receive (h : st.Inv cfg) (pchBuf : Bytes) : (st.receive pchBuf).Inv cfg := by
  have hmore : st.processed <+: handedOn cfg (framesOf (st.received ++ pchBuf)) :=
    h.processed.trans (handedOn_isPrefix cfg (framesOf_append _ _))
  unfold ReceiveSide.receive
  split
  · next hopen =>
    split
    · exact .of_disconnected hmore rfl
    · next vRecvMsg hreceive =>
      refine ⟨hmore, fun hup => ?_, fun _ => hopen⟩
      obtain ⟨past, frames, part, hin⟩ := h.inStep hup
      obtain ⟨frames', part', hqueued, hframed⟩ := hin.queued.receive hin.framed hreceive
      exact ⟨past, frames', part', hqueued, hframed, hin.processed, hin.starts⟩
  · exact h

/-- What a call takes off the queue has been handed on after it. -/
theorem InStep.taken {gone left : List Frame} {loop : LoopEnd} (h : st.InStep cfg past (gone ++ left) part)
    (htaken : Taken cfg loop gone left part) (hok : loop.bOk = true) :
    { st with vRecvMsg := loop.left, processed := st.processed ++ loop.handed.toList }.InStep cfg
      (past ++ gone) left part where
  queued := htaken.queued
  framed := by rw [List.append_assoc]; exact h.framed
  processed := by rw [handedOn_append h.starts, h.processed, htaken.handed hok]
  starts f hf := (List.mem_append.mp hf).elim (h.starts f) (htaken.starts hok f)

/-- With a result of false nothing has been handed on. -/
theorem InStep.processMessages (h : st.InStep cfg past frames part) (hopen : st.socketOpen = true)
    (calls : ProcessCalls) :
    ((st.processMessages cfg calls).2 = true → (st.processMessages cfg calls).1.Inv cfg) ∧
    ((st.processMessages cfg calls).2 = false →
      (st.processMessages cfg calls).1.processed = st.processed ∧
      (st.processMessages cfg calls).1.received = st.received ∧
      ∃ f ∈ frames, f.1.pchMessageStart ≠ cfg.pchMessageStart) := by
  have hsame : st.Inv cfg := ⟨h.processed_isPrefix, fun _ => ⟨past, frames, part, h⟩, fun _ => hopen⟩
  obtain ⟨gone, left, rfl, htaken⟩ := h.queued.processLoop cfg calls.stops
  unfold ReceiveSide.processMessages
  split
  · exact ⟨fun _ => hsame, fun h => by cases h⟩
  · cases hok : (processLoop cfg calls.stops st.vRecvMsg).bOk with
    | false =>
      obtain ⟨hnone, f, hf, hne⟩ := htaken.refused hok
      simp only [hnone]
      exact ⟨fun h => (by cases h.symm.trans hok), fun _ => ⟨trivial, trivial, f, List.mem_append_left _ hf, hne⟩⟩
    | true =>
      have hin := h.taken htaken hok
      cases hhanded : (processLoop cfg calls.stops st.vRecvMsg).handed with
      | none =>
        simp only [hhanded, Option.toList_none, List.append_nil] at hin ⊢
        exact ⟨fun _ => ⟨hin.processed_isPrefix, fun _ => ⟨_, _, _, hin⟩, fun _ => hopen⟩, fun h => by cases h.symm.trans hok⟩
      | some msg =>
        simp only [hhanded, Option.toList_some] at hin ⊢
        split
        · exact ⟨fun _ => ⟨hin.processed_isPrefix, fun _ => ⟨_, _, _, hin⟩, fun _ => hopen⟩,
            fun h => by cases h.symm.trans hok⟩
        · exact ⟨fun _ => .of_disconnected hin.processed_isPrefix rfl, fun h => by cases h.symm.trans hok⟩
        · exact ⟨fun _ => .of_disconnected hin.processed_isPrefix rfl, fun h => by cases h.symm.trans hok⟩

theorem Inv.handleMessages (h : st.Inv cfg) (calls : ProcessCalls) : (st.handleMessages cfg calls).Inv cfg := by
  unfold ReceiveSide.handleMessages
  split
  · exact h
  · next hup =>
    have hup := Bool.not_eq_true _ ▸ hup
    obtain ⟨past, frames, part, hin⟩ := h.inStep hup
    obtain ⟨hinv, hrefused⟩ := hin.processMessages (h.socketOpen hup) calls
    cases hok : (st.processMessages cfg calls).2 with
    | true =>
      simp only [hok, if_true]
      exact hinv hok
    | false =>
      obtain ⟨hprocessed, hreceived, -⟩ := hrefused hok
      simp only [hok, Bool.false_eq_true, if_false]
      refine .of_disconnected ?_ rfl
      show (st.processMessages cfg calls).1.processed
        <+: handedOn cfg (framesOf (st.processMessages cfg calls).1.received)
      rw [hprocessed, hreceived]
      exact h.processed

theorem Inv.apply (h : st.Inv cfg) (step : ReceiveStep) : (st.apply cfg step).Inv cfg := by
  cases step with
  | receive pchBuf => exact h.receive pchBuf
  | handleMessages calls => exact h.handleMessages calls
  | disconnect => exact .of_disconnected h.processed rfl
  | closeSocket lockRecv => exact .of_disconnected h.processed rfl

theorem Run.inv {steps : List ReceiveStep} (hrun : Run cfg steps st) : st.Inv cfg := by
  induction hrun with
  | start => exact .start
  | step _ step ih => exact ih.apply step

/-- Once no whole message is left in the queue of a connected node, all there is has been handed on. -/
theorem Inv.processed_eq (h : st.Inv cfg) (hup : st.bDisconnect = false)
    (hdrained : ∀ m ∈ st.vRecvMsg, m.complete = false) : st.processed = handedOn cfg (framesOf st.received) := by
  obtain ⟨past, frames, part, hin⟩ := h.inStep hup
  obtain ⟨front, back, hqueue, hfront, -⟩ := hin.queued
  cases hfront with
  | nil => rw [framesOf_eq hin.framed, List.append_nil, hin.processed]
  | cons hframe _ =>
    have hopen := hdrained _ (hqueue ▸ List.mem_append_left _ List.mem_cons_self)
    cases hopen.symm.trans hframe.1

end ReceiveSide

end

/-- The start string of the main network, and the length of the data for its hash. -/
def plainCfg : MessageCfg := ⟨[0xff, 0xfe, 0x1d, 0x20], rfl, fun data => BitVec.ofNat 256 data.length⟩

/-- "ping", "pong" -/
def ping : Bytes := [0x70, 0x69, 0x6e, 0x67]
def pong : Bytes := [0x70, 0x6f, 0x6e, 0x67]

namespace ReceiveSide

/-- Whatever a peer sends and however it comes in, the bytes received are cut into frames and a rest in one
way only, and what is processed is what is handed on of these frames: a prefix of it in every state, and all of
it once no whole message is left in the queue of a connected node. -/
theorem processed_of_received (cfg : MessageCfg) {steps : List ReceiveStep} {st : ReceiveSide}
    (hrun : Run cfg steps st) :
    (∃ part, Framed frameCodec st.received (framesOf st.received) part ∧
        ∀ frames rest, Framed frameCodec st.received frames rest → frames = framesOf st.received ∧ rest = part) ∧
      st.processed <+: handedOn cfg (framesOf st.received) ∧
      (st.bDisconnect = false → (∀ m ∈ st.vRecvMsg, m.complete = false) →
        st.processed = handedOn cfg (framesOf st.received)) := by
  obtain ⟨part, hframed⟩ := framed_framesOf st.received
  refine ⟨⟨part, hframed, fun frames rest hcut => ?_⟩, hrun.inv.processed, hrun.inv.processed_eq⟩
  exact hcut.unique hframed

theorem Run.of_foldl {cfg : MessageCfg} {steps : List ReceiveStep} {st : ReceiveSide} (hrun : Run cfg steps st)
    (steps' : List ReceiveStep) :
    Run cfg (steps ++ steps') (steps'.foldl (fun st step => st.apply cfg step) st) := by
  induction steps' generalizing steps st with
  | nil => rwa [List.append_nil]
  | cons step steps' ih =>
    rw [List.append_cons]
    exact ih (hrun.step step)

/-- A message with a wrong checksum, a good one, and the start of a third, byte after byte. -/
def trickle : List ReceiveStep :=
  (plainCfg.pchMessageStart ++ ping ++ List.replicate 8 0 ++ [1, 0, 0, 0] ++ [9, 0, 0, 0] ++ [5] ++
    plainCfg.pchMessageStart ++ pong ++ List.replicate 8 0 ++ [1, 0, 0, 0] ++ [1, 0, 0, 0] ++ [6] ++
    [0xff]).map (fun b => .receive [b]) ++ [.handleMessages ⟨false, fun _ => false, .stays⟩]

theorem trickle_processed : handedOn plainCfg
    (framesOf (trickle.foldl (fun st step => st.apply plainCfg step) start).received) = [(pong, [6])] := by
  have hstart : Run plainCfg [] start := .start
  have hrun := hstart.of_foldl trickle
  have hend : (trickle.foldl (fun st step => st.apply plainCfg step) start).bDisconnect = false ∧
      (∀ m ∈ (trickle.foldl (fun st step => st.apply plainCfg step) start).vRecvMsg, m.complete = false) ∧
      (trickle.foldl (fun st step => st.apply plainCfg step) start).processed = [(pong, [6])] := by
    decide +kernel
  rw [← (processed_of_received plainCfg hrun).2.2 hend.1 hend.2.1, hend.2.2]

end ReceiveSide

/-! ## The sender -/

/-- The frame of a pushed message. -/
def toFrame (cfg : MessageCfg) (msg : Message) : Frame :=
  (⟨cfg.pchMessageStart, strncpy commandSize msg.1, UInt32.ofNat msg.2.length, checksum cfg msg.2⟩, msg.2)

/-- A command that fits its field and prints, and data that a receiver takes. -/
structure Sendable (msg : Message) : Prop where
  command : msg.1.length ≤ commandSize
  printable : ∀ p ∈ msg.1, 0x20 ≤ p ∧ p ≤ 0x7E
  size : msg.2.length ≤ maxSize

section
variable {cfg : MessageCfg} {msg : Message}

theorem length_strncpy (n : ℕ) (text : Bytes) : (strncpy n text).length = n := by
  rw [strncpy, List.length_append, List.length_take, List.length_replicate]
  omega

theorem toFrame_header_fits (cfg : MessageCfg) (msg : Message) : CMessageHeader.codec.Fits (toFrame cfg msg).1 :=
  ⟨cfg.start_length, length_strncpy _ _⟩

/-- What `PushMessage` queues is the frame. -/
theorem endMessage_eq (cfg : MessageCfg) (msg : Message) :
    endMessage cfg (beginMessage cfg msg.1 ++ msg.2) = frameCodec.write (toFrame cfg msg) := by
  have hu32 : ∀ a : UInt32, (Codec.u32.write a).length = 4 := fun a => Codec.length_leBytes 4 a.toNat
  obtain ⟨front, hfront⟩ : ∃ front, front = cfg.pchMessageStart ++ strncpy commandSize msg.1 := ⟨_, rfl⟩
  have hlength : front.length = messageSizeOffset := by
    rw [hfront, List.length_append, cfg.start_length, length_strncpy]
    rfl
  have hwrite : ∀ size sum : UInt32,
      CMessageHeader.codec.write ⟨cfg.pchMessageStart, strncpy commandSize msg.1, size, sum⟩
        = front ++ Codec.u32.write size ++ Codec.u32.write sum := by
    intro size sum
    rw [hfront, List.append_assoc, List.append_assoc]
    rfl
  have hbegin : beginMessage cfg msg.1 ++ msg.2
      = front ++ Codec.u32.write 0 ++ (Codec.u32.write 0 ++ msg.2) := by
    rw [beginMessage, hwrite, List.append_assoc]
  have hsize : (front ++ Codec.u32.write 0 ++ (Codec.u32.write 0 ++ msg.2)).length - headerSize
      = msg.2.length := by
    simp only [List.length_append, hu32, hlength, messageSizeOffset, headerSize]
    omega
  have hdata : ∀ size : UInt32,
      (front ++ Codec.u32.write size ++ (Codec.u32.write 0 ++ msg.2)).drop headerSize = msg.2 := by
    intro size
    rw [← List.append_assoc]
    apply List.drop_left'
    simp [hu32, hlength, messageSizeOffset, headerSize]
  have hoffset : ∀ size : UInt32, checksumOffset = (front ++ Codec.u32.write size).length := by
    intro size
    simp [hu32, hlength, messageSizeOffset, checksumOffset]
  have hframe : frameCodec.write (toFrame cfg msg)
      = CMessageHeader.codec.write (toFrame cfg msg).1 ++ msg.2 := rfl
  rw [hframe, toFrame, hwrite, endMessage, hbegin, hsize, ← hlength]
  simp only [Extents.writeAt_extent front _ ((hu32 0).trans (hu32 _).symm), hdata]
  rw [hoffset (UInt32.ofNat msg.2.length), ← List.append_assoc (front ++ Codec.u32.write _),
    Extents.writeAt_extent _ _ ((hu32 0).trans (hu32 _).symm)]

theorem commandValid_replicate (n : ℕ) : commandValid (List.replicate n 0) = true := by
  cases n with
  | zero => rfl
  | succ n => simp [List.replicate_succ, commandValid]

theorem commandValid_append {text : Bytes} (h : ∀ p ∈ text, 0x20 ≤ p ∧ p ≤ 0x7E) (n : ℕ) :
    commandValid (text ++ List.replicate n 0) = true := by
  induction text with
  | nil => exact commandValid_replicate n
  | cons p text ih =>
    obtain ⟨hlow, hhigh⟩ := h p List.mem_cons_self
    have hzero : p ≠ 0 := by
      rintro rfl
      exact absurd hlow (by decide)
    have hprints : ¬ (p < 0x20 ∨ 0x7E < p) :=
      not_or.mpr ⟨UInt8.not_lt.mpr hlow, UInt8.not_lt.mpr hhigh⟩
    rw [List.cons_append, commandValid, if_neg hzero, if_neg hprints]
    exact ih fun q hq => h q (List.mem_cons_of_mem p hq)

/-- The command comes back. -/
theorem Sendable.getCommand (h : Sendable msg) : (toFrame cfg msg).1.getCommand = msg.1 := by
  have hne : ∀ p ∈ msg.1, p ≠ 0 := by
    rintro p hp rfl
    exact absurd (h.printable 0 hp).1 (by decide)
  have hcommand : (toFrame cfg msg).1.pchCommand = msg.1 ++ List.replicate (commandSize - msg.1.length) 0 := by
    show msg.1.take commandSize ++ _ = _
    rw [List.take_of_length_le h.command]
  have htake : (msg.1 ++ List.replicate (commandSize - msg.1.length) (0 : UInt8)).takeWhile (· ≠ 0) = msg.1 := by
    rw [List.takeWhile_append_of_pos (by simpa using hne)]
    cases commandSize - msg.1.length <;> simp [List.replicate_succ]
  rw [CMessageHeader.getCommand, hcommand]
  split
  · exact htake
  · next hlast =>
    have hfull : commandSize - msg.1.length = 0 := by
      by_contra hpos
      obtain ⟨n, hn⟩ := Nat.exists_eq_succ_of_ne_zero hpos
      simp [hn, List.replicate_succ'] at hlast
    rw [hfull, List.replicate_zero, List.append_nil]

theorem Sendable.fits (cfg : MessageCfg) (h : Sendable msg) : frameCodec.Fits (toFrame cfg msg) := by
  have hmax : maxSize < UInt32.size := by decide
  have hsize : (toFrame cfg msg).1.unMessageSize.toNat = msg.2.length := by
    have hlt : msg.2.length < UInt32.size := lt_of_le_of_lt h.size hmax
    exact Nat.mod_eq_of_lt hlt
  refine ⟨⟨toFrame_header_fits cfg msg, ?_⟩, ?_⟩
  · show (toFrame cfg msg).1.unMessageSize.toNat ≤ maxSize
    rw [hsize]
    exact h.size
  · show msg.2.length = _
    exact hsize.symm

theorem Sendable.isValid (h : Sendable msg) : (toFrame cfg msg).1.isValid cfg = true := by
  have hcommand : commandValid (toFrame cfg msg).1.pchCommand = true := by
    show commandValid (strncpy commandSize msg.1) = true
    rw [strncpy, List.take_of_length_le h.command]
    exact commandValid_append h.printable _
  have hsize : (toFrame cfg msg).1.unMessageSize.toNat ≤ maxSize := (h.fits cfg).1.2
  have hstart : (toFrame cfg msg).1.pchMessageStart = cfg.pchMessageStart := rfl
  simp [CMessageHeader.isValid, hstart, hcommand, hsize]

/-- Every frame of the sender is handed on, as what was pushed. -/
theorem handedOn_toFrame {pushed : List Message} (h : ∀ msg ∈ pushed, Sendable msg) :
    handedOn cfg (pushed.map (toFrame cfg)) = pushed := by
  induction pushed with
  | nil => rfl
  | cons msg pushed ih =>
    have hmsg := h msg List.mem_cons_self
    have hstart : ¬ (toFrame cfg msg).1.pchMessageStart ≠ cfg.pchMessageStart := not_not.mpr rfl
    have hsum : checksum cfg (toFrame cfg msg).2 = (toFrame cfg msg).1.unChecksum := rfl
    rw [List.map_cons, handedOn, if_neg hstart, if_neg (by simp [hmsg.isValid, hsum]),
      ih fun msg h' => h msg (List.mem_cons_of_mem _ h'), hmsg.getCommand]
    rfl

end

namespace SendSide

/-- The offset lies in the first message and the size is that of all of them. -/
structure Accounts (it : List Bytes) (unSendOffset : ℕ) (unSendSize : UInt64) : Prop where
  nonempty : ∀ msg ∈ it, msg ≠ []
  offset : ∀ msg ∈ it.head?, unSendOffset < msg.length
  empty : it = [] → unSendOffset = 0
  size : unSendSize = UInt64.ofNat it.flatten.length

def Sane (st : SendSide) : Prop := Accounts st.vSendMsg st.unSendOffset st.unSendSize

/-- What is still to be sent. -/
def unsent (st : SendSide) : Bytes := st.vSendMsg.flatten.drop st.unSendOffset

variable {it : List Bytes} {msg : Bytes} {st st' : SendSide} {unSendOffset : ℕ} {unSendSize : UInt64}

theorem Accounts.next (h : Accounts (msg :: it) unSendOffset unSendSize) :
    Accounts it 0 (unSendSize - UInt64.ofNat msg.length) where
  nonempty m hm := h.nonempty m (List.mem_cons_of_mem _ hm)
  offset m hm := List.length_pos_of_ne_nil (h.nonempty m (List.mem_cons_of_mem _ (List.mem_of_head? hm)))
  empty _ := rfl
  size := by
    rw [h.size, List.flatten_cons, List.length_append, UInt64.ofNat_add, UInt64.add_comm,
      UInt64.add_sub_cancel]

/-- No assertion fails, and what `send` takes goes to the network from the front of what is to be sent. -/
theorem sendLoop_spec (calls : List SendResult) (st : SendSide) (h : Accounts it st.unSendOffset st.unSendSize) :
    ∃ st', sendLoop it calls st = some st' ∧ st'.Sane ∧
      st'.wire ++ st'.unsent = st.wire ++ it.flatten.drop st.unSendOffset := by
  induction it generalizing calls st with
  | nil =>
    have hsize : st.unSendSize = 0 := h.size
    refine ⟨{ st with vSendMsg := [] }, if_pos ⟨h.empty rfl, hsize⟩, h, rfl⟩
  | cons msg it ih =>
    have hoffset : st.unSendOffset < msg.length := h.offset msg rfl
    -- the message stays where it is
    have hstay : ∀ socketOpen : Bool, ∃ st',
        some { st with vSendMsg := msg :: it, socketOpen := socketOpen } = some st' ∧ st'.Sane ∧
          st'.wire ++ st'.unsent = st.wire ++ (msg :: it).flatten.drop st.unSendOffset :=
      fun socketOpen => ⟨_, rfl, h, rfl⟩
    have hdrop : (msg :: it).flatten.drop st.unSendOffset = msg.drop st.unSendOffset ++ it.flatten := by
      rw [List.flatten_cons, List.drop_append_of_le_length hoffset.le]
    cases calls with
    | nil =>
      rw [sendLoop, if_neg (not_le.mpr hoffset)]
      exact hstay st.socketOpen
    | cons call calls =>
      cases call with
      | wouldBlock =>
        rw [sendLoop, if_neg (not_le.mpr hoffset)]
        exact hstay st.socketOpen
      | failed =>
        rw [sendLoop, if_neg (not_le.mpr hoffset)]
        exact hstay false
      | accepted n =>
        rw [sendLoop, if_neg (not_le.mpr hoffset)]
        obtain ⟨taken, htaken⟩ : ∃ taken, taken = (msg.drop st.unSendOffset).take n := ⟨_, rfl⟩
        simp only [← htaken]
        have hprefix : taken <+: msg.drop st.unSendOffset := htaken ▸ List.take_prefix _ _
        have hlength := hprefix.length_le
        rw [List.length_drop] at hlength
        by_cases hnone : taken = []
        · rw [if_pos hnone]
          exact hstay st.socketOpen
        · rw [if_neg hnone]
          by_cases hfull : st.unSendOffset + taken.length = msg.length
          · rw [if_pos hfull]
            have hall : taken = msg.drop st.unSendOffset :=
              hprefix.eq_of_length (by rw [List.length_drop]; omega)
            obtain ⟨st', hst', hsane, hbytes⟩ := ih calls { st with
              unSendOffset := 0
              unSendSize := st.unSendSize - UInt64.ofNat msg.length
              wire := st.wire ++ taken } h.next
            refine ⟨st', hst', hsane, ?_⟩
            rw [hbytes, hdrop, hall, List.drop_zero, List.append_assoc]
          · rw [if_neg hfull]
            refine ⟨_, rfl, ⟨h.nonempty, ?_, by simp, h.size⟩, ?_⟩
            · rintro m ⟨⟩
              show st.unSendOffset + taken.length < msg.length
              omega
            · show st.wire ++ taken ++ (msg :: it).flatten.drop (st.unSendOffset + taken.length) = _
              rw [← List.drop_drop, hdrop, List.append_assoc]
              obtain ⟨more, hmore⟩ := hprefix
              rw [← hmore, List.append_assoc, List.drop_left]

theorem Sane.socketSendData (h : st.Sane) (calls : List SendResult) :
    ∃ st', st.socketSendData calls = some st' ∧ st'.Sane ∧ st'.wire ++ st'.unsent = st.wire ++ st.unsent :=
  sendLoop_spec _ _ h

theorem Accounts.offset_le (h : Accounts it unSendOffset unSendSize) : unSendOffset ≤ it.flatten.length := by
  cases it with
  | nil => rw [h.empty rfl]; exact Nat.zero_le _
  | cons msg it =>
    have hoffset := h.offset msg rfl
    rw [List.flatten_cons, List.length_append]
    omega

theorem Accounts.push (h : Accounts it unSendOffset unSendSize) (hne : msg ≠ []) :
    Accounts (it ++ [msg]) unSendOffset (unSendSize + UInt64.ofNat msg.length) where
  nonempty m hm := by
    rcases List.mem_append.mp hm with hm | hm
    · exact h.nonempty m hm
    · rwa [List.mem_singleton.mp hm]
  offset m hm := by
    cases it with
    | nil =>
      obtain rfl : msg = m := by simpa using hm
      rw [h.empty rfl]
      exact List.length_pos_of_ne_nil hne
    | cons m' it => exact h.offset m hm
  empty hnil := by simp at hnil
  size := by
    rw [h.size, List.flatten_append, List.flatten_singleton, List.length_append, UInt64.ofNat_add]

theorem Sane.pushMessage (h : st.Sane) (cfg : MessageCfg) (msg : Message) (calls : List SendResult) :
    ∃ st', st.pushMessage cfg msg.1 msg.2 calls = some st' ∧ st'.Sane ∧
      st'.wire ++ st'.unsent = st.wire ++ st.unsent ++ frameCodec.write (toFrame cfg msg) := by
  have hne : frameCodec.write (toFrame cfg msg) ≠ [] := by
    apply List.ne_nil_of_length_pos
    show 0 < (CMessageHeader.codec.write (toFrame cfg msg).1 ++ msg.2).length
    rw [List.length_append, length_headerCodec_write (toFrame_header_fits cfg msg)]
    exact Nat.add_pos_left (by decide) _
  obtain ⟨frame, hframe⟩ : ∃ frame, frame = frameCodec.write (toFrame cfg msg) := ⟨_, rfl⟩
  obtain ⟨pushed, hpushed⟩ : ∃ pushed : SendSide, pushed = { st with
      vSendMsg := st.vSendMsg ++ [frame]
      unSendSize := st.unSendSize + UInt64.ofNat frame.length } := ⟨_, rfl⟩
  have hsane : pushed.Sane := by
    rw [hpushed]
    exact h.push (hframe ▸ hne)
  have hbytes : pushed.wire ++ pushed.unsent = st.wire ++ st.unsent ++ frame := by
    rw [hpushed, List.append_assoc]
    show st.wire ++ (st.vSendMsg ++ [frame]).flatten.drop st.unSendOffset = _
    rw [List.flatten_append, List.drop_append_of_le_length h.offset_le, List.flatten_singleton]
    rfl
  have hpush : st.pushMessage cfg msg.1 msg.2 calls
      = if st.vSendMsg = [] then pushed.socketSendData calls else some pushed := by
    rw [hpushed, hframe, SendSide.pushMessage, endMessage_eq]
  rw [hpush, ← hframe, ← hbytes]
  split
  · exact hsane.socketSendData calls
  · exact ⟨pushed, rfl, hsane, rfl⟩

end SendSide

/-! ## What a connection delivers -/

namespace ReceiveSide

variable {cfg : MessageCfg} {st : ReceiveSide}

theorem receive_received (pchBuf : Bytes) (hopen : st.socketOpen = true) :
    (st.receive pchBuf).received = st.received ++ pchBuf := by
  unfold ReceiveSide.receive
  rw [if_pos hopen]
  split <;> rfl

theorem processMessages_stays {calls : ProcessCalls} (hstays : calls.after = .stays) :
    (st.processMessages cfg calls).1.bDisconnect = st.bDisconnect := by
  unfold ReceiveSide.processMessages
  split
  · rfl
  · dsimp only
    split
    · rfl
    · rw [hstays]

theorem handleMessages_received (calls : ProcessCalls) :
    (st.handleMessages cfg calls).received = st.received := by
  have hprocess : (st.processMessages cfg calls).1.received = st.received := by
    unfold ReceiveSide.processMessages
    split
    · rfl
    · dsimp only
      split
      · rfl
      · split <;> rfl
  unfold ReceiveSide.handleMessages
  split
  · rfl
  · dsimp only
    split
    · exact hprocess
    · exact hprocess

end ReceiveSide

namespace Link

variable {cfg : MessageCfg} {st st' : Link} {step : LinkStep}

/-- The bytes of the pushed messages are with the receiver, on the network or still to be sent. -/
structure Inv (cfg : MessageCfg) (st : Link) : Prop where
  stream : frameCodec.writeAll (st.pushed.map (toFrame cfg))
    = st.receiver.received ++ (st.sender.wire ++ st.sender.unsent)
  sender : st.sender.Sane
  receiver : st.receiver.Inv cfg

theorem Inv.start : Inv cfg start :=
  ⟨rfl, ⟨by simp [Link.start, SendSide.start], by simp [Link.start, SendSide.start], fun _ => rfl, rfl⟩, .start⟩

theorem Inv.apply (h : st.Inv cfg) (step : LinkStep) : ∃ st', Link.apply cfg step st = some st' ∧ st'.Inv cfg := by
  obtain ⟨hstream, hsender, hreceiver⟩ := h
  cases step with
  | pushMessage pszCommand payload calls =>
    obtain ⟨sender, hpush, hsane, hbytes⟩ := hsender.pushMessage cfg (pszCommand, payload) calls
    have hpush : st.sender.pushMessage cfg pszCommand payload calls = some sender := hpush
    refine ⟨_, Option.map_eq_some_iff.mpr ⟨sender, hpush, rfl⟩, ?_, hsane, hreceiver⟩
    show frameCodec.writeAll ((st.pushed ++ [(pszCommand, payload)]).map (toFrame cfg)) = _ ++ (_ ++ _)
    rw [List.map_append, Codec.writeAll_append, hstream, hbytes, List.append_assoc]
    simp [List.append_assoc]
  | socketSendData calls =>
    obtain ⟨sender, hsend, hsane, hbytes⟩ := hsender.socketSendData calls
    refine ⟨_, Option.map_eq_some_iff.mpr ⟨sender, hsend, rfl⟩, ?_, hsane, hreceiver⟩
    rw [hstream, hbytes]
  | closeSender => exact ⟨_, rfl, hstream, hsender, hreceiver⟩
  | recv nBytes =>
    rw [Link.apply]
    by_cases hopen : st.receiver.socketOpen = true
    · rw [if_pos hopen]
      refine ⟨_, rfl, ?_, hsender, hreceiver.apply (.receive _)⟩
      show _ = (st.receiver.receive _).received ++ (st.sender.wire.drop nBytes ++ st.sender.unsent)
      rw [ReceiveSide.receive_received _ hopen, hstream, List.append_assoc,
        ← List.append_assoc (st.sender.wire.take nBytes), List.take_append_drop]
    · rw [if_neg hopen]
      exact ⟨_, rfl, hstream, hsender, hreceiver⟩
  | handleMessages calls =>
    refine ⟨_, rfl, ?_, hsender, hreceiver.apply (.handleMessages calls)⟩
    show _ = (st.receiver.handleMessages cfg calls).received ++ _
    rw [ReceiveSide.handleMessages_received, hstream]
  | disconnect => exact ⟨_, rfl, hstream, hsender, hreceiver.apply .disconnect⟩
  | closeReceiver lockRecv => exact ⟨_, rfl, hstream, hsender, hreceiver.apply (.closeSocket lockRecv)⟩

theorem Run.inv {steps : List LinkStep} (hrun : Run cfg steps st) : st.Inv cfg := by
  induction hrun with
  | start => exact .start
  | step _ happly ih =>
    obtain ⟨st', hst', hinv⟩ := ih.apply _
    obtain rfl := Option.some.inj (happly.symm.trans hst')
    exact hinv

theorem pushed_isPrefix (happly : Link.apply cfg step st = some st') : st.pushed <+: st'.pushed := by
  cases step with
  | pushMessage pszCommand payload calls =>
    obtain ⟨sender, -, rfl⟩ := Option.map_eq_some_iff.mp happly
    exact List.prefix_append _ _
  | socketSendData calls =>
    obtain ⟨sender, -, rfl⟩ := Option.map_eq_some_iff.mp happly
    exact List.prefix_rfl
  | recv nBytes =>
    rw [Link.apply] at happly
    split at happly
    all_goals
      obtain rfl := Option.some.inj happly
      exact List.prefix_rfl
  | closeSender | handleMessages | disconnect | closeReceiver =>
    obtain rfl := Option.some.inj happly
    exact List.prefix_rfl

section
variable (hpushed : ∀ msg ∈ st.pushed, Sendable msg)
include hpushed

theorem framed_pushed (cfg : MessageCfg) :
    Framed frameCodec (frameCodec.writeAll (st.pushed.map (toFrame cfg))) (st.pushed.map (toFrame cfg)) [] := by
  refine ⟨(List.append_nil _).symm, ?_, frameCodec_nil⟩
  intro f hf
  obtain ⟨msg, hmsg, rfl⟩ := List.mem_map.mp hf
  exact (hpushed msg hmsg).fits cfg

/-- The receiver sees a prefix of the pushed frames. -/
theorem Inv.framesOf_received (h : st.Inv cfg) : framesOf st.receiver.received <+: st.pushed.map (toFrame cfg) := by
  obtain ⟨part, hreceived⟩ := framed_framesOf st.receiver.received
  have hall := framed_pushed hpushed cfg
  rw [h.stream] at hall
  exact hreceived.isPrefix hall

theorem Inv.processed (h : st.Inv cfg) : st.receiver.processed <+: st.pushed := by
  have hhanded := handedOn_isPrefix cfg (h.framesOf_received hpushed)
  rw [handedOn_toFrame hpushed] at hhanded
  exact h.receiver.processed.trans hhanded

/-- Nothing that a sender sends makes a receiver disconnect. -/
theorem Inv.calm (h : st.Inv cfg) (hup : st.receiver.bDisconnect = false) (hcalm : step.Calm)
    (happly : Link.apply cfg step st = some st') : st'.receiver.bDisconnect = false := by
  obtain ⟨past, frames, part, hin⟩ := h.receiver.inStep hup
  have hopen := h.receiver.socketOpen hup
  cases step with
  | pushMessage pszCommand payload calls =>
    obtain ⟨sender, -, rfl⟩ := Option.map_eq_some_iff.mp happly
    exact hup
  | socketSendData calls =>
    obtain ⟨sender, -, rfl⟩ := Option.map_eq_some_iff.mp happly
    exact hup
  | closeSender =>
    obtain rfl := Option.some.inj happly
    exact hup
  | recv nBytes =>
    rw [Link.apply, if_pos hopen] at happly
    obtain rfl := Option.some.inj happly
    show (st.receiver.receive (st.sender.wire.take nBytes)).bDisconnect = false
    unfold ReceiveSide.receive
    rw [if_pos hopen]
    split
    · next hnone =>
      obtain ⟨frames', part', hframed, hne⟩ :=
        hin.queued.receive_none hin.framed hnone (st.sender.wire.drop nBytes ++ st.sender.unsent)
      have hall := framed_pushed hpushed cfg
      rw [h.stream, ← List.take_append_drop nBytes st.sender.wire] at hall
      simp only [List.append_assoc] at hall hframed
      exact absurd (hframed.unique hall).2 hne
    · exact hup
  | handleMessages calls =>
    obtain rfl := Option.some.inj happly
    obtain ⟨-, hrefused⟩ := hin.processMessages hopen calls
    show (st.receiver.handleMessages cfg calls).bDisconnect = false
    unfold ReceiveSide.handleMessages
    rw [if_neg (by simp [hup])]
    cases hok : (st.receiver.processMessages cfg calls).2 with
    | true =>
      simp only [hok, if_true]
      rw [ReceiveSide.processMessages_stays hcalm, hup]
    | false =>
      obtain ⟨-, -, f, hf, hne⟩ := hrefused hok
      have hmem := (h.framesOf_received hpushed).subset
        (framesOf_eq hin.framed ▸ List.mem_append_right past hf)
      obtain ⟨msg, -, rfl⟩ := List.mem_map.mp hmem
      exact absurd rfl hne
  | disconnect => exact hcalm.elim
  | closeReceiver lockRecv => exact hcalm.elim

end

theorem Run.calm {steps : List LinkStep} (hrun : Run cfg steps st) (hpushed : ∀ msg ∈ st.pushed, Sendable msg)
    (hcalm : ∀ step ∈ steps, step.Calm) : st.receiver.bDisconnect = false := by
  induction hrun with
  | start => rfl
  | @step steps st st' step hrun happly ih =>
    have hbefore : ∀ msg ∈ st.pushed, Sendable msg := fun msg hmsg =>
      hpushed msg ((pushed_isPrefix happly).subset hmsg)
    have hup := ih hbefore fun step hstep => hcalm step (List.mem_append_left _ hstep)
    exact hrun.inv.calm hbefore hup (hcalm step (List.mem_append_right _ (List.mem_singleton_self _))) happly

/-- Two steps lists that come to an end give runs. -/
theorem Run.of_foldlM {steps steps' : List LinkStep} (hrun : Run cfg steps st)
    (h : steps'.foldlM (fun st step => Link.apply cfg step st) st = some st') : Run cfg (steps ++ steps') st' := by
  induction steps' generalizing steps st with
  | nil =>
    obtain rfl := Option.some.inj h
    rwa [List.append_nil]
  | cons step steps' ih =>
    obtain ⟨st₁, happly, h⟩ := Option.bind_eq_some_iff.mp h
    rw [List.append_cons]
    exact ih (hrun.step happly) h

/-- In every run of the two sides, whatever `send` and `recv` make of their calls: the assertions of
`SocketSendData` hold, what is processed is a prefix of what was pushed, nothing that was pushed makes the
receiver disconnect, and when all queues are empty everything has been processed. -/
theorem delivers (cfg : MessageCfg) {steps : List LinkStep} {st : Link} (hrun : Run cfg steps st)
    (hpushed : ∀ msg ∈ st.pushed, Sendable msg) :
    (∀ step, (Link.apply cfg step st).isSome) ∧ st.receiver.processed <+: st.pushed ∧
      ((∀ step ∈ steps, step.Calm) → st.receiver.bDisconnect = false) ∧
      (st.receiver.bDisconnect = false → st.sender.vSendMsg = [] → st.sender.wire = [] →
        (∀ m ∈ st.receiver.vRecvMsg, m.complete = false) → st.receiver.processed = st.pushed) := by
  have hinv := hrun.inv
  refine ⟨fun step => ?_, hinv.processed hpushed, hrun.calm hpushed, fun hup hqueue hwire hdrained => ?_⟩
  · obtain ⟨st', hst', -⟩ := hinv.apply step
    exact Option.isSome_iff_exists.mpr ⟨st', hst'⟩
  · have hunsent : st.sender.unsent = [] := by simp [SendSide.unsent, hqueue]
    have hall := framed_pushed hpushed cfg
    rw [hinv.stream, hwire, hunsent, List.append_nil, List.append_nil] at hall
    rw [hinv.receiver.processed_eq hup hdrained, framesOf_eq hall, handedOn_toFrame hpushed]

/-- Two messages, sent in pieces and received in pieces. -/
def pieces : List LinkStep :=
  [.pushMessage ping [7, 8] [.accepted 10], .recv 5, .pushMessage pong [] [],
    .socketSendData [.accepted 100, .accepted 3], .handleMessages ⟨false, fun _ => false, .stays⟩, .recv 30,
    .handleMessages ⟨false, fun _ => false, .stays⟩, .socketSendData [.accepted 100], .recv 100,
    .handleMessages ⟨false, fun _ => false, .stays⟩]

theorem pieces_delivered : ∃ st, Run plainCfg pieces st ∧ st.receiver.bDisconnect = false ∧
    st.receiver.processed = [(ping, [7, 8]), (pong, [])] := by
  have hend : (pieces.foldlM (fun st step => Link.apply plainCfg step st) start).map (fun st =>
      (st.pushed, st.sender.vSendMsg, st.sender.wire, st.receiver.vRecvMsg))
        = some ([(ping, [7, 8]), (pong, [])], [], [], []) := by decide +kernel
  obtain ⟨st, hst, hshape⟩ := Option.map_eq_some_iff.mp hend
  simp only [Prod.mk.injEq] at hshape
  obtain ⟨hpushed, hqueue, hwire, hmessages⟩ := hshape
  have hrun : Run plainCfg pieces st := Run.of_foldlM .start hst
  have hsendable : ∀ msg ∈ st.pushed, Sendable msg := by
    rw [hpushed]
    intro msg hmsg
    rcases List.mem_cons.mp hmsg with rfl | hmsg
    · exact ⟨by decide, by decide +kernel, by decide⟩
    · obtain rfl := List.mem_singleton.mp hmsg
      exact ⟨by decide, by decide +kernel, by decide⟩
  obtain ⟨-, -, hcalm, hdrained⟩ := delivers plainCfg hrun hsendable
  have hup := hcalm (by simp [pieces, LinkStep.Calm])
  exact ⟨st, hrun, hup, by rw [hdrained hup hqueue hwire (by simp [hmessages]), hpushed]⟩

end Link

end Dacrs
