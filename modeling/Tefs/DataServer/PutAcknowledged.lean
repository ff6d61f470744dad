import Tefs.DataServer.ClientPut

/-! # An acknowledged PUT is stored

Source: `src/DSClientPutTask.cpp`.

`AckMeansStored`: a task that answered `PUTOK`, told the name server or started a replication has laid
the client's bytes into all of `start..end` by writes that succeeded, and no write left that range.
It fails when a write fails in a way the task overlooks, when more bytes arrive than the range has, and
when the task takes the range for complete too early. The steps that do none of this are the `Regular`
ones, and a run of them keeps the property.
-/

namespace Tefs.DataServer
open Runs Segments
set_option autoImplicit false

namespace ClientPutTask

/-! ## The property -/

def Acknowledged (t : ClientPutTask) : Prop :=
  (∃ res, t.packetSend = some res ∧ res.retcode = putOk) ∨ t.notices ≠ [] ∨ t.pushes ≠ []

/-- Every position of `start..end` was written, in order and with the client's bytes. -/
structure Stored (put : ClientPut) (t : ClientPutTask) : Prop where
  succeeded : ∀ w ∈ t.writes, w.result = tfsSuccess
  block : ∀ w ∈ t.writes, w.fileid = put.fileid ∧ w.chunkid = put.chunkid
  ordered : Consecutive put.start t.segments
  clientBytes : bytes t.segments = t.received.take put.size.toNat
  whole : ((bytes t.segments).length : ℤ) = put.size
  contents : ∀ (block : ℤ → Byte) (q : ℤ), put.start ≤ q → q ≤ put.endPos →
    some (t.segments.foldl Segment.lay block q) = t.received[(q - put.start).toNat]?

def WritesInRange (put : ClientPut) (t : ClientPutTask) : Prop :=
  ∀ s ∈ t.segments, ∀ q, s.Covers q → put.start ≤ q ∧ q ≤ put.endPos

def AckMeansStored (put : ClientPut) (t : ClientPutTask) : Prop :=
  (t.Acknowledged → t.Stored put) ∧ t.WritesInRange put

/-- The steps that stay clear of the defects. `process`: bytes that came with the request and count as
all of the range are all of it, and their write returns nothing positive. `read`: no byte too many; the
block does not end before the range; the last write returns `TFS_SUCCESS` and no other one a positive
code. `send`: a task that failed does not get as far as the replication. -/
def Regular (put : ClientPut) (t : ClientPutTask) : Input → Prop
  | .run _ _ | .readError _ => True
  | .process maxBlockSize result =>
    put.Invalid maxBlockSize ∨ (put.contentLen ≤ t.dataRecvLen →
      (result < 0 ∧ t.dataRecvLen ≤ put.size) ∨ (result = tfsSuccess ∧ t.dataRecvLen = put.size))
  | .read bs maxBlockSize result =>
    t.dataRecvLen + bs.length ≤ put.size ∧
    (maxBlockSize < t.recvBlockdataOffset + t.buffer.length + bs.length →
      t.dataRecvLen + bs.length = put.size) ∧
    (t.dataRecvLen + bs.length = put.size → result = tfsSuccess) ∧
    (t.buffer.length + bs.length = kDataBufSize → result ≤ 0)
  | .send theErr => theErr = osNoErr → t.retcode = putOk ∨ put.backupDataservernum ≤ 0

instance (put : ClientPut) (t : ClientPutTask) : ∀ i, Decidable (t.Regular put i)
  | .run _ _ | .readError _ => inferInstanceAs (Decidable True)
  | .process _ _ => inferInstanceAs (Decidable (_ ∨ (_ → _)))
  | .read _ _ _ => inferInstanceAs (Decidable (_ ∧ _))
  | .send _ => inferInstanceAs (Decidable (_ → _))

def Passes (put : ClientPut) : Input → Prop
  | .process maxBlockSize _ => ¬ put.Invalid maxBlockSize
  | _ => True

instance (put : ClientPut) : ∀ i, Decidable (Passes put i)
  | .process maxBlockSize _ => inferInstanceAs (Decidable (¬ put.Invalid maxBlockSize))
  | .run _ _ | .read _ _ _ | .readError _ | .send _ => inferInstanceAs (Decidable True)

/-! ## The invariant -/

/-- What the writes and the buffer hold while bytes come in, whatever the writes returned. -/
structure Laid (put : ClientPut) (t : ClientPutTask) : Prop where
  block : ∀ w ∈ t.writes, w.fileid = put.fileid ∧ w.chunkid = put.chunkid
  ordered : Consecutive put.start t.segments
  received : bytes t.segments ++ t.buffer = t.received

/-- All bytes so far have their place in the range, and no write has failed. -/
structure Within (put : ClientPut) (t : ClientPutTask) : Prop extends Laid put t where
  valid : 0 ≤ put.fileid ∧ 0 ≤ put.chunkid ∧ 0 ≤ put.start
  offset : t.recvBlockdataOffset = put.start + (bytes t.segments).length
  content : t.contentLen = put.size
  succeeded : ∀ w ∈ t.writes, w.result = tfsSuccess
  recvLen : t.dataRecvLen = t.received.length
  le_size : (t.received.length : ℤ) ≤ put.size
  fits : put.size < 2 ^ 31

structure Receiving (put : ClientPut) (t : ClientPutTask) : Prop extends Within put t where
  missing : (t.received.length : ℤ) < put.size

def Inv (put : ClientPut) (t : ClientPutTask) : Prop :=
  match t.state with
  | .requestProcessing => ¬ t.Acknowledged ∧ t.writes = [] ∧ t.buffer = t.received ∧
      t.dataRecvLen = t.received.length ∧ t.received.length < kDataBufSize
  | .dataReceiving => ¬ t.Acknowledged ∧ t.Receiving put
  | .responseSending => t.WritesInRange put ∧ (t.Stored put ∨ t.retcode ≠ putOk ∧ ¬ t.Acknowledged)

theorem inv_construct (put : ClientPut) (payload : Payload) : (construct payload).Inv put := by
  refine ⟨?_, rfl, rfl, rfl, payload.fits⟩
  rintro (⟨res, hres, -⟩ | hno | hno)
  · cases hres
  · exact hno rfl
  · exact hno rfl

/-! ## Writes -/

section Flush
variable (put : ClientPut) (result : ℤ) (t : ClientPutTask)

@[simp] theorem flush_writes : (t.flush put result).writes = t.writes ++ [t.writeCall put result] := by
  unfold flush writeRawData
  split <;> rfl

@[simp] theorem flush_received : (t.flush put result).received = t.received := by
  unfold flush writeRawData
  split <;> rfl

@[simp] theorem flush_buffer : (t.flush put result).buffer = [] := rfl

@[simp] theorem flush_contentLen : (t.flush put result).contentLen = t.contentLen := by
  unfold flush writeRawData
  split <;> rfl

@[simp] theorem flush_dataRecvLen : (t.flush put result).dataRecvLen = t.dataRecvLen := by
  unfold flush writeRawData
  split <;> rfl

theorem flush_acknowledged : (t.flush put result).Acknowledged ↔ t.Acknowledged := by
  unfold flush writeRawData
  split <;> exact Iff.rfl

@[simp] theorem flush_segments :
    (t.flush put result).segments = t.segments ++ [⟨t.recvBlockdataOffset, t.buffer⟩] := by
  rw [segments, flush_writes, List.map_append]
  rfl

@[simp] theorem flush_offset : (t.flush put result).recvBlockdataOffset =
    int32 (t.recvBlockdataOffset + t.buffer.length) := by
  unfold flush writeRawData
  split <;> rfl

theorem flush_state_of_not_neg (h : ¬ result < 0) : (t.flush put result).state = t.state := by
  simp only [flush, if_neg h]
  rfl

theorem flush_of_neg (h : result < 0) :
    (t.flush put result).state = .responseSending ∧ (t.flush put result).retcode = internalError := by
  simp only [flush, if_pos h, and_self]

end Flush

section Laid
variable {put : ClientPut} {t : ClientPutTask}

theorem Laid.writesInRange (h : t.Laid put) (hlen : (t.received.length : ℤ) ≤ put.size) :
    t.WritesInRange put := by
  intro s hs q hq
  have hcov := h.ordered.covers hs hq
  rw [← h.received, List.length_append, ClientPut.size] at hlen
  omega

theorem Laid.flush (h : t.Laid put)
    (hvalid : 0 ≤ put.fileid ∧ 0 ≤ put.chunkid ∧ 0 ≤ put.start)
    (hoff : t.recvBlockdataOffset = put.start + (bytes t.segments).length) (result : ℤ) :
    (t.flush put result).Laid put := by
  refine ⟨?_, ?_, ?_⟩
  · intro w hw
    rw [flush_writes, List.mem_append, List.mem_singleton] at hw
    rcases hw with hw | hw
    · exact h.block w hw
    · have hfile := put.fileid_range
      have hchunk := put.chunkid_range
      rw [hw]
      refine ⟨?_, uint32_of_range hvalid.2.1 (by omega)⟩
      change put.fileid % 2 ^ 64 = put.fileid
      omega
  · rw [flush_segments]
    exact (consecutive_concat _ _ _).2 ⟨h.ordered, hoff⟩
  · rw [flush_segments, bytes_concat, flush_buffer, List.append_nil, flush_received]
    exact h.received

theorem Laid.stored (h : t.Laid put) (hsucc : ∀ w ∈ t.writes, w.result = tfsSuccess)
    (hbuf : t.buffer = []) (hlen : (t.received.length : ℤ) = put.size) : t.Stored put := by
  have hbytes : bytes t.segments = t.received := by rw [← h.received, hbuf, List.append_nil]
  have htake : put.size.toNat = t.received.length := by omega
  refine ⟨hsucc, h.block, h.ordered, ?_, ?_, ?_⟩
  · rw [htake, List.take_length, hbytes]
  · rw [hbytes, hlen]
  · intro block q hle hge
    have hidx : (q - put.start).toNat < (bytes t.segments).length := by
      rw [hbytes]
      rw [ClientPut.size] at hlen
      omega
    have hq : q = put.start + ((q - put.start).toNat : ℤ) := by omega
    have hlay := h.ordered.foldl_lay block _ hidx
    rw [← hq, hbytes] at hlay
    exact hlay

theorem Stored.congr {t' : ClientPutTask} (h : t.Stored put) (hw : t'.writes = t.writes)
    (hr : t'.received = t.received) : t'.Stored put := by
  have hs : t'.segments = t.segments := by rw [segments, hw, segments]
  refine ⟨hw ▸ h.succeeded, hw ▸ h.block, hs ▸ h.ordered, ?_, hs ▸ h.whole, ?_⟩
  · rw [hs, hr]
    exact h.clientBytes
  · rw [hs, hr]
    exact h.contents

theorem WritesInRange.congr {t' : ClientPutTask} (h : t.WritesInRange put)
    (hw : t'.writes = t.writes) : t'.WritesInRange put := by
  rw [WritesInRange, segments, hw]
  exact h

end Laid

/-! ## The argument check -/

/-- A request that passes has a range; only the range of all `2 ^ 31` positions is lost in `ContentLen`. -/
theorem size_of_valid {put : ClientPut} {maxBlockSize : ℤ} (h : ¬ put.Invalid maxBlockSize) :
    (0 ≤ put.fileid ∧ 0 ≤ put.chunkid ∧ 0 ≤ put.start) ∧ 0 < put.size ∧
      (0 ≤ put.contentLen → put.contentLen = put.size ∧ put.size < 2 ^ 31) := by
  have hs := put.start_range
  have he := put.endPos_range
  rw [ClientPut.Invalid] at h
  refine ⟨by omega, ?_, ?_⟩
  · rw [ClientPut.size]
    omega
  · have hdiff : int32 (put.endPos - put.start) = put.endPos - put.start :=
      int32_of_range (by omega) (by omega)
    rw [ClientPut.contentLen, ClientPut.size, hdiff, int32]
    omega

/-! ## The steps -/

section Steps
variable {put : ClientPut} {t : ClientPutTask}

theorem inv_requestProcessing {maxBlockSize result : ℤ} (h : t.Inv put)
    (hstate : t.state = .requestProcessing) (hreg : t.Regular put (.process maxBlockSize result)) :
    (t.requestProcessing put maxBlockSize result).Inv put := by
  rw [Inv, hstate] at h
  obtain ⟨hack, hw, hbuf, hlen, -⟩ := h
  have hw' : (t.prepare put).writes = [] := hw
  -- before the first write, everything received lies in the buffer
  have hlaid : (t.prepare put).Laid put := by
    refine ⟨?_, ?_, ?_⟩
    · rw [hw']
      exact fun w hmem => absurd hmem List.not_mem_nil
    · rw [segments, hw']
      trivial
    · rw [segments, hw']
      exact hbuf
  unfold ClientPutTask.requestProcessing
  dsimp only
  split
  · refine ⟨?_, Or.inr ⟨show putError ≠ putOk by decide, hack⟩⟩
    intro s hs
    rw [segments, hw'] at hs
    cases hs
  · next hvalid =>
    obtain ⟨hv, hpos, hcontent⟩ := size_of_valid hvalid
    split
    · next hfull =>
      have hlaid' := hlaid.flush hv (by simp [segments, hw']; rfl) result
      have hwrites := (flush_writes put result (t.prepare put)).symm
      have hrecv := flush_received put result (t.prepare put)
      rcases hreg.resolve_left hvalid hfull with ⟨hneg, hle⟩ | ⟨hok, heq⟩
      · rw [hlen] at hle
        have hrange := hlaid'.writesInRange (by rw [hrecv]; exact hle)
        refine ⟨hrange.congr hwrites, Or.inr ⟨?_, hack⟩⟩
        change (if result < 0 then internalError else putOk) ≠ putOk
        rw [if_pos hneg]
        decide
      · rw [hlen] at heq
        have hrange := hlaid'.writesInRange (by rw [hrecv]; exact heq.le)
        have hsucc : ∀ w ∈ (flush put result (t.prepare put)).writes, w.result = tfsSuccess := by
          intro w hmem
          rw [flush_writes, hw', List.nil_append, List.mem_singleton] at hmem
          rw [hmem]
          exact hok
        have hstored := hlaid'.stored hsucc rfl (by rw [hrecv]; exact heq)
        exact ⟨hrange.congr hwrites, Or.inl (hstored.congr hwrites hrecv.symm)⟩
    · next hopen =>
      change ¬ put.contentLen ≤ t.dataRecvLen at hopen
      rw [hlen] at hopen
      obtain ⟨hc, hfits⟩ := hcontent (by omega)
      rw [hc] at hopen
      have hmiss := not_le.1 hopen
      refine ⟨hack, ⟨⟨⟨hlaid.block, hlaid.ordered, hlaid.received⟩, hv, ?_, hc, ?_, hlen, hmiss.le,
        hfits⟩, hmiss⟩⟩
      · simp [segments, hw']; rfl
      · rw [hw']
        exact fun w hmem => absurd hmem List.not_mem_nil

theorem Receiving.receive_recvLen (h : t.Receiving put) {bs : List Byte}
    (hlen : t.dataRecvLen + bs.length ≤ put.size) :
    (t.receive bs).dataRecvLen = (t.receive bs).received.length ∧
      ((t.receive bs).received.length : ℤ) = t.dataRecvLen + bs.length := by
  have hrecv := h.recvLen
  have hfits := h.fits
  have hsum : ((t.receive bs).received.length : ℤ) = t.dataRecvLen + bs.length := by
    rw [receive, List.length_append, hrecv]
    omega
  refine ⟨?_, hsum⟩
  rw [hsum]
  exact int32_of_range (by omega) (by omega)

theorem Receiving.receive_laid (h : t.Receiving put) (bs : List Byte) : (t.receive bs).Laid put := by
  refine ⟨h.block, h.ordered, ?_⟩
  change bytes t.segments ++ (t.buffer ++ bs) = t.received ++ bs
  rw [← List.append_assoc, h.received]

/-- When the block ends before the next byte, the range is complete: nothing is cut short. -/
theorem Receiving.limit_receive (h : t.Receiving put) {bs : List Byte} {maxBlockSize : ℤ}
    (hmax : 0 ≤ maxBlockSize ∧ maxBlockSize < 2 ^ 31)
    (hlen : t.dataRecvLen + bs.length ≤ put.size)
    (hend : maxBlockSize < t.recvBlockdataOffset + t.buffer.length + bs.length →
      t.dataRecvLen + bs.length = put.size) :
    (t.receive bs).limit maxBlockSize = t.receive bs := by
  obtain ⟨hrl, hsum⟩ := h.receive_recvLen hlen
  rw [limit]
  split
  · next hlt =>
    have hend' := put.endPos_range
    have hvalid := h.valid
    have hoff := h.offset
    have hrecv := h.recvLen
    rw [← h.received, List.length_append] at hrecv
    rw [ClientPut.size] at hlen
    have hpos : (t.receive bs).recvBlockdataOffset + ((t.receive bs).buffer.length : ℤ) =
        t.recvBlockdataOffset + t.buffer.length + bs.length := by
      change t.recvBlockdataOffset + ((t.buffer ++ bs).length : ℤ) = _
      rw [List.length_append]
      omega
    rw [hpos, uint32_of_range hmax.1 (by omega), uint32_of_range (by omega) (by omega)] at hlt
    have hfull : (t.receive bs).contentLen = (t.receive bs).dataRecvLen := by
      rw [hrl, hsum, hend hlt]
      exact h.content
    generalize t.receive bs = r at hfull
    cases r
    cases hfull
    rfl
  · rfl

theorem Receiving.receive (h : t.Receiving put) {bs : List Byte}
    (hlen : t.dataRecvLen + bs.length ≤ put.size) : (t.receive bs).Within put := by
  obtain ⟨hrl, hsum⟩ := h.receive_recvLen hlen
  exact ⟨h.receive_laid bs, h.valid, h.offset, h.content, h.succeeded, hrl, by omega, h.fits⟩

theorem Within.flush_laid (h : t.Within put) (result : ℤ) : (t.flush put result).Laid put :=
  h.toLaid.flush h.valid h.offset result

theorem Within.flush_writesInRange (h : t.Within put) (result : ℤ) :
    (t.flush put result).WritesInRange put := by
  refine (h.flush_laid result).writesInRange ?_
  rw [flush_received]
  exact h.le_size

theorem Within.flush_succeeded (h : t.Within put) :
    ∀ w ∈ (t.flush put tfsSuccess).writes, w.result = tfsSuccess := by
  intro w hmem
  rw [flush_writes, List.mem_append, List.mem_singleton] at hmem
  rcases hmem with hmem | hmem
  · exact h.succeeded w hmem
  · rw [hmem]
    rfl

theorem Within.flush_stored (h : t.Within put) (hall : (t.received.length : ℤ) = put.size) :
    (t.flush put tfsSuccess).Stored put := by
  refine (h.flush_laid tfsSuccess).stored h.flush_succeeded rfl ?_
  rw [flush_received]
  exact hall

/-- A full buffer goes to the disk, and bytes are still missing. -/
theorem Receiving.flush (h : t.Receiving put) : (t.flush put tfsSuccess).Receiving put := by
  refine ⟨⟨h.flush_laid tfsSuccess, h.valid, ?_, ?_, h.flush_succeeded, ?_, ?_, h.fits⟩, ?_⟩
  · have hend := put.endPos_range
    have hvalid := h.valid
    have hmiss := h.missing
    have hlen : (t.received.length : ℤ) = (bytes t.segments).length + t.buffer.length := by
      rw [← h.received, List.length_append]
      omega
    rw [ClientPut.size] at hmiss
    rw [flush_offset, flush_segments, bytes_concat, List.length_append, h.offset,
      int32_of_range (by omega) (by omega)]
    dsimp only
    omega
  · rw [flush_contentLen]
    exact h.content
  · rw [flush_dataRecvLen, flush_received]
    exact h.recvLen
  · rw [flush_received]
    exact h.le_size
  · rw [flush_received]
    exact h.missing

theorem inv_dataReceiving {bs : List Byte} {maxBlockSize result : ℤ} (h : t.Inv put)
    (hen : t.Enabled (.read bs maxBlockSize result))
    (hreg : t.Regular put (.read bs maxBlockSize result)) :
    (t.dataReceiving put bs maxBlockSize result).Inv put := by
  obtain ⟨-, hstate, -, -, hmax⟩ := hen
  obtain ⟨hlen, hend, hlast, hfullOk⟩ := hreg
  rw [Inv, hstate] at h
  obtain ⟨hack, hr⟩ := h
  have hsum := (hr.receive_recvLen hlen).2
  have hw := hr.receive hlen
  have hack' : ¬ (t.receive bs).Acknowledged := hack
  have hbuf : (t.receive bs).buffer.length = t.buffer.length + bs.length := List.length_append
  have hst : (t.receive bs).state = .dataReceiving := hstate
  rw [ClientPutTask.dataReceiving, hr.limit_receive hmax hlen hend]
  rw [← hsum] at hlast
  generalize t.receive bs = r at *
  have hcontent := hw.content
  have hrecv := hw.recvLen
  have hle := hw.le_size
  by_cases hwhole : r.contentLen ≤ r.dataRecvLen
  · -- the last bytes of the range
    have hall : (r.received.length : ℤ) = put.size := by omega
    rw [if_pos (Or.inr hwhole), if_pos (by rw [flush_contentLen, flush_dataRecvLen]; exact hwhole)]
    rw [hlast hall]
    exact ⟨(hw.flush_writesInRange tfsSuccess).congr rfl, Or.inl ((hw.flush_stored hall).congr rfl rfl)⟩
  · have hmiss : r.Receiving put := ⟨hw, by omega⟩
    by_cases hfull : r.buffer.length = kDataBufSize
    · rw [if_pos (Or.inl hfull), if_neg (by rw [flush_contentLen, flush_dataRecvLen]; exact hwhole)]
      rw [hbuf] at hfull
      by_cases hneg : result < 0
      · -- a failed write ends the transfer
        obtain ⟨hsend, hcode⟩ := flush_of_neg put result r hneg
        rw [Inv, hsend]
        refine ⟨hw.flush_writesInRange result, Or.inr ⟨?_, ?_⟩⟩
        · rw [hcode]
          decide
        · rw [flush_acknowledged]
          exact hack'
      · have hok : result = tfsSuccess := le_antisymm (hfullOk hfull) (not_lt.1 hneg)
        rw [hok, Inv, flush_state_of_not_neg put tfsSuccess r (by decide), hst]
        refine ⟨?_, hmiss.flush⟩
        rw [flush_acknowledged]
        exact hack'
    · have hno : ¬ (r.buffer.length = kDataBufSize ∨ r.contentLen ≤ r.dataRecvLen) :=
        fun h => h.elim hfull hwhole
      rw [if_neg hno, if_neg hwhole, Inv, hst]
      exact ⟨hack', hmiss⟩

theorem responseSending_frame (put : ClientPut) (t : ClientPutTask) :
    (t.responseSending put).state = t.state ∧ (t.responseSending put).retcode = t.retcode ∧
      (t.responseSending put).writes = t.writes ∧ (t.responseSending put).received = t.received := by
  unfold ClientPutTask.responseSending packetClientPutResp
  dsimp only
  split_ifs <;> exact ⟨rfl, rfl, rfl, rfl⟩

theorem leave_frame (put : ClientPut) (theErr : ℤ) (t : ClientPutTask) :
    (t.leave put theErr).state = t.state ∧ (t.leave put theErr).retcode = t.retcode ∧
      (t.leave put theErr).writes = t.writes ∧ (t.leave put theErr).received = t.received := by
  unfold leave
  split_ifs <;> exact ⟨rfl, rfl, rfl, rfl⟩

theorem not_acknowledged_responseSending (hcode : t.retcode ≠ putOk) (h : ¬ t.Acknowledged) :
    ¬ (t.responseSending put).Acknowledged := by
  unfold ClientPutTask.responseSending packetClientPutResp
  rw [if_neg hcode]
  dsimp only
  split_ifs
  · exact h
  · exact h
  · rintro (⟨res, hres, hok⟩ | hrest)
    · cases hres
      exact hcode hok
    · exact h (Or.inr hrest)

theorem not_acknowledged_leave {theErr : ℤ} (h : ¬ t.Acknowledged)
    (hback : theErr = osNoErr → put.backupDataservernum ≤ 0) : ¬ (t.leave put theErr).Acknowledged := by
  unfold leave
  split_ifs with hwait hok
  · exact h
  · have hnone : put.backupDataservernum.toNat = 0 := Int.toNat_of_nonpos (hback hok)
    rw [hnone]
    rintro (hres | hnotice | hpush)
    · exact h (Or.inl hres)
    · exact h (Or.inr (Or.inl hnotice))
    · refine h (Or.inr (Or.inr fun hnil => hpush ?_))
      change t.pushes ++ [] = []
      rw [hnil, List.append_nil]
  · exact h

theorem inv_send {theErr : ℤ} (h : t.Inv put) (hstate : t.state = .responseSending)
    (hreg : t.Regular put (.send theErr)) : ((t.responseSending put).leave put theErr).Inv put := by
  obtain ⟨hs, hc, hw, hr⟩ := responseSending_frame put t
  obtain ⟨hs', hc', hw', hr'⟩ := leave_frame put theErr (t.responseSending put)
  rw [Inv, hstate] at h
  rw [Inv, hs', hs, hstate]
  refine ⟨h.1.congr (hw'.trans hw), ?_⟩
  rcases h.2 with hstored | ⟨hcode, hack⟩
  · exact Or.inl (hstored.congr (hw'.trans hw) (hr'.trans hr))
  · refine Or.inr ⟨by rw [hc', hc]; exact hcode, ?_⟩
    exact not_acknowledged_leave (not_acknowledged_responseSending hcode hack)
      fun herr => (hreg herr).resolve_left hcode

theorem leave_of_err (put : ClientPut) {theErr : ℤ} (t : ClientPutTask) (h : theErr ≠ osNoErr) :
    ∃ phase, t.leave put theErr = { t with phase := phase } := by
  unfold leave
  rw [if_neg h]
  split_ifs
  · exact ⟨_, rfl⟩
  · exact ⟨_, rfl⟩

theorem Inv.setPhase (h : t.Inv put) (phase : RunPhase) : Inv put { t with phase := phase } := by
  cases hstate : t.state with
  | requestProcessing =>
    rw [Inv, hstate] at h
    exact h
  | dataReceiving =>
    rw [Inv, hstate] at h
    obtain ⟨hack, hr⟩ := h
    exact ⟨hack, ⟨⟨⟨hr.block, hr.ordered, hr.received⟩, hr.valid, hr.offset, hr.content, hr.succeeded,
      hr.recvLen, hr.le_size, hr.fits⟩, hr.missing⟩⟩
  | responseSending =>
    rw [Inv, hstate] at h
    exact ⟨h.1, h.2.imp_left fun hstored => hstored.congr rfl rfl⟩

theorem inv_step (i : Input) (h : t.Inv put) (hen : t.Enabled i) (hreg : t.Regular put i) :
    (t.step put i).Inv put := by
  cases i with
  | run killed connected => exact h.setPhase _
  | process maxBlockSize result => exact inv_requestProcessing h hen.2.1 hreg
  | read bs maxBlockSize result => exact inv_dataReceiving h hen hreg
  | readError theErr =>
    obtain ⟨phase, heq⟩ := leave_of_err put t hen.2.2
    rw [step, heq]
    exact h.setPhase phase
  | send theErr => exact inv_send h hen.2 hreg

theorem Inv.ackMeansStored (h : t.Inv put) : t.AckMeansStored put := by
  rw [Inv] at h
  split at h
  · obtain ⟨hack, hw, -⟩ := h
    refine ⟨fun hyes => absurd hyes hack, ?_⟩
    intro s hs
    rw [segments, hw] at hs
    cases hs
  · exact ⟨fun hyes => absurd hyes h.1, h.2.writesInRange h.2.missing.le⟩
  · refine ⟨fun hyes => ?_, h.1⟩
    exact h.2.resolve_right fun hno => hno.2 hyes

end Steps

/-! ## Runs -/

/-- In a run of regular steps, acknowledged means stored. -/
theorem run_ackMeansStored (put : ClientPut) (payload : Payload) (inputs : List Input)
    (t : ClientPutTask)
    (h : Reaches (ofFun (step put)) (fun t i => t.Enabled i ∧ t.Regular put i) (construct payload)
      inputs t) : t.AckMeansStored put := by
  have hinv : t.Inv put := by
    refine h.invariant (fun s a s' hs hok hstep => ?_) (inv_construct put payload)
    rw [← hstep]
    exact inv_step a hs hok.1 hok.2
  exact hinv.ackMeansStored

def firstBytes : ClientPut where
  requestId := 1
  fileid := 7
  chunkid := 0
  start := 0
  endPos := 1
  backupDataservernum := 1
  address := fun _ => ⟨[127, 0, 0, 1], 80⟩
  fileid_range := by decide
  chunkid_range := by decide
  start_range := by decide
  endPos_range := by decide

/-- The first byte comes with the request, the second after an `EAGAIN`. -/
def twoBytes : List Input :=
  [.run false true, .process 67108864 0, .readError eagain, .run false true,
    .read [2] 67108864 0, .send 0]

theorem run_of_twoBytes :
    Acknowledged (twoBytes.foldl (step firstBytes) (construct ⟨[1], by decide⟩)) ∧
      AckMeansStored firstBytes (twoBytes.foldl (step firstBytes) (construct ⟨[1], by decide⟩)) :=
  ⟨Or.inr (Or.inl (by decide)), run_ackMeansStored firstBytes ⟨[1], by decide⟩ twoBytes _
    (reaches_of_allAllowed _ _ _ _ (by decide))⟩

/-- The write of the second byte fails, and the task answers `PUTOK`. -/
def lostByte : List Input :=
  [.run false true, .process 67108864 0, .read [2] 67108864 exitPhysicBlockOffsetError, .send 0]

theorem lostByte_acknowledged :
    ¬ ∀ (put : ClientPut) (payload : Payload) (inputs : List Input) (t : ClientPutTask),
      Reaches (ofFun (step put)) (fun t i => t.Enabled i ∧ Passes put i) (construct payload) inputs t →
        t.AckMeansStored put := by
  intro hclaim
  have hrun : Reaches (ofFun (step firstBytes)) (fun t i => t.Enabled i ∧ Passes firstBytes i)
      (construct ⟨[1], by decide⟩) lostByte
      (lostByte.foldl (step firstBytes) (construct ⟨[1], by decide⟩)) :=
    reaches_of_allAllowed _ _ _ _ (by decide)
  have hstored := (hclaim _ _ _ _ hrun).1 (Or.inl ⟨_, rfl, rfl⟩)
  have hfailed := hstored.succeeded ⟨⟨0, [1, 2]⟩, 7, 0, exitPhysicBlockOffsetError⟩ (by decide)
  exact absurd hfailed (by decide)

end ClientPutTask
end Tefs.DataServer
