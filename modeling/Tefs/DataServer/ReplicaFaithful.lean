import Tefs.DataServer.PushStreamed

/-! # When the replica is a copy

Source: `src/DSPushTask.cpp`, `src/DSPutTask.cpp`.

The push header carries no offset, so the replica's bytes are laid down from position 0 on: a transfer
that is reported as a success copied its range exactly when the range starts there.
-/

namespace Tefs.DataServer
open Runs Wire Segments
open Message (DsPush)
set_option autoImplicit false

/-! ## The receiver -/

namespace DsPutTask

section Receiver
variable {m : DsPush} {t : ClientPutTask}

theorem asPut_size (hpos : 0 < m.blocksize.toInt) :
    (asPut m).size = m.blocksize.toInt ∧ (asPut m).contentLen = m.blocksize.toInt := by
  have hle : m.blocksize.toInt < 2 ^ 31 := BitVec.toInt_lt
  have hend : (asPut m).endPos = m.blocksize.toInt - 1 := int32_of_range (by omega) (by omega)
  have hstart : (asPut m).start = 0 := rfl
  rw [ClientPut.size, ClientPut.contentLen, hend, hstart, Int.sub_zero,
    int32_of_range (v := m.blocksize.toInt - 1) (by omega) (by omega), int32_of_range (by omega) (by omega)]
  omega

/-- But for a push of nothing, the request is processed as that of a PUT. -/
theorem requestProcessing_eq (hpos : 0 < m.blocksize.toInt) {maxBlockSize : ℤ} (hmax : 0 ≤ maxBlockSize)
    (result : ℤ) : requestProcessing m maxBlockSize result t =
      t.requestProcessing (asPut m) maxBlockSize result := by
  have hle : m.blocksize.toInt < 2 ^ 31 := BitVec.toInt_lt
  have hend : (asPut m).endPos = m.blocksize.toInt - 1 := int32_of_range (by omega) (by omega)
  have hstart : (asPut m).start = 0 := rfl
  have hcontent := (asPut_size hpos).2
  have hinvalid : (asPut m).Invalid maxBlockSize ↔ Invalid m maxBlockSize := by
    have hfile : (asPut m).fileid = m.fileid.toInt := rfl
    have hchunk : (asPut m).chunkid = m.chunkid.toInt := rfl
    rw [ClientPut.Invalid, Invalid, hend, hstart, hcontent, hfile, hchunk]
    omega
  unfold requestProcessing ClientPutTask.requestProcessing
  simp only [hinvalid, ClientPutTask.prepare, hcontent, hstart]

theorem responseSending_frame (m : DsPush) (requestId : ℤ) (t : ClientPutTask) :
    (responseSending m requestId t).state = t.state ∧ (responseSending m requestId t).retcode = t.retcode ∧
      (responseSending m requestId t).writes = t.writes ∧
      (responseSending m requestId t).received = t.received := by
  unfold responseSending packetDsPushResp
  dsimp only
  split_ifs <;> exact ⟨rfl, rfl, rfl, rfl⟩

theorem not_acknowledged_responseSending (requestId : ℤ) (hcode : t.retcode ≠ putOk)
    (h : ¬ t.Acknowledged) : ¬ (responseSending m requestId t).Acknowledged := by
  unfold responseSending packetDsPushResp
  rw [if_neg hcode]
  dsimp only
  split_ifs
  · exact h
  · exact h
  · intro hack
    obtain ⟨res, hres, hok⟩ | hrest := hack
    · cases hres
      exact hcode hok
    · exact h (.inr hrest)

theorem inv_leave (h : t.Inv (asPut m)) (theErr : ℤ) : (leave theErr t).Inv (asPut m) := by
  unfold leave
  split
  · exact h.setPhase _
  · exact h.setPhase _

theorem inv_responseSending (h : t.Inv (asPut m)) (hstate : t.state = .responseSending) (requestId : ℤ) :
    (responseSending m requestId t).Inv (asPut m) := by
  obtain ⟨hs, hc, hw, hr⟩ := responseSending_frame m requestId t
  rw [ClientPutTask.Inv, hstate] at h
  rw [ClientPutTask.Inv, hs, hstate]
  refine ⟨h.1.congr hw, ?_⟩
  obtain hstored | ⟨hcode, hack⟩ := h.2
  · exact .inl (hstored.congr hw hr)
  · exact .inr ⟨hc ▸ hcode, not_acknowledged_responseSending requestId hcode hack⟩

theorem inv_step (hpos : 0 < m.blocksize.toInt) (requestId : ℤ) {i : ClientPutTask.Input}
    (h : t.Inv (asPut m)) (hen : t.Enabled i) (hreg : t.Regular (asPut m) i) :
    (step m requestId t i).Inv (asPut m) := by
  cases i with
  | run killed connected => exact h.setPhase _
  | process maxBlockSize result =>
    have heq : step m requestId t (.process maxBlockSize result) = _ :=
      requestProcessing_eq hpos hen.2.2.1 result
    rw [heq]
    exact ClientPutTask.inv_requestProcessing h hen.2.1 hreg
  | read bs maxBlockSize result => exact ClientPutTask.inv_dataReceiving h hen hreg
  | readError theErr => exact inv_leave h theErr
  | send theErr => exact inv_leave (inv_responseSending h hen.2 requestId) theErr

theorem dataReceiving_received (m : DsPush) (t : ClientPutTask) (bs : List Byte) (maxBlockSize result : ℤ) :
    (t.dataReceiving (asPut m) bs maxBlockSize result).received = t.received ++ bs := by
  have hlimit : ((t.receive bs).limit maxBlockSize).received = t.received ++ bs := by
    unfold ClientPutTask.limit
    split
    · rfl
    · rfl
  unfold ClientPutTask.dataReceiving
  dsimp only
  split_ifs
  · exact (ClientPutTask.flush_received _ _ _).trans hlimit
  · exact (ClientPutTask.flush_received _ _ _).trans hlimit
  · exact hlimit
  · exact hlimit

theorem step_received (m : DsPush) (requestId : ℤ) (t : ClientPutTask) {i : ClientPutTask.Input}
    (hread : Transfer.isRead i = false) : (step m requestId t i).received = t.received := by
  have hleave (t : ClientPutTask) (theErr : ℤ) : (leave theErr t).received = t.received := by
    unfold leave
    split
    · rfl
    · rfl
  cases i with
  | run killed connected => rfl
  | process maxBlockSize result =>
    simp only [step, requestProcessing]
    split_ifs <;> rfl
  | read bs maxBlockSize result => cases hread
  | readError theErr => exact hleave t theErr
  | send theErr =>
    obtain ⟨-, -, -, hr⟩ := responseSending_frame m requestId t
    exact (hleave _ theErr).trans hr

end Receiver
end DsPutTask

/-! ## A transfer -/

namespace Transfer

/-- The replica's range holds the bytes of the primary's, whatever it held before. -/
structure Copied (tr : Transfer) (block : Block) (t : ClientPutTask) : Prop where
  written : ∀ w ∈ t.writes, w.result = tfsSuccess ∧ w.fileid = tr.task.fileid ∧ w.chunkid = tr.task.chunkid
  bytes : ∀ (replica : ℤ → Byte) (q : ℤ), tr.task.start ≤ q → q ≤ tr.task.endPos →
    t.segments.foldl Segment.lay replica q = block.data q

/-- As many bytes were pushed behind the header as it says. -/
def Announced (tr : Transfer) (m : DsPush) : Prop :=
  ((tr.push.socket.wire.drop 32).length : ℤ) = m.blocksize.toInt

/-- The steps that stay clear of the other defects: no disk read returns a positive code; the block of the
replica does not get too small for a transfer under way; the last write succeeds, and no other one returns
a positive code. -/
def Regular (tr : Transfer) : Action → Prop
  | .push i => DsPushTask.ReadReported i
  | .read n maxBlockSize result => ∀ put ∈ tr.put,
      (maxBlockSize < put.2.recvBlockdataOffset + put.2.buffer.length + n →
        put.2.dataRecvLen + n = put.1.blocksize.toInt) ∧
      (put.2.dataRecvLen + n = put.1.blocksize.toInt → result = tfsSuccess) ∧
      (put.2.buffer.length + n = kDataBufSize → result ≤ 0)
  | .put (.process _ result) => ∀ put ∈ tr.put, put.1.blocksize.toInt ≤ put.2.dataRecvLen → result ≤ 0
  | .arrive _ | .put _ => True

instance (tr : Transfer) : ∀ a, Decidable (tr.Regular a)
  | .push i => inferInstanceAs (Decidable (DsPushTask.ReadReported i))
  | .read _ _ _ | .put (.process _ _) => inferInstanceAs (Decidable (∀ _, _))
  | .arrive _ | .put (.run _ _) | .put (.read _ _ _) | .put (.readError _) | .put (.send _) => .isTrue trivial

def header (tr : Transfer) : DsPush := DsPushTask.dsPush tr.task tr.memory.pushRequestId

/-- The whole stream -/
def whole (tr : Transfer) (block : Block) : List Byte :=
  DsPushTask.headerBytes tr.header ++ block.range tr.task.start (tr.task.endPos + 1)

def Received (tr : Transfer) (block : Block) : Option (DsPush × ClientPutTask) → Prop
  | none => tr.session = (tr.whole block).take tr.taken ∧ tr.taken < 32
  | some (m, t) => m = tr.header ∧ t.Inv (DsPutTask.asPut m) ∧ 32 ≤ tr.taken ∧
      t.received = ((tr.whole block).drop 32).take (tr.taken - 32)

structure Inv (block : Block) (tr : Transfer) : Prop where
  ranged : DsPushTask.Ranged tr.task block
  push : DsPushTask.Inv tr.task tr.memory.pushRequestId block tr.push
  taken : tr.taken ≤ tr.push.socket.wire.length
  received : tr.Received block tr.put

section Stream
variable {block : Block} {tr : Transfer}

theorem header_blocksize (h : DsPushTask.Ranged tr.task block) :
    tr.header.blocksize.toInt = tr.task.endPos - tr.task.start + 1 := by
  have hstart := h.start
  have hle := h.le
  have hsmall := h.small
  rw [DsPushTask.kMaxPacketSize] at hsmall
  change (BitVec.ofInt 32 (DsPushTask.blocksize tr.task)).toInt = _
  rw [DsPushTask.blocksize_eq h, BitVec.toInt_ofInt]
  exact Int.bmod_eq_of_le (by omega) (by omega)

theorem whole_length (h : DsPushTask.Ranged tr.task block) :
    ((tr.whole block).length : ℤ) = 32 + tr.header.blocksize.toInt := by
  have hle := h.le
  rw [header_blocksize h, whole, List.length_append, DsPushTask.headerBytes_length, Block.range, bytesAt_length]
  omega

theorem whole_drop (tr : Transfer) (block : Block) :
    (tr.whole block).drop 32 = block.range tr.task.start (tr.task.endPos + 1) := by
  rw [whole]
  exact List.drop_left' (DsPushTask.headerBytes_length _)

theorem Inv.wire_prefix (h : Inv block tr) : tr.push.socket.wire <+: tr.whole block :=
  h.push.wire_prefix

theorem Inv.taken_le (h : Inv block tr) : tr.push.socket.wire.length ≤ (tr.whole block).length :=
  h.wire_prefix.length_le

/-- The next bytes are the next of the whole stream. -/
theorem Inv.next_eq (h : Inv block tr) {n : ℕ} (hn : tr.taken + n ≤ tr.push.socket.wire.length) :
    tr.next n = ((tr.whole block).drop tr.taken).take n ∧ (tr.next n).length = n := by
  have hlen : (tr.next n).length = n := by
    rw [next, List.length_take, List.length_drop]
    omega
  refine ⟨?_, hlen⟩
  obtain ⟨rest, hrest⟩ := h.wire_prefix
  rw [← hrest, List.drop_append_of_le_length (by omega), List.take_append_of_le_length (by
    rw [List.length_drop]
    omega)]
  rfl

theorem Inv.received_none (h : Inv block tr) (hput : tr.put = none) : tr.Received block none :=
  hput ▸ h.received

theorem Inv.received_some (h : Inv block tr) {m : DsPush} {t : ClientPutTask} (hput : tr.put = some (m, t)) :
    tr.Received block (some (m, t)) :=
  hput ▸ h.received

theorem Inv.blocksize_eq (h : Inv block tr) {m : DsPush} {t : ClientPutTask} (hput : tr.put = some (m, t)) :
    m.blocksize.toInt = tr.task.endPos - tr.task.start + 1 := by
  obtain ⟨hm, -⟩ := h.received_some hput
  rw [hm]
  exact header_blocksize h.ranged

theorem Inv.blocksize_pos (h : Inv block tr) {m : DsPush} {t : ClientPutTask} (hput : tr.put = some (m, t)) :
    0 < m.blocksize.toInt := by
  have hle := h.ranged.le
  rw [h.blocksize_eq hput]
  omega

/-- The session's view of the header -/
theorem messageTransaction_header (m : DsPush) (htype : m.type = DsPushTask.dsBackupChunkPush)
    {data : List Byte} (hroom : data.length ≤ kDataBufSize) :
    messageTransaction (DsPushTask.headerBytes m ++ data) = some (m, DsPutTask.construct data) := by
  have hlen := DsPushTask.headerBytes_length m
  have hword : ofBigEndian 32 (((DsPushTask.headerBytes m ++ data).drop 8).take 4) =
      DsPushTask.dsBackupChunkPush := by
    have hfront : DsPushTask.headerBytes m ++ data =
        (bigEndian m.length 4 ++ bigEndian m.requestId 4) ++ (bigEndian m.type 4 ++
          (bigEndian m.encrypt 4 ++ (bigEndian m.fileid 8 ++ (bigEndian m.chunkid 4 ++
            (bigEndian m.blocksize 4 ++ data))))) := by
      simp only [DsPushTask.headerBytes, List.append_assoc]
    rw [hfront, List.drop_left' (by simp only [List.length_append, bigEndian_length]),
      List.take_left' (bigEndian_length _ _), ofBigEndian_bigEndian m.type 4 (by decide), htype]
  have hbound : ((DsPushTask.headerBytes m ++ data).length : ℤ) < 2 ^ 63 := by
    rw [List.length_append, hlen]
    rw [kDataBufSize] at hroom
    omega
  have hreads := m.deserialize_reads hbound
  rw [DsPushTask.fields_headerBytes] at hreads
  have hholds : Holds (fun q => (DsPushTask.headerBytes m ++ data).getD q.toNat 0) 0
      ((DsPushTask.headerBytes m).map some) := by
    intro i b hb
    rw [List.getElem?_map, Option.map_eq_some_iff] at hb
    obtain ⟨b', hb', hsome⟩ := hb
    cases hsome
    obtain ⟨hi, -⟩ := List.getElem?_eq_some_iff.1 hb'
    have hidx : ((0 : ℤ) + (i : ℤ)).toNat = i := by omega
    simp only [hidx, List.getD_eq_getElem?_getD, List.getElem?_append_left hi, hb', Option.getD_some]
  have hfits : (0 : ℤ) + ((DsPushTask.headerBytes m).map some).length ≤
      ((DsPushTask.headerBytes m ++ data).length : ℤ) := by
    rw [List.length_map, List.length_append]
    omega
  have hexec := hreads ⟨fun q => (DsPushTask.headerBytes m ++ data).getD q.toNat 0, 0⟩ (Int.le_refl 0) hfits
    hholds
  have hpos : ((0 : ℤ) + ((DsPushTask.headerBytes m).map some).length).toNat =
      (DsPushTask.headerBytes m).length := by
    rw [List.length_map]
    omega
  rw [messageTransaction, if_pos hword, hexec]
  simp only [hpos, List.drop_left]

theorem whole_take_four (block : Block) (tr : Transfer) :
    (tr.whole block).take 4 = bigEndian tr.header.length 4 := by
  have hsplit : tr.whole block = bigEndian tr.header.length 4 ++ ((bigEndian tr.header.requestId 4 ++
      (bigEndian tr.header.type 4 ++ (bigEndian tr.header.encrypt 4 ++ (bigEndian tr.header.fileid 8 ++
        (bigEndian tr.header.chunkid 4 ++ bigEndian tr.header.blocksize 4))))) ++
          block.range tr.task.start (tr.task.endPos + 1)) := by
    simp only [whole, DsPushTask.headerBytes, List.append_assoc]
  rw [hsplit, List.take_left' (bigEndian_length _ _)]

theorem Inv.arrive (h : Inv block tr) {n : ℕ} (hen : tr.Enabled (.arrive n)) :
    Inv block (tr.requestReceiving n) := by
  obtain ⟨hput, -, hroom, hn⟩ := hen
  obtain ⟨hsession, htaken⟩ := h.received_none hput
  obtain ⟨hnext, -⟩ := h.next_eq hn
  have hwhole := h.taken_le
  have hbytes : tr.session ++ tr.next n = (tr.whole block).take (tr.taken + n) := by
    rw [hsession, hnext, List.take_add]
  have hlen : (tr.session ++ tr.next n).length = tr.taken + n := by
    rw [hbytes, List.length_take]
    omega
  have hheader := DsPushTask.headerBytes_length tr.header
  -- from four bytes on, the session knows the length of the header
  have hrequest (hfour : 4 ≤ tr.taken + n) :
      (ofBigEndian 32 ((tr.session ++ tr.next n).take 4)).toNat = 32 := by
    rw [hbytes, List.take_take, Nat.min_eq_left hfour, whole_take_four,
      ofBigEndian_bigEndian tr.header.length 4 (by decide)]
    rfl
  unfold requestReceiving
  dsimp only
  by_cases hall : 32 ≤ tr.taken + n
  · rw [if_pos (by rw [hlen, hrequest (by omega)]; omega)]
    have hsplit : tr.session ++ tr.next n = DsPushTask.headerBytes tr.header ++
        ((tr.whole block).drop 32).take (tr.taken + n - 32) := by
      rw [hbytes, whole_drop, whole, List.take_append, List.take_of_length_le (by omega), hheader]
    have hdata : (((tr.whole block).drop 32).take (tr.taken + n - 32)).length = tr.taken + n - 32 := by
      rw [List.length_take, List.length_drop]
      omega
    have hsmall : tr.taken + n ≤ kDataBufSize := by
      have hbefore : tr.session.length = tr.taken := by
        rw [hsession, List.length_take]
        omega
      omega
    have hmessage : messageTransaction (tr.session ++ tr.next n) = some (tr.header,
        DsPutTask.construct (((tr.whole block).drop 32).take (tr.taken + n - 32))) := by
      rw [hsplit]
      exact messageTransaction_header _ rfl (by omega)
    refine ⟨h.ranged, h.push, hn, ?_⟩
    rw [hmessage]
    exact ⟨rfl, ClientPutTask.inv_construct _ ⟨_, by omega⟩, hall, rfl⟩
  · rw [if_neg fun hcomplete => ?_]
    · refine ⟨h.ranged, h.push, hn, ?_⟩
      rw [hput]
      exact ⟨hbytes, Nat.lt_of_not_le hall⟩
    · obtain ⟨hfour, hle⟩ := hcomplete
      rw [hlen] at hfour hle
      rw [hrequest hfour] at hle
      exact hall hle

/-- A put task under way gets an input. -/
theorem Inv.putStep (h : Inv block tr) {m : DsPush} {t : ClientPutTask} (hput : tr.put = some (m, t))
    {i : ClientPutTask.Input} (hen : t.Enabled i) (hreg : t.Regular (DsPutTask.asPut m) i) {taken : ℕ}
    (htaken : tr.taken ≤ taken) (hwire : taken ≤ tr.push.socket.wire.length)
    (hreceived : (DsPutTask.step m tr.memory.putRequestId t i).received =
      ((tr.whole block).drop 32).take (taken - 32)) :
    Inv block ({ tr with taken := taken }.putStep i) := by
  obtain ⟨hm, hinv, hle, -⟩ := h.received_some hput
  have hpos := h.blocksize_pos hput
  have hstep : ({ tr with taken := taken } : Transfer).putStep i =
      { tr with taken := taken, put := some (m, DsPutTask.step m tr.memory.putRequestId t i) } := by
    simp only [Transfer.putStep, hput, Option.map_some]
  rw [hstep]
  refine ⟨h.ranged, h.push, hwire, hm, DsPutTask.inv_step hpos _ hinv hen hreg, ?_, hreceived⟩
  exact hle.trans htaken

theorem Inv.received_length (h : Inv block tr) {m : DsPush} {t : ClientPutTask}
    (hput : tr.put = some (m, t)) :
    t.received.length = tr.taken - 32 ∧ (t.received.length : ℤ) ≤ (DsPutTask.asPut m).size ∧
      (DsPutTask.asPut m).size = m.blocksize.toInt := by
  obtain ⟨hm, -, hle, hreceived⟩ := h.received_some hput
  have htaken := h.taken
  have hwhole := h.taken_le
  have htotal := whole_length h.ranged
  have hpos := h.blocksize_pos hput
  have hlen : t.received.length = tr.taken - 32 := by
    rw [hreceived, List.length_take, List.length_drop]
    omega
  have hsize := (DsPutTask.asPut_size hpos).1
  rw [← hm] at htotal
  exact ⟨hlen, by omega, hsize⟩

theorem Inv.read (h : Inv block tr) {n : ℕ} {maxBlockSize result : ℤ}
    (hen : tr.Enabled (.read n maxBlockSize result)) (hreg : tr.Regular (.read n maxBlockSize result)) :
    Inv block (tr.step block (.read n maxBlockSize result)) := by
  obtain ⟨hn, ⟨m, t⟩, hmem, hen⟩ := hen
  obtain ⟨hlimit, hlast, hfull⟩ := hreg (m, t) hmem
  have hput : tr.put = some (m, t) := hmem
  obtain ⟨-, hinv, hle, hreceived⟩ := h.received_some hput
  obtain ⟨hnext, hlen⟩ := h.next_eq hn
  obtain ⟨hrecvLen, -, hsize⟩ := h.received_length hput
  have hdata : t.dataRecvLen = t.received.length := by
    rw [ClientPutTask.Inv, hen.2.1] at hinv
    exact hinv.2.recvLen
  have htotal := whole_length h.ranged
  have hwhole := h.taken_le
  obtain ⟨hm, -⟩ := h.received_some hput
  rw [← hm] at htotal
  refine h.putStep hput hen ⟨?_, ?_, ?_, ?_⟩ (Nat.le_add_right _ n) hn ?_
  · rw [hlen, hdata, hrecvLen, hsize]
    omega
  · rw [hlen, hsize]
    exact hlimit
  · rw [hlen, hsize]
    exact hlast
  · rw [hlen]
    exact hfull
  · have hmore : (DsPutTask.step m tr.memory.putRequestId t (.read (tr.next n) maxBlockSize result)).received =
        t.received ++ tr.next n := DsPutTask.dataReceiving_received m t _ _ _
    have hsub : tr.taken + n - 32 = tr.taken - 32 + n := by omega
    have hdrop : (tr.whole block).drop tr.taken = ((tr.whole block).drop 32).drop (tr.taken - 32) := by
      rw [List.drop_drop]
      congr 1
      omega
    rw [hmore, hreceived, hnext, hsub, hdrop, List.take_add]

/-- Only a read takes bytes. -/
theorem Inv.put (h : Inv block tr) {i : ClientPutTask.Input} (hen : tr.Enabled (.put i))
    (hreg : tr.Regular (.put i)) : Inv block (tr.step block (.put i)) := by
  obtain ⟨hread, ⟨m, t⟩, hmem, hen⟩ := hen
  have hput : tr.put = some (m, t) := hmem
  obtain ⟨-, hinv, -, hreceived⟩ := h.received_some hput
  obtain ⟨-, hle, hsize⟩ := h.received_length hput
  have hregular : t.Regular (DsPutTask.asPut m) i := by
    cases i with
    | run killed connected => trivial
    | process maxBlockSize result =>
      have hdata : t.dataRecvLen = t.received.length := by
        rw [ClientPutTask.Inv, hen.2.1] at hinv
        exact hinv.2.2.2.1
      have hcontent : (DsPutTask.asPut m).contentLen = m.blocksize.toInt :=
        (DsPutTask.asPut_size (h.blocksize_pos hput)).2
      refine .inr fun hfull => ?_
      rw [hcontent] at hfull
      have hresult : result ≤ 0 := hreg (m, t) hmem hfull
      by_cases hok : result = tfsSuccess
      · exact .inr ⟨hok, by omega⟩
      · exact .inl ⟨lt_of_le_of_ne hresult hok, by omega⟩
    | read bs maxBlockSize result => cases hread
    | readError theErr => trivial
    | send theErr => exact fun _ => .inr (Int.le_refl 0)
  refine h.putStep hput hen hregular (Nat.le_refl _) h.taken ?_
  rw [DsPutTask.step_received m _ t hread]
  exact hreceived

theorem step_task (tr : Transfer) (block : Block) (a : Action) : (tr.step block a).task = tr.task := by
  cases a with
  | push i => rfl
  | arrive n =>
    simp only [step, requestReceiving]
    split
    · rfl
    · rfl
  | read n maxBlockSize result => rfl
  | put i => rfl

theorem Inv.step (h : Inv block tr) {a : Action} (hen : tr.Enabled a) (hreg : tr.Regular a) :
    Inv block (tr.step block a) := by
  cases a with
  | push i =>
    have hpush := DsPushTask.inv_step h.ranged h.push hen hreg
    have hwire := DsPushTask.wire_prefix_step tr.task tr.memory.pushRequestId block tr.push i
    exact ⟨h.ranged, hpush, h.taken.trans hwire.length_le, h.received⟩
  | arrive n => exact h.arrive hen
  | read n maxBlockSize result => exact h.read hen hreg
  | put i => exact h.put hen hreg

/-! A success -/

/-- All of the range has come, and no write left positions `0..blocksize - 1`. -/
theorem Inv.stored (h : Inv block tr) {m : DsPush} {t : ClientPutTask} (hput : tr.put = some (m, t))
    (hack : t.Acknowledged) :
    t.Stored (DsPutTask.asPut m) ∧ t.WritesInRange (DsPutTask.asPut m) ∧
      t.received = block.range tr.task.start (tr.task.endPos + 1) ∧ tr.Announced m := by
  obtain ⟨hm, hinv, hle, hreceived⟩ := h.received_some hput
  obtain ⟨hlen, -, hsize⟩ := h.received_length hput
  obtain ⟨hstored, hrange⟩ := hinv.ackMeansStored
  have hwhole := whole_length h.ranged
  have htaken := h.taken
  have hwire := h.taken_le
  have hle' := h.ranged.le
  have hblocksize := h.blocksize_eq hput
  rw [← hm] at hwhole
  -- the writes hold as many bytes as were announced, so as many were received
  have hall : (t.received.length : ℤ) = m.blocksize.toInt := by
    have hcount := (hstored hack).whole
    rw [(hstored hack).clientBytes, List.length_take, hsize] at hcount
    omega
  refine ⟨hstored hack, hrange, ?_, ?_⟩
  · rw [hreceived, ← whole_drop, List.take_of_length_le]
    rw [List.length_drop]
    omega
  · rw [Announced, List.length_drop]
    omega

theorem Inv.copied (h : Inv block tr) {m : DsPush} {t : ClientPutTask} (hput : tr.put = some (m, t))
    (hids : m.fileid.toInt = tr.task.fileid ∧ m.chunkid.toInt = tr.task.chunkid) (hack : t.Acknowledged)
    (hstart : tr.task.start = 0) : tr.Copied block t := by
  obtain ⟨hstored, -, hreceived, -⟩ := h.stored hput hack
  obtain ⟨-, -, hsize⟩ := h.received_length hput
  have hle := h.ranged.le
  have hblocksize := h.blocksize_eq hput
  refine ⟨fun w hw => ⟨hstored.succeeded w hw, ?_, ?_⟩, fun replica q hlower hupper => ?_⟩
  · exact (hstored.block w hw).1.trans hids.1
  · exact (hstored.block w hw).2.trans hids.2
  · have hend : q ≤ (DsPutTask.asPut m).endPos := by
      have hposition : (DsPutTask.asPut m).start = 0 := rfl
      rw [ClientPut.size, hposition] at hsize
      omega
    have hcontents := hstored.contents replica q (by rw [hstart] at hlower; exact hlower) hend
    have hposition : (q - (DsPutTask.asPut m).start).toNat = q.toNat := by
      rw [show (DsPutTask.asPut m).start = 0 from rfl, Int.sub_zero]
    have hidx : tr.task.start + (q.toNat : ℤ) = q := by omega
    rw [hreceived, hposition, Block.range, bytesAt, List.getElem?_map, List.getElem?_range (by omega),
      Option.map_some, hidx] at hcontents
    exact Option.some.inj hcontents

/-- A range that starts behind position 0 has a last position that was not written. -/
theorem Inv.not_copied (h : Inv block tr) {m : DsPush} {t : ClientPutTask} (hput : tr.put = some (m, t))
    (hack : t.Acknowledged) (hstart : tr.task.start ≠ 0) : ¬ tr.Copied block t := by
  intro hcopied
  obtain ⟨-, hrange, -, -⟩ := h.stored hput hack
  obtain ⟨-, -, hsize⟩ := h.received_length hput
  have hpos := h.ranged.start
  have hle := h.ranged.le
  have hblocksize := h.blocksize_eq hput
  have houtside : ∀ s ∈ t.segments, ¬ s.Covers tr.task.endPos := by
    intro s hs hcovers
    obtain ⟨-, hend⟩ := hrange s hs _ hcovers
    have hposition : (DsPutTask.asPut m).start = 0 := rfl
    rw [ClientPut.size, hposition] at hsize
    omega
  obtain ⟨other, hother⟩ : ∃ other : Byte, other ≠ block.data tr.task.endPos := by
    by_cases hzero : block.data tr.task.endPos = 0
    · exact ⟨1, by rw [hzero]; decide⟩
    · exact ⟨0, fun heq => hzero heq.symm⟩
  have hbyte := hcopied.bytes (fun _ => other) tr.task.endPos hle (Int.le_refl _)
  rw [foldl_lay_of_not_covers _ _ houtside] at hbyte
  exact hother hbyte

end Stream
end Transfer

/-! ## A PUT and its transfers -/

namespace ClientPutTask

theorem leave_pushes (put : ClientPut) (theErr : ℤ) (t : ClientPutTask) :
    ∃ news, (t.leave put theErr).pushes = t.pushes ++ news ∧ ∀ p ∈ news, ∃ i, p = pushTask put i := by
  unfold leave
  split_ifs
  · exact ⟨[], (List.append_nil _).symm, fun p hp => (List.not_mem_nil hp).elim⟩
  · refine ⟨_, rfl, fun p hp => ?_⟩
    obtain ⟨i, -, hi⟩ := List.mem_map.1 hp
    exact ⟨i, hi.symm⟩
  · exact ⟨[], (List.append_nil _).symm, fun p hp => (List.not_mem_nil hp).elim⟩

theorem dataReceiving_pushes (put : ClientPut) (t : ClientPutTask) (bs : List Byte) (maxBlockSize result : ℤ) :
    (t.dataReceiving put bs maxBlockSize result).pushes = t.pushes := by
  have hlimit : ((t.receive bs).limit maxBlockSize).pushes = t.pushes := by
    unfold limit
    split
    · rfl
    · rfl
  have hflush (t : ClientPutTask) : (t.flush put result).pushes = t.pushes := by
    unfold flush writeRawData
    split
    · rfl
    · rfl
  unfold dataReceiving
  dsimp only
  split_ifs
  · exact (hflush _).trans hlimit
  · exact (hflush _).trans hlimit
  · exact hlimit
  · exact hlimit

/-- Every push task a step creates is for the range of the PUT. -/
theorem step_pushes (put : ClientPut) (t : ClientPutTask) (i : Input) :
    ∃ news, (t.step put i).pushes = t.pushes ++ news ∧ ∀ p ∈ news, ∃ k, p = pushTask put k := by
  have hnone {t' : ClientPutTask} (h : t'.pushes = t.pushes) :
      ∃ news, t'.pushes = t.pushes ++ news ∧ ∀ p ∈ news, ∃ k, p = pushTask put k :=
    ⟨[], h.trans (List.append_nil _).symm, fun p hp => (List.not_mem_nil hp).elim⟩
  cases i with
  | run killed connected => exact hnone rfl
  | process maxBlockSize result =>
    refine hnone ?_
    simp only [step, requestProcessing]
    split_ifs <;> rfl
  | read bs maxBlockSize result => exact hnone (dataReceiving_pushes put t bs maxBlockSize result)
  | readError theErr => exact leave_pushes put theErr t
  | send theErr =>
    have hframe : (t.responseSending put).pushes = t.pushes := by
      unfold responseSending packetClientPutResp
      dsimp only
      split_ifs <;> rfl
    obtain ⟨news, hnews, hall⟩ := leave_pushes put theErr (t.responseSending put)
    exact ⟨news, hframe ▸ hnews, hall⟩

end ClientPutTask

namespace Replication

def Regular (r : Replication) : Action → Prop
  | .client _ _ => True
  | .transfer k a => ∀ tr ∈ r.transfers[k]?, tr.Regular a

instance (r : Replication) : ∀ a, Decidable (r.Regular a)
  | .client _ _ => .isTrue trivial
  | .transfer _ _ => inferInstanceAs (Decidable (∀ _, _))

/-- The range is inside the block. -/
structure InBlock (put : ClientPut) (block : Block) : Prop where
  start : 0 ≤ put.start
  le : put.start ≤ put.endPos
  inside : put.endPos < block.availDataSize

def Inv (put : ClientPut) (block : Block) (r : Replication) : Prop :=
  ∀ tr ∈ r.transfers, tr.Inv block ∧ ∃ k, tr.task = ClientPutTask.pushTask put k

section Runs
variable {put : ClientPut} {block : Block} {r : Replication}

theorem inv_start (hin : InBlock put block) (hsmall : put.endPos + DsPushTask.kMaxPacketSize < 2 ^ 31) (k : ℕ)
    (memory : Uninitialised) : (Transfer.start (ClientPutTask.pushTask put k) memory).Inv block := by
  have hranged : DsPushTask.Ranged (ClientPutTask.pushTask put k) block :=
    ⟨hin.start, hin.le, hin.inside, hsmall⟩
  exact ⟨hranged, DsPushTask.inv_construct hranged memory, Nat.le_refl 0, rfl, Nat.zero_lt_succ 31⟩

theorem Inv.step (hin : InBlock put block) (hsmall : put.endPos + DsPushTask.kMaxPacketSize < 2 ^ 31)
    (h : Inv put block r) {a : Action} (hen : r.Enabled a) (hreg : r.Regular a) :
    Inv put block (r.step put block a) := by
  intro tr htr
  cases a with
  | client i memory =>
    obtain ⟨news, hnews, hall⟩ := ClientPutTask.step_pushes put r.client i
    have hdrop : (r.client.step put i).pushes.drop r.client.pushes.length = news := by
      rw [hnews, List.drop_left]
    obtain hold | hnew := List.mem_append.1 htr
    · exact h tr hold
    · rw [hdrop, List.mem_mapIdx] at hnew
      obtain ⟨k, hk, rfl⟩ := hnew
      obtain ⟨j, hj⟩ := hall _ (List.getElem_mem hk)
      rw [hj]
      exact ⟨inv_start hin hsmall j _, j, rfl⟩
  | transfer k a =>
    obtain ⟨i, hi⟩ := List.mem_iff_getElem?.1 htr
    have hmodify : (r.transfers.modify k fun tr => tr.step block a)[i]? =
        (fun tr => if k = i then tr.step block a else tr) <$> r.transfers[i]? :=
      List.getElem?_modify _ _ _ _
    have hget : (r.transfers.modify k fun tr => tr.step block a)[i]? = some tr := hi
    rw [hmodify] at hget
    obtain ⟨old, hold, heq⟩ := Option.map_eq_some_iff.1 hget
    obtain ⟨hinv, j, hj⟩ := h old (List.mem_of_getElem? hold)
    by_cases hk : k = i
    · subst hk
      obtain ⟨tr', htr', hen⟩ := hen
      have hsame : tr' = old := Option.some.inj (htr'.symm.trans hold)
      subst hsame
      rw [if_pos rfl] at heq
      subst heq
      refine ⟨hinv.step hen (hreg _ hold), j, ?_⟩
      rw [Transfer.step_task, hj]
    · rw [if_neg hk] at heq
      subst heq
      exact ⟨hinv, j, hj⟩

/-- The header names the block of the PUT. -/
theorem header_ids (put : ClientPut) {tr : Transfer} {k : ℕ} (htask : tr.task = ClientPutTask.pushTask put k) :
    tr.header.fileid.toInt = tr.task.fileid ∧ tr.header.chunkid.toInt = tr.task.chunkid := by
  have hfile := put.fileid_range
  have hchunk := put.chunkid_range
  rw [Transfer.header, htask]
  change (BitVec.ofInt 64 put.fileid).toInt = put.fileid ∧ (BitVec.ofInt 32 put.chunkid).toInt = put.chunkid
  rw [BitVec.toInt_ofInt, BitVec.toInt_ofInt]
  exact ⟨Int.bmod_eq_of_le (by omega) (by omega), Int.bmod_eq_of_le (by omega) (by omega)⟩

end Runs

/-- A transfer that is reported as a success has copied the range if and only if the range starts at
position 0. -/
theorem success_copied_iff {put : ClientPut} {block : Block} {payload : Payload} {as : List Action}
    {r : Replication} (hin : InBlock put block) (hsmall : put.endPos + DsPushTask.kMaxPacketSize < 2 ^ 31)
    (h : Reaches (ofFun (step put block)) (fun r a => r.Enabled a ∧ r.Regular a)
      { client := .construct payload } as r)
    {tr : Transfer} (htr : tr ∈ r.transfers) {m : DsPush} {t : ClientPutTask} (hput : tr.put = some (m, t))
    (hack : t.Acknowledged) : (tr.Copied block t ↔ put.start = 0) ∧ tr.Announced m := by
  have hinv : Inv put block r := by
    refine h.invariant (fun r a r' hr hok htaken => ?_) fun tr htr => (List.not_mem_nil htr).elim
    subst htaken
    exact hr.step hin hsmall hok.1 hok.2
  obtain ⟨htransfer, k, htask⟩ := hinv tr htr
  obtain ⟨hm, -⟩ := htransfer.received_some hput
  have hstart : tr.task.start = put.start := by
    rw [htask]
    rfl
  refine ⟨⟨fun hcopied => ?_, fun hzero => ?_⟩, (htransfer.stored hput hack).2.2.2⟩
  · by_contra hne
    exact htransfer.not_copied hput hack (hstart ▸ hne) hcopied
  · exact htransfer.copied hput (hm ▸ header_ids put htask) hack (hstart.trans hzero)

theorem two_avail : 0 ≤ (2 : ℤ) ∧ (2 : ℤ) < 2 ^ 31 := by decide

def exampleBlock : Block := ⟨2, fun q => if q = 1 then 6 else 5, two_avail⟩

def exampleMemory : ℕ → Uninitialised := fun _ => ⟨fun _ => 0, 0, 0⟩

/-- Two bytes, with the connect, a send and a read put off -/
def exampleRun : List Action :=
  [.client (.run false true) exampleMemory, .client (.process 1024 0) exampleMemory,
    .client (.read [6] 1024 0) exampleMemory, .client (.send 0) exampleMemory,
    .transfer 0 (.push (.run false)), .transfer 0 (.push (.connect ClientPutTask.einprogress)),
    .transfer 0 (.push (.run false)), .transfer 0 (.push (.send (.bytes 30))), .transfer 0 (.arrive 30),
    .transfer 0 (.push (.send (.error ClientPutTask.eagain))), .transfer 0 (.push (.run false)),
    .transfer 0 (.push (.send (.bytes 2))), .transfer 0 (.push (.read 0 [])),
    .transfer 0 (.push (.send (.bytes 1))), .transfer 0 (.arrive 3), .transfer 0 (.put (.run false true)),
    .transfer 0 (.put (.process 1024 0)), .transfer 0 (.put (.readError ClientPutTask.eagain)),
    .transfer 0 (.push (.send (.bytes 1))), .transfer 0 (.put (.run false true)),
    .transfer 0 (.read 1 1024 0), .transfer 0 (.put (.send 0))]

def exampleEnd : Replication :=
  exampleRun.foldl (step ClientPutTask.firstBytes exampleBlock)
    { client := .construct ⟨[5], by decide⟩ }

theorem success_copied_two_bytes :
    ∃ tr ∈ exampleEnd.transfers, ∃ m t, tr.put = some (m, t) ∧ t.Acknowledged ∧ tr.Copied exampleBlock t ∧
      tr.Announced m := by
  have hrun := reaches_of_allAllowed (step ClientPutTask.firstBytes exampleBlock)
    (fun r a => r.Enabled a ∧ r.Regular a) { client := .construct ⟨[5], by decide⟩ } exampleRun (by decide)
  have hdone : (exampleEnd.transfers[0]?.bind fun tr => tr.put.map fun put => put.2.notices) =
      some [(7, 0)] := by decide
  obtain ⟨tr, htr, hnotices⟩ := Option.bind_eq_some_iff.1 hdone
  obtain ⟨⟨m, t⟩, hput, ht⟩ := Option.map_eq_some_iff.1 hnotices
  have hack : t.Acknowledged := .inr (.inl (by rw [ht]; decide))
  have hmem : tr ∈ exampleEnd.transfers := List.mem_of_getElem? htr
  obtain ⟨hcopied, hannounced⟩ := success_copied_iff ⟨by decide, by decide, by decide⟩ (by decide) hrun hmem
    hput hack
  exact ⟨tr, hmem, m, t, hput, hack, hcopied.2 rfl, hannounced⟩

theorem one_range : -2 ^ 31 ≤ (1 : ℤ) ∧ (1 : ℤ) < 2 ^ 31 := by decide

/-- Position 1 alone -/
def secondByte : ClientPut := { ClientPutTask.firstBytes with start := 1, start_range := one_range }

def secondByteRun : List Action :=
  [.client (.run false true) exampleMemory, .client (.process 1024 0) exampleMemory,
    .client (.send 0) exampleMemory, .transfer 0 (.push (.run false)), .transfer 0 (.push (.connect 0)),
    .transfer 0 (.push (.send (.bytes 32))), .transfer 0 (.push (.read 0 [])),
    .transfer 0 (.push (.send (.bytes 1))), .transfer 0 (.arrive 33), .transfer 0 (.put (.run false true)),
    .transfer 0 (.put (.process 1024 0)), .transfer 0 (.put (.send 0))]

def secondByteEnd : Replication :=
  secondByteRun.foldl (step secondByte exampleBlock) { client := .construct ⟨[6], by decide⟩ }

/-- The byte is laid down at position 0, and the replica is reported as stored. -/
theorem second_byte_misplaced :
    InBlock secondByte exampleBlock ∧
    Reaches (ofFun (step secondByte exampleBlock)) Enabled { client := .construct ⟨[6], by decide⟩ }
      secondByteRun secondByteEnd ∧
    ∃ tr ∈ secondByteEnd.transfers, ∃ m t, tr.put = some (m, t) ∧ t.Acknowledged ∧
      t.segments = [⟨0, [6]⟩] ∧ ¬ tr.Copied exampleBlock t := by
  refine ⟨⟨by decide, by decide, by decide⟩, reaches_of_allAllowed _ _ _ _ (by decide), ?_⟩
  have hdone : (secondByteEnd.transfers[0]?.bind fun tr => tr.put.map fun put =>
      (tr.task.start, tr.task.endPos, put.2.notices, put.2.segments)) =
        some (1, 1, [(7, 0)], [⟨0, [6]⟩]) := by decide
  obtain ⟨tr, htr, hparts⟩ := Option.bind_eq_some_iff.1 hdone
  obtain ⟨⟨m, t⟩, hput, ht⟩ := Option.map_eq_some_iff.1 hparts
  obtain ⟨hstart, hend, hnotices, hsegments⟩ : tr.task.start = 1 ∧ tr.task.endPos = 1 ∧
      t.notices = [(7, 0)] ∧ t.segments = [⟨0, [6]⟩] := by
    simpa using ht
  refine ⟨tr, List.mem_of_getElem? htr, m, t, hput, .inr (.inl (by rw [hnotices]; decide)), hsegments, ?_⟩
  intro hcopied
  have hbyte := hcopied.bytes (fun _ => 0) 1 (by rw [hstart]) (by rw [hend])
  rw [hsegments] at hbyte
  exact absurd hbyte (by decide)

end Replication
end Tefs.DataServer
