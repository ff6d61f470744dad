import Tefs.DataServer.Replication

/-! # What a push task sends

Source: `src/DSPushTask.cpp`.

At every moment the bytes that went out are a front part of the push header and the range behind it, whatever
the socket takes at once. `Offsets` and `InFlight` tie the offset, the counter and the socket's buffer together.
-/

namespace Tefs.DataServer
open Wire
open Message (DsPush)
set_option autoImplicit false

namespace DsPushTask

def headerBytes (m : DsPush) : List Byte :=
  bigEndian m.length 4 ++ bigEndian m.requestId 4 ++ bigEndian m.type 4 ++ bigEndian m.encrypt 4 ++
    bigEndian m.fileid 8 ++ bigEndian m.chunkid 4 ++ bigEndian m.blocksize 4

theorem headerBytes_length (m : DsPush) : (headerBytes m).length = 32 := by
  simp only [headerBytes, List.length_append, bigEndian_length]

theorem fields_headerBytes (m : DsPush) : m.fields.flatten = (headerBytes m).map some := by
  simp only [DsPush.fields, Message.MessageBase.footprint, Message.field, headerBytes, List.flatten_cons,
    List.flatten_nil, List.append_nil, List.map_append, List.append_assoc]

/-- The range is inside the block, and a full packet from any of its positions on ends at an `int32_t`. -/
structure Ranged (p : PushTask) (block : Block) : Prop where
  start : 0 ≤ p.start
  le : p.start ≤ p.endPos
  inside : p.endPos < block.availDataSize
  small : p.endPos + kMaxPacketSize < 2 ^ 31

/-- How much the packet at `offset` takes -/
def len (p : PushTask) (offset : ℤ) : ℤ := min kMaxPacketSize (p.endPos - offset + 1)

/-- The stream up to position `stop` of the block -/
def upTo (p : PushTask) (requestId : BitVec 32) (block : Block) (stop : ℤ) : List Byte :=
  headerBytes (dsPush p requestId) ++ block.range p.start stop

def AtStart (p : PushTask) (t : DsPushTask) : Prop :=
  t.readOffset = p.start ∧ t.needSend = p.endPos - p.start + 1 ∧ t.busy = false

structure Offsets (p : PushTask) (t : DsPushTask) : Prop where
  lower : p.start ≤ t.readOffset
  upper : t.readOffset ≤ p.endPos
  needSend : t.needSend = p.endPos - t.readOffset + 1
  sound : t.socket.Sound

/-- The loop is at its top. -/
structure Idle (p : PushTask) (requestId : BitVec 32) (block : Block) (t : DsPushTask) : Prop where
  empty : t.socket.sendBuffer = []
  sending : t.sending = false
  busy : t.busy = false
  wire : t.socket.wire = upTo p requestId block t.readOffset

structure InFlight (p : PushTask) (requestId : BitVec 32) (block : Block) (t : DsPushTask) : Prop where
  buffered : t.socket.sendBuffer ≠ []
  packet : t.realReadLen = len p t.readOffset
  parts : t.socket.wire ++ t.socket.rest = upTo p requestId block (t.readOffset + t.realReadLen)

def Staged (p : PushTask) (requestId : BitVec 32) (block : Block) (t : DsPushTask) : PushState → Prop
  | .initial => AtStart p t ∧ t.socket = {} ∧ t.hasGenResp = false ∧ t.sending = false
  | .requestSending => AtStart p t ∧ (t.socket = {} ∧ t.hasGenResp = false ∧ t.sending = false ∨
      t.hasGenResp = true ∧ t.socket.sendBuffer ≠ [] ∧ t.socket.Sound ∧
        t.socket.wire ++ t.socket.rest = headerBytes (dsPush p requestId))
  | .dataSending => Offsets p t ∧ (Idle p requestId block t ∨ InFlight p requestId block t)
  | .responseReceiving => t.sending = false ∧ t.socket.wire = upTo p requestId block (p.endPos + 1)

def Inv (p : PushTask) (requestId : BitVec 32) (block : Block) (t : DsPushTask) : Prop :=
  Staged p requestId block t t.state

section Sender
variable {p : PushTask} {requestId : BitVec 32} {block : Block} {t : DsPushTask}

theorem Inv.staged {state : PushState} (h : Inv p requestId block t) (hstate : t.state = state) :
    Staged p requestId block t state :=
  hstate ▸ h

theorem inv_of_staged {state : PushState} (hstate : t.state = state)
    (h : Staged p requestId block t state) : Inv p requestId block t := by
  subst hstate
  exact h

theorem packetLen_eq (hp : Ranged p block) (offset : ℤ) (hlower : 0 ≤ offset) (hupper : offset ≤ p.endPos) :
    packetLen p offset = len p offset := by
  have hsmall := hp.small
  rw [packetLen, len, kMaxPacketSize] at *
  rw [int32_of_range (by omega) (by omega)]
  split
  · rw [int32_of_range (v := p.endPos - offset) (by omega) (by omega), int32_of_range (by omega) (by omega)]
    omega
  · omega

theorem blocksize_eq (hp : Ranged p block) : blocksize p = p.endPos - p.start + 1 := by
  have hstart := hp.start
  have hle := hp.le
  have hsmall := hp.small
  rw [kMaxPacketSize] at hsmall
  rw [blocksize, int32_of_range (v := p.endPos - p.start) (by omega) (by omega),
    int32_of_range (by omega) (by omega)]

theorem inv_construct (hp : Ranged p block) (memory : Uninitialised) :
    Inv p requestId block (construct p memory) := by
  have hstart := hp.start
  have hle := hp.le
  have hsmall := hp.small
  rw [kMaxPacketSize] at hsmall
  refine ⟨⟨rfl, ?_, rfl⟩, rfl, rfl, rfl⟩
  rw [construct, blocksize_eq hp]
  exact uint32_of_range (by omega) (by omega)

/-- The packet in flight is part of the range. -/
theorem Offsets.len_bounds (h : Offsets p t) :
    0 < len p t.readOffset ∧ len p t.readOffset ≤ kMaxPacketSize ∧
      t.readOffset + len p t.readOffset ≤ p.endPos + 1 := by
  have hupper := h.upper
  rw [len, kMaxPacketSize]
  omega

theorem Staged.setPhase {state : PushState} (h : Staged p requestId block t state) (phase : RunPhase) :
    Staged p requestId block { t with phase := phase } state := by
  cases state with
  | initial => exact h
  | requestSending => exact h
  | dataSending =>
    obtain ⟨ho, hwhere⟩ := h
    refine ⟨⟨ho.lower, ho.upper, ho.needSend, ho.sound⟩, hwhere.imp (fun hi => ?_) fun hf => ?_⟩
    · exact ⟨hi.empty, hi.sending, hi.busy, hi.wire⟩
    · exact ⟨hf.buffered, hf.packet, hf.parts⟩
  | responseReceiving => exact h

theorem Inv.leave (h : Inv p requestId block t) (theErr : ℤ) : Inv p requestId block (t.leave theErr) := by
  unfold DsPushTask.leave
  split
  · exact Staged.setPhase h _
  · exact Staged.setPhase h _

theorem sent_request (hp : Ranged p block) (hstate : t.state = .requestSending) (hstart : AtStart p t)
    (hempty : t.socket.sendBuffer = []) (hsound : t.socket.Sound)
    (hwire : t.socket.wire = headerBytes (dsPush p requestId)) : Inv p requestId block t.sent := by
  obtain ⟨hoffset, hneed, hbusy⟩ := hstart
  unfold sent
  simp only [hstate]
  refine ⟨⟨?_, ?_, ?_, hsound⟩, .inl ⟨hempty, rfl, hbusy, ?_⟩⟩
  · exact hoffset.ge
  · exact hoffset.le.trans hp.le
  · simp only [hoffset, hneed]
  · simp only [hwire, upTo, hoffset, Block.range, Int.sub_self]
    exact (List.append_nil _).symm

/-- A packet is out: another one follows, or the range is complete. -/
theorem sent_data (hp : Ranged p block) (hstate : t.state = .dataSending) (ho : Offsets p t)
    (hlen : t.realReadLen = len p t.readOffset) (hempty : t.socket.sendBuffer = [])
    (hwire : t.socket.wire = upTo p requestId block (t.readOffset + t.realReadLen)) :
    Inv p requestId block t.sent := by
  obtain ⟨hpos, hle, hend⟩ := ho.len_bounds
  have hstart := hp.start
  have hlower := ho.lower
  have hupper := ho.upper
  have hsmall := hp.small
  have hneed := ho.needSend
  rw [kMaxPacketSize] at hsmall hle
  rw [← hlen] at hpos hle hend
  unfold sent
  simp only [hstate, int32_of_range (v := t.readOffset + t.realReadLen) (by omega) (by omega),
    uint32_of_range (v := t.needSend - t.realReadLen) (by omega) (by omega)]
  by_cases hmore : 0 < t.needSend - t.realReadLen
  · rw [if_pos hmore]
    refine ⟨⟨?_, ?_, ?_, ho.sound⟩, .inl ⟨hempty, rfl, rfl, hwire⟩⟩
    · simp only
      omega
    · simp only
      omega
    · simp only
      omega
  · rw [if_neg hmore]
    have hlast : t.readOffset + t.realReadLen = p.endPos + 1 := by omega
    rw [hlast] at hwire
    exact ⟨rfl, hwire⟩

theorem sendall_of_empty (hempty : t.socket.sendBuffer = []) {length : ℤ} {bytes : List Byte}
    (hbytes : bytesAt t.packetSend 0 (uint32 length).toNat = bytes) (hne : bytes ≠ []) :
    t.sendall length = { t with socket := t.socket.sendV bytes, sending := true } := by
  unfold sendall
  simp only [hbytes]
  rw [if_neg (by rw [ServerSocket.sendV_of_empty hempty]; exact hne)]

theorem sendall_of_busy (hbusy : t.socket.sendBuffer ≠ []) (length : ℤ) :
    t.sendall length = { t with sending := true } := by
  unfold sendall
  simp only [ServerSocket.sendV_of_busy hbusy, if_neg hbusy]

/-- The header as it stands in the packet -/
theorem packetDsBackupRequest_eq (p : PushTask) (requestId : BitVec 32) (t : DsPushTask) :
    ∃ packetSend, bytesAt packetSend 0 32 = headerBytes (dsPush p requestId) ∧
      t.packetDsBackupRequest p requestId = { t with packetSend := packetSend, packetSendLen := 32 } := by
  have hbound : kReqBufSize < 2 ^ 63 := by decide
  have hlen := headerBytes_length (dsPush p requestId)
  have hwrites := (dsPush p requestId).serialize_writes hbound
  rw [fields_headerBytes] at hwrites
  have hroom : 0 + (((headerBytes (dsPush p requestId)).map some).length : ℤ) ≤ kReqBufSize := by
    rw [List.length_map, hlen]
    decide
  have hexec := hwrites ⟨t.packetSend, 0⟩ (Int.le_refl 0) hroom
  rw [List.length_map, hlen] at hexec
  have hheld := bytesAt_of_holds (holds_lay t.packetSend 0 ((headerBytes (dsPush p requestId)).map some))
  rw [hlen] at hheld
  refine ⟨_, hheld, ?_⟩
  rw [packetDsBackupRequest, hexec]
  rfl

theorem inv_requestSending (hstate : t.state = .requestSending)
    (h : Staged p requestId block t .requestSending) :
    Inv p requestId block (t.requestSending p requestId) := by
  obtain ⟨hstart, ⟨hsocket, hgen, -⟩ | ⟨hgen, hbusy, hsound, hparts⟩⟩ := h
  · obtain ⟨packetSend, hbytes, heq⟩ := packetDsBackupRequest_eq p requestId t
    have hpacket : bytesAt packetSend 0 (uint32 32).toNat = headerBytes (dsPush p requestId) := hbytes
    have hempty : t.socket.sendBuffer = [] := by rw [hsocket]
    have hne : headerBytes (dsPush p requestId) ≠ [] := fun hnil => by
      have hlen := headerBytes_length (dsPush p requestId)
      rw [hnil] at hlen
      cases hlen
    unfold requestSending
    simp only [hgen, Bool.false_eq_true, if_false, heq]
    rw [sendall_of_empty (t := { t with
      hasGenResp := true, packetSend := packetSend, packetSendLen := 32 }) hempty hpacket hne]
    have hsound : t.socket.Sound := .inr (by rw [hsocket])
    obtain ⟨hrest, hafter⟩ := hsound.rest_sendV hempty (headerBytes (dsPush p requestId))
    unfold Inv
    simp only [hstate]
    refine ⟨hstart, .inr ⟨rfl, ?_, hafter, ?_⟩⟩
    · rw [ServerSocket.sendV_of_empty hempty]
      exact hne
    · simp only [ServerSocket.sendV_wire, hrest]
      rw [hsocket, List.nil_append]
  · unfold requestSending
    rw [if_pos hgen, sendall_of_busy hbusy]
    unfold Inv
    simp only [hstate]
    exact ⟨hstart, .inr ⟨hgen, hbusy, hsound, hparts⟩⟩

/-- A packet in flight is read again with the same length. -/
theorem InFlight.reread {t' : DsPushTask} (hf : InFlight p requestId block t) (hsocket : t'.socket = t.socket)
    (hoffset : t'.readOffset = t.readOffset) (hlen : t'.realReadLen = len p t.readOffset) :
    InFlight p requestId block t' := by
  refine ⟨hsocket ▸ hf.buffered, hoffset ▸ hlen, ?_⟩
  rw [hsocket, hoffset, hlen, ← hf.packet]
  exact hf.parts

/-- A packet is read and handed to the socket, or is there already. -/
theorem inv_readPacket (hp : Ranged p block) (hstate : t.state = .dataSending)
    (h : Staged p requestId block t .dataSending) {ret : ℤ} (hret : ret ≤ 0) (part : List Byte) :
    Inv p requestId block (t.readPacket p block ret part) := by
  obtain ⟨ho, hwhere⟩ := h
  obtain ⟨hpos, hle, hend⟩ := ho.len_bounds
  have hstart := hp.start
  have hlower := ho.lower
  have hupper := ho.upper
  have hinside := hp.inside
  rw [kMaxPacketSize] at hle
  have hlen := packetLen_eq hp t.readOffset (by omega) hupper
  obtain ⟨n, hn⟩ : ∃ n, len p t.readOffset = n := ⟨_, rfl⟩
  rw [hn] at hpos hle hend hlen
  have hsame := block.readLen_of_inside t.readOffset n (by omega) (by omega) (by omega)
  unfold readPacket
  simp only [hlen, hsame]
  by_cases hok : ret = tfsSuccess
  · subst hok
    have hread := block.readRawData_of_inside t.readOffset n (by omega) (by omega) (by omega) part t.packetSend
    have hsuccess : ¬ (tfsSuccess < 0) := by decide
    simp only [hread.1, if_neg hsuccess]
    obtain hi | hf := hwhere
    · have hne : bytesAt block.data t.readOffset n.toNat ≠ [] := fun hnil => by
        have hzero := congrArg List.length hnil
        rw [bytesAt_length, List.length_nil] at hzero
        omega
      have hbytes : bytesAt (block.readRawData t.readOffset n tfsSuccess part t.packetSend).2 0
          (uint32 n).toNat = bytesAt block.data t.readOffset n.toNat := by
        rw [uint32_of_range (by omega) (by omega)]
        exact hread.2
      rw [sendall_of_empty (t := { t with
        packetSend := (block.readRawData t.readOffset n tfsSuccess part t.packetSend).2
        realReadLen := n
        packetSendLen := n }) hi.empty hbytes hne]
      obtain ⟨hrest, hsound⟩ := ho.sound.rest_sendV hi.empty (bytesAt block.data t.readOffset n.toNat)
      unfold Inv
      simp only [hstate]
      refine ⟨⟨hlower, hupper, ho.needSend, hsound⟩, .inr ⟨?_, hn.symm, ?_⟩⟩
      · rw [ServerSocket.sendV_of_empty hi.empty]
        exact hne
      · simp only [ServerSocket.sendV_wire, hrest, hi.wire]
        rw [upTo, upTo, block.range_add (by omega) (by omega), List.append_assoc]
    · rw [sendall_of_busy (t := { t with
        packetSend := (block.readRawData t.readOffset n tfsSuccess part t.packetSend).2
        realReadLen := n
        packetSendLen := n }) hf.buffered]
      unfold Inv
      simp only [hstate]
      exact ⟨⟨hlower, hupper, ho.needSend, ho.sound⟩, .inr (hf.reread rfl rfl hn.symm)⟩
  · have hfailed : (block.readRawData t.readOffset n ret part t.packetSend).1 = ret := by
      rw [Block.readRawData, if_neg (by omega), if_neg hok]
    have hneg : ret < 0 := lt_of_le_of_ne hret hok
    simp only [hfailed, if_pos hneg]
    refine Inv.leave ?_ _
    unfold Inv
    simp only [hstate]
    refine ⟨⟨hlower, hupper, ho.needSend, ho.sound⟩, hwhere.imp (fun hi => ?_) fun hf => ?_⟩
    · exact ⟨hi.empty, hi.sending, hi.busy, hi.wire⟩
    · exact hf.reread rfl rfl hn.symm

theorem inv_send (hp : Ranged p block) (h : Inv p requestId block t) (hsending : t.sending = true) (n : ℕ) :
    Inv p requestId block (t.step p requestId block (.send (.bytes n))) := by
  have hparts := t.socket.sendSendBuffer_parts n
  have hsound := t.socket.sendSendBuffer_sound n
  have hstep {state : PushState} (hstate : t.state = state) (hstaged : Staged p requestId block t state) :
      Inv p requestId block (if (t.socket.sendSendBuffer n).sendBuffer = [] then
        { t with socket := t.socket.sendSendBuffer n }.sent else { t with socket := t.socket.sendSendBuffer n }) := by
    by_cases hall : (t.socket.sendSendBuffer n).sendBuffer = []
    · rw [if_pos hall]
      rw [ServerSocket.rest_of_empty hall, List.append_nil] at hparts
      cases state with
      | initial => exact (Bool.false_ne_true (hstaged.2.2.2.symm.trans hsending)).elim
      | requestSending =>
        obtain ⟨hstart, ⟨-, -, hnot⟩ | ⟨-, -, -, hheader⟩⟩ := hstaged
        · exact (Bool.false_ne_true (hnot.symm.trans hsending)).elim
        · exact sent_request hp hstate hstart hall hsound (hparts.trans hheader)
      | dataSending =>
        obtain ⟨ho, hi | hf⟩ := hstaged
        · exact (Bool.false_ne_true (hi.sending.symm.trans hsending)).elim
        · exact sent_data hp hstate ⟨ho.lower, ho.upper, ho.needSend, hsound⟩ hf.packet hall
            (hparts.trans hf.parts)
      | responseReceiving => exact (Bool.false_ne_true (hstaged.1.symm.trans hsending)).elim
    · rw [if_neg hall]
      unfold Inv
      simp only [hstate]
      cases state with
      | initial => exact (Bool.false_ne_true (hstaged.2.2.2.symm.trans hsending)).elim
      | requestSending =>
        obtain ⟨hstart, ⟨-, -, hnot⟩ | ⟨hgen, -, -, hheader⟩⟩ := hstaged
        · exact (Bool.false_ne_true (hnot.symm.trans hsending)).elim
        · exact ⟨hstart, .inr ⟨hgen, hall, hsound, hparts.trans hheader⟩⟩
      | dataSending =>
        obtain ⟨ho, hi | hf⟩ := hstaged
        · exact (Bool.false_ne_true (hi.sending.symm.trans hsending)).elim
        · exact ⟨⟨ho.lower, ho.upper, ho.needSend, hsound⟩, .inr ⟨hall, hf.packet, hparts.trans hf.parts⟩⟩
      | responseReceiving => exact (Bool.false_ne_true (hstaged.1.symm.trans hsending)).elim
  exact hstep rfl h

theorem inv_notSent (h : Inv p requestId block t) (hsending : t.sending = true) (theErr : ℤ) :
    Inv p requestId block (t.notSent theErr) := by
  cases hstate : t.state with
  | initial => exact (Bool.false_ne_true ((h.staged hstate).2.2.2.symm.trans hsending)).elim
  | requestSending =>
    obtain ⟨hstart, ⟨-, -, hnot⟩ | hheader⟩ := h.staged hstate
    · exact (Bool.false_ne_true (hnot.symm.trans hsending)).elim
    · unfold notSent
      simp only [hstate]
      refine Inv.leave ?_ theErr
      exact ⟨hstart, .inr hheader⟩
  | dataSending =>
    obtain ⟨ho, hi | hf⟩ := h.staged hstate
    · exact (Bool.false_ne_true (hi.sending.symm.trans hsending)).elim
    · unfold notSent
      simp only [hstate]
      refine Inv.leave ?_ theErr
      exact ⟨⟨ho.lower, ho.upper, ho.needSend, ho.sound⟩, .inr ⟨hf.buffered, hf.packet, hf.parts⟩⟩
  | responseReceiving => exact (Bool.false_ne_true ((h.staged hstate).1.symm.trans hsending)).elim

/-- The task is called again and takes up the `Sendall` it left. -/
theorem inv_run (h : Inv p requestId block t) : Inv p requestId block (t.step p requestId block (.run false)) := by
  have hphase : Inv p requestId block { t with phase := .processing } := Staged.setPhase h _
  have hstep {state : PushState} (hstate : t.state = state) :
      t.step p requestId block (.run false) = { t with phase := .processing }.resume p requestId state := by
    subst hstate
    rfl
  cases hstate : t.state with
  | initial =>
    rw [hstep hstate]
    exact hphase
  | requestSending =>
    rw [hstep hstate]
    exact inv_requestSending hstate (hphase.staged hstate)
  | dataSending =>
    rw [hstep hstate, resume]
    by_cases hbusy : t.busy = true
    · obtain ⟨ho, hi | hf⟩ := h.staged hstate
      · exact (Bool.false_ne_true (hi.busy.symm.trans hbusy)).elim
      · have hsent : { t with phase := .processing }.sendall t.packetSendLen =
            { t with phase := .processing, sending := true } :=
          sendall_of_busy (t := { t with phase := .processing }) hf.buffered _
        rw [if_pos hbusy, hsent]
        refine inv_of_staged hstate ⟨⟨ho.lower, ho.upper, ho.needSend, ho.sound⟩, .inr ?_⟩
        exact ⟨hf.buffered, hf.packet, hf.parts⟩
    · rw [if_neg hbusy]
      exact hphase
  | responseReceiving =>
    rw [hstep hstate]
    exact hphase

/-- A read from disk that does not succeed returns a negative code. -/
def ReadReported : Input → Prop
  | .read ret _ => ret ≤ 0
  | .run _ | .connect _ | .send _ | .reply _ | .replyError _ => True

instance : ∀ i, Decidable (ReadReported i)
  | .read _ _ => inferInstanceAs (Decidable (_ ≤ _))
  | .run _ | .connect _ | .send _ | .reply _ | .replyError _ => .isTrue trivial

theorem inv_step (hp : Ranged p block) (h : Inv p requestId block t) {i : Input} (hen : t.Enabled i)
    (hread : ReadReported i) : Inv p requestId block (t.step p requestId block i) := by
  cases i with
  | run killed =>
    cases killed with
    | true => exact Staged.setPhase h _
    | false => exact inv_run h
  | connect theErr =>
    obtain ⟨-, hstate⟩ := hen
    obtain ⟨hstart, hfresh⟩ := h.staged hstate
    have hstaged : Staged p requestId block { t with state := .requestSending } .requestSending :=
      ⟨hstart, .inl hfresh⟩
    simp only [step]
    split
    · exact inv_requestSending rfl hstaged
    · exact Inv.leave hstaged theErr
  | send r =>
    cases r with
    | bytes n => exact inv_send hp h hen.2.1 n
    | error theErr => exact inv_notSent h hen.2.1 theErr
  | read ret part => exact inv_readPacket hp hen.2.2 (h.staged hen.2.2) hread part
  | reply bs =>
    have hstate : t.state = .responseReceiving := hen.2.1
    have hmore : Inv p requestId block { t with recvBuffer := t.recvBuffer ++ bs } := by
      exact inv_of_staged hstate (h.staged hstate)
    simp only [step]
    split
    · exact hmore
    · split
      · exact Inv.leave hmore _
      · exact Inv.leave hmore _
  | replyError theErr => exact Inv.leave h theErr

theorem upTo_isPrefix {stop : ℤ} (hstop : p.start ≤ stop)
    (hend : stop ≤ p.endPos + 1) : upTo p requestId block stop <+: upTo p requestId block (p.endPos + 1) := by
  have hsum : p.endPos + 1 = stop + (p.endPos + 1 - stop) := by omega
  rw [upTo, upTo, hsum, block.range_add hstop (by omega), ← List.append_assoc]
  exact List.prefix_append _ _

/-- What goes out is the header and the range, from the front. -/
theorem Inv.wire_prefix (h : Inv p requestId block t) :
    t.socket.wire <+: upTo p requestId block (p.endPos + 1) := by
  cases hstate : t.state with
  | initial =>
    obtain ⟨-, hsocket, -⟩ := h.staged hstate
    rw [hsocket]
    exact List.nil_prefix
  | requestSending =>
    obtain ⟨-, ⟨hsocket, -⟩ | ⟨-, -, -, hparts⟩⟩ := h.staged hstate
    · rw [hsocket]
      exact List.nil_prefix
    · have hheader : t.socket.wire <+: headerBytes (dsPush p requestId) := ⟨_, hparts⟩
      exact hheader.trans (List.prefix_append _ _)
  | dataSending =>
    obtain ⟨ho, hi | hf⟩ := h.staged hstate
    · have hupper := ho.upper
      rw [hi.wire]
      exact upTo_isPrefix ho.lower (by omega)
    · obtain ⟨hpos, -, hend⟩ := ho.len_bounds
      have hlower := ho.lower
      have hfront : t.socket.wire <+: upTo p requestId block (t.readOffset + t.realReadLen) := ⟨_, hf.parts⟩
      rw [hf.packet] at hfront
      exact hfront.trans (upTo_isPrefix (by omega) hend)
  | responseReceiving =>
    rw [(h.staged hstate).2]

end Sender

/-! What is sent stays sent. -/

theorem leave_socket (theErr : ℤ) (t : DsPushTask) : (t.leave theErr).socket = t.socket := by
  unfold leave
  split
  · rfl
  · rfl

theorem sent_socket (t : DsPushTask) : t.sent.socket = t.socket := by
  unfold sent
  dsimp only
  split
  · rfl
  · split
    · rfl
    · rfl
  · rfl
  · rfl

theorem notSent_socket (theErr : ℤ) (t : DsPushTask) : (t.notSent theErr).socket = t.socket := by
  unfold notSent
  dsimp only
  split
  · exact leave_socket _ _
  · exact leave_socket _ _
  · exact leave_socket _ _
  · exact leave_socket _ _

theorem sendall_wire (length : ℤ) (t : DsPushTask) : (t.sendall length).socket.wire = t.socket.wire := by
  unfold sendall
  dsimp only
  split
  · rw [sent_socket]
    exact ServerSocket.sendV_wire _ _
  · exact ServerSocket.sendV_wire _ _

theorem requestSending_wire (p : PushTask) (requestId : BitVec 32) (t : DsPushTask) :
    (t.requestSending p requestId).socket.wire = t.socket.wire := by
  unfold requestSending
  dsimp only
  rw [sendall_wire]
  split
  · rfl
  · obtain ⟨packetSend, -, heq⟩ := packetDsBackupRequest_eq p requestId t
    rw [heq]

theorem wire_prefix_step (p : PushTask) (requestId : BitVec 32) (block : Block) (t : DsPushTask) (i : Input) :
    t.socket.wire <+: (t.step p requestId block i).socket.wire := by
  have hsame {t' : DsPushTask} (h : t'.socket.wire = t.socket.wire) : t.socket.wire <+: t'.socket.wire := by
    rw [h]
  cases i with
  | run killed =>
    cases killed with
    | true => exact List.prefix_refl _
    | false =>
      refine hsame ?_
      change (resume p requestId { t with phase := .processing } t.state).socket.wire = t.socket.wire
      unfold resume
      split
      · exact requestSending_wire _ _ _
      · split
        · exact sendall_wire _ _
        · rfl
      · rfl
      · rfl
  | connect theErr =>
    unfold step
    dsimp only
    split
    · exact hsame (requestSending_wire _ _ _)
    · rw [leave_socket]
  | send r =>
    cases r with
    | bytes n =>
      unfold step
      dsimp only
      split
      · rw [sent_socket]
        exact t.socket.wire_sendSendBuffer n
      · exact t.socket.wire_sendSendBuffer n
    | error theErr =>
      unfold step
      rw [notSent_socket]
  | read ret part =>
    unfold step readPacket
    dsimp only
    split
    · rw [leave_socket]
    · exact hsame (sendall_wire _ _)
  | reply bs =>
    unfold step
    dsimp only
    split
    · exact List.prefix_refl _
    · split
      · rw [leave_socket]
      · rw [leave_socket]
  | replyError theErr =>
    unfold step
    rw [leave_socket]

end DsPushTask

end Tefs.DataServer
