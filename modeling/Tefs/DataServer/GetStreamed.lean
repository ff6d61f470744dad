import Tefs.DataServer.ClientGet

/-! # A granted GET streams the range asked for

Source: `src/DSClientGetTask.cpp`.

`Correct` says what the client may rely on. It fails when the range ends behind the block: the read that
reaches the end brings no byte, the offset stays where it is and the loop goes on for ever; a read that
starts behind the end returns a positive code, and what the packet held before is sent.
-/

namespace Tefs.DataServer.ClientGetTask
open Runs Wire
open Message (ClientGet ClientGetRes)
set_option autoImplicit false

/-! ## What the client may rely on -/

def response (get : ClientGet) : List Byte :=
  bigEndian clientGetResSize 4 ++ bigEndian get.requestId 4 ++ bigEndian clientGetType 4 ++
    bigEndian (0 : BitVec 32) 4 ++ bigEndian getOk 4

/-- The bytes of the block from `start` up to `stop` -/
def range (get : ClientGet) (block : Block) (stop : ℤ) : List Byte :=
  bytesAt block.data get.start.toInt (stop - get.start.toInt).toNat

def wanted (get : ClientGet) (block : Block) : List Byte :=
  response get ++ range get block (get.endPos.toInt + 1)

/-- The packets a range of this length takes -/
def packets (get : ClientGet) : ℤ := (get.endPos.toInt - get.start.toInt) / kMaxPacketSize + 1

structure Correct (get : ClientGet) (block : Block) (t : ClientGetTask) : Prop where
  wire : t.socket.wire <+: wanted get block
  iterations : t.iterations ≤ packets get
  complete : t.state = .tasksessionEnd ∨ t.phase = .ended → t.socket.wire = wanted get block
  announced : (response get).length = clientGetResSize.toNat
  length : ((range get block (get.endPos.toInt + 1)).length : ℤ) = get.endPos.toInt - get.start.toInt + 1

/-- The request is granted, and each `Sendall` can go on: the connection stays and the only error is
`EAGAIN`. -/
def Served (get : ClientGet) : Input → Prop
  | .run killed connected => killed = false ∧ connected = true
  | .process maxBlockSize found => ¬ Invalid get maxBlockSize ∧ found = true
  | .send (.error theErr) => theErr = ClientPutTask.eagain
  | .send (.bytes _) | .read _ _ => True

instance (get : ClientGet) : ∀ i, Decidable (Served get i)
  | .run _ _ | .process _ _ => inferInstanceAs (Decidable (_ ∧ _))
  | .send (.error _) => inferInstanceAs (Decidable (_ = _))
  | .send (.bytes _) | .read _ _ => .isTrue trivial

def ReadsSucceed : Input → Prop
  | .read ret _ => ret = tfsSuccess
  | .run _ _ | .process _ _ | .send _ => True

instance : ∀ i, Decidable (ReadsSucceed i)
  | .read _ _ => inferInstanceAs (Decidable (_ = _))
  | .run _ _ | .process _ _ | .send _ => .isTrue trivial

/-- The range ends in the block, and the end of the last packet, were it a full one, is an `int32_t`. -/
structure InBlock (get : ClientGet) (block : Block) : Prop where
  inside : get.endPos.toInt < block.availDataSize
  small : get.start.toInt + kMaxPacketSize * packets get < 2 ^ 31

/-! ## The invariant -/

structure Ranged (get : ClientGet) : Prop where
  start : 0 ≤ get.start.toInt
  le : get.start.toInt ≤ get.endPos.toInt

/-- The task is inside `Sendall`, or waits to come back to it. -/
def Active (t : ClientGetTask) : Prop :=
  (t.phase = .processing ∧ t.sending = true) ∨ (t.phase = .waiting ∧ t.sending = false)

/-- The offset is the number of packets times their size, cut off at the end. -/
structure Streamed (get : ClientGet) (block : Block) (t : ClientGetTask) : Prop where
  offset : t.readOffset = min (get.start.toInt + kMaxPacketSize * t.iterations) (get.endPos.toInt + 1)
  bound : t.iterations ≤ packets get
  parts : t.socket.wire ++ t.socket.rest = response get ++ range get block t.readOffset
  sound : t.socket.Sound

/-- The loop is at its top, with another packet to read. -/
def AtTop (get : ClientGet) (t : ClientGetTask) : Prop :=
  t.socket.sendBuffer = [] ∧ t.phase = .processing ∧ t.sending = false ∧ t.readOffset ≤ get.endPos.toInt

structure Responding (get : ClientGet) (t : ClientGetTask) : Prop where
  ranged : Ranged get
  active : t.Active
  generated : t.hasGenResp = true
  retcode : t.retcode = getOk
  busy : t.socket.sendBuffer ≠ []
  parts : t.socket.wire ++ t.socket.rest = response get
  sound : t.socket.Sound
  iterations : t.iterations = 0

def Staged (get : ClientGet) (block : Block) (t : ClientGetTask) : GetState → Prop
  | .requestProcessing => t.phase ≠ .ended ∧ t.sending = false ∧ t.hasGenResp = false ∧
      t.socket = {} ∧ t.iterations = 0
  | .responseSending => Responding get t
  | .dataSending => Ranged get ∧ Streamed get block t ∧
      (t.socket.sendBuffer ≠ [] ∧ t.Active ∧ (t.phase = .waiting → t.busy = true) ∨ AtTop get t)
  | .tasksessionEnd => t.sending = false ∧ t.phase ≠ .processing ∧ t.socket.wire = wanted get block ∧
      t.iterations ≤ packets get

def Inv (get : ClientGet) (block : Block) (t : ClientGetTask) : Prop := Staged get block t t.state

theorem Inv.staged {get : ClientGet} {block : Block} {t : ClientGetTask} {state : GetState}
    (h : Inv get block t) (hstate : t.state = state) : Staged get block t state :=
  hstate ▸ h

/-! ## Packets -/

section Packets
variable {get : ClientGet} {block : Block} {t : ClientGetTask}

theorem Streamed.no_wrap (h : Streamed get block t) (hin : InBlock get block)
    (hle : t.readOffset ≤ get.endPos.toInt) :
    t.readOffset = get.start.toInt + kMaxPacketSize * t.iterations ∧
      t.readOffset + kMaxPacketSize < 2 ^ 31 ∧ t.iterations + 1 ≤ packets get := by
  have hoffset := h.offset
  have hsmall := hin.small
  rw [packets, kMaxPacketSize] at *
  omega

theorem Streamed.packetLen_eq (h : Streamed get block t) (hranged : Ranged get) (hin : InBlock get block)
    (hle : t.readOffset ≤ get.endPos.toInt) :
    packetLen get t.readOffset = min kMaxPacketSize (get.endPos.toInt - t.readOffset + 1) := by
  obtain ⟨hoffset, hsmall, -⟩ := h.no_wrap hin hle
  have hstart := hranged.start
  have hend : get.endPos.toInt < 2 ^ 31 := Int.lt_trans hin.inside block.avail_range.2
  rw [packetLen, kMaxPacketSize] at *
  rw [int32_of_range (by omega) (by omega)]
  split
  · rw [int32_of_range (v := get.endPos.toInt - t.readOffset) (by omega) (by omega),
      int32_of_range (by omega) (by omega)]
    omega
  · omega

theorem range_add {stop len : ℤ} (hstart : get.start.toInt ≤ stop) (hlen : 0 ≤ len) :
    range get block (stop + len) = range get block stop ++ bytesAt block.data stop len.toNat :=
  block.range_add hstart hlen

end Packets

/-! ## Steps -/

section Steps
variable {get : ClientGet} {block : Block} {t : ClientGetTask}

theorem leave_eagain (t : ClientGetTask) : t.leave ClientPutTask.eagain = { t with phase := .waiting } :=
  if_pos (.inr rfl)

theorem inv_sent_response (hranged : Ranged get) (hstate : t.state = .responseSending)
    (hphase : t.phase = .processing) (hcode : t.retcode = getOk) (hempty : t.socket.sendBuffer = [])
    (hwire : t.socket.wire = response get) (hsound : t.socket.Sound) (hzero : t.iterations = 0) :
    Inv get block (t.sent get) := by
  have hle := hranged.le
  unfold sent
  simp only [hstate, if_pos hcode]
  refine ⟨hranged, ⟨?_, ?_, ?_, hsound⟩, .inr ⟨hempty, hphase, rfl, hle⟩⟩
  · simp only [hzero, kMaxPacketSize]
    omega
  · simp only [hzero, packets, kMaxPacketSize]
    omega
  · simp only [ServerSocket.rest_of_empty hempty, List.append_nil, hwire, range, Int.sub_self]
    exact (List.append_nil _).symm

/-- A packet is out: another one follows, or the range is complete. -/
theorem inv_sent_data (hranged : Ranged get) (h : Streamed get block t) (hstate : t.state = .dataSending)
    (hphase : t.phase = .processing) (hempty : t.socket.sendBuffer = []) :
    Inv get block (t.sent get) := by
  unfold sent
  simp only [hstate]
  by_cases hmore : t.readOffset ≤ get.endPos.toInt
  · simp only [if_pos hmore]
    exact ⟨hranged, ⟨h.offset, h.bound, h.parts, h.sound⟩, .inr ⟨hempty, hphase, rfl, hmore⟩⟩
  · simp only [if_neg hmore, leave_eagain]
    have hlast : t.readOffset = get.endPos.toInt + 1 := by
      have hoffset := h.offset
      omega
    have hparts := h.parts
    rw [ServerSocket.rest_of_empty hempty, List.append_nil, hlast] at hparts
    exact ⟨rfl, RunPhase.noConfusion, hparts, h.bound⟩

/-- Only an answer or a packet is ever being sent. -/
theorem Inv.state_of_sending (h : Inv get block t) (hsending : t.sending = true) :
    t.state = .responseSending ∨ t.state = .dataSending := by
  cases hstate : t.state with
  | requestProcessing => exact (Bool.false_ne_true ((h.staged hstate).2.1.symm.trans hsending)).elim
  | responseSending => exact .inl rfl
  | dataSending => exact .inr rfl
  | tasksessionEnd => exact (Bool.false_ne_true ((h.staged hstate).1.symm.trans hsending)).elim

theorem inv_send (h : Inv get block t) (hphase : t.phase = .processing) (hsending : t.sending = true)
    (n : ℕ) : Inv get block (t.step get block (.send (.bytes n))) := by
  have hparts := t.socket.sendSendBuffer_parts n
  have hsound := t.socket.sendSendBuffer_sound n
  have hactive : Active { t with socket := t.socket.sendSendBuffer n } := .inl ⟨hphase, hsending⟩
  unfold step
  by_cases hall : (t.socket.sendSendBuffer n).sendBuffer = []
  · simp only [if_pos hall]
    rcases h.state_of_sending hsending with hstate | hstate
    · have hstaged := h.staged hstate
      rw [ServerSocket.rest_of_empty hall, List.append_nil, hstaged.parts] at hparts
      exact inv_sent_response hstaged.ranged hstate hphase hstaged.retcode hall hparts hsound
        hstaged.iterations
    · obtain ⟨hranged, hstream, -⟩ := h.staged hstate
      exact inv_sent_data hranged ⟨hstream.offset, hstream.bound, hparts.trans hstream.parts, hsound⟩
        hstate hphase hall
  · simp only [if_neg hall]
    rcases h.state_of_sending hsending with hstate | hstate
    · have hstaged := h.staged hstate
      unfold Inv
      rw [hstate]
      exact ⟨hstaged.ranged, hactive, hstaged.generated, hstaged.retcode, hall,
        hparts.trans hstaged.parts, hsound, hstaged.iterations⟩
    · obtain ⟨hranged, hstream, -⟩ := h.staged hstate
      unfold Inv
      rw [hstate]
      refine ⟨hranged, ⟨hstream.offset, hstream.bound, hparts.trans hstream.parts, hsound⟩,
        .inl ⟨hall, hactive, fun hwait => ?_⟩⟩
      exact RunPhase.noConfusion (hphase.symm.trans hwait)

theorem inv_notSent (h : Inv get block t) (hsending : t.sending = true) :
    Inv get block (t.notSent ClientPutTask.eagain) := by
  unfold notSent
  rcases h.state_of_sending hsending with hstate | hstate
  · have hstaged := h.staged hstate
    simp only [hstate, leave_eagain]
    exact ⟨hstaged.ranged, .inr ⟨rfl, rfl⟩, hstaged.generated, hstaged.retcode, hstaged.busy, hstaged.parts,
      hstaged.sound, hstaged.iterations⟩
  · obtain ⟨hranged, hstream, hwhere⟩ := h.staged hstate
    simp only [hstate, leave_eagain]
    refine ⟨hranged, ⟨hstream.offset, hstream.bound, hstream.parts, hstream.sound⟩, ?_⟩
    rcases hwhere with ⟨hbusy, -, -⟩ | ⟨-, -, htop, -⟩
    · exact .inl ⟨hbusy, .inr ⟨rfl, rfl⟩, fun _ => rfl⟩
    · exact (Bool.false_ne_true (htop.symm.trans hsending)).elim

theorem sendall_of_empty (hempty : t.socket.sendBuffer = []) {length : ℤ} {bytes : List Byte}
    (hbytes : bytesAt t.packetSend 0 (uint32 length).toNat = bytes) (hne : bytes ≠ []) :
    t.sendall get length = { t with socket := t.socket.sendV bytes, sending := true } := by
  unfold sendall
  simp only [hbytes]
  rw [if_neg (by rw [ServerSocket.sendV_of_empty hempty]; exact hne)]

theorem sendall_of_busy (hbusy : t.socket.sendBuffer ≠ []) (length : ℤ) :
    t.sendall get length = { t with sending := true } := by
  unfold sendall
  simp only [ServerSocket.sendV_of_busy hbusy, if_neg hbusy]

/-- A packet is read and handed to the socket. -/
theorem inv_readPacket (hin : InBlock get block) (hranged : Ranged get) (h : Streamed get block t)
    (hstate : t.state = .dataSending) (htop : AtTop get t) (part : List Byte) :
    Inv get block (t.readPacket get block tfsSuccess part) := by
  obtain ⟨hempty, hphase, -, hle⟩ := htop
  obtain ⟨hoffset, hsmall, hpackets⟩ := h.no_wrap hin hle
  have hlen := h.packetLen_eq hranged hin hle
  have hstart := hranged.start
  have hinside := hin.inside
  rw [kMaxPacketSize] at hoffset hsmall hlen
  obtain ⟨len, hlenEq⟩ : ∃ len, packetLen get t.readOffset = len := ⟨_, rfl⟩
  rw [hlenEq] at hlen
  have hread := block.readRawData_of_inside t.readOffset len (by omega) (by omega) (by omega) part
    t.packetSend
  have hsame := block.readLen_of_inside t.readOffset len (by omega) (by omega) (by omega)
  have hsuccess : ¬ (tfsSuccess < 0) := by decide
  unfold readPacket
  simp only [hlenEq, hread.1, if_neg hsuccess, hsame]
  rw [int32_of_range (by omega) (by omega)]
  have hne : bytesAt block.data t.readOffset len.toNat ≠ [] := fun hnil => by
    have hzero := congrArg List.length hnil
    rw [bytesAt_length, List.length_nil] at hzero
    omega
  have hbytes : bytesAt (block.readRawData t.readOffset len tfsSuccess part t.packetSend).2 0
      (uint32 len).toNat = bytesAt block.data t.readOffset len.toNat := by
    rw [uint32_of_range (by omega) (by omega)]
    exact hread.2
  rw [sendall_of_empty (t := { t with
    packetSend := (block.readRawData t.readOffset len tfsSuccess part t.packetSend).2
    readOffset := t.readOffset + len
    realReadLen := len
    iterations := t.iterations + 1 }) hempty hbytes hne]
  obtain ⟨hrest, hsound⟩ := h.sound.rest_sendV hempty (bytesAt block.data t.readOffset len.toNat)
  unfold Inv
  simp only [hstate]
  refine ⟨hranged, ⟨?_, ?_, ?_, hsound⟩, .inl ⟨?_, .inl ⟨hphase, rfl⟩, fun hwait => ?_⟩⟩
  · simp only [kMaxPacketSize]
    omega
  · exact hpackets
  · have hparts := h.parts
    rw [ServerSocket.rest_of_empty hempty, List.append_nil] at hparts
    simp only [ServerSocket.sendV_wire, hrest, hparts]
    rw [range_add (by omega) (by omega), List.append_assoc]
  · rw [ServerSocket.sendV_of_empty hempty]
    exact hne
  · exact RunPhase.noConfusion (hphase.symm.trans hwait)

theorem response_length (get : ClientGet) : (response get).length = 20 := by
  simp only [response, List.length_append, bigEndian_length]

/-- The answer as it stands in the packet -/
theorem packetClientGetResp_eq (get : ClientGet) (hcode : t.retcode = getOk) :
    ∃ packetSend, bytesAt packetSend 0 20 = response get ∧
      t.packetClientGetResp get = { t with packetSend := packetSend, packetSendLen := 20 } := by
  have hbound : kReqBufSize < 2 ^ 63 := by decide
  have hwrites := (getRes get getOk).toClientPutRes.serialize_writes hbound
  have hfields : (getRes get getOk).toClientPutRes.fields.flatten = (response get).map some := by
    simp only [Message.ClientPutRes.fields, Message.MessageBase.footprint, Message.field, response, getRes,
      List.flatten_cons, List.flatten_nil, List.append_nil, List.map_append, List.append_assoc]
  have hlen := response_length get
  rw [hfields] at hwrites
  have hroom : 0 + (((response get).map some).length : ℤ) ≤ kReqBufSize := by
    rw [List.length_map, hlen]
    decide
  have hexec := hwrites ⟨t.packetSend, 0⟩ (Int.le_refl 0) hroom
  rw [List.length_map, hlen] at hexec
  have hheld := bytesAt_of_holds (holds_lay t.packetSend 0 ((response get).map some))
  rw [hlen] at hheld
  refine ⟨_, hheld, ?_⟩
  have hnonzero : ¬ t.retcode = 0 := by
    rw [hcode]
    decide
  rw [packetClientGetResp, if_neg hnonzero, hcode, ClientGetRes.serialize, hexec]
  rfl

theorem inv_responseSending (hranged : Ranged get) (hphase : t.phase = .processing)
    (hstate : t.state = .responseSending) (hcode : t.retcode = getOk) (hgen : t.hasGenResp = false)
    (hsocket : t.socket = {}) (hzero : t.iterations = 0) : Inv get block (t.responseSending get) := by
  obtain ⟨packetSend, hbytes, heq⟩ := packetClientGetResp_eq get hcode
  have hpacket : bytesAt packetSend 0 (uint32 20).toNat = response get := hbytes
  have hempty : t.socket.sendBuffer = [] := by rw [hsocket]
  have hne : response get ≠ [] := fun hnil => by
    have hlen := response_length get
    rw [hnil] at hlen
    cases hlen
  unfold responseSending
  simp only [hgen, Bool.false_eq_true, if_false, heq]
  rw [sendall_of_empty (t := { t with
    hasGenResp := true, packetSend := packetSend, packetSendLen := 20 }) hempty hpacket hne]
  have hsound : t.socket.Sound := .inr (by rw [hsocket])
  obtain ⟨hrest, hafter⟩ := hsound.rest_sendV hempty (response get)
  unfold Inv
  simp only [hstate]
  refine ⟨hranged, .inl ⟨hphase, rfl⟩, rfl, hcode, ?_, ?_, hafter, hzero⟩
  · rw [ServerSocket.sendV_of_empty hempty]
    exact hne
  · simp only [ServerSocket.sendV_wire, hrest]
    rw [hsocket, List.nil_append]

theorem inv_requestProcessing (h : Inv get block t) (hphase : t.phase = .processing)
    (hstate : t.state = .requestProcessing) {maxBlockSize : ℤ} (hvalid : ¬ Invalid get maxBlockSize) :
    Inv get block (t.requestProcessing get maxBlockSize true) := by
  obtain ⟨-, -, hgen, hsocket, hzero⟩ := h.staged hstate
  have hranged : Ranged get := by
    unfold Invalid at hvalid
    exact ⟨by omega, by omega⟩
  unfold requestProcessing
  simp only [if_neg hvalid, if_true]
  exact inv_responseSending hranged hphase rfl rfl hgen hsocket hzero

theorem responseSending_of_busy (hgen : t.hasGenResp = true) (hbusy : t.socket.sendBuffer ≠ []) :
    t.responseSending get = { t with sending := true } := by
  unfold responseSending
  rw [if_pos hgen]
  exact sendall_of_busy hbusy _

/-- The task is called again and takes up the `Sendall` it left. -/
theorem inv_run (h : Inv get block t) (hphase : t.phase = .waiting) :
    Inv get block (t.step get block (.run false true)) := by
  have hstep {state : GetState} (hstate : t.state = state) :
      t.step get block (.run false true) = { t with phase := .processing }.resume get state := by
    subst hstate
    rfl
  cases hstate : t.state with
  | requestProcessing =>
    obtain ⟨-, hrest⟩ := h.staged hstate
    rw [hstep hstate, resume, Inv, hstate]
    exact ⟨RunPhase.noConfusion, hrest⟩
  | responseSending =>
    have hstaged := h.staged hstate
    have hsent : { t with phase := .processing }.responseSending get =
        { t with phase := .processing, sending := true } :=
      responseSending_of_busy hstaged.generated hstaged.busy
    rw [hstep hstate, resume, hsent, Inv, hstate]
    exact ⟨hstaged.ranged, .inl ⟨rfl, rfl⟩, hstaged.generated, hstaged.retcode, hstaged.busy,
      hstaged.parts, hstaged.sound, hstaged.iterations⟩
  | dataSending =>
    obtain ⟨hranged, hstream, hwhere⟩ := h.staged hstate
    rcases hwhere with ⟨hsock, -, hbusy⟩ | ⟨-, hrun, -⟩
    · have hsent : { t with phase := .processing }.sendall get t.realReadLen =
          { t with phase := .processing, sending := true } :=
        sendall_of_busy (t := { t with phase := .processing }) hsock _
      rw [hstep hstate, resume, if_pos (hbusy hphase), hsent, Inv, hstate]
      exact ⟨hranged, ⟨hstream.offset, hstream.bound, hstream.parts, hstream.sound⟩,
        .inl ⟨hsock, .inl ⟨rfl, rfl⟩, RunPhase.noConfusion⟩⟩
    · exact RunPhase.noConfusion (hphase.symm.trans hrun)
  | tasksessionEnd =>
    obtain ⟨hsending, -, hrest⟩ := h.staged hstate
    rw [hstep hstate, resume, Inv, hstate]
    exact ⟨hsending, RunPhase.noConfusion, hrest⟩

theorem inv_step (hin : InBlock get block) (h : Inv get block t) {i : Input} (hen : t.Enabled i)
    (hserved : Served get i) (hread : ReadsSucceed i) : Inv get block (t.step get block i) := by
  cases i with
  | run killed connected =>
    obtain ⟨rfl, rfl⟩ := hserved
    exact inv_run h hen
  | process maxBlockSize found =>
    obtain ⟨hphase, hstate, -⟩ := hen
    obtain ⟨hvalid, rfl⟩ := hserved
    exact inv_requestProcessing h hphase hstate hvalid
  | send r =>
    cases r with
    | bytes n =>
      obtain ⟨hphase, hsending, -⟩ := hen
      exact inv_send h hphase hsending n
    | error theErr =>
      obtain ⟨-, hsending, -⟩ := hen
      cases hserved
      exact inv_notSent h hsending
  | read ret part =>
    obtain ⟨hphase, hsending, hstate⟩ := hen
    cases hread
    obtain ⟨hranged, hstream, hwhere⟩ := h.staged hstate
    rcases hwhere with ⟨-, hactive, -⟩ | htop
    · rcases hactive with ⟨-, hsent⟩ | ⟨hwait, -⟩
      · exact (Bool.false_ne_true (hsending.symm.trans hsent)).elim
      · exact RunPhase.noConfusion (hphase.symm.trans hwait)
    · exact inv_readPacket hin hranged hstream hstate htop part

theorem Streamed.wire_prefix (h : Streamed get block t) (hranged : Ranged get) :
    t.socket.wire <+: wanted get block := by
  have hoffset := h.offset
  have hle := hranged.le
  have hstop : t.readOffset + (get.endPos.toInt + 1 - t.readOffset) = get.endPos.toInt + 1 := by omega
  have hall : wanted get block = t.socket.wire ++ t.socket.rest ++
      bytesAt block.data t.readOffset (get.endPos.toInt + 1 - t.readOffset).toNat := by
    rw [wanted, ← hstop, range_add _ (by omega), ← List.append_assoc, ← h.parts, hstop]
    rw [kMaxPacketSize] at hoffset
    omega
  rw [hall, List.append_assoc]
  exact List.prefix_append _ _

theorem Inv.correct (h : Inv get block t) (hle : get.start.toInt ≤ get.endPos.toInt) :
    Correct get block t := by
  have hlength : ((range get block (get.endPos.toInt + 1)).length : ℤ) =
      get.endPos.toInt - get.start.toInt + 1 := by
    rw [range, bytesAt_length]
    omega
  have hsize : (response get).length = clientGetResSize.toNat := response_length get
  have hpackets : 0 ≤ packets get := by
    rw [packets, kMaxPacketSize]
    omega
  cases hstate : t.state with
  | requestProcessing =>
    obtain ⟨hphase, -, -, hsocket, hzero⟩ := h.staged hstate
    refine ⟨?_, ?_, ?_, hsize, hlength⟩
    · rw [hsocket]
      exact List.nil_prefix
    · rw [hzero]
      exact hpackets
    · rintro (hend | hend)
      · exact GetState.noConfusion (hstate.symm.trans hend)
      · exact (hphase hend).elim
  | responseSending =>
    have hstaged := h.staged hstate
    refine ⟨⟨t.socket.rest ++ range get block (get.endPos.toInt + 1), ?_⟩, ?_, ?_, hsize, hlength⟩
    · rw [← List.append_assoc, hstaged.parts, wanted]
    · rw [hstaged.iterations]
      exact hpackets
    · rintro (hend | hend)
      · exact GetState.noConfusion (hstate.symm.trans hend)
      · rcases hstaged.active with ⟨hrun, -⟩ | ⟨hwait, -⟩
        · exact RunPhase.noConfusion (hrun.symm.trans hend)
        · exact RunPhase.noConfusion (hwait.symm.trans hend)
  | dataSending =>
    obtain ⟨hranged, hstream, hwhere⟩ := h.staged hstate
    refine ⟨hstream.wire_prefix hranged, hstream.bound, ?_, hsize, hlength⟩
    rintro (hend | hend)
    · exact GetState.noConfusion (hstate.symm.trans hend)
    · rcases hwhere with ⟨-, ⟨hrun, -⟩ | ⟨hwait, -⟩, -⟩ | ⟨-, hrun, -⟩
      · exact RunPhase.noConfusion (hrun.symm.trans hend)
      · exact RunPhase.noConfusion (hwait.symm.trans hend)
      · exact RunPhase.noConfusion (hrun.symm.trans hend)
  | tasksessionEnd =>
    obtain ⟨-, -, hwire, hbound⟩ := h.staged hstate
    exact ⟨hwire ▸ List.prefix_refl _, hbound, fun _ => hwire, hsize, hlength⟩

end Steps

/-! ## Runs -/

def construct (packetSend : ℤ → Byte) : ClientGetTask := { packetSend := packetSend }

/-- A granted request for a range inside the block is streamed exactly, in no more packets than its length
takes. -/
theorem run_streams_range {get : ClientGet} {block : Block} {packetSend : ℤ → Byte} {inputs : List Input}
    {t : ClientGetTask} (hle : get.start.toInt ≤ get.endPos.toInt) (hin : InBlock get block)
    (h : Reaches (ofFun (step get block)) (fun t i => t.Enabled i ∧ Served get i ∧ ReadsSucceed i)
      (construct packetSend) inputs t) : Correct get block t := by
  have hstart : Inv get block (construct packetSend) := ⟨RunPhase.noConfusion, rfl, rfl, rfl, rfl⟩
  have hinv : Inv get block t := by
    refine h.invariant (fun t i t' ht hok htaken => ?_) hstart
    subst htaken
    exact inv_step hin ht hok.1 hok.2.1 hok.2.2
  exact hinv.correct hle

def exampleGet (endPos : BitVec 32) : ClientGet := ⟨⟨36, 7, 0x0102, 0⟩, 1, 1, 0, endPos⟩

def exampleBlock (availDataSize : ℤ) (h : 0 ≤ availDataSize ∧ availDataSize < 2 ^ 31) : Block :=
  ⟨availDataSize, fun i => BitVec.ofInt 8 i, h⟩

/-- Three bytes, with a full socket after the first -/
theorem run_streams_three_bytes :
    ∃ t, Reaches (ofFun (step (exampleGet 2) (exampleBlock 3 (by decide))))
        (fun t i => t.Enabled i ∧ Served (exampleGet 2) i ∧ ReadsSucceed i) (construct fun _ => 0)
        [.run false true, .process 1024 true, .send (.bytes 20), .read 0 [], .send (.bytes 1),
          .send (.error 11), .run false true, .send (.bytes 2)] t ∧
      t.state = .tasksessionEnd ∧ Correct (exampleGet 2) (exampleBlock 3 (by decide)) t := by
  have hrun := reaches_of_allAllowed (step (exampleGet 2) (exampleBlock 3 (by decide)))
    (fun t i => t.Enabled i ∧ Served (exampleGet 2) i ∧ ReadsSucceed i) (construct fun _ => 0)
    [.run false true, .process 1024 true, .send (.bytes 20), .read 0 [], .send (.bytes 1),
      .send (.error 11), .run false true, .send (.bytes 2)] (by decide)
  exact ⟨_, hrun, by decide, run_streams_range (by decide) ⟨by decide, by decide⟩ hrun⟩

/-! ## A range that ends behind the block -/

/-- At the end of the block a turn of the loop reads nothing, sends nothing and comes back. -/
theorem readPacket_at_end {get : ClientGet} {block : Block} {t : ClientGetTask}
    (hend : block.availDataSize ≤ get.endPos.toInt) (hsmall : block.availDataSize + kMaxPacketSize < 2 ^ 31)
    (hstate : t.state = .dataSending) (htop : AtTop get t) (hoffset : t.readOffset = block.availDataSize)
    (part : List Byte) :
    (t.readPacket get block tfsSuccess part).state = .dataSending ∧
      AtTop get (t.readPacket get block tfsSuccess part) ∧
      (t.readPacket get block tfsSuccess part).readOffset = block.availDataSize ∧
      (t.readPacket get block tfsSuccess part).iterations = t.iterations + 1 := by
  obtain ⟨hempty, hphase, -, hle⟩ := htop
  have hrange := block.avail_range
  have hlt : get.endPos.toInt < 2 ^ 31 := BitVec.toInt_lt
  rw [kMaxPacketSize] at hsmall
  obtain ⟨len, hlenEq⟩ : ∃ len, packetLen get t.readOffset = len := ⟨_, rfl⟩
  have hlen : 0 < len ∧ len ≤ 8192 := by
    rw [← hlenEq, packetLen, hoffset, kMaxPacketSize, int32_of_range (by omega) (by omega)]
    split
    · rw [int32_of_range (v := get.endPos.toInt - block.availDataSize) (by omega) (by omega),
        int32_of_range (by omega) (by omega)]
      omega
    · omega
  have hnone : block.readLen t.readOffset len = 0 := by
    rw [Block.readLen, hoffset, if_neg (by omega), int32_of_range (by omega) (by omega), if_pos (by omega),
      Int.sub_self]
    rfl
  have hsuccess : ¬ (tfsSuccess < 0) := by decide
  have hread : (block.readRawData t.readOffset len tfsSuccess part t.packetSend).1 = tfsSuccess := by
    rw [Block.readRawData, if_neg (by omega), if_pos rfl]
  have hstay : int32 (t.readOffset + 0) = t.readOffset := by
    rw [Int.add_zero]
    exact int32_of_range (by omega) (by omega)
  have hnothing (buf : ℤ → Byte) : bytesAt buf 0 (uint32 0).toNat = [] := rfl
  unfold readPacket sendall sent
  simp only [hlenEq, hnone, hread, if_neg hsuccess, hstay, hnothing, ServerSocket.sendV_of_empty hempty,
    if_true, hstate, if_pos hle]
  exact ⟨trivial, ⟨rfl, hphase, rfl, hle⟩, hoffset, trivial⟩

/-- So it goes on as often as one likes. -/
theorem reaches_iterations {get : ClientGet} {block : Block} (hend : block.availDataSize ≤ get.endPos.toInt)
    (hsmall : block.availDataSize + kMaxPacketSize < 2 ^ 31) (k : ℕ) {t : ClientGetTask}
    (hstate : t.state = .dataSending) (htop : AtTop get t) (hoffset : t.readOffset = block.availDataSize) :
    ∃ t', Reaches (ofFun (step get block)) (fun t i => t.Enabled i ∧ Served get i ∧ ReadsSucceed i) t
      (List.replicate k (.read tfsSuccess [])) t' ∧ t'.iterations = t.iterations + k := by
  induction k generalizing t with
  | zero => exact ⟨t, .nil t, rfl⟩
  | succ k ih =>
    obtain ⟨hstate', htop', hoffset', hcount⟩ := readPacket_at_end hend hsmall hstate htop hoffset []
    obtain ⟨t', hrun, hsum⟩ := ih hstate' htop' hoffset'
    refine ⟨t', .cons ⟨⟨htop.2.1, htop.2.2.1, hstate⟩, trivial, rfl⟩ rfl hrun, ?_⟩
    omega

def shortBlock : Block := exampleBlock 2 (by decide)

/-- Up to the end of the block -/
def shortRun : List Input :=
  [.run false true, .process 1024 true, .send (.bytes 20), .read 0 [], .send (.bytes 2)]

/-- Of a block of two bytes three are asked for: no number bounds the turns of the loop. -/
theorem short_block_loops :
    ¬ ∃ bound, ∀ inputs t, Reaches (ofFun (step (exampleGet 2) shortBlock))
      (fun t i => t.Enabled i ∧ Served (exampleGet 2) i ∧ ReadsSucceed i) (construct fun _ => 0) inputs t →
      t.iterations ≤ bound := by
  rintro ⟨bound, hbound⟩
  obtain ⟨u, hu⟩ : ∃ u, u = shortRun.foldl (step (exampleGet 2) shortBlock) (construct fun _ => 0) :=
    ⟨_, rfl⟩
  have hrun := reaches_of_allAllowed (step (exampleGet 2) shortBlock)
    (fun t i => t.Enabled i ∧ Served (exampleGet 2) i ∧ ReadsSucceed i) (construct fun _ => 0) shortRun
    (by decide)
  have hstate : u.state = .dataSending := by rw [hu]; decide
  have htop : AtTop (exampleGet 2) u := by rw [hu]; exact ⟨by decide, by decide, by decide, by decide⟩
  have hoffset : u.readOffset = shortBlock.availDataSize := by rw [hu]; decide
  have hone : u.iterations = 1 := by rw [hu]; decide
  rw [← hu] at hrun
  obtain ⟨t, hmore, hcount⟩ := reaches_iterations (by decide) (by decide) bound hstate htop hoffset
  have hle := hbound _ t (hrun.append hmore)
  omega

end Tefs.DataServer.ClientGetTask
