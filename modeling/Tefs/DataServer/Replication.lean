import Tefs.DataServer.PutAcknowledged
import Tefs.DataServer.Streaming
import Tefs.Message.RoundTrip

/-! # Replication of a range

Source: `src/DSPushTask.{h,cpp}`, `src/DSPutTask.{h,cpp}`, `src/DSTCPSession.cpp`, the case
`DS_BACKUP_CHUNK_PUSH` of `src/DSMessageProcess.cpp`, `Run` of `src/DSClientPutTask.cpp`.

When a PUT is over, one push task for each backup data server reads the range from the block and streams it
behind a header, in packets of `kMaxPacketSize` bytes. The session on the other side reads the header and
hands what came with it to a put task, which lays the bytes into its block.
-/

namespace Tefs.DataServer
open Runs Wire Segments
open Message (DsPush)
set_option autoImplicit false

/-! ## The sender -/

inductive PushState
  | initial
  | requestSending
  | dataSending
  | responseReceiving
  deriving DecidableEq, Repr

/-- Members the constructors leave as they are -/
structure Uninitialised where
  packetSend : ℤ → Byte
  pushRequestId : BitVec 32
  putRequestId : ℤ

/-- `recvBuffer` is `fRecvBuffer` up to `fBufferLen`. `sending` says that the task is inside `Sendall`. -/
structure DsPushTask where
  phase : RunPhase := .waiting
  state : PushState := .initial
  hasGenResp : Bool := false
  recvBuffer : List Byte := []
  packetSend : ℤ → Byte
  packetSendLen : ℤ := 0
  readOffset : ℤ
  realReadLen : ℤ := 0
  needSend : ℤ
  busy : Bool := false
  socket : ServerSocket := {}
  sending : Bool := false

namespace DsPushTask

def kMaxPacketSize : ℤ := 1024
def kReqBufSize : ℤ := 1024

def dsBackupChunkPush : BitVec 32 := 0x0103

/-- `sizeof(DsPush)` -/
def dsPushSize : BitVec 32 := 32

/-- `end-start+1` -/
def blocksize (p : PushTask) : ℤ := int32 (int32 (p.endPos - p.start) + 1)

def construct (p : PushTask) (memory : Uninitialised) : DsPushTask :=
  { packetSend := memory.packetSend, readOffset := p.start, needSend := uint32 (blocksize p) }

def dsPush (p : PushTask) (requestId : BitVec 32) : DsPush :=
  ⟨⟨dsPushSize, requestId, dsBackupChunkPush, 0⟩, BitVec.ofInt 64 p.fileid, BitVec.ofInt 32 p.chunkid,
    BitVec.ofInt 32 (blocksize p)⟩

/-- `packet_ds_backup_request` -/
def packetDsBackupRequest (p : PushTask) (requestId : BitVec 32) (t : DsPushTask) : DsPushTask :=
  match ((dsPush p requestId).serialize kReqBufSize).exec ⟨t.packetSend, 0⟩ with
  | (.ok _, c) => { t with packetSend := c.data, packetSendLen := c.pos }
  | (.error _, c) => { t with packetSend := c.data }

/-- The end of `Run`, after `ProcessEvent` returned `theErr` -/
def leave (theErr : ℤ) (t : DsPushTask) : DsPushTask :=
  if theErr = ClientPutTask.einprogress ∨ theErr = ClientPutTask.eagain then { t with phase := .waiting }
  else { t with phase := .ended }

/-- `Sendall` has returned `OS_NoErr`. -/
def sent (t : DsPushTask) : DsPushTask :=
  let t := { t with sending := false }
  match t.state with
  | .requestSending => { t with state := .dataSending }
  | .dataSending =>
    let t := { t with
      needSend := uint32 (t.needSend - t.realReadLen), readOffset := int32 (t.readOffset + t.realReadLen),
      busy := false }
    if 0 < t.needSend then t else { t with state := .responseReceiving }
  | .initial | .responseReceiving => t

/-- `Sendall` has returned an error. -/
def notSent (theErr : ℤ) (t : DsPushTask) : DsPushTask :=
  let t := { t with sending := false }
  match t.state with
  | .dataSending => { t with busy := t.busy || theErr == ClientPutTask.eagain }.leave theErr
  | .initial | .requestSending | .responseReceiving => t.leave theErr

def sendall (length : ℤ) (t : DsPushTask) : DsPushTask :=
  let t := { t with socket := t.socket.sendV (bytesAt t.packetSend 0 (uint32 length).toNat) }
  if t.socket.sendBuffer = [] then t.sent else { t with sending := true }

def requestSending (p : PushTask) (requestId : BitVec 32) (t : DsPushTask) : DsPushTask :=
  let t := if t.hasGenResp then t else { t.packetDsBackupRequest p requestId with hasGenResp := true }
  t.sendall t.packetSendLen

/-- `real_read_len` before the read -/
def packetLen (p : PushTask) (readOffset : ℤ) : ℤ :=
  if p.endPos < int32 (readOffset + kMaxPacketSize) then int32 (int32 (p.endPos - readOffset) + 1)
  else kMaxPacketSize

/-- The block of the loop under `if(!busy)`, and the `Sendall` behind it -/
def readPacket (p : PushTask) (block : Block) (ret : ℤ) (part : List Byte) (t : DsPushTask) : DsPushTask :=
  let nbytes := packetLen p t.readOffset
  let read := block.readRawData t.readOffset nbytes ret part t.packetSend
  let t := { t with realReadLen := block.readLen t.readOffset nbytes, packetSend := read.2 }
  if read.1 < 0 then t.leave ClientPutTask.osNoErr
  else { t with packetSendLen := t.realReadLen }.sendall t.realReadLen

/-- `ProcessEvent` goes on in `state`. -/
def resume (p : PushTask) (requestId : BitVec 32) (t : DsPushTask) : PushState → DsPushTask
  | .requestSending => t.requestSending p requestId
  | .dataSending => if t.busy then t.sendall t.packetSendLen else t
  | .initial | .responseReceiving => t

/-- `connect` is what `Connect` returns, `reply` and `replyError` what `Reads` does for the answer. -/
inductive Input
  | run (killed : Bool)
  | connect (theErr : ℤ)
  | send (r : SendResult)
  | read (ret : ℤ) (part : List Byte)
  | reply (bs : List Byte)
  | replyError (theErr : ℤ)
  deriving DecidableEq, Repr

/-- `fBufferLen >= GetRequestLen(fRecvBuffer)` -/
def Answered (recvBuffer : List Byte) : Prop :=
  (ofBigEndian 32 (recvBuffer.take 4)).toInt ≤ recvBuffer.length

instance (recvBuffer : List Byte) : Decidable (Answered recvBuffer) := inferInstanceAs (Decidable (_ ≤ _))

def step (p : PushTask) (requestId : BitVec 32) (block : Block) (t : DsPushTask) : Input → DsPushTask
  | .run killed =>
    if killed then { t with phase := .ended } else { t with phase := .processing }.resume p requestId t.state
  | .connect theErr =>
    let t := { t with state := .requestSending }
    if theErr = ClientPutTask.osNoErr then t.requestSending p requestId else t.leave theErr
  | .send (.bytes n) =>
    let t := { t with socket := t.socket.sendSendBuffer n }
    if t.socket.sendBuffer = [] then t.sent else t
  | .send (.error theErr) => t.notSent theErr
  | .read ret part => t.readPacket p block ret part
  | .reply bs =>
    let t := { t with recvBuffer := t.recvBuffer ++ bs }
    if t.recvBuffer.length < 4 then t
    else if Answered t.recvBuffer then t.leave ClientPutTask.osNoErr
    else t.leave ClientPutTask.eagain
  | .replyError theErr => t.leave theErr

/-- The inputs a task in this state can get -/
def Enabled (t : DsPushTask) : Input → Prop
  | .run _ => t.phase = .waiting
  | .connect _ => t.phase = .processing ∧ t.state = .initial
  | .send (.bytes n) => t.phase = .processing ∧ t.sending = true ∧ 0 < n ∧ n ≤ t.socket.rest.length
  | .send (.error theErr) => t.phase = .processing ∧ t.sending = true ∧ theErr ≠ ClientPutTask.osNoErr
  | .read _ _ => t.phase = .processing ∧ t.sending = false ∧ t.state = .dataSending
  | .reply bs => t.phase = .processing ∧ t.state = .responseReceiving ∧ 0 < bs.length ∧
      t.recvBuffer.length + bs.length ≤ kReqBufSize
  | .replyError theErr => t.phase = .processing ∧ t.state = .responseReceiving ∧
      theErr ≠ ClientPutTask.osNoErr

instance (t : DsPushTask) : ∀ i, Decidable (t.Enabled i)
  | .run _ => inferInstanceAs (Decidable (_ = _))
  | .connect _ | .send (.bytes _) | .send (.error _) | .read _ _ | .reply _ | .replyError _ =>
    inferInstanceAs (Decidable (_ ∧ _))

end DsPushTask

/-! ## The receiver -/

/-! `DSPutTask` has the members of `DSClientPutTask`, and its blocks are those of that task but for the ones
given here. -/

namespace DsPutTask

/-- `sizeof(DsPushRes)` -/
def dsPushResSize : ℤ := 20

def construct (data : List Byte) : ClientPutTask :=
  { buffer := data, dataRecvLen := data.length, received := data }

theorem int32_range (v : ℤ) : -2 ^ 31 ≤ int32 v ∧ int32 v < 2 ^ 31 := by
  rw [int32]
  omega

theorem zero_range : -2 ^ 31 ≤ (0 : ℤ) ∧ (0 : ℤ) < 2 ^ 31 := by decide

/-- A push as the PUT of a range from position 0 on -/
def asPut (m : DsPush) : ClientPut where
  requestId := 0
  fileid := m.fileid.toInt
  chunkid := m.chunkid.toInt
  start := 0
  endPos := int32 (m.blocksize.toInt - 1)
  backupDataservernum := 0
  address := fun _ => ⟨[], 0⟩
  fileid_range := ⟨BitVec.le_toInt _, BitVec.toInt_lt⟩
  chunkid_range := ⟨BitVec.le_toInt _, BitVec.toInt_lt⟩
  start_range := zero_range
  endPos_range := int32_range _

def Invalid (m : DsPush) (maxBlockSize : ℤ) : Prop :=
  m.fileid.toInt < 0 ∨ m.chunkid.toInt < 0 ∨ m.blocksize.toInt < 0 ∨ maxBlockSize < m.blocksize.toInt

instance (m : DsPush) (maxBlockSize : ℤ) : Decidable (Invalid m maxBlockSize) :=
  inferInstanceAs (Decidable (_ ∨ _))

def requestProcessing (m : DsPush) (maxBlockSize result : ℤ) (t : ClientPutTask) : ClientPutTask :=
  let t := { t with contentLen := m.blocksize.toInt, recvBlockdataOffset := 0 }
  if Invalid m maxBlockSize then { t with retcode := putError, state := .responseSending }
  else if t.contentLen ≤ t.dataRecvLen then
    { t.writeRawData (asPut m) result with
      retcode := if result < 0 then internalError else putOk, state := .responseSending }
  else { t with state := .dataReceiving }

def packetDsPushResp (requestId : ℤ) (t : ClientPutTask) : ClientPutTask :=
  if t.retcode = 0 then t
  else
    let res := ⟨dsPushResSize, requestId, DsPushTask.dsBackupChunkPush.toInt, 0, t.retcode⟩
    { t with packetSend := some res }

def responseSending (m : DsPush) (requestId : ℤ) (t : ClientPutTask) : ClientPutTask :=
  if t.hasGenResp then t
  else
    let t := if t.retcode = putOk then
        { t with notices := t.notices ++ [(m.fileid.toInt, m.chunkid.toInt)] }
      else t
    { packetDsPushResp requestId t with hasGenResp := true }

def leave (theErr : ℤ) (t : ClientPutTask) : ClientPutTask :=
  if theErr = ClientPutTask.einprogress ∨ theErr = ClientPutTask.eagain then { t with phase := .waiting }
  else { t with phase := .ended }

def step (m : DsPush) (requestId : ℤ) (t : ClientPutTask) : ClientPutTask.Input → ClientPutTask
  | .run killed connected =>
    { t with phase := if killed ∨ ¬ connected then .ended else .processing }
  | .process maxBlockSize result => requestProcessing m maxBlockSize result t
  | .read bs maxBlockSize result => t.dataReceiving (asPut m) bs maxBlockSize result
  | .readError theErr => leave theErr t
  | .send theErr => leave theErr (responseSending m requestId t)

end DsPutTask

/-! ## A transfer -/

/-- The push task, how much of its stream has come to the other side, the buffer of the session there, and
the put task with its request. -/
structure Transfer where
  task : PushTask
  memory : Uninitialised
  push : DsPushTask
  taken : ℕ := 0
  session : List Byte := []
  put : Option (DsPush × ClientPutTask) := none

namespace Transfer

/-- The next `n` bytes of the stream -/
def next (n : ℕ) (tr : Transfer) : List Byte := (tr.push.socket.wire.drop tr.taken).take n

/-- `MessageTransaction` for what the session has read; a request of another type, or one that is cut short,
starts no put task. -/
def messageTransaction (recvBuffer : List Byte) : Option (DsPush × ClientPutTask) :=
  if ofBigEndian 32 ((recvBuffer.drop 8).take 4) = DsPushTask.dsBackupChunkPush then
    match (DsPush.deserialize recvBuffer.length).exec ⟨fun q => recvBuffer.getD q.toNat 0, 0⟩ with
    | (.ok m, c) => some (m, DsPutTask.construct (recvBuffer.drop c.pos.toNat))
    | (.error _, _) => none
  else none

/-- The block of `kRequestReceiving` in `DSTCPSession`, after `Reads` brought `n` bytes -/
def requestReceiving (n : ℕ) (tr : Transfer) : Transfer :=
  let tr := { tr with session := tr.session ++ tr.next n, taken := tr.taken + n }
  if 4 ≤ tr.session.length ∧ (ofBigEndian 32 (tr.session.take 4)).toNat ≤ tr.session.length then
    { tr with put := messageTransaction tr.session }
  else tr

def start (p : PushTask) (memory : Uninitialised) : Transfer :=
  { task := p, memory := memory, push := .construct p memory }

/-- `arrive` is a `Reads` of the session, `read` one of the put task, and `put` any other input of it. -/
inductive Action
  | push (i : DsPushTask.Input)
  | arrive (n : ℕ)
  | read (n : ℕ) (maxBlockSize result : ℤ)
  | put (i : ClientPutTask.Input)
  deriving DecidableEq, Repr

def putStep (i : ClientPutTask.Input) (tr : Transfer) : Transfer :=
  { tr with put := tr.put.map fun (m, t) => (m, DsPutTask.step m tr.memory.putRequestId t i) }

def step (block : Block) (tr : Transfer) : Action → Transfer
  | .push i => { tr with push := tr.push.step tr.task tr.memory.pushRequestId block i }
  | .arrive n => tr.requestReceiving n
  | .read n maxBlockSize result =>
    let bs := tr.next n
    { tr with taken := tr.taken + n }.putStep (.read bs maxBlockSize result)
  | .put i => tr.putStep i

def isRead : ClientPutTask.Input → Bool
  | .read _ _ _ => true
  | .run _ _ | .process _ _ | .readError _ | .send _ => false

def Enabled (tr : Transfer) : Action → Prop
  | .push i => tr.push.Enabled i
  | .arrive n => tr.put = none ∧ 0 < n ∧ tr.session.length + n ≤ kDataBufSize ∧
      tr.taken + n ≤ tr.push.socket.wire.length
  | .read n maxBlockSize result => tr.taken + n ≤ tr.push.socket.wire.length ∧
      ∃ put ∈ tr.put, put.2.Enabled (.read (tr.next n) maxBlockSize result)
  | .put i => isRead i = false ∧ ∃ put ∈ tr.put, put.2.Enabled i

instance (tr : Transfer) : ∀ a, Decidable (tr.Enabled a)
  | .push i => inferInstanceAs (Decidable (tr.push.Enabled i))
  | .arrive _ | .read _ _ _ | .put _ => inferInstanceAs (Decidable (_ ∧ _))

end Transfer

/-! ## A PUT and its transfers -/

structure Replication where
  client : ClientPutTask
  transfers : List Transfer := []

namespace Replication

/-- `memory` is what the tasks that a step creates find in their members. -/
inductive Action
  | client (i : ClientPutTask.Input) (memory : ℕ → Uninitialised)
  | transfer (k : ℕ) (a : Transfer.Action)

def step (put : ClientPut) (block : Block) (r : Replication) : Action → Replication
  | .client i memory =>
    let client := r.client.step put i
    let pushes := client.pushes.drop r.client.pushes.length
    { client := client, transfers := r.transfers ++ pushes.mapIdx fun k p => .start p (memory k) }
  | .transfer k a => { r with transfers := r.transfers.modify k fun tr => tr.step block a }

def Enabled (r : Replication) : Action → Prop
  | .client i _ => r.client.Enabled i
  | .transfer k a => ∃ tr ∈ r.transfers[k]?, tr.Enabled a

instance (r : Replication) : ∀ a, Decidable (r.Enabled a)
  | .client i _ => inferInstanceAs (Decidable (r.client.Enabled i))
  | .transfer _ _ => inferInstanceAs (Decidable (∃ _, _))

end Replication
end Tefs.DataServer
