import Tefs.DataServer.BlockFileManager
import Tefs.Lib.Runs
import Tefs.Lib.Segments

/-! # A client's PUT

Source: `src/DSClientPutTask.cpp`, with the messages of `message/ClientMessage.h` and
`message/Message.h`.

The task receives the bytes `start..end` of a block, lays them into the block in runs of at most
`kDataBufSize` bytes, answers the client, tells the name server and starts the replication. Each call
it makes on the socket and on the disk may end in any way: the result is an input of the step.
-/

namespace Tefs.DataServer
open Runs Segments
set_option autoImplicit false

/-! ## Messages -/

def kDataBufSize : ℕ := 1024

def putOk : ℤ := 200
def putError : ℤ := 400
def internalError : ℤ := 500

def clientPutType : ℤ := 0x0101

/-- `sizeof(ClientPutRes)` -/
def clientPutResSize : ℤ := 20

/-- What is left of `v` in a `SInt32`. -/
def int32 (v : ℤ) : ℤ := (v + 2 ^ 31) % 2 ^ 32 - 2 ^ 31

def uint32 (v : ℤ) : ℤ := v % 2 ^ 32

theorem int32_of_range {v : ℤ} (hle : -2 ^ 31 ≤ v) (hlt : v < 2 ^ 31) : int32 v = v := by
  rw [int32]
  omega

theorem uint32_of_range {v : ℤ} (hle : 0 ≤ v) (hlt : v < 2 ^ 32) : uint32 v = v := by
  rw [uint32]
  omega

structure Address where
  ip : List Byte
  port : ℤ
  deriving DecidableEq, Repr

/-- `address` is the memory behind the record. -/
structure ClientPut where
  requestId : ℤ
  fileid : ℤ
  chunkid : ℤ
  start : ℤ
  endPos : ℤ
  backupDataservernum : ℤ
  address : ℕ → Address
  fileid_range : -2 ^ 63 ≤ fileid ∧ fileid < 2 ^ 63
  chunkid_range : -2 ^ 31 ≤ chunkid ∧ chunkid < 2 ^ 31
  start_range : -2 ^ 31 ≤ start ∧ start < 2 ^ 31
  endPos_range : -2 ^ 31 ≤ endPos ∧ endPos < 2 ^ 31

structure ClientPutRes where
  length : ℤ
  requestId : ℤ
  type : ℤ
  encrypt : ℤ
  retcode : ℤ
  deriving DecidableEq, Repr

def ClientPut.size (put : ClientPut) : ℤ := put.endPos - put.start + 1

def ClientPut.contentLen (put : ClientPut) : ℤ := int32 (int32 (put.endPos - put.start) + 1)

def ClientPut.Invalid (put : ClientPut) (maxBlockSize : ℤ) : Prop :=
  put.fileid < 0 ∨ put.chunkid < 0 ∨ put.start < 0 ∨ put.endPos < put.start ∨
    maxBlockSize < put.contentLen ∨ maxBlockSize < put.start

instance (put : ClientPut) (maxBlockSize : ℤ) : Decidable (put.Invalid maxBlockSize) :=
  inferInstanceAs (Decidable (_ ∨ _))

/-! ## The task -/

/-- A call of `DataManagement::write_raw_data` and what it returned. -/
structure WriteCall extends Segment Byte where
  fileid : ℤ
  chunkid : ℤ
  result : ℤ
  deriving DecidableEq, Repr

structure PushTask where
  address : Address
  fileid : ℤ
  chunkid : ℤ
  start : ℤ
  endPos : ℤ
  deriving DecidableEq, Repr

inductive PutState
  | requestProcessing
  | dataReceiving
  | responseSending
  deriving DecidableEq, Repr

inductive RunPhase
  | waiting
  | processing
  | ended
  deriving DecidableEq, Repr

/-- `buffer` is `fRecvBuffer` up to `fBufferLen`, `packetSend` the answer once it is packed. The last
four fields are what the task did: the client's bytes it took, and its calls. -/
structure ClientPutTask where
  phase : RunPhase := .waiting
  state : PutState := .requestProcessing
  hasGenResp : Bool := false
  buffer : List Byte
  recvBlockdataOffset : ℤ := 0
  contentLen : ℤ := 0
  dataRecvLen : ℤ
  retcode : ℤ := 0
  packetSend : Option ClientPutRes := none
  received : List Byte
  writes : List WriteCall := []
  notices : List (ℤ × ℤ) := []
  pushes : List PushTask := []
  deriving DecidableEq, Repr

/-- The bytes behind a whole request in the session's buffer of `kReqBufSize = 1024` bytes. -/
structure Payload where
  data : List Byte
  fits : data.length < kDataBufSize

def ClientPutTask.construct (payload : Payload) : ClientPutTask :=
  { buffer := payload.data, dataRecvLen := payload.data.length, received := payload.data }

namespace ClientPutTask

def segments (t : ClientPutTask) : List (Segment Byte) := t.writes.map WriteCall.toSegment

def writeCall (put : ClientPut) (result : ℤ) (t : ClientPutTask) : WriteCall where
  offset := t.recvBlockdataOffset
  data := t.buffer
  fileid := put.fileid % 2 ^ 64
  chunkid := uint32 put.chunkid
  result := result

def writeRawData (put : ClientPut) (result : ℤ) (t : ClientPutTask) : ClientPutTask :=
  { t with writes := t.writes ++ [t.writeCall put result] }

def prepare (put : ClientPut) (t : ClientPutTask) : ClientPutTask :=
  { t with contentLen := put.contentLen, recvBlockdataOffset := put.start }

def requestProcessing (put : ClientPut) (maxBlockSize result : ℤ) (t : ClientPutTask) :
    ClientPutTask :=
  let t := t.prepare put
  if put.Invalid maxBlockSize then { t with retcode := putError, state := .responseSending }
  else if t.contentLen ≤ t.dataRecvLen then
    { t.writeRawData put result with
      retcode := if result < 0 then internalError else putOk, state := .responseSending }
  else { t with state := .dataReceiving }

def receive (bs : List Byte) (t : ClientPutTask) : ClientPutTask :=
  { t with buffer := t.buffer ++ bs, dataRecvLen := int32 (t.dataRecvLen + bs.length),
           received := t.received ++ bs }

/-- Behind the end of the block there is nothing more to wait for. -/
def limit (maxBlockSize : ℤ) (t : ClientPutTask) : ClientPutTask :=
  if uint32 maxBlockSize < uint32 (t.recvBlockdataOffset + t.buffer.length) then
    { t with dataRecvLen := t.contentLen }
  else t

def flush (put : ClientPut) (result : ℤ) (t : ClientPutTask) : ClientPutTask :=
  let t := t.writeRawData put result
  let t := if result < 0 then { t with retcode := internalError, state := .responseSending } else t
  { t with recvBlockdataOffset := int32 (t.recvBlockdataOffset + t.buffer.length), buffer := [] }

/-- The block of `kDataReceiving` after `Reads` has put `bs` behind the bytes of the buffer -/
def dataReceiving (put : ClientPut) (bs : List Byte) (maxBlockSize result : ℤ) (t : ClientPutTask) :
    ClientPutTask :=
  let t := (t.receive bs).limit maxBlockSize
  let t := if t.buffer.length = kDataBufSize ∨ t.contentLen ≤ t.dataRecvLen then t.flush put result
    else t
  if t.contentLen ≤ t.dataRecvLen then { t with state := .responseSending, retcode := putOk } else t

def packetClientPutResp (put : ClientPut) (t : ClientPutTask) : ClientPutTask :=
  if t.retcode = 0 then t
  else { t with packetSend := some ⟨clientPutResSize, put.requestId, clientPutType, 0, t.retcode⟩ }

def responseSending (put : ClientPut) (t : ClientPutTask) : ClientPutTask :=
  if t.hasGenResp then t
  else
    let t := if t.retcode = putOk then { t with notices := t.notices ++ [(put.fileid, put.chunkid)] }
      else t
    { t.packetClientPutResp put with hasGenResp := true }

def osNoErr : ℤ := 0
def eagain : ℤ := 11
def einprogress : ℤ := 115

def pushTask (put : ClientPut) (i : ℕ) : PushTask :=
  ⟨put.address i, put.fileid, put.chunkid, put.start, put.endPos⟩

/-- The end of `Run`, after `ProcessEvent` returned `theErr` -/
def leave (put : ClientPut) (theErr : ℤ) (t : ClientPutTask) : ClientPutTask :=
  if theErr = einprogress ∨ theErr = eagain then { t with phase := .waiting }
  else if theErr = osNoErr then
    let tasks := (List.range put.backupDataservernum.toNat).map (pushTask put)
    { t with phase := .ended, pushes := t.pushes ++ tasks }
  else { t with phase := .ended }

/-! ## Runs of the task -/

/-- `run`: the task is called, and the first two tests of `Run` and `ProcessEvent` come out so. The
others are the blocks of `ProcessEvent` with what their calls return; `readError` is a `Reads` without
bytes (`EAGAIN`, a close, an error). -/
inductive Input
  | run (killed connected : Bool)
  | process (maxBlockSize result : ℤ)
  | read (bs : List Byte) (maxBlockSize result : ℤ)
  | readError (theErr : ℤ)
  | send (theErr : ℤ)
  deriving DecidableEq, Repr

def step (put : ClientPut) (t : ClientPutTask) : Input → ClientPutTask
  | .run killed connected =>
    { t with phase := if killed ∨ ¬ connected then .ended else .processing }
  | .process maxBlockSize result => t.requestProcessing put maxBlockSize result
  | .read bs maxBlockSize result => t.dataReceiving put bs maxBlockSize result
  | .readError theErr => t.leave put theErr
  | .send theErr => (t.responseSending put).leave put theErr

/-- The inputs a task in this state can get. `MaxBlockSize` is set from a register response, and only
to a value that is not negative. -/
def Enabled (t : ClientPutTask) : Input → Prop
  | .run _ _ => t.phase = .waiting
  | .process maxBlockSize _ =>
    t.phase = .processing ∧ t.state = .requestProcessing ∧ 0 ≤ maxBlockSize ∧ maxBlockSize < 2 ^ 31
  | .read bs maxBlockSize _ =>
    t.phase = .processing ∧ t.state = .dataReceiving ∧ 0 < bs.length ∧
      t.buffer.length + bs.length ≤ kDataBufSize ∧ 0 ≤ maxBlockSize ∧ maxBlockSize < 2 ^ 31
  | .readError theErr => t.phase = .processing ∧ t.state = .dataReceiving ∧ theErr ≠ osNoErr
  | .send _ => t.phase = .processing ∧ t.state = .responseSending

instance (t : ClientPutTask) : ∀ i, Decidable (t.Enabled i)
  | .run _ _ => inferInstanceAs (Decidable (_ = _))
  | .process _ _ | .read _ _ _ | .readError _ | .send _ => inferInstanceAs (Decidable (_ ∧ _))

end ClientPutTask
end Tefs.DataServer
