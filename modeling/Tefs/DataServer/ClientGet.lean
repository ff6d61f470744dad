import Tefs.DataServer.Streaming
import Tefs.Message.RoundTrip

/-! # A client's GET

Source: `src/DSClientGetTask.{h,cpp}`.

The task answers the request and, if it grants it, streams the bytes `start..end` of the block in packets
of at most `kMaxPacketSize` bytes. It stops wherever the socket takes no more and goes on from there at
the next event. Offsets and lengths are `int32_t`.
-/

namespace Tefs.DataServer
open Runs Wire
open Message (ClientGet ClientGetRes)
set_option autoImplicit false

/-! ## The task -/

namespace ClientGetTask

def kMaxPacketSize : ℤ := 8192
def kReqBufSize : ℤ := 1024

def getOk : BitVec 32 := 200
def getError : BitVec 32 := 400
def notFound : BitVec 32 := 404

def clientGetType : BitVec 32 := 0x0102

/-- `sizeof(ClientGetRes)` -/
def clientGetResSize : BitVec 32 := 20

end ClientGetTask

inductive GetState
  | requestProcessing
  | responseSending
  | dataSending
  | tasksessionEnd
  deriving DecidableEq, Repr

/-- `packetSend` is the memory of `fPacketSend`. `sending` says that the task is inside `Sendall`, and
`iterations` counts the packets read. -/
structure ClientGetTask where
  phase : RunPhase := .waiting
  state : GetState := .requestProcessing
  hasGenResp : Bool := false
  retcode : BitVec 32 := 0
  packetSend : ℤ → Byte
  packetSendLen : ℤ := 0
  readOffset : ℤ := 0
  realReadLen : ℤ := 0
  busy : Bool := false
  socket : ServerSocket := {}
  sending : Bool := false
  iterations : ℕ := 0

namespace ClientGetTask

def Invalid (get : ClientGet) (maxBlockSize : ℤ) : Prop :=
  get.start.toInt < 0 ∨ get.endPos.toInt < get.start.toInt ∨
    maxBlockSize < int32 (int32 (get.endPos.toInt - get.start.toInt) + 1)

instance (get : ClientGet) (maxBlockSize : ℤ) : Decidable (Invalid get maxBlockSize) :=
  inferInstanceAs (Decidable (_ ∨ _))

def getRes (get : ClientGet) (retcode : BitVec 32) : ClientGetRes :=
  ⟨⟨⟨clientGetResSize, get.requestId, clientGetType, 0⟩, retcode⟩⟩

/-- `packet_client_get_resp` -/
def packetClientGetResp (get : ClientGet) (t : ClientGetTask) : ClientGetTask :=
  if t.retcode = 0 then t
  else
    match ((getRes get t.retcode).serialize kReqBufSize).exec ⟨t.packetSend, 0⟩ with
    | (.ok _, c) => { t with packetSend := c.data, packetSendLen := c.pos }
    | (.error _, c) => { t with packetSend := c.data }

/-- The end of `Run`, after `ProcessEvent` returned `theErr` -/
def leave (theErr : ℤ) (t : ClientGetTask) : ClientGetTask :=
  if theErr = ClientPutTask.einprogress ∨ theErr = ClientPutTask.eagain then { t with phase := .waiting }
  else { t with phase := .ended }

/-- `Sendall` has returned `OS_NoErr`. -/
def sent (get : ClientGet) (t : ClientGetTask) : ClientGetTask :=
  let t := { t with sending := false }
  match t.state with
  | .responseSending =>
    if t.retcode = getOk then { t with readOffset := get.start.toInt, state := .dataSending }
    else t.leave ClientPutTask.osNoErr
  | .dataSending =>
    let t := { t with busy := false }
    if t.readOffset ≤ get.endPos.toInt then t
    else { t with state := .tasksessionEnd }.leave ClientPutTask.eagain
  | .requestProcessing | .tasksessionEnd => t

/-- `Sendall` has returned an error. -/
def notSent (theErr : ℤ) (t : ClientGetTask) : ClientGetTask :=
  let t := { t with sending := false }
  match t.state with
  | .dataSending => { t with busy := true }.leave theErr
  | .requestProcessing | .responseSending | .tasksessionEnd => t.leave theErr

def sendall (get : ClientGet) (length : ℤ) (t : ClientGetTask) : ClientGetTask :=
  let t := { t with socket := t.socket.sendV (bytesAt t.packetSend 0 (uint32 length).toNat) }
  if t.socket.sendBuffer = [] then t.sent get else { t with sending := true }

def responseSending (get : ClientGet) (t : ClientGetTask) : ClientGetTask :=
  let t := if t.hasGenResp then t else { t.packetClientGetResp get with hasGenResp := true }
  t.sendall get t.packetSendLen

def requestProcessing (get : ClientGet) (maxBlockSize : ℤ) (found : Bool) (t : ClientGetTask) :
    ClientGetTask :=
  let retcode := if Invalid get maxBlockSize then getError else getOk
  { t with retcode := if found then retcode else notFound, state := .responseSending }.responseSending get

/-- `real_read_len` before the read -/
def packetLen (get : ClientGet) (readOffset : ℤ) : ℤ :=
  if get.endPos.toInt < int32 (readOffset + kMaxPacketSize) then
    int32 (int32 (get.endPos.toInt - readOffset) + 1)
  else kMaxPacketSize

/-- The block of the loop under `if(!busy)`, and the `Sendall` behind it -/
def readPacket (get : ClientGet) (block : Block) (ret : ℤ) (part : List Byte) (t : ClientGetTask) :
    ClientGetTask :=
  let nbytes := packetLen get t.readOffset
  let read := block.readRawData t.readOffset nbytes ret part t.packetSend
  let t := { t with
    realReadLen := block.readLen t.readOffset nbytes, packetSend := read.2, iterations := t.iterations + 1 }
  if read.1 < 0 then t.leave ClientPutTask.osNoErr
  else { t with readOffset := int32 (t.readOffset + t.realReadLen) }.sendall get t.realReadLen

/-- `ProcessEvent` goes on in `state`. -/
def resume (get : ClientGet) (t : ClientGetTask) : GetState → ClientGetTask
  | .requestProcessing => t
  | .responseSending => t.responseSending get
  | .dataSending => if t.busy then t.sendall get t.realReadLen else t
  | .tasksessionEnd => { t with phase := .ended }

/-! ## Runs -/

inductive Input
  | run (killed connected : Bool)
  | process (maxBlockSize : ℤ) (found : Bool)
  | send (r : SendResult)
  | read (ret : ℤ) (part : List Byte)
  deriving DecidableEq, Repr

def step (get : ClientGet) (block : Block) (t : ClientGetTask) : Input → ClientGetTask
  | .run killed connected =>
    if killed ∨ ¬ connected then { t with phase := .ended }
    else { t with phase := .processing }.resume get t.state
  | .process maxBlockSize found => t.requestProcessing get maxBlockSize found
  | .send (.bytes n) =>
    let t := { t with socket := t.socket.sendSendBuffer n }
    if t.socket.sendBuffer = [] then t.sent get else t
  | .send (.error theErr) => t.notSent theErr
  | .read ret part => t.readPacket get block ret part

/-- The inputs a task in this state can get -/
def Enabled (t : ClientGetTask) : Input → Prop
  | .run _ _ => t.phase = .waiting
  | .process maxBlockSize _ => t.phase = .processing ∧ t.state = .requestProcessing ∧
      0 ≤ maxBlockSize ∧ maxBlockSize < 2 ^ 31
  | .send (.bytes n) => t.phase = .processing ∧ t.sending = true ∧ 0 < n ∧ n ≤ t.socket.rest.length
  | .send (.error theErr) => t.phase = .processing ∧ t.sending = true ∧ theErr ≠ ClientPutTask.osNoErr
  | .read _ _ => t.phase = .processing ∧ t.sending = false ∧ t.state = .dataSending

instance (t : ClientGetTask) : ∀ i, Decidable (t.Enabled i)
  | .run _ _ => inferInstanceAs (Decidable (_ = _))
  | .process _ _ | .send (.bytes _) | .send (.error _) | .read _ _ => inferInstanceAs (Decidable (_ ∧ _))

end ClientGetTask
end Tefs.DataServer
