import Tefs.DataServer.Streaming
import Tefs.Lib.Runs

/-! # The session with the name server

Source: `Run`, `again`, `AddMessageToQueue` and `GetMessageFromQueue` of `src/NameServersession.cpp`, `Sendall`,
`SendV` and `SendSendBuffer` of `src/DSTCPServerSocket.cpp`.

Other threads put notices into the queue while `Run` connects, registers, reads commands, sends a heartbeat and
sends the notices. What `Run` does up to its next system call or the next turn of its loop is one step.
-/

namespace Tefs.DataServer

/-! ## Sending a whole message -/

namespace ServerSocket

/-- `SendSendBuffer`, with what its calls of `Send` return; after them the kernel takes nothing. -/
def sendLoop : List SendResult → ServerSocket → ℤ × ServerSocket
  | [], s => (ClientPutTask.eagain, s)
  | .error theErr :: _, s => (theErr, s)
  | .bytes n :: results, s =>
    let s := s.sendSendBuffer n
    if n = 0 ∨ s.sendBuffer = [] then (ClientPutTask.osNoErr, { s with sendBuffer := [], sentLength := 0 })
    else sendLoop results s

def sendall (inData : List Byte) (results : List SendResult) (s : ServerSocket) : ℤ × ServerSocket :=
  let s := s.sendV inData
  if s.sendBuffer = [] then (ClientPutTask.osNoErr, s) else sendLoop results s

end ServerSocket

/-- `send` takes at least a byte of what it is given, or says why not. -/
def SendResult.Real : SendResult → Prop
  | .bytes n => 0 < n
  | .error theErr => theErr ≠ ClientPutTask.osNoErr

instance : ∀ r : SendResult, Decidable r.Real
  | .bytes _ => inferInstanceAs (Decidable (_ < _))
  | .error _ => inferInstanceAs (Decidable (_ ≠ _))

/-- How many bytes are taken before the first error -/
def taken : List SendResult → ℕ
  | .bytes n :: results => n + taken results
  | _ => 0

namespace ServerSocket

/-- The wire holds `base` and what of the buffered message was sent. -/
structure Carries (base : List Byte) (s : ServerSocket) : Prop where
  sound : s.Sound
  wire : s.wire = base ++ s.sendBuffer.take s.sentLength

variable {base : List Byte} {s : ServerSocket}

theorem Carries.wire_rest (h : Carries base s) : s.wire ++ s.rest = base ++ s.sendBuffer := by
  rw [h.wire, rest, List.append_assoc, List.take_append_drop]

theorem carries_of_wire_rest (hsound : s.Sound) (h : s.wire ++ s.rest = base ++ s.sendBuffer) : Carries base s := by
  refine ⟨hsound, ?_⟩
  rw [rest, ← List.take_append_drop s.sentLength s.sendBuffer, ← List.append_assoc, List.take_append_drop] at h
  exact List.append_cancel_right h

theorem Carries.sendV (h : Carries base s) (inData : List Byte) : Carries base (s.sendV inData) := by
  by_cases hempty : s.sendBuffer = []
  · obtain ⟨hrest, hsound⟩ := h.sound.rest_sendV hempty inData
    refine carries_of_wire_rest hsound ?_
    have hwire := h.wire
    rw [hempty, List.take_nil, List.append_nil] at hwire
    rw [sendV_wire, hrest, sendV_of_empty hempty, hwire]
  · rw [sendV_of_busy hempty]
    exact h

/-- A turn of the loop sends all that is left or leaves the same message with more of it sent. -/
theorem Carries.sendSendBuffer (h : Carries base s) (n : ℕ) :
    ((s.sendSendBuffer n).sendBuffer = [] ∧ Carries (base ++ s.sendBuffer) (s.sendSendBuffer n)) ∨
      ((s.sendSendBuffer n).sendBuffer = s.sendBuffer ∧ Carries base (s.sendSendBuffer n)) := by
  have hsound := s.sendSendBuffer_sound n
  have hparts := (s.sendSendBuffer_parts n).trans h.wire_rest
  by_cases hdone : (s.sendSendBuffer n).sendBuffer = []
  · refine .inl ⟨hdone, carries_of_wire_rest hsound ?_⟩
    rw [hparts, hdone, List.append_nil]
  · have hsame := s.sendSendBuffer_sendBuffer n hdone
    refine .inr ⟨hsame, carries_of_wire_rest hsound ?_⟩
    rw [hparts, hsame]

/-- What a call of `Sendall` leaves: all of the buffered message was sent, or an error was returned and the message
is still there. -/
structure Attempt (base message : List Byte) (result : ℤ × ServerSocket) : Prop where
  done : result.1 = ClientPutTask.osNoErr → result.2.sendBuffer = [] ∧ Carries (base ++ message) result.2
  left : result.1 ≠ ClientPutTask.osNoErr → result.2.sendBuffer = message ∧ Carries base result.2

theorem sendLoop_nil (s : ServerSocket) : (s.sendLoop []).1 ≠ ClientPutTask.osNoErr :=
  show ClientPutTask.eagain ≠ ClientPutTask.osNoErr by decide

theorem Carries.sendLoop (h : Carries base s) (hne : s.sendBuffer ≠ []) {results : List SendResult}
    (hreal : ∀ r ∈ results, r.Real) : Attempt base s.sendBuffer (s.sendLoop results) := by
  induction results generalizing s with
  | nil => exact ⟨fun hzero => absurd hzero (sendLoop_nil s), fun _ => ⟨rfl, h⟩⟩
  | cons r results ih =>
    have hr := hreal r List.mem_cons_self
    have hrest := fun r hr => hreal r (List.mem_cons_of_mem _ hr)
    cases r with
    | error theErr => exact ⟨fun hzero => absurd hzero hr, fun _ => ⟨rfl, h⟩⟩
    | bytes n =>
      have hpos : n ≠ 0 := Nat.pos_iff_ne_zero.mp hr
      rw [ServerSocket.sendLoop]
      obtain ⟨hdone, hcarries⟩ | ⟨hsame, hcarries⟩ := h.sendSendBuffer n
      · rw [if_pos (.inr hdone)]
        refine ⟨fun _ => ⟨rfl, ⟨.inr rfl, ?_⟩⟩, fun hzero => absurd rfl hzero⟩
        rw [hcarries.wire, hdone, List.take_nil, List.take_nil]
      · rw [if_neg (not_or.mpr ⟨hpos, hsame ▸ hne⟩), ← hsame]
        exact ih hcarries (hsame ▸ hne) hrest

theorem Carries.sendall (h : Carries base s) (inData : List Byte) {results : List SendResult}
    (hreal : ∀ r ∈ results, r.Real) :
    Attempt base (s.sendV inData).sendBuffer (s.sendall inData results) := by
  have hv := h.sendV inData
  rw [ServerSocket.sendall]
  by_cases hempty : (s.sendV inData).sendBuffer = []
  · rw [if_pos hempty]
    refine ⟨fun _ => ⟨hempty, ?_⟩, fun hzero => absurd rfl hzero⟩
    rw [hempty, List.append_nil]
    exact hv
  · rw [if_neg hempty]
    exact hv.sendLoop hempty hreal

theorem rest_sendSendBuffer (s : ServerSocket) (n : ℕ) :
    s.rest.length ≤ n + (s.sendSendBuffer n).rest.length := by
  have hlen := s.rest_length
  unfold sendSendBuffer
  by_cases hmore : 0 < s.sendBuffer.length - (s.sentLength + n)
  · simp only [if_pos hmore, rest_length]
    omega
  · simp only [if_neg hmore]
    omega

/-- A call that succeeds has sent all that was buffered. -/
theorem taken_of_sendLoop {results : List SendResult} (hreal : ∀ r ∈ results, r.Real)
    (hdone : (s.sendLoop results).1 = ClientPutTask.osNoErr) : s.rest.length ≤ taken results := by
  induction results generalizing s with
  | nil => exact absurd hdone (sendLoop_nil s)
  | cons r results ih =>
    have hr := hreal r List.mem_cons_self
    have hrest := fun r hr => hreal r (List.mem_cons_of_mem _ hr)
    cases r with
    | error theErr => exact absurd hdone hr
    | bytes n =>
      have hpos : n ≠ 0 := Nat.pos_iff_ne_zero.mp hr
      have hle := s.rest_sendSendBuffer n
      rw [taken]
      by_cases hempty : (s.sendSendBuffer n).sendBuffer = []
      · rw [rest_of_empty hempty, List.length_nil] at hle
        omega
      · rw [sendLoop, if_neg (not_or.mpr ⟨hpos, hempty⟩)] at hdone
        have hnext := ih hrest hdone
        omega

end ServerSocket

/-! ## The session -/

inductive NoticeState
  | kInitial
  | kSendRegister
  | kRecvRegisterResponse
  | kConnected
  deriving DecidableEq, Repr

/-- The events `Run` looks at -/
structure Events where
  read : Bool := false
  idle : Bool := false
  write : Bool := false
  deriving DecidableEq, Repr

/-- Where `Run` is. `crashed`: it has used `fSocket` while that was `NULL`. -/
inductive Point
  | returned
  | initial
  | sendRegister
  | recvResponse
  | readCommands
  | heartbeat
  | notices
  | crashed
  deriving DecidableEq, Repr

/-- A connection that was closed: all that was sent on it, and the heartbeats that `Run` took for sent. -/
structure Connection where
  wire : List Byte
  counted : List (List Byte)
  deriving DecidableEq, Repr

/-- The fields of the session, and after `events` what is kept for the statements only: all the notices that were
put into the queue, all the packets made in `fPacketSend`, the heartbeats counted on this connection and the
connections before. -/
structure NoticeSession where
  fState : NoticeState := .kInitial
  socket : Option ServerSocket := none
  packetSend : List Byte := []
  mulIdleTime : ℤ := 0
  messageQueue : List (List Byte) := []
  resMessage : Option (List Byte) := none
  sendbusy : Bool := false
  point : Point := .returned
  events : Events := {}
  put : List (List Byte) := []
  packed : List (List Byte) := []
  counted : List (List Byte) := []
  closed : List Connection := []
  deriving DecidableEq, Repr

/-- A turn of a loop that reads: what `Reads` returns, and what `MessageTransaction` returns for each message that
is complete then. -/
structure ReadTurn where
  theErr : ℤ
  messages : List ℤ := []
  deriving DecidableEq, Repr

/-- What a step of `Run` gets from outside: the results of the system calls, and the bytes that
`packet_dataserver_resgister` or `packet_dataserver_heatbeat` puts into `fPacketSend`. After `reads` there is nothing
more to read. -/
structure Results where
  openErr : ℤ := ClientPutTask.osNoErr
  connectErr : ℤ := ClientPutTask.osNoErr
  packet : List Byte := []
  sends : List SendResult := []
  reads : List ReadTurn := []
  deriving DecidableEq, Repr

namespace NoticeSession
open ClientPutTask Runs
set_option autoImplicit false

def idleTime : ℤ := 5000

def addMessageToQueue (packet : List Byte) (s : NoticeSession) : NoticeSession :=
  { s with messageQueue := s.messageQueue ++ [packet], put := s.put ++ [packet] }

def getMessageFromQueue (s : NoticeSession) : NoticeSession :=
  { s with resMessage := s.messageQueue.head?, messageQueue := s.messageQueue.tail }

def again (s : NoticeSession) : NoticeSession :=
  { s with
    fState := .kInitial
    sendbusy := false
    socket := none
    counted := []
    closed := s.closed ++ s.socket.toList.map fun k => ⟨k.wire, s.counted⟩ }

def goTo (point : Point) (s : NoticeSession) : NoticeSession := { s with point := point }

def pack (packet : List Byte) (s : NoticeSession) : NoticeSession :=
  { s with packetSend := packet, packed := s.packed ++ [packet] }

/-- `fSocket->RequestEvent`, after which `Run` goes on at `point` -/
def requestEvent (point : Point) (s : NoticeSession) : NoticeSession :=
  s.goTo (if s.socket.isSome then point else .crashed)

def openSocket (s : NoticeSession) : NoticeSession :=
  if s.socket.isSome then s else { s with socket := some {}, counted := [] }

def runInitial (r : Results) (s : NoticeSession) : NoticeSession :=
  let s := s.openSocket
  if r.openErr ≠ osNoErr then s.goTo .returned
  else
    let s := s.pack r.packet
    if r.connectErr = osNoErr then { s with fState := .kSendRegister, point := .sendRegister }
    else if r.connectErr = einprogress ∨ r.connectErr = eagain then
      { s with fState := .kSendRegister, point := .returned }
    else s.again.goTo .returned

def runSendRegister (r : Results) (s : NoticeSession) : NoticeSession :=
  match s.socket with
  | none => s.goTo .crashed
  | some k =>
    let (theErr, k) := k.sendall s.packetSend r.sends
    let s := { s with socket := some k }
    if theErr = eagain then { s with packetSend := [], point := .returned }
    else if theErr ≠ osNoErr then s.again.goTo .returned
    else { s with fState := .kRecvRegisterResponse, point := .recvResponse }

/-- The loop that waits for the response, left at the first message -/
def responseLoop : List ReadTurn → NoticeSession → ℤ × NoticeSession
  | [], s => (eagain, s)
  | turn :: turns, s =>
    match turn.messages with
    | [] => if turn.theErr = osNoErr then responseLoop turns s else (turn.theErr, s)
    | ret :: _ => (turn.theErr, if ret < 0 then s.again else s)

def runRecvResponse (r : Results) (s : NoticeSession) : NoticeSession :=
  if s.socket.isSome then
    let (theErr, s) := responseLoop r.reads s
    if theErr = eagain then s.requestEvent .returned
    else if theErr ≠ osNoErr then s.again.goTo .returned
    else { s with fState := .kConnected }.requestEvent .readCommands
  else s.goTo .crashed

/-- `MessageTransaction` looks at the socket for each message. -/
def commands : List ℤ → NoticeSession → Option NoticeSession
  | [], s => some s
  | ret :: rets, s =>
    if s.socket.isSome then commands rets (if ret < 0 then s.again else s) else none

def readLoop : List ReadTurn → NoticeSession → Option (ℤ × NoticeSession)
  | [], s => if s.socket.isSome then some (eagain, s) else none
  | turn :: turns, s =>
    if s.socket.isSome then
      match commands turn.messages s with
      | none => none
      | some s => if turn.theErr = osNoErr then readLoop turns s else some (turn.theErr, s)
    else none

def runReadCommands (r : Results) (s : NoticeSession) : NoticeSession :=
  if s.events.read then
    match readLoop r.reads s with
    | none => s.goTo .crashed
    | some (theErr, s) => if theErr = eagain then s.goTo .heartbeat else s.again.goTo .returned
  else s.goTo .heartbeat

/-- The test in front of the loop that sends the notices -/
def toNotices (s : NoticeSession) : NoticeSession :=
  s.goTo (if s.events.write ∨ s.sendbusy then .notices else .returned)

def idled (s : NoticeSession) : NoticeSession := { s with mulIdleTime := s.mulIdleTime + idleTime }

def sendHeartbeat (r : Results) (s : NoticeSession) : NoticeSession :=
  let s := { s with mulIdleTime := 0 }.pack r.packet
  match s.socket with
  | none => s.goTo .crashed
  | some k =>
    let (theErr, k) := k.sendall s.packetSend r.sends
    let s := { s with socket := some k }
    if theErr = eagain then s.goTo .returned
    else if theErr ≠ osNoErr then s.again.goTo .returned
    else { s with counted := s.counted ++ [s.packetSend] }.idled.toNotices

def runHeartbeat (heartBeatTime : ℤ) (r : Results) (s : NoticeSession) : NoticeSession :=
  if s.events.idle then
    if heartBeatTime ≤ s.mulIdleTime then s.sendHeartbeat r else s.idled.toNotices
  else s.toNotices

def sendNotice (message : List Byte) (r : Results) (s : NoticeSession) : NoticeSession :=
  match s.socket with
  | none => s.goTo .crashed
  | some k =>
    let (theErr, k) := k.sendall message r.sends
    let s := { s with socket := some k }
    if theErr = eagain then { s with sendbusy := true, point := .returned }
    else
      let s := { s with sendbusy := false, resMessage := none }
      if theErr ≠ osNoErr then s.again.goTo .returned else s

/-- A turn of the loop that sends the notices; with `sendbusy` and no message it would turn for ever. -/
def runNotices (r : Results) (s : NoticeSession) : NoticeSession :=
  let s := if s.sendbusy then s else s.getMessageFromQueue
  match s.resMessage with
  | none => if s.sendbusy then s else s.requestEvent .returned
  | some message => s.sendNotice message r

/-- Where `Run` begins, and goes on, with a given state -/
def entry : NoticeState → Point
  | .kInitial => .initial
  | .kSendRegister => .sendRegister
  | .kRecvRegisterResponse => .recvResponse
  | .kConnected => .readCommands

/-- `put`: another thread adds a notice. `run`: the task thread calls `Run`, which it does not while `Run` is
running. `go`: `Run` takes its next step. -/
inductive Action
  | put (packet : List Byte)
  | run (events : Events)
  | go (r : Results)
  deriving DecidableEq, Repr

def step (heartBeatTime : ℤ) (s : NoticeSession) : Action → NoticeSession
  | .put packet => s.addMessageToQueue packet
  | .run events =>
    if s.point = .returned then { s with events := events, point := entry s.fState } else s
  | .go r =>
    match s.point with
    | .returned => s
    | .initial => s.runInitial r
    | .sendRegister => s.runSendRegister r
    | .recvResponse => s.runRecvResponse r
    | .readCommands => s.runReadCommands r
    | .heartbeat => s.runHeartbeat heartBeatTime r
    | .notices => s.runNotices r
    | .crashed => s

end NoticeSession

end Tefs.DataServer
