import Tefs.DataServer.BitMap
import Tefs.Lib.Framing
import Tefs.Lib.Runs

/-! # The data server's session with the name server

Source: `Run` and `again` of `src/NameServersession.cpp`, `GetRequestLen` of `message/Message.h`,
`MessageTransaction` of `src/DSMessageProcess.cpp`, `Socket::Read` of `CommonUtilitiesLib/Socket.cpp`.

What comes from the name server is collected in `fRecvBuffer`. The length of a message is read from the
first four bytes of the buffer whether they have come or not; what is missing of them is left from the
message dispatched last. `again` gives up the connection and keeps the buffer.
-/

namespace Tefs.DataServer
open Runs Wire Framing
set_option autoImplicit false

/-! ## The session -/

inductive SessionState
  | initial
  | sendRegister
  | recvRegisterResponse
  | connected
  deriving DecidableEq, Repr

/-- `looping` says that `Run` is in one of its receive loops, `hung` that it does not leave the inner one.
`messages`, `received` and `dispatched` belong to the connection: the name server's messages, how many
bytes of them were read, and what `MessageTransaction` got. -/
structure NameServerSession where
  state : SessionState := .initial
  recvBuffer : ℤ → Byte := fun _ => 0
  recvLen : ℕ := 0
  socket : Bool := false
  looping : Bool := false
  hung : Bool := false
  messages : List (List Byte) := []
  received : ℕ := 0
  dispatched : List (List Byte) := []

namespace NameServerSession

def kReqBufSize : ℕ := 1024

/-- `(UInt32)GetRequestLen(fRecvBuffer)` -/
def requestLen (s : NameServerSession) : ℕ := (ofBigEndian 32 (bytesAt s.recvBuffer 0 4)).toNat

def Complete (s : NameServerSession) : Prop := 0 < s.recvLen ∧ s.requestLen ≤ s.recvLen

instance (s : NameServerSession) : Decidable s.Complete := inferInstanceAs (Decidable (_ ∧ _))

def again (s : NameServerSession) : NameServerSession := { s with state := .initial, socket := false }

/-- `MessageTransaction`, which returns a negative value unless `ok`, and the `memcpy` behind it -/
def dispatch (ok : Bool) (s : NameServerSession) : NameServerSession :=
  let len := s.requestLen
  let rest := s.recvLen - len
  let s := { s with dispatched := s.dispatched ++ [bytesAt s.recvBuffer 0 len] }
  let s := if ok then s else s.again
  { s with recvBuffer := lay s.recvBuffer 0 ((bytesAt s.recvBuffer len rest).map some), recvLen := rest }

/-- The inner loop of `kConnected` -/
def drain (ok : ℕ → Bool) : ℕ → ℕ → NameServerSession → NameServerSession
  | 0, _, s => if s.Complete then { s with hung := true } else s
  | rounds + 1, calls, s =>
    if s.Complete then drain ok rounds (calls + 1) (s.dispatch (ok calls)) else s

/-- As often as there are bytes, a loop that is not over then never is. -/
def drainAll (ok : ℕ → Bool) (s : NameServerSession) : NameServerSession := s.drain ok s.recvLen 0

def reads (n : ℕ) (s : NameServerSession) : NameServerSession :=
  { s with
    recvBuffer := lay s.recvBuffer s.recvLen (((s.messages.flatten.drop s.received).take n).map some)
    recvLen := s.recvLen + n
    received := s.received + n }

/-- What follows a `Reads` that brought nothing, in either loop -/
def process (ok : ℕ → Bool) (s : NameServerSession) : NameServerSession :=
  match s.state with
  | .recvRegisterResponse => if s.Complete then s.dispatch (ok 0) else s
  | .connected => s.drainAll ok
  | .initial | .sendRegister => s

end NameServerSession

/-! ## Runs -/

/-- `read`: `Reads` brings `n` bytes; `event` says whether the run has a read event, so that the loop of
`kConnected` follows the register response. `lost` is a call of `again` for another reason. -/
inductive SessionAction
  | connect (messages : List (List Byte))
  | registered
  | run
  | read (n : ℕ) (ok : ℕ → Bool) (event : Bool)
  | eagain (ok : ℕ → Bool)
  | readError (ok : ℕ → Bool)
  | lost

namespace NameServerSession

def step (s : NameServerSession) : SessionAction → NameServerSession
  | .connect messages =>
    { s with state := .sendRegister, socket := true, messages := messages, received := 0, dispatched := [] }
  | .registered => { s with state := .recvRegisterResponse, looping := true }
  | .run => { s with looping := true }
  | .read n ok event =>
    let s := s.reads n
    match s.state with
    | .recvRegisterResponse =>
      if s.Complete then { s.dispatch (ok 0) with state := .connected, looping := event } else s
    | .connected => s.drainAll ok
    | .initial | .sendRegister => s
  | .eagain ok => { s.process ok with looping := false }
  | .readError ok => { (s.process ok).again with looping := false }
  | .lost => s.again

/-- A message of the name server -/
structure Valid (message : List Byte) : Prop where
  lower : 16 ≤ message.length
  upper : message.length ≤ kReqBufSize
  len : (ofBigEndian 32 (message.take 4)).toNat = message.length

instance (message : List Byte) : Decidable (Valid message) :=
  decidable_of_iff (16 ≤ message.length ∧ message.length ≤ kReqBufSize ∧
    (ofBigEndian 32 (message.take 4)).toNat = message.length)
    ⟨fun h => ⟨h.1, h.2.1, h.2.2⟩, fun h => ⟨h.lower, h.upper, h.len⟩⟩

def Receiving (s : NameServerSession) : Prop := s.state = .recvRegisterResponse ∨ s.state = .connected

instance (s : NameServerSession) : Decidable s.Receiving := inferInstanceAs (Decidable (_ ∨ _))

def Enabled (s : NameServerSession) : SessionAction → Prop
  | .connect messages => s.state = .initial ∧ ∀ m ∈ messages, Valid m
  | .registered => s.state = .sendRegister
  | .run => s.Receiving ∧ s.looping = false ∧ s.socket = true
  | .read n _ _ => s.Receiving ∧ s.looping = true ∧ s.socket = true ∧ s.hung = false ∧ 0 < n ∧
      s.recvLen + n ≤ kReqBufSize ∧ s.received + n ≤ s.messages.flatten.length
  | .eagain _ | .readError _ => s.Receiving ∧ s.looping = true ∧ s.socket = true ∧ s.hung = false
  | .lost => s.state ≠ .initial ∧ s.looping = false

instance (s : NameServerSession) : ∀ a, Decidable (s.Enabled a)
  | .connect _ | .run | .read _ _ _ | .eagain _ | .readError _ | .lost => inferInstanceAs (Decidable (_ ∧ _))
  | .registered => inferInstanceAs (Decidable (_ = _))

/-! ## Framing -/

def unparsed (s : NameServerSession) : List Byte := bytesAt s.recvBuffer 0 s.recvLen

/-- On a connection the messages are dispatched in order and whole, what is received of the rest is in the
buffer, and a run that returns leaves no complete message there. A new connection starts with nothing. The
loops end, and have a socket to read from. -/
structure Correct (s : NameServerSession) : Prop where
  order : s.Receiving → s.dispatched <+: s.messages
  suffix : s.Receiving →
    s.unparsed = (s.messages.flatten.take s.received).drop s.dispatched.flatten.length
  prompt : s.Receiving → s.looping = false → s.dispatched = arrived s.messages s.received
  empty : ¬ s.Receiving → s.recvLen = 0
  ends : s.hung = false
  live : s.looping = true → s.socket = true

def later (s : NameServerSession) : List (List Byte) := s.messages.drop s.dispatched.length

/-- The messages that are complete with `n` more bytes -/
def fresh (s : NameServerSession) (n : ℕ) : List (List Byte) := arrived s.later (s.recvLen + n)

/-- What has then come of the next one -/
def part (s : NameServerSession) (n : ℕ) : List Byte :=
  (s.later.flatten.take (s.recvLen + n)).drop (s.fresh n).flatten.length

/-- The four bytes that stand at the front of the buffer before `part` is laid over them -/
def stale (s : NameServerSession) (fresh : List (List Byte)) : List Byte :=
  match fresh.getLast? with
  | some m => m.take 4
  | none => bytesAt s.recvBuffer 0 4

/-- `part`, with the stale bytes behind it, is not taken for a message. -/
def Waits (part stale : List Byte) : Prop :=
  part = [] ∨ part.length < (ofBigEndian 32 ((part ++ stale.drop part.length).take 4)).toNat

instance (part stale : List Byte) : Decidable (Waits part stale) := inferInstanceAs (Decidable (_ ∨ _))

/-- `MessageTransaction` does not fail, and what has come of the next message waits for the rest. -/
def Settles (s : NameServerSession) (n : ℕ) (ok : ℕ → Bool) : Prop :=
  (∀ i < (s.fresh n).length, ok i = true) ∧ Waits (s.part n) (s.stale (s.fresh n))

instance (s : NameServerSession) (n : ℕ) (ok : ℕ → Bool) : Decidable (s.Settles n ok) :=
  inferInstanceAs (Decidable (_ ∧ _))

/-- The register response is dispatched alone, and nothing complete is left behind it unless the loop of
`kConnected` follows. A connection is lost only between two messages. -/
def Clean (s : NameServerSession) : SessionAction → Prop
  | .read n ok event =>
    if s.state = .connected then s.Settles n ok
    else if s.fresh n = [] then Waits (s.part n) (s.stale [])
    else ok 0 = true ∧ ((s.fresh n).length = 1 ∨ event = true)
  | .eagain ok => s.state = .connected → s.Settles 0 ok
  | .readError ok => s.part 0 = [] ∧ (s.state = .connected → s.Settles 0 ok)
  | .lost => s.recvLen = 0
  | .connect _ | .registered | .run => True

instance (s : NameServerSession) : ∀ a, Decidable (s.Clean a)
  | .read _ _ _ => inferInstanceAs (Decidable (ite _ _ _))
  | .eagain _ => inferInstanceAs (Decidable (_ → _))
  | .readError _ => inferInstanceAs (Decidable (_ ∧ _))
  | .lost => inferInstanceAs (Decidable (_ = _))
  | .connect _ | .registered | .run => .isTrue trivial

end NameServerSession
end Tefs.DataServer
