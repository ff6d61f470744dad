import Tefs.DataServer.Streaming
import Tefs.Lib.Runs

/-! # Messages through a socket

Source: `Sendall`, `SendV` and `SendSendBuffer` of `src/DSTCPServerSocket.cpp`.

A caller hands over one message after the other, and the same one again after an `EAGAIN`. What `Sendall` keeps
between two calls is the rest of the message in `fSendBuffer`.
-/

namespace Tefs.DataServer.SendAll
open Runs
set_option autoImplicit false

def kSendBufferLen : ℕ := 1024 * 16

/-- `accepted` counts the messages for which `Sendall` has returned `OS_NoErr`; `success` says that the last
call returned it and no other has begun. -/
structure Sender where
  socket : ServerSocket := {}
  accepted : ℕ := 0
  running : Bool := false
  success : Bool := false
  deriving DecidableEq, Repr

/-- What a turn of the loop of `SendSendBuffer` gets from `TCPSocket::Send` -/
inductive Action
  | sendall
  | sent (n : ℕ)
  | again
  deriving DecidableEq, Repr

variable (messages : List (List Byte))

def step (s : Sender) : Action → Sender
  | .sendall =>
    { s with socket := s.socket.sendV (messages.getD s.accepted []), running := true, success := false }
  | .sent n =>
    let socket := s.socket.sendSendBuffer n
    if socket.sendBuffer = [] then
      { s with socket := socket, accepted := s.accepted + 1, running := false, success := true }
    else { s with socket := socket }
  | .again => { s with running := false }

/-- `Send` takes at least a byte of what it is given, or nothing and says `EAGAIN`. -/
def Enabled (s : Sender) : Action → Prop
  | .sendall => s.running = false ∧ s.accepted < messages.length
  | .sent n => s.running = true ∧ 0 < n ∧ n ≤ s.socket.rest.length
  | .again => s.running = true

instance (s : Sender) : ∀ a, Decidable (Enabled messages s a)
  | .sendall | .sent _ => inferInstanceAs (Decidable (_ ∧ _))
  | .again => inferInstanceAs (Decidable (_ = _))

/-! ## The invariant -/

/-- Either nothing is buffered or the next message is, and what of it is not on the wire is still to be sent. -/
structure Inv (s : Sender) : Prop where
  sound : s.socket.Sound
  bound : s.accepted ≤ messages.length
  running : s.running = true → s.socket.sendBuffer ≠ []
  success : s.success = true → s.socket.sendBuffer = []
  buffer : s.socket.sendBuffer ≠ [] → s.accepted < messages.length ∧
    s.socket.sendBuffer = messages.getD s.accepted []
  wire : s.socket.wire ++ s.socket.rest = (messages.take s.accepted).flatten ++ s.socket.sendBuffer

variable {messages} {s : Sender}

theorem flatten_take_succ {k : ℕ} (hk : k < messages.length) :
    (messages.take (k + 1)).flatten = (messages.take k).flatten ++ messages.getD k [] := by
  rw [List.take_add_one, List.flatten_append, List.getD_eq_getElem?_getD, List.getElem?_eq_getElem hk,
    Option.toList_some, List.flatten_singleton, Option.getD_some]

theorem inv_start (messages : List (List Byte)) : Inv messages {} := by
  refine ⟨.inr rfl, Nat.zero_le _, fun h => ?_, fun h => ?_, fun h => absurd rfl h, rfl⟩
  · cases h
  · cases h

theorem Inv.sendall (h : Inv messages s) (hne : ∀ m ∈ messages, m ≠ []) (hen : Enabled messages s .sendall) :
    Inv messages (step messages s .sendall) := by
  obtain ⟨-, hlt⟩ := hen
  have hmem : messages.getD s.accepted [] ∈ messages := by
    rw [List.getD_eq_getElem?_getD, List.getElem?_eq_getElem hlt, Option.getD_some]
    exact List.getElem_mem hlt
  by_cases hempty : s.socket.sendBuffer = []
  · obtain ⟨hrest, hsound⟩ := h.sound.rest_sendV hempty (messages.getD s.accepted [])
    have hbuffer : (s.socket.sendV (messages.getD s.accepted [])).sendBuffer = messages.getD s.accepted [] := by
      rw [ServerSocket.sendV_of_empty hempty]
    have hwire := h.wire
    rw [ServerSocket.rest_of_empty hempty, hempty, List.append_nil, List.append_nil] at hwire
    refine ⟨hsound, h.bound, fun _ => ?_, fun hfalse => ?_, fun _ => ⟨hlt, hbuffer⟩, ?_⟩
    · rw [step, hbuffer]
      exact hne _ hmem
    · cases hfalse
    · simp only [step, ServerSocket.sendV_wire, hrest, hbuffer, hwire]
  · have hsame := ServerSocket.sendV_of_busy hempty (messages.getD s.accepted [])
    simp only [step, hsame]
    exact ⟨h.sound, h.bound, fun _ => hempty, fun hfalse => (Bool.false_ne_true hfalse).elim, h.buffer, h.wire⟩

theorem Inv.sent (h : Inv messages s) {n : ℕ} (hen : Enabled messages s (.sent n)) :
    Inv messages (step messages s (.sent n)) := by
  obtain ⟨hrunning, -, hn⟩ := hen
  obtain ⟨hlt, hbuffer⟩ := h.buffer (h.running hrunning)
  have hsound := s.socket.sendSendBuffer_sound n
  have hparts := (s.socket.sendSendBuffer_parts n).trans h.wire
  unfold step
  dsimp only
  split
  · next hdone =>
    rw [ServerSocket.rest_of_empty hdone, List.append_nil] at hparts
    refine ⟨hsound, hlt, fun hfalse => (Bool.false_ne_true hfalse).elim, fun _ => hdone, fun hne => absurd hdone hne, ?_⟩
    rw [ServerSocket.rest_of_empty hdone, hdone, flatten_take_succ hlt, List.append_nil, List.append_nil, hparts,
      hbuffer]
  · next hmore =>
    have hsame : (s.socket.sendSendBuffer n).sendBuffer = s.socket.sendBuffer :=
      s.socket.sendSendBuffer_sendBuffer n hmore
    refine ⟨hsound, h.bound, fun _ => hmore, fun htrue => ?_, fun _ => ⟨hlt, hsame.trans hbuffer⟩, ?_⟩
    · exact absurd (h.success htrue) (h.running hrunning)
    · rw [hparts, hsame]

theorem Inv.step (h : Inv messages s) (hne : ∀ m ∈ messages, m ≠ []) {a : Action} (hen : Enabled messages s a) :
    Inv messages (step messages s a) := by
  cases a with
  | sendall => exact h.sendall hne hen
  | sent n => exact h.sent hen
  | again =>
    exact ⟨h.sound, h.bound, fun hfalse => (Bool.false_ne_true hfalse).elim, h.success, h.buffer, h.wire⟩

theorem Inv.wire_isPrefix (h : Inv messages s) : s.socket.wire <+: messages.flatten := by
  have hfront : s.socket.wire <+: (messages.take s.accepted).flatten ++ s.socket.sendBuffer := ⟨_, h.wire⟩
  have htake (k : ℕ) : (messages.take k).flatten <+: messages.flatten := by
    refine ⟨(messages.drop k).flatten, ?_⟩
    rw [← List.flatten_append, List.take_append_drop]
  by_cases hempty : s.socket.sendBuffer = []
  · rw [hempty, List.append_nil] at hfront
    exact hfront.trans (htake _)
  · obtain ⟨hlt, hbuffer⟩ := h.buffer hempty
    rw [hbuffer, ← flatten_take_succ hlt] at hfront
    exact hfront.trans (htake _)

/-! ## Every pattern of sends -/

/-- At any time the wire holds a front part of the messages, after a success all that were accepted; and what is
copied to `fSendBuffer` fits. -/
theorem sendall_sends_once (hmessages : ∀ m ∈ messages, m ≠ [] ∧ m.length < kSendBufferLen) {as : List Action}
    (hrun : Reaches (ofFun (step messages)) (Enabled messages) {} as s) :
    s.socket.wire <+: messages.flatten ∧
      (s.success = true → s.socket.wire = (messages.take s.accepted).flatten) ∧
      s.socket.sendBuffer.length < kSendBufferLen := by
  have h : Inv messages s := by
    refine hrun.invariant ?_ (inv_start messages)
    intro s a s' hs hen htaken
    rw [← htaken]
    exact hs.step (fun m hm => (hmessages m hm).1) hen
  refine ⟨h.wire_isPrefix, fun hsuccess => ?_, ?_⟩
  · have hwire := h.wire
    rw [ServerSocket.rest_of_empty (h.success hsuccess), h.success hsuccess, List.append_nil, List.append_nil] at hwire
    exact hwire
  · by_cases hempty : s.socket.sendBuffer = []
    · rw [hempty]
      decide
    · obtain ⟨hlt, hbuffer⟩ := h.buffer hempty
      rw [hbuffer, List.getD_eq_getElem?_getD, List.getElem?_eq_getElem hlt, Option.getD_some]
      exact (hmessages _ (List.getElem_mem hlt)).2

/-- Two messages, the first in two parts with an `EAGAIN` between them -/
theorem sendall_sends_once_in_parts : ∃ s, Reaches (ofFun (step [[1, 2], [3]])) (Enabled [[1, 2], [3]]) {}
    [.sendall, .sent 1, .again, .sendall, .sent 1, .sendall, .again, .sendall, .sent 1] s ∧
    s.success = true ∧ s.socket.wire = [1, 2, 3] ∧ s.socket.wire <+: [[1, 2], [3]].flatten := by
  have hrun := reaches_of_allAllowed (step [[1, 2], [3]]) (Enabled [[1, 2], [3]]) {}
    [.sendall, .sent 1, .again, .sendall, .sent 1, .sendall, .again, .sendall, .sent 1] (by decide)
  exact ⟨_, hrun, by decide, by decide, (sendall_sends_once (by decide) hrun).1⟩

end Tefs.DataServer.SendAll
