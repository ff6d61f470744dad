import Tefs.DataServer.ClientPut
import Tefs.DataServer.DataHandle
import Tefs.Lib.Wire

/-! # Block data on their way to a socket

Source: `Sendall`, `SendV` and `SendSendBuffer` of `src/DSTCPServerSocket.cpp`, `Socket::Send` of
`CommonUtilitiesLib/Socket.cpp`, `LogicBlock::read_raw_data` of `diskmanager/src/logic_block.cpp`.

A task that streams a block reads it packet by packet and hands each packet to the socket, which keeps
what the kernel does not take at once.
-/

namespace Tefs.DataServer
open Wire
set_option autoImplicit false

/-! ## The socket -/

/-- What `Socket::Send` returns: how many bytes were taken, or an error, `EAGAIN` among them. -/
inductive SendResult
  | bytes (n : ℕ)
  | error (theErr : ℤ)
  deriving DecidableEq, Repr

/-- `fSendBuffer` up to its length, `fSentLength`, and all that was taken. -/
structure ServerSocket where
  sendBuffer : List Byte := []
  sentLength : ℕ := 0
  wire : List Byte := []
  deriving DecidableEq, Repr

namespace ServerSocket

/-- What of a message did not go out stays, and the next message is not looked at. -/
def sendV (inData : List Byte) (s : ServerSocket) : ServerSocket :=
  if s.sendBuffer = [] then { s with sendBuffer := inData } else s

def rest (s : ServerSocket) : List Byte := s.sendBuffer.drop s.sentLength

/-- A turn of the loop of `SendSendBuffer` in which `n` bytes are taken -/
def sendSendBuffer (n : ℕ) (s : ServerSocket) : ServerSocket :=
  let s := { s with wire := s.wire ++ s.rest.take n, sentLength := s.sentLength + n }
  if 0 < s.sendBuffer.length - s.sentLength then s else { s with sendBuffer := [], sentLength := 0 }

/-- Between two calls either nothing is buffered or something of it is still to be sent. -/
def Sound (s : ServerSocket) : Prop := s.sentLength < s.sendBuffer.length ∨ s.sentLength = 0

@[simp] theorem sendV_wire (inData : List Byte) (s : ServerSocket) : (s.sendV inData).wire = s.wire := by
  unfold sendV
  split
  · rfl
  · rfl

theorem sendV_of_empty {s : ServerSocket} (hempty : s.sendBuffer = []) (inData : List Byte) :
    s.sendV inData = { s with sendBuffer := inData } := if_pos hempty

theorem sendV_of_busy {s : ServerSocket} (hbusy : s.sendBuffer ≠ []) (inData : List Byte) :
    s.sendV inData = s := if_neg hbusy

theorem rest_of_empty {s : ServerSocket} (hempty : s.sendBuffer = []) : s.rest = [] := by
  rw [rest, hempty, List.drop_nil]

theorem Sound.rest_sendV {s : ServerSocket} (h : s.Sound) (hempty : s.sendBuffer = []) (inData : List Byte) :
    (s.sendV inData).rest = inData ∧ (s.sendV inData).Sound := by
  have hzero : s.sentLength = 0 := by
    rcases h with hlt | hzero
    · rw [hempty] at hlt
      exact (Nat.not_lt_zero _ hlt).elim
    · exact hzero
  rw [sendV_of_empty hempty]
  refine ⟨?_, .inr hzero⟩
  rw [rest, hzero, List.drop_zero]

theorem rest_length (s : ServerSocket) : s.rest.length = s.sendBuffer.length - s.sentLength :=
  List.length_drop

/-- What is taken comes from what was to be sent. -/
theorem sendSendBuffer_parts (s : ServerSocket) (n : ℕ) :
    (s.sendSendBuffer n).wire ++ (s.sendSendBuffer n).rest = s.wire ++ s.rest := by
  have hlen := s.rest_length
  unfold sendSendBuffer
  by_cases hmore : 0 < s.sendBuffer.length - (s.sentLength + n)
  · simp only [if_pos hmore, rest, ← List.drop_drop, List.append_assoc, List.take_append_drop]
  · simp only [if_neg hmore]
    rw [List.take_of_length_le (by omega)]
    exact List.append_nil _

theorem sendSendBuffer_sendBuffer (s : ServerSocket) (n : ℕ) (hmore : (s.sendSendBuffer n).sendBuffer ≠ []) :
    (s.sendSendBuffer n).sendBuffer = s.sendBuffer := by
  unfold sendSendBuffer at hmore ⊢
  dsimp only at hmore ⊢
  split
  · rfl
  · next hdone =>
    rw [if_neg hdone] at hmore
    exact absurd rfl hmore

theorem wire_sendSendBuffer (s : ServerSocket) (n : ℕ) : s.wire <+: (s.sendSendBuffer n).wire := by
  unfold sendSendBuffer
  dsimp only
  split
  · exact List.prefix_append _ _
  · exact List.prefix_append _ _

theorem sendSendBuffer_sound (s : ServerSocket) (n : ℕ) : (s.sendSendBuffer n).Sound := by
  unfold sendSendBuffer
  by_cases hmore : 0 < s.sendBuffer.length - (s.sentLength + n)
  · simp only [if_pos hmore]
    exact .inl (by simp only; omega)
  · simp only [if_neg hmore]
    exact .inr rfl

end ServerSocket

/-! ## The block -/

/-- A logic block: how many bytes it has room for, and the bytes. -/
structure Block where
  availDataSize : ℤ
  data : ℤ → Byte
  avail_range : 0 ≤ availDataSize ∧ availDataSize < 2 ^ 31

/-- The bytes from `start` up to `stop` -/
def Block.range (block : Block) (start stop : ℤ) : List Byte := bytesAt block.data start (stop - start).toNat

theorem Block.range_add (block : Block) {start stop len : ℤ} (hstart : start ≤ stop) (hlen : 0 ≤ len) :
    block.range start (stop + len) = block.range start stop ++ bytesAt block.data stop len.toNat := by
  have hsum : (stop + len - start).toNat = (stop - start).toNat + len.toNat := by omega
  have hpos : start + (stop - start).toNat = stop := by omega
  rw [range, range, hsum, bytesAt_add, hpos]

/-- What `nbytes` is when `read_raw_data` returns -/
def Block.readLen (block : Block) (offset nbytes : ℤ) : ℤ :=
  if block.availDataSize < offset then nbytes
  else if block.availDataSize < int32 (offset + nbytes) then int32 (block.availDataSize - offset)
  else nbytes

/-- `LogicBlock::read_raw_data`, where `read_segment_data` returns `ret` and, if that is an error, has
overwritten the front of the buffer with `part`. -/
def Block.readRawData (block : Block) (offset nbytes ret : ℤ) (part : List Byte) (buf : ℤ → Byte) :
    ℤ × (ℤ → Byte) :=
  if block.availDataSize < offset then (exitFailure, buf)
  else if ret = tfsSuccess then
    (ret, lay buf 0 ((bytesAt block.data offset (block.readLen offset nbytes).toNat).map some))
  else (ret, lay buf 0 (part.map some))

theorem Block.readLen_of_inside (block : Block) (offset nbytes : ℤ) (hpos : 0 ≤ offset) (hlen : 0 ≤ nbytes)
    (hin : offset + nbytes ≤ block.availDataSize) : block.readLen offset nbytes = nbytes := by
  have hrange := block.avail_range
  rw [readLen, if_neg (by omega), int32_of_range (by omega) (by omega), if_neg (by omega)]

/-- Where the block has all that is asked for, that is what the buffer holds. -/
theorem Block.readRawData_of_inside (block : Block) (offset nbytes : ℤ) (hpos : 0 ≤ offset)
    (hlen : 0 ≤ nbytes) (hin : offset + nbytes ≤ block.availDataSize) (part : List Byte) (buf : ℤ → Byte) :
    (block.readRawData offset nbytes tfsSuccess part buf).1 = tfsSuccess ∧
      bytesAt (block.readRawData offset nbytes tfsSuccess part buf).2 0 nbytes.toNat =
        bytesAt block.data offset nbytes.toNat := by
  rw [readRawData, if_neg (by omega), if_pos rfl, block.readLen_of_inside offset nbytes hpos hlen hin]
  refine ⟨rfl, ?_⟩
  have hbytes := bytesAt_of_holds (holds_lay buf 0 ((bytesAt block.data offset nbytes.toNat).map some))
  rw [bytesAt_length] at hbytes
  exact hbytes

end Tefs.DataServer
