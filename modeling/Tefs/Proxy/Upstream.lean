import Tefs.Lib.Runs
import Tefs.Lib.Wire

/-! # Responses of the name server and of a data server at the proxy

Source: `gvfs_ns_read_response_header` and `gvfs_ns_read_response_body` of
`gvfsproxy/src/private/gvfs_ns_interface.c`, `gvfs_ds_read_respodse_header` of `gvfs_ds_interface.c`, with
the handlers that call them, and `gvfs_unix_recv` of `os/unix/gvfs_recv.c`.

The three functions are one loop. Each turn asks for the bytes that are still missing (`rsize`), and
compares that number with all that the call has received so far (`received`).
-/

namespace Tefs.Proxy
open Runs Wire
set_option autoImplicit false

/-! ## Heads -/

inductive Peer
  | ns
  | ds
  deriving DecidableEq, Repr

structure RspHead where
  len : BitVec 32
  id : BitVec 32
  type : BitVec 32
  encrypt : BitVec 32
  rtn : BitVec 32
  deriving DecidableEq, Repr

/-- `gvfs_rb32` -/
def rb32 (mem : ℕ → BitVec 8) (p : ℕ) : BitVec 32 :=
  ofBigEndian 32 [mem p, mem (p + 1), mem (p + 2), mem (p + 3)]

/-- `sizeof(gvfs_ns_rsp_head_t)` and `sizeof(gvfs_ds_rsp_head_t)` -/
def Peer.headSize : Peer → ℕ
  | .ns => 16
  | .ds => 20

/-- The members of `rsp_head` that are set from the buffer. -/
def Peer.parseHead (mem : ℕ → BitVec 8) (h : RspHead) : Peer → RspHead
  | .ns => { h with len := rb32 mem 0, id := rb32 mem 4, type := rb32 mem 8, rtn := rb32 mem 12 }
  | .ds => ⟨rb32 mem 0, rb32 mem 4, rb32 mem 8, rb32 mem 12, rb32 mem 16⟩

def memoryOf (bytes : List (BitVec 8)) (behind : ℕ → BitVec 8) : ℕ → BitVec 8 :=
  fun i => (bytes[i]?).getD (behind i)

/-- A response: the length field of the name server's counts all of it. -/
structure Response (peer : Peer) where
  bytes : List (BitVec 8)
  head : peer.headSize ≤ bytes.length
  len : peer = .ns → (rb32 (memoryOf bytes fun _ => 0) 0).toNat = bytes.length

/-! ## Reading -/

inductive Report
  | error
  | peerClosed
  deriving DecidableEq, Repr

/-- `pending` and `peerClosed` are the peer's side: what it sent that was not received yet, and whether
it has closed. `buf` are the bytes from `buf->pos` to `buf->last`, `reading` is `received` while a read
function runs, `reported` is how a handler ended without a response. -/
structure Upstream where
  pending : List (BitVec 8)
  peerClosed : Bool := false
  buf : List (BitVec 8) := []
  headerCompleted : Bool := false
  bodyCompleted : Bool := false
  rspHead : RspHead
  reading : Option ℕ := none
  reported : Option Report := none
  deriving DecidableEq, Repr

variable {peer : Peer}

def Upstream.init (response : Response peer) (rspHead : RspHead) : Upstream :=
  { pending := response.bytes, rspHead := rspHead }

namespace Upstream

def received (u : Upstream) : ℕ := u.reading.getD 0

def size (peer : Peer) (u : Upstream) : ℕ :=
  if u.headerCompleted then u.rspHead.len.toNat else peer.headSize

/-- `size - (buf->last - buf->pos)`, a `size_t` -/
def rsize (peer : Peer) (u : Upstream) : ℤ := ((u.size peer : ℤ) - u.buf.length) % 2 ^ 64

def Finished (peer : Peer) (u : Upstream) : Prop :=
  u.reported ≠ none ∨ u.bodyCompleted = true ∨ (peer = .ds ∧ u.headerCompleted = true)

instance (peer : Peer) (u : Upstream) : Decidable (u.Finished peer) :=
  inferInstanceAs (Decidable (_ ∨ _))

/-- After the header the name server's body is read in the same event. `behind` is what the buffer holds
behind `buf->last`. -/
def complete (peer : Peer) (behind : ℕ → BitVec 8) (u : Upstream) : Upstream :=
  if u.headerCompleted then { u with bodyCompleted := true, reading := none }
  else { u with
    headerCompleted := true
    rspHead := peer.parseHead (memoryOf u.buf behind) u.rspHead
    reading := match peer with
      | .ns => some 0
      | .ds => none }

/-- A turn of the loop in which `recv` returns `n` bytes -/
def take (peer : Peer) (behind : ℕ → BitVec 8) (n : ℕ) (u : Upstream) : Upstream :=
  let received := u.received + n
  let rsize := u.rsize peer
  let u := { u with
    buf := u.buf ++ u.pending.take n, pending := u.pending.drop n, reading := some received }
  if (received : ℤ) = rsize then u.complete peer behind else u

end Upstream

/-- What `gvfs_unix_recv` returns; `zero` is 0, for a close or a reset as for a request of no bytes. -/
inductive Recv
  | bytes (n : ℕ)
  | again
  | error
  | zero
  deriving DecidableEq, Repr

inductive Action
  | readEvent
  | recv (r : Recv)
  | peerClose
  deriving DecidableEq, Repr

def step (peer : Peer) (behind : ℕ → BitVec 8) (u : Upstream) : Action → Upstream
  | .readEvent => { u with reading := some 0 }
  | .recv (.bytes n) => u.take peer behind n
  | .recv .again => { u with reading := none }
  | .recv .error => { u with reading := none, reported := some .error }
  | .recv .zero => { u with reading := none, reported := some .peerClosed }
  | .peerClose => { u with peerClosed := true }

def Possible (peer : Peer) (u : Upstream) : Recv → Prop
  | .bytes n => 0 < n ∧ (n : ℤ) ≤ u.rsize peer ∧ n ≤ u.pending.length
  | .again | .error => u.rsize peer ≠ 0
  | .zero => u.rsize peer = 0 ∨ u.peerClosed = true

def Enabled (peer : Peer) (u : Upstream) : Action → Prop
  | .readEvent => u.reading = none ∧ ¬ u.Finished peer
  | .recv r => u.reading ≠ none ∧ ¬ u.Finished peer ∧ Possible peer u r
  | .peerClose => True

instance (u : Upstream) : ∀ r, Decidable (Possible peer u r)
  | .bytes _ => inferInstanceAs (Decidable (_ ∧ _))
  | .again | .error => inferInstanceAs (Decidable (_ ≠ _))
  | .zero => inferInstanceAs (Decidable (_ ∨ _))

instance (u : Upstream) : ∀ a, Decidable (Enabled peer u a)
  | .readEvent | .recv _ => inferInstanceAs (Decidable (_ ∧ _))
  | .peerClose => .isTrue trivial

/-! ## Reassembly -/

/-- What is in the buffer came from the peer, a flag is set exactly when its part is there, the fields
parsed are the ones sent, and only a peer that closed is reported as closed. -/
structure Correct (response : Response peer) (u : Upstream) : Prop where
  bytes : u.buf <+: response.bytes
  header : u.headerCompleted = true ↔ peer.headSize ≤ u.buf.length
  body : peer = .ns → (u.bodyCompleted = true ↔ response.bytes.length ≤ u.buf.length)
  fields : u.headerCompleted = true →
    u.rspHead = peer.parseHead (memoryOf response.bytes fun _ => 0) u.rspHead
  closed : u.reported = some .peerClosed → u.peerClosed = true

/-- Only the first `recv` of a call brings the last missing byte, no later one brings as many bytes as
make the sum of the call equal to what was missing, and no name server's response ends with its head. -/
def Whole (response : Response peer) (u : Upstream) : Action → Prop
  | .recv (.bytes n) =>
    (u.received = 0 ∨ ((n : ℤ) ≠ u.rsize peer ∧ (u.received : ℤ) + n ≠ u.rsize peer)) ∧
      ¬ (peer = .ns ∧ u.headerCompleted = false ∧ (n : ℤ) = u.rsize peer ∧ response.bytes.length = 16)
  | _ => True

instance (response : Response peer) (u : Upstream) : ∀ a, Decidable (Whole response u a)
  | .recv (.bytes _) => inferInstanceAs (Decidable (_ ∧ _))
  | .recv .again | .recv .error | .recv .zero | .readEvent | .peerClose => .isTrue trivial

/-! ## The invariant -/

theorem rb32_congr {mem mem' : ℕ → BitVec 8} {p n : ℕ} (h : ∀ i < n, mem i = mem' i) (hp : p + 4 ≤ n) :
    rb32 mem p = rb32 mem' p := by
  rw [rb32, rb32, h p (by omega), h (p + 1) (by omega), h (p + 2) (by omega), h (p + 3) (by omega)]

/-- Only the bytes of the head matter. -/
theorem parseHead_congr {mem mem' : ℕ → BitVec 8} (h : ∀ i < peer.headSize, mem i = mem' i)
    (head : RspHead) : peer.parseHead mem head = peer.parseHead mem' head := by
  cases peer with
  | ns =>
    rw [Peer.parseHead, Peer.parseHead, rb32_congr h (by decide), rb32_congr h (by decide),
      rb32_congr h (by decide), rb32_congr h (by decide)]
  | ds =>
    rw [Peer.parseHead, Peer.parseHead, rb32_congr h (by decide), rb32_congr h (by decide),
      rb32_congr h (by decide), rb32_congr h (by decide), rb32_congr h (by decide)]

structure Inv (response : Response peer) (u : Upstream) : Prop where
  parts : u.buf ++ u.pending = response.bytes
  header : u.headerCompleted = true ↔ peer.headSize ≤ u.buf.length
  body : peer = .ns → (u.bodyCompleted = true ↔ response.bytes.length ≤ u.buf.length)
  fields : u.headerCompleted = true →
    u.rspHead = peer.parseHead (memoryOf response.bytes fun _ => 0) u.rspHead
  closed : u.reported = some .peerClosed → u.peerClosed = true

theorem Inv.correct {response : Response peer} {u : Upstream} (h : Inv response u) :
    Correct response u :=
  ⟨⟨u.pending, h.parts⟩, h.header, h.body, h.fields, h.closed⟩

theorem Inv.init (response : Response peer) (rspHead : RspHead) :
    Inv response (Upstream.init response rspHead) := by
  have hhead := response.head
  have hpos : 0 < peer.headSize := by cases peer <;> decide
  refine ⟨rfl, ?_, fun _ => ?_, fun h => (Bool.false_ne_true h).elim, fun h => by cases h⟩
  · exact iff_of_false Bool.false_ne_true (Nat.not_le.2 hpos)
  · exact iff_of_false Bool.false_ne_true (Nat.not_le.2 (Nat.lt_of_lt_of_le hpos hhead))

/-- What a running read function still misses: never nothing, and at the end the part it reads. -/
theorem Inv.rsize_eq {response : Response peer} {u : Upstream} (h : Inv response u)
    (hrun : ¬ u.Finished peer) :
    ∃ m : ℕ, 0 < m ∧ u.rsize peer = m ∧
      (u.headerCompleted = false → u.buf.length + m = peer.headSize) ∧
      (u.headerCompleted = true → peer = .ns ∧ u.buf.length + m = response.bytes.length) := by
  cases hdone : u.headerCompleted with
  | false =>
    have hlt : u.buf.length < peer.headSize := by
      by_contra hle
      exact Bool.false_ne_true (hdone.symm.trans (h.header.2 (Nat.le_of_not_lt hle)))
    have hsmall : peer.headSize ≤ 20 := by cases peer <;> decide
    refine ⟨peer.headSize - u.buf.length, by omega, ?_, fun _ => by omega, fun h => by cases h⟩
    rw [Upstream.rsize, Upstream.size, hdone, if_neg Bool.false_ne_true]
    omega
  | true =>
    have hns : peer = .ns := by
      cases hpeer : peer with
      | ns => rfl
      | ds => exact (hrun (.inr (.inr ⟨hpeer, hdone⟩))).elim
    have hlt : u.buf.length < response.bytes.length := by
      by_contra hle
      exact hrun (.inr (.inl ((h.body hns).2 (Nat.le_of_not_lt hle))))
    have hlen : u.rspHead.len.toNat = response.bytes.length := by
      rw [h.fields hdone, ← response.len hns]
      subst hns
      rfl
    have hsmall : u.rspHead.len.toNat < 2 ^ 32 := u.rspHead.len.isLt
    refine ⟨response.bytes.length - u.buf.length, by omega, ?_, (fun h => by cases h),
      fun _ => ⟨hns, by omega⟩⟩
    rw [Upstream.rsize, Upstream.size, hdone, if_pos rfl, hlen]
    omega

/-- The state after `n` more bytes, before anything is declared complete. -/
def Upstream.grown (u : Upstream) (n : ℕ) : Upstream :=
  { u with buf := u.buf ++ u.pending.take n, pending := u.pending.drop n
           reading := some (u.received + n) }

theorem Upstream.take_eq {u : Upstream} {behind : ℕ → BitVec 8} {n m : ℕ} (hm : u.rsize peer = m) :
    u.take peer behind n =
      if u.received + n = m then (u.grown n).complete peer behind else u.grown n := by
  simp only [take, hm, Int.natCast_inj, grown]

/-- Declaring a part complete moves no bytes. -/
theorem Upstream.take_bytes (u : Upstream) (peer : Peer) (behind : ℕ → BitVec 8) (n : ℕ) :
    (u.take peer behind n).buf = (u.grown n).buf ∧ (u.take peer behind n).pending = (u.grown n).pending ∧
      (u.take peer behind n).reported = u.reported := by
  unfold take complete
  dsimp only
  split
  · split
    · exact ⟨rfl, rfl, rfl⟩
    · exact ⟨rfl, rfl, rfl⟩
  · exact ⟨rfl, rfl, rfl⟩

theorem Upstream.grown_buf_length {u : Upstream} {n : ℕ} (hn : n ≤ u.pending.length) :
    (u.grown n).buf.length = u.buf.length + n := by
  simp only [grown, List.length_append, List.length_take]
  omega

theorem Inv.grown_parts {response : Response peer} {u : Upstream} (h : Inv response u) (n : ℕ) :
    (u.grown n).buf ++ (u.grown n).pending = response.bytes := by
  simp only [Upstream.grown, List.append_assoc, List.take_append_drop, h.parts]

/-- Where every byte of the head is there, it is parsed as the peer sent it. -/
theorem parseHead_of_parts {response : Response peer} {u : Upstream} {behind : ℕ → BitVec 8}
    (hparts : u.buf ++ u.pending = response.bytes) (hhead : peer.headSize ≤ u.buf.length)
    (head : RspHead) :
    peer.parseHead (memoryOf u.buf behind) head =
      peer.parseHead (memoryOf response.bytes fun _ => 0) head := by
  apply parseHead_congr
  intro i hi
  have hlt : i < u.buf.length := by omega
  rw [memoryOf, memoryOf, ← hparts, List.getElem?_append_left hlt, List.getElem?_eq_getElem hlt,
    Option.getD_some, Option.getD_some]

theorem bodyCompleted_false (u : Upstream) (hrun : ¬ u.Finished peer) : u.bodyCompleted = false :=
  Bool.eq_false_iff.2 fun hbody => hrun (.inr (.inl hbody))

/-- The last bytes of the body have come. -/
theorem Inv.complete_body {response : Response peer} {u : Upstream} {behind : ℕ → BitVec 8} {n : ℕ}
    (h : Inv response u) (hpending : n ≤ u.pending.length) (hdone : u.headerCompleted = true)
    (htotal : u.buf.length + n = response.bytes.length) :
    Inv response ((u.grown n).complete peer behind) := by
  have hlen := Upstream.grown_buf_length hpending
  have hg : (u.grown n).headerCompleted = true := hdone
  unfold Upstream.complete
  rw [hg, if_pos rfl]
  refine ⟨h.grown_parts n, iff_of_true rfl ?_, fun _ => iff_of_true rfl ?_, fun _ => h.fields hdone, h.closed⟩
  · exact Nat.le_trans (h.header.1 hdone) (by simp only; omega)
  · simp only
    omega

/-- The last bytes of the head have come, and a name server's response goes on behind it. -/
theorem Inv.complete_head {response : Response peer} {u : Upstream} {behind : ℕ → BitVec 8} {n : ℕ}
    (h : Inv response u) (hrun : ¬ u.Finished peer) (hpending : n ≤ u.pending.length)
    (hdone : u.headerCompleted = false) (htotal : u.buf.length + n = peer.headSize)
    (hlong : peer = .ns → response.bytes.length ≠ 16) : Inv response ((u.grown n).complete peer behind) := by
  have hlen := Upstream.grown_buf_length hpending
  have hparts := h.grown_parts n
  have hg : (u.grown n).headerCompleted = false := hdone
  have hfull : peer.headSize ≤ (u.grown n).buf.length := by omega
  unfold Upstream.complete
  rw [hg, if_neg Bool.false_ne_true]
  refine ⟨hparts, iff_of_true rfl hfull, fun hns => iff_of_false ?_ ?_, fun _ => ?_, h.closed⟩
  · rw [Bool.not_eq_true]
    exact bodyCompleted_false u hrun
  · have hsixteen : peer.headSize = 16 := by subst hns; rfl
    have hge := response.head
    have hne := hlong hns
    simp only
    omega
  · rw [parseHead_of_parts hparts hfull]
    cases peer <;> rfl

/-- The part being read still misses some bytes. -/
theorem Inv.grown_short {response : Response peer} {u : Upstream} {n : ℕ} (h : Inv response u)
    (hrun : ¬ u.Finished peer) (hpending : n ≤ u.pending.length)
    (hhead : u.headerCompleted = false → u.buf.length + n < peer.headSize)
    (hbody : u.headerCompleted = true → u.buf.length + n < response.bytes.length) :
    Inv response (u.grown n) := by
  have hlen := Upstream.grown_buf_length hpending
  refine ⟨h.grown_parts n, ?_, fun hns => ?_, h.fields, h.closed⟩
  · cases hdone : u.headerCompleted with
    | true => exact iff_of_true hdone (Nat.le_trans (h.header.1 hdone) (by omega))
    | false =>
      have hlt := hhead hdone
      exact iff_of_false (by rw [Bool.not_eq_true]; exact hdone) (by omega)
  · refine iff_of_false (by rw [Bool.not_eq_true]; exact bodyCompleted_false u hrun) ?_
    cases hdone : u.headerCompleted with
    | true =>
      have hlt := hbody hdone
      omega
    | false =>
      have hlt := hhead hdone
      have hge := response.head
      omega

theorem Inv.take {response : Response peer} {u : Upstream} {behind : ℕ → BitVec 8} {n : ℕ}
    (h : Inv response u) (hen : Enabled peer u (.recv (.bytes n)))
    (hok : Whole response u (.recv (.bytes n))) : Inv response (u.take peer behind n) := by
  obtain ⟨-, hrun, hpos, hle, hpending⟩ := hen
  obtain ⟨m, hm, hrsize, hhead, hbody⟩ := h.rsize_eq hrun
  obtain ⟨hfirst, hlong⟩ := hok
  rw [hrsize] at hle hfirst hlong
  rw [Upstream.take_eq hrsize]
  by_cases hall : n = m
  · -- the first `recv` of the call brings all that was missing
    have hzero : u.received = 0 := by
      rcases hfirst with hzero | ⟨hne, -⟩
      · exact hzero
      · omega
    rw [if_pos (by omega)]
    cases hdone : u.headerCompleted with
    | true => exact h.complete_body hpending hdone (hall ▸ (hbody hdone).2)
    | false =>
      refine h.complete_head hrun hpending hdone (hall ▸ hhead hdone) fun hns heq => ?_
      exact hlong ⟨hns, hdone, by omega, heq⟩
  · have hnot : ¬ u.received + n = m := by omega
    rw [if_neg hnot]
    refine h.grown_short hrun hpending (fun hdone => ?_) fun hdone => ?_
    · have htotal := hhead hdone
      omega
    · have htotal := (hbody hdone).2
      omega

theorem Inv.step {response : Response peer} {u : Upstream} {behind : ℕ → BitVec 8} {a : Action}
    (h : Inv response u) (hen : Enabled peer u a) (hok : Whole response u a) :
    Inv response (step peer behind u a) := by
  cases a with
  | readEvent => exact ⟨h.parts, h.header, h.body, h.fields, h.closed⟩
  | peerClose => exact ⟨h.parts, h.header, h.body, h.fields, fun _ => rfl⟩
  | recv r =>
    cases r with
    | bytes n => exact h.take hen hok
    | again => exact ⟨h.parts, h.header, h.body, h.fields, h.closed⟩
    | error => exact ⟨h.parts, h.header, h.body, h.fields, fun herr => by cases herr⟩
    | zero =>
      obtain ⟨-, hrun, hzero⟩ := hen
      obtain ⟨m, hm, hrsize, -, -⟩ := h.rsize_eq hrun
      refine ⟨h.parts, h.header, h.body, h.fields, fun _ => ?_⟩
      rcases hzero with hnone | hclosed
      · omega
      · exact hclosed

/-- A `recv` that splits the end of a part is not noticed, or noticed too early. -/
theorem whole_of_correct_take {response : Response peer} {u : Upstream} {behind : ℕ → BitVec 8} {n : ℕ}
    (h : Inv response u) (hen : Enabled peer u (.recv (.bytes n)))
    (hcorrect : Correct response (u.take peer behind n)) : Whole response u (.recv (.bytes n)) := by
  obtain ⟨-, hrun, hpos, hle, hpending⟩ := hen
  obtain ⟨m, hm, hrsize, hhead, hbody⟩ := h.rsize_eq hrun
  have hlen := Upstream.grown_buf_length hpending
  have hbodyDone := bodyCompleted_false u hrun
  rw [hrsize] at hle
  rw [Upstream.take_eq hrsize] at hcorrect
  -- the part is declared complete exactly when all of it is there
  have hexact : u.received + n = m ↔ n = m := by
    by_cases hsum : u.received + n = m
    · rw [if_pos hsum] at hcorrect
      refine iff_of_true hsum ?_
      unfold Upstream.complete at hcorrect
      cases hdone : u.headerCompleted with
      | true =>
        obtain ⟨hns, htotal⟩ := hbody hdone
        have hg : (u.grown n).headerCompleted = true := hdone
        rw [hg, if_pos rfl] at hcorrect
        have hall := (hcorrect.body hns).1 rfl
        simp only at hall
        omega
      | false =>
        have htotal := hhead hdone
        have hg : (u.grown n).headerCompleted = false := hdone
        rw [hg, if_neg Bool.false_ne_true] at hcorrect
        have hall := hcorrect.header.1 rfl
        simp only at hall
        omega
    · rw [if_neg hsum] at hcorrect
      refine iff_of_false hsum fun hall => ?_
      cases hdone : u.headerCompleted with
      | true =>
        obtain ⟨hns, htotal⟩ := hbody hdone
        have hset := (hcorrect.body hns).2 (by omega)
        exact Bool.false_ne_true (hbodyDone.symm.trans hset)
      | false =>
        have htotal := hhead hdone
        have hset := hcorrect.header.2 (by omega)
        exact Bool.false_ne_true (hdone.symm.trans hset)
  refine ⟨?_, ?_⟩
  · rw [hrsize]
    omega
  · rintro ⟨hns, hdone, hall, hsixteen⟩
    rw [hrsize] at hall
    have hsum : u.received + n = m := hexact.2 (by omega)
    have htotal := hhead hdone
    have hsize : peer.headSize = 16 := by subst hns; rfl
    have hg : (u.grown n).headerCompleted = false := hdone
    rw [if_pos hsum] at hcorrect
    unfold Upstream.complete at hcorrect
    rw [hg, if_neg Bool.false_ne_true] at hcorrect
    have hset := (hcorrect.body hns).2 (by simp only; omega)
    exact Bool.false_ne_true (hbodyDone.symm.trans hset)

/-! ## Runs -/

/-- While the pieces come whole every state is correct, and the first piece that does not makes it
wrong. -/
theorem reassembly_correct_iff_whole {response : Response peer} {rspHead : RspHead}
    {behind : ℕ → BitVec 8} {as : List Action} {u : Upstream}
    (h : Reaches (ofFun (step peer behind)) (fun u a => Enabled peer u a ∧ Whole response u a)
      (Upstream.init response rspHead) as u) :
    Correct response u ∧
      ∀ a, Enabled peer u a → (Correct response (step peer behind u a) ↔ Whole response u a) := by
  have hinv : Inv response u := by
    refine h.invariant (fun u a u' hu hok htaken => ?_) (Inv.init response rspHead)
    subst htaken
    exact hu.step hok.1 hok.2
  refine ⟨hinv.correct, fun a hen => ⟨fun hcorrect => ?_, fun hok => (hinv.step hen hok).correct⟩⟩
  cases a with
  | readEvent => trivial
  | peerClose => trivial
  | recv r =>
    cases r with
    | bytes n => exact whole_of_correct_take hinv hen hcorrect
    | again => trivial
    | error => trivial
    | zero => trivial

/-- A response of 20 bytes, 4 of them behind the head. -/
def exampleResponse : Response .ns where
  bytes := [0, 0, 0, 20, 0, 0, 0, 1, 0, 0, 0, 4, 0, 0, 0, 0, 0, 0, 0, 0]
  head := by decide
  len := fun _ => by decide

def exampleStart : Upstream := .init exampleResponse ⟨0, 0, 0, 0, 0⟩

/-- Head and body arrive in one piece each, with a wait between. -/
theorem reassembly_two_pieces :
    ∃ u, Reaches (ofFun (step .ns fun _ => 0)) (fun u a => Enabled .ns u a ∧ Whole exampleResponse u a)
        exampleStart [.readEvent, .recv (.bytes 16), .recv .again, .readEvent, .recv (.bytes 4)] u ∧
      u.bodyCompleted = true ∧ Correct exampleResponse u := by
  have hrun := reaches_of_allAllowed (step .ns fun _ => 0)
    (fun u a => Enabled .ns u a ∧ Whole exampleResponse u a) exampleStart
    [.readEvent, .recv (.bytes 16), .recv .again, .readEvent, .recv (.bytes 4)] (by decide)
  exact ⟨_, hrun, by decide, (reassembly_correct_iff_whole hrun).1⟩

/-- Pieces of 4 and 8 bytes pass for a whole head; after pieces of 8 and 8 the peer is taken to have
closed. -/
theorem split_head_misread :
    (∃ u, Reaches (ofFun (step .ns fun _ => 0)) (Enabled .ns) exampleStart
        [.readEvent, .recv (.bytes 4), .recv (.bytes 8)] u ∧
      u.headerCompleted = true ∧ u.buf.length = 12 ∧ ¬ Correct exampleResponse u) ∧
    ∃ u, Reaches (ofFun (step .ns fun _ => 0)) (Enabled .ns) exampleStart
        [.readEvent, .recv (.bytes 8), .recv (.bytes 8), .recv .zero] u ∧
      u.reported = some .peerClosed ∧ u.peerClosed = false ∧ ¬ Correct exampleResponse u := by
  refine ⟨⟨_, reaches_of_allAllowed _ _ _ _ (by decide), by decide, by decide, fun h => ?_⟩,
    ⟨_, reaches_of_allAllowed _ _ _ _ (by decide), by decide, by decide, fun h => ?_⟩⟩
  · exact absurd (h.header.1 (by decide)) (by decide)
  · exact absurd (h.closed (by decide)) (by decide)

end Tefs.Proxy
