import Tefs.NameServer.EventLoop

/-! # The way of a message to the socket

Source: the sending loops of `gfs_busi_handle` (`nameservice/busi/gfs_busi.c`), `gfs_busi_notice_delete_block` and
`gfs_busi_notice_copy_block` (`busi/gfs_busi_notice.c`), `gfs_net_memcopy`, `gfs_net_close` and `gfs_net_pool_create` of
`net/gfs_net.c`, `gfs_net_tcp_send` of `net/gfs_net_tcp.c`, `gfs_handle_tcp_send` of `core/gfs_handle.c`.

`gfs_handle_tcp_send` may call `c->handle(c)`, which answers the packets that are left in `rbuf` while the loop of another
message waits. The calls that wait are a stack. When the send closes the connection, `rbuf` is empty and `c->handle(c)`
does nothing; `gfs_mem_pool_reset` has then taken the memory of the response, but nothing is allocated before its loop
has ended, and the loop reads what it wrote.
-/

namespace Tefs.NameServer.SendPath
open EventLoop (SendReturn SendRtn sendBufferSize)
open Runs
set_option autoImplicit false

/-! ## One connection -/

/-- `gfs_net_t`: `data` is `sbuf` up to `pos`. The bytes that `send` took and the messages whose loops began, since the
connection was accepted, are kept for the statements. -/
structure Conn where
  isOpen : Bool := false
  ev : EventLoop.Event := {}
  data : List UInt8 := []
  hd : ℕ := 0
  wire : List UInt8 := []
  produced : List UInt8 := []

namespace Conn

/-- What is between `hd` and `pos` -/
def pending (c : Conn) : List UInt8 := c.data.drop c.hd

/-- `gfs_net_memcopy` into `sbuf`, and what is left of the message -/
def memcopy (message : List UInt8) (c : Conn) : Conn × List UInt8 :=
  let remain := min (sendBufferSize - c.data.length) message.length
  ({ c with data := c.data ++ message.take remain }, message.drop remain)

/-- The loop of `gfs_net_tcp_send`; after the `results` the socket is not ready. -/
def sendLoop : List SendReturn → Conn → SendRtn × Conn
  | [], c => if c.pending = [] then (.ok, c) else (.again, c)
  | r :: rs, c =>
    if c.pending = [] then (.ok, c)
    else
      match r with
      | .bytes n => sendLoop rs { c with hd := c.hd + min n c.pending.length, wire := c.wire ++ c.pending.take n }
      | .eintr => sendLoop rs c
      | .eagain => (.again, c)
      | .error => (.close, c)

/-- `gfs_net_tcp_send`; on a closed connection `send` fails, as its `fd` is -1. -/
def netTcpSend (results : List SendReturn) (c : Conn) : SendRtn × Conn :=
  c.sendLoop (if c.isOpen then results else [.error])

def netClose (c : Conn) : Conn := { c with isOpen := false, data := [], hd := 0 }

/-- What `gfs_handle_tcp_send` does with the result -/
def react (rtn : SendRtn) (c : Conn) : Conn :=
  match rtn with
  | .close => c.netClose
  | .again => { c with ev := { c.ev with netReady := false, epollin := false, epollout := true } }
  | .ok =>
    if c.ev.netReady then c
    else { c with ev := { c.ev with netReady := true, epollin := true, epollout := false } }

/-- `gfs_handle_tcp_send` up to its test of `GFS_EVENT_WRITE` -/
def sendAndReact (results : List SendReturn) (c : Conn) : Conn := (c.netTcpSend results).2.react (c.netTcpSend results).1

def clearWrite (c : Conn) : Conn := { c with ev := { c.ev with write := false } }

/-- The `memmove` at the end of `gfs_handle_tcp_send` -/
def compact (c : Conn) : Conn := { c with data := c.pending, hd := 0 }

/-- `c->handle(c)` is called, and may find packets. -/
def entersHandle (c : Conn) : Bool := c.ev.write && c.isOpen

end Conn

/-! ## The server -/

/-- The connections, and the calls of `gfs_handle_tcp_send` that are in `c->handle(c)`, each with what is left of its
message -/
structure Server (num : ℕ) where
  conn : Fin num → Conn
  stack : List (Fin num × List UInt8) := []

/-- What the event loop does outside of the handlers: the delay run sends, epoll reports that the socket is ready, the
connection is closed by a timer, a hangup or `gfs_handle_tcp_recv`, a node of the pool gets a new connection. -/
inductive Event (num : ℕ)
  | delayRun (c : Fin num) (results : List SendReturn)
  | report (c : Fin num)
  | close (c : Fin num)
  | accept (c : Fin num)

/-- Besides, a message is produced and its loop begins, or `c->handle(c)` of the innermost call returns. `sock` is what
`send` returns in each turn of the loop. -/
inductive Action (num : ℕ)
  | message (c : Fin num) (message : List UInt8) (sock : ℕ → List SendReturn)
  | handled (sock : ℕ → List SendReturn)
  | event (e : Event num)

namespace Server

variable {num : ℕ}

def set (c : Fin num) (x : Conn) (s : Server num) : Server num := { s with conn := Function.update s.conn c x }

/-- `gfs_handle_tcp_send` goes into `c->handle(c)`. -/
def push (c : Fin num) (x : Conn) (rest : List UInt8) (s : Server num) : Server num :=
  { s.set c x.clearWrite with stack := (c, rest) :: s.stack }

/-- The loop that sends a message. It comes to its end, or to a call of `c->handle(c)`; nothing comes back after `fuel`
turns. -/
def copyLoop : ℕ → (ℕ → List SendReturn) → Fin num → List UInt8 → Server num → Option (Server num)
  | _, _, _, [], s => some s
  | 0, _, _, _ :: _, _ => none
  | fuel + 1, sock, c, b :: message, s =>
    let n := ((s.conn c).memcopy (b :: message)).1.sendAndReact (sock 0)
    let rest := ((s.conn c).memcopy (b :: message)).2
    if n.entersHandle then some (s.push c n rest)
    else copyLoop fuel (fun i => sock (i + 1)) c rest (s.set c n.clearWrite.compact)

def event (s : Server num) : Event num → Server num
  | .delayRun c results =>
    let n := (s.conn c).sendAndReact results
    if n.entersHandle then s.push c n [] else s.set c n.clearWrite.compact
  | .report c => s.set c { s.conn c with ev := { (s.conn c).ev with write := true } }
  | .close c => s.set c (s.conn c).netClose
  | .accept c =>
    if (s.conn c).isOpen then s
    else s.set c { s.conn c with
      isOpen := true, ev := { netReady := true, epollin := true }, wire := [], produced := [] }

def step (fuel : ℕ) (s : Server num) : Action num → Option (Server num)
  | .message c message sock =>
    copyLoop fuel sock c message (s.set c { s.conn c with produced := (s.conn c).produced ++ message })
  | .handled sock =>
    match s.stack with
    | [] => some s
    | (c, rest) :: stack => copyLoop fuel sock c rest ({ s with stack := stack }.set c (s.conn c).compact)
  | .event e => if s.stack = [] then some (s.event e) else some s

/-- After `gfs_net_pool_create`, which sets neither `pos` nor `hd` -/
def poolCreate (sbuf : Fin num → List UInt8 × ℕ) : Server num :=
  { conn := fun c => { data := (sbuf c).1, hd := (sbuf c).2 } }

end Server

/-- The loops end. On the wire are the first bytes of the messages, in the order in which they were produced; between the
events the others wait in `sbuf`, as long as the connection is open. -/
def Delivered {num : ℕ} (s : Server num) (actions : List (Action num)) : Prop :=
  ∃ fuel t, actions.foldlM (Server.step fuel) s = some t ∧ ∀ c, (t.conn c).wire <+: (t.conn c).produced ∧
    (t.stack = [] → (t.conn c).isOpen → (t.conn c).wire ++ (t.conn c).pending = (t.conn c).produced)

/-- A message fits into `sbuf` with what is not sent yet. -/
def Fits {num : ℕ} (s : Server num) : Action num → Prop
  | .message c message _ => (s.conn c).pending.length + message.length ≤ sendBufferSize
  | _ => True

instance {num : ℕ} (s : Server num) : ∀ a, Decidable (Fits s a)
  | .message c message _ =>
    inferInstanceAs (Decidable ((s.conn c).pending.length + message.length ≤ sendBufferSize))
  | .handled _ => .isTrue trivial
  | .event _ => .isTrue trivial

/-! ## One turn -/

section

variable {c : Conn} {rest : List UInt8}

/-- `rest` is the part of the last message that is not in `sbuf` yet. -/
structure Conn.Holds (rest : List UInt8) (c : Conn) : Prop where
  hd_le : c.hd ≤ c.data.length
  length_le : c.data.length ≤ sendBufferSize
  start : c.isOpen = false → c.hd = 0
  whole : c.isOpen → c.wire ++ (c.pending ++ rest) = c.produced
  before : c.wire <+: c.produced

theorem Conn.Holds.memcopy {message : List UInt8} (h : c.Holds message) :
    (c.memcopy message).1.Holds (c.memcopy message).2 := by
  refine ⟨?_, ?_, h.start, fun hopen => ?_, h.before⟩
  · simp only [Conn.memcopy, List.length_append]
    exact Nat.le_add_right_of_le h.hd_le
  · have := h.length_le
    simp only [Conn.memcopy, List.length_append, List.length_take]
    omega
  · have hwhole := h.whole hopen
    simpa only [Conn.memcopy, Conn.pending, List.drop_append_of_le_length h.hd_le, List.append_assoc,
      List.take_append_drop] using hwhole

/-- A `send` that takes bytes -/
theorem Conn.Holds.bytes (h : c.Holds rest) (hopen : c.isOpen) (n : ℕ) :
    Conn.Holds rest { c with hd := c.hd + min n c.pending.length, wire := c.wire ++ c.pending.take n } := by
  have hwhole : c.wire ++ c.pending.take n ++ (c.data.drop (c.hd + min n c.pending.length) ++ rest) = c.produced := by
    have hdrop : c.data.drop (c.hd + min n c.pending.length) = c.pending.drop n := by
      rw [← List.drop_drop, ← Conn.pending, List.drop_eq_drop_iff]
      omega
    rw [hdrop, List.append_assoc, ← List.append_assoc (c.pending.take n), List.take_append_drop, h.whole hopen]
  refine ⟨?_, h.length_le, fun hclosed => ?_, fun _ => hwhole, ⟨_, hwhole⟩⟩
  · have := h.hd_le
    simp only [Conn.pending, List.length_drop]
    omega
  · rw [hopen] at hclosed
    cases hclosed

theorem Conn.Holds.sendLoop (h : c.Holds rest) (hopen : c.isOpen) (results : List SendReturn) :
    (Conn.sendLoop results c).2.Holds rest := by
  induction results generalizing c with
  | nil =>
    simp only [Conn.sendLoop]
    split <;> exact h
  | cons r rs ih =>
    simp only [Conn.sendLoop]
    split
    · exact h
    · cases r with
      | eintr => exact ih h hopen
      | eagain => exact h
      | error => exact h
      | bytes n => exact ih (h.bytes hopen n) hopen

/-- The flags and the descriptor are not touched, and no byte is added. -/
theorem sendLoop_eq (results : List SendReturn) (c : Conn) :
    (c.sendLoop results).2.isOpen = c.isOpen ∧ (c.sendLoop results).2.ev = c.ev ∧
      (c.sendLoop results).2.pending.length ≤ c.pending.length := by
  induction results generalizing c with
  | nil =>
    simp only [Conn.sendLoop]
    split <;> exact ⟨rfl, rfl, Nat.le_refl _⟩
  | cons r rs ih =>
    simp only [Conn.sendLoop]
    split
    · exact ⟨rfl, rfl, Nat.le_refl _⟩
    · cases r with
      | eintr => exact ih c
      | eagain => exact ⟨rfl, rfl, Nat.le_refl _⟩
      | error => exact ⟨rfl, rfl, Nat.le_refl _⟩
      | bytes n =>
        obtain ⟨hopen, hev, hlength⟩ := ih { c with
          hd := c.hd + min n c.pending.length, wire := c.wire ++ c.pending.take n }
        refine ⟨hopen, hev, Nat.le_trans hlength ?_⟩
        simp only [Conn.pending, List.length_drop]
        omega

/-- After `gfs_handle_tcp_send` up to its test of `GFS_EVENT_WRITE` -/
structure Conn.Sent (rest : List UInt8) (c n : Conn) : Prop where
  holds : n.Holds rest
  closed : n.isOpen = false → n.data = []
  write : n.ev.write = c.ev.write
  length_le : n.pending.length ≤ c.pending.length

theorem Conn.Holds.netClose (h : c.Holds rest) : c.netClose.Holds rest :=
  ⟨Nat.le_refl _, Nat.zero_le _, fun _ => rfl, nofun, h.before⟩

theorem Conn.Holds.react (h : c.Holds rest) (rtn : SendRtn) (hclosed : rtn ≠ .close → c.isOpen = false → c.data = []) :
    Conn.Sent rest c (c.react rtn) := by
  cases rtn with
  | close => exact ⟨h.netClose, fun _ => rfl, rfl, Nat.zero_le _⟩
  | again => exact ⟨⟨h.hd_le, h.length_le, h.start, h.whole, h.before⟩, hclosed nofun, rfl, Nat.le_refl _⟩
  | ok =>
    rw [Conn.react]
    dsimp only
    split
    · exact ⟨h, hclosed nofun, rfl, Nat.le_refl _⟩
    · exact ⟨⟨h.hd_le, h.length_le, h.start, h.whole, h.before⟩, hclosed nofun, rfl, Nat.le_refl _⟩

theorem Conn.Holds.sendAndReact (h : c.Holds rest) (results : List SendReturn) :
    Conn.Sent rest c (c.sendAndReact results) := by
  cases hopen : c.isOpen with
  | true =>
    obtain ⟨hopen', hev, hlength⟩ := sendLoop_eq results c
    have hsend : c.netTcpSend results = c.sendLoop results := by rw [Conn.netTcpSend, hopen]; rfl
    rw [Conn.sendAndReact, hsend]
    have hreact := (h.sendLoop hopen results).react (c.sendLoop results).1 fun _ hclosed => by
      rw [hopen', hopen] at hclosed
      cases hclosed
    exact ⟨hreact.holds, hreact.closed, hreact.write.trans (by rw [hev]), Nat.le_trans hreact.length_le hlength⟩
  | false =>
    -- Nothing waits, or `send` fails and the connection is closed once more.
    have hsend : c.netTcpSend results = if c.pending = [] then (.ok, c) else (.close, c) := by
      rw [Conn.netTcpSend, hopen]
      rfl
    rw [Conn.sendAndReact, hsend]
    by_cases hpending : c.pending = []
    · rw [if_pos hpending]
      apply h.react
      intro _ _
      rwa [Conn.pending, h.start hopen] at hpending
    · rw [if_neg hpending]
      exact h.react .close fun hne => absurd rfl hne

end

/-! ## The loop -/

section

variable {num : ℕ} {s : Server num} {c : Fin num} {rest : Fin num → List UInt8}

/-- `rest` is what is left of the message whose loop is at its test. A call that waits in `c->handle(c)` has nothing left
to copy. -/
structure Inv (rest : Fin num → List UInt8) (s : Server num) : Prop where
  conn : ∀ d, (s.conn d).Holds (rest d)
  closed : ∀ d, (s.conn d).isOpen = false → (s.conn d).data = []
  stack : ∀ f ∈ s.stack, f.2 = [] ∧ (s.conn f.1).ev.write = false
  moved : ∀ d, (s.conn d).hd ≠ 0 → d ∈ s.stack.map Prod.fst

theorem Inv.hd_of_write (h : Inv rest s) (hwrite : (s.conn c).ev.write = true) : (s.conn c).hd = 0 := by
  by_contra hhd
  obtain ⟨f, hf, rfl⟩ := List.mem_map.mp (h.moved c hhd)
  rw [(h.stack f hf).2] at hwrite
  cases hwrite

/-- One connection changes. -/
theorem Inv.set (h : Inv rest s) (c : Fin num) {x : Conn} {left : List UInt8} (hx : x.Holds left)
    (hclosed : x.isOpen = false → x.data = []) (hwrite : c ∈ s.stack.map Prod.fst → x.ev.write = false)
    (hhd : x.hd ≠ 0 → c ∈ s.stack.map Prod.fst) :
    Inv (Function.update rest c left) (s.set c x) := by
  refine ⟨fun d => ?_, fun d => ?_, fun f hf => ⟨(h.stack f hf).1, ?_⟩, fun d => ?_⟩
  · by_cases hd : d = c
    · subst hd
      simpa [Server.set] using hx
    · simpa [Server.set, hd] using h.conn d
  · by_cases hd : d = c
    · subst hd
      simpa [Server.set] using hclosed
    · simpa [Server.set, hd] using h.closed d
  · by_cases hd : f.1 = c
    · simpa [Server.set, hd] using hwrite (hd ▸ List.mem_map_of_mem hf)
    · simpa [Server.set, hd] using (h.stack f hf).2
  · by_cases hd : d = c
    · subst hd
      simpa [Server.set] using hhd
    · simpa [Server.set, hd] using h.moved d

theorem Conn.Holds.clearWrite {c : Conn} {left : List UInt8} (h : c.Holds left) : c.clearWrite.Holds left :=
  ⟨h.hd_le, h.length_le, h.start, h.whole, h.before⟩

theorem Conn.Holds.compact {c : Conn} {left : List UInt8} (h : c.Holds left) : c.compact.Holds left := by
  refine ⟨Nat.zero_le _, ?_, fun _ => rfl, h.whole, h.before⟩
  have := h.length_le
  simp only [Conn.compact, Conn.pending, List.length_drop]
  omega

/-- The end of `gfs_handle_tcp_send` -/
theorem Inv.compacted (h : Inv rest s) (c : Fin num) {x : Conn} {left : List UInt8} (hx : x.Holds left)
    (hclosed : x.isOpen = false → x.data = []) : Inv (Function.update rest c left) (s.set c x.clearWrite.compact) := by
  refine h.set c hx.clearWrite.compact (fun hc => ?_) (fun _ => rfl) fun hne => absurd rfl hne
  have hdata : x.data = [] := hclosed hc
  simp [Conn.compact, Conn.pending, Conn.clearWrite, hdata]

theorem Inv.push (h : Inv rest s) (c : Fin num) {x : Conn} (hx : x.Holds []) (hclosed : x.isOpen = false → x.data = []) :
    Inv (Function.update rest c []) (s.push c x []) := by
  have hset := h.compacted c hx hclosed
  refine ⟨fun d => ?_, fun d => ?_, fun f hf => ?_, fun d hd => ?_⟩
  · by_cases hd : d = c
    · subst hd
      simpa [Server.push, Server.set] using hx.clearWrite
    · simpa [Server.push, Server.set, hd] using hset.conn d
  · by_cases hd : d = c
    · subst hd
      simpa [Server.push, Server.set, Conn.clearWrite] using hclosed
    · simpa [Server.push, Server.set, hd] using hset.closed d
  · rcases List.mem_cons.mp hf with rfl | hf
    · simp [Server.push, Server.set, Conn.clearWrite]
    · refine ⟨(h.stack f hf).1, ?_⟩
      by_cases hd : f.1 = c
      · simp [Server.push, Server.set, hd, Conn.clearWrite]
      · simpa [Server.push, Server.set, hd] using (h.stack f hf).2
  · rw [Server.push, List.map_cons, List.mem_cons]
    by_cases hd' : d = c
    · exact .inl hd'
    · right
      apply h.moved
      simpa [Server.push, Server.set, hd'] using hd

variable {message : List UInt8}

theorem update_nil (c : Fin num) : Function.update (fun _ => ([] : List UInt8)) c [] = fun _ => [] := by
  funext d
  by_cases hd : d = c <;> simp [hd]

/-- A turn of the loop that does not go into `c->handle(c)` -/
theorem Inv.turn (h : Inv (Function.update (fun _ => []) c message) s) (results : List SendReturn) :
    Inv (Function.update (fun _ => []) c ((s.conn c).memcopy message).2)
      (s.set c (((s.conn c).memcopy message).1.sendAndReact results).clearWrite.compact) := by
  have hconn : (s.conn c).Holds message := by simpa using h.conn c
  have hsent := hconn.memcopy.sendAndReact results
  simpa using h.compacted c hsent.holds hsent.closed

/-- The message fits behind `pos`: it is copied in one turn. -/
theorem Inv.copyLoop_whole (h : Inv (Function.update (fun _ => []) c message) s)
    (hfits : (s.conn c).data.length + message.length ≤ sendBufferSize) (fuel : ℕ) (sock : ℕ → List SendReturn) :
    ∃ s', Server.copyLoop (fuel + 1) sock c message s = some s' ∧ Inv (fun _ => []) s' := by
  cases message with
  | nil =>
    rw [update_nil] at h
    exact ⟨s, by rw [Server.copyLoop], h⟩
  | cons b message =>
    have hrest : ((s.conn c).memcopy (b :: message)).2 = [] := by
      rw [Conn.memcopy]
      apply List.drop_eq_nil_of_le
      omega
    have hconn : (s.conn c).Holds (b :: message) := by simpa using h.conn c
    have hsent := hconn.memcopy.sendAndReact (sock 0)
    have hturn := h.turn (sock 0)
    rw [hrest] at hsent hturn
    rw [Server.copyLoop, hrest]
    split
    · have hpush := h.push c hsent.holds hsent.closed
      rw [Function.update_idem, update_nil] at hpush
      exact ⟨_, rfl, hpush⟩
    · rw [update_nil] at hturn
      exact ⟨_, by rw [Server.copyLoop], hturn⟩

/-- The message fits after the `memmove`: it is copied in two turns. -/
theorem Inv.copyLoop_ends (h : Inv (Function.update (fun _ => []) c message) s)
    (hfits : (s.conn c).pending.length + message.length ≤ sendBufferSize) (sock : ℕ → List SendReturn) :
    ∃ s', Server.copyLoop 2 sock c message s = some s' ∧ Inv (fun _ => []) s' := by
  by_cases hhd : (s.conn c).hd = 0
  · rw [Conn.pending, hhd, List.drop_zero] at hfits
    exact h.copyLoop_whole hfits 1 sock
  · have hwrite : (s.conn c).ev.write ≠ true := fun hwrite => hhd (h.hd_of_write hwrite)
    cases message with
    | nil =>
      rw [update_nil] at h
      exact ⟨s, by rw [Server.copyLoop], h⟩
    | cons b message =>
      have hconn : (s.conn c).Holds (b :: message) := by simpa using h.conn c
      have hsent := hconn.memcopy.sendAndReact (sock 0)
      have henters : (((s.conn c).memcopy (b :: message)).1.sendAndReact (sock 0)).entersHandle = false := by
        rw [Conn.entersHandle, hsent.write]
        simp [Conn.memcopy, hwrite]
      rw [Server.copyLoop, henters, if_neg Bool.false_ne_true]
      apply (h.turn (sock 0)).copyLoop_whole
      have hlength := hsent.length_le
      simp only [Conn.memcopy, Conn.pending, List.length_drop, List.length_append, List.length_take] at hlength hfits
      simp only [Server.set, Function.update_self, Conn.compact, Conn.pending, Conn.clearWrite, Conn.memcopy, List.length_drop]
      have := hconn.hd_le
      omega

/-! ## Runs -/

theorem Inv.write_of_waiting (h : Inv rest s) (hc : c ∈ s.stack.map Prod.fst) : (s.conn c).ev.write = false := by
  obtain ⟨f, hf, rfl⟩ := List.mem_map.mp hc
  exact (h.stack f hf).2

/-- A message is produced. -/
theorem Inv.produce (h : Inv (fun _ => []) s) (c : Fin num) (message : List UInt8) :
    Inv (Function.update (fun _ => []) c message)
      (s.set c { s.conn c with produced := (s.conn c).produced ++ message }) := by
  have hconn := h.conn c
  refine h.set c ⟨hconn.hd_le, hconn.length_le, hconn.start, fun hopen => ?_, ?_⟩ (h.closed c) h.write_of_waiting (h.moved c)
  · have hwhole := hconn.whole hopen
    rw [List.append_nil] at hwhole
    simp [Conn.pending, ← hwhole]
  · exact hconn.before.trans (List.prefix_append _ _)

/-- `c->handle(c)` returns to a loop that has copied its message. -/
theorem Inv.pop (h : Inv (fun _ => []) s) {left : List UInt8} {stack : List (Fin num × List UInt8)}
    (hstack : s.stack = (c, left) :: stack) : Inv (fun _ => []) ({ s with stack := stack }.set c (s.conn c).compact) := by
  refine ⟨fun d => ?_, fun d => ?_, fun f hf => ?_, fun d hd => ?_⟩
  · by_cases hdc : d = c
    · subst hdc
      simpa [Server.set] using (h.conn d).compact
    · simpa [Server.set, hdc] using h.conn d
  · by_cases hdc : d = c
    · subst hdc
      intro hclosed
      have hdata := h.closed d (by simpa [Server.set, Conn.compact] using hclosed)
      simp [Server.set, Conn.compact, Conn.pending, hdata]
    · simpa [Server.set, hdc] using h.closed d
  · have hf' := h.stack f (hstack ▸ List.mem_cons_of_mem _ hf)
    by_cases hdc : f.1 = c
    · rw [hdc] at hf'
      simpa [Server.set, Conn.compact, hdc] using hf'
    · simpa [Server.set, hdc] using hf'
  · by_cases hdc : d = c
    · simp [Server.set, Conn.compact, hdc] at hd
    · have hmem := h.moved d (by simpa [Server.set, hdc] using hd)
      rw [hstack, List.map_cons, List.mem_cons] at hmem
      exact hmem.resolve_left hdc

theorem Inv.event (h : Inv (fun _ => []) s) (hstack : s.stack = []) (e : Event num) : Inv (fun _ => []) (s.event e) := by
  have hnone : ∀ c, c ∉ s.stack.map Prod.fst := by simp [hstack]
  have hhd : ∀ c, (s.conn c).hd = 0 := by
    intro c
    by_contra hne
    exact hnone c (h.moved c hne)
  cases e with
  | delayRun c results =>
    have hsent := (h.conn c).sendAndReact results
    rw [Server.event]
    split
    · simpa only [update_nil] using h.push c hsent.holds hsent.closed
    · simpa only [update_nil] using h.compacted c hsent.holds hsent.closed
  | report c =>
    have hconn := h.conn c
    have hset := h.set c (x := { s.conn c with ev := { (s.conn c).ev with write := true } })
      ⟨hconn.hd_le, hconn.length_le, hconn.start, hconn.whole, hconn.before⟩ (h.closed c) (fun hc => absurd hc (hnone c))
      (h.moved c)
    rwa [update_nil] at hset
  | close c =>
    have hset := h.set c (h.conn c).netClose (fun _ => rfl) (fun hc => absurd hc (hnone c)) fun hne => absurd rfl hne
    rwa [update_nil] at hset
  | accept c =>
    rw [Server.event]
    split
    · exact h
    next hclosed =>
      have hdata := h.closed c (by simpa using hclosed)
      have hnew : Conn.Holds [] { s.conn c with
          isOpen := true, ev := { netReady := true, epollin := true }, wire := [], produced := [] } :=
        ⟨by simp [hhd c], by simp [hdata], nofun, fun _ => by simp [Conn.pending, hdata], List.prefix_rfl⟩
      have hset := h.set c hnew nofun (fun _ => rfl) (fun hne => absurd (hhd c) hne)
      rwa [update_nil] at hset

theorem Inv.step (h : Inv (fun _ => []) s) (a : Action num) (hfits : Fits s a) :
    ∃ s', s.step 2 a = some s' ∧ Inv (fun _ => []) s' := by
  cases a with
  | message c message sock =>
    apply (h.produce c message).copyLoop_ends
    rw [Fits] at hfits
    simpa [Server.set, Conn.pending] using hfits
  | handled sock =>
    cases hstack : s.stack with
    | nil => exact ⟨s, by rw [Server.step, hstack], h⟩
    | cons f stack =>
      obtain ⟨c, left⟩ := f
      have hleft : left = [] := (h.stack (c, left) (hstack ▸ List.mem_cons_self)).1
      refine ⟨_, ?_, h.pop hstack⟩
      rw [Server.step, hstack]
      dsimp only
      rw [hleft, Server.copyLoop]
  | event e =>
    rw [Server.step]
    split
    next hstack => exact ⟨_, rfl, h.event hstack e⟩
    · exact ⟨s, rfl, h⟩

end

theorem poolCreate_inv {num : ℕ} : Inv (fun _ => []) (Server.poolCreate fun _ : Fin num => ([], 0)) :=
  ⟨fun _ => ⟨Nat.le_refl _, Nat.zero_le _, fun _ => rfl, nofun, List.prefix_rfl⟩, fun _ _ => rfl, nofun,
    fun _ hne => absurd rfl hne⟩

/-- The buffers are empty at first, and every message fits when its loop begins. -/
theorem delivered_of_fits {num : ℕ} (sbuf : Fin num → List UInt8 × ℕ) (actions : List (Action num))
    (hempty : ∀ c, sbuf c = ([], 0)) (hfits : allAllowedM (Server.step 2) Fits (Server.poolCreate sbuf) actions) :
    Delivered (Server.poolCreate sbuf) actions := by
  obtain rfl : sbuf = fun _ => ([], 0) := funext hempty
  obtain ⟨t, hrun, hinv⟩ := run_invariantM (fun _ a h => h.step a) hfits poolCreate_inv
  refine ⟨2, t, hrun, fun c => ⟨(hinv.conn c).before, fun _ hopen => ?_⟩⟩
  have hwhole := (hinv.conn c).whole hopen
  rwa [List.append_nil] at hwhole

/-- A client asks for the size of a file, and the answer waits for the socket. -/
theorem delivered_of_fits_one : Delivered (Server.poolCreate fun _ : Fin 1 => ([], 0))
    [.event (.accept 0), .message 0 (List.replicate 40 7) fun _ => [.bytes 9, .eagain], .event (.report 0)] := by
  refine delivered_of_fits _ _ (fun _ => rfl) ?_
  refine ⟨trivial, fun s hs => ?_⟩
  cases hs
  exact ⟨by decide, fun _ _ => ⟨trivial, fun _ _ => trivial⟩⟩

/-! ## A socket that is never ready -/

/-- An open connection, with `GFS_EVENT_WRITE` not reported -/
structure Conn.Waiting (x : Conn) : Prop where
  isOpen : x.isOpen = true
  write : x.ev.write = false
  hd_le : x.hd ≤ x.data.length
  length_le : x.data.length ≤ sendBufferSize

theorem sendAndReact_again {y : Conn} (hopen : y.isOpen = true) :
    ∃ ev : EventLoop.Event, y.sendAndReact [] = { y with ev := ev } ∧ ev.write = y.ev.write := by
  have hsend : y.netTcpSend [] = if y.pending = [] then (.ok, y) else (.again, y) := by
    rw [Conn.netTcpSend, hopen]
    rfl
  rw [Conn.sendAndReact, hsend]
  by_cases hpending : y.pending = []
  · rw [if_pos hpending, Conn.react]
    dsimp only
    split
    · exact ⟨y.ev, rfl, rfl⟩
    · exact ⟨_, rfl, rfl⟩
  · rw [if_neg hpending]
    exact ⟨_, rfl, rfl⟩

/-- Nothing is sent, and what was copied is there. -/
theorem Conn.Waiting.turn {x : Conn} (h : x.Waiting) (message : List UInt8) :
    ((x.memcopy message).1.sendAndReact []).entersHandle = false ∧
      ((x.memcopy message).1.sendAndReact []).clearWrite.compact.Waiting ∧
      ((x.memcopy message).1.sendAndReact []).clearWrite.compact.pending.length + (x.memcopy message).2.length =
        x.pending.length + message.length := by
  obtain ⟨ev, hsent, hwrite⟩ := sendAndReact_again (y := (x.memcopy message).1) h.isOpen
  have hhd := h.hd_le
  have hlength := h.length_le
  have hwrite' : ev.write = false := hwrite.trans h.write
  rw [hsent]
  refine ⟨by simp [Conn.entersHandle, hwrite'], ⟨h.isOpen, rfl, Nat.zero_le _, ?_⟩, ?_⟩
  · simp only [Conn.memcopy, Conn.clearWrite, Conn.compact, Conn.pending, List.length_drop, List.length_append,
      List.length_take]
    omega
  · simp only [Conn.memcopy, Conn.clearWrite, Conn.compact, Conn.pending, List.length_drop, List.length_append,
      List.length_take]
    omega

theorem copyLoop_again {num : ℕ} {fuel : ℕ} {c : Fin num} {message : List UInt8} {s s' : Server num}
    (h : (s.conn c).Waiting) (hrun : Server.copyLoop fuel (fun _ => []) c message s = some s') :
    (s'.conn c).Waiting ∧ (s'.conn c).pending.length = (s.conn c).pending.length + message.length := by
  induction fuel generalizing s message with
  | zero =>
    cases message with
    | nil =>
      rw [Server.copyLoop] at hrun
      cases hrun
      exact ⟨h, rfl⟩
    | cons b message => cases hrun
  | succ fuel ih =>
    cases message with
    | nil =>
      rw [Server.copyLoop] at hrun
      cases hrun
      exact ⟨h, rfl⟩
    | cons b message =>
      obtain ⟨henters, hwaiting, hlength⟩ := h.turn (b :: message)
      rw [Server.copyLoop, henters, if_neg Bool.false_ne_true] at hrun
      obtain ⟨hwaiting', hlength'⟩ := ih (by simpa [Server.set] using hwaiting) hrun
      refine ⟨hwaiting', hlength'.trans ?_⟩
      simpa [Server.set] using hlength

theorem message_again {num : ℕ} {fuel : ℕ} {c : Fin num} {message : List UInt8} {s s' : Server num}
    (h : (s.conn c).Waiting) (hstep : s.step fuel (.message c message fun _ => []) = some s') :
    (s'.conn c).Waiting ∧ (s'.conn c).pending.length = (s.conn c).pending.length + message.length := by
  have hproduced : Conn.Waiting { s.conn c with produced := (s.conn c).produced ++ message } :=
    ⟨h.isOpen, h.write, h.hd_le, h.length_le⟩
  rw [Server.step] at hstep
  simpa [Server.set, Conn.pending] using copyLoop_again (by simpa [Server.set] using hproduced) hstep

/-- Two requests at once for files of many blocks, from a client that does not read: the loop of the second response
turns for ever. -/
theorem slow_reader_not_delivered : ¬ Delivered (Server.poolCreate fun _ : Fin 1 => ([], 0))
    [.event (.accept 0), .message 0 (List.replicate 3000 0) fun _ => [], .message 0 (List.replicate 3000 1) fun _ => []] := by
  rintro ⟨fuel, t, hrun, -⟩
  simp only [List.foldlM_cons, Option.bind_eq_bind, Option.bind_eq_some_iff] at hrun
  obtain ⟨s₁, haccept, s₂, hfirst, s₃, hsecond, -⟩ := hrun
  cases haccept
  obtain ⟨hwaiting, hlength⟩ := message_again ⟨rfl, rfl, Nat.le_refl _, Nat.zero_le _⟩ hfirst
  obtain ⟨hwaiting', hlength'⟩ := message_again hwaiting hsecond
  have hbound := hwaiting'.length_le
  have hpending : (s₃.conn 0).pending.length ≤ (s₃.conn 0).data.length := by
    rw [Conn.pending, List.length_drop]
    exact Nat.sub_le _ _
  rw [List.length_replicate] at hlength hlength'
  rw [sendBufferSize] at hbound
  omega

end Tefs.NameServer.SendPath
