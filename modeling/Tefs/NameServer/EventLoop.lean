import Tefs.Lib.Ring
import Tefs.Lib.Runs

/-! # The event loop of the name server

Source: `gfs_event_delay_run`, `gfs_event_loop_run` and `gfs_event_add` of `nameservice/event/gfs_event.c`,
`gfs_handle_tcp`, `gfs_handle_tcp_recv`, `gfs_handle_tcp_send` and `gfs_handle_tcp_close` of `core/gfs_handle.c`,
`gfs_net_node_get`, `gfs_net_close`, `gfs_net_timer_handle` and `gfs_net_memcopy` of `net/gfs_net.c`, `gfs_net_tcp_send`
and `gfs_net_tcp_recv` of `net/gfs_net_tcp.c`, the macros of `core/gfs_queue.h`.

The connections are the `num` nodes of the pool. An event waits in the delay queue through its own `qnode`. What the
business code does with a packet is seen here only by its sends: to the connection the packet came on, and to data
servers.
-/

namespace Tefs.NameServer.EventLoop
open Tefs.Ring Runs
set_option autoImplicit false

variable {num : ℕ}

/-! ## Data -/

/-- A `gfs_queue_t*` of the delay queue: `NULL`, `&loop->delay`, or the `qnode` of a connection's event. -/
inductive Ptr (num : ℕ)
  | null
  | delay
  | qnode (c : Fin num)
  deriving DecidableEq, Repr

/-- `sbuf`: `pos` is the end of the data, `hd` the start. -/
structure NetBuf where
  pos : ℕ
  hd : ℕ
  deriving DecidableEq, Repr

/-- `gfs_event_t`: the bits `GFS_NET_READY`, `GFS_EVENT_READ` and `GFS_EVENT_WRITE` of `ready`, then the events of
`flag` that epoll is asked for. -/
structure Event where
  netReady : Bool := false
  read : Bool := false
  write : Bool := false
  epollin : Bool := false
  epollout : Bool := false
  deriving DecidableEq, Repr

/-- `gfs_net_t`. `reported` is kept for the statements: `EPOLLOUT` has been reported since the last `EAGAIN`. -/
structure Net where
  fd : ℤ := -1
  ev : Event := {}
  sbuf : NetBuf
  reported : Bool := false
  deriving DecidableEq, Repr

/-- Who calls `gfs_handle_tcp_send`. -/
inductive Caller
  | delayRun
  | busi
  deriving DecidableEq, Repr

/-- The connections, the links of the delay queue and `free_list`. `attempts` is kept for the statements: the calls
of `gfs_net_tcp_send` with something to send since the last delay run began. -/
structure Loop (num : ℕ) where
  net : Fin num → Net
  links : Links (Ptr num)
  free : List (Fin num)
  attempts : List (Caller × Fin num) := []

/-- What `gfs_net_tcp_send` returns. -/
inductive SendRtn
  | ok
  | close
  | again
  deriving DecidableEq, Repr

/-- What `gfs_net_tcp_recv` returns. -/
inductive RecvRtn
  | close
  | again
  | outOfMemory
  deriving DecidableEq, Repr

/-- What `send` returns. -/
inductive SendReturn
  | bytes (n : ℕ)
  | eintr
  | eagain
  | error
  deriving DecidableEq, Repr

/-- A send of the business code: `bytes` are left of the message, `results` are what `send` returns, and `sends` are
what `c->handle(c)` sends, should `gfs_handle_tcp_send` call it. -/
inductive Send (num : ℕ)
  | mk (net : Fin num) (bytes : ℕ) (results : List SendReturn) (sends : List (Send num))

/-- What happens to an event that the delay run visits: the results of `send` and what `c->handle(c)` then sends, the
result of `gfs_net_tcp_recv` and what the packets behind it make the business code send. -/
structure Visit (num : ℕ) where
  results : List SendReturn := []
  afterSend : List (Send num) := []
  recv : RecvRtn := .again
  afterRecv : List (Send num) := []

/-! ## Queue and connections -/

/-- `GFS_NET_SEND_BUFFER_SIZE` -/
def sendBufferSize : ℕ := 4096

def NetBuf.remain (b : NetBuf) : ℕ := b.pos - b.hd

namespace Loop

def setNet (c : Fin num) (n : Net) (s : Loop num) : Loop num := { s with net := Function.update s.net c n }

def setEv (c : Fin num) (f : Event → Event) (s : Loop num) : Loop num :=
  s.setNet c { s.net c with ev := f (s.net c).ev }

def Open (s : Loop num) (c : Fin num) : Prop := (s.net c).fd ≠ -1

instance (s : Loop num) (c : Fin num) : Decidable (s.Open c) := inferInstanceAs (Decidable (_ ≠ _))

/-- `gfs_queue_insert_tail(&loop->delay, &ev->qnode)`; nothing comes back from a `NULL` pointer. -/
def queueInsertTail (c : Fin num) (s : Loop num) : Option (Loop num) :=
  if s.links.prev .delay = .null then none else some { s with links := s.links.insertTail .delay (.qnode c) }

def queueRemove (c : Fin num) (s : Loop num) : Option (Loop num) :=
  if s.links.next (.qnode c) = .null ∨ s.links.prev (.qnode c) = .null then none
  else some { s with links := s.links.remove (.qnode c) }

/-- `gfs_event_add`, whose `epoll_ctl` replaces what was asked for before. -/
def eventAdd (c : Fin num) (epollin epollout : Bool) (s : Loop num) : Loop num :=
  s.setEv c fun ev => { ev with epollin := epollin, epollout := epollout }

/-- `gfs_net_node_get` and then `gfs_handle_tcp`. The event is zeroed, its links too; `sbuf` is not touched. -/
def nodeGet (fd : ℤ) (s : Loop num) : Loop num :=
  match s.free with
  | [] => s
  | c :: free =>
    let s := { s with free := free, links := (s.links.setPrev (Ptr.qnode c) Ptr.null).setNext (Ptr.qnode c) Ptr.null }
    let s := s.setNet c { s.net c with fd := fd, ev := { netReady := true }, reported := false }
    s.eventAdd c true false

/-- `gfs_net_close`: the event's `qnode` and `ready` stay as they are. -/
def netClose (c : Fin num) (s : Loop num) : Loop num :=
  let s := s.setNet c { s.net c with fd := -1, sbuf := ⟨0, 0⟩ }
  { s with free := c :: s.free.erase c }

/-! ## Sending -/

/-- `gfs_net_memcopy` into `sbuf`, from a buffer with `bytes` left -/
def memcopy (c : Fin num) (bytes : ℕ) (s : Loop num) : Loop num :=
  let b := (s.net c).sbuf
  s.setNet c { s.net c with sbuf := { b with pos := b.pos + min (sendBufferSize - b.pos) bytes } }

end Loop

/-- The loop of `gfs_net_tcp_send`. -/
def NetBuf.sendLoop : List SendReturn → NetBuf → SendRtn × NetBuf
  | [], b => if b.remain = 0 then (.ok, b) else (.again, b)
  | r :: rs, b =>
    if b.remain = 0 then (.ok, b)
    else
      match r with
      | .bytes n => sendLoop rs { b with hd := b.hd + min n b.remain }
      | .eintr => sendLoop rs b
      | .eagain => (.again, b)
      | .error => (.close, b)

namespace Loop

/-- `gfs_net_tcp_send`; on a closed connection `send` fails, as its `fd` is -1. -/
def netTcpSend (caller : Caller) (c : Fin num) (results : List SendReturn) (s : Loop num) : SendRtn × Loop num :=
  let n := s.net c
  let (rtn, b) := n.sbuf.sendLoop (if n.fd = -1 then [.error] else results)
  let s := s.setNet c { n with sbuf := b, reported := n.reported && rtn ≠ .again }
  (rtn, { s with attempts := if n.sbuf.remain = 0 then s.attempts else s.attempts ++ [(caller, c)] })

/-- `gfs_handle_tcp_send` up to its test of `GFS_EVENT_WRITE` -/
def sendAndReact (caller : Caller) (c : Fin num) (results : List SendReturn) (s : Loop num) : Loop num :=
  match s.netTcpSend caller c results with
  | (.close, s) => s.netClose c
  | (.again, s) => (s.setEv c fun ev => { ev with netReady := false }).eventAdd c false true
  | (.ok, s) =>
    if (s.net c).ev.netReady then s
    else (s.setEv c fun ev => { ev with netReady := true }).eventAdd c true false

/-- The `memmove` at the end of `gfs_handle_tcp_send` -/
def compact (c : Fin num) (s : Loop num) : Loop num :=
  let b := (s.net c).sbuf
  s.setNet c { s.net c with sbuf := ⟨b.pos - b.hd, 0⟩ }

/-- `gfs_handle_tcp_send`, with what `c->handle(c)` does as a parameter. -/
def handleTcpSend (handle : Loop num → Loop num) (caller : Caller) (c : Fin num) (results : List SendReturn)
    (s : Loop num) : Loop num :=
  let s := s.sendAndReact caller c results
  let s := if (s.net c).ev.write then handle (s.setEv c fun ev => { ev with write := false }) else s
  s.compact c

end Loop

mutual

/-- One turn of the loops of `gfs_busi_handle` and `gfs_busi_notice.c`: `gfs_net_memcopy`, then
`gfs_handle_tcp_send`. -/
def Send.run : Send num → Loop num → Loop num
  | .mk c bytes results sends, s => (s.memcopy c bytes).handleTcpSend (busiSends sends) .busi c results

/-- `gfs_handle_tcp_parse`, or a timer's notices: their sends one after the other. -/
def busiSends : List (Send num) → Loop num → Loop num
  | [], s => s
  | send :: sends, s => busiSends sends (send.run s)

end

/-! ## The delay run -/

namespace Loop

/-- `gfs_handle_tcp_recv`; on a closed connection `recv` fails. -/
def handleTcpRecv (c : Fin num) (v : Visit num) (s : Loop num) : RecvRtn × Loop num :=
  let rtn := if s.Open c then v.recv else .close
  if rtn = .close then (rtn, s.netClose c) else (rtn, busiSends v.afterRecv s)

/-- The `GFS_EVENT_WRITE` part of a turn of `gfs_event_delay_run` -/
def visitWrite (c : Fin num) (v : Visit num) (s : Loop num) : Loop num :=
  if (s.net c).ev.write then s.handleTcpSend (busiSends v.afterSend) .delayRun c v.results else s

/-- A turn of the loop of `gfs_event_delay_run` -/
def visit (c : Fin num) (v : Visit num) (s : Loop num) : Option (Loop num) :=
  if (s.net c).ev.netReady then
    let s := s.visitWrite c v
    if (s.net c).ev.read then
      match s.handleTcpRecv c v with
      | (.outOfMemory, s) => some s
      | (.again, s) => (s.setEv c fun ev => { ev with read := false }).queueRemove c
      | (.close, s) => s.queueRemove c
    else s.queueRemove c
  else some s

/-- The loop of `gfs_event_delay_run` from `q` on; `i` events have been visited. Nothing comes back when it follows a
`NULL` pointer, or makes more than `fuel` turns. -/
def delayLoop (visits : ℕ → Visit num) : ℕ → ℕ → Ptr num → Loop num → Option (Loop num)
  | _, _, .delay, s => some s
  | _, _, .null, _ => none
  | 0, _, .qnode _, _ => none
  | fuel + 1, i, .qnode c, s =>
    (s.visit c (visits i)).bind fun s => delayLoop visits fuel (i + 1) (s.links.next (.qnode c)) s

/-- `gfs_event_delay_run`; a list without repetition has at most `num` events. -/
def delayRun (visits : ℕ → Visit num) (s : Loop num) : Option (Loop num) :=
  delayLoop visits num 0 (s.links.next .delay) { s with attempts := [] }

/-- A report of `epoll_wait` without `EPOLLERR`, `EPOLLHUP` and `EPOLLRDHUP` -/
def report (c : Fin num) (epollin epollout : Bool) (s : Loop num) : Option (Loop num) :=
  (if (s.net c).ev.read then some s else s.queueInsertTail c).map fun s =>
    s.setNet c { s.net c with
      ev := { (s.net c).ev with read := (s.net c).ev.read || epollin, write := (s.net c).ev.write || epollout }
      reported := (s.net c).reported || epollout }

end Loop

/-! ## Runs -/

/-- What `gfs_event_loop_run` does next: a connection's timer or the notice timer fires, the delay run, a report of
`epoll_wait` with or without an error, an accepted connection. -/
inductive Action (num : ℕ)
  | timeout (c : Fin num)
  | notices (sends : List (Send num))
  | delayRun (visits : ℕ → Visit num)
  | report (c : Fin num) (epollin epollout : Bool)
  | hangup (c : Fin num)
  | accept (fd : ℤ)

namespace Loop

def step (s : Loop num) : Action num → Option (Loop num)
  | .timeout c => some (s.netClose c)
  | .notices sends => some (busiSends sends s)
  | .delayRun visits => s.delayRun visits
  | .report c epollin epollout => s.report c epollin epollout
  | .hangup c => some (s.netClose c)
  | .accept fd => some (s.nodeGet fd)

/-- After `gfs_net_pool_create` and `gfs_event_loop_create`; `pos` and `hd` of the buffers are never set. -/
def init (sbuf : Fin num → NetBuf) : Loop num where
  net c := { sbuf := sbuf c }
  links := ({ prev := fun _ => .null, next := fun _ => .null } : Links (Ptr num)).init .delay
  free := List.finRange num

/-- What the kernel and the timers promise: they speak of open connections, and epoll reports what it was asked
for. -/
def Enabled (s : Loop num) : Action num → Prop
  | .timeout c => s.Open c
  | .hangup c => s.Open c
  | .report c epollin epollout =>
    s.Open c ∧ (epollin → (s.net c).ev.epollin) ∧ (epollout → (s.net c).ev.epollout)
  | .accept fd => fd ≠ -1
  | .notices _ => True
  | .delayRun _ => True

instance (s : Loop num) : ∀ a, Decidable (s.Enabled a)
  | .timeout c => inferInstanceAs (Decidable (s.Open c))
  | .hangup c => inferInstanceAs (Decidable (s.Open c))
  | .report _ _ _ => inferInstanceAs (Decidable (_ ∧ (_ → _) ∧ (_ → _)))
  | .accept _ => inferInstanceAs (Decidable (_ ≠ _))
  | .notices _ => .isTrue trivial
  | .delayRun _ => .isTrue trivial

/-- The delay list is a ring of events of open connections, each of them once. -/
def Queued (s : Loop num) : Prop := ∃ l : List (Fin num), Holds s.links .delay (l.map .qnode) ∧ ∀ c ∈ l, s.Open c

/-- The connection is open, has bytes to send, and `EPOLLOUT` has been reported since its last `EAGAIN`. -/
def Owed (s : Loop num) (c : Fin num) : Prop := s.Open c ∧ 0 < (s.net c).sbuf.remain ∧ (s.net c).reported

instance (s : Loop num) (c : Fin num) : Decidable (s.Owed c) := inferInstanceAs (Decidable (_ ∧ _ ∧ _))

/-- Since the last delay run began, the bytes of the connection were given to `send`. -/
def Attempted (s : Loop num) (c : Fin num) : Prop := ∃ caller, (caller, c) ∈ s.attempts

end Loop

end Tefs.NameServer.EventLoop
