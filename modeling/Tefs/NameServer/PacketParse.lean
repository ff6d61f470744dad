import Tefs.Lib.Framing
import Tefs.Lib.Runs

/-! # Requests on a connection of the name server

Source: `gfs_net_packet_parse_tcp` of `nameservice/net/gfs_net.c`, `gfs_handle_tcp_recv` and
`gfs_handle_tcp_parse` of `core/gfs_handle.c`, `gfs_net_tcp_recv` of `net/gfs_net_tcp.c`, `gfs_net_close`.

Each read event is a round: the socket is emptied into `rbuf`, then the requests in `rbuf` are handed to
`gfs_busi_handle` one by one. The parser waits for the rest of a request only when the buffer is full; in
any other round it drops what is not complete. A write event parses too, without reading.

`gfs_busi_handle` sends its answer itself. If that send fails, `gfs_net_close` empties `rbuf` under the loop, and
`GFS_OK` is returned all the same.
-/

namespace Tefs.NameServer.PacketParse
open Runs Wire Framing
set_option autoImplicit false

/-! ## The buffer -/

/-- `GFS_NET_RECV_BUFFER_SIZE`, the `len` of `rbuf` -/
def recvBufferSize : ℕ := 4096

/-- `gfs_net_buf_t`, with the memory behind it -/
structure NetBuf where
  data : ℤ → BitVec 8
  hd : ℕ := 0
  pos : ℕ := 0

namespace NetBuf

def size (b : NetBuf) : ℕ := b.pos - b.hd

def unparsed (b : NetBuf) : List (BitVec 8) := bytesAt b.data b.hd b.size

/-- `ntohl(*(gfs_uint32*)(data + p))` -/
def word (b : NetBuf) (p : ℕ) : ℕ := (ofBigEndian 32 (bytesAt b.data p 4)).toNat

def append (bs : List (BitVec 8)) (b : NetBuf) : NetBuf :=
  { b with data := lay b.data b.pos (bs.map some), pos := b.pos + bs.length }

/-- The loop of `gfs_net_packet_parse_tcp` with `left` bytes from `pdata` to `pend`: the packet as its place and its
length, `rtn`, and the places of the words that were read: `pu[0]` and `pu[2]` in each turn, the separator where the
packet fits. The length is read at `pu`, which does not move with `pdata`. -/
def scanReads (b : NetBuf) : ℕ → (Option (ℕ × ℕ) × ℕ) × List ℕ
  | 0 => ((none, b.size), [])
  | left + 1 =>
    let rtn := b.size - (left + 1)
    let len := b.word b.hd
    let head := [b.hd, b.hd + 8]
    let again := ((b.scanReads left).1, head ++ (b.scanReads left).2)
    let separator := b.hd + rtn + len - 4
    if 2048 < len ∨ len < 16 then again
    else if b.size < rtn + len then
      if b.pos < recvBufferSize then again
      else if b.pos = recvBufferSize then ((none, rtn), head)
      else ((none, b.size), head)
    else if b.word separator ≠ 0 then (again.1, head ++ separator :: (b.scanReads left).2)
    else ((some (b.hd + rtn, len), rtn + len), head ++ [separator])

/-- The loop's result alone -/
def scan (b : NetBuf) (left : ℕ) : Option (ℕ × ℕ) × ℕ := (b.scanReads left).1

theorem scan_succ (b : NetBuf) (left : ℕ) :
    b.scan (left + 1) =
      if 2048 < b.word b.hd ∨ b.word b.hd < 16 then b.scan left
      else if b.size < b.size - (left + 1) + b.word b.hd then
        if b.pos < recvBufferSize then b.scan left
        else if b.pos = recvBufferSize then (none, b.size - (left + 1))
        else (none, b.size)
      else if b.word (b.hd + (b.size - (left + 1)) + b.word b.hd - 4) ≠ 0 then b.scan left
      else (some (b.hd + (b.size - (left + 1)), b.word b.hd), b.size - (left + 1) + b.word b.hd) := by
  unfold scan
  rw [scanReads]
  simp only [apply_ite Prod.fst]

def packetParseTcp (b : NetBuf) : Option (ℕ × ℕ) × ℕ := b.scan b.size

/-- The end of `gfs_handle_tcp_parse` -/
def compact (b : NetBuf) : NetBuf :=
  if b.pos < b.hd ∨ recvBufferSize < b.pos ∨ recvBufferSize < b.hd then { b with hd := 0, pos := 0 }
  else { data := lay b.data 0 (b.unparsed.map some), hd := 0, pos := b.size }

end NetBuf

/-! ## The connection -/

/-- How a call of `gfs_busi_handle` ends: with `GFS_OK`, with `GFS_OK` after its send has closed the connection
(any error but `EAGAIN` does), or with `GFS_ERR`. -/
inductive BusiResult
  | ok
  | closed
  | err
  deriving DecidableEq, Repr

/-- `received` counts the bytes of the peer's stream that were read, `handed` are the packets
`gfs_busi_handle` got. -/
structure Conn where
  rbuf : NetBuf
  received : ℕ := 0
  handed : List (List (BitVec 8)) := []
  closed : Bool := false

namespace Conn

def recv (stream : List (BitVec 8)) (n : ℕ) (c : Conn) : Conn :=
  { c with rbuf := c.rbuf.append ((stream.drop c.received).take n), received := c.received + n }

/-- `gfs_net_close` -/
def netClose (c : Conn) : Conn := { c with rbuf := { c.rbuf with hd := 0, pos := 0 }, closed := true }

/-- The loop of `gfs_handle_tcp_parse`; `result` says how the calls of `gfs_busi_handle` end. -/
def handleTcpParse (result : ℕ → BusiResult) : ℕ → ℕ → Conn → Conn
  | 0, _, c => c
  | rounds + 1, calls, c =>
    let (packet, rtn) := c.rbuf.packetParseTcp
    let c := { c with rbuf := { c.rbuf with hd := c.rbuf.hd + rtn } }
    match packet with
    | none => { c with rbuf := c.rbuf.compact }
    | some (start, plen) =>
      let c := { c with handed := c.handed ++ [bytesAt c.rbuf.data start plen] }
      match result calls with
      | .ok => handleTcpParse result rounds (calls + 1) c
      | .closed => handleTcpParse result rounds (calls + 1) c.netClose
      | .err => c

end Conn

/-- A round that reads `n` bytes before `recv` would block or the buffer is full, and one that reads them
before the peer's close. The idle timer's close reads none. -/
inductive Action
  | round (n : ℕ) (result : ℕ → BusiResult)
  | close (n : ℕ)

def Action.bytes : Action → ℕ
  | .round n _ => n
  | .close n => n

def step (stream : List (BitVec 8)) (c : Conn) : Action → Conn
  | .round n result =>
    let c := c.recv stream n
    c.handleTcpParse result (c.rbuf.size + 1) 0
  | .close n => (c.recv stream n).netClose

def Enabled (stream : List (BitVec 8)) (c : Conn) (a : Action) : Prop :=
  c.closed = false ∧ c.rbuf.pos + a.bytes ≤ recvBufferSize ∧ c.received + a.bytes ≤ stream.length

instance (stream : List (BitVec 8)) (c : Conn) (a : Action) : Decidable (Enabled stream c a) :=
  inferInstanceAs (Decidable (_ ∧ _))

/-! ## Framing -/

/-- A request says how long it is and ends with the separator. -/
structure Request where
  bytes : List (BitVec 8)
  lower : 16 ≤ bytes.length
  upper : bytes.length ≤ 2048
  len : (ofBigEndian 32 (bytes.take 4)).toNat = bytes.length
  separator : ofBigEndian 32 (bytes.drop (bytes.length - 4)) = 0

def packets (requests : List Request) : List (List (BitVec 8)) := requests.map Request.bytes

def streamOf (requests : List Request) : List (BitVec 8) := (packets requests).flatten

/-- The business handler got exactly the requests that have come completely, and what has come of the next
one is in the buffer. -/
structure Correct (requests : List Request) (c : Conn) : Prop where
  handed : c.handed = arrived (packets requests) c.received
  suffix : c.closed = false →
    c.rbuf.unparsed = ((streamOf requests).take c.received).drop c.handed.flatten.length

/-- The requests that become complete with `n` more bytes -/
def fresh (requests : List Request) (c : Conn) (n : ℕ) : List (List (BitVec 8)) :=
  (arrived (packets requests) (c.received + n)).drop c.handed.length

/-- Where the next request begins in the buffer -/
def cut (requests : List Request) (c : Conn) (n : ℕ) : ℕ := (fresh requests c n).flatten.length

/-- A length that passes for one -/
def ValidLen (len : ℕ) : Prop := 16 ≤ len ∧ len ≤ 2048

instance (len : ℕ) : Decidable (ValidLen len) := inferInstanceAs (Decidable (_ ∧ _))

/-- Every request but the last of a round is handled without error, and the connection stays open. The round ends
with a request, or the last one is handled with an error or its answer closes the connection, or the buffer is full
up to its end and a valid length stands where the next request begins. Before a close no request becomes complete. -/
def Tidy (requests : List Request) (c : Conn) : Action → Prop
  | .round n result =>
    (∀ i < (fresh requests c n).length - 1, result i = .ok) ∧
      (c.rbuf.size + n = cut requests c n ∨
        (fresh requests c n ≠ [] ∧ result ((fresh requests c n).length - 1) ≠ .ok) ∨
        (c.rbuf.pos + n = recvBufferSize ∧
          ValidLen ((c.recv (streamOf requests) n).rbuf.word (c.rbuf.hd + cut requests c n))))
  | .close n => fresh requests c n = []

instance (requests : List Request) (c : Conn) : ∀ a, Decidable (Tidy requests c a)
  | .round _ _ => inferInstanceAs (Decidable (_ ∧ _))
  | .close _ => inferInstanceAs (Decidable (_ = _))

end Tefs.NameServer.PacketParse
