import Mathlib.Data.Finset.Card
import Tefs.Lib.Heap
import Tefs.Message.DownloadList

/-! # What a request takes from the pool of its connection

Source: `nameservice/busi/gfs_busi.c`, the parse functions of all types, the handlers and `tobuf` functions of
`gfs_busi_login.c`, `gfs_busi_upload.c`, `gfs_busi_download.c`, `gfs_busi_delete_file.c` and `gfs_busi_getfsize.c`,
`gfs_mysql_download` of `nameservice/sql/gfs_sql.c`, and `gfs_mem_malloc` and `gfs_mem_free` of
`nameservice/core/gfs_mem.c`.

`gfs_busi_handle` copies the packet into the pool, runs the functions of its type there and sends what they leave in
`busi->sbuf`. The parse functions turn the copy to host order in place, and believe the length that it says itself. A send
can hand further packets of the same connection to `gfs_busi_handle` before it returns.

A result `none` is a run that leaves what C defines: a block is freed that is not live, or bytes are stored outside
their block. Only `gfs_mysql_download` is given the pool; the other calls of the database, and the result codes they
lead to, change no size.
-/

namespace Tefs.NameServer.Requests
open Message Wire
set_option autoImplicit false

/-! ## The pool -/

/-- `gfs_mem_align(n, 8)` -/
def align8 (n : ℕ) : ℕ := (n + 7) / 8 * 8

/-- The size of a large block is a 32-bit number. -/
def Fits (size : ℕ) : Prop := align8 size + 48 < 2 ^ 32

instance (size : ℕ) : Decidable (Fits size) := inferInstanceAs (Decidable (_ < _))

/-- The size in the header of the block. `slack` is what the free block had in excess, where it was too little to be
divided. -/
def blockSize (slack size : ℕ) : ℕ :=
  if size ≤ 16 then 48 + slack else if 3072 < size then align8 size + 48 else align8 size + 32 + slack

/-- What of the block is its owner's: not the word for the size, the pool's address behind it and the word at the end; of
a large block all that was asked for. -/
def payload (slack size : ℕ) : ℕ := if 3072 < size then align8 size else blockSize slack size - 24

/-- `gfs_mem_malloc`. Where the sum wraps, the block does not have the bytes it was asked for and its owner stores
behind it. -/
def malloc (slack : ℕ → ℕ) (size : ℕ) (pool : Heap) : Option (Option ℕ × Heap) :=
  if size = 0 then some (none, pool)
  else if Fits size then some (some pool.next, pool.alloc (blockSize (slack pool.next) size))
  else none

/-- `gfs_mem_free` -/
def free (ptr : Option ℕ) (pool : Heap) : Option Heap :=
  match ptr with
  | none => some pool
  | some id => pool.release id

/-! ## A packet -/

/-- `data` and `len` as `gfs_busi_handle` is given them; `rest` is what the block behind `rbuf` holds from `len` on, and
`slack` what it has in excess. -/
structure Packet where
  data : ℤ → BitVec 8
  len : BitVec 32
  rest : ℤ → BitVec 8
  slack : ℕ

namespace Packet

def rbuf (packet : Packet) (q : ℤ) : BitVec 8 := if q < packet.len.toNat then packet.data q else packet.rest q

/-- Read at `data`, not at the copy. -/
def type (packet : Packet) : ℕ := (ntohl (hostInt 32 4 packet.data 8)).toNat

/-- The bytes of the block behind `rbuf` -/
def room (packet : Packet) : ℕ := payload packet.slack packet.len.toNat

end Packet

/-- Where a member stands and how long it is -/
def memberAt {ι : Type} [DecidableEq ι] (ms : List (ι × Member)) (f : ι) : ℕ × ℕ :=
  (((place 0 ms).find? fun m => m.1 = f).map Prod.snd).getD (0, 0)

/-- The length that the parse function of the type asks for, and the members it stores when `head.len` is that -/
def parsed : ℕ → BitVec 32 × List (ℕ × ℕ)
  | 1 => (48, [.encrypt, .type, .dsid, .remain, .disk, .port, .separate].map (memberAt reqLogin))
  | 2 => (52, memberAt reqHead .encrypt :: [.fsize, .bnum, .bindex, .separate].map (memberAt reqUpload))
  | 3 => (40, [memberAt reqHead .encrypt, memberAt reqDownload .bindex])
  | 4 => (36, [memberAt reqHead .encrypt, memberAt reqFile .separate])
  | 6 => (40, [.encrypt, .remain, .separate].map (memberAt nteDelblock))
  | 8 => (44, [.encrypt, .id, .dsid, .remain, .separate].map (memberAt nteCpyBlock))
  | 9 => (28, [.encrypt, .type, .weighted].map (memberAt heartbeat))
  | 10 => (36, [memberAt reqHead .encrypt, memberAt reqFile .separate])
  | _ => (0, [])

/-- The stores of the parse function into `rbuf`, `head.len` first -/
def Packet.stores (packet : Packet) : List (ℕ × ℕ) :=
  (0, 4) :: if (readHead packet.rbuf).len = (parsed packet.type).1 then (parsed packet.type).2 else []

/-- How `gfs_mysql_download` ends: without a connection or with a failed query, without a result set, with an empty
one, or with a file id and the rows of its blocks. `num` is what the number of rows is as a `gfs_int32`, and
`blist` the entries of the list. -/
inductive Download
  | failed
  | error
  | empty
  | found (fid : BitVec 64) (num : BitVec 32) (blist : ℕ → Message.SqlBlock)

/-- What the functions of a request find outside the packet -/
structure Outcome where
  /-- `num` after `gfs_net_map_gettopn`, which fills at most the three it is asked for -/
  gettopn : Option (Fin 4)
  download : Download
  /-- `gfs_net_map_get` -/
  net : BitVec 32 → Option Message.DataServer
  /-- What the blocks behind `rsh` and `sbuf` hold when they are new -/
  rsh : ℤ → BitVec 8
  pdata : ℤ → BitVec 8

/-- A response: the bytes asked for, where bytes were stored and how many, and the length field. -/
structure Response where
  allocated : ℕ
  stores : List (ℕ × ℕ)
  len : ℕ

namespace Response

def written (r : Response) : Finset ℕ := (r.stores.flatMap fun store => List.range' store.1 store.2).toFinset

end Response

/-! ## Creating and destroying `busi` -/

structure Busi where
  busi : ℕ
  rbuf : ℕ
  rsh : ℕ

/-- `sizeof(gfs_busi_t)` -/
def sizeofBusi : ℕ := 112

/-- `gfs_busi_data[type].rsp_size` -/
def rspSize : ℕ → ℕ
  | 1 => 28
  | 2 => 56
  | 3 => 56
  | 4 => 24
  | 6 => 48
  | 8 => 48
  | 9 => 48
  | 10 => 40
  | _ => 0

section Handling

variable (slack : ℕ → ℕ) (copies : ℕ)

/-- `gfs_busi_create` from the check of the type on -/
def createRsh (busi rbuf : ℕ) (packet : Packet) (pool : Heap) : Option (Option Busi × Heap) :=
  -- this return frees neither block
  if packet.type < 1 ∨ 10 < packet.type then some (none, pool)
  else do
    let (rsh, pool) ← malloc slack (rspSize packet.type) pool
    match rsh with
    | none =>
      let pool ← free (some rbuf) pool
      let pool ← free (some busi) pool
      some (none, pool)
    | some rsh => some (some ⟨busi, rbuf, rsh⟩, pool)

/-- `gfs_busi_create` -/
def create (packet : Packet) (pool : Heap) : Option (Option Busi × Heap) := do
  let (busi, pool) ← malloc slack sizeofBusi pool
  match busi with
  | none => some (none, pool)
  | some busi =>
    let (rbuf, pool) ← malloc (fun _ => packet.slack) packet.len.toNat pool
    match rbuf with
    | none =>
      let pool ← free (some busi) pool
      some (none, pool)
    | some rbuf => createRsh slack busi rbuf packet pool

/-- `gfs_busi_destory` -/
def destory (b : Busi) (sbuf : Option ℕ) (pool : Heap) : Option Heap := do
  let pool ← free (some b.rsh) pool
  let pool ← free (some b.rbuf) pool
  let pool ← free sbuf pool
  free (some b.busi) pool

/-! ## The functions of the types -/

/-- The parse function, where its stores stay in the block. What it reads is read again where it is needed. -/
def parse (packet : Packet) : Option Unit :=
  if ∀ store ∈ packet.stores, store.1 + store.2 ≤ packet.room then some () else none

/-- The block behind `busi->sbuf.data`. Were it `NULL`, the send would read from there. -/
def sendBuffer (response : Response) (pool : Heap) : Option ((Response × ℕ) × Heap) := do
  let (data, pool) ← malloc slack response.allocated pool
  match data with
  | none => none
  | some sbuf => some ((response, sbuf), pool)

/-- The length is passed to `gfs_mem_malloc` in network order. -/
def loginResponse : Response := ⟨(ntohl 28).toNat, [(0, 28)], 28⟩

def deleteFileResponse : Response := ⟨24, [(0, 24)], 24⟩

/-- The length is passed to `gfs_mem_malloc` in network order. -/
def getfsizeResponse : Response := ⟨(ntohl 36).toNat, [(0, 20), (20, 8), (28, 4), (32, 4)], 36⟩

/-- `rsp->dsnum` when `gfs_busi_upload_handle` returns -/
def dsnum (packet : Packet) (sql : Outcome) : ℕ :=
  match uploadParse packet.rbuf with
  | none => 0
  | some req =>
    if req.head.encrypt ≠ 0 then 0
    else if req.bindex.toInt < -1 ∨ req.bnum < 1 ∨ req.fsize = 0 then 0
    else if 150 < req.bnum then 0
    else match sql.gettopn with
      | none => 0
      | some num => num

def uploadResponse (num : ℕ) : Response :=
  ⟨36 + num * 20, [(0, 20), (20, 8), (28, 4), (32, num * 20), (32 + num * 20, 4)], 36 + num * 20⟩

def upload (packet : Packet) (sql : Outcome) (pool : Heap) : Option ((Response × ℕ) × Heap) := do
  let num := dsnum packet sql
  let (dslist, pool) ← if num = 0 then some (none, pool) else malloc slack (num * 20) pool
  let (sbuf, pool) ← sendBuffer slack (uploadResponse num) pool
  let pool ← free dslist pool
  some (sbuf, pool)

/-- `blist` and `bnum`. The loop that fills the list runs to `num`, a signed number. -/
def gfsMysqlDownload (download : Download) (pool : Heap) : Option ((Option ℕ × BitVec 32) × Heap) :=
  match download with
  | .found _ num _ => do
    let (pdata, pool) ← malloc slack (num * 16).toNat pool
    match pdata with
    | none => some ((none, 0), pool)
    | some blist => if 16 * num.toInt ≤ (num * 16).toNat then some ((some blist, num), pool) else none
  | _ => some ((none, 0), pool)

/-- Whether `gfs_busi_download_handle` comes to its query -/
def asks (packet : Packet) : Bool :=
  match downloadParse packet.rbuf with
  | none => false
  | some req => decide (req.head.encrypt = 0 ∧ -1 ≤ req.bindex.toInt)

/-- `busi->data` and `rsp->bnum` -/
def downloadHandle (packet : Packet) (sql : Outcome) (pool : Heap) : Option ((Option ℕ × BitVec 32) × Heap) := do
  if asks packet then
    let ((blist, bnum), pool) ← gfsMysqlDownload slack sql.download pool
    if bnum < 1 ∨ blist = none then some ((none, 0), pool) else some ((blist, bnum), pool)
  else some ((none, 0), pool)

/-- The stores of one turn of the loop: `bindex`, and for a known data server `ip` and `port` -/
def turnStores (net : BitVec 32 → Option Message.DataServer) (l : BlockLoop) (row : Message.SqlBlock) : List (ℕ × ℕ) :=
  if l.stopped ∨ l.Enough copies row ∨ 150 < l.b then []
  else (32 + 24 * l.b, 4) ::
    if (net row.dsid).isSome then [(32 + 24 * l.b + 8, 4), (32 + 24 * l.b + 4, 4)] else []

def loopStores (net : BitVec 32 → Option Message.DataServer) : BlockLoop → List Message.SqlBlock → List (ℕ × ℕ)
  | _, [] => []
  | l, row :: rows => turnStores copies net l row ++ loopStores net (l.turn copies net row) rows

def Download.fid : Download → BitVec 64
  | .found fid _ _ => fid
  | _ => 0

/-- What the loop finds: `rsp->head` and `rsp->fid` are in the buffer. -/
def loopStart (packet : Packet) (sql : Outcome) : BlockLoop :=
  let head := readHead packet.rbuf
  startLoop sql.rsh sql.pdata head.id head.msgType 0 sql.download.fid

/-- The entries of `blist` that the loop reads -/
def rows (download : Download) (bnum : BitVec 32) : List Message.SqlBlock :=
  match download with
  | .found _ _ blist => (List.range bnum.toNat).map blist
  | _ => []

def downloadResponse (packet : Packet) (sql : Outcome) (bnum : BitVec 32) : Response :=
  let l := loopStart packet sql
  let blocks := rows sql.download bnum
  let last := blocks.foldl (BlockLoop.turn copies sql.net) l
  ⟨if bnum = 0 then 36 else (bnum * 24 + 36).toNat,
    [(0, 20), (20, 8)] ++ loopStores copies sql.net l blocks ++ [(28, 4), (32 + 24 * last.b, 4), (0, 4)],
    last.queued.toNat⟩

def download (packet : Packet) (sql : Outcome) (pool : Heap) : Option ((Response × ℕ) × Heap) := do
  let ((blist, bnum), pool) ← downloadHandle slack packet sql pool
  let (sbuf, pool) ← sendBuffer slack (downloadResponse copies packet sql bnum) pool
  let pool ← free blist pool
  some (sbuf, pool)

/-- The handler and the `tobuf` of the type, behind its parse. Those of the types 6, 8 and 9 leave `busi->sbuf` empty. -/
def answer (packet : Packet) (sql : Outcome) (pool : Heap) : Option (Option (Response × ℕ) × Heap) :=
  match packet.type with
  | 1 => (sendBuffer slack loginResponse pool).map (Prod.map some id)
  | 2 => (upload slack packet sql pool).map (Prod.map some id)
  | 3 => (download slack copies packet sql pool).map (Prod.map some id)
  | 4 => (sendBuffer slack deleteFileResponse pool).map (Prod.map some id)
  | 10 => (sendBuffer slack getfsizeResponse pool).map (Prod.map some id)
  | _ => some (none, pool)

/-- `gfs_busi_handle` once there is a `busi`, with the responses in the order they are sent. `send` is what the
packets do that the send loop hands on. -/
def serve (send : Heap → Option (List Response × Heap)) (busi : Busi) (packet : Packet) (sql : Outcome) (pool : Heap) :
    Option (List Response × Heap) := do
  parse packet
  let (sbuf, pool) ← answer slack copies packet sql pool
  match sbuf with
  | none =>
    let pool ← destory busi none pool
    some ([], pool)
  | some (response, sbuf) =>
    let (responses, pool) ← send pool
    let pool ← destory busi (some sbuf) pool
    some (response :: responses, pool)

/-- `gfs_busi_handle` -/
def handle (send : Heap → Option (List Response × Heap)) (packet : Packet) (sql : Outcome) (pool : Heap) :
    Option (List Response × Heap) := do
  let (busi, pool) ← create slack packet pool
  match busi with
  | none => some ([], pool)
  | some busi => serve slack copies send busi packet sql pool

end Handling

/-- Calls of `gfs_busi_handle` on a connection that stays open: a packet, the calls made while its response is sent,
and the calls after it. A call that does not return is not among them. -/
inductive Calls
  | done
  | call (packet : Packet) (sql : Outcome) (within rest : Calls)

def Calls.run (slack : ℕ → ℕ) (copies : ℕ) : Calls → Heap → Option (List Response × Heap)
  | .done, pool => some ([], pool)
  | .call packet sql within rest, pool => do
    let (sent, pool) ← handle slack copies (within.run slack copies) packet sql pool
    let (later, pool) ← rest.run slack copies pool
    some (sent ++ later, pool)

/-! ## What is asked of a run -/

namespace Response

/-- The number of bytes written is the length field, and at least as many were allocated. -/
def Filled (r : Response) : Prop := r.written.card ≤ r.allocated ∧ r.written.card = r.len

/-- The last byte written is the last by the length field, and it is inside the block. -/
def Reaches (r : Response) : Prop :=
  (∀ store ∈ r.stores, store.1 + store.2 ≤ r.len) ∧ (∃ store ∈ r.stores, store.1 + store.2 = r.len) ∧
    r.len ≤ r.allocated

end Response

/-- `msize` is what it was, every block of before is still there (and so what was freed had been allocated on the
way), and the responses are `good`. -/
def Neutral (good : Response → Prop) (slack : ℕ → ℕ) (copies : ℕ) (calls : Calls) (pool : Heap) : Prop :=
  ∃ responses pool', calls.run slack copies pool = some (responses, pool') ∧ pool'.size = pool.size ∧
    (∀ id bytes, pool.live id = some bytes → pool'.live id = some bytes) ∧ ∀ r ∈ responses, good r

/-! ## The condition -/

/-- Nothing is in the packet, or its type is one of the ten and its copy has a size of 32 bits. -/
def Packet.Proper (packet : Packet) : Prop :=
  packet.len = 0 ∨ Fits packet.len.toNat ∧ 1 ≤ packet.type ∧ packet.type ≤ 10

/-- The parse function of its type is called. -/
def Packet.Parsed (packet : Packet) : Prop := packet.len ≠ 0 ∧ packet.type ∈ [1, 2, 3, 4, 6, 8, 9, 10]

/-- How far the parse function stores -/
def reach : ℕ → ℕ
  | 1 => 48
  | 2 => 52
  | 3 => 36
  | 4 => 36
  | 6 => 44
  | 8 => 44
  | 9 => 24
  | 10 => 36
  | _ => 4

/-- The packet does not say that it is longer than the block of its copy. -/
def Packet.Honest (packet : Packet) : Prop :=
  (readHead packet.rbuf).len = (parsed packet.type).1 → reach packet.type ≤ packet.room

/-- The type is one that is answered. -/
def Packet.Answered (packet : Packet) : Prop := packet.len ≠ 0 ∧ packet.type ∈ [1, 2, 3, 4, 10]

/-- The response lists no server for the row: it knows none, or `copies` is 0 and the word before the first entry,
which is the type of the message, is read as the block before. -/
def Skipped (copies : ℕ) (packet : Packet) (sql : Outcome) (row : Message.SqlBlock) : Prop :=
  sql.net row.dsid = none ∨ copies = 0 ∧ (readHead packet.rbuf).msgType = ntohl row.bindex

/-- The list has room for `num` entries, and so has the buffer of the response. -/
def Room (num : BitVec 32) : Prop :=
  Fits (num * 16).toNat ∧ 16 * num.toInt ≤ (num * 16).toNat ∧ Fits (num * 24 + 36).toNat

/-- A download answers that there is no block: the rows are none, or no list is allocated for them, or each is
skipped. -/
def Download.Blank (copies : ℕ) (packet : Packet) (sql : Outcome) : Download → Prop
  | .found _ num blist => num * 16 = 0 ∨
      Room num ∧ 36 ≤ (num * 24 + 36).toNat ∧ ∀ i < num.toNat, Skipped copies packet sql (blist i)
  | _ => True

def Calls.Clean (copies : ℕ) : Calls → Prop
  | .done => True
  | .call packet sql within rest => packet.Proper ∧ (packet.Parsed → packet.Honest) ∧
      (packet.Answered → (packet.type = 3 → asks packet → sql.download.Blank copies packet sql) ∧
        within.Clean copies) ∧ rest.Clean copies

/-- The rows of a download do not make the size of its response wrap. -/
def Download.Short : Download → Prop
  | .found _ num _ => Fits (num.toNat * 24 + 36)
  | _ => True

def Calls.Short : Calls → Prop
  | .done => True
  | .call packet sql within rest => packet.Proper ∧ (packet.Parsed → packet.Honest) ∧
      (packet.Answered → (packet.type = 3 → asks packet → sql.download.Short) ∧ within.Short) ∧ rest.Short

end Tefs.NameServer.Requests
