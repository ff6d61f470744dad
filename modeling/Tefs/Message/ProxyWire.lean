import Tefs.Message.NameServerWire
import Tefs.Proxy.Upstream

/-! # The proxy on the wire

Source: `gvfsproxy/src/private/gvfs_http_upload.c`, `gvfs_http_download.c`, `gvfs_http_query.c`,
`gvfs_http_delete.c`, `gvfs_ns_file_upload.c` and `gvfs_ns_file_download.c`, `gvfs_hextoi` and `gvfs_rb64` of
`gvfsproxy/src/core`, and on the other side the parse functions and `tobuf` functions of
`nameservice/busi/gfs_busi_upload.c`, `gfs_busi_download.c`, `gfs_busi_delete_file.c` and
`gfs_busi_getfsize.c`.

The proxy copies its fields into a zeroed array one behind the other. The name server lays a struct over them, a
data server deserialises them.
-/

namespace Tefs.Message
open Wire Proxy
set_option autoImplicit false

/-! ## The requests of the proxy -/

/-- `request`, and `size` -/
structure Packet where
  request : ℤ → BitVec 8 := fun _ => 0
  size : ℤ := 0

namespace Packet

/-- `memcpy(request + size, bs, n); size += n;` -/
def copy (bs : List (BitVec 8)) (p : Packet) : Packet := ⟨poke p.request p.size bs, p.size + bs.length⟩

def skip (n : ℕ) (p : Packet) : Packet := { p with size := p.size + n }

end Packet

/-- `gvfs_rb64` -/
def rb64 (mem : ℕ → BitVec 8) (p : ℕ) : BitVec 64 :=
  (rb32 mem p).setWidth 64 <<< 32 ||| (rb32 mem (p + 4)).setWidth 64

/-- `gvfs_rb64((UINT8 *) &v)` -/
def swapped64 (v : BitVec 64) : BitVec 64 := rb64 (memoryOf (littleEndian v 8) fun _ => 0) 0

def hexValue (ch : BitVec 8) : Option (BitVec 8) :=
  if 48 ≤ ch ∧ ch ≤ 57 then some (ch - 48)
  else if 97 ≤ ch ||| 0x20 ∧ ch ||| 0x20 ≤ 102 then some ((ch ||| 0x20) - 97 + 10)
  else none

/-- The loop of `gvfs_hextoi`: what was written, `value` and `len` at its end. `len` is a `size_t`. -/
def hextoiLoop : List (BitVec 8) → ℕ → BitVec 8 → ℤ → List (BitVec 8) → List (BitVec 8) × BitVec 8 × ℤ
  | [], _, value, len, dst => (dst, value, len)
  | ch :: line, count, value, len, dst =>
    let flush := count = 2
    let dst := if flush ∧ 0 < len then dst ++ [value] else dst
    let len := if flush then (len - 1) % 2 ^ 64 else len
    let value := if flush then 0 else value
    let count := if flush then 0 else count
    let value := match hexValue ch with
      | some digit => value * 16 + digit
      | none => value
    hextoiLoop line (count + 1) value len dst

/-- The bytes that `gvfs_hextoi` writes -/
def hextoi (len : ℤ) (line : List (BitVec 8)) : List (BitVec 8) :=
  let (dst, value, len) := hextoiLoop line 0 0 len []
  if 0 < len then dst ++ [value] else dst

/-- `file_hash`, which is not initialised, after `gvfs_hextoi` -/
def fileHash (junk : ℤ → BitVec 8) (text : List (BitVec 8)) : List (BitVec 8) :=
  bytesAt (poke junk 0 (hextoi 16 text)) 0 16

def nsReqHead (len sid type : BitVec 32) : List (BitVec 8) :=
  littleEndian (ntohl len) 4 ++ littleEndian (ntohl sid) 4 ++ littleEndian (ntohl type) 4

def nsUploadRequest (sid : BitVec 32) (fileHash : List (BitVec 8)) (fileSize : BitVec 64)
    (blockNumber blockIndex : BitVec 32) : Packet :=
  let p : Packet := {}
  let p := p.copy (nsReqHead 52 sid 0x02)
  let p := p.skip 4
  let p := p.copy fileHash
  let p := p.copy (littleEndian (swapped64 fileSize) 8)
  let p := p.copy (littleEndian (ntohl blockNumber) 4)
  let p := p.copy (littleEndian (ntohl blockIndex) 4)
  p.skip 4

def nsDownloadRequest (sid : BitVec 32) (fileHash : List (BitVec 8)) (blockIndex : BitVec 32) : Packet :=
  let p : Packet := {}
  let p := p.copy (nsReqHead 40 sid 0x03)
  let p := p.skip 4
  let p := p.copy fileHash
  let p := p.copy (littleEndian (ntohl blockIndex) 4)
  p.skip 4

/-- A request that names a file only -/
def nsFileRequest (type sid : BitVec 32) (fileHash : List (BitVec 8)) : Packet :=
  let p : Packet := {}
  let p := p.copy (nsReqHead 36 sid type)
  let p := p.skip 4
  let p := p.copy fileHash
  p.skip 4

def nsQueryRequest (sid : BitVec 32) (fileHash : List (BitVec 8)) : Packet := nsFileRequest 0x0a sid fileHash

def nsDeleteRequest (sid : BitVec 32) (fileHash : List (BitVec 8)) : Packet := nsFileRequest 0x04 sid fileHash

/-- `gvfs_ipv4_addr_t`: both words as they stood in the response -/
structure Ipv4Addr where
  ip : BitVec 32
  port : BitVec 32
  deriving DecidableEq, Repr

def dsReqHead (len sid type encrypt : BitVec 32) : List (BitVec 8) :=
  littleEndian (ntohl len) 4 ++ littleEndian (ntohl sid) 4 ++ littleEndian (ntohl type) 4 ++ littleEndian encrypt 4

/-- The loop over the data servers: `servers` are those from `cnt` on. -/
def backups (curDs : ℕ) : ℕ → List Ipv4Addr → Packet → Packet
  | _, [], p => p
  | cnt, server :: servers, p =>
    if curDs = cnt then backups curDs (cnt + 1) servers p
    else backups curDs (cnt + 1) servers
      (((p.copy (littleEndian server.ip 4)).skip 12).copy (littleEndian server.port 4))

/-- `connects` tells for which entries `gvfs_upstream_init` succeeds. The result is the entry the request goes to,
and the request. -/
def dsUploadRequest (sid : BitVec 32) (fileid : BitVec 64) (blockindex endPos : BitVec 32) (servers : List Ipv4Addr)
    (connects : ℕ → Bool) : Option (ℕ × Packet) :=
  match (List.range servers.length).find? connects with
  | none => none
  | some curDs =>
    let dsNumber := BitVec.ofNat 32 servers.length - 1
    let p : Packet := {}
    let p := p.copy (dsReqHead (40 + dsNumber * 20) sid 0x0101 0)
    let p := p.copy (littleEndian (swapped64 fileid) 8)
    let p := p.copy (littleEndian (ntohl blockindex) 4)
    let p := p.copy (littleEndian (0 : BitVec 32) 4)
    let p := p.copy (littleEndian (ntohl (endPos - 1)) 4)
    let p := p.copy (littleEndian (ntohl dsNumber) 4)
    some (curDs, backups curDs 0 servers p)

/-- `encrypt` is what `req_head` holds there: this function does not set it. -/
def dsDownloadRequest (sid encrypt : BitVec 32) (fileid : BitVec 64) (blockindex endPos : BitVec 32) : Packet :=
  let p : Packet := {}
  let p := p.copy (dsReqHead 36 sid 0x0102 encrypt)
  let p := p.copy (littleEndian (swapped64 fileid) 8)
  let p := p.copy (littleEndian (ntohl blockindex) 4)
  let p := p.copy (littleEndian (0 : BitVec 32) 4)
  p.copy (littleEndian (ntohl (endPos - 1)) 4)

/-! ## What the name server reads -/

inductive ReqField
  | head | hash | fsize | bnum | bindex | separate
  deriving DecidableEq, Repr

def gfsReqHead : Member := ⟨16, 4⟩

def reqUpload : List (ReqField × Member) :=
  [(.head, gfsReqHead), (.hash, gfsUchars 16), (.fsize, gfsUint64), (.bnum, gfsUint32), (.bindex, gfsUint32),
    (.separate, gfsUint32)]

def reqDownload : List (ReqField × Member) :=
  [(.head, gfsReqHead), (.hash, gfsUchars 16), (.bindex, gfsUint32), (.separate, gfsUint32)]

/-- `gfs_busi_req_delfile_t` and `gfs_busi_req_getfsize_t` -/
def reqFile : List (ReqField × Member) := [(.head, gfsReqHead), (.hash, gfsUchars 16), (.separate, gfsUint32)]

structure ReqUpload where
  head : ReqHead
  hash : List (BitVec 8)
  fsize : BitVec 64
  bnum : BitVec 32
  bindex : BitVec 32
  separate : BitVec 32
  deriving DecidableEq, Repr

def uploadParse (mem : ℤ → BitVec 8) : Option ReqUpload :=
  let head := readHead mem
  if head.len ≠ 52 then none
  else some {
    head := head
    hash := bytesAt mem (offsetOf reqUpload .hash) 16
    fsize := ntohll (hostInt 64 8 mem (offsetOf reqUpload .fsize))
    bnum := ntohl (hostInt 32 4 mem (offsetOf reqUpload .bnum))
    bindex := ntohl (hostInt 32 4 mem (offsetOf reqUpload .bindex))
    separate := ntohl (hostInt 32 4 mem (offsetOf reqUpload .separate)) }

structure ReqDownload where
  head : ReqHead
  hash : List (BitVec 8)
  bindex : BitVec 32
  deriving DecidableEq, Repr

def downloadParse (mem : ℤ → BitVec 8) : Option ReqDownload :=
  let head := readHead mem
  if head.len ≠ 40 then none
  else some {
    head := head
    hash := bytesAt mem (offsetOf reqDownload .hash) 16
    bindex := ntohl (hostInt 32 4 mem (offsetOf reqDownload .bindex)) }

structure ReqFile where
  head : ReqHead
  hash : List (BitVec 8)
  separate : BitVec 32
  deriving DecidableEq, Repr

def fileParse (mem : ℤ → BitVec 8) : Option ReqFile :=
  let head := readHead mem
  if head.len ≠ 36 then none
  else some {
    head := head
    hash := bytesAt mem (offsetOf reqFile .hash) 16
    separate := ntohl (hostInt 32 4 mem (offsetOf reqFile .separate)) }

def deleteFileParse (mem : ℤ → BitVec 8) : Option ReqFile := fileParse mem

def getfsizeParse (mem : ℤ → BitVec 8) : Option ReqFile := fileParse mem

/-! ## The responses of the name server -/

/-- A data server as the name server knows it: `addr.sin_addr.s_addr` and `user.port` -/
structure DataServer where
  sAddr : BitVec 32
  port : BitVec 32
  deriving DecidableEq, Repr

/-- `rsp->head`; `id` and `msgType` are copied from the request as they are. -/
def setRspHead (len id msgType rtn : BitVec 32) (rsh : ℤ → BitVec 8) : ℤ → BitVec 8 :=
  let rsh := setMember rspHead .len (ntohl len) rsh
  let rsh := setMember rspHead .id id rsh
  let rsh := setMember rspHead .msgType msgType rsh
  let rsh := setMember rspHead .encrypt 0 rsh
  setMember rspHead .rtn (ntohl rtn) rsh

/-- The loop that fills `dslist`: `servers` are those from entry `i` on. -/
def setDslist : ℤ → List DataServer → (ℤ → BitVec 8) → ℤ → BitVec 8
  | _, [], dslist => dslist
  | i, server :: servers, dslist =>
    let dslist := poke dslist (20 * i) (littleEndian server.sAddr 4)
    let dslist := poke dslist (20 * i + 16) (littleEndian (ntohl server.port) 4)
    setDslist (i + 1) servers dslist

/-- `gfs_busi_upload_handle` and `gfs_busi_upload_tobuf`, for the `rtn`, the file id and the data servers the
handler comes to. `rsh`, `dslist` and `pdata` are the memory before. -/
def uploadResponse (rsh dslist pdata : ℤ → BitVec 8) (id msgType rtn : BitVec 32) (fid : BitVec 64)
    (servers : List DataServer) : ℤ → BitVec 8 :=
  let num := BitVec.ofNat 32 servers.length
  let rsh := setRspHead (36 + num * 20) id msgType rtn rsh
  let pdata := poke pdata 0 (bytesAt rsh 0 20)
  let pdata := poke pdata 20 (littleEndian (ntohll fid) 8)
  let pdata := poke pdata 28 (littleEndian (ntohl num) 4)
  let pdata := poke pdata 32 (bytesAt (setDslist 0 servers dslist) 0 (20 * servers.length))
  poke pdata (32 + 20 * servers.length) [0, 0, 0, 0]

/-- A row of `gfs_mysql_download` -/
structure SqlBlock where
  bindex : BitVec 32
  dsid : BitVec 32
  deriving DecidableEq, Repr

/-- The loop of `gfs_busi_download_tobuf`; `blocks` are the entries of `rsp->blist` so far, `b` of them. -/
structure BlockLoop where
  pdata : ℤ → BitVec 8
  blocks : List (BitVec 32 × DataServer) := []
  dsnum : ℕ := 0
  bindex : BitVec 32 := 0
  stopped : Bool := false

namespace BlockLoop

def b (l : BlockLoop) : ℕ := l.blocks.length

/-- `&rsp->blist[i]` -/
def entry (i : ℤ) : ℤ := 32 + 24 * i

/-- `dsnum >= gfs_global->copies`, and the block is the one before. -/
def Enough (copies : ℕ) (row : SqlBlock) (l : BlockLoop) : Prop :=
  copies ≤ l.dsnum ∧ hostInt 32 4 l.pdata (entry (l.b - 1)) = ntohl row.bindex

instance (copies : ℕ) (row : SqlBlock) (l : BlockLoop) : Decidable (l.Enough copies row) :=
  inferInstanceAs (Decidable (_ ∧ _))

/-- `net` is what `gfs_net_map_get` returned. -/
def add (row : SqlBlock) (net : Option DataServer) (l : BlockLoop) : BlockLoop :=
  let l := { l with pdata := poke l.pdata (entry l.b) (littleEndian (ntohl row.bindex) 4) }
  match net with
  | none => l
  | some server =>
    let pdata := poke l.pdata (entry l.b + 8) (littleEndian server.sAddr 4)
    let pdata := poke pdata (entry l.b + 4) (littleEndian (ntohl server.port) 4)
    { l with
      pdata := pdata
      blocks := l.blocks ++ [(row.bindex, server)]
      dsnum := if l.bindex ≠ row.bindex then 1 else l.dsnum + 1
      bindex := row.bindex }

def turn (copies : ℕ) (net : BitVec 32 → Option DataServer) (l : BlockLoop) (row : SqlBlock) : BlockLoop :=
  if l.stopped then l
  else if l.Enough copies row then l
  else
    let l := if copies ≤ l.dsnum then { l with dsnum := 0 } else l
    if 150 < l.b then { l with stopped := true } else l.add row (net row.dsid)

def run (copies : ℕ) (net : BitVec 32 → Option DataServer) (rows : List SqlBlock) (pdata : ℤ → BitVec 8) : BlockLoop :=
  rows.foldl (turn copies net) { pdata := pdata }

end BlockLoop

/-- `gfs_busi_download_handle` and `gfs_busi_download_tobuf`: the loop, and the response. -/
def downloadResponse (rsh pdata : ℤ → BitVec 8) (id msgType rtn : BitVec 32) (fid : BitVec 64) (copies : ℕ)
    (net : BitVec 32 → Option DataServer) (rows : List SqlBlock) : BlockLoop × (ℤ → BitVec 8) :=
  let rsh := setRspHead 36 id msgType rtn rsh
  let pdata := poke pdata 0 (bytesAt rsh 0 20)
  let pdata := poke pdata 20 (littleEndian (ntohll fid) 8)
  let l := BlockLoop.run copies net rows pdata
  let pdata := poke l.pdata 28 (littleEndian (ntohl (BitVec.ofNat 32 l.b)) 4)
  let pdata := poke pdata (32 + 24 * l.b) [0, 0, 0, 0]
  (l, poke pdata 0 (littleEndian (ntohl (36 + BitVec.ofNat 32 l.b * 24)) 4))

/-! ## What the proxy decodes -/

/-- `*((UINT32 *) p)` -/
def hostWord (mem : ℕ → BitVec 8) (p : ℕ) : BitVec 32 :=
  ofLittleEndian 32 [mem p, mem (p + 1), mem (p + 2), mem (p + 3)]

def readServers (mem : ℕ → BitVec 8) : ℕ → ℕ → List Ipv4Addr
  | _, 0 => []
  | p, n + 1 => ⟨hostWord mem p, hostWord mem (p + 16)⟩ :: readServers mem (p + 20) n

/-- `r->fileid` and the entries of `r->ds_addr` -/
def fileUploadProcess (mem : ℕ → BitVec 8) : BitVec 64 × List Ipv4Addr :=
  (rb64 mem 20, readServers mem 32 (rb32 mem 28).toNat)

/-- An entry of the response as the loop of `gvfs_ns_file_download_process` reads it -/
def blockEntry (mem : ℕ → BitVec 8) (p : ℕ) : BitVec 32 × Ipv4Addr :=
  (rb32 mem p, ⟨hostWord mem (p + 8), hostWord mem (p + 4)⟩)

def readBlocks (mem : ℕ → BitVec 8) : ℕ → ℕ → List (BitVec 32 × Ipv4Addr)
  | _, 0 => []
  | p, n + 1 => blockEntry mem p :: readBlocks mem (p + 24) n

/-- `buf->size` -/
def nsBufSize : ℕ := 3072

/-- `NS_MEM_POOL_SIZE` without the head of the pool: the buffer, and what is behind it in the same block -/
def nsPoolRoom : ℕ := 4096 - 56

inductive RspdField
  | head | encrypt | fileId | blockNumber | blockInfo | separate
  deriving DecidableEq, Repr

/-- `gvfs_ns_file_download_rsp_t` -/
def nsFileDownloadRsp : List (RspdField × Member) :=
  [(.head, ⟨16, 4⟩), (.encrypt, ⟨4, 4⟩), (.fileId, ⟨8, 8⟩), (.blockNumber, ⟨4, 4⟩), (.blockInfo, ⟨8, 8⟩),
    (.separate, ⟨4, 4⟩)]

/-- Where a member of `rspd` stands, counted from the begin of the buffer. `gvfs_ns_process` takes `rspd` from the pool
after the buffer, so that it lies right behind it. -/
def rspdPlace (field : RspdField) : ℕ := nsBufSize + offsetOf nsFileDownloadRsp field

def storeBytes (mem : ℕ → BitVec 8) (p : ℕ) (bs : List (BitVec 8)) : ℕ → BitVec 8 := fun i =>
  if p ≤ i then (bs[i - p]?).getD (mem i) else mem i

/-- The memory from the buffer on when the loop over the entries begins: a response that is longer than the buffer has
been received over the place of `rspd`, whose members are now stored there. -/
def storeRspd (mem : ℕ → BitVec 8) : ℕ → BitVec 8 :=
  let mem := storeBytes mem (rspdPlace .encrypt) (littleEndian (rb32 mem 16) 4)
  let mem := storeBytes mem (rspdPlace .fileId) (littleEndian (rb64 mem 20) 8)
  storeBytes mem (rspdPlace .blockNumber) (littleEndian (rb32 mem 28) 4)

/-- `r->fileid`, and the entries of `r->block_index` and `r->ds_addr`. The array of addresses has `r->ds_number` of them;
nothing is allocated before it is read, so that an entry that is stored behind it is read back too. -/
def fileDownloadProcess (mem : ℕ → BitVec 8) : BitVec 64 × List (BitVec 32 × Ipv4Addr) :=
  (rb64 mem 20, readBlocks (storeRspd mem) 32 (rb32 mem 28).toNat)

end Tefs.Message
