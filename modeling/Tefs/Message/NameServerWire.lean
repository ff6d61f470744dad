import Tefs.Message.RoundTrip

/-! # Data server and name server on the wire

Source: `nameservice/busi/gfs_busi_types.h`, the parse functions of `gfs_busi_login.c`,
`gfs_busi_heartbeat.c`, `gfs_busi_copy_block.c` and `gfs_busi_delete_block.c`, `gfs_busi_notice.c`,
`core/gfs_tools.h`, and on the other side `DSMessageProcess.cpp` and `NameServersession.cpp`.

The name server lays a C struct over the bytes of a message. What it finds at a member depends on the
layout of the struct, and behind the message on whatever memory is there.
-/

namespace Tefs.Message
open Wire
set_option autoImplicit false

/-! ## The structs of the name server -/

inductive NsField
  | len | id | msgType | encrypt | rtn | type | dsid | remain | disk | port | bid | weighted | bsize
  | separate
  deriving DecidableEq, Repr

def gfsUint32 : Member := ⟨4, 4⟩

def gfsUint64 : Member := ⟨8, 8⟩

/-- `gfs_uchar [n]` -/
def gfsUchars (n : ℕ) : Member := ⟨n, 1⟩

def reqHead : List (NsField × Member) :=
  [(.len, gfsUint32), (.id, gfsUint32), (.msgType, gfsUint32), (.encrypt, gfsUint32)]

def rspHead : List (NsField × Member) :=
  [(.len, gfsUint32), (.id, gfsUint32), (.msgType, gfsUint32), (.rtn, gfsUint32),
    (.encrypt, gfsUint32)]

def reqLogin : List (NsField × Member) :=
  reqHead ++ [(.type, gfsUint32), (.dsid, gfsUint32), (.remain, gfsUint64), (.disk, gfsUint64),
    (.port, gfsUint32), (.separate, gfsUint32)]

def rspLogin : List (NsField × Member) := rspHead ++ [(.bsize, gfsUint32), (.separate, gfsUint32)]

def nteDelblock : List (NsField × Member) :=
  reqHead ++ [(.bid, gfsUchars 12), (.remain, gfsUint64), (.separate, gfsUint32)]

def nteCpyBlock : List (NsField × Member) :=
  reqHead ++ [(.dsid, gfsUint32), (.bid, gfsUchars 12), (.remain, gfsUint64), (.separate, gfsUint32)]

def heartbeat : List (NsField × Member) :=
  reqHead ++ [(.type, gfsUint32), (.weighted, gfsUint32), (.separate, gfsUint32)]

/-! ## Byte order -/

/-- What a little-endian host loads from an integer of `n` bytes at `pos`. -/
def hostInt (w n : ℕ) (mem : ℤ → BitVec 8) (pos : ℤ) : BitVec w := ofLittleEndian w (bytesAt mem pos n)

def ntohl (v : BitVec 32) : BitVec 32 := byteSwap 4 v

/-- `ntohll`, and in the same words `htonll` -/
def ntohll (val : BitVec 64) : BitVec 64 :=
  (ntohl ((val <<< 32 >>> 32).setWidth 32)).setWidth 64 <<< 32 |||
    (ntohl ((val >>> 32).setWidth 32)).setWidth 64

theorem ntohl_getLsbD (v : BitVec 32) (k : ℕ) (hk : k < 32) :
    (ntohl v).getLsbD k = v.getLsbD (8 * (4 - 1 - k / 8) + k % 8) := byteSwap_getLsbD v 4 k rfl hk

theorem ntohll_eq_byteSwap (val : BitVec 64) : ntohll val = byteSwap 8 val := by
  apply BitVec.eq_of_getLsbD_eq
  intro k hk
  rw [byteSwap_getLsbD val 8 k rfl hk, ntohll, BitVec.getLsbD_or, BitVec.getLsbD_shiftLeft,
    BitVec.getLsbD_setWidth, BitVec.getLsbD_setWidth]
  by_cases hlow : k < 32
  · obtain ⟨j, hj⟩ : ∃ j, j = 8 * (4 - 1 - k / 8) + k % 8 := ⟨_, rfl⟩
    have hidx : 8 * (8 - 1 - k / 8) + k % 8 = 32 + j := by omega
    have hlt : j < 32 := by omega
    rw [ntohl_getLsbD _ k hlow, ← hj, hidx, BitVec.getLsbD_setWidth, BitVec.getLsbD_ushiftRight]
    simp [hk, hlow, hlt]
  · obtain ⟨j, hj⟩ : ∃ j, j = 8 * (8 - 1 - k / 8) + k % 8 := ⟨_, rfl⟩
    have hidx : 8 * (4 - 1 - (k - 32) / 8) + (k - 32) % 8 = j := by omega
    have hlt : j < 32 := by omega
    have hhigh : (ntohl ((val >>> 32).setWidth 32)).getLsbD k = false :=
      BitVec.getLsbD_of_ge _ k (by omega)
    rw [hhigh, ntohl_getLsbD _ (k - 32) (by omega), hidx, ← hj, BitVec.getLsbD_setWidth,
      BitVec.getLsbD_ushiftRight, BitVec.getLsbD_shiftLeft]
    simp [hk, hlow, hlt, show k - 32 < 64 by omega, show 32 + j < 64 by omega]

theorem ntohl_hostInt {mem : ℤ → BitVec 8} {pos : ℤ} {v : BitVec 32}
    (h : Holds mem pos (field 4 v)) : ntohl (hostInt 32 4 mem pos) = v := by
  rw [ntohl, hostInt, bytesAt_of_holds_field h, byteSwap_ofLittleEndian _ 4 (bigEndian_length v 4) rfl,
    ofBigEndian_bigEndian v 4 rfl]

theorem ntohll_hostInt {mem : ℤ → BitVec 8} {pos : ℤ} {v : BitVec 64}
    (h : Holds mem pos (field 8 v)) : ntohll (hostInt 64 8 mem pos) = v := by
  rw [ntohll_eq_byteSwap, hostInt, bytesAt_of_holds_field h,
    byteSwap_ofLittleEndian _ 8 (bigEndian_length v 8) rfl, ofBigEndian_bigEndian v 8 rfl]

/-! ## What the name server reads -/

def u32 (ms : List (NsField × Member)) (mem : ℤ → BitVec 8) (f : NsField) : BitVec 32 :=
  hostInt 32 4 mem (offsetOf ms f)

def u64 (ms : List (NsField × Member)) (mem : ℤ → BitVec 8) (f : NsField) : BitVec 64 :=
  hostInt 64 8 mem (offsetOf ms f)

/-- The head, with `len` and `encrypt` swapped as every parse function does. -/
structure ReqHead where
  len : BitVec 32
  id : BitVec 32
  msgType : BitVec 32
  encrypt : BitVec 32
  deriving DecidableEq, Repr

def readHead (mem : ℤ → BitVec 8) : ReqHead where
  len := ntohl (u32 reqHead mem .len)
  id := u32 reqHead mem .id
  msgType := u32 reqHead mem .msgType
  encrypt := ntohl (u32 reqHead mem .encrypt)

structure ReqLogin where
  head : ReqHead
  type : BitVec 32
  dsid : BitVec 32
  remain : BitVec 64
  disk : BitVec 64
  port : BitVec 32
  separate : BitVec 32
  deriving DecidableEq, Repr

def loginParse (mem : ℤ → BitVec 8) : Option ReqLogin :=
  let head := readHead mem
  if head.len ≠ 48 then none
  else some {
    head := head
    type := ntohl (u32 reqLogin mem .type)
    dsid := ntohl (u32 reqLogin mem .dsid)
    remain := ntohll (u64 reqLogin mem .remain)
    disk := ntohll (u64 reqLogin mem .disk)
    port := ntohl (u32 reqLogin mem .port)
    separate := ntohl (u32 reqLogin mem .separate) }

structure Heartbeat where
  head : ReqHead
  type : BitVec 32
  weighted : BitVec 32
  deriving DecidableEq, Repr

def heartbeatParse (mem : ℤ → BitVec 8) : Option Heartbeat :=
  let head := readHead mem
  if head.len ≠ 28 then none
  else some {
    head := head
    type := ntohl (u32 heartbeat mem .type)
    weighted := ntohl (u32 heartbeat mem .weighted) }

/-- `fid` and `bindex` as the handler takes them out of `bid`. -/
structure CpyBlock where
  head : ReqHead
  dsid : BitVec 32
  fid : BitVec 64
  bindex : BitVec 32
  remain : BitVec 64
  separate : BitVec 32
  deriving DecidableEq, Repr

def copyBlockParse (mem : ℤ → BitVec 8) : Option CpyBlock :=
  let head := readHead mem
  if head.len ≠ 44 then none
  else some {
    head := { head with id := ntohl head.id }
    dsid := ntohl (u32 nteCpyBlock mem .dsid)
    fid := ntohll (hostInt 64 8 mem (offsetOf nteCpyBlock .bid))
    bindex := ntohl (hostInt 32 4 mem (offsetOf nteCpyBlock .bid + 8))
    remain := ntohll (u64 nteCpyBlock mem .remain)
    separate := ntohl (u32 nteCpyBlock mem .separate) }

structure Delblock where
  head : ReqHead
  fid : BitVec 64
  bindex : BitVec 32
  remain : BitVec 64
  separate : BitVec 32
  deriving DecidableEq, Repr

def deleteBlockParse (mem : ℤ → BitVec 8) : Option Delblock :=
  let head := readHead mem
  if head.len ≠ 40 then none
  else some {
    head := head
    fid := ntohll (hostInt 64 8 mem (offsetOf nteDelblock .bid))
    bindex := ntohl (hostInt 32 4 mem (offsetOf nteDelblock .bid + 8))
    remain := ntohll (u64 nteDelblock mem .remain)
    separate := ntohl (u32 nteDelblock mem .separate) }

/-! ## What the data server sends -/

def kReqBufSize : ℤ := 1024

/-- `packet_dataserver_resgister`, with what `get_ds_filesystem_info` returned -/
def packetDataserverRegister (dataserverid localPort : BitVec 32) (diskused diskcapacity : BitVec 64) :
    DsRegister where
  length := 48
  requestId := 0
  type := 0x0001
  encrypt := 0
  servicetype := 1
  dataserverid := dataserverid
  diskfree := (diskcapacity - diskused).sshiftRight 10
  diskcapacity := diskcapacity.sshiftRight 10
  port := localPort
  endflag := 0

def packetDataserverHeartbeat (loadweight : BitVec 32) : DsHeartBeat where
  length := 28
  requestId := 0
  type := 0x0009
  encrypt := 0
  servicetype := 1
  loadweight := loadweight
  endflag := 0

def notifyNsBackupOk (dataserverid : BitVec 32) (fileid : BitVec 64) (chunkid : BitVec 32)
    (diskused diskcapacity : BitVec 64) : BackupCommandRes where
  length := 44
  requestId := 0
  type := 0x0008
  encrypt := 0
  dataserverid := dataserverid
  fileid := fileid
  chunkid := chunkid
  diskfree := (diskcapacity - diskused).sshiftRight 20
  endflag := 0

def notifyNsDelOk (cmd : DeleteCommand) (diskused diskcapacity : BitVec 64) : DeleteCommandRes where
  length := 40
  requestId := cmd.requestId
  type := 0x0006
  encrypt := 0
  fileid := cmd.fileid
  chunkid := cmd.chunkid
  diskfree := (diskcapacity - diskused).sshiftRight 10
  endflag := 0

inductive Sent
  | register (dataserverid localPort : BitVec 32) (diskused diskcapacity : BitVec 64)
  | heartbeat (loadweight : BitVec 32)
  | backupResult (dataserverid : BitVec 32) (fileid : BitVec 64) (chunkid : BitVec 32)
      (diskused diskcapacity : BitVec 64)
  | deleteResult (cmd : DeleteCommand) (diskused diskcapacity : BitVec 64)
  deriving DecidableEq, Repr

namespace Sent

def IsDeleteResult : Sent → Prop
  | .deleteResult _ _ _ => True
  | _ => False

def base : Sent → MessageBase
  | .register id port used capacity => (packetDataserverRegister id port used capacity).toMessageBase
  | .heartbeat loadweight => (packetDataserverHeartbeat loadweight).toMessageBase
  | .backupResult id fileid chunkid used capacity =>
    (notifyNsBackupOk id fileid chunkid used capacity).toMessageBase
  | .deleteResult cmd used capacity => (notifyNsDelOk cmd used capacity).toMessageBase

def serialize : Sent → Coder Unit
  | .register id port used capacity =>
    (packetDataserverRegister id port used capacity).serialize kReqBufSize
  | .heartbeat loadweight => (packetDataserverHeartbeat loadweight).serialize kReqBufSize
  | .backupResult id fileid chunkid used capacity =>
    (notifyNsBackupOk id fileid chunkid used capacity).serialize 44
  | .deleteResult cmd used capacity => (notifyNsDelOk cmd used capacity).serialize 40

/-- The struct that the name server lays over it. -/
def layout : Sent → List (NsField × Member)
  | .register _ _ _ _ => reqLogin
  | .heartbeat _ => Message.heartbeat
  | .backupResult _ _ _ _ _ => nteCpyBlock
  | .deleteResult _ _ _ => nteDelblock

end Sent

/-- `id` is the member `id` after swapping, which not every parse function does. -/
def ReqHead.Agrees (h : ReqHead) (id : BitVec 32) (m : MessageBase) : Prop :=
  h.len = m.length ∧ id = m.requestId ∧ ntohl h.msgType = m.type ∧ h.encrypt = m.encrypt

/-- The parse function accepts, and each member has the value of the field it stands for. -/
def Sent.ReadBack : Sent → (ℤ → BitVec 8) → Prop
  | .register id port used capacity, mem =>
    let m := packetDataserverRegister id port used capacity
    ∃ r, loginParse mem = some r ∧ r.head.Agrees (ntohl r.head.id) m.toMessageBase ∧ r.type = m.servicetype ∧
      r.dsid = m.dataserverid ∧ r.remain = m.diskfree ∧ r.disk = m.diskcapacity ∧ r.port = m.port ∧
      r.separate = m.endflag
  | .heartbeat loadweight, mem =>
    let m := packetDataserverHeartbeat loadweight
    ∃ r, heartbeatParse mem = some r ∧ r.head.Agrees (ntohl r.head.id) m.toMessageBase ∧ r.type = m.servicetype ∧
      r.weighted = m.loadweight
  | .backupResult id fileid chunkid used capacity, mem =>
    let m := notifyNsBackupOk id fileid chunkid used capacity
    ∃ r, copyBlockParse mem = some r ∧ r.head.Agrees r.head.id m.toMessageBase ∧
      r.dsid = m.dataserverid ∧ r.fid = m.fileid ∧ r.bindex = m.chunkid ∧ r.remain = m.diskfree ∧ r.separate = m.endflag
  | .deleteResult cmd used capacity, mem =>
    let m := notifyNsDelOk cmd used capacity
    ∃ r, deleteBlockParse mem = some r ∧ r.head.Agrees (ntohl r.head.id) m.toMessageBase ∧ r.fid = m.fileid ∧
      r.bindex = m.chunkid ∧ r.remain = m.diskfree ∧ r.separate = m.endflag

/-- Whatever the buffer held before, the message is serialised, and a name server that has its bytes, in
front of any others, reads it back from members that all lie inside it. -/
def Sent.Agrees (s : Sent) : Prop :=
  (∀ data, ∃ c, s.serialize.exec ⟨data, 0⟩ = (.ok (), c) ∧
    ∀ mem : ℤ → BitVec 8, (∀ q : ℤ, 0 ≤ q → q < s.base.length.toNat → mem q = c.data q) →
      s.ReadBack mem) ∧
  ∀ member ∈ place 0 s.layout, member.2.1 + member.2.2 ≤ s.base.length.toNat

/-! ## What the name server sends -/

def poke (mem : ℤ → BitVec 8) (pos : ℤ) (bs : List (BitVec 8)) : ℤ → BitVec 8 :=
  lay mem pos (bs.map some)

/-- A 32-bit member set through a struct laid over `mem` -/
def setMember (ms : List (NsField × Member)) (f : NsField) (value : BitVec 32) (mem : ℤ → BitVec 8) :
    ℤ → BitVec 8 := poke mem (offsetOf ms f) (littleEndian value 4)

/-- The answer of `gfs_busi_login_handle`: `id` and `msgType` are copied from the request as they are. -/
def loginResponse (mem : ℤ → BitVec 8) (id msgType rtn blockSize : BitVec 32) : ℤ → BitVec 8 :=
  let mem := setMember rspLogin .len (ntohl 28) mem
  let mem := setMember rspLogin .id id mem
  let mem := setMember rspLogin .msgType msgType mem
  let mem := setMember rspLogin .encrypt 0 mem
  let mem := setMember rspLogin .rtn (ntohl rtn) mem
  let mem := setMember rspLogin .bsize (ntohl blockSize) mem
  setMember rspLogin .separate 0 mem

/-- `pmsg[i] = value` -/
def setWord (i : ℤ) (value : BitVec 32) (msg : ℤ → BitVec 8) : ℤ → BitVec 8 :=
  poke msg (4 * i) (littleEndian value 4)

/-- `gfs_busi_notice_delete_block` -/
def noticeDeleteBlock (msg : ℤ → BitVec 8) (now : BitVec 32) (fid : BitVec 64) (bindex : BitVec 32) :
    ℤ → BitVec 8 :=
  let msg := setWord 0 (ntohl 32) msg
  let msg := setWord 1 (ntohl now) msg
  let msg := setWord 2 (ntohl 0x05) msg
  let msg := setWord 3 (ntohl 0) msg
  let msg := poke msg (4 * 4) (littleEndian (ntohll fid) 8)
  let msg := poke msg (4 * 6) (littleEndian (ntohl bindex) 4)
  setWord 7 (ntohl 0) msg

/-- `gfs_busi_notice_copy_block`; the addresses are the `s_addr` of the two connections. -/
def noticeCopyBlock (msg : ℤ → BitVec 8) (now : BitVec 32) (fid : BitVec 64)
    (bindex srcAddr srcPort dstAddr dstPort : BitVec 32) : ℤ → BitVec 8 :=
  let msg := setWord 0 (ntohl 72) msg
  let msg := setWord 1 (ntohl now) msg
  let msg := setWord 2 (ntohl 0x07) msg
  let msg := setWord 3 (ntohl 0) msg
  let msg := poke msg (4 * 4) (littleEndian (ntohll fid) 8)
  let msg := poke msg (4 * 6) (littleEndian (ntohl bindex) 4)
  let msg := poke msg (4 * 7) (littleEndian srcAddr 4)
  let msg := setWord 11 (ntohl srcPort) msg
  let msg := poke msg (4 * 12) (littleEndian dstAddr 4)
  let msg := setWord 16 (ntohl dstPort) msg
  setWord 17 (ntohl 0) msg

/-- `DS_REGISTER` on the data server: what arrives as `retcode` and `encrypt` is swapped. -/
def registerResponse (this : DsRegisterRes) (dataLen : ℤ) : Coder DsRegisterRes := do
  let res ← this.deserialize dataLen
  pure { res with retcode := res.encrypt, encrypt := res.retcode }

inductive Command
  | loginResponse (id msgType rtn blockSize : BitVec 32)
  | deleteNotice (now : BitVec 32) (fid : BitVec 64) (bindex : BitVec 32)
  | copyNotice (now : BitVec 32) (fid : BitVec 64) (bindex srcAddr srcPort dstAddr dstPort : BitVec 32)
  deriving DecidableEq, Repr

/-- The data server, with the `len` bytes of `sent` in its buffer, makes `m` of them. -/
def Decodes {α : Type} (decode : ℤ → Coder α) (sent : ℤ → BitVec 8) (len : ℤ) (m : α) : Prop :=
  ∀ buffer : ℤ → BitVec 8, (∀ q, 0 ≤ q → q < len → buffer q = sent q) →
    ((decode len).exec ⟨buffer, 0⟩).1 = .ok m

/-- Each field the data server deserialises has the value the name server put in. An address is kept as
the number that `ntohl` makes of `s_addr`. -/
def Command.Agrees : Command → Prop
  | .loginResponse id msgType rtn blockSize => ∀ mem this,
    Decodes (registerResponse this) (Message.loginResponse mem id msgType rtn blockSize) 28
      ⟨⟨28, ntohl id, ntohl msgType, 0⟩, rtn, blockSize, this.endflag⟩
  | .deleteNotice now fid bindex => ∀ msg this,
    Decodes (DeleteCommand.deserialize this) (noticeDeleteBlock msg now fid bindex) 32
      ⟨⟨32, now, 0x05, 0⟩, fid, bindex, this.endflag⟩
  | .copyNotice now fid bindex srcAddr srcPort dstAddr dstPort => ∀ msg this,
    Decodes (BackupCommand.deserialize this)
      (noticeCopyBlock msg now fid bindex srcAddr srcPort dstAddr dstPort) 72
      ⟨⟨72, now, 0x07, 0⟩, fid, bindex, .ofIpWord (ntohl srcAddr) srcPort,
        .ofIpWord (ntohl dstAddr) dstPort, this.endflag⟩

/-! ## The agreement -/

/-- A message that fits is laid down, and found wherever its bytes are. -/
theorem arrives {len n : ℤ} {c : Coder Unit} {ps : List (Option (BitVec 8))} (hc : Writes len c ps)
    (hn : (ps.length : ℤ) = n) (hlen : n ≤ len) {R : (ℤ → BitVec 8) → Prop}
    (hR : ∀ mem, Holds mem 0 ps → R mem) (data : ℤ → BitVec 8) :
    ∃ s, c.exec ⟨data, 0⟩ = (.ok (), s) ∧
      ∀ mem : ℤ → BitVec 8, (∀ q, 0 ≤ q → q < n → mem q = s.data q) → R mem := by
  refine ⟨_, hc ⟨data, 0⟩ (Int.le_refl 0) (by simp only; omega), fun mem hmem => hR mem ?_⟩
  exact Holds.of_agree (holds_lay data 0 ps) fun q h0 hq => hmem q h0 (by omega)

/-- The head, wherever in a message it stands first. -/
theorem readHead_of_holds {mem : ℤ → BitVec 8} {m : MessageBase} (h : Holds mem 0 m.footprint) :
    (readHead mem).Agrees (ntohl (readHead mem).id) m := by
  simp only [MessageBase.footprint, holds_append, field_length] at h
  obtain ⟨hlength, hid, htype, hencrypt⟩ := h
  exact ⟨ntohl_hostInt hlength, ntohl_hostInt hid, ntohl_hostInt htype, ntohl_hostInt hencrypt⟩

theorem loginParse_of_holds {mem : ℤ → BitVec 8} {m : DsRegister} (hlength : m.length = 48)
    (h : Holds mem 0 (m.fields ++ [field 4 m.endflag]).flatten) :
    ∃ r, loginParse mem = some r ∧ r.head.Agrees (ntohl r.head.id) m.toMessageBase ∧
      r.type = m.servicetype ∧ r.dsid = m.dataserverid ∧ r.remain = m.diskfree ∧
      r.disk = m.diskcapacity ∧ r.port = m.port ∧ r.separate = m.endflag := by
  simp only [DsRegister.fields, List.cons_append, List.nil_append, List.flatten_cons, List.flatten_nil,
    List.append_nil, holds_append, field_length, MessageBase.footprint_length] at h
  obtain ⟨hbase, htype, hdsid, hremain, hdisk, hport, hseparate⟩ := h
  have hhead := readHead_of_holds hbase
  refine ⟨_, if_neg ?_, hhead, ntohl_hostInt htype, ntohl_hostInt hdsid, ntohll_hostInt hremain,
    ntohll_hostInt hdisk, ntohl_hostInt hport, ntohl_hostInt hseparate⟩
  rw [hhead.1, hlength]
  exact fun hne => hne rfl

theorem heartbeatParse_of_holds {mem : ℤ → BitVec 8} {m : DsHeartBeat} (hlength : m.length = 28)
    (h : Holds mem 0 (m.fields ++ [field 4 m.endflag]).flatten) :
    ∃ r, heartbeatParse mem = some r ∧ r.head.Agrees (ntohl r.head.id) m.toMessageBase ∧
      r.type = m.servicetype ∧ r.weighted = m.loadweight := by
  simp only [DsHeartBeat.fields, List.cons_append, List.nil_append, List.flatten_cons, List.flatten_nil,
    List.append_nil, holds_append, field_length, MessageBase.footprint_length] at h
  obtain ⟨hbase, htype, hweighted, -⟩ := h
  have hhead := readHead_of_holds hbase
  refine ⟨_, if_neg ?_, hhead, ntohl_hostInt htype, ntohl_hostInt hweighted⟩
  rw [hhead.1, hlength]
  exact fun hne => hne rfl

theorem copyBlockParse_of_holds {mem : ℤ → BitVec 8} {m : BackupCommandRes} (hlength : m.length = 44)
    (h : Holds mem 0 (m.fields ++ [field 4 m.endflag]).flatten) :
    ∃ r, copyBlockParse mem = some r ∧ r.head.Agrees r.head.id m.toMessageBase ∧
      r.dsid = m.dataserverid ∧ r.fid = m.fileid ∧ r.bindex = m.chunkid ∧ r.remain = m.diskfree ∧
      r.separate = m.endflag := by
  simp only [BackupCommandRes.fields, List.cons_append, List.nil_append, List.flatten_cons,
    List.flatten_nil, List.append_nil, holds_append, field_length, MessageBase.footprint_length] at h
  obtain ⟨hbase, hdsid, hfid, hbindex, hremain, hseparate⟩ := h
  have hhead := readHead_of_holds hbase
  refine ⟨_, if_neg ?_, hhead, ntohl_hostInt hdsid, ntohll_hostInt hfid, ntohl_hostInt hbindex,
    ntohll_hostInt hremain, ntohl_hostInt hseparate⟩
  rw [hhead.1, hlength]
  exact fun hne => hne rfl

theorem bigEndian_shift_or (x : BitVec 64) (y : BitVec 32) :
    bigEndian (x <<< 32 ||| y.setWidth 64) 8 = (bigEndian x 8).drop 4 ++ bigEndian y 4 := by
  obtain ⟨low, hlow⟩ : ∃ low, low = (bigEndian x 8).drop 4 := ⟨_, rfl⟩
  have hlen : low.length = 4 := by rw [hlow, List.length_drop, bigEndian_length]
  have hspell : ofBigEndian 64 (low ++ bigEndian y 4) = x <<< 32 ||| y.setWidth 64 := by
    apply BitVec.eq_of_getLsbD_eq
    intro k hk
    rw [ofBigEndian, List.foldl_append, getLsbD_foldl_push _ _ k hk, bigEndian_length, BitVec.getLsbD_or,
      BitVec.getLsbD_shiftLeft, BitVec.getLsbD_setWidth]
    by_cases hk32 : k < 32
    · have hidx : 8 * (4 - 1 - (4 - 1 - k / 8)) + k % 8 = k := by omega
      rw [if_pos (by omega),
        bigEndian_getLsbD y 4 (4 - 1 - k / 8) (k % 8) rfl (by omega) (Nat.mod_lt k (by omega)), hidx]
      simp [hk, hk32]
    · have hidx : 8 * (8 - 1 - (4 + (4 - 1 - (k - 8 * 4) / 8))) + (k - 8 * 4) % 8 = k - 32 := by omega
      have hy : y.getLsbD k = false := BitVec.getLsbD_of_ge y k (by omega)
      have hdrop : low.getD (4 - 1 - (k - 8 * 4) / 8) 0 =
          (bigEndian x 8).getD (4 + (4 - 1 - (k - 8 * 4) / 8)) 0 := by
        rw [hlow, List.getD_eq_getElem?_getD, List.getElem?_drop, ← List.getD_eq_getElem?_getD]
      rw [if_neg (by omega), getLsbD_foldl_push low 0 _ (by omega), hlen, if_pos (by omega), hdrop,
        bigEndian_getLsbD x 8 _ _ rfl (by omega) (Nat.mod_lt _ (by omega)), hidx, hy]
      simp [hk, hk32]
  rw [← hspell, ← hlow, bigEndian_ofBigEndian _ 8 (by rw [List.length_append, hlen, bigEndian_length]) rfl]

/-- The result of a deletion is accepted; the eight bytes taken for `remain` begin in the middle of
`diskfree`. -/
theorem deleteBlockParse_of_holds {mem : ℤ → BitVec 8} {m : DeleteCommandRes} (hlength : m.length = 40)
    (h : Holds mem 0 (m.fields ++ [field 4 m.endflag]).flatten) :
    ∃ r, deleteBlockParse mem = some r ∧ r.head.Agrees (ntohl r.head.id) m.toMessageBase ∧
      r.fid = m.fileid ∧ r.bindex = m.chunkid ∧
      r.remain = m.diskfree <<< 32 ||| m.endflag.setWidth 64 := by
  simp only [DeleteCommandRes.fields, List.cons_append, List.nil_append, List.flatten_cons,
    List.flatten_nil, List.append_nil, holds_append, field_length, MessageBase.footprint_length] at h
  obtain ⟨hbase, hfid, hbindex, hfree, hflag⟩ := h
  have hhead := readHead_of_holds hbase
  refine ⟨_, if_neg ?_, hhead, ntohll_hostInt hfid, ntohl_hostInt hbindex, ?_⟩
  · rw [hhead.1, hlength]
    exact fun hne => hne rfl
  · have hsplit : field 8 m.diskfree =
        ((bigEndian m.diskfree 8).take 4).map some ++ ((bigEndian m.diskfree 8).drop 4).map some := by
      rw [← List.map_append, List.take_append_drop, field]
    rw [hsplit, holds_append, List.length_map, List.length_take, bigEndian_length] at hfree
    apply ntohll_hostInt
    rw [field, bigEndian_shift_or, List.map_append, holds_append, List.length_map, List.length_drop,
      bigEndian_length]
    exact ⟨hfree.2, hflag⟩

theorem Sent.agrees_of_readBack {s : Sent} {len : ℤ} {ps : List (Option (BitVec 8))}
    (hs : Writes len s.serialize ps) (hn : (ps.length : ℤ) = s.base.length.toNat)
    (hlen : (s.base.length.toNat : ℤ) ≤ len) (hread : ∀ mem, Holds mem 0 ps → s.ReadBack mem)
    (hinside : ∀ member ∈ place 0 s.layout, member.2.1 + member.2.2 ≤ s.base.length.toNat) : s.Agrees :=
  ⟨arrives hs hn hlen hread, hinside⟩

theorem reqLogin_inside : ∀ member ∈ place 0 reqLogin, member.2.1 + member.2.2 ≤ 48 := by decide

theorem heartbeat_inside : ∀ member ∈ place 0 heartbeat, member.2.1 + member.2.2 ≤ 28 := by decide

theorem nteCpyBlock_inside : ∀ member ∈ place 0 nteCpyBlock, member.2.1 + member.2.2 ≤ 44 := by decide

/-- Behind the twelve bytes of `bid` alignment moves the last two members of `nteDelblock` by four. -/
theorem nteDelblock_separate : (NsField.separate, 40, 4) ∈ place 0 nteDelblock := by decide

theorem Sent.agrees_iff_not_isDeleteResult (s : Sent) : s.Agrees ↔ ¬ s.IsDeleteResult := by
  cases s with
  | register dataserverid port used capacity =>
    refine iff_of_true ?_ (fun h => h)
    refine agrees_of_readBack (DsRegister.serialize_writes _ (by decide)) ?_
      (show (48 : ℤ) ≤ kReqBufSize by decide)
      (fun mem hmem => loginParse_of_holds rfl hmem) reqLogin_inside
    simp [DsRegister.fields, base, packetDataserverRegister]
  | heartbeat loadweight =>
    refine iff_of_true ?_ (fun h => h)
    refine agrees_of_readBack (DsHeartBeat.serialize_writes _ (by decide)) ?_
      (show (28 : ℤ) ≤ kReqBufSize by decide)
      (fun mem hmem => heartbeatParse_of_holds rfl hmem) heartbeat_inside
    simp [DsHeartBeat.fields, base, packetDataserverHeartbeat]
  | backupResult dataserverid fileid chunkid used capacity =>
    refine iff_of_true ?_ (fun h => h)
    refine agrees_of_readBack (BackupCommandRes.serialize_writes _ (by decide)) ?_
      (show (44 : ℤ) ≤ 44 by decide)
      (fun mem hmem => copyBlockParse_of_holds rfl hmem) nteCpyBlock_inside
    simp [BackupCommandRes.fields, base, notifyNsBackupOk]
  | deleteResult cmd used capacity =>
    refine iff_of_false (fun h => ?_) (fun h => h trivial)
    have hinside : 40 + 4 ≤ 40 := h.2 _ nteDelblock_separate
    omega

/-! ## Commands -/

@[simp] theorem ntohl_ntohl (v : BitVec 32) : ntohl (ntohl v) = v := by
  rw [ntohl, ntohl, byteSwap, littleEndian_byteSwap v 4 rfl, ofBigEndian_bigEndian v 4 rfl]

theorem field_eq_littleEndian_ntohll (v : BitVec 64) :
    (littleEndian (ntohll v) 8).map some = field 8 v := by
  rw [ntohll_eq_byteSwap, littleEndian_byteSwap v 8 rfl, field]

theorem field_ntohl (v : BitVec 32) : field 4 (ntohl v) = (littleEndian v 4).map some := by
  rw [field, ntohl, byteSwap, bigEndian_ofBigEndian _ 4 (littleEndian_length v 4) rfl]

theorem Address.ipWord_ofIpWord (ip port : BitVec 32) : (Address.ofIpWord ip port).ipWord = ip :=
  ofLittleEndian_littleEndian ip 4 rfl

theorem decodes_of_reads {α : Type} {decode : ℤ → Coder α} {mem sent : ℤ → BitVec 8} {len : ℤ} {m : α}
    {fields tail : List (List (Option (BitVec 8)))} (hsent : sent = lay mem 0 (fields ++ tail).flatten)
    (hlen : ((fields ++ tail).flatten.length : ℤ) ≤ len) (hread : Reads len (decode len) fields.flatten m) :
    Decodes decode sent len m := by
  intro buffer hbuffer
  have hholds : Holds buffer 0 (fields ++ tail).flatten := by
    refine Holds.of_agree (holds_lay mem 0 _) fun q h0 hq => ?_
    rw [hbuffer q h0 (by omega), hsent]
  rw [List.flatten_append, List.length_append] at hlen
  rw [List.flatten_append, holds_append] at hholds
  rw [hread ⟨buffer, 0⟩ (Int.le_refl 0) (by simp only; omega) hholds.1]

theorem loginResponse_eq (mem : ℤ → BitVec 8) (id msgType rtn blockSize : BitVec 32) (m : DsRegisterRes)
    (hm : m = ⟨⟨28, ntohl id, ntohl msgType, rtn⟩, 0, blockSize, 0⟩) :
    loginResponse mem id msgType rtn blockSize = lay mem 0 (m.fields ++ [field 4 0#32]).flatten := by
  subst hm
  have hzero : ntohl 0 = 0 := by decide
  simp only [DsRegisterRes.fields, MessageBase.footprint, List.cons_append, List.nil_append,
    List.flatten_cons, List.flatten_nil, List.append_nil, ← lay_append, field_length,
    List.length_append]
  simp only [loginResponse, setMember, poke, ← field_ntohl, ntohl_ntohl, hzero]
  -- `encrypt` stands behind `rtn` but is set before it
  rw [← lay_comm _ (show ((offsetOf rspLogin .rtn : ℕ) : ℤ) + (field 4 rtn).length ≤
    (offsetOf rspLogin .encrypt : ℕ) by rw [field_length]; decide)]
  rfl

theorem noticeDeleteBlock_eq (msg : ℤ → BitVec 8) (now : BitVec 32) (fid : BitVec 64)
    (bindex : BitVec 32) (m : DeleteCommand) (hm : m = ⟨⟨32, now, 0x05, 0⟩, fid, bindex, 0⟩) :
    noticeDeleteBlock msg now fid bindex = lay msg 0 (m.fields ++ [field 4 0#32]).flatten := by
  subst hm
  simp only [DeleteCommand.fields, MessageBase.footprint, List.cons_append, List.nil_append,
    List.flatten_cons, List.flatten_nil, List.append_nil, ← lay_append, field_length,
    List.length_append]
  simp only [noticeDeleteBlock, setWord, poke, ← field_ntohl, ntohl_ntohl,
    field_eq_littleEndian_ntohll]
  rfl

theorem noticeCopyBlock_eq (msg : ℤ → BitVec 8) (now : BitVec 32) (fid : BitVec 64)
    (bindex srcAddr srcPort dstAddr dstPort : BitVec 32) (m : BackupCommand)
    (hm : m = ⟨⟨72, now, 0x07, 0⟩, fid, bindex, .ofIpWord (ntohl srcAddr) srcPort,
      .ofIpWord (ntohl dstAddr) dstPort, 0⟩) :
    noticeCopyBlock msg now fid bindex srcAddr srcPort dstAddr dstPort =
      lay msg 0 (m.fields ++ [field 4 0#32]).flatten := by
  subst hm
  simp only [BackupCommand.fields, MessageBase.footprint, Address.footprint, List.cons_append,
    List.nil_append, List.flatten_cons, List.flatten_nil, List.append_nil, ← lay_append, field_length,
    List.length_append, List.length_replicate, lay_replicate_none, Address.ipWord_ofIpWord]
  simp only [noticeCopyBlock, setWord, poke, ← field_ntohl, ntohl_ntohl,
    field_eq_littleEndian_ntohll]
  rfl

theorem Command.agrees (c : Command) : c.Agrees := by
  cases c with
  | loginResponse id msgType rtn blockSize =>
    intro mem this
    refine decodes_of_reads (loginResponse_eq mem id msgType rtn blockSize _ rfl)
      (by simp [DsRegisterRes.fields]) ?_
    exact (DsRegisterRes.deserialize_reads _ this (by decide)).map _
  | deleteNotice now fid bindex =>
    intro msg this
    refine decodes_of_reads (noticeDeleteBlock_eq msg now fid bindex _ rfl)
      (by simp [DeleteCommand.fields]) ?_
    exact DeleteCommand.deserialize_reads _ this (by decide)
  | copyNotice now fid bindex srcAddr srcPort dstAddr dstPort =>
    intro msg this
    refine decodes_of_reads
      (noticeCopyBlock_eq msg now fid bindex srcAddr srcPort dstAddr dstPort _ rfl)
      (by simp [BackupCommand.fields]) ?_
    exact BackupCommand.deserialize_reads _ this (by decide)

/-- Of all that the two servers send each other only the result of a deletion is misread. -/
theorem servers_agree_iff (s : Sent) (c : Command) : (s.Agrees ↔ ¬ s.IsDeleteResult) ∧ c.Agrees :=
  ⟨s.agrees_iff_not_isDeleteResult, c.agrees⟩

/-- A free space of 1 is reported, and 2 ^ 32 is read. -/
theorem deleteResult_misread :
    let cmd : DeleteCommand := ⟨⟨32, 0, 5, 0⟩, 7, 0, 0⟩
    ¬ (Sent.deleteResult cmd 0 1024).Agrees ∧ (notifyNsDelOk cmd 0 1024).diskfree = 1 ∧
      ∀ data, ∃ c, (Sent.deleteResult cmd 0 1024).serialize.exec ⟨data, 0⟩ = (.ok (), c) ∧
        (deleteBlockParse c.data).map Delblock.remain = some 0x100000000#64 := by
  intro cmd
  refine ⟨fun h => (Sent.agrees_iff_not_isDeleteResult _).1 h trivial, by decide, fun data => ?_⟩
  have hw := DeleteCommandRes.serialize_writes (notifyNsDelOk cmd 0 1024) (show (40 : ℤ) < 2 ^ 63 by decide)
  refine ⟨_, hw ⟨data, 0⟩ (Int.le_refl 0) (by simp [DeleteCommandRes.fields]), ?_⟩
  obtain ⟨r, hr, -, -, -, hremain⟩ := deleteBlockParse_of_holds rfl (holds_lay data 0
    ((notifyNsDelOk cmd 0 1024).fields ++ [field 4 (notifyNsDelOk cmd 0 1024).endflag]).flatten)
  rw [hr, Option.map_some, hremain]
  decide

end Tefs.Message
