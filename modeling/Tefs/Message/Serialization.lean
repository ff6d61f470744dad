import Tefs.Lib.Wire

/-! # The messages of the data server

Source: `message/serialization.h`, `message/Message.{h,cpp}`, `message/ClientMessage.{h,cpp}`,
`message/NsMessage.{h,cpp}` and `message/DsMessage.{h,cpp}`, as built for a little-endian host without
`IPV6`.

`serialize` and `deserialize` are chains of `if (GV_SUCCESS == iret) iret = …`, which is the bind of
`Coder`. A decoder fills the record it is called on: `this` is what that record held before.
-/

namespace Tefs.Message
open Wire
set_option autoImplicit false

/-! ## Serialization -/

/-- `data_len - pos >= size && pos >= 0` -/
def Room (size : ℕ) (dataLen pos : ℤ) : Prop := dataLen - pos ≥ size ∧ pos ≥ 0

instance (size : ℕ) (dataLen pos : ℤ) : Decidable (Room size dataLen pos) :=
  inferInstanceAs (Decidable (_ ∧ _))

/-- `data[pos++] = (value >> 8 * (n - 1)) & 0xFF; …; data[pos++] = value & 0xFF;` -/
def store {w : ℕ} (n : ℕ) (value : BitVec w) (s : Cursor) : Cursor :=
  ⟨lay s.data s.pos ((bigEndian value n).map some), s.pos + n⟩

def load (w n : ℕ) (s : Cursor) : BitVec w :=
  ofBigEndian w (bytesAt s.data s.pos n)

def getInt (w n : ℕ) (dataLen : ℤ) : Coder (BitVec w) := do
  let s ← get
  if Room n dataLen s.pos then
    set (⟨s.data, s.pos + n⟩ : Cursor)
    pure (load w n s)
  else throw ()

def getInt8 (dataLen : ℤ) : Coder (BitVec 8) := getInt 8 1 dataLen

def getInt16 (dataLen : ℤ) : Coder (BitVec 16) := getInt 16 2 dataLen

def getInt32 (dataLen : ℤ) : Coder (BitVec 32) := getInt 32 4 dataLen

def getInt64 (dataLen : ℤ) : Coder (BitVec 64) := getInt 64 8 dataLen

def setInt8 (dataLen : ℤ) (value : BitVec 8) : Coder Unit := do
  let s ← get
  if Room 1 dataLen s.pos then set (store 1 value s) else throw ()

def setInt16 (dataLen : ℤ) (value : BitVec 16) : Coder Unit := do
  let s ← get
  if Room 2 dataLen s.pos then set (store 2 value s) else throw ()

def setInt32 (dataLen : ℤ) (value : BitVec 32) : Coder Unit := do
  let s ← get
  if Room 4 dataLen s.pos then set (store 4 value s) else throw ()

/-- In the branch for this host the stores do not stand under the test of `iret`. -/
def setInt64 (dataLen : ℤ) (value : BitVec 64) : Coder Unit := do
  let s ← get
  set (store 8 value s)
  if Room 8 dataLen s.pos then pure () else throw ()

/-! ### Bytes, strings and lists

Without the `set_vint` functions, which call `get_vint8_length` and the like: `Serialization` has no such
functions here, so they cannot be used. The pointers are not `NULL`, but for the string of `set_string`. -/

def getBytes (dataLen bufLength : ℤ) : Coder (List (BitVec 8)) := do
  let s ← get
  if bufLength > 0 ∧ dataLen - s.pos ≥ bufLength ∧ s.pos ≥ 0 then
    set (⟨s.data, s.pos + bufLength⟩ : Cursor)
    pure (bytesAt s.data s.pos bufLength.toNat)
  else throw ()

/-- What is in `str` then, and `real_str_buf_length` -/
def getString (dataLen strBufLength : ℤ) : Coder (List (BitVec 8) × ℤ) := do
  let s ← get
  if Room 4 dataLen s.pos ∧ strBufLength > 0 then
    let length ← getInt32 dataLen
    if length.toInt > 0 then
      let s ← get
      if length.toInt ≤ strBufLength ∧ dataLen - s.pos ≥ length.toInt then
        set (⟨s.data, s.pos + length.toInt⟩ : Cursor)
        pure (bytesAt s.data s.pos length.toInt.toNat, length.toInt - 1)
      else throw ()
    else pure ([0], 0)
  else throw ()

def getValues (w n : ℕ) (dataLen : ℤ) : (length : ℕ) → Coder (List (BitVec w))
  | 0 => pure []
  | length + 1 => do
    let tmp ← getInt w n dataLen
    let value ← getValues w n dataLen length
    pure (tmp :: value)

/-- `length * INT16_SIZE` and the like are products of `int`s. -/
def getVint (w n : ℕ) (dataLen : ℤ) : Coder (List (BitVec w)) := do
  let s ← get
  if Room 4 dataLen s.pos then
    let length ← getInt32 dataLen
    if length.toInt > 0 then
      let s ← get
      if dataLen - s.pos ≥ (length * BitVec.ofNat 32 n).toInt then getValues w n dataLen length.toInt.toNat
      else throw ()
    else pure []
  else throw ()

def getVint8 (dataLen : ℤ) : Coder (List (BitVec 8)) := getVint 8 1 dataLen

def getVint16 (dataLen : ℤ) : Coder (List (BitVec 16)) := getVint 16 2 dataLen

def getVint32 (dataLen : ℤ) : Coder (List (BitVec 32)) := getVint 32 4 dataLen

def getVint64 (dataLen : ℤ) : Coder (List (BitVec 64)) := getVint 64 8 dataLen

/-- The bytes of a string are those in front of its `'\0'`, which counts here. -/
def stringLength (str : Option (List (BitVec 8))) : ℕ :=
  match str with
  | none => 0
  | some bs => if bs.length = 0 then 0 else bs.length + 1

def setString (dataLen : ℤ) (str : Option (List (BitVec 8))) : Coder Unit := do
  let s ← get
  if s.pos < dataLen ∧ s.pos ≥ 0 then
    if dataLen - s.pos ≥ stringLength str + 4 then
      setInt32 dataLen (BitVec.ofNat 32 (stringLength str))
      if stringLength str > 0 then
        let s ← get
        set (⟨lay s.data s.pos ((str.getD [] ++ [0]).map some), s.pos + stringLength str⟩ : Cursor)
    else throw ()
  else throw ()

def setBytes (dataLen : ℤ) (buf : ℤ → BitVec 8) (bufLength : ℤ) : Coder Unit := do
  let s ← get
  if bufLength > 0 ∧ dataLen - s.pos ≥ bufLength ∧ s.pos ≥ 0 then
    set (⟨lay s.data s.pos ((bytesAt buf 0 bufLength.toNat).map some), s.pos + bufLength⟩ : Cursor)
  else throw ()

/-! ### Steps over bytes -/

/-- `pos += n` after `c`, whatever `c` returned -/
def thenSkip {α : Type} (c : Coder α) (n : ℕ) : Coder α :=
  ExceptT.mk fun s =>
    let (r, s') := c.exec s
    (r, ⟨s'.data, s'.pos + n⟩)

/-! ## message_base -/

structure MessageBase where
  length : BitVec 32
  requestId : BitVec 32
  type : BitVec 32
  encrypt : BitVec 32
  deriving DecidableEq, Repr

def messageBaseSize : ℕ := 16

/-- `data_len - pos >= sizeof(message_base)`, a comparison of unsigned 64-bit numbers -/
def HasHead (dataLen pos : ℤ) : Prop := (dataLen - pos) % 2 ^ 64 ≥ messageBaseSize

instance (dataLen pos : ℤ) : Decidable (HasHead dataLen pos) := inferInstanceAs (Decidable (_ ≤ _))

def MessageBase.serialize (m : MessageBase) (dataLen : ℤ) : Coder Unit := do
  let s ← get
  if HasHead dataLen s.pos then
    setInt32 dataLen m.length
    setInt32 dataLen m.requestId
    setInt32 dataLen m.type
    setInt32 dataLen m.encrypt
  else throw ()

def MessageBase.deserialize (dataLen : ℤ) : Coder MessageBase := do
  let s ← get
  if HasHead dataLen s.pos then
    let length ← getInt32 dataLen
    let requestId ← getInt32 dataLen
    let type ← getInt32 dataLen
    let encrypt ← getInt32 dataLen
    pure ⟨length, requestId, type, encrypt⟩
  else throw ()

/-! ## Addresses -/

/-- `address_t` -/
structure Address where
  ip : List (BitVec 8)
  port : BitVec 32
  ip_length : ip.length = 4
  deriving DecidableEq, Repr

/-- `*(int32_t*)ip` -/
def Address.ipWord (a : Address) : BitVec 32 := ofLittleEndian 32 a.ip

def Address.ofIpWord (ip port : BitVec 32) : Address :=
  ⟨littleEndian ip 4, port, littleEndian_length ip 4⟩

def Address.serialize (a : Address) (dataLen : ℤ) : Coder Unit := do
  thenSkip (setInt32 dataLen a.ipWord) 12
  setInt32 dataLen a.port

def Address.deserialize (dataLen : ℤ) : Coder Address := do
  let ip ← thenSkip (getInt32 dataLen) 12
  let port ← getInt32 dataLen
  pure (.ofIpWord ip port)

/-! ## ClientMessage -/

structure ClientGet extends MessageBase where
  fileid : BitVec 64
  chunkid : BitVec 32
  start : BitVec 32
  endPos : BitVec 32
  deriving DecidableEq, Repr

def ClientGet.serialize (m : ClientGet) (dataLen : ℤ) : Coder Unit := do
  m.toMessageBase.serialize dataLen
  setInt64 dataLen m.fileid
  setInt32 dataLen m.chunkid
  setInt32 dataLen m.start
  setInt32 dataLen m.endPos

def ClientGet.deserialize (dataLen : ℤ) : Coder ClientGet := do
  let base ← MessageBase.deserialize dataLen
  let fileid ← getInt64 dataLen
  let chunkid ← getInt32 dataLen
  let start ← getInt32 dataLen
  let endPos ← getInt32 dataLen
  pure ⟨base, fileid, chunkid, start, endPos⟩

/-- `address` has as many entries as the loops over `backup_dataservernum` visit. -/
structure ClientPut extends MessageBase where
  fileid : BitVec 64
  chunkid : BitVec 32
  start : BitVec 32
  endPos : BitVec 32
  backupDataservernum : BitVec 32
  address : List Address
  address_length : address.length = backupDataservernum.toInt.toNat
  deriving DecidableEq, Repr

def setAddresses (dataLen : ℤ) : List Address → Coder Unit
  | [] => pure ()
  | a :: as => do
    a.serialize dataLen
    setAddresses dataLen as

def getAddresses (dataLen : ℤ) : (n : ℕ) → Coder { as : List Address // as.length = n }
  | 0 => pure ⟨[], rfl⟩
  | n + 1 => do
    let a ← Address.deserialize dataLen
    let as ← getAddresses dataLen n
    pure ⟨a :: as.1, congrArg (· + 1) as.2⟩

def ClientPut.serialize (m : ClientPut) (dataLen : ℤ) : Coder Unit := do
  m.toMessageBase.serialize dataLen
  setInt64 dataLen m.fileid
  setInt32 dataLen m.chunkid
  setInt32 dataLen m.start
  setInt32 dataLen m.endPos
  setInt32 dataLen m.backupDataservernum
  setAddresses dataLen m.address

def ClientPut.deserialize (dataLen : ℤ) : Coder ClientPut := do
  let base ← MessageBase.deserialize dataLen
  let fileid ← getInt64 dataLen
  let chunkid ← getInt32 dataLen
  let start ← getInt32 dataLen
  let endPos ← getInt32 dataLen
  let backupDataservernum ← getInt32 dataLen
  let address ← getAddresses dataLen backupDataservernum.toInt.toNat
  pure ⟨base, fileid, chunkid, start, endPos, backupDataservernum, address.1, address.2⟩

/-- What `deserializehead` fills in -/
structure ClientPutHead extends MessageBase where
  fileid : BitVec 64
  chunkid : BitVec 32
  start : BitVec 32
  endPos : BitVec 32
  backupDataservernum : BitVec 32
  deriving DecidableEq, Repr

def ClientPut.deserializehead (dataLen : ℤ) : Coder ClientPutHead := do
  let base ← MessageBase.deserialize dataLen
  let fileid ← getInt64 dataLen
  let chunkid ← getInt32 dataLen
  let start ← getInt32 dataLen
  let endPos ← getInt32 dataLen
  let backupDataservernum ← getInt32 dataLen
  pure ⟨base, fileid, chunkid, start, endPos, backupDataservernum⟩

structure ClientPutRes extends MessageBase where
  retcode : BitVec 32
  deriving DecidableEq, Repr

def ClientPutRes.serialize (m : ClientPutRes) (dataLen : ℤ) : Coder Unit := do
  m.toMessageBase.serialize dataLen
  setInt32 dataLen m.retcode

def ClientPutRes.deserialize (dataLen : ℤ) : Coder ClientPutRes := do
  let base ← MessageBase.deserialize dataLen
  let retcode ← getInt32 dataLen
  pure ⟨base, retcode⟩

structure ClientGetRes extends ClientPutRes where
  deriving DecidableEq, Repr

def ClientGetRes.serialize (m : ClientGetRes) (dataLen : ℤ) : Coder Unit :=
  m.toClientPutRes.serialize dataLen

def ClientGetRes.deserialize (dataLen : ℤ) : Coder ClientGetRes := do
  let res ← ClientPutRes.deserialize dataLen
  pure ⟨res⟩

/-! ## NsMessage -/

structure DsRegister extends MessageBase where
  servicetype : BitVec 32
  dataserverid : BitVec 32
  diskfree : BitVec 64
  diskcapacity : BitVec 64
  port : BitVec 32
  endflag : BitVec 32
  deriving DecidableEq, Repr

def DsRegister.serialize (m : DsRegister) (dataLen : ℤ) : Coder Unit := do
  m.toMessageBase.serialize dataLen
  setInt32 dataLen m.servicetype
  setInt32 dataLen m.dataserverid
  setInt64 dataLen m.diskfree
  setInt64 dataLen m.diskcapacity
  setInt32 dataLen m.port
  setInt32 dataLen m.endflag

def DsRegister.deserialize (this : DsRegister) (dataLen : ℤ) : Coder DsRegister := do
  let base ← MessageBase.deserialize dataLen
  let servicetype ← getInt32 dataLen
  let dataserverid ← getInt32 dataLen
  let diskfree ← getInt64 dataLen
  let diskcapacity ← getInt64 dataLen
  let port ← getInt32 dataLen
  pure ⟨base, servicetype, dataserverid, diskfree, diskcapacity, port, this.endflag⟩

structure DsRegisterRes extends MessageBase where
  retcode : BitVec 32
  blocksize : BitVec 32
  endflag : BitVec 32
  deriving DecidableEq, Repr

def DsRegisterRes.serialize (m : DsRegisterRes) (dataLen : ℤ) : Coder Unit := do
  m.toMessageBase.serialize dataLen
  setInt32 dataLen m.retcode
  setInt32 dataLen m.blocksize
  setInt32 dataLen m.endflag

def DsRegisterRes.deserialize (this : DsRegisterRes) (dataLen : ℤ) : Coder DsRegisterRes := do
  let base ← MessageBase.deserialize dataLen
  let retcode ← getInt32 dataLen
  let blocksize ← getInt32 dataLen
  pure ⟨base, retcode, blocksize, this.endflag⟩

structure DeleteCommand extends MessageBase where
  fileid : BitVec 64
  chunkid : BitVec 32
  endflag : BitVec 32
  deriving DecidableEq, Repr

def DeleteCommand.serialize (m : DeleteCommand) (dataLen : ℤ) : Coder Unit := do
  m.toMessageBase.serialize dataLen
  setInt64 dataLen m.fileid
  setInt32 dataLen m.chunkid
  setInt32 dataLen m.endflag

def DeleteCommand.deserialize (this : DeleteCommand) (dataLen : ℤ) : Coder DeleteCommand := do
  let base ← MessageBase.deserialize dataLen
  let fileid ← getInt64 dataLen
  let chunkid ← getInt32 dataLen
  pure ⟨base, fileid, chunkid, this.endflag⟩

structure DeleteCommandRes extends MessageBase where
  fileid : BitVec 64
  chunkid : BitVec 32
  diskfree : BitVec 64
  endflag : BitVec 32
  deriving DecidableEq, Repr

def DeleteCommandRes.serialize (m : DeleteCommandRes) (dataLen : ℤ) : Coder Unit := do
  m.toMessageBase.serialize dataLen
  setInt64 dataLen m.fileid
  setInt32 dataLen m.chunkid
  setInt64 dataLen m.diskfree
  setInt32 dataLen m.endflag

def DeleteCommandRes.deserialize (this : DeleteCommandRes) (dataLen : ℤ) :
    Coder DeleteCommandRes := do
  let base ← MessageBase.deserialize dataLen
  let fileid ← getInt64 dataLen
  let chunkid ← getInt32 dataLen
  let diskfree ← getInt64 dataLen
  pure ⟨base, fileid, chunkid, diskfree, this.endflag⟩

structure BackupCommand extends MessageBase where
  fileid : BitVec 64
  chunkid : BitVec 32
  srcAddress : Address
  dstAddress : Address
  endflag : BitVec 32
  deriving DecidableEq, Repr

def BackupCommand.serialize (m : BackupCommand) (dataLen : ℤ) : Coder Unit := do
  m.toMessageBase.serialize dataLen
  setInt64 dataLen m.fileid
  setInt32 dataLen m.chunkid
  m.srcAddress.serialize dataLen
  m.dstAddress.serialize dataLen
  setInt32 dataLen m.endflag

def BackupCommand.deserialize (this : BackupCommand) (dataLen : ℤ) : Coder BackupCommand := do
  let base ← MessageBase.deserialize dataLen
  let fileid ← getInt64 dataLen
  let chunkid ← getInt32 dataLen
  let srcAddress ← Address.deserialize dataLen
  let dstAddress ← Address.deserialize dataLen
  pure ⟨base, fileid, chunkid, srcAddress, dstAddress, this.endflag⟩

structure BackupCommandRes extends MessageBase where
  dataserverid : BitVec 32
  fileid : BitVec 64
  chunkid : BitVec 32
  diskfree : BitVec 64
  endflag : BitVec 32
  deriving DecidableEq, Repr

def BackupCommandRes.serialize (m : BackupCommandRes) (dataLen : ℤ) : Coder Unit := do
  m.toMessageBase.serialize dataLen
  setInt32 dataLen m.dataserverid
  setInt64 dataLen m.fileid
  setInt32 dataLen m.chunkid
  setInt64 dataLen m.diskfree
  setInt32 dataLen m.endflag

def BackupCommandRes.deserialize (this : BackupCommandRes) (dataLen : ℤ) :
    Coder BackupCommandRes := do
  let base ← MessageBase.deserialize dataLen
  let dataserverid ← getInt32 dataLen
  let fileid ← getInt64 dataLen
  let chunkid ← getInt32 dataLen
  let diskfree ← getInt64 dataLen
  pure ⟨base, dataserverid, fileid, chunkid, diskfree, this.endflag⟩

structure DsHeartBeat extends MessageBase where
  servicetype : BitVec 32
  loadweight : BitVec 32
  endflag : BitVec 32
  deriving DecidableEq, Repr

def DsHeartBeat.serialize (m : DsHeartBeat) (dataLen : ℤ) : Coder Unit := do
  m.toMessageBase.serialize dataLen
  setInt32 dataLen m.servicetype
  setInt32 dataLen m.loadweight
  setInt32 dataLen m.endflag

def DsHeartBeat.deserialize (this : DsHeartBeat) (dataLen : ℤ) : Coder DsHeartBeat := do
  let base ← MessageBase.deserialize dataLen
  let servicetype ← getInt32 dataLen
  let loadweight ← getInt32 dataLen
  pure ⟨base, servicetype, loadweight, this.endflag⟩

/-! ## DsMessage -/

structure DsPush extends MessageBase where
  fileid : BitVec 64
  chunkid : BitVec 32
  blocksize : BitVec 32
  deriving DecidableEq, Repr

def DsPush.serialize (m : DsPush) (dataLen : ℤ) : Coder Unit := do
  m.toMessageBase.serialize dataLen
  setInt64 dataLen m.fileid
  setInt32 dataLen m.chunkid
  setInt32 dataLen m.blocksize

def DsPush.deserialize (dataLen : ℤ) : Coder DsPush := do
  let base ← MessageBase.deserialize dataLen
  let fileid ← getInt64 dataLen
  let chunkid ← getInt32 dataLen
  let blocksize ← getInt32 dataLen
  pure ⟨base, fileid, chunkid, blocksize⟩

structure DsPushRes extends MessageBase where
  retcode : BitVec 32
  deriving DecidableEq, Repr

def DsPushRes.serialize (m : DsPushRes) (dataLen : ℤ) : Coder Unit := do
  m.toMessageBase.serialize dataLen
  setInt32 dataLen m.retcode

def DsPushRes.deserialize (dataLen : ℤ) : Coder DsPushRes := do
  let base ← MessageBase.deserialize dataLen
  let retcode ← getInt32 dataLen
  pure ⟨base, retcode⟩

end Tefs.Message
