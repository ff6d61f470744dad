import Tefs.Message.Serialization

/-! # Every message is read back as it was written

Each encoder lays down one footprint and each decoder reads one (`Writes`, `Reads`), so a round trip is
the comparison of the two: the footprint read is the one written, up to the `endflag` at its end.
-/

namespace Tefs.Message
open Wire
set_option autoImplicit false

/-! ## Integer fields -/

/-- The bytes of an integer field. -/
def field {w : ℕ} (n : ℕ) (value : BitVec w) : List (Option (BitVec 8)) :=
  (bigEndian value n).map some

@[simp] theorem field_length {w : ℕ} (n : ℕ) (value : BitVec w) : (field n value).length = n := by
  rw [field, List.length_map, bigEndian_length]

theorem bytesAt_of_holds_field {w n : ℕ} {value : BitVec w} {data : ℤ → BitVec 8} {pos : ℤ}
    (h : Holds data pos (field n value)) : bytesAt data pos n = bigEndian value n := by
  have hbytes := bytesAt_of_holds h
  rwa [bigEndian_length] at hbytes

theorem load_of_holds {w n : ℕ} {value : BitVec w} {s : Cursor} (hw : w = 8 * n)
    (h : Holds s.data s.pos (field n value)) : load w n s = value := by
  rw [load, bytesAt_of_holds_field h, ofBigEndian_bigEndian value n hw]

section

variable {dataLen : ℤ}

theorem setInt32_writes (value : BitVec 32) : Writes dataLen (setInt32 dataLen value) (field 4 value) := by
  intro s hpos hlen
  rw [field_length] at hlen ⊢
  have hroom : Room 4 dataLen s.pos := ⟨by omega, hpos⟩
  rw [setInt32, Coder.exec_bind_ok (Coder.exec_get s), if_pos hroom, Coder.exec_set]
  rfl

theorem setInt64_writes (value : BitVec 64) : Writes dataLen (setInt64 dataLen value) (field 8 value) := by
  intro s hpos hlen
  rw [field_length] at hlen ⊢
  have hroom : Room 8 dataLen s.pos := ⟨by omega, hpos⟩
  rw [setInt64, Coder.exec_bind_ok (Coder.exec_get s), Coder.exec_bind_ok (Coder.exec_set s _),
    if_pos hroom, Coder.exec_pure]
  rfl

theorem getInt_reads {w n : ℕ} (value : BitVec w) (hw : w = 8 * n) :
    Reads dataLen (getInt w n dataLen) (field n value) value := by
  intro s hpos hlen hdata
  rw [field_length] at hlen ⊢
  have hroom : Room n dataLen s.pos := ⟨by omega, hpos⟩
  rw [getInt, Coder.exec_bind_ok (Coder.exec_get s), if_pos hroom,
    Coder.exec_bind_ok (Coder.exec_set s _), Coder.exec_pure, load_of_holds hw hdata]

theorem getInt32_reads (value : BitVec 32) : Reads dataLen (getInt32 dataLen) (field 4 value) value :=
  getInt_reads value rfl

theorem getInt64_reads (value : BitVec 64) : Reads dataLen (getInt64 dataLen) (field 8 value) value :=
  getInt_reads value rfl

/-! ## The head -/

def MessageBase.footprint (m : MessageBase) : List (Option (BitVec 8)) :=
  field 4 m.length ++ (field 4 m.requestId ++ (field 4 m.type ++ field 4 m.encrypt))

@[simp] theorem MessageBase.footprint_length (m : MessageBase) : m.footprint.length = 16 := by
  simp only [footprint, List.length_append, field_length]

theorem hasHead_of_le {pos : ℤ} (hlen : dataLen < 2 ^ 63) (hpos : 0 ≤ pos) (h : pos + 16 ≤ dataLen) :
    HasHead dataLen pos := by
  have hmod : (dataLen - pos) % 2 ^ 64 = dataLen - pos := Int.emod_eq_of_lt (by omega) (by omega)
  rw [HasHead, hmod, messageBaseSize]
  omega

theorem MessageBase.serialize_writes (m : MessageBase) (hlen : dataLen < 2 ^ 63) :
    Writes dataLen (m.serialize dataLen) m.footprint := by
  refine Writes.guarded (fun s hpos hroom => hasHead_of_le hlen hpos (by simpa using hroom)) ?_
  exact (setInt32_writes m.length).bind
    ((setInt32_writes m.requestId).bind ((setInt32_writes m.type).bind (setInt32_writes m.encrypt)))

theorem MessageBase.deserialize_reads (m : MessageBase) (hlen : dataLen < 2 ^ 63) :
    Reads dataLen (MessageBase.deserialize dataLen) m.footprint m := by
  refine Reads.guarded (fun s hpos hroom => hasHead_of_le hlen hpos (by simpa using hroom)) ?_
  exact (getInt32_reads m.length).bind ((getInt32_reads m.requestId).bind
    ((getInt32_reads m.type).bind ((getInt32_reads m.encrypt).map _)))

/-! ## Addresses -/

def Address.footprint (a : Address) : List (Option (BitVec 8)) :=
  (field 4 a.ipWord ++ List.replicate 12 none) ++ field 4 a.port

@[simp] theorem Address.footprint_length (a : Address) : a.footprint.length = 20 := by
  simp only [footprint, List.length_append, field_length, List.length_replicate]

theorem Address.ofIpWord_ipWord (a : Address) : Address.ofIpWord a.ipWord a.port = a := by
  obtain ⟨ip, port, hip⟩ := a
  have hbytes : littleEndian (ofLittleEndian 32 ip) 4 = ip := littleEndian_ofLittleEndian ip 4 hip rfl
  simp only [ofIpWord, ipWord, hbytes]

theorem thenSkip_writes {c : Coder Unit} {ps : List (Option (BitVec 8))} (n : ℕ)
    (hc : Writes dataLen c ps) : Writes dataLen (thenSkip c n) (ps ++ List.replicate n none) := by
  intro s hpos hroom
  rw [List.length_append, List.length_replicate] at hroom
  have hexec : (thenSkip c n).exec s = (.ok (), ⟨lay s.data s.pos ps, s.pos + ps.length + n⟩) := by
    have h := hc s hpos (by omega)
    simp only [thenSkip, Coder.exec, ExceptT.run, ExceptT.mk, StateT.run] at h ⊢
    rw [h]
    rfl
  rw [hexec, ← lay_append, lay_replicate_none, List.length_append, List.length_replicate,
    Int.natCast_add, Int.add_assoc]

theorem thenSkip_reads {α : Type} {c : Coder α} {ps : List (Option (BitVec 8))} {a : α} (n : ℕ)
    (hc : Reads dataLen c ps a) : Reads dataLen (thenSkip c n) (ps ++ List.replicate n none) a := by
  intro s hpos hroom hdata
  rw [List.length_append, List.length_replicate] at hroom
  have hexec : (thenSkip c n).exec s = (.ok a, ⟨s.data, s.pos + ps.length + n⟩) := by
    have h := hc s hpos (by omega) ((holds_append s.data s.pos ps _).1 hdata).1
    simp only [thenSkip, Coder.exec, ExceptT.run, ExceptT.mk, StateT.run] at h ⊢
    rw [h]
    rfl
  rw [hexec, List.length_append, List.length_replicate, Int.natCast_add, Int.add_assoc]

theorem Address.serialize_writes (a : Address) : Writes dataLen (a.serialize dataLen) a.footprint :=
  (thenSkip_writes 12 (setInt32_writes a.ipWord)).bind (setInt32_writes a.port)

theorem Address.deserialize_reads (a : Address) :
    Reads dataLen (Address.deserialize dataLen) a.footprint a := by
  have h : Reads dataLen (Address.deserialize dataLen) a.footprint (.ofIpWord a.ipWord a.port) :=
    (thenSkip_reads 12 (getInt32_reads a.ipWord)).bind ((getInt32_reads a.port).map _)
  rwa [ofIpWord_ipWord] at h

theorem setAddresses_writes (as : List Address) :
    Writes dataLen (setAddresses dataLen as) (as.flatMap Address.footprint) := by
  induction as with
  | nil => exact Writes.pure dataLen
  | cons a as ih => exact a.serialize_writes.bind ih

theorem getAddresses_reads (as : List Address) (n : ℕ) (hn : as.length = n) :
    Reads dataLen (getAddresses dataLen n) (as.flatMap Address.footprint) ⟨as, hn⟩ := by
  induction as generalizing n with
  | nil =>
    subst hn
    exact Reads.pure dataLen _
  | cons a as ih =>
    subst hn
    exact a.deserialize_reads.bind ((ih as.length rfl).map _)

end

/-! ## Round trips -/

/-- A type of message: the bytes a message takes, how many of them its decoder leaves unread, and what
the decoder makes of `m` in a record that held `this`. -/
structure MessageType (α : Type) where
  serialize : α → ℤ → Coder Unit
  deserialize : α → ℤ → Coder α
  size : α → ℕ
  unread : ℕ
  decoded : α → α → α

/-- Written at `pos` where `size` bytes are left, and read back from there with the written bytes in
reach; both buffers have a length that an `int64_t` can hold. -/
def RoundTrip {α : Type} (T : MessageType α) : Prop :=
  ∀ (m this : α) (data : ℤ → BitVec 8) (pos dataLen dataLen' : ℤ), 0 ≤ pos →
    pos + T.size m ≤ dataLen → dataLen < 2 ^ 63 → pos + T.size m ≤ dataLen' → dataLen' < 2 ^ 63 →
    ∃ s : Cursor, (T.serialize m dataLen).exec ⟨data, pos⟩ = (.ok (), s) ∧ s.pos = pos + T.size m ∧
      (T.deserialize this dataLen').exec ⟨s.data, pos⟩ =
        (.ok (T.decoded m this), ⟨s.data, s.pos - T.unread⟩)

theorem RoundTrip.of_fields {α : Type} {T : MessageType α}
    (fields tail : α → List (List (Option (BitVec 8))))
    (hsize : ∀ m, T.size m = (fields m).flatten.length + T.unread)
    (htail : ∀ m, (tail m).flatten.length = T.unread)
    (hwrites : ∀ m {dataLen : ℤ}, dataLen < 2 ^ 63 →
      Writes dataLen (T.serialize m dataLen) (fields m ++ tail m).flatten)
    (hreads : ∀ m this {dataLen : ℤ}, dataLen < 2 ^ 63 →
      Reads dataLen (T.deserialize this dataLen) (fields m).flatten (T.decoded m this)) : RoundTrip T := by
  intro m this data pos dataLen dataLen' hpos hroom hlen hroom' hlen'
  have hm := hsize m
  have ht := htail m
  have hw := hwrites m hlen
  rw [List.flatten_append] at hw
  obtain ⟨s, hs, hstop, hback⟩ := Reads.of_writes hw (hreads m this hlen') ⟨data, pos⟩ hpos
    (by simp only; omega) (by simp only; omega)
  have hstop' : s.pos = pos + (fields m).flatten.length + (tail m).flatten.length := hstop
  refine ⟨s, hs, by omega, ?_⟩
  have hend : s.pos - T.unread = pos + (fields m).flatten.length := by omega
  rw [hback, hend]

def ClientGet.fields (m : ClientGet) : List (List (Option (BitVec 8))) :=
  [m.toMessageBase.footprint, field 8 m.fileid, field 4 m.chunkid, field 4 m.start, field 4 m.endPos]

theorem ClientGet.serialize_writes (m : ClientGet) {dataLen : ℤ} (hlen : dataLen < 2 ^ 63) :
    Writes dataLen (m.serialize dataLen) m.fields.flatten := by
  refine (m.toMessageBase.serialize_writes hlen).cons ?_
  refine (setInt64_writes m.fileid).cons ?_
  refine (setInt32_writes m.chunkid).cons ?_
  refine (setInt32_writes m.start).cons ?_
  exact (setInt32_writes m.endPos).last

theorem ClientGet.deserialize_reads (m : ClientGet) {dataLen : ℤ} (hlen : dataLen < 2 ^ 63) :
    Reads dataLen (ClientGet.deserialize dataLen) m.fields.flatten m := by
  refine (m.toMessageBase.deserialize_reads hlen).cons ?_
  refine (getInt64_reads m.fileid).cons ?_
  refine (getInt32_reads m.chunkid).cons ?_
  refine (getInt32_reads m.start).cons ?_
  exact (getInt32_reads m.endPos).last _

def clientGet : MessageType ClientGet where
  serialize := ClientGet.serialize
  deserialize _ := ClientGet.deserialize
  size _ := 36
  unread := 0
  decoded m _ := m

theorem clientGet_roundTrip : RoundTrip clientGet := by
  refine .of_fields ClientGet.fields (fun _ => []) (fun m => ?_) (fun m => ?_)
    (fun m dataLen hlen => ?_) (fun m this dataLen hlen => ?_)
  · simp [clientGet, ClientGet.fields]
  · simp [clientGet]
  · rw [List.append_nil]
    exact m.serialize_writes hlen
  · exact m.deserialize_reads hlen

def ClientPut.fields (m : ClientPut) : List (List (Option (BitVec 8))) :=
  [m.toMessageBase.footprint, field 8 m.fileid, field 4 m.chunkid, field 4 m.start, field 4 m.endPos,
   field 4 m.backupDataservernum, m.address.flatMap Address.footprint]

theorem ClientPut.serialize_writes (m : ClientPut) {dataLen : ℤ} (hlen : dataLen < 2 ^ 63) :
    Writes dataLen (m.serialize dataLen) m.fields.flatten := by
  refine (m.toMessageBase.serialize_writes hlen).cons ?_
  refine (setInt64_writes m.fileid).cons ?_
  refine (setInt32_writes m.chunkid).cons ?_
  refine (setInt32_writes m.start).cons ?_
  refine (setInt32_writes m.endPos).cons ?_
  refine (setInt32_writes m.backupDataservernum).cons ?_
  exact (setAddresses_writes m.address).last

theorem ClientPut.deserialize_reads (m : ClientPut) {dataLen : ℤ} (hlen : dataLen < 2 ^ 63) :
    Reads dataLen (ClientPut.deserialize dataLen) m.fields.flatten m := by
  refine (m.toMessageBase.deserialize_reads hlen).cons ?_
  refine (getInt64_reads m.fileid).cons ?_
  refine (getInt32_reads m.chunkid).cons ?_
  refine (getInt32_reads m.start).cons ?_
  refine (getInt32_reads m.endPos).cons ?_
  refine (getInt32_reads m.backupDataservernum).cons ?_
  exact (getAddresses_reads m.address _ m.address_length).last _

def clientPut : MessageType ClientPut where
  serialize := ClientPut.serialize
  deserialize _ := ClientPut.deserialize
  size m := 40 + 20 * m.address.length
  unread := 0
  decoded m _ := m

theorem clientPut_roundTrip : RoundTrip clientPut := by
  refine .of_fields ClientPut.fields (fun _ => []) (fun m => ?_) (fun m => ?_)
    (fun m dataLen hlen => ?_) (fun m this dataLen hlen => ?_)
  · simp [clientPut, ClientPut.fields]
    omega
  · simp [clientPut]
  · rw [List.append_nil]
    exact m.serialize_writes hlen
  · exact m.deserialize_reads hlen

def ClientPutRes.fields (m : ClientPutRes) : List (List (Option (BitVec 8))) :=
  [m.toMessageBase.footprint, field 4 m.retcode]

theorem ClientPutRes.serialize_writes (m : ClientPutRes) {dataLen : ℤ} (hlen : dataLen < 2 ^ 63) :
    Writes dataLen (m.serialize dataLen) m.fields.flatten := by
  refine (m.toMessageBase.serialize_writes hlen).cons ?_
  exact (setInt32_writes m.retcode).last

theorem ClientPutRes.deserialize_reads (m : ClientPutRes) {dataLen : ℤ} (hlen : dataLen < 2 ^ 63) :
    Reads dataLen (ClientPutRes.deserialize dataLen) m.fields.flatten m := by
  refine (m.toMessageBase.deserialize_reads hlen).cons ?_
  exact (getInt32_reads m.retcode).last _

def clientPutRes : MessageType ClientPutRes where
  serialize := ClientPutRes.serialize
  deserialize _ := ClientPutRes.deserialize
  size _ := 20
  unread := 0
  decoded m _ := m

theorem clientPutRes_roundTrip : RoundTrip clientPutRes := by
  refine .of_fields ClientPutRes.fields (fun _ => []) (fun m => ?_) (fun m => ?_)
    (fun m dataLen hlen => ?_) (fun m this dataLen hlen => ?_)
  · simp [clientPutRes, ClientPutRes.fields]
  · simp [clientPutRes]
  · rw [List.append_nil]
    exact m.serialize_writes hlen
  · exact m.deserialize_reads hlen

def clientGetRes : MessageType ClientGetRes where
  serialize := ClientGetRes.serialize
  deserialize _ := ClientGetRes.deserialize
  size _ := 20
  unread := 0
  decoded m _ := m

theorem clientGetRes_roundTrip : RoundTrip clientGetRes := by
  refine .of_fields (fun m => m.toClientPutRes.fields) (fun _ => []) (fun m => ?_) (fun m => ?_)
    (fun m dataLen hlen => ?_) (fun m this dataLen hlen => ?_)
  · simp [clientGetRes, ClientPutRes.fields]
  · simp [clientGetRes]
  · rw [List.append_nil]
    exact m.toClientPutRes.serialize_writes hlen
  · exact (m.toClientPutRes.deserialize_reads hlen).map _

def DsRegister.fields (m : DsRegister) : List (List (Option (BitVec 8))) :=
  [m.toMessageBase.footprint, field 4 m.servicetype, field 4 m.dataserverid, field 8 m.diskfree,
   field 8 m.diskcapacity, field 4 m.port]

theorem DsRegister.serialize_writes (m : DsRegister) {dataLen : ℤ} (hlen : dataLen < 2 ^ 63) :
    Writes dataLen (m.serialize dataLen) (m.fields ++ [field 4 m.endflag]).flatten := by
  refine (m.toMessageBase.serialize_writes hlen).cons ?_
  refine (setInt32_writes m.servicetype).cons ?_
  refine (setInt32_writes m.dataserverid).cons ?_
  refine (setInt64_writes m.diskfree).cons ?_
  refine (setInt64_writes m.diskcapacity).cons ?_
  refine (setInt32_writes m.port).cons ?_
  exact (setInt32_writes m.endflag).last

theorem DsRegister.deserialize_reads (m this : DsRegister) {dataLen : ℤ} (hlen : dataLen < 2 ^ 63) :
    Reads dataLen (this.deserialize dataLen) m.fields.flatten { m with endflag := this.endflag } := by
  refine (m.toMessageBase.deserialize_reads hlen).cons ?_
  refine (getInt32_reads m.servicetype).cons ?_
  refine (getInt32_reads m.dataserverid).cons ?_
  refine (getInt64_reads m.diskfree).cons ?_
  refine (getInt64_reads m.diskcapacity).cons ?_
  exact (getInt32_reads m.port).last _

def dsRegister : MessageType DsRegister where
  serialize := DsRegister.serialize
  deserialize this := this.deserialize
  size _ := 48
  unread := 4
  decoded m this := { m with endflag := this.endflag }

theorem dsRegister_roundTrip : RoundTrip dsRegister := by
  refine .of_fields DsRegister.fields (fun m => [field 4 m.endflag]) (fun m => ?_) (fun m => ?_)
    (fun m dataLen hlen => ?_) (fun m this dataLen hlen => ?_)
  · simp [dsRegister, DsRegister.fields]
  · simp [dsRegister]
  · exact m.serialize_writes hlen
  · exact m.deserialize_reads this hlen

def DsRegisterRes.fields (m : DsRegisterRes) : List (List (Option (BitVec 8))) :=
  [m.toMessageBase.footprint, field 4 m.retcode, field 4 m.blocksize]

theorem DsRegisterRes.serialize_writes (m : DsRegisterRes) {dataLen : ℤ} (hlen : dataLen < 2 ^ 63) :
    Writes dataLen (m.serialize dataLen) (m.fields ++ [field 4 m.endflag]).flatten := by
  refine (m.toMessageBase.serialize_writes hlen).cons ?_
  refine (setInt32_writes m.retcode).cons ?_
  refine (setInt32_writes m.blocksize).cons ?_
  exact (setInt32_writes m.endflag).last

theorem DsRegisterRes.deserialize_reads (m this : DsRegisterRes) {dataLen : ℤ}
    (hlen : dataLen < 2 ^ 63) :
    Reads dataLen (this.deserialize dataLen) m.fields.flatten { m with endflag := this.endflag } := by
  refine (m.toMessageBase.deserialize_reads hlen).cons ?_
  refine (getInt32_reads m.retcode).cons ?_
  exact (getInt32_reads m.blocksize).last _

def dsRegisterRes : MessageType DsRegisterRes where
  serialize := DsRegisterRes.serialize
  deserialize this := this.deserialize
  size _ := 28
  unread := 4
  decoded m this := { m with endflag := this.endflag }

theorem dsRegisterRes_roundTrip : RoundTrip dsRegisterRes := by
  refine .of_fields DsRegisterRes.fields (fun m => [field 4 m.endflag]) (fun m => ?_) (fun m => ?_)
    (fun m dataLen hlen => ?_) (fun m this dataLen hlen => ?_)
  · simp [dsRegisterRes, DsRegisterRes.fields]
  · simp [dsRegisterRes]
  · exact m.serialize_writes hlen
  · exact m.deserialize_reads this hlen

def DeleteCommand.fields (m : DeleteCommand) : List (List (Option (BitVec 8))) :=
  [m.toMessageBase.footprint, field 8 m.fileid, field 4 m.chunkid]

theorem DeleteCommand.serialize_writes (m : DeleteCommand) {dataLen : ℤ} (hlen : dataLen < 2 ^ 63) :
    Writes dataLen (m.serialize dataLen) (m.fields ++ [field 4 m.endflag]).flatten := by
  refine (m.toMessageBase.serialize_writes hlen).cons ?_
  refine (setInt64_writes m.fileid).cons ?_
  refine (setInt32_writes m.chunkid).cons ?_
  exact (setInt32_writes m.endflag).last

theorem DeleteCommand.deserialize_reads (m this : DeleteCommand) {dataLen : ℤ}
    (hlen : dataLen < 2 ^ 63) :
    Reads dataLen (this.deserialize dataLen) m.fields.flatten { m with endflag := this.endflag } := by
  refine (m.toMessageBase.deserialize_reads hlen).cons ?_
  refine (getInt64_reads m.fileid).cons ?_
  exact (getInt32_reads m.chunkid).last _

def deleteCommand : MessageType DeleteCommand where
  serialize := DeleteCommand.serialize
  deserialize this := this.deserialize
  size _ := 32
  unread := 4
  decoded m this := { m with endflag := this.endflag }

theorem deleteCommand_roundTrip : RoundTrip deleteCommand := by
  refine .of_fields DeleteCommand.fields (fun m => [field 4 m.endflag]) (fun m => ?_) (fun m => ?_)
    (fun m dataLen hlen => ?_) (fun m this dataLen hlen => ?_)
  · simp [deleteCommand, DeleteCommand.fields]
  · simp [deleteCommand]
  · exact m.serialize_writes hlen
  · exact m.deserialize_reads this hlen

def DeleteCommandRes.fields (m : DeleteCommandRes) : List (List (Option (BitVec 8))) :=
  [m.toMessageBase.footprint, field 8 m.fileid, field 4 m.chunkid, field 8 m.diskfree]

theorem DeleteCommandRes.serialize_writes (m : DeleteCommandRes) {dataLen : ℤ} (hlen : dataLen < 2 ^ 63) :
    Writes dataLen (m.serialize dataLen) (m.fields ++ [field 4 m.endflag]).flatten := by
  refine (m.toMessageBase.serialize_writes hlen).cons ?_
  refine (setInt64_writes m.fileid).cons ?_
  refine (setInt32_writes m.chunkid).cons ?_
  refine (setInt64_writes m.diskfree).cons ?_
  exact (setInt32_writes m.endflag).last

theorem DeleteCommandRes.deserialize_reads (m this : DeleteCommandRes) {dataLen : ℤ}
    (hlen : dataLen < 2 ^ 63) :
    Reads dataLen (this.deserialize dataLen) m.fields.flatten { m with endflag := this.endflag } := by
  refine (m.toMessageBase.deserialize_reads hlen).cons ?_
  refine (getInt64_reads m.fileid).cons ?_
  refine (getInt32_reads m.chunkid).cons ?_
  exact (getInt64_reads m.diskfree).last _

def deleteCommandRes : MessageType DeleteCommandRes where
  serialize := DeleteCommandRes.serialize
  deserialize this := this.deserialize
  size _ := 40
  unread := 4
  decoded m this := { m with endflag := this.endflag }

theorem deleteCommandRes_roundTrip : RoundTrip deleteCommandRes := by
  refine .of_fields DeleteCommandRes.fields (fun m => [field 4 m.endflag]) (fun m => ?_) (fun m => ?_)
    (fun m dataLen hlen => ?_) (fun m this dataLen hlen => ?_)
  · simp [deleteCommandRes, DeleteCommandRes.fields]
  · simp [deleteCommandRes]
  · exact m.serialize_writes hlen
  · exact m.deserialize_reads this hlen

def BackupCommand.fields (m : BackupCommand) : List (List (Option (BitVec 8))) :=
  [m.toMessageBase.footprint, field 8 m.fileid, field 4 m.chunkid, m.srcAddress.footprint,
   m.dstAddress.footprint]

theorem BackupCommand.serialize_writes (m : BackupCommand) {dataLen : ℤ} (hlen : dataLen < 2 ^ 63) :
    Writes dataLen (m.serialize dataLen) (m.fields ++ [field 4 m.endflag]).flatten := by
  refine (m.toMessageBase.serialize_writes hlen).cons ?_
  refine (setInt64_writes m.fileid).cons ?_
  refine (setInt32_writes m.chunkid).cons ?_
  refine m.srcAddress.serialize_writes.cons ?_
  refine m.dstAddress.serialize_writes.cons ?_
  exact (setInt32_writes m.endflag).last

theorem BackupCommand.deserialize_reads (m this : BackupCommand) {dataLen : ℤ}
    (hlen : dataLen < 2 ^ 63) :
    Reads dataLen (this.deserialize dataLen) m.fields.flatten { m with endflag := this.endflag } := by
  refine (m.toMessageBase.deserialize_reads hlen).cons ?_
  refine (getInt64_reads m.fileid).cons ?_
  refine (getInt32_reads m.chunkid).cons ?_
  refine m.srcAddress.deserialize_reads.cons ?_
  exact m.dstAddress.deserialize_reads.last _

def backupCommand : MessageType BackupCommand where
  serialize := BackupCommand.serialize
  deserialize this := this.deserialize
  size _ := 72
  unread := 4
  decoded m this := { m with endflag := this.endflag }

theorem backupCommand_roundTrip : RoundTrip backupCommand := by
  refine .of_fields BackupCommand.fields (fun m => [field 4 m.endflag]) (fun m => ?_) (fun m => ?_)
    (fun m dataLen hlen => ?_) (fun m this dataLen hlen => ?_)
  · simp [backupCommand, BackupCommand.fields]
  · simp [backupCommand]
  · exact m.serialize_writes hlen
  · exact m.deserialize_reads this hlen

def BackupCommandRes.fields (m : BackupCommandRes) : List (List (Option (BitVec 8))) :=
  [m.toMessageBase.footprint, field 4 m.dataserverid, field 8 m.fileid, field 4 m.chunkid,
   field 8 m.diskfree]

theorem BackupCommandRes.serialize_writes (m : BackupCommandRes) {dataLen : ℤ} (hlen : dataLen < 2 ^ 63) :
    Writes dataLen (m.serialize dataLen) (m.fields ++ [field 4 m.endflag]).flatten := by
  refine (m.toMessageBase.serialize_writes hlen).cons ?_
  refine (setInt32_writes m.dataserverid).cons ?_
  refine (setInt64_writes m.fileid).cons ?_
  refine (setInt32_writes m.chunkid).cons ?_
  refine (setInt64_writes m.diskfree).cons ?_
  exact (setInt32_writes m.endflag).last

theorem BackupCommandRes.deserialize_reads (m this : BackupCommandRes) {dataLen : ℤ}
    (hlen : dataLen < 2 ^ 63) :
    Reads dataLen (this.deserialize dataLen) m.fields.flatten { m with endflag := this.endflag } := by
  refine (m.toMessageBase.deserialize_reads hlen).cons ?_
  refine (getInt32_reads m.dataserverid).cons ?_
  refine (getInt64_reads m.fileid).cons ?_
  refine (getInt32_reads m.chunkid).cons ?_
  exact (getInt64_reads m.diskfree).last _

def backupCommandRes : MessageType BackupCommandRes where
  serialize := BackupCommandRes.serialize
  deserialize this := this.deserialize
  size _ := 44
  unread := 4
  decoded m this := { m with endflag := this.endflag }

theorem backupCommandRes_roundTrip : RoundTrip backupCommandRes := by
  refine .of_fields BackupCommandRes.fields (fun m => [field 4 m.endflag]) (fun m => ?_) (fun m => ?_)
    (fun m dataLen hlen => ?_) (fun m this dataLen hlen => ?_)
  · simp [backupCommandRes, BackupCommandRes.fields]
  · simp [backupCommandRes]
  · exact m.serialize_writes hlen
  · exact m.deserialize_reads this hlen

def DsHeartBeat.fields (m : DsHeartBeat) : List (List (Option (BitVec 8))) :=
  [m.toMessageBase.footprint, field 4 m.servicetype, field 4 m.loadweight]

theorem DsHeartBeat.serialize_writes (m : DsHeartBeat) {dataLen : ℤ} (hlen : dataLen < 2 ^ 63) :
    Writes dataLen (m.serialize dataLen) (m.fields ++ [field 4 m.endflag]).flatten := by
  refine (m.toMessageBase.serialize_writes hlen).cons ?_
  refine (setInt32_writes m.servicetype).cons ?_
  refine (setInt32_writes m.loadweight).cons ?_
  exact (setInt32_writes m.endflag).last

theorem DsHeartBeat.deserialize_reads (m this : DsHeartBeat) {dataLen : ℤ} (hlen : dataLen < 2 ^ 63) :
    Reads dataLen (this.deserialize dataLen) m.fields.flatten { m with endflag := this.endflag } := by
  refine (m.toMessageBase.deserialize_reads hlen).cons ?_
  refine (getInt32_reads m.servicetype).cons ?_
  exact (getInt32_reads m.loadweight).last _

def dsHeartBeat : MessageType DsHeartBeat where
  serialize := DsHeartBeat.serialize
  deserialize this := this.deserialize
  size _ := 28
  unread := 4
  decoded m this := { m with endflag := this.endflag }

theorem dsHeartBeat_roundTrip : RoundTrip dsHeartBeat := by
  refine .of_fields DsHeartBeat.fields (fun m => [field 4 m.endflag]) (fun m => ?_) (fun m => ?_)
    (fun m dataLen hlen => ?_) (fun m this dataLen hlen => ?_)
  · simp [dsHeartBeat, DsHeartBeat.fields]
  · simp [dsHeartBeat]
  · exact m.serialize_writes hlen
  · exact m.deserialize_reads this hlen

def DsPush.fields (m : DsPush) : List (List (Option (BitVec 8))) :=
  [m.toMessageBase.footprint, field 8 m.fileid, field 4 m.chunkid, field 4 m.blocksize]

theorem DsPush.serialize_writes (m : DsPush) {dataLen : ℤ} (hlen : dataLen < 2 ^ 63) :
    Writes dataLen (m.serialize dataLen) m.fields.flatten := by
  refine (m.toMessageBase.serialize_writes hlen).cons ?_
  refine (setInt64_writes m.fileid).cons ?_
  refine (setInt32_writes m.chunkid).cons ?_
  exact (setInt32_writes m.blocksize).last

theorem DsPush.deserialize_reads (m : DsPush) {dataLen : ℤ} (hlen : dataLen < 2 ^ 63) :
    Reads dataLen (DsPush.deserialize dataLen) m.fields.flatten m := by
  refine (m.toMessageBase.deserialize_reads hlen).cons ?_
  refine (getInt64_reads m.fileid).cons ?_
  refine (getInt32_reads m.chunkid).cons ?_
  exact (getInt32_reads m.blocksize).last _

def dsPush : MessageType DsPush where
  serialize := DsPush.serialize
  deserialize _ := DsPush.deserialize
  size _ := 32
  unread := 0
  decoded m _ := m

theorem dsPush_roundTrip : RoundTrip dsPush := by
  refine .of_fields DsPush.fields (fun _ => []) (fun m => ?_) (fun m => ?_)
    (fun m dataLen hlen => ?_) (fun m this dataLen hlen => ?_)
  · simp [dsPush, DsPush.fields]
  · simp [dsPush]
  · rw [List.append_nil]
    exact m.serialize_writes hlen
  · exact m.deserialize_reads hlen

def DsPushRes.fields (m : DsPushRes) : List (List (Option (BitVec 8))) :=
  [m.toMessageBase.footprint, field 4 m.retcode]

theorem DsPushRes.serialize_writes (m : DsPushRes) {dataLen : ℤ} (hlen : dataLen < 2 ^ 63) :
    Writes dataLen (m.serialize dataLen) m.fields.flatten := by
  refine (m.toMessageBase.serialize_writes hlen).cons ?_
  exact (setInt32_writes m.retcode).last

theorem DsPushRes.deserialize_reads (m : DsPushRes) {dataLen : ℤ} (hlen : dataLen < 2 ^ 63) :
    Reads dataLen (DsPushRes.deserialize dataLen) m.fields.flatten m := by
  refine (m.toMessageBase.deserialize_reads hlen).cons ?_
  exact (getInt32_reads m.retcode).last _

def dsPushRes : MessageType DsPushRes where
  serialize := DsPushRes.serialize
  deserialize _ := DsPushRes.deserialize
  size _ := 20
  unread := 0
  decoded m _ := m

theorem dsPushRes_roundTrip : RoundTrip dsPushRes := by
  refine .of_fields DsPushRes.fields (fun _ => []) (fun m => ?_) (fun m => ?_)
    (fun m dataLen hlen => ?_) (fun m this dataLen hlen => ?_)
  · simp [dsPushRes, DsPushRes.fields]
  · simp [dsPushRes]
  · rw [List.append_nil]
    exact m.serialize_writes hlen
  · exact m.deserialize_reads hlen

/-- The round trip of every message of the data server. -/
theorem every_message_roundTrip :
    RoundTrip clientPut ∧ RoundTrip clientGet ∧ RoundTrip clientPutRes ∧ RoundTrip clientGetRes ∧
    RoundTrip dsRegister ∧ RoundTrip dsRegisterRes ∧ RoundTrip deleteCommand ∧
    RoundTrip deleteCommandRes ∧ RoundTrip backupCommand ∧ RoundTrip backupCommandRes ∧
    RoundTrip dsHeartBeat ∧ RoundTrip dsPush ∧ RoundTrip dsPushRes :=
  ⟨clientPut_roundTrip, clientGet_roundTrip, clientPutRes_roundTrip, clientGetRes_roundTrip,
    dsRegister_roundTrip, dsRegisterRes_roundTrip, deleteCommand_roundTrip, deleteCommandRes_roundTrip,
    backupCommand_roundTrip, backupCommandRes_roundTrip, dsHeartBeat_roundTrip, dsPush_roundTrip,
    dsPushRes_roundTrip⟩

end Tefs.Message
