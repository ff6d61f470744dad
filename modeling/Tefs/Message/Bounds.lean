import Tefs.Lib.Bounded
import Tefs.Message.RoundTrip

/-! # What the codecs do at the end of their buffer

An operation that does not fit should fail and leave everything as it is. `set_int64` writes first; the
readers of strings and lists move behind the length before they look at the rest. The encoders inherit the
first, and the decoders that leave out the `endflag` take a buffer that ends in front of it.
-/

namespace Tefs.Message
open Wire
set_option autoImplicit false

section Fields

variable {dataLen : ℤ}

/-! ## Integers -/

theorem room_iff {n : ℕ} {pos : ℤ} (hpos : 0 ≤ pos) : Room n dataLen pos ↔ pos + n ≤ dataLen := by
  rw [Room]
  omega

theorem getInt_exec {w n : ℕ} {s : Cursor} (h : Room n dataLen s.pos) :
    (getInt w n dataLen).exec s = (.ok (load w n s), ⟨s.data, s.pos + n⟩) := by
  rw [getInt, Coder.exec_bind_ok (Coder.exec_get s), if_pos h]
  rfl

theorem getInt_exec_short {w n : ℕ} {s : Cursor} (h : ¬ Room n dataLen s.pos) :
    (getInt w n dataLen).exec s = (.error (), s) := by
  rw [getInt, Coder.exec_bind_ok (Coder.exec_get s), if_neg h]
  rfl

theorem getInt_within (w n : ℕ) (s : Cursor) : Within dataLen (getInt w n dataLen) s := by
  refine Within.choose (Room n dataLen) (fun h => ?_) (fun _ => (Within.throw dataLen s).const)
  exact Within.load n (ofBigEndian w) n (by have := h.1; omega)

theorem getInt_consumes (w n : ℕ) : Consumes dataLen (getInt w n dataLen) n where
  within s _ _ := getInt_within w n s
  takes s hpos hfit := ⟨_, getInt_exec ((room_iff hpos).2 hfit)⟩
  fails s hpos _ hlt := by
    rw [getInt_exec_short (by rw [room_iff hpos]; omega)]

/-- A store under the test of its size -/
def setInt {w : ℕ} (n : ℕ) (dataLen : ℤ) (value : BitVec w) : Coder Unit := do
  let s ← get
  if Room n dataLen s.pos then set (store n value s) else throw ()

theorem setInt_exec_short {w n : ℕ} (value : BitVec w) {s : Cursor} (h : ¬ Room n dataLen s.pos) :
    (setInt n dataLen value).exec s = (.error (), s) := by
  rw [setInt, Coder.exec_bind_ok (Coder.exec_get s), if_neg h]
  rfl

theorem setInt_within {w n : ℕ} (value : BitVec w) (s : Cursor) : Within dataLen (setInt n dataLen value) s := by
  refine Within.choose (Room n dataLen) (fun h => ?_) (fun _ => (Within.throw dataLen s).const)
  exact Within.store (field n value) n (by rw [field_length]; have := h.1; omega)

theorem setInt32_encodes (value : BitVec 32) :
    Encodes dataLen (setInt32 dataLen value) (field 4 value) [⟨4, false⟩] where
  writes := setInt32_writes value
  size := field_length 4 value
  fails pos hpos hle hlt := by
    rw [field_length] at hlt
    refine Encodes.fails_clean pos (fun data => ?_) (not_straddled_of_tested (List.forall_mem_singleton.2 rfl))
    exact setInt_exec_short value (by rw [room_iff hpos]; omega)

theorem setInt64_exec_short (value : BitVec 64) {s : Cursor} (h : ¬ Room 8 dataLen s.pos) :
    (setInt64 dataLen value).exec s = (.error (), store 8 value s) := by
  rw [setInt64, Coder.exec_bind_ok (Coder.exec_get s), Coder.exec_bind_ok (Coder.exec_set s _), if_neg h]
  rfl

theorem setInt64_encodes (value : BitVec 64) :
    Encodes dataLen (setInt64 dataLen value) (field 8 value) [⟨8, true⟩] where
  writes := setInt64_writes value
  size := field_length 8 value
  fails pos hpos hle hlt := by
    rw [field_length] at hlt
    have hstraddled : Straddled [⟨8, true⟩] (dataLen - pos) := Or.inl ⟨rfl, by omega, by simp only; omega⟩
    have hwhole : (field 8 value).take 8 = field 8 value := List.take_of_length_le (by rw [field_length])
    refine ⟨8, pos + 8, fun data => ?_, fun _ => ?_, fun h => absurd hstraddled h⟩
    · rw [hwhole]
      exact setInt64_exec_short value (by rw [room_iff hpos]; omega)
    · have hin : (dataLen - pos).toNat < (bigEndian value 8).length := by
        rw [bigEndian_length]
        omega
      rw [hwhole, field, List.getElem?_map, List.getElem?_eq_getElem hin]
      exact ⟨_, rfl⟩

/-! ## Heads and addresses -/

theorem MessageBase.serialize_encodes (m : MessageBase) (hlen : dataLen < 2 ^ 63) :
    Encodes dataLen (m.serialize dataLen) m.footprint [⟨16, false⟩] := by
  refine Encodes.guarded (fun pos hpos hroom => hasHead_of_le hlen hpos (by simpa using hroom)) ?_
  refine Encodes.tested (?_ : Encodes _ _ _ [⟨4, false⟩, ⟨4, false⟩, ⟨4, false⟩, ⟨4, false⟩]) (by decide)
    m.footprint_length
  exact (setInt32_encodes m.length).bind
    ((setInt32_encodes m.requestId).bind ((setInt32_encodes m.type).bind (setInt32_encodes m.encrypt)))

theorem MessageBase.deserialize_consumes (hlen : dataLen < 2 ^ 63) :
    Consumes dataLen (MessageBase.deserialize dataLen) 16 := by
  refine Consumes.guarded (fun pos hpos hroom => hasHead_of_le hlen hpos (by simpa using hroom)) ?_
  refine (getInt_consumes 32 4).bind (k := 12) fun _ => ?_
  refine (getInt_consumes 32 4).bind (k := 8) fun _ => ?_
  refine (getInt_consumes 32 4).bind (k := 4) fun _ => ?_
  exact (getInt_consumes 32 4).map _

theorem thenSkip_exec {α : Type} (c : Coder α) (n : ℕ) (s : Cursor) :
    (thenSkip c n).exec s = ((c.exec s).1, ⟨(c.exec s).2.data, (c.exec s).2.pos + n⟩) := rfl

theorem thenSkip_within {α : Type} {c : Coder α} {s : Cursor} (n : ℕ) (h : Within dataLen c s) :
    Within dataLen (thenSkip c n) s where
  write q hq := h.write q hq
  read data hdata := by
    obtain ⟨hres, hpos, hsame⟩ := h.read data hdata
    exact ⟨hres, congrArg (· + (n : ℤ)) hpos, hsame⟩

theorem Address.serialize_encodes (a : Address) :
    Encodes dataLen (a.serialize dataLen) a.footprint [⟨20, false⟩] where
  writes := a.serialize_writes
  size := a.footprint_length
  fails pos hpos hle hlt := by
    rw [footprint_length] at hlt
    have htested : ¬ Straddled [⟨20, false⟩] (dataLen - pos) :=
      not_straddled_of_tested (List.forall_mem_singleton.2 rfl)
    by_cases hip : pos + 4 ≤ dataLen
    -- the address is written, and `pos += 12` may leave the buffer
    · have hfront : a.footprint.take 4 = field 4 a.ipWord := by
        rw [footprint, List.append_assoc]
        exact List.take_left' (field_length 4 a.ipWord)
      refine ⟨4, pos + 4 + 12, fun data => ?_, fun h => absurd h htested, fun _ i b hb => ?_⟩
      · have hset : (setInt32 dataLen a.ipWord).exec ⟨data, pos⟩ = (.ok (), ⟨lay data pos (field 4 a.ipWord), pos + 4⟩) :=
          setInt32_writes a.ipWord ⟨data, pos⟩ hpos (by rw [field_length]; exact hip)
        have hskip : (thenSkip (setInt32 dataLen a.ipWord) 12).exec ⟨data, pos⟩ =
            (.ok (), ⟨lay data pos (field 4 a.ipWord), pos + 4 + 12⟩) := by
          rw [thenSkip_exec, hset]
          rfl
        have hport : ¬ Room 4 dataLen (pos + 4 + 12) := by
          rw [room_iff (by omega)]
          omega
        rw [serialize, Coder.exec_bind_ok hskip, hfront]
        exact setInt_exec_short a.port hport
      · have hi : i < 4 := by
          obtain ⟨hi, -⟩ := List.getElem?_eq_some_iff.1 hb
          rw [hfront, field_length] at hi
          exact hi
        omega
    · refine Encodes.fails_clean (pos + 12) (fun data => ?_) htested
      have hset : (setInt32 dataLen a.ipWord).exec ⟨data, pos⟩ = (.error (), ⟨data, pos⟩) :=
        setInt_exec_short a.ipWord (by rw [room_iff hpos]; omega)
      have hskip : (thenSkip (setInt32 dataLen a.ipWord) 12).exec ⟨data, pos⟩ = (.error (), ⟨data, pos + 12⟩) := by
        rw [thenSkip_exec, hset]
        rfl
      rw [serialize, Coder.exec_bind_error hskip]

theorem Address.deserialize_consumes : Consumes dataLen (Address.deserialize dataLen) 20 := by
  have hskip : ∀ s : Cursor, 0 ≤ s.pos → s.pos + 4 ≤ dataLen →
      (thenSkip (getInt32 dataLen) 12).exec s = (.ok (load 32 4 s), ⟨s.data, s.pos + 4 + 12⟩) := by
    intro s hpos hfit
    rw [thenSkip_exec, getInt32, getInt_exec ((room_iff hpos).2 hfit)]
    rfl
  refine ⟨fun s hpos hle => ?_, fun s hpos hfit => ?_, fun s hpos hle hlt => ?_⟩
  · refine (thenSkip_within 12 (getInt_within 32 4 s)).bind fun ip s' _ => ?_
    exact (getInt_within 32 4 s').bind fun port s'' _ => Within.pure dataLen _ s''
  · have hroom : Room 4 dataLen (s.pos + 4 + 12) := (room_iff (by omega)).2 (by omega)
    have hport : (getInt32 dataLen).exec ⟨s.data, s.pos + 4 + 12⟩ = (.ok _, ⟨s.data, s.pos + 4 + 12 + 4⟩) :=
      getInt_exec hroom
    rw [deserialize, Coder.exec_bind_ok (hskip s hpos (by omega)), Coder.exec_bind_ok hport, Coder.exec_pure]
    exact ⟨_, by rw [Int.add_assoc, Int.add_assoc]; rfl⟩
  · by_cases hip : s.pos + 4 ≤ dataLen
    · have hroom : ¬ Room 4 dataLen (s.pos + 4 + 12) := by
        rw [room_iff (by omega)]
        omega
      have hport : (getInt32 dataLen).exec ⟨s.data, s.pos + 4 + 12⟩ = (.error (), ⟨s.data, s.pos + 4 + 12⟩) :=
        getInt_exec_short hroom
      rw [deserialize, Coder.exec_bind_ok (hskip s hpos hip), Coder.exec_bind_error hport]
    · have hget : (getInt32 dataLen).exec s = (.error (), s) := getInt_exec_short (by rw [room_iff hpos]; omega)
      have herror : (thenSkip (getInt32 dataLen) 12).exec s = (.error (), ⟨s.data, s.pos + 12⟩) := by
        rw [thenSkip_exec, hget]
        rfl
      rw [deserialize, Coder.exec_bind_error herror]

theorem setAddresses_encodes (as : List Address) :
    Encodes dataLen (setAddresses dataLen as) (as.flatMap Address.footprint) [⟨20 * as.length, false⟩] := by
  have hlength : (as.flatMap Address.footprint).length = 20 * as.length := by
    induction as with
    | nil => rfl
    | cons a as ih =>
      rw [List.flatMap_cons, List.length_append, Address.footprint_length, ih, List.length_cons]
      omega
  refine Encodes.tested (?_ : Encodes _ _ _ (as.map fun _ => ⟨20, false⟩)) ?_ hlength
  · clear hlength
    induction as with
    | nil => exact Encodes.pure dataLen
    | cons a as ih => exact a.serialize_encodes.bind ih
  · intro part hpart
    obtain ⟨-, -, rfl⟩ := List.mem_map.1 hpart
    rfl

theorem getAddresses_consumes (n : ℕ) : Consumes dataLen (getAddresses dataLen n) (20 * n) := by
  induction n with
  | zero => exact Consumes.pure dataLen _
  | succ n ih =>
    rw [show 20 * (n + 1) = 20 + 20 * n by omega]
    exact Address.deserialize_consumes.bind fun a => ih.map _

/-! ## The head of a PUT -/

theorem getInt_then {α : Type} {w n : ℕ} {f : BitVec w → Coder α} {data : ℤ → BitVec 8} {pos : ℤ} (next : ℤ)
    (hpos : 0 ≤ pos) (hfit : pos + n ≤ dataLen) (hnext : pos + n = next) :
    (getInt w n dataLen >>= f).exec ⟨data, pos⟩ = (f (load w n ⟨data, pos⟩)).exec ⟨data, next⟩ := by
  have hexec : (getInt w n dataLen).exec ⟨data, pos⟩ = _ := getInt_exec ((room_iff hpos).2 hfit)
  rw [Coder.exec_bind_ok hexec, hnext]

theorem MessageBase.deserialize_exec (hlen : dataLen < 2 ^ 63) {data : ℤ → BitVec 8} {pos : ℤ} (hpos : 0 ≤ pos)
    (hfit : pos + 16 ≤ dataLen) : (MessageBase.deserialize dataLen).exec ⟨data, pos⟩ =
      (.ok ⟨load 32 4 ⟨data, pos⟩, load 32 4 ⟨data, pos + 4⟩, load 32 4 ⟨data, pos + 8⟩, load 32 4 ⟨data, pos + 12⟩⟩,
        ⟨data, pos + 16⟩) := by
  rw [deserialize, Coder.exec_bind_ok (Coder.exec_get _), if_pos (hasHead_of_le hlen hpos hfit)]
  simp only [getInt32]
  rw [getInt_then (pos + 4) hpos (by omega) (by omega), getInt_then (pos + 8) (by omega) (by omega) (by omega),
    getInt_then (pos + 12) (by omega) (by omega) (by omega), getInt_then (pos + 16) (by omega) (by omega) (by omega),
    Coder.exec_pure]

def ClientPutHead.at (data : ℤ → BitVec 8) (pos : ℤ) : ClientPutHead :=
  ⟨⟨load 32 4 ⟨data, pos⟩, load 32 4 ⟨data, pos + 4⟩, load 32 4 ⟨data, pos + 8⟩, load 32 4 ⟨data, pos + 12⟩⟩,
    load 64 8 ⟨data, pos + 16⟩, load 32 4 ⟨data, pos + 24⟩, load 32 4 ⟨data, pos + 28⟩, load 32 4 ⟨data, pos + 32⟩,
    load 32 4 ⟨data, pos + 36⟩⟩

theorem ClientPut.deserializehead_exec (hlen : dataLen < 2 ^ 63) {data : ℤ → BitVec 8} {pos : ℤ} (hpos : 0 ≤ pos)
    (hfit : pos + 40 ≤ dataLen) :
    (deserializehead dataLen).exec ⟨data, pos⟩ = (.ok (.at data pos), ⟨data, pos + 40⟩) := by
  rw [deserializehead, Coder.exec_bind_ok (MessageBase.deserialize_exec hlen hpos (by omega))]
  simp only [getInt32, getInt64]
  rw [getInt_then (pos + 24) (by omega) (by omega) (by omega), getInt_then (pos + 28) (by omega) (by omega) (by omega),
    getInt_then (pos + 32) (by omega) (by omega) (by omega), getInt_then (pos + 36) (by omega) (by omega) (by omega),
    getInt_then (pos + 40) (by omega) (by omega) (by omega), Coder.exec_pure]
  rfl

theorem ClientPut.deserializehead_consumes (hlen : dataLen < 2 ^ 63) : Consumes dataLen (deserializehead dataLen) 40 := by
  refine (MessageBase.deserialize_consumes hlen).bind (k := 24) fun _ => ?_
  refine (getInt_consumes 64 8).bind (k := 16) fun _ => ?_
  refine (getInt_consumes 32 4).bind (k := 12) fun _ => ?_
  refine (getInt_consumes 32 4).bind (k := 8) fun _ => ?_
  refine (getInt_consumes 32 4).bind (k := 4) fun _ => ?_
  exact (getInt_consumes 32 4).map _

/-- The loop of `deserialize` -/
def ClientPutHead.addresses (dataLen : ℤ) (h : ClientPutHead) : Coder ClientPut := do
  let address ← getAddresses dataLen h.backupDataservernum.toInt.toNat
  pure ⟨h.toMessageBase, h.fileid, h.chunkid, h.start, h.endPos, h.backupDataservernum, address.1, address.2⟩

theorem ClientPutHead.addresses_consumes (h : ClientPutHead) :
    Consumes dataLen (h.addresses dataLen) (20 * h.backupDataservernum.toInt.toNat) :=
  (getAddresses_consumes _).map _

theorem ClientPut.deserialize_eq :
    ClientPut.deserialize dataLen = deserializehead dataLen >>= ClientPutHead.addresses dataLen := by
  simp only [deserialize, deserializehead, ClientPutHead.addresses, bind_assoc, pure_bind]

end Fields

/-! ## Messages -/

section Messages

variable {α : Type}

/-- Where `m` does not fit, `serialize` fails and does not touch what lies behind the buffer, whatever the buffer
holds. -/
def SerializeBounded (T : MessageType α) (m : α) (dataLen pos : ℤ) : Prop :=
  dataLen - pos < T.size m →
    ∀ data, ((T.serialize m dataLen).exec ⟨data, pos⟩).1 = .error () ∧ Within dataLen (T.serialize m dataLen) ⟨data, pos⟩

/-- The same for `deserialize`; `encoding s` is the size of the message that begins at `s`. -/
def DeserializeBounded (T : MessageType α) (encoding : Cursor → ℕ) (this : α) (dataLen : ℤ) (s : Cursor) : Prop :=
  dataLen - s.pos < encoding s →
    ((T.deserialize this dataLen).exec s).1 = .error () ∧ Within dataLen (T.deserialize this dataLen) s

/-- The encoder keeps to its buffer unless that ends inside a loose part, the decoder unless it ends inside
what is left unread. -/
def BoundedUnless (T : MessageType α) (parts : α → List Part) (encoding : Cursor → ℕ) : Prop :=
  ∀ (m this : α) (dataLen pos : ℤ) (data : ℤ → BitVec 8), 0 ≤ pos → pos ≤ dataLen → dataLen < 2 ^ 63 →
    (SerializeBounded T m dataLen pos ↔ ¬ Straddled (parts m) (dataLen - pos)) ∧
    (DeserializeBounded T encoding this dataLen ⟨data, pos⟩ ↔
      ¬ (encoding ⟨data, pos⟩ - T.unread ≤ dataLen - pos ∧ dataLen - pos < encoding ⟨data, pos⟩))

theorem serializeBounded_iff {T : MessageType α} {m : α} {dataLen pos : ℤ} {ps : List (Option (BitVec 8))}
    {parts : List Part} (h : Encodes dataLen (T.serialize m dataLen) ps parts) (hsize : T.size m = totalSize parts)
    (hpos : 0 ≤ pos) (hle : pos ≤ dataLen) :
    SerializeBounded T m dataLen pos ↔ ¬ Straddled parts (dataLen - pos) := by
  rw [← h.fails_within_iff hpos hle, SerializeBounded, hsize, ← h.size, Int.sub_lt_iff, Int.add_comm pos]

theorem deserializeBounded_iff {T : MessageType α} {encoding : Cursor → ℕ} {this : α} {dataLen : ℤ} {s : Cursor}
    (hwithin : Within dataLen (T.deserialize this dataLen) s)
    (herror : ((T.deserialize this dataLen).exec s).1 = .error () ↔ dataLen - s.pos < encoding s - T.unread) :
    DeserializeBounded T encoding this dataLen s ↔
      ¬ (encoding s - T.unread ≤ dataLen - s.pos ∧ dataLen - s.pos < encoding s) := by
  rw [DeserializeBounded, herror]
  constructor
  · intro h hcut
    exact absurd (h hcut.2).1 (by omega)
  · intro h hshort
    exact ⟨by omega, hwithin⟩

theorem BoundedUnless.of_fields {T : MessageType α} (fields : α → List (List (Option (BitVec 8)))) {parts : α → List Part}
    {n : ℕ} (hsize : ∀ m, T.size m = totalSize (parts m))
    (hencodes : ∀ m {dataLen : ℤ}, dataLen < 2 ^ 63 →
      Encodes dataLen (T.serialize m dataLen) (fields m).flatten (parts m))
    (hconsumes : ∀ this {dataLen : ℤ}, dataLen < 2 ^ 63 → Consumes dataLen (T.deserialize this dataLen) n) :
    BoundedUnless T parts fun _ => n + T.unread := by
  intro m this dataLen pos data hpos hle hlen
  refine ⟨serializeBounded_iff (hencodes m hlen) (hsize m) hpos hle, ?_⟩
  refine deserializeBounded_iff ((hconsumes this hlen).within _ hpos hle) ?_
  rw [(hconsumes this hlen).error_iff hpos hle]
  simp only [Int.natCast_add]
  omega

end Messages

def ClientGet.parts (_m : ClientGet) : List Part :=
  [⟨16, false⟩, ⟨8, true⟩, ⟨4, false⟩, ⟨4, false⟩, ⟨4, false⟩]

theorem ClientGet.serialize_encodes (m : ClientGet) {dataLen : ℤ} (hlen : dataLen < 2 ^ 63) :
    Encodes dataLen (m.serialize dataLen) m.fields.flatten m.parts := by
  refine (m.toMessageBase.serialize_encodes hlen).cons ?_
  refine (setInt64_encodes m.fileid).cons ?_
  refine (setInt32_encodes m.chunkid).cons ?_
  refine (setInt32_encodes m.start).cons ?_
  exact (setInt32_encodes m.endPos).last

theorem ClientGet.deserialize_consumes {dataLen : ℤ} (hlen : dataLen < 2 ^ 63) :
    Consumes dataLen (ClientGet.deserialize dataLen) 36 := by
  refine (MessageBase.deserialize_consumes hlen).bind (k := 20) fun _ => ?_
  refine (getInt_consumes 64 8).bind (k := 12) fun _ => ?_
  refine (getInt_consumes 32 4).bind (k := 8) fun _ => ?_
  refine (getInt_consumes 32 4).bind (k := 4) fun _ => ?_
  exact (getInt_consumes 32 4).map _

theorem clientGet_bounded : BoundedUnless clientGet ClientGet.parts fun _ => 36 := by
  refine .of_fields ClientGet.fields (fun _ => rfl) (fun m _ hlen => ?_)
    (fun _ _ hlen => ?_)
  · exact m.serialize_encodes hlen
  · exact ClientGet.deserialize_consumes hlen

def ClientPut.parts (m : ClientPut) : List Part :=
  [⟨16, false⟩, ⟨8, true⟩, ⟨4, false⟩, ⟨4, false⟩, ⟨4, false⟩, ⟨4, false⟩, ⟨20 * m.address.length, false⟩]

theorem ClientPut.serialize_encodes (m : ClientPut) {dataLen : ℤ} (hlen : dataLen < 2 ^ 63) :
    Encodes dataLen (m.serialize dataLen) m.fields.flatten m.parts := by
  refine (m.toMessageBase.serialize_encodes hlen).cons ?_
  refine (setInt64_encodes m.fileid).cons ?_
  refine (setInt32_encodes m.chunkid).cons ?_
  refine (setInt32_encodes m.start).cons ?_
  refine (setInt32_encodes m.endPos).cons ?_
  refine (setInt32_encodes m.backupDataservernum).cons ?_
  exact (setAddresses_encodes m.address).last

/-- The size of the PUT at `s` goes by the number of backups in its head. -/
def ClientPut.encoding (s : Cursor) : ℕ := 40 + 20 * (load 32 4 ⟨s.data, s.pos + 36⟩).toInt.toNat

theorem ClientPut.encoding_eq (data : ℤ → BitVec 8) (pos : ℤ) :
    encoding ⟨data, pos⟩ = 40 + 20 * (ClientPutHead.at data pos).backupDataservernum.toInt.toNat := rfl

section Put

variable {dataLen : ℤ} {data : ℤ → BitVec 8} {pos : ℤ}

theorem ClientPut.deserialize_within (hlen : dataLen < 2 ^ 63) (hpos : 0 ≤ pos) (hle : pos ≤ dataLen) :
    Within dataLen (ClientPut.deserialize dataLen) ⟨data, pos⟩ := by
  rw [deserialize_eq]
  refine ((deserializehead_consumes hlen).within _ hpos hle).bind fun h s hexec => ?_
  by_cases hfit : pos + 40 ≤ dataLen
  · rw [deserializehead_exec hlen hpos hfit] at hexec
    cases hexec
    exact (ClientPutHead.addresses_consumes _).within _ (by simp only; omega) hfit
  · have hfails := (deserializehead_consumes hlen).fails ⟨data, pos⟩ hpos hle (by simp only; omega)
    rw [hexec] at hfails
    cases hfails

theorem ClientPut.deserialize_takes (hlen : dataLen < 2 ^ 63) (hpos : 0 ≤ pos)
    (hfit : pos + encoding ⟨data, pos⟩ ≤ dataLen) :
    ∃ m, (ClientPut.deserialize dataLen).exec ⟨data, pos⟩ = (.ok m, ⟨data, pos + encoding ⟨data, pos⟩⟩) := by
  rw [encoding_eq] at hfit ⊢
  obtain ⟨m, hexec⟩ := (ClientPutHead.at data pos).addresses_consumes.takes ⟨data, pos + 40⟩ (by simp only; omega)
    (show _ ≤ dataLen by simp only; omega)
  refine ⟨m, ?_⟩
  rw [deserialize_eq, Coder.exec_bind_ok (deserializehead_exec hlen hpos (by omega)), hexec, Int.natCast_add,
    ← Int.add_assoc]
  rfl

theorem ClientPut.deserialize_error_iff (hlen : dataLen < 2 ^ 63) (hpos : 0 ≤ pos) (hle : pos ≤ dataLen) :
    ((ClientPut.deserialize dataLen).exec ⟨data, pos⟩).1 = .error () ↔ dataLen - pos < encoding ⟨data, pos⟩ := by
  rw [deserialize_eq, encoding_eq]
  by_cases hfit : pos + 40 ≤ dataLen
  · rw [Coder.exec_bind_ok (deserializehead_exec hlen hpos hfit),
      (ClientPutHead.addresses_consumes _).error_iff (by simp only; omega) hfit]
    simp only
    omega
  · have hfails := (deserializehead_consumes hlen).fails ⟨data, pos⟩ hpos hle (by simp only; omega)
    rw [Coder.exec_bind_error (Prod.ext hfails rfl)]
    refine iff_of_true rfl ?_
    omega

end Put

theorem clientPut_bounded : BoundedUnless clientPut ClientPut.parts ClientPut.encoding := by
  intro m this dataLen pos data hpos hle hlen
  refine ⟨serializeBounded_iff (m.serialize_encodes hlen) ?_ hpos hle, ?_⟩
  · simp [clientPut, ClientPut.parts, totalSize]
    omega
  · refine deserializeBounded_iff (ClientPut.deserialize_within hlen hpos hle) ?_
    exact (ClientPut.deserialize_error_iff hlen hpos hle).trans (by simp [clientPut])

def ClientPutRes.parts (_m : ClientPutRes) : List Part :=
  [⟨16, false⟩, ⟨4, false⟩]

theorem ClientPutRes.serialize_encodes (m : ClientPutRes) {dataLen : ℤ} (hlen : dataLen < 2 ^ 63) :
    Encodes dataLen (m.serialize dataLen) m.fields.flatten m.parts := by
  refine (m.toMessageBase.serialize_encodes hlen).cons ?_
  exact (setInt32_encodes m.retcode).last

theorem ClientPutRes.deserialize_consumes {dataLen : ℤ} (hlen : dataLen < 2 ^ 63) :
    Consumes dataLen (ClientPutRes.deserialize dataLen) 20 := by
  refine (MessageBase.deserialize_consumes hlen).bind (k := 4) fun _ => ?_
  exact (getInt_consumes 32 4).map _

theorem clientPutRes_bounded : BoundedUnless clientPutRes ClientPutRes.parts fun _ => 20 := by
  refine .of_fields ClientPutRes.fields (fun _ => rfl) (fun m _ hlen => ?_)
    (fun _ _ hlen => ?_)
  · exact m.serialize_encodes hlen
  · exact ClientPutRes.deserialize_consumes hlen

def ClientGetRes.parts (m : ClientGetRes) : List Part := m.toClientPutRes.parts

theorem clientGetRes_bounded : BoundedUnless clientGetRes ClientGetRes.parts fun _ => 20 := by
  refine .of_fields (fun m : ClientGetRes => m.toClientPutRes.fields) (fun _ => rfl) (fun m _ hlen => ?_)
    (fun _ _ hlen => ?_)
  · exact m.toClientPutRes.serialize_encodes hlen
  · exact (ClientPutRes.deserialize_consumes hlen).map _

def DsRegister.parts (_m : DsRegister) : List Part :=
  [⟨16, false⟩, ⟨4, false⟩, ⟨4, false⟩, ⟨8, true⟩, ⟨8, true⟩, ⟨4, false⟩, ⟨4, false⟩]

theorem DsRegister.serialize_encodes (m : DsRegister) {dataLen : ℤ} (hlen : dataLen < 2 ^ 63) :
    Encodes dataLen (m.serialize dataLen) (m.fields ++ [field 4 m.endflag]).flatten m.parts := by
  refine (m.toMessageBase.serialize_encodes hlen).cons ?_
  refine (setInt32_encodes m.servicetype).cons ?_
  refine (setInt32_encodes m.dataserverid).cons ?_
  refine (setInt64_encodes m.diskfree).cons ?_
  refine (setInt64_encodes m.diskcapacity).cons ?_
  refine (setInt32_encodes m.port).cons ?_
  exact (setInt32_encodes m.endflag).last

theorem DsRegister.deserialize_consumes (this : DsRegister) {dataLen : ℤ} (hlen : dataLen < 2 ^ 63) :
    Consumes dataLen (this.deserialize dataLen) 44 := by
  refine (MessageBase.deserialize_consumes hlen).bind (k := 28) fun _ => ?_
  refine (getInt_consumes 32 4).bind (k := 24) fun _ => ?_
  refine (getInt_consumes 32 4).bind (k := 20) fun _ => ?_
  refine (getInt_consumes 64 8).bind (k := 12) fun _ => ?_
  refine (getInt_consumes 64 8).bind (k := 4) fun _ => ?_
  exact (getInt_consumes 32 4).map _

theorem dsRegister_bounded : BoundedUnless dsRegister DsRegister.parts fun _ => 48 := by
  refine .of_fields (fun m : DsRegister => m.fields ++ [field 4 m.endflag]) (fun _ => rfl) (fun m _ hlen => ?_)
    (fun this _ hlen => ?_)
  · exact m.serialize_encodes hlen
  · exact this.deserialize_consumes hlen

def DsRegisterRes.parts (_m : DsRegisterRes) : List Part :=
  [⟨16, false⟩, ⟨4, false⟩, ⟨4, false⟩, ⟨4, false⟩]

theorem DsRegisterRes.serialize_encodes (m : DsRegisterRes) {dataLen : ℤ} (hlen : dataLen < 2 ^ 63) :
    Encodes dataLen (m.serialize dataLen) (m.fields ++ [field 4 m.endflag]).flatten m.parts := by
  refine (m.toMessageBase.serialize_encodes hlen).cons ?_
  refine (setInt32_encodes m.retcode).cons ?_
  refine (setInt32_encodes m.blocksize).cons ?_
  exact (setInt32_encodes m.endflag).last

theorem DsRegisterRes.deserialize_consumes (this : DsRegisterRes) {dataLen : ℤ} (hlen : dataLen < 2 ^ 63) :
    Consumes dataLen (this.deserialize dataLen) 24 := by
  refine (MessageBase.deserialize_consumes hlen).bind (k := 8) fun _ => ?_
  refine (getInt_consumes 32 4).bind (k := 4) fun _ => ?_
  exact (getInt_consumes 32 4).map _

theorem dsRegisterRes_bounded : BoundedUnless dsRegisterRes DsRegisterRes.parts fun _ => 28 := by
  refine .of_fields (fun m : DsRegisterRes => m.fields ++ [field 4 m.endflag]) (fun _ => rfl) (fun m _ hlen => ?_)
    (fun this _ hlen => ?_)
  · exact m.serialize_encodes hlen
  · exact this.deserialize_consumes hlen

def DeleteCommand.parts (_m : DeleteCommand) : List Part :=
  [⟨16, false⟩, ⟨8, true⟩, ⟨4, false⟩, ⟨4, false⟩]

theorem DeleteCommand.serialize_encodes (m : DeleteCommand) {dataLen : ℤ} (hlen : dataLen < 2 ^ 63) :
    Encodes dataLen (m.serialize dataLen) (m.fields ++ [field 4 m.endflag]).flatten m.parts := by
  refine (m.toMessageBase.serialize_encodes hlen).cons ?_
  refine (setInt64_encodes m.fileid).cons ?_
  refine (setInt32_encodes m.chunkid).cons ?_
  exact (setInt32_encodes m.endflag).last

theorem DeleteCommand.deserialize_consumes (this : DeleteCommand) {dataLen : ℤ} (hlen : dataLen < 2 ^ 63) :
    Consumes dataLen (this.deserialize dataLen) 28 := by
  refine (MessageBase.deserialize_consumes hlen).bind (k := 12) fun _ => ?_
  refine (getInt_consumes 64 8).bind (k := 4) fun _ => ?_
  exact (getInt_consumes 32 4).map _

theorem deleteCommand_bounded : BoundedUnless deleteCommand DeleteCommand.parts fun _ => 32 := by
  refine .of_fields (fun m : DeleteCommand => m.fields ++ [field 4 m.endflag]) (fun _ => rfl) (fun m _ hlen => ?_)
    (fun this _ hlen => ?_)
  · exact m.serialize_encodes hlen
  · exact this.deserialize_consumes hlen

def DeleteCommandRes.parts (_m : DeleteCommandRes) : List Part :=
  [⟨16, false⟩, ⟨8, true⟩, ⟨4, false⟩, ⟨8, true⟩, ⟨4, false⟩]

theorem DeleteCommandRes.serialize_encodes (m : DeleteCommandRes) {dataLen : ℤ} (hlen : dataLen < 2 ^ 63) :
    Encodes dataLen (m.serialize dataLen) (m.fields ++ [field 4 m.endflag]).flatten m.parts := by
  refine (m.toMessageBase.serialize_encodes hlen).cons ?_
  refine (setInt64_encodes m.fileid).cons ?_
  refine (setInt32_encodes m.chunkid).cons ?_
  refine (setInt64_encodes m.diskfree).cons ?_
  exact (setInt32_encodes m.endflag).last

theorem DeleteCommandRes.deserialize_consumes (this : DeleteCommandRes) {dataLen : ℤ} (hlen : dataLen < 2 ^ 63) :
    Consumes dataLen (this.deserialize dataLen) 36 := by
  refine (MessageBase.deserialize_consumes hlen).bind (k := 20) fun _ => ?_
  refine (getInt_consumes 64 8).bind (k := 12) fun _ => ?_
  refine (getInt_consumes 32 4).bind (k := 8) fun _ => ?_
  exact (getInt_consumes 64 8).map _

theorem deleteCommandRes_bounded : BoundedUnless deleteCommandRes DeleteCommandRes.parts fun _ => 40 := by
  refine .of_fields (fun m : DeleteCommandRes => m.fields ++ [field 4 m.endflag]) (fun _ => rfl) (fun m _ hlen => ?_)
    (fun this _ hlen => ?_)
  · exact m.serialize_encodes hlen
  · exact this.deserialize_consumes hlen

def BackupCommand.parts (_m : BackupCommand) : List Part :=
  [⟨16, false⟩, ⟨8, true⟩, ⟨4, false⟩, ⟨20, false⟩, ⟨20, false⟩, ⟨4, false⟩]

theorem BackupCommand.serialize_encodes (m : BackupCommand) {dataLen : ℤ} (hlen : dataLen < 2 ^ 63) :
    Encodes dataLen (m.serialize dataLen) (m.fields ++ [field 4 m.endflag]).flatten m.parts := by
  refine (m.toMessageBase.serialize_encodes hlen).cons ?_
  refine (setInt64_encodes m.fileid).cons ?_
  refine (setInt32_encodes m.chunkid).cons ?_
  refine m.srcAddress.serialize_encodes.cons ?_
  refine m.dstAddress.serialize_encodes.cons ?_
  exact (setInt32_encodes m.endflag).last

theorem BackupCommand.deserialize_consumes (this : BackupCommand) {dataLen : ℤ} (hlen : dataLen < 2 ^ 63) :
    Consumes dataLen (this.deserialize dataLen) 68 := by
  refine (MessageBase.deserialize_consumes hlen).bind (k := 52) fun _ => ?_
  refine (getInt_consumes 64 8).bind (k := 44) fun _ => ?_
  refine (getInt_consumes 32 4).bind (k := 40) fun _ => ?_
  refine Address.deserialize_consumes.bind (k := 20) fun _ => ?_
  exact Address.deserialize_consumes.map _

theorem backupCommand_bounded : BoundedUnless backupCommand BackupCommand.parts fun _ => 72 := by
  refine .of_fields (fun m : BackupCommand => m.fields ++ [field 4 m.endflag]) (fun _ => rfl) (fun m _ hlen => ?_)
    (fun this _ hlen => ?_)
  · exact m.serialize_encodes hlen
  · exact this.deserialize_consumes hlen

def BackupCommandRes.parts (_m : BackupCommandRes) : List Part :=
  [⟨16, false⟩, ⟨4, false⟩, ⟨8, true⟩, ⟨4, false⟩, ⟨8, true⟩, ⟨4, false⟩]

theorem BackupCommandRes.serialize_encodes (m : BackupCommandRes) {dataLen : ℤ} (hlen : dataLen < 2 ^ 63) :
    Encodes dataLen (m.serialize dataLen) (m.fields ++ [field 4 m.endflag]).flatten m.parts := by
  refine (m.toMessageBase.serialize_encodes hlen).cons ?_
  refine (setInt32_encodes m.dataserverid).cons ?_
  refine (setInt64_encodes m.fileid).cons ?_
  refine (setInt32_encodes m.chunkid).cons ?_
  refine (setInt64_encodes m.diskfree).cons ?_
  exact (setInt32_encodes m.endflag).last

theorem BackupCommandRes.deserialize_consumes (this : BackupCommandRes) {dataLen : ℤ} (hlen : dataLen < 2 ^ 63) :
    Consumes dataLen (this.deserialize dataLen) 40 := by
  refine (MessageBase.deserialize_consumes hlen).bind (k := 24) fun _ => ?_
  refine (getInt_consumes 32 4).bind (k := 20) fun _ => ?_
  refine (getInt_consumes 64 8).bind (k := 12) fun _ => ?_
  refine (getInt_consumes 32 4).bind (k := 8) fun _ => ?_
  exact (getInt_consumes 64 8).map _

theorem backupCommandRes_bounded : BoundedUnless backupCommandRes BackupCommandRes.parts fun _ => 44 := by
  refine .of_fields (fun m : BackupCommandRes => m.fields ++ [field 4 m.endflag]) (fun _ => rfl) (fun m _ hlen => ?_)
    (fun this _ hlen => ?_)
  · exact m.serialize_encodes hlen
  · exact this.deserialize_consumes hlen

def DsHeartBeat.parts (_m : DsHeartBeat) : List Part :=
  [⟨16, false⟩, ⟨4, false⟩, ⟨4, false⟩, ⟨4, false⟩]

theorem DsHeartBeat.serialize_encodes (m : DsHeartBeat) {dataLen : ℤ} (hlen : dataLen < 2 ^ 63) :
    Encodes dataLen (m.serialize dataLen) (m.fields ++ [field 4 m.endflag]).flatten m.parts := by
  refine (m.toMessageBase.serialize_encodes hlen).cons ?_
  refine (setInt32_encodes m.servicetype).cons ?_
  refine (setInt32_encodes m.loadweight).cons ?_
  exact (setInt32_encodes m.endflag).last

theorem DsHeartBeat.deserialize_consumes (this : DsHeartBeat) {dataLen : ℤ} (hlen : dataLen < 2 ^ 63) :
    Consumes dataLen (this.deserialize dataLen) 24 := by
  refine (MessageBase.deserialize_consumes hlen).bind (k := 8) fun _ => ?_
  refine (getInt_consumes 32 4).bind (k := 4) fun _ => ?_
  exact (getInt_consumes 32 4).map _

theorem dsHeartBeat_bounded : BoundedUnless dsHeartBeat DsHeartBeat.parts fun _ => 28 := by
  refine .of_fields (fun m : DsHeartBeat => m.fields ++ [field 4 m.endflag]) (fun _ => rfl) (fun m _ hlen => ?_)
    (fun this _ hlen => ?_)
  · exact m.serialize_encodes hlen
  · exact this.deserialize_consumes hlen

def DsPush.parts (_m : DsPush) : List Part :=
  [⟨16, false⟩, ⟨8, true⟩, ⟨4, false⟩, ⟨4, false⟩]

theorem DsPush.serialize_encodes (m : DsPush) {dataLen : ℤ} (hlen : dataLen < 2 ^ 63) :
    Encodes dataLen (m.serialize dataLen) m.fields.flatten m.parts := by
  refine (m.toMessageBase.serialize_encodes hlen).cons ?_
  refine (setInt64_encodes m.fileid).cons ?_
  refine (setInt32_encodes m.chunkid).cons ?_
  exact (setInt32_encodes m.blocksize).last

theorem DsPush.deserialize_consumes {dataLen : ℤ} (hlen : dataLen < 2 ^ 63) :
    Consumes dataLen (DsPush.deserialize dataLen) 32 := by
  refine (MessageBase.deserialize_consumes hlen).bind (k := 16) fun _ => ?_
  refine (getInt_consumes 64 8).bind (k := 8) fun _ => ?_
  refine (getInt_consumes 32 4).bind (k := 4) fun _ => ?_
  exact (getInt_consumes 32 4).map _

theorem dsPush_bounded : BoundedUnless dsPush DsPush.parts fun _ => 32 := by
  refine .of_fields DsPush.fields (fun _ => rfl) (fun m _ hlen => ?_)
    (fun _ _ hlen => ?_)
  · exact m.serialize_encodes hlen
  · exact DsPush.deserialize_consumes hlen

def DsPushRes.parts (_m : DsPushRes) : List Part :=
  [⟨16, false⟩, ⟨4, false⟩]

theorem DsPushRes.serialize_encodes (m : DsPushRes) {dataLen : ℤ} (hlen : dataLen < 2 ^ 63) :
    Encodes dataLen (m.serialize dataLen) m.fields.flatten m.parts := by
  refine (m.toMessageBase.serialize_encodes hlen).cons ?_
  exact (setInt32_encodes m.retcode).last

theorem DsPushRes.deserialize_consumes {dataLen : ℤ} (hlen : dataLen < 2 ^ 63) :
    Consumes dataLen (DsPushRes.deserialize dataLen) 20 := by
  refine (MessageBase.deserialize_consumes hlen).bind (k := 4) fun _ => ?_
  exact (getInt_consumes 32 4).map _

theorem dsPushRes_bounded : BoundedUnless dsPushRes DsPushRes.parts fun _ => 20 := by
  refine .of_fields DsPushRes.fields (fun _ => rfl) (fun m _ hlen => ?_)
    (fun _ _ hlen => ?_)
  · exact m.serialize_encodes hlen
  · exact DsPushRes.deserialize_consumes hlen

end Tefs.Message
