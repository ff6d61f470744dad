import Tefs.Message.Bounds

/-! # Every operation and every message at the end of its buffer

`Respects` is what an operation should do: fail without a trace where it does not fit, and never look or
write behind the buffer. `Op.Kept` is when it does.
-/

namespace Tefs.Message
open Wire
set_option autoImplicit false

/-- The operations of `Serialization`, with their arguments -/
inductive Op : Type → Type
  | getInt8 : Op (BitVec 8)
  | getInt16 : Op (BitVec 16)
  | getInt32 : Op (BitVec 32)
  | getInt64 : Op (BitVec 64)
  | getBytes (bufLength : ℤ) : Op (List (BitVec 8))
  | getString (strBufLength : ℤ) : Op (List (BitVec 8) × ℤ)
  | getVint8 : Op (List (BitVec 8))
  | getVint16 : Op (List (BitVec 16))
  | getVint32 : Op (List (BitVec 32))
  | getVint64 : Op (List (BitVec 64))
  | setInt8 (value : BitVec 8) : Op Unit
  | setInt16 (value : BitVec 16) : Op Unit
  | setInt32 (value : BitVec 32) : Op Unit
  | setInt64 (value : BitVec 64) : Op Unit
  | setString (str : Option (List (BitVec 8))) : Op Unit
  | setBytes (buf : ℤ → BitVec 8) (bufLength : ℤ) : Op Unit

def Op.run {α : Type} (dataLen : ℤ) : Op α → Coder α
  | getInt8 => Message.getInt8 dataLen
  | getInt16 => Message.getInt16 dataLen
  | getInt32 => Message.getInt32 dataLen
  | getInt64 => Message.getInt64 dataLen
  | getBytes bufLength => Message.getBytes dataLen bufLength
  | getString strBufLength => Message.getString dataLen strBufLength
  | getVint8 => Message.getVint8 dataLen
  | getVint16 => Message.getVint16 dataLen
  | getVint32 => Message.getVint32 dataLen
  | getVint64 => Message.getVint64 dataLen
  | setInt8 value => Message.setInt8 dataLen value
  | setInt16 value => Message.setInt16 dataLen value
  | setInt32 value => Message.setInt32 dataLen value
  | setInt64 value => Message.setInt64 dataLen value
  | setString str => Message.setString dataLen str
  | setBytes buf bufLength => Message.setBytes dataLen buf bufLength

/-- A length and as many values of `n` bytes, or none if the length is negative -/
def listSize (n : ℕ) (s : Cursor) : ℤ := 4 + n * (load 32 4 s).toInt.toNat

/-- The size of what is written, or of what lies at `s` -/
def Op.size {α : Type} (s : Cursor) : Op α → ℤ
  | getInt8 => 1
  | getInt16 => 2
  | getInt32 => 4
  | getInt64 => 8
  | getBytes bufLength => bufLength
  | getString _ => listSize 1 s
  | getVint8 => listSize 1 s
  | getVint16 => listSize 2 s
  | getVint32 => listSize 4 s
  | getVint64 => listSize 8 s
  | setInt8 _ => 1
  | setInt16 _ => 2
  | setInt32 _ => 4
  | setInt64 _ => 8
  | setString str => 4 + stringLength str
  | setBytes _ bufLength => bufLength

structure Respects {α : Type} (op : Op α) (dataLen : ℤ) (s : Cursor) : Prop where
  fails : dataLen - s.pos < op.size s → (op.run dataLen).exec s = (.error (), s)
  within : Within dataLen (op.run dataLen) s

/-- The length is in the buffer, but not all that it announces. -/
def Announced (n : ℕ) (dataLen : ℤ) (s : Cursor) : Prop :=
  4 ≤ dataLen - s.pos ∧ dataLen - s.pos < listSize n s

def Op.Kept {α : Type} (dataLen : ℤ) (s : Cursor) : Op α → Prop
  | getString strBufLength => strBufLength ≤ 0 ∨ ¬ Announced 1 dataLen s
  | getVint8 => ¬ Announced 1 dataLen s
  | getVint16 => ¬ Announced 2 dataLen s
  | getVint32 => ¬ Announced 4 dataLen s
  | getVint64 => ¬ Announced 8 dataLen s
  | setInt64 _ => 8 ≤ dataLen - s.pos
  | _ => True

variable {dataLen : ℤ} {s : Cursor}

/-! ## Integers and bytes -/

theorem getInt_fails {w n : ℕ} (h : dataLen - s.pos < n) : (getInt w n dataLen).exec s = (.error (), s) :=
  getInt_exec_short fun hroom => absurd hroom.1 (by omega)

theorem setInt_fails {w n : ℕ} {value : BitVec w} (h : dataLen - s.pos < n) :
    (setInt n dataLen value).exec s = (.error (), s) :=
  setInt_exec_short value fun hroom => absurd hroom.1 (by omega)

theorem getBytes_fails {bufLength : ℤ} (h : dataLen - s.pos < bufLength) :
    (getBytes dataLen bufLength).exec s = (.error (), s) := by
  rw [getBytes, Coder.exec_bind_ok (Coder.exec_get s), if_neg (by omega)]
  rfl

theorem getBytes_within (bufLength : ℤ) : Within dataLen (getBytes dataLen bufLength) s := by
  refine Within.choose (fun pos => bufLength > 0 ∧ dataLen - pos ≥ bufLength ∧ pos ≥ 0) (fun h => ?_)
    (fun _ => (Within.throw dataLen s).const)
  exact Within.load bufLength.toNat id bufLength (by omega)

theorem setBytes_fails {buf : ℤ → BitVec 8} {bufLength : ℤ} (h : dataLen - s.pos < bufLength) :
    (setBytes dataLen buf bufLength).exec s = (.error (), s) := by
  rw [setBytes, Coder.exec_bind_ok (Coder.exec_get s), if_neg (by omega)]
  rfl

theorem setBytes_within (buf : ℤ → BitVec 8) (bufLength : ℤ) : Within dataLen (setBytes dataLen buf bufLength) s := by
  refine Within.choose (fun pos => bufLength > 0 ∧ dataLen - pos ≥ bufLength ∧ pos ≥ 0) (fun h => ?_)
    (fun _ => (Within.throw dataLen s).const)
  exact Within.store ((bytesAt buf 0 bufLength.toNat).map some) bufLength
    (by rw [List.length_map, bytesAt_length]; omega)

theorem setInt64_within (value : BitVec 64) (hpos : 0 ≤ s.pos) (h : 8 ≤ dataLen - s.pos) :
    Within dataLen (setInt64 dataLen value) s := by
  have hfit : s.pos + (field 8 value).length ≤ dataLen := by
    rw [field_length]
    omega
  refine (Within.store (field 8 value) (field 8 value).length hfit).of_exec fun data => ?_
  exact setInt64_writes value ⟨data, s.pos⟩ hpos hfit

/-! ## Strings -/

theorem setString_fails {str : Option (List (BitVec 8))} (h : dataLen - s.pos < 4 + stringLength str) :
    (setString dataLen str).exec s = (.error (), s) := by
  rw [setString, Coder.exec_bind_ok (Coder.exec_get s)]
  split
  · rw [if_neg (by omega)]
    rfl
  · rfl

theorem stringLength_eq {str : Option (List (BitVec 8))} (h : stringLength str > 0) :
    stringLength str = ((str.getD [] ++ [0]).map some).length := by
  rw [List.length_map, List.length_append]
  cases str with
  | none => cases h
  | some bs =>
    rw [stringLength] at h ⊢
    split at h
    · cases h
    · rw [if_neg ‹_›]
      rfl

theorem setString_within (str : Option (List (BitVec 8))) : Within dataLen (setString dataLen str) s := by
  refine Within.choose (fun pos => pos < dataLen ∧ pos ≥ 0) (fun hin => ?_) (fun _ => (Within.throw dataLen s).const)
  refine Within.choose (fun pos => dataLen - pos ≥ stringLength str + 4) (fun hfit => ?_)
    (fun _ => (Within.throw dataLen s).const)
  refine Within.const (Within.bind (setInt_within _ s) fun _ s' hexec => ?_)
  have hset : (setInt32 dataLen (BitVec.ofNat 32 (stringLength str))).exec s = (.ok (), ⟨_, s.pos + 4⟩) :=
    setInt32_writes _ s hin.2 (by rw [field_length]; omega)
  have hpos : s'.pos = s.pos + 4 := congrArg (fun r => r.2.pos) (hexec.symm.trans hset)
  split
  · rename_i hlength
    exact Within.store _ _ (by rw [← stringLength_eq hlength]; omega)
  · exact Within.pure dataLen _ s'

/-- Behind the length the position has moved, whatever comes then. -/
theorem getInt32_then {α : Type} {f : BitVec 32 → Coder α} (hpos : 0 ≤ s.pos) (hword : 4 ≤ dataLen - s.pos) :
    (getInt32 dataLen >>= f).exec s = (f (load 32 4 s)).exec ⟨s.data, s.pos + 4⟩ :=
  getInt_then (s.pos + 4) hpos (by omega) rfl

theorem getString_within (strBufLength : ℤ) : Within dataLen (getString dataLen strBufLength) s := by
  refine Within.choose (fun pos => Room 4 dataLen pos ∧ strBufLength > 0) (fun hin => ?_)
    (fun _ => (Within.throw dataLen s).const)
  refine Within.const (Within.bind (getInt_within 32 4 s) fun length s' _ => ?_)
  split
  · refine Within.choose (fun pos => length.toInt ≤ strBufLength ∧ dataLen - pos ≥ length.toInt) (fun hfit => ?_)
      (fun _ => (Within.throw dataLen s').const)
    exact Within.load length.toInt.toNat (fun bs => (bs, length.toInt - 1)) length.toInt (by omega)
  · exact Within.pure dataLen _ s'

theorem getString_fails {strBufLength : ℤ} (hkept : strBufLength ≤ 0 ∨ ¬ Announced 1 dataLen s)
    (h : dataLen - s.pos < listSize 1 s) : (getString dataLen strBufLength).exec s = (.error (), s) := by
  rw [getString, Coder.exec_bind_ok (Coder.exec_get s), if_neg]
  · rfl
  · intro ⟨hroom, hbuf⟩
    obtain hneg | hnot := hkept
    · omega
    · exact hnot ⟨hroom.1, h⟩

theorem getString_moves {strBufLength : ℤ} (hpos : 0 ≤ s.pos) (hbuf : 0 < strBufLength)
    (h : Announced 1 dataLen s) : ((getString dataLen strBufLength).exec s).2.pos = s.pos + 4 := by
  have hlength : (load 32 4 s).toInt > 0 := by
    have := h.1
    have := h.2
    rw [listSize] at this
    omega
  rw [getString, Coder.exec_bind_ok (Coder.exec_get s), if_pos ⟨⟨h.1, hpos⟩, hbuf⟩, getInt32_then hpos h.1, if_pos hlength,
    Coder.exec_bind_ok (Coder.exec_get _), if_neg]
  · rfl
  · intro hfit
    have := h.2
    rw [listSize] at this
    have := hfit.2
    simp only at this
    omega

/-! ## Lists -/

theorem getValues_within (w n length : ℕ) : Within dataLen (getValues w n dataLen length) s := by
  induction length generalizing s with
  | zero => exact Within.pure dataLen _ s
  | succ length ih =>
    refine (getInt_within w n s).bind fun tmp s' _ => ?_
    exact ih.bind fun value s'' _ => Within.pure dataLen _ s''

theorem getVint_within (w n : ℕ) : Within dataLen (getVint w n dataLen) s := by
  refine Within.choose (Room 4 dataLen) (fun _ => ?_) (fun _ => (Within.throw dataLen s).const)
  refine Within.const (Within.bind (getInt_within 32 4 s) fun length s' _ => ?_)
  split
  · exact Within.choose (fun pos => dataLen - pos ≥ (length * BitVec.ofNat 32 n).toInt)
      (fun _ => (getValues_within w n _).const) (fun _ => (Within.throw dataLen s').const)
  · exact Within.pure dataLen _ s'

theorem getVint_fails {w n : ℕ} (hkept : ¬ Announced n dataLen s) (h : dataLen - s.pos < listSize n s) :
    (getVint w n dataLen).exec s = (.error (), s) := by
  rw [getVint, Coder.exec_bind_ok (Coder.exec_get s), if_neg fun hroom => hkept ⟨hroom.1, h⟩]
  rfl

theorem getValues_forward (w n length : ℕ) : s.pos ≤ ((getValues w n dataLen length).exec s).2.pos := by
  induction length generalizing s with
  | zero => exact Int.le_refl _
  | succ length ih =>
    rw [getValues]
    by_cases hroom : Room n dataLen s.pos
    · rw [Coder.exec_bind_ok (getInt_exec hroom)]
      have hnext := ih (s := ⟨s.data, s.pos + n⟩)
      simp only at hnext
      cases hexec : (getValues w n dataLen length).exec ⟨s.data, s.pos + n⟩ with
      | mk r t =>
        rw [hexec] at hnext
        cases r with
        | error e =>
          rw [Coder.exec_bind_error hexec]
          simp only at hnext ⊢
          omega
        | ok value =>
          rw [Coder.exec_bind_ok hexec, Coder.exec_pure]
          simp only at hnext ⊢
          omega
    · rw [Coder.exec_bind_error (getInt_exec_short hroom)]

theorem getVint_moves {w n : ℕ} (hpos : 0 ≤ s.pos) (h : Announced n dataLen s) :
    s.pos + 4 ≤ ((getVint w n dataLen).exec s).2.pos := by
  rw [getVint, Coder.exec_bind_ok (Coder.exec_get s), if_pos ⟨h.1, hpos⟩, getInt32_then hpos h.1]
  split
  · rw [Coder.exec_bind_ok (Coder.exec_get _)]
    split
    · exact getValues_forward w n _
    · exact Int.le_refl _
  · exact Int.le_refl _

/-! ## All of them -/

/-- An operation that moved has not failed without a trace. -/
theorem not_respects_of_moves {α : Type} (op : Op α) (hshort : dataLen - s.pos < op.size s)
    (hmoves : s.pos < ((op.run dataLen).exec s).2.pos) : ¬ Respects op dataLen s := by
  intro h
  rw [h.fails hshort] at hmoves
  exact absurd hmoves (Int.lt_irrefl _)

theorem respects_iff_not_announced {w n : ℕ} {op : Op (List (BitVec w))} (hrun : op.run dataLen = getVint w n dataLen)
    (hsize : op.size s = listSize n s) (hpos : 0 ≤ s.pos) : Respects op dataLen s ↔ ¬ Announced n dataLen s := by
  constructor
  · intro h hcut
    have hmoves := getVint_moves (w := w) hpos hcut
    rw [← hrun] at hmoves
    exact not_respects_of_moves op (by rw [hsize]; exact hcut.2) (by omega) h
  · intro hkept
    refine ⟨fun hshort => ?_, ?_⟩
    · rw [hrun]
      exact getVint_fails hkept (by rwa [hsize] at hshort)
    · rw [hrun]
      exact getVint_within w n

theorem getString_respects_iff (strBufLength : ℤ) (hpos : 0 ≤ s.pos) :
    Respects (.getString strBufLength) dataLen s ↔ strBufLength ≤ 0 ∨ ¬ Announced 1 dataLen s := by
  constructor
  · intro h
    by_contra hcut
    obtain ⟨hbuf, hcut⟩ := not_or.1 hcut
    have hmoves := getString_moves hpos (Int.not_le.1 hbuf) (not_not.1 hcut)
    exact not_respects_of_moves (.getString strBufLength) (not_not.1 hcut).2 (by simp only [Op.run]; omega) h
  · intro hkept
    exact ⟨getString_fails hkept, getString_within strBufLength⟩

theorem setInt64_respects_iff (value : BitVec 64) (hpos : 0 ≤ s.pos) :
    Respects (.setInt64 value) dataLen s ↔ 8 ≤ dataLen - s.pos := by
  constructor
  · intro h
    by_contra hfit
    have hexec : (setInt64 dataLen value).exec s = (.error (), store 8 value s) :=
      setInt64_exec_short value (by rw [room_iff hpos]; omega)
    refine not_respects_of_moves (.setInt64 value) (by simp only [Op.size]; omega) ?_ h
    rw [Op.run, hexec, store]
    simp only
    omega
  · intro hfit
    exact ⟨fun hshort => absurd hshort (by simp only [Op.size]; omega), setInt64_within value hpos hfit⟩

theorem respects_iff_kept {α : Type} (op : Op α) (hpos : 0 ≤ s.pos) : Respects op dataLen s ↔ op.Kept dataLen s := by
  cases op with
  | getInt8 => exact iff_of_true ⟨getInt_fails, getInt_within 8 1 s⟩ trivial
  | getInt16 => exact iff_of_true ⟨getInt_fails, getInt_within 16 2 s⟩ trivial
  | getInt32 => exact iff_of_true ⟨getInt_fails, getInt_within 32 4 s⟩ trivial
  | getInt64 => exact iff_of_true ⟨getInt_fails, getInt_within 64 8 s⟩ trivial
  | getBytes bufLength => exact iff_of_true ⟨getBytes_fails, getBytes_within bufLength⟩ trivial
  | setInt8 value => exact iff_of_true ⟨setInt_fails, setInt_within value s⟩ trivial
  | setInt16 value => exact iff_of_true ⟨setInt_fails, setInt_within value s⟩ trivial
  | setInt32 value => exact iff_of_true ⟨setInt_fails, setInt_within value s⟩ trivial
  | setBytes buf bufLength => exact iff_of_true ⟨setBytes_fails, setBytes_within buf bufLength⟩ trivial
  | setString str => exact iff_of_true ⟨setString_fails, setString_within str⟩ trivial
  | getVint8 => exact respects_iff_not_announced rfl rfl hpos
  | getVint16 => exact respects_iff_not_announced rfl rfl hpos
  | getVint32 => exact respects_iff_not_announced rfl rfl hpos
  | getVint64 => exact respects_iff_not_announced rfl rfl hpos
  | getString strBufLength => exact getString_respects_iff strBufLength hpos
  | setInt64 value => exact setInt64_respects_iff value hpos

/-- The operations respect their buffer exactly if the wide store fits and no list or string is announced that is
not there; the messages, if the buffer ends neither in a wide store nor in an `endflag` that is not read. -/
theorem serialization_respects_iff (dataLen : ℤ) (s : Cursor) (hpos : 0 ≤ s.pos) :
    (∀ {α : Type} (op : Op α), Respects op dataLen s ↔ op.Kept dataLen s) ∧
    BoundedUnless clientPut ClientPut.parts ClientPut.encoding ∧
    BoundedUnless clientGet ClientGet.parts (fun _ => 36) ∧
    BoundedUnless clientPutRes ClientPutRes.parts (fun _ => 20) ∧
    BoundedUnless clientGetRes ClientGetRes.parts (fun _ => 20) ∧
    BoundedUnless dsRegister DsRegister.parts (fun _ => 48) ∧
    BoundedUnless dsRegisterRes DsRegisterRes.parts (fun _ => 28) ∧
    BoundedUnless deleteCommand DeleteCommand.parts (fun _ => 32) ∧
    BoundedUnless deleteCommandRes DeleteCommandRes.parts (fun _ => 40) ∧
    BoundedUnless backupCommand BackupCommand.parts (fun _ => 72) ∧
    BoundedUnless backupCommandRes BackupCommandRes.parts (fun _ => 44) ∧
    BoundedUnless dsHeartBeat DsHeartBeat.parts (fun _ => 28) ∧
    BoundedUnless dsPush DsPush.parts (fun _ => 32) ∧
    BoundedUnless dsPushRes DsPushRes.parts (fun _ => 20) :=
  ⟨fun op => respects_iff_kept op hpos, clientPut_bounded, clientGet_bounded, clientPutRes_bounded, clientGetRes_bounded,
    dsRegister_bounded, dsRegisterRes_bounded, deleteCommand_bounded, deleteCommandRes_bounded, backupCommand_bounded,
    backupCommandRes_bounded, dsHeartBeat_bounded, dsPush_bounded, dsPushRes_bounded⟩

theorem serialization_respects_at_the_end :
    Respects (.setInt64 1) 8 ⟨fun _ => 0, 0⟩ ∧ ¬ Respects (.setInt64 1) 8 ⟨fun _ => 0, 4⟩ :=
  ⟨((serialization_respects_iff 8 ⟨fun _ => 0, 0⟩ (by decide)).1 (.setInt64 1)).2 (show (8 : ℤ) ≤ 8 - 0 by decide),
    fun h => absurd (((serialization_respects_iff 8 ⟨fun _ => 0, 4⟩ (by decide)).1 (.setInt64 1)).1 h)
      (show ¬ (8 : ℤ) ≤ 8 - 4 by decide)⟩

/-- Four bytes are left: `set_int64` says so, after it has written eight. -/
theorem setInt64_overruns :
    ((setInt64 4 1).exec ⟨fun _ => 0, 0⟩).1 = .error () ∧ ((setInt64 4 1).exec ⟨fun _ => 0, 0⟩).2.pos = 8 ∧
    ((setInt64 4 1).exec ⟨fun _ => 0, 0⟩).2.data 7 = 1 ∧ ¬ Respects (.setInt64 1) 4 ⟨fun _ => 0, 0⟩ := by
  have hexec : (setInt64 4 1).exec ⟨fun _ => 0, 0⟩ = (.error (), store 8 1 ⟨fun _ => 0, 0⟩) :=
    setInt64_exec_short 1 (by decide)
  rw [hexec, setInt64_respects_iff 1 (by decide)]
  exact ⟨rfl, rfl, by decide, by decide⟩

end Tefs.Message
