import Tefs.DataServer.ClientPut
import Tefs.Lib.Runs
import Tefs.Message.Bounds

/-! # A client's session with the data server

Source: `src/DSTCPSession.{h,cpp}`, `MessageTransaction` of `src/DSMessageProcess.cpp`, `Socket::Read` of
`CommonUtilitiesLib/Socket.cpp`.

What a client sends is collected in `fRecvBuffer` until as many bytes have come as the first four of them
say. `MessageTransaction` makes a task of them then, whatever the decoders return; the session is over after
it. How `malloc` and the disk answer is an input.
-/

namespace Tefs.DataServer.ClientSession
open Wire Message Runs
set_option autoImplicit false

def kReqBufSize : ℕ := 1024

/-! ## MessageTransaction -/

/-- `malloc`: whether it finds a block of that size. It finds none above `PTRDIFF_MAX`. -/
structure Allocator where
  gives : ℕ → Bool
  bounded : ∀ size, 2 ^ 63 ≤ size → gives size = false

/-- `sizeof(struct ClientPut)` -/
def clientPutSize : ℤ := 40

def addressSize : ℤ := 8

/-- `sizeof(struct ClientGet)`, which is a multiple of eight -/
def clientGetSize : ℕ := 40

/-- The kinds of tasks: `DSClientPutTask`, `DSClientGetTask`, `DSPutTask` and `DSPushTask` -/
inductive TaskKind
  | clientPut
  | clientGet
  | put
  | push
  deriving DecidableEq, Repr

/-- A task as it is made. `decoded` says whether the request's decoder succeeded, `pos` is where it stopped and
`currentdatalen` what the task is given of the bytes behind that. `allocated` is the size of the block for
the request, `stored` how much of it the decoder fills. -/
structure NewTask where
  kind : TaskKind
  requestLen : ℕ
  recvLen : ℕ
  decoded : Bool
  pos : ℤ
  currentdatalen : Option ℤ
  allocated : ℕ
  stored : ℕ
  deriving DecidableEq, Repr

def requestWord (offset : ℤ) (buffer : ℤ → Byte) : BitVec 32 := ofBigEndian 32 (bytesAt buffer offset 4)

/-- `(UInt32)GetRequestLen(fRecvBuffer)` -/
def getRequestLen (buffer : ℤ → Byte) : ℕ := (requestWord 0 buffer).toNat

def getRequestType (buffer : ℤ → Byte) : BitVec 32 := requestWord 8 buffer

def clientPut : BitVec 32 := 0x0101
def clientGet : BitVec 32 := 0x0102
def dsBackupChunkPush : BitVec 32 := 0x0103
def nsCommandChunkBackup : BitVec 32 := 0x0007

/-- `backup_dataservernum` of `M_PutTemp`, which is 0 from the constructor -/
def headNum (buffer : ℤ → Byte) (recvLen : ℕ) : ℤ :=
  match ((ClientPut.deserializehead recvLen).exec ⟨buffer, 0⟩).1 with
  | .ok head => head.backupDataservernum.toInt
  | .error _ => 0

/-- `sizeof(struct ClientPut) + M_PutTemp.backup_dataservernum * sizeof(address_t)`, in a `size_t` -/
def putBlockSize (num : ℤ) : ℕ := ((clientPutSize + num * addressSize) % 2 ^ 64).toNat

/-- How many entries of `address` the loop of `ClientPut::deserialize` stores into -/
def slotsStored (dataLen : ℤ) : ℕ → Cursor → ℕ
  | 0, _ => 0
  | n + 1, s =>
    match (thenSkip (getInt32 dataLen) 12).exec s with
    | (.error _, _) => 0
    | (.ok _, s) =>
      match (getInt32 dataLen).exec s with
      | (.error _, _) => 1
      | (.ok _, s) => slotsStored dataLen n s + 1

/-- Where the stores into the block end: the head, and the entries if the head could be decoded -/
def putStored (buffer : ℤ → Byte) (recvLen : ℕ) : ℕ :=
  match (ClientPut.deserializehead recvLen).exec ⟨buffer, 0⟩ with
  | (.ok head, s) => 40 + 8 * slotsStored recvLen head.backupDataservernum.toInt.toNat s
  | (.error _, _) => 40

/-- A request and its decoder; `size` is that of its block, if it has one. -/
def newTask {α : Type} (kind : TaskKind) (decoder : Coder α) (buffer : ℤ → Byte) (recvLen : ℕ) (payload : Bool)
    (allocated stored : ℕ) : NewTask :=
  let r := decoder.exec ⟨buffer, 0⟩
  { kind
    requestLen := getRequestLen buffer
    recvLen
    decoded := r.1.isOk
    pos := r.2.pos
    currentdatalen := if payload then some (int32 (recvLen - r.2.pos)) else none
    allocated
    stored }

/-- The task that `MessageTransaction` makes; `known` says that `get_block_info` finds the block of a backup
command. -/
def messageTransaction (malloc : Allocator) (known : Bool) (buffer : ℤ → Byte) (recvLen : ℕ) : Option NewTask :=
  let type := getRequestType buffer
  if type = clientPut then
    let size := putBlockSize (headNum buffer recvLen)
    some (newTask .clientPut (ClientPut.deserialize recvLen) buffer recvLen true
      (if malloc.gives size then size else 0) (putStored buffer recvLen))
  else if type = clientGet then
    some (newTask .clientGet (ClientGet.deserialize recvLen) buffer recvLen false
      (if malloc.gives clientGetSize then clientGetSize else 0) 36)
  else if type = dsBackupChunkPush then
    some (newTask .put (DsPush.deserialize recvLen) buffer recvLen true 32 32)
  else if type = nsCommandChunkBackup then
    if known then
      some (newTask .push (BackupCommand.deserialize ⟨⟨0, 0, 0, 0⟩, 0, 0, .ofIpWord 0 0, .ofIpWord 0 0, 0⟩ recvLen)
        buffer recvLen false 48 44)
    else none
  else none

/-! ## ProcessEvent -/

structure DSTCPSession where
  recvBuffer : ℤ → Byte := fun _ => 0
  recvLen : ℕ := 0
  ended : Bool := false
  task : Option NewTask := none

/-- `recv`: the bytes that wait in the socket when `Reads` is called, and what `get_block_info` would say.
`eagain` lets the session wait, the other events end it. -/
inductive SessionEvent
  | recv (bytes : List Byte) (known : Bool)
  | eagain
  | error
  | timeout
  deriving DecidableEq, Repr

namespace DSTCPSession

/-- What `Reads` takes of the bytes that wait -/
def taken (s : DSTCPSession) (bytes : List Byte) : List Byte := bytes.take (kReqBufSize - s.recvLen)

def reads (s : DSTCPSession) (bytes : List Byte) : DSTCPSession :=
  { s with
    recvBuffer := lay s.recvBuffer s.recvLen ((s.taken bytes).map some)
    recvLen := s.recvLen + (s.taken bytes).length }

def Complete (s : DSTCPSession) : Prop := 4 ≤ s.recvLen ∧ getRequestLen s.recvBuffer ≤ s.recvLen

instance (s : DSTCPSession) : Decidable s.Complete := inferInstanceAs (Decidable (_ ∧ _))

/-- One turn of `ProcessEvent`. A `recv` of nothing, also into a full buffer, counts as a disconnect. -/
def step (malloc : Allocator) (s : DSTCPSession) : SessionEvent → DSTCPSession
  | .recv bytes known =>
    if s.ended then s
    else if s.taken bytes = [] then { s with ended := true }
    else
      let s := s.reads bytes
      if s.Complete then
        { s with ended := true, task := messageTransaction malloc known s.recvBuffer s.recvLen }
      else s
  | .eagain => s
  | .error | .timeout => { s with ended := true }

def run (malloc : Allocator) (events : List SessionEvent) : DSTCPSession := events.foldl (step malloc) {}

end DSTCPSession

/-! ## Sound tasks -/

/-- All declared bytes were received and decoded, what is left over lies in the buffer behind them, and the
decoder kept to the block of the request. -/
structure Sound (t : NewTask) : Prop where
  received : t.requestLen ≤ t.recvLen
  decoded : t.decoded = true
  leftover : ∀ n, t.currentdatalen = some n → 0 ≤ n ∧ n ≤ kReqBufSize - t.pos
  block : t.stored ≤ t.allocated

/-- The bytes that have come hold all of the request, and there is a block for it. -/
def Enough (malloc : Allocator) (known : Bool) (buffer : ℤ → Byte) (recvLen : ℕ) : Prop :=
  let type := getRequestType buffer
  if type = clientPut then
    let num := (requestWord 36 buffer).toInt
    0 ≤ num ∧ 40 + 20 * num ≤ recvLen ∧ malloc.gives (40 + 8 * num).toNat = true
  else if type = clientGet then 36 ≤ recvLen ∧ malloc.gives clientGetSize = true
  else if type = dsBackupChunkPush then 32 ≤ recvLen
  else if type = nsCommandChunkBackup then known = true → 68 ≤ recvLen
  else True

section Transaction

variable {buffer : ℤ → Byte} {recvLen : ℕ}

theorem newTask_sound_iff {α : Type} (kind : TaskKind) {decoder : Coder α} {n : ℕ} (payload : Bool)
    (allocated stored : ℕ) (hreq : getRequestLen buffer ≤ recvLen) (hbuf : recvLen ≤ kReqBufSize)
    (htakes : n ≤ recvLen → ∃ a, decoder.exec ⟨buffer, 0⟩ = (.ok a, ⟨buffer, n⟩))
    (herror : recvLen < n → (decoder.exec ⟨buffer, 0⟩).1 = .error ()) :
    Sound (newTask kind decoder buffer recvLen payload allocated stored) ↔ n ≤ recvLen ∧ stored ≤ allocated := by
  constructor
  · intro h
    refine ⟨?_, h.block⟩
    by_contra hshort
    have hdecoded := h.decoded
    simp only [newTask, herror (Nat.lt_of_not_le hshort)] at hdecoded
    cases hdecoded
  · intro ⟨hfit, hblock⟩
    obtain ⟨a, hexec⟩ := htakes hfit
    rw [kReqBufSize] at hbuf
    refine ⟨hreq, ?_, fun k hk => ?_, hblock⟩
    · simp only [newTask, hexec]
      rfl
    · simp only [newTask, hexec] at hk ⊢
      split at hk
      · cases hk
        rw [int32_of_range (by omega) (by omega), kReqBufSize]
        omega
      · cases hk

theorem newTask_sound_iff_of_consumes {α : Type} (kind : TaskKind) {decoder : Coder α} {n : ℕ} (payload : Bool)
    (allocated stored : ℕ) (hreq : getRequestLen buffer ≤ recvLen) (hbuf : recvLen ≤ kReqBufSize)
    (hdecoder : Consumes recvLen decoder n) :
    Sound (newTask kind decoder buffer recvLen payload allocated stored) ↔ n ≤ recvLen ∧ stored ≤ allocated := by
  refine newTask_sound_iff kind payload allocated stored hreq hbuf (fun hfit => ?_) (fun hshort => ?_)
  · obtain ⟨a, hexec⟩ := hdecoder.takes ⟨buffer, 0⟩ (Int.le_refl 0) (by simp only; omega)
    exact ⟨a, by rw [hexec, Int.zero_add]⟩
  · exact hdecoder.fails ⟨buffer, 0⟩ (Int.le_refl 0) (by simp only; omega) (by simp only; omega)

/-! ### A PUT -/

theorem slotsStored_of_fit (dataLen : ℤ) (n : ℕ) {s : Cursor} (hpos : 0 ≤ s.pos) (hfit : s.pos + 20 * n ≤ dataLen) :
    slotsStored dataLen n s = n := by
  induction n generalizing s with
  | zero => rfl
  | succ n ih =>
    have hip : (thenSkip (getInt32 dataLen) 12).exec s = (.ok (load 32 4 s), ⟨s.data, s.pos + 4 + 12⟩) := by
      rw [thenSkip_exec, getInt32, getInt_exec ((room_iff hpos).2 (by omega))]
      rfl
    have hport : (getInt32 dataLen).exec ⟨s.data, s.pos + 4 + 12⟩ =
        (.ok (load 32 4 ⟨s.data, s.pos + 4 + 12⟩), ⟨s.data, s.pos + 4 + 12 + 4⟩) :=
      getInt_exec ((room_iff (by simp only; omega)).2 (by simp only; omega))
    simp only [slotsStored, hip, hport]
    rw [ih (by simp only; omega) (by simp only; omega)]

theorem putBlockSize_of_nonneg {num : ℤ} (h : 0 ≤ num) (hlt : num < 2 ^ 31) : putBlockSize num = (40 + 8 * num).toNat := by
  rw [putBlockSize, clientPutSize, addressSize, Int.emod_eq_of_lt (by omega) (by omega), Int.mul_comm]

/-- A negative number of backups makes the block too small, or too large for `malloc`. -/
theorem allocated_of_neg (malloc : Allocator) {num : ℤ} (h : num < 0) (hge : -2 ^ 31 ≤ num) :
    (if malloc.gives (putBlockSize num) then putBlockSize num else 0) < 40 := by
  rw [putBlockSize, clientPutSize, addressSize]
  by_cases hsmall : -5 ≤ num
  · rw [Int.emod_eq_of_lt (by omega) (by omega)]
    split <;> omega
  · have hwrap : (40 + num * 8) % 2 ^ 64 = 40 + num * 8 + 2 ^ 64 := by omega
    rw [hwrap, malloc.bounded _ (by omega), if_neg Bool.false_ne_true]
    omega

def backupNum (buffer : ℤ → Byte) : ℤ := (requestWord 36 buffer).toInt

theorem backupNum_range (buffer : ℤ → Byte) : -2 ^ 31 ≤ backupNum buffer ∧ backupNum buffer < 2 ^ 31 :=
  ⟨BitVec.le_toInt _, BitVec.toInt_lt⟩

theorem headNum_eq (hlen : (recvLen : ℤ) < 2 ^ 63) (h : 40 ≤ recvLen) : headNum buffer recvLen = backupNum buffer := by
  rw [headNum, ClientPut.deserializehead_exec hlen (Int.le_refl 0) (by omega)]
  rfl

theorem putStored_eq (hlen : (recvLen : ℤ) < 2 ^ 63) (h : 40 + 20 * (backupNum buffer).toNat ≤ recvLen) :
    putStored buffer recvLen = 40 + 8 * (backupNum buffer).toNat := by
  have hslots : slotsStored recvLen (backupNum buffer).toNat ⟨buffer, 0 + 40⟩ = (backupNum buffer).toNat :=
    slotsStored_of_fit recvLen _ (by simp only; omega) (by simp only; omega)
  simp only [putStored, ClientPut.deserializehead_exec hlen (Int.le_refl 0) (show (0 : ℤ) + 40 ≤ recvLen by omega)]
  rw [← hslots]
  rfl

theorem put_sound_iff (malloc : Allocator) (hreq : getRequestLen buffer ≤ recvLen) (hbuf : recvLen ≤ kReqBufSize) :
    Sound (newTask .clientPut (ClientPut.deserialize recvLen) buffer recvLen true
      (if malloc.gives (putBlockSize (headNum buffer recvLen)) then putBlockSize (headNum buffer recvLen) else 0)
      (putStored buffer recvLen)) ↔
    0 ≤ backupNum buffer ∧ 40 + 20 * backupNum buffer ≤ recvLen ∧
      malloc.gives (40 + 8 * backupNum buffer).toNat = true := by
  have hlen : (recvLen : ℤ) < 2 ^ 63 := by
    rw [kReqBufSize] at hbuf
    omega
  have hsize : ClientPut.encoding ⟨buffer, 0⟩ = 40 + 20 * (backupNum buffer).toNat := rfl
  have hrange := backupNum_range buffer
  rw [newTask_sound_iff (n := 40 + 20 * (backupNum buffer).toNat) .clientPut true _ _ hreq hbuf]
  · constructor
    · intro ⟨hfit, hblock⟩
      rw [putStored_eq hlen hfit, headNum_eq hlen (by omega)] at hblock
      have hnum : 0 ≤ backupNum buffer := by
        by_contra hneg
        have hsmall := allocated_of_neg malloc (Int.not_le.1 hneg) hrange.1
        omega
      rw [putBlockSize_of_nonneg hnum hrange.2] at hblock
      refine ⟨hnum, by omega, ?_⟩
      split at hblock
      · assumption
      · omega
    · intro ⟨hnum, hfit, hgives⟩
      have hfit' : 40 + 20 * (backupNum buffer).toNat ≤ recvLen := by omega
      refine ⟨hfit', ?_⟩
      rw [putStored_eq hlen hfit', headNum_eq hlen (by omega), putBlockSize_of_nonneg hnum hrange.2, if_pos hgives]
      omega
  · intro hfit
    have hroom : 0 + (ClientPut.encoding ⟨buffer, 0⟩ : ℤ) ≤ recvLen := by
      rw [hsize]
      omega
    obtain ⟨m, hexec⟩ := ClientPut.deserialize_takes hlen (Int.le_refl 0) hroom
    exact ⟨m, by rw [hexec, hsize, Int.zero_add]⟩
  · intro hshort
    rw [ClientPut.deserialize_error_iff hlen (Int.le_refl 0) (by omega), hsize]
    omega

theorem messageTransaction_sound_iff (malloc : Allocator) (known : Bool) (hreq : getRequestLen buffer ≤ recvLen)
    (hbuf : recvLen ≤ kReqBufSize) :
    (∀ t ∈ messageTransaction malloc known buffer recvLen, Sound t) ↔ Enough malloc known buffer recvLen := by
  have hlen : (recvLen : ℤ) < 2 ^ 63 := by
    rw [kReqBufSize] at hbuf
    omega
  rw [messageTransaction, Enough]
  by_cases hput : getRequestType buffer = clientPut
  · simp only [if_pos hput, Option.mem_def, Option.some.injEq, forall_eq']
    exact put_sound_iff malloc hreq hbuf
  by_cases hget : getRequestType buffer = clientGet
  · simp only [if_neg hput, if_pos hget, Option.mem_def, Option.some.injEq, forall_eq']
    rw [newTask_sound_iff_of_consumes .clientGet false _ _ hreq hbuf (ClientGet.deserialize_consumes hlen)]
    refine and_congr_right fun _ => ?_
    cases malloc.gives clientGetSize <;> decide
  by_cases hpush : getRequestType buffer = dsBackupChunkPush
  · simp only [if_neg hput, if_neg hget, if_pos hpush, Option.mem_def, Option.some.injEq, forall_eq']
    rw [newTask_sound_iff_of_consumes .put true _ _ hreq hbuf (DsPush.deserialize_consumes hlen)]
    exact and_iff_left (Nat.le_refl 32)
  by_cases hbackup : getRequestType buffer = nsCommandChunkBackup
  · cases known with
    | false =>
      simp only [if_neg hput, if_neg hget, if_neg hpush, if_pos hbackup]
      exact iff_of_true (fun t ht => by cases ht) (fun h => by cases h)
    | true =>
      simp only [if_neg hput, if_neg hget, if_neg hpush, if_pos hbackup, if_true, Option.mem_def, Option.some.injEq,
        forall_eq']
      rw [newTask_sound_iff_of_consumes .push false _ _ hreq hbuf (BackupCommand.deserialize_consumes _ hlen)]
      exact ⟨fun h _ => h.1, fun h => ⟨h trivial, by decide⟩⟩
  · simp only [if_neg hput, if_neg hget, if_neg hpush, if_neg hbackup]
    exact iff_of_true (fun t ht => by cases ht) trivial

end Transaction

/-! ## Runs -/

namespace DSTCPSession

/-- The bytes that make the request complete are enough for it. -/
def Accepts (malloc : Allocator) (s : DSTCPSession) : SessionEvent → Prop
  | .recv bytes known =>
    s.ended = false → s.taken bytes ≠ [] → (s.reads bytes).Complete →
      Enough malloc known (s.reads bytes).recvBuffer (s.reads bytes).recvLen
  | .eagain | .error | .timeout => True

structure Inv (s : DSTCPSession) : Prop where
  fits : s.recvLen ≤ kReqBufSize
  fresh : s.ended = false → s.task = none

theorem Inv.start : Inv {} := ⟨Nat.zero_le _, fun _ => rfl⟩

variable {malloc : Allocator} {s : DSTCPSession}

theorem reads_fits (h : s.recvLen ≤ kReqBufSize) (bytes : List Byte) : (s.reads bytes).recvLen ≤ kReqBufSize := by
  simp only [reads, taken, List.length_take]
  omega

theorem Inv.step (h : s.Inv) (e : SessionEvent) : (s.step malloc e).Inv := by
  cases e with
  | recv bytes known =>
    simp only [DSTCPSession.step]
    split
    · exact h
    split
    · exact ⟨h.fits, fun hended => by cases hended⟩
    split
    · exact ⟨reads_fits h.fits bytes, fun hended => by cases hended⟩
    · exact ⟨reads_fits h.fits bytes, h.fresh⟩
  | eagain => exact h
  | error => exact ⟨h.fits, fun hended => by cases hended⟩
  | timeout => exact ⟨h.fits, fun hended => by cases hended⟩

/-- A turn makes an unsound task exactly if it should not have accepted. -/
theorem step_sound_iff (h : s.Inv) (e : SessionEvent) :
    (∀ t ∈ (s.step malloc e).task, Sound t) ↔ (∀ t ∈ s.task, Sound t) ∧ s.Accepts malloc e := by
  cases e with
  | recv bytes known =>
    simp only [DSTCPSession.step, Accepts]
    by_cases hended : s.ended = true
    · rw [if_pos hended, hended]
      exact (and_iff_left fun hnot => by cases hnot).symm
    · have hrunning : s.ended = false := by simpa using hended
      rw [if_neg hended, hrunning, h.fresh hrunning]
      by_cases hempty : s.taken bytes = []
      · rw [if_pos hempty]
        simp only
        exact (and_iff_left fun _ hne => absurd hempty hne).symm
      · rw [if_neg hempty]
        by_cases hcomplete : (s.reads bytes).Complete
        · rw [if_pos hcomplete]
          refine (messageTransaction_sound_iff malloc known hcomplete.2 (reads_fits h.fits bytes)).trans ?_
          exact ⟨fun he => ⟨fun t ht => absurd ht (Option.not_mem_none t), fun _ _ _ => he⟩,
            fun he => he.2 rfl hempty hcomplete⟩
        · rw [if_neg hcomplete]
          have hnone : (s.reads bytes).task = none := h.fresh hrunning
          rw [hnone]
          exact (and_iff_left fun _ _ hc => absurd hc hcomplete).symm
  | eagain => exact (and_iff_left trivial).symm
  | error => exact (and_iff_left trivial).symm
  | timeout => exact (and_iff_left trivial).symm

theorem run_sound_iff (h : s.Inv) (events : List SessionEvent) :
    (∀ t ∈ (events.foldl (step malloc) s).task, Sound t) ↔
      (∀ t ∈ s.task, Sound t) ∧ allAllowed (step malloc) (Accepts malloc) s events := by
  induction events generalizing s with
  | nil => exact (and_iff_left trivial).symm
  | cons e events ih => rw [List.foldl_cons, ih (h.step e), step_sound_iff h e, and_assoc, allAllowed]

end DSTCPSession

/-- The task a session makes is sound exactly if the bytes that completed its request were enough for it. -/
theorem session_sound_iff (malloc : Allocator) (events : List SessionEvent) :
    (∀ t ∈ (DSTCPSession.run malloc events).task, Sound t) ↔
      allAllowed (DSTCPSession.step malloc) (DSTCPSession.Accepts malloc) {} events := by
  rw [DSTCPSession.run, DSTCPSession.run_sound_iff .start events]
  exact and_iff_right fun t ht => by cases ht

theorem plenty_bounded (size : ℕ) (h : 2 ^ 63 ≤ size) : decide (size < 2 ^ 63) = false :=
  decide_eq_false (Nat.not_lt.2 h)

/-- As much memory as there can be -/
def plenty : Allocator := ⟨fun size => decide (size < 2 ^ 63), plenty_bounded⟩

/-- Twelve bytes that call themselves a whole PUT -/
def barePut : List Byte := [0, 0, 0, 12, 0, 0, 0, 0, 0, 0, 1, 1]

/-- A PUT with `-1` backups -/
def negativePut : List Byte :=
  [0, 0, 0, 40, 0, 0, 0, 0, 0, 0, 1, 1, 0, 0, 0, 0] ++ List.replicate 20 0 ++ [255, 255, 255, 255]

/-- A task is made of a request that could not be decoded, and one whose block is smaller than its head. -/
theorem unsound_tasks :
    (¬ ∀ t ∈ (DSTCPSession.run plenty [.recv barePut true]).task, Sound t) ∧
    ¬ ∀ t ∈ (DSTCPSession.run plenty [.recv negativePut true]).task, Sound t := by
  have hbare : (DSTCPSession.run plenty [.recv barePut true]).task.map NewTask.decoded = some false := by decide
  have hnegative : (DSTCPSession.run plenty [.recv negativePut true]).task.map
      (fun t => decide (t.stored ≤ t.allocated)) = some false := by decide
  obtain ⟨t, ht, hdecoded⟩ := Option.map_eq_some_iff.1 hbare
  obtain ⟨t', ht', hblock⟩ := Option.map_eq_some_iff.1 hnegative
  refine ⟨fun h => ?_, fun h => ?_⟩
  · rw [(h t ht).decoded] at hdecoded
    cases hdecoded
  · exact absurd (h t' ht').block (of_decide_eq_false hblock)

end Tefs.DataServer.ClientSession
