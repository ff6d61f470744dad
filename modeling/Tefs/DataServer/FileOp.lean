import Mathlib.Data.PNat.Basic
import Tefs.DataServer.BitMap

/-! # Reading and writing at a position of a file

Source: `pread_file`, `pwrite_file`, `check_file` and `open_file` of `diskmanager/common/file_op.cpp`.

The two loops differ in the call they make. What the operating system replies in each turn is given, with a count that is
at most what was asked for. It never moves a byte behind the largest offset, so the offset is not cut off here.
-/

namespace Tefs.DataServer.FileOp
set_option autoImplicit false

def maxDiskTimes : ℕ := 5

def tfsSuccess : ℤ := 0

def exitDiskOperIncomplete : ℤ := -8012

/-! ## The operating system -/

def eintr : ℕ := 4

def ebadf : ℕ := 9

def eagain : ℕ := 11

inductive OpenReply
  | opened (fd : ℕ)
  | failed (errno : ℕ+)
  deriving DecidableEq, Repr

inductive IoReply
  | moved (n : ℕ)
  | failed (errno : ℕ+)
  deriving DecidableEq, Repr

/-- What `open` would reply in a turn, and what `pread64` or `pwrite64` does -/
structure Reply where
  opens : OpenReply
  io : IoReply
  deriving DecidableEq, Repr

/-- The memory from `buf` on, and the bytes of the file -/
@[ext] structure World where
  buf : ℕ → Byte
  file : ℤ → Byte

inductive Direction
  | read
  | write
  deriving DecidableEq, Repr

/-- `n` bytes are moved between `buf + pos` and the file at `offset`. -/
def World.move (w : World) (pos : ℕ) (offset : ℤ) (n : ℕ) : Direction → World
  | .read => { w with buf := fun p => if pos ≤ p ∧ p < pos + n then w.file (offset + (p - pos : ℕ)) else w.buf p }
  | .write => { w with file := fun q => if offset ≤ q ∧ q < offset + n then w.buf (pos + (q - offset).toNat) else w.file q }

/-! ## The loops -/

/-- A call of `pread64` or `pwrite64`: where it was in the buffer and in the file, what it was asked for, what it did -/
structure Call where
  pos : ℕ
  offset : ℤ
  count : ℤ
  moved : ℕ
  deriving DecidableEq, Repr

/-- `fd_` and the variables of the loop; `pos` is `p_tmp - buf`. -/
structure State where
  fd : ℤ
  left : ℤ
  pos : ℕ
  offset : ℤ
  world : World
  calls : List Call

/-- `check_file`: a file that is not open is opened, and `fd_` is the descriptor or `-errno`. -/
def checkFile (fd : ℤ) (reply : OpenReply) : ℤ :=
  if fd < 0 then
    match reply with
    | .opened fd => fd
    | .failed errno => -(errno : ℤ)
  else fd

/-- The end of a turn: `continue`, `break` or `return` -/
inductive Turn
  | again (s : State)
  | stop (s : State)
  | leave (s : State) (ret : ℤ)

/-- The call is made, and `n` bytes are moved. -/
def State.called (s : State) (fd : ℤ) (n : ℕ) (direction : Direction) : State :=
  { fd := fd
    left := s.left - n
    pos := s.pos + n
    offset := s.offset + n
    world := s.world.move s.pos s.offset n direction
    calls := s.calls ++ [⟨s.pos, s.offset, s.left, n⟩] }

def turn (direction : Direction) (reply : Reply) (s : State) : Turn :=
  let fd := checkFile s.fd reply.opens
  if fd < 0 then .leave { s with fd := fd } fd
  else
    match reply.io with
    | .failed errno =>
      if (errno : ℕ) = eintr ∨ (errno : ℕ) = eagain then .again (s.called fd 0 direction)
      else if (errno : ℕ) = ebadf then .again (s.called (-1) 0 direction)
      else .leave (s.called fd 0 direction) (-(errno : ℤ))
    | .moved n =>
      let n := min n s.left.toNat
      if n = 0 then .stop (s.called fd 0 direction) else .again (s.called fd n direction)

def finish (s : State) : State × ℤ := (s, if s.left ≠ 0 then exitDiskOperIncomplete else tfsSuccess)

/-- The `while` loop after `i` turns -/
def ioLoop (direction : Direction) (replies : ℕ → Reply) (i : ℕ) (s : State) : State × ℤ :=
  if 0 < s.left then
    if maxDiskTimes ≤ i + 1 then finish s
    else
      match turn direction (replies (i + 1)) s with
      | .again s => ioLoop direction replies (i + 1) s
      | .stop s => finish s
      | .leave s ret => (s, ret)
  else finish s
termination_by maxDiskTimes - i

def preadFile (replies : ℕ → Reply) (fd : ℤ) (w : World) (nbytes offset : ℤ) : State × ℤ :=
  ioLoop .read replies 0 ⟨fd, nbytes, 0, offset, w, []⟩

def pwriteFile (replies : ℕ → Reply) (fd : ℤ) (w : World) (nbytes offset : ℤ) : State × ℤ :=
  ioLoop .write replies 0 ⟨fd, nbytes, 0, offset, w, []⟩

/-! ## What is moved -/

/-- The bytes that the calls moved, in their order: the place in the buffer and in the file -/
def transferred (calls : List Call) : List (ℕ × ℤ) :=
  calls.flatMap fun c => (List.range c.moved).map fun k => (c.pos + k, c.offset + k)

/-- The first `n` bytes of the buffer and those of the file from `offset` on -/
def inOrder (offset : ℤ) (n : ℕ) : List (ℕ × ℤ) := (List.range n).map fun k => (k, offset + k)

/-- There are few calls, each inside the buffer. Success is returned exactly if all bytes were moved, once and in order;
whatever is returned, those that were moved are the first. -/
structure Complete (direction : Direction) (w : World) (nbytes offset : ℤ) (r : State × ℤ) : Prop where
  ends : r.1.calls.length < maxDiskTimes
  inside : ∀ c ∈ r.1.calls, 0 < c.count ∧ c.pos + c.count ≤ nbytes ∧ c.moved ≤ c.count
  success : r.2 = tfsSuccess ↔ 0 ≤ nbytes ∧ transferred r.1.calls = inOrder offset nbytes.toNat
  first : ∃ n, transferred r.1.calls = inOrder offset n ∧ r.1.world = w.move 0 offset n direction

/-! ## Moving in parts -/

theorem World.move_zero (w : World) (pos : ℕ) (offset : ℤ) (direction : Direction) : w.move pos offset 0 direction = w := by
  cases direction with
  | read =>
    refine World.ext (funext fun p => if_neg ?_) rfl
    omega
  | write =>
    refine World.ext rfl (funext fun q => if_neg ?_)
    omega

theorem World.move_append (w : World) (offset : ℤ) (m n : ℕ) (direction : Direction) :
    (w.move 0 offset m direction).move m (offset + m) n direction = w.move 0 offset (m + n) direction := by
  cases direction with
  | read =>
    refine World.ext (funext fun p => ?_) rfl
    dsimp only [World.move]
    by_cases hlater : m ≤ p ∧ p < m + n
    · have hall : 0 ≤ p ∧ p < 0 + (m + n) := by omega
      have hplace : offset + m + (p - m : ℕ) = offset + (p - 0 : ℕ) := by omega
      rw [if_pos hlater, if_pos hall, hplace]
    · have hsame : (0 ≤ p ∧ p < 0 + m) ↔ (0 ≤ p ∧ p < 0 + (m + n)) := by omega
      rw [if_neg hlater]
      simp only [hsame]
  | write =>
    refine World.ext rfl (funext fun q => ?_)
    dsimp only [World.move]
    by_cases hlater : offset + m ≤ q ∧ q < offset + m + n
    · have hall : offset ≤ q ∧ q < offset + (m + n : ℕ) := by omega
      have hplace : m + (q - (offset + m)).toNat = 0 + (q - offset).toNat := by omega
      rw [if_pos hlater, if_pos hall, hplace]
    · have hsame : (offset ≤ q ∧ q < offset + m) ↔ (offset ≤ q ∧ q < offset + (m + n : ℕ)) := by omega
      rw [if_neg hlater]
      simp only [hsame]

theorem inOrder_length (offset : ℤ) (n : ℕ) : (inOrder offset n).length = n := by
  rw [inOrder, List.length_map, List.length_range]

theorem inOrder_append (offset : ℤ) (m n : ℕ) :
    inOrder offset m ++ (List.range n).map (fun k => (m + k, offset + m + k)) = inOrder offset (m + n) := by
  rw [inOrder, inOrder, List.range_add, List.map_append, List.map_map]
  congr 1
  apply List.map_congr_left
  intro k _
  have hplace : offset + m + k = offset + (m + k : ℕ) := by omega
  rw [Function.comp_apply, hplace]

theorem transferred_append (calls : List Call) (c : Call) :
    transferred (calls ++ [c]) = transferred calls ++ (List.range c.moved).map fun k => (c.pos + k, c.offset + k) := by
  rw [transferred, List.flatMap_append, List.flatMap_singleton]
  rfl

/-! ## The invariant of the loops -/

/-- After `i` turns `pos` bytes were moved. -/
structure Progress (direction : Direction) (w : World) (nbytes offset : ℤ) (i : ℕ) (s : State) : Prop where
  left : s.left = nbytes - s.pos
  place : s.offset = offset + s.pos
  world : s.world = w.move 0 offset s.pos direction
  calls : s.calls.length ≤ i
  inside : ∀ c ∈ s.calls, 0 < c.count ∧ c.pos + c.count ≤ nbytes ∧ c.moved ≤ c.count
  moved : transferred s.calls = inOrder offset s.pos

section

variable {direction : Direction} {w : World} {nbytes offset : ℤ} {i : ℕ} {s : State}

theorem Progress.start (direction : Direction) (fd : ℤ) (w : World) (nbytes offset : ℤ) :
    Progress direction w nbytes offset 0 ⟨fd, nbytes, 0, offset, w, []⟩ where
  left := (sub_zero nbytes).symm
  place := (add_zero offset).symm
  world := (w.move_zero 0 offset direction).symm
  calls := le_rfl
  inside := fun _ hc => absurd hc List.not_mem_nil
  moved := rfl

theorem Progress.mono (h : Progress direction w nbytes offset i s) {j : ℕ} (hij : i ≤ j) (fd : ℤ) :
    Progress direction w nbytes offset j { s with fd := fd } :=
  ⟨h.left, h.place, h.world, h.calls.trans hij, h.inside, h.moved⟩

theorem Progress.called (h : Progress direction w nbytes offset i s) (hleft : 0 < s.left) (fd : ℤ) {n : ℕ}
    (hn : n ≤ s.left) : Progress direction w nbytes offset (i + 1) (s.called fd n direction) where
  left := by
    change s.left - n = nbytes - (s.pos + n : ℕ)
    rw [h.left]
    omega
  place := by
    change s.offset + n = offset + (s.pos + n : ℕ)
    rw [h.place]
    omega
  world := by
    change s.world.move s.pos s.offset n direction = _
    rw [h.world, h.place, World.move_append]
    rfl
  calls := by
    have hcalls := h.calls
    change (s.calls ++ [_]).length ≤ i + 1
    rw [List.length_append, List.length_singleton]
    omega
  inside := by
    intro c hc
    rcases List.mem_append.mp hc with hold | hnew
    · exact h.inside c hold
    · rw [List.mem_singleton.mp hnew]
      have hplace := h.left
      refine ⟨hleft, ?_, hn⟩
      dsimp only
      omega
  moved := by
    change transferred (s.calls ++ [_]) = inOrder offset (s.pos + n)
    rw [transferred_append, h.moved, h.place, inOrder_append]

/-- What a turn leaves, however it ends; only the number of bytes that are left tells a success. -/
theorem Progress.turn (h : Progress direction w nbytes offset i s) (hleft : 0 < s.left) (reply : Reply) :
    match turn direction reply s with
    | .again s' => Progress direction w nbytes offset (i + 1) s'
    | .stop s' => Progress direction w nbytes offset (i + 1) s'
    | .leave s' ret => Progress direction w nbytes offset (i + 1) s' ∧ ret < 0 ∧ 0 < s'.left := by
  rw [FileOp.turn]
  have hzero : ((0 : ℕ) : ℤ) ≤ s.left := hleft.le
  by_cases hfd : checkFile s.fd reply.opens < 0
  · rw [if_pos hfd]
    exact ⟨h.mono (Nat.le_succ i) _, hfd, hleft⟩
  · rw [if_neg hfd]
    cases reply.io with
    | failed errno =>
      dsimp only
      by_cases hagain : (errno : ℕ) = eintr ∨ (errno : ℕ) = eagain
      · rw [if_pos hagain]
        exact h.called hleft _ hzero
      · rw [if_neg hagain]
        by_cases hbad : (errno : ℕ) = ebadf
        · rw [if_pos hbad]
          exact h.called hleft _ hzero
        · rw [if_neg hbad]
          have hpos := errno.pos
          refine ⟨h.called hleft _ hzero, by omega, ?_⟩
          change 0 < s.left - (0 : ℕ)
          omega
    | moved n =>
      dsimp only
      by_cases hend : min n s.left.toNat = 0
      · rw [if_pos hend]
        exact h.called hleft _ hzero
      · rw [if_neg hend]
        exact h.called hleft _ (by omega)

theorem finish_success (s : State) : (finish s).2 = tfsSuccess ↔ s.left = 0 := by
  rw [finish]
  by_cases hleft : s.left = 0
  · simp [hleft]
  · simp [hleft, exitDiskOperIncomplete, tfsSuccess]

/-- The loop ends after less than five turns, and tells success exactly if nothing is left. -/
theorem Progress.ioLoop (replies : ℕ → Reply) (h : Progress direction w nbytes offset i s) (hi : i < maxDiskTimes) :
    Progress direction w nbytes offset (maxDiskTimes - 1) (ioLoop direction replies i s).1 ∧
      ((ioLoop direction replies i s).2 = tfsSuccess ↔ (ioLoop direction replies i s).1.left = 0) := by
  have hlast : i ≤ maxDiskTimes - 1 := Nat.le_sub_one_of_lt hi
  fun_induction FileOp.ioLoop direction replies i s with
  | case1 i s => exact ⟨h.mono hlast s.fd, finish_success s⟩
  | case2 i s hleft hmore s' hturn ih =>
    have hs' := h.turn hleft (replies (i + 1))
    rw [hturn] at hs'
    exact ih hs' (by omega) (by omega)
  | case3 i s hleft hmore s' hturn =>
    have hs' := h.turn hleft (replies (i + 1))
    rw [hturn] at hs'
    exact ⟨hs'.mono (by omega) s'.fd, finish_success s'⟩
  | case4 i s hleft hmore s' ret hturn =>
    have hs' := h.turn hleft (replies (i + 1))
    rw [hturn] at hs'
    obtain ⟨hs', hret, hsome⟩ := hs'
    exact ⟨hs'.mono (by omega) s'.fd, iff_of_false hret.ne hsome.ne'⟩
  | case5 i s => exact ⟨h.mono hlast s.fd, finish_success s⟩

theorem Progress.complete {r : State × ℤ} (h : Progress direction w nbytes offset (maxDiskTimes - 1) r.1)
    (hret : r.2 = tfsSuccess ↔ r.1.left = 0) : Complete direction w nbytes offset r where
  ends := Nat.lt_of_le_pred (by decide) h.calls
  inside := h.inside
  success := by
    have hleft := h.left
    rw [hret, h.moved]
    constructor
    · intro hzero
      have hpos : r.1.pos = nbytes.toNat := by omega
      exact ⟨by omega, by rw [hpos]⟩
    · rintro ⟨hnonneg, hall⟩
      have hlengths := congrArg List.length hall
      rw [inOrder_length, inOrder_length] at hlengths
      omega
  first := ⟨r.1.pos, h.moved, h.world⟩

end

/-- Any replies of the operating system, any buffer, length and offset, and a file that is open or not -/
theorem file_io_complete (replies : ℕ → Reply) (fd : ℤ) (w : World) (nbytes offset : ℤ) :
    Complete .read w nbytes offset (preadFile replies fd w nbytes offset) ∧
      Complete .write w nbytes offset (pwriteFile replies fd w nbytes offset) := by
  have hdirection : ∀ direction, Complete direction w nbytes offset
      (ioLoop direction replies 0 ⟨fd, nbytes, 0, offset, w, []⟩) := by
    intro direction
    obtain ⟨hprogress, hret⟩ := (Progress.start direction fd w nbytes offset).ioLoop replies (by decide)
    exact hprogress.complete hret
  exact ⟨hdirection .read, hdirection .write⟩

end Tefs.DataServer.FileOp
