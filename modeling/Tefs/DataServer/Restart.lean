import Tefs.DataServer.OnDisk

/-! # Restarting

Every history of `new_block`, `extend_block`, `del_block` and writes of data keeps on the disk what is
in memory, so a restart after it gives back the manager with all it held.
-/

namespace Tefs.DataServer
set_option autoImplicit false

structure Manager.Stored (sb : SuperBlock) (s : Manager) : Prop where
  sound : s.toMemory.Sound sb
  disk : s.OnDisk

section Steps

variable {sb : SuperBlock} {s : Manager} (h : s.Stored sb)
include h

theorem Manager.Stored.newBlock {key : Key} (hkey : key ≠ (0, 0)) :
    ∃ ret s', s.newBlock Io.allDone key .main = .ok (ret, s') ∧ s'.Stored sb := by
  obtain ⟨ret, s', heq, hstep⟩ := newBlock_step h.sound.alloc Io.allDone key .main
  obtain ⟨ret', s'', heq', hsound⟩ := h.sound.newBlock key .main
  obtain ⟨rfl, rfl⟩ : ret' = ret ∧ s'' = s' := by
    rw [heq] at heq'
    simpa using heq'.symm
  refine ⟨ret', s'', heq, hsound, ?_⟩
  cases hstep with
  | exist _ => exact h.disk
  | exhaust _ _ => exact h.disk
  | undone e _ id hn hf hat mem => simp [Io.allDone] at hat
  | miscounted e _ id hn hf dump bitMap hat mem => simp [Io.allDone] at hat
  | done id _ hn hf dump bitMap super flush mem disk =>
    obtain ⟨o, ho, hspec⟩ := findAvailBlock_ok h.sound.alloc.normal_items h.sound.alloc.error_items .main
    rw [hf] at ho
    cases ho
    obtain ⟨hid, ht, -⟩ := hspec id rfl
    exact h.disk.newBlock h.sound.alloc hkey hid ht mem disk

theorem Manager.Stored.delBlock (key : Key) :
    ∃ ret s', s.delBlock Io.allDone key .main = .ok (ret, s') ∧ s'.Stored sb := by
  obtain ⟨ret, s', heq, hstep⟩ := delBlock_step h.sound.alloc Io.allDone key
    (show BlockType.main.side = some .main from rfl)
  obtain ⟨ret', s'', heq', hsound⟩ := h.sound.delBlock key .main
  obtain ⟨rfl, rfl⟩ : ret' = ret ∧ s'' = s' := by
    rw [heq] at heq'
    simpa using heq'.symm
  refine ⟨ret', s'', heq, hsound, ?_⟩
  cases hstep with
  | missing _ => exact h.disk
  | uncounted e _ lb hb bitMap mem => cases bitMap
  | late e _ lb hb bitMap hat mem => simp [Io.allDone] at hat
  | done _ lb hb bitMap mem disk => exact h.disk.delBlock mem disk

theorem Manager.Stored.extendBlock (extendSupport : Bool) (key : Key) (size offset : ℤ)
    (retryTimes : ℕ) :
    ∃ ret s', Manager.extendBlock extendSupport (fun _ => Io.allDone) .main key size offset retryTimes
      s = .ok (ret, s') ∧ s'.Stored sb := by
  refine extendBlock_rule (fun _ hs => hs.sound.alloc) ?_ h extendSupport size offset retryTimes
  intro s s' lb last id prev hs hb hlast hp hid ht mem disk
  refine ⟨?_, hs.disk.extend hs.sound.alloc hb hlast hp hid ht mem disk⟩
  rw [mem]
  exact hs.sound.withExt hb (List.mem_of_getLast? hlast) hp hid ht

theorem Manager.Stored.writeBlockData (extendSupport : Bool) (key : Key) (offset : ℤ)
    (buf : List Byte) :
    ∃ ret s', s.writeBlockData extendSupport key offset buf = .ok (ret, s') ∧ s'.Stored sb := by
  unfold Manager.writeBlockData
  obtain ⟨ret, s₁, heq, h₁⟩ := h.extendBlock extendSupport key buf.length offset maxExtendTimes
  simp only [heq]
  by_cases hret : ret = tfsSuccess
  · rw [if_neg (not_not_intro hret)]
    cases hb : s₁.logicBlocks key with
    | none => exact ⟨_, s₁, rfl, h₁⟩
    | some lb =>
      obtain ⟨ret', s₂, heq', hsame⟩ := writeSegmentData_sameButData lb.physicalBlockList buf.length s₁
        buf offset (le_refl _)
      refine ⟨ret', s₂, heq', ?_, h₁.disk.sameButData hsame⟩
      rw [hsame.mem]
      exact h₁.sound
  · rw [if_pos hret]
    exact ⟨_, s₁, rfl, h₁⟩

theorem Manager.Stored.writeRawData (extendSupport : Bool) {key : Key} (hkey : key ≠ (0, 0))
    (offset : ℤ) (buf : List Byte) :
    ∃ ret s', s.writeRawData extendSupport key offset buf = .ok (ret, s') ∧ s'.Stored sb := by
  unfold Manager.writeRawData
  by_cases hbuf : buf = []
  · rw [if_pos hbuf]
    exact ⟨_, s, rfl, h⟩
  rw [if_neg hbuf]
  by_cases hb : (s.logicBlocks key).isSome = true
  · rw [if_pos hb]
    exact h.writeBlockData extendSupport key offset buf
  · rw [if_neg hb]
    obtain ⟨ret, s₁, heq, h₁⟩ := h.newBlock hkey
    simp only [heq]
    by_cases hret : ret = tfsSuccess
    · rw [if_neg (not_not_intro hret)]
      exact h₁.writeBlockData extendSupport key offset buf
    · rw [if_pos hret]
      exact ⟨_, s₁, rfl, h₁⟩

end Steps

/-! ## Whole histories -/

inductive StoreOp where
  | newBlock (key : Key)
  | extendBlock (key : Key) (size offset : ℤ)
  | delBlock (key : Key)
  | writeRawData (key : Key) (offset : ℤ) (buf : List Byte)
  deriving DecidableEq, Repr

def Manager.store (extendSupport : Bool) (s : Manager) : StoreOp → Except Abort Manager
  | .newBlock key => (s.newBlock Io.allDone key .main).map Prod.snd
  | .extendBlock key size offset =>
    (Manager.extendBlock extendSupport (fun _ => Io.allDone) .main key size offset maxExtendTimes
      s).map Prod.snd
  | .delBlock key => (s.delBlock Io.allDone key .main).map Prod.snd
  | .writeRawData key offset buf => (s.writeRawData extendSupport key offset buf).map Prod.snd

/-- No block gets the key <0,0>, and offset and size are an `int32_t` each and in their sums. -/
def StoreOp.InRange (extendBlockSize : ℤ) : StoreOp → Prop
  | .newBlock key => key ≠ (0, 0)
  | .extendBlock _ size offset => 0 ≤ size ∧ 0 ≤ offset ∧ offset + size + extendBlockSize < 2 ^ 31
  | .delBlock _ => True
  | .writeRawData key offset buf =>
    key ≠ (0, 0) ∧ 0 ≤ offset ∧ offset + buf.length + extendBlockSize < 2 ^ 31

def Manager.runStore (extendSupport : Bool) : Manager → List StoreOp → Except Abort Manager
  | s, [] => .ok s
  | s, op :: ops =>
    match s.store extendSupport op with
    | .error a => .error a
    | .ok s => s.runStore extendSupport ops

theorem Manager.Stored.store {sb : SuperBlock} {s : Manager} (h : s.Stored sb) (extendSupport : Bool)
    {extendBlockSize : ℤ} (op : StoreOp) (hop : op.InRange extendBlockSize) :
    ∃ s', s.store extendSupport op = .ok s' ∧ s'.Stored sb := by
  cases op with
  | newBlock key =>
    obtain ⟨ret, s', heq, hs⟩ := h.newBlock hop
    exact ⟨s', by simp [Manager.store, heq, Except.map], hs⟩
  | extendBlock key size offset =>
    obtain ⟨ret, s', heq, hs⟩ := h.extendBlock extendSupport key size offset maxExtendTimes
    exact ⟨s', by simp [Manager.store, heq, Except.map], hs⟩
  | delBlock key =>
    obtain ⟨ret, s', heq, hs⟩ := h.delBlock key
    exact ⟨s', by simp [Manager.store, heq, Except.map], hs⟩
  | writeRawData key offset buf =>
    obtain ⟨ret, s', heq, hs⟩ := h.writeRawData extendSupport hop.1 offset buf
    exact ⟨s', by simp [Manager.store, heq, Except.map], hs⟩

theorem Manager.Stored.runStore {sb : SuperBlock} {s : Manager} (h : s.Stored sb)
    (extendSupport : Bool) {extendBlockSize : ℤ} (ops : List StoreOp)
    (hops : ∀ op ∈ ops, op.InRange extendBlockSize) :
    ∃ s', s.runStore extendSupport ops = .ok s' ∧ s'.Stored sb := by
  induction ops generalizing s with
  | nil => exact ⟨s, rfl, h⟩
  | cons op ops ih =>
    obtain ⟨s₁, heq, h₁⟩ := h.store extendSupport op (hops op List.mem_cons_self)
    simp only [Manager.runStore, heq]
    exact ih h₁ fun o ho => hops o (List.mem_cons_of_mem _ ho)

theorem fresh_onDisk {sb : SuperBlock} (ht : sb.tagged = true) : (Manager.fresh sb).OnDisk := by
  refine ⟨rfl, ht, rfl, rfl, ?_, ?_, fun _ => rfl, ?_, ?_, ?_⟩
  · intro id
    unfold Disk.prefixOf Manager.fresh format SuperBlock.isMain
    by_cases hid : 1 ≤ id ∧ id ≤ sb.mainBlockCount <;> simp [hid]
  · intro id
    unfold Disk.prefixOf Manager.fresh format SuperBlock.isExtend
    by_cases hid : sb.mainBlockCount + 1 ≤ id ∧ id ≤ sb.mainBlockCount + sb.extendBlockCount <;>
      simp [hid]
  · intro id pb hpb
    cases hpb
  · intro id pb hpb
    cases hpb
  · intro key lb hb
    cases hb

def Memory.inUse (m : Memory) (lo hi : ℕ) : Finset ℕ :=
  (Finset.Icc lo hi).filter fun id => (m.physicalBlocks id).isSome = true

theorem Memory.AllocInv.setBits_eq_inUse {m : Memory} (h : m.AllocInv) (lo hi : ℕ) :
    m.normalBitMap.setBits lo hi = m.inUse lo hi := by
  ext id
  unfold Memory.inUse
  rw [BitMap.mem_setBits, Finset.mem_filter, Finset.mem_Icc, h.bit_iff]

/-- After every history the disk loads: the same keys with the same lists, the same bytes under every
key, no compact block, and counters that count the blocks in use. -/
theorem restart_restores (mainBlockCount extendBlockCount : ℕ) (mainBlockSize extendBlockSize : ℤ)
    (hmain : 0 < mainBlockSize) (hext : extendBlockCount = 0 ∨ 0 < extendBlockSize)
    (extendSupport : Bool) (ops : List StoreOp) (hops : ∀ op ∈ ops, op.InRange extendBlockSize) :
    ∃ s₀ s s', bootstrap (format (SuperBlock.fresh mainBlockCount extendBlockCount mainBlockSize
        extendBlockSize)) = .ok (tfsSuccess, some s₀) ∧
      s₀.runStore extendSupport ops = .ok s ∧
      bootstrap s.disk = .ok (tfsSuccess, some s') ∧
      (∀ key, s'.logicBlocks key = s.logicBlocks key) ∧
      (∀ key offset nbytes, s'.readRawData key offset nbytes = s.readRawData key offset nbytes) ∧
      (∀ key, s'.compactLogicBlocks key = none) ∧
      s'.superBlock.usedBlockCount = (s'.toMemory.inUse 1 mainBlockCount).card ∧
      s'.superBlock.usedExtendBlockCount = (s'.toMemory.inUse (mainBlockCount + 1)
        (mainBlockCount + extendBlockCount)).card := by
  generalize hsb : SuperBlock.fresh mainBlockCount extendBlockCount mainBlockSize extendBlockSize = sb
  have hfresh : (Manager.fresh sb).Stored sb := by
    subst hsb
    exact ⟨fresh_sound hmain hext rfl rfl, fresh_onDisk rfl⟩
  have hcounts : sb.mainBlockCount = mainBlockCount ∧ sb.extendBlockCount = extendBlockCount := by
    subst hsb
    exact ⟨rfl, rfl⟩
  obtain ⟨s, hrun, h⟩ := hfresh.runStore extendSupport ops hops
  have hmc : s.superBlock.mainBlockCount = mainBlockCount := h.sound.layout.1.trans hcounts.1
  have hec : s.superBlock.extendBlockCount = extendBlockCount := h.sound.layout.2.1.trans hcounts.2
  have halloc := h.sound.alloc
  refine ⟨Manager.fresh sb, s, s, bootstrap_format (by subst hsb; rfl), hrun,
    bootstrap_onDisk halloc h.disk, fun _ => rfl, fun _ _ _ => rfl, h.disk.compact, ?_, ?_⟩
  · rw [halloc.used_eq, halloc.setBits_eq_inUse, hmc]
  · rw [halloc.used_extend_eq, halloc.setBits_eq_inUse, hmc, hec]

/-- A block written over its end, another one made and deleted, its place taken again. -/
theorem restart_after_writes :
    ∃ s₀ s s', bootstrap (format (SuperBlock.fresh 2 1 4 4)) = .ok (tfsSuccess, some s₀) ∧
      s₀.runStore true [.newBlock (8, 1), .writeRawData (7, 0) 2 [1, 2, 3], .delBlock (8, 1),
        .writeRawData (9, 0) 0 [5]] = .ok s ∧
      bootstrap s.disk = .ok (tfsSuccess, some s') ∧
      (∀ key, s'.logicBlocks key = s.logicBlocks key) ∧
      s'.readRawData (7, 0) 2 3 = s.readRawData (7, 0) 2 3 := by
  obtain ⟨s₀, s, s', hboot, hrun, hagain, hblocks, hreads, -⟩ := restart_restores 2 1 4 4 (by decide)
    (Or.inr (by decide)) true [.newBlock (8, 1), .writeRawData (7, 0) 2 [1, 2, 3], .delBlock (8, 1),
      .writeRawData (9, 0) 0 [5]]
    (by simp [StoreOp.InRange])
  exact ⟨s₀, s, s', hboot, hrun, hagain, hblocks, hreads _ _ _⟩

end Tefs.DataServer
