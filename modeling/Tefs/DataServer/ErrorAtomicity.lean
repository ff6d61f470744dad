import Tefs.DataServer.Histories

/-! # What a failed write leaves in memory

`new_block`, `new_ext_block` and `del_block` undo their changes by hand when a disk write fails. The
undoing is complete at most points and not at three of them: `rollback_superblock` takes the extend
counter back where `new_block` had raised the main counter, `del_block` stops before the counters
when the bitmap cannot be written, and `new_ext_block` leaves the next pointer of the block before on
the id it gives back.
-/

namespace Tefs.DataServer
set_option autoImplicit false

/-! ## The part of the invariant an error must leave -/

/-- Bits and map agree, the counters count, and next pointers name allocated blocks of their list. -/
structure Memory.Consistent (m : Memory) : Prop where
  bit_iff : ∀ id, m.normalBitMap.test id = true ↔ (m.physicalBlocks id).isSome = true
  used_eq : m.superBlock.usedBlockCount =
    (m.normalBitMap.setBits 1 m.superBlock.mainBlockCount).card
  used_extend_eq : m.superBlock.usedExtendBlockCount =
    (m.normalBitMap.setBits (m.superBlock.mainBlockCount + 1)
      (m.superBlock.mainBlockCount + m.superBlock.extendBlockCount)).card
  next_mem : ∀ side key lb, m.blocksOf side key = some lb → ∀ id ∈ lb.physicalBlockList, ∀ pb,
    m.physicalBlocks id = some pb → pb.blockPrefix.nextPhysicBlockId = 0 ∨
      (m.physicalBlocks pb.blockPrefix.nextPhysicBlockId).isSome = true ∧
        pb.blockPrefix.nextPhysicBlockId ∈ lb.physicalBlockList

theorem Memory.AllocInv.consistent {m : Memory} (h : m.AllocInv) : m.Consistent := by
  refine ⟨h.bit_iff, h.used_eq, h.used_extend_eq, ?_⟩
  intro side key lb hb id hid pb hpb
  rcases (h.blockOk side key lb hb).next_mem id hid pb hpb with hz | hmem
  · exact Or.inl hz
  · exact Or.inr ⟨h.listed_some hb hmem, hmem⟩

def Memory.hasFree (m : Memory) (blockType : BlockType) : Prop :=
  ∃ id, (if blockType = .ext then m.superBlock.isExtend id else m.superBlock.isMain id) ∧
    m.normalBitMap.test id = false ∧ m.errorBitMap.test id = false

theorem findFrom_none {m : Memory} {i count : ℕ} (h : m.findFrom i count = .ok none) (id : ℕ)
    (hi : i ≤ id) (hlt : id < i + count) :
    m.normalBitMap.test id = true ∨ m.errorBitMap.test id = true := by
  induction count generalizing i with
  | zero => omega
  | succ count ih =>
    rw [Memory.findFrom] at h
    by_cases hn : i < m.normalBitMap.itemCount
    · rw [if_pos hn] at h
      cases ht : m.normalBitMap.test i with
      | true =>
        rw [ht, if_pos rfl] at h
        rcases eq_or_lt_of_le hi with rfl | hi
        · exact Or.inl ht
        · exact ih h hi (by omega)
      | false =>
        rw [ht, if_neg (by simp)] at h
        by_cases he : i < m.errorBitMap.itemCount
        · rw [if_pos he] at h
          cases hte : m.errorBitMap.test i with
          | true =>
            rw [hte, if_pos rfl] at h
            rcases eq_or_lt_of_le hi with rfl | hi
            · exact Or.inr hte
            · exact ih h hi (by omega)
          | false => simp [hte] at h
        · simp [he] at h
    · simp [hn] at h

theorem Memory.AllocInv.hasFree_of_found {m : Memory} (h : m.AllocInv) {blockType : BlockType} {id : ℕ}
    (hf : m.findAvailBlock blockType = .ok (some id)) : m.hasFree blockType := by
  obtain ⟨o, ho, hspec⟩ := findAvailBlock_ok h.normal_items h.error_items blockType
  rw [hf] at ho
  cases ho
  exact ⟨id, hspec id rfl⟩

theorem not_hasFree_of_none {m : Memory} {blockType : BlockType}
    (hf : m.findAvailBlock blockType = .ok none) : ¬ m.hasFree blockType := by
  rintro ⟨id, hr, hn, he⟩
  unfold Memory.findAvailBlock at hf
  have hset : m.normalBitMap.test id = true ∨ m.errorBitMap.test id = true := by
    by_cases hb : blockType = .ext
    · rw [if_pos hb] at hf hr
      exact findFrom_none hf id hr.1 (by have := hr.2; omega)
    · rw [if_neg hb] at hf hr
      exact findFrom_none hf id hr.1 (by have := hr.2; omega)
  simp [hn, he] at hset

/-! ## The operations and their bad points -/

inductive BlockOp where
  | newBlock (key : Key) (blockType : BlockType)
  | newExtBlock (key : Key) (physicalBlockId : ℕ)
  | delBlock (key : Key) (blockType : BlockType)
  deriving DecidableEq, Repr

def Manager.perform (s : Manager) (io : Io) : BlockOp → Except Abort (ℤ × Manager)
  | .newBlock key blockType => s.newBlock io key blockType
  | .newExtBlock key id => (s.newExtBlock io key id).map fun r => (r.1, r.2.2)
  | .delBlock key blockType => s.delBlock io key blockType

/-- `new_ext_block` is called by `extend_block` of a logic block, for a block of its list. -/
def BlockOp.CalledFor (m : Memory) : BlockOp → Prop
  | .newExtBlock key id => ∃ side lb, m.blocksOf side key = some lb ∧ id ∈ lb.physicalBlockList
  | _ => True

/-- The failures whose clean-up is wrong. -/
def BlockOp.Mishandled (m : Memory) (io : Io) : BlockOp → Prop
  | .newBlock key blockType =>
    m.blocksOf blockType.selected key = none ∧ m.hasFree .main ∧ io .dumpPrefix = none ∧
      io .writeBitMap = none ∧ (io .writeSuperBlk ≠ none ∨ io .flushFile ≠ none)
  | .newExtBlock key _ =>
    m.logicBlocks key ≠ none ∧ m.hasFree .ext ∧ io .writeBitMap = none ∧ io .writeSuperBlk = none ∧
      io .flushFile = none ∧ io .dumpPrefix = none ∧ io .dumpPrevPrefix ≠ none
  | .delBlock key blockType =>
    (∃ side, blockType.side = some side ∧ m.blocksOf side key ≠ none) ∧ io .writeBitMap ≠ none

/-- What the caller of a failed operation may find. -/
def Memory.Restored (m m' : Memory) : Prop := m' = m ∨ m'.Consistent

section Cases

variable {s s' : Manager}

theorem not_restored_miscounted (h : s.toMemory.AllocInv)
    (mem : s'.toMemory = { s.toMemory with superBlock := s.superBlock.addMain.subExtend }) :
    ¬ s.toMemory.Restored s'.toMemory := by
  have hcount : s'.superBlock.usedBlockCount = s.superBlock.usedBlockCount + 1 := by
    rw [mem]
    rfl
  rintro (heq | hc)
  · rw [heq] at hcount
    omega
  · have hused := hc.used_eq
    rw [hcount, mem] at hused
    have := h.used_eq
    change s.superBlock.usedBlockCount + 1 =
      ((s.normalBitMap.setBits 1 s.superBlock.mainBlockCount).card : ℤ) at hused
    omega

theorem not_restored_uncounted (h : s.toMemory.AllocInv) {side : Side} {key : Key} {lb : LogicBlock}
    (hb : s.toMemory.blocksOf side key = some lb)
    (mem : s'.toMemory = s.toMemory.erased side key lb) : ¬ s.toMemory.Restored s'.toMemory := by
  rintro (heq | hc)
  · rw [heq] at mem
    have hnone : (s.toMemory.erased side key lb).blocksOf side key = none := by simp
    rw [← mem, hb] at hnone
    cases hnone
  · have hcard := BitMap.card_setBits_resetAll (h.list_nodup hb)
      (fun id hid => h.allocated_lt (h.listed_some hb hid))
      (fun id hid => (h.bit_iff id).mpr (h.listed_some hb hid)) 1 s.superBlock.mainBlockCount
    have hone := (h.blockOk side key lb hb).countP_range.1
    have hused := hc.used_eq
    rw [mem, erased_superBlock, erased_normalBitMap] at hused
    have := h.used_eq
    omega

theorem not_restored_dangling (h : s.toMemory.AllocInv) {side : Side} {key : Key} {lb : LogicBlock}
    (hb : s.toMemory.blocksOf side key = some lb) {last id : ℕ} (hlast : last ∈ lb.physicalBlockList)
    {prev : PhysicalBlock} (hp : s.physicalBlocks last = some prev)
    (hf : s.toMemory.findAvailBlock .ext = .ok (some id))
    (mem : s'.toMemory = s.toMemory.insertPhysical last (prev.withNext id)) :
    ¬ s.toMemory.Restored s'.toMemory := by
  obtain ⟨o, ho, hspec⟩ := findAvailBlock_ok h.normal_items h.error_items .ext
  rw [hf] at ho
  cases ho
  obtain ⟨hid, ht, -⟩ := hspec id rfl
  rw [if_pos rfl] at hid
  have hne : id ≠ 0 := by
    have := hid.1
    omega
  have hnot : id ∉ lb.physicalBlockList := fun hmem => h.listed_ne ht hb hmem rfl
  have hphys : s'.physicalBlocks last = some (prev.withNext id) := by
    rw [mem]
    exact Function.update_self _ _ _
  rintro (heq | hc)
  · rw [heq, hp] at hphys
    have hnext : prev.blockPrefix.nextPhysicBlockId = id := by
      rw [Option.some.inj hphys]
      rfl
    rcases (h.blockOk side key lb hb).next_mem last hlast prev hp with hz | hmem
    · exact hne (hnext.symm.trans hz)
    · exact hnot (hnext ▸ hmem)
  · have hb' : s'.toMemory.blocksOf side key = some lb := by
      rw [mem]
      cases side <;> exact hb
    rcases hc.next_mem side key lb hb' last hlast _ hphys with hz | ⟨-, hmem⟩
    · exact hne hz
    · exact hnot hmem

end Cases

/-! ## The exact condition -/

theorem newBlock_restored_iff {s : Manager} (h : s.toMemory.AllocInv) (io : Io) (key : Key)
    (blockType : BlockType) :
    ∃ ret s', s.perform io (.newBlock key blockType) = .ok (ret, s') ∧
      ((ret ≠ tfsSuccess → s.toMemory.Restored s'.toMemory) ↔
        ¬ (BlockOp.newBlock key blockType).Mishandled s.toMemory io) := by
  obtain ⟨ret, s', heq, hstep⟩ := newBlock_step h io key blockType
  refine ⟨ret, s', heq, ?_⟩
  cases hstep with
  | exist hex =>
    refine ⟨fun _ hm => ?_, fun _ _ => Or.inl rfl⟩
    simp [hm.1] at hex
  | exhaust hn hf => exact ⟨fun _ hm => not_hasFree_of_none hf hm.2.1, fun _ _ => Or.inl rfl⟩
  | undone e s' id hn hf hat mem =>
    refine ⟨fun _ hm => ?_, fun _ _ => Or.inl mem⟩
    rcases hat with hat | ⟨-, hat⟩
    · simp [hm.2.2.1] at hat
    · simp [hm.2.2.2.1] at hat
  | miscounted e s' id hn hf dump bitMap hat mem =>
    refine ⟨fun hr => absurd (hr e.code_ne) (not_restored_miscounted h mem), fun hm => ?_⟩
    refine absurd ⟨hn, h.hasFree_of_found hf, dump, bitMap, ?_⟩ hm
    rcases hat with hat | ⟨-, hat⟩
    · exact Or.inl (by simp [hat])
    · exact Or.inr (by simp [hat])
  | done id s' hn hf dump bitMap super flush mem disk =>
    refine ⟨fun _ hm => ?_, fun _ hne => absurd rfl hne⟩
    rcases hm.2.2.2.2 with hm | hm
    · exact hm super
    · exact hm flush

theorem newExtBlock_restored_iff {s : Manager} (h : s.toMemory.AllocInv) (io : Io) {key : Key}
    {last : ℕ} (hcall : (BlockOp.newExtBlock key last).CalledFor s.toMemory) :
    ∃ ret s', s.perform io (.newExtBlock key last) = .ok (ret, s') ∧
      ((ret ≠ tfsSuccess → s.toMemory.Restored s'.toMemory) ↔
        ¬ (BlockOp.newExtBlock key last).Mishandled s.toMemory io) := by
  obtain ⟨side, lb, hb, hlast⟩ := hcall
  obtain ⟨ret, id, s', heq, hstep⟩ := newExtBlock_step h io hb hlast
  refine ⟨ret, s', by simp [Manager.perform, heq, Except.map], ?_⟩
  cases hstep with
  | refused _ hret hno =>
    refine ⟨fun _ hm => ?_, fun _ _ => Or.inl rfl⟩
    rcases hno with hno | hno
    · exact hm.1 hno
    · exact not_hasFree_of_none hno hm.2.1
  | undone e s' id hl hf hat mem =>
    refine ⟨fun _ hm => ?_, fun _ _ => Or.inl mem⟩
    obtain ⟨-, -, hbm, hsb, hfl, hd, -⟩ := hm
    simp [hbm, hsb, hfl, hd] at hat
  | dangling e s' id prev hl hf hp bitMap super flush dump hat mem =>
    refine ⟨fun hr => absurd (hr e.code_ne) (not_restored_dangling h hb hlast hp hf mem),
      fun hm => ?_⟩
    exact absurd ⟨hl, h.hasFree_of_found hf, bitMap, super, flush, dump, by simp [hat]⟩ hm
  | done id s' prev hl hf hp bitMap super flush dump dumpPrev mem disk =>
    exact ⟨fun _ hm => hm.2.2.2.2.2.2 dumpPrev, fun _ hne => absurd rfl hne⟩

theorem delBlock_restored_iff {s : Manager} (h : s.toMemory.AllocInv) (io : Io) (key : Key)
    (blockType : BlockType) :
    ∃ ret s', s.perform io (.delBlock key blockType) = .ok (ret, s') ∧
      ((ret ≠ tfsSuccess → s.toMemory.Restored s'.toMemory) ↔
        ¬ (BlockOp.delBlock key blockType).Mishandled s.toMemory io) := by
  cases hside : blockType.side with
  | none =>
    refine ⟨_, s, delBlock_no_side s io key hside, fun _ hm => ?_, fun _ _ => Or.inl rfl⟩
    obtain ⟨⟨side, hs, -⟩, -⟩ := hm
    simp [hside] at hs
  | some side =>
    obtain ⟨ret, s', heq, hstep⟩ := delBlock_step h io key hside
    refine ⟨ret, s', heq, ?_⟩
    cases hstep with
    | missing hn =>
      refine ⟨fun _ hm => ?_, fun _ _ => Or.inl rfl⟩
      obtain ⟨⟨side', hs, hb⟩, -⟩ := hm
      rw [hside] at hs
      cases hs
      exact hb hn
    | uncounted e s' lb hb bitMap mem =>
      refine ⟨fun hr => absurd (hr e.code_ne) (not_restored_uncounted h hb mem), fun hm => ?_⟩
      exact absurd ⟨⟨side, hside, by simp [hb]⟩, by simp [bitMap]⟩ hm
    | late e s' lb hb bitMap hat mem =>
      refine ⟨fun _ hm => hm.2 bitMap, fun _ _ => Or.inr ?_⟩
      rw [mem]
      exact (h.without hb).consistent
    | done s' lb hb bitMap mem disk =>
      exact ⟨fun _ hm => hm.2 bitMap, fun _ hne => absurd rfl hne⟩

/-- From every state with the allocation invariant and for every choice of failing writes, an
operation that returns an error leaves memory as it was or consistent, exactly when the failure is not
one of the three the clean-up gets wrong. -/
theorem failed_op_restores_iff (s : Manager) (h : s.toMemory.AllocInv) (io : Io) (op : BlockOp)
    (hcall : op.CalledFor s.toMemory) :
    ∃ ret s', s.perform io op = .ok (ret, s') ∧
      ((ret ≠ tfsSuccess → s'.toMemory = s.toMemory ∨ s'.toMemory.Consistent) ↔
        ¬ op.Mishandled s.toMemory io) := by
  cases op with
  | newBlock key blockType => exact newBlock_restored_iff h io key blockType
  | newExtBlock key last => exact newExtBlock_restored_iff h io hcall
  | delBlock key blockType => exact delBlock_restored_iff h io key blockType

def superBlkFails (sb : SuperBlock) : Io := fun p =>
  if p = .writeSuperBlk then some { code := -5, code_ne := by decide, disk := format sb } else none

def bitMapFails (sb : SuperBlock) : Io := fun p =>
  if p = .writeBitMap then some { code := -5, code_ne := by decide, disk := format sb } else none

/-- `new_block` on a new file system whose bitmap write fails gives the state back. -/
theorem newBlock_restored_bitMapFails :
    ∃ ret s', (Manager.fresh (SuperBlock.fresh 2 1 100 50)).perform
        (bitMapFails (SuperBlock.fresh 2 1 100 50)) (.newBlock (7, 0) .main) = .ok (ret, s') ∧
      (ret ≠ tfsSuccess → s'.toMemory = (Manager.fresh (SuperBlock.fresh 2 1 100 50)).toMemory ∨
        s'.toMemory.Consistent) := by
  obtain ⟨ret, s', heq, hiff⟩ := failed_op_restores_iff (Manager.fresh (SuperBlock.fresh 2 1 100 50))
    (fresh_sound (by decide) (Or.inr (by decide)) rfl rfl).alloc
    (bitMapFails (SuperBlock.fresh 2 1 100 50)) (.newBlock (7, 0) .main) trivial
  refine ⟨ret, s', heq, hiff.mpr ?_⟩
  rintro ⟨-, -, -, hbm, -⟩
  simp [bitMapFails] at hbm

/-- `new_block` on a new file system whose super block write fails: an error is returned, no main
block is allocated, and the counters say one main and minus one extend block. -/
theorem newBlock_miscounts_superBlkFails :
    ∃ s', (Manager.fresh (SuperBlock.fresh 2 1 100 50)).perform
        (superBlkFails (SuperBlock.fresh 2 1 100 50)) (.newBlock (7, 0) .main) = .ok (-5, s') ∧
      s'.superBlock.usedBlockCount = 1 ∧ s'.superBlock.usedExtendBlockCount = -1 ∧
      s'.normalBitMap.setBits 1 2 = ∅ ∧
      s'.toMemory ≠ (Manager.fresh (SuperBlock.fresh 2 1 100 50)).toMemory ∧
      ¬ s'.toMemory.Consistent := by
  refine ⟨_, rfl, by decide, by decide, by decide, ?_, ?_⟩
  · intro heq
    have hcount := congrArg (fun m => m.superBlock.usedBlockCount) heq
    revert hcount
    decide
  · intro hc
    have hused := hc.used_eq
    revert hused
    decide

end Tefs.DataServer
