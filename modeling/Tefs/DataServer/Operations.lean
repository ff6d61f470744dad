import Tefs.DataServer.Allocation

/-! # What the operations do

One inversion lemma for each of `new_block`, `del_block` and `new_ext_block`: from a state with the
allocation invariant, whatever disk writes fail, the operation does not abort, and it ends in one of
a few ways that its step relation lists. The invariant of a run, the state a failure leaves and the
disk a restart finds are all read off these relations.
-/

namespace Tefs.DataServer
set_option autoImplicit false

/-! ## Writing through -/

def Manager.committed (s : Manager) (sb : SuperBlock) : Disk :=
  { s.disk with
    superBlock := (sb, sb),
    normalBitMap := (s.normalBitMap.data, s.normalBitMap.data),
    errorBitMap := (s.errorBitMap.data, s.errorBitMap.data) }

/-- A commit fails at the bitmap, fails later with the counters changed, or goes through. -/
theorem commit_cases (s : Manager) (io : Io) (count : SuperBlock → SuperBlock) :
    (∃ e, io .writeBitMap = some e ∧
        s.commit io count = (e.code, false, { s with disk := e.disk })) ∨
      (io .writeBitMap = none ∧ ∃ e, (io .writeSuperBlk = some e ∨
          io .writeSuperBlk = none ∧ io .flushFile = some e) ∧
        s.commit io count =
          (e.code, true, { s with superBlock := count s.superBlock, disk := e.disk })) ∨
      (io .writeBitMap = none ∧ io .writeSuperBlk = none ∧ io .flushFile = none ∧
        s.commit io count = (tfsSuccess, true, { s with
          superBlock := count s.superBlock, disk := s.committed (count s.superBlock) })) := by
  unfold Manager.commit Manager.writeBitMap Manager.writeSuperBlk Manager.flushFile
  cases h₁ : io .writeBitMap with
  | some e =>
    refine Or.inl ⟨e, rfl, ?_⟩
    simp [Manager.write, tfsSuccess, e.code_ne]
  | none =>
    cases h₂ : io .writeSuperBlk with
    | some e =>
      refine Or.inr (Or.inl ⟨rfl, e, Or.inl rfl, ?_⟩)
      simp [Manager.write, tfsSuccess, e.code_ne]
    | none =>
      cases h₃ : io .flushFile with
      | some e =>
        refine Or.inr (Or.inl ⟨rfl, e, Or.inr ⟨rfl, rfl⟩, ?_⟩)
        simp [Manager.write, tfsSuccess]
      | none =>
        refine Or.inr (Or.inr ⟨rfl, rfl, rfl, ?_⟩)
        simp [Manager.write, tfsSuccess, Manager.committed]

@[simp] theorem write_toMemory (s : Manager) (failure : Option IoFailure) (f : Disk → Disk) :
    (s.write failure f).2.toMemory = s.toMemory := by
  cases failure <;> rfl

/-- The clean-up finds the bit set, clears it, and takes the extend counter back if told to. -/
theorem giveUp_ok (s : Manager) (io : Io) {id : ℕ} (flag : Bool) (ret : ℤ)
    (hlt : id < s.normalBitMap.itemCount) (ht : s.normalBitMap.test id = true) :
    ∃ s', s.giveUp io id flag ret = .ok (ret, s') ∧
      s'.toMemory = { s.toMemory with
        normalBitMap := s.normalBitMap.reset id,
        superBlock := if flag then s.superBlock.subExtend else s.superBlock } := by
  unfold Manager.giveUp Manager.rollbackSuperblock
  rw [if_pos hlt, if_pos ht]
  refine ⟨_, rfl, ?_⟩
  unfold Manager.writeBitMap Manager.writeSuperBlk Manager.flushFile
  cases flag with
  | false => simp only [write_toMemory, Bool.false_eq_true, if_false]
  | true => simp only [write_toMemory, if_true]

/-! ## `new_block` -/

def Disk.dumped (d : Disk) (id : ℕ) (pb : PhysicalBlock) : Disk :=
  d.updateFile pb.blockType id fun f => { f with blockPrefix := pb.blockPrefix }

inductive NewBlockStep (s : Manager) (io : Io) (side : Side) (key : Key) : ℤ → Manager → Prop
  | exist (h : (s.toMemory.blocksOf side key).isSome = true) :
      NewBlockStep s io side key exitBlockExistError s
  | exhaust (hn : s.toMemory.blocksOf side key = none)
      (hf : s.toMemory.findAvailBlock .main = .ok none) :
      NewBlockStep s io side key exitBlockExhaustError s
  | undone (e : IoFailure) (s' : Manager) (id : ℕ) (hn : s.toMemory.blocksOf side key = none)
      (hf : s.toMemory.findAvailBlock .main = .ok (some id))
      (at_ : io .dumpPrefix = some e ∨ io .dumpPrefix = none ∧ io .writeBitMap = some e)
      (mem : s'.toMemory = s.toMemory) : NewBlockStep s io side key e.code s'
  -- The rollback takes the wrong counter back.
  | miscounted (e : IoFailure) (s' : Manager) (id : ℕ) (hn : s.toMemory.blocksOf side key = none)
      (hf : s.toMemory.findAvailBlock .main = .ok (some id)) (dump : io .dumpPrefix = none)
      (bitMap : io .writeBitMap = none)
      (at_ : io .writeSuperBlk = some e ∨ io .writeSuperBlk = none ∧ io .flushFile = some e)
      (mem : s'.toMemory = { s.toMemory with superBlock := s.superBlock.addMain.subExtend }) :
      NewBlockStep s io side key e.code s'
  | done (id : ℕ) (s' : Manager) (hn : s.toMemory.blocksOf side key = none)
      (hf : s.toMemory.findAvailBlock .main = .ok (some id)) (dump : io .dumpPrefix = none)
      (bitMap : io .writeBitMap = none) (super : io .writeSuperBlk = none)
      (flush : io .flushFile = none)
      (mem : s'.toMemory = s.toMemory.withMain side key id (s.superBlock.mainBlock key))
      (disk : s'.disk = { s.disk.dumped id (s.superBlock.mainBlock key) with
        superBlock := (s.superBlock.addMain, s.superBlock.addMain),
        normalBitMap := ((s.normalBitMap.set id).data, (s.normalBitMap.set id).data),
        errorBitMap := (s.errorBitMap.data, s.errorBitMap.data) }) :
      NewBlockStep s io side key tfsSuccess s'

theorem dumpBlockPrefix_cases (s : Manager) (failure : Option IoFailure) (id : ℕ)
    (pb : PhysicalBlock) :
    (∃ e, failure = some e ∧ s.dumpBlockPrefix failure id pb = (e.code, { s with disk := e.disk })) ∨
      (failure = none ∧ s.dumpBlockPrefix failure id pb =
        (tfsSuccess, { s with disk := s.disk.dumped id pb })) := by
  cases failure with
  | none => exact Or.inr ⟨rfl, rfl⟩
  | some e => exact Or.inl ⟨e, rfl, rfl⟩

/-- Steps 6 to 11 for a free id: the rollbacks find the bit set and clear it again. -/
theorem allocateMain_cases (s : Manager) (io : Io) (side : Side) (key : Key) {id : ℕ}
    (pb : PhysicalBlock) (hlt : id < s.normalBitMap.itemCount)
    (ht : s.normalBitMap.test id = false) :
    (∃ e s', io .writeBitMap = some e ∧ s.allocateMain io side key id pb = .ok (e.code, s') ∧
        s'.toMemory = s.toMemory) ∨
      (io .writeBitMap = none ∧ ∃ e s', (io .writeSuperBlk = some e ∨
          io .writeSuperBlk = none ∧ io .flushFile = some e) ∧
        s.allocateMain io side key id pb = .ok (e.code, s') ∧
        s'.toMemory = { s.toMemory with superBlock := s.superBlock.addMain.subExtend }) ∨
      (io .writeBitMap = none ∧ io .writeSuperBlk = none ∧ io .flushFile = none ∧
        ∃ s', s.allocateMain io side key id pb = .ok (tfsSuccess, s') ∧
          s'.toMemory = s.toMemory.withMain side key id pb ∧
          s'.disk = { s.disk with
            superBlock := (s.superBlock.addMain, s.superBlock.addMain),
            normalBitMap := ((s.normalBitMap.set id).data, (s.normalBitMap.set id).data),
            errorBitMap := (s.errorBitMap.data, s.errorBitMap.data) }) := by
  have hset : (s.normalBitMap.set id).test id = true := by simp [BitMap.test_set hlt]
  have hback : (s.normalBitMap.set id).reset id = s.normalBitMap := BitMap.reset_set hlt ht
  unfold Manager.allocateMain
  rw [if_pos hlt]
  dsimp only
  rcases commit_cases { s with normalBitMap := s.normalBitMap.set id } io SuperBlock.addMain with
    ⟨e, hb, hc⟩ | ⟨hb, e, hat, hc⟩ | ⟨hb, hs, hf, hc⟩
  · obtain ⟨s', hs', hm⟩ := giveUp_ok { s with
      normalBitMap := s.normalBitMap.set id, disk := e.disk } io false e.code hlt hset
    refine Or.inl ⟨e, s', hb, ?_, ?_⟩
    · simp only [hc, tfsSuccess, ne_eq, e.code_ne, not_false_eq_true, if_true, hs']
    · rw [hm]
      simp only [hback, Bool.false_eq_true, if_false]
  · obtain ⟨s', hs', hm⟩ := giveUp_ok { s with
      superBlock := s.superBlock.addMain, normalBitMap := s.normalBitMap.set id,
      disk := e.disk } io true e.code hlt hset
    refine Or.inr (Or.inl ⟨hb, e, s', hat, ?_, ?_⟩)
    · simp only [hc, tfsSuccess, ne_eq, e.code_ne, not_false_eq_true, if_true, hs']
    · rw [hm]
      simp only [hback, if_true]
  · refine Or.inr (Or.inr ⟨hb, hs, hf, _, by simp only [hc, ne_eq, not_true, if_false]; rfl, rfl, rfl⟩)

theorem newBlock_step {s : Manager} (h : s.toMemory.AllocInv) (io : Io) (key : Key)
    (blockType : BlockType) :
    ∃ ret s', s.newBlock io key blockType = .ok (ret, s') ∧
      NewBlockStep s io blockType.selected key ret s' := by
  unfold Manager.newBlock
  generalize blockType.selected = side
  by_cases hex : (s.toMemory.blocksOf side key).isSome = true
  · exact ⟨_, _, if_pos hex, .exist hex⟩
  rw [if_neg hex]
  have hn : s.toMemory.blocksOf side key = none := by simpa using hex
  obtain ⟨o, ho, hspec⟩ := findAvailBlock_ok h.normal_items h.error_items .main
  cases o with
  | none => exact ⟨_, _, by rw [ho], .exhaust hn ho⟩
  | some id =>
    obtain ⟨hid, ht, -⟩ := hspec id rfl
    rw [if_neg (by decide)] at hid
    have hlt : id < s.normalBitMap.itemCount := h.normal_items ▸ hid.lt
    simp only [ho]
    rw [if_neg (h.not_allocated ht), if_pos h.main_size]
    rcases dumpBlockPrefix_cases s (io .dumpPrefix) id (s.superBlock.mainBlock key) with
      ⟨e, he, hd⟩ | ⟨he, hd⟩
    · rw [hd]
      exact ⟨_, _, if_pos e.code_ne, .undone e _ id hn ho (Or.inl he) rfl⟩
    · rw [hd]
      simp only [ne_eq, not_true, if_false]
      rcases allocateMain_cases { s with disk := s.disk.dumped id (s.superBlock.mainBlock key) } io side
          key (s.superBlock.mainBlock key) hlt ht with
        ⟨e, s', hb, heq, hm⟩ | ⟨hb, e, s', hat, heq, hm⟩ | ⟨hb, hs, hf, s', heq, hm, hdisk⟩
      · exact ⟨_, s', heq, .undone e s' id hn ho (Or.inr ⟨he, hb⟩) hm⟩
      · exact ⟨_, s', heq, .miscounted e s' id hn ho he hb hat hm⟩
      · exact ⟨_, s', heq, .done id s' hn ho he hb hs hf hm hdisk⟩

/-! ## `del_block` -/

inductive DelBlockStep (s : Manager) (io : Io) (side : Side) (key : Key) : ℤ → Manager → Prop
  | missing (hn : s.toMemory.blocksOf side key = none) :
      DelBlockStep s io side key exitNoLogicBlockError s
  -- The block is gone, the counters are not changed.
  | uncounted (e : IoFailure) (s' : Manager) (lb : LogicBlock)
      (hb : s.toMemory.blocksOf side key = some lb) (bitMap : io .writeBitMap = some e)
      (mem : s'.toMemory = s.toMemory.erased side key lb) : DelBlockStep s io side key e.code s'
  | late (e : IoFailure) (s' : Manager) (lb : LogicBlock)
      (hb : s.toMemory.blocksOf side key = some lb) (bitMap : io .writeBitMap = none)
      (at_ : io .writeSuperBlk = some e ∨ io .writeSuperBlk = none ∧ io .flushFile = some e)
      (mem : s'.toMemory = s.toMemory.without side key lb) : DelBlockStep s io side key e.code s'
  | done (s' : Manager) (lb : LogicBlock) (hb : s.toMemory.blocksOf side key = some lb)
      (bitMap : io .writeBitMap = none)
      (mem : s'.toMemory = s.toMemory.without side key lb)
      (disk : s'.disk = { s.disk with
        superBlock := (s'.superBlock, s'.superBlock),
        normalBitMap := (s'.normalBitMap.data, s'.normalBitMap.data),
        errorBitMap := (s'.errorBitMap.data, s'.errorBitMap.data) }) :
      DelBlockStep s io side key tfsSuccess s'

theorem delBlock_found {s : Manager} (io : Io) {key : Key} {blockType : BlockType} {side : Side}
    (hside : blockType.side = some side) {lb : LogicBlock}
    (hb : s.toMemory.blocksOf side key = some lb) (hne : lb.physicalBlockList ≠ [])
    (hn : lb.physicalBlockList.Nodup)
    (hsome : ∀ id ∈ lb.physicalBlockList, (s.physicalBlocks id).isSome = true)
    (hlt : ∀ id ∈ lb.physicalBlockList, id < s.normalBitMap.itemCount) :
    ∃ ret s', s.delBlock io key blockType = .ok (ret, s') ∧ DelBlockStep s io side key ret s' := by
  unfold Manager.delBlock
  have herase := erasePhysical_ok hn hsome hlt
  simp only [hside, hb, if_neg hne, herase]
  change ∃ ret s', Except.ok
    ((Manager.commit (s.onMemory fun _ => s.toMemory.erased side key lb) io
      fun sb => sb.remove lb.physicalBlockList.length).1,
    (Manager.commit (s.onMemory fun _ => s.toMemory.erased side key lb) io
      fun sb => sb.remove lb.physicalBlockList.length).2.2) = Except.ok (ret, s') ∧ _
  rcases commit_cases (s.onMemory fun _ => s.toMemory.erased side key lb) io
      (fun sb => sb.remove lb.physicalBlockList.length) with
    ⟨e, hbm, hc⟩ | ⟨hbm, e, hat, hc⟩ | ⟨hbm, -, -, hc⟩
  · rw [hc]
    exact ⟨_, _, rfl, .uncounted e _ lb hb hbm rfl⟩
  · rw [hc]
    refine ⟨_, _, rfl, .late e _ lb hb hbm hat ?_⟩
    simp [Memory.without, Manager.onMemory]
  · rw [hc]
    refine ⟨_, _, rfl, .done _ lb hb hbm ?_ rfl⟩
    simp [Memory.without, Manager.onMemory]

theorem delBlock_step {s : Manager} (h : s.toMemory.AllocInv) (io : Io) (key : Key)
    {blockType : BlockType} {side : Side} (hside : blockType.side = some side) :
    ∃ ret s', s.delBlock io key blockType = .ok (ret, s') ∧ DelBlockStep s io side key ret s' := by
  cases hb : s.toMemory.blocksOf side key with
  | none => exact ⟨_, _, by simp only [Manager.delBlock, hside, hb], .missing hb⟩
  | some lb =>
    have hne : lb.physicalBlockList ≠ [] := by
      obtain ⟨main, exts, he, -⟩ := (h.blockOk side key lb hb).shape
      simp [he]
    exact delBlock_found io hside hb hne (h.list_nodup hb) (fun id hid => h.listed_some hb hid)
      fun id hid => h.allocated_lt (h.listed_some hb hid)

theorem delBlock_no_side (s : Manager) (io : Io) (key : Key) {blockType : BlockType}
    (hside : blockType.side = none) :
    s.delBlock io key blockType = .ok (exitNoLogicBlockError, s) := by
  unfold Manager.delBlock
  rw [hside]

/-! ## `new_ext_block` -/

/-- Memory when `new_ext_block` returns success: the new block is in no list yet. -/
def Memory.withLooseExt (m : Memory) (last id : ℕ) (prev pb : PhysicalBlock) : Memory :=
  ({ m with normalBitMap := m.normalBitMap.set id,
            superBlock := m.superBlock.addExtend }.insertPhysical last
    (prev.withNext id)).insertPhysical id pb

def Manager.extended (s : Manager) (key : Key) (last id : ℕ) (prev : PhysicalBlock) : Disk :=
  (Disk.dumped { s.disk with
    superBlock := (s.superBlock.addExtend, s.superBlock.addExtend),
    normalBitMap := ((s.normalBitMap.set id).data, (s.normalBitMap.set id).data),
    errorBitMap := (s.errorBitMap.data, s.errorBitMap.data) } id
      (s.superBlock.extendBlock key last)).dumped last (prev.withNext id)

inductive NewExtStep (s : Manager) (io : Io) (key : Key) (last : ℕ) : ℤ → ℕ → Manager → Prop
  | refused (ret : ℤ) (hret : ret ≠ tfsSuccess)
      (hno : s.logicBlocks key = none ∨ s.toMemory.findAvailBlock .ext = .ok none) :
      NewExtStep s io key last ret 0 s
  | undone (e : IoFailure) (s' : Manager) (id : ℕ) (hl : s.logicBlocks key ≠ none)
      (hf : s.toMemory.findAvailBlock .ext = .ok (some id))
      (at_ : io .writeBitMap = some e ∨ io .writeBitMap = none ∧ (io .writeSuperBlk = some e ∨
        io .writeSuperBlk = none ∧ (io .flushFile = some e ∨
          io .flushFile = none ∧ io .dumpPrefix = some e)))
      (mem : s'.toMemory = s.toMemory) : NewExtStep s io key last e.code id s'
  -- The next pointer of the block before stays on the id that is given back.
  | dangling (e : IoFailure) (s' : Manager) (id : ℕ) (prev : PhysicalBlock)
      (hl : s.logicBlocks key ≠ none) (hf : s.toMemory.findAvailBlock .ext = .ok (some id))
      (hp : s.physicalBlocks last = some prev) (bitMap : io .writeBitMap = none)
      (super : io .writeSuperBlk = none) (flush : io .flushFile = none) (dump : io .dumpPrefix = none)
      (at_ : io .dumpPrevPrefix = some e)
      (mem : s'.toMemory = s.toMemory.insertPhysical last (prev.withNext id)) :
      NewExtStep s io key last e.code id s'
  | done (id : ℕ) (s' : Manager) (prev : PhysicalBlock) (hl : s.logicBlocks key ≠ none)
      (hf : s.toMemory.findAvailBlock .ext = .ok (some id)) (hp : s.physicalBlocks last = some prev)
      (bitMap : io .writeBitMap = none) (super : io .writeSuperBlk = none)
      (flush : io .flushFile = none) (dump : io .dumpPrefix = none) (dumpPrev : io .dumpPrevPrefix = none)
      (mem : s'.toMemory = s.toMemory.withLooseExt last id prev (s.superBlock.extendBlock key last))
      (disk : s'.disk = s.extended key last id prev) : NewExtStep s io key last tfsSuccess id s'

theorem addExtend_subExtend (sb : SuperBlock) : sb.addExtend.subExtend = sb := by
  simp [SuperBlock.addExtend, SuperBlock.subExtend]

/-- Steps 10 to 12: a failed dump of the new block is taken back, one of the block before is not. -/
theorem linkExt_cases (s : Manager) (io : Io) (last : ℕ) {id : ℕ} (prev pb : PhysicalBlock)
    (hlt : id < s.normalBitMap.itemCount) (ht : s.normalBitMap.test id = true) :
    (∃ e s', io .dumpPrefix = some e ∧ s.linkExt io last id prev pb = .ok (e.code, s') ∧
        s'.toMemory = { s.toMemory with
          normalBitMap := s.normalBitMap.reset id, superBlock := s.superBlock.subExtend }) ∨
      (io .dumpPrefix = none ∧ ∃ e s', io .dumpPrevPrefix = some e ∧
        s.linkExt io last id prev pb = .ok (e.code, s') ∧
        s'.toMemory = Memory.insertPhysical { s.toMemory with
          normalBitMap := s.normalBitMap.reset id, superBlock := s.superBlock.subExtend } last
            (prev.withNext id)) ∨
      (io .dumpPrefix = none ∧ io .dumpPrevPrefix = none ∧
        ∃ s', s.linkExt io last id prev pb = .ok (tfsSuccess, s') ∧
          s'.toMemory = (s.toMemory.insertPhysical last (prev.withNext id)).insertPhysical id pb ∧
          s'.disk = (s.disk.dumped id pb).dumped last (prev.withNext id)) := by
  unfold Manager.linkExt
  rcases dumpBlockPrefix_cases s (io .dumpPrefix) id pb with ⟨e, he, hd⟩ | ⟨he, hd⟩
  · obtain ⟨s', hs', hm⟩ := giveUp_ok { s with disk := e.disk } io true e.code hlt ht
    refine Or.inl ⟨e, s', he, ?_, hm⟩
    simp only [hd, tfsSuccess, ne_eq, e.code_ne, not_false_eq_true, if_true, hs']
  · simp only [hd, ne_eq, not_true, if_false]
    generalize hs₁ : Manager.onMemory { s with disk := s.disk.dumped id pb }
      (fun m => m.insertPhysical last (prev.withNext id)) = s₁
    have hmem : s₁.toMemory = s.toMemory.insertPhysical last (prev.withNext id) := by
      rw [← hs₁]
      rfl
    have hdisk : s₁.disk = s.disk.dumped id pb := by
      rw [← hs₁]
      rfl
    rcases dumpBlockPrefix_cases s₁ (io .dumpPrevPrefix) last (prev.withNext id) with
      ⟨e, he', hd'⟩ | ⟨he', hd'⟩
    · obtain ⟨s', hs', hm⟩ := giveUp_ok { s₁ with disk := e.disk } io true e.code
        (by rw [hmem]; exact hlt) (by rw [hmem]; exact ht)
      refine Or.inr (Or.inl ⟨he, e, s', he', ?_, ?_⟩)
      · simp only [hd', tfsSuccess, e.code_ne, not_false_eq_true, if_true, hs']
      · rw [hm, hmem]
        rfl
    · refine Or.inr (Or.inr ⟨he, he', _, by simp only [hd', not_true, if_false]; rfl, ?_, ?_⟩)
      · simp only [Manager.onMemory, hmem]
      · simp only [Manager.onMemory, hdisk]

theorem allocateExt_cases (s : Manager) (io : Io) (last : ℕ) {id : ℕ} (prev pb : PhysicalBlock)
    (hlt : id < s.normalBitMap.itemCount) (ht : s.normalBitMap.test id = false) :
    (∃ e s', (io .writeBitMap = some e ∨ io .writeBitMap = none ∧ (io .writeSuperBlk = some e ∨
        io .writeSuperBlk = none ∧ (io .flushFile = some e ∨
          io .flushFile = none ∧ io .dumpPrefix = some e))) ∧
        s.allocateExt io last id prev pb = .ok (e.code, s') ∧ s'.toMemory = s.toMemory) ∨
      (io .writeBitMap = none ∧ io .writeSuperBlk = none ∧ io .flushFile = none ∧
        io .dumpPrefix = none ∧
        ((∃ e s', io .dumpPrevPrefix = some e ∧
            s.allocateExt io last id prev pb = .ok (e.code, s') ∧
            s'.toMemory = s.toMemory.insertPhysical last (prev.withNext id)) ∨
          (io .dumpPrevPrefix = none ∧ ∃ s',
            s.allocateExt io last id prev pb = .ok (tfsSuccess, s') ∧
            s'.toMemory = s.toMemory.withLooseExt last id prev pb ∧
            s'.disk = (Disk.dumped { s.disk with
              superBlock := (s.superBlock.addExtend, s.superBlock.addExtend),
              normalBitMap := ((s.normalBitMap.set id).data, (s.normalBitMap.set id).data),
              errorBitMap := (s.errorBitMap.data, s.errorBitMap.data) } id pb).dumped last
                (prev.withNext id)))) := by
  have hset : (s.normalBitMap.set id).test id = true := by simp [BitMap.test_set hlt]
  have hback : (s.normalBitMap.set id).reset id = s.normalBitMap := BitMap.reset_set hlt ht
  have hcount : s.superBlock.addExtend.subExtend = s.superBlock := addExtend_subExtend _
  unfold Manager.allocateExt
  rw [if_pos hlt]
  dsimp only
  rcases commit_cases { s with normalBitMap := s.normalBitMap.set id } io SuperBlock.addExtend with
    ⟨e, hb, hc⟩ | ⟨hb, e, hat, hc⟩ | ⟨hb, hs, hf, hc⟩
  · obtain ⟨s', hs', hm⟩ := giveUp_ok { s with
      normalBitMap := s.normalBitMap.set id, disk := e.disk } io false e.code hlt hset
    refine Or.inl ⟨e, s', Or.inl hb, ?_, ?_⟩
    · simp only [hc, tfsSuccess, ne_eq, e.code_ne, not_false_eq_true, if_true, hs']
    · rw [hm]
      simp only [hback, Bool.false_eq_true, if_false]
  · obtain ⟨s', hs', hm⟩ := giveUp_ok { s with
      superBlock := s.superBlock.addExtend, normalBitMap := s.normalBitMap.set id,
      disk := e.disk } io true e.code hlt hset
    refine Or.inl ⟨e, s', Or.inr ⟨hb, hat.imp_right fun h => ⟨h.1, Or.inl h.2⟩⟩, ?_, ?_⟩
    · simp only [hc, tfsSuccess, ne_eq, e.code_ne, not_false_eq_true, if_true, hs']
    · rw [hm]
      simp only [hback, hcount, if_true]
  · simp only [hc, ne_eq, not_true, if_false]
    rcases linkExt_cases { s with
        superBlock := s.superBlock.addExtend, normalBitMap := s.normalBitMap.set id,
        disk := Manager.committed { s with normalBitMap := s.normalBitMap.set id }
          s.superBlock.addExtend } io last prev pb hlt hset with
      ⟨e, s', he, heq, hm⟩ | ⟨he, e, s', he', heq, hm⟩ | ⟨he, he', s', heq, hm, hdisk⟩
    · refine Or.inl ⟨e, s', Or.inr ⟨hb, Or.inr ⟨hs, Or.inr ⟨hf, he⟩⟩⟩, heq, ?_⟩
      rw [hm]
      simp only [hback, hcount]
    · refine Or.inr ⟨hb, hs, hf, he, Or.inl ⟨e, s', he', heq, ?_⟩⟩
      rw [hm]
      simp only [hback, hcount]
    · exact Or.inr ⟨hb, hs, hf, he, Or.inr ⟨he', s', heq, hm, hdisk⟩⟩

theorem newExtBlock_step {s : Manager} (h : s.toMemory.AllocInv) (io : Io) {side : Side} {key : Key}
    {lb : LogicBlock} (hb : s.toMemory.blocksOf side key = some lb) {last : ℕ}
    (hlast : last ∈ lb.physicalBlockList) :
    ∃ ret id s', s.newExtBlock io key last = .ok (ret, id, s') ∧
      NewExtStep s io key last ret id s' := by
  have hsome := h.listed_some hb hlast
  have hpos : last ≠ 0 := by
    rcases h.allocated_range hsome with hr | hr
    · have := hr.1
      omega
    · have := hr.1
      omega
  unfold Manager.newExtBlock
  rw [if_neg hpos]
  by_cases hl : s.logicBlocks key = none
  · exact ⟨_, _, _, if_pos (by simp [hl]), .refused _ (by decide) (Or.inl hl)⟩
  rw [if_neg (by simpa using hl)]
  obtain ⟨o, ho, hspec⟩ := findAvailBlock_ok h.normal_items h.error_items .ext
  cases o with
  | none => exact ⟨_, _, _, by rw [ho], .refused _ (by decide) (Or.inr ho)⟩
  | some id =>
    obtain ⟨hid, ht, -⟩ := hspec id rfl
    rw [if_pos rfl] at hid
    have hlt : id < s.normalBitMap.itemCount := h.normal_items ▸ hid.lt
    have hsize : 0 < s.superBlock.extendBlockSize := by
      rcases h.extend_size with hz | hp
      · have := hid.1
        have := hid.2
        omega
      · exact hp
    obtain ⟨prev, hprev⟩ := Option.isSome_iff_exists.mp hsome
    simp only [ho, hprev]
    rw [if_neg (h.not_allocated ht), if_pos hsize]
    rcases allocateExt_cases s io last prev (s.superBlock.extendBlock key last) hlt ht with
      ⟨e, s', hat, heq, hm⟩ | ⟨hbm, hs, hf, hd, ⟨e, s', hat, heq, hm⟩ | ⟨hat, s', heq, hm, hdisk⟩⟩
    · exact ⟨_, _, s', by rw [heq], .undone e s' id hl ho hat hm⟩
    · exact ⟨_, _, s', by rw [heq], .dangling e s' id prev hl ho hprev hbm hs hf hd hat hm⟩
    · exact ⟨_, _, s', by rw [heq], .done id s' prev hl ho hprev hbm hs hf hd hat hm hdisk⟩

end Tefs.DataServer
