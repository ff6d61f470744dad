import Mathlib.Data.Rat.Floor
import Mathlib.Tactic.Linarith
import Tefs.DataServer.Operations
import Tefs.DataServer.Load
import Tefs.Lib.Runs

/-! # The space that is in use

Source: `query_space`, `init_super_blk_param` and `calc_block_count` of `diskmanager/src/blockfile_manager.cpp` with
`EXTEND_SUPPORT` 0, and the free space in the messages of `NameServersession.cpp` and `DSMessageProcess.cpp`.

Without extend blocks the ratio and the size of an extend block are left as -1, and `query_space` multiplies with both.
-/

namespace Tefs.DataServer
set_option autoImplicit false

/-! ## The query -/

/-- `static_cast<int64_t>` of a floating-point number -/
def truncated (q : ℚ) : ℤ := q.num.tdiv q.den

/-- `used_bytes` and `total_bytes`; `blockTypeRatio` is the field of the super block, and taken to be exact. -/
def SuperBlock.querySpace (blockTypeRatio : ℚ) (sb : SuperBlock) : ℤ × ℤ :=
  let usedMainBytes := sb.usedBlockCount * sb.mainBlockSize +
    truncated (sb.usedBlockCount / blockTypeRatio) * sb.extendBlockSize
  let usedExtBytes := sb.usedExtendBlockCount * sb.extendBlockSize +
    truncated (sb.usedExtendBlockCount * blockTypeRatio) * sb.mainBlockSize
  let usedBytes := if truncated (usedMainBytes * (11 / 10)) < usedExtBytes then usedExtBytes else usedMainBytes
  (usedBytes, sb.mainBlockCount * sb.mainBlockSize + sb.extendBlockCount * sb.extendBlockSize)

/-- `block_type_ratio_` after `calc_block_count` -/
def formattedRatio : ℚ := -1

/-- The super block that `init_super_blk_param` fills in, for the number of blocks that `calc_block_count` comes to -/
def SuperBlock.formatted (mainBlockCount : ℕ) (mainBlockSize : ℤ) : SuperBlock :=
  .fresh mainBlockCount 0 mainBlockSize (-1)

/-- The `diskfree` of a registration -/
def diskfree (usedBytes totalBytes : ℤ) : ℤ := (totalBytes - usedBytes) >>> (10 : ℕ)

/-- What the query should return -/
structure SuperBlock.SpaceExact (sb : SuperBlock) : Prop where
  used : (sb.querySpace formattedRatio).1 = sb.usedBlockCount * sb.mainBlockSize
  total : (sb.querySpace formattedRatio).2 = sb.mainBlockCount * sb.mainBlockSize
  nonneg : 0 ≤ (sb.querySpace formattedRatio).1
  fits : (sb.querySpace formattedRatio).1 ≤ (sb.querySpace formattedRatio).2
  free : 0 ≤ diskfree (sb.querySpace formattedRatio).1 (sb.querySpace formattedRatio).2

/-! ## Histories of `new_block` and `del_block` -/

/-- A call, with the disk writes that fail in it -/
inductive BlockCall where
  | newBlock (io : Io) (key : Key) (blockType : BlockType)
  | delBlock (io : Io) (key : Key) (blockType : BlockType)

def Manager.call (s : Manager) : BlockCall → Except Abort (ℤ × Manager)
  | .newBlock io key blockType => s.newBlock io key blockType
  | .delBlock io key blockType => s.delBlock io key blockType

abbrev BlockCalls : Manager → List BlockCall → Manager → Prop :=
  Runs.Reaches (fun s call s' => ∃ ret, s.call call = .ok (ret, s')) fun _ _ => True

/-- The counters of a file system without extend blocks. A failed `new_block` takes the wrong one back, a failed
`del_block` none: the number of main blocks is never below what the maps hold and what the other counter has lost. -/
structure Memory.Counted (mainBlockCount : ℕ) (mainBlockSize : ℤ) (m : Memory) : Prop where
  mainBlocks : m.superBlock.mainBlockCount = mainBlockCount
  mainSize : m.superBlock.mainBlockSize = mainBlockSize
  extendBlocks : m.superBlock.extendBlockCount = 0
  extendSize : m.superBlock.extendBlockSize = -1
  single : ∀ side key lb, m.blocksOf side key = some lb → lb.physicalBlockList.length = 1
  lost : m.superBlock.usedExtendBlockCount ≤ 0
  used : ∃ places : Finset (Side × Key), (∀ p, p ∈ places ↔ (m.blocksOf p.1 p.2).isSome = true) ∧
    places.card ≤ m.superBlock.usedBlockCount + m.superBlock.usedExtendBlockCount

/-! ## What one call does to the counters -/

/-- The maps as they are, with the counters as they are or after a rollback -/
structure Untouched (s s' : Manager) : Prop where
  superBlock : s'.superBlock = s.superBlock ∨ s'.superBlock = s.superBlock.addMain.subExtend
  blocks : s'.toMemory.blocksOf = s.toMemory.blocksOf

/-- `side` has `lb` under `key`, and nothing else has changed in the maps. -/
def Stores (s : Manager) (side : Side) (key : Key) (lb : Option LogicBlock) (s' : Manager) : Prop :=
  ∀ side' key', s'.toMemory.blocksOf side' key' =
    if side' = side ∧ key' = key then lb else s.toMemory.blocksOf side' key'

theorem blocksOf_congr {m m' : Memory} (hmain : m'.logicBlocks = m.logicBlocks)
    (hcompact : m'.compactLogicBlocks = m.compactLogicBlocks) : m'.blocksOf = m.blocksOf := by
  funext side
  cases side with
  | main => exact hmain
  | compact => exact hcompact

theorem allocateMain_counts {s s' : Manager} {io : Io} {side : Side} {key : Key} {id : ℕ} {pb : PhysicalBlock} {ret : ℤ}
    (h : s.allocateMain io side key id pb = .ok (ret, s')) :
    Untouched s s' ∨ s'.superBlock = s.superBlock.addMain ∧
      ∃ lb : LogicBlock, lb.physicalBlockList.length = 1 ∧ Stores s side key (some lb) s' := by
  unfold Manager.allocateMain at h
  split at h
  · next hlt =>
    have hset : (s.normalBitMap.set id).test id = true := by simp [BitMap.test_set hlt]
    rcases commit_cases { s with normalBitMap := s.normalBitMap.set id } io SuperBlock.addMain with
      ⟨e, -, hc⟩ | ⟨-, e, -, hc⟩ | ⟨-, -, -, hc⟩
    · obtain ⟨s₁, hs₁, hmem⟩ := giveUp_ok { s with normalBitMap := s.normalBitMap.set id, disk := e.disk } io false e.code
        hlt hset
      simp only [hc, tfsSuccess, ne_eq, e.code_ne, not_false_eq_true, if_true, hs₁] at h
      cases h
      exact .inl ⟨.inl (by rw [hmem]; rfl), blocksOf_congr (by rw [hmem]) (by rw [hmem])⟩
    · obtain ⟨s₁, hs₁, hmem⟩ := giveUp_ok { s with
        superBlock := s.superBlock.addMain, normalBitMap := s.normalBitMap.set id, disk := e.disk } io true e.code hlt hset
      simp only [hc, tfsSuccess, ne_eq, e.code_ne, not_false_eq_true, if_true, hs₁] at h
      cases h
      exact .inl ⟨.inr (by rw [hmem]; rfl), blocksOf_congr (by rw [hmem]) (by rw [hmem])⟩
    · simp only [hc, ne_eq, not_true, if_false] at h
      cases h
      refine .inr ⟨by simp [Manager.onMemory, Memory.insertLogicBlock, Memory.insertPhysical],
        (LogicBlock.new key).addPhysicBlock id pb.totalDataLen, rfl, ?_⟩
      intro side' key'
      simp only [Manager.onMemory, Memory.insertLogicBlock, blocksOf_putBlock]
      rfl
  · cases h

theorem newBlock_counts {s s' : Manager} {io : Io} {key : Key} {blockType : BlockType} {ret : ℤ}
    (h : s.newBlock io key blockType = .ok (ret, s')) :
    Untouched s s' ∨ s.toMemory.blocksOf blockType.selected key = none ∧ s'.superBlock = s.superBlock.addMain ∧
      ∃ lb : LogicBlock, lb.physicalBlockList.length = 1 ∧ Stores s blockType.selected key (some lb) s' := by
  unfold Manager.newBlock at h
  split at h
  · cases h
    exact .inl ⟨.inl rfl, rfl⟩
  next hnone =>
  split at h
  · cases h
  · cases h
    exact .inl ⟨.inl rfl, rfl⟩
  next id hfind =>
  split at h
  · cases h
  split at h
  · rcases dumpBlockPrefix_cases s (io .dumpPrefix) id (s.superBlock.mainBlock key) with ⟨e, -, hd⟩ | ⟨-, hd⟩
    · simp only [hd, tfsSuccess, ne_eq, e.code_ne, not_false_eq_true, if_true] at h
      cases h
      exact .inl ⟨.inl rfl, rfl⟩
    · simp only [hd, ne_eq, not_true, if_false] at h
      rcases allocateMain_counts h with hsame | hdone
      · exact .inl ⟨hsame.superBlock, hsame.blocks⟩
      · exact .inr ⟨by simpa using hnone, hdone⟩
  · cases h

theorem erasePhysical_counts {m m' : Memory} {ids : List ℕ} (h : m.erasePhysical ids = .ok m') :
    m'.superBlock = m.superBlock ∧ m'.blocksOf = m.blocksOf := by
  induction ids generalizing m with
  | nil =>
    cases h
    exact ⟨rfl, rfl⟩
  | cons id ids ih =>
    rw [Memory.erasePhysical] at h
    split at h
    · split at h
      · obtain ⟨hsuper, hblocks⟩ := ih h
        exact ⟨hsuper, hblocks.trans (blocksOf_congr rfl rfl)⟩
      · cases h
    · cases h

theorem delBlock_counts {s s' : Manager} {io : Io} {key : Key} {blockType : BlockType} {ret : ℤ}
    (h : s.delBlock io key blockType = .ok (ret, s')) :
    s' = s ∨ ∃ side lb, s.toMemory.blocksOf side key = some lb ∧ Stores s side key none s' ∧
      (s'.superBlock = s.superBlock ∨ s'.superBlock = s.superBlock.remove lb.physicalBlockList.length) := by
  unfold Manager.delBlock at h
  split at h
  · cases h
    exact .inl rfl
  next side hside =>
  split at h
  · cases h
    exact .inl rfl
  next lb hlb =>
  split at h
  · cases h
    exact .inl rfl
  split at h
  · cases h
  next m herase =>
  obtain ⟨hsuper, hblocks⟩ := erasePhysical_counts herase
  have hstores : ∀ side' key', (m.eraseLogicBlock side key).blocksOf side' key' =
      if side' = side ∧ key' = key then none else s.toMemory.blocksOf side' key' := by
    intro side' key'
    rw [Memory.eraseLogicBlock, blocksOf_putBlock, hblocks]
  refine .inr ⟨side, lb, hlb, ?_⟩
  dsimp only at h
  rcases commit_cases (s.onMemory fun _ => m.eraseLogicBlock side key) io
      (fun sb => sb.remove lb.physicalBlockList.length) with ⟨e, -, hc⟩ | ⟨-, e, -, hc⟩ | ⟨-, -, -, hc⟩
  · rw [hc] at h
    cases h
    exact ⟨hstores, .inl ((putBlock_superBlock m side key none).trans hsuper)⟩
  · rw [hc] at h
    cases h
    exact ⟨hstores, .inr (congrArg (SuperBlock.remove · _) ((putBlock_superBlock m side key none).trans hsuper))⟩
  · rw [hc] at h
    cases h
    exact ⟨hstores, .inr (congrArg (SuperBlock.remove · _) ((putBlock_superBlock m side key none).trans hsuper))⟩

/-! ## Every history -/

section

variable {mainBlockCount : ℕ} {mainBlockSize : ℤ} {s s' : Manager}

theorem counted_formatted (mainBlockCount : ℕ) (mainBlockSize : ℤ) :
    (Manager.fresh (.formatted mainBlockCount mainBlockSize)).toMemory.Counted mainBlockCount mainBlockSize where
  mainBlocks := rfl
  mainSize := rfl
  extendBlocks := rfl
  extendSize := rfl
  single := by
    intro side key lb hlb
    cases side <;> cases hlb
  lost := le_refl 0
  used := by
    refine ⟨∅, fun p => ?_, le_refl 0⟩
    obtain ⟨side, key⟩ := p
    cases side <;> simp [Manager.fresh, Memory.blocksOf]

theorem Untouched.counted (hs : Untouched s s') (h : s.toMemory.Counted mainBlockCount mainBlockSize) :
    s'.toMemory.Counted mainBlockCount mainBlockSize := by
  obtain ⟨places, hplaces, hcard⟩ := h.used
  have hlost := h.lost
  rcases hs.superBlock with hsb | hsb
  · exact ⟨hsb ▸ h.mainBlocks, hsb ▸ h.mainSize, hsb ▸ h.extendBlocks, hsb ▸ h.extendSize, hs.blocks ▸ h.single,
      hsb ▸ h.lost, places, hs.blocks ▸ hplaces, hsb ▸ hcard⟩
  · refine ⟨hsb ▸ h.mainBlocks, hsb ▸ h.mainSize, hsb ▸ h.extendBlocks, hsb ▸ h.extendSize, hs.blocks ▸ h.single, ?_,
      places, hs.blocks ▸ hplaces, ?_⟩
    · rw [hsb]
      change s.superBlock.usedExtendBlockCount - 1 ≤ 0
      omega
    · rw [hsb]
      change (places.card : ℤ) ≤ s.superBlock.usedBlockCount + 1 + (s.superBlock.usedExtendBlockCount - 1)
      omega

theorem Stores.single {side : Side} {key : Key} {o : Option LogicBlock} (hs : Stores s side key o s')
    (h : ∀ side key lb, s.toMemory.blocksOf side key = some lb → lb.physicalBlockList.length = 1)
    (ho : ∀ lb, o = some lb → lb.physicalBlockList.length = 1) :
    ∀ side key lb, s'.toMemory.blocksOf side key = some lb → lb.physicalBlockList.length = 1 := by
  intro side' key' lb hlb
  rw [hs] at hlb
  split at hlb
  · exact ho lb hlb
  · exact h side' key' lb hlb

/-- Exactly the place `(side, key)` can join or leave the places that hold a block. -/
theorem Stores.places {side : Side} {key : Key} {o : Option LogicBlock} (hs : Stores s side key o s')
    {places : Finset (Side × Key)} (h : ∀ p, p ∈ places ↔ (s.toMemory.blocksOf p.1 p.2).isSome = true) (p : Side × Key) :
    p ∈ (if o.isSome = true then insert (side, key) places else places.erase (side, key)) ↔
      (s'.toMemory.blocksOf p.1 p.2).isSome = true := by
  rw [hs]
  by_cases hp : p.1 = side ∧ p.2 = key
  · have hp' : p = (side, key) := Prod.ext hp.1 hp.2
    cases o <;> simp [hp']
  · have hp' : p ≠ (side, key) := fun h => hp ⟨congrArg Prod.fst h, congrArg Prod.snd h⟩
    cases o <;> simp [hp, hp', h]

theorem Memory.Counted.call (h : s.toMemory.Counted mainBlockCount mainBlockSize) {call : BlockCall} {ret : ℤ}
    (hcall : s.call call = .ok (ret, s')) : s'.toMemory.Counted mainBlockCount mainBlockSize := by
  obtain ⟨places, hplaces, hcard⟩ := h.used
  cases call with
  | newBlock io key blockType =>
    rcases newBlock_counts hcall with hsame | ⟨hnone, hsb, lb, hlen, hstores⟩
    · exact hsame.counted h
    · have hnew : (blockType.selected, key) ∉ places := by simp [hplaces, hnone]
      refine ⟨hsb ▸ h.mainBlocks, hsb ▸ h.mainSize, hsb ▸ h.extendBlocks, hsb ▸ h.extendSize,
        hstores.single h.single (by rintro _ ⟨⟩; exact hlen), hsb ▸ h.lost, _, hstores.places hplaces, ?_⟩
      simp only [Option.isSome_some, if_true, Finset.card_insert_of_notMem hnew, hsb]
      change ((places.card + 1 : ℕ) : ℤ) ≤ s.superBlock.usedBlockCount + 1 + s.superBlock.usedExtendBlockCount
      omega
  | delBlock io key blockType =>
    rcases delBlock_counts hcall with rfl | ⟨side, lb, hlb, hstores, hsb⟩
    · exact h
    · have hold : (side, key) ∈ places := by simp [hplaces, hlb]
      have hone := h.single side key lb hlb
      have hpos : 0 < places.card := Finset.card_pos.mpr ⟨_, hold⟩
      have hsb' : s'.superBlock = s.superBlock ∨ s'.superBlock = { s.superBlock with
          usedBlockCount := s.superBlock.usedBlockCount - 1 } := by
        refine hsb.imp_right fun h => h.trans ?_
        simp [SuperBlock.remove, hone]
      have hsingle := hstores.single h.single (by rintro _ ⟨⟩)
      have hplaces' := hstores.places hplaces
      simp only [Option.isSome_none, Bool.false_eq_true, if_false] at hplaces'
      have hused : ((places.erase (side, key)).card : ℤ) ≤
          s'.superBlock.usedBlockCount + s'.superBlock.usedExtendBlockCount := by
        rw [Finset.card_erase_of_mem hold]
        rcases hsb' with hsb' | hsb' <;> simp only [hsb'] <;> omega
      rcases hsb' with hsb' | hsb'
      · exact ⟨hsb' ▸ h.mainBlocks, hsb' ▸ h.mainSize, hsb' ▸ h.extendBlocks, hsb' ▸ h.extendSize, hsingle,
          hsb' ▸ h.lost, _, hplaces', hused⟩
      · exact ⟨hsb' ▸ h.mainBlocks, hsb' ▸ h.mainSize, hsb' ▸ h.extendBlocks, hsb' ▸ h.extendSize, hsingle,
          hsb' ▸ h.lost, _, hplaces', hused⟩

theorem counted_of_calls {calls : List BlockCall}
    (h : BlockCalls (Manager.fresh (.formatted mainBlockCount mainBlockSize)) calls s) :
    s.toMemory.Counted mainBlockCount mainBlockSize := by
  apply h.invariant (I := fun s => s.toMemory.Counted mainBlockCount mainBlockSize) ?_ (counted_formatted _ _)
  rintro s call s' hs - ⟨ret, hcall⟩
  exact hs.call hcall

/-! ## The query on such a file system -/

theorem le_truncated {q : ℚ} {n : ℤ} (h0 : 0 ≤ n) (h : (n : ℚ) ≤ q) : n ≤ truncated q := by
  have hq : 0 ≤ q := le_trans (by exact_mod_cast h0) h
  rw [truncated, Int.tdiv_eq_ediv_of_nonneg (Rat.num_nonneg.mpr hq), ← Rat.floor_def']
  exact Int.le_floor.mpr h

theorem truncated_intCast (n : ℤ) : truncated (n : ℚ) = n := by
  simp [truncated]

/-- Every used block is counted with one byte too many. -/
theorem Memory.Counted.querySpace {m : Memory} (h : m.Counted mainBlockCount mainBlockSize) (hsize : 0 < mainBlockSize) :
    m.superBlock.querySpace formattedRatio =
      (m.superBlock.usedBlockCount * (mainBlockSize + 1), mainBlockCount * mainBlockSize) := by
  obtain ⟨places, -, hcard⟩ := h.used
  have hlost := h.lost
  unfold SuperBlock.querySpace formattedRatio
  simp only [h.mainBlocks, h.mainSize, h.extendBlocks, h.extendSize]
  have hneg : ∀ n : ℤ, truncated ((n : ℚ) / (-1)) = -n := by
    intro n
    rw [div_neg, div_one, ← Int.cast_neg, truncated_intCast]
  have hneg' : ∀ n : ℤ, truncated ((n : ℚ) * (-1)) = -n := by
    intro n
    rw [mul_neg_one, ← Int.cast_neg, truncated_intCast]
  rw [hneg, hneg']
  have hext : -m.superBlock.usedExtendBlockCount * (mainBlockSize + 1) ≤
      m.superBlock.usedBlockCount * (mainBlockSize + 1) := by
    apply Int.mul_le_mul_of_nonneg_right _ (by omega)
    omega
  have hused : 0 ≤ m.superBlock.usedBlockCount * (mainBlockSize + 1) :=
    Int.mul_nonneg (by omega) (by omega)
  have htrunc : m.superBlock.usedBlockCount * (mainBlockSize + 1) ≤
      truncated ((m.superBlock.usedBlockCount * (mainBlockSize + 1) : ℤ) * (11 / 10) : ℚ) := by
    apply le_truncated hused
    have : (0 : ℚ) ≤ (m.superBlock.usedBlockCount * (mainBlockSize + 1) : ℤ) := by exact_mod_cast hused
    linarith
  rw [show m.superBlock.usedBlockCount * mainBlockSize + -m.superBlock.usedBlockCount * -1 =
      m.superBlock.usedBlockCount * (mainBlockSize + 1) by ring,
    show m.superBlock.usedExtendBlockCount * -1 + -m.superBlock.usedExtendBlockCount * mainBlockSize =
      -m.superBlock.usedExtendBlockCount * (mainBlockSize + 1) by ring, if_neg (by omega)]
  simp

/-- In every history of `new_block` and `del_block`, whatever writes fail, the space is right exactly while no block is
used. -/
theorem spaceExact_iff_unused (hsize : 0 < mainBlockSize) {calls : List BlockCall}
    (h : BlockCalls (Manager.fresh (.formatted mainBlockCount mainBlockSize)) calls s) :
    s.superBlock.SpaceExact ↔ s.superBlock.usedBlockCount = 0 := by
  have hcounted := counted_of_calls h
  have hquery := hcounted.querySpace hsize
  constructor
  · intro hexact
    have hused := hexact.used
    rw [hquery, hcounted.mainSize] at hused
    dsimp only at hused
    rw [Int.mul_add, Int.mul_one] at hused
    omega
  · intro hzero
    rw [hzero, Int.zero_mul] at hquery
    have htotal : (0 : ℤ) ≤ mainBlockCount * mainBlockSize := Int.mul_nonneg (by omega) (by omega)
    refine ⟨?_, ?_, ?_, ?_, ?_⟩
    · rw [hquery, hzero, Int.zero_mul]
    · rw [hquery, hcounted.mainBlocks, hcounted.mainSize]
    · rw [hquery]
    · rw [hquery]
      exact htotal
    · rw [hquery, diskfree, Int.shiftRight_eq_div_pow]
      apply Int.ediv_nonneg
      · simpa using htotal
      · decide

end

/-- Two blocks are created, a third call finds the key taken, and both are deleted again. -/
def twoCreatedTwoDeleted : List BlockCall :=
  [.newBlock Io.allDone (7, 0) .main, .newBlock Io.allDone (7, 1) .main, .newBlock Io.allDone (7, 0) .main,
    .delBlock Io.allDone (7, 0) .main, .delBlock Io.allDone (7, 1) .main]

theorem spaceExact_after_deletions : ∃ s,
    BlockCalls (Manager.fresh (.formatted 3 100)) twoCreatedTwoDeleted s ∧ s.superBlock.SpaceExact := by
  have hsize : (0 : ℤ) < 100 := by decide
  have hrun : BlockCalls (Manager.fresh (.formatted 3 100)) twoCreatedTwoDeleted _ :=
    .cons trivial ⟨_, rfl⟩ (.cons trivial ⟨_, rfl⟩ (.cons trivial ⟨_, rfl⟩ (.cons trivial ⟨_, rfl⟩
      (.cons trivial ⟨_, rfl⟩ (.nil _)))))
  exact ⟨_, hrun, (spaceExact_iff_unused hsize hrun).mpr rfl⟩

/-- The only block of a disk is used: the free space that is reported is negative. -/
theorem full_disk_reports_negative : ∃ s,
    BlockCalls (Manager.fresh (.formatted 1 4)) [.newBlock Io.allDone (7, 0) .main] s ∧
      s.superBlock.querySpace formattedRatio = (5, 4) ∧ diskfree 5 4 = -1 ∧ ¬ s.superBlock.SpaceExact := by
  have hrun : BlockCalls (Manager.fresh (.formatted 1 4)) [.newBlock Io.allDone (7, 0) .main] _ :=
    .cons trivial ⟨_, rfl⟩ (.nil _)
  have hquery := (counted_of_calls hrun).querySpace (by decide)
  refine ⟨_, hrun, hquery.trans rfl, by decide, fun h => absurd h.fits ?_⟩
  rw [hquery]
  decide

end Tefs.DataServer
