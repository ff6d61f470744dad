import Tefs.DataServer.BlockFileManager
import Tefs.Lib.Partition

/-! # The allocation invariant

`AllocInv`: a bit of the normal bitmap is set exactly for the ids in `physcial_blocks_`, the lists of
the logic blocks split these ids, the counters count the set bits, and next pointers stay inside
their list. It is about memory only. The lemmas here say what a new main block, a new extend block,
a deletion and a switch do to it; the operations are assembled from them.
-/

namespace Tefs.DataServer
set_option autoImplicit false

open Tefs.Partition

/-- Where a logic block is: its map and its key. -/
abbrev Place := Side × Key

def Memory.listAt (m : Memory) (p : Place) : List ℕ :=
  match m.blocksOf p.1 p.2 with
  | some lb => lb.physicalBlockList
  | none => []

def SuperBlock.isMain (sb : SuperBlock) (id : ℕ) : Prop := 1 ≤ id ∧ id ≤ sb.mainBlockCount

def SuperBlock.isExtend (sb : SuperBlock) (id : ℕ) : Prop :=
  sb.mainBlockCount + 1 ≤ id ∧ id ≤ sb.mainBlockCount + sb.extendBlockCount

instance (sb : SuperBlock) (id : ℕ) : Decidable (sb.isMain id) := inferInstanceAs (Decidable (_ ∧ _))

instance (sb : SuperBlock) (id : ℕ) : Decidable (sb.isExtend id) :=
  inferInstanceAs (Decidable (_ ∧ _))

/-- A logic block as it should be: stored under its own key, a main block first, extend blocks
behind it, and no next pointer leaving the list. -/
structure Memory.BlockOk (m : Memory) (key : Key) (lb : LogicBlock) : Prop where
  key_eq : lb.key = key
  shape : ∃ main exts, lb.physicalBlockList = main :: exts ∧ m.superBlock.isMain main ∧
    ∀ e ∈ exts, m.superBlock.isExtend e
  next_mem : ∀ id ∈ lb.physicalBlockList, ∀ pb, m.physicalBlocks id = some pb →
    pb.blockPrefix.nextPhysicBlockId = 0 ∨ pb.blockPrefix.nextPhysicBlockId ∈ lb.physicalBlockList

structure Memory.AllocInv (m : Memory) : Prop where
  normal_items : m.normalBitMap.itemCount = m.superBlock.itemCount
  error_items : m.errorBitMap.itemCount = m.superBlock.itemCount
  main_size : 0 < m.superBlock.mainBlockSize
  extend_size : m.superBlock.extendBlockCount = 0 ∨ 0 < m.superBlock.extendBlockSize
  bit_iff : ∀ id, m.normalBitMap.test id = true ↔ (m.physicalBlocks id).isSome = true
  partition : Partitions (fun id => (m.physicalBlocks id).isSome = true) m.listAt
  blockOk : ∀ side key lb, m.blocksOf side key = some lb → m.BlockOk key lb
  used_eq : m.superBlock.usedBlockCount =
    (m.normalBitMap.setBits 1 m.superBlock.mainBlockCount).card
  used_extend_eq : m.superBlock.usedExtendBlockCount =
    (m.normalBitMap.setBits (m.superBlock.mainBlockCount + 1)
      (m.superBlock.mainBlockCount + m.superBlock.extendBlockCount)).card

/-! ## Reading the maps -/

@[simp] theorem blocksOf_putBlock (m : Memory) (side side' : Side) (key key' : Key)
    (lb : Option LogicBlock) :
    (m.putBlock side key lb).blocksOf side' key' =
      if side' = side ∧ key' = key then lb else m.blocksOf side' key' := by
  cases side <;> cases side' <;>
    simp [Memory.putBlock, Memory.blocksOf, Function.update_apply]

@[simp] theorem putBlock_superBlock (m : Memory) (side : Side) (key : Key) (lb : Option LogicBlock) :
    (m.putBlock side key lb).superBlock = m.superBlock := by
  cases side <;> rfl

@[simp] theorem putBlock_normalBitMap (m : Memory) (side : Side) (key : Key)
    (lb : Option LogicBlock) : (m.putBlock side key lb).normalBitMap = m.normalBitMap := by
  cases side <;> rfl

@[simp] theorem putBlock_errorBitMap (m : Memory) (side : Side) (key : Key)
    (lb : Option LogicBlock) : (m.putBlock side key lb).errorBitMap = m.errorBitMap := by
  cases side <;> rfl

@[simp] theorem putBlock_physicalBlocks (m : Memory) (side : Side) (key : Key)
    (lb : Option LogicBlock) : (m.putBlock side key lb).physicalBlocks = m.physicalBlocks := by
  cases side <;> rfl

theorem listAt_of_some {m : Memory} {side : Side} {key : Key} {lb : LogicBlock}
    (h : m.blocksOf side key = some lb) : m.listAt (side, key) = lb.physicalBlockList := by
  simp [Memory.listAt, h]

theorem listAt_of_none {m : Memory} {side : Side} {key : Key} (h : m.blocksOf side key = none) :
    m.listAt (side, key) = [] := by
  simp [Memory.listAt, h]

theorem exists_of_mem_listAt {m : Memory} {p : Place} {id : ℕ} (h : id ∈ m.listAt p) :
    ∃ lb, m.blocksOf p.1 p.2 = some lb ∧ id ∈ lb.physicalBlockList := by
  unfold Memory.listAt at h
  split at h
  · next lb hb => exact ⟨lb, hb, h⟩
  · simp at h

theorem listAt_putBlock (m : Memory) (side : Side) (key : Key) (lb : Option LogicBlock) (p : Place) :
    (m.putBlock side key lb).listAt p =
      Function.update m.listAt (side, key) ((lb.map LogicBlock.physicalBlockList).getD []) p := by
  obtain ⟨side', key'⟩ := p
  unfold Memory.listAt
  rw [blocksOf_putBlock, Function.update_apply]
  by_cases h : side' = side ∧ key' = key
  · obtain ⟨rfl, rfl⟩ := h
    cases lb <;> simp
  · have hne : ¬ ((side', key') = (side, key)) := by simpa using h
    rw [if_neg h, if_neg hne]

/-! ## Ids in range -/

theorem SuperBlock.isMain.lt {sb : SuperBlock} {id : ℕ} (h : sb.isMain id) : id < sb.itemCount := by
  unfold SuperBlock.isMain SuperBlock.itemCount at *
  omega

theorem SuperBlock.isExtend.lt {sb : SuperBlock} {id : ℕ} (h : sb.isExtend id) :
    id < sb.itemCount := by
  unfold SuperBlock.isExtend SuperBlock.itemCount at *
  omega

theorem Memory.BlockOk.mem_range {m : Memory} {key : Key} {lb : LogicBlock} (h : m.BlockOk key lb)
    {id : ℕ} (hid : id ∈ lb.physicalBlockList) :
    m.superBlock.isMain id ∨ m.superBlock.isExtend id := by
  obtain ⟨main, exts, he, hm, hx⟩ := h.shape
  rw [he] at hid
  rcases List.mem_cons.mp hid with rfl | hid
  · exact Or.inl hm
  · exact Or.inr (hx id hid)

theorem Memory.AllocInv.allocated_range {m : Memory} (h : m.AllocInv) {id : ℕ}
    (hid : (m.physicalBlocks id).isSome = true) :
    m.superBlock.isMain id ∨ m.superBlock.isExtend id := by
  obtain ⟨p, hp⟩ := (h.partition.covers id).mp hid
  obtain ⟨lb, hb, hmem⟩ := exists_of_mem_listAt hp
  exact (h.blockOk p.1 p.2 lb hb).mem_range hmem

theorem Memory.AllocInv.allocated_lt {m : Memory} (h : m.AllocInv) {id : ℕ}
    (hid : (m.physicalBlocks id).isSome = true) : id < m.normalBitMap.itemCount := by
  rw [h.normal_items]
  rcases h.allocated_range hid with hr | hr
  · exact hr.lt
  · exact hr.lt

/-! ## `find_avail_block` -/

theorem findFrom_ok {m : Memory} (hn : m.normalBitMap.itemCount = m.superBlock.itemCount)
    (he : m.errorBitMap.itemCount = m.superBlock.itemCount) (i count : ℕ)
    (hlt : i + count ≤ m.superBlock.itemCount) :
    ∃ o, m.findFrom i count = .ok o ∧ ∀ id, o = some id → i ≤ id ∧ id < i + count ∧
      m.normalBitMap.test id = false ∧ m.errorBitMap.test id = false := by
  induction count generalizing i with
  | zero => exact ⟨none, rfl, by simp⟩
  | succ count ih =>
    have hi : i < m.superBlock.itemCount := by omega
    obtain ⟨o, ho, hspec⟩ := ih (i + 1) (by omega)
    have hrest : ∀ id, o = some id → i ≤ id ∧ id < i + (count + 1) ∧
        m.normalBitMap.test id = false ∧ m.errorBitMap.test id = false := by
      intro id hid
      obtain ⟨h₁, h₂, h₃⟩ := hspec id hid
      exact ⟨by omega, by omega, h₃⟩
    rw [Memory.findFrom, if_pos (hn ▸ hi)]
    cases ht : m.normalBitMap.test i with
    | true => exact ⟨o, by simpa using ho, hrest⟩
    | false =>
      rw [if_neg (by simp), if_pos (he ▸ hi)]
      cases hte : m.errorBitMap.test i with
      | true => exact ⟨o, by simpa using ho, hrest⟩
      | false =>
        refine ⟨some i, by simp, ?_⟩
        rintro id ⟨⟩
        exact ⟨le_refl _, by omega, ht, hte⟩

/-- The search never trips an assertion, and what it returns is free and in range. -/
theorem findAvailBlock_ok {m : Memory} (hn : m.normalBitMap.itemCount = m.superBlock.itemCount)
    (he : m.errorBitMap.itemCount = m.superBlock.itemCount) (blockType : BlockType) :
    ∃ o, m.findAvailBlock blockType = .ok o ∧ ∀ id, o = some id →
      (if blockType = .ext then m.superBlock.isExtend id else m.superBlock.isMain id) ∧
      m.normalBitMap.test id = false ∧ m.errorBitMap.test id = false := by
  unfold Memory.findAvailBlock
  by_cases hb : blockType = .ext
  · obtain ⟨o, ho, hspec⟩ := findFrom_ok hn he (m.superBlock.mainBlockCount + 1)
      m.superBlock.extendBlockCount (by unfold SuperBlock.itemCount; omega)
    refine ⟨o, by rw [if_pos hb, ho], ?_⟩
    intro id hid
    obtain ⟨h₁, h₂, h₃⟩ := hspec id hid
    rw [if_pos hb]
    exact ⟨⟨h₁, by omega⟩, h₃⟩
  · obtain ⟨o, ho, hspec⟩ := findFrom_ok hn he 1 m.superBlock.mainBlockCount
      (by unfold SuperBlock.itemCount; omega)
    refine ⟨o, by rw [if_neg hb, ho], ?_⟩
    intro id hid
    obtain ⟨h₁, h₂, h₃⟩ := hspec id hid
    rw [if_neg hb]
    exact ⟨⟨h₁, by omega⟩, h₃⟩

/-! ## A new main block -/

def Memory.withMain (m : Memory) (side : Side) (key : Key) (id : ℕ) (pb : PhysicalBlock) : Memory :=
  ({ m with normalBitMap := m.normalBitMap.set id,
            superBlock := m.superBlock.addMain }.insertPhysical id pb).insertLogicBlock side
    ((LogicBlock.new key).addPhysicBlock id pb.totalDataLen)

theorem blocksOf_withMain (m : Memory) (side : Side) (key : Key) (id : ℕ) (pb : PhysicalBlock)
    (side' : Side) (key' : Key) :
    (m.withMain side key id pb).blocksOf side' key' =
      if side' = side ∧ key' = key then some ((LogicBlock.new key).addPhysicBlock id pb.totalDataLen)
      else m.blocksOf side' key' :=
  blocksOf_putBlock _ side side' key key' _

theorem Memory.BlockOk.frame {m m' : Memory} {key : Key} {lb : LogicBlock} (h : m.BlockOk key lb)
    (hm : ∀ id, m'.superBlock.isMain id ↔ m.superBlock.isMain id)
    (he : ∀ id, m'.superBlock.isExtend id ↔ m.superBlock.isExtend id)
    (hp : ∀ id ∈ lb.physicalBlockList, m'.physicalBlocks id = m.physicalBlocks id) :
    m'.BlockOk key lb where
  key_eq := h.key_eq
  shape := by
    obtain ⟨main, exts, hl, hmain, hx⟩ := h.shape
    exact ⟨main, exts, hl, (hm main).mpr hmain, fun e hm' => (he e).mpr (hx e hm')⟩
  next_mem := by
    intro id hid pb hpb
    exact h.next_mem id hid pb ((hp id hid).symm.trans hpb)

theorem Memory.AllocInv.not_allocated {m : Memory} (h : m.AllocInv) {id : ℕ}
    (ht : m.normalBitMap.test id = false) : ¬ (m.physicalBlocks id).isSome = true := by
  rw [← h.bit_iff, ht]
  decide

theorem Memory.AllocInv.listed_ne {m : Memory} (h : m.AllocInv) {id : ℕ}
    (ht : m.normalBitMap.test id = false) {side : Side} {key : Key} {lb : LogicBlock}
    (hb : m.blocksOf side key = some lb) {i : ℕ} (hi : i ∈ lb.physicalBlockList) : i ≠ id := by
  rintro rfl
  exact h.not_allocated ht (h.partition.own_of_mem (listAt_of_some hb ▸ hi))

/-- The parts of the super block that no operation changes. -/
def SuperBlock.SameLayout (sb sb' : SuperBlock) : Prop :=
  sb'.mainBlockCount = sb.mainBlockCount ∧ sb'.extendBlockCount = sb.extendBlockCount ∧
    sb'.mainBlockSize = sb.mainBlockSize ∧ sb'.extendBlockSize = sb.extendBlockSize

theorem SuperBlock.SameLayout.isMain_iff {sb sb' : SuperBlock} (h : sb.SameLayout sb') (id : ℕ) :
    sb'.isMain id ↔ sb.isMain id := by
  unfold SuperBlock.isMain
  rw [h.1]

theorem SuperBlock.SameLayout.isExtend_iff {sb sb' : SuperBlock} (h : sb.SameLayout sb') (id : ℕ) :
    sb'.isExtend id ↔ sb.isExtend id := by
  unfold SuperBlock.isExtend
  rw [h.1, h.2.1]

theorem SuperBlock.SameLayout.itemCount_eq {sb sb' : SuperBlock} (h : sb.SameLayout sb') :
    sb'.itemCount = sb.itemCount := by
  unfold SuperBlock.itemCount
  rw [h.1, h.2.1]

/-- What `new_block` and `extend_block` have in common: a free id joins the list of one place. -/
theorem Memory.AllocInv.grow {m m' : Memory} (h : m.AllocInv) {side : Side} {key : Key} {id : ℕ}
    {lb : LogicBlock} (hlayout : m.superBlock.SameLayout m'.superBlock)
    (hlt : id < m.superBlock.itemCount) (ht : m.normalBitMap.test id = false)
    (hnormal : m'.normalBitMap = m.normalBitMap.set id) (herror : m'.errorBitMap = m.errorBitMap)
    (hblocks : ∀ side' key', m'.blocksOf side' key' =
      if side' = side ∧ key' = key then some lb else m.blocksOf side' key')
    (hlist : lb.physicalBlockList = m.listAt (side, key) ++ [id])
    (hphys : ∀ i, (m'.physicalBlocks i).isSome = true ↔ i = id ∨ (m.physicalBlocks i).isSome = true)
    (hother : ∀ i, i ∉ lb.physicalBlockList → m'.physicalBlocks i = m.physicalBlocks i)
    (hok : m'.BlockOk key lb)
    (hused : m'.superBlock.usedBlockCount =
      m.superBlock.usedBlockCount + if m.superBlock.isMain id then 1 else 0)
    (husedExt : m'.superBlock.usedExtendBlockCount =
      m.superBlock.usedExtendBlockCount + if m.superBlock.isExtend id then 1 else 0) :
    m'.AllocInv := by
  have hlt' : id < m.normalBitMap.itemCount := h.normal_items ▸ hlt
  have hlists : ∀ p, m'.listAt p =
      Function.update m.listAt (side, key) (m.listAt (side, key) ++ [id]) p := by
    rintro ⟨side', key'⟩
    rw [Function.update_apply, ← hlist]
    unfold Memory.listAt
    rw [hblocks]
    by_cases hp : side' = side ∧ key' = key
    · rw [if_pos hp, if_pos (by rw [hp.1, hp.2])]
    · rw [if_neg hp, if_neg (by simpa using hp)]
  refine ⟨?_, ?_, ?_, ?_, ?_, ?_, ?_, ?_, ?_⟩
  · rw [hnormal, hlayout.itemCount_eq]
    exact h.normal_items
  · rw [herror, hlayout.itemCount_eq]
    exact h.error_items
  · rw [hlayout.2.2.1]
    exact h.main_size
  · rw [hlayout.2.1, hlayout.2.2.2]
    exact h.extend_size
  · intro i
    rw [hnormal, hphys, BitMap.test_set hlt', ← h.bit_iff]
    simp
  · exact (h.partition.snoc (side, key) (h.not_allocated ht)).congr hphys hlists
  · intro side' key' lb' hb
    rw [hblocks] at hb
    by_cases hp : side' = side ∧ key' = key
    · rw [if_pos hp] at hb
      cases hb
      rw [hp.2]
      exact hok
    · rw [if_neg hp] at hb
      refine (h.blockOk side' key' lb' hb).frame hlayout.isMain_iff hlayout.isExtend_iff ?_
      -- the lists of two places are disjoint, and the new id is in neither
      intro i hi
      refine hother i ?_
      rw [hlist]
      intro hmem
      rcases List.mem_append.mp hmem with hmem | hmem
      · have := h.partition.disjoint _ _ i (listAt_of_some hb ▸ hi) hmem
        simp only [Prod.mk.injEq] at this
        exact hp this
      · exact h.listed_ne ht hb hi (List.mem_singleton.mp hmem)
  · rw [hused, hnormal, hlayout.1, BitMap.card_setBits_set hlt' ht, h.used_eq]
    by_cases hm : m.superBlock.isMain id
    · rw [if_pos hm, if_pos (show 1 ≤ id ∧ _ from hm)]
      rfl
    · rw [if_neg hm, if_neg (show ¬ (1 ≤ id ∧ _) from hm)]
      rfl
  · rw [husedExt, hnormal, hlayout.1, hlayout.2.1, BitMap.card_setBits_set hlt' ht, h.used_extend_eq]
    by_cases hx : m.superBlock.isExtend id
    · rw [if_pos hx, if_pos (show m.superBlock.mainBlockCount + 1 ≤ id ∧ _ from hx)]
      rfl
    · rw [if_neg hx, if_neg (show ¬ (m.superBlock.mainBlockCount + 1 ≤ id ∧ _) from hx)]
      rfl

theorem SuperBlock.isMain.not_isExtend {sb : SuperBlock} {id : ℕ} (h : sb.isMain id) :
    ¬ sb.isExtend id := by
  unfold SuperBlock.isMain SuperBlock.isExtend at *
  omega

theorem Memory.AllocInv.withMain {m : Memory} (h : m.AllocInv) {side : Side} {key : Key} {id : ℕ}
    {pb : PhysicalBlock} (hid : m.superBlock.isMain id) (ht : m.normalBitMap.test id = false)
    (hnone : m.blocksOf side key = none) (hnext : pb.blockPrefix.nextPhysicBlockId = 0) :
    (m.withMain side key id pb).AllocInv := by
  have hphys : (m.withMain side key id pb).physicalBlocks =
      Function.update m.physicalBlocks id (some pb) := putBlock_physicalBlocks _ side _ _
  have hsuper : (m.withMain side key id pb).superBlock = m.superBlock.addMain :=
    putBlock_superBlock _ side _ _
  refine h.grow ?_ hid.lt ht (putBlock_normalBitMap _ side _ _)
    (putBlock_errorBitMap _ side _ _) (blocksOf_withMain m side key id pb) ?_ ?_ ?_ ?_ ?_ ?_
  · rw [hsuper]
    exact ⟨rfl, rfl, rfl, rfl⟩
  · rw [listAt_of_none hnone]
    rfl
  · intro i
    rw [hphys, Function.update_apply]
    by_cases hi : i = id <;> simp [hi]
  · intro i hi
    rw [hphys, Function.update_of_ne (by simpa [LogicBlock.addPhysicBlock, LogicBlock.new] using hi)]
  · refine ⟨rfl, ⟨id, [], rfl, by rw [hsuper]; exact hid, by simp⟩, ?_⟩
    intro i hi pb' hpb'
    have hi' : i = id := by simpa [LogicBlock.addPhysicBlock, LogicBlock.new] using hi
    rw [hphys, hi', Function.update_self] at hpb'
    cases hpb'
    exact Or.inl hnext
  · rw [hsuper, if_pos hid]
    rfl
  · rw [hsuper, if_neg hid.not_isExtend, add_zero]
    rfl

/-! ## A new extend block -/

/-- Memory after a round of `extend_block` that put `id` behind `last`. -/
def Memory.withExt (m : Memory) (side : Side) (key : Key) (lb : LogicBlock) (last id : ℕ)
    (prev pb : PhysicalBlock) : Memory :=
  (({ m with normalBitMap := m.normalBitMap.set id,
             superBlock := m.superBlock.addExtend }.insertPhysical last
    (prev.withNext id)).insertPhysical id pb).putBlock side key
      (some (lb.addPhysicBlock id pb.totalDataLen))

theorem Memory.AllocInv.withExt {m : Memory} (h : m.AllocInv) {side : Side} {key : Key}
    {lb : LogicBlock} (hb : m.blocksOf side key = some lb) {last id : ℕ} {prev pb : PhysicalBlock}
    (hlast : last ∈ lb.physicalBlockList) (hprev : m.physicalBlocks last = some prev)
    (hid : m.superBlock.isExtend id) (ht : m.normalBitMap.test id = false)
    (hnext : pb.blockPrefix.nextPhysicBlockId = 0) :
    (m.withExt side key lb last id prev pb).AllocInv := by
  have hne : ∀ i ∈ lb.physicalBlockList, i ≠ id := fun i hi => h.listed_ne ht hb hi
  have hphys : ∀ i, (m.withExt side key lb last id prev pb).physicalBlocks i =
      if i = id then some pb else if i = last then some (prev.withNext id)
      else m.physicalBlocks i := by
    intro i
    rw [show (m.withExt side key lb last id prev pb).physicalBlocks = Function.update
      (Function.update m.physicalBlocks last (some (prev.withNext id))) id (some pb) from
        putBlock_physicalBlocks _ side _ _]
    simp only [Function.update_apply]
  have hsuper : (m.withExt side key lb last id prev pb).superBlock = m.superBlock.addExtend :=
    putBlock_superBlock _ side _ _
  have hlist : (lb.addPhysicBlock id pb.totalDataLen).physicalBlockList =
      lb.physicalBlockList ++ [id] := rfl
  have hok := h.blockOk side key lb hb
  refine h.grow ?_ hid.lt ht (putBlock_normalBitMap _ side _ _)
    (putBlock_errorBitMap _ side _ _) (fun _ _ => blocksOf_putBlock _ side _ key _ _) ?_ ?_ ?_ ?_ ?_ ?_
  · rw [hsuper]
    exact ⟨rfl, rfl, rfl, rfl⟩
  · rw [listAt_of_some hb]
    rfl
  · intro i
    rw [hphys]
    by_cases hi : i = id
    · simp [hi]
    · rw [if_neg hi]
      by_cases hl : i = last
      · simp [hl, hprev]
      · simp [hi, hl]
  · intro i hi
    rw [hlist, List.mem_append, List.mem_singleton, not_or] at hi
    rw [hphys, if_neg hi.2, if_neg (by rintro rfl; exact hi.1 hlast)]
  · refine ⟨hok.key_eq, ?_, ?_⟩
    · obtain ⟨main, exts, he, hm, hx⟩ := hok.shape
      refine ⟨main, exts ++ [id], by rw [hlist, he]; rfl, by rw [hsuper]; exact hm, ?_⟩
      intro e hmem
      rw [hsuper]
      rcases List.mem_append.mp hmem with hmem | hmem
      · exact hx e hmem
      · rw [List.mem_singleton.mp hmem]
        exact hid
    · intro i hi pb' hpb'
      rw [hphys] at hpb'
      rw [hlist] at hi ⊢
      by_cases hi' : i = id
      · rw [if_pos hi'] at hpb'
        cases hpb'
        exact Or.inl hnext
      · rw [if_neg hi'] at hpb'
        have hmem : i ∈ lb.physicalBlockList := by simpa [hi'] using hi
        by_cases hl : i = last
        · rw [if_pos hl] at hpb'
          cases hpb'
          exact Or.inr (List.mem_append_right _ (List.mem_singleton.mpr rfl))
        · rw [if_neg hl] at hpb'
          exact (hok.next_mem i hmem pb' hpb').imp_right fun hn => List.mem_append_left _ hn
  · have hnm : ¬ m.superBlock.isMain id := fun hm => hm.not_isExtend hid
    rw [hsuper, if_neg hnm, add_zero]
    rfl
  · rw [hsuper, if_pos hid]
    rfl

/-! ## A deletion -/

theorem erasePhysical_ok {m : Memory} {ids : List ℕ} (hn : ids.Nodup)
    (hsome : ∀ id ∈ ids, (m.physicalBlocks id).isSome = true)
    (hlt : ∀ id ∈ ids, id < m.normalBitMap.itemCount) :
    m.erasePhysical ids = .ok { m with
      physicalBlocks := fun i => if i ∈ ids then none else m.physicalBlocks i,
      normalBitMap := m.normalBitMap.resetAll ids } := by
  induction ids generalizing m with
  | nil => simp [Memory.erasePhysical, BitMap.resetAll]
  | cons id ids ih =>
    obtain ⟨hid, hn⟩ := List.nodup_cons.mp hn
    rw [Memory.erasePhysical, if_pos (hsome id List.mem_cons_self), if_pos (hlt id List.mem_cons_self)]
    rw [ih hn]
    · simp only [BitMap.resetAll, List.foldl_cons, Except.ok.injEq, Memory.mk.injEq, true_and]
      funext i
      by_cases hi : i = id
      · simp [hi]
      · simp [hi]
    · intro i hi
      have hne : i ≠ id := fun he => hid (he ▸ hi)
      simpa [Function.update_of_ne hne] using hsome i (List.mem_cons_of_mem _ hi)
    · exact fun i hi => hlt i (List.mem_cons_of_mem _ hi)

/-- Memory when the logic block at a place and its physical blocks are gone, the counters not yet
changed. -/
def Memory.erased (m : Memory) (side : Side) (key : Key) (lb : LogicBlock) : Memory :=
  Memory.eraseLogicBlock
    { m with physicalBlocks := fun i => if i ∈ lb.physicalBlockList then none else m.physicalBlocks i,
             normalBitMap := m.normalBitMap.resetAll lb.physicalBlockList } side key

def Memory.without (m : Memory) (side : Side) (key : Key) (lb : LogicBlock) : Memory :=
  { m.erased side key lb with superBlock := m.superBlock.remove lb.physicalBlockList.length }

section Deletion

variable {m : Memory} {side : Side} {key : Key} {lb : LogicBlock}

@[simp] theorem erased_superBlock : (m.erased side key lb).superBlock = m.superBlock :=
  putBlock_superBlock _ side key none

@[simp] theorem erased_normalBitMap :
    (m.erased side key lb).normalBitMap = m.normalBitMap.resetAll lb.physicalBlockList :=
  putBlock_normalBitMap _ side key none

@[simp] theorem erased_errorBitMap : (m.erased side key lb).errorBitMap = m.errorBitMap :=
  putBlock_errorBitMap _ side key none

@[simp] theorem erased_physicalBlocks (i : ℕ) : (m.erased side key lb).physicalBlocks i =
    if i ∈ lb.physicalBlockList then none else m.physicalBlocks i := by
  unfold Memory.erased Memory.eraseLogicBlock
  rw [putBlock_physicalBlocks]

@[simp] theorem erased_blocksOf (side' : Side) (key' : Key) :
    (m.erased side key lb).blocksOf side' key' =
      if side' = side ∧ key' = key then none else m.blocksOf side' key' :=
  blocksOf_putBlock _ side side' key key' none

theorem Memory.AllocInv.listed_some (h : m.AllocInv) (hb : m.blocksOf side key = some lb) {id : ℕ}
    (hid : id ∈ lb.physicalBlockList) : (m.physicalBlocks id).isSome = true :=
  h.partition.own_of_mem (listAt_of_some hb ▸ hid)

theorem Memory.AllocInv.list_nodup (h : m.AllocInv) (hb : m.blocksOf side key = some lb) :
    lb.physicalBlockList.Nodup := listAt_of_some hb ▸ h.partition.nodup (side, key)

theorem Memory.BlockOk.countP_range (h : m.BlockOk key lb) :
    lb.physicalBlockList.countP (fun i => 1 ≤ i ∧ i ≤ m.superBlock.mainBlockCount) = 1 ∧
      lb.physicalBlockList.countP (fun i => m.superBlock.mainBlockCount + 1 ≤ i ∧
        i ≤ m.superBlock.mainBlockCount + m.superBlock.extendBlockCount) + 1 =
          lb.physicalBlockList.length := by
  obtain ⟨main, exts, he, hm, hx⟩ := h.shape
  have hmain : 1 ≤ main ∧ main ≤ m.superBlock.mainBlockCount := hm
  have h₁ : exts.countP (fun i => decide (1 ≤ i ∧ i ≤ m.superBlock.mainBlockCount)) = 0 := by
    rw [List.countP_eq_zero]
    intro e he'
    have : m.superBlock.mainBlockCount + 1 ≤ e := (hx e he').1
    simp only [decide_eq_true_eq]
    omega
  have h₂ : exts.countP (fun i => decide (m.superBlock.mainBlockCount + 1 ≤ i ∧
      i ≤ m.superBlock.mainBlockCount + m.superBlock.extendBlockCount)) = exts.length := by
    rw [List.countP_eq_length]
    intro e he'
    exact decide_eq_true (hx e he')
  have hnot : ¬ (m.superBlock.mainBlockCount + 1 ≤ main ∧
      main ≤ m.superBlock.mainBlockCount + m.superBlock.extendBlockCount) := by omega
  rw [he, List.countP_cons, List.countP_cons, h₁, h₂, List.length_cons]
  simp only [hmain, hnot, decide_true, decide_false, if_true, and_self, Bool.false_eq_true, if_false,
    Nat.add_zero, Nat.zero_add]

theorem Memory.AllocInv.without (h : m.AllocInv) (hb : m.blocksOf side key = some lb) :
    (m.without side key lb).AllocInv := by
  have hok := h.blockOk side key lb hb
  have hsome : ∀ id ∈ lb.physicalBlockList, (m.physicalBlocks id).isSome = true :=
    fun id hid => h.listed_some hb hid
  have hlt : ∀ id ∈ lb.physicalBlockList, id < m.normalBitMap.itemCount :=
    fun id hid => h.allocated_lt (hsome id hid)
  have hset : ∀ id ∈ lb.physicalBlockList, m.normalBitMap.test id = true :=
    fun id hid => (h.bit_iff id).mpr (hsome id hid)
  have hnodup := h.list_nodup hb
  obtain ⟨hc₁, hc₂⟩ := hok.countP_range
  refine ⟨?_, ?_, h.main_size, h.extend_size, ?_, ?_, ?_, ?_, ?_⟩
  · change (m.erased side key lb).normalBitMap.itemCount = _
    rw [erased_normalBitMap, BitMap.resetAll_itemCount]
    exact h.normal_items
  · change (m.erased side key lb).errorBitMap.itemCount = _
    rw [erased_errorBitMap]
    exact h.error_items
  · intro i
    change (m.erased side key lb).normalBitMap.test i = true ↔
      ((m.erased side key lb).physicalBlocks i).isSome = true
    rw [erased_normalBitMap, erased_physicalBlocks, BitMap.test_resetAll hlt]
    by_cases hi : i ∈ lb.physicalBlockList
    · simp [hi]
    · simp [hi, h.bit_iff]
  · refine (h.partition.clear (side, key)).congr ?_ ?_
    · intro i
      change ((m.erased side key lb).physicalBlocks i).isSome = true ↔ _
      rw [erased_physicalBlocks, listAt_of_some hb]
      by_cases hi : i ∈ lb.physicalBlockList <;> simp [hi]
    · exact fun p => listAt_putBlock _ side key none p
  · intro side' key' lb' hb'
    have hb'' : (m.erased side key lb).blocksOf side' key' = some lb' := hb'
    rw [erased_blocksOf] at hb''
    by_cases hp : side' = side ∧ key' = key
    · simp [hp] at hb''
    · rw [if_neg hp] at hb''
      refine (h.blockOk side' key' lb' hb'').frame (fun _ => Iff.rfl) (fun _ => Iff.rfl) ?_
      intro i hi
      have hnot : i ∉ lb.physicalBlockList := by
        intro hm
        have := h.partition.disjoint _ _ i (listAt_of_some hb'' ▸ hi) (listAt_of_some hb ▸ hm)
        exact hp (by simpa using this)
      change (m.erased side key lb).physicalBlocks i = _
      rw [erased_physicalBlocks, if_neg hnot]
  · have hcard := BitMap.card_setBits_resetAll hnodup hlt hset 1 m.superBlock.mainBlockCount
    change m.superBlock.usedBlockCount - 1 = _
    rw [show (m.without side key lb).normalBitMap = _ from erased_normalBitMap]
    change _ = (((m.normalBitMap.resetAll lb.physicalBlockList).setBits 1
      m.superBlock.mainBlockCount).card : ℤ)
    have := h.used_eq
    omega
  · have hcard := BitMap.card_setBits_resetAll hnodup hlt hset (m.superBlock.mainBlockCount + 1)
      (m.superBlock.mainBlockCount + m.superBlock.extendBlockCount)
    change m.superBlock.usedExtendBlockCount - ((lb.physicalBlockList.length : ℤ) - 1) = _
    rw [show (m.without side key lb).normalBitMap = _ from erased_normalBitMap]
    change _ = (((m.normalBitMap.resetAll lb.physicalBlockList).setBits
      (m.superBlock.mainBlockCount + 1)
      (m.superBlock.mainBlockCount + m.superBlock.extendBlockCount)).card : ℤ)
    have := h.used_extend_eq
    omega

end Deletion

/-! ## A switch, and the error bitmap -/

theorem Memory.AllocInv.switchCompactBlk {m : Memory} (h : m.AllocInv) (key : Key) :
    (m.switchCompactBlk key).2.AllocInv := by
  unfold Memory.switchCompactBlk
  split
  · next cpt old hc ho =>
    have hokc := h.blockOk .compact key cpt hc
    have hoko := h.blockOk .main key old ho
    have hblocks : ∀ side' key', ((m.insertLogicBlock .main cpt).insertLogicBlock .compact
        old).blocksOf side' key' =
          if key' = key then m.blocksOf (if side' = .main then .compact else .main) key'
          else m.blocksOf side' key' := by
      intro side' key'
      unfold Memory.insertLogicBlock
      rw [blocksOf_putBlock, blocksOf_putBlock, hokc.key_eq, hoko.key_eq]
      by_cases hk : key' = key
      · subst hk
        cases side'
        · simp [show m.blocksOf .compact key' = some cpt from hc]
        · simp [show m.blocksOf .main key' = some old from ho]
      · simp [hk]
    have hsuper : ((m.insertLogicBlock .main cpt).insertLogicBlock .compact old).superBlock =
        m.superBlock := rfl
    refine ⟨h.normal_items, h.error_items, h.main_size, h.extend_size, h.bit_iff, ?_, ?_, h.used_eq,
      h.used_extend_eq⟩
    · refine (h.partition.reindex (Equiv.swap (Side.main, key) (Side.compact, key))).congr
        (fun _ => Iff.rfl) ?_
      rintro ⟨side', key'⟩
      unfold Memory.listAt
      rw [hblocks]
      by_cases hk : key' = key
      · subst hk
        cases side'
        · simp
        · simp
      · have hne : ∀ s, (side', key') ≠ (s, key) := by
          intro s he
          exact hk (Prod.mk.inj he).2
        rw [Equiv.swap_apply_of_ne_of_ne (hne _) (hne _)]
        simp [hk]
    · intro side' key' lb hb
      rw [hblocks] at hb
      by_cases hk : key' = key
      · rw [if_pos hk] at hb
        exact (h.blockOk _ key' lb hb).frame (fun _ => Iff.rfl) (fun _ => Iff.rfl) fun _ _ => rfl
      · rw [if_neg hk] at hb
        exact (h.blockOk _ key' lb hb).frame (fun _ => Iff.rfl) (fun _ => Iff.rfl) fun _ _ => rfl
  · exact h

theorem Memory.AllocInv.withError {m : Memory} (h : m.AllocInv) {bm : BitMap}
    (hi : bm.itemCount = m.errorBitMap.itemCount) :
    Memory.AllocInv { m with errorBitMap := bm } :=
  ⟨h.normal_items, hi.trans h.error_items, h.main_size, h.extend_size, h.bit_iff, h.partition,
    fun side key lb hb => (h.blockOk side key lb hb).frame (fun _ => Iff.rfl) (fun _ => Iff.rfl)
      fun _ _ => rfl,
    h.used_eq, h.used_extend_eq⟩

theorem setErrorBitmap_ok {m : Memory} {ids : List ℕ} (h : m.AllocInv)
    (hlt : ∀ id ∈ ids, id < m.errorBitMap.itemCount) :
    ∃ m', m.setErrorBitmap ids = .ok m' ∧ m'.AllocInv ∧ m'.superBlock = m.superBlock := by
  induction ids generalizing m with
  | nil => exact ⟨m, rfl, h, rfl⟩
  | cons id ids ih =>
    rw [Memory.setErrorBitmap, if_pos (hlt id List.mem_cons_self)]
    exact ih (h.withError rfl) fun i hi => hlt i (List.mem_cons_of_mem _ hi)

theorem resetErrorBitmap_ok {m : Memory} {ids : List ℕ} (h : m.AllocInv)
    (hlt : ∀ id ∈ ids, id < m.errorBitMap.itemCount) :
    ∃ m', m.resetErrorBitmap ids = .ok m' ∧ m'.AllocInv ∧ m'.superBlock = m.superBlock := by
  induction ids generalizing m with
  | nil => exact ⟨m, rfl, h, rfl⟩
  | cons id ids ih =>
    rw [Memory.resetErrorBitmap, if_pos (hlt id List.mem_cons_self)]
    exact ih (h.withError rfl) fun i hi => hlt i (List.mem_cons_of_mem _ hi)

end Tefs.DataServer
