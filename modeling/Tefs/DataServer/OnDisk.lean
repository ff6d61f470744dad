import Tefs.DataServer.Reload

/-! # What the operations leave on the disk

`new_block`, a round of `extend_block`, `del_block` and writes of data that succeed keep `OnDisk`: the
prefixes they dump are those of the blocks in memory, and a chain grows at its end only.
-/

namespace Tefs.DataServer
set_option autoImplicit false

/-! ## Prefixes after a dump -/

theorem prefixOf_dumped (d : Disk) (id : ℕ) (pb : PhysicalBlock) (blockType : BlockType) (i : ℕ) :
    (d.dumped id pb).prefixOf blockType i =
      if (blockType = .main ↔ pb.blockType = .main) ∧ i = id then
        (d.prefixOf blockType i).map fun _ => pb.blockPrefix
      else d.prefixOf blockType i := by
  unfold Disk.dumped Disk.updateFile Disk.prefixOf
  by_cases hb : blockType = .main <;> by_cases hp : pb.blockType = .main <;> by_cases hi : i = id <;>
    simp [hb, hp, hi, Function.comp_def]

theorem prefixOf_dumped_self {d : Disk} {id : ℕ} {pb : PhysicalBlock} {blockType : BlockType}
    (ht : blockType = .main ↔ pb.blockType = .main)
    (hsome : (d.prefixOf blockType id).isSome = true) :
    (d.dumped id pb).prefixOf blockType id = some pb.blockPrefix := by
  rw [prefixOf_dumped, if_pos ⟨ht, rfl⟩]
  obtain ⟨p, hp⟩ := Option.isSome_iff_exists.mp hsome
  rw [hp]
  rfl

theorem prefixOf_dumped_isSome (d : Disk) (id : ℕ) (pb : PhysicalBlock) (blockType : BlockType)
    (i : ℕ) : ((d.dumped id pb).prefixOf blockType i).isSome = (d.prefixOf blockType i).isSome := by
  rw [prefixOf_dumped]
  split
  · rw [Option.isSome_map]
  · rfl

theorem Manager.BlockOnDisk.frame {s s' : Manager} {key : Key} {main : ℕ} {exts : List ℕ}
    (h : s.BlockOnDisk key main exts)
    (hm : s'.disk.prefixOf .main main = s.disk.prefixOf .main main)
    (hx : ∀ e ∈ exts, s'.disk.prefixOf .ext e = s.disk.prefixOf .ext e) :
    s'.BlockOnDisk key main exts := by
  obtain ⟨hne, p, hp, hkey, hlink⟩ := h
  exact ⟨hne, p, hm.trans hp, hkey, hlink.congr hx⟩

/-! ## One operation -/

section Steps

variable {s s' : Manager} (ha : s.toMemory.AllocInv) (h : s.OnDisk)

include h in
theorem Manager.OnDisk.sameButData (hsame : s.SameButData s') : s'.OnDisk := by
  obtain ⟨hmem, hsuper, hnormal, herror, hheads⟩ := hsame
  refine ⟨?_, ?_, ?_, ?_, ?_, ?_, ?_, ?_, ?_, ?_⟩
  · rw [hsuper, hmem]
    exact h.super
  · rw [hmem]
    exact h.tagged
  · rw [hnormal, hmem]
    exact h.normal
  · rw [herror, hmem]
    exact h.error
  · intro id
    rw [hheads, hmem]
    exact h.main_file id
  · intro id
    rw [hheads, hmem]
    exact h.extend_file id
  · rw [hmem]
    exact h.compact
  · intro id pb hpb hid
    rw [hheads, hmem]
    rw [hmem] at hpb hid
    exact h.main_phys id pb hpb hid
  · intro id pb hpb hid
    rw [hheads, hmem]
    rw [hmem] at hpb hid
    exact h.extend_phys id pb hpb hid
  · intro key lb hb
    rw [hmem] at hb
    obtain ⟨main, exts, hlb, hblock⟩ := h.linked key lb hb
    exact ⟨main, exts, by rw [hmem]; exact hlb,
      hblock.frame (hheads _ _) fun e _ => hheads _ _⟩

include h in
/-- Only the prefix of the new block is another one. -/
theorem Manager.OnDisk.newBlock_prefixes {key : Key} {id : ℕ} (hid : s.superBlock.isMain id)
    (hheads : ∀ blockType i, s'.disk.prefixOf blockType i =
      (s.disk.dumped id (s.superBlock.mainBlock key)).prefixOf blockType i) :
    (∀ i, i ≠ id → s'.disk.prefixOf .main i = s.disk.prefixOf .main i) ∧
      (∀ i, s'.disk.prefixOf .ext i = s.disk.prefixOf .ext i) ∧
      s'.disk.prefixOf .main id = some ⟨key.1, key.2, 0, 0⟩ := by
  refine ⟨fun i hi => ?_, fun i => ?_, ?_⟩
  · rw [hheads, prefixOf_dumped, if_neg fun hc => hi hc.2]
  · rw [hheads, prefixOf_dumped, if_neg]
    intro hc
    cases hc.1.mpr rfl
  · rw [hheads]
    exact prefixOf_dumped_self ⟨fun _ => rfl, fun _ => rfl⟩ ((h.main_file id).mpr hid)

include ha h in
theorem Manager.OnDisk.newBlock {key : Key} {id : ℕ} (hkey : key ≠ (0, 0))
    (hid : s.superBlock.isMain id) (ht : s.normalBitMap.test id = false)
    (mem : s'.toMemory = s.toMemory.withMain .main key id (s.superBlock.mainBlock key))
    (disk : s'.disk = { s.disk.dumped id (s.superBlock.mainBlock key) with
      superBlock := (s.superBlock.addMain, s.superBlock.addMain),
      normalBitMap := ((s.normalBitMap.set id).data, (s.normalBitMap.set id).data),
      errorBitMap := (s.errorBitMap.data, s.errorBitMap.data) }) : s'.OnDisk := by
  have hsuper : s'.superBlock = s.superBlock.addMain := by
    rw [mem]
    rfl
  have hheads : ∀ blockType i, s'.disk.prefixOf blockType i =
      (s.disk.dumped id (s.superBlock.mainBlock key)).prefixOf blockType i := by
    intro blockType i
    rw [disk]
    rfl
  obtain ⟨hmainOther, hext, hself⟩ := h.newBlock_prefixes hid hheads
  have hphys : ∀ i, s'.physicalBlocks i =
      if i = id then some (s.superBlock.mainBlock key) else s.physicalBlocks i := by
    intro i
    rw [mem]
    exact Function.update_apply _ _ _ _
  have hblocks : ∀ key', s'.logicBlocks key' = if key' = key then
      some (s.superBlock.blockOf key id []) else s.logicBlocks key' := by
    intro key'
    change s'.toMemory.blocksOf .main key' = _
    rw [mem, blocksOf_withMain]
    by_cases hk : key' = key
    · rw [if_pos ⟨rfl, hk⟩, if_pos hk]
      simp [LogicBlock.new, LogicBlock.addPhysicBlock, SuperBlock.blockOf, SuperBlock.mainBlock]
    · rw [if_neg fun hc => hk hc.2, if_neg hk]
      rfl
  refine ⟨?_, ?_, ?_, ?_, ?_, ?_, ?_, ?_, ?_, ?_⟩
  · rw [disk, hsuper]
  · rw [hsuper]
    exact h.tagged
  · rw [disk, mem]
    rfl
  · rw [disk, mem]
    rfl
  · intro i
    rw [hheads, prefixOf_dumped_isSome, hsuper]
    exact h.main_file i
  · intro i
    rw [hext, hsuper]
    exact h.extend_file i
  · intro key'
    rw [mem]
    exact h.compact key'
  · intro i pb hpb hi
    rw [hsuper] at hi ⊢
    rw [hphys] at hpb
    by_cases hii : i = id
    · rw [if_pos hii] at hpb
      cases hpb
      rw [hii]
      exact ⟨_, hself, rfl⟩
    · rw [if_neg hii] at hpb
      rw [hmainOther i hii]
      exact h.main_phys i pb hpb hi
  · intro i pb hpb hi
    rw [hsuper] at hi ⊢
    rw [hphys, if_neg fun hii => hid.ne_extend hi hii.symm] at hpb
    rw [hext]
    exact h.extend_phys i pb hpb hi
  · intro key' lb hb
    rw [hblocks] at hb
    rw [hsuper]
    by_cases hk : key' = key
    · rw [if_pos hk] at hb
      cases hb
      subst hk
      exact ⟨id, [], rfl, hkey, ⟨key'.1, key'.2, 0, 0⟩, hself, rfl, rfl⟩
    · rw [if_neg hk] at hb
      obtain ⟨main, exts, rfl, hblock⟩ := h.linked key' lb hb
      refine ⟨main, exts, rfl, hblock.frame (hmainOther main ?_) fun e _ => hext e⟩
      exact ha.listed_ne ht (show s.toMemory.blocksOf .main key' = _ from hb) List.mem_cons_self

include h in
theorem Manager.OnDisk.delBlock {key : Key} {lb : LogicBlock}
    (mem : s'.toMemory = s.toMemory.without .main key lb)
    (disk : s'.disk = { s.disk with
      superBlock := (s'.superBlock, s'.superBlock),
      normalBitMap := (s'.normalBitMap.data, s'.normalBitMap.data),
      errorBitMap := (s'.errorBitMap.data, s'.errorBitMap.data) }) : s'.OnDisk := by
  have hsuper : s'.superBlock = s.superBlock.remove lb.physicalBlockList.length := by
    rw [mem]
    rfl
  have hheads : ∀ blockType i, s'.disk.prefixOf blockType i = s.disk.prefixOf blockType i := by
    intro blockType i
    rw [disk]
    rfl
  have hphys : ∀ i pb, s'.physicalBlocks i = some pb → s.physicalBlocks i = some pb := by
    intro i pb hpb
    have hpb' : (s.toMemory.erased .main key lb).physicalBlocks i = some pb := by
      rw [mem] at hpb
      exact hpb
    rw [erased_physicalBlocks] at hpb'
    split at hpb'
    · cases hpb'
    · exact hpb'
  refine ⟨?_, ?_, ?_, ?_, ?_, ?_, ?_, ?_, ?_, ?_⟩
  · rw [disk]
  · rw [hsuper]
    exact h.tagged
  · rw [disk]
  · rw [disk]
  · intro i
    rw [hheads, hsuper]
    exact h.main_file i
  · intro i
    rw [hheads, hsuper]
    exact h.extend_file i
  · intro key'
    rw [mem]
    exact h.compact key'
  · intro i pb hpb hi
    rw [hsuper] at hi ⊢
    rw [hheads]
    exact h.main_phys i pb (hphys i pb hpb) hi
  · intro i pb hpb hi
    rw [hsuper] at hi ⊢
    rw [hheads]
    exact h.extend_phys i pb (hphys i pb hpb) hi
  · intro key' lb' hb
    have hb' : (s.toMemory.erased .main key lb).blocksOf .main key' = some lb' := by
      rw [mem] at hb
      exact hb
    rw [erased_blocksOf] at hb'
    split at hb'
    · cases hb'
    · obtain ⟨main, exts, rfl, hblock⟩ := h.linked key' lb' hb'
      exact ⟨main, exts, by rw [hsuper]; rfl, hblock.frame (hheads _ _) fun e _ => hheads _ _⟩

include h in
theorem Manager.OnDisk.phys_cases {id : ℕ} {pb : PhysicalBlock} (hpb : s.physicalBlocks id = some pb)
    (hr : s.superBlock.isMain id ∨ s.superBlock.isExtend id) :
    s.superBlock.isMain id ∧ s.disk.prefixOf .main id = some pb.blockPrefix ∧
        pb = s.superBlock.loadedMain pb.blockPrefix ∨
      s.superBlock.isExtend id ∧ s.disk.prefixOf .ext id = some pb.blockPrefix ∧
        pb = s.superBlock.loadedExt pb.blockPrefix := by
  rcases hr with hm | hx
  · obtain ⟨p, hp, rfl⟩ := h.main_phys id pb hpb hm
    exact Or.inl ⟨hm, hp, rfl⟩
  · obtain ⟨p, hp, rfl⟩ := h.extend_phys id pb hpb hx
    exact Or.inr ⟨hx, hp, rfl⟩

theorem dumped_super (d : Disk) (id : ℕ) (pb : PhysicalBlock) :
    (d.dumped id pb).superBlock = d.superBlock ∧ (d.dumped id pb).normalBitMap = d.normalBitMap ∧
      (d.dumped id pb).errorBitMap = d.errorBitMap := by
  unfold Disk.dumped Disk.updateFile
  split <;> exact ⟨rfl, rfl, rfl⟩

theorem extended_prefixOf_main (key : Key) (last id : ℕ) (prev : PhysicalBlock) (i : ℕ) :
    (s.extended key last id prev).prefixOf .main i =
      if prev.blockType = .main ∧ i = last then
        (s.disk.prefixOf .main i).map fun _ => (prev.withNext id).blockPrefix
      else s.disk.prefixOf .main i := by
  have hinner : (Disk.dumped { s.disk with
      superBlock := (s.superBlock.addExtend, s.superBlock.addExtend),
      normalBitMap := ((s.normalBitMap.set id).data, (s.normalBitMap.set id).data),
      errorBitMap := (s.errorBitMap.data, s.errorBitMap.data) } id
        (s.superBlock.extendBlock key last)).prefixOf .main i = s.disk.prefixOf .main i := by
    rw [prefixOf_dumped, if_neg]
    · rfl
    · rintro ⟨hc, -⟩
      cases hc.mp rfl
  unfold Manager.extended
  rw [prefixOf_dumped, hinner]
  simp only [true_iff]
  rfl

theorem extended_prefixOf_ext {key : Key} {last id : ℕ} {prev : PhysicalBlock} (i : ℕ)
    (hid : (s.disk.prefixOf .ext id).isSome = true) (hne : last ≠ id) :
    (s.extended key last id prev).prefixOf .ext i =
      if prev.blockType ≠ .main ∧ i = last then
        (s.disk.prefixOf .ext i).map fun _ => (prev.withNext id).blockPrefix
      else if i = id then some ⟨key.1, key.2, last, 0⟩ else s.disk.prefixOf .ext i := by
  have hinner : (Disk.dumped { s.disk with
      superBlock := (s.superBlock.addExtend, s.superBlock.addExtend),
      normalBitMap := ((s.normalBitMap.set id).data, (s.normalBitMap.set id).data),
      errorBitMap := (s.errorBitMap.data, s.errorBitMap.data) } id
        (s.superBlock.extendBlock key last)).prefixOf .ext i =
          if i = id then some ⟨key.1, key.2, last, 0⟩ else s.disk.prefixOf .ext i := by
    by_cases hi : i = id
    · rw [if_pos hi, hi]
      exact prefixOf_dumped_self ⟨fun hc => (by cases hc), fun hc => (by cases hc)⟩ hid
    · rw [if_neg hi, prefixOf_dumped, if_neg fun hc => hi hc.2]
      rfl
  unfold Manager.extended
  rw [prefixOf_dumped, hinner]
  have hiff : (BlockType.ext = .main ↔ (prev.withNext id).blockType = .main) ↔
      prev.blockType ≠ .main := by
    change (BlockType.ext = .main ↔ prev.blockType = .main) ↔ _
    simp
  simp only [hiff]
  by_cases hc : prev.blockType ≠ .main ∧ i = last
  · rw [if_pos hc, if_pos hc, if_neg fun hi => hne (hc.2.symm.trans hi)]
  · rw [if_neg hc, if_neg hc]

/-- How the prefixes on the disk of `s'` differ from those on the disk of `s` when the extend block
`id` has joined behind `last`, whose prefix is `p` now. -/
structure Manager.Extends (s s' : Manager) (key : Key) (last id : ℕ) (p : BlockPrefix) : Prop where
  main_other : ∀ i, i ≠ last → s'.disk.prefixOf .main i = s.disk.prefixOf .main i
  ext_other : ∀ i, i ≠ last → i ≠ id → s'.disk.prefixOf .ext i = s.disk.prefixOf .ext i
  new : s'.disk.prefixOf .ext id = some ⟨key.1, key.2, last, 0⟩
  -- The block before is in one of the two directories, and the other does not change.
  last_main : s.superBlock.isMain last →
    s.disk.prefixOf .main last = some p ∧
      s'.disk.prefixOf .main last = some { p with nextPhysicBlockId := id }
  last_ext : s.superBlock.isExtend last →
    s.disk.prefixOf .ext last = some p ∧
      s'.disk.prefixOf .ext last = some { p with nextPhysicBlockId := id } ∧
      s'.disk.prefixOf .main last = s.disk.prefixOf .main last

include h in
theorem Manager.OnDisk.extends {key : Key} {last id : ℕ} {prev : PhysicalBlock}
    (hp : s.physicalBlocks last = some prev)
    (hr : s.superBlock.isMain last ∨ s.superBlock.isExtend last) (hid : s.superBlock.isExtend id)
    (hne : last ≠ id) (disk : s'.disk = s.extended key last id prev) :
    s.Extends s' key last id prev.blockPrefix := by
  have hsome := (h.extend_file id).mpr hid
  refine ⟨?_, ?_, ?_, ?_, ?_⟩
  · intro i hi
    rw [disk, extended_prefixOf_main, if_neg fun hc => hi hc.2]
  · intro i hi hi'
    rw [disk, extended_prefixOf_ext i hsome hne, if_neg fun hc => hi hc.2, if_neg hi']
  · rw [disk, extended_prefixOf_ext id hsome hne, if_neg fun hc => hne hc.2.symm, if_pos rfl]
  · intro hm
    rcases h.phys_cases hp hr with ⟨-, hpre, heq⟩ | ⟨hx, -⟩
    · refine ⟨hpre, ?_⟩
      rw [disk, extended_prefixOf_main, if_pos ⟨by rw [heq]; rfl, rfl⟩, hpre]
      rfl
    · exact absurd rfl (hm.ne_extend hx)
  · intro hx
    rcases h.phys_cases hp hr with ⟨hm, -⟩ | ⟨-, hpre, heq⟩
    · exact absurd rfl (hm.ne_extend hx)
    · have htype : prev.blockType ≠ .main := by
        rw [heq]
        intro hc
        cases hc
      refine ⟨hpre, ?_, ?_⟩
      · rw [disk, extended_prefixOf_ext last hsome hne, if_pos ⟨htype, rfl⟩, hpre]
        rfl
      · rw [disk, extended_prefixOf_main, if_neg fun hc => htype hc.1]

theorem Manager.BlockOnDisk.extend {key : Key} {main last id : ℕ} {exts : List ℕ} {p : BlockPrefix}
    (hblock : s.BlockOnDisk key main exts) (hext : s.Extends s' key last id p)
    (hlast : (main :: exts).getLast? = some last) (hm : s.superBlock.isMain main)
    (hx : ∀ e ∈ exts, s.superBlock.isExtend e) (hnodup : (main :: exts).Nodup) (hnot : id ∉ exts) :
    s'.BlockOnDisk key main (exts ++ [id]) := by
  obtain ⟨hkey, q, hq, hqk, hlink⟩ := hblock
  have hgetD : exts.getLast?.getD main = last := by
    rw [List.getLast?_cons] at hlast
    exact Option.some.inj hlast
  have hne : ∀ e ∈ exts, main ≠ e := fun e he heq => (List.nodup_cons.mp hnodup).1 (heq ▸ he)
  have hsnoc : Linked (s'.disk.prefixOf .ext) main
      (if exts = [] then id else q.nextPhysicBlockId) (exts ++ [id]) := by
    refine hlink.snoc (List.nodup_cons.mp hnodup).2 ⟨_, hext.new, rfl, hgetD.symm⟩ ?_ ?_
    · intro l r hl hr
      have hll : l = last := by
        rw [hl] at hgetD
        exact hgetD
      have hlx := hext.last_ext (hll ▸ hx l (List.mem_of_getLast? hl))
      rw [hll] at hr ⊢
      rw [hlx.1] at hr
      cases hr
      exact hlx.2.1
    · intro e he hel
      refine hext.ext_other e ?_ fun hei => hnot (hei ▸ he)
      rintro rfl
      cases hgl : exts.getLast? with
      | none => simp [List.getLast?_eq_none_iff.mp hgl] at he
      | some l =>
        rw [hgl] at hgetD
        exact hel (by rw [hgl]; exact congrArg some hgetD)
  cases exts with
  | nil =>
    obtain rfl : main = last := hgetD
    obtain ⟨hpre, hpre'⟩ := hext.last_main hm
    rw [hpre] at hq
    cases hq
    exact ⟨hkey, _, hpre', hqk, hsnoc⟩
  | cons e es =>
    have hml : main ≠ last := by
      rw [List.getLast?_cons_cons] at hlast
      exact hne last (List.mem_of_getLast? hlast)
    rw [if_neg (List.cons_ne_nil _ _)] at hsnoc
    exact ⟨hkey, q, (hext.main_other main hml).trans hq, hqk, hsnoc⟩

include h in
/-- The prefixes of the new block, of the one before it and of the others are those in memory. -/
theorem Manager.OnDisk.extended_phys {key : Key} {last id : ℕ} {prev : PhysicalBlock}
    (hp : s.physicalBlocks last = some prev) (hid : s.superBlock.isExtend id)
    (hext : s.Extends s' key last id prev.blockPrefix)
    (hphys : ∀ i, s'.physicalBlocks i = if i = id then some (s.superBlock.extendBlock key last)
      else if i = last then some (prev.withNext id) else s.physicalBlocks i) :
    (∀ i pb, s'.physicalBlocks i = some pb → s.superBlock.isMain i →
      ∃ p, s'.disk.prefixOf .main i = some p ∧ pb = s.superBlock.loadedMain p) ∧
    (∀ i pb, s'.physicalBlocks i = some pb → s.superBlock.isExtend i →
      ∃ p, s'.disk.prefixOf .ext i = some p ∧ pb = s.superBlock.loadedExt p) := by
  constructor
  · intro i pb hpb hi
    rw [hphys, if_neg (hi.ne_extend hid)] at hpb
    by_cases hil : i = last
    · rw [if_pos hil] at hpb
      cases hpb
      rw [hil] at hi ⊢
      obtain ⟨q, -, rfl⟩ := h.main_phys last prev hp hi
      exact ⟨_, (hext.last_main hi).2, rfl⟩
    · rw [if_neg hil] at hpb
      rw [hext.main_other i hil]
      exact h.main_phys i pb hpb hi
  · intro i pb hpb hi
    rw [hphys] at hpb
    by_cases hii : i = id
    · rw [if_pos hii] at hpb
      cases hpb
      rw [hii]
      exact ⟨_, hext.new, rfl⟩
    · rw [if_neg hii] at hpb
      by_cases hil : i = last
      · rw [if_pos hil] at hpb
        cases hpb
        rw [hil] at hi ⊢
        obtain ⟨q, -, rfl⟩ := h.extend_phys last prev hp hi
        exact ⟨_, (hext.last_ext hi).2.1, rfl⟩
      · rw [if_neg hil] at hpb
        rw [hext.ext_other i hil hii]
        exact h.extend_phys i pb hpb hi

include ha h in
theorem Manager.OnDisk.extended_linked {key : Key} {lb : LogicBlock} {last id : ℕ} {p : BlockPrefix}
    (hb : s.logicBlocks key = some lb) (hlast : lb.physicalBlockList.getLast? = some last)
    (ht : s.normalBitMap.test id = false) (hext : s.Extends s' key last id p) :
    ∃ main exts, lb.addPhysicBlock id s.superBlock.extendBlockSize =
      s.superBlock.blockOf key main exts ∧ s'.BlockOnDisk key main exts := by
  have hb' : s.toMemory.blocksOf .main key = some lb := hb
  obtain ⟨main, exts, rfl, hblock⟩ := h.linked key lb hb
  obtain ⟨main', exts', hlist, hm, hx⟩ := (ha.blockOk .main key _ hb').shape
  obtain ⟨rfl, rfl⟩ : main = main' ∧ exts = exts' := List.cons_eq_cons.mp hlist
  refine ⟨main, exts ++ [id], ?_, hblock.extend hext hlast hm hx (ha.list_nodup hb') ?_⟩
  · simp only [LogicBlock.addPhysicBlock, SuperBlock.blockOf, List.cons_append, List.length_append,
      List.length_singleton, LogicBlock.mk.injEq, true_and, and_true]
    push_cast
    ring
  · exact fun hmem => ha.listed_ne ht hb' (List.mem_cons_of_mem _ hmem) rfl

include ha h in
theorem Manager.OnDisk.extended_linked_of_ne {key key' : Key} {lb lb' : LogicBlock} {last id : ℕ}
    {p : BlockPrefix} (hb : s.logicBlocks key = some lb)
    (hlast : lb.physicalBlockList.getLast? = some last) (ht : s.normalBitMap.test id = false)
    (hext : s.Extends s' key last id p) (hk : key' ≠ key) (hlb' : s.logicBlocks key' = some lb') :
    ∃ main exts, lb' = s.superBlock.blockOf key' main exts ∧ s'.BlockOnDisk key' main exts := by
  have hb' : s.toMemory.blocksOf .main key = some lb := hb
  have hlb'' : s.toMemory.blocksOf .main key' = some lb' := hlb'
  obtain ⟨main, exts, rfl, hblock⟩ := h.linked key' lb' hlb'
  -- the block before is in the list of the other key
  have hnl : ∀ e ∈ main :: exts, e ≠ last := by
    rintro e he rfl
    have he' : e ∈ s.toMemory.listAt (.main, key') := by
      rw [listAt_of_some hlb'']
      exact he
    have hplace := ha.partition.disjoint _ _ e he' (listAt_of_some hb' ▸ List.mem_of_getLast? hlast)
    exact hk (Prod.mk.inj hplace).2
  refine ⟨main, exts, rfl, hblock.frame (hext.main_other main (hnl main List.mem_cons_self)) ?_⟩
  intro e he
  exact hext.ext_other e (hnl e (List.mem_cons_of_mem _ he))
    (ha.listed_ne ht hlb'' (List.mem_cons_of_mem _ he))

include ha h in
theorem Manager.OnDisk.extend {key : Key} {lb : LogicBlock} {last id : ℕ} {prev : PhysicalBlock}
    (hb : s.logicBlocks key = some lb) (hlast : lb.physicalBlockList.getLast? = some last)
    (hp : s.physicalBlocks last = some prev) (hid : s.superBlock.isExtend id)
    (ht : s.normalBitMap.test id = false)
    (mem : s'.toMemory = s.toMemory.withExt .main key lb last id prev
      (s.superBlock.extendBlock key last))
    (disk : s'.disk = s.extended key last id prev) : s'.OnDisk := by
  have hb' : s.toMemory.blocksOf .main key = some lb := hb
  have hmemlast : last ∈ lb.physicalBlockList := List.mem_of_getLast? hlast
  have hne : last ≠ id := ha.listed_ne ht hb' hmemlast
  have hr := ha.allocated_range (ha.listed_some hb' hmemlast)
  have hext := h.extends hp hr hid hne disk
  have hsuper : s'.superBlock = s.superBlock.addExtend := by
    rw [mem]
    rfl
  have hphys : ∀ i, s'.physicalBlocks i = if i = id then some (s.superBlock.extendBlock key last)
      else if i = last then some (prev.withNext id) else s.physicalBlocks i := by
    intro i
    rw [mem]
    change Function.update (Function.update s.physicalBlocks last _) id _ i = _
    rw [Function.update_apply, Function.update_apply]
  obtain ⟨hmain, hextend⟩ := h.extended_phys hp hid hext hphys
  have hblocks : ∀ key', s'.logicBlocks key' = if key' = key then
      some (lb.addPhysicBlock id s.superBlock.extendBlockSize) else s.logicBlocks key' := by
    intro key'
    rw [mem]
    change Function.update s.logicBlocks key _ key' = _
    rw [Function.update_apply]
    rfl
  have hdumped := dumped_super (Disk.dumped { s.disk with
    superBlock := (s.superBlock.addExtend, s.superBlock.addExtend),
    normalBitMap := ((s.normalBitMap.set id).data, (s.normalBitMap.set id).data),
    errorBitMap := (s.errorBitMap.data, s.errorBitMap.data) } id
      (s.superBlock.extendBlock key last)) last (prev.withNext id)
  have hdumped' := dumped_super { s.disk with
    superBlock := (s.superBlock.addExtend, s.superBlock.addExtend),
    normalBitMap := ((s.normalBitMap.set id).data, (s.normalBitMap.set id).data),
    errorBitMap := (s.errorBitMap.data, s.errorBitMap.data) } id (s.superBlock.extendBlock key last)
  have hfiles : ∀ blockType i, (s'.disk.prefixOf blockType i).isSome =
      (s.disk.prefixOf blockType i).isSome := by
    intro blockType i
    rw [disk]
    unfold Manager.extended
    rw [prefixOf_dumped_isSome, prefixOf_dumped_isSome]
    rfl
  refine ⟨?_, ?_, ?_, ?_, ?_, ?_, ?_, ?_, ?_, ?_⟩
  · rw [disk, hsuper]
    exact hdumped.1.trans hdumped'.1
  · rw [hsuper]
    exact h.tagged
  · rw [disk, mem]
    exact hdumped.2.1.trans hdumped'.2.1
  · rw [disk, mem]
    exact hdumped.2.2.trans hdumped'.2.2
  · intro i
    rw [hsuper, hfiles]
    exact h.main_file i
  · intro i
    rw [hsuper, hfiles]
    exact h.extend_file i
  · intro key'
    rw [mem]
    exact h.compact key'
  · rw [hsuper]
    exact hmain
  · rw [hsuper]
    exact hextend
  · intro key' lb' hlb'
    rw [hblocks] at hlb'
    rw [hsuper]
    by_cases hk : key' = key
    · rw [if_pos hk] at hlb'
      cases hlb'
      subst hk
      exact h.extended_linked ha hb hlast ht hext
    · rw [if_neg hk] at hlb'
      exact h.extended_linked_of_ne ha hb hlast ht hext hk hlb'

end Steps

end Tefs.DataServer
