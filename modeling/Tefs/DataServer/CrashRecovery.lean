import Mathlib.Tactic.IntervalCases
import Tefs.DataServer.LoadLoop

/-! # Loading after a crash

The bitmap, the prefixes and the counters on the disk are arbitrary here, as a crash between two
writes may leave them. `load_block_file` ends on every such disk, and the lists it builds never share a
block. It meets an assertion where a next pointer leaves the bitmap, it leaves a main block in the maps
whose bit it has cleared, and it never recounts the main blocks; `Recoverable` says when none of this
matters.
-/

namespace Tefs.DataServer
set_option autoImplicit false

open Tefs.Partition

/-! ## What a load should leave -/

structure Memory.Recovered (m : Memory) : Prop where
  main_bit_iff : ∀ id, m.superBlock.isMain id →
    (m.normalBitMap.test id = true ↔ (m.physicalBlocks id).isSome = true)
  -- Every physical id is in the list of exactly one logic block of exactly one map, once.
  partition : Partitions (fun id => (m.physicalBlocks id).isSome = true) m.listAt
  used_eq : m.superBlock.usedBlockCount =
    (m.normalBitMap.setBits 1 m.superBlock.mainBlockCount).card

/-- The main blocks in use that have a key. -/
def Manager.initialisedBlocks (s : Manager) : Finset ℕ :=
  (Finset.Icc 1 s.superBlock.mainBlockCount).filter s.Initialised

/-- An id outside the bitmap is met only after an error has ended the load; and where nothing ends it,
the blocks with a broken chain are superseded, and the counter counts the blocks that have a key. -/
def Manager.Recoverable (s : Manager) : Prop :=
  (∀ p, s.Aborts p → ∃ q < p, s.Fails q) ∧
    ((∀ p, ¬ s.Fails p) →
      (∀ p, s.Initialised p → (s.chainOf p).2.isMismatch = true →
        s.Superseded (s.superBlock.mainBlockCount + 1) p) ∧
      s.superBlock.usedBlockCount = s.initialisedBlocks.card)

structure Disk.FormatFiles (d : Disk) : Prop where
  main_file : ∀ id, d.superBlock.1.isMain id → (d.mainFile id).isSome = true
  extend_file : ∀ id, (d.extendFile id).isSome = true → d.superBlock.1.isExtend id

theorem loadSuperBlk_ok {d : Disk} {s : Manager} (h : loadSuperBlk d = .ok s) :
    s.Unloaded ∧ s.disk = d ∧ s.superBlock = d.superBlock.1 ∧
      s.normalBitMap.itemCount = s.superBlock.itemCount := by
  unfold loadSuperBlk at h
  dsimp only at h
  split at h
  · split at h
    · split at h
      · split at h
        · cases h
          refine ⟨⟨fun side key => ?_, fun _ => rfl⟩, rfl, rfl, rfl⟩
          cases side <;> rfl
        · cases h
      · cases h
    · cases h
  · cases h

theorem Disk.FormatFiles.formatted {d : Disk} (hd : d.FormatFiles) {s : Manager}
    (h : loadSuperBlk d = .ok s) : s.Formatted := by
  obtain ⟨-, hdisk, hsuper, hitems⟩ := loadSuperBlk_ok h
  refine ⟨?_, ?_, hitems⟩
  · rw [hdisk, hsuper]
    exact hd.main_file
  · rw [hdisk, hsuper]
    exact hd.extend_file

/-! ## What it leaves -/

section Final

variable {s t : Manager} (hs : s.Formatted) (h : s.LoadedTo (s.superBlock.mainBlockCount + 1) t)

theorem mem_heldTo_end {p : ℕ} : p ∈ s.heldTo (s.superBlock.mainBlockCount + 1) ↔
    s.Initialised p ∧ ¬ s.Superseded (s.superBlock.mainBlockCount + 1) p := by
  rw [mem_heldTo]
  refine ⟨fun hp => hp.2, fun hp => ⟨?_, hp⟩⟩
  have := hp.1.1.2
  omega

theorem mem_initialisedBlocks {p : ℕ} : p ∈ s.initialisedBlocks ↔ s.Initialised p := by
  unfold Manager.initialisedBlocks
  rw [Finset.mem_filter, Finset.mem_Icc]
  exact ⟨fun hp => hp.2, fun hp => ⟨hp.1, hp⟩⟩

include hs h

theorem isSome_iff_held (i : ℕ) : (t.physicalBlocks i).isSome = true ↔
    ∃ p ∈ s.heldTo (s.superBlock.mainBlockCount + 1), i ∈ s.listOf p := by
  constructor
  · intro hsome
    by_contra hno
    push Not at hno
    rw [h.free i hno] at hsome
    cases hsome
  · rintro ⟨p, hp, hi⟩
    rw [h.phys i ⟨p, hp, hi⟩]
    exact hs.loadedAt_isSome (heldTo_isMain p hp) hi

theorem main_isSome_iff {i : ℕ} (hi : s.superBlock.isMain i) : (t.physicalBlocks i).isSome = true ↔
    i ∈ s.heldTo (s.superBlock.mainBlockCount + 1) := by
  rw [isSome_iff_held hs h]
  constructor
  · rintro ⟨p, hp, hmem⟩
    rw [hs.main_mem_listOf hi] at hmem
    exact hmem ▸ hp
  · exact fun hp => ⟨i, hp, List.mem_cons_self⟩

theorem main_test_iff {i : ℕ} (hi : s.superBlock.isMain i) : t.normalBitMap.test i = true ↔
    s.Initialised i ∧ (s.chainOf i).2.isMismatch = false ∧
      ¬ s.Superseded (s.superBlock.mainBlockCount + 1) i := by
  have hlt : i < s.superBlock.mainBlockCount + 1 := by
    have := hi.2
    omega
  rw [h.bit]
  constructor
  · rintro ⟨ht, hr, hg⟩
    have hnr : ¬ s.Released i := fun hrel => hr (mem_releasedTo.mpr ⟨hlt, hrel⟩)
    refine ⟨⟨hi, ht, fun hk => hnr ⟨hi, ht, Or.inl hk⟩⟩, ?_, ?_⟩
    · rw [← Bool.not_eq_true]
      exact fun hm => hnr ⟨hi, ht, Or.inr hm⟩
    · exact fun hsup => hg i (mem_goneTo.mpr hsup) List.mem_cons_self
  · rintro ⟨hinit, hm, hn⟩
    refine ⟨hinit.2.1, ?_, ?_⟩
    · intro hr
      rcases (mem_releasedTo.mp hr).2.2.2 with hk | hm'
      · exact hinit.2.2 hk
      · rw [hm] at hm'
        cases hm'
    · intro q hq hmem
      rw [hs.main_mem_listOf hi] at hmem
      exact hn (hmem ▸ mem_goneTo.mp hq)

theorem loaded_partition : Partitions (fun id => (t.physicalBlocks id).isSome = true) t.toMemory.listAt := by
  have hlist : ∀ {place : Place} {i : ℕ}, i ∈ t.toMemory.listAt place →
      ∃ p ∈ s.heldTo (s.superBlock.mainBlockCount + 1), s.sideAt p = place.1 ∧ s.keyAt p = place.2 ∧
        i ∈ s.listOf p := by
    intro place i hi
    obtain ⟨lb, hb, hmem⟩ := exists_of_mem_listAt hi
    obtain ⟨p, hp, hside, hkey, rfl⟩ := (h.blocks _ _ _).mp hb
    exact ⟨p, hp, hside, hkey, hmem⟩
  refine ⟨?_, ?_, ?_⟩
  · rintro ⟨side, key⟩
    cases hb : t.toMemory.blocksOf side key with
    | none =>
      rw [listAt_of_none hb]
      exact List.nodup_nil
    | some lb =>
      rw [listAt_of_some hb]
      obtain ⟨p, hp, -, -, rfl⟩ := (h.blocks _ _ _).mp hb
      exact hs.listOf_nodup (heldTo_isMain p hp)
  · intro place place' i hi hi'
    obtain ⟨p, hp, hside, hkey, hmem⟩ := hlist hi
    obtain ⟨p', hp', hside', hkey', hmem'⟩ := hlist hi'
    obtain rfl := hs.listOf_disjoint (heldTo_isMain p hp) (heldTo_isMain p' hp') hmem hmem'
    exact Prod.ext (hside.symm.trans hside') (hkey.symm.trans hkey')
  · intro i
    rw [isSome_iff_held hs h]
    constructor
    · rintro ⟨p, hp, hi⟩
      refine ⟨(s.sideAt p, s.keyAt p), ?_⟩
      rw [listAt_of_some ((h.blocks _ _ _).mpr ⟨p, hp, rfl, rfl, rfl⟩)]
      exact hi
    · rintro ⟨place, hi⟩
      obtain ⟨p, hp, -, -, hmem⟩ := hlist hi
      exact ⟨p, hp, hmem⟩

theorem main_bit_iff_iff : (∀ id, t.superBlock.isMain id →
    (t.normalBitMap.test id = true ↔ (t.physicalBlocks id).isSome = true)) ↔
      ∀ p, s.Initialised p → (s.chainOf p).2.isMismatch = true →
        s.Superseded (s.superBlock.mainBlockCount + 1) p := by
  constructor
  · intro hbits p hp hm
    by_contra hn
    have hsome := (main_isSome_iff hs h hp.1).mpr (mem_heldTo_end.mpr ⟨hp, hn⟩)
    have ht := (hbits p ((h.layout.isMain_iff p).mpr hp.1)).mpr hsome
    rw [main_test_iff hs h hp.1, hm] at ht
    cases ht.2.1
  · intro hsup id hid
    rw [h.layout.isMain_iff] at hid
    rw [main_test_iff hs h hid, main_isSome_iff hs h hid, mem_heldTo_end]
    constructor
    · rintro ⟨hi, -, hn⟩
      exact ⟨hi, hn⟩
    · rintro ⟨hi, hn⟩
      refine ⟨hi, ?_, hn⟩
      rw [← Bool.not_eq_true]
      exact fun hm => hn (hsup id hi hm)

theorem used_eq_iff (hsup : ∀ p, s.Initialised p → (s.chainOf p).2.isMismatch = true →
    s.Superseded (s.superBlock.mainBlockCount + 1) p) :
    t.superBlock.usedBlockCount = (t.normalBitMap.setBits 1 t.superBlock.mainBlockCount).card ↔
      s.superBlock.usedBlockCount = s.initialisedBlocks.card := by
  have hbits : t.normalBitMap.setBits 1 t.superBlock.mainBlockCount =
      s.initialisedBlocks \ s.goneTo (s.superBlock.mainBlockCount + 1) := by
    ext p
    rw [BitMap.mem_setBits, h.layout.1, Finset.mem_sdiff, mem_initialisedBlocks, mem_goneTo]
    constructor
    · rintro ⟨hr, ht⟩
      rw [main_test_iff hs h hr] at ht
      exact ⟨ht.1, ht.2.2⟩
    · rintro ⟨hi, hn⟩
      refine ⟨hi.1, (main_test_iff hs h hi.1).mpr ⟨hi, ?_, hn⟩⟩
      rw [← Bool.not_eq_true]
      exact fun hm => hn (hsup p hi hm)
  have hsub : s.goneTo (s.superBlock.mainBlockCount + 1) ⊆ s.initialisedBlocks := by
    intro q hq
    exact mem_initialisedBlocks.mpr (mem_goneTo.mp hq).1
  have hcard := Finset.card_sdiff_add_card_eq_card hsub
  rw [hbits, h.used]
  omega

theorem recovered_iff : t.toMemory.Recovered ↔
    (∀ p, s.Initialised p → (s.chainOf p).2.isMismatch = true →
      s.Superseded (s.superBlock.mainBlockCount + 1) p) ∧
    s.superBlock.usedBlockCount = s.initialisedBlocks.card := by
  constructor
  · intro hr
    have hsup := (main_bit_iff_iff hs h).mp hr.main_bit_iff
    exact ⟨hsup, (used_eq_iff hs h hsup).mp hr.used_eq⟩
  · rintro ⟨hsup, hused⟩
    exact ⟨(main_bit_iff_iff hs h).mpr hsup, loaded_partition hs h, (used_eq_iff hs h hsup).mpr hused⟩

end Final

/-! ## The exact condition -/

theorem not_fails_and_aborts {s : Manager} {p : ℕ} (hf : s.Fails p) : ¬ s.Aborts p := by
  obtain ⟨-, hf | ⟨c, hc, hcl⟩⟩ := hf
  · rintro ⟨-, ha | ⟨c, ha, -⟩⟩
    · rw [hf] at ha
      cases ha
    · rw [hf] at ha
      cases ha
  · rintro ⟨-, ha | ⟨c', ha, hncl⟩⟩
    · rw [ha] at hc
      rcases hc with hc | hc <;> cases hc
    · rw [ha] at hc
      rcases hc with hc | hc
      · cases hc
      · cases hc
        exact hncl hcl

/-- For every bitmap, every content of the prefixes and every counter on the disk: the load ends
without an assertion and, if it succeeds, leaves bitmap, maps and counter in step, exactly when the
disk is recoverable. -/
theorem loadBlockFile_recovers_iff (d : Disk) (s : Manager) (hload : loadSuperBlk d = .ok s)
    (hfiles : d.FormatFiles) (hsize : 0 < s.superBlock.mainBlockSize) :
    (∃ ret t, s.loadBlockFile = .ok (ret, t) ∧ (ret = tfsSuccess → t.toMemory.Recovered)) ↔
      s.Recoverable := by
  have hs := hfiles.formatted hload
  have hend := loadBlockFile_end hs hsize (loadSuperBlk_ok hload).1
  have hpos : ∀ p, s.Initialised p → 1 ≤ p ∧ p < 1 + s.superBlock.mainBlockCount := by
    intro p hp
    exact ⟨hp.1.1, by have := hp.1.2; omega⟩
  generalize s.loadBlockFile = out at hend
  cases hend with
  | passed t hno h =>
    rw [show 1 + s.superBlock.mainBlockCount = s.superBlock.mainBlockCount + 1 by omega] at h
    have hnever : ∀ p, s.Initialised p → ¬ s.Fails p ∧ ¬ s.Aborts p :=
      fun p hp => hno p (hpos p hp).1 (hpos p hp).2
    constructor
    · rintro ⟨ret, t', heq, hr⟩
      cases heq
      exact ⟨fun p ha => absurd ha (hnever p ha.1).2, fun _ => (recovered_iff hs h).mp (hr rfl)⟩
    · intro hrec
      refine ⟨_, t, rfl, fun _ => (recovered_iff hs h).mpr (hrec.2 fun p hf => ?_)⟩
      exact (hnever p hf.1).1 hf
  | failed ret t p hret hno hf =>
    constructor
    · rintro -
      refine ⟨fun q ha => ?_, fun hnf => absurd hf (hnf p)⟩
      refine ⟨p, ?_, hf⟩
      by_contra hle
      rcases eq_or_lt_of_le (not_lt.mp hle) with rfl | hlt
      · exact not_fails_and_aborts hf ha
      · exact (hno q (hpos q ha.1).1 hlt).2 ha
    · rintro -
      exact ⟨ret, t, rfl, fun hz => absurd hz hret⟩
  | aborted a p hno ha =>
    constructor
    · rintro ⟨ret, t, heq, -⟩
      cases heq
    · intro hrec
      obtain ⟨q, hq, hf⟩ := hrec.1 p ha
      exact absurd hf (hno q (hpos q hf.1).1 hq).1

/-! ## Disks a crash leaves -/

/-- A disk with two main blocks and one extend block, ids 1 to 3: the counter, the byte of the bitmap,
and the prefixes of blocks 1 and 3. -/
def smallDisk (used : ℤ) (bits : Byte) (mainPrefix extPrefix : BlockPrefix) : Disk :=
  let sb := { SuperBlock.fresh 2 1 100 50 with usedBlockCount := used }
  { superBlock := (sb, sb), normalBitMap := ([bits], [bits]), errorBitMap := ([0], [0]),
    mainFile := fun id =>
      if id = 1 then some { blockPrefix := mainPrefix, data := fun _ => 0 }
      else if id = 2 then some BlockFile.blank else none,
    extendFile := fun id =>
      if id = 3 then some { blockPrefix := extPrefix, data := fun _ => 0 } else none }

def smallManager (used : ℤ) (bits : Byte) (mainPrefix extPrefix : BlockPrefix) : Manager :=
  { superBlock := { SuperBlock.fresh 2 1 100 50 with usedBlockCount := used },
    normalBitMap := ⟨4, [bits], rfl⟩, errorBitMap := ⟨4, [0], rfl⟩, logicBlocks := fun _ => none,
    compactLogicBlocks := fun _ => none, physicalBlocks := fun _ => none,
    disk := smallDisk used bits mainPrefix extPrefix }

theorem loadSuperBlk_smallDisk (used : ℤ) (bits : Byte) (mainPrefix extPrefix : BlockPrefix) :
    loadSuperBlk (smallDisk used bits mainPrefix extPrefix) =
      .ok (smallManager used bits mainPrefix extPrefix) := by
  unfold loadSuperBlk
  have hsize : slotCount (SuperBlock.itemCount { SuperBlock.fresh 2 1 100 50 with
      usedBlockCount := used }) = 1 := by
    change slotCount 4 = 1
    rfl
  exact (if_pos rfl).trans ((dif_pos ⟨hsize.symm, hsize.symm⟩).trans ((if_pos rfl).trans (if_pos rfl)))

theorem smallDisk_formatFiles (used : ℤ) (bits : Byte) (mainPrefix extPrefix : BlockPrefix) :
    (smallDisk used bits mainPrefix extPrefix).FormatFiles := by
  constructor
  · rintro id ⟨h₁, h₂⟩
    change id ≤ 2 at h₂
    interval_cases id <;> rfl
  · intro id hid
    by_cases h : id = 3
    · subst h
      exact ⟨le_refl 3, le_refl 3⟩
    · simp [smallDisk, h] at hid

/-- Block 1 with block 3 behind it, both in use and counted. -/
theorem smallDisk_recovers :
    loadSuperBlk (smallDisk 1 0x50 ⟨7, 0, 0, 3⟩ ⟨7, 0, 1, 0⟩) =
        .ok (smallManager 1 0x50 ⟨7, 0, 0, 3⟩ ⟨7, 0, 1, 0⟩) ∧
      ∃ ret t, (smallManager 1 0x50 ⟨7, 0, 0, 3⟩ ⟨7, 0, 1, 0⟩).loadBlockFile = .ok (ret, t) ∧
        (ret = tfsSuccess → t.toMemory.Recovered) := by
  refine ⟨loadSuperBlk_smallDisk _ _ _ _, (loadBlockFile_recovers_iff _ _
    (loadSuperBlk_smallDisk _ _ _ _) (smallDisk_formatFiles _ _ _ _) (by decide)).mpr ?_⟩
  have hone : ∀ p, (smallManager 1 0x50 ⟨7, 0, 0, 3⟩ ⟨7, 0, 1, 0⟩).Initialised p → p = 1 := by
    rintro p ⟨⟨h₁, h₂⟩, ht, -⟩
    change p ≤ 2 at h₂
    interval_cases p
    · rfl
    · revert ht
      decide
  have hchain : ((smallManager 1 0x50 ⟨7, 0, 0, 3⟩ ⟨7, 0, 1, 0⟩).chainOf 1).2 = .ended := by decide
  refine ⟨fun p ha => ?_, fun _ => ⟨fun p hp hm => ?_, by decide⟩⟩
  · obtain rfl := hone p ha.1
    obtain ⟨-, ha | ⟨c, ha, -⟩⟩ := ha
    · rw [hchain] at ha
      cases ha
    · rw [hchain] at ha
      cases ha
  · obtain rfl := hone p hp
    rw [hchain] at hm
    cases hm

/-- A next pointer outside the bitmap trips the assertion of `test`; a block 3 that does not point back
leaves block 1 in the maps with its bit clear; and a crash between the writes of bitmap and super block
leaves a counter that the load does not correct. -/
theorem smallDisk_not_recovered :
    (∃ s, loadSuperBlk (smallDisk 1 0x40 ⟨7, 0, 0, 9⟩ BlockPrefix.zero) = .ok s ∧
      s.loadBlockFile = .error .bitMap) ∧
    (∃ s t, loadSuperBlk (smallDisk 1 0x50 ⟨7, 0, 0, 3⟩ ⟨7, 0, 2, 0⟩) = .ok s ∧
      s.loadBlockFile = .ok (tfsSuccess, t) ∧ t.normalBitMap.test 1 = false ∧
      (t.physicalBlocks 1).isSome = true) ∧
    ∃ s t, loadSuperBlk (smallDisk 0 0x40 ⟨7, 0, 0, 0⟩ BlockPrefix.zero) = .ok s ∧
      s.loadBlockFile = .ok (tfsSuccess, t) ∧ t.superBlock.usedBlockCount = 0 ∧
      (t.normalBitMap.setBits 1 2).card = 1 := by
  refine ⟨⟨_, rfl, rfl⟩, ⟨_, _, rfl, rfl, by decide, by decide⟩, ⟨_, _, rfl, rfl, by decide, by decide⟩⟩

end Tefs.DataServer
