import Tefs.DataServer.DataHandle
import Tefs.DataServer.CrashRecovery

/-! # Loading what a manager wrote

`OnDisk`: the super block file holds the super block and the bitmaps of the manager, and the prefixes
hold its chains. Where this and the allocation invariant hold, loading the disk gives back the manager
that wrote it.
-/

namespace Tefs.DataServer
set_option autoImplicit false

open Tefs.Partition

/-! ## Chains of prefixes -/

/-- The ids of the list follow each other from `next` on, each pointing back to the one before and the
last one with next pointer zero. -/
def Linked (prefixAt : ℕ → Option BlockPrefix) : ℕ → ℕ → List ℕ → Prop
  | _, next, [] => next = 0
  | extPos, next, id :: ids =>
    next = id ∧ ∃ p, prefixAt id = some p ∧ p.prevPhysicBlockId = extPos ∧
      Linked prefixAt id p.nextPhysicBlockId ids

theorem Linked.congr {f f' : ℕ → Option BlockPrefix} {extPos next : ℕ} {ids : List ℕ}
    (hf : ∀ id ∈ ids, f' id = f id) (h : Linked f extPos next ids) : Linked f' extPos next ids := by
  induction ids generalizing extPos next with
  | nil => exact h
  | cons id ids ih =>
    obtain ⟨hn, p, hp, hprev, hrest⟩ := h
    exact ⟨hn, p, (hf id List.mem_cons_self).trans hp, hprev,
      ih (fun i hi => hf i (List.mem_cons_of_mem _ hi)) hrest⟩

theorem Linked.snoc {f f' : ℕ → Option BlockPrefix} {extPos next id : ℕ} {ids : List ℕ}
    (hnodup : ids.Nodup) (hid : ∃ p, f' id = some p ∧ p.nextPhysicBlockId = 0 ∧
      p.prevPhysicBlockId = ids.getLast?.getD extPos)
    (hlast : ∀ last p, ids.getLast? = some last → f last = some p →
      f' last = some { p with nextPhysicBlockId := id })
    (hother : ∀ e ∈ ids, ids.getLast? ≠ some e → f' e = f e) (h : Linked f extPos next ids) :
    Linked f' extPos (if ids = [] then id else next) (ids ++ [id]) := by
  induction ids generalizing extPos next with
  | nil =>
    obtain ⟨p, hp, hz, hprev⟩ := hid
    exact ⟨rfl, p, hp, hprev, hz⟩
  | cons e ids ih =>
    obtain ⟨hn, p, hp, hprev, hrest⟩ := h
    rw [if_neg (List.cons_ne_nil _ _)]
    have hgl : ∀ x : ℕ, (e :: ids).getLast?.getD x = ids.getLast?.getD e := by
      intro x
      rw [List.getLast?_cons]
      rfl
    have htail := ih (List.nodup_cons.mp hnodup).2 (by rwa [hgl] at hid) ?_ ?_ hrest
    · cases ids with
      | nil =>
        rw [if_pos rfl] at htail
        exact ⟨hn, _, hlast e p rfl hp, hprev, htail⟩
      | cons e' ids =>
        rw [if_neg (List.cons_ne_nil _ _)] at htail
        have hne : (e :: e' :: ids).getLast? ≠ some e := by
          intro heq
          have hmem : e ∈ e' :: ids := by
            rw [List.getLast?_cons_cons] at heq
            exact List.mem_of_getLast? heq
          exact (List.nodup_cons.mp hnodup).1 hmem
        exact ⟨hn, p, (hother e List.mem_cons_self hne).trans hp, hprev, htail⟩
    · intro last q hl hq
      refine hlast last q ?_ hq
      rw [List.getLast?_cons, hl]
      rfl
    · intro x hx hne
      refine hother x (List.mem_cons_of_mem _ hx) ?_
      cases ids with
      | nil => cases hx
      | cons e' ids => rwa [List.getLast?_cons_cons]

theorem walk_linked {s : Manager} {extPos next rounds : ℕ} {ids : List ℕ}
    (h : Linked (s.disk.prefixOf .ext) extPos next ids) (hrounds : ids.length < rounds)
    (hsize : ids ≠ [] → 0 < s.superBlock.extendBlockSize)
    (hids : ∀ id ∈ ids, id ≠ 0 ∧ id < s.normalBitMap.itemCount ∧ s.normalBitMap.test id = true) :
    s.walk rounds extPos next = (ids, .ended) := by
  induction ids generalizing extPos next rounds with
  | nil =>
    obtain ⟨rounds, rfl⟩ : ∃ r, rounds = r + 1 := ⟨rounds - 1, by simp at hrounds; omega⟩
    rw [Manager.walk, if_pos (show next = 0 from h)]
  | cons id ids ih =>
    obtain ⟨rounds, rfl⟩ : ∃ r, rounds = r + 1 := ⟨rounds - 1, by omega⟩
    obtain ⟨rfl, p, hp, hprev, hrest⟩ := h
    obtain ⟨hne, hlt, ht⟩ := hids next List.mem_cons_self
    obtain ⟨file, hf, rfl⟩ : ∃ file, s.disk.extendFile next = some file ∧ file.blockPrefix = p := by
      simpa [Disk.prefixOf] using hp
    have htail := ih hrest (by simpa using hrounds) (fun _ => hsize (List.cons_ne_nil _ _))
      (fun i hi => hids i (List.mem_cons_of_mem _ hi))
    rw [Manager.walk, if_neg hne, if_pos hlt, if_pos ht, if_pos (hsize (List.cons_ne_nil _ _)), hf]
    simp only [hprev, ne_eq, not_true, if_false, htail]

/-! ## The disk holds the manager -/

/-- The manager without its maps: what `load_super_blk` has to find. -/
def Manager.unloaded (s : Manager) : Manager :=
  { s with logicBlocks := fun _ => none, compactLogicBlocks := fun _ => none,
           physicalBlocks := fun _ => none }

def SuperBlock.blockOf (sb : SuperBlock) (key : Key) (main : ℕ) (exts : List ℕ) : LogicBlock :=
  { fileid := key.1, chunkid := key.2,
    availDataSize := sb.mainBlockSize + exts.length * sb.extendBlockSize,
    physicalBlockList := main :: exts }

structure Manager.BlockOnDisk (s : Manager) (key : Key) (main : ℕ) (exts : List ℕ) : Prop where
  key_ne : key ≠ (0, 0)
  chain : ∃ p, s.disk.prefixOf .main main = some p ∧ p.key = key ∧
    Linked (s.disk.prefixOf .ext) main p.nextPhysicBlockId exts

structure Manager.OnDisk (s : Manager) : Prop where
  super : s.disk.superBlock = (s.superBlock, s.superBlock)
  tagged : s.superBlock.tagged = true
  normal : s.disk.normalBitMap = (s.normalBitMap.data, s.normalBitMap.data)
  error : s.disk.errorBitMap = (s.errorBitMap.data, s.errorBitMap.data)
  main_file : ∀ id, (s.disk.prefixOf .main id).isSome = true ↔ s.superBlock.isMain id
  extend_file : ∀ id, (s.disk.prefixOf .ext id).isSome = true ↔ s.superBlock.isExtend id
  compact : ∀ key, s.compactLogicBlocks key = none
  main_phys : ∀ id pb, s.physicalBlocks id = some pb → s.superBlock.isMain id →
    ∃ p, s.disk.prefixOf .main id = some p ∧ pb = s.superBlock.loadedMain p
  extend_phys : ∀ id pb, s.physicalBlocks id = some pb → s.superBlock.isExtend id →
    ∃ p, s.disk.prefixOf .ext id = some p ∧ pb = s.superBlock.loadedExt p
  linked : ∀ key lb, s.logicBlocks key = some lb →
    ∃ main exts, lb = s.superBlock.blockOf key main exts ∧ s.BlockOnDisk key main exts

theorem mainPrefix_of_prefixOf {d : Disk} {id : ℕ} {p : BlockPrefix}
    (h : d.prefixOf .main id = some p) : d.mainPrefix id = p := by
  unfold Disk.prefixOf at h
  rw [if_pos rfl] at h
  unfold Disk.mainPrefix
  cases hf : d.mainFile id with
  | none => simp [hf] at h
  | some file => simpa [hf] using h

section Reload

variable {s : Manager} (ha : s.toMemory.AllocInv) (h : s.OnDisk)
include ha h

theorem loadSuperBlk_onDisk : loadSuperBlk s.disk = .ok s.unloaded := by
  have hn : (BitMap.mk s.superBlock.itemCount s.normalBitMap.data
      (ha.normal_items ▸ s.normalBitMap.size_eq)) = s.normalBitMap :=
    BitMap.ext_data ha.normal_items.symm rfl
  have he : (BitMap.mk s.superBlock.itemCount s.errorBitMap.data
      (ha.error_items ▸ s.errorBitMap.size_eq)) = s.errorBitMap :=
    BitMap.ext_data ha.error_items.symm rfl
  have hlen : s.normalBitMap.data.length = slotCount s.superBlock.itemCount ∧
      s.errorBitMap.data.length = slotCount s.superBlock.itemCount :=
    ⟨ha.normal_items ▸ s.normalBitMap.size_eq, ha.error_items ▸ s.errorBitMap.size_eq⟩
  unfold loadSuperBlk
  simp only [h.super, h.tagged, h.normal, h.error, if_true, hlen, and_self, dite_true, hn, he]
  rfl

theorem unloaded_formatted : s.unloaded.Formatted := by
  refine ⟨fun id hid => ?_, fun id hid => (h.extend_file id).mp ?_, ha.normal_items⟩
  · have hsome := (h.main_file id).mpr hid
    rwa [Disk.prefixOf, if_pos rfl, Option.isSome_map] at hsome
  · rw [Disk.prefixOf, if_neg (by decide), Option.isSome_map]
    exact hid

theorem block_reloads {key : Key} {lb : LogicBlock} (hb : s.logicBlocks key = some lb) :
    ∃ main exts, lb.physicalBlockList = main :: exts ∧ s.unloaded.Initialised main ∧
      s.unloaded.keyAt main = key ∧ s.unloaded.chainOf main = (exts, .ended) ∧
      lb = s.unloaded.loadedBlock main := by
  obtain ⟨main, exts, rfl, hdisk⟩ := h.linked key lb hb
  obtain ⟨p, hp, hkey, hlink⟩ := hdisk.chain
  have hb' : s.toMemory.blocksOf .main key = some (s.superBlock.blockOf key main exts) := hb
  have hmem : ∀ e ∈ main :: exts, (s.physicalBlocks e).isSome = true :=
    fun e he => ha.listed_some hb' he
  have hset : ∀ e ∈ main :: exts, s.normalBitMap.test e = true :=
    fun e he => (ha.bit_iff e).mpr (hmem e he)
  have hlt : ∀ e ∈ main :: exts, e < s.normalBitMap.itemCount :=
    fun e he => ha.allocated_lt (hmem e he)
  have hnodup : (main :: exts).Nodup := ha.list_nodup hb'
  obtain ⟨main', exts', hlist, hm, hx⟩ := (ha.blockOk .main key _ hb').shape
  obtain ⟨rfl, rfl⟩ : main = main' ∧ exts = exts' := List.cons_eq_cons.mp hlist
  have hheads : s.unloaded.disk.mainPrefix main = p := mainPrefix_of_prefixOf hp
  have hchain : s.unloaded.chainOf main = (exts, .ended) := by
    unfold Manager.chainOf
    rw [hheads]
    refine walk_linked hlink ?_ ?_ ?_
    · exact Nat.lt_succ_of_le (length_le_of_nodup (List.nodup_cons.mp hnodup).2
        fun e he => hlt e (List.mem_cons_of_mem _ he))
    · intro hne
      obtain ⟨e, he⟩ := List.exists_mem_of_ne_nil _ hne
      have h₁ := (hx e he).1
      have h₂ := (hx e he).2
      exact ha.extend_size.resolve_left fun hz => by omega
    · intro e he
      have h₁ := (hx e he).1
      exact ⟨by omega, hlt e (List.mem_cons_of_mem _ he), hset e (List.mem_cons_of_mem _ he)⟩
  have hk : s.unloaded.keyAt main = key := by
    unfold Manager.keyAt
    rw [hheads, hkey]
  refine ⟨main, exts, rfl, ⟨hm, hset main List.mem_cons_self, ?_⟩, hk, hchain, ?_⟩
  · rw [hk]
    exact hdisk.key_ne
  · unfold Manager.loadedBlock Manager.listOf
    rw [hchain, hk]
    rfl

/-- Every main block in use is the first block of the logic block with its key. -/
theorem main_reloads {p : ℕ} (hp : s.superBlock.isMain p) (ht : s.normalBitMap.test p = true) :
    s.unloaded.Initialised p ∧ (s.unloaded.chainOf p).2 = .ended ∧
      s.logicBlocks (s.unloaded.keyAt p) = some (s.unloaded.loadedBlock p) := by
  have hsome : (s.physicalBlocks p).isSome = true := (ha.bit_iff p).mp ht
  obtain ⟨⟨side, key⟩, hmem⟩ := (ha.partition.covers p).mp hsome
  obtain ⟨lb, hb, hlist⟩ := exists_of_mem_listAt hmem
  cases side with
  | compact =>
    have hnone := h.compact key
    rw [show s.compactLogicBlocks key = some lb from hb] at hnone
    cases hnone
  | main =>
    obtain ⟨main, exts, hl, hinit, hkey, hchain, hlb⟩ := block_reloads ha h hb
    have hpm : p = main := by
      have hmem : p ∈ s.unloaded.listOf main := by
        rw [hlb] at hlist
        exact hlist
      exact ((unloaded_formatted ha h).main_mem_listOf hp).mp hmem
    subst hpm
    rw [hchain, hkey, ← hlb]
    exact ⟨hinit, rfl, hb⟩

theorem not_repeats_reload {p : ℕ} (hp : s.unloaded.Initialised p) : ¬ s.unloaded.Repeats p := by
  rintro ⟨a, hlt, hinit, hkey⟩
  have h₁ := (main_reloads ha h hinit.1 hinit.2.1).2.2
  have h₂ := (main_reloads ha h hp.1 hp.2.1).2.2
  rw [hkey, h₂] at h₁
  have hlist := congrArg LogicBlock.physicalBlockList (Option.some.inj h₁)
  have heq : p = a := (List.cons_eq_cons.mp hlist).1
  omega

theorem reload_clean (pos : ℕ) : s.unloaded.goneTo pos = ∅ ∧ s.unloaded.releasedTo pos = ∅ := by
  constructor
  · refine Finset.filter_eq_empty_iff.mpr fun q _ hq => ?_
    exact not_repeats_reload ha h hq.1 hq.2.1
  · refine Finset.filter_eq_empty_iff.mpr fun q _ hq => ?_
    obtain ⟨hm, ht, hrest⟩ := hq
    obtain ⟨hinit, hend, -⟩ := main_reloads ha h hm ht
    rcases hrest with hk | hmis
    · exact hinit.2.2 hk
    · rw [hend] at hmis
      cases hmis

theorem loadedAt_reload {id : ℕ} {pb : PhysicalBlock} (hpb : s.physicalBlocks id = some pb) :
    s.unloaded.loadedAt id = some pb := by
  unfold Manager.loadedAt
  rcases ha.allocated_range (show (s.physicalBlocks id).isSome = true by simp [hpb]) with hm | hx
  · obtain ⟨p, hp, rfl⟩ := h.main_phys id pb hpb hm
    rw [if_pos (show s.unloaded.superBlock.isMain id from hm)]
    exact congrArg (fun q => some (s.superBlock.loadedMain q)) (mainPrefix_of_prefixOf hp)
  · obtain ⟨p, hp, rfl⟩ := h.extend_phys id pb hpb hx
    rw [if_neg (show ¬ s.unloaded.superBlock.isMain id from fun hm => hm.ne_extend hx rfl)]
    rw [Disk.prefixOf, if_neg (by decide)] at hp
    obtain ⟨file, hf, rfl⟩ := Option.map_eq_some_iff.mp hp
    change (s.disk.extendFile id).map _ = _
    rw [hf]
    rfl

theorem loadedTo_reload {t : Manager}
    (ht : s.unloaded.LoadedTo (s.superBlock.mainBlockCount + 1) t) : t = s := by
  obtain ⟨hgone, hreleased⟩ := reload_clean ha h (s.superBlock.mainBlockCount + 1)
  obtain ⟨hsuper, hnormal, hdisk⟩ := ht.untouched hgone hreleased
  have hheld : ∀ p, p ∈ s.unloaded.heldTo (s.superBlock.mainBlockCount + 1) ↔
      s.unloaded.Initialised p := by
    intro p
    refine ⟨fun hp => (mem_heldTo.mp hp).2.1, fun hp => mem_heldTo.mpr ⟨?_, hp, ?_⟩⟩
    · have := hp.1.2
      exact Nat.lt_succ_of_le this
    · exact fun hsup => not_repeats_reload ha h hp hsup.2.1
  have hblocks : ∀ side key lb, t.toMemory.blocksOf side key = some lb ↔
      s.toMemory.blocksOf side key = some lb := by
    intro side key lb
    rw [ht.blocks]
    constructor
    · rintro ⟨p, hp, rfl, rfl, rfl⟩
      have hp := (hheld p).mp hp
      rw [show s.unloaded.sideAt p = .main from if_neg (not_repeats_reload ha h hp)]
      exact (main_reloads ha h hp.1 hp.2.1).2.2
    · intro hb
      cases side with
      | compact =>
        have hnone := h.compact key
        rw [show s.compactLogicBlocks key = some lb from hb] at hnone
        cases hnone
      | main =>
        obtain ⟨main, exts, -, hinit, hkey, -, hlb⟩ := block_reloads ha h hb
        exact ⟨main, (hheld main).mpr hinit, if_neg (not_repeats_reload ha h hinit), hkey, hlb⟩
  have hphys : ∀ i, t.physicalBlocks i = s.physicalBlocks i := by
    intro i
    cases hpb : s.physicalBlocks i with
    | none =>
      refine ht.free i fun p hp hi => ?_
      have hb := (hblocks _ _ _).mp ((ht.blocks _ _ _).mpr ⟨p, hp, rfl, rfl, rfl⟩)
      have hsome := ha.listed_some hb (show i ∈ (s.unloaded.loadedBlock p).physicalBlockList from hi)
      rw [hpb] at hsome
      cases hsome
    | some pb =>
      have hsome : (s.physicalBlocks i).isSome = true := by simp [hpb]
      obtain ⟨place, hmem⟩ := (ha.partition.covers i).mp hsome
      obtain ⟨lb, hb, hlist⟩ := exists_of_mem_listAt hmem
      obtain ⟨p, hp, -, -, rfl⟩ := (ht.blocks _ _ _).mp ((hblocks _ _ _).mpr hb)
      rw [ht.phys i ⟨p, hp, hlist⟩]
      exact loadedAt_reload ha h hpb
  refine Manager.ext hsuper hnormal ht.errorBitMap ?_ ?_ (funext hphys) hdisk
  · funext key
    exact Option.ext fun lb => hblocks .main key lb
  · funext key
    exact Option.ext fun lb => hblocks .compact key lb

/-- The disk gives back the manager that wrote it. -/
theorem bootstrap_onDisk : bootstrap s.disk = .ok (tfsSuccess, some s) := by
  have hs := unloaded_formatted ha h
  have hclean : ∀ p, ¬ s.unloaded.Fails p ∧ ¬ s.unloaded.Aborts p := by
    intro p
    constructor
    · rintro ⟨hp, hf⟩
      rw [(main_reloads ha h hp.1 hp.2.1).2.1] at hf
      simp at hf
    · rintro ⟨hp, hf⟩
      rw [(main_reloads ha h hp.1 hp.2.1).2.1] at hf
      simp at hf
  have hend := loadBlockFile_end hs ha.main_size ⟨fun side _ => by cases side <;> rfl, fun _ => rfl⟩
  unfold bootstrap
  rw [loadSuperBlk_onDisk ha h]
  dsimp only
  generalize s.unloaded.loadBlockFile = out at hend
  cases hend with
  | failed ret t p hret hno hf => exact absurd hf (hclean p).1
  | aborted a p hno hab => exact absurd hab (hclean p).2
  | passed t hno ht =>
    rw [add_comm] at ht
    rw [loadedTo_reload ha h ht]
    rfl

end Reload

end Tefs.DataServer
