import Mathlib.Data.List.Dedup
import Mathlib.Data.List.Perm.Basic
import Tefs.Lib.KeyedList
import Tefs.NameServer.Tables

/-! # What the procedures do to the tables

First the effect of each row operation on the two lists, the triggers reduced to one signed change
of `FinishedNum` (`updDelta`). Then `Tables.WellFormed`: the keys are unique, no replica is listed
twice, and every block row has its file row. No procedure leaves it.
-/

namespace Tefs.NameServer
set_option autoImplicit false

/-! ## Triggers are one signed change -/

/-- The columns of `FileInfo` that no trigger touches. -/
def FileRow.core (f : FileRow) : ℕ × Hash × ℤ × ℤ × FileStatus :=
  (f.fileId, f.hash, f.fileSize, f.blockNum, f.status)

def Tables.cores (t : Tables) : List (ℕ × Hash × ℤ × ℤ × FileStatus) := t.files.map FileRow.core

@[simp] theorem core_addFinished (fid : ℕ) (d : ℤ) (f : FileRow) :
    (f.addFinished fid d).core = f.core := by
  unfold FileRow.addFinished FileRow.core
  split <;> rfl

@[simp] theorem addFinished_blocks (t : Tables) (fid : ℕ) (d : ℤ) :
    (t.addFinished fid d).blocks = t.blocks := rfl

@[simp] theorem addFinished_nextFileId (t : Tables) (fid : ℕ) (d : ℤ) :
    (t.addFinished fid d).nextFileId = t.nextFileId := rfl

@[simp] theorem addFinished_nextBlockId (t : Tables) (fid : ℕ) (d : ℤ) :
    (t.addFinished fid d).nextBlockId = t.nextBlockId := rfl

@[simp] theorem addFinished_cores (t : Tables) (fid : ℕ) (d : ℤ) :
    (t.addFinished fid d).cores = t.cores := by
  simp [Tables.cores, Tables.addFinished, Function.comp_def]

theorem addFinished_zero (t : Tables) (fid : ℕ) : t.addFinished fid 0 = t := by
  have h : FileRow.addFinished fid 0 = id := by
    funext f
    unfold FileRow.addFinished
    split <;> simp
  simp [Tables.addFinished, h]

def Tables.updDelta (t : Tables) (old : BlockRow) (new : BlockStatus) : ℤ :=
  if t.liveCount old.fileId old.blockindex = 0 ∧ new = .live then 1
  else if t.liveCount old.fileId old.blockindex = 1 ∧ (new = .toDelete ∨ new = .deleting) then -1
  else 0

theorem updblock_eq (t : Tables) (old : BlockRow) (new : BlockStatus) :
    t.updblock old new = t.addFinished old.fileId (t.updDelta old new) := by
  unfold Tables.updblock Tables.updDelta
  split
  · rfl
  · split
    · rfl
    · rw [addFinished_zero]

def Tables.insDelta (t : Tables) (fid : ℕ) (bindex : ℤ) : ℤ :=
  if t.liveCount fid bindex = 0 then 1 else 0

theorem cpyblock_live (t : Tables) (new : BlockRow) (h : new.status = .live) :
    t.cpyblock new = t.addFinished new.fileId (t.insDelta new.fileId new.blockindex) := by
  unfold Tables.cpyblock Tables.insDelta
  by_cases hc : t.liveCount new.fileId new.blockindex = 0
  · simp [hc, h]
  · simp [hc, addFinished_zero]

/-- `delblock` only acts on a live row, and only rows that are being deleted are deleted. -/
theorem delblock_deleting (t : Tables) (old : BlockRow) (h : old.status = .deleting) :
    t.delblock old = t := by
  simp [Tables.delblock, h]

/-! ## Updates of `BlockInfo` -/

theorem updateRow_files (t : Tables) (st : BlockStatus) (old : BlockRow) :
    (t.updateRow st old).files = t.files.map (FileRow.addFinished old.fileId (t.updDelta old st)) := by
  simp [Tables.updateRow, updblock_eq, Tables.addFinished]

@[simp] theorem updateRow_blocks (t : Tables) (st : BlockStatus) (old : BlockRow) :
    (t.updateRow st old).blocks = t.blocks.map (BlockRow.withStatus old.id st) := by
  simp [Tables.updateRow, updblock_eq]

@[simp] theorem updateRow_cores (t : Tables) (st : BlockStatus) (old : BlockRow) :
    (t.updateRow st old).cores = t.cores := by
  rw [← addFinished_cores t old.fileId (t.updDelta old st)]
  simp [Tables.cores, updateRow_files, Tables.addFinished]

@[simp] theorem updateRow_nextFileId (t : Tables) (st : BlockStatus) (old : BlockRow) :
    (t.updateRow st old).nextFileId = t.nextFileId := by
  simp [Tables.updateRow, updblock_eq]

@[simp] theorem updateRow_nextBlockId (t : Tables) (st : BlockStatus) (old : BlockRow) :
    (t.updateRow st old).nextBlockId = t.nextBlockId := by
  simp [Tables.updateRow, updblock_eq]

theorem flatMap_filter_id_perm (ids : List ℕ) (rows : List BlockRow) (h : ids.Nodup) :
    (ids.flatMap fun i => rows.filter fun r => r.id = i).Perm
      (rows.filter fun r => r.id ∈ ids) := by
  induction ids with
  | nil => simp
  | cons i ids ih =>
    obtain ⟨hi, hn⟩ := List.nodup_cons.mp h
    rw [List.flatMap_cons]
    refine ((ih hn).append_left _).trans ?_
    have e₁ : (rows.filter fun r => r.id ∈ i :: ids).filter (fun r => decide (r.id = i)) =
        rows.filter fun r => r.id = i := by
      rw [List.filter_filter]
      apply List.filter_congr
      intro r _
      by_cases hr : r.id = i <;> simp [hr]
    have e₂ : (rows.filter fun r => r.id ∈ i :: ids).filter (fun r => !decide (r.id = i)) =
        rows.filter fun r => r.id ∈ ids := by
      rw [List.filter_filter]
      apply List.filter_congr
      intro r _
      by_cases hr : r.id = i <;> simp [hr, hi]
    have hp := List.filter_append_perm (fun r : BlockRow => decide (r.id = i))
      (rows.filter fun r => r.id ∈ i :: ids)
    rwa [e₁, e₂] at hp

theorem arrange_perm (ord : List ℕ) (rows : List BlockRow) : (arrange ord rows).Perm rows := by
  have h := flatMap_filter_id_perm ord.dedup rows (List.nodup_dedup ord)
  simp only [List.mem_dedup] at h
  refine (h.append_right _).trans ?_
  simpa using List.filter_append_perm (fun r : BlockRow => decide (r.id ∈ ord)) rows

theorem mem_arrange {ord : List ℕ} {rows : List BlockRow} {r : BlockRow} :
    r ∈ arrange ord rows ↔ r ∈ rows := (arrange_perm ord rows).mem_iff

theorem foldl_updateRow_blocks (st : BlockStatus) (rows : List BlockRow) (t : Tables) :
    (rows.foldl (fun t r => t.updateRow st r) t).blocks =
      t.blocks.map fun q => if ∃ r ∈ rows, r.id = q.id then { q with status := st } else q := by
  induction rows generalizing t with
  | nil => simp
  | cons r rows ih =>
    rw [List.foldl_cons, ih, updateRow_blocks, List.map_map]
    apply List.map_congr_left
    intro q _
    by_cases hq : q.id = r.id
    · simp [BlockRow.withStatus, hq]
    · simp [BlockRow.withStatus, hq, Ne.symm hq]

theorem foldl_updateRow_frame (st : BlockStatus) (rows : List BlockRow) (t : Tables) :
    (rows.foldl (fun t r => t.updateRow st r) t).cores = t.cores ∧
    (rows.foldl (fun t r => t.updateRow st r) t).nextFileId = t.nextFileId ∧
    (rows.foldl (fun t r => t.updateRow st r) t).nextBlockId = t.nextBlockId := by
  induction rows generalizing t with
  | nil => simp
  | cons r rows ih => simpa using ih (t.updateRow st r)

@[simp] theorem updateWhere_cores (t : Tables) (ord : List ℕ) (p : BlockRow → Bool)
    (st : BlockStatus) : (t.updateWhere ord p st).cores = t.cores :=
  (foldl_updateRow_frame st _ t).1

@[simp] theorem updateWhere_nextFileId (t : Tables) (ord : List ℕ) (p : BlockRow → Bool)
    (st : BlockStatus) : (t.updateWhere ord p st).nextFileId = t.nextFileId :=
  (foldl_updateRow_frame st _ t).2.1

@[simp] theorem updateWhere_nextBlockId (t : Tables) (ord : List ℕ) (p : BlockRow → Bool)
    (st : BlockStatus) : (t.updateWhere ord p st).nextBlockId = t.nextBlockId :=
  (foldl_updateRow_frame st _ t).2.2

/-- With unique ids an update sets the status of exactly the matching rows, whatever the order. -/
theorem updateWhere_blocks (t : Tables) (ord : List ℕ) (p : BlockRow → Bool) (st : BlockStatus)
    (hid : (t.blocks.map BlockRow.id).Nodup) :
    (t.updateWhere ord p st).blocks =
      t.blocks.map fun q => if p q then { q with status := st } else q := by
  unfold Tables.updateWhere
  rw [foldl_updateRow_blocks]
  apply List.map_congr_left
  intro q hq
  have h : (∃ r ∈ arrange ord (t.blocks.filter p), r.id = q.id) ↔ p q = true := by
    constructor
    · rintro ⟨r, hr, he⟩
      obtain ⟨hr, hp⟩ := List.mem_filter.mp (mem_arrange.mp hr)
      rwa [← KeyedList.eq_of_key_eq hid hr hq he]
    · intro hp
      exact ⟨q, mem_arrange.mpr (List.mem_filter.mpr ⟨hq, hp⟩), rfl⟩
  by_cases hp : p q = true
  · rw [if_pos (h.mpr hp), if_pos hp]
  · rw [if_neg (fun hn => hp (h.mp hn)), if_neg hp]

/-! ## Inserts and deletes -/

@[simp] theorem insertBlock_blocks (t : Tables) (bindex : ℤ) (ds fid : ℕ) :
    (t.insertBlock bindex ds fid .live).blocks = t.blocks ++
      [{ id := t.nextBlockId, blockindex := bindex, dsid := ds, fileId := fid, status := .live }] := by
  simp [Tables.insertBlock, cpyblock_live]

theorem insertBlock_files (t : Tables) (bindex : ℤ) (ds fid : ℕ) :
    (t.insertBlock bindex ds fid .live).files =
      t.files.map (FileRow.addFinished fid (t.insDelta fid bindex)) := by
  simp [Tables.insertBlock, cpyblock_live, Tables.addFinished]

@[simp] theorem insertBlock_cores (t : Tables) (bindex : ℤ) (ds fid : ℕ) :
    (t.insertBlock bindex ds fid .live).cores = t.cores := by
  rw [Tables.cores, insertBlock_files, List.map_map]
  simp [Tables.cores, Function.comp_def]

@[simp] theorem insertBlock_nextFileId (t : Tables) (bindex : ℤ) (ds fid : ℕ) :
    (t.insertBlock bindex ds fid .live).nextFileId = t.nextFileId := by
  simp [Tables.insertBlock, cpyblock_live]

@[simp] theorem insertBlock_nextBlockId (t : Tables) (bindex : ℤ) (ds fid : ℕ) :
    (t.insertBlock bindex ds fid .live).nextBlockId = t.nextBlockId + 1 := by
  simp [Tables.insertBlock, cpyblock_live]

theorem deleteRow_deleting (t : Tables) (old : BlockRow) (h : old.status = .deleting) :
    t.deleteRow old = { t with blocks := t.blocks.filter fun r => r.id ≠ old.id } :=
  delblock_deleting _ old h

theorem foldl_deleteRow (rows : List BlockRow) (h : ∀ r ∈ rows, r.status = .deleting) (t : Tables) :
    rows.foldl Tables.deleteRow t =
      { t with blocks := t.blocks.filter fun q => ∀ r ∈ rows, q.id ≠ r.id } := by
  induction rows generalizing t with
  | nil => simp
  | cons r rows ih =>
    rw [List.foldl_cons, deleteRow_deleting t r (h r (by simp)),
      ih (fun q hq => h q (by simp [hq]))]
    simp [List.filter_filter, Bool.and_comm]

/-- Deleting rows that are being deleted removes exactly those; no counter moves. -/
theorem deleteWhere_deleting (t : Tables) (p : BlockRow → Bool)
    (hid : (t.blocks.map BlockRow.id).Nodup) (hp : ∀ r, p r = true → r.status = .deleting) :
    t.deleteWhere p = { t with blocks := t.blocks.filter fun q => !p q } := by
  unfold Tables.deleteWhere
  rw [foldl_deleteRow _ (fun r hr => hp r (List.mem_filter.mp hr).2)]
  congr 1
  apply List.filter_congr
  intro q hq
  have h : p q = false → ∀ r ∈ t.blocks.filter p, q.id ≠ r.id := by
    intro hpq r hr he
    obtain ⟨hr, hpr⟩ := List.mem_filter.mp hr
    rw [← KeyedList.eq_of_key_eq hid hq hr he, hpq] at hpr
    exact Bool.false_ne_true hpr
  cases hpq : p q with
  | false => simpa using h hpq
  | true => simpa using ⟨q, hq, hpq, rfl⟩

/-! ## Well-formed tables -/

def BlockRow.replica (r : BlockRow) : ℕ × ℤ × ℕ := (r.fileId, r.blockindex, r.dsid)

theorem isAt_iff_replica {r : BlockRow} {fid : ℕ} {bindex : ℤ} {ds : ℕ} :
    r.isAt fid bindex ds ↔ r.replica = (fid, bindex, ds) := by
  simp [BlockRow.isAt, BlockRow.replica]

structure Tables.WellFormed (t : Tables) : Prop where
  file_ids : (t.files.map FileRow.fileId).Nodup
  file_hashes : (t.files.map FileRow.hash).Nodup
  file_id_pos : ∀ f ∈ t.files, 0 < f.fileId
  file_id_lt : ∀ f ∈ t.files, f.fileId < t.nextFileId
  next_pos : 0 < t.nextFileId
  block_ids : (t.blocks.map BlockRow.id).Nodup
  block_id_lt : ∀ r ∈ t.blocks, r.id < t.nextBlockId
  replicas : (t.blocks.map BlockRow.replica).Nodup
  owner : ∀ r ∈ t.blocks, ∃ f ∈ t.files, f.fileId = r.fileId

theorem wellFormed_empty : Tables.empty.WellFormed := by
  constructor <;> simp [Tables.empty]

theorem exists_file_of_cores {t t' : Tables} (hc : t'.cores = t.cores) {f : FileRow}
    (hf : f ∈ t.files) : ∃ f' ∈ t'.files, f'.core = f.core := by
  have h : f.core ∈ t'.cores := hc ▸ List.mem_map_of_mem hf
  obtain ⟨f', hf', he⟩ := List.mem_map.mp h
  exact ⟨f', hf', he⟩

theorem fileIds_eq_cores (t : Tables) : t.files.map FileRow.fileId = t.cores.map Prod.fst := by
  simp [Tables.cores, FileRow.core, Function.comp_def]

theorem hashes_eq_cores (t : Tables) :
    t.files.map FileRow.hash = t.cores.map fun c => c.2.1 := by
  simp [Tables.cores, FileRow.core, Function.comp_def]

/-- Changes of statuses and counters keep the tables well formed. -/
theorem Tables.WellFormed.of_frame {t t' : Tables} (h : t.WellFormed) (hc : t'.cores = t.cores)
    (hid : t'.blocks.map BlockRow.id = t.blocks.map BlockRow.id)
    (hr : t'.blocks.map BlockRow.replica = t.blocks.map BlockRow.replica)
    (hf : t'.nextFileId = t.nextFileId) (hb : t'.nextBlockId = t.nextBlockId) :
    t'.WellFormed where
  file_ids := by rw [fileIds_eq_cores, hc, ← fileIds_eq_cores]; exact h.file_ids
  file_hashes := by rw [hashes_eq_cores, hc, ← hashes_eq_cores]; exact h.file_hashes
  file_id_pos := by
    intro f hm
    obtain ⟨g, hg, he⟩ := exists_file_of_cores hc.symm hm
    have := h.file_id_pos g hg
    rwa [show g.fileId = f.fileId from congrArg Prod.fst he] at this
  file_id_lt := by
    intro f hm
    obtain ⟨g, hg, he⟩ := exists_file_of_cores hc.symm hm
    have := h.file_id_lt g hg
    rwa [show g.fileId = f.fileId from congrArg Prod.fst he, ← hf] at this
  next_pos := hf ▸ h.next_pos
  block_ids := hid ▸ h.block_ids
  block_id_lt := by
    intro r hm
    have : r.id ∈ t.blocks.map BlockRow.id := hid ▸ List.mem_map_of_mem hm
    obtain ⟨q, hq, he⟩ := List.mem_map.mp this
    rw [← he, hb]
    exact h.block_id_lt q hq
  replicas := hr ▸ h.replicas
  owner := by
    intro r hm
    have : r.replica ∈ t.blocks.map BlockRow.replica := hr ▸ List.mem_map_of_mem hm
    obtain ⟨q, hq, he⟩ := List.mem_map.mp this
    obtain ⟨f, hf, hfe⟩ := h.owner q hq
    obtain ⟨f', hf', hce⟩ := exists_file_of_cores hc hf
    refine ⟨f', hf', ?_⟩
    rw [show f'.fileId = f.fileId from congrArg Prod.fst hce, hfe]
    exact congrArg Prod.fst he

theorem map_setStatus (rows : List BlockRow) (p : BlockRow → Bool) (st : BlockStatus)
    {β : Type} (g : BlockRow → β) (hg : ∀ r : BlockRow, g { r with status := st } = g r) :
    (rows.map fun q => if p q then { q with status := st } else q).map g = rows.map g := by
  rw [List.map_map]
  apply List.map_congr_left
  intro q _
  by_cases hp : p q <;> simp [hp, hg]

theorem Tables.WellFormed.updateWhere {t : Tables} (h : t.WellFormed) (ord : List ℕ)
    (p : BlockRow → Bool) (st : BlockStatus) : (t.updateWhere ord p st).WellFormed := by
  have hb := updateWhere_blocks t ord p st h.block_ids
  refine h.of_frame (by simp) ?_ ?_ (by simp) (by simp)
  · rw [hb]
    exact map_setStatus _ p st BlockRow.id fun _ => rfl
  · rw [hb]
    exact map_setStatus _ p st BlockRow.replica fun _ => rfl

theorem Tables.WellFormed.sublist {t t' : Tables} (h : t.WellFormed)
    (hf : t'.files.Sublist t.files) (hb : t'.blocks.Sublist t.blocks)
    (hnf : t'.nextFileId = t.nextFileId) (hnb : t'.nextBlockId = t.nextBlockId)
    (ho : ∀ r ∈ t'.blocks, ∀ f ∈ t.files, f.fileId = r.fileId → f ∈ t'.files) :
    t'.WellFormed where
  file_ids := (hf.map _).nodup h.file_ids
  file_hashes := (hf.map _).nodup h.file_hashes
  file_id_pos := fun f hm => h.file_id_pos f (hf.subset hm)
  file_id_lt := fun f hm => hnf ▸ h.file_id_lt f (hf.subset hm)
  next_pos := hnf ▸ h.next_pos
  block_ids := (hb.map _).nodup h.block_ids
  block_id_lt := fun r hm => hnb ▸ h.block_id_lt r (hb.subset hm)
  replicas := (hb.map _).nodup h.replicas
  owner := by
    intro r hm
    obtain ⟨f, hmf, he⟩ := h.owner r (hb.subset hm)
    exact ⟨f, ho r hm f hmf he, he⟩

theorem Tables.WellFormed.deleteFileRow {t : Tables} (h : t.WellFormed) (fid : ℕ)
    (hn : ∀ r ∈ t.blocks, r.fileId ≠ fid) : (t.deleteFileRow fid).WellFormed := by
  refine h.sublist List.filter_sublist (List.Sublist.refl _) rfl rfl ?_
  intro r hr f hf he
  exact List.mem_filter.mpr ⟨hf, by simpa using he ▸ hn r hr⟩

theorem Tables.WellFormed.insertBlock {t : Tables} (h : t.WellFormed) (bindex : ℤ) (ds fid : ℕ)
    (hf : ∃ f ∈ t.files, f.fileId = fid) (hn : ∀ r ∈ t.blocks, ¬ r.isAt fid bindex ds) :
    (t.insertBlock bindex ds fid .live).WellFormed := by
  have hc : (t.insertBlock bindex ds fid .live).cores = t.cores := by simp
  have hfr : ({ t.insertBlock bindex ds fid .live with
      blocks := t.blocks, nextBlockId := t.nextBlockId } : Tables).WellFormed :=
    h.of_frame hc rfl rfl (by simp) rfl
  refine ⟨hfr.file_ids, hfr.file_hashes, hfr.file_id_pos, hfr.file_id_lt, hfr.next_pos,
    ?_, ?_, ?_, ?_⟩
  · rw [insertBlock_blocks, List.map_append, List.nodup_append]
    refine ⟨h.block_ids, by simp, ?_⟩
    intro a ha b hb he
    obtain ⟨r, hr, rfl⟩ := List.mem_map.mp ha
    have := h.block_id_lt r hr
    simp at hb
    omega
  · intro r hr
    rw [insertBlock_blocks, List.mem_append] at hr
    rw [insertBlock_nextBlockId]
    rcases hr with hr | hr
    · exact (h.block_id_lt r hr).trans (Nat.lt_succ_self _)
    · rw [List.mem_singleton.mp hr]
      exact Nat.lt_succ_self _
  · rw [insertBlock_blocks, List.map_append, List.nodup_append]
    refine ⟨h.replicas, by simp, ?_⟩
    intro a ha b hb he
    obtain ⟨r, hr, rfl⟩ := List.mem_map.mp ha
    refine hn r hr (isAt_iff_replica.mpr ?_)
    rw [he]
    simpa [BlockRow.replica] using hb
  · intro r hr
    rw [insertBlock_blocks, List.mem_append] at hr
    rcases hr with hr | hr
    · exact hfr.owner r hr
    · obtain ⟨f, hm, he⟩ := hf
      obtain ⟨f', hm', hce⟩ := exists_file_of_cores hc hm
      refine ⟨f', hm', ?_⟩
      rw [List.mem_singleton.mp hr, show f'.fileId = f.fileId from congrArg Prod.fst hce, he]

/-! ## Every procedure keeps the tables well formed -/

theorem setFileStatus_names (t : Tables) (fid : ℕ) (st : FileStatus) :
    (t.setFileStatus fid st).files.map (fun g => (g.fileId, g.hash)) =
      t.files.map fun g => (g.fileId, g.hash) := by
  simp only [Tables.setFileStatus, List.map_map]
  apply List.map_congr_left
  intro f _
  simp only [Function.comp_apply, FileRow.withStatus]
  split <;> rfl

theorem setFileStatus_fileIds (t : Tables) (fid : ℕ) (st : FileStatus) :
    (t.setFileStatus fid st).files.map FileRow.fileId = t.files.map FileRow.fileId := by
  simpa [Function.comp_def] using congrArg (List.map Prod.fst) (setFileStatus_names t fid st)

theorem setFileStatus_hashes (t : Tables) (fid : ℕ) (st : FileStatus) :
    (t.setFileStatus fid st).files.map FileRow.hash = t.files.map FileRow.hash := by
  simpa [Function.comp_def] using congrArg (List.map Prod.snd) (setFileStatus_names t fid st)

theorem withStatus_fileId (fid : ℕ) (st : FileStatus) (f : FileRow) :
    (f.withStatus fid st).fileId = f.fileId := by
  unfold FileRow.withStatus
  split <;> rfl

theorem Tables.WellFormed.setFileStatus {t : Tables} (h : t.WellFormed) (fid : ℕ)
    (st : FileStatus) : (t.setFileStatus fid st).WellFormed where
  file_ids := by rw [setFileStatus_fileIds]; exact h.file_ids
  file_hashes := by rw [setFileStatus_hashes]; exact h.file_hashes
  file_id_pos := by
    intro f hf
    obtain ⟨g, hg, rfl⟩ := List.mem_map.mp hf
    rw [withStatus_fileId]
    exact h.file_id_pos g hg
  file_id_lt := by
    intro f hf
    obtain ⟨g, hg, rfl⟩ := List.mem_map.mp hf
    rw [withStatus_fileId]
    exact h.file_id_lt g hg
  next_pos := h.next_pos
  block_ids := h.block_ids
  block_id_lt := h.block_id_lt
  replicas := h.replicas
  owner := by
    intro r hr
    obtain ⟨f, hf, he⟩ := h.owner r hr
    refine ⟨f.withStatus fid st, List.mem_map_of_mem hf, ?_⟩
    rw [withStatus_fileId, he]

theorem Tables.WellFormed.reviveFile {t : Tables} (h : t.WellFormed) (f : FileRow)
    (ord : List ℕ) : (t.reviveFile f ord).WellFormed := by
  unfold Tables.reviveFile
  split
  · exact (h.updateWhere _ _ _).setFileStatus _ _
  · exact h

theorem uploadFile_known {t : Tables} {fhash : Hash} {f : FileRow} (hf : t.fileOf fhash = some f)
    (fsize bnum bindex : ℤ) (ord : List ℕ) :
    (t.uploadFile fhash fsize bnum bindex ord).1 = t.reviveFile f ord := by
  simp only [Tables.uploadFile, hf]
  split <;> rfl

theorem fileOf_some {t : Tables} {fhash : Hash} {f : FileRow} (hf : t.fileOf fhash = some f) :
    f ∈ t.files ∧ f.hash = fhash :=
  ⟨List.mem_of_find?_eq_some hf, by simpa using List.find?_some hf⟩

theorem fileOf_none {t : Tables} {fhash : Hash} (hf : t.fileOf fhash = none) :
    ∀ f ∈ t.files, f.hash ≠ fhash := by
  intro f hm
  simpa using List.find?_eq_none.mp hf f hm

theorem Tables.WellFormed.uploadFile {t : Tables} (h : t.WellFormed) (fhash : Hash)
    (fsize bnum bindex : ℤ) (ord : List ℕ) :
    (t.uploadFile fhash fsize bnum bindex ord).1.WellFormed := by
  cases hf : t.fileOf fhash with
  | some f =>
    rw [uploadFile_known hf]
    exact h.reviveFile f ord
  | none =>
    simp only [Tables.uploadFile, hf]
    refine ⟨?_, ?_, ?_, ?_, Nat.succ_pos _, h.block_ids, h.block_id_lt, h.replicas, ?_⟩
    · rw [List.map_append, List.nodup_append]
      refine ⟨h.file_ids, by simp, ?_⟩
      intro a ha b hb he
      obtain ⟨g, hg, rfl⟩ := List.mem_map.mp ha
      have := h.file_id_lt g hg
      simp at hb
      omega
    · rw [List.map_append, List.nodup_append]
      refine ⟨h.file_hashes, by simp, ?_⟩
      intro a ha b hb he
      obtain ⟨g, hg, rfl⟩ := List.mem_map.mp ha
      simp at hb
      exact fileOf_none hf g hg (he.trans hb)
    · intro g hg
      rcases List.mem_append.mp hg with hg | hg
      · exact h.file_id_pos g hg
      · rw [List.mem_singleton.mp hg]
        exact h.next_pos
    · intro g hg
      rcases List.mem_append.mp hg with hg | hg
      · exact (h.file_id_lt g hg).trans (Nat.lt_succ_self _)
      · rw [List.mem_singleton.mp hg]
        exact Nat.lt_succ_self _
    · intro r hr
      obtain ⟨g, hg, he⟩ := h.owner r hr
      exact ⟨g, List.mem_append_left _ hg, he⟩

theorem reviveFile_names (t : Tables) (f : FileRow) (ord : List ℕ) :
    (t.reviveFile f ord).files.map (fun g => (g.fileId, g.hash)) =
      t.files.map fun g => (g.fileId, g.hash) := by
  have hn : ∀ u : Tables, u.files.map (fun g => (g.fileId, g.hash)) =
      u.cores.map fun c => (c.1, c.2.1) := by
    intro u
    simp [Tables.cores, FileRow.core, Function.comp_def]
  unfold Tables.reviveFile
  split
  · rw [setFileStatus_names, hn, updateWhere_cores, ← hn]
  · rfl

theorem reviveFile_fileId {t : Tables} (h : t.WellFormed) {fhash : Hash} {f g : FileRow}
    {ord : List ℕ} (hf : t.fileOf fhash = some f) (hg : g ∈ (t.reviveFile f ord).files)
    (hh : g.hash = fhash) : g.fileId = f.fileId := by
  have hm : (g.fileId, g.hash) ∈ t.files.map fun g => (g.fileId, g.hash) := by
    rw [← reviveFile_names t f ord]
    exact List.mem_map_of_mem hg
  obtain ⟨g', hg', he⟩ := List.mem_map.mp hm
  obtain ⟨hid, hhash⟩ := Prod.mk.inj he
  obtain ⟨hfm, hfh⟩ := fileOf_some hf
  have : g' = f := KeyedList.eq_of_key_eq h.file_hashes hg' hfm (by rw [hhash, hh, hfh])
  rw [← hid, this]

theorem no_rows_of_any_eq_false {rows : List BlockRow} {fid : ℕ}
    (h : ¬ (rows.any fun r => r.fileId = fid) = true) : ∀ r ∈ rows, r.fileId ≠ fid := by
  intro r hr he
  exact h (List.any_eq_true.mpr ⟨r, hr, by simpa using he⟩)

theorem Tables.WellFormed.deleteFile {t : Tables} (h : t.WellFormed) (fhash : Hash)
    (ord : List ℕ) : (t.deleteFile fhash ord).WellFormed := by
  unfold Tables.deleteFile
  split
  · exact h
  · dsimp only
    split
    · exact (h.setFileStatus _ _).updateWhere _ _ _
    · split
      · split
        · exact h
        · next hn => exact h.deleteFileRow _ (no_rows_of_any_eq_false hn)
      · exact h

theorem deleteBlock_rows {t : Tables} (h : t.WellFormed) (fid : ℕ) (bindex : ℤ) (ds : ℕ) :
    (t.deleteWhere fun r => r.isAt fid bindex ds ∧ r.status = .deleting) =
      { t with blocks := t.blocks.filter fun r => ¬ (r.isAt fid bindex ds ∧ r.status = .deleting) } := by
  rw [deleteWhere_deleting t _ h.block_ids fun _ hr => (of_decide_eq_true hr).2]
  simp only [decide_not]

theorem Tables.WellFormed.deleteBlock {t : Tables} (h : t.WellFormed) (fid : ℕ) (bindex : ℤ)
    (ds : ℕ) : (t.deleteBlock fid bindex ds).WellFormed := by
  unfold Tables.deleteBlock
  rw [deleteBlock_rows h]
  have hw : Tables.WellFormed { t with
      blocks := t.blocks.filter fun r => ¬ (r.isAt fid bindex ds ∧ r.status = .deleting) } :=
    h.sublist (List.Sublist.refl _) List.filter_sublist rfl rfl fun _ _ f hf _ => hf
  dsimp only
  split
  · exact hw
  · next hn => exact hw.deleteFileRow _ (no_rows_of_any_eq_false hn)

theorem Tables.WellFormed.copyBlock {t : Tables} (h : t.WellFormed) (fid : ℕ) (bindex : ℤ)
    (ds : ℕ) : (t.copyBlock fid bindex ds).WellFormed := by
  unfold Tables.copyBlock
  split
  · next hf =>
    split
    · next hn =>
      refine h.insertBlock bindex ds fid ?_ ?_
      · obtain ⟨f, hm, he⟩ := List.any_eq_true.mp hf
        exact ⟨f, hm, by simpa using he⟩
      · intro r hr
        simpa using List.find?_eq_none.mp hn r hr
    · exact h.updateWhere _ _ _
  · exact h

theorem Tables.WellFormed.call {t : Tables} (h : t.WellFormed) (p : Proc) :
    (t.call p).WellFormed := by
  cases p with
  | uploadFile fhash fsize bnum bindex ord => exact h.uploadFile fhash fsize bnum bindex ord
  | deleteFile fhash ord => exact h.deleteFile fhash ord
  | deleteBlock fid bindex ds => exact h.deleteBlock fid bindex ds
  | copyBlock fid bindex ds => exact h.copyBlock fid bindex ds
  | setDelIng fid bindex ds ord => exact h.updateWhere _ _ _

theorem Calls.wellFormed {ok : Tables → Proc → Prop} {t t' : Tables} {ps : List Proc}
    (hr : Calls ok t ps t') (h : t.WellFormed) : t'.WellFormed :=
  Runs.Reaches.invariant (I := Tables.WellFormed)
    (fun s p s' hw _ he => (show s.call p = s' from he) ▸ hw.call p) hr h

end Tefs.NameServer
