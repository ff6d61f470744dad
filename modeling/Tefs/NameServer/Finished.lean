import Mathlib.Data.Finset.Card
import Mathlib.Data.Int.Interval
import Tefs.NameServer.WellFormed

/-! # `FinishedNum` and what the triggers make of it

`liveIndices t fid` are the block indices of a file that have a live row. One row update, insert or
delete changes their number by the amount the trigger adds, except that `updblock` also subtracts
one when a row that is not live is marked while exactly one other row of its index is live
(`updateRow_card`). So `FinishedNum` never exceeds the number of live indices, and equals it as
long as that branch is not taken on such a row.
-/

namespace Tefs.NameServer
set_option autoImplicit false

/-- The block indices of file `fid` with at least one live row. -/
def Tables.liveIndices (t : Tables) (fid : ℕ) : Finset ℤ :=
  ((t.blocks.filter fun r => r.fileId = fid ∧ r.status = .live).map BlockRow.blockindex).toFinset

theorem mem_liveIndices {t : Tables} {fid : ℕ} {b : ℤ} :
    b ∈ t.liveIndices fid ↔ 0 < t.liveCount fid b := by
  simp only [Tables.liveIndices, Tables.liveCount, List.mem_toFinset, List.mem_map,
    List.mem_filter, decide_eq_true_eq, List.countP_pos_iff]
  constructor
  · rintro ⟨r, ⟨hr, hf, hs⟩, hb⟩
    exact ⟨r, hr, hf, hb, hs⟩
  · rintro ⟨r, hr, hf, hb, hs⟩
    exact ⟨r, ⟨hr, hf, hs⟩, hb⟩

theorem mem_liveIndices_iff {t : Tables} {fid : ℕ} {b : ℤ} :
    b ∈ t.liveIndices fid ↔ ∃ r ∈ t.blocks, r.fileId = fid ∧ r.blockindex = b ∧ r.status = .live := by
  simp [mem_liveIndices, Tables.liveCount, List.countP_pos_iff]

/-! ## One row -/

theorem liveCount_updateRow {t : Tables} (h : t.WellFormed) {r : BlockRow} (hr : r ∈ t.blocks)
    (st : BlockStatus) (fid : ℕ) (b : ℤ) :
    (t.updateRow st r).liveCount fid b +
        (if r.fileId = fid ∧ r.blockindex = b ∧ r.status = .live then 1 else 0) =
      t.liveCount fid b + (if r.fileId = fid ∧ r.blockindex = b ∧ st = .live then 1 else 0) := by
  have hc := KeyedList.countP_map_ite h.block_ids hr (fun q => { q with status := st })
    (fun q => decide (q.fileId = fid ∧ q.blockindex = b ∧ q.status = .live))
  simp only [decide_eq_true_eq] at hc
  unfold Tables.liveCount
  rw [updateRow_blocks]
  exact hc

theorem card_of_agree_off {s s' : Finset ℤ} {b : ℤ} (h : ∀ c, c ≠ b → (c ∈ s' ↔ c ∈ s)) :
    (s'.card : ℤ) + (if b ∈ s then 1 else 0) = s.card + (if b ∈ s' then 1 else 0) := by
  have he : s'.erase b = s.erase b := by
    ext c
    simp only [Finset.mem_erase]
    exact and_congr_right fun hc => h c hc
  have key : ∀ u : Finset ℤ, (u.card : ℤ) = (u.erase b).card + (if b ∈ u then 1 else 0) := by
    intro u
    by_cases hb : b ∈ u
    · have := Finset.card_erase_add_one hb
      simp only [hb, if_true]
      omega
    · simp [hb]
  rw [key s', key s, he]
  omega

/-- The trigger's change against the true change of the number of live indices. -/
theorem updateRow_card {t : Tables} (h : t.WellFormed) {r : BlockRow} (hr : r ∈ t.blocks)
    (st : BlockStatus) :
    (((t.updateRow st r).liveIndices r.fileId).card : ℤ) =
      (t.liveIndices r.fileId).card + t.updDelta r st +
        (if st ≠ .live ∧ r.status ≠ .live ∧ t.liveCount r.fileId r.blockindex = 1 then 1 else 0) := by
  have hoff : ∀ c, c ≠ r.blockindex →
      (c ∈ (t.updateRow st r).liveIndices r.fileId ↔ c ∈ t.liveIndices r.fileId) := by
    intro c hc
    have := liveCount_updateRow h hr st r.fileId c
    simp only [Ne.symm hc, false_and, and_false, if_false, Nat.add_zero] at this
    rw [mem_liveIndices, mem_liveIndices, this]
  have hcard := card_of_agree_off hoff
  have hcount := liveCount_updateRow h hr st r.fileId r.blockindex
  simp only [true_and] at hcount
  have hpos : r.status = .live → 0 < t.liveCount r.fileId r.blockindex := fun hl =>
    mem_liveIndices.mp (mem_liveIndices_iff.mpr ⟨r, hr, rfl, rfl, hl⟩)
  simp only [mem_liveIndices] at hcard
  unfold Tables.updDelta
  generalize t.liveCount r.fileId r.blockindex = n at *
  generalize (t.updateRow st r).liveCount r.fileId r.blockindex = n' at *
  -- what is left is arithmetic on `n`, `n'` and the two statuses
  cases st <;> grind

theorem updateRow_liveIndices_of_ne {t : Tables} (h : t.WellFormed) {r : BlockRow}
    (hr : r ∈ t.blocks) (st : BlockStatus) {fid : ℕ} (hne : r.fileId ≠ fid) :
    (t.updateRow st r).liveIndices fid = t.liveIndices fid := by
  ext b
  have := liveCount_updateRow h hr st fid b
  simp only [hne, false_and, if_false, Nat.add_zero] at this
  rw [mem_liveIndices, mem_liveIndices, this]

theorem insertBlock_liveCount (t : Tables) (bindex : ℤ) (ds fid fid' : ℕ) (b : ℤ) :
    (t.insertBlock bindex ds fid .live).liveCount fid' b =
      t.liveCount fid' b + (if fid = fid' ∧ bindex = b then 1 else 0) := by
  simp [Tables.liveCount]

theorem insertBlock_card (t : Tables) (bindex : ℤ) (ds fid : ℕ) :
    (((t.insertBlock bindex ds fid .live).liveIndices fid).card : ℤ) =
      (t.liveIndices fid).card + t.insDelta fid bindex := by
  have hoff : ∀ c, c ≠ bindex →
      (c ∈ (t.insertBlock bindex ds fid .live).liveIndices fid ↔ c ∈ t.liveIndices fid) := by
    intro c hc
    simp [mem_liveIndices, insertBlock_liveCount, Ne.symm hc]
  have hcard := card_of_agree_off hoff
  simp only [mem_liveIndices, insertBlock_liveCount, and_self, if_true] at hcard
  unfold Tables.insDelta
  generalize t.liveCount fid bindex = n at *
  grind

theorem insertBlock_liveIndices_of_ne (t : Tables) (bindex : ℤ) (ds : ℕ) {fid fid' : ℕ}
    (hne : fid ≠ fid') :
    (t.insertBlock bindex ds fid .live).liveIndices fid' = t.liveIndices fid' := by
  ext b
  simp [mem_liveIndices, insertBlock_liveCount, hne]

/-! ## Whole tables

`rel` is the relation kept between a counter and the number it should be: `≤` holds throughout,
`=` as long as every single-row update is a good one. -/

/-- Every `FinishedNum` is in relation `rel` to the number of live indices of its file. -/
def Tables.Counts (rel : ℤ → ℤ → Prop) (t : Tables) : Prop :=
  ∀ f ∈ t.files, rel f.finishedNum (t.liveIndices f.fileId).card

/-- Relations that adding the same number on both sides keeps, and that hold at zero. -/
structure CounterRel (rel : ℤ → ℤ → Prop) : Prop where
  zero : rel 0 0
  shift : ∀ a c d, rel a c → rel (a + d) (c + d)

def Tables.GoodUpdate (rel : ℤ → ℤ → Prop) (t : Tables) (st : BlockStatus) (r : BlockRow) : Prop :=
  ∀ a, rel a (t.liveIndices r.fileId).card →
    rel (a + t.updDelta r st) ((t.updateRow st r).liveIndices r.fileId).card

theorem counterRel_le : CounterRel (· ≤ ·) := ⟨le_refl 0, fun _ _ _ h => by omega⟩

theorem counterRel_eq : CounterRel (· = ·) := ⟨rfl, fun _ _ _ h => by omega⟩

theorem goodUpdate_le {t : Tables} (h : t.WellFormed) {r : BlockRow} (hr : r ∈ t.blocks)
    (st : BlockStatus) : t.GoodUpdate (· ≤ ·) st r := by
  intro a ha
  have := updateRow_card h hr st
  split_ifs at this <;> omega

theorem goodUpdate_eq {t : Tables} (h : t.WellFormed) {r : BlockRow} (hr : r ∈ t.blocks)
    {st : BlockStatus}
    (hg : st = .live ∨ r.status = .live ∨ t.liveCount r.fileId r.blockindex ≠ 1) :
    t.GoodUpdate (· = ·) st r := by
  intro a ha
  have := updateRow_card h hr st
  rw [if_neg (by tauto)] at this
  omega

variable {rel : ℤ → ℤ → Prop}

theorem addFinished_counts {t t' : Tables} {fid : ℕ} {d : ℤ} (h : t.Counts rel)
    (hf : t'.files = t.files.map (FileRow.addFinished fid d))
    (hsame : ∀ a, rel a (t.liveIndices fid).card → rel (a + d) (t'.liveIndices fid).card)
    (hother : ∀ g, fid ≠ g → t'.liveIndices g = t.liveIndices g) : t'.Counts rel := by
  intro f hm
  rw [hf] at hm
  obtain ⟨g, hg, rfl⟩ := List.mem_map.mp hm
  by_cases he : g.fileId = fid
  · have := hsame g.finishedNum (he ▸ h g hg)
    simpa [FileRow.addFinished, he] using this
  · have := h g hg
    simpa [FileRow.addFinished, he, hother g.fileId (Ne.symm he)] using this

theorem updateRow_counts {t : Tables} (h : t.WellFormed) (hc : t.Counts rel) {r : BlockRow}
    (hr : r ∈ t.blocks) {st : BlockStatus} (hg : t.GoodUpdate rel st r) :
    (t.updateRow st r).Counts rel :=
  addFinished_counts hc (updateRow_files t st r) hg
    fun _ hne => updateRow_liveIndices_of_ne h hr st hne

theorem Tables.WellFormed.updateRow {t : Tables} (h : t.WellFormed) (st : BlockStatus)
    (r : BlockRow) : (t.updateRow st r).WellFormed := by
  refine h.of_frame (by simp) ?_ ?_ (by simp) (by simp)
  · rw [updateRow_blocks, List.map_map]
    apply List.map_congr_left
    intro q _
    simp only [Function.comp_apply, BlockRow.withStatus]
    split <;> rfl
  · rw [updateRow_blocks, List.map_map]
    apply List.map_congr_left
    intro q _
    simp only [Function.comp_apply, BlockRow.withStatus]
    split <;> rfl

/-- The induction is over the rows still to be visited: they have not been changed yet. -/
theorem foldl_updateRow_counts {st : BlockStatus} (rows : List BlockRow) {t : Tables}
    (h : t.WellFormed) (hc : t.Counts rel) (hn : (rows.map BlockRow.id).Nodup)
    (hm : ∀ r ∈ rows, r ∈ t.blocks)
    (hg : ∀ t' : Tables, t'.WellFormed → ∀ r ∈ rows, r ∈ t'.blocks → t'.GoodUpdate rel st r) :
    (rows.foldl (fun t r => t.updateRow st r) t).Counts rel := by
  induction rows generalizing t with
  | nil => exact hc
  | cons r rows ih =>
    obtain ⟨hr, hn⟩ := List.nodup_cons.mp hn
    have hrt : r ∈ t.blocks := hm r (by simp)
    refine ih (h.updateRow st r) (updateRow_counts h hc hrt (hg t h r (by simp) hrt)) hn ?_
      fun t' h' q hq hqt => hg t' h' q (by simp [hq]) hqt
    intro q hq
    have hne : q.id ≠ r.id := fun he => hr (he ▸ List.mem_map_of_mem hq)
    rw [updateRow_blocks, List.mem_map]
    exact ⟨q, hm q (by simp [hq]), by simp [BlockRow.withStatus, hne]⟩

theorem updateWhere_counts {t : Tables} (h : t.WellFormed) (hc : t.Counts rel) (ord : List ℕ)
    (p : BlockRow → Bool) (st : BlockStatus)
    (hg : ∀ t' : Tables, t'.WellFormed → ∀ r, p r → r ∈ t'.blocks → t'.GoodUpdate rel st r) :
    (t.updateWhere ord p st).Counts rel := by
  have hp := arrange_perm ord (t.blocks.filter p)
  refine foldl_updateRow_counts _ h hc ?_ ?_ ?_
  · rw [(hp.map BlockRow.id).nodup_iff]
    exact (List.filter_sublist.map BlockRow.id).nodup h.block_ids
  · intro r hr
    exact (List.mem_filter.mp (mem_arrange.mp hr)).1
  · intro t' h' r hr hrt
    exact hg t' h' r (List.mem_filter.mp (mem_arrange.mp hr)).2 hrt

/-- At most one row is the replica of a block on a server, so marking it is at most one row
update. -/
theorem setDelIng_eq {t : Tables} (h : t.WellFormed) (fid : ℕ) (bindex : ℤ) (ds : ℕ)
    (ord : List ℕ) :
    t.setDelIng fid bindex ds ord = t ∨
      ∃ r ∈ t.blocks, r.isAt fid bindex ds ∧
        t.setDelIng fid bindex ds ord = t.updateRow .deleting r := by
  have hf := KeyedList.filter_key_eq h.replicas (fid, bindex, ds)
  simp only [← isAt_iff_replica] at hf
  have hp := arrange_perm ord (t.blocks.filter fun r => r.isAt fid bindex ds)
  unfold Tables.setDelIng Tables.updateWhere
  rcases hf with he | ⟨r, hr, hat, he⟩
  · rw [he] at hp
    rw [he, List.perm_nil.mp hp]
    exact Or.inl rfl
  · rw [he] at hp
    rw [he, List.perm_singleton.mp hp]
    exact Or.inr ⟨r, hr, hat, rfl⟩

theorem setDelIng_counts {t : Tables} (h : t.WellFormed) (hc : t.Counts rel) (fid : ℕ)
    (bindex : ℤ) (ds : ℕ) (ord : List ℕ)
    (hg : ∀ r ∈ t.blocks, r.isAt fid bindex ds → t.GoodUpdate rel .deleting r) :
    (t.setDelIng fid bindex ds ord).Counts rel := by
  rcases setDelIng_eq h fid bindex ds ord with he | ⟨r, hr, hat, he⟩
  · rw [he]
    exact hc
  · rw [he]
    exact updateRow_counts h hc hr (hg r hr hat)

theorem setFileStatus_counts {t : Tables} (hc : t.Counts rel) (fid : ℕ) (st : FileStatus) :
    (t.setFileStatus fid st).Counts rel := by
  intro f hf
  obtain ⟨g, hg, rfl⟩ := List.mem_map.mp hf
  have := hc g hg
  unfold FileRow.withStatus
  split <;> exact this

theorem counts_of_files_subset {t t' : Tables} (hc : t.Counts rel)
    (hf : ∀ f ∈ t'.files, f ∈ t.files)
    (hl : ∀ fid, t'.liveIndices fid = t.liveIndices fid) : t'.Counts rel := by
  intro f hm
  rw [hl]
  exact hc f (hf f hm)

theorem filter_deleting_liveIndices (t : Tables) (p : BlockRow → Bool)
    (hp : ∀ r, p r = false → r.status ≠ .live) (fid : ℕ) :
    ({ t with blocks := t.blocks.filter p } : Tables).liveIndices fid = t.liveIndices fid := by
  ext b
  rw [mem_liveIndices_iff, mem_liveIndices_iff]
  constructor
  · rintro ⟨r, hr, h⟩
    exact ⟨r, (List.mem_filter.mp hr).1, h⟩
  · rintro ⟨r, hr, hf, hb, hs⟩
    refine ⟨r, List.mem_filter.mpr ⟨hr, ?_⟩, hf, hb, hs⟩
    by_contra hn
    exact hp r (by simpa using hn) hs

/-! ## The procedures -/

theorem uploadFile_counts (hrel : CounterRel rel) {t : Tables} (h : t.WellFormed)
    (hc : t.Counts rel) (fhash : Hash) (fsize bnum bindex : ℤ) (ord : List ℕ)
    (hg : ∀ t' : Tables, t'.WellFormed → ∀ r ∈ t'.blocks, t'.GoodUpdate rel .live r) :
    (t.uploadFile fhash fsize bnum bindex ord).1.Counts rel := by
  cases hf : t.fileOf fhash with
  | some f =>
    rw [uploadFile_known hf]
    unfold Tables.reviveFile
    split
    · exact setFileStatus_counts
        (updateWhere_counts h hc _ _ _ fun t' h' r _ hr => hg t' h' r hr) _ _
    · exact hc
  | none =>
    simp only [Tables.uploadFile, hf]
    intro f hm
    rcases List.mem_append.mp hm with hm | hm
    · exact hc f hm
    · rw [List.mem_singleton.mp hm]
      -- a new file has no rows: every row's file is older
      have hnone : t.liveIndices t.nextFileId = ∅ := by
        apply Finset.eq_empty_of_forall_notMem
        intro b hb
        obtain ⟨r, hr, hrf, -⟩ := mem_liveIndices_iff.mp hb
        obtain ⟨g, hgm, he⟩ := h.owner r hr
        have := h.file_id_lt g hgm
        omega
      change rel 0 ((t.liveIndices t.nextFileId).card : ℤ)
      rw [hnone]
      exact hrel.zero

theorem deleteFile_counts {t : Tables} (h : t.WellFormed) (hc : t.Counts rel) (fhash : Hash)
    (ord : List ℕ)
    (hg : ∀ t' : Tables, t'.WellFormed → ∀ r ∈ t'.blocks, r.status = .live →
      t'.GoodUpdate rel .toDelete r) :
    (t.deleteFile fhash ord).Counts rel := by
  unfold Tables.deleteFile
  split
  · exact hc
  · dsimp only
    split
    · refine updateWhere_counts (h.setFileStatus _ _) (setFileStatus_counts hc _ _) _ _ _ ?_
      intro t' h' r hp hr
      exact hg t' h' r hr (of_decide_eq_true hp).2
    · split
      · split
        · exact hc
        · exact counts_of_files_subset hc (fun f hf => (List.mem_filter.mp hf).1) fun _ => rfl
      · exact hc

theorem deleteBlock_counts {t : Tables} (h : t.WellFormed) (hc : t.Counts rel) (fid : ℕ)
    (bindex : ℤ) (ds : ℕ) : (t.deleteBlock fid bindex ds).Counts rel := by
  have hl := filter_deleting_liveIndices t
    (fun r => ¬ (r.isAt fid bindex ds ∧ r.status = .deleting)) (by simp_all)
  unfold Tables.deleteBlock
  rw [deleteBlock_rows h]
  dsimp only
  split
  · exact counts_of_files_subset hc (fun _ hf => hf) hl
  · exact counts_of_files_subset hc (fun f hf => (List.mem_filter.mp hf).1) hl

theorem copyBlock_counts (hrel : CounterRel rel) {t : Tables} (h : t.WellFormed)
    (hc : t.Counts rel) (fid : ℕ) (bindex : ℤ) (ds : ℕ)
    (hg : ∀ t' : Tables, t'.WellFormed → ∀ r ∈ t'.blocks, t'.GoodUpdate rel .live r) :
    (t.copyBlock fid bindex ds).Counts rel := by
  unfold Tables.copyBlock
  split
  · split
    · refine addFinished_counts hc (insertBlock_files t bindex ds fid) ?_
        fun _ hne => insertBlock_liveIndices_of_ne t bindex ds hne
      intro a ha
      rw [insertBlock_card]
      exact hrel.shift _ _ _ ha
    · exact updateWhere_counts h hc _ _ _ fun t' h' r _ hr => hg t' h' r hr
  · exact hc

/-- What has to be known of a call for `rel` to survive it: nothing, except for `set_del_ing`. -/
theorem call_counts (hrel : CounterRel rel) {t : Tables} (h : t.WellFormed) (hc : t.Counts rel)
    (p : Proc)
    (hlive : ∀ t' : Tables, t'.WellFormed → ∀ r ∈ t'.blocks, t'.GoodUpdate rel .live r)
    (hmark : ∀ t' : Tables, t'.WellFormed → ∀ r ∈ t'.blocks, r.status = .live →
      t'.GoodUpdate rel .toDelete r)
    (hdel : ∀ fid bindex ds ord, p = .setDelIng fid bindex ds ord →
      ∀ r ∈ t.blocks, r.isAt fid bindex ds → t.GoodUpdate rel .deleting r) :
    (t.call p).Counts rel := by
  cases p with
  | uploadFile fhash fsize bnum bindex ord =>
    exact uploadFile_counts hrel h hc fhash fsize bnum bindex ord hlive
  | deleteFile fhash ord => exact deleteFile_counts h hc fhash ord hmark
  | deleteBlock fid bindex ds => exact deleteBlock_counts h hc fid bindex ds
  | copyBlock fid bindex ds => exact copyBlock_counts hrel h hc fid bindex ds hlive
  | setDelIng fid bindex ds ord =>
    exact setDelIng_counts h hc fid bindex ds ord (hdel fid bindex ds ord rfl)

theorem call_counts_le {t : Tables} (h : t.WellFormed) (hc : t.Counts (· ≤ ·)) (p : Proc) :
    (t.call p).Counts (· ≤ ·) :=
  call_counts counterRel_le h hc p (fun _ h' _ hr => goodUpdate_le h' hr _)
    (fun _ h' _ hr _ => goodUpdate_le h' hr _) fun _ _ _ _ _ _ hr _ => goodUpdate_le h hr _

/-! ## The counter is exact while no dead row is marked beside a single live one -/

/-- A call of `set_del_ing` on a row that is not live finds the number of live rows of its block
different from one. -/
def Tables.MarksCounted (t : Tables) : Proc → Prop
  | .setDelIng fid bindex ds _ =>
    ∀ r ∈ t.blocks, r.isAt fid bindex ds → r.status ≠ .live → t.liveCount fid bindex ≠ 1
  | _ => True

/-- In every run from empty tables whose `set_del_ing` calls mark no dead row beside a single live
one, every `FinishedNum` is the number of block indices with a live row. -/
theorem finishedNum_eq_card_liveIndices (ps : List Proc) (t : Tables)
    (hr : Calls Tables.MarksCounted Tables.empty ps t) :
    ∀ f ∈ t.files, f.finishedNum = (t.liveIndices f.fileId).card := by
  have hinv : t.WellFormed ∧ t.Counts (· = ·) := by
    refine Runs.Reaches.invariant (I := fun t => t.WellFormed ∧ t.Counts (· = ·)) ?_ hr
      ⟨wellFormed_empty, by intro f hf; simp [Tables.empty] at hf⟩
    rintro s p s' ⟨h, hc⟩ hok rfl
    refine ⟨h.call p, call_counts counterRel_eq h hc p ?_ ?_ ?_⟩
    · exact fun _ h' _ hr' => goodUpdate_eq h' hr' (Or.inl rfl)
    · exact fun _ h' _ hr' hl => goodUpdate_eq h' hr' (Or.inr (Or.inl hl))
    · rintro fid bindex ds ord rfl r hr' hat
      refine goodUpdate_eq h hr' ?_
      by_cases hl : r.status = .live
      · exact Or.inr (Or.inl hl)
      · have := hok r hr' hat hl
        rw [← hat.1, ← hat.2.1] at this
        exact Or.inr (Or.inr this)
  exact hinv.2

instance (t : Tables) : ∀ p : Proc, Decidable (t.MarksCounted p)
  | .setDelIng fid bindex ds _ => inferInstanceAs (Decidable (∀ r ∈ t.blocks,
      r.isAt fid bindex ds → r.status ≠ .live → t.liveCount fid bindex ≠ 1))
  | .uploadFile .. => .isTrue trivial
  | .deleteFile .. => .isTrue trivial
  | .deleteBlock .. => .isTrue trivial
  | .copyBlock .. => .isTrue trivial

/-- Two replicas of one block, one of them marked as surplus. -/
def surplusMarked : List Proc :=
  [.uploadFile 7 100 1 0 [], .copyBlock 1 0 5, .copyBlock 1 0 6, .setDelIng 1 0 5 []]

theorem finishedNum_surplusMarked :
    Runs.allAllowed Tables.call Tables.MarksCounted Tables.empty surplusMarked ∧
      ∀ f ∈ (surplusMarked.foldl Tables.call Tables.empty).files,
        f.finishedNum = ((surplusMarked.foldl Tables.call Tables.empty).liveIndices f.fileId).card :=
  ⟨by decide, finishedNum_eq_card_liveIndices surplusMarked _
    (Runs.reaches_of_allAllowed _ _ _ _ (by decide))⟩

def surplusMarkedTwice : List Proc := surplusMarked ++ [Proc.setDelIng 1 0 5 []]

/-- The counter drops to zero while the block still has its live replica on server 6. -/
theorem finishedNum_wrong_after_second_mark :
    ∃ f ∈ (surplusMarkedTwice.foldl Tables.call Tables.empty).files,
      f.finishedNum = 0 ∧
      ((surplusMarkedTwice.foldl Tables.call Tables.empty).liveIndices f.fileId).card = 1 := by
  decide

/-! ## Complete files -/

/-- A backup notice names a block index the file has. -/
def Tables.IndexInRange (t : Tables) : Proc → Prop
  | .copyBlock fid bindex _ =>
    ∀ f ∈ t.files, f.fileId = fid → 0 ≤ bindex ∧ bindex < f.blockNum
  | _ => True

def Tables.RowsInRange (t : Tables) : Prop :=
  ∀ r ∈ t.blocks, ∀ f ∈ t.files, f.fileId = r.fileId → 0 ≤ r.blockindex ∧ r.blockindex < f.blockNum

theorem Tables.RowsInRange.of_rows {t t' : Tables} (h : t.RowsInRange)
    (hb : ∀ r ∈ t'.blocks, ∃ q ∈ t.blocks, q.fileId = r.fileId ∧ q.blockindex = r.blockindex)
    (hf : ∀ f ∈ t'.files, ∃ g ∈ t.files, g.fileId = f.fileId ∧ g.blockNum = f.blockNum) :
    t'.RowsInRange := by
  intro r hr f hm he
  obtain ⟨q, hq, hqf, hqb⟩ := hb r hr
  obtain ⟨g, hg, hgf, hgb⟩ := hf f hm
  have := h q hq g hg (by rw [hgf, he, hqf])
  rwa [hqb, hgb] at this

theorem exists_file_of_mem_cores {t t' : Tables} (hc : t'.cores = t.cores) {f : FileRow}
    (hf : f ∈ t'.files) : ∃ g ∈ t.files, g.fileId = f.fileId ∧ g.blockNum = f.blockNum := by
  obtain ⟨g, hg, he⟩ := exists_file_of_cores hc.symm hf
  exact ⟨g, hg, congrArg Prod.fst he, congrArg (fun c => c.2.2.2.1) he⟩

theorem exists_row_of_updateWhere {t : Tables} (h : t.WellFormed) {ord : List ℕ}
    {p : BlockRow → Bool} {st : BlockStatus} {r : BlockRow}
    (hr : r ∈ (t.updateWhere ord p st).blocks) :
    ∃ q ∈ t.blocks, q.fileId = r.fileId ∧ q.blockindex = r.blockindex := by
  rw [updateWhere_blocks t ord p st h.block_ids] at hr
  obtain ⟨q, hq, rfl⟩ := List.mem_map.mp hr
  refine ⟨q, hq, ?_⟩
  split <;> exact ⟨rfl, rfl⟩

theorem updateWhere_rowsInRange {t : Tables} (h : t.WellFormed) (hi : t.RowsInRange)
    (ord : List ℕ) (p : BlockRow → Bool) (st : BlockStatus) :
    (t.updateWhere ord p st).RowsInRange :=
  hi.of_rows (fun _ hr => exists_row_of_updateWhere h hr)
    fun _ hf => exists_file_of_mem_cores (updateWhere_cores t ord p st) hf

theorem setFileStatus_rowsInRange {t : Tables} (hi : t.RowsInRange) (fid : ℕ) (st : FileStatus) :
    (t.setFileStatus fid st).RowsInRange := by
  refine hi.of_rows (fun r hr => ⟨r, hr, rfl, rfl⟩) ?_
  intro f hf
  obtain ⟨g, hg, rfl⟩ := List.mem_map.mp hf
  refine ⟨g, hg, ?_⟩
  unfold FileRow.withStatus
  split <;> exact ⟨rfl, rfl⟩

theorem reviveFile_rowsInRange {t : Tables} (h : t.WellFormed) (hi : t.RowsInRange) (f : FileRow)
    (ord : List ℕ) : (t.reviveFile f ord).RowsInRange := by
  unfold Tables.reviveFile
  split
  · exact setFileStatus_rowsInRange (updateWhere_rowsInRange h hi _ _ _) _ _
  · exact hi

theorem call_rowsInRange {t : Tables} (h : t.WellFormed) (hi : t.RowsInRange) (p : Proc)
    (hok : t.IndexInRange p) : (t.call p).RowsInRange := by
  cases p with
  | uploadFile fhash fsize bnum bindex ord =>
    cases hf : t.fileOf fhash with
    | some f =>
      change (t.uploadFile fhash fsize bnum bindex ord).1.RowsInRange
      rw [uploadFile_known hf]
      exact reviveFile_rowsInRange h hi f ord
    | none =>
      simp only [Tables.call, Tables.uploadFile, hf]
      intro r hr f hm he
      rcases List.mem_append.mp hm with hm | hm
      · exact hi r hr f hm he
      · obtain ⟨g, hg, hge⟩ := h.owner r hr
        have := h.file_id_lt g hg
        rw [List.mem_singleton.mp hm] at he
        simp only at he
        omega
  | deleteFile fhash ord =>
    simp only [Tables.call, Tables.deleteFile]
    split
    · exact hi
    · split
      · exact updateWhere_rowsInRange (h.setFileStatus _ _) (setFileStatus_rowsInRange hi _ _) _ _ _
      · split
        · split
          · exact hi
          · exact hi.of_rows (fun r hr => ⟨r, hr, rfl, rfl⟩)
              fun f hf => ⟨f, (List.mem_filter.mp hf).1, rfl, rfl⟩
        · exact hi
  | deleteBlock fid bindex ds =>
    simp only [Tables.call, Tables.deleteBlock]
    rw [deleteBlock_rows h]
    dsimp only
    split
    · exact hi.of_rows (fun r hr => ⟨r, (List.mem_filter.mp hr).1, rfl, rfl⟩)
        fun f hf => ⟨f, hf, rfl, rfl⟩
    · exact hi.of_rows (fun r hr => ⟨r, (List.mem_filter.mp hr).1, rfl, rfl⟩)
        fun f hf => ⟨f, (List.mem_filter.mp hf).1, rfl, rfl⟩
  | copyBlock fid bindex ds =>
    simp only [Tables.call, Tables.copyBlock]
    split
    · split
      · intro r hr f hf he
        obtain ⟨g, hg, hge, hgb⟩ := exists_file_of_mem_cores (insertBlock_cores t bindex ds fid) hf
        rw [insertBlock_blocks] at hr
        rw [← hgb]
        rcases List.mem_append.mp hr with hr | hr
        · exact hi r hr g hg (hge.trans he)
        · rw [List.mem_singleton.mp hr] at he ⊢
          exact hok g hg (hge.trans he)
      · exact updateWhere_rowsInRange h hi _ _ _
    · exact hi
  | setDelIng fid bindex ds ord => exact updateWhere_rowsInRange h hi _ _ _

theorem liveIndices_range {t : Tables} (hi : t.RowsInRange) {f : FileRow} (hf : f ∈ t.files) {b : ℤ}
    (hb : b ∈ t.liveIndices f.fileId) : 0 ≤ b ∧ b < f.blockNum := by
  obtain ⟨r, hr, hrf, rfl, -⟩ := mem_liveIndices_iff.mp hb
  exact hi r hr f hf hrf.symm

/-- The pigeonhole behind the answer 13: as many live indices as there are indices is all of them. -/
theorem liveIndices_of_blockNum_le {t : Tables} (hc : t.Counts (· ≤ ·)) (hi : t.RowsInRange)
    {f : FileRow} (hf : f ∈ t.files) (hn : f.blockNum ≤ f.finishedNum) {b : ℤ} (h0 : 0 ≤ b)
    (hb : b < f.blockNum) : b ∈ t.liveIndices f.fileId := by
  have hle := hc f hf
  have hcard : (Finset.Ico (0 : ℤ) f.blockNum).card ≤ (t.liveIndices f.fileId).card := by
    rw [Int.card_Ico]
    omega
  have hsub : t.liveIndices f.fileId ⊆ Finset.Ico 0 f.blockNum :=
    fun b hb => Finset.mem_Ico.mpr (liveIndices_range hi hf hb)
  rw [Finset.eq_of_subset_of_card_le hsub hcard]
  exact Finset.mem_Ico.mpr ⟨h0, hb⟩

/-- The answer 13 is given for a file whose two counters agree in the new tables. -/
theorem uploadFile_complete {t : Tables} (hw : t.WellFormed) {fhash : Hash}
    {fsize bnum bindex : ℤ} {ord : List ℕ}
    (h : (t.uploadFile fhash fsize bnum bindex ord).2.status = .fileExistComplete) {f : FileRow}
    (hf : f ∈ (t.uploadFile fhash fsize bnum bindex ord).1.files) (hh : f.hash = fhash) :
    f.fileId = (t.uploadFile fhash fsize bnum bindex ord).2.fid ∧ f.blockNum = f.finishedNum := by
  cases hk : t.fileOf fhash with
  | none => simp [Tables.uploadFile, hk] at h
  | some g =>
    rw [uploadFile_known hk] at hf
    have hid : f.fileId = g.fileId := reviveFile_fileId hw hk hf hh
    have hw' := hw.reviveFile g ord
    cases hg : (t.reviveFile g ord).fileById g.fileId with
    | none => simp [Tables.uploadFile, hk, hg] at h
    | some g' =>
      have hg' : g'.fileId = g.fileId := by simpa using List.find?_some hg
      have he : g' = f := KeyedList.eq_of_key_eq hw'.file_ids (List.mem_of_find?_eq_some hg) hf
        (hg'.trans hid.symm)
      simp only [Tables.uploadFile, hk, hg] at h ⊢
      refine ⟨hid, ?_⟩
      unfold Tables.uploadAnswer at h
      by_contra hne
      rw [he, if_neg hne] at h
      split_ifs at h

/-- In every run from empty tables whose backup notices name block indices their files have, the
answer 13 is only given for a file each of whose blocks has a live row. -/
theorem uploadFile_complete_blocks_live (ps : List Proc) (t : Tables)
    (hr : Calls Tables.IndexInRange Tables.empty ps t) (fhash : Hash) (fsize bnum bindex : ℤ)
    (ord : List ℕ)
    (h13 : (t.uploadFile fhash fsize bnum bindex ord).2.status = .fileExistComplete) :
    ∀ f ∈ (t.uploadFile fhash fsize bnum bindex ord).1.files, f.hash = fhash →
      f.fileId = (t.uploadFile fhash fsize bnum bindex ord).2.fid ∧
      ∀ b, 0 ≤ b → b < f.blockNum →
        ∃ r ∈ (t.uploadFile fhash fsize bnum bindex ord).1.blocks,
          r.fileId = f.fileId ∧ r.blockindex = b ∧ r.status = .live := by
  have hinv : t.WellFormed ∧ t.Counts (· ≤ ·) ∧ t.RowsInRange := by
    refine Runs.Reaches.invariant
      (I := fun t => t.WellFormed ∧ t.Counts (· ≤ ·) ∧ t.RowsInRange) ?_ hr
      ⟨wellFormed_empty, by intro f hf; simp [Tables.empty] at hf,
        by intro r hr; simp [Tables.empty] at hr⟩
    rintro s p s' ⟨h, hc, hi⟩ hok rfl
    exact ⟨h.call p, call_counts_le h hc p, call_rowsInRange h hi p hok⟩
  obtain ⟨hw, hc, hi⟩ := hinv
  -- the upload itself is one more call
  have hc' := call_counts_le hw hc (.uploadFile fhash fsize bnum bindex ord)
  have hi' := call_rowsInRange hw hi (.uploadFile fhash fsize bnum bindex ord) trivial
  intro f hf hh
  obtain ⟨hid, hn⟩ := uploadFile_complete hw h13 hf hh
  refine ⟨hid, ?_⟩
  intro b h0 hb
  exact mem_liveIndices_iff.mp (liveIndices_of_blockNum_le hc' hi' hf hn.le h0 hb)

instance (t : Tables) : ∀ p : Proc, Decidable (t.IndexInRange p)
  | .copyBlock fid bindex _ => inferInstanceAs (Decidable (∀ f ∈ t.files,
      f.fileId = fid → 0 ≤ bindex ∧ bindex < f.blockNum))
  | .uploadFile .. => .isTrue trivial
  | .deleteFile .. => .isTrue trivial
  | .deleteBlock .. => .isTrue trivial
  | .setDelIng .. => .isTrue trivial

def bothStored : List Proc := [.uploadFile 7 200 2 0 [], .copyBlock 1 0 5, .copyBlock 1 1 6]

theorem bothStored_complete :
    ((bothStored.foldl Tables.call Tables.empty).uploadFile 7 200 2 (-1) []).2.status =
        .fileExistComplete ∧
      ∀ f ∈ ((bothStored.foldl Tables.call Tables.empty).uploadFile 7 200 2 (-1) []).1.files,
        f.hash = 7 →
        f.fileId = ((bothStored.foldl Tables.call Tables.empty).uploadFile 7 200 2 (-1) []).2.fid ∧
        ∀ b, 0 ≤ b → b < f.blockNum →
          ∃ r ∈ ((bothStored.foldl Tables.call Tables.empty).uploadFile 7 200 2 (-1) []).1.blocks,
            r.fileId = f.fileId ∧ r.blockindex = b ∧ r.status = .live :=
  ⟨by decide, uploadFile_complete_blocks_live bothStored _
    (Runs.reaches_of_allAllowed _ _ _ _ (by decide)) 7 200 2 (-1) [] (by decide)⟩

/-- A file of one block, of which a data server stored index 7. -/
def wrongIndexStored : List Proc := [.uploadFile 7 100 1 0 [], .copyBlock 1 7 5]

/-- The file is reported complete, and block 0 has no row at all. -/
theorem wrongIndexStored_complete :
    ((wrongIndexStored.foldl Tables.call Tables.empty).uploadFile 7 100 1 0 []).2.status =
        .fileExistComplete ∧
      (∃ f ∈ ((wrongIndexStored.foldl Tables.call Tables.empty).uploadFile 7 100 1 0 []).1.files,
        f.hash = 7 ∧ f.blockNum = 1) ∧
      ∀ r ∈ ((wrongIndexStored.foldl Tables.call Tables.empty).uploadFile 7 100 1 0 []).1.blocks,
        r.blockindex ≠ 0 := by
  decide

end Tefs.NameServer
