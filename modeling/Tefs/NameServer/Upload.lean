import Tefs.NameServer.WellFormed

/-! # From the answer to a client to its backup notice

A client that was told to upload holds a file id, and its data server reports the block under that
id later. In between the file's row must not go away. It does when a late `delete_block` of an
earlier life of the file removes its last block row, and a `FileID` or an `ID` that does not fit the
procedures' `int` variables makes them work on another row. `KeepsUpload` excludes these calls.
-/

namespace Tefs.NameServer
set_option autoImplicit false

/-- `fid` is the file with this hash, and it is not deleted. -/
def Tables.HasFile (t : Tables) (fid : ℕ) (fhash : Hash) : Prop :=
  ∃ f ∈ t.files, f.fileId = fid ∧ f.hash = fhash ∧ f.status = .normal

/-- The calls that may come between the answer for `fid` and a backup notice for it: no
`delete_file` of its hash, or of a file whose id is cut down to `fid`, and no `delete_block` of it
that leaves it without block rows. -/
def Tables.KeepsUpload (fid : ℕ) (fhash : Hash) (t : Tables) : Proc → Prop
  | .deleteFile fhash' _ => fhash' ≠ fhash ∧ ∀ f ∈ t.files, f.hash = fhash' → asInt f.fileId ≠ fid
  | .deleteBlock fid' bindex ds =>
    fid' = fid → ∃ r ∈ t.blocks, r.fileId = fid ∧ ¬ (r.isAt fid bindex ds ∧ r.status = .deleting)
  | _ => True

instance (fid : ℕ) (fhash : Hash) (t : Tables) : ∀ p : Proc, Decidable (t.KeepsUpload fid fhash p)
  | .deleteFile fhash' _ => inferInstanceAs (Decidable
      (fhash' ≠ fhash ∧ ∀ f ∈ t.files, f.hash = fhash' → asInt f.fileId ≠ fid))
  | .deleteBlock fid' bindex ds => inferInstanceAs (Decidable (fid' = fid →
      ∃ r ∈ t.blocks, r.fileId = fid ∧ ¬ (r.isAt fid bindex ds ∧ r.status = .deleting)))
  | .uploadFile .. => .isTrue trivial
  | .copyBlock .. => .isTrue trivial
  | .setDelIng .. => .isTrue trivial

/-! ## The file's row stays -/

theorem Tables.HasFile.of_cores {t t' : Tables} {fid : ℕ} {fhash : Hash} (h : t.HasFile fid fhash)
    (hc : t'.cores = t.cores) : t'.HasFile fid fhash := by
  obtain ⟨f, hf, rfl, rfl, hs⟩ := h
  obtain ⟨g, hg, he⟩ := exists_file_of_cores hc hf
  refine ⟨g, hg, congrArg Prod.fst he, congrArg (fun c => c.2.1) he, ?_⟩
  rw [← hs]
  exact congrArg (fun c => c.2.2.2.2) he

theorem Tables.HasFile.of_mem {t t' : Tables} {fid : ℕ} {fhash : Hash} (h : t.HasFile fid fhash)
    (hm : ∀ f ∈ t.files, f.fileId = fid → f ∈ t'.files) : t'.HasFile fid fhash := by
  obtain ⟨f, hf, hid, hh, hs⟩ := h
  exact ⟨f, hm f hf hid, hid, hh, hs⟩

theorem Tables.HasFile.setFileStatus {t : Tables} {fid fid' : ℕ} {fhash : Hash} {st : FileStatus}
    (h : t.HasFile fid fhash) (hne : fid' = fid → st = .normal) :
    (t.setFileStatus fid' st).HasFile fid fhash := by
  obtain ⟨f, hf, rfl, rfl, hs⟩ := h
  refine ⟨f.withStatus fid' st, List.mem_map_of_mem hf, withStatus_fileId fid' st f, ?_⟩
  unfold FileRow.withStatus
  split
  · next he => exact ⟨rfl, hne he.symm⟩
  · exact ⟨rfl, hs⟩

theorem Tables.HasFile.deleteFileRow {t : Tables} {fid fid' : ℕ} {fhash : Hash}
    (h : t.HasFile fid fhash) (hne : fid' ≠ fid) : (t.deleteFileRow fid').HasFile fid fhash := by
  refine h.of_mem ?_
  intro f hf he
  refine List.mem_filter.mpr ⟨hf, ?_⟩
  simpa [he] using Ne.symm hne

theorem Tables.HasFile.reviveFile {t : Tables} {fid : ℕ} {fhash : Hash} (h : t.HasFile fid fhash)
    (f : FileRow) (ord : List ℕ) : (t.reviveFile f ord).HasFile fid fhash := by
  unfold Tables.reviveFile
  split
  · exact (h.of_cores (updateWhere_cores _ _ _ _)).setFileStatus fun _ => rfl
  · exact h

theorem Tables.HasFile.deleteFile {t : Tables} {fid : ℕ} {fhash : Hash} (h : t.HasFile fid fhash)
    {fhash' : Hash} (hne : ∀ f ∈ t.files, f.hash = fhash' → asInt f.fileId ≠ fid) (ord : List ℕ) :
    (t.deleteFile fhash' ord).HasFile fid fhash := by
  cases hf : t.fileOf fhash' with
  | none => simpa only [Tables.deleteFile, hf] using h
  | some f =>
    obtain ⟨hm, hh⟩ := fileOf_some hf
    have hfid : asInt f.fileId ≠ fid := hne f hm hh
    simp only [Tables.deleteFile, hf]
    split
    · exact (h.setFileStatus fun he => absurd he hfid).of_cores (updateWhere_cores _ _ _ _)
    · split
      · split
        · exact h
        · exact h.deleteFileRow hfid
      · exact h

theorem Tables.HasFile.deleteBlock {t : Tables} (hw : t.WellFormed) {fid : ℕ} {fhash : Hash}
    (h : t.HasFile fid fhash) {fid' : ℕ} {bindex : ℤ} {ds : ℕ}
    (hrow : fid' = fid →
      ∃ r ∈ t.blocks, r.fileId = fid ∧ ¬ (r.isAt fid bindex ds ∧ r.status = .deleting)) :
    (t.deleteBlock fid' bindex ds).HasFile fid fhash := by
  unfold Tables.deleteBlock
  rw [deleteBlock_rows hw]
  dsimp only
  split
  · exact h.of_mem fun _ hf _ => hf
  · next hn =>
    have hne : fid' ≠ fid := by
      rintro rfl
      obtain ⟨r, hr, hrf, hkeep⟩ := hrow rfl
      refine no_rows_of_any_eq_false hn r ?_ hrf
      exact List.mem_filter.mpr ⟨hr, decide_eq_true hkeep⟩
    exact Tables.HasFile.deleteFileRow (h.of_mem fun _ hf _ => hf) hne

theorem copyBlock_cores (t : Tables) (fid : ℕ) (bindex : ℤ) (ds : ℕ) :
    (t.copyBlock fid bindex ds).cores = t.cores := by
  unfold Tables.copyBlock
  split
  · split
    · exact insertBlock_cores t bindex ds fid
    · exact updateWhere_cores _ _ _ _
  · rfl

theorem Tables.HasFile.call {t : Tables} (hw : t.WellFormed) {fid : ℕ} {fhash : Hash}
    (h : t.HasFile fid fhash) {p : Proc} (hok : t.KeepsUpload fid fhash p) :
    (t.call p).HasFile fid fhash := by
  cases p with
  | uploadFile fhash' fsize bnum bindex ord =>
    cases hf : t.fileOf fhash' with
    | some f =>
      change (t.uploadFile fhash' fsize bnum bindex ord).1.HasFile fid fhash
      rw [uploadFile_known hf]
      exact h.reviveFile f ord
    | none =>
      simp only [Tables.call, Tables.uploadFile, hf]
      exact h.of_mem fun f hm _ => List.mem_append_left _ hm
  | deleteFile fhash' ord => exact h.deleteFile hok.2 ord
  | deleteBlock fid' bindex ds => exact h.deleteBlock hw hok
  | copyBlock fid' bindex ds => exact h.of_cores (copyBlock_cores t fid' bindex ds)
  | setDelIng fid' bindex ds ord => exact h.of_cores (updateWhere_cores _ _ _ _)

theorem uploadFile_hasFile (t : Tables) (fhash : Hash) (fsize bnum bindex : ℤ) (ord : List ℕ) :
    (t.uploadFile fhash fsize bnum bindex ord).1.HasFile
      (t.uploadFile fhash fsize bnum bindex ord).2.fid fhash := by
  cases hf : t.fileOf fhash with
  | none =>
    simp only [Tables.uploadFile, hf]
    exact ⟨_, List.mem_append_right _ (List.mem_singleton.mpr rfl), rfl, rfl, rfl⟩
  | some f =>
    obtain ⟨hm, hh⟩ := fileOf_some hf
    have hfid : (t.uploadFile fhash fsize bnum bindex ord).2.fid = f.fileId := by
      simp only [Tables.uploadFile, hf]
      split <;> rfl
    rw [uploadFile_known hf, hfid]
    unfold Tables.reviveFile
    split
    · -- the revival sets the status
      have hc := updateWhere_cores t ord
        (fun r => decide (r.fileId = f.fileId ∧ r.status = .toDelete)) .live
      obtain ⟨g, hg, he⟩ := exists_file_of_cores hc hm
      have hgf : g.fileId = f.fileId := congrArg Prod.fst he
      refine ⟨g.withStatus f.fileId .normal, List.mem_map_of_mem hg, ?_⟩
      have hgh : g.hash = f.hash := congrArg (fun c => c.2.1) he
      simp [FileRow.withStatus, hgf, hgh, hh]
    · next hs =>
      refine ⟨f, hm, rfl, hh, ?_⟩
      cases hst : f.status with
      | normal => rfl
      | deleted => exact absurd hst hs

/-! ## The backup notice -/

theorem asInt_of_lt {v : ℕ} (h : v < 2 ^ 31) : asInt v = v := by
  unfold asInt
  omega

/-- A notice for a file that is there leaves a live row for its replica. -/
theorem copyBlock_live_row {t : Tables} (hw : t.WellFormed) {fid : ℕ}
    (hf : ∃ f ∈ t.files, f.fileId = fid) {bindex : ℤ} {ds : ℕ}
    (hid : ∀ r ∈ t.blocks, r.isAt fid bindex ds → r.id < 2 ^ 31) :
    ∃ r ∈ (t.copyBlock fid bindex ds).blocks, r.isAt fid bindex ds ∧ r.status = .live := by
  have hany : (t.files.any fun f => f.fileId = fid) = true := by
    obtain ⟨f, hm, he⟩ := hf
    exact List.any_eq_true.mpr ⟨f, hm, by simpa using he⟩
  cases hr : t.blocks.find? fun r => r.isAt fid bindex ds with
  | none =>
    simp only [Tables.copyBlock, hany, if_true, hr, insertBlock_blocks]
    exact ⟨_, List.mem_append_right _ (List.mem_singleton.mpr rfl), ⟨rfl, rfl, rfl⟩, rfl⟩
  | some r =>
    have hm : r ∈ t.blocks := List.mem_of_find?_eq_some hr
    have hat : r.isAt fid bindex ds := by simpa using List.find?_some hr
    simp only [Tables.copyBlock, hany, if_true, hr]
    rw [updateWhere_blocks _ _ _ _ hw.block_ids]
    refine ⟨{ r with status := .live }, List.mem_map.mpr ⟨r, hm, ?_⟩, hat, rfl⟩
    simp [asInt_of_lt (hid r hm hat)]

theorem mem_downloadFile {t : Tables} (hw : t.WellFormed) {fid : ℕ} {fhash : Hash}
    (hf : t.HasFile fid fhash) (hfid : fid < 2 ^ 31) {r : BlockRow} (hr : r ∈ t.blocks)
    (hrf : r.fileId = fid) (hs : r.status = .live) :
    (r.blockindex, r.dsid) ∈ (t.downloadFile fhash r.blockindex).blocks := by
  obtain ⟨f, hm, rfl, rfl, hst⟩ := hf
  cases hfind : t.files.find? fun g => g.hash = f.hash ∧ g.status = .normal with
  | none => exact absurd (List.find?_eq_none.mp hfind f hm) (by simp [hst])
  | some g =>
    have hgh : g.hash = f.hash ∧ g.status = .normal := by simpa using List.find?_some hfind
    have hgf : g = f :=
      KeyedList.eq_of_key_eq hw.file_hashes (List.mem_of_find?_eq_some hfind) hm hgh.1
    simp only [Tables.downloadFile, hfind, hgf, asInt_of_lt hfid]
    split
    · simp only [List.mem_map, List.mem_insertionSort, List.mem_filter]
      exact ⟨r, ⟨hr, by simp [hrf, hs]⟩, rfl⟩
    · simp only [List.mem_map, List.mem_filter]
      exact ⟨r, ⟨⟨hr, by simp [hrf, hs]⟩, by simp⟩, rfl⟩

/-- After any run, a client that is told to upload, and any further run in which only calls that
keep the file happen, every backup notice for the file leaves its row live and listed. -/
theorem copyBlock_listed_after_upload (ps : List Proc) (t₀ : Tables)
    (h₀ : Calls (fun _ _ => True) Tables.empty ps t₀) (fhash : Hash) (fsize bnum bindex : ℤ)
    (ord : List ℕ) (fid : ℕ)
    (hup : (t₀.uploadFile fhash fsize bnum bindex ord).2 = ⟨.fileNotExist, fid⟩ ∨
      (t₀.uploadFile fhash fsize bnum bindex ord).2 = ⟨.blockNotExist, fid⟩)
    (hfid : fid < 2 ^ 31) (qs : List Proc) (t : Tables)
    (hr : Calls (Tables.KeepsUpload fid fhash) (t₀.uploadFile fhash fsize bnum bindex ord).1 qs t)
    (b : ℤ) (ds : ℕ) (hid : ∀ r ∈ t.blocks, r.isAt fid b ds → r.id < 2 ^ 31) :
    (∃ r ∈ (t.copyBlock fid b ds).blocks, r.isAt fid b ds ∧ r.status = .live) ∧
      (b, ds) ∈ ((t.copyBlock fid b ds).downloadFile fhash b).blocks := by
  have hw₀ : t₀.WellFormed := Calls.wellFormed h₀ wellFormed_empty
  have hans : (t₀.uploadFile fhash fsize bnum bindex ord).2.fid = fid := by
    rcases hup with he | he <;> rw [he]
  have hinv : t.WellFormed ∧ t.HasFile fid fhash := by
    refine Runs.Reaches.invariant (I := fun t => t.WellFormed ∧ t.HasFile fid fhash) ?_ hr
      ⟨hw₀.uploadFile fhash fsize bnum bindex ord, hans ▸ uploadFile_hasFile t₀ fhash _ _ _ _⟩
    rintro s p s' ⟨hw, hf⟩ hok rfl
    exact ⟨hw.call p, hf.call hw hok⟩
  obtain ⟨hw, hf⟩ := hinv
  have hex : ∃ f ∈ t.files, f.fileId = fid := by
    obtain ⟨f, hm, he, -⟩ := hf
    exact ⟨f, hm, he⟩
  obtain ⟨r, hrm, hat, hs⟩ := copyBlock_live_row hw hex hid
  refine ⟨⟨r, hrm, hat, hs⟩, ?_⟩
  have hl := mem_downloadFile (hw.copyBlock fid b ds) (hf.of_cores (copyBlock_cores t fid b ds))
    hfid hrm hat.1 hs
  rwa [hat.2.1, hat.2.2] at hl

/-- A file with one replica, deleted; its delete command is on its way. -/
def deletionUnderWay : List Proc :=
  [.uploadFile 7 100 1 0 [], .copyBlock 1 0 5, .deleteFile 7 [], .setDelIng 1 0 5 []]

/-- The file is uploaded again, its new replica on server 6 is reported first, and then the delete
command's answer comes in. -/
theorem copyBlock_listed_deletionUnderWay :
    (0, 8) ∈ ((([Proc.copyBlock 1 0 6, .deleteBlock 1 0 5].foldl Tables.call
      ((deletionUnderWay.foldl Tables.call Tables.empty).uploadFile 7 100 1 0 []).1).copyBlock
        1 0 8).downloadFile 7 0).blocks :=
  (copyBlock_listed_after_upload deletionUnderWay _
    (Runs.reaches_of_allAllowed _ _ _ _ (by decide)) 7 100 1 0 [] 1 (Or.inr (by decide))
    (by decide) [.copyBlock 1 0 6, .deleteBlock 1 0 5] _
    (Runs.reaches_of_allAllowed _ _ _ _ (by decide)) 0 8 (by decide)).2

/-- The other order: the answer comes in first and takes the file's row with it, the client was
told to upload to file 1, and the notice of its data server is dropped. -/
theorem upload_lost_after_late_deleteBlock :
    ((deletionUnderWay.foldl Tables.call Tables.empty).uploadFile 7 100 1 0 []).2 =
        ⟨.blockNotExist, 1⟩ ∧
      ((((deletionUnderWay.foldl Tables.call Tables.empty).uploadFile 7 100 1 0 []).1.call
        (.deleteBlock 1 0 5)).copyBlock 1 0 6).blocks = [] ∧
      (((((deletionUnderWay.foldl Tables.call Tables.empty).uploadFile 7 100 1 0 []).1.call
        (.deleteBlock 1 0 5)).copyBlock 1 0 6).downloadFile 7 0).blocks = [] := by
  decide

end Tefs.NameServer
