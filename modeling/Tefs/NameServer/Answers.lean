import Tefs.NameServer.CopyPlan
import Tefs.NameServer.Handlers

/-! # The answers about files

Source: `gfs_mysql_download`, `gfs_mysql_get_delblock`, `gfs_mysql_get_cpyblock` and `gfs_mysql_getfsize` of
`nameservice/sql/gfs_sql.c`, with the procedures they call.

Where a file is not listed, `get_fsize` and `download_file` still give back a row with a 0.
-/

namespace Tefs.NameServer.Handlers
set_option autoImplicit false

/-! ## What the answers should say -/

/-- The response to a download query when the procedure runs -/
def downloadAnswer (e : Env) (req : DownloadReq) (s : State) : Rsp :=
  (downloadHandle { e with download := mysqlDownload s.db.tables req.hash req.bindex.toInt } req s).rsp

/-- The answers for the hash, and the file ids that are passed on -/
structure Faithful (t : Tables) (fhash : Hash) : Prop where
  size : ∀ f ∈ listed t fhash, getfsizeHandle t fhash = (rtnOk, BitVec.ofInt 64 f.fileSize)
  sizeMissing : (getfsizeHandle t fhash).1 = rtnFileNotExist ↔ listed t fhash = []
  downloadMissing : ∀ e req s, s.db.tables = t → req.hash = fhash →
    ((downloadAnswer e req s).rtn = rtnFileNotExist ↔ listed t fhash = [])
  downloadFid : ∀ e req s, s.db.tables = t → req.hash = fhash → ∀ fid, (downloadAnswer e req s).fid = some fid →
    ∀ f ∈ listed t fhash, fid.toNat = f.fileId
  marked : ∀ ord idx, ∀ r ∈ t.markedPage ord idx, (fetchRow r).fid = r.fileId
  surplus : ∀ copies ord idx, ∀ r ∈ t.surplusPage copies ord idx, (fetchRow r).fid = r.fileId
  copied : ∀ copies ord idx, ∀ r ∈ t.cpyPage copies ord idx, (fetchRow r).fid = r.fileId

/-- Exactly one row is listed under the hash, and its size and all file ids are below `2 ^ 31`. -/
structure Narrow (t : Tables) (fhash : Hash) : Prop where
  file : ∃ f, listed t fhash = [f] ∧ f.fileSize < 2 ^ 31 ∧ f.fileId < 2 ^ 31
  blocks : ∀ r ∈ t.blocks, r.fileId < 2 ^ 31

/-- File ids and sizes are those of 63-bit columns. -/
structure Columns (t : Tables) : Prop where
  sizes : ∀ f ∈ t.files, 0 ≤ f.fileSize ∧ f.fileSize < 2 ^ 63
  files : ∀ f ∈ t.files, f.fileId < 2 ^ 63
  blocks : ∀ r ∈ t.blocks, r.fileId < 2 ^ 63

/-! ## Numbers on their way -/

theorem atoiFid_eq_self {v : ℕ} (hv : v < 2 ^ 63) : atoiFid v = v ↔ v < 2 ^ 31 := by
  unfold atoiFid
  split <;> omega

theorem asInt_eq_self (v : ℕ) : asInt v = v ↔ v < 2 ^ 31 := by
  unfold asInt
  omega

theorem atoiSize_toNat (v : ℤ) :
    (atoiSize v).toNat =
      if (v % 2 ^ 32).toNat < 2 ^ 31 then (v % 2 ^ 32).toNat else (v % 2 ^ 32).toNat + (2 ^ 64 - 2 ^ 32) := by
  rw [atoiSize, BitVec.toNat_signExtend, BitVec.msb_eq_decide, BitVec.toNat_setWidth, BitVec.toNat_ofInt]
  simp only [decide_eq_true_eq]
  push_cast
  split_ifs <;> omega

theorem atoiSize_eq_ofInt {v : ℤ} (h0 : 0 ≤ v) (hv : v < 2 ^ 63) : atoiSize v = BitVec.ofInt 64 v ↔ v < 2 ^ 31 := by
  rw [← BitVec.toNat_inj, atoiSize_toNat, BitVec.toNat_ofInt]
  split <;> omega

/-! ## Rows on pages -/

theorem mem_of_mem_page {ord : List ℕ} {idx : ℕ} {rows : List BlockRow} {r : BlockRow} (h : r ∈ page ord idx rows) :
    r ∈ rows := mem_arrange.mp (List.mem_of_mem_drop (List.mem_of_mem_take h))

theorem exists_mem_page (ord : List ℕ) {rows : List BlockRow} {r : BlockRow} (h : r ∈ rows) :
    ∃ idx, r ∈ page ord idx rows := by
  have harranged : r ∈ arrange ord rows := mem_arrange.mpr h
  obtain ⟨k, hk, rfl⟩ := List.mem_iff_getElem.mp harranged
  have hdiv := Nat.div_add_mod k pageNum
  have hmod : k % pageNum < pageNum := Nat.mod_lt _ (by decide)
  refine ⟨k / pageNum, List.mem_iff_getElem.mpr ⟨k % pageNum, ?_, ?_⟩⟩
  · rw [page, List.length_take, List.length_drop]
    rw [Nat.mul_comm] at hdiv
    omega
  · simp only [page, List.getElem_take, List.getElem_drop]
    congr 1
    rw [Nat.mul_comm]
    exact hdiv

/-! ## The two queries -/

section

variable {t : Tables} {fhash : Hash}

theorem mem_files_of_mem_listed {f : FileRow} (h : f ∈ listed t fhash) : f ∈ t.files := List.mem_of_mem_filter h

theorem getfsizeHandle_nil (h : listed t fhash = []) : getfsizeHandle t fhash = (rtnOk, 0) := by
  simp [getfsizeHandle, mysqlGetfsize, getFsize, h, atoiSize]

theorem getfsizeHandle_singleton {f : FileRow} (h : listed t fhash = [f]) :
    getfsizeHandle t fhash = (rtnOk, atoiSize f.fileSize) := by
  simp [getfsizeHandle, mysqlGetfsize, getFsize, h]

theorem getfsizeHandle_cons {f g : FileRow} {rest : List FileRow} (h : listed t fhash = f :: g :: rest) :
    getfsizeHandle t fhash = (rtnFileNotExist, 0) := by
  simp [getfsizeHandle, mysqlGetfsize, getFsize, h]

theorem downloadFile_fid {f : FileRow} {rest : List FileRow} (h : listed t fhash = f :: rest) (bindex : ℤ) :
    (t.downloadFile fhash bindex).fid = asInt f.fileId := by
  have hfind : (t.files.find? fun f => f.hash = fhash ∧ f.status = .normal) = some f := by
    rw [← List.head?_filter]
    exact congrArg List.head? h
  unfold Tables.downloadFile
  rw [hfind]
  dsimp only
  split
  · rfl
  · rfl

variable (e : Env) (req : DownloadReq) (s : State)

theorem downloadAnswer_rtn : (downloadAnswer e req s).rtn ≠ rtnFileNotExist := by
  unfold downloadAnswer downloadHandle mysqlDownload
  dsimp only
  split_ifs <;> simp [State.leave, Label.rtn, rtnOk, rtnBlockNotExist, rtnFileNotExist]

theorem downloadAnswer_fid :
    (downloadAnswer e req s).fid =
      if req.encrypt ≠ 0 ∨ req.bindex.toInt < -1 then none
      else some (BitVec.ofNat 64 (s.db.tables.downloadFile req.hash req.bindex.toInt).fid) := by
  unfold downloadAnswer downloadHandle mysqlDownload
  dsimp only
  by_cases hencrypt : req.encrypt ≠ 0
  · rw [if_pos hencrypt, if_pos (.inl hencrypt)]
    rfl
  by_cases hbindex : req.bindex.toInt < -1
  · rw [if_neg hencrypt, if_pos hbindex, if_pos (.inr hbindex)]
    rfl
  · rw [if_neg hencrypt, if_neg hbindex, if_neg (not_or.mpr ⟨hencrypt, hbindex⟩)]
    split
    · rfl
    · rfl

end

/-! ## When they are right -/

section

variable {t : Tables} {fhash : Hash}

theorem Narrow.faithful (hcol : Columns t) (h : Narrow t fhash) : Faithful t fhash := by
  obtain ⟨f, hf, hsize, hfid⟩ := h.file
  have hmem : f ∈ t.files := by
    apply mem_files_of_mem_listed
    rw [hf]
    exact List.mem_singleton_self f
  obtain ⟨h0, h63⟩ := hcol.sizes f hmem
  have hanswer := getfsizeHandle_singleton hf
  have hpass : ∀ r ∈ t.blocks, (fetchRow r).fid = r.fileId := by
    intro r hr
    exact (atoiFid_eq_self (hcol.blocks r hr)).mpr (h.blocks r hr)
  constructor
  · intro g hg
    obtain rfl : g = f := by simpa [hf] using hg
    rw [hanswer, (atoiSize_eq_ofInt h0 h63).mpr hsize]
  · rw [hanswer, hf]
    simp [rtnOk, rtnFileNotExist]
  · rintro e req s rfl rfl
    simp [downloadAnswer_rtn, hf]
  · rintro e req s rfl rfl fid hanswered g hg
    obtain rfl : g = f := by simpa [hf] using hg
    rw [downloadAnswer_fid, downloadFile_fid hf, (asInt_eq_self _).mpr hfid] at hanswered
    split at hanswered
    · cases hanswered
    · rw [← Option.some.inj hanswered, BitVec.toNat_ofNat]
      omega
  · intro ord idx r hr
    exact hpass r (List.mem_of_mem_filter (mem_of_mem_page hr))
  · intro copies ord idx r hr
    exact hpass r (List.mem_of_mem_filter (mem_of_mem_page hr))
  · intro copies ord idx r hr
    exact hpass r (List.mem_of_mem_filter (mem_of_mem_page hr))

/-- A row that is not live is on some page of the first kind, and a live one on some page of the second. -/
theorem Faithful.blocks (h : Faithful t fhash) : ∀ r ∈ t.blocks, (fetchRow r).fid = r.fileId := by
  intro r hr
  by_cases hlive : r.status = .live
  · have hcount : 0 < t.liveCount r.fileId r.blockindex := List.countP_pos_iff.mpr ⟨r, hr, by simp [hlive]⟩
    obtain ⟨idx, hidx⟩ : ∃ idx, r ∈ t.surplusPage 0 [] idx :=
      exists_mem_page [] (List.mem_filter.mpr ⟨hr, decide_eq_true hcount⟩)
    exact h.surplus 0 [] idx r hidx
  · obtain ⟨idx, hidx⟩ : ∃ idx, r ∈ t.markedPage [] idx :=
      exists_mem_page [] (List.mem_filter.mpr ⟨hr, decide_eq_true hlive⟩)
    exact h.marked [] idx r hidx

theorem Faithful.narrow (hcol : Columns t) (h : Faithful t fhash) : Narrow t fhash := by
  refine ⟨?_, fun r hr => (atoiFid_eq_self (hcol.blocks r hr)).mp (h.blocks r hr)⟩
  cases hl : listed t fhash with
  | nil =>
    have hmissing := h.sizeMissing.mpr hl
    rw [getfsizeHandle_nil hl] at hmissing
    cases hmissing
  | cons f rest =>
    have hf : f ∈ listed t fhash := by simp [hl]
    obtain ⟨h0, h63⟩ := hcol.sizes f (mem_files_of_mem_listed hf)
    cases rest with
    | nil =>
      refine ⟨f, rfl, ?_, ?_⟩
      · have hsize := h.size f hf
        rw [getfsizeHandle_singleton hl, Prod.mk.injEq] at hsize
        exact (atoiSize_eq_ofInt h0 h63).mp hsize.2
      · let e : Env := ⟨none, true, .ran, .empty, [], 0⟩
        let s : State := ⟨⟨t, []⟩, .init 0⟩
        have hfid := h.downloadFid e ⟨0, fhash, 0⟩ s rfl rfl (BitVec.ofNat 64 (asInt f.fileId))
          (by rw [downloadAnswer_fid, ← downloadFile_fid hl 0]; rfl) f hf
        have hlt : asInt f.fileId < 2 ^ 31 := by unfold asInt; omega
        rw [BitVec.toNat_ofNat, Nat.mod_eq_of_lt (by omega)] at hfid
        exact (asInt_eq_self _).mp hfid
    | cons g rest =>
      have hmissing := h.sizeMissing.mp (by rw [getfsizeHandle_cons hl])
      rw [hl] at hmissing
      cases hmissing

/-- The answers about a file are those of the tables exactly if one row is listed under its hash, and the numbers fit
into an `int`. -/
theorem faithful_iff_narrow (hcol : Columns t) : Faithful t fhash ↔ Narrow t fhash :=
  ⟨fun h => h.narrow hcol, fun h => h.faithful hcol⟩

end

def oneFile (fileSize : ℤ) : Tables where
  files := [⟨1, 5, fileSize, 1, 1, .normal⟩]
  blocks := [⟨1, 0, 7, 1, .live⟩]
  nextFileId := 2
  nextBlockId := 2

theorem oneFile_columns {fileSize : ℤ} (h0 : 0 ≤ fileSize) (h63 : fileSize < 2 ^ 63) : Columns (oneFile fileSize) := by
  constructor
  · simpa [oneFile, h0] using h63
  · simp [oneFile]
  · simp [oneFile]

theorem faithful_iff_narrow_small :
    Columns (oneFile 1000) ∧ (Faithful (oneFile 1000) 5 ↔ Narrow (oneFile 1000) 5) ∧ Faithful (oneFile 1000) 5 := by
  have hcol : Columns (oneFile 1000) := oneFile_columns (by decide) (by decide)
  have hiff : Faithful (oneFile 1000) 5 ↔ Narrow (oneFile 1000) 5 := faithful_iff_narrow hcol
  refine ⟨hcol, hiff, hiff.mpr ⟨⟨_, rfl, by decide, by decide⟩, ?_⟩⟩
  simp [oneFile]

/-- A size of 2 GiB comes back with its sign extended, and a file that is not listed has size 0. -/
theorem size_of_big_and_missing_file :
    Columns (oneFile (2 ^ 31)) ∧ (getfsizeHandle (oneFile (2 ^ 31)) 5).2.toNat = 2 ^ 64 - 2 ^ 31 ∧
      ¬ Faithful (oneFile (2 ^ 31)) 5 ∧
    getfsizeHandle (oneFile (2 ^ 31)) 6 = (rtnOk, 0) ∧ ¬ Faithful (oneFile (2 ^ 31)) 6 := by
  refine ⟨oneFile_columns (by decide) (by decide), by decide, fun h => ?_, by decide, fun h => ?_⟩
  · exact absurd (h.size _ (List.mem_singleton_self _)) (by decide)
  · exact absurd (h.sizeMissing.mpr (by decide)) (by decide)

end Tefs.NameServer.Handlers
