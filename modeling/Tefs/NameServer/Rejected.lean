import Tefs.NameServer.Handlers

/-! # What a rejected request leaves behind

Source: the labels of `gfs_busi_upload_handle`, `gfs_busi_download_handle`, `gfs_busi_delete_file_handle` and
`gfs_busi_login_handle` in `nameservice/busi`.

In all four functions `PARAM_ERR` sets the return code to `GFS_BUSI_RTN_OK`. A login is rejected late, when
`gfs_net_map_add` fails, and a deletion is taken for one of an unknown file when it finds no live block.
-/

namespace Tefs.NameServer.Handlers
set_option autoImplicit false

/-! ## What a rejection should be -/

/-- The length that goes with a list of `num` entries -/
def Request.length (num : BitVec 32) : Request → BitVec 32
  | .upload _ => 36 + num * 20
  | .download _ => 36 + num * 24
  | .deleteFile _ => 24
  | .login _ _ => 28

def SameRows (db db' : Database) : Prop :=
  db'.tables.files = db.tables.files ∧ db'.tables.blocks = db.tables.blocks ∧ db'.dataServers = db.dataServers

instance (db db' : Database) : Decidable (SameRows db db') := inferInstanceAs (Decidable (_ ∧ _))

/-- No row, no registry entry and no attribute of a connection has changed. -/
def Unchanged (s s' : State) : Prop :=
  SameRows s.db s'.db ∧ s'.server.map = s.server.map ∧ s'.server.user = s.server.user

/-- The response tells of the rejection, and its list is as long as it says. -/
def Reported (req : Request) (rsp : Rsp) : Prop := rsp.rtn ≠ rtnOk ∧ rsp.len = req.length rsp.num

/-! ## When it is that -/

/-- What leads to `PARAM_ERR` -/
def Request.WrongParam : Request → Prop
  | .upload req => req.encrypt ≠ 0 ∨ req.bindex.toInt < -1 ∨ req.bnum < 1 ∨ req.fsize = 0
  | .download req => req.encrypt ≠ 0 ∨ req.bindex.toInt < -1
  | .deleteFile req => req.encrypt ≠ 0
  | .login _ req => req.encrypt ≠ 0 ∨ req.type = Registry.clientTypeDs ∧ req.disk < req.remain

/-- The handler calls a procedure that writes. -/
def Request.Writes (e : Env) : Request → Prop
  | .upload req => req.bnum ≤ 150 ∧ ∃ pnet, e.gettopn = some pnet ∧ BitVec.ofNat 32 pnet.length ≠ 0 ∧ e.memory = true
  | .download _ => False
  | .deleteFile _ => True
  | .login _ req => req.type = Registry.clientTypeDs

/-- `delete_file` marks the row of the file and has no live block to mark. -/
def MarksOnlyFile (t : Tables) (fhash : Hash) : Prop :=
  t.files.countP (fun f => f.hash = fhash) ≤ 1 ∧ ∃ f, t.fileOf fhash = some f ∧
    0 < asInt f.fileId ∧ 0 < f.finishedNum ∧
    (∀ r ∈ t.blocks, r.fileId = asInt f.fileId → r.status ≠ .live) ∧
    ∃ g ∈ t.files, g.fileId = asInt f.fileId ∧ g.status = .normal

/-- The row that `ds_login` writes -/
def loginRow (e : Env) (req : Registry.LoginReq) : DataServerRow :=
  ⟨asInt req.dsid.toNat, asBigint req.disk.toNat, asBigint req.remain.toNat, 0, e.now⟩

/-- `DataServer` has this row already, with the same second in it. -/
def HasRow (row : DataServerRow) (rows : List DataServerRow) : Prop :=
  (∃ r ∈ rows, r.dsid = row.dsid) ∧ ∀ r ∈ rows, r.dsid = row.dsid → r = row

/-- What a procedure does when it runs is not followed by a rejection. -/
def Request.Runs (e : Env) (s : State) : Request → Prop
  | .upload _ => True
  | .download _ => True
  | .deleteFile req => ¬ MarksOnlyFile s.db.tables req.hash
  | .login _ req => HasRow (loginRow e req) s.db.dataServers ∨ s.server.maplist ≠ 0

/-- The parameters are not what is wrong, a failed call of the database has left the rows, and no call that has run is
followed by a rejection. -/
structure Request.Harmless (e : Env) (s : State) (req : Request) : Prop where
  param : ¬ req.WrongParam
  failed : req.Writes e → ∀ db, e.sql = .failed db → SameRows s.db db
  ran : req.Writes e → e.sql = .ran → req.Runs e s

/-! ## The procedures that write -/

theorem SameRows.refl (db : Database) : SameRows db db := ⟨rfl, rfl, rfl⟩

theorem Unchanged.refl (s : State) : Unchanged s s := ⟨.refl _, rfl, rfl⟩

theorem unchanged_db (s : State) (db : Database) : Unchanged s { s with db := db } ↔ SameRows s.db db :=
  ⟨fun h => h.1, fun h => ⟨h, rfl, rfl⟩⟩

theorem map_eq_self_iff {α : Type} (f : α → α) (l : List α) : l.map f = l ↔ ∀ a ∈ l, f a = a := by
  have h := List.map_inj_left (f := f) (g := id) (l := l)
  rwa [List.map_id] at h

/-- `ds_login` affects no row exactly if it finds the row it would write, and then it changes none. -/
theorem dsLogin_eq_zero (row : DataServerRow) (hstatus : row.status = 0) (rows : List DataServerRow) :
    ((dsLogin row.updatetime row.dsid row.diskSize row.remainSize rows).2 = 0 ↔ HasRow row rows) ∧
    ((dsLogin row.updatetime row.dsid row.diskSize row.remainSize rows).1 = rows ↔ HasRow row rows) := by
  have hrow : (⟨row.dsid, row.diskSize, row.remainSize, 0, row.updatetime⟩ : DataServerRow) = row := by rw [← hstatus]
  unfold dsLogin HasRow
  simp only [hrow]
  split
  · next hall =>
    have hnone : ¬ ∃ r ∈ rows, r.dsid = row.dsid := by simpa using hall
    simp [hnone]
  · next hall =>
    have hsome : ∃ r ∈ rows, r.dsid = row.dsid := by simpa using hall
    simp only [hsome, true_and, map_eq_self_iff, List.countP_eq_zero, decide_eq_true_eq, not_and, not_not]
    apply forall₂_congr
    intro r _
    by_cases hid : r.dsid = row.dsid
    · simp [hid, eq_comm]
    · simp [hid]

theorem arrange_nil (ord : List ℕ) : arrange ord [] = [] := by
  simp [arrange]

theorem updateWhere_of_none {t : Tables} {ord : List ℕ} {p : BlockRow → Bool} {st : BlockStatus}
    (h : t.blocks.filter p = []) : t.updateWhere ord p st = t := by
  rw [Tables.updateWhere, h, arrange_nil]
  rfl

theorem deleteFile_rows {t : Tables} {fhash : Hash} (ord : List ℕ) (hone : t.files.countP (fun f => f.hash = fhash) ≤ 1)
    (hrows : deleteFileRows t fhash = 0) :
    ((t.deleteFile fhash ord).files = t.files ∧ (t.deleteFile fhash ord).blocks = t.blocks) ↔
      ¬ MarksOnlyFile t fhash := by
  unfold deleteFileRows at hrows
  unfold Tables.deleteFile MarksOnlyFile
  cases hf : t.fileOf fhash with
  | none => simp
  | some f =>
    simp only [hf] at hrows
    dsimp only
    by_cases hlive : 0 < asInt f.fileId ∧ 0 < f.finishedNum
    · rw [if_pos hlive] at hrows ⊢
      have hnone : ∀ r ∈ t.blocks, r.fileId = asInt f.fileId → r.status ≠ .live := by
        simpa [List.countP_eq_zero] using hrows
      rw [updateWhere_of_none (by simpa [Tables.setFileStatus, List.filter_eq_nil_iff] using hnone)]
      simp only [Tables.setFileStatus, map_eq_self_iff, and_true, Option.some.injEq, exists_eq_left']
      constructor
      · rintro hsame ⟨-, -, -, -, g, hg, hid, hnormal⟩
        have hg' := congrArg FileRow.status (hsame g hg)
        simp [FileRow.withStatus, hid, hnormal] at hg'
      · intro hno g hg
        by_cases hid : g.fileId = asInt f.fileId
        · cases hst : g.status with
          | normal => exact absurd ⟨hone, hlive.1, hlive.2, hnone, g, hg, hid, hst⟩ hno
          | deleted =>
            obtain ⟨fileId, hash, fileSize, blockNum, finishedNum, status⟩ := g
            simp_all [FileRow.withStatus]
        · simp [FileRow.withStatus, hid]
    · rw [if_neg hlive] at hrows ⊢
      have hnot : ¬ ∃ f', some f = some f' ∧ 0 < asInt f'.fileId ∧ 0 < f'.finishedNum ∧
          (∀ r ∈ t.blocks, r.fileId = asInt f'.fileId → r.status ≠ .live) ∧
          ∃ g ∈ t.files, g.fileId = asInt f'.fileId ∧ g.status = .normal := by
        rintro ⟨f', hff', hfid, hfin, -⟩
        obtain rfl := Option.some.inj hff'
        exact hlive ⟨hfid, hfin⟩
      simp only [hnot, and_false, not_false_eq_true, iff_true]
      by_cases hunfinished : 0 < asInt f.fileId ∧ f.finishedNum = 0
      · rw [if_pos hunfinished] at hrows ⊢
        split
        · exact ⟨rfl, rfl⟩
        next hany =>
          rw [if_neg hany, List.countP_eq_zero] at hrows
          refine ⟨List.filter_eq_self.mpr ?_, rfl⟩
          simpa using hrows
      · rw [if_neg hunfinished] at hrows
        cases hrows

/-! ## The ways of a rejection -/

section

variable {e : Env} {s : State} {x : Exit}

/-- By `PARAM_ERR`, before a procedure that writes is called, after the call has failed, and after it has run -/
inductive Rejection (e : Env) (s : State) (req : Request) (x : Exit) : Prop
  | param (hparam : req.WrongParam) (hrtn : x.rsp.rtn = rtnOk)
  | early (hparam : ¬ req.WrongParam) (hwrites : ¬ req.Writes e) (hrep : Reported req x.rsp) (hstate : x.state = s)
  | failed (hparam : ¬ req.WrongParam) (hwrites : req.Writes e) (db : Database) (hsql : e.sql = .failed db)
      (hrep : Reported req x.rsp) (hstate : x.state = { s with db := db })
  | ran (hparam : ¬ req.WrongParam) (hwrites : req.Writes e) (hsql : e.sql = .ran) (hrep : Reported req x.rsp)
      (hstate : Unchanged s x.state ↔ req.Runs e s)

theorem Rejection.harmless_iff {req : Request} (h : Rejection e s req x) :
    Reported req x.rsp ∧ Unchanged s x.state ↔ req.Harmless e s := by
  cases h with
  | param hparam hrtn => exact ⟨fun h => absurd hrtn h.1.1, fun h => absurd hparam h.param⟩
  | early hparam hwrites hrep hstate =>
    rw [hstate]
    exact ⟨fun _ => ⟨hparam, fun h => absurd h hwrites, fun h => absurd h hwrites⟩, fun _ => ⟨hrep, .refl s⟩⟩
  | failed hparam hwrites db hsql hrep hstate =>
    rw [hstate, unchanged_db]
    constructor
    · rintro ⟨-, hsame⟩
      refine ⟨hparam, fun _ db' hsql' => ?_, fun _ hran => ?_⟩
      · rw [hsql] at hsql'
        cases hsql'
        exact hsame
      · rw [hsql] at hran
        cases hran
    · exact fun h => ⟨hrep, h.failed hwrites db hsql⟩
  | ran hparam hwrites hsql hrep hstate =>
    rw [hstate]
    constructor
    · rintro ⟨-, hruns⟩
      refine ⟨hparam, fun _ db' hsql' => ?_, fun _ _ => hruns⟩
      rw [hsql] at hsql'
      cases hsql'
    · exact fun h => ⟨hrep, h.ran hwrites hsql⟩

theorem reported_leave (s : State) {req : Request} {label : Label} {rsp : Rsp} (hok : label ≠ .busiOk)
    (hparam : label ≠ .paramErr) (hlen : rsp.len = req.length rsp.num) : Reported req (s.leave label rsp).rsp := by
  refine ⟨?_, hlen⟩
  cases label <;> simp_all [State.leave, Label.rtn, rtnOk, rtnNoDsUse, rtnSysErr, rtnBlockTooMuch, rtnUnknownClient,
    rtnFileNotExist, rtnBlockNotExist]

theorem upload_rejection (req : UploadReq) (hx : uploadHandle e req s = x) (hrej : x.label ≠ .busiOk) :
    Rejection e s (.upload req) x := by
  unfold uploadHandle at hx
  split at hx
  · next hencrypt =>
    subst hx
    exact .param (.inl hencrypt) rfl
  next hencrypt =>
  split at hx
  · next hwrong =>
    subst hx
    exact .param (.inr hwrong) rfl
  next hwrong =>
  have hparam : ¬ (Request.upload req).WrongParam := not_or.mpr ⟨hencrypt, hwrong⟩
  split at hx
  · next hbnum =>
    subst hx
    exact .early hparam (fun h => absurd hbnum (BitVec.not_lt.mpr h.1)) (reported_leave _ (by decide) (by decide) rfl) rfl
  next hbnum =>
  split at hx
  · next htop =>
    subst hx
    refine .early hparam ?_ (reported_leave _ (by decide) (by decide) rfl) rfl
    rintro ⟨-, pnet, hpnet, -⟩
    rw [htop] at hpnet
    cases hpnet
  next pnet htop =>
  dsimp only at hx
  split at hx
  · next hnum =>
    subst hx
    refine .early hparam ?_ (reported_leave _ (by decide) (by decide) rfl) rfl
    rintro ⟨-, pnet', hpnet', hnum', -⟩
    rw [htop] at hpnet'
    cases hpnet'
    exact hnum' hnum
  next hnum =>
  split at hx
  · next hmemory =>
    subst hx
    refine .early hparam ?_ (reported_leave _ (by decide) (by decide) rfl) rfl
    rintro ⟨-, _, -, -, hmemory'⟩
    rw [hmemory] at hmemory'
    cases hmemory'
  next hmemory =>
  have hwrites : (Request.upload req).Writes e :=
    ⟨BitVec.not_lt.mp hbnum, pnet, htop, hnum, Bool.of_not_eq_false hmemory⟩
  unfold mysqlUpload at hx
  cases hsql : e.sql with
  | failed db =>
    simp only [hsql] at hx
    subst hx
    exact .failed hparam hwrites db hsql (reported_leave _ (by decide) (by decide) rfl) rfl
  | ran =>
    simp only [hsql] at hx
    split at hx
    · exact absurd (congrArg Exit.label hx.symm) hrej
    · exact absurd (congrArg Exit.label hx.symm) hrej
    · exact absurd (congrArg Exit.label hx.symm) hrej
    · exact absurd (congrArg Exit.label hx.symm) hrej

theorem download_rejection (req : DownloadReq) (hx : downloadHandle e req s = x) (hrej : x.label ≠ .busiOk) :
    Rejection e s (.download req) x := by
  unfold downloadHandle at hx
  split at hx
  · next hencrypt =>
    subst hx
    exact .param (.inl hencrypt) rfl
  next hencrypt =>
  split at hx
  · next hbindex =>
    subst hx
    exact .param (.inr hbindex) rfl
  next hbindex =>
  have hparam : ¬ (Request.download req).WrongParam := not_or.mpr ⟨hencrypt, hbindex⟩
  split at hx
  · subst hx
    exact .early hparam id (reported_leave _ (by decide) (by decide) rfl) rfl
  · subst hx
    exact .early hparam id (reported_leave _ (by decide) (by decide) rfl) rfl
  · subst hx
    exact .early hparam id (reported_leave _ (by decide) (by decide) rfl) rfl
  · dsimp only at hx
    split at hx
    · subst hx
      exact .early hparam id (reported_leave _ (by decide) (by decide) rfl) rfl
    · exact absurd (congrArg Exit.label hx.symm) hrej

theorem deleteFile_rejection (req : DeleteReq) (hx : deleteFileHandle e req s = x) (hrej : x.label ≠ .busiOk) :
    Rejection e s (.deleteFile req) x := by
  unfold deleteFileHandle at hx
  split at hx
  · next hencrypt =>
    subst hx
    exact .param hencrypt rfl
  next hencrypt =>
  have hwrites : (Request.deleteFile req).Writes e := trivial
  unfold mysqlDelfile at hx
  cases hsql : e.sql with
  | failed db =>
    simp only [hsql] at hx
    subst hx
    exact .failed hencrypt hwrites db hsql (reported_leave _ (by decide) (by decide) rfl) rfl
  | ran =>
    simp only [hsql] at hx
    by_cases htwo : 1 < s.db.tables.files.countP fun f => f.hash = req.hash
    · rw [if_pos htwo] at hx
      subst hx
      refine .ran hencrypt hwrites hsql (reported_leave _ (by decide) (by decide) rfl) ?_
      exact ⟨fun _ h => absurd h.1 (Nat.not_le.mpr htwo), fun _ => .refl s⟩
    · rw [if_neg htwo] at hx
      by_cases hrows : deleteFileRows s.db.tables req.hash = 0
      · simp only [hrows, ne_eq, not_true_eq_false, decide_false] at hx
        subst hx
        refine .ran hencrypt hwrites hsql (reported_leave _ (by decide) (by decide) rfl) ?_
        have hdelete := deleteFile_rows e.ord (Nat.not_lt.mp htwo) hrows
        exact ⟨fun h => hdelete.mp ⟨h.1.1, h.1.2.1⟩, fun h => ⟨⟨(hdelete.mpr h).1, (hdelete.mpr h).2, rfl⟩, rfl, rfl⟩⟩
      · simp only [hrows, ne_eq, not_false_eq_true, decide_true] at hx
        exact absurd (congrArg Exit.label hx.symm) hrej

theorem netMapAdd_ok (server : Registry.Server) (keyid : BitVec 32) (net : Registry.Conn) :
    (Registry.netMapAdd server keyid net).1 = Registry.gfsOk ↔ server.maplist ≠ 0 := by
  unfold Registry.netMapAdd
  split
  · next h => simp [h, Registry.gfsErr, Registry.gfsOk]
  · next h =>
    dsimp only
    split <;> simp [h]

theorem mysqlLogin_rows (req : Registry.LoginReq) (hsql : e.sql = .ran) :
    ((mysqlLogin e req s.db).1 = false ↔ HasRow (loginRow e req) s.db.dataServers) ∧
    (SameRows s.db (mysqlLogin e req s.db).2 ↔ HasRow (loginRow e req) s.db.dataServers) := by
  have hlogin := dsLogin_eq_zero (loginRow e req) rfl s.db.dataServers
  simp only [mysqlLogin, hsql, SameRows, true_and, decide_eq_false_iff_not, not_not]
  exact hlogin

theorem login_rejection (c : Registry.Conn) (req : Registry.LoginReq) (hx : loginHandle e c req s = some x)
    (hrej : x.label ≠ .busiOk) : Rejection e s (.login c req) x := by
  unfold loginHandle at hx
  split at hx
  · next hencrypt =>
    cases hx
    exact .param (.inl hencrypt) rfl
  next hencrypt =>
  split at hx
  · cases hx
    exact absurd rfl hrej
  split at hx
  · next htype =>
    cases hx
    refine .early ?_ htype (reported_leave _ (by decide) (by decide) rfl) rfl
    exact not_or.mpr ⟨hencrypt, fun h => htype h.1⟩
  next htype =>
  split at hx
  · next hdisk =>
    cases hx
    exact .param (.inr ⟨not_not.mp htype, hdisk⟩) rfl
  next hdisk =>
  have hparam : ¬ (Request.login c req).WrongParam := not_or.mpr ⟨hencrypt, fun h => hdisk h.2⟩
  have hwrites : (Request.login c req).Writes e := not_not.mp htype
  cases hsql : e.sql with
  | failed db =>
    simp only [mysqlLogin, hsql, if_true] at hx
    cases hx
    exact .failed hparam hwrites db hsql (reported_leave _ (by decide) (by decide) rfl) rfl
  | ran =>
    obtain ⟨hret, hsame⟩ := mysqlLogin_rows (s := s) req hsql
    obtain ⟨ok, db, hlogin⟩ : ∃ ok db, mysqlLogin e req s.db = (ok, db) := ⟨_, _, rfl⟩
    rw [hlogin] at hx hret hsame
    dsimp only at hx hret hsame
    split at hx
    · next hok =>
      cases hx
      refine .ran hparam hwrites hsql (reported_leave _ (by decide) (by decide) rfl) ?_
      have hrow := hret.mp hok
      exact ⟨fun _ => .inl hrow, fun _ => (unchanged_db s db).mpr (hsame.mpr hrow)⟩
    next hok =>
    have hrow := mt hret.mpr hok
    split at hx
    · cases hx
    generalize hadd : Registry.netMapAdd { s.server with user := Function.update s.server.user c req.toUser } req.dsid c
      = added at hx
    obtain ⟨ret, server⟩ := added
    dsimp only at hx
    split at hx
    · next hret' =>
      cases hx
      refine .ran hparam hwrites hsql (reported_leave _ (by decide) (by decide) rfl) ⟨fun h => ?_, fun h => ?_⟩
      · exact absurd (hsame.mp h.1) hrow
      · have hadded := (netMapAdd_ok { s.server with user := Function.update s.server.user c req.toUser } req.dsid c).mpr
          (h.resolve_left hrow)
        rw [hadd] at hadded
        exact absurd hadded hret'
    · cases hx
      exact absurd rfl hrej

/-- A rejected request is reported and changes nothing exactly if it is not rejected by `PARAM_ERR`, no failed call of the
database has changed a row, and no procedure that has run is followed by a rejection. -/
theorem reported_unchanged_iff_harmless {req : Request} (hx : handle e s req = some x) (hrej : x.label ≠ .busiOk) :
    Reported req x.rsp ∧ Unchanged s x.state ↔ req.Harmless e s := by
  cases req with
  | upload req => exact (upload_rejection req (Option.some.inj hx) hrej).harmless_iff
  | download req => exact (download_rejection req (Option.some.inj hx) hrej).harmless_iff
  | deleteFile req => exact (deleteFile_rejection req (Option.some.inj hx) hrej).harmless_iff
  | login c req => exact (login_rejection c req hx hrej).harmless_iff

end

def emptyState : State := ⟨.empty, .init 4⟩

/-- The database answers, and no data server is connected. -/
def idle : Env := ⟨some [], true, .ran, .empty, [], 0⟩

/-- Without a data server an upload is rejected as it should be. -/
theorem reported_unchanged_no_ds : ∃ x, handle idle emptyState (.upload ⟨0, 5, 1000, 1, 0⟩) = some x ∧
    x.label = .noDs ∧ Reported (.upload ⟨0, 5, 1000, 1, 0⟩) x.rsp ∧ Unchanged emptyState x.state := by
  have hx : handle idle emptyState (.upload ⟨0, 5, 1000, 1, 0⟩) = some _ := rfl
  have h := reported_unchanged_iff_harmless hx (by decide)
  have hnowrite : ¬ (Request.upload ⟨0, 5, 1000, 1, 0⟩).Writes idle := by
    rintro ⟨-, pnet, hpnet, hnum, -⟩
    cases hpnet
    exact hnum rfl
  refine ⟨_, rfl, by decide, h.mpr ⟨?_, fun hw => absurd hw hnowrite, fun hw => absurd hw hnowrite⟩⟩
  simp [Request.WrongParam]

/-- An upload of an empty file is rejected with the code of a success. -/
theorem empty_upload_rejected_as_ok : ∃ x, handle idle emptyState (.upload ⟨0, 5, 0, 1, 0⟩) = some x ∧
    x.label = .paramErr ∧ x.rsp = ⟨36, rtnOk, 0, some 0⟩ ∧ ¬ Reported (.upload ⟨0, 5, 0, 1, 0⟩) x.rsp :=
  ⟨_, rfl, by decide, by decide, fun h => h.1 (by decide)⟩

end Tefs.NameServer.Handlers
