import Tefs.NameServer.Registry
import Tefs.NameServer.Requests
import Tefs.NameServer.Surplus

/-! # The handlers of the requests

Source: the `handle` functions of `gfs_busi_upload.c`, `gfs_busi_download.c`, `gfs_busi_delete_file.c`,
`gfs_busi_login.c`, `gfs_busi_getfsize.c` and `gfs_busi_heartbeat.c` in `nameservice/busi`, `gfs_mysql_login`,
`gfs_mysql_delfile` and `gfs_mysql_getfsize` of `nameservice/sql/gfs_sql.c`, `ds_login`, `delete_file` and `get_fsize`
of `procedure.sql`.

Every handler fills in the response for a success, and leaves by a label that may change the return code. A call of the
database either runs its procedure or returns an error, and then what it did to the tables is not known. The text of a
query and its buffer are left out.
-/

namespace Tefs.NameServer.Handlers
set_option autoImplicit false

/-! ## What the handlers work on -/

structure DataServerRow where
  dsid : ℕ
  diskSize : ℕ
  remainSize : ℕ
  status : ℕ
  updatetime : ℕ
  deriving DecidableEq, Repr

structure Database where
  tables : Tables
  dataServers : List DataServerRow
  deriving DecidableEq, Repr

structure State where
  db : Database
  server : Registry.Server

def Database.empty : Database := ⟨.empty, []⟩

/-- The labels at the end of the handlers -/
inductive Label
  | busiOk
  | noDs
  | paramErr
  | systemErr
  | blockTooMuch
  | unknownClientType
  | fileNotExit
  | noFile
  | noBlock
  deriving DecidableEq, Repr

/-- `GFS_BUSI_RTN_OK` -/
def rtnOk : ℕ := 0
def rtnSysErr : ℕ := 1
def rtnUnknownClient : ℕ := 7
def rtnNoDsUse : ℕ := 11
def rtnBlockExist : ℕ := 12
def rtnFileFinished : ℕ := 13
def rtnFileNotExist : ℕ := 20
def rtnBlockNotExist : ℕ := 21
def rtnBlockTooMuch : ℕ := 30

/-- What stands behind the label; `rtn` is the code so far. -/
def Label.rtn (rtn : ℕ) : Label → ℕ
  | .busiOk => rtn
  | .noDs => rtnNoDsUse
  | .paramErr => rtnOk
  | .systemErr => rtnSysErr
  | .blockTooMuch => rtnBlockTooMuch
  | .unknownClientType => rtnUnknownClient
  | .fileNotExit => rtnFileNotExist
  | .noFile => rtnFileNotExist
  | .noBlock => rtnBlockNotExist

/-- A response: `num` is `dsnum` or `bnum`, and 0 where the response has no list. `fid` is nothing where the handler
leaves in the field what the memory held. -/
structure Rsp where
  len : BitVec 32
  rtn : ℕ
  num : BitVec 32
  fid : Option (BitVec 64)
  deriving DecidableEq, Repr

structure Exit where
  label : Label
  rsp : Rsp
  state : State

/-- A return by `label` -/
def State.leave (s : State) (label : Label) (rsp : Rsp) : Exit := ⟨label, { rsp with rtn := label.rtn rsp.rtn }, s⟩

/-! ## The database -/

/-- How a call ends: the procedure has run, or the function returns another code than `SQL_OK` and the database is what
the failed call left. -/
inductive Sql
  | ran
  | failed (left : Database)
  deriving DecidableEq, Repr

/-- `ds_login`, and the rows that its last statement has affected. MySQL does not count a row that an update leaves as it
was. -/
def dsLogin (now did dsize remain : ℕ) (rows : List DataServerRow) : List DataServerRow × ℕ :=
  let new : DataServerRow := ⟨did, dsize, remain, 0, now⟩
  if rows.all fun r => r.dsid ≠ did then (rows ++ [new], 1)
  else (rows.map fun r => if r.dsid = did then new else r, rows.countP fun r => r.dsid = did ∧ r ≠ new)

/-- What `mysql_affected_rows` gives after `delete_file`: the rows of its last statement, which is the update of
`BlockInfo`, a `SELECT ... INTO` of one row, or the deletion from `FileInfo`. -/
def deleteFileRows (t : Tables) (fhash : Hash) : ℕ :=
  match t.fileOf fhash with
  | none => 0
  | some f =>
    let fid := asInt f.fileId
    if 0 < fid ∧ 0 < f.finishedNum then t.blocks.countP fun r => r.fileId = fid ∧ r.status = .live
    else if 0 < fid ∧ f.finishedNum = 0 then
      if t.blocks.any fun r => r.fileId = fid then 1 else t.files.countP fun g => g.fileId = fid
    else 1

/-- The rows of `FileInfo` that `get_fsize` and `download_file` look for -/
def listed (t : Tables) (fhash : Hash) : List FileRow := t.files.filter fun f => f.hash = fhash ∧ f.status = .normal

/-- `get_fsize`. With more than one row the `SELECT ... INTO` is an error, with none the variable keeps its default. -/
def getFsize (t : Tables) (fhash : Hash) : Option ℤ :=
  match listed t fhash with
  | [] => some 0
  | [f] => some f.fileSize
  | _ :: _ :: _ => none

/-- `atoi`, stored in a `gfs_uint64` -/
def atoiSize (v : ℤ) : BitVec 64 := (BitVec.ofInt 32 v).signExtend 64

/-- `gfs_mysql_getfsize`; nothing where it does not return `SQL_OK`. -/
def mysqlGetfsize (t : Tables) (fhash : Hash) : Option (BitVec 64) := (getFsize t fhash).map atoiSize

/-- What `gfs_mysql_download` ends with when the procedure has run: its first result set has one row in any case. -/
def mysqlDownload (t : Tables) (fhash : Hash) (bindex : ℤ) : Requests.Download :=
  let reply := t.downloadFile fhash bindex
  .found (BitVec.ofNat 64 reply.fid) (BitVec.ofNat 32 reply.blocks.length) fun i =>
    match reply.blocks[i]? with
    | none => ⟨0, 0⟩
    | some (index, dsid) => ⟨BitVec.ofInt 32 index, BitVec.ofNat 32 dsid⟩

/-! ## The requests -/

/-- What the handlers find outside: the servers that `gfs_net_map_gettopn` stores, whether there is memory for a list,
how the database calls end, the order in which it takes rows, and the time. -/
structure Env where
  gettopn : Option (List Registry.Conn)
  memory : Bool
  sql : Sql
  download : Requests.Download
  ord : List ℕ
  now : ℕ

structure UploadReq where
  encrypt : BitVec 32
  hash : Hash
  fsize : BitVec 64
  bnum : BitVec 32
  bindex : BitVec 32
  deriving DecidableEq, Repr

structure DownloadReq where
  encrypt : BitVec 32
  hash : Hash
  bindex : BitVec 32
  deriving DecidableEq, Repr

structure DeleteReq where
  encrypt : BitVec 32
  hash : Hash
  deriving DecidableEq, Repr

/-- `gfs_mysql_upload`; nothing where it does not return `SQL_OK`. -/
def mysqlUpload (e : Env) (req : UploadReq) (db : Database) : Option UploadReply × Database :=
  match e.sql with
  | .failed left => (none, left)
  | .ran =>
    let ret := db.tables.uploadFile req.hash (asBigint req.fsize.toNat) (asInt req.bnum.toNat) req.bindex.toInt e.ord
    (some ret.2, { db with tables := ret.1 })

/-- `gfs_mysql_delfile`: `some true` is `SQL_OK`, `some false` is `SQL_FILE_NOT_EXIST`. -/
def mysqlDelfile (e : Env) (req : DeleteReq) (db : Database) : Option Bool × Database :=
  match e.sql with
  | .failed left => (none, left)
  | .ran =>
    -- with two rows of the hash the first statement is an error
    if 1 < db.tables.files.countP fun f => f.hash = req.hash then (none, db)
    else
      (some (deleteFileRows db.tables req.hash ≠ 0), { db with tables := db.tables.deleteFile req.hash e.ord })

/-- `gfs_mysql_login`, which takes an update that changes nothing for an error. -/
def mysqlLogin (e : Env) (req : Registry.LoginReq) (db : Database) : Bool × Database :=
  match e.sql with
  | .failed left => (false, left)
  | .ran =>
    let ret := dsLogin e.now (asInt req.dsid.toNat) (asBigint req.disk.toNat) (asBigint req.remain.toNat) db.dataServers
    (ret.2 ≠ 0, { db with dataServers := ret.1 })

def uploadHandle (e : Env) (req : UploadReq) (s : State) : Exit :=
  let rsp : Rsp := ⟨36, rtnOk, 0, some 0⟩
  if req.encrypt ≠ 0 then s.leave .paramErr rsp
  else if req.bindex.toInt < -1 ∨ req.bnum < 1 ∨ req.fsize = 0 then s.leave .paramErr rsp
  else if 150 < req.bnum then s.leave .blockTooMuch rsp
  else
    match e.gettopn with
    | none => s.leave .systemErr rsp
    | some pnet =>
      let num := BitVec.ofNat 32 pnet.length
      let rsp := { rsp with len := rsp.len + num * 20, num := num }
      if num = 0 then s.leave .noDs rsp
      else if e.memory = false then s.leave .systemErr rsp
      else
        let (ret, db) := mysqlUpload e req s.db
        let s := { s with db := db }
        match ret with
        | none => s.leave .systemErr rsp
        | some reply =>
          match reply.status with
          | .fileExistComplete => s.leave .busiOk { rsp with rtn := rtnFileFinished }
          | .blockExist => s.leave .busiOk { rsp with rtn := rtnBlockExist }
          | .fileNotExist | .blockNotExist => s.leave .busiOk { rsp with fid := some (BitVec.ofNat 64 reply.fid) }

def downloadHandle (e : Env) (req : DownloadReq) (s : State) : Exit :=
  let rsp : Rsp := ⟨36, rtnOk, 0, none⟩
  if req.encrypt ≠ 0 then s.leave .paramErr rsp
  else if req.bindex.toInt < -1 then s.leave .paramErr rsp
  else
    match e.download with
    | .empty => s.leave .noFile rsp
    | .error => s.leave .systemErr rsp
    -- `SQL_POOL_ERR` and `SQL_ARGS_ERR` are not looked at
    | .failed => s.leave .noBlock { rsp with fid := some 0 }
    | .found fid bnum _ =>
      let rsp := { rsp with fid := some fid }
      if bnum < 1 ∨ e.memory = false then s.leave .noBlock rsp
      else s.leave .busiOk { rsp with num := bnum }

def deleteFileHandle (e : Env) (req : DeleteReq) (s : State) : Exit :=
  let rsp : Rsp := ⟨24, rtnOk, 0, none⟩
  if req.encrypt ≠ 0 then s.leave .paramErr rsp
  else
    let (ret, db) := mysqlDelfile e req s.db
    let s := { s with db := db }
    match ret with
    | some false => s.leave .fileNotExit rsp
    | none => s.leave .systemErr rsp
    | some true => s.leave .busiOk rsp

/-- Nothing where the division by `disk` ends the process -/
def loginHandle (e : Env) (c : Registry.Conn) (req : Registry.LoginReq) (s : State) : Option Exit :=
  let rsp : Rsp := ⟨28, rtnOk, 0, none⟩
  if req.encrypt ≠ 0 then some (s.leave .paramErr rsp)
  else if req.type = Registry.clientTypePs then some (s.leave .busiOk rsp)
  else if req.type ≠ Registry.clientTypeDs then some (s.leave .unknownClientType rsp)
  else if req.disk < req.remain then some (s.leave .paramErr rsp)
  else
    let (ret, db) := mysqlLogin e req s.db
    let s := { s with db := db }
    if ret = false then some (s.leave .systemErr rsp)
    else if req.disk = 0 then none
    else
      let user := Function.update s.server.user c req.toUser
      let (ret, server) := Registry.netMapAdd { s.server with user := user } req.dsid c
      let s := { s with server := server }
      if ret ≠ Registry.gfsOk then some (s.leave .systemErr rsp) else some (s.leave .busiOk rsp)

/-- `rtn` and `fsize`; the encryption is not checked. -/
def getfsizeHandle (t : Tables) (fhash : Hash) : ℕ × BitVec 64 :=
  match mysqlGetfsize t fhash with
  | none => (rtnFileNotExist, 0)
  | some fsize => (rtnOk, fsize)

inductive Request
  | upload (req : UploadReq)
  | download (req : DownloadReq)
  | deleteFile (req : DeleteReq)
  | login (c : Registry.Conn) (req : Registry.LoginReq)
  deriving DecidableEq, Repr

def handle (e : Env) (s : State) : Request → Option Exit
  | .upload req => some (uploadHandle e req s)
  | .download req => some (downloadHandle e req s)
  | .deleteFile req => some (deleteFileHandle e req s)
  | .login c req => loginHandle e c req s

/-- The registry's account of a login is this one, for what `gfs_mysql_login` returns. -/
theorem loginHandle_server (e : Env) (c : Registry.Conn) (req : Registry.LoginReq) (s : State) :
    (loginHandle e c req s).map (fun x => ((x.rsp.rtn : ℤ), x.state.server)) =
      Registry.loginHandle s.server c req (mysqlLogin e req s.db).1 := by
  unfold loginHandle Registry.loginHandle
  split
  · rfl
  split
  · rfl
  split
  · rfl
  split
  · rfl
  cases hsql : (mysqlLogin e req s.db).1 with
  | false => simp [hsql, State.leave, Label.rtn, rtnSysErr, Registry.rtnSysErr]
  | true =>
    by_cases hdisk : req.disk = 0#64
    · simp [hsql, hdisk]
    · generalize hadd : Registry.netMapAdd { s.server with user := Function.update s.server.user c req.toUser } req.dsid c
        = added
      by_cases hret : added.1 = Registry.gfsOk
      · simp [hsql, hdisk, hadd, hret, State.leave, Label.rtn, rtnOk, Registry.rtnOk]
      · simp [hsql, hdisk, hadd, hret, State.leave, Label.rtn, rtnSysErr, Registry.rtnSysErr]

end Tefs.NameServer.Handlers
