import Mathlib.Algebra.Order.Ring.Int
import Mathlib.Algebra.Order.Ring.Nat
import Mathlib.Data.List.Sort
import Tefs.Lib.Runs

/-! # The name server's tables, triggers and stored procedures

Source: `nameservice/sql/createdb.sql`, `trigger.sql` and `procedure.sql`. Every procedure is one
function on the pair of tables, the triggers `cpyblock`, `updblock` and `delblock` run inside it,
and an update that matches several rows goes through them one by one in an order the caller picks
(`arrange`), because SQL promises none.

Two column widths matter and are kept. A local variable declared `int` takes the nearest `int`
when a larger number is stored in it (`asInt`): `delete_file` and `download_file` read a `bigint`
`FileID` into one, `copy_block` reads an `int unsigned` `ID`. Counts are only ever compared with
zero and one, so they stay natural numbers, and `FinishedNum` is an integer.
-/

namespace Tefs.NameServer
set_option autoImplicit false

/-! ## Rows -/

/-- The MD5 value of a file; the column holds its 32 hexadecimal digits. -/
abbrev Hash := BitVec 128

/-- `BlockInfo.Status`: 0, 1 and 2. -/
inductive BlockStatus where
  | live
  | toDelete
  | deleting
  deriving DecidableEq, Repr

/-- `FileInfo.Status`: 0 and 1. -/
inductive FileStatus where
  | normal
  | deleted
  deriving DecidableEq, Repr

structure BlockRow where
  id : ℕ
  blockindex : ℤ
  dsid : ℕ
  fileId : ℕ
  status : BlockStatus
  deriving DecidableEq, Repr

structure FileRow where
  fileId : ℕ
  hash : Hash
  fileSize : ℤ
  blockNum : ℤ
  finishedNum : ℤ
  status : FileStatus
  deriving DecidableEq, Repr

def BlockRow.isAt (r : BlockRow) (fid : ℕ) (bindex : ℤ) (ds : ℕ) : Prop :=
  r.fileId = fid ∧ r.blockindex = bindex ∧ r.dsid = ds

instance (r : BlockRow) (fid : ℕ) (bindex : ℤ) (ds : ℕ) : Decidable (r.isAt fid bindex ds) :=
  inferInstanceAs (Decidable (_ ∧ _ ∧ _))

structure Tables where
  files : List FileRow
  blocks : List BlockRow
  nextFileId : ℕ
  nextBlockId : ℕ
  deriving DecidableEq, Repr

def Tables.empty : Tables := { files := [], blocks := [], nextFileId := 1, nextBlockId := 1 }

/-- What a variable of type `int` holds after a larger column value was selected into it. -/
def asInt (v : ℕ) : ℕ := min v (2 ^ 31 - 1)

/-! ## Triggers -/

/-- `SELECT COUNT(*) FROM BlockInfo WHERE FileID=fid AND Blockindex=bindex AND Status=0`. -/
def Tables.liveCount (t : Tables) (fid : ℕ) (bindex : ℤ) : ℕ :=
  t.blocks.countP fun r => r.fileId = fid ∧ r.blockindex = bindex ∧ r.status = .live

def FileRow.addFinished (fid : ℕ) (d : ℤ) (f : FileRow) : FileRow :=
  if f.fileId = fid then { f with finishedNum := f.finishedNum + d } else f

/-- `update FileInfo set FinishedNum=FinishedNum+d where FileInfo.FileID=fid`. -/
def Tables.addFinished (t : Tables) (fid : ℕ) (d : ℤ) : Tables :=
  { t with files := t.files.map (FileRow.addFinished fid d) }

/-- Before an insert. -/
def Tables.cpyblock (t : Tables) (new : BlockRow) : Tables :=
  if t.liveCount new.fileId new.blockindex = 0 ∧ new.status = .live then
    t.addFinished new.fileId 1
  else t

/-- Before an update of one row. The second branch does not look at the old status. -/
def Tables.updblock (t : Tables) (old : BlockRow) (new : BlockStatus) : Tables :=
  if t.liveCount old.fileId old.blockindex = 0 ∧ new = .live then
    t.addFinished old.fileId 1
  else if t.liveCount old.fileId old.blockindex = 1 ∧ (new = .toDelete ∨ new = .deleting) then
    t.addFinished old.fileId (-1)
  else t

/-- After a delete. -/
def Tables.delblock (t : Tables) (old : BlockRow) : Tables :=
  if t.liveCount old.fileId old.blockindex = 0 ∧ old.status = .live then
    t.addFinished old.fileId (-1)
  else t

/-! ## Row operations -/

def BlockRow.withStatus (id : ℕ) (st : BlockStatus) (r : BlockRow) : BlockRow :=
  if r.id = id then { r with status := st } else r

/-- One row of an `UPDATE BlockInfo SET Status=st`, its trigger first. -/
def Tables.updateRow (t : Tables) (st : BlockStatus) (old : BlockRow) : Tables :=
  let t' := t.updblock old st
  { t' with blocks := t'.blocks.map (BlockRow.withStatus old.id st) }

/-- The matching rows in the order `ord` names their ids, those it does not name afterwards. Any
list is an order, and every order of the matching rows is `arrange` of some list. -/
def arrange (ord : List ℕ) (rows : List BlockRow) : List BlockRow :=
  (ord.dedup.flatMap fun i => rows.filter fun r => r.id = i) ++ rows.filter fun r => r.id ∉ ord

/-- `UPDATE BlockInfo SET Status=st WHERE p`. -/
def Tables.updateWhere (t : Tables) (ord : List ℕ) (p : BlockRow → Bool) (st : BlockStatus) :
    Tables :=
  (arrange ord (t.blocks.filter p)).foldl (fun t r => t.updateRow st r) t

/-- `INSERT INTO BlockInfo`, its trigger first. -/
def Tables.insertBlock (t : Tables) (bindex : ℤ) (ds fid : ℕ) (st : BlockStatus) : Tables :=
  let new : BlockRow :=
    { id := t.nextBlockId, blockindex := bindex, dsid := ds, fileId := fid, status := st }
  let t' := t.cpyblock new
  { t' with blocks := t'.blocks ++ [new], nextBlockId := t'.nextBlockId + 1 }

/-- One row of a `DELETE FROM BlockInfo`, its trigger after it. -/
def Tables.deleteRow (t : Tables) (old : BlockRow) : Tables :=
  { t with blocks := t.blocks.filter fun r => r.id ≠ old.id }.delblock old

def Tables.deleteWhere (t : Tables) (p : BlockRow → Bool) : Tables :=
  (t.blocks.filter p).foldl Tables.deleteRow t

def Tables.deleteFileRow (t : Tables) (fid : ℕ) : Tables :=
  { t with files := t.files.filter fun f => f.fileId ≠ fid }

def FileRow.withStatus (fid : ℕ) (st : FileStatus) (f : FileRow) : FileRow :=
  if f.fileId = fid then { f with status := st } else f

def Tables.setFileStatus (t : Tables) (fid : ℕ) (st : FileStatus) : Tables :=
  { t with files := t.files.map (FileRow.withStatus fid st) }

/-! ## The procedures -/

/-- The answers of `upload_file` (`gfs_sql.h`). -/
inductive UploadStatus where
  -- 20: the file was not known and is now.
  | fileNotExist
  -- 21: the asked block is not stored.
  | blockNotExist
  -- 12
  | blockExist
  -- 13: the file exists and is complete.
  | fileExistComplete
  deriving DecidableEq, Repr

structure UploadReply where
  status : UploadStatus
  fid : ℕ
  deriving DecidableEq, Repr

def Tables.reviveFile (t : Tables) (f : FileRow) (ord : List ℕ) : Tables :=
  if f.status = .deleted then
    (t.updateWhere ord (fun r => r.fileId = f.fileId ∧ r.status = .toDelete) .live).setFileStatus
      f.fileId .normal
  else t

/-- The answer for a file that is known; `f` is its row after the revival. -/
def Tables.uploadAnswer (t : Tables) (f : FileRow) (bindex : ℤ) : UploadStatus :=
  if f.blockNum = f.finishedNum then .fileExistComplete
  else if bindex = -1 then
    if 0 < f.finishedNum then .blockExist else .blockNotExist
  else if t.liveCount f.fileId bindex = 0 then .blockNotExist
  else .blockExist

def Tables.fileOf (t : Tables) (fhash : Hash) : Option FileRow :=
  t.files.find? fun f => f.hash = fhash

def Tables.fileById (t : Tables) (fid : ℕ) : Option FileRow :=
  t.files.find? fun f => f.fileId = fid

def Tables.uploadFile (t : Tables) (fhash : Hash) (fsize bnum bindex : ℤ) (ord : List ℕ) :
    Tables × UploadReply :=
  match t.fileOf fhash with
  | none =>
    let f : FileRow :=
      { fileId := t.nextFileId, hash := fhash, fileSize := fsize, blockNum := bnum,
        finishedNum := 0, status := .normal }
    ({ t with files := t.files ++ [f], nextFileId := t.nextFileId + 1 },
      { status := .fileNotExist, fid := t.nextFileId })
  | some f =>
    let t' := t.reviveFile f ord
    match t'.fileById f.fileId with
    | none => (t', { status := .blockNotExist, fid := f.fileId })
    | some f' => (t', { status := t'.uploadAnswer f' bindex, fid := f.fileId })

structure DownloadReply where
  fid : ℕ
  blocks : List (ℤ × ℕ)
  deriving DecidableEq, Repr

def Tables.downloadFile (t : Tables) (fhash : Hash) (bindex : ℤ) : DownloadReply :=
  match t.files.find? fun f => f.hash = fhash ∧ f.status = .normal with
  | none => { fid := 0, blocks := [] }
  | some f =>
    let outFid := asInt f.fileId
    let listed := t.blocks.filter fun r => r.fileId = outFid ∧ r.status = .live
    if bindex < 0 then
      { fid := outFid,
        blocks := (listed.insertionSort fun a b => a.blockindex ≤ b.blockindex).map
          fun r => (r.blockindex, r.dsid) }
    else
      { fid := outFid,
        blocks := (listed.filter fun r => r.blockindex = bindex).map
          fun r => (r.blockindex, r.dsid) }

def Tables.deleteFile (t : Tables) (fhash : Hash) (ord : List ℕ) : Tables :=
  match t.fileOf fhash with
  | none => t
  | some f =>
    let fid := asInt f.fileId
    if 0 < fid ∧ 0 < f.finishedNum then
      (t.setFileStatus fid .deleted).updateWhere ord
        (fun r => r.fileId = fid ∧ r.status = .live) .toDelete
    else if 0 < fid ∧ f.finishedNum = 0 then
      if t.blocks.any fun r => r.fileId = fid then t else t.deleteFileRow fid
    else t

def Tables.deleteBlock (t : Tables) (fid : ℕ) (bindex : ℤ) (ds : ℕ) : Tables :=
  let t' := t.deleteWhere fun r => r.isAt fid bindex ds ∧ r.status = .deleting
  if t'.blocks.any fun r => r.fileId = fid then t' else t'.deleteFileRow fid

def Tables.copyBlock (t : Tables) (fid : ℕ) (bindex : ℤ) (ds : ℕ) : Tables :=
  if t.files.any fun f => f.fileId = fid then
    match t.blocks.find? fun r => r.isAt fid bindex ds with
    | none => t.insertBlock bindex ds fid .live
    | some r => t.updateWhere [] (fun q => q.id = asInt r.id) .live
  else t

def Tables.setDelIng (t : Tables) (fid : ℕ) (bindex : ℤ) (ds : ℕ) (ord : List ℕ) : Tables :=
  t.updateWhere ord (fun r => r.isAt fid bindex ds) .deleting

/-! ## Sequences of procedure calls -/

inductive Proc where
  | uploadFile (fhash : Hash) (fsize bnum bindex : ℤ) (ord : List ℕ)
  | deleteFile (fhash : Hash) (ord : List ℕ)
  | deleteBlock (fid : ℕ) (bindex : ℤ) (ds : ℕ)
  | copyBlock (fid : ℕ) (bindex : ℤ) (ds : ℕ)
  | setDelIng (fid : ℕ) (bindex : ℤ) (ds : ℕ) (ord : List ℕ)
  deriving DecidableEq, Repr

def Tables.call (t : Tables) : Proc → Tables
  | .uploadFile fhash fsize bnum bindex ord => (t.uploadFile fhash fsize bnum bindex ord).1
  | .deleteFile fhash ord => t.deleteFile fhash ord
  | .deleteBlock fid bindex ds => t.deleteBlock fid bindex ds
  | .copyBlock fid bindex ds => t.copyBlock fid bindex ds
  | .setDelIng fid bindex ds ord => t.setDelIng fid bindex ds ord

abbrev Calls (ok : Tables → Proc → Prop) : Tables → List Proc → Tables → Prop :=
  Runs.Reaches (Runs.ofFun Tables.call) ok

end Tefs.NameServer
