import Tefs.NameServer.Upload
import Tefs.NameServer.Surplus

/-! # The name server, its data servers and the messages between them

Source: `gfs_busi_notice.c`, `gfs_busi_copy_block.c` and `gfs_busi_delete_block.c` on the name
server's side, `DSMessageProcess.cpp`, `DSClientPutTask.cpp`, `DSPutTask.cpp` and `DSPushTask.cpp`
on the data servers'. A state is the tables, what the data servers hold, and the messages under way;
messages are delivered in any order, and any of them may be lost. Ids travel as unsigned numbers, and
the procedures take the nearest `bigint` and `int` of them.

A data server whose disk fails answers all the same: the put tasks write `PUTOK` over the code of a
last write that failed, and the answer to a delete command goes out whatever `del_single_block`
returned.

`Agrees` is kept by every action except the delivery of a backup notice: `copy_block` makes the row
live whatever has happened to it, to its file and to the block since the notice was sent.
-/

namespace Tefs.Cluster
set_option autoImplicit false

open NameServer

inductive Message where
  -- 0x05, name server to `ds`.
  | deleteCmd (ds fid : ℕ) (bindex : ℤ)
  -- The data server's answer to it.
  | deleteOk (ds fid : ℕ) (bindex : ℤ)
  -- 0x07, name server to `src`: push the block to `dst`.
  | backupCmd (src dst fid : ℕ) (bindex : ℤ)
  -- The block itself, on its way to `dst`.
  | push (dst fid : ℕ) (bindex : ℤ)
  -- `ds` has stored the block.
  | backupOk (ds fid : ℕ) (bindex : ℤ)
  deriving DecidableEq, Repr

structure Parties where
  tables : Tables
  -- `(ds, fid, bindex)`: data server `ds` holds the block.
  holds : List (ℕ × ℕ × ℤ)
  inFlight : List Message
  deriving DecidableEq, Repr

def Parties.start : Parties := { tables := Tables.empty, holds := [], inFlight := [] }

inductive Action where
  | uploadFile (fhash : Hash) (fsize bnum bindex : ℤ) (ord : List ℕ)
  | deleteFile (fhash : Hash) (ord : List ℕ)
  -- The name server marks a replica and sends the command.
  | noticeDelete (ds fid : ℕ) (bindex : ℤ)
  | noticeCopy (src dst fid : ℕ) (bindex : ℤ)
  -- A client stores a block on `ds`, which pushes it on to `backups`; `disk` says that it was written.
  | clientPut (ds fid : ℕ) (bindex : ℤ) (backups : List ℕ) (disk : Bool)
  -- `disk` says that the receiver's disk did what the message asks for.
  | deliver (m : Message) (disk : Bool)
  | lose (m : Message)
  deriving DecidableEq, Repr

/-! ## The parties' steps -/

def Parties.send (s : Parties) (ms : List Message) : Parties :=
  { s with inFlight := s.inFlight ++ ms }

/-- `gfs_busi_notice_delete_block` for a connected server: the command goes out if a row changed. -/
def Parties.noticeDelete (s : Parties) (ds fid : ℕ) (bindex : ℤ) : Parties :=
  let s' := { s with tables := s.tables.setDelIng (asBigint fid) bindex (asInt ds) [] }
  if s.tables.blocks.any fun r => r.isAt (asBigint fid) bindex (asInt ds) ∧ r.status ≠ .deleting then
    s'.send [.deleteCmd ds fid bindex]
  else s'

def Parties.store (s : Parties) (disk : Bool) (ds fid : ℕ) (bindex : ℤ) : Parties :=
  if disk then { s with holds := (ds, fid, bindex) :: s.holds } else s

def Parties.remove (s : Parties) (disk : Bool) (ds fid : ℕ) (bindex : ℤ) : Parties :=
  if disk then { s with holds := s.holds.filter fun h => h ≠ (ds, fid, bindex) } else s

def Parties.receive (s : Parties) (disk : Bool) : Message → Parties
  -- `del_single_block`, and the answer goes out whatever it returned
  | .deleteCmd ds fid bindex => (s.remove disk ds fid bindex).send [.deleteOk ds fid bindex]
  | .deleteOk ds fid bindex =>
    { s with tables := s.tables.deleteBlock (asBigint fid) bindex (asInt ds) }
  -- `get_block_info` fails for a block the server does not hold
  | .backupCmd src dst fid bindex =>
    if (src, fid, bindex) ∈ s.holds then s.send [.push dst fid bindex] else s
  | .push dst fid bindex => (s.store disk dst fid bindex).send [.backupOk dst fid bindex]
  | .backupOk ds fid bindex =>
    { s with tables := s.tables.copyBlock (asBigint fid) bindex (asInt ds) }

def Parties.act (s : Parties) : Action → Parties
  | .uploadFile fhash fsize bnum bindex ord =>
    { s with tables := (s.tables.uploadFile fhash fsize bnum bindex ord).1 }
  | .deleteFile fhash ord => { s with tables := s.tables.deleteFile fhash ord }
  | .noticeDelete ds fid bindex => s.noticeDelete ds fid bindex
  | .noticeCopy src dst fid bindex => s.send [.backupCmd src dst fid bindex]
  | .clientPut ds fid bindex backups disk =>
    (s.store disk ds fid bindex).send
      (.backupOk ds fid bindex :: backups.map fun d => .push d fid bindex)
  | .deliver m disk =>
    if m ∈ s.inFlight then { s with inFlight := s.inFlight.erase m }.receive disk m else s
  | .lose m => { s with inFlight := s.inFlight.erase m }

abbrev Acts (ok : Parties → Action → Prop) : Parties → List Action → Parties → Prop :=
  Runs.Reaches (Runs.ofFun Parties.act) ok

/-- The cluster's step is the one the collection round takes for a connected server. -/
theorem noticeDelete_eq_round (s : Parties) (m : SqlBlock) {online : ℕ → Bool}
    (ho : online m.dsid = true) :
    let r := Round.noticeDeleteBlock online { tables := s.tables, sent := [] } m
    s.noticeDelete m.dsid m.fid m.bindex =
      { s with tables := r.tables }.send (r.sent.map fun c : SqlBlock => .deleteCmd c.dsid c.fid c.bindex) := by
  unfold Parties.noticeDelete Round.noticeDeleteBlock
  simp only [ho, if_true]
  by_cases hany : (s.tables.blocks.any fun r => m.names r ∧ r.status ≠ .deleting) = true
  · have hat : (s.tables.blocks.any fun r =>
        r.isAt (asBigint m.fid) m.bindex (asInt m.dsid) ∧ r.status ≠ .deleting) = true := hany
    rw [if_pos hany, if_pos hat]
    rfl
  · have hat : ¬ (s.tables.blocks.any fun r =>
        r.isAt (asBigint m.fid) m.bindex (asInt m.dsid) ∧ r.status ≠ .deleting) = true := hany
    rw [if_neg hany, if_neg hat, List.map_nil, Parties.send, List.append_nil]

/-! ## Agreement -/

/-- Rows that are not being deleted denote blocks their servers hold, with no delete command for
them under way, and a live row's file is not deleted. Their ids are those the messages carry. -/
structure Agrees (s : Parties) : Prop where
  wellFormed : s.tables.WellFormed
  narrow : ∀ r ∈ s.tables.blocks, r.status ≠ .deleting → r.fileId < 2 ^ 63 ∧ r.dsid < 2 ^ 31
  file_normal : ∀ r ∈ s.tables.blocks, r.status = .live → ∀ f ∈ s.tables.files,
    f.fileId = r.fileId → f.status = .normal
  held : ∀ r ∈ s.tables.blocks, r.status ≠ .deleting → (r.dsid, r.fileId, r.blockindex) ∈ s.holds
  no_command : ∀ r ∈ s.tables.blocks, r.status ≠ .deleting →
    .deleteCmd r.dsid r.fileId r.blockindex ∉ s.inFlight

theorem agrees_start : Agrees Parties.start := by
  refine ⟨wellFormed_empty, ?_, ?_, ?_, ?_⟩ <;> simp [Parties.start, Tables.empty]

/-- A backup notice is delivered in time: if its file is there, the file is not deleted, the server
holds the block and no delete command for it is under way. The ids fit the parameters of
`copy_block`, and the row's `ID` the `int` it is read into. -/
def NoticeInTime (s : Parties) (ds fid : ℕ) (bindex : ℤ) : Prop :=
  ∀ f ∈ s.tables.files, f.fileId = asBigint fid → f.status = .normal ∧
    (fid < 2 ^ 63 ∧ ds < 2 ^ 31) ∧ (ds, fid, bindex) ∈ s.holds ∧
    .deleteCmd ds fid bindex ∉ s.inFlight ∧
    ∀ r ∈ s.tables.blocks, r.isAt fid bindex ds → r.id < 2 ^ 31

instance (s : Parties) (ds fid : ℕ) (bindex : ℤ) : Decidable (NoticeInTime s ds fid bindex) :=
  inferInstanceAs (Decidable (∀ f ∈ s.tables.files, f.fileId = asBigint fid → _ ∧ _ ∧ _ ∧ _ ∧
    ∀ r ∈ s.tables.blocks, r.isAt fid bindex ds → r.id < 2 ^ 31))

def InTime (s : Parties) : Action → Prop
  | .deliver (.backupOk ds fid bindex) _ => NoticeInTime s ds fid bindex
  | _ => True

theorem Agrees.of_tables_eq {s s' : Parties} (h : Agrees s) (ht : s'.tables = s.tables)
    (hh : ∀ b ∈ s.holds, b ∈ s'.holds)
    (hc : ∀ ds fid bindex, Message.deleteCmd ds fid bindex ∈ s'.inFlight →
      Message.deleteCmd ds fid bindex ∈ s.inFlight) : Agrees s' where
  wellFormed := ht ▸ h.wellFormed
  narrow := ht ▸ h.narrow
  file_normal := by
    rw [ht]
    exact h.file_normal
  held := by
    rw [ht]
    exact fun r hr hs => hh _ (h.held r hr hs)
  no_command := by
    rw [ht]
    exact fun r hr hs hm => h.no_command r hr hs (hc _ _ _ hm)

/-- A change of the tables keeps the agreement when each row that is not being deleted afterwards
was such a row before, for the same replica, and live rows keep their files normal. -/
theorem Agrees.of_tables {s : Parties} (h : Agrees s) {t : Tables} (hw : t.WellFormed)
    (hn : ∀ r ∈ t.blocks, r.status = .live → ∀ f ∈ t.files, f.fileId = r.fileId → f.status = .normal)
    (hr : ∀ r ∈ t.blocks, r.status ≠ .deleting →
      ∃ q ∈ s.tables.blocks, q.status ≠ .deleting ∧ q.replica = r.replica) :
    Agrees { s with tables := t } := by
  have hrow : ∀ r ∈ t.blocks, r.status ≠ .deleting → (r.fileId < 2 ^ 63 ∧ r.dsid < 2 ^ 31) ∧
      (r.dsid, r.fileId, r.blockindex) ∈ s.holds ∧
        .deleteCmd r.dsid r.fileId r.blockindex ∉ s.inFlight := by
    intro r hm hs
    obtain ⟨q, hq, hqs, he⟩ := hr r hm hs
    simp only [BlockRow.replica, Prod.mk.injEq] at he
    obtain ⟨hf, hb, hd⟩ := he
    rw [← hf, ← hb, ← hd]
    exact ⟨h.narrow q hq hqs, h.held q hq hqs, h.no_command q hq hqs⟩
  exact ⟨hw, fun r hm hs => (hrow r hm hs).1, hn, fun r hm hs => (hrow r hm hs).2.1,
    fun r hm hs => (hrow r hm hs).2.2⟩

/-! ## One action -/

theorem mem_updateWhere {t : Tables} (h : t.WellFormed) {ord : List ℕ} {p : BlockRow → Bool}
    {st : BlockStatus} {r : BlockRow} (hr : r ∈ (t.updateWhere ord p st).blocks) :
    ∃ q ∈ t.blocks, (p q = true ∧ r = { q with status := st }) ∨ (p q = false ∧ r = q) := by
  rw [updateWhere_blocks t ord p st h.block_ids] at hr
  obtain ⟨q, hq, rfl⟩ := List.mem_map.mp hr
  refine ⟨q, hq, ?_⟩
  cases hp : p q with
  | true => exact Or.inl ⟨rfl, by simp⟩
  | false => exact Or.inr ⟨rfl, by simp⟩

theorem status_of_cores {t t' : Tables} (hc : t'.cores = t.cores) {f : FileRow}
    (hf : f ∈ t'.files) : ∃ g ∈ t.files, g.fileId = f.fileId ∧ g.status = f.status := by
  obtain ⟨g, hg, he⟩ := exists_file_of_cores hc.symm hf
  exact ⟨g, hg, congrArg Prod.fst he, congrArg (fun c => c.2.2.2.2) he⟩

theorem withStatus_cases (fid : ℕ) (st : FileStatus) (f : FileRow) :
    (f.fileId = fid ∧ (f.withStatus fid st).status = st) ∨
      (f.fileId ≠ fid ∧ (f.withStatus fid st).status = f.status) := by
  unfold FileRow.withStatus
  split
  · next h => exact Or.inl ⟨h, rfl⟩
  · next h => exact Or.inr ⟨h, rfl⟩

theorem Agrees.reviveFile {s : Parties} (h : Agrees s) (f : FileRow) (ord : List ℕ) :
    Agrees { s with tables := s.tables.reviveFile f ord } := by
  have hw := h.wellFormed.reviveFile f ord
  unfold Tables.reviveFile at hw ⊢
  split
  · next hst =>
    rw [if_pos hst] at hw
    refine h.of_tables hw ?_ ?_
    · intro r hr hs g hg he
      obtain ⟨g₁, hg₁, rfl⟩ := List.mem_map.mp hg
      rcases withStatus_cases f.fileId .normal g₁ with ⟨-, hst'⟩ | ⟨hne, hst'⟩
      · exact hst'
      · -- another file: its row and its block rows are as before
        obtain ⟨g₀, hg₀, hid, hst₀⟩ := status_of_cores (updateWhere_cores _ _ _ _) hg₁
        rw [withStatus_fileId] at he
        obtain ⟨q, hq, ⟨hp, rfl⟩ | ⟨-, rfl⟩⟩ := mem_updateWhere h.wellFormed hr
        · exact absurd (he.trans (of_decide_eq_true hp).1) hne
        · rw [hst', ← hst₀]
          exact h.file_normal r hq hs g₀ hg₀ (hid.trans he)
    · intro r hr hs
      obtain ⟨q, hq, ⟨hp, rfl⟩ | ⟨-, rfl⟩⟩ := mem_updateWhere h.wellFormed hr
      · refine ⟨q, hq, ?_, rfl⟩
        rw [(of_decide_eq_true hp).2]
        decide
      · exact ⟨r, hq, hs, rfl⟩
  · exact h

theorem Agrees.uploadFile {s : Parties} (h : Agrees s) (fhash : Hash) (fsize bnum bindex : ℤ)
    (ord : List ℕ) :
    Agrees { s with tables := (s.tables.uploadFile fhash fsize bnum bindex ord).1 } := by
  cases hf : s.tables.fileOf fhash with
  | some f =>
    rw [uploadFile_known hf]
    exact h.reviveFile f ord
  | none =>
    have hw := h.wellFormed.uploadFile fhash fsize bnum bindex ord
    simp only [Tables.uploadFile, hf] at hw ⊢
    refine h.of_tables hw ?_ fun r hr hs => ⟨r, hr, hs, rfl⟩
    intro r hr hs g hg he
    rcases List.mem_append.mp hg with hg | hg
    · exact h.file_normal r hr hs g hg he
    · rw [List.mem_singleton.mp hg]

theorem Agrees.deleteFileRow {s : Parties} (h : Agrees s) (fid : ℕ)
    (hn : ∀ r ∈ s.tables.blocks, r.fileId ≠ fid) :
    Agrees { s with tables := s.tables.deleteFileRow fid } :=
  h.of_tables (h.wellFormed.deleteFileRow fid hn)
    (fun r hr hs f hf he => h.file_normal r hr hs f (List.mem_filter.mp hf).1 he)
    fun r hr hs => ⟨r, hr, hs, rfl⟩

theorem Agrees.deleteFile {s : Parties} (h : Agrees s) (fhash : Hash) (ord : List ℕ) :
    Agrees { s with tables := s.tables.deleteFile fhash ord } := by
  cases hf : s.tables.fileOf fhash with
  | none => simpa only [Tables.deleteFile, hf] using h
  | some f =>
    simp only [Tables.deleteFile, hf]
    split
    · have hws := h.wellFormed.setFileStatus (asInt f.fileId) .deleted
      refine h.of_tables (hws.updateWhere _ _ _) ?_ ?_
      · intro r hr hs g hg he
        obtain ⟨q, hq, ⟨-, rfl⟩ | ⟨hp, rfl⟩⟩ := mem_updateWhere hws hr
        · cases hs
        · -- a row that stayed live is of another file
          have hne : r.fileId ≠ asInt f.fileId := by
            intro hrf
            simp [hrf, hs] at hp
          obtain ⟨g₁, hg₁, hid, hst⟩ := status_of_cores (updateWhere_cores _ _ _ _) hg
          obtain ⟨g₀, hg₀, rfl⟩ := List.mem_map.mp hg₁
          rw [withStatus_fileId] at hid
          rcases withStatus_cases (asInt f.fileId) .deleted g₀ with ⟨hid', -⟩ | ⟨-, hst'⟩
          · exact absurd (he.symm.trans (hid.symm.trans hid')) hne
          · rw [← hst, hst']
            exact h.file_normal r hq hs g₀ hg₀ (hid.trans he)
      · intro r hr hs
        obtain ⟨q, hq, ⟨hp, rfl⟩ | ⟨-, rfl⟩⟩ := mem_updateWhere hws hr
        · refine ⟨q, hq, ?_, rfl⟩
          rw [(of_decide_eq_true hp).2]
          decide
        · exact ⟨r, hq, hs, rfl⟩
    · split
      · split
        · exact h
        · next hn => exact h.deleteFileRow _ (no_rows_of_any_eq_false hn)
      · exact h

theorem Agrees.deleteBlock {s : Parties} (h : Agrees s) (fid : ℕ) (bindex : ℤ) (ds : ℕ) :
    Agrees { s with tables := s.tables.deleteBlock fid bindex ds } := by
  refine h.of_tables (h.wellFormed.deleteBlock fid bindex ds) ?_ ?_
  · intro r hr hs f hf he
    unfold Tables.deleteBlock at hr hf
    rw [deleteBlock_rows h.wellFormed] at hr hf
    dsimp only at hr hf
    split at hr
    · next hany =>
      rw [if_pos hany] at hf
      exact h.file_normal r (List.mem_filter.mp hr).1 hs f hf he
    · next hany =>
      rw [if_neg hany] at hf
      exact h.file_normal r (List.mem_filter.mp hr).1 hs f (List.mem_filter.mp hf).1 he
  · intro r hr hs
    refine ⟨r, ?_, hs, rfl⟩
    unfold Tables.deleteBlock at hr
    rw [deleteBlock_rows h.wellFormed] at hr
    dsimp only at hr
    split at hr <;> exact (List.mem_filter.mp hr).1

theorem Agrees.noticeDelete {s : Parties} (h : Agrees s) (ds fid : ℕ) (bindex : ℤ) :
    Agrees (s.noticeDelete ds fid bindex) := by
  have hrows : ∀ r ∈ (s.tables.setDelIng (asBigint fid) bindex (asInt ds) []).blocks,
      r.status ≠ .deleting →
      r ∈ s.tables.blocks ∧ ¬ r.isAt (asBigint fid) bindex (asInt ds) := by
    intro r hr hs
    obtain ⟨q, hq, ⟨-, rfl⟩ | ⟨hp, rfl⟩⟩ := mem_updateWhere h.wellFormed hr
    · exact absurd rfl hs
    · exact ⟨hq, of_decide_eq_false hp⟩
  have hmark : Agrees
      { s with tables := s.tables.setDelIng (asBigint fid) bindex (asInt ds) [] } := by
    refine h.of_tables (h.wellFormed.updateWhere _ _ _) ?_ ?_
    · intro r hr hs f hf he
      obtain ⟨hq, -⟩ := hrows r hr (by rw [hs]; decide)
      obtain ⟨g, hg, hid, hst⟩ := status_of_cores (updateWhere_cores _ _ _ _) hf
      rw [← hst]
      exact h.file_normal r hq hs g hg (hid.trans he)
    · intro r hr hs
      exact ⟨r, (hrows r hr hs).1, hs, rfl⟩
  unfold Parties.noticeDelete
  dsimp only
  split
  · refine ⟨hmark.wellFormed, hmark.narrow, hmark.file_normal, hmark.held, ?_⟩
    intro r hr hs hm
    rcases List.mem_append.mp hm with hm | hm
    · exact hmark.no_command r hr hs hm
    · -- a row the command names has been marked
      obtain ⟨hd, hf, hb⟩ := Message.deleteCmd.inj (List.mem_singleton.mp hm)
      obtain ⟨hfid, hds⟩ := hmark.narrow r hr hs
      refine (hrows r hr hs).2 ⟨?_, hb, ?_⟩
      · rw [← hf, asBigint_of_lt hfid]
      · rw [← hd, asInt_of_lt hds]
  · exact hmark

/-- A row after `copy_block`, in a table whose ids for the replica fit an `int`: it was there with
the same status, or it is the replica's. -/
theorem mem_copyBlock {t : Tables} (h : t.WellFormed) {fid : ℕ} {bindex : ℤ} {ds : ℕ}
    (hid : ∀ r ∈ t.blocks, r.isAt fid bindex ds → r.id < 2 ^ 31) {r : BlockRow}
    (hr : r ∈ (t.copyBlock fid bindex ds).blocks) :
    r ∈ t.blocks ∨ (r.isAt fid bindex ds ∧ ∃ f ∈ t.files, f.fileId = fid) := by
  unfold Tables.copyBlock at hr
  split at hr
  · next hany =>
    have hf : ∃ f ∈ t.files, f.fileId = fid := by
      obtain ⟨f, hm, he⟩ := List.any_eq_true.mp hany
      exact ⟨f, hm, by simpa using he⟩
    split at hr
    · rw [insertBlock_blocks] at hr
      rcases List.mem_append.mp hr with hr | hr
      · exact Or.inl hr
      · rw [List.mem_singleton.mp hr]
        exact Or.inr ⟨⟨rfl, rfl, rfl⟩, hf⟩
    · next r₀ hfind =>
      have hm : r₀ ∈ t.blocks := List.mem_of_find?_eq_some hfind
      have hat : r₀.isAt fid bindex ds := by simpa using List.find?_some hfind
      obtain ⟨q, hq, ⟨hp, rfl⟩ | ⟨-, rfl⟩⟩ := mem_updateWhere h hr
      · rw [asInt_of_lt (hid r₀ hm hat)] at hp
        have : q = r₀ := KeyedList.eq_of_key_eq h.block_ids hq hm (of_decide_eq_true hp)
        rw [this]
        exact Or.inr ⟨hat, hf⟩
      · exact Or.inl hq
  · exact Or.inl hr

theorem Agrees.copyBlock {s : Parties} (h : Agrees s) {ds fid : ℕ} {bindex : ℤ}
    (hin : NoticeInTime s ds fid bindex) :
    Agrees { s with tables := s.tables.copyBlock (asBigint fid) bindex (asInt ds) } := by
  by_cases hany : ∃ f ∈ s.tables.files, f.fileId = asBigint fid
  · obtain ⟨f₀, hf₀, he₀⟩ := hany
    obtain ⟨hst₀, ⟨hfid, hds⟩, hheld, hcmd, hid⟩ := hin f₀ hf₀ he₀
    rw [asInt_of_lt hds, asBigint_of_lt hfid]
    have hrow : ∀ r ∈ (s.tables.copyBlock fid bindex ds).blocks, r.status ≠ .deleting →
        (r.fileId < 2 ^ 63 ∧ r.dsid < 2 ^ 31) ∧ (r.dsid, r.fileId, r.blockindex) ∈ s.holds ∧
          .deleteCmd r.dsid r.fileId r.blockindex ∉ s.inFlight := by
      intro r hr hs
      rcases mem_copyBlock h.wellFormed hid hr with hm | ⟨⟨rfl, rfl, rfl⟩, -⟩
      · exact ⟨h.narrow r hm hs, h.held r hm hs, h.no_command r hm hs⟩
      · exact ⟨⟨hfid, hds⟩, hheld, hcmd⟩
    refine ⟨h.wellFormed.copyBlock fid bindex ds, fun r hr hs => (hrow r hr hs).1, ?_,
      fun r hr hs => (hrow r hr hs).2.1, fun r hr hs => (hrow r hr hs).2.2⟩
    intro r hr hs f hf he
    obtain ⟨g, hg, hgid, hgst⟩ := status_of_cores (copyBlock_cores _ _ _ _) hf
    rw [← hgst]
    rcases mem_copyBlock h.wellFormed hid hr with hm | ⟨⟨hrf, -, -⟩, -⟩
    · exact h.file_normal r hm hs g hg (hgid.trans he)
    · exact (hin g hg ((hgid.trans (he.trans hrf)).trans (asBigint_of_lt hfid).symm)).1
  · -- a notice for a file that is not there is ignored
    have hsame : s.tables.copyBlock (asBigint fid) bindex (asInt ds) = s.tables := by
      have hfalse : (s.tables.files.any fun f => f.fileId = asBigint fid) = false := by
        simpa using fun f hf he => hany ⟨f, hf, he⟩
      simp [Tables.copyBlock, hfalse]
    rw [hsame]
    exact h

theorem mem_send_deleteCmd {l : List Message} {ds fid : ℕ} {bindex : ℤ} {ms : List Message}
    (hms : ∀ m ∈ ms, ∀ d f b, m ≠ .deleteCmd d f b) (hm : .deleteCmd ds fid bindex ∈ l ++ ms) :
    .deleteCmd ds fid bindex ∈ l := by
  rcases List.mem_append.mp hm with hm | hm
  · exact hm
  · exact absurd rfl (hms _ hm ds fid bindex)

theorem Agrees.store {s : Parties} (h : Agrees s) (disk : Bool) (ds fid : ℕ) (bindex : ℤ)
    {ms : List Message} (hms : ∀ m ∈ ms, ∀ d f b, m ≠ .deleteCmd d f b) :
    Agrees ((s.store disk ds fid bindex).send ms) := by
  unfold Parties.store
  split
  · exact h.of_tables_eq rfl (fun _ hb => List.mem_cons_of_mem _ hb)
      fun _ _ _ hc => mem_send_deleteCmd hms hc
  · exact h.of_tables_eq rfl (fun _ hb => hb) fun _ _ _ hc => mem_send_deleteCmd hms hc

/-- The command was under way, so no row that is not being deleted denotes what it removes. -/
theorem Agrees.remove {s : Parties} (h : Agrees s) {ds fid : ℕ} {bindex : ℤ}
    (hm : .deleteCmd ds fid bindex ∈ s.inFlight) (disk : Bool) :
    Agrees (({ s with inFlight := s.inFlight.erase (.deleteCmd ds fid bindex) }.remove disk ds fid
      bindex).send [.deleteOk ds fid bindex]) := by
  have hcommand : ∀ r ∈ s.tables.blocks, r.status ≠ .deleting →
      .deleteCmd r.dsid r.fileId r.blockindex ∉
        s.inFlight.erase (.deleteCmd ds fid bindex) ++ [.deleteOk ds fid bindex] :=
    fun r hr hs hc => h.no_command r hr hs (List.mem_of_mem_erase (mem_send_deleteCmd (by simp) hc))
  unfold Parties.remove
  split
  · refine ⟨h.wellFormed, h.narrow, h.file_normal, fun r hr hs => ?_, hcommand⟩
    refine List.mem_filter.mpr ⟨h.held r hr hs, ?_⟩
    simp only [ne_eq, decide_not, Bool.not_eq_true', decide_eq_false_iff_not, Prod.mk.injEq]
    rintro ⟨rfl, rfl, rfl⟩
    exact h.no_command r hr hs hm
  · exact ⟨h.wellFormed, h.narrow, h.file_normal, h.held, hcommand⟩

theorem Agrees.receive {s : Parties} (h : Agrees s) {m : Message} (hm : m ∈ s.inFlight)
    {disk : Bool} (hok : InTime s (.deliver m disk)) :
    Agrees ({ s with inFlight := s.inFlight.erase m }.receive disk m) := by
  have hsub : ∀ {ds fid bindex}, Message.deleteCmd ds fid bindex ∈ s.inFlight.erase m →
      Message.deleteCmd ds fid bindex ∈ s.inFlight := fun hc => List.mem_of_mem_erase hc
  have herase : Agrees { s with inFlight := s.inFlight.erase m } :=
    h.of_tables_eq rfl (fun _ hb => hb) fun _ _ _ hc => hsub hc
  cases m with
  | deleteCmd ds fid bindex => exact h.remove hm disk
  | deleteOk ds fid bindex => exact herase.deleteBlock _ bindex _
  | backupCmd src dst fid bindex =>
    simp only [Parties.receive]
    split
    · exact herase.of_tables_eq rfl (fun _ hb => hb) fun _ _ _ hc => mem_send_deleteCmd (by simp) hc
    · exact herase
  | push dst fid bindex => exact herase.store disk dst fid bindex (by simp)
  | backupOk ds fid bindex =>
    refine herase.copyBlock ?_
    intro f hf he
    obtain ⟨hst, hids, hheld, hcmd, hid⟩ := hok f hf he
    exact ⟨hst, hids, hheld, fun hc => hcmd (hsub hc), hid⟩

theorem Agrees.act {s : Parties} (h : Agrees s) {a : Action} (hok : InTime s a) :
    Agrees (s.act a) := by
  cases a with
  | uploadFile fhash fsize bnum bindex ord => exact h.uploadFile fhash fsize bnum bindex ord
  | deleteFile fhash ord => exact h.deleteFile fhash ord
  | noticeDelete ds fid bindex => exact h.noticeDelete ds fid bindex
  | noticeCopy src dst fid bindex =>
    exact h.of_tables_eq rfl (fun _ hb => hb) fun _ _ _ hc => mem_send_deleteCmd (by simp) hc
  | clientPut ds fid bindex backups disk =>
    refine h.store disk ds fid bindex ?_
    intro m hm d f b he
    rw [he] at hm
    simp at hm
  | deliver m disk =>
    simp only [Parties.act]
    split
    · next hm => exact h.receive hm hok
    · exact h
  | lose m =>
    exact h.of_tables_eq rfl (fun _ hb => hb) fun _ _ _ hc => List.mem_of_mem_erase hc

/-! ## Every run -/

/-- In every run in which each backup notice is delivered in time, no live row belongs to a deleted
file, and every live row denotes a block its server holds when nothing is under way. -/
theorem tables_and_stores_agree (as : List Action) (s : Parties)
    (hr : Acts InTime Parties.start as s) :
    (∀ r ∈ s.tables.blocks, r.status = .live → ∀ f ∈ s.tables.files, f.fileId = r.fileId →
        f.status ≠ .deleted) ∧
      (s.inFlight = [] → ∀ r ∈ s.tables.blocks, r.status = .live →
        (r.dsid, r.fileId, r.blockindex) ∈ s.holds) := by
  have h : Agrees s := by
    refine Runs.Reaches.invariant (I := Agrees) ?_ hr agrees_start
    rintro s a s' h hok rfl
    exact h.act hok
  constructor
  · intro r hr hs f hf he
    rw [h.file_normal r hr hs f hf he]
    decide
  · intro _ r hr hs
    exact h.held r hr (by rw [hs]; decide)

instance (s : Parties) : ∀ a : Action, Decidable (InTime s a)
  | .deliver (.backupOk ds fid bindex) _ => inferInstanceAs (Decidable (NoticeInTime s ds fid bindex))
  | .deliver (.deleteCmd ..) _ => .isTrue trivial
  | .deliver (.deleteOk ..) _ => .isTrue trivial
  | .deliver (.backupCmd ..) _ => .isTrue trivial
  | .deliver (.push ..) _ => .isTrue trivial
  | .uploadFile .. => .isTrue trivial
  | .deleteFile .. => .isTrue trivial
  | .noticeDelete .. => .isTrue trivial
  | .noticeCopy .. => .isTrue trivial
  | .clientPut .. => .isTrue trivial
  | .lose .. => .isTrue trivial

/-- A block stored on server 5 and pushed to servers 6 and 4; the disk of 4 fails and its notice is
lost. Then the replica on 5 is collected. -/
def storedThenCollected : List Action :=
  [.uploadFile 7 100 1 0 [], .clientPut 5 1 0 [6, 4] true, .deliver (.backupOk 5 1 0) true,
    .deliver (.push 6 1 0) true, .deliver (.push 4 1 0) false, .lose (.backupOk 4 1 0),
    .deliver (.backupOk 6 1 0) true, .noticeDelete 5 1 0, .deliver (.deleteCmd 5 1 0) true,
    .deliver (.deleteOk 5 1 0) true]

theorem storedThenCollected_agrees :
    (storedThenCollected.foldl Parties.act Parties.start).inFlight = [] ∧
      ∀ r ∈ (storedThenCollected.foldl Parties.act Parties.start).tables.blocks, r.status = .live →
        (r.dsid, r.fileId, r.blockindex) ∈
          (storedThenCollected.foldl Parties.act Parties.start).holds :=
  ⟨by decide, (tables_and_stores_agree storedThenCollected _
    (Runs.reaches_of_allAllowed _ _ _ _ (by decide))).2 (by decide)⟩

/-- The file is deleted while server 6's notice is under way. -/
def deletedBeforeNotice : List Action :=
  [.uploadFile 7 100 1 0 [], .clientPut 5 1 0 [6] true, .deliver (.backupOk 5 1 0) true,
    .deliver (.push 6 1 0) true, .deleteFile 7 [], .deliver (.backupOk 6 1 0) true]

/-- A second put of the block to server 5 is acknowledged between the marking of the replica there
and the delivery of the delete command. -/
def noticeBehindCommand : List Action :=
  [.uploadFile 7 100 1 0 [], .clientPut 5 1 0 [] true, .deliver (.backupOk 5 1 0) true,
    .clientPut 5 1 0 [] true, .noticeDelete 5 1 0, .deliver (.backupOk 5 1 0) true,
    .deliver (.deleteCmd 5 1 0) true, .deliver (.deleteOk 5 1 0) true]

/-- Late notices break both: a live row of a deleted file, and a live row for a block that is gone
with nothing under way. -/
theorem late_notices_disagree :
    (∃ r ∈ (deletedBeforeNotice.foldl Parties.act Parties.start).tables.blocks, r.status = .live ∧
      ∃ f ∈ (deletedBeforeNotice.foldl Parties.act Parties.start).tables.files,
        f.fileId = r.fileId ∧ f.status = .deleted) ∧
    ((noticeBehindCommand.foldl Parties.act Parties.start).inFlight = [] ∧
      ∃ r ∈ (noticeBehindCommand.foldl Parties.act Parties.start).tables.blocks, r.status = .live ∧
        (r.dsid, r.fileId, r.blockindex) ∉
          (noticeBehindCommand.foldl Parties.act Parties.start).holds) := by
  decide

end Tefs.Cluster
