import Tefs.NameServer.WellFormed

/-! # The collection of surplus replicas

Source: `gfs_busi_check_del_block` and `gfs_busi_notice_delete_block` in
`nameservice/busi/gfs_busi_notice.c`, `gfs_mysql_get_delblock` and `gfs_mysql_set_deling` in
`nameservice/sql/gfs_sql.c`, `get_del_block` in `procedure.sql`.

A round asks for a page of rows that are not live and marks each of them, then asks for a page of
the rows of blocks with more live rows than `copies`, collects them by block into `dsblist` entries
with an array of ten server ids, and marks the first `dsnum - copies` of each entry. The difference
is unsigned, and the page may have cut the entry short.
-/

namespace Tefs.NameServer
set_option autoImplicit false

/-! ## The two pages -/

/-- `@page_num` in `get_del_block`, and the length of `blist`. -/
def pageNum : ℕ := 50

/-- `MAX_COPIES`, the length of `dsid` in a `dsblist_t`. -/
def maxCopies : ℕ := 10

/-- `limit idx*page_num, page_num` on a result whose order is `ord`'s. -/
def page (ord : List ℕ) (idx : ℕ) (rows : List BlockRow) : List BlockRow :=
  ((arrange ord rows).drop (idx * pageNum)).take pageNum

theorem page_subperm (ord : List ℕ) (idx : ℕ) (rows : List BlockRow) : (page ord idx rows).Subperm rows :=
  ((List.take_sublist _ _).trans (List.drop_sublist _ _)).subperm.trans (arrange_perm _ _).subperm

/-- `get_del_block` with `opt=0`. -/
def Tables.markedPage (t : Tables) (ord : List ℕ) (idx : ℕ) : List BlockRow :=
  page ord idx (t.blocks.filter fun r => r.status ≠ .live)

/-- `get_del_block` with `opt=1`: every row of a block that has more than `copies` live ones. -/
def Tables.surplusPage (t : Tables) (copies : ℕ) (ord : List ℕ) (idx : ℕ) : List BlockRow :=
  page ord idx (t.blocks.filter fun r => copies < t.liveCount r.fileId r.blockindex)

structure SqlBlock where
  fid : ℕ
  bindex : ℤ
  dsid : ℕ
  deriving DecidableEq, Repr

/-- `atoi` keeps 32 bits of the file id and sign-extends them into the unsigned 64-bit field. -/
def atoiFid (v : ℕ) : ℕ :=
  if v % 2 ^ 32 < 2 ^ 31 then v % 2 ^ 32 else 2 ^ 64 - 2 ^ 32 + v % 2 ^ 32

def fetchRow (r : BlockRow) : SqlBlock :=
  { fid := atoiFid r.fileId, bindex := r.blockindex, dsid := r.dsid }

/-! ## Marking -/

/-- What a parameter of type `bigint` holds for an unsigned 64-bit argument. -/
def asBigint (v : ℕ) : ℕ := min v (2 ^ 63 - 1)

theorem asBigint_of_lt {v : ℕ} (h : v < 2 ^ 63) : asBigint v = v := by
  unfold asBigint
  omega

/-- The row that `set_del_ing`, called for `m`, updates. -/
def SqlBlock.names (m : SqlBlock) (r : BlockRow) : Prop :=
  r.isAt (asBigint m.fid) m.bindex (asInt m.dsid)

instance (m : SqlBlock) (r : BlockRow) : Decidable (m.names r) :=
  inferInstanceAs (Decidable (r.isAt _ _ _))

structure Round where
  tables : Tables
  sent : List SqlBlock
  deriving DecidableEq, Repr

/-- `gfs_busi_notice_delete_block`: nothing for a server that is not connected; else the row is
marked, and the command goes out if that changed a row. -/
def Round.noticeDeleteBlock (online : ℕ → Bool) (s : Round) (m : SqlBlock) : Round :=
  if online m.dsid then
    { tables := s.tables.setDelIng (asBigint m.fid) m.bindex (asInt m.dsid) [],
      sent := if s.tables.blocks.any fun r => m.names r ∧ r.status ≠ .deleting then
          s.sent ++ [m]
        else s.sent }
  else s

/-! ## `gfs_busi_check_del_block` -/

/-- An entry of `dsblist`; `dsnum` is the length of `dsid`. -/
structure DsbList where
  fid : ℕ
  bindex : ℤ
  dsid : List ℕ
  deriving DecidableEq, Repr

inductive DsidFault where
  | write
  | read
  deriving DecidableEq, Repr

/-- The inner loop over the entries: the row joins the first entry of its block, or a new one. -/
def collectRow (m : SqlBlock) : List DsbList → Except DsidFault (List DsbList)
  | [] => .ok [{ fid := m.fid, bindex := m.bindex, dsid := [m.dsid] }]
  | g :: gs =>
    if m.fid = g.fid ∧ m.bindex = g.bindex then
      if g.dsid.length < maxCopies then .ok ({ g with dsid := g.dsid ++ [m.dsid] } :: gs)
      else .error .write
    else
      match collectRow m gs with
      | .ok gs' => .ok (g :: gs')
      | .error e => .error e

def collectRows : List SqlBlock → List DsbList → Except DsidFault (List DsbList)
  | [], gs => .ok gs
  | m :: ms, gs =>
    match collectRow m gs with
    | .ok gs' => collectRows ms gs'
    | .error e => .error e

/-- `dsblist[i].dsnum - gfs_global->copies` in unsigned 32-bit arithmetic. -/
def surplusNum (dsnum copies : ℕ) : ℕ := (dsnum + 2 ^ 32 - copies) % 2 ^ 32

def noticeFirst (online : ℕ → Bool) (fid : ℕ) (bindex : ℤ) :
    List ℕ → ℕ → Round → Except DsidFault Round
  | _, 0, s => .ok s
  | [], _ + 1, _ => .error .read
  | d :: ds, num + 1, s =>
    noticeFirst online fid bindex ds num
      (s.noticeDeleteBlock online { fid := fid, bindex := bindex, dsid := d })

def noticeSurplus (online : ℕ → Bool) (copies : ℕ) :
    List DsbList → Round → Except DsidFault Round
  | [], s => .ok s
  | g :: gs, s =>
    match noticeFirst online g.fid g.bindex g.dsid (surplusNum g.dsid.length copies) s with
    | .ok s' => noticeSurplus online copies gs s'
    | .error e => .error e

/-- What a round depends on besides the tables: the setting, the two page counters, the orders in
which the two queries return their rows, and the servers that are connected. -/
structure DelRound where
  copies : ℕ
  del0Pages : ℕ
  del1Pages : ℕ
  ord0 : List ℕ
  ord1 : List ℕ
  online : ℕ → Bool

def DelRound.noticeMarked (e : DelRound) (t : Tables) : Round :=
  ((t.markedPage e.ord0 e.del0Pages).map fetchRow).foldl (Round.noticeDeleteBlock e.online)
    { tables := t, sent := [] }

def DelRound.checkDelBlock (e : DelRound) (t : Tables) : Except DsidFault Round :=
  if t.markedPage e.ord0 e.del0Pages = [] then .ok { tables := t, sent := [] }
  else
    let s := e.noticeMarked t
    match collectRows ((s.tables.surplusPage e.copies e.ord1 e.del1Pages).map fetchRow) [] with
    | .error f => .error f
    | .ok dsblist => noticeSurplus e.online e.copies dsblist s

/-! ## Which rows a round marks

Read off the two pages, without the loops. -/

def entry (rows : List SqlBlock) (m : SqlBlock) : List SqlBlock :=
  rows.filter fun p => p.fid = m.fid ∧ p.bindex = m.bindex

def surplusOf (copies : ℕ) (rows : List SqlBlock) (m : SqlBlock) : List SqlBlock :=
  (entry rows m).take ((entry rows m).length - copies)

def DelRound.marked (e : DelRound) (t : Tables) : List SqlBlock :=
  (t.markedPage e.ord0 e.del0Pages).map fetchRow

def setDeleting (p : BlockRow → Prop) [DecidablePred p] (rows : List BlockRow) : List BlockRow :=
  rows.map fun q => if p q then { q with status := .deleting } else q

/-- What the second query returns, asked when the rows of the first page have been marked; it is
not asked when the first returned nothing. -/
def DelRound.surplus (e : DelRound) (t : Tables) : List SqlBlock :=
  if t.markedPage e.ord0 e.del0Pages = [] then []
  else
    let marked := setDeleting (fun r => ∃ m ∈ e.marked t, e.online m.dsid = true ∧ m.names r) t.blocks
    (Tables.surplusPage { t with blocks := marked } e.copies e.ord1 e.del1Pages).map fetchRow

def DelRound.picks (e : DelRound) (t : Tables) : List SqlBlock :=
  e.marked t ++ (e.surplus t).flatMap (surplusOf e.copies (e.surplus t))

def DelRound.Hits (e : DelRound) (t : Tables) (r : BlockRow) : Prop :=
  ∃ m ∈ e.picks t, e.online m.dsid = true ∧ m.names r

instance (e : DelRound) (t : Tables) (r : BlockRow) : Decidable (e.Hits t r) :=
  inferInstanceAs (Decidable (∃ m ∈ e.picks t, e.online m.dsid = true ∧ m.names r))

def DelRound.liveHits (e : DelRound) (t : Tables) (fid : ℕ) (bindex : ℤ) : ℕ :=
  t.blocks.countP fun r =>
    (r.fileId = fid ∧ r.blockindex = bindex ∧ r.status = .live) ∧ e.Hits t r

/-- A round's promise: a block with more than `copies` live rows keeps `copies` of them, and no
live row of another block is touched. -/
def ReplicasKept (copies : ℕ) (t t' : Tables) : Prop :=
  ∀ fid bindex,
    (copies < t.liveCount fid bindex → copies ≤ t'.liveCount fid bindex) ∧
    (t.liveCount fid bindex ≤ copies → ∀ r ∈ t.blocks, r.fileId = fid → r.blockindex = bindex →
      r.status = .live → r ∈ t'.blocks)

/-! ## Marking sets the status of the rows named -/

theorem setDeleting_ids (p : BlockRow → Prop) [DecidablePred p] (rows : List BlockRow) :
    (setDeleting p rows).map BlockRow.id = rows.map BlockRow.id := by
  simpa [setDeleting] using map_setStatus rows (fun q => decide (p q)) .deleting BlockRow.id
    fun _ => rfl

theorem setDeleting_setDeleting (p q : BlockRow → Prop) [DecidablePred p] [DecidablePred q]
    (hq : ∀ r : BlockRow, q { r with status := .deleting } ↔ q r) (rows : List BlockRow) :
    setDeleting q (setDeleting p rows) = setDeleting (fun r => p r ∨ q r) rows := by
  unfold setDeleting
  rw [List.map_map]
  apply List.map_congr_left
  intro r _
  simp only [Function.comp_apply]
  by_cases hp : p r
  · by_cases hqr : q r <;> simp [hp, hq, hqr]
  · simp [hp]

theorem names_status (m : SqlBlock) (r : BlockRow) (st : BlockStatus) :
    m.names { r with status := st } ↔ m.names r := Iff.rfl

theorem noticeDeleteBlock_blocks (online : ℕ → Bool) (s : Round) (m : SqlBlock)
    (hid : (s.tables.blocks.map BlockRow.id).Nodup) :
    (s.noticeDeleteBlock online m).tables.blocks =
      setDeleting (fun r => online m.dsid = true ∧ m.names r) s.tables.blocks := by
  unfold Round.noticeDeleteBlock
  split
  · next ho =>
    simp only [Tables.setDelIng, updateWhere_blocks _ _ _ _ hid, setDeleting, ho, true_and]
    apply List.map_congr_left
    intro r _
    by_cases hn : m.names r
    · rw [if_pos hn]
      exact if_pos (decide_eq_true hn)
    · rw [if_neg hn]
      exact if_neg (mt of_decide_eq_true hn)
  · next ho => simp [setDeleting, ho]

/-- The induction is over the rows still to be marked, from any state with unique ids. -/
theorem foldl_notice_blocks (online : ℕ → Bool) (ms : List SqlBlock) (s : Round)
    (hid : (s.tables.blocks.map BlockRow.id).Nodup) :
    (ms.foldl (Round.noticeDeleteBlock online) s).tables.blocks =
      setDeleting (fun r => ∃ m ∈ ms, online m.dsid = true ∧ m.names r) s.tables.blocks := by
  induction ms generalizing s with
  | nil => simp [setDeleting]
  | cons m ms ih =>
    have hb := noticeDeleteBlock_blocks online s m hid
    rw [List.foldl_cons, ih _ (by rw [hb, setDeleting_ids]; exact hid), hb,
      setDeleting_setDeleting _ _ (by intro r; simp only [names_status])]
    simp [setDeleting]

/-! ## What the loops collect -/

def DsbList.block (g : DsbList) : ℕ × ℤ := (g.fid, g.bindex)

def SqlBlock.block (m : SqlBlock) : ℕ × ℤ := (m.fid, m.bindex)

/-- The entries hold exactly the rows, each block's servers in the order of the rows. -/
structure Collected (rows : List SqlBlock) (gs : List DsbList) : Prop where
  blocks : (gs.map DsbList.block).Nodup
  dsids : ∀ g ∈ gs, (rows.filter fun p => p.block = g.block).map SqlBlock.dsid = g.dsid
  covers : ∀ m ∈ rows, ∃ g ∈ gs, g.block = m.block
  used : ∀ g ∈ gs, ∃ m ∈ rows, m.block = g.block

theorem entry_eq (rows : List SqlBlock) (m : SqlBlock) :
    entry rows m = rows.filter fun p => p.block = m.block := by
  simp [entry, SqlBlock.block]

def DsbList.add (g : DsbList) (d : ℕ) : DsbList := { g with dsid := g.dsid ++ [d] }

theorem collectRow_new {m : SqlBlock} {gs : List DsbList} (h : ∀ g ∈ gs, g.block ≠ m.block) :
    collectRow m gs = .ok (gs ++ [{ fid := m.fid, bindex := m.bindex, dsid := [m.dsid] }]) := by
  induction gs with
  | nil => rfl
  | cons g gs ih =>
    have hne : ¬ (m.fid = g.fid ∧ m.bindex = g.bindex) := by
      rintro ⟨hf, hb⟩
      exact h g (by simp) (by simp [DsbList.block, SqlBlock.block, hf, hb])
    rw [collectRow, if_neg hne, ih fun q hq => h q (by simp [hq])]
    rfl

theorem collectRow_known {m : SqlBlock} {gs : List DsbList} (hn : (gs.map DsbList.block).Nodup)
    {g : DsbList} (hg : g ∈ gs) (hb : g.block = m.block) :
    collectRow m gs =
      if g.dsid.length < maxCopies then
        .ok (gs.map fun q => if q.block = m.block then q.add m.dsid else q)
      else .error .write := by
  induction gs with
  | nil => simp at hg
  | cons q gs ih =>
    obtain ⟨hq, hn⟩ := List.nodup_cons.mp hn
    rw [collectRow]
    by_cases he : q.block = m.block
    · -- the first entry is the block's, and no later one is
      have hqg : g = q := by
        rcases List.mem_cons.mp hg with rfl | hg
        · rfl
        · exact absurd (List.mem_map.mpr ⟨g, hg, hb.trans he.symm⟩) hq
      have hrest : gs.map (fun q => if q.block = m.block then q.add m.dsid else q) = gs := by
        refine KeyedList.map_ite_of_ne m.block (fun q : DsbList => q.add m.dsid) ?_
        intro p hp hpe
        exact hq (List.mem_map.mpr ⟨p, hp, hpe.trans he.symm⟩)
      have hc : m.fid = q.fid ∧ m.bindex = q.bindex := by
        simp only [DsbList.block, SqlBlock.block, Prod.mk.injEq] at he
        exact ⟨he.1.symm, he.2.symm⟩
      rw [if_pos hc, hqg, List.map_cons, if_pos he, hrest]
      rfl
    · have hc : ¬ (m.fid = q.fid ∧ m.bindex = q.bindex) := by
        rintro ⟨hf, hi⟩
        exact he (by simp [DsbList.block, SqlBlock.block, hf, hi])
      have hg' : g ∈ gs := by
        rcases List.mem_cons.mp hg with rfl | hg
        · exact absurd hb he
        · exact hg
      rw [if_neg hc, ih hn hg', List.map_cons, if_neg he]
      by_cases hlt : g.dsid.length < maxCopies
      · simp [hlt]
      · simp [hlt]

theorem Collected.add_new {rows : List SqlBlock} {gs : List DsbList} (h : Collected rows gs)
    {m : SqlBlock} (hm : ∀ g ∈ gs, g.block ≠ m.block) :
    Collected (rows ++ [m])
      (gs ++ [{ fid := m.fid, bindex := m.bindex, dsid := [m.dsid] }]) where
  blocks := by
    rw [List.map_append, List.nodup_append]
    refine ⟨h.blocks, by simp, ?_⟩
    intro a ha b hb he
    obtain ⟨g, hg, rfl⟩ := List.mem_map.mp ha
    exact hm g hg (he.trans (List.mem_singleton.mp hb))
  dsids := by
    intro g hg
    rw [List.filter_append, List.map_append]
    rcases List.mem_append.mp hg with hg | hg
    · have hne : m.block ≠ g.block := Ne.symm (hm g hg)
      simp [h.dsids g hg, hne]
    · rw [List.mem_singleton.mp hg]
      have hnone : rows.filter (fun p => decide (p.block = m.block)) = [] := by
        refine List.filter_eq_nil_iff.mpr ?_
        intro p hp
        obtain ⟨q, hq, hqp⟩ := h.covers p hp
        simpa [← hqp] using hm q hq
      change (rows.filter fun p => decide (p.block = m.block)).map SqlBlock.dsid ++ _ = _
      rw [hnone]
      simp [DsbList.block, SqlBlock.block]
  covers := by
    intro p hp
    rcases List.mem_append.mp hp with hp | hp
    · obtain ⟨g, hg, he⟩ := h.covers p hp
      exact ⟨g, List.mem_append_left _ hg, he⟩
    · rw [List.mem_singleton.mp hp]
      exact ⟨_, List.mem_append_right _ (List.mem_singleton.mpr rfl), rfl⟩
  used := by
    intro g hg
    rcases List.mem_append.mp hg with hg | hg
    · obtain ⟨p, hp, he⟩ := h.used g hg
      exact ⟨p, List.mem_append_left _ hp, he⟩
    · rw [List.mem_singleton.mp hg]
      exact ⟨m, List.mem_append_right _ (List.mem_singleton.mpr rfl), rfl⟩

theorem Collected.add_known {rows : List SqlBlock} {gs : List DsbList} (h : Collected rows gs)
    {m : SqlBlock} (hm : ∃ g ∈ gs, g.block = m.block) :
    Collected (rows ++ [m]) (gs.map fun q => if q.block = m.block then q.add m.dsid else q) := by
  have hblock : ∀ q : DsbList, (if q.block = m.block then q.add m.dsid else q).block = q.block := by
    intro q
    split <;> rfl
  have hmem : ∀ g ∈ gs.map fun q => if q.block = m.block then q.add m.dsid else q,
      ∃ q ∈ gs, (if q.block = m.block then q.add m.dsid else q) = g :=
    fun g hg => List.mem_map.mp hg
  refine ⟨?_, ?_, ?_, ?_⟩
  · have hsame : (gs.map fun q => if q.block = m.block then q.add m.dsid else q).map DsbList.block =
        gs.map DsbList.block := by
      rw [List.map_map]
      exact List.map_congr_left fun q _ => hblock q
    rw [hsame]
    exact h.blocks
  · intro g hg
    obtain ⟨q, hq, rfl⟩ := hmem g hg
    rw [hblock, List.filter_append, List.map_append, h.dsids q hq]
    by_cases he : q.block = m.block
    · simp [he, DsbList.add]
    · simp [he, Ne.symm he]
  · intro p hp
    have hex : ∃ q ∈ gs, q.block = p.block := by
      rcases List.mem_append.mp hp with hp | hp
      · exact h.covers p hp
      · rw [List.mem_singleton.mp hp]
        exact hm
    obtain ⟨q, hq, he⟩ := hex
    exact ⟨_, List.mem_map.mpr ⟨q, hq, rfl⟩, (hblock q).trans he⟩
  · intro g hg
    obtain ⟨q, hq, rfl⟩ := hmem g hg
    obtain ⟨p, hp, he⟩ := h.used q hq
    exact ⟨p, List.mem_append_left _ hp, he.trans (hblock q).symm⟩

theorem Collected.length_dsid {rows : List SqlBlock} {gs : List DsbList} (h : Collected rows gs)
    {g : DsbList} (hg : g ∈ gs) {m : SqlBlock} (hb : g.block = m.block) :
    (entry rows m).length = g.dsid.length := by
  rw [← h.dsids g hg, List.length_map, entry_eq, hb]

/-- Either the rows are collected, or some block has more of them than the array holds. The
induction is over the rows still to come, behind those already collected. -/
theorem collectRows_cases (ms done : List SqlBlock) (gs : List DsbList) (h : Collected done gs)
    (hlen : ∀ g ∈ gs, g.dsid.length ≤ maxCopies) :
    (∃ gs', collectRows ms gs = .ok gs' ∧ Collected (done ++ ms) gs' ∧
        ∀ g ∈ gs', g.dsid.length ≤ maxCopies) ∨
      (∃ f, collectRows ms gs = .error f) ∧
        ∃ m ∈ done ++ ms, maxCopies < (entry (done ++ ms) m).length := by
  induction ms generalizing done gs with
  | nil => exact Or.inl ⟨gs, rfl, by simpa using h, hlen⟩
  | cons m ms ih =>
    have happ : done ++ m :: ms = (done ++ [m]) ++ ms := by simp
    rw [collectRows, happ]
    by_cases hm : ∃ g ∈ gs, g.block = m.block
    · obtain ⟨g, hg, hb⟩ := hm
      rw [collectRow_known h.blocks hg hb]
      by_cases hlt : g.dsid.length < maxCopies
      · rw [if_pos hlt]
        refine ih (done ++ [m]) _ (h.add_known ⟨g, hg, hb⟩) ?_
        intro q hq
        obtain ⟨q', hq', rfl⟩ := List.mem_map.mp hq
        by_cases he : q'.block = m.block
        · have : q' = g := KeyedList.eq_of_key_eq h.blocks hq' hg (he.trans hb.symm)
          subst this
          rw [if_pos hb]
          simp only [DsbList.add, List.length_append, List.length_singleton]
          omega
        · simpa [he] using hlen q' hq'
      · rw [if_neg hlt]
        refine Or.inr ⟨⟨_, rfl⟩, m, by simp, ?_⟩
        have he : (entry done m).length = g.dsid.length := h.length_dsid hg hb
        simp only [entry, List.filter_append, List.length_append] at he ⊢
        simp only [and_self, decide_true, List.filter_cons_of_pos, List.length_cons]
        omega
    · have hm' : ∀ g ∈ gs, g.block ≠ m.block := fun g hg he => hm ⟨g, hg, he⟩
      rw [collectRow_new hm']
      refine ih (done ++ [m]) _ (h.add_new hm') ?_
      intro q hq
      rcases List.mem_append.mp hq with hq | hq
      · exact hlen q hq
      · rw [List.mem_singleton.mp hq]
        simp [maxCopies]

theorem collected_nil : Collected [] [] := by
  constructor <;> simp

/-! ## What the loops mark -/

def DsbList.surplus (copies : ℕ) (g : DsbList) : List SqlBlock :=
  (g.dsid.take (g.dsid.length - copies)).map fun d => { fid := g.fid, bindex := g.bindex, dsid := d }

theorem noticeFirst_le (online : ℕ → Bool) (fid : ℕ) (bindex : ℤ) (ds : List ℕ) (num : ℕ)
    (hn : num ≤ ds.length) (s : Round) :
    noticeFirst online fid bindex ds num s =
      .ok (((ds.take num).map fun d => { fid := fid, bindex := bindex, dsid := d }).foldl
        (Round.noticeDeleteBlock online) s) := by
  induction ds generalizing num s with
  | nil =>
    obtain rfl : num = 0 := by simpa using hn
    rfl
  | cons d ds ih =>
    cases num with
    | zero => rfl
    | succ num =>
      rw [noticeFirst, ih num (by simpa using hn)]
      rfl

theorem noticeFirst_gt (online : ℕ → Bool) (fid : ℕ) (bindex : ℤ) (ds : List ℕ) (num : ℕ)
    (hn : ds.length < num) (s : Round) :
    noticeFirst online fid bindex ds num s = .error .read := by
  induction ds generalizing num s with
  | nil =>
    cases num with
    | zero => simp at hn
    | succ num => rfl
  | cons d ds ih =>
    cases num with
    | zero => simp at hn
    | succ num =>
      rw [noticeFirst]
      exact ih num (by simpa using hn) _

theorem surplusNum_of_le {dsnum copies : ℕ} (h : copies ≤ dsnum) (hd : dsnum ≤ maxCopies) :
    surplusNum dsnum copies = dsnum - copies := by
  unfold surplusNum maxCopies at *
  omega

theorem lt_surplusNum_of_lt {dsnum copies : ℕ} (h : dsnum < copies) (hc : copies ≤ maxCopies) :
    dsnum < surplusNum dsnum copies := by
  unfold surplusNum maxCopies at *
  omega

theorem noticeSurplus_cases (online : ℕ → Bool) {copies : ℕ} (hc : copies ≤ maxCopies)
    (gs : List DsbList) (hlen : ∀ g ∈ gs, g.dsid.length ≤ maxCopies) (s : Round) :
    ((∀ g ∈ gs, copies ≤ g.dsid.length) ∧
        noticeSurplus online copies gs s =
          .ok ((gs.flatMap (DsbList.surplus copies)).foldl (Round.noticeDeleteBlock online) s)) ∨
      (∃ g ∈ gs, g.dsid.length < copies) ∧ ∃ f, noticeSurplus online copies gs s = .error f := by
  induction gs generalizing s with
  | nil => exact Or.inl ⟨by simp, rfl⟩
  | cons g gs ih =>
    have hg : g.dsid.length ≤ maxCopies := hlen g (by simp)
    rw [noticeSurplus]
    by_cases hle : copies ≤ g.dsid.length
    · rw [surplusNum_of_le hle hg, noticeFirst_le _ _ _ _ _ (Nat.sub_le _ _)]
      rcases ih (fun q hq => hlen q (by simp [hq])) _ with ⟨hall, he⟩ | ⟨⟨q, hq, hlt⟩, he⟩
      · refine Or.inl ⟨?_, ?_⟩
        · intro q hq
          rcases List.mem_cons.mp hq with rfl | hq
          · exact hle
          · exact hall q hq
        · rw [List.flatMap_cons, List.foldl_append]
          exact he
      · exact Or.inr ⟨⟨q, by simp [hq], hlt⟩, he⟩
    · have hlt : g.dsid.length < copies := by omega
      rw [noticeFirst_gt _ _ _ _ _ (lt_surplusNum_of_lt hlt hc)]
      exact Or.inr ⟨⟨g, by simp, hlt⟩, .read, rfl⟩

theorem Collected.surplus_eq {rows : List SqlBlock} {gs : List DsbList} (h : Collected rows gs)
    {g : DsbList} (hg : g ∈ gs) {m : SqlBlock} (hb : g.block = m.block) (copies : ℕ) :
    g.surplus copies = surplusOf copies rows m := by
  have he : (g.dsid.map fun d => ({ fid := g.fid, bindex := g.bindex, dsid := d } : SqlBlock)) =
      entry rows m := by
    rw [← h.dsids g hg, List.map_map, entry_eq, hb]
    conv_rhs => rw [← List.map_id (rows.filter fun p => decide (p.block = m.block))]
    apply List.map_congr_left
    intro p hp
    have hp : p.block = m.block := by simpa using (List.mem_filter.mp hp).2
    rw [← hb] at hp
    simp only [SqlBlock.block, DsbList.block, Prod.mk.injEq] at hp
    simp [← hp.1, ← hp.2]
  unfold DsbList.surplus surplusOf
  rw [List.map_take, he, h.length_dsid hg hb]

theorem Collected.mem_surplus {rows : List SqlBlock} {gs : List DsbList} (h : Collected rows gs)
    (copies : ℕ) (m : SqlBlock) :
    m ∈ gs.flatMap (DsbList.surplus copies) ↔ m ∈ rows.flatMap (surplusOf copies rows) := by
  simp only [List.mem_flatMap]
  constructor
  · rintro ⟨g, hg, hm⟩
    obtain ⟨p, hp, hb⟩ := h.used g hg
    exact ⟨p, hp, h.surplus_eq hg hb.symm copies ▸ hm⟩
  · rintro ⟨p, hp, hm⟩
    obtain ⟨g, hg, hb⟩ := h.covers p hp
    exact ⟨g, hg, (h.surplus_eq hg hb copies).symm ▸ hm⟩

/-! ## The round as a whole -/

theorem noticeMarked_blocks (e : DelRound) {t : Tables} (hid : (t.blocks.map BlockRow.id).Nodup) :
    (e.noticeMarked t).tables.blocks =
      setDeleting (fun r => ∃ m ∈ e.marked t, e.online m.dsid = true ∧ m.names r) t.blocks :=
  foldl_notice_blocks e.online (e.marked t) { tables := t, sent := [] } hid

theorem surplusPage_noticeMarked {e : DelRound} {t : Tables}
    (hid : (t.blocks.map BlockRow.id).Nodup) (hne : t.markedPage e.ord0 e.del0Pages ≠ []) :
    ((e.noticeMarked t).tables.surplusPage e.copies e.ord1 e.del1Pages).map fetchRow =
      e.surplus t := by
  rw [DelRound.surplus, if_neg hne]
  unfold Tables.surplusPage Tables.liveCount
  rw [noticeMarked_blocks e hid]

theorem checkDelBlock_ok {e : DelRound} {t : Tables} (hid : (t.blocks.map BlockRow.id).Nodup)
    (hc : e.copies ≤ maxCopies)
    (he : ∀ m ∈ e.surplus t, e.copies ≤ (entry (e.surplus t) m).length ∧
      (entry (e.surplus t) m).length ≤ maxCopies) :
    ∃ s, e.checkDelBlock t = .ok s ∧ s.tables.blocks = setDeleting (e.Hits t) t.blocks := by
  unfold DelRound.checkDelBlock
  by_cases hempty : t.markedPage e.ord0 e.del0Pages = []
  · refine ⟨_, if_pos hempty, ?_⟩
    simp [setDeleting, DelRound.Hits, DelRound.picks, DelRound.marked, DelRound.surplus, hempty]
  · rw [if_neg hempty]
    simp only [surplusPage_noticeMarked hid hempty]
    rcases collectRows_cases (e.surplus t) [] [] collected_nil (by simp) with
      ⟨gs, hok, hcol, hlen⟩ | ⟨-, m, hm, hlt⟩
    · rw [hok]
      have hgs : ∀ g ∈ gs, e.copies ≤ g.dsid.length := by
        intro g hg
        obtain ⟨m, hm, hb⟩ := hcol.used g hg
        rw [← hcol.length_dsid hg hb.symm]
        exact (he m (by simpa using hm)).1
      rcases noticeSurplus_cases e.online hc gs hlen (e.noticeMarked t) with
        ⟨-, heq⟩ | ⟨⟨g, hg, hlt⟩, -⟩
      · refine ⟨_, heq, ?_⟩
        have h₁ := noticeMarked_blocks e hid
        rw [foldl_notice_blocks _ _ _ (by rw [h₁, setDeleting_ids]; exact hid), h₁,
          setDeleting_setDeleting _ _ (by intro r; simp only [names_status])]
        unfold setDeleting
        apply List.map_congr_left
        intro r _
        have hiff : ((∃ m ∈ e.marked t, e.online m.dsid = true ∧ m.names r) ∨
            ∃ m ∈ gs.flatMap (DsbList.surplus e.copies), e.online m.dsid = true ∧ m.names r) ↔
              e.Hits t r := by
          have hmem := hcol.mem_surplus e.copies
          simp only [List.nil_append] at hmem
          simp only [hmem, DelRound.Hits, DelRound.picks, List.mem_append, or_and_right, exists_or]
        simp only [hiff]
      · exact absurd (hgs g hg) (by omega)
    · simp only [List.nil_append] at hm hlt
      exact absurd (he m hm).2 (by omega)

theorem entries_of_checkDelBlock_ok {e : DelRound} {t : Tables}
    (hid : (t.blocks.map BlockRow.id).Nodup) (hc : e.copies ≤ maxCopies) {s : Round}
    (hok : e.checkDelBlock t = .ok s) :
    ∀ m ∈ e.surplus t, e.copies ≤ (entry (e.surplus t) m).length ∧
      (entry (e.surplus t) m).length ≤ maxCopies := by
  unfold DelRound.checkDelBlock at hok
  by_cases hempty : t.markedPage e.ord0 e.del0Pages = []
  · simp [DelRound.surplus, hempty]
  · rw [if_neg hempty] at hok
    simp only [surplusPage_noticeMarked hid hempty] at hok
    rcases collectRows_cases (e.surplus t) [] [] collected_nil (by simp) with
      ⟨gs, hcok, hcol, hlen⟩ | ⟨⟨f, hf⟩, -⟩
    · rw [hcok] at hok
      rcases noticeSurplus_cases e.online hc gs hlen (e.noticeMarked t) with
        ⟨hgs, -⟩ | ⟨-, f, hf⟩
      · intro m hm
        obtain ⟨g, hg, hb⟩ := hcol.covers m (by simpa using hm)
        have hl := hcol.length_dsid hg hb
        rw [List.nil_append] at hl
        rw [hl]
        exact ⟨hgs g hg, hlen g hg⟩
      · simp [hf] at hok
    · simp [hf] at hok

theorem countP_setDeleting (p : BlockRow → Prop) [DecidablePred p] (rows : List BlockRow)
    (fid : ℕ) (bindex : ℤ) :
    (setDeleting p rows).countP
        (fun r => r.fileId = fid ∧ r.blockindex = bindex ∧ r.status = .live) +
      rows.countP (fun r => (r.fileId = fid ∧ r.blockindex = bindex ∧ r.status = .live) ∧ p r) =
      rows.countP fun r => r.fileId = fid ∧ r.blockindex = bindex ∧ r.status = .live := by
  induction rows with
  | nil => rfl
  | cons r rows ih =>
    unfold setDeleting at ih ⊢
    simp only [List.map_cons, List.countP_cons]
    by_cases hp : p r
    · simp only [hp, if_true, and_true, reduceCtorEq, and_false, decide_false, Bool.false_eq_true,
        if_false]
      omega
    · simp only [hp, if_false, and_false, decide_false, Bool.false_eq_true]
      omega

theorem mem_setDeleting_iff (p : BlockRow → Prop) [DecidablePred p] {rows : List BlockRow}
    (hid : (rows.map BlockRow.id).Nodup) {r : BlockRow} (hr : r ∈ rows) (hs : r.status = .live) :
    r ∈ setDeleting p rows ↔ ¬ p r := by
  unfold setDeleting
  rw [List.mem_map]
  constructor
  · rintro ⟨q, hq, he⟩ hp
    have hqr : q.id = r.id := by
      rw [← he]
      split <;> rfl
    have hqe : q = r := KeyedList.eq_of_key_eq hid hq hr hqr
    rw [hqe, if_pos hp] at he
    rw [← he] at hs
    cases hs
  · intro hp
    exact ⟨r, hr, if_neg hp⟩

/-- In terms of the rows that are marked: the arrays hold every entry, and a live row is only marked
where `copies` live rows of its block are left. -/
theorem keeps_iff_hits (e : DelRound) (t : Tables)
    (hid : (t.blocks.map BlockRow.id).Nodup) (hc : e.copies ≤ maxCopies) :
    (∃ s, e.checkDelBlock t = .ok s ∧ ReplicasKept e.copies t s.tables) ↔
      (∀ m ∈ e.surplus t, e.copies ≤ (entry (e.surplus t) m).length ∧
        (entry (e.surplus t) m).length ≤ maxCopies) ∧
      ∀ r ∈ t.blocks, r.status = .live → e.Hits t r →
        e.liveHits t r.fileId r.blockindex + e.copies ≤ t.liveCount r.fileId r.blockindex := by
  constructor
  · rintro ⟨s, hok, hkept⟩
    have he := entries_of_checkDelBlock_ok hid hc hok
    obtain ⟨s', hok', hb⟩ := checkDelBlock_ok hid hc he
    rw [hok] at hok'
    cases hok'
    refine ⟨he, ?_⟩
    intro r hr hs hhit
    obtain ⟨hmany, hfew⟩ := hkept r.fileId r.blockindex
    have hcount := countP_setDeleting (e.Hits t) t.blocks r.fileId r.blockindex
    rw [← hb] at hcount
    change s.tables.liveCount _ _ + e.liveHits t _ _ = t.liveCount _ _ at hcount
    by_cases hlt : e.copies < t.liveCount r.fileId r.blockindex
    · have := hmany hlt
      omega
    · have hmem := hfew (by omega) r hr rfl rfl hs
      rw [hb, mem_setDeleting_iff _ hid hr hs] at hmem
      exact absurd hhit hmem
  · rintro ⟨hentries, hlive⟩
    obtain ⟨s, hok, hb⟩ := checkDelBlock_ok hid hc hentries
    refine ⟨s, hok, ?_⟩
    intro fid bindex
    have hcount := countP_setDeleting (e.Hits t) t.blocks fid bindex
    rw [← hb] at hcount
    change s.tables.liveCount _ _ + e.liveHits t _ _ = t.liveCount _ _ at hcount
    constructor
    · intro hlt
      by_cases hz : e.liveHits t fid bindex = 0
      · omega
      · -- a live row of the block is hit, and the bound speaks about it
        obtain ⟨r, hr, hp⟩ := List.countP_pos_iff.mp (Nat.pos_of_ne_zero hz)
        obtain ⟨⟨rfl, rfl, hs⟩, hhit⟩ := of_decide_eq_true hp
        have := hlive r hr hs hhit
        omega
    · rintro hle r hr rfl rfl hs
      rw [hb, mem_setDeleting_iff _ hid hr hs]
      intro hhit
      have hsafe := hlive r hr hs hhit
      have hpos : 0 < e.liveHits t r.fileId r.blockindex :=
        List.countP_pos_iff.mpr ⟨r, hr, decide_eq_true ⟨⟨rfl, rfl, hs⟩, hhit⟩⟩
      omega

end Tefs.NameServer
