import Tefs.NameServer.Surplus

/-! # The copies of blocks with too few replicas

Source: `gfs_busi_check_cpy_block`, `gfs_busi_cpys_handle` and `gfs_busi_notice_copy_block` in
`nameservice/busi/gfs_busi_notice.c`, `gfs_mysql_get_cpyblock` in `nameservice/sql/gfs_sql.c`, `get_cpy_block` in
`procedure.sql`.

The query counts the live rows of a block and returns all its rows. The handler takes the first of these for the source and
their number for the number of replicas. The connected data servers are given by their ids in the order of `dslist`, of
which `gfs_net_map_gettopn` returns the first ten; a server is registered under its own id.
-/

namespace Tefs.NameServer
set_option autoImplicit false

/-! ## The round -/

/-- `get_cpy_block`: every row of a block that has live ones, but fewer than `copies`. -/
def Tables.cpyPage (t : Tables) (copies : ℕ) (ord : List ℕ) (idx : ℕ) : List BlockRow :=
  page ord idx (t.blocks.filter fun r =>
    0 < t.liveCount r.fileId r.blockindex ∧ t.liveCount r.fileId r.blockindex < copies)

/-- The message to the server `src` -/
structure CopyCommand where
  src : ℕ
  dst : ℕ
  fid : ℕ
  bindex : ℤ
  deriving DecidableEq, Repr

def noticeCopyBlock (servers : List ℕ) (src dst fid : ℕ) (bindex : ℤ) : List CopyCommand :=
  if src ∈ servers then [{ src := src, dst := dst, fid := fid, bindex := bindex }] else []

/-- The loop of `gfs_busi_cpys_handle` over `pnet`; `dsid[0]` was set when the entry was made. -/
def cpysLoop (servers : List ℕ) (g : DsbList) : ℤ → List ℕ → List CopyCommand
  | _, [] => []
  | num, d :: pnet =>
    if num < 1 then []
    else if d ∈ g.dsid then cpysLoop servers g num pnet
    else noticeCopyBlock servers (g.dsid.headD 0) d g.fid g.bindex ++ cpysLoop servers g (num - 1) pnet

def cpysHandle (servers : List ℕ) (copies : ℕ) (pnet : List ℕ) (g : DsbList) : List CopyCommand :=
  cpysLoop servers g (copies - g.dsid.length) pnet

/-- What a round depends on besides the tables: the setting, the page counter, the order in which the query returns its
rows, and the servers that are connected. -/
structure CpyRound where
  copies : ℕ
  cpyPages : ℕ
  ord : List ℕ
  servers : List ℕ

/-- What `gfs_net_map_gettopn` returns -/
def CpyRound.pnet (e : CpyRound) : List ℕ := e.servers.take 10

def CpyRound.blist (e : CpyRound) (t : Tables) : List SqlBlock := (t.cpyPage e.copies e.ord e.cpyPages).map fetchRow

def CpyRound.checkCpyBlock (e : CpyRound) (t : Tables) : Except DsidFault (List CopyCommand) :=
  if e.blist t = [] then .ok []
  else if e.pnet.length < 2 then .ok []
  else
    match collectRows (e.blist t) [] with
    | .error f => .error f
    | .ok dsblist => .ok (dsblist.flatMap (cpysHandle e.servers e.copies e.pnet))

/-! ## What a round is for -/

def BlockRow.ofBlock (r : BlockRow) (fid : ℕ) (bindex : ℤ) : Prop := r.fileId = fid ∧ r.blockindex = bindex

instance (r : BlockRow) (fid : ℕ) (bindex : ℤ) : Decidable (r.ofBlock fid bindex) :=
  inferInstanceAs (Decidable (_ ∧ _))

/-- A server with a live replica -/
def Tables.Holder (t : Tables) (fid : ℕ) (bindex : ℤ) (ds : ℕ) : Prop :=
  ∃ r ∈ t.blocks, r.isAt fid bindex ds ∧ r.status = .live

/-- A server without a row for the block -/
def Tables.New (t : Tables) (fid : ℕ) (bindex : ℤ) (ds : ℕ) : Prop :=
  ∀ r ∈ t.blocks, r.ofBlock fid bindex → r.dsid ≠ ds

/-- The block lacks replicas, and all its rows are on the page. -/
structure CpyRound.Due (e : CpyRound) (t : Tables) (fid : ℕ) (bindex : ℤ) : Prop where
  live : 0 < t.liveCount fid bindex
  few : t.liveCount fid bindex < e.copies
  fits : ((t.cpyPage e.copies e.ord e.cpyPages).filter fun r => r.ofBlock fid bindex).length =
    (t.blocks.filter fun r => r.ofBlock fid bindex).length

def commandsFor (fid : ℕ) (bindex : ℤ) (cmds : List CopyCommand) : List CopyCommand :=
  cmds.filter fun m => m.fid = fid ∧ m.bindex = bindex

/-- The commands for the block are no more than it lacks, go from a server with a live replica to connected servers
without a row, each of them once, and there is one when there can be one. -/
structure CpyRound.Planned (e : CpyRound) (t : Tables) (fid : ℕ) (bindex : ℤ) (cmds : List CopyCommand) : Prop where
  length : cmds.length + t.liveCount fid bindex ≤ e.copies
  source : ∀ m ∈ cmds, t.Holder fid bindex m.src
  target : ∀ m ∈ cmds, m.dst ∈ e.servers ∧ t.New fid bindex m.dst
  distinct : (cmds.map CopyCommand.dst).Nodup
  some : (∃ ds ∈ e.servers, t.Holder fid bindex ds) → (∃ ds ∈ e.servers, t.New fid bindex ds) → cmds ≠ []

/-! ## When it does that -/

/-- The servers that the page names for the block -/
def CpyRound.named (e : CpyRound) (t : Tables) (fid : ℕ) (bindex : ℤ) : List ℕ :=
  ((e.blist t).filter fun m => m.fid = fid ∧ m.bindex = bindex).map SqlBlock.dsid

/-- The first server named is connected, fewer than `copies` are named, and one of the ten is not. -/
structure CpyRound.Starts (e : CpyRound) (t : Tables) (fid : ℕ) (bindex : ℤ) (src : ℕ) : Prop where
  first : (e.named t fid bindex).head? = some src
  connected : src ∈ e.servers
  room : (e.named t fid bindex).length < e.copies
  near : ∃ ds ∈ e.pnet, ds ∉ e.named t fid bindex

/-- No entry has more rows than its array holds. For a due block, a source that starts has a live replica, and one starts
if a server with a live replica and one without a row are connected. -/
structure CpyRound.Sound (e : CpyRound) (t : Tables) : Prop where
  entries : 2 ≤ e.servers.length → ∀ m ∈ e.blist t, (entry (e.blist t) m).length ≤ maxCopies
  source : ∀ fid bindex, e.Due t fid bindex → ∀ src, e.Starts t fid bindex src → t.Holder fid bindex src
  starts : ∀ fid bindex, e.Due t fid bindex → (∃ ds ∈ e.servers, t.Holder fid bindex ds) →
    (∃ ds ∈ e.servers, t.New fid bindex ds) → ∃ src, e.Starts t fid bindex src

/-! ## The commands of an entry -/

section

variable {e : CpyRound} {t : Tables} {fid : ℕ} {bindex : ℤ}

theorem cpysLoop_eq (servers : List ℕ) (g : DsbList) (num : ℤ) (pnet : List ℕ) :
    cpysLoop servers g num pnet =
      if g.dsid.headD 0 ∈ servers then
        ((pnet.filter fun d => d ∉ g.dsid).take num.toNat).map fun d =>
          { src := g.dsid.headD 0, dst := d, fid := g.fid, bindex := g.bindex }
      else [] := by
  induction pnet generalizing num with
  | nil => simp [cpysLoop]
  | cons d pnet ih =>
    rw [cpysLoop]
    by_cases hnum : num < 1
    · rw [if_pos hnum, show num.toNat = 0 by omega]
      simp
    · rw [if_neg hnum]
      by_cases hd : d ∈ g.dsid
      · rw [if_pos hd, ih, List.filter_cons_of_neg (by simpa using hd)]
      · rw [if_neg hd, ih, List.filter_cons_of_pos (by simpa using hd), show num.toNat = (num - 1).toNat + 1 by omega,
          noticeCopyBlock]
        split
        · rfl
        · rfl

theorem block_of_mem_cpysHandle {servers pnet : List ℕ} {copies : ℕ} {g : DsbList} {m : CopyCommand}
    (h : m ∈ cpysHandle servers copies pnet g) : (m.fid, m.bindex) = g.block := by
  rw [cpysHandle, cpysLoop_eq] at h
  split at h
  · obtain ⟨d, -, rfl⟩ := List.mem_map.mp h
    rfl
  · cases h

theorem commandsFor_cpysHandle (servers pnet : List ℕ) (copies : ℕ) (g : DsbList) :
    commandsFor fid bindex (cpysHandle servers copies pnet g) =
      if g.block = (fid, bindex) then cpysHandle servers copies pnet g else [] := by
  rw [commandsFor]
  split
  next hblock =>
    rw [List.filter_eq_self]
    intro m hm
    have hm' := block_of_mem_cpysHandle hm
    rw [hblock, Prod.mk.injEq] at hm'
    exact decide_eq_true hm'
  next hblock =>
    rw [List.filter_eq_nil_iff]
    intro m hm hm'
    rw [← block_of_mem_cpysHandle hm, Prod.mk.injEq] at hblock
    exact hblock (of_decide_eq_true hm')

/-- The commands for a block are those of its entry. -/
theorem commandsFor_flatMap (servers pnet : List ℕ) (copies : ℕ) (gs : List DsbList) :
    commandsFor fid bindex (gs.flatMap (cpysHandle servers copies pnet)) =
      (gs.filter fun g => g.block = (fid, bindex)).flatMap (cpysHandle servers copies pnet) := by
  induction gs with
  | nil => rfl
  | cons g gs ih =>
    rw [List.flatMap_cons, commandsFor, List.filter_append, ← commandsFor, ← commandsFor, ih, commandsFor_cpysHandle]
    by_cases hblock : g.block = (fid, bindex)
    · simp [hblock]
    · simp [hblock]

/-- What the round does for a block, read off the page -/
def CpyRound.plan (e : CpyRound) (t : Tables) (fid : ℕ) (bindex : ℤ) : List CopyCommand :=
  match (e.named t fid bindex).head? with
  | none => []
  | some src =>
    if src ∈ e.servers then
      ((e.pnet.filter fun d => d ∉ e.named t fid bindex).take (e.copies - (e.named t fid bindex).length)).map fun d =>
        { src := src, dst := d, fid := fid, bindex := bindex }
    else []

theorem named_eq (e : CpyRound) (t : Tables) (fid : ℕ) (bindex : ℤ) :
    e.named t fid bindex = ((e.blist t).filter fun p => p.block = (fid, bindex)).map SqlBlock.dsid := by
  simp [CpyRound.named, SqlBlock.block]

/-- The loops that collect the rows, and the one over the entries -/
theorem commandsFor_eq {gs : List DsbList} (h : Collected (e.blist t) gs) :
    commandsFor fid bindex (gs.flatMap (cpysHandle e.servers e.copies e.pnet)) = e.plan t fid bindex := by
  rw [commandsFor_flatMap]
  rcases KeyedList.filter_key_eq h.blocks (fid, bindex) with hfilter | ⟨g, hg, hblock, hfilter⟩
  · have hnamed : e.named t fid bindex = [] := by
      rw [named_eq, List.map_eq_nil_iff, List.filter_eq_nil_iff]
      intro m hm hm'
      obtain ⟨g, hg, hgm⟩ := h.covers m hm
      exact List.filter_eq_nil_iff.mp hfilter g hg (by rw [hgm]; exact hm')
    rw [hfilter, CpyRound.plan, hnamed]
    rfl
  · have hnamed : e.named t fid bindex = g.dsid := by rw [named_eq, ← h.dsids g hg, hblock]
    obtain ⟨m, hm, hmg⟩ := h.used g hg
    have hfirst : g.dsid ≠ [] := by
      rw [← h.dsids g hg]
      exact List.ne_nil_of_mem (List.mem_map_of_mem (List.mem_filter.mpr ⟨hm, decide_eq_true hmg⟩))
    obtain ⟨src, dsid, hdsid⟩ := List.exists_cons_of_ne_nil hfirst
    obtain ⟨rfl, rfl⟩ : g.fid = fid ∧ g.bindex = bindex := Prod.mk.injEq .. ▸ hblock
    have hnum : ((e.copies : ℤ) - g.dsid.length).toNat = e.copies - g.dsid.length := by omega
    rw [hfilter, List.flatMap_singleton, cpysHandle, cpysLoop_eq, hnum, CpyRound.plan, hnamed, hdsid]
    rfl

/-! ## The block on the page -/

theorem atoiFid_atoiFid (v : ℕ) : atoiFid (atoiFid v) = atoiFid v := by
  unfold atoiFid
  split
  · rw [Nat.mod_mod]
    split <;> omega
  · split <;> omega

theorem cpyPage_subperm (e : CpyRound) (t : Tables) : (t.cpyPage e.copies e.ord e.cpyPages).Subperm t.blocks :=
  (page_subperm _ _ _).trans List.filter_sublist.subperm

theorem CpyRound.Due.perm (h : e.Due t fid bindex) :
    ((t.cpyPage e.copies e.ord e.cpyPages).filter fun r => r.ofBlock fid bindex).Perm
      (t.blocks.filter fun r => r.ofBlock fid bindex) :=
  ((cpyPage_subperm e t).filter _).perm_of_length_le h.fits.ge

/-- The page names a server for this file id, which `atoi` then has left as it is. -/
theorem atoiFid_of_named (h : e.named t fid bindex ≠ []) : atoiFid fid = fid := by
  obtain ⟨ds, hds⟩ := List.exists_mem_of_ne_nil _ h
  obtain ⟨m, hm, -⟩ := List.mem_map.mp hds
  obtain ⟨hblist, hblock⟩ := List.mem_filter.mp hm
  obtain ⟨r, -, rfl⟩ := List.mem_map.mp hblist
  obtain ⟨rfl, -⟩ := of_decide_eq_true hblock
  exact atoiFid_atoiFid r.fileId

/-- All rows of the block are among those of the entry. -/
theorem CpyRound.Due.subperm_named (h : e.Due t fid bindex) (hnamed : e.named t fid bindex ≠ []) :
    ((t.blocks.filter fun r => r.ofBlock fid bindex).map BlockRow.dsid).Subperm (e.named t fid bindex) := by
  have hrows : ((t.cpyPage e.copies e.ord e.cpyPages).filter fun r => r.ofBlock fid bindex).map BlockRow.dsid =
      ((((t.cpyPage e.copies e.ord e.cpyPages).filter fun r => r.ofBlock fid bindex).map fetchRow).map SqlBlock.dsid) := by
    rw [List.map_map]
    rfl
  refine (h.perm.symm.map _).subperm.trans ?_
  rw [hrows, CpyRound.named, CpyRound.blist, List.filter_map]
  refine List.Sublist.subperm (List.Sublist.map _ (List.Sublist.map _ ?_))
  refine List.monotone_filter_right _ fun r hr => ?_
  obtain ⟨rfl, rfl⟩ := of_decide_eq_true hr
  exact decide_eq_true ⟨atoiFid_of_named hnamed, rfl⟩

theorem CpyRound.Due.mem_named (h : e.Due t fid bindex) (hnamed : e.named t fid bindex ≠ []) {r : BlockRow}
    (hr : r ∈ t.blocks) (hblock : r.ofBlock fid bindex) : r.dsid ∈ e.named t fid bindex :=
  (h.subperm_named hnamed).subset (List.mem_map_of_mem (List.mem_filter.mpr ⟨hr, decide_eq_true hblock⟩))

theorem CpyRound.Due.liveCount_le (h : e.Due t fid bindex) (hnamed : e.named t fid bindex ≠ []) :
    t.liveCount fid bindex ≤ (e.named t fid bindex).length := by
  have hle := (h.subperm_named hnamed).length_le
  rw [List.length_map, ← List.countP_eq_length_filter] at hle
  refine Nat.le_trans (List.countP_mono_left fun r _ hr => ?_) hle
  obtain ⟨hfid, hbindex, -⟩ := of_decide_eq_true hr
  exact decide_eq_true ⟨hfid, hbindex⟩

/-! ## The plan -/

def CpyRound.targets (e : CpyRound) (t : Tables) (fid : ℕ) (bindex : ℤ) : List ℕ :=
  (e.pnet.filter fun d => d ∉ e.named t fid bindex).take (e.copies - (e.named t fid bindex).length)

theorem targets_ne_nil_iff : e.targets t fid bindex ≠ [] ↔
    (e.named t fid bindex).length < e.copies ∧ ∃ ds ∈ e.pnet, ds ∉ e.named t fid bindex := by
  rw [CpyRound.targets, Ne, List.take_eq_nil_iff, not_or, List.filter_eq_nil_iff]
  constructor
  · rintro ⟨hroom, hnear⟩
    refine ⟨by omega, ?_⟩
    simpa using hnear
  · rintro ⟨hroom, ds, hds, hnew⟩
    exact ⟨by omega, fun h => h ds hds (decide_eq_true hnew)⟩

theorem plan_of_starts {src : ℕ} (h : e.Starts t fid bindex src) :
    e.plan t fid bindex = (e.targets t fid bindex).map fun d => { src := src, dst := d, fid := fid, bindex := bindex } := by
  rw [CpyRound.plan, h.first]
  exact if_pos h.connected

theorem plan_eq_nil (h : ∀ src, ¬ e.Starts t fid bindex src) : e.plan t fid bindex = [] := by
  rw [CpyRound.plan]
  cases hfirst : (e.named t fid bindex).head? with
  | none => rfl
  | some src =>
    dsimp only
    split
    next hconnected =>
      rw [List.map_eq_nil_iff]
      by_contra hne
      obtain ⟨hroom, hnear⟩ := targets_ne_nil_iff.mp hne
      exact h src ⟨hfirst, hconnected, hroom, hnear⟩
    · rfl

theorem mem_targets {ds : ℕ} (h : ds ∈ e.targets t fid bindex) : ds ∈ e.servers ∧ ds ∉ e.named t fid bindex := by
  obtain ⟨hpnet, hnew⟩ := List.mem_filter.mp (List.mem_of_mem_take h)
  exact ⟨List.mem_of_mem_take hpnet, of_decide_eq_true hnew⟩

theorem CpyRound.Due.planned_of_starts (h : e.Due t fid bindex) (hnodup : e.servers.Nodup) {src : ℕ}
    (hstarts : e.Starts t fid bindex src) (hholder : t.Holder fid bindex src) :
    e.Planned t fid bindex (e.plan t fid bindex) := by
  have hnamed : e.named t fid bindex ≠ [] := by
    intro hnil
    have hfirst := hstarts.first
    rw [hnil] at hfirst
    cases hfirst
  rw [plan_of_starts hstarts]
  refine ⟨?_, fun m hm => ?_, fun m hm => ?_, ?_, fun _ _ => ?_⟩
  · have hlive := h.liveCount_le hnamed
    have hroom := hstarts.room
    rw [List.length_map, CpyRound.targets, List.length_take]
    omega
  · obtain ⟨ds, -, rfl⟩ := List.mem_map.mp hm
    exact hholder
  · obtain ⟨ds, hds, rfl⟩ := List.mem_map.mp hm
    obtain ⟨hserver, hnew⟩ := mem_targets hds
    refine ⟨hserver, fun r hr hblock heq => hnew ?_⟩
    have hmem := h.mem_named hnamed hr hblock
    rwa [heq] at hmem
  · rw [List.map_map]
    have hid : (CopyCommand.dst ∘ fun d => ⟨src, d, fid, bindex⟩) = id := rfl
    rw [hid, List.map_id]
    exact ((hnodup.sublist (List.take_sublist _ _)).filter _).sublist (List.take_sublist _ _)
  · rw [Ne, List.map_eq_nil_iff]
    exact targets_ne_nil_iff.mpr ⟨hstarts.room, hstarts.near⟩

theorem CpyRound.Due.planned_iff (h : e.Due t fid bindex) (hnodup : e.servers.Nodup) :
    e.Planned t fid bindex (e.plan t fid bindex) ↔
      (∀ src, e.Starts t fid bindex src → t.Holder fid bindex src) ∧
        ((∃ ds ∈ e.servers, t.Holder fid bindex ds) → (∃ ds ∈ e.servers, t.New fid bindex ds) →
          ∃ src, e.Starts t fid bindex src) := by
  constructor
  · intro hplanned
    constructor
    · intro src hstarts
      obtain ⟨ds, hds⟩ := List.exists_mem_of_ne_nil _ (targets_ne_nil_iff.mpr ⟨hstarts.room, hstarts.near⟩)
      refine hplanned.source ⟨src, ds, fid, bindex⟩ ?_
      rw [plan_of_starts hstarts]
      exact List.mem_map_of_mem hds
    · intro hholder hnew
      by_contra hnone
      exact hplanned.some hholder hnew (plan_eq_nil fun src hstarts => hnone ⟨src, hstarts⟩)
  · rintro ⟨hsource, hstarts⟩
    by_cases hnone : ∃ src, e.Starts t fid bindex src
    · obtain ⟨src, hsrc⟩ := hnone
      exact h.planned_of_starts hnodup hsrc (hsource src hsrc)
    · rw [plan_eq_nil fun src hsrc => hnone ⟨src, hsrc⟩]
      refine ⟨?_, nofun, nofun, List.nodup_nil, fun hholder hnew => absurd (hstarts hholder hnew) hnone⟩
      rw [List.length_nil, Nat.zero_add]
      exact h.few.le

/-! ## The round as a whole -/

theorem CpyRound.Due.blist_ne_nil (h : e.Due t fid bindex) : e.blist t ≠ [] := by
  intro hnil
  have hfits := h.fits
  rw [List.map_eq_nil_iff.mp hnil, List.filter_nil, List.length_nil, ← List.countP_eq_length_filter] at hfits
  have hle : t.liveCount fid bindex ≤ t.blocks.countP fun r => r.ofBlock fid bindex := by
    refine List.countP_mono_left fun r _ hr => ?_
    obtain ⟨hfid, hbindex, -⟩ := of_decide_eq_true hr
    exact decide_eq_true ⟨hfid, hbindex⟩
  have := h.live
  omega

theorem two_le_length {l : List ℕ} {a b : ℕ} (ha : a ∈ l) (hb : b ∈ l) (hab : a ≠ b) : 2 ≤ l.length := by
  have hsub : [a, b].Subperm l := List.subperm_of_subset (by simpa using hab) (by simp [ha, hb])
  exact hsub.length_le

/-- A source and a target are two servers. -/
theorem two_servers (hholder : ∃ ds ∈ e.servers, t.Holder fid bindex ds) (hnew : ∃ ds ∈ e.servers, t.New fid bindex ds) :
    2 ≤ e.servers.length := by
  obtain ⟨src, hsrc, r, hr, hat, -⟩ := hholder
  obtain ⟨dst, hdst, hnew⟩ := hnew
  refine two_le_length hsrc hdst fun heq => hnew r hr ⟨hat.1, hat.2.1⟩ ?_
  rw [hat.2.2, heq]

theorem CpyRound.Starts.two_servers {src : ℕ} (h : e.Starts t fid bindex src) : 2 ≤ e.servers.length := by
  obtain ⟨dst, hdst, hnew⟩ := h.near
  refine two_le_length h.connected (List.mem_of_mem_take hdst) fun heq => hnew ?_
  rw [← heq]
  exact List.mem_of_mem_head? h.first

theorem planned_of_few (h : e.Due t fid bindex) (hfew : e.servers.length < 2) : e.Planned t fid bindex [] := by
  refine ⟨?_, nofun, nofun, List.nodup_nil, fun hholder hnew => ?_⟩
  · rw [List.length_nil, Nat.zero_add]
    exact h.few.le
  · have := two_servers hholder hnew
    omega

theorem sound_of_few (hfew : e.servers.length < 2) : e.Sound t := by
  refine ⟨fun h => absurd h (by omega), fun _ _ _ _ hstarts => ?_, fun _ _ _ hholder hnew => ?_⟩
  · have := hstarts.two_servers
    omega
  · have := two_servers hholder hnew
    omega

theorem sound_of_nil (hnil : e.blist t = []) : e.Sound t := by
  refine ⟨fun _ m hm => ?_, fun _ _ hdue => absurd hnil hdue.blist_ne_nil, fun _ _ hdue => absurd hnil hdue.blist_ne_nil⟩
  rw [hnil] at hm
  cases hm

end

theorem planned_iff_sound (e : CpyRound) (t : Tables) (hnodup : e.servers.Nodup) :
    (∃ cmds, e.checkCpyBlock t = .ok cmds ∧
      ∀ fid bindex, e.Due t fid bindex → e.Planned t fid bindex (commandsFor fid bindex cmds)) ↔ e.Sound t := by
  rw [CpyRound.checkCpyBlock]
  by_cases hnil : e.blist t = []
  · rw [if_pos hnil]
    exact iff_of_true ⟨[], rfl, fun _ _ hdue => absurd hnil hdue.blist_ne_nil⟩ (sound_of_nil hnil)
  · rw [if_neg hnil]
    by_cases hfew : e.pnet.length < 2
    · have hservers : e.servers.length < 2 := by
        rw [CpyRound.pnet, List.length_take] at hfew
        omega
      rw [if_pos hfew]
      exact iff_of_true ⟨[], rfl, fun _ _ hdue => planned_of_few hdue hservers⟩ (sound_of_few hservers)
    · rw [if_neg hfew]
      have hservers : 2 ≤ e.servers.length := by
        rw [CpyRound.pnet, List.length_take] at hfew
        omega
      rcases collectRows_cases (e.blist t) [] [] collected_nil nofun with ⟨gs, hgs, hcollected, hlen⟩ | ⟨⟨f, hf⟩, m, hm, hlong⟩
      · rw [hgs]
        rw [List.nil_append] at hcollected
        constructor
        · rintro ⟨cmds, hcmds, hplanned⟩
          cases hcmds
          refine ⟨fun _ m hm => ?_, fun fid bindex hdue => ?_, fun fid bindex hdue => ?_⟩
          · obtain ⟨g, hg, hgm⟩ := hcollected.covers m hm
            rw [hcollected.length_dsid hg hgm]
            exact hlen g hg
          · have hblock := hplanned fid bindex hdue
            rw [commandsFor_eq hcollected, hdue.planned_iff hnodup] at hblock
            exact hblock.1
          · have hblock := hplanned fid bindex hdue
            rw [commandsFor_eq hcollected, hdue.planned_iff hnodup] at hblock
            exact hblock.2
        · intro hsound
          refine ⟨_, rfl, fun fid bindex hdue => ?_⟩
          rw [commandsFor_eq hcollected, hdue.planned_iff hnodup]
          exact ⟨hsound.source fid bindex hdue, hsound.starts fid bindex hdue⟩
      · rw [hf]
        refine iff_of_false (fun ⟨_, hcmds, _⟩ => by cases hcmds) fun hsound => ?_
        rw [List.nil_append] at hm hlong
        have := hsound.entries hservers m hm
        omega

/-! ## A block with one live replica -/

/-- The other row is to be deleted, or there is none. -/
def oneLive (marked : Bool) : Tables :=
  { files := [], nextFileId := 2, nextBlockId := 3,
    blocks := (if marked then [⟨1, 0, 1, 1, .toDelete⟩] else []) ++ [⟨2, 0, 2, 1, .live⟩] }

def threeServers : CpyRound := { copies := 2, cpyPages := 0, ord := [1, 2], servers := [1, 2, 3] }

theorem planned_iff_sound_one :
    (∃ cmds, threeServers.checkCpyBlock (oneLive false) = .ok cmds ∧ ∀ fid bindex, threeServers.Due (oneLive false) fid bindex →
      threeServers.Planned (oneLive false) fid bindex (commandsFor fid bindex cmds)) ↔ threeServers.Sound (oneLive false) :=
  planned_iff_sound threeServers (oneLive false) (by decide)

/-- The row to be deleted counts as a replica, and the block gets no second one. -/
theorem marked_row_counted : ¬ ∃ cmds, threeServers.checkCpyBlock (oneLive true) = .ok cmds ∧
    ∀ fid bindex, threeServers.Due (oneLive true) fid bindex →
      threeServers.Planned (oneLive true) fid bindex (commandsFor fid bindex cmds) := by
  rintro ⟨cmds, hcmds, hplanned⟩
  have hnone : threeServers.checkCpyBlock (oneLive true) = .ok [] := rfl
  rw [hnone] at hcmds
  cases hcmds
  have hdue : threeServers.Due (oneLive true) 1 0 := ⟨by decide, by decide, by decide⟩
  exact (hplanned 1 0 hdue).some ⟨2, by decide, ⟨2, 0, 2, 1, .live⟩, by decide, by decide, rfl⟩
    ⟨3, by decide, by unfold Tables.New; decide⟩ rfl

end Tefs.NameServer
