import Tefs.NameServer.Surplus

/-! # When the collection keeps the replicas it has to keep

Source: the round of `gfs_busi_check_del_block`, as in `Surplus`. The second query returns all rows of a block, and the
round keeps the last `copies` of those on its page, whatever their status. So the promise holds where the rows among these
that are not live are made up for: by live rows of the block that the page has cut off, or that stand earlier but whose
server is not connected.

Two rows can have the same file, index and server, and `atoi` and the procedure's parameters can turn the ids of one row
into those of another. A live row that is marked for such a reason counts against its block (`DelRound.Stray`).
-/

namespace Tefs.NameServer
set_option autoImplicit false

/-! ## The rows of the two pages -/

/-- A row of the first page stands for this one. -/
def DelRound.Struck (e : DelRound) (t : Tables) (r : BlockRow) : Prop :=
  ∃ p ∈ t.markedPage e.ord0 e.del0Pages, e.online p.dsid = true ∧ (fetchRow p).names r

instance (e : DelRound) (t : Tables) (r : BlockRow) : Decidable (e.Struck t r) :=
  inferInstanceAs (Decidable (∃ p ∈ _, _))

def BlockRow.LiveOf (r : BlockRow) (fid : ℕ) (bindex : ℤ) : Prop :=
  r.fileId = fid ∧ r.blockindex = bindex ∧ r.status = .live

instance (r : BlockRow) (fid : ℕ) (bindex : ℤ) : Decidable (r.LiveOf fid bindex) :=
  inferInstanceAs (Decidable (_ ∧ _ ∧ _))

/-- The page of the blocks with too many live rows, which is only asked for when the first one has rows -/
def DelRound.secondPage (e : DelRound) (t : Tables) : List BlockRow :=
  if t.markedPage e.ord0 e.del0Pages = [] then []
  else page e.ord1 e.del1Pages (t.blocks.filter fun r =>
    e.copies < t.blocks.countP fun q => q.LiveOf r.fileId r.blockindex ∧ ¬ e.Struck t q)

/-- The rows of the page with the file id, as `atoi` reads it, and the index of `p` -/
def DelRound.group (e : DelRound) (t : Tables) (p : BlockRow) : List BlockRow :=
  (e.secondPage t).filter fun q => (fetchRow q).block = (fetchRow p).block

/-- All but the last `copies` of them -/
def DelRound.early (e : DelRound) (t : Tables) (p : BlockRow) : List BlockRow :=
  (e.group t p).take ((e.group t p).length - e.copies)

def DelRound.last (e : DelRound) (t : Tables) (p : BlockRow) : List BlockRow :=
  (e.group t p).drop ((e.group t p).length - e.copies)

/-- The row stands early, its server is connected, and its ids are read as they are. -/
def DelRound.Chosen (e : DelRound) (t : Tables) (r : BlockRow) : Prop :=
  r ∈ e.early t r ∧ e.online r.dsid = true ∧ (fetchRow r).names r

instance (e : DelRound) (t : Tables) (r : BlockRow) : Decidable (e.Chosen t r) :=
  inferInstanceAs (Decidable (_ ∧ _ ∧ _))

/-- Another row stands for this one. -/
def DelRound.Stray (e : DelRound) (t : Tables) (r : BlockRow) : Prop :=
  ¬ e.Chosen t r ∧
    (e.Struck t r ∨ ∃ q ∈ e.secondPage t, (q ∈ e.early t q ∧ e.online q.dsid = true) ∧ (fetchRow q).names r)

instance (e : DelRound) (t : Tables) (r : BlockRow) : Decidable (e.Stray t r) :=
  inferInstanceAs (Decidable (_ ∧ (_ ∨ ∃ q ∈ _, _)))

/-! ## What the promise comes to -/

def DelRound.strays (e : DelRound) (t : Tables) (fid : ℕ) (bindex : ℤ) : ℕ :=
  t.blocks.countP fun r => r.LiveOf fid bindex ∧ e.Stray t r

/-- How many of the last rows are not live rows of the block of `p` -/
def DelRound.dead (e : DelRound) (t : Tables) (p : BlockRow) : ℕ :=
  (e.last t p).countP fun r => ¬ r.LiveOf p.fileId p.blockindex

/-- The live rows of the block that are kept although they are not among the last ones -/
def DelRound.spare (e : DelRound) (t : Tables) (p : BlockRow) : ℕ :=
  t.blocks.countP fun r => r.LiveOf p.fileId p.blockindex ∧ ¬ e.Chosen t r ∧ r ∉ e.last t p

structure DelRound.Safe (e : DelRound) (t : Tables) : Prop where
  entries : ∀ p ∈ e.secondPage t, e.copies ≤ (e.group t p).length ∧ (e.group t p).length ≤ maxCopies
  dead : ∀ p ∈ e.secondPage t, e.dead t p + e.strays t p.fileId p.blockindex ≤ e.spare t p
  strays : ∀ r ∈ t.blocks, (∀ p ∈ e.secondPage t, ¬ (p.fileId = r.fileId ∧ p.blockindex = r.blockindex)) →
    e.strays t r.fileId r.blockindex = 0 ∨
      e.strays t r.fileId r.blockindex + e.copies ≤ t.liveCount r.fileId r.blockindex

/-! ## The pages as the round sees them -/

theorem arrange_map {f : BlockRow → BlockRow} (hf : ∀ r, (f r).id = r.id) (ord : List ℕ) (rows : List BlockRow) :
    arrange ord (rows.map f) = (arrange ord rows).map f := by
  have hid : ∀ i : ℕ, (rows.map f).filter (fun r => r.id = i) = (rows.filter fun r => r.id = i).map f := by
    intro i
    rw [List.filter_map]
    simp only [Function.comp_def, hf]
  have hord : (rows.map f).filter (fun r => r.id ∉ ord) = (rows.filter fun r => r.id ∉ ord).map f := by
    rw [List.filter_map]
    simp only [Function.comp_def, hf]
  unfold arrange
  rw [hord, List.map_append, List.map_flatMap]
  simp only [hid]

theorem page_map {f : BlockRow → BlockRow} (hf : ∀ r, (f r).id = r.id) (ord : List ℕ) (idx : ℕ) (rows : List BlockRow) :
    page ord idx (rows.map f) = (page ord idx rows).map f := by
  unfold page
  rw [arrange_map hf, List.map_take, List.map_drop]

section

variable {e : DelRound} {t : Tables}

theorem secondPage_subperm (e : DelRound) (t : Tables) : (e.secondPage t).Subperm t.blocks := by
  unfold DelRound.secondPage
  split
  · exact List.nil_subperm
  · exact (page_subperm _ _ _).trans List.filter_sublist.subperm

theorem struck_iff (r : BlockRow) :
    (∃ m ∈ e.marked t, e.online m.dsid = true ∧ m.names r) ↔ e.Struck t r := by
  unfold DelRound.marked DelRound.Struck
  simp [fetchRow]

/-- The query reads the table that the first loop has left; the rows it returns are those of the table before, under their
new statuses, which the code does not look at. -/
theorem surplus_eq (e : DelRound) (t : Tables) : e.surplus t = (e.secondPage t).map fetchRow := by
  unfold DelRound.surplus DelRound.secondPage
  split
  · rfl
  · have hcount : ∀ fid bindex,
        (setDeleting (e.Struck t) t.blocks).countP (fun r => r.fileId = fid ∧ r.blockindex = bindex ∧ r.status = .live) =
          t.blocks.countP fun q => q.LiveOf fid bindex ∧ ¬ e.Struck t q := by
      intro fid bindex
      rw [setDeleting, List.countP_map]
      apply List.countP_congr
      intro r _
      by_cases hr : e.Struck t r
      · simp [hr]
      · simp [hr, BlockRow.LiveOf]
    simp only [struck_iff, Tables.surplusPage, Tables.liveCount, hcount]
    rw [setDeleting, List.filter_map, page_map (fun r => by split <;> rfl), List.map_map]
    have hids : ∀ r : BlockRow,
        (if e.Struck t r then { r with status := .deleting } else r : BlockRow).fileId = r.fileId ∧
          (if e.Struck t r then { r with status := .deleting } else r : BlockRow).blockindex = r.blockindex := by
      intro r
      split <;> exact ⟨rfl, rfl⟩
    simp only [Function.comp_def, (hids _).1, (hids _).2]
    refine List.map_congr_left fun r _ => ?_
    split <;> rfl

theorem entry_surplus (e : DelRound) (t : Tables) (p : BlockRow) :
    entry (e.surplus t) (fetchRow p) = (e.group t p).map fetchRow := by
  rw [surplus_eq, entry_eq, List.filter_map]
  rfl

theorem surplusOf_surplus (e : DelRound) (t : Tables) (p : BlockRow) :
    surplusOf e.copies (e.surplus t) (fetchRow p) = (e.early t p).map fetchRow := by
  rw [surplusOf, entry_surplus, List.length_map, ← List.map_take]
  rfl

theorem group_congr {p q : BlockRow} (h : (fetchRow q).block = (fetchRow p).block) : e.group t q = e.group t p := by
  unfold DelRound.group
  rw [h]

theorem mem_group_of_mem_early {p r : BlockRow} (h : r ∈ e.early t p) : r ∈ e.group t p := List.mem_of_mem_take h

theorem mem_group_of_mem_last {p r : BlockRow} (h : r ∈ e.last t p) : r ∈ e.group t p := List.mem_of_mem_drop h

theorem mem_group {p r : BlockRow} : r ∈ e.group t p ↔ r ∈ e.secondPage t ∧ (fetchRow r).block = (fetchRow p).block := by
  rw [DelRound.group, List.mem_filter, decide_eq_true_iff]

theorem early_congr {p q : BlockRow} (h : (fetchRow q).block = (fetchRow p).block) : e.early t q = e.early t p := by
  unfold DelRound.early
  rw [group_congr h]

theorem mem_surplusOf_iff {m : SqlBlock} :
    m ∈ (e.surplus t).flatMap (surplusOf e.copies (e.surplus t)) ↔
      ∃ q ∈ e.secondPage t, q ∈ e.early t q ∧ fetchRow q = m := by
  rw [List.mem_flatMap]
  constructor
  · rintro ⟨n, hn, hm⟩
    rw [surplus_eq] at hn
    obtain ⟨p, -, rfl⟩ := List.mem_map.mp hn
    rw [surplusOf_surplus] at hm
    obtain ⟨q, hq, rfl⟩ := List.mem_map.mp hm
    obtain ⟨hpage, hblock⟩ := mem_group.mp (mem_group_of_mem_early hq)
    exact ⟨q, hpage, by rwa [early_congr hblock], rfl⟩
  · rintro ⟨q, hpage, hq, rfl⟩
    refine ⟨fetchRow q, ?_, ?_⟩
    · rw [surplus_eq]
      exact List.mem_map_of_mem hpage
    · rw [surplusOf_surplus]
      exact List.mem_map_of_mem hq

theorem mem_secondPage_of_chosen {r : BlockRow} (h : e.Chosen t r) : r ∈ e.secondPage t :=
  (mem_group.mp (mem_group_of_mem_early h.1)).1

/-- A row is marked for itself or for another one. -/
theorem hits_iff (r : BlockRow) : e.Hits t r ↔ e.Chosen t r ∨ e.Stray t r := by
  have hsplit : e.Hits t r ↔
      e.Struck t r ∨ ∃ q ∈ e.secondPage t, (q ∈ e.early t q ∧ e.online q.dsid = true) ∧ (fetchRow q).names r := by
    unfold DelRound.Hits DelRound.picks
    simp only [List.mem_append, or_and_right, exists_or, struck_iff, mem_surplusOf_iff]
    refine or_congr_right ?_
    constructor
    · rintro ⟨m, ⟨q, hpage, hq, rfl⟩, hon, hn⟩
      exact ⟨q, hpage, ⟨hq, hon⟩, hn⟩
    · rintro ⟨q, hpage, ⟨hq, hon⟩, hn⟩
      exact ⟨_, ⟨q, hpage, hq, rfl⟩, hon, hn⟩
  rw [hsplit, DelRound.Stray]
  by_cases hc : e.Chosen t r
  · simp only [hc, not_true_eq_false, false_and, or_false, iff_true]
    exact Or.inr ⟨r, mem_secondPage_of_chosen hc, ⟨hc.1, hc.2.1⟩, hc.2.2⟩
  · simp only [hc, not_false_eq_true, true_and, false_or]

/-! ## The live rows of a block on the page -/

def DelRound.chosen (e : DelRound) (t : Tables) (fid : ℕ) (bindex : ℤ) : ℕ :=
  t.blocks.countP fun r => r.LiveOf fid bindex ∧ e.Chosen t r

theorem countP_and_add_countP_and_not (p q : BlockRow → Prop) [DecidablePred p] [DecidablePred q]
    (rows : List BlockRow) :
    rows.countP (fun r => p r ∧ q r) + rows.countP (fun r => p r ∧ ¬ q r) = rows.countP fun r => p r := by
  have h := List.length_eq_countP_add_countP (fun r => decide (q r)) (l := rows.filter fun r => p r)
  rw [List.countP_filter, List.countP_filter, ← List.countP_eq_length_filter] at h
  rw [h]
  congr 1 <;> apply List.countP_congr <;> intro r _ <;> by_cases hp : p r <;> by_cases hq : q r <;> simp [hp, hq]

theorem liveHits_eq (e : DelRound) (t : Tables) (fid : ℕ) (bindex : ℤ) :
    e.liveHits t fid bindex = e.chosen t fid bindex + e.strays t fid bindex := by
  have h := countP_and_add_countP_and_not (fun r => r.LiveOf fid bindex ∧ e.Hits t r) (e.Chosen t) t.blocks
  have hall : e.liveHits t fid bindex = t.blocks.countP fun r => r.LiveOf fid bindex ∧ e.Hits t r := rfl
  rw [hall, ← h, DelRound.chosen, DelRound.strays]
  congr 1 <;> apply List.countP_congr <;> intro r _ <;> by_cases hc : e.Chosen t r <;>
    simp [hits_iff, hc, DelRound.Stray]

theorem nodup_group (hid : (t.blocks.map BlockRow.id).Nodup) (p : BlockRow) : (e.group t p).Nodup := by
  obtain ⟨rows, hperm, hsub⟩ := secondPage_subperm e t
  exact (hperm.nodup_iff.mp ((List.Nodup.of_map _ hid).sublist hsub)).filter _

theorem not_mem_last_of_chosen (hid : (t.blocks.map BlockRow.id).Nodup) {p r : BlockRow}
    (hblock : r.fileId = p.fileId ∧ r.blockindex = p.blockindex) (h : e.Chosen t r) : r ∉ e.last t p := by
  have hread : (fetchRow r).block = (fetchRow p).block := by
    simp [fetchRow, SqlBlock.block, hblock.1, hblock.2]
  have hsplit := nodup_group (e := e) hid p
  rw [← List.take_append_drop ((e.group t p).length - e.copies) (e.group t p)] at hsplit
  have hr : r ∈ e.early t p := early_congr hread ▸ h.1
  exact fun hlast => (List.nodup_append.mp hsplit).2.2 r hr r hlast rfl

/-- The live rows of the block: those chosen, those among the last ones, and the others. -/
theorem liveCount_eq (hid : (t.blocks.map BlockRow.id).Nodup) (p : BlockRow)
    (hlen : e.copies ≤ (e.group t p).length) :
    t.liveCount p.fileId p.blockindex + e.dead t p =
      e.chosen t p.fileId p.blockindex + e.copies + e.spare t p := by
  have hfirst := countP_and_add_countP_and_not (fun r => r.LiveOf p.fileId p.blockindex) (e.Chosen t) t.blocks
  have hsecond := countP_and_add_countP_and_not
    (fun r => r.LiveOf p.fileId p.blockindex ∧ ¬ e.Chosen t r) (· ∈ e.last t p) t.blocks
  have hkept : t.blocks.countP (fun r => (r.LiveOf p.fileId p.blockindex ∧ ¬ e.Chosen t r) ∧ r ∈ e.last t p) =
      (e.last t p).countP fun r => r.LiveOf p.fileId p.blockindex := by
    have hperm : (t.blocks.filter fun r => r ∈ e.last t p).Perm (e.last t p) := by
      refine (List.perm_ext_iff_of_nodup ((List.Nodup.of_map _ hid).filter _)
        ((nodup_group hid p).sublist (List.drop_sublist _ _))).mpr ?_
      intro r
      rw [List.mem_filter, decide_eq_true_iff]
      exact ⟨fun hr => hr.2, fun hr => ⟨(secondPage_subperm e t).subset (mem_group.mp (mem_group_of_mem_last hr)).1, hr⟩⟩
    rw [← hperm.countP_eq, List.countP_filter]
    apply List.countP_congr
    intro r _
    simp only [decide_eq_true_iff, Bool.and_eq_true]
    constructor
    · rintro ⟨⟨hlive, -⟩, hlast⟩
      exact ⟨hlive, hlast⟩
    · rintro ⟨hlive, hlast⟩
      exact ⟨⟨hlive, fun hc => not_mem_last_of_chosen hid ⟨hlive.1, hlive.2.1⟩ hc hlast⟩, hlast⟩
  have hlast : (e.last t p).length = e.copies := by
    rw [DelRound.last, List.length_drop]
    omega
  have hdead := List.length_eq_countP_add_countP (fun r : BlockRow => decide (r.LiveOf p.fileId p.blockindex))
    (l := e.last t p)
  have hspare : t.blocks.countP (fun r => (r.LiveOf p.fileId p.blockindex ∧ ¬ e.Chosen t r) ∧ r ∉ e.last t p) =
      e.spare t p := by
    unfold DelRound.spare
    simp only [and_assoc]
  have hdead' : (e.last t p).countP (fun r => decide ¬ (decide (r.LiveOf p.fileId p.blockindex) = true)) =
      e.dead t p := by
    unfold DelRound.dead
    simp only [decide_eq_true_iff]
  have hchosen : t.blocks.countP (fun r => r.LiveOf p.fileId p.blockindex ∧ e.Chosen t r) =
      e.chosen t p.fileId p.blockindex := rfl
  have hlive : t.blocks.countP (fun r => decide (r.LiveOf p.fileId p.blockindex)) =
      t.liveCount p.fileId p.blockindex := rfl
  omega

/-- A block on the page has more than `copies` live rows that the first loop has left alone. -/
theorem copies_lt_of_mem_secondPage {p : BlockRow} (hp : p ∈ e.secondPage t) :
    e.copies < t.liveCount p.fileId p.blockindex := by
  unfold DelRound.secondPage at hp
  split at hp
  · cases hp
  · have hmany := (List.mem_filter.mp ((page_subperm _ _ _).subset hp)).2
    refine (of_decide_eq_true hmany).trans_le (List.countP_mono_left ?_)
    intro r _ hr
    exact decide_eq_true (of_decide_eq_true hr).1

theorem spare_of_liveHits (hid : (t.blocks.map BlockRow.id).Nodup) {p : BlockRow}
    (hp : p ∈ e.secondPage t) (hlen : e.copies ≤ (e.group t p).length) :
    e.dead t p + e.strays t p.fileId p.blockindex ≤ e.spare t p ↔
      (e.liveHits t p.fileId p.blockindex ≠ 0 →
        e.liveHits t p.fileId p.blockindex + e.copies ≤ t.liveCount p.fileId p.blockindex) := by
  have hcount := liveCount_eq hid p hlen
  have hhits := liveHits_eq e t p.fileId p.blockindex
  have hmany := copies_lt_of_mem_secondPage hp
  omega

theorem chosen_of_not_mem_page {fid : ℕ} {bindex : ℤ}
    (h : ∀ p ∈ e.secondPage t, ¬ (p.fileId = fid ∧ p.blockindex = bindex)) : e.chosen t fid bindex = 0 := by
  rw [DelRound.chosen, List.countP_eq_zero]
  intro r _ hr
  obtain ⟨hlive, hc⟩ := of_decide_eq_true hr
  exact h r (mem_secondPage_of_chosen hc) ⟨hlive.1, hlive.2.1⟩

theorem liveHits_ne_zero {r : BlockRow} (hr : r ∈ t.blocks) (hs : r.status = .live) (h : e.Hits t r) :
    e.liveHits t r.fileId r.blockindex ≠ 0 :=
  (List.countP_pos_iff.mpr ⟨r, hr, decide_eq_true ⟨⟨rfl, rfl, hs⟩, h⟩⟩).ne'

theorem hits_of_liveHits_ne_zero {fid : ℕ} {bindex : ℤ} (h : e.liveHits t fid bindex ≠ 0) :
    ∃ r ∈ t.blocks, r.LiveOf fid bindex ∧ e.Hits t r := by
  obtain ⟨r, hr, hp⟩ := List.countP_pos_iff.mp (Nat.pos_of_ne_zero h)
  exact ⟨r, hr, of_decide_eq_true hp⟩

theorem entries_iff :
    (∀ m ∈ e.surplus t, e.copies ≤ (entry (e.surplus t) m).length ∧ (entry (e.surplus t) m).length ≤ maxCopies) ↔
      ∀ p ∈ e.secondPage t, e.copies ≤ (e.group t p).length ∧ (e.group t p).length ≤ maxCopies := by
  have hlen : ∀ p, (entry (e.surplus t) (fetchRow p)).length = (e.group t p).length := by
    intro p
    rw [entry_surplus, List.length_map]
  have hmem : ∀ m, m ∈ e.surplus t ↔ ∃ p ∈ e.secondPage t, fetchRow p = m := by
    intro m
    rw [surplus_eq, List.mem_map]
  constructor
  · intro h p hp
    have hm := h (fetchRow p) ((hmem _).mpr ⟨p, hp, rfl⟩)
    rwa [hlen] at hm
  · intro h m hm
    obtain ⟨p, hp, rfl⟩ := (hmem m).mp hm
    rw [hlen]
    exact h p hp

/-! ## Tables without strays -/

/-- Rows as the procedures make them, with ids that `atoi` and a parameter of type `int` leave as they are -/
structure Tables.Plain (t : Tables) : Prop where
  replicas : (t.blocks.map BlockRow.replica).Nodup
  narrow : ∀ r ∈ t.blocks, r.fileId < 2 ^ 31 ∧ r.dsid < 2 ^ 31

theorem Tables.WellFormed.plain (h : t.WellFormed) (hn : ∀ r ∈ t.blocks, r.fileId < 2 ^ 31 ∧ r.dsid < 2 ^ 31) :
    t.Plain := ⟨h.replicas, hn⟩

theorem Tables.Plain.names_iff (h : t.Plain) {p r : BlockRow} (hp : p ∈ t.blocks) (hr : r ∈ t.blocks) :
    (fetchRow p).names r ↔ p = r := by
  obtain ⟨hfid, hds⟩ := h.narrow p hp
  have hatoi : atoiFid p.fileId = p.fileId := by
    unfold atoiFid
    split <;> omega
  have hbig : asBigint p.fileId = p.fileId := asBigint_of_lt (by omega)
  have hint : asInt p.dsid = p.dsid := by
    unfold asInt
    omega
  have hat : (fetchRow p).names r ↔ r.replica = p.replica := by
    rw [SqlBlock.names, fetchRow, hatoi, hbig, hint, isAt_iff_replica]
    rfl
  rw [hat]
  constructor
  · intro he
    exact KeyedList.eq_of_key_eq h.replicas hp hr he.symm
  · rintro rfl
    rfl

theorem mem_blocks_of_mem_markedPage {p : BlockRow} (h : p ∈ t.markedPage e.ord0 e.del0Pages) :
    p ∈ t.blocks ∧ p.status ≠ .live := by
  have hp := List.mem_filter.mp ((page_subperm _ _ _).subset h)
  exact ⟨hp.1, of_decide_eq_true hp.2⟩

/-- Such a row stands for itself alone, and the first page has no live ones. -/
theorem Tables.Plain.strays_eq_zero (h : t.Plain) (e : DelRound) (fid : ℕ) (bindex : ℤ) :
    e.strays t fid bindex = 0 := by
  rw [DelRound.strays, List.countP_eq_zero]
  intro r hr hp
  obtain ⟨hlive, hnot, hstray⟩ := of_decide_eq_true hp
  rcases hstray with ⟨p, hpage, -, hn⟩ | ⟨q, hpage, ⟨hq, hon⟩, hn⟩
  · obtain ⟨hblocks, hdead⟩ := mem_blocks_of_mem_markedPage hpage
    rw [(h.names_iff hblocks hr).mp hn] at hdead
    exact hdead hlive.2.2
  · have hqr := (h.names_iff ((secondPage_subperm e t).subset hpage) hr).mp hn
    subst hqr
    exact hnot ⟨hq, hon, hn⟩

theorem Tables.Plain.safe_iff (h : t.Plain) (e : DelRound) :
    e.Safe t ↔ (∀ p ∈ e.secondPage t, e.copies ≤ (e.group t p).length ∧ (e.group t p).length ≤ maxCopies) ∧
      ∀ p ∈ e.secondPage t, e.dead t p ≤ e.spare t p := by
  constructor
  · intro hsafe
    refine ⟨hsafe.entries, fun p hp => ?_⟩
    have hdead := hsafe.dead p hp
    rwa [h.strays_eq_zero, Nat.add_zero] at hdead
  · rintro ⟨hentries, hdead⟩
    refine ⟨hentries, fun p hp => ?_, fun r _ _ => Or.inl (h.strays_eq_zero e _ _)⟩
    rw [h.strays_eq_zero, Nat.add_zero]
    exact hdead p hp

/-! ## The round -/

theorem checkDelBlock_keeps_iff_safe (e : DelRound) (t : Tables)
    (hid : (t.blocks.map BlockRow.id).Nodup) (hc : e.copies ≤ maxCopies) :
    (∃ s, e.checkDelBlock t = .ok s ∧ ReplicasKept e.copies t s.tables) ↔ e.Safe t := by
  rw [keeps_iff_hits e t hid hc, entries_iff]
  constructor
  · rintro ⟨hentries, hlive⟩
    -- the bound speaks of one row that is hit, and so of its block
    have hblock : ∀ fid bindex, e.liveHits t fid bindex ≠ 0 →
        e.liveHits t fid bindex + e.copies ≤ t.liveCount fid bindex := by
      intro fid bindex hne
      obtain ⟨r, hr, ⟨rfl, rfl, hs⟩, hhit⟩ := hits_of_liveHits_ne_zero hne
      exact hlive r hr hs hhit
    refine ⟨hentries, ?_, ?_⟩
    · intro p hp
      exact (spare_of_liveHits hid hp (hentries p hp).1).mpr (hblock _ _)
    · intro r hr hoff
      have hhits := liveHits_eq e t r.fileId r.blockindex
      rw [chosen_of_not_mem_page hoff, Nat.zero_add] at hhits
      by_cases hz : e.strays t r.fileId r.blockindex = 0
      · exact Or.inl hz
      · rw [← hhits] at hz ⊢
        exact Or.inr (hblock _ _ hz)
  · intro hsafe
    refine ⟨hsafe.entries, ?_⟩
    intro r hr hs hhit
    have hne := liveHits_ne_zero hr hs hhit
    by_cases hon : ∃ p ∈ e.secondPage t, p.fileId = r.fileId ∧ p.blockindex = r.blockindex
    · obtain ⟨p, hp, hfid, hbindex⟩ := hon
      rw [← hfid, ← hbindex] at hne ⊢
      exact (spare_of_liveHits hid hp (hsafe.entries p hp).1).mp (hsafe.dead p hp) hne
    · have hoff : ∀ p ∈ e.secondPage t, ¬ (p.fileId = r.fileId ∧ p.blockindex = r.blockindex) := fun p hp hb =>
        hon ⟨p, hp, hb⟩
      have hhits := liveHits_eq e t r.fileId r.blockindex
      rw [chosen_of_not_mem_page hoff, Nat.zero_add] at hhits
      have hstrays := hsafe.strays r hr hoff
      omega

end

def firstRound : DelRound :=
  { copies := 2, del0Pages := 0, del1Pages := 0, ord0 := [], ord1 := [], online := fun d => d ≠ 15 }

/-- The first block has four live rows, the second of them on a server that is not connected, and last one that is being
deleted; the second block has two live rows. -/
def fourReplicas : Tables :=
  [Proc.uploadFile 7 100 1 0 [], .copyBlock 1 0 11, .copyBlock 1 0 15, .uploadFile 8 100 1 0 [], .copyBlock 2 0 11,
    .copyBlock 2 0 12, .copyBlock 1 0 12, .copyBlock 1 0 13, .copyBlock 1 0 14,
    .setDelIng 1 0 14 []].foldl Tables.call Tables.empty

theorem firstRound_keeps_fourReplicas :
    ∃ s, firstRound.checkDelBlock fourReplicas = .ok s ∧ ReplicasKept firstRound.copies fourReplicas s.tables :=
  (checkDelBlock_keeps_iff_safe firstRound fourReplicas (by decide) (by decide)).mpr
    ⟨by decide, by decide, by decide⟩

/-- The block has a fourth row, already being deleted. -/
def threeReplicasAndADeadOne : Tables :=
  [Proc.uploadFile 7 100 1 0 [], .copyBlock 1 0 11, .copyBlock 1 0 12, .copyBlock 1 0 13,
    .copyBlock 1 0 14, .setDelIng 1 0 14 []].foldl Tables.call Tables.empty

/-- The dead row counts towards the surplus: two of the three live replicas are marked. -/
theorem firstRound_loses_replica :
    firstRound.copies < threeReplicasAndADeadOne.liveCount 1 0 ∧
      (firstRound.checkDelBlock threeReplicasAndADeadOne).toOption.map
        (fun s => s.tables.liveCount 1 0) = some 1 := by
  decide

end Tefs.NameServer
