import Tefs.DataServer.Recovery

/-! # The loop over the main blocks

One round of `load_block_file`, and from it the whole loop. Where the loop stands at `pos`, the blocks
below `pos` that are held, given up and cleared are functions of the disk alone, and so is whether the
round at `pos` goes on (`LoadedTo` for `pos + 1`), returns an error (`Fails`) or meets an assertion
(`Aborts`).
-/

namespace Tefs.DataServer
set_option autoImplicit false

/-! ## The blocks below a position -/

def Manager.heldTo (s : Manager) (pos : ℕ) : Finset ℕ :=
  (Finset.range pos).filter fun p => s.Initialised p ∧ ¬ s.Superseded pos p

def Manager.goneTo (s : Manager) (pos : ℕ) : Finset ℕ := (Finset.range pos).filter (s.Superseded pos)

def Manager.releasedTo (s : Manager) (pos : ℕ) : Finset ℕ := (Finset.range pos).filter s.Released

def Manager.LoadedTo (s : Manager) (pos : ℕ) (t : Manager) : Prop :=
  s.Loaded (s.heldTo pos) (s.goneTo pos) (s.releasedTo pos) t

/-- The bit of `c` is cleared by the time the chain of `pos` is walked. -/
def Manager.Cleared (s : Manager) (pos c : ℕ) : Prop :=
  c ∈ s.releasedTo pos ∨ ∃ q ∈ s.goneTo (pos + 1), c ∈ s.listOf q

def Manager.Fails (s : Manager) (pos : ℕ) : Prop :=
  s.Initialised pos ∧ ((s.chainOf pos).2 = .refused ∨
    ∃ c, ((s.chainOf pos).2 = .mismatch c ∨ (s.chainOf pos).2 = .unsized c) ∧ s.Cleared pos c)

def Manager.Aborts (s : Manager) (pos : ℕ) : Prop :=
  s.Initialised pos ∧ ((s.chainOf pos).2 = .outside ∨
    ∃ c, (s.chainOf pos).2 = .unsized c ∧ ¬ s.Cleared pos c)

section Static

variable {s : Manager} {pos : ℕ}

theorem mem_heldTo {p : ℕ} : p ∈ s.heldTo pos ↔ p < pos ∧ s.Initialised p ∧ ¬ s.Superseded pos p := by
  simp [Manager.heldTo]

theorem Manager.Superseded.lt {q : ℕ} (h : s.Superseded pos q) : q < pos := by
  obtain ⟨-, -, b, hb, hqb, -⟩ := h
  omega

theorem mem_goneTo {q : ℕ} : q ∈ s.goneTo pos ↔ s.Superseded pos q := by
  unfold Manager.goneTo
  rw [Finset.mem_filter, Finset.mem_range]
  exact ⟨fun h => h.2, fun h => ⟨h.lt, h⟩⟩

theorem mem_releasedTo {p : ℕ} : p ∈ s.releasedTo pos ↔ p < pos ∧ s.Released p := by
  simp [Manager.releasedTo]

theorem superseded_succ {q : ℕ} : s.Superseded (pos + 1) q ↔
    s.Superseded pos q ∨ s.Initialised q ∧ s.Repeats q ∧ q < pos ∧ s.Initialised pos ∧
      s.keyAt pos = s.keyAt q := by
  constructor
  · rintro ⟨hi, hr, b, hb, hqb, hbi, hbk⟩
    rcases Nat.lt_succ_iff_lt_or_eq.mp hb with hb | rfl
    · exact Or.inl ⟨hi, hr, b, hb, hqb, hbi, hbk⟩
    · exact Or.inr ⟨hi, hr, hqb, hbi, hbk⟩
  · rintro (⟨hi, hr, b, hb, hrest⟩ | ⟨hi, hr, hq, hpi, hpk⟩)
    · exact ⟨hi, hr, b, by omega, hrest⟩
    · exact ⟨hi, hr, pos, by omega, hq, hpi, hpk⟩

theorem not_superseded_self : ¬ s.Superseded (pos + 1) pos := by
  rintro ⟨-, -, b, hb, hqb, -⟩
  omega

theorem heldTo_unique {p q : ℕ} (hp : p ∈ s.heldTo pos) (hq : q ∈ s.heldTo pos)
    (hside : s.sideAt p = s.sideAt q) (hkey : s.keyAt p = s.keyAt q) : p = q := by
  have hno : ∀ {a b : ℕ}, a ∈ s.heldTo pos → b ∈ s.heldTo pos → s.sideAt a = s.sideAt b →
      s.keyAt a = s.keyAt b → ¬ a < b := by
    intro a b ha hb hs hk hlt
    rw [mem_heldTo] at ha hb
    have hrb : s.Repeats b := ⟨a, hlt, ha.2.1, hk⟩
    by_cases hra : s.Repeats a
    · exact ha.2.2 ⟨ha.2.1, hra, b, hb.1, hlt, hb.2.1, hk.symm⟩
    · simp [Manager.sideAt, hra, hrb] at hs
  have h₁ := hno hp hq hside hkey
  have h₂ := hno hq hp hside.symm hkey.symm
  omega

theorem heldTo_succ_of_not (h : ¬ s.Initialised pos) : s.heldTo (pos + 1) = s.heldTo pos := by
  ext p
  rw [mem_heldTo, mem_heldTo, superseded_succ]
  constructor
  · rintro ⟨hlt, hi, hn⟩
    have hne : p ≠ pos := by
      rintro rfl
      exact h hi
    exact ⟨by omega, hi, fun hs => hn (Or.inl hs)⟩
  · rintro ⟨hlt, hi, hn⟩
    exact ⟨by omega, hi, fun hs => hs.elim hn fun hs => h hs.2.2.2.1⟩

theorem goneTo_succ_of_not (h : ¬ s.Initialised pos) : s.goneTo (pos + 1) = s.goneTo pos := by
  ext q
  rw [mem_goneTo, mem_goneTo, superseded_succ]
  exact ⟨fun hs => hs.elim id fun hs => absurd hs.2.2.2.1 h, Or.inl⟩

theorem releasedTo_succ : s.releasedTo (pos + 1) =
    if s.Released pos then insert pos (s.releasedTo pos) else s.releasedTo pos := by
  unfold Manager.releasedTo
  rw [Finset.range_add_one, Finset.filter_insert]

theorem mem_heldTo_succ (h : s.Initialised pos) : pos ∈ s.heldTo (pos + 1) :=
  mem_heldTo.mpr ⟨Nat.lt_succ_self pos, h, not_superseded_self⟩

theorem to_succ_of_no_compact
    (hno : ∀ q ∈ s.heldTo pos, s.Repeats q → s.keyAt q ≠ s.keyAt pos) :
    (s.heldTo (pos + 1)).erase pos = s.heldTo pos ∧ s.goneTo (pos + 1) = s.goneTo pos := by
  have hsup : ∀ q, s.Superseded (pos + 1) q ↔ s.Superseded pos q := by
    intro q
    rw [superseded_succ]
    refine ⟨fun hs => hs.elim id ?_, Or.inl⟩
    rintro ⟨hi, hr, hlt, -, hk⟩
    by_contra hn
    exact hno q (mem_heldTo.mpr ⟨hlt, hi, hn⟩) hr hk.symm
  constructor
  · ext p
    rw [Finset.mem_erase, mem_heldTo, mem_heldTo, hsup]
    constructor
    · rintro ⟨hne, hlt, hrest⟩
      exact ⟨by omega, hrest⟩
    · rintro ⟨hlt, hrest⟩
      exact ⟨by omega, by omega, hrest⟩
  · ext q
    rw [mem_goneTo, mem_goneTo, hsup]

/-- The compact block of the same key is given up for `pos`. -/
theorem to_succ_of_compact (h : s.Initialised pos) {q : ℕ} (hq : q ∈ s.heldTo pos)
    (hr : s.Repeats q) (hk : s.keyAt q = s.keyAt pos) :
    (s.heldTo (pos + 1)).erase pos = (s.heldTo pos).erase q ∧
      s.goneTo (pos + 1) = insert q (s.goneTo pos) := by
  obtain ⟨hqlt, hqi, hqs⟩ := mem_heldTo.mp hq
  have hsup : ∀ x, s.Superseded (pos + 1) x ↔ x = q ∨ s.Superseded pos x := by
    intro x
    rw [superseded_succ]
    constructor
    · rintro (hs | ⟨hi, hrx, hlt, -, hkx⟩)
      · exact Or.inr hs
      · by_cases hs : s.Superseded pos x
        · exact Or.inr hs
        · refine Or.inl (heldTo_unique (mem_heldTo.mpr ⟨hlt, hi, hs⟩) hq ?_ (hkx.symm.trans hk.symm))
          simp [Manager.sideAt, hrx, hr]
    · rintro (rfl | hs)
      · exact Or.inr ⟨hqi, hr, hqlt, h, hk.symm⟩
      · exact Or.inl hs
  constructor
  · ext p
    rw [Finset.mem_erase, Finset.mem_erase, mem_heldTo, mem_heldTo, hsup]
    constructor
    · rintro ⟨hne, hlt, hi, hn⟩
      exact ⟨fun he => hn (Or.inl he), by omega, hi, fun hs => hn (Or.inr hs)⟩
    · rintro ⟨hne, hlt, hi, hn⟩
      exact ⟨by omega, by omega, hi, fun hs => hs.elim hne hn⟩
  · ext x
    rw [Finset.mem_insert, mem_goneTo, mem_goneTo, hsup]

theorem exists_first (h : s.Repeats pos) :
    ∃ a ∈ s.heldTo pos, s.sideAt a = .main ∧ s.keyAt a = s.keyAt pos := by
  classical
  have hex : ∃ a, a < pos ∧ s.Initialised a ∧ s.keyAt a = s.keyAt pos := h
  obtain ⟨hlt, hi, hk⟩ := Nat.find_spec hex
  have hfirst : ¬ s.Repeats (Nat.find hex) := by
    rintro ⟨b, hb, hbi, hbk⟩
    exact Nat.find_min hex hb ⟨by omega, hbi, hbk.trans hk⟩
  exact ⟨Nat.find hex, mem_heldTo.mpr ⟨hlt, hi, fun hs => hfirst hs.2.1⟩,
    by simp [Manager.sideAt, hfirst], hk⟩

end Static

/-! ## One round -/

section Rounds

variable {s t : Manager} {pos : ℕ}

theorem heldTo_isMain : ∀ p ∈ s.heldTo pos, s.superBlock.isMain p :=
  fun _ hp => (mem_heldTo.mp hp).2.1.1

theorem selectSide_loaded (hs : s.Formatted) (h : s.LoadedTo pos t) (hi : s.Initialised pos) :
    ∃ t₁, t.selectSide (s.keyAt pos) = .ok (tfsSuccess, s.sideAt pos, t₁) ∧
      s.Loaded ((s.heldTo (pos + 1)).erase pos) (s.goneTo (pos + 1)) (s.releasedTo pos) t₁ := by
  unfold Manager.selectSide
  by_cases hr : s.Repeats pos
  · have hside : s.sideAt pos = .compact := if_pos hr
    obtain ⟨a, ha, hsa, hka⟩ := exists_first hr
    have hmain : t.logicBlocks (s.keyAt pos) = some (s.loadedBlock a) :=
      (h.blocks .main _ _).mpr ⟨a, ha, hsa, hka, rfl⟩
    rw [if_pos (by simp [hmain]), hside]
    by_cases hc : ∃ q ∈ s.heldTo pos, s.Repeats q ∧ s.keyAt q = s.keyAt pos
    · obtain ⟨q, hq, hrq, hkq⟩ := hc
      have hsq : s.sideAt q = .compact := if_pos hrq
      have hcompact : t.compactLogicBlocks (s.keyAt pos) = some (s.loadedBlock q) :=
        (h.blocks .compact _ _).mpr ⟨q, hq, hsq, hkq, rfl⟩
      obtain ⟨t₁, heq, h₁⟩ := Manager.Loaded.delete hs h heldTo_isMain hq
        (fun hg => (mem_heldTo.mp hq).2.2 (mem_goneTo.mp hg))
        (fun p hp hsp hkp => heldTo_unique hp hq hsp hkp)
        (show BlockType.compact.side = some (s.sideAt q) by rw [hsq]; rfl)
      rw [hkq] at heq
      obtain ⟨hheld, hgone⟩ := to_succ_of_compact hi hq hrq hkq
      rw [if_pos (by simp [hcompact]), heq, hheld, hgone]
      exact ⟨t₁, rfl, h₁⟩
    · have hnone : ¬ (t.compactLogicBlocks (s.keyAt pos)).isSome = true := by
        intro hsome
        obtain ⟨lb, hlb⟩ := Option.isSome_iff_exists.mp hsome
        obtain ⟨q, hq, hsq, hkq, -⟩ := (h.blocks .compact _ _).mp hlb
        refine hc ⟨q, hq, ?_, hkq⟩
        by_contra hn
        simp [Manager.sideAt, hn] at hsq
      have hno : ∀ q ∈ s.heldTo pos, s.Repeats q → s.keyAt q ≠ s.keyAt pos :=
        fun q hq hrq hkq => hc ⟨q, hq, hrq, hkq⟩
      obtain ⟨hheld, hgone⟩ := to_succ_of_no_compact hno
      rw [if_neg hnone, hheld, hgone]
      exact ⟨t, rfl, h⟩
  · have hside : s.sideAt pos = .main := if_neg hr
    have hfirst : ∀ q ∈ s.heldTo pos, s.keyAt q ≠ s.keyAt pos := by
      intro q hq hk
      exact hr ⟨q, (mem_heldTo.mp hq).1, (mem_heldTo.mp hq).2.1, hk⟩
    have hno : ∀ q ∈ s.heldTo pos, s.Repeats q → s.keyAt q ≠ s.keyAt pos := fun q hq _ => hfirst q hq
    have hnone : ¬ (t.logicBlocks (s.keyAt pos)).isSome = true := by
      intro hsome
      obtain ⟨lb, hlb⟩ := Option.isSome_iff_exists.mp hsome
      obtain ⟨q, hq, -, hkq, -⟩ := (h.blocks .main _ _).mp hlb
      exact hfirst q hq hkq
    obtain ⟨hheld, hgone⟩ := to_succ_of_no_compact hno
    rw [if_neg hnone, hside, hheld, hgone]
    exact ⟨t, rfl, h⟩

theorem Manager.LoadedTo.test_pos (hs : s.Formatted) (h : s.LoadedTo pos t)
    (hpos : s.superBlock.isMain pos) : t.normalBitMap.test pos = s.normalBitMap.test pos := by
  rw [Bool.eq_iff_iff, h.bit]
  refine ⟨fun ht => ht.1, fun ht => ⟨ht, ?_, ?_⟩⟩
  · intro hr
    exact absurd (mem_releasedTo.mp hr).1 (lt_irrefl pos)
  · intro q hq hmem
    have hlt := (mem_goneTo.mp hq).lt
    rw [hs.main_mem_listOf hpos] at hmem
    omega

theorem loadLogicBlock_loaded (hs : s.Formatted) (h : s.LoadedTo pos t) (hi : s.Initialised pos) :
    ∃ t₁, s.Loaded ((s.heldTo (pos + 1)).erase pos) (s.goneTo (pos + 1)) (s.releasedTo pos) t₁ ∧
      ChainLoaded (t₁.withLoadedMain (s.sideAt pos) (s.keyAt pos) pos (s.disk.mainPrefix pos)) pos
        (s.sideAt pos) (s.keyAt pos)
        ((LogicBlock.new (s.keyAt pos)).addPhysicBlock pos t₁.superBlock.mainBlockSize)
        (s.chainOf pos) (t.loadLogicBlock pos (s.disk.mainPrefix pos)) := by
  obtain ⟨t₁, hsel, h₁⟩ := selectSide_loaded hs h hi
  refine ⟨t₁, h₁, ?_⟩
  have hfree : t.physicalBlocks pos = none := by
    refine h.free pos fun p hp hmem => ?_
    have hlt := (mem_heldTo.mp hp).1
    rw [hs.main_mem_listOf hi.1] at hmem
    omega
  have hsel' : t.selectSide (s.disk.mainPrefix pos).key = .ok (tfsSuccess, s.sideAt pos, t₁) := hsel
  unfold Manager.loadLogicBlock
  rw [if_neg (by simp [hfree]), hsel']
  simp only [ne_eq, not_true, if_false]
  have hitems : (t₁.withLoadedMain (s.sideAt pos) (s.keyAt pos) pos
      (s.disk.mainPrefix pos)).normalBitMap.itemCount = s.normalBitMap.itemCount := by
    rw [withLoadedMain_normalBitMap, h₁.items]
  have hmem : ∀ e ∈ (s.chainOf pos).1, e ∈ s.listOf pos := fun e he => List.mem_cons_of_mem _ he
  have hne : ∀ e ∈ (s.chainOf pos).1, e ≠ pos := fun e he he' =>
    hi.1.ne_extend (hs.chain_extend he) he'.symm
  change ChainLoaded _ pos _ _ _
    (s.walk (s.normalBitMap.itemCount + 1) pos (s.disk.mainPrefix pos).nextPhysicBlockId)
    (Manager.loadChain (s.sideAt pos) (s.keyAt pos) pos
      ((t₁.withLoadedMain (s.sideAt pos) (s.keyAt pos) pos
        (s.disk.mainPrefix pos)).normalBitMap.itemCount + 1) pos
      (s.disk.mainPrefix pos).nextPhysicBlockId
      (t₁.withLoadedMain (s.sideAt pos) (s.keyAt pos) pos (s.disk.mainPrefix pos)))
  rw [hitems]
  refine loadChain_loaded pos ?_ ?_ hitems ?_
    ((withLoadedMain_blocksOf _ _ _ _ _ _).trans (if_pos ⟨rfl, rfl⟩)) _ pos _ ?_ ?_
    (List.nodup_cons.mp (hs.listOf_nodup hi.1)).2
  · exact h₁.extendFile
  · rw [withLoadedMain_superBlock]
    exact h₁.layout.2.2.2
  · intro i hit
    rw [withLoadedMain_normalBitMap, h₁.bit] at hit
    exact hit.1
  · intro e he
    rw [withLoadedMain_normalBitMap, h₁.bit]
    refine ⟨(walk_mem he).1, ?_, ?_⟩
    · intro hr
      exact (mem_releasedTo.mp hr).2.1.ne_extend (hs.chain_extend he) rfl
    · intro q hq hmemq
      have hsup := mem_goneTo.mp hq
      have heq := hs.listOf_disjoint hi.1 hsup.1.1 (hmem e he) hmemq
      rw [← heq] at hsup
      exact not_superseded_self hsup
  · intro e he
    rw [withLoadedMain_physicalBlocks, if_neg (hne e he)]
    refine h₁.free e fun p hp hmemp => ?_
    obtain ⟨hpne, hp⟩ := Finset.mem_erase.mp hp
    exact hpne (hs.listOf_disjoint hi.1 (heldTo_isMain p hp) (hmem e he) hmemp).symm

inductive PosStep (s : Manager) (pos : ℕ) : Except Abort (ℤ × Bool × Manager) → Prop
  | passed (flag : Bool) (t' : Manager) (hf : ¬ s.Fails pos) (ha : ¬ s.Aborts pos)
      (h : s.LoadedTo (pos + 1) t') : PosStep s pos (.ok (tfsSuccess, flag, t'))
  | failed (ret : ℤ) (flag : Bool) (t' : Manager) (hret : ret ≠ tfsSuccess) (hf : s.Fails pos) :
      PosStep s pos (.ok (ret, flag, t'))
  | aborted (a : Abort) (ha : s.Aborts pos) : PosStep s pos (.error a)

theorem PosStep.of_not_initialised {t' : Manager} (flag : Bool) (hi : ¬ s.Initialised pos)
    (h : s.Loaded (s.heldTo pos) (s.goneTo pos) (s.releasedTo (pos + 1)) t') :
    PosStep s pos (.ok (tfsSuccess, flag, t')) := by
  refine .passed flag t' (fun hf => hi hf.1) (fun ha => hi ha.1) ?_
  unfold Manager.LoadedTo
  rwa [heldTo_succ_of_not hi, goneTo_succ_of_not hi]

theorem cleared_iff {t₁ : Manager} {held : Finset ℕ}
    (h₁ : s.Loaded held (s.goneTo (pos + 1)) (s.releasedTo pos) t₁) {c : ℕ}
    (hc : s.normalBitMap.test c = true) : t₁.normalBitMap.test c = false ↔ s.Cleared pos c := by
  rw [← Bool.not_eq_true, h₁.bit]
  unfold Manager.Cleared
  constructor
  · intro hn
    by_contra hno
    push Not at hno
    exact hn ⟨hc, hno⟩
  · rintro (hr | ⟨q, hq, hmem⟩) ⟨-, hnr, hng⟩
    · exact hnr hr
    · exact hng q hq hmem

/-- The tail of a round in which a logic block was made: the flag of the last round keeps the
deletion going that deletes nothing. -/
theorem PosStep.of_loaded (hend : ∀ c, (s.chainOf pos).2 ≠ .unsized c)
    (hout : (s.chainOf pos).2 ≠ .outside) (hf : ¬ s.Fails pos) (flag conflict : Bool) {t' : Manager}
    (h : s.Loaded (s.heldTo (pos + 1)) (s.goneTo (pos + 1)) (s.releasedTo (pos + 1)) t') :
    PosStep s pos (endRound flag (s.keyAt pos) (.ok (tfsSuccess, conflict, t'))) := by
  have ha : ¬ s.Aborts pos := by
    rintro ⟨-, ha | ⟨c, ha, -⟩⟩
    · exact hout ha
    · exact hend c ha
  simp only [endRound, ne_eq, not_true, if_false]
  cases flag || conflict with
  | true =>
    rw [if_pos rfl, delBlock_no_side t' _ _ rfl]
    exact .passed true t' hf ha h
  | false => exact .passed false t' hf ha h

theorem PosStep.of_chain (hs : s.Formatted) (hi : s.Initialised pos) (flag : Bool) {t₁ : Manager}
    (h₁ : s.Loaded ((s.heldTo (pos + 1)).erase pos) (s.goneTo (pos + 1)) (s.releasedTo pos) t₁)
    {out : Except Abort (ℤ × Bool × Manager)}
    (hchain : ChainLoaded (t₁.withLoadedMain (s.sideAt pos) (s.keyAt pos) pos (s.disk.mainPrefix pos))
      pos (s.sideAt pos) (s.keyAt pos)
      ((LogicBlock.new (s.keyAt pos)).addPhysicBlock pos t₁.superBlock.mainBlockSize)
      (s.chainOf pos) out) :
    PosStep s pos (endRound flag (s.keyAt pos) out) := by
  have hadd := h₁.add hs (fun p hp => heldTo_isMain p (Finset.mem_of_mem_erase hp)) hi.1
    (Finset.notMem_erase _ _) (fun p hp hsk => (Finset.ne_of_mem_erase hp)
      (heldTo_unique (Finset.mem_of_mem_erase hp) (mem_heldTo_succ hi) hsk.1 hsk.2))
  rw [Finset.insert_erase (mem_heldTo_succ hi)] at hadd
  have hlt : pos < s.normalBitMap.itemCount := hs.items ▸ hi.1.lt
  have hmis : ∀ c, (s.chainOf pos).2 = .mismatch c → s.normalBitMap.test c = true :=
    fun c hc => (walk_mismatch hc).1
  have huns : ∀ c, (s.chainOf pos).2 = .unsized c → s.normalBitMap.test c = true :=
    fun c hc => walk_unsized hc
  have hrounds := hs.chainEnd_ne_rounds hi.1
  -- the walked list is what `withLoaded` adds, so it stays in the goal by its name
  unfold Manager.withLoaded at hadd
  generalize hr : s.chainOf pos = r at hchain hadd hmis huns hrounds
  cases hchain with
  | ended l =>
    have hrel : ¬ s.Released pos := by
      rintro ⟨-, -, hk | hm⟩
      · exact hi.2.2 hk
      · simp [hr, ChainEnd.isMismatch] at hm
    refine .of_loaded ?_ ?_ ?_ flag false ?_
    · simp [hr]
    · simp [hr]
    · rintro ⟨-, hf⟩
      simp [hr] at hf
    · rw [releasedTo_succ, if_neg hrel]
      exact hadd
  | mismatch l c ht =>
    rw [withLoadedMain_normalBitMap] at ht
    refine .of_loaded ?_ ?_ ?_ flag true ?_
    · simp [hr]
    · simp [hr]
    · rintro ⟨-, hf | ⟨c', hc', hcl⟩⟩
      · simp [hr] at hf
      · have hcc : c = c' := by simpa [hr] using hc'
        rw [← cleared_iff h₁ (hmis c' (by rw [hcc])), ← hcc, ht] at hcl
        cases hcl
    · rw [releasedTo_succ, if_pos ⟨hi.1, hi.2.1, Or.inr (by simp [hr, ChainEnd.isMismatch])⟩]
      exact hadd.release hlt
  | cleared l e c t' he ht =>
    rw [withLoadedMain_normalBitMap] at ht
    have hcset : s.normalBitMap.test c = true := he.elim (fun h => hmis c h) fun h => huns c h
    refine .failed _ _ _ (by decide) ⟨hi, Or.inr ⟨c, ?_, (cleared_iff h₁ hcset).mp ht⟩⟩
    rw [hr]
    exact he
  | refused l ret t' hret =>
    simp only [endRound, ne_eq, hret, not_false_eq_true, if_true]
    exact .failed _ _ _ hret ⟨hi, Or.inl (by rw [hr])⟩
  | outside l a => exact .aborted a ⟨hi, Or.inl (by rw [hr])⟩
  | unsized l c a ht =>
    rw [withLoadedMain_normalBitMap] at ht
    refine .aborted a ⟨hi, Or.inr ⟨c, by rw [hr], fun hcl => ?_⟩⟩
    rw [← cleared_iff h₁ (huns c rfl), ht] at hcl
    cases hcl
  | rounds l a => exact absurd rfl hrounds

theorem loadPos_step (hs : s.Formatted) (hsize : 0 < s.superBlock.mainBlockSize)
    (h : s.LoadedTo pos t) (hpos : s.superBlock.isMain pos) (flag : Bool) :
    PosStep s pos (t.loadPos flag pos) := by
  have hlt : pos < s.normalBitMap.itemCount := hs.items ▸ hpos.lt
  obtain ⟨file, hfile⟩ := Option.isSome_iff_exists.mp (hs.main_file pos hpos)
  have hheads : s.disk.mainPrefix pos = file.blockPrefix := by
    unfold Disk.mainPrefix
    rw [hfile]
  have hkey : s.keyAt pos = file.blockPrefix.key := congrArg BlockPrefix.key hheads
  unfold Manager.loadPos
  rw [if_pos (h.items.symm ▸ hlt), h.test_pos hs hpos, h.layout.2.2.1, h.mainFile, hfile]
  by_cases htest : s.normalBitMap.test pos = true
  · rw [if_pos htest, if_pos hsize]
    dsimp only
    by_cases hz : file.blockPrefix.key = (0, 0)
    · rw [if_pos hz]
      have hi : ¬ s.Initialised pos := fun hi => hi.2.2 (hkey.trans hz)
      refine .of_not_initialised _ hi ?_
      rw [releasedTo_succ, if_pos ⟨hpos, htest, Or.inl (hkey.trans hz)⟩]
      exact h.release hlt
    · rw [if_neg hz]
      have hi : s.Initialised pos := ⟨hpos, htest, fun hk => hz (hkey.symm.trans hk)⟩
      obtain ⟨t₁, h₁, hchain⟩ := loadLogicBlock_loaded hs h hi
      have hstep := PosStep.of_chain hs hi flag h₁ hchain
      rwa [hheads, hkey] at hstep
  · rw [if_neg htest]
    have hr : ¬ s.Released pos := fun hr => htest hr.2.1
    refine .of_not_initialised _ (fun hi => htest hi.2.1) ?_
    rw [releasedTo_succ, if_neg hr]
    exact h

end Rounds

/-! ## The whole loop -/

inductive LoadEnd (s : Manager) (pos count : ℕ) : Except Abort (ℤ × Manager) → Prop
  | passed (t' : Manager) (hno : ∀ p, pos ≤ p → p < pos + count → ¬ s.Fails p ∧ ¬ s.Aborts p)
      (h : s.LoadedTo (pos + count) t') : LoadEnd s pos count (.ok (tfsSuccess, t'))
  | failed (ret : ℤ) (t' : Manager) (p : ℕ) (hret : ret ≠ tfsSuccess)
      (hno : ∀ q, pos ≤ q → q < p → ¬ s.Fails q ∧ ¬ s.Aborts q) (hf : s.Fails p) :
      LoadEnd s pos count (.ok (ret, t'))
  | aborted (a : Abort) (p : ℕ) (hno : ∀ q, pos ≤ q → q < p → ¬ s.Fails q ∧ ¬ s.Aborts q)
      (ha : s.Aborts p) : LoadEnd s pos count (.error a)

theorem LoadEnd.after {s : Manager} {pos count : ℕ} {out : Except Abort (ℤ × Manager)}
    (hf : ¬ s.Fails pos) (ha : ¬ s.Aborts pos) (h : LoadEnd s (pos + 1) count out) :
    LoadEnd s pos (count + 1) out := by
  have hall : ∀ {n : ℕ}, (∀ q, pos + 1 ≤ q → q < n → ¬ s.Fails q ∧ ¬ s.Aborts q) →
      ∀ q, pos ≤ q → q < n → ¬ s.Fails q ∧ ¬ s.Aborts q := by
    intro n hno q hq hlt
    rcases eq_or_lt_of_le hq with rfl | hq
    · exact ⟨hf, ha⟩
    · exact hno q hq hlt
  cases h with
  | passed t' hno h =>
    have hsum : pos + 1 + count = pos + (count + 1) := by omega
    rw [hsum] at hno h
    exact .passed t' (hall hno) h
  | failed ret t' p hret hno hf => exact .failed ret t' p hret (hall hno) hf
  | aborted a p hno ha => exact .aborted a p (hall hno) ha

theorem loadFrom_end {s : Manager} (hs : s.Formatted) (hsize : 0 < s.superBlock.mainBlockSize)
    {pos count : ℕ} (hpos : 1 ≤ pos) (hle : pos + count ≤ s.superBlock.mainBlockCount + 1)
    {t : Manager} (h : s.LoadedTo pos t) (flag : Bool) :
    LoadEnd s pos count (Manager.loadFrom pos count flag t) := by
  induction count generalizing pos flag t with
  | zero => exact .passed t (fun p h₁ h₂ => by omega) h
  | succ count ih =>
    have hmain : s.superBlock.isMain pos := ⟨hpos, by omega⟩
    have hstep := loadPos_step hs hsize h hmain flag
    rw [Manager.loadFrom]
    generalize t.loadPos flag pos = out at hstep
    cases hstep with
    | passed flag' t' hf ha h' =>
      simp only [ne_eq, not_true, if_false]
      exact (ih (by omega) (by omega) h' flag').after hf ha
    | failed ret flag' t' hret hf =>
      simp only [ne_eq, hret, not_false_eq_true, if_true]
      exact .failed ret t' pos hret (fun q h₁ h₂ => by omega) hf
    | aborted a ha => exact .aborted a pos (fun q h₁ h₂ => by omega) ha

structure Manager.Unloaded (s : Manager) : Prop where
  blocks : ∀ side key, s.toMemory.blocksOf side key = none
  phys : ∀ i, s.physicalBlocks i = none

theorem Manager.Unloaded.loadedTo_one {s : Manager} (h : s.Unloaded) : s.LoadedTo 1 s := by
  have hzero : ¬ s.superBlock.isMain 0 := fun hm => by
    have := hm.1
    omega
  have hheld : s.heldTo 1 = ∅ := by
    refine Finset.filter_eq_empty_iff.mpr fun p hp hi => ?_
    obtain rfl : p = 0 := by simpa using hp
    exact hzero hi.1.1
  have hgone : s.goneTo 1 = ∅ := by
    refine Finset.filter_eq_empty_iff.mpr fun p hp hi => ?_
    obtain rfl : p = 0 := by simpa using hp
    exact hzero hi.1.1
  have hreleased : s.releasedTo 1 = ∅ := by
    refine Finset.filter_eq_empty_iff.mpr fun p hp hi => ?_
    obtain rfl : p = 0 := by simpa using hp
    exact hzero hi.1
  unfold Manager.LoadedTo
  rw [hheld, hgone, hreleased]
  exact
    { layout := SuperBlock.SameLayout.refl _
      items := rfl
      mainFile := rfl
      extendFile := rfl
      errorBitMap := rfl
      bit := by simp
      blocks := by simp [h.blocks]
      phys := by simp
      free := fun i _ => h.phys i
      used := by simp
      untouched := fun _ _ => ⟨rfl, rfl, rfl⟩ }

theorem loadBlockFile_end {s : Manager} (hs : s.Formatted) (hsize : 0 < s.superBlock.mainBlockSize)
    (h : s.Unloaded) : LoadEnd s 1 s.superBlock.mainBlockCount s.loadBlockFile :=
  loadFrom_end hs hsize (le_refl 1) (by omega) h.loadedTo_one false

end Tefs.DataServer
