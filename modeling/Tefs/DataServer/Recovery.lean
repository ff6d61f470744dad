import Mathlib.Tactic.Ring
import Tefs.DataServer.Chains
import Tefs.DataServer.Histories

/-! # What the loader builds

`Loaded` describes a manager in the middle of `load_block_file` in terms of the disk it started from:
which main blocks are held, with the chain each has on the disk, which were given up for a later block
with the same key, and which had their bit cleared. Every round of the loop turns one such description
into the next one, stops with an error, or runs into an assertion; which of the three, the disk says.
-/

namespace Tefs.DataServer
set_option autoImplicit false

/-! ## The walk of the loader -/

def Memory.withChain (m : Memory) (side : Side) (key : Key) (lb : LogicBlock) (l : List ℕ)
    (file : ℕ → Option BlockFile) : Memory :=
  Memory.putBlock
    { m with physicalBlocks := fun i =>
        if i ∈ l then (file i).map fun f => m.superBlock.loadedExt f.blockPrefix
        else m.physicalBlocks i } side key
    (some { lb with
      physicalBlockList := lb.physicalBlockList ++ l,
      availDataSize := lb.availDataSize + l.length * m.superBlock.extendBlockSize })

theorem withChain_nil {m : Memory} {side : Side} {key : Key} {lb : LogicBlock}
    (hb : m.blocksOf side key = some lb) (file : ℕ → Option BlockFile) :
    m.withChain side key lb [] file = m := by
  unfold Memory.withChain
  simp only [List.not_mem_nil, if_false, List.append_nil, List.length_nil, Nat.cast_zero, zero_mul,
    add_zero]
  cases side with
  | main =>
    have hupd : Function.update m.logicBlocks key (some lb) = m.logicBlocks :=
      Function.update_eq_self_iff.mpr hb.symm
    simp only [Memory.putBlock, hupd]
  | compact =>
    have hupd : Function.update m.compactLogicBlocks key (some lb) = m.compactLogicBlocks :=
      Function.update_eq_self_iff.mpr hb.symm
    simp only [Memory.putBlock, hupd]

theorem withChain_cons {m : Memory} {side : Side} {key : Key} {lb : LogicBlock}
    (hb : m.blocksOf side key = some lb) {file : ℕ → Option BlockFile} {next : ℕ} {f : BlockFile}
    (hf : file next = some f) {l : List ℕ} (hnot : next ∉ l) :
    ((m.addToBlock side key next m.superBlock.extendBlockSize).insertPhysical next
      (m.superBlock.loadedExt f.blockPrefix)).withChain side key
        (lb.addPhysicBlock next m.superBlock.extendBlockSize) l file =
      m.withChain side key lb (next :: l) file := by
  have hphys : ∀ i, (if i ∈ l then (file i).map fun f => m.superBlock.loadedExt f.blockPrefix
      else Function.update m.physicalBlocks next (some (m.superBlock.loadedExt f.blockPrefix)) i) =
      if i ∈ next :: l then (file i).map fun f => m.superBlock.loadedExt f.blockPrefix
      else m.physicalBlocks i := by
    intro i
    by_cases hi : i = next
    · subst hi
      simp [hnot, hf]
    · simp [hi]
  have hlen : lb.availDataSize + m.superBlock.extendBlockSize + l.length * m.superBlock.extendBlockSize =
      lb.availDataSize + (next :: l).length * m.superBlock.extendBlockSize := by
    rw [List.length_cons]
    push_cast
    ring
  unfold Memory.withChain Memory.addToBlock
  rw [hb]
  cases side with
  | main =>
    simp only [Memory.putBlock, Memory.insertPhysical, LogicBlock.addPhysicBlock, Function.update_idem,
      List.append_assoc, List.singleton_append, hphys, hlen]
  | compact =>
    simp only [Memory.putBlock, Memory.insertPhysical, LogicBlock.addPhysicBlock, Function.update_idem,
      List.append_assoc, List.singleton_append, hphys, hlen]

section Added

variable {m : Memory} {side : Side} {key : Key} {lb : LogicBlock} {next : ℕ} {len : ℤ}
  (pb : PhysicalBlock) (hb : m.blocksOf side key = some lb)
include hb

theorem added_superBlock :
    ((m.addToBlock side key next len).insertPhysical next pb).superBlock = m.superBlock := by
  unfold Memory.addToBlock
  rw [hb]
  exact putBlock_superBlock m side key _

theorem added_normalBitMap :
    ((m.addToBlock side key next len).insertPhysical next pb).normalBitMap = m.normalBitMap := by
  unfold Memory.addToBlock
  rw [hb]
  exact putBlock_normalBitMap m side key _

theorem added_blocksOf : ((m.addToBlock side key next len).insertPhysical next pb).blocksOf side key =
    some (lb.addPhysicBlock next len) := by
  unfold Memory.addToBlock
  rw [hb]
  refine Eq.trans ?_ ((blocksOf_putBlock m side side key key _).trans (if_pos ⟨rfl, rfl⟩))
  cases side <;> rfl

theorem added_physicalBlocks {i : ℕ} (hi : i ≠ next) :
    ((m.addToBlock side key next len).insertPhysical next pb).physicalBlocks i =
      m.physicalBlocks i := by
  unfold Memory.addToBlock
  rw [hb]
  refine (Function.update_of_ne hi _ _).trans ?_
  rw [putBlock_physicalBlocks]

end Added

/-- What the walk of the loader does where the walk on the disk gives `r`. -/
inductive ChainLoaded (t : Manager) (pos : ℕ) (side : Side) (key : Key) (lb : LogicBlock) :
    List ℕ × ChainEnd → Except Abort (ℤ × Bool × Manager) → Prop
  | ended (l : List ℕ) :
      ChainLoaded t pos side key lb (l, .ended)
        (.ok (tfsSuccess, false, t.onMemory fun m => m.withChain side key lb l t.disk.extendFile))
  | mismatch (l : List ℕ) (c : ℕ) (ht : t.normalBitMap.test c = true) :
      ChainLoaded t pos side key lb (l, .mismatch c) (.ok (tfsSuccess, true,
        (t.onMemory fun m => m.withChain side key lb l t.disk.extendFile).release pos))
  -- The bit of the last block has been cleared since the load began.
  | cleared (l : List ℕ) (e : ChainEnd) (c : ℕ) (t' : Manager) (he : e = .mismatch c ∨ e = .unsized c)
      (ht : t.normalBitMap.test c = false) :
      ChainLoaded t pos side key lb (l, e) (.ok (exitBlockIdConflictError, false, t'))
  | refused (l : List ℕ) (ret : ℤ) (t' : Manager) (hret : ret ≠ tfsSuccess) :
      ChainLoaded t pos side key lb (l, .refused) (.ok (ret, false, t'))
  | outside (l : List ℕ) (a : Abort) : ChainLoaded t pos side key lb (l, .outside) (.error a)
  | unsized (l : List ℕ) (c : ℕ) (a : Abort) (ht : t.normalBitMap.test c = true) :
      ChainLoaded t pos side key lb (l, .unsized c) (.error a)
  | rounds (l : List ℕ) (a : Abort) : ChainLoaded t pos side key lb (l, .rounds) (.error a)

theorem ChainLoaded.cons {t : Manager} {pos : ℕ} {side : Side} {key : Key} {lb : LogicBlock}
    (hb : t.toMemory.blocksOf side key = some lb) {next : ℕ} {f : BlockFile}
    (hf : t.disk.extendFile next = some f) {r : List ℕ × ChainEnd} (hnot : next ∉ r.1)
    {out : Except Abort (ℤ × Bool × Manager)}
    (h : ChainLoaded (t.onMemory fun m =>
      (m.addToBlock side key next t.superBlock.extendBlockSize).insertPhysical next
        (t.superBlock.loadedExt f.blockPrefix)) pos side key
        (lb.addPhysicBlock next t.superBlock.extendBlockSize) r out) :
    ChainLoaded t pos side key lb (next :: r.1, r.2) out := by
  have hbits : ((t.toMemory.addToBlock side key next t.superBlock.extendBlockSize).insertPhysical next
      (t.superBlock.loadedExt f.blockPrefix)).normalBitMap = t.normalBitMap := added_normalBitMap _ hb
  cases h with
  | ended l =>
    simp only [Manager.onMemory, withChain_cons hb hf hnot]
    exact .ended _
  | mismatch l c ht =>
    simp only [Manager.onMemory, withChain_cons hb hf hnot]
    refine .mismatch _ c ?_
    rw [← hbits]
    exact ht
  | cleared l e c t' he ht =>
    refine .cleared _ e c t' he ?_
    rw [← hbits]
    exact ht
  | refused l ret t' hret => exact .refused _ ret t' hret
  | outside l a => exact .outside _ a
  | unsized l c a ht =>
    refine .unsized _ c a ?_
    rw [← hbits]
    exact ht
  | rounds l a => exact .rounds _ a

/-- The loader's walk follows the walk on the disk as long as no id of it is held, and none but the
last has lost its bit. The induction is on the rounds. -/
theorem loadChain_loaded {s t : Manager} (pos : ℕ) {side : Side} {key : Key} {lb : LogicBlock}
    (hfile : t.disk.extendFile = s.disk.extendFile)
    (hsize : t.superBlock.extendBlockSize = s.superBlock.extendBlockSize)
    (hitems : t.normalBitMap.itemCount = s.normalBitMap.itemCount)
    (hsub : ∀ i, t.normalBitMap.test i = true → s.normalBitMap.test i = true)
    (hb : t.toMemory.blocksOf side key = some lb) (rounds extPos next : ℕ)
    (hset : ∀ e ∈ (s.walk rounds extPos next).1, t.normalBitMap.test e = true)
    (hfree : ∀ e ∈ (s.walk rounds extPos next).1, t.physicalBlocks e = none)
    (hnodup : (s.walk rounds extPos next).1.Nodup) :
    ChainLoaded t pos side key lb (s.walk rounds extPos next)
      (Manager.loadChain side key pos rounds extPos next t) := by
  induction rounds generalizing extPos next t lb with
  | zero => exact .rounds [] _
  | succ rounds ih =>
    have hstep := walk_step s rounds extPos next
    generalize s.walk (rounds + 1) extPos next = r at hset hfree hnodup hstep
    rw [Manager.loadChain]
    cases hstep with
    | ended =>
      have h : ChainLoaded t pos side key lb ([], .ended) _ := .ended []
      simpa [Manager.onMemory, withChain_nil hb] using h
    | outside hne hlt =>
      rw [if_neg hne, if_neg (by rwa [hitems])]
      exact .outside [] _
    | clear hne hlt ht =>
      have htest : t.normalBitMap.test next = false := by
        cases h : t.normalBitMap.test next with
        | false => rfl
        | true =>
          rw [hsub next h] at ht
          cases ht
      rw [if_neg hne, if_pos (by rwa [hitems]), if_neg (by simp [htest])]
      exact .refused [] _ t (by decide)
    | unsized hne hlt ht h =>
      rw [if_neg hne, if_pos (by rwa [hitems])]
      cases htest : t.normalBitMap.test next with
      | false =>
        rw [if_neg (by simp)]
        exact .cleared [] _ next t (Or.inr rfl) htest
      | true =>
        rw [if_pos rfl, if_neg (by rwa [hsize])]
        exact .unsized [] next _ htest
    | missing hne hlt ht hs hf =>
      rw [if_neg hne, if_pos (by rwa [hitems])]
      cases htest : t.normalBitMap.test next with
      | false =>
        rw [if_neg (by simp)]
        exact .refused [] _ t (by decide)
      | true =>
        rw [if_pos rfl, if_pos (by rwa [hsize]), hfile, hf]
        exact .refused [] _ t (by decide)
    | mismatch hne hlt ht hs hf h =>
      rw [if_neg hne, if_pos (by rwa [hitems])]
      cases htest : t.normalBitMap.test next with
      | false =>
        rw [if_neg (by simp)]
        exact .cleared [] _ next t (Or.inl rfl) htest
      | true =>
        rw [if_pos rfl, if_pos (by rwa [hsize]), hfile, hf]
        dsimp only
        rw [if_pos h]
        have hm : ChainLoaded t pos side key lb ([], .mismatch next) _ := .mismatch [] next htest
        simpa [Manager.onMemory, withChain_nil hb] using hm
    | follow hne hlt ht hs hf h =>
      obtain ⟨hnot, hnodup⟩ := List.nodup_cons.mp hnodup
      rw [if_neg hne, if_pos (by rwa [hitems]), if_pos (hset _ List.mem_cons_self),
        if_pos (by rwa [hsize]), hfile, hf]
      dsimp only
      rw [if_neg (not_not_intro h), if_neg (by simp [hfree _ List.mem_cons_self])]
      refine ChainLoaded.cons hb (by rw [hfile, hf]) hnot ?_
      refine ih ?_ ?_ ?_ ?_ ?_ _ _ ?_ ?_ hnodup
      · exact hfile
      · rw [← hsize]
        exact congrArg SuperBlock.extendBlockSize (added_superBlock _ hb)
      · rw [← hitems]
        exact congrArg BitMap.itemCount (added_normalBitMap _ hb)
      · intro i hi
        exact hsub i (added_normalBitMap _ hb ▸ hi)
      · exact added_blocksOf _ hb
      · intro e he
        exact (added_normalBitMap _ hb).symm ▸ hset e (List.mem_cons_of_mem _ he)
      · intro e he
        have hen : e ≠ next := fun heq => hnot (heq ▸ he)
        exact (added_physicalBlocks _ hb hen).trans (hfree e (List.mem_cons_of_mem _ he))

/-! ## The main blocks of a disk -/

def Manager.keyAt (s : Manager) (pos : ℕ) : Key := (s.disk.mainPrefix pos).key

def Manager.Initialised (s : Manager) (pos : ℕ) : Prop :=
  s.superBlock.isMain pos ∧ s.normalBitMap.test pos = true ∧ s.keyAt pos ≠ (0, 0)

def Manager.Repeats (s : Manager) (pos : ℕ) : Prop :=
  ∃ a < pos, s.Initialised a ∧ s.keyAt a = s.keyAt pos

/-- Below `pos` there is a later main block with the same key, and this is not the first one. -/
def Manager.Superseded (s : Manager) (pos q : ℕ) : Prop :=
  s.Initialised q ∧ s.Repeats q ∧ ∃ b < pos, q < b ∧ s.Initialised b ∧ s.keyAt b = s.keyAt q

def ChainEnd.isMismatch : ChainEnd → Bool
  | .mismatch _ => true
  | _ => false

/-- The main block is in use, and it has no key or its chain meets a block that does not point
back. -/
def Manager.Released (s : Manager) (pos : ℕ) : Prop :=
  s.superBlock.isMain pos ∧ s.normalBitMap.test pos = true ∧
    (s.keyAt pos = (0, 0) ∨ (s.chainOf pos).2.isMismatch = true)

instance (s : Manager) (pos : ℕ) : Decidable (s.Initialised pos) :=
  inferInstanceAs (Decidable (_ ∧ _ ∧ _))

instance (s : Manager) (pos : ℕ) : Decidable (s.Repeats pos) :=
  inferInstanceAs (Decidable (∃ a < pos, _))

instance (s : Manager) (pos q : ℕ) : Decidable (s.Superseded pos q) :=
  inferInstanceAs (Decidable (_ ∧ _ ∧ ∃ b < pos, _))

instance (s : Manager) (pos : ℕ) : Decidable (s.Released pos) :=
  inferInstanceAs (Decidable (_ ∧ _ ∧ (_ ∨ _)))

def Manager.sideAt (s : Manager) (pos : ℕ) : Side := if s.Repeats pos then .compact else .main

def Manager.loadedBlock (s : Manager) (pos : ℕ) : LogicBlock :=
  { fileid := (s.keyAt pos).1, chunkid := (s.keyAt pos).2,
    availDataSize :=
      s.superBlock.mainBlockSize + (s.chainOf pos).1.length * s.superBlock.extendBlockSize,
    physicalBlockList := s.listOf pos }

def Manager.loadedAt (s : Manager) (id : ℕ) : Option PhysicalBlock :=
  if s.superBlock.isMain id then some (s.superBlock.loadedMain (s.disk.mainPrefix id))
  else (s.disk.extendFile id).map fun f => s.superBlock.loadedExt f.blockPrefix

/-! ## Descriptions -/

/-- The manager `t` on the way from the disk of `s`: it holds the main blocks of `held` with their
chains, has given up those of `gone`, and has cleared the bits of `released`. -/
structure Manager.Loaded (s : Manager) (held gone released : Finset ℕ) (t : Manager) : Prop where
  layout : s.superBlock.SameLayout t.superBlock
  items : t.normalBitMap.itemCount = s.normalBitMap.itemCount
  mainFile : t.disk.mainFile = s.disk.mainFile
  extendFile : t.disk.extendFile = s.disk.extendFile
  errorBitMap : t.errorBitMap = s.errorBitMap
  bit : ∀ i, t.normalBitMap.test i = true ↔
    s.normalBitMap.test i = true ∧ i ∉ released ∧ ∀ q ∈ gone, i ∉ s.listOf q
  blocks : ∀ side key lb, t.toMemory.blocksOf side key = some lb ↔
    ∃ p ∈ held, s.sideAt p = side ∧ s.keyAt p = key ∧ lb = s.loadedBlock p
  phys : ∀ i, (∃ p ∈ held, i ∈ s.listOf p) → t.physicalBlocks i = s.loadedAt i
  free : ∀ i, (∀ p ∈ held, i ∉ s.listOf p) → t.physicalBlocks i = none
  used : t.superBlock.usedBlockCount = s.superBlock.usedBlockCount - gone.card
  -- Where nothing was given up or cleared, nothing was written.
  untouched : gone = ∅ → released = ∅ →
    t.superBlock = s.superBlock ∧ t.normalBitMap = s.normalBitMap ∧ t.disk = s.disk

section Descriptions

variable {s t : Manager} {held gone released : Finset ℕ}

theorem Manager.Formatted.loadedAt_isSome (hs : s.Formatted) {p i : ℕ} (hp : s.superBlock.isMain p)
    (hi : i ∈ s.listOf p) : (s.loadedAt i).isSome = true := by
  unfold Manager.loadedAt
  rcases List.mem_cons.mp hi with rfl | hi
  · rw [if_pos hp]
    rfl
  · have hx := hs.chain_extend hi
    rw [if_neg fun hm => hm.ne_extend hx rfl, Option.isSome_map]
    exact (walk_mem hi).2.2

theorem Manager.Loaded.without (hs : s.Formatted) (h : s.Loaded held gone released t)
    (hmain : ∀ p ∈ held, s.superBlock.isMain p) {q : ℕ} (hq : q ∈ held) (hgone : q ∉ gone)
    (huniq : ∀ p ∈ held, s.sideAt p = s.sideAt q → s.keyAt p = s.keyAt q → p = q) {t' : Manager}
    (mem : t'.toMemory = t.toMemory.without (s.sideAt q) (s.keyAt q) (s.loadedBlock q))
    (hmainFile : t'.disk.mainFile = t.disk.mainFile)
    (hextendFile : t'.disk.extendFile = t.disk.extendFile) :
    s.Loaded (held.erase q) (insert q gone) released t' := by
  have hqm := hmain q hq
  have hlt : ∀ i ∈ s.listOf q, i < t.normalBitMap.itemCount := by
    intro i hi
    rw [h.items]
    exact hs.listOf_lt hqm hi
  have hsuper : t'.superBlock = t.superBlock.remove (s.listOf q).length := by
    rw [mem]
    rfl
  have hbits : t'.normalBitMap = t.normalBitMap.resetAll (s.listOf q) := by
    rw [mem]
    exact erased_normalBitMap
  have hphys : ∀ i, t'.physicalBlocks i =
      if i ∈ s.listOf q then none else t.physicalBlocks i := by
    intro i
    rw [mem]
    exact erased_physicalBlocks i
  have hblocks : ∀ side' key', t'.toMemory.blocksOf side' key' =
      if side' = s.sideAt q ∧ key' = s.keyAt q then none else t.toMemory.blocksOf side' key' := by
    intro side' key'
    rw [mem]
    exact erased_blocksOf side' key'
  refine ⟨?_, ?_, ?_, ?_, ?_, ?_, ?_, ?_, ?_, ?_, ?_⟩
  · rw [hsuper]
    exact h.layout.trans ⟨rfl, rfl, rfl, rfl⟩
  · rw [hbits, BitMap.resetAll_itemCount, h.items]
  · exact hmainFile.trans h.mainFile
  · exact hextendFile.trans h.extendFile
  · rw [mem]
    exact (erased_errorBitMap).trans h.errorBitMap
  · intro i
    rw [hbits, BitMap.test_resetAll hlt, Bool.and_eq_true, h.bit, decide_eq_true_iff]
    simp only [Finset.mem_insert, forall_eq_or_imp]
    tauto
  · intro side' key' lb
    rw [hblocks]
    by_cases hp : side' = s.sideAt q ∧ key' = s.keyAt q
    · rw [if_pos hp]
      refine ⟨fun hn => by simp at hn, ?_⟩
      rintro ⟨p, hpm, hps, hpk, -⟩
      obtain ⟨hpq, hpm⟩ := Finset.mem_erase.mp hpm
      exact absurd (huniq p hpm (hps.trans hp.1) (hpk.trans hp.2)) hpq
    · rw [if_neg hp, h.blocks]
      constructor
      · rintro ⟨p, hpm, hps, hpk, rfl⟩
        refine ⟨p, Finset.mem_erase.mpr ⟨?_, hpm⟩, hps, hpk, rfl⟩
        rintro rfl
        exact hp ⟨hps.symm, hpk.symm⟩
      · rintro ⟨p, hpm, hrest⟩
        exact ⟨p, (Finset.mem_erase.mp hpm).2, hrest⟩
  · rintro i ⟨p, hpm, hi⟩
    obtain ⟨hpq, hpm⟩ := Finset.mem_erase.mp hpm
    have hnot : i ∉ s.listOf q := fun hi' => hpq (hs.listOf_disjoint (hmain p hpm) hqm hi hi')
    rw [hphys, if_neg hnot]
    exact h.phys i ⟨p, hpm, hi⟩
  · intro i hi
    rw [hphys]
    by_cases hiq : i ∈ s.listOf q
    · rw [if_pos hiq]
    · rw [if_neg hiq]
      refine h.free i fun p hpm hip => ?_
      by_cases hpq : p = q
      · exact hiq (hpq ▸ hip)
      · exact hi p (Finset.mem_erase.mpr ⟨hpq, hpm⟩) hip
  · rw [hsuper, Finset.card_insert_of_notMem hgone]
    change t.superBlock.usedBlockCount - 1 = _
    rw [h.used]
    push_cast
    omega
  · intro he
    exact absurd he (Finset.insert_ne_empty q gone)

theorem Manager.Loaded.delete (hs : s.Formatted) (h : s.Loaded held gone released t)
    (hmain : ∀ p ∈ held, s.superBlock.isMain p) {q : ℕ} (hq : q ∈ held) (hgone : q ∉ gone)
    (huniq : ∀ p ∈ held, s.sideAt p = s.sideAt q → s.keyAt p = s.keyAt q → p = q)
    {blockType : BlockType} (hside : blockType.side = some (s.sideAt q)) :
    ∃ t', t.delBlock Io.allDone (s.keyAt q) blockType = .ok (tfsSuccess, t') ∧
      s.Loaded (held.erase q) (insert q gone) released t' := by
  have hqm := hmain q hq
  have hb : t.toMemory.blocksOf (s.sideAt q) (s.keyAt q) = some (s.loadedBlock q) :=
    (h.blocks _ _ _).mpr ⟨q, hq, rfl, rfl, rfl⟩
  have hlt : ∀ i ∈ s.listOf q, i < t.normalBitMap.itemCount := by
    intro i hi
    rw [h.items]
    exact hs.listOf_lt hqm hi
  obtain ⟨ret, t', heq, hstep⟩ := delBlock_found Io.allDone hside hb (List.cons_ne_nil _ _)
    (hs.listOf_nodup hqm) (fun i hi => by rw [h.phys i ⟨q, hq, hi⟩]; exact hs.loadedAt_isSome hqm hi) hlt
  cases hstep with
  | missing hn =>
    rw [hb] at hn
    cases hn
  | uncounted e _ lb hb' bitMap mem => cases bitMap
  | late e _ lb hb' bitMap hat mem =>
    rcases hat with hat | hat
    · cases hat
    · cases hat.2
  | done _ lb hb' bitMap mem disk =>
    rw [hb] at hb'
    cases hb'
    refine ⟨t', heq, h.without hs hmain hq hgone huniq mem ?_ ?_⟩
    · rw [disk]
    · rw [disk]

theorem Manager.Loaded.release (h : s.Loaded held gone released t) {pos : ℕ}
    (hlt : pos < s.normalBitMap.itemCount) :
    s.Loaded held gone (insert pos released) (t.release pos) := by
  refine ⟨h.layout, h.items, h.mainFile, h.extendFile, h.errorBitMap, ?_, h.blocks, h.phys, h.free,
    h.used, ?_⟩
  · intro i
    change (t.normalBitMap.reset pos).test i = true ↔ _
    rw [BitMap.test_reset (h.items.symm ▸ hlt), Bool.and_eq_true, h.bit]
    simp only [Bool.not_eq_true', decide_eq_false_iff_not, Finset.mem_insert, not_or]
    tauto
  · intro _ he
    exact absurd he (Finset.insert_ne_empty pos released)

def Manager.withLoadedMain (t : Manager) (side : Side) (key : Key) (pos : ℕ) (p : BlockPrefix) :
    Manager :=
  t.onMemory fun m =>
    (m.insertLogicBlock side
      ((LogicBlock.new key).addPhysicBlock pos t.superBlock.mainBlockSize)).insertPhysical pos
      (t.superBlock.loadedMain p)

@[simp] theorem withLoadedMain_superBlock (side : Side) (key : Key) (pos : ℕ) (p : BlockPrefix) :
    (t.withLoadedMain side key pos p).superBlock = t.superBlock := putBlock_superBlock _ side _ _

@[simp] theorem withLoadedMain_normalBitMap (side : Side) (key : Key) (pos : ℕ) (p : BlockPrefix) :
    (t.withLoadedMain side key pos p).normalBitMap = t.normalBitMap :=
  putBlock_normalBitMap _ side _ _

theorem withLoadedMain_physicalBlocks (side : Side) (key : Key) (pos : ℕ) (p : BlockPrefix) (i : ℕ) :
    (t.withLoadedMain side key pos p).physicalBlocks i =
      if i = pos then some (t.superBlock.loadedMain p) else t.physicalBlocks i := by
  unfold Manager.withLoadedMain Manager.onMemory Memory.insertPhysical Memory.insertLogicBlock
  simp only [putBlock_physicalBlocks, Function.update_apply]

theorem withLoadedMain_blocksOf (side side' : Side) (key key' : Key) (pos : ℕ) (p : BlockPrefix) :
    (t.withLoadedMain side key pos p).toMemory.blocksOf side' key' =
      if side' = side ∧ key' = key then
        some ((LogicBlock.new key).addPhysicBlock pos t.superBlock.mainBlockSize)
      else t.toMemory.blocksOf side' key' := by
  refine Eq.trans ?_ (blocksOf_putBlock t.toMemory side side' key key' _)
  cases side' <;> rfl

def Manager.withLoaded (s t : Manager) (pos : ℕ) : Manager :=
  (t.withLoadedMain (s.sideAt pos) (s.keyAt pos) pos (s.disk.mainPrefix pos)).onMemory fun m =>
    m.withChain (s.sideAt pos) (s.keyAt pos)
      ((LogicBlock.new (s.keyAt pos)).addPhysicBlock pos t.superBlock.mainBlockSize)
      (s.chainOf pos).1 t.disk.extendFile

theorem withLoaded_superBlock (pos : ℕ) : (s.withLoaded t pos).superBlock = t.superBlock :=
  (putBlock_superBlock _ _ _ _).trans
    (withLoadedMain_superBlock (s.sideAt pos) _ pos (s.disk.mainPrefix pos))

theorem withLoaded_normalBitMap (pos : ℕ) : (s.withLoaded t pos).normalBitMap = t.normalBitMap :=
  (putBlock_normalBitMap _ _ _ _).trans
    (withLoadedMain_normalBitMap (s.sideAt pos) _ pos (s.disk.mainPrefix pos))

theorem withLoaded_errorBitMap (pos : ℕ) : (s.withLoaded t pos).errorBitMap = t.errorBitMap :=
  (putBlock_errorBitMap _ _ _ _).trans (putBlock_errorBitMap _ (s.sideAt pos) _ _)

theorem withLoaded_physicalBlocks (hs : s.Formatted) (h : s.Loaded held gone released t) {pos : ℕ}
    (hpos : s.superBlock.isMain pos) (i : ℕ) :
    (s.withLoaded t pos).physicalBlocks i =
      if i ∈ s.listOf pos then s.loadedAt i else t.physicalBlocks i := by
  obtain ⟨-, -, hms, hes⟩ := h.layout
  have h₁ : (s.withLoaded t pos).physicalBlocks i =
      if i ∈ (s.chainOf pos).1 then
        (t.disk.extendFile i).map fun f => t.superBlock.loadedExt f.blockPrefix
      else if i = pos then some (t.superBlock.loadedMain (s.disk.mainPrefix pos))
      else t.physicalBlocks i := by
    unfold Manager.withLoaded Manager.onMemory Memory.withChain
    simp only [putBlock_physicalBlocks, withLoadedMain_physicalBlocks, withLoadedMain_superBlock]
  rw [h₁]
  by_cases hi : i ∈ (s.chainOf pos).1
  · have hx := hs.chain_extend hi
    have hmem : i ∈ s.listOf pos := List.mem_cons_of_mem _ hi
    rw [if_pos hi, if_pos hmem, Manager.loadedAt, if_neg fun hm => hm.ne_extend hx rfl, h.extendFile]
    unfold SuperBlock.loadedExt
    rw [hes]
  · rw [if_neg hi]
    by_cases hip : i = pos
    · subst hip
      have hmem : i ∈ s.listOf i := List.mem_cons_self
      rw [if_pos rfl, if_pos hmem, Manager.loadedAt, if_pos hpos]
      unfold SuperBlock.loadedMain
      rw [hms]
    · have hnot : i ∉ s.listOf pos := fun hm => (List.mem_cons.mp hm).elim hip hi
      rw [if_neg hip, if_neg hnot]

theorem withLoaded_blocksOf (h : s.Loaded held gone released t) (pos : ℕ) (side : Side) (key : Key) :
    (s.withLoaded t pos).toMemory.blocksOf side key =
      if side = s.sideAt pos ∧ key = s.keyAt pos then some (s.loadedBlock pos)
      else t.toMemory.blocksOf side key := by
  obtain ⟨-, -, hms, hes⟩ := h.layout
  refine (blocksOf_putBlock _ _ _ _ _ _).trans ?_
  by_cases hp : side = s.sideAt pos ∧ key = s.keyAt pos
  · rw [if_pos hp, if_pos hp, withLoadedMain_superBlock, hes, hms]
    simp [LogicBlock.new, LogicBlock.addPhysicBlock, Manager.loadedBlock, Manager.listOf]
  · rw [if_neg hp, if_neg hp]
    refine Eq.trans ?_ ((withLoadedMain_blocksOf (s.sideAt pos) side (s.keyAt pos) key pos
      (s.disk.mainPrefix pos)).trans (if_neg hp))
    cases side <;> rfl

theorem Manager.Loaded.add (hs : s.Formatted) (h : s.Loaded held gone released t)
    (hmain : ∀ p ∈ held, s.superBlock.isMain p) {pos : ℕ} (hpos : s.superBlock.isMain pos)
    (hnew : pos ∉ held)
    (huniq : ∀ p ∈ held, ¬ (s.sideAt p = s.sideAt pos ∧ s.keyAt p = s.keyAt pos)) :
    s.Loaded (insert pos held) gone released (s.withLoaded t pos) := by
  have hsuper : (s.withLoaded t pos).superBlock = t.superBlock := withLoaded_superBlock pos
  have hbits : (s.withLoaded t pos).normalBitMap = t.normalBitMap := withLoaded_normalBitMap pos
  have hphys := withLoaded_physicalBlocks hs h hpos
  have hdisjoint : ∀ p ∈ held, ∀ i ∈ s.listOf p, i ∉ s.listOf pos := by
    intro p hp i hi hip
    exact hnew (hs.listOf_disjoint (hmain p hp) hpos hi hip ▸ hp)
  refine ⟨?_, ?_, h.mainFile, h.extendFile, ?_, ?_, ?_, ?_, ?_, ?_, ?_⟩
  · rw [hsuper]
    exact h.layout
  · rw [hbits]
    exact h.items
  · rw [withLoaded_errorBitMap]
    exact h.errorBitMap
  · rw [hbits]
    exact h.bit
  · intro side key lb
    rw [withLoaded_blocksOf h]
    by_cases hp : side = s.sideAt pos ∧ key = s.keyAt pos
    · rw [if_pos hp, Option.some.injEq]
      constructor
      · rintro rfl
        exact ⟨pos, Finset.mem_insert_self _ _, hp.1.symm, hp.2.symm, rfl⟩
      · rintro ⟨p, hpm, hps, hpk, rfl⟩
        rcases Finset.mem_insert.mp hpm with rfl | hpm
        · rfl
        · exact absurd ⟨hps.trans hp.1, hpk.trans hp.2⟩ (huniq p hpm)
    · rw [if_neg hp, h.blocks]
      constructor
      · rintro ⟨p, hpm, hrest⟩
        exact ⟨p, Finset.mem_insert_of_mem hpm, hrest⟩
      · rintro ⟨p, hpm, hps, hpk, hlb⟩
        rcases Finset.mem_insert.mp hpm with rfl | hpm
        · exact absurd ⟨hps.symm, hpk.symm⟩ hp
        · exact ⟨p, hpm, hps, hpk, hlb⟩
  · rintro i ⟨p, hpm, hi⟩
    rw [hphys]
    rcases Finset.mem_insert.mp hpm with rfl | hpm
    · rw [if_pos hi]
    · rw [if_neg (hdisjoint p hpm i hi)]
      exact h.phys i ⟨p, hpm, hi⟩
  · intro i hi
    rw [hphys, if_neg (hi pos (Finset.mem_insert_self _ _))]
    exact h.free i fun p hp => hi p (Finset.mem_insert_of_mem hp)
  · rw [hsuper]
    exact h.used
  · rw [hsuper, hbits]
    exact h.untouched

end Descriptions

end Tefs.DataServer
