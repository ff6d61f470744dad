import Tefs.DataServer.Load
import Tefs.DataServer.Operations

/-! # Histories of a file system whose disk works

Every operation on a manager with the allocation invariant ends without an abort in a manager with
the invariant, so every history of a file system, from its format on, does.
-/

namespace Tefs.DataServer
set_option autoImplicit false

open Tefs.Partition

/-! ## One operation -/

inductive ManagerOp where
  | newBlock (key : Key) (blockType : BlockType)
  | delBlock (key : Key) (blockType : BlockType)
  -- `extend_block` of the logic block that `side` has under `key`
  | extendBlock (side : Side) (key : Key) (size offset : ℤ)
  | switchCompactBlk (key : Key)
  | setErrorBitmap (ids : List ℕ)
  | resetErrorBitmap (ids : List ℕ)
  deriving DecidableEq, Repr

/-- The state after an operation; its code does not matter here. -/
def Manager.apply (extendSupport : Bool) (s : Manager) : ManagerOp → Except Abort Manager
  | .newBlock key blockType => (s.newBlock Io.allDone key blockType).map Prod.snd
  | .delBlock key blockType => (s.delBlock Io.allDone key blockType).map Prod.snd
  | .extendBlock side key size offset =>
    (Manager.extendBlock extendSupport (fun _ => Io.allDone) side key size offset maxExtendTimes
      s).map Prod.snd
  | .switchCompactBlk key => .ok (s.onMemory fun m => (m.switchCompactBlk key).2)
  | .setErrorBitmap ids => (s.toMemory.setErrorBitmap ids).map fun m => s.onMemory fun _ => m
  | .resetErrorBitmap ids => (s.toMemory.resetErrorBitmap ids).map fun m => s.onMemory fun _ => m

def ManagerOp.InRange (itemCount : ℕ) : ManagerOp → Prop
  | .setErrorBitmap ids => ∀ id ∈ ids, id < itemCount
  | .resetErrorBitmap ids => ∀ id ∈ ids, id < itemCount
  | _ => True

structure Memory.Sound (sb : SuperBlock) (m : Memory) : Prop where
  alloc : m.AllocInv
  layout : sb.SameLayout m.superBlock

theorem SuperBlock.SameLayout.trans {a b c : SuperBlock} (h : a.SameLayout b) (h' : b.SameLayout c) :
    a.SameLayout c :=
  ⟨h'.1.trans h.1, h'.2.1.trans h.2.1, h'.2.2.1.trans h.2.2.1, h'.2.2.2.trans h.2.2.2⟩

theorem SuperBlock.SameLayout.refl (sb : SuperBlock) : sb.SameLayout sb := ⟨rfl, rfl, rfl, rfl⟩

section Steps

variable {sb : SuperBlock} {s : Manager}

theorem Memory.Sound.newBlock (h : s.toMemory.Sound sb) (key : Key) (blockType : BlockType) :
    ∃ ret s', s.newBlock Io.allDone key blockType = .ok (ret, s') ∧ s'.toMemory.Sound sb := by
  obtain ⟨ret, s', heq, hstep⟩ := newBlock_step h.alloc Io.allDone key blockType
  refine ⟨ret, s', heq, ?_⟩
  cases hstep with
  | exist _ => exact h
  | exhaust _ _ => exact h
  | undone e _ id hn hf hat mem => rw [mem]; exact h
  | miscounted e _ id hn hf dump bitMap hat mem =>
    rcases hat with hat | hat
    · cases hat
    · cases hat.2
  | done id _ hn hf dump bitMap super flush mem disk =>
    obtain ⟨o, ho, hspec⟩ := findAvailBlock_ok h.alloc.normal_items h.alloc.error_items .main
    rw [hf] at ho
    cases ho
    obtain ⟨hid, ht, -⟩ := hspec id rfl
    rw [mem]
    refine ⟨h.alloc.withMain hid ht hn rfl, ?_⟩
    rw [show (s.toMemory.withMain blockType.selected key id _).superBlock = s.superBlock.addMain from
      putBlock_superBlock _ _ _ _]
    exact h.layout.trans ⟨rfl, rfl, rfl, rfl⟩

theorem Memory.Sound.delBlock (h : s.toMemory.Sound sb) (key : Key) (blockType : BlockType) :
    ∃ ret s', s.delBlock Io.allDone key blockType = .ok (ret, s') ∧ s'.toMemory.Sound sb := by
  cases hside : blockType.side with
  | none => exact ⟨_, s, delBlock_no_side s Io.allDone key hside, h⟩
  | some side =>
    obtain ⟨ret, s', heq, hstep⟩ := delBlock_step h.alloc Io.allDone key hside
    refine ⟨ret, s', heq, ?_⟩
    cases hstep with
    | missing _ => exact h
    | uncounted e _ lb hb bitMap mem => cases bitMap
    | late e _ lb hb bitMap hat mem =>
      rcases hat with hat | hat
      · cases hat
      · cases hat.2
    | done _ lb hb bitMap mem disk =>
      rw [mem]
      exact ⟨h.alloc.without hb, h.layout.trans ⟨rfl, rfl, rfl, rfl⟩⟩

/-- The rule for `extend_block`: what one more block preserves, the loop preserves. The induction is
over the rounds left. -/
theorem extendBlock_rule {P : Manager → Prop} {side : Side} {key : Key}
    (halloc : ∀ s, P s → s.toMemory.AllocInv)
    (hgrow : ∀ s s' lb last id prev, P s → s.toMemory.blocksOf side key = some lb →
      lb.physicalBlockList.getLast? = some last → s.physicalBlocks last = some prev →
      s.superBlock.isExtend id → s.normalBitMap.test id = false →
      s'.toMemory = s.toMemory.withExt side key lb last id prev (s.superBlock.extendBlock key last) →
      s'.disk = s.extended key last id prev → P s')
    (h : P s) (extendSupport : Bool) (size offset : ℤ) (retryTimes : ℕ) :
    ∃ ret s', Manager.extendBlock extendSupport (fun _ => Io.allDone) side key size offset retryTimes
      s = .ok (ret, s') ∧ P s' := by
  induction retryTimes generalizing s with
  | zero => exact ⟨_, s, rfl, h⟩
  | succ retryTimes ih =>
    rw [Manager.extendBlock]
    cases hb : s.toMemory.blocksOf side key with
    | none => exact ⟨_, s, rfl, h⟩
    | some lb =>
      by_cases hneed : lb.availDataSize < offset + size
      · simp only [hneed, if_true]
        cases extendSupport with
        | false => exact ⟨_, s, rfl, h⟩
        | true =>
          cases hlast : lb.physicalBlockList.getLast? with
          | none => exact ⟨_, s, rfl, h⟩
          | some last =>
            have hmem : last ∈ lb.physicalBlockList := List.mem_of_getLast? hlast
            obtain ⟨ret, id, s₁, heq, hstep⟩ := newExtBlock_step (halloc s h) Io.allDone hb hmem
            simp only [if_true, heq]
            cases hstep with
            | refused _ hret _ => exact ⟨_, s, if_pos hret, h⟩
            | undone e _ _ hl hf hat mem => simp [Io.allDone] at hat
            | dangling e _ _ prev hl hf hp bitMap super flush dump hat mem => cases hat
            | done _ _ prev hl hf hp bitMap super flush dump dumpPrev mem disk =>
              obtain ⟨o, ho, hspec⟩ := findAvailBlock_ok (halloc s h).normal_items
                (halloc s h).error_items .ext
              rw [hf] at ho
              cases ho
              obtain ⟨hid, ht, -⟩ := hspec id rfl
              have hpb : s₁.physicalBlocks id = some (s.superBlock.extendBlock key last) := by
                rw [mem]
                exact Function.update_self _ _ _
              simp only [ne_eq, not_true, if_false, hpb]
              refine ih (hgrow s _ lb last id prev h hb hlast hp hid ht ?_ disk)
              simp only [Manager.onMemory, mem]
              rfl
      · simp only [hneed, if_false]
        exact ⟨_, s, rfl, h⟩

theorem Memory.Sound.withExt {m : Memory} (h : m.Sound sb) {side : Side} {key : Key} {lb : LogicBlock}
    (hb : m.blocksOf side key = some lb) {last id : ℕ} {prev : PhysicalBlock}
    (hlast : last ∈ lb.physicalBlockList) (hp : m.physicalBlocks last = some prev)
    (hid : m.superBlock.isExtend id) (ht : m.normalBitMap.test id = false) :
    (m.withExt side key lb last id prev (m.superBlock.extendBlock key last)).Sound sb := by
  refine ⟨h.alloc.withExt hb hlast hp hid ht rfl, ?_⟩
  rw [show (m.withExt side key lb last id prev _).superBlock = m.superBlock.addExtend from
    putBlock_superBlock _ _ _ _]
  exact h.layout.trans ⟨rfl, rfl, rfl, rfl⟩

theorem Memory.Sound.extendBlock (h : s.toMemory.Sound sb) (extendSupport : Bool) (side : Side)
    (key : Key) (size offset : ℤ) (retryTimes : ℕ) :
    ∃ ret s', Manager.extendBlock extendSupport (fun _ => Io.allDone) side key size offset retryTimes
      s = .ok (ret, s') ∧ s'.toMemory.Sound sb := by
  refine extendBlock_rule (fun _ hs => hs.alloc) ?_ h extendSupport size offset retryTimes
  intro s s' lb last id prev hs hb hlast hp hid ht mem disk
  rw [mem]
  exact hs.withExt hb (List.mem_of_getLast? hlast) hp hid ht

theorem Memory.Sound.switchCompactBlk {m : Memory} (h : m.Sound sb) (key : Key) :
    (m.switchCompactBlk key).2.Sound sb := by
  refine ⟨h.alloc.switchCompactBlk key, ?_⟩
  unfold Memory.switchCompactBlk
  split
  · exact h.layout
  · exact h.layout

theorem Memory.Sound.apply (h : s.toMemory.Sound sb) (extendSupport : Bool) (op : ManagerOp)
    (hop : op.InRange sb.itemCount) :
    ∃ s', s.apply extendSupport op = .ok s' ∧ s'.toMemory.Sound sb := by
  have hitems : sb.itemCount = s.errorBitMap.itemCount := by
    rw [h.alloc.error_items]
    simp [SuperBlock.itemCount, h.layout.1, h.layout.2.1]
  cases op with
  | newBlock key blockType =>
    obtain ⟨ret, s', heq, hs⟩ := h.newBlock key blockType
    exact ⟨s', by simp [Manager.apply, heq, Except.map], hs⟩
  | delBlock key blockType =>
    obtain ⟨ret, s', heq, hs⟩ := h.delBlock key blockType
    exact ⟨s', by simp [Manager.apply, heq, Except.map], hs⟩
  | extendBlock side key size offset =>
    obtain ⟨ret, s', heq, hs⟩ := h.extendBlock extendSupport side key size offset maxExtendTimes
    exact ⟨s', by simp [Manager.apply, heq, Except.map], hs⟩
  | switchCompactBlk key => exact ⟨_, rfl, h.switchCompactBlk key⟩
  | setErrorBitmap ids =>
    obtain ⟨m, heq, hm, hsuper⟩ := setErrorBitmap_ok h.alloc (fun id hid => hitems ▸ hop id hid)
    exact ⟨s.onMemory fun _ => m, by simp only [Manager.apply, heq, Except.map], hm,
      hsuper ▸ h.layout⟩
  | resetErrorBitmap ids =>
    obtain ⟨m, heq, hm, hsuper⟩ := resetErrorBitmap_ok h.alloc (fun id hid => hitems ▸ hop id hid)
    exact ⟨s.onMemory fun _ => m, by simp only [Manager.apply, heq, Except.map], hm,
      hsuper ▸ h.layout⟩

end Steps

/-! ## Whole histories -/

def Manager.runOps (extendSupport : Bool) : Manager → List ManagerOp → Except Abort Manager
  | s, [] => .ok s
  | s, op :: ops =>
    match s.apply extendSupport op with
    | .error a => .error a
    | .ok s => s.runOps extendSupport ops

theorem Memory.Sound.runOps {sb : SuperBlock} {s : Manager} (h : s.toMemory.Sound sb)
    (extendSupport : Bool) (ops : List ManagerOp) (hops : ∀ op ∈ ops, op.InRange sb.itemCount) :
    ∃ s', s.runOps extendSupport ops = .ok s' ∧ s'.toMemory.Sound sb := by
  induction ops generalizing s with
  | nil => exact ⟨s, rfl, h⟩
  | cons op ops ih =>
    obtain ⟨s₁, heq, h₁⟩ := h.apply extendSupport op (hops op List.mem_cons_self)
    simp only [Manager.runOps, heq]
    exact ih h₁ fun o ho => hops o (List.mem_cons_of_mem _ ho)

theorem fresh_sound {sb : SuperBlock} (hm : 0 < sb.mainBlockSize)
    (he : sb.extendBlockCount = 0 ∨ 0 < sb.extendBlockSize) (hu : sb.usedBlockCount = 0)
    (hx : sb.usedExtendBlockCount = 0) : (Manager.fresh sb).toMemory.Sound sb := by
  have hlist : (Manager.fresh sb).toMemory.listAt = fun _ => [] := by
    funext p
    obtain ⟨side, key⟩ := p
    cases side <;> rfl
  refine ⟨⟨rfl, rfl, hm, he, ?_, ?_, ?_, ?_, ?_⟩, SuperBlock.SameLayout.refl sb⟩
  · intro id
    simp [Manager.fresh, BitMap.test_new]
  · rw [hlist]
    exact Partitions.empty.congr (fun a => by simp [Manager.fresh]) fun _ => rfl
  · intro side key lb hb
    cases side <;> cases hb
  · simp [Manager.fresh, BitMap.setBits_new, hu]
  · simp [Manager.fresh, BitMap.setBits_new, hx]

/-- Every history of a new file system goes through without an abort, and at its end bitmap, maps,
lists and counters agree, and the search for a block returns free ids only. -/
theorem history_allocation_consistent (mainBlockCount extendBlockCount : ℕ)
    (mainBlockSize extendBlockSize : ℤ) (hmain : 0 < mainBlockSize)
    (hext : extendBlockCount = 0 ∨ 0 < extendBlockSize) (extendSupport : Bool)
    (ops : List ManagerOp)
    (hops : ∀ op ∈ ops, op.InRange (mainBlockCount + extendBlockCount + 1)) :
    ∃ s₀ s, bootstrap (format (SuperBlock.fresh mainBlockCount extendBlockCount mainBlockSize
        extendBlockSize)) = .ok (tfsSuccess, some s₀) ∧
      s₀.runOps extendSupport ops = .ok s ∧
      (∀ id, s.normalBitMap.test id = true ↔ (s.physicalBlocks id).isSome = true) ∧
      (∀ id, (s.physicalBlocks id).isSome = true → ∃ side key lb,
        s.toMemory.blocksOf side key = some lb ∧ lb.physicalBlockList.count id = 1 ∧
        ∀ side' key' lb', s.toMemory.blocksOf side' key' = some lb' → id ∈ lb'.physicalBlockList →
          side' = side ∧ key' = key) ∧
      s.superBlock.usedBlockCount = (s.normalBitMap.setBits 1 mainBlockCount).card ∧
      s.superBlock.usedExtendBlockCount = (s.normalBitMap.setBits (mainBlockCount + 1)
        (mainBlockCount + extendBlockCount)).card ∧
      ∀ blockType, ∃ o, s.toMemory.findAvailBlock blockType = .ok o ∧ ∀ id, o = some id →
        s.normalBitMap.test id = false ∧ s.errorBitMap.test id = false ∧
        s.physicalBlocks id = none := by
  generalize hsb : SuperBlock.fresh mainBlockCount extendBlockCount mainBlockSize extendBlockSize = sb
  have hfresh : (Manager.fresh sb).toMemory.Sound sb := by
    subst hsb
    exact fresh_sound hmain hext rfl rfl
  have hcounts : sb.mainBlockCount = mainBlockCount ∧ sb.extendBlockCount = extendBlockCount := by
    subst hsb
    exact ⟨rfl, rfl⟩
  obtain ⟨s, hrun, h⟩ := hfresh.runOps extendSupport ops (by
    unfold SuperBlock.itemCount
    rwa [hcounts.1, hcounts.2])
  have hmc : s.superBlock.mainBlockCount = mainBlockCount := h.layout.1.trans hcounts.1
  have hec : s.superBlock.extendBlockCount = extendBlockCount := h.layout.2.1.trans hcounts.2
  refine ⟨Manager.fresh sb, s, bootstrap_format (by subst hsb; rfl), hrun, h.alloc.bit_iff, ?_, ?_, ?_,
    ?_⟩
  · intro id hid
    obtain ⟨⟨side, key⟩, hcount, huniq⟩ := h.alloc.partition.existsUnique hid
    have hmem : id ∈ s.toMemory.listAt (side, key) := List.count_pos_iff.mp (by omega)
    obtain ⟨lb, hb, -⟩ := exists_of_mem_listAt hmem
    refine ⟨side, key, lb, hb, listAt_of_some hb ▸ hcount, ?_⟩
    intro side' key' lb' hb' hmem'
    exact Prod.mk.inj (huniq (side', key') (listAt_of_some hb' ▸ hmem'))
  · rw [h.alloc.used_eq, hmc]
  · rw [h.alloc.used_extend_eq, hmc, hec]
  · intro blockType
    obtain ⟨o, ho, hspec⟩ := findAvailBlock_ok h.alloc.normal_items h.alloc.error_items blockType
    refine ⟨o, ho, fun id hid => ?_⟩
    obtain ⟨-, ht, hte⟩ := hspec id hid
    exact ⟨ht, hte, by simpa using h.alloc.not_allocated ht⟩

/-- A file system of three main and two extend blocks: a block, a compact copy of it, an extension,
the switch, and the copy dropped. -/
theorem history_of_a_compaction :
    ∃ s₀ s, bootstrap (format (SuperBlock.fresh 3 2 100 50)) = .ok (tfsSuccess, some s₀) ∧
      s₀.runOps true [.newBlock (7, 0) .main, .setErrorBitmap [2], .newBlock (7, 0) .compact,
        .extendBlock .main (7, 0) 40 80, .switchCompactBlk (7, 0), .delBlock (7, 0) .compact] =
          .ok s ∧
      ∀ id, s.normalBitMap.test id = true ↔ (s.physicalBlocks id).isSome = true := by
  obtain ⟨s₀, s, hboot, hrun, hbit, -⟩ := history_allocation_consistent 3 2 100 50 (by decide)
    (Or.inr (by decide)) true [.newBlock (7, 0) .main, .setErrorBitmap [2], .newBlock (7, 0) .compact,
      .extendBlock .main (7, 0) 40 80, .switchCompactBlk (7, 0), .delBlock (7, 0) .compact]
    (by simp [ManagerOp.InRange])
  exact ⟨s₀, s, hboot, hrun, hbit⟩

end Tefs.DataServer
