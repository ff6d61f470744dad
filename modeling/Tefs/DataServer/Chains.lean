import Tefs.DataServer.Allocation
import Tefs.Lib.BackChain

/-! # The chains on a disk

What `load_block_file` finds behind a main block depends on the prefixes only: `walk` follows the next
pointers over the bitmap and the prefixes as they are, with no maps. Nothing is assumed of the
prefixes. A block in the extend directory is in one chain at most, because a chain goes on only to a
block that points back, and so the walk ends.
-/

namespace Tefs.DataServer
set_option autoImplicit false

open BackChain

inductive ChainEnd where
  -- at a next pointer that is zero
  | ended
  -- at an id outside the bitmap
  | outside
  -- at a block whose bit is clear or whose file is missing
  | refused
  -- at a block, in a file system whose extend blocks have no size
  | unsized (id : ℕ)
  -- at a block that does not point back
  | mismatch (id : ℕ)
  -- the rounds are used up
  | rounds
  deriving DecidableEq, Repr

/-- The ids behind `extPos`, from `next` on, and how the walk ends. -/
def Manager.walk (s : Manager) : ℕ → ℕ → ℕ → List ℕ × ChainEnd
  | 0, _, _ => ([], .rounds)
  | rounds + 1, extPos, next =>
    if next = 0 then ([], .ended)
    else if next < s.normalBitMap.itemCount then
      if s.normalBitMap.test next then
        if 0 < s.superBlock.extendBlockSize then
          match s.disk.extendFile next with
          | none => ([], .refused)
          | some file =>
            if extPos ≠ file.blockPrefix.prevPhysicBlockId then ([], .mismatch next)
            else
              let rest := Manager.walk s rounds next file.blockPrefix.nextPhysicBlockId
              (next :: rest.1, rest.2)
        else ([], .unsized next)
      else ([], .refused)
    else ([], .outside)

inductive WalkStep (s : Manager) (rounds extPos : ℕ) : ℕ → List ℕ × ChainEnd → Prop
  | ended : WalkStep s rounds extPos 0 ([], .ended)
  | outside {next : ℕ} (hne : next ≠ 0) (h : ¬ next < s.normalBitMap.itemCount) :
      WalkStep s rounds extPos next ([], .outside)
  | clear {next : ℕ} (hne : next ≠ 0) (hlt : next < s.normalBitMap.itemCount)
      (ht : s.normalBitMap.test next = false) : WalkStep s rounds extPos next ([], .refused)
  | unsized {next : ℕ} (hne : next ≠ 0) (hlt : next < s.normalBitMap.itemCount)
      (ht : s.normalBitMap.test next = true) (h : ¬ 0 < s.superBlock.extendBlockSize) :
      WalkStep s rounds extPos next ([], .unsized next)
  | missing {next : ℕ} (hne : next ≠ 0) (hlt : next < s.normalBitMap.itemCount)
      (ht : s.normalBitMap.test next = true) (hs : 0 < s.superBlock.extendBlockSize)
      (hf : s.disk.extendFile next = none) : WalkStep s rounds extPos next ([], .refused)
  | mismatch {next : ℕ} {file : BlockFile} (hne : next ≠ 0)
      (hlt : next < s.normalBitMap.itemCount) (ht : s.normalBitMap.test next = true)
      (hs : 0 < s.superBlock.extendBlockSize) (hf : s.disk.extendFile next = some file)
      (h : extPos ≠ file.blockPrefix.prevPhysicBlockId) :
      WalkStep s rounds extPos next ([], .mismatch next)
  | follow {next : ℕ} {file : BlockFile} (hne : next ≠ 0)
      (hlt : next < s.normalBitMap.itemCount) (ht : s.normalBitMap.test next = true)
      (hs : 0 < s.superBlock.extendBlockSize) (hf : s.disk.extendFile next = some file)
      (h : extPos = file.blockPrefix.prevPhysicBlockId) :
      WalkStep s rounds extPos next
        (next :: (s.walk rounds next file.blockPrefix.nextPhysicBlockId).1,
          (s.walk rounds next file.blockPrefix.nextPhysicBlockId).2)

theorem walk_step (s : Manager) (rounds extPos next : ℕ) :
    WalkStep s rounds extPos next (s.walk (rounds + 1) extPos next) := by
  rw [Manager.walk]
  by_cases hne : next = 0
  · subst hne
    exact .ended
  rw [if_neg hne]
  by_cases hlt : next < s.normalBitMap.itemCount
  · rw [if_pos hlt]
    cases ht : s.normalBitMap.test next with
    | false => exact .clear hne hlt ht
    | true =>
      rw [if_pos rfl]
      by_cases hs : 0 < s.superBlock.extendBlockSize
      · rw [if_pos hs]
        cases hf : s.disk.extendFile next with
        | none => exact .missing hne hlt ht hs hf
        | some file =>
          dsimp only
          by_cases hp : extPos = file.blockPrefix.prevPhysicBlockId
          · rw [if_neg (not_not_intro hp)]
            exact .follow hne hlt ht hs hf hp
          · rw [if_pos hp]
            exact .mismatch hne hlt ht hs hf hp
      · rw [if_neg hs]
        exact .unsized hne hlt ht hs
  · rw [if_neg hlt]
    exact .outside hne hlt

/-! ## What a walk passes -/

/-- The block `y` in the extend directory names `x` as the one before it. -/
def Manager.precedes (s : Manager) (x y : ℕ) : Prop :=
  ∃ file, s.disk.extendFile y = some file ∧ file.blockPrefix.prevPhysicBlockId = x

theorem precedes_functional (s : Manager) (x x' y : ℕ) (h : s.precedes x y) (h' : s.precedes x' y) :
    x = x' := by
  obtain ⟨file, hf, hx⟩ := h
  obtain ⟨file', hf', hx'⟩ := h'
  rw [hf] at hf'
  cases hf'
  exact hx.symm.trans hx'

theorem walk_isChain (s : Manager) (rounds extPos next : ℕ) :
    (extPos :: (s.walk rounds extPos next).1).IsChain s.precedes := by
  induction rounds generalizing extPos next with
  | zero => exact .singleton _
  | succ rounds ih =>
    have hstep := walk_step s rounds extPos next
    generalize s.walk (rounds + 1) extPos next = r at hstep
    cases hstep with
    | follow hne hlt ht hs hf h => exact .cons_cons ⟨_, hf, h.symm⟩ (ih _ _)
    | _ => exact .singleton _

theorem walk_mem {s : Manager} {rounds extPos next e : ℕ}
    (he : e ∈ (s.walk rounds extPos next).1) :
    s.normalBitMap.test e = true ∧ e < s.normalBitMap.itemCount ∧
      (s.disk.extendFile e).isSome = true := by
  induction rounds generalizing extPos next with
  | zero => simp [Manager.walk] at he
  | succ rounds ih =>
    have hstep := walk_step s rounds extPos next
    generalize s.walk (rounds + 1) extPos next = r at he hstep
    cases hstep with
    | follow hne hlt ht hs hf h =>
      rcases List.mem_cons.mp he with rfl | he
      · exact ⟨ht, hlt, by simp [hf]⟩
      · exact ih he
    | _ => simp at he

theorem walk_mismatch {s : Manager} {rounds extPos next c : ℕ}
    (he : (s.walk rounds extPos next).2 = .mismatch c) :
    s.normalBitMap.test c = true ∧ (s.disk.extendFile c).isSome = true := by
  induction rounds generalizing extPos next with
  | zero => simp [Manager.walk] at he
  | succ rounds ih =>
    have hstep := walk_step s rounds extPos next
    generalize s.walk (rounds + 1) extPos next = r at he hstep
    cases hstep with
    | follow hne hlt ht hs hf h => exact ih he
    | mismatch hne hlt ht hs hf h =>
      cases he
      exact ⟨ht, by simp [hf]⟩
    | _ => cases he

theorem walk_unsized {s : Manager} {rounds extPos next c : ℕ}
    (he : (s.walk rounds extPos next).2 = .unsized c) : s.normalBitMap.test c = true := by
  induction rounds generalizing extPos next with
  | zero => simp [Manager.walk] at he
  | succ rounds ih =>
    have hstep := walk_step s rounds extPos next
    generalize s.walk (rounds + 1) extPos next = r at he hstep
    cases hstep with
    | follow hne hlt ht hs hf h => exact ih he
    | unsized hne hlt ht h =>
      cases he
      exact ht
    | _ => cases he

theorem walk_rounds {s : Manager} {rounds extPos next : ℕ}
    (he : (s.walk rounds extPos next).2 = .rounds) :
    (s.walk rounds extPos next).1.length = rounds := by
  induction rounds generalizing extPos next with
  | zero => rfl
  | succ rounds ih =>
    have hstep := walk_step s rounds extPos next
    generalize s.walk (rounds + 1) extPos next = r at he hstep
    cases hstep with
    | follow hne hlt ht hs hf h => simpa using ih he
    | _ => cases he

/-! ## The chain of a main block -/

def Disk.mainPrefix (d : Disk) (pos : ℕ) : BlockPrefix :=
  match d.mainFile pos with
  | some file => file.blockPrefix
  | none => BlockPrefix.zero

/-- The loop of the source has no bound. This one is never reached, see `chainEnd_ne_rounds`. -/
def Manager.chainOf (s : Manager) (pos : ℕ) : List ℕ × ChainEnd :=
  s.walk (s.normalBitMap.itemCount + 1) pos (s.disk.mainPrefix pos).nextPhysicBlockId

def Manager.listOf (s : Manager) (pos : ℕ) : List ℕ := pos :: (s.chainOf pos).1

/-- The main block files are there, nothing else is in the extend directory than what the format
made, and the bitmap has its size. -/
structure Manager.Formatted (s : Manager) : Prop where
  main_file : ∀ id, s.superBlock.isMain id → (s.disk.mainFile id).isSome = true
  extend_file : ∀ id, (s.disk.extendFile id).isSome = true → s.superBlock.isExtend id
  items : s.normalBitMap.itemCount = s.superBlock.itemCount

theorem SuperBlock.isMain.ne_extend {sb : SuperBlock} {p e : ℕ} (hp : sb.isMain p)
    (he : sb.isExtend e) : p ≠ e := by
  have h₁ := hp.2
  have h₂ := he.1
  omega

theorem length_le_of_nodup {l : List ℕ} {n : ℕ} (hn : l.Nodup) (hlt : ∀ e ∈ l, e < n) :
    l.length ≤ n := by
  have hsub : l ⊆ List.range n := fun e he => List.mem_range.mpr (hlt e he)
  have hle := (hn.subperm hsub).length_le
  rwa [List.length_range] at hle

section Static

variable {s : Manager} (hs : s.Formatted)
include hs

theorem Manager.Formatted.not_precedes {p : ℕ} (hp : s.superBlock.isMain p) (x : ℕ) :
    ¬ s.precedes x p := by
  rintro ⟨file, hf, -⟩
  exact hp.ne_extend (hs.extend_file p (by simp [hf])) rfl

theorem Manager.Formatted.chain_extend {p e : ℕ} (he : e ∈ (s.chainOf p).1) :
    s.superBlock.isExtend e := hs.extend_file e (walk_mem he).2.2

theorem Manager.Formatted.listOf_nodup {p : ℕ} (hp : s.superBlock.isMain p) : (s.listOf p).Nodup :=
  nodup_of_isChain (precedes_functional s) (hs.not_precedes hp) (walk_isChain s _ p _)

theorem Manager.Formatted.listOf_disjoint {p q e : ℕ} (hp : s.superBlock.isMain p)
    (hq : s.superBlock.isMain q) (hep : e ∈ s.listOf p) (heq : e ∈ s.listOf q) : p = q :=
  start_unique (precedes_functional s) (hs.not_precedes hp) (hs.not_precedes hq)
    (walk_isChain s _ p _) (walk_isChain s _ q _) hep heq

theorem Manager.Formatted.main_mem_listOf {p q : ℕ} (hp : s.superBlock.isMain p) :
    p ∈ s.listOf q ↔ p = q := by
  refine ⟨fun h => ?_, fun h => h ▸ List.mem_cons_self⟩
  rcases List.mem_cons.mp h with h | h
  · exact h
  · exact absurd rfl (hp.ne_extend (hs.chain_extend h))

theorem Manager.Formatted.listOf_lt {p e : ℕ} (hp : s.superBlock.isMain p) (he : e ∈ s.listOf p) :
    e < s.normalBitMap.itemCount := by
  rcases List.mem_cons.mp he with rfl | he
  · exact hs.items ▸ hp.lt
  · exact (walk_mem he).2.1

/-- The walk ends: it cannot pass more ids than there are. -/
theorem Manager.Formatted.chainEnd_ne_rounds {p : ℕ} (hp : s.superBlock.isMain p) :
    (s.chainOf p).2 ≠ .rounds := by
  intro h
  have hlen : (s.chainOf p).1.length = s.normalBitMap.itemCount + 1 := walk_rounds h
  have hle := length_le_of_nodup (List.nodup_cons.mp (hs.listOf_nodup hp)).2
    fun e he => (walk_mem he).2.1
  omega

end Static

end Tefs.DataServer
