import Mathlib.Data.List.Nodup
import Mathlib.Logic.Function.Basic
import Mathlib.Algebra.Order.Ring.Nat
import Mathlib.Algebra.BigOperators.Group.List.Basic

/-! # A heap that counts its bytes

Blocks have identities that are never given twice, and a size each. `Holds base held h` says that `h` is `base` with
the blocks `held` on top: what a computation that began at `base` has allocated and not released.
-/

namespace Tefs
set_option autoImplicit false

structure Heap where
  live : ℕ → Option ℕ
  next : ℕ
  size : ℕ
  unused : ∀ id, next ≤ id → live id = none

namespace Heap

def alloc (bytes : ℕ) (h : Heap) : Heap where
  live := Function.update h.live h.next (some bytes)
  next := h.next + 1
  size := h.size + bytes
  unused id hid := by
    rw [Function.update_of_ne (by omega)]
    exact h.unused id (by omega)

def without (id bytes : ℕ) (h : Heap) : Heap where
  live := Function.update h.live id none
  next := h.next
  size := h.size - bytes
  unused other hother := by
    by_cases ho : other = id
    · rw [ho, Function.update_self]
    · rw [Function.update_of_ne ho]
      exact h.unused other hother

/-- `none`: the block is not live. -/
def release (id : ℕ) (h : Heap) : Option Heap := (h.live id).map fun bytes => h.without id bytes

structure Holds (base : Heap) (held : List (ℕ × ℕ)) (h : Heap) : Prop where
  live : ∀ id bytes, h.live id = some bytes ↔ base.live id = some bytes ∨ (id, bytes) ∈ held
  size : h.size = base.size + (held.map Prod.snd).sum
  next : base.next ≤ h.next
  nodup : (held.map Prod.fst).Nodup
  above : ∀ block ∈ held, base.next ≤ block.1
  pos : ∀ block ∈ held, 0 < block.2

namespace Holds

variable {base h : Heap} {held : List (ℕ × ℕ)}

theorem refl (h : Heap) : Holds h [] h where
  live := by simp
  size := by simp
  next := le_rfl
  nodup := List.nodup_nil
  above := by simp
  pos := by simp

theorem lt_next (hh : Holds base held h) {id bytes : ℕ} (hid : (id, bytes) ∈ held) : id < h.next := by
  by_contra hge
  have hlive := (hh.live id bytes).mpr (Or.inr hid)
  rw [h.unused id (by omega)] at hlive
  cases hlive

theorem alloc (hh : Holds base held h) {bytes : ℕ} (hpos : 0 < bytes) :
    Holds base ((h.next, bytes) :: held) (h.alloc bytes) where
  live id n := by
    by_cases hid : id = h.next
    · subst hid
      have hbase : base.live h.next = none := base.unused h.next hh.next
      have hnone : ∀ m, (h.next, m) ∉ held := fun m hm => lt_irrefl _ (hh.lt_next hm)
      simp [Heap.alloc, hbase, hnone, eq_comm]
    · simp [Heap.alloc, hh.live, hid]
  size := by
    simp only [Heap.alloc, List.map_cons, List.sum_cons, hh.size]
    omega
  next := by
    have := hh.next
    simp only [Heap.alloc]
    omega
  nodup := by
    simp only [List.map_cons, List.nodup_cons, hh.nodup, and_true, List.mem_map, not_exists, not_and]
    rintro ⟨id, n⟩ hmem rfl
    exact lt_irrefl _ (hh.lt_next hmem)
  above := by
    simp only [List.mem_cons, forall_eq_or_imp]
    exact ⟨hh.next, hh.above⟩
  pos := by
    simp only [List.mem_cons, forall_eq_or_imp]
    exact ⟨hpos, hh.pos⟩

/-- A block that is held can be released, wherever it stands. -/
theorem release {before after : List (ℕ × ℕ)} {id bytes : ℕ} (hh : Holds base (before ++ (id, bytes) :: after) h) :
    ∃ h', h.release id = some h' ∧ Holds base (before ++ after) h' := by
  have hlive : h.live id = some bytes := (hh.live id bytes).mpr (by simp)
  have hnodup := hh.nodup
  rw [List.map_append, List.map_cons, List.nodup_middle, List.nodup_cons, ← List.map_append] at hnodup
  have hbase : base.live id = none := base.unused id (hh.above (id, bytes) (by simp))
  have hsub : ∀ block ∈ before ++ after, block ∈ before ++ (id, bytes) :: after := by
    intro block hblock
    simp only [List.mem_append, List.mem_cons] at hblock ⊢
    tauto
  refine ⟨h.without id bytes, by rw [Heap.release, hlive, Option.map_some], ?_⟩
  constructor
  case live =>
    intro other n
    by_cases ho : other = id
    · subst ho
      have hnone : ∀ m, (other, m) ∉ before ++ after := by
        intro m hm
        exact hnodup.1 (List.mem_map.mpr ⟨_, hm, rfl⟩)
      simp [without, hbase, hnone n]
    · simp only [without, Function.update_of_ne ho, hh.live, List.mem_append, List.mem_cons, Prod.mk.injEq, ho, false_and,
        false_or]
  case size =>
    simp only [without, hh.size, List.map_append, List.map_cons, List.sum_append, List.sum_cons]
    omega
  case next => exact hh.next
  case nodup => exact hnodup.2
  case above => exact fun block hblock => hh.above block (hsub block hblock)
  case pos => exact fun block hblock => hh.pos block (hsub block hblock)

theorem eq_nil_iff (hh : Holds base held h) : h.size = base.size ↔ held = [] := by
  constructor
  · intro hsize
    have hsum : (held.map Prod.snd).sum = 0 := by
      have := hh.size
      omega
    cases held with
    | nil => rfl
    | cons block held =>
      have := hh.pos block (by simp)
      simp only [List.map_cons, List.sum_cons] at hsum
      omega
  · rintro rfl
    simpa using hh.size

theorem keeps (hh : Holds base held h) {id bytes : ℕ} (hid : base.live id = some bytes) : h.live id = some bytes :=
  (hh.live id bytes).mpr (Or.inl hid)

end Holds

end Heap

end Tefs
