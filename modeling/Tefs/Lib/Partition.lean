import Mathlib.Data.List.Nodup
import Mathlib.Logic.Equiv.Basic
import Mathlib.Logic.Function.Basic

/-! # Families of lists that split a set

`Partitions own lists`: the lists of the family have no duplicates, no element is in two of them, and
together they hold exactly the elements `own` holds of. The family is changed at one index at a time:
an element that nobody owns is appended, or the list is given up.
-/

namespace Tefs.Partition
set_option autoImplicit false

variable {ι α : Type*}

structure Partitions (own : α → Prop) (lists : ι → List α) : Prop where
  nodup : ∀ i, (lists i).Nodup
  disjoint : ∀ i j a, a ∈ lists i → a ∈ lists j → i = j
  covers : ∀ a, own a ↔ ∃ i, a ∈ lists i

variable {own : α → Prop} {lists : ι → List α}

theorem Partitions.own_of_mem (h : Partitions own lists) {i : ι} {a : α} (ha : a ∈ lists i) :
    own a := (h.covers a).mpr ⟨i, ha⟩

/-- Every element owned is in exactly one list, exactly once. -/
theorem Partitions.existsUnique [DecidableEq α] (h : Partitions own lists) {a : α} (ha : own a) :
    ∃ i, (lists i).count a = 1 ∧ ∀ j, a ∈ lists j → j = i := by
  obtain ⟨i, hi⟩ := (h.covers a).mp ha
  exact ⟨i, List.count_eq_one_of_mem (h.nodup i) hi, fun j hj => h.disjoint j i a hj hi⟩

theorem Partitions.empty : Partitions (fun _ : α => False) (fun _ : ι => ([] : List α)) where
  nodup := by simp
  disjoint := by simp
  covers := by simp

theorem Partitions.congr {own' : α → Prop} {lists' : ι → List α} (h : Partitions own lists)
    (ho : ∀ a, own' a ↔ own a) (hl : ∀ i, lists' i = lists i) : Partitions own' lists' := by
  obtain rfl : lists' = lists := funext hl
  exact ⟨h.nodup, h.disjoint, fun a => (ho a).trans (h.covers a)⟩

variable [DecidableEq ι]

theorem Partitions.snoc (h : Partitions own lists) (i : ι) {a : α} (ha : ¬ own a) :
    Partitions (fun x => x = a ∨ own x) (Function.update lists i (lists i ++ [a])) := by
  have hnot : ∀ j, a ∉ lists j := fun j hj => ha (h.own_of_mem hj)
  have hmem : ∀ j x, x ∈ Function.update lists i (lists i ++ [a]) j ↔
      x ∈ lists j ∨ (j = i ∧ x = a) := by
    intro j x
    by_cases hj : j = i
    · subst hj
      simp
    · simp [hj]
  refine ⟨?_, ?_, ?_⟩
  · intro j
    by_cases hj : j = i
    · subst hj
      simpa [List.nodup_append] using ⟨h.nodup j, fun x hx he => hnot j (he ▸ hx)⟩
    · simpa [hj] using h.nodup j
  · intro j k x hj hk
    rw [hmem] at hj hk
    rcases hj with hj | ⟨hji, hxa⟩
    · rcases hk with hk | ⟨-, hxa⟩
      · exact h.disjoint j k x hj hk
      · exact absurd (hxa ▸ hj) (hnot j)
    · rcases hk with hk | ⟨hki, -⟩
      · exact absurd (hxa ▸ hk) (hnot k)
      · exact hji.trans hki.symm
  · intro x
    simp only [hmem, h.covers x]
    constructor
    · rintro (rfl | ⟨j, hj⟩)
      · exact ⟨i, Or.inr ⟨rfl, rfl⟩⟩
      · exact ⟨j, Or.inl hj⟩
    · rintro ⟨j, hj | ⟨-, rfl⟩⟩
      · exact Or.inr ⟨j, hj⟩
      · exact Or.inl rfl

theorem Partitions.clear (h : Partitions own lists) (i : ι) :
    Partitions (fun x => own x ∧ x ∉ lists i) (Function.update lists i []) := by
  have hmem : ∀ j x, x ∈ Function.update lists i [] j ↔ x ∈ lists j ∧ j ≠ i := by
    intro j x
    by_cases hj : j = i
    · subst hj
      simp
    · simp [hj]
  refine ⟨?_, ?_, ?_⟩
  · intro j
    by_cases hj : j = i
    · subst hj
      simp
    · simpa [hj] using h.nodup j
  · intro j k x hj hk
    exact h.disjoint j k x ((hmem j x).mp hj).1 ((hmem k x).mp hk).1
  · intro x
    simp only [hmem, h.covers x]
    constructor
    · rintro ⟨⟨j, hj⟩, hx⟩
      refine ⟨j, hj, ?_⟩
      rintro rfl
      exact hx hj
    · rintro ⟨j, hj, hne⟩
      exact ⟨⟨j, hj⟩, fun hx => hne (h.disjoint j i x hj hx)⟩

omit [DecidableEq ι] in
theorem Partitions.reindex (h : Partitions own lists) (e : ι ≃ ι) :
    Partitions own fun i => lists (e i) where
  nodup := fun i => h.nodup (e i)
  disjoint := fun i j a hi hj => e.injective (h.disjoint (e i) (e j) a hi hj)
  covers := by
    intro a
    rw [h.covers a]
    constructor
    · rintro ⟨i, hi⟩
      exact ⟨e.symm i, by simpa using hi⟩
    · rintro ⟨i, hi⟩
      exact ⟨e i, hi⟩

end Tefs.Partition
