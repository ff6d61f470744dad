import Mathlib.Algebra.Order.BigOperators.Group.List
import Mathlib.Algebra.Ring.Int.Defs
import Mathlib.Data.List.Nodup

/-! # One array in several places

A list of places, each with room for so many bytes, holds one array: its bytes lie in the first place, then in the
second one, and so on. `locate` says where byte `q` lies; behind the end it is nowhere.
-/

namespace Tefs.Extents
set_option autoImplicit false

variable {α : Type*} {len len' : α → ℤ} {x : α} {xs : List α} {o q q' : ℤ}

def total (len : α → ℤ) (xs : List α) : ℤ := (xs.map len).sum

/-- The place, and the position in it -/
def locate (len : α → ℤ) : List α → ℤ → Option (α × ℤ)
  | [], _ => none
  | x :: xs, q => if q < len x then some (x, q) else locate len xs (q - len x)

@[simp] theorem total_nil (len : α → ℤ) : total len [] = 0 := rfl

@[simp] theorem total_cons (len : α → ℤ) (x : α) (xs : List α) : total len (x :: xs) = len x + total len xs :=
  List.sum_cons

theorem total_nonneg (hpos : ∀ x ∈ xs, 0 < len x) : 0 ≤ total len xs := by
  apply List.sum_nonneg
  intro n hn
  obtain ⟨x, hx, rfl⟩ := List.mem_map.mp hn
  exact (hpos x hx).le

theorem locate_congr (h : ∀ x ∈ xs, len' x = len x) (q : ℤ) : locate len' xs q = locate len xs q := by
  induction xs generalizing q with
  | nil => rfl
  | cons x xs ih => simp only [locate, h x List.mem_cons_self, ih fun y hy => h y (List.mem_cons_of_mem x hy)]

theorem of_locate (hq : 0 ≤ q) (h : locate len xs q = some (x, o)) : x ∈ xs ∧ 0 ≤ o ∧ o < len x := by
  induction xs generalizing q with
  | nil => cases h
  | cons y xs ih =>
    rw [locate] at h
    split at h
    · next hlt =>
      cases h
      exact ⟨List.mem_cons_self, hq, hlt⟩
    · obtain ⟨hmem, hinside⟩ := ih (by omega) h
      exact ⟨List.mem_cons_of_mem y hmem, hinside⟩

theorem lt_total_of_locate (hpos : ∀ x ∈ xs, 0 < len x) {p : α × ℤ} (h : locate len xs q = some p) :
    q < total len xs := by
  induction xs generalizing q with
  | nil => cases h
  | cons y xs ih =>
    have hpos' : ∀ x ∈ xs, 0 < len x := fun x hx => hpos x (List.mem_cons_of_mem y hx)
    rw [total_cons]
    rw [locate] at h
    split at h
    · have := total_nonneg hpos'
      omega
    · have := ih hpos' h
      omega

/-- What comes behind does not move what is there. -/
theorem locate_append {p : α × ℤ} (h : locate len xs q = some p) (ys : List α) :
    locate len (xs ++ ys) q = some p := by
  induction xs generalizing q with
  | nil => cases h
  | cons x xs ih =>
    rw [locate] at h
    rw [List.cons_append, locate]
    split
    · next hlt => rwa [if_pos hlt] at h
    · next hge =>
      rw [if_neg hge] at h
      exact ih h

/-- Different bytes lie in different places. -/
theorem locate_inj (hnodup : xs.Nodup) (hq : 0 ≤ q) (hq' : 0 ≤ q') (h : locate len xs q = some (x, o))
    (h' : locate len xs q' = some (x, o)) : q = q' := by
  induction xs generalizing q q' with
  | nil => cases h
  | cons y xs ih =>
    rw [List.nodup_cons] at hnodup
    rw [locate] at h h'
    by_cases hfirst : q < len y
    · rw [if_pos hfirst] at h
      cases h
      by_cases hfirst' : q' < len x
      · rw [if_pos hfirst'] at h'
        exact (Prod.mk.inj (Option.some.inj h')).2.symm
      · rw [if_neg hfirst'] at h'
        exact absurd (of_locate (by omega) h').1 hnodup.1
    · rw [if_neg hfirst] at h
      by_cases hfirst' : q' < len y
      · rw [if_pos hfirst'] at h'
        cases h'
        exact absurd (of_locate (by omega) h).1 hnodup.1
      · rw [if_neg hfirst'] at h'
        have hsame := ih hnodup.2 (by omega) (by omega) h h'
        omega

end Tefs.Extents
