import Mathlib.Data.List.Count
import Mathlib.Data.List.Nodup
import Mathlib.Data.List.Perm.Basic

/-! # Lists of rows with a key column

A table is a list of rows in which a key column has no duplicates. Changing the one row that has a
given key, or deleting it, is a change at one place of the list, and counts follow.
-/

namespace Tefs.KeyedList
set_option autoImplicit false

variable {α κ : Type*} {key : α → κ} {l : List α} {r : α}

theorem eq_of_key_eq (hk : (l.map key).Nodup) {a b : α} (ha : a ∈ l) (hb : b ∈ l)
    (h : key a = key b) : a = b :=
  List.inj_on_of_nodup_map hk ha hb h

/-- A row splits its table, and no row on either side has its key. -/
theorem exists_split (hk : (l.map key).Nodup) (hr : r ∈ l) :
    ∃ l₁ l₂, l = l₁ ++ r :: l₂ ∧ (∀ q ∈ l₁, key q ≠ key r) ∧ ∀ q ∈ l₂, key q ≠ key r := by
  obtain ⟨l₁, l₂, rfl⟩ := List.append_of_mem hr
  refine ⟨l₁, l₂, rfl, ?_, ?_⟩
  · intro q hq he
    rw [List.map_append, List.map_cons, List.nodup_append] at hk
    exact hk.2.2 (key q) (List.mem_map_of_mem hq) (key r) (by simp) he
  · intro q hq he
    rw [List.map_append, List.map_cons, List.nodup_append, List.nodup_cons] at hk
    exact hk.2.1.1 (he ▸ List.mem_map_of_mem hq)

variable [DecidableEq κ]

theorem map_ite_of_ne (k : κ) (f : α → α) (h : ∀ q ∈ l, key q ≠ k) :
    l.map (fun q => if key q = k then f q else q) = l := by
  conv_rhs => rw [← List.map_id l]
  apply List.map_congr_left
  intro q hq
  simp [h q hq]

theorem map_ite_split (hk : (l.map key).Nodup) (hr : r ∈ l) (f : α → α) :
    ∃ l₁ l₂, l = l₁ ++ r :: l₂ ∧
      l.map (fun q => if key q = key r then f q else q) = l₁ ++ f r :: l₂ := by
  obtain ⟨l₁, l₂, rfl, h₁, h₂⟩ := exists_split hk hr
  refine ⟨l₁, l₂, rfl, ?_⟩
  rw [List.map_append, List.map_cons, map_ite_of_ne _ f h₁, map_ite_of_ne _ f h₂]
  simp

/-- The count after changing one row, without subtraction. -/
theorem countP_map_ite (hk : (l.map key).Nodup) (hr : r ∈ l) (f : α → α) (p : α → Bool) :
    (l.map fun q => if key q = key r then f q else q).countP p + (if p r then 1 else 0) =
      l.countP p + (if p (f r) then 1 else 0) := by
  obtain ⟨l₁, l₂, rfl, h⟩ := map_ite_split hk hr f
  rw [h]
  simp only [List.countP_append, List.countP_cons]
  omega

theorem filter_key_eq (hk : (l.map key).Nodup) (k : κ) :
    l.filter (fun q => key q = k) = [] ∨
      ∃ r ∈ l, key r = k ∧ l.filter (fun q => key q = k) = [r] := by
  by_cases h : ∃ r ∈ l, key r = k
  · obtain ⟨r, hr, rfl⟩ := h
    refine Or.inr ⟨r, hr, rfl, ?_⟩
    obtain ⟨l₁, l₂, rfl, h₁, h₂⟩ := exists_split hk hr
    have e₁ : l₁.filter (fun q => decide (key q = key r)) = [] := by
      simpa [List.filter_eq_nil_iff] using h₁
    have e₂ : l₂.filter (fun q => decide (key q = key r)) = [] := by
      simpa [List.filter_eq_nil_iff] using h₂
    simp [List.filter_append, e₁, e₂]
  · refine Or.inl (List.filter_eq_nil_iff.mpr ?_)
    intro q hq
    simpa using fun he => h ⟨q, hq, he⟩

end Tefs.KeyedList
