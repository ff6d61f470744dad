import Mathlib.Data.Int.Notation
import Mathlib.Data.List.Basic
import Mathlib.Data.List.Induction

/-! # Runs of bytes laid into a flat array

A segment is a run of bytes with the position of its first byte. Segments laid one behind the other from
`p` on fill exactly the positions from `p` to the end of the last one, with their bytes in order.
-/

namespace Tefs.Segments
set_option autoImplicit false

variable {β : Type*}

structure Segment (β : Type*) where
  offset : ℤ
  data : List β
  deriving DecidableEq, Repr

def Segment.Covers (s : Segment β) (q : ℤ) : Prop := s.offset ≤ q ∧ q < s.offset + s.data.length

instance (s : Segment β) (q : ℤ) : Decidable (s.Covers q) := inferInstanceAs (Decidable (_ ∧ _))

def bytes (ss : List (Segment β)) : List β := ss.flatMap Segment.data

/-- Each segment begins where the one before it ended, the first at `p`. -/
def Consecutive : ℤ → List (Segment β) → Prop
  | _, [] => True
  | p, s :: ss => s.offset = p ∧ Consecutive (p + s.data.length) ss

def Segment.lay (m : ℤ → β) (s : Segment β) : ℤ → β := fun q =>
  if s.Covers q then s.data.getD (q - s.offset).toNat (m q) else m q

@[simp] theorem bytes_nil : bytes ([] : List (Segment β)) = [] := rfl

@[simp] theorem bytes_concat (ss : List (Segment β)) (s : Segment β) :
    bytes (ss ++ [s]) = bytes ss ++ s.data := by
  simp only [bytes, List.flatMap_append, List.flatMap_cons, List.flatMap_nil, List.append_nil]

theorem consecutive_concat (p : ℤ) (ss : List (Segment β)) (s : Segment β) :
    Consecutive p (ss ++ [s]) ↔ Consecutive p ss ∧ s.offset = p + (bytes ss).length := by
  induction ss generalizing p with
  | nil => simp [Consecutive]
  | cons first ss ih =>
    have hlen : (bytes (first :: ss)).length = first.data.length + (bytes ss).length := by
      rw [bytes, List.flatMap_cons, List.length_append, bytes]
    rw [List.cons_append, Consecutive, Consecutive, ih, hlen]
    constructor
    · rintro ⟨hfirst, hss, hs⟩
      exact ⟨⟨hfirst, hss⟩, by omega⟩
    · rintro ⟨⟨hfirst, hss⟩, hs⟩
      exact ⟨hfirst, hss, by omega⟩

/-- Consecutive segments stay between their first and their last position. -/
theorem Consecutive.covers {p : ℤ} {ss : List (Segment β)} (h : Consecutive p ss) {s : Segment β}
    (hs : s ∈ ss) {q : ℤ} (hq : s.Covers q) : p ≤ q ∧ q < p + (bytes ss).length := by
  induction ss using List.reverseRecOn with
  | nil => cases hs
  | append_singleton ss last ih =>
    obtain ⟨hss, hoff⟩ := (consecutive_concat p ss last).1 h
    rw [bytes_concat, List.length_append]
    rcases List.mem_append.1 hs with hmem | hmem
    · have := ih hss hmem
      omega
    · rw [List.mem_singleton.1 hmem] at hq
      have := hq.1
      have := hq.2
      omega

/-- Laid over any array, consecutive segments leave their bytes there. -/
theorem Consecutive.foldl_lay {p : ℤ} {ss : List (Segment β)} (h : Consecutive p ss) (m : ℤ → β)
    (i : ℕ) (hi : i < (bytes ss).length) :
    some (ss.foldl Segment.lay m (p + i)) = (bytes ss)[i]? := by
  induction ss using List.reverseRecOn with
  | nil => exact absurd hi (Nat.not_lt_zero i)
  | append_singleton ss last ih =>
    obtain ⟨hss, hoff⟩ := (consecutive_concat p ss last).1 h
    rw [bytes_concat, List.length_append] at hi
    rw [List.foldl_append, List.foldl_cons, List.foldl_nil, bytes_concat, Segment.lay]
    by_cases hlt : i < (bytes ss).length
    · -- the last segment lies behind position `i`
      have hno : ¬ last.Covers (p + i) := fun hc => by
        have := hc.1
        omega
      rw [if_neg hno, List.getElem?_append_left hlt]
      exact ih hss hlt
    · have hc : last.Covers (p + i) := ⟨by omega, by omega⟩
      have hidx : (p + (i : ℤ) - last.offset).toNat = i - (bytes ss).length := by omega
      have hlast : i - (bytes ss).length < last.data.length := by omega
      rw [if_pos hc, hidx, List.getElem?_append_right (Nat.le_of_not_lt hlt), List.getD_eq_getElem?_getD,
        List.getElem?_eq_getElem hlast, Option.getD_some]

/-- A position no segment covers keeps its byte. -/
theorem foldl_lay_of_not_covers (ss : List (Segment β)) (m : ℤ → β) {q : ℤ}
    (h : ∀ s ∈ ss, ¬ s.Covers q) : ss.foldl Segment.lay m q = m q := by
  induction ss generalizing m with
  | nil => rfl
  | cons s ss ih =>
    rw [List.foldl_cons, ih _ fun s' hs' => h s' (List.mem_cons_of_mem s hs'), Segment.lay,
      if_neg (h s List.mem_cons_self)]

/-! ## Other bytes -/

section Map

variable {γ : Type*} (f : β → γ)

def Segment.map (s : Segment β) : Segment γ := ⟨s.offset, s.data.map f⟩

theorem Segment.covers_map {s : Segment β} {q : ℤ} : (s.map f).Covers q ↔ s.Covers q := by
  simp only [Covers, map, List.length_map]

theorem bytes_map (ss : List (Segment β)) : bytes (ss.map (Segment.map f)) = (bytes ss).map f := by
  simp only [bytes, List.flatMap_map, List.map_flatMap]
  rfl

theorem Consecutive.map {p : ℤ} {ss : List (Segment β)} (h : Consecutive p ss) :
    Consecutive p (ss.map (Segment.map f)) := by
  induction ss generalizing p with
  | nil => exact h
  | cons s ss ih =>
    refine ⟨h.1, ?_⟩
    rw [Segment.map, List.length_map]
    exact ih h.2

end Map

end Tefs.Segments
