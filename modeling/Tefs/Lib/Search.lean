import Mathlib.Data.List.Infix
import Mathlib.Data.List.TakeWhile

/-! # The first occurrence of a list in another

`search needle buf` is the part of `buf` from the first place on where `needle` stands. To find that place, the text
before it is skipped: none of its suffixes begins an occurrence.
-/

namespace Tefs.Search
set_option autoImplicit false

variable {α : Type*} [DecidableEq α]

def search (needle : List α) : List α → Option (List α)
  | [] => if needle = [] then some [] else none
  | c :: buf => if needle <+: c :: buf then some (c :: buf) else search needle buf

theorem search_of_prefixed {needle buf : List α} (h : needle <+: buf) : search needle buf = some buf := by
  cases buf with
  | nil => exact if_pos (List.prefix_nil.mp h)
  | cons c buf => exact if_pos h

theorem search_cons_of_not_prefixed {needle buf : List α} {c : α} (h : ¬ needle <+: c :: buf) :
    search needle (c :: buf) = search needle buf := if_neg h

theorem prefix_of_search {needle buf p : List α} (h : search needle buf = some p) : needle <+: p ∧ p <:+ buf := by
  induction buf with
  | nil =>
    rw [search] at h
    split at h
    · next hnil =>
      cases h
      exact ⟨hnil ▸ List.nil_prefix, List.suffix_rfl⟩
    · cases h
  | cons c buf ih =>
    by_cases hstarts : needle <+: c :: buf
    · cases (search_of_prefixed hstarts).symm.trans h
      exact ⟨hstarts, List.suffix_rfl⟩
    · rw [search_cons_of_not_prefixed hstarts] at h
      obtain ⟨hneedle, hsuffix⟩ := ih h
      exact ⟨hneedle, hsuffix.trans (List.suffix_cons c buf)⟩

theorem search_isSome {needle buf : List α} (h : needle <:+: buf) : ∃ p, search needle buf = some p := by
  induction buf with
  | nil => exact ⟨[], search_of_prefixed (List.infix_nil.mp h ▸ List.nil_prefix)⟩
  | cons c buf ih =>
    by_cases hstarts : needle <+: c :: buf
    · exact ⟨_, search_of_prefixed hstarts⟩
    · rw [search_cons_of_not_prefixed hstarts]
      exact ih ((List.infix_cons_iff.mp h).resolve_left hstarts)

/-- No suffix of `a` begins an occurrence. -/
def Skips (needle a buf : List α) : Prop := ∀ s, s <:+ a → s ≠ [] → ¬ needle <+: s ++ buf

theorem search_append {needle a buf : List α} (h : Skips needle a buf) : search needle (a ++ buf) = search needle buf := by
  induction a with
  | nil => rfl
  | cons c a ih =>
    have hc : ¬ needle <+: c :: (a ++ buf) := h (c :: a) List.suffix_rfl (List.cons_ne_nil c a)
    rw [List.cons_append, search_cons_of_not_prefixed hc]
    exact ih fun s hs hne => h s (hs.trans (List.suffix_cons c a)) hne

/-! ## Needles that end with a mark -/

variable {mark : α}

theorem takeWhile_append_mark {word rest : List α} (h : mark ∉ word) :
    (word ++ mark :: rest).takeWhile (· ≠ mark) = word := by
  induction word with
  | nil => simp
  | cons c word ih =>
    obtain ⟨hc, hword⟩ := not_or.mp (mt List.mem_cons.mpr h)
    rw [List.cons_append, List.takeWhile_cons, if_pos (by simpa using Ne.symm hc), ih hword]

/-- A word and a mark behind it, at the beginning of a text: the word is all up to the first mark. -/
theorem takeWhile_of_prefixed {word buf : List α} (h : mark ∉ word) (hstarts : word ++ [mark] <+: buf) :
    buf.takeWhile (· ≠ mark) = word := by
  obtain ⟨rest, rfl⟩ := hstarts
  rw [List.append_assoc]
  exact takeWhile_append_mark h

end Tefs.Search
