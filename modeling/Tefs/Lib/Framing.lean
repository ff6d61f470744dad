import Tefs.Lib.Wire

/-! # Messages in a stream

The messages of a stream lie in it one after the other. `arrived ms n` are the ones that are complete when
`n` elements of the stream have come; what is left of those `n` is a proper part of the next message.
-/

namespace Tefs.Framing
open Wire
set_option autoImplicit false

section Arrived
variable {α : Type*}

def arrived : List (List α) → ℕ → List (List α)
  | [], _ => []
  | m :: ms, n => if m.length ≤ n then m :: arrived ms (n - m.length) else []

theorem arrived_isPrefix (ms : List (List α)) (n : ℕ) : arrived ms n <+: ms := by
  induction ms generalizing n with
  | nil => exact List.prefix_refl _
  | cons m ms ih =>
    rw [arrived]
    split
    · exact List.cons_prefix_cons.2 ⟨rfl, ih _⟩
    · exact List.nil_prefix

theorem arrived_append {pre : List (List α)} (rest : List (List α)) {n : ℕ} (h : pre.flatten.length ≤ n) :
    arrived (pre ++ rest) n = pre ++ arrived rest (n - pre.flatten.length) := by
  induction pre generalizing n with
  | nil => rfl
  | cons m ms ih =>
    rw [List.flatten_cons, List.length_append] at h ⊢
    rw [List.cons_append, arrived, if_pos (by omega), ih (by omega), Nat.sub_sub, List.cons_append]

/-- The first `n` elements are the messages that arrived and a proper part of the next one. -/
theorem take_flatten (ms : List (List α)) (n : ℕ) :
    ∃ rest, ms = arrived ms n ++ rest ∧ (arrived ms n).flatten.length ≤ n ∧
      ms.flatten.take n = (arrived ms n).flatten ++ rest.flatten.take (n - (arrived ms n).flatten.length) ∧
      ∀ m later, rest = m :: later → n - (arrived ms n).flatten.length < m.length := by
  induction ms generalizing n with
  | nil => exact ⟨[], rfl, Nat.zero_le n, by simp [arrived], fun m later h => by cases h⟩
  | cons m ms ih =>
    rw [arrived]
    by_cases hle : m.length ≤ n
    · obtain ⟨rest, hms, hlen, htake, hnext⟩ := ih (n - m.length)
      have hsub : n - (m.length + (arrived ms (n - m.length)).flatten.length) =
          n - m.length - (arrived ms (n - m.length)).flatten.length := by omega
      simp only [if_pos hle, List.flatten_cons, List.length_append, hsub]
      refine ⟨rest, ?_, by omega, ?_, hnext⟩
      · rw [List.cons_append, ← hms]
      · rw [List.take_append, List.take_of_length_le hle, htake, List.append_assoc]
    · simp only [if_neg hle]
      refine ⟨m :: ms, rfl, Nat.zero_le n, rfl, fun m' later h => ?_⟩
      cases h
      exact Nat.lt_of_not_le hle

end Arrived

/-! ## Bytes of a buffer -/

theorem lay_of_lt (data : ℤ → BitVec 8) {pos q : ℤ} (ps : List (Option (BitVec 8))) (h : q < pos) :
    lay data pos ps q = data q :=
  if_neg (by omega)

theorem bytesAt_congr {data mem : ℤ → BitVec 8} {pos : ℤ} {n : ℕ}
    (h : ∀ q, pos ≤ q → q < pos + n → data q = mem q) : bytesAt data pos n = bytesAt mem pos n := by
  apply List.map_congr_left
  intro i hi
  rw [List.mem_range] at hi
  exact h _ (by omega) (by omega)

theorem lay_of_ge (data : ℤ → BitVec 8) {pos q : ℤ} (ps : List (Option (BitVec 8))) (h : pos + ps.length ≤ q) :
    lay data pos ps q = data q := by
  rw [lay, if_pos (by omega), List.getElem?_eq_none (by omega), Option.join_none, Option.getD_none]

theorem lay_bytesAt (data : ℤ → BitVec 8) (pos : ℤ) (n : ℕ) :
    lay data pos ((bytesAt data pos n).map some) = data := by
  funext q
  by_cases hbefore : q < pos
  · exact lay_of_lt _ _ hbefore
  · by_cases hin : q < pos + n
    · have hidx : pos + ((q - pos).toNat : ℤ) = q := by omega
      have hget : ((bytesAt data pos n).map some)[(q - pos).toNat]? = some (some (data q)) := by
        rw [List.getElem?_map, bytesAt, List.getElem?_map, List.getElem?_range (by omega), Option.map_some,
          Option.map_some, hidx]
      rw [lay, if_pos (by omega), hget, Option.join_some, Option.getD_some]
    · exact lay_of_ge _ _ (by rw [List.length_map, bytesAt_length]; omega)

theorem bytesAt_drop (data : ℤ → BitVec 8) (pos : ℤ) (n k : ℕ) :
    (bytesAt data pos n).drop k = bytesAt data (pos + k) (n - k) := by
  by_cases hk : k ≤ n
  · obtain ⟨m, rfl⟩ : ∃ m, n = k + m := ⟨n - k, by omega⟩
    have hlen : (bytesAt data pos k).length = k := bytesAt_length _ _ _
    have hdrop : (bytesAt data pos (k + m)).drop (bytesAt data pos k).length = bytesAt data (pos + k) m := by
      rw [bytesAt_add, List.drop_left]
    rw [hlen] at hdrop
    rw [hdrop, Nat.add_sub_cancel_left]
  · have hzero : n - k = 0 := by omega
    rw [List.drop_eq_nil_of_le (by rw [bytesAt_length]; omega), hzero]
    rfl

/-- What is laid on the bytes of a buffer leaves those behind it. -/
theorem bytesAt_lay_over (data : ℤ → BitVec 8) (pos : ℤ) (n : ℕ) (bs : List (BitVec 8)) :
    bytesAt (lay data pos (bs.map some)) pos n = (bs ++ (bytesAt data pos n).drop bs.length).take n := by
  have hbs := bytesAt_of_holds (holds_lay data pos (bs.map some))
  by_cases hn : bs.length ≤ n
  · obtain ⟨m, rfl⟩ : ∃ m, n = bs.length + m := ⟨n - bs.length, by omega⟩
    have hback : bytesAt (lay data pos (bs.map some)) (pos + bs.length) m = bytesAt data (pos + bs.length) m :=
      bytesAt_congr fun q hq _ => lay_of_ge data _ (by rw [List.length_map]; omega)
    rw [bytesAt_add, hbs, hback, bytesAt_drop, Nat.add_sub_cancel_left, List.take_of_length_le]
    exact Nat.le_of_eq (by rw [List.length_append, bytesAt_length])
  · obtain ⟨m, hm⟩ : ∃ m, bs.length = n + m := ⟨bs.length - n, by omega⟩
    rw [hm, bytesAt_add] at hbs
    have hnone : (bytesAt data pos n).drop bs.length = [] :=
      List.drop_eq_nil_of_le (by rw [bytesAt_length]; omega)
    rw [hnone, List.append_nil]
    conv_rhs => rw [← hbs]
    rw [List.take_left' (bytesAt_length _ _ _)]

/-- What is laid behind the bytes of a buffer comes behind them. -/
theorem bytesAt_lay_behind (data : ℤ → BitVec 8) (hd : ℤ) (n : ℕ) (bs : List (BitVec 8)) :
    bytesAt (lay data (hd + n) (bs.map some)) hd (n + bs.length) = bytesAt data hd n ++ bs := by
  rw [bytesAt_add, bytesAt_of_holds (holds_lay data (hd + n) (bs.map some))]
  exact congrArg (· ++ bs) (bytesAt_congr fun q _ hq => lay_of_lt data _ hq)

theorem bytesAt_append {data : ℤ → BitVec 8} {pos : ℤ} {n : ℕ} {as bs : List (BitVec 8)}
    (h : bytesAt data pos n = as ++ bs) :
    bytesAt data pos as.length = as ∧ bytesAt data (pos + as.length) bs.length = bs := by
  have hlen : n = as.length + bs.length := by
    rw [← List.length_append, ← h, bytesAt_length]
  rw [hlen, bytesAt_add] at h
  exact List.append_inj h (bytesAt_length _ _ _)

end Tefs.Framing
