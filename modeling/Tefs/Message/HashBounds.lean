import Tefs.Message.ProxyWire

/-! # Where a decoded hash is written

Source: `gvfs_hextoi` of `gvfsproxy/src/core/gvfs_string.c`, for any destination length and any text.

A byte is written when the character behind its two digits comes, or at the end of the text. `len` goes down with each
complete byte, also from 0, where it becomes the largest `size_t`.
-/

namespace Tefs.Message
set_option autoImplicit false

/-- The bytes that are written are those of the destination, and depend on its digits only. -/
structure InBounds (len : BitVec 64) (line : List (BitVec 8)) : Prop where
  inside : (hextoi len.toNat line).length ≤ len.toNat
  digits : ∀ line', line'.take (2 * len.toNat) = line.take (2 * len.toNat) →
    (hextoi len.toNat line').take len.toNat = (hextoi len.toNat line).take len.toNat

/-! ## One character -/

/-- `value` after a character -/
def digitAdded (value ch : BitVec 8) : BitVec 8 :=
  match hexValue ch with
  | some digit => value * 16 + digit
  | none => value

/-- The last byte is written behind the loop. -/
def finished (r : List (BitVec 8) × BitVec 8 × ℤ) : List (BitVec 8) := if 0 < r.2.2 then r.1 ++ [r.2.1] else r.1

section

variable {line : List (BitVec 8)} {count : ℕ} (ch value : BitVec 8) (dst : List (BitVec 8))

theorem hextoi_eq (len : ℤ) (line : List (BitVec 8)) : hextoi len line = finished (hextoiLoop line 0 0 len []) := rfl

theorem hextoiLoop_digit (hcount : count ≠ 2) (len : ℤ) : hextoiLoop (ch :: line) count value len dst =
    hextoiLoop line (count + 1) (digitAdded value ch) len dst := by
  rw [hextoiLoop]
  simp only [hcount, false_and, if_false]
  rfl

theorem hextoiLoop_flush {len : ℕ} (hmax : len < 2 ^ 64) : hextoiLoop (ch :: line) 2 value (len + 1 : ℕ) dst =
    hextoiLoop line 1 (digitAdded 0 ch) len (dst ++ [value]) := by
  have hpos : (0 : ℤ) < (len + 1 : ℕ) := by omega
  have hless : ((len + 1 : ℕ) - 1 : ℤ) % 2 ^ 64 = len := by
    rw [Nat.cast_add, Nat.cast_one, Int.add_sub_cancel]
    exact Int.emod_eq_of_lt (by omega) (by omega)
  rw [hextoiLoop]
  simp only [hpos, and_self, if_true, hless]
  rfl

/-- Nothing is left, and `len` wraps. -/
theorem hextoiLoop_wrap : hextoiLoop (ch :: line) 2 value (0 : ℕ) dst =
    hextoiLoop line 1 (digitAdded 0 ch) (2 ^ 64 - 1 : ℕ) dst := by
  rfl

/-! ## How much is written -/

/-- While the destination lasts, a byte is written for each two characters and one at the end. -/
theorem finished_length {len : ℕ} (hmax : len < 2 ^ 64) (hcount : count ≤ 2)
    (hlast : (count + line.length - 1) / 2 ≤ len) :
    (finished (hextoiLoop line count value len dst)).length =
      dst.length + min len ((count + line.length - 1) / 2 + 1) := by
  induction line generalizing count value dst len with
  | nil =>
    rw [hextoiLoop, finished]
    dsimp only
    rw [List.length_nil] at hlast ⊢
    have hzero : (count + 0 - 1) / 2 = 0 := by omega
    split
    · rw [List.length_append, List.length_singleton]
      omega
    · omega
  | cons ch line ih =>
    rw [List.length_cons] at hlast ⊢
    by_cases hflush : count = 2
    · subst hflush
      obtain ⟨len, rfl⟩ : ∃ n, len = n + 1 := ⟨len - 1, by omega⟩
      rw [hextoiLoop_flush ch value dst (by omega), ih _ _ (by omega) (by omega) (by omega), List.length_append,
        List.length_singleton]
      omega
    · rw [hextoiLoop_digit ch value dst hflush, ih _ _ hmax (by omega) (by omega)]
      omega

/-- Behind the destination the next byte is written too. -/
theorem finished_length_of_long {len : ℕ} (hmax : len < 2 ^ 64) (hcount : count ≤ 2)
    (hlong : len < (count + line.length - 1) / 2) :
    dst.length + len < (finished (hextoiLoop line count value len dst)).length := by
  induction line generalizing count value dst len with
  | nil =>
    rw [List.length_nil] at hlong
    omega
  | cons ch line ih =>
    rw [List.length_cons] at hlong
    by_cases hflush : count = 2
    · subst hflush
      cases len with
      | zero =>
        rw [hextoiLoop_wrap]
        by_cases hlast : (1 + line.length - 1) / 2 ≤ 2 ^ 64 - 1
        · rw [finished_length _ _ (by decide) (by decide) hlast]
          omega
        · have hmore := ih (digitAdded 0 ch) dst (by decide) (by decide) (Nat.not_le.mp hlast)
          omega
      | succ len =>
        have hmore := ih (digitAdded 0 ch) (dst ++ [value]) (by omega) (by decide)
          (show len < (1 + line.length - 1) / 2 by omega)
        rw [hextoiLoop_flush ch value dst (by omega)]
        rw [List.length_append, List.length_singleton] at hmore
        omega
    · rw [hextoiLoop_digit ch value dst hflush]
      exact ih _ _ hmax (by omega) (by omega)

/-! ## What is written -/

theorem dst_prefix_finished (len : ℤ) : dst <+: finished (hextoiLoop line count value len dst) := by
  induction line generalizing count value len dst with
  | nil =>
    rw [hextoiLoop, finished]
    dsimp only
    split
    · exact List.prefix_append dst [value]
    · exact List.prefix_rfl
  | cons ch line ih =>
    rw [hextoiLoop]
    apply List.IsPrefix.trans _ (ih _ _ _)
    split
    · exact List.prefix_append dst [value]
    · exact List.prefix_rfl

/-- A byte is complete, and as many others are left as `digits` spells: what follows does not matter. -/
theorem exists_prefix_finished {len : ℕ} (hmax : len + 1 < 2 ^ 64) {digits : List (BitVec 8)}
    (hdigits : digits.length = 2 * len) : ∃ bytes, bytes.length = dst.length + len + 1 ∧
      ∀ rest, bytes <+: finished (hextoiLoop (digits ++ rest) 2 value (len + 1 : ℕ) dst) := by
  induction len generalizing digits value dst with
  | zero =>
    obtain rfl := List.eq_nil_of_length_eq_zero hdigits
    refine ⟨dst ++ [value], by simp, fun rest => ?_⟩
    cases rest with
    | nil => exact List.prefix_rfl
    | cons ch rest =>
      rw [List.nil_append, hextoiLoop_flush ch value dst (by decide)]
      exact dst_prefix_finished _ _ _
  | succ len ih =>
    obtain ⟨c, d, digits, rfl⟩ : ∃ c d rest, digits = c :: d :: rest := by
      match digits, hdigits with
      | c :: d :: rest, _ => exact ⟨c, d, rest, rfl⟩
    obtain ⟨bytes, hlen, hbytes⟩ := ih (digitAdded (digitAdded 0 c) d) (dst ++ [value]) (by omega)
      (show digits.length = 2 * len by simpa [Nat.mul_succ] using hdigits)
    refine ⟨bytes, by rw [hlen, List.length_append, List.length_singleton]; omega, fun rest => ?_⟩
    rw [List.cons_append, List.cons_append, hextoiLoop_flush c value dst (by omega), hextoiLoop_digit d _ _ (by decide)]
    exact hbytes rest

end

/-- The digits of the destination decide on its bytes. -/
theorem take_hextoi (len : BitVec 64) {digits : List (BitVec 8)} (hdigits : digits.length = 2 * len.toNat)
    (rest rest' : List (BitVec 8)) :
    (hextoi len.toNat (digits ++ rest)).take len.toNat = (hextoi len.toNat (digits ++ rest')).take len.toNat := by
  have hmax := len.isLt
  generalize len.toNat = n at hdigits hmax ⊢
  cases n with
  | zero => rfl
  | succ n =>
    obtain ⟨c, d, digits, rfl⟩ : ∃ c d rest, digits = c :: d :: rest := by
      match digits, hdigits with
      | c :: d :: rest, _ => exact ⟨c, d, rest, rfl⟩
    have hfirst : ∀ rest, hextoi (n + 1 : ℕ) (c :: d :: digits ++ rest) =
        finished (hextoiLoop (digits ++ rest) 2 (digitAdded (digitAdded 0 c) d) (n + 1 : ℕ) []) := by
      intro rest
      rw [hextoi_eq, List.cons_append, List.cons_append, hextoiLoop_digit c _ _ (by decide),
        hextoiLoop_digit d _ _ (by decide)]
    obtain ⟨bytes, hlen, hbytes⟩ := exists_prefix_finished (digitAdded (digitAdded 0 c) d) [] hmax
      (show digits.length = 2 * n by simpa [Nat.mul_succ] using hdigits)
    have htake : ∀ rest, (hextoi (n + 1 : ℕ) (c :: d :: digits ++ rest)).take (n + 1) = bytes := by
      intro rest
      have heq := List.prefix_iff_eq_take.mp (hbytes rest)
      rw [hlen, List.length_nil, Nat.zero_add] at heq
      rw [hfirst, heq]
    rw [htake, htake]

theorem hextoi_length_iff (len : BitVec 64) (line : List (BitVec 8)) :
    (hextoi len.toNat line).length ≤ len.toNat ↔ line.length ≤ 2 * len.toNat + 2 := by
  have hmax := len.isLt
  rw [hextoi_eq]
  by_cases hlast : (0 + line.length - 1) / 2 ≤ len.toNat
  · rw [finished_length 0 [] hmax (by decide) hlast, List.length_nil]
    omega
  · have hlong := finished_length_of_long 0 [] hmax (by decide) (Nat.not_le.mp hlast)
    rw [List.length_nil] at hlong
    omega

/-- Two characters more than the digits of the destination are harmless, the third writes behind it. -/
theorem inBounds_iff_short (len : BitVec 64) (line : List (BitVec 8)) :
    InBounds len line ↔ line.length ≤ 2 * len.toNat + 2 := by
  rw [← hextoi_length_iff]
  constructor
  · exact InBounds.inside
  · intro hinside
    refine ⟨hinside, fun line' htake => ?_⟩
    by_cases hlen : line.length < 2 * len.toNat
    · have hline : line' = line := by
        have hlength := congrArg List.length htake
        rw [List.length_take, List.length_take] at hlength
        rwa [List.take_of_length_le (by omega), List.take_of_length_le (by omega)] at htake
      rw [hline]
    · have hdigits : (line.take (2 * len.toNat)).length = 2 * len.toNat := by
        rw [List.length_take]
        omega
      have hsame := take_hextoi len hdigits (line'.drop (2 * len.toNat)) (line.drop (2 * len.toNat))
      rwa [List.take_append_drop, ← htake, List.take_append_drop] at hsame

/-- A hash of 35 digits, as the proxy accepts it, is written to the byte behind the 16 of `file_hash`. -/
theorem long_hash_out_of_bounds : (hextoi 16 (List.replicate 35 48)).length = 17 ∧
    ¬ InBounds 16 (List.replicate 35 48) := by
  have hlen : (hextoi 16 (List.replicate 35 48)).length = 17 := by decide
  refine ⟨hlen, fun h => ?_⟩
  have hinside : 17 ≤ 16 := hlen ▸ h.inside
  exact absurd hinside (by decide)

end Tefs.Message
