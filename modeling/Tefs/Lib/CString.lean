import Mathlib.Data.List.Induction
import Mathlib.Data.List.Infix
import Mathlib.Data.List.TakeWhile

/-! # C strings

A text is a list of bytes without a zero, and stands in memory with a zero behind it. Memory that is only read is a
function of the address. A buffer that is written is a list, and an access behind its end gives `none`.
-/

namespace Tefs.CString
set_option autoImplicit false

abbrev Byte := BitVec 8

/-! ## Comparing -/

section Comparing

variable {s : ℕ → Byte} {text : List Byte} {n : ℕ}

def bytes (s : ℕ → Byte) (n : ℕ) : List Byte := (List.range n).map s

theorem bytes_succ (s : ℕ → Byte) (n : ℕ) : bytes s (n + 1) = s 0 :: bytes (fun i => s (i + 1)) n := by
  rw [bytes, List.range_succ_eq_map, List.map_cons, List.map_map]
  rfl

@[simp] theorem bytes_length (s : ℕ → Byte) (n : ℕ) : (bytes s n).length = n := by
  rw [bytes, List.length_map, List.length_range]

/-- A string literal in memory -/
def literal (text : List Byte) : ℕ → Byte := fun i => text.getD i 0

/-- At most `n` bytes are compared, and none behind a zero. -/
def strncmp (s t : ℕ → Byte) : ℕ → ℤ
  | 0 => 0
  | n + 1 =>
    if s 0 ≠ t 0 then (s 0).toNat - (t 0).toNat
    else if s 0 = 0 then 0
    else strncmp (fun i => s (i + 1)) (fun i => t (i + 1)) n

theorem difference_ne_zero {a b : Byte} (h : a ≠ b) : (a.toNat - b.toNat : ℤ) ≠ 0 := by
  intro hzero
  apply h
  apply BitVec.eq_of_toNat_eq
  omega

/-- The bytes are the beginning of the text, or the whole of it with its zero stands at their beginning. -/
theorem strncmp_literal (h : 0 ∉ text) :
    strncmp s (literal text) n = 0 ↔ bytes s n <+: text ∨ text ++ [0] <+: bytes s n := by
  induction n generalizing s text with
  | zero =>
    constructor
    · intro _
      exact .inl List.nil_prefix
    · intro _
      rfl
  | succ n ih =>
    rw [bytes_succ, strncmp]
    cases text with
    | nil =>
      have hzero : literal [] 0 = 0 := rfl
      rw [hzero, List.nil_append, List.prefix_nil, List.cons_prefix_cons]
      by_cases hs : s 0 = 0
      · simp [hs]
      · simp only [ne_eq, hs, not_false_eq_true, if_true, difference_ne_zero hs, List.cons_ne_nil, Ne.symm hs,
          false_and, or_self]
    | cons c text =>
      obtain ⟨hc, htext⟩ := not_or.mp (mt List.mem_cons.mpr h)
      have hhead : literal (c :: text) 0 = c := rfl
      have htail : (fun i => literal (c :: text) (i + 1)) = literal text := rfl
      rw [hhead, htail, List.cons_append, List.cons_prefix_cons, List.cons_prefix_cons]
      by_cases hs : s 0 = c
      · have hne : s 0 ≠ 0 := fun hz => hc (hz.symm.trans hs)
        simp only [ne_eq, hs, not_true_eq_false, if_false, true_and]
        rw [if_neg (hs ▸ hne), ih htext]
      · simp only [ne_eq, hs, not_false_eq_true, if_true, difference_ne_zero hs, Ne.symm hs, false_and, or_self]

end Comparing

/-! ## Buffers -/

section Buffers

variable {α : Type*}

/-- `buf[i] = c` -/
def store (buf : List α) (i : ℕ) (c : α) : Option (List α) := if i < buf.length then some (buf.set i c) else none

/-- The bytes are copied to `buf + pos`. -/
def storeAll (buf : List α) (pos : ℕ) (bs : List α) : Option (List α) :=
  if pos + bs.length ≤ buf.length then some (buf.take pos ++ bs ++ buf.drop (pos + bs.length)) else none

theorem store_append (a b : List α) (c d : α) : store (a ++ c :: b) a.length d = some (a ++ d :: b) := by
  rw [store, if_pos (by simp), List.set_append_right _ _ le_rfl, Nat.sub_self, List.set_cons_zero]

theorem getElem?_append_cons (a b : List α) (c : α) : (a ++ c :: b)[a.length]? = some c := by
  rw [List.getElem?_append_right le_rfl, Nat.sub_self, List.getElem?_cons_zero]

theorem storeAll_append {a b bs : List α} (h : bs.length ≤ b.length) :
    storeAll (a ++ b) a.length bs = some (a ++ (bs ++ b.drop bs.length)) := by
  have hdrop : (a ++ b).drop (a.length + bs.length) = b.drop bs.length := by
    rw [List.drop_append, List.drop_eq_nil_of_le (by omega), List.nil_append, Nat.add_sub_cancel_left]
  rw [storeAll, if_pos (by simpa using h), List.take_left, hdrop, List.append_assoc]

/-! ### Reversing in place -/

def swap (buf : List α) (i j : ℕ) : Option (List α) := do
  let x ← buf[i]?
  let y ← buf[j]?
  let buf ← store buf i y
  store buf j x

/-- `for (j = 0; j <= (n - 1) / 2; j++)`, from `j` on, with the number of turns that are left: the entry `j` is swapped with
the entry `n - 1 - j`. -/
def reverseLoop (n : ℕ) : ℕ → ℕ → List α → Option (List α)
  | 0, _, buf => some buf
  | left + 1, j, buf => do
    let buf ← swap buf j (n - 1 - j)
    reverseLoop n left (j + 1) buf

theorem swap_ends (a mid b : List α) (x y : α) :
    swap (a ++ x :: (mid ++ y :: b)) a.length (a.length + mid.length + 1) = some (a ++ y :: (mid ++ x :: b)) := by
  have hfront : ∀ z : α, a ++ z :: (mid ++ y :: b) = (a ++ z :: mid) ++ y :: b := fun z => by simp
  have hlen : ∀ z : α, a.length + mid.length + 1 = (a ++ z :: mid).length := fun z => by
    simp only [List.length_append, List.length_cons]
    omega
  have hlast : (a ++ x :: (mid ++ y :: b))[a.length + mid.length + 1]? = some y := by
    rw [hfront x, hlen x, getElem?_append_cons]
  have hsecond : store (a ++ y :: (mid ++ y :: b)) (a.length + mid.length + 1) x = some (a ++ y :: (mid ++ x :: b)) := by
    rw [hfront y, hlen y, store_append]
    simp
  rw [swap, getElem?_append_cons, hlast]
  dsimp only [Option.bind_eq_bind, Option.bind_some]
  rw [store_append]
  exact hsecond

theorem swap_same (a b : List α) (x : α) : swap (a ++ x :: b) a.length a.length = some (a ++ x :: b) := by
  rw [swap, getElem?_append_cons]
  dsimp only [Option.bind_eq_bind, Option.bind_some]
  rw [store_append]
  exact store_append a b x x

/-- What lies between two ends of the same length is reversed. -/
theorem reverseLoop_eq {n : ℕ} (mid a b : List α) (hn : n = 2 * a.length + mid.length) :
    reverseLoop n ((mid.length + 1) / 2) a.length (a ++ (mid ++ b)) = some (a ++ (mid.reverse ++ b)) := by
  induction mid using List.bidirectionalRec generalizing a b with
  | nil => simp [reverseLoop]
  | singleton x =>
    have hturns : ([x].length + 1) / 2 = 0 + 1 := by simp
    have hsame : n - 1 - a.length = a.length := by
      rw [hn, List.length_singleton]
      omega
    rw [hturns, reverseLoop, hsame, List.singleton_append, swap_same]
    rfl
  | cons_append x mid y ih =>
    have hlen : (x :: (mid ++ [y])).length = mid.length + 2 := by simp
    have hturns : (mid.length + 2 + 1) / 2 = (mid.length + 1) / 2 + 1 := by omega
    have hother : n - 1 - a.length = a.length + mid.length + 1 := by omega
    have hrest := ih (a ++ [y]) (x :: b) (by simp only [List.length_append, List.length_singleton]; omega)
    have hbuf : a ++ (x :: (mid ++ [y]) ++ b) = a ++ x :: (mid ++ y :: b) := by simp
    rw [hlen, hturns, reverseLoop, hother, hbuf, swap_ends]
    have hnext : a ++ y :: (mid ++ x :: b) = a ++ [y] ++ (mid ++ x :: b) := by simp
    have hposition : (a ++ [y]).length = a.length + 1 := by simp
    rw [hposition] at hrest
    change reverseLoop n ((mid.length + 1) / 2) (a.length + 1) (a ++ y :: (mid ++ x :: b)) = _
    rw [hnext, hrest]
    simp

/-! ### Texts -/

def strlen (buf : List Byte) : Option ℕ := buf.findIdx? (· = 0)

/-- The text in the buffer, up to its zero -/
def cString (buf : List Byte) : Option (List Byte) := (strlen buf).map buf.take

def strcpy (dst src : List Byte) : Option (List Byte) := do
  let n ← strlen src
  storeAll dst 0 (src.take (n + 1))

def strcat (dst src : List Byte) : Option (List Byte) := do
  let m ← strlen dst
  let n ← strlen src
  storeAll dst m (src.take (n + 1))

section

variable {text text' : List Byte} (h : 0 ∉ text)

include h

theorem strlen_text (rest : List Byte) : strlen (text ++ 0 :: rest) = some text.length := by
  have hnone : text.findIdx? (· = 0) = none := by
    rw [List.findIdx?_eq_none_iff]
    intro c hc
    have hne : c ≠ 0 := fun hz => h (hz ▸ hc)
    simpa using hne
  rw [strlen, List.findIdx?_append, hnone, List.findIdx?_cons]
  simp

theorem cString_text (rest : List Byte) : cString (text ++ 0 :: rest) = some text := by
  rw [cString, strlen_text h, Option.map_some, List.take_left]

omit h in
theorem take_text (rest : List Byte) : (text ++ 0 :: rest).take (text.length + 1) = text ++ [0] := by
  rw [List.take_append, List.take_of_length_le (by omega)]
  simp

theorem strcpy_text (rest : List Byte) {dst : List Byte} (hfits : text.length < dst.length) :
    strcpy dst (text ++ 0 :: rest) = some (text ++ 0 :: dst.drop (text.length + 1)) := by
  have hlen : (text ++ [0]).length ≤ dst.length := by
    rw [List.length_append, List.length_singleton]
    exact hfits
  have hstored : storeAll ([] ++ dst) 0 (text ++ [0]) = _ := storeAll_append hlen
  rw [strcpy, strlen_text h]
  change storeAll dst 0 _ = _
  rw [take_text]
  simpa using hstored

theorem strcat_text (h' : 0 ∉ text') (rest rest' : List Byte) (hfits : text'.length ≤ rest.length) :
    strcat (text ++ 0 :: rest) (text' ++ 0 :: rest') = some (text ++ text' ++ 0 :: rest.drop text'.length) := by
  have hlen : (text' ++ [0]).length ≤ (0 :: rest).length := by
    rw [List.length_append, List.length_singleton, List.length_cons]
    omega
  have hstored : storeAll (text ++ 0 :: rest) text.length (text' ++ [0]) = _ := storeAll_append hlen
  rw [strcat, strlen_text h, strlen_text h']
  change storeAll _ text.length _ = _
  rw [take_text, hstored]
  simp

end

end Buffers

end Tefs.CString
