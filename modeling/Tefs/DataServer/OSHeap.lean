import Tefs.Lib.BinaryHeap
import Tefs.Lib.Runs

/-! # The timer heaps of the data server

Source: `CommonUtilitiesLib/OSHeap.cpp` and `OSHeap.h`.

Heaps and elements are known by their addresses: an element has its value and knows the heap it is in.
Beyond `fFreeIndex` an array holds whatever was there.
-/

namespace Tefs.DataServer.OSHeaps
open BinaryHeap Runs
set_option autoImplicit false

/-! ## The functions -/

structure OSHeapElem where
  fValue : ℤ
  fCurrentHeap : Option ℕ
  deriving DecidableEq, Repr

structure OSHeap where
  fHeap : ℕ → ℕ
  fFreeIndex : ℕ
  fArraySize : ℕ

structure Heaps where
  heap : ℕ → OSHeap
  elem : ℕ → OSHeapElem

namespace Heaps

def value (s : Heaps) (e : ℕ) : ℤ := (s.elem e).fValue

def setValue (e : ℕ) (newValue : ℤ) (s : Heaps) : Heaps :=
  { s with elem := Function.update s.elem e { s.elem e with fValue := newValue } }

def setCurrentHeap (e : ℕ) (h : Option ℕ) (s : Heaps) : Heaps :=
  { s with elem := Function.update s.elem e { s.elem e with fCurrentHeap := h } }

def setHeap (this : ℕ) (h : OSHeap) (s : Heaps) : Heaps := { s with heap := Function.update s.heap this h }

def currentHeapSize (this : ℕ) (s : Heaps) : ℕ := (s.heap this).fFreeIndex - 1

def peekMin (this : ℕ) (s : Heaps) : Option ℕ :=
  if 0 < s.currentHeapSize this then some ((s.heap this).fHeap 1) else none

/-- The array grows by a `memcpy` of what is below `fFreeIndex`. -/
def insert (this inElem : ℕ) (s : Heaps) : Heaps :=
  let h := s.heap this
  let size := if h.fFreeIndex = h.fArraySize then h.fArraySize * 2 else h.fArraySize
  let fHeap := siftUp s.value h.fFreeIndex (Function.update h.fHeap h.fFreeIndex inElem)
  (s.setHeap this ⟨fHeap, h.fFreeIndex + 1, size⟩).setCurrentHeap inElem (some this)

def extract (this inIndex : ℕ) (s : Heaps) : Option ℕ × Heaps :=
  let h := s.heap this
  if h.fFreeIndex ≤ inIndex then (none, s)
  else
    let victim := h.fHeap inIndex
    let fHeap := Function.update h.fHeap inIndex (h.fHeap (h.fFreeIndex - 1))
    let fHeap := siftDown s.value (h.fFreeIndex - 1) inIndex fHeap
    (some victim, (s.setHeap this ⟨fHeap, h.fFreeIndex - 1, h.fArraySize⟩).setCurrentHeap victim none)

def extractMin (this : ℕ) (s : Heaps) : Option ℕ × Heaps := s.extract this 1

/-- The loop of `Remove`: the first place from `theIndex` on that holds `elem`, or `fFreeIndex` -/
def find (elem : ℕ) (h : OSHeap) (theIndex : ℕ) : ℕ :=
  if theIndex < h.fFreeIndex ∧ elem ≠ h.fHeap theIndex then find elem h (theIndex + 1) else theIndex
termination_by h.fFreeIndex - theIndex

def remove (this elem : ℕ) (s : Heaps) : Option ℕ × Heaps :=
  let h := s.heap this
  if h.fFreeIndex = 1 then (none, s)
  else if h.fFreeIndex ≤ find elem h 1 then (none, s)
  else s.extract this (find elem h 1)

/-- `OSHeap(inStartSize)` for every heap, and elements in none of them -/
def fresh (inStartSize : ℕ → ℕ) (garbage : ℕ → ℕ → ℕ) (values : ℕ → ℤ) : Heaps where
  heap q := ⟨garbage q, 1, if inStartSize q < 2 then 2 else inStartSize q⟩
  elem e := ⟨values e, none⟩

end Heaps

/-! ## What is stored -/

namespace Heaps

def members (this : ℕ) (s : Heaps) : Multiset ℕ := contents (s.heap this).fFreeIndex (s.heap this).fHeap

/-- An element is in one heap at most, the one it names, and no heap is larger than its array. -/
structure Stored (s : Heaps) : Prop where
  nodup : ∀ q, (s.members q).Nodup
  current : ∀ q e, e ∈ s.members q ↔ (s.elem e).fCurrentHeap = some q
  room : ∀ q, 1 ≤ (s.heap q).fFreeIndex ∧ (s.heap q).fFreeIndex ≤ (s.heap q).fArraySize ∧ 2 ≤ (s.heap q).fArraySize

def InOrder (q : ℕ) (s : Heaps) : Prop := Ordered s.value (s.heap q).fFreeIndex (s.heap q).fHeap

structure Sound (s : Heaps) : Prop extends Stored s where
  ordered : ∀ q, s.InOrder q

variable {s : Heaps} {q e : ℕ}

@[simp] theorem setHeap_heap_self (h : OSHeap) : (s.setHeap q h).heap q = h := Function.update_self ..

theorem setHeap_heap_of_ne {q' : ℕ} (hne : q' ≠ q) (h : OSHeap) : (s.setHeap q h).heap q' = s.heap q' :=
  Function.update_of_ne hne ..

@[simp] theorem setHeap_elem (h : OSHeap) : (s.setHeap q h).elem = s.elem := rfl

@[simp] theorem setCurrentHeap_heap (h : Option ℕ) : (s.setCurrentHeap e h).heap = s.heap := rfl

@[simp] theorem setCurrentHeap_self (h : Option ℕ) : ((s.setCurrentHeap e h).elem e).fCurrentHeap = h := by
  simp [setCurrentHeap]

theorem setCurrentHeap_of_ne {e' : ℕ} (hne : e' ≠ e) (h : Option ℕ) :
    (s.setCurrentHeap e h).elem e' = s.elem e' := Function.update_of_ne hne ..

@[simp] theorem setCurrentHeap_value (h : Option ℕ) : (s.setCurrentHeap e h).value = s.value := by
  funext e'
  by_cases he : e' = e
  · simp [value, setCurrentHeap, he]
  · simp [value, setCurrentHeap, he]

@[simp] theorem setHeap_value (h : OSHeap) : (s.setHeap q h).value = s.value := rfl

theorem members_congr {s' : Heaps} (h : s'.heap q = s.heap q) : s'.members q = s.members q := by
  rw [members, members, h]

/-! ### Insert -/

theorem insert_value (q e : ℕ) (s : Heaps) : (s.insert q e).value = s.value := by simp [insert]

theorem insert_heap_of_ne {q' : ℕ} (hne : q' ≠ q) : (s.insert q e).heap q' = s.heap q' := by
  simp [insert, setHeap_heap_of_ne hne]

theorem members_insert (hs : s.Stored) (q e : ℕ) : (s.insert q e).members q = e ::ₘ s.members q := by
  have hroom := hs.room q
  have hsame : ∀ i, 1 ≤ i → i < (s.heap q).fFreeIndex →
      Function.update (s.heap q).fHeap (s.heap q).fFreeIndex e i = (s.heap q).fHeap i :=
    fun i _ hi => Function.update_of_ne (by omega) ..
  simp only [members, insert, setCurrentHeap_heap, setHeap_heap_self]
  rw [contents_siftUp ⟨hroom.1, by omega⟩, contents_succ hroom.1, Function.update_self, contents_congr hsame]

theorem insert_current_self : ((s.insert q e).elem e).fCurrentHeap = some q := by simp [insert]

theorem insert_elem_of_ne {e' : ℕ} (hne : e' ≠ e) : (s.insert q e).elem e' = s.elem e' := by
  rw [insert, setCurrentHeap_of_ne hne, setHeap_elem]

theorem Stored.insert (hs : s.Stored) (hfree : (s.elem e).fCurrentHeap = none) : (s.insert q e).Stored := by
  have hout : ∀ q', e ∉ s.members q' := by
    intro q' he
    rw [hs.current, hfree] at he
    cases he
  have hmem : ∀ q', q' ≠ q → (s.insert q e).members q' = s.members q' :=
    fun q' hne => members_congr (insert_heap_of_ne hne)
  constructor
  · intro q'
    by_cases hq : q' = q
    · rw [hq, members_insert hs]
      exact Multiset.nodup_cons.mpr ⟨hout q, hs.nodup q⟩
    · rw [hmem q' hq]
      exact hs.nodup q'
  · intro q' e'
    by_cases he : e' = e
    · subst he
      rw [insert_current_self]
      by_cases hq : q' = q
      · simp [hq, members_insert hs]
      · simp only [hmem q' hq, hout q', false_iff, Option.some.injEq]
        exact fun h => hq h.symm
    · rw [insert_elem_of_ne he, ← hs.current]
      by_cases hq : q' = q
      · simp [hq, members_insert hs, he]
      · rw [hmem q' hq]
  · intro q'
    have hroom := hs.room q'
    by_cases hq : q' = q
    · subst hq
      simp only [Heaps.insert, setCurrentHeap_heap, setHeap_heap_self]
      split <;> omega
    · rw [insert_heap_of_ne hq]
      exact hroom

theorem InOrder.insert_self (hord : s.InOrder q) (e : ℕ) : (s.insert q e).InOrder q := by
  simp only [InOrder, insert_value]
  simpa [Heaps.insert] using Ordered.push hord e

theorem Sound.insert (hs : s.Sound) (hfree : (s.elem e).fCurrentHeap = none) : (s.insert q e).Sound := by
  refine ⟨hs.toStored.insert hfree, fun q' => ?_⟩
  by_cases hq : q' = q
  · rw [hq]
    exact (hs.ordered q).insert_self e
  · simp only [InOrder, insert_value, insert_heap_of_ne hq]
    exact hs.ordered q'

/-! ### Extract -/

/-- What `Extract` does with a place in use. -/
theorem extract_of_lt {i : ℕ} (hi : i < (s.heap q).fFreeIndex) :
    (s.extract q i).1 = some ((s.heap q).fHeap i) ∧
      (s.extract q i).2.value = s.value ∧
      (∀ e, (((s.extract q i).2).elem e).fCurrentHeap =
        if e = (s.heap q).fHeap i then none else (s.elem e).fCurrentHeap) ∧
      (∀ q', q' ≠ q → (s.extract q i).2.heap q' = s.heap q') ∧
      (s.extract q i).2.heap q = ⟨siftDown s.value ((s.heap q).fFreeIndex - 1) i
        (Function.update (s.heap q).fHeap i ((s.heap q).fHeap ((s.heap q).fFreeIndex - 1))),
        (s.heap q).fFreeIndex - 1, (s.heap q).fArraySize⟩ := by
  rw [extract, if_neg (by omega)]
  refine ⟨rfl, by simp, fun e => ?_, fun q' hne => by simp [setHeap_heap_of_ne hne], by simp⟩
  by_cases he : e = (s.heap q).fHeap i
  · rw [if_pos he, he, setCurrentHeap_self]
  · rw [if_neg he, setCurrentHeap_of_ne he, setHeap_elem]

theorem members_extract {i : ℕ} (h1 : 1 ≤ i) (hi : i < (s.heap q).fFreeIndex) :
    s.members q = (s.heap q).fHeap i ::ₘ (s.extract q i).2.members q := by
  obtain ⟨-, -, -, -, hheap⟩ := extract_of_lt hi
  have hfree : (s.heap q).fFreeIndex = (s.heap q).fFreeIndex - 1 + 1 := by omega
  rw [members, members, hheap, contents_siftDown h1]
  conv_lhs => rw [hfree]
  exact contents_moveLast h1 (by omega) _

theorem Stored.extract (hs : s.Stored) {i : ℕ} (h1 : 1 ≤ i) (hi : i < (s.heap q).fFreeIndex) :
    (s.extract q i).2.Stored := by
  obtain ⟨-, -, hcurrent, hother, hheap⟩ := extract_of_lt hi
  have hsplit := members_extract h1 hi
  have hnodup := hs.nodup q
  rw [hsplit, Multiset.nodup_cons] at hnodup
  have hin : (s.heap q).fHeap i ∈ s.members q := by
    rw [hsplit]
    exact Multiset.mem_cons_self _ _
  constructor
  · intro q'
    by_cases hq : q' = q
    · rw [hq]
      exact hnodup.2
    · rw [members_congr (hother q' hq)]
      exact hs.nodup q'
  · intro q' e
    rw [hcurrent e]
    by_cases hq : q' = q
    · rw [hq]
      by_cases he : e = (s.heap q).fHeap i
      · simp [he, hnodup.1]
      · rw [if_neg he, ← hs.current, hsplit, Multiset.mem_cons]
        exact ⟨Or.inr, fun h => h.resolve_left he⟩
    · rw [members_congr (hother q' hq), hs.current]
      by_cases he : e = (s.heap q).fHeap i
      · rw [if_pos he, he, (hs.current q _).mp hin]
        simpa using Ne.symm hq
      · rw [if_neg he]
  · intro q'
    have hroom := hs.room q'
    by_cases hq : q' = q
    · subst hq
      rw [hheap]
      exact ⟨by simp only; omega, by simp only; omega, hroom.2.2⟩
    · rw [hother q' hq]
      exact hroom

/-- The last leaf may stand at the place `i`: that is the root, or its own place, or below no larger parent. -/
def LeafFits (q i : ℕ) (s : Heaps) : Prop :=
  1 < i → i < (s.heap q).fFreeIndex - 1 →
    s.value ((s.heap q).fHeap (i / 2)) ≤ s.value ((s.heap q).fHeap ((s.heap q).fFreeIndex - 1))

instance (q i : ℕ) (s : Heaps) : Decidable (s.LeafFits q i) := inferInstanceAs (Decidable (_ → _ → _))

theorem InOrder.extract_iff (hord : s.InOrder q) {i : ℕ} (hi : i < (s.heap q).fFreeIndex) :
    (s.extract q i).2.InOrder q ↔ s.LeafFits q i := by
  obtain ⟨-, hvalue, -, -, hheap⟩ := extract_of_lt hi
  have hfree : (s.heap q).fFreeIndex = (s.heap q).fFreeIndex - 1 + 1 := by omega
  rw [InOrder, hfree] at hord
  rw [InOrder, hvalue, hheap]
  exact hord.moveLast_iff

theorem Sound.extract (hs : s.Sound) {i : ℕ} (h1 : 1 ≤ i) (hi : i < (s.heap q).fFreeIndex) (hfits : s.LeafFits q i) :
    (s.extract q i).2.Sound := by
  refine ⟨hs.toStored.extract h1 hi, fun q' => ?_⟩
  by_cases hq : q' = q
  · rw [hq]
    exact ((hs.ordered q).extract_iff hi).mpr hfits
  · obtain ⟨-, hvalue, -, hother, -⟩ := extract_of_lt hi
    rw [InOrder, hvalue, hother q' hq]
    exact hs.ordered q'

/-! ### ExtractMin -/

/-- `e` is a least element of the heap, and taking it out leaves the others. -/
structure Least (q e : ℕ) (s s' : Heaps) : Prop where
  split : s.members q = e ::ₘ s'.members q
  le : ∀ e' ∈ s.members q, s.value e ≤ s.value e'
  other : ∀ q', q' ≠ q → s'.members q' = s.members q'
  value : s'.value = s.value

theorem Stored.members_eq_zero_iff (hs : s.Stored) : s.members q = 0 ↔ (s.heap q).fFreeIndex = 1 := by
  have hroom := (hs.room q).1
  rw [members, contents, Multiset.map_eq_zero, Finset.val_eq_zero, Finset.Ico_eq_empty_iff]
  omega

theorem Sound.peekMin_eq_none_iff (hs : s.Sound) : s.peekMin q = none ↔ s.members q = 0 := by
  have hroom := (hs.room q).1
  rw [hs.members_eq_zero_iff, peekMin, currentHeapSize]
  split
  · simp only [reduceCtorEq, false_iff]
    omega
  · simp only [true_iff]
    omega

theorem Sound.extractMin (hs : s.Sound) (q : ℕ) :
    (s.extractMin q).2.Sound ∧ (s.extractMin q).1 = s.peekMin q ∧
      (s.members q = 0 ∧ s.extractMin q = (none, s) ∨
        ∃ e, (s.extractMin q).1 = some e ∧ Least q e s (s.extractMin q).2) := by
  have hroom := (hs.room q).1
  by_cases hempty : (s.heap q).fFreeIndex = 1
  · have heq : s.extractMin q = (none, s) := by rw [Heaps.extractMin, Heaps.extract, if_pos hempty.le]
    rw [heq]
    exact ⟨hs, by simp [peekMin, currentHeapSize, hempty], .inl ⟨hs.members_eq_zero_iff.mpr hempty, rfl⟩⟩
  · have hi : 1 < (s.heap q).fFreeIndex := by omega
    obtain ⟨hres, hvalue, -, hother, -⟩ := extract_of_lt hi
    refine ⟨hs.extract le_rfl hi fun h => absurd h (lt_irrefl 1), ?_, .inr ⟨_, hres, ?_⟩⟩
    · rw [peekMin, currentHeapSize, if_pos (by omega)]
      exact hres
    · refine ⟨members_extract le_rfl hi, fun e' he' => ?_, fun q' hne => members_congr (hother q' hne), hvalue⟩
      obtain ⟨i, h1, hlt, rfl⟩ := mem_contents.mp he'
      exact (hs.ordered q).root_le h1 hlt

/-! ### Remove -/

theorem find_spec (e : ℕ) (h : OSHeap) (i : ℕ) (hi : i ≤ h.fFreeIndex) :
    i ≤ find e h i ∧ find e h i ≤ h.fFreeIndex ∧ (∀ k, i ≤ k → k < find e h i → h.fHeap k ≠ e) ∧
      (find e h i < h.fFreeIndex → h.fHeap (find e h i) = e) := by
  fun_induction find e h i with
  | case1 i hmove ih =>
    obtain ⟨hle, hfree, hbefore, hat⟩ := ih hmove.1
    refine ⟨by omega, hfree, fun k hk hlt => ?_, hat⟩
    by_cases hki : k = i
    · rw [hki]
      exact Ne.symm hmove.2
    · exact hbefore k (by omega) hlt
  | case2 i hstop =>
    refine ⟨le_rfl, hi, fun k hk hlt => absurd hlt (by omega), fun hlt => ?_⟩
    by_contra hne
    exact hstop ⟨hlt, Ne.symm hne⟩

/-- `Remove` of an element of the heap is an `Extract` at its place. -/
theorem Stored.remove_of_mem (hs : s.Stored) (he : e ∈ s.members q) :
    ∃ i, 1 ≤ i ∧ i < (s.heap q).fFreeIndex ∧ (s.heap q).fHeap i = e ∧ find e (s.heap q) 1 = i ∧
      s.remove q e = s.extract q i := by
  have hroom := (hs.room q).1
  obtain ⟨hle, -, hbefore, hat⟩ := find_spec e (s.heap q) 1 hroom
  obtain ⟨k, h1, hk, hke⟩ := mem_contents.mp he
  have hfound : find e (s.heap q) 1 < (s.heap q).fFreeIndex := by
    by_contra hge
    exact hbefore k h1 (by omega) hke
  exact ⟨_, hle, hfound, hat hfound, rfl, by rw [remove, if_neg (by omega), if_neg (by omega)]⟩

theorem Stored.remove_of_notMem (hs : s.Stored) (he : e ∉ s.members q) : s.remove q e = (none, s) := by
  have hroom := (hs.room q).1
  obtain ⟨hle, -, -, hat⟩ := find_spec e (s.heap q) 1 hroom
  rw [remove]
  split
  · rfl
  · rw [if_pos]
    by_contra hlt
    exact he (mem_contents.mpr ⟨_, hle, by omega, hat (by omega)⟩)

theorem Stored.remove (hs : s.Stored) (q e : ℕ) : (s.remove q e).2.Stored := by
  by_cases he : e ∈ s.members q
  · obtain ⟨i, h1, hi, -, -, heq⟩ := hs.remove_of_mem he
    rw [heq]
    exact hs.extract h1 hi
  · rw [hs.remove_of_notMem he]
    exact hs

/-- What `Remove` answers and leaves, in order or not. -/
theorem Stored.remove_members (hs : s.Stored) (q e : ℕ) :
    (s.remove q e).1 = (if (s.elem e).fCurrentHeap = some q then some e else none) ∧
      (s.remove q e).2.members q = (s.members q).erase e := by
  by_cases he : e ∈ s.members q
  · obtain ⟨i, h1, hi, hat, -, heq⟩ := hs.remove_of_mem he
    rw [heq, if_pos ((hs.current q e).mp he), members_extract h1 hi, hat, Multiset.erase_cons_head]
    exact ⟨hat ▸ (extract_of_lt hi).1, rfl⟩
  · rw [hs.remove_of_notMem he, if_neg (fun h => he ((hs.current q e).mpr h)), Multiset.erase_of_notMem he]
    exact ⟨rfl, rfl⟩

/-- An element leaves the order behind it intact. -/
def RemovalFits (q e : ℕ) (s : Heaps) : Prop :=
  (s.elem e).fCurrentHeap = some q → s.LeafFits q (find e (s.heap q) 1)

instance (q e : ℕ) (s : Heaps) : Decidable (s.RemovalFits q e) := inferInstanceAs (Decidable (_ → _))

/-! ## Whole runs -/

inductive Op
  | setValue (elem : ℕ) (newValue : ℤ)
  | insert (this elem : ℕ)
  | extractMin (this : ℕ)
  | remove (this elem : ℕ)
  deriving DecidableEq, Repr

def apply : Op → Heaps → Option ℕ × Heaps
  | .setValue elem newValue, s => (none, s.setValue elem newValue)
  | .insert this elem, s => (none, s.insert this elem)
  | .extractMin this, s => s.extractMin this
  | .remove this elem, s => s.remove this elem

/-- What the callers see to, and for `Remove` the condition under which it leaves the heap in order: an element is
inserted, and its value set, while it is in no heap. -/
def Allowed (s : Heaps) : Op → Prop
  | .setValue elem _ => (s.elem elem).fCurrentHeap = none
  | .insert _ elem => (s.elem elem).fCurrentHeap = none
  | .extractMin _ => True
  | .remove this elem => s.RemovalFits this elem

instance (s : Heaps) (op : Op) : Decidable (Allowed s op) := by
  cases op <;> unfold Allowed <;> infer_instance

/-- What the heaps are for: some elements wait in each, and the values say which goes first. -/
structure Waiting where
  members : ℕ → Multiset ℕ
  value : ℕ → ℤ

namespace Waiting

inductive Step : Waiting → Op → Option ℕ → Waiting → Prop
  | setValue (w : Waiting) (e : ℕ) (v : ℤ) : Step w (.setValue e v) none { w with value := Function.update w.value e v }
  | insert (w : Waiting) (q e : ℕ) :
      Step w (.insert q e) none { w with members := Function.update w.members q (e ::ₘ w.members q) }
  | extractNone (w : Waiting) (q : ℕ) (empty : w.members q = 0) : Step w (.extractMin q) none w
  | extractMin (w : Waiting) (q e : ℕ) (rest : Multiset ℕ) (split : w.members q = e ::ₘ rest)
      (least : ∀ e' ∈ w.members q, w.value e ≤ w.value e') :
      Step w (.extractMin q) (some e) { w with members := Function.update w.members q rest }
  | remove (w : Waiting) (q e : ℕ) :
      Step w (.remove q e) (if e ∈ w.members q then some e else none)
        { w with members := Function.update w.members q ((w.members q).erase e) }

end Waiting

def waiting (s : Heaps) : Waiting := ⟨fun q => s.members q, s.value⟩

@[simp] theorem setValue_heap (e : ℕ) (v : ℤ) (s : Heaps) : (s.setValue e v).heap = s.heap := rfl

theorem setValue_current (e : ℕ) (v : ℤ) (s : Heaps) (e' : ℕ) :
    ((s.setValue e v).elem e').fCurrentHeap = (s.elem e').fCurrentHeap := by
  by_cases he : e' = e
  · simp [Heaps.setValue, he]
  · simp [Heaps.setValue, he]

theorem Stored.setValue (hs : s.Stored) (v : ℤ) : (s.setValue e v).Stored := by
  refine ⟨hs.nodup, fun q e' => ?_, hs.room⟩
  rw [setValue_current]
  exact hs.current q e'

theorem setValue_value (e : ℕ) (v : ℤ) (s : Heaps) : (s.setValue e v).value = Function.update s.value e v := by
  funext e'
  by_cases he : e' = e
  · simp [value, Heaps.setValue, he]
  · simp [value, Heaps.setValue, he]

theorem Sound.setValue (hs : s.Sound) (hfree : (s.elem e).fCurrentHeap = none) (v : ℤ) : (s.setValue e v).Sound := by
  refine ⟨hs.toStored.setValue v, fun q i h1 hi => ?_⟩
  have hout : ∀ k, 1 ≤ k → k < (s.heap q).fFreeIndex → (s.heap q).fHeap k ≠ e := by
    rintro k h1 hk rfl
    have hmem := (hs.current q _).mp (mem_contents.mpr ⟨k, h1, hk, rfl⟩)
    rw [hfree] at hmem
    cases hmem
  have hord := hs.ordered q i h1 hi
  simp only [setValue_value, setValue_heap] at hi ⊢
  rw [Function.update_of_ne (hout _ (by omega) (lt_of_le_of_lt (Nat.div_le_self i 2) hi)),
    Function.update_of_ne (hout i (by omega) hi)]
  exact hord

theorem Sound.remove (hs : s.Sound) (hfits : s.RemovalFits q e) : (s.remove q e).2.Sound := by
  by_cases he : e ∈ s.members q
  · obtain ⟨i, h1, hi, -, hfind, heq⟩ := hs.remove_of_mem he
    rw [heq]
    exact hs.extract h1 hi (hfind ▸ hfits ((hs.current q e).mp he))
  · rw [hs.remove_of_notMem he]
    exact hs

theorem waiting_setValue (e : ℕ) (v : ℤ) (s : Heaps) :
    waiting (s.setValue e v) = { waiting s with value := Function.update s.value e v } := by
  rw [waiting, setValue_value]
  rfl

theorem waiting_ext {s' : Heaps} {q : ℕ} {m : Multiset ℕ} (hself : s'.members q = m)
    (hother : ∀ q', q' ≠ q → s'.members q' = s.members q') (hvalue : s'.value = s.value) :
    waiting s' = { waiting s with members := Function.update (waiting s).members q m } := by
  rw [waiting, hvalue]
  congr 1
  funext q'
  by_cases hq : q' = q
  · rw [hq, Function.update_self, hself]
  · rw [Function.update_of_ne hq]
    exact hother q' hq

theorem remove_frame (hs : s.Stored) (q e : ℕ) :
    (∀ q', q' ≠ q → (s.remove q e).2.members q' = s.members q') ∧ (s.remove q e).2.value = s.value := by
  by_cases he : e ∈ s.members q
  · obtain ⟨i, -, hi, -, -, heq⟩ := hs.remove_of_mem he
    obtain ⟨-, hvalue, -, hother, -⟩ := extract_of_lt hi
    rw [heq]
    exact ⟨fun q' hne => members_congr (hother q' hne), hvalue⟩
  · rw [hs.remove_of_notMem he]
    exact ⟨fun _ _ => rfl, rfl⟩

/-- One call keeps the heaps sound and answers as the waiting elements allow. -/
theorem Sound.apply (hs : s.Sound) {op : Op} (hop : Allowed s op) :
    (apply op s).2.Sound ∧ (waiting s).Step op (apply op s).1 (waiting (apply op s).2) := by
  cases op with
  | setValue e v =>
    refine ⟨hs.setValue hop v, ?_⟩
    show (waiting s).Step (.setValue e v) none (waiting (s.setValue e v))
    rw [waiting_setValue]
    exact .setValue _ e v
  | insert q e =>
    refine ⟨hs.insert hop, ?_⟩
    have hself : (s.insert q e).members q = e ::ₘ (waiting s).members q := members_insert hs.toStored q e
    show (waiting s).Step (.insert q e) none (waiting (s.insert q e))
    rw [waiting_ext hself (fun q' hne => members_congr (insert_heap_of_ne hne)) (insert_value q e s)]
    exact .insert _ q e
  | extractMin q =>
    obtain ⟨hsound, -, ⟨hempty, heq⟩ | ⟨e, hres, hleast⟩⟩ := hs.extractMin q
    · refine ⟨hsound, ?_⟩
      show (waiting s).Step (.extractMin q) (s.extractMin q).1 (waiting (s.extractMin q).2)
      rw [heq]
      exact .extractNone _ q hempty
    · refine ⟨hsound, ?_⟩
      show (waiting s).Step (.extractMin q) (s.extractMin q).1 (waiting (s.extractMin q).2)
      rw [hres, waiting_ext rfl hleast.other hleast.value]
      exact .extractMin _ q e _ hleast.split hleast.le
  | remove q e =>
    refine ⟨hs.remove hop, ?_⟩
    obtain ⟨hres, hself⟩ := hs.remove_members q e
    obtain ⟨hother, hvalue⟩ := remove_frame hs.toStored q e
    have hanswer : (s.remove q e).1 = if e ∈ (waiting s).members q then some e else none := by
      rw [hres]
      exact if_congr (hs.current q e).symm rfl rfl
    show (waiting s).Step (.remove q e) (s.remove q e).1 (waiting (s.remove q e).2)
    rw [hanswer, waiting_ext hself hother hvalue]
    exact .remove _ q e

/-- A call with its answer -/
def Call (s : Heaps) (call : Op × Option ℕ) (s' : Heaps) : Prop := apply call.1 s = (call.2, s')

theorem fresh_sound (inStartSize : ℕ → ℕ) (garbage : ℕ → ℕ → ℕ) (values : ℕ → ℤ) :
    (fresh inStartSize garbage values).Sound where
  nodup q := by simp [members, fresh, contents]
  current q e := by simp [members, fresh, contents]
  room q := by
    simp only [fresh]
    split <;> omega
  ordered q i h1 hi := absurd hi (by simp only [fresh]; omega)

theorem Sound.run (hs : s.Sound) {calls : List (Op × Option ℕ)} {t : Heaps}
    (h : Reaches Call (fun s call => Allowed s call.1) s calls t) :
    t.Sound ∧ Reaches (fun w call w' => Waiting.Step w call.1 call.2 w') (fun _ _ => True) (waiting s) calls (waiting t) := by
  induction h with
  | nil s => exact ⟨hs, .nil _⟩
  | @cons s s' t call calls allowed taken _ ih =>
    obtain ⟨hsound, hstep⟩ := hs.apply allowed
    rw [taken] at hsound hstep
    obtain ⟨ht, hrest⟩ := ih hsound
    exact ⟨ht, .cons trivial hstep hrest⟩

/-- From fresh heaps on, the answers of every run are answers the waiting elements allow: what `ExtractMin` gives is
always a least element of those inserted and not yet taken out. -/
theorem heaps_refine_waiting (inStartSize : ℕ → ℕ) (garbage : ℕ → ℕ → ℕ) (values : ℕ → ℤ)
    {calls : List (Op × Option ℕ)} {t : Heaps}
    (h : Reaches Call (fun s call => Allowed s call.1) (fresh inStartSize garbage values) calls t) :
    Reaches (fun w call w' => Waiting.Step w call.1 call.2 w') (fun _ _ => True) ⟨fun _ => 0, values⟩ calls (waiting t) :=
  ((fresh_sound inStartSize garbage values).run h).2

/-! ### Runs in which a heap may lose its order -/

/-- What the callers see to: an element is inserted, and its value set, while it is in no heap. -/
def Called (s : Heaps) : Op → Prop
  | .setValue elem _ => (s.elem elem).fCurrentHeap = none
  | .insert _ elem => (s.elem elem).fCurrentHeap = none
  | .extractMin _ => True
  | .remove _ _ => True

instance (s : Heaps) (op : Op) : Decidable (Called s op) := by
  cases op <;> unfold Called <;> infer_instance

theorem Stored.apply (hs : s.Stored) {op : Op} (hop : Called s op) : (apply op s).2.Stored := by
  cases op with
  | setValue e v => exact hs.setValue v
  | insert q e => exact hs.insert hop
  | extractMin q =>
    by_cases hempty : (s.heap q).fFreeIndex ≤ 1
    · have hnone : s.extractMin q = (none, s) := if_pos hempty
      rw [Heaps.apply, hnone]
      exact hs
    · exact hs.extract le_rfl (Nat.lt_of_not_le hempty)
  | remove q e => exact hs.remove q e

theorem Stored.run (hs : s.Stored) {calls : List (Op × Option ℕ)} {t : Heaps}
    (h : Reaches Call (fun s call => Called s call.1) s calls t) : t.Stored := by
  refine h.invariant ?_ hs
  intro s call s' hs hcalled htaken
  have hnext := hs.apply hcalled
  rw [htaken] at hnext
  exact hnext

/-- `Remove` only sifts down: it always takes out its element and no other, in order or not, and leaves a heap that was in
order in order when the last leaf fits the place, and only then. -/
theorem remove_in_order_iff (inStartSize : ℕ → ℕ) (garbage : ℕ → ℕ → ℕ) (values : ℕ → ℤ)
    {calls : List (Op × Option ℕ)} {t : Heaps}
    (h : Reaches Call (fun s call => Called s call.1) (fresh inStartSize garbage values) calls t)
    {q e : ℕ} (he : (t.elem e).fCurrentHeap = some q) :
    (t.remove q e).1 = some e ∧ (t.remove q e).2.members q = (t.members q).erase e ∧ (t.remove q e).2.Stored ∧
      (t.InOrder q → ((t.remove q e).2.InOrder q ↔ t.RemovalFits q e)) := by
  have ht := (fresh_sound inStartSize garbage values).toStored.run h
  obtain ⟨i, -, hi, -, hfind, heq⟩ := ht.remove_of_mem ((ht.current q e).mpr he)
  refine ⟨by rw [(ht.remove_members q e).1, if_pos he], (ht.remove_members q e).2, ht.remove q e, fun hord => ?_⟩
  rw [heq, hord.extract_iff hi, ← hfind]
  exact ⟨fun hfits _ => hfits, fun hfits => hfits he⟩

/-- The calls with their answers -/
def answers : Heaps → List Op → List (Op × Option ℕ)
  | _, [] => []
  | s, op :: ops => (op, (apply op s).1) :: answers (apply op s).2 ops

theorem reaches_answers (ok : Heaps → Op → Prop) (s : Heaps) (ops : List Op)
    (h : allAllowed (fun s op => (apply op s).2) ok s ops) :
    Reaches Call (fun s call => ok s call.1) s (answers s ops) (ops.foldl (fun s op => (apply op s).2) s) := by
  induction ops generalizing s with
  | nil => exact .nil s
  | cons op ops ih => exact .cons h.1 rfl (ih _ h.2)

def empties : Heaps := fresh (fun _ => 0) (fun _ _ => 0) fun _ => 0

/-- Six elements; 60 is below 50, and 30 is the value of the last leaf. -/
def sixInserts : List Op :=
  [(1, 10), (2, 50), (3, 20), (4, 60), (5, 70), (6, 30)].flatMap fun (elem, value) =>
    [.setValue elem value, .insert 0 elem]

def sixElems : Heaps := sixInserts.foldl (fun s op => (apply op s).2) empties

/-- The leaf with 30 has come below 50. -/
def misplaced : Heaps := (sixElems.remove 0 4).2

/-- The heap loses its order, and the next `Remove` takes out its element all the same. -/
theorem remove_in_order_iff_example : (sixElems.remove 0 4).1 = some 4 ∧ ¬ misplaced.InOrder 0 ∧
    (misplaced.remove 0 5).1 = some 5 ∧ (misplaced.remove 0 5).2.members 0 = (misplaced.members 0).erase 5 := by
  have hsix := reaches_answers Called empties sixInserts (by decide +kernel)
  have hordered := ((fresh_sound _ _ _).run (reaches_answers Allowed empties sixInserts (by decide +kernel))).1.ordered 0
  have hremove : Reaches Call (fun s call => Called s call.1) sixElems [(.remove 0 4, (sixElems.remove 0 4).1)] misplaced :=
    .cons (show Called sixElems (.remove 0 4) from trivial) rfl (.nil _)
  obtain ⟨hfourth, -, -, horder⟩ := remove_in_order_iff _ _ _ hsix (q := 0) (e := 4) (by decide +kernel)
  obtain ⟨hfifth, hothers, -, -⟩ := remove_in_order_iff _ _ _ (hsix.append hremove) (q := 0) (e := 5) (by decide +kernel)
  have hunfit : ¬ sixElems.RemovalFits 0 4 := by decide +kernel
  exact ⟨hfourth, fun h => hunfit ((horder hordered).mp h), hfifth, hothers⟩

/-! ### A run -/

theorem call_of {s : Heaps} {op : Op} {answer : Option ℕ} (h : (apply op s).1 = answer) :
    Call s (op, answer) (apply op s).2 := Prod.ext h rfl

def exampleFresh : Heaps := fresh (fun _ => 0) (fun _ _ => 0) fun _ => 0

def exampleSet : Heaps := ((exampleFresh.setValue 5 30).insert 0 5).setValue 6 20

theorem exampleSet_fHeap : (exampleSet.heap 0).fHeap = Function.update (fun _ => 0) 1 5 := by
  simp only [exampleSet, insert, setValue_heap, setCurrentHeap_heap, setHeap_heap_self]
  rw [siftUp]
  simp [exampleFresh, fresh]

theorem exampleSet_min : (exampleSet.insert 0 6).peekMin 0 = some 6 := by
  have hlt : exampleSet.value 6 < exampleSet.value 5 := by decide
  have hfree : (exampleSet.heap 0).fFreeIndex = 2 := rfl
  have hsize : (exampleSet.insert 0 6).currentHeapSize 0 = 2 := rfl
  rw [peekMin, if_pos (by omega)]
  simp only [insert, setCurrentHeap_heap, setHeap_heap_self, hfree, exampleSet_fHeap]
  rw [siftUp, if_pos ⟨by decide, by simpa using hlt⟩, siftUp, if_neg (by omega)]
  simp [swap]

def exampleCalls : List (Op × Option ℕ) :=
  [(.setValue 5 30, none), (.insert 0 5, none), (.setValue 6 20, none), (.insert 0 6, none), (.extractMin 0, some 6)]

def exampleEnd : Heaps := ((exampleSet.insert 0 6).extractMin 0).2

theorem reaches_exampleSet :
    Reaches Call (fun s call => Allowed s call.1) exampleFresh (exampleCalls.take 3) exampleSet :=
  .cons (show Allowed _ (.setValue 5 30) from rfl) (call_of rfl)
    (.cons (show Allowed _ (.insert 0 5) from rfl) (call_of rfl)
      (.cons (show Allowed _ (.setValue 6 20) from rfl) (call_of rfl) (.nil _)))

theorem reaches_exampleEnd :
    Reaches Call (fun s call => Allowed s call.1) exampleFresh exampleCalls exampleEnd :=
  have hmin : ((exampleSet.insert 0 6).extractMin 0).1 = some 6 := exampleSet_min
  reaches_exampleSet.append (.cons (show Allowed _ (.insert 0 6) from rfl) (call_of rfl)
    (.cons (show Allowed _ (.extractMin 0) from trivial) (call_of hmin) (.nil _)))

theorem heaps_refine_waiting_example :
    Reaches (fun w call w' => Waiting.Step w call.1 call.2 w') (fun _ _ => True) ⟨fun _ => 0, fun _ => 0⟩ exampleCalls
      (waiting exampleEnd) := heaps_refine_waiting (fun _ => 0) (fun _ _ => 0) (fun _ => 0) reaches_exampleEnd

end Heaps

end Tefs.DataServer.OSHeaps
