import Mathlib.Data.Finset.Card
import Mathlib.Data.List.Basic
import Mathlib.Order.Interval.Finset.Nat

/-! # The allocation bitmaps

Source: `diskmanager/src/bit_map.cpp`. The bits of a byte are counted from its high end. `test`,
`set` and `reset` are the bodies of the member functions; the assertion `index < item_count_` that
stands before each of them is made where they are called. `set_count_` is only reported to
operators and is left out.
-/

namespace Tefs.DataServer
set_option autoImplicit false

abbrev Byte := BitVec 8

def slotSize : ℕ := 8

def bitMapMask : List Byte := [0x80#8, 0x40#8, 0x20#8, 0x10#8, 0x08#8, 0x04#8, 0x02#8, 0x01#8]

def slotCount (itemCount : ℕ) : ℕ := (itemCount + slotSize - 1) / slotSize

/-- A bitmap has the number of bytes its item count asks for. -/
structure BitMap where
  itemCount : ℕ
  data : List Byte
  size_eq : data.length = slotCount itemCount

namespace BitMap

theorem ext_data {a b : BitMap} (hi : a.itemCount = b.itemCount) (hd : a.data = b.data) : a = b := by
  cases a
  cases b
  cases hi
  cases hd
  rfl

instance : DecidableEq BitMap := fun a b =>
  decidable_of_iff (a.itemCount = b.itemCount ∧ a.data = b.data)
    ⟨fun h => ext_data h.1 h.2, fun h => by rw [h]; exact ⟨rfl, rfl⟩⟩

/-- The constructor with `set_flag` false. -/
def new (itemCount : ℕ) : BitMap where
  itemCount := itemCount
  data := List.replicate (slotCount itemCount) 0
  size_eq := List.length_replicate

def slot (bm : BitMap) (index : ℕ) : Byte := bm.data.getD (index / slotSize) 0

def mask (index : ℕ) : Byte := bitMapMask.getD (index % slotSize) 0

def test (bm : BitMap) (index : ℕ) : Bool := bm.slot index &&& mask index ≠ 0

def set (bm : BitMap) (index : ℕ) : BitMap where
  itemCount := bm.itemCount
  data := bm.data.set (index / slotSize) (bm.slot index ||| mask index)
  size_eq := by rw [List.length_set, bm.size_eq]

def reset (bm : BitMap) (index : ℕ) : BitMap where
  itemCount := bm.itemCount
  data := bm.data.set (index / slotSize) (bm.slot index &&& ~~~mask index)
  size_eq := by rw [List.length_set, bm.size_eq]

@[simp] theorem set_itemCount (bm : BitMap) (i : ℕ) : (bm.set i).itemCount = bm.itemCount := rfl

@[simp] theorem reset_itemCount (bm : BitMap) (i : ℕ) : (bm.reset i).itemCount = bm.itemCount := rfl

/-! ## Bits -/

def place (index : ℕ) : ℕ := 7 - index % slotSize

theorem mask_eq (index : ℕ) : mask index = BitVec.twoPow 8 (place index) := by
  have hlt : index % slotSize < 8 := Nat.mod_lt _ (by decide)
  unfold mask place
  generalize index % slotSize = r at hlt
  revert r
  decide

theorem place_lt (index : ℕ) : place index < 8 := by
  unfold place
  omega

theorem test_eq (bm : BitMap) (index : ℕ) :
    bm.test index = (bm.slot index).getLsbD (place index) := by
  unfold test
  rw [mask_eq, BitVec.and_twoPow]
  cases h : (bm.slot index).getLsbD (place index) with
  | false => simp
  | true =>
    have hne : BitVec.twoPow 8 (place index) ≠ 0 := by
      have := place_lt index
      generalize place index = p at this
      revert p
      decide
    simpa using hne

theorem eq_of_slot_place {i j : ℕ} (hs : i / slotSize = j / slotSize) (hp : place i = place j) :
    i = j := by
  unfold place slotSize at *
  omega

theorem slot_lt {bm : BitMap} {i : ℕ} (hi : i < bm.itemCount) : i / slotSize < bm.data.length := by
  rw [bm.size_eq]
  unfold slotCount slotSize
  omega

theorem slot_modified {bm : BitMap} {i : ℕ} (hi : i < bm.itemCount) (v : Byte) (j : ℕ)
    (b : BitMap) (hb : b.data = bm.data.set (i / slotSize) v) :
    b.slot j = if i / slotSize = j / slotSize then v else bm.slot j := by
  unfold slot
  rw [hb, List.getD_eq_getElem?_getD, List.getElem?_set]
  split
  · simp [slot_lt hi]
  · rw [List.getD_eq_getElem?_getD]

theorem test_set {bm : BitMap} {i : ℕ} (hi : i < bm.itemCount) (j : ℕ) :
    (bm.set i).test j = (decide (j = i) || bm.test j) := by
  rw [test_eq, test_eq, slot_modified hi _ j (bm.set i) rfl]
  split
  · next hs =>
    have hsl : bm.slot j = bm.slot i := by
      unfold slot
      rw [hs]
    rw [BitVec.getLsbD_or, mask_eq, BitVec.getLsbD_twoPow, hsl, Bool.or_comm]
    congr 1
    have := place_lt i
    by_cases hj : j = i
    · simp [hj, this]
    · have hp : place i ≠ place j := fun hp => hj (eq_of_slot_place hs hp).symm
      simp [hj, hp]
  · next hs =>
    have hj : j ≠ i := by
      rintro rfl
      exact hs rfl
    simp [hj]

theorem test_reset {bm : BitMap} {i : ℕ} (hi : i < bm.itemCount) (j : ℕ) :
    (bm.reset i).test j = (!decide (j = i) && bm.test j) := by
  rw [test_eq, test_eq, slot_modified hi _ j (bm.reset i) rfl]
  split
  · next hs =>
    have hsl : bm.slot j = bm.slot i := by
      unfold slot
      rw [hs]
    have hpl := place_lt j
    rw [BitVec.getLsbD_and, BitVec.getLsbD_not, mask_eq, BitVec.getLsbD_twoPow, hsl, Bool.and_comm]
    congr 1
    have := place_lt i
    by_cases hj : j = i
    · simp [hj, this]
    · have hp : place i ≠ place j := fun hp => hj (eq_of_slot_place hs hp).symm
      simp [hj, hp, hpl]
  · next hs =>
    have hj : j ≠ i := by
      rintro rfl
      exact hs rfl
    simp [hj]

@[simp] theorem test_new (n i : ℕ) : (new n).test i = false := by
  have hs : (new n).slot i = 0 := by
    simp [slot, new, List.getD_eq_getElem?_getD, List.getElem?_replicate]
    split <;> rfl
  simp [test, hs]

/-- Setting a clear bit and resetting it again restores the bytes. -/
theorem reset_set {bm : BitMap} {i : ℕ} (hi : i < bm.itemCount) (ht : bm.test i = false) :
    (bm.set i).reset i = bm := by
  refine ext_data rfl ?_
  have hslot : (bm.set i).slot i = bm.slot i ||| mask i := by
    rw [slot_modified hi _ i (bm.set i) rfl, if_pos rfl]
  have hbyte : (bm.slot i ||| mask i) &&& ~~~mask i = bm.slot i := by
    have hz : bm.slot i &&& mask i = 0 := by simpa [test] using ht
    ext k hk
    have hk' := congrArg (fun x : Byte => x.getLsbD k) hz
    simp only [BitVec.getLsbD_and] at hk'
    simp only [BitVec.getElem_and, BitVec.getElem_or, BitVec.getElem_not]
    rw [BitVec.getLsbD_eq_getElem hk, BitVec.getLsbD_eq_getElem hk] at hk'
    simp only [BitVec.ofNat_eq_ofNat, BitVec.getLsbD_zero] at hk'
    revert hk'
    cases (bm.slot i)[k] <;> cases (mask i)[k] <;> simp
  change ((bm.set i).data).set (i / slotSize) ((bm.set i).slot i &&& ~~~mask i) = bm.data
  rw [hslot, hbyte]
  change (bm.data.set _ _).set _ _ = _
  rw [List.set_set]
  refine List.ext_getElem (by simp) ?_
  intro k h₁ h₂
  rw [List.getElem_set]
  split
  · next hk =>
    unfold slot
    rw [hk, List.getD_eq_getElem?_getD, List.getElem?_eq_getElem h₂]
    rfl
  · rfl

/-! ## Counting -/

def setBits (bm : BitMap) (lo hi : ℕ) : Finset ℕ := (Finset.Icc lo hi).filter fun i => bm.test i

theorem mem_setBits {bm : BitMap} {lo hi i : ℕ} :
    i ∈ bm.setBits lo hi ↔ (lo ≤ i ∧ i ≤ hi) ∧ bm.test i = true := by
  simp [setBits]

theorem setBits_set {bm : BitMap} {i lo hi : ℕ} (hi' : i < bm.itemCount) :
    (bm.set i).setBits lo hi =
      if lo ≤ i ∧ i ≤ hi then insert i (bm.setBits lo hi) else bm.setBits lo hi := by
  ext j
  split
  · next h =>
    rw [Finset.mem_insert, mem_setBits, mem_setBits, test_set hi']
    by_cases hj : j = i
    · simp [hj, h]
    · simp [hj]
  · next h =>
    rw [mem_setBits, mem_setBits, test_set hi']
    by_cases hj : j = i
    · simp [hj, h]
    · simp [hj]

theorem card_setBits_set {bm : BitMap} {i lo hi : ℕ} (hi' : i < bm.itemCount)
    (ht : bm.test i = false) :
    ((bm.set i).setBits lo hi).card =
      (bm.setBits lo hi).card + if lo ≤ i ∧ i ≤ hi then 1 else 0 := by
  rw [setBits_set hi']
  split
  · rw [Finset.card_insert_of_notMem (by simp [mem_setBits, ht])]
  · rfl

theorem setBits_reset {bm : BitMap} {i lo hi : ℕ} (hi' : i < bm.itemCount) :
    (bm.reset i).setBits lo hi = (bm.setBits lo hi).erase i := by
  ext j
  rw [Finset.mem_erase, mem_setBits, mem_setBits, test_reset hi']
  by_cases hj : j = i
  · simp [hj]
  · simp [hj]

/-! ## Resetting several bits -/

def resetAll (bm : BitMap) (ids : List ℕ) : BitMap := ids.foldl reset bm

@[simp] theorem resetAll_itemCount (bm : BitMap) (ids : List ℕ) :
    (bm.resetAll ids).itemCount = bm.itemCount := by
  unfold resetAll
  induction ids generalizing bm with
  | nil => rfl
  | cons id ids ih => exact ih (bm.reset id)

theorem test_resetAll {bm : BitMap} {ids : List ℕ} (hlt : ∀ id ∈ ids, id < bm.itemCount) (j : ℕ) :
    (bm.resetAll ids).test j = (decide (j ∉ ids) && bm.test j) := by
  unfold resetAll
  induction ids generalizing bm with
  | nil => simp
  | cons id ids ih =>
    rw [List.foldl_cons, @ih (bm.reset id) fun i hi => hlt i (List.mem_cons_of_mem _ hi),
      test_reset (hlt id List.mem_cons_self)]
    by_cases hj : j = id <;> by_cases hm : j ∈ ids <;> simp [hj, hm]

/-- Each of the bits resets once, so the count goes down by those in range. -/
theorem card_setBits_resetAll {bm : BitMap} {ids : List ℕ} (hn : ids.Nodup)
    (hlt : ∀ id ∈ ids, id < bm.itemCount) (hset : ∀ id ∈ ids, bm.test id = true) (lo hi : ℕ) :
    ((bm.resetAll ids).setBits lo hi).card + ids.countP (fun i => lo ≤ i ∧ i ≤ hi) =
      (bm.setBits lo hi).card := by
  unfold resetAll
  induction ids generalizing bm with
  | nil => simp
  | cons id ids ih =>
    obtain ⟨hid, hn⟩ := List.nodup_cons.mp hn
    have hidlt : id < bm.itemCount := hlt id List.mem_cons_self
    have hrest : ∀ i ∈ ids, (bm.reset id).test i = true := by
      intro i hi
      have hne : i ≠ id := fun he => hid (he ▸ hi)
      simp [test_reset hidlt, hne, hset i (List.mem_cons_of_mem _ hi)]
    have hi' := @ih (bm.reset id) hn (fun i hi => hlt i (List.mem_cons_of_mem _ hi)) hrest
    rw [List.foldl_cons, List.countP_cons]
    rw [setBits_reset hidlt] at hi'
    by_cases hr : lo ≤ id ∧ id ≤ hi
    · have hmem : id ∈ bm.setBits lo hi := mem_setBits.mpr ⟨hr, hset id List.mem_cons_self⟩
      have := Finset.card_erase_add_one hmem
      simp only [hr, and_self, decide_true, if_true]
      omega
    · have hmem : id ∉ bm.setBits lo hi := fun hm => hr (mem_setBits.mp hm).1
      rw [Finset.erase_eq_of_notMem hmem] at hi'
      simp only [hr, decide_false, Bool.false_eq_true, if_false]
      omega

@[simp] theorem setBits_new (n lo hi : ℕ) : (new n).setBits lo hi = ∅ := by
  ext j
  simp [mem_setBits]

end BitMap

end Tefs.DataServer
