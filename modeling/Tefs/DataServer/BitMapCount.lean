import Mathlib.Data.Nat.Count
import Tefs.DataServer.BitMap

/-! # Bitmaps that count

Source: `diskmanager/src/bit_map.cpp` and `bit_map.h`, with the machine words, the array and the count that
`Tefs.DataServer.BitMap` leaves out. An assertion that fails, and an access outside of `data_` or of `BITMAPMASK`, gives
`none`.
-/

namespace Tefs.DataServer
set_option autoImplicit false

/-- The members of a `BitMap` object -/
structure BitMapObject where
  itemCount : BitVec 32
  slotCount : BitVec 32
  setCount : BitVec 32
  data : List Byte
  deriving DecidableEq, Repr

namespace BitMapObject

/-! ## The member functions -/

/-- `(item_count + SLOT_SIZE - 1) >> 3` -/
def slotsFor (itemCount : BitVec 32) : BitVec 32 := (itemCount + 8 - 1) >>> 3

/-- The constructor, and `alloc` -/
def create (itemCount : BitVec 32) (setFlag : Bool) : Option BitMapObject :=
  if itemCount = 0 then none
  else
    some {
      itemCount := itemCount
      slotCount := slotsFor itemCount
      setCount := if setFlag then itemCount else 0
      data := List.replicate (slotsFor itemCount).toNat (if setFlag then 0xFF else 0) }

/-- `data_[quot]` and `BITMAPMASK[rem]` -/
def access (o : BitMapObject) (index : BitVec 32) : Option (Byte × Byte) :=
  if index < o.itemCount then do
    let slot ← o.data[(index / 8).toNat]?
    let mask ← bitMapMask[(index % 8).toNat]?
    return (slot, mask)
  else none

def test (o : BitMapObject) (index : BitVec 32) : Option Bool := do
  let (slot, mask) ← o.access index
  return slot &&& mask ≠ 0

def set (o : BitMapObject) (index : BitVec 32) : Option BitMapObject := do
  let (slot, mask) ← o.access index
  if slot &&& mask = 0 then
    return { o with data := o.data.set (index / 8).toNat (slot ||| mask), setCount := o.setCount + 1 }
  else return o

def reset (o : BitMapObject) (index : BitVec 32) : Option BitMapObject := do
  let (slot, mask) ← o.access index
  if slot &&& mask ≠ 0 then
    return { o with data := o.data.set (index / 8).toNat (slot &&& ~~~mask), setCount := o.setCount - 1 }
  else return o

/-- The loop of `copy`, from `pos` on; the number is what is left up to `item_count_`. -/
def recount (o : BitMapObject) : ℕ → BitVec 32 → BitVec 32 → Option (BitVec 32)
  | 0, _, setCount => some setCount
  | left + 1, pos, setCount => do
    let bit ← o.test pos
    recount o left (pos + 1) (if bit then setCount + 1 else setCount)

def copy (o : BitMapObject) (slotCount : BitVec 32) (bitmapData : List Byte) : Option BitMapObject :=
  if o.slotCount = slotCount ∧ slotCount.toNat ≤ bitmapData.length ∧ slotCount.toNat ≤ o.data.length then do
    let o := { o with data := bitmapData.take slotCount.toNat ++ o.data.drop slotCount.toNat, setCount := 0 }
    let setCount ← recount o o.itemCount.toNat 0 0
    return { o with setCount := setCount }
  else none

def getSetCount (o : BitMapObject) : BitVec 32 := o.setCount

/-! ## Sequences of operations -/

inductive Op
  | test (index : BitVec 32)
  | set (index : BitVec 32)
  | reset (index : BitVec 32)
  | copy (bitmapData : List Byte)
  deriving DecidableEq, Repr

/-- An index below the item count, or data of as many bytes as there are slots -/
def Op.Valid (itemCount : BitVec 32) : Op → Prop
  | .test index => index < itemCount
  | .set index => index < itemCount
  | .reset index => index < itemCount
  | .copy bitmapData => bitmapData.length = (slotsFor itemCount).toNat

instance (itemCount : BitVec 32) : (op : Op) → Decidable (op.Valid itemCount)
  | .test _ | .set _ | .reset _ => inferInstanceAs (Decidable (_ < _))
  | .copy _ => inferInstanceAs (Decidable (_ = _))

def step (o : BitMapObject) : Op → Option BitMapObject
  | .test index => (o.test index).map fun _ => o
  | .set index => o.set index
  | .reset index => o.reset index
  | .copy bitmapData => o.copy o.slotCount bitmapData

/-- The bit is `bit` now, the others are as before, and if it was `bit` already, everything is. -/
structure Changed (o o' : BitMapObject) (index : BitVec 32) (bit : Bool) : Prop where
  itemCount : o'.itemCount = o.itemCount
  changed : o'.test index = some bit
  others : ∀ j < o.itemCount, j ≠ index → o'.test j = o.test j
  again : o.test index = some bit → o' = o

/-- No operation fails, the count is that of the bits which are set, and `set` and `reset` change one bit. -/
structure Sound (o : BitMapObject) : Prop where
  test : ∀ index < o.itemCount, ∃ bit, o.test index = some bit
  counted : o.getSetCount.toNat =
    ((Finset.range o.itemCount.toNat).filter fun i => o.test (BitVec.ofNat 32 i) = some true).card
  set : ∀ index < o.itemCount, ∃ o', o.set index = some o' ∧ Changed o o' index true
  reset : ∀ index < o.itemCount, ∃ o', o.reset index = some o' ∧ Changed o o' index false
  copy : ∀ bitmapData : List Byte, bitmapData.length = o.slotCount.toNat →
    ∃ o', o.copy o.slotCount bitmapData = some o' ∧ o'.data = bitmapData

/-! ## The bits of the array -/

/-- The object has the bits of `bm`, and their number. -/
structure Holds (bm : BitMap) (o : BitMapObject) : Prop where
  itemCount : bm.itemCount = o.itemCount.toNat
  data : bm.data = o.data
  slotCount : DataServer.slotCount bm.itemCount = o.slotCount.toNat
  counted : o.setCount.toNat = Nat.count (fun i => bm.test i = true) bm.itemCount

section

variable {bm : BitMap} {o : BitMapObject} {index : BitVec 32}

theorem access_eq (hitems : bm.itemCount = o.itemCount.toNat) (hdata : bm.data = o.data) (hi : index < o.itemCount) :
    o.access index = some (bm.slot index.toNat, BitMap.mask index.toNat) := by
  have hlt : index.toNat < bm.itemCount := by
    rw [hitems]
    exact hi
  have hslot : o.data[(index / 8).toNat]? = some (bm.slot index.toNat) := by
    have hin := BitMap.slot_lt hlt
    rw [BitMap.slot, ← hdata, List.getD_eq_getElem?_getD]
    change bm.data[index.toNat / slotSize]? = _
    rw [List.getElem?_eq_getElem hin]
    rfl
  have hmask : bitMapMask[(index % 8).toNat]? = some (BitMap.mask index.toNat) := by
    have hrem : index.toNat % slotSize < bitMapMask.length := Nat.mod_lt _ (by decide)
    rw [BitMap.mask, List.getD_eq_getElem?_getD]
    change bitMapMask[index.toNat % slotSize]? = _
    rw [List.getElem?_eq_getElem hrem]
    rfl
  rw [access, if_pos hi, hslot, hmask]
  rfl

theorem test_eq_some (hitems : bm.itemCount = o.itemCount.toNat) (hdata : bm.data = o.data) (hi : index < o.itemCount) :
    o.test index = some (bm.test index.toNat) := by
  rw [test, access_eq hitems hdata hi]
  rfl

/-! ## The count -/

theorem count_insert {p q : ℕ → Prop} [DecidablePred p] [DecidablePred q] {n i : ℕ} (hi : i < n) (hp : ¬ p i)
    (hq : ∀ j, q j ↔ j = i ∨ p j) : Nat.count q n = Nat.count p n + 1 := by
  have hinsert : (Finset.range n).filter q = insert i ((Finset.range n).filter p) := by
    ext j
    rw [Finset.mem_insert, Finset.mem_filter, Finset.mem_filter, Finset.mem_range, hq]
    constructor
    · rintro ⟨hj, rfl | hpj⟩
      · exact .inl rfl
      · exact .inr ⟨hj, hpj⟩
    · rintro (rfl | ⟨hj, hpj⟩)
      · exact ⟨hi, .inl rfl⟩
      · exact ⟨hj, .inr hpj⟩
  have hnew : i ∉ (Finset.range n).filter p := fun hmem => hp (Finset.mem_filter.mp hmem).2
  rw [Nat.count_eq_card_filter_range, Nat.count_eq_card_filter_range, hinsert, Finset.card_insert_of_notMem hnew]

theorem Holds.lt (h : Holds bm o) (hi : index < o.itemCount) : index.toNat < bm.itemCount := by
  rw [h.itemCount]
  exact hi

theorem Holds.test (h : Holds bm o) (hi : index < o.itemCount) : o.test index = some (bm.test index.toNat) :=
  test_eq_some h.itemCount h.data hi

theorem Holds.set (h : Holds bm o) (hi : index < o.itemCount) :
    ∃ o' bm', o.set index = some o' ∧ Holds bm' o' ∧ o'.itemCount = o.itemCount ∧
      (bm.test index.toNat = true → o' = o) ∧ ∀ j, bm'.test j = if j = index.toNat then true else bm.test j := by
  have hlt := h.lt hi
  rw [BitMapObject.set, access_eq h.itemCount h.data hi]
  by_cases ht : bm.test index.toNat = true
  · have hset : bm.slot index.toNat &&& BitMap.mask index.toNat ≠ 0 := by simpa [BitMap.test] using ht
    refine ⟨o, bm, if_neg hset, h, rfl, fun _ => rfl, fun j => ?_⟩
    by_cases hj : j = index.toNat
    · simp [hj, ht]
    · simp [hj]
  · have hclear : bm.slot index.toNat &&& BitMap.mask index.toNat = 0 := by simpa [BitMap.test] using ht
    have hcount : Nat.count (fun i => (bm.set index.toNat).test i = true) bm.itemCount =
        Nat.count (fun i => bm.test i = true) bm.itemCount + 1 :=
      count_insert hlt ht fun j => by simp [BitMap.test_set hlt]
    have hle : Nat.count (fun i => (bm.set index.toNat).test i = true) bm.itemCount ≤ bm.itemCount := Nat.count_le _
    have hcounted := h.counted
    have hitems := h.itemCount
    refine ⟨_, bm.set index.toNat, if_pos hclear, ⟨h.itemCount, ?_, h.slotCount, ?_⟩, rfl, fun h' => absurd h' ht,
      fun j => ?_⟩
    · change bm.data.set _ _ = o.data.set _ _
      rw [h.data]
      rfl
    · change (o.setCount + 1).toNat = _
      rw [BitMap.set_itemCount, hcount]
      have hmax := o.itemCount.isLt
      bv_omega
    · rw [BitMap.test_set hlt]
      by_cases hj : j = index.toNat
      · simp [hj]
      · simp [hj]

theorem Holds.reset (h : Holds bm o) (hi : index < o.itemCount) :
    ∃ o' bm', o.reset index = some o' ∧ Holds bm' o' ∧ o'.itemCount = o.itemCount ∧
      (bm.test index.toNat = false → o' = o) ∧ ∀ j, bm'.test j = if j = index.toNat then false else bm.test j := by
  have hlt := h.lt hi
  rw [BitMapObject.reset, access_eq h.itemCount h.data hi]
  by_cases ht : bm.test index.toNat = true
  · have hset : bm.slot index.toNat &&& BitMap.mask index.toNat ≠ 0 := by simpa [BitMap.test] using ht
    have hcount : Nat.count (fun i => bm.test i = true) bm.itemCount =
        Nat.count (fun i => (bm.reset index.toNat).test i = true) bm.itemCount + 1 := by
      refine count_insert hlt (by simp [BitMap.test_reset hlt]) fun j => ?_
      rw [BitMap.test_reset hlt]
      by_cases hj : j = index.toNat
      · simp [hj, ht]
      · simp [hj]
    have hcounted := h.counted
    refine ⟨_, bm.reset index.toNat, if_pos hset, ⟨h.itemCount, ?_, h.slotCount, ?_⟩, rfl, ?_, fun j => ?_⟩
    · change bm.data.set _ _ = o.data.set _ _
      rw [h.data]
      rfl
    · change (o.setCount - 1).toNat = _
      rw [BitMap.reset_itemCount]
      bv_omega
    · intro hf
      exact absurd (ht.symm.trans hf) Bool.false_ne_true.symm
    · rw [BitMap.test_reset hlt]
      by_cases hj : j = index.toNat
      · simp [hj]
      · simp [hj]
  · have hclear : ¬ bm.slot index.toNat &&& BitMap.mask index.toNat ≠ 0 := by simpa [BitMap.test] using ht
    refine ⟨o, bm, if_neg hclear, h, rfl, fun _ => rfl, fun j => ?_⟩
    by_cases hj : j = index.toNat
    · simp [hj, ht]
    · simp [hj]

/-- The loop of `copy` counts the bits from `pos` on. -/
theorem recount_eq (hitems : bm.itemCount = o.itemCount.toNat) (hdata : bm.data = o.data) {left : ℕ}
    {pos setCount : BitVec 32} (hpos : pos.toNat + left = bm.itemCount)
    (hcount : setCount.toNat = Nat.count (fun i => bm.test i = true) pos.toNat) :
    ∃ c, recount o left pos setCount = some c ∧ c.toNat = Nat.count (fun i => bm.test i = true) bm.itemCount := by
  induction left generalizing pos setCount with
  | zero => exact ⟨setCount, rfl, by rw [hcount, ← hpos, Nat.add_zero]⟩
  | succ left ih =>
    have hmax := o.itemCount.isLt
    have hlt : pos < o.itemCount := by
      change pos.toNat < o.itemCount.toNat
      omega
    have hnext : (pos + 1).toNat = pos.toNat + 1 := by bv_omega
    have hle : Nat.count (fun i => bm.test i = true) pos.toNat ≤ pos.toNat := Nat.count_le _
    rw [recount, test_eq_some hitems hdata hlt]
    refine ih (by omega) ?_
    rw [hnext, Nat.count_succ, ← hcount]
    split
    · bv_omega
    · rfl

theorem Holds.copy (h : Holds bm o) {bitmapData : List Byte} (hlen : bitmapData.length = o.slotCount.toNat) :
    ∃ o' bm', o.copy o.slotCount bitmapData = some o' ∧ Holds bm' o' ∧ o'.itemCount = o.itemCount ∧
      o'.data = bitmapData := by
  have hslots : o.data.length = o.slotCount.toNat := by rw [← h.data, bm.size_eq, h.slotCount]
  have hcopied : bitmapData.take o.slotCount.toNat ++ o.data.drop o.slotCount.toNat = bitmapData := by
    rw [← hlen, List.take_length, List.drop_eq_nil_of_le (by omega), List.append_nil]
  let bm' : BitMap := ⟨bm.itemCount, bitmapData, hlen.trans h.slotCount.symm⟩
  let o' : BitMapObject := { o with data := bitmapData, setCount := 0 }
  have hitems : bm'.itemCount = o'.itemCount.toNat := h.itemCount
  have hpos : (0 : BitVec 32).toNat + o.itemCount.toNat = bm'.itemCount := (Nat.zero_add _).trans hitems.symm
  have hzero : (0 : BitVec 32).toNat = Nat.count (fun i => bm'.test i = true) (0 : BitVec 32).toNat :=
    (Nat.count_zero _).symm
  have hdata : bm'.data = o'.data := rfl
  obtain ⟨c, hrecount, hc⟩ := recount_eq hitems hdata hpos hzero
  refine ⟨{ o' with setCount := c }, bm', ?_, ⟨hitems, rfl, h.slotCount, hc⟩, rfl, rfl⟩
  rw [BitMapObject.copy, if_pos ⟨rfl, hlen.ge, hslots.ge⟩, hcopied]
  change (recount o' o.itemCount.toNat 0 0).bind _ = _
  rw [hrecount]
  rfl

/-! ## New bitmaps -/

theorem slotsFor_toNat {itemCount : BitVec 32} (hmax : itemCount.toNat ≤ 2 ^ 32 - 8) :
    (slotsFor itemCount).toNat = DataServer.slotCount itemCount.toNat := by
  have hsum : (itemCount + 8 - 1).toNat = itemCount.toNat + 8 - 1 := by bv_omega
  rw [slotsFor, BitVec.toNat_ushiftRight, hsum, Nat.shiftRight_eq_div_pow]
  rfl

def filled (itemCount : ℕ) (fill : Byte) : BitMap :=
  ⟨itemCount, List.replicate (DataServer.slotCount itemCount) fill, List.length_replicate⟩

theorem test_filled {itemCount i : ℕ} (hi : i < itemCount) (setFlag : Bool) :
    (filled itemCount (if setFlag then 0xFF else 0)).test i = setFlag := by
  have hin : i / slotSize < DataServer.slotCount itemCount := by
    unfold DataServer.slotCount slotSize
    omega
  have hslot : (filled itemCount (if setFlag then 0xFF else 0)).slot i = if setFlag then 0xFF else 0 := by
    rw [BitMap.slot, filled, List.getD_eq_getElem?_getD, List.getElem?_replicate_of_lt hin]
    rfl
  have hplace := BitMap.place_lt i
  rw [BitMap.test_eq, hslot]
  generalize BitMap.place i = place at hplace
  cases setFlag with
  | false => simp
  | true =>
    revert place
    decide

theorem create_holds {itemCount : BitVec 32} (hpos : 1 ≤ itemCount.toNat) (hmax : itemCount.toNat ≤ 2 ^ 32 - 8)
    (setFlag : Bool) : ∃ o bm, create itemCount setFlag = some o ∧ Holds bm o ∧ o.itemCount = itemCount := by
  have hne : itemCount ≠ 0 := by
    rintro rfl
    exact absurd hpos (by decide)
  refine ⟨_, filled itemCount.toNat (if setFlag then 0xFF else 0), if_neg hne, ⟨rfl, ?_, (slotsFor_toNat hmax).symm, ?_⟩,
    rfl⟩
  · rw [filled, slotsFor_toNat hmax]
  · cases setFlag with
    | false =>
      refine (Nat.count_iff_forall_not.mpr fun i hi htrue => ?_).symm
      exact Bool.false_ne_true ((test_filled hi false).symm.trans htrue)
    | true => exact (Nat.count_iff_forall.mpr fun i hi => test_filled hi true).symm

/-! ## Runs -/

/-- What `set` and `reset` have in common -/
theorem Holds.changed (h : Holds bm o) {bm' : BitMap} {o' : BitMapObject} (h' : Holds bm' o')
    (hitems : o'.itemCount = o.itemCount) (hi : index < o.itemCount) {bit : Bool}
    (hagain : bm.test index.toNat = bit → o' = o)
    (hbits : ∀ j, bm'.test j = if j = index.toNat then bit else bm.test j) : Changed o o' index bit := by
  refine ⟨hitems, ?_, fun j hj hne => ?_, fun hbit => hagain ?_⟩
  · rw [h'.test (hitems ▸ hi), hbits, if_pos rfl]
  · have hplace : j.toNat ≠ index.toNat := fun heq => hne (BitVec.eq_of_toNat_eq heq)
    rw [h'.test (hitems ▸ hj), h.test hj, hbits, if_neg hplace]
  · rw [h.test hi] at hbit
    exact Option.some.inj hbit

theorem Holds.sound (h : Holds bm o) : Sound o where
  test index hi := ⟨_, h.test hi⟩
  counted := by
    rw [getSetCount, h.counted, Nat.count_eq_card_filter_range, h.itemCount]
    congr 1
    refine Finset.filter_congr fun i hi => ?_
    have hlt : i < o.itemCount.toNat := Finset.mem_range.mp hi
    have hofNat : (BitVec.ofNat 32 i).toNat = i := by
      rw [BitVec.toNat_ofNat]
      exact Nat.mod_eq_of_lt (hlt.trans o.itemCount.isLt)
    have hin : BitVec.ofNat 32 i < o.itemCount := by
      change (BitVec.ofNat 32 i).toNat < o.itemCount.toNat
      rwa [hofNat]
    rw [h.test hin, hofNat, Option.some.injEq]
  set index hi := by
    obtain ⟨o', bm', hset, h', hitems, hagain, hbits⟩ := h.set hi
    exact ⟨o', hset, h.changed h' hitems hi hagain hbits⟩
  reset index hi := by
    obtain ⟨o', bm', hreset, h', hitems, hagain, hbits⟩ := h.reset hi
    exact ⟨o', hreset, h.changed h' hitems hi hagain hbits⟩
  copy bitmapData hlen := by
    obtain ⟨o', -, hcopy, -, -, hdata⟩ := h.copy hlen
    exact ⟨o', hcopy, hdata⟩

theorem Holds.step (h : Holds bm o) (hmax : o.itemCount.toNat ≤ 2 ^ 32 - 8) {op : Op} (hop : op.Valid o.itemCount) :
    ∃ o' bm', step o op = some o' ∧ Holds bm' o' ∧ o'.itemCount = o.itemCount := by
  cases op with
  | test index =>
    refine ⟨o, bm, ?_, h, rfl⟩
    rw [BitMapObject.step, h.test hop]
    rfl
  | set index =>
    obtain ⟨o', bm', hset, h', hitems, -⟩ := h.set hop
    exact ⟨o', bm', hset, h', hitems⟩
  | reset index =>
    obtain ⟨o', bm', hreset, h', hitems, -⟩ := h.reset hop
    exact ⟨o', bm', hreset, h', hitems⟩
  | copy bitmapData =>
    have hlen : bitmapData.length = o.slotCount.toNat := by
      rw [← h.slotCount, h.itemCount, ← slotsFor_toNat hmax]
      exact hop
    obtain ⟨o', bm', hcopy, h', hitems, -⟩ := h.copy hlen
    exact ⟨o', bm', hcopy, h', hitems⟩

theorem Holds.run (h : Holds bm o) (hmax : o.itemCount.toNat ≤ 2 ^ 32 - 8) {ops : List Op}
    (hops : ∀ op ∈ ops, op.Valid o.itemCount) :
    ∃ o' bm', ops.foldlM BitMapObject.step o = some o' ∧ Holds bm' o' ∧ o'.itemCount = o.itemCount := by
  induction ops generalizing o bm with
  | nil => exact ⟨o, bm, rfl, h, rfl⟩
  | cons op ops ih =>
    obtain ⟨o₁, bm₁, hstep, h₁, hitems₁⟩ := h.step hmax (hops op List.mem_cons_self)
    rw [← hitems₁] at hmax hops
    obtain ⟨o₂, bm₂, hrun, h₂, hitems₂⟩ := ih h₁ hmax fun op' hop' => hops op' (List.mem_cons_of_mem op hop')
    refine ⟨o₂, bm₂, ?_, h₂, hitems₂.trans hitems₁⟩
    rw [List.foldlM_cons, hstep]
    exact hrun

/-- Whatever is done with a new bitmap, it is sound. -/
theorem bitMap_sound {itemCount : BitVec 32} (hpos : 1 ≤ itemCount.toNat) (hmax : itemCount.toNat ≤ 2 ^ 32 - 8)
    (setFlag : Bool) {ops : List Op} (hops : ∀ op ∈ ops, op.Valid itemCount) :
    ∃ o₀ o, create itemCount setFlag = some o₀ ∧ ops.foldlM BitMapObject.step o₀ = some o ∧ o.itemCount = itemCount ∧
      Sound o := by
  obtain ⟨o₀, bm₀, hcreate, h₀, hitems₀⟩ := create_holds hpos hmax setFlag
  rw [← hitems₀] at hmax hops
  obtain ⟨o, bm, hrun, h, hitems⟩ := h₀.run hmax hops
  exact ⟨o₀, o, hcreate, hrun, hitems.trans hitems₀, h.sound⟩

end

/-- The last of the two slots is used by half. -/
theorem twelve_items_sound : ∃ o₀ o, create 12 true = some o₀ ∧
    [.reset 11, .reset 11, .set 11, .copy [0x0F, 0xFF], .set 0, .test 3].foldlM BitMapObject.step o₀ = some o ∧
    o.itemCount = 12 ∧ Sound o :=
  bitMap_sound (by decide) (by decide) true (by decide)

end BitMapObject

end Tefs.DataServer
