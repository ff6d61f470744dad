import Tefs.DataServer.ClientPut
import Tefs.DataServer.DataHandle
import Tefs.Lib.Framing

/-! # A logic block is one array of bytes

Source: `diskmanager/src/data_handle.cpp`, `pread_data` and `pwrite_data` of `physical_block.cpp`,
`add_physic_block`, `read_raw_data`, `write_raw_data` and `extend_block` of `logic_block.cpp`.

Here the files are bytes from position 0 on: the prefix area comes first, the data area starts at
`data_start_`. `locate` says where a byte of the logic block lies. A turn of the loops is one call of
`choose_physic_block` and one read or write of what it found.
-/

namespace Tefs.DataServer.FlatBlock
open Wire Framing
set_option autoImplicit false

/-! ## Physical blocks -/

/-- `BLOCK_RESERVER_LENGTH`, the `data_start_` of every block -/
def dataStart : ℤ := 512

/-- The contents of the files -/
abbrev Files := ℕ → ℤ → Byte

structure PhysicalBlock where
  file : ℕ
  totalDataLen : ℤ
  deriving DecidableEq, Repr

def PhysicalBlock.preadData (b : PhysicalBlock) (files : Files) (nbytes offset : ℤ) : ℤ × List Byte :=
  if b.totalDataLen < int32 (offset + nbytes) then (exitPhysicBlockOffsetError, [])
  else (tfsSuccess, bytesAt (files b.file) (dataStart + offset) nbytes.toNat)

def PhysicalBlock.pwriteData (b : PhysicalBlock) (files : Files) (buf : List Byte) (offset : ℤ) : ℤ × Files :=
  if b.totalDataLen < int32 (offset + buf.length) then (exitPhysicBlockOffsetError, files)
  else (tfsSuccess, Function.update files b.file (lay (files b.file) (dataStart + offset) (buf.map some)))

/-! ## DataHandle -/

/-- The block, `inner_offset` and `inner_len` for the byte at `offset` -/
def choosePhysicBlock (offset innerLen : ℤ) : (sumOffset prevSumOffset : ℤ) → List PhysicalBlock →
    Option (PhysicalBlock × ℤ × ℤ)
  | _, _, [] => none
  | sumOffset, prevSumOffset, b :: bs =>
    let sumOffset := int32 (sumOffset + b.totalDataLen)
    if offset < sumOffset then
      some (b, int32 (offset - prevSumOffset),
        if sumOffset < int32 (offset + innerLen) then int32 (sumOffset - offset) else innerLen)
    else choosePhysicBlock offset innerLen sumOffset (int32 (prevSumOffset + b.totalDataLen)) bs

/-- The loop of `write_segment_data`; `none` if it has not come to its end after `rounds` turns. -/
def writeSegmentData (blocks : List PhysicalBlock) (buf : List Byte) (offset : ℤ) :
    (rounds : ℕ) → (writtenLen : ℤ) → Files → Option (ℤ × Files)
  | 0, _, _ => none
  | rounds + 1, writtenLen, files =>
    if writtenLen < buf.length then
      match choosePhysicBlock (int32 (offset + writtenLen)) (int32 (buf.length - writtenLen)) 0 0 blocks with
      | none => some (exitPhysicBlockOffsetError, files)
      | some (b, innerOffset, writtingLen) =>
        let (ret, files) :=
          b.pwriteData files ((buf.drop writtenLen.toNat).take writtingLen.toNat) innerOffset
        if ret ≠ tfsSuccess then some (ret, files)
        else writeSegmentData blocks buf offset rounds (int32 (writtenLen + writtingLen)) files
    else some (tfsSuccess, files)

/-- The loop of `read_segment_data`, with what has been read -/
def readSegmentData (blocks : List PhysicalBlock) (files : Files) (nbytes offset : ℤ) :
    (rounds : ℕ) → (hasReadLen : ℤ) → List Byte → Option (ℤ × List Byte)
  | 0, _, _ => none
  | rounds + 1, hasReadLen, buf =>
    if hasReadLen < nbytes then
      match choosePhysicBlock (int32 (offset + hasReadLen)) (int32 (nbytes - hasReadLen)) 0 0 blocks with
      | none => some (exitPhysicBlockOffsetError, buf)
      | some (b, innerOffset, readingLen) =>
        let (ret, part) := b.preadData files readingLen innerOffset
        if ret ≠ tfsSuccess then some (ret, buf)
        else readSegmentData blocks files nbytes offset rounds (int32 (hasReadLen + readingLen)) (buf ++ part)
    else some (tfsSuccess, buf)

/-! ## Logic blocks -/

def totalLen (blocks : List PhysicalBlock) : ℤ := (blocks.map PhysicalBlock.totalDataLen).sum

structure LogicBlock where
  physicalBlockList : List PhysicalBlock
  nonempty : physicalBlockList ≠ []
  positive : ∀ b ∈ physicalBlockList, 0 < b.totalDataLen
  distinct : (physicalBlockList.map PhysicalBlock.file).Nodup
  small : totalLen physicalBlockList < 2 ^ 31

namespace LogicBlock

/-- `avail_data_size_`, which every `add_physic_block` adds to -/
def availDataSize (lb : LogicBlock) : ℤ :=
  lb.physicalBlockList.foldl (fun size b => int32 (size + b.totalDataLen)) 0

/-- What `read_raw_data` returns, what is in the buffer then, and `nbytes` -/
def readRawData (lb : LogicBlock) (files : Files) (nbytes offset : ℤ) (rounds : ℕ) :
    Option (ℤ × List Byte × ℤ) :=
  if lb.availDataSize < offset then some (exitFailure, [], nbytes)
  else
    let nbytes := if lb.availDataSize < int32 (offset + nbytes) then int32 (lb.availDataSize - offset) else nbytes
    (readSegmentData lb.physicalBlockList files nbytes offset rounds 0 []).map fun r => (r.1, r.2, nbytes)

/-- `newExtBlock` stands for `new_ext_block` with the two updates behind it; without `EXTEND_SUPPORT` it is an
error. -/
def extendBlock (newExtBlock : LogicBlock → ℤ × LogicBlock) (size offset : ℤ) :
    (retryTimes : ℕ) → LogicBlock → ℤ × LogicBlock
  | 0, lb => (exitPhysicalBlockNumError, lb)
  | retryTimes + 1, lb =>
    if lb.availDataSize < int32 (offset + size) then
      let (ret, lb) := newExtBlock lb
      if ret ≠ tfsSuccess then (ret, lb) else extendBlock newExtBlock size offset retryTimes lb
    else (tfsSuccess, lb)

def writeRawData (newExtBlock : LogicBlock → ℤ × LogicBlock) (lb : LogicBlock) (files : Files) (buf : List Byte)
    (offset : ℤ) (rounds : ℕ) : Option (ℤ × LogicBlock × Files) :=
  let (ret, lb) := extendBlock newExtBlock buf.length offset maxExtendTimes lb
  if ret ≠ tfsSuccess then some (ret, lb, files)
  else (writeSegmentData lb.physicalBlockList buf offset rounds 0 files).map fun r => (r.1, lb, r.2)

end LogicBlock

/-! ## The array -/

/-- The file and the position in it of byte `q` of the logic block -/
def locate : List PhysicalBlock → ℤ → ℕ × ℤ
  | [], q => (0, dataStart + q)
  | b :: bs, q => if q < b.totalDataLen then (b.file, dataStart + q) else locate bs (q - b.totalDataLen)

def byteAt (blocks : List PhysicalBlock) (files : Files) (q : ℤ) : Byte :=
  files (locate blocks q).1 (locate blocks q).2

/-- The bytes from `offset` on, `n` of them -/
def slice (blocks : List PhysicalBlock) (files : Files) (offset : ℤ) (n : ℕ) : List Byte :=
  bytesAt (byteAt blocks files) offset n

theorem totalLen_cons (b : PhysicalBlock) (bs : List PhysicalBlock) :
    totalLen (b :: bs) = b.totalDataLen + totalLen bs := List.sum_cons

theorem totalLen_nonneg {blocks : List PhysicalBlock} (hpos : ∀ b ∈ blocks, 0 < b.totalDataLen) :
    0 ≤ totalLen blocks := by
  induction blocks with
  | nil => exact Int.le_refl 0
  | cons b bs ih =>
    have hb := hpos b List.mem_cons_self
    have hbs := ih fun b' hb' => hpos b' (List.mem_cons_of_mem b hb')
    rw [totalLen_cons]
    omega

theorem locate_file_mem {blocks : List PhysicalBlock} {q : ℤ} (hq : q < totalLen blocks) (hpos : 0 ≤ q) :
    (locate blocks q).1 ∈ blocks.map PhysicalBlock.file := by
  induction blocks generalizing q with
  | nil => exact absurd hq (by rw [show totalLen [] = 0 from rfl]; omega)
  | cons b bs ih =>
    rw [totalLen_cons] at hq
    rw [locate, List.map_cons]
    split
    · exact List.mem_cons_self
    · exact List.mem_cons_of_mem _ (ih (by omega) (by omega))

theorem dataStart_le_locate (blocks : List PhysicalBlock) {q : ℤ} (hq : 0 ≤ q) :
    dataStart ≤ (locate blocks q).2 := by
  induction blocks generalizing q with
  | nil =>
    simp only [locate]
    omega
  | cons b bs ih =>
    rw [locate]
    split
    · simp only
      omega
    · exact ih (by omega)

/-- Different bytes lie in different places. -/
theorem locate_inj {blocks : List PhysicalBlock} (hdistinct : (blocks.map PhysicalBlock.file).Nodup) {q q' : ℤ}
    (hq : 0 ≤ q ∧ q < totalLen blocks) (hq' : 0 ≤ q' ∧ q' < totalLen blocks)
    (h : locate blocks q = locate blocks q') : q = q' := by
  induction blocks generalizing q q' with
  | nil => exact absurd hq.2 (by rw [show totalLen [] = 0 from rfl]; omega)
  | cons b bs ih =>
    rw [List.map_cons, List.nodup_cons] at hdistinct
    rw [totalLen_cons] at hq hq'
    -- a byte of the first block is in another file than those behind it
    have hother {r : ℤ} (hr : ¬ r < b.totalDataLen) (hend : r < b.totalDataLen + totalLen bs) :
        (locate bs (r - b.totalDataLen)).1 ≠ b.file := by
      intro hfile
      exact hdistinct.1 (hfile ▸ locate_file_mem (by omega) (by omega))
    simp only [locate] at h
    by_cases hfirst : q < b.totalDataLen
    · rw [if_pos hfirst] at h
      by_cases hfirst' : q' < b.totalDataLen
      · rw [if_pos hfirst'] at h
        have hplace := congrArg Prod.snd h
        simp only at hplace
        omega
      · rw [if_neg hfirst'] at h
        exact absurd (congrArg Prod.fst h).symm (hother hfirst' hq'.2)
    · rw [if_neg hfirst] at h
      by_cases hfirst' : q' < b.totalDataLen
      · rw [if_pos hfirst'] at h
        exact absurd (congrArg Prod.fst h) (hother hfirst hq.2)
      · rw [if_neg hfirst'] at h
        have hsame := ih hdistinct.2 ⟨by omega, by omega⟩ ⟨by omega, by omega⟩ h
        omega

/-! ## One turn -/

/-- What `choose_physic_block` finds: a part of one file that holds the next bytes. -/
theorem choosePhysicBlock_spec (blocks : List PhysicalBlock) (passed offset innerLen : ℤ)
    (hpos : ∀ b ∈ blocks, 0 < b.totalDataLen) (hpassed : 0 ≤ passed) (hlower : passed ≤ offset)
    (hupper : offset < passed + totalLen blocks) (hsmall : passed + totalLen blocks < 2 ^ 31)
    (hlen : 0 < innerLen) (hend : offset + innerLen < 2 ^ 31) :
    ∃ b innerOffset len, choosePhysicBlock offset innerLen passed passed blocks = some (b, innerOffset, len) ∧
      0 ≤ innerOffset ∧ 0 < len ∧ len ≤ innerLen ∧ innerOffset + len ≤ b.totalDataLen ∧
      b.totalDataLen < 2 ^ 31 ∧
      ∀ i, 0 ≤ i → i < len → locate blocks (offset - passed + i) = (b.file, dataStart + innerOffset + i) := by
  induction blocks generalizing passed with
  | nil => exact absurd hupper (by rw [show totalLen [] = 0 from rfl]; omega)
  | cons b bs ih =>
    have hb := hpos b List.mem_cons_self
    have hbs := totalLen_nonneg fun b' hb' => hpos b' (List.mem_cons_of_mem b hb')
    rw [totalLen_cons] at hupper hsmall
    rw [choosePhysicBlock]
    simp only [int32_of_range (v := passed + b.totalDataLen) (by omega) (by omega)]
    by_cases hin : offset < passed + b.totalDataLen
    · rw [if_pos hin, int32_of_range (v := offset - passed) (by omega) (by omega),
        int32_of_range (v := offset + innerLen) (by omega) (by omega),
        int32_of_range (v := passed + b.totalDataLen - offset) (by omega) (by omega)]
      refine ⟨b, offset - passed, _, rfl, by omega, ?_, ?_, ?_, by omega, fun i hi hlt => ?_⟩
      · split <;> omega
      · split <;> omega
      · split <;> omega
      · have hinside : offset - passed + i < b.totalDataLen := by
          split at hlt <;> omega
        rw [locate, if_pos hinside, Int.add_assoc]
    · rw [if_neg hin]
      obtain ⟨b', innerOffset, len, hchoose, hinner, hlen', hle, hfits, hsmall', hplace⟩ :=
        ih (passed + b.totalDataLen) (fun b' hb' => hpos b' (List.mem_cons_of_mem b hb')) (by omega) (by omega)
          (by omega) (by omega)
      refine ⟨b', innerOffset, len, hchoose, hinner, hlen', hle, hfits, hsmall', fun i hi hlt => ?_⟩
      have hidx : offset - passed + i - b.totalDataLen = offset - (passed + b.totalDataLen) + i := by omega
      rw [locate, if_neg (by omega), hidx]
      exact hplace i hi hlt

section Turns
variable {blocks : List PhysicalBlock} {files : Files}

theorem slice_eq_bytesAt (files : Files) {q : ℤ} {n : ℕ} {file : ℕ} {p : ℤ}
    (h : ∀ i : ℤ, 0 ≤ i → i < n → locate blocks (q + i) = (file, p + i)) :
    slice blocks files q n = bytesAt (files file) p n := by
  apply List.map_congr_left
  intro i hi
  rw [List.mem_range] at hi
  rw [byteAt, h i (by omega) (by omega)]

/-- A write to one place leaves the others alone. -/
theorem overwrite_outside {file file' : ℕ} {p p' : ℤ} {buf : List Byte}
    (h : ∀ i : ℤ, 0 ≤ i → i < buf.length → (file, p + i) ≠ (file', p')) :
    Function.update files file (lay (files file) p (buf.map some)) file' p' = files file' p' := by
  by_cases hfile : file' = file
  · subst hfile
    rw [Function.update_self]
    by_cases hbefore : p' < p
    · exact lay_of_lt _ _ hbefore
    · refine lay_of_ge _ _ ?_
      rw [List.length_map]
      by_contra hin
      refine h (p' - p) (by omega) (by omega) ?_
      rw [Int.add_comm p, Int.sub_add_cancel]
  · rw [Function.update_of_ne hfile]

/-! ## Reads -/

theorem readSegmentData_eq (hpos : ∀ b ∈ blocks, 0 < b.totalDataLen) (hsmall : totalLen blocks < 2 ^ 31)
    (files : Files) (nbytes : ℤ) {offset : ℤ} (hoffset : 0 ≤ offset) (hend : offset + nbytes ≤ totalLen blocks)
    (rounds : ℕ) {done : ℤ} (hdone : 0 ≤ done) (hle : done ≤ nbytes) (hrounds : nbytes - done < rounds) :
    readSegmentData blocks files nbytes offset rounds done (slice blocks files offset done.toNat) =
      some (tfsSuccess, slice blocks files offset nbytes.toNat) := by
  induction rounds generalizing done with
  | zero => exact absurd hrounds (by omega)
  | succ rounds ih =>
    rw [readSegmentData]
    by_cases hmore : done < nbytes
    · obtain ⟨b, innerOffset, len, hchoose, hinner, hlen, hlenLe, hfits, hblock, hplace⟩ :=
        choosePhysicBlock_spec blocks 0 (offset + done) (nbytes - done) hpos (Int.le_refl 0)
          (by omega) (by omega) (by omega) (by omega) (by omega)
      have hpart : slice blocks files (offset + done) len.toNat =
          bytesAt (files b.file) (dataStart + innerOffset) len.toNat := by
        refine slice_eq_bytesAt files fun i hi hlt => ?_
        have h := hplace i hi (by omega)
        rwa [Int.sub_zero] at h
      have hsplit : slice blocks files offset (done + len).toNat =
          slice blocks files offset done.toNat ++ slice blocks files (offset + done) len.toNat := by
        have hnat : (done + len).toNat = done.toNat + len.toNat := by omega
        have hcast : offset + (done.toNat : ℤ) = offset + done := by omega
        rw [slice, hnat, bytesAt_add, hcast]
        rfl
      rw [if_pos hmore, int32_of_range (v := offset + done) (by omega) (by omega),
        int32_of_range (v := nbytes - done) (by omega) (by omega), hchoose]
      simp only [PhysicalBlock.preadData, int32_of_range (v := innerOffset + len) (by omega) (by omega),
        if_neg (show ¬ b.totalDataLen < innerOffset + len by omega), ne_eq, not_true_eq_false, if_false,
        int32_of_range (v := done + len) (by omega) (by omega)]
      rw [← hpart, ← hsplit]
      exact ih (by omega) (by omega) (by omega)
    · have hall : done = nbytes := by omega
      rw [if_neg hmore, hall]

/-! ## Writes -/

/-- The first `k` bytes of `buf` are in the block from `offset` on, and nothing else has changed. -/
structure Wrote (blocks : List PhysicalBlock) (buf : List Byte) (offset k : ℤ) (files files' : Files) : Prop where
  inside : slice blocks files' offset k.toNat = buf.take k.toNat
  outside : ∀ file p, (∀ i, 0 ≤ i → i < k → locate blocks (offset + i) ≠ (file, p)) → files' file p = files file p

theorem Wrote.start (blocks : List PhysicalBlock) (buf : List Byte) (offset : ℤ) (files : Files) :
    Wrote blocks buf offset 0 files files := ⟨rfl, fun _ _ _ => rfl⟩

/-- One more part, in one file -/
theorem Wrote.add {buf : List Byte} {offset k len : ℤ} {files' : Files} (h : Wrote blocks buf offset k files files')
    (hdistinct : (blocks.map PhysicalBlock.file).Nodup) (hoffset : 0 ≤ offset) (hk : 0 ≤ k) (hlen : 0 < len)
    (hin : offset + (k + len) ≤ totalLen blocks) (hbuf : k + len ≤ buf.length) {file : ℕ} {p : ℤ}
    (hplace : ∀ i, 0 ≤ i → i < len → locate blocks (offset + k + i) = (file, p + i)) :
    Wrote blocks buf offset (k + len) files
      (Function.update files' file (lay (files' file) p
        (((buf.drop k.toNat).take len.toNat).map some))) := by
  have hpart : ((buf.drop k.toNat).take len.toNat).length = len.toNat := by
    rw [List.length_take, List.length_drop]
    omega
  have hnat : (k + len).toNat = k.toNat + len.toNat := by omega
  have hcast : offset + (k.toNat : ℤ) = offset + k := by omega
  refine ⟨?_, fun file' p' hout => ?_⟩
  · rw [hnat, slice, bytesAt_add, hcast, List.take_add]
    congr 1
    · rw [← h.inside]
      refine bytesAt_congr fun q hq hlt => ?_
      refine overwrite_outside fun i hi hilt => ?_
      rw [hpart] at hilt
      rw [← hplace i hi (by omega)]
      intro heq
      have hsame := locate_inj hdistinct ⟨by omega, by omega⟩ ⟨by omega, by omega⟩ heq
      omega
    · have hbytes := bytesAt_of_holds (holds_lay (files' file) p (((buf.drop k.toNat).take len.toNat).map some))
      rw [hpart] at hbytes
      refine (slice_eq_bytesAt _ fun i hi hlt => hplace i hi (by omega)).trans ?_
      rw [Function.update_self]
      exact hbytes
  · rw [overwrite_outside, h.outside file' p' fun i hi hlt => hout i hi (by omega)]
    intro i hi hilt
    rw [hpart] at hilt
    rw [← hplace i hi (by omega), Int.add_assoc]
    exact hout (k + i) (by omega) (by omega)

theorem writeSegmentData_wrote (hpos : ∀ b ∈ blocks, 0 < b.totalDataLen)
    (hdistinct : (blocks.map PhysicalBlock.file).Nodup) (hsmall : totalLen blocks < 2 ^ 31) {buf : List Byte}
    {offset : ℤ} (hoffset : 0 ≤ offset) (hend : offset + buf.length ≤ totalLen blocks) (rounds : ℕ) {done : ℤ}
    {files' : Files} (h : Wrote blocks buf offset done files files') (hdone : 0 ≤ done) (hle : done ≤ buf.length)
    (hrounds : buf.length - done < rounds) :
    ∃ files'', writeSegmentData blocks buf offset rounds done files' = some (tfsSuccess, files'') ∧
      Wrote blocks buf offset buf.length files files'' := by
  induction rounds generalizing done files' with
  | zero => exact absurd hrounds (by omega)
  | succ rounds ih =>
    rw [writeSegmentData]
    by_cases hmore : done < buf.length
    · obtain ⟨b, innerOffset, len, hchoose, hinner, hlen, hlenLe, hfits, hblock, hplace⟩ :=
        choosePhysicBlock_spec blocks 0 (offset + done) (buf.length - done) hpos (Int.le_refl 0)
          (by omega) (by omega) (by omega) (by omega) (by omega)
      have hpart : (((buf.drop done.toNat).take len.toNat).length : ℤ) = len := by
        rw [List.length_take, List.length_drop]
        omega
      rw [if_pos hmore, int32_of_range (v := offset + done) (by omega) (by omega),
        int32_of_range (v := buf.length - done) (by omega) (by omega), hchoose]
      simp only [PhysicalBlock.pwriteData, hpart, int32_of_range (v := innerOffset + len) (by omega) (by omega),
        if_neg (show ¬ b.totalDataLen < innerOffset + len by omega), ne_eq, not_true_eq_false, if_false,
        int32_of_range (v := done + len) (by omega) (by omega)]
      refine ih (h.add hdistinct hoffset hdone hlen (by omega) (by omega) fun i hi hlt => ?_) (by omega) (by omega)
        (by omega)
      have hthere := hplace i hi hlt
      rwa [Int.sub_zero] at hthere
    · have hall : done = buf.length := by omega
      rw [if_neg hmore]
      exact ⟨files', rfl, hall ▸ h⟩

end Turns

/-! ## Logic blocks -/

theorem foldl_size (blocks : List PhysicalBlock) (passed : ℤ) (hpos : ∀ b ∈ blocks, 0 < b.totalDataLen)
    (hpassed : 0 ≤ passed) (hsmall : passed + totalLen blocks < 2 ^ 31) :
    blocks.foldl (fun size b => int32 (size + b.totalDataLen)) passed = passed + totalLen blocks := by
  induction blocks generalizing passed with
  | nil => exact (Int.add_zero passed).symm
  | cons b bs ih =>
    have hb := hpos b List.mem_cons_self
    have hbs := totalLen_nonneg fun b' hb' => hpos b' (List.mem_cons_of_mem b hb')
    rw [totalLen_cons] at hsmall ⊢
    rw [List.foldl_cons, int32_of_range (by omega) (by omega),
      ih _ (fun b' hb' => hpos b' (List.mem_cons_of_mem b hb')) (by omega) (by omega), Int.add_assoc]

namespace LogicBlock
variable (lb : LogicBlock)

def size : ℤ := totalLen lb.physicalBlockList

theorem availDataSize_eq : lb.availDataSize = lb.size := by
  have hsmall := lb.small
  rw [availDataSize, foldl_size _ 0 lb.positive (Int.le_refl 0) (by omega), Int.zero_add]
  rfl

/-- A read gives what is there, up to the end of the block. -/
theorem readRawData_eq (files : Files) (nbytes : ℤ) {offset : ℤ} (hoffset : 0 ≤ offset) (hin : offset ≤ lb.size)
    (hnbytes : 0 ≤ nbytes) (hend : offset + nbytes < 2 ^ 31) (rounds : ℕ) (hrounds : nbytes < rounds) :
    lb.readRawData files nbytes offset rounds =
      some (tfsSuccess, slice lb.physicalBlockList files offset (min (offset + nbytes) lb.size - offset).toNat,
        min (offset + nbytes) lb.size - offset) := by
  have hsmall : lb.size < 2 ^ 31 := lb.small
  have hclip : (if lb.size < int32 (offset + nbytes) then int32 (lb.size - offset) else nbytes) =
      min (offset + nbytes) lb.size - offset := by
    rw [int32_of_range (v := offset + nbytes) (by omega) (by omega),
      int32_of_range (v := lb.size - offset) (by omega) (by omega)]
    split <;> omega
  rw [readRawData, lb.availDataSize_eq, if_neg (by omega), hclip]
  have hread := readSegmentData_eq lb.positive hsmall files (min (offset + nbytes) lb.size - offset) hoffset
    (show _ ≤ lb.size by omega) rounds (Int.le_refl 0) (by omega) (by omega)
  exact congrArg (Option.map _) hread

theorem writeRawData_eq (newExtBlock : LogicBlock → ℤ × LogicBlock) (files : Files) {buf : List Byte} {offset : ℤ}
    (hoffset : 0 ≤ offset) (hend : offset + buf.length ≤ lb.size) {rounds : ℕ} (hrounds : buf.length < rounds) :
    ∃ files', lb.writeRawData newExtBlock files buf offset rounds = some (tfsSuccess, lb, files') ∧
      Wrote lb.physicalBlockList buf offset buf.length files files' := by
  have hsmall : lb.size < 2 ^ 31 := lb.small
  have hextend : extendBlock newExtBlock buf.length offset maxExtendTimes lb = (tfsSuccess, lb) := by
    rw [maxExtendTimes, extendBlock, lb.availDataSize_eq, int32_of_range (by omega) (by omega), if_neg (by omega)]
  obtain ⟨files', hwrite, hwrote⟩ := writeSegmentData_wrote lb.positive lb.distinct lb.small hoffset hend rounds
    (.start _ _ _ files) (Int.le_refl 0) (by omega) (by omega)
  refine ⟨files', ?_, hwrote⟩
  rw [writeRawData, hextend]
  simp only [ne_eq, not_true_eq_false, if_false, hwrite, Option.map_some]

/-- The bytes of a block are one array: what was written is read back, the rest of the array, the other files and
the prefix areas stay as they are, and a read takes what there is from `offset` on. -/
theorem flat_array (newExtBlock : LogicBlock → ℤ × LogicBlock) (files : Files) (buf : List Byte) (offset : ℤ)
    (hoffset : 0 ≤ offset) (hend : offset + buf.length ≤ lb.size) (rounds : ℕ) (hrounds : buf.length < rounds) :
    (∃ files', lb.writeRawData newExtBlock files buf offset rounds = some (tfsSuccess, lb, files') ∧
      lb.readRawData files' buf.length offset rounds = some (tfsSuccess, buf, (buf.length : ℤ)) ∧
      (∀ q, 0 ≤ q → q < lb.size → q < offset ∨ offset + buf.length ≤ q →
        byteAt lb.physicalBlockList files' q = byteAt lb.physicalBlockList files q) ∧
      ∀ file p, file ∉ lb.physicalBlockList.map PhysicalBlock.file ∨ p < dataStart → files' file p = files file p) ∧
    ∀ nbytes, 0 ≤ nbytes → offset + nbytes < 2 ^ 31 → ∀ rounds : ℕ, nbytes < rounds →
      lb.readRawData files nbytes offset rounds =
        some (tfsSuccess, slice lb.physicalBlockList files offset (min (offset + nbytes) lb.size - offset).toNat,
          min (offset + nbytes) lb.size - offset) := by
  have hsmall : lb.size < 2 ^ 31 := lb.small
  refine ⟨?_, fun nbytes hnbytes hlt rounds hrounds => ?_⟩
  · obtain ⟨files', hwrite, hwrote⟩ := lb.writeRawData_eq newExtBlock files hoffset hend hrounds
    refine ⟨files', hwrite, ?_, fun q hq hlt hout => ?_, fun file p hout => ?_⟩
    · have hread := lb.readRawData_eq files' buf.length hoffset (by omega) (by omega) (by omega) rounds (by omega)
      have hmin : min (offset + buf.length) lb.size - offset = buf.length := by omega
      rw [hmin, hwrote.inside, List.take_of_length_le (by omega)] at hread
      exact hread
    · refine hwrote.outside _ _ fun i hi hilt heq => ?_
      have hsame := locate_inj lb.distinct ⟨by omega, show _ < lb.size by omega⟩ ⟨hq, hlt⟩ heq
      omega
    · refine hwrote.outside _ _ fun i hi hilt heq => ?_
      obtain hother | hprefix := hout
      · refine hother ?_
        have hmem := locate_file_mem (q := offset + i) (show _ < lb.size by omega) (by omega)
        rwa [heq] at hmem
      · have hplace := dataStart_le_locate lb.physicalBlockList (q := offset + i) (by omega)
        rw [heq] at hplace
        omega
  · exact lb.readRawData_eq files nbytes hoffset (by omega) hnbytes hlt rounds hrounds

def twoFiles : List PhysicalBlock := [⟨1, 4⟩, ⟨2, 4⟩]

theorem twoFiles_positive : ∀ b ∈ twoFiles, 0 < b.totalDataLen := by decide

theorem twoFiles_distinct : (twoFiles.map PhysicalBlock.file).Nodup := by decide

theorem twoFiles_small : totalLen twoFiles < 2 ^ 31 := by decide

def twoFilesBlock : LogicBlock :=
  ⟨twoFiles, List.cons_ne_nil _ _, twoFiles_positive, twoFiles_distinct, twoFiles_small⟩

/-- Three bytes, one in the first file and two in the second -/
theorem flat_array_across : ∃ files',
    twoFilesBlock.writeRawData (fun lb => (exitFailure, lb)) (fun _ _ => 0) [7, 8, 9] 3 4 =
      some (tfsSuccess, twoFilesBlock, files') ∧
    twoFilesBlock.readRawData files' 3 3 4 = some (tfsSuccess, [7, 8, 9], 3) := by
  obtain ⟨⟨files', hwrite, hread, -⟩, -⟩ := twoFilesBlock.flat_array (fun lb => (exitFailure, lb)) (fun _ _ => 0)
    [7, 8, 9] 3 (by decide) (by decide) 4 (by decide)
  exact ⟨files', hwrite, hread⟩

end LogicBlock

end Tefs.DataServer.FlatBlock
