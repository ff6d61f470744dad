import Tefs.DataServer.Restart
import Tefs.Lib.Extents

/-! # The bytes of a block

Source: `diskmanager/src/data_handle.cpp`, `pread_data` and `pwrite_data` in `physical_block.cpp`, `read_raw_data` and
`write_raw_data` in `logic_block.cpp`.

Where the bytes of a logic block lie on the disk, and what a read and a write do with them. Nothing here fails: the
block has the room, and every physical block has its file.
-/

namespace Tefs.DataServer
open Extents
set_option autoImplicit false

/-! ## Bytes on the disk -/

def Disk.dataOf (d : Disk) (blockType : BlockType) (id : ℕ) : Option (ℕ → Byte) :=
  (if blockType = .main then d.mainFile id else d.extendFile id).map BlockFile.data

namespace Manager

/-- The byte at a position in the data area of a physical block -/
def fileByte (s : Manager) (p : ℕ × ℤ) : Option Byte :=
  (s.physicalBlocks p.1).bind fun pb => (s.disk.dataOf pb.blockType p.1).map fun data => data p.2.toNat

/-- Byte `q` of the block that lies in the physical blocks `ids` -/
def byteAt (s : Manager) (ids : List ℕ) (q : ℤ) : Option Byte := (locate s.toMemory.totalDataLen ids q).bind s.fileByte

/-- Every physical block has room and its file. -/
structure Backed (s : Manager) : Prop where
  room : ∀ id pb, s.physicalBlocks id = some pb → 0 < pb.totalDataLen
  file : ∀ id pb, s.physicalBlocks id = some pb → (s.disk.dataOf pb.blockType id).isSome = true

section Bytes

variable {s s' : Manager} {ids : List ℕ}

theorem totalDataLen_of_some {m : Memory} {id : ℕ} {pb : PhysicalBlock} (h : m.physicalBlocks id = some pb) :
    m.totalDataLen id = pb.totalDataLen := by
  rw [Memory.totalDataLen, h]

theorem Backed.totalDataLen_pos (h : s.Backed) {id : ℕ} (hid : (s.physicalBlocks id).isSome = true) :
    0 < s.toMemory.totalDataLen id := by
  obtain ⟨pb, hpb⟩ := Option.isSome_iff_exists.mp hid
  rw [totalDataLen_of_some hpb]
  exact h.room id pb hpb

theorem byteAt_of_locate {q : ℤ} {p : ℕ × ℤ} (h : locate s.toMemory.totalDataLen ids q = some p) :
    s.byteAt ids q = s.fileByte p := by
  rw [byteAt, h]
  rfl

theorem exists_of_byteAt {q : ℤ} {v : Byte} (h : s.byteAt ids q = some v) :
    ∃ p, locate s.toMemory.totalDataLen ids q = some p ∧ s.fileByte p = some v := Option.bind_eq_some_iff.mp h

/-- What is not in the list, and what is on the disk beside its files, does not matter. -/
theorem byteAt_frame (hlen : ∀ id ∈ ids, s'.toMemory.totalDataLen id = s.toMemory.totalDataLen id)
    (hfile : ∀ id ∈ ids, ∀ o, s'.fileByte (id, o) = s.fileByte (id, o)) {q : ℤ} (hq : 0 ≤ q) :
    s'.byteAt ids q = s.byteAt ids q := by
  rw [byteAt, byteAt, locate_congr hlen]
  cases h : locate s.toMemory.totalDataLen ids q with
  | none => rfl
  | some p =>
    obtain ⟨id, o⟩ := p
    exact hfile id (of_locate hq h).1 o

theorem fileByte_congr {id : ℕ} (hphys : s'.physicalBlocks id = s.physicalBlocks id)
    (hdata : ∀ blockType, s'.disk.dataOf blockType id = s.disk.dataOf blockType id) (o : ℤ) :
    s'.fileByte (id, o) = s.fileByte (id, o) := by
  simp only [fileByte, hphys, hdata]

end Bytes

end Manager

/-! ## One part of a segment -/

/-- What is found is a part of one physical block that holds the next bytes. -/
theorem choosePhysicBlock_locate (m : Memory) (ids : List ℕ) {offset innerLen : ℤ} (prev : ℤ) (hle : prev ≤ offset)
    (hlt : offset < prev + total m.totalDataLen ids) (hlen : 0 < innerLen) :
    ∃ id innerOffset n, m.choosePhysicBlock offset innerLen prev ids = some (id, innerOffset, n) ∧ id ∈ ids ∧
      0 ≤ innerOffset ∧ 0 < n ∧ n ≤ innerLen ∧ innerOffset + n ≤ m.totalDataLen id ∧
      ∀ i, 0 ≤ i → i < n → locate m.totalDataLen ids (offset - prev + i) = some (id, innerOffset + i) := by
  induction ids generalizing prev with
  | nil => exact absurd hlt (by simp [hle])
  | cons id ids ih =>
    rw [total_cons] at hlt
    rw [Memory.choosePhysicBlock]
    by_cases hin : offset < prev + m.totalDataLen id
    · refine ⟨id, offset - prev, _, if_pos hin, List.mem_cons_self, by omega, ?_, ?_, ?_, fun i hi hilt => ?_⟩
      · split <;> omega
      · split <;> omega
      · split <;> omega
      · have hinside : offset - prev + i < m.totalDataLen id := by
          split at hilt <;> omega
        rw [locate, if_pos hinside]
    · obtain ⟨id', innerOffset, n, hchoose, hmem, hrest⟩ := ih (prev + m.totalDataLen id) (by omega) (by omega)
      obtain ⟨hinner, hn, hnle, hfits, hplace⟩ := hrest
      refine ⟨id', innerOffset, n, (if_neg hin).trans hchoose, List.mem_cons_of_mem id hmem, hinner, hn, hnle, hfits,
        fun i hi hilt => ?_⟩
      have hidx : offset - prev + i - m.totalDataLen id = offset - (prev + m.totalDataLen id) + i := by omega
      rw [locate, if_neg (by omega), hidx]
      exact hplace i hi hilt

theorem dataOf_updateFile (d : Disk) (blockType blockType' : BlockType) (id id' : ℕ) (f : BlockFile → BlockFile) :
    (d.updateFile blockType id f).dataOf blockType' id' =
      if (blockType' = .main ↔ blockType = .main) ∧ id' = id then
        (if blockType' = .main then d.mainFile id' else d.extendFile id').map fun file => (f file).data
      else d.dataOf blockType' id' := by
  unfold Disk.updateFile Disk.dataOf
  by_cases hb : blockType = .main <;> by_cases hb' : blockType' = .main <;> by_cases hi : id' = id <;>
    simp [hb, hb', hi, Function.comp_def]

namespace Manager

section Parts

variable {s : Manager} {id : ℕ} {pb : PhysicalBlock}

theorem pwriteData_eq (h : s.Backed) (hpb : s.physicalBlocks id = some pb) (buf : List Byte) {offset : ℤ}
    (hoffset : 0 ≤ offset) (hfit : offset + buf.length ≤ pb.totalDataLen) :
    ∃ s', s.pwriteData none id buf offset = (tfsSuccess, s') ∧ s'.Backed ∧
      ∀ id' o, 0 ≤ o → s'.fileByte (id', o) =
        if id' = id ∧ offset ≤ o ∧ o < offset + buf.length then buf[(o - offset).toNat]? else s.fileByte (id', o) := by
  have hdata := dataOf_updateFile s.disk pb.blockType
  refine ⟨{ s with disk := s.disk.updateFile pb.blockType id fun f => f.overwrite offset.toNat buf }, ?_,
    ⟨h.room, fun id' pb' hpb' => ?_⟩, fun id' o ho => ?_⟩
  · rw [pwriteData, hpb]
    exact if_neg (by omega)
  · have hfile := h.file id' pb' hpb'
    simp only [hdata]
    split
    · rw [Disk.dataOf, Option.isSome_map] at hfile
      rw [Option.isSome_map]
      exact hfile
    · exact hfile
  · obtain ⟨data, hsome⟩ := Option.isSome_iff_exists.mp (h.file id pb hpb)
    obtain ⟨file, hfile, rfl⟩ := Option.map_eq_some_iff.mp hsome
    simp only [fileByte, hdata]
    by_cases hid : id' = id
    · subst hid
      simp only [hpb, Option.bind_some, true_and, and_true, if_true, hfile, Option.map_some, hsome,
        BlockFile.overwrite]
      by_cases hin : offset ≤ o ∧ o < offset + buf.length
      · have hidx : (o - offset).toNat < buf.length := by omega
        have hsub : o.toNat - offset.toNat = (o - offset).toNat := by omega
        rw [if_pos hin, if_pos (by omega), List.getD_eq_getElem?_getD, hsub, List.getElem?_eq_getElem hidx,
          Option.getD_some]
      · rw [if_neg hin, if_neg (by omega)]
    · simp only [hid, false_and, and_false, if_false]

theorem preadData_eq (h : s.Backed) (hpb : s.physicalBlocks id = some pb) (nbytes : ℕ) {offset : ℤ}
    (hoffset : 0 ≤ offset) (hfit : offset + nbytes ≤ pb.totalDataLen) :
    ∃ part, s.preadData id nbytes offset = (tfsSuccess, part) ∧ part.length = nbytes ∧
      ∀ i : ℕ, i < nbytes → s.fileByte (id, offset + i) = part[i]? := by
  obtain ⟨data, hsome⟩ := Option.isSome_iff_exists.mp (h.file id pb hpb)
  obtain ⟨file, hfile, rfl⟩ := Option.map_eq_some_iff.mp hsome
  refine ⟨(List.range nbytes).map fun i => file.data (offset.toNat + i), ?_, by simp, fun i hi => ?_⟩
  · rw [preadData, hpb]
    simp only [if_neg (show ¬ pb.totalDataLen < offset + nbytes by omega), hfile]
  · have hnat : (offset + (i : ℤ)).toNat = offset.toNat + i := by omega
    rw [List.getElem?_map, List.getElem?_range hi, Option.map_some]
    simp only [fileByte, hpb, Option.bind_some, Disk.dataOf, hfile, Option.map_some, hnat]

end Parts

/-! ## Segments -/

/-- `buf` lies in the physical blocks `ids` from `offset` on, and nothing else has changed. -/
structure Wrote (s s' : Manager) (ids : List ℕ) (buf : List Byte) (offset : ℤ) : Prop where
  same : s.SameButData s'
  backed : s'.Backed
  inside : ∀ i : ℕ, i < buf.length → s'.byteAt ids (offset + i) = buf[i]?
  outside : ∀ id o, 0 ≤ o → (∀ i : ℤ, 0 ≤ i → i < buf.length →
    locate s.toMemory.totalDataLen ids (offset + i) ≠ some (id, o)) → s'.fileByte (id, o) = s.fileByte (id, o)

/-- The rounds of a write, each of them a part of what is left -/
theorem writeSegmentData_wrote {ids : List ℕ} (hnodup : ids.Nodup) (rounds : ℕ) {s : Manager} (h : s.Backed)
    (hlisted : ∀ id ∈ ids, (s.physicalBlocks id).isSome = true) (buf : List Byte) {offset : ℤ} (hoffset : 0 ≤ offset)
    (hend : offset + buf.length ≤ total s.toMemory.totalDataLen ids) (hrounds : buf.length ≤ rounds) :
    ∃ s', writeSegmentData (fun _ => none) ids rounds s buf offset = .ok (tfsSuccess, s') ∧ s.Wrote s' ids buf offset := by
  induction rounds generalizing s buf offset with
  | zero =>
    obtain rfl := List.eq_nil_of_length_eq_zero (Nat.le_zero.mp hrounds)
    exact ⟨s, rfl, .refl s, h, fun i hi => absurd hi (Nat.not_lt_zero i), fun _ _ _ _ => rfl⟩
  | succ rounds ih =>
    by_cases hnil : buf = []
    · subst hnil
      exact ⟨s, rfl, .refl s, h, fun i hi => absurd hi (Nat.not_lt_zero i), fun _ _ _ _ => rfl⟩
    have hpos : 0 < buf.length := List.length_pos_iff.mpr hnil
    obtain ⟨id, innerOffset, n, hchoose, hid, hinner, hn, hnle, hfits, hplace⟩ :=
      choosePhysicBlock_locate s.toMemory ids 0 hoffset (by omega) (Int.natCast_pos.mpr hpos)
    obtain ⟨pb, hpb⟩ := Option.isSome_iff_exists.mp (hlisted id hid)
    rw [totalDataLen_of_some hpb] at hfits
    have htake : (buf.take n.toNat).length = n.toNat := by
      rw [List.length_take]
      omega
    obtain ⟨s₁, hwrite, hbacked, hbytes⟩ := pwriteData_eq h hpb (buf.take n.toNat) hinner (by omega)
    have hsame : s.SameButData s₁ := by
      have := pwriteData_sameButData s id (buf.take n.toNat) innerOffset
      rwa [hwrite] at this
    have hmem : s₁.toMemory = s.toMemory := hsame.mem
    obtain ⟨s', hrest, hwrote⟩ := ih hbacked (by rw [hmem]; exact hlisted) (buf.drop n.toNat)
      (show 0 ≤ offset + n by omega) (by rw [hmem, List.length_drop]; omega) (by rw [List.length_drop]; omega)
    refine ⟨s', ?_, hsame.trans hwrote.same, hwrote.backed, fun i hi => ?_, fun id' o ho hout => ?_⟩
    · obtain ⟨b, bs, rfl⟩ := List.exists_cons_of_ne_nil hnil
      rw [writeSegmentData, hchoose]
      · simp only [hwrite, ne_eq, not_true_eq_false, if_false, hrest]
      · exact List.cons_ne_nil b bs
    · by_cases hfirst : (i : ℤ) < n
      · -- a byte of this part, which the rest does not come to
        have hloc := hplace i (by omega) hfirst
        rw [Int.sub_zero] at hloc
        have hstay : s'.fileByte (id, innerOffset + i) = s₁.fileByte (id, innerOffset + i) := by
          refine hwrote.outside id _ (by omega) fun j hj hjlt heq => ?_
          rw [hmem] at heq
          have := locate_inj hnodup (by omega) (by omega) hloc heq
          omega
        have hmem' : s'.toMemory = s.toMemory := hwrote.same.mem.trans hmem
        rw [byteAt_of_locate (hmem' ▸ hloc), hstay, hbytes id _ (by omega), if_pos ⟨rfl, by omega, by omega⟩]
        have hidx : (innerOffset + (i : ℤ) - innerOffset).toNat = i := by omega
        rw [hidx, List.getElem?_take_of_lt (by omega)]
      · have hlater := hwrote.inside (i - n.toNat) (by rw [List.length_drop]; omega)
        have hsum : offset + n + ((i - n.toNat : ℕ) : ℤ) = offset + i := by omega
        rw [hsum, List.getElem?_drop] at hlater
        rw [hlater]
        congr 1
        omega
    · have hfirst : s'.fileByte (id', o) = s₁.fileByte (id', o) := by
        refine hwrote.outside id' o ho fun j hj hjlt => ?_
        rw [List.length_drop] at hjlt
        have := hout (n + j) (by omega) (by omega)
        rwa [← Int.add_assoc, ← hmem] at this
      rw [hfirst, hbytes id' o ho, if_neg]
      rintro ⟨rfl, hlow, hhigh⟩
      have hloc := hplace (o - innerOffset) (by omega) (by omega)
      have hsum : innerOffset + (o - innerOffset) = o := by omega
      rw [Int.sub_zero, hsum] at hloc
      exact hout (o - innerOffset) (by omega) (by omega) hloc

theorem readSegmentData_eq {s : Manager} (h : s.Backed) {ids : List ℕ}
    (hlisted : ∀ id ∈ ids, (s.physicalBlocks id).isSome = true) (rounds nbytes : ℕ) {offset : ℤ}
    (hoffset : 0 ≤ offset) (hend : offset + nbytes ≤ total s.toMemory.totalDataLen ids) (hrounds : nbytes ≤ rounds)
    (buf : List Byte) :
    ∃ bytes, s.readSegmentData ids rounds nbytes offset buf = .ok (tfsSuccess, buf ++ bytes) ∧
      bytes.length = nbytes ∧ ∀ i : ℕ, i < nbytes → s.byteAt ids (offset + i) = bytes[i]? := by
  induction rounds generalizing nbytes offset buf with
  | zero =>
    obtain rfl := Nat.le_zero.mp hrounds
    refine ⟨[], ?_, rfl, fun i hi => absurd hi (Nat.not_lt_zero i)⟩
    rw [List.append_nil]
    rfl
  | succ rounds ih =>
    cases nbytes with
    | zero =>
      refine ⟨[], ?_, rfl, fun i hi => absurd hi (Nat.not_lt_zero i)⟩
      rw [List.append_nil]
      rfl
    | succ nbytes =>
      obtain ⟨id, innerOffset, n, hchoose, hid, hinner, hn, hnle, hfits, hplace⟩ :=
        choosePhysicBlock_locate s.toMemory ids 0 hoffset (by omega) (Int.natCast_pos.mpr nbytes.succ_pos)
      obtain ⟨pb, hpb⟩ := Option.isSome_iff_exists.mp (hlisted id hid)
      rw [totalDataLen_of_some hpb] at hfits
      obtain ⟨part, hread, hlen, hpart⟩ := preadData_eq h hpb n.toNat hinner (by omega)
      obtain ⟨bytes, hrest, hlen', hbytes⟩ := ih (nbytes + 1 - n.toNat) (show 0 ≤ offset + n by omega)
        (by omega) (by omega) (buf ++ part)
      refine ⟨part ++ bytes, ?_, by rw [List.length_append]; omega, fun i hi => ?_⟩
      · rw [readSegmentData, hchoose]
        · simp only [hread, ne_eq, not_true_eq_false, if_false, hrest, List.append_assoc]
        · exact Nat.succ_ne_zero nbytes
      · by_cases hfirst : (i : ℤ) < n
        · have hloc := hplace i (by omega) hfirst
          rw [Int.sub_zero] at hloc
          rw [byteAt_of_locate hloc, hpart i (by omega), List.getElem?_append_left (by omega)]
        · have hlater := hbytes (i - n.toNat) (by omega)
          have hsum : offset + n + ((i - n.toNat : ℕ) : ℤ) = offset + i := by omega
          rw [hsum] at hlater
          rw [hlater, List.getElem?_append_right (by omega), hlen]

end Manager
end Tefs.DataServer
