import Tefs.DataServer.Histories

/-! # Reading and writing block data

Source: `diskmanager/src/data_handle.cpp`, `pread_data` and `pwrite_data` in `physical_block.cpp`,
`read_raw_data` and `write_raw_data` in `logic_block.cpp` and `data_management.cpp`.

The bytes of a logic block lie in its physical blocks one after the other. A segment is written block
by block; each round of the loops takes what fits into the block its first byte is in. Offsets are not
negative here, and their sums do not leave the range of an `int32_t`.
-/

namespace Tefs.DataServer
set_option autoImplicit false

/-! ## `choose_physic_block` -/

def Memory.totalDataLen (m : Memory) (id : ℕ) : ℤ :=
  match m.physicalBlocks id with
  | some pb => pb.totalDataLen
  | none => 0

/-- The block the byte at `offset` is in, the offset inside it, and how much of `innerLen` it takes;
`prevSumOffset` is the data length of the blocks passed. -/
def Memory.choosePhysicBlock (m : Memory) (offset innerLen : ℤ) :
    ℤ → List ℕ → Option (ℕ × ℤ × ℤ)
  | _, [] => none
  | prevSumOffset, id :: ids =>
    let sumOffset := prevSumOffset + m.totalDataLen id
    if offset < sumOffset then
      some (id, offset - prevSumOffset,
        if sumOffset < offset + innerLen then sumOffset - offset else innerLen)
    else m.choosePhysicBlock offset innerLen sumOffset ids

theorem choosePhysicBlock_some {m : Memory} {offset innerLen prev : ℤ} {ids : List ℕ} {id : ℕ}
    {innerOffset len : ℤ} (hlen : 0 < innerLen)
    (h : m.choosePhysicBlock offset innerLen prev ids = some (id, innerOffset, len)) :
    id ∈ ids ∧ 0 < len ∧ len ≤ innerLen := by
  induction ids generalizing prev with
  | nil => cases h
  | cons first ids ih =>
    rw [Memory.choosePhysicBlock] at h
    split at h
    · next hlt =>
      cases h
      refine ⟨List.mem_cons_self, ?_⟩
      split <;> omega
    · obtain ⟨hmem, hrest⟩ := ih h
      exact ⟨List.mem_cons_of_mem _ hmem, hrest⟩

/-! ## Physical blocks -/

def BlockFile.overwrite (f : BlockFile) (start : ℕ) (buf : List Byte) : BlockFile :=
  { f with data := fun i =>
      if start ≤ i ∧ i < start + buf.length then buf.getD (i - start) 0 else f.data i }

def Manager.pwriteData (s : Manager) (failure : Option IoFailure) (id : ℕ) (buf : List Byte)
    (offset : ℤ) : ℤ × Manager :=
  match s.physicalBlocks id with
  | none => (exitPhysicBlockOffsetError, s)
  | some pb =>
    if pb.totalDataLen < offset + buf.length then (exitPhysicBlockOffsetError, s)
    else s.write failure fun d =>
      d.updateFile pb.blockType id fun f => f.overwrite offset.toNat buf

/-- `pread_data` of the block `id`; a missing file is an open that fails. -/
def Manager.preadData (s : Manager) (id : ℕ) (nbytes : ℕ) (offset : ℤ) : ℤ × List Byte :=
  match s.physicalBlocks id with
  | none => (exitPhysicBlockOffsetError, [])
  | some pb =>
    if pb.totalDataLen < offset + nbytes then (exitPhysicBlockOffsetError, [])
    else
      match if pb.blockType = .main then s.disk.mainFile id else s.disk.extendFile id with
      | none => (noSuchFile, [])
      | some f => (tfsSuccess, (List.range nbytes).map fun i => f.data (offset.toNat + i))

/-! ## Segments -/

/-- The loop of `write_segment_data` with `rounds` left; `failures` says which of its writes fail. -/
def Manager.writeSegmentData (failures : ℕ → Option IoFailure) (ids : List ℕ) :
    ℕ → Manager → List Byte → ℤ → Except Abort (ℤ × Manager)
  | _, s, [], _ => .ok (tfsSuccess, s)
  | 0, _, _ :: _, _ => .error .rounds
  | rounds + 1, s, buf, offset =>
    match s.toMemory.choosePhysicBlock offset buf.length 0 ids with
    | none => .ok (exitPhysicBlockOffsetError, s)
    | some (id, innerOffset, writtingLen) =>
      let (ret, s) := s.pwriteData (failures rounds) id (buf.take writtingLen.toNat) innerOffset
      if ret ≠ tfsSuccess then .ok (ret, s)
      else Manager.writeSegmentData failures ids rounds s (buf.drop writtingLen.toNat)
        (offset + writtingLen)

/-- The loop of `read_segment_data`, with what has been read. -/
def Manager.readSegmentData (s : Manager) (ids : List ℕ) :
    ℕ → ℕ → ℤ → List Byte → Except Abort (ℤ × List Byte)
  | _, 0, _, buf => .ok (tfsSuccess, buf)
  | 0, _ + 1, _, _ => .error .rounds
  | rounds + 1, nbytes, offset, buf =>
    match s.toMemory.choosePhysicBlock offset nbytes 0 ids with
    | none => .ok (exitPhysicBlockOffsetError, buf)
    | some (id, innerOffset, readingLen) =>
      let (ret, part) := s.preadData id readingLen.toNat innerOffset
      if ret ≠ tfsSuccess then .ok (ret, buf)
      else Manager.readSegmentData s ids rounds (nbytes - readingLen.toNat) (offset + readingLen)
        (buf ++ part)

/-! ## Logic blocks -/

def exitFailure : ℤ := 1

/-- `read_raw_data`: what is behind the end is not read. -/
def Manager.readRawData (s : Manager) (key : Key) (offset : ℤ) (nbytes : ℕ) :
    Except Abort (ℤ × List Byte) :=
  match s.logicBlocks key with
  | none => .ok (exitNoLogicBlockError, [])
  | some lb =>
    if lb.availDataSize < offset then .ok (exitFailure, [])
    else
      let nbytes :=
        if lb.availDataSize < offset + nbytes then (lb.availDataSize - offset).toNat else nbytes
      s.readSegmentData lb.physicalBlockList nbytes nbytes offset []

/-- `LogicBlock::write_raw_data` for the block that `logic_blocks_` has under `key` -/
def Manager.writeBlockData (extendSupport : Bool) (s : Manager) (key : Key) (offset : ℤ)
    (buf : List Byte) : Except Abort (ℤ × Manager) :=
  match Manager.extendBlock extendSupport (fun _ => Io.allDone) .main key buf.length offset
      maxExtendTimes s with
  | .error a => .error a
  | .ok (ret, s) =>
    if ret ≠ tfsSuccess then .ok (ret, s)
    else
      match s.logicBlocks key with
      | none => .ok (exitNoLogicBlockError, s)
      | some lb =>
        Manager.writeSegmentData (fun _ => none) lb.physicalBlockList buf.length s buf offset

/-- `DataManagement::write_raw_data`: a block that is not there is made first. -/
def Manager.writeRawData (extendSupport : Bool) (s : Manager) (key : Key) (offset : ℤ)
    (buf : List Byte) : Except Abort (ℤ × Manager) :=
  if buf = [] then .ok (tfsSuccess, s)
  else if (s.logicBlocks key).isSome then s.writeBlockData extendSupport key offset buf
  else
    match s.newBlock Io.allDone key .main with
    | .error a => .error a
    | .ok (ret, s) =>
      if ret ≠ tfsSuccess then .ok (tfsError, s) else s.writeBlockData extendSupport key offset buf

/-! ## What a write of data leaves alone -/

def Disk.prefixOf (d : Disk) (blockType : BlockType) (id : ℕ) : Option BlockPrefix :=
  (if blockType = .main then d.mainFile id else d.extendFile id).map BlockFile.blockPrefix

structure Manager.SameButData (s s' : Manager) : Prop where
  mem : s'.toMemory = s.toMemory
  super : s'.disk.superBlock = s.disk.superBlock
  normal : s'.disk.normalBitMap = s.disk.normalBitMap
  error : s'.disk.errorBitMap = s.disk.errorBitMap
  prefixes : ∀ blockType id, s'.disk.prefixOf blockType id = s.disk.prefixOf blockType id

theorem Manager.SameButData.refl (s : Manager) : s.SameButData s :=
  ⟨rfl, rfl, rfl, rfl, fun _ _ => rfl⟩

theorem Manager.SameButData.trans {s s' s'' : Manager} (h : s.SameButData s')
    (h' : s'.SameButData s'') : s.SameButData s'' :=
  ⟨h'.mem.trans h.mem, h'.super.trans h.super, h'.normal.trans h.normal, h'.error.trans h.error,
    fun blockType id => (h'.prefixes blockType id).trans (h.prefixes blockType id)⟩

theorem prefixOf_updateFile_of_same (d : Disk) (blockType blockType' : BlockType) (id id' : ℕ)
    (f : BlockFile → BlockFile) (hf : ∀ file, (f file).blockPrefix = file.blockPrefix) :
    (d.updateFile blockType id f).prefixOf blockType' id' = d.prefixOf blockType' id' := by
  have hmap : ∀ o : Option BlockFile, (o.map f).map BlockFile.blockPrefix =
      o.map BlockFile.blockPrefix := by
    intro o
    cases o with
    | none => rfl
    | some file => simp [hf]
  unfold Disk.updateFile Disk.prefixOf
  by_cases hb : blockType = .main <;> by_cases hb' : blockType' = .main <;> by_cases hi : id' = id <;>
    simp [hb, hb', hi, hmap]

theorem pwriteData_sameButData (s : Manager) (id : ℕ) (buf : List Byte) (offset : ℤ) :
    s.SameButData (s.pwriteData none id buf offset).2 := by
  unfold Manager.pwriteData
  split
  · exact .refl s
  · split
    · exact .refl s
    · refine ⟨rfl, ?_, ?_, ?_, fun _ _ => prefixOf_updateFile_of_same _ _ _ _ _ _ fun _ => rfl⟩
      · simp only [Manager.write, Disk.updateFile]
        split <;> rfl
      · simp only [Manager.write, Disk.updateFile]
        split <;> rfl
      · simp only [Manager.write, Disk.updateFile]
        split <;> rfl

/-- Every round writes at least a byte, so as many rounds as bytes are enough. -/
theorem writeSegmentData_sameButData (ids : List ℕ) (rounds : ℕ) (s : Manager) (buf : List Byte)
    (offset : ℤ) (hrounds : buf.length ≤ rounds) :
    ∃ ret s', Manager.writeSegmentData (fun _ => none) ids rounds s buf offset = .ok (ret, s') ∧
      s.SameButData s' := by
  induction rounds generalizing s buf offset with
  | zero =>
    have hnil : buf = [] := List.eq_nil_of_length_eq_zero (by omega)
    subst hnil
    exact ⟨_, s, rfl, .refl s⟩
  | succ rounds ih =>
    cases hbuf : buf with
    | nil => exact ⟨_, s, rfl, .refl s⟩
    | cons b bs =>
      rw [← hbuf]
      have hpos : 0 < (buf.length : ℤ) := by
        rw [hbuf, List.length_cons]
        omega
      have hunfold : Manager.writeSegmentData (fun _ => none) ids (rounds + 1) s buf offset =
          match s.toMemory.choosePhysicBlock offset buf.length 0 ids with
          | none => .ok (exitPhysicBlockOffsetError, s)
          | some (id, innerOffset, writtingLen) =>
            let (ret, s) := s.pwriteData none id (buf.take writtingLen.toNat) innerOffset
            if ret ≠ tfsSuccess then .ok (ret, s)
            else Manager.writeSegmentData (fun _ => none) ids rounds s
              (buf.drop writtingLen.toNat) (offset + writtingLen) := by
        rw [hbuf]
        rfl
      rw [hunfold]
      cases hch : s.toMemory.choosePhysicBlock offset buf.length 0 ids with
      | none => exact ⟨_, s, rfl, .refl s⟩
      | some c =>
        obtain ⟨id, innerOffset, len⟩ := c
        obtain ⟨-, hlen, -⟩ := choosePhysicBlock_some hpos hch
        have hstep := pwriteData_sameButData s id (buf.take len.toNat) innerOffset
        dsimp only
        by_cases hret : (s.pwriteData none id (buf.take len.toNat) innerOffset).1 = tfsSuccess
        · rw [if_neg (not_not_intro hret)]
          obtain ⟨ret, s', heq, hs'⟩ := ih
            (s.pwriteData none id (buf.take len.toNat) innerOffset).2 (buf.drop len.toNat)
            (offset + len) (by rw [List.length_drop]; omega)
          exact ⟨ret, s', heq, hstep.trans hs'⟩
        · rw [if_pos hret]
          exact ⟨_, _, rfl, hstep⟩

end Tefs.DataServer
