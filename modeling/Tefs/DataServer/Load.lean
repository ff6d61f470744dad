import Tefs.DataServer.BlockFileManager

/-! # Formatting and loading a file system

Source: `format_block_file_system`, `bootstrap`, `load_super_blk` and `load_block_file` in
`diskmanager/src/blockfile_manager.cpp`.

The loader goes over the main blocks whose bit is set, makes a logic block of each from its prefix,
and follows the next pointers through the extend blocks. A pointer whose target does not point back
ends the walk and clears the bit of the main block it started from; `del_block` is then called with
the type `C_CONFUSE_BLOCK`, for which there is no map. The writes the loader makes only log their
failures, and go through here.
-/

namespace Tefs.DataServer
set_option autoImplicit false

/-! ## Formatting -/

def SuperBlock.fresh (mainBlockCount extendBlockCount : ℕ) (mainBlockSize extendBlockSize : ℤ) :
    SuperBlock :=
  { tagged := true, mainBlockCount := mainBlockCount, extendBlockCount := extendBlockCount,
    mainBlockSize := mainBlockSize, extendBlockSize := extendBlockSize, usedBlockCount := 0,
    usedExtendBlockCount := 0 }

def BlockFile.blank : BlockFile := { blockPrefix := BlockPrefix.zero, data := fun _ => 0 }

/-- `create_fs_super_blk` and `create_block` for both types: the counters and the bitmaps zero, a
file with a zero prefix for every id. -/
def format (sb : SuperBlock) : Disk :=
  let zeros := List.replicate (slotCount sb.itemCount) 0
  { superBlock := (sb, sb), normalBitMap := (zeros, zeros), errorBitMap := (zeros, zeros),
    mainFile := fun id =>
      if 1 ≤ id ∧ id ≤ sb.mainBlockCount then some BlockFile.blank else none,
    extendFile := fun id =>
      if sb.mainBlockCount + 1 ≤ id ∧ id ≤ sb.mainBlockCount + sb.extendBlockCount then
        some BlockFile.blank
      else none }

/-! ## `load_super_blk` -/

def exitDiskOperIncomplete : ℤ := -8012

/-- Memory with the bitmaps read and nothing loaded yet. -/
def loadSuperBlk (d : Disk) : Except ℤ Manager :=
  let sb := d.superBlock.1
  if sb.tagged then
    if h : d.normalBitMap.1.length = slotCount sb.itemCount ∧
        d.errorBitMap.1.length = slotCount sb.itemCount then
      if d.normalBitMap.1 = d.normalBitMap.2 then
        if d.errorBitMap.1 = d.errorBitMap.2 then
          .ok { superBlock := sb, normalBitMap := ⟨sb.itemCount, d.normalBitMap.1, h.1⟩,
                errorBitMap := ⟨sb.itemCount, d.errorBitMap.1, h.2⟩, logicBlocks := fun _ => none,
                compactLogicBlocks := fun _ => none, physicalBlocks := fun _ => none, disk := d }
        else .error exitBitMapConflictError
      else .error exitBitMapConflictError
    else .error exitDiskOperIncomplete
  else .error exitFsNotInitError

/-! ## `load_block_file` -/

def Manager.release (s : Manager) (pos : ℕ) : Manager :=
  let s := { s with normalBitMap := s.normalBitMap.reset pos }
  ((s.writeBitMap none).2.flushFile none).2

/-- `add_physic_block` for the logic block that `side` has under `key`. -/
def Memory.addToBlock (m : Memory) (side : Side) (key : Key) (id : ℕ) (len : ℤ) : Memory :=
  match m.blocksOf side key with
  | some lb => m.putBlock side key (some (lb.addPhysicBlock id len))
  | none => m

def SuperBlock.loadedExt (sb : SuperBlock) (p : BlockPrefix) : PhysicalBlock :=
  { blockPrefix := p, totalDataLen := sb.extendBlockSize, blockType := .ext }

def SuperBlock.loadedMain (sb : SuperBlock) (p : BlockPrefix) : PhysicalBlock :=
  { blockPrefix := p, totalDataLen := sb.mainBlockSize, blockType := .main }

/-- Step 8: the walk from the main block `pos`, now behind `extPos` and about to follow `next`. The
flag of the result is set when a block did not point back. -/
def Manager.loadChain (side : Side) (key : Key) (pos : ℕ) :
    ℕ → ℕ → ℕ → Manager → Except Abort (ℤ × Bool × Manager)
  | 0, _, _, _ => .error .rounds
  | rounds + 1, extPos, next, s =>
    if next = 0 then .ok (tfsSuccess, false, s)
    else if next < s.normalBitMap.itemCount then
      if s.normalBitMap.test next then
        if 0 < s.superBlock.extendBlockSize then
          match s.disk.extendFile next with
          | none => .ok (noSuchFile, false, s)
          | some file =>
            if extPos ≠ file.blockPrefix.prevPhysicBlockId then
              .ok (tfsSuccess, true, s.release pos)
            else if (s.physicalBlocks next).isSome then .ok (exitPhysicUnexpectFoundError, false, s)
            else
              Manager.loadChain side key pos rounds next file.blockPrefix.nextPhysicBlockId
                (s.onMemory fun m =>
                  (m.addToBlock side key next s.superBlock.extendBlockSize).insertPhysical next
                    (s.superBlock.loadedExt file.blockPrefix))
        else .error .physicalBlock
      else .ok (exitBlockIdConflictError, false, s)
    else .error .bitMap

/-- Step 6: the map for a logic block with this key. A key that is in both maps already loses its
compact block. -/
def Manager.selectSide (s : Manager) (key : Key) : Except Abort (ℤ × Side × Manager) :=
  if (s.logicBlocks key).isSome then
    if (s.compactLogicBlocks key).isSome then
      match s.delBlock Io.allDone key .compact with
      | .error a => .error a
      | .ok (ret, s) => .ok (ret, .compact, s)
    else .ok (tfsSuccess, .compact, s)
  else .ok (tfsSuccess, .main, s)

/-- Steps 4 to 8 for a main block whose prefix is `p`. -/
def Manager.loadLogicBlock (s : Manager) (pos : ℕ) (p : BlockPrefix) :
    Except Abort (ℤ × Bool × Manager) :=
  if (s.physicalBlocks pos).isSome then .ok (exitPhysicUnexpectFoundError, false, s)
  else
    match s.selectSide p.key with
    | .error a => .error a
    | .ok (ret, side, s) =>
      if ret ≠ tfsSuccess then .ok (ret, false, s)
      else
        let lb := (LogicBlock.new p.key).addPhysicBlock pos s.superBlock.mainBlockSize
        let s := s.onMemory fun m =>
          (m.insertLogicBlock side lb).insertPhysical pos (s.superBlock.loadedMain p)
        Manager.loadChain side p.key pos (s.normalBitMap.itemCount + 1) pos p.nextPhysicBlockId s

/-- The end of a round that made a logic block. A block that was found out of step is deleted from
the map for `C_CONFUSE_BLOCK`, which there is none of. -/
def endRound (conflictFlag : Bool) (key : Key) :
    Except Abort (ℤ × Bool × Manager) → Except Abort (ℤ × Bool × Manager)
  | .error a => .error a
  | .ok (ret, conflict, s) =>
    if ret ≠ tfsSuccess then .ok (ret, conflictFlag, s)
    else if conflictFlag || conflict then
      match s.delBlock Io.allDone key .confuse with
      | .error a => .error a
      | .ok (_, s) => .ok (tfsSuccess, true, s)
    else .ok (tfsSuccess, false, s)

/-- One round of the loop over the main blocks; `conflictFlag` is the flag as the last round left
it. -/
def Manager.loadPos (s : Manager) (conflictFlag : Bool) (pos : ℕ) :
    Except Abort (ℤ × Bool × Manager) :=
  if pos < s.normalBitMap.itemCount then
    if s.normalBitMap.test pos then
      if 0 < s.superBlock.mainBlockSize then
        match s.disk.mainFile pos with
        | none => .ok (noSuchFile, conflictFlag, s)
        | some file =>
          if file.blockPrefix.key = (0, 0) then .ok (tfsSuccess, conflictFlag, s.release pos)
          else endRound conflictFlag file.blockPrefix.key (s.loadLogicBlock pos file.blockPrefix)
      else .error .physicalBlock
    else .ok (tfsSuccess, false, s)
  else .error .bitMap

def Manager.loadFrom : ℕ → ℕ → Bool → Manager → Except Abort (ℤ × Manager)
  | _, 0, _, s => .ok (tfsSuccess, s)
  | pos, count + 1, conflictFlag, s =>
    match s.loadPos conflictFlag pos with
    | .error a => .error a
    | .ok (ret, conflictFlag, s) =>
      if ret ≠ tfsSuccess then .ok (ret, s) else Manager.loadFrom (pos + 1) count conflictFlag s

def Manager.loadBlockFile (s : Manager) : Except Abort (ℤ × Manager) :=
  Manager.loadFrom 1 s.superBlock.mainBlockCount false s

def bootstrap (d : Disk) : Except Abort (ℤ × Option Manager) :=
  match loadSuperBlk d with
  | .error ret => .ok (ret, none)
  | .ok s =>
    match s.loadBlockFile with
    | .error a => .error a
    | .ok (ret, s) => .ok (ret, if ret = tfsSuccess then some s else none)

/-! ## A new file system -/

def Manager.fresh (sb : SuperBlock) : Manager :=
  { superBlock := sb, normalBitMap := BitMap.new sb.itemCount, errorBitMap := BitMap.new sb.itemCount,
    logicBlocks := fun _ => none, compactLogicBlocks := fun _ => none,
    physicalBlocks := fun _ => none, disk := format sb }

theorem loadFrom_clear {s : Manager} (pos count : ℕ) (flag : Bool)
    (hlt : pos + count ≤ s.normalBitMap.itemCount)
    (hclear : ∀ i, pos ≤ i → i < pos + count → s.normalBitMap.test i = false) :
    Manager.loadFrom pos count flag s = .ok (tfsSuccess, s) := by
  induction count generalizing pos flag with
  | zero => rfl
  | succ count ih =>
    have hstep : s.loadPos flag pos = .ok (tfsSuccess, false, s) := by
      unfold Manager.loadPos
      rw [if_pos (by omega), if_neg (by simp [hclear pos (le_refl _) (by omega)])]
    rw [Manager.loadFrom, hstep]
    simp only [ne_eq, not_true, if_false]
    exact ih (pos + 1) false (by omega) fun i h₁ h₂ => hclear i (by omega) (by omega)

theorem bootstrap_format {sb : SuperBlock} (ht : sb.tagged = true) :
    bootstrap (format sb) = .ok (tfsSuccess, some (Manager.fresh sb)) := by
  have hload : loadSuperBlk (format sb) = .ok (Manager.fresh sb) := by
    unfold loadSuperBlk
    simp only [format, ht, if_true, List.length_replicate, and_self, dite_true]
    rfl
  have hfiles : (Manager.fresh sb).loadBlockFile = .ok (tfsSuccess, Manager.fresh sb) := by
    refine loadFrom_clear 1 _ false ?_ fun i _ _ => BitMap.test_new _ i
    change 1 + sb.mainBlockCount ≤ sb.itemCount
    unfold SuperBlock.itemCount
    omega
  simp [bootstrap, hload, hfiles]

end Tefs.DataServer
