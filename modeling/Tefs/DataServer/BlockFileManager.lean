import Tefs.DataServer.BitMap

/-! # The data server's block file manager

Source: `diskmanager/src/blockfile_manager.cpp`, with what it uses of `logic_block.cpp`,
`physical_block.cpp` and `superblock_impl.cpp`.

The manager's state is its memory and the disk under it. A `LogicBlock` names its physical blocks by
id, since every `PhysicalBlock` object is the one `physcial_blocks_` has under its id; the two maps
of logic blocks are partial functions of the pair <fileid, chunkid>. An operation returns its code
and the new state, or aborts when an assertion of the source fails. Every disk write of an operation
is an `IoPoint`, and an `Io` says which of them fail, with what code and with what left on the disk.
-/

namespace Tefs.DataServer
set_option autoImplicit false

/-! ## Codes and constants -/

def tfsSuccess : ℤ := 0
def tfsError : ℤ := 1
def exitBlockExhaustError : ℤ := -8004
def exitPhysicalBlockNumError : ℤ := -8005
def exitNoLogicBlockError : ℤ := -8006
def exitBlockIdConflictError : ℤ := -8009
def exitBlockExistError : ℤ := -8010
def exitCompactBlockError : ℤ := -8011
def exitFsNotInitError : ℤ := -8020
def exitBitMapConflictError : ℤ := -8021
def exitPhysicUnexpectFoundError : ℤ := -8022
def exitPhysicBlockOffsetError : ℤ := -8033
/-- `-ENOENT`, from opening a block file that does not exist. -/
def noSuchFile : ℤ := -2

def maxExtendTimes : ℕ := 30

/-! ## Data -/

/-- <fileid, chunkid> -/
abbrev Key := BitVec 64 × BitVec 32

inductive BlockType where
  | main
  | ext
  | compact
  | confuse
  deriving DecidableEq, Repr

structure BlockPrefix where
  fileid : BitVec 64
  chunkid : BitVec 32
  prevPhysicBlockId : ℕ
  nextPhysicBlockId : ℕ
  deriving DecidableEq, Repr

def BlockPrefix.key (p : BlockPrefix) : Key := (p.fileid, p.chunkid)

def BlockPrefix.zero : BlockPrefix := ⟨0, 0, 0, 0⟩

/-- A `PhysicalBlock` object; the id is its key in `physcial_blocks_`. -/
structure PhysicalBlock where
  blockPrefix : BlockPrefix
  totalDataLen : ℤ
  blockType : BlockType
  deriving DecidableEq, Repr

structure LogicBlock where
  fileid : BitVec 64
  chunkid : BitVec 32
  availDataSize : ℤ
  physicalBlockList : List ℕ
  deriving DecidableEq, Repr

def LogicBlock.key (lb : LogicBlock) : Key := (lb.fileid, lb.chunkid)

def LogicBlock.new (key : Key) : LogicBlock :=
  { fileid := key.1, chunkid := key.2, availDataSize := 0, physicalBlockList := [] }

def LogicBlock.addPhysicBlock (lb : LogicBlock) (id : ℕ) (len : ℤ) : LogicBlock :=
  { lb with physicalBlockList := lb.physicalBlockList ++ [id],
            availDataSize := lb.availDataSize + len }

structure SuperBlock where
  -- `mount_tag_` is `DEV_TAG`.
  tagged : Bool
  mainBlockCount : ℕ
  extendBlockCount : ℕ
  mainBlockSize : ℤ
  extendBlockSize : ℤ
  usedBlockCount : ℤ
  usedExtendBlockCount : ℤ
  deriving DecidableEq, Repr

def SuperBlock.itemCount (sb : SuperBlock) : ℕ := sb.mainBlockCount + sb.extendBlockCount + 1

/-- A block file: its head and its data area, which starts at `BLOCK_RESERVER_LENGTH`. -/
structure BlockFile where
  blockPrefix : BlockPrefix
  data : ℕ → Byte

/-- The super block file keeps everything twice. The block files are in two directories. -/
structure Disk where
  superBlock : SuperBlock × SuperBlock
  normalBitMap : List Byte × List Byte
  errorBitMap : List Byte × List Byte
  mainFile : ℕ → Option BlockFile
  extendFile : ℕ → Option BlockFile

@[ext] structure Memory where
  superBlock : SuperBlock
  normalBitMap : BitMap
  errorBitMap : BitMap
  logicBlocks : Key → Option LogicBlock
  compactLogicBlocks : Key → Option LogicBlock
  physicalBlocks : ℕ → Option PhysicalBlock

@[ext] structure Manager extends Memory where
  disk : Disk

inductive Side where
  | main
  | compact
  deriving DecidableEq, Repr

def Memory.blocksOf (m : Memory) : Side → Key → Option LogicBlock
  | .main => m.logicBlocks
  | .compact => m.compactLogicBlocks

def Memory.putBlock (m : Memory) (side : Side) (key : Key) (lb : Option LogicBlock) : Memory :=
  match side with
  | .main => { m with logicBlocks := Function.update m.logicBlocks key lb }
  | .compact => { m with compactLogicBlocks := Function.update m.compactLogicBlocks key lb }

/-- `insert_logic_block_map` -/
def Memory.insertLogicBlock (m : Memory) (side : Side) (lb : LogicBlock) : Memory :=
  m.putBlock side lb.key (some lb)

/-- `delete_logic_block_map` -/
def Memory.eraseLogicBlock (m : Memory) (side : Side) (key : Key) : Memory := m.putBlock side key none

def Memory.insertPhysical (m : Memory) (id : ℕ) (pb : PhysicalBlock) : Memory :=
  { m with physicalBlocks := Function.update m.physicalBlocks id (some pb) }

def Manager.onMemory (s : Manager) (f : Memory → Memory) : Manager :=
  { s with toMemory := f s.toMemory }

/-! ## Aborts and disk writes -/

inductive Abort where
  -- `assert(index < item_count_)` in `BitMap`
  | bitMap
  -- `assert(total_data_len_ > 0)` in the constructor of `PhysicalBlock`
  | physicalBlock
  -- `assert(false)` where the maps and the bitmap do not agree
  | conflict
  -- A loop of the model has used up its rounds.
  | rounds
  deriving DecidableEq, Repr

/-- The disk writes of one operation, those of `rollback_superblock` last. -/
inductive IoPoint where
  | dumpPrefix
  | writeBitMap
  | writeSuperBlk
  | flushFile
  | dumpPrevPrefix
  | rollbackBitMap
  | rollbackSuperBlk
  | rollbackFlush
  deriving DecidableEq, Repr

/-- A write that failed: its code, and the disk it left behind. -/
structure IoFailure where
  code : ℤ
  code_ne : code ≠ 0
  disk : Disk

abbrev Io := IoPoint → Option IoFailure

def Io.allDone : Io := fun _ => none

def Manager.write (s : Manager) (failure : Option IoFailure) (f : Disk → Disk) : ℤ × Manager :=
  match failure with
  | none => (tfsSuccess, { s with disk := f s.disk })
  | some e => (e.code, { s with disk := e.disk })

def Manager.writeBitMap (s : Manager) (failure : Option IoFailure) : ℤ × Manager :=
  s.write failure fun d =>
    { d with normalBitMap := (s.normalBitMap.data, s.normalBitMap.data),
             errorBitMap := (s.errorBitMap.data, s.errorBitMap.data) }

def Manager.writeSuperBlk (s : Manager) (failure : Option IoFailure) : ℤ × Manager :=
  s.write failure fun d => { d with superBlock := (s.superBlock, s.superBlock) }

def Manager.flushFile (s : Manager) (failure : Option IoFailure) : ℤ × Manager :=
  s.write failure id

def Disk.updateFile (d : Disk) (blockType : BlockType) (id : ℕ) (f : BlockFile → BlockFile) : Disk :=
  if blockType = .main then
    { d with mainFile := Function.update d.mainFile id ((d.mainFile id).map f) }
  else { d with extendFile := Function.update d.extendFile id ((d.extendFile id).map f) }

def Manager.dumpBlockPrefix (s : Manager) (failure : Option IoFailure) (id : ℕ)
    (pb : PhysicalBlock) : ℤ × Manager :=
  s.write failure fun d => d.updateFile pb.blockType id fun f =>
    { f with blockPrefix := pb.blockPrefix }

/-! ## Finding a block -/

/-- The loop of `find_avail_block` over `count` ids from `i`. -/
def Memory.findFrom (m : Memory) : ℕ → ℕ → Except Abort (Option ℕ)
  | _, 0 => .ok none
  | i, count + 1 =>
    if i < m.normalBitMap.itemCount then
      if m.normalBitMap.test i then m.findFrom (i + 1) count
      else if i < m.errorBitMap.itemCount then
        if m.errorBitMap.test i then m.findFrom (i + 1) count else .ok (some i)
      else .error .bitMap
    else .error .bitMap

def Memory.findAvailBlock (m : Memory) (blockType : BlockType) : Except Abort (Option ℕ) :=
  if blockType = .ext then
    m.findFrom (m.superBlock.mainBlockCount + 1) m.superBlock.extendBlockCount
  else m.findFrom 1 m.superBlock.mainBlockCount

/-- `find_logic_block`, the selection of a map by type; `none` for the other types. -/
def BlockType.side : BlockType → Option Side
  | .main => some .main
  | .compact => some .compact
  | .ext => none
  | .confuse => none

/-! ## Writing the allocation through -/

/-- Steps 7 to 9 of `new_block` and `new_ext_block` and 8 to 10 of `del_block`: write the bitmap,
change the counters and write the super block, flush. The flag is `block_count_modify_flag`. -/
def Manager.commit (s : Manager) (io : Io) (count : SuperBlock → SuperBlock) : ℤ × Bool × Manager :=
  let (ret, s) := s.writeBitMap (io .writeBitMap)
  if ret ≠ tfsSuccess then (ret, false, s)
  else
    let s := { s with superBlock := count s.superBlock }
    let (ret, s) := s.writeSuperBlk (io .writeSuperBlk)
    if ret ≠ tfsSuccess then (ret, true, s)
    else
      let (ret, s) := s.flushFile (io .flushFile)
      (ret, true, s)

/-- The counter `rollback_superblock` takes back, for main blocks too. -/
def SuperBlock.subExtend (sb : SuperBlock) : SuperBlock :=
  { sb with usedExtendBlockCount := sb.usedExtendBlockCount - 1 }

/-- `rollback_superblock`; the codes of its writes are only logged. -/
def Manager.rollbackSuperblock (s : Manager) (io : Io) (id : ℕ) (modifyFlag : Bool) :
    Except Abort Manager :=
  if id < s.normalBitMap.itemCount then
    if s.normalBitMap.test id then
      let s := { s with normalBitMap := s.normalBitMap.reset id }
      let s := (s.writeBitMap (io .rollbackBitMap)).2
      let s :=
        if modifyFlag then
          let s := { s with superBlock := s.superBlock.subExtend }
          (s.writeSuperBlk (io .rollbackSuperBlk)).2
        else s
      .ok (s.flushFile (io .rollbackFlush)).2
    else .ok s
  else .error .bitMap

/-- The clean-up after a failed write: roll back, and return the code of the failure. -/
def Manager.giveUp (s : Manager) (io : Io) (id : ℕ) (modifyFlag : Bool) (ret : ℤ) :
    Except Abort (ℤ × Manager) :=
  match s.rollbackSuperblock io id modifyFlag with
  | .error a => .error a
  | .ok s => .ok (ret, s)

def SuperBlock.addMain (sb : SuperBlock) : SuperBlock :=
  { sb with usedBlockCount := sb.usedBlockCount + 1 }

def SuperBlock.addExtend (sb : SuperBlock) : SuperBlock :=
  { sb with usedExtendBlockCount := sb.usedExtendBlockCount + 1 }

def SuperBlock.remove (sb : SuperBlock) (size : ℕ) : SuperBlock :=
  { sb with usedBlockCount := sb.usedBlockCount - 1,
            usedExtendBlockCount := sb.usedExtendBlockCount - ((size : ℤ) - 1) }

/-! ## `new_block` -/

/-- Steps 6 to 11, for the physical block just dumped. -/
def Manager.allocateMain (s : Manager) (io : Io) (side : Side) (key : Key) (id : ℕ)
    (pb : PhysicalBlock) : Except Abort (ℤ × Manager) :=
  if id < s.normalBitMap.itemCount then
    let s := { s with normalBitMap := s.normalBitMap.set id }
    let (ret, modifyFlag, s) := s.commit io SuperBlock.addMain
    if ret ≠ tfsSuccess then s.giveUp io id modifyFlag ret
    else
      let lb := (LogicBlock.new key).addPhysicBlock id pb.totalDataLen
      .ok (tfsSuccess, s.onMemory fun m => (m.insertPhysical id pb).insertLogicBlock side lb)
  else .error .bitMap

def BlockType.selected (blockType : BlockType) : Side :=
  if blockType = .compact then .compact else .main

def SuperBlock.mainBlock (sb : SuperBlock) (key : Key) : PhysicalBlock :=
  { blockPrefix := ⟨key.1, key.2, 0, 0⟩, totalDataLen := sb.mainBlockSize, blockType := .main }

def Manager.newBlock (s : Manager) (io : Io) (key : Key) (blockType : BlockType) :
    Except Abort (ℤ × Manager) :=
  if (s.toMemory.blocksOf blockType.selected key).isSome then .ok (exitBlockExistError, s)
  else
    match s.toMemory.findAvailBlock .main with
    | .error a => .error a
    | .ok none => .ok (exitBlockExhaustError, s)
    | .ok (some id) =>
      if (s.physicalBlocks id).isSome then .error .conflict
      else if 0 < s.superBlock.mainBlockSize then
        let pb := s.superBlock.mainBlock key
        let (ret, s) := s.dumpBlockPrefix (io .dumpPrefix) id pb
        if ret ≠ tfsSuccess then .ok (ret, s)
        else s.allocateMain io blockType.selected key id pb
      else .error .physicalBlock

/-! ## `del_block` -/

/-- Step 5: the blocks leave the map and the bitmap one by one. -/
def Memory.erasePhysical : Memory → List ℕ → Except Abort Memory
  | m, [] => .ok m
  | m, id :: ids =>
    if (m.physicalBlocks id).isSome then
      if id < m.normalBitMap.itemCount then
        Memory.erasePhysical
          { m with physicalBlocks := Function.update m.physicalBlocks id none,
                   normalBitMap := m.normalBitMap.reset id } ids
      else .error .bitMap
    else .error .conflict

def Manager.delBlock (s : Manager) (io : Io) (key : Key) (blockType : BlockType) :
    Except Abort (ℤ × Manager) :=
  match blockType.side with
  | none => .ok (exitNoLogicBlockError, s)
  | some side =>
    match s.toMemory.blocksOf side key with
    | none => .ok (exitNoLogicBlockError, s)
    | some lb =>
      if lb.physicalBlockList = [] then .ok (exitPhysicalBlockNumError, s)
      else
        match s.toMemory.erasePhysical lb.physicalBlockList with
        | .error a => .error a
        | .ok m =>
          let s := s.onMemory fun _ => m.eraseLogicBlock side key
          let (ret, _, s) := s.commit io fun sb => sb.remove lb.physicalBlockList.length
          .ok (ret, s)

/-! ## `new_ext_block` and `extend_block` -/

def PhysicalBlock.withNext (pb : PhysicalBlock) (id : ℕ) : PhysicalBlock :=
  { pb with blockPrefix := { pb.blockPrefix with nextPhysicBlockId := id } }

/-- Steps 10 to 12: the new block `pb` is dumped, and the block `prevId` gets to know it. -/
def Manager.linkExt (s : Manager) (io : Io) (prevId id : ℕ) (prev pb : PhysicalBlock) :
    Except Abort (ℤ × Manager) :=
  let (ret, s) := s.dumpBlockPrefix (io .dumpPrefix) id pb
  if ret ≠ tfsSuccess then s.giveUp io id true ret
  else
    let s := s.onMemory fun m => m.insertPhysical prevId (prev.withNext id)
    let (ret, s) := s.dumpBlockPrefix (io .dumpPrevPrefix) prevId (prev.withNext id)
    if ret ≠ tfsSuccess then s.giveUp io id true ret
    else .ok (tfsSuccess, s.onMemory fun m => m.insertPhysical id pb)

def Manager.allocateExt (s : Manager) (io : Io) (prevId id : ℕ) (prev pb : PhysicalBlock) :
    Except Abort (ℤ × Manager) :=
  if id < s.normalBitMap.itemCount then
    let s := { s with normalBitMap := s.normalBitMap.set id }
    let (ret, modifyFlag, s) := s.commit io SuperBlock.addExtend
    if ret ≠ tfsSuccess then s.giveUp io id modifyFlag ret
    else s.linkExt io prevId id prev pb
  else .error .bitMap

def SuperBlock.extendBlock (sb : SuperBlock) (key : Key) (prevId : ℕ) : PhysicalBlock :=
  { blockPrefix := ⟨key.1, key.2, prevId, 0⟩, totalDataLen := sb.extendBlockSize, blockType := .ext }

def Manager.newExtBlock (s : Manager) (io : Io) (key : Key) (physicalBlockId : ℕ) :
    Except Abort (ℤ × ℕ × Manager) :=
  if physicalBlockId = 0 then .ok (exitNoLogicBlockError, 0, s)
  else if (s.logicBlocks key).isNone then .ok (exitNoLogicBlockError, 0, s)
  else
    match s.toMemory.findAvailBlock .ext with
    | .error a => .error a
    | .ok none => .ok (exitBlockExhaustError, 0, s)
    | .ok (some id) =>
      if (s.physicalBlocks id).isSome then .error .conflict
      else
        match s.physicalBlocks physicalBlockId with
        | none => .error .conflict
        | some prev =>
          if 0 < s.superBlock.extendBlockSize then
            match s.allocateExt io physicalBlockId id prev
                (s.superBlock.extendBlock key physicalBlockId) with
            | .error a => .error a
            | .ok (ret, s) => .ok (ret, id, s)
          else .error .physicalBlock

/-- The loop of `LogicBlock::extend_block`, `retryTimes` rounds left, for the logic block that `side`
has under `key`. `extendSupport` is the build's `EXTEND_SUPPORT`. -/
def Manager.extendBlock (extendSupport : Bool) (io : ℕ → Io) (side : Side) (key : Key)
    (size offset : ℤ) : ℕ → Manager → Except Abort (ℤ × Manager)
  | 0, s => .ok (exitPhysicalBlockNumError, s)
  | retryTimes + 1, s =>
    match s.toMemory.blocksOf side key with
    | none => .ok (exitNoLogicBlockError, s)
    | some lb =>
      if lb.availDataSize < offset + size then
        if extendSupport then
          match lb.physicalBlockList.getLast? with
          | none => .ok (exitPhysicalBlockNumError, s)
          | some last =>
            match s.newExtBlock (io retryTimes) key last with
            | .error a => .error a
            | .ok (ret, id, s) =>
              if ret ≠ tfsSuccess then .ok (ret, s)
              else
                match s.physicalBlocks id with
                | none => .error .conflict
                | some pb =>
                  Manager.extendBlock extendSupport io side key size offset retryTimes
                    (s.onMemory fun m => m.putBlock side key (lb.addPhysicBlock id pb.totalDataLen))
        else .ok (tfsError, s)
      else .ok (tfsSuccess, s)

/-! ## `switch_compact_blk` and the error bitmap -/

def Memory.switchCompactBlk (m : Memory) (key : Key) : ℤ × Memory :=
  match m.compactLogicBlocks key, m.logicBlocks key with
  | some cpt, some old => (tfsSuccess, (m.insertLogicBlock .main cpt).insertLogicBlock .compact old)
  | _, _ => (exitCompactBlockError, m)

def Memory.setErrorBitmap : Memory → List ℕ → Except Abort Memory
  | m, [] => .ok m
  | m, id :: ids =>
    if id < m.errorBitMap.itemCount then
      Memory.setErrorBitmap { m with errorBitMap := m.errorBitMap.set id } ids
    else .error .bitMap

def Memory.resetErrorBitmap : Memory → List ℕ → Except Abort Memory
  | m, [] => .ok m
  | m, id :: ids =>
    if id < m.errorBitMap.itemCount then
      Memory.resetErrorBitmap { m with errorBitMap := m.errorBitMap.reset id } ids
    else .error .bitMap

end Tefs.DataServer
