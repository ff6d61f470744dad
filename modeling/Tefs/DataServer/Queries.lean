import Mathlib.Data.List.Flatten
import Tefs.DataServer.Space

/-! # The queries of the block file manager

Source: `get_all_logic_block`, `get_all_logic_block_size`, `get_logic_block_ids`, `get_all_physic_block`, `query_bit_map`,
`get_bit_map_info`, `query_space`, `get_logic_block_size_map`, `insert_logic_block_map` and `delete_logic_block_map` of
`diskmanager/src/blockfile_manager.cpp`, `combine_itoa` of `diskmanager/common/tbsys.cpp`.

The maps are kept as `std::map` iterates over them. `get_logic_block_size_map` means to choose one of two maps, but
`selected_logic_blocks` is a reference to `logic_blocks_`, and an assignment to it goes to that map.
-/

namespace Tefs.DataServer
set_option autoImplicit false

/-! ## Maps -/

/-- The elements of a `std::map`, in the order of the keys -/
structure StdMap (κ ν : Type) [LT κ] where
  entries : List (κ × ν)
  sorted : entries.Pairwise fun a b => a.1 < b.1

namespace StdMap

variable {κ ν : Type} [LT κ]

def size (m : StdMap κ ν) : ℕ := m.entries.length

def values (m : StdMap κ ν) : List ν := m.entries.map Prod.snd

def empty : StdMap κ ν := ⟨[], .nil⟩

def find (m : StdMap κ ν) [DecidableEq κ] (key : κ) : Option ν := (m.entries.find? (·.1 = key)).map Prod.snd

def erase (m : StdMap κ ν) [DecidableEq κ] (key : κ) : StdMap κ ν := ⟨m.entries.filter (·.1 ≠ key), m.sorted.filter _⟩

/-- `m[key] = value` -/
def assign {w : ℕ} (m : StdMap (BitVec w) ν) (key : BitVec w) (value : ν) : StdMap (BitVec w) ν where
  entries := m.entries.filter (·.1 < key) ++ (key, value) :: m.entries.filter (key < ·.1)
  sorted := by
    have hbelow : ∀ a ∈ m.entries.filter (·.1 < key), a.1 < key := by
      intro a ha
      simpa using (List.mem_filter.mp ha).2
    have habove : ∀ b ∈ m.entries.filter (key < ·.1), key < b.1 := by
      intro b hb
      simpa using (List.mem_filter.mp hb).2
    rw [List.pairwise_append, List.pairwise_cons]
    refine ⟨m.sorted.filter _, ⟨habove, m.sorted.filter _⟩, fun a ha b hb => ?_⟩
    rcases List.mem_cons.mp hb with rfl | hb
    · exact hbelow a ha
    · exact BitVec.lt_trans (hbelow a ha) (habove b hb)

theorem mem_of_find {m : StdMap κ ν} [DecidableEq κ] {key : κ} {value : ν} (h : m.find key = some value) :
    (key, value) ∈ m.entries := by
  obtain ⟨entry, hfound, rfl⟩ := Option.map_eq_some_iff.mp h
  have hkey : entry.1 = key := by simpa using List.find?_some hfound
  rw [← hkey]
  exact List.mem_of_find?_eq_some hfound

theorem mem_of_mem_erase {m : StdMap κ ν} [DecidableEq κ] {key : κ} {entry : κ × ν}
    (h : entry ∈ (m.erase key).entries) : entry ∈ m.entries :=
  (List.mem_filter.mp h).1

theorem mem_of_mem_assign {w : ℕ} {m : StdMap (BitVec w) ν} {key : BitVec w} {value : ν} {entry : BitVec w × ν}
    (h : entry ∈ (m.assign key value).entries) : entry = (key, value) ∨ entry ∈ m.entries := by
  rcases List.mem_append.mp h with hbelow | hrest
  · exact .inr (List.mem_filter.mp hbelow).1
  · rcases List.mem_cons.mp hrest with heq | habove
    · exact .inl heq
    · exact .inr (List.mem_filter.mp habove).1

end StdMap

/-- A `LogicBlock` as far as the maps are read through it -/
structure StampedBlock where
  block : LogicBlock
  lastUpdate : ℤ
  deriving DecidableEq, Repr

/-- A `LogicBlock*`, which may be `NULL` -/
abbrev BlockPtr := Option StampedBlock

abbrev LogicBlockMap := StdMap (BitVec 64) (StdMap (BitVec 32) BlockPtr)

/-- A `BitMap` with its `set_count_` -/
structure CountedBitMap where
  bits : BitMap
  setCount : ℕ
  deriving DecidableEq

/-- The members of `BlockFileManager` that the queries read -/
structure Store where
  logicBlocks : LogicBlockMap
  compactLogicBlocks : LogicBlockMap
  physicalBlocks : StdMap (BitVec 32) PhysicalBlock
  bitMapSize : ℕ
  normalBitMap : CountedBitMap
  errorBitMap : CountedBitMap
  superBlock : SuperBlock

/-- Under the ids of the block; `NULL` is refused. -/
def insertLogicBlockMap (logicmap : LogicBlockMap) : BlockPtr → LogicBlockMap
  | none => logicmap
  | some b =>
    logicmap.assign b.block.fileid (((logicmap.find b.block.fileid).getD .empty).assign b.block.chunkid (some b))

/-- An entry that is not there is an error, and the map stays as it is. -/
def deleteLogicBlockMap (logicmap : LogicBlockMap) (fileid : BitVec 64) (chunkid : BitVec 32) : LogicBlockMap :=
  match logicmap.find fileid with
  | none => logicmap
  | some chunks =>
    if (chunks.find chunkid).isNone then logicmap
    else if (chunks.erase chunkid).entries = [] then logicmap.erase fileid
    else logicmap.assign fileid (chunks.erase chunkid)

/-! ## The queries -/

/-- The loops over the files and their chunks -/
def LogicBlockMap.blocks (m : LogicBlockMap) : List BlockPtr := m.values.flatMap StdMap.values

def LogicBlockMap.keys (m : LogicBlockMap) : List Key :=
  m.entries.flatMap fun file => file.2.entries.map fun chunk => (file.1, chunk.1)

def Store.getAllLogicBlock (s : Store) (blockType : BlockType) : List BlockPtr × Store :=
  if blockType = .main then (s.logicBlocks.blocks, s) else (s.compactLogicBlocks.blocks, s)

/-- Both branches assign through the reference. -/
def Store.getLogicBlockSizeMap (s : Store) (blockType : BlockType) : ℕ × Store :=
  let s :=
    if blockType = .compact then { s with logicBlocks := s.compactLogicBlocks }
    else { s with logicBlocks := s.logicBlocks }
  ((s.logicBlocks.values.map StdMap.size).sum, s)

def Store.getAllLogicBlockSize (s : Store) (blockType : BlockType) : ℕ × Store := s.getLogicBlockSizeMap blockType

/-- `combine_itoa`, in base 10 -/
def combineItoa (key : Key) : List Char := Nat.toDigits 10 key.1.toNat ++ ':' :: Nat.toDigits 10 key.2.toNat

def Store.getLogicBlockIds (s : Store) (blockType : BlockType) : List (List Char) × Store :=
  let selectBlock := if blockType = .main then s.logicBlocks else s.compactLogicBlocks
  (selectBlock.keys.map combineItoa, s)

def Store.getAllPhysicBlock (s : Store) : List PhysicalBlock × Store := (s.physicalBlocks.values, s)

inductive BitMapType
  | allocateBlock
  | errorBlock
  deriving DecidableEq, Repr

/-- The length, the count, and the copy of the data -/
def Store.queryBitMap (s : Store) (bitmapType : BitMapType) : (ℕ × ℕ × List Byte) × Store :=
  if bitmapType = .allocateBlock then
    ((s.bitMapSize, s.normalBitMap.setCount, s.normalBitMap.bits.data.take s.bitMapSize), s)
  else ((s.bitMapSize, s.errorBitMap.setCount, s.errorBitMap.bits.data.take s.bitMapSize), s)

def Store.getBitMapInfo (s : Store) : (ℕ × ℕ × ℕ) × Store :=
  ((s.bitMapSize, s.normalBitMap.setCount, s.errorBitMap.setCount), s)

def Store.querySpace (s : Store) : (ℤ × ℤ) × Store := (s.superBlock.querySpace formattedRatio, s)

inductive Query
  | allLogicBlockSize (blockType : BlockType)
  | allLogicBlock (blockType : BlockType)
  | logicBlockIds (blockType : BlockType)
  | allPhysicBlock
  | bitMap (bitmapType : BitMapType)
  | bitMapInfo
  | space
  deriving DecidableEq, Repr

/-- The state after a query -/
def Store.ask (s : Store) : Query → Store
  | .allLogicBlockSize blockType => (s.getAllLogicBlockSize blockType).2
  | .allLogicBlock blockType => (s.getAllLogicBlock blockType).2
  | .logicBlockIds blockType => (s.getLogicBlockIds blockType).2
  | .allPhysicBlock => s.getAllPhysicBlock.2
  | .bitMap bitmapType => (s.queryBitMap bitmapType).2
  | .bitMapInfo => s.getBitMapInfo.2
  | .space => s.querySpace.2

/-- The seven queries, asked for the type where they take one, leave everything as it is, and the size is the length of
the list. -/
structure Store.Pure (s : Store) (blockType : BlockType) : Prop where
  size : (s.getAllLogicBlockSize blockType).2 = s
  blocks : (s.getAllLogicBlock blockType).2 = s
  ids : (s.getLogicBlockIds blockType).2 = s
  physic : s.getAllPhysicBlock.2 = s
  bitMap : ∀ bitmapType, (s.queryBitMap bitmapType).2 = s
  bitMapInfo : s.getBitMapInfo.2 = s
  space : s.querySpace.2 = s
  counted : (s.getAllLogicBlockSize blockType).1 = (s.getAllLogicBlock blockType).1.length

/-! ## What they do -/

section

variable {s : Store} {blockType : BlockType}

theorem blocks_length (m : LogicBlockMap) : m.blocks.length = (m.values.map StdMap.size).sum := by
  rw [LogicBlockMap.blocks, List.length_flatMap]
  congr 1
  apply List.map_congr_left
  intro chunks _
  rw [StdMap.values, List.length_map, StdMap.size]

theorem getAllLogicBlockSize_state (s : Store) (blockType : BlockType) :
    (s.getAllLogicBlockSize blockType).2 =
      if blockType = .compact then { s with logicBlocks := s.compactLogicBlocks } else s := by
  rfl

theorem getAllLogicBlockSize_fst (htype : blockType = .main ∨ blockType = .compact) :
    (s.getAllLogicBlockSize blockType).1 = (s.getAllLogicBlock blockType).1.length := by
  rcases htype with rfl | rfl
  · exact (blocks_length s.logicBlocks).symm
  · exact (blocks_length s.compactLogicBlocks).symm

/-- The other six queries have no part in it. -/
theorem pure_iff (htype : blockType = .main ∨ blockType = .compact) :
    s.Pure blockType ↔ blockType = .main ∨ s.logicBlocks = s.compactLogicBlocks := by
  constructor
  · intro h
    have hstate := h.size
    rw [getAllLogicBlockSize_state] at hstate
    rcases htype with rfl | rfl
    · exact .inl rfl
    · exact .inr (congrArg Store.logicBlocks hstate).symm
  · intro h
    refine ⟨?_, ?_, ?_, rfl, ?_, rfl, rfl, getAllLogicBlockSize_fst htype⟩
    · rw [getAllLogicBlockSize_state]
      rcases h with rfl | hsame
      · rfl
      · obtain ⟨logicBlocks, compactLogicBlocks⟩ := s
        cases hsame
        split <;> rfl
    · rw [Store.getAllLogicBlock]
      split <;> rfl
    · rfl
    · intro bitmapType
      rw [Store.queryBitMap]
      split <;> rfl

end

/-! ## Sequences of queries -/

/-- A query that does no harm: any but the size of the compact blocks -/
def Query.Harmless (q : Query) : Prop := q ≠ .allLogicBlockSize .compact

theorem Query.Harmless.ask {q : Query} (h : q.Harmless) (s : Store) : s.ask q = s := by
  cases q with
  | allLogicBlockSize blockType =>
    rw [Store.ask, getAllLogicBlockSize_state, if_neg]
    rintro rfl
    exact h rfl
  | allLogicBlock blockType =>
    rw [Store.ask, Store.getAllLogicBlock]
    split <;> rfl
  | bitMap bitmapType =>
    rw [Store.ask, Store.queryBitMap]
    split <;> rfl
  | _ => rfl

/-- Whatever is asked, the maps are what they were, or the compact blocks have replaced the main ones. -/
theorem asks_logicBlocks (qs : List Query) (s : Store) :
    qs.foldl Store.ask s = s ∨ qs.foldl Store.ask s = { s with logicBlocks := s.compactLogicBlocks } := by
  induction qs generalizing s with
  | nil => exact .inl rfl
  | cons q qs ih =>
    rw [List.foldl_cons]
    by_cases h : q.Harmless
    · rw [h.ask]
      exact ih s
    · obtain rfl : q = .allLogicBlockSize .compact := not_not.mp h
      exact .inr ((ih _).elim id id)

def oneBlock : LogicBlockMap := ⟨[(7, ⟨[(0, some ⟨.new (7, 0), 0⟩)], by simp⟩)], by simp⟩

/-- One main block is stored, and no compact block. -/
def oneMainBlock : Store where
  logicBlocks := oneBlock
  compactLogicBlocks := .empty
  physicalBlocks := .empty
  bitMapSize := 1
  normalBitMap := ⟨.new 2, 0⟩
  errorBitMap := ⟨.new 2, 0⟩
  superBlock := .formatted 1 4

theorem pure_main : oneMainBlock.Pure .main :=
  (pure_iff (.inl rfl)).mpr (.inl rfl)

/-- The size of the compact blocks is asked for, and the main blocks are gone. -/
theorem compact_size_loses_blocks : (oneMainBlock.getAllLogicBlock .main).1.length = 1 ∧
    ((oneMainBlock.ask (.allLogicBlockSize .compact)).getAllLogicBlock .main).1 = [] ∧ ¬ oneMainBlock.Pure .compact := by
  refine ⟨rfl, rfl, fun h => ?_⟩
  have hlost := congrArg (fun s => (Store.getAllLogicBlock s .main).1) h.size
  cases hlost

end Tefs.DataServer
