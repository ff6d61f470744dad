import Tefs.Lib.RingMemory
import Mathlib.Algebra.Order.Ring.Int

/-! # The memory pool

Source: `nameservice/core/gfs_mem.c` and `gfs_mem.h`.

The memory is one of words of eight bytes, at the addresses that eight divides: `PUT` and `GET` are about the lower half
of a word, a pointer is a whole one. What `malloc` of the C library returns holds anything. The members of the pool that
are no lists are kept beside the memory; those that count bytes are not cut off to 64 bits.
-/

namespace Tefs.NameServer.MemPool
open Tefs.Ring
set_option autoImplicit false

/-! ## The system allocator -/

/-- The `m` bytes from `a` on and the `n` bytes from `b` on have none in common. -/
def Separate (a m b n : ℕ) : Prop := a + m ≤ b ∨ b + n ≤ a

instance (a m b n : ℕ) : Decidable (Separate a m b n) := inferInstanceAs (Decidable (_ ∨ _))

/-- `malloc` of the C library, which always succeeds: `addr n chunks size` is what its call number `n` returns while the
`chunks` are allocated. -/
structure Allocator where
  addr : ℕ → List (ℕ × ℕ) → ℕ → ℕ
  pos : ∀ n chunks size, 0 < addr n chunks size
  aligned : ∀ n chunks size, 8 ∣ addr n chunks size
  fresh : ∀ n chunks size, ∀ c ∈ chunks, Separate (addr n chunks size) size c.1 c.2

/-! ## Sizes and tags -/

def pageSize : ℕ := 4096

def blockMin : ℕ := 48

def minLargeSize : ℕ := 3072

def unallocated : ℕ := 0

def allocated : ℕ := 1

def initial : ℕ := 2

def large : ℕ := 4

/-- `sizeof(gfs_mem_page_t)` -/
def sizeofPage : ℕ := 32

/-- `sizeof(gfs_mem_large_t)` -/
def sizeofLarge : ℕ := 32

/-- `sizeof(gfs_mem_pool_t)` -/
def sizeofPool : ℕ := 224

/-- `PACK` -/
def pack (size alloc : ℕ) : ℕ := size ||| alloc

/-- `GET_SIZE` of the word: the tag without its three lowest bits -/
def getSize (tag : ℕ) : ℕ := tag / 8 * 8

/-- `GET_ALLOC` -/
def getAlloc (tag : ℕ) : ℕ := tag &&& 1

/-- `GET_INIT` -/
def getInit (tag : ℕ) : ℕ := tag &&& 2

/-- `GET_LARGE` -/
def getLarge (tag : ℕ) : ℕ := tag &&& 4

/-- `gfs_mem_align(d, 8)` -/
def align8 (d : ℕ) : ℕ := (d + 7) / 8 * 8

/-- `gfs_mem_getindex`: the loop counts how often the number can be halved. -/
def getindex (num : ℕ) : ℕ := if num ≤ 32 then 0 else if 2048 < num then 7 else ((num - 1) / 16).log2

/-! ## The state -/

/-- `GET` -/
def get (mem : ℕ → ℕ) (p : ℕ) : ℕ := mem p % 2 ^ 32

/-- `pool` is the address of the `gfs_mem_pool_t`; `chunks` are the blocks of the C library, `calls` the calls of its
`malloc`. -/
structure Pool where
  mem : ℕ → ℕ
  chunks : List (ℕ × ℕ)
  calls : ℕ
  pool : ℕ
  size : ℕ
  used : ℤ
  msize : ℤ
  initPages : ℕ

namespace Pool

/-- `PUT` -/
def put (p val : ℕ) (s : Pool) : Pool := { s with mem := Ring.put p (s.mem p / 2 ^ 32 * 2 ^ 32 + val % 2 ^ 32) s.mem }

/-- The store of a pointer -/
def store (p val : ℕ) (s : Pool) : Pool := { s with mem := Ring.put p val s.mem }

/-- `HDRP` -/
def hdrp (bp : ℕ) : ℕ := bp - 8

/-- `FTRP` -/
def ftrp (s : Pool) (bp : ℕ) : ℕ := bp + getSize (get s.mem (hdrp bp)) - 16

/-- `NEXT_BLKP` -/
def nextBlkp (s : Pool) (bp : ℕ) : ℕ := bp + getSize (get s.mem (bp - 8))

/-- `PREV_BLKP` -/
def prevBlkp (s : Pool) (bp : ℕ) : ℕ := bp - getSize (get s.mem (bp - 16))

/-- `&pool->page` -/
def page (s : Pool) : ℕ := s.pool

/-- `&pool->block[i]` -/
def block (s : Pool) (i : ℕ) : ℕ := s.pool + 32 + 16 * i

/-- `&pool->large` -/
def large (s : Pool) : ℕ := s.pool + 160

def queueInit (h : ℕ) (s : Pool) : Pool := { s with mem := Ring.initAt 8 h s.mem }

def queueInsertHead (h x : ℕ) (s : Pool) : Pool := { s with mem := Ring.insertHeadAt 8 h x s.mem }

def queueInsertTail (h x : ℕ) (s : Pool) : Pool := { s with mem := Ring.insertTailAt 8 h x s.mem }

def queueRemove (x : ℕ) (s : Pool) : Pool := { s with mem := Ring.removeAt 8 x s.mem }

/-- The two tags of the block at `bp`: the place of the second is read from the first. -/
def putTags (bp tag : ℕ) (s : Pool) : Pool :=
  let s := s.put (hdrp bp) tag
  s.put (s.ftrp bp) tag

/-- No list has more nodes than there are bytes. -/
def fuel (s : Pool) : ℕ := (s.chunks.map Prod.snd).sum

/-- The nodes of the list at `h` -/
def walk (s : Pool) (h : ℕ) : List ℕ := (inMemory 8 s.mem).walk h s.fuel (s.mem h)

/-! ## The functions -/

/-- `gfs_mem_malloc_internal` -/
def mallocInternal (alloc : Allocator) (size : ℕ) (s : Pool) : ℕ × Pool :=
  let ptr := alloc.addr s.calls s.chunks size
  (ptr, { s with chunks := (ptr, size) :: s.chunks, calls := s.calls + 1 })

/-- `gfs_mem_free_internal` -/
def freeInternal (bp size : ℕ) (s : Pool) : Pool :=
  if bp = 0 ∨ size = 0 then s else { s with chunks := s.chunks.filter (·.1 ≠ bp) }

/-- The block at `bp` gets the tags of a free one, and goes into its list. -/
def putFree (bp size : ℕ) (s : Pool) : Pool :=
  let s := s.putTags bp (pack size unallocated)
  s.queueInsertHead (s.block (getindex size)) bp

/-- The two branches of `gfs_mem_place`. The block at `bp` has at least `asize` bytes: the difference does not wrap. -/
def divide (bp asize csize : ℕ) (s : Pool) : Pool :=
  if blockMin ≤ csize - asize then
    let s := s.putTags bp (pack asize allocated)
    let s := s.putFree (s.nextBlkp bp) (csize - asize)
    { s with used := s.used + asize }
  else
    let s := s.putTags bp (pack csize allocated)
    { s with used := s.used + csize }

/-- `gfs_mem_place` -/
def place (bp asize : ℕ) (s : Pool) : Pool :=
  let s := s.queueRemove bp
  s.divide bp asize (getSize (get s.mem (hdrp bp)))

/-- `gfs_mem_find_fit` -/
def findFit (s : Pool) (block asize : ℕ) : Option ℕ :=
  (s.walk block).find? fun q => asize ≤ getSize (get s.mem (hdrp q))

/-- The `gfs_mem_page_t` of a page is filled in, and goes into the list. -/
def enterPage (ptr : ℕ) (s : Pool) : Pool :=
  let bp := ptr + 16
  let s := s.store (bp + 16) ptr
  let s := s.store (bp + 24) (ptr + pageSize)
  s.queueInsertHead s.page bp

/-- A page with its tags, and one free block of which the `gfs_mem_page_t` is taken: what the loops of
`gfs_mem_pool_create` and `gfs_mem_extend_pool` have in common. -/
def addPage (alloc : Allocator) (flags : ℕ) (s : Pool) : Pool :=
  let (ptr, s) := s.mallocInternal alloc pageSize
  let s := s.put ptr (pack 0 flags)
  let s := s.put (ptr + pageSize - 8) (pack 0 flags)
  let s := { s with used := s.used + 16 }
  let bp := ptr + 16
  let s := s.putFree bp (pageSize - 16)
  let s := s.place bp (sizeofPage + 16)
  s.enterPage ptr

/-- The loop of `gfs_mem_pool_create` -/
def addPages (alloc : Allocator) : ℕ → Pool → Pool
  | 0, s => s
  | n + 1, s => addPages alloc n (s.addPage alloc (allocated ||| initial))

/-- The loop of `gfs_mem_extend_pool` -/
def extendLoop (alloc : Allocator) : ℕ → Pool → Pool
  | 0, s => s
  | n + 1, s => extendLoop alloc n { s.addPage alloc allocated with size := s.size + pageSize }

/-- `gfs_mem_extend_pool` -/
def extendPool (alloc : Allocator) (s : Pool) : Pool := s.extendLoop alloc s.initPages

/-- The loop over `pool->block` -/
def initBlocks (s : Pool) : Pool := (List.range 8).foldl (fun s i => s.queueInit (s.block i)) s

/-- The first page with its tags, and the block of its `gfs_mem_page_t` and of the pool -/
def firstPage (ptr size : ℕ) (s : Pool) : Pool :=
  let s := s.put ptr (pack 0 (allocated ||| initial))
  let s := s.put (ptr + pageSize - 8) (pack 0 (allocated ||| initial))
  let bp := ptr + 16
  let s := s.putTags bp (pack size allocated)
  let s := s.store (bp + 16) ptr
  s.store (bp + 24) (ptr + pageSize)

/-- The members of the pool; `PAGESIZE*pages` has 32 bits. -/
def initPool (ptr pages : ℕ) (s : Pool) : Pool :=
  let bp := ptr + 16
  let s := { s with
    pool := bp + sizeofPage
    size := pageSize * pages % 2 ^ 32
    used := getSize (get s.mem (ptr + 8)) + 16
    msize := 0
    initPages := pages }
  let s := s.queueInit s.large
  let s := s.queueInit s.page
  let s := s.queueInsertTail s.page bp
  s.initBlocks

/-- `gfs_mem_pool_create`, in any memory -/
def create (alloc : Allocator) (mem : ℕ → ℕ) (pages : ℕ) : Option Pool :=
  if pages = 0 then none
  else
    let s : Pool := ⟨mem, [], 0, 0, 0, 0, 0, 0⟩
    let (ptr, s) := s.mallocInternal alloc pageSize
    let size := sizeofPage + sizeofPool + 16
    let s := s.firstPage ptr size
    let s := s.initPool ptr pages
    let s := s.putFree (s.nextBlkp (ptr + 16)) (pageSize - size - 16)
    some (s.addPages alloc (pages - 1))

/-- The pointer to the pool is stored in a block that was taken. -/
def handOut (bp size : ℕ) (s : Pool) : Option ℕ × Pool :=
  let s := { s with msize := s.msize + size }
  let s := s.store bp s.pool
  (some (bp + 8), s)

/-- A free block of a page is taken: how `gfs_mem_malloc` ends. -/
def take (bp asize : ℕ) (s : Pool) : Option ℕ × Pool :=
  let s := s.place bp asize
  s.handOut bp (getSize (get s.mem (hdrp bp)))

/-- `gfs_mem_malloc` of more than `MIN_LARGE_SIZE` bytes. `size` has 32 bits. -/
def mallocLarge (alloc : Allocator) (size : ℕ) (s : Pool) : Option ℕ × Pool :=
  let size := (align8 size + (sizeofLarge + 16)) % 2 ^ 32
  let (bp, s) := s.mallocInternal alloc size
  let s := s.store (bp + 16) bp
  let s := s.store (bp + 24) size
  let s := { s with used := s.used + size, msize := s.msize + size }
  let s := s.queueInsertTail s.large bp
  let bp := bp + sizeofLarge
  let s := s.put bp (pack size (allocated ||| MemPool.large))
  let bp := bp + 8
  let s := s.store bp s.pool
  (some (bp + 8), s)

/-- The lists in which `gfs_mem_malloc` looks for a block of `asize` bytes -/
def classes (asize : ℕ) : List ℕ :=
  let i := getindex asize
  let i := if 2 ^ (i + 4) < asize ∧ i < 7 then i + 1 else i
  List.range' i (8 - i)

def mallocSmall (alloc : Allocator) (asize : ℕ) (s : Pool) : Option ℕ × Pool :=
  match (classes asize).findSome? fun i => s.findFit (s.block i) asize with
  | some bp => s.take bp asize
  | none =>
    let s := s.extendPool alloc
    match s.findFit (s.block 7) asize with
    | none => (none, s)
    | some bp => s.take bp asize

/-- `gfs_mem_malloc`, and `NULL` as `none` -/
def malloc (alloc : Allocator) (size : ℕ) (s : Pool) : Option ℕ × Pool :=
  if size = 0 then (none, s)
  else if size ≤ 16 then s.mallocSmall alloc blockMin
  else if minLargeSize < size then s.mallocLarge alloc size
  else s.mallocSmall alloc (align8 size + 32)

/-- The second case of `gfs_mem_coalesce` -/
def joinNext (bp size : ℕ) (s : Pool) : Pool :=
  let s := s.queueRemove (s.nextBlkp bp)
  s.putFree bp (size + getSize (get s.mem (hdrp (s.nextBlkp bp))))

def putPrev (bp block size : ℕ) (s : Pool) : Pool :=
  let s := s.put (s.ftrp bp) (pack size 0)
  let s := s.put (hdrp (s.prevBlkp bp)) (pack size 0)
  s.queueInsertHead (s.block (getindex size)) block

/-- The third case of `gfs_mem_coalesce` -/
def joinPrev (bp size : ℕ) (s : Pool) : Pool :=
  let block := s.prevBlkp bp
  let s := s.queueRemove block
  s.putPrev bp block (size + getSize (get s.mem (hdrp (s.prevBlkp bp))))

def putBoth (bp block size : ℕ) (s : Pool) : Pool :=
  let s := s.put (hdrp (s.prevBlkp bp)) (pack size 0)
  let s := s.put (s.ftrp (s.nextBlkp bp)) (pack size 0)
  s.queueInsertHead (s.block (getindex size)) block

/-- The fourth case of `gfs_mem_coalesce` -/
def joinBoth (bp size : ℕ) (s : Pool) : Pool :=
  let s := s.queueRemove (s.nextBlkp bp)
  let block := s.prevBlkp bp
  let s := s.queueRemove block
  s.putBoth bp block
    (size + (getSize (get s.mem (hdrp (s.prevBlkp bp))) + getSize (get s.mem (s.ftrp (s.nextBlkp bp)))))

/-- `gfs_mem_coalesce` -/
def coalesce (bp : ℕ) (s : Pool) : Pool :=
  let prevAlloc := getAlloc (get s.mem (s.ftrp (s.prevBlkp bp)))
  let nextAlloc := getAlloc (get s.mem (hdrp (s.nextBlkp bp)))
  let size := getSize (get s.mem (hdrp bp))
  if prevAlloc ≠ 0 then
    if nextAlloc ≠ 0 then s.queueInsertHead (s.block (getindex size)) bp else s.joinNext bp size
  else if nextAlloc ≠ 0 then s.joinPrev bp size
  else s.joinBoth bp size

/-- `gfs_mem_free` of a block of `size` bytes. `none`: the process leaves by the exit for a tag that was overwritten. -/
def freeBlock (bp size : ℕ) (s : Pool) : Option Pool :=
  let s := { s with used := s.used - size, msize := s.msize - size }
  if getLarge (get s.mem (hdrp bp)) ≠ 0 then
    let large := bp - 8 - sizeofLarge
    let s := s.queueRemove large
    some (s.freeInternal (s.mem (large + 16)) size)
  else if get s.mem (hdrp bp) ≠ get s.mem (s.ftrp bp) then none
  else some ((s.putTags bp (pack size unallocated)).coalesce bp)

/-- `gfs_mem_free` of a pointer that is not `NULL`; `none` also if the block is not one of this pool. -/
def free (ptr : ℕ) (s : Pool) : Option Pool :=
  let bp := ptr - 8
  if s.mem bp ≠ s.pool then none else s.freeBlock bp (getSize (get s.mem (hdrp bp)))

/-- The loop of `gfs_mem_pool_reset` over the large blocks -/
def freeLarges : ℕ → ℕ → Pool → Pool
  | 0, _, s => s
  | n + 1, large, s =>
    if large = s.large then s
    else
      let lnext := s.mem large
      let s := s.queueRemove large
      freeLarges n lnext (s.freeInternal (s.mem (large + 16)) (s.mem (large + 24)))

/-- All of a page behind its first block is free again. -/
def clearPage (page size : ℕ) (s : Pool) : Pool :=
  let s := s.putFree (s.nextBlkp page) size
  { s with used := s.used + (pageSize - size : ℕ) }

/-- A round of the loop of `gfs_mem_pool_reset` over the pages -/
def resetPage (page : ℕ) (s : Pool) : Pool :=
  if getInit (get s.mem (s.mem (page + 16))) ≠ 0 then
    s.clearPage page (pageSize - getSize (get s.mem (hdrp page)) - 16)
  else
    let s := s.queueRemove page
    s.freeInternal (s.mem (page + 16)) pageSize

def resetPages : ℕ → ℕ → Pool → Pool
  | 0, _, s => s
  | n + 1, page, s => if page = s.page then s else resetPages n (s.mem page) (s.resetPage page)

/-- `gfs_mem_pool_reset` -/
def reset (s : Pool) : Pool :=
  let s := s.freeLarges s.fuel (s.mem s.large)
  let s := { s with size := s.initPages * pageSize, used := 0, msize := 0 }
  let s := s.queueInit s.large
  let s := s.initBlocks
  s.resetPages s.fuel (s.mem s.page)

/-! ## What the memory says -/

/-- The blocks from `bp` to `stop`, each where the one before ends; `none` if none ends at `stop`. -/
def blocksFrom (s : Pool) (stop : ℕ) : ℕ → ℕ → Option (List ℕ)
  | 0, _ => none
  | n + 1, bp => if bp = stop then some [] else (s.blocksFrom stop n (s.nextBlkp bp)).map (bp :: ·)

/-- The blocks of a page, from the one of the `gfs_mem_page_t` to `page->end` -/
def blocks (s : Pool) (page : ℕ) : Option (List ℕ) := s.blocksFrom (s.mem (page + 24)) pageSize page

def sizeOf (s : Pool) (bp : ℕ) : ℕ := getSize (get s.mem (hdrp bp))

def isAllocated (s : Pool) (bp : ℕ) : Prop := getAlloc (get s.mem (hdrp bp)) ≠ 0

/-- The bytes that `ptr` points to: up to the footer, or to the end of a large block -/
def payload (s : Pool) (ptr : ℕ) : ℕ :=
  if getLarge (get s.mem (hdrp (ptr - 8))) ≠ 0 then s.sizeOf (ptr - 8) - 48 else s.sizeOf (ptr - 8) - 24

end Pool

/-! ## The pool and its users -/

/-- The pool, and what was allocated and not freed: the pointers, with the sizes that were asked for -/
structure Machine where
  pool : Pool
  live : List (ℕ × ℕ)

inductive Action
  | malloc (size : ℕ)
  | free (ptr : ℕ)
  | reset
  /-- A user stores the word at `a`. -/
  | write (a val : ℕ)

/-- A live pointer is freed, and a word is stored of the bytes that a live pointer points to. -/
def Action.Valid (s : Machine) : Action → Prop
  | .malloc size => 0 < size ∧ size + 48 < 2 ^ 32
  | .free ptr => ∃ b ∈ s.live, b.1 = ptr
  | .reset => True
  | .write a _ => 8 ∣ a ∧ ∃ b ∈ s.live, b.1 ≤ a ∧ a < b.1 + s.pool.payload b.1

/-- The size with its header is cut off to 32 bits. -/
def Action.Wraps : Action → Prop
  | .malloc size => 2 ^ 32 ≤ align8 size + 48
  | _ => False

namespace Machine

/-- `none`: `gfs_mem_malloc` returns `NULL`, or `gfs_mem_free` fails. -/
def step (alloc : Allocator) (s : Machine) : Action → Option Machine
  | .malloc size =>
    match s.pool.malloc alloc size with
    | (none, _) => none
    | (some ptr, pool) => some ⟨pool, (ptr, size) :: s.live⟩
  | .free ptr => (s.pool.free ptr).map (⟨·, s.live.filter fun b => b.1 ≠ ptr⟩)
  | .reset => some ⟨s.pool.reset, []⟩
  | .write a val => some { s with pool := s.pool.store a val }

/-- The pool is in order. -/
structure Sound (s : Machine) : Prop where
  paged : ∀ page ∈ s.pool.walk s.pool.page,
    s.pool.mem (page + 16) + 16 = page ∧ s.pool.mem (page + 24) = s.pool.mem (page + 16) + pageSize
  tiled : ∀ page ∈ s.pool.walk s.pool.page, ∃ bs, s.pool.blocks page = some bs ∧
    (∀ bp ∈ bs, get s.pool.mem (Pool.hdrp bp) = get s.pool.mem (s.pool.ftrp bp)) ∧
    bs.IsChain fun bp bp' => s.pool.isAllocated bp ∨ s.pool.isAllocated bp'
  listed : ∀ i < 8, ∀ bp, bp ∈ s.pool.walk (s.pool.block i) ↔
    getindex (s.pool.sizeOf bp) = i ∧ ¬ s.pool.isAllocated bp ∧
      ∃ page ∈ s.pool.walk s.pool.page, ∃ bs, s.pool.blocks page = some bs ∧ bp ∈ bs
  apart : s.live.Pairwise fun b b' => Separate b.1 (s.pool.payload b.1) b'.1 (s.pool.payload b'.1)
  enough : ∀ b ∈ s.live, b.2 ≤ s.pool.payload b.1
  inside : ∀ b ∈ s.live, ∃ c ∈ s.pool.chunks, c.1 ≤ b.1 ∧ b.1 + s.pool.payload b.1 ≤ c.1 + c.2
  msize : s.pool.msize = (s.live.map fun b => (s.pool.sizeOf (b.1 - 8) : ℤ)).sum
  used : s.pool.used = s.pool.msize + ((s.pool.walk s.pool.page).map fun page => (s.pool.sizeOf page + 16 : ℤ)).sum

/-- Every action is one that a user may do. -/
def ValidRun (alloc : Allocator) : Machine → List Action → Prop
  | _, [] => True
  | s, a :: as => a.Valid s ∧ ∀ s', s.step alloc a = some s' → ValidRun alloc s' as

/-- The pool is in order after every step, and no step fails. -/
def SoundRun (alloc : Allocator) : Machine → List Action → Prop
  | s, [] => s.Sound
  | s, a :: as => s.Sound ∧ ∃ s', s.step alloc a = some s' ∧ SoundRun alloc s' as

end Machine

end Tefs.NameServer.MemPool
