import Tefs.DataServer.BlockBytes
import Tefs.Lib.Runs
import Tefs.Lib.Segments

/-! # The block manager as a store of bytes

Source: `diskmanager/src/data_management.cpp`, `logic_block.cpp`, `blockfile_manager.cpp`.

What a client may rely on over a whole history: under every key lie the bytes that were written there last, since the
block was last deleted. Blocks that grow, that come and go beside it and take over its places, and restarts do not
change them. What the bytes are that were never written is left open: a new block holds what its file held.
-/

namespace Tefs.DataServer
open Extents Runs Segments
set_option autoImplicit false

/-! ## What has been written -/

/-- The bytes written under each key -/
abbrev Written := Key → ℤ → Option Byte

inductive StoreCall
  | store (op : StoreOp)
  -- the data server is started anew on its disk
  | restart
  deriving DecidableEq, Repr

def StoreCall.InRange (extendBlockSize : ℤ) : StoreCall → Prop
  | .store op => op.InRange extendBlockSize
  | .restart => True

/-- What a call that returned `ret` has added -/
def Written.after (b : Written) : StoreCall × ℤ → Written
  | (.store (.writeRawData key offset buf), ret) =>
    if ret = tfsSuccess then Function.update b key (Segment.lay (b key) ⟨offset, buf.map some⟩) else b
  | (.store (.delBlock key), ret) => if ret = tfsSuccess then Function.update b key fun _ => none else b
  | (.store (.newBlock _), _) | (.store (.extendBlock _ _ _), _) | (.restart, _) => b

def written (done : List (StoreCall × ℤ)) : Written := done.foldl Written.after fun _ _ => none

namespace Manager

def storeCode (extendSupport : Bool) (s : Manager) : StoreOp → Except Abort (ℤ × Manager)
  | .newBlock key => s.newBlock Io.allDone key .main
  | .extendBlock key size offset =>
    Manager.extendBlock extendSupport (fun _ => Io.allDone) .main key size offset maxExtendTimes s
  | .delBlock key => s.delBlock Io.allDone key .main
  | .writeRawData key offset buf => s.writeRawData extendSupport key offset buf

/-- A call, with the code it returned -/
inductive Calls (extendSupport : Bool) (s : Manager) : StoreCall × ℤ → Manager → Prop
  | store {op : StoreOp} {ret : ℤ} {s' : Manager} (h : s.storeCode extendSupport op = .ok (ret, s')) :
      Calls extendSupport s (.store op, ret) s'
  | restart {ret : ℤ} {s' : Manager} (h : bootstrap s.disk = .ok (ret, some s')) : Calls extendSupport s (.restart, ret) s'

/-- Every byte that was written is where a read will look for it. -/
def Holds (s : Manager) (b : Written) : Prop :=
  ∀ key q v, b key q = some v → 0 ≤ q ∧ ∃ lb, s.logicBlocks key = some lb ∧ s.byteAt lb.physicalBlockList q = some v

/-! ## The disk behind the blocks -/

section Stored

variable {sb : SuperBlock} {s s' : Manager}

theorem dataOf_isSome_of_prefixOf {d : Disk} {blockType : BlockType} {id : ℕ}
    (h : (d.prefixOf blockType id).isSome = true) : (d.dataOf blockType id).isSome = true := by
  rw [Disk.prefixOf, Option.isSome_map] at h
  rw [Disk.dataOf, Option.isSome_map]
  exact h

theorem Stored.phys (h : s.Stored sb) {id : ℕ} {pb : PhysicalBlock} (hpb : s.physicalBlocks id = some pb) :
    (s.superBlock.isMain id ∧ (s.disk.dataOf .main id).isSome = true ∧ pb.blockType = .main ∧
        pb.totalDataLen = s.superBlock.mainBlockSize) ∨
      s.superBlock.isExtend id ∧ (s.disk.dataOf .ext id).isSome = true ∧ pb.blockType = .ext ∧
        pb.totalDataLen = s.superBlock.extendBlockSize := by
  have hrange := h.sound.alloc.allocated_range (show (s.physicalBlocks id).isSome = true by rw [hpb]; rfl)
  obtain ⟨hm, hp, hpb'⟩ | ⟨hx, hp, hpb'⟩ := h.disk.phys_cases hpb hrange
  · exact .inl ⟨hm, dataOf_isSome_of_prefixOf (by rw [hp]; rfl), by rw [hpb']; rfl, by rw [hpb']; rfl⟩
  · exact .inr ⟨hx, dataOf_isSome_of_prefixOf (by rw [hp]; rfl), by rw [hpb']; rfl, by rw [hpb']; rfl⟩

theorem Stored.backed (h : s.Stored sb) : s.Backed where
  room id pb hpb := by
    obtain ⟨-, -, -, hlen⟩ | ⟨hx, -, -, hlen⟩ := h.phys hpb
    · rw [hlen]
      exact h.sound.alloc.main_size
    · rw [hlen]
      refine h.sound.alloc.extend_size.resolve_left fun hzero => ?_
      have := hx.1
      have := hx.2
      omega
  file id pb hpb := by
    obtain ⟨-, hfile, htype, -⟩ | ⟨-, hfile, htype, -⟩ := h.phys hpb
    · rw [htype]
      exact hfile
    · rw [htype]
      exact hfile

theorem blocksOf_main {m : Memory} {key : Key} {lb : LogicBlock} (hlb : m.logicBlocks key = some lb) :
    m.blocksOf .main key = some lb := hlb

theorem Stored.listed (h : s.Stored sb) {key : Key} {lb : LogicBlock} (hlb : s.logicBlocks key = some lb) :
    ∀ id ∈ lb.physicalBlockList, (s.physicalBlocks id).isSome = true :=
  fun _ hid => h.sound.alloc.listed_some (blocksOf_main hlb) hid

theorem Stored.nodup (h : s.Stored sb) {key : Key} {lb : LogicBlock} (hlb : s.logicBlocks key = some lb) :
    lb.physicalBlockList.Nodup := h.sound.alloc.list_nodup (blocksOf_main hlb)

/-- A block has room for as many bytes as its physical blocks. -/
theorem Stored.avail_eq (h : s.Stored sb) {key : Key} {lb : LogicBlock} (hlb : s.logicBlocks key = some lb) :
    lb.availDataSize = total s.toMemory.totalDataLen lb.physicalBlockList := by
  have halloc := h.sound.alloc
  obtain ⟨main, exts, hblock, -⟩ := h.disk.linked key lb hlb
  obtain ⟨main', exts', hshape, hmain, hexts⟩ := (halloc.blockOk .main key lb hlb).shape
  have hlist : lb.physicalBlockList = main :: exts := by rw [hblock]; rfl
  obtain ⟨rfl, rfl⟩ := List.cons.inj (hlist.symm.trans hshape)
  have hlen : ∀ id ∈ lb.physicalBlockList, s.toMemory.totalDataLen id =
      if s.superBlock.isMain id then s.superBlock.mainBlockSize else s.superBlock.extendBlockSize := by
    intro id hid
    obtain ⟨pb, hpb⟩ := Option.isSome_iff_exists.mp (h.listed hlb id hid)
    rw [totalDataLen_of_some hpb]
    obtain ⟨hm, -, -, hlen⟩ | ⟨hx, -, -, hlen⟩ := h.phys hpb
    · rw [hlen, if_pos hm]
    · rw [hlen, if_neg fun hm => hm.not_isExtend hx]
  rw [hlist] at hlen
  have hext : total s.toMemory.totalDataLen exts = exts.length * s.superBlock.extendBlockSize := by
    have hconst : exts.map s.toMemory.totalDataLen = exts.map fun _ => s.superBlock.extendBlockSize := by
      apply List.map_congr_left
      intro id hid
      rw [hlen id (List.mem_cons_of_mem main hid), if_neg fun hm => hm.not_isExtend (hexts id hid)]
    rw [total, hconst, List.map_const', List.sum_replicate, nsmul_eq_mul]
  rw [hlist, total_cons, hlen main List.mem_cons_self, if_pos hmain, hext, hblock]
  rfl

/-! ## What the calls leave in place -/

variable {b b' : Written}

/-- Where the bytes under each key can still be read, they are still held. -/
theorem Holds.frame (h : s.Holds b) (hsub : ∀ key q v, b' key q = some v → b key q = some v)
    (hkeep : ∀ key lb, b' key ≠ (fun _ => none) → s.logicBlocks key = some lb → ∃ lb', s'.logicBlocks key = some lb' ∧
      ∀ q v, 0 ≤ q → s.byteAt lb.physicalBlockList q = some v → s'.byteAt lb'.physicalBlockList q = some v) :
    s'.Holds b' := by
  intro key q v hv
  obtain ⟨hq, lb, hlb, hbyte⟩ := h key q v (hsub key q v hv)
  have hsome : b' key ≠ fun _ => none := by
    intro hnone
    rw [hnone] at hv
    cases hv
  obtain ⟨lb', hlb', hstay⟩ := hkeep key lb hsome hlb
  exact ⟨hq, lb', hlb', hstay q v hq hbyte⟩

theorem dataOf_dumped (d : Disk) (id : ℕ) (pb : PhysicalBlock) (blockType : BlockType) (i : ℕ) :
    (d.dumped id pb).dataOf blockType i = d.dataOf blockType i := by
  rw [Disk.dumped, dataOf_updateFile]
  split
  · rfl
  · rfl

theorem Holds.newBlock (h : s.Holds b) (hs : s.Stored sb) {key : Key} {ret : ℤ}
    (hnew : s.newBlock Io.allDone key .main = .ok (ret, s')) : s'.Holds b := by
  obtain ⟨ret', s'', heq, hstep⟩ := newBlock_step hs.sound.alloc Io.allDone key .main
  obtain ⟨rfl, rfl⟩ : ret' = ret ∧ s'' = s' := by simpa using heq.symm.trans hnew
  cases hstep with
  | exist _ => exact h
  | exhaust _ _ => exact h
  | undone e _ id hn hf hat mem => simp [Io.allDone] at hat
  | miscounted e _ id hn hf dump bitMap hat mem => simp [Io.allDone] at hat
  | done id _ hn hf dump bitMap super flush mem disk =>
    obtain ⟨o, ho, hspec⟩ := findAvailBlock_ok hs.sound.alloc.normal_items hs.sound.alloc.error_items .main
    rw [hf] at ho
    cases ho
    obtain ⟨-, ht, -⟩ := hspec id rfl
    have hphys : ∀ i, i ≠ id → s''.physicalBlocks i = s.physicalBlocks i := by
      intro i hi
      rw [mem]
      exact Function.update_of_ne hi _ _
    have hdata : ∀ blockType i, s''.disk.dataOf blockType i = s.disk.dataOf blockType i := by
      intro blockType i
      rw [disk]
      exact dataOf_dumped s.disk id (s.superBlock.mainBlock key) blockType i
    apply h.frame fun _ _ _ hv => hv
    intro key' lb _ hlb
    have hne : key' ≠ key := by
      rintro rfl
      exact absurd (hlb.symm.trans hn) (by simp)
    refine ⟨lb, ?_, fun q v hq hbyte => ?_⟩
    · rw [mem]
      exact (Function.update_of_ne hne _ _).trans hlb
    · have hother : ∀ i ∈ lb.physicalBlockList, s''.physicalBlocks i = s.physicalBlocks i := fun i hi =>
        hphys i (hs.sound.alloc.listed_ne ht (blocksOf_main hlb) hi)
      rw [byteAt_frame (fun i hi => by rw [Memory.totalDataLen, hother i hi, Memory.totalDataLen])
        (fun i hi o => fileByte_congr (hother i hi) (fun blockType => hdata blockType i) o) hq]
      exact hbyte

theorem Holds.delBlock (h : s.Holds b) (hs : s.Stored sb) {key : Key} {ret : ℤ}
    (hdel : s.delBlock Io.allDone key .main = .ok (ret, s')) : s'.Holds (b.after (.store (.delBlock key), ret)) := by
  obtain ⟨ret', s'', heq, hstep⟩ := delBlock_step hs.sound.alloc Io.allDone key
    (show BlockType.main.side = some .main from rfl)
  obtain ⟨rfl, rfl⟩ : ret' = ret ∧ s'' = s' := by simpa using heq.symm.trans hdel
  cases hstep with
  | missing _ => exact h
  | uncounted e _ lb hb bitMap mem => cases bitMap
  | late e _ lb hb bitMap hat mem => simp [Io.allDone] at hat
  | done _ lb hb bitMap mem disk =>
    have hphys : ∀ i, i ∉ lb.physicalBlockList → s''.physicalBlocks i = s.physicalBlocks i := by
      intro i hi
      rw [mem]
      show (s.toMemory.erased .main key lb).physicalBlocks i = s.physicalBlocks i
      rw [erased_physicalBlocks, if_neg hi]
    have hblocks : ∀ key', key' ≠ key → s''.logicBlocks key' = s.logicBlocks key' := by
      intro key' hne
      rw [mem]
      exact Function.update_of_ne hne _ _
    have hdata : ∀ blockType i, s''.disk.dataOf blockType i = s.disk.dataOf blockType i := by
      intro blockType i
      rw [disk]
      rfl
    have hafter : b.after (.store (.delBlock key), tfsSuccess) = Function.update b key fun _ => none := by
      simp [Written.after]
    rw [hafter]
    apply h.frame
    · intro key' q v hv
      by_cases hkey : key' = key
      · subst hkey
        rw [Function.update_self] at hv
        cases hv
      · rwa [Function.update_of_ne hkey] at hv
    · intro key' lb' hsome hlb'
      have hne : key' ≠ key := by
        rintro rfl
        exact hsome (Function.update_self ..)
      refine ⟨lb', (hblocks key' hne).trans hlb', fun q v hq hbyte => ?_⟩
      have hother : ∀ i ∈ lb'.physicalBlockList, s''.physicalBlocks i = s.physicalBlocks i := by
        intro i hi
        refine hphys i fun hmem => ?_
        -- no physical block is in two logic blocks
        have hsame := hs.sound.alloc.partition.disjoint (.main, key') (.main, key) i
          (listAt_of_some (blocksOf_main hlb') ▸ hi) (listAt_of_some hb ▸ hmem)
        exact hne (Prod.mk.inj hsame).2
      rw [byteAt_frame (fun i hi => by rw [Memory.totalDataLen, hother i hi, Memory.totalDataLen])
        (fun i hi o => fileByte_congr (hother i hi) (fun blockType => hdata blockType i) o) hq]
      exact hbyte

/-- One more physical block: it comes behind the others, and the one before it only learns of it. -/
theorem Holds.extend (h : s.Holds b) (hs : s.Stored sb) {key : Key} {lb : LogicBlock} {last id : ℕ}
    {prev : PhysicalBlock} (hlb : s.logicBlocks key = some lb) (hp : s.physicalBlocks last = some prev)
    (ht : s.normalBitMap.test id = false)
    (mem : s'.toMemory = s.toMemory.withExt .main key lb last id prev (s.superBlock.extendBlock key last))
    (disk : s'.disk = s.extended key last id prev) : s'.Holds b := by
  have hdata : ∀ blockType i, s'.disk.dataOf blockType i = s.disk.dataOf blockType i := by
    intro blockType i
    rw [disk, Manager.extended, dataOf_dumped, dataOf_dumped]
    rfl
  have hphys : ∀ i, i ≠ id → s'.physicalBlocks i = if i = last then some (prev.withNext id) else s.physicalBlocks i := by
    intro i hi
    rw [mem]
    refine (Function.update_of_ne hi _ _).trans ?_
    by_cases hlast : i = last
    · rw [if_pos hlast, hlast]
      exact Function.update_self ..
    · rw [if_neg hlast]
      exact Function.update_of_ne hlast _ _
  have hlen : ∀ i, i ≠ id → s'.toMemory.totalDataLen i = s.toMemory.totalDataLen i := by
    intro i hi
    rw [Memory.totalDataLen, Memory.totalDataLen, hphys i hi]
    by_cases hlast : i = last
    · rw [if_pos hlast, hlast, hp]
      rfl
    · rw [if_neg hlast]
  have hfile : ∀ i, i ≠ id → ∀ o, s'.fileByte (i, o) = s.fileByte (i, o) := by
    intro i hi o
    simp only [fileByte, hphys i hi, hdata]
    by_cases hlast : i = last
    · rw [if_pos hlast, hlast, hp]
      rfl
    · rw [if_neg hlast]
  apply h.frame fun _ _ _ hv => hv
  intro key' lb' _ hlb'
  have hnew : ∀ i ∈ lb'.physicalBlockList, i ≠ id := fun i hi =>
    hs.sound.alloc.listed_ne ht (blocksOf_main hlb') hi
  have hbytes : ∀ q, 0 ≤ q → s'.byteAt lb'.physicalBlockList q = s.byteAt lb'.physicalBlockList q := fun q hq =>
    byteAt_frame (fun i hi => hlen i (hnew i hi)) (fun i hi => hfile i (hnew i hi)) hq
  by_cases hkey : key' = key
  · subst hkey
    obtain rfl : lb = lb' := Option.some.inj (hlb.symm.trans hlb')
    refine ⟨lb.addPhysicBlock id (s.superBlock.extendBlock key' last).totalDataLen, ?_, fun q v hq hbyte => ?_⟩
    · rw [mem]
      exact Function.update_self ..
    · rw [← hbytes q hq] at hbyte
      obtain ⟨p, hloc, hv⟩ := exists_of_byteAt hbyte
      exact (byteAt_of_locate (locate_append hloc [id])).trans hv
  · refine ⟨lb', ?_, fun q v hq hbyte => (hbytes q hq).trans hbyte⟩
    rw [mem]
    exact (Function.update_of_ne hkey _ _).trans hlb'

theorem Holds.extendBlock (h : s.Holds b) (hs : s.Stored sb) (extendSupport : Bool) {key : Key} {size offset : ℤ}
    {retryTimes : ℕ} {ret : ℤ}
    (hext : Manager.extendBlock extendSupport (fun _ => Io.allDone) .main key size offset retryTimes s = .ok (ret, s')) :
    s'.Stored sb ∧ s'.Holds b := by
  have hrule : ∃ ret' s'', Manager.extendBlock extendSupport (fun _ => Io.allDone) .main key size offset retryTimes s =
      .ok (ret', s'') ∧ s''.Stored sb ∧ s''.Holds b := by
    refine extendBlock_rule (fun _ hP => hP.1.sound.alloc) ?_ ⟨hs, h⟩ extendSupport size offset retryTimes
    intro s s' lb last id prev hP hb hlast hp hid ht mem disk
    refine ⟨⟨?_, hP.1.disk.extend hP.1.sound.alloc hb hlast hp hid ht mem disk⟩, hP.2.extend hP.1 hb hp ht mem disk⟩
    rw [mem]
    exact hP.1.sound.withExt hb (List.mem_of_getLast? hlast) hp hid ht
  obtain ⟨ret', s'', heq, hs'', h''⟩ := hrule
  obtain ⟨rfl, rfl⟩ : ret' = ret ∧ s'' = s' := by simpa using heq.symm.trans hext
  exact ⟨hs'', h''⟩

/-- `extend_block` is through only when the block has the room. -/
theorem extendBlock_room {extendSupport : Bool} {io : ℕ → Io} {side : Side} {key : Key} {size offset : ℤ}
    {retryTimes : ℕ}
    (hext : Manager.extendBlock extendSupport io side key size offset retryTimes s = .ok (tfsSuccess, s')) :
    ∃ lb, s'.toMemory.blocksOf side key = some lb ∧ offset + size ≤ lb.availDataSize := by
  induction retryTimes generalizing s with
  | zero => simp [Manager.extendBlock, exitPhysicalBlockNumError, tfsSuccess] at hext
  | succ retryTimes ih =>
    rw [Manager.extendBlock] at hext
    cases hb : s.toMemory.blocksOf side key with
    | none => simp [hb, exitNoLogicBlockError, tfsSuccess] at hext
    | some lb =>
      simp only [hb] at hext
      by_cases hneed : lb.availDataSize < offset + size
      · rw [if_pos hneed] at hext
        split at hext
        · split at hext
          · simp [exitPhysicalBlockNumError, tfsSuccess] at hext
          · split at hext
            · cases hext
            · split at hext
              · next hret =>
                cases hext
                exact absurd rfl hret
              · split at hext
                · cases hext
                · exact ih hext
        · simp [tfsError, tfsSuccess] at hext
      · rw [if_neg hneed] at hext
        cases hext
        exact ⟨lb, hb, by omega⟩

/-- The bytes of a segment take the place of what was there. -/
theorem Holds.wrote (h : s.Holds b) (hs : s.Stored sb) {key : Key} {lb : LogicBlock} (hlb : s.logicBlocks key = some lb)
    {buf : List Byte} {offset : ℤ} (hoffset : 0 ≤ offset) (hwrote : s.Wrote s' lb.physicalBlockList buf offset) :
    s'.Holds (b.after (.store (.writeRawData key offset buf), tfsSuccess)) := by
  have hafter : b.after (.store (.writeRawData key offset buf), tfsSuccess) =
      Function.update b key (Segment.lay (b key) ⟨offset, buf.map some⟩) := by
    simp [Written.after]
  have hmem : s'.toMemory = s.toMemory := hwrote.same.mem
  rw [hafter]
  intro key' q v hv
  by_cases hin : key' = key ∧ Segment.Covers (⟨offset, buf.map some⟩ : Segment (Option Byte)) q
  · obtain ⟨rfl, hcovers⟩ := hin
    have hlow : offset ≤ q := hcovers.1
    have hhigh : q < offset + buf.length := by
      have := hcovers.2
      rwa [List.length_map] at this
    rw [Function.update_self, Segment.lay, if_pos hcovers, List.getD_eq_getElem?_getD, List.getElem?_map] at hv
    have hidx : (q - offset).toNat < buf.length := by omega
    rw [List.getElem?_eq_getElem hidx, Option.map_some, Option.getD_some] at hv
    have hsum : offset + ((q - offset).toNat : ℤ) = q := by omega
    have hbyte := hwrote.inside (q - offset).toNat hidx
    rw [hsum, List.getElem?_eq_getElem hidx, hv] at hbyte
    exact ⟨by omega, lb, by rw [hmem]; exact hlb, hbyte⟩
  · have hold : b key' q = some v := by
      by_cases hkey : key' = key
      · subst hkey
        rwa [Function.update_self, Segment.lay, if_neg fun hc => hin ⟨rfl, hc⟩] at hv
      · rwa [Function.update_of_ne hkey] at hv
    obtain ⟨hq, lb', hlb', hbyte⟩ := h key' q v hold
    refine ⟨hq, lb', by rw [hmem]; exact hlb', ?_⟩
    obtain ⟨⟨id, o⟩, hloc, hfile⟩ := exists_of_byteAt hbyte
    obtain ⟨hid, ho, -⟩ := of_locate hq hloc
    have hloc' : locate s'.toMemory.totalDataLen lb'.physicalBlockList q = some (id, o) := by
      rw [hmem]
      exact hloc
    rw [byteAt_of_locate hloc', hwrote.outside id o ho, hfile]
    intro i hi hilt heq
    -- the write comes to this place only as the same byte of the same block
    have hmem' := (of_locate (by omega) heq).1
    have hsame := hs.sound.alloc.partition.disjoint (.main, key') (.main, key) id
      (listAt_of_some (blocksOf_main hlb') ▸ hid) (listAt_of_some (blocksOf_main hlb) ▸ hmem')
    obtain rfl := (Prod.mk.inj hsame).2
    obtain rfl : lb' = lb := Option.some.inj (hlb'.symm.trans hlb)
    have hqeq := locate_inj (hs.nodup hlb) hq (by omega) hloc heq
    exact hin ⟨rfl, show offset ≤ q by omega, by rw [List.length_map]; show q < offset + _; omega⟩

theorem Holds.writeBlockData (h : s.Holds b) (hs : s.Stored sb) {extendSupport : Bool} {key : Key} {offset : ℤ}
    {buf : List Byte} {ret : ℤ} (hoffset : 0 ≤ offset)
    (hwrite : s.writeBlockData extendSupport key offset buf = .ok (ret, s')) :
    s'.Holds (b.after (.store (.writeRawData key offset buf), ret)) := by
  have hfail : ∀ ret, ret ≠ tfsSuccess → b.after (.store (.writeRawData key offset buf), ret) = b := by
    intro ret hret
    simp [Written.after, hret]
  obtain ⟨ret₁, s₁, heq, -⟩ := hs.extendBlock extendSupport key buf.length offset maxExtendTimes
  obtain ⟨hs₁, h₁⟩ := h.extendBlock hs extendSupport heq
  rw [Manager.writeBlockData, heq] at hwrite
  by_cases hret : ret₁ = tfsSuccess
  · subst hret
    obtain ⟨lb, hlb, hroom⟩ := extendBlock_room heq
    rw [hs₁.avail_eq hlb] at hroom
    obtain ⟨s₂, hseg, hwrote⟩ := writeSegmentData_wrote (hs₁.nodup hlb) buf.length hs₁.backed (hs₁.listed hlb) buf
      hoffset hroom le_rfl
    have hlb' : s₁.logicBlocks key = some lb := hlb
    simp only [ne_eq, not_true_eq_false, if_false, hlb', hseg] at hwrite
    cases hwrite
    exact h₁.wrote hs₁ hlb hoffset hwrote
  · simp only [ne_eq, hret, not_false_eq_true, if_true] at hwrite
    cases hwrite
    rw [hfail ret hret]
    exact h₁

theorem Holds.writeRawData (h : s.Holds b) (hs : s.Stored sb) {extendSupport : Bool} {key : Key} (hkey : key ≠ (0, 0))
    {offset : ℤ} {buf : List Byte} {ret : ℤ} (hoffset : 0 ≤ offset)
    (hwrite : s.writeRawData extendSupport key offset buf = .ok (ret, s')) :
    s'.Holds (b.after (.store (.writeRawData key offset buf), ret)) := by
  rw [Manager.writeRawData] at hwrite
  by_cases hbuf : buf = []
  · rw [if_pos hbuf] at hwrite
    cases hwrite
    have hnone : Segment.lay (b key) ⟨offset, buf.map some⟩ = b key := by
      funext q
      refine if_neg fun hc => ?_
      have hlow : offset ≤ q := hc.1
      have hhigh : q < offset + ((buf.map some).length : ℤ) := hc.2
      rw [hbuf, List.map_nil, List.length_nil] at hhigh
      omega
    have hafter : b.after (.store (.writeRawData key offset buf), tfsSuccess) = b := by
      simp [Written.after, hnone]
    rw [hafter]
    exact h
  · rw [if_neg hbuf] at hwrite
    by_cases hsome : (s.logicBlocks key).isSome = true
    · rw [if_pos hsome] at hwrite
      exact h.writeBlockData hs hoffset hwrite
    · rw [if_neg hsome] at hwrite
      obtain ⟨ret₁, s₁, hnew, hs₁⟩ := hs.newBlock hkey
      have h₁ := h.newBlock hs hnew
      simp only [hnew] at hwrite
      by_cases hret : ret₁ = tfsSuccess
      · rw [if_neg (not_not_intro hret)] at hwrite
        exact h₁.writeBlockData hs₁ hoffset hwrite
      · rw [if_pos hret] at hwrite
        cases hwrite
        exact h₁

end Stored

/-! ## Whole histories -/

section Runs

variable {sb : SuperBlock} {s s' : Manager} {b : Written} {extendSupport : Bool} {extendBlockSize : ℤ}

/-- Every call returns, and a restart comes up with the manager as it was. -/
theorem Stored.calls (hs : s.Stored sb) (extendSupport : Bool) {call : StoreCall} (hcall : call.InRange extendBlockSize) :
    ∃ ret s', s.Calls extendSupport (call, ret) s' ∧ s'.Stored sb := by
  cases call with
  | restart => exact ⟨tfsSuccess, s, .restart (bootstrap_onDisk hs.sound.alloc hs.disk), hs⟩
  | store op =>
    cases op with
    | newBlock key =>
      obtain ⟨ret, s', heq, hs'⟩ := hs.newBlock hcall
      exact ⟨ret, s', .store heq, hs'⟩
    | extendBlock key size offset =>
      obtain ⟨ret, s', heq, hs'⟩ := hs.extendBlock extendSupport key size offset maxExtendTimes
      exact ⟨ret, s', .store heq, hs'⟩
    | delBlock key =>
      obtain ⟨ret, s', heq, hs'⟩ := hs.delBlock key
      exact ⟨ret, s', .store heq, hs'⟩
    | writeRawData key offset buf =>
      obtain ⟨ret, s', heq, hs'⟩ := hs.writeRawData extendSupport hcall.1 offset buf
      exact ⟨ret, s', .store heq, hs'⟩

theorem Calls.functional {call : StoreCall} {ret ret' : ℤ} {s'' : Manager} (h : s.Calls extendSupport (call, ret) s')
    (h' : s.Calls extendSupport (call, ret') s'') : ret = ret' ∧ s' = s'' := by
  cases h with
  | store heq =>
    cases h' with
    | store heq' => simpa using heq.symm.trans heq'
  | restart heq =>
    cases h' with
    | restart heq' => simpa using heq.symm.trans heq'

theorem Stored.step (hs : s.Stored sb) {d : StoreCall × ℤ} (hd : d.1.InRange extendBlockSize)
    (hcall : s.Calls extendSupport d s') : s'.Stored sb := by
  obtain ⟨ret, s'', hcall', hs'⟩ := hs.calls extendSupport hd
  obtain ⟨-, rfl⟩ := hcall.functional hcall'
  exact hs'

theorem Holds.step (h : s.Holds b) (hs : s.Stored sb) {d : StoreCall × ℤ} (hd : d.1.InRange extendBlockSize)
    (hcall : s.Calls extendSupport d s') : s'.Holds (b.after d) := by
  cases hcall with
  | restart heq =>
    have hboot := bootstrap_onDisk hs.sound.alloc hs.disk
    rw [heq] at hboot
    cases hboot
    exact h
  | @store op ret _ heq =>
    cases op with
    | newBlock key => exact h.newBlock hs heq
    | extendBlock key size offset => exact (h.extendBlock hs extendSupport heq).2
    | delBlock key => exact h.delBlock hs heq
    | writeRawData key offset buf => exact h.writeRawData hs hd.1 hd.2.1 heq

/-- A read returns what there is, and each byte of it that has been written is the one written last. -/
theorem Holds.read (h : s.Holds b) (hs : s.Stored sb) (key : Key) {offset : ℤ} (hoffset : 0 ≤ offset) (nbytes : ℕ) :
    ∃ ret buf, s.readRawData key offset nbytes = .ok (ret, buf) ∧
      ∀ (i : ℕ) (v : Byte), i < nbytes → b key (offset + i) = some v → ret = tfsSuccess ∧ buf[i]? = some v := by
  cases hlb : s.logicBlocks key with
  | none =>
    refine ⟨exitNoLogicBlockError, [], by rw [readRawData, hlb], fun i v _ hv => ?_⟩
    obtain ⟨-, lb, hsome, -⟩ := h key _ v hv
    exact absurd (hsome.symm.trans hlb) (by simp)
  | some lb =>
    have havail := hs.avail_eq hlb
    have hpos : ∀ id ∈ lb.physicalBlockList, 0 < s.toMemory.totalDataLen id := fun id hid =>
      hs.backed.totalDataLen_pos (hs.listed hlb id hid)
    -- a byte that was written lies inside the block
    have hknown : ∀ q v, b key q = some v → q < lb.availDataSize ∧ s.byteAt lb.physicalBlockList q = some v := by
      intro q v hv
      obtain ⟨-, lb', hlb', hbyte⟩ := h key q v hv
      obtain rfl : lb = lb' := Option.some.inj (hlb.symm.trans hlb')
      obtain ⟨p, hloc, -⟩ := exists_of_byteAt hbyte
      exact ⟨havail ▸ lt_total_of_locate hpos hloc, hbyte⟩
    rw [readRawData, hlb]
    by_cases hbehind : lb.availDataSize < offset
    · refine ⟨exitFailure, [], if_pos hbehind, fun i v _ hv => ?_⟩
      have := (hknown _ v hv).1
      omega
    · simp only [if_neg hbehind]
      generalize hn : (if lb.availDataSize < offset + nbytes then (lb.availDataSize - offset).toNat else nbytes) = n
      have hroom : offset + n ≤ lb.availDataSize := by
        rw [← hn]
        split <;> omega
      obtain ⟨bytes, hread, hlen, hbytes⟩ := readSegmentData_eq hs.backed (hs.listed hlb) n n hoffset
        (havail ▸ hroom) le_rfl []
      refine ⟨tfsSuccess, [] ++ bytes, hread, fun i v hi hv => ⟨rfl, ?_⟩⟩
      obtain ⟨hlt, hbyte⟩ := hknown _ v hv
      have hin : i < n := by
        rw [← hn]
        split <;> omega
      rw [List.nil_append, ← hbytes i hin, hbyte]

end Runs

end Manager

open Manager

theorem fresh_held {mainBlockCount extendBlockCount : ℕ} {mainBlockSize extendBlockSize : ℤ} (hmain : 0 < mainBlockSize)
    (hext : extendBlockCount = 0 ∨ 0 < extendBlockSize) {s₀ : Manager}
    (hboot : bootstrap (format (SuperBlock.fresh mainBlockCount extendBlockCount mainBlockSize extendBlockSize)) =
      .ok (tfsSuccess, some s₀)) : ∃ sb, s₀.Stored sb ∧ s₀.Holds fun _ _ => none := by
  rw [bootstrap_format rfl] at hboot
  cases hboot
  exact ⟨_, ⟨fresh_sound hmain hext rfl rfl, fresh_onDisk rfl⟩, fun _ _ _ hv => by cases hv⟩

/-- Over every history of a new file system, with restarts between any two calls, a read returns under its key each
byte that was written last there and not deleted since, while its end is an `int32_t` as `read_raw_data` adds it up; no
call aborts, and the disk always loads. -/
theorem store_keeps_bytes (mainBlockCount extendBlockCount : ℕ) (mainBlockSize extendBlockSize : ℤ)
    (hmain : 0 < mainBlockSize) (hext : extendBlockCount = 0 ∨ 0 < extendBlockSize) (extendSupport : Bool)
    {done : List (StoreCall × ℤ)} {s₀ s : Manager}
    (hboot : bootstrap (format (SuperBlock.fresh mainBlockCount extendBlockCount mainBlockSize extendBlockSize)) =
      .ok (tfsSuccess, some s₀))
    (hrun : Reaches (Calls extendSupport) (fun _ d => d.1.InRange extendBlockSize) s₀ done s) :
    (∀ (key : Key) (offset : ℤ) (nbytes : ℕ), 0 ≤ offset → offset + nbytes < 2 ^ 31 →
      ∃ ret buf, s.readRawData key offset nbytes = .ok (ret, buf) ∧
        ∀ (i : ℕ) (v : Byte), i < nbytes → written done key (offset + i) = some v →
          ret = tfsSuccess ∧ buf[i]? = some v) ∧
    ∀ call : StoreCall, call.InRange extendBlockSize → ∃ ret s', s.Calls extendSupport (call, ret) s' := by
  obtain ⟨sb, hstart⟩ := fresh_held hmain hext hboot
  have hinv : s.Stored sb ∧ s.Holds (written ([] ++ done)) := by
    apply hrun.invariant_history (I := fun past s => s.Stored sb ∧ s.Holds (written past))
    · intro past s d s' h hd hcall
      rw [written, List.foldl_append]
      exact ⟨h.1.step hd hcall, h.2.step h.1 hd hcall⟩
    · exact hstart
  obtain ⟨hs, hholds⟩ := hinv
  refine ⟨fun key offset nbytes hoffset _ => hholds.read hs key hoffset nbytes, fun call hcall => ?_⟩
  obtain ⟨ret, s', hcalls, -⟩ := hs.calls extendSupport hcall
  exact ⟨ret, s', hcalls⟩

/-! ### A history -/

def exampleFresh : Manager := .fresh (.fresh 2 1 4 4)

/-- Two blocks, the second one grown by a write; the first one deleted, and its place taken again -/
def exampleOps : List StoreOp :=
  [.newBlock (8, 1), .writeRawData (7, 0) 2 [1, 2, 3], .delBlock (8, 1), .writeRawData (9, 0) 0 [5],
    .writeRawData (7, 0) 3 [6]]

def advance (s : Manager) (op : StoreOp) : Manager :=
  match s.storeCode true op with
  | .ok (_, s') => s'
  | .error _ => s

theorem calls_advance {s : Manager} {op : StoreOp} {ret : ℤ} (h : (s.storeCode true op).map Prod.fst = .ok ret) :
    s.Calls true (.store op, ret) (advance s op) := by
  rw [advance]
  cases heq : s.storeCode true op with
  | error a =>
    rw [heq] at h
    cases h
  | ok r =>
    rw [heq] at h
    cases h
    exact .store heq

theorem example_reaches : Reaches (Calls true) (fun _ d => d.1.InRange 4) exampleFresh
    (exampleOps.map fun op => (.store op, 0)) (exampleOps.foldl advance exampleFresh) := by
  refine .cons (show ((8, 1) : Key) ≠ (0, 0) by decide) (calls_advance rfl) (.cons ?_ (calls_advance rfl) (.cons trivial (calls_advance rfl)
    (.cons ?_ (calls_advance rfl) (.cons ?_ (calls_advance rfl) (.nil _))))) <;>
  · exact ⟨by decide, by decide, by decide⟩

/-- The bytes are read after a restart. -/
theorem store_keeps_bytes_example : ∃ s buf, bootstrap (exampleOps.foldl advance exampleFresh).disk =
      .ok (tfsSuccess, some s) ∧ s.readRawData (7, 0) 2 3 = .ok (tfsSuccess, buf) ∧
    buf[0]? = some 1 ∧ buf[1]? = some 6 ∧ buf[2]? = some 3 := by
  have hfresh : exampleFresh.Stored (.fresh 2 1 4 4) :=
    ⟨fresh_sound (by decide) (.inr (by decide)) rfl rfl, fresh_onDisk rfl⟩
  have hs := example_reaches.invariant (fun _ _ _ hs hd hcall => Stored.step hs hd hcall) hfresh
  have hagain := bootstrap_onDisk hs.sound.alloc hs.disk
  obtain ⟨hread, -⟩ := store_keeps_bytes 2 1 4 4 (by decide) (.inr (by decide)) true (bootstrap_format rfl)
    (example_reaches.append (.cons (show StoreCall.InRange 4 .restart from trivial) (.restart hagain) (.nil _)))
  obtain ⟨ret, buf, hbuf, hbytes⟩ := hread (7, 0) 2 3 (by decide) (by decide)
  obtain ⟨rfl, h0⟩ := hbytes 0 1 (by decide) (by decide)
  exact ⟨_, buf, hagain, hbuf, h0, (hbytes 1 6 (by decide) (by decide)).2, (hbytes 2 3 (by decide) (by decide)).2⟩

end Tefs.DataServer
