import Tefs.DataServer.DataHandle
import Tefs.Lib.Runs

/-! # Two writes to a block that does not exist yet

Source: `write_raw_data` and `new_single_block` of `diskmanager/src/data_management.cpp`.

A call looks its block up, makes it if there is none, looks it up again and writes through the pointer it got.
`new_single_block` looks a third time and first deletes what it finds. The calls take turns; an operation of the
manager and a write of a logic block are one turn each. A pointer is the number of the block it was made as, so
one that outlived its block is told apart; what a write through such a pointer, or through `NULL`, does is
undefined, and here it returns anything and writes nothing.
-/

namespace Tefs.DataServer.ConcurrentWrite
open Runs
set_option autoImplicit false

/-! ## The calls -/

inductive Caller
  | first
  | second
  deriving DecidableEq, Repr

def Caller.other : Caller → Caller
  | .first => .second
  | .second => .first

structure RawWrite where
  offset : ℤ
  buf : List Byte
  deriving DecidableEq, Repr

/-- What a call does next; `aborted` is a failed assertion. -/
inductive Stage
  | lookup
  | check
  | delete
  | create
  | relookup
  | write (block : Option ℕ)
  | returned (ret : ℤ)
  | aborted
  deriving DecidableEq, Repr

/-- `made` is the number of blocks made under the key. -/
structure Race where
  manager : Manager
  made : ℕ := 0
  stage : Caller → Stage := fun _ => .lookup

/-- A turn of `who`: which of its disk writes fail, and what comes of a write through a bad pointer -/
structure Turn where
  who : Caller
  io : Io := Io.allDone
  failure : Option IoFailure := none
  stray : ℤ := tfsSuccess

namespace Race

/-- `get_logic_block` -/
def found (s : Race) (key : Key) : Option ℕ := if (s.manager.logicBlocks key).isSome then some s.made else none

def goto (s : Race) (who : Caller) (stage : Stage) : Race :=
  { s with stage := Function.update s.stage who stage }

def Live (s : Race) (key : Key) (block : Option ℕ) : Prop := block.isSome = true ∧ block = s.found key

instance (s : Race) (key : Key) (block : Option ℕ) : Decidable (s.Live key block) := inferInstanceAs (Decidable (_ ∧ _))

def step (extendSupport : Bool) (key : Key) (w : Caller → RawWrite) (s : Race) (t : Turn) : Race :=
  match s.stage t.who with
  | .lookup =>
    if (w t.who).buf = [] then s.goto t.who (.returned tfsSuccess)
    else if (s.found key).isSome then s.goto t.who (.write (s.found key))
    else s.goto t.who .check
  | .check => s.goto t.who (if (s.found key).isSome then .delete else .create)
  | .delete =>
    match s.manager.delBlock t.io key .main with
    | .error _ => s.goto t.who .aborted
    | .ok (ret, m) =>
      { s with manager := m }.goto t.who (if ret = tfsSuccess then .create else .returned tfsError)
  | .create =>
    match s.manager.newBlock t.io key .main with
    | .error _ => s.goto t.who .aborted
    | .ok (ret, m) =>
      if ret = tfsSuccess then { s with manager := m, made := s.made + 1 }.goto t.who .relookup
      else { s with manager := m }.goto t.who (.returned tfsError)
  | .relookup => s.goto t.who (.write (s.found key))
  | .write block =>
    if s.Live key block then
      match t.failure with
      | some e => { s with manager := { s.manager with disk := e.disk } }.goto t.who (.returned e.code)
      | none =>
        match s.manager.writeBlockData extendSupport key (w t.who).offset (w t.who).buf with
        | .error _ => s.goto t.who .aborted
        | .ok (ret, m) => { s with manager := m }.goto t.who (.returned ret)
    else s.goto t.who (.returned t.stray)
  | .returned _ => s
  | .aborted => s

/-- The pointer of a write is good. -/
def Safe (s : Race) (key : Key) : Stage → Prop
  | .write block => s.Live key block
  | _ => True

instance (s : Race) (key : Key) : ∀ stage, Decidable (s.Safe key stage)
  | .write block => inferInstanceAs (Decidable (s.Live key block))
  | .lookup | .check | .delete | .create | .relookup | .returned _ | .aborted => .isTrue trivial

/-- A block is written through a pointer that is still good. -/
def Allowed (key : Key) (s : Race) (t : Turn) : Prop := s.Safe key (s.stage t.who)

instance (key : Key) (s : Race) (t : Turn) : Decidable (Allowed key s t) :=
  inferInstanceAs (Decidable (s.Safe key (s.stage t.who)))

end Race

/-! ## A block of one file -/

def freshBlock (key : Key) (id : ℕ) (size : ℤ) : LogicBlock := (LogicBlock.new key).addPhysicBlock id size

section OneFile

variable {s : Manager} {key : Key} {id : ℕ} {pb : PhysicalBlock}

theorem choosePhysicBlock_one {m : Memory} (hpb : m.physicalBlocks id = some pb) {offset len : ℤ}
    (hlen : 0 < len) (hfit : offset + len ≤ pb.totalDataLen) :
    m.choosePhysicBlock offset len 0 [id] = some (id, offset, len) := by
  have htotal : m.totalDataLen id = pb.totalDataLen := by
    rw [Memory.totalDataLen, hpb]
  rw [Memory.choosePhysicBlock, htotal]
  simp only [Int.zero_add, Int.sub_zero]
  rw [if_pos (by omega), if_neg (by omega)]

theorem writeSegmentData_one (hpb : s.physicalBlocks id = some pb) (htype : pb.blockType = .main) {offset : ℤ}
    {buf : List Byte} (hfit : offset + buf.length ≤ pb.totalDataLen) (hbuf : buf ≠ []) :
    Manager.writeSegmentData (fun _ => none) [id] buf.length s buf offset = .ok (tfsSuccess,
      { s with disk := s.disk.updateFile .main id fun f => f.overwrite offset.toNat buf }) := by
  obtain ⟨b, bs, rfl⟩ := List.exists_cons_of_ne_nil hbuf
  have hlength : (b :: bs).length = bs.length + 1 := List.length_cons
  have hchoose : s.toMemory.choosePhysicBlock offset (b :: bs).length 0 [id] =
      some (id, offset, ((b :: bs).length : ℤ)) :=
    choosePhysicBlock_one hpb (by omega) hfit
  have hwrite : s.pwriteData none id (b :: bs) offset = (tfsSuccess,
      { s with disk := s.disk.updateFile .main id fun f => f.overwrite offset.toNat (b :: bs) }) := by
    rw [Manager.pwriteData, hpb]
    simp only [if_neg (show ¬ pb.totalDataLen < offset + (b :: bs).length by omega), htype]
    rfl
  rw [hlength, Manager.writeSegmentData, hchoose]
  · simp only [Int.toNat_natCast, List.take_length, List.drop_length, hwrite, ne_eq, not_true_eq_false, if_false]
    cases bs <;> rfl
  · exact hbuf

theorem writeBlockData_one (extendSupport : Bool) (hlb : s.logicBlocks key = some (freshBlock key id pb.totalDataLen))
    (hpb : s.physicalBlocks id = some pb) (htype : pb.blockType = .main) {offset : ℤ} {buf : List Byte}
    (hfit : offset + buf.length ≤ pb.totalDataLen) (hbuf : buf ≠ []) :
    s.writeBlockData extendSupport key offset buf = .ok (tfsSuccess,
      { s with disk := s.disk.updateFile .main id fun f => f.overwrite offset.toNat buf }) := by
  have hblocks : s.toMemory.blocksOf .main key = some (freshBlock key id pb.totalDataLen) := hlb
  have havail : (freshBlock key id pb.totalDataLen).availDataSize = pb.totalDataLen := Int.zero_add _
  have hextend : Manager.extendBlock extendSupport (fun _ => Io.allDone) .main key buf.length offset maxExtendTimes s =
      .ok (tfsSuccess, s) := by
    rw [maxExtendTimes, Manager.extendBlock]
    simp only [hblocks, havail, if_neg (show ¬ pb.totalDataLen < offset + buf.length by omega)]
  rw [Manager.writeBlockData, hextend]
  simp only [ne_eq, not_true_eq_false, if_false, hlb]
  exact writeSegmentData_one hpb htype hfit hbuf

theorem readRawData_one (hlb : s.logicBlocks key = some (freshBlock key id pb.totalDataLen))
    (hpb : s.physicalBlocks id = some pb) (htype : pb.blockType = .main) {f : BlockFile}
    (hfile : s.disk.mainFile id = some f) {offset : ℤ} {n : ℕ} (hfit : offset + n ≤ pb.totalDataLen) :
    s.readRawData key offset n = .ok (tfsSuccess, (List.range n).map fun i => f.data (offset.toNat + i)) := by
  have havail : (freshBlock key id pb.totalDataLen).availDataSize = pb.totalDataLen := Int.zero_add _
  rw [Manager.readRawData, hlb]
  simp only [havail, if_neg (show ¬ pb.totalDataLen < offset by omega),
    if_neg (show ¬ pb.totalDataLen < offset + n by omega)]
  have hlist : (freshBlock key id pb.totalDataLen).physicalBlockList = [id] := rfl
  rw [hlist]
  cases n with
  | zero => rfl
  | succ n =>
    have hread : s.preadData id (n + 1) offset =
        (tfsSuccess, (List.range (n + 1)).map fun i => f.data (offset.toNat + i)) := by
      rw [Manager.preadData, hpb]
      simp only [if_neg (show ¬ pb.totalDataLen < offset + (n + 1 : ℕ) by omega), htype, if_true, hfile]
    rw [Manager.readSegmentData, choosePhysicBlock_one hpb (by omega) hfit]
    · simp only [Int.toNat_natCast, hread, ne_eq, not_true_eq_false, if_false, Nat.sub_self, List.nil_append]
      cases n <;> rfl
    · exact Nat.succ_ne_zero n

end OneFile

/-! ## The bytes of a write -/

def RawWrite.In (w : RawWrite) (f : BlockFile) : Prop :=
  (List.range w.buf.length).map (fun i => f.data (w.offset.toNat + i)) = w.buf

theorem RawWrite.in_overwrite (w : RawWrite) (f : BlockFile) : w.In (f.overwrite w.offset.toNat w.buf) := by
  apply List.ext_getElem?
  intro i
  by_cases hi : i < w.buf.length
  · rw [List.getElem?_map, List.getElem?_range hi, List.getElem?_eq_getElem hi, Option.map_some]
    simp only [BlockFile.overwrite]
    rw [if_pos (by omega), Nat.add_sub_cancel_left, List.getD_eq_getElem?_getD,
      List.getElem?_eq_getElem hi, Option.getD_some]
  · rw [List.getElem?_eq_none (by simpa using hi), List.getElem?_eq_none (by omega)]

/-- The ranges of two writes to one block -/
structure Disjoint (w w' : RawWrite) : Prop where
  nonneg : 0 ≤ w.offset
  nonneg' : 0 ≤ w'.offset
  apart : w.offset + w.buf.length ≤ w'.offset ∨ w'.offset + w'.buf.length ≤ w.offset

theorem RawWrite.In.overwrite {w w' : RawWrite} {f : BlockFile} (h : w.In f) (hw : Disjoint w w') :
    w.In (f.overwrite w'.offset.toNat w'.buf) := by
  rw [RawWrite.In] at h
  rw [RawWrite.In]
  refine Eq.trans (List.map_congr_left fun i hi => ?_) h
  rw [List.mem_range] at hi
  have := hw.nonneg
  have := hw.nonneg'
  have := hw.apart
  simp only [BlockFile.overwrite]
  rw [if_neg (by omega)]

/-! ## The manager between two turns -/

structure Absent (m : Manager) (key : Key) : Prop where
  block : m.logicBlocks key = none
  unused : ∀ i pb, m.physicalBlocks i = some pb → pb.blockPrefix.key ≠ key

/-- One logic block and one main physical block exist for the key. -/
structure Present (m : Manager) (key : Key) (id : ℕ) : Prop where
  block : m.logicBlocks key = some (freshBlock key id m.superBlock.mainBlockSize)
  phys : m.physicalBlocks id = some (m.superBlock.mainBlock key)
  only : ∀ i pb, m.physicalBlocks i = some pb → (pb.blockPrefix.key = key ↔ i = id)

/-- Nothing but the block of the key comes and goes, and it always comes at the same place: the bitmaps are those
of `m₀`, so the first free block is. -/
structure Steady (m₀ : Manager) (key : Key) (m : Manager) : Prop where
  start : m₀.toMemory.AllocInv
  alloc : m.toMemory.AllocInv
  count : m.superBlock.mainBlockCount = m₀.superBlock.mainBlockCount
  size : m.superBlock.mainBlockSize = m₀.superBlock.mainBlockSize
  error : m.errorBitMap = m₀.errorBitMap
  place : (Absent m key ∧ m.normalBitMap = m₀.normalBitMap) ∨
    ∃ id, m₀.toMemory.findAvailBlock .main = .ok (some id) ∧ Present m key id ∧
      m.normalBitMap = m₀.normalBitMap.set id

theorem findFrom_congr {m m' : Memory} (hn : m'.normalBitMap = m.normalBitMap) (he : m'.errorBitMap = m.errorBitMap)
    (i count : ℕ) : m'.findFrom i count = m.findFrom i count := by
  induction count generalizing i with
  | zero => rfl
  | succ count ih => simp only [Memory.findFrom, hn, he, ih]

section Steady

variable {m₀ m m' : Manager} {key : Key}

theorem Steady.find_eq (h : Steady m₀ key m) (hn : m.normalBitMap = m₀.normalBitMap) :
    m.toMemory.findAvailBlock .main = m₀.toMemory.findAvailBlock .main := by
  simp only [Memory.findAvailBlock, reduceCtorEq, if_false, h.count, findFrom_congr hn h.error]

theorem Present.ne_none {id : ℕ} (h : Present m key id) : m.logicBlocks key ≠ none := by
  rw [h.block]
  exact Option.some_ne_none _

theorem Steady.absent (h : Steady m₀ key m) (hnone : m.logicBlocks key = none) :
    Absent m key ∧ m.normalBitMap = m₀.normalBitMap :=
  h.place.resolve_right fun ⟨_, _, hpresent, _⟩ => hpresent.ne_none hnone

theorem Steady.present (h : Steady m₀ key m) (hsome : m.logicBlocks key ≠ none) :
    ∃ id, m₀.toMemory.findAvailBlock .main = .ok (some id) ∧ Present m key id ∧
      m.normalBitMap = m₀.normalBitMap.set id :=
  h.place.resolve_left fun ⟨habsent, _⟩ => hsome habsent.block

/-- The block is made where it was before, if it was. -/
theorem Steady.newBlock (h : Steady m₀ key m) (io : Io) {ret : ℤ} (hnew : m.newBlock io key .main = .ok (ret, m'))
    (hret : ret = tfsSuccess) :
    Steady m₀ key m' ∧ m'.logicBlocks key ≠ none ∧ ∃ id, m'.disk.mainFile =
      Function.update m.disk.mainFile id ((m.disk.mainFile id).map fun f =>
        { f with blockPrefix := (m.superBlock.mainBlock key).blockPrefix }) := by
  obtain ⟨ret', s', heq, hstep⟩ := newBlock_step h.alloc io key .main
  rw [hnew] at heq
  cases heq
  cases hstep with
  | exist _ => exact absurd hret (by decide)
  | exhaust _ _ => exact absurd hret (by decide)
  | undone e _ id hn hf hat mem => exact absurd hret e.code_ne
  | miscounted e _ id hn hf dump bitMap hat mem => exact absurd hret e.code_ne
  | done id _ hn hf dump bitMap super flush mem disk =>
    obtain ⟨habsent, hbits⟩ := h.absent hn
    obtain ⟨o, ho, hspec⟩ := findAvailBlock_ok h.alloc.normal_items h.alloc.error_items .main
    rw [hf] at ho
    cases ho
    obtain ⟨hid, ht, -⟩ := hspec id rfl
    have hsuper : m'.superBlock = m.superBlock.addMain := congrArg Memory.superBlock mem
    have hphys : m'.physicalBlocks = Function.update m.physicalBlocks id (some (m.superBlock.mainBlock key)) :=
      congrArg Memory.physicalBlocks mem
    have hblock : m'.logicBlocks key = some (freshBlock key id m.superBlock.mainBlockSize) := by
      rw [show m'.logicBlocks = _ from congrArg Memory.logicBlocks mem]
      exact Function.update_self key _ _
    have hpresent : Present m' key id := by
      refine ⟨?_, ?_, fun i pb hpb => ?_⟩
      · rw [hblock, hsuper]
        rfl
      · rw [hphys, Function.update_self, hsuper]
        rfl
      · rw [hphys] at hpb
        by_cases hi : i = id
        · rw [hi, Function.update_self] at hpb
          cases hpb
          exact iff_of_true rfl hi
        · rw [Function.update_of_ne hi] at hpb
          exact iff_of_false (habsent.unused i pb hpb) hi
    refine ⟨⟨h.start, ?_, ?_, ?_, ?_, Or.inr ⟨id, ?_, hpresent, ?_⟩⟩, hpresent.ne_none, id, ?_⟩
    · rw [mem]
      exact h.alloc.withMain hid ht hn rfl
    · rw [hsuper]
      exact h.count
    · rw [hsuper]
      exact h.size
    · exact (congrArg Memory.errorBitMap mem).trans h.error
    · rw [← h.find_eq hbits, hf]
    · rw [← hbits]
      exact congrArg Memory.normalBitMap mem
    · rw [disk]
      rfl

theorem Steady.delBlock (h : Steady m₀ key m) (io : Io) {ret : ℤ} (hdel : m.delBlock io key .main = .ok (ret, m'))
    (hret : ret = tfsSuccess) : Steady m₀ key m' ∧ m'.logicBlocks key = none ∧ m'.disk.mainFile = m.disk.mainFile := by
  obtain ⟨ret', s', heq, hstep⟩ := delBlock_step h.alloc io key (show BlockType.main.side = some .main from rfl)
  rw [hdel] at heq
  cases heq
  cases hstep with
  | missing _ => exact absurd hret (by decide)
  | uncounted e _ lb hb bitMap mem => exact absurd hret e.code_ne
  | late e _ lb hb bitMap hat mem => exact absurd hret e.code_ne
  | done _ lb hb bitMap mem disk =>
    have hsome : m.logicBlocks key = some lb := hb
    obtain ⟨id, hfind, hpresent, hbits⟩ := h.present (by rw [hsome]; exact Option.some_ne_none lb)
    have hlb : lb = freshBlock key id m.superBlock.mainBlockSize := by
      rw [hpresent.block] at hsome
      exact (Option.some.inj hsome).symm
    have hlist : lb.physicalBlockList = [id] := by
      rw [hlb]
      rfl
    have hgone : m'.logicBlocks key = none := by
      rw [show m'.logicBlocks = _ from congrArg Memory.logicBlocks mem]
      exact Function.update_self key _ _
    have hphys : ∀ i, m'.physicalBlocks i = if i ∈ [id] then none else m.physicalBlocks i := by
      intro i
      have herased : (m.toMemory.erased .main key lb).physicalBlocks i = _ := erased_physicalBlocks i
      rw [← hlist, mem]
      exact herased
    have hback : m'.normalBitMap = m₀.normalBitMap := by
      have hm : m'.normalBitMap = (m.normalBitMap).resetAll lb.physicalBlockList := congrArg Memory.normalBitMap mem
      obtain ⟨o, ho, hspec⟩ := findAvailBlock_ok h.start.normal_items h.start.error_items .main
      rw [hfind] at ho
      cases ho
      obtain ⟨hid, ht, -⟩ := hspec id rfl
      rw [hm, hlist, hbits]
      exact BitMap.reset_set (h.start.normal_items ▸ hid.lt) ht
    refine ⟨⟨h.start, ?_, ?_, ?_, ?_, Or.inl ⟨⟨hgone, fun i pb hpb => ?_⟩, hback⟩⟩, hgone, ?_⟩
    · rw [mem]
      exact h.alloc.without hb
    · exact (congrArg (fun x => x.superBlock.mainBlockCount) mem).trans h.count
    · exact (congrArg (fun x => x.superBlock.mainBlockSize) mem).trans h.size
    · exact (congrArg Memory.errorBitMap mem).trans h.error
    · rw [hphys] at hpb
      split at hpb
      · cases hpb
      · rename_i hi
        exact fun hkey => hi (List.mem_singleton.2 ((hpresent.only i pb hpb).1 hkey))
    · rw [disk]

/-- A write changes the bytes of the block's file only. -/
theorem Steady.write (h : Steady m₀ key m) (extendSupport : Bool) (hsome : m.logicBlocks key ≠ none) {w : RawWrite}
    (hfit : w.offset + w.buf.length ≤ m₀.superBlock.mainBlockSize) (hbuf : w.buf ≠ []) :
    ∃ id m', m₀.toMemory.findAvailBlock .main = .ok (some id) ∧
      m.writeBlockData extendSupport key w.offset w.buf = .ok (tfsSuccess, m') ∧ Steady m₀ key m' ∧
      m'.logicBlocks key ≠ none ∧ m'.disk.mainFile = Function.update m.disk.mainFile id
        ((m.disk.mainFile id).map fun f => f.overwrite w.offset.toNat w.buf) := by
  obtain ⟨id, hfind, hpresent, hbits⟩ := h.present hsome
  rw [← h.size] at hfit
  refine ⟨id, _, hfind, writeBlockData_one extendSupport hpresent.block hpresent.phys rfl hfit hbuf, ?_, hsome, rfl⟩
  exact ⟨h.start, h.alloc, h.count, h.size, h.error,
    Or.inr ⟨id, hfind, ⟨hpresent.block, hpresent.phys, hpresent.only⟩, hbits⟩⟩

end Steady

/-! ## Runs -/

/-- The writes of two calls to one new block -/
structure Apart (size : ℤ) (w : Caller → RawWrite) : Prop where
  fits : ∀ who, (w who).offset + (w who).buf.length ≤ size
  disjoint : ∀ who, Disjoint (w who) (w who.other)

section Runs

variable (m₀ : Manager) (key : Key) (w : Caller → RawWrite)

/-- The bytes of a call that is over are in the file, also while the block is gone. Only a call that is about to
make the block anew leaves it so. -/
structure Good (s : Race) : Prop where
  steady : Steady m₀ key s.manager
  files : ∀ id, m₀.toMemory.findAvailBlock .main = .ok (some id) → ∃ f, s.manager.disk.mainFile id = some f ∧
    ∀ who, s.stage who = .returned tfsSuccess → (w who).In f
  gone : s.manager.logicBlocks key = none → ∀ who, s.stage who = .returned tfsSuccess → (w who).buf ≠ [] →
    s.stage who.other = .create
  busy : ∀ who, (w who).buf = [] → s.stage who = .lookup ∨ s.stage who = .returned tfsSuccess

def Failed (s : Race) : Prop := ∃ who ret, s.stage who = .returned ret ∧ ret ≠ tfsSuccess

variable {m₀ key w} {s : Race}

theorem Caller.other_other (who : Caller) : who.other.other = who := by cases who <;> rfl

theorem Caller.eq_or_other (who who' : Caller) : who' = who ∨ who' = who.other := by
  cases who <;> cases who' <;> simp [Caller.other]

theorem Caller.other_ne (who : Caller) : who.other ≠ who := by cases who <;> simp [Caller.other]

theorem goto_self (s : Race) (who : Caller) (stage : Stage) : (s.goto who stage).stage who = stage := by
  simp only [Race.goto, Function.update_self]

theorem goto_of_ne (s : Race) {who who' : Caller} (stage : Stage) (h : who' ≠ who) :
    (s.goto who stage).stage who' = s.stage who' := by
  simp only [Race.goto, Function.update_of_ne h]

theorem goto_other (s : Race) (who : Caller) (stage : Stage) : (s.goto who stage).stage who.other = s.stage who.other :=
  goto_of_ne s stage who.other_ne

/-- A call goes on, with the manager as its turn left it. -/
theorem Good.goes_on (h : Good m₀ key w s) {s' : Race} {who : Caller} {stage : Stage}
    (hsteady : Steady m₀ key s'.manager) (hstage : s'.stage = Function.update s.stage who stage)
    (hfiles : ∀ id f, s.manager.disk.mainFile id = some f → ∃ f', s'.manager.disk.mainFile id = some f' ∧
      f'.data = f.data)
    (hnot : stage ≠ .returned tfsSuccess) (hbuf : (w who).buf ≠ [])
    (hgone : s'.manager.logicBlocks key = none → s.stage who.other = .returned tfsSuccess →
      (w who.other).buf ≠ [] → stage = .create) : Good m₀ key w s' := by
  have hself : s'.stage who = stage := by rw [hstage, Function.update_self]
  have hother : s'.stage who.other = s.stage who.other := by rw [hstage, Function.update_of_ne who.other_ne]
  refine ⟨hsteady, fun id hid => ?_, fun hnone who' hdone hne => ?_, fun who' hempty => ?_⟩
  · obtain ⟨f, hf, hin⟩ := h.files id hid
    obtain ⟨f', hf', hdata⟩ := hfiles id f hf
    refine ⟨f', hf', fun who' hdone => ?_⟩
    obtain rfl | rfl := who.eq_or_other who'
    · exact absurd (hself.symm.trans hdone) hnot
    · rw [RawWrite.In, hdata]
      exact hin _ (hother.symm.trans hdone)
  · obtain rfl | rfl := who.eq_or_other who'
    · exact absurd (hself.symm.trans hdone) hnot
    · rw [Caller.other_other, hself]
      exact hgone hnone (hother.symm.trans hdone) hne
  · obtain rfl | rfl := who.eq_or_other who'
    · exact absurd hempty hbuf
    · rw [hother]
      exact h.busy _ hempty

theorem same_files (s : Race) : ∀ id f, s.manager.disk.mainFile id = some f →
    ∃ f', s.manager.disk.mainFile id = some f' ∧ f'.data = f.data := fun _ f hf => ⟨f, hf, rfl⟩

/-- A call with nothing to write returns at once. -/
theorem Good.nothing (h : Good m₀ key w s) {who : Caller} (hempty : (w who).buf = []) :
    Good m₀ key w (s.goto who (.returned tfsSuccess)) := by
  refine ⟨h.steady, fun id hid => ?_, fun hnone who' hdone hne => ?_, fun who' hempty' => ?_⟩
  · obtain ⟨f, hf, hin⟩ := h.files id hid
    refine ⟨f, hf, fun who' hdone => ?_⟩
    obtain rfl | rfl := who.eq_or_other who'
    · rw [RawWrite.In, hempty]
      rfl
    · exact hin _ ((goto_other s who _).symm.trans hdone)
  · obtain rfl | rfl := who.eq_or_other who'
    · exact absurd hempty hne
    · have hcreate := h.gone hnone who.other ((goto_other s who _).symm.trans hdone) hne
      rw [Caller.other_other] at hcreate
      obtain hlookup | hreturned := h.busy who hempty
      · rw [hlookup] at hcreate
        cases hcreate
      · rw [hreturned] at hcreate
        cases hcreate
  · obtain rfl | rfl := who.eq_or_other who'
    · exact Or.inr (goto_self s who' _)
    · rw [goto_other]
      exact h.busy _ hempty'

/-- A write through a good pointer -/
theorem Good.writes (h : Good m₀ key w s) (hw : Apart m₀.superBlock.mainBlockSize w) (extendSupport : Bool) {who : Caller}
    (hsome : s.manager.logicBlocks key ≠ none) (hbuf : (w who).buf ≠ []) :
    ∃ m', s.manager.writeBlockData extendSupport key (w who).offset (w who).buf = .ok (tfsSuccess, m') ∧
      Good m₀ key w ({ s with manager := m' }.goto who (.returned tfsSuccess)) := by
  obtain ⟨id, m', hfind, hwrite, hsteady, hstays, hdisk⟩ := h.steady.write extendSupport hsome (hw.fits who) hbuf
  refine ⟨m', hwrite, hsteady, fun id' hid' => ?_, fun hnone => absurd hnone hstays, fun who' hempty => ?_⟩
  · rw [hfind] at hid'
    cases hid'
    obtain ⟨f, hf, hin⟩ := h.files id hfind
    refine ⟨f.overwrite (w who).offset.toNat (w who).buf, ?_, fun who' hdone => ?_⟩
    · show m'.disk.mainFile id = _
      rw [hdisk, Function.update_self, hf, Option.map_some]
    · obtain rfl | rfl := who.eq_or_other who'
      · exact (w who').in_overwrite f
      · have hdisjoint := hw.disjoint who.other
        rw [Caller.other_other] at hdisjoint
        exact (hin _ ((goto_other _ who _).symm.trans hdone)).overwrite hdisjoint
  · obtain rfl | rfl := who.eq_or_other who'
    · exact Or.inr (goto_self _ who' _)
    · rw [goto_other]
      exact h.busy _ hempty

theorem found_isSome (s : Race) (key : Key) : (s.found key).isSome = true ↔ s.manager.logicBlocks key ≠ none := by
  rw [Race.found]
  cases s.manager.logicBlocks key <;> simp

theorem failed_goto (s : Race) (who : Caller) {ret : ℤ} (h : ret ≠ tfsSuccess) : Failed (s.goto who (.returned ret)) :=
  ⟨who, ret, goto_self s who _, h⟩

theorem step_of_ne (s : Race) (extendSupport : Bool) {t : Turn} {who : Caller} (h : who ≠ t.who) :
    (s.step extendSupport key w t).stage who = s.stage who := by
  rw [Race.step]
  split
  · split
    · exact goto_of_ne s _ h
    · split <;> exact goto_of_ne s _ h
  · exact goto_of_ne s _ h
  · split
    · exact goto_of_ne s _ h
    · exact goto_of_ne { s with manager := _ } _ h
  · split
    · exact goto_of_ne s _ h
    · split
      · exact goto_of_ne { s with manager := _, made := _ } _ h
      · exact goto_of_ne { s with manager := _ } _ h
  · exact goto_of_ne s _ h
  · split
    · split
      · exact goto_of_ne { s with manager := _ } _ h
      · split
        · exact goto_of_ne s _ h
        · exact goto_of_ne { s with manager := _ } _ h
    · exact goto_of_ne s _ h
  · rfl
  · rfl

theorem Failed.step (h : Failed s) (extendSupport : Bool) (t : Turn) : Failed (s.step extendSupport key w t) := by
  obtain ⟨who, ret, hstage, hret⟩ := h
  refine ⟨who, ret, ?_, hret⟩
  by_cases hwho : who = t.who
  · rw [Race.step, ← hwho, hstage]
    exact hstage
  · rw [step_of_ne s extendSupport hwho, hstage]

theorem Good.step (h : Good m₀ key w s) (hw : Apart m₀.superBlock.mainBlockSize w) (extendSupport : Bool) (t : Turn)
    (hallowed : s.Safe key (s.stage t.who)) :
    Failed (s.step extendSupport key w t) ∨ Good m₀ key w (s.step extendSupport key w t) := by
  -- while the block is gone, a call that is over waits for the other to make it
  have hgone : ∀ stage, s.stage t.who ≠ .create → s.manager.logicBlocks key = none →
      s.stage t.who.other = .returned tfsSuccess → (w t.who.other).buf ≠ [] → stage = Stage.create := by
    intro stage hnot hnone hdone hne
    have hcreate := h.gone hnone t.who.other hdone hne
    rw [Caller.other_other] at hcreate
    exact absurd hcreate hnot
  have hbuf : s.stage t.who ≠ .lookup → s.stage t.who ≠ .returned tfsSuccess → (w t.who).buf ≠ [] :=
    fun hl hr hempty => (h.busy t.who hempty).elim hl hr
  rw [Race.step]
  split
  · rename_i hstage
    split
    · exact Or.inr (h.nothing ‹_›)
    · rename_i hne
      split
      · exact Or.inr (h.goes_on h.steady rfl (same_files s) (by simp) hne (hgone _ (by simp [hstage])))
      · exact Or.inr (h.goes_on h.steady rfl (same_files s) (by simp) hne (hgone _ (by simp [hstage])))
  · rename_i hstage
    refine Or.inr (h.goes_on h.steady rfl (same_files s) ?_ (hbuf (by simp [hstage]) (by simp [hstage]))
      (hgone _ (by simp [hstage])))
    split <;> simp
  · rename_i hstage
    obtain ⟨ret, m', hdel, -⟩ := delBlock_step h.steady.alloc t.io key (rfl : BlockType.main.side = some .main)
    rw [hdel]
    simp only
    by_cases hret : ret = tfsSuccess
    · obtain ⟨hsteady, -, hdisk⟩ := h.steady.delBlock t.io hdel hret
      rw [if_pos hret]
      refine Or.inr (h.goes_on hsteady rfl (fun id f hf => ⟨f, ?_, rfl⟩) (by simp)
        (hbuf (by simp [hstage]) (by simp [hstage])) fun _ _ _ => rfl)
      show m'.disk.mainFile id = some f
      rw [hdisk, hf]
    · rw [if_neg hret]
      exact Or.inl (failed_goto _ t.who (by decide))
  · rename_i hstage
    obtain ⟨ret, m', hnew, -⟩ := newBlock_step h.steady.alloc t.io key .main
    rw [hnew]
    simp only
    by_cases hret : ret = tfsSuccess
    · obtain ⟨hsteady, hstays, id, hdisk⟩ := h.steady.newBlock t.io hnew hret
      rw [if_pos hret]
      refine Or.inr (h.goes_on hsteady rfl (fun id' f hf => ?_) (by simp)
        (hbuf (by simp [hstage]) (by simp [hstage])) fun hnone => absurd hnone hstays)
      show ∃ f', m'.disk.mainFile id' = some f' ∧ f'.data = f.data
      rw [hdisk]
      by_cases hid : id' = id
      · rw [hid, Function.update_self, ← hid, hf, Option.map_some]
        exact ⟨_, rfl, rfl⟩
      · rw [Function.update_of_ne hid]
        exact ⟨f, hf, rfl⟩
    · rw [if_neg hret]
      exact Or.inl (failed_goto _ t.who (by decide))
  · rename_i hstage
    exact Or.inr (h.goes_on h.steady rfl (same_files s) (by simp) (hbuf (by simp [hstage]) (by simp [hstage]))
      (hgone _ (by simp [hstage])))
  · rename_i block hstage
    have hlive : s.Live key block := by
      rw [hstage] at hallowed
      exact hallowed
    have hsome : s.manager.logicBlocks key ≠ none := by
      rw [← found_isSome, ← hlive.2]
      exact hlive.1
    rw [if_pos hlive]
    split
    · rename_i e _
      exact Or.inl (failed_goto _ t.who e.code_ne)
    · obtain ⟨m', hwrite, hgood⟩ := h.writes hw extendSupport hsome (hbuf (by simp [hstage]) (by simp [hstage]))
      rw [hwrite]
      exact Or.inr hgood
  · exact Or.inr h
  · exact Or.inr h

/-- The key is not there, and the files of the main blocks are. -/
structure Start (m₀ : Manager) (key : Key) : Prop where
  alloc : m₀.toMemory.AllocInv
  files : ∀ id, m₀.superBlock.isMain id → (m₀.disk.mainFile id).isSome = true
  absent : Absent m₀ key

def Race.start (m₀ : Manager) : Race := { manager := m₀ }

theorem Good.start (h : Start m₀ key) : Good m₀ key w (.start m₀) where
  steady := ⟨h.alloc, h.alloc, rfl, rfl, rfl, Or.inl ⟨h.absent, rfl⟩⟩
  files id hid := by
    obtain ⟨o, ho, hspec⟩ := findAvailBlock_ok h.alloc.normal_items h.alloc.error_items .main
    rw [hid] at ho
    cases ho
    obtain ⟨f, hf⟩ := Option.isSome_iff_exists.1 (h.files id (hspec id rfl).1)
    exact ⟨f, hf, fun who hdone => by cases hdone⟩
  gone _ _ hdone := by cases hdone
  busy _ _ := Or.inl rfl

/-- The block is there once, with the bytes of both writes. -/
structure Survived (m : Manager) (key : Key) (w : Caller → RawWrite) : Prop where
  one : ∃ id, Present m key id
  bytes : ∀ who, m.readRawData key (w who).offset (w who).buf.length = .ok (tfsSuccess, (w who).buf)

theorem Good.survived (h : Good m₀ key w s) (hw : Apart m₀.superBlock.mainBlockSize w) (hne : ∃ who, (w who).buf ≠ [])
    (hdone : ∀ who, s.stage who = .returned tfsSuccess) : Survived s.manager key w := by
  have hsome : s.manager.logicBlocks key ≠ none := by
    intro hnone
    obtain ⟨who, hbuf⟩ := hne
    have hcreate := h.gone hnone who (hdone who) hbuf
    rw [hdone] at hcreate
    cases hcreate
  obtain ⟨id, hfind, hpresent, -⟩ := h.steady.present hsome
  obtain ⟨f, hf, hin⟩ := h.files id hfind
  refine ⟨⟨id, hpresent⟩, fun who => ?_⟩
  have hfit := hw.fits who
  rw [← h.steady.size] at hfit
  rw [readRawData_one hpresent.block hpresent.phys rfl hf hfit, hin who (hdone who)]

end Runs

/-- In every order of the turns in which no block is written through a pointer that is not good any more, two
successful calls leave one block with the bytes of both. -/
theorem both_survive (extendSupport : Bool) (m₀ : Manager) (key : Key) (w : Caller → RawWrite) (hstart : Start m₀ key)
    (hw : Apart m₀.superBlock.mainBlockSize w) (hne : ∃ who, (w who).buf ≠ []) (turns : List Turn)
    (hallowed : allAllowed (Race.step extendSupport key w) (Race.Allowed key) (.start m₀) turns)
    (hdone : ∀ who, (turns.foldl (Race.step extendSupport key w) (.start m₀)).stage who = .returned tfsSuccess) :
    Survived (turns.foldl (Race.step extendSupport key w) (.start m₀)).manager key w := by
  have hrun := reaches_of_allAllowed _ _ _ _ hallowed
  have hinv : Failed (turns.foldl (Race.step extendSupport key w) (.start m₀)) ∨
      Good m₀ key w (turns.foldl (Race.step extendSupport key w) (.start m₀)) := by
    refine hrun.invariant (I := fun s => Failed s ∨ Good m₀ key w s) (fun s t s' h hok hstep => ?_)
      (Or.inr (Good.start hstart))
    rw [← show s.step extendSupport key w t = s' from hstep]
    obtain hfailed | hgood := h
    · exact Or.inl (hfailed.step extendSupport t)
    · exact hgood.step hw extendSupport t hok
  obtain ⟨who, ret, hstage, hret⟩ | hgood := hinv
  · rw [hdone who] at hstage
    cases hstage
    exact absurd rfl hret
  · exact hgood.survived hw hne hdone

/-! ## Two orders -/

def twoBytes : Caller → RawWrite
  | .first => ⟨0, [7]⟩
  | .second => ⟨1, [8]⟩

theorem twoBytes_apart : Apart 4 twoBytes where
  fits who := by cases who <;> decide
  disjoint who := by cases who <;> exact ⟨by decide, by decide, by decide⟩

/-- One main block of four bytes -/
def smallDisk : Manager := .fresh (.fresh 1 0 4 0)

theorem smallDisk_start : Start smallDisk (5, 0) where
  alloc := (fresh_sound (by decide) (Or.inl rfl) rfl rfl).alloc
  files id h := by
    have hrange : 1 ≤ id ∧ id ≤ (SuperBlock.fresh 1 0 4 0).mainBlockCount := h
    show (if _ then _ else _ : Option BlockFile).isSome = true
    rw [if_pos hrange]
    rfl
  absent := ⟨rfl, fun i pb h => by cases h⟩

/-- The second call finds nothing, waits until the first is done, and then deletes its block. -/
def lateDelete : List Turn :=
  [⟨.second, Io.allDone, none, 0⟩] ++ List.replicate 5 ⟨.first, Io.allDone, none, 0⟩ ++
    List.replicate 5 ⟨.second, Io.allDone, none, 0⟩

theorem both_survive_late_delete :
    Survived (lateDelete.foldl (Race.step false (5, 0) twoBytes) (.start smallDisk)).manager (5, 0) twoBytes :=
  both_survive false smallDisk (5, 0) twoBytes smallDisk_start twoBytes_apart ⟨.first, by decide⟩ lateDelete
    (by decide) (fun who => by cases who <;> decide)

/-- The second call deletes the block while the first holds a pointer to it. -/
def earlyDelete : List Turn :=
  [⟨.second, Io.allDone, none, 0⟩] ++ List.replicate 4 ⟨.first, Io.allDone, none, 0⟩ ++
    List.replicate 5 ⟨.second, Io.allDone, none, 0⟩ ++ [⟨.first, Io.allDone, none, 0⟩]

/-- Both calls return success, and the byte of the first is not there. -/
theorem early_delete_loses_a_write :
    (∀ who, (earlyDelete.foldl (Race.step false (5, 0) twoBytes) (.start smallDisk)).stage who =
      .returned tfsSuccess) ∧
    ¬ Survived (earlyDelete.foldl (Race.step false (5, 0) twoBytes) (.start smallDisk)).manager (5, 0) twoBytes := by
  refine ⟨fun who => by cases who <;> decide, fun h => ?_⟩
  have hread : (earlyDelete.foldl (Race.step false (5, 0) twoBytes) (.start smallDisk)).manager.readRawData (5, 0) 0 1 =
      .ok (tfsSuccess, [0]) := by rfl
  have hbyte := (h.bytes .first).symm.trans hread
  cases hbyte

end Tefs.DataServer.ConcurrentWrite
