import Mathlib.Data.Finset.Sort
import Tefs.DataServer.Queries

/-! # The expiry of compact blocks

Source: `expire_compact_blk` of `diskmanager/src/blockfile_manager.cpp`, and `batch_remove_block` of
`diskmanager/src/data_management.cpp`, which takes a list of blocks apart.

The inner loop has no increment: `cit` stays at the first chunk it is set to.
-/

namespace Tefs.DataServer
set_option autoImplicit false

/-! ## The loops -/

/-- Between two steps: `files` is from `mit` to the end, `chunks` from `cit` to the end of the chunks of its first, and
`none` in the outer loop. -/
structure Expiry where
  store : Store
  files : List (BitVec 64 × StdMap (BitVec 32) BlockPtr)
  chunks : Option (List (BitVec 32 × BlockPtr))
  eraseBlocks : Finset (BitVec 64)

/-- `(cit->second) && (cit->second->get_last_update() < time)` -/
def BlockPtr.expired (time : ℤ) : BlockPtr → Bool
  | none => false
  | some lb => lb.lastUpdate < time

def Expiry.visit (time : ℤ) (fileid : BitVec 64) (chunk : BitVec 32 × BlockPtr) (e : Expiry) : Expiry :=
  if chunk.2.expired time then
    { e with eraseBlocks := insert (chunk.1.setWidth 64) (insert fileid e.eraseBlocks) }
  else e

/-- One test of a loop with what follows it; `none` at the end of the outer loop -/
def Expiry.step (time : ℤ) (e : Expiry) : Option Expiry :=
  match e.files, e.chunks with
  | [], _ => none
  | file :: _, none => if time < 0 then none else some { e with chunks := some file.2.entries }
  | _ :: files, some [] => some { e with files := files, chunks := none }
  | file :: _, some (chunk :: _) => some (e.visit time file.1 chunk)

/-- `none` where `fuel` steps do not reach the end -/
def Expiry.run (time : ℤ) : ℕ → Expiry → Option Expiry
  | 0, _ => none
  | fuel + 1, e =>
    match e.step time with
    | none => some e
    | some e' => run time fuel e'

def Store.expireCompactBlk (s : Store) (time : ℤ) (fuel : ℕ) : Option Expiry :=
  Expiry.run time fuel ⟨s, s.compactLogicBlocks.entries, none, ∅⟩

/-- The elements of a `std::set<uint64_t>`, in their order -/
def setElements (set : Finset (BitVec 64)) : List (BitVec 64) :=
  ((set.image BitVec.toNat).sort (· ≤ ·)).map (BitVec.ofNat 64)

/-- The blocks `batch_remove_block` deletes; it runs over the end of a list of odd length. -/
def removedBlocks : List (BitVec 64) → Option (List Key)
  | [] => some []
  | [_] => none
  | fileid :: chunkid :: rest => (removedBlocks rest).map ((fileid, chunkid.setWidth 32) :: ·)

/-- The blocks whose last update is before `time` -/
def Store.expiredBlocks (s : Store) (time : ℤ) : List Key :=
  s.compactLogicBlocks.entries.flatMap fun file =>
    (file.2.entries.filter fun chunk => chunk.2.expired time).map fun chunk => (file.1, chunk.1)

/-- The call returns, the maps are as they were, and the set holds the expired blocks. -/
def Store.ExpiresExactly (s : Store) (time : ℤ) : Prop :=
  ∃ fuel e, s.expireCompactBlk time fuel = some e ∧ e.store = s ∧
    ∃ blocks, removedBlocks (setElements e.eraseBlocks) = some blocks ∧ blocks.Perm (s.expiredBlocks time)

/-! ## Files with chunks, and files without -/

section

variable {s : Store} {time : ℤ}

/-- `cit` is at a chunk, and the next step leaves it there. -/
def Expiry.Stuck (e : Expiry) : Prop := e.files ≠ [] ∧ ∃ chunk chunks, e.chunks = some (chunk :: chunks)

theorem Expiry.visit_chunks (time : ℤ) (fileid : BitVec 64) (chunk : BitVec 32 × BlockPtr) (e : Expiry) :
    (e.visit time fileid chunk).chunks = e.chunks ∧ (e.visit time fileid chunk).files = e.files := by
  unfold Expiry.visit
  split <;> exact ⟨rfl, rfl⟩

theorem Expiry.Stuck.step {e : Expiry} (h : e.Stuck) (time : ℤ) : ∃ e', e.step time = some e' ∧ e'.Stuck := by
  obtain ⟨store, files, chunks, eraseBlocks⟩ := e
  obtain ⟨hfiles, chunk, rest, hchunks⟩ := h
  cases hchunks
  cases files with
  | nil => exact absurd rfl hfiles
  | cons file files =>
    have hsame := Expiry.visit_chunks time file.1 chunk ⟨store, file :: files, some (chunk :: rest), eraseBlocks⟩
    refine ⟨_, rfl, ?_, chunk, rest, hsame.1⟩
    rw [hsame.2]
    exact hfiles

theorem Expiry.Stuck.run {e : Expiry} (h : e.Stuck) (fuel : ℕ) : e.run time fuel = none := by
  induction fuel generalizing e with
  | zero => rfl
  | succ fuel ih =>
    obtain ⟨e', hstep, h'⟩ := h.step time
    rw [Expiry.run, hstep]
    exact ih h'

theorem step_outer (htime : 0 ≤ time) (s : Store) (file : BitVec 64 × StdMap (BitVec 32) BlockPtr)
    (files : List (BitVec 64 × StdMap (BitVec 32) BlockPtr)) (eraseBlocks : Finset (BitVec 64)) :
    Expiry.step time ⟨s, file :: files, none, eraseBlocks⟩ =
      some ⟨s, file :: files, some file.2.entries, eraseBlocks⟩ :=
  if_neg (Int.not_lt.mpr htime)

/-- The outer loop comes to the first file with a chunk and stays there. -/
theorem run_chunk (htime : 0 ≤ time) (s : Store) (eraseBlocks : Finset (BitVec 64))
    {files : List (BitVec 64 × StdMap (BitVec 32) BlockPtr)} (h : ∃ file ∈ files, file.2.entries ≠ []) (fuel : ℕ) :
    Expiry.run time fuel ⟨s, files, none, eraseBlocks⟩ = none := by
  induction files generalizing fuel with
  | nil => simp at h
  | cons file files ih =>
    cases fuel with
    | zero => rfl
    | succ fuel =>
      rw [Expiry.run, step_outer htime]
      cases hchunks : file.2.entries with
      | cons chunk chunks =>
        have hstuck : Expiry.Stuck ⟨s, file :: files, some (chunk :: chunks), eraseBlocks⟩ :=
          ⟨List.cons_ne_nil _ _, chunk, chunks, rfl⟩
        exact hstuck.run fuel
      | nil =>
        cases fuel with
        | zero => rfl
        | succ fuel =>
          apply ih
          obtain ⟨file', hmem, hne⟩ := h
          rcases List.mem_cons.mp hmem with rfl | hmem
          · exact absurd hchunks hne
          · exact ⟨file', hmem, hne⟩

/-- Over files without chunks the loops do nothing. -/
theorem run_no_chunk (htime : 0 ≤ time) (s : Store) (eraseBlocks : Finset (BitVec 64))
    {files : List (BitVec 64 × StdMap (BitVec 32) BlockPtr)} (h : ∀ file ∈ files, file.2.entries = []) :
    Expiry.run time (2 * files.length + 1) ⟨s, files, none, eraseBlocks⟩ = some ⟨s, [], none, eraseBlocks⟩ := by
  induction files with
  | nil => rfl
  | cons file files ih =>
    have hfile := h file List.mem_cons_self
    have hrest : ∀ file ∈ files, file.2.entries = [] := fun file hmem => h file (List.mem_cons_of_mem _ hmem)
    rw [List.length_cons, Nat.mul_succ, Expiry.run, step_outer htime, hfile]
    exact ih hrest

theorem setElements_empty : setElements ∅ = [] := by
  simp [setElements]

theorem expiredBlocks_no_chunk (h : ∀ file ∈ s.compactLogicBlocks.entries, file.2.entries = []) :
    s.expiredBlocks time = [] := by
  rw [Store.expiredBlocks, List.flatMap_eq_nil_iff]
  intro file hmem
  rw [h file hmem]
  rfl

/-- With one chunk anywhere the call never returns, expired or not. -/
theorem expiresExactly_iff_no_chunk (htime : 0 ≤ time) :
    s.ExpiresExactly time ↔ ∀ file ∈ s.compactLogicBlocks.entries, file.2.entries = [] := by
  constructor
  · rintro ⟨fuel, e, hrun, -⟩
    by_contra hchunk
    push Not at hchunk
    rw [Store.expireCompactBlk, run_chunk htime s ∅ hchunk fuel] at hrun
    cases hrun
  · intro h
    refine ⟨_, _, run_no_chunk htime s ∅ h, rfl, [], ?_, ?_⟩
    · rw [setElements_empty, removedBlocks]
    · rw [expiredBlocks_no_chunk h]

end

/-- A file is left whose chunks are gone. -/
theorem expiresExactly_no_chunk :
    Store.ExpiresExactly { oneMainBlock with compactLogicBlocks := ⟨[(7, .empty)], by simp⟩ } 5 :=
  (expiresExactly_iff_no_chunk (by decide)).mpr (by simp [StdMap.empty])

/-- One compact block, which is not even expired at time 0: no number of steps ends the call. -/
theorem one_compact_block_never_ends :
    (∀ fuel, Store.expireCompactBlk { oneMainBlock with compactLogicBlocks := oneBlock } 0 fuel = none) ∧
      ¬ Store.ExpiresExactly { oneMainBlock with compactLogicBlocks := oneBlock } 0 := by
  have hnever : ∀ fuel, Store.expireCompactBlk { oneMainBlock with compactLogicBlocks := oneBlock } 0 fuel = none :=
    run_chunk le_rfl _ ∅ ⟨_, List.mem_singleton_self _, List.cons_ne_nil _ _⟩
  refine ⟨hnever, ?_⟩
  rintro ⟨fuel, e, hrun, -⟩
  rw [hnever fuel] at hrun
  cases hrun

end Tefs.DataServer
