import Tefs.NameServer.MemReset
import Tefs.NameServer.MemCreate

/-! # The memory pool and its users -/

namespace Tefs.NameServer.MemPool
open Tefs.Ring
set_option autoImplicit false

/-! ## What the memory says -/

/-- From block to block -/
theorem Pool.blocksFrom_eq {s : Pool} {lo hi n : ℕ} {ps : List Piece} (ht : Tiles lo ps hi)
    (hps : ∀ c ∈ ps, c.Sized s.pool ∧ c.Stored s.pool s.mem ∧ c.IsBlock) (hn : ps.length < n) :
    s.blocksFrom (hi + 8) n (lo + 8) = some (ps.map fun c => c.lo + 8) := by
  induction ps generalizing lo n with
  | nil =>
    obtain ⟨n, rfl⟩ := Nat.exists_eq_succ_of_ne_zero (Nat.ne_of_gt hn)
    obtain rfl : lo = hi := ht
    rw [blocksFrom, if_pos rfl]
    rfl
  | cons c ps ih =>
    obtain ⟨n, rfl⟩ := Nat.exists_eq_succ_of_ne_zero (Nat.ne_of_gt (Nat.zero_lt_of_lt hn))
    obtain ⟨rfl, ht⟩ := ht
    obtain ⟨hsized, hstored, hblock⟩ := hps c List.mem_cons_self
    have hlt : c.lo < hi := by
      have := hsized.pos
      have := ht.le
      simp only [Piece.hi] at *
      omega
    have hnext : s.nextBlkp (c.lo + 8) = c.hi + 8 := by
      rw [nextBlkp, Nat.add_sub_cancel, (hstored.getSize hsized hblock).1, Piece.hi]
      omega
    have hrest := ih ht (fun d hd => hps d (List.mem_cons_of_mem _ hd)) (Nat.lt_of_succ_lt_succ hn)
    rw [blocksFrom, if_neg (by omega), hnext, hrest]
    rfl

namespace Kept

variable {s : Pool} {pages : List Page} {larges : List Piece} {p : Page} {c : Piece} {x : ℕ}

theorem mem_walk_page (h : Kept s pages larges) : x ∈ s.walk s.page ↔ ∃ p ∈ pages, p.start + 16 = x := by
  refine ((h.walk .page).2 x).trans ⟨?_, ?_⟩
  · rintro ⟨c, hc, hlisted⟩
    rcases mem_pieces.mp hc with ⟨p, hp, hcp⟩ | hcl
    · rcases List.mem_append.mp hcp with hframe | hrest
      · simp only [Page.frame, List.mem_cons, List.not_mem_nil, or_false] at hframe
        rcases hframe with rfl | rfl | rfl
        · exact False.elim hlisted
        · exact ⟨p, hp, hlisted.2.symm⟩
        · exact False.elim hlisted
      · rcases (h.wf p hp).kinds c hrest with hkind | hkind <;> simp [Piece.Listed, hkind] at hlisted
    · simp [Piece.Listed, h.large c hcl] at hlisted
  · rintro ⟨p, hp, rfl⟩
    exact ⟨p.block, mem_pieces.mpr (.inl ⟨p, hp, by simp [Page.pieces, Page.frame]⟩), rfl, rfl⟩

/-- The blocks of the page -/
theorem block_mem (h : Kept s pages larges) (hp : p ∈ pages) (hc : c ∈ p.block :: p.rest) :
    c ∈ pieces pages larges ∧ c.IsBlock := by
  rcases List.mem_cons.mp hc with rfl | hc
  · exact ⟨mem_pieces.mpr (.inl ⟨p, hp, by simp [Page.pieces, Page.frame]⟩), .inl rfl⟩
  · exact ⟨mem_pieces.mpr (.inl ⟨p, hp, List.mem_append_right _ hc⟩), (h.wf p hp).isBlock hc⟩

theorem blocks (h : Kept s pages larges) (hp : p ∈ pages) :
    s.mem (p.start + 16 + 16) = p.start ∧ s.mem (p.start + 16 + 24) = p.start + pageSize ∧
      s.blocks (p.start + 16) = some ((p.block :: p.rest).map fun c => c.lo + 8) := by
  obtain ⟨-, -, hstart, hend⟩ := h.stored (h.block_mem hp List.mem_cons_self).1
  refine ⟨hstart, hend, ?_⟩
  have htiles : Tiles (p.start + 8) (p.block :: p.rest) (p.start + 4088) := ⟨rfl, (h.wf p hp).tiles⟩
  have hsized : ∀ c ∈ p.block :: p.rest, c.Sized s.pool := fun c hc => h.sized (h.block_mem hp hc).1
  have hlength := htiles.length_le fun c hc => (hsized c hc).pos
  rw [Pool.blocks, show s.mem (p.start + 16 + 24) = p.start + 4088 + 8 from hend]
  refine Pool.blocksFrom_eq htiles (fun c hc => ?_) (by simp only [pageSize]; omega)
  exact ⟨hsized c hc, h.stored (h.block_mem hp hc).1, (h.block_mem hp hc).2⟩

/-- What the tags of a block say -/
theorem block_tags (h : Kept s pages larges) (hp : p ∈ pages) (hc : c ∈ p.block :: p.rest) :
    get s.mem (Pool.hdrp (c.lo + 8)) = get s.mem (s.ftrp (c.lo + 8)) ∧ s.sizeOf (c.lo + 8) = c.len ∧
      (s.isAllocated (c.lo + 8) ↔ c.kind ≠ .free) := by
  obtain ⟨hmem, hblock⟩ := h.block_mem hp hc
  have hsized := h.sized hmem
  have hstored := h.stored hmem
  obtain ⟨hfirst, hlast⟩ := hstored.tags hblock
  refine ⟨?_, (hstored.getSize hsized hblock).1, ?_⟩
  · rw [Pool.ftrp_eq hsized hstored hblock, hlast]
    exact hfirst
  · rw [Pool.isAllocated, show get s.mem (Pool.hdrp (c.lo + 8)) = c.tag from hfirst]
    exact not_congr (Piece.getAlloc_tag hsized hblock)

end Kept

/-! ## A pool in order is sound -/

namespace Ordered

variable {s : Pool} {live : List (ℕ × ℕ)} {pages : List Page} {larges : List Piece} {b : ℕ × ℕ}

/-- The block of a live pointer -/
theorem exists_user (h : Ordered s live pages larges) (hb : b ∈ live) :
    ∃ c ∈ pieces pages larges, c.isUser ∧ c.ptr = b.1 ∧ b.2 ≤ c.room := by
  obtain ⟨c, hc, hptr⟩ := List.mem_map.mp (h.served.ptrs.mem_iff.mp (List.mem_map_of_mem hb))
  exact ⟨c, (mem_users.mp hc).1, (mem_users.mp hc).2, hptr, h.served.enough b hb c hc hptr⟩

theorem ptrs_nodup (h : Ordered s live pages larges) : (live.map Prod.fst).Nodup := by
  refine h.served.ptrs.nodup_iff.mpr (List.pairwise_map.mpr ?_)
  have hpairs : (users (pieces pages larges)).Pairwise Piece.Apart := h.kept.pairwise.filter _
  refine hpairs.imp_of_mem fun {c d} hc hd hapart heq => ?_
  rw [h.kept.ptr_injective hc hd heq] at hapart
  exact (h.kept.sized (mem_users.mp hd).1).not_apart_self hapart

theorem listed (h : Ordered s live pages larges) {i : ℕ} (hi : i < 8) (bp : ℕ) : bp ∈ s.walk (s.block i) ↔
    getindex (s.sizeOf bp) = i ∧ ¬ s.isAllocated bp ∧
      ∃ page ∈ s.walk s.page, ∃ bs, s.blocks page = some bs ∧ bp ∈ bs := by
  rw [h.kept.mem_walk_block hi]
  constructor
  · rintro ⟨c, hc, hfree, hclass, rfl⟩
    obtain ⟨a, p, b, l₁, l₂, hpages, hrest⟩ := h.kept.exists_page hc (.inr hfree)
    have hp : p ∈ pages := by simp [hpages]
    have hcp : c ∈ p.block :: p.rest := by simp [hrest]
    obtain ⟨-, hsize, halloc⟩ := h.kept.block_tags hp hcp
    rw [hsize, halloc]
    exact ⟨hclass, fun hne => hne hfree, _, h.kept.mem_walk_page.mpr ⟨p, hp, rfl⟩, _, (h.kept.blocks hp).2.2,
      List.mem_map.mpr ⟨c, hcp, rfl⟩⟩
  · rintro ⟨hclass, halloc, page, hpage, bs, hbs, hbp⟩
    obtain ⟨p, hp, rfl⟩ := h.kept.mem_walk_page.mp hpage
    rw [(h.kept.blocks hp).2.2, Option.some.injEq] at hbs
    subst hbs
    obtain ⟨c, hc, rfl⟩ := List.mem_map.mp hbp
    obtain ⟨-, hsize, hiff⟩ := h.kept.block_tags hp hc
    rw [hiff, not_not] at halloc
    exact ⟨c, (h.kept.block_mem hp hc).1, halloc, hsize ▸ hclass, rfl⟩

theorem sound (h : Ordered s live pages larges) : Machine.Sound ⟨s, live⟩ where
  paged page hpage := by
    obtain ⟨p, hp, rfl⟩ := h.kept.mem_walk_page.mp hpage
    obtain ⟨hstart, hend, -⟩ := h.kept.blocks hp
    dsimp only
    rw [hstart, hend]
    exact ⟨rfl, rfl⟩
  tiled page hpage := by
    obtain ⟨p, hp, rfl⟩ := h.kept.mem_walk_page.mp hpage
    refine ⟨_, (h.kept.blocks hp).2.2, fun bp hbp => ?_, ?_⟩
    · obtain ⟨c, hc, rfl⟩ := List.mem_map.mp hbp
      exact (h.kept.block_tags hp hc).1
    · have hsingle : Page.Single (p.block :: p.rest) := by
        rw [← List.singleton_append, single_append]
        refine ⟨.singleton _, (h.kept.wf p hp).single, fun c hc _ _ => .inl ?_⟩
        rw [← Option.some.inj hc]
        exact Kind.noConfusion
      refine (List.isChain_map _).mpr (hsingle.imp_of_mem_imp fun c d hc hd hor => ?_)
      exact hor.imp (h.kept.block_tags hp hc).2.2.mpr (h.kept.block_tags hp hd).2.2.mpr
  listed i hi bp := h.listed hi bp
  apart := by
    refine (List.pairwise_map.mp h.ptrs_nodup).imp_of_mem fun {b b'} hb hb' hne => ?_
    obtain ⟨c, hc, huser, hptr, -⟩ := h.exists_user hb
    obtain ⟨d, hd, huser', hptr', -⟩ := h.exists_user hb'
    have hapart := h.kept.apart_of_ne hc hd fun heq => hne (by rw [← hptr, ← hptr', heq])
    have hin := h.kept.user_bounds hc huser
    have hin' := h.kept.user_bounds hd huser'
    rw [← hptr, ← hptr']
    dsimp only
    rw [h.kept.payload hc huser, h.kept.payload hd huser']
    simp only [Separate, Piece.Apart] at *
    omega
  enough b hb := by
    obtain ⟨c, hc, huser, hptr, hroom⟩ := h.exists_user hb
    dsimp only
    rw [← hptr, h.kept.payload hc huser]
    exact hroom
  inside b hb := by
    obtain ⟨c, hc, huser, hptr, -⟩ := h.exists_user hb
    obtain ⟨k, hk, hlo, hhi⟩ := h.kept.inside hc
    have hin := h.kept.user_bounds hc huser
    refine ⟨k, hk, ?_⟩
    dsimp only
    rw [← hptr, h.kept.payload hc huser]
    omega
  msize := by
    have hperm := (h.served.ptrs.map fun ptr => (s.sizeOf (ptr - 8) : ℤ)).sum_eq
    rw [List.map_map, List.map_map] at hperm
    refine h.counted.msize.trans (Eq.trans ?_ hperm.symm)
    rw [held]
    refine congrArg List.sum (List.map_congr_left fun c hc => ?_)
    have hsize := (h.kept.user (mem_users.mp hc).1 (mem_users.mp hc).2).1
    rw [Function.comp_apply, hsize]
  used := by
    have hnodup : (pages.map fun p => p.start + 16).Nodup :=
      starts_nodup (f := Page.pieces) (fun p => by simp [Page.pieces, Page.frame])
        (List.pairwise_append.mp h.kept.pairwise).1
    have hperm : (s.walk s.page).Perm (pages.map fun p => p.start + 16) := by
      refine (List.perm_ext_iff_of_nodup (h.kept.walk .page).1 hnodup).mpr fun x => ?_
      exact h.kept.mem_walk_page.trans List.mem_map.symm
    have hsum := (hperm.map fun page => (s.sizeOf page + 16 : ℤ)).sum_eq
    rw [List.map_map] at hsum
    refine h.counted.used.trans (congrArg (s.msize + ·) (Eq.trans ?_ hsum.symm))
    rw [overhead]
    refine congrArg List.sum (List.map_congr_left fun p hp => ?_)
    have hsize := (h.kept.block_tags hp (List.mem_cons_self)).2.1
    rw [Function.comp_apply, show s.sizeOf (p.start + 16) = p.own from hsize]

end Ordered

/-! ## Steps -/

/-- The bytes of a user are not those of the pool. -/
theorem Piece.user_beside {pool a : ℕ} {c : Piece} (huser : c.isUser) (hs : c.Sized pool) (hlo : c.ptr ≤ a)
    (hhi : a + 8 ≤ c.ptr + c.room) : ¬ c.Cell a ∧ ∀ x, c.Spot pool x → a ≠ x ∧ a ≠ x + 8 := by
  obtain ⟨lo, len, kind⟩ := c
  simp only [isUser, decide_eq_true_eq] at huser
  rcases huser with rfl | rfl <;>
    simp only [Sized, ptr, room, Cell, hi, Spot, Listed, Main, reduceCtorEq, if_true, if_false] at * <;> grind

namespace Ordered

variable {s : Pool} {live : List (ℕ × ℕ)} {pages : List Page} {larges : List Piece} {b : ℕ × ℕ} {a : ℕ}

theorem write (h : Ordered s live pages larges) (val : ℕ) (ha : 8 ∣ a) (hb : b ∈ live) (hlo : b.1 ≤ a)
    (hhi : a < b.1 + s.payload b.1) : Ordered (s.store a val) live pages larges := by
  obtain ⟨c, hc, huser, hptr, -⟩ := h.exists_user hb
  have hin := h.kept.user_bounds hc huser
  rw [← hptr] at hlo hhi
  rw [h.kept.payload hc huser] at hhi
  have hend : a + 8 ≤ c.ptr + c.room := by omega
  obtain ⟨hcell, hspot⟩ := Piece.user_beside huser (h.kept.sized hc) hlo hend
  have hrep := h.kept.rep.write (v := val) hc (by omega) (by omega) hcell hspot
  exact ⟨⟨hrep, h.kept.wf, h.kept.large, h.kept.chunks, h.kept.pos, h.kept.initPages, h.kept.main⟩,
    ⟨h.counted.msize, h.counted.used⟩, h.served⟩

end Ordered

namespace Machine

variable {s : Machine} {alloc : Allocator} {pages : List Page} {larges : List Piece} {size : ℕ}

theorem step_ordered (alloc : Allocator) {a : Action} (h : Ordered s.pool s.live pages larges) (hvalid : a.Valid s) (hwraps : ¬ a.Wraps) :
    ∃ s' pages' larges', s.step alloc a = some s' ∧ Ordered s'.pool s'.live pages' larges' := by
  cases a with
  | malloc size =>
    obtain ⟨ptr, pool, pages', larges', heq, hordered⟩ := h.malloc alloc hvalid.1 (Nat.lt_of_not_le hwraps)
    exact ⟨⟨pool, (ptr, size) :: s.live⟩, pages', larges', by rw [step, heq], hordered⟩
  | free ptr =>
    obtain ⟨b, hb, rfl⟩ := hvalid
    obtain ⟨pool, pages', larges', heq, hordered⟩ := h.free (List.mem_map_of_mem hb)
    exact ⟨⟨pool, s.live.filter fun b' => b'.1 ≠ b.1⟩, pages', larges', by rw [step, heq]; rfl, hordered⟩
  | reset =>
    obtain ⟨pages', hordered⟩ := h.kept.reset
    exact ⟨⟨s.pool.reset, []⟩, pages', [], rfl, hordered⟩
  | write a val =>
    obtain ⟨halign, b, hb, hlo, hhi⟩ := hvalid
    exact ⟨⟨s.pool.store a val, s.live⟩, pages, larges, rfl, h.write val halign hb hlo hhi⟩

/-- Where the size wraps, the block has no bytes for the user. -/
theorem step_wraps (alloc : Allocator) (hvalid : (Action.malloc size).Valid s) (hwraps : (Action.malloc size).Wraps) :
    ∃ s', s.step alloc (.malloc size) = some s' ∧ ¬ s'.Sound := by
  obtain ⟨hpos, hlt⟩ := hvalid
  have hwraps : 2 ^ 32 ≤ align8 size + 48 := hwraps
  have hzero : (align8 size + (sizeofLarge + 16)) % 2 ^ 32 = 0 := by
    simp only [sizeofLarge, align8] at hwraps ⊢
    omega
  have hlarge : minLargeSize < size := by
    simp only [minLargeSize, align8] at hwraps ⊢
    omega
  have hsmall : ¬ size ≤ 16 := by
    simp only [minLargeSize] at hlarge
    omega
  let bp := alloc.addr s.pool.calls s.pool.chunks 0
  let s₁ : Pool := { ((s.pool.mallocInternal alloc 0).2.store (bp + 16) bp).store (bp + 24) 0 with
    used := s.pool.used + (0 : ℕ), msize := s.pool.msize + (0 : ℕ) }
  let pool := ((s₁.queueInsertTail s.pool.large bp).put (bp + 32) (pack 0 (allocated ||| large))).store (bp + 40)
    s.pool.pool
  have hmalloc : s.pool.malloc alloc size = (some (bp + 48), pool) := by
    rw [Pool.malloc, if_neg hpos.ne', if_neg hsmall, if_pos hlarge, Pool.mallocLarge, hzero]
    rfl
  have htag : get pool.mem (bp + 32) = pack 0 (allocated ||| large) :=
    (Pool.get_store_of_ne (by omega)).trans (Pool.get_put (by decide))
  refine ⟨⟨pool, (bp + 48, size) :: s.live⟩, by rw [step, hmalloc], fun hsound => ?_⟩
  have henough := hsound.enough (bp + 48, size) List.mem_cons_self
  have hroom : pool.payload (bp + 48) = 0 := by
    have hhdrp : Pool.hdrp (bp + 48 - 8) = bp + 32 := by
      rw [Pool.hdrp]
      omega
    rw [Pool.payload, Pool.sizeOf, hhdrp, htag]
    decide
  dsimp only at henough
  omega

theorem SoundRun.sound {as : List Action} (h : SoundRun alloc s as) : s.Sound := by
  cases as with
  | nil => exact h
  | cons a as => exact h.1

theorem run_sound_iff {as : List Action} (h : Ordered s.pool s.live pages larges) (hvalid : ValidRun alloc s as) :
    SoundRun alloc s as ↔ ∀ a ∈ as, ¬ a.Wraps := by
  induction as generalizing s pages larges with
  | nil => exact iff_of_true h.sound fun a ha => absurd ha List.not_mem_nil
  | cons a as ih =>
    obtain ⟨hvalid, hrest⟩ := hvalid
    by_cases hwraps : a.Wraps
    · refine iff_of_false ?_ fun hnone => hnone a List.mem_cons_self hwraps
      rintro ⟨-, s', hstep, hrun⟩
      cases a with
      | malloc size =>
        obtain ⟨s'', hstep', hunsound⟩ := step_wraps alloc hvalid hwraps
        obtain rfl := Option.some.inj (hstep.symm.trans hstep')
        exact hunsound hrun.sound
      | free ptr => exact hwraps
      | reset => exact hwraps
      | write a val => exact hwraps
    · obtain ⟨s', pages', larges', hstep, hordered⟩ := step_ordered alloc h hvalid hwraps
      have hih := ih hordered (hrest s' hstep)
      rw [List.forall_mem_cons]
      constructor
      · rintro ⟨-, s'', hstep', hrun⟩
        obtain rfl := Option.some.inj (hstep.symm.trans hstep')
        exact ⟨hwraps, hih.mp hrun⟩
      · rintro ⟨-, hnone⟩
        exact ⟨h.sound, s', hstep, hih.mpr hnone⟩

end Machine

/-- A pool of any number of pages is in order as long as no size wraps. -/
theorem memory_pool_sound_iff (alloc : Allocator) (mem : ℕ → ℕ) {n : ℕ} (hn : 0 < n) :
    ∃ pool, Pool.create alloc mem n = some pool ∧
      ∀ as, Machine.ValidRun alloc ⟨pool, []⟩ as → (Machine.SoundRun alloc ⟨pool, []⟩ as ↔ ∀ a ∈ as, ¬ a.Wraps) := by
  obtain ⟨pool, pages, hcreate, hordered⟩ := create_ordered alloc mem hn
  exact ⟨pool, hcreate, fun as hvalid => Machine.run_sound_iff hordered hvalid⟩

theorem add_le_foldr_max {chunks : List (ℕ × ℕ)} {c : ℕ × ℕ} (hc : c ∈ chunks) :
    c.1 + c.2 ≤ chunks.foldr (fun c m => max (c.1 + c.2) m) 0 := by
  induction chunks with
  | nil => exact absurd hc List.not_mem_nil
  | cons d chunks ih =>
    rcases List.mem_cons.mp hc with rfl | hc
    · exact le_max_left _ _
    · exact (ih hc).trans (le_max_right _ _)

/-- An allocator that goes on behind all that is allocated -/
def upward : Allocator where
  addr _ chunks _ := 8 * (chunks.foldr (fun c m => max (c.1 + c.2) m) 0 + 1)
  pos _ _ _ := Nat.mul_pos (by decide) (Nat.succ_pos _)
  aligned _ _ _ := Nat.dvd_mul_right _ _
  fresh n chunks size c hc := by
    have := add_le_foldr_max hc
    exact .inr (by omega)

/-- A block that is taken and given back, a large one, and a reset -/
theorem four_steps_sound : 0 < 1 ∧ ∃ pool ptr, Pool.create upward (fun _ => 0) 1 = some pool ∧
    Machine.SoundRun upward ⟨pool, []⟩ [.malloc 100, .free ptr, .malloc 4000, .reset] := by
  obtain ⟨pool, hcreate, hsound⟩ := memory_pool_sound_iff upward (fun _ => 0) (n := 1) (by decide)
  obtain ⟨pool', pages, hcreate', hordered⟩ := create_ordered upward (fun _ => 0) (n := 1) (by decide)
  obtain rfl := Option.some.inj (hcreate'.symm.trans hcreate)
  obtain ⟨ptr, s, _, _, hmalloc, -⟩ := hordered.malloc upward (by decide : 0 < 100) (by decide)
  have hstep : Machine.step upward ⟨pool', []⟩ (.malloc 100) = some ⟨s, [(ptr, 100)]⟩ := by rw [Machine.step, hmalloc]
  have hvalid : Machine.ValidRun upward ⟨pool', []⟩ [.malloc 100, .free ptr, .malloc 4000, .reset] := by
    refine ⟨by simp [Action.Valid], fun s' hs' => ?_⟩
    obtain rfl := Option.some.inj (hstep.symm.trans hs')
    exact ⟨⟨_, List.mem_cons_self, rfl⟩, fun _ _ => ⟨by simp [Action.Valid], fun _ _ => ⟨trivial, fun _ _ => trivial⟩⟩⟩
  refine ⟨by decide, pool', ptr, hcreate, (hsound _ hvalid).mpr ?_⟩
  simp [Action.Wraps, align8]

/-- The size of the block with its header wraps to zero. -/
theorem wrapped_size_unsound : ∃ pool, Pool.create upward (fun _ => 0) 1 = some pool ∧
    Machine.ValidRun upward ⟨pool, []⟩ [.malloc (2 ^ 32 - 49)] ∧
      ¬ Machine.SoundRun upward ⟨pool, []⟩ [.malloc (2 ^ 32 - 49)] := by
  obtain ⟨pool, pages, hcreate, hordered⟩ := create_ordered upward (fun _ => 0) (n := 1) (by decide)
  have hvalid : Machine.ValidRun upward ⟨pool, []⟩ [.malloc (2 ^ 32 - 49)] :=
    ⟨by simp [Action.Valid], fun _ _ => trivial⟩
  refine ⟨pool, hcreate, hvalid, ?_⟩
  rw [Machine.run_sound_iff hordered hvalid]
  simp [Action.Wraps, align8]

end Tefs.NameServer.MemPool
