import Tefs.NameServer.MemPages

/-! # Allocation from the memory pool -/

namespace Tefs.NameServer.MemPool
open Tefs.Ring
set_option autoImplicit false

/-- The pool is in no other piece than its own. -/
theorem Rep.pool_outside {pool : ℕ} {mem : ℕ → ℕ} {loose ps : List Piece} {c : Piece} (h : Rep pool mem loose ps)
    (hc : c ∈ loose ++ ps) (hkind : c.kind ≠ .own) : pool < c.lo ∨ c.hi ≤ pool := by
  obtain ⟨d, hd, hmain⟩ := h.main
  have hne : d ≠ c := by
    rintro rfl
    exact hkind hmain.1
  have hsized := h.sized d hd
  obtain ⟨lo, len, kind⟩ := d
  obtain ⟨hkind', hpool⟩ := hmain
  cases hkind'
  obtain ⟨-, -, -, -, -, hlen⟩ := hsized
  rcases h.apart_of_ne hd hc hne with hapart | hapart
  · left
    have := hlen hpool
    simp only [Piece.hi] at *
    omega
  · right
    dsimp only at *
    omega

/-- No node is in a piece without spots. -/
theorem Rep.node_outside {pool y : ℕ} {mem : ℕ → ℕ} {loose ps : List Piece} {c : Piece} {lists : Queue → List ℕ}
    (h : Rep pool mem loose ps) (hlists : ∀ q x, x ∈ lists q ↔ ∃ c ∈ ps, c.Listed q x) (hc : c ∈ loose ++ ps)
    (hspot : ∀ x, ¬ c.Spot pool x) (hy : y ∈ Family.nodes (head pool) lists) : y + 16 ≤ c.lo ∨ c.hi ≤ y := by
  obtain ⟨d, hd, hdy⟩ := h.spot hlists hy
  have hne : d ≠ c := by
    rintro rfl
    exact hspot y hdy
  have hin := (h.sized d hd).spot hdy
  rcases h.apart_of_ne hd hc hne with hapart | hapart
  · omega
  · omega

namespace Piece

variable {pool lo len : ℕ}

theorem sized_fence {flags : ℕ} (hlo : 8 ∣ lo) (hflags : flags < 8) : Sized pool ⟨lo, 8, .fence flags⟩ :=
  ⟨hlo, (by decide : 8 ∣ 8), (by decide : 8 < 2 ^ 32), rfl, hflags⟩

theorem sized_raw (hlo : 8 ∣ lo) (hlen : 8 ∣ len) (hlt : len < 2 ^ 32) (hmin : 8 ≤ len) : Sized pool ⟨lo, len, .raw⟩ :=
  ⟨hlo, hlen, hlt, hmin⟩

theorem sized_free (hlo : 8 ∣ lo) (hlen : 8 ∣ len) (hlt : len < 2 ^ 32) (hmin : 48 ≤ len) :
    Sized pool ⟨lo, len, .free⟩ :=
  ⟨hlo, hlen, hlt, hmin⟩

theorem sized_own (hlo : 8 ∣ lo) (hlen : 8 ∣ len) (hlt : len < 2 ^ 32) (hmin : 48 ≤ len) (hpos : 8 ≤ lo)
    (hne : lo + 40 = pool → 272 ≤ len) : Sized pool ⟨lo, len, .own⟩ := ⟨hlo, hlen, hlt, hmin, hpos, hne⟩

end Piece

/-! ## A new page -/

/-- A page with one free block -/
def newPage (start flags : ℕ) : Page := ⟨start, flags, 48, [⟨start + 56, 4032, .free⟩]⟩

theorem newPage_wf {start flags : ℕ} (hflags : flags = allocated ∨ flags = allocated ||| initial) :
    (newPage start flags).Wf where
  flags := hflags
  own := (by decide : 48 ≤ 272)
  tiles := ⟨rfl, rfl⟩
  kinds c hc := .inr (by rw [List.mem_singleton.mp hc])
  single := .singleton _

namespace Pool

variable {s : Pool} {R : List Piece} {ptr flags : ℕ}

/-- The two ends of a page get their tags. -/
theorem putEnds_spec (h : Rep s.pool s.mem [⟨ptr, 4096, .raw⟩] R) (hflags : flags < 8) :
    Rep s.pool ((s.put ptr (pack 0 flags)).put (ptr + pageSize - 8) (pack 0 flags)).mem
      [⟨ptr + 8, 4080, .raw⟩, ⟨ptr, 8, .fence flags⟩, ⟨ptr + 4088, 8, .fence flags⟩] R := by
  obtain ⟨hptr, -, -, -⟩ := h.sized _ List.mem_cons_self
  have hlast : ptr + pageSize - 8 = ptr + 4088 := by
    simp only [pageSize]
    omega
  have hpack : pack 0 flags < 2 ^ 32 := pack_lt (by decide) (by decide) hflags
  have hends := get_put_put (s := s) (a := ptr) (x := ptr + pageSize - 8) hpack (by omega)
  rw [hlast] at hends ⊢
  have hrow : Rep s.pool ((s.put ptr (pack 0 flags)).put (ptr + 4088) (pack 0 flags)).mem
      [⟨ptr, 8, .fence flags⟩, ⟨ptr + 8, 4080, .raw⟩, ⟨ptr + 4088, 8, .fence flags⟩] R := by
    have hbefore : Tiles ptr [⟨ptr, 4096, .raw⟩] (ptr + 4096) := ⟨rfl, rfl⟩
    have hafter : Tiles ptr [⟨ptr, 8, .fence flags⟩, ⟨ptr + 8, 4080, .raw⟩, ⟨ptr + 4088, 8, .fence flags⟩]
      (ptr + 4096) := ⟨rfl, rfl, rfl, rfl⟩
    refine h.retile hbefore (List.cons_ne_nil _ _) hafter (fun a ha => hends.2.2 a (by omega) (by omega)) ?_
      fun c hc => ?_
    · intro c hc
      simp only [List.mem_cons, List.not_mem_nil, or_false] at hc
      dsimp only at hptr
      rcases hc with rfl | rfl | rfl
      · exact ⟨Piece.sized_fence hptr hflags, hends.2.1⟩
      · exact ⟨Piece.sized_raw (by omega) (by decide) (by decide) (by decide), trivial⟩
      · exact ⟨Piece.sized_fence (by omega) hflags, hends.1⟩
    · rw [List.mem_singleton.mp hc]
      exact not_main_of_kind Kind.noConfusion
  exact hrow.perm (List.Perm.swap _ _ _) .rfl

/-- The block at the beginning of a page becomes that of its `gfs_mem_page_t`. -/
theorem storeOwn_spec {loose : List Piece} (h : Rep s.pool s.mem (⟨ptr + 8, 48, .busy⟩ :: loose) R) :
    Rep s.pool ((s.store (ptr + 32) ptr).store (ptr + 40) (ptr + pageSize)).mem (⟨ptr + 8, 48, .own⟩ :: loose) R := by
  have hsized := h.sized _ List.mem_cons_self
  have htags := (h.stored _ List.mem_cons_self).tags (.inr (.inl rfl))
  have houtside := h.pool_outside List.mem_cons_self Kind.noConfusion
  simp only [Piece.hi] at houtside
  obtain ⟨halign, -, -, -⟩ := hsized
  have hothers : ∀ a, a ≠ ptr + 32 → a ≠ ptr + 40 →
      ((s.store (ptr + 32) ptr).store (ptr + 40) (ptr + pageSize)).mem a = s.mem a := by
    intro a ha ha'
    exact (put_of_ne ha').trans (put_of_ne ha)
  have hstart : ((s.store (ptr + 32) ptr).store (ptr + 40) (ptr + pageSize)).mem (ptr + 32) = ptr :=
    (put_of_ne (by omega)).trans put_self
  have hend : ((s.store (ptr + 32) ptr).store (ptr + 40) (ptr + pageSize)).mem (ptr + 40) = ptr + pageSize := put_self
  have hbefore : Tiles (ptr + 8) [⟨ptr + 8, 48, .busy⟩] (ptr + 56) := ⟨rfl, rfl⟩
  have hafter : Tiles (ptr + 8) [⟨ptr + 8, 48, .own⟩] (ptr + 56) := ⟨rfl, rfl⟩
  refine h.retile hbefore (List.cons_ne_nil _ _) hafter (fun a ha => hothers a (by omega) (by omega)) ?_ ?_
  · intro c hc
    rw [List.mem_singleton.mp hc]
    refine ⟨Piece.sized_own halign (by decide) (by decide) (by decide) (by omega) (by omega), ?_, ?_, ?_, ?_⟩
    · rw [get, hothers _ (by dsimp only; omega) (by dsimp only; omega)]
      exact htags.1
    · change get _ (ptr + 48) = _
      rw [get, hothers _ (by omega) (by omega)]
      exact htags.2
    · exact hstart.trans (by dsimp only; omega)
    · exact hend.trans (by dsimp only; omega)
  · intro c hc
    rw [List.mem_singleton.mp hc]
    exact not_main_of_kind Kind.noConfusion

end Pool

namespace Kept

variable {s : Pool} {pages : List Page} {larges : List Piece} {flags : ℕ}

theorem addPage (h : Kept s pages larges) (alloc : Allocator)
    (hflags : flags = allocated ∨ flags = allocated ||| initial) :
    ∃ ptr mem', s.addPage alloc flags = { s with
        mem := mem', chunks := (ptr, pageSize) :: s.chunks, calls := s.calls + 1, used := s.used + 64 } ∧
      Kept { s with mem := mem', chunks := (ptr, pageSize) :: s.chunks, calls := s.calls + 1, used := s.used + 64 }
        (newPage ptr flags :: pages) larges := by
  have hlt : flags < 8 := by rcases hflags with rfl | rfl <;> decide
  let ptr := alloc.addr s.calls s.chunks pageSize
  have hraw : Rep s.pool s.mem [⟨ptr, 4096, .raw⟩] (pieces pages larges) :=
    h.fresh alloc (by decide) (by decide) (by decide)
  have hptr : 8 ∣ ptr := alloc.aligned _ _ _
  let s₁ : Pool := { s with chunks := (ptr, pageSize) :: s.chunks, calls := s.calls + 1 }
  let s₂ : Pool := { (s₁.put ptr (pack 0 flags)).put (ptr + pageSize - 8) (pack 0 flags) with used := s.used + 16 }
  have hends : Rep s₂.pool s₂.mem _ (pieces pages larges) := Pool.putEnds_spec (s := s₁) hraw hlt
  let f : Piece := ⟨ptr + 8, 4080, .free⟩
  have hf : f.Sized s₂.pool := Piece.sized_free (Nat.dvd_add hptr (by decide)) (by decide) (by decide) (by decide)
  have htiles : Tiles (ptr + 8) [⟨ptr + 8, 4080, .raw⟩] (ptr + 4088) := ⟨rfl, rfl⟩
  obtain ⟨mem₃, hfree, hrep₃, -⟩ := Pool.putFree_spec (s := s₂) (f := f) hends htiles (List.cons_ne_nil _ _) (by simp)
    rfl ⟨rfl, rfl⟩ hf
  have hroom : 48 ≤ f.len := (by decide : 48 ≤ 4080)
  obtain ⟨mem₄, hplace, hrep₄⟩ := Pool.place_spec (s := { s₂ with mem := mem₃ }) hrep₃ rfl (by decide) le_rfl hroom
  have hplaced : Pool.placed f 48 = (⟨ptr + 8, 48, .busy⟩, [⟨ptr + 56, 4032, .free⟩]) := rfl
  rw [hplaced] at hplace hrep₄
  let s₄ : Pool := { s₂ with mem := mem₄, used := s.used + 64 }
  let s₅ : Pool := (s₄.store (ptr + 32) ptr).store (ptr + 40) (ptr + pageSize)
  have hown : Rep s₅.pool s₅.mem _ _ := Pool.storeOwn_spec (s := s₄) hrep₄
  have hlisted := (hown.insertHead (q := .page) (x := ptr + 16) ⟨rfl, rfl⟩).settle fun q x => id
  have hall : Rep s.pool (s₅.queueInsertHead s.pool (ptr + 16)).mem [] _ := hlisted.settle fun q x => id
  refine ⟨ptr, (s₅.queueInsertHead s.pool (ptr + 16)).mem, ?_,
    ⟨hall.perm .rfl ?_, ?_, h.large, ?_, ?_, h.initPages, ?_⟩⟩
  · have hused : s.used + 16 + (48 : ℕ) = s.used + 64 := by omega
    have hfree : s₂.putFree (ptr + 16) (pageSize - 16) = { s₂ with mem := mem₃ } := hfree
    have hplace : ({ s₂ with mem := mem₃ } : Pool).place (ptr + 16) (sizeofPage + 16) =
        { s₂ with mem := mem₄, used := s₂.used + (48 : ℕ) } := hplace
    have heq : s.addPage alloc flags =
        ((s₂.putFree (ptr + 16) (pageSize - 16)).place (ptr + 16) (sizeofPage + 16)).enterPage ptr := rfl
    rw [heq, hfree, hplace]
    change { s₅.queueInsertHead s.pool (ptr + 16) with used := s.used + 16 + (48 : ℕ) } = _
    rw [hused]
    rfl
  · exact (List.Perm.swap _ _ _).trans ((List.Perm.swap _ _ _).cons _)
  · intro p hp
    rcases List.mem_cons.mp hp with rfl | hp
    · exact newPage_wf hflags
    · exact h.wf p hp
  · exact h.chunks.cons _
  · intro k hk
    rcases List.mem_cons.mp hk with rfl | hk
    · exact alloc.pos _ _ _
    · exact h.pos k hk
  · obtain ⟨p, hp, hmain⟩ := h.main
    exact ⟨p, List.mem_cons_of_mem _ hp, hmain⟩

end Kept

theorem newPage_others {start flags : ℕ} : ∀ c ∈ (newPage start flags).pieces, ¬ c.isUser := by
  intro c hc
  simp only [Page.pieces, Page.frame, newPage, List.mem_append, List.mem_cons, List.not_mem_nil, or_false] at hc
  rcases hc with (rfl | rfl | rfl) | rfl <;> simp [Piece.isUser, Page.first, Page.block, Page.last]

theorem pieces_cons (p : Page) (pages : List Page) (larges : List Piece) :
    pieces (p :: pages) larges = p.pieces ++ pieces pages larges := by
  rw [pieces, List.flatMap_cons, List.append_assoc, pieces]

namespace Ordered

variable {s : Pool} {live : List (ℕ × ℕ)} {pages : List Page} {larges : List Piece} {flags : ℕ}

theorem addPage (h : Ordered s live pages larges) (alloc : Allocator)
    (hflags : flags = allocated ∨ flags = allocated ||| initial) :
    ∃ ptr, Ordered (s.addPage alloc flags) live (newPage ptr flags :: pages) larges := by
  obtain ⟨ptr, mem', heq, hkept⟩ := h.kept.addPage alloc hflags
  rw [heq]
  refine ⟨ptr, hkept, ⟨?_, ?_⟩, ?_⟩
  · rw [pieces_cons, users_skip newPage_others]
    exact h.counted.msize
  · have hold := h.counted.used
    simp only [overhead, List.map_cons, List.sum_cons, newPage] at hold ⊢
    omega
  · rw [pieces_cons, users_skip newPage_others]
    exact h.served

theorem addPages (h : Ordered s live pages larges) (alloc : Allocator) (n : ℕ) :
    ∃ pages', Ordered (s.addPages alloc n) live pages' larges := by
  induction n generalizing s pages with
  | zero => exact ⟨pages, h⟩
  | succ n ih =>
    obtain ⟨ptr, hpage⟩ := h.addPage alloc (.inr rfl)
    exact ih hpage

theorem resize (h : Ordered s live pages larges) (size : ℕ) : Ordered { s with size := size } live pages larges :=
  ⟨⟨h.kept.rep, h.kept.wf, h.kept.large, h.kept.chunks, h.kept.pos, h.kept.initPages, h.kept.main⟩,
    ⟨h.counted.msize, h.counted.used⟩, h.served⟩

theorem extendLoop (h : Ordered s live pages larges) (alloc : Allocator) (n : ℕ) :
    ∃ new, Ordered (s.extendLoop alloc n) live (new ++ pages) larges ∧ new.length = n ∧
      ∀ p ∈ new, ∃ ptr, p = newPage ptr allocated := by
  induction n generalizing s pages with
  | zero => exact ⟨[], h, rfl, fun p hp => absurd hp List.not_mem_nil⟩
  | succ n ih =>
    obtain ⟨ptr, hpage⟩ := h.addPage alloc (.inl rfl)
    obtain ⟨new, hnew, hlength, hall⟩ := ih (hpage.resize (s.size + pageSize))
    refine ⟨new ++ [newPage ptr allocated], ?_, by rw [List.length_append, hlength]; rfl, fun p hp => ?_⟩
    · rw [List.append_assoc]
      exact hnew
    · rcases List.mem_append.mp hp with hp | hp
      · exact hall p hp
      · exact ⟨ptr, List.mem_singleton.mp hp⟩

/-- There is a new page. -/
theorem extendPool (h : Ordered s live pages larges) (alloc : Allocator) :
    ∃ pages' ptr, Ordered (s.extendPool alloc) live pages' larges ∧ newPage ptr allocated ∈ pages' := by
  obtain ⟨new, hnew, hlength, hall⟩ := h.extendLoop alloc s.initPages
  obtain ⟨p, rest, rfl⟩ := List.exists_cons_of_length_pos (hlength ▸ h.kept.initPages)
  obtain ⟨ptr, rfl⟩ := hall p List.mem_cons_self
  exact ⟨_, ptr, hnew, List.mem_cons_self⟩

end Ordered

/-! ## A block is found -/

theorem Piece.listed_block_iff {c : Piece} {i : Fin 8} {x : ℕ} :
    c.Listed (.block i) x ↔ c.kind = .free ∧ i = classOf c.len ∧ x = c.lo + 8 := by
  obtain ⟨lo, len, kind⟩ := c
  cases kind <;> simp [Listed]

namespace Kept

variable {s : Pool} {pages : List Page} {larges : List Piece} {c : Piece} {i asize x : ℕ}

theorem mem_walk_block (h : Kept s pages larges) (hi : i < 8) : x ∈ s.walk (s.block i) ↔
    ∃ c ∈ pieces pages larges, c.kind = .free ∧ getindex c.len = i ∧ x = c.lo + 8 := by
  refine ((h.walk (.block ⟨i, hi⟩)).2 x).trans (exists_congr fun c => and_congr_right fun _ => ?_)
  rw [Piece.listed_block_iff, classOf, Fin.mk.injEq, eq_comm (a := i)]

theorem size_free (h : Kept s pages larges) (hc : c ∈ pieces pages larges) (hfree : c.kind = .free) :
    getSize (get s.mem (Pool.hdrp (c.lo + 8))) = c.len :=
  ((h.stored hc).getSize (h.sized hc) (.inr (.inr (.inr hfree)))).1

theorem findFit_eq_some (h : Kept s pages larges) (hi : i < 8) (hx : s.findFit (s.block i) asize = some x) :
    ∃ c ∈ pieces pages larges, c.kind = .free ∧ asize ≤ c.len ∧ x = c.lo + 8 := by
  rw [Pool.findFit] at hx
  obtain ⟨c, hc, hfree, -, rfl⟩ := (h.mem_walk_block hi).mp (List.mem_of_find?_eq_some hx)
  have hsize := List.find?_some hx
  rw [h.size_free hc hfree, decide_eq_true_eq] at hsize
  exact ⟨c, hc, hfree, hsize, rfl⟩

theorem findFit_ne_none (h : Kept s pages larges) (hc : c ∈ pieces pages larges) (hfree : c.kind = .free)
    (hsize : asize ≤ c.len) : s.findFit (s.block (getindex c.len)) asize ≠ none := by
  intro hnone
  have hmem := (h.mem_walk_block (getindex_lt c.len)).mpr ⟨c, hc, hfree, rfl, rfl⟩
  have hno := List.find?_eq_none.mp hnone (c.lo + 8) hmem
  rw [h.size_free hc hfree, decide_eq_true_eq] at hno
  exact hno hsize

end Kept

/-- The row that a taken block becomes -/
def Pool.taken (c : Piece) (asize : ℕ) : List Piece :=
  { (Pool.placed c asize).1 with kind := .used } :: (Pool.placed c asize).2

section Take

variable {c : Piece} {asize : ℕ} {l₁ l₂ : List Piece}

theorem placed_cases (c : Piece) (asize : ℕ) :
    Pool.placed c asize = (⟨c.lo, asize, .busy⟩, [⟨c.lo + asize, c.len - asize, .free⟩]) ∨
      Pool.placed c asize = (⟨c.lo, c.len, .busy⟩, []) := by
  rw [Pool.placed]
  split
  · exact .inl rfl
  · exact .inr rfl

theorem taken_tiles (hsize : asize ≤ c.len) : Tiles c.lo (Pool.taken c asize) c.hi := by
  rw [Pool.taken]
  rcases placed_cases c asize with heq | heq <;> rw [heq]
  · refine ⟨rfl, rfl, ?_⟩
    simp only [Tiles, Piece.hi]
    omega
  · exact ⟨rfl, rfl⟩

theorem taken_kinds : ∀ d ∈ Pool.taken c asize, d.kind = .used ∨ d.kind = .free := by
  intro d hd
  rw [Pool.taken] at hd
  rcases placed_cases c asize with heq | heq <;> rw [heq] at hd
  · simp only [List.mem_cons, List.not_mem_nil, or_false] at hd
    rcases hd with rfl | rfl
    · exact .inl rfl
    · exact .inr rfl
  · rw [List.mem_singleton.mp hd]
    exact .inl rfl

theorem taken_single (hfree : c.kind = .free) (h : Page.Single (l₁ ++ [c] ++ l₂)) :
    Page.Single (l₁ ++ Pool.taken c asize ++ l₂) := by
  obtain ⟨hleft, hright, hmeet⟩ := single_append.mp h
  obtain ⟨hleft, -, -⟩ := single_append.mp hleft
  have hnext : ∀ d ∈ l₂.head?, d.kind ≠ .free := by
    intro d hd
    exact (hmeet c (by simp) d hd).resolve_left fun hne => hne hfree
  rw [Pool.taken, single_append, single_append]
  refine ⟨⟨hleft, ?_, fun d _ e he => ?_⟩, hright, fun d _ e he => .inr (hnext e he)⟩
  · rcases placed_cases c asize with heq | heq <;> rw [heq]
    · exact List.isChain_pair.mpr (.inl Kind.noConfusion)
    · exact .singleton _
  · rw [List.head?_cons, Option.mem_some] at he
    rw [← he]
    exact .inr Kind.noConfusion

theorem users_taken (c : Piece) (asize : ℕ) (ps : List Piece) :
    users (Pool.taken c asize ++ ps) = { (Pool.placed c asize).1 with kind := .used } :: users ps := by
  have hrest : ∀ d ∈ (Pool.placed c asize).2, ¬ d.isUser := by
    intro d hd
    rcases placed_cases c asize with heq | heq <;> rw [heq] at hd
    · rw [List.mem_singleton.mp hd]
      simp [Piece.isUser]
    · exact absurd hd List.not_mem_nil
  rw [Pool.taken, List.cons_append, users_cons (by simp [Piece.isUser]), users_skip hrest]

theorem le_placed (hsize : asize ≤ c.len) :
    asize ≤ (Pool.placed c asize).1.len ∧ (Pool.placed c asize).1.lo = c.lo := by
  rcases placed_cases c asize with heq | heq <;> rw [heq]
  · exact ⟨le_rfl, rfl⟩
  · exact ⟨hsize, rfl⟩

end Take

namespace Ordered

variable {s : Pool} {live : List (ℕ × ℕ)} {pages : List Page} {larges : List Piece} {c : Piece} {asize size : ℕ}

theorem take (h : Ordered s live pages larges) (hc : c ∈ pieces pages larges) (hfree : c.kind = .free)
    (halign : 8 ∣ asize) (hmin : 48 ≤ asize) (hle : asize ≤ c.len) (hsize : size + 24 ≤ asize) :
    ∃ ptr s' pages', s.take (c.lo + 8) asize = (some ptr, s') ∧ Ordered s' ((ptr, size) :: live) pages' larges := by
  obtain ⟨a, p, b, l₁, l₂, rfl, hrest⟩ := h.kept.exists_page hc (.inr hfree)
  have hperm := pieces_around a b larges hrest
  obtain ⟨mem', htake, hrep⟩ := Pool.take_spec (h.kept.rep.perm .rfl hperm) hfree halign hmin hle
  have hold := h.kept.wf p (List.mem_append_right _ List.mem_cons_self)
  have htiles := hold.tiles
  have hsingle := hold.single
  rw [hrest] at htiles hsingle
  have hwf : { p with rest := l₁ ++ Pool.taken c asize ++ l₂ : Page}.Wf := by
    refine ⟨hold.flags, hold.own, htiles.swap ?_, fun d hd => ?_, taken_single hfree hsingle⟩
    · rintro _ _ ⟨rfl, rfl⟩
      exact taken_tiles hle
    · have hkinds := hold.kinds d
      rw [hrest] at hkinds
      simp only [List.mem_append] at hd hkinds
      rcases hd with (hd | hd) | hd
      · exact hkinds (.inl (.inl hd))
      · exact taken_kinds d hd
      · exact hkinds (.inr hd)
  have hkept := h.kept.repage (s.used + (Pool.placed c asize).1.len) (s.msize + (Pool.placed c asize).1.len) hrep hwf
  obtain ⟨u, hu⟩ : ∃ u : Piece, u = { (Pool.placed c asize).1 with kind := .used } := ⟨_, rfl⟩
  obtain ⟨hulen, hulo⟩ := le_placed hle
  have hbefore : (users (pieces (a ++ p :: b) larges)).Perm (users (around a b p l₁ l₂ larges)) := by
    have husers := users_perm hperm
    rwa [users_skip (by simp [Piece.isUser, hfree])] at husers
  have hafter : (users (pieces (a ++ { p with rest := l₁ ++ Pool.taken c asize ++ l₂ } :: b) larges)).Perm
      (u :: users (around a b p l₁ l₂ larges)) := by
    have husers := users_perm (pieces_around a b larges (p := { p with rest := l₁ ++ Pool.taken c asize ++ l₂ }) rfl)
    rwa [users_taken, ← hu] at husers
  have hptr : u.ptr = c.lo + 16 := by rw [hu, Piece.ptr, if_neg Kind.noConfusion, hulo]
  have hlen : u.len = (Pool.placed c asize).1.len := by rw [hu]
  refine ⟨c.lo + 16, _, _, htake, hkept, ⟨?_, ?_⟩, ?_⟩
  · rw [held_perm hafter, held_cons, ← held_perm hbefore, ← h.counted.msize, hlen]
    exact add_comm _ _
  · rw [overhead_repage]
    have hused := h.counted.used
    dsimp only
    omega
  · rw [← hptr]
    refine ((h.served.perm hbefore).cons ?_ fun d hd heq => ?_).perm hafter.symm
    · rw [Piece.room, if_neg (by rw [hu]; exact Kind.noConfusion), hlen]
      omega
    · exact hkept.ptr_injective (hafter.mem_iff.mpr (List.mem_cons_of_mem _ hd))
        (hafter.mem_iff.mpr List.mem_cons_self) heq

theorem mem_classes {asize i : ℕ} (hi : i ∈ Pool.classes asize) : i < 8 := by
  rw [Pool.classes, List.mem_range'_1] at hi
  omega

/-- A block of at most one page is always found. -/
theorem mallocSmall (h : Ordered s live pages larges) (alloc : Allocator) (halign : 8 ∣ asize) (hmin : 48 ≤ asize)
    (hmax : asize ≤ 4032) (hsize : size + 24 ≤ asize) :
    ∃ ptr s' pages', s.mallocSmall alloc asize = (some ptr, s') ∧ Ordered s' ((ptr, size) :: live) pages' larges := by
  rw [Pool.mallocSmall]
  cases hfound : (Pool.classes asize).findSome? fun i => s.findFit (s.block i) asize with
  | some bp =>
    obtain ⟨i, hi, hfit⟩ := List.exists_of_findSome?_eq_some hfound
    obtain ⟨c, hc, hfree, hle, rfl⟩ := h.kept.findFit_eq_some (mem_classes hi) hfit
    exact h.take hc hfree halign hmin hle hsize
  | none =>
    obtain ⟨pages', start, hext, hnew⟩ := h.extendPool alloc
    have hc : (⟨start + 56, 4032, .free⟩ : Piece) ∈ pieces pages' larges := by
      refine mem_pieces.mpr (.inl ⟨_, hnew, ?_⟩)
      simp [Page.pieces, newPage]
    have hsome := hext.kept.findFit_ne_none hc rfl hmax
    have hclass : getindex 4032 = 7 := by decide
    dsimp only at hsome ⊢
    rw [hclass] at hsome
    cases hfit : (s.extendPool alloc).findFit ((s.extendPool alloc).block 7) asize with
    | none => exact absurd hfit hsome
    | some bp =>
      obtain ⟨c, hc, hfree, hle, rfl⟩ := hext.kept.findFit_eq_some (by decide) hfit
      exact hext.take hc hfree halign hmin hle hsize

end Ordered

/-! ## Large blocks -/

namespace Pool

variable {s : Pool} {R : List Piece} {bp n : ℕ}

theorem storeLarge_spec (h : Rep s.pool s.mem [⟨bp, n, .raw⟩] R) (hmin : 48 ≤ n) :
    Rep s.pool ((((s.store (bp + 16) bp).store (bp + 24) n).put (bp + 32) (pack n (allocated ||| MemPool.large))).store
      (bp + 40) s.pool).mem [⟨bp, n, .large⟩] R := by
  obtain ⟨hbp, hn, hlt, -⟩ := h.sized _ List.mem_cons_self
  have hothers : ∀ a, a ≠ bp + 16 → a ≠ bp + 24 → a ≠ bp + 32 → a ≠ bp + 40 →
      ((((s.store (bp + 16) bp).store (bp + 24) n).put (bp + 32) (pack n (allocated ||| MemPool.large))).store
        (bp + 40) s.pool).mem a = s.mem a := by
    intro a h₁ h₂ h₃ h₄
    exact (put_of_ne h₄).trans ((put_of_ne h₃).trans ((put_of_ne h₂).trans (put_of_ne h₁)))
  have hbefore : Tiles bp [⟨bp, n, .raw⟩] (bp + n) := ⟨rfl, rfl⟩
  have hafter : Tiles bp [⟨bp, n, .large⟩] (bp + n) := ⟨rfl, rfl⟩
  refine h.retile hbefore (List.cons_ne_nil _ _) hafter
    (fun a ha => hothers a (by omega) (by omega) (by omega) (by omega)) (fun c hc => ?_) fun c hc => ?_
  · rw [List.mem_singleton.mp hc]
    refine ⟨⟨hbp, hn, hlt, hmin⟩, ?_, ?_, ?_, put_self⟩
    · exact (put_of_ne (by dsimp only; omega)).trans ((put_of_ne (by dsimp only; omega)).trans
        ((put_of_ne (by dsimp only; omega)).trans put_self))
    · exact (put_of_ne (by dsimp only; omega)).trans ((put_of_ne (by dsimp only; omega)).trans put_self)
    · exact (get_store_of_ne (by dsimp only; omega)).trans (get_put (pack_lt hn hlt (by decide)))
  · rw [List.mem_singleton.mp hc]
    exact not_main_of_kind Kind.noConfusion

end Pool

namespace Kept

variable {s : Pool} {pages : List Page} {larges : List Piece} {size : ℕ}

/-- The block that `gfs_mem_malloc` gets for `size` bytes -/
def largeFor (alloc : Allocator) (s : Pool) (size : ℕ) : Piece :=
  ⟨alloc.addr s.calls s.chunks (align8 size + 48), align8 size + 48, .large⟩

theorem mallocLarge (h : Kept s pages larges) (alloc : Allocator) (hlt : align8 size + 48 < 2 ^ 32) :
    ∃ mem', s.mallocLarge alloc size = (some (largeFor alloc s size).ptr, { s with
        mem := mem'
        chunks := ((largeFor alloc s size).lo, (largeFor alloc s size).len) :: s.chunks
        calls := s.calls + 1
        used := s.used + (largeFor alloc s size).len
        msize := s.msize + (largeFor alloc s size).len }) ∧
      Rep s.pool mem' [] (largeFor alloc s size :: pieces pages larges) := by
  obtain ⟨n, hn⟩ : ∃ n, n = align8 size + 48 := ⟨_, rfl⟩
  have halign : 8 ∣ n := by
    rw [hn, align8]
    omega
  have hmin : 48 ≤ n := by omega
  obtain ⟨bp, hbp⟩ : ∃ bp, bp = alloc.addr s.calls s.chunks n := ⟨_, rfl⟩
  have hlarge : largeFor alloc s size = ⟨bp, n, .large⟩ := by rw [largeFor, hbp, hn]
  have hraw := h.fresh alloc halign (by omega) (hn ▸ hlt)
  rw [← hbp] at hraw
  have hstored := Pool.storeLarge_spec hraw hmin
  have hinserted := hstored.insertTail (q := .large) (x := bp) ⟨rfl, rfl⟩
  obtain ⟨lists, hfam, hlists⟩ := hraw.rings
  have hspot : ∀ x, ¬ (⟨bp, n, .raw⟩ : Piece).Spot s.pool x := by
    rintro x (⟨q, hq⟩ | ⟨hmain, -⟩)
    · exact hq
    · exact Pool.not_main_of_kind Kind.noConfusion hmain
  have hhead := hraw.node_outside hlists List.mem_cons_self hspot (Family.head_mem _ _ .large)
  have hlast := hraw.node_outside hlists List.mem_cons_self hspot (hfam.prev_head_mem .large)
  simp only [Piece.hi] at hhead hlast
  have hsize : (align8 size + (sizeofLarge + 16)) % 2 ^ 32 = n := by
    rw [hn]
    exact Nat.mod_eq_of_lt hlt
  let s₂ : Pool := (s.store (bp + 16) bp).store (bp + 24) n
  have hkept : s₂.mem (head s.pool .large + 8) = s.mem (head s.pool .large + 8) :=
    (put_of_ne (by omega)).trans (put_of_ne (by omega))
  let word : ℕ := s₂.mem (bp + 32) / 2 ^ 32 * 2 ^ 32 + pack n (allocated ||| MemPool.large) % 2 ^ 32
  have hlater : insertTailAt 8 (head s.pool .large) bp (put (bp + 40) s.pool (put (bp + 32) word s₂.mem)) =
      put (bp + 40) s.pool (put (bp + 32) word (insertTailAt 8 (head s.pool .large) bp s₂.mem)) := by
    have hprev : put (bp + 32) word s₂.mem (head s.pool .large + 8) = s₂.mem (head s.pool .large + 8) :=
      put_of_ne (by omega)
    rw [insertTailAt_put (by omega) (by omega) (by omega) (by omega),
      insertTailAt_put (by omega) (by omega) (by omega) (by omega)]
  let m : ℕ → ℕ := insertTailAt 8 (head s.pool .large) bp s₂.mem
  have hmalloc : s.mallocLarge alloc size = (some (bp + 48), { s with
      mem := put (bp + 40) s.pool
        (put (bp + 32) (m (bp + 32) / 2 ^ 32 * 2 ^ 32 + pack n (allocated ||| MemPool.large) % 2 ^ 32) m)
      chunks := (bp, n) :: s.chunks, calls := s.calls + 1, used := s.used + n, msize := s.msize + n }) := by
    simp only [Pool.mallocLarge, Pool.mallocInternal, hsize, ← hbp]
    rfl
  have hword : m (bp + 32) = s₂.mem (bp + 32) := insertTailAt_of_ne (by omega) (by omega) (by omega) (by omega)
  rw [hlarge, hmalloc, hword]
  exact ⟨_, rfl, hlater ▸ hinserted⟩

end Kept

theorem pieces_large (pages : List Page) (c : Piece) (larges : List Piece) :
    (pieces pages (c :: larges)).Perm (c :: pieces pages larges) := List.perm_middle

namespace Ordered

variable {s : Pool} {live : List (ℕ × ℕ)} {pages : List Page} {larges : List Piece} {size : ℕ}

theorem mallocLarge (h : Ordered s live pages larges) (alloc : Allocator) (hlt : align8 size + 48 < 2 ^ 32) :
    ∃ ptr s' larges', s.mallocLarge alloc size = (some ptr, s') ∧ Ordered s' ((ptr, size) :: live) pages larges' := by
  obtain ⟨mem', heq, hrep⟩ := h.kept.mallocLarge alloc hlt
  obtain ⟨c, hc⟩ : ∃ c, c = Kept.largeFor alloc s size := ⟨_, rfl⟩
  have hkind : c.kind = .large := by rw [hc, Kept.largeFor]
  have hlen : c.len = align8 size + 48 := by rw [hc, Kept.largeFor]
  have hpos : 0 < c.lo := by
    rw [hc]
    exact alloc.pos _ _ _
  rw [← hc] at heq hrep
  have huser : c.isUser := by simp [Piece.isUser, hkind]
  have hkept : Kept { s with
      mem := mem'
      chunks := (c.lo, c.len) :: s.chunks
      calls := s.calls + 1
      used := s.used + c.len
      msize := s.msize + c.len } pages (c :: larges) := by
    refine ⟨hrep.perm .rfl (pieces_large pages c larges).symm, h.kept.wf, fun d hd => ?_, ?_, fun k hk => ?_,
      h.kept.initPages, h.kept.main⟩
    · rcases List.mem_cons.mp hd with rfl | hd
      · exact hkind
      · exact h.kept.large d hd
    · exact (h.kept.chunks.cons _).trans List.perm_middle.symm
    · rcases List.mem_cons.mp hk with rfl | hk
      · exact hpos
      · exact h.kept.pos k hk
  have hafter : (users (pieces pages (c :: larges))).Perm (c :: users (pieces pages larges)) := by
    have husers := users_perm (pieces_large pages c larges)
    rwa [users_cons huser] at husers
  refine ⟨c.ptr, _, c :: larges, heq, hkept, ⟨?_, ?_⟩, ?_⟩
  · rw [held_perm hafter, held_cons, ← h.counted.msize]
    exact add_comm _ _
  · have hused := h.counted.used
    dsimp only
    omega
  · refine (h.served.cons ?_ fun d hd hptr => ?_).perm hafter.symm
    · rw [Piece.room, if_pos hkind, hlen, align8]
      omega
    · exact hkept.ptr_injective (hafter.mem_iff.mpr (List.mem_cons_of_mem _ hd))
        (hafter.mem_iff.mpr List.mem_cons_self) hptr

theorem malloc (h : Ordered s live pages larges) (alloc : Allocator) (hpos : 0 < size)
    (hlt : align8 size + 48 < 2 ^ 32) :
    ∃ ptr s' pages' larges', s.malloc alloc size = (some ptr, s') ∧
      Ordered s' ((ptr, size) :: live) pages' larges' := by
  rw [Pool.malloc, if_neg hpos.ne']
  by_cases hsmall : size ≤ 16
  · rw [if_pos hsmall]
    have hroom : size + 24 ≤ blockMin := by
      simp only [blockMin]
      omega
    obtain ⟨ptr, s', pages', heq, hordered⟩ := h.mallocSmall alloc (by decide) le_rfl (by decide) hroom
    exact ⟨ptr, s', pages', larges, heq, hordered⟩
  rw [if_neg hsmall]
  by_cases hlarge : minLargeSize < size
  · rw [if_pos hlarge]
    obtain ⟨ptr, s', larges', heq, hordered⟩ := h.mallocLarge alloc hlt
    exact ⟨ptr, s', pages, larges', heq, hordered⟩
  · rw [if_neg hlarge]
    simp only [minLargeSize] at hlarge
    have hroom : size + 24 ≤ align8 size + 32 := by
      rw [align8]
      omega
    obtain ⟨ptr, s', pages', heq, hordered⟩ := h.mallocSmall alloc (by rw [align8]; omega) (by rw [align8]; omega)
      (by rw [align8]; omega) hroom
    exact ⟨ptr, s', pages', larges, heq, hordered⟩

end Ordered

end Tefs.NameServer.MemPool
