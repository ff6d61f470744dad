import Tefs.NameServer.MemMalloc

/-! # What is given back to the memory pool -/

namespace Tefs.NameServer.MemPool
open Tefs.Ring
set_option autoImplicit false

/-! ## The two sides of a block -/

/-- The free block `c`, as a list of none or one -/
def freeOnly (c : Piece) : List Piece := if c.kind = .free then [c] else []

section Sides

variable {p : Page} {c : Piece} {l₁ l₂ : List Piece}

theorem Page.Wf.exists_prev (h : p.Wf) (hrest : p.rest = l₁ ++ [c] ++ l₂) :
    ∃ q k, q ∈ p.block :: l₁ ∧ q.hi = c.lo ∧ q.IsBlock ∧ l₁ = k ++ freeOnly q ∧ ∀ d ∈ k.getLast?, d.kind ≠ .free := by
  have htiles := h.tiles
  have hsingle := h.single
  rw [hrest] at htiles hsingle
  obtain ⟨_, hfront, _⟩ := tiles_append.mp htiles
  obtain ⟨_, hleft, rfl, _⟩ := tiles_append.mp hfront
  rcases List.eq_nil_or_concat' l₁ with rfl | ⟨k, q, rfl⟩
  · have hown : p.start + 8 + p.own = c.lo := hleft
    exact ⟨p.block, [], List.mem_cons_self, hown, .inl rfl, rfl, fun d hd => by simp at hd⟩
  · obtain ⟨_, _, rfl, hlast⟩ := tiles_append.mp hleft
    have hq : q.IsBlock := h.isBlock (by simp [hrest])
    refine ⟨q, if q.kind = .free then k else k ++ [q], by simp, hlast, hq, ?_, ?_⟩
    · by_cases hfree : q.kind = .free
      · rw [if_pos hfree, freeOnly, if_pos hfree]
      · rw [if_neg hfree, freeOnly, if_neg hfree, List.append_nil]
    · obtain ⟨hfront, -, -⟩ := single_append.mp hsingle
      obtain ⟨hfront, -, -⟩ := single_append.mp hfront
      obtain ⟨-, -, hmeet⟩ := single_append.mp hfront
      by_cases hfree : q.kind = .free
      · rw [if_pos hfree]
        exact fun d hd => (hmeet d hd q (by simp)).resolve_right fun hne => hne hfree
      · rw [if_neg hfree, List.getLast?_concat]
        intro d hd
        rw [← Option.mem_some.mp hd]
        exact hfree

theorem Page.Wf.exists_next (h : p.Wf) (hrest : p.rest = l₁ ++ [c] ++ l₂) :
    ∃ q k, q ∈ p.last :: l₂ ∧ c.hi = q.lo ∧ q.Beside ∧ l₂ = freeOnly q ++ k ∧ ∀ d ∈ k.head?, d.kind ≠ .free := by
  have htiles := h.tiles
  have hsingle := h.single
  rw [hrest] at htiles hsingle
  obtain ⟨_, hfront, hright⟩ := tiles_append.mp htiles
  obtain ⟨_, _, rfl, rfl⟩ := tiles_append.mp hfront
  cases l₂ with
  | nil =>
    have hend : c.hi = p.start + 4088 := hright
    exact ⟨p.last, [], List.mem_cons_self, hend, .inr ⟨p.flags, rfl, p.flags_odd h⟩, rfl, fun d hd => by simp at hd⟩
  | cons q k =>
    obtain ⟨hlo, -⟩ := hright
    have hq : q.IsBlock := h.isBlock (by simp [hrest])
    refine ⟨q, if q.kind = .free then k else q :: k, by simp, hlo.symm, .inl hq, ?_, ?_⟩
    · by_cases hfree : q.kind = .free
      · rw [if_pos hfree, freeOnly, if_pos hfree, List.singleton_append]
      · rw [if_neg hfree, freeOnly, if_neg hfree, List.nil_append]
    · obtain ⟨-, hback, -⟩ := single_append.mp hsingle
      by_cases hfree : q.kind = .free
      · rw [if_pos hfree]
        rw [← List.singleton_append, single_append] at hback
        exact fun d hd => (hback.2.2 q (by simp) d hd).resolve_left fun hne => hne hfree
      · rw [if_neg hfree, List.head?_cons]
        intro d hd
        rw [← Option.mem_some.mp hd]
        exact hfree

/-- The block `c` between `q` and `n`, which are kept apart from the rest if they are free -/
structure Page.Place (p : Page) (k₁ : List Piece) (q c n : Piece) (k₂ : List Piece) : Prop where
  rest : p.rest = k₁ ++ (freeOnly q ++ [c] ++ freeOnly n) ++ k₂
  prev_mem : q ∈ p.block :: (k₁ ++ freeOnly q)
  next_mem : n ∈ p.last :: (freeOnly n ++ k₂)
  prev_hi : q.hi = c.lo
  next_lo : c.hi = n.lo
  prev : q.IsBlock
  next : n.Beside
  last : ∀ d ∈ k₁.getLast?, d.kind ≠ .free
  head : ∀ d ∈ k₂.head?, d.kind ≠ .free

theorem Page.Wf.exists_place (h : p.Wf) (hrest : p.rest = l₁ ++ [c] ++ l₂) : ∃ k₁ q n k₂, p.Place k₁ q c n k₂ := by
  obtain ⟨q, k₁, hq, hprev, hblock, rfl, hlast⟩ := h.exists_prev hrest
  obtain ⟨n, k₂, hn, hnext, hbeside, rfl, hhead⟩ := h.exists_next hrest
  refine ⟨k₁, q, n, k₂, ?_, hq, hn, hprev, hnext, hblock, hbeside, hlast, hhead⟩
  rw [hrest]
  simp only [List.append_assoc]

theorem freeOnly_others (c : Piece) : ∀ d ∈ freeOnly c, ¬ d.isUser := by
  intro d hd
  rw [freeOnly] at hd
  split at hd
  next hfree =>
    rw [List.mem_singleton.mp hd]
    simp [Piece.isUser, hfree]
  next => exact absurd hd List.not_mem_nil

end Sides

/-! ## A block of a page -/

section Row

variable {q c n : Piece}

theorem coalesced_tiles (hprev : q.hi = c.lo) (hnext : c.hi = n.lo) {a b : ℕ}
    (h : Tiles a (freeOnly q ++ [c] ++ freeOnly n) b) : Tiles a [coalesced q { c with kind := .free } n] b := by
  obtain ⟨_, hfront, hright⟩ := tiles_append.mp h
  obtain ⟨_, hleft, rfl, rfl⟩ := tiles_append.mp hfront
  rw [freeOnly] at hleft hright
  by_cases hq : q.kind = .free <;> by_cases hn : n.kind = .free <;>
    simp only [hq, hn, if_true, if_false, Tiles, coalesced, Piece.hi] at * <;> omega

theorem single_coalesced {k₁ k₂ : List Piece} {f : Piece} (hleft : Page.Single k₁) (hright : Page.Single k₂)
    (hlast : ∀ d ∈ k₁.getLast?, d.kind ≠ .free) (hhead : ∀ d ∈ k₂.head?, d.kind ≠ .free) :
    Page.Single (k₁ ++ [f] ++ k₂) := by
  rw [single_append, single_append]
  exact ⟨⟨hleft, .singleton f, fun d hd _ _ => .inl (hlast d hd)⟩, hright, fun _ _ d hd => .inr (hhead d hd)⟩

end Row

/-- A loose block that was one of a user becomes a free one. -/
theorem Pool.putTags_free {s : Pool} {R : List Piece} {c : Piece} (h : Rep s.pool s.mem [] (c :: R))
    (hused : c.kind = .used) :
    Rep s.pool (s.putTags (c.lo + 8) (pack c.len unallocated)).mem [{ c with kind := .free }] R := by
  obtain ⟨lo, len, kind⟩ := c
  obtain rfl : kind = .used := hused
  have hsized := h.sized _ List.mem_cons_self
  have hloose := h.unsettle fun q x => id
  have hbefore : Tiles lo [⟨lo, len, .used⟩] (lo + len) := ⟨rfl, rfl⟩
  have hafter : Tiles lo [⟨lo, len, .free⟩] (lo + len) := ⟨rfl, rfl⟩
  have hput := Pool.putTags_spec (d := ⟨lo, len, .free⟩) hloose hbefore (List.cons_ne_nil _ _) (by simp) (.inr rfl)
    hsized hafter fun r hr => absurd hr List.not_mem_nil
  exact hput

namespace Page.Place

variable {p : Page} {k₁ k₂ : List Piece} {q c n : Piece}

theorem wf (hp : p.Place k₁ q c n k₂) (h : p.Wf) :
    { p with rest := k₁ ++ [coalesced q { c with kind := .free } n] ++ k₂ : Page}.Wf := by
  have htiles := h.tiles
  have hsingle := h.single
  rw [hp.rest] at htiles hsingle
  obtain ⟨hleft, hright, -⟩ := single_append.mp hsingle
  refine ⟨h.flags, h.own, htiles.swap fun x y => coalesced_tiles hp.prev_hi hp.next_lo, fun e he => ?_,
    single_coalesced (single_append.mp hleft).1 hright hp.last hp.head⟩
  have hkinds := h.kinds e
  rw [hp.rest] at hkinds
  simp only [List.mem_append, List.mem_singleton] at he hkinds
  rcases he with (he | rfl) | he
  · exact hkinds (.inl (.inl he))
  · exact .inr rfl
  · exact hkinds (.inr he)

/-- A user gives the block back. -/
theorem between (hp : p.Place k₁ q c n k₂) (h : p.Wf) {s : Pool} {R R' : List Piece}
    (hrep : Rep s.pool s.mem [] (c :: R)) (hused : c.kind = .used) (hR : R.Perm (freeOnly q ++ freeOnly n ++ R'))
    (hR' : ∀ d ∈ p.frame ++ (k₁ ++ k₂), d ∈ R') :
    Pool.Between (s.putTags (c.lo + 8) (pack c.len unallocated)) R q { c with kind := .free } n := by
  have hmem : ∀ d ∈ p.frame ++ (k₁ ++ freeOnly q ++ (freeOnly n ++ k₂)), d ∈ R ∧ d ∈ p.pieces := by
    intro d hd
    have hin := hR' d
    rw [hR.mem_iff, Page.pieces, hp.rest]
    simp only [List.mem_append] at hd hin ⊢
    tauto
  have hprev : q ∈ R ∧ q ∈ p.pieces := by
    refine hmem q ?_
    rcases List.mem_cons.mp hp.prev_mem with heq | hq
    · simp [heq, Page.frame]
    · exact List.mem_append_right _ (List.mem_append_left _ hq)
  have hnext : n ∈ R ∧ n ∈ p.pieces := by
    refine hmem n ?_
    rcases List.mem_cons.mp hp.next_mem with heq | hn
    · simp [heq, Page.frame]
    · exact List.mem_append_right _ (List.mem_append_right _ hn)
  have hsmall : q.len + c.len + n.len < 2 ^ 32 := by
    have hqlen := h.len_le hprev.2
    have hnlen := h.len_le hnext.2
    have hclen : c.len ≤ pageSize := h.len_le (by simp [Page.pieces, hp.rest])
    simp only [pageSize] at hqlen hnlen hclen
    omega
  have hfreed : Rep s.pool (s.putTags (c.lo + 8) (pack c.len unallocated)).mem [{ c with kind := .free }] R :=
    Pool.putTags_free hrep hused
  exact ⟨hfreed, rfl, hprev.1, hnext.1, hp.prev_hi, hp.next_lo, hp.prev, hp.next, hsmall⟩

end Page.Place

/-- The other users have other pointers. -/
theorem Kept.ptr_ne {s : Pool} {pages : List Page} {larges R : List Piece} {c : Piece} (h : Kept s pages larges)
    (hperm : (pieces pages larges).Perm (c :: R)) (huser : c.isUser) : ∀ d ∈ users R, d.ptr ≠ c.ptr := by
  intro d hd heq
  obtain ⟨hdR, hduser⟩ := mem_users.mp hd
  have hc : c ∈ pieces pages larges := hperm.mem_iff.mpr List.mem_cons_self
  have hdmem : d ∈ pieces pages larges := hperm.mem_iff.mpr (List.mem_cons_of_mem _ hdR)
  have hpairs := (hperm.pairwise_iff Piece.Apart.symm).mp h.pairwise
  rw [h.ptr_injective (mem_users.mpr ⟨hdmem, hduser⟩) (mem_users.mpr ⟨hc, huser⟩) heq] at hdR
  exact (h.sized hc).not_apart_self ((List.pairwise_cons.mp hpairs).1 c hdR)

theorem Kept.freeBlock {s : Pool} {pages : List Page} {larges : List Piece} {c : Piece} (h : Kept s pages larges)
    (hc : c ∈ pieces pages larges) (hused : c.kind = .used) : s.free c.ptr = some (({ s with
      used := s.used - c.len, msize := s.msize - c.len } : Pool).putTags (c.lo + 8) (pack c.len unallocated) |>.coalesce
        (c.lo + 8)) := by
  have huser : c.isUser := by simp [Piece.isUser, hused]
  obtain ⟨hpool, htag⟩ := h.user_tag hc huser
  obtain ⟨hsize, hlarge⟩ := h.user hc huser
  have hstored := h.stored hc
  have hsized := h.sized hc
  have hblock : c.IsBlock := .inr (.inr (.inl hused))
  have hbp : c.ptr - 8 = c.lo + 8 := by
    rw [Piece.ptr, if_neg (by simp [hused])]
    omega
  have hftrp := Pool.ftrp_eq hsized hstored hblock
  have hsmall : ¬ getLarge (get s.mem (Pool.hdrp (c.lo + 8))) ≠ 0 := by
    rw [← hbp, hlarge, hused]
    exact Kind.noConfusion
  have hagree : ¬ get s.mem (Pool.hdrp (c.lo + 8)) ≠ get s.mem (s.ftrp (c.lo + 8)) := by
    rw [hftrp, (hstored.tags hblock).2, ← hbp, htag]
    exact fun hne => hne rfl
  rw [Pool.free, hpool, if_neg fun hne => hne rfl]
  change s.freeBlock (c.ptr - 8) (s.sizeOf (c.ptr - 8)) = _
  rw [hsize, hbp, Pool.freeBlock]
  dsimp only
  rw [if_neg hsmall]
  exact if_neg hagree

namespace Ordered

variable {s : Pool} {live : List (ℕ × ℕ)} {pages : List Page} {larges : List Piece} {c : Piece}

theorem freeSmall (h : Ordered s live pages larges) (hc : c ∈ pieces pages larges) (hused : c.kind = .used) :
    ∃ s' pages', s.free c.ptr = some s' ∧ Ordered s' (live.filter fun b => b.1 ≠ c.ptr) pages' larges := by
  obtain ⟨a, p, b, l₁, l₂, rfl, hrest⟩ := h.kept.exists_page hc (.inl hused)
  have hold := h.kept.wf p (List.mem_append_right _ List.mem_cons_self)
  obtain ⟨k₁, q, n, k₂, hplace⟩ := hold.exists_place hrest
  have huser : c.isUser := by simp [Piece.isUser, hused]
  obtain ⟨R, hR⟩ : ∃ R, R = around a b p k₁ k₂ larges := ⟨_, rfl⟩
  have hperm : (pieces (a ++ p :: b) larges).Perm (c :: (freeOnly q ++ freeOnly n ++ R)) := by
    rw [hR]
    refine (pieces_around a b larges hplace.rest).trans ?_
    simp only [List.append_assoc, List.singleton_append]
    exact List.perm_middle
  let s₁ : Pool := { s with used := s.used - c.len, msize := s.msize - c.len }
  have hrep : Rep s₁.pool s₁.mem [] (c :: (freeOnly q ++ freeOnly n ++ R)) := h.kept.rep.perm .rfl hperm
  have hbetween := hplace.between hold hrep hused .rfl fun d hd => by
    simp only [hR, around, List.mem_append] at hd ⊢
    tauto
  obtain ⟨mem', hcoalesce, hrep'⟩ := hbetween.coalesce_spec .rfl
  rw [hR] at hrep'
  have hmerged : Rep s.pool mem' [] ([coalesced q { c with kind := .free } n] ++ around a b p k₁ k₂ larges) := hrep'
  have hkept := h.kept.repage (s.used - c.len) (s.msize - c.len) hmerged (hplace.wf hold)
  have hothers : ∀ e ∈ freeOnly q ++ freeOnly n, ¬ e.isUser := by
    intro e he
    rcases List.mem_append.mp he with he | he
    · exact freeOnly_others q e he
    · exact freeOnly_others n e he
  have hbefore : (users (pieces (a ++ p :: b) larges)).Perm (c :: users R) := by
    have husers := users_perm hperm
    rwa [users_cons huser, users_skip hothers] at husers
  have hafter : (users (pieces (a ++ { p with rest := k₁ ++ [coalesced q { c with kind := .free } n] ++ k₂ } :: b)
      larges)).Perm (users R) := by
    have husers := users_perm (pieces_around a b larges
      (p := { p with rest := k₁ ++ [coalesced q { c with kind := .free } n] ++ k₂ }) rfl)
    rw [users_skip (by simp [Piece.isUser, coalesced])] at husers
    rw [hR]
    exact husers
  refine ⟨_, _, (h.kept.freeBlock hc hused).trans (congrArg some hcoalesce), hkept, ⟨?_, ?_⟩, ?_⟩
  · have hheld := h.counted.msize
    rw [held_perm hbefore, held_cons] at hheld
    rw [held_perm hafter]
    change s.msize - (c.len : ℤ) = _
    omega
  · rw [overhead_repage]
    have hcount := h.counted.used
    change s.used - (c.len : ℤ) = s.msize - c.len + _
    omega
  · refine ((h.served.perm hbefore).tail fun e he => h.kept.ptr_ne hperm huser e ?_).perm hafter.symm
    rwa [users_skip hothers]

end Ordered

/-! ## A large block -/

theorem Pool.freeInternal_eq {s : Pool} {bp size : ℕ} (hbp : 0 < bp) (hsize : 0 < size) :
    s.freeInternal bp size = { s with chunks := s.chunks.filter fun k => k.1 ≠ bp } := by
  rw [freeInternal, if_neg]
  omega

/-- A block that starts where no other one does -/
theorem chunks_filter {K rest : List (ℕ × ℕ)} {k : ℕ × ℕ} (h : K.Perm (k :: rest)) (hrest : ∀ e ∈ rest, e.1 ≠ k.1) :
    (K.filter fun e => e.1 ≠ k.1).Perm rest := by
  have hfilter := h.filter fun e => e.1 ≠ k.1
  rwa [List.filter_cons_of_neg (by simp), List.filter_eq_self.mpr fun e he => decide_eq_true (hrest e he)] at hfilter

namespace Kept

variable {s : Pool} {pages : List Page} {a b : List Piece} {c : Piece}

theorem mem_larges {larges : List Piece} (h : Kept s pages larges) (hc : c ∈ pieces pages larges)
    (hlarge : c.kind = .large) :
    c ∈ larges := by
  rcases mem_pieces.mp hc with ⟨p, hp, hcp⟩ | hcl
  · rcases List.mem_append.mp hcp with hframe | hrest
    · simp only [Page.frame, List.mem_cons, List.not_mem_nil, or_false] at hframe
      rcases hframe with rfl | rfl | rfl <;> simp [Page.first, Page.block, Page.last] at hlarge
    · have hkinds := (h.wf p hp).kinds c hrest
      simp [hlarge] at hkinds
  · exact hcl

theorem unlink (h : Kept s pages (a ++ c :: b)) :
    (s.queueRemove c.lo).mem (c.lo + 16) = c.lo ∧ (s.queueRemove c.lo).mem (c.lo + 24) = c.len ∧
      0 < c.lo ∧ 0 < c.len ∧ Kept ((s.queueRemove c.lo).freeInternal c.lo c.len) pages (a ++ b) := by
  have hmem : c ∈ a ++ c :: b := List.mem_append_right _ List.mem_cons_self
  have hkind := h.large c hmem
  have hlisted : c.Listed .large c.lo := by
    rw [Piece.Listed, hkind]
    exact ⟨rfl, rfl⟩
  have hperm : (pieces pages (a ++ c :: b)).Perm (c :: pieces pages (a ++ b)) :=
    (pieces_perm .rfl List.perm_middle).trans (pieces_large pages c (a ++ b))
  have hrep : Rep s.pool s.mem [] (c :: pieces pages (a ++ b)) := h.rep.perm .rfl hperm
  have hremoved : Rep s.pool (s.queueRemove c.lo).mem [c] (pieces pages (a ++ b)) := hrep.remove hlisted
  have hstored := hremoved.stored c List.mem_cons_self
  rw [Piece.Stored, hkind] at hstored
  have hsized := h.sized (mem_pieces.mpr (.inr hmem))
  have hchunk : (c.lo, c.len) ∈ s.chunks :=
    h.chunks.mem_iff.mpr (List.mem_append_right _ (List.mem_map.mpr ⟨c, hmem, rfl⟩))
  have hpos := h.pos _ hchunk
  have hlen := hsized.pos
  refine ⟨hstored.1, hstored.2.1, hpos, by omega, ?_⟩
  rw [Pool.freeInternal_eq hpos (by omega)]
  refine ⟨?_, h.wf, fun d hd => h.large d ?_, ?_, fun k hk => h.pos k (List.mem_of_mem_filter hk), h.initPages, h.main⟩
  · exact Rep.drop [c] hremoved fun d hd => by
      rw [List.mem_singleton.mp hd]
      exact Pool.not_main_of_kind (by simp [hkind])
  · rcases List.mem_append.mp hd with hd | hd
    · exact List.mem_append_left _ hd
    · exact List.mem_append_right _ (List.mem_cons_of_mem _ hd)
  · refine chunks_filter (k := (c.lo, c.len)) (h.chunks.trans ?_) fun e he => ?_
    · rw [List.map_append, List.map_append, List.map_cons, ← List.append_assoc, ← List.append_assoc]
      exact List.perm_middle
    · obtain ⟨d, hd, hlo⟩ : ∃ d ∈ pieces pages (a ++ b), d.lo = e.1 := by
        rcases List.mem_append.mp he with he | he
        · obtain ⟨p, hp, rfl⟩ := List.mem_map.mp he
          exact ⟨p.first, mem_pieces.mpr (.inl ⟨p, hp, by simp [Page.pieces, Page.frame]⟩), rfl⟩
        · obtain ⟨d, hd, rfl⟩ := List.mem_map.mp he
          exact ⟨d, mem_pieces.mpr (.inr hd), rfl⟩
      have hapart := (List.pairwise_cons.mp hrep.apart).1 d hd
      have hdlen := (hrep.sized d (List.mem_cons_of_mem _ hd)).pos
      simp only [Piece.Apart, Piece.hi] at hapart
      dsimp only
      omega

end Kept

namespace Ordered

variable {s : Pool} {live : List (ℕ × ℕ)} {pages : List Page} {larges : List Piece} {c : Piece}

theorem freeLarge (h : Ordered s live pages larges) (hc : c ∈ larges) :
    ∃ s' larges', s.free c.ptr = some s' ∧ Ordered s' (live.filter fun b => b.1 ≠ c.ptr) pages larges' := by
  obtain ⟨a, b, rfl⟩ := List.append_of_mem hc
  have hkind := h.kept.large c hc
  have huser : c.isUser := by simp [Piece.isUser, hkind]
  have hmem := mem_pieces.mpr (.inr hc : (∃ p ∈ pages, c ∈ p.pieces) ∨ c ∈ a ++ c :: b)
  obtain ⟨hpool, htag⟩ := h.kept.user_tag hmem huser
  obtain ⟨hsize, hlarge⟩ := h.kept.user hmem huser
  let s₁ : Pool := { s with used := s.used - c.len, msize := s.msize - c.len }
  have hkept₁ : Kept s₁ pages (a ++ c :: b) :=
    ⟨h.kept.rep, h.kept.wf, h.kept.large, h.kept.chunks, h.kept.pos, h.kept.initPages, h.kept.main⟩
  obtain ⟨hstart, -, hlo, hlen, hkept⟩ := hkept₁.unlink
  have hat : c.ptr - 8 - 8 - sizeofLarge = c.lo := by
    rw [Piece.ptr, if_pos hkind]
    simp only [sizeofLarge]
    omega
  have hfree : s.free c.ptr = some ((s₁.queueRemove c.lo).freeInternal c.lo c.len) := by
    rw [Pool.free, hpool, if_neg fun hne => hne rfl]
    change s.freeBlock (c.ptr - 8) (s.sizeOf (c.ptr - 8)) = _
    rw [hsize, Pool.freeBlock]
    dsimp only
    rw [if_pos (hlarge.mpr hkind), hat]
    exact congrArg (fun bp => some ((s₁.queueRemove c.lo).freeInternal bp c.len)) hstart
  rw [Pool.freeInternal_eq hlo hlen] at hfree hkept
  have hperm : (pieces pages (a ++ c :: b)).Perm (c :: pieces pages (a ++ b)) :=
    (pieces_perm (.refl pages) List.perm_middle).trans (pieces_large pages c (a ++ b))
  have hbefore : (users (pieces pages (a ++ c :: b))).Perm (c :: users (pieces pages (a ++ b))) := by
    have husers := users_perm hperm
    rwa [users_cons huser] at husers
  refine ⟨_, a ++ b, hfree, hkept, ⟨?_, ?_⟩, (h.served.perm hbefore).tail (h.kept.ptr_ne hperm huser)⟩
  · have hheld := h.counted.msize
    rw [held_perm hbefore, held_cons] at hheld
    change s.msize - (c.len : ℤ) = _
    omega
  · have hcount := h.counted.used
    change s.used - (c.len : ℤ) = s.msize - c.len + _
    omega

/-- Every live pointer can be freed. -/
theorem free (h : Ordered s live pages larges) {ptr : ℕ} (hptr : ptr ∈ live.map Prod.fst) :
    ∃ s' pages' larges', s.free ptr = some s' ∧ Ordered s' (live.filter fun b => b.1 ≠ ptr) pages' larges' := by
  obtain ⟨c, hc, rfl⟩ := List.mem_map.mp (h.served.ptrs.mem_iff.mp hptr)
  obtain ⟨hc, huser⟩ := mem_users.mp hc
  simp only [Piece.isUser, decide_eq_true_eq] at huser
  rcases huser with hused | hlarge
  · obtain ⟨s', pages', heq, hordered⟩ := h.freeSmall hc hused
    exact ⟨s', pages', larges, heq, hordered⟩
  · obtain ⟨s', larges', heq, hordered⟩ := h.freeLarge (h.kept.mem_larges hc hlarge)
    exact ⟨s', pages, larges', heq, hordered⟩

end Ordered

end Tefs.NameServer.MemPool
