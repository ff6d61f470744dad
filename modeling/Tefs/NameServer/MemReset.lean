import Tefs.NameServer.MemFree
import Mathlib.Data.List.Perm.Basic

/-! # The memory pool is reset -/

namespace Tefs.NameServer.MemPool
open Tefs.Ring
set_option autoImplicit false

/-! ## The large blocks -/

theorem Pool.freeLarges_cons {s : Pool} {x bp size n : ℕ} (hx : s.mem s.large = x) (hne : x ≠ s.large)
    (hbp : (s.queueRemove x).mem (x + 16) = bp) (hsize : (s.queueRemove x).mem (x + 24) = size) :
    s.freeLarges (n + 1) (s.mem s.large) = ((s.queueRemove x).freeInternal bp size).freeLarges n (s.mem x) := by
  subst hx hbp hsize
  rw [freeLarges, if_neg hne]

theorem Kept.freeLarges {s : Pool} {pages : List Page} {larges : List Piece} {n : ℕ} (h : Kept s pages larges)
    (hn : larges.length ≤ n) :
      ∃ mem' chunks', s.freeLarges n (s.mem s.large) = { s with mem := mem', chunks := chunks' } ∧
      Kept { s with mem := mem', chunks := chunks' } pages [] := by
  induction n generalizing s larges with
  | zero =>
    obtain rfl := List.length_eq_zero_iff.mp (Nat.le_zero.mp hn)
    exact ⟨s.mem, s.chunks, rfl, h⟩
  | succ n ih =>
    rcases h.rep.first .large with ⟨hempty, hnone⟩ | ⟨hne, ⟨c, hc, hlisted⟩, hnext⟩
    · have hlarges : larges = [] := by
        refine List.eq_nil_iff_forall_not_mem.mpr fun c hc => hnone c (mem_pieces.mpr (.inr hc)) c.lo ?_
        rw [Piece.Listed, h.large c hc]
        exact ⟨rfl, rfl⟩
      exact ⟨s.mem, s.chunks, by rw [Pool.freeLarges]; exact if_pos hempty, hlarges ▸ h⟩
    · obtain ⟨hkind, hfirst⟩ : c.kind = .large ∧ s.mem s.large = c.lo := by
        obtain ⟨lo, len, kind⟩ := c
        cases kind <;> simp [Piece.Listed] at hlisted ⊢
        exact hlisted
      obtain ⟨a, b, rfl⟩ := List.append_of_mem (h.mem_larges hc hkind)
      obtain ⟨hstart, hsize, hlo, hlen, hkept⟩ := h.unlink
      have hcons := Pool.freeLarges_cons (n := n) hfirst (hfirst ▸ hne) hstart hsize
      have hhead : (s.queueRemove c.lo).mem s.large = s.mem c.lo := by
        rw [← hfirst]
        exact hnext
      rw [Pool.freeInternal_eq hlo hlen] at hkept hcons
      obtain ⟨mem', chunks', heq, hfreed⟩ := ih hkept (by simp at hn ⊢; omega)
      refine ⟨mem', chunks', ?_, hfreed⟩
      rw [hcons, ← hhead]
      exact heq

/-! ## The lists are emptied -/

/-- A free block of the first `n` classes -/
def freeBelow (n : ℕ) (c : Piece) : Bool := c.kind = .free ∧ getindex c.len < n

/-- The free blocks of the class `n` are added to those of the classes before. -/
theorem filter_freeBelow (ps : List Piece) (n : ℕ) : ∃ mid : List Piece,
    (∀ c ∈ mid, c.kind = .free ∧ getindex c.len = n) ∧
      (ps.filter fun c => !freeBelow n c).Perm (mid ++ ps.filter fun c => !freeBelow (n + 1) c) ∧
      (mid ++ ps.filter (freeBelow n)).Perm (ps.filter (freeBelow (n + 1))) := by
  let p : Piece → Bool := fun c => c.kind = .free ∧ getindex c.len = n
  have hmid : ∀ c, freeBelow (n + 1) c = (p c || freeBelow n c) := by
    intro c
    by_cases hfree : c.kind = .free <;> simp [freeBelow, p, hfree]
    by_cases heq : getindex c.len = n <;> simp [heq]
    omega
  have hapart : ∀ c, p c = true → freeBelow n c = false := by
    intro c hc
    simp only [p, decide_eq_true_eq] at hc
    simp [freeBelow, hc]
  refine ⟨ps.filter p, fun c hc => by simpa [p] using List.of_mem_filter hc, ?_, ?_⟩
  · have hsplit := List.filter_append_perm p (ps.filter fun c => !freeBelow n c)
    rw [List.filter_filter, List.filter_filter] at hsplit
    have hleft : (ps.filter fun c => p c && !freeBelow n c) = ps.filter p := by
      refine List.filter_congr fun c _ => ?_
      cases hc : p c
      · rfl
      · simp [hapart c hc]
    have hright : (ps.filter fun c => !p c && !freeBelow n c) = ps.filter fun c => !freeBelow (n + 1) c := by
      refine List.filter_congr fun c _ => ?_
      rw [hmid, Bool.not_or]
    rw [hleft, hright] at hsplit
    exact hsplit.symm
  · have hsplit := List.filter_append_perm p (ps.filter (freeBelow (n + 1)))
    rw [List.filter_filter, List.filter_filter] at hsplit
    have hleft : (ps.filter fun c => p c && freeBelow (n + 1) c) = ps.filter p := by
      refine List.filter_congr fun c _ => ?_
      cases hc : p c <;> simp [hmid, hc]
    have hright : (ps.filter fun c => !p c && freeBelow (n + 1) c) = ps.filter (freeBelow n) := by
      refine List.filter_congr fun c _ => ?_
      cases hc : p c
      · simp [hmid, hc]
      · simp [hapart c hc]
    rwa [hleft, hright] at hsplit

/-- The free blocks are in no list. -/
theorem Pool.initBlocks_spec {s : Pool} {ps : List Piece} (h : Rep s.pool s.mem [] ps) :
    ∃ mem', s.initBlocks = { s with mem := mem' } ∧
      Rep s.pool mem' (ps.filter fun c => c.kind = .free) (ps.filter fun c => !decide (c.kind = .free)) := by
  suffices hloop : ∀ n ≤ 8, ∃ mem', (List.range n).foldl (fun s i => s.queueInit (s.block i)) s =
      { s with mem := mem' } ∧
      Rep s.pool mem' (ps.filter (freeBelow n)) (ps.filter fun c => !freeBelow n c) by
    have hall : freeBelow 8 = fun c : Piece => decide (c.kind = .free) := by
      funext c
      simp [freeBelow, getindex_lt]
    have hfinal := hloop 8 le_rfl
    rwa [hall] at hfinal
  intro n hn
  induction n with
  | zero =>
    have hnone : freeBelow 0 = fun _ => false := by
      funext c
      simp [freeBelow]
    refine ⟨s.mem, rfl, ?_⟩
    simpa [hnone] using h
  | succ n ih =>
    obtain ⟨mem', hloop, hrep⟩ := ih (by omega)
    obtain ⟨mid, hmid, hrest, hmore⟩ := filter_freeBelow ps n
    have hinit := Rep.init mid (hrep.perm .rfl hrest) (q := .block ⟨n, hn⟩) (fun c hc q' x hlisted => ?_)
      fun c hc x hlisted => ?_
    · refine ⟨initAt 8 (head s.pool (.block ⟨n, hn⟩)) mem', ?_, hinit.perm hmore .rfl⟩
      rw [List.range_succ, List.foldl_append, hloop]
      rfl
    · obtain ⟨hfree, hclass⟩ := hmid c hc
      obtain ⟨lo, len, kind⟩ := c
      obtain rfl : kind = .free := hfree
      rw [hlisted.1, Queue.block.injEq]
      exact Fin.ext hclass
    · obtain ⟨hfree, hclass, -⟩ := Piece.listed_block_iff.mp hlisted
      have hno := List.of_mem_filter hc
      have hlt : getindex c.len = n := (Fin.mk.inj_iff.mp hclass).symm
      simp [freeBelow, hfree, hlt] at hno

/-! ## The pages -/

namespace Page

variable {p : Page} {pool : ℕ}

/-- What is behind the first block -/
def hole (p : Page) : Piece := ⟨p.start + 8 + p.own, 4080 - p.own, .free⟩

def cleared (p : Page) : Page := { p with rest := [p.hole] }

theorem Wf.hole_tiles (h : p.Wf) : Tiles (p.start + 8 + p.own) [p.hole] (p.start + 4088) := by
  have hown := h.own
  refine ⟨rfl, ?_⟩
  simp only [Tiles, hole, Piece.hi]
  omega

theorem Wf.hole_sized (h : p.Wf) (hblock : p.block.Sized pool) : p.hole.Sized pool := by
  obtain ⟨hlo, hlen⟩ : 8 ∣ p.start + 8 ∧ 8 ∣ p.own := ⟨hblock.1, hblock.2.1⟩
  have hown := h.own
  exact Piece.sized_free (Nat.dvd_add hlo hlen) (Nat.dvd_sub (by decide) hlen) (by omega) (by omega)

theorem Wf.rest_ne_nil (h : p.Wf) : p.rest ≠ [] := by
  intro hnil
  have hown := h.own
  have htiles := h.tiles
  rw [hnil] at htiles
  have : p.start + 8 + p.own = p.start + 4088 := htiles
  omega

theorem Wf.cleared (h : p.Wf) : p.cleared.Wf where
  flags := h.flags
  own := h.own
  tiles := h.hole_tiles
  kinds c hc := .inr (by rw [List.mem_singleton.mp hc]; rfl)
  single := .singleton _

end Page

/-- The pages `todo` have their first blocks only, and `done` are those that stay. -/
structure Resetting (s : Pool) (todo done : List Page) : Prop where
  rep : Rep s.pool s.mem (todo.flatMap Page.rest) (todo.flatMap Page.frame ++ done.flatMap Page.pieces)
  wf : ∀ p ∈ todo ++ done, p.Wf
  cleared : ∀ p ∈ done, ∀ c ∈ p.rest, c.kind = .free
  chunks : s.chunks.Perm ((todo ++ done).map fun p => (p.start, pageSize))
  pos : ∀ k ∈ s.chunks, 0 < k.1
  initPages : 0 < s.initPages
  main : ∃ p ∈ todo ++ done, p.start + 48 = s.pool ∧ p.flags = allocated ||| initial
  order : ∃ front, Holds (inMemory 8 s.mem) (head s.pool .page) (front ++ todo.map fun p => p.start + 16)
  used : s.used = overhead done
  msize : s.msize = 0

namespace Resetting

variable {s : Pool} {p : Page} {todo done : List Page}

theorem frame_mem (h : Resetting s (p :: todo) done) {c : Piece} (hc : c ∈ p.frame) :
    c.Sized s.pool ∧ c.Stored s.pool s.mem := by
  have hmem : c ∈ (p :: todo).flatMap Page.rest ++ ((p :: todo).flatMap Page.frame ++ done.flatMap Page.pieces) := by
    simp [hc]
  exact ⟨h.rep.sized c hmem, h.rep.stored c hmem⟩

/-- What the first block of the page says -/
theorem page_mem (h : Resetting s (p :: todo) done) :
    s.mem (p.start + 32) = p.start ∧ getSize (get s.mem (p.start + 8)) = p.own ∧
      (getInit (get s.mem p.start) ≠ 0 ↔ p.flags = allocated ||| initial) := by
  obtain ⟨hsized, hstored⟩ := h.frame_mem (c := p.block) (by simp [Page.frame])
  have hfirst : get s.mem p.start = pack 0 p.flags := (h.frame_mem (c := p.first) (by simp [Page.frame])).2
  refine ⟨hstored.2.2.1, (hstored.getSize hsized (.inl rfl)).1, ?_⟩
  rw [hfirst, getInit_pack (by decide)]
  rcases (h.wf p (by simp)).flags with heq | heq <;> rw [heq] <;> decide

/-- A page that was there from the beginning is cleared. -/
theorem clear (h : Resetting s (p :: todo) done) (hinit : p.flags = allocated ||| initial) : ∃ mem' used',
    s.resetPage (p.start + 16) = { s with mem := mem', used := used' } ∧
      Resetting { s with mem := mem', used := used' } todo (p.cleared :: done) := by
  obtain ⟨hstart, hsize, hflags⟩ := h.page_mem
  have hwf := h.wf p (by simp)
  have hown := hwf.own
  obtain ⟨hsized, hstored⟩ := h.frame_mem (c := p.block) (by simp [Page.frame])
  have hrep := h.rep
  rw [List.flatMap_cons, List.flatMap_cons] at hrep
  have hkinds : ∀ c ∈ p.rest, c.kind ≠ .own := by
    intro c hc
    rcases hwf.kinds c hc with hkind | hkind <;> rw [hkind] <;> exact Kind.noConfusion
  obtain ⟨mem', hfree, hput, horder⟩ := Pool.putFree_spec (f := p.hole) hrep hwf.tiles hwf.rest_ne_nil hkinds rfl
    hwf.hole_tiles (hwf.hole_sized hsized)
  have hnext : s.nextBlkp (p.start + 16) = p.hole.lo + 8 :=
    Pool.nextBlkp_eq (b := p.block) (n := p.hole) hsized hstored (.inl rfl) rfl
  have hclear : s.resetPage (p.start + 16) = { s with mem := mem', used := s.used + (p.own + 16 : ℕ) } := by
    have hrest : pageSize - p.own - 16 = p.hole.len := by
      simp only [Page.hole, pageSize]
      omega
    have hused : pageSize - p.hole.len = p.own + 16 := by
      simp only [Page.hole, pageSize]
      omega
    have hcond : getInit (get s.mem (s.mem (p.start + 16 + 16))) ≠ 0 := by
      rw [show s.mem (p.start + 16 + 16) = p.start from hstart]
      exact hflags.mpr hinit
    have hown : getSize (get s.mem (Pool.hdrp (p.start + 16))) = p.own := hsize
    rw [Pool.resetPage, if_pos hcond, hown, hrest, Pool.clearPage, hnext, hfree, hused]
  obtain ⟨front, hfront⟩ := h.order
  refine ⟨mem', _, hclear, hput.perm .rfl ?_, fun q hq => ?_, fun q hq c hc => ?_, ?_, h.pos, h.initPages, ?_,
    ⟨front ++ [p.start + 16], ?_⟩, ?_, h.msize⟩
  · refine List.perm_iff_count.mpr fun c => ?_
    simp only [Page.pieces, Page.cleared, Page.frame, List.flatMap_cons, List.count_append, List.count_cons,
      List.count_nil, Page.first, Page.block, Page.last]
    omega
  · rcases List.mem_append.mp hq with hq | hq
    · exact h.wf q (by simp [hq])
    · rcases List.mem_cons.mp hq with rfl | hq
      · exact hwf.cleared
      · exact h.wf q (by simp [hq])
  · rcases List.mem_cons.mp hq with rfl | hq
    · rw [List.mem_singleton.mp hc]
      rfl
    · exact h.cleared q hq c hc
  · refine h.chunks.trans ?_
    rw [List.cons_append, List.map_cons, List.map_append, List.map_append, List.map_cons]
    exact List.perm_middle.symm
  · obtain ⟨q, hq, hmain⟩ := h.main
    rcases List.mem_append.mp hq with hq | hq
    · rcases List.mem_cons.mp hq with rfl | hq
      · exact ⟨q.cleared, by simp, hmain⟩
      · exact ⟨q, by simp [hq], hmain⟩
    · exact ⟨q, by simp [hq], hmain⟩
  · rw [List.append_assoc, List.singleton_append]
    exact horder _ hfront
  · have hused := h.used
    simp only [overhead, List.map_cons, List.sum_cons, Page.cleared] at hused ⊢
    omega

/-- The next page in the list is not changed by that. -/
theorem next (h : Resetting s (p :: todo) done) :
    ((todo.map fun p : Page => p.start + 16) ++ [head s.pool .page]).head? = some (s.mem (p.start + 16)) := by
  obtain ⟨front, hfront⟩ := h.order
  exact hfront.next_eq

theorem start_ne (h : Resetting s (p :: todo) done) {q : Page} (hq : q ∈ todo ++ done) : q.start ≠ p.start := by
  have hrep := h.rep
  rw [List.flatMap_cons] at hrep
  have hpairs := (List.pairwise_append.mp hrep.apart).2.1
  have hqfirst : q.first ∈ [p.block, p.last] ++ todo.flatMap Page.frame ++ done.flatMap Page.pieces := by
    rcases List.mem_append.mp hq with hq | hq
    · exact List.mem_append_left _ (List.mem_append_right _ (List.mem_flatMap.mpr ⟨q, hq, by simp [Page.frame]⟩))
    · exact List.mem_append_right _ (List.mem_flatMap.mpr ⟨q, hq, by simp [Page.pieces, Page.frame]⟩)
  have hapart := (List.pairwise_cons.mp hpairs).1 q.first hqfirst
  simp only [Piece.Apart, Piece.hi, Page.first] at hapart
  omega

/-- A page that was added later is freed. -/
theorem discard (h : Resetting s (p :: todo) done) (hlater : p.flags ≠ allocated ||| initial) : ∃ mem' chunks',
    s.resetPage (p.start + 16) = { s with mem := mem', chunks := chunks' } ∧
      Resetting { s with mem := mem', chunks := chunks' } todo done := by
  obtain ⟨hstart, -, hflags⟩ := h.page_mem
  have hwf := h.wf p (by simp)
  have hchunk : (p.start, pageSize) ∈ s.chunks := h.chunks.mem_iff.mpr (by simp)
  have hrep := h.rep
  rw [List.flatMap_cons, List.flatMap_cons] at hrep
  have hperm : (p.frame ++ todo.flatMap Page.frame ++ done.flatMap Page.pieces).Perm
      (p.block :: ([p.first, p.last] ++ (todo.flatMap Page.frame ++ done.flatMap Page.pieces))) := by
    rw [List.append_assoc]
    exact List.Perm.swap _ _ _
  have hlisted : p.block.Listed .page (p.start + 16) := ⟨rfl, rfl⟩
  have hremoved : Rep s.pool (s.queueRemove (p.start + 16)).mem _ _ := (hrep.perm .rfl hperm).remove hlisted
  have hown := (hremoved.stored p.block List.mem_cons_self).2.2.1
  have hloose := Rep.unsettleAll [p.first, p.last] hremoved fun c hc q x hx => by
    simp only [List.mem_cons, List.not_mem_nil, or_false] at hc
    rcases hc with rfl | rfl <;> exact hx
  have hrow : Rep s.pool (s.queueRemove (p.start + 16)).mem ([p.first, p.last] ++ p.block :: p.rest ++
      todo.flatMap Page.rest) (todo.flatMap Page.frame ++ done.flatMap Page.pieces) := by simpa using hloose
  have hdropped := Rep.drop _ hrow fun c hc hmain => by
      rcases List.mem_append.mp hc with hc | hc
      · simp only [List.mem_cons, List.not_mem_nil, or_false] at hc
        rcases hc with rfl | rfl <;> exact Kind.noConfusion hmain.1
      · rcases List.mem_cons.mp hc with rfl | hc
        · obtain ⟨q, hq, hpool, hinit⟩ := h.main
          have hat : p.start + 48 = s.pool := hmain.2
          rcases List.mem_cons.mp hq with rfl | hq
          · exact hlater hinit
          · exact h.start_ne hq (by omega)
        · rcases hwf.kinds c hc with hkind | hkind <;> exact Kind.noConfusion (hkind.symm.trans hmain.1)
  have hreset : s.resetPage (p.start + 16) = { s with
      mem := (s.queueRemove (p.start + 16)).mem, chunks := s.chunks.filter fun k => k.1 ≠ p.start } := by
    have hcond : ¬ getInit (get s.mem (s.mem (p.start + 16 + 16))) ≠ 0 := by
      rw [show s.mem (p.start + 16 + 16) = p.start from hstart]
      exact fun hne => hlater (hflags.mp hne)
    have haddr : (s.queueRemove (p.start + 16)).mem (p.start + 16 + 16) = p.start := hown
    rw [Pool.resetPage, if_neg hcond]
    dsimp only
    rw [haddr, Pool.freeInternal_eq (h.pos _ hchunk) (by decide)]
    rfl
  obtain ⟨front, hfront⟩ := h.order
  refine ⟨_, _, hreset, hdropped, fun q hq => h.wf q (by simp at hq ⊢; tauto), h.cleared, ?_,
    fun k hk => h.pos k (List.mem_of_mem_filter hk), h.initPages, ?_, ⟨front, hrep.order_remove hfront⟩,
      h.used, h.msize⟩
  · refine chunks_filter (k := (p.start, pageSize)) h.chunks fun e he => ?_
    obtain ⟨q, hq, rfl⟩ := List.mem_map.mp he
    exact h.start_ne hq
  · obtain ⟨q, hq, hpool, hinit⟩ := h.main
    rcases List.mem_cons.mp hq with rfl | hq
    · exact absurd hinit hlater
    · exact ⟨q, hq, hpool, hinit⟩

/-- The loop comes to the end of the list. -/
theorem resetPages (h : Resetting s todo done) {n page : ℕ} (hn : todo.length ≤ n)
    (hpage : ((todo.map fun p : Page => p.start + 16) ++ [head s.pool .page]).head? = some page) :
    ∃ done', Resetting (s.resetPages n page) [] done' := by
  induction n generalizing s todo done page with
  | zero =>
    obtain rfl := List.length_eq_zero_iff.mp (Nat.le_zero.mp hn)
    exact ⟨done, h⟩
  | succ n ih =>
    cases todo with
    | nil =>
      obtain rfl : head s.pool .page = page := Option.some.inj hpage
      rw [Pool.resetPages]
      exact ⟨done, by rwa [if_pos (show head s.pool .page = s.page from rfl)]⟩
    | cons p todo =>
      obtain rfl : p.start + 16 = page := Option.some.inj hpage
      have hne : p.start + 16 ≠ s.page := by
        obtain ⟨front, hfront⟩ := h.order
        have hnodup := (List.nodup_cons.mp hfront.nodup).1
        refine fun heq => hnodup (List.mem_append_right _ ?_)
        rw [show head s.pool .page = p.start + 16 from heq.symm]
        exact List.mem_cons_self
      have hnext := h.next
      have hlength : todo.length ≤ n := Nat.le_of_succ_le_succ hn
      rw [Pool.resetPages, if_neg hne]
      by_cases hinit : p.flags = allocated ||| initial
      · obtain ⟨mem', used', heq, hclear⟩ := h.clear hinit
        rw [heq]
        exact ih hclear hlength hnext
      · obtain ⟨mem', chunks', heq, hdiscard⟩ := h.discard hinit
        rw [heq]
        exact ih hdiscard hlength hnext

theorem ordered (h : Resetting s [] done) : Ordered s [] done [] := by
  have hpieces : pieces done [] = done.flatMap Page.pieces := List.append_nil _
  have hothers : users (pieces done []) = [] := by
    refine List.filter_eq_nil_iff.mpr fun c hc => ?_
    obtain ⟨p, hp, hcp⟩ := List.mem_flatMap.mp (hpieces ▸ hc)
    rcases List.mem_append.mp hcp with hframe | hrest
    · simp only [Page.frame, List.mem_cons, List.not_mem_nil, or_false] at hframe
      rcases hframe with rfl | rfl | rfl <;> simp [Piece.isUser, Page.first, Page.block, Page.last]
    · simp [Piece.isUser, h.cleared p hp c hrest]
  have hrep := h.rep
  rw [List.flatMap_nil, List.flatMap_nil, List.nil_append, ← hpieces] at hrep
  refine ⟨⟨hrep, h.wf, fun c hc => absurd hc List.not_mem_nil, ?_, h.pos, h.initPages, h.main⟩, ⟨?_, ?_⟩, ?_⟩
  · rw [List.map_nil, List.append_nil]
    exact h.chunks
  · rw [hothers]
    exact h.msize
  · rw [h.msize, zero_add]
    exact h.used
  · rw [hothers]
    exact ⟨.rfl, fun b hb => absurd hb List.not_mem_nil⟩

end Resetting

/-! ## All of it -/

theorem Kept.flatMap_perm (pages : List Page) :
    (pages.flatMap Page.frame ++ pages.flatMap Page.rest).Perm (pieces pages []) := by
  rw [pieces, List.append_nil]
  exact List.flatMap_append_perm pages Page.frame Page.rest

/-- When the lists of the blocks are empty, what is behind the first blocks is loose. -/
theorem Kept.rep_frames {s : Pool} {pages : List Page} {mem' : ℕ → ℕ} (h : Kept s pages [])
    (hrep : Rep s.pool mem' ((pieces pages []).filter fun c => c.kind = .free)
      ((pieces pages []).filter fun c => !decide (c.kind = .free))) :
    Rep s.pool mem' (pages.flatMap Page.rest) (pages.flatMap Page.frame) := by
  have hperm := Kept.flatMap_perm pages
  have hframe : ∀ c ∈ pages.flatMap Page.frame, c.kind ≠ .free := by
    intro c hc
    obtain ⟨p, -, hcp⟩ := List.mem_flatMap.mp hc
    simp only [Page.frame, List.mem_cons, List.not_mem_nil, or_false] at hcp
    rcases hcp with rfl | rfl | rfl <;> exact Kind.noConfusion
  have hfree : ((pieces pages []).filter fun c => c.kind = .free).Perm
      ((pages.flatMap Page.rest).filter fun c => c.kind = .free) := by
    refine (hperm.symm.filter _).trans ?_
    rw [List.filter_append, List.filter_eq_nil_iff.mpr fun c hc => by simpa using hframe c hc, List.nil_append]
  have hother : ((pieces pages []).filter fun c => !decide (c.kind = .free)).Perm
      (((pages.flatMap Page.rest).filter fun c => !decide (c.kind = .free)) ++ pages.flatMap Page.frame) := by
    refine (hperm.symm.filter _).trans ?_
    rw [List.filter_append, List.filter_eq_self.mpr fun c hc => by simpa using hframe c hc]
    exact List.perm_append_comm
  have hloose := Rep.unsettleAll _ (hrep.perm hfree hother) fun c hc q x hlisted => by
    obtain ⟨hcr, hnot⟩ := List.mem_filter.mp hc
    obtain ⟨p, hp, hcp⟩ := List.mem_flatMap.mp hcr
    rcases (h.wf p hp).kinds c hcp with hkind | hkind
    · rw [Piece.Listed, hkind] at hlisted
      exact hlisted
    · simp [hkind] at hnot
  exact hloose.perm (List.perm_append_comm.trans (List.filter_append_perm _ _)) .rfl

theorem listed_frame {pages : List Page} {x : ℕ} :
    (∃ c ∈ pages.flatMap Page.frame, c.Listed .page x) ↔ x ∈ pages.map fun p => p.start + 16 := by
  constructor
  · rintro ⟨c, hc, hlisted⟩
    obtain ⟨p, hp, hcp⟩ := List.mem_flatMap.mp hc
    simp only [Page.frame, List.mem_cons, List.not_mem_nil, or_false] at hcp
    rcases hcp with rfl | rfl | rfl
    · exact False.elim hlisted
    · exact List.mem_map.mpr ⟨p, hp, hlisted.2.symm⟩
    · exact False.elim hlisted
  · intro hx
    obtain ⟨p, hp, rfl⟩ := List.mem_map.mp hx
    exact ⟨p.block, List.mem_flatMap.mpr ⟨p, hp, by simp [Page.frame]⟩, rfl, rfl⟩

/-- The loop over the pages begins, with the pages in the order of their list. -/
theorem Kept.resetting {s : Pool} {pages : List Page} {mem' : ℕ → ℕ} (size : ℕ) (h : Kept s pages [])
    (hrep : Rep s.pool mem' (pages.flatMap Page.rest) (pages.flatMap Page.frame)) :
    ∃ todo, todo.length = pages.length ∧
      Resetting { s with mem := mem', size := size, used := 0, msize := 0 } todo [] ∧
      ((todo.map fun p : Page => p.start + 16) ++ [head s.pool .page]).head? = some (mem' (head s.pool .page)) := by
  obtain ⟨lists, hfam, hlists⟩ := hrep.rings
  have hring := hfam.holds .page
  have hnodup : (pages.map fun p => p.start + 16).Nodup :=
    starts_nodup (f := Page.frame) (fun p => by simp [Page.frame]) (List.pairwise_append.mp hrep.apart).2.1
  have horder : (lists .page).Perm (pages.map fun p => p.start + 16) :=
    (List.perm_ext_iff_of_nodup (List.nodup_cons.mp hring.nodup).2 hnodup).mpr fun x => (hlists .page x).trans
      listed_frame
  obtain ⟨todo, hmap, htodo⟩ : ∃ todo : List Page, lists .page = todo.map (fun p => p.start + 16) ∧ todo.Perm pages :=
    (congrFun (congrFun (List.eq_map_comp_perm fun p : Page => p.start + 16) (lists .page)) pages).mpr horder
  have hmem : ∀ p, p ∈ todo ++ [] ↔ p ∈ pages := fun p => by rw [List.append_nil, htodo.mem_iff]
  refine ⟨todo, htodo.length_eq, ⟨?_, fun p hp => h.wf p ((hmem p).mp hp), fun p hp => absurd hp List.not_mem_nil, ?_,
    h.pos, h.initPages, ?_, ⟨[], ?_⟩, rfl, rfl⟩, ?_⟩
  · rw [List.flatMap_nil, List.append_nil]
    exact hrep.perm (htodo.symm.flatMap_right _) (htodo.symm.flatMap_right _)
  · refine h.chunks.trans ?_
    rw [List.map_nil, List.append_nil, List.append_nil]
    exact htodo.symm.map _
  · obtain ⟨p, hp, hmain⟩ := h.main
    exact ⟨p, (hmem p).mpr hp, hmain⟩
  · rw [List.nil_append, ← hmap]
    exact hring
  · rw [← hmap]
    exact hring.head_eq

/-- After the reset nothing is allocated. -/
theorem Kept.reset {s : Pool} {pages : List Page} {larges : List Piece} (h : Kept s pages larges) :
    ∃ pages', Ordered s.reset [] pages' [] := by
  have hlength : larges.length ≤ s.fuel := by
    have hle := h.length_le
    rw [pieces, List.length_append] at hle
    omega
  obtain ⟨mem₁, chunks₁, heq, hkept⟩ := h.freeLarges hlength
  let s₁ : Pool := { s with
    mem := mem₁, chunks := chunks₁, size := s.initPages * pageSize, used := 0, msize := 0 }
  have hinit : Rep s.pool (s₁.queueInit s₁.large).mem [] (pieces pages []) :=
    Rep.init [] hkept.rep (q := .large) (fun c hc => absurd hc List.not_mem_nil) fun c hc x hlisted => by
      have hkind : c.kind = .large := by
        obtain ⟨lo, len, kind⟩ := c
        cases kind <;> simp [Piece.Listed] at hlisted ⊢
      exact List.not_mem_nil (hkept.mem_larges hc hkind)
  obtain ⟨mem₂, hblocks, hrep⟩ := Pool.initBlocks_spec (s := s₁.queueInit s₁.large) hinit
  obtain ⟨todo, htodo, hresetting, hhead⟩ := hkept.resetting (s.initPages * pageSize) (hkept.rep_frames hrep)
  have hfuel : todo.length ≤ ({ s₁ with mem := mem₂ } : Pool).fuel := by
    have hsum : ({ s₁ with mem := mem₂ } : Pool).fuel = _ := hkept.fuel_eq
    rw [hsum, htodo]
    simp only [pageSize, List.map_nil, List.sum_nil]
    omega
  obtain ⟨done, hdone⟩ := hresetting.resetPages hfuel hhead
  refine ⟨done, ?_⟩
  have hreset : s.reset = ({ s₁ with mem := mem₂ } : Pool).resetPages ({ s₁ with mem := mem₂ } : Pool).fuel
      (mem₂ (head s.pool .page)) := by
    rw [Pool.reset, heq]
    change (s₁.queueInit s₁.large).initBlocks.resetPages (s₁.queueInit s₁.large).initBlocks.fuel
      ((s₁.queueInit s₁.large).initBlocks.mem (s₁.queueInit s₁.large).initBlocks.page) = _
    rw [hblocks]
    rfl
  rw [hreset]
  exact hdone.ordered

end Tefs.NameServer.MemPool
