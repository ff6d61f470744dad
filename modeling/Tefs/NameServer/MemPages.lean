import Tefs.NameServer.MemBlocks
import Mathlib.Algebra.BigOperators.Group.List.Basic
import Mathlib.Algebra.Order.BigOperators.Group.List
import Mathlib.Data.List.Perm.Subperm

/-! # The pages and the large blocks of the memory pool -/

namespace Tefs.NameServer.MemPool
open Tefs.Ring
set_option autoImplicit false

/-! ## Pages -/

/-- The page at `start`: the flags of its two ends, the size of its first block, and the blocks behind that one -/
structure Page where
  start : ℕ
  flags : ℕ
  own : ℕ
  rest : List Piece

namespace Page

def first (p : Page) : Piece := ⟨p.start, 8, .fence p.flags⟩

def block (p : Page) : Piece := ⟨p.start + 8, p.own, .own⟩

def last (p : Page) : Piece := ⟨p.start + 4088, 8, .fence p.flags⟩

/-- What a page has from the beginning -/
def frame (p : Page) : List Piece := [p.first, p.block, p.last]

def pieces (p : Page) : List Piece := p.frame ++ p.rest

/-- No two blocks in a row are free. -/
def Single (ps : List Piece) : Prop := ps.IsChain fun c d => c.kind ≠ .free ∨ d.kind ≠ .free

structure Wf (p : Page) : Prop where
  flags : p.flags = allocated ∨ p.flags = allocated ||| initial
  own : p.own ≤ 272
  tiles : Tiles (p.start + 8 + p.own) p.rest (p.start + 4088)
  kinds : ∀ c ∈ p.rest, c.kind = .used ∨ c.kind = .free
  single : Single p.rest

variable {p : Page} {c : Piece}

theorem Wf.bounds (h : p.Wf) (hc : c ∈ p.pieces) : p.start ≤ c.lo ∧ c.hi ≤ p.start + pageSize := by
  have hown := h.own
  rcases List.mem_append.mp hc with hc | hc
  · simp only [frame, List.mem_cons, List.not_mem_nil, or_false] at hc
    rcases hc with rfl | rfl | rfl <;> simp only [first, block, last, Piece.hi, pageSize] <;> omega
  · have := h.tiles.bounds hc
    simp only [pageSize]
    omega

theorem Wf.len_le (h : p.Wf) (hc : c ∈ p.pieces) : c.len ≤ pageSize := by
  obtain ⟨hlo, hhi⟩ := h.bounds hc
  rw [Piece.hi] at hhi
  omega

theorem Wf.isBlock (h : p.Wf) (hc : c ∈ p.rest) : c.IsBlock := by
  rcases h.kinds c hc with hused | hfree
  · exact .inr (.inr (.inl hused))
  · exact .inr (.inr (.inr hfree))

theorem flags_odd (h : p.Wf) : p.flags &&& 1 ≠ 0 := by
  rcases h.flags with heq | heq <;> rw [heq] <;> decide

end Page

/-- A row of pieces of at least eight bytes -/
theorem Tiles.length_le {lo hi : ℕ} {ps : List Piece} (h : Tiles lo ps hi) (hpos : ∀ c ∈ ps, 8 ≤ c.len) :
    lo + 8 * ps.length ≤ hi := by
  induction ps generalizing lo with
  | nil => exact le_of_eq h
  | cons c ps ih =>
    obtain ⟨rfl, h⟩ := h
    have hrest := ih h fun d hd => hpos d (List.mem_cons_of_mem _ hd)
    have := hpos c List.mem_cons_self
    simp only [Piece.hi, List.length_cons] at *
    omega

/-- No two pages begin at the same address. -/
theorem starts_nodup {pages : List Page} {f : Page → List Piece} (hf : ∀ p, p.first ∈ f p)
    (h : (pages.flatMap f).Pairwise Piece.Apart) : (pages.map fun p => p.start + 16).Nodup := by
  refine List.pairwise_map.mpr ((List.pairwise_flatMap.mp h).2.imp fun {p q} hpq heq => ?_)
  have hapart := hpq p.first (hf p) q.first (hf q)
  simp only [Piece.Apart, Piece.hi, Page.first] at hapart
  omega

/-! ## The pool -/

def pieces (pages : List Page) (larges : List Piece) : List Piece := pages.flatMap Page.pieces ++ larges

/-- The memory of the pool is that of these pages and these large blocks. -/
structure Kept (s : Pool) (pages : List Page) (larges : List Piece) : Prop where
  rep : Rep s.pool s.mem [] (pieces pages larges)
  wf : ∀ p ∈ pages, p.Wf
  large : ∀ c ∈ larges, c.kind = .large
  chunks : s.chunks.Perm (pages.map (fun p => (p.start, pageSize)) ++ larges.map fun c => (c.lo, c.len))
  pos : ∀ k ∈ s.chunks, 0 < k.1
  initPages : 0 < s.initPages
  main : ∃ p ∈ pages, p.start + 48 = s.pool ∧ p.flags = allocated ||| initial

section Pieces

variable {pages pages' : List Page} {larges larges' : List Piece} {c : Piece}

theorem mem_pieces : c ∈ pieces pages larges ↔ (∃ p ∈ pages, c ∈ p.pieces) ∨ c ∈ larges := by
  rw [pieces, List.mem_append, List.mem_flatMap]

theorem pieces_perm (hp : pages.Perm pages') (hl : larges.Perm larges') :
    (pieces pages larges).Perm (pieces pages' larges') :=
  (hp.flatMap_right Page.pieces).append hl

/-- All but the pieces between `l₁` and `l₂` in a page -/
def around (a b : List Page) (p : Page) (l₁ l₂ larges : List Piece) : List Piece :=
  p.frame ++ (l₁ ++ (l₂ ++ pieces (a ++ b) larges))

theorem pieces_around (a b : List Page) (larges : List Piece) {p : Page} {l₁ m l₂ : List Piece} (hp : p.rest = l₁ ++ m ++ l₂) :
    (pieces (a ++ p :: b) larges).Perm (m ++ around a b p l₁ l₂ larges) := by
  have hfirst : (pieces (a ++ p :: b) larges).Perm (p.pieces ++ pieces (a ++ b) larges) := by
    have hperm : (a ++ p :: b).Perm (p :: (a ++ b)) := List.perm_middle
    refine (pieces_perm hperm .rfl).trans ?_
    rw [pieces, List.flatMap_cons, List.append_assoc]
    exact .rfl
  refine hfirst.trans ?_
  rw [Page.pieces, hp, around]
  have hmid : (p.frame ++ (l₁ ++ m ++ l₂)).Perm (m ++ (p.frame ++ (l₁ ++ l₂))) := by
    rw [List.append_assoc l₁, ← List.append_assoc p.frame, ← List.append_assoc p.frame l₁ l₂]
    exact List.perm_append_comm_assoc (p.frame ++ l₁) m l₂
  refine (hmid.append_right _).trans ?_
  simp only [List.append_assoc]
  exact .rfl

end Pieces

namespace Kept

variable {s : Pool} {pages : List Page} {larges : List Piece} {c : Piece} {q : Queue} {x : ℕ}

theorem sized (h : Kept s pages larges) (hc : c ∈ pieces pages larges) : c.Sized s.pool := h.rep.sized c hc

theorem stored (h : Kept s pages larges) (hc : c ∈ pieces pages larges) : c.Stored s.pool s.mem := h.rep.stored c hc

theorem pairwise (h : Kept s pages larges) : (pieces pages larges).Pairwise Piece.Apart := h.rep.apart

/-- Every piece is in a block of the C library. -/
theorem inside (h : Kept s pages larges) (hc : c ∈ pieces pages larges) :
    ∃ k ∈ s.chunks, k.1 ≤ c.lo ∧ c.hi ≤ k.1 + k.2 := by
  rcases mem_pieces.mp hc with ⟨p, hp, hcp⟩ | hcl
  · refine ⟨(p.start, pageSize), h.chunks.mem_iff.mpr (List.mem_append_left _ ?_), (h.wf p hp).bounds hcp⟩
    exact List.mem_map.mpr ⟨p, hp, rfl⟩
  · refine ⟨(c.lo, c.len), h.chunks.mem_iff.mpr (List.mem_append_right _ ?_), le_rfl, le_rfl⟩
    exact List.mem_map.mpr ⟨c, hcl, rfl⟩

/-- What `malloc` of the C library returns has no byte in common with any piece. -/
theorem fresh (h : Kept s pages larges) (alloc : Allocator) {size : ℕ} (halign : 8 ∣ size) (hmin : 8 ≤ size)
    (hlt : size < 2 ^ 32) :
    Rep s.pool s.mem [⟨alloc.addr s.calls s.chunks size, size, .raw⟩] (pieces pages larges) := by
  refine h.rep.grow ⟨alloc.aligned _ _ _, halign, hlt, hmin⟩ trivial fun d hd => ?_
  obtain ⟨k, hk, hlo, hhi⟩ := h.inside hd
  have := alloc.fresh s.calls s.chunks size k hk
  simp only [Separate, Piece.Apart, Piece.hi] at *
  omega

theorem fuel_eq (h : Kept s pages larges) : s.fuel = pages.length * pageSize + (larges.map Piece.len).sum := by
  rw [Pool.fuel, (h.chunks.map Prod.snd).sum_eq, List.map_append, List.sum_append, List.map_map, List.map_map]
  congr 1
  simp [Function.comp_def]

/-- There are fewer pieces than bytes. -/
theorem length_le (h : Kept s pages larges) : (pieces pages larges).length ≤ s.fuel := by
  have hpage : ∀ p ∈ pages, p.pieces.length ≤ pageSize := by
    intro p hp
    have hsized : ∀ c ∈ p.rest, 8 ≤ c.len := fun c hc =>
      (h.sized (mem_pieces.mpr (.inl ⟨p, hp, List.mem_append_right _ hc⟩))).pos
    have := (h.wf p hp).tiles.length_le hsized
    simp only [Page.pieces, Page.frame, List.length_append, List.length_cons, List.length_nil, pageSize]
    omega
  have hlarge : larges.length ≤ (larges.map Piece.len).sum := by
    have hle := List.length_le_sum_of_one_le (larges.map Piece.len) fun n hn => by
      obtain ⟨c, hc, rfl⟩ := List.mem_map.mp hn
      have := (h.sized (mem_pieces.mpr (.inr hc))).pos
      omega
    rwa [List.length_map] at hle
  have hpages : (pages.flatMap Page.pieces).length ≤ pages.length * pageSize := by
    rw [List.length_flatMap]
    refine (List.sum_le_card_nsmul _ pageSize fun n hn => ?_).trans (by simp)
    obtain ⟨p, hp, rfl⟩ := List.mem_map.mp hn
    exact hpage p hp
  rw [h.fuel_eq, pieces, List.length_append]
  exact Nat.add_le_add hpages hlarge

/-- The nodes of a list are those of the pieces. -/
theorem walk (h : Kept s pages larges) (q : Queue) :
    (s.walk (head s.pool q)).Nodup ∧ ∀ x, x ∈ s.walk (head s.pool q) ↔ ∃ c ∈ pieces pages larges, c.Listed q x := by
  obtain ⟨l, hnodup, hl, hwalk⟩ := h.rep.walk q
  have hsub : l ⊆ (pieces pages larges).map fun c => if c.kind = .large then c.lo else c.lo + 8 := by
    intro x hx
    obtain ⟨c, hc, hlisted⟩ := (hl x).mp hx
    refine List.mem_map.mpr ⟨c, hc, ?_⟩
    obtain ⟨lo, len, kind⟩ := c
    cases kind <;> simp_all [Piece.Listed]
  have hlength := (List.subperm_of_subset hnodup hsub).length_le
  rw [List.length_map] at hlength
  rw [Pool.walk, hwalk s.fuel (hlength.trans h.length_le)]
  exact ⟨hnodup, hl⟩

end Kept

/-! ## A change in one page -/

theorem Tiles.swap {lo hi : ℕ} {l₁ l₂ m m' : List Piece} (h : Tiles lo (l₁ ++ m ++ l₂) hi)
    (hm : ∀ a b, Tiles a m b → Tiles a m' b) : Tiles lo (l₁ ++ m' ++ l₂) hi := by
  obtain ⟨b, hfront, hback⟩ := tiles_append.mp h
  obtain ⟨a, hleft, hmid⟩ := tiles_append.mp hfront
  exact tiles_append.mpr ⟨b, tiles_append.mpr ⟨a, hleft, hm a b hmid⟩, hback⟩

theorem single_append {l₁ l₂ : List Piece} : Page.Single (l₁ ++ l₂) ↔ Page.Single l₁ ∧ Page.Single l₂ ∧
    ∀ c ∈ l₁.getLast?, ∀ d ∈ l₂.head?, c.kind ≠ .free ∨ d.kind ≠ .free := List.isChain_append

namespace Kept

variable {s : Pool} {a b : List Page} {p : Page} {l₁ l₂ m m' larges : List Piece} {pages : List Page} {c : Piece}

/-- A block that can be taken or given back is in the back of a page. -/
theorem exists_page (h : Kept s pages larges) (hc : c ∈ pieces pages larges) (hkind : c.kind = .used ∨ c.kind = .free) :
    ∃ a p b l₁ l₂, pages = a ++ p :: b ∧ p.rest = l₁ ++ [c] ++ l₂ := by
  rcases mem_pieces.mp hc with ⟨p, hp, hcp⟩ | hcl
  · obtain ⟨a, b, hpages⟩ := List.append_of_mem hp
    rcases List.mem_append.mp hcp with hframe | hrest
    · simp only [Page.frame, List.mem_cons, List.not_mem_nil, or_false] at hframe
      rcases hframe with rfl | rfl | rfl <;> simp [Page.first, Page.block, Page.last] at hkind
    · obtain ⟨l₁, l₂, hrest⟩ := List.append_of_mem hrest
      exact ⟨a, p, b, l₁, l₂, hpages, by rw [hrest, List.append_assoc, List.singleton_append]⟩
  · rw [h.large c hcl] at hkind
    simp at hkind

/-- The blocks `m` of the page give way to the blocks `m'`. -/
theorem repage (h : Kept s (a ++ p :: b) larges) {mem' : ℕ → ℕ} (used msize : ℤ)
    (hrep : Rep s.pool mem' [] (m' ++ around a b p l₁ l₂ larges)) (hwf : { p with rest := l₁ ++ m' ++ l₂ : Page}.Wf) :
    Kept { s with mem := mem', used := used, msize := msize } (a ++ { p with rest := l₁ ++ m' ++ l₂ } :: b) larges := by
  have hmap : (a ++ { p with rest := l₁ ++ m' ++ l₂ } :: b).map (fun p => (p.start, pageSize)) =
      (a ++ p :: b).map fun p => (p.start, pageSize) := by
    rw [List.map_append, List.map_append, List.map_cons, List.map_cons]
  refine ⟨hrep.perm .rfl (pieces_around a b larges (p := { p with rest := l₁ ++ m' ++ l₂ }) rfl).symm, fun p' hp' => ?_, h.large,
    ?_, h.pos, h.initPages, ?_⟩
  · rcases List.mem_append.mp hp' with hp' | hp'
    · exact h.wf p' (List.mem_append_left _ hp')
    · rcases List.mem_cons.mp hp' with rfl | hp'
      · exact hwf
      · exact h.wf p' (List.mem_append_right _ (List.mem_cons_of_mem _ hp'))
  · rw [hmap]
    exact h.chunks
  · obtain ⟨p', hp', hmain⟩ := h.main
    rcases List.mem_append.mp hp' with hp' | hp'
    · exact ⟨p', List.mem_append_left _ hp', hmain⟩
    · rcases List.mem_cons.mp hp' with rfl | hp'
      · exact ⟨_, List.mem_append_right _ List.mem_cons_self, hmain⟩
      · exact ⟨p', List.mem_append_right _ (List.mem_cons_of_mem _ hp'), hmain⟩

end Kept

/-! ## The users -/

namespace Piece

/-- A user has the block. -/
def isUser (c : Piece) : Bool := c.kind = .used ∨ c.kind = .large

/-- The pointer that the user has -/
def ptr (c : Piece) : ℕ := if c.kind = .large then c.lo + 48 else c.lo + 16

/-- How many bytes it points to -/
def room (c : Piece) : ℕ := if c.kind = .large then c.len - 48 else c.len - 24

end Piece

/-- The blocks that users have -/
def users (ps : List Piece) : List Piece := ps.filter Piece.isUser

/-- The bytes of the blocks `us` -/
def held (us : List Piece) : ℤ := (us.map fun c => (c.len : ℤ)).sum

/-- The bytes of the pages that are for the pool itself -/
def overhead (pages : List Page) : ℤ := (pages.map fun p => (p.own + 16 : ℤ)).sum

/-- What the pool counts -/
structure Counted (s : Pool) (pages : List Page) (larges : List Piece) : Prop where
  msize : s.msize = held (users (pieces pages larges))
  used : s.used = s.msize + overhead pages

/-- The live pointers are those of the blocks `us`, and no block is too small. -/
structure Served (live : List (ℕ × ℕ)) (us : List Piece) : Prop where
  ptrs : (live.map Prod.fst).Perm (us.map Piece.ptr)
  enough : ∀ b ∈ live, ∀ c ∈ us, c.ptr = b.1 → b.2 ≤ c.room

section Users

variable {ps ps' us us' : List Piece} {c : Piece} {live : List (ℕ × ℕ)} {size : ℕ}

theorem mem_users : c ∈ users ps ↔ c ∈ ps ∧ c.isUser := List.mem_filter

theorem users_append (ps ps' : List Piece) : users (ps ++ ps') = users ps ++ users ps' := List.filter_append ..

theorem users_cons (hc : c.isUser) (ps : List Piece) : users (c :: ps) = c :: users ps := List.filter_cons_of_pos hc

theorem users_skip (hps : ∀ c ∈ ps, ¬ c.isUser) (ps' : List Piece) : users (ps ++ ps') = users ps' := by
  rw [users_append, users, List.filter_eq_nil_iff.mpr hps, List.nil_append]

theorem users_perm (h : ps.Perm ps') : (users ps).Perm (users ps') := h.filter _

theorem held_perm (h : us.Perm us') : held us = held us' := (h.map _).sum_eq

theorem held_cons (c : Piece) (us : List Piece) : held (c :: us) = c.len + held us := by
  rw [held, List.map_cons, List.sum_cons, held]

namespace Served

theorem perm (h : Served live us) (hp : us.Perm us') : Served live us' :=
  ⟨h.ptrs.trans (hp.map _), fun b hb c hc => h.enough b hb c (hp.mem_iff.mpr hc)⟩

/-- A block that is handed out -/
theorem cons (h : Served live us) (hsize : size ≤ c.room) (hptr : ∀ d ∈ us, d.ptr = c.ptr → d = c) :
    Served ((c.ptr, size) :: live) (c :: us) := by
  refine ⟨h.ptrs.cons _, fun b hb d hd heq => ?_⟩
  rcases List.mem_cons.mp hb with rfl | hlive
  · rcases List.mem_cons.mp hd with rfl | hd
    · exact hsize
    · rw [hptr d hd heq]
      exact hsize
  · rcases List.mem_cons.mp hd with rfl | hd
    · obtain ⟨e, he, hptr'⟩ := List.mem_map.mp (h.ptrs.mem_iff.mp (List.mem_map_of_mem hlive))
      obtain rfl := hptr e he (hptr'.trans heq.symm)
      exact h.enough b hlive e he heq
    · exact h.enough b hlive d hd heq

/-- A block that is given back -/
theorem tail (h : Served live (c :: us)) (hptr : ∀ d ∈ us, d.ptr ≠ c.ptr) :
    Served (live.filter fun b => b.1 ≠ c.ptr) us := by
  refine ⟨?_, fun b hb d hd => h.enough b (List.mem_of_mem_filter hb) d (List.mem_cons_of_mem _ hd)⟩
  have hfilter := h.ptrs.filter fun x => x ≠ c.ptr
  have hrest : (us.map Piece.ptr).filter (fun x => x ≠ c.ptr) = us.map Piece.ptr := by
    refine List.filter_eq_self.mpr fun x hx => ?_
    obtain ⟨d, hd, rfl⟩ := List.mem_map.mp hx
    exact decide_eq_true (hptr d hd)
  rw [List.map_cons, List.filter_cons_of_neg (by simp), hrest, List.filter_map] at hfilter
  exact hfilter

end Served

end Users

theorem overhead_repage (a b : List Page) (p : Page) (rest : List Piece) :
    overhead (a ++ { p with rest := rest } :: b) = overhead (a ++ p :: b) := by
  rw [overhead, overhead, List.map_append, List.map_append, List.map_cons, List.map_cons]

namespace Kept

variable {s : Pool} {pages : List Page} {larges : List Piece} {c d : Piece}

/-- The words before the bytes of a user -/
theorem user_tag (h : Kept s pages larges) (hc : c ∈ pieces pages larges) (huser : c.isUser) :
    s.mem (c.ptr - 8) = s.pool ∧ get s.mem (Pool.hdrp (c.ptr - 8)) = c.tag := by
  have hstored := h.stored hc
  obtain ⟨lo, len, kind⟩ := c
  simp only [Piece.isUser, decide_eq_true_eq] at huser
  rcases huser with rfl | rfl
  · exact ⟨hstored.2.2, hstored.1⟩
  · exact ⟨hstored.2.2.2, hstored.2.2.1⟩

/-- What the tag of a block says that a user has -/
theorem user (h : Kept s pages larges) (hc : c ∈ pieces pages larges) (huser : c.isUser) :
    s.sizeOf (c.ptr - 8) = c.len ∧ (getLarge (get s.mem (Pool.hdrp (c.ptr - 8))) ≠ 0 ↔ c.kind = .large) := by
  have hlen : 8 ∣ c.len := (h.sized hc).2.1
  rw [Pool.sizeOf, (h.user_tag hc huser).2]
  obtain ⟨lo, len, kind⟩ := c
  simp only [Piece.isUser, decide_eq_true_eq] at huser
  rcases huser with rfl | rfl
  · rw [Piece.tag, getSize_pack hlen (by decide), getLarge_pack hlen]
    exact ⟨rfl, iff_of_false (by decide) Kind.noConfusion⟩
  · rw [Piece.tag, getSize_pack hlen (by decide), getLarge_pack hlen]
    exact ⟨rfl, iff_of_true (by decide) rfl⟩

theorem payload (h : Kept s pages larges) (hc : c ∈ pieces pages larges) (huser : c.isUser) :
    s.payload c.ptr = c.room := by
  obtain ⟨hsize, hlarge⟩ := h.user hc huser
  rw [Pool.payload, hsize, Piece.room]
  exact if_congr hlarge rfl rfl

/-- The bytes of a user are in the block. -/
theorem user_bounds (h : Kept s pages larges) (hc : c ∈ pieces pages larges) (huser : c.isUser) :
    c.lo + 16 ≤ c.ptr ∧ c.ptr + c.room ≤ c.hi ∧ 8 ∣ c.ptr ∧ 8 ∣ c.room := by
  have hsized := h.sized hc
  obtain ⟨lo, len, kind⟩ := c
  simp only [Piece.isUser, decide_eq_true_eq] at huser
  rcases huser with rfl | rfl <;>
    simp only [Piece.Sized, Piece.ptr, Piece.room, Piece.hi, reduceCtorEq, if_false, if_true] at * <;> omega

/-- Two users have two pointers. -/
theorem ptr_injective (h : Kept s pages larges) (hc : c ∈ users (pieces pages larges))
    (hd : d ∈ users (pieces pages larges)) (heq : c.ptr = d.ptr) : c = d := by
  obtain ⟨hc, huserc⟩ := mem_users.mp hc
  obtain ⟨hd, huserd⟩ := mem_users.mp hd
  by_contra hne
  have hcin := h.user_bounds hc huserc
  have hdin := h.user_bounds hd huserd
  rcases h.rep.apart_of_ne hc hd hne with hapart | hapart
  · omega
  · omega

theorem apart_of_ne (h : Kept s pages larges) (hc : c ∈ pieces pages larges) (hd : d ∈ pieces pages larges)
    (hne : c ≠ d) :
    c.Apart d := h.rep.apart_of_ne hc hd hne

end Kept

/-- The pool, with what its users have -/
structure Ordered (s : Pool) (live : List (ℕ × ℕ)) (pages : List Page) (larges : List Piece) : Prop where
  kept : Kept s pages larges
  counted : Counted s pages larges
  served : Served live (users (pieces pages larges))

end Tefs.NameServer.MemPool
