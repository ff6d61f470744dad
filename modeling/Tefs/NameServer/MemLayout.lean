import Tefs.NameServer.MemPool

/-! # The layout of the memory pool

The memory of the pool in pieces: the words at the two ends of a page, its blocks, and the large blocks. It is known of
each piece what its tags and pointers are; the links of the lists stand at other words of it.
-/

namespace Tefs.NameServer.MemPool
open Tefs.Ring
set_option autoImplicit false

/-! ## Pieces -/

/-- Bytes of which nothing is known; an end of a page with its flags; the block of a `gfs_mem_page_t`; a block that is
allocated, without and with the pointer to the pool; a free block; a large one -/
inductive Kind
  | raw
  | fence (flags : ℕ)
  | own
  | busy
  | used
  | free
  | large
  deriving DecidableEq

structure Piece where
  lo : ℕ
  len : ℕ
  kind : Kind
  deriving DecidableEq

namespace Piece

def hi (c : Piece) : ℕ := c.lo + c.len

def tag (c : Piece) : ℕ :=
  match c.kind with
  | .fence flags => pack 0 flags
  | .free => pack c.len unallocated
  | .large => pack c.len (allocated ||| MemPool.large)
  | _ => pack c.len allocated

def Sized (pool : ℕ) (c : Piece) : Prop :=
  8 ∣ c.lo ∧ 8 ∣ c.len ∧ c.len < 2 ^ 32 ∧
    match c.kind with
    | .raw => 8 ≤ c.len
    | .fence flags => c.len = 8 ∧ flags < 8
    | .own => 48 ≤ c.len ∧ 8 ≤ c.lo ∧ (c.lo + 40 = pool → 272 ≤ c.len)
    | _ => 48 ≤ c.len

/-- What the tags and the pointers of the piece are -/
def Stored (pool : ℕ) (mem : ℕ → ℕ) (c : Piece) : Prop :=
  match c.kind with
  | .raw => True
  | .fence _ => get mem c.lo = c.tag
  | .own => get mem c.lo = c.tag ∧ get mem (c.hi - 8) = c.tag ∧ mem (c.lo + 24) = c.lo - 8 ∧
      mem (c.lo + 32) = c.lo - 8 + pageSize
  | .used => get mem c.lo = c.tag ∧ get mem (c.hi - 8) = c.tag ∧ mem (c.lo + 8) = pool
  | .large => mem (c.lo + 16) = c.lo ∧ mem (c.lo + 24) = c.len ∧ get mem (c.lo + 32) = c.tag ∧ mem (c.lo + 40) = pool
  | _ => get mem c.lo = c.tag ∧ get mem (c.hi - 8) = c.tag

/-- The words that are read there -/
def Cell (c : Piece) (a : ℕ) : Prop :=
  match c.kind with
  | .raw => False
  | .fence _ => a = c.lo
  | .own => a = c.lo ∨ a = c.hi - 8 ∨ a = c.lo + 24 ∨ a = c.lo + 32
  | .used => a = c.lo ∨ a = c.hi - 8 ∨ a = c.lo + 8
  | .large => a = c.lo + 16 ∨ a = c.lo + 24 ∨ a = c.lo + 32 ∨ a = c.lo + 40
  | _ => a = c.lo ∨ a = c.hi - 8

end Piece

/-- The lists of the pool -/
inductive Queue
  | page
  | block (i : Fin 8)
  | large
  deriving DecidableEq

def head (pool : ℕ) : Queue → ℕ
  | .page => pool
  | .block i => pool + 32 + 16 * i
  | .large => pool + 160

theorem getindex_lt (num : ℕ) : getindex num < 8 := by
  rw [getindex]
  split
  · omega
  next hmore =>
  split
  · omega
  next hless =>
  have hne : (num - 1) / 16 ≠ 0 := by omega
  have hlt : (num - 1) / 16 < 2 ^ 7 := by omega
  have := (Nat.log2_lt hne).mpr hlt
  omega

def classOf (num : ℕ) : Fin 8 := ⟨getindex num, getindex_lt num⟩

namespace Piece

/-- A node of a list in the piece -/
def Listed (c : Piece) (q : Queue) (x : ℕ) : Prop :=
  match c.kind with
  | .own => q = .page ∧ x = c.lo + 8
  | .free => q = .block (classOf c.len) ∧ x = c.lo + 8
  | .large => q = .large ∧ x = c.lo
  | _ => False

/-- The pool is in the piece. -/
def Main (pool : ℕ) (c : Piece) : Prop := c.kind = .own ∧ c.lo + 40 = pool

/-- A word with the word behind it that can hold links -/
def Spot (pool : ℕ) (c : Piece) (x : ℕ) : Prop := (∃ q, c.Listed q x) ∨ c.Main pool ∧ ∃ q, x = head pool q

def Apart (c d : Piece) : Prop := c.hi ≤ d.lo ∨ d.hi ≤ c.lo

variable {pool x y a : ℕ} {c d : Piece} {q : Queue} {mem mem' : ℕ → ℕ}

theorem Apart.symm (h : c.Apart d) : d.Apart c := Or.symm h

instance : Std.Symm Apart := ⟨fun _ _ => Apart.symm⟩

theorem head_bounds (pool : ℕ) (q : Queue) :
    pool ≤ head pool q ∧ head pool q ≤ pool + 160 ∧ 16 ∣ head pool q - pool := by
  cases q with
  | page => simp [head]
  | block i =>
    have := i.isLt
    simp only [head]
    omega
  | large =>
    simp only [head]
    omega

theorem head_injective (pool : ℕ) {q q' : Queue} (h : head pool q = head pool q') : q = q' := by
  cases q <;> cases q' <;> simp only [head] at h <;> first | rfl | omega | skip
  next i j =>
    congr 1
    apply Fin.ext
    omega

theorem Sized.spot (hs : c.Sized pool) (h : c.Spot pool x) :
    c.lo ≤ x ∧ x + 16 ≤ c.hi ∧ ∀ a, c.Cell a → a ≠ x ∧ a ≠ x + 8 := by
  obtain ⟨lo, len, kind⟩ := c
  rcases h with ⟨q, hq⟩ | ⟨⟨hkind, hpool⟩, q, rfl⟩
  · cases kind <;> simp only [Listed, Sized, Cell, hi] at * <;> grind
  · have := head_bounds pool q
    cases hkind
    simp only [Sized, Cell, hi] at *
    grind

theorem Sized.spot_spot (hs : c.Sized pool) (hx : c.Spot pool x) (hy : c.Spot pool y) : x + 8 ≠ y := by
  obtain ⟨lo, len, kind⟩ := c
  rcases hx with ⟨q, hq⟩ | ⟨⟨hkind, hpool⟩, q, rfl⟩
  · rcases hy with ⟨q', hq'⟩ | ⟨⟨hkind', hpool'⟩, q', rfl⟩
    · cases kind <;> simp only [Listed] at * <;> grind
    · have := head_bounds pool q'
      cases hkind'
      simp only [Listed] at *
      grind
  · have := head_bounds pool q
    rcases hy with ⟨q', hq'⟩ | ⟨-, q', rfl⟩
    · cases hkind
      simp only [Listed] at *
      grind
    · have := head_bounds pool q'
      omega

theorem Sized.cell (hs : c.Sized pool) (h : c.Cell a) : c.lo ≤ a ∧ a + 8 ≤ c.hi := by
  obtain ⟨lo, len, kind⟩ := c
  cases kind <;> simp only [Sized, Cell, hi] at * <;> grind

theorem Sized.pos (hs : c.Sized pool) : 8 ≤ c.len := by
  obtain ⟨lo, len, kind⟩ := c
  cases kind <;> simp only [Sized] at * <;> omega

theorem Stored.congr (h : c.Stored pool mem) (hcells : ∀ a, c.Cell a → mem' a = mem a) : c.Stored pool mem' := by
  obtain ⟨lo, len, kind⟩ := c
  cases kind <;> simp only [Stored, Cell, get] at * <;> grind

theorem Listed.eq {q' : Queue} (h : c.Listed q x) (h' : c.Listed q' y) : q = q' ∧ x = y := by
  obtain ⟨lo, len, kind⟩ := c
  cases kind <;> simp only [Listed] at * <;> grind

/-- No head is a node of the piece it stands in. -/
theorem Listed.ne_head (h : c.Listed q x) (hmain : c.Main pool) (q' : Queue) : x ≠ head pool q' := by
  obtain ⟨lo, len, kind⟩ := c
  have := head_bounds pool q'
  obtain ⟨hkind, hpool⟩ := hmain
  cases hkind
  simp only [Listed] at *
  omega

theorem Sized.not_apart_self (hs : c.Sized pool) : ¬ c.Apart c := by
  have := hs.pos
  simp only [Apart, hi]
  omega

theorem Sized.spot_ne (hc : c.Sized pool) (hd : d.Sized pool) (h : c.Apart d) (hx : c.Spot pool x)
    (hy : d.Spot pool y) :
    x + 16 ≤ y ∨ y + 16 ≤ x := by
  have hxin := hc.spot hx
  have hyin := hd.spot hy
  rcases h with h | h
  · omega
  · omega

end Piece

/-! ## The pool in its memory -/

/-- The pieces have no byte in common, the words say what they should, and the nodes of the lists are those of the pieces
`ps`; the pieces `loose` are in no list. -/
structure Rep (pool : ℕ) (mem : ℕ → ℕ) (loose ps : List Piece) : Prop where
  sized : ∀ c ∈ loose ++ ps, c.Sized pool
  apart : (loose ++ ps).Pairwise Piece.Apart
  stored : ∀ c ∈ loose ++ ps, c.Stored pool mem
  main : ∃ c ∈ loose ++ ps, c.Main pool
  rings : ∃ lists : Queue → List ℕ, Family (inMemory 8 mem) (head pool) lists ∧
    ∀ q x, x ∈ lists q ↔ ∃ c ∈ ps, c.Listed q x

namespace Rep

variable {pool x a : ℕ} {mem mem' : ℕ → ℕ} {loose ps R : List Piece} {c d : Piece} {q : Queue}
  {lists : Queue → List ℕ}

theorem perm {loose' ps' : List Piece} (h : Rep pool mem loose ps) (hl : loose.Perm loose') (hp : ps.Perm ps') :
    Rep pool mem loose' ps' := by
  have hperm := hl.append hp
  obtain ⟨lists, hfam, hlists⟩ := h.rings
  refine ⟨fun c hc => h.sized c (hperm.mem_iff.mpr hc), (hperm.pairwise_iff Piece.Apart.symm).mp h.apart,
    fun c hc => h.stored c (hperm.mem_iff.mpr hc), ?_, lists, hfam, fun q x => ?_⟩
  · obtain ⟨c, hc, hmain⟩ := h.main
    exact ⟨c, hperm.mem_iff.mp hc, hmain⟩
  · simp only [hlists, hp.mem_iff]

theorem apart_of_ne (h : Rep pool mem loose ps) (hc : c ∈ loose ++ ps) (hd : d ∈ loose ++ ps) (hne : c ≠ d) :
    c.Apart d :=
  h.apart.forall hc hd hne

/-- Every node is a spot of a piece. -/
theorem spot (h : Rep pool mem loose ps) (hlists : ∀ q x, x ∈ lists q ↔ ∃ c ∈ ps, c.Listed q x)
    (hx : x ∈ Family.nodes (head pool) lists) : ∃ c ∈ loose ++ ps, c.Spot pool x := by
  obtain ⟨q, hx⟩ := hx
  rcases List.mem_cons.mp hx with rfl | hx
  · obtain ⟨c, hc, hmain⟩ := h.main
    exact ⟨c, hc, .inr ⟨hmain, q, rfl⟩⟩
  · obtain ⟨c, hc, hlisted⟩ := (hlists q x).mp hx
    exact ⟨c, List.mem_append_right _ hc, .inl ⟨q, hlisted⟩⟩

theorem apart_nodes (h : Rep pool mem loose ps) {nodes : Set ℕ}
    (hnodes : ∀ x ∈ nodes, ∃ c ∈ loose ++ ps, c.Spot pool x) :
    Ring.Apart 8 nodes := by
  intro x hx y hy
  obtain ⟨c, hc, hcx⟩ := hnodes x hx
  obtain ⟨d, hd, hdy⟩ := hnodes y hy
  by_cases heq : c = d
  · subst heq
    exact (h.sized c hc).spot_spot hcx hdy
  · have := (h.sized c hc).spot_ne (h.sized d hd) (h.apart_of_ne hc hd heq) hcx hdy
    omega

/-- A word that a piece reads is no link. -/
theorem beside (h : Rep pool mem loose ps) {nodes : Set ℕ} (hnodes : ∀ x ∈ nodes, ∃ c ∈ loose ++ ps, c.Spot pool x)
    (hc : c ∈ loose ++ ps) (ha : c.Cell a) : Beside 8 nodes a := by
  intro y hy
  obtain ⟨d, hd, hdy⟩ := hnodes y hy
  by_cases heq : c = d
  · subst heq
    exact ((h.sized c hc).spot hdy).2.2 a ha
  · have hin := (h.sized c hc).cell ha
    have hyin := (h.sized d hd).spot hdy
    rcases h.apart_of_ne hc hd heq with hapart | hapart
    · omega
    · omega

/-- A node of a loose piece is in no list. -/
theorem notMem_nodes (h : Rep pool mem (c :: loose) ps) (hlists : ∀ q x, x ∈ lists q ↔ ∃ c ∈ ps, c.Listed q x)
    (hx : c.Listed q x) : x ∉ Family.nodes (head pool) lists := by
  have hc : c ∈ c :: loose ++ ps := List.mem_cons_self
  have hother : ∀ d ∈ c :: loose ++ ps, d.Spot pool x → d = c := by
    intro d hd hdx
    by_contra hne
    have := (h.sized d hd).spot_ne (h.sized c hc) (h.apart_of_ne hd hc hne) hdx (.inl ⟨q, hx⟩)
    omega
  rintro ⟨q', hmem⟩
  rcases List.mem_cons.mp hmem with heq | hmem
  · obtain ⟨d, hd, hmain⟩ := h.main
    obtain rfl := hother d hd (.inr ⟨hmain, q', heq⟩)
    exact hx.ne_head hmain q' heq
  · obtain ⟨d, hd, hlisted⟩ := (hlists q' x).mp hmem
    obtain rfl := hother d (List.mem_append_right _ hd) (.inl ⟨q', hlisted⟩)
    have hapart := (List.pairwise_append.mp h.apart).2.2 d List.mem_cons_self d hd
    exact (h.sized d hc).not_apart_self hapart

/-- A node is taken out of its list. -/
theorem remove (h : Rep pool mem loose (c :: R)) (hx : c.Listed q x) :
    Rep pool (removeAt 8 x mem) (c :: loose) R := by
  obtain ⟨lists, hfam, hlists⟩ := h.rings
  have hperm : (loose ++ c :: R).Perm (c :: loose ++ R) := List.perm_middle
  have hnodes : ∀ y ∈ Family.nodes (head pool) lists, ∃ d ∈ loose ++ c :: R, d.Spot pool y :=
    fun y hy => h.spot hlists hy
  obtain ⟨l₁, l₂, hq⟩ := List.append_of_mem ((hlists q x).mpr ⟨c, List.mem_cons_self, hx⟩)
  have hnotMem : x ∉ l₁ ++ l₂ := by
    have hring := hfam.holds q
    rw [hq] at hring
    exact fun hmem => hring.notMem_rest (List.mem_cons_of_mem _ hmem)
  have hapart : (c :: (loose ++ R)).Pairwise Piece.Apart := (hperm.pairwise_iff Piece.Apart.symm).mp h.apart
  have hother : ∀ d ∈ R, ∀ q', ¬ d.Listed q' x := by
    intro d hd q' hlisted
    have hcd := (List.pairwise_cons.mp hapart).1 d (List.mem_append_right _ hd)
    have := (h.sized c (List.mem_append_right _ List.mem_cons_self)).spot_ne
      (h.sized d (List.mem_append_right _ (List.mem_cons_of_mem _ hd))) hcd (.inl ⟨q, hx⟩) (.inl ⟨q', hlisted⟩)
    omega
  refine ⟨fun d hd => h.sized d (hperm.mem_iff.mpr hd), hapart, fun d hd => ?_, ?_, Function.update lists q (l₁ ++ l₂),
    hfam.removeAt (h.apart_nodes hnodes) hq, fun q' y => ?_⟩
  · have hd' := hperm.mem_iff.mpr hd
    exact (h.stored d hd').congr fun a ha => removeAt_beside (h.beside hnodes hd' ha) (hfam.next_mem hq)
      (hfam.prev_mem hq)
  · obtain ⟨d, hd, hmain⟩ := h.main
    exact ⟨d, hperm.mem_iff.mp hd, hmain⟩
  · by_cases heq : q' = q
    · subst heq
      have hmem := hlists q' y
      rw [hq, List.mem_append, List.mem_cons] at hmem
      rw [Function.update_self, List.mem_append]
      constructor
      · intro hy
        obtain ⟨d, hd, hlisted⟩ := hmem.mp (hy.imp_right .inr)
        rcases List.mem_cons.mp hd with rfl | hd
        · obtain ⟨-, rfl⟩ := hx.eq hlisted
          exact absurd (List.mem_append.mpr hy) hnotMem
        · exact ⟨d, hd, hlisted⟩
      · rintro ⟨d, hd, hlisted⟩
        rcases hmem.mpr ⟨d, List.mem_cons_of_mem _ hd, hlisted⟩ with hy | rfl | hy
        · exact .inl hy
        · exact absurd hlisted (hother d hd q')
        · exact .inr hy
    · rw [Function.update_of_ne heq, hlists]
      constructor
      · rintro ⟨d, hd, hlisted⟩
        rcases List.mem_cons.mp hd with rfl | hd
        · exact absurd (hx.eq hlisted).1.symm heq
        · exact ⟨d, hd, hlisted⟩
      · rintro ⟨d, hd, hlisted⟩
        exact ⟨d, List.mem_cons_of_mem _ hd, hlisted⟩

/-- A loose piece has got into the list `l`. -/
theorem inserted (h : Rep pool mem (c :: loose) R) (hlists : ∀ q x, x ∈ lists q ↔ ∃ c ∈ R, c.Listed q x)
    (hx : c.Listed q x) {l : List ℕ} (hl : ∀ y, y ∈ l ↔ y = x ∨ y ∈ lists q)
    (hfam : Family (inMemory 8 mem') (head pool) (Function.update lists q l))
    (hmem : ∀ a, Beside 8 (insert x (Family.nodes (head pool) lists)) a → mem' a = mem a) :
    Rep pool mem' loose (c :: R) := by
  have hperm : (c :: loose ++ R).Perm (loose ++ c :: R) := List.perm_middle.symm
  have hnodes : ∀ y ∈ insert x (Family.nodes (head pool) lists), ∃ d ∈ c :: loose ++ R, d.Spot pool y := by
    rintro y (rfl | hy)
    · exact ⟨c, List.mem_cons_self, .inl ⟨q, hx⟩⟩
    · exact h.spot hlists hy
  refine ⟨fun d hd => h.sized d (hperm.mem_iff.mpr hd), (hperm.pairwise_iff Piece.Apart.symm).mp h.apart,
    fun d hd => ?_, ?_, Function.update lists q l, hfam, fun q' y => ?_⟩
  · have hd' := hperm.mem_iff.mpr hd
    exact (h.stored d hd').congr fun a ha => hmem a (h.beside hnodes hd' ha)
  · obtain ⟨d, hd, hmain⟩ := h.main
    exact ⟨d, hperm.mem_iff.mp hd, hmain⟩
  · by_cases heq : q' = q
    · subst heq
      rw [Function.update_self, hl, hlists]
      constructor
      · rintro (rfl | ⟨d, hd, hlisted⟩)
        · exact ⟨c, List.mem_cons_self, hx⟩
        · exact ⟨d, List.mem_cons_of_mem _ hd, hlisted⟩
      · rintro ⟨d, hd, hlisted⟩
        rcases List.mem_cons.mp hd with rfl | hd
        · exact .inl (hlisted.eq hx).2
        · exact .inr ⟨d, hd, hlisted⟩
    · rw [Function.update_of_ne heq, hlists]
      constructor
      · rintro ⟨d, hd, hlisted⟩
        exact ⟨d, List.mem_cons_of_mem _ hd, hlisted⟩
      · rintro ⟨d, hd, hlisted⟩
        rcases List.mem_cons.mp hd with rfl | hd
        · exact absurd (hlisted.eq hx).1 heq
        · exact ⟨d, hd, hlisted⟩

/-- With a new node, the nodes are still apart. -/
theorem apart_insert (h : Rep pool mem (c :: loose) R) (hlists : ∀ q x, x ∈ lists q ↔ ∃ c ∈ R, c.Listed q x)
    (hx : c.Listed q x) : Ring.Apart 8 (insert x (Family.nodes (head pool) lists)) := by
  refine h.apart_nodes ?_
  rintro y (rfl | hy)
  · exact ⟨c, List.mem_cons_self, .inl ⟨q, hx⟩⟩
  · exact h.spot hlists hy

theorem insertHead (h : Rep pool mem (c :: loose) R) (hx : c.Listed q x) :
    Rep pool (insertHeadAt 8 (head pool q) x mem) loose (c :: R) := by
  obtain ⟨lists, hfam, hlists⟩ := h.rings
  refine h.inserted hlists hx (fun y => List.mem_cons)
    (hfam.insertHeadAt (h.apart_insert hlists hx) (h.notMem_nodes hlists hx) q) fun a ha => ?_
  exact insertHeadAt_beside ha (.inr (Family.head_mem _ _ q)) (.inl rfl) (.inr (hfam.next_head_mem q))

theorem insertTail (h : Rep pool mem (c :: loose) R) (hx : c.Listed q x) :
    Rep pool (insertTailAt 8 (head pool q) x mem) loose (c :: R) := by
  obtain ⟨lists, hfam, hlists⟩ := h.rings
  refine h.inserted hlists hx (l := lists q ++ [x]) (fun y => by simp [or_comm])
    (hfam.insertTailAt (h.apart_insert hlists hx) (h.notMem_nodes hlists hx) q) fun a ha => ?_
  exact insertTailAt_beside ha (.inr (Family.head_mem _ _ q)) (.inl rfl) (.inr (hfam.prev_head_mem q))

/-- A list is emptied; the pieces `mid` are those that were in it. -/
theorem init (mid : List Piece) (h : Rep pool mem loose (mid ++ R)) (hmid : ∀ c ∈ mid, ∀ q' x, c.Listed q' x → q' = q)
    (hR : ∀ c ∈ R, ∀ x, ¬ c.Listed q x) : Rep pool (initAt 8 (head pool q) mem) (mid ++ loose) R := by
  obtain ⟨lists, hfam, hlists⟩ := h.rings
  have hperm : (loose ++ (mid ++ R)).Perm (mid ++ loose ++ R) := by
    rw [← List.append_assoc]
    exact List.perm_append_comm.append_right R
  have hnodes : ∀ y ∈ Family.nodes (head pool) lists, ∃ d ∈ loose ++ (mid ++ R), d.Spot pool y :=
    fun y hy => h.spot hlists hy
  refine ⟨fun d hd => h.sized d (hperm.mem_iff.mpr hd), (hperm.pairwise_iff Piece.Apart.symm).mp h.apart,
    fun d hd => ?_, ?_, Function.update lists q [], hfam.initAt (h.apart_nodes hnodes) q, fun q' y => ?_⟩
  · have hd' := hperm.mem_iff.mpr hd
    exact (h.stored d hd').congr fun a ha => initAt_beside (h.beside hnodes hd' ha) (Family.head_mem _ _ q)
  · obtain ⟨d, hd, hmain⟩ := h.main
    exact ⟨d, hperm.mem_iff.mp hd, hmain⟩
  · by_cases heq : q' = q
    · subst heq
      rw [Function.update_self]
      refine iff_of_false List.not_mem_nil ?_
      rintro ⟨d, hd, hlisted⟩
      exact hR d hd y hlisted
    · rw [Function.update_of_ne heq, hlists]
      constructor
      · rintro ⟨d, hd, hlisted⟩
        rcases List.mem_append.mp hd with hd | hd
        · exact absurd (hmid d hd q' y hlisted) heq
        · exact ⟨d, hd, hlisted⟩
      · rintro ⟨d, hd, hlisted⟩
        exact ⟨d, List.mem_append_right _ hd, hlisted⟩

/-- Where no listed piece is, the memory may change: the nodes keep their links. -/
theorem links_kept {mid : List Piece} {lo hi : ℕ} (h : Rep pool mem (mid ++ loose) R)
    (hmem : ∀ a, a + 8 ≤ lo ∨ hi ≤ a → mem' a = mem a) (hrest : ∀ d ∈ loose ++ R, d.hi ≤ lo ∨ hi ≤ d.lo)
    (hmain : ∀ c ∈ mid, ¬ c.Main pool) (hlists : ∀ q x, x ∈ lists q ↔ ∃ c ∈ R, c.Listed q x) :
    ∀ y ∈ Family.nodes (head pool) lists, mem' y = mem y ∧ mem' (y + 8) = mem (y + 8) := by
  rintro y ⟨q, hy⟩
  obtain ⟨d, hd, hspot⟩ : ∃ d ∈ loose ++ R, d.Spot pool y := by
    rcases List.mem_cons.mp hy with rfl | hy
    · obtain ⟨d, hd, hd'⟩ := h.main
      rw [List.append_assoc, List.mem_append] at hd
      exact ⟨d, hd.resolve_left fun hd => hmain d hd hd', .inr ⟨hd', q, rfl⟩⟩
    · obtain ⟨d, hd, hlisted⟩ := (hlists q y).mp hy
      exact ⟨d, List.mem_append_right _ hd, .inl ⟨q, hlisted⟩⟩
  have hsized : d.Sized pool := by
    refine h.sized d ?_
    rw [List.append_assoc]
    exact List.mem_append_right _ hd
  have hin := hsized.spot hspot
  have := hrest d hd
  exact ⟨hmem y (by omega), hmem (y + 8) (by omega)⟩

/-- Where no listed piece is, the memory is changed: the pieces `mid` give way to the pieces `mid'`. -/
theorem replace {mid mid' : List Piece} {lo hi : ℕ} (h : Rep pool mem (mid ++ loose) R)
    (hmem : ∀ a, a + 8 ≤ lo ∨ hi ≤ a → mem' a = mem a) (hrest : ∀ d ∈ loose ++ R, d.hi ≤ lo ∨ hi ≤ d.lo)
    (hmid : ∀ c ∈ mid', lo ≤ c.lo ∧ c.hi ≤ hi ∧ c.Sized pool ∧ c.Stored pool mem') (hapart : mid'.Pairwise Piece.Apart)
    (hmain : ∀ c ∈ mid, ¬ c.Main pool) : Rep pool mem' (mid' ++ loose) R := by
  have hsub : ∀ d ∈ loose ++ R, d ∈ mid ++ loose ++ R := by
    intro d hd
    rw [List.append_assoc]
    exact List.mem_append_right _ hd
  have hold := h.apart
  rw [List.append_assoc] at hold
  obtain ⟨lists, hfam, hlists⟩ := h.rings
  have hlink := h.links_kept hmem hrest hmain hlists
  refine ⟨fun c hc => ?_, ?_, fun c hc => ?_, ?_, lists, ?_, hlists⟩
  · rw [List.append_assoc] at hc
    rcases List.mem_append.mp hc with hc | hc
    · exact (hmid c hc).2.2.1
    · exact h.sized c (hsub c hc)
  · rw [List.append_assoc, List.pairwise_append]
    refine ⟨hapart, (List.pairwise_append.mp hold).2.1, fun c hc d hd => ?_⟩
    have hin := hmid c hc
    rcases hrest d hd with hd | hd
    · exact .inr (hd.trans hin.1)
    · exact .inl (hin.2.1.trans hd)
  · rw [List.append_assoc] at hc
    rcases List.mem_append.mp hc with hc | hc
    · exact (hmid c hc).2.2.2
    · refine (h.stored c (hsub c hc)).congr fun a ha => hmem a ?_
      have hin := (h.sized c (hsub c hc)).cell ha
      have := hrest c hc
      omega
  · obtain ⟨d, hd, hd'⟩ := h.main
    rw [List.append_assoc, List.mem_append] at hd
    refine ⟨d, ?_, hd'⟩
    rw [List.append_assoc]
    exact List.mem_append_right _ (hd.resolve_left fun hd => hmain d hd hd')
  · exact hfam.congr (fun y hy => (hlink y hy).1) fun y hy => (hlink y hy).2

/-- A word of a piece is stored that is neither read nor a link. -/
theorem write {v : ℕ} (h : Rep pool mem loose ps) (hc : c ∈ loose ++ ps) (hlo : c.lo ≤ a) (hhi : a + 8 ≤ c.hi)
    (hcell : ¬ c.Cell a) (hspot : ∀ x, c.Spot pool x → a ≠ x ∧ a ≠ x + 8) : Rep pool (put a v mem) loose ps := by
  have hother : ∀ d ∈ loose ++ ps, d ≠ c → ∀ y, d.lo ≤ y → y + 8 ≤ d.hi → y ≠ a := by
    intro d hd hne y hy hy'
    rcases h.apart_of_ne hd hc hne with hapart | hapart
    · omega
    · omega
  obtain ⟨lists, hfam, hlists⟩ := h.rings
  have hlink : ∀ y ∈ Family.nodes (head pool) lists, y ≠ a ∧ y + 8 ≠ a := by
    intro y hy
    obtain ⟨d, hd, hdy⟩ := h.spot hlists hy
    by_cases heq : d = c
    · subst heq
      exact ⟨(hspot y hdy).1.symm, (hspot y hdy).2.symm⟩
    · have hin := (h.sized d hd).spot hdy
      exact ⟨hother d hd heq y hin.1 (by omega), hother d hd heq (y + 8) (by omega) (by omega)⟩
  refine ⟨h.sized, h.apart, fun d hd => (h.stored d hd).congr fun b hb => put_of_ne ?_, h.main, lists,
    hfam.congr (fun y hy => put_of_ne (hlink y hy).1) (fun y hy => put_of_ne (hlink y hy).2), hlists⟩
  by_cases heq : d = c
  · rintro rfl
    exact hcell (heq ▸ hb)
  · have hin := (h.sized d hd).cell hb
    exact hother d hd heq b hin.1 hin.2

/-- There is a new piece. -/
theorem grow (h : Rep pool mem loose R) (hc : c.Sized pool) (hstored : c.Stored pool mem)
    (hapart : ∀ d ∈ loose ++ R, c.Apart d) : Rep pool mem (c :: loose) R := by
  obtain ⟨d, hd, hmain⟩ := h.main
  refine ⟨fun e he => ?_, List.pairwise_cons.mpr ⟨hapart, h.apart⟩, fun e he => ?_,
    ⟨d, List.mem_cons_of_mem _ hd, hmain⟩, h.rings⟩
  · rcases List.mem_cons.mp he with rfl | he
    · exact hc
    · exact h.sized e he
  · rcases List.mem_cons.mp he with rfl | he
    · exact hstored
    · exact h.stored e he

/-- Loose pieces are gone. -/
theorem drop (mid : List Piece) (h : Rep pool mem (mid ++ loose) R) (hmain : ∀ c ∈ mid, ¬ c.Main pool) :
    Rep pool mem loose R := by
  have hsub : ∀ d ∈ loose ++ R, d ∈ mid ++ loose ++ R := by
    intro d hd
    rw [List.append_assoc]
    exact List.mem_append_right _ hd
  have hapart := h.apart
  rw [List.append_assoc] at hapart
  obtain ⟨d, hd, hd'⟩ := h.main
  rw [List.append_assoc, List.mem_append] at hd
  exact ⟨fun d hd => h.sized d (hsub d hd), (List.pairwise_append.mp hapart).2.1, fun d hd => h.stored d (hsub d hd),
    ⟨d, hd.resolve_left fun hd => hmain d hd hd', hd'⟩, h.rings⟩

/-- A piece that is in no list may be counted among those that are. -/
theorem settle (h : Rep pool mem (c :: loose) R) (hc : ∀ q x, ¬ c.Listed q x) : Rep pool mem loose (c :: R) := by
  have hperm : (c :: loose ++ R).Perm (loose ++ c :: R) := List.perm_middle.symm
  obtain ⟨lists, hfam, hlists⟩ := h.rings
  refine ⟨fun d hd => h.sized d (hperm.mem_iff.mpr hd), (hperm.pairwise_iff Piece.Apart.symm).mp h.apart,
    fun d hd => h.stored d (hperm.mem_iff.mpr hd), ?_, lists, hfam, fun q x => ?_⟩
  · obtain ⟨d, hd, hmain⟩ := h.main
    exact ⟨d, hperm.mem_iff.mp hd, hmain⟩
  · rw [hlists, List.exists_mem_cons_iff, or_iff_right (hc q x)]

theorem unsettle (h : Rep pool mem loose (c :: R)) (hc : ∀ q x, ¬ c.Listed q x) : Rep pool mem (c :: loose) R := by
  have hperm : (loose ++ c :: R).Perm (c :: loose ++ R) := List.perm_middle
  obtain ⟨lists, hfam, hlists⟩ := h.rings
  refine ⟨fun d hd => h.sized d (hperm.mem_iff.mpr hd), (hperm.pairwise_iff Piece.Apart.symm).mp h.apart,
    fun d hd => h.stored d (hperm.mem_iff.mpr hd), ?_, lists, hfam, fun q x => ?_⟩
  · obtain ⟨d, hd, hmain⟩ := h.main
    exact ⟨d, hperm.mem_iff.mp hd, hmain⟩
  · rw [hlists, List.exists_mem_cons_iff, or_iff_right (hc q x)]

/-- Pieces that are in no list -/
theorem unsettleAll (mid : List Piece) (h : Rep pool mem loose (mid ++ R)) (hmid : ∀ c ∈ mid, ∀ q x, ¬ c.Listed q x) :
    Rep pool mem (mid ++ loose) R := by
  induction mid generalizing loose with
  | nil => exact h
  | cons c mid ih =>
    have hrest := ih (h.unsettle (hmid c List.mem_cons_self)) fun d hd => hmid d (List.mem_cons_of_mem _ hd)
    exact hrest.perm List.perm_middle .rfl

/-! ### The order of a list -/

variable {l l₁ l₂ : List ℕ} {q' : Queue}

theorem order_remove (h : Rep pool mem loose ps) (hl : Holds (inMemory 8 mem) (head pool q) (l₁ ++ x :: l₂)) :
    Holds (inMemory 8 (removeAt 8 x mem)) (head pool q) (l₁ ++ l₂) := by
  obtain ⟨lists, hfam, hlists⟩ := h.rings
  have hholds := (hfam.removeAt (h.apart_nodes fun y hy => h.spot hlists hy) ((hfam.holds q).unique hl)).holds q
  rwa [Function.update_self] at hholds

theorem order_insertHead (h : Rep pool mem (c :: loose) R) (hx : c.Listed q x) (hne : q' ≠ q)
    (hl : Holds (inMemory 8 mem) (head pool q') l) :
    Holds (inMemory 8 (insertHeadAt 8 (head pool q) x mem)) (head pool q') l := by
  obtain ⟨lists, hfam, hlists⟩ := h.rings
  have hholds := (hfam.insertHeadAt (h.apart_insert hlists hx) (h.notMem_nodes hlists hx) q).holds q'
  rwa [Function.update_of_ne hne, (hfam.holds q').unique hl] at hholds

theorem order_replace {mid : List Piece} {lo hi : ℕ} (h : Rep pool mem (mid ++ loose) R)
    (hmem : ∀ a, a + 8 ≤ lo ∨ hi ≤ a → mem' a = mem a) (hrest : ∀ d ∈ loose ++ R, d.hi ≤ lo ∨ hi ≤ d.lo)
    (hmain : ∀ c ∈ mid, ¬ c.Main pool) (hl : Holds (inMemory 8 mem) (head pool q) l) :
    Holds (inMemory 8 mem') (head pool q) l := by
  obtain ⟨lists, hfam, hlists⟩ := h.rings
  have hlink := h.links_kept hmem hrest hmain hlists
  obtain rfl := (hfam.holds q).unique hl
  exact hl.congr (fun y hy => (hlink y ⟨q, hy⟩).1) fun y hy => (hlink y ⟨q, hy⟩).2

/-- The nodes of a list, as a walk finds them -/
theorem walk (h : Rep pool mem loose ps) (q : Queue) : ∃ l : List ℕ, l.Nodup ∧ (∀ x, x ∈ l ↔ ∃ c ∈ ps, c.Listed q x) ∧
    ∀ fuel, l.length ≤ fuel → (inMemory 8 mem).walk (head pool q) fuel (mem (head pool q)) = l := by
  obtain ⟨lists, hfam, hlists⟩ := h.rings
  exact ⟨lists q, (List.nodup_cons.mp (hfam.holds q).nodup).2, hlists q, fun fuel hfuel => (hfam.holds q).walk hfuel⟩

/-- The first node of a list, and what is the first when it is taken out -/
theorem first (h : Rep pool mem loose ps) (q : Queue) :
    (mem (head pool q) = head pool q ∧ ∀ c ∈ ps, ∀ x, ¬ c.Listed q x) ∨
      mem (head pool q) ≠ head pool q ∧ (∃ c ∈ ps, c.Listed q (mem (head pool q))) ∧
        removeAt 8 (mem (head pool q)) mem (head pool q) = mem (mem (head pool q)) := by
  obtain ⟨lists, hfam, hlists⟩ := h.rings
  have hring := hfam.holds q
  have hfirst := hring.head_eq
  cases hl : lists q with
  | nil =>
    left
    rw [hl] at hfirst
    refine ⟨(Option.some.inj hfirst).symm, fun c hc x hlisted => ?_⟩
    have hmem := (hlists q x).mpr ⟨c, hc, hlisted⟩
    rw [hl] at hmem
    exact List.not_mem_nil hmem
  | cons x l =>
    right
    rw [hl] at hfirst hring
    obtain rfl : x = mem (head pool q) := Option.some.inj hfirst
    refine ⟨fun heq => ?_, (hlists q _).mp (hl ▸ List.mem_cons_self), ?_⟩
    · have hnodup := (List.nodup_cons.mp hring.nodup).1
      rw [heq] at hnodup
      exact hnodup List.mem_cons_self
    · have hfront : lists q = [] ++ mem (head pool q) :: l := hl
      have hnext : (l ++ [head pool q]).head? = some (mem (mem (head pool q))) :=
        Holds.next_eq (show Holds _ _ ([] ++ _ :: l) from hring)
      have hremoved := (hfam.removeAt (h.apart_nodes fun y hy => h.spot hlists hy) hfront).holds q
      rw [Function.update_self] at hremoved
      exact Option.some.inj (hremoved.head_eq.symm.trans hnext)

end Rep

/-! ## Pieces in a row -/

/-- The pieces lie one after the other from `lo` to `hi`. -/
def Tiles : ℕ → List Piece → ℕ → Prop
  | lo, [], hi => lo = hi
  | lo, c :: ps, hi => c.lo = lo ∧ Tiles c.hi ps hi

theorem tiles_append {lo hi : ℕ} {l₁ l₂ : List Piece} :
    Tiles lo (l₁ ++ l₂) hi ↔ ∃ mid, Tiles lo l₁ mid ∧ Tiles mid l₂ hi := by
  induction l₁ generalizing lo with
  | nil => simp [Tiles]
  | cons c l₁ ih => simp [Tiles, ih, and_assoc]

theorem Tiles.le {lo hi : ℕ} {ps : List Piece} (h : Tiles lo ps hi) : lo ≤ hi := by
  induction ps generalizing lo with
  | nil => exact le_of_eq h
  | cons c ps ih =>
    obtain ⟨rfl, h⟩ := h
    exact (Nat.le_add_right _ _).trans (ih h)

theorem Tiles.bounds {lo hi : ℕ} {ps : List Piece} (h : Tiles lo ps hi) {c : Piece} (hc : c ∈ ps) :
    lo ≤ c.lo ∧ c.hi ≤ hi := by
  induction ps generalizing lo with
  | nil => exact absurd hc List.not_mem_nil
  | cons d ps ih =>
    obtain ⟨rfl, h⟩ := h
    rcases List.mem_cons.mp hc with rfl | hc
    · exact ⟨le_rfl, h.le⟩
    · obtain ⟨hlo, hhi⟩ := ih h hc
      exact ⟨(Nat.le_add_right _ _).trans hlo, hhi⟩

theorem Tiles.pairwise {lo hi : ℕ} {ps : List Piece} (h : Tiles lo ps hi) : ps.Pairwise Piece.Apart := by
  induction ps generalizing lo with
  | nil => exact .nil
  | cons c ps ih => exact .cons (fun d hd => .inl (h.2.bounds hd).1) (ih h.2)

/-- What has no byte in common with the pieces of a row lies before or behind all of them. -/
theorem Tiles.outside {lo hi : ℕ} {ps : List Piece} (h : Tiles lo ps hi) (hne : ps ≠ []) {d : Piece} (hd : 0 < d.len)
    (hapart : ∀ c ∈ ps, c.Apart d) (hpos : ∀ c ∈ ps, 0 < c.len) : d.hi ≤ lo ∨ hi ≤ d.lo := by
  induction ps generalizing lo with
  | nil => exact absurd rfl hne
  | cons c ps ih =>
    obtain ⟨rfl, h⟩ := h
    have hc := hapart c List.mem_cons_self
    by_cases hnil : ps = []
    · subst hnil
      rw [← show c.hi = hi from h]
      exact hc.symm
    · have hrest :=
        ih h hnil (fun e he => hapart e (List.mem_cons_of_mem _ he)) fun e he => hpos e (List.mem_cons_of_mem _ he)
      have := hpos c List.mem_cons_self
      simp only [Piece.Apart, Piece.hi] at *
      omega

namespace Rep

section Row

variable {pool lo hi : ℕ} {mem mem' : ℕ → ℕ} {loose R mid mid' : List Piece}

theorem outside_row (h : Rep pool mem (mid ++ loose) R) (ht : Tiles lo mid hi) (hne : mid ≠ []) :
    ∀ d ∈ loose ++ R, d.hi ≤ lo ∨ hi ≤ d.lo := by
  intro d hd
  have hapart := h.apart
  have hin : ∀ e ∈ mid ++ (loose ++ R), e.Sized pool := by
    rw [← List.append_assoc]
    exact h.sized
  rw [List.append_assoc, List.pairwise_append] at hapart
  have hpos : ∀ e ∈ mid ++ (loose ++ R), 0 < e.len := fun e he => (Nat.zero_lt_succ 7).trans_le (hin e he).pos
  exact ht.outside hne (hpos d (List.mem_append_right _ hd)) (fun c hc => hapart.2.2 c hc d hd)
    fun c hc => hpos c (List.mem_append_left _ hc)

/-- A row of loose pieces gives way to another row. -/
theorem retile (h : Rep pool mem (mid ++ loose) R) (ht : Tiles lo mid hi) (hne : mid ≠ []) (ht' : Tiles lo mid' hi)
    (hmem : ∀ a, a + 8 ≤ lo ∨ hi ≤ a → mem' a = mem a) (hmid : ∀ c ∈ mid', c.Sized pool ∧ c.Stored pool mem')
    (hmain : ∀ c ∈ mid, ¬ c.Main pool) : Rep pool mem' (mid' ++ loose) R := by
  refine h.replace hmem (h.outside_row ht hne) (fun c hc => ?_) ht'.pairwise hmain
  obtain ⟨hlo, hhi⟩ := ht'.bounds hc
  exact ⟨hlo, hhi, hmid c hc⟩

theorem order_retile {q : Queue} {l : List ℕ} (h : Rep pool mem (mid ++ loose) R) (ht : Tiles lo mid hi)
    (hne : mid ≠ []) (hmem : ∀ a, a + 8 ≤ lo ∨ hi ≤ a → mem' a = mem a) (hmain : ∀ c ∈ mid, ¬ c.Main pool)
    (hl : Holds (inMemory 8 mem) (head pool q) l) : Holds (inMemory 8 mem') (head pool q) l :=
  h.order_replace hmem (h.outside_row ht hne) hmain hl

end Row

end Rep

end Tefs.NameServer.MemPool
