import Tefs.NameServer.MemMalloc

/-! # A new memory pool -/

namespace Tefs.NameServer.MemPool
open Tefs.Ring
set_option autoImplicit false

/-! ## Rings of no node and of one -/

theorem holds_nil {mem : ℕ → ℕ} {h : ℕ} (hnext : mem h = h) (hprev : mem (h + 8) = h) : Holds (inMemory 8 mem) h [] :=
  ⟨List.nodup_singleton h, by simpa [Links.Linked, inMemory] using ⟨hnext, hprev⟩⟩

theorem holds_single {mem : ℕ → ℕ} {h x : ℕ} (hne : h ≠ x) (hfirst : mem h = x ∧ mem (x + 8) = h)
    (hlast : mem x = h ∧ mem (h + 8) = x) : Holds (inMemory 8 mem) h [x] :=
  ⟨by simpa using hne, by simpa [Links.Linked, inMemory] using ⟨hfirst, hlast⟩⟩

theorem initAt_spec (mem : ℕ → ℕ) (h : ℕ) : initAt 8 h mem h = h ∧ initAt 8 h mem (h + 8) = h ∧
    ∀ a, a ≠ h → a ≠ h + 8 → initAt 8 h mem a = mem a := by
  refine ⟨put_self, ?_, fun a ha ha' => (put_of_ne ha).trans (put_of_ne ha')⟩
  exact (put_of_ne (by omega)).trans put_self

/-- The first node of a list -/
theorem insertTailAt_spec {mem : ℕ → ℕ} {h x : ℕ} (hempty : mem (h + 8) = h) (hne : h ≠ x) (hne' : h + 8 ≠ x)
    (hne'' : x + 8 ≠ h) : insertTailAt 8 h x mem h = x ∧ insertTailAt 8 h x mem (h + 8) = x ∧
      insertTailAt 8 h x mem x = h ∧ insertTailAt 8 h x mem (x + 8) = h ∧
      ∀ a, a ≠ h → a ≠ h + 8 → a ≠ x → a ≠ x + 8 → insertTailAt 8 h x mem a = mem a := by
  have heq : insertTailAt 8 h x mem = put (h + 8) x (put x h (put h x (put (x + 8) h mem))) := by
    simp only [insertTailAt, hempty, put_self]
  rw [heq]
  refine ⟨?_, put_self, ?_, ?_, fun a hh hh' hx hx' => ?_⟩
  · rw [put_of_ne (by omega), put_of_ne hne, put_self]
  · rw [put_of_ne hne'.symm, put_self]
  · rw [put_of_ne (by omega), put_of_ne (by omega), put_of_ne hne'', put_self]
  · rw [put_of_ne hh', put_of_ne hx, put_of_ne hh, put_of_ne hx']

namespace Pool

variable {s : Pool} {ptr pages : ℕ}

/-- The heads of the blocks are closed on themselves. -/
theorem initBlocks_mem (s : Pool) : ∃ mem', s.initBlocks = { s with mem := mem' } ∧
    (∀ i < 8, mem' (s.block i) = s.block i ∧ mem' (s.block i + 8) = s.block i) ∧
    ∀ a, a < s.block 0 ∨ s.block 8 ≤ a → mem' a = s.mem a := by
  suffices hloop : ∀ n, ∃ mem', (List.range n).foldl (fun s i => s.queueInit (s.block i)) s = { s with mem := mem' } ∧
      (∀ i < n, mem' (s.block i) = s.block i ∧ mem' (s.block i + 8) = s.block i) ∧
      ∀ a, a < s.block 0 ∨ s.block n ≤ a → mem' a = s.mem a from hloop 8
  intro n
  induction n with
  | zero => exact ⟨s.mem, rfl, fun i hi => absurd hi (Nat.not_lt_zero i), fun _ _ => rfl⟩
  | succ n ih =>
    obtain ⟨mem', hloop, hheads, hothers⟩ := ih
    obtain ⟨hself, hself', hrest⟩ := initAt_spec mem' (s.block n)
    refine ⟨initAt 8 (s.block n) mem', ?_, fun i hi => ?_, fun a ha => ?_⟩
    · rw [List.range_succ, List.foldl_append, hloop]
      rfl
    · rcases Nat.lt_succ_iff_lt_or_eq.mp hi with hlt | rfl
      · rw [hrest _ (by simp only [block]; omega) (by simp only [block]; omega),
          hrest _ (by simp only [block]; omega) (by simp only [block]; omega)]
        exact hheads i hlt
      · exact ⟨hself, hself'⟩
    · simp only [block] at ha hothers
      rw [hrest a (by simp only [block]; omega) (by simp only [block]; omega)]
      exact hothers a (by omega)

/-- What the first page holds -/
theorem firstPage_mem (s : Pool) (ptr : ℕ) : ∃ mem', s.firstPage ptr 272 = { s with mem := mem' } ∧
    get mem' ptr = pack 0 (allocated ||| initial) ∧ get mem' (ptr + 4088) = pack 0 (allocated ||| initial) ∧
    get mem' (ptr + 8) = pack 272 allocated ∧ get mem' (ptr + 272) = pack 272 allocated ∧
    mem' (ptr + 32) = ptr ∧ mem' (ptr + 40) = ptr + 4096 := by
  obtain ⟨tag, htag⟩ : ∃ tag, tag = pack 0 (allocated ||| initial) := ⟨_, rfl⟩
  have hends := get_put_put (s := s) (a := ptr) (x := ptr + 4088) (t := tag) (by rw [htag]; decide) (by omega)
  obtain ⟨s₁, hs₁⟩ : ∃ s₁, s₁ = (s.put ptr tag).put (ptr + 4088) tag := ⟨_, rfl⟩
  rw [← hs₁] at hends
  have hsize : getSize (pack 272 allocated) = 272 := by decide
  obtain ⟨hfirst, hlast, hothers⟩ := putTags_mem (s := s₁) (ptr + 8) hsize (by decide) (by decide)
  obtain ⟨s₂, hs₂⟩ : ∃ s₂, s₂ = s₁.putTags (ptr + 16) (pack 272 allocated) := ⟨_, rfl⟩
  change get (s₁.putTags (ptr + 16) _).mem _ = _ at hfirst
  change get (s₁.putTags (ptr + 16) _).mem (ptr + 272) = _ at hlast
  change ∀ a, a ≠ ptr + 8 → a ≠ ptr + 272 → (s₁.putTags (ptr + 16) _).mem a = s₁.mem a at hothers
  rw [← hs₂] at hfirst hlast hothers
  have hstored : ∀ a, a ≠ ptr + 32 → a ≠ ptr + 40 →
      ((s₂.store (ptr + 32) ptr).store (ptr + 40) (ptr + 4096)).mem a = s₂.mem a := fun a ha ha' =>
    (put_of_ne ha').trans (put_of_ne ha)
  have hget : ∀ a, a ≠ ptr + 32 → a ≠ ptr + 40 →
      get ((s₂.store (ptr + 32) ptr).store (ptr + 40) (ptr + 4096)).mem a = get s₂.mem a := by
    intro a ha ha'
    rw [get, get, hstored a ha ha']
  have hget₁ : ∀ a, a ≠ ptr + 8 → a ≠ ptr + 272 → get s₂.mem a = get s₁.mem a := by
    intro a ha ha'
    rw [get, get, hothers a ha ha']
  refine ⟨((s₂.store (ptr + 32) ptr).store (ptr + 40) (ptr + 4096)).mem, ?_, ?_, ?_, ?_, ?_, ?_, ?_⟩
  · subst hs₂ hs₁ htag
    rfl
  · rw [hget _ (by omega) (by omega), hget₁ _ (by omega) (by omega)]
    exact hends.2.1.trans htag
  · rw [hget _ (by omega) (by omega), hget₁ _ (by omega) (by omega)]
    exact hends.1.trans htag
  · rw [hget _ (by omega) (by omega)]
    exact hfirst
  · rw [hget _ (by omega) (by omega)]
    exact hlast
  · exact (put_of_ne (by omega)).trans put_self
  · exact put_self

/-- The lists are empty but for that of the pages. -/
theorem initPool_mem (pages : ℕ) (hused : getSize (get s.mem (ptr + 8)) = 272) : ∃ mem', s.initPool ptr pages = { s with
      mem := mem', pool := ptr + 48, size := pageSize * pages % 2 ^ 32, used := 288, msize := 0, initPages := pages } ∧
    (∀ q, Holds (inMemory 8 mem') (head (ptr + 48) q) (if q = .page then [ptr + 16] else [])) ∧
    ∀ a, a < ptr + 48 ∨ ptr + 224 ≤ a → a ≠ ptr + 16 → a ≠ ptr + 24 → mem' a = s.mem a := by
  obtain ⟨hlarge, hlarge', hrest⟩ := initAt_spec s.mem (ptr + 208)
  obtain ⟨m₁, hm₁⟩ : ∃ m₁, m₁ = initAt 8 (ptr + 208) s.mem := ⟨_, rfl⟩
  rw [← hm₁] at hlarge hlarge' hrest
  obtain ⟨-, hempty, hinit⟩ := initAt_spec m₁ (ptr + 48)
  have hpage := insertTailAt_spec (x := ptr + 16) hempty (by omega) (by omega) (by omega)
  obtain ⟨m₂, hm₂⟩ : ∃ m₂, m₂ = insertTailAt 8 (ptr + 48) (ptr + 16) (initAt 8 (ptr + 48) m₁) := ⟨_, rfl⟩
  rw [← hm₂] at hpage
  have hkept : ∀ a, a ≠ ptr + 48 → a ≠ ptr + 56 → a ≠ ptr + 16 → a ≠ ptr + 24 → m₂ a = m₁ a := by
    intro a hh hh' hx hx'
    rw [hpage.2.2.2.2 a hh hh' hx hx', hinit a hh hh']
  obtain ⟨mem', hblocks, hheads, hothers⟩ := initBlocks_mem { s with
    mem := m₂, pool := ptr + 48, size := pageSize * pages % 2 ^ 32, used := 288, msize := 0, initPages := pages }
  simp only [block] at hheads hothers
  refine ⟨mem', ?_, ?_, ?_⟩
  · rw [← hblocks, initPool, hused, hm₂, hm₁]
    rfl
  · intro q
    cases q with
    | page =>
      rw [if_pos rfl]
      refine holds_single (by simp only [head]; omega) ?_ ?_
      · exact ⟨(hothers _ (by simp only [head]; omega)).trans hpage.1, (hothers _ (by omega)).trans hpage.2.2.2.1⟩
      · exact ⟨(hothers _ (by omega)).trans hpage.2.2.1, (hothers _ (by simp only [head]; omega)).trans hpage.2.1⟩
    | block i =>
      rw [if_neg Queue.noConfusion]
      exact holds_nil (hheads i i.isLt).1 (hheads i i.isLt).2
    | large =>
      rw [if_neg Queue.noConfusion]
      refine holds_nil ?_ ?_
      · simp only [head]
        rw [hothers _ (by omega), hkept _ (by omega) (by omega) (by omega) (by omega)]
        exact hlarge
      · simp only [head]
        rw [hothers _ (by omega), hkept _ (by omega) (by omega) (by omega) (by omega)]
        exact hlarge'
  · intro a ha hne hne'
    rw [hothers a (by omega), hkept a (by omega) (by omega) hne hne', hrest a (by omega) (by omega)]

end Pool

/-! ## The pool of one page -/

/-- The rings of the lists make a family. -/
theorem family_create {pool x : ℕ} {mem : ℕ → ℕ} (hx : x < pool)
    (h : ∀ q, Holds (inMemory 8 mem) (head pool q) (if q = .page then [x] else [])) :
    Family (inMemory 8 mem) (head pool) fun q => if q = .page then [x] else [] := by
  refine ⟨h, fun q q' hne a ha ha' => ?_⟩
  have hcases : ∀ q : Queue, a ∈ head pool q :: (if q = .page then [x] else []) →
      a = head pool q ∨ q = .page ∧ a = x := by
    intro q ha
    by_cases hq : q = .page
    · rw [if_pos hq] at ha
      simpa [hq] using ha
    · rw [if_neg hq] at ha
      exact .inl (List.mem_singleton.mp ha)
  have hbound := Piece.head_bounds pool
  rcases hcases q ha with rfl | ⟨rfl, rfl⟩
  · rcases hcases q' ha' with heq | ⟨rfl, heq⟩
    · exact hne (Piece.head_injective pool heq)
    · have := (hbound q).1
      omega
  · rcases hcases q' ha' with heq | ⟨rfl, -⟩
    · have := (hbound q').1
      omega
    · exact hne rfl

/-- The first page, before its free block is one -/
theorem rep_create {ptr : ℕ} {mem : ℕ → ℕ} (hptr : 8 ∣ ptr) (hfirst : get mem ptr = pack 0 (allocated ||| initial))
    (hlast : get mem (ptr + 4088) = pack 0 (allocated ||| initial)) (hhead : get mem (ptr + 8) = pack 272 allocated)
    (hfoot : get mem (ptr + 272) = pack 272 allocated) (hstart : mem (ptr + 32) = ptr)
    (hend : mem (ptr + 40) = ptr + 4096)
    (hrings : ∀ q, Holds (inMemory 8 mem) (head (ptr + 48) q) (if q = .page then [ptr + 16] else [])) :
    Rep (ptr + 48) mem [⟨ptr + 280, 3808, .raw⟩]
      [⟨ptr, 8, .fence (allocated ||| initial)⟩, ⟨ptr + 8, 272, .own⟩,
        ⟨ptr + 4088, 8, .fence (allocated ||| initial)⟩] := by
  have hmem : ∀ c ∈ [(⟨ptr + 280, 3808, .raw⟩ : Piece)] ++
      [⟨ptr, 8, .fence (allocated ||| initial)⟩, ⟨ptr + 8, 272, .own⟩,
      ⟨ptr + 4088, 8, .fence (allocated ||| initial)⟩], c.Sized (ptr + 48) ∧ c.Stored (ptr + 48) mem := by
    intro c hc
    simp only [List.mem_append, List.mem_cons, List.not_mem_nil, or_false] at hc
    rcases hc with rfl | rfl | rfl | rfl
    · exact ⟨Piece.sized_raw (by omega) (by decide) (by decide) (by decide), trivial⟩
    · exact ⟨Piece.sized_fence hptr (by decide), hfirst⟩
    · refine ⟨Piece.sized_own (by omega) (by decide) (by decide) (by decide) (by omega) fun _ => le_rfl, hhead, hfoot,
        ?_, ?_⟩
      · exact hstart.trans (by dsimp only; omega)
      · exact hend.trans (by dsimp only [pageSize]; omega)
    · exact ⟨Piece.sized_fence (by omega) (by decide), hlast⟩
  refine ⟨fun c hc => (hmem c hc).1, ?_, fun c hc => (hmem c hc).2, ⟨⟨ptr + 8, 272, .own⟩, by simp, rfl, rfl⟩, _,
    family_create (by omega) hrings, fun q x => ?_⟩
  · simp [Piece.Apart, Piece.hi]
  · cases q <;> simp [Piece.Listed]

def onePage (ptr : ℕ) : Page := ⟨ptr, allocated ||| initial, 272, [⟨ptr + 280, 3808, .free⟩]⟩

theorem ordered_onePage {ptr size n : ℕ} {mem : ℕ → ℕ} (hptr : 0 < ptr) (hn : 0 < n)
    (hrep : Rep (ptr + 48) mem [] (⟨ptr + 280, 3808, .free⟩ :: (onePage ptr).frame)) :
    Ordered ⟨mem, [(ptr, pageSize)], 1, ptr + 48, size, 288, 0, n⟩ [] [onePage ptr] [] := by
  have hwf : (onePage ptr).Wf := by
    refine ⟨.inr rfl, le_rfl, ⟨rfl, rfl⟩, fun c hc => ?_, .singleton _⟩
    rw [List.mem_singleton.mp hc]
    exact .inr rfl
  have hperm : ([(⟨ptr + 280, 3808, .free⟩ : Piece)] ++ (onePage ptr).frame).Perm (pieces [onePage ptr] []) :=
    List.perm_append_comm
  refine ⟨⟨hrep.perm .rfl hperm, fun p hp => ?_, fun c hc => absurd hc List.not_mem_nil, .rfl, fun k hk => ?_, hn,
    ⟨onePage ptr, List.mem_singleton_self _, rfl, rfl⟩⟩, ⟨rfl, rfl⟩, ⟨.rfl, fun b hb => absurd hb List.not_mem_nil⟩⟩
  · rw [List.mem_singleton.mp hp]
    exact hwf
  · rw [List.mem_singleton.mp hk]
    exact hptr

/-- A new pool is in order. -/
theorem create_ordered (alloc : Allocator) (mem : ℕ → ℕ) {n : ℕ} (hn : 0 < n) :
    ∃ s pages, Pool.create alloc mem n = some s ∧ Ordered s [] pages [] := by
  have hptr : 8 ∣ alloc.addr 0 [] pageSize := alloc.aligned _ _ _
  have hpos : 0 < alloc.addr 0 [] pageSize := alloc.pos _ _ _
  obtain ⟨ptr, hptr'⟩ : ∃ ptr, ptr = alloc.addr 0 [] pageSize := ⟨_, rfl⟩
  rw [← hptr'] at hptr hpos
  let s₀ : Pool := ⟨mem, [(ptr, pageSize)], 1, 0, 0, 0, 0, 0⟩
  obtain ⟨m₁, hpage, hfirst, hlast, hhead, hfoot, hstart, hend⟩ := Pool.firstPage_mem s₀ ptr
  let s₁ : Pool := { s₀ with mem := m₁ }
  have hused : getSize (get s₁.mem (ptr + 8)) = 272 := by
    rw [show get s₁.mem (ptr + 8) = _ from hhead]
    decide
  obtain ⟨m₂, hinit, hrings, hothers⟩ := Pool.initPool_mem (s := s₁) n hused
  let s₂ : Pool := ⟨m₂, [(ptr, pageSize)], 1, ptr + 48, pageSize * n % 2 ^ 32, 288, 0, n⟩
  have hget : ∀ a, a < ptr + 48 ∨ ptr + 224 ≤ a → a ≠ ptr + 16 → a ≠ ptr + 24 → get m₂ a = get m₁ a := by
    intro a ha hne hne'
    rw [get, get, hothers a ha hne hne']
  have hrep : Rep s₂.pool s₂.mem _ _ := rep_create hptr ((hget _ (by omega) (by omega) (by omega)).trans hfirst)
    ((hget _ (by omega) (by omega) (by omega)).trans hlast) ((hget _ (by omega) (by omega) (by omega)).trans hhead)
    ((hget _ (by omega) (by omega) (by omega)).trans hfoot) ((hothers _ (by omega) (by omega) (by omega)).trans hstart)
    ((hothers _ (by omega) (by omega) (by omega)).trans hend) hrings
  have hnext : s₂.nextBlkp (ptr + 16) = ptr + 288 := by
    have hsize : getSize (get m₂ (ptr + 8)) = 272 := by
      rw [hget _ (by omega) (by omega) (by omega), hhead]
      decide
    rw [Pool.nextBlkp]
    change ptr + 16 + getSize (get m₂ (ptr + 8)) = _
    rw [hsize]
  let f : Piece := ⟨ptr + 280, 3808, .free⟩
  have htiles : Tiles (ptr + 280) [⟨ptr + 280, 3808, .raw⟩] (ptr + 4088) := ⟨rfl, rfl⟩
  obtain ⟨m₃, hfree, hrep₃, -⟩ := Pool.putFree_spec (s := s₂) (f := f) hrep htiles (List.cons_ne_nil _ _) (by simp) rfl
    ⟨rfl, rfl⟩ (Piece.sized_free (by omega) (by decide) (by decide) (by decide))
  have hordered : Ordered { s₂ with mem := m₃ } [] [onePage ptr] [] := ordered_onePage hpos hn hrep₃
  obtain ⟨pages, hpages⟩ := hordered.addPages alloc (n - 1)
  refine ⟨_, pages, ?_, hpages⟩
  have hmalloc : (⟨mem, [], 0, 0, 0, 0, 0, 0⟩ : Pool).mallocInternal alloc pageSize = (ptr, s₀) := by
    simp only [Pool.mallocInternal, ← hptr', s₀]
  have hsize : sizeofPage + sizeofPool + 16 = 272 := rfl
  have hrest : pageSize - 272 - 16 = 3808 := rfl
  have hcreate : Pool.create alloc mem n =
      some ((((s₀.firstPage ptr 272).initPool ptr n).putFree
        (((s₀.firstPage ptr 272).initPool ptr n).nextBlkp (ptr + 16)) 3808).addPages alloc (n - 1)) := by
    simp only [Pool.create, if_neg hn.ne', hmalloc, hsize, hrest]
  rw [hcreate, hpage, hinit]
  change some ((s₂.putFree (s₂.nextBlkp (ptr + 16)) 3808).addPages alloc (n - 1)) = _
  rw [hnext]
  exact congrArg (fun t : Pool => some (t.addPages alloc (n - 1))) hfree

end Tefs.NameServer.MemPool
