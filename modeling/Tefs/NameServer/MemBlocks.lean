import Tefs.NameServer.MemLayout

/-! # Blocks that are taken and given back -/

namespace Tefs.NameServer.MemPool
open Tefs.Ring
set_option autoImplicit false

/-! ## Tags -/

theorem pack_eq {size alloc : ℕ} (hsize : 8 ∣ size) (halloc : alloc < 8) : pack size alloc = size + alloc := by
  obtain ⟨k, rfl⟩ := hsize
  exact (Nat.two_pow_add_eq_or_of_lt (i := 3) halloc k).symm

theorem getSize_pack {size alloc : ℕ} (hsize : 8 ∣ size) (halloc : alloc < 8) : getSize (pack size alloc) = size := by
  rw [pack_eq hsize halloc, getSize]
  omega

theorem pack_lt {size alloc : ℕ} (hsize : 8 ∣ size) (hlt : size < 2 ^ 32) (halloc : alloc < 8) :
    pack size alloc < 2 ^ 32 := by
  rw [pack_eq hsize halloc]
  omega

theorem and_pack {size alloc i : ℕ} (hsize : 8 ∣ size) (hi : i < 3) :
    pack size alloc &&& 2 ^ i = alloc &&& 2 ^ i := by
  obtain ⟨k, rfl⟩ := hsize
  apply Nat.eq_of_testBit_eq
  intro j
  rw [pack, Nat.testBit_and, Nat.testBit_and, Nat.testBit_or, Nat.testBit_two_pow]
  by_cases hj : i = j
  · have hlow : (8 * k).testBit j = false := by
      rw [show 8 * k = 2 ^ 3 * k from rfl, Nat.testBit_two_pow_mul]
      simp [show ¬ 3 ≤ j by omega]
    rw [hlow, Bool.false_or]
  · simp [hj]

theorem getAlloc_pack {size alloc : ℕ} (hsize : 8 ∣ size) : getAlloc (pack size alloc) = alloc &&& 1 :=
  and_pack (i := 0) hsize (by decide)

theorem getInit_pack {size alloc : ℕ} (hsize : 8 ∣ size) : getInit (pack size alloc) = alloc &&& 2 :=
  and_pack (i := 1) hsize (by decide)

theorem getLarge_pack {size alloc : ℕ} (hsize : 8 ∣ size) : getLarge (pack size alloc) = alloc &&& 4 :=
  and_pack (i := 2) hsize (by decide)

namespace Piece

variable {pool : ℕ} {c : Piece} {mem : ℕ → ℕ}

/-- A block of a page -/
def IsBlock (c : Piece) : Prop := c.kind = .own ∨ c.kind = .busy ∨ c.kind = .used ∨ c.kind = .free

theorem Sized.isBlock (hs : c.Sized pool) (hc : c.IsBlock) : 8 ∣ c.lo ∧ 8 ∣ c.len ∧ c.len < 2 ^ 32 ∧ 48 ≤ c.len := by
  obtain ⟨lo, len, kind⟩ := c
  cases kind <;> simp only [IsBlock, Sized] at * <;> grind

theorem tag_of_isBlock (hc : c.IsBlock) : c.tag = pack c.len (if c.kind = .free then unallocated else allocated) := by
  obtain ⟨lo, len, kind⟩ := c
  cases kind <;> simp [IsBlock, tag] at *

theorem Stored.tags (h : c.Stored pool mem) (hc : c.IsBlock) : get mem c.lo = c.tag ∧ get mem (c.hi - 8) = c.tag := by
  obtain ⟨lo, len, kind⟩ := c
  cases kind <;> simp only [IsBlock, Stored] at * <;> grind

theorem Stored.getSize (h : c.Stored pool mem) (hs : c.Sized pool) (hc : c.IsBlock) :
    getSize (get mem c.lo) = c.len ∧ MemPool.getSize (get mem (c.hi - 8)) = c.len := by
  have hsize : MemPool.getSize (pack c.len (if c.kind = .free then unallocated else allocated)) = c.len :=
    getSize_pack (hs.isBlock hc).2.1 (by split <;> decide)
  rw [(h.tags hc).1, (h.tags hc).2, tag_of_isBlock hc]
  exact ⟨hsize, hsize⟩

theorem getAlloc_tag (hs : c.Sized pool) (hc : c.IsBlock) : getAlloc c.tag = 0 ↔ c.kind = .free := by
  rw [tag_of_isBlock hc, getAlloc_pack (hs.isBlock hc).2.1]
  split <;> simp_all [unallocated, allocated]

end Piece

namespace Pool

variable {s : Pool} {p val a : ℕ}

theorem put_mem_of_ne (ha : a ≠ p) : (s.put p val).mem a = s.mem a := put_of_ne ha

theorem get_put (hval : val < 2 ^ 32) : get (s.put p val).mem p = val := by
  have hself : (s.put p val).mem p = s.mem p / 2 ^ 32 * 2 ^ 32 + val % 2 ^ 32 := put_self
  rw [get, hself]
  omega

theorem get_put_of_ne (ha : a ≠ p) : get (s.put p val).mem a = get s.mem a := by
  rw [get, get, put_mem_of_ne ha]

theorem get_store_of_ne (ha : a ≠ p) : get (s.store p val).mem a = get s.mem a := by
  rw [get, get, show (s.store p val).mem a = s.mem a from put_of_ne ha]

/-- The two tags of a block, and the rest of the memory as before -/
theorem putTags_mem (lo : ℕ) {len tag : ℕ} (hsize : getSize tag = len) (htag : tag < 2 ^ 32) (hlen : 16 ≤ len) :
    get (s.putTags (lo + 8) tag).mem lo = tag ∧ get (s.putTags (lo + 8) tag).mem (lo + len - 8) = tag ∧
      ∀ a, a ≠ lo → a ≠ lo + len - 8 → (s.putTags (lo + 8) tag).mem a = s.mem a := by
  have hfirst : hdrp (lo + 8) = lo := Nat.add_sub_cancel _ _
  have hlast : (s.put lo tag).ftrp (lo + 8) = lo + len - 8 := by
    rw [ftrp, hfirst, get_put htag, hsize]
    omega
  rw [putTags, hfirst, hlast]
  refine ⟨?_, get_put htag, fun a hlo hhi => ?_⟩
  · rw [get_put_of_ne (by omega), get_put htag]
  · rw [put_mem_of_ne hhi, put_mem_of_ne hlo]

/-- A block gets its tags. -/
theorem putTags_block {pool : ℕ} {d : Piece} (hd : d.kind = .busy ∨ d.kind = .free) (hs : d.Sized pool) :
    d.Stored pool (s.putTags (d.lo + 8) d.tag).mem ∧
      ∀ a, a ≠ d.lo → a ≠ d.hi - 8 → (s.putTags (d.lo + 8) d.tag).mem a = s.mem a := by
  have hblock : d.IsBlock := by
    rcases hd with hd | hd
    · exact .inr (.inl hd)
    · exact .inr (.inr (.inr hd))
  have hbounds := hs.isBlock hblock
  have hflags : (if d.kind = .free then unallocated else allocated) < 8 := by split <;> decide
  have htag := Piece.tag_of_isBlock hblock
  have hsize : getSize d.tag = d.len := by rw [htag, getSize_pack hbounds.2.1 hflags]
  have hlt : d.tag < 2 ^ 32 := by
    rw [htag]
    exact pack_lt hbounds.2.1 hbounds.2.2.1 hflags
  obtain ⟨hfirst, hlast, hothers⟩ := putTags_mem (s := s) d.lo hsize hlt (by omega)
  refine ⟨?_, hothers⟩
  obtain ⟨lo, len, kind⟩ := d
  rcases hd with rfl | rfl
  · exact ⟨hfirst, hlast⟩
  · exact ⟨hfirst, hlast⟩

theorem not_main_of_kind {pool : ℕ} {c : Piece} (hc : c.kind ≠ .own) : ¬ c.Main pool := fun hmain => hc hmain.1

theorem listed_of_free {f : Piece} (hf : f.kind = .free) : f.Listed (.block (classOf f.len)) (f.lo + 8) := by
  rw [Piece.Listed, hf]
  exact ⟨rfl, rfl⟩

/-- A row of loose pieces becomes a block with its tags, and bytes that are not used yet. -/
theorem putTags_spec {loose R mid rest : List Piece} {d : Piece} {lo hi : ℕ} (h : Rep s.pool s.mem (mid ++ loose) R)
    (ht : Tiles lo mid hi) (hne : mid ≠ []) (hmain : ∀ c ∈ mid, c.kind ≠ .own) (hd : d.kind = .busy ∨ d.kind = .free)
    (hs : d.Sized s.pool) (ht' : Tiles lo (d :: rest) hi) (hrest : ∀ r ∈ rest, r.Sized s.pool ∧ r.kind = .raw) :
    Rep s.pool (s.putTags (d.lo + 8) d.tag).mem (d :: rest ++ loose) R := by
  obtain ⟨hstored, hothers⟩ := putTags_block (s := s) hd hs
  have hpos := hs.pos
  have hlen : d.hi = d.lo + d.len := rfl
  have hin := ht'.bounds List.mem_cons_self
  refine h.retile ht hne ht' (fun a ha => hothers a (by omega) (by omega)) ?_ fun c hc => not_main_of_kind (hmain c hc)
  intro c hc
  rcases List.mem_cons.mp hc with rfl | hc
  · exact ⟨hs, hstored⟩
  · obtain ⟨hsized, hraw⟩ := hrest c hc
    refine ⟨hsized, ?_⟩
    rw [Piece.Stored, hraw]
    trivial

/-- A row of loose pieces becomes one free block; the order of the pages stays. -/
theorem putFree_spec {loose R mid : List Piece} {f : Piece} {lo hi : ℕ} (h : Rep s.pool s.mem (mid ++ loose) R)
    (ht : Tiles lo mid hi) (hne : mid ≠ []) (hmain : ∀ c ∈ mid, c.kind ≠ .own) (hf : f.kind = .free)
    (hft : Tiles lo [f] hi) (hs : f.Sized s.pool) :
    ∃ mem', s.putFree (f.lo + 8) f.len = { s with mem := mem' } ∧ Rep s.pool mem' loose (f :: R) ∧
      ∀ l, Holds (inMemory 8 s.mem) (head s.pool .page) l → Holds (inMemory 8 mem') (head s.pool .page) l := by
  have htag : f.tag = pack f.len unallocated := by rw [Piece.tag, hf]
  have hput := putTags_spec h ht hne hmain (.inr hf) hs hft fun r hr => absurd hr List.not_mem_nil
  have hothers := (putTags_block (s := s) (.inr hf) hs).2
  have hin := hft.bounds List.mem_cons_self
  have hpos := hs.pos
  have hlen : f.hi = f.lo + f.len := rfl
  have horder : ∀ l, Holds (inMemory 8 s.mem) (head s.pool .page) l →
      Holds (inMemory 8 (s.putTags (f.lo + 8) f.tag).mem) (head s.pool .page) l := fun l hl =>
    h.order_retile ht hne (fun a ha => hothers a (by omega) (by omega)) (fun c hc => not_main_of_kind (hmain c hc)) hl
  rw [htag] at hput horder
  exact ⟨_, rfl, hput.insertHead (listed_of_free hf),
    fun l hl => hput.order_insertHead (listed_of_free hf) Queue.noConfusion (horder l hl)⟩

/-! ## A free block is taken -/

/-- What `gfs_mem_place` makes of a free block: the block that is allocated, and what is left -/
def placed (c : Piece) (asize : ℕ) : Piece × List Piece :=
  if blockMin ≤ c.len - asize then (⟨c.lo, asize, .busy⟩, [⟨c.lo + asize, c.len - asize, .free⟩])
  else (⟨c.lo, c.len, .busy⟩, [])

theorem divide_spec {loose R : List Piece} {c : Piece} {asize : ℕ} (h : Rep s.pool s.mem (c :: loose) R)
    (hc : c.kind = .free) (halign : 8 ∣ asize) (hmin : 48 ≤ asize) (hle : asize ≤ c.len) :
    ∃ mem', s.divide (c.lo + 8) asize c.len = { s with mem := mem', used := s.used + (placed c asize).1.len } ∧
      Rep s.pool mem' ((placed c asize).1 :: loose) ((placed c asize).2 ++ R) := by
  have hblock : c.IsBlock := .inr (.inr (.inr hc))
  have hbounds := (h.sized c List.mem_cons_self).isBlock hblock
  have htiles : Tiles c.lo [c] c.hi := ⟨rfl, rfl⟩
  have hkinds : ∀ d ∈ [c], d.kind ≠ .own := by
    intro d hd
    rw [List.mem_singleton.mp hd, hc]
    exact Kind.noConfusion
  rw [divide]
  by_cases hsplit : blockMin ≤ c.len - asize
  · have hplaced : placed c asize = (⟨c.lo, asize, .busy⟩, [⟨c.lo + asize, c.len - asize, .free⟩]) := if_pos hsplit
    have hrest : 8 ∣ c.len - asize := Nat.dvd_sub hbounds.2.1 halign
    let b : Piece := ⟨c.lo, asize, .busy⟩
    let raw : Piece := ⟨c.lo + asize, c.len - asize, .raw⟩
    let r : Piece := ⟨c.lo + asize, c.len - asize, .free⟩
    have hb : b.Sized s.pool := ⟨hbounds.1, halign, hle.trans_lt hbounds.2.2.1, hmin⟩
    have hr : r.Sized s.pool := ⟨Nat.dvd_add hbounds.1 halign, hrest, (Nat.sub_le _ _).trans_lt hbounds.2.2.1, hsplit⟩
    have hraw : raw.Sized s.pool := ⟨hr.1, hr.2.1, hr.2.2.1, hr.pos⟩
    have hend : c.lo + asize + (c.len - asize) = c.hi := by
      rw [Piece.hi]
      omega
    have hparts : Tiles c.lo [b, raw] c.hi := ⟨rfl, rfl, hend⟩
    have hput := putTags_spec h htiles (List.cons_ne_nil _ _) hkinds (.inl rfl) hb hparts fun d hd => by
      rw [List.mem_singleton.mp hd]
      exact ⟨hraw, rfl⟩
    have hnext : (s.putTags (b.lo + 8) b.tag).nextBlkp (c.lo + 8) = r.lo + 8 := by
      have hsize := ((hput.stored b List.mem_cons_self).getSize hb (.inr (.inl rfl))).1
      change c.lo + 8 + getSize (get _ c.lo) = c.lo + asize + 8
      rw [hsize]
      change c.lo + 8 + asize = _
      omega
    have hleft : Tiles r.lo [raw] c.hi := ⟨rfl, hend⟩
    have hraws : Rep s.pool (s.putTags (b.lo + 8) b.tag).mem ([raw] ++ b :: loose) R :=
      hput.perm (List.Perm.swap raw b loose) .rfl
    obtain ⟨mem', hfree, hrep, -⟩ := putFree_spec (s := s.putTags (b.lo + 8) b.tag) (f := r) hraws hleft
      (List.cons_ne_nil _ _) (by simp [raw]) rfl ⟨rfl, hend⟩ hr
    rw [if_pos hsplit, hplaced]
    rw [← hnext] at hfree
    exact ⟨mem', congrArg (fun t : Pool => { t with used := t.used + (asize : ℤ) }) hfree, hrep⟩
  · have hplaced : placed c asize = (⟨c.lo, c.len, .busy⟩, []) := if_neg hsplit
    let b : Piece := ⟨c.lo, c.len, .busy⟩
    have hb : b.Sized s.pool := hbounds
    have hwhole : Tiles c.lo [b] c.hi := ⟨rfl, rfl⟩
    have hput := putTags_spec h htiles (List.cons_ne_nil _ _) hkinds (.inl rfl) hb hwhole fun r hr =>
      absurd hr List.not_mem_nil
    rw [if_neg hsplit, hplaced]
    exact ⟨_, rfl, hput⟩

theorem place_spec {loose R : List Piece} {c : Piece} {asize : ℕ} (h : Rep s.pool s.mem loose (c :: R))
    (hc : c.kind = .free) (halign : 8 ∣ asize) (hmin : 48 ≤ asize) (hle : asize ≤ c.len) :
    ∃ mem', s.place (c.lo + 8) asize = { s with mem := mem', used := s.used + (placed c asize).1.len } ∧
      Rep s.pool mem' ((placed c asize).1 :: loose) ((placed c asize).2 ++ R) := by
  have hremoved : Rep s.pool (s.queueRemove (c.lo + 8)).mem (c :: loose) R := h.remove (listed_of_free hc)
  have hsize : getSize (get (s.queueRemove (c.lo + 8)).mem (hdrp (c.lo + 8))) = c.len :=
    ((hremoved.stored c List.mem_cons_self).getSize (hremoved.sized c List.mem_cons_self) (.inr (.inr (.inr hc)))).1
  obtain ⟨mem', hdivide, hrep⟩ := divide_spec (s := s.queueRemove (c.lo + 8)) hremoved hc halign hmin hle
  refine ⟨mem', ?_, hrep⟩
  change (s.queueRemove (c.lo + 8)).divide (c.lo + 8)
    asize (getSize (get (s.queueRemove (c.lo + 8)).mem (hdrp (c.lo + 8)))) = _
  rw [hsize, hdivide]
  rfl

/-- The pointer to the pool makes an allocated block one of a user. -/
theorem store_spec {loose R : List Piece} {b : Piece} (h : Rep s.pool s.mem (b :: loose) R) (hb : b.kind = .busy) :
    Rep s.pool (s.store (b.lo + 8) s.pool).mem loose ({ b with kind := .used } :: R) := by
  have hblock : b.IsBlock := .inr (.inl hb)
  have hsized := h.sized b List.mem_cons_self
  have hbounds := hsized.isBlock hblock
  have htags := (h.stored b List.mem_cons_self).tags hblock
  have hhi : b.hi = b.lo + b.len := rfl
  have hothers : ∀ a, a ≠ b.lo + 8 → (s.store (b.lo + 8) s.pool).mem a = s.mem a := fun a ha => put_of_ne ha
  have hself : (s.store (b.lo + 8) s.pool).mem (b.lo + 8) = s.pool := put_self
  have htag : ({ b with kind := .used } : Piece).tag = b.tag := by
    rw [Piece.tag, Piece.tag, hb]
  have hbefore : Tiles b.lo [b] b.hi := ⟨rfl, rfl⟩
  have hafter : Tiles b.lo [{ b with kind := .used }] b.hi := ⟨rfl, rfl⟩
  refine (h.retile hbefore (List.cons_ne_nil _ _) hafter (fun a ha => hothers a (by omega)) ?_ ?_).settle fun q x => id
  · intro d hd
    rw [List.mem_singleton.mp hd]
    refine ⟨⟨hbounds.1, hbounds.2.1, hbounds.2.2.1, hbounds.2.2.2⟩, ?_, ?_, hself⟩
    · rw [htag, get, hothers b.lo (by omega)]
      exact htags.1
    · rw [htag, get]
      change (s.store (b.lo + 8) s.pool).mem (b.hi - 8) % 2 ^ 32 = _
      rw [hothers _ (by omega)]
      exact htags.2
  · intro d hd
    rw [List.mem_singleton.mp hd]
    exact not_main_of_kind (by rw [hb]; exact Kind.noConfusion)

/-- A free block is handed out to a user. -/
theorem take_spec {R : List Piece} {c : Piece} {asize : ℕ} (h : Rep s.pool s.mem [] (c :: R)) (hc : c.kind = .free)
    (halign : 8 ∣ asize) (hmin : 48 ≤ asize) (hle : asize ≤ c.len) :
    ∃ mem', s.take (c.lo + 8) asize = (some (c.lo + 16), { s with
        mem := mem', used := s.used + (placed c asize).1.len, msize := s.msize + (placed c asize).1.len }) ∧
      Rep s.pool mem' [] ({ (placed c asize).1 with kind := .used } :: ((placed c asize).2 ++ R)) := by
  obtain ⟨mem₁, hplace, hrep⟩ := place_spec h hc halign hmin hle
  have hbusy : (placed c asize).1.kind = .busy := by
    rw [placed]
    split <;> rfl
  have hlo : (placed c asize).1.lo = c.lo := by
    rw [placed]
    split <;> rfl
  have hsize : getSize (get mem₁ (hdrp (c.lo + 8))) = (placed c asize).1.len := by
    have hsize := ((hrep.stored _ List.mem_cons_self).getSize (hrep.sized _ List.mem_cons_self) (.inr (.inl hbusy))).1
    rwa [hlo] at hsize
  have hstored := store_spec (s := { s with mem := mem₁ }) hrep hbusy
  have hplaceAt : (placed c asize).1.lo + 8 = c.lo + 8 := by rw [hlo]
  rw [hplaceAt] at hstored
  refine ⟨_, ?_, hstored⟩
  change (s.place (c.lo + 8) asize).handOut (c.lo + 8)
    (getSize (get (s.place (c.lo + 8) asize).mem (hdrp (c.lo + 8)))) = _
  rw [hplace, hsize]
  rfl

/-! ## A block is given back -/

end Pool

/-- What can stand beside a block: a block, or the end of the page, which is marked as allocated -/
def Piece.Beside (c : Piece) : Prop := c.IsBlock ∨ ∃ flags, c.kind = .fence flags ∧ flags &&& 1 ≠ 0

theorem Piece.Beside.getAlloc {pool : ℕ} {mem : ℕ → ℕ} {c : Piece} (hc : c.Beside) (hs : c.Sized pool)
    (h : c.Stored pool mem) : getAlloc (get mem c.lo) = 0 ↔ c.kind = .free := by
  rcases hc with hblock | ⟨flags, hkind, hflags⟩
  · rw [(h.tags hblock).1]
    exact getAlloc_tag hs hblock
  · have htag : get mem c.lo = c.tag := by
      rw [Piece.Stored, hkind] at h
      exact h
    have hpack : c.tag = pack 0 flags := by rw [Piece.tag, hkind]
    rw [htag, hpack, getAlloc_pack (Nat.dvd_zero 8), hkind]
    exact iff_of_false hflags Kind.noConfusion

/-- What becomes of a block between two others that is given back -/
def coalesced (p b n : Piece) : Piece where
  lo := if p.kind = .free then p.lo else b.lo
  len := b.len + ((if p.kind = .free then p.len else 0) + if n.kind = .free then n.len else 0)
  kind := .free

namespace Pool

variable {s : Pool}

/-- A row of loose pieces becomes a free block, the tags of which are stored one by one. -/
theorem join_spec {pool lo hi : ℕ} {mem mem' : ℕ → ℕ} {loose R mid : List Piece} {f : Piece}
    (h : Rep pool mem (mid ++ loose) R) (ht : Tiles lo mid hi) (hne : mid ≠ []) (hmain : ∀ c ∈ mid, c.kind ≠ .own)
    (hf : f.kind = .free) (hft : Tiles lo [f] hi) (hs : f.Sized pool) (hlo : get mem' f.lo = f.tag)
    (hhi : get mem' (f.hi - 8) = f.tag) (hmem : ∀ a, a ≠ f.lo → a ≠ f.hi - 8 → mem' a = mem a) :
    Rep pool (insertHeadAt 8 (head pool (.block (classOf f.len))) (f.lo + 8) mem') loose (f :: R) := by
  have hpos := hs.pos
  have hlen : f.hi = f.lo + f.len := rfl
  have hin := hft.bounds List.mem_cons_self
  have hretiled : Rep pool mem' ([f] ++ loose) R := by
    refine h.retile ht hne hft (fun a ha => hmem a (by omega) (by omega)) ?_ fun c hc => not_main_of_kind (hmain c hc)
    intro d hd
    rw [List.mem_singleton.mp hd]
    refine ⟨hs, ?_⟩
    rw [Piece.Stored, hf]
    exact ⟨hlo, hhi⟩
  exact hretiled.insertHead (listed_of_free hf)

/-- A free block that is in no list, between `p` and `n` -/
structure Between (s : Pool) (R : List Piece) (p b n : Piece) : Prop where
  rep : Rep s.pool s.mem [b] R
  free : b.kind = .free
  prev_mem : p ∈ R
  next_mem : n ∈ R
  prev_hi : p.hi = b.lo
  next_lo : b.hi = n.lo
  prev : p.IsBlock
  next : n.Beside
  small : p.len + b.len + n.len < 2 ^ 32

namespace Between

variable {R R' : List Piece} {p b n : Piece}

theorem isBlock (h : Between s R p b n) : b.IsBlock := .inr (.inr (.inr h.free))

theorem sized (h : Between s R p b n) : p.Sized s.pool ∧ b.Sized s.pool ∧ n.Sized s.pool :=
  ⟨h.rep.sized p (List.mem_cons_of_mem _ h.prev_mem), h.rep.sized b List.mem_cons_self,
    h.rep.sized n (List.mem_cons_of_mem _ h.next_mem)⟩

theorem stored (h : Between s R p b n) : p.Stored s.pool s.mem ∧ b.Stored s.pool s.mem ∧ n.Stored s.pool s.mem :=
  ⟨h.rep.stored p (List.mem_cons_of_mem _ h.prev_mem), h.rep.stored b List.mem_cons_self,
    h.rep.stored n (List.mem_cons_of_mem _ h.next_mem)⟩

end Between

/-- What is read of the blocks on both sides, in any memory that has their tags -/
theorem nextBlkp_eq {b n : Piece} (hs : b.Sized s.pool) (hb : b.Stored s.pool s.mem) (hblock : b.IsBlock)
    (hbn : b.hi = n.lo) :
    s.nextBlkp (b.lo + 8) = n.lo + 8 := by
  rw [nextBlkp, Nat.add_sub_cancel, (hb.getSize hs hblock).1, ← hbn, Piece.hi]
  omega

theorem prevBlkp_eq {p b : Piece} (hs : p.Sized s.pool) (hp : p.Stored s.pool s.mem) (hblock : p.IsBlock)
    (hpb : p.hi = b.lo) :
    s.prevBlkp (b.lo + 8) = p.lo + 8 := by
  have hat : b.lo + 8 - 16 = p.hi - 8 := by omega
  have hhi : p.hi = p.lo + p.len := rfl
  rw [prevBlkp, hat, (hp.getSize hs hblock).2]
  omega

theorem ftrp_eq {b : Piece} (hs : b.Sized s.pool) (hb : b.Stored s.pool s.mem) (hblock : b.IsBlock) :
    s.ftrp (b.lo + 8) = b.hi - 8 := by
  have hpos := hs.pos
  rw [ftrp, hdrp, Nat.add_sub_cancel, (hb.getSize hs hblock).1, Piece.hi]
  omega

theorem joinNext_eq {bp size x k : ℕ} (hnext : s.nextBlkp bp = x)
    (hsize : getSize (get (s.queueRemove x).mem (hdrp ((s.queueRemove x).nextBlkp bp))) = k) :
    s.joinNext bp size = (s.queueRemove x).putFree bp (size + k) := by
  subst hnext hsize
  rfl

theorem joinPrev_eq {bp size x k : ℕ} (hprev : s.prevBlkp bp = x)
    (hsize : getSize (get (s.queueRemove x).mem (hdrp ((s.queueRemove x).prevBlkp bp))) = k) :
    s.joinPrev bp size = (s.queueRemove x).putPrev bp x (size + k) := by
  subst hprev hsize
  rfl

theorem joinBoth_eq {bp size x y k l : ℕ} (hnext : s.nextBlkp bp = x) (hprev : (s.queueRemove x).prevBlkp bp = y)
    (hk : getSize (get ((s.queueRemove x).queueRemove y).mem
      (hdrp (((s.queueRemove x).queueRemove y).prevBlkp bp))) = k)
    (hl : getSize (get ((s.queueRemove x).queueRemove y).mem
      (((s.queueRemove x).queueRemove y).ftrp (((s.queueRemove x).queueRemove y).nextBlkp bp))) = l) :
    s.joinBoth bp size = ((s.queueRemove x).queueRemove y).putBoth bp y (size + (k + l)) := by
  subst hnext hprev hk hl
  rfl

theorem putPrev_eq {bp block size a x : ℕ} (ha : s.ftrp bp = a) (hx : hdrp ((s.put a (pack size 0)).prevBlkp bp) = x) :
    s.putPrev bp block size =
      ((s.put a (pack size 0)).put x (pack size 0)).queueInsertHead (s.block (getindex size)) block := by
  subst ha hx
  rfl

theorem putBoth_eq {bp block size a x : ℕ} (ha : hdrp (s.prevBlkp bp) = a)
    (hx : (s.put a (pack size 0)).ftrp ((s.put a (pack size 0)).nextBlkp bp) = x) :
    s.putBoth bp block size =
      ((s.put a (pack size 0)).put x (pack size 0)).queueInsertHead (s.block (getindex size)) block := by
  subst ha hx
  rfl

theorem kind_ne_of_free {mid : List Piece} (h : ∀ c ∈ mid, c.kind = .free) : ∀ c ∈ mid, c.kind ≠ .own := by
  intro c hc
  rw [h c hc]
  exact Kind.noConfusion

theorem Between.joinNext_spec {R R' : List Piece} {p b n : Piece} (h : Between s R p b n) (hn : n.kind = .free)
    (hR : R.Perm (n :: R')) {f : Piece} (hf : f = ⟨b.lo, b.len + n.len, .free⟩) :
    ∃ mem', s.joinNext (b.lo + 8) b.len = { s with mem := mem' } ∧ Rep s.pool mem' [] (f :: R') := by
  have hremoved : Rep s.pool (s.queueRemove (n.lo + 8)).mem [n, b] R' := (h.rep.perm .rfl hR).remove (listed_of_free hn)
  have hnblock : n.IsBlock := .inr (.inr (.inr hn))
  obtain ⟨-, hbs, hns⟩ := h.sized
  have hnext := nextBlkp_eq hbs h.stored.2.1 h.isBlock h.next_lo
  have hnext' : (s.queueRemove (n.lo + 8)).nextBlkp (b.lo + 8) = n.lo + 8 :=
    nextBlkp_eq (s := s.queueRemove (n.lo + 8)) hbs (hremoved.stored b (by simp)) h.isBlock h.next_lo
  have hsize : getSize (get (s.queueRemove (n.lo + 8)).mem (hdrp ((s.queueRemove (n.lo + 8)).nextBlkp (b.lo + 8)))) =
    n.len := by
    rw [hnext']
    exact ((hremoved.stored n List.mem_cons_self).getSize hns hnblock).1
  have hhi : f.hi = n.hi := by
    have := h.next_lo
    simp only [hf, Piece.hi] at *
    omega
  have hbb := hbs.isBlock h.isBlock
  have hnb := hns.isBlock hnblock
  have hsmall := h.small
  have hfs : f.Sized s.pool := by
    rw [hf]
    exact ⟨hbb.1, Nat.dvd_add hbb.2.1 hnb.2.1, by dsimp only; omega, by dsimp only; omega⟩
  have hkinds : ∀ c ∈ [b, n], c.kind = .free := by
    intro c hc
    rcases List.mem_cons.mp hc with rfl | hc
    · exact h.free
    · rw [List.mem_singleton.mp hc]
      exact hn
  have htiles : Tiles b.lo [b, n] n.hi := ⟨rfl, h.next_lo.symm, rfl⟩
  obtain ⟨mem', hput, hrep, -⟩ := putFree_spec (s := s.queueRemove (n.lo + 8)) (f := f)
    (hremoved.perm (List.Perm.swap b n []) .rfl) htiles (List.cons_ne_nil _ _) (kind_ne_of_free hkinds) (by rw [hf])
    ⟨by rw [hf], hhi⟩ hfs
  refine ⟨mem', ?_, hrep⟩
  rw [joinNext_eq hnext hsize]
  rw [hf] at hput
  exact hput

theorem tag_lt_of_free {pool : ℕ} {f : Piece} (hf : f.kind = .free) (hs : f.Sized pool) : f.tag < 2 ^ 32 := by
  have hb := hs.isBlock (.inr (.inr (.inr hf)))
  rw [Piece.tag, hf]
  exact pack_lt hb.2.1 hb.2.2.1 (by decide)

/-- Two tags of a free block are stored, in either order. -/
theorem get_put_put {a x t : ℕ} (ht : t < 2 ^ 32) (hne : a ≠ x) :
    get ((s.put a t).put x t).mem x = t ∧ get ((s.put a t).put x t).mem a = t ∧
      ∀ y, y ≠ a → y ≠ x → ((s.put a t).put x t).mem y = s.mem y :=
  ⟨get_put ht, by rw [get_put_of_ne hne, get_put ht], fun y ha hx => by rw [put_mem_of_ne hx, put_mem_of_ne ha]⟩

theorem prevBlkp_put {a t bp : ℕ} (ha : a ≠ bp - 16) : (s.put a t).prevBlkp bp = s.prevBlkp bp := by
  rw [prevBlkp, prevBlkp, get_put_of_ne ha.symm]

theorem Between.joinPrev_spec {R R' : List Piece} {p b n : Piece} (h : Between s R p b n) (hp : p.kind = .free)
    (hR : R.Perm (p :: R')) {f : Piece} (hf : f = ⟨p.lo, b.len + p.len, .free⟩) :
    ∃ mem', s.joinPrev (b.lo + 8) b.len = { s with mem := mem' } ∧ Rep s.pool mem' [] (f :: R') := by
  have hremoved : Rep s.pool (s.queueRemove (p.lo + 8)).mem [p, b] R' := (h.rep.perm .rfl hR).remove (listed_of_free hp)
  obtain ⟨hps, hbs, -⟩ := h.sized
  have hpstored := hremoved.stored p List.mem_cons_self
  have hprev := prevBlkp_eq hps h.stored.1 h.prev h.prev_hi
  have hprev' : (s.queueRemove (p.lo + 8)).prevBlkp (b.lo + 8) = p.lo + 8 :=
    prevBlkp_eq (s := s.queueRemove (p.lo + 8)) hps hpstored h.prev h.prev_hi
  have hsize : getSize (get (s.queueRemove (p.lo + 8)).mem (hdrp ((s.queueRemove (p.lo + 8)).prevBlkp (b.lo + 8)))) =
    p.len := by
    rw [hprev']
    exact (hpstored.getSize hps h.prev).1
  have hbb := hbs.isBlock h.isBlock
  have hpb := hps.isBlock h.prev
  have hsmall := h.small
  have hphi : p.lo + p.len = b.lo := h.prev_hi
  have hbhi : b.hi = b.lo + b.len := rfl
  have hfhi : f.hi = b.hi := by
    simp only [hf, Piece.hi]
    omega
  have hflo : f.lo = p.lo := by rw [hf]
  have hfkind : f.kind = .free := by rw [hf]
  have hflen : f.len = b.len + p.len := by rw [hf]
  have hftag : f.tag = pack (b.len + p.len) 0 := by
    rw [Piece.tag, hfkind, hflen]
    rfl
  have hfs : f.Sized s.pool := by
    rw [hf]
    exact ⟨hpb.1, Nat.dvd_add hbb.2.1 hpb.2.1, by dsimp only; omega, by dsimp only; omega⟩
  have hftrp := ftrp_eq (s := s.queueRemove (p.lo + 8)) hbs (hremoved.stored b (by simp)) h.isBlock
  have hhdrp : hdrp (((s.queueRemove (p.lo + 8)).put (b.hi - 8) (pack (b.len + p.len) 0)).prevBlkp (b.lo + 8)) =
    p.lo := by
    rw [prevBlkp_put (by omega), hprev']
    rfl
  have hkinds : ∀ c ∈ [p, b], c.kind = .free := by
    intro c hc
    rcases List.mem_cons.mp hc with rfl | hc
    · exact hp
    · rw [List.mem_singleton.mp hc]
      exact h.free
  obtain ⟨hlo, hhi, hothers⟩ := get_put_put (s := s.queueRemove (p.lo + 8)) (a := b.hi - 8) (x := p.lo)
    (tag_lt_of_free hfkind hfs) (by omega)
  have htiles : Tiles p.lo [p, b] b.hi := ⟨rfl, h.prev_hi.symm, rfl⟩
  have hjoin := join_spec hremoved htiles (List.cons_ne_nil _ _) (kind_ne_of_free hkinds) hfkind ⟨hflo, hfhi⟩ hfs
    (by rw [hflo]; exact hlo) (by rw [hfhi]; exact hhi) (by rw [hflo, hfhi]; exact fun y hylo hyhi => hothers y hyhi hylo)
  refine ⟨_, ?_, hjoin⟩
  rw [joinPrev_eq hprev hsize, putPrev_eq hftrp hhdrp, hftag, hflen, hflo]
  rfl

theorem nextBlkp_put {a t bp : ℕ} (ha : a ≠ bp - 8) : (s.put a t).nextBlkp bp = s.nextBlkp bp := by
  rw [nextBlkp, nextBlkp, get_put_of_ne ha.symm]

theorem ftrp_put {a t bp : ℕ} (ha : a ≠ bp - 8) : (s.put a t).ftrp bp = s.ftrp bp := by
  rw [ftrp, ftrp, hdrp, get_put_of_ne ha.symm]

theorem Between.joinBoth_spec {R R' : List Piece} {p b n : Piece} (h : Between s R p b n) (hp : p.kind = .free)
    (hn : n.kind = .free) (hR : R.Perm (p :: n :: R')) {f : Piece} (hf : f = ⟨p.lo, b.len + (p.len + n.len), .free⟩) :
    ∃ mem', s.joinBoth (b.lo + 8) b.len = { s with mem := mem' } ∧ Rep s.pool mem' [] (f :: R') := by
  have hfirst : Rep s.pool (s.queueRemove (n.lo + 8)).mem [n, b] (p :: R') :=
    (h.rep.perm .rfl (hR.trans (List.Perm.swap n p R'))).remove (listed_of_free hn)
  have hremoved : Rep s.pool ((s.queueRemove (n.lo + 8)).queueRemove (p.lo + 8)).mem [p, n, b] R' :=
    hfirst.remove (listed_of_free hp)
  obtain ⟨hps, hbs, hns⟩ := h.sized
  have hnblock : n.IsBlock := .inr (.inr (.inr hn))
  have hnext := nextBlkp_eq hbs h.stored.2.1 h.isBlock h.next_lo
  have hprev : (s.queueRemove (n.lo + 8)).prevBlkp (b.lo + 8) = p.lo + 8 :=
    prevBlkp_eq (s := s.queueRemove (n.lo + 8)) hps (hfirst.stored p (by simp)) h.prev h.prev_hi
  obtain ⟨mem₂, hs₂⟩ : ∃ mem₂, (s.queueRemove (n.lo + 8)).queueRemove (p.lo + 8) = { s with mem := mem₂ } := ⟨_, rfl⟩
  have hboth : s.joinBoth (b.lo + 8) b.len = ({ s with mem := mem₂ } : Pool).putBoth (b.lo + 8) (p.lo + 8)
      (b.len + (p.len + n.len)) := by
    rw [hs₂] at hremoved
    have hprev₂ : ({ s with mem := mem₂ } : Pool).prevBlkp (b.lo + 8) = p.lo + 8 :=
      prevBlkp_eq (s := { s with mem := mem₂ }) hps (hremoved.stored p (by simp)) h.prev h.prev_hi
    have hnext₂ : ({ s with mem := mem₂ } : Pool).nextBlkp (b.lo + 8) = n.lo + 8 :=
      nextBlkp_eq (s := { s with mem := mem₂ }) hbs (hremoved.stored b (by simp)) h.isBlock h.next_lo
    have hftrp₂ : ({ s with mem := mem₂ } : Pool).ftrp (n.lo + 8) = n.hi - 8 :=
      ftrp_eq (s := { s with mem := mem₂ }) hns (hremoved.stored n (by simp)) hnblock
    rw [← hs₂]
    refine joinBoth_eq hnext hprev ?_ ?_
    · rw [hs₂, hprev₂]
      exact ((hremoved.stored p (by simp)).getSize hps h.prev).1
    · rw [hs₂, hnext₂, hftrp₂]
      exact ((hremoved.stored n (by simp)).getSize hns hnblock).2
  rw [hs₂] at hremoved
  have hbb := hbs.isBlock h.isBlock
  have hpb := hps.isBlock h.prev
  have hnb := hns.isBlock hnblock
  have hsmall := h.small
  have hphi : p.lo + p.len = b.lo := h.prev_hi
  have hbhi : b.lo + b.len = n.lo := h.next_lo
  have hnhi : n.hi = n.lo + n.len := rfl
  have hfhi : f.hi = n.hi := by
    simp only [hf, Piece.hi]
    omega
  have hflo : f.lo = p.lo := by rw [hf]
  have hfkind : f.kind = .free := by rw [hf]
  have hflen : f.len = b.len + (p.len + n.len) := by rw [hf]
  have hftag : f.tag = pack (b.len + (p.len + n.len)) 0 := by
    rw [Piece.tag, hfkind, hflen]
    rfl
  have hfs : f.Sized s.pool := by
    rw [hf]
    exact ⟨hpb.1, Nat.dvd_add hbb.2.1 (Nat.dvd_add hpb.2.1 hnb.2.1), by dsimp only; omega, by dsimp only; omega⟩
  have hhdrp : hdrp (({ s with mem := mem₂ } : Pool).prevBlkp (b.lo + 8)) = p.lo := by
    rw [prevBlkp_eq (s := { s with mem := mem₂ }) hps (hremoved.stored p (by simp)) h.prev h.prev_hi]
    rfl
  have hftrp : (({ s with mem := mem₂ } : Pool).put p.lo (pack (b.len + (p.len + n.len)) 0)).ftrp
      ((({ s with mem := mem₂ } : Pool).put p.lo (pack (b.len + (p.len + n.len)) 0)).nextBlkp (b.lo + 8)) =
        n.hi - 8 := by
    rw [nextBlkp_put (by omega), nextBlkp_eq (s := { s with mem := mem₂ }) hbs (hremoved.stored b (by simp))
      h.isBlock h.next_lo, ftrp_put (by omega)]
    exact ftrp_eq (s := { s with mem := mem₂ }) hns (hremoved.stored n (by simp)) hnblock
  have hkinds : ∀ c ∈ [p, b, n], c.kind = .free := by
    intro c hc
    simp only [List.mem_cons, List.not_mem_nil, or_false] at hc
    rcases hc with rfl | rfl | rfl
    · exact hp
    · exact h.free
    · exact hn
  obtain ⟨hhi, hlo, hothers⟩ := get_put_put (s := { s with mem := mem₂ }) (a := p.lo) (x := n.hi - 8)
    (tag_lt_of_free hfkind hfs) (by omega)
  have htiles : Tiles p.lo [p, b, n] n.hi := ⟨rfl, h.prev_hi.symm, h.next_lo.symm, rfl⟩
  have hjoin := join_spec (hremoved.perm ((List.Perm.swap b n []).cons p) .rfl) htiles (List.cons_ne_nil _ _)
    (kind_ne_of_free hkinds) hfkind ⟨hflo, hfhi⟩ hfs (by rw [hflo]; exact hlo) (by rw [hfhi]; exact hhi)
    (by rw [hflo, hfhi]; exact fun y hylo hyhi => hothers y hylo hyhi)
  refine ⟨_, ?_, hjoin⟩
  rw [hboth, putBoth_eq hhdrp hftrp, hftag, hflen, hflo]
  rfl

theorem coalesce_eq {bp size : ℕ} {p n : Prop} [Decidable p] [Decidable n]
    (hp : getAlloc (get s.mem (s.ftrp (s.prevBlkp bp))) = 0 ↔ p)
      (hn : getAlloc (get s.mem (hdrp (s.nextBlkp bp))) = 0 ↔ n)
    (hsize : getSize (get s.mem (hdrp bp)) = size) :
    s.coalesce bp = if p then (if n then s.joinBoth bp size else s.joinPrev bp size)
      else if n then s.joinNext bp size else s.queueInsertHead (s.block (getindex size)) bp := by
  subst hsize
  rw [coalesce]
  by_cases h1 : p <;> by_cases h2 : n <;> simp [h1, h2, hp, hn]

/-- The block is merged with the free ones beside it. -/
theorem Between.coalesce_spec {R R' : List Piece} {p b n : Piece} (h : Between s R p b n)
    (hR : R.Perm ((if p.kind = .free then [p] else []) ++ (if n.kind = .free then [n] else []) ++ R')) :
    ∃ mem', s.coalesce (b.lo + 8) = { s with mem := mem' } ∧ Rep s.pool mem' [] (coalesced p b n :: R') := by
  obtain ⟨hps, hbs, hns⟩ := h.sized
  have hprev : getAlloc (get s.mem (s.ftrp (s.prevBlkp (b.lo + 8)))) = 0 ↔ p.kind = .free := by
    rw [prevBlkp_eq hps h.stored.1 h.prev h.prev_hi, ftrp_eq hps h.stored.1 h.prev, (h.stored.1.tags h.prev).2]
    exact Piece.getAlloc_tag hps h.prev
  have hnext : getAlloc (get s.mem (hdrp (s.nextBlkp (b.lo + 8)))) = 0 ↔ n.kind = .free := by
    rw [nextBlkp_eq hbs h.stored.2.1 h.isBlock h.next_lo]
    exact h.next.getAlloc hns h.stored.2.2
  have hsize : getSize (get s.mem (hdrp (b.lo + 8))) = b.len := (h.stored.2.1.getSize hbs h.isBlock).1
  rw [coalesce_eq hprev hnext hsize]
  by_cases hp : p.kind = .free
  · by_cases hn : n.kind = .free
    · rw [if_pos hp, if_pos hn] at hR ⊢
      exact h.joinBoth_spec hp hn hR (by simp [coalesced, hp, hn])
    · rw [if_pos hp, if_neg hn] at hR ⊢
      exact h.joinPrev_spec hp hR (by simp [coalesced, hp, hn])
  · by_cases hn : n.kind = .free
    · rw [if_neg hp, if_pos hn] at hR ⊢
      exact h.joinNext_spec hn hR (by simp [coalesced, hp, hn])
    · rw [if_neg hp, if_neg hn] at hR ⊢
      have hmerged : coalesced p b n = b := by
        rw [coalesced, if_neg hp, if_neg hp, if_neg hn, ← h.free]
        rfl
      rw [hmerged]
      exact ⟨_, rfl, (h.rep.perm .rfl hR).insertHead (listed_of_free h.free)⟩

end Pool

end Tefs.NameServer.MemPool
