import Mathlib.Algebra.BigOperators.Group.Finset.Basic
import Mathlib.Algebra.Order.BigOperators.Group.Finset
import Tefs.Message.ProxyAgree

/-! # The entries of a download response

Source: `gfs_busi_download_tobuf` of `nameservice/busi/gfs_busi_download.c`.

The loop takes a row when its server is online and fewer than `copies` rows of its block were taken before. It stops
behind 151 entries, so the answer is the front of this list, and it is complete only when the whole list is no longer.
-/

namespace Tefs.Message
open Wire
set_option autoImplicit false

namespace BlockLoop

variable (copies : ℕ) (net : BitVec 32 → Option DataServer)

/-! ## What the loop takes -/

/-- The entry for a row, if its server is online -/
def entryOf (row : SqlBlock) : Option (BitVec 32 × DataServer) := (net row.dsid).map (row.bindex, ·)

/-- The rows of a block whose server is online -/
def replicas (rows : List SqlBlock) (i : BitVec 32) : List SqlBlock :=
  rows.filter fun row => (net row.dsid).isSome ∧ row.bindex = i

/-- The rows that are among the first `copies` online ones of their block; `before` are the rows in front. -/
def chosenFrom : List SqlBlock → List SqlBlock → List SqlBlock
  | _, [] => []
  | before, row :: rows =>
    if (net row.dsid).isSome ∧ (replicas net before row.bindex).length < copies then
      row :: chosenFrom (before ++ [row]) rows
    else chosenFrom (before ++ [row]) rows

def chosen (rows : List SqlBlock) : List SqlBlock := chosenFrom copies net [] rows

/-- The rows for which the loop adds an entry -/
def takenFrom : BlockLoop → List SqlBlock → List SqlBlock
  | _, [] => []
  | l, row :: rows =>
    if l.b < (l.turn copies net row).b then row :: takenFrom (l.turn copies net row) rows
    else takenFrom (l.turn copies net row) rows

/-- `buf->pos` after `gfs_busi_download_tobuf` -/
def queued (l : BlockLoop) : BitVec 32 := BitVec.ofNat 32 l.b * 24 + 36

end BlockLoop

open BlockLoop

/-- The loop before its first turn, the head and the file id in place -/
def startLoop (rsh pdata : ℤ → BitVec 8) (id msgType rtn : BitVec 32) (fid : BitVec 64) : BlockLoop where
  pdata := poke (poke pdata 0 (bytesAt (setRspHead 36 id msgType rtn rsh) 0 20)) 20 (littleEndian (ntohll fid) 8)

/-- What is asked of the answer `(l, sent)` whose entries were made for the rows `taken`: they are those of online listed
servers, in the order of the blocks, for each block as many different ones as there are but no more than `copies`; the
length, the count and the bytes queued agree. -/
structure ListsAll (copies : ℕ) (net : BitVec 32 → Option DataServer) (rows taken : List SqlBlock) (l : BlockLoop)
    (sent : ℤ → BitVec 8) : Prop where
  entries : l.blocks.map some = taken.map (entryOf net)
  listed : taken.Sublist rows
  ordered : taken.Pairwise fun a b => a.bindex.toInt ≤ b.bindex.toInt
  distinct : taken.Nodup
  counts : ∀ i, (taken.filter fun row => row.bindex = i).length = min copies (replicas net rows i).dedup.length
  len : (ofBigEndian 32 (bytesAt sent 0 4)).toNat = 36 + 24 * l.b
  bnum : (ofBigEndian 32 (bytesAt sent 28 4)).toNat = l.b
  queued : l.queued.toNat = 36 + 24 * l.b

/-- The sum over the blocks of what each has to get into the answer -/
def wanted (copies : ℕ) (net : BitVec 32 → Option DataServer) (rows : List SqlBlock) : ℕ :=
  ∑ i ∈ (rows.map SqlBlock.bindex).toFinset, min copies (replicas net rows i).dedup.length

namespace BlockLoop

variable {copies : ℕ} {net : BitVec 32 → Option DataServer} {l : BlockLoop} {row : SqlBlock} {rows before : List SqlBlock}

/-- A turn adds the row's entry or leaves the entries alone. -/
theorem turn_blocks (copies : ℕ) (net : BitVec 32 → Option DataServer) (l : BlockLoop) (row : SqlBlock) :
    (l.turn copies net row).blocks = l.blocks ∨
      ∃ server, net row.dsid = some server ∧ (l.turn copies net row).blocks = l.blocks ++ [(row.bindex, server)] := by
  unfold turn
  split
  · exact .inl rfl
  · split
    · exact .inl rfl
    · have hreset : (if copies ≤ l.dsnum then { l with dsnum := 0 } else l).blocks = l.blocks := by
        split <;> rfl
      dsimp only
      generalize (if copies ≤ l.dsnum then { l with dsnum := 0 } else l) = l' at hreset ⊢
      split
      · exact .inl hreset
      · cases hnet : net row.dsid with
        | none => exact .inl hreset
        | some server => exact .inr ⟨server, rfl, congrArg (· ++ [(row.bindex, server)]) hreset⟩

theorem takenFrom_sublist (l : BlockLoop) (rows : List SqlBlock) : (takenFrom copies net l rows).Sublist rows := by
  induction rows generalizing l with
  | nil => exact .slnil
  | cons row rows ih =>
    rw [takenFrom]
    split
    · exact (ih _).cons_cons row
    · exact (ih _).cons row

theorem foldl_blocks (l : BlockLoop) (rows : List SqlBlock) :
    (rows.foldl (turn copies net) l).blocks.map some =
      l.blocks.map some ++ (takenFrom copies net l rows).map (entryOf net) := by
  induction rows generalizing l with
  | nil => simp [takenFrom]
  | cons row rows ih =>
    rw [List.foldl_cons, ih, takenFrom]
    rcases turn_blocks copies net l row with hsame | ⟨server, hserver, hadded⟩
    · rw [if_neg (by simp [b, hsame]), hsame]
    · rw [if_pos (by simp [b, hadded]), hadded]
      simp [entryOf, hserver]

/-! ## The counter -/

/-- What the counter means behind the rows `before`: it counts the online rows of the last block, up to `copies`, or has
been set back at a row of a later block. -/
structure Counts (copies : ℕ) (net : BitVec 32 → Option DataServer) (before : List SqlBlock) (l : BlockLoop) : Prop where
  none : l.blocks = [] → l.dsnum = 0 ∧ ∀ row ∈ before, net row.dsid = none
  last : ∀ block ∈ l.blocks.getLast?, block.1 = l.bindex
  here : l.blocks ≠ [] → ∃ row ∈ before, row.bindex = l.bindex
  below : l.blocks ≠ [] → ∀ row ∈ before, (net row.dsid).isSome → row.bindex.toInt ≤ l.bindex.toInt
  count : l.blocks ≠ [] → l.dsnum = min copies (replicas net before l.bindex).length ∨
    l.dsnum = 0 ∧ ∃ row ∈ before, l.bindex.toInt < row.bindex.toInt

/-- The index of the last entry, read back -/
theorem hostInt_last {pdata : ℤ → BitVec 8} (h : Inv pdata l) {init : List (BitVec 32 × DataServer)}
    {block : BitVec 32 × DataServer} (hlast : l.blocks = init ++ [block]) :
    ntohl (hostInt 32 4 l.pdata (entry (l.b - 1))) = block.1 := by
  have hblocks := h.blocks
  rw [hlast, List.flatMap_append, List.flatMap_singleton, holds_append,
    length_flatMap_of_length blockFootprint_length, blockFootprint, holds_append] at hblocks
  have hplace : (32 : ℤ) + (24 * init.length : ℕ) = entry (l.b - 1) := by
    rw [entry, b, hlast, List.length_append, List.length_singleton]
    push_cast
    omega
  rw [hplace] at hblocks
  exact ntohl_hostInt hblocks.2.1

theorem replicas_append (before : List SqlBlock) (row : SqlBlock) (i : BitVec 32) :
    replicas net (before ++ [row]) i =
      replicas net before i ++ if (net row.dsid).isSome ∧ row.bindex = i then [row] else [] := by
  rw [replicas, List.filter_append, replicas]
  congr 1
  by_cases hrow : (net row.dsid).isSome ∧ row.bindex = i <;> simp [hrow]

/-- The block of the last entry has enough. -/
theorem enough_iff {pdata : ℤ → BitVec 8} (h : Inv pdata l) (hcounts : Counts copies net before l) (hcopies : 1 ≤ copies)
    (row : SqlBlock) : l.Enough copies row ↔ copies ≤ l.dsnum ∧ l.blocks ≠ [] ∧ l.bindex = row.bindex := by
  rw [Enough]
  refine and_congr_right fun hdsnum => ?_
  by_cases hempty : l.blocks = []
  · have hzero := (hcounts.none hempty).1
    omega
  · obtain ⟨init, block, hlast⟩ := (List.eq_nil_or_concat' l.blocks).resolve_left hempty
    have hread := hostInt_last h hlast
    have hindex : block.1 = l.bindex := hcounts.last block (by simp [hlast])
    rw [← hindex, ← hread]
    constructor
    · intro heq
      exact ⟨hempty, by rw [heq, ntohl_ntohl]⟩
    · rintro ⟨-, heq⟩
      rw [← heq, ntohl_ntohl]

/-- The counter set back where the last block had enough -/
def reset (copies : ℕ) (l : BlockLoop) : BlockLoop := if copies ≤ l.dsnum then { l with dsnum := 0 } else l

theorem reset_blocks (copies : ℕ) (l : BlockLoop) : (l.reset copies).blocks = l.blocks := by
  rw [reset]
  split <;> rfl

theorem reset_bindex (copies : ℕ) (l : BlockLoop) : (l.reset copies).bindex = l.bindex := by
  rw [reset]
  split <;> rfl

theorem reset_stopped (copies : ℕ) (l : BlockLoop) : (l.reset copies).stopped = l.stopped := by
  rw [reset]
  split <;> rfl

theorem turn_eq (copies : ℕ) (net : BitVec 32 → Option DataServer) (hgo : l.stopped = false)
    (henough : ¬ l.Enough copies row) (hroom : ¬ 150 < l.b) :
    l.turn copies net row = (l.reset copies).add row (net row.dsid) := by
  have hb : (l.reset copies).b = l.b := congrArg List.length (reset_blocks copies l)
  rw [turn, if_neg (by simp [hgo]), if_neg henough]
  show (if 150 < (l.reset copies).b then _ else (l.reset copies).add row (net row.dsid)) = _
  rw [hb, if_neg hroom]

/-- A block that is not the last entry's has no entry yet. -/
theorem replicas_nil (hcounts : Counts copies net before l) (hsorted : ∀ r ∈ before, r.bindex.toInt ≤ row.bindex.toInt)
    (hne : l.blocks = [] ∨ l.bindex ≠ row.bindex) : replicas net before row.bindex = [] := by
  rw [replicas, List.filter_eq_nil_iff]
  intro r hr honline
  simp only [decide_eq_true_eq] at honline
  by_cases hempty : l.blocks = []
  · simp [(hcounts.none hempty).2 r hr] at honline
  · obtain ⟨r₀, hr₀, hlast⟩ := hcounts.here hempty
    have hup := hsorted r₀ hr₀
    have hdown := hcounts.below hempty r hr honline.1
    rw [hlast] at hup
    rw [honline.2] at hdown
    exact hne.elim hempty fun hdiff => hdiff (BitVec.eq_of_toInt_eq (by omega))

/-- Where the last block has not enough, the counter after an entry for `row` is right. -/
theorem next_count (hcounts : Counts copies net before l) (hcopies : 1 ≤ copies)
    (hsorted : ∀ r ∈ before, r.bindex.toInt ≤ row.bindex.toInt)
    (henough : ¬ (copies ≤ l.dsnum ∧ l.blocks ≠ [] ∧ l.bindex = row.bindex)) :
    (replicas net before row.bindex).length < copies ∧
      (if l.bindex ≠ row.bindex then 1 else (l.reset copies).dsnum + 1) =
        (replicas net before row.bindex).length + 1 := by
  by_cases hne : l.blocks = [] ∨ l.bindex ≠ row.bindex
  · have hnil := replicas_nil hcounts hsorted hne
    rw [hnil, List.length_nil]
    refine ⟨hcopies, ?_⟩
    split
    · rfl
    next hsame =>
      have hzero := (hcounts.none (hne.resolve_right hsame)).1
      rw [reset, if_neg (by omega), hzero]
  · obtain ⟨hblocks, hsame⟩ := not_or.mp hne
    rw [not_not] at hsame
    have hfew : ¬ copies ≤ l.dsnum := fun hdsnum => henough ⟨hdsnum, hblocks, hsame⟩
    have hcount : l.dsnum = min copies (replicas net before l.bindex).length := by
      refine (hcounts.count hblocks).resolve_right ?_
      rintro ⟨-, r, hr, hlt⟩
      have hle := hsorted r hr
      rw [hsame] at hlt
      omega
    rw [← hsame, reset, if_neg hfew, if_neg (not_not.mpr rfl)]
    omega

/-- One turn, up to the cap -/
theorem counts_turn {pdata : ℤ → BitVec 8} (hinv : Inv pdata l) (hcounts : Counts copies net before l)
    (hcopies : 1 ≤ copies) (hsorted : ∀ r ∈ before, r.bindex.toInt ≤ row.bindex.toInt) (hgo : l.stopped = false)
    (hroom : ¬ 150 < l.b) :
    (l.turn copies net row).stopped = false ∧ Counts copies net (before ++ [row]) (l.turn copies net row) ∧
      (l.turn copies net row).b = l.b +
        if (net row.dsid).isSome ∧ (replicas net before row.bindex).length < copies then 1 else 0 := by
  have hall : ∀ r ∈ before ++ [row], r.bindex.toInt ≤ row.bindex.toInt := by
    intro r hr
    rcases List.mem_append.mp hr with hr | hr
    · exact hsorted r hr
    · rw [List.mem_singleton.mp hr]
  by_cases henough : l.Enough copies row
  · have hsame : l.turn copies net row = l := by rw [turn, if_neg (by simp [hgo]), if_pos henough]
    rw [enough_iff hinv hcounts hcopies row] at henough
    obtain ⟨hdsnum, hblocks, hindex⟩ := henough
    have hcount : l.dsnum = min copies (replicas net before row.bindex).length := by
      rw [← hindex]
      refine (hcounts.count hblocks).resolve_right fun hzero => ?_
      have := hzero.1
      omega
    rw [hsame, if_neg (by omega)]
    refine ⟨hgo, ⟨fun hempty => absurd hempty hblocks, hcounts.last, fun _ => ⟨row, by simp, hindex.symm⟩, fun _ => ?_,
      fun _ => .inl ?_⟩, rfl⟩
    · rw [hindex]
      exact fun r hr _ => hall r hr
    · rw [hindex, replicas_append, List.length_append]
      omega
  · rw [turn_eq copies net hgo henough hroom]
    rw [enough_iff hinv hcounts hcopies row] at henough
    obtain ⟨hfew, hnext⟩ := next_count hcounts hcopies hsorted henough
    cases hnet : net row.dsid with
    | none =>
      have hfields : ((l.reset copies).add row none).blocks = l.blocks ∧
          ((l.reset copies).add row none).bindex = l.bindex ∧
          ((l.reset copies).add row none).dsnum = (l.reset copies).dsnum :=
        ⟨reset_blocks copies l, reset_bindex copies l, rfl⟩
      obtain ⟨hblocks, hbindex, hdsnum⟩ := hfields
      have hreplicas : replicas net (before ++ [row]) l.bindex = replicas net before l.bindex := by
        rw [replicas_append, if_neg (by simp [hnet]), List.append_nil]
      refine ⟨(reset_stopped copies l).trans hgo, ⟨fun hempty => ?_, ?_, fun hne => ?_, fun hne => ?_, fun hne => ?_⟩, ?_⟩
      · rw [hblocks] at hempty
        obtain ⟨hzero, hnone⟩ := hcounts.none hempty
        refine ⟨by rw [hdsnum, reset, if_neg (by omega), hzero], fun r hr => ?_⟩
        rcases List.mem_append.mp hr with hr | hr
        · exact hnone r hr
        · rw [List.mem_singleton.mp hr, hnet]
      · rw [hblocks, hbindex]
        exact hcounts.last
      · rw [hblocks] at hne
        obtain ⟨r, hr, hlast⟩ := hcounts.here hne
        exact ⟨r, List.mem_append_left [row] hr, hlast.trans hbindex.symm⟩
      · rw [hblocks] at hne
        rw [hbindex]
        intro r hr honline
        rcases List.mem_append.mp hr with hr | hr
        · exact hcounts.below hne r hr honline
        · rw [List.mem_singleton.mp hr, hnet] at honline
          cases honline
      · rw [hblocks] at hne
        rw [hdsnum, hbindex, hreplicas, reset]
        split
        next henoughAt =>
          -- The counter is set back only for a row of another block, which is a later one.
          right
          refine ⟨rfl, row, by simp, ?_⟩
          obtain ⟨r, hr, hlast⟩ := hcounts.here hne
          have hle := hsorted r hr
          rw [hlast] at hle
          have hdiff : l.bindex.toInt ≠ row.bindex.toInt :=
            fun heq => henough ⟨henoughAt, hne, BitVec.eq_of_toInt_eq heq⟩
          omega
        · refine (hcounts.count hne).imp_right fun ⟨hzero, r, hr, hlt⟩ => ⟨hzero, r, ?_, hlt⟩
          exact List.mem_append_left [row] hr
      · rw [if_neg (by simp)]
        exact congrArg List.length hblocks
    | some server =>
      have hfields : ((l.reset copies).add row (some server)).blocks = l.blocks ++ [(row.bindex, server)] ∧
          ((l.reset copies).add row (some server)).dsnum =
            if l.bindex ≠ row.bindex then 1 else (l.reset copies).dsnum + 1 := by
        rw [← reset_blocks copies l, ← reset_bindex copies l]
        exact ⟨rfl, rfl⟩
      obtain ⟨hblocks, hdsnum⟩ := hfields
      have hindex : ((l.reset copies).add row (some server)).bindex = row.bindex := rfl
      refine ⟨(reset_stopped copies l).trans hgo, ⟨fun hempty => ?_, ?_, fun _ => ⟨row, by simp, hindex.symm⟩,
        fun _ r hr _ => hall r hr, fun _ => .inl ?_⟩, ?_⟩
      · rw [hblocks] at hempty
        simp at hempty
      · rw [hblocks, hindex]
        simp
      · rw [hdsnum, hnext, hindex, replicas_append, if_pos ⟨by simp [hnet], rfl⟩, List.length_append, List.length_singleton]
        omega
      · rw [if_pos ⟨rfl, hfew⟩, b, hblocks, List.length_append, List.length_singleton, b]

theorem turn_full (hfull : 150 < l.b) : (l.turn copies net row).b = l.b := by
  have hb : (l.reset copies).b = l.b := congrArg List.length (reset_blocks copies l)
  rw [turn]
  split
  · rfl
  · split
    · rfl
    · show BlockLoop.b (if 150 < (l.reset copies).b then { l.reset copies with stopped := true } else _) = _
      rw [hb, if_pos hfull]
      exact hb

theorem takenFrom_full (hfull : 150 < l.b) (rows : List SqlBlock) : takenFrom copies net l rows = [] := by
  induction rows generalizing l with
  | nil => rfl
  | cons row rows ih =>
    have hturn : (l.turn copies net row).b = l.b := turn_full hfull
    rw [takenFrom, if_neg (by omega), ih (by omega)]

/-- The loop takes the chosen rows, up to the cap. -/
theorem takenFrom_eq {pdata : ℤ → BitVec 8} (hcopies : 1 ≤ copies) (hinv : Inv pdata l)
    (hcounts : Counts copies net before l) (hgo : l.stopped = false)
    (hsorted : (before ++ rows).Pairwise fun r r' => r.bindex.toInt ≤ r'.bindex.toInt) :
    takenFrom copies net l rows = (chosenFrom copies net before rows).take (151 - l.b) := by
  induction rows generalizing l before with
  | nil => simp [takenFrom, chosenFrom]
  | cons row rows ih =>
    by_cases hfull : 150 < l.b
    · rw [takenFrom_full hfull, show 151 - l.b = 0 by omega, List.take_zero]
    · have hbefore : ∀ r ∈ before, r.bindex.toInt ≤ row.bindex.toInt :=
        fun r hr => (List.pairwise_append.mp hsorted).2.2 r hr row List.mem_cons_self
      obtain ⟨hgo', hcounts', hb⟩ := counts_turn hinv hcounts hcopies hbefore hgo hfull
      have hrest := ih (hinv.turn copies net row) hcounts' hgo' (by rwa [← List.append_cons])
      rw [takenFrom, chosenFrom, hrest]
      by_cases hchosen : (net row.dsid).isSome ∧ (replicas net before row.bindex).length < copies
      · rw [if_pos hchosen] at hb ⊢
        rw [if_pos (by omega), hb, show 151 - l.b = (151 - (l.b + 1)) + 1 by omega, List.take_succ_cons]
      · rw [if_neg hchosen] at hb ⊢
        rw [if_neg (by omega), hb]
        rfl

/-! ## Completeness -/

theorem filter_chosenFrom (before rows : List SqlBlock) (i : BitVec 32) :
    (chosenFrom copies net before rows).filter (fun row => row.bindex = i) =
      (replicas net rows i).take (copies - (replicas net before i).length) := by
  induction rows generalizing before with
  | nil => simp [chosenFrom, replicas]
  | cons row rows ih =>
    have hrest := ih (before ++ [row])
    rw [replicas_append] at hrest
    by_cases hrow : (net row.dsid).isSome ∧ row.bindex = i
    · have hreplicas : replicas net (row :: rows) i = row :: replicas net rows i := by
        rw [replicas, List.filter_cons_of_pos (by simpa using hrow), replicas]
      rw [if_pos hrow, List.length_append, List.length_singleton] at hrest
      obtain ⟨honline, rfl⟩ := hrow
      rw [chosenFrom, hreplicas]
      split
      next hchosen =>
        rw [List.filter_cons_of_pos (by simp), hrest, show copies - (replicas net before row.bindex).length =
          copies - ((replicas net before row.bindex).length + 1) + 1 by omega, List.take_succ_cons]
      next hnot =>
        have hfull : copies ≤ (replicas net before row.bindex).length := by
          by_contra hfew
          exact hnot ⟨honline, by omega⟩
        rw [hrest, show copies - ((replicas net before row.bindex).length + 1) = 0 by omega,
          show copies - (replicas net before row.bindex).length = 0 by omega, List.take_zero, List.take_zero]
    · have hreplicas : replicas net (row :: rows) i = replicas net rows i := by
        rw [replicas, List.filter_cons_of_neg (by simpa using hrow), replicas]
      rw [if_neg hrow, List.append_nil] at hrest
      rw [chosenFrom, hreplicas, ← hrest]
      split
      next hchosen =>
        rw [List.filter_cons_of_neg]
        simpa using fun heq => hrow ⟨hchosen.1, heq⟩
      · rfl

theorem filter_chosen (rows : List SqlBlock) (i : BitVec 32) :
    (chosen copies net rows).filter (fun row => row.bindex = i) = (replicas net rows i).take copies := by
  rw [chosen, filter_chosenFrom]
  rfl

/-- The rows of a part of the list, counted block by block -/
theorem sum_filter_bindex {taken : List SqlBlock} (hsub : taken.Sublist rows) :
    ∑ i ∈ (rows.map SqlBlock.bindex).toFinset, (taken.filter fun row => row.bindex = i).length = taken.length := by
  have hcount : ∀ i, (taken.filter fun row => row.bindex = i).length =
      Multiset.count i (taken.map SqlBlock.bindex : Multiset (BitVec 32)) := by
    intro i
    rw [Multiset.coe_count, List.count, List.countP_map, List.countP_eq_length_filter]
    rfl
  simp only [hcount]
  rw [Multiset.sum_count_eq_card]
  · simp
  · intro i hi
    rw [List.mem_toFinset]
    exact (hsub.map SqlBlock.bindex).subset (by simpa using hi)

/-- Different rows of a block: no more than there are different online ones. -/
theorem filter_le_dedup {taken : List SqlBlock} (hsub : taken.Sublist (chosen copies net rows)) (hnodup : taken.Nodup)
    (i : BitVec 32) :
    (taken.filter fun row => row.bindex = i).length ≤ min copies (replicas net rows i).dedup.length := by
  have hpart := hsub.filter fun row => row.bindex = i
  rw [filter_chosen] at hpart
  refine le_min ?_ ?_
  · exact hpart.length_le.trans (List.length_take_le _ _)
  · have hdedup : ((taken.filter fun row => row.bindex = i)).Nodup := hnodup.filter _
    refine (List.Nodup.subperm hdedup fun row hrow => ?_).length_le
    exact List.mem_dedup.mpr (List.mem_of_mem_take (hpart.subset hrow))

theorem counts_of_fits (hnodup : ((chosen copies net rows).take 151).Nodup) (hwanted : wanted copies net rows ≤ 151)
    (hsub : ((chosen copies net rows).take 151).Sublist rows) (i : BitVec 32) :
    (((chosen copies net rows).take 151).filter fun row => row.bindex = i).length =
      min copies (replicas net rows i).dedup.length := by
  have hle := filter_le_dedup (List.take_sublist 151 _) hnodup
  by_cases hlong : (chosen copies net rows).length ≤ 151
  · rw [List.take_of_length_le hlong] at hle ⊢
    refine (hle i).antisymm ?_
    rw [filter_chosen, List.length_take]
    have := (List.dedup_sublist (replicas net rows i)).length_le
    omega
  · have hsum := sum_filter_bindex hsub
    rw [List.length_take] at hsum
    have htight : ∑ i ∈ (rows.map SqlBlock.bindex).toFinset,
        (((chosen copies net rows).take 151).filter fun row => row.bindex = i).length = wanted copies net rows :=
      le_antisymm (Finset.sum_le_sum fun i _ => hle i) (by omega)
    by_cases hi : i ∈ (rows.map SqlBlock.bindex).toFinset
    · exact (Finset.sum_eq_sum_iff_of_le fun i _ => hle i).mp htight i hi
    · have hnone : replicas net rows i = [] := by
        rw [replicas, List.filter_eq_nil_iff]
        intro row hrow honline
        simp only [decide_eq_true_eq] at honline
        exact hi (List.mem_toFinset.mpr (List.mem_map.mpr ⟨row, hrow, honline.2⟩))
      have := hle i
      rw [hnone] at this ⊢
      simp at this ⊢
      exact this

theorem counts_start (rsh pdata : ℤ → BitVec 8) (id msgType rtn : BitVec 32) (fid : BitVec 64) :
    Counts copies net [] (startLoop rsh pdata id msgType rtn fid) := by
  refine ⟨fun _ => ⟨rfl, fun row hrow => absurd hrow List.not_mem_nil⟩, fun block hblock => ?_, fun hne => absurd rfl hne,
    fun hne => absurd rfl hne, fun hne => absurd rfl hne⟩
  cases hblock

theorem inv_start (rsh pdata : ℤ → BitVec 8) (id msgType rtn : BitVec 32) (fid : BitVec 64) :
    Inv (startLoop rsh pdata id msgType rtn fid).pdata (startLoop rsh pdata id msgType rtn fid) :=
  inv_run 0 (fun _ => none) [] _

/-- The rows that become entries -/
def taken (rsh pdata : ℤ → BitVec 8) (id msgType rtn : BitVec 32) (fid : BitVec 64) (copies : ℕ)
    (net : BitVec 32 → Option DataServer) (rows : List SqlBlock) : List SqlBlock :=
  takenFrom copies net (startLoop rsh pdata id msgType rtn fid) rows

theorem taken_eq (rsh pdata : ℤ → BitVec 8) (id msgType rtn : BitVec 32) (fid : BitVec 64) (hcopies : 1 ≤ copies)
    (hsorted : rows.Pairwise fun r r' => r.bindex.toInt ≤ r'.bindex.toInt) :
    taken rsh pdata id msgType rtn fid copies net rows = (chosen copies net rows).take 151 :=
  takenFrom_eq hcopies (inv_start rsh pdata id msgType rtn fid) (counts_start rsh pdata id msgType rtn fid) rfl hsorted

end BlockLoop

/-- The answer to a request, and the rows its entries are made for, as `ListsAll` asks for them. -/
def Answers (rsh pdata : ℤ → BitVec 8) (id msgType rtn : BitVec 32) (fid : BitVec 64) (copies : ℕ)
    (net : BitVec 32 → Option DataServer) (rows : List SqlBlock) : Prop :=
  ListsAll copies net rows (taken rsh pdata id msgType rtn fid copies net rows)
    (downloadResponse rsh pdata id msgType rtn fid copies net rows).1
    (downloadResponse rsh pdata id msgType rtn fid copies net rows).2

section

variable {rsh pdata : ℤ → BitVec 8} {id msgType rtn : BitVec 32} {fid : BitVec 64} {copies : ℕ}
  {net : BitVec 32 → Option DataServer} {rows : List SqlBlock}

theorem Answers.fits (h : Answers rsh pdata id msgType rtn fid copies net rows) (hcopies : 1 ≤ copies)
    (hsorted : rows.Pairwise fun r r' => r.bindex.toInt ≤ r'.bindex.toInt) :
    ((chosen copies net rows).take 151).Nodup ∧ wanted copies net rows ≤ 151 := by
  have hdistinct := h.distinct
  have hcounts := h.counts
  have hlisted := h.listed
  rw [taken_eq rsh pdata id msgType rtn fid hcopies hsorted] at hdistinct hcounts hlisted
  refine ⟨hdistinct, ?_⟩
  calc wanted copies net rows
      = ∑ i ∈ (rows.map SqlBlock.bindex).toFinset,
          (((chosen copies net rows).take 151).filter fun row => row.bindex = i).length :=
        Finset.sum_congr rfl fun i _ => (hcounts i).symm
    _ = ((chosen copies net rows).take 151).length := sum_filter_bindex hlisted
    _ ≤ 151 := List.length_take_le _ _

theorem toNat_length {b : ℕ} (hb : b ≤ 151) : (36 + BitVec.ofNat 32 b * 24).toNat = 36 + 24 * b := by
  have hhead : (36 : BitVec 32).toNat = 36 := rfl
  have hentry : (24 : BitVec 32).toNat = 24 := rfl
  rw [BitVec.toNat_add, BitVec.toNat_mul, BitVec.toNat_ofNat, hhead, hentry]
  omega

theorem answers_of_fits (hcopies : 1 ≤ copies) (hsorted : rows.Pairwise fun r r' => r.bindex.toInt ≤ r'.bindex.toInt)
    (hnodup : ((chosen copies net rows).take 151).Nodup) (hwanted : wanted copies net rows ≤ 151) :
    Answers rsh pdata id msgType rtn fid copies net rows := by
  have htaken : taken rsh pdata id msgType rtn fid copies net rows = (chosen copies net rows).take 151 :=
    taken_eq rsh pdata id msgType rtn fid hcopies hsorted
  have hlisted : (taken rsh pdata id msgType rtn fid copies net rows).Sublist rows := takenFrom_sublist _ rows
  have hdownloaded := downloadResponse_holds rsh pdata id msgType rtn fid copies net rows
  have hbound : (downloadResponse rsh pdata id msgType rtn fid copies net rows).1.b ≤ 151 :=
    (inv_run copies net rows _).bound
  refine ⟨?_, hlisted, hsorted.sublist hlisted, ?_, fun i => ?_, ?_, ?_, ?_⟩
  · exact foldl_blocks (startLoop rsh pdata id msgType rtn fid) rows
  · rw [htaken]
    exact hnodup
  · rw [htaken] at hlisted ⊢
    exact counts_of_fits hnodup hwanted hlisted i
  · rw [bytesAt_of_holds_field hdownloaded.len, ofBigEndian_bigEndian _ 4 rfl]
    exact toNat_length hbound
  · rw [bytesAt_of_holds_field hdownloaded.bnum, ofBigEndian_bigEndian _ 4 rfl, BitVec.toNat_ofNat]
    exact Nat.mod_eq_of_lt (by rw [b] at hbound; omega)
  · rw [BlockLoop.queued, BitVec.add_comm]
    exact toNat_length hbound

end

theorem answers_iff_fits (rsh pdata : ℤ → BitVec 8) (id msgType rtn : BitVec 32) (fid : BitVec 64) (copies : ℕ)
    (net : BitVec 32 → Option DataServer) (rows : List SqlBlock) (hcopies : 1 ≤ copies)
    (hsorted : rows.Pairwise fun r r' => r.bindex.toInt ≤ r'.bindex.toInt) :
    Answers rsh pdata id msgType rtn fid copies net rows ↔
      ((chosen copies net rows).take 151).Nodup ∧ wanted copies net rows ≤ 151 :=
  ⟨fun h => h.fits hcopies hsorted, fun h => answers_of_fits hcopies hsorted h.1 h.2⟩

/-- Two blocks, the second with a server that is offline -/
theorem answers_iff_fits_two :
    Answers (fun _ => 0) (fun _ => 0) 0 0 0 7 2 (fun dsid => if dsid = 3 then none else some ⟨dsid, 9000⟩)
        [⟨0, 1⟩, ⟨0, 2⟩, ⟨1, 1⟩, ⟨1, 3⟩] ↔
      ((chosen 2 (fun dsid => if dsid = 3 then none else some ⟨dsid, 9000⟩)
        [⟨0, 1⟩, ⟨0, 2⟩, ⟨1, 1⟩, ⟨1, 3⟩]).take 151).Nodup ∧
      wanted 2 (fun dsid => if dsid = 3 then none else some ⟨dsid, 9000⟩) [⟨0, 1⟩, ⟨0, 2⟩, ⟨1, 1⟩, ⟨1, 3⟩] ≤ 151 :=
  answers_iff_fits _ _ _ _ _ _ _ _ _ (by decide) (by decide)

/-- A file of 76 blocks with two replicas of each -/
def twoOfEach : List SqlBlock := (List.range 76).flatMap fun i => [⟨BitVec.ofNat 32 i, 1⟩, ⟨BitVec.ofNat 32 i, 2⟩]

theorem last_block_incomplete :
    ¬ Answers (fun _ => 0) (fun _ => 0) 0 0 0 7 2 (fun dsid => some ⟨dsid, 9000⟩) twoOfEach := by
  have htrans : IsTrans SqlBlock fun r r' => r.bindex.toInt ≤ r'.bindex.toInt := ⟨fun _ _ _ => le_trans⟩
  have hsorted : twoOfEach.Pairwise fun r r' => r.bindex.toInt ≤ r'.bindex.toInt := by
    rw [← List.isChain_iff_pairwise]
    decide +kernel
  intro h
  have hfits := h.fits (by decide) hsorted
  exact absurd hfits.2 (by decide +kernel)

end Tefs.Message
