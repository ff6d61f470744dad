import Mathlib.Algebra.Order.Ring.Int
import Mathlib.Algebra.Order.Ring.Nat
import Mathlib.Data.List.Basic

/-! # Words as bytes, and programs that write and read them at a cursor

`bigEndian` and `ofBigEndian` are the bytes of a machine word, most significant first, and the word
they spell. `Writes` and `Reads` say what a program that moves along a buffer does to it: `some b` in
a footprint is a byte written or read, `none` one that is stepped over.
-/

namespace Tefs.Wire
set_option autoImplicit false

/-! ## The bytes of a word -/

section Words

variable {w : ℕ}

/-- Byte `i` from the end is `(v >> 8 * i) & 0xFF`. -/
def bigEndian (v : BitVec w) : ℕ → List (BitVec 8)
  | 0 => []
  | n + 1 => (v.sshiftRight (8 * n) &&& 0xFF#w).setWidth 8 :: bigEndian v n

def push (v : BitVec w) (b : BitVec 8) : BitVec w := v <<< 8 ||| b.setWidth w

def ofBigEndian (w : ℕ) (bs : List (BitVec 8)) : BitVec w := bs.foldl push 0

/-- The word a little-endian machine loads from `bs`. -/
def ofLittleEndian (w : ℕ) (bs : List (BitVec 8)) : BitVec w := ofBigEndian w bs.reverse

def littleEndian (v : BitVec w) (n : ℕ) : List (BitVec 8) := (bigEndian v n).reverse

def byteSwap (n : ℕ) (v : BitVec w) : BitVec w := ofBigEndian w (littleEndian v n)

@[simp] theorem bigEndian_length (v : BitVec w) (n : ℕ) : (bigEndian v n).length = n := by
  induction n with
  | zero => rfl
  | succ n ih => rw [bigEndian, List.length_cons, ih]

theorem bigEndian_getD (v : BitVec w) (n i : ℕ) (hi : i < n) :
    (bigEndian v n).getD i 0 = (v.sshiftRight (8 * (n - 1 - i)) &&& 0xFF#w).setWidth 8 := by
  induction n generalizing i with
  | zero => omega
  | succ n ih =>
    cases i with
    | zero => rfl
    | succ i =>
      have hsub : n + 1 - 1 - (i + 1) = n - 1 - i := by omega
      rw [bigEndian, List.getD_cons_succ, ih i (by omega), hsub]

theorem bigEndian_getLsbD (v : BitVec w) (n i j : ℕ) (hw : w = 8 * n) (hi : i < n) (hj : j < 8) :
    ((bigEndian v n).getD i 0).getLsbD j = v.getLsbD (8 * (n - 1 - i) + j) := by
  have hlt : 8 * (n - 1 - i) + j < w := by omega
  have hmask : (0xFF#w).getLsbD j = true := by
    rw [BitVec.getLsbD_ofNat, show (255 : ℕ) = 2 ^ 8 - 1 from rfl, Nat.testBit_two_pow_sub_one]
    simp only [hj, decide_true, Bool.and_true, decide_eq_true_eq]
    omega
  have hjw : ¬ w ≤ j := by omega
  rw [bigEndian_getD v n i hi, BitVec.getLsbD_setWidth, BitVec.getLsbD_and, hmask,
    BitVec.getLsbD_sshiftRight, if_pos hlt]
  simp [hj, hjw]

theorem getLsbD_push (v : BitVec w) (b : BitVec 8) (k : ℕ) (hk : k < w) :
    (push v b).getLsbD k = if k < 8 then b.getLsbD k else v.getLsbD (k - 8) := by
  rw [push, BitVec.getLsbD_or, BitVec.getLsbD_shiftLeft, BitVec.getLsbD_setWidth]
  by_cases h8 : k < 8
  · simp [h8, hk]
  · have hb : b.getLsbD k = false := BitVec.getLsbD_of_ge b k (by omega)
    simp [h8, hk, hb]

theorem getLsbD_foldl_push (bs : List (BitVec 8)) (acc : BitVec w) (k : ℕ) (hk : k < w) :
    (bs.foldl push acc).getLsbD k =
      if k < 8 * bs.length then (bs.getD (bs.length - 1 - k / 8) 0).getLsbD (k % 8)
      else acc.getLsbD (k - 8 * bs.length) := by
  induction bs generalizing acc with
  | nil => simp
  | cons b bs ih =>
    rw [List.foldl_cons, ih (push acc b), List.length_cons]
    by_cases hlow : k < 8 * bs.length
    · have hidx : bs.length + 1 - 1 - k / 8 = (bs.length - 1 - k / 8) + 1 := by omega
      rw [if_pos hlow, if_pos (by omega), hidx, List.getD_cons_succ]
    · rw [if_neg hlow, getLsbD_push acc b _ (by omega)]
      by_cases hmid : k - 8 * bs.length < 8
      · have hidx : bs.length + 1 - 1 - k / 8 = 0 := by omega
        have hmod : k % 8 = k - 8 * bs.length := by omega
        rw [if_pos hmid, if_pos (by omega), hidx, List.getD_cons_zero, hmod]
      · have hsub : k - 8 * bs.length - 8 = k - 8 * (bs.length + 1) := by omega
        rw [if_neg hmid, if_neg (by omega), hsub]

theorem ofBigEndian_getLsbD (bs : List (BitVec 8)) (k : ℕ) (hw : w = 8 * bs.length) (hk : k < w) :
    (ofBigEndian w bs).getLsbD k = (bs.getD (bs.length - 1 - k / 8) 0).getLsbD (k % 8) := by
  rw [ofBigEndian, getLsbD_foldl_push bs 0 k hk, if_pos (by omega)]

theorem ofBigEndian_bigEndian (v : BitVec w) (n : ℕ) (hw : w = 8 * n) :
    ofBigEndian w (bigEndian v n) = v := by
  apply BitVec.eq_of_getLsbD_eq
  intro k hk
  have hn : w = 8 * (bigEndian v n).length := by rw [bigEndian_length, hw]
  have hidx : 8 * (n - 1 - (n - 1 - k / 8)) + k % 8 = k := by omega
  rw [ofBigEndian_getLsbD _ k hn hk, bigEndian_length,
    bigEndian_getLsbD v n (n - 1 - k / 8) (k % 8) hw (by omega) (Nat.mod_lt k (by omega)), hidx]

theorem bigEndian_ofBigEndian (bs : List (BitVec 8)) (n : ℕ) (hlen : bs.length = n)
    (hw : w = 8 * n) : bigEndian (ofBigEndian w bs) n = bs := by
  apply List.ext_getElem?
  intro i
  by_cases hi : i < n
  · have hb : i < (bigEndian (ofBigEndian w bs) n).length := by rw [bigEndian_length]; exact hi
    have hs : i < bs.length := by omega
    rw [List.getElem?_eq_getElem hb, List.getElem?_eq_getElem hs, List.getElem_eq_getD 0,
      List.getElem_eq_getD 0]
    congr 1
    apply BitVec.eq_of_getLsbD_eq
    intro j hj
    have hidx : bs.length - 1 - (8 * (n - 1 - i) + j) / 8 = i := by omega
    have hmod : (8 * (n - 1 - i) + j) % 8 = j := by omega
    rw [bigEndian_getLsbD _ n i j hw hi hj, ofBigEndian_getLsbD bs _ (by omega) (by omega), hidx, hmod]
  · rw [List.getElem?_eq_none (by rw [bigEndian_length]; omega), List.getElem?_eq_none (by omega)]

@[simp] theorem littleEndian_length (v : BitVec w) (n : ℕ) : (littleEndian v n).length = n := by
  rw [littleEndian, List.length_reverse, bigEndian_length]

theorem ofLittleEndian_littleEndian (v : BitVec w) (n : ℕ) (hw : w = 8 * n) :
    ofLittleEndian w (littleEndian v n) = v := by
  rw [ofLittleEndian, littleEndian, List.reverse_reverse, ofBigEndian_bigEndian v n hw]

theorem littleEndian_ofLittleEndian (bs : List (BitVec 8)) (n : ℕ) (hlen : bs.length = n)
    (hw : w = 8 * n) : littleEndian (ofLittleEndian w bs) n = bs := by
  rw [littleEndian, ofLittleEndian,
    bigEndian_ofBigEndian bs.reverse n (by rw [List.length_reverse, hlen]) hw, List.reverse_reverse]

/-- Loading on a little-endian machine and swapping reads the bytes in network order. -/
theorem byteSwap_ofLittleEndian (bs : List (BitVec 8)) (n : ℕ) (hlen : bs.length = n)
    (hw : w = 8 * n) : byteSwap n (ofLittleEndian w bs) = ofBigEndian w bs := by
  rw [byteSwap, littleEndian_ofLittleEndian bs n hlen hw]

theorem littleEndian_byteSwap (v : BitVec w) (n : ℕ) (hw : w = 8 * n) :
    littleEndian (byteSwap n v) n = bigEndian v n := by
  rw [byteSwap, littleEndian, bigEndian_ofBigEndian _ n (littleEndian_length v n) hw, littleEndian,
    List.reverse_reverse]

theorem byteSwap_getLsbD (v : BitVec w) (n k : ℕ) (hw : w = 8 * n) (hk : k < w) :
    (byteSwap n v).getLsbD k = v.getLsbD (8 * (n - 1 - k / 8) + k % 8) := by
  have hidx : n - 1 - k / 8 < (bigEndian v n).length := by rw [bigEndian_length]; omega
  have hback : n - 1 - (n - 1 - (n - 1 - k / 8)) = n - 1 - k / 8 := by omega
  rw [byteSwap, ofBigEndian_getLsbD _ k (by rw [littleEndian_length, hw]) hk, littleEndian_length,
    littleEndian, List.getD_eq_getElem?_getD, List.getElem?_reverse hidx, bigEndian_length,
    ← List.getD_eq_getElem?_getD, bigEndian_getLsbD v n _ _ hw (by omega) (Nat.mod_lt k (by omega)),
    hback]

end Words

/-! ## Members of a C struct -/

structure Member where
  size : ℕ
  align : ℕ
  deriving DecidableEq, Repr

def roundUp (n align : ℕ) : ℕ := (n + align - 1) / align * align

/-- The members in order, each with the offset natural alignment gives it from `n` on, and its size. -/
def place {ι : Type} : ℕ → List (ι × Member) → List (ι × ℕ × ℕ)
  | _, [] => []
  | n, (f, m) :: ms => (f, roundUp n m.align, m.size) :: place (roundUp n m.align + m.size) ms

def offsetOf {ι : Type} [DecidableEq ι] (ms : List (ι × Member)) (f : ι) : ℕ :=
  (((place 0 ms).find? fun m => m.1 = f).map fun m => m.2.1).getD 0

/-- The bytes at `pos`, as `memcpy` takes them. -/
def bytesAt (data : ℤ → BitVec 8) (pos : ℤ) (n : ℕ) : List (BitVec 8) :=
  (List.range n).map fun i : ℕ => data (pos + i)

@[simp] theorem bytesAt_length (data : ℤ → BitVec 8) (pos : ℤ) (n : ℕ) :
    (bytesAt data pos n).length = n := by
  rw [bytesAt, List.length_map, List.length_range]

theorem bytesAt_add (data : ℤ → BitVec 8) (pos : ℤ) (m n : ℕ) :
    bytesAt data pos (m + n) = bytesAt data pos m ++ bytesAt data (pos + m) n := by
  simp only [bytesAt, List.range_add, List.map_append, List.map_map, Function.comp_def, Int.natCast_add,
    Int.add_assoc]

/-! ## Footprints in a buffer -/

/-- `data` with the bytes of `ps` laid over it from `pos` on. -/
def lay (data : ℤ → BitVec 8) (pos : ℤ) (ps : List (Option (BitVec 8))) : ℤ → BitVec 8 := fun q =>
  if pos ≤ q then ((ps[(q - pos).toNat]?).join).getD (data q) else data q

def Holds (data : ℤ → BitVec 8) (pos : ℤ) (ps : List (Option (BitVec 8))) : Prop :=
  ∀ (i : ℕ) (b : BitVec 8), ps[i]? = some (some b) → data (pos + i) = b

@[simp] theorem lay_nil (data : ℤ → BitVec 8) (pos : ℤ) : lay data pos [] = data := by
  funext q
  simp [lay]

theorem holds_lay (data : ℤ → BitVec 8) (pos : ℤ) (ps : List (Option (BitVec 8))) :
    Holds (lay data pos ps) pos ps := by
  intro i b hb
  have hidx : (pos + (i : ℤ) - pos).toNat = i := by omega
  rw [lay, if_pos (by omega), hidx, hb, Option.join_some, Option.getD_some]

theorem lay_append (data : ℤ → BitVec 8) (pos : ℤ) (ps qs : List (Option (BitVec 8))) :
    lay (lay data pos ps) (pos + ps.length) qs = lay data pos (ps ++ qs) := by
  funext q
  by_cases hbefore : pos ≤ q
  · by_cases hfirst : q < pos + ps.length
    · have hlt : (q - pos).toNat < ps.length := by omega
      rw [lay, if_neg (by omega), lay, if_pos hbefore, lay, if_pos hbefore,
        List.getElem?_append_left hlt]
    · have hle : ps.length ≤ (q - pos).toNat := by omega
      have hidx : (q - (pos + ps.length)).toNat = (q - pos).toNat - ps.length := by omega
      rw [lay, if_pos (by omega), lay, if_pos hbefore, lay, if_pos hbefore,
        List.getElem?_append_right hle, List.getElem?_eq_none hle, hidx, Option.join_none,
        Option.getD_none]
  · rw [lay, if_neg (by omega), lay, if_neg hbefore, lay, if_neg hbefore]

/-- Footprints that do not meet can be laid down in either order. -/
theorem lay_comm (data : ℤ → BitVec 8) {pos pos' : ℤ} {ps qs : List (Option (BitVec 8))}
    (h : pos + ps.length ≤ pos') : lay (lay data pos ps) pos' qs = lay (lay data pos' qs) pos ps := by
  funext q
  by_cases hq : pos' ≤ q
  · have hps : ps[(q - pos).toNat]? = none := List.getElem?_eq_none (by omega)
    have hpos : pos ≤ q := by omega
    simp only [lay, hq, hpos, if_true, hps, Option.join_none, Option.getD_none]
  · simp only [lay, hq, if_false]

theorem lay_replicate_none (data : ℤ → BitVec 8) (pos : ℤ) (n : ℕ) :
    lay data pos (List.replicate n none) = data := by
  funext q
  by_cases hq : pos ≤ q
  · rw [lay, if_pos hq, List.getElem?_replicate]
    split <;> rfl
  · rw [lay, if_neg hq]

theorem holds_append (data : ℤ → BitVec 8) (pos : ℤ) (ps qs : List (Option (BitVec 8))) :
    Holds data pos (ps ++ qs) ↔ Holds data pos ps ∧ Holds data (pos + ps.length) qs := by
  constructor
  · intro h
    refine ⟨fun i b hb => ?_, fun i b hb => ?_⟩
    · obtain ⟨hlt, -⟩ := List.getElem?_eq_some_iff.1 hb
      exact h i b (by rw [List.getElem?_append_left hlt, hb])
    · have hi := h (ps.length + i) b (by
        rw [List.getElem?_append_right (by omega), Nat.add_sub_cancel_left, hb])
      rw [← hi]
      congr 1
      push_cast
      omega
  · rintro ⟨hps, hqs⟩ i b hb
    by_cases hlt : i < ps.length
    · exact hps i b (by rwa [List.getElem?_append_left hlt] at hb)
    · rw [List.getElem?_append_right (by omega)] at hb
      rw [← hqs (i - ps.length) b hb]
      congr 1
      omega

theorem Holds.of_agree {data mem : ℤ → BitVec 8} {pos : ℤ} {ps : List (Option (BitVec 8))}
    (h : Holds data pos ps) (hmem : ∀ q, pos ≤ q → q < pos + ps.length → mem q = data q) :
    Holds mem pos ps := by
  intro i b hb
  obtain ⟨hi, -⟩ := List.getElem?_eq_some_iff.1 hb
  rw [hmem _ (by omega) (by omega)]
  exact h i b hb

theorem bytesAt_of_holds {data : ℤ → BitVec 8} {pos : ℤ} {bs : List (BitVec 8)}
    (h : Holds data pos (bs.map some)) : bytesAt data pos bs.length = bs := by
  apply List.ext_getElem?
  intro i
  by_cases hi : i < bs.length
  · have hb := h i bs[i] (by rw [List.getElem?_map, List.getElem?_eq_getElem hi, Option.map_some])
    rw [bytesAt, List.getElem?_map, List.getElem?_range hi, Option.map_some, hb,
      List.getElem?_eq_getElem hi]
  · rw [List.getElem?_eq_none (by rw [bytesAt_length]; omega), List.getElem?_eq_none (by omega)]

/-! ## Programs at a cursor -/

structure Cursor where
  data : ℤ → BitVec 8
  pos : ℤ

/-- A program that may fail; what it did to the buffer before that stays. -/
abbrev Coder := ExceptT Unit (StateM Cursor)

def Coder.exec {α : Type} (c : Coder α) (s : Cursor) : Except Unit α × Cursor := (c.run.run s).run

theorem Coder.exec_pure {α : Type} (a : α) (s : Cursor) : (pure a : Coder α).exec s = (.ok a, s) := rfl

theorem Coder.exec_get (s : Cursor) : (get : Coder Cursor).exec s = (.ok s, s) := rfl

theorem Coder.exec_set (s t : Cursor) : (set t : Coder PUnit).exec s = (.ok (), t) := rfl

theorem Coder.exec_bind_ok {α β : Type} {c : Coder α} {f : α → Coder β} {s s' : Cursor} {a : α}
    (h : c.exec s = (.ok a, s')) : (c >>= f).exec s = (f a).exec s' := by
  simp only [Coder.exec, bind, ExceptT.bind, ExceptT.mk, ExceptT.run, StateT.run, StateT.bind, Id.run]
    at h ⊢
  rw [h]
  rfl

/-- Where `ps` still fits in front of `len`, `c` lays it down and moves behind it. -/
def Writes (len : ℤ) (c : Coder Unit) (ps : List (Option (BitVec 8))) : Prop :=
  ∀ s : Cursor, 0 ≤ s.pos → s.pos + ps.length ≤ len →
    c.exec s = (.ok (), ⟨lay s.data s.pos ps, s.pos + ps.length⟩)

/-- Where the buffer holds `ps` in front of `len`, `c` returns `a` and moves behind it. -/
def Reads {α : Type} (len : ℤ) (c : Coder α) (ps : List (Option (BitVec 8))) (a : α) : Prop :=
  ∀ s : Cursor, 0 ≤ s.pos → s.pos + ps.length ≤ len → Holds s.data s.pos ps →
    c.exec s = (.ok a, ⟨s.data, s.pos + ps.length⟩)

theorem Writes.bind {len : ℤ} {c : Coder Unit} {f : Unit → Coder Unit}
    {ps qs : List (Option (BitVec 8))} (hc : Writes len c ps) (hf : Writes len (f ()) qs) :
    Writes len (c >>= f) (ps ++ qs) := by
  intro s hpos hlen
  rw [List.length_append] at hlen
  rw [Coder.exec_bind_ok (hc s hpos (by omega)), hf ⟨_, _⟩ (by simp only; omega) (by simp only; omega)]
  simp only [lay_append, List.length_append, Int.natCast_add, Int.add_assoc]

/-! Footprints put together from those of the parts of a chain. -/

theorem Writes.last {len : ℤ} {c : Coder Unit} {ps : List (Option (BitVec 8))} (hc : Writes len c ps) :
    Writes len c [ps].flatten := by
  rwa [List.flatten_singleton]

theorem Writes.cons {len : ℤ} {c : Coder Unit} {f : Unit → Coder Unit} {ps : List (Option (BitVec 8))}
    {qss : List (List (Option (BitVec 8)))} (hc : Writes len c ps) (hf : Writes len (f ()) qss.flatten) :
    Writes len (c >>= f) (ps :: qss).flatten := by
  rw [List.flatten_cons]
  exact hc.bind hf

theorem Writes.pure (len : ℤ) : Writes len (pure ()) [] := by
  intro s hpos hlen
  rw [Coder.exec_pure, lay_nil, List.length_nil, Int.natCast_zero, Int.add_zero]

theorem Reads.pure {α : Type} (len : ℤ) (a : α) : Reads len (pure a) [] a := by
  intro s hpos hlen hdata
  rw [Coder.exec_pure, List.length_nil, Int.natCast_zero, Int.add_zero]

theorem Reads.bind {α β : Type} {len : ℤ} {c : Coder α} {f : α → Coder β}
    {ps qs : List (Option (BitVec 8))} {a : α} {b : β} (hc : Reads len c ps a)
    (hf : Reads len (f a) qs b) : Reads len (c >>= f) (ps ++ qs) b := by
  intro s hpos hlen hdata
  rw [List.length_append] at hlen
  obtain ⟨hps, hqs⟩ := (holds_append s.data s.pos ps qs).1 hdata
  rw [Coder.exec_bind_ok (hc s hpos (by omega) hps),
    hf ⟨_, _⟩ (by simp only; omega) (by simp only; omega) hqs]
  simp only [List.length_append, Int.natCast_add, Int.add_assoc]

theorem Reads.map {α β : Type} {len : ℤ} {c : Coder α} {ps : List (Option (BitVec 8))} {a : α}
    (g : α → β) (hc : Reads len c ps a) : Reads len (c >>= fun x => Pure.pure (g x)) ps (g a) := by
  intro s hpos hlen hdata
  rw [Coder.exec_bind_ok (hc s hpos hlen hdata), Coder.exec_pure]

theorem Reads.last {α β : Type} {len : ℤ} {c : Coder α} {ps : List (Option (BitVec 8))} {a : α}
    (g : α → β) (hc : Reads len c ps a) : Reads len (c >>= fun x => Pure.pure (g x)) [ps].flatten (g a) := by
  rw [List.flatten_singleton]
  exact hc.map g

theorem Reads.cons {α β : Type} {len : ℤ} {c : Coder α} {f : α → Coder β}
    {ps : List (Option (BitVec 8))} {qss : List (List (Option (BitVec 8)))} {a : α} {b : β}
    (hc : Reads len c ps a) (hf : Reads len (f a) qss.flatten b) :
    Reads len (c >>= f) (ps :: qss).flatten b := by
  rw [List.flatten_cons]
  exact hc.bind hf

theorem Writes.guarded {len : ℤ} {c : Coder Unit} {ps : List (Option (BitVec 8))} {P : Cursor → Prop}
    [DecidablePred P] (hP : ∀ s : Cursor, 0 ≤ s.pos → s.pos + ps.length ≤ len → P s)
    (hc : Writes len c ps) : Writes len (do let s ← get; if P s then c else throw ()) ps := by
  intro s hpos hlen
  rw [Coder.exec_bind_ok (Coder.exec_get s), if_pos (hP s hpos hlen), hc s hpos hlen]

theorem Reads.guarded {α : Type} {len : ℤ} {c : Coder α} {ps : List (Option (BitVec 8))} {a : α}
    {P : Cursor → Prop} [DecidablePred P]
    (hP : ∀ s : Cursor, 0 ≤ s.pos → s.pos + ps.length ≤ len → P s) (hc : Reads len c ps a) :
    Reads len (do let s ← get; if P s then c else throw ()) ps a := by
  intro s hpos hlen hdata
  rw [Coder.exec_bind_ok (Coder.exec_get s), if_pos (hP s hpos hlen), hc s hpos hlen hdata]

/-- What was written can be read back, wherever the written part is still in reach. -/
theorem Reads.of_writes {α : Type} {len len' : ℤ} {c : Coder Unit} {d : Coder α}
    {ps qs : List (Option (BitVec 8))} {a : α} (hc : Writes len c (ps ++ qs)) (hd : Reads len' d ps a)
    (s : Cursor) (hpos : 0 ≤ s.pos) (hlen : s.pos + ps.length + qs.length ≤ len)
    (hlen' : s.pos + ps.length ≤ len') :
    ∃ s', c.exec s = (.ok (), s') ∧ s'.pos = s.pos + ps.length + qs.length ∧
      d.exec ⟨s'.data, s.pos⟩ = (.ok a, ⟨s'.data, s.pos + ps.length⟩) := by
  have hfit : s.pos + (ps ++ qs).length ≤ len := by
    rw [List.length_append]
    push_cast
    omega
  refine ⟨_, hc s hpos hfit, by simp only [List.length_append, Int.natCast_add, Int.add_assoc], ?_⟩
  exact hd ⟨_, _⟩ hpos hlen' ((holds_append _ _ ps qs).1 (holds_lay s.data s.pos (ps ++ qs))).1

end Tefs.Wire
