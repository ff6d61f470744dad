import Tefs.Lib.Framing

/-! # Programs that keep to a part of their buffer

`Within len c s`: run at `s`, the program writes nothing from `len` on, and what it does is the same for
every content of the buffer there. `Consumes` and `Stops` say what a decoder and an encoder do where there
are not enough bytes.
-/

namespace Tefs.Wire
open Framing
set_option autoImplicit false

section Running

variable {α β : Type} {c : Coder α} {f : α → Coder β} {s s' : Cursor}

theorem Coder.exec_bind_error {e : Unit} (h : c.exec s = (.error e, s')) : (c >>= f).exec s = (.error e, s') := by
  simp only [Coder.exec, bind, ExceptT.bind, ExceptT.mk, ExceptT.run, StateT.run, StateT.bind, Id.run] at h ⊢
  rw [h]
  rfl

end Running

/-! ## Neither written nor read -/

structure Within {α : Type} (len : ℤ) (c : Coder α) (s : Cursor) : Prop where
  write : ∀ q, len ≤ q → (c.exec s).2.data q = s.data q
  read : ∀ data, (∀ q, q < len → data q = s.data q) →
    (c.exec ⟨data, s.pos⟩).1 = (c.exec s).1 ∧ (c.exec ⟨data, s.pos⟩).2.pos = (c.exec s).2.pos ∧
      ∀ q, q < len → (c.exec ⟨data, s.pos⟩).2.data q = (c.exec s).2.data q

section Within

variable {α β : Type} {len : ℤ} {c : Coder α} {f : α → Coder β} {s : Cursor}

theorem Within.pure (len : ℤ) (a : α) (s : Cursor) : Within len (pure a) s where
  write _ _ := rfl
  read _ h := ⟨rfl, rfl, h⟩

theorem Within.throw (len : ℤ) (s : Cursor) : Within len (throw () : Coder α) s where
  write _ _ := rfl
  read _ h := ⟨rfl, rfl, h⟩

theorem Within.bind (hc : Within len c s) (hf : ∀ a s', c.exec s = (.ok a, s') → Within len (f a) s') :
    Within len (c >>= f) s := by
  cases hexec : c.exec s with
  | mk r t =>
    have hwrite := hc.write
    have hread := hc.read
    rw [hexec] at hwrite hread
    cases r with
    | error e =>
      refine ⟨fun q hq => ?_, fun data hdata => ?_⟩
      · rw [Coder.exec_bind_error hexec]
        exact hwrite q hq
      · obtain ⟨hres, hpos, hsame⟩ := hread data hdata
        have hexec' : c.exec ⟨data, s.pos⟩ = (.error e, (c.exec ⟨data, s.pos⟩).2) := Prod.ext hres rfl
        rw [Coder.exec_bind_error hexec, Coder.exec_bind_error hexec']
        exact ⟨rfl, hpos, hsame⟩
    | ok a =>
      have hrest := hf a t hexec
      refine ⟨fun q hq => ?_, fun data hdata => ?_⟩
      · rw [Coder.exec_bind_ok hexec, hrest.write q hq]
        exact hwrite q hq
      · obtain ⟨hres, hpos, hsame⟩ := hread data hdata
        have hexec' : c.exec ⟨data, s.pos⟩ = (.ok a, ⟨(c.exec ⟨data, s.pos⟩).2.data, t.pos⟩) := by
          rw [← hpos]
          exact Prod.ext hres rfl
        rw [Coder.exec_bind_ok hexec, Coder.exec_bind_ok hexec']
        exact hrest.read _ hsame

/-- A choice that goes by the position -/
theorem Within.choose (P : ℤ → Prop) [DecidablePred P] {g h : Cursor → Coder α}
    (hg : P s.pos → Within len (get >>= g) s) (hh : ¬ P s.pos → Within len (get >>= h) s) :
    Within len (do let s ← get; if P s.pos then g s else h s) s := by
  have hexec : ∀ data, (do let s ← get; if P s.pos then g s else h s : Coder α).exec ⟨data, s.pos⟩ =
      if P s.pos then (get >>= g).exec ⟨data, s.pos⟩ else (get >>= h).exec ⟨data, s.pos⟩ := by
    intro data
    rw [Coder.exec_bind_ok (Coder.exec_get _), Coder.exec_bind_ok (Coder.exec_get _),
      Coder.exec_bind_ok (Coder.exec_get _)]
    split <;> rfl
  have hhere := hexec s.data
  by_cases hP : P s.pos
  · simp only [hP, if_true] at hexec hhere
    refine ⟨fun q hq => ?_, fun data hdata => ?_⟩
    · rw [hhere]
      exact (hg hP).write q hq
    · rw [hexec data, hhere]
      exact (hg hP).read data hdata
  · simp only [hP, if_false] at hexec hhere
    refine ⟨fun q hq => ?_, fun data hdata => ?_⟩
    · rw [hhere]
      exact (hh hP).write q hq
    · rw [hexec data, hhere]
      exact (hh hP).read data hdata

theorem Within.of_exec {d : Coder α} (hd : Within len d s) (h : ∀ data, c.exec ⟨data, s.pos⟩ = d.exec ⟨data, s.pos⟩) :
    Within len c s := by
  have hhere : c.exec s = d.exec s := h s.data
  refine ⟨fun q hq => ?_, fun data hdata => ?_⟩
  · rw [hhere]
    exact hd.write q hq
  · rw [h, hhere]
    exact hd.read data hdata

theorem Within.const (hc : Within len c s) : Within len (get >>= fun _ => c) s :=
  ⟨hc.write, hc.read⟩

end Within

/-- Bytes taken in front of `len` -/
theorem Within.load {α : Type} {len : ℤ} {s : Cursor} (n : ℕ) (g : List (BitVec 8) → α) (k : ℤ)
    (hfit : s.pos + n ≤ len) :
    Within len (do let s ← get; set (⟨s.data, s.pos + k⟩ : Cursor); Pure.pure (g (bytesAt s.data s.pos n))) s where
  write _ _ := rfl
  read _ h := ⟨congrArg (fun bs => Except.ok (g bs)) (bytesAt_congr fun q _ (hq : q < s.pos + n) =>
    h q (by omega)), rfl, h⟩

theorem lay_agree {data data' : ℤ → BitVec 8} (pos : ℤ) (ps : List (Option (BitVec 8))) {q : ℤ} (h : data' q = data q) :
    lay data' pos ps q = lay data pos ps q := by
  simp only [lay, h]

/-- Bytes laid down in front of `len` -/
theorem Within.store {len : ℤ} {s : Cursor} (ps : List (Option (BitVec 8))) (k : ℤ)
    (hfit : s.pos + ps.length ≤ len) :
    Within len (do let s ← get; set (⟨lay s.data s.pos ps, s.pos + k⟩ : Cursor)) s where
  write _ hq := lay_of_ge s.data ps (by omega)
  read _ h := ⟨rfl, rfl, fun q hq => lay_agree s.pos ps (h q hq)⟩

/-! ## Decoders -/

/-- `c` takes `n` bytes if they are there, and fails if they are not. -/
structure Consumes {α : Type} (len : ℤ) (c : Coder α) (n : ℕ) : Prop where
  within : ∀ s : Cursor, 0 ≤ s.pos → s.pos ≤ len → Within len c s
  takes : ∀ s : Cursor, 0 ≤ s.pos → s.pos + n ≤ len → ∃ a, c.exec s = (.ok a, ⟨s.data, s.pos + n⟩)
  fails : ∀ s : Cursor, 0 ≤ s.pos → s.pos ≤ len → len < s.pos + n → (c.exec s).1 = .error ()

section Consumes

variable {α β : Type} {len : ℤ} {c : Coder α} {f : α → Coder β} {n k : ℕ}

theorem Consumes.error_iff (h : Consumes len c n) {s : Cursor} (hpos : 0 ≤ s.pos) (hle : s.pos ≤ len) :
    (c.exec s).1 = .error () ↔ len - s.pos < n := by
  constructor
  · intro herror
    by_contra hfit
    obtain ⟨a, hexec⟩ := h.takes s hpos (by omega)
    rw [hexec] at herror
    cases herror
  · intro hshort
    exact h.fails s hpos hle (by omega)

theorem Consumes.pure (len : ℤ) (a : α) : Consumes len (pure a) 0 where
  within s _ _ := Within.pure len a s
  takes s _ _ := ⟨a, by rw [Coder.exec_pure, Int.natCast_zero, Int.add_zero]⟩
  fails s _ hle hlt := absurd hlt (by omega)

theorem Consumes.bind (hc : Consumes len c n) (hf : ∀ a, Consumes len (f a) k) : Consumes len (c >>= f) (n + k) := by
  refine ⟨fun s hpos hle => ?_, fun s hpos hfit => ?_, fun s hpos hle hlt => ?_⟩
  · refine (hc.within s hpos hle).bind fun a s' hexec => ?_
    by_cases hfit : s.pos + n ≤ len
    · obtain ⟨a', hexec'⟩ := hc.takes s hpos hfit
      rw [hexec'] at hexec
      cases hexec
      exact (hf a).within _ (by simp only; omega) hfit
    · have hfails := hc.fails s hpos hle (by omega)
      rw [hexec] at hfails
      cases hfails
  · obtain ⟨a, hexec⟩ := hc.takes s hpos (by omega)
    obtain ⟨b, hexec'⟩ := (hf a).takes ⟨s.data, s.pos + n⟩ (by simp only; omega) (by simp only; omega)
    refine ⟨b, ?_⟩
    rw [Coder.exec_bind_ok hexec, hexec']
    simp only [Int.natCast_add, Int.add_assoc]
  · by_cases hfit : s.pos + n ≤ len
    · obtain ⟨a, hexec⟩ := hc.takes s hpos hfit
      rw [Coder.exec_bind_ok hexec]
      exact (hf a).fails _ (by simp only; omega) hfit (by simp only; omega)
    · have hfails := hc.fails s hpos hle (by omega)
      rw [Coder.exec_bind_error (Prod.ext hfails rfl)]

theorem Consumes.guarded {P : ℤ → Prop} [DecidablePred P] (hP : ∀ pos, 0 ≤ pos → pos + n ≤ len → P pos)
    (hc : Consumes len c n) : Consumes len (do let s ← get; if P s.pos then c else throw ()) n := by
  refine ⟨fun s hpos hle => ?_, fun s hpos hfit => ?_, fun s hpos hle hlt => ?_⟩
  · exact Within.choose P (fun _ => (hc.within s hpos hle).const) fun _ => (Within.throw len s).const
  · rw [Coder.exec_bind_ok (Coder.exec_get s), if_pos (hP s.pos hpos hfit)]
    exact hc.takes s hpos hfit
  · rw [Coder.exec_bind_ok (Coder.exec_get s)]
    split
    · exact hc.fails s hpos hle hlt
    · rfl

theorem Consumes.map (g : α → β) (hc : Consumes len c n) : Consumes len (c >>= fun a => Pure.pure (g a)) n :=
  hc.bind fun a => Consumes.pure len (g a)

end Consumes

/-! ## Encoders

An encoder writes its parts one after the other, each with a size. A `loose` part is written before it is known
whether it fits. -/

structure Part where
  size : ℕ
  loose : Bool
  deriving DecidableEq, Repr

/-- The buffer ends inside a loose part. -/
def Straddled : List Part → ℤ → Prop
  | [], _ => False
  | part :: parts, left => (part.loose = true ∧ 0 ≤ left ∧ left < part.size) ∨ Straddled parts (left - part.size)

instance decidableStraddled : (parts : List Part) → (left : ℤ) → Decidable (Straddled parts left)
  | [], _ => inferInstanceAs (Decidable False)
  | part :: parts, left =>
    have := decidableStraddled parts (left - part.size)
    inferInstanceAs (Decidable (_ ∨ _))

def totalSize (parts : List Part) : ℕ := (parts.map Part.size).sum

theorem not_straddled_of_neg {left : ℤ} (parts : List Part) (h : left < 0) : ¬ Straddled parts left := by
  induction parts generalizing left with
  | nil => exact id
  | cons part parts ih =>
    have hrest : ¬ Straddled parts (left - part.size) := ih (by omega)
    rw [Straddled]
    exact fun h' => h'.elim (fun ⟨_, hge, _⟩ => by omega) hrest

theorem not_straddled_of_fit {left : ℤ} (parts : List Part) (h : totalSize parts ≤ left) : ¬ Straddled parts left := by
  induction parts generalizing left with
  | nil => exact id
  | cons part parts ih =>
    rw [totalSize, List.map_cons, List.sum_cons] at h
    have hrest : ¬ Straddled parts (left - part.size) := ih (by rw [totalSize]; omega)
    rw [Straddled]
    exact fun h' => h'.elim (fun ⟨_, _, hlt⟩ => by omega) hrest

theorem not_straddled_of_tested {left : ℤ} {parts : List Part} (h : ∀ part ∈ parts, part.loose = false) :
    ¬ Straddled parts left := by
  induction parts generalizing left with
  | nil => exact id
  | cons part parts ih =>
    have hpart := h part List.mem_cons_self
    have hrest : ¬ Straddled parts (left - part.size) := ih fun p hp => h p (List.mem_cons_of_mem part hp)
    rw [Straddled, hpart]
    simp only [Bool.false_eq_true, false_and, false_or]
    exact hrest

/-- `c` lays down `ps`, part by part, and fails where it does not fit. -/
structure Encodes (len : ℤ) (c : Coder Unit) (ps : List (Option (BitVec 8))) (parts : List Part) : Prop where
  writes : Writes len c ps
  size : ps.length = totalSize parts
  fails : ∀ pos, 0 ≤ pos → pos ≤ len → len < pos + ps.length → ∃ k p,
    (∀ data, c.exec ⟨data, pos⟩ = (.error (), ⟨lay data pos (ps.take k), p⟩)) ∧
    (Straddled parts (len - pos) → ∃ b, (ps.take k)[(len - pos).toNat]? = some (some b)) ∧
    (¬ Straddled parts (len - pos) → ∀ (i : ℕ) b, (ps.take k)[i]? = some (some b) → pos + i < len)

section Encodes

variable {len : ℤ} {c : Coder Unit} {f : Unit → Coder Unit} {ps : List (Option (BitVec 8))} {parts : List Part}

/-- It fails before anything is written. -/
theorem Encodes.fails_clean {pos : ℤ} (p : ℤ) (hexec : ∀ data, c.exec ⟨data, pos⟩ = (.error (), ⟨data, p⟩))
    (hparts : ¬ Straddled parts (len - pos)) : ∃ k p,
    (∀ data, c.exec ⟨data, pos⟩ = (.error (), ⟨lay data pos (ps.take k), p⟩)) ∧
    (Straddled parts (len - pos) → ∃ b, (ps.take k)[(len - pos).toNat]? = some (some b)) ∧
    (¬ Straddled parts (len - pos) → ∀ (i : ℕ) b, (ps.take k)[i]? = some (some b) → pos + i < len) := by
  refine ⟨0, p, fun data => ?_, fun h => absurd h hparts, fun _ i b hb => ?_⟩
  · rw [List.take_zero, lay_nil, hexec]
  · rw [List.take_zero, List.getElem?_nil] at hb
    cases hb

theorem Encodes.pure (len : ℤ) : Encodes len (pure ()) [] [] where
  writes := Writes.pure len
  size := rfl
  fails pos _ hle hlt := absurd hlt (by simp only [List.length_nil]; omega)

theorem Encodes.bind {part : Part} {qs : List (Option (BitVec 8))} (hc : Encodes len c ps [part])
    (hf : Encodes len (f ()) qs parts) : Encodes len (c >>= f) (ps ++ qs) (part :: parts) := by
  have hsize : ps.length = part.size := hc.size
  refine ⟨hc.writes.bind hf.writes, ?_, fun pos hpos hle hlt => ?_⟩
  · rw [List.length_append, hsize, hf.size]
    rfl
  · rw [List.length_append] at hlt
    by_cases hfit : pos + ps.length ≤ len
    · obtain ⟨k, p, hexec, hbad, hgood⟩ := hf.fails (pos + ps.length) (by omega) hfit (by omega)
      have hleft : len - pos - part.size = len - (pos + ps.length) := by omega
      have hstraddled : Straddled (part :: parts) (len - pos) ↔ Straddled parts (len - (pos + ps.length)) := by
        rw [Straddled, hleft]
        exact or_iff_right fun h => absurd h.2.2 (by omega)
      have htake : (ps ++ qs).take (ps.length + k) = ps ++ qs.take k := List.take_length_add_append k
      refine ⟨ps.length + k, p, fun data => ?_, fun h => ?_, fun h i b hb => ?_⟩
      · rw [Coder.exec_bind_ok (hc.writes ⟨data, pos⟩ hpos hfit), hexec, lay_append, htake]
      · obtain ⟨b, hb⟩ := hbad (hstraddled.1 h)
        have hindex : (len - (pos + ps.length)).toNat = (len - pos).toNat - ps.length := by omega
        refine ⟨b, ?_⟩
        rw [htake, List.getElem?_append_right (by omega), ← hindex, hb]
      · rw [htake] at hb
        by_cases hi : i < ps.length
        · omega
        · rw [List.getElem?_append_right (by omega)] at hb
          have hlt := hgood (fun h' => h (hstraddled.2 h')) _ b hb
          omega
    · obtain ⟨k, p, hexec, hbad, hgood⟩ := hc.fails pos hpos hle (by omega)
      have hn : (ps ++ qs).take (min k ps.length) = ps.take k := by
        rw [List.take_append_of_le_length (Nat.min_le_right _ _), List.take_eq_take_iff]
        omega
      have hstraddled : Straddled (part :: parts) (len - pos) ↔ Straddled [part] (len - pos) := by
        rw [Straddled, Straddled]
        exact or_congr_right (iff_of_false (not_straddled_of_neg _ (by omega)) id)
      refine ⟨min k ps.length, p, fun data => ?_, fun h => ?_, fun h => ?_⟩
      · rw [Coder.exec_bind_error (hexec data), hn]
      · rw [hn]
        exact hbad (hstraddled.1 h)
      · rw [hn]
        exact hgood fun h' => h (hstraddled.2 h')

theorem Encodes.last (hc : Encodes len c ps parts) : Encodes len c [ps].flatten parts := by
  rwa [List.flatten_singleton]

theorem Encodes.cons {part : Part} {qss : List (List (Option (BitVec 8)))} (hc : Encodes len c ps [part])
    (hf : Encodes len (f ()) qss.flatten parts) : Encodes len (c >>= f) (ps :: qss).flatten (part :: parts) := by
  rw [List.flatten_cons]
  exact hc.bind hf

/-- Parts that are all tested are as good as one. -/
theorem Encodes.tested (hc : Encodes len c ps parts) (h : ∀ part ∈ parts, part.loose = false) {n : ℕ}
    (hn : ps.length = n) : Encodes len c ps [⟨n, false⟩] where
  writes := hc.writes
  size := hn
  fails pos hpos hle hlt := by
    obtain ⟨k, p, hexec, -, hgood⟩ := hc.fails pos hpos hle hlt
    refine ⟨k, p, hexec, fun hstraddled => absurd hstraddled (not_straddled_of_tested ?_), fun _ =>
      hgood (not_straddled_of_tested h)⟩
    exact List.forall_mem_singleton.2 rfl

theorem Encodes.guarded {P : ℤ → Prop} [DecidablePred P] {n : ℕ} (hP : ∀ pos, 0 ≤ pos → pos + ps.length ≤ len → P pos)
    (hc : Encodes len c ps [⟨n, false⟩]) :
    Encodes len (do let s ← get; if P s.pos then c else throw ()) ps [⟨n, false⟩] where
  writes := Writes.guarded (fun s => hP s.pos) hc.writes
  size := hc.size
  fails pos hpos hle hlt := by
    by_cases hpass : P pos
    · obtain ⟨k, p, hexec, hbad, hgood⟩ := hc.fails pos hpos hle hlt
      refine ⟨k, p, fun data => ?_, hbad, hgood⟩
      rw [Coder.exec_bind_ok (Coder.exec_get _), if_pos hpass, hexec]
    · refine fails_clean pos (fun data => ?_) (not_straddled_of_tested (List.forall_mem_singleton.2 rfl))
      rw [Coder.exec_bind_ok (Coder.exec_get _), if_neg hpass]
      rfl

/-- A buffer in which `ps` does not fit is overrun exactly if it ends in a loose part. -/
theorem Encodes.fails_within_iff (h : Encodes len c ps parts) {pos : ℤ} (hpos : 0 ≤ pos) (hle : pos ≤ len) :
    (len < pos + ps.length → ∀ data, (c.exec ⟨data, pos⟩).1 = .error () ∧ Within len c ⟨data, pos⟩) ↔
      ¬ Straddled parts (len - pos) := by
  have hsize := h.size
  by_cases hlt : len < pos + ps.length
  · obtain ⟨k, p, hexec, hbad, hgood⟩ := h.fails pos hpos hle hlt
    rw [forall_prop_of_true hlt]
    constructor
    · intro hall hstraddled
      obtain ⟨b, hb⟩ := hbad hstraddled
      -- a buffer that holds another byte there
      have hkept := (hall fun _ => b + 1).2.write len (Int.le_refl len)
      have hthere : lay (fun _ => b + 1) pos (ps.take k) len = b := by
        rw [lay, if_pos hle, hb, Option.join_some, Option.getD_some]
      rw [hexec] at hkept
      have hsame : b = b + 1 := hthere.symm.trans hkept
      exact absurd hsame (by bv_omega)
    · intro hstraddled data
      have hclear : ∀ q, len ≤ q → lay data pos (ps.take k) q = data q := by
        intro q hq
        rw [lay, if_pos (by omega)]
        cases hbyte : (ps.take k)[(q - pos).toNat]? with
        | none => rfl
        | some byte =>
          cases byte with
          | none => rfl
          | some b =>
            have hin := hgood hstraddled _ b hbyte
            omega
      refine ⟨congrArg Prod.fst (hexec data), fun q hq => ?_, fun data' hdata => ?_⟩
      · rw [hexec]
        exact hclear q hq
      · rw [hexec, hexec]
        exact ⟨rfl, rfl, fun q hq => lay_agree pos _ (hdata q hq)⟩
  · exact iff_of_true (fun h' => absurd h' hlt) (not_straddled_of_fit parts (by omega))

end Encodes

end Tefs.Wire
