import Mathlib.Data.List.Sort
import Tefs.Lib.Ring

/-! # Sorting a ring in place

The stable insertion sort of an intrusive ring: each node in turn is taken out and put behind the last node in front of
it that is not greater.
-/

namespace Tefs.Ring
set_option autoImplicit false

namespace Links

variable {α : Type*} [DecidableEq α]

/-- The node behind which `q` belongs, from `prev` backwards -/
def findPlace (L : Links α) (greater : α → α → Bool) (h q : α) : ℕ → α → Option α
  | 0, _ => none
  | fuel + 1, prev =>
    if ¬ greater prev q then some prev
    else if L.prev prev = h then some h
    else L.findPlace greater h q fuel (L.prev prev)

/-- The loop of the sort, from `q` on -/
def sortLoop (greater : α → α → Bool) (h : α) (num : ℕ) : ℕ → α → Links α → Option (Links α)
  | 0, q, L => if q = h then some L else none
  | fuel + 1, q, L =>
    if q = h then some L
    else ((L.remove q).findPlace greater h q num (L.prev q)).bind fun prev =>
      sortLoop greater h num fuel (L.next q) ((L.remove q).insertHead prev q)

/-- Nothing comes back when one of the loops makes more than `num` turns. -/
def sort (greater : α → α → Bool) (h : α) (num : ℕ) (L : Links α) : Option (Links α) :=
  if L.next h = L.prev h then some L else sortLoop greater h num num (L.next (L.next h)) L

end Links

open Links

variable {α : Type*} {L : Links α} {h q : α} {greater : α → α → Bool}

/-- The list in the order of the sort -/
def sorted (greater : α → α → Bool) (l : List α) : List α :=
  (l.reverse.insertionSort fun a b => ¬ greater b a).reverse

theorem dropWhile_pos {p : α} (hgreater : greater p q = true) (r : List α) :
    (p :: r).dropWhile (greater · q) = r.dropWhile (greater · q) :=
  List.dropWhile_cons_of_pos (p := (greater · q)) hgreater

theorem dropWhile_neg {p : α} (hgreater : ¬ greater p q = true) (r : List α) :
    (p :: r).dropWhile (greater · q) = p :: r :=
  List.dropWhile_cons_of_neg (p := (greater · q)) hgreater

theorem sorted_eq (p : α) (rest : List α) :
    sorted greater (p :: rest) =
      (rest.foldl (fun l a => l.orderedInsert (fun a b => ¬ greater b a) a) [p]).reverse := by
  rw [sorted, List.insertionSort, List.foldr_reverse]
  rfl

section Ring

variable [DecidableEq α]

theorem findPlace_eq {p : α} {r rest : List α} (hring : Holds L h ((p :: r).reverse ++ rest)) {fuel : ℕ}
    (hfuel : r.length < fuel) :
    L.findPlace greater h q fuel p = ((p :: r).dropWhile (greater · q) ++ [h]).head? := by
  induction r generalizing p rest fuel with
  | nil =>
    obtain ⟨fuel, rfl⟩ : ∃ k, fuel = k + 1 := ⟨fuel - 1, by omega⟩
    have hprev : some h = some (L.prev p) := Holds.prev_eq (show Holds L h ([] ++ p :: rest) from hring)
    rw [findPlace]
    by_cases hgreater : greater p q = true
    · rw [if_neg (not_not.mpr hgreater), if_pos (Option.some.inj hprev).symm, dropWhile_pos hgreater]
      rfl
    · rw [if_pos hgreater, dropWhile_neg hgreater]
      rfl
  | cons p' r ih =>
    obtain ⟨fuel, rfl⟩ : ∃ k, fuel = k + 1 := ⟨fuel - 1, by omega⟩
    have hring' : Holds L h ((p' :: r).reverse ++ p :: rest) := by simpa using hring
    rw [findPlace]
    by_cases hgreater : greater p q = true
    · have hprev : some p' = some (L.prev p) := by
        rw [← hring'.prev_eq, List.reverse_cons, ← List.cons_append, List.getLast?_concat]
      have hne : p' ≠ h := by
        rintro rfl
        exact (List.nodup_cons.mp hring'.nodup).1 (by simp)
      rw [if_neg (not_not.mpr hgreater), ← Option.some.inj hprev, if_neg hne, dropWhile_pos hgreater]
      exact ih hring' (by simpa using hfuel)
    · rw [if_pos hgreater, dropWhile_neg hgreater]
      rfl

variable (greater) in
/-- One turn: the node goes to its place in the part that is sorted. -/
theorem Holds.place {p : α} {r rest : List α} (hring : Holds L h ((p :: r).reverse ++ q :: rest)) {num : ℕ}
    (hnum : r.length < num) : ∃ prev, (L.remove q).findPlace greater h q num (L.prev q) = some prev ∧
      Holds ((L.remove q).insertHead prev q) h
        (((p :: r).orderedInsert (fun a b => ¬ greater b a) q).reverse ++ rest) := by
  have hprev : L.prev q = p := by
    have hlast := hring.prev_eq
    rw [List.reverse_cons, ← List.cons_append, List.getLast?_concat] at hlast
    exact (Option.some.inj hlast).symm
  have hremoved := hring.remove
  have hq := hring.notMem_rest
  have hparts : (p :: r).reverse ++ rest =
      ((p :: r).dropWhile (greater · q)).reverse ++ (((p :: r).takeWhile (greater · q)).reverse ++ rest) := by
    rw [← List.append_assoc, ← List.reverse_append, List.takeWhile_append_dropWhile]
  obtain ⟨prev, hplace⟩ : ∃ prev, ((p :: r).dropWhile (greater · q) ++ [h]).head? = some prev := by
    cases (p :: r).dropWhile (greater · q) with
    | nil => exact ⟨h, rfl⟩
    | cons a l => exact ⟨a, rfl⟩
  refine ⟨prev, ?_, ?_⟩
  · rw [hprev, findPlace_eq hremoved hnum, hplace]
  · rw [hparts] at hremoved hq
    have hlast : (h :: ((p :: r).dropWhile (greater · q)).reverse).getLast? = some prev := by
      rw [← hplace, ← List.head?_reverse, List.reverse_cons, List.reverse_reverse]
    have hinserted := hremoved.insertAfter hq hlast
    rw [List.orderedInsert_eq_take_drop]
    simpa using hinserted

theorem Holds.sortLoop {p : α} {r rest : List α} (hring : Holds L h ((p :: r).reverse ++ rest)) {num fuel : ℕ}
    (hnum : r.length + rest.length < num) (hfuel : rest.length ≤ fuel) {q : α} (hq : (rest ++ [h]).head? = some q) :
    ∃ L', Links.sortLoop greater h num fuel q L = some L' ∧
      Holds L' h (rest.foldl (fun l a => l.orderedInsert (fun a b => ¬ greater b a) a) (p :: r)).reverse := by
  induction rest generalizing p r L fuel q with
  | nil =>
    obtain rfl : h = q := by simpa using hq
    refine ⟨L, ?_, by simpa using hring⟩
    cases fuel <;> simp [Links.sortLoop]
  | cons a rest ih =>
    obtain rfl : a = q := by simpa using hq
    obtain ⟨fuel, rfl⟩ : ∃ k, fuel = k + 1 := ⟨fuel - 1, by simp at hfuel; omega⟩
    rw [List.length_cons] at hnum hfuel
    obtain ⟨prev, hplace, hplaced⟩ := hring.place greater (show r.length < num by omega)
    have hlength := List.orderedInsert_length (fun a b => ¬ greater b a) (p :: r) a
    obtain ⟨p', r', hordered⟩ := List.exists_cons_of_length_eq_add_one hlength
    rw [hordered] at hplaced hlength
    have hne : a ≠ h := by
      rintro rfl
      exact (List.nodup_cons.mp hring.nodup).1 (by simp)
    rw [List.length_cons, List.length_cons] at hlength
    have hcount : r'.length + rest.length < num := by omega
    have hturns : rest.length ≤ fuel := by omega
    obtain ⟨L', hloop, hsorted⟩ := ih hplaced hcount hturns hring.next_eq
    refine ⟨L', ?_, ?_⟩
    · rw [Links.sortLoop, if_neg hne, hplace]
      exact hloop
    · rw [List.foldl_cons, hordered]
      exact hsorted

theorem Holds.sort (greater : α → α → Bool) {l : List α} (hring : Holds L h l) {num : ℕ} (hnum : l.length ≤ num) :
    ∃ L', L.sort greater h num = some L' ∧ Holds L' h (sorted greater l) := by
  rw [Links.sort]
  cases l with
  | nil =>
    have hnext : some h = some (L.next h) := hring.head_eq
    have hprev : some h = some (L.prev h) := hring.last_eq
    exact ⟨L, if_pos (by rw [← Option.some.inj hnext, ← Option.some.inj hprev]), hring⟩
  | cons p rest =>
    have hnext : some p = some (L.next h) := hring.head_eq
    rw [← Option.some.inj hnext, sorted_eq]
    rw [List.length_cons] at hnum
    split
    next hlast =>
      -- Only the list of one node has its first node last.
      refine ⟨L, rfl, ?_⟩
      rcases List.eq_nil_or_concat' rest with rfl | ⟨rest, a, rfl⟩
      · exact hring
      · have hprev := hring.last_eq
        rw [← List.cons_append, ← List.cons_append, List.getLast?_concat] at hprev
        have hnodup := (List.nodup_cons.mp hring.nodup).2
        rw [hlast, ← Option.some.inj hprev] at hnodup
        simp at hnodup
    · exact Holds.sortLoop (r := []) hring (by rw [List.length_nil]; omega) (by omega) (Holds.next_eq (show Holds L h ([] ++ p :: rest) from hring))

end Ring

/-! ## The order of the sort -/

theorem sorted_map {β : Type*} (f : β → α) (l : List β) :
    sorted greater (l.map f) = (sorted (fun a b => greater (f a) (f b)) l).map f := by
  have hmap : (l.reverse.insertionSort fun a b => ¬ greater (f b) (f a)).map f =
      (l.reverse.map f).insertionSort fun a b => ¬ greater b a :=
    List.map_insertionSort _ _ f l.reverse fun a _ b _ => Iff.rfl
  rw [sorted, sorted, List.map_reverse, ← List.map_reverse, hmap]

theorem perm_sorted (greater : α → α → Bool) (l : List α) : (sorted greater l).Perm l :=
  (List.reverse_perm _).trans ((List.perm_insertionSort _ _).trans l.reverse_perm)

section Key

variable {κ : Type*} [LinearOrder κ] (key : α → κ)

/-- Before in the order of the keys, and of the list where these are equal -/
def Before (l : List α) (a b : α) : Prop := key a < key b ∨ key a = key b ∧ [a, b].Sublist l

instance [DecidableEq α] (l : List α) (a b : α) : Decidable (Before key l a b) := inferInstanceAs (Decidable (_ ∨ _ ∧ _))

variable {key} {l : List α}

theorem not_sublist_swap (hnodup : l.Nodup) {a b : α} (h : [a, b].Sublist l) : ¬ [b, a].Sublist l := by
  intro h'
  induction l with
  | nil => cases h
  | cons x l ih =>
    rw [List.nodup_cons] at hnodup
    cases h with
    | cons _ h =>
      cases h' with
      | cons _ h' => exact ih hnodup.2 h h'
      | cons_cons _ h' => exact hnodup.1 (h.subset (by simp))
    | cons_cons _ h =>
      cases h' with
      | cons _ h' => exact hnodup.1 (h'.subset (by simp))
      | cons_cons _ h' => exact hnodup.1 (h.subset (by simp))

theorem sublist_or_swap {a b : α} (ha : a ∈ l) (hb : b ∈ l) (hne : a ≠ b) : [a, b].Sublist l ∨ [b, a].Sublist l := by
  obtain ⟨s, t, rfl⟩ := List.append_of_mem ha
  rcases List.mem_append.mp hb with hs | ht
  · right
    exact (List.singleton_sublist.mpr hs).append (List.singleton_sublist.mpr List.mem_cons_self)
  · left
    rcases List.mem_cons.mp ht with rfl | ht
    · exact absurd rfl hne
    · exact ((List.singleton_sublist.mpr ht).cons_cons a).trans (List.sublist_append_right s _)

theorem Before.asymm (hnodup : l.Nodup) {a b : α} (h : Before key l a b) : ¬ Before key l b a := by
  rcases h with hlt | ⟨heq, hsub⟩
  · rintro (hgt | ⟨heq, -⟩)
    · exact lt_asymm hlt hgt
    · exact hlt.ne' heq
  · rintro (hgt | ⟨-, hsub'⟩)
    · exact hgt.ne' heq
    · exact not_sublist_swap hnodup hsub hsub'

/-- Stability: nodes with one key stay in their order. -/
theorem sorted_pairwise (hnodup : l.Nodup) :
    (sorted (fun a b => decide (key b < key a)) l).Pairwise (Before key l) := by
  have hperm := perm_sorted (fun a b => decide (key b < key a)) l
  have : Std.Total fun a b => ¬ decide (key a < key b) = true :=
    ⟨fun a b => by simpa using le_total (key b) (key a)⟩
  have : IsTrans α fun a b => ¬ decide (key a < key b) = true :=
    ⟨fun a b c hab hbc => by simp only [decide_eq_true_eq, not_lt] at hab hbc ⊢; exact hbc.trans hab⟩
  have hsorted : (sorted (fun a b => decide (key b < key a)) l).Pairwise fun a b => key a ≤ key b := by
    rw [sorted, List.pairwise_reverse]
    exact (List.pairwise_insertionSort _ _).imp fun h => by simpa using h
  rw [List.pairwise_iff_forall_sublist] at hsorted ⊢
  intro a b hab
  rcases (hsorted hab).lt_or_eq with hlt | heq
  · exact .inl hlt
  · refine .inr ⟨heq, (sublist_or_swap ?_ ?_ ?_).resolve_right fun hba => ?_⟩
    · exact hperm.subset (hab.subset (by simp))
    · exact hperm.subset (hab.subset (by simp))
    · rintro rfl
      exact absurd ((hperm.nodup_iff.mpr hnodup).sublist hab) (by simp)
    · have hkept : [a, b].Sublist (l.reverse.insertionSort fun a b => ¬ decide (key a < key b) = true) :=
        List.pair_sublist_insertionSort (by simp [heq]) (by simpa using hba.reverse)
      exact not_sublist_swap (hperm.nodup_iff.mpr hnodup) hab hkept.reverse

end Key

/-! ## Ranks -/

section Rank

variable {R : α → α → Prop} {S l : List α}

/-- The number of members of `l` that come before `a` -/
def rank (R : α → α → Prop) [DecidableRel R] (l : List α) (a : α) : ℕ := (l.filter fun b => R b a).length

/-- In a list in the order `R` the rank of a node is its place. -/
theorem rank_eq [DecidableRel R] (hperm : S.Perm l) (hS : S.Pairwise R) (hasymm : ∀ a b, R a b → ¬ R b a)
    {s t : List α} {a : α} (hat : S = s ++ a :: t) : rank R l a = s.length := by
  have hirrefl : ¬ R a a := fun h => hasymm a a h h
  subst hat
  rw [List.pairwise_append, List.pairwise_cons] at hS
  obtain ⟨-, ⟨hat, -⟩, hsa⟩ := hS
  have hfront : s.filter (fun b => R b a) = s := by
    rw [List.filter_eq_self]
    exact fun b hb => decide_eq_true (hsa b hb a List.mem_cons_self)
  have hback : t.filter (fun b => R b a) = [] := by
    rw [List.filter_eq_nil_iff]
    intro b hb hba
    exact hasymm a b (hat b hb) (of_decide_eq_true hba)
  rw [rank, (hperm.symm.filter _).length_eq, List.filter_append, hfront,
    List.filter_cons_of_neg (by simpa using hirrefl), hback, List.append_nil]

theorem take_of_split {s t : List α} {a : α} {n : ℕ} (hn : s.length < n) :
    (s ++ a :: t).take n = s ++ a :: t.take (n - s.length - 1) := by
  rw [List.take_append, List.take_of_length_le hn.le, List.take_cons (by omega)]

/-- The first `n` members, each against all that follow it -/
theorem front_iff {P : α → α → Prop} {n : ℕ} :
    (S.take n).Pairwise P ∧ (∀ a ∈ S.take n, ∀ b ∈ S.drop n, P a b) ↔
      ∀ s a t, S = s ++ a :: t → s.length < n → ∀ b ∈ t, P a b := by
  constructor
  · rintro ⟨hpair, hrest⟩ s a t rfl hn b hb
    have hdrop : (s ++ a :: t).drop n = t.drop (n - s.length - 1) := by
      rw [List.drop_append, List.drop_of_length_le hn.le, List.nil_append, List.drop_cons (by omega)]
    rw [take_of_split hn] at hpair hrest
    rw [hdrop] at hrest
    rw [← List.take_append_drop (n - s.length - 1) t] at hb
    rcases List.mem_append.mp hb with hb | hb
    · exact (List.pairwise_cons.mp (List.pairwise_append.mp hpair).2.1).1 b hb
    · exact hrest a (by simp) b hb
  · intro h
    induction S generalizing n with
    | nil => simp
    | cons x S ih =>
      cases n with
      | zero => simp
      | succ n =>
        have hx : ∀ b ∈ S, P x b := h [] x S rfl (Nat.succ_pos n)
        obtain ⟨hpair, hrest⟩ := ih fun s a t hs hn => h (x :: s) a t (by rw [hs]; rfl) (Nat.succ_lt_succ hn)
        rw [List.take_succ_cons, List.drop_succ_cons, List.pairwise_cons]
        refine ⟨⟨fun b hb => hx b (List.mem_of_mem_take hb), hpair⟩, fun a ha b hb => ?_⟩
        rcases List.mem_cons.mp ha with rfl | ha
        · exact hx b (List.mem_of_mem_drop hb)
        · exact hrest a ha b hb

/-- The first `n` members, each against all in front of it -/
theorem take_iff {P : α → α → Prop} {n : ℕ} :
    (S.take n).Pairwise P ↔ ∀ s b t, S = s ++ b :: t → s.length < n → ∀ a ∈ s, P a b := by
  constructor
  · rintro hpair s b t rfl hn a ha
    rw [take_of_split hn] at hpair
    exact (List.pairwise_append.mp hpair).2.2 a ha b List.mem_cons_self
  · intro h
    induction S generalizing n with
    | nil => simp
    | cons x S ih =>
      cases n with
      | zero => simp
      | succ n =>
        rw [List.take_succ_cons, List.pairwise_cons]
        constructor
        · intro b hb
          obtain ⟨s, t, hst⟩ := List.append_of_mem hb
          have hn : s.length < n := by
            have hlength := congrArg List.length hst
            have hle := List.length_take_le n S
            simp only [List.length_append, List.length_cons] at hlength
            omega
          refine h (x :: s) b (t ++ S.drop n) ?_ (Nat.succ_lt_succ hn) x List.mem_cons_self
          have hS : S = s ++ (b :: t ++ S.drop n) := by rw [← List.append_assoc, ← hst, List.take_append_drop]
          exact congrArg (x :: ·) hS
        · refine ih fun s b t hs hn a ha => ?_
          exact h (x :: s) b t (by rw [hs]; rfl) (Nat.succ_lt_succ hn) a (List.mem_cons_of_mem x ha)

section

variable [DecidableRel R] {P : α → α → Prop} {n : ℕ} (hperm : S.Perm l) (hS : S.Pairwise R)
  (hasymm : ∀ a b, R a b → ¬ R b a)
include hperm hS hasymm

theorem front_iff_rank : (S.take n).Pairwise P ∧ (∀ a ∈ S.take n, ∀ b ∈ S.drop n, P a b) ↔
    ∀ a ∈ l, ∀ b ∈ l, R a b → rank R l a < n → P a b := by
  rw [front_iff]
  constructor
  · intro h a ha b hb hab hrank
    obtain ⟨s, t, hst⟩ := List.append_of_mem (hperm.symm.subset ha)
    rw [rank_eq hperm hS hasymm hst] at hrank
    refine h s a t hst hrank b ?_
    have hb' := hperm.symm.subset hb
    rw [hst] at hS hb'
    rcases List.mem_append.mp hb' with hb' | hb'
    · exact absurd ((List.pairwise_append.mp hS).2.2 b hb' a List.mem_cons_self) (hasymm a b hab)
    · rcases List.mem_cons.mp hb' with rfl | hb'
      · exact absurd hab (hasymm b b hab)
      · exact hb'
  · intro h s a t hst hn b hb
    have hrank := rank_eq hperm hS hasymm hst
    subst hst
    have hab := (List.pairwise_cons.mp (List.pairwise_append.mp hS).2.1).1 b hb
    exact h a (hperm.subset (by simp)) b (hperm.subset (by simp [hb])) hab (by omega)

theorem take_iff_rank : (S.take n).Pairwise P ↔ ∀ a ∈ l, ∀ b ∈ l, R a b → rank R l b < n → P a b := by
  rw [take_iff]
  constructor
  · intro h a ha b hb hab hrank
    obtain ⟨s, t, hst⟩ := List.append_of_mem (hperm.symm.subset hb)
    rw [rank_eq hperm hS hasymm hst] at hrank
    refine h s b t hst hrank a ?_
    have ha' := hperm.symm.subset ha
    rw [hst] at hS ha'
    rcases List.mem_append.mp ha' with ha' | ha'
    · exact ha'
    · rcases List.mem_cons.mp ha' with rfl | ha'
      · exact absurd hab (hasymm a a hab)
      · exact absurd ((List.pairwise_cons.mp (List.pairwise_append.mp hS).2.1).1 a ha') (hasymm a b hab)
  · intro h s b t hst hn a ha
    have hrank := rank_eq hperm hS hasymm hst
    subst hst
    have hab := (List.pairwise_append.mp hS).2.2 a ha b List.mem_cons_self
    exact h a (hperm.subset (by simp [ha])) b (hperm.subset (by simp)) hab (by omega)

end

end Rank

end Tefs.Ring
