import Mathlib.Order.Interval.Finset.Nat
import Mathlib.Logic.Equiv.Basic
import Mathlib.Algebra.Order.Group.Multiset
import Mathlib.Data.Finset.Image

/-! # Binary heaps in an array counted from 1

The positions `1 … n - 1` of an array are in use, and the children of `p` are `2 * p` and `2 * p + 1`. `Ordered` is the
heap order by a key. A sift repairs one place: `UpOrder` and `DownOrder` say what is in order before it, off the
place `p` it has come to.
-/

namespace Tefs.BinaryHeap
set_option autoImplicit false

variable {α β : Type*}

def swap (i j : ℕ) (a : ℕ → α) : ℕ → α := Function.update (Function.update a i (a j)) j (a i)

/-- What the positions in use hold. -/
def contents (n : ℕ) (a : ℕ → α) : Multiset α := (Finset.Ico 1 n).val.map a

section Order
variable [LinearOrder β] (key : α → β)

def siftUp (p : ℕ) (a : ℕ → α) : ℕ → α :=
  if 1 < p ∧ key (a p) < key (a (p / 2)) then siftUp (p / 2) (swap p (p / 2) a) else a
termination_by p

/-- Of `p` and its children below `n`, the one of the least key; the earliest, between equal keys. -/
def least (n p : ℕ) (a : ℕ → α) : ℕ :=
  let first := if 2 * p < n ∧ key (a (2 * p)) < key (a p) then 2 * p else p
  if 2 * p + 1 < n ∧ key (a (2 * p + 1)) < key (a first) then 2 * p + 1 else first

theorem least_cases (n p : ℕ) (a : ℕ → α) :
    least key n p a = p ∨ p < least key n p a ∧ least key n p a < n ∧ least key n p a / 2 = p ∧
      key (a (least key n p a)) < key (a p) := by
  unfold least
  by_cases hl : 2 * p < n ∧ key (a (2 * p)) < key (a p)
  · have hp : p ≠ 0 := by
      rintro rfl
      exact lt_irrefl _ hl.2
    simp only [hl, and_self, if_true]
    split
    · next hr => exact .inr ⟨by omega, hr.1, by omega, hr.2.trans hl.2⟩
    · exact .inr ⟨by omega, hl.1, by omega, hl.2⟩
  · simp only [hl, if_false]
    split
    · next hr => exact .inr ⟨by omega, hr.1, by omega, hr.2⟩
    · exact .inl rfl

def siftDown (n p : ℕ) (a : ℕ → α) : ℕ → α :=
  if _ : p < n ∧ least key n p a ≠ p then siftDown n (least key n p a) (swap p (least key n p a) a) else a
termination_by n - p
decreasing_by
  next hmove =>
  have := (least_cases key n p a).resolve_left hmove.2
  omega

def Ordered (n : ℕ) (a : ℕ → α) : Prop := ∀ i, 1 < i → i < n → key (a (i / 2)) ≤ key (a i)

end Order

/-! ## Contents -/

@[simp] theorem swap_left (i j : ℕ) (a : ℕ → α) : swap i j a i = a j := by
  by_cases hij : i = j
  · rw [hij, swap, Function.update_self]
  · rw [swap, Function.update_of_ne hij, Function.update_self]

@[simp] theorem swap_right (i j : ℕ) (a : ℕ → α) : swap i j a j = a i := Function.update_self ..

theorem swap_of_ne {i j k : ℕ} (hi : k ≠ i) (hj : k ≠ j) (a : ℕ → α) : swap i j a k = a k := by
  rw [swap, Function.update_of_ne hj, Function.update_of_ne hi]

theorem swap_eq_comp (i j : ℕ) (a : ℕ → α) : swap i j a = a ∘ Equiv.swap i j := by
  funext k
  by_cases hi : k = i
  · rw [hi, swap_left, Function.comp_apply, Equiv.swap_apply_left]
  · by_cases hj : k = j
    · rw [hj, swap_right, Function.comp_apply, Equiv.swap_apply_right]
    · rw [swap_of_ne hi hj, Function.comp_apply, Equiv.swap_apply_of_ne_of_ne hi hj]

theorem contents_swap {n i j : ℕ} (hi : 1 ≤ i ∧ i < n) (hj : 1 ≤ j ∧ j < n) (a : ℕ → α) :
    contents n (swap i j a) = contents n a := by
  have hperm : (Finset.Ico 1 n).map (Equiv.swap i j).toEmbedding = Finset.Ico 1 n := by
    apply Finset.map_perm
    intro k hk
    by_contra hout
    have hne : k ≠ i ∧ k ≠ j := by
      constructor
      · rintro rfl
        exact hout (Finset.mem_coe.mpr (Finset.mem_Ico.mpr hi))
      · rintro rfl
        exact hout (Finset.mem_coe.mpr (Finset.mem_Ico.mpr hj))
    exact hk (Equiv.swap_apply_of_ne_of_ne hne.1 hne.2)
  calc contents n (swap i j a) = (((Finset.Ico 1 n).map (Equiv.swap i j).toEmbedding).val).map a := by
        rw [contents, swap_eq_comp, Finset.map_val, Multiset.map_map]
        rfl
    _ = contents n a := by rw [hperm, contents]

theorem contents_congr {n : ℕ} {a b : ℕ → α} (h : ∀ i, 1 ≤ i → i < n → a i = b i) : contents n a = contents n b := by
  apply Multiset.map_congr rfl
  intro i hi
  have := Finset.mem_Ico.mp (Finset.mem_val.mp hi)
  exact h i this.1 this.2

theorem contents_succ {n : ℕ} (hn : 1 ≤ n) (a : ℕ → α) : contents (n + 1) a = a n ::ₘ contents n a := by
  have hIco : Finset.Ico 1 (n + 1) = insert n (Finset.Ico 1 n) := by
    ext i
    simp only [Finset.mem_insert, Finset.mem_Ico]
    omega
  rw [contents, hIco, Finset.insert_val_of_notMem (by simp), Multiset.map_cons]
  rfl

theorem mem_contents {n : ℕ} {a : ℕ → α} {x : α} : x ∈ contents n a ↔ ∃ i, 1 ≤ i ∧ i < n ∧ a i = x := by
  simp [contents, and_assoc]

/-- The last leaf moved into the place `i`. -/
theorem contents_moveLast {n i : ℕ} (hi : 1 ≤ i) (hn : i ≤ n) (a : ℕ → α) :
    contents (n + 1) a = a i ::ₘ contents n (Function.update a i (a n)) := by
  rcases Nat.lt_or_ge i n with hlt | hge
  · have hsw : contents (n + 1) a = contents (n + 1) (swap i n a) := by
      rw [contents_swap ⟨hi, by omega⟩ ⟨by omega, by omega⟩]
    rw [hsw, contents_succ (by omega), swap_right]
    congr 1
    apply contents_congr
    intro k _ hk
    rw [swap, Function.update_of_ne (by omega)]
  · obtain rfl : i = n := by omega
    rw [contents_succ hi, Function.update_eq_self]

variable [LinearOrder β] {key : α → β}

theorem contents_siftUp {n p : ℕ} (hp : 1 ≤ p ∧ p < n) (a : ℕ → α) : contents n (siftUp key p a) = contents n a := by
  fun_induction siftUp key p a with
  | case1 p a h ih => rw [ih ⟨by omega, by omega⟩, contents_swap hp ⟨by omega, by omega⟩]
  | case2 p a h => rfl

theorem contents_siftDown {n p : ℕ} (hp : 1 ≤ p) (a : ℕ → α) : contents n (siftDown key n p a) = contents n a := by
  fun_induction siftDown key n p a with
  | case1 p a h ih =>
    have hl := (least_cases key n p a).resolve_left h.2
    rw [ih (by omega), contents_swap ⟨hp, h.1⟩ ⟨by omega, hl.2.1⟩]
  | case2 p a h => rfl

/-! ## Order -/

/-- In order but for `p` and its parent, and the children of `p` not below that parent. -/
structure UpOrder (key : α → β) (n p : ℕ) (a : ℕ → α) : Prop where
  off : ∀ i, 1 < i → i < n → i ≠ p → key (a (i / 2)) ≤ key (a i)
  grand : ∀ i, 1 < i → i < n → i / 2 = p → 1 < p → key (a (p / 2)) ≤ key (a i)

/-- In order but for `p` and its children, and these not below the parent of `p`. -/
structure DownOrder (key : α → β) (n p : ℕ) (a : ℕ → α) : Prop where
  off : ∀ i, 1 < i → i < n → i / 2 ≠ p → key (a (i / 2)) ≤ key (a i)
  grand : ∀ i, 1 < i → i < n → i / 2 = p → 1 < p → key (a (p / 2)) ≤ key (a i)

theorem Ordered.root_le {n : ℕ} {a : ℕ → α} (h : Ordered key n a) {i : ℕ} (hi : 1 ≤ i) (hn : i < n) :
    key (a 1) ≤ key (a i) := by
  induction i using Nat.strong_induction_on with
  | h i ih =>
    rcases Nat.eq_or_lt_of_le hi with rfl | hlt
    · exact le_rfl
    · exact (ih (i / 2) (by omega) (by omega) (by omega)).trans (h i hlt hn)

theorem UpOrder.step {n p : ℕ} {a : ℕ → α} (h : UpOrder key n p a) (hp : 1 < p) (hn : p < n)
    (hlt : key (a p) < key (a (p / 2))) : UpOrder key n (p / 2) (swap p (p / 2) a) := by
  have hpar : 1 < p / 2 → key (a (p / 2 / 2)) ≤ key (a (p / 2)) := fun h1 => h.off (p / 2) h1 (by omega) (by omega)
  constructor
  · intro i hi hin hne
    by_cases hip : i = p
    · rw [hip, swap_left, swap_right]
      exact hlt.le
    · by_cases hchild : i / 2 = p
      · rw [hchild, swap_left, swap_of_ne (by omega) (by omega)]
        exact h.grand i hi hin hchild hp
      · rw [swap_of_ne hip (by omega)]
        by_cases hsib : i / 2 = p / 2
        · rw [hsib, swap_right]
          exact hlt.le.trans (hsib ▸ h.off i hi hin hip)
        · rw [swap_of_ne hchild hsib]
          exact h.off i hi hin hip
  · intro i hi hin hpar2 h1
    rw [swap_of_ne (by omega) (by omega)]
    by_cases hip : i = p
    · rw [hip, swap_left]
      exact hpar h1
    · rw [swap_of_ne hip (by omega)]
      exact (hpar h1).trans (hpar2 ▸ h.off i hi hin hip)

theorem UpOrder.stop {n p : ℕ} {a : ℕ → α} (h : UpOrder key n p a) (hstop : ¬(1 < p ∧ key (a p) < key (a (p / 2)))) :
    Ordered key n a := by
  intro i hi hin
  by_cases hip : i = p
  · subst hip
    exact le_of_not_gt fun hlt => hstop ⟨hi, hlt⟩
  · exact h.off i hi hin hip

theorem UpOrder.siftUp {n p : ℕ} {a : ℕ → α} (h : UpOrder key n p a) (hn : p < n) :
    Ordered key n (siftUp key p a) := by
  fun_induction BinaryHeap.siftUp key p a with
  | case1 p a hlt ih => exact ih (h.step hlt.1 hn hlt.2) (by omega)
  | case2 p a hstop => exact h.stop hstop

theorem least_le (n p : ℕ) (a : ℕ → α) {i : ℕ} (hi : i < n) (hp : i / 2 = p) :
    key (a (least key n p a)) ≤ key (a i) := by
  have hside : i = 2 * p ∨ i = 2 * p + 1 := by omega
  unfold least
  by_cases hl : 2 * p < n ∧ key (a (2 * p)) < key (a p)
  · simp only [hl, and_self, if_true]
    split
    · next hr =>
      rcases hside with rfl | rfl
      · exact hr.2.le
      · exact le_rfl
    · next hr =>
      rcases hside with rfl | rfl
      · exact le_rfl
      · exact le_of_not_gt fun hlt => hr ⟨hi, hlt⟩
  · simp only [hl, if_false]
    split
    · next hr =>
      rcases hside with rfl | rfl
      · exact hr.2.le.trans (le_of_not_gt fun hlt => hl ⟨hi, hlt⟩)
      · exact le_rfl
    · next hr =>
      rcases hside with rfl | rfl
      · exact le_of_not_gt fun hlt => hl ⟨hi, hlt⟩
      · exact le_of_not_gt fun hlt => hr ⟨hi, hlt⟩

theorem DownOrder.step {n p : ℕ} {a : ℕ → α} (h : DownOrder key n p a) (hne : least key n p a ≠ p) :
    DownOrder key n (least key n p a) (swap p (least key n p a) a) := by
  obtain ⟨hlt, hn, hchild, hkey⟩ := (least_cases key n p a).resolve_left hne
  set c := least key n p a with hc
  constructor
  · intro i hi hin hnc
    by_cases hip : i = p
    · rw [hip, swap_left, swap_of_ne (by omega) (by omega)]
      exact h.grand c (by omega) hn hchild (by omega)
    · by_cases hpi : i / 2 = p
      · rw [hpi, swap_left]
        by_cases hic : i = c
        · rw [hic, swap_right]
          exact hkey.le
        · rw [swap_of_ne hip hic]
          exact least_le n p a hin hpi
      · have hic : i ≠ c := by
          rintro rfl
          exact hpi hchild
        rw [swap_of_ne hpi hnc, swap_of_ne hip hic]
        exact h.off i hi hin hpi
  · intro i hi hin hci _
    rw [hchild, swap_left, swap_of_ne (by omega) (by omega)]
    exact hci ▸ h.off i hi hin (by omega)

theorem DownOrder.stop {n p : ℕ} {a : ℕ → α} (h : DownOrder key n p a) (hstop : least key n p a = p) :
    Ordered key n a := by
  intro i hi hin
  by_cases hp : i / 2 = p
  · have hle : key (a (least key n p a)) ≤ key (a i) := least_le n p a hin hp
    rwa [hstop, ← hp] at hle
  · exact h.off i hi hin hp

theorem DownOrder.siftDown {n p : ℕ} {a : ℕ → α} (h : DownOrder key n p a) : Ordered key n (siftDown key n p a) := by
  fun_induction BinaryHeap.siftDown key n p a with
  | case1 p a hmove ih => exact ih (h.step hmove.2)
  | case2 p a hstop =>
    by_cases hn : p < n
    · exact h.stop (by by_contra hne; exact hstop ⟨hn, hne⟩)
    · intro i hi hin
      exact h.off i hi hin (by omega)

/-- What is smaller than its parent stays where it is: no child of the place is smaller still. -/
theorem siftDown_of_lt_parent {n p : ℕ} {a : ℕ → α} (hp : 1 < p) (hlt : key (a p) < key (a (p / 2)))
    (hgrand : ∀ i, 1 < i → i < n → i / 2 = p → key (a (p / 2)) ≤ key (a i)) : siftDown key n p a = a := by
  unfold siftDown
  split
  · next hmove =>
    obtain ⟨hgt, hn, hchild, hkey⟩ := (least_cases key n p a).resolve_left hmove.2
    have hle := hgrand _ (by omega) hn hchild
    exact absurd (hle.trans_lt hkey) (not_lt_of_gt hlt)
  · rfl

/-! ## The three operations of a priority queue -/

/-- A new leaf, sifted up. -/
theorem Ordered.push {n : ℕ} {a : ℕ → α} (h : Ordered key n a) (x : α) :
    Ordered key (n + 1) (siftUp key n (Function.update a n x)) := by
  have hup : UpOrder key (n + 1) n (Function.update a n x) := by
    constructor
    · intro i hi hin hne
      rw [Function.update_of_ne (by omega), Function.update_of_ne hne]
      exact h i hi (by omega)
    · intro i hi hin hchild hn
      exact absurd hchild (by omega)
  exact hup.siftUp (by omega)

/-- The last leaf in the place of `i` is sifted down well if it is not below the parent of `i`. -/
theorem Ordered.moveLast {n i : ℕ} {a : ℕ → α} (h : Ordered key (n + 1) a)
    (hpar : 1 < i → i < n → key (a (i / 2)) ≤ key (a n)) :
    Ordered key n (siftDown key n i (Function.update a i (a n))) := by
  have hdown : DownOrder key n i (Function.update a i (a n)) := by
    constructor
    · intro k hk hkn hne
      rw [Function.update_of_ne hne]
      by_cases hki : k = i
      · rw [hki, Function.update_self]
        exact hpar (by omega) (by omega)
      · rw [Function.update_of_ne hki]
        exact h k hk (by omega)
    · intro k hk hkn hchild h1
      rw [Function.update_of_ne (by omega), Function.update_of_ne (by omega)]
      exact (h i h1 (by omega)).trans (hchild ▸ h k hk (by omega))
  exact hdown.siftDown

/-- And only then. -/
theorem Ordered.moveLast_iff {n i : ℕ} {a : ℕ → α} (h : Ordered key (n + 1) a) :
    Ordered key n (siftDown key n i (Function.update a i (a n))) ↔
      (1 < i → i < n → key (a (i / 2)) ≤ key (a n)) := by
  refine ⟨fun hord h1 hin => ?_, h.moveLast⟩
  by_contra hlt
  have hstuck : siftDown key n i (Function.update a i (a n)) = Function.update a i (a n) := by
    apply siftDown_of_lt_parent h1
    · rw [Function.update_self, Function.update_of_ne (by omega)]
      exact lt_of_not_ge hlt
    · intro k hk hkn hchild
      rw [Function.update_of_ne (by omega), Function.update_of_ne (by omega)]
      exact (h i h1 (by omega)).trans (hchild ▸ h k hk (by omega))
  rw [hstuck] at hord
  have hbad := hord i h1 hin
  rw [Function.update_self, Function.update_of_ne (by omega)] at hbad
  exact hlt hbad

end Tefs.BinaryHeap
