import Mathlib.Data.List.Chain
import Mathlib.Data.List.Nodup

/-! # Chains that are determined backwards

A relation `R x y`, "`x` stands before `y`", in which nothing has two elements before it. A chain
that starts at an element with nothing before it is then fixed by any of its elements: an element is
at one place of one such chain only, so these chains have no repetitions and are disjoint.
-/

namespace Tefs.BackChain
set_option autoImplicit false

variable {α : Type*} {R : α → α → Prop}

theorem rel_getElem? {l : List α} (h : l.IsChain R) {i : ℕ} {e : α} (he : l[i + 1]? = some e) :
    ∃ d, l[i]? = some d ∧ R d e := by
  obtain ⟨hlt, rfl⟩ := List.getElem?_eq_some_iff.mp he
  exact ⟨l[i], by simp, List.isChain_iff_getElem.mp h i hlt⟩

/-- The induction is on the place in the first chain. -/
theorem place_unique (hfun : ∀ x x' y, R x y → R x' y → x = x') {p q : α} {l m : List α}
    (hp : ∀ x, ¬ R x p) (hq : ∀ x, ¬ R x q) (hl : (p :: l).IsChain R) (hm : (q :: m).IsChain R)
    {i j : ℕ} {e : α} (hi : (p :: l)[i]? = some e) (hj : (q :: m)[j]? = some e) :
    i = j ∧ p = q := by
  induction i generalizing j e with
  | zero =>
    have hpe : p = e := by simpa using hi
    cases j with
    | zero => exact ⟨rfl, hpe.trans (by simpa using hj.symm)⟩
    | succ j =>
      obtain ⟨d, -, hd⟩ := rel_getElem? hm hj
      exact absurd (hpe ▸ hd) (hp d)
  | succ i ih =>
    obtain ⟨d, hdi, hd⟩ := rel_getElem? hl hi
    cases j with
    | zero =>
      have hqe : q = e := by simpa using hj
      exact absurd (hqe ▸ hd) (hq d)
    | succ j =>
      obtain ⟨d', hdj, hd'⟩ := rel_getElem? hm hj
      obtain rfl := hfun d d' e hd hd'
      obtain ⟨rfl, hpq⟩ := ih hdi hdj
      exact ⟨rfl, hpq⟩

theorem nodup_of_isChain (hfun : ∀ x x' y, R x y → R x' y → x = x') {p : α} {l : List α}
    (hp : ∀ x, ¬ R x p) (hl : (p :: l).IsChain R) : (p :: l).Nodup := by
  rw [List.nodup_iff_getElem?_ne_getElem?]
  intro i j hij hj heq
  have he := List.getElem?_eq_getElem hj
  have hplace := (place_unique hfun hp hp hl hl (heq.trans he) he).1
  omega

theorem start_unique (hfun : ∀ x x' y, R x y → R x' y → x = x') {p q : α} {l m : List α}
    (hp : ∀ x, ¬ R x p) (hq : ∀ x, ¬ R x q) (hl : (p :: l).IsChain R) (hm : (q :: m).IsChain R)
    {e : α} (hel : e ∈ p :: l) (hem : e ∈ q :: m) : p = q := by
  obtain ⟨i, hi⟩ := List.mem_iff_getElem?.mp hel
  obtain ⟨j, hj⟩ := List.mem_iff_getElem?.mp hem
  exact (place_unique hfun hp hq hl hm hi hj).2

end Tefs.BackChain
