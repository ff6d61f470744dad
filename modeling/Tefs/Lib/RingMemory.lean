import Tefs.Lib.Ring
import Mathlib.Algebra.Order.Ring.Nat
import Mathlib.Data.Set.Basic

/-! # Rings in a memory

A node is an address: the word there is its `next`, the word `w` behind it its `prev`. No node is `w` behind another
one, so the stores of an operation on one ring are links of its nodes and nothing else. `Family` is a number of rings
that share no node.
-/

namespace Tefs.Ring
open Links
set_option autoImplicit false

/-! ## Rings side by side -/

/-- The rings `list q`, each closed at its `head q` -/
structure Family {α ι : Type*} (L : Links α) (head : ι → α) (list : ι → List α) : Prop where
  holds : ∀ q, Holds L (head q) (list q)
  disjoint : ∀ q q', q ≠ q' → List.Disjoint (head q :: list q) (head q' :: list q')

namespace Family

section

variable {α ι : Type*} {L L' : Links α} {head : ι → α} {list : ι → List α}

/-- The nodes of all rings -/
def nodes (head : ι → α) (list : ι → List α) : Set α := {x | ∃ q, x ∈ head q :: list q}

theorem congr (h : Family L head list) (hnext : ∀ x ∈ nodes head list, L'.next x = L.next x)
    (hprev : ∀ x ∈ nodes head list, L'.prev x = L.prev x) : Family L' head list :=
  ⟨fun q => (h.holds q).congr (fun x hx => hnext x ⟨q, hx⟩) fun x hx => hprev x ⟨q, hx⟩, h.disjoint⟩

section Change

variable [DecidableEq ι]

theorem holds_update {q : ι} {l : List α} (hself : Holds L' (head q) l)
    (hother : ∀ q', q' ≠ q → Holds L' (head q') (list q')) (q' : ι) :
    Holds L' (head q') (Function.update list q l q') := by
  by_cases hne : q' = q
  · subst hne
    rw [Function.update_self]
    exact hself
  · rw [Function.update_of_ne hne]
    exact hother q' hne

/-- One ring gets a new node `x`, or loses some. -/
theorem change (h : Family L head list) {q : ι} {l : List α} {x : α} (hx : x ∈ l → x ∉ list q → x ∉ nodes head list)
    (hl : ∀ a ∈ l, a = x ∨ a ∈ list q) (hself : Holds L' (head q) l)
    (hother : ∀ q', q' ≠ q → Holds L' (head q') (list q')) : Family L' head (Function.update list q l) := by
  refine ⟨holds_update hself hother, ?_⟩
  have hmem : ∀ q' a, a ∈ head q' :: Function.update list q l q' →
      a ∈ head q' :: list q' ∨ q' = q ∧ a ∉ nodes head list := by
    intro q' a ha
    by_cases heq : q' = q
    · subst heq
      rw [Function.update_self, List.mem_cons] at ha
      rcases ha with rfl | ha
      · exact Or.inl List.mem_cons_self
      by_cases hin : a ∈ list q'
      · exact Or.inl (List.mem_cons_of_mem _ hin)
      · obtain rfl := (hl a ha).resolve_right hin
        exact Or.inr ⟨rfl, hx ha hin⟩
    · rw [Function.update_of_ne heq] at ha
      exact Or.inl ha
  intro q₁ q₂ hne a ha ha'
  rcases hmem q₁ a ha with h₁ | ⟨rfl, hnew⟩
  · rcases hmem q₂ a ha' with h₂ | ⟨rfl, hnew⟩
    · exact h.disjoint q₁ q₂ hne h₁ h₂
    · exact hnew ⟨q₁, h₁⟩
  · rcases hmem q₂ a ha' with h₂ | ⟨heq, -⟩
    · exact hnew ⟨q₂, h₂⟩
    · exact hne heq.symm

end Change

variable [DecidableEq α] [DecidableEq ι]

theorem remove (h : Family L head list) {q : ι} {x : α} {l₁ l₂ : List α} (hq : list q = l₁ ++ x :: l₂) :
    Family (L.remove x) head (Function.update list q (l₁ ++ l₂)) := by
  have hring := h.holds q
  rw [hq] at hring
  have hsub : ∀ a ∈ l₁ ++ l₂, a ∈ list q := by
    intro a ha
    rw [hq]
    rw [List.mem_append] at ha ⊢
    exact ha.imp_right (List.mem_cons_of_mem x)
  exact h.change (fun ha hna => absurd (hsub x ha) hna) (fun a ha => Or.inr (hsub a ha)) hring.remove
    fun q' hne => (h.holds q').remove_other hring (hq ▸ h.disjoint q q' hne.symm)

theorem insertHead (h : Family L head list) (q : ι) {x : α} (hx : x ∉ nodes head list) :
    Family (L.insertHead (head q) x) head (Function.update list q (x :: list q)) :=
  h.change (fun _ _ => hx) (by simp) ((h.holds q).insertHead fun hmem => hx ⟨q, hmem⟩) fun q' hne =>
    (h.holds q').insertHead_other (h.holds q) (fun hmem => hx ⟨q', hmem⟩) (h.disjoint q q' hne.symm)

theorem insertTail (h : Family L head list) (q : ι) {x : α} (hx : x ∉ nodes head list) :
    Family (L.insertTail (head q) x) head (Function.update list q (list q ++ [x])) :=
  h.change (fun _ _ => hx) (by simp [or_comm]) ((h.holds q).insertTail fun hmem => hx ⟨q, hmem⟩) fun q' hne =>
    (h.holds q').insertTail_other (h.holds q) (fun hmem => hx ⟨q', hmem⟩) (h.disjoint q q' hne.symm)

theorem init (h : Family L head list) (q : ι) : Family (L.init (head q)) head (Function.update list q []) :=
  h.change (x := head q) (fun ha => absurd ha List.not_mem_nil) (fun _ ha => absurd ha List.not_mem_nil)
    (Holds.init L (head q)) fun q' hne =>
      (h.holds q').init_other fun hmem => h.disjoint q q' hne.symm List.mem_cons_self hmem

end

end Family

/-! ## The words of a memory -/

section Memory

variable (w : ℕ)

def inMemory (m : ℕ → ℕ) : Links ℕ := ⟨fun x => m (x + w), m⟩

/-- No node is in the place of another one's `prev`. -/
def Apart (nodes : Set ℕ) : Prop := ∀ x ∈ nodes, ∀ y ∈ nodes, x + w ≠ y

def put (a v : ℕ) (m : ℕ → ℕ) : ℕ → ℕ := Function.update m a v

def initAt (h : ℕ) (m : ℕ → ℕ) : ℕ → ℕ :=
  let m := put (h + w) h m
  put h h m

def insertHeadAt (h x : ℕ) (m : ℕ → ℕ) : ℕ → ℕ :=
  let m := put x (m h) m
  let m := put (m x + w) x m
  let m := put (x + w) h m
  put h x m

def insertTailAt (h x : ℕ) (m : ℕ → ℕ) : ℕ → ℕ :=
  let m := put (x + w) (m (h + w)) m
  let m := put (m (x + w)) x m
  let m := put x h m
  put (h + w) x m

def removeAt (x : ℕ) (m : ℕ → ℕ) : ℕ → ℕ :=
  let m := put (m x + w) (m (x + w)) m
  put (m (x + w)) (m x) m

/-! ### An operation on one ring, seen at the nodes -/

variable {w} {nodes : Set ℕ} {m : ℕ → ℕ} {h x y : ℕ}

theorem put_of_ne {a v : ℕ} (hy : y ≠ a) : put a v m y = m y := by rw [put, Function.update_of_ne hy]

theorem put_self {a v : ℕ} : put a v m a = v := by rw [put, Function.update_self]

/-- The two maps of links agree at the nodes. -/
def Agree (nodes : Set ℕ) (L L' : Links ℕ) : Prop := ∀ y ∈ nodes, L.next y = L'.next y ∧ L.prev y = L'.prev y

theorem agree_put_next (hapart : Apart w nodes) (hx : x ∈ nodes) (v : ℕ) :
    Agree nodes (inMemory w (put x v m)) ((inMemory w m).setNext x v) :=
  fun y hy => ⟨rfl, put_of_ne (hapart y hy x hx)⟩

theorem agree_put_prev (hapart : Apart w nodes) (hx : x ∈ nodes) (v : ℕ) :
    Agree nodes (inMemory w (put (x + w) v m)) ((inMemory w m).setPrev x v) := by
  intro y hy
  refine ⟨put_of_ne (hapart x hx y hy).symm, ?_⟩
  by_cases heq : y = x
  · subst heq
    simp [inMemory, setPrev, put]
  · have hne : y + w ≠ x + w := by omega
    simp [inMemory, setPrev, put, heq]

theorem Agree.trans {L L' L'' : Links ℕ} (h : Agree nodes L L') (h' : Agree nodes L' L'') : Agree nodes L L'' :=
  fun y hy => ⟨(h y hy).1.trans (h' y hy).1, (h y hy).2.trans (h' y hy).2⟩

theorem Agree.setNext {L L' : Links ℕ} (h : Agree nodes L L') (x v : ℕ) :
    Agree nodes (L.setNext x v) (L'.setNext x v) := by
  intro y hy
  refine ⟨?_, (h y hy).2⟩
  by_cases heq : y = x
  · simp [Links.setNext, heq]
  · simp [Links.setNext, heq, (h y hy).1]

theorem Agree.setPrev {L L' : Links ℕ} (h : Agree nodes L L') (x v : ℕ) :
    Agree nodes (L.setPrev x v) (L'.setPrev x v) := by
  intro y hy
  refine ⟨(h y hy).1, ?_⟩
  by_cases heq : y = x
  · simp [Links.setPrev, heq]
  · simp [Links.setPrev, heq, (h y hy).2]

theorem agree_initAt (hapart : Apart w nodes) (hh : h ∈ nodes) :
    Agree nodes (inMemory w (initAt w h m)) ((inMemory w m).init h) :=
  (agree_put_next hapart hh h).trans ((agree_put_prev hapart hh h).setNext h h)

theorem agree_insertHeadAt (hapart : Apart w nodes) (hh : h ∈ nodes) (hx : x ∈ nodes) (hn : m h ∈ nodes) :
    Agree nodes (inMemory w (insertHeadAt w h x m)) ((inMemory w m).insertHead h x) := by
  have hnext : put x (m h) m x = m h := put_self
  have h₁ := agree_put_next (m := m) hapart hx (m h)
  have h₂ := (agree_put_prev (m := put x (m h) m) hapart hn x).trans (h₁.setPrev (m h) x)
  have h₃ := (agree_put_prev (m := put (m h + w) x (put x (m h) m)) hapart hx h).trans (h₂.setPrev x h)
  have h₄ := (agree_put_next (m := put (x + w) h (put (m h + w) x (put x (m h) m))) hapart hh x).trans (h₃.setNext h x)
  have hself : ((inMemory w m).setNext x ((inMemory w m).next h)).next x = m h := by
    simp [Links.setNext, inMemory]
  simp only [insertHeadAt, Links.insertHead, hnext, hself]
  exact h₄

theorem agree_insertTailAt (hapart : Apart w nodes) (hh : h ∈ nodes) (hx : x ∈ nodes) (hp : m (h + w) ∈ nodes) :
    Agree nodes (inMemory w (insertTailAt w h x m)) ((inMemory w m).insertTail h x) := by
  have hprev : put (x + w) (m (h + w)) m (x + w) = m (h + w) := put_self
  have h₁ := agree_put_prev (m := m) hapart hx (m (h + w))
  have h₂ := (agree_put_next (m := put (x + w) (m (h + w)) m) hapart hp x).trans (h₁.setNext (m (h + w)) x)
  have h₃ := (agree_put_next (m := put (m (h + w)) x (put (x + w) (m (h + w)) m)) hapart hx h).trans (h₂.setNext x h)
  have h₄ := (agree_put_prev (m := put x h (put (m (h + w)) x (put (x + w) (m (h + w)) m))) hapart hh x).trans
    (h₃.setPrev h x)
  have hself : ((inMemory w m).setPrev x ((inMemory w m).prev h)).prev x = m (h + w) := by
    simp [Links.setPrev, inMemory]
  simp only [insertTailAt, Links.insertTail, hprev, hself]
  exact h₄

theorem agree_removeAt (hapart : Apart w nodes) (hx : x ∈ nodes) (hn : m x ∈ nodes) (hp : m (x + w) ∈ nodes) :
    Agree nodes (inMemory w (removeAt w x m)) ((inMemory w m).remove x) := by
  have h₁ := agree_put_prev (m := m) hapart hn (m (x + w))
  have hprev : ((inMemory w m).setPrev (m x) (m (x + w))).prev x = put (m x + w) (m (x + w)) m (x + w) :=
    ((h₁ x hx).2).symm
  have hnext : put (m x + w) (m (x + w)) m x = m x := (h₁ x hx).1
  have hin : put (m x + w) (m (x + w)) m (x + w) ∈ nodes := by
    by_cases heq : x = m x
    · rw [← heq, put_self]
      exact hp
    · rw [put_of_ne (by omega)]
      exact hp
  have h₂ := (agree_put_next (m := put (m x + w) (m (x + w)) m) hapart hin (m x)).trans
    (h₁.setNext (put (m x + w) (m (x + w)) m (x + w)) (m x))
  simp only [removeAt, hnext]
  show Agree nodes _ (((inMemory w m).setPrev (m x) (m (x + w))).setNext
    (((inMemory w m).setPrev (m x) (m (x + w))).prev x) (((inMemory w m).setPrev (m x) (m (x + w))).next x))
  rw [hprev]
  exact h₂

/-! ### What is not a link -/

/-- A word that is no link of these nodes -/
def Beside (w : ℕ) (nodes : Set ℕ) (a : ℕ) : Prop := ∀ y ∈ nodes, a ≠ y ∧ a ≠ y + w

variable {a : ℕ}

theorem initAt_beside (ha : Beside w nodes a) (hh : h ∈ nodes) : initAt w h m a = m a := by
  rw [initAt, put_of_ne (ha h hh).1, put_of_ne (ha h hh).2]

theorem insertHeadAt_beside (ha : Beside w nodes a) (hh : h ∈ nodes) (hx : x ∈ nodes) (hn : m h ∈ nodes) :
    insertHeadAt w h x m a = m a := by
  have hnext : put x (m h) m x = m h := put_self
  simp only [insertHeadAt, hnext]
  rw [put_of_ne (ha h hh).1, put_of_ne (ha x hx).2, put_of_ne (ha _ hn).2, put_of_ne (ha x hx).1]

theorem insertTailAt_of_ne (hh : a ≠ h + w) (hx : a ≠ x) (hx' : a ≠ x + w) (hlast : a ≠ m (h + w)) :
    insertTailAt w h x m a = m a := by
  have hprev : put (x + w) (m (h + w)) m (x + w) = m (h + w) := put_self
  simp only [insertTailAt, hprev]
  rw [put_of_ne hh, put_of_ne hx, put_of_ne hlast, put_of_ne hx']

theorem insertTailAt_beside (ha : Beside w nodes a) (hh : h ∈ nodes) (hx : x ∈ nodes) (hp : m (h + w) ∈ nodes) :
    insertTailAt w h x m a = m a := insertTailAt_of_ne (ha h hh).2 (ha x hx).1 (ha x hx).2 (ha _ hp).1

theorem removeAt_beside (ha : Beside w nodes a) (hn : m x ∈ nodes) (hp : m (x + w) ∈ nodes) :
    removeAt w x m a = m a := by
  have hin : put (m x + w) (m (x + w)) m (x + w) ∈ nodes := by
    rcases eq_or_ne (x + w) (m x + w) with heq | hne
    · rw [← heq, put_self]
      exact hp
    · rw [put_of_ne hne]
      exact hp
  rw [removeAt, put_of_ne (ha _ hin).1, put_of_ne (ha _ hn).2]

/-- A store that is no link of the insertion may come before it. -/
theorem insertTailAt_put {v : ℕ} (hh : a ≠ h + w) (hx : a ≠ x) (hx' : a ≠ x + w) (hlast : a ≠ m (h + w)) :
    insertTailAt w h x (put a v m) = put a v (insertTailAt w h x m) := by
  have hself : ∀ m' : ℕ → ℕ, put (x + w) (m (h + w)) m' (x + w) = m (h + w) := fun m' => put_self
  simp only [insertTailAt, put_of_ne hh.symm, hself]
  simp only [put]
  rw [Function.update_comm hx', Function.update_comm hlast, Function.update_comm hx, Function.update_comm hh]

/-! ### Several rings in a memory -/

namespace Family

variable {ι : Type*} {head : ι → ℕ} {list : ι → List ℕ} {L : Links ℕ} {l₁ l₂ : List ℕ} {q : ι}

theorem head_mem (head : ι → ℕ) (list : ι → List ℕ) (q : ι) : head q ∈ Family.nodes head list := ⟨q, List.mem_cons_self⟩

theorem next_head_mem (hfam : Family (inMemory w m) head list) (q : ι) : m (head q) ∈ Family.nodes head list := by
  have hmem := List.mem_of_head? (hfam.holds q).head_eq
  rw [List.mem_append, List.mem_singleton, or_comm] at hmem
  exact ⟨q, List.mem_cons.mpr hmem⟩

theorem prev_head_mem (hfam : Family (inMemory w m) head list) (q : ι) :
    m (head q + w) ∈ Family.nodes head list := ⟨q, (hfam.holds q).last_mem⟩

theorem node_mem (hq : list q = l₁ ++ x :: l₂) : x ∈ Family.nodes head list := ⟨q, by simp [hq]⟩

theorem next_mem (hfam : Family (inMemory w m) head list) (hq : list q = l₁ ++ x :: l₂) :
    m x ∈ Family.nodes head list := by
  have hring := hfam.holds q
  rw [hq] at hring
  have hmem := hring.next_mem
  refine ⟨q, ?_⟩
  rw [hq]
  simp only [List.mem_cons, List.mem_append] at hmem ⊢
  exact hmem.imp_right fun h => Or.inr (Or.inr h)

theorem prev_mem (hfam : Family (inMemory w m) head list) (hq : list q = l₁ ++ x :: l₂) :
    m (x + w) ∈ Family.nodes head list := by
  have hring := hfam.holds q
  rw [hq] at hring
  have hmem := hring.prev_mem
  refine ⟨q, ?_⟩
  rw [hq]
  simp only [List.mem_cons, List.mem_append] at hmem ⊢
  exact hmem.imp_right Or.inl

theorem agree (hfam : Family L head list) (hsub : Family.nodes head list ⊆ nodes)
    (hagree : Agree nodes (inMemory w m) L) : Family (inMemory w m) head list :=
  hfam.congr (fun y hy => (hagree y (hsub hy)).1) fun y hy => (hagree y (hsub hy)).2

variable [DecidableEq ι]

theorem nodes_update {l : List ℕ} (hlist : Family.nodes head list ⊆ nodes) (hl : ∀ y ∈ l, y ∈ nodes) :
    Family.nodes head (Function.update list q l) ⊆ nodes := by
  rintro y ⟨q', hy⟩
  rcases eq_or_ne q' q with rfl | hne
  · rw [Function.update_self, List.mem_cons] at hy
    rcases hy with rfl | hy
    · exact hlist (head_mem head list q')
    · exact hl y hy
  · rw [Function.update_of_ne hne] at hy
    exact hlist ⟨q', hy⟩

theorem initAt (hfam : Family (inMemory w m) head list) (hapart : Apart w (Family.nodes head list)) (q : ι) :
    Family (inMemory w (Ring.initAt w (head q) m)) head (Function.update list q []) :=
  (hfam.init q).agree (nodes_update le_rfl fun _ hy => absurd hy List.not_mem_nil)
    (agree_initAt hapart (head_mem head list q))

theorem insertHeadAt (hfam : Family (inMemory w m) head list) (hapart : Apart w (insert x (Family.nodes head list)))
    (hx : x ∉ Family.nodes head list) (q : ι) :
    Family (inMemory w (Ring.insertHeadAt w (head q) x m)) head (Function.update list q (x :: list q)) := by
  refine (hfam.insertHead q hx).agree (nodes_update (Set.subset_insert x _) ?_)
    (agree_insertHeadAt hapart (Or.inr (head_mem head list q)) (Or.inl rfl) (Or.inr (hfam.next_head_mem q)))
  intro y hy
  rcases List.mem_cons.mp hy with rfl | hy
  · exact Or.inl rfl
  · exact Or.inr ⟨q, List.mem_cons_of_mem _ hy⟩

theorem insertTailAt (hfam : Family (inMemory w m) head list) (hapart : Apart w (insert x (Family.nodes head list)))
    (hx : x ∉ Family.nodes head list) (q : ι) :
    Family (inMemory w (Ring.insertTailAt w (head q) x m)) head (Function.update list q (list q ++ [x])) := by
  refine (hfam.insertTail q hx).agree (nodes_update (Set.subset_insert x _) ?_)
    (agree_insertTailAt hapart (Or.inr (head_mem head list q)) (Or.inl rfl) (Or.inr (hfam.prev_head_mem q)))
  intro y hy
  rcases List.mem_append.mp hy with hy | hy
  · exact Or.inr ⟨q, List.mem_cons_of_mem _ hy⟩
  · exact Or.inl (List.mem_singleton.mp hy)

theorem removeAt (hfam : Family (inMemory w m) head list) (hapart : Apart w (Family.nodes head list))
    (hq : list q = l₁ ++ x :: l₂) :
    Family (inMemory w (Ring.removeAt w x m)) head (Function.update list q (l₁ ++ l₂)) := by
  refine (hfam.remove hq).agree (nodes_update le_rfl ?_)
    (agree_removeAt hapart (node_mem hq) (hfam.next_mem hq) (hfam.prev_mem hq))
  intro y hy
  refine ⟨q, List.mem_cons_of_mem _ ?_⟩
  rw [hq]
  rw [List.mem_append] at hy ⊢
  exact hy.imp_right (List.mem_cons_of_mem x)

end Family

end Memory

end Tefs.Ring
