import Mathlib.Data.List.Chain
import Mathlib.Data.List.Nodup
import Mathlib.Logic.Function.Basic

/-! # Intrusive rings

A doubly linked list through the nodes themselves, closed at a sentinel: `Holds L h l` says that the links `L` run
from the sentinel `h` through `l`, in this order, back to `h`, and `prev` undoes every `next`. The operations are
sequences of single assignments, and each has one lemma that says which list it leaves.
-/

namespace Tefs.Ring
set_option autoImplicit false

structure Links (α : Type*) where
  prev : α → α
  next : α → α

namespace Links

variable {α : Type*} [DecidableEq α]

def setPrev (x y : α) (L : Links α) : Links α := { L with prev := Function.update L.prev x y }

def setNext (x y : α) (L : Links α) : Links α := { L with next := Function.update L.next x y }

def init (h : α) (L : Links α) : Links α := (L.setPrev h h).setNext h h

def insertHead (h x : α) (L : Links α) : Links α :=
  let L := L.setNext x (L.next h)
  let L := L.setPrev (L.next x) x
  let L := L.setPrev x h
  L.setNext h x

def insertTail (h x : α) (L : Links α) : Links α :=
  let L := L.setPrev x (L.prev h)
  let L := L.setNext (L.prev x) x
  let L := L.setNext x h
  L.setPrev h x

def remove (x : α) (L : Links α) : Links α :=
  let L := L.setPrev (L.next x) (L.prev x)
  L.setNext (L.prev x) (L.next x)

/-- The nodes from `q` up to the sentinel, at most `fuel` of them. -/
def walk (L : Links α) (h : α) : ℕ → α → List α
  | 0, _ => []
  | fuel + 1, q => if q = h then [] else q :: L.walk h fuel (L.next q)

def Linked (L : Links α) (a b : α) : Prop := L.next a = b ∧ L.prev b = a

instance (L : Links α) (a b : α) : Decidable (L.Linked a b) := inferInstanceAs (Decidable (_ ∧ _))

end Links

open Links

structure Holds {α : Type*} (L : Links α) (h : α) (l : List α) : Prop where
  nodup : (h :: l).Nodup
  chain : (h :: (l ++ [h])).IsChain L.Linked

variable {α : Type*} {L L' : Links α} {h x : α} {l l₁ l₂ : List α}

theorem Holds.congr (hring : Holds L h l) (hnext : ∀ a ∈ h :: l, L'.next a = L.next a)
    (hprev : ∀ a ∈ h :: l, L'.prev a = L.prev a) : Holds L' h l := by
  refine ⟨hring.nodup, hring.chain.imp_of_mem_imp fun a b ha hb hlink => ?_⟩
  have hin : ∀ {c}, c ∈ h :: (l ++ [h]) → c ∈ h :: l := by
    intro c hc
    simpa [or_comm, or_assoc] using hc
  exact ⟨(hnext a (hin ha)).trans hlink.1, (hprev b (hin hb)).trans hlink.2⟩

/-- A chain only uses `next` before its last node and `prev` after its first. -/
theorem chain_congr {c : List α} (hc : c.IsChain L.Linked) (hnext : ∀ a ∈ c.dropLast, L'.next a = L.next a)
    (hprev : ∀ b ∈ c.tail, L'.prev b = L.prev b) : c.IsChain L'.Linked := by
  induction c with
  | nil => exact .nil
  | cons a c ih =>
    cases c with
    | nil => exact .singleton a
    | cons b c =>
      rw [List.isChain_cons_cons] at hc ⊢
      refine ⟨⟨(hnext a (by simp)).trans hc.1.1, (hprev b (by simp)).trans hc.1.2⟩, ih hc.2 ?_ ?_⟩
      · exact fun d hd => hnext d (by simp [hd])
      · exact fun d hd => hprev d (List.mem_cons_of_mem b hd)

/-- The node before a place of the ring and the node behind it: the sentinel stands on both sides. -/
structure Seam (h : α) (l₁ l₂ c t : List α) (p n : α) : Prop where
  left : h :: l₁ = c ++ [p]
  right : l₂ ++ [h] = n :: t
  nodup : (h :: (l₁ ++ l₂)).Nodup

theorem exists_seam (hnodup : (h :: (l₁ ++ l₂)).Nodup) : ∃ c t p n, Seam h l₁ l₂ c t p n := by
  obtain ⟨c, p, hleft⟩ := (List.eq_nil_or_concat' (h :: l₁)).resolve_left (List.cons_ne_nil h l₁)
  obtain ⟨n, t, hright⟩ := List.exists_cons_of_ne_nil (List.append_ne_nil_of_right_ne_nil l₂ (List.cons_ne_nil h []))
  exact ⟨c, t, p, n, hleft, hright, hnodup⟩

namespace Seam

variable {c t : List α} {p n : α}

theorem tail_left (s : Seam h l₁ l₂ c t p n) : (c ++ [p]).tail = l₁ := by
  rw [← s.left]
  rfl

theorem dropLast_right (s : Seam h l₁ l₂ c t p n) : (n :: t).dropLast = l₂ := by
  rw [← s.right]
  simp

theorem p_notMem_c (s : Seam h l₁ l₂ c t p n) : p ∉ c := by
  have hnodup : (h :: l₁).Nodup := s.nodup.sublist (by simp)
  rw [s.left, List.nodup_append] at hnodup
  exact fun hp => hnodup.2.2 p hp p (by simp) rfl

theorem n_notMem_t (s : Seam h l₁ l₂ c t p n) : n ∉ t := by
  have hnodup : (l₂ ++ [h]).Nodup := (List.perm_append_singleton h l₂).nodup_iff.mpr (s.nodup.sublist (by simp))
  rw [s.right, List.nodup_cons] at hnodup
  exact hnodup.1

theorem p_mem (s : Seam h l₁ l₂ c t p n) : p ∈ h :: l₁ := by
  rw [s.left]
  simp

theorem n_mem (s : Seam h l₁ l₂ c t p n) : n ∈ h :: l₂ := by
  have hn : n ∈ l₂ ++ [h] := by
    rw [s.right]
    simp
  simpa [or_comm] using hn

theorem p_notMem_l₂ (s : Seam h l₁ l₂ c t p n) : p ∉ l₂ := by
  have hnodup := s.nodup
  rw [← List.cons_append, List.nodup_append] at hnodup
  exact fun hp => hnodup.2.2 p s.p_mem p hp rfl

theorem n_notMem_l₁ (s : Seam h l₁ l₂ c t p n) : n ∉ l₁ := by
  have hnodup := s.nodup
  rw [List.nodup_cons, List.nodup_append] at hnodup
  intro hn
  cases List.mem_cons.mp s.n_mem with
  | inl heq => exact hnodup.1 (List.mem_append_left l₂ (heq ▸ hn))
  | inr hn₂ => exact hnodup.2.2.2 n hn n hn₂ rfl

theorem whole (s : Seam h l₁ l₂ c t p n) (m : List α) : h :: (l₁ ++ m ++ l₂ ++ [h]) = c ++ p :: (m ++ n :: t) := by
  rw [← s.right, List.append_assoc, List.append_assoc, ← List.cons_append, s.left]
  simp

/-- What a change of the links at the seam leaves of the two sides. -/
theorem sides (s : Seam h l₁ l₂ c t p n) (L' : Links α) (hleft : (c ++ [p]).IsChain L.Linked) (hright : (n :: t).IsChain L.Linked)
    (hnext : ∀ a, a ≠ p → a ∈ h :: (l₁ ++ l₂) → L'.next a = L.next a)
    (hprev : ∀ a, a ≠ n → a ∈ h :: (l₁ ++ l₂) → L'.prev a = L.prev a) :
    (c ++ [p]).IsChain L'.Linked ∧ (n :: t).IsChain L'.Linked := by
  have hc : ∀ a ∈ c, a ∈ h :: l₁ := fun a ha => s.left ▸ List.mem_append_left [p] ha
  have ht : ∀ a ∈ t, a ∈ h :: l₂ := fun a ha => by
    have : a ∈ l₂ ++ [h] := s.right ▸ List.mem_cons_of_mem n ha
    simpa [or_comm] using this
  refine ⟨chain_congr hleft ?_ ?_, chain_congr hright ?_ ?_⟩
  · rw [List.dropLast_concat]
    exact fun a ha => hnext a (ne_of_mem_of_not_mem ha s.p_notMem_c) (by have := hc a ha; simp at this ⊢; tauto)
  · rw [s.tail_left]
    exact fun a ha => hprev a (ne_of_mem_of_not_mem ha s.n_notMem_l₁) (by simp [ha])
  · rw [s.dropLast_right]
    exact fun a ha => hnext a (ne_of_mem_of_not_mem ha s.p_notMem_l₂) (by simp [ha])
  · exact fun a ha => hprev a (ne_of_mem_of_not_mem ha s.n_notMem_t) (by have := ht a ha; simp at this ⊢; tauto)

end Seam

/-- A ring cut open at one of its nodes. -/
theorem Holds.cut (hring : Holds L h (l₁ ++ x :: l₂)) : ∃ c t p n, Seam h l₁ l₂ c t p n ∧
    (c ++ [p]).IsChain L.Linked ∧ L.Linked p x ∧ L.Linked x n ∧ (n :: t).IsChain L.Linked := by
  obtain ⟨c, t, p, n, s⟩ := exists_seam (hring.nodup.sublist (((List.sublist_cons_self x l₂).append_left l₁).cons_cons h))
  have hchain := hring.chain
  rw [show l₁ ++ x :: l₂ = l₁ ++ [x] ++ l₂ by simp, s.whole [x], List.isChain_split, List.singleton_append,
    List.isChain_cons_cons, List.isChain_cons_cons] at hchain
  exact ⟨c, t, p, n, s, hchain⟩

/-- A ring cut open between two of its nodes. -/
theorem Holds.between (hring : Holds L h (l₁ ++ l₂)) : ∃ c t p n, Seam h l₁ l₂ c t p n ∧
    (c ++ [p]).IsChain L.Linked ∧ L.Linked p n ∧ (n :: t).IsChain L.Linked := by
  obtain ⟨c, t, p, n, s⟩ := exists_seam hring.nodup
  have hchain := hring.chain
  have hwhole := s.whole []
  rw [List.append_nil, List.nil_append] at hwhole
  rw [hwhole, List.isChain_split, List.isChain_cons_cons] at hchain
  exact ⟨c, t, p, n, s, hchain⟩

theorem Holds.next_ne (hring : Holds L h (l₁ ++ x :: l₂)) : L.next x ≠ x := by
  obtain ⟨c, t, p, n, s, -, -, hxn, -⟩ := hring.cut
  have hnodup := hring.nodup
  rw [hxn.1]
  intro hnx
  have hn := s.n_mem
  rw [hnx] at hn
  simp only [List.nodup_cons, List.nodup_append, List.mem_append, List.mem_cons] at hnodup hn
  tauto

theorem Holds.notMem_rest (hring : Holds L h (l₁ ++ x :: l₂)) : x ∉ h :: (l₁ ++ l₂) := by
  have hperm : (h :: (l₁ ++ x :: l₂)).Perm (x :: h :: (l₁ ++ l₂)) :=
    (List.perm_middle.cons h).trans (List.Perm.swap x h _)
  exact (List.nodup_cons.mp (hperm.nodup_iff.mp hring.nodup)).1

theorem Holds.next_mem (hring : Holds L h (l₁ ++ x :: l₂)) : L.next x ∈ h :: l₂ := by
  obtain ⟨c, t, p, n, s, -, -, hxn, -⟩ := hring.cut
  rw [hxn.1]
  exact s.n_mem

theorem Holds.prev_mem (hring : Holds L h (l₁ ++ x :: l₂)) : L.prev x ∈ h :: l₁ := by
  obtain ⟨c, t, p, n, s, -, hpx, -, -⟩ := hring.cut
  rw [hpx.2]
  exact s.p_mem

theorem Holds.last_mem (hring : Holds L h l) : L.prev h ∈ h :: l := by
  rw [← List.append_nil l] at hring
  obtain ⟨c, t, p, n, s, -, hpn, -⟩ := hring.between
  obtain ⟨rfl, -⟩ : n = h ∧ t = [] := by simpa using s.right.symm
  rw [hpn.2]
  exact s.p_mem

theorem Holds.next_eq (hring : Holds L h (l₁ ++ x :: l₂)) : (l₂ ++ [h]).head? = some (L.next x) := by
  obtain ⟨c, t, p, n, s, -, -, hxn, -⟩ := hring.cut
  rw [s.right, List.head?_cons, hxn.1]

theorem Holds.prev_eq (hring : Holds L h (l₁ ++ x :: l₂)) : (h :: l₁).getLast? = some (L.prev x) := by
  obtain ⟨c, t, p, n, s, -, hpx, -, -⟩ := hring.cut
  rw [s.left, List.getLast?_concat, hpx.2]

theorem Holds.last_eq (hring : Holds L h l) : (h :: l).getLast? = some (L.prev h) := by
  rw [← List.append_nil l] at hring
  obtain ⟨c, t, p, n, s, -, hpn, -⟩ := hring.between
  obtain ⟨rfl, -⟩ : n = h ∧ t = [] := by simpa using s.right.symm
  rw [s.left, List.getLast?_concat, hpn.2]

theorem Holds.head_eq (hring : Holds L h l) : (l ++ [h]).head? = some (L.next h) := by
  have hchain := hring.chain
  obtain ⟨n, t, hright⟩ := List.exists_cons_of_ne_nil (List.append_ne_nil_of_right_ne_nil l (List.cons_ne_nil h []))
  rw [hright, List.isChain_cons_cons] at hchain
  rw [hright, List.head?_cons, hchain.1.1]

theorem Holds.prev_next (hring : Holds L h l) : L.prev (L.next h) = h := by
  have hchain := hring.chain
  obtain ⟨n, t, hright⟩ := List.exists_cons_of_ne_nil (List.append_ne_nil_of_right_ne_nil l (List.cons_ne_nil h []))
  rw [hright, List.isChain_cons_cons] at hchain
  rw [hchain.1.1, hchain.1.2]

section Operations

variable [DecidableEq α]

theorem Holds.init (L : Links α) (h : α) : Holds (L.init h) h [] := by
  refine ⟨List.nodup_singleton h, ?_⟩
  rw [List.nil_append, List.isChain_cons_cons]
  exact ⟨⟨by simp [Links.init, setNext], by simp [Links.init, setNext, setPrev]⟩, .singleton h⟩

theorem remove_next (x : α) (L : Links α) (hx : L.next x ≠ x) :
    (L.remove x).next = Function.update L.next (L.prev x) (L.next x) := by
  simp [remove, setPrev, setNext, Function.update_of_ne hx.symm]

theorem remove_next_self (x : α) (L : Links α) (hx : L.next x ≠ x) : (L.remove x).next x = L.next x := by
  rw [remove_next x L hx]
  by_cases hprev : x = L.prev x
  · rw [← hprev, Function.update_self]
  · rw [Function.update_of_ne hprev]

theorem remove_prev (x : α) (L : Links α) :
    (L.remove x).prev = Function.update L.prev (L.next x) (L.prev x) := rfl

theorem Holds.remove (hring : Holds L h (l₁ ++ x :: l₂)) : Holds (L.remove x) h (l₁ ++ l₂) := by
  obtain ⟨c, t, p, n, s, hleft, hpx, hxn, hright⟩ := hring.cut
  have hnext : (L.remove x).next = Function.update L.next p n := by
    rw [remove_next x L hring.next_ne, hpx.2, hxn.1]
  have hprev : (L.remove x).prev = Function.update L.prev n p := by
    rw [remove_prev, hpx.2, hxn.1]
  have hsides := s.sides (L.remove x) hleft hright (fun a ha _ => by rw [hnext, Function.update_of_ne ha])
    (fun a ha _ => by rw [hprev, Function.update_of_ne ha])
  have hwhole := s.whole []
  rw [List.append_nil, List.nil_append] at hwhole
  refine ⟨s.nodup, ?_⟩
  rw [hwhole, List.isChain_split, List.isChain_cons_cons]
  exact ⟨hsides.1, ⟨by rw [hnext, Function.update_self], by rw [hprev, Function.update_self]⟩, hsides.2⟩

theorem Holds.insert (hring : Holds L h (l₁ ++ l₂)) (hx : x ∉ h :: (l₁ ++ l₂)) {c t : List α} {p n : α}
    (s : Seam h l₁ l₂ c t p n) (hleft : (c ++ [p]).IsChain L.Linked) (hright : (n :: t).IsChain L.Linked)
    (hnext : L'.next = Function.update (Function.update L.next x n) p x)
    (hprev : L'.prev = Function.update (Function.update L.prev x p) n x) : Holds L' h (l₁ ++ x :: l₂) := by
  have hxp : x ≠ p := by
    rintro rfl
    exact hx (List.cons_subset_cons h (List.subset_append_left l₁ l₂) s.p_mem)
  have hxn : x ≠ n := by
    rintro rfl
    exact hx (List.cons_subset_cons h (List.subset_append_right l₁ l₂) s.n_mem)
  have hsides := s.sides L' hleft hright
    (fun a ha hin => by rw [hnext, Function.update_of_ne ha, Function.update_of_ne (ne_of_mem_of_not_mem hin hx)])
    (fun a ha hin => by rw [hprev, Function.update_of_ne ha, Function.update_of_ne (ne_of_mem_of_not_mem hin hx)])
  have hperm : (h :: (l₁ ++ x :: l₂)).Perm (x :: h :: (l₁ ++ l₂)) :=
    (List.perm_middle.cons h).trans (List.Perm.swap x h _)
  refine ⟨hperm.nodup_iff.mpr (List.nodup_cons.mpr ⟨hx, hring.nodup⟩), ?_⟩
  rw [show l₁ ++ x :: l₂ = l₁ ++ [x] ++ l₂ by simp, s.whole [x], List.isChain_split, List.singleton_append,
    List.isChain_cons_cons, List.isChain_cons_cons]
  refine ⟨hsides.1, ⟨?_, ?_⟩, ⟨?_, ?_⟩, hsides.2⟩
  · rw [hnext, Function.update_self]
  · rw [hprev, Function.update_of_ne hxn, Function.update_self]
  · rw [hnext, Function.update_of_ne hxp, Function.update_self]
  · rw [hprev, Function.update_self]

theorem Holds.insertTail (hring : Holds L h l) (hx : x ∉ h :: l) : Holds (L.insertTail h x) h (l ++ [x]) := by
  rw [← List.append_nil l] at hring hx
  obtain ⟨c, t, p, n, s, hleft, hpn, hright⟩ := hring.between
  obtain ⟨rfl, rfl⟩ : n = h ∧ t = [] := by simpa using s.right.symm
  have hxp : x ≠ p := by
    rintro rfl
    exact hx (by rw [List.append_nil]; exact s.p_mem)
  refine hring.insert hx s hleft hright ?_ ?_
  · rw [Function.update_comm hxp]
    simp [Links.insertTail, setPrev, setNext, hpn.2]
  · simp [Links.insertTail, setPrev, setNext, hpn.2]

/-- The node behind which the new one comes is the last of the front part, or the sentinel. -/
theorem Holds.insertAfter (hring : Holds L h (l₁ ++ l₂)) (hx : x ∉ h :: (l₁ ++ l₂)) {p : α}
    (hp : (h :: l₁).getLast? = some p) : Holds (L.insertHead p x) h (l₁ ++ x :: l₂) := by
  obtain ⟨c, t, p', n, s, hleft, hpn, hright⟩ := hring.between
  obtain rfl : p' = p := by
    rw [s.left, List.getLast?_concat] at hp
    exact Option.some.inj hp
  have hxn : x ≠ n := by
    rintro rfl
    exact hx (List.cons_subset_cons h (List.subset_append_right l₁ l₂) s.n_mem)
  refine hring.insert hx s hleft hright ?_ ?_
  · simp [Links.insertHead, setPrev, setNext, hpn.1]
  · rw [Function.update_comm hxn]
    simp [Links.insertHead, setPrev, setNext, hpn.1]

theorem Holds.insertHead (hring : Holds L h l) (hx : x ∉ h :: l) : Holds (L.insertHead h x) h (x :: l) :=
  Holds.insertAfter (show Holds L h ([] ++ l) from hring) hx rfl

/-! ## Another ring of the same links -/

section Frame

variable {h' : α} {l' : List α}

/-- Taking a node out of one ring leaves another one alone. -/
theorem Holds.remove_other (hother : Holds L h' l') (hring : Holds L h (l₁ ++ x :: l₂))
    (hdisj : List.Disjoint (h :: (l₁ ++ x :: l₂)) (h' :: l')) : Holds (L.remove x) h' l' := by
  have hprev : L.prev x ∈ h :: (l₁ ++ x :: l₂) :=
    List.cons_subset_cons h (List.subset_append_left l₁ _) hring.prev_mem
  have hnext : L.next x ∈ h :: (l₁ ++ x :: l₂) := by
    have hmem := hring.next_mem
    simp only [List.mem_cons, List.mem_append] at hmem ⊢
    tauto
  refine hother.congr (fun a ha => ?_) fun a ha => ?_
  · rw [remove_next x L hring.next_ne, Function.update_of_ne]
    rintro rfl
    exact hdisj hprev ha
  · rw [remove_prev, Function.update_of_ne]
    rintro rfl
    exact hdisj hnext ha

/-- Putting a node into one ring leaves another one alone. -/
theorem Holds.insertHead_other (hother : Holds L h' l') (hring : Holds L h l) (hx : x ∉ h' :: l')
    (hdisj : List.Disjoint (h :: l) (h' :: l')) : Holds (L.insertHead h x) h' l' := by
  have hhead : L.next h ∈ h :: l := by
    have hmem : L.next h ∈ l ++ [h] := List.mem_of_head? hring.head_eq
    simpa [or_comm] using hmem
  refine hother.congr (fun a ha => ?_) fun a ha => ?_
  · have hne : a ≠ h := by
      rintro rfl
      exact hdisj List.mem_cons_self ha
    have hne' : a ≠ x := by
      rintro rfl
      exact hx ha
    simp [Links.insertHead, setNext, setPrev, hne, hne']
  · have hne : a ≠ L.next h := by
      rintro rfl
      exact hdisj hhead ha
    have hne' : a ≠ x := by
      rintro rfl
      exact hx ha
    simp [Links.insertHead, setNext, setPrev, hne, hne']

theorem Holds.insertTail_other (hother : Holds L h' l') (hring : Holds L h l) (hx : x ∉ h' :: l')
    (hdisj : List.Disjoint (h :: l) (h' :: l')) : Holds (L.insertTail h x) h' l' := by
  refine hother.congr (fun a ha => ?_) fun a ha => ?_
  · have hne : a ≠ L.prev h := by
      rintro rfl
      exact hdisj hring.last_mem ha
    have hne' : a ≠ x := by
      rintro rfl
      exact hx ha
    simp [Links.insertTail, setNext, setPrev, hne, hne']
  · have hne : a ≠ h := by
      rintro rfl
      exact hdisj List.mem_cons_self ha
    have hne' : a ≠ x := by
      rintro rfl
      exact hx ha
    simp [Links.insertTail, setNext, setPrev, hne, hne']

theorem Holds.init_other (hother : Holds L h' l') (hh : h ∉ h' :: l') : Holds (L.init h) h' l' := by
  refine hother.congr (fun a ha => ?_) fun a ha => ?_ <;>
  · have hne : a ≠ h := by
      rintro rfl
      exact hh ha
    simp [Links.init, setNext, setPrev, hne]

/-- A node is moved from one ring to the head of another one. -/
theorem Holds.move (hring : Holds L h (l₁ ++ x :: l₂)) (hother : Holds L h' l')
    (hdisj : List.Disjoint (h :: (l₁ ++ x :: l₂)) (h' :: l')) :
    Holds ((L.remove x).insertHead h' x) h (l₁ ++ l₂) ∧ Holds ((L.remove x).insertHead h' x) h' (x :: l') := by
  have hx : x ∉ h' :: l' := fun hmem => hdisj (by simp) hmem
  have hrest : List.Disjoint (h' :: l') (h :: (l₁ ++ l₂)) := by
    intro a ha ha'
    refine hdisj ?_ ha
    simp only [List.mem_cons, List.mem_append] at ha' ⊢
    tauto
  have hother' := hother.remove_other hring hdisj
  exact ⟨hring.remove.insertHead_other hother' hring.notMem_rest hrest, hother'.insertHead hx⟩

end Frame

/-- From a place in the ring on, the walk meets what is left of it. -/
theorem Holds.walk_from (hring : Holds L h (l₁ ++ l₂)) {fuel : ℕ} (hfuel : l₂.length ≤ fuel) {q : α}
    (hq : (l₂ ++ [h]).head? = some q) : L.walk h fuel q = l₂ := by
  induction l₂ generalizing l₁ fuel q with
  | nil =>
    obtain rfl : h = q := by simpa using hq
    cases fuel <;> simp [walk]
  | cons x l₂ ih =>
    obtain rfl : x = q := by simpa using hq
    obtain ⟨fuel, rfl⟩ : ∃ k, fuel = k + 1 := ⟨fuel - 1, by simp at hfuel; omega⟩
    have hne : x ≠ h := by
      rintro rfl
      exact (List.nodup_cons.mp hring.nodup).1 (by simp)
    rw [walk, if_neg hne]
    congr 1
    exact ih (show Holds L h (l₁ ++ [x] ++ l₂) by simpa using hring) (by simpa using hfuel) hring.next_eq

theorem Holds.walk (hring : Holds L h l) {fuel : ℕ} (hfuel : l.length ≤ fuel) : L.walk h fuel (L.next h) = l :=
  Holds.walk_from (show Holds L h ([] ++ l) from hring) hfuel hring.head_eq

theorem Holds.unique (hring : Holds L h l) (hring' : Holds L h l₁) : l = l₁ :=
  (hring.walk (le_max_left l.length l₁.length)).symm.trans (hring'.walk (le_max_right l.length l₁.length))

end Operations

end Tefs.Ring
