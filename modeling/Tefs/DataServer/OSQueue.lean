import Tefs.Lib.RingMemory
import Tefs.Lib.Runs

/-! # The queues of the data server

Source: `CommonUtilitiesLib/OSQueue.cpp` and `OSQueue.h`.

A queue is a ring through its elements, closed at the queue's own sentinel: a new element comes behind the sentinel, and
the oldest one is before it. The elements, the sentinels among them, are known by their addresses. The locks of
`OSQueue_Blocking` make each call one step.
-/

namespace Tefs.DataServer.OSQueues
open Tefs.Ring Runs
set_option autoImplicit false

/-! ## The functions -/

/-- The elements by their addresses, and the queues: where each sentinel is, and how long the queue is -/
structure Queues where
  links : Links ℕ
  fQueue : ℕ → Option ℕ
  fSentinel : ℕ → ℕ
  fLength : ℕ → ℕ

namespace Queues

def setQueue (elem : ℕ) (q : Option ℕ) (s : Queues) : Queues := { s with fQueue := Function.update s.fQueue elem q }

def setLength (this n : ℕ) (s : Queues) : Queues := { s with fLength := Function.update s.fLength this n }

def setLinks (L : Links ℕ) (s : Queues) : Queues := { s with links := L }

/-- `OSQueue()` at every sentinel, and elements in no queue -/
def fresh (fSentinel : ℕ → ℕ) : Queues := ⟨⟨id, id⟩, fun _ => none, fSentinel, fun _ => 0⟩

def enQueue (this elem : ℕ) (s : Queues) : Queues :=
  if s.fQueue elem = some this then s
  else
    let head := s.fSentinel this
    let L := s.links.setNext elem (s.links.next head)
    let L := L.setPrev elem head
    let L := L.setPrev (L.next head) elem
    let L := L.setNext head elem
    ((s.setQueue elem (some this)).setLinks L).setLength this (s.fLength this + 1)

def deQueue (this : ℕ) (s : Queues) : Option ℕ × Queues :=
  if 0 < s.fLength this then
    let head := s.fSentinel this
    let elem := s.links.prev head
    let L := s.links.setNext (s.links.prev elem) head
    let L := L.setPrev head (L.prev elem)
    (some elem, ((s.setQueue elem none).setLinks L).setLength this (s.fLength this - 1))
  else (none, s)

def remove (this elem : ℕ) (s : Queues) : Queues :=
  if s.fQueue elem = some this then
    let L := s.links.setPrev (s.links.next elem) (s.links.prev elem)
    let L := L.setNext (L.prev elem) (L.next elem)
    ((s.setQueue elem none).setLinks L).setLength this (s.fLength this - 1)
  else s

def getHead (this : ℕ) (s : Queues) : Option ℕ :=
  if 0 < s.fLength this then some (s.links.prev (s.fSentinel this)) else none

def getTail (this : ℕ) (s : Queues) : Option ℕ :=
  if 0 < s.fLength this then some (s.links.next (s.fSentinel this)) else none

/-- `OSQueueIter::Next` -/
def iterNext (this current : ℕ) (s : Queues) : Option ℕ :=
  if some current = s.getTail this then none else some (s.links.prev current)

/-- The elements an `OSQueueIter` comes to from `current` on, at most `fuel` of them -/
def iterate (this : ℕ) (s : Queues) : ℕ → Option ℕ → List ℕ
  | 0, _ => []
  | _, none => []
  | fuel + 1, some current => current :: iterate this s fuel (s.iterNext this current)

end Queues

/-! ## What the queues hold -/

/-- The rings are the lists, newest element first, and an element names the queue it is in. -/
structure Holds (s : Queues) (list : ℕ → List ℕ) : Prop where
  family : Family s.links s.fSentinel list
  queue : ∀ q e, e ∈ list q ↔ s.fQueue e = some q
  length : ∀ q, s.fLength q = (list q).length
  sentinel : ∀ q q', s.fQueue (s.fSentinel q) ≠ some q'

namespace Holds

variable {s : Queues} {list : ℕ → List ℕ} {q e : ℕ}

theorem notMem_of_free (h : Holds s list) (hfree : s.fQueue e = none) (hsent : ∀ q', s.fSentinel q' ≠ e) :
    e ∉ Family.nodes s.fSentinel list := by
  rintro ⟨q', hmem⟩
  rcases List.mem_cons.mp hmem with heq | hin
  · exact hsent q' heq.symm
  · rw [h.queue, hfree] at hin
    cases hin

theorem enQueue_links (h : Holds s list) (hfree : s.fQueue e = none) (hsent : ∀ q', s.fSentinel q' ≠ e) (q : ℕ) :
    (s.enQueue q e).links = s.links.insertHead (s.fSentinel q) e := by
  have hne : s.fSentinel q ≠ e := hsent q
  have hnext : s.links.next (s.fSentinel q) ≠ e := by
    intro heq
    have hmem := List.mem_of_head? (h.family.holds q).head_eq
    rw [heq, List.mem_append, List.mem_singleton] at hmem
    exact h.notMem_of_free hfree hsent ⟨q, List.mem_cons.mpr hmem.symm⟩
  rw [Queues.enQueue, if_neg (by simp [hfree])]
  simp [Queues.setLinks, Queues.setLength, Queues.setQueue, Links.insertHead, Links.setNext, Links.setPrev, hne,
    Function.update_comm hnext]

theorem enQueue (h : Holds s list) (hfree : s.fQueue e = none) (hsent : ∀ q', s.fSentinel q' ≠ e) (q : ℕ) :
    Holds (s.enQueue q e) (Function.update list q (e :: list q)) := by
  have hout := h.notMem_of_free hfree hsent
  have hlinks := h.enQueue_links hfree hsent q
  have hrest : (s.enQueue q e).fQueue = Function.update s.fQueue e (some q) ∧
      (s.enQueue q e).fSentinel = s.fSentinel ∧
      (s.enQueue q e).fLength = Function.update s.fLength q (s.fLength q + 1) := by
    rw [Queues.enQueue, if_neg (by simp [hfree])]
    exact ⟨rfl, rfl, rfl⟩
  obtain ⟨hqueue, hsentinel, hlength⟩ := hrest
  refine ⟨?_, ?_, ?_, ?_⟩
  · rw [hlinks, hsentinel]
    exact h.family.insertHead q hout
  · intro q' e'
    rw [hqueue]
    by_cases he : e' = e
    · subst he
      rw [Function.update_self]
      by_cases hq : q' = q
      · simp [hq]
      · rw [Function.update_of_ne hq]
        constructor
        · exact fun hin => absurd ⟨q', List.mem_cons_of_mem _ hin⟩ hout
        · exact fun heq => absurd (Option.some.inj heq).symm hq
    · rw [Function.update_of_ne he, ← h.queue]
      by_cases hq : q' = q
      · simp [hq, he]
      · rw [Function.update_of_ne hq]
  · intro q'
    rw [hlength]
    by_cases hq : q' = q
    · simp [hq, h.length]
    · rw [Function.update_of_ne hq, Function.update_of_ne hq, h.length]
  · intro q₁ q₂
    rw [hsentinel, hqueue, Function.update_of_ne (hsent q₁)]
    exact h.sentinel q₁ q₂

theorem length_pos_iff (h : Holds s list) : 0 < s.fLength q ↔ list q ≠ [] := by
  rw [h.length, List.length_pos_iff]

theorem prev_sentinel (h : Holds s list) {l : List ℕ} (hq : list q = l ++ [e]) : s.links.prev (s.fSentinel q) = e := by
  have hlast := (h.family.holds q).last_eq
  rw [hq, ← List.cons_append, List.getLast?_concat] at hlast
  exact (Option.some.inj hlast).symm

/-- One element out of one queue, whichever call took it out. -/
theorem taken (h : Holds s list) {l₁ l₂ : List ℕ} (hq : list q = l₁ ++ e :: l₂) :
    Holds (((s.setQueue e none).setLinks (s.links.remove e)).setLength q (s.fLength q - 1))
      (Function.update list q (l₁ ++ l₂)) := by
  have hnodup : (list q).Nodup := (h.family.holds q).nodup.of_cons
  have hout : e ∉ l₁ ++ l₂ := by
    rw [hq, List.nodup_middle, List.nodup_cons] at hnodup
    exact hnodup.1
  refine ⟨h.family.remove hq, ?_, ?_, ?_⟩
  · intro q' e'
    show _ ↔ Function.update s.fQueue e none e' = some q'
    by_cases he : e' = e
    · rw [he, Function.update_self]
      simp only [reduceCtorEq, iff_false]
      by_cases hq' : q' = q
      · rw [hq', Function.update_self]
        exact hout
      · rw [Function.update_of_ne hq', h.queue, (h.queue q e).mp (by simp [hq])]
        exact fun heq => hq' (Option.some.inj heq).symm
    · rw [Function.update_of_ne he, ← h.queue]
      by_cases hq' : q' = q
      · rw [hq', Function.update_self, hq]
        simp [he]
      · rw [Function.update_of_ne hq']
  · intro q'
    show Function.update s.fLength q (s.fLength q - 1) q' = _
    by_cases hq' : q' = q
    · rw [hq', Function.update_self, Function.update_self, h.length, hq]
      simp
    · rw [Function.update_of_ne hq', Function.update_of_ne hq', h.length]
  · intro q₁ q₂
    show Function.update s.fQueue e none (s.fSentinel q₁) ≠ some q₂
    by_cases he : s.fSentinel q₁ = e
    · simp [he]
    · rw [Function.update_of_ne he]
      exact h.sentinel q₁ q₂

/-- The oldest element goes, and what stays in the queue are the newer ones. -/
theorem deQueue (h : Holds s list) {l : List ℕ} (hq : list q = l ++ [e]) :
    (s.deQueue q).1 = some e ∧ Holds (s.deQueue q).2 (Function.update list q l) := by
  have hprev := h.prev_sentinel hq
  have hring := h.family.holds q
  rw [hq] at hring
  have hnext : s.links.next e = s.fSentinel q := by
    have := hring.next_eq
    simpa using this.symm
  have hne : e ≠ s.fSentinel q := by
    rintro rfl
    exact hring.notMem_rest (by simp)
  have hlinks : (s.links.setNext (s.links.prev e) (s.fSentinel q)).setPrev (s.fSentinel q)
      ((s.links.setNext (s.links.prev e) (s.fSentinel q)).prev e) = s.links.remove e := by
    simp [Links.remove, Links.setNext, Links.setPrev, hnext, Function.update_of_ne hne]
  have hpos : 0 < s.fLength q := h.length_pos_iff.mpr (by simp [hq])
  rw [Queues.deQueue, if_pos hpos]
  simp only [hprev, hlinks]
  refine ⟨trivial, ?_⟩
  have htaken := h.taken hq
  rwa [List.append_nil] at htaken

theorem deQueue_nil (h : Holds s list) (hq : list q = []) : s.deQueue q = (none, s) := by
  rw [Queues.deQueue, if_neg]
  rw [h.length_pos_iff]
  exact fun hne => hne hq

theorem enQueue_of_mem (h : Holds s list) (he : e ∈ list q) : s.enQueue q e = s := by
  rw [Queues.enQueue, if_pos ((h.queue q e).mp he)]

theorem remove (h : Holds s list) (q e : ℕ) : Holds (s.remove q e) (Function.update list q ((list q).erase e)) := by
  by_cases he : e ∈ list q
  · have hnodup : (list q).Nodup := (h.family.holds q).nodup.of_cons
    obtain ⟨l₁, l₂, hout, hq⟩ := List.exists_erase_eq he
    rw [Queues.remove, if_pos ((h.queue q e).mp he), hq.2]
    exact h.taken hq.1
  · rw [Queues.remove, if_neg fun hin => he ((h.queue q e).mpr hin), List.erase_of_not_mem he, Function.update_eq_self]
    exact h

/-! ### The iterator -/

theorem getTail_eq_iff (h : Holds s list) {l₁ l₂ : List ℕ} (hq : list q = l₁ ++ e :: l₂) :
    some e = s.getTail q ↔ l₁ = [] := by
  have hring := h.family.holds q
  have hhead := hring.head_eq
  rw [hq] at hring hhead
  rw [Queues.getTail, if_pos (h.length_pos_iff.mpr (by simp [hq])), Option.some.injEq]
  cases l₁ with
  | nil =>
    rw [List.nil_append, List.cons_append, List.head?_cons] at hhead
    simp [Option.some.inj hhead]
  | cons a l₁ =>
    rw [List.cons_append, List.cons_append, List.head?_cons] at hhead
    rw [← Option.some.inj hhead]
    have hne := hring.notMem_rest
    simp only [List.cons_append, List.mem_cons, List.mem_append, not_or] at hne
    simpa using hne.2.1

theorem iterate_from (h : Holds s list) {l₁ l₂ : List ℕ} (hq : list q = l₁ ++ e :: l₂) {fuel : ℕ}
    (hfuel : l₁.length < fuel) : s.iterate q fuel (some e) = e :: l₁.reverse := by
  induction l₁ using List.reverseRecOn generalizing e l₂ fuel with
  | nil =>
    obtain ⟨fuel, rfl⟩ : ∃ n, fuel = n + 1 := ⟨fuel - 1, by simp only [List.length_nil] at hfuel; omega⟩
    rw [Queues.iterate, Queues.iterNext, if_pos ((h.getTail_eq_iff hq).mpr rfl)]
    cases fuel <;> rfl
  | append_singleton l₁ a ih =>
    obtain ⟨fuel, rfl⟩ : ∃ n, fuel = n + 1 := ⟨fuel - 1, by omega⟩
    have hring := h.family.holds q
    rw [hq] at hring
    have hprev : s.links.prev e = a := by
      have := hring.prev_eq
      rw [← List.cons_append, List.getLast?_concat] at this
      exact (Option.some.inj this).symm
    rw [Queues.iterate, Queues.iterNext, if_neg (fun htail => by simpa using (h.getTail_eq_iff hq).mp htail), hprev]
    rw [ih (show list q = l₁ ++ a :: e :: l₂ by simpa using hq) (by simp only [List.length_append, List.length_singleton] at hfuel; omega)]
    simp

/-- The iterator comes to every element once, the oldest first. -/
theorem iterate (h : Holds s list) (q : ℕ) : s.iterate q (s.fLength q) (s.getHead q) = (list q).reverse := by
  rcases List.eq_nil_or_concat' (list q) with hnil | ⟨l, e, hq⟩
  · rw [h.length, hnil]
    rfl
  · have hpos : 0 < s.fLength q := h.length_pos_iff.mpr (by simp [hq])
    rw [Queues.getHead, if_pos hpos, h.prev_sentinel hq, h.iterate_from hq, hq]
    · simp
    · rw [h.length, hq]
      simp

end Holds

/-! ## Whole runs -/

inductive Op
  | enQueue (this elem : ℕ)
  | deQueue (this : ℕ)
  | remove (this elem : ℕ)
  deriving DecidableEq, Repr

def apply : Op → Queues → Option ℕ × Queues
  | .enQueue this elem, s => (none, s.enQueue this elem)
  | .deQueue this, s => s.deQueue this
  | .remove this elem, s => (none, s.remove this elem)

/-- What `EnQueue` asserts of an element: it is in this queue or in none, and it is no sentinel. -/
def Allowed (s : Queues) : Op → Prop
  | .enQueue this elem => (s.fQueue elem = some this ∨ s.fQueue elem = none) ∧ ∀ q, s.fSentinel q ≠ elem
  | .deQueue _ => True
  | .remove _ _ => True

/-- What the queues are for: lists that grow behind and are taken from in front -/
def fifoApply : Op → (ℕ → List ℕ) → Option ℕ × (ℕ → List ℕ)
  | .enQueue this elem, f => (none, if elem ∈ f this then f else Function.update f this (f this ++ [elem]))
  | .deQueue this, f => ((f this).head?, Function.update f this (f this).tail)
  | .remove this elem, f => (none, Function.update f this ((f this).erase elem))

/-- The queues hold the lists, the oldest element first. -/
def HoldsFifo (s : Queues) (f : ℕ → List ℕ) : Prop := Holds s fun q => (f q).reverse

theorem update_reverse (f : ℕ → List ℕ) (q : ℕ) (l : List ℕ) :
    (fun q' => (Function.update f q l q').reverse) = Function.update (fun q' => (f q').reverse) q l.reverse := by
  funext q'
  by_cases hq : q' = q
  · rw [hq, Function.update_self, Function.update_self]
  · rw [Function.update_of_ne hq, Function.update_of_ne hq]

theorem fresh_holds {fSentinel : ℕ → ℕ} (hinj : Function.Injective fSentinel) :
    HoldsFifo (.fresh fSentinel) fun _ => [] := by
  refine ⟨⟨fun q => ⟨by simp, ?_⟩, fun q₁ q₂ hne a ha ha' => ?_⟩, by simp [Queues.fresh], fun _ => rfl,
    fun q q' => by simp [Queues.fresh]⟩
  · simp [Queues.fresh, Links.Linked]
  · simp only [List.reverse_nil, List.mem_singleton, Queues.fresh] at ha ha'
    exact hne (hinj (ha.symm.trans ha'))

/-- One call of a queue answers as the lists do, and leaves what they leave. -/
theorem HoldsFifo.apply {s : Queues} {f : ℕ → List ℕ} (h : HoldsFifo s f) {op : Op} (hop : Allowed s op) :
    (apply op s).1 = (fifoApply op f).1 ∧ HoldsFifo (apply op s).2 (fifoApply op f).2 := by
  cases op with
  | enQueue q e =>
    refine ⟨rfl, ?_⟩
    have hmem : e ∈ f q ↔ s.fQueue e = some q := by
      rw [← h.queue, List.mem_reverse]
    simp only [OSQueues.apply, fifoApply]
    split
    · next hin => rwa [h.enQueue_of_mem (List.mem_reverse.mpr hin)]
    · next hin =>
      have hfree := hop.1.resolve_left fun hq => hin (hmem.mpr hq)
      rw [HoldsFifo, update_reverse, List.reverse_append, List.reverse_singleton, List.singleton_append]
      exact Holds.enQueue h hfree hop.2 q
  | deQueue q =>
    simp only [OSQueues.apply, fifoApply]
    cases hf : f q with
    | nil =>
      have hnil := Holds.deQueue_nil (q := q) h (by simp [hf])
      rw [hnil]
      refine ⟨rfl, ?_⟩
      rw [List.tail_nil, ← hf, Function.update_eq_self]
      exact h
    | cons e l =>
      obtain ⟨hres, hholds⟩ := Holds.deQueue (q := q) (e := e) (l := l.reverse) h (by simp [hf])
      refine ⟨hres, ?_⟩
      rwa [HoldsFifo, update_reverse, List.tail_cons]
  | remove q e =>
    refine ⟨rfl, ?_⟩
    have hnodup : (f q).Nodup := List.nodup_reverse.mp (h.family.holds q).nodup.of_cons
    simp only [OSQueues.apply, fifoApply]
    have herase : ((f q).erase e).reverse = (f q).reverse.erase e := by
      rw [hnodup.erase_eq_filter, (List.nodup_reverse.mpr hnodup).erase_eq_filter, List.filter_reverse]
    rw [HoldsFifo, update_reverse, herase]
    exact Holds.remove h q e

/-- A call with its answer -/
def Call (s : Queues) (call : Op × Option ℕ) (s' : Queues) : Prop := apply call.1 s = (call.2, s')

theorem HoldsFifo.run {s t : Queues} {f : ℕ → List ℕ} (hs : HoldsFifo s f) {calls : List (Op × Option ℕ)}
    (h : Reaches Call (fun s call => Allowed s call.1) s calls t) :
    ∃ f', Reaches (fun f call f' => fifoApply call.1 f = (call.2, f')) (fun _ _ => True) f calls f' ∧
      HoldsFifo t f' := by
  induction h generalizing f with
  | nil s => exact ⟨f, .nil f, hs⟩
  | @cons s s' t call calls allowed taken _ ih =>
    obtain ⟨hanswer, hs'⟩ := hs.apply allowed
    rw [taken] at hanswer hs'
    obtain ⟨f', hrest, hf'⟩ := ih hs'
    exact ⟨f', .cons trivial (Prod.ext hanswer.symm rfl) hrest, hf'⟩

/-- From fresh queues on, every run of calls answers as the lists do: what comes out of a queue is what was put in first
of all that is still in it, and an iterator comes to all of that, in this order. -/
theorem queues_refine_lists {fSentinel : ℕ → ℕ} (hinj : Function.Injective fSentinel) {calls : List (Op × Option ℕ)}
    {t : Queues} (h : Reaches Call (fun s call => Allowed s call.1) (.fresh fSentinel) calls t) :
    ∃ f, Reaches (fun f call f' => fifoApply call.1 f = (call.2, f')) (fun _ _ => True) (fun _ => []) calls f ∧
      HoldsFifo t f ∧ ∀ q, t.iterate q (t.fLength q) (t.getHead q) = f q := by
  obtain ⟨f, hrun, hf⟩ := (fresh_holds hinj).run h
  exact ⟨f, hrun, hf, fun q => (hf.iterate q).trans (List.reverse_reverse _)⟩

def exampleCalls : List (Op × Option ℕ) :=
  [(.enQueue 0 11, none), (.enQueue 1 13, none), (.enQueue 0 15, none), (.deQueue 0, some 11), (.remove 1 13, none)]

/-- The sentinels at the even addresses -/
def exampleFresh : Queues := .fresh (2 * ·)

theorem queues_refine_lists_example :
    ∃ f, Reaches (fun f call f' => fifoApply call.1 f = (call.2, f')) (fun _ _ => True) (fun _ => []) exampleCalls f ∧
      HoldsFifo (exampleCalls.foldl (fun s call => (apply call.1 s).2) exampleFresh) f ∧
      ∀ q, (exampleCalls.foldl (fun s call => (apply call.1 s).2) exampleFresh).iterate q
        ((exampleCalls.foldl (fun s call => (apply call.1 s).2) exampleFresh).fLength q)
        ((exampleCalls.foldl (fun s call => (apply call.1 s).2) exampleFresh).getHead q) = f q := by
  have heven : ∀ (s : Queues) (e : ℕ), s.fSentinel = (2 * ·) → e % 2 = 1 → ∀ q, s.fSentinel q ≠ e := by
    intro s e hs he q heq
    have hq : s.fSentinel q = 2 * q := congrFun hs q
    omega
  exact queues_refine_lists (fun a b h => Nat.eq_of_mul_eq_mul_left two_pos h)
    (.cons (show Allowed _ (.enQueue 0 11) from ⟨.inr rfl, heven _ _ rfl rfl⟩) (show Call _ (_, _) _ from rfl)
      (.cons (show Allowed _ (.enQueue 1 13) from ⟨.inr rfl, heven _ _ rfl rfl⟩) (show Call _ (_, _) _ from rfl)
        (.cons (show Allowed _ (.enQueue 0 15) from ⟨.inr rfl, heven _ _ rfl rfl⟩) (show Call _ (_, _) _ from rfl)
          (.cons (show Allowed _ (.deQueue 0) from trivial) (show Call _ (_, _) _ from rfl)
            (.cons (show Allowed _ (.remove 1 13) from trivial) (show Call _ (_, _) _ from rfl) (.nil _))))))

end Tefs.DataServer.OSQueues
