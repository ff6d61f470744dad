import Mathlib.Data.List.Sort
import Tefs.DataServer.OSHeap

/-! # Idle timers and timeouts

Source: `CommonUtilitiesLib/IdleTask.cpp` and `TimeoutTask.cpp`.

One thread keeps the idle timers in a heap and signals the tasks whose time has come. `fHeapMutex` makes each of its
passes one step, and each `CancelTimeout`, but only the second half of `SetIdleTimer`: whether the timer is pending is
asked, and its value set, before the mutex is locked. The timeouts are a list that `TimeoutTaskThread::Run` goes
through, and its answer is when it wants to be run again.
-/

namespace Tefs.DataServer.Timeouts
open OSHeaps Runs
set_option autoImplicit false

/-! ## Idle timers -/

/-- `fIdleHeap` -/
def fIdleHeap : ℕ := 0

/-- The heap, the values of the elements, and which tasks are between the two halves of a `SetIdleTimer` -/
structure IdleThread where
  heaps : Heaps
  setting : ℕ → Bool

/-- `IdleTaskThread::SetIdleTimer` up to the mutex, at the time `now`. The value of an element that is in no heap is read
by nobody, so it may be set in the step that has asked. -/
def setIdleTimer (activeObj : ℕ) (now msec : ℤ) (s : IdleThread) : IdleThread :=
  if (s.heaps.elem activeObj).fCurrentHeap ≠ none then s
  else ⟨s.heaps.setValue activeObj (now + msec), Function.update s.setting activeObj true⟩

/-- `IdleTaskThread::SetIdleTimer` from the mutex on -/
def insertIdleElem (activeObj : ℕ) (s : IdleThread) : IdleThread :=
  ⟨s.heaps.insert fIdleHeap activeObj, Function.update s.setting activeObj false⟩

/-- `IdleTaskThread::CancelTimeout` -/
def cancelTimeout (idleObj : ℕ) (s : Heaps) : Heaps := (s.remove fIdleHeap idleObj).2

/-- The inner loop of `IdleTaskThread::Entry`, at most `fuel` turns: the tasks it signals, and what it leaves -/
def popDue (msec : ℤ) : ℕ → Heaps → List ℕ × Heaps
  | 0, s => ([], s)
  | fuel + 1, s =>
    match s.peekMin fIdleHeap with
    | none => ([], s)
    | some e =>
      if s.value e ≤ msec then
        let rest := popDue msec fuel (s.extractMin fIdleHeap).2
        ((s.extractMin fIdleHeap).1.toList ++ rest.1, rest.2)
      else ([], s)

/-- A pass of `IdleTaskThread::Entry`; the heap has no more turns in it. -/
def pass (msec : ℤ) (s : Heaps) : List ℕ × Heaps := popDue msec (s.currentHeapSize fIdleHeap) s

/-- What a pass gives: the due timers, the earliest first, and all of them. -/
structure Fired (msec : ℤ) (s : Heaps) (fired : List ℕ) (s' : Heaps) : Prop where
  sound : s'.Sound
  split : s.members fIdleHeap = fired + s'.members fIdleHeap
  sorted : fired.Pairwise fun e e' => s.value e ≤ s.value e'
  due : ∀ e ∈ fired, s.value e ≤ msec
  later : ∀ e ∈ s'.members fIdleHeap, msec < s.value e
  value : s'.value = s.value
  other : ∀ q, q ≠ fIdleHeap → s'.members q = s.members q

theorem card_members (s : Heaps) (q : ℕ) : Multiset.card (s.members q) = s.currentHeapSize q := by
  simp [Heaps.members, BinaryHeap.contents, Heaps.currentHeapSize]

theorem popDue_fired {s : Heaps} (hs : s.Sound) (msec : ℤ) {fuel : ℕ} (hfuel : s.currentHeapSize fIdleHeap ≤ fuel) :
    Fired msec s (popDue msec fuel s).1 (popDue msec fuel s).2 := by
  induction fuel generalizing s with
  | zero =>
    have hempty : s.members fIdleHeap = 0 := by
      rw [← Multiset.card_eq_zero, card_members]
      omega
    refine ⟨hs, by simp [popDue], List.Pairwise.nil, fun e he => absurd he List.not_mem_nil, fun e he => ?_, rfl,
      fun _ _ => rfl⟩
    rw [popDue, hempty] at he
    exact absurd he (Multiset.notMem_zero e)
  | succ fuel ih =>
    obtain ⟨hsound, hres, ⟨hempty, -⟩ | ⟨e, he, hleast⟩⟩ := hs.extractMin fIdleHeap
    · rw [popDue, hs.peekMin_eq_none_iff.mpr hempty]
      refine ⟨hs, by simp, List.Pairwise.nil, fun e he => absurd he List.not_mem_nil, fun e he => ?_, rfl,
        fun _ _ => rfl⟩
      rw [hempty] at he
      exact absurd he (Multiset.notMem_zero e)
    · rw [popDue, ← hres, he]
      dsimp only
      split
      · next hdue =>
        have hsize : (s.extractMin fIdleHeap).2.currentHeapSize fIdleHeap ≤ fuel := by
          rw [← card_members]
          have hcard := card_members s fIdleHeap
          rw [hleast.split, Multiset.card_cons] at hcard
          omega
        have hrest := ih hsound hsize
        set rest := popDue msec fuel (s.extractMin fIdleHeap).2
        have hle : ∀ e' ∈ rest.1, s.value e ≤ s.value e' := by
          intro e' he'
          apply hleast.le
          rw [hleast.split, hrest.split]
          exact Multiset.mem_cons_of_mem (Multiset.mem_add.mpr (.inl (Multiset.mem_coe.mpr he')))
        have hvalue := hleast.value
        refine ⟨hrest.sound, ?_, ?_, ?_, fun e' he' => hvalue ▸ hrest.later e' he', hrest.value.trans hvalue,
          fun q hq => (hrest.other q hq).trans (hleast.other q hq)⟩
        · rw [hleast.split, hrest.split]
          rw [Option.toList_some, List.singleton_append, ← Multiset.cons_coe, Multiset.cons_add]
        · rw [Option.toList_some, List.singleton_append, List.pairwise_cons]
          exact ⟨hle, hvalue ▸ hrest.sorted⟩
        · intro e' he'
          rw [Option.toList_some, List.singleton_append, List.mem_cons] at he'
          rcases he' with rfl | he'
          · exact hdue
          · exact hvalue ▸ hrest.due e' he'
      · next hlate =>
        refine ⟨hs, by simp, List.Pairwise.nil, fun e he => absurd he List.not_mem_nil, fun e' he' => ?_, rfl,
          fun _ _ => rfl⟩
        exact lt_of_lt_of_le (not_le.mp hlate) (hleast.le e' he')

/-! ### Whole runs -/

inductive Act
  | setIdleTimer (activeObj : ℕ) (now msec : ℤ)
  | insertIdleElem (activeObj : ℕ)
  | cancelTimeout (idleObj : ℕ)
  | pass (msec : ℤ)
  deriving DecidableEq, Repr

def apply : Act → IdleThread → List ℕ × IdleThread
  | .setIdleTimer e now msec, s => ([], setIdleTimer e now msec s)
  | .insertIdleElem e, s => ([], insertIdleElem e s)
  | .cancelTimeout e, s => ([], { s with heaps := cancelTimeout e s.heaps })
  | .pass msec, s => ((pass msec s.heaps).1, { s with heaps := (pass msec s.heaps).2 })

/-- The times at which tasks are to be signalled, and those of calls that are not done yet -/
structure Timers where
  due : ℕ → Option ℤ
  asked : ℕ → Option ℤ

/-- What an idle timer is for: a task has a time at which it is to be signalled, or none. A timer that is pending stays as
it is; a pass signals the tasks whose time has come, in the order of their times. -/
inductive Due : Timers → Act → List ℕ → Timers → Prop
  | ask (w : Timers) (e : ℕ) (now msec : ℤ) (free : w.due e = none) :
      Due w (.setIdleTimer e now msec) [] { w with asked := Function.update w.asked e (some (now + msec)) }
  | keep (w : Timers) (e : ℕ) (now msec v : ℤ) (pending : w.due e = some v) :
      Due w (.setIdleTimer e now msec) [] w
  | set (w : Timers) (e : ℕ) (v : ℤ) (asked : w.asked e = some v) :
      Due w (.insertIdleElem e) [] ⟨Function.update w.due e (some v), Function.update w.asked e none⟩
  | cancel (w : Timers) (e : ℕ) : Due w (.cancelTimeout e) [] { w with due := Function.update w.due e none }
  | pass (w : Timers) (msec : ℤ) (fired : List ℕ) (nodup : fired.Nodup)
      (all : ∀ e, e ∈ fired ↔ ∃ v, w.due e = some v ∧ v ≤ msec)
      (sorted : fired.Pairwise fun e e' => w.due e ≤ w.due e') :
      Due w (.pass msec) fired { w with due := fun e => if e ∈ fired then none else w.due e }

/-- The times of the timers in the heap -/
def dueOf (s : Heaps) (e : ℕ) : Option ℤ := (s.elem e).fCurrentHeap.map fun _ => s.value e

/-- The elements of idle tasks are in no other heap. -/
structure IdleSound (s : Heaps) : Prop extends s.Sound where
  only : ∀ e q, (s.elem e).fCurrentHeap = some q → q = fIdleHeap

theorem IdleSound.dueOf_eq_some_iff {s : Heaps} (hs : IdleSound s) {e : ℕ} {v : ℤ} :
    dueOf s e = some v ↔ e ∈ s.members fIdleHeap ∧ s.value e = v := by
  rw [dueOf, hs.current, Option.map_eq_some_iff]
  constructor
  · rintro ⟨q, hq, rfl⟩
    exact ⟨hs.only e q hq ▸ hq, rfl⟩
  · rintro ⟨hq, rfl⟩
    exact ⟨fIdleHeap, hq, rfl⟩

theorem IdleSound.dueOf_eq_none_iff {s : Heaps} (hs : IdleSound s) {e : ℕ} :
    dueOf s e = none ↔ e ∉ s.members fIdleHeap := by
  rw [Option.eq_none_iff_forall_ne_some]
  constructor
  · exact fun h hmem => h (s.value e) (hs.dueOf_eq_some_iff.mpr ⟨hmem, rfl⟩)
  · exact fun h v hv => h (hs.dueOf_eq_some_iff.mp hv).1

/-- The callers set the timer of a task in one call at a time, and it is in no heap while one is not done. -/
structure ThreadSound (s : IdleThread) : Prop where
  idle : IdleSound s.heaps
  free : ∀ e, s.setting e = true → e ∉ s.heaps.members fIdleHeap

def askedOf (s : IdleThread) (e : ℕ) : Option ℤ := if s.setting e then some (s.heaps.value e) else none

def timersOf (s : IdleThread) : Timers := ⟨dueOf s.heaps, askedOf s⟩

/-- A task's timer is set by one caller at a time, and a `CancelTimeout`, which only sifts down, leaves the heap in
order. -/
def Allowed (s : IdleThread) : Act → Prop
  | .setIdleTimer e _ _ => s.setting e = false
  | .insertIdleElem e => s.setting e = true
  | .cancelTimeout e => s.heaps.RemovalFits fIdleHeap e
  | .pass _ => True

instance (s : IdleThread) : ∀ a, Decidable (Allowed s a)
  | .setIdleTimer _ _ _ | .insertIdleElem _ => inferInstanceAs (Decidable (_ = _))
  | .cancelTimeout _ => inferInstanceAs (Decidable (Heaps.RemovalFits _ _ _))
  | .pass _ => .isTrue trivial

theorem IdleSound.of_members {s s' : Heaps} (hs : IdleSound s) (hs' : s'.Sound)
    (hother : ∀ q, q ≠ fIdleHeap → s'.members q = s.members q) : IdleSound s' := by
  refine ⟨hs', fun e q hq => ?_⟩
  by_contra hne
  rw [← hs'.current, hother q hne, hs.current] at hq
  exact hne (hs.only e q hq)

theorem dueOf_ext {s' : Heaps} (hs' : IdleSound s') {due : ℕ → Option ℤ}
    (h : ∀ e v, due e = some v ↔ e ∈ s'.members fIdleHeap ∧ s'.value e = v) : dueOf s' = due := by
  funext e
  apply Option.ext
  intro v
  rw [hs'.dueOf_eq_some_iff, h]

theorem IdleSound.notMem_iff {s : Heaps} (hs : IdleSound s) {e : ℕ} :
    e ∉ s.members fIdleHeap ↔ (s.elem e).fCurrentHeap = none := by
  rw [hs.current]
  constructor
  · intro hout
    by_contra hin
    obtain ⟨q, hq⟩ := Option.ne_none_iff_exists'.mp hin
    exact hout (hs.only e q hq ▸ hq)
  · intro hnone hin
    rw [hnone] at hin
    cases hin

/-- The value of an element in no heap is set. -/
theorem IdleSound.setValue {s : Heaps} (hs : IdleSound s) {e : ℕ} (hfree : (s.elem e).fCurrentHeap = none) (v : ℤ) :
    IdleSound (s.setValue e v) ∧ dueOf (s.setValue e v) = dueOf s := by
  have hs' : IdleSound (s.setValue e v) := hs.of_members (Heaps.Sound.setValue hs.toSound hfree v) fun _ _ => rfl
  refine ⟨hs', dueOf_ext hs' fun e' v' => ?_⟩
  rw [hs.dueOf_eq_some_iff]
  apply and_congr_right
  intro hmem
  have hne : e' ≠ e := by
    rintro rfl
    exact hs.notMem_iff.mpr hfree hmem
  rw [Heaps.setValue_value, Function.update_of_ne hne]

theorem IdleSound.insert {s : Heaps} (hs : IdleSound s) {e : ℕ} (hfree : (s.elem e).fCurrentHeap = none) :
    IdleSound (s.insert fIdleHeap e) ∧
      dueOf (s.insert fIdleHeap e) = Function.update (dueOf s) e (some (s.value e)) := by
  have hmem : (s.insert fIdleHeap e).members fIdleHeap = e ::ₘ s.members fIdleHeap :=
    Heaps.members_insert hs.toStored fIdleHeap e
  have hs' : IdleSound (s.insert fIdleHeap e) :=
    hs.of_members (Heaps.Sound.insert hs.toSound hfree) fun q hq => Heaps.members_congr (Heaps.insert_heap_of_ne hq)
  refine ⟨hs', dueOf_ext hs' fun e' v => ?_⟩
  rw [hmem, Heaps.insert_value, Multiset.mem_cons]
  by_cases he : e' = e
  · rw [he, Function.update_self]
    simp
  · rw [Function.update_of_ne he, hs.dueOf_eq_some_iff]
    simp [he]

theorem IdleSound.cancelTimeout {s : Heaps} (hs : IdleSound s) {e : ℕ} (hfits : s.RemovalFits fIdleHeap e) :
    IdleSound (cancelTimeout e s) ∧ dueOf (cancelTimeout e s) = Function.update (dueOf s) e none := by
  obtain ⟨-, hmem⟩ := hs.remove_members fIdleHeap e
  obtain ⟨hother, hvalue⟩ := Heaps.remove_frame hs.toStored fIdleHeap e
  have hs' : IdleSound (Timeouts.cancelTimeout e s) := hs.of_members (hs.remove hfits) hother
  refine ⟨hs', dueOf_ext hs' fun e' v => ?_⟩
  rw [Timeouts.cancelTimeout, hmem, hvalue, (hs.nodup fIdleHeap).mem_erase_iff]
  by_cases he : e' = e
  · rw [he, Function.update_self]
    simp
  · rw [Function.update_of_ne he, hs.dueOf_eq_some_iff]
    simp [he]

theorem Fired.dueOf_eq {s s' : Heaps} {msec : ℤ} {fired : List ℕ} (hs : IdleSound s) (h : Fired msec s fired s') :
    IdleSound s' ∧ dueOf s' = fun e => if e ∈ fired then none else dueOf s e := by
  have hs' : IdleSound s' := hs.of_members h.sound h.other
  have hnodup := hs.nodup fIdleHeap
  rw [h.split, Multiset.nodup_add] at hnodup
  refine ⟨hs', dueOf_ext hs' fun e v => ?_⟩
  by_cases he : e ∈ fired
  · have hout : e ∉ s'.members fIdleHeap :=
      fun hin => Multiset.disjoint_left.mp hnodup.2.2 (Multiset.mem_coe.mpr he) hin
    simp [he, hout]
  · rw [if_neg he, hs.dueOf_eq_some_iff, h.split, Multiset.mem_add, h.value]
    simp [he]

/-- A pass signals the due timers. -/
theorem Fired.pass {s s' : Heaps} {msec : ℤ} {fired : List ℕ} (hs : IdleSound s) (h : Fired msec s fired s')
    (asked : ℕ → Option ℤ) : Due ⟨dueOf s, asked⟩ (.pass msec) fired ⟨dueOf s', asked⟩ := by
  have hnodup := hs.nodup fIdleHeap
  rw [h.split, Multiset.nodup_add] at hnodup
  have hpending : ∀ e ∈ fired, dueOf s e = some (s.value e) := by
    intro e he
    rw [hs.dueOf_eq_some_iff, h.split, Multiset.mem_add]
    exact ⟨.inl (Multiset.mem_coe.mpr he), rfl⟩
  rw [(h.dueOf_eq hs).2]
  refine .pass ⟨dueOf s, asked⟩ msec fired (Multiset.coe_nodup.mp hnodup.1) (fun e => ?_) ?_
  · constructor
    · exact fun he => ⟨_, hpending e he, h.due e he⟩
    · rintro ⟨v, hv, hle⟩
      obtain ⟨hmem, rfl⟩ := hs.dueOf_eq_some_iff.mp hv
      rw [h.split, Multiset.mem_add] at hmem
      rcases hmem with he | he
      · exact Multiset.mem_coe.mp he
      · exact absurd (h.later e he) (not_lt.mpr hle)
  · apply h.sorted.imp_of_mem
    intro e e' he he' hle
    change dueOf s e ≤ dueOf s e'
    rw [hpending e he, hpending e' he']
    exact Option.some_le_some.mpr hle

theorem askedOf_congr {s : IdleThread} {h : Heaps} (hvalue : h.value = s.heaps.value) :
    askedOf { s with heaps := h } = askedOf s := by
  funext e
  rw [askedOf, askedOf, hvalue]

/-- One call, or one pass of the thread, does with the timers what they are for. -/
theorem ThreadSound.apply {s : IdleThread} (hs : ThreadSound s) {a : Act} (ha : Allowed s a) :
    ThreadSound (apply a s).2 ∧ Due (timersOf s) a (apply a s).1 (timersOf (apply a s).2) := by
  cases a with
  | setIdleTimer e now msec =>
    change ThreadSound (setIdleTimer e now msec s) ∧
      Due (timersOf s) (.setIdleTimer e now msec) [] (timersOf (setIdleTimer e now msec s))
    rw [setIdleTimer]
    split
    · next hpending =>
      obtain ⟨q, hq⟩ := Option.ne_none_iff_exists'.mp hpending
      have hdue : dueOf s.heaps e = some (s.heaps.value e) := by
        rw [dueOf, hq]
        rfl
      exact ⟨hs, .keep _ e now msec _ hdue⟩
    · next hfree =>
      rw [not_not] at hfree
      obtain ⟨hidle, hdue⟩ := hs.idle.setValue hfree (now + msec)
      have hout := hs.idle.notMem_iff.mpr hfree
      refine ⟨⟨hidle, fun e' hset => ?_⟩, ?_⟩
      · by_cases he : e' = e
        · rw [he]
          exact hout
        · have hset : Function.update s.setting e true e' = true := hset
          rw [Function.update_of_ne he] at hset
          exact hs.free e' hset
      · have hasked : askedOf ⟨s.heaps.setValue e (now + msec), Function.update s.setting e true⟩ =
            Function.update (askedOf s) e (some (now + msec)) := by
          funext e'
          simp only [askedOf, Heaps.setValue_value]
          by_cases he : e' = e
          · rw [he, Function.update_self, Function.update_self, Function.update_self, if_pos rfl]
          · rw [Function.update_of_ne he, Function.update_of_ne he, Function.update_of_ne he]
            rfl
        rw [timersOf, timersOf, hdue, hasked]
        exact .ask ⟨dueOf s.heaps, askedOf s⟩ e now msec (hs.idle.dueOf_eq_none_iff.mpr hout)
  | insertIdleElem e =>
    change ThreadSound (insertIdleElem e s) ∧ Due (timersOf s) (.insertIdleElem e) [] (timersOf (insertIdleElem e s))
    have hset : s.setting e = true := ha
    obtain ⟨hidle, hdue⟩ := hs.idle.insert (hs.idle.notMem_iff.mp (hs.free e hset))
    refine ⟨⟨hidle, fun e' hset' => ?_⟩, ?_⟩
    · have hset' : Function.update s.setting e false e' = true := hset'
      have hne : e' ≠ e := by
        rintro rfl
        rw [Function.update_self] at hset'
        cases hset'
      rw [Function.update_of_ne hne] at hset'
      rw [insertIdleElem, Heaps.members_insert hs.idle.toStored, Multiset.mem_cons, not_or]
      exact ⟨hne, hs.free e' hset'⟩
    · have hasked : askedOf (insertIdleElem e s) = Function.update (askedOf s) e none := by
        funext e'
        simp only [askedOf, insertIdleElem, Heaps.insert_value]
        by_cases he : e' = e
        · rw [he, Function.update_self, Function.update_self]
          rfl
        · rw [Function.update_of_ne he, Function.update_of_ne he, askedOf]
      rw [timersOf, timersOf, hasked]
      change Due _ _ _ ⟨dueOf (s.heaps.insert fIdleHeap e), _⟩
      rw [hdue]
      exact .set ⟨dueOf s.heaps, askedOf s⟩ e (s.heaps.value e) (if_pos hset)
  | cancelTimeout e =>
    obtain ⟨hidle, hdue⟩ := hs.idle.cancelTimeout (e := e) ha
    have hvalue : (cancelTimeout e s.heaps).value = s.heaps.value :=
      (Heaps.remove_frame hs.idle.toStored fIdleHeap e).2
    obtain ⟨-, hmem⟩ := hs.idle.remove_members fIdleHeap e
    refine ⟨⟨hidle, fun e' hset hin => hs.free e' hset ?_⟩, ?_⟩
    · change e' ∈ (cancelTimeout e s.heaps).members fIdleHeap at hin
      rw [cancelTimeout, hmem] at hin
      exact Multiset.mem_of_mem_erase hin
    · change Due (timersOf s) (.cancelTimeout e) [] ⟨dueOf (cancelTimeout e s.heaps), askedOf { s with heaps := _ }⟩
      rw [hdue, askedOf_congr hvalue]
      exact .cancel ⟨dueOf s.heaps, askedOf s⟩ e
  | pass msec =>
    have hfired : Fired msec s.heaps (pass msec s.heaps).1 (pass msec s.heaps).2 :=
      popDue_fired hs.idle.toSound msec le_rfl
    refine ⟨⟨(hfired.dueOf_eq hs.idle).1, fun e hset hin => hs.free e hset ?_⟩, ?_⟩
    · rw [hfired.split, Multiset.mem_add]
      exact .inr hin
    · change Due ⟨dueOf s.heaps, askedOf s⟩ (.pass msec) (pass msec s.heaps).1
        ⟨dueOf (pass msec s.heaps).2, askedOf { s with heaps := _ }⟩
      rw [askedOf_congr hfired.value]
      exact hfired.pass hs.idle (askedOf s)

/-- A call or a pass, with the tasks it signals -/
def Call (s : IdleThread) (call : Act × List ℕ) (s' : IdleThread) : Prop := apply call.1 s = (call.2, s')

/-- `OSHeap(inStartSize)`, and tasks that are in no heap -/
def freshThread (inStartSize : ℕ → ℕ) (garbage : ℕ → ℕ → ℕ) (values : ℕ → ℤ) : IdleThread :=
  ⟨.fresh inStartSize garbage values, fun _ => false⟩

/-- In every run of calls and passes, each pass signals exactly the tasks whose time has come, each once and in the order
of their times, and a timer that is pending is not moved by setting it again. -/
theorem idle_timers_fire_when_due {inStartSize : ℕ → ℕ} {garbage : ℕ → ℕ → ℕ} {values : ℕ → ℤ}
    {calls : List (Act × List ℕ)} {t : IdleThread}
    (h : Reaches Call (fun s call => Allowed s call.1) (freshThread inStartSize garbage values) calls t) :
    Reaches (fun w call w' => Due w call.1 call.2 w') (fun _ _ => True) ⟨fun _ => none, fun _ => none⟩ calls
      (timersOf t) := by
  have hfresh : ThreadSound (freshThread inStartSize garbage values) := by
    refine ⟨⟨Heaps.fresh_sound inStartSize garbage values, fun e q hq => ?_⟩, fun e hset => ?_⟩
    · cases hq
    · cases hset
  have hrun : ∀ {s t : IdleThread} {calls : List (Act × List ℕ)}, ThreadSound s →
      Reaches Call (fun s call => Allowed s call.1) s calls t →
      Reaches (fun w call w' => Due w call.1 call.2 w') (fun _ _ => True) (timersOf s) calls (timersOf t) := by
    intro s t calls hs h
    induction h with
    | nil s => exact .nil _
    | @cons s s' t call calls allowed taken _ ih =>
      obtain ⟨hs', hdue⟩ := hs.apply allowed
      rw [taken] at hs' hdue
      exact .cons trivial hdue (ih hs')
  exact hrun hfresh h

/-- The calls and passes with what they signal -/
def answers : IdleThread → List Act → List (Act × List ℕ)
  | _, [] => []
  | s, a :: acts => (a, (apply a s).1) :: answers (apply a s).2 acts

theorem reaches_answers (s : IdleThread) (acts : List Act) (h : allAllowed (fun s a => (apply a s).2) Allowed s acts) :
    Reaches Call (fun s call => Allowed s call.1) s (answers s acts) (acts.foldl (fun s a => (apply a s).2) s) := by
  induction acts generalizing s with
  | nil => exact .nil s
  | cons a acts ih => exact .cons h.1 rfl (ih _ h.2)

/-- Task 7 sets its timer twice, the one of task 8 is set in two steps around a pass, and that of task 9 is cancelled. -/
def exampleActs : List Act :=
  [.setIdleTimer 7 0 30, .insertIdleElem 7, .setIdleTimer 9 5 10, .insertIdleElem 9, .setIdleTimer 8 10 15, .pass 12,
    .insertIdleElem 8, .setIdleTimer 7 20 500, .cancelTimeout 9, .pass 30]

def exampleFresh : IdleThread := freshThread (fun _ => 1024) (fun _ _ => 0) fun _ => 0

theorem idle_timers_fire_when_due_example :
    Reaches (fun w call w' => Due w call.1 call.2 w') (fun _ _ => True) ⟨fun _ => none, fun _ => none⟩
      (answers exampleFresh exampleActs) (timersOf (exampleActs.foldl (fun s a => (apply a s).2) exampleFresh)) ∧
    (answers exampleFresh exampleActs).getLast? = some (.pass 30, [8, 7]) :=
  ⟨idle_timers_fire_when_due (reaches_answers exampleFresh exampleActs (by decide +kernel)), by decide +kernel⟩

/-! ## Timeouts -/

/-- `TimeoutTask`; 0 in `fTimeoutAtThisTime` is never. -/
structure TimeoutTask where
  fTask : ℕ
  fTimeoutAtThisTime : ℤ
  fTimeoutInMilSecs : ℤ
  deriving DecidableEq, Repr

namespace TimeoutTask

def setTimeout (now inTimeoutInMilSecs : ℤ) (T : TimeoutTask) : TimeoutTask :=
  { T with fTimeoutInMilSecs := inTimeoutInMilSecs,
           fTimeoutAtThisTime := if inTimeoutInMilSecs = 0 then 0 else now + inTimeoutInMilSecs }

def refreshTimeout (now : ℤ) (T : TimeoutTask) : TimeoutTask :=
  { T with fTimeoutAtThisTime := now + T.fTimeoutInMilSecs }

def due (curTime : ℤ) (T : TimeoutTask) : Bool := 0 < T.fTimeoutAtThisTime ∧ T.fTimeoutAtThisTime ≤ curTime

end TimeoutTask

def kIntervalSeconds : ℤ := 60

/-- A turn of the loop of `TimeoutTaskThread::Run`: the tasks signalled so far, and `intervalMilli` -/
def turn (curTime : ℤ) (acc : List ℕ × ℤ) (T : TimeoutTask) : List ℕ × ℤ :=
  if T.due curTime then (acc.1 ++ [T.fTask], acc.2)
  else
    let taskInterval := T.fTimeoutAtThisTime - curTime
    if 0 < taskInterval ∧ 0 < T.fTimeoutInMilSecs ∧ taskInterval < acc.2 then (acc.1, taskInterval + 1000) else acc

/-- `TimeoutTaskThread::Run`: the tasks it signals, and when it is to be run again -/
def run (curTime : ℤ) (fQueue : List TimeoutTask) : List ℕ × ℤ :=
  fQueue.foldl (turn curTime) ([], kIntervalSeconds * 1000)

theorem foldl_signalled (curTime : ℤ) (q : List TimeoutTask) (acc : List ℕ × ℤ) :
    (q.foldl (turn curTime) acc).1 = acc.1 ++ (q.filter (·.due curTime)).map TimeoutTask.fTask := by
  induction q generalizing acc with
  | nil => simp
  | cons T q ih =>
    rw [List.foldl_cons, ih, turn]
    cases hdue : T.due curTime with
    | true => simp [hdue]
    | false =>
      simp only [Bool.false_eq_true, if_false, List.filter_cons, hdue]
      split
      · rfl
      · rfl

theorem turn_interval (curTime : ℤ) (acc : List ℕ × ℤ) (T : TimeoutTask) :
    (turn curTime acc T).2 = acc.2 ∨
      0 < T.fTimeoutAtThisTime - curTime ∧ T.fTimeoutAtThisTime - curTime < acc.2 ∧
        (turn curTime acc T).2 = T.fTimeoutAtThisTime - curTime + 1000 := by
  rw [turn]
  split
  · exact .inl rfl
  · dsimp only
    split
    · next h => exact .inr ⟨h.1, h.2.2, rfl⟩
    · exact .inl rfl

/-- Each later timeout can put the next run off by less than a second. -/
theorem foldl_interval (curTime : ℤ) (q : List TimeoutTask) (acc : List ℕ × ℤ) :
    (q.foldl (turn curTime) acc).2 ≤ acc.2 + 1000 * q.length ∧
      (1000 < acc.2 → 1000 < (q.foldl (turn curTime) acc).2) := by
  induction q generalizing acc with
  | nil => simp
  | cons T q ih =>
    rw [List.foldl_cons, List.length_cons]
    obtain ⟨hle, hpos⟩ := ih (turn curTime acc T)
    push_cast
    rcases turn_interval curTime acc T with heq | ⟨hlo, hhi, heq⟩
    · rw [heq] at hle hpos
      exact ⟨by omega, hpos⟩
    · rw [heq] at hle hpos
      exact ⟨by omega, fun _ => hpos (by omega)⟩

/-- A pass over the timeouts signals exactly the tasks whose time has come, and asks for the next one after more than a
second, and not later than a second for every timeout from `T` on after any `T` that is still to come. -/
theorem timeouts_signalled_in_time (curTime : ℤ) (fQueue : List TimeoutTask) :
    (run curTime fQueue).1 = (fQueue.filter (·.due curTime)).map TimeoutTask.fTask ∧ 1000 < (run curTime fQueue).2 ∧
      ∀ l₁ T l₂, fQueue = l₁ ++ T :: l₂ → curTime < T.fTimeoutAtThisTime → 0 < T.fTimeoutInMilSecs →
        curTime + (run curTime fQueue).2 ≤ T.fTimeoutAtThisTime + 1000 * (l₂.length + 1) := by
  refine ⟨foldl_signalled curTime fQueue _, (foldl_interval curTime fQueue _).2 (by decide), ?_⟩
  rintro l₁ T l₂ rfl hlater hmsec
  rw [run, List.foldl_append, List.foldl_cons]
  set acc := l₁.foldl (turn curTime) ([], kIntervalSeconds * 1000)
  have hrest := (foldl_interval curTime l₂ (turn curTime acc T)).1
  have hT : (turn curTime acc T).2 ≤ T.fTimeoutAtThisTime - curTime + 1000 := by
    have hnot : T.due curTime = false := by
      rw [TimeoutTask.due, decide_eq_false_iff_not]
      omega
    rw [turn, hnot]
    simp only [Bool.false_eq_true, if_false]
    split
    · exact le_rfl
    · omega
  omega

/-- Setting a timeout is a refresh with the new length, and 0 is never. -/
theorem TimeoutTask.setTimeout_eq (T : TimeoutTask) (now msec : ℤ) : T.setTimeout now msec =
    if msec = 0 then { T with fTimeoutInMilSecs := 0, fTimeoutAtThisTime := 0 }
    else { T with fTimeoutInMilSecs := msec }.refreshTimeout now := by
  rw [TimeoutTask.setTimeout]
  split
  · next hzero => rw [hzero]
  · rfl

/-- Whatever a timeout was before, from a refresh on it is signalled by the passes from its new time on, and by none
before. -/
theorem refreshed_signalled (curTime now : ℤ) (l₁ l₂ : List TimeoutTask) (T : TimeoutTask)
    (hlater : 0 < now + T.fTimeoutInMilSecs) : (run curTime (l₁ ++ T.refreshTimeout now :: l₂)).1 =
      (run curTime l₁).1 ++ (if now + T.fTimeoutInMilSecs ≤ curTime then [T.fTask] else []) ++ (run curTime l₂).1 := by
  have hdue : (T.refreshTimeout now).due curTime = decide (now + T.fTimeoutInMilSecs ≤ curTime) := by
    simp [TimeoutTask.due, TimeoutTask.refreshTimeout, hlater]
  simp only [run, foldl_signalled, List.nil_append, List.filter_append, List.map_append, List.filter_cons, hdue,
    decide_eq_true_eq]
  split
  · simp [TimeoutTask.refreshTimeout]
  · simp

end Tefs.DataServer.Timeouts
