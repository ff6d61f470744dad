import Tefs.DataServer.TaskRuns

/-! # When a task runs, on which thread, and with which events

Source: `CommonUtilitiesLib/Task.cpp` and `Task.h`. All of this is about runs of the step relation of `TaskThreads`, from
its start and in any order of the steps.
-/

namespace Tefs.DataServer.TaskThreads
open OSHeaps OSQueues Runs
set_option autoImplicit false

variable {w w' : World} {place : ℕ → Place} {queued : ℕ → List ℕ} {x t i : ℕ}

/-! ## Events -/

/-- The second half of a `GetEvents` of the task `x` that reports the event bit `i` -/
def Reports (w : World) (a : Act) (x i : ℕ) : Prop :=
  ∃ t e, a = .clearEvents t ∧ w.thread t = .running x (some e) ∧ e.getLsbD i = true

theorem setThread_events {pc : Pc} (h : (w.task x).fEvents.getLsbD i = true) :
    ((w.setThread t pc).task x).fEvents.getLsbD i = true := h

/-- A write to a task that leaves its events alone -/
theorem setTask_events {y : ℕ} {f : Task → Task} (hf : (f (w.task y)).fEvents = (w.task y).fEvents)
    (h : (w.task x).fEvents.getLsbD i = true) : ((w.setTask y f).task x).fEvents.getLsbD i = true := by
  by_cases hx : x = y
  · rw [hx, World.setTask_task_self, hf, ← hx]
    exact h
  · rwa [World.setTask_task_of_ne hx]

theorem beginRun_events {y : ℕ} (h : (w.task x).fEvents.getLsbD i = true) :
    ((w.beginRun t y).task x).fEvents.getLsbD i = true := setThread_events (setTask_events rfl h)

theorem schedule_task {y : ℕ} :
    (w.schedule y).task = (w.setTask y (.setUseThisThread (w.task y).useThisThread)).task := by
  rw [World.schedule]
  cases (w.task y).useThisThread with
  | some t => rfl
  | none =>
    simp only [World.pickThread]
    split
    · rfl
    · rfl

theorem kAlive_not_getLsbD (hi : i < 31) : ¬kAlive.getLsbD i = true := by
  rw [kAlive_getLsbD, decide_eq_true_iff]
  omega

/-- Only a report takes an event away. -/
theorem Sound.events_step (h : Sound w place queued) {a : Act} (hstep : Taken w a w') (hi : i < 31)
    (hbit : (w.task x).fEvents.getLsbD i = true) (hrep : ¬Reports w a x i) : (w'.task x).fEvents.getLsbD i = true := by
  cases a with
  | tick msec =>
    obtain rfl := Option.some.inj hstep
    exact hbit
  | signal y events =>
    obtain rfl := Option.some.inj hstep
    rw [World.signal]
    split
    · exact orEvents_grow _ i hbit
    · exact orEvents_grow _ i hbit
  | schedule y =>
    simp only [Taken, TaskThreads.step] at hstep
    split at hstep
    · obtain rfl := Option.some.inj hstep
      rw [schedule_task]
      exact setTask_events rfl hbit
    · cases hstep
  | enQueue t y =>
    simp only [Taken, TaskThreads.step] at hstep
    split at hstep
    · obtain rfl := Option.some.inj hstep
      exact hbit
    · cases hstep
  | check t =>
    simp only [Taken, TaskThreads.step] at hstep
    split at hstep
    · obtain rfl := Option.some.inj hstep
      rw [World.check]
      split
      · split
        · split
          · exact beginRun_events hbit
          · exact hbit
        · exact setThread_events hbit
      · exact setThread_events hbit
    · cases hstep
  | deQueue t =>
    simp only [Taken, TaskThreads.step] at hstep
    split at hstep
    · obtain rfl := Option.some.inj hstep
      rw [World.deQueue]
      split
      · exact beginRun_events hbit
      · exact setThread_events hbit
    · cases hstep
  | readEvents t =>
    simp only [Taken, TaskThreads.step] at hstep
    split at hstep
    · obtain rfl := Option.some.inj hstep
      exact setThread_events (setTask_events rfl hbit)
    · cases hstep
  | clearEvents t =>
    simp only [Taken, TaskThreads.step] at hstep
    split at hstep
    · next y e ht =>
      obtain rfl := Option.some.inj hstep
      apply setThread_events
      by_cases hx : x = y
      · subst hx
        have he : e.getLsbD i = false := by
          rw [← Bool.not_eq_true]
          exact fun htrue => hrep ⟨t, e, rfl, ht, htrue⟩
        rw [World.setTask_task_self, Task.subEvents, getLsbD_sub (h.reading t x e ht).1, hbit, he]
        rfl
      · rwa [World.setTask_task_of_ne hx]
    · cases hstep
  | forceSameThread t =>
    simp only [Taken, TaskThreads.step] at hstep
    split at hstep
    · obtain rfl := Option.some.inj hstep
      exact setTask_events rfl hbit
    · cases hstep
  | ret t theTimeout =>
    simp only [Taken, TaskThreads.step] at hstep
    split at hstep
    · obtain rfl := Option.some.inj hstep
      exact hbit
    · cases hstep
  | settle t =>
    simp only [Taken, TaskThreads.step] at hstep
    split at hstep
    · next y theTimeout ht =>
      obtain rfl := Option.some.inj hstep
      rw [World.settle]
      split
      · exact setThread_events (setTask_events rfl hbit)
      · split
        · split
          · next halive =>
            -- an idle task has no event but the alive bit
            apply setThread_events
            have hx : x ≠ y := by
              rintro rfl
              rw [halive] at hbit
              exact kAlive_not_getLsbD hi hbit
            rwa [World.setTask_task_of_ne hx]
          · exact beginRun_events hbit
        · exact hbit
    · cases hstep
  | idleEvent t =>
    simp only [Taken, TaskThreads.step] at hstep
    split at hstep
    · obtain rfl := Option.some.inj hstep
      exact setThread_events (orEvents_grow _ i hbit)
    · cases hstep
  | free t =>
    simp only [Taken, TaskThreads.step] at hstep
    split at hstep
    · obtain rfl := Option.some.inj hstep
      exact setThread_events (setTask_events rfl hbit)
    · cases hstep

theorem Sound.events_run (h : Sound w place queued) (hi : i < 31) (hbit : (w.task x).fEvents.getLsbD i = true)
    {as : List Act} (hrun : Reaches Taken (fun w a => Allowed w a ∧ ¬Reports w a x i) w as w') :
    (∃ place' queued', Sound w' place' queued') ∧ (w'.task x).fEvents.getLsbD i = true := by
  refine hrun.invariant
    (I := fun w => (∃ place' queued', Sound w place' queued') ∧ (w.task x).fEvents.getLsbD i = true) ?_ ⟨⟨_, _, h⟩, hbit⟩
  rintro s a s' ⟨⟨place', queued', hs⟩, hsbit⟩ ⟨ha, hrep⟩ hstep
  obtain ⟨place'', queued'', hs', -⟩ := hs.step ha hstep
  exact ⟨⟨place'', queued'', hs'⟩, hs.events_step hstep hi hsbit hrep⟩

/-- No event is lost: from its `Signal` on, and until a `GetEvents` of the task reports it, an event stays set, and the
task stays at a place from which it will run, whatever the threads and other signals do meanwhile. -/
theorem event_waits_for_report {s s' u : World} {as bs : List Act} (hstart : Start w) (hrun : Reaches Taken Allowed w as s)
    {events : EventFlags} (hi : i < 31) (hevent : events.getLsbD i = true) (halive : (s.task x).deleted = false)
    (hsignal : Taken s (.signal x events) s')
    (hrest : Reaches Taken (fun w a => Allowed w a ∧ ¬Reports w a x i) s' bs u) :
    (u.task x).fEvents.getLsbD i = true ∧ ((u.task x).deleted = true ∨ ∃ p, At u x p) := by
  obtain ⟨place, queued, hs⟩ := hstart.sound.run hrun
  obtain ⟨place', queued', hs', -⟩ := hs.step (show Allowed s (.signal x events) from halive) hsignal
  have hbit : (s'.task x).fEvents.getLsbD i = true := by
    obtain rfl := Option.some.inj hsignal
    have hor : (Task.orEvents (events ||| kAlive) (s.task x)).fEvents.getLsbD i = true := by
      rw [Task.orEvents, BitVec.getLsbD_or, BitVec.getLsbD_or, hevent]
      simp only [Bool.true_or, Bool.or_true]
    rw [World.signal]
    split
    · exact (congrArg (fun T : Task => T.fEvents.getLsbD i) World.setTask_task_self).trans hor
    · exact (congrArg (fun T : Task => T.fEvents.getLsbD i) World.setTask_task_self).trans hor
  obtain ⟨⟨place'', queued'', hu⟩, hubit⟩ := hs'.events_run hi hbit hrest
  refine ⟨hubit, ?_⟩
  cases hdel : (u.task x).deleted with
  | true => exact .inl rfl
  | false => exact .inr ((hu.exists_at_iff x).mpr ⟨(hu.tasks x).events i hubit, hdel⟩)

/-- Task 7 is signalled, and put into the queue of thread 1, which runs it. -/
def exampleSignalled : World := exampleStart.signal 7 kReadEvent

def exampleRunning : World := exampleSignalled.after [.schedule 7, .enQueue 1 7, .check 1, .deQueue 1]

theorem event_waits_for_report_example : (exampleRunning.task 7).fEvents.getLsbD 4 = true ∧
    ((exampleRunning.task 7).deleted = true ∨ ∃ p, At exampleRunning 7 p) := by
  have hrest : Reaches Taken (fun w a => Allowed w a ∧ ¬Reports w a 7 4) exampleSignalled
      [.schedule 7, .enQueue 1 7, .check 1, .deQueue 1] exampleRunning := by
    have hno : ∀ {w a}, (∀ t, a ≠ .clearEvents t) → ¬Reports w a 7 4 := fun ha ⟨t, _, heq, _⟩ => ha t heq
    refine .cons ⟨trivial, hno fun _ => Act.noConfusion⟩ rfl (.cons ⟨trivial, hno fun _ => Act.noConfusion⟩ rfl ?_)
    exact .cons ⟨trivial, hno fun _ => Act.noConfusion⟩ rfl (.cons ⟨trivial, hno fun _ => Act.noConfusion⟩ rfl (.nil _))
  exact event_waits_for_report exampleStart_start (.nil _) (by decide) (by decide) rfl
    (show Taken exampleStart (.signal 7 kReadEvent) exampleSignalled from rfl) hrest

/-! ## Threads -/

/-- A task that asked for a thread, inside its last `Run` or once and for all, is with that thread or with none: what its
signals put it into is that thread's queue, no other thread runs it, and no other timer heap holds it. -/
theorem same_thread_runs {as : List Act} (hstart : Start w) (hrun : Reaches Taken Allowed w as w')
    (hask : (w'.task x).Asks t) :
    t < w'.pool.sNumTaskThreads ∧
      (∀ t', At w' x (.picked t') ∨ At w' x (.queue t') ∨ At w' x (.heap t') ∨ At w' x (.hands t') → t' = t) ∧
      (x ∈ w'.signalling → (x, t) ∈ (w'.schedule x).picked) := by
  obtain ⟨place, queued, h⟩ := hstart.sound.run hrun
  obtain ⟨hlt, hthread⟩ := (h.tasks x).asks t hask
  refine ⟨hlt, fun t' hat => hthread t' ?_, fun _ => ?_⟩
  · rcases hat with hp | hq | hh | hr
    · rw [((h.at_iff x _).mp hp).1]
      rfl
    · rw [((h.at_iff x _).mp hq).1]
      rfl
    · rw [((h.at_iff x _).mp hh).1]
      rfl
    · rw [((h.at_iff x _).mp hr).1]
      rfl
  · rw [World.schedule, (h.tasks x).asks_iff.mp hask]
    exact List.mem_cons_self

/-- Task 7 forces thread 1 and sleeps again, and then it is signalled, and so is task 4. -/
def exampleForcing : List Act :=
  [.signal 7 kReadEvent, .schedule 7, .enQueue 1 7, .check 1, .deQueue 1, .readEvents 1, .clearEvents 1,
    .forceSameThread 1, .ret 1 0, .settle 1, .signal 7 kWriteEvent, .signal 4 kReadEvent]

def exampleForced : World := exampleStart.after exampleForcing

theorem same_thread_runs_example :
    (1 < exampleForced.pool.sNumTaskThreads ∧
      (∀ t', At exampleForced 7 (.picked t') ∨ At exampleForced 7 (.queue t') ∨ At exampleForced 7 (.heap t') ∨
        At exampleForced 7 (.hands t') → t' = 1) ∧
      (7 ∈ exampleForced.signalling → (7, 1) ∈ (exampleForced.schedule 7).picked)) ∧
    (4 ∈ exampleForced.signalling → (4, 3) ∈ (exampleForced.schedule 4).picked) ∧
    7 ∈ exampleForced.signalling ∧ 4 ∈ exampleForced.signalling := by
  have hrun : Reaches Taken Allowed exampleStart exampleForcing exampleForced :=
    reaches_after (by decide +kernel) (by decide +kernel)
  exact ⟨same_thread_runs exampleStart_start hrun (.inl rfl), (same_thread_runs exampleStart_start hrun (.inr rfl)).2.2,
    by decide +kernel⟩

/-! ## Timers -/

/-- The clock never goes back, and only two kinds of steps touch the heaps. -/
theorem Taken.frame {a : Act} (h : Taken w a w') :
    w.clock ≤ w'.clock ∧ ((∀ t, a ≠ .check t) → (∀ t, a ≠ .settle t) → w'.heaps = w.heaps) := by
  cases a with
  | tick msec =>
    obtain rfl := Option.some.inj h
    refine ⟨?_, fun _ _ => rfl⟩
    show w.clock ≤ w.clock + msec
    omega
  | signal y events =>
    obtain rfl := Option.some.inj h
    rw [World.signal]
    split
    · exact ⟨le_rfl, fun _ _ => rfl⟩
    · exact ⟨le_rfl, fun _ _ => rfl⟩
  | schedule y =>
    simp only [Taken, step] at h
    split at h
    · obtain rfl := Option.some.inj h
      rw [World.schedule]
      cases (w.task y).useThisThread with
      | some t => exact ⟨le_rfl, fun _ _ => rfl⟩
      | none =>
        simp only [World.pickThread]
        split
        · exact ⟨le_rfl, fun _ _ => rfl⟩
        · exact ⟨le_rfl, fun _ _ => rfl⟩
    · cases h
  | check t =>
    refine ⟨?_, fun hcheck => absurd rfl (hcheck t)⟩
    simp only [Taken, step] at h
    split at h
    · obtain rfl := Option.some.inj h
      rw [World.check]
      split
      · split
        · split
          · exact le_rfl
          · exact le_rfl
        · exact le_rfl
      · exact le_rfl
    · cases h
  | deQueue t =>
    simp only [Taken, step] at h
    split at h
    · obtain rfl := Option.some.inj h
      rw [World.deQueue]
      split
      · exact ⟨le_rfl, fun _ _ => rfl⟩
      · exact ⟨le_rfl, fun _ _ => rfl⟩
    · cases h
  | enQueue t _ | readEvents t | clearEvents t | forceSameThread t | ret t _ | idleEvent t | free t =>
    simp only [Taken, step] at h
    split at h
    · obtain rfl := Option.some.inj h
      exact ⟨le_rfl, fun _ _ => rfl⟩
    · cases h
  | settle t =>
    refine ⟨?_, fun _ hsettle => absurd rfl (hsettle t)⟩
    simp only [Taken, step] at h
    split at h
    · obtain rfl := Option.some.inj h
      rw [World.settle]
      split
      · exact le_rfl
      · split
        · split
          · exact le_rfl
          · exact le_rfl
        · exact le_rfl
    · cases h

/-- What a thread at the top of `WaitForTask` does: the task of a least timer, if that one is due, and otherwise it
waits. -/
theorem Sound.check_cases (h : Sound w place queued) (t : ℕ) :
    (∃ x heaps, w.check t = World.beginRun t x { w with heaps := heaps } ∧ heaps.Sound ∧
      Heaps.Least t x w.heaps heaps ∧ w.heaps.value x ≤ w.clock) ∨
    (w.check t = w.setThread t .waiting ∧ ∀ x ∈ w.heaps.members t, w.clock < w.heaps.value x) := by
  obtain ⟨hheaps, hres, ⟨hempty, -⟩ | ⟨e', he', hleast⟩⟩ := h.heaps.extractMin t
  · refine .inr ⟨?_, fun x hx => ?_⟩
    · rw [World.check, h.heaps.peekMin_eq_none_iff.mpr hempty]
    · rw [hempty] at hx
      exact absurd hx (Multiset.notMem_zero x)
  · have hpeek : w.heaps.peekMin t = some e' := hres.symm.trans he'
    have hextract : w.heaps.extractMin t = (some e', (w.heaps.extractMin t).2) := Prod.ext he' rfl
    by_cases hdue : w.heaps.value e' ≤ w.clock
    · refine .inl ⟨e', (w.heaps.extractMin t).2, ?_, hheaps, hleast, hdue⟩
      rw [World.check, hpeek]
      simp only [hdue, if_true]
      rw [hextract]
    · refine .inr ⟨?_, fun x hx => ?_⟩
      · rw [World.check, hpeek]
        simp only [hdue, if_false]
      · exact lt_of_lt_of_le (not_le.mp hdue) (hleast.le x hx)

/-- A timer that is not due stays in its heap. -/
theorem Sound.timer_step (h : Sound w place queued) {a : Act} (hstep : Taken w a w') {v : ℤ}
    (hheap : (w.heaps.elem x).fCurrentHeap = some t) (hvalue : w.heaps.value x = v) (hnow : w'.clock < v) :
    (w'.heaps.elem x).fCurrentHeap = some t ∧ w'.heaps.value x = v := by
  have hclock := hstep.frame.1
  cases a with
  | check t' =>
    simp only [Taken, TaskThreads.step] at hstep
    split at hstep
    · obtain rfl := Option.some.inj hstep
      rcases h.check_cases t' with ⟨y, heaps, heq, hheaps, hleast, hdue⟩ | ⟨heq, -⟩
      · have hne : x ≠ y := by
          rintro rfl
          omega
        rw [heq]
        show (heaps.elem x).fCurrentHeap = some t ∧ heaps.value x = v
        rw [h.heap_update hheaps hleast, Function.update_of_ne hne, ← h.heap, hleast.value]
        exact ⟨hheap, hvalue⟩
      · rw [heq]
        exact ⟨hheap, hvalue⟩
    · cases hstep
  | settle t' =>
    simp only [Taken, TaskThreads.step] at hstep
    split at hstep
    · next y theTimeout ht =>
      obtain rfl := Option.some.inj hstep
      have hne : x ≠ y := by
        rintro rfl
        have hplace := (h.heap t x).mp hheap
        rw [(h.hands t' x).mp (by rw [ht]; rfl)] at hplace
        cases hplace
      rw [World.settle]
      split
      · exact ⟨hheap, hvalue⟩
      · split
        · split
          · exact ⟨hheap, hvalue⟩
          · exact ⟨hheap, hvalue⟩
        · show (((w.heaps.setValue y (w.clock + theTimeout)).insert t' y).elem x).fCurrentHeap = some t ∧
            ((w.heaps.setValue y (w.clock + theTimeout)).insert t' y).value x = v
          rw [Heaps.insert_elem_of_ne hne, Heaps.setValue_current, Heaps.insert_value, Heaps.setValue_value,
            Function.update_of_ne hne]
          exact ⟨hheap, hvalue⟩
    · cases hstep
  | tick | signal | schedule | enQueue | deQueue | readEvents | clearEvents | forceSameThread | ret | idleEvent | free =>
    rw [hstep.frame.2 (fun _ => Act.noConfusion) fun _ => Act.noConfusion]
    exact ⟨hheap, hvalue⟩

theorem Sound.timer_run (h : Sound w place queued) {v : ℤ} (hheap : (w.heaps.elem x).fCurrentHeap = some t)
    (hvalue : w.heaps.value x = v) {as : List Act} (hrun : Reaches Taken Allowed w as w') (hnow : w'.clock < v) :
    (w'.heaps.elem x).fCurrentHeap = some t := by
  -- from the end of the run back: the clock was below `v` all the time
  have hback : ∀ {s u : World} {as : List Act}, Reaches Taken Allowed s as u → s.clock ≤ u.clock := by
    intro s u as hsu
    apply hsu.invariant (I := fun u' => s.clock ≤ u'.clock)
    · intro s' a u' hle _ hstep
      exact hle.trans hstep.frame.1
    · exact le_rfl
  induction hrun generalizing place queued with
  | nil s => exact hheap
  | @cons s s' u a as allowed taken rest ih =>
    obtain ⟨place', queued', hs', -⟩ := h.step allowed taken
    obtain ⟨hheap', hvalue'⟩ := h.timer_step taken hheap hvalue (lt_of_le_of_lt (hback rest) hnow)
    exact ih hs' hheap' hvalue' hnow

/-- A task that asks to be run again after a timeout is in its thread's timer heap until then: no signal, and nothing
else that any thread does, runs it or moves it before its time. -/
theorem not_run_before_timeout {s s' u : World} {as bs : List Act} {theTimeout : ℤ} (hstart : Start w)
    (hrun : Reaches Taken Allowed w as s) (hret : s.thread t = .returned x theTimeout) (hpos : 0 < theTimeout)
    (hsettle : Taken s (.settle t) s') (hrest : Reaches Taken Allowed s' bs u)
    (hnow : u.clock < s.clock + theTimeout) : At u x (.heap t) := by
  obtain ⟨place, queued, hs⟩ := hstart.sound.run hrun
  obtain ⟨place', queued', hs', -⟩ := hs.step (show Allowed s (.settle t) from trivial) hsettle
  obtain ⟨place'', queued'', hu⟩ := hs'.run hrest
  have heq : s'.heaps = (s.heaps.setValue x (s.clock + theTimeout)).insert t x := by
    simp only [Taken, step, hret, Option.some.injEq] at hsettle
    rw [← hsettle, World.settle, if_neg (by omega), if_neg (by omega)]
    rfl
  have hheap : (s'.heaps.elem x).fCurrentHeap = some t := by
    rw [heq, Heaps.insert_current_self]
  have hvalue : s'.heaps.value x = s.clock + theTimeout := by
    rw [heq, Heaps.insert_value, Heaps.setValue_value, Function.update_self]
  exact (hu.heaps.current t x).mpr (hs'.timer_run hheap hvalue hrest hnow)

/-- `Run` of task 7 answers 100. -/
def exampleReturning : List Act := [.signal 7 kReadEvent, .schedule 7, .enQueue 1 7, .check 1, .deQueue 1, .ret 1 100]

def exampleTimed : World := (exampleStart.after exampleReturning).settle 1 7 100

theorem not_run_before_timeout_example : At (World.signal 7 kWriteEvent { exampleTimed with clock := 0 + 50 }) 7 (.heap 1) :=
  have hrun : Reaches Taken Allowed exampleStart exampleReturning (exampleStart.after exampleReturning) :=
    reaches_after (by decide +kernel) (by decide +kernel)
  have hret : (exampleStart.after exampleReturning).thread 1 = .returned 7 100 := by decide +kernel
  not_run_before_timeout exampleStart_start hrun hret (by decide) (show Taken _ (.settle 1) exampleTimed from rfl)
    (.cons (show Allowed _ (.tick 50) from trivial) (show Taken _ _ { exampleTimed with clock := 0 + 50 } from rfl)
      (.cons (show Allowed _ (.signal 7 kWriteEvent) from rfl) rfl (.nil _))) (by decide)

/-- A thread that looks for work runs the task of an earliest timer of its heap if that is due, and it goes to wait for
its queue only when no timer of its heap is due. -/
theorem earliest_due_timer_first {as : List Act} (hstart : Start w) (hrun : Reaches Taken Allowed w as w')
    {u : World} (hcheck : Taken w' (.check t) u) :
    (∃ x, u.thread t = .running x none ∧ x ∈ w'.heaps.members t ∧ w'.heaps.value x ≤ w'.clock ∧
      ∀ y ∈ w'.heaps.members t, w'.heaps.value x ≤ w'.heaps.value y) ∨
    (u.thread t = .waiting ∧ u.heaps = w'.heaps ∧ ∀ y ∈ w'.heaps.members t, w'.clock < w'.heaps.value y) := by
  obtain ⟨place, queued, h⟩ := hstart.sound.run hrun
  simp only [Taken, step] at hcheck
  split at hcheck
  · obtain rfl := Option.some.inj hcheck
    rcases h.check_cases t with ⟨x, heaps, heq, -, hleast, hdue⟩ | ⟨heq, hnone⟩
    · refine .inl ⟨x, ?_, ?_, hdue, hleast.le⟩
      · rw [heq, World.beginRun, World.setThread_thread_self]
      · rw [hleast.split]
        exact Multiset.mem_cons_self _ _
    · rw [heq]
      exact .inr ⟨World.setThread_thread_self, rfl, hnone⟩
  · cases hcheck

/-- Tasks 7, 9 and 11 ask thread 1 for 100, 30 and 60 ms, and 50 of them go by. -/
def exampleTimers : List Act := signalled ++ ([100, 30, 60].flatMap fun theTimeout =>
  [.check 1, .deQueue 1, .ret 1 theTimeout, .settle 1, .idleEvent 1]) ++ [.tick 50]

def exampleDue : World := exampleStart.after exampleTimers

theorem earliest_due_timer_first_example :
    ((∃ x, (exampleDue.check 1).thread 1 = .running x none ∧ x ∈ exampleDue.heaps.members 1 ∧
      exampleDue.heaps.value x ≤ exampleDue.clock ∧
        ∀ y ∈ exampleDue.heaps.members 1, exampleDue.heaps.value x ≤ exampleDue.heaps.value y) ∨
    ((exampleDue.check 1).thread 1 = .waiting ∧ (exampleDue.check 1).heaps = exampleDue.heaps ∧
      ∀ y ∈ exampleDue.heaps.members 1, exampleDue.clock < exampleDue.heaps.value y)) ∧
    exampleDue.heaps.members 1 = {7, 9, 11} ∧ (exampleDue.check 1).thread 1 = .running 9 none :=
  have hrun : Reaches Taken Allowed exampleStart exampleTimers exampleDue :=
    reaches_after (by decide +kernel) (by decide +kernel)
  ⟨earliest_due_timer_first exampleStart_start hrun (show Taken _ (.check 1) _ from if_pos (by decide +kernel)),
    by decide +kernel⟩

/-! ## Queues -/

/-- How often a thread came back from `DeQueueBlocking` -/
def deQueues (t : ℕ) (as : List Act) : ℕ := as.count (.deQueue t)

theorem Sound.queue_run (h : Sound w place queued) {l₁ l₂ : List ℕ} (hq : queued t = l₁ ++ x :: l₂) {as : List Act}
    (hrun : Reaches Taken Allowed w as w') (hcount : l₁.length < deQueues t as) :
    ∃ bs cs u, as = bs ++ .deQueue t :: cs ∧ deQueues t bs = l₁.length ∧ Reaches Taken Allowed w (bs ++ [.deQueue t]) u ∧
      u.thread t = .running x none := by
  induction hrun generalizing place queued l₁ l₂ with
  | nil s => exact absurd hcount (Nat.not_lt_zero _)
  | @cons s s' u a as allowed taken rest ih =>
    obtain ⟨place', queued', hs', hstep⟩ := h.step allowed taken
    by_cases ha : a = .deQueue t
    · subst ha
      obtain ⟨htail, hruns⟩ := hstep.taken t rfl
      cases l₁ with
      | nil => exact ⟨[], as, s', rfl, rfl, .cons allowed taken (.nil s'), hruns x (by rw [hq]; rfl)⟩
      | cons y l₁ =>
        have hq' : queued' t = l₁ ++ x :: l₂ := by
          rw [htail, hq]
          rfl
        have hcount' : l₁.length < deQueues t as := by
          simp only [deQueues, List.count_cons_self, List.length_cons] at hcount ⊢
          omega
        obtain ⟨bs, cs, v, rfl, hbs, hv, hrunning⟩ := ih hs' hq' hcount'
        refine ⟨.deQueue t :: bs, cs, v, rfl, ?_, .cons allowed taken hv, hrunning⟩
        rw [deQueues, List.count_cons_self, ← deQueues, hbs, List.length_cons]
    · obtain ⟨l, hl⟩ := hstep.kept t ha
      have hq' : queued' t = l₁ ++ x :: (l₂ ++ l) := by
        rw [hl, hq]
        simp
      have hcount' : l₁.length < deQueues t as := by
        rwa [deQueues, List.count_cons_of_ne ha, ← deQueues] at hcount
      obtain ⟨bs, cs, v, rfl, hbs, hv, hrunning⟩ := ih hs' hq' hcount'
      refine ⟨a :: bs, cs, v, rfl, ?_, .cons allowed taken hv, hrunning⟩
      rw [deQueues, List.count_cons_of_ne ha, ← deQueues, hbs]

/-- No task is overtaken in its queue: one that has `n` tasks before it is run by the thread at the `n + 1`st time from
there that the thread comes back to its queue. -/
theorem queued_task_runs_in_turn {s u : World} {as bs : List Act} {l₁ l₂ : List ℕ} (hstart : Start w)
    (hrun : Reaches Taken Allowed w as s) (hq : s.queueOf t = l₁ ++ x :: l₂)
    (hrest : Reaches Taken Allowed s bs u) (hcount : l₁.length < deQueues t bs) :
    ∃ cs ds v, bs = cs ++ .deQueue t :: ds ∧ deQueues t cs = l₁.length ∧
      Reaches Taken Allowed s (cs ++ [.deQueue t]) v ∧ v.thread t = .running x none := by
  obtain ⟨place, queued, hs⟩ := hstart.sound.run hrun
  rw [hs.queueOf] at hq
  exact hs.queue_run hq hrest hcount

/-- With tasks 7, 9 and 11 in its queue thread 1 runs one after the other, while task 9 is signalled again in its `Run`,
and task 7 as soon as it sleeps. -/
def exampleTurns : List Act :=
  [.check 1, .deQueue 1, .readEvents 1, .clearEvents 1, .ret 1 0, .settle 1, .signal 12 kReadEvent, .schedule 12,
    .signal 7 kWriteEvent, .schedule 7, .enQueue 1 7, .check 1, .deQueue 1, .signal 9 kWriteEvent, .enQueue 0 12,
    .ret 1 100, .settle 1, .idleEvent 1, .check 1, .deQueue 1]

theorem queued_task_runs_in_turn_example :
    ∃ cs ds v, exampleTurns = cs ++ .deQueue 1 :: ds ∧ deQueues 1 cs = 2 ∧
      Reaches Taken Allowed (exampleStart.after signalled) (cs ++ [.deQueue 1]) v ∧ v.thread 1 = .running 11 none :=
  have hrun : Reaches Taken Allowed exampleStart signalled (exampleStart.after signalled) :=
    reaches_after (by decide +kernel) (by decide +kernel)
  have hq : (exampleStart.after signalled).queueOf 1 = [7, 9] ++ 11 :: [] := by decide +kernel
  have hrest : Reaches Taken Allowed (exampleStart.after signalled) exampleTurns
      ((exampleStart.after signalled).after exampleTurns) := reaches_after (by decide +kernel) (by decide +kernel)
  queued_task_runs_in_turn exampleStart_start hrun hq hrest (by decide +kernel)

end Tefs.DataServer.TaskThreads
