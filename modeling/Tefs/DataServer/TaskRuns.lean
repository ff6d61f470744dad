import Tefs.DataServer.TaskThreads

/-! # What task threads and signals keep, in any order of their steps

A task is at one place at most: in a `Signal` call that is about to pick a thread for it or has picked one, in one queue,
in one timer heap, or in the hands of one thread. It is at one exactly as long as its alive bit is set, and a task that
asks for a thread is with no other one. `Sound` says so, and every step keeps it; the results about whole runs follow.
-/

namespace Tefs.DataServer.TaskThreads
open OSHeaps OSQueues Runs
set_option autoImplicit false

/-! ## Event masks -/

/-- Events to take away that are all set go, and no other bit changes. -/
theorem getLsbD_sub {e f : EventFlags} (h : e &&& f = e) (i : ℕ) : (f - e).getLsbD i = (f.getLsbD i && !e.getLsbD i) := by
  have hsub : ∀ j, e.getLsbD j = true → f.getLsbD j = true := by
    intro j hj
    rw [← h, BitVec.getLsbD_and, Bool.and_eq_true] at hj
    exact hj.2
  have hdisj : (f &&& ~~~e) &&& e = 0 := by
    rw [BitVec.and_assoc, BitVec.and_comm (~~~e) e]
    simp
  have hsum : (f &&& ~~~e) + e = f := by
    rw [BitVec.add_eq_or_of_and_eq_zero _ _ hdisj]
    apply BitVec.eq_of_getLsbD_eq
    intro j hj
    rw [BitVec.getLsbD_or, BitVec.getLsbD_and, BitVec.getLsbD_not]
    cases he : e.getLsbD j with
    | false => simp only [hj, decide_true, Bool.not_false, Bool.and_true, Bool.or_false]
    | true => rw [hsub j he, Bool.or_true]
  have hdiff : f - e = f &&& ~~~e := by
    calc f - e = (f &&& ~~~e) + e - e := by rw [hsum]
      _ = f &&& ~~~e := BitVec.add_sub_cancel _ _
  rw [hdiff, BitVec.getLsbD_and, BitVec.getLsbD_not]
  by_cases hi : i < 32
  · simp [hi]
  · simp [BitVec.getLsbD_of_ge f i (by omega)]

theorem kAlive_getLsbD (i : ℕ) : kAlive.getLsbD i = decide (i = 31) := by
  by_cases hi : i < 32
  · exact (by decide : ∀ j : Fin 32, kAlive.getLsbD j = decide (j.val = 31)) ⟨i, hi⟩
  · rw [BitVec.getLsbD_of_ge _ _ (by omega), eq_comm, decide_eq_false_iff_not]
    omega

theorem kAliveOff_getLsbD (i : ℕ) : kAliveOff.getLsbD i = decide (i < 31) := by
  by_cases hi : i < 32
  · exact (by decide : ∀ j : Fin 32, kAliveOff.getLsbD j = decide (j.val < 31)) ⟨i, hi⟩
  · rw [BitVec.getLsbD_of_ge _ _ (by omega), eq_comm, decide_eq_false_iff_not]
    omega

theorem and_kAlive_eq_zero_iff {f : EventFlags} : f &&& kAlive = 0 ↔ f.getLsbD 31 = false := by
  constructor
  · intro h
    have hbit := congrArg (fun v => v.getLsbD 31) h
    simp only [BitVec.getLsbD_and, kAlive_getLsbD, decide_true, Bool.and_true] at hbit
    exact hbit
  · intro h
    apply BitVec.eq_of_getLsbD_eq
    intro i _
    rw [BitVec.getLsbD_and, kAlive_getLsbD]
    by_cases hi : i = 31
    · rw [hi, h]
      rfl
    · rw [decide_eq_false hi, Bool.and_false]
      exact BitVec.getLsbD_zero.symm

/-! ## Places -/

inductive Place
  | nowhere
  | signalling
  | picked (thread : ℕ)
  | queue (thread : ℕ)
  | heap (thread : ℕ)
  | hands (thread : ℕ)
  deriving DecidableEq, Repr

/-- The thread a place belongs to -/
def Place.thread? : Place → Option ℕ
  | .picked t => some t
  | .queue t => some t
  | .heap t => some t
  | .hands t => some t
  | _ => none

def Task.alive (T : Task) : Prop := T.fEvents.getLsbD 31 = true

/-- What holds of a task at its place, in a pool of `n` threads -/
structure TaskSound (n : ℕ) (p : Place) (T : Task) : Prop where
  alive : p ≠ .nowhere ↔ T.alive ∧ T.deleted = false
  events : ∀ i, T.fEvents.getLsbD i = true → T.alive
  asks : ∀ t, T.Asks t → t < n ∧ ∀ t', p.thread? = some t' → t' = t
  agree : ∀ t t', T.fUseThisThread = some t → T.fDefaultThread = some t' → t = t'
  exists_thread : ∀ t, p.thread? = some t → t < n

/-- The queues, the heaps, the hands of the threads and the unfinished signals hold the tasks that are there. -/
structure Placed (w : World) (place : ℕ → Place) (queued : ℕ → List ℕ) : Prop where
  heaps : w.heaps.Sound
  queues : HoldsFifo w.queues fun t => (queued t).map fTaskQueueElem
  sentinel : w.queues.fSentinel = fSentinel
  nodup : w.signalling.Nodup
  signalling : ∀ x, x ∈ w.signalling ↔ place x = .signalling
  picked_nodup : w.picked.Nodup
  picked : ∀ t x, (x, t) ∈ w.picked ↔ place x = .picked t
  queue : ∀ t x, x ∈ queued t ↔ place x = .queue t
  heap : ∀ t x, (w.heaps.elem x).fCurrentHeap = some t ↔ place x = .heap t
  hands : ∀ t x, (w.thread t).holds = some x ↔ place x = .hands t
  inserted : ∀ t x, w.thread t = .inserted x → place x = .heap t

/-- What a `GetEvents` under way has read is still set. -/
def Reading (w : World) : Prop :=
  ∀ t x e, w.thread t = .running x (some e) → e &&& (w.task x).fEvents = e ∧ e.getLsbD 31 = false

structure Sound (w : World) (place : ℕ → Place) (queued : ℕ → List ℕ) : Prop extends Placed w place queued where
  tasks : ∀ x, TaskSound w.pool.sNumTaskThreads (place x) (w.task x)
  reading : Reading w
  fault : w.fault = false

/-! ## What changes with one task -/

namespace World

variable {w : World} {x y t : ℕ} {f : Task → Task} {pc : Pc}

@[simp] theorem setTask_task_self : (w.setTask x f).task x = f (w.task x) := Function.update_self ..

theorem setTask_task_of_ne (h : y ≠ x) : (w.setTask x f).task y = w.task y := Function.update_of_ne h ..

@[simp] theorem setTask_pool : (w.setTask x f).pool = w.pool := rfl

@[simp] theorem setTask_thread : (w.setTask x f).thread = w.thread := rfl

@[simp] theorem setTask_fault : (w.setTask x f).fault = (w.fault || (w.task x).deleted) := rfl

@[simp] theorem setThread_thread_self : (w.setThread t pc).thread t = pc := Function.update_self ..

theorem setThread_thread_of_ne {t' : ℕ} (h : t' ≠ t) : (w.setThread t pc).thread t' = w.thread t' :=
  Function.update_of_ne h ..

@[simp] theorem setThread_task : (w.setThread t pc).task = w.task := rfl

@[simp] theorem setThread_pool : (w.setThread t pc).pool = w.pool := rfl

@[simp] theorem setThread_fault : (w.setThread t pc).fault = w.fault := rfl

end World

/-- A container holds what is at its place, and only `x` goes somewhere else. -/
theorem iff_update {place : ℕ → Place} {S S' : ℕ → Prop} {p p' : Place} {x : ℕ} (h : ∀ y, S y ↔ place y = p)
    (hne : ∀ y, y ≠ x → (S' y ↔ S y)) (hx : S' x ↔ p' = p) (y : ℕ) : S' y ↔ Function.update place x p' y = p := by
  by_cases hy : y = x
  · rw [hy, Function.update_self]
    exact hx
  · rw [Function.update_of_ne hy, hne y hy]
    exact h y

theorem map_update (queued : ℕ → List ℕ) (t : ℕ) (l : List ℕ) (f : ℕ → ℕ) :
    (fun t' => (Function.update queued t l t').map f) = Function.update (fun t' => (queued t').map f) t (l.map f) := by
  funext t'
  by_cases ht : t' = t
  · rw [ht, Function.update_self, Function.update_self]
  · rw [Function.update_of_ne ht, Function.update_of_ne ht]

variable {w w' : World} {place : ℕ → Place} {queued : ℕ → List ℕ} {x t : ℕ}

/-- Nothing changes its place. -/
theorem Placed.frame (h : Placed w place queued) (hheaps : w'.heaps = w.heaps) (hqueues : w'.queues = w.queues)
    (hsignalling : w'.signalling = w.signalling) (hpicked : w'.picked = w.picked)
    (hholds : ∀ t, (w'.thread t).holds = (w.thread t).holds)
    (hinserted : ∀ t x, w'.thread t = .inserted x → w.thread t = .inserted x) : Placed w' place queued where
  heaps := hheaps ▸ h.heaps
  queues := hqueues ▸ h.queues
  sentinel := hqueues ▸ h.sentinel
  nodup := hsignalling ▸ h.nodup
  signalling := hsignalling ▸ h.signalling
  picked_nodup := hpicked ▸ h.picked_nodup
  picked := hpicked ▸ h.picked
  queue := h.queue
  heap := hheaps ▸ h.heap
  hands t x := by
    rw [hholds]
    exact h.hands t x
  inserted t x hx := h.inserted t x (hinserted t x hx)

theorem Placed.setTask (h : Placed w place queued) (x : ℕ) (f : Task → Task) : Placed (w.setTask x f) place queued :=
  h.frame rfl rfl rfl rfl (fun _ => rfl) fun _ _ hx => hx

/-- A thread that holds what it held. -/
theorem Placed.setThread (h : Placed w place queued) {pc : Pc} (hholds : pc.holds = (w.thread t).holds)
    (hinserted : ∀ x, pc ≠ .inserted x) : Placed (w.setThread t pc) place queued := by
  refine h.frame rfl rfl rfl rfl (fun t' => ?_) fun t' x hx => ?_
  · by_cases ht : t' = t
    · rw [ht, World.setThread_thread_self, hholds]
    · rw [World.setThread_thread_of_ne ht]
  · by_cases ht : t' = t
    · rw [ht, World.setThread_thread_self] at hx
      exact absurd hx (hinserted x)
    · rwa [World.setThread_thread_of_ne ht] at hx

/-- A thread between its heap and the idle event still has its task in the heap when a task of no heap goes elsewhere. -/
theorem Placed.inserted_update (h : Placed w place queued) {y : ℕ} (hx : place x ≠ .heap t) (hy : w.thread t = .inserted y)
    (p : Place) : Function.update place x p y = .heap t := by
  have hheap := h.inserted t y hy
  rwa [Function.update_of_ne]
  rintro rfl
  exact hx hheap

/-! ### Tasks -/

namespace TaskSound

variable {n : ℕ} {p : Place} {T : Task}

theorem not_deleted (h : TaskSound n p T) (hp : p ≠ .nowhere) : T.deleted = false := (h.alive.mp hp).2

theorem setEvents (h : TaskSound n p T) {f : EventFlags} (halive : f.getLsbD 31 = T.fEvents.getLsbD 31)
    (hbits : ∀ i, f.getLsbD i = true → f.getLsbD 31 = true) : TaskSound n p { T with fEvents := f } := by
  refine ⟨?_, hbits, h.asks, h.agree, h.exists_thread⟩
  rw [h.alive]
  show _ ↔ f.getLsbD 31 = true ∧ _
  rw [halive]
  rfl

theorem setUse (h : TaskSound n p T) {use : Option ℕ}
    (huse : ∀ t, use = some t → t < n ∧ ∀ t', p.thread? = some t' → t' = t)
    (hagree : ∀ t t', use = some t → T.fDefaultThread = some t' → t = t') :
    TaskSound n p { T with fUseThisThread := use } :=
  ⟨h.alive, h.events, fun t ht => ht.elim (huse t) fun hdefault => h.asks t (.inr hdefault), hagree, h.exists_thread⟩

theorem setUse_none (h : TaskSound n p T) : TaskSound n p { T with fUseThisThread := none } :=
  h.setUse (fun _ heq => by cases heq) fun _ _ heq => by cases heq

/-- The thread a `Signal` takes is the one that the task must be on. -/
theorem asks_iff (h : TaskSound n p T) {t : ℕ} : T.Asks t ↔ T.useThisThread = some t := by
  rw [Task.Asks, Task.useThisThread]
  cases hdefault : T.fDefaultThread with
  | none => simp
  | some d =>
    cases huse : T.fUseThisThread with
    | none => simp
    | some u =>
      have hud : u = d := h.agree u d huse hdefault
      simp [hud]

/-- A task at one place goes to another one. -/
theorem move (h : TaskSound n p T) (hp : p ≠ .nowhere) {p' : Place} (hp' : p' ≠ .nowhere)
    (hthread : ∀ t, p'.thread? = some t → t < n ∧ ∀ t', T.Asks t' → t = t') : TaskSound n p' T := by
  refine ⟨?_, h.events, fun t ht => ⟨(h.asks t ht).1, fun t' ht' => (hthread t' ht').2 t ht⟩, h.agree, fun t ht =>
    (hthread t ht).1⟩
  exact ⟨fun _ => h.alive.mp hp, fun _ => hp'⟩

/-- It stays with its thread. -/
theorem move_same (h : TaskSound n p T) {p' : Place} {t : ℕ} (hp : p.thread? = some t) (hp' : p'.thread? = some t) :
    TaskSound n p' T := by
  have hne : ∀ {q : Place}, q.thread? = some t → q ≠ .nowhere := by
    rintro q hq rfl
    cases hq
  refine h.move (hne hp) (hne hp') fun t' ht' => ?_
  obtain rfl : t = t' := Option.some.inj (hp'.symm.trans ht')
  exact ⟨h.exists_thread t hp, fun t' hask => (h.asks t' hask).2 t hp⟩

end TaskSound

/-- The tasks after one of them went somewhere else -/
theorem tasks_place {n : ℕ} (h : ∀ y, TaskSound n (place y) (w.task y)) {p : Place} (hx : TaskSound n p (w.task x))
    (y : ℕ) : TaskSound n (Function.update place x p y) (w.task y) := by
  by_cases hy : y = x
  · rw [hy, Function.update_self]
    exact hx
  · rw [Function.update_of_ne hy]
    exact h y

/-- The tasks after a change of one of them, which may have changed its place. -/
theorem tasks_update {n : ℕ} (h : ∀ y, TaskSound n (place y) (w.task y)) {p : Place} {f : Task → Task}
    (hx : TaskSound n p (f (w.task x))) (y : ℕ) :
    TaskSound n (Function.update place x p y) ((w.setTask x f).task y) := by
  by_cases hy : y = x
  · rw [hy, Function.update_self, World.setTask_task_self]
    exact hx
  · rw [Function.update_of_ne hy, World.setTask_task_of_ne hy]
    exact h y

theorem tasks_setTask {n : ℕ} (h : ∀ y, TaskSound n (place y) (w.task y)) {f : Task → Task}
    (hx : TaskSound n (place x) (f (w.task x))) (y : ℕ) : TaskSound n (place y) ((w.setTask x f).task y) := by
  have hy := tasks_update h hx y
  rwa [Function.update_eq_self] at hy

/-- Events that only grow, and threads that read no more than they did. -/
theorem Reading.mono (h : Reading w)
    (hthread : ∀ t x e, w'.thread t = .running x (some e) → w.thread t = .running x (some e))
    (hgrow : ∀ t x e, w'.thread t = .running x (some e) → ∀ i, (w.task x).fEvents.getLsbD i = true →
      (w'.task x).fEvents.getLsbD i = true) : Reading w' := by
  intro t x e ht
  obtain ⟨hsub, halive⟩ := h t x e (hthread t x e ht)
  refine ⟨?_, halive⟩
  apply BitVec.eq_of_getLsbD_eq
  intro i _
  rw [BitVec.getLsbD_and]
  cases he : e.getLsbD i with
  | false => rfl
  | true =>
    have hold : (w.task x).fEvents.getLsbD i = true := by
      rw [← hsub, BitVec.getLsbD_and, Bool.and_eq_true] at he
      exact he.2
    rw [hgrow t x e ht i hold]
    rfl

/-! ## One step -/

theorem orEvents_alive (events : EventFlags) (T : Task) : (T.orEvents (events ||| kAlive)).fEvents.getLsbD 31 = true := by
  rw [Task.orEvents, BitVec.getLsbD_or, BitVec.getLsbD_or, kAlive_getLsbD]
  simp only [decide_true, Bool.or_true]

theorem orEvents_grow (events : EventFlags) {y : ℕ} (i : ℕ) (h : (w.task y).fEvents.getLsbD i = true) :
    ((w.setTask x (.orEvents events)).task y).fEvents.getLsbD i = true := by
  by_cases hy : y = x
  · rw [hy] at h ⊢
    rw [World.setTask_task_self, Task.orEvents, BitVec.getLsbD_or, h]
    rfl
  · rwa [World.setTask_task_of_ne hy]

theorem signal_of_alive {events : EventFlags} (h : (w.task x).fEvents.getLsbD 31 = true) :
    w.signal x events = w.setTask x (.orEvents (events ||| kAlive)) :=
  if_neg fun hand => Bool.noConfusion ((and_kAlive_eq_zero_iff.mp hand.1).symm.trans h)

theorem signal_of_not_alive {events : EventFlags} (h : (w.task x).fEvents.getLsbD 31 = false)
    (hpool : 0 < w.pool.sNumTaskThreads) :
    w.signal x events = { w.setTask x (.orEvents (events ||| kAlive)) with signalling := x :: w.signalling } :=
  if_pos ⟨and_kAlive_eq_zero_iff.mpr h, hpool⟩

namespace Sound

/-- A task in somebody's hands is read by nobody else. -/
theorem reader_eq (h : Sound w place queued) (ht : (w.thread t).holds = some x) {t' : ℕ} {e : EventFlags}
    (ht' : w.thread t' = .running x (some e)) : t' = t := by
  have hplace := (h.hands t x).mp ht
  have hplace' := (h.hands t' x).mp (by rw [ht']; rfl)
  rw [hplace] at hplace'
  exact (Place.hands.inj hplace').symm

theorem not_deleted (h : Sound w place queued) (hx : place x ≠ .nowhere) : (w.task x).deleted = false :=
  (h.tasks x).not_deleted hx

theorem hands_ne (h : Sound w place queued) (ht : (w.thread t).holds = some x) : place x ≠ .nowhere := by
  rw [(h.hands t x).mp ht]
  exact Place.noConfusion

theorem tick (h : Sound w place queued) (msec : ℕ) : Sound { w with clock := w.clock + msec } place queued where
  toPlaced := h.toPlaced.frame rfl rfl rfl rfl (fun _ => rfl) fun _ _ hx => hx
  tasks := h.tasks
  reading := h.reading
  fault := h.fault

theorem signal (h : Sound w place queued) (hx : (w.task x).deleted = false) (events : EventFlags)
    (hpool : 0 < w.pool.sNumTaskThreads) : ∃ place', Sound (w.signal x events) place' queued := by
  have hbit := orEvents_alive events (w.task x)
  have hfault : (w.setTask x (.orEvents (events ||| kAlive))).fault = false := by
    rw [World.setTask_fault, h.fault, hx]
    rfl
  have hreading : Reading (w.setTask x (.orEvents (events ||| kAlive))) :=
    h.reading.mono (fun _ _ _ ht => ht) fun _ _ _ _ => orEvents_grow _
  cases halive : (w.task x).fEvents.getLsbD 31 with
  | true =>
    refine ⟨place, ?_⟩
    rw [signal_of_alive halive]
    exact ⟨h.toPlaced.setTask x _, tasks_setTask h.tasks ((h.tasks x).setEvents (hbit.trans halive.symm) fun _ _ => hbit),
      hreading, hfault⟩
  | false =>
    have hnow : place x = .nowhere := by
      by_contra hne
      have := ((h.tasks x).alive.mp hne).1
      rw [Task.alive, halive] at this
      exact Bool.noConfusion this
    have hout : x ∉ w.signalling := by
      rw [h.signalling, hnow]
      exact Place.noConfusion
    refine ⟨Function.update place x .signalling, ?_⟩
    rw [signal_of_not_alive halive hpool]
    refine ⟨⟨h.heaps, h.queues, h.sentinel, List.nodup_cons.mpr ⟨hout, h.nodup⟩, ?_, h.picked_nodup, fun t => ?_,
      fun t => ?_, fun t => ?_, fun t => ?_, fun t y hy => ?_⟩, ?_, hreading, hfault⟩
    · exact iff_update h.signalling (fun y hy => by simp [hy]) (by simp)
    · exact iff_update (h.picked t) (fun _ _ => Iff.rfl) (by simp [World.setTask, h.picked, hnow])
    · exact iff_update (h.queue t) (fun _ _ => Iff.rfl) (by simp [h.queue, hnow])
    · exact iff_update (h.heap t) (fun _ _ => Iff.rfl) (by simp [World.setTask, h.heap, hnow])
    · exact iff_update (h.hands t) (fun _ _ => Iff.rfl) (by simp [h.hands, hnow])
    · exact h.inserted_update (by rw [hnow]; exact Place.noConfusion) hy _
    · refine tasks_update h.tasks ⟨?_, fun _ _ => hbit, fun t ht => ⟨((h.tasks x).asks t ht).1, by simp [Place.thread?]⟩,
        (h.tasks x).agree, by simp [Place.thread?]⟩
      exact ⟨fun _ => ⟨hbit, hx⟩, fun _ => Place.noConfusion⟩

/-- A change of one task that stays where it is. -/
theorem setTask (h : Sound w place queued) {f : Task → Task} (hp : place x ≠ .nowhere)
    (hx : TaskSound w.pool.sNumTaskThreads (place x) (f (w.task x)))
    (hgrow : ∀ i, (w.task x).fEvents.getLsbD i = true → (f (w.task x)).fEvents.getLsbD i = true) :
    Sound (w.setTask x f) place queued := by
  refine ⟨h.toPlaced.setTask x f, tasks_setTask h.tasks hx, ?_, ?_⟩
  · refine h.reading.mono (fun _ _ _ ht => ht) fun _ y _ _ i hi => ?_
    by_cases hy : y = x
    · rw [hy] at hi ⊢
      rw [World.setTask_task_self]
      exact hgrow i hi
    · rwa [World.setTask_task_of_ne hy]
  · rw [World.setTask_fault, h.fault, h.not_deleted hp]
    rfl

/-- A `Signal` has a thread for its task. -/
theorem pick (h : Sound w place queued) (hx : place x = .signalling) (ht : t < w.pool.sNumTaskThreads)
    (hask : ∀ t', (w.task x).Asks t' → t = t') : Sound (w.pick t x) (Function.update place x (.picked t)) queued := by
  have hout : ∀ t', (x, t') ∉ w.picked := by
    intro t' hin
    rw [h.picked, hx] at hin
    cases hin
  refine ⟨⟨h.heaps, h.queues, h.sentinel, h.nodup.erase x, ?_, List.nodup_cons.mpr ⟨hout t, h.picked_nodup⟩, fun t' => ?_,
    fun t' => ?_, fun t' => ?_, fun t' => ?_, fun t' y hy => ?_⟩, ?_, h.reading, h.fault⟩
  · exact iff_update h.signalling (fun y hy => List.mem_erase_of_ne hy)
      (iff_of_false h.nodup.not_mem_erase Place.noConfusion)
  · refine iff_update (h.picked t') (fun y hy => ?_) ?_
    · simp [World.pick, hy]
    · rw [World.pick, List.mem_cons, Place.picked.injEq, Prod.mk.injEq]
      simp [hout t', eq_comm]
  · exact iff_update (h.queue t') (fun _ _ => Iff.rfl) (by simp [h.queue, hx])
  · exact iff_update (h.heap t') (fun _ _ => Iff.rfl) (by simp [World.pick, h.heap, hx])
  · exact iff_update (h.hands t') (fun _ _ => Iff.rfl) (by simp [World.pick, h.hands, hx])
  · exact h.inserted_update (by rw [hx]; exact Place.noConfusion) hy _
  · refine tasks_place h.tasks ((h.tasks x).move (by rw [hx]; exact Place.noConfusion) Place.noConfusion fun t' ht' => ?_)
    obtain rfl : t = t' := by simpa [Place.thread?] using ht'
    exact ⟨ht, hask⟩

/-- A `Signal` puts its task into the queue of the thread it has picked. -/
theorem enQueue (h : Sound w place queued) (hin : (x, t) ∈ w.picked) :
    Sound (w.enQueue t x) (Function.update place x (.queue t)) (Function.update queued t (queued t ++ [x])) := by
  have hx : place x = .picked t := (h.picked t x).mp hin
  have hinj : Function.Injective fTaskQueueElem := fun a b hab => by
    simp only [fTaskQueueElem] at hab
    omega
  have hout : ∀ t', x ∉ queued t' := by
    intro t' hin
    rw [h.queue, hx] at hin
    cases hin
  have hfree : w.queues.fQueue (fTaskQueueElem x) = none := by
    by_contra hsome
    obtain ⟨t', ht'⟩ := Option.ne_none_iff_exists'.mp hsome
    rw [← h.queues.queue, List.mem_reverse, List.mem_map_of_injective hinj] at ht'
    exact hout t' ht'
  have hsent : ∀ q, w.queues.fSentinel q ≠ fTaskQueueElem x := by
    intro q hq
    rw [h.sentinel] at hq
    simp only [fSentinel, fTaskQueueElem] at hq
    omega
  have hallowed : OSQueues.Allowed w.queues (.enQueue t (fTaskQueueElem x)) := ⟨.inr hfree, hsent⟩
  have hqueues := (h.queues.apply hallowed).2
  have hnew : ∀ t', x ∈ Function.update queued t (queued t ++ [x]) t' ↔ t' = t := by
    intro t'
    by_cases heq : t' = t
    · rw [heq, Function.update_self]
      simp
    · rw [Function.update_of_ne heq]
      exact ⟨fun hin => absurd hin (hout t'), fun hin => absurd hin heq⟩
  refine ⟨⟨h.heaps, ?_, ?_, h.nodup, ?_, h.picked_nodup.erase _, fun t' => ?_, fun t' => ?_, fun t' => ?_, fun t' => ?_,
    fun t' y hy => ?_⟩, ?_, h.reading, h.fault⟩
  · have hlists : (OSQueues.fifoApply (.enQueue t (fTaskQueueElem x)) fun t => (queued t).map fTaskQueueElem).2 =
        fun t' => (Function.update queued t (queued t ++ [x]) t').map fTaskQueueElem := by
      have hnot : fTaskQueueElem x ∉ (queued t).map fTaskQueueElem := by
        rw [List.mem_map_of_injective hinj]
        exact hout t
      rw [OSQueues.fifoApply, if_neg hnot, map_update, List.map_append, List.map_singleton]
    rwa [hlists] at hqueues
  · show (w.queues.enQueue t (fTaskQueueElem x)).fSentinel = fSentinel
    rw [Queues.enQueue, if_neg (by simp [hfree])]
    exact h.sentinel
  · refine iff_update h.signalling (fun _ _ => Iff.rfl) (iff_of_false ?_ Place.noConfusion)
    rw [World.enQueue, h.signalling, hx]
    exact Place.noConfusion
  · refine iff_update (h.picked t') (fun y hy => ?_) (iff_of_false (fun hin' => ?_) Place.noConfusion)
    · exact List.mem_erase_of_ne fun heq => hy (Prod.mk.inj heq).1
    · -- a task has one thread picked
      obtain rfl : t = t' := Place.picked.inj (hx.symm.trans ((h.picked t' x).mp (List.mem_of_mem_erase hin')))
      exact h.picked_nodup.not_mem_erase hin'
  · refine iff_update (h.queue t') (fun y hy => ?_) ((hnew t').trans ?_)
    · by_cases heq : t' = t
      · rw [heq, Function.update_self]
        simp [hy]
      · rw [Function.update_of_ne heq]
    · rw [Place.queue.injEq, eq_comm]
  · refine iff_update (h.heap t') (fun _ _ => Iff.rfl) (iff_of_false ?_ Place.noConfusion)
    rw [World.enQueue, h.heap, hx]
    exact Place.noConfusion
  · refine iff_update (h.hands t') (fun _ _ => Iff.rfl) (iff_of_false ?_ Place.noConfusion)
    rw [World.enQueue, h.hands, hx]
    exact Place.noConfusion
  · exact h.inserted_update (by rw [hx]; exact Place.noConfusion) hy _
  · exact tasks_place h.tasks ((h.tasks x).move_same (t := t) (by rw [hx]; rfl) rfl)

theorem pickThread (h : Sound w place queued) (blocking : Bool) :
    (w.pickThread blocking).1 < w.pool.sNumTaskThreads ∧ Sound (w.pickThread blocking).2 place queued ∧
      (w.pickThread blocking).2.task = w.task ∧ (w.pickThread blocking).2.pool = w.pool := by
  cases blocking with
  | false =>
    refine ⟨?_, ⟨h.toPlaced.frame rfl rfl rfl rfl (fun _ => rfl) fun _ _ hx => hx, h.tasks, h.reading, h.fault⟩, rfl, rfl⟩
    have hmod := Nat.mod_lt (w.sShortTaskThreadPicker + 1).toNat w.pool.short_pos
    show (w.sShortTaskThreadPicker + 1).toNat % w.pool.sNumShortTaskThreads < _
    rw [Pool.sNumTaskThreads]
    omega
  | true =>
    refine ⟨?_, ⟨h.toPlaced.frame rfl rfl rfl rfl (fun _ => rfl) fun _ _ hx => hx, h.tasks, h.reading, h.fault⟩, rfl, rfl⟩
    have hmod := Nat.mod_lt (w.sBlockingTaskThreadPicker + 1).toNat w.pool.blocking_pos
    show (w.sBlockingTaskThreadPicker + 1).toNat % w.pool.sNumBlockingTaskThreads + w.pool.sNumShortTaskThreads < _
    rw [Pool.sNumTaskThreads]
    omega

theorem schedule (h : Sound w place queued) (hx : x ∈ w.signalling) :
    ∃ t, Sound (w.schedule x) (Function.update place x (.picked t)) queued := by
  have hplace := (h.signalling x).mp hx
  have hne : place x ≠ .nowhere := by
    rw [hplace]
    exact Place.noConfusion
  have hset : Sound (w.setTask x (.setUseThisThread (w.task x).useThisThread)) place queued := by
    refine h.setTask hne ((h.tasks x).setUse (fun t ht => ⟨?_, ?_⟩) fun t t' ht ht' => ?_) fun _ hi => hi
    · exact ((h.tasks x).asks t ((h.tasks x).asks_iff.mpr ht)).1
    · rw [hplace]
      simp [Place.thread?]
    · have hdefault := (h.tasks x).asks_iff.mp (.inr ht')
      exact Option.some.inj (ht.symm.trans hdefault)
  -- the task asks for that thread and no other one now
  have hask : ∀ {t}, ((w.setTask x (.setUseThisThread (w.task x).useThisThread)).task x).Asks t →
      (w.task x).useThisThread = some t := by
    intro t ht
    rw [World.setTask_task_self] at ht
    exact ht.elim id fun hdefault => (h.tasks x).asks_iff.mp (.inr hdefault)
  rw [World.schedule]
  cases hsome : (w.task x).useThisThread with
  | some t =>
    rw [hsome] at hset hask
    refine ⟨t, hset.pick hplace ?_ fun t' ht' => Option.some.inj (hask ht')⟩
    exact ((h.tasks x).asks t ((h.tasks x).asks_iff.mpr hsome)).1
  | none =>
    rw [hsome] at hset hask
    set blocking := ((w.setTask x (.setUseThisThread none)).task x).blocking
    obtain ⟨hlt, hpicked, htask, hpool⟩ := hset.pickThread blocking
    refine ⟨_, hpicked.pick hplace (by rw [hpool]; exact hlt) fun t' ht' => ?_⟩
    rw [htask] at ht'
    cases hask ht'

/-- A thread that holds nothing takes a task out of its heap or its queue, and runs it. -/
theorem take (h : Sound w place queued) (hx : (place x).thread? = some t) (hpicked : ∀ t', place x ≠ .picked t')
    (hnone : (w.thread t).holds = none) (hinserted : ∀ y, w.thread t ≠ .inserted y) {heaps : Heaps}
    (hheaps : heaps.Sound)
    (hheap : ∀ q y, (heaps.elem y).fCurrentHeap = some q ↔ Function.update place x (.hands t) y = .heap q)
    {queues : Queues} {queued' : ℕ → List ℕ} (hqueues : HoldsFifo queues fun t => (queued' t).map fTaskQueueElem)
    (hsentinel : queues.fSentinel = fSentinel)
    (hqueue : ∀ q y, y ∈ queued' q ↔ Function.update place x (.hands t) y = .queue q) :
    Sound (World.beginRun t x { w with heaps := heaps, queues := queues }) (Function.update place x (.hands t)) queued' := by
  have hne : place x ≠ .nowhere := by
    intro heq
    rw [heq] at hx
    cases hx
  have hnot : place x ≠ .signalling := by
    intro heq
    rw [heq] at hx
    cases hx
  have hfree : ∀ t', place x ≠ .hands t' := by
    intro t' heq
    rw [heq] at hx
    obtain rfl : t' = t := Option.some.inj hx
    rw [(h.hands t' x).mpr heq] at hnone
    cases hnone
  refine ⟨⟨hheaps, hqueues, hsentinel, h.nodup, ?_, h.picked_nodup, fun t' => ?_, hqueue, hheap, fun t' => ?_,
    fun t' y hy => ?_⟩, ?_, ?_, ?_⟩
  · refine iff_update h.signalling (fun _ _ => Iff.rfl) (iff_of_false ?_ Place.noConfusion)
    show ¬x ∈ w.signalling
    rwa [h.signalling]
  · refine iff_update (h.picked t') (fun _ _ => Iff.rfl) (iff_of_false ?_ Place.noConfusion)
    show ¬(x, t') ∈ w.picked
    rw [h.picked]
    exact hpicked t'
  · by_cases ht : t' = t
    · subst ht
      refine iff_update (S := fun y => (w.thread t').holds = some y) (h.hands t') (fun y hy => ?_) ?_
      · rw [World.beginRun, World.setThread_thread_self, hnone]
        exact iff_of_false (fun heq => hy (Option.some.inj heq).symm) (by simp)
      · rw [World.beginRun, World.setThread_thread_self]
        exact iff_of_true rfl rfl
    · refine iff_update (h.hands t') (fun y _ => ?_) ?_
      · rw [World.beginRun, World.setThread_thread_of_ne ht]
        rfl
      · rw [World.beginRun, World.setThread_thread_of_ne ht]
        refine iff_of_false (fun heq => hfree t' ((h.hands t' x).mp heq)) ?_
        rw [Place.hands.injEq]
        exact Ne.symm ht
  · by_cases ht : t' = t
    · subst ht
      rw [World.beginRun, World.setThread_thread_self] at hy
      cases hy
    · rw [World.beginRun, World.setThread_thread_of_ne ht] at hy
      have hplace := h.inserted t' y hy
      rwa [Function.update_of_ne]
      rintro rfl
      rw [hplace] at hx
      exact ht (Option.some.inj hx)
  · refine tasks_update (w := { w with heaps := heaps, queues := queues }) h.tasks ?_
    exact (h.tasks x).setUse_none.move_same hx rfl
  · refine h.reading.mono (fun t' y e hy => ?_) fun t' y e _ i hi => ?_
    · by_cases ht : t' = t
      · subst ht
        rw [World.beginRun, World.setThread_thread_self] at hy
        cases hy
      · rwa [World.beginRun, World.setThread_thread_of_ne ht] at hy
    · by_cases hyx : y = x
      · rw [hyx] at hi ⊢
        rw [World.beginRun, World.setThread_task, World.setTask_task_self]
        exact hi
      · rw [World.beginRun, World.setThread_task, World.setTask_task_of_ne hyx]
        exact hi
  · rw [World.beginRun, World.setThread_fault, World.setTask_fault]
    show (w.fault || (w.task x).deleted) = false
    rw [h.fault, h.not_deleted hne]
    rfl

/-- A thread that keeps what it holds, and reads no events. -/
theorem setThread (h : Sound w place queued) {pc : Pc} (hholds : pc.holds = (w.thread t).holds)
    (hinserted : ∀ x, pc ≠ .inserted x) (hreading : ∀ x e, pc ≠ .running x (some e)) :
    Sound (w.setThread t pc) place queued := by
  refine ⟨h.toPlaced.setThread hholds hinserted, h.tasks, ?_, h.fault⟩
  refine h.reading.mono (fun t' y e hy => ?_) fun _ _ _ _ _ hi => hi
  by_cases ht : t' = t
  · rw [ht, World.setThread_thread_self] at hy
    exact absurd hy (hreading y e)
  · rwa [World.setThread_thread_of_ne ht] at hy

/-- What the heaps hold, once the least element of one is out. -/
theorem heap_update (h : Sound w place queued) {e : ℕ} {heaps : Heaps} (hheaps : heaps.Sound)
    (hleast : Heaps.Least t e w.heaps heaps) (q : ℕ) :
    ∀ y, (heaps.elem y).fCurrentHeap = some q ↔ Function.update place e (.hands t) y = .heap q := by
  have hout : ∀ q, e ∉ heaps.members q := by
    intro q hin
    by_cases hq : q = t
    · have hnodup := h.heaps.nodup t
      rw [hleast.split, Multiset.nodup_cons] at hnodup
      exact hnodup.1 (hq ▸ hin)
    · rw [hleast.other q hq, h.heaps.current] at hin
      have hmem : e ∈ w.heaps.members t := by
        rw [hleast.split]
        exact Multiset.mem_cons_self _ _
      rw [(h.heaps.current t e).mp hmem] at hin
      exact hq (Option.some.inj hin).symm
  refine iff_update (h.heap q) (fun y hy => ?_) ?_
  · rw [← hheaps.current, ← h.heaps.current]
    by_cases hq : q = t
    · rw [hq, hleast.split, Multiset.mem_cons]
      exact ⟨Or.inr, fun hin => hin.resolve_left hy⟩
    · rw [hleast.other q hq]
  · refine iff_of_false (fun heq => hout q ((hheaps.current q e).mpr heq)) Place.noConfusion

theorem check (h : Sound w place queued) (ht : w.thread t = .top) : ∃ place', Sound (w.check t) place' queued := by
  have hwait : Sound (w.setThread t .waiting) place queued :=
    h.setThread (by rw [ht]; rfl) (fun _ => Pc.noConfusion) fun _ _ => Pc.noConfusion
  rw [World.check]
  cases hpeek : w.heaps.peekMin t with
  | none => exact ⟨place, hwait⟩
  | some e =>
    dsimp only
    split
    · obtain ⟨hheaps, hres, ⟨hempty, -⟩ | ⟨e', he', hleast⟩⟩ := h.heaps.extractMin t
      · rw [h.heaps.peekMin_eq_none_iff.mpr hempty] at hpeek
        cases hpeek
      · have hextract : w.heaps.extractMin t = (some e', (w.heaps.extractMin t).2) := Prod.ext he' rfl
        rw [hextract]
        have hplace : place e' = .heap t := by
          rw [← h.heap, ← h.heaps.current, hleast.split]
          exact Multiset.mem_cons_self _ _
        refine ⟨Function.update place e' (.hands t), ?_⟩
        refine h.take (by rw [hplace]; rfl) (fun _ => by rw [hplace]; exact Place.noConfusion) (by rw [ht]; rfl)
          (fun y => by rw [ht]; exact Pc.noConfusion) hheaps (h.heap_update hheaps hleast) h.queues h.sentinel fun q => ?_
        exact iff_update (h.queue q) (fun _ _ => Iff.rfl) (iff_of_false (by rw [h.queue, hplace]; exact Place.noConfusion)
          Place.noConfusion)
    · exact ⟨place, hwait⟩

theorem deQueue (h : Sound w place queued) (ht : w.thread t = .waiting) :
    (∃ place', Sound (w.deQueue t) place' (Function.update queued t (queued t).tail)) ∧
      ∀ x, (queued t).head? = some x → (w.deQueue t).thread t = .running x none := by
  have hallowed : OSQueues.Allowed w.queues (.deQueue t) := trivial
  have hanswer : (w.queues.deQueue t).1 = ((queued t).map fTaskQueueElem).head? :=
    (h.queues.apply hallowed).1
  have hholds := (h.queues.apply hallowed).2
  have hlists : (OSQueues.fifoApply (.deQueue t) fun t => (queued t).map fTaskQueueElem).2 =
      fun t' => (Function.update queued t (queued t).tail t').map fTaskQueueElem := by
    rw [OSQueues.fifoApply, map_update, List.map_tail]
  have hsentinel : (w.queues.deQueue t).2.fSentinel = fSentinel := by
    rw [Queues.deQueue]
    split
    · exact h.sentinel
    · exact h.sentinel
  rw [hlists] at hholds
  rw [World.deQueue]
  cases hq : queued t with
  | nil =>
    rw [hq] at hanswer hholds
    have hres : w.queues.deQueue t = (none, (w.queues.deQueue t).2) := Prod.ext hanswer rfl
    rw [hres]
    have hsame : Function.update queued t [].tail = queued := by
      rw [List.tail_nil, ← hq, Function.update_eq_self]
    refine ⟨⟨place, ?_⟩, fun x hx => by cases hx⟩
    rw [hsame] at hholds ⊢
    have hqueues : Sound { w with queues := (w.queues.deQueue t).2 } place queued :=
      ⟨⟨h.heaps, hholds, hsentinel, h.nodup, h.signalling, h.picked_nodup, h.picked, h.queue, h.heap, h.hands,
        h.inserted⟩, h.tasks, h.reading, h.fault⟩
    exact hqueues.setThread (by rw [ht]; rfl) (fun _ => Pc.noConfusion) fun _ _ => Pc.noConfusion
  | cons x l =>
    rw [hq] at hanswer hholds
    have hres : w.queues.deQueue t = (some (fTaskQueueElem x), (w.queues.deQueue t).2) := Prod.ext hanswer rfl
    rw [hres]
    have hobject : getEnclosingObject (fTaskQueueElem x) = x := by
      simp only [getEnclosingObject, fTaskQueueElem]
      omega
    have hplace : place x = .queue t := (h.queue t x).mp (by simp [hq])
    have hnodup : (x :: l).Nodup := by
      have hmap : ((queued t).map fTaskQueueElem).Nodup :=
        List.nodup_reverse.mp (h.queues.family.holds t).nodup.of_cons
      exact hq ▸ hmap.of_map
    dsimp only
    rw [hobject]
    refine ⟨⟨Function.update place x (.hands t), ?_⟩, fun y hy => ?_⟩
    case refine_2 =>
      obtain rfl : x = y := Option.some.inj hy
      exact World.setThread_thread_self
    refine h.take (by rw [hplace]; rfl) (fun _ => by rw [hplace]; exact Place.noConfusion) (by rw [ht]; rfl)
      (fun y => by rw [ht]; exact Pc.noConfusion) h.heaps (fun q => ?_) hholds hsentinel fun q => ?_
    · exact iff_update (h.heap q) (fun _ _ => Iff.rfl) (iff_of_false (by rw [h.heap, hplace]; exact Place.noConfusion)
        Place.noConfusion)
    · refine iff_update (h.queue q) (fun y hy => ?_) (iff_of_false ?_ Place.noConfusion)
      · by_cases heq : q = t
        · rw [heq, Function.update_self, hq]
          simp [hy]
        · rw [Function.update_of_ne heq]
      · by_cases heq : q = t
        · rw [heq, Function.update_self]
          exact (List.nodup_cons.mp hnodup).1
        · rw [Function.update_of_ne heq, h.queue, hplace, Place.queue.injEq]
          exact Ne.symm heq

/-- The first half of `GetEvents` -/
theorem readEvents (h : Sound w place queued) (ht : w.thread t = .running x none) :
    Sound ((w.setTask x id).setThread t (.running x (some ((w.task x).fEvents &&& kAliveOff)))) place queued := by
  have hne := h.hands_ne (t := t) (x := x) (by rw [ht]; rfl)
  have hset := h.setTask (f := id) hne (h.tasks x) fun _ hi => hi
  have htask : (w.setTask x id).task = w.task := Function.update_eq_self ..
  refine ⟨hset.toPlaced.setThread (by rw [World.setTask_thread, ht]; rfl) fun _ => Pc.noConfusion, hset.tasks, ?_, hset.fault⟩
  intro t' y e hy
  rw [World.setThread_task, htask]
  by_cases htt : t' = t
  · rw [htt, World.setThread_thread_self] at hy
    obtain ⟨rfl, rfl⟩ : x = y ∧ (w.task x).fEvents &&& kAliveOff = e := by simpa using hy
    refine ⟨?_, ?_⟩
    · rw [BitVec.and_assoc, BitVec.and_comm kAliveOff, ← BitVec.and_assoc, BitVec.and_self]
    · rw [BitVec.getLsbD_and, kAliveOff_getLsbD]
      exact Bool.and_false _
  · rw [World.setThread_thread_of_ne htt] at hy
    exact h.reading t' y e hy

/-- The second half -/
theorem clearEvents (h : Sound w place queued) {e : EventFlags} (ht : w.thread t = .running x (some e)) :
    Sound ((w.setTask x (.subEvents e)).setThread t (.running x none)) place queued := by
  have hholds : (w.thread t).holds = some x := by
    rw [ht]
    rfl
  have hne := h.hands_ne hholds
  obtain ⟨hsub, halive⟩ := h.reading t x e ht
  have hbits : ∀ i, ((w.task x).fEvents - e).getLsbD i = ((w.task x).fEvents.getLsbD i && !e.getLsbD i) :=
    fun i => getLsbD_sub hsub i
  have h31 : ((w.task x).fEvents - e).getLsbD 31 = (w.task x).fEvents.getLsbD 31 := by
    rw [hbits, halive]
    exact Bool.and_true _
  have hlive : (w.task x).fEvents.getLsbD 31 = true := ((h.tasks x).alive.mp hne).1
  refine ⟨(h.toPlaced.setTask x _).setThread (by rw [World.setTask_thread, ht]; rfl) fun _ => Pc.noConfusion, ?_, ?_, ?_⟩
  · exact tasks_setTask h.tasks ((h.tasks x).setEvents h31 fun _ _ => h31.trans hlive)
  · refine h.reading.mono (fun t' y e' hy => ?_) fun t' y e' hy i hi => ?_
    · by_cases htt : t' = t
      · rw [htt, World.setThread_thread_self] at hy
        cases hy
      · rwa [World.setThread_thread_of_ne htt] at hy
    · have htt : t' ≠ t := by
        rintro rfl
        rw [World.setThread_thread_self] at hy
        cases hy
      rw [World.setThread_thread_of_ne htt] at hy
      have hyx : y ≠ x := by
        rintro rfl
        exact htt (h.reader_eq hholds hy)
      rwa [World.setThread_task, World.setTask_task_of_ne hyx]
  · rw [World.setThread_fault, World.setTask_fault, h.fault, h.not_deleted hne]
    rfl

theorem forceSameThread (h : Sound w place queued) (ht : (w.thread t).holds = some x) :
    Sound (w.setTask x (.setUseThisThread (some t))) place queued := by
  have hplace := (h.hands t x).mp ht
  have hthread : (place x).thread? = some t := by
    rw [hplace]
    rfl
  refine h.setTask (h.hands_ne ht) ((h.tasks x).setUse (fun t' ht' => ?_) fun t' d ht' hd => ?_) fun _ hi => hi
  · obtain rfl : t = t' := Option.some.inj ht'
    refine ⟨(h.tasks x).exists_thread t hthread, fun t' ht' => ?_⟩
    rw [hthread] at ht'
    exact (Option.some.inj ht').symm
  · -- a task with a default thread runs on it
    obtain rfl : t = t' := Option.some.inj ht'
    exact ((h.tasks x).asks d (.inr hd)).2 t hthread

theorem idleEvent (h : Sound w place queued) (ht : w.thread t = .inserted x) :
    Sound ((w.setTask x (.orEvents kIdleEvent)).setThread t .top) place queued := by
  have hne : place x ≠ .nowhere := by
    rw [h.inserted t x ht]
    exact Place.noConfusion
  have hgrow : ∀ i, (w.task x).fEvents.getLsbD i = true →
      ((w.task x).orEvents kIdleEvent).fEvents.getLsbD i = true := by
    intro i hi
    rw [Task.orEvents, BitVec.getLsbD_or, hi]
    rfl
  have hlive : (w.task x).fEvents.getLsbD 31 = true := ((h.tasks x).alive.mp hne).1
  have hset : Sound (w.setTask x (.orEvents kIdleEvent)) place queued :=
    h.setTask hne ((h.tasks x).setEvents ((hgrow 31 hlive).trans hlive.symm) fun _ _ => hgrow 31 hlive) hgrow
  exact hset.setThread (by rw [World.setTask_thread, ht]; rfl) (fun _ => Pc.noConfusion) fun _ _ => Pc.noConfusion

/-- A task leaves the hands of its thread for nowhere: it is deleted, or goes to sleep with no event left. -/
theorem leave (h : Sound w place queued) (ht : (w.thread t).holds = some x) {f : Task → Task}
    (hx : ¬((f (w.task x)).alive ∧ (f (w.task x)).deleted = false))
    (hbits : ∀ i, (f (w.task x)).fEvents.getLsbD i = true → (f (w.task x)).alive)
    (huse : (f (w.task x)).fUseThisThread = (w.task x).fUseThisThread)
    (hdefault : (f (w.task x)).fDefaultThread = (w.task x).fDefaultThread) :
    Sound ((w.setTask x f).setThread t .top) (Function.update place x .nowhere) queued := by
  have hplace := (h.hands t x).mp ht
  have hgone : ∀ {p : Place}, (∀ t', p ≠ .hands t') → ¬place x = p := fun hp heq => hp t (heq.symm.trans hplace)
  refine ⟨⟨h.heaps, h.queues, h.sentinel, h.nodup, ?_, h.picked_nodup, fun q => ?_, fun q => ?_, fun q => ?_,
    fun t' => ?_, fun t' y hy => ?_⟩, ?_, ?_, ?_⟩
  · refine iff_update h.signalling (fun _ _ => Iff.rfl) (iff_of_false (fun hin => ?_) Place.noConfusion)
    exact hgone (fun _ => Place.noConfusion) ((h.signalling x).mp hin)
  · refine iff_update (h.picked q) (fun _ _ => Iff.rfl) (iff_of_false (fun hin => ?_) Place.noConfusion)
    exact hgone (fun _ => Place.noConfusion) ((h.picked q x).mp hin)
  · refine iff_update (h.queue q) (fun _ _ => Iff.rfl) (iff_of_false (fun hin => ?_) Place.noConfusion)
    exact hgone (fun _ => Place.noConfusion) ((h.queue q x).mp hin)
  · refine iff_update (h.heap q) (fun _ _ => Iff.rfl) (iff_of_false (fun hin => ?_) Place.noConfusion)
    exact hgone (fun _ => Place.noConfusion) ((h.heap q x).mp hin)
  · by_cases htt : t' = t
    · subst htt
      refine iff_update (S := fun y => (w.thread t').holds = some y) (h.hands t') (fun y hy => ?_) ?_
      · rw [World.setThread_thread_self, ht]
        exact iff_of_false (fun heq => by cases heq) fun heq => hy (Option.some.inj heq).symm
      · rw [World.setThread_thread_self]
        exact iff_of_false (fun heq => by cases heq) Place.noConfusion
    · refine iff_update (S := fun y => (w.thread t').holds = some y) (h.hands t') (fun y _ => ?_) ?_
      · rw [World.setThread_thread_of_ne htt]
        rfl
      · rw [World.setThread_thread_of_ne htt]
        refine iff_of_false (fun heq => ?_) Place.noConfusion
        rw [World.setTask_thread, h.hands, hplace, Place.hands.injEq] at heq
        exact htt heq.symm
  · by_cases htt : t' = t
    · rw [htt, World.setThread_thread_self] at hy
      cases hy
    · rw [World.setThread_thread_of_ne htt] at hy
      exact h.inserted_update (by rw [hplace]; exact Place.noConfusion) hy _
  · refine tasks_update h.tasks ⟨iff_of_false (fun hp => hp rfl) hx, hbits, fun t' ht' => ?_, fun t' d ht' hd => ?_,
      fun t' ht' => by cases ht'⟩
    · rw [Task.Asks, huse, hdefault] at ht'
      exact ⟨((h.tasks x).asks t' ht').1, fun _ heq => by cases heq⟩
    · rw [huse] at ht'
      rw [hdefault] at hd
      exact (h.tasks x).agree t' d ht' hd
  · refine h.reading.mono (fun t' y e hy => ?_) fun t' y e hy i hi => ?_
    · by_cases htt : t' = t
      · rw [htt, World.setThread_thread_self] at hy
        cases hy
      · rwa [World.setThread_thread_of_ne htt] at hy
    · have htt : t' ≠ t := by
        rintro rfl
        rw [World.setThread_thread_self] at hy
        cases hy
      rw [World.setThread_thread_of_ne htt] at hy
      have hyx : y ≠ x := by
        rintro rfl
        exact htt (h.reader_eq ht hy)
      rwa [World.setThread_task, World.setTask_task_of_ne hyx]
  · rw [World.setThread_fault, World.setTask_fault, h.fault, h.not_deleted (h.hands_ne ht)]
    rfl

theorem beginRun (h : Sound w place queued) (ht : (w.thread t).holds = some x) :
    Sound (w.beginRun t x) place queued := by
  have hset : Sound (w.setTask x (.setUseThisThread none)) place queued :=
    h.setTask (h.hands_ne ht) (h.tasks x).setUse_none fun _ hi => hi
  exact hset.setThread (by rw [World.setTask_thread, ht]; rfl) (fun _ => Pc.noConfusion) fun _ _ heq => by cases heq

/-- A task goes into the timer heap of the thread that ran it. -/
theorem insertTimer (h : Sound w place queued) (ht : (w.thread t).holds = some x) (v : ℤ) :
    Sound (World.setThread t (.inserted x)
        { w with heaps := (w.heaps.setValue x v).insert t x,
                 fault := w.fault || (w.task x).deleted }) (Function.update place x (.heap t)) queued := by
  have hplace := (h.hands t x).mp ht
  have hne := h.hands_ne ht
  have hgone : ∀ {p : Place}, (∀ t', p ≠ .hands t') → ¬place x = p := fun hp heq => hp t (heq.symm.trans hplace)
  have hfree : (w.heaps.elem x).fCurrentHeap = none := by
    by_contra hsome
    obtain ⟨q, hq⟩ := Option.ne_none_iff_exists'.mp hsome
    exact hgone (fun _ => Place.noConfusion) ((h.heap q x).mp hq)
  have hset := h.heaps.setValue hfree v
  have hfree' : ((w.heaps.setValue x v).elem x).fCurrentHeap = none := by
    rw [Heaps.setValue_current, hfree]
  refine ⟨⟨hset.insert hfree', h.queues, h.sentinel, h.nodup, ?_, h.picked_nodup, fun q => ?_, fun q => ?_, fun q => ?_,
    fun t' => ?_, fun t' y hy => ?_⟩, ?_, ?_, ?_⟩
  · refine iff_update h.signalling (fun _ _ => Iff.rfl) (iff_of_false (fun hin => ?_) Place.noConfusion)
    exact hgone (fun _ => Place.noConfusion) ((h.signalling x).mp hin)
  · refine iff_update (h.picked q) (fun _ _ => Iff.rfl) (iff_of_false (fun hin => ?_) Place.noConfusion)
    exact hgone (fun _ => Place.noConfusion) ((h.picked q x).mp hin)
  · refine iff_update (h.queue q) (fun _ _ => Iff.rfl) (iff_of_false (fun hin => ?_) Place.noConfusion)
    exact hgone (fun _ => Place.noConfusion) ((h.queue q x).mp hin)
  · refine iff_update (h.heap q) (fun y hy => ?_) ?_
    · show (((w.heaps.setValue x v).insert t x).elem y).fCurrentHeap = some q ↔ _
      rw [Heaps.insert_elem_of_ne hy, Heaps.setValue_current]
    · show (((w.heaps.setValue x v).insert t x).elem x).fCurrentHeap = some q ↔ _
      rw [Heaps.insert_current_self, Option.some.injEq, Place.heap.injEq]
  · by_cases htt : t' = t
    · subst htt
      refine iff_update (S := fun y => (w.thread t').holds = some y) (h.hands t') (fun y hy => ?_) ?_
      · rw [World.setThread_thread_self, ht]
        exact iff_of_false (fun heq => by cases heq) fun heq => hy (Option.some.inj heq).symm
      · rw [World.setThread_thread_self]
        exact iff_of_false (fun heq => by cases heq) Place.noConfusion
    · refine iff_update (S := fun y => (w.thread t').holds = some y) (h.hands t') (fun y _ => ?_) ?_
      · rw [World.setThread_thread_of_ne htt]
      · rw [World.setThread_thread_of_ne htt]
        refine iff_of_false (fun heq => ?_) Place.noConfusion
        have hplace' := (h.hands t' x).mp heq
        rw [hplace, Place.hands.injEq] at hplace'
        exact htt hplace'.symm
  · by_cases htt : t' = t
    · rw [htt, World.setThread_thread_self] at hy
      obtain rfl : x = y := Pc.inserted.inj hy
      rw [htt, Function.update_self]
    · rw [World.setThread_thread_of_ne htt] at hy
      exact h.inserted_update (by rw [hplace]; exact Place.noConfusion) hy _
  · exact tasks_place h.tasks ((h.tasks x).move_same (t := t) (by rw [hplace]; rfl) rfl)
  · refine h.reading.mono (fun t' y e hy => ?_) fun _ _ _ _ _ hi => hi
    by_cases htt : t' = t
    · rw [htt, World.setThread_thread_self] at hy
      cases hy
    · rwa [World.setThread_thread_of_ne htt] at hy
  · show (w.fault || (w.task x).deleted) = false
    rw [h.fault, h.not_deleted hne]
    rfl

theorem settle (h : Sound w place queued) (ht : (w.thread t).holds = some x) (theTimeout : ℤ) :
    ∃ place', Sound (w.settle t x theTimeout) place' queued := by
  rw [World.settle]
  split
  · have hset : Sound (w.setTask x id) place queued := h.setTask (h.hands_ne ht) (h.tasks x) fun _ hi => hi
    exact ⟨place, hset.setThread (by rw [World.setTask_thread, ht]; rfl) (fun _ => Pc.noConfusion)
      fun _ _ => Pc.noConfusion⟩
  · split
    · split
      · refine ⟨_, h.leave ht (fun hand => ?_) (fun i hi => ?_) rfl rfl⟩
        · exact Bool.noConfusion (BitVec.getLsbD_zero.symm.trans hand.1)
        · exact Bool.noConfusion (BitVec.getLsbD_zero.symm.trans hi)
      · exact ⟨place, h.beginRun ht⟩
    · exact ⟨_, h.insertTimer ht _⟩

/-- The memory of a task is given back. -/
theorem free (h : Sound w place queued) (ht : w.thread t = .deleting x) :
    Sound ((w.setTask x .delete).setThread t .top) (Function.update place x .nowhere) queued :=
  h.leave (by rw [ht]; rfl) (fun hand => Bool.noConfusion hand.2) (h.tasks x).events rfl rfl

end Sound

/-- What a step does to the queues: only `deQueue` takes something out, the oldest, and hands it to its thread. -/
structure QueueStep (a : Act) (queued queued' : ℕ → List ℕ) (w' : World) : Prop where
  taken : ∀ t, a = .deQueue t → queued' t = (queued t).tail ∧
    ∀ x, (queued t).head? = some x → w'.thread t = .running x none
  kept : ∀ t, a ≠ .deQueue t → ∃ l, queued' t = queued t ++ l

theorem QueueStep.same {a : Act} (ha : ∀ t, a ≠ .deQueue t) : QueueStep a queued queued w' :=
  ⟨fun t heq => absurd heq (ha t), fun _ _ => ⟨[], (List.append_nil _).symm⟩⟩

/-- Every step keeps the tasks at their places. -/
theorem Sound.step (h : Sound w place queued) {a : Act} (ha : Allowed w a) (hstep : step w a = some w') :
    ∃ place' queued', Sound w' place' queued' ∧ QueueStep a queued queued' w' := by
  have hpool : 0 < w.pool.sNumTaskThreads := Nat.add_pos_left w.pool.short_pos _
  cases a with
  | tick msec =>
    obtain rfl := Option.some.inj hstep
    exact ⟨place, queued, h.tick msec, .same fun _ => Act.noConfusion⟩
  | signal x events =>
    obtain rfl := Option.some.inj hstep
    obtain ⟨place', hs⟩ := h.signal ha events hpool
    exact ⟨place', queued, hs, .same fun _ => Act.noConfusion⟩
  | schedule x =>
    simp only [TaskThreads.step] at hstep
    split at hstep
    · next hx =>
      obtain rfl := Option.some.inj hstep
      obtain ⟨t, hs⟩ := h.schedule hx
      exact ⟨_, queued, hs, .same fun _ => Act.noConfusion⟩
    · cases hstep
  | enQueue t x =>
    simp only [TaskThreads.step] at hstep
    split at hstep
    · next hin =>
      obtain rfl := Option.some.inj hstep
      refine ⟨_, _, h.enQueue hin, fun _ heq => Act.noConfusion heq, fun t' _ => ?_⟩
      by_cases ht : t' = t
      · exact ⟨[x], by rw [ht, Function.update_self]⟩
      · exact ⟨[], by rw [Function.update_of_ne ht, List.append_nil]⟩
    · cases hstep
  | check t =>
    simp only [TaskThreads.step] at hstep
    split at hstep
    · next ht =>
      obtain rfl := Option.some.inj hstep
      obtain ⟨place', hs⟩ := h.check ht.2
      exact ⟨place', queued, hs, .same fun _ => Act.noConfusion⟩
    · cases hstep
  | deQueue t =>
    simp only [TaskThreads.step] at hstep
    split at hstep
    · next ht =>
      obtain rfl := Option.some.inj hstep
      obtain ⟨⟨place', hs⟩, hruns⟩ := h.deQueue ht
      refine ⟨place', _, hs, fun t' heq => ?_, fun t' hne => ?_⟩
      · obtain rfl : t = t' := Act.deQueue.inj heq
        exact ⟨Function.update_self .., hruns⟩
      · have ht' : t' ≠ t := fun heq => hne (by rw [heq])
        exact ⟨[], by rw [Function.update_of_ne ht', List.append_nil]⟩
    · cases hstep
  | readEvents t =>
    simp only [TaskThreads.step] at hstep
    split at hstep
    · next x ht =>
      obtain rfl := Option.some.inj hstep
      exact ⟨place, queued, h.readEvents ht, .same fun _ => Act.noConfusion⟩
    · cases hstep
  | clearEvents t =>
    simp only [TaskThreads.step] at hstep
    split at hstep
    · next x e ht =>
      obtain rfl := Option.some.inj hstep
      exact ⟨place, queued, h.clearEvents ht, .same fun _ => Act.noConfusion⟩
    · cases hstep
  | forceSameThread t =>
    simp only [TaskThreads.step] at hstep
    split at hstep
    · next x ht =>
      obtain rfl := Option.some.inj hstep
      exact ⟨place, queued, h.forceSameThread (by rw [ht]; rfl), .same fun _ => Act.noConfusion⟩
    · cases hstep
  | ret t theTimeout =>
    simp only [TaskThreads.step] at hstep
    split at hstep
    · next x ht =>
      obtain rfl := Option.some.inj hstep
      exact ⟨place, queued, h.setThread (by rw [ht]; rfl) (fun _ => Pc.noConfusion) fun _ _ => Pc.noConfusion,
        .same fun _ => Act.noConfusion⟩
    · cases hstep
  | settle t =>
    simp only [TaskThreads.step] at hstep
    split at hstep
    · next x theTimeout ht =>
      obtain rfl := Option.some.inj hstep
      obtain ⟨place', hs⟩ := h.settle (by rw [ht]; rfl) theTimeout
      exact ⟨place', queued, hs, .same fun _ => Act.noConfusion⟩
    · cases hstep
  | idleEvent t =>
    simp only [TaskThreads.step] at hstep
    split at hstep
    · next x ht =>
      obtain rfl := Option.some.inj hstep
      exact ⟨place, queued, h.idleEvent ht, .same fun _ => Act.noConfusion⟩
    · cases hstep
  | free t =>
    simp only [TaskThreads.step] at hstep
    split at hstep
    · next x ht =>
      obtain rfl := Option.some.inj hstep
      exact ⟨_, queued, h.free ht, .same fun _ => Act.noConfusion⟩
    · cases hstep

/-! ## Whole runs -/

theorem Start.sound (h : Start w) : Sound w (fun _ => .nowhere) fun _ => [] := by
  obtain ⟨inStartSize, garbage, values, hheaps⟩ := h.heaps
  have hinj : Function.Injective fSentinel := fun a b hab => by
    simp only [fSentinel] at hab
    omega
  refine ⟨⟨?_, ?_, by rw [h.queues]; rfl, by rw [h.signalling]; exact List.nodup_nil, fun x => ?_,
    by rw [h.picked]; exact List.nodup_nil, fun t x => ?_, fun t x => ?_, fun t x => ?_, fun t x => ?_, fun t x hx => ?_⟩,
    fun x => ?_, fun t x e hx => ?_, h.fault⟩
  · rw [hheaps]
    exact Heaps.fresh_sound inStartSize garbage values
  · rw [h.queues]
    exact fresh_holds hinj
  · rw [h.signalling]
    exact iff_of_false List.not_mem_nil Place.noConfusion
  · rw [h.picked]
    exact iff_of_false List.not_mem_nil Place.noConfusion
  · exact iff_of_false List.not_mem_nil Place.noConfusion
  · rw [hheaps]
    exact iff_of_false (fun heq => by cases heq) Place.noConfusion
  · rw [h.thread]
    exact iff_of_false (fun heq => by cases heq) Place.noConfusion
  · rw [h.thread] at hx
    cases hx
  · obtain ⟨hevents, huse, -⟩ := h.task x
    refine ⟨iff_of_false (fun hp => hp rfl) fun hand => ?_, fun i hi => ?_, fun t ht => ⟨?_, fun _ heq => by cases heq⟩,
      fun t d ht => ?_, fun t ht => ?_⟩
    · rw [Task.alive, hevents] at hand
      exact Bool.noConfusion (BitVec.getLsbD_zero.symm.trans hand.1)
    · rw [hevents] at hi
      exact Bool.noConfusion (BitVec.getLsbD_zero.symm.trans hi)
    · rw [Task.Asks, huse] at ht
      exact h.default x t (ht.resolve_left fun heq => by cases heq)
    · rw [huse] at ht
      cases ht
    · cases ht
  · rw [h.thread] at hx
    cases hx

theorem Sound.run (h : Sound w place queued) {as : List Act} (hrun : Reaches Taken Allowed w as w') :
    ∃ place' queued', Sound w' place' queued' := by
  apply hrun.invariant (I := fun w => ∃ place' queued', Sound w place' queued')
  · rintro s a s' ⟨place', queued', hs⟩ ha hstep
    obtain ⟨place'', queued'', hs', -⟩ := hs.step ha hstep
    exact ⟨place'', queued'', hs'⟩
  · exact ⟨place, queued, h⟩

/-- The tasks in the queue of a thread, the oldest first, as an iterator comes to them -/
def World.queueOf (w : World) (t : ℕ) : List ℕ :=
  (w.queues.iterate t (w.queues.fLength t) (w.queues.getHead t)).map getEnclosingObject

/-- A task is at a place of the data server. -/
def At (w : World) (x : ℕ) : Place → Prop
  | .nowhere => False
  | .signalling => x ∈ w.signalling
  | .picked t => (x, t) ∈ w.picked
  | .queue t => x ∈ w.queueOf t
  | .heap t => x ∈ w.heaps.members t
  | .hands t => (w.thread t).holds = some x

namespace Sound

theorem queueOf (h : Sound w place queued) (t : ℕ) : w.queueOf t = queued t := by
  rw [World.queueOf, h.queues.iterate, List.reverse_reverse, List.map_map]
  conv_rhs => rw [← List.map_id (queued t)]
  apply List.map_congr_left
  intro x _
  simp only [Function.comp_apply, getEnclosingObject, fTaskQueueElem, id_eq]
  omega

theorem at_iff (h : Sound w place queued) (x : ℕ) (p : Place) : At w x p ↔ place x = p ∧ p ≠ .nowhere := by
  cases p with
  | nowhere => simp [At]
  | signalling => simp [At, h.signalling]
  | picked t => simp [At, h.picked]
  | queue t => simp [At, h.queueOf, h.queue]
  | heap t => simp [At, h.heaps.current, h.heap]
  | hands t => simp [At, h.hands]

theorem exists_at_iff (h : Sound w place queued) (x : ℕ) :
    (∃ p, At w x p) ↔ (w.task x).alive ∧ (w.task x).deleted = false := by
  rw [← (h.tasks x).alive]
  constructor
  · rintro ⟨p, hp⟩
    obtain ⟨rfl, hne⟩ := (h.at_iff x p).mp hp
    exact hne
  · intro hne
    exact ⟨place x, (h.at_iff x _).mpr ⟨rfl, hne⟩⟩

end Sound

/-- In every run of signals and task threads no deleted task is touched, and a task is at one place at most and there
only once: no two threads ever run it, no queue holds what a thread runs. It is at a place as long as its alive bit is
set and it is not deleted. -/
theorem task_at_one_place {as : List Act} (hstart : Start w) (hrun : Reaches Taken Allowed w as w') :
    w'.fault = false ∧ (∀ x p p', At w' x p → At w' x p' → p = p') ∧
      (w'.signalling.Nodup ∧ w'.picked.Nodup ∧ ∀ t, (w'.queueOf t).Nodup ∧ (w'.heaps.members t).Nodup) ∧
      ∀ x, (∃ p, At w' x p) ↔ (w'.task x).alive ∧ (w'.task x).deleted = false := by
  obtain ⟨place, queued, h⟩ := hstart.sound.run hrun
  refine ⟨h.fault, fun x p p' hp hp' => ?_, ⟨h.nodup, h.picked_nodup, fun t => ⟨?_, h.heaps.nodup t⟩⟩, h.exists_at_iff⟩
  · exact ((h.at_iff x p).mp hp).1.symm.trans ((h.at_iff x p').mp hp').1
  · rw [h.queueOf]
    have hmap : ((queued t).map fTaskQueueElem).Nodup := List.nodup_reverse.mp (h.queues.family.holds t).nodup.of_cons
    exact hmap.of_map

/-! ### A run -/

/-- Nobody is signalled yet, and task 4 has thread 3 as its default one. -/
def exampleStart : World where
  pool := startServer
  task x := ⟨0, none, if x = 4 then some 3 else none, false, false⟩
  heaps := .fresh (fun _ => 1024) (fun _ _ => 0) fun _ => 0
  queues := .fresh fSentinel
  thread _ := .top
  signalling := []
  picked := []
  sShortTaskThreadPicker := 0
  sBlockingTaskThreadPicker := 0
  clock := 0
  fault := false

theorem exampleStart_start : Start exampleStart where
  task _ := ⟨rfl, rfl, rfl⟩
  default x t ht := by
    obtain ⟨-, rfl⟩ : x = 4 ∧ 3 = t := by simpa [exampleStart] using ht
    decide
  heaps := ⟨_, _, _, rfl⟩
  queues := rfl
  thread _ := rfl
  signalling := rfl
  picked := rfl
  fault := rfl

def World.after (as : List Act) (w : World) : World := (as.foldlM TaskThreads.step w).getD w

theorem reaches_after {as : List Act} (hallowed : allAllowedM step Allowed w as)
    (hsome : (as.foldlM step w).isSome) : Reaches Taken Allowed w as (w.after as) := by
  obtain ⟨t, ht⟩ := Option.isSome_iff_exists.mp hsome
  have heq : w.after as = t := by
    rw [World.after, ht]
    rfl
  rw [heq]
  exact reaches_of_foldlM hallowed ht

/-- Tasks 7 to 11 are signalled, each by a call that puts it into the queue of the thread that the picker gives. -/
def signalled : List Act := [(7, 1), (8, 0), (9, 1), (10, 0), (11, 1)].flatMap fun p =>
  [.signal p.1 kReadEvent, .schedule p.1, .enQueue p.2 p.1]

/-- Thread 1 runs task 7, which sleeps again and is signalled while thread 1 runs task 9, and that one asks for 100 ms.
The last `Signal` has no thread for its task yet. -/
def exampleActs : List Act := signalled ++
  [.check 1, .deQueue 1, .readEvents 1, .clearEvents 1, .ret 1 0, .settle 1, .check 1, .deQueue 1, .signal 7 kWriteEvent,
    .ret 1 100, .settle 1, .idleEvent 1]

theorem task_at_one_place_example :
    (exampleStart.after exampleActs).fault = false ∧
      (∀ x p p', At (exampleStart.after exampleActs) x p → At (exampleStart.after exampleActs) x p' → p = p') ∧
      ((exampleStart.after exampleActs).signalling.Nodup ∧ (exampleStart.after exampleActs).picked.Nodup ∧
        ∀ t, ((exampleStart.after exampleActs).queueOf t).Nodup ∧ ((exampleStart.after exampleActs).heaps.members t).Nodup) ∧
      ∀ x, (∃ p, At (exampleStart.after exampleActs) x p) ↔
        ((exampleStart.after exampleActs).task x).alive ∧ ((exampleStart.after exampleActs).task x).deleted = false :=
  task_at_one_place exampleStart_start (reaches_after (by decide +kernel) (by decide +kernel))

end Tefs.DataServer.TaskThreads
