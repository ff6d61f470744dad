import Mathlib.Data.BitVec
import Tefs.DataServer.OSHeap
import Tefs.DataServer.OSQueue

/-! # Tasks and the threads that run them

Source: `CommonUtilitiesLib/Task.cpp` and `Task.h`, `atomic.cpp`; the pool is the one of `ADDRServer::StartServer` in
`src/DSServer.cpp`.

Any thread may `Signal` a task at any time; a task thread runs one task after the other, and while it is inside `Run` it
may read its events, ask for its own thread again, and signal. A `Signal` that finds its task no longer `Valid` does
nothing; one that has seen it `Valid` goes on, also when the destructor of the task has begun. A step is what happens
between two accesses to a word that several threads share: a `Signal` that has made its task alive first picks a thread
and only then puts the task into that thread's queue. `Run` itself is whatever the actions of its thread make of it. No
task of the server asks for the global write lock, so none is modelled.
-/

namespace Tefs.DataServer.TaskThreads
open OSHeaps OSQueues Runs
set_option autoImplicit false

abbrev EventFlags := BitVec 32

def kKillEvent : EventFlags := 0x1
def kIdleEvent : EventFlags := 0x2
def kStartEvent : EventFlags := 0x4
def kTimeoutEvent : EventFlags := 0x8
def kReadEvent : EventFlags := 0x10
def kWriteEvent : EventFlags := 0x20
def kUpdateEvent : EventFlags := 0x40
def kAlive : EventFlags := 0x80000000
def kAliveOff : EventFlags := 0x7fffffff

/-- `Task`: `pickerToUse` is the picker of the blocking threads or of the short ones; `deleted` once its memory is given
back. -/
structure Task where
  fEvents : EventFlags
  fUseThisThread : Option ℕ
  fDefaultThread : Option ℕ
  blocking : Bool
  deleted : Bool
  deriving DecidableEq, Repr

/-- `atomic_or(&fEvents, events)` -/
def Task.orEvents (events : EventFlags) (T : Task) : Task := { T with fEvents := T.fEvents ||| events }

/-- `atomic_sub(&fEvents, events)` -/
def Task.subEvents (events : EventFlags) (T : Task) : Task := { T with fEvents := T.fEvents - events }

def Task.setUseThisThread (t : Option ℕ) (T : Task) : Task := { T with fUseThisThread := t }

def Task.delete (T : Task) : Task := { T with deleted := true }

/-- The thread that the task forced in its `Run`, or its default one -/
def Task.Asks (T : Task) (t : ℕ) : Prop := T.fUseThisThread = some t ∨ T.fDefaultThread = some t

/-- The thread a task asks for, its default one if it has not forced another -/
def Task.useThisThread (T : Task) : Option ℕ :=
  if T.fDefaultThread.isSome ∧ T.fUseThisThread = none then T.fDefaultThread else T.fUseThisThread

/-- `TaskThreadPool`, after `AddThreads` -/
structure Pool where
  sNumShortTaskThreads : ℕ
  sNumBlockingTaskThreads : ℕ
  short_pos : 0 < sNumShortTaskThreads
  blocking_pos : 0 < sNumBlockingTaskThreads

def Pool.sNumTaskThreads (p : Pool) : ℕ := p.sNumShortTaskThreads + p.sNumBlockingTaskThreads

/-- What `StartServer` starts -/
def startServer : Pool := ⟨2, 2, by decide, by decide⟩

/-- Where a task thread is: before the look at its heap, in `DeQueueBlocking`, inside `Run` (with the events that a
`GetEvents` has read and not yet taken away), behind `Run`, between its heap and the idle event, or in the destructor of
a task that is no longer `Valid`. -/
inductive Pc
  | top
  | waiting
  | running (task : ℕ) (events : Option EventFlags)
  | returned (task : ℕ) (theTimeout : ℤ)
  | inserted (task : ℕ)
  | deleting (task : ℕ)
  deriving DecidableEq, Repr

/-- The task in a thread's hands -/
def Pc.holds : Pc → Option ℕ
  | .running task _ => some task
  | .returned task _ => some task
  | .deleting task => some task
  | _ => none

/-- `fTaskQueueElem` of a task, beside the sentinel of a thread's `fTaskQueue` -/
def fTaskQueueElem (x : ℕ) : ℕ := 2 * x + 1

def fSentinel (t : ℕ) : ℕ := 2 * t

def getEnclosingObject (elem : ℕ) : ℕ := elem / 2

/-- `signalling` are the `Signal` calls that found their task not alive and have no thread for it yet, `picked` those
that have one (a task and its thread) and have not put it into the queue yet; `fault` is set when a deleted task is
touched. The timer heaps and the task queues go by their threads. -/
structure World where
  pool : Pool
  task : ℕ → Task
  heaps : Heaps
  queues : Queues
  thread : ℕ → Pc
  signalling : List ℕ
  picked : List (ℕ × ℕ)
  sShortTaskThreadPicker : BitVec 32
  sBlockingTaskThreadPicker : BitVec 32
  clock : ℤ
  fault : Bool

namespace World

def setTask (x : ℕ) (f : Task → Task) (w : World) : World :=
  { w with task := Function.update w.task x (f (w.task x)), fault := w.fault || (w.task x).deleted }

def setThread (t : ℕ) (pc : Pc) (w : World) : World := { w with thread := Function.update w.thread t pc }

/-! ## Signal -/

/-- `Signal` up to the `atomic_or` -/
def signal (x : ℕ) (events : EventFlags) (w : World) : World :=
  let old := (w.task x).fEvents
  let w := w.setTask x (.orEvents (events ||| kAlive))
  if old &&& kAlive = 0 ∧ 0 < w.pool.sNumTaskThreads then { w with signalling := x :: w.signalling } else w

def pick (t x : ℕ) (w : World) : World :=
  { w with signalling := w.signalling.erase x, picked := (x, t) :: w.picked }

/-- `atomic_add(pickerToUse, 1)`, and what is made of it -/
def pickThread (blocking : Bool) (w : World) : ℕ × World :=
  if blocking then
    let theThreadIndex := w.sBlockingTaskThreadPicker + 1
    (theThreadIndex.toNat % w.pool.sNumBlockingTaskThreads + w.pool.sNumShortTaskThreads,
      { w with sBlockingTaskThreadPicker := theThreadIndex })
  else
    let theThreadIndex := w.sShortTaskThreadPicker + 1
    (theThreadIndex.toNat % w.pool.sNumShortTaskThreads, { w with sShortTaskThreadPicker := theThreadIndex })

/-- `Signal` from the `atomic_or` to the `EnQueue`, for a call that made its task alive: until it is in a queue no other
call and no thread uses the task's `fUseThisThread`, and the picker is the one shared word. -/
def schedule (x : ℕ) (w : World) : World :=
  let use := (w.task x).useThisThread
  let w := w.setTask x (.setUseThisThread use)
  match use with
  | some t => w.pick t x
  | none =>
    let (t, w) := w.pickThread (w.task x).blocking
    w.pick t x

/-- `fTaskQueue.EnQueue(&fTaskQueueElem)` of the thread picked -/
def enQueue (t x : ℕ) (w : World) : World :=
  { w with queues := w.queues.enQueue t (fTaskQueueElem x), picked := w.picked.erase (x, t) }

/-! ## A task thread -/

/-- The top of the inner loop of `Entry`: `Run` begins, and must ask for a thread anew. -/
def beginRun (t x : ℕ) (w : World) : World :=
  (w.setTask x (.setUseThisThread none)).setThread t (.running x none)

/-- A turn of `WaitForTask`, up to `DeQueueBlocking` -/
def check (t : ℕ) (w : World) : World :=
  match w.heaps.peekMin t with
  | some e =>
    if w.heaps.value e ≤ w.clock then
      match w.heaps.extractMin t with
      | (some x, heaps) => { w with heaps := heaps }.beginRun t x
      | (none, _) => w
    else w.setThread t .waiting
  | none => w.setThread t .waiting

/-- `DeQueueBlocking`, awake again -/
def deQueue (t : ℕ) (w : World) : World :=
  match w.queues.deQueue t with
  | (some elem, queues) => { w with queues := queues }.beginRun t (getEnclosingObject elem)
  | (none, queues) => { w with queues := queues }.setThread t .top

/-- What `Entry` does with the answer of `Run`, up to the destructor of the task where it is to be deleted -/
def settle (t x : ℕ) (theTimeout : ℤ) (w : World) : World :=
  if theTimeout < 0 then (w.setTask x id).setThread t (.deleting x)
  else if theTimeout = 0 then
    if (w.task x).fEvents = kAlive then
      (w.setTask x fun T => { T with fEvents := 0 }).setThread t .top
    else w.beginRun t x
  else
    { w with heaps := (w.heaps.setValue x (w.clock + theTimeout)).insert t x,
             fault := w.fault || (w.task x).deleted }.setThread t (.inserted x)

end World

inductive Act
  | tick (msec : ℕ)
  | signal (task : ℕ) (events : EventFlags)
  | schedule (task : ℕ)
  | enQueue (thread task : ℕ)
  | check (thread : ℕ)
  | deQueue (thread : ℕ)
  | readEvents (thread : ℕ)
  | clearEvents (thread : ℕ)
  | forceSameThread (thread : ℕ)
  | ret (thread : ℕ) (theTimeout : ℤ)
  | settle (thread : ℕ)
  | idleEvent (thread : ℕ)
  | free (thread : ℕ)
  deriving DecidableEq, Repr

open World in
/-- One step, where the action can be taken. `readEvents` and `clearEvents` are the two halves of `GetEvents`. -/
def step (w : World) : Act → Option World
  | .tick msec => some { w with clock := w.clock + msec }
  | .signal x events => some (w.signal x events)
  | .schedule x => if x ∈ w.signalling then some (w.schedule x) else none
  | .enQueue t x => if (x, t) ∈ w.picked then some (w.enQueue t x) else none
  | .check t => if t < w.pool.sNumTaskThreads ∧ w.thread t = .top then some (w.check t) else none
  | .deQueue t => if w.thread t = .waiting then some (w.deQueue t) else none
  | .readEvents t =>
    match w.thread t with
    | .running x none => some ((w.setTask x id).setThread t (.running x (some ((w.task x).fEvents &&& kAliveOff))))
    | _ => none
  | .clearEvents t =>
    match w.thread t with
    | .running x (some events) =>
      some ((w.setTask x (.subEvents events)).setThread t (.running x none))
    | _ => none
  | .forceSameThread t =>
    match w.thread t with
    | .running x none => some (w.setTask x (.setUseThisThread (some t)))
    | _ => none
  | .ret t theTimeout =>
    match w.thread t with
    | .running x none => some (w.setThread t (.returned x theTimeout))
    | _ => none
  | .settle t =>
    match w.thread t with
    | .returned x theTimeout => some (w.settle t x theTimeout)
    | _ => none
  | .idleEvent t =>
    match w.thread t with
    | .inserted x => some ((w.setTask x (.orEvents kIdleEvent)).setThread t .top)
    | _ => none
  | .free t =>
    match w.thread t with
    | .deleting x => some ((w.setTask x .delete).setThread t .top)
    | _ => none

/-- The threads of the pool waiting, and tasks that nobody has signalled: a task's own values are its constructor's and
`SetDefaultThread`'s and `SetThreadPicker`'s. -/
structure Start (w : World) : Prop where
  task : ∀ x, (w.task x).fEvents = 0 ∧ (w.task x).fUseThisThread = none ∧ (w.task x).deleted = false
  default : ∀ x t, (w.task x).fDefaultThread = some t → t < w.pool.sNumTaskThreads
  heaps : ∃ inStartSize garbage values, w.heaps = .fresh inStartSize garbage values
  queues : w.queues = .fresh fSentinel
  thread : ∀ t, w.thread t = .top
  signalling : w.signalling = []
  picked : w.picked = []
  fault : w.fault = false

/-- What the callers see to: no `Signal` to a task that is deleted. -/
def Allowed (w : World) : Act → Prop
  | .signal x _ => (w.task x).deleted = false
  | _ => True

instance (w : World) : ∀ a, Decidable (Allowed w a)
  | .signal x _ => inferInstanceAs (Decidable ((w.task x).deleted = false))
  | .tick _ | .schedule _ | .enQueue _ _ | .check _ | .deQueue _ | .readEvents _ | .clearEvents _ | .forceSameThread _
  | .ret _ _ | .settle _ | .idleEvent _ | .free _ => inferInstanceAs (Decidable True)

def Taken (w : World) (a : Act) (w' : World) : Prop := step w a = some w'

end Tefs.DataServer.TaskThreads
