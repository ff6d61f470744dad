import Tefs.DataServer.EventQueue
import Tefs.DataServer.OSRef
import Tefs.DataServer.TaskRuns

/-! # Sockets, the event thread, and the tasks they signal

Source: `CommonUtilitiesLib/EventContext.cpp` and `EventContext.h`, with what `Socket.cpp` and `TCPListenerSocket.cpp` do
with contexts.

A context is the event side of a socket. It asks for events under an id of its own, which the event queue gives back as
a cookie and the reference table of the event thread turns into the context again; its `Cleanup`, which its destructor
calls, waits there until the event thread has let go of it. One thread at a time deals with a context, and a context is
the address of its `fRef`. What `ProcessEvent` of a listener does to new sockets is steps of its own, beside a context
that has no task.
-/

namespace Tefs.DataServer.EventContexts
open Runs OSRefs EventQueues TaskThreads
set_option autoImplicit false

/-- Where the thread that deals with a context is: outside of its functions, in `RequestEvent` behind
`compare_and_store`, behind `atomic_add`, and behind `Register`, and in `Cleanup` behind `UnRegister`. A context that is
`gone` is not constructed, or destructed again. -/
inductive Phase
  | gone
  | idle
  | compared (theMask : EventMask)
  | numbered (theMask : EventMask)
  | registered (theMask : EventMask)
  | unregistered
  deriving DecidableEq, Repr

/-- `fEventReq` is its descriptor and its `ev_data`; `fFileDesc` is `none` for `kInvalidFileDesc`. -/
structure Context where
  fFileDesc : Option ℕ
  fUniqueID : Cookie
  fEventReq : ℕ × Cookie
  fWatchEventCalled : Bool
  fTask : Option ℕ
  phase : Phase
  deriving DecidableEq, Repr

/-- `Socket::Socket` -/
def Context.new (notifytask : Option ℕ) : Context := ⟨none, 0, (0, 0), false, notifytask, .idle⟩

/-- Where the event thread is in `Entry`: in `epoll_waitevent`, with an event that has a cookie, with what `Resolve` has
found for a descriptor, with the task it is about to signal, and behind `ProcessEvent`. -/
inductive EventPc
  | waiting
  | reported (fd : ℕ) (ev_data : Cookie)
  | resolved (fd ref : ℕ)
  | signalling (fd ref task : ℕ)
  | releasing (fd ref : ℕ)
  deriving DecidableEq, Repr

/-- The descriptor of the event, and the reference that is not released yet -/
def EventPc.at? : EventPc → Option (ℕ × ℕ)
  | .resolved fd ref => some (fd, ref)
  | .signalling fd ref _ => some (fd, ref)
  | .releasing fd ref => some (fd, ref)
  | _ => none

/-- `fault` is set when the event thread touches a context that is gone. -/
structure System where
  world : World
  queue : EventQueue
  fRefTable : RefTable
  context : ℕ → Context
  sUniqueID : BitVec 32
  event : EventPc
  fault : Bool

/-- The bytes of `fUniqueID`, which `fUniqueIDStr` points to -/
def idStr (id : Cookie) : Bytes := (List.range 8).map fun i => id.extractLsb' (8 * i) 8

def maxUniqueID : BitVec 32 := 10000000

namespace System

def setContext (c : ℕ) (f : Context → Context) (s : System) : System :=
  { s with context := Function.update s.context c (f (s.context c)) }

def setPhase (c : ℕ) (phase : Phase) (s : System) : System := s.setContext c fun C => { C with phase }

/-- `EventContext::EventContext`, with the constructor of its `fRef` -/
def construct (c : ℕ) (notifytask : Option ℕ) (s : System) : System :=
  { s.setContext c fun _ => .new notifytask with
    fRefTable := s.fRefTable.setRef c fun R => ⟨0, [], R.fHashValue, 0⟩ }

/-- `RequestEvent`, up to `compare_and_store` when it is the first one -/
def requestEvent (c : ℕ) (theMask : EventMask) (s : System) : System :=
  let C := s.context c
  if C.fWatchEventCalled then { s with queue := s.queue.modwatch C.fEventReq.1 theMask C.fEventReq.2 }
  else if s.sUniqueID = maxUniqueID then
    { s.setContext c fun C => { C with fUniqueID := 1, phase := .numbered theMask } with sUniqueID := 1 }
  else s.setPhase c (.compared theMask)

def number (c : ℕ) (theMask : EventMask) (s : System) : System :=
  { s.setContext c fun C =>
      { C with fUniqueID := (s.sUniqueID + 1).setWidth 64, phase := .numbered theMask } with
    sUniqueID := s.sUniqueID + 1 }

/-- `fRef.Set` and `Register`, whose error is not looked at -/
def register (c : ℕ) (theMask : EventMask) (s : System) : System :=
  { s.setPhase c (.registered theMask) with
    fRefTable := ((s.fRefTable.set c (idStr (s.context c).fUniqueID) c).register c).2 }

/-- The rest of the first `RequestEvent` -/
def watch (c fd : ℕ) (theMask : EventMask) (s : System) : System :=
  let id := (s.context c).fUniqueID
  { s.setContext c fun C =>
      { C with fEventReq := (fd, id), fWatchEventCalled := true, phase := .idle } with
    queue := s.queue.modwatch fd theMask id }

/-- `Cleanup` in the destructor, up to `UnRegister`; `none` waits there. -/
def cleanUp (c : ℕ) (s : System) : Option System :=
  let C := s.context c
  if C.fFileDesc ≠ none ∧ C.fUniqueID ≠ 0 then
    (s.fRefTable.unRegister c 0).map fun fRefTable => { s.setPhase c .unregistered with fRefTable }
  else some (s.setContext c fun C => { C with fFileDesc := none, fUniqueID := 0, phase := .gone })

/-- The rest of `Cleanup` -/
def removeWatch (c fd : ℕ) (s : System) : System :=
  { s.setContext c fun C => { C with fFileDesc := none, fUniqueID := 0, phase := .gone } with
    queue := s.queue.removeevent fd }

/-- `epoll_waitevent` behind its loop, and `Entry` up to `Resolve` -/
def take (s : System) : Option System :=
  match apply .take s.queue with
  | some (.event event ev_data, queue) =>
    some { s with queue, event := if ev_data = 0 then .waiting else .reported event.fd ev_data }
  | some (_, queue) => some { s with queue }
  | none => none

def resolve (fd : ℕ) (ev_data : Cookie) (s : System) : System :=
  match s.fRefTable.resolve (idStr ev_data) with
  | (some ref, fRefTable) => { s with fRefTable, event := .resolved fd ref }
  | (none, fRefTable) => { s with fRefTable, event := .waiting }

/-- `ProcessEvent`, up to `Signal` -/
def processEvent (fd ref : ℕ) (s : System) : System :=
  let theContext := (s.fRefTable.ref ref).fObjectP
  { s with event := match (s.context theContext).fTask with
                    | some task => .signalling fd ref task
                    | none => .releasing fd ref,
           fault := s.fault || (s.context theContext).phase = .gone }

def release (ref : ℕ) (s : System) : System :=
  { s with fRefTable := s.fRefTable.release ref, event := .waiting,
           fault := s.fault || (s.context ref).phase = .gone }

end System

inductive Act
  | task (a : TaskThreads.Act)
  | construct (c : ℕ) (notifytask : Option ℕ)
  | openSocket (c fd : ℕ)
  | setTask (c : ℕ) (inTask : Option ℕ)
  | requestEvent (c : ℕ) (theMask : EventMask)
  | number (c : ℕ)
  | register (c : ℕ)
  | watch (c : ℕ)
  | cleanUp (c : ℕ)
  | removeWatch (c : ℕ)
  | wakeup
  | closeFds
  | drain
  | setMaxevent
  | epollWait (back : Option (List Event))
  | take
  | resolve
  | processEvent
  | signal
  | release
  deriving DecidableEq, Repr

/-- A step of the event queue that the event thread takes inside of `epoll_waitevent` -/
def queueStep (op : EventQueues.Op) (s : System) : Option System :=
  if s.event = .waiting then (apply op s.queue).map fun p => { s with queue := p.2 } else none

/-- One step, where the action can be taken -/
def step (s : System) : Act → Option System
  | .task a => (TaskThreads.step s.world a).map fun world => { s with world }
  | .construct c notifytask => if (s.context c).phase = .gone then some (s.construct c notifytask) else none
  | .openSocket c fd =>
    if (s.context c).phase = .idle then some (s.setContext c fun C => { C with fFileDesc := some fd }) else none
  | .setTask c inTask =>
    if (s.context c).phase = .idle then some (s.setContext c fun C => { C with fTask := inTask }) else none
  | .requestEvent c theMask => if (s.context c).phase = .idle then some (s.requestEvent c theMask) else none
  | .number c =>
    match (s.context c).phase with
    | .compared theMask => some (s.number c theMask)
    | _ => none
  | .register c =>
    match (s.context c).phase with
    | .numbered theMask => some (s.register c theMask)
    | _ => none
  | .watch c =>
    match (s.context c).phase, (s.context c).fFileDesc with
    | .registered theMask, some fd => some (s.watch c fd theMask)
    | _, _ => none
  | .cleanUp c => if (s.context c).phase = .idle then s.cleanUp c else none
  | .removeWatch c =>
    match (s.context c).phase, (s.context c).fFileDesc with
    | .unregistered, some fd => some (s.removeWatch c fd)
    | _, _ => none
  | .wakeup => (apply .wakeup s.queue).map fun p => { s with queue := p.2 }
  | .closeFds => queueStep .closeFds s
  | .drain => queueStep .drain s
  | .setMaxevent => queueStep .setMaxevent s
  | .epollWait back => queueStep (.epollWait back) s
  | .take => if s.event = .waiting then s.take else none
  | .resolve =>
    match s.event with
    | .reported fd ev_data => some (s.resolve fd ev_data)
    | _ => none
  | .processEvent =>
    match s.event with
    | .resolved fd ref => some (s.processEvent fd ref)
    | _ => none
  | .signal =>
    match s.event with
    | .signalling fd ref task =>
      some { s with world := s.world.signal task kReadEvent, event := .releasing fd ref }
    | _ => none
  | .release =>
    match s.event with
    | .releasing _ ref => some (s.release ref)
    | _ => none

/-- What is seen to by others: by the kernel, that a new descriptor is of no socket and none that is still to be closed;
by the owners, that a context is told of no task that is deleted, and of no other one once it is in the table, that it is
open when it asks for events, and that the sockets of a task are gone before its memory is given back. -/
def Allowed (s : System) : Act → Prop
  | .task a =>
    TaskThreads.Allowed s.world a ∧ ∀ t x, a = .free t → s.world.thread t = .deleting x →
      ∀ c, (s.context c).phase ≠ .gone → (s.context c).fTask ≠ some x
  | .construct _ notifytask => ∀ x, notifytask = some x → (s.world.task x).deleted = false
  | .openSocket c fd =>
    (s.context c).fFileDesc = none ∧ (∀ c', (s.context c').phase ≠ .gone → (s.context c').fFileDesc ≠ some fd) ∧
      fd < CookieArraySize ∧ fd ≠ s.queue.sPipe ∧ fd ∉ s.queue.sFDsToCloseArray
  | .setTask c inTask => (∀ x, inTask = some x → (s.world.task x).deleted = false) ∧ ¬s.fRefTable.InTable c
  | .requestEvent c theMask => (s.context c).fFileDesc ≠ none ∧ theMask ≠ unwatched
  | .number _ => s.sUniqueID + 1 ≠ 0
  | .removeWatch _ => s.queue.sFDsToCloseArray.length < FDCloseArraySize
  | .epollWait back => EventQueues.Allowed s.queue (.epollWait back)
  | _ => True

/-- The ids are not given out a second time. -/
def Numbering (s : System) : Act → Prop
  | .requestEvent c _ => (s.context c).fWatchEventCalled = true ∨ s.sUniqueID ≠ maxUniqueID
  | _ => True

def Taken (s : System) (a : Act) (s' : System) : Prop := step s a = some s'

/-- No task, no socket, and the event thread at its first `epoll_waitevent` -/
structure Start (s : System) : Prop where
  world : TaskThreads.Start s.world
  queue : ∃ sPipe, s.queue = .startevents sPipe
  fRefTable : ∃ garbage, s.fRefTable = .fresh kDefaultTableSize garbage
  context : ∀ c, (s.context c).phase = .gone ∧ (s.context c).fFileDesc = none ∧ (s.context c).fUniqueID = 0
  sUniqueID : s.sUniqueID = 1
  event : s.event = .waiting
  fault : s.fault = false

/-- The steps there are -/
inductive Stepped (s : System) : Act → System → Prop
  | task {a : TaskThreads.Act} {world : World} (hworld : TaskThreads.step s.world a = some world) :
    Stepped s (.task a) { s with world }
  | construct {c : ℕ} (hphase : (s.context c).phase = .gone) (notifytask : Option ℕ) :
    Stepped s (.construct c notifytask) (s.construct c notifytask)
  | openSocket {c : ℕ} (hphase : (s.context c).phase = .idle) (fd : ℕ) :
    Stepped s (.openSocket c fd) (s.setContext c fun C => { C with fFileDesc := some fd })
  | setTask {c : ℕ} (hphase : (s.context c).phase = .idle) (inTask : Option ℕ) :
    Stepped s (.setTask c inTask) (s.setContext c fun C => { C with fTask := inTask })
  | requestEvent {c : ℕ} (hphase : (s.context c).phase = .idle) (theMask : EventMask) :
    Stepped s (.requestEvent c theMask) (s.requestEvent c theMask)
  | number {c : ℕ} {theMask : EventMask} (hphase : (s.context c).phase = .compared theMask) :
    Stepped s (.number c) (s.number c theMask)
  | register {c : ℕ} {theMask : EventMask} (hphase : (s.context c).phase = .numbered theMask) :
    Stepped s (.register c) (s.register c theMask)
  | watch {c fd : ℕ} {theMask : EventMask} (hphase : (s.context c).phase = .registered theMask)
    (hfd : (s.context c).fFileDesc = some fd) : Stepped s (.watch c) (s.watch c fd theMask)
  | cleanUp {c : ℕ} {s' : System} (hphase : (s.context c).phase = .idle) (hclean : s.cleanUp c = some s') :
    Stepped s (.cleanUp c) s'
  | removeWatch {c fd : ℕ} (hphase : (s.context c).phase = .unregistered) (hfd : (s.context c).fFileDesc = some fd) :
    Stepped s (.removeWatch c) (s.removeWatch c fd)
  | wakeup {p : EventQueues.Answer × EventQueue} (hp : EventQueues.apply .wakeup s.queue = some p) :
    Stepped s .wakeup { s with queue := p.2 }
  | closeFds {p : EventQueues.Answer × EventQueue} (hp : EventQueues.apply .closeFds s.queue = some p) :
    Stepped s .closeFds { s with queue := p.2 }
  | drain {p : EventQueues.Answer × EventQueue} (hp : EventQueues.apply .drain s.queue = some p) :
    Stepped s .drain { s with queue := p.2 }
  | setMaxevent {p : EventQueues.Answer × EventQueue} (hp : EventQueues.apply .setMaxevent s.queue = some p) :
    Stepped s .setMaxevent { s with queue := p.2 }
  | epollWait {back : Option (List Event)} {p : EventQueues.Answer × EventQueue}
    (hp : EventQueues.apply (.epollWait back) s.queue = some p) :
    Stepped s (.epollWait back) { s with queue := p.2 }
  | take {s' : System} (hevent : s.event = .waiting) (htake : s.take = some s') : Stepped s .take s'
  | resolve {fd : ℕ} {ev_data : Cookie} (hevent : s.event = .reported fd ev_data) :
    Stepped s .resolve (s.resolve fd ev_data)
  | processEvent {fd ref : ℕ} (hevent : s.event = .resolved fd ref) : Stepped s .processEvent (s.processEvent fd ref)
  | signal {fd ref task : ℕ} (hevent : s.event = .signalling fd ref task) :
    Stepped s .signal { s with world := s.world.signal task kReadEvent, event := .releasing fd ref }
  | release {fd ref : ℕ} (hevent : s.event = .releasing fd ref) : Stepped s .release (s.release ref)

theorem queueStep_eq_some {s s' : System} {op : EventQueues.Op} (h : queueStep op s = some s') :
    ∃ p, EventQueues.apply op s.queue = some p ∧ s' = { s with queue := p.2 } := by
  rw [queueStep, Option.ite_none_right_eq_some, Option.map_eq_some_iff] at h
  obtain ⟨-, p, hp, rfl⟩ := h
  exact ⟨p, hp, rfl⟩

theorem Taken.stepped {s s' : System} {a : Act} (h : Taken s a s') : EventContexts.Stepped s a s' := by
  cases a with
  | task a =>
    obtain ⟨w, hw, rfl⟩ := Option.map_eq_some_iff.mp h
    exact EventContexts.Stepped.task hw
  | construct c notifytask =>
    simp only [Taken, step, Option.ite_none_right_eq_some, Option.some.injEq] at h
    obtain ⟨hphase, rfl⟩ := h
    exact EventContexts.Stepped.construct hphase notifytask
  | openSocket c fd =>
    simp only [Taken, step, Option.ite_none_right_eq_some, Option.some.injEq] at h
    obtain ⟨hphase, rfl⟩ := h
    exact EventContexts.Stepped.openSocket hphase fd
  | setTask c inTask =>
    simp only [Taken, step, Option.ite_none_right_eq_some, Option.some.injEq] at h
    obtain ⟨hphase, rfl⟩ := h
    exact EventContexts.Stepped.setTask hphase inTask
  | requestEvent c theMask =>
    simp only [Taken, step, Option.ite_none_right_eq_some, Option.some.injEq] at h
    obtain ⟨hphase, rfl⟩ := h
    exact EventContexts.Stepped.requestEvent hphase theMask
  | number c =>
    simp only [Taken, step] at h
    split at h
    · obtain rfl := Option.some.inj h
      exact EventContexts.Stepped.number ‹_›
    · cases h
  | register c =>
    simp only [Taken, step] at h
    split at h
    · obtain rfl := Option.some.inj h
      exact EventContexts.Stepped.register ‹_›
    · cases h
  | watch c =>
    simp only [Taken, step] at h
    split at h
    · obtain rfl := Option.some.inj h
      exact EventContexts.Stepped.watch ‹_› ‹_›
    · cases h
  | cleanUp c =>
    simp only [Taken, step, Option.ite_none_right_eq_some] at h
    exact EventContexts.Stepped.cleanUp h.1 h.2
  | removeWatch c =>
    simp only [Taken, step] at h
    split at h
    · obtain rfl := Option.some.inj h
      exact EventContexts.Stepped.removeWatch ‹_› ‹_›
    · cases h
  | wakeup =>
    obtain ⟨p, hp, rfl⟩ := Option.map_eq_some_iff.mp h
    exact EventContexts.Stepped.wakeup hp
  | closeFds =>
    obtain ⟨p, hp, rfl⟩ := queueStep_eq_some h
    exact EventContexts.Stepped.closeFds hp
  | drain =>
    obtain ⟨p, hp, rfl⟩ := queueStep_eq_some h
    exact EventContexts.Stepped.drain hp
  | setMaxevent =>
    obtain ⟨p, hp, rfl⟩ := queueStep_eq_some h
    exact EventContexts.Stepped.setMaxevent hp
  | epollWait back =>
    obtain ⟨p, hp, rfl⟩ := queueStep_eq_some h
    exact EventContexts.Stepped.epollWait hp
  | take =>
    simp only [Taken, step, Option.ite_none_right_eq_some] at h
    exact EventContexts.Stepped.take h.1 h.2
  | resolve =>
    simp only [Taken, step] at h
    split at h
    · obtain rfl := Option.some.inj h
      exact EventContexts.Stepped.resolve ‹_›
    · cases h
  | processEvent =>
    simp only [Taken, step] at h
    split at h
    · obtain rfl := Option.some.inj h
      exact EventContexts.Stepped.processEvent ‹_›
    · cases h
  | signal =>
    simp only [Taken, step] at h
    split at h
    · obtain rfl := Option.some.inj h
      exact EventContexts.Stepped.signal ‹_›
    · cases h
  | release =>
    simp only [Taken, step] at h
    split at h
    · obtain rfl := Option.some.inj h
      exact EventContexts.Stepped.release ‹_›
    · cases h

end Tefs.DataServer.EventContexts
