import Mathlib.Data.BitVec
import Mathlib.Logic.Function.Basic
import Tefs.Lib.Runs

/-! # The event queue of the data server

Source: `CommonUtilitiesLib/ev.cpp`, the part under `_EPOLL`, which the server is built with.

Any thread watches descriptors and removes them, each in one step under the mutex and a later byte into the pipe; the
event thread goes round in `epoll_waitevent`, whose `noevent` closes what has been removed before it empties the pipe.
The kernel is its list of what is watched, and the answers of `epoll_wait`, which are any that this list allows.
-/

namespace Tefs.DataServer.EventQueues
open Runs
set_option autoImplicit false

abbrev EventMask := BitVec 32

/-- A `void*` that goes with a descriptor -/
abbrev Cookie := BitVec 64

def EPOLLIN : EventMask := 0x1
def EPOLLOUT : EventMask := 0x4
def EPOLLET : EventMask := 0x80000000

def CookieArraySize : ℕ := 10240
def FDCloseArraySize : ℕ := 1024

/-- An entry of `EventPool` that says that its descriptor is not watched -/
def unwatched : EventMask := -1

structure Event where
  fd : ℕ
  events : EventMask
  deriving DecidableEq, Repr

/-- Where the event thread is: at the head of the loop of `epoll_waitevent`, between the two halves of `noevent`, about to
read `EventPoolSize`, in `epoll_wait`, or behind the loop. -/
inductive Pc
  | head
  | draining
  | sizing
  | polling
  | taking
  deriving DecidableEq, Repr

/-- `events_return` is `none` where `epoll_wait` has failed, and its length `sNumFDsBackFromEpoll` elsewhere; `signallers`
are the threads that have left the mutex and not written to the pipe yet. -/
structure EventQueue where
  sPipe : ℕ
  EventPool : ℕ → EventMask
  EventPoolSize : BitVec 32
  sCookieArray : ℕ → Cookie
  sFDsToCloseArray : List ℕ
  events_return : Option (List Event)
  maxevent : ℕ
  process_num : ℕ
  isdone : Bool
  pc : Pc
  signallers : ℕ
  pipe : ℕ
  interest : ℕ → Option EventMask

namespace EventQueue

/-! ## The kernel -/

def ctlAdd (fd : ℕ) (events : EventMask) (q : EventQueue) : EventQueue :=
  if q.interest fd = none then { q with interest := Function.update q.interest fd (some events) } else q

def ctlMod (fd : ℕ) (events : EventMask) (q : EventQueue) : EventQueue :=
  if q.interest fd = none then q else { q with interest := Function.update q.interest fd (some events) }

def ctlDel (fd : ℕ) (q : EventQueue) : EventQueue := { q with interest := Function.update q.interest fd none }

/-! ## The functions -/

/-- `epoll_startevents`: `memset` has set so many bytes of `EventPool`, and an entry is of four. -/
def startevents (sPipe : ℕ) : EventQueue where
  sPipe
  EventPool := Function.update (fun fd => if fd < CookieArraySize / 4 then unwatched else 0) sPipe (EPOLLIN ||| EPOLLET)
  EventPoolSize := 1
  sCookieArray := fun _ => 0
  sFDsToCloseArray := []
  events_return := some []
  maxevent := 0
  process_num := 0
  isdone := false
  pc := .head
  signallers := 0
  pipe := 0
  interest := Function.update (fun _ => none) sPipe (some (EPOLLIN ||| EPOLLET))

/-- `epoll_modwatch`, up to the write to the pipe -/
def modwatch (fd : ℕ) (which : EventMask) (ev_data : Cookie) (q : EventQueue) : EventQueue :=
  let watched :=
    if q.EventPool fd = unwatched then
      { q.ctlAdd fd which with EventPool := Function.update q.EventPool fd which,
                               EventPoolSize := q.EventPoolSize + 1 }
    else if q.EventPool fd ≠ which then q.ctlMod fd which
    else q
  { watched with sCookieArray := Function.update q.sCookieArray fd ev_data, signallers := q.signallers + 1 }

/-- `epoll_removeevent`, up to the write to the pipe -/
def removeevent (which : ℕ) (q : EventQueue) : EventQueue :=
  { q.ctlDel which with sCookieArray := Function.update q.sCookieArray which 0,
                        EventPool := Function.update q.EventPool which unwatched,
                        EventPoolSize := q.EventPoolSize - 1,
                        sFDsToCloseArray := q.sFDsToCloseArray ++ [which],
                        signallers := q.signallers + 1 }

/-- Nothing but the pipe has been reported. -/
def onlyPipe (q : EventQueue) : Bool :=
  match q.events_return with
  | some [] => true
  | some [event] => event.fd = q.sPipe
  | _ => false

/-- `maxevent = EventPoolSize` under the mutex, and the test that follows it -/
def setMaxevent (q : EventQueue) : EventQueue :=
  { q with maxevent := if q.EventPoolSize = 0 then 10 else q.EventPoolSize.toNat, pc := .polling }

end EventQueue

inductive Op
  | modwatch (fd : ℕ) (which : EventMask) (ev_data : Cookie)
  | removeevent (which : ℕ)
  | wakeup
  | closeFds
  | drain
  | setMaxevent
  | epollWait (back : Option (List Event))
  | take
  deriving DecidableEq, Repr

inductive Answer
  | done
  | closed (fds : List ℕ)
  | event (event : Event) (ev_data : Cookie)
  | eintr
  deriving DecidableEq, Repr

open EventQueue in
/-- One step: `wakeup` is the write to the pipe, `closeFds` and `drain` are the halves of `noevent`. -/
def apply : Op → EventQueue → Option (Answer × EventQueue)
  | .modwatch fd which ev_data, q => some (.done, q.modwatch fd which ev_data)
  | .removeevent which, q => some (.done, q.removeevent which)
  | .wakeup, q =>
    if 0 < q.signallers then some (.done, { q with signallers := q.signallers - 1, pipe := q.pipe + 1 }) else none
  | .closeFds, q =>
    if q.pc = .head then
      some (.closed q.sFDsToCloseArray, { q with sFDsToCloseArray := [], pc := .draining })
    else none
  | .drain, q =>
    if q.pc = .draining then
      some (.done, { q with pipe := 0, pc := if q.onlyPipe ∨ q.isdone then .sizing else .taking })
    else none
  | .setMaxevent, q => if q.pc = .sizing then some (.done, q.setMaxevent) else none
  | .epollWait back, q =>
    if q.pc = .polling then some (.done, { q with events_return := back, isdone := false, pc := .head }) else none
  | .take, q =>
    if q.pc = .taking then
      match (q.events_return.getD [])[q.process_num]? with
      | some event =>
        some (.event event (q.sCookieArray event.fd), { q with process_num := q.process_num + 1, pc := .head })
      | none => some (.eintr, { q with isdone := true, process_num := 0, pc := .head })
    else none

/-- What `epoll_wait` may answer, and what the callers see to: a descriptor is watched with a cookie while it is open,
for some events, and it is removed before the array of those to be closed is full. -/
def Allowed (q : EventQueue) : Op → Prop
  | .modwatch fd which ev_data =>
    fd < CookieArraySize ∧ fd ≠ q.sPipe ∧ fd ∉ q.sFDsToCloseArray ∧ which ≠ unwatched ∧ ev_data ≠ 0
  | .removeevent which =>
    which < CookieArraySize ∧ which ≠ q.sPipe ∧ which ∉ q.sFDsToCloseArray ∧
      q.sFDsToCloseArray.length < FDCloseArraySize
  | .epollWait (some back) =>
    back.length ≤ q.maxevent ∧ (back.map Event.fd).Nodup ∧ ∀ event ∈ back, (q.interest event.fd).isSome
  | _ => True

instance (q : EventQueue) : ∀ op, Decidable (Allowed q op)
  | .modwatch _ _ _ => inferInstanceAs (Decidable (_ ∧ _))
  | .removeevent _ => inferInstanceAs (Decidable (_ ∧ _))
  | .epollWait (some _) => inferInstanceAs (Decidable (_ ∧ _))
  | .epollWait none => .isTrue trivial
  | .wakeup => .isTrue trivial
  | .closeFds => .isTrue trivial
  | .drain => .isTrue trivial
  | .setMaxevent => .isTrue trivial
  | .take => .isTrue trivial

/-- A step with its answer -/
def Call (q : EventQueue) (call : Op × Answer) (q' : EventQueue) : Prop := apply call.1 q = some (call.2, q')

variable {q q' : EventQueue} {call : Op × Answer}

/-- The steps there are -/
inductive Stepped (q : EventQueue) : Op × Answer → EventQueue → Prop
  | modwatch (fd : ℕ) (which : EventMask) (ev_data : Cookie) :
    Stepped q (.modwatch fd which ev_data, .done) (q.modwatch fd which ev_data)
  | removeevent (which : ℕ) : Stepped q (.removeevent which, .done) (q.removeevent which)
  | wakeup (hpos : 0 < q.signallers) :
    Stepped q (.wakeup, .done) { q with signallers := q.signallers - 1, pipe := q.pipe + 1 }
  | closeFds (hpc : q.pc = .head) :
    Stepped q (.closeFds, .closed q.sFDsToCloseArray) { q with sFDsToCloseArray := [], pc := .draining }
  | drain (hpc : q.pc = .draining) :
    Stepped q (.drain, .done) { q with pipe := 0, pc := if q.onlyPipe ∨ q.isdone then .sizing else .taking }
  | setMaxevent (hpc : q.pc = .sizing) : Stepped q (.setMaxevent, .done) q.setMaxevent
  | epollWait (hpc : q.pc = .polling) (back : Option (List Event)) :
    Stepped q (.epollWait back, .done) { q with events_return := back, isdone := false, pc := .head }
  | event (hpc : q.pc = .taking) {event : Event} (hevent : (q.events_return.getD [])[q.process_num]? = some event) :
    Stepped q (.take, .event event (q.sCookieArray event.fd)) { q with process_num := q.process_num + 1, pc := .head }
  | eintr (hpc : q.pc = .taking) (hend : (q.events_return.getD [])[q.process_num]? = none) :
    Stepped q (.take, .eintr) { q with isdone := true, process_num := 0, pc := .head }

theorem Call.stepped (h : Call q call q') : Stepped q call q' := by
  obtain ⟨op, answer⟩ := call
  cases op with
  | modwatch fd which ev_data =>
    obtain ⟨rfl, rfl⟩ := Prod.mk.inj (Option.some.inj h)
    exact .modwatch fd which ev_data
  | removeevent which =>
    obtain ⟨rfl, rfl⟩ := Prod.mk.inj (Option.some.inj h)
    exact .removeevent which
  | wakeup =>
    simp only [Call, apply, Option.ite_none_right_eq_some, Option.some.injEq, Prod.mk.injEq] at h
    obtain ⟨hpos, rfl, rfl⟩ := h
    exact .wakeup hpos
  | closeFds =>
    simp only [Call, apply, Option.ite_none_right_eq_some, Option.some.injEq, Prod.mk.injEq] at h
    obtain ⟨hpc, rfl, rfl⟩ := h
    exact .closeFds hpc
  | drain =>
    simp only [Call, apply, Option.ite_none_right_eq_some, Option.some.injEq, Prod.mk.injEq] at h
    obtain ⟨hpc, rfl, rfl⟩ := h
    exact .drain hpc
  | setMaxevent =>
    simp only [Call, apply, Option.ite_none_right_eq_some, Option.some.injEq, Prod.mk.injEq] at h
    obtain ⟨hpc, rfl, rfl⟩ := h
    exact .setMaxevent hpc
  | epollWait back =>
    simp only [Call, apply, Option.ite_none_right_eq_some, Option.some.injEq, Prod.mk.injEq] at h
    obtain ⟨hpc, rfl, rfl⟩ := h
    exact .epollWait hpc back
  | take =>
    simp only [Call, apply, Option.ite_none_right_eq_some] at h
    obtain ⟨hpc, h⟩ := h
    split at h <;> obtain ⟨rfl, rfl⟩ := Prod.mk.inj (Option.some.inj h)
    · exact .event hpc ‹_›
    · exact .eintr hpc ‹_›

/-- What `epoll_modwatch` leaves alone, when it comes to the event thread -/
theorem modwatch_frame (q : EventQueue) (fd : ℕ) (which : EventMask) (ev_data : Cookie) :
    ∃ EventPool EventPoolSize interest, q.modwatch fd which ev_data =
      { q with EventPool := EventPool, EventPoolSize := EventPoolSize, interest := interest,
               sCookieArray := Function.update q.sCookieArray fd ev_data, signallers := q.signallers + 1 } := by
  simp only [EventQueue.modwatch, EventQueue.ctlAdd, EventQueue.ctlMod]
  (repeat' split) <;> exact ⟨_, _, _, rfl⟩

/-! ## What a run has done -/

abbrev Calls := List (Op × Answer)

/-- What an answer of `epoll_wait` brings, unless it is the pipe alone -/
def reportedBy (sPipe : ℕ) : Op → List Event
  | .epollWait (some [event]) => if event.fd = sPipe then [] else [event]
  | .epollWait (some back) => back
  | _ => []

def reported (sPipe : ℕ) (calls : Calls) : List Event := calls.flatMap fun call => reportedBy sPipe call.1

def handedBy : Answer → Option Event
  | .event event _ => some event
  | _ => none

def handed (calls : Calls) : List Event := calls.filterMap fun call => handedBy call.2

def removedBy : Op → Option ℕ
  | .removeevent which => some which
  | _ => none

def removed (calls : Calls) : List ℕ := calls.filterMap fun call => removedBy call.1

def closedBy : Answer → List ℕ
  | .closed fds => fds
  | _ => []

def closed (calls : Calls) : List ℕ := calls.flatMap fun call => closedBy call.2

/-- The cookie of a descriptor, and what events it has been watched for since it was last removed, if it ever was -/
structure History where
  cookie : Cookie
  everRemoved : Bool
  masks : List EventMask

def History.next (fd : ℕ) (H : History) (call : Op × Answer) : History :=
  match call.1 with
  | .modwatch fd' which ev_data => if fd' = fd then ⟨ev_data, H.everRemoved, H.masks ++ [which]⟩ else H
  | .removeevent fd' => if fd' = fd then ⟨0, true, []⟩ else H
  | _ => H

def history (fd : ℕ) (calls : Calls) : History := calls.foldl (History.next fd) ⟨0, false, []⟩

/-- Whether `EventPool` has said of the descriptor that it is not watched -/
def History.known (fd : ℕ) (H : History) : Bool := fd < CookieArraySize / 4 || H.everRemoved

/-- What the kernel watches a descriptor for: the events asked for last that are not those asked for first, or those
asked for first when there are no others. -/
def watchedFor (known : Bool) : List EventMask → Option EventMask
  | [] => none
  | first :: rest => if known then some ((rest.filter (· ≠ first)).getLast?.getD first) else none

def History.watched (fd : ℕ) (H : History) : Option EventMask := watchedFor (H.known fd) H.masks

/-! ## No event is lost -/

variable {calls : Calls} {sPipe : ℕ}

/-- What has been reported and not handed out yet -/
def EventQueue.pending (q : EventQueue) : List Event :=
  if q.onlyPipe ∨ q.isdone then [] else (q.events_return.getD []).drop q.process_num

/-- Where `process_num` and `isdone` stand: the event thread waits in the kernel only when it has handed out everything. -/
structure Turning (q : EventQueue) : Prop where
  restart : q.onlyPipe ∨ q.isdone → q.process_num = 0
  sizing : q.pc = .sizing → q.onlyPipe ∨ q.isdone
  polling : q.pc = .polling → q.onlyPipe ∨ q.isdone
  taking : q.pc = .taking → ¬(q.onlyPipe ∨ q.isdone)

structure Delivered (sPipe : ℕ) (calls : Calls) (q : EventQueue) : Prop where
  sPipe_eq : q.sPipe = sPipe
  turning : Turning q
  handed_pending : handed calls ++ q.pending = reported sPipe calls

theorem handed_concat : handed (calls ++ [call]) = handed calls ++ (handedBy call.2).toList := by
  rw [handed, List.filterMap_append]
  cases hcall : handedBy call.2 <;> simp [handed, hcall]

theorem reported_concat : reported sPipe (calls ++ [call]) = reported sPipe calls ++ reportedBy sPipe call.1 := by
  simp [reported]

/-- A step that neither reports nor hands out anything, nor moves the loop on -/
theorem Delivered.of_same (h : Delivered sPipe calls q) (hhanded : handedBy call.2 = none)
    (hreported : reportedBy sPipe call.1 = []) (hpipe : q'.sPipe = q.sPipe)
    (hevents : q'.events_return = q.events_return) (hnum : q'.process_num = q.process_num)
    (hdone : q'.isdone = q.isdone) (hpc : q'.pc = q.pc ∨ q'.pc = .draining) :
    Delivered sPipe (calls ++ [call]) q' := by
  have honly : q'.onlyPipe = q.onlyPipe := by
    rw [EventQueue.onlyPipe, EventQueue.onlyPipe, hevents, hpipe]
  have hpending : q'.pending = q.pending := by
    rw [EventQueue.pending, EventQueue.pending, honly, hdone, hevents, hnum]
  refine ⟨hpipe.trans h.sPipe_eq, ⟨?_, ?_, ?_, ?_⟩, ?_⟩
  · rw [honly, hdone, hnum]
    exact h.turning.restart
  · rw [honly, hdone]
    rcases hpc with hpc | hpc <;> rw [hpc]
    · exact h.turning.sizing
    · exact nofun
  · rw [honly, hdone]
    rcases hpc with hpc | hpc <;> rw [hpc]
    · exact h.turning.polling
    · exact nofun
  · rw [honly, hdone]
    rcases hpc with hpc | hpc <;> rw [hpc]
    · exact h.turning.taking
    · exact nofun
  · rw [handed_concat, reported_concat, hhanded, hreported, hpending]
    simpa using h.handed_pending

theorem Delivered.drain (h : Delivered sPipe calls q) :
    Delivered sPipe (calls ++ [(.drain, .done)])
      { q with pipe := 0, pc := if q.onlyPipe ∨ q.isdone then .sizing else .taking } := by
  refine ⟨h.sPipe_eq, ⟨h.turning.restart, fun hpc => ?_, fun hpc => ?_, fun hpc => ?_⟩, ?_⟩
  · by_contra hcond
    exact absurd ((if_neg hcond).symm.trans hpc) nofun
  · by_cases hcond : q.onlyPipe ∨ q.isdone
    · exact absurd ((if_pos hcond).symm.trans hpc) nofun
    · exact absurd ((if_neg hcond).symm.trans hpc) nofun
  · intro hcond
    exact absurd ((if_pos hcond).symm.trans hpc) nofun
  · rw [handed_concat, reported_concat]
    simp only [handedBy, reportedBy, Option.toList_none, List.append_nil]
    exact h.handed_pending

theorem Delivered.setMaxevent (h : Delivered sPipe calls q) (hpc : q.pc = .sizing) :
    Delivered sPipe (calls ++ [(.setMaxevent, .done)]) q.setMaxevent := by
  refine ⟨h.sPipe_eq, ⟨h.turning.restart, nofun, fun _ => h.turning.sizing hpc, nofun⟩, ?_⟩
  rw [handed_concat, reported_concat]
  simp only [handedBy, reportedBy, Option.toList_none, List.append_nil]
  exact h.handed_pending

theorem Delivered.epollWait (h : Delivered sPipe calls q) (hpc : q.pc = .polling) (back : Option (List Event)) :
    Delivered sPipe (calls ++ [(.epollWait back, .done)])
      { q with events_return := back, isdone := false, pc := .head } := by
  have hcond := h.turning.polling hpc
  have hnum := h.turning.restart hcond
  have hall : handed calls = reported sPipe calls := by
    have := h.handed_pending
    rwa [EventQueue.pending, if_pos hcond, List.append_nil] at this
  refine ⟨h.sPipe_eq, ⟨fun _ => hnum, nofun, nofun, nofun⟩, ?_⟩
  rw [handed_concat, reported_concat, hall]
  simp only [handedBy, Option.toList_none, List.append_nil]
  refine congrArg (reported sPipe calls ++ ·) ?_
  rw [EventQueue.pending, hnum]
  match back with
  | none => rfl
  | some [] => rfl
  | some [event] =>
    by_cases hfd : event.fd = sPipe <;> simp [EventQueue.onlyPipe, reportedBy, h.sPipe_eq, hfd]
  | some (event :: event' :: rest) => simp [EventQueue.onlyPipe, reportedBy]

theorem Delivered.take_event (h : Delivered sPipe calls q) (hpc : q.pc = .taking) {event : Event}
    (hevent : (q.events_return.getD [])[q.process_num]? = some event) :
    Delivered sPipe (calls ++ [(.take, .event event (q.sCookieArray event.fd))])
      { q with process_num := q.process_num + 1, pc := .head } := by
  have hcond := h.turning.taking hpc
  refine ⟨h.sPipe_eq, ⟨fun hcond' => absurd hcond' hcond, nofun, nofun, nofun⟩, ?_⟩
  have hpending := h.handed_pending
  obtain ⟨hlt, hget⟩ := List.getElem?_eq_some_iff.mp hevent
  rw [EventQueue.pending, if_neg hcond, List.drop_eq_getElem_cons hlt, hget] at hpending
  have hrest : EventQueue.pending { q with process_num := q.process_num + 1, pc := .head } =
      (q.events_return.getD []).drop (q.process_num + 1) := if_neg hcond
  rw [handed_concat, reported_concat, hrest]
  simpa [handedBy, reportedBy] using hpending

theorem Delivered.take_eintr (h : Delivered sPipe calls q) (hpc : q.pc = .taking)
    (hend : (q.events_return.getD [])[q.process_num]? = none) :
    Delivered sPipe (calls ++ [(.take, .eintr)]) { q with isdone := true, process_num := 0, pc := .head } := by
  have hcond := h.turning.taking hpc
  refine ⟨h.sPipe_eq, ⟨fun _ => rfl, nofun, nofun, nofun⟩, ?_⟩
  have hpending := h.handed_pending
  rw [EventQueue.pending, if_neg hcond, List.drop_of_length_le (List.getElem?_eq_none_iff.mp hend)] at hpending
  rw [handed_concat, reported_concat]
  simpa [EventQueue.pending, handedBy, reportedBy] using hpending

theorem Delivered.step (h : Delivered sPipe calls q) (hcall : Call q call q') :
    Delivered sPipe (calls ++ [call]) q' := by
  cases hcall.stepped with
  | modwatch fd which ev_data =>
    obtain ⟨_, _, _, hframe⟩ := modwatch_frame q fd which ev_data
    rw [hframe]
    exact h.of_same rfl rfl rfl rfl rfl rfl (.inl rfl)
  | removeevent which => exact h.of_same rfl rfl rfl rfl rfl rfl (.inl rfl)
  | wakeup => exact h.of_same rfl rfl rfl rfl rfl rfl (.inl rfl)
  | closeFds => exact h.of_same rfl rfl rfl rfl rfl rfl (.inr rfl)
  | drain => exact h.drain
  | setMaxevent hpc => exact h.setMaxevent hpc
  | epollWait hpc back => exact h.epollWait hpc back
  | event hpc hevent => exact h.take_event hpc hevent
  | eintr hpc hend => exact h.take_eintr hpc hend

theorem startevents_delivered (sPipe : ℕ) : Delivered sPipe [] (.startevents sPipe) :=
  ⟨rfl, ⟨fun _ => rfl, nofun, nofun, nofun⟩, rfl⟩

/-- Descriptor 7 is watched for input, reported with the pipe, watched for output and for input again; descriptor 8 is
removed. -/
def exampleCalls : Calls :=
  [(.modwatch 7 (EPOLLIN ||| EPOLLET) 2, .done), (.closeFds, .closed []), (.drain, .done), (.setMaxevent, .done),
    (.epollWait (some [⟨7, EPOLLIN⟩, ⟨3, EPOLLIN⟩]), .done), (.closeFds, .closed []), (.drain, .done),
    (.take, .event ⟨7, EPOLLIN⟩ 2), (.modwatch 7 (EPOLLOUT ||| EPOLLET) 2, .done),
    (.modwatch 7 (EPOLLIN ||| EPOLLET) 2, .done), (.removeevent 8, .done)]

def exampleEnd : EventQueue :=
  exampleCalls.foldl (fun q call => ((apply call.1 q).map Prod.snd).getD q) (.startevents 3)

theorem example_reaches : Reaches Call (fun q call => Allowed q call.1) (.startevents 3) exampleCalls exampleEnd :=
  .cons (by decide) rfl (.cons (by decide) rfl (.cons (by decide) rfl (.cons (by decide) rfl (.cons (by decide) rfl
    (.cons (by decide) rfl (.cons (by decide) rfl (.cons (by decide) rfl (.cons (by decide) rfl (.cons (by decide) rfl
      (.cons (by decide) rfl (.nil _)))))))))))

/-- In every order of steps, what has been handed out, with what is still to be, is what the kernel has reported, in this
order; the event thread goes back into the kernel only when it has handed out all of it. -/
theorem events_handed_out_once
    (h : Reaches Call (fun q call => Allowed q call.1) (.startevents sPipe) calls q) :
    handed calls ++ q.pending = reported sPipe calls ∧ (q.pc = .polling → handed calls = reported sPipe calls) := by
  have hdelivered : Delivered sPipe calls q :=
    h.invariant_history (fun _ _ _ _ h _ hcall => h.step hcall) (startevents_delivered sPipe)
  refine ⟨hdelivered.handed_pending, fun hpc => ?_⟩
  have hpending := hdelivered.handed_pending
  rwa [EventQueue.pending, if_pos (hdelivered.turning.polling hpc), List.append_nil] at hpending

theorem events_handed_out_once_example :
    handed exampleCalls ++ exampleEnd.pending = reported 3 exampleCalls ∧
      (exampleEnd.pc = .polling → handed exampleCalls = reported 3 exampleCalls) :=
  events_handed_out_once example_reaches

/-! ## What is watched -/

/-- The entries of one descriptor: its cookie, its mark in `EventPool`, and what the kernel watches it for -/
structure Follows (H : History) (fd : ℕ) (q : EventQueue) : Prop where
  cookie : q.sCookieArray fd = H.cookie
  mark : q.EventPool fd = if H.known fd then H.masks.head?.getD unwatched else 0
  masks : ∀ which ∈ H.masks, which ≠ unwatched
  interest : q.interest fd = H.watched fd

theorem history_concat (fd : ℕ) : history fd (calls ++ [call]) = (history fd calls).next fd call := by
  simp [history]

namespace EventQueue

variable {fd fd' : ℕ} {which : EventMask} {ev_data : Cookie}

theorem interest_ctlAdd (q : EventQueue) : (q.ctlAdd fd' which).interest fd =
    if fd = fd' ∧ q.interest fd' = none then some which else q.interest fd := by
  rw [ctlAdd]
  by_cases hfd : fd = fd'
  · subst hfd
    split <;> simp [*]
  · split <;> simp [*]

theorem interest_ctlMod (q : EventQueue) : (q.ctlMod fd' which).interest fd =
    if fd = fd' ∧ q.interest fd' ≠ none then some which else q.interest fd := by
  rw [ctlMod]
  by_cases hfd : fd = fd'
  · subst hfd
    split <;> simp [*]
  · split <;> simp [*]

theorem modwatch_cookie (q : EventQueue) :
    (q.modwatch fd' which ev_data).sCookieArray = Function.update q.sCookieArray fd' ev_data := rfl

theorem modwatch_other (q : EventQueue) (which : EventMask) (ev_data : Cookie) (hfd : fd ≠ fd') :
    (q.modwatch fd' which ev_data).EventPool fd = q.EventPool fd ∧
      (q.modwatch fd' which ev_data).interest fd = q.interest fd := by
  rw [modwatch]
  split
  · simp [hfd, interest_ctlAdd]
  · split
    · refine ⟨?_, by simp [hfd, interest_ctlMod]⟩
      rw [ctlMod]
      split <;> rfl
    · exact ⟨rfl, rfl⟩

theorem modwatch_self (q : EventQueue) (fd : ℕ) (which : EventMask) (ev_data : Cookie) :
    (q.modwatch fd which ev_data).EventPool fd = (if q.EventPool fd = unwatched then which else q.EventPool fd) ∧
      (q.modwatch fd which ev_data).interest fd =
        if q.EventPool fd = unwatched then (q.ctlAdd fd which).interest fd
        else if q.EventPool fd ≠ which then (q.ctlMod fd which).interest fd
        else q.interest fd := by
  rw [modwatch]
  split
  · exact ⟨Function.update_self .., rfl⟩
  · split
    · refine ⟨?_, rfl⟩
      rw [ctlMod]
      split <;> rfl
    · exact ⟨rfl, rfl⟩

end EventQueue

theorem watchedFor_false (masks : List EventMask) : watchedFor false masks = none := by
  cases masks <;> rfl

theorem watchedFor_concat (first which : EventMask) (rest : List EventMask) :
    watchedFor true (first :: rest ++ [which]) =
      if first = which then watchedFor true (first :: rest) else some which := by
  by_cases hsame : first = which
  · subst hsame
    simp [watchedFor]
  · simp [watchedFor, hsame, Ne.symm hsame]

theorem Follows.modwatch {H : History} {fd : ℕ} (h : Follows H fd q) {which : EventMask} (hwhich : which ≠ unwatched)
    (ev_data : Cookie) :
    Follows ⟨ev_data, H.everRemoved, H.masks ++ [which]⟩ fd (q.modwatch fd which ev_data) := by
  have hmasks : ∀ which' ∈ H.masks ++ [which], which' ≠ unwatched := by
    simpa [or_imp, forall_and] using ⟨h.masks, hwhich⟩
  obtain ⟨hpool, hkernel⟩ := q.modwatch_self fd which ev_data
  rw [EventQueue.interest_ctlAdd, EventQueue.interest_ctlMod, h.interest, h.mark, History.watched] at hkernel
  rw [h.mark] at hpool
  have hknown : (⟨ev_data, H.everRemoved, H.masks ++ [which]⟩ : History).known fd = H.known fd := rfl
  refine ⟨Function.update_self .., hpool.trans ?_, hmasks, hkernel.trans ?_⟩
  · rw [hknown]
    cases H.known fd with
    | false => rfl
    | true =>
      cases hasked : H.masks with
      | nil => rfl
      | cons first rest => exact if_neg (h.masks first (hasked ▸ List.mem_cons_self))
  · rw [History.watched, hknown]
    cases H.known fd with
    | false =>
      have hzero : (0 : EventMask) ≠ unwatched := by decide
      simp only [watchedFor_false, hzero, Bool.false_eq_true, if_false, ne_eq, not_true_eq_false, and_false, ite_self]
    | true =>
      cases hasked : H.masks with
      | nil => simp [watchedFor]
      | cons first rest =>
        have hfirst := h.masks first (hasked ▸ List.mem_cons_self)
        have hsome : watchedFor true (first :: rest) ≠ none := nofun
        simp only [watchedFor_concat, if_true, List.head?_cons, Option.getD_some, hfirst, if_false, hsome, and_true,
          ne_eq, not_false_eq_true]
        split <;> simp [*]

theorem Follows.step {H : History} {fd : ℕ} (h : Follows H fd q) (hallowed : Allowed q call.1) (hcall : Call q call q') :
    Follows (H.next fd call) fd q' := by
  cases hcall.stepped with
  | modwatch fd' which ev_data =>
    obtain ⟨hlt, hpipe, hopen, hwhich, hcookie⟩ := hallowed
    by_cases hfd : fd' = fd
    · subst hfd
      have hnext : H.next fd' (.modwatch fd' which ev_data, .done) = ⟨ev_data, H.everRemoved, H.masks ++ [which]⟩ :=
        if_pos rfl
      rw [hnext]
      exact h.modwatch hwhich ev_data
    · have hnext : H.next fd (.modwatch fd' which ev_data, .done) = H := if_neg hfd
      obtain ⟨hpool, hinterest⟩ := q.modwatch_other which ev_data (Ne.symm hfd)
      rw [hnext]
      refine ⟨?_, hpool.trans h.mark, h.masks, hinterest.trans h.interest⟩
      rw [EventQueue.modwatch_cookie, Function.update_of_ne (Ne.symm hfd)]
      exact h.cookie
  | removeevent fd' =>
    by_cases hfd : fd' = fd
    · subst hfd
      have hnext : H.next fd' (.removeevent fd', .done) = ⟨0, true, []⟩ := if_pos rfl
      have hknown : (⟨0, true, []⟩ : History).known fd' = true := Bool.or_true _
      rw [hnext]
      refine ⟨Function.update_self .., ?_, nofun, Function.update_self ..⟩
      rw [if_pos hknown]
      exact Function.update_self ..
    · have hnext : H.next fd (.removeevent fd', .done) = H := if_neg hfd
      have hne := Ne.symm hfd
      rw [hnext]
      exact ⟨(Function.update_of_ne hne ..).trans h.cookie, (Function.update_of_ne hne ..).trans h.mark, h.masks,
        (Function.update_of_ne hne ..).trans h.interest⟩
  | wakeup => exact ⟨h.cookie, h.mark, h.masks, h.interest⟩
  | closeFds => exact ⟨h.cookie, h.mark, h.masks, h.interest⟩
  | drain => exact ⟨h.cookie, h.mark, h.masks, h.interest⟩
  | setMaxevent => exact ⟨h.cookie, h.mark, h.masks, h.interest⟩
  | epollWait => exact ⟨h.cookie, h.mark, h.masks, h.interest⟩
  | event => exact ⟨h.cookie, h.mark, h.masks, h.interest⟩
  | eintr => exact ⟨h.cookie, h.mark, h.masks, h.interest⟩

theorem startevents_follows {fd : ℕ} (hfd : fd ≠ sPipe) : Follows (history fd []) fd (.startevents sPipe) := by
  refine ⟨rfl, ?_, nofun, ?_⟩
  · simp only [EventQueue.startevents, Function.update_of_ne hfd]
    simp [History.known, history]
  · simp only [EventQueue.startevents, Function.update_of_ne hfd]
    rfl

/-- In every order of steps, a descriptor has the cookie it was last watched with, and the kernel watches it for the
events that were asked for last, unless these are the ones that were asked for first: then it goes on with the last
others. A descriptor from 2560 on is not watched at all until it has been removed once. -/
theorem kernel_watches_asked_events
    (h : Reaches Call (fun q call => Allowed q call.1) (.startevents sPipe) calls q) {fd : ℕ} (hfd : fd ≠ sPipe) :
    q.sCookieArray fd = (history fd calls).cookie ∧ q.interest fd = (history fd calls).watched fd := by
  have hfollows : Follows (history fd calls) fd q := by
    refine h.invariant_history (I := fun calls q => Follows (history fd calls) fd q)
      (fun calls q call q' hfollows hallowed hcall => ?_) (startevents_follows hfd)
    rw [history_concat]
    exact hfollows.step hallowed hcall
  exact ⟨hfollows.cookie, hfollows.interest⟩

theorem kernel_watches_asked_events_example :
    exampleEnd.sCookieArray 7 = (history 7 exampleCalls).cookie ∧
      exampleEnd.interest 7 = (history 7 exampleCalls).watched 7 :=
  kernel_watches_asked_events example_reaches (by decide)

/-- Input is asked for last, and output is what is watched. -/
example : (history 7 exampleCalls).watched 7 = some (EPOLLOUT ||| EPOLLET) := by decide

/-! ## What is closed -/

/-- No descriptor is removed between the two halves of `noevent`, whose second one empties the pipe. -/
def Undisturbed (q : EventQueue) : Op → Prop
  | .removeevent _ => q.pc ≠ .draining
  | _ => True

/-- Somebody will wake the event thread up for what is to be closed. -/
def Waking (q : EventQueue) : Prop :=
  (q.pc = .draining → q.sFDsToCloseArray = []) ∧ (q.sFDsToCloseArray ≠ [] → 0 < q.pipe + q.signallers)

theorem closed_step (h : closed calls ++ q.sFDsToCloseArray = removed calls) (hcall : Call q call q') :
    closed (calls ++ [call]) ++ q'.sFDsToCloseArray = removed (calls ++ [call]) := by
  have hclosed : closed (calls ++ [call]) = closed calls ++ closedBy call.2 := by simp [closed]
  have hremoved : removed (calls ++ [call]) = removed calls ++ (removedBy call.1).toList := by
    rw [removed, List.filterMap_append]
    cases hcall : removedBy call.1 <;> simp [removed, hcall]
  rw [hclosed, hremoved, ← h, List.append_assoc, List.append_assoc]
  refine congrArg (closed calls ++ ·) ?_
  cases hcall.stepped with
  | modwatch fd which ev_data =>
    obtain ⟨_, _, _, hframe⟩ := modwatch_frame q fd which ev_data
    simp [closedBy, removedBy, hframe]
  | removeevent which => rfl
  | closeFds => simp [closedBy, removedBy]
  | setMaxevent => simp [closedBy, removedBy, EventQueue.setMaxevent]
  | _ => simp [closedBy, removedBy]

theorem Waking.step (h : Waking q) (hcalm : Undisturbed q call.1) (hcall : Call q call q') : Waking q' := by
  cases hcall.stepped with
  | modwatch fd which ev_data =>
    obtain ⟨_, _, _, hframe⟩ := modwatch_frame q fd which ev_data
    rw [hframe]
    exact ⟨h.1, fun _ => Nat.lt_add_left _ (Nat.succ_pos _)⟩
  | removeevent which => exact ⟨fun hpc => absurd hpc hcalm, fun _ => Nat.lt_add_left _ (Nat.succ_pos _)⟩
  | wakeup hpos => exact ⟨h.1, fun _ => Nat.lt_add_right _ (Nat.succ_pos _)⟩
  | closeFds hpc => exact ⟨fun _ => rfl, fun hne => absurd rfl hne⟩
  | drain hpc =>
    refine ⟨fun hpc' => ?_, fun hne => absurd (h.1 hpc) hne⟩
    dsimp only at hpc'
    split at hpc' <;> exact absurd hpc' nofun
  | setMaxevent => exact ⟨nofun, h.2⟩
  | epollWait hpc back => exact ⟨nofun, h.2⟩
  | event => exact ⟨nofun, h.2⟩
  | eintr => exact ⟨nofun, h.2⟩

/-- In every order of steps, every descriptor that is removed is closed once, in the order of removal. Where none is
removed between the two halves of `noevent`, the event thread does not wait for ever with descriptors left to close: there
is a byte in the pipe, or one about to be written. -/
theorem removed_descriptors_closed
    (h : Reaches Call (fun q call => Allowed q call.1) (.startevents sPipe) calls q) :
    closed calls ++ q.sFDsToCloseArray = removed calls ∧
      (Reaches Call (fun q call => Undisturbed q call.1) (.startevents sPipe) calls q →
        q.pc = .polling → q.sFDsToCloseArray ≠ [] → 0 < q.pipe + q.signallers) := by
  constructor
  · exact h.invariant_history (I := fun calls q => closed calls ++ q.sFDsToCloseArray = removed calls)
      (fun _ _ _ _ hclosed _ hcall => closed_step hclosed hcall) (show closed [] ++ [] = removed [] from rfl)
  · intro hcalm _
    have hwaking : Waking q :=
      hcalm.invariant (fun _ _ _ hwaking hcalm hcall => hwaking.step hcalm hcall) ⟨nofun, fun hne => absurd rfl hne⟩
    exact hwaking.2

theorem removed_descriptors_closed_example :
    closed exampleCalls ++ exampleEnd.sFDsToCloseArray = removed exampleCalls ∧
      (Reaches Call (fun q call => Undisturbed q call.1) (.startevents 3) exampleCalls exampleEnd →
        exampleEnd.pc = .polling → exampleEnd.sFDsToCloseArray ≠ [] → 0 < exampleEnd.pipe + exampleEnd.signallers) :=
  removed_descriptors_closed example_reaches

end Tefs.DataServer.EventQueues
