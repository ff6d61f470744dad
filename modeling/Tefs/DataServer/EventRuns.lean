import Tefs.DataServer.EventContexts

/-! # What the event thread touches, and whom an event reaches

Over every order of the steps of the task threads, of the threads that deal with sockets, and of the event thread: what
`Resolve` has given out cannot be destructed, and is what the event was for.
-/

namespace Tefs.DataServer.EventContexts
open Runs OSRefs EventQueues TaskThreads
set_option autoImplicit false

/-! ## Tasks that stay -/

def SameDeleted (w w' : World) : Prop := ∀ x, (w'.task x).deleted = (w.task x).deleted

section SameDeleted

variable {w w' w'' : World}

theorem SameDeleted.trans (h : SameDeleted w w') (h' : SameDeleted w' w'') : SameDeleted w w'' :=
  fun x => (h' x).trans (h x)

theorem sameDeleted_setTask (w : World) (x : ℕ) {f : Task → Task} (hf : ∀ T, (f T).deleted = T.deleted) :
    SameDeleted w (w.setTask x f) := by
  intro y
  by_cases hy : y = x
  · rw [hy, World.setTask_task_self, hf]
  · rw [World.setTask_task_of_ne hy]

theorem sameDeleted_beginRun (w : World) (t x : ℕ) : SameDeleted w (w.beginRun t x) :=
  sameDeleted_setTask w x fun _ => rfl

theorem sameDeleted_schedule (w : World) (x : ℕ) : SameDeleted w (w.schedule x) := by
  have hset := sameDeleted_setTask w x (f := .setUseThisThread (w.task x).useThisThread) fun _ => rfl
  have hpick : ∀ (blocking : Bool) (v : World), ((v.pickThread blocking).2.task) = v.task := by
    intro blocking v
    cases blocking <;> rfl
  rw [World.schedule]
  split
  · exact hset
  · exact fun y => (congrArg (fun task => (task y).deleted) (hpick _ _)).trans (hset y)

theorem sameDeleted_check (w : World) (t : ℕ) : SameDeleted w (w.check t) := by
  rw [World.check]
  split
  · split
    · split
      · exact sameDeleted_beginRun _ t _
      · exact fun _ => rfl
    · exact fun _ => rfl
  · exact fun _ => rfl

theorem sameDeleted_deQueue (w : World) (t : ℕ) : SameDeleted w (w.deQueue t) := by
  rw [World.deQueue]
  split
  · exact sameDeleted_beginRun _ t _
  · exact fun _ => rfl

theorem sameDeleted_settle (w : World) (t x : ℕ) (theTimeout : ℤ) : SameDeleted w (w.settle t x theTimeout) := by
  rw [World.settle]
  split
  · exact sameDeleted_setTask w x fun _ => rfl
  · split
    · split
      · exact sameDeleted_setTask w x (f := fun T => { T with fEvents := 0 }) fun _ => rfl
      · exact sameDeleted_beginRun w t x
    · exact fun _ => rfl

theorem sameDeleted_signal (w : World) (x : ℕ) (events : EventFlags) : SameDeleted w (w.signal x events) := by
  have hset := sameDeleted_setTask w x (f := .orEvents (events ||| kAlive)) fun _ => rfl
  rw [World.signal]
  split <;> exact hset

end SameDeleted

/-- Only the end of its destructor deletes a task. -/
theorem deleted_step {w w' : World} {a : TaskThreads.Act} (hstep : TaskThreads.step w a = some w') {x : ℕ}
    (hdeleted : (w'.task x).deleted = true) :
    (w.task x).deleted = true ∨ ∃ t, a = .free t ∧ w.thread t = .deleting x := by
  have hsame : SameDeleted w w' → (w.task x).deleted = true ∨ ∃ t, a = .free t ∧ w.thread t = .deleting x :=
    fun h => .inl ((h x).symm.trans hdeleted)
  cases a with
  | free t =>
    simp only [TaskThreads.step] at hstep
    split at hstep
    · next y ht =>
      obtain rfl := Option.some.inj hstep
      by_cases hx : x = y
      · exact .inr ⟨t, rfl, hx ▸ ht⟩
      · have hother : ((w.setTask y .delete).task x).deleted = true := hdeleted
        rw [World.setTask_task_of_ne hx] at hother
        exact .inl hother
    · cases hstep
  | tick msec =>
    obtain rfl := Option.some.inj hstep
    exact hsame fun _ => rfl
  | signal y events =>
    obtain rfl := Option.some.inj hstep
    exact hsame (sameDeleted_signal w y events)
  | schedule y =>
    simp only [TaskThreads.step, Option.ite_none_right_eq_some] at hstep
    obtain ⟨-, hstep⟩ := hstep
    obtain rfl := Option.some.inj hstep
    exact hsame (sameDeleted_schedule w y)
  | enQueue t y =>
    simp only [TaskThreads.step, Option.ite_none_right_eq_some] at hstep
    obtain ⟨-, hstep⟩ := hstep
    obtain rfl := Option.some.inj hstep
    exact hsame fun _ => rfl
  | check t =>
    simp only [TaskThreads.step, Option.ite_none_right_eq_some] at hstep
    obtain ⟨-, hstep⟩ := hstep
    obtain rfl := Option.some.inj hstep
    exact hsame (sameDeleted_check w t)
  | deQueue t =>
    simp only [TaskThreads.step, Option.ite_none_right_eq_some] at hstep
    obtain ⟨-, hstep⟩ := hstep
    obtain rfl := Option.some.inj hstep
    exact hsame (sameDeleted_deQueue w t)
  | settle t =>
    simp only [TaskThreads.step] at hstep
    split at hstep
    · obtain rfl := Option.some.inj hstep
      exact hsame (sameDeleted_settle w t _ _)
    · cases hstep
  | ret t theTimeout =>
    simp only [TaskThreads.step] at hstep
    split at hstep
    · obtain rfl := Option.some.inj hstep
      exact hsame fun _ => rfl
    · cases hstep
  | readEvents t =>
    simp only [TaskThreads.step] at hstep
    split at hstep
    · obtain rfl := Option.some.inj hstep
      exact hsame (sameDeleted_setTask w _ fun _ => rfl)
    · cases hstep
  | clearEvents t =>
    simp only [TaskThreads.step] at hstep
    split at hstep
    · obtain rfl := Option.some.inj hstep
      exact hsame (sameDeleted_setTask w _ fun _ => rfl)
    · cases hstep
  | forceSameThread t =>
    simp only [TaskThreads.step] at hstep
    split at hstep
    · obtain rfl := Option.some.inj hstep
      exact hsame (sameDeleted_setTask w _ fun _ => rfl)
    · cases hstep
  | idleEvent t =>
    simp only [TaskThreads.step] at hstep
    split at hstep
    · obtain rfl := Option.some.inj hstep
      exact hsame (sameDeleted_setTask w _ fun _ => rfl)
    · cases hstep

/-! ## Safety -/

/-- What a context has at its phase -/
structure Context.Sound (C : Context) : Prop where
  isOpen : C.phase ≠ .gone → C.phase ≠ .idle → C.fFileDesc ≠ none
  numbered : C.phase = .unregistered ∨ (∃ theMask, C.phase = .numbered theMask ∨ C.phase = .registered theMask) →
    C.fUniqueID ≠ 0
  watched : C.phase ≠ .gone → C.fWatchEventCalled = true → C.fUniqueID ≠ 0 ∧ C.fFileDesc ≠ none

/-- A context that has been registered, and not been unregistered yet -/
def Context.Listed (C : Context) : Prop :=
  C.phase = .idle ∧ C.fWatchEventCalled = true ∨ ∃ theMask, C.phase = .registered theMask

/-- The reference the event thread has in its hands -/
def EventPc.holds (event : EventPc) : Option ℕ := event.at?.map Prod.snd

structure Safe (s : System) : Prop where
  world : ∃ place queued, TaskThreads.Sound s.world place queued
  table : s.fRefTable.Sound
  contexts : ∀ c, (s.context c).Sound
  listed : ∀ c, s.fRefTable.InTable c → (s.fRefTable.ref c).fObjectP = c ∧ (s.context c).Listed
  count : ∀ c, (s.fRefTable.ref c).fRefCount = if s.event.holds = some c then 1 else 0
  holds : ∀ c, s.event.holds = some c → s.fRefTable.InTable c
  task : ∀ fd c x, s.event = .signalling fd c x → (s.context c).fTask = some x
  tasks : ∀ c x, (s.context c).phase ≠ .gone → (s.context c).fTask = some x → (s.world.task x).deleted = false
  fault : s.fault = false

theorem Context.Listed.not_gone {C : Context} (h : C.Listed) : C.phase ≠ .gone := by
  rcases h with ⟨h, -⟩ | ⟨theMask, h⟩ <;> rw [h] <;> exact nofun

variable {s s' : System} {c fd : ℕ}

/-- What a step of the owner of one context has to see to -/
theorem Safe.update (h : Safe s) {C : Context} (hcontext : s'.context = Function.update s.context c C)
    (hworld : s'.world = s.world) (hevent : s'.event = s.event) (hfault : s'.fault = s.fault)
    (htable : s'.fRefTable.Sound) (hin : ∀ r, r ≠ c → s'.fRefTable.InTable r → s.fRefTable.InTable r)
    (hheld : ∀ r, s.event.holds = some r → s'.fRefTable.InTable r)
    (href : ∀ r, r ≠ c → s'.fRefTable.ref r = s.fRefTable.ref r)
    (hcount : (s'.fRefTable.ref c).fRefCount = (s.fRefTable.ref c).fRefCount) (hC : C.Sound)
    (hlisted : s'.fRefTable.InTable c → (s'.fRefTable.ref c).fObjectP = c ∧ C.Listed)
    (hsame : C.fTask = (s.context c).fTask ∨ ¬s.fRefTable.InTable c)
    (htasks : C.phase ≠ .gone → ∀ x, C.fTask = some x → (s.world.task x).deleted = false) : Safe s' := by
  have hself : s'.context c = C := by rw [hcontext, Function.update_self]
  have hother : ∀ r, r ≠ c → s'.context r = s.context r := by
    intro r hr
    rw [hcontext, Function.update_of_ne hr]
  refine ⟨?_, htable, fun r => ?_, fun r hr => ?_, fun r => ?_, fun r hr => ?_, fun fd r x hr => ?_,
    fun r x hr hx => ?_, hfault.trans h.fault⟩
  · rw [hworld]
    exact h.world
  · by_cases hrc : r = c
    · rw [hrc, hself]
      exact hC
    · rw [hother r hrc]
      exact h.contexts r
  · by_cases hrc : r = c
    · rw [hrc, hself]
      exact hlisted (hrc ▸ hr)
    · rw [hother r hrc, href r hrc]
      exact h.listed r (hin r hrc hr)
  · rw [hevent]
    by_cases hrc : r = c
    · rw [hrc, hcount]
      exact h.count c
    · rw [href r hrc]
      exact h.count r
  · rw [hevent] at hr
    exact hheld r hr
  · rw [hevent] at hr
    by_cases hrc : r = c
    · subst hrc
      have hholds : s.event.holds = some r := by
        rw [hr]
        rfl
      rw [hself, hsame.resolve_right (not_not_intro (h.holds r hholds))]
      exact h.task fd r x hr
    · rw [hother r hrc]
      exact h.task fd r x hr
  · rw [hworld]
    by_cases hrc : r = c
    · subst hrc
      rw [hself] at hr hx
      exact htasks hr x hx
    · rw [hother r hrc] at hr hx
      exact h.tasks r x hr hx

/-- The same where the table stays as it is -/
theorem Safe.update_context (h : Safe s) {C : Context} (hcontext : s'.context = Function.update s.context c C)
    (hworld : s'.world = s.world) (hevent : s'.event = s.event) (hfault : s'.fault = s.fault)
    (htable : s'.fRefTable = s.fRefTable) (hC : C.Sound) (hlisted : s.fRefTable.InTable c → C.Listed)
    (hsame : C.fTask = (s.context c).fTask ∨ ¬s.fRefTable.InTable c)
    (htasks : C.phase ≠ .gone → ∀ x, C.fTask = some x → (s.world.task x).deleted = false) : Safe s' := by
  refine h.update hcontext hworld hevent hfault ?_ ?_ ?_ ?_ ?_ hC ?_ hsame htasks <;> rw [htable]
  · exact h.table
  · exact fun _ _ hr => hr
  · exact h.holds
  · exact fun _ _ => rfl
  · exact fun hr => ⟨(h.listed c hr).1, hlisted hr⟩

theorem Safe.of_queue (h : Safe s) (queue : EventQueue) : Safe { s with queue } :=
  ⟨h.world, h.table, h.contexts, h.listed, h.count, h.holds, h.task, h.tasks, h.fault⟩

theorem Safe.not_inTable (h : Safe s) (hC : ¬(s.context c).Listed) : ¬s.fRefTable.InTable c :=
  fun hin => hC (h.listed c hin).2

theorem not_listed {C : Context} (hidle : C.phase ≠ .idle) (hregistered : ∀ theMask, C.phase ≠ .registered theMask) :
    ¬C.Listed := by
  rintro (⟨h, -⟩ | ⟨theMask, h⟩)
  · exact hidle h
  · exact hregistered theMask h

/-! ### What is done with one context -/

theorem Safe.construct (h : Safe s) (hphase : (s.context c).phase = .gone) {notifytask : Option ℕ}
    (htask : ∀ x, notifytask = some x → (s.world.task x).deleted = false) : Safe (s.construct c notifytask) := by
  have hout : ¬s.fRefTable.InTable c := h.not_inTable fun hlisted => hlisted.not_gone hphase
  have hcount : (s.fRefTable.ref c).fRefCount = 0 := by
    rw [h.count, if_neg fun hholds => hout (h.holds c hholds)]
  have htable : (s.construct c notifytask).fRefTable = s.fRefTable.setRef c fun R => ⟨0, [], R.fHashValue, 0⟩ := rfl
  refine h.update (C := .new notifytask) rfl rfl rfl rfl ?_ (fun _ _ hr => hr) h.holds (fun r hr => ?_) ?_ ?_
    (fun hin => absurd hin hout) (.inr hout) fun _ => htask
  · rw [htable]
    exact h.table.setRef fun hin => absurd hin hout
  · rw [htable, RefTable.ref_setRef, if_neg hr]
  · rw [htable, RefTable.ref_setRef, if_pos rfl, hcount]
  · refine ⟨fun _ hidle => absurd rfl hidle, ?_, fun _ hwatched => Bool.noConfusion hwatched⟩
    rintro (hphase | ⟨theMask, hphase | hphase⟩) <;> cases hphase

theorem Safe.openSocket (h : Safe s) (fd : ℕ) :
    Safe (s.setContext c fun C => { C with fFileDesc := some fd }) := by
  have hC := h.contexts c
  refine h.update_context rfl rfl rfl rfl rfl ⟨fun _ _ => nofun, hC.numbered, fun hgone hwatched => ?_⟩
    (fun hin => (h.listed c hin).2) (.inl rfl) fun hgone x => h.tasks c x hgone
  exact ⟨(hC.watched hgone hwatched).1, nofun⟩

theorem Safe.setTask (h : Safe s) {inTask : Option ℕ} (hout : ¬s.fRefTable.InTable c)
    (htask : ∀ x, inTask = some x → (s.world.task x).deleted = false) :
    Safe (s.setContext c fun C => { C with fTask := inTask }) :=
  h.update_context rfl rfl rfl rfl rfl ⟨(h.contexts c).isOpen, (h.contexts c).numbered, (h.contexts c).watched⟩
    (fun hin => absurd hin hout) (.inr hout) fun _ => htask

theorem Safe.requestEvent (h : Safe s) (hphase : (s.context c).phase = .idle) (hopen : (s.context c).fFileDesc ≠ none)
    (theMask : EventMask) : Safe (s.requestEvent c theMask) := by
  simp only [System.requestEvent]
  split
  · exact h.of_queue _
  · next hwatched =>
    have hout : ¬s.fRefTable.InTable c := h.not_inTable <| by
      rintro (⟨-, h⟩ | ⟨theMask, h⟩)
      · exact hwatched h
      · exact absurd (hphase.symm.trans h) nofun
    have hgone : (s.context c).phase ≠ .gone := by
      rw [hphase]
      exact nofun
    have hone : (1 : Cookie) ≠ 0 := by decide
    split
    · exact h.update_context (C := { s.context c with fUniqueID := 1, phase := .numbered theMask }) rfl rfl rfl rfl rfl
        ⟨fun _ _ => hopen, fun _ => hone, fun _ hw => absurd hw hwatched⟩ (fun hin => absurd hin hout) (.inl rfl)
        fun _ x => h.tasks c x hgone
    · refine h.update_context (C := { s.context c with phase := .compared theMask }) rfl rfl rfl rfl rfl
        ⟨fun _ _ => hopen, ?_, fun _ hw => absurd hw hwatched⟩ (fun hin => absurd hin hout) (.inl rfl)
        fun _ x => h.tasks c x hgone
      rintro (hphase | ⟨theMask, hphase | hphase⟩) <;> cases hphase

theorem Safe.number (h : Safe s) {theMask : EventMask} (hphase : (s.context c).phase = .compared theMask)
    (hid : s.sUniqueID + 1 ≠ 0) : Safe (s.number c theMask) := by
  have hgone : (s.context c).phase ≠ .gone := by
    rw [hphase]
    exact nofun
  have hopen := (h.contexts c).isOpen hgone (by rw [hphase]; exact nofun)
  have hout : ¬s.fRefTable.InTable c :=
    h.not_inTable (not_listed (by rw [hphase]; exact nofun) (by rw [hphase]; exact fun _ => nofun))
  have hid' : (s.sUniqueID + 1).setWidth 64 ≠ (0 : Cookie) := by
    intro heq
    apply hid
    bv_omega
  exact h.update_context (C := { s.context c with fUniqueID := (s.sUniqueID + 1).setWidth 64, phase := .numbered theMask })
    rfl rfl rfl rfl rfl ⟨fun _ _ => hopen, fun _ => hid', fun _ _ => ⟨hid', hopen⟩⟩ (fun hin => absurd hin hout)
    (.inl rfl) fun _ x => h.tasks c x hgone

theorem Safe.watch (h : Safe s) {theMask : EventMask} (hphase : (s.context c).phase = .registered theMask)
    (fd : ℕ) : Safe (s.watch c fd theMask) := by
  have hC := h.contexts c
  have hgone : (s.context c).phase ≠ .gone := by
    rw [hphase]
    exact nofun
  have hopen := hC.isOpen hgone (by rw [hphase]; exact nofun)
  have hid := hC.numbered (.inr ⟨theMask, .inr hphase⟩)
  refine h.update_context (C := { s.context c with
      fEventReq := (fd, (s.context c).fUniqueID), fWatchEventCalled := true, phase := .idle }) rfl rfl rfl rfl rfl
    ⟨fun _ hidle => absurd rfl hidle, fun _ => hid, fun _ _ => ⟨hid, hopen⟩⟩ (fun _ => .inl ⟨rfl, rfl⟩) (.inl rfl)
    fun _ x => h.tasks c x hgone

theorem gone_sound (C : Context) : ({ C with fFileDesc := none, fUniqueID := 0, phase := .gone } : Context).Sound := by
  refine ⟨fun hgone => absurd rfl hgone, ?_, fun hgone => absurd rfl hgone⟩
  rintro (hphase | ⟨theMask, hphase | hphase⟩) <;> cases hphase

theorem Safe.gone (h : Safe s) (hout : ¬s.fRefTable.InTable c) :
    Safe (s.setContext c fun C => { C with fFileDesc := none, fUniqueID := 0, phase := .gone }) :=
  h.update_context rfl rfl rfl rfl rfl (gone_sound _) (fun hin => absurd hin hout) (.inl rfl)
    fun hgone => absurd rfl hgone

theorem Safe.removeWatch (h : Safe s) (hphase : (s.context c).phase = .unregistered) (fd : ℕ) :
    Safe (s.removeWatch c fd) := by
  have hout : ¬s.fRefTable.InTable c :=
    h.not_inTable (not_listed (by rw [hphase]; exact nofun) (by rw [hphase]; exact fun _ => nofun))
  exact (h.gone hout).of_queue _

/-- What `Register` does to the table, whether it takes the reference in or not -/
theorem register_frame (table : RefTable) (r : ℕ) :
    (table.register r).2.ref = table.ref ∧
      (∀ r', (table.register r).2.InTable r' → r' = r ∨ table.InTable r') ∧
      ∀ r', table.InTable r' → (table.register r).2.InTable r' := by
  rw [RefTable.register]
  split
  · exact ⟨rfl, fun _ => .inr, fun _ hr => hr⟩
  · split
    · exact ⟨rfl, fun _ => .inr, fun _ hr => hr⟩
    · exact ⟨rfl, fun _ => RefTable.inTable_add.mp, fun _ hr => RefTable.inTable_add.mpr (.inr hr)⟩

theorem Safe.register (h : Safe s) {theMask : EventMask} (hphase : (s.context c).phase = .numbered theMask) :
    Safe (s.register c theMask) := by
  have hgone : (s.context c).phase ≠ .gone := by
    rw [hphase]
    exact nofun
  have hC := h.contexts c
  have hopen := hC.isOpen hgone (by rw [hphase]; exact nofun)
  have hid := hC.numbered (.inr ⟨theMask, .inl hphase⟩)
  have hout : ¬s.fRefTable.InTable c :=
    h.not_inTable (not_listed (by rw [hphase]; exact nofun) (by rw [hphase]; exact fun _ => nofun))
  have hset := (h.table.set hout (idStr (s.context c).fUniqueID) c).1
  have hself : (s.fRefTable.set c (idStr (s.context c).fUniqueID) c).ref c = ⟨c, idStr (s.context c).fUniqueID,
      hashString (idStr (s.context c).fUniqueID), (s.fRefTable.ref c).fRefCount⟩ :=
    (RefTable.ref_setRef _ c).trans (if_pos rfl)
  have hisSet : (s.fRefTable.set c (idStr (s.context c).fUniqueID) c).IsSet c := by
    rw [RefTable.IsSet, hself]
  obtain ⟨href, hin, hkeep⟩ := register_frame (s.fRefTable.set c (idStr (s.context c).fUniqueID) c) c
  refine h.update (C := { s.context c with phase := .registered theMask }) rfl rfl rfl rfl (hset.register hisSet).1
    (fun r hr hr' => (hin r hr').resolve_left hr) (fun r hr => hkeep r (h.holds r hr)) (fun r hr => ?_) ?_
    ⟨fun _ _ => hopen, fun _ => hid, fun _ _ => ⟨hid, hopen⟩⟩ (fun _ => ⟨?_, .inr ⟨theMask, rfl⟩⟩) (.inl rfl)
    fun _ x => h.tasks c x hgone
  · refine (congrFun href r).trans ?_
    exact (RefTable.ref_setRef _ r).trans (if_neg hr)
  · have hcount := congrArg OSRef.fRefCount ((congrFun href c).trans hself)
    exact hcount
  · exact congrArg OSRef.fObjectP ((congrFun href c).trans hself)

theorem Safe.cleanUp (h : Safe s) (hphase : (s.context c).phase = .idle) (hclean : s.cleanUp c = some s') : Safe s' := by
  have hgone : (s.context c).phase ≠ .gone := by
    rw [hphase]
    simp
  simp only [System.cleanUp] at hclean
  split at hclean
  · next hlive =>
    rw [RefTable.unRegister] at hclean
    split at hclean
    · cases hclean
    · next hcount =>
      obtain rfl := Option.some.inj hclean
      have hfree : s.event.holds ≠ some c := by
        intro hholds
        apply hcount
        rw [h.count, if_pos hholds]
        decide
      have hin : ∀ r, (s.fRefTable.removeEntry c).InTable r ↔ r ≠ c ∧ s.fRefTable.InTable r :=
        fun r => h.table.inTable_removeEntry
      refine h.update (C := { s.context c with phase := .unregistered }) rfl rfl rfl rfl (h.table.removeEntry c)
        (fun r _ hr => ((hin r).mp hr).2) (fun r hr => (hin r).mpr ⟨?_, h.holds r hr⟩) (fun _ _ => rfl) rfl
        ⟨fun _ _ => hlive.1, fun _ => hlive.2, fun _ _ => ⟨hlive.2, hlive.1⟩⟩ (fun hr => absurd rfl ((hin c).mp hr).1)
        (.inl rfl) fun _ x => h.tasks c x hgone
      rintro rfl
      exact hfree hr
  · next hlive =>
    obtain rfl := Option.some.inj hclean
    refine h.gone (h.not_inTable ?_)
    rintro (⟨-, hwatched⟩ | ⟨theMask, hregistered⟩)
    · exact hlive ((h.contexts c).watched hgone hwatched).symm
    · exact absurd (hphase.symm.trans hregistered) (by simp)

/-! ### What the event thread does -/

theorem Safe.take (h : Safe s) (hevent : s.event = .waiting) (htake : s.take = some s') : Safe s' := by
  have hwaiting : ∀ event queue, event.at? = none → Safe { s with queue, event } := by
    intro event queue hnone
    have hholds : event.holds = s.event.holds := by
      rw [EventPc.holds, hnone, hevent]
      rfl
    refine ⟨h.world, h.table, h.contexts, h.listed, fun c => ?_, fun c hc => ?_, fun fd c x hc => ?_, h.tasks, h.fault⟩
    · show _ = if event.holds = some c then 1 else 0
      rw [hholds]
      exact h.count c
    · exact h.holds c (hholds ▸ hc)
    · have hc : event = _ := hc
      rw [hc] at hnone
      cases hnone
  simp only [System.take] at htake
  split at htake
  · obtain rfl := Option.some.inj htake
    refine hwaiting _ _ ?_
    split <;> rfl
  · obtain rfl := Option.some.inj htake
    exact h.of_queue _
  · cases htake

/-- A new count of one reference, for a new place of the event thread -/
theorem Safe.setCount (h : Safe s) (ref : ℕ) (n : BitVec 32) (event : EventPc)
    (hevent : ∀ c, (if event.holds = some c then 1 else 0) = if c = ref then n else (s.fRefTable.ref c).fRefCount)
    (hholds : ∀ c, event.holds = some c → s.fRefTable.InTable c)
    (htask : ∀ fd c x, event = .signalling fd c x → (s.context c).fTask = some x) :
    Safe { s with fRefTable := s.fRefTable.setCount ref n, event } := by
  have href : ∀ c, (s.fRefTable.setCount ref n).ref c =
      if c = ref then { s.fRefTable.ref ref with fRefCount := n } else s.fRefTable.ref c :=
    RefTable.ref_setRef _
  refine ⟨h.world, (h.table.setCount ref n).1, h.contexts, fun c hc => ?_, fun c => ?_, hholds, htask, h.tasks, h.fault⟩
  · have hobject : ((s.fRefTable.setCount ref n).ref c).fObjectP = (s.fRefTable.ref c).fObjectP := by
      rw [href]
      split
      · next heq => rw [heq]
      · rfl
    exact ⟨hobject.trans (h.listed c hc).1, (h.listed c hc).2⟩
  · show ((s.fRefTable.setCount ref n).ref c).fRefCount = if event.holds = some c then 1 else 0
    rw [hevent, href]
    split <;> rfl

theorem Safe.resolve (h : Safe s) {ev_data : Cookie} (hevent : s.event = .reported fd ev_data) :
    Safe (s.resolve fd ev_data) := by
  have hzero : ∀ c, (s.fRefTable.ref c).fRefCount = 0 := by
    intro c
    rw [h.count, hevent]
    rfl
  rw [System.resolve, RefTable.resolve]
  cases hmap : s.fRefTable.map (idStr ev_data) with
  | none =>
    refine ⟨h.world, h.table, h.contexts, h.listed, fun c => ?_, (by simp [EventPc.holds, EventPc.at?]), (by simp), h.tasks, h.fault⟩
    exact hzero c
  | some ref =>
    have hin := (h.table.map_eq_some_iff.mp hmap).1
    refine h.setCount ref _ (.resolved fd ref) (fun c => ?_) (fun c hc => ?_) (by simp)
    · rw [hzero, hzero]
      by_cases hc : c = ref
      · rw [if_pos hc, hc]
        exact if_pos rfl
      · rw [if_neg hc]
        exact if_neg fun heq => hc (Option.some.inj heq).symm
    · exact Option.some.inj hc ▸ hin

theorem Safe.processEvent (h : Safe s) {ref : ℕ} (hevent : s.event = .resolved fd ref) :
    Safe (s.processEvent fd ref) := by
  have hheld : s.event.holds = some ref := by
    rw [hevent]
    rfl
  obtain ⟨hobject, hlisted⟩ := h.listed ref (h.holds ref hheld)
  have hfault : (s.fault || (s.context ref).phase = .gone) = false := by
    rw [h.fault, decide_eq_false hlisted.not_gone]
    rfl
  simp only [System.processEvent, hobject]
  cases htask : (s.context ref).fTask with
  | none =>
    refine ⟨h.world, h.table, h.contexts, h.listed, fun c => ?_, fun c hc => ?_, nofun, h.tasks, hfault⟩
    · rw [h.count, hheld]
      rfl
    · exact h.holds c (hheld.trans hc)
  | some x =>
    refine ⟨h.world, h.table, h.contexts, h.listed, fun c => ?_, fun c hc => ?_, fun fd' c y hc => ?_, h.tasks, hfault⟩
    · rw [h.count, hheld]
      rfl
    · exact h.holds c (hheld.trans hc)
    · obtain ⟨-, rfl, rfl⟩ := EventPc.signalling.inj hc
      exact htask

theorem Safe.setWorld (h : Safe s) {w : World} (hw : ∃ place queued, TaskThreads.Sound w place queued)
    (htasks : ∀ c x, (s.context c).phase ≠ .gone → (s.context c).fTask = some x → (w.task x).deleted = false) :
    Safe { s with world := w } :=
  ⟨hw, h.table, h.contexts, h.listed, h.count, h.holds, h.task, htasks, h.fault⟩

theorem Safe.task_step (h : Safe s) {a : TaskThreads.Act} {w : World} (hallowed : Allowed s (.task a))
    (hstep : TaskThreads.step s.world a = some w) : Safe { s with world := w } := by
  obtain ⟨place, queued, hw⟩ := h.world
  obtain ⟨place', queued', hw', -⟩ := hw.step hallowed.1 hstep
  refine h.setWorld ⟨place', queued', hw'⟩ fun c x hgone hx => ?_
  rw [Bool.eq_false_iff]
  intro hdeleted
  rcases deleted_step hstep hdeleted with hbefore | ⟨t, ha, ht⟩
  · exact Bool.eq_false_iff.mp (h.tasks c x hgone hx) hbefore
  · exact hallowed.2 t x ha ht c hgone hx

theorem Safe.signal (h : Safe s) {ref task : ℕ} (hevent : s.event = .signalling fd ref task) :
    Safe { s with world := s.world.signal task kReadEvent, event := .releasing fd ref } := by
  have hheld : s.event.holds = some ref := by
    rw [hevent]
    rfl
  have hlisted := (h.listed ref (h.holds ref hheld)).2
  have halive := h.tasks ref task hlisted.not_gone (h.task fd ref task hevent)
  obtain ⟨place, queued, hw⟩ := h.world
  obtain ⟨place', queued', hw', -⟩ := hw.step (a := .signal task kReadEvent) halive rfl
  have hworld := h.setWorld ⟨place', queued', hw'⟩ fun c x hgone hx =>
    (sameDeleted_signal s.world task kReadEvent x).trans (h.tasks c x hgone hx)
  refine ⟨hworld.world, h.table, h.contexts, h.listed, fun c => ?_, fun c hc => ?_, nofun, hworld.tasks, h.fault⟩
  · rw [h.count, hheld]
    rfl
  · exact h.holds c (hheld.trans hc)

theorem Safe.release (h : Safe s) {ref : ℕ} (hevent : s.event = .releasing fd ref) : Safe (s.release ref) := by
  have hheld : s.event.holds = some ref := by
    rw [hevent]
    rfl
  have hgone := (h.listed ref (h.holds ref hheld)).2.not_gone
  have hcount : (s.fRefTable.ref ref).fRefCount - 1 = 0 := by
    rw [h.count, if_pos hheld]
    rfl
  have hset := h.setCount ref ((s.fRefTable.ref ref).fRefCount - 1) .waiting (fun c => ?_) nofun nofun
  · refine ⟨hset.world, hset.table, hset.contexts, hset.listed, hset.count, nofun, nofun, hset.tasks, ?_⟩
    show (s.fault || (s.context ref).phase = .gone) = false
    rw [h.fault, decide_eq_false hgone]
    rfl
  · have hnone : EventPc.waiting.holds ≠ some c := nofun
    rw [hcount, if_neg hnone]
    split
    · rfl
    · next hc => rw [h.count, hheld, if_neg fun heq => hc (Option.some.inj heq).symm]

/-! ### Every step -/

theorem Safe.step (h : Safe s) {a : Act} (hallowed : Allowed s a) (hstep : Taken s a s') : Safe s' := by
  cases hstep.stepped with
  | task hworld => exact h.task_step hallowed hworld
  | construct hphase notifytask => exact h.construct hphase hallowed
  | openSocket hphase fd => exact h.openSocket fd
  | setTask hphase inTask => exact h.setTask hallowed.2 hallowed.1
  | requestEvent hphase theMask => exact h.requestEvent hphase hallowed.1 theMask
  | number hphase => exact h.number hphase hallowed
  | register hphase => exact h.register hphase
  | watch hphase hfd => exact h.watch hphase _
  | cleanUp hphase hclean => exact h.cleanUp hphase hclean
  | removeWatch hphase hfd => exact h.removeWatch hphase _
  | wakeup => exact h.of_queue _
  | closeFds => exact h.of_queue _
  | drain => exact h.of_queue _
  | setMaxevent => exact h.of_queue _
  | epollWait => exact h.of_queue _
  | take hevent htake => exact h.take hevent htake
  | resolve hevent => exact h.resolve hevent
  | processEvent hevent => exact h.processEvent hevent
  | signal hevent => exact h.signal hevent
  | release hevent => exact h.release hevent

theorem Start.safe (h : Start s) : Safe s := by
  obtain ⟨garbage, htable⟩ := h.fRefTable
  have hout : ∀ c, ¬s.fRefTable.InTable c := by
    rw [htable]
    exact fun c ⟨i, hi⟩ => absurd hi List.not_mem_nil
  have hgone : ∀ c, (s.context c).phase = .gone := fun c => (h.context c).1
  refine ⟨⟨_, _, h.world.sound⟩, htable ▸ OSRefs.fresh_sound (by decide) garbage, fun c => ⟨fun hne => absurd (hgone c) hne,
    fun hnum => ?_, fun hne => absurd (hgone c) hne⟩, fun c hin => absurd hin (hout c), fun c => ?_, fun c hc => ?_,
    fun fd c x hc => ?_, fun c x hne => absurd (hgone c) hne, h.fault⟩
  · rw [hgone c] at hnum
    rcases hnum with hnum | ⟨theMask, hnum | hnum⟩ <;> cases hnum
  · rw [h.event, htable]
    rfl
  · rw [h.event] at hc
    cases hc
  · rw [h.event] at hc
    cases hc

/-- In every order of steps, the event thread touches no socket that is gone and signals no task that is deleted: what
is in the table of references is a socket that is not gone, and while the event thread has one in its hands, the
destructor of that socket waits in `UnRegister`. -/
theorem event_thread_safe {as : List Act} (hstart : Start s) (hrun : Reaches Taken Allowed s as s') :
    s'.fault = false ∧ s'.world.fault = false ∧
      (∀ c, s'.fRefTable.InTable c → (s'.context c).phase ≠ .gone) ∧
      ∀ c, s'.event.holds = some c → (s'.context c).phase ≠ .gone ∧ EventContexts.step s' (.cleanUp c) = none := by
  have h : Safe s' := hrun.invariant (fun _ _ _ h hallowed htaken => h.step hallowed htaken) hstart.safe
  obtain ⟨place, queued, hw⟩ := h.world
  refine ⟨h.fault, hw.fault, fun c hin => (h.listed c hin).2.not_gone, fun c hc => ?_⟩
  obtain ⟨hobject, hlisted⟩ := h.listed c (h.holds c hc)
  refine ⟨hlisted.not_gone, ?_⟩
  simp only [EventContexts.step, System.cleanUp, RefTable.unRegister]
  have hcount : 0 < (s'.fRefTable.ref c).fRefCount.toNat := by
    rw [h.count, if_pos hc]
    decide
  by_cases hidle : (s'.context c).phase = .idle
  · rcases hlisted with ⟨-, hwatched⟩ | ⟨theMask, hregistered⟩
    · rw [if_pos hidle, if_pos ((h.contexts c).watched (by rw [hidle]; simp) hwatched).symm, if_pos hcount]
      rfl
    · exact absurd (hidle.symm.trans hregistered) (by simp)
  · rw [if_neg hidle]

/-! ### A run -/

def exampleStart : System where
  world := TaskThreads.exampleStart
  queue := .startevents 3
  fRefTable := .fresh kDefaultTableSize fun _ => 0
  context _ := ⟨none, 0, (0, 0), false, none, .gone⟩
  sUniqueID := 1
  event := .waiting
  fault := false

theorem exampleStart_start : Start exampleStart where
  world := TaskThreads.exampleStart_start
  queue := ⟨3, rfl⟩
  fRefTable := ⟨_, rfl⟩
  context _ := ⟨rfl, rfl, rfl⟩
  sUniqueID := rfl
  event := rfl
  fault := rfl

/-- Socket 5 of task 7 is open on descriptor 9 and watched, and the kernel reports input on it. -/
def exampleActs : List Act :=
  [.construct 5 (some 7), .openSocket 5 9, .requestEvent 5 EPOLLIN, .number 5, .register 5, .watch 5, .closeFds, .drain,
    .setMaxevent, .epollWait (some [⟨9, EPOLLIN⟩]), .closeFds, .drain, .take, .resolve]

def exampleEnd : System := exampleActs.foldl (fun s a => (step s a).getD s) exampleStart

theorem example_reaches : Reaches Taken (fun s a => Allowed s a ∧ Numbering s a) exampleStart exampleActs exampleEnd := by
  have hopen : ∀ c', ((exampleStart.construct 5 (some 7)).context c').phase ≠ .gone →
      ((exampleStart.construct 5 (some 7)).context c').fFileDesc ≠ some 9 := by
    intro c' hc'
    by_cases heq : c' = 5
    · rw [heq]
      exact nofun
    · have hother : (exampleStart.construct 5 (some 7)).context c' = exampleStart.context c' := Function.update_of_ne heq ..
      rw [hother] at hc'
      exact absurd rfl hc'
  refine .cons ⟨fun x _ => rfl, trivial⟩ rfl (.cons ⟨⟨rfl, hopen, by decide, by decide, nofun⟩, trivial⟩ rfl
    (.cons ⟨⟨nofun, by decide⟩, .inr (by decide)⟩ rfl (.cons ⟨(show 1 + 1 ≠ (0 : BitVec 32) by decide), trivial⟩ rfl
      (.cons ⟨trivial, trivial⟩ rfl (.cons ⟨trivial, trivial⟩ rfl (.cons ⟨trivial, trivial⟩ rfl
        (.cons ⟨trivial, trivial⟩ rfl (.cons ⟨trivial, trivial⟩ rfl (.cons ⟨?_, trivial⟩ rfl
          (.cons ⟨trivial, trivial⟩ rfl (.cons ⟨trivial, trivial⟩ rfl (.cons ⟨trivial, trivial⟩ rfl
            (.cons ⟨trivial, trivial⟩ rfl (.nil _))))))))))))))
  show EventQueues.Allowed _ (.epollWait (some [⟨9, EPOLLIN⟩]))
  decide

theorem example_allowed : Reaches Taken Allowed exampleStart exampleActs exampleEnd :=
  example_reaches.mono fun _ _ hok => hok.1

theorem event_thread_safe_example :
    exampleEnd.fault = false ∧ exampleEnd.world.fault = false ∧
      (∀ c, exampleEnd.fRefTable.InTable c → (exampleEnd.context c).phase ≠ .gone) ∧
      ∀ c, exampleEnd.event.holds = some c →
        (exampleEnd.context c).phase ≠ .gone ∧ EventContexts.step exampleEnd (.cleanUp c) = none :=
  event_thread_safe exampleStart_start example_allowed

/-! ## Whom an event is for -/

/-- What holds of a socket while ids are not given out again -/
structure Context.Matched (sUniqueID : BitVec 32) (queue : EventQueue) (C : Context) : Prop where
  id_le : C.fUniqueID.toNat ≤ sUniqueID.toNat
  unnumbered : (C.phase = .idle ∧ C.fWatchEventCalled = false) ∨ (∃ theMask, C.phase = .compared theMask) →
    C.fUniqueID = 0
  request : C.fWatchEventCalled = true → ∃ fd, C.fFileDesc = some fd ∧ C.fEventReq = (fd, C.fUniqueID)
  descriptor : ∀ fd, C.fFileDesc = some fd → fd < CookieArraySize ∧ fd ≠ queue.sPipe ∧ fd ∉ queue.sFDsToCloseArray
  mask : ∀ theMask, C.phase = .compared theMask ∨ C.phase = .numbered theMask ∨ C.phase = .registered theMask →
    theMask ≠ unwatched

/-- Sockets have ids and descriptors of their own; cookies, events and references go by them. -/
structure Matched (s : System) : Prop where
  contexts : ∀ c, (s.context c).phase ≠ .gone → (s.context c).Matched s.sUniqueID s.queue
  id_unique : ∀ c c', c ≠ c' → (s.context c).phase ≠ .gone → (s.context c').phase ≠ .gone →
    (s.context c).fUniqueID = (s.context c').fUniqueID → (s.context c).fUniqueID = 0
  fd_unique : ∀ c c' fd, c ≠ c' → (s.context c).phase ≠ .gone → (s.context c').phase ≠ .gone →
    (s.context c).fFileDesc = some fd → (s.context c').fFileDesc ≠ some fd
  string : ∀ c, s.fRefTable.InTable c → (s.fRefTable.ref c).fString = idStr (s.context c).fUniqueID
  found : ∀ c, (s.context c).Listed → s.fRefTable.InTable c
  cookie : ∀ fd, s.queue.sCookieArray fd ≠ 0 → ∃ c, (s.context c).phase ≠ .gone ∧
    (s.context c).fFileDesc = some fd ∧ (s.context c).fUniqueID = s.queue.sCookieArray fd
  reported : ∀ fd ev_data, s.event = .reported fd ev_data → ev_data ≠ 0 ∧ ev_data.toNat ≤ s.sUniqueID.toNat ∧
    ∀ c, (s.context c).phase ≠ .gone → (s.context c).fUniqueID = ev_data → (s.context c).fFileDesc = some fd
  held : ∀ fd c, s.event.at? = some (fd, c) → (s.context c).fFileDesc = some fd

theorem idStr_inj {id id' : Cookie} (h : idStr id = idStr id') : id = id' := by
  apply BitVec.eq_of_getLsbD_eq
  intro i hi
  have hbyte : id.extractLsb' (8 * (i / 8)) 8 = id'.extractLsb' (8 * (i / 8)) 8 :=
    List.map_inj_left.mp h (i / 8) (List.mem_range.mpr (by omega))
  have hbit := congrArg (fun b => b.getLsbD (i % 8)) hbyte
  simp only [BitVec.getLsbD_extractLsb', Nat.mod_lt i (by omega : 8 > 0), decide_true, Bool.true_and,
    Nat.div_add_mod] at hbit
  exact hbit

theorem idStr_ne_nil (id : Cookie) : idStr id ≠ [] := by
  intro h
  have := congrArg List.length h
  simp [idStr] at this

/-- A step of the owner of one context: what the context, the table, and the cookies have become is up to the caller. -/
theorem Matched.update (h : Matched s) {C : Context} (hcontext : s'.context = Function.update s.context c C)
    (hevent : s'.event = s.event) (hle : s.sUniqueID.toNat ≤ s'.sUniqueID.toNat)
    (hC : C.phase ≠ .gone → C.Matched s'.sUniqueID s'.queue)
    (hothers : ∀ r, r ≠ c → (s.context r).phase ≠ .gone → (s.context r).Matched s'.sUniqueID s'.queue)
    (hid : ∀ r, r ≠ c → (s.context r).phase ≠ .gone → C.phase ≠ .gone → C.fUniqueID = (s.context r).fUniqueID →
      C.fUniqueID = 0)
    (hfd : ∀ r fd, r ≠ c → (s.context r).phase ≠ .gone → C.phase ≠ .gone → C.fFileDesc = some fd →
      (s.context r).fFileDesc ≠ some fd)
    (hstring : ∀ r, s'.fRefTable.InTable r → (s'.fRefTable.ref r).fString = idStr (s'.context r).fUniqueID)
    (hfound : ∀ r, (s'.context r).Listed → s'.fRefTable.InTable r)
    (hcookie : ∀ fd, s'.queue.sCookieArray fd ≠ 0 → ∃ r, (s'.context r).phase ≠ .gone ∧
      (s'.context r).fFileDesc = some fd ∧ (s'.context r).fUniqueID = s'.queue.sCookieArray fd)
    (hreported : ∀ fd ev_data, s.event = .reported fd ev_data → C.phase ≠ .gone → C.fUniqueID = ev_data →
      C.fFileDesc = some fd)
    (hheld : ∀ fd, s.event.at? = some (fd, c) → C.fFileDesc = (s.context c).fFileDesc) : Matched s' := by
  have hself : s'.context c = C := by rw [hcontext, Function.update_self]
  have hother : ∀ r, r ≠ c → s'.context r = s.context r := by
    intro r hr
    rw [hcontext, Function.update_of_ne hr]
  refine ⟨fun r hr => ?_, fun r r' hne hr hr' heq => ?_, fun r r' fd hne hr hr' heq => ?_, hstring, hfound, hcookie,
    fun fd ev_data hr => ?_, fun fd r hr => ?_⟩
  · by_cases hrc : r = c
    · rw [hrc, hself] at hr ⊢
      exact hC hr
    · rw [hother r hrc] at hr ⊢
      exact hothers r hrc hr
  · by_cases hrc : r = c
    · subst hrc
      rw [hself] at hr heq ⊢
      rw [hother r' (Ne.symm hne)] at hr' heq
      exact hid r' (Ne.symm hne) hr' hr heq
    · rw [hother r hrc] at hr heq ⊢
      by_cases hrc' : r' = c
      · subst hrc'
        rw [hself] at hr' heq
        exact heq.trans (hid r hrc hr hr' heq.symm)
      · rw [hother r' hrc'] at hr' heq
        exact h.id_unique r r' hne hr hr' heq
  · by_cases hrc : r = c
    · subst hrc
      rw [hself] at hr heq
      rw [hother r' (Ne.symm hne)] at hr' ⊢
      exact hfd r' fd (Ne.symm hne) hr' hr heq
    · rw [hother r hrc] at hr heq
      by_cases hrc' : r' = c
      · subst hrc'
        rw [hself] at hr' ⊢
        exact fun heq' => hfd r fd hrc hr hr' heq' heq
      · rw [hother r' hrc'] at hr' ⊢
        exact h.fd_unique r r' fd hne hr hr' heq
  · rw [hevent] at hr
    obtain ⟨hne, hlt, hall⟩ := h.reported fd ev_data hr
    refine ⟨hne, hlt.trans hle, fun r hgone heq => ?_⟩
    by_cases hrc : r = c
    · rw [hrc, hself] at hgone heq ⊢
      exact hreported fd ev_data hr hgone heq
    · rw [hother r hrc] at hgone heq ⊢
      exact hall r hgone heq
  · rw [hevent] at hr
    by_cases hrc : r = c
    · subst hrc
      rw [hself, hheld fd hr]
      exact h.held fd r hr
    · rw [hother r hrc]
      exact h.held fd r hr

/-- The same where the table and the queue stay as they are, and so do the id and the descriptor -/
theorem Matched.update_context (h : Matched s) {C : Context} (hcontext : s'.context = Function.update s.context c C)
    (hevent : s'.event = s.event) (hunique : s'.sUniqueID = s.sUniqueID) (hqueue : s'.queue = s.queue)
    (htable : s'.fRefTable = s.fRefTable) (hgone : (s.context c).phase ≠ .gone) (hphase : C.phase ≠ .gone)
    (hid : C.fUniqueID = (s.context c).fUniqueID) (hfd : C.fFileDesc = (s.context c).fFileDesc)
    (hC : C.Matched s.sUniqueID s.queue) (hlisted : C.Listed → (s.context c).Listed) : Matched s' := by
  have hself : s'.context c = C := by rw [hcontext, Function.update_self]
  have hother : ∀ r, r ≠ c → s'.context r = s.context r := by
    intro r hr
    rw [hcontext, Function.update_of_ne hr]
  have hsameID : ∀ r, (s'.context r).fUniqueID = (s.context r).fUniqueID := by
    intro r
    by_cases hrc : r = c
    · rw [hrc, hself, hid]
    · rw [hother r hrc]
  refine h.update hcontext hevent (congrArg BitVec.toNat hunique).ge ?_ (fun r hr hr' => ?_) (fun r hr hr' _ heq => ?_)
    (fun r fd hr hr' _ heq => ?_) (fun r hr => ?_) (fun r hr => ?_) (fun fd hfd' => ?_) (fun fd ev_data hr _ heq => ?_)
    fun _ _ => hfd
  · rw [hunique, hqueue]
    exact fun _ => hC
  · rw [hunique, hqueue]
    exact h.contexts r hr'
  · rw [hid] at heq ⊢
    exact h.id_unique c r (Ne.symm hr) hgone hr' heq
  · rw [hfd] at heq
    exact h.fd_unique c r fd (Ne.symm hr) hgone hr' heq
  · rw [htable] at hr ⊢
    rw [hsameID]
    exact h.string r hr
  · rw [htable]
    by_cases hrc : r = c
    · rw [hrc, hself] at hr
      exact hrc ▸ h.found c (hlisted hr)
    · rw [hother r hrc] at hr
      exact h.found r hr
  · rw [hqueue] at hfd' ⊢
    obtain ⟨r, hr, hrfd, hrid⟩ := h.cookie fd hfd'
    by_cases hrc : r = c
    · subst hrc
      exact ⟨r, by rw [hself]; exact hphase, by rw [hself, hfd]; exact hrfd, by rw [hself, hid]; exact hrid⟩
    · exact ⟨r, by rw [hother r hrc]; exact hr, by rw [hother r hrc]; exact hrfd, by rw [hother r hrc]; exact hrid⟩
  · rw [hfd]
    exact (h.reported fd ev_data hr).2.2 c hgone (hid.symm.trans heq)

theorem Matched.construct (h : Matched s) (hsafe : Safe s) (hphase : (s.context c).phase = .gone)
    (notifytask : Option ℕ) : Matched (s.construct c notifytask) := by
  have hout : ¬s.fRefTable.InTable c := hsafe.not_inTable fun hlisted => hlisted.not_gone hphase
  have hnew : (s.construct c notifytask).context c = .new notifytask := Function.update_self ..
  have hother : ∀ r, r ≠ c → (s.construct c notifytask).context r = s.context r :=
    fun r hr => Function.update_of_ne hr ..
  have hne : ∀ r, (s.context r).phase ≠ .gone → r ≠ c := fun r hr heq => hr (heq ▸ hphase)
  refine h.update (c := c) (C := .new notifytask) rfl rfl le_rfl (fun _ => ?_) (fun r _ hr => h.contexts r hr)
    (fun _ _ _ _ _ => rfl) (fun _ _ _ _ _ => nofun) (fun r hr => ?_) (fun r hr => ?_) (fun fd hfd => ?_)
    (fun fd ev_data hr _ heq => absurd heq.symm (h.reported fd ev_data hr).1) fun fd hr => ?_
  · refine ⟨Nat.zero_le _, fun _ => rfl, nofun, nofun, ?_⟩
    rintro theMask (hm | hm | hm) <;> cases hm
  · have hrc : r ≠ c := fun heq => hout (heq ▸ hr)
    have htable : (s.construct c notifytask).fRefTable = s.fRefTable.setRef c fun R => ⟨0, [], R.fHashValue, 0⟩ := rfl
    rw [hother r hrc, htable, RefTable.ref_setRef, if_neg hrc]
    exact h.string r hr
  · by_cases hrc : r = c
    · rw [hrc, hnew] at hr
      rcases hr with ⟨-, hwatched⟩ | ⟨theMask, hregistered⟩
      · cases hwatched
      · cases hregistered
    · rw [hother r hrc] at hr
      exact h.found r hr
  · obtain ⟨r, hr, hrest⟩ := h.cookie fd hfd
    refine ⟨r, ?_⟩
    rw [hother r (hne r hr)]
    exact ⟨hr, hrest⟩
  · have hholds : s.event.holds = some c := by
      rw [EventPc.holds, hr]
      rfl
    exact absurd (hsafe.holds c hholds) hout

theorem Matched.openSocket (h : Matched s) (hsafe : Safe s) (hphase : (s.context c).phase = .idle)
    (hallowed : Allowed s (.openSocket c fd)) : Matched (s.setContext c fun C => { C with fFileDesc := some fd }) := by
  obtain ⟨hclosed, hfree, hdescriptor⟩ := hallowed
  have hgone : (s.context c).phase ≠ .gone := by
    rw [hphase]
    exact nofun
  have hC := h.contexts c hgone
  have hunwatched : (s.context c).fWatchEventCalled = true → False :=
    fun hwatched => (hsafe.contexts c |>.watched hgone hwatched).2 hclosed
  have hself : (s.setContext c fun C => { C with fFileDesc := some fd }).context c =
      { s.context c with fFileDesc := some fd } := Function.update_self ..
  have hother : ∀ r, r ≠ c → (s.setContext c fun C => { C with fFileDesc := some fd }).context r = s.context r :=
    fun r hr => Function.update_of_ne hr ..
  refine h.update (c := c) (C := { s.context c with fFileDesc := some fd }) rfl rfl le_rfl (fun _ => ?_)
    (fun r _ hr => h.contexts r hr) (fun r hr hr' _ => h.id_unique c r (Ne.symm hr) hgone hr') (fun r fd' hr hr' _ heq => ?_)
    (fun r hr => ?_) (fun r hr => ?_) (fun fd' hfd' => ?_) (fun fd' ev_data hr _ heq => ?_) fun fd' hr => ?_
  · refine ⟨hC.id_le, hC.unnumbered, fun hwatched => (hunwatched hwatched).elim, fun fd' hfd' => ?_, hC.mask⟩
    exact Option.some.inj hfd' ▸ hdescriptor
  · exact Option.some.inj heq ▸ hfree r hr'
  · by_cases hrc : r = c
    · subst hrc
      rw [hself]
      exact h.string r hr
    · rw [hother r hrc]
      exact h.string r hr
  · by_cases hrc : r = c
    · subst hrc
      rw [hself] at hr
      exact h.found r hr
    · rw [hother r hrc] at hr
      exact h.found r hr
  · obtain ⟨r, hr, hrfd, hrid⟩ := h.cookie fd' hfd'
    have hrc : r ≠ c := by
      rintro rfl
      exact absurd (hclosed.symm.trans hrfd) nofun
    refine ⟨r, ?_⟩
    rw [hother r hrc]
    exact ⟨hr, hrfd, hrid⟩
  · have hfd := (h.reported fd' ev_data hr).2.2 c hgone heq
    exact absurd (hclosed.symm.trans hfd) nofun
  · exact absurd (hclosed.symm.trans (h.held fd' c hr)) nofun

/-- Another cookie for a descriptor: that of the context that has it -/
theorem Matched.modwatch (h : Matched s) (hgone : (s.context c).phase ≠ .gone) (hfd : (s.context c).fFileDesc = some fd)
    (which : EventMask) : Matched { s with queue := s.queue.modwatch fd which (s.context c).fUniqueID } := by
  obtain ⟨_, _, _, hframe⟩ := modwatch_frame s.queue fd which (s.context c).fUniqueID
  refine ⟨fun r hr => ?_, h.id_unique, h.fd_unique, h.string, h.found, fun fd' hfd' => ?_, h.reported, h.held⟩
  · obtain ⟨hid, hunnumbered, hrequest, hdescriptor, hmask⟩ := h.contexts r hr
    refine ⟨hid, hunnumbered, hrequest, ?_, hmask⟩
    rw [hframe]
    exact hdescriptor
  · have hcookie : (s.queue.modwatch fd which (s.context c).fUniqueID).sCookieArray =
        Function.update s.queue.sCookieArray fd (s.context c).fUniqueID := rfl
    simp only [hcookie] at hfd' ⊢
    by_cases heq : fd' = fd
    · rw [heq, Function.update_self]
      exact ⟨c, hgone, hfd, rfl⟩
    · rw [Function.update_of_ne heq] at hfd' ⊢
      exact h.cookie fd' hfd'

theorem Matched.requestEvent (h : Matched s) (hphase : (s.context c).phase = .idle) {theMask : EventMask}
    (hmask : theMask ≠ unwatched) (hnumbering : Numbering s (.requestEvent c theMask)) :
    Matched (s.requestEvent c theMask) := by
  have hgone : (s.context c).phase ≠ .gone := by
    rw [hphase]
    exact nofun
  have hC := h.contexts c hgone
  simp only [System.requestEvent]
  split
  · next hwatched =>
    obtain ⟨fd, hfd, hrequest⟩ := hC.request hwatched
    rw [hrequest]
    exact h.modwatch hgone hfd theMask
  · next hwatched =>
    rw [if_neg (hnumbering.resolve_left hwatched)]
    have hid := hC.unnumbered (.inl ⟨hphase, Bool.eq_false_iff.mpr hwatched⟩)
    refine h.update_context (c := c) (C := { s.context c with phase := .compared theMask }) rfl rfl rfl rfl rfl hgone nofun
      rfl rfl ⟨hC.id_le, fun _ => hid, hC.request, hC.descriptor, ?_⟩ ?_
    · rintro theMask' (hm | hm | hm) <;> cases hm
      exact hmask
    · exact fun hlisted => absurd hlisted (not_listed nofun fun _ => nofun)

theorem Matched.number (h : Matched s) (hsafe : Safe s) {theMask : EventMask}
    (hphase : (s.context c).phase = .compared theMask) (hid : s.sUniqueID + 1 ≠ 0) : Matched (s.number c theMask) := by
  have hgone : (s.context c).phase ≠ .gone := by
    rw [hphase]
    exact nofun
  have hC := h.contexts c hgone
  have hzero := hC.unnumbered (.inr ⟨theMask, hphase⟩)
  have hnext : (s.sUniqueID + 1).toNat = s.sUniqueID.toNat + 1 := by bv_omega
  have hwide : ((s.sUniqueID + 1).setWidth 64).toNat = s.sUniqueID.toNat + 1 := by
    rw [BitVec.toNat_setWidth, hnext]
    have := s.sUniqueID.isLt
    omega
  have hself : (s.number c theMask).context c =
      { s.context c with fUniqueID := (s.sUniqueID + 1).setWidth 64, phase := .numbered theMask } :=
    Function.update_self ..
  have hother : ∀ r, r ≠ c → (s.number c theMask).context r = s.context r := fun r hr => Function.update_of_ne hr ..
  have hout : ¬s.fRefTable.InTable c :=
    hsafe.not_inTable (not_listed (by rw [hphase]; exact nofun) (by rw [hphase]; exact fun _ => nofun))
  have hunwatched : (s.context c).fWatchEventCalled = true → False :=
    fun hwatched => ((hsafe.contexts c).watched hgone hwatched).1 hzero
  refine h.update (c := c)
    (C := { s.context c with fUniqueID := (s.sUniqueID + 1).setWidth 64, phase := .numbered theMask }) rfl rfl
    (by show _ ≤ (s.sUniqueID + 1).toNat; omega) (fun _ => ?_) (fun r _ hr => ?_) (fun r _ hr _ heq => ?_)
    (fun r fd hr hr' _ => h.fd_unique c r fd (Ne.symm hr) hgone hr') (fun r hr => ?_) (fun r hr => ?_)
    (fun fd hfd => ?_) (fun fd ev_data hr _ heq => ?_) fun _ _ => rfl
  · refine ⟨(hwide.trans hnext.symm).le, ?_, fun hw => (hunwatched hw).elim, hC.descriptor, ?_⟩
    · rintro (⟨hm, -⟩ | ⟨theMask', hm⟩) <;> cases hm
    · rintro theMask' (hm | hm | hm) <;> cases hm
      exact hC.mask theMask (.inl hphase)
  · obtain ⟨hle, hunnumbered, hrequest, hdescriptor, hmask⟩ := h.contexts r hr
    exact ⟨by show _ ≤ (s.sUniqueID + 1).toNat; omega, hunnumbered, hrequest, hdescriptor, hmask⟩
  · have hle := (h.contexts r hr).id_le
    have := congrArg BitVec.toNat heq
    simp only at this
    omega
  · have hrc : r ≠ c := fun heq => hout (heq ▸ hr)
    rw [hother r hrc]
    exact h.string r hr
  · by_cases hrc : r = c
    · rw [hrc, hself] at hr
      exact absurd hr (not_listed nofun fun _ => nofun)
    · rw [hother r hrc] at hr
      exact h.found r hr
  · obtain ⟨r, hr, hrfd, hrid⟩ := h.cookie fd hfd
    have hrc : r ≠ c := by
      rintro rfl
      exact hfd (hrid.symm.trans hzero)
    refine ⟨r, ?_⟩
    rw [hother r hrc]
    exact ⟨hr, hrfd, hrid⟩
  · have hle := (h.reported fd ev_data hr).2.1
    have := congrArg BitVec.toNat heq
    simp only at this
    omega

/-- An id that no other socket has is taken into the table. -/
theorem Matched.register (h : Matched s) (hsafe : Safe s) {theMask : EventMask}
    (hphase : (s.context c).phase = .numbered theMask) : Matched (s.register c theMask) := by
  have hgone : (s.context c).phase ≠ .gone := by
    rw [hphase]
    simp
  have hC := h.contexts c hgone
  have hnonzero := (hsafe.contexts c).numbered (.inr ⟨theMask, .inl hphase⟩)
  have hout : ¬s.fRefTable.InTable c :=
    hsafe.not_inTable (not_listed (by rw [hphase]; simp) (by rw [hphase]; simp))
  have hself : (s.register c theMask).context c = { s.context c with phase := .registered theMask } :=
    Function.update_self ..
  have hother : ∀ r, r ≠ c → (s.register c theMask).context r = s.context r := fun r hr => Function.update_of_ne hr ..
  have hset := (hsafe.table.set hout (idStr (s.context c).fUniqueID) c).1
  have href : ∀ r, (s.fRefTable.set c (idStr (s.context c).fUniqueID) c).ref r = if r = c then
      ⟨c, idStr (s.context c).fUniqueID, hashString (idStr (s.context c).fUniqueID), (s.fRefTable.ref c).fRefCount⟩
      else s.fRefTable.ref r := RefTable.ref_setRef _
  have hstring : ((s.fRefTable.set c (idStr (s.context c).fUniqueID) c).ref c).fString = idStr (s.context c).fUniqueID := by
    rw [href, if_pos rfl]
  have hmap : (s.fRefTable.set c (idStr (s.context c).fUniqueID) c).map (idStr (s.context c).fUniqueID) = none := by
    rw [hset.map_eq_none_iff]
    intro r hr heq
    have hin : s.fRefTable.InTable r := hr
    have hrc : r ≠ c := fun heq' => hout (heq' ▸ hin)
    rw [href, if_neg hrc, h.string r hin] at heq
    exact hnonzero (h.id_unique c r (Ne.symm hrc) hgone (hsafe.listed r hin).2.not_gone (idStr_inj heq).symm)
  have hadd : (s.register c theMask).fRefTable = (s.fRefTable.set c (idStr (s.context c).fUniqueID) c).add c := by
    show (RefTable.register c (s.fRefTable.set c (idStr (s.context c).fUniqueID) c)).2 = _
    rw [RefTable.register, hstring, if_neg (idStr_ne_nil _), hmap]
    rfl
  refine h.update (c := c) (C := { s.context c with phase := .registered theMask }) rfl rfl le_rfl (fun _ => ?_)
    (fun r _ hr => h.contexts r hr) (fun r hr hr' _ => h.id_unique c r (Ne.symm hr) hgone hr')
    (fun r fd hr hr' _ => h.fd_unique c r fd (Ne.symm hr) hgone hr') (fun r hr => ?_) (fun r hr => ?_) (fun fd hfd => ?_)
    (fun fd ev_data hr _ => (h.reported fd ev_data hr).2.2 c hgone) fun _ _ => rfl
  · refine ⟨hC.id_le, ?_, hC.request, hC.descriptor, ?_⟩
    · rintro (⟨hm, -⟩ | ⟨theMask', hm⟩) <;> cases hm
    · rintro theMask' (hm | hm | hm) <;> cases hm
      exact hC.mask theMask (.inr (.inl hphase))
  · rw [hadd] at hr ⊢
    have href' : ((s.fRefTable.set c (idStr (s.context c).fUniqueID) c).add c).ref r =
        (s.fRefTable.set c (idStr (s.context c).fUniqueID) c).ref r := rfl
    rw [href', href]
    by_cases hrc : r = c
    · rw [if_pos hrc, hrc, hself]
    · rw [if_neg hrc, hother r hrc]
      exact h.string r ((RefTable.inTable_add.mp hr).resolve_left hrc)
  · rw [hadd]
    by_cases hrc : r = c
    · exact RefTable.inTable_add.mpr (.inl hrc)
    · rw [hother r hrc] at hr
      exact RefTable.inTable_add.mpr (.inr (h.found r hr))
  · obtain ⟨r, hr, hrfd, hrid⟩ := h.cookie fd hfd
    by_cases hrc : r = c
    · subst hrc
      exact ⟨r, by rw [hself]; simp, by rw [hself]; exact hrfd, by rw [hself]; exact hrid⟩
    · refine ⟨r, ?_⟩
      rw [hother r hrc]
      exact ⟨hr, hrfd, hrid⟩

theorem Matched.watch (h : Matched s) {theMask : EventMask} (hphase : (s.context c).phase = .registered theMask)
    (hfd : (s.context c).fFileDesc = some fd) : Matched (s.watch c fd theMask) := by
  have hgone : (s.context c).phase ≠ .gone := by
    rw [hphase]
    exact nofun
  have hwatching := h.modwatch hgone hfd theMask
  have hC := hwatching.contexts c hgone
  refine hwatching.update_context (c := c) (C := { s.context c with
      fEventReq := (fd, (s.context c).fUniqueID), fWatchEventCalled := true, phase := .idle }) rfl rfl rfl rfl rfl hgone
    nofun rfl rfl ⟨hC.id_le, ?_, fun _ => ⟨fd, hfd, rfl⟩, hC.descriptor, ?_⟩ fun _ => .inr ⟨theMask, hphase⟩
  · rintro (⟨-, hw⟩ | ⟨theMask', hm⟩)
    · cases hw
    · cases hm
  · rintro theMask' (hm | hm | hm) <;> cases hm

/-- A context that is destructed, and leaves no cookie behind -/
theorem Matched.gone (h : Matched s) (hsafe : Safe s) (hout : ¬s.fRefTable.InTable c) {queue : EventQueue}
    (hothers : ∀ r, r ≠ c → (s.context r).phase ≠ .gone → (s.context r).Matched s.sUniqueID queue)
    (hcookie : ∀ fd, queue.sCookieArray fd ≠ 0 → queue.sCookieArray fd = s.queue.sCookieArray fd ∧
      ((s.context c).fFileDesc = some fd → (s.context c).fUniqueID ≠ queue.sCookieArray fd)) :
    Matched { s.setContext c fun C => { C with fFileDesc := none, fUniqueID := 0, phase := .gone } with queue } := by
  have hself : (s.setContext c fun C => { C with fFileDesc := none, fUniqueID := 0, phase := .gone }).context c =
      { s.context c with fFileDesc := none, fUniqueID := 0, phase := .gone } := Function.update_self ..
  have hother : ∀ r, r ≠ c →
      (s.setContext c fun C => { C with fFileDesc := none, fUniqueID := 0, phase := .gone }).context r = s.context r :=
    fun r hr => Function.update_of_ne hr ..
  refine h.update (c := c) (C := { s.context c with fFileDesc := none, fUniqueID := 0, phase := .gone }) rfl rfl le_rfl
    (fun hne => absurd rfl hne) hothers (fun _ _ _ hne => absurd rfl hne)
    (fun _ _ _ _ hne => absurd rfl hne) (fun r hr => ?_) (fun r hr => ?_) (fun fd hfd => ?_)
    (fun _ _ _ hne => absurd rfl hne) fun fd hr => ?_
  · have hrc : r ≠ c := fun heq => hout (heq ▸ hr)
    rw [hother r hrc]
    exact h.string r hr
  · by_cases hrc : r = c
    · rw [hrc, hself] at hr
      exact absurd rfl hr.not_gone
    · rw [hother r hrc] at hr
      exact h.found r hr
  · obtain ⟨hsame, hleft⟩ := hcookie fd hfd
    obtain ⟨r, hr, hrfd, hrid⟩ := h.cookie fd (hsame ▸ hfd)
    have hrc : r ≠ c := by
      rintro rfl
      exact hleft hrfd (hrid.trans hsame.symm)
    refine ⟨r, ?_⟩
    rw [hother r hrc]
    exact ⟨hr, hrfd, hrid.trans hsame.symm⟩
  · have hholds : s.event.holds = some c := by
      rw [EventPc.holds, hr]
      rfl
    exact absurd (hsafe.holds c hholds) hout

theorem Matched.cleanUp (h : Matched s) (hsafe : Safe s) (hphase : (s.context c).phase = .idle)
    (hclean : s.cleanUp c = some s') : Matched s' := by
  have hgone : (s.context c).phase ≠ .gone := by
    rw [hphase]
    simp
  have hC := h.contexts c hgone
  simp only [System.cleanUp] at hclean
  split at hclean
  · rw [RefTable.unRegister] at hclean
    split at hclean
    · cases hclean
    · obtain rfl := Option.some.inj hclean
      have hin : ∀ r, (s.fRefTable.removeEntry c).InTable r ↔ r ≠ c ∧ s.fRefTable.InTable r :=
        fun r => hsafe.table.inTable_removeEntry
      have hself : (s.setPhase c .unregistered).context c = { s.context c with phase := .unregistered } :=
        Function.update_self ..
      have hother : ∀ r, r ≠ c → (s.setPhase c .unregistered).context r = s.context r :=
        fun r hr => Function.update_of_ne hr ..
      refine h.update (c := c) (C := { s.context c with phase := .unregistered }) rfl rfl le_rfl (fun _ => ?_)
        (fun r _ hr => h.contexts r hr) (fun r hr hr' _ => h.id_unique c r (Ne.symm hr) hgone hr')
        (fun r fd hr hr' _ => h.fd_unique c r fd (Ne.symm hr) hgone hr') (fun r hr => ?_) (fun r hr => ?_)
        (fun fd hfd => ?_) (fun fd ev_data hr _ => (h.reported fd ev_data hr).2.2 c hgone) fun _ _ => rfl
      · refine ⟨hC.id_le, ?_, hC.request, hC.descriptor, ?_⟩
        · rintro (⟨hm, -⟩ | ⟨theMask', hm⟩) <;> cases hm
        · rintro theMask' (hm | hm | hm) <;> cases hm
      · obtain ⟨hrc, hr'⟩ := (hin r).mp hr
        rw [hother r hrc]
        exact h.string r hr'
      · by_cases hrc : r = c
        · rw [hrc, hself] at hr
          exact absurd hr (not_listed (by simp) (by simp))
        · rw [hother r hrc] at hr
          exact (hin r).mpr ⟨hrc, h.found r hr⟩
      · obtain ⟨r, hr, hrfd, hrid⟩ := h.cookie fd hfd
        by_cases hrc : r = c
        · subst hrc
          exact ⟨r, by rw [hself]; simp, by rw [hself]; exact hrfd, by rw [hself]; exact hrid⟩
        · refine ⟨r, ?_⟩
          rw [hother r hrc]
          exact ⟨hr, hrfd, hrid⟩
  · next hlive =>
    obtain rfl := Option.some.inj hclean
    have hout : ¬s.fRefTable.InTable c := by
      refine hsafe.not_inTable ?_
      rintro (⟨-, hwatched⟩ | ⟨theMask, hregistered⟩)
      · exact hlive ((hsafe.contexts c).watched hgone hwatched).symm
      · exact absurd (hphase.symm.trans hregistered) (by simp)
    refine h.gone hsafe hout (fun r _ hr => h.contexts r hr) fun fd hfd => ⟨rfl, fun hcfd hcid => hlive ⟨?_, ?_⟩⟩
    · rw [hcfd]
      simp
    · rw [hcid]
      exact hfd

theorem Matched.removeWatch (h : Matched s) (hsafe : Safe s) (hphase : (s.context c).phase = .unregistered)
    (hfd : (s.context c).fFileDesc = some fd) : Matched (s.removeWatch c fd) := by
  have hgone : (s.context c).phase ≠ .gone := by
    rw [hphase]
    exact nofun
  have hout : ¬s.fRefTable.InTable c :=
    hsafe.not_inTable (not_listed (by rw [hphase]; exact nofun) (by rw [hphase]; exact fun _ => nofun))
  refine h.gone hsafe hout (fun r hr hr' => ?_) fun fd' hfd' => ?_
  · obtain ⟨hle, hunnumbered, hrequest, hdescriptor, hmask⟩ := h.contexts r hr'
    refine ⟨hle, hunnumbered, hrequest, fun fd' hfd' => ?_, hmask⟩
    obtain ⟨hlt, hpipe, hopen⟩ := hdescriptor fd' hfd'
    refine ⟨hlt, hpipe, fun hmem => ?_⟩
    rcases List.mem_append.mp hmem with hmem | hmem
    · exact hopen hmem
    · rw [List.mem_singleton.mp hmem] at hfd'
      exact h.fd_unique c r fd (Ne.symm hr) hgone hr' hfd hfd'
  · have hcookie : (s.queue.removeevent fd).sCookieArray = Function.update s.queue.sCookieArray fd 0 := rfl
    rw [hcookie] at hfd' ⊢
    have hne : fd' ≠ fd := by
      rintro rfl
      exact hfd' (Function.update_self ..)
    rw [Function.update_of_ne hne]
    exact ⟨rfl, fun hcfd => absurd (Option.some.inj (hfd.symm.trans hcfd)).symm hne⟩

/-! ### The event thread, and the others -/

/-- A queue with the same cookies, and no more left to close -/
theorem Matched.of_queue (h : Matched s) {queue : EventQueue} (hcookie : queue.sCookieArray = s.queue.sCookieArray)
    (hpipe : queue.sPipe = s.queue.sPipe) (hclose : ∀ fd ∈ queue.sFDsToCloseArray, fd ∈ s.queue.sFDsToCloseArray) :
    Matched { s with queue } := by
  refine ⟨fun r hr => ?_, h.id_unique, h.fd_unique, h.string, h.found, hcookie ▸ h.cookie, h.reported, h.held⟩
  obtain ⟨hle, hunnumbered, hrequest, hdescriptor, hmask⟩ := h.contexts r hr
  refine ⟨hle, hunnumbered, hrequest, fun fd hfd => ?_, hmask⟩
  obtain ⟨hlt, hne, hopen⟩ := hdescriptor fd hfd
  exact ⟨hlt, hpipe ▸ hne, fun hmem => hopen (hclose fd hmem)⟩

/-- What the event thread does to the queue -/
theorem queue_frame {op : EventQueues.Op} {q : EventQueue} {p : EventQueues.Answer × EventQueue}
    (hp : EventQueues.apply op q = some p) (hop : (∀ fd which ev_data, op ≠ .modwatch fd which ev_data) ∧
      ∀ fd, op ≠ .removeevent fd) :
    p.2.sCookieArray = q.sCookieArray ∧ p.2.sPipe = q.sPipe ∧ ∀ fd ∈ p.2.sFDsToCloseArray, fd ∈ q.sFDsToCloseArray := by
  have hcall : Call q (op, p.1) p.2 := hp
  obtain ⟨answer, q'⟩ := p
  cases hcall.stepped with
  | modwatch fd which ev_data => exact absurd rfl (hop.1 fd which ev_data)
  | removeevent fd => exact absurd rfl (hop.2 fd)
  | closeFds => exact ⟨rfl, rfl, nofun⟩
  | _ => exact ⟨rfl, rfl, fun _ hmem => hmem⟩

theorem Matched.setEvent (h : Matched s) {event : EventPc}
    (hreported : ∀ fd ev_data, event = .reported fd ev_data → ev_data ≠ 0 ∧ ev_data.toNat ≤ s.sUniqueID.toNat ∧
      ∀ c, (s.context c).phase ≠ .gone → (s.context c).fUniqueID = ev_data → (s.context c).fFileDesc = some fd)
    (hheld : ∀ fd c, event.at? = some (fd, c) → (s.context c).fFileDesc = some fd) : Matched { s with event } :=
  ⟨h.contexts, h.id_unique, h.fd_unique, h.string, h.found, h.cookie, hreported, hheld⟩

theorem Matched.take (h : Matched s) (htake : s.take = some s') : Matched s' := by
  simp only [System.take] at htake
  split at htake
  · next event ev_data queue hq =>
    obtain rfl := Option.some.inj htake
    obtain ⟨hcookie, hpipe, hclose⟩ := queue_frame hq ⟨nofun, nofun⟩
    have hqueue := h.of_queue hcookie hpipe hclose
    have hev_data : ev_data = s.queue.sCookieArray event.fd := by
      have hcall : Call s.queue (.take, .event event ev_data) queue := hq
      cases hcall.stepped with
      | event => rfl
    refine hqueue.setEvent (fun fd ev_data' heq => ?_) (fun fd c heq => ?_)
    · split at heq
      · cases heq
      · next hne =>
        obtain ⟨rfl, rfl⟩ := EventPc.reported.inj heq
        obtain ⟨r, hr, hrfd, hrid⟩ := h.cookie event.fd (hev_data ▸ hne)
        refine ⟨hne, ?_, fun c hc hcid => ?_⟩
        · rw [hev_data, ← hrid]
          exact (h.contexts r hr).id_le
        · by_cases hcr : c = r
          · exact hcr ▸ hrfd
          · have hzero := h.id_unique c r hcr hc hr ((hcid.trans hev_data).trans hrid.symm)
            exact absurd (hcid.symm.trans hzero) hne
    · split at heq <;> cases heq
  · next hq =>
    obtain rfl := Option.some.inj htake
    obtain ⟨hcookie, hpipe, hclose⟩ := queue_frame hq ⟨nofun, nofun⟩
    exact h.of_queue hcookie hpipe hclose
  · cases htake

theorem setCount_string (table : RefTable) (ref : ℕ) (n : BitVec 32) (r : ℕ) :
    ((table.setCount ref n).ref r).fString = (table.ref r).fString := by
  refine (congrArg OSRef.fString (RefTable.ref_setRef _ r)).trans ?_
  split
  · next heq => rw [heq]
  · rfl

theorem Matched.resolve (h : Matched s) (hsafe : Safe s) {ev_data : Cookie} (hevent : s.event = .reported fd ev_data) :
    Matched (s.resolve fd ev_data) := by
  rw [System.resolve, RefTable.resolve]
  cases hmap : s.fRefTable.map (idStr ev_data) with
  | none => exact h.setEvent (by simp) (by simp [EventPc.at?])
  | some ref =>
    obtain ⟨hin, hstring⟩ := hsafe.table.map_eq_some_iff.mp hmap
    have hid : (s.context ref).fUniqueID = ev_data := idStr_inj ((h.string ref hin).symm.trans hstring)
    have hfd := (h.reported fd ev_data hevent).2.2 ref (hsafe.listed ref hin).2.not_gone hid
    refine ⟨h.contexts, h.id_unique, h.fd_unique, fun r hr => ?_, h.found, h.cookie, (by simp), fun fd' c heq => ?_⟩
    · exact (setCount_string s.fRefTable ref ((s.fRefTable.ref ref).fRefCount + 1) r).trans (h.string r hr)
    · obtain ⟨rfl, rfl⟩ := Prod.mk.inj (Option.some.inj heq)
      exact hfd

theorem Matched.release (h : Matched s) (ref : ℕ) : Matched (s.release ref) := by
  refine ⟨h.contexts, h.id_unique, h.fd_unique, fun r hr => ?_, h.found, h.cookie, nofun, nofun⟩
  exact (setCount_string s.fRefTable ref ((s.fRefTable.ref ref).fRefCount - 1) r).trans (h.string r hr)

theorem Matched.processEvent (h : Matched s) {ref : ℕ} (hevent : s.event = .resolved fd ref) :
    Matched (s.processEvent fd ref) := by
  have hat : s.event.at? = some (fd, ref) := by
    rw [hevent]
    rfl
  simp only [System.processEvent]
  cases (s.context (s.fRefTable.ref ref).fObjectP).fTask with
  | none => exact ⟨h.contexts, h.id_unique, h.fd_unique, h.string, h.found, h.cookie, nofun, fun fd' c heq =>
      h.held fd' c (hat.trans heq)⟩
  | some x => exact ⟨h.contexts, h.id_unique, h.fd_unique, h.string, h.found, h.cookie, nofun, fun fd' c heq =>
      h.held fd' c (hat.trans heq)⟩

theorem Matched.step (h : Matched s) (hsafe : Safe s) {a : Act} (hallowed : Allowed s a) (hnumbering : Numbering s a)
    (hstep : Taken s a s') : Matched s' := by
  cases hstep.stepped with
  | task hworld => exact ⟨h.contexts, h.id_unique, h.fd_unique, h.string, h.found, h.cookie, h.reported, h.held⟩
  | construct hphase notifytask => exact h.construct hsafe hphase notifytask
  | openSocket hphase fd => exact h.openSocket hsafe hphase hallowed
  | @setTask c hphase inTask =>
    have hgone : (s.context c).phase ≠ .gone := by
      rw [hphase]
      exact nofun
    have hC := h.contexts c hgone
    exact h.update_context (c := c) (C := { s.context c with fTask := inTask }) rfl rfl rfl rfl rfl hgone hgone rfl rfl
      ⟨hC.id_le, hC.unnumbered, hC.request, hC.descriptor, hC.mask⟩ id
  | requestEvent hphase theMask => exact h.requestEvent hphase hallowed.2 hnumbering
  | number hphase => exact h.number hsafe hphase hallowed
  | register hphase => exact h.register hsafe hphase
  | watch hphase hfd => exact h.watch hphase hfd
  | cleanUp hphase hclean => exact h.cleanUp hsafe hphase hclean
  | removeWatch hphase hfd => exact h.removeWatch hsafe hphase hfd
  | wakeup hp =>
    obtain ⟨hcookie, hpipe, hclose⟩ := queue_frame hp ⟨nofun, nofun⟩
    exact h.of_queue hcookie hpipe hclose
  | closeFds hp =>
    obtain ⟨hcookie, hpipe, hclose⟩ := queue_frame hp ⟨nofun, nofun⟩
    exact h.of_queue hcookie hpipe hclose
  | setMaxevent hp =>
    obtain ⟨hcookie, hpipe, hclose⟩ := queue_frame hp ⟨nofun, nofun⟩
    exact h.of_queue hcookie hpipe hclose
  | drain hp =>
    obtain ⟨hcookie, hpipe, hclose⟩ := queue_frame hp ⟨nofun, nofun⟩
    exact h.of_queue hcookie hpipe hclose
  | epollWait hp =>
    obtain ⟨hcookie, hpipe, hclose⟩ := queue_frame hp ⟨nofun, nofun⟩
    exact h.of_queue hcookie hpipe hclose
  | take hevent htake => exact h.take htake
  | resolve hevent => exact h.resolve hsafe hevent
  | processEvent hevent => exact h.processEvent hevent
  | @signal fd ref task hevent =>
    refine ⟨h.contexts, h.id_unique, h.fd_unique, h.string, h.found, h.cookie, nofun, fun fd' c heq => h.held fd' c ?_⟩
    rw [hevent]
    exact heq
  | release hevent => exact h.release _

/-! ### The queue below -/

/-- The queue is one that calls the event queue allows lead to. -/
def QueueRun (s : System) : Prop :=
  ∃ calls, Reaches EventQueues.Call (fun q call => EventQueues.Allowed q call.1) (.startevents s.queue.sPipe) calls s.queue

theorem QueueRun.call (h : QueueRun s) (op : EventQueues.Op) {p : EventQueues.Answer × EventQueue}
    (hallowed : EventQueues.Allowed s.queue op) (hp : EventQueues.apply op s.queue = some p)
    (hqueue : s'.queue = p.2) (hpipe : p.2.sPipe = s.queue.sPipe) : QueueRun s' := by
  obtain ⟨calls, hrun⟩ := h
  refine ⟨calls ++ [(op, p.1)], ?_⟩
  rw [hqueue, hpipe]
  exact hrun.append (.cons hallowed hp (.nil _))

theorem QueueRun.step (h : QueueRun s) (hsafe : Safe s) (hmatched : Matched s) {a : Act} (hallowed : Allowed s a)
    (hstep : Taken s a s') : QueueRun s' := by
  cases hstep.stepped with
  | task => exact h
  | construct => exact h
  | openSocket => exact h
  | setTask => exact h
  | @requestEvent c hphase theMask =>
    have hgone : (s.context c).phase ≠ .gone := by
      rw [hphase]
      simp
    simp only [System.requestEvent]
    split
    · next hwatched =>
      obtain ⟨fd, hfd, hrequest⟩ := (hmatched.contexts c hgone).request hwatched
      obtain ⟨hlt, hpipe, hopen⟩ := (hmatched.contexts c hgone).descriptor fd hfd
      rw [hrequest]
      refine h.call (.modwatch fd theMask (s.context c).fUniqueID) ⟨hlt, hpipe, hopen, hallowed.2, ?_⟩ rfl rfl ?_
      · exact ((hsafe.contexts c).watched hgone hwatched).1
      · obtain ⟨_, _, _, hframe⟩ := modwatch_frame s.queue fd theMask (s.context c).fUniqueID
        rw [hframe]
    · split <;> exact h
  | number => exact h
  | register => exact h
  | @watch c fd theMask hphase hfd =>
    have hgone : (s.context c).phase ≠ .gone := by
      rw [hphase]
      simp
    obtain ⟨hlt, hpipe, hopen⟩ := (hmatched.contexts c hgone).descriptor fd hfd
    refine h.call (.modwatch fd theMask (s.context c).fUniqueID) ⟨hlt, hpipe, hopen, ?_, ?_⟩ rfl rfl ?_
    · exact (hmatched.contexts c hgone).mask theMask (.inr (.inr hphase))
    · exact (hsafe.contexts c).numbered (.inr ⟨theMask, .inr hphase⟩)
    · obtain ⟨_, _, _, hframe⟩ := modwatch_frame s.queue fd theMask (s.context c).fUniqueID
      rw [hframe]
  | @cleanUp c s' hphase hclean =>
    simp only [System.cleanUp] at hclean
    split at hclean
    · rw [RefTable.unRegister] at hclean
      split at hclean
      · cases hclean
      · obtain rfl := Option.some.inj hclean
        exact h
    · obtain rfl := Option.some.inj hclean
      exact h
  | @removeWatch c fd hphase hfd =>
    have hgone : (s.context c).phase ≠ .gone := by
      rw [hphase]
      simp
    obtain ⟨hlt, hpipe, hopen⟩ := (hmatched.contexts c hgone).descriptor fd hfd
    exact h.call (.removeevent fd) ⟨hlt, hpipe, hopen, hallowed⟩ rfl rfl rfl
  | wakeup hp => exact h.call .wakeup trivial hp rfl (queue_frame hp ⟨by simp, by simp⟩).2.1
  | closeFds hp => exact h.call .closeFds trivial hp rfl (queue_frame hp ⟨by simp, by simp⟩).2.1
  | drain hp => exact h.call .drain trivial hp rfl (queue_frame hp ⟨by simp, by simp⟩).2.1
  | setMaxevent hp => exact h.call .setMaxevent trivial hp rfl (queue_frame hp ⟨by simp, by simp⟩).2.1
  | epollWait hp => exact h.call (.epollWait _) hallowed hp rfl (queue_frame hp ⟨by simp, by simp⟩).2.1
  | take hevent htake =>
    simp only [System.take] at htake
    split at htake
    · next hp =>
      obtain rfl := Option.some.inj htake
      exact h.call .take trivial hp rfl (queue_frame hp ⟨by simp, by simp⟩).2.1
    · next hp =>
      obtain rfl := Option.some.inj htake
      exact h.call .take trivial hp rfl (queue_frame hp ⟨by simp, by simp⟩).2.1
    · cases htake
  | resolve =>
    rw [System.resolve]
    split <;> exact h
  | processEvent => exact h
  | signal => exact h
  | release => exact h

theorem Start.matched (h : Start s) : Matched s := by
  have hsafe := h.safe
  have hgone : ∀ c, (s.context c).phase = .gone := fun c => (h.context c).1
  obtain ⟨sPipe, hqueue⟩ := h.queue
  refine ⟨fun c hne => absurd (hgone c) hne, fun c _ _ hne => absurd (hgone c) hne, fun c _ _ _ hne => absurd (hgone c) hne,
    fun c hin => ?_, fun c hlisted => absurd (hgone c) hlisted.not_gone, fun fd hfd => ?_, fun fd ev_data heq => ?_,
    fun fd c heq => ?_⟩
  · exact absurd (hgone c) (hsafe.listed c hin).2.not_gone
  · rw [hqueue] at hfd
    exact absurd rfl hfd
  · rw [h.event] at heq
    cases heq
  · rw [h.event] at heq
    cases heq

/-- In every order of steps in which the ids do not start anew, the event queue is used as it asks to be, every cookie is
the id of the one socket that has the descriptor, a socket that is registered is found by its id, and what the event
thread has resolved for an event of a descriptor is the socket that has this descriptor. -/
theorem events_reach_own_socket {as : List Act} (hstart : Start s)
    (hrun : Reaches Taken (fun s a => Allowed s a ∧ Numbering s a) s as s') :
    (∃ calls, Reaches EventQueues.Call (fun q call => EventQueues.Allowed q call.1) (.startevents s'.queue.sPipe) calls
        s'.queue) ∧
      (∀ fd, s'.queue.sCookieArray fd ≠ 0 → ∃ c, (s'.context c).phase ≠ .gone ∧
        (s'.context c).fFileDesc = some fd ∧ (s'.context c).fUniqueID = s'.queue.sCookieArray fd ∧
        ∀ c', (s'.context c').phase ≠ .gone → (s'.context c').fFileDesc = some fd → c' = c) ∧
      (∀ c, (s'.context c).Listed → s'.fRefTable.map (idStr (s'.context c).fUniqueID) = some c) ∧
      ∀ fd c, s'.event.at? = some (fd, c) → (s'.context c).phase ≠ .gone ∧ (s'.context c).fFileDesc = some fd := by
  obtain ⟨hsafe, hmatched, hqueue⟩ : Safe s' ∧ Matched s' ∧ QueueRun s' := by
    refine hrun.invariant (I := fun s => Safe s ∧ Matched s ∧ QueueRun s) ?_ ⟨hstart.safe, hstart.matched, ?_⟩
    · rintro s a s' ⟨hsafe, hmatched, hqueue⟩ ⟨hallowed, hnumbering⟩ htaken
      exact ⟨hsafe.step hallowed htaken, hmatched.step hsafe hallowed hnumbering htaken,
        hqueue.step hsafe hmatched hallowed htaken⟩
    · obtain ⟨sPipe, hstartqueue⟩ := hstart.queue
      refine ⟨[], ?_⟩
      rw [hstartqueue]
      exact .nil _
  refine ⟨hqueue, fun fd hfd => ?_, fun c hlisted => ?_, fun fd c hat => ⟨?_, hmatched.held fd c hat⟩⟩
  · obtain ⟨c, hc, hcfd, hcid⟩ := hmatched.cookie fd hfd
    refine ⟨c, hc, hcfd, hcid, fun c' hc' hcfd' => ?_⟩
    by_contra hne
    exact hmatched.fd_unique c' c fd hne hc' hc hcfd' hcfd
  · have hin := hmatched.found c hlisted
    exact hsafe.table.map_eq_some_iff.mpr ⟨hin, hmatched.string c hin⟩
  · have hholds : s'.event.holds = some c := by
      rw [EventPc.holds, hat]
      rfl
    exact (hsafe.listed c (hsafe.holds c hholds)).2.not_gone

theorem events_reach_own_socket_example :
    (∃ calls, Reaches EventQueues.Call (fun q call => EventQueues.Allowed q call.1)
        (.startevents exampleEnd.queue.sPipe) calls exampleEnd.queue) ∧
      (∀ fd, exampleEnd.queue.sCookieArray fd ≠ 0 → ∃ c, (exampleEnd.context c).phase ≠ .gone ∧
        (exampleEnd.context c).fFileDesc = some fd ∧
        (exampleEnd.context c).fUniqueID = exampleEnd.queue.sCookieArray fd ∧
        ∀ c', (exampleEnd.context c').phase ≠ .gone → (exampleEnd.context c').fFileDesc = some fd → c' = c) ∧
      (∀ c, (exampleEnd.context c).Listed →
        exampleEnd.fRefTable.map (idStr (exampleEnd.context c).fUniqueID) = some c) ∧
      ∀ fd c, exampleEnd.event.at? = some (fd, c) →
        (exampleEnd.context c).phase ≠ .gone ∧ (exampleEnd.context c).fFileDesc = some fd :=
  events_reach_own_socket exampleStart_start example_reaches

end Tefs.DataServer.EventContexts
