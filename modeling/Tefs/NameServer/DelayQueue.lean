import Mathlib.Data.Fintype.Card
import Tefs.NameServer.EventLoop

/-! # What the delay queue keeps

A close leaves the event in the queue, so it is harmless only for an event that is not queued or that the delay run
in progress is about to remove. A report puts the event into the queue whenever `GFS_EVENT_READ` is clear, so it is
harmless only for an event that is not queued yet or has that bit. Under these two conditions the list stays a ring of
open connections. An event that waits for `EPOLLOUT` has `GFS_NET_READY` clear, and the delay run passes over it.
-/

namespace Tefs.NameServer.EventLoop
open Tefs.Ring Runs
set_option autoImplicit false

variable {num : ℕ}

/-! ## The condition -/

def Ptr.node? : Ptr num → Option (Fin num)
  | .qnode c => some c
  | _ => none

namespace Loop

/-- The events of the delay list from `q` on -/
def eventsFrom (s : Loop num) (q : Ptr num) : List (Fin num) := (s.links.walk .delay num q).filterMap Ptr.node?

def queue (s : Loop num) : List (Fin num) := s.eventsFrom (s.links.next .delay)

/-- The events that the delay run visits after `c` -/
def ahead (s : Loop num) (c : Fin num) : List (Fin num) := s.eventsFrom (s.links.next (.qnode c))

/-- Outside the delay run: the event is not queued. -/
def MayClose (s : Loop num) (d : Fin num) : Prop := d ∉ s.queue

/-- While the delay run visits `c` and leaves it in the queue: the event is not queued, or its turn comes. -/
def MayCloseAhead (c : Fin num) (s : Loop num) (d : Fin num) : Prop :=
  d ∉ s.queue ∨ d ∈ s.ahead c ∧ (s.net d).ev.netReady

/-- While the delay run visits `c` and then removes it -/
def MayCloseAt (c : Fin num) (s : Loop num) (d : Fin num) : Prop := d = c ∨ s.MayCloseAhead c d

instance (s : Loop num) (d : Fin num) : Decidable (s.MayClose d) := inferInstanceAs (Decidable (d ∉ s.queue))

instance (c : Fin num) (s : Loop num) (d : Fin num) : Decidable (s.MayCloseAhead c d) :=
  inferInstanceAs (Decidable (_ ∨ _ ∧ _))

instance (c : Fin num) (s : Loop num) (d : Fin num) : Decidable (s.MayCloseAt c d) :=
  inferInstanceAs (Decidable (_ ∨ _))

/-- `gfs_handle_tcp_send` closes the connection only if it may, and so does what `c->handle(c)` sends. -/
def SafeSend (may : Loop num → Fin num → Prop) (safe : Loop num → Prop) (caller : Caller) (c : Fin num)
    (results : List SendReturn) (s : Loop num) : Prop :=
  ((s.netTcpSend caller c results).1 = .close → may s c) ∧
    (((s.sendAndReact caller c results).net c).ev.write →
      safe ((s.sendAndReact caller c results).setEv c fun ev => { ev with write := false }))

instance (may : Loop num → Fin num → Prop) [∀ s c, Decidable (may s c)] (safe : Loop num → Prop)
    [∀ s, Decidable (safe s)] (caller : Caller) (c : Fin num) (results : List SendReturn) (s : Loop num) :
    Decidable (s.SafeSend may safe caller c results) := inferInstanceAs (Decidable ((_ → _) ∧ (_ → _)))

end Loop

open Loop

mutual

def Send.Safe (may : Loop num → Fin num → Prop) : Send num → Loop num → Prop
  | .mk c bytes results sends, s => (s.memcopy c bytes).SafeSend may (SafeSends may sends) .busi c results

def SafeSends (may : Loop num → Fin num → Prop) : List (Send num) → Loop num → Prop
  | [], _ => True
  | send :: sends, s => send.Safe may s ∧ SafeSends may sends (send.run s)

end

mutual

def Send.decidableSafe (may : Loop num → Fin num → Prop) [∀ s c, Decidable (may s c)] :
    ∀ (send : Send num) (s : Loop num), Decidable (send.Safe may s)
  | .mk c bytes results sends, s =>
    have : ∀ s, Decidable (SafeSends may sends s) := decidableSafeSends may sends
    inferInstanceAs (Decidable ((s.memcopy c bytes).SafeSend may (SafeSends may sends) .busi c results))

def decidableSafeSends (may : Loop num → Fin num → Prop) [∀ s c, Decidable (may s c)] :
    ∀ (sends : List (Send num)) (s : Loop num), Decidable (SafeSends may sends s)
  | [], _ => .isTrue trivial
  | send :: sends, s =>
    @instDecidableAnd _ _ (send.decidableSafe may s) (decidableSafeSends may sends (send.run s))

end

instance (may : Loop num → Fin num → Prop) [∀ s c, Decidable (may s c)] (sends : List (Send num)) (s : Loop num) :
    Decidable (SafeSends may sends s) := decidableSafeSends may sends s

namespace Loop

def SafeVisit (c : Fin num) (v : Visit num) (s : Loop num) : Prop :=
  (s.net c).ev.netReady →
    ((s.net c).ev.write → s.SafeSend (MayCloseAt c) (SafeSends (MayCloseAt c) v.afterSend) .delayRun c v.results) ∧
    (((s.visitWrite c v).net c).ev.read → (s.visitWrite c v).Open c →
      (v.recv = .again → SafeSends (MayCloseAt c) v.afterRecv (s.visitWrite c v)) ∧
      (v.recv = .outOfMemory → SafeSends (MayCloseAhead c) v.afterRecv (s.visitWrite c v)))

instance (c : Fin num) (v : Visit num) (s : Loop num) : Decidable (s.SafeVisit c v) :=
  inferInstanceAs (Decidable (_ → (_ → _) ∧ (_ → _ → (_ → _) ∧ (_ → _))))

def SafeLoop (visits : ℕ → Visit num) : ℕ → ℕ → Ptr num → Loop num → Prop
  | fuel + 1, i, .qnode c, s => s.SafeVisit c (visits i) ∧
    ∀ s', s.visit c (visits i) = some s' → SafeLoop visits fuel (i + 1) (s'.links.next (.qnode c)) s'
  | _, _, _, _ => True

instance instDecidableSafeLoop (visits : ℕ → Visit num) :
    ∀ (fuel i : ℕ) (q : Ptr num) (s : Loop num), Decidable (SafeLoop visits fuel i q s)
  | fuel + 1, i, .qnode c, s => @instDecidableAnd _ _ inferInstance
    (@instDecidableForallSome _ _ (fun s' => instDecidableSafeLoop visits fuel (i + 1) _ s') (s.visit c (visits i)))
  | 0, _, .qnode _, _ => .isTrue trivial
  | 0, _, .delay, _ => .isTrue trivial
  | 0, _, .null, _ => .isTrue trivial
  | _ + 1, _, .delay, _ => .isTrue trivial
  | _ + 1, _, .null, _ => .isTrue trivial

/-- The condition on a step, in the state before it. -/
def Safe (s : Loop num) : Action num → Prop
  | .timeout c => s.MayClose c
  | .hangup c => s.MayClose c
  | .notices sends => SafeSends MayClose sends s
  | .delayRun visits => SafeLoop visits num 0 (s.links.next .delay) { s with attempts := [] }
  | .report c _ _ => c ∈ s.queue → (s.net c).ev.read
  | .accept _ => True

instance (s : Loop num) : ∀ a, Decidable (s.Safe a)
  | .timeout c => inferInstanceAs (Decidable (s.MayClose c))
  | .hangup c => inferInstanceAs (Decidable (s.MayClose c))
  | .notices sends => inferInstanceAs (Decidable (SafeSends MayClose sends s))
  | .delayRun _ => inferInstanceAs (Decidable (SafeLoop _ _ _ _ _))
  | .report _ _ _ => inferInstanceAs (Decidable (_ → _))
  | .accept _ => .isTrue trivial

/-! ## What a send does -/

@[simp] theorem setNet_links (c : Fin num) (n : Net) (s : Loop num) : (s.setNet c n).links = s.links := rfl

@[simp] theorem setNet_free (c : Fin num) (n : Net) (s : Loop num) : (s.setNet c n).free = s.free := rfl

@[simp] theorem setNet_attempts (c : Fin num) (n : Net) (s : Loop num) : (s.setNet c n).attempts = s.attempts := rfl

@[simp] theorem setNet_self (c : Fin num) (n : Net) (s : Loop num) : (s.setNet c n).net c = n := by
  simp [setNet]

theorem setNet_ne {c d : Fin num} (h : d ≠ c) (n : Net) (s : Loop num) : (s.setNet c n).net d = s.net d := by
  simp [setNet, Function.update_of_ne h]

end Loop

theorem NetBuf.sendLoop_ok (rs : List SendReturn) (b : NetBuf) (h : (b.sendLoop rs).1 = .ok) :
    (b.sendLoop rs).2.remain = 0 := by
  induction rs generalizing b with
  | nil =>
    by_cases hb : b.remain = 0
    · simp [sendLoop, hb]
    · simp [sendLoop, hb] at h
  | cons r rs ih =>
    by_cases hb : b.remain = 0
    · simp [sendLoop, hb]
    · cases r with
      | bytes n =>
        simp only [sendLoop, if_neg hb] at h ⊢
        exact ih _ h
      | eintr =>
        simp only [sendLoop, if_neg hb] at h ⊢
        exact ih _ h
      | eagain => simp [sendLoop, hb] at h
      | error => simp [sendLoop, hb] at h

theorem NetBuf.sendLoop_error (b : NetBuf) : (b.sendLoop [.error]).1 ≠ .again := by
  by_cases hb : b.remain = 0 <;> simp [sendLoop, hb]

namespace Loop

/-- The three ways of `gfs_handle_tcp_send` up to its test of `GFS_EVENT_WRITE`, as seen at the connection. -/
inductive Reacts (caller : Caller) (c : Fin num) (results : List SendReturn) (s s' : Loop num) : Prop
  | close (hrtn : (s.netTcpSend caller c results).1 = .close) (hfd : (s'.net c).fd = -1)
      (hready : (s'.net c).ev.netReady = (s.net c).ev.netReady) (hfree : s'.free = c :: s.free.erase c)
  | again (hopen : s.Open c) (hfd : (s'.net c).fd = (s.net c).fd) (hready : (s'.net c).ev.netReady = false)
      (hfree : s'.free = s.free)
  | ok (hfd : (s'.net c).fd = (s.net c).fd) (hready : (s'.net c).ev.netReady = true)
      (hout : (s'.net c).ev.epollout = true → (s.net c).ev.epollout = true ∧ (s.net c).ev.netReady = true)
      (hsent : (s'.net c).sbuf.remain = 0) (hfree : s'.free = s.free)

theorem sendAndReact_reacts (caller : Caller) (c : Fin num) (results : List SendReturn) (s : Loop num) :
    Reacts caller c results s (s.sendAndReact caller c results) := by
  rw [sendAndReact]
  rcases hsend : s.netTcpSend caller c results with ⟨rtn, s₁⟩
  simp only [netTcpSend, Prod.mk.injEq] at hsend
  obtain ⟨hrtn, rfl⟩ := hsend
  cases rtn with
  | close =>
    refine .close hrtn ?_ ?_ ?_ <;> simp [netClose]
  | again =>
    have hopen : s.Open c := by
      intro hclosed
      rw [if_pos hclosed] at hrtn
      exact NetBuf.sendLoop_error _ hrtn
    refine .again hopen ?_ ?_ ?_ <;> simp [eventAdd, setEv]
  | ok =>
    have hsent := NetBuf.sendLoop_ok _ _ hrtn
    by_cases hready : (s.net c).ev.netReady
    · refine .ok ?_ ?_ ?_ ?_ ?_ <;> simp [hready, hsent]
    · refine .ok ?_ ?_ ?_ ?_ ?_ <;> simp [eventAdd, setEv, hready, hsent]

theorem sendAndReact_frame (caller : Caller) (c : Fin num) (results : List SendReturn) (s : Loop num) :
    (s.sendAndReact caller c results).links = s.links ∧
    (∀ d, d ≠ c → (s.sendAndReact caller c results).net d = s.net d) ∧
    (s.sendAndReact caller c results).attempts =
      if (s.net c).sbuf.remain = 0 then s.attempts else s.attempts ++ [(caller, c)] := by
  rw [sendAndReact]
  rcases hsend : s.netTcpSend caller c results with ⟨rtn, s₁⟩
  simp only [netTcpSend, Prod.mk.injEq] at hsend
  obtain ⟨-, rfl⟩ := hsend
  cases rtn with
  | close => exact ⟨rfl, fun d hd => by simp [netClose, setNet_ne hd], rfl⟩
  | again => exact ⟨rfl, fun d hd => by simp [eventAdd, setEv, setNet_ne hd], rfl⟩
  | ok =>
    by_cases hready : (s.net c).ev.netReady
    · refine ⟨by simp [hready], fun d hd => ?_, by simp [hready]⟩
      simp [hready, setNet_ne hd]
    · refine ⟨by simp [eventAdd, setEv, hready], fun d hd => ?_, by simp [eventAdd, setEv, hready]⟩
      simp [eventAdd, setEv, hready, setNet_ne hd]

/-! ## The invariant -/

/-- The events of `kept` belong to open connections. Those of `rest` may have been closed, but the delay run will
remove them. An event for which `EPOLLOUT` is asked waits, and a connection that does not wait has sent all that was
held back. -/
structure Good (kept rest : List (Fin num)) (s : Loop num) : Prop where
  kept : ∀ d ∈ kept, s.Open d
  rest : ∀ d ∈ rest, s.Open d ∨ (s.net d).ev.netReady
  free : ∀ d ∈ s.free, ¬ s.Open d
  nodup : s.free.Nodup
  waits : ∀ d, s.Open d → (s.net d).ev.epollout → (s.net d).ev.netReady = false
  sent : ∀ d, s.Open d → (s.net d).reported → (s.net d).ev.netReady → (s.net d).sbuf.remain = 0

variable {kept rest : List (Fin num)} {s s' : Loop num} {c : Fin num}

/-- A step that changes one connection keeps the invariant if it keeps it there. -/
theorem Good.change (h : Good kept rest s) (hother : ∀ d, d ≠ c → s'.net d = s.net d)
    (hkept : c ∈ kept → s'.Open c) (hrest : c ∈ rest → s'.Open c ∨ (s'.net c).ev.netReady)
    (hfree : ∀ d ∈ s'.free, d = c ∨ d ∈ s.free) (hfreed : c ∈ s'.free → ¬ s'.Open c) (hnodup : s'.free.Nodup)
    (hwaits : s'.Open c → (s'.net c).ev.epollout → (s'.net c).ev.netReady = false)
    (hsent : s'.Open c → (s'.net c).reported → (s'.net c).ev.netReady → (s'.net c).sbuf.remain = 0) :
    Good kept rest s' := by
  have hopen : ∀ d, d ≠ c → (s'.Open d ↔ s.Open d) := fun d hd => by rw [Open, Open, hother d hd]
  refine ⟨fun d hd => ?_, fun d hd => ?_, fun d hd => ?_, hnodup, fun d => ?_, fun d => ?_⟩
  · by_cases hdc : d = c
    · exact hdc ▸ hkept (hdc ▸ hd)
    · exact (hopen d hdc).mpr (h.kept d hd)
  · by_cases hdc : d = c
    · exact hdc ▸ hrest (hdc ▸ hd)
    · rw [hopen d hdc, hother d hdc]
      exact h.rest d hd
  · by_cases hdc : d = c
    · exact hdc ▸ hfreed (hdc ▸ hd)
    · rw [hopen d hdc]
      exact h.free d ((hfree d hd).resolve_left hdc)
  · by_cases hdc : d = c
    · exact hdc ▸ hwaits
    · rw [hopen d hdc, hother d hdc]
      exact h.waits d
  · by_cases hdc : d = c
    · exact hdc ▸ hsent
    · rw [hopen d hdc, hother d hdc]
      exact h.sent d

/-- A step that only changes the links, the ghosts or bits of `ready` other than `GFS_NET_READY` -/
theorem Good.of_net (h : Good kept rest s) (hfd : ∀ d, (s'.net d).fd = (s.net d).fd)
    (hready : ∀ d, (s'.net d).ev.netReady = (s.net d).ev.netReady)
    (hout : ∀ d, (s'.net d).ev.epollout = (s.net d).ev.epollout)
    (hreported : ∀ d, (s'.net d).reported = (s.net d).reported)
    (hremain : ∀ d, (s'.net d).sbuf.remain = (s.net d).sbuf.remain) (hfree : s'.free = s.free) :
    Good kept rest s' := by
  refine ⟨?_, ?_, ?_, hfree ▸ h.nodup, ?_, ?_⟩
  · simpa only [Open, hfd] using h.kept
  · simpa only [Open, hfd, hready] using h.rest
  · simpa only [Open, hfd, hfree] using h.free
  · simpa only [Open, hfd, hout, hready] using h.waits
  · simpa only [Open, hfd, hreported, hready, hremain] using h.sent

theorem nodup_freed {l : List (Fin num)} (h : l.Nodup) (c : Fin num) : (c :: l.erase c).Nodup :=
  List.nodup_cons.mpr ⟨h.not_mem_erase, h.erase c⟩

theorem Good.netClose (h : Good kept rest s) (hkept : c ∉ kept) (hrest : c ∈ rest → (s.net c).ev.netReady) :
    Good kept rest (s.netClose c) := by
  have hclosed : ¬ (s.netClose c).Open c := by simp [Open, Loop.netClose]
  refine h.change (fun d hd => ?_) (fun hc => absurd hc hkept) (fun hc => .inr ?_) (fun d hd => ?_) (fun _ => hclosed)
    (nodup_freed h.nodup c) (fun hopen => absurd hopen hclosed) (fun hopen => absurd hopen hclosed)
  · simp [Loop.netClose, setNet_ne hd]
  · simpa [Loop.netClose] using hrest hc
  · have hd' : d ∈ c :: s.free.erase c := hd
    rw [List.mem_cons] at hd'
    exact hd'.imp_right List.mem_of_mem_erase

/-- `sbuf` with whatever `gfs_net_memcopy` has put into it -/
def withSbuf (c : Fin num) (b : NetBuf) (s : Loop num) : Loop num := s.setNet c { s.net c with sbuf := b }

theorem withSbuf_eq (s : Loop num) (c : Fin num) : s.withSbuf c (s.net c).sbuf = s := by
  rw [withSbuf, setNet, Function.update_eq_self]

theorem withSbuf_self (c : Fin num) (b : NetBuf) (s : Loop num) :
    (s.withSbuf c b).net c = { s.net c with sbuf := b } := setNet_self c _ s

theorem Good.sendAndReact (h : Good kept rest s) (b : NetBuf) (caller : Caller) (results : List SendReturn)
    (hmay : ((s.withSbuf c b).netTcpSend caller c results).1 = .close →
      c ∉ kept ∧ (c ∈ rest → (s.net c).ev.netReady)) :
    Good kept rest ((s.withSbuf c b).sendAndReact caller c results) := by
  have hframe := (sendAndReact_frame caller c results (s.withSbuf c b)).2.1
  have hother : ∀ d, d ≠ c →
      ((s.withSbuf c b).sendAndReact caller c results).net d = s.net d :=
    fun d hd => (hframe d hd).trans (setNet_ne hd _ s)
  cases sendAndReact_reacts caller c results (s.withSbuf c b) with
  | close hrtn hfd hready hfree =>
    have hclosed : ¬ ((s.withSbuf c b).sendAndReact caller c results).Open c :=
      fun hopen => hopen hfd
    refine h.change hother (fun hc => absurd hc (hmay hrtn).1) (fun hc => .inr ?_) (fun d hd => ?_) (fun _ => hclosed)
      (hfree ▸ nodup_freed h.nodup c) (fun hopen => absurd hopen hclosed) (fun hopen => absurd hopen hclosed)
    · rw [hready, withSbuf_self]
      exact (hmay hrtn).2 hc
    · rw [hfree, List.mem_cons] at hd
      exact hd.imp_right List.mem_of_mem_erase
  | again hopen hfd hready hfree =>
    rw [withSbuf_self] at hfd
    have hopen' : s.Open c := by simpa [Open, withSbuf_self] using hopen
    refine h.change hother (fun _ => ?_) (fun _ => .inl ?_) (fun d hd => .inr (hfree ▸ hd)) (fun hc => ?_)
      (hfree ▸ h.nodup) (fun _ _ => hready) (fun _ _ hreadied => ?_)
    · exact hfd.trans_ne hopen'
    · exact hfd.trans_ne hopen'
    · exact absurd hopen' (h.free c (hfree ▸ hc))
    · rw [hready] at hreadied
      cases hreadied
  | ok hfd hready hout hsent hfree =>
    rw [withSbuf_self] at hfd hout
    refine h.change hother (fun hc => ?_) (fun _ => .inr hready) (fun d hd => .inr (hfree ▸ hd)) (fun hc => ?_)
      (hfree ▸ h.nodup) (fun hopen hout' => ?_) (fun _ _ _ => hsent)
    · exact hfd.trans_ne (h.kept c hc)
    · rw [Open, hfd]
      exact h.free c (hfree ▸ hc)
    · have hopen' : s.Open c := by
        rw [Open, ← hfd]
        exact hopen
      have hwaits := h.waits c hopen' (hout hout').1
      rw [(hout hout').2] at hwaits
      cases hwaits

theorem Good.setEv (h : Good kept rest s) {f : Event → Event} (hready : ∀ ev, (f ev).netReady = ev.netReady)
    (hout : ∀ ev, (f ev).epollout = ev.epollout) : Good kept rest (s.setEv c f) := by
  have hnet : ∀ d, (s.setEv c f).net d = if d = c then { s.net c with ev := f (s.net c).ev } else s.net d := by
    intro d
    by_cases hd : d = c
    · simp [Loop.setEv, hd]
    · simp [Loop.setEv, setNet_ne hd, hd]
  refine h.of_net (fun d => ?_) (fun d => ?_) (fun d => ?_) (fun d => ?_) (fun d => ?_) rfl <;>
    rw [hnet] <;> split <;> simp_all

theorem Good.compact (h : Good kept rest s) : Good kept rest (s.compact c) := by
  have hnet : ∀ d, (s.compact c).net d =
      if d = c then { s.net c with sbuf := ⟨(s.net c).sbuf.remain, 0⟩ } else s.net d := by
    intro d
    by_cases hd : d = c
    · simp [Loop.compact, hd, NetBuf.remain]
    · simp [Loop.compact, setNet_ne hd, hd]
  refine h.of_net (fun d => ?_) (fun d => ?_) (fun d => ?_) (fun d => ?_) (fun d => ?_) rfl <;>
    rw [hnet] <;> split <;> simp_all [NetBuf.remain]

/-- What `gfs_handle_tcp_send` keeps, when `c->handle(c)` keeps it. -/
theorem Good.handleTcpSend (h : Good kept rest s) (b : NetBuf) (caller : Caller) (results : List SendReturn)
    {may : Loop num → Fin num → Prop} {handle : Loop num → Loop num} {safe : Loop num → Prop}
    (hmay : ∀ t d, t.links = s.links → may t d → d ∉ kept ∧ (d ∈ rest → (t.net d).ev.netReady))
    (hhandle : ∀ t, Good kept rest t → t.links = s.links → safe t →
      Good kept rest (handle t) ∧ (handle t).links = s.links)
    (hsafe : (s.withSbuf c b).SafeSend may safe caller c results) :
    Good kept rest ((s.withSbuf c b).handleTcpSend handle caller c results) ∧
      ((s.withSbuf c b).handleTcpSend handle caller c results).links = s.links := by
  have hlinks := (sendAndReact_frame caller c results (s.withSbuf c b)).1
  have hgood := h.sendAndReact b caller results fun hrtn => by
    have hallowed := hmay (s.withSbuf c b) c rfl (hsafe.1 hrtn)
    rwa [withSbuf_self] at hallowed
  rw [Loop.handleTcpSend]
  by_cases hwrite : (((s.withSbuf c b).sendAndReact caller c results).net c).ev.write
  · simp only [hwrite, if_true]
    have hhandled := hhandle (((s.withSbuf c b).sendAndReact caller c results).setEv c fun ev => { ev with write := false })
      (hgood.setEv (fun _ => rfl) (fun _ => rfl)) hlinks (hsafe.2 hwrite)
    exact ⟨hhandled.1.compact, hhandled.2⟩
  · simp only [hwrite]
    exact ⟨hgood.compact, hlinks⟩

end Loop

mutual

theorem Send.good {kept rest : List (Fin num)} {may : Loop num → Fin num → Prop} {L : Links (Ptr num)}
    (hmay : ∀ t d, t.links = L → may t d → d ∉ kept ∧ (d ∈ rest → (t.net d).ev.netReady)) :
    ∀ (send : Send num) (s : Loop num), Good kept rest s → s.links = L → send.Safe may s →
      Good kept rest (send.run s) ∧ (send.run s).links = L
  | .mk c bytes results sends, s, h, hlinks, hsafe => by
    subst hlinks
    exact h.handleTcpSend _ .busi results hmay (fun t ht hl hs => good_busiSends hmay sends t ht hl hs) hsafe

theorem good_busiSends {kept rest : List (Fin num)} {may : Loop num → Fin num → Prop} {L : Links (Ptr num)}
    (hmay : ∀ t d, t.links = L → may t d → d ∉ kept ∧ (d ∈ rest → (t.net d).ev.netReady)) :
    ∀ (sends : List (Send num)) (s : Loop num), Good kept rest s → s.links = L → SafeSends may sends s →
      Good kept rest (busiSends sends s) ∧ (busiSends sends s).links = L
  | [], s, h, hlinks, _ => ⟨h, hlinks⟩
  | send :: sends, s, h, hlinks, hsafe => by
    have hsend := Send.good hmay send s h hlinks hsafe.1
    exact good_busiSends hmay sends _ hsend.1 hsend.2 hsafe.2

end

namespace Loop

variable {kept rest l : List (Fin num)} {s s' : Loop num} {c : Fin num}

/-! ## The list -/

theorem filterMap_qnode (l : List (Fin num)) : (l.map Ptr.qnode).filterMap Ptr.node? = l := by
  rw [List.filterMap_map]
  exact List.filterMap_some

theorem length_le_num {L : Links (Ptr num)} (hring : Holds L .delay (l.map .qnode)) : l.length ≤ num := by
  have hnodup : l.Nodup := ((List.nodup_cons.mp hring.nodup).2).of_map _
  simpa using hnodup.length_le_card

theorem eventsFrom_eq (hring : Holds s.links .delay ((kept ++ rest).map .qnode)) {q : Ptr num}
    (hq : (rest.map Ptr.qnode ++ [Ptr.delay]).head? = some q) : s.eventsFrom q = rest := by
  have hlength := length_le_num hring
  rw [List.length_append] at hlength
  rw [List.map_append] at hring
  rw [eventsFrom, hring.walk_from (by rw [List.length_map]; omega) hq, filterMap_qnode]

theorem queue_eq (hring : Holds s.links .delay (l.map .qnode)) : s.queue = l :=
  eventsFrom_eq (show Holds s.links .delay (([] ++ l).map .qnode) from hring) hring.head_eq

theorem next_qnode (hring : Holds s.links .delay ((kept ++ c :: rest).map .qnode)) :
    (rest.map Ptr.qnode ++ [Ptr.delay]).head? = some (s.links.next (.qnode c)) := by
  rw [List.map_append, List.map_cons] at hring
  exact hring.next_eq

theorem ahead_eq (hring : Holds s.links .delay ((kept ++ c :: rest).map .qnode)) : s.ahead c = rest :=
  eventsFrom_eq (show Holds s.links .delay ((kept ++ [c] ++ rest).map .qnode) by rwa [← List.append_cons])
    (next_qnode hring)

theorem ne_null {l : List (Ptr num)} {q : Ptr num} (hq : q ∈ Ptr.delay :: l) (hl : ∀ p ∈ l, ∃ c, Ptr.qnode c = p) :
    q ≠ .null := by
  rintro rfl
  cases List.mem_cons.mp hq with
  | inl heq => cases heq
  | inr hin =>
    obtain ⟨c, hc⟩ := hl _ hin
    cases hc

theorem queueRemove_eq (hring : Holds s.links .delay ((kept ++ c :: rest).map .qnode)) :
    s.queueRemove c = some { s with links := s.links.remove (.qnode c) } := by
  rw [List.map_append, List.map_cons] at hring
  have hmap : ∀ l : List (Fin num), ∀ p ∈ l.map Ptr.qnode, ∃ c, Ptr.qnode c = p := fun l p hp => by
    obtain ⟨c, -, hc⟩ := List.mem_map.mp hp
    exact ⟨c, hc⟩
  exact if_neg (not_or.mpr ⟨ne_null hring.next_mem (hmap rest), ne_null hring.prev_mem (hmap kept)⟩)

theorem queueInsertTail_eq (hring : Holds s.links .delay (l.map .qnode)) :
    s.queueInsertTail c = some { s with links := s.links.insertTail .delay (.qnode c) } := by
  refine if_neg (ne_null hring.last_mem fun p hp => ?_)
  obtain ⟨c, -, hc⟩ := List.mem_map.mp hp
  exact ⟨c, hc⟩

/-! ## The delay run -/

theorem mayCloseAhead (hring : Holds s.links .delay ((kept ++ c :: rest).map .qnode)) (t : Loop num) (d : Fin num)
    (hlinks : t.links = s.links) (hmay : t.MayCloseAhead c d) :
    d ∉ kept ++ [c] ∧ (d ∈ rest → (t.net d).ev.netReady) := by
  rw [← hlinks] at hring
  have hnodup : (kept ++ c :: rest).Nodup := ((List.nodup_cons.mp hring.nodup).2).of_map _
  rw [List.append_cons, List.nodup_append] at hnodup
  rw [MayCloseAhead, queue_eq hring, ahead_eq hring, List.append_cons, List.mem_append] at hmay
  cases hmay with
  | inl hnone => exact ⟨fun hd => hnone (.inl hd), fun hd => absurd (.inr hd) hnone⟩
  | inr hahead => exact ⟨fun hd => hnodup.2.2 d hd d hahead.1 rfl, fun _ => hahead.2⟩

theorem mayCloseAt (hring : Holds s.links .delay ((kept ++ c :: rest).map .qnode)) (t : Loop num) (d : Fin num)
    (hlinks : t.links = s.links) (hmay : t.MayCloseAt c d) : d ∉ kept ∧ (d ∈ rest → (t.net d).ev.netReady) := by
  cases hmay with
  | inl heq =>
    have hnodup : (kept ++ c :: rest).Nodup := ((List.nodup_cons.mp hring.nodup).2).of_map _
    rw [List.nodup_append, List.nodup_cons] at hnodup
    subst heq
    exact ⟨fun hd => hnodup.2.2 d hd d (List.mem_cons_self) rfl, fun hd => absurd hd hnodup.2.1.1⟩
  | inr hahead =>
    have hpart := mayCloseAhead hring t d hlinks hahead
    exact ⟨fun hd => hpart.1 (List.mem_append_left [c] hd), hpart.2⟩

/-- What a turn leaves: the event is removed, or stays in the queue of an open connection; the pointer to the next
event is still there. -/
structure Visited (kept rest : List (Fin num)) (c : Fin num) (s s' : Loop num) : Prop where
  next : s'.links.next (.qnode c) = s.links.next (.qnode c)
  stays : ∃ kept', Holds s'.links .delay ((kept' ++ rest).map .qnode) ∧ Good kept' rest s'

theorem visited_removed (hring : Holds s.links .delay ((kept ++ c :: rest).map .qnode)) (hgood : Good kept rest s')
    (hlinks : s'.links = s.links) : ∃ t, s'.queueRemove c = some t ∧ Visited kept rest c s t := by
  rw [← hlinks] at hring
  refine ⟨_, queueRemove_eq hring, ?_, kept, ?_, ?_⟩
  · rw [List.map_append, List.map_cons] at hring
    rw [← hlinks]
    exact remove_next_self _ _ hring.next_ne
  · rw [List.map_append, List.map_cons] at hring
    rw [List.map_append]
    exact hring.remove
  · exact hgood.of_net (fun _ => rfl) (fun _ => rfl) (fun _ => rfl) (fun _ => rfl) (fun _ => rfl) rfl

theorem visited_kept (hring : Holds s.links .delay ((kept ++ c :: rest).map .qnode))
    (hgood : Good (kept ++ [c]) rest s') (hlinks : s'.links = s.links) : Visited kept rest c s s' := by
  refine ⟨by rw [hlinks], kept ++ [c], ?_, hgood⟩
  rwa [hlinks, ← List.append_cons]

theorem Good.visitWrite {v : Visit num} (h : Good kept rest s)
    (hring : Holds s.links .delay ((kept ++ c :: rest).map .qnode))
    (hsafe : (s.net c).ev.write → s.SafeSend (MayCloseAt c) (SafeSends (MayCloseAt c) v.afterSend) .delayRun c v.results) :
    Good kept rest (s.visitWrite c v) ∧ (s.visitWrite c v).links = s.links := by
  rw [Loop.visitWrite]
  by_cases hwrite : (s.net c).ev.write
  · rw [if_pos hwrite]
    have hsent := h.handleTcpSend (c := c) (s.net c).sbuf .delayRun v.results (mayCloseAt hring)
      (fun t ht hl hs => good_busiSends (mayCloseAt hring) v.afterSend t ht hl hs)
    rw [withSbuf_eq] at hsent
    exact hsent (hsafe hwrite)
  · rw [if_neg hwrite]
    exact ⟨h, rfl⟩

theorem Good.keep (h : Good kept rest s) (hopen : s.Open c) : Good (kept ++ [c]) rest s := by
  refine { h with kept := fun d hd => ?_ }
  cases List.mem_append.mp hd with
  | inl hin => exact h.kept d hin
  | inr heq => exact List.mem_singleton.mp heq ▸ hopen

theorem visit_visited {v : Visit num} (h : Good kept (c :: rest) s)
    (hring : Holds s.links .delay ((kept ++ c :: rest).map .qnode)) (hsafe : s.SafeVisit c v) :
    ∃ s', s.visit c v = some s' ∧ Visited kept rest c s s' := by
  have hkept : Good kept rest s := { h with rest := fun d hd => h.rest d (List.mem_cons_of_mem c hd) }
  rw [visit]
  by_cases hready : (s.net c).ev.netReady
  · obtain ⟨hsafeWrite, hsafeRead⟩ := hsafe hready
    obtain ⟨hwrite, hlinks⟩ := hkept.visitWrite hring hsafeWrite
    have hclose : Good kept rest ((s.visitWrite c v).netClose c) :=
      hwrite.netClose (mayCloseAt hring s c rfl (.inl rfl)).1 fun hc =>
        (mayCloseAt hring (s.visitWrite c v) c hlinks (.inl rfl)).2 hc
    simp only [hready, if_true]
    by_cases hread : ((s.visitWrite c v).net c).ev.read
    · simp only [hread, if_true]
      by_cases hopen : (s.visitWrite c v).Open c
      · obtain ⟨hagain, hfull⟩ := hsafeRead hread hopen
        simp only [handleTcpRecv, if_pos hopen]
        cases hrecv : v.recv with
        | close => exact visited_removed hring hclose hlinks
        | again =>
          have hsends := good_busiSends (mayCloseAt hring) v.afterRecv _ hwrite hlinks (hagain hrecv)
          exact visited_removed hring (hsends.1.setEv (fun _ => rfl) (fun _ => rfl)) hsends.2
        | outOfMemory =>
          have hsends := good_busiSends (mayCloseAhead hring) v.afterRecv _ (hwrite.keep hopen) hlinks (hfull hrecv)
          exact ⟨_, rfl, visited_kept hring hsends.1 hsends.2⟩
      · simp only [handleTcpRecv, if_neg hopen]
        exact visited_removed hring hclose hlinks
    · simp only [hread]
      exact visited_removed hring hwrite hlinks
  · simp only [hready]
    have hopen : s.Open c := (h.rest c List.mem_cons_self).resolve_right hready
    exact ⟨s, rfl, visited_kept hring (hkept.keep hopen) rfl⟩

/-- By induction on the events still to be visited: the loop ends, at the sentinel. -/
theorem delayLoop_good (visits : ℕ → Visit num) {fuel i : ℕ} {q : Ptr num} (h : Good kept rest s)
    (hring : Holds s.links .delay ((kept ++ rest).map .qnode)) (hfuel : rest.length ≤ fuel)
    (hq : (rest.map Ptr.qnode ++ [Ptr.delay]).head? = some q) (hsafe : SafeLoop visits fuel i q s) :
    ∃ s', delayLoop visits fuel i q s = some s' ∧
      ∃ l : List (Fin num), Holds s'.links .delay (l.map .qnode) ∧ Good l [] s' := by
  induction rest generalizing kept fuel i q s with
  | nil =>
    obtain rfl : Ptr.delay = q := by simpa using hq
    rw [List.append_nil] at hring
    exact ⟨s, by rw [delayLoop], kept, hring, h⟩
  | cons c rest ih =>
    obtain rfl : Ptr.qnode c = q := by simpa using hq
    obtain ⟨fuel, rfl⟩ : ∃ k, fuel = k + 1 := ⟨fuel - 1, by rw [List.length_cons] at hfuel; omega⟩
    rw [SafeLoop] at hsafe
    obtain ⟨s₁, hvisit, hnext, kept', hring', hgood⟩ := visit_visited h hring hsafe.1
    have hpointer : (rest.map Ptr.qnode ++ [Ptr.delay]).head? = some (s₁.links.next (.qnode c)) := by
      rw [hnext]
      exact next_qnode hring
    obtain ⟨s', hloop, hdone⟩ := ih hgood hring' (by simpa using hfuel) hpointer (hsafe.2 s₁ hvisit)
    refine ⟨s', ?_, hdone⟩
    rw [delayLoop, hvisit, Option.bind_some, hloop]

/-! ## Runs -/

/-- The invariant between two actions -/
def Inv (s : Loop num) : Prop := ∃ l : List (Fin num), Holds s.links .delay (l.map .qnode) ∧ Good l [] s

theorem Inv.queued (h : s.Inv) : s.Queued := by
  obtain ⟨l, hring, hgood⟩ := h
  exact ⟨l, hring, hgood.kept⟩

theorem inv_init (sbuf : Fin num → NetBuf) : (init sbuf).Inv := by
  refine ⟨[], Holds.init _ _, ⟨?_, ?_, ?_, List.nodup_finRange num, ?_, ?_⟩⟩ <;> simp [init, Open]

theorem Inv.mayClose {l : List (Fin num)} (hring : Holds s.links .delay (l.map .qnode)) (t : Loop num) (d : Fin num)
    (hlinks : t.links = s.links) (hmay : t.MayClose d) : d ∉ l ∧ (d ∈ [] → (t.net d).ev.netReady) := by
  rw [MayClose, queue_eq (hlinks ▸ hring)] at hmay
  exact ⟨hmay, fun hd => absurd hd List.not_mem_nil⟩

theorem Inv.netClose (h : s.Inv) (hmay : s.MayClose c) : (s.netClose c).Inv := by
  obtain ⟨l, hring, hgood⟩ := h
  have hclosed := Inv.mayClose hring s c rfl hmay
  exact ⟨l, hring, hgood.netClose hclosed.1 hclosed.2⟩

theorem Inv.notices (h : s.Inv) {sends : List (Send num)} (hsafe : SafeSends MayClose sends s) :
    (busiSends sends s).Inv := by
  obtain ⟨l, hring, hgood⟩ := h
  have hsends := good_busiSends (Inv.mayClose hring) sends s hgood rfl hsafe
  exact ⟨l, hsends.2 ▸ hring, hsends.1⟩

theorem Inv.delayRun (h : s.Inv) {visits : ℕ → Visit num}
    (hsafe : SafeLoop visits num 0 (s.links.next .delay) { s with attempts := [] }) :
    ∃ s', s.delayRun visits = some s' ∧ s'.Inv := by
  obtain ⟨l, hring, hgood⟩ := h
  have hrest : Good [] l { s with attempts := [] } :=
    { kept := fun d hd => absurd hd List.not_mem_nil, rest := fun d hd => .inl (hgood.kept d hd),
      free := hgood.free, nodup := hgood.nodup, waits := hgood.waits, sent := hgood.sent }
  exact delayLoop_good visits hrest hring (length_le_num hring) hring.head_eq hsafe

theorem Inv.accept (h : s.Inv) (fd : ℤ) : (s.nodeGet fd).Inv := by
  obtain ⟨l, hring, hgood⟩ := h
  rw [nodeGet]
  cases hfree : s.free with
  | nil => exact ⟨l, hring, hgood⟩
  | cons c free =>
    have hclosed : ¬ s.Open c := hgood.free c (hfree ▸ List.mem_cons_self)
    have hnodup : (c :: free).Nodup := hfree ▸ hgood.nodup
    have hc : c ∉ l := fun hin => hclosed (hgood.kept c hin)
    have hqnode : ∀ q ∈ Ptr.delay :: l.map Ptr.qnode, q ≠ Ptr.qnode c := by
      rintro q hq rfl
      simp [hc] at hq
    refine ⟨l, hring.congr (fun q hq => ?_) (fun q hq => ?_), hgood.change (c := c) (fun d hd => ?_) (fun hin => absurd hin hc)
      (fun hin => absurd hin List.not_mem_nil) (fun d hd => ?_) (fun hin => absurd hin (List.nodup_cons.mp hnodup).1)
      (List.nodup_cons.mp hnodup).2 (fun _ hout => ?_) (fun _ hreported => ?_)⟩
    · exact Function.update_of_ne (hqnode q hq) _ _
    · exact Function.update_of_ne (hqnode q hq) _ _
    · simp [eventAdd, setEv, setNet_ne hd]
    · exact .inr (hfree ▸ List.mem_cons_of_mem c hd)
    · simp [eventAdd, setEv] at hout
    · simp [eventAdd, setEv] at hreported

theorem Inv.report (h : s.Inv) {epollin epollout : Bool} (hopen : s.Open c)
    (hout : epollout → (s.net c).ev.epollout) (hsafe : c ∈ s.queue → (s.net c).ev.read) :
    ∃ s', s.report c epollin epollout = some s' ∧ s'.Inv := by
  obtain ⟨l, hring, hgood⟩ := h
  have hgood' : ∀ (l' : List (Fin num)) (L : Links (Ptr num)), (∀ d ∈ l', s.Open d) →
      Good l' [] ({ s with links := L }.setNet c { s.net c with
        ev := { (s.net c).ev with read := (s.net c).ev.read || epollin, write := (s.net c).ev.write || epollout }
        reported := (s.net c).reported || epollout }) := by
    intro l' L hl'
    have hkept : Good l' [] s := { hgood with kept := hl' }
    refine hkept.change (c := c) (fun d hd => setNet_ne hd _ _) (fun _ => ?_) (fun hin => absurd hin List.not_mem_nil)
      (fun d hd => .inr hd) (fun hin => absurd hopen (hgood.free c hin)) hgood.nodup (fun _ hasked => ?_)
      (fun _ hreported hready => ?_)
    · simpa [Open] using hopen
    · simpa using hgood.waits c hopen (by simpa using hasked)
    · have hready' : (s.net c).ev.netReady := by simpa using hready
      have hnot : epollout = false := by
        by_contra hepollout
        have hwaits := hgood.waits c hopen (hout (by simpa using hepollout))
        simp [hready'] at hwaits
      simpa using hgood.sent c hopen (by simpa [hnot] using hreported) hready'
  rw [Loop.report]
  by_cases hread : (s.net c).ev.read
  · rw [if_pos hread]
    exact ⟨_, rfl, l, hring, hgood' l s.links hgood.kept⟩
  · have hc : c ∉ l := by
      rw [queue_eq hring] at hsafe
      exact fun hin => hread (hsafe hin)
    rw [if_neg hread, queueInsertTail_eq hring]
    refine ⟨_, rfl, l ++ [c], ?_, hgood' (l ++ [c]) _ (hgood.keep hopen).kept⟩
    rw [List.map_append]
    exact hring.insertTail (by simp [hc])

theorem step_inv (h : s.Inv) {a : Action num} (henabled : s.Enabled a) (hsafe : s.Safe a) :
    ∃ s', s.step a = some s' ∧ s'.Inv := by
  cases a with
  | timeout c => exact ⟨_, rfl, h.netClose hsafe⟩
  | hangup c => exact ⟨_, rfl, h.netClose hsafe⟩
  | notices sends => exact ⟨_, rfl, h.notices hsafe⟩
  | delayRun visits => exact h.delayRun hsafe
  | report c epollin epollout => exact h.report henabled.1 henabled.2.2 hsafe
  | accept fd => exact ⟨_, rfl, h.accept fd⟩

/-! ## What the delay run passes over -/

/-- Nothing of `c` was sent in this delay run as it waits; or the business code has sent to it. -/
def PassedOver (c : Fin num) (s : Loop num) : Prop :=
  (s.net c).ev.netReady = false ∧ 0 < (s.net c).sbuf.remain ∧ (∀ caller, (caller, c) ∉ s.attempts) ∨
    (.busi, c) ∈ s.attempts

variable {d : Fin num}

theorem PassedOver.of_net (h : PassedOver c s) (hattempts : s'.attempts = s.attempts)
    (hnet : (.busi, c) ∉ s.attempts → (s'.net c).ev.netReady = (s.net c).ev.netReady ∧
      (s'.net c).sbuf.remain = (s.net c).sbuf.remain) : PassedOver c s' := by
  by_cases hbusi : (.busi, c) ∈ s.attempts
  · exact .inr (hattempts ▸ hbusi)
  · obtain ⟨hready, hremain, hnone⟩ := h.resolve_right hbusi
    refine .inl ⟨(hnet hbusi).1.trans hready, ?_, fun caller => hattempts ▸ hnone caller⟩
    rw [(hnet hbusi).2]
    exact hremain

theorem PassedOver.setEv (h : PassedOver c s) {f : Event → Event} (hready : ∀ ev, (f ev).netReady = ev.netReady) :
    PassedOver c (s.setEv d f) := by
  refine h.of_net rfl fun _ => ?_
  by_cases hd : c = d
  · subst hd
    simp [Loop.setEv, hready]
  · simp [Loop.setEv, setNet_ne hd]

theorem PassedOver.compact (h : PassedOver c s) : PassedOver c (s.compact d) := by
  refine h.of_net rfl fun _ => ?_
  by_cases hd : c = d
  · subst hd
    simp [Loop.compact, NetBuf.remain]
  · simp [Loop.compact, setNet_ne hd]

/-- A send to another connection leaves `c` alone; one to `c` itself comes from the business code, or after such
a one. -/
theorem PassedOver.sendAndReact (h : PassedOver c s) (b : NetBuf) {caller : Caller} (results : List SendReturn)
    (hcall : d = c → (.busi, c) ∈ s.attempts ∨ caller = .busi ∧ (s.net c).sbuf.remain ≤ b.remain) :
    PassedOver c ((s.withSbuf d b).sendAndReact caller d results) := by
  obtain ⟨-, hother, hattempts⟩ := sendAndReact_frame caller d results (s.withSbuf d b)
  have hmono : (.busi, c) ∈ s.attempts →
      (.busi, c) ∈ ((s.withSbuf d b).sendAndReact caller d results).attempts := by
    intro hin
    rw [hattempts]
    split
    · exact hin
    · exact List.mem_append_left _ hin
  by_cases hbusi : (.busi, c) ∈ s.attempts
  · exact .inr (hmono hbusi)
  · obtain ⟨hready, hremain, hnone⟩ := h.resolve_right hbusi
    by_cases hd : d = c
    · subst hd
      obtain ⟨rfl, hle⟩ := (hcall rfl).resolve_left hbusi
      right
      rw [hattempts, withSbuf_self, if_neg (by dsimp only; omega)]
      exact List.mem_append_right _ List.mem_cons_self
    · have hnet : ((s.withSbuf d b).sendAndReact caller d results).net c = s.net c :=
        (hother c (Ne.symm hd)).trans (setNet_ne (Ne.symm hd) _ s)
      rw [PassedOver, hnet]
      refine .inl ⟨hready, hremain, fun caller' => ?_⟩
      rw [hattempts]
      split
      · exact hnone caller'
      · simp only [List.mem_append, List.mem_singleton, Prod.mk.injEq, not_or, not_and]
        exact ⟨hnone caller', fun _ => Ne.symm hd⟩

/-- What a send of the business code keeps, with the parts of `gfs_handle_tcp_send` behind it. -/
structure Kept (P : Loop num → Prop) : Prop where
  write : ∀ s d, P s → P (s.setEv d fun ev => { ev with write := false })
  compact : ∀ s d, P s → P (s.compact d)
  send : ∀ s d bytes results, P s → P ((s.memcopy d bytes).sendAndReact .busi d results)

theorem Kept.handleTcpSend {P : Loop num → Prop} (hP : Kept P) {handle : Loop num → Loop num}
    (hhandle : ∀ t, P t → P (handle t)) {caller : Caller} {results : List SendReturn}
    (hsent : P (s.sendAndReact caller d results)) : P (s.handleTcpSend handle caller d results) := by
  rw [Loop.handleTcpSend]
  by_cases hwriting : ((s.sendAndReact caller d results).net d).ev.write
  · simp only [hwriting, if_true]
    exact hP.compact _ d (hhandle _ (hP.write _ d hsent))
  · simp only [hwriting]
    exact hP.compact _ d hsent

end Loop

mutual

theorem Send.keeps {P : Loop num → Prop} (hP : Kept P) : ∀ (send : Send num) (s : Loop num), P s → P (send.run s)
  | .mk d bytes results sends, s, h =>
    hP.handleTcpSend (fun t ht => busiSends_keeps hP sends t ht) (hP.send s d bytes results h)

theorem busiSends_keeps {P : Loop num → Prop} (hP : Kept P) :
    ∀ (sends : List (Send num)) (s : Loop num), P s → P (busiSends sends s)
  | [], _, h => h
  | send :: sends, s, h => busiSends_keeps hP sends _ (Send.keeps hP send s h)

end

namespace Loop

variable {s s' : Loop num} {c d : Fin num}

theorem kept_passedOver (c : Fin num) : Kept (PassedOver c) := by
  refine ⟨fun s d h => h.setEv fun _ => rfl, fun s d h => h.compact, fun s d bytes results h => ?_⟩
  refine h.sendAndReact _ results fun hd => .inr ⟨rfl, ?_⟩
  subst hd
  simp only [NetBuf.remain]
  omega

theorem mem_sendAndReact {x : Caller × Fin num} (hx : x ∈ s.attempts) (caller : Caller) (d : Fin num)
    (results : List SendReturn) : x ∈ (s.sendAndReact caller d results).attempts := by
  rw [(sendAndReact_frame caller d results s).2.2]
  split
  · exact hx
  · exact List.mem_append_left _ hx

theorem kept_mem (x : Caller × Fin num) : Kept fun s => x ∈ s.attempts :=
  ⟨fun _ _ h => h, fun _ _ h => h, fun s d bytes results h =>
    mem_sendAndReact (s := s.memcopy d bytes) h .busi d results⟩

theorem PassedOver.netClose (h : PassedOver c s) (hbusi : d = c → (.busi, c) ∈ s.attempts) :
    PassedOver c (s.netClose d) := by
  refine h.of_net rfl fun hnone => ?_
  have hd : c ≠ d := fun heq => hnone (hbusi heq.symm)
  simp [Loop.netClose, setNet_ne hd]

theorem PassedOver.queueRemove (h : PassedOver c s) (hremove : s.queueRemove d = some s') : PassedOver c s' := by
  rw [Loop.queueRemove] at hremove
  split at hremove
  · cases hremove
  · cases hremove
    exact h

theorem PassedOver.visitWrite (v : Visit num) (h : PassedOver c s) (hbusi : d = c → (.busi, c) ∈ s.attempts) :
    PassedOver c (s.visitWrite d v) ∧ (d = c → (.busi, c) ∈ (s.visitWrite d v).attempts) := by
  rw [Loop.visitWrite]
  split
  · have hsent : PassedOver c ((s.withSbuf d (s.net d).sbuf).sendAndReact .delayRun d v.results) :=
      h.sendAndReact (s.net d).sbuf v.results fun hd => .inl (hbusi hd)
    rw [withSbuf_eq] at hsent
    refine ⟨(kept_passedOver c).handleTcpSend (busiSends_keeps (kept_passedOver c) v.afterSend) hsent, fun hd => ?_⟩
    exact (kept_mem (.busi, c)).handleTcpSend (busiSends_keeps (kept_mem (.busi, c)) v.afterSend)
      (mem_sendAndReact (hbusi hd) .delayRun d v.results)
  · exact ⟨h, hbusi⟩

theorem PassedOver.visit (v : Visit num) (h : PassedOver c s) (hvisit : s.visit d v = some s') : PassedOver c s' := by
  rw [Loop.visit] at hvisit
  by_cases hready : (s.net d).ev.netReady
  · have hbusi : d = c → (.busi, c) ∈ s.attempts := by
      rintro rfl
      refine h.resolve_left fun hwaits => ?_
      rw [hwaits.1] at hready
      cases hready
    obtain ⟨hwrite, hbusi'⟩ := h.visitWrite v hbusi
    simp only [hready, if_true] at hvisit
    by_cases hread : ((s.visitWrite d v).net d).ev.read
    · simp only [hread, if_true, handleTcpRecv] at hvisit
      have hsends := busiSends_keeps (kept_passedOver c) v.afterRecv _ hwrite
      cases hrtn : (if (s.visitWrite d v).Open d then v.recv else .close) with
      | close =>
        simp only [hrtn, if_true] at hvisit
        exact (hwrite.netClose hbusi').queueRemove hvisit
      | again =>
        simp only [hrtn] at hvisit
        refine PassedOver.queueRemove (hsends.setEv ?_) hvisit
        exact fun _ => rfl
      | outOfMemory =>
        simp only [hrtn] at hvisit
        cases hvisit
        exact hsends
    · simp only [hread] at hvisit
      exact hwrite.queueRemove hvisit
  · simp only [hready] at hvisit
    cases hvisit
    exact h

theorem PassedOver.delayLoop (visits : ℕ → Visit num) {fuel i : ℕ} {q : Ptr num} (h : PassedOver c s)
    (hloop : delayLoop visits fuel i q s = some s') : PassedOver c s' := by
  induction fuel generalizing i q s with
  | zero =>
    cases q with
    | null => cases hloop
    | delay => cases hloop; exact h
    | qnode d => cases hloop
  | succ fuel ih =>
    cases q with
    | null => cases hloop
    | delay => cases hloop; exact h
    | qnode d =>
      rw [Loop.delayLoop] at hloop
      obtain ⟨s₁, hvisit, hrest⟩ := Option.bind_eq_some_iff.mp hloop
      exact ih (h.visit (visits i) hvisit) hrest

/-- The bytes that `EPOLLOUT` was reported for are sent in the next delay run only if the business code happens to send
to the same connection in it. -/
theorem attempted_iff (hinv : s.Inv) {visits : ℕ → Visit num} (hrun : s.delayRun visits = some s') (howed : s.Owed c) :
    s'.Attempted c ↔ (.busi, c) ∈ s'.attempts := by
  obtain ⟨l, -, hgood⟩ := hinv
  obtain ⟨hopen, hremain, hreported⟩ := howed
  have hready : (s.net c).ev.netReady = false := by
    by_contra hready
    have hsent := hgood.sent c hopen hreported (by simpa using hready)
    omega
  have hstart : PassedOver c { s with attempts := [] } := .inl ⟨hready, hremain, fun _ => List.not_mem_nil⟩
  refine ⟨fun ⟨caller, hin⟩ => ?_, fun hin => ⟨.busi, hin⟩⟩
  exact (hstart.delayLoop visits hrun).resolve_left fun hnone => hnone.2.2 caller hin

/-! ## Every run -/

theorem delay_queue_kept (sbuf : Fin num → NetBuf) (as : List (Action num))
    (hallowed : allAllowedM step (fun s a => s.Enabled a ∧ s.Safe a) (init sbuf) as) :
    ∃ s, as.foldlM step (init sbuf) = some s ∧ s.Queued ∧
      ∀ visits, s.Safe (.delayRun visits) → ∃ s', s.step (.delayRun visits) = some s' ∧
        ∀ c, s.Owed c → (s'.Attempted c ↔ (.busi, c) ∈ s'.attempts) := by
  obtain ⟨s, hrun, hinv⟩ := run_invariantM (fun s a h ha => step_inv h ha.1 ha.2) hallowed (inv_init sbuf)
  refine ⟨s, hrun, hinv.queued, fun visits hsafe => ?_⟩
  obtain ⟨s', hnext, -⟩ := hinv.delayRun hsafe
  exact ⟨s', hnext, fun c howed => attempted_iff hinv hnext howed⟩

/-- A request arrives, and its answer hits `EAGAIN`; then `EPOLLOUT` is reported. -/
def waiting : List (Action 1) :=
  [.accept 5, .report 0 true false, .delayRun fun _ => { afterRecv := [.mk 0 100 [.eagain] []] }, .report 0 false true]

theorem delay_queue_kept_waiting : ∃ s, waiting.foldlM step (init fun _ => ⟨0, 0⟩) = some s ∧ s.Queued ∧
    ∀ visits, s.Safe (.delayRun visits) → ∃ s', s.step (.delayRun visits) = some s' ∧
      ∀ c, s.Owed c → (s'.Attempted c ↔ (.busi, c) ∈ s'.attempts) := by
  exact delay_queue_kept (fun _ => ⟨0, 0⟩) waiting (by decide)

def initial : Loop 1 := init fun _ => ⟨0, 0⟩

/-- What follows on `waiting` -/
def afterWaiting (as : List (Action 1)) : Option (Loop 1) := (waiting ++ as).foldlM step initial

theorem Queued.prev_next (h : s.Queued) : s.links.prev (s.links.next .delay) = .delay := by
  obtain ⟨l, hring, -⟩ := h
  exact hring.prev_next

theorem Queued.open_of_mem (h : s.Queued) (hc : c ∈ s.queue) : s.Open c := by
  obtain ⟨l, hring, hopen⟩ := h
  rw [queue_eq hring] at hc
  exact hopen c hc

/-- After `waiting` the delay run passes over the connection; a second `EPOLLOUT` inserts its event twice; an error
report leaves the closed connection in the queue, and when its node is taken again the delay run follows a `NULL`
pointer. -/
theorem delay_queue_not_kept :
    allAllowedM step Enabled initial (waiting ++ [.report 0 false true]) ∧
    allAllowedM step Enabled initial (waiting ++ [.hangup 0, .accept 6, .delayRun fun _ => {}]) ∧
    (∃ s ∈ afterWaiting [], s.Owed 0 ∧ ∃ s' ∈ s.step (.delayRun fun _ => {}), ¬ s'.Attempted 0) ∧
    (∃ s ∈ afterWaiting [.report 0 false true], ¬ s.Queued) ∧
    (∃ s ∈ afterWaiting [.hangup 0], ¬ s.Queued) ∧
    afterWaiting [.hangup 0, .accept 6, .delayRun fun _ => {}] = none := by
  refine ⟨by decide, by decide, ⟨_, rfl, by decide, _, rfl, ?_⟩, ⟨_, rfl, fun h => ?_⟩, ⟨_, rfl, fun h => ?_⟩, rfl⟩
  · rintro ⟨caller, hin⟩
    revert hin
    cases caller <;> decide
  · exact absurd h.prev_next (by decide)
  · exact absurd (h.open_of_mem (c := 0) (by decide)) (by decide)

end Loop

end Tefs.NameServer.EventLoop
