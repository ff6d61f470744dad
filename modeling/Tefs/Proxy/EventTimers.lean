import Mathlib.Algebra.Order.Group.Unbundled.Int
import Mathlib.Data.Int.Notation
import Mathlib.Data.List.Nodup
import Mathlib.Data.List.Perm.Subperm
import Tefs.Lib.RedBlack
import Tefs.Lib.Runs

/-! # The timers of the proxy

Source: `gvfsproxy/src/event/gvfs_event_timer.c` with the tree of `core/gvfs_rbtree.c`, and the part of
`gvfs_process_events_and_timers` of `event/gvfs_event.c` that reads the clock and looks at the timers.

An event is known by its address. A key is a machine word that wraps around, so the tree compares keys by the sign of
their difference. A timer that is asked for again keeps its old key when the two are less than 300 ms apart.
-/

namespace Tefs.Proxy.EventTimers
open RedBlack Runs
set_option autoImplicit false

/-! ## The functions -/

/-- What the timers use of a `gvfs_event_t` -/
structure Event (w : ℕ) where
  key : BitVec w
  timerSet : Bool
  timedout : Bool
  deriving DecidableEq, Repr

/-- The events by their addresses, `gvfs_event_timer_rbtree` and `gvfs_current_msec` -/
structure Timers (w : ℕ) where
  event : ℕ → Event w
  tree : RedBlack.Tree (BitVec w × ℕ)
  currentMsec : BitVec w

def lazyDelay : ℤ := 300

variable {w : ℕ}

/-- The way of `gvfs_rbtree_insert_timer_value` at a node. The source subtracts signed keys, which C leaves undefined where
the difference does not fit; this is the subtraction that wraps around, as the machine has it. -/
def timerSide (key : BitVec w) (node : BitVec w × ℕ) : Option Side :=
  if (key - node.1).toInt < 0 then some .left else some .right

/-- What a handler does to the timers. It calls `gvfs_event_del_timer` only for an event whose timer is set. -/
inductive Call
  | addTimer (e timer : ℕ)
  | delTimer (e : ℕ)
  deriving DecidableEq, Repr

namespace Timers

def setEvent (e : ℕ) (x : Event w) (s : Timers w) : Timers w := { s with event := Function.update s.event e x }

/-- `gvfs_rbtree_delete`, which clears the key -/
def rbtreeDelete (e : ℕ) (s : Timers w) : Option (Timers w) :=
  (s.tree.delete ((s.event e).key, e)).map fun tree =>
  { s with event := Function.update s.event e { s.event e with key := 0 }, tree := tree }

def eventDelTimer (e : ℕ) (s : Timers w) : Option (Timers w) :=
  (s.rbtreeDelete e).map fun s => s.setEvent e { s.event e with timerSet := false }

/-- The end of `gvfs_event_add_timer`, for an event that is not in the tree -/
def rbtreeInsert (e : ℕ) (key : BitVec w) (s : Timers w) : Option (Timers w) :=
  (s.tree.insert (timerSide key) (key, e)).map fun tree =>
  { s with event := Function.update s.event e { s.event e with key := key, timerSet := true }, tree := tree }

def eventAddTimer (e timer : ℕ) (s : Timers w) : Option (Timers w) :=
  let key := s.currentMsec + BitVec.ofNat w timer
  if (s.event e).timerSet then
    if |(key - (s.event e).key).toInt| < lazyDelay then some s
    else (s.eventDelTimer e).bind fun s => s.rbtreeInsert e key
  else s.rbtreeInsert e key

def call (s : Timers w) : Call → Option (Timers w)
  | .addTimer e timer => s.eventAddTimer e timer
  | .delTimer e => if (s.event e).timerSet then s.eventDelTimer e else some s

def calls (cs : List Call) (s : Timers w) : Option (Timers w) := cs.foldlM call s

/-- A timer that is due leaves the tree, before its handler runs. -/
def timeOut (e : ℕ) (s : Timers w) : Option (Timers w) :=
  (s.rbtreeDelete e).map fun s => s.setEvent e { s.event e with timerSet := false, timedout := true }

/-- `gvfs_event_expire_timers` from turn `i` on: the events that time out, and the state. What a handler does depends on
the turn and the event. Nothing comes back when it has not ended after `fuel` turns. -/
def expireTimers (handle : ℕ → ℕ → List Call) : ℕ → ℕ → Timers w → Option (List ℕ × Timers w)
  | 0, _, _ => none
  | fuel + 1, i, s =>
    match s.tree.min with
    | none => some ([], s)
    | some node =>
      if (node.1 - s.currentMsec).toInt ≤ 0 then
        ((s.timeOut node.2).bind fun s => s.calls (handle i node.2)).bind fun s =>
        (expireTimers handle fuel (i + 1) s).map fun r => (node.2 :: r.1, r.2)
      else some ([], s)

/-- The timers are looked at when the clock has moved since `before`. -/
def processTimers (handle : ℕ → ℕ → List Call) (before : BitVec w) (fuel : ℕ) (s : Timers w) :
    Option (List ℕ × Timers w) :=
  if s.currentMsec - before ≠ 0 then expireTimers handle fuel 0 s else some ([], s)

end Timers

/-! ## The turns of the event loop -/

/-- When each event was last asked to time out -/
abbrev Asked := ℕ → Option ℤ

def Asked.after (now : ℤ) (asked : Asked) : Call → Asked
  | .addTimer e timer => Function.update asked e (some (now + timer))
  | .delTimer e => Function.update asked e none

/-- What is asked for after the events `ran` have timed out, from turn `i` on -/
def Asked.pass (handle : ℕ → ℕ → List Call) (now : ℤ) : ℕ → List ℕ → Asked → Asked
  | _, [], asked => asked
  | i, e :: ran, asked =>
    Asked.pass handle now (i + 1) ran ((handle i e).foldl (Asked.after now) (Function.update asked e none))

/-- Each event was asked to time out when it does, or less than `lazyDelay` later. -/
def Fires (handle : ℕ → ℕ → List Call) (now : ℤ) : ℕ → List ℕ → Asked → Prop
  | _, [], _ => True
  | i, e :: ran, asked => (∃ a, asked e = some a ∧ a < now + lazyDelay) ∧
      Fires handle now (i + 1) ran ((handle i e).foldl (Asked.after now) (Function.update asked e none))

/-- The timers with the time in milliseconds, which does not wrap around. In a turn of
`gvfs_process_events_and_timers` the clock is read, the handlers of the events run, and the timers are looked at. -/
structure World (w : ℕ) where
  timers : Timers w
  now : ℤ
  -- `delta` of the turn, until the timers are looked at
  before : Option (BitVec w)
  asked : Asked

inductive Act
  | poll (now : ℤ)
  | call (c : Call)
  | expire (handle : ℕ → ℕ → List Call)

inductive Taken : World w → Act → World w → Prop
  | poll {W : World w} (now : ℤ) : Taken W (.poll now)
      { W with timers := { W.timers with currentMsec := BitVec.ofInt w now }, now := now,
               before := some W.timers.currentMsec }
  | call {W : World w} {c : Call} {s' : Timers w} (h : W.timers.call c = some s') : Taken W (.call c)
      { W with timers := s', asked := W.asked.after W.now c }
  | expire {W : World w} {before : BitVec w} {handle : ℕ → ℕ → List Call} {fuel : ℕ} {ran : List ℕ} {s' : Timers w}
      (hbefore : W.before = some before) (h : W.timers.processTimers handle before fuel = some (ran, s')) :
      Taken W (.expire handle)
      { W with timers := s', before := none, asked := W.asked.pass handle W.now 0 ran }

/-- A timer is asked for at some later time, `maxTimer` away at most. -/
def Call.Within (maxTimer : ℤ) : Call → Prop
  | .addTimer _ timer => 1 ≤ timer ∧ timer ≤ maxTimer
  | .delTimer _ => True

/-- The clock does not go back, and moves by `maxStep` at most in a turn. -/
def Allowed (maxStep maxTimer : ℤ) (W : World w) : Act → Prop
  | .poll now => W.before = none ∧ W.now ≤ now ∧ now ≤ W.now + maxStep
  | .call c => c.Within maxTimer
  | .expire handle => W.before ≠ none ∧ ∀ i e, ∀ c ∈ handle i e, c.Within maxTimer

def World.start (w : ℕ) (now : ℤ) : World w where
  timers := { event := fun _ => ⟨0, false, false⟩, tree := .nil, currentMsec := BitVec.ofInt w now }
  now := now
  before := none
  asked := fun _ => none

/-! ## Keys -/

/-- The difference of two keys is that of their times, when these lie close together. -/
theorem toInt_sub_ofInt {a b : ℤ} (h : 2 * (a - b) < 2 ^ w) (h' : 2 * (b - a) < 2 ^ w) :
    (BitVec.ofInt w a - BitVec.ofInt w b).toInt = a - b := by
  rw [BitVec.toInt_sub, BitVec.toInt_ofInt, BitVec.toInt_ofInt, Int.bmod_sub_bmod, Int.sub_bmod_bmod]
  have hpow : ((2 ^ w : ℕ) : ℤ) = 2 ^ w := by push_cast; rfl
  apply Int.bmod_eq_of_le_mul_two
  · rw [hpow]
    omega
  · rw [hpow]
    omega

theorem ofInt_add_ofNat (a : ℤ) (n : ℕ) : BitVec.ofInt w a + BitVec.ofNat w n = BitVec.ofInt w (a + n) := by
  rw [BitVec.ofInt_add, BitVec.ofInt_natCast]

/-! ## What every call keeps -/

/-- The timers that are set are in the tree, each once and in the order of their deadlines. Each deadline lies behind
`lo`, not behind `hi`, and less than `lazyDelay` from the time that was asked for last. -/
structure Held (lo hi : ℤ) (deadline : ℕ → ℤ) (asked : Asked) (s : Timers w) : Prop where
  sound : Sound s.tree
  sorted : s.tree.toList.Pairwise fun a b => deadline a.2 ≤ deadline b.2
  nodup : (s.tree.toList.map Prod.snd).Nodup
  keys : ∀ node ∈ s.tree.toList, node.1 = (s.event node.2).key ∧ node.1 = BitVec.ofInt w (deadline node.2)
  window : ∀ node ∈ s.tree.toList, lo < deadline node.2 ∧ deadline node.2 ≤ hi
  inTree : ∀ e, (s.event e).timerSet = true ↔ e ∈ s.tree.toList.map Prod.snd
  asked_isSome : ∀ e, (asked e).isSome = (s.event e).timerSet
  near : ∀ e a, asked e = some a → |deadline e - a| < lazyDelay

section

variable {lo hi now : ℤ} {deadline : ℕ → ℤ} {asked : Asked} {s : Timers w} {e : ℕ}

theorem Held.node_mem (h : Held lo hi deadline asked s) (hset : (s.event e).timerSet = true) :
    ((s.event e).key, e) ∈ s.tree.toList := by
  obtain ⟨node, hnode, rfl⟩ := List.mem_map.mp ((h.inTree e).mp hset)
  rw [← (h.keys node hnode).1]
  exact hnode

theorem Held.mono (h : Held lo hi deadline asked s) {hi' : ℤ} (hle : hi ≤ hi') : Held lo hi' deadline asked s :=
  { h with window := fun node hnode => ⟨(h.window node hnode).1, (h.window node hnode).2.trans hle⟩ }

/-- The timer leaves the tree, and nothing is asked for any more. -/
theorem Held.remove (h : Held lo hi deadline asked s) (hset : (s.event e).timerSet = true) :
    ∃ tree, s.tree.delete ((s.event e).key, e) = some tree ∧
      tree.toList = s.tree.toList.filter (fun node => node.2 ≠ e) ∧
      ∀ x : Event w, x.timerSet = false → Held lo hi deadline (Function.update asked e none)
        { s with event := Function.update s.event e x, tree := tree } := by
  obtain ⟨tree, b, a, hdelete, hsound, hlist, hlist'⟩ := delete_spec h.sound (h.node_mem hset)
  have hfilter : tree.toList = s.tree.toList.filter (fun node => node.2 ≠ e) := by
    have hnodup := h.nodup
    rw [hlist, List.map_append, List.map_cons, List.nodup_append, List.nodup_cons] at hnodup
    have hb : b.filter (fun node => node.2 ≠ e) = b := by
      rw [List.filter_eq_self]
      intro node hnode
      exact decide_eq_true (hnodup.2.2 node.2 (List.mem_map_of_mem hnode) e List.mem_cons_self)
    have ha : a.filter (fun node => node.2 ≠ e) = a := by
      rw [List.filter_eq_self]
      intro node hnode
      exact decide_eq_true fun heq => hnodup.2.1.1 (List.mem_map.mpr ⟨node, hnode, heq⟩)
    rw [hlist, hlist', List.filter_append, List.filter_cons_of_neg (by simp), hb, ha]
  have hmem : ∀ node, node ∈ tree.toList ↔ node ∈ s.tree.toList ∧ node.2 ≠ e := by
    intro node
    rw [hfilter, List.mem_filter, decide_eq_true_eq]
  have hsub : tree.toList.Sublist s.tree.toList := hfilter ▸ List.filter_sublist
  refine ⟨tree, hdelete, hfilter, fun x hx => ?_⟩
  constructor
  case sound => exact hsound
  case sorted => exact h.sorted.sublist hsub
  case nodup => exact h.nodup.sublist (hsub.map _)
  case keys =>
    intro node hnode
    obtain ⟨hold, hne⟩ := (hmem node).mp hnode
    dsimp only
    rw [Function.update_of_ne hne]
    exact h.keys node hold
  case window => exact fun node hnode => h.window node (hsub.subset hnode)
  case inTree =>
    intro e'
    dsimp only
    by_cases he : e' = e
    · subst he
      rw [Function.update_self, hx]
      apply iff_of_false Bool.false_ne_true
      intro hin
      obtain ⟨node, hnode, heq⟩ := List.mem_map.mp hin
      exact ((hmem node).mp hnode).2 heq
    · rw [Function.update_of_ne he, h.inTree, List.mem_map, List.mem_map]
      constructor
      · rintro ⟨node, hnode, rfl⟩
        exact ⟨node, (hmem node).mpr ⟨hnode, he⟩, rfl⟩
      · rintro ⟨node, hnode, rfl⟩
        exact ⟨node, ((hmem node).mp hnode).1, rfl⟩
  case asked_isSome =>
    intro e'
    dsimp only
    by_cases he : e' = e
    · subst he
      rw [Function.update_self, Function.update_self, hx]
      rfl
    · rw [Function.update_of_ne he, Function.update_of_ne he]
      exact h.asked_isSome e'
  case near =>
    intro e' a ha
    by_cases he : e' = e
    · subst he
      rw [Function.update_self] at ha
      cases ha
    · rw [Function.update_of_ne he] at ha
      exact h.near e' a ha

/-- The timer enters the tree at the time that is asked for. -/
theorem Held.insert (h : Held lo hi deadline asked s) (hset : (s.event e).timerSet = false) {a : ℤ} (hlo : lo < a)
    (hhi : a ≤ hi) (hwindow : 2 * (hi - lo) < 2 ^ w) :
    ∃ s', s.rbtreeInsert e (BitVec.ofInt w a) = some s' ∧
      s'.tree.toList.Perm ((BitVec.ofInt w a, e) :: s.tree.toList) ∧ s'.currentMsec = s.currentMsec ∧
      Held lo hi (Function.update deadline e a) (Function.update asked e (some a)) s' := by
  have hne : ∀ node ∈ s.tree.toList, node.2 ≠ e := by
    rintro node hnode rfl
    rw [(h.inTree node.2).mpr (List.mem_map_of_mem hnode)] at hset
    cases hset
  have hdeadline : ∀ node ∈ s.tree.toList, Function.update deadline e a node.2 = deadline node.2 :=
    fun node hnode => Function.update_of_ne (hne node hnode) _ _
  have hsub : ∀ node ∈ s.tree.toList, (BitVec.ofInt w a - node.1).toInt = a - deadline node.2 := by
    intro node hnode
    have hwin := h.window node hnode
    rw [(h.keys node hnode).2]
    exact toInt_sub_ofInt (by omega) (by omega)
  obtain ⟨tree, b, c, hinsert, hsound, hlist, hlist', hsorted⟩ :=
    insert_spec (timerSide (BitVec.ofInt w a)) (BitVec.ofInt w a, e) h.sound
      (R := fun x y => Function.update deadline e a x.2 ≤ Function.update deadline e a y.2)
      (fun _ _ _ => le_trans)
      (by
        intro node hnode hside
        rw [Function.update_self, hdeadline node hnode]
        rw [timerSide, hsub node hnode] at hside
        split at hside
        · omega
        · cases hside)
      (by
        intro node hnode hside
        rw [Function.update_self, hdeadline node hnode]
        rw [timerSide, hsub node hnode] at hside
        split at hside
        · cases hside
        · omega)
      (by
        intro node _
        rw [timerSide]
        split <;> simp)
      (by
        apply h.sorted.imp_of_mem
        intro x y hx hy hle
        rwa [hdeadline x hx, hdeadline y hy])
  have hperm : tree.toList.Perm ((BitVec.ofInt w a, e) :: s.tree.toList) := by
    rw [hlist, hlist']
    exact List.perm_middle
  have hs' : s.rbtreeInsert e (BitVec.ofInt w a) = some { s with
      event := Function.update s.event e { s.event e with key := BitVec.ofInt w a, timerSet := true }, tree := tree } := by
    rw [Timers.rbtreeInsert, hinsert]
    rfl
  refine ⟨_, hs', hperm, rfl, ?_⟩
  constructor
  case sound => exact hsound
  case sorted => exact hsorted
  case nodup =>
    rw [(hperm.map Prod.snd).nodup_iff, List.map_cons, List.nodup_cons]
    refine ⟨fun hin => ?_, h.nodup⟩
    obtain ⟨node, hnode, heq⟩ := List.mem_map.mp hin
    exact hne node hnode heq
  case keys =>
    intro node hnode
    rcases List.mem_cons.mp (hperm.mem_iff.mp hnode) with rfl | hold
    · simp
    · dsimp only
      rw [hdeadline node hold, Function.update_of_ne (hne node hold)]
      exact h.keys node hold
  case window =>
    intro node hnode
    rcases List.mem_cons.mp (hperm.mem_iff.mp hnode) with rfl | hold
    · rw [Function.update_self]
      exact ⟨hlo, hhi⟩
    · rw [hdeadline node hold]
      exact h.window node hold
  case inTree =>
    intro e'
    dsimp only
    rw [(hperm.map Prod.snd).mem_iff, List.map_cons, List.mem_cons]
    by_cases he : e' = e
    · subst he
      simp
    · rw [Function.update_of_ne he, h.inTree]
      simp [he]
  case asked_isSome =>
    intro e'
    dsimp only
    by_cases he : e' = e
    · subst he
      simp
    · rw [Function.update_of_ne he, Function.update_of_ne he]
      exact h.asked_isSome e'
  case near =>
    intro e' a' ha
    by_cases he : e' = e
    · subst he
      rw [Function.update_self] at ha
      cases ha
      rw [Function.update_self, sub_self, abs_zero, lazyDelay]
      omega
    · rw [Function.update_of_ne he] at ha ⊢
      exact h.near e' a' ha

/-! ## A call -/

/-- The timers that the next turn of `gvfs_event_expire_timers` may take -/
def Timers.dueNodes (s : Timers w) : List (BitVec w × ℕ) :=
  s.tree.toList.filter fun node => (node.1 - s.currentMsec).toInt ≤ 0

/-- Leaving the tree, by a deletion or a timeout: `x` is what the event is then. -/
theorem Held.leave (h : Held lo hi deadline asked s) (hset : (s.event e).timerSet = true) {x : Event w}
    (hx : x.timerSet = false) :
    ∃ s', ((s.rbtreeDelete e).map fun s => s.setEvent e x) = some s' ∧ s'.currentMsec = s.currentMsec ∧
      s'.tree.toList = s.tree.toList.filter (fun node => node.2 ≠ e) ∧ s'.event e = x ∧
      Held lo hi deadline (Function.update asked e none) s' := by
  obtain ⟨tree, hdelete, hfilter, hheld⟩ := h.remove hset
  refine ⟨{ s with event := Function.update s.event e x, tree := tree }, ?_, rfl, hfilter, Function.update_self ..,
    hheld x hx⟩
  simp [Timers.rbtreeDelete, hdelete, Timers.setEvent]

theorem Held.eventDelTimer (h : Held lo hi deadline asked s) (hset : (s.event e).timerSet = true) :
    ∃ s', s.eventDelTimer e = some s' ∧ s'.currentMsec = s.currentMsec ∧
      s'.tree.toList = s.tree.toList.filter (fun node => node.2 ≠ e) ∧ (s'.event e).timerSet = false ∧
      Held lo hi deadline (Function.update asked e none) s' := by
  obtain ⟨s', heq, hmsec, hlist, hevent, hheld⟩ :=
    h.leave hset (x := ⟨0, false, (s.event e).timedout⟩) rfl
  refine ⟨s', ?_, hmsec, hlist, by rw [hevent], hheld⟩
  rw [← heq, Timers.eventDelTimer, Timers.rbtreeDelete]
  cases s.tree.delete ((s.event e).key, e) with
  | none => rfl
  | some tree => simp

theorem dueNodes_le_of_filter {s' : Timers w} (hmsec : s'.currentMsec = s.currentMsec)
    (hlist : s'.tree.toList = s.tree.toList.filter (fun node => node.2 ≠ e)) :
    s'.dueNodes.length ≤ s.dueNodes.length := by
  rw [Timers.dueNodes, Timers.dueNodes, hmsec, hlist]
  exact (List.filter_sublist.filter _).length_le

/-- What is asked for at a later time is not due. -/
theorem Held.rbtreeInsert (h : Held lo hi deadline asked s) (hmsec : s.currentMsec = BitVec.ofInt w now) (hlo : lo ≤ now)
    (hwindow : 2 * (hi - lo) < 2 ^ w) (hset : (s.event e).timerSet = false) {timer : ℕ} (hpos : 1 ≤ timer)
    (hhi : now + timer ≤ hi) :
    ∃ s' deadline', s.rbtreeInsert e (s.currentMsec + BitVec.ofNat w timer) = some s' ∧
      Held lo hi deadline' (Function.update asked e (some (now + timer))) s' ∧ s'.currentMsec = s.currentMsec ∧
      s'.dueNodes.length ≤ s.dueNodes.length := by
  obtain ⟨s', hinsert, hperm, hmsec', hheld⟩ := h.insert hset (a := now + timer) (by omega) hhi hwindow
  refine ⟨s', _, by rw [hmsec, ofInt_add_ofNat, hinsert], hheld, hmsec', ?_⟩
  have hlater : (BitVec.ofInt w (now + timer) - BitVec.ofInt w now).toInt = now + timer - now :=
    toInt_sub_ofInt (by omega) (by omega)
  rw [Timers.dueNodes, Timers.dueNodes, hmsec', (hperm.filter _).length_eq, List.filter_cons_of_neg]
  rw [hmsec, hlater, decide_eq_true_eq]
  omega

theorem Held.call (h : Held lo hi deadline asked s) (hmsec : s.currentMsec = BitVec.ofInt w now) (hlo : lo ≤ now)
    {maxTimer : ℤ} (hhi : now + maxTimer ≤ hi) (hwindow : 2 * (hi - lo) < 2 ^ w) {c : Call} (hc : c.Within maxTimer) :
    ∃ s' deadline', s.call c = some s' ∧ Held lo hi deadline' (asked.after now c) s' ∧
      s'.currentMsec = s.currentMsec ∧ s'.dueNodes.length ≤ s.dueNodes.length := by
  cases c with
  | delTimer e =>
    rw [Timers.call, Asked.after]
    cases hset : (s.event e).timerSet with
    | true =>
      obtain ⟨s', heq, hmsec', hlist, -, hheld⟩ := h.eventDelTimer hset
      exact ⟨s', deadline, (if_pos rfl).trans heq, hheld, hmsec', dueNodes_le_of_filter hmsec' hlist⟩
    | false =>
      have hnone : asked e = none := by
        have hsome := h.asked_isSome e
        rw [hset, Option.isSome_eq_false_iff, Option.isNone_iff_eq_none] at hsome
        exact hsome
      rw [← hnone, Function.update_eq_self]
      exact ⟨s, deadline, if_neg Bool.false_ne_true, h, rfl, le_rfl⟩
  | addTimer e timer =>
    obtain ⟨hpos, hlong⟩ := hc
    rw [Timers.call, Timers.eventAddTimer, Asked.after]
    cases hset : (s.event e).timerSet with
    | false =>
      rw [if_neg Bool.false_ne_true]
      exact h.rbtreeInsert hmsec hlo hwindow hset (by omega) (by omega)
    | true =>
      rw [if_pos rfl]
      have hnode := h.node_mem hset
      have hwin : lo < deadline e ∧ deadline e ≤ hi := h.window _ hnode
      have hkey : (s.event e).key = BitVec.ofInt w (deadline e) := (h.keys _ hnode).2
      have hdiff : (s.currentMsec + BitVec.ofNat w timer - (s.event e).key).toInt = now + timer - deadline e := by
        rw [hkey, hmsec, ofInt_add_ofNat]
        exact toInt_sub_ofInt (by omega) (by omega)
      rw [hdiff]
      by_cases hlazy : |now + timer - deadline e| < lazyDelay
      · -- The timer keeps its key, and the time that is asked for is a new one.
        refine ⟨s, deadline, if_pos hlazy, ?_, rfl, le_rfl⟩
        refine { h with asked_isSome := fun e' => ?_, near := fun e' a ha => ?_ }
        · by_cases he : e' = e
          · subst he
            rw [Function.update_self, hset]
            rfl
          · rw [Function.update_of_ne he]
            exact h.asked_isSome e'
        · by_cases he : e' = e
          · subst he
            rw [Function.update_self] at ha
            cases ha
            rwa [abs_sub_comm]
          · rw [Function.update_of_ne he] at ha
            exact h.near e' a ha
      · obtain ⟨s₁, hdel, hmsec₁, hlist₁, hset₁, hheld₁⟩ := h.eventDelTimer hset
        obtain ⟨s', deadline', hinsert, hheld, hmsec', hdue⟩ :=
          hheld₁.rbtreeInsert (hmsec₁.trans hmsec) hlo hwindow hset₁ (by omega) (by omega)
        rw [Function.update_idem] at hheld
        refine ⟨s', deadline', ?_, hheld, hmsec'.trans hmsec₁, hdue.trans (dueNodes_le_of_filter hmsec₁ hlist₁)⟩
        rw [if_neg hlazy, hdel, Option.bind_some, ← hmsec₁]
        exact hinsert

theorem Held.calls (h : Held lo hi deadline asked s) (hmsec : s.currentMsec = BitVec.ofInt w now) (hlo : lo ≤ now)
    {maxTimer : ℤ} (hhi : now + maxTimer ≤ hi) (hwindow : 2 * (hi - lo) < 2 ^ w) {cs : List Call}
    (hcs : ∀ c ∈ cs, c.Within maxTimer) :
    ∃ s' deadline', s.calls cs = some s' ∧ Held lo hi deadline' (cs.foldl (Asked.after now) asked) s' ∧
      s'.currentMsec = s.currentMsec ∧ s'.dueNodes.length ≤ s.dueNodes.length := by
  induction cs generalizing s deadline asked with
  | nil => exact ⟨s, deadline, rfl, h, rfl, le_rfl⟩
  | cons c cs ih =>
    obtain ⟨s₁, deadline₁, hcall, hheld₁, hmsec₁, hdue₁⟩ := h.call hmsec hlo hhi hwindow (hcs c List.mem_cons_self)
    obtain ⟨s', deadline', hcalls, hheld, hmsec', hdue⟩ :=
      ih hheld₁ (hmsec₁.trans hmsec) fun c hc => hcs c (List.mem_cons_of_mem _ hc)
    refine ⟨s', deadline', ?_, hheld, hmsec'.trans hmsec₁, hdue.trans hdue₁⟩
    rw [Timers.calls, List.foldlM_cons, hcall]
    exact hcalls

/-! ## The loop -/

variable {handle : ℕ → ℕ → List Call} {maxTimer : ℤ}

/-- The loop stops when all deadlines lie behind `now`, and takes the first timer otherwise. -/
theorem Held.loop_cases (h : Held lo hi deadline asked s) (hmsec : s.currentMsec = BitVec.ofInt w now) (hlo : lo ≤ now)
    (hhi : now ≤ hi) (hwindow : 2 * (hi - lo) < 2 ^ w) (handle : ℕ → ℕ → List Call) (i : ℕ) :
    (Held now hi deadline asked s ∧ ∀ fuel, Timers.expireTimers handle (fuel + 1) i s = some ([], s)) ∨
      ∃ e, (s.event e).timerSet = true ∧ deadline e ≤ now ∧ ((s.event e).key, e) ∈ s.dueNodes ∧
        ∀ fuel, Timers.expireTimers handle (fuel + 1) i s =
          ((s.timeOut e).bind fun s => s.calls (handle i e)).bind fun s =>
            (Timers.expireTimers handle fuel (i + 1) s).map fun r => (e :: r.1, r.2) := by
  have hdue : ∀ node ∈ s.tree.toList, (node.1 - s.currentMsec).toInt = deadline node.2 - now := by
    intro node hnode
    have hwin := h.window node hnode
    rw [(h.keys node hnode).2, hmsec]
    exact toInt_sub_ofInt (by omega) (by omega)
  cases hlist : s.tree.toList with
  | nil =>
    left
    have hmin : s.tree.min = none := by rw [min_eq_head?, hlist]; rfl
    refine ⟨{ h with window := fun node hnode => ?_ }, fun fuel => by rw [Timers.expireTimers, hmin]⟩
    rw [hlist] at hnode
    cases hnode
  | cons node rest =>
    have hmin : s.tree.min = some node := by rw [min_eq_head?, hlist]; rfl
    have hnode : node ∈ s.tree.toList := by rw [hlist]; exact List.mem_cons_self
    by_cases hle : deadline node.2 ≤ now
    · right
      have hset : (s.event node.2).timerSet = true := (h.inTree node.2).mpr (List.mem_map_of_mem hnode)
      have hnow : (node.1 - s.currentMsec).toInt ≤ 0 := by
        rw [hdue node hnode]
        omega
      refine ⟨node.2, hset, hle, ?_, fun fuel => ?_⟩
      · rw [← (h.keys node hnode).1]
        exact List.mem_filter.mpr ⟨hnode, decide_eq_true hnow⟩
      · rw [Timers.expireTimers, hmin]
        exact if_pos hnow
    · left
      have hlater : ∀ node' ∈ s.tree.toList, now < deadline node'.2 := by
        intro node' hnode'
        have hsorted := h.sorted
        rw [hlist, List.pairwise_cons] at hsorted
        rw [hlist] at hnode'
        rcases List.mem_cons.mp hnode' with rfl | hrest
        · omega
        · have := hsorted.1 node' hrest
          omega
      refine ⟨{ h with window := fun node' hnode' => ⟨hlater node' hnode', (h.window node' hnode').2⟩ }, fun fuel => ?_⟩
      rw [Timers.expireTimers, hmin]
      apply if_neg
      rw [hdue node hnode]
      omega

/-- A turn of the loop: a timer leaves the tree, its handler runs, and there are fewer timers to come. -/
theorem Held.turn (h : Held lo hi deadline asked s) (hmsec : s.currentMsec = BitVec.ofInt w now) (hlo : lo ≤ now)
    (hhi : now + maxTimer ≤ hi) (hwindow : 2 * (hi - lo) < 2 ^ w) (hset : (s.event e).timerSet = true)
    (hdue : ((s.event e).key, e) ∈ s.dueNodes) {cs : List Call} (hcs : ∀ c ∈ cs, c.Within maxTimer) :
    ∃ s' deadline', ((s.timeOut e).bind fun s => s.calls cs) = some s' ∧
      Held lo hi deadline' (cs.foldl (Asked.after now) (Function.update asked e none)) s' ∧
      s'.currentMsec = s.currentMsec ∧ s'.dueNodes.length < s.dueNodes.length := by
  obtain ⟨s₁, heq, hmsec₁, hlist₁, -, hheld₁⟩ := h.leave hset (x := ⟨0, false, true⟩) rfl
  have htimeOut : s.timeOut e = some s₁ := by
    rw [← heq, Timers.timeOut, Timers.rbtreeDelete]
    cases s.tree.delete ((s.event e).key, e) with
    | none => rfl
    | some tree => simp
  obtain ⟨s', deadline', hcalls, hheld, hmsec', hle⟩ := hheld₁.calls (hmsec₁.trans hmsec) hlo hhi hwindow hcs
  refine ⟨s', deadline', by rw [htimeOut]; exact hcalls, hheld, hmsec'.trans hmsec₁, hle.trans_lt ?_⟩
  have hfewer : s₁.dueNodes = s.dueNodes.filter (fun node => node.2 ≠ e) := by
    rw [Timers.dueNodes, Timers.dueNodes, hmsec₁, hlist₁, List.filter_filter, List.filter_filter]
    exact List.filter_congr fun node _ => Bool.and_comm _ _
  rw [hfewer]
  exact List.length_filter_lt_length_iff_exists.mpr ⟨_, hdue, by simp⟩

/-- Whatever the loop returns, it leaves no deadline behind, and has taken no timer before its time. -/
theorem Held.of_expireTimers (h : Held lo hi deadline asked s) (hmsec : s.currentMsec = BitVec.ofInt w now)
    (hlo : lo ≤ now) (hlong : 0 ≤ maxTimer) (hhi : now + maxTimer ≤ hi) (hwindow : 2 * (hi - lo) < 2 ^ w)
    (hhandle : ∀ i e, ∀ c ∈ handle i e, c.Within maxTimer) {fuel i : ℕ} {ran : List ℕ} {s' : Timers w}
    (hrun : Timers.expireTimers handle fuel i s = some (ran, s')) :
    Fires handle now i ran asked ∧ s'.currentMsec = s.currentMsec ∧
      ∃ deadline', Held now hi deadline' (asked.pass handle now i ran) s' := by
  induction fuel generalizing s deadline asked i ran with
  | zero => cases hrun
  | succ fuel ih =>
    obtain ⟨hend, hstop⟩ | ⟨e, hset, hle, hdue, hturn⟩ := h.loop_cases hmsec hlo (by omega) hwindow handle i
    · rw [hstop] at hrun
      cases hrun
      exact ⟨trivial, rfl, deadline, hend⟩
    · obtain ⟨s₁, deadline₁, htaken, hheld₁, hmsec₁, -⟩ := h.turn hmsec hlo hhi hwindow hset hdue (hhandle i e)
      rw [hturn, htaken, Option.bind_some, Option.map_eq_some_iff] at hrun
      obtain ⟨⟨ran₁, s₂⟩, hrun₁, heq⟩ := hrun
      cases heq
      obtain ⟨hfires, hmsec', hheld⟩ := ih hheld₁ (hmsec₁.trans hmsec) hrun₁
      refine ⟨⟨?_, hfires⟩, hmsec'.trans hmsec₁, hheld⟩
      have hsome : (asked e).isSome = true := (h.asked_isSome e).trans hset
      obtain ⟨a, ha⟩ := Option.isSome_iff_exists.mp hsome
      have hnear := h.near e a ha
      rw [abs_lt] at hnear
      exact ⟨a, ha, by omega⟩

theorem Held.expireTimers_ends (h : Held lo hi deadline asked s) (hmsec : s.currentMsec = BitVec.ofInt w now)
    (hlo : lo ≤ now) (hlong : 0 ≤ maxTimer) (hhi : now + maxTimer ≤ hi) (hwindow : 2 * (hi - lo) < 2 ^ w)
    (hhandle : ∀ i e, ∀ c ∈ handle i e, c.Within maxTimer) (i : ℕ) :
    ∃ fuel r, Timers.expireTimers handle fuel i s = some r := by
  induction hn : s.dueNodes.length using Nat.strongRecOn generalizing s deadline asked i with
  | _ n ih =>
    obtain ⟨-, hstop⟩ | ⟨e, hset, -, hdue, hturn⟩ := h.loop_cases hmsec hlo (by omega) hwindow handle i
    · exact ⟨1, _, hstop 0⟩
    · obtain ⟨s₁, deadline₁, htaken, hheld₁, hmsec₁, hlt⟩ := h.turn hmsec hlo hhi hwindow hset hdue (hhandle i e)
      obtain ⟨fuel, r, hrun⟩ := ih _ (hn ▸ hlt) hheld₁ (hmsec₁.trans hmsec) (i + 1) rfl
      refine ⟨fuel + 1, (e :: r.1, r.2), ?_⟩
      rw [hturn, htaken, Option.bind_some, hrun]
      rfl

end

/-! ## Runs -/

/-- No deadline lies behind the time at which the timers were looked at last. -/
structure World.Good (maxStep maxTimer : ℤ) (W : World w) : Prop where
  clock : W.timers.currentMsec = BitVec.ofInt w W.now
  held : ∃ lo deadline, Held lo (W.now + maxTimer) deadline W.asked W.timers ∧ lo ≤ W.now ∧ W.now ≤ lo + maxStep ∧
    (W.before = none → lo = W.now) ∧ ∀ before, W.before = some before → before = BitVec.ofInt w lo

section

variable {maxStep maxTimer : ℤ} {W W' : World w}

theorem World.good_start (hstep : 0 ≤ maxStep) (now : ℤ) : (World.start w now).Good maxStep maxTimer := by
  have hempty : (World.start w now).timers.tree.toList = [] := rfl
  refine ⟨rfl, now, fun _ => 0, ?_, le_rfl, le_add_of_nonneg_right hstep, fun _ => rfl, fun _ hbefore => by cases hbefore⟩
  constructor
  case sound => exact ⟨rfl, 0, .nil⟩
  case sorted => exact List.Pairwise.nil
  case nodup => exact List.nodup_nil
  case keys => simp [hempty]
  case window => simp [hempty]
  case inTree =>
    intro e
    rw [hempty]
    exact iff_of_false Bool.false_ne_true List.not_mem_nil
  case asked_isSome => exact fun _ => rfl
  case near => simp [World.start]

/-- Looking at the timers, whatever the handlers do -/
theorem World.Good.processTimers (h : W.Good maxStep maxTimer) (hstep : 0 ≤ maxStep) (hlong : 0 ≤ maxTimer)
    (hwindow : 2 * (maxStep + maxTimer) < 2 ^ w) {before : BitVec w} (hbefore : W.before = some before)
    {handle : ℕ → ℕ → List Call} (hhandle : ∀ i e, ∀ c ∈ handle i e, c.Within maxTimer) :
    (∃ fuel r, W.timers.processTimers handle before fuel = some r) ∧
      ∀ fuel ran s', W.timers.processTimers handle before fuel = some (ran, s') → Fires handle W.now 0 ran W.asked ∧
        World.Good maxStep maxTimer { W with timers := s', before := none, asked := W.asked.pass handle W.now 0 ran } := by
  obtain ⟨hclock, lo, deadline, hheld, hlo, hhi, -, hdelta⟩ := h
  obtain rfl := hdelta before hbefore
  by_cases hmoved : W.timers.currentMsec - BitVec.ofInt w lo ≠ 0
  · have hprocess : ∀ fuel, W.timers.processTimers handle (BitVec.ofInt w lo) fuel =
        Timers.expireTimers handle fuel 0 W.timers := fun fuel => if_pos hmoved
    constructor
    · obtain ⟨fuel, r, hrun⟩ := hheld.expireTimers_ends hclock hlo hlong le_rfl (by omega) hhandle 0
      exact ⟨fuel, r, (hprocess fuel).trans hrun⟩
    · intro fuel ran s' hrun
      rw [hprocess] at hrun
      obtain ⟨hfires, hmsec, deadline', hheld'⟩ :=
        hheld.of_expireTimers hclock hlo hlong le_rfl (by omega) hhandle hrun
      exact ⟨hfires, hmsec.trans hclock, W.now, deadline', hheld', le_rfl, le_add_of_nonneg_right hstep, fun _ => rfl,
        fun _ hbefore => by cases hbefore⟩
  · have hprocess : ∀ fuel, W.timers.processTimers handle (BitVec.ofInt w lo) fuel = some ([], W.timers) :=
      fun fuel => if_neg hmoved
    have hsame : lo = W.now := by
      have hsub : (BitVec.ofInt w W.now - BitVec.ofInt w lo).toInt = W.now - lo :=
        toInt_sub_ofInt (by omega) (by omega)
      have hzero : (0 : BitVec w).toInt = 0 := BitVec.toInt_zero
      rw [← hclock, not_not.mp hmoved, hzero] at hsub
      omega
    refine ⟨⟨0, _, hprocess 0⟩, fun fuel ran s' hrun => ?_⟩
    rw [hprocess] at hrun
    cases hrun
    exact ⟨trivial, hclock, lo, deadline, hheld, hlo, hhi, fun _ => hsame, fun _ hnone => by cases hnone⟩

theorem World.Good.step (h : W.Good maxStep maxTimer) (hstep : 0 ≤ maxStep) (hlong : 0 ≤ maxTimer)
    (hwindow : 2 * (maxStep + maxTimer) < 2 ^ w) {act : Act} (hallowed : Allowed maxStep maxTimer W act)
    (htaken : Taken W act W') : W'.Good maxStep maxTimer := by
  cases htaken with
  | poll now =>
    obtain ⟨hclock, lo, deadline, hheld, hlo, hhi, hlast, -⟩ := h
    obtain ⟨hnone, hle, hfar⟩ := hallowed
    obtain rfl := hlast hnone
    refine ⟨rfl, W.now, deadline, ?_, hle, hfar, (by intro hnone; cases hnone), fun before hbefore => ?_⟩
    · have hkept : Held W.now (now + maxTimer) deadline W.asked W.timers := hheld.mono (by omega)
      exact { hkept with }
    · cases hbefore
      exact hclock
  | call hcall =>
    obtain ⟨hclock, lo, deadline, hheld, hlo, hhi, hlast, hdelta⟩ := h
    obtain ⟨s', deadline', heq, hheld', hmsec, -⟩ := hheld.call hclock hlo le_rfl (by omega) hallowed
    obtain rfl := Option.some.inj (heq.symm.trans hcall)
    exact ⟨hmsec.trans hclock, lo, deadline', hheld', hlo, hhi, hlast, hdelta⟩
  | expire hbefore hrun => exact ((h.processTimers hstep hlong hwindow hbefore hallowed.2).2 _ _ _ hrun).2

theorem World.Good.takes (h : W.Good maxStep maxTimer) (hstep : 0 ≤ maxStep) (hlong : 0 ≤ maxTimer)
    (hwindow : 2 * (maxStep + maxTimer) < 2 ^ w) {act : Act} (hallowed : Allowed maxStep maxTimer W act) :
    ∃ W', Taken W act W' := by
  cases act with
  | poll now => exact ⟨_, .poll now⟩
  | call c =>
    obtain ⟨hclock, lo, deadline, hheld, hlo, hhi, -⟩ := h
    obtain ⟨s', -, heq, -⟩ := hheld.call hclock hlo le_rfl (by omega) hallowed
    exact ⟨_, .call heq⟩
  | expire handle =>
    obtain ⟨before, hbefore⟩ := Option.ne_none_iff_exists'.mp hallowed.1
    obtain ⟨⟨fuel, r, hrun⟩, -⟩ := h.processTimers hstep hlong hwindow hbefore hallowed.2
    exact ⟨_, .expire hbefore hrun⟩

end

/-- Over every run of the event loop, with handlers that set and delete any timers: a timer is set, and once in the tree,
as long as it is asked for; none fires 300 ms before the time it was asked for last, and none is left 300 ms after it
once the timers have been looked at; and every look at them ends. -/
theorem timers_keep_time (maxStep maxTimer : ℤ) (hstep : 0 ≤ maxStep) (hlong : 0 ≤ maxTimer)
    (hwindow : 2 * (maxStep + maxTimer) < 2 ^ w) (now : ℤ) {acts : List Act} {W : World w}
    (hrun : Reaches Taken (Allowed maxStep maxTimer) (.start w now) acts W) :
    (∀ e, (W.timers.event e).timerSet = (W.asked e).isSome ∧
      (W.timers.tree.toList.map Prod.snd).count e = if (W.asked e).isSome then 1 else 0) ∧
    (W.before = none → ∀ e a, W.asked e = some a → W.now < a + lazyDelay) ∧
    (∀ act, Allowed maxStep maxTimer W act → ∃ W', Taken W act W') ∧
    ∀ handle before fuel ran s', Allowed maxStep maxTimer W (.expire handle) → W.before = some before →
      W.timers.processTimers handle before fuel = some (ran, s') → Fires handle W.now 0 ran W.asked := by
  have hgood : W.Good maxStep maxTimer := hrun.invariant
    (fun _ _ _ h hallowed htaken => h.step hstep hlong hwindow hallowed htaken) (World.good_start hstep now)
  obtain ⟨lo, deadline, hheld, -, -, hlast, -⟩ := hgood.held
  refine ⟨fun e => ⟨(hheld.asked_isSome e).symm, ?_⟩, fun hnone e a ha => ?_, fun act => hgood.takes hstep hlong hwindow,
    fun handle before fuel ran s' hallowed hbefore hprocess => ?_⟩
  · rw [hheld.asked_isSome e, hheld.nodup.count]
    exact if_congr (hheld.inTree e).symm rfl rfl
  · have hset : (W.timers.event e).timerSet = true := by
      rw [← hheld.asked_isSome e, ha]
      rfl
    have hdeadline : lo < deadline e := (hheld.window _ (hheld.node_mem hset)).1
    have hnear := hheld.near e a ha
    rw [abs_lt] at hnear
    have := hlast hnone
    omega
  · exact ((hgood.processTimers hstep hlong hwindow hbefore hallowed.2).2 _ _ _ hprocess).1

theorem reaches_calls {maxStep maxTimer : ℤ} {cs : List Call} (hcs : ∀ c ∈ cs, c.Within maxTimer) {W : World w}
    {s' : Timers w} (h : W.timers.calls cs = some s') : Reaches Taken (Allowed maxStep maxTimer) W (cs.map .call)
      { W with timers := s', asked := cs.foldl (Asked.after W.now) W.asked } := by
  induction cs generalizing W with
  | nil =>
    obtain rfl : W.timers = s' := Option.some.inj h
    exact .nil _
  | cons c cs ih =>
    rw [Timers.calls, List.foldlM_cons] at h
    obtain ⟨s₁, hcall, hrest⟩ := Option.bind_eq_some_iff.mp h
    exact .cons (hcs c List.mem_cons_self) (.call hcall) (ih (fun c hc => hcs c (List.mem_cons_of_mem _ hc)) hrest)

/-- Half a second before the key wraps around, with timers on both sides of it -/
def exampleStart : World 64 := .start 64 (2 ^ 64 - 500)

def exampleCalls : List Call :=
  [.addTimer 6 700, .addTimer 5 400, .addTimer 8 720, .addTimer 7 650, .addTimer 9 450, .delTimer 9]

/-- What the handler of event 5 does: it deletes the timer of event 7, and asks for one of its own. -/
def exampleHandle : ℕ → ℕ → List Call := fun _ e => if e = 5 then [.delTimer 7, .addTimer 5 800] else []

/-- The timers of `exampleCalls` 800 ms later -/
def exampleWorld : World 64 where
  timers := { (exampleStart.timers.calls exampleCalls).getD exampleStart.timers with currentMsec := 300 }
  now := 2 ^ 64 + 300
  before := some (.ofInt 64 (2 ^ 64 - 500))
  asked := exampleCalls.foldl (Asked.after (2 ^ 64 - 500)) fun _ => none

theorem exampleWorld_reached : Reaches Taken (Allowed 1000 800) exampleStart
    (exampleCalls.map .call ++ [.poll (2 ^ 64 + 300)]) exampleWorld := by
  have hcalls : exampleStart.timers.calls exampleCalls =
      some ((exampleStart.timers.calls exampleCalls).getD exampleStart.timers) := rfl
  have hwithin : ∀ c ∈ exampleCalls, c.Within 800 := by simp [exampleCalls, Call.Within]
  exact (reaches_calls hwithin hcalls).append (.cons ⟨rfl, by decide, by decide⟩ (.poll (2 ^ 64 + 300)) (.nil _))

theorem exampleHandle_within (i e : ℕ) : ∀ c ∈ exampleHandle i e, c.Within 800 := by
  rw [exampleHandle]
  split <;> simp [Call.Within]

theorem timers_keep_time_example : ∃ fuel s',
    exampleWorld.timers.processTimers exampleHandle (.ofInt 64 (2 ^ 64 - 500)) fuel = some ([5, 6, 8], s') ∧
      Fires exampleHandle (2 ^ 64 + 300) 0 [5, 6, 8] exampleWorld.asked :=
  ⟨4, _, rfl, (timers_keep_time 1000 800 (by decide) (by decide) (by decide) _ exampleWorld_reached).2.2.2 _ _ 4 [5, 6, 8] _
    ⟨by simp [exampleWorld], exampleHandle_within⟩ rfl rfl⟩

end Tefs.Proxy.EventTimers
