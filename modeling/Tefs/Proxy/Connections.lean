import Mathlib.Algebra.Group.Nat.Even
import Mathlib.Data.Int.Notation
import Mathlib.Data.List.Nodup
import Mathlib.Logic.Function.Basic
import Tefs.Lib.Runs

/-! # The connections of the proxy and the reports of epoll

Source: `gvfsproxy/src/core/gvfs_connection.c`, `event/modules/gvfs_epoll_module.c`, the array of connections that
`gvfs_event_process_init` makes in `event/gvfs_event.c`, and `gvfs_close_accepted_connection` of
`event/gvfs_event_accept.c`.

A connection is known by its place in the array. The pointer that the kernel keeps for a descriptor carries one bit
more, which changes each time the connection is taken: it tells a report for an earlier descriptor of the connection
from one for the present descriptor. The handlers run between two steps, and do what they like. The worker is one that
does not hold the accept mutex, so no event is posted.
-/

namespace Tefs.Proxy.Connections
open Runs
set_option autoImplicit false

/-! ## The functions -/

/-- `gvfs_connection_t` with its two events; `data` is the next free connection while it is free. -/
structure Connection where
  data : Option ℕ
  fd : ℤ
  readInstance : Bool
  writeInstance : Bool
  readActive : Bool
  writeActive : Bool
  deriving DecidableEq, Repr

structure Cycle where
  connections : ℕ → Connection
  freeConnections : Option ℕ
  freeConnectionN : ℕ

/-- What the kernel keeps for a descriptor: the connection and the instance. `fd` and `taken`, the number of times the
connection had been taken, are kept for the statements. -/
structure Watch where
  connection : ℕ
  inst : Bool
  fd : ℤ
  taken : ℕ
  deriving DecidableEq, Repr

/-- An `epoll_event`, with `EPOLLERR` and `EPOLLHUP` alone as both bits -/
structure Report extends Watch where
  readable : Bool
  writable : Bool
  deriving DecidableEq, Repr

namespace Cycle

def set (c : ℕ) (x : Connection) (s : Cycle) : Cycle := { s with connections := Function.update s.connections c x }

/-- `gvfs_get_connection`; nothing is returned when no connection is free. -/
def getConnection (fd : ℤ) (s : Cycle) : Option (ℕ × Cycle) :=
  s.freeConnections.map fun c =>
  let inst := !(s.connections c).readInstance
  (c, { connections := Function.update s.connections c ⟨none, fd, inst, inst, false, false⟩,
        freeConnections := (s.connections c).data, freeConnectionN := s.freeConnectionN - 1 })

def freeConnection (c : ℕ) (s : Cycle) : Cycle :=
  { connections := Function.update s.connections c { s.connections c with data := s.freeConnections },
    freeConnections := some c, freeConnectionN := s.freeConnectionN + 1 }

/-- The first test of a report in `gvfs_epoll_process_events` -/
def passes (r : Report) (s : Cycle) : Bool :=
  (s.connections r.connection).fd ≠ -1 ∧ (s.connections r.connection).readInstance = r.inst

/-- The handler of the read event runs. -/
def handsRead (r : Report) (s : Cycle) : Bool := s.passes r ∧ r.readable ∧ (s.connections r.connection).readActive

/-- The handler of the write event runs, after that of the read event. -/
def handsWrite (r : Report) (s : Cycle) : Bool :=
  r.writable ∧ (s.connections r.connection).writeActive ∧
    (s.connections r.connection).fd ≠ -1 ∧ (s.connections r.connection).writeInstance = r.inst

end Cycle

/-- The connections, what epoll watches by descriptor, and how often each connection has been taken. `batch` is what is
left of the reports of a call of `epoll_wait`; of `writing`, the write event is still to be looked at. -/
structure World where
  cycle : Cycle
  epoll : ℤ → Option Watch
  taken : ℕ → ℕ
  batch : List Report
  writing : Option Report

namespace World

def conn (c : ℕ) (W : World) : Connection := W.cycle.connections c

def setConn (c : ℕ) (x : Connection) (W : World) : World := { W with cycle := W.cycle.set c x }

/-- A descriptor that is closed is not watched any more. -/
def closeSocket (fd : ℤ) (W : World) : World := { W with epoll := Function.update W.epoll fd none }

def getConnection (fd : ℤ) (W : World) : World :=
  match W.cycle.getConnection fd with
  | none => W
  | some (c, cycle) => { W with cycle := cycle, taken := Function.update W.taken c (W.taken c + 1) }

def closeAcceptedConnection (c : ℕ) (W : World) : World :=
  let cycle := W.cycle.freeConnection c
  closeSocket (W.conn c).fd { W with cycle := cycle.set c { cycle.connections c with fd := -1 } }

def closeConnection (c : ℕ) (W : World) : World :=
  if (W.conn c).fd = -1 then W
  else (W.setConn c { W.conn c with readActive := false, writeActive := false }).closeAcceptedConnection c

def activate (write : Bool) (active : Bool) (x : Connection) : Connection :=
  if write then { x with writeActive := active } else { x with readActive := active }

def watch (write : Bool) (c : ℕ) (W : World) : Watch :=
  ⟨c, if write then (W.conn c).writeInstance else (W.conn c).readInstance, (W.conn c).fd, W.taken c⟩

def otherActive (write : Bool) (x : Connection) : Bool := if write then x.readActive else x.writeActive

/-- `EPOLL_CTL_ADD` fails for a descriptor that is watched, `EPOLL_CTL_MOD` for one that is not. -/
def epollAddEvent (write : Bool) (c : ℕ) (W : World) : World :=
  if (W.epoll (W.conn c).fd).isSome = otherActive write (W.conn c) then
    { W.setConn c (activate write true (W.conn c)) with
      epoll := Function.update W.epoll (W.conn c).fd (some (W.watch write c)) }
  else W

def epollDelEvent (write : Bool) (c : ℕ) (W : World) : World :=
  if (W.epoll (W.conn c).fd).isSome then
    { W.setConn c (activate write false (W.conn c)) with
      epoll := Function.update W.epoll (W.conn c).fd
        (if otherActive write (W.conn c) then some (W.watch write c) else none) }
  else W

def epollAddConnection (c : ℕ) (W : World) : World :=
  if (W.epoll (W.conn c).fd).isSome then W
  else
    { W.setConn c { W.conn c with readActive := true, writeActive := true } with
      epoll := Function.update W.epoll (W.conn c).fd (some (W.watch false c)) }

/-- The next report, as far as the read event -/
def readEvent (W : World) : World :=
  match W.batch with
  | [] => W
  | r :: batch => { W with batch := batch, writing := if W.cycle.passes r then some r else none }

end World

inductive Act
  | get (fd : ℤ)
  | close (c : ℕ)
  | closeAccepted (c : ℕ)
  | addEvent (write : Bool) (c : ℕ)
  | delEvent (write : Bool) (c : ℕ)
  | addConnection (c : ℕ)
  -- `epoll_wait` returns
  | wait (reports : List Report)
  | read
  | write

def step (W : World) : Act → World
  | .get fd => W.getConnection fd
  | .close c => W.closeConnection c
  | .closeAccepted c => W.closeAcceptedConnection c
  | .addEvent write c => W.epollAddEvent write c
  | .delEvent write c => W.epollDelEvent write c
  | .addConnection c => W.epollAddConnection c
  | .wait reports => { W with batch := reports }
  | .read => W.readEvent
  | .write => { W with writing := none }

/-- A new descriptor is not one that is open; the handlers use connections that are open; and the kernel reports what it
watches. -/
def Allowed (W : World) : Act → Prop
  | .get fd => fd ≠ -1 ∧ ∀ c, (W.conn c).fd ≠ fd
  | .close _ => True
  | .closeAccepted c | .addEvent _ c | .delEvent _ c | .addConnection c => (W.conn c).fd ≠ -1
  | .wait reports => W.batch = [] ∧ W.writing = none ∧ ∀ r ∈ reports, W.epoll r.fd = some r.toWatch
  | .read => W.writing = none
  | .write => True

/-- The array after `gvfs_event_process_init`, which counts down from a `connectionN` that is not zero. The write events
have not been written to. -/
def World.start (connectionN : ℕ) (garbage : ℕ → Bool × Bool × Bool) : World where
  cycle :=
    { connections := fun c =>
        ⟨if c + 1 < connectionN then some (c + 1) else none, -1, true, (garbage c).1, (garbage c).2.1, (garbage c).2.2⟩,
      freeConnections := if 0 < connectionN then some 0 else none, freeConnectionN := connectionN }
  epoll := fun _ => none
  taken := fun _ => 0
  batch := []
  writing := none

/-! ## The free list -/

/-- The way along the free list -/
def Walk (next : ℕ → Option ℕ) : Option ℕ → List ℕ → Prop
  | p, [] => p = none
  | p, c :: l => p = some c ∧ Walk next (next c) l

theorem walk_congr {next next' : ℕ → Option ℕ} {l : List ℕ} (h : ∀ c ∈ l, next' c = next c) (p : Option ℕ) :
    Walk next' p l ↔ Walk next p l := by
  induction l generalizing p with
  | nil => rfl
  | cons c l ih =>
    rw [Walk, Walk, h c List.mem_cons_self, ih fun c' hc' => h c' (List.mem_cons_of_mem c hc')]

/-- The free list of a worker with `connectionN` connections -/
structure World.Free (connectionN : ℕ) (l : List ℕ) (W : World) : Prop where
  walk : Walk (fun c => (W.conn c).data) W.cycle.freeConnections l
  nodup : l.Nodup
  length : l.length = W.cycle.freeConnectionN
  mem : ∀ c, c ∈ l ↔ c < connectionN ∧ (W.conn c).fd = -1

theorem walk_start (connectionN k : ℕ) :
    Walk (fun c => if c + 1 < connectionN then some (c + 1) else none) (if k < connectionN then some k else none)
      (List.range' k (connectionN - k)) := by
  induction hn : connectionN - k generalizing k with
  | zero =>
    rw [if_neg (by omega)]
    rfl
  | succ n ih =>
    rw [if_pos (by omega), List.range'_succ]
    exact ⟨rfl, ih (k + 1) (by omega)⟩

/-! ## What every step keeps -/

/-- A report for the descriptor that the connection had when it was watched -/
structure World.Told (W : World) (r : Report) : Prop where
  inst : r.inst = decide (Even r.taken)
  taken : r.taken ≤ W.taken r.connection
  same : r.taken = W.taken r.connection → (W.conn r.connection).fd = -1 ∨ (W.conn r.connection).fd = r.fd

/-- The kernel watches an open connection, under its present instance. -/
structure World.Watches (W : World) (d : ℤ) (v : Watch) : Prop where
  isOpen : d ≠ -1
  fd : v.fd = d
  connFd : (W.conn v.connection).fd = d
  taken : v.taken = W.taken v.connection
  inst : v.inst = (W.conn v.connection).readInstance

structure World.Good (connectionN : ℕ) (W : World) : Prop where
  free : ∃ l, W.Free connectionN l
  inside : ∀ c, (W.conn c).fd ≠ -1 → c < connectionN
  distinct : ∀ c c', (W.conn c).fd ≠ -1 → (W.conn c).fd = (W.conn c').fd → c = c'
  inst : ∀ c, (W.conn c).readInstance = decide (Even (W.taken c))
  sameInst : ∀ c, (W.conn c).fd ≠ -1 → (W.conn c).writeInstance = (W.conn c).readInstance
  watched : ∀ fd v, W.epoll fd = some v → W.Watches fd v
  reported : ∀ r, r ∈ W.batch ∨ W.writing = some r → W.Told r

/-- All but the active bits, epoll and the reports -/
structure World.SameConns (W W' : World) : Prop where
  data : ∀ c, (W'.conn c).data = (W.conn c).data
  fd : ∀ c, (W'.conn c).fd = (W.conn c).fd
  readInstance : ∀ c, (W'.conn c).readInstance = (W.conn c).readInstance
  writeInstance : ∀ c, (W'.conn c).writeInstance = (W.conn c).writeInstance
  freeConnections : W'.cycle.freeConnections = W.cycle.freeConnections
  freeConnectionN : W'.cycle.freeConnectionN = W.cycle.freeConnectionN
  taken : W'.taken = W.taken

section

variable {connectionN c : ℕ} {W W' : World} {x : Connection}

@[simp] theorem conn_setConn_self : (W.setConn c x).conn c = x := Function.update_self ..

theorem conn_setConn_of_ne {c' : ℕ} (h : c' ≠ c) : (W.setConn c x).conn c' = W.conn c' := Function.update_of_ne h ..

theorem sameConns_refl (hcycle : W'.cycle = W.cycle) (htaken : W'.taken = W.taken) : W.SameConns W' := by
  have hconn : ∀ c, W'.conn c = W.conn c := by
    intro c
    rw [World.conn, World.conn, hcycle]
  exact ⟨fun c => by rw [hconn c], fun c => by rw [hconn c], fun c => by rw [hconn c], fun c => by rw [hconn c],
    by rw [hcycle], by rw [hcycle], htaken⟩

/-- The active bits of a connection change. -/
theorem sameConns_setConn (hdata : x.data = (W.conn c).data) (hfd : x.fd = (W.conn c).fd)
    (hread : x.readInstance = (W.conn c).readInstance) (hwrite : x.writeInstance = (W.conn c).writeInstance)
    (epoll : ℤ → Option Watch) : W.SameConns { W.setConn c x with epoll := epoll } := by
  have hconn : ∀ {β : Type} (f : Connection → β), f x = f (W.conn c) → ∀ c', f ((W.setConn c x).conn c') = f (W.conn c') := by
    intro β f hf c'
    by_cases hc : c' = c
    · subst hc
      rw [conn_setConn_self, hf]
    · rw [conn_setConn_of_ne hc]
  exact ⟨hconn Connection.data hdata, hconn Connection.fd hfd, hconn Connection.readInstance hread,
    hconn Connection.writeInstance hwrite, rfl, rfl, rfl⟩

theorem World.Good.of_sameConns (h : W.Good connectionN) (hsame : W.SameConns W')
    (hwatched : ∀ fd v, W'.epoll fd = some v → W.Watches fd v)
    (hreported : ∀ r, r ∈ W'.batch ∨ W'.writing = some r → W.Told r) : W'.Good connectionN := by
  obtain ⟨l, hl⟩ := h.free
  constructor
  case free =>
    refine ⟨l, ?_, hl.nodup, hsame.freeConnectionN ▸ hl.length, fun c => ?_⟩
    · rw [hsame.freeConnections, walk_congr fun c _ => hsame.data c]
      exact hl.walk
    · rw [hsame.fd]
      exact hl.mem c
  case inside =>
    intro c hfd
    exact h.inside c (hsame.fd c ▸ hfd)
  case distinct =>
    intro c c' hfd heq
    rw [hsame.fd] at hfd heq
    exact h.distinct c c' hfd (heq.trans (hsame.fd c'))
  case inst =>
    intro c
    rw [hsame.readInstance, hsame.taken]
    exact h.inst c
  case sameInst =>
    intro c hfd
    rw [hsame.writeInstance, hsame.readInstance]
    exact h.sameInst c (hsame.fd c ▸ hfd)
  case watched =>
    intro fd v hv
    have hw := hwatched fd v hv
    exact ⟨hw.isOpen, hw.fd, (hsame.fd _).trans hw.connFd, by rw [hw.taken, hsame.taken],
      by rw [hw.inst, hsame.readInstance]⟩
  case reported =>
    intro r hr
    obtain ⟨hinst, htaken, hfd⟩ := hreported r hr
    refine ⟨hinst, by rwa [hsame.taken], fun heq => ?_⟩
    rw [hsame.fd]
    exact hfd (by rw [heq, hsame.taken])

/-- The descriptor of an open connection is watched anew, or not any more. -/
theorem World.Good.rewatch (h : W.Good connectionN) (hopen : (W.conn c).fd ≠ -1) (hdata : x.data = (W.conn c).data)
    (hfd : x.fd = (W.conn c).fd) (hread : x.readInstance = (W.conn c).readInstance)
    (hwrite : x.writeInstance = (W.conn c).writeInstance) {v : Option Watch}
    (hv : ∀ v', v = some v' → ∃ write, v' = W.watch write c) :
    World.Good connectionN { W.setConn c x with epoll := Function.update W.epoll (W.conn c).fd v } := by
  refine h.of_sameConns (sameConns_setConn hdata hfd hread hwrite _) (fun fd v' hv' => ?_) h.reported
  have hv'' : Function.update W.epoll (W.conn c).fd v fd = some v' := hv'
  by_cases hfd : fd = (W.conn c).fd
  · rw [hfd, Function.update_self] at hv''
    obtain ⟨write, rfl⟩ := hv v' hv''
    refine ⟨hfd ▸ hopen, hfd.symm, hfd.symm, rfl, ?_⟩
    cases write with
    | false => rfl
    | true => exact h.sameInst c hopen
  · rw [Function.update_of_ne hfd] at hv''
    exact h.watched fd v' hv''

/-- The connection `c` changes, which is not watched afterwards. -/
theorem World.Good.of_others (h : W.Good connectionN) (hfree : ∃ l, W'.Free connectionN l)
    (hother : ∀ c', c' ≠ c → W'.conn c' = W.conn c') (htaken : ∀ c', c' ≠ c → W'.taken c' = W.taken c')
    (hmore : W.taken c ≤ W'.taken c)
    (hopen : (W'.conn c).fd ≠ -1 → c < connectionN ∧ (∀ c', c' ≠ c → (W.conn c').fd ≠ (W'.conn c).fd) ∧
      (W'.conn c).writeInstance = (W'.conn c).readInstance)
    (hinst : (W'.conn c).readInstance = decide (Even (W'.taken c)))
    (hwatched : ∀ d v, W'.epoll d = some v → W.Watches d v ∧ v.connection ≠ c)
    (hreported : ∀ r, r ∈ W'.batch ∨ W'.writing = some r → W.Told r)
    (htold : W.taken c = W'.taken c → (W'.conn c).fd = -1) : W'.Good connectionN := by
  constructor
  case free => exact hfree
  case inside =>
    intro c' hc'
    by_cases hc : c' = c
    · subst hc
      exact (hopen hc').1
    · rw [hother c' hc] at hc'
      exact h.inside c' hc'
  case distinct =>
    intro c₁ c₂ hc₁ heq
    have hc₂ : (W'.conn c₂).fd ≠ -1 := heq ▸ hc₁
    by_cases h₁ : c₁ = c
    · subst h₁
      by_contra hne
      have hne' : c₂ ≠ c₁ := fun heq => hne heq.symm
      rw [hother c₂ hne'] at heq
      exact (hopen hc₁).2.1 c₂ hne' heq.symm
    · rw [hother c₁ h₁] at hc₁ heq
      by_cases h₂ : c₂ = c
      · subst h₂
        exact absurd heq ((hopen hc₂).2.1 c₁ h₁)
      · rw [hother c₂ h₂] at heq
        exact h.distinct c₁ c₂ hc₁ heq
  case inst =>
    intro c'
    by_cases hc : c' = c
    · subst hc
      exact hinst
    · rw [hother c' hc, htaken c' hc]
      exact h.inst c'
  case sameInst =>
    intro c' hc'
    by_cases hc : c' = c
    · subst hc
      exact (hopen hc').2.2
    · rw [hother c' hc] at hc' ⊢
      exact h.sameInst c' hc'
  case watched =>
    intro d v hv
    obtain ⟨hw, hc⟩ := hwatched d v hv
    refine ⟨hw.isOpen, hw.fd, ?_, ?_, ?_⟩
    · rw [hother _ hc]
      exact hw.connFd
    · rw [htaken _ hc]
      exact hw.taken
    · rw [hother _ hc]
      exact hw.inst
  case reported =>
    intro r hr
    obtain ⟨hrinst, hle, hsame⟩ := hreported r hr
    by_cases hc : r.connection = c
    · subst hc
      exact ⟨hrinst, le_trans hle hmore, fun heq => .inl (htold (by omega))⟩
    · refine ⟨hrinst, ?_, ?_⟩
      · rw [htaken _ hc]
        exact hle
      · rw [htaken _ hc, hother _ hc]
        exact hsame

/-! ## Taking a connection -/

theorem World.Good.getConnection (h : W.Good connectionN) {fd : ℤ} (hfd : fd ≠ -1) (hnew : ∀ c, (W.conn c).fd ≠ fd) :
    (W.getConnection fd).Good connectionN := by
  obtain ⟨l, hl⟩ := h.free
  cases l with
  | nil =>
    have hnone : W.cycle.freeConnections = none := hl.walk
    rw [World.getConnection, Cycle.getConnection, hnone]
    exact h
  | cons c l =>
    obtain ⟨hfirst, hrest⟩ := hl.walk
    obtain ⟨hout, hnodup⟩ := List.nodup_cons.mp hl.nodup
    obtain ⟨hin, hclosed⟩ := (hl.mem c).mp List.mem_cons_self
    obtain ⟨x, hx⟩ : ∃ x : Connection,
        x = ⟨none, fd, !(W.conn c).readInstance, !(W.conn c).readInstance, false, false⟩ := ⟨_, rfl⟩
    obtain ⟨W', hW'⟩ : ∃ W' : World, W' = { W.setConn c x with
        cycle := { (W.cycle.set c x) with
          freeConnections := (W.conn c).data, freeConnectionN := W.cycle.freeConnectionN - 1 },
        taken := Function.update W.taken c (W.taken c + 1) } := ⟨_, rfl⟩
    have heq : W.getConnection fd = W' := by
      rw [World.getConnection, Cycle.getConnection, hfirst, hW', hx]
      rfl
    have hself : W'.conn c = x := by
      rw [hW']
      exact Function.update_self ..
    have hother : ∀ c', c' ≠ c → W'.conn c' = W.conn c' := by
      intro c' hc
      rw [hW']
      exact Function.update_of_ne hc ..
    have htaken : W'.taken c = W.taken c + 1 := by
      rw [hW']
      exact Function.update_self ..
    have hwalk : Walk (fun c => (W'.conn c).data) (W.conn c).data l := by
      rw [walk_congr fun c' hc' => by rw [hother c' fun heq => hout (heq ▸ hc')]]
      exact hrest
    rw [heq]
    refine h.of_others ⟨l, ?_, hnodup, ?_, fun c' => ?_⟩ hother (fun c' hc => ?_) (by omega) (fun _ => ⟨hin, ?_, ?_⟩) ?_
      (fun d v hv => ?_) (fun r hr => h.reported r (by rw [hW'] at hr; exact hr)) (fun hsame => by omega)
    · rw [hW'] at hwalk ⊢
      exact hwalk
    · have hlen := hl.length
      rw [List.length_cons] at hlen
      rw [hW']
      show l.length = W.cycle.freeConnectionN - 1
      omega
    · by_cases hc : c' = c
      · subst hc
        rw [hself, hx]
        exact iff_of_false hout fun h => hfd h.2
      · rw [hother c' hc, ← hl.mem, List.mem_cons]
        exact (or_iff_right hc).symm
    · rw [hW']
      exact Function.update_of_ne hc ..
    · intro c' _
      rw [hself, hx]
      exact hnew c'
    · rw [hself, hx]
    · rw [hself, htaken, hx, h.inst, Bool.eq_iff_iff, Bool.not_eq_true', decide_eq_false_iff_not, decide_eq_true_iff,
        Nat.even_add_one]
    · have hw : W.Watches d v := h.watched d v (by rw [hW'] at hv; exact hv)
      refine ⟨hw, fun heq => hw.isOpen ?_⟩
      rw [← hw.connFd, heq, hclosed]

/-! ## Closing a connection -/

theorem World.Good.closeAcceptedConnection (h : W.Good connectionN) (hopen : (W.conn c).fd ≠ -1) :
    (W.closeAcceptedConnection c).Good connectionN := by
  obtain ⟨l, hl⟩ := h.free
  obtain ⟨x, hx⟩ : ∃ x : Connection, x = { W.conn c with data := W.cycle.freeConnections, fd := -1 } := ⟨_, rfl⟩
  obtain ⟨W', hW'⟩ : ∃ W', W' = W.closeAcceptedConnection c := ⟨_, rfl⟩
  have hself : W'.conn c = x := by
    rw [hW', hx]
    simp [World.closeAcceptedConnection, World.closeSocket, World.conn, Cycle.set, Cycle.freeConnection]
  have hother : ∀ c', c' ≠ c → W'.conn c' = W.conn c' := by
    intro c' hc
    rw [hW']
    simp [World.closeAcceptedConnection, World.closeSocket, World.conn, Cycle.set, Cycle.freeConnection, hc]
  have htaken : W'.taken = W.taken := by rw [hW']; rfl
  have hclosed : (W'.conn c).fd = -1 := by rw [hself, hx]
  have hdata : (W'.conn c).data = W.cycle.freeConnections := by rw [hself, hx]
  have hout : c ∉ l := fun hin => hopen ((hl.mem c).mp hin).2
  have hrest : Walk (fun c => (W'.conn c).data) W.cycle.freeConnections l := by
    rw [walk_congr fun c' hc' => by rw [hother c' fun heq => hout (heq ▸ hc')]]
    exact hl.walk
  rw [← hW']
  refine h.of_others ⟨c :: l, ⟨?_, ?_⟩, List.nodup_cons.mpr ⟨hout, hl.nodup⟩, ?_, fun c' => ?_⟩ hother
    (fun c' _ => by rw [htaken]) (by rw [htaken]) (fun hne => absurd hclosed hne) ?_ (fun d v hv => ?_)
    (fun r hr => h.reported r (by rw [hW'] at hr; exact hr)) (fun _ => hclosed)
  · rw [hW']
    rfl
  · show Walk _ (W'.conn c).data l
    rwa [hdata]
  · rw [List.length_cons, hl.length, hW']
    rfl
  · rw [List.mem_cons, hl.mem]
    by_cases hc : c' = c
    · subst hc
      exact iff_of_true (.inl rfl) ⟨h.inside c' hopen, hclosed⟩
    · rw [hother c' hc]
      exact or_iff_right hc
  · rw [hself, htaken, ← h.inst, hx]
  · have hv' : Function.update W.epoll (W.conn c).fd none d = some v := by
      rw [hW'] at hv
      exact hv
    have hd : d ≠ (W.conn c).fd := by
      intro heq
      rw [heq, Function.update_self] at hv'
      cases hv'
    rw [Function.update_of_ne hd] at hv'
    have hw := h.watched d v hv'
    exact ⟨hw, fun heq => hd (heq ▸ hw.connFd.symm)⟩

theorem World.Good.closeConnection (h : W.Good connectionN) (c : ℕ) : (W.closeConnection c).Good connectionN := by
  rw [World.closeConnection]
  split
  · exact h
  · next hopen =>
    obtain ⟨W', hW'⟩ : ∃ W', W' = W.setConn c { W.conn c with readActive := false, writeActive := false } := ⟨_, rfl⟩
    have hsame : W.SameConns W' := hW' ▸
      sameConns_setConn (x := { W.conn c with readActive := false, writeActive := false }) rfl rfl rfl rfl W.epoll
    have hgood : W'.Good connectionN := h.of_sameConns hsame (hW' ▸ h.watched) (hW' ▸ h.reported)
    rw [← hW']
    exact hgood.closeAcceptedConnection (hsame.fd c ▸ hopen)

/-! ## The other steps -/

theorem World.Good.epoll (h : W.Good connectionN) (hopen : (W.conn c).fd ≠ -1) (write : Bool) :
    (W.epollAddEvent write c).Good connectionN ∧ (W.epollDelEvent write c).Good connectionN ∧
      (W.epollAddConnection c).Good connectionN := by
  refine ⟨?_, ?_, ?_⟩
  · rw [World.epollAddEvent]
    split
    · have hv : ∀ v', some (W.watch write c) = some v' → ∃ write, v' = W.watch write c :=
        fun v' hv' => ⟨write, (Option.some.inj hv').symm⟩
      cases write with
      | false => exact h.rewatch (x := World.activate false true (W.conn c)) hopen rfl rfl rfl rfl hv
      | true => exact h.rewatch (x := World.activate true true (W.conn c)) hopen rfl rfl rfl rfl hv
    · exact h
  · rw [World.epollDelEvent]
    split
    · have hv : ∀ v', (if World.otherActive write (W.conn c) then some (W.watch write c) else none) = some v' →
          ∃ write, v' = W.watch write c := by
        intro v' hv'
        split at hv'
        · exact ⟨write, (Option.some.inj hv').symm⟩
        · cases hv'
      cases write with
      | false => exact h.rewatch (x := World.activate false false (W.conn c)) hopen rfl rfl rfl rfl hv
      | true => exact h.rewatch (x := World.activate true false (W.conn c)) hopen rfl rfl rfl rfl hv
    · exact h
  · rw [World.epollAddConnection]
    split
    · exact h
    · exact h.rewatch (x := { W.conn c with readActive := true, writeActive := true }) hopen rfl rfl rfl rfl fun v' hv' => ⟨false, (Option.some.inj hv').symm⟩

theorem World.Good.told (h : W.Good connectionN) {r : Report} (hr : W.epoll r.fd = some r.toWatch) : W.Told r := by
  have hw := h.watched r.fd r.toWatch hr
  exact ⟨by rw [hw.inst, h.inst, hw.taken], le_of_eq hw.taken, fun _ => .inr hw.connFd⟩

theorem World.Good.step (h : W.Good connectionN) {act : Act} (hallowed : Allowed W act) :
    (step W act).Good connectionN := by
  cases act with
  | get fd => exact h.getConnection hallowed.1 hallowed.2
  | close c => exact h.closeConnection c
  | closeAccepted c => exact h.closeAcceptedConnection hallowed
  | addEvent write c => exact (h.epoll hallowed write).1
  | delEvent write c => exact (h.epoll hallowed write).2.1
  | addConnection c => exact (h.epoll hallowed false).2.2
  | wait reports =>
    obtain ⟨-, -, hwatched⟩ := hallowed
    refine h.of_sameConns (sameConns_refl rfl rfl) h.watched fun r hr => ?_
    obtain hr | hr := hr
    · exact h.told (hwatched r hr)
    · exact h.reported r (.inr hr)
  | read =>
    show W.readEvent.Good connectionN
    rw [World.readEvent]
    cases hbatch : W.batch with
    | nil => exact h
    | cons r batch =>
      refine h.of_sameConns (sameConns_refl rfl rfl) h.watched fun r' hr' => h.reported r' ?_
      rw [hbatch, List.mem_cons]
      obtain hr' | hr' := hr'
      · exact .inl (.inr hr')
      · dsimp only at hr'
        split at hr'
        · exact .inl (.inl (Option.some.inj hr').symm)
        · cases hr'
  | write =>
    refine h.of_sameConns (sameConns_refl rfl rfl) h.watched fun r hr => h.reported r (hr.imp_right fun hnone => ?_)
    cases hnone

theorem good_start (connectionN : ℕ) (garbage : ℕ → Bool × Bool × Bool) :
    (World.start connectionN garbage).Good connectionN := by
  constructor
  case free =>
    refine ⟨List.range connectionN, ?_, List.nodup_range, List.length_range, fun c => ?_⟩
    · rw [List.range_eq_range']
      exact walk_start connectionN 0
    · rw [List.mem_range]
      exact (and_iff_left rfl).symm
  case inside => exact fun c hopen => absurd rfl hopen
  case distinct => exact fun c c' hopen => absurd rfl hopen
  case inst => exact fun c => rfl
  case sameInst => exact fun c hopen => absurd rfl hopen
  case watched => simp [World.start]
  case reported => simp [World.start]

/-! ## What reports are handed to -/

/-- A report passes when its connection is open and was taken an even number of times since. -/
theorem World.Good.passes_iff (h : W.Good connectionN) {r : Report} (hr : W.Told r) :
    W.cycle.passes r = true ↔
      (W.conn r.connection).fd ≠ -1 ∧ ∃ k, W.taken r.connection = r.taken + 2 * k := by
  have hle := hr.taken
  have hpasses : W.cycle.passes r = true ↔
      (W.conn r.connection).fd ≠ -1 ∧ (W.conn r.connection).readInstance = r.inst := decide_eq_true_iff
  rw [hpasses, h.inst, hr.inst, decide_eq_decide, Nat.even_iff, Nat.even_iff]
  apply and_congr_right
  intro _
  constructor
  · intro heven
    exact ⟨(W.taken r.connection - r.taken) / 2, by omega⟩
  · rintro ⟨k, hk⟩
    omega

/-- The second test of a report is the first one again. -/
theorem World.Good.handsWrite_iff (h : W.Good connectionN) (r : Report) :
    W.cycle.handsWrite r = true ↔
      W.cycle.passes r = true ∧ r.writable = true ∧ (W.conn r.connection).writeActive = true := by
  have hwrite : W.cycle.handsWrite r = true ↔ r.writable = true ∧ (W.conn r.connection).writeActive = true ∧
      (W.conn r.connection).fd ≠ -1 ∧ (W.conn r.connection).writeInstance = r.inst := decide_eq_true_iff
  have hpasses : W.cycle.passes r = true ↔
      (W.conn r.connection).fd ≠ -1 ∧ (W.conn r.connection).readInstance = r.inst := decide_eq_true_iff
  rw [hwrite, hpasses]
  constructor
  · rintro ⟨hwritable, hactive, hopen, hinst⟩
    exact ⟨⟨hopen, (h.sameInst _ hopen).symm.trans hinst⟩, hwritable, hactive⟩
  · rintro ⟨⟨hopen, hinst⟩, hwritable, hactive⟩
    exact ⟨hwritable, hactive, hopen, (h.sameInst _ hopen).trans hinst⟩

end

/-- Over every run: the free list holds the connections that are not open, each once, and no two connections have one
descriptor. A report that is still to be handed over passes the test exactly when its connection is open and was taken an
even number of times since the descriptor was watched; and unless it was taken twice since, a handler that runs is one
for the very descriptor that the kernel reported. -/
theorem reports_reach_their_connection (connectionN : ℕ) (garbage : ℕ → Bool × Bool × Bool) {acts : List Act} {W : World}
    (hrun : Reaches (ofFun step) Allowed (.start connectionN garbage) acts W) :
    (∃ l, W.Free connectionN l) ∧
    (∀ c c', (W.conn c).fd ≠ -1 → (W.conn c).fd = (W.conn c').fd → c = c') ∧
    ∀ r, r ∈ W.batch ∨ W.writing = some r →
      (W.cycle.passes r = true ↔ (W.conn r.connection).fd ≠ -1 ∧ ∃ k, W.taken r.connection = r.taken + 2 * k) ∧
      (W.cycle.handsRead r = true ∨ W.cycle.handsWrite r = true → W.taken r.connection < r.taken + 2 →
        (W.conn r.connection).fd = r.fd) := by
  have hgood : W.Good connectionN := hrun.invariant
    (fun W act W' h hallowed (htaken : step W act = W') => htaken ▸ h.step hallowed) (good_start connectionN garbage)
  refine ⟨hgood.free, hgood.distinct, fun r hr => ?_⟩
  have htold := hgood.reported r hr
  have hiff := hgood.passes_iff htold
  refine ⟨hiff, fun hhands hfew => ?_⟩
  have hpasses : W.cycle.passes r = true := by
    obtain hread | hwrite := hhands
    · exact (decide_eq_true_iff.mp hread).1
    · exact ((hgood.handsWrite_iff r).mp hwrite).1
  obtain ⟨hopen, k, hk⟩ := hiff.mp hpasses
  exact (htold.same (by omega)).resolve_left hopen

/-- Descriptor 7 is watched and becomes readable, and is closed before its report is looked at. -/
def exampleReport : Report := ⟨⟨0, false, 7, 1⟩, true, false⟩

def exampleActs : List Act := [.get 7, .addEvent false 0, .wait [exampleReport], .close 0]

theorem exampleActs_reached : Reaches (ofFun step) Allowed (.start 1 fun _ => (false, false, false)) exampleActs
    (exampleActs.foldl step (.start 1 fun _ => (false, false, false))) :=
  .cons ⟨by decide, by simp [World.start, World.conn]⟩ rfl
    (.cons (show (7 : ℤ) ≠ -1 by decide) rfl
      (.cons ⟨rfl, rfl, by simp [exampleReport]; rfl⟩ rfl
        (.cons trivial rfl (.nil _))))

theorem reports_reach_their_connection_example :
    (exampleActs.foldl step (.start 1 fun _ => (false, false, false))).cycle.passes exampleReport = false := by
  have hiff := ((reports_reach_their_connection 1 (fun _ => (false, false, false)) exampleActs_reached).2.2 exampleReport
    (.inl (by decide))).1
  rw [Bool.eq_false_iff, Ne, hiff]
  exact fun hopen => hopen.1 (by decide)

end Tefs.Proxy.Connections
