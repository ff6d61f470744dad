import Mathlib.Data.List.Infix
import Tefs.Lib.Runs

/-! # The pool of database connections

Source: `gfs_mysql_pool_create`, `gfs_mysql_get` and `gfs_mysql_put` of `nameservice/sql/gfs_dbpool.c`, and the functions of
`nameservice/sql/gfs_sql.c`, each of which puts back once what it got and sets `used` before if the server was lost.

The list runs through the `next` of the nodes. A node that is put back as lost is freed, and a new one is connected in its
place; if that fails, the function returns before it reaches the list and the counters. `conn_num` and `used_num` stay
between 0 and `mysql_conn`, so they are not cut off to 32 bits here.
-/

namespace Tefs.NameServer.DbPool
open Runs
set_option autoImplicit false

variable {Link Res : Type}

/-- `gfs_mysql_t`, with the `MYSQL` and the `MYSQL_RES` that it points to -/
structure Mysql (Link Res : Type) where
  conn : Link
  res : Option Res
  used : ℤ
  deriving DecidableEq, Repr

/-- `gfs_mysql_pool_t` -/
structure MysqlPool (Link Res : Type) where
  conn : List (Mysql Link Res) := []
  connNum : ℤ := 0
  usedNum : ℤ := 0
  deriving DecidableEq, Repr

/-- How `malloc` and `gfs_connect_to` end -/
inductive Connect (Link : Type)
  | noMemory
  | refused
  | connected (conn : Link)
  deriving DecidableEq, Repr

/-- The new node; its `used` is set by the callers. -/
def Connect.node : Connect Link → Option (Mysql Link Res)
  | .noMemory => none
  | .refused => none
  | .connected conn => some { conn := conn, res := none, used := 0 }

def Connect.fails : Connect Link → Bool
  | .noMemory => true
  | .refused => true
  | .connected _ => false

namespace MysqlPool

/-- The loop of `gfs_mysql_pool_create`; the first number is what is left of `conn`. -/
def createLoop : ℕ → (ℕ → Connect Link) → MysqlPool Link Res → Option (MysqlPool Link Res)
  | 0, _, pool => some pool
  | n + 1, connects, pool =>
    match (connects 0).node with
    | none => none
    | some node =>
      createLoop n (fun i => connects (i + 1)) { pool with conn := node :: pool.conn, connNum := pool.connNum + 1 }

/-- `gfs_mysql_pool_create`, for `conn` connections -/
def create (conn : ℕ) (connects : ℕ → Connect Link) : Option (MysqlPool Link Res) := createLoop conn connects {}

/-- `gfs_mysql_get` -/
def get (pool : MysqlPool Link Res) : Option (Mysql Link Res) × MysqlPool Link Res :=
  if pool.connNum ≠ 0 then
    match pool.conn with
    | [] => (none, pool)
    | node :: rest => (some node, { conn := rest, connNum := pool.connNum - 1, usedNum := pool.usedNum + 1 })
  else (none, pool)

/-- `gfs_mysql_put`, and what it returns -/
def put (mysql : Mysql Link Res) (connect : Connect Link) (pool : MysqlPool Link Res) : MysqlPool Link Res × ℤ :=
  match if mysql.used = 1 then connect.node else some mysql with
  | none => (pool, -1)
  | some node =>
    ({ conn := { node with res := none, used := 0 } :: pool.conn
       connNum := pool.connNum + 1
       usedNum := pool.usedNum - 1 }, 0)

end MysqlPool

/-! ## The pool and its callers -/

/-- The pool, and the connections that were got and not yet put back -/
structure System (Link Res : Type) where
  pool : MysqlPool Link Res
  held : List (Mysql Link Res)
  deriving DecidableEq, Repr

/-- A put of one of the connections that are held, which is marked before if it is broken -/
inductive Action (Link : Type)
  | get
  | put (i : ℕ) (broken : Bool) (connect : Connect Link)
  deriving DecidableEq, Repr

def mark (broken : Bool) (mysql : Mysql Link Res) : Mysql Link Res :=
  if broken then { mysql with used := 1 } else mysql

def step (s : System Link Res) : Action Link → System Link Res
  | .get =>
    match s.pool.get with
    | (none, pool) => { s with pool := pool }
    | (some node, pool) => { pool := pool, held := node :: s.held }
  | .put i broken connect =>
    match s.held[i]? with
    | none => s
    | some mysql => { pool := (s.pool.put (mark broken mysql) connect).1, held := s.held.eraseIdx i }

/-- The counters are right, and if nothing is held, all `n` connections are in the list. -/
structure Sound (n : ℕ) (s : System Link Res) : Prop where
  connNum : s.pool.connNum = s.pool.conn.length
  usedNum : s.pool.usedNum = s.held.length
  whole : s.held = [] → s.pool.conn.length = n

/-- In whatever states a run passes through, the pool is sound. -/
def SoundThrough (n : ℕ) (s : System Link Res) (actions : List (Action Link)) : Prop :=
  ∀ as, as <+: actions → Sound n (as.foldl step s)

/-- A broken connection is put back, and the new one fails. -/
def Loses (s : System Link Res) : Action Link → Prop
  | .get => False
  | .put i broken connect => i < s.held.length ∧ broken = true ∧ connect.fails = true

instance (s : System Link Res) : (a : Action Link) → Decidable (Loses s a)
  | .get => .isFalse id
  | .put _ _ _ => inferInstanceAs (Decidable (_ ∧ _ ∧ _))

/-! ## What is lost -/

/-- Of `n` connections, `k` were lost, and they are still counted as used. -/
structure Counted (n k : ℕ) (s : System Link Res) : Prop where
  connNum : s.pool.connNum = s.pool.conn.length
  usedNum : s.pool.usedNum = s.held.length + k
  total : s.pool.conn.length + s.held.length + k = n
  unused : ∀ mysql ∈ s.pool.conn ++ s.held, mysql.used = 0

section

variable {n k : ℕ} {s : System Link Res}

theorem Counted.sound_iff (h : Counted n k s) : Sound n s ↔ k = 0 := by
  constructor
  · intro hsound
    have := h.usedNum
    have := hsound.usedNum
    omega
  · rintro rfl
    refine ⟨h.connNum, by simpa using h.usedNum, fun hheld => ?_⟩
    have htotal := h.total
    rwa [hheld] at htotal

/-- The counters are between 0 and the number of connections. -/
theorem Counted.bounds (h : Counted n k s) :
    (0 ≤ s.pool.connNum ∧ s.pool.connNum ≤ n) ∧ 0 ≤ s.pool.usedNum ∧ s.pool.usedNum ≤ n := by
  have := h.connNum
  have := h.usedNum
  have := h.total
  omega

theorem createLoop_counted {connects : ℕ → Connect Link} {pool pool' : MysqlPool Link Res} {m : ℕ}
    (h : Counted n 0 ⟨pool, []⟩) (hcreate : MysqlPool.createLoop m connects pool = some pool') :
    Counted (n + m) 0 ⟨pool', []⟩ := by
  induction m generalizing n connects pool with
  | zero =>
    cases hcreate
    exact h
  | succ m ih =>
    rw [MysqlPool.createLoop] at hcreate
    cases hconnect : connects 0 with
    | noMemory => rw [hconnect] at hcreate; cases hcreate
    | refused => rw [hconnect] at hcreate; cases hcreate
    | connected conn =>
      rw [hconnect] at hcreate
      have hnext := ih (n := n + 1) ?_ hcreate
      · rwa [Nat.add_assoc, Nat.add_comm 1 m] at hnext
      · have hconn : pool.connNum = pool.conn.length := h.connNum
        have htotal : pool.conn.length + 0 + 0 = n := h.total
        refine ⟨?_, h.usedNum, ?_, ?_⟩
        · simp [hconn]
        · simpa using htotal
        · intro mysql hmem
          rcases List.mem_cons.mp hmem with rfl | hmem
          · rfl
          · exact h.unused mysql hmem

theorem create_counted {connects : ℕ → Connect Link} {pool : MysqlPool Link Res}
    (hcreate : MysqlPool.create n connects = some pool) : Counted n 0 ⟨pool, []⟩ := by
  have hempty : Counted 0 0 (⟨{}, []⟩ : System Link Res) := ⟨rfl, rfl, rfl, fun _ hmem => absurd hmem List.not_mem_nil⟩
  have hcounted := createLoop_counted hempty hcreate
  rwa [Nat.zero_add] at hcounted

/-! ## One step -/

theorem Counted.get (h : Counted n k s) : Counted n k (step s .get) := by
  obtain ⟨⟨conn, connNum, usedNum⟩, held⟩ := s
  have hconn : connNum = conn.length := h.connNum
  have hused : usedNum = held.length + k := h.usedNum
  have htotal : conn.length + held.length + k = n := h.total
  cases conn with
  | nil =>
    rw [step, MysqlPool.get, if_neg (by simpa using hconn)]
    exact h
  | cons node rest =>
    rw [List.length_cons] at hconn htotal
    rw [step, MysqlPool.get, if_pos (by change connNum ≠ 0; omega)]
    refine ⟨?_, ?_, ?_, fun mysql hmem => h.unused mysql ?_⟩
    · change connNum - 1 = rest.length
      omega
    · change usedNum + 1 = (held.length + 1 : ℕ) + k
      omega
    · change rest.length + (held.length + 1) + k = n
      omega
    · exact List.perm_middle.mem_iff.mp hmem

/-- What is put is gone from the callers, and in the list unless it was lost. -/
theorem Counted.put (h : Counted n k s) {i : ℕ} (hi : i < s.held.length) (broken : Bool) (connect : Connect Link) :
    Counted n (k + if Loses s (.put i broken connect) then 1 else 0) (step s (.put i broken connect)) := by
  obtain ⟨⟨conn, connNum, usedNum⟩, held⟩ := s
  have hconn : connNum = conn.length := h.connNum
  have hused : usedNum = held.length + k := h.usedNum
  have htotal : conn.length + held.length + k = n := h.total
  have hi : i < held.length := hi
  have herased : (held.eraseIdx i).length + 1 = held.length := List.length_eraseIdx_add_one hi
  have hunused : ∀ mysql ∈ conn ++ held.eraseIdx i, mysql.used = 0 := fun mysql hmem =>
    h.unused mysql ((List.Sublist.refl conn).append (List.eraseIdx_sublist held i) |>.subset hmem)
  have hkept : ∀ node : Mysql Link Res, Counted n k
      ⟨⟨{ node with res := none, used := 0 } :: conn, connNum + 1, usedNum - 1⟩, held.eraseIdx i⟩ := by
    intro node
    refine ⟨?_, ?_, ?_, fun mysql hmem => ?_⟩
    · change connNum + 1 = (conn.length + 1 : ℕ)
      omega
    · change usedNum - 1 = (held.eraseIdx i).length + k
      omega
    · change conn.length + 1 + (held.eraseIdx i).length + k = n
      omega
    · rcases List.mem_cons.mp hmem with rfl | hmem
      · rfl
      · exact hunused mysql hmem
  have hlost : Counted n (k + 1) ⟨⟨conn, connNum, usedNum⟩, held.eraseIdx i⟩ := by
    refine ⟨hconn, ?_, ?_, hunused⟩
    · change usedNum = (held.eraseIdx i).length + (k + 1 : ℕ)
      omega
    · change conn.length + (held.eraseIdx i).length + (k + 1) = n
      omega
  have hused₀ : held[i].used = 0 := h.unused _ (List.mem_append_right conn (List.getElem_mem hi))
  rw [step, List.getElem?_eq_getElem hi]
  cases broken with
  | false =>
    have hstays : ¬ Loses ⟨⟨conn, connNum, usedNum⟩, held⟩ (.put i false connect) := fun hl => Bool.false_ne_true hl.2.1
    have hunmarked : ¬ (mark false held[i]).used = 1 := by
      rw [mark, if_neg Bool.false_ne_true, hused₀]
      decide
    rw [if_neg hstays]
    dsimp only
    rw [MysqlPool.put, if_neg hunmarked]
    exact hkept _
  | true =>
    have hmarked : (mark true held[i]).used = 1 := rfl
    dsimp only
    rw [MysqlPool.put, if_pos hmarked]
    cases connect with
    | noMemory =>
      rw [if_pos ⟨hi, rfl, rfl⟩]
      exact hlost
    | refused =>
      rw [if_pos ⟨hi, rfl, rfl⟩]
      exact hlost
    | connected conn' =>
      rw [if_neg fun hl => Bool.false_ne_true hl.2.2]
      exact hkept _

theorem Counted.step (h : Counted n k s) (a : Action Link) :
    Counted n (k + if Loses s a then 1 else 0) (step s a) := by
  cases a with
  | get => exact h.get
  | put i broken connect =>
    by_cases hi : i < s.held.length
    · exact h.put hi broken connect
    · have hnone : s.held[i]? = none := List.getElem?_eq_none (Nat.le_of_not_lt hi)
      rw [if_neg fun hl => hi hl.1, DbPool.step, hnone]
      exact h

/-! ## Runs -/

theorem Counted.sound_run_iff (h : Counted n 0 s) (actions : List (Action Link)) :
    SoundThrough n s actions ↔ allAllowed DbPool.step (fun s a => ¬ Loses s a) s actions := by
  induction actions generalizing s with
  | nil =>
    refine ⟨fun _ => trivial, fun _ as has => ?_⟩
    rw [List.prefix_nil.mp has]
    exact h.sound_iff.mpr rfl
  | cons a actions ih =>
    constructor
    · intro hall
      have hstep := h.step a
      have hzero := hstep.sound_iff.mp (hall [a] (List.prefix_append [a] actions))
      have hkeeps : ¬ Loses s a := by
        intro hloses
        rw [if_pos hloses] at hzero
        cases hzero
      rw [if_neg hkeeps] at hstep
      exact ⟨hkeeps, (ih hstep).mp fun as has => hall (a :: as) (List.cons_prefix_cons.mpr ⟨rfl, has⟩)⟩
    · rintro ⟨hkeeps, hrest⟩ as has
      have hstep := h.step a
      rw [if_neg hkeeps] at hstep
      rcases List.prefix_cons_iff.mp has with rfl | ⟨rest, rfl, hprefixed⟩
      · exact h.sound_iff.mpr rfl
      · exact (ih hstep).mpr hrest rest hprefixed

/-- The runs of a pool of `n` connections are sound exactly if no step loses one. -/
theorem pool_sound_iff {connects : ℕ → Connect Link} {pool : MysqlPool Link Res}
    (hcreate : MysqlPool.create n connects = some pool) (actions : List (Action Link)) :
    SoundThrough n ⟨pool, []⟩ actions ↔ allAllowed DbPool.step (fun s a => ¬ Loses s a) ⟨pool, []⟩ actions :=
  (create_counted hcreate).sound_run_iff actions

end

/-- A pool of one connection -/
def single : MysqlPool Unit Unit := { conn := [⟨(), none, 0⟩], connNum := 1 }

/-- A broken connection is replaced. -/
theorem single_sound : SoundThrough 1 ⟨single, []⟩ [.get, .get, .put 0 true (.connected ())] := by
  have hcreate : MysqlPool.create 1 (fun _ => .connected ()) = some single := rfl
  exact (pool_sound_iff hcreate _).mpr (by decide)

/-- The server is down while it is put back: it is lost, and stays counted. -/
theorem single_lost : MysqlPool.create 1 (fun _ => .connected ()) = some single ∧
    [.get, .put 0 true .refused].foldl step ⟨single, []⟩ = ⟨{ usedNum := 1 }, []⟩ ∧
    ¬ SoundThrough 1 ⟨single, []⟩ [.get, .put 0 true .refused] := by
  refine ⟨rfl, rfl, fun h => ?_⟩
  have hwhole := (h _ List.prefix_rfl).whole rfl
  cases hwhole

end Tefs.NameServer.DbPool
