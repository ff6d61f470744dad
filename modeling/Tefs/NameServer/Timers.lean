import Mathlib.Algebra.Order.Ring.Nat
import Mathlib.Data.Int.Notation
import Mathlib.Data.List.Nodup
import Mathlib.Data.List.Perm.Subperm
import Tefs.Lib.RedBlack

/-! # The timers of the event loop

Source: `nameservice/event/gfs_timer.c`, and `gfs_net_timer_handle` of `net/gfs_net.c`, which deletes its own timer.

A timer is known by its address. The tree is ordered by the 32-bit key, then by the address. Beside its key every timer
has here the time its key stands for, in milliseconds that do not wrap around. What a handler deletes depends on the
turn and the timer, which covers every handler that looks at the state.
-/

namespace Tefs.NameServer.Timers
open RedBlack
set_option autoImplicit false

/-! ## The functions -/

/-- `gfs_timer_t`; `deadline` is kept for the statements. -/
structure Timer where
  key : BitVec 32
  secs : ℕ
  times : ℤ
  deadline : ℕ
  deriving DecidableEq, Repr

/-- `gfs_timer_loop_t`, and the timers by their addresses -/
structure TimerLoop where
  timer : ℕ → Timer
  gfsree : RedBlack.Tree (BitVec 32 × ℕ)

def gfsOk : ℤ := 0
def gfsParamFunErr : ℤ := 2

/-- The way of `gfs_rbtree_insert_timer_value` and `gfs_rbtree_lookup_timer_value` at a node -/
def timerSide (key : BitVec 32) (t : ℕ) (node : BitVec 32 × ℕ) : Option Side :=
  if key < node.1 then some .left
  else if node.1 < key then some .right
  else if t < node.2 then some .left
  else if node.2 < t then some .right
  else none

namespace TimerLoop

def setTimer (t : ℕ) (x : Timer) (s : TimerLoop) : TimerLoop := { s with timer := Function.update s.timer t x }

/-- `gfs_timer_set` at the time `now` -/
def timerSet (now t : ℕ) (msecs : ℕ) (times : ℤ) (s : TimerLoop) : TimerLoop :=
  if times = 0 ∨ msecs < 10 then s
  else s.setTimer t ⟨BitVec.ofNat 32 now + BitVec.ofNat 32 (msecs / 10), msecs / 10, times, now + msecs / 10⟩

def timerAdd (t : ℕ) (s : TimerLoop) : Option (ℤ × TimerLoop) :=
  if (s.timer t).times = 0 then some (gfsParamFunErr, s)
  else if (s.gfsree.lookup (timerSide (s.timer t).key t)).isSome then some (gfsOk, s)
  else
    (s.gfsree.insert (timerSide (s.timer t).key t) ((s.timer t).key, t)).bind fun gfsree =>
    some (gfsOk, { s with gfsree := gfsree })

/-- `gfs_rbtree_delete(&loop->gfsree, &timer->node)`, which clears the key -/
def rbtreeDelete (t : ℕ) (s : TimerLoop) : Option TimerLoop :=
  (s.gfsree.delete ((s.timer t).key, t)).bind fun gfsree =>
  some { timer := Function.update s.timer t { s.timer t with key := 0 }, gfsree := gfsree }

def timerDel (t : ℕ) (s : TimerLoop) : Option TimerLoop :=
  (if (s.gfsree.lookup (timerSide (s.timer t).key t)).isSome then s.rbtreeDelete t else some s).bind fun s =>
  some (s.setTimer t { s.timer t with times := 0 })

/-- A handler that deletes some timers -/
def timerDels (deletes : List ℕ) (s : TimerLoop) : Option TimerLoop := deletes.foldlM (fun s t => s.timerDel t) s

/-- The timer set for its next run, at the time `now` -/
def rearm (now t : ℕ) (s : TimerLoop) : Option TimerLoop :=
  let times := if 0 < (s.timer t).times then (s.timer t).times - 1 else (s.timer t).times
  let key := BitVec.ofNat 32 now + BitVec.ofNat 32 (s.timer t).secs
  (s.gfsree.insert (timerSide key t) (key, t)).bind fun gfsree =>
  some { timer := Function.update s.timer t ⟨key, (s.timer t).secs, times, now + (s.timer t).secs⟩, gfsree := gfsree }

/-- A turn of the loop of `gfs_timer_loop_run` with the due timer `t`, from its handler on -/
def turn (now t : ℕ) (deletes : List ℕ) (s : TimerLoop) : Option TimerLoop :=
  (s.timerDels deletes).bind fun s =>
  (s.rbtreeDelete t).bind fun s =>
  if (s.timer t).times = 1 then some s else s.rearm now t

/-- `gfs_timer_loop_run` from turn `i` on: the timers whose handlers it runs, and the state. Nothing comes back when it
follows a pointer that is not there, or has not ended after `fuel` turns. -/
def timerLoopRun (handle : ℕ → ℕ → List ℕ) (now : ℕ) : ℕ → ℕ → TimerLoop → Option (List ℕ × TimerLoop)
  | 0, _, _ => none
  | fuel + 1, i, s =>
    match s.gfsree.min with
    | none => some ([], s)
    | some node =>
      if node.1 ≤ BitVec.ofNat 32 now then
        if (s.timer node.2).times = 0 then timerLoopRun handle now fuel i s
        else
          (s.turn now node.2 (handle i node.2)).bind fun s =>
          (timerLoopRun handle now fuel (i + 1) s).map fun r => (node.2 :: r.1, r.2)
      else some ([], s)

/-! ## What a call is for -/

def InTree (s : TimerLoop) (t : ℕ) : Prop := t ∈ s.gfsree.toList.map Prod.snd

instance (s : TimerLoop) (t : ℕ) : Decidable (s.InTree t) := inferInstanceAs (Decidable (_ ∈ _))

end TimerLoop

open TimerLoop

/-- The order of the tree -/
def Before (a b : BitVec 32 × ℕ) : Prop := a.1 < b.1 ∨ a.1 = b.1 ∧ a.2 < b.2

instance (a b : BitVec 32 × ℕ) : Decidable (Before a b) := inferInstanceAs (Decidable (_ ∨ _ ∧ _))

/-- What the handlers of the timers `ran`, run from turn `i` on, deleted -/
def deletedBy (handle : ℕ → ℕ → List ℕ) : ℕ → List ℕ → List ℕ
  | _, [] => []
  | i, t :: ran => handle i t ++ deletedBy handle (i + 1) ran

/-- The timers as `gfs_timer_set`, `gfs_timer_add` and `gfs_timer_del` leave them -/
structure Valid (s : TimerLoop) : Prop where
  sound : Sound s.gfsree
  sorted : s.gfsree.toList.Pairwise Before
  keys : ∀ node ∈ s.gfsree.toList, node.1 = (s.timer node.2).key
  armed : ∀ node ∈ s.gfsree.toList, (s.timer node.2).times ≠ 0 ∧ 1 ≤ (s.timer node.2).secs ∧ (s.timer node.2).secs < 2 ^ 31
  deadlines : ∀ node ∈ s.gfsree.toList, (s.timer node.2).key = BitVec.ofNat 32 (s.timer node.2).deadline

/-- The call ends. It runs the handlers of the due timers, each once, except of those that were deleted; in the tree are
only timers that were not deleted and have repetitions left, each once and in order. -/
def Respects (handle : ℕ → ℕ → List ℕ) (now : ℕ) (s : TimerLoop) : Prop :=
  ∃ fuel ran s', timerLoopRun handle now fuel 0 s = some (ran, s') ∧ ran.Nodup ∧
    (∀ t ∈ ran, s.InTree t ∧ (s.timer t).deadline ≤ now) ∧
    (∀ t, s.InTree t → (s.timer t).deadline ≤ now → t ∈ ran ∨ t ∈ deletedBy handle 0 ran) ∧
    (∀ t, s'.InTree t → s.InTree t ∧ t ∉ deletedBy handle 0 ran ∧ (t ∈ ran → (s.timer t).times ≠ 1)) ∧
    (s'.gfsree.toList.map Prod.snd).Nodup ∧ s'.gfsree.toList.Pairwise Before

/-! ## The tree -/

section

variable {s : TimerLoop} {t : ℕ}

theorem eq_of_not_lt {a b : BitVec 32} (hab : ¬ a < b) (hba : ¬ b < a) : a = b := by
  rw [BitVec.lt_def] at hab hba
  exact BitVec.eq_of_toNat_eq (by omega)

theorem timerSide_none {key : BitVec 32} {node : BitVec 32 × ℕ} : timerSide key t node = none ↔ node = (key, t) := by
  obtain ⟨k, u⟩ := node
  constructor
  · intro h
    simp only [timerSide] at h
    split at h
    · cases h
    · split at h
      · cases h
      · split at h
        · cases h
        · split at h
          · cases h
          next h₁ h₂ h₃ h₄ =>
            rw [eq_of_not_lt h₁ h₂, show u = t by omega]
  · intro h
    cases h
    simp [timerSide]

theorem before_of_left {key : BitVec 32} {node : BitVec 32 × ℕ} (h : timerSide key t node = some .left) :
    Before (key, t) node := by
  rw [timerSide] at h
  split at h
  next hlt => exact .inl hlt
  · split at h
    · cases h
    next h₁ h₂ =>
      split at h
      next hlt => exact .inr ⟨eq_of_not_lt h₁ h₂, hlt⟩
      · split at h <;> cases h

theorem before_of_right {key : BitVec 32} {node : BitVec 32 × ℕ} (h : timerSide key t node = some .right) :
    Before node (key, t) := by
  rw [timerSide] at h
  split at h
  · cases h
  · split at h
    next hlt => exact .inl hlt
    next h₁ h₂ =>
      split at h
      · cases h
      · split at h
        next hlt => exact .inr ⟨(eq_of_not_lt h₁ h₂).symm, hlt⟩
        · cases h

theorem left_of_before {key : BitVec 32} {node : BitVec 32 × ℕ} (h : Before (key, t) node) :
    timerSide key t node = some .left := by
  rw [timerSide]
  rcases h with hlt | ⟨heq, hlt⟩
  · exact if_pos hlt
  · dsimp only at heq hlt
    rw [heq, if_neg (BitVec.lt_irrefl _), if_neg (BitVec.lt_irrefl _), if_pos hlt]

theorem right_of_before {key : BitVec 32} {node : BitVec 32 × ℕ} (h : Before node (key, t)) :
    timerSide key t node = some .right := by
  rw [timerSide]
  rcases h with hlt | ⟨heq, hlt⟩
  · rw [if_neg (BitVec.lt_asymm hlt), if_pos hlt]
  · dsimp only at heq hlt
    rw [heq, if_neg (BitVec.lt_irrefl _), if_neg (BitVec.lt_irrefl _), if_neg (by omega), if_pos hlt]

theorem Before.trans (a b c : BitVec 32 × ℕ) (hab : Before a b) (hbc : Before b c) : Before a c := by
  rcases hab with hlt | ⟨heq, hlt⟩
  · rcases hbc with hlt' | ⟨heq', -⟩
    · exact .inl (BitVec.lt_trans hlt hlt')
    · exact .inl (heq' ▸ hlt)
  · rcases hbc with hlt' | ⟨heq', hlt'⟩
    · exact .inl (heq ▸ hlt')
    · exact .inr ⟨heq.trans heq', Nat.lt_trans hlt hlt'⟩

theorem Before.ne {a b : BitVec 32 × ℕ} (h : Before a b) : a ≠ b := by
  rintro rfl
  rcases h with hlt | ⟨-, hlt⟩
  · exact BitVec.lt_irrefl _ hlt
  · exact Nat.lt_irrefl _ hlt

/-- A timer has one node at most. -/
theorem Valid.nodup (h : Valid s) : (s.gfsree.toList.map Prod.snd).Nodup := by
  rw [List.Nodup, List.pairwise_map]
  refine h.sorted.imp_of_mem fun {a b} ha hb hab heq => hab.ne ?_
  exact Prod.ext (by rw [h.keys a ha, h.keys b hb, heq]) heq

theorem Valid.node_mem_iff (h : Valid s) : ((s.timer t).key, t) ∈ s.gfsree.toList ↔ s.InTree t := by
  constructor
  · intro hmem
    exact List.mem_map.mpr ⟨_, hmem, rfl⟩
  · intro hin
    obtain ⟨node, hnode, rfl⟩ := List.mem_map.mp hin
    rw [← h.keys node hnode]
    exact hnode

theorem Valid.lookup_isSome (h : Valid s) : (s.gfsree.lookup (timerSide (s.timer t).key t)).isSome ↔ s.InTree t := by
  rw [← h.node_mem_iff, Option.isSome_iff_exists]
  constructor
  · rintro ⟨node, hlookup⟩
    obtain ⟨hmem, hside⟩ := mem_of_lookup hlookup
    rwa [timerSide_none.mp hside] at hmem
  · intro hmem
    exact ⟨_, lookup_of_mem h.sorted hmem (timerSide_none.mpr rfl) (fun _ => right_of_before) fun _ => left_of_before⟩

/-! ## Deletion -/

/-- Fewer nodes, with the timers they had -/
theorem Valid.of_sublist (h : Valid s) {s' : TimerLoop} (hsound : Sound s'.gfsree)
    (hsub : s'.gfsree.toList.Sublist s.gfsree.toList)
    (hsame : ∀ node ∈ s'.gfsree.toList, s'.timer node.2 = s.timer node.2) : Valid s' := by
  refine ⟨hsound, h.sorted.sublist hsub, fun node hnode => ?_, fun node hnode => ?_, fun node hnode => ?_⟩
  · rw [hsame node hnode]
    exact h.keys node (hsub.subset hnode)
  · rw [hsame node hnode]
    exact h.armed node (hsub.subset hnode)
  · rw [hsame node hnode]
    exact h.deadlines node (hsub.subset hnode)

theorem Valid.rbtreeDelete (h : Valid s) (hin : s.InTree t) : ∃ s', s.rbtreeDelete t = some s' ∧ Valid s' ∧
    s'.gfsree.toList = s.gfsree.toList.filter (fun node => node.2 ≠ t) ∧
    s'.timer = Function.update s.timer t { s.timer t with key := 0 } := by
  obtain ⟨gfsree, b, a, hdelete, hsound, hlist, hlist'⟩ := delete_spec h.sound (h.node_mem_iff.mpr hin)
  have hfilter : gfsree.toList = s.gfsree.toList.filter (fun node => node.2 ≠ t) := by
    have hnodup := h.nodup
    rw [hlist, List.map_append, List.map_cons, List.nodup_append, List.nodup_cons] at hnodup
    have hb : b.filter (fun node => node.2 ≠ t) = b := by
      rw [List.filter_eq_self]
      intro node hnode
      exact decide_eq_true (hnodup.2.2 node.2 (List.mem_map_of_mem hnode) t List.mem_cons_self)
    have ha : a.filter (fun node => node.2 ≠ t) = a := by
      rw [List.filter_eq_self]
      intro node hnode
      exact decide_eq_true fun heq => hnodup.2.1.1 (List.mem_map.mpr ⟨node, hnode, heq⟩)
    rw [hlist, hlist', List.filter_append, List.filter_cons_of_neg (by simp), hb, ha]
  refine ⟨⟨_, gfsree⟩, by rw [TimerLoop.rbtreeDelete, hdelete]; rfl, ?_, hfilter, rfl⟩
  refine h.of_sublist hsound (hfilter ▸ List.filter_sublist) fun node hnode => ?_
  have hne : node.2 ≠ t := by
    have hmem : node ∈ gfsree.toList := hnode
    rw [hfilter, List.mem_filter] at hmem
    exact of_decide_eq_true hmem.2
  exact Function.update_of_ne hne _ _

theorem rbtreeDelete_eq_none (h : Valid s) (hin : ¬ s.InTree t) : s.rbtreeDelete t = none := by
  rw [TimerLoop.rbtreeDelete, delete_eq_none fun hmem => hin (h.node_mem_iff.mp hmem)]
  rfl

theorem Valid.timerDel (h : Valid s) (t : ℕ) : ∃ s', s.timerDel t = some s' ∧ Valid s' ∧
    s'.gfsree.toList = s.gfsree.toList.filter (fun node => node.2 ≠ t) ∧ ∀ u, u ≠ t → s'.timer u = s.timer u := by
  suffices hdeleted : ∃ s', (if s.InTree t then s.rbtreeDelete t else some s) = some s' ∧ Valid s' ∧
      s'.gfsree.toList = s.gfsree.toList.filter (fun node => node.2 ≠ t) ∧ ∀ u, u ≠ t → s'.timer u = s.timer u by
    obtain ⟨s', heq, hvalid, hlist, hsame⟩ := hdeleted
    refine ⟨s'.setTimer t { s'.timer t with times := 0 }, ?_, ?_, hlist, fun u hu => ?_⟩
    · simp only [TimerLoop.timerDel, h.lookup_isSome]
      rw [heq, Option.bind_some]
    · refine hvalid.of_sublist hvalid.sound (List.Sublist.refl _) fun node hnode => Function.update_of_ne ?_ _ _
      have hmem : node ∈ s'.gfsree.toList := hnode
      rw [hlist, List.mem_filter] at hmem
      exact of_decide_eq_true hmem.2
    · exact (Function.update_of_ne hu _ _).trans (hsame u hu)
  by_cases hin : s.InTree t
  · obtain ⟨s', heq, hvalid, hlist, hsame⟩ := h.rbtreeDelete hin
    refine ⟨s', by rw [if_pos hin, heq], hvalid, hlist, fun u hu => ?_⟩
    rw [hsame, Function.update_of_ne hu]
  · refine ⟨s, if_neg hin, h, ?_, fun _ _ => rfl⟩
    symm
    rw [List.filter_eq_self]
    intro node hnode
    exact decide_eq_true fun heq => hin (heq ▸ List.mem_map_of_mem hnode)

theorem Valid.timerDels (h : Valid s) (deletes : List ℕ) : ∃ s', s.timerDels deletes = some s' ∧ Valid s' ∧
    s'.gfsree.toList = s.gfsree.toList.filter (fun node => node.2 ∉ deletes) ∧
    ∀ u, u ∉ deletes → s'.timer u = s.timer u := by
  induction deletes generalizing s with
  | nil => exact ⟨s, rfl, h, by simp, fun _ _ => rfl⟩
  | cons d deletes ih =>
    obtain ⟨s₁, hdel, hvalid₁, hlist₁, hsame₁⟩ := h.timerDel d
    obtain ⟨s₂, hdels, hvalid₂, hlist₂, hsame₂⟩ := ih hvalid₁
    refine ⟨s₂, ?_, hvalid₂, ?_, fun u hu => ?_⟩
    · rw [TimerLoop.timerDels, List.foldlM_cons, hdel]
      exact hdels
    · rw [hlist₂, hlist₁, List.filter_filter]
      refine List.filter_congr fun node _ => ?_
      by_cases hd : node.2 = d <;> simp [hd]
    · rw [List.mem_cons, not_or] at hu
      rw [hsame₂ u hu.2, hsame₁ u hu.1]

/-! ## Insertion -/

/-- A node for a timer that has none -/
theorem Valid.insert (h : Valid s) (hout : ¬ s.InTree t) (x : Timer) (harmed : x.times ≠ 0 ∧ 1 ≤ x.secs ∧ x.secs < 2 ^ 31)
    (hdeadline : x.key = BitVec.ofNat 32 x.deadline) :
    ∃ gfsree, s.gfsree.insert (timerSide x.key t) (x.key, t) = some gfsree ∧
      gfsree.toList.Perm ((x.key, t) :: s.gfsree.toList) ∧ Valid ⟨Function.update s.timer t x, gfsree⟩ := by
  have hne : ∀ node ∈ s.gfsree.toList, node.2 ≠ t := by
    rintro node hnode rfl
    exact hout (List.mem_map_of_mem hnode)
  obtain ⟨gfsree, b, a, hinsert, hsound, hlist, hlist', hsorted⟩ :=
    insert_spec (timerSide x.key t) (x.key, t) h.sound (R := Before) Before.trans (fun _ _ => before_of_left)
      (fun _ _ => before_of_right) (fun node hnode hside => hne node hnode (by rw [timerSide_none.mp hside])) h.sorted
  have hperm : gfsree.toList.Perm ((x.key, t) :: s.gfsree.toList) := by
    rw [hlist, hlist']
    exact List.perm_middle
  have hcases : ∀ {P : BitVec 32 × ℕ → Timer → Prop}, P (x.key, t) x →
      (∀ node ∈ s.gfsree.toList, P node (s.timer node.2)) →
      ∀ node ∈ gfsree.toList, P node (Function.update s.timer t x node.2) := by
    intro P hnew hold node hnode
    rcases List.mem_cons.mp (hperm.mem_iff.mp hnode) with rfl | hnode
    · rw [Function.update_self]
      exact hnew
    · rw [Function.update_of_ne (hne node hnode)]
      exact hold node hnode
  refine ⟨gfsree, hinsert, hperm, hsound, hsorted, ?_, ?_, ?_⟩
  · exact hcases (P := fun node y => node.1 = y.key) rfl h.keys
  · exact hcases (P := fun node y => y.times ≠ 0 ∧ 1 ≤ y.secs ∧ y.secs < 2 ^ 31) harmed h.armed
  · exact hcases (P := fun node y => y.key = BitVec.ofNat 32 y.deadline) hdeadline h.deadlines

theorem Valid.rearm (h : Valid s) (hout : ¬ s.InTree t) (now : ℕ) (htimes : (s.timer t).times ≠ 0)
    (hmore : (s.timer t).times ≠ 1) (hsecs : 1 ≤ (s.timer t).secs ∧ (s.timer t).secs < 2 ^ 31) :
    ∃ s', s.rearm now t = some s' ∧ Valid s' ∧
      s'.gfsree.toList.Perm ((BitVec.ofNat 32 now + BitVec.ofNat 32 (s.timer t).secs, t) :: s.gfsree.toList) ∧
      ∀ u, u ≠ t → s'.timer u = s.timer u := by
  have hleft : (if 0 < (s.timer t).times then (s.timer t).times - 1 else (s.timer t).times) ≠ 0 := by
    split <;> omega
  obtain ⟨gfsree, hinsert, hperm, hvalid⟩ := h.insert hout
    ⟨BitVec.ofNat 32 now + BitVec.ofNat 32 (s.timer t).secs, (s.timer t).secs,
      if 0 < (s.timer t).times then (s.timer t).times - 1 else (s.timer t).times, now + (s.timer t).secs⟩
    ⟨hleft, hsecs⟩ (BitVec.ofNat_add now (s.timer t).secs).symm
  refine ⟨⟨_, gfsree⟩, ?_, hvalid, hperm, fun u hu => Function.update_of_ne hu _ _⟩
  rw [TimerLoop.rearm]
  dsimp only at hinsert ⊢
  rw [hinsert]
  rfl

/-- `gfs_timer_set` and `gfs_timer_add` of a timer that is not in the tree keep the timers valid. -/
theorem Valid.timerAdd (h : Valid s) (hout : ¬ s.InTree t) (now : ℕ) {msecs : ℕ} {times : ℤ} (htimes : times ≠ 0)
    (hmsecs : 10 ≤ msecs ∧ msecs < 2 ^ 31) :
    ∃ s', (s.timerSet now t msecs times).timerAdd t = some (gfsOk, s') ∧ Valid s' ∧
      ∀ u, s'.InTree u ↔ s.InTree u ∨ u = t := by
  obtain ⟨x, hx⟩ : ∃ x : Timer,
      x = ⟨BitVec.ofNat 32 now + BitVec.ofNat 32 (msecs / 10), msecs / 10, times, now + msecs / 10⟩ := ⟨_, rfl⟩
  have hset : s.timerSet now t msecs times = s.setTimer t x := by
    rw [timerSet, if_neg (by omega), hx]
  have hvalid : Valid (s.setTimer t x) := by
    refine h.of_sublist h.sound (List.Sublist.refl _) fun node hnode => Function.update_of_ne ?_ _ _
    rintro rfl
    exact hout (List.mem_map_of_mem hnode)
  have htimer : (s.setTimer t x).timer t = x := Function.update_self _ _ _
  have harmed : x.times ≠ 0 ∧ 1 ≤ x.secs ∧ x.secs < 2 ^ 31 := by
    rw [hx]
    exact ⟨htimes, by dsimp only; omega, by dsimp only; omega⟩
  obtain ⟨gfsree, hinsert, hperm, hvalid'⟩ := hvalid.insert (t := t) hout x harmed
    (by rw [hx]; exact (BitVec.ofNat_add now (msecs / 10)).symm)
  have hidem : Function.update (s.setTimer t x).timer t x = (s.setTimer t x).timer := Function.update_idem _ _ _
  rw [hidem] at hvalid'
  refine ⟨⟨_, gfsree⟩, ?_, hvalid', fun u => ?_⟩
  · rw [hset, TimerLoop.timerAdd, if_neg (by rw [htimer]; exact harmed.1),
      if_neg fun hsome => hout (hvalid.lookup_isSome.mp hsome), htimer, hinsert]
    rfl
  · show u ∈ gfsree.toList.map Prod.snd ↔ _
    rw [(hperm.map Prod.snd).mem_iff, List.map_cons, List.mem_cons, or_comm]
    rfl

/-! ## A turn -/

/-- What a turn with the timer `t` does whose handler deletes other timers -/
structure Turned (now t : ℕ) (deletes : List ℕ) (s s' : TimerLoop) : Prop where
  valid : Valid s'
  same : ∀ u, u ≠ t → u ∉ deletes → s'.timer u = s.timer u
  others : ∀ u, u ≠ t → (s'.InTree u ↔ s.InTree u ∧ u ∉ deletes)
  self : s'.InTree t ↔ (s.timer t).times ≠ 1
  key : s'.InTree t → (s'.timer t).key = BitVec.ofNat 32 now + BitVec.ofNat 32 (s.timer t).secs

theorem turn_of_own (h : Valid s) {deletes : List ℕ} (hown : t ∈ deletes) (now : ℕ) : s.turn now t deletes = none := by
  obtain ⟨s₁, hdels, hvalid₁, hlist₁, -⟩ := h.timerDels deletes
  have hout : ¬ s₁.InTree t := by
    intro hin
    obtain ⟨node, hnode, rfl⟩ := List.mem_map.mp hin
    rw [hlist₁, List.mem_filter] at hnode
    exact of_decide_eq_true hnode.2 hown
  rw [turn, hdels, Option.bind_some, rbtreeDelete_eq_none hvalid₁ hout]
  rfl

/-- A timer that does not delete itself is taken out, and put back at its next time unless this was its last run. -/
theorem Valid.turn (h : Valid s) (hin : s.InTree t) {deletes : List ℕ} (hown : t ∉ deletes) (now : ℕ) :
    ∃ s', s.turn now t deletes = some s' ∧ Turned now t deletes s s' := by
  obtain ⟨s₁, hdels, hvalid₁, hlist₁, hsame₁⟩ := h.timerDels deletes
  have hin₁ : s₁.InTree t := by
    obtain ⟨node, hnode, rfl⟩ := List.mem_map.mp hin
    refine List.mem_map_of_mem ?_
    rw [hlist₁, List.mem_filter]
    exact ⟨hnode, decide_eq_true hown⟩
  obtain ⟨s₂, hdelete, hvalid₂, hlist₂, htimer₂⟩ := hvalid₁.rbtreeDelete hin₁
  have hmem₂ : ∀ node, node ∈ s₂.gfsree.toList ↔ node ∈ s.gfsree.toList ∧ node.2 ∉ deletes ∧ node.2 ≠ t := by
    intro node
    rw [hlist₂, hlist₁, List.filter_filter, List.mem_filter]
    simp [and_comm]
  have hself : s₂.timer t = { s.timer t with key := 0 } := by
    rw [htimer₂, Function.update_self, hsame₁ t hown]
  have hsame₂ : ∀ u, u ≠ t → u ∉ deletes → s₂.timer u = s.timer u := by
    intro u hu hdel
    rw [htimer₂, Function.update_of_ne hu, hsame₁ u hdel]
  have harmed : (s.timer t).times ≠ 0 ∧ 1 ≤ (s.timer t).secs ∧ (s.timer t).secs < 2 ^ 31 := by
    obtain ⟨node, hnode, rfl⟩ := List.mem_map.mp hin
    exact h.armed node hnode
  have hin₂ : ∀ u, s₂.InTree u ↔ s.InTree u ∧ u ∉ deletes ∧ u ≠ t := by
    intro u
    constructor
    · intro hu
      obtain ⟨node, hnode, rfl⟩ := List.mem_map.mp hu
      exact ⟨List.mem_map_of_mem ((hmem₂ node).mp hnode).1, ((hmem₂ node).mp hnode).2⟩
    · rintro ⟨hu, hrest⟩
      obtain ⟨node, hnode, rfl⟩ := List.mem_map.mp hu
      exact List.mem_map_of_mem ((hmem₂ node).mpr ⟨hnode, hrest⟩)
  have hout₂ : ¬ s₂.InTree t := fun hin => ((hin₂ t).mp hin).2.2 rfl
  rw [TimerLoop.turn, hdels, Option.bind_some, hdelete, Option.bind_some, hself]
  by_cases hlast : (s.timer t).times = 1
  · refine ⟨s₂, if_pos hlast, hvalid₂, hsame₂, fun u hu => ?_, ?_, fun hin => absurd hin hout₂⟩
    · rw [hin₂]
      simp [hu]
    · simp [hout₂, hlast]
  · obtain ⟨s₃, hrearm, hvalid₃, hperm, hsame₃⟩ := hvalid₂.rearm hout₂ now (by rw [hself]; exact harmed.1)
      (by rw [hself]; exact hlast) (by rw [hself]; exact harmed.2)
    rw [hself] at hperm
    have hin₃ : ∀ u, s₃.InTree u ↔ u = t ∨ s₂.InTree u := by
      intro u
      rw [InTree, (hperm.map Prod.snd).mem_iff, List.map_cons, List.mem_cons]
      rfl
    refine ⟨s₃, (if_neg hlast).trans hrearm, hvalid₃, fun u hu hdel => ?_, fun u hu => ?_, ?_, fun _ => ?_⟩
    · rw [hsame₃ u hu, hsame₂ u hu hdel]
    · rw [hin₃, hin₂]
      simp [hu]
    · simp [hin₃, hlast]
    · exact (hvalid₃.keys _ (hperm.mem_iff.mpr List.mem_cons_self)).symm

end

/-! ## The loop -/

section

variable {s : TimerLoop} {t now : ℕ} {handle : ℕ → ℕ → List ℕ}

/-- Due, as far as the 32-bit key tells -/
def KeyDue (now : ℕ) (s : TimerLoop) (t : ℕ) : Prop := s.InTree t ∧ (s.timer t).key ≤ BitVec.ofNat 32 now

/-- The key of the next run is a later one. -/
def NoWrap (now : ℕ) (s : TimerLoop) (t : ℕ) : Prop := now % 2 ^ 32 + (s.timer t).secs < 2 ^ 32

theorem rearmed_due_iff {secs : ℕ} (hsecs : 1 ≤ secs ∧ secs < 2 ^ 31) :
    BitVec.ofNat 32 now + BitVec.ofNat 32 secs ≤ BitVec.ofNat 32 now ↔ ¬ now % 2 ^ 32 + secs < 2 ^ 32 := by
  rw [BitVec.le_def, BitVec.toNat_add, BitVec.toNat_ofNat, BitVec.toNat_ofNat]
  omega

/-- The loop stops when no timer is due, and runs one that is due otherwise. -/
theorem Valid.loop_cases (h : Valid s) (handle : ℕ → ℕ → List ℕ) (now i : ℕ) :
    ((∀ t, ¬ KeyDue now s t) ∧ ∀ fuel, timerLoopRun handle now (fuel + 1) i s = some ([], s)) ∨
      ∃ t, KeyDue now s t ∧ ∀ fuel, timerLoopRun handle now (fuel + 1) i s =
        (s.turn now t (handle i t)).bind fun s =>
          (timerLoopRun handle now fuel (i + 1) s).map fun r => (t :: r.1, r.2) := by
  cases hlist : s.gfsree.toList with
  | nil =>
    left
    have hmin : s.gfsree.min = none := by rw [min_eq_head?, hlist]; rfl
    refine ⟨fun t hdue => ?_, fun fuel => by rw [timerLoopRun, hmin]⟩
    have hin := hdue.1
    rw [InTree, hlist] at hin
    cases hin
  | cons node rest =>
    have hmin : s.gfsree.min = some node := by rw [min_eq_head?, hlist]; rfl
    have hnode : node ∈ s.gfsree.toList := by rw [hlist]; exact List.mem_cons_self
    by_cases hdue : node.1 ≤ BitVec.ofNat 32 now
    · right
      refine ⟨node.2, ⟨List.mem_map_of_mem hnode, h.keys node hnode ▸ hdue⟩, fun fuel => ?_⟩
      rw [timerLoopRun, hmin]
      dsimp only
      rw [if_pos hdue, if_neg (h.armed node hnode).1]
    · left
      refine ⟨fun t ⟨hin, hkey⟩ => ?_, fun fuel => by rw [timerLoopRun, hmin]; exact if_neg hdue⟩
      obtain ⟨node', hnode', rfl⟩ := List.mem_map.mp hin
      rw [← h.keys node' hnode'] at hkey
      have hsorted := h.sorted
      rw [hlist, List.pairwise_cons] at hsorted
      rw [hlist] at hnode'
      rcases List.mem_cons.mp hnode' with rfl | hnode'
      · exact hdue hkey
      · rw [BitVec.le_def] at hdue hkey
        rcases hsorted.1 node' hnode' with hlt | ⟨heq, -⟩
        · rw [BitVec.lt_def] at hlt
          omega
        · rw [heq] at hdue
          exact hdue hkey

theorem Turned.keyDue {s' : TimerLoop} {deletes : List ℕ} (h : Turned now t deletes s s') {u : ℕ} (hu : u ≠ t) :
    KeyDue now s' u ↔ KeyDue now s u ∧ u ∉ deletes := by
  rw [KeyDue, KeyDue, h.others u hu]
  constructor
  · rintro ⟨⟨hin, hdel⟩, hkey⟩
    rw [h.same u hu hdel] at hkey
    exact ⟨⟨hin, hkey⟩, hdel⟩
  · rintro ⟨⟨hin, hkey⟩, hdel⟩
    rw [← h.same u hu hdel] at hkey
    exact ⟨⟨hin, hdel⟩, hkey⟩

/-- The timer that ran is due again only after a wrap. -/
theorem Turned.keyDue_self {s' : TimerLoop} {deletes : List ℕ} (h : Turned now t deletes s s') (hvalid : Valid s)
    (hin : s.InTree t) : KeyDue now s' t ↔ (s.timer t).times ≠ 1 ∧ ¬ NoWrap now s t := by
  have hsecs : 1 ≤ (s.timer t).secs ∧ (s.timer t).secs < 2 ^ 31 := by
    obtain ⟨node, hnode, rfl⟩ := List.mem_map.mp hin
    exact (hvalid.armed node hnode).2
  rw [KeyDue, NoWrap, ← rearmed_due_iff hsecs, ← h.self]
  constructor
  · rintro ⟨hin', hkey⟩
    exact ⟨hin', h.key hin' ▸ hkey⟩
  · rintro ⟨hin', hkey⟩
    exact ⟨hin', (h.key hin').symm ▸ hkey⟩

/-! ## Enough -/

/-- What the call does to the timers that are due by their keys -/
structure Ran (handle : ℕ → ℕ → List ℕ) (now i : ℕ) (s : TimerLoop) (ran : List ℕ) (s' : TimerLoop) : Prop where
  nodup : ran.Nodup
  due : ∀ t ∈ ran, KeyDue now s t
  all : ∀ t, KeyDue now s t → t ∈ ran ∨ t ∈ deletedBy handle i ran
  left : ∀ t, s'.InTree t → s.InTree t ∧ t ∉ deletedBy handle i ran ∧ (t ∈ ran → (s.timer t).times ≠ 1)
  valid : Valid s'

/-- The timers that are due by their keys -/
def dueNodes (now : ℕ) (s : TimerLoop) : List (BitVec 32 × ℕ) :=
  s.gfsree.toList.filter fun node => node.1 ≤ BitVec.ofNat 32 now

theorem Valid.mem_dueNodes (h : Valid s) : ((s.timer t).key, t) ∈ dueNodes now s ↔ KeyDue now s t := by
  rw [dueNodes, List.mem_filter, h.node_mem_iff, decide_eq_true_eq, KeyDue]

theorem Valid.nodup_dueNodes (h : Valid s) : (dueNodes now s).Nodup :=
  (h.sorted.imp Before.ne).filter _

/-- A turn leaves fewer timers due, when nothing wraps around. -/
theorem Turned.dueNodes_lt {s' : TimerLoop} {deletes : List ℕ} (h : Turned now t deletes s s') (hvalid : Valid s)
    (hdue : KeyDue now s t) (hwrap : (s.timer t).times ≠ 1 → NoWrap now s t) :
    (dueNodes now s').length < (dueNodes now s).length := by
  have hmem := hvalid.mem_dueNodes.mpr hdue
  have hsub : dueNodes now s' ⊆ (dueNodes now s).erase ((s.timer t).key, t) := by
    intro node hnode
    obtain ⟨hin, -⟩ := List.mem_filter.mp hnode
    have hnode' : node = ((s'.timer node.2).key, node.2) := Prod.ext (h.valid.keys node hin) rfl
    rw [hnode', h.valid.mem_dueNodes] at hnode
    have hne : node.2 ≠ t := by
      intro heq
      rw [heq, h.keyDue_self hvalid hdue.1] at hnode
      exact hnode.2 (hwrap hnode.1)
    obtain ⟨hdue', hdel⟩ := (h.keyDue hne).mp hnode
    rw [hvalid.nodup_dueNodes.mem_erase_iff, hnode', h.same node.2 hne hdel]
    exact ⟨fun heq => hne (congrArg Prod.snd heq), hvalid.mem_dueNodes.mpr hdue'⟩
  have hle := (List.subperm_of_subset h.valid.nodup_dueNodes hsub).length_le
  rw [List.length_erase_of_mem hmem] at hle
  have := List.length_pos_of_mem hmem
  omega

theorem Valid.ran (hvalid : Valid s) (handle : ℕ → ℕ → List ℕ) (i : ℕ) (hown : ∀ t, KeyDue now s t → ∀ j, t ∉ handle j t)
    (hwrap : ∀ t, KeyDue now s t → (s.timer t).times ≠ 1 → NoWrap now s t) :
    ∃ fuel ran s', timerLoopRun handle now fuel i s = some (ran, s') ∧ Ran handle now i s ran s' := by
  -- The timers that are due by their keys get fewer with every turn.
  induction hn : (dueNodes now s).length using Nat.strongRecOn generalizing s i with
  | _ n ih =>
    rcases hvalid.loop_cases handle now i with ⟨hnone, hstop⟩ | ⟨t, hdue, hturn⟩
    · refine ⟨1, [], s, hstop 0, List.nodup_nil, nofun, fun t hdue => absurd hdue (hnone t), fun t hin => ?_, hvalid⟩
      exact ⟨hin, List.not_mem_nil, nofun⟩
    · obtain ⟨s₁, htaken, hturned⟩ := hvalid.turn hdue.1 (hown t hdue i) now
      have hself : ¬ KeyDue now s₁ t := by
        rw [hturned.keyDue_self hvalid hdue.1]
        exact fun h => h.2 (hwrap t hdue h.1)
      have hother : ∀ u, KeyDue now s₁ u → u ≠ t ∧ KeyDue now s u ∧ u ∉ handle i t := by
        intro u hu
        have hne : u ≠ t := by
          rintro rfl
          exact hself hu
        exact ⟨hne, (hturned.keyDue hne).mp hu⟩
      obtain ⟨fuel, ran, s', hrun, hran⟩ := ih _ (hn ▸ hturned.dueNodes_lt hvalid hdue (hwrap t hdue)) hturned.valid (i + 1)
        (fun u hu => hown u (hother u hu).2.1)
        (fun u hu htimes => by
          obtain ⟨hne, hdue', hdel⟩ := hother u hu
          rw [hturned.same u hne hdel] at htimes
          have hnowrap := hwrap u hdue' htimes
          rwa [NoWrap, ← hturned.same u hne hdel] at hnowrap) rfl
      refine ⟨fuel + 1, t :: ran, s', ?_, ?_, ?_, ?_, ?_, hran.valid⟩
      · rw [hturn, htaken, Option.bind_some, hrun]
        rfl
      · exact List.nodup_cons.mpr ⟨fun hmem => hself (hran.due t hmem), hran.nodup⟩
      · intro u hu
        rcases List.mem_cons.mp hu with rfl | hu
        · exact hdue
        · exact (hother u (hran.due u hu)).2.1
      · intro u hu
        rw [deletedBy, List.mem_cons, List.mem_append]
        by_cases hne : u = t
        · exact .inl (.inl hne)
        · by_cases hdel : u ∈ handle i t
          · exact .inr (.inl hdel)
          · exact (hran.all u ((hturned.keyDue hne).mpr ⟨hu, hdel⟩)).imp .inr .inr
      · intro u hu
        obtain ⟨hin, hkept, htimes⟩ := hran.left u hu
        rw [deletedBy, List.mem_append, List.mem_cons]
        by_cases hne : u = t
        · subst hne
          exact ⟨hdue.1, fun h => h.elim (hown u hdue i) hkept, fun _ => hturned.self.mp hin⟩
        · obtain ⟨hin', hdel⟩ := (hturned.others u hne).mp hin
          refine ⟨hin', fun h => h.elim hdel hkept, fun h => ?_⟩
          rw [← hturned.same u hne hdel]
          exact htimes (h.resolve_left hne)

/-! ## Necessary -/

/-- A call in which no handler deletes anything -/
theorem Valid.ran_of_no_deletes (hvalid : Valid s) {fuel i : ℕ} {ran : List ℕ} {s' : TimerLoop}
    (hrun : timerLoopRun (fun _ _ => []) now fuel i s = some (ran, s')) :
    (∀ t, t ∈ ran ↔ KeyDue now s t) ∧
      (ran.Nodup → ∀ t, KeyDue now s t → (s.timer t).times ≠ 1 → NoWrap now s t) := by
  induction fuel generalizing i s ran with
  | zero => cases hrun
  | succ fuel ih =>
    rcases hvalid.loop_cases (fun _ _ => []) now i with ⟨hnone, hstop⟩ | ⟨t, hdue, hturn⟩
    · rw [hstop] at hrun
      cases hrun
      exact ⟨fun t => iff_of_false List.not_mem_nil (hnone t), fun _ t hdue => absurd hdue (hnone t)⟩
    · obtain ⟨s₁, htaken, hturned⟩ := hvalid.turn hdue.1 (List.not_mem_nil : t ∉ []) now
      rw [hturn, htaken, Option.bind_some, Option.map_eq_some_iff] at hrun
      obtain ⟨⟨ran₁, s₂⟩, hrun₁, heq⟩ := hrun
      cases heq
      obtain ⟨hran₁, hwrap₁⟩ := ih hturned.valid hrun₁
      constructor
      · intro u
        rw [List.mem_cons, hran₁]
        by_cases hne : u = t
        · exact iff_of_true (.inl hne) (hne ▸ hdue)
        · rw [hturned.keyDue hne]
          simp [hne]
      · intro hnodup u hu htimes
        rw [List.nodup_cons, hran₁] at hnodup
        by_cases hne : u = t
        · subst hne
          by_contra hwrap
          exact hnodup.1 ((hturned.keyDue_self hvalid hdue.1).mpr ⟨htimes, hwrap⟩)
        · have hsame := hturned.same u hne List.not_mem_nil
          have hnowrap := hwrap₁ hnodup.2 u ((hturned.keyDue hne).mpr ⟨hu, List.not_mem_nil⟩) (by rwa [hsame])
          rwa [NoWrap, hsame] at hnowrap

/-- A call in which a due timer deletes itself, and nothing else is deleted -/
theorem Valid.run_of_own (hvalid : Valid s) (hdue : KeyDue now s t) (fuel i : ℕ) :
    timerLoopRun (fun _ u => if u = t then [t] else []) now fuel i s = none := by
  induction fuel generalizing i s with
  | zero => rfl
  | succ fuel ih =>
    rcases hvalid.loop_cases (fun _ u => if u = t then [t] else []) now i with ⟨hnone, -⟩ | ⟨u, hdue', hturn⟩
    · exact absurd hdue (hnone t)
    · rw [hturn]
      by_cases hu : u = t
      · rw [if_pos hu, turn_of_own hvalid (by rw [hu]; exact List.mem_singleton_self t)]
        rfl
      · obtain ⟨s₁, htaken, hturned⟩ := hvalid.turn hdue'.1 (List.not_mem_nil : u ∉ []) now
        rw [if_neg hu, htaken, Option.bind_some,
          ih hturned.valid ((hturned.keyDue (Ne.symm hu)).mpr ⟨hdue, List.not_mem_nil⟩)]
        rfl

end

/-- The 32-bit keys tell which timers are due; the handlers of these may not delete their own timers, and the key of
their next run does not wrap around. -/
def Safe (mayDelete : ℕ → ℕ → Prop) (now : ℕ) (s : TimerLoop) : Prop :=
  ∀ t, s.InTree t → ((s.timer t).key ≤ BitVec.ofNat 32 now ↔ (s.timer t).deadline ≤ now) ∧
    ((s.timer t).deadline ≤ now → ¬ mayDelete t t ∧ ((s.timer t).times ≠ 1 → NoWrap now s t))

theorem respects_iff (mayDelete : ℕ → ℕ → Prop) (now : ℕ) (s : TimerLoop) (h : Valid s) :
    (∀ handle : ℕ → ℕ → List ℕ, (∀ i t u, u ∈ handle i t → mayDelete t u) → Respects handle now s) ↔
      Safe mayDelete now s := by
  constructor
  · intro hall t hin
    obtain ⟨fuel, ran, s', hrun, hnodup, hran, hdue, -⟩ := hall (fun _ _ => []) fun _ _ _ hu => absurd hu List.not_mem_nil
    obtain ⟨hkeys, hwrap⟩ := h.ran_of_no_deletes hrun
    have hnone : ∀ i ran, deletedBy (fun _ _ => []) i ran = [] := by
      intro i ran
      induction ran generalizing i with
      | nil => rfl
      | cons t ran ih => exact ih (i + 1)
    have hiff : (s.timer t).key ≤ BitVec.ofNat 32 now ↔ (s.timer t).deadline ≤ now := by
      constructor
      · exact fun hkey => (hran t ((hkeys t).mpr ⟨hin, hkey⟩)).2
      · intro hdeadline
        rcases hdue t hin hdeadline with hmem | hmem
        · exact ((hkeys t).mp hmem).2
        · rw [hnone] at hmem
          cases hmem
    refine ⟨hiff, fun hdeadline => ⟨fun hown => ?_, hwrap hnodup t ⟨hin, hiff.mpr hdeadline⟩⟩⟩
    obtain ⟨fuel', ran', s'', hrun', -⟩ := hall (fun _ u => if u = t then [t] else []) (by
      intro i u v hv
      by_cases hu : u = t
      · rw [if_pos hu, List.mem_singleton] at hv
        rw [hu, hv]
        exact hown
      · rw [if_neg hu] at hv
        cases hv)
    rw [h.run_of_own ⟨hin, hiff.mpr hdeadline⟩] at hrun'
    cases hrun'
  · intro hsafe handle hallowed
    have hdue : ∀ t, KeyDue now s t → s.InTree t ∧ (s.timer t).deadline ≤ now :=
      fun t ⟨hin, hkey⟩ => ⟨hin, (hsafe t hin).1.mp hkey⟩
    obtain ⟨fuel, ran, s', hrun, hran⟩ := h.ran handle 0
      (fun t hkey j hmem => ((hsafe t hkey.1).2 (hdue t hkey).2).1 (hallowed j t t hmem))
      (fun t hkey => ((hsafe t hkey.1).2 (hdue t hkey).2).2)
    refine ⟨fuel, ran, s', hrun, hran.nodup, fun t ht => hdue t (hran.due t ht), fun t hin hdeadline => ?_, hran.left,
      hran.valid.nodup, hran.valid.sorted⟩
    exact hran.all t ⟨hin, (hsafe t hin).1.mpr hdeadline⟩

/-- Three timers that are due at 200 (one of them for the last time) and one that is not -/
def fourTimers : TimerLoop where
  timer t := if t = 1 then ⟨100, 1000, -1, 100⟩ else if t = 2 then ⟨120, 10, 1, 120⟩
    else if t = 3 then ⟨150, 500, 4, 150⟩ else ⟨300, 500, -1, 300⟩
  gfsree := .node .black (.node .black .nil (100, 1) .nil) (120, 2)
    (.node .black .nil (150, 3) (.node .red .nil (300, 4) .nil))

theorem fourTimers_valid : Valid fourTimers where
  sound := ⟨rfl, 2, .black (.black .nil .nil) (.black .nil (.red .nil .nil rfl rfl))⟩
  sorted := by decide
  keys := by decide
  armed := by decide
  deadlines := by decide

/-- The first handler closes the connections of the last two timers, one of them due; the second one closes nothing. -/
theorem respects_iff_fourTimers :
    (∃ s', timerLoopRun (fun _ t => if t = 1 then [3, 4] else []) 200 3 0 fourTimers = some ([1, 2], s') ∧
      s'.gfsree.toList = [(1200, 1)]) ∧
    Respects (fun _ t => if t = 1 then [3, 4] else []) 200 fourTimers := by
  refine ⟨⟨_, rfl, rfl⟩, (respects_iff (fun t u => t = 1 ∧ (u = 3 ∨ u = 4)) 200 fourTimers fourTimers_valid).mpr ?_ _ ?_⟩
  · intro t ht
    have hmem : t = 1 ∨ t = 2 ∨ t = 3 ∨ t = 4 := by simpa [InTree, fourTimers, RedBlack.Tree.toList] using ht
    rcases hmem with rfl | rfl | rfl | rfl
    · exact ⟨by decide, fun _ => ⟨by decide, fun _ => by unfold NoWrap; decide⟩⟩
    · exact ⟨by decide, fun _ => ⟨by decide, fun hmore => absurd rfl hmore⟩⟩
    · exact ⟨by decide, fun _ => ⟨by decide, fun _ => by unfold NoWrap; decide⟩⟩
    · exact ⟨by decide, fun hdue => absurd hdue (by decide)⟩
  · intro i t u hu
    by_cases ht : t = 1
    · rw [if_pos ht, List.mem_cons, List.mem_singleton] at hu
      exact ⟨ht, hu⟩
    · rw [if_neg ht] at hu
      cases hu

/-- One timer, due at 100 and again every 10 seconds -/
def oneTimer : TimerLoop :=
  { timer := fun _ => ⟨100, 1000, -1, 100⟩, gfsree := .node .black .nil (100, 1) .nil }

theorem oneTimer_valid : Valid oneTimer where
  sound := ⟨rfl, 1, .black .nil .nil⟩
  sorted := List.pairwise_singleton _ _
  keys := by simp [oneTimer, RedBlack.Tree.toList]
  armed := by simp [oneTimer, RedBlack.Tree.toList]
  deadlines := by simp [oneTimer, RedBlack.Tree.toList]

/-- The idle connection's handler closes it, and deletes the timer that runs. -/
theorem idle_close_not_respected : Valid oneTimer ∧ ¬ Respects (fun _ t => if t = 1 then [1] else []) 200 oneTimer := by
  refine ⟨oneTimer_valid, ?_⟩
  rintro ⟨fuel, ran, s', hrun, -⟩
  have hdue : KeyDue 200 oneTimer 1 := ⟨by decide, by decide⟩
  rw [oneTimer_valid.run_of_own hdue] at hrun
  cases hrun

end Tefs.NameServer.Timers
