import Mathlib.Algebra.Order.Ring.Nat
import Tefs.Lib.Ring
import Tefs.Lib.Runs

/-! # The pool of connections

Source: `gfs_net_pool_create`, `gfs_net_node_get` and `gfs_net_close` of `nameservice/net/gfs_net.c`,
`gfs_net_tcp_accept` of `net/gfs_net_tcp.c`, the macros of `core/gfs_queue.h`.

A node is in `free_list` or in `used_list`, through its one `qnode`. `gfs_net_node_get` counts the node it moves;
`gfs_net_close` moves it back and counts it nowhere but in `client_num`, also when it had been moved back before. All
handlers that close a connection (`gfs_net_timer_handle`, `gfs_handle_tcp_recv`, `gfs_handle_tcp_send`,
`gfs_event_loop_run`) do it by this one function.
-/

namespace Tefs.NameServer.NetPool
open Tefs.Ring
set_option autoImplicit false

variable {num : ℕ}

/-! ## The pool -/

/-- A `gfs_queue_t*`: one of the two sentinels, or the `qnode` of a connection. -/
inductive Ptr (num : ℕ)
  | freeList
  | usedList
  | qnode (c : Fin num)
  deriving DecidableEq, Repr

/-- `gfs_net_loop_t`, and `client_num` of `gfs_global`. The pool is created for `max_num` connections. -/
structure NetLoop (num : ℕ) where
  links : Links (Ptr num)
  netNum : BitVec 32
  freeNum : BitVec 32
  usedNum : BitVec 32
  clientNum : BitVec 32

/-- An accepted `fd`, or a handler that closes a connection -/
inductive Action (num : ℕ)
  | accept
  | close (c : Fin num)
  deriving DecidableEq, Repr

namespace NetLoop

/-- `gfs_net_pool_create`, on memory with any contents -/
def poolCreate (qnodes : Links (Ptr num)) : NetLoop num where
  links := (List.finRange num).foldl (fun L c => L.insertTail .freeList (.qnode c)) ((qnodes.init .freeList).init .usedList)
  netNum := BitVec.ofNat 32 num
  freeNum := BitVec.ofNat 32 num
  usedNum := 0
  clientNum := 0

/-- `gfs_net_node_get` -/
def nodeGet (s : NetLoop num) : Option (NetLoop num) :=
  if s.links.prev .freeList = .freeList then none
  else
    let q := s.links.next .freeList
    some { s with links := (s.links.remove q).insertHead .usedList q, usedNum := s.usedNum + 1, freeNum := s.freeNum - 1 }

/-- `gfs_net_close` -/
def netClose (c : Fin num) (s : NetLoop num) : NetLoop num :=
  { s with links := (s.links.remove (.qnode c)).insertHead .freeList (.qnode c), clientNum := s.clientNum - 1 }

/-- A turn of the loop of `gfs_net_tcp_accept` with an accepted `fd` -/
def tcpAccept (s : NetLoop num) : NetLoop num :=
  if (num : ℤ) ≤ s.clientNum.toInt then s
  else
    match s.nodeGet with
    | none => s
    | some s => { s with clientNum := s.clientNum + 1 }

def step (s : NetLoop num) : Action num → NetLoop num
  | .accept => s.tcpAccept
  | .close c => s.netClose c

def run (s : NetLoop num) (actions : List (Action num)) : NetLoop num := actions.foldl step s

/-- The node is in `used_list`. -/
def inUse (s : NetLoop num) (c : Fin num) : Bool := .qnode c ∈ s.links.walk .usedList num (s.links.next .usedList)

/-- The number of closes of nodes that are in use (`used = true`), or that are free already -/
def closes (used : Bool) : NetLoop num → List (Action num) → ℕ
  | _, [] => 0
  | s, .accept :: actions => closes used (s.step .accept) actions
  | s, .close c :: actions => (if s.inUse c = used then 1 else 0) + closes used (s.step (.close c)) actions

/-- The lists the two queues run through: every node is in one of them, once. -/
structure Lists (s : NetLoop num) (free used : List (Fin num)) : Prop where
  freeRing : Holds s.links .freeList (free.map .qnode)
  usedRing : Holds s.links .usedList (used.map .qnode)
  each : (free ++ used).Perm (List.finRange num)

/-- The counters are what they count. -/
structure Accounted (s : NetLoop num) : Prop where
  lists : ∃ free used, s.Lists free used ∧ s.freeNum.toNat = free.length ∧ s.usedNum.toNat = used.length ∧
    s.clientNum.toInt = used.length
  sum : s.freeNum.toNat + s.usedNum.toNat = s.netNum.toNat

end NetLoop

open NetLoop

/-! ## The lists -/

section

variable {s : NetLoop num} {free used : List (Fin num)}

theorem qnode_injective : Function.Injective (Ptr.qnode : Fin num → Ptr num) := fun _ _ h => Ptr.qnode.inj h

theorem NetLoop.Lists.nodup (h : s.Lists free used) : (free ++ used).Nodup :=
  h.each.nodup_iff.mpr (List.nodup_finRange num)

theorem NetLoop.Lists.length (h : s.Lists free used) : free.length + used.length = num := by
  rw [← List.length_append, h.each.length_eq, List.length_finRange]

theorem disjoint_queues (hnodup : (free ++ used).Nodup) :
    List.Disjoint (Ptr.freeList :: free.map .qnode) (Ptr.usedList :: used.map .qnode) := by
  intro p hp hp'
  rcases List.mem_cons.mp hp with rfl | hp
  · simp at hp'
  · obtain ⟨c, hc, rfl⟩ := List.mem_map.mp hp
    rcases List.mem_cons.mp hp' with hp' | hp'
    · cases hp'
    · exact (List.disjoint_of_nodup_append hnodup) hc ((List.mem_map_of_injective qnode_injective).mp hp')

/-- The two lists are determined by the links. -/
theorem NetLoop.Lists.unique {free' used' : List (Fin num)} (h : s.Lists free used) (h' : s.Lists free' used') :
    free = free' ∧ used = used' :=
  ⟨qnode_injective.list_map (h.freeRing.unique h'.freeRing), qnode_injective.list_map (h.usedRing.unique h'.usedRing)⟩

theorem NetLoop.Lists.inUse_iff (h : s.Lists free used) (c : Fin num) : s.inUse c = true ↔ c ∈ used := by
  have hlength : (used.map Ptr.qnode).length ≤ num := by
    have := h.length
    rw [List.length_map]
    omega
  rw [inUse, decide_eq_true_eq, h.usedRing.walk hlength]
  exact List.mem_map_of_injective qnode_injective

theorem NetLoop.Lists.nodeGet (h : s.Lists free used) :
    free = [] ∧ s.nodeGet = none ∨
      ∃ c rest s', free = c :: rest ∧ s.nodeGet = some s' ∧ s'.Lists rest (c :: used) ∧ s'.usedNum = s.usedNum + 1 ∧
        s'.freeNum = s.freeNum - 1 ∧ s'.netNum = s.netNum ∧ s'.clientNum = s.clientNum := by
  have hfree := h.freeRing
  cases free with
  | nil =>
    have hlast : some Ptr.freeList = some (s.links.prev .freeList) := hfree.last_eq
    exact .inl ⟨rfl, if_pos (Option.some.inj hlast).symm⟩
  | cons c rest =>
    have hhead : some (Ptr.qnode c) = some (s.links.next .freeList) := hfree.head_eq
    have hne : s.links.prev .freeList ≠ .freeList := by
      have hlast := hfree.last_eq
      obtain ⟨init, d, hconcat⟩ := (List.eq_nil_or_concat' (c :: rest)).resolve_left (List.cons_ne_nil c rest)
      rw [hconcat, List.map_append, ← List.cons_append, List.map_singleton, List.getLast?_concat] at hlast
      rw [← Option.some.inj hlast]
      exact nofun
    have hmoved := Holds.move (show Holds s.links .freeList ([] ++ .qnode c :: rest.map .qnode) from hfree) h.usedRing
      (disjoint_queues h.nodup)
    refine .inr ⟨c, rest, _, rfl, if_neg hne, ⟨?_, ?_, ?_⟩, rfl, rfl, rfl, rfl⟩
    · rw [← Option.some.inj hhead]
      exact hmoved.1
    · rw [← Option.some.inj hhead]
      exact hmoved.2
    · exact List.perm_middle.trans h.each

/-- Closing a node takes it from the queue it is in to the head of `free_list`. -/
theorem NetLoop.Lists.netClose (h : s.Lists free used) (c : Fin num) :
    ∃ free' used', (s.netClose c).Lists free' used' ∧
      used'.length + (if s.inUse c = true then 1 else 0) = used.length := by
  by_cases huse : c ∈ used
  · obtain ⟨used₁, used₂, rfl⟩ := List.append_of_mem huse
    have hused := h.usedRing
    rw [List.map_append, List.map_cons] at hused
    have hdisj := disjoint_queues h.nodup
    rw [List.map_append, List.map_cons] at hdisj
    obtain ⟨hused', hfree'⟩ := Holds.move hused h.freeRing fun p hp hp' => hdisj hp' hp
    refine ⟨c :: free, used₁ ++ used₂, ⟨hfree', ?_, ?_⟩, ?_⟩
    · rw [List.map_append]
      exact hused'
    · have hperm : (c :: free ++ (used₁ ++ used₂)).Perm (free ++ (used₁ ++ c :: used₂)) := by
        rw [List.cons_append, ← List.append_assoc, ← List.append_assoc]
        exact List.perm_middle.symm
      exact hperm.trans h.each
    · rw [if_pos ((h.inUse_iff c).mpr huse), List.length_append, List.length_append, List.length_cons, Nat.add_assoc]
  · have hfree : c ∈ free := by
      have hmem : c ∈ free ++ used := h.each.mem_iff.mpr (List.mem_finRange c)
      exact (List.mem_append.mp hmem).resolve_right huse
    obtain ⟨free₁, free₂, rfl⟩ := List.append_of_mem hfree
    have hring := h.freeRing
    rw [List.map_append, List.map_cons] at hring
    have hdisj := disjoint_queues h.nodup
    rw [List.map_append, List.map_cons] at hdisj
    have hremoved := hring.remove
    have hused := h.usedRing.remove_other hring hdisj
    refine ⟨c :: (free₁ ++ free₂), used, ⟨?_, ?_, ?_⟩, ?_⟩
    · rw [List.map_cons, List.map_append]
      exact hremoved.insertHead hring.notMem_rest
    · refine hused.insertHead_other hremoved (fun hmem => hdisj (by simp) hmem) ?_
      intro p hp hp'
      refine hdisj ?_ hp'
      simp only [List.mem_cons, List.mem_append] at hp ⊢
      tauto
    · have hperm : (c :: (free₁ ++ free₂)).Perm (free₁ ++ c :: free₂) := List.perm_middle.symm
      exact (hperm.append_right used).trans h.each
    · rw [if_neg (fun htrue => huse ((h.inUse_iff c).mp htrue)), Nat.add_zero]

end

/-- The loop of `gfs_net_pool_create` -/
theorem insert_nodes {L : Links (Ptr num)} (free cs : List (Fin num)) (hnodup : (free ++ cs).Nodup)
    (hfree : Holds L .freeList (free.map .qnode)) (hused : Holds L .usedList []) :
    Holds (cs.foldl (fun L c => L.insertTail .freeList (.qnode c)) L) .freeList ((free ++ cs).map .qnode) ∧
      Holds (cs.foldl (fun L c => L.insertTail .freeList (.qnode c)) L) .usedList [] := by
  induction cs generalizing L free with
  | nil =>
    rw [List.append_nil]
    exact ⟨hfree, hused⟩
  | cons c cs ih =>
    rw [List.append_cons] at hnodup ⊢
    rw [List.foldl_cons]
    refine ih (free ++ [c]) hnodup ?_ ?_
    · rw [List.map_append]
      refine hfree.insertTail ?_
      rw [List.nodup_append, List.nodup_append] at hnodup
      simp only [List.mem_cons, reduceCtorEq, false_or, List.mem_map_of_injective qnode_injective]
      exact fun hc => hnodup.1.2.2 c hc c (by simp) rfl
    · refine hused.insertTail_other hfree (by simp) ?_
      rw [List.disjoint_singleton]
      simp

theorem lists_poolCreate (qnodes : Links (Ptr num)) : (poolCreate qnodes).Lists (List.finRange num) [] := by
  have hfree : Holds ((qnodes.init .freeList).init .usedList) .freeList [] :=
    (Holds.init qnodes Ptr.freeList).init_other (by simp)
  have hnodes := insert_nodes [] (List.finRange num) (List.nodup_finRange num) hfree (Holds.init _ _)
  refine ⟨hnodes.1, hnodes.2, ?_⟩
  rw [List.append_nil]

/-! ## The counters -/

/-- After `k` closes of nodes in use and `r` closes of free nodes: each counter is off by the closes it does not see, or
sees twice. -/
structure Drift (s : NetLoop num) (k r : ℕ) : Prop where
  lists : ∃ free used, s.Lists free used ∧ s.usedNum = BitVec.ofNat 32 (used.length + k) ∧
    s.clientNum = BitVec.ofNat 32 used.length - BitVec.ofNat 32 r
  freeNum : s.freeNum = s.netNum - s.usedNum
  netNum : s.netNum = BitVec.ofNat 32 num

section

variable {s : NetLoop num} {k r : ℕ}

theorem Drift.accept (h : Drift s k r) : Drift s.tcpAccept k r := by
  rw [tcpAccept]
  split
  · exact h
  · obtain ⟨⟨free, used, hlists, hused, hclient⟩, hfree, hnet⟩ := h
    rcases hlists.nodeGet with ⟨-, hnone⟩ | ⟨c, rest, s', -, hsome, hlists', hused', hfree', hnet', hclient'⟩
    · rw [hnone]
      exact ⟨⟨free, used, hlists, hused, hclient⟩, hfree, hnet⟩
    · rw [hsome]
      refine ⟨⟨rest, c :: used, ⟨hlists'.freeRing, hlists'.usedRing, hlists'.each⟩, ?_, ?_⟩, ?_, ?_⟩
      · show s'.usedNum = _
        rw [hused', hused, List.length_cons]
        bv_omega
      · show s'.clientNum + 1 = _
        rw [hclient', hclient, List.length_cons]
        bv_omega
      · show s'.freeNum = s'.netNum - s'.usedNum
        rw [hfree', hnet', hused', hfree]
        bv_omega
      · exact hnet'.trans hnet

theorem Drift.close (h : Drift s k r) (c : Fin num) :
    Drift (s.netClose c) (k + if s.inUse c = true then 1 else 0) (r + if s.inUse c = false then 1 else 0) := by
  obtain ⟨⟨free, used, hlists, hused, hclient⟩, hfree, hnet⟩ := h
  obtain ⟨free', used', hlists', hlength⟩ := hlists.netClose c
  refine ⟨⟨free', used', hlists', ?_, ?_⟩, hfree, hnet⟩
  · show s.usedNum = _
    rw [hused, ← hlength, Nat.add_assoc, Nat.add_comm k]
  · show s.clientNum - 1 = _
    rw [hclient, ← hlength]
    by_cases huse : s.inUse c = true
    · rw [if_pos huse, if_neg (by simp [huse])]
      bv_omega
    · rw [if_neg huse, if_pos (by simpa using huse)]
      bv_omega

theorem Drift.run (h : Drift s k r) (actions : List (Action num)) :
    Drift (s.run actions) (k + closes true s actions) (r + closes false s actions) := by
  induction actions generalizing s k r with
  | nil => exact h
  | cons a actions ih =>
    cases a with
    | accept => exact ih h.accept
    | close c =>
      have hrest := ih (h.close c)
      rw [Nat.add_assoc, Nat.add_assoc] at hrest
      exact hrest

theorem drift_poolCreate (qnodes : Links (Ptr num)) : Drift (poolCreate qnodes) 0 0 := by
  refine ⟨⟨List.finRange num, [], lists_poolCreate qnodes, rfl, (BitVec.sub_zero _).symm⟩, ?_, rfl⟩
  exact (BitVec.sub_zero (BitVec.ofNat 32 num)).symm

theorem toInt_ofNat_eq {u : ℕ} (hu : u < 2 ^ 31) : (BitVec.ofNat 32 u).toInt = u := by
  rw [BitVec.toInt_eq_toNat_cond, BitVec.toNat_ofNat, Nat.mod_eq_of_lt (by omega), if_pos (by omega)]

/-- The counters are right when the closes come out even. -/
theorem Drift.counts_iff (h : Drift s k r) (hnum : num < 2 ^ 31) :
    s.Accounted ↔ k % 2 ^ 32 = 0 ∧ r % 2 ^ 32 = 0 := by
  obtain ⟨⟨free, used, hlists, hused, hclient⟩, hfree, hnet⟩ := h
  have hlength := hlists.length
  have hint : (BitVec.ofNat 32 used.length).toInt = used.length := toInt_ofNat_eq (by omega)
  constructor
  · rintro ⟨⟨free', used', hlists', -, hused', hclient'⟩, -⟩
    obtain ⟨rfl, rfl⟩ := hlists.unique hlists'
    constructor
    · rw [hused, BitVec.toNat_ofNat] at hused'
      omega
    · have heq : s.clientNum = BitVec.ofNat 32 used.length := BitVec.eq_of_toInt_eq (hclient'.trans hint.symm)
      rw [hclient] at heq
      bv_omega
  · rintro ⟨hk, hr⟩
    have husedNum : s.usedNum.toNat = used.length := by
      rw [hused, BitVec.toNat_ofNat]
      omega
    have hfreeNum : s.freeNum.toNat = free.length := by
      rw [hfree, hnet, BitVec.toNat_sub, husedNum, BitVec.toNat_ofNat]
      omega
    refine ⟨⟨free, used, hlists, hfreeNum, husedNum, ?_⟩, ?_⟩
    · have hzero : BitVec.ofNat 32 r = 0#32 := by bv_omega
      rw [hclient, hzero, BitVec.sub_zero]
      exact hint
    · rw [hfreeNum, husedNum, hnet, BitVec.toNat_ofNat]
      omega

end

/-- In every state of every run the counters are right exactly when the closes of nodes in use and the closes of free
nodes each come out even at the width of a counter. -/
theorem accounted_iff (maxNum : Fin (2 ^ 31)) (qnodes : Links (Ptr maxNum)) (actions : List (Action maxNum)) :
    ((poolCreate qnodes).run actions).Accounted ↔
      closes true (poolCreate qnodes) actions % 2 ^ 32 = 0 ∧ closes false (poolCreate qnodes) actions % 2 ^ 32 = 0 := by
  have h := (drift_poolCreate qnodes).run actions
  rw [Nat.zero_add, Nat.zero_add] at h
  exact h.counts_iff maxNum.isLt

/-- A pool of one connection -/
def onePool : NetLoop 1 := poolCreate ⟨fun _ => .freeList, fun _ => .freeList⟩

theorem close_not_accounted : ¬ (onePool.run [.accept, .close 0]).Accounted := by
  intro h
  have hdrift : Drift (onePool.run [.accept, .close 0]) _ _ := (drift_poolCreate _).run [.accept, .close 0]
  exact absurd ((hdrift.counts_iff (by decide)).mp h).1 (by decide)

end Tefs.NameServer.NetPool
