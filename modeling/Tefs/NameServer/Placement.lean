import Mathlib.Data.Fintype.Card
import Tefs.Lib.RingSort
import Tefs.NameServer.NetMap

/-! # The choice of data servers

Source: `gfs_net_ds_cmp` and `gfs_net_map_gettopn` of `nameservice/net/gfs_net_map.c`, `gfs_queue_sort` of
`core/gfs_queue.c`.

`gfs_net_ds_cmp` takes the entry itself for a `gfs_net_t`, not the connection its `data` points to. At the place of
`user.cfft` and `user.weight`, 312 and 316 bytes behind the start of an entry of 72 bytes, lie the halves of
`rbnode.parent` of the fourth entry that follows, or what comes behind the array.
-/

namespace Tefs.NameServer.NetMap
open Tefs.RedBlack Tefs.Ring
set_option autoImplicit false

/-! ## The call -/

/-- `gfs_net_data_t` as far as the choice reads it -/
structure Load where
  cfft : BitVec 32
  weight : BitVec 32
  deriving DecidableEq, Repr

def Load.sum (load : Load) : BitVec 32 := load.weight + load.cfft

/-- `sortTime` is the static variable of `gfs_net_map_gettopn`. -/
structure Placement where
  map : ServerMap
  sortTime : ℤ

/-- `gfs_net_ds_cmp`; `behind` is what lies at the place of the two fields, seen from the entry (or from where an entry
around `dslist` would start). -/
def netDsCmp (behind : Option Map → Load) (qn1 qn2 : Option Map) : ℤ :=
  if (behind qn2).sum < (behind qn1).sum then 1 else 0

/-- The loop of `gfs_net_map_gettopn` from `q` on, with `index` connections stored; nothing comes back after `fuel`
turns. -/
def gather (s : ServerMap) (num : ℕ) : ℕ → ℕ → Option Map → Option (List Conn)
  | _, _, none => some []
  | 0, _, some _ => none
  | fuel + 1, index, some map =>
    if num ≤ index + 1 then some [s.data map]
    else (gather s num fuel (index + 1) (s.links.next (some map))).map (s.data map :: ·)

/-- The return code, the connections stored in `pnet`, and the state -/
def netMapGettopn (behind : Option Map → Load) (now : ℤ) (num : BitVec 32) (s : Placement) :
    Option (ℤ × List Conn × Placement) :=
  if num < 1 then some (gfsErr, [], s)
  else
    let sorted : Option Placement :=
      if 5 * 60 ≤ now - s.sortTime then
        (s.map.links.sort (fun qn1 qn2 => 0 < netDsCmp behind qn1 qn2) none gfsNetDsMaps).map fun links =>
          ⟨{ s.map with links := links }, now⟩
      else some s
    sorted.bind fun s =>
      (gather s.map num.toNat gfsNetDsMaps 0 (s.map.links.next none)).map fun pnet => (gfsOk, pnet, s)

/-! ## What the choice is for -/

/-- The connections of the registered servers -/
def ServerMap.conns (s : ServerMap) : List Conn := s.rbtree.toList.map fun node => s.data node.2

/-- `num` connections, or all, of different registered servers, in the order of their loads, and no other registered
server has a smaller load than one of them. -/
structure LeastLoaded (user : Conn → Load) (num : BitVec 32) (s : ServerMap) (pnet : List Conn) : Prop where
  length : pnet.length = min num.toNat s.conns.length
  distinct : pnet.Nodup
  ordered : pnet.Pairwise fun c d => (user c).sum ≤ (user d).sum
  least : ∃ others, (pnet ++ others).Perm s.conns ∧ ∀ c ∈ pnet, ∀ d ∈ others, (user c).sum ≤ (user d).sum

/-- The order the servers are put in: what `gfs_net_ds_cmp` reads, then the place in `dslist` -/
abbrev Ahead (behind : Option Map → Load) (dslist : List Map) : Map → Map → Prop :=
  Before (fun map => (behind (some map)).sum.toNat) dslist

/-- The order of what `gfs_net_ds_cmp` reads is right as far as the first `num` servers are concerned, and these have
different connections. -/
def ReadsRight (behind : Option Map → Load) (user : Conn → Load) (data : Map → Conn) (dslist : List Map) (num : ℕ) :
    Prop :=
  ∀ a ∈ dslist, ∀ b ∈ dslist, Ahead behind dslist a b →
    (rank (Ahead behind dslist) dslist b < num → data a ≠ data b) ∧
    (rank (Ahead behind dslist) dslist a < num → (user (data a)).sum ≤ (user (data b)).sum)

/-! ## The sorted list -/

section

variable {behind : Option Map → Load} {user : Conn → Load} {s : ServerMap} {dslist : List Map}

/-- `dslist` after the sort -/
def sortedList (behind : Option Map → Load) (dslist : List Map) : List Map :=
  sorted (fun a b => decide ((behind (some b)).sum.toNat < (behind (some a)).sum.toNat)) dslist

theorem netDsCmp_pos (behind : Option Map → Load) (a b : Option Map) :
    decide (0 < netDsCmp behind a b) = decide ((behind b).sum.toNat < (behind a).sum.toNat) := by
  rw [decide_eq_decide, netDsCmp, ← BitVec.lt_def]
  split <;> simp [*]

theorem nodup_of_ring (hring : Holds s.links none (dslist.map some)) : dslist.Nodup :=
  (List.nodup_cons.mp hring.nodup).2.of_map some

theorem length_le_of_ring (hring : Holds s.links none (dslist.map some)) : dslist.length ≤ gfsNetDsMaps := by
  have hcard := (nodup_of_ring hring).length_le_card
  rwa [Fintype.card_fin] at hcard

theorem sort_spec (behind : Option Map → Load) (hring : Holds s.links none (dslist.map some)) :
    ∃ links, s.links.sort (fun qn1 qn2 => 0 < netDsCmp behind qn1 qn2) none gfsNetDsMaps = some links ∧
      Holds links none ((sortedList behind dslist).map some) := by
  have hlength : (dslist.map some).length ≤ gfsNetDsMaps := by
    rw [List.length_map]
    exact length_le_of_ring hring
  obtain ⟨links, hsort, hsorted⟩ := hring.sort (fun qn1 qn2 => decide (0 < netDsCmp behind qn1 qn2)) hlength
  refine ⟨links, hsort, ?_⟩
  rw [sorted_map] at hsorted
  simp only [netDsCmp_pos] at hsorted
  exact hsorted

theorem gather_spec (s₁ : List Map) {s₂ : List Map} (hring : Holds s.links none ((s₁ ++ s₂).map some)) {num fuel index : ℕ}
    (hnum : index < num) (hfuel : s₂.length ≤ fuel) {q : Option Map} (hq : (s₂.map some ++ [none]).head? = some q) :
    gather s num fuel index q = some ((s₂.take (num - index)).map s.data) := by
  induction s₂ generalizing s₁ fuel index q with
  | nil =>
    obtain rfl : none = q := by simpa using hq
    cases fuel <;> simp [gather]
  | cons map s₂ ih =>
    obtain rfl : some map = q := by simpa using hq
    obtain ⟨fuel, rfl⟩ : ∃ k, fuel = k + 1 := ⟨fuel - 1, by simp at hfuel; omega⟩
    rw [gather]
    by_cases hlast : num ≤ index + 1
    · rw [if_pos hlast, show num - index = 1 by omega]
      rfl
    · have hnext := Holds.next_eq (show Holds s.links none (s₁.map some ++ some map :: s₂.map some) by simpa using hring)
      rw [if_neg hlast, ih (s₁ ++ [map]) (by simpa using hring) (by omega) (by simpa using hfuel) hnext,
        show num - index = num - (index + 1) + 1 by omega]
      rfl

/-- What the call does when it sorts -/
theorem netMapGettopn_eq (behind : Option Map → Load) (now : ℤ) (num : BitVec 32) {p : Placement}
    (hring : Holds p.map.links none (dslist.map some)) (hnum : 1 ≤ num) (htime : 5 * 60 ≤ now - p.sortTime) :
    ∃ links, netMapGettopn behind now num p = some (gfsOk, ((sortedList behind dslist).take num.toNat).map p.map.data,
        ⟨{ p.map with links := links }, now⟩) ∧ Holds links none ((sortedList behind dslist).map some) := by
  obtain ⟨links, hsort, hsorted⟩ := sort_spec behind hring
  refine ⟨links, ?_, hsorted⟩
  have hpos : 0 < num.toNat := BitVec.le_def.mp hnum
  have hgather := gather_spec (s := { p.map with links := links }) [] hsorted hpos
    (length_le_of_ring (s := { p.map with links := links }) hsorted) hsorted.head_eq
  rw [netMapGettopn, if_neg (BitVec.not_lt.mpr hnum)]
  dsimp only
  rw [if_pos htime, hsort, Option.map_some, Option.bind_some, hgather]
  rfl

theorem perm_sortedList (behind : Option Map → Load) (dslist : List Map) : (sortedList behind dslist).Perm dslist :=
  perm_sorted _ dslist

theorem pairwise_sortedList (behind : Option Map → Load) (hnodup : dslist.Nodup) :
    (sortedList behind dslist).Pairwise (Ahead behind dslist) :=
  sorted_pairwise hnodup

/-- The sort changes nothing but the order of the queue. -/
theorem Serves.relink {reg : BitVec 32 → Option Conn} (h : Serves s reg) (hring : Holds s.links none (dslist.map some))
    {links : Links (Option Map)} {l : List Map} (hlinks : Holds links none (l.map some)) (hperm : l.Perm dslist) :
    Serves { s with links := links } reg := by
  obtain ⟨dslist', hring', hentries⟩ := h.queue
  obtain rfl : dslist = dslist' := (Option.some_injective Map).list_map (hring.unique hring')
  exact ⟨h.get, h.keys, h.once, l, hlinks, hperm.trans hentries⟩

theorem Serves.perm_conns {reg : BitVec 32 → Option Conn} (h : Serves s reg)
    (hring : Holds s.links none (dslist.map some)) : (dslist.map s.data).Perm s.conns := by
  obtain ⟨dslist', hring', hentries⟩ := h.queue
  obtain rfl : dslist = dslist' := (Option.some_injective Map).list_map (hring.unique hring')
  have hmap := hentries.map s.data
  rwa [List.map_map] at hmap

theorem leastLoaded_take_iff {l : List Map} {num : BitVec 32} (hconns : (l.map s.data).Perm s.conns) :
    LeastLoaded user num s ((l.take num.toNat).map s.data) ↔
      (l.take num.toNat).Pairwise (fun a b => s.data a ≠ s.data b) ∧
      (l.take num.toNat).Pairwise (fun a b => (user (s.data a)).sum ≤ (user (s.data b)).sum) ∧
      ∀ a ∈ l.take num.toNat, ∀ b ∈ l.drop num.toNat, (user (s.data a)).sum ≤ (user (s.data b)).sum := by
  have hsplit : ((l.take num.toNat).map s.data ++ (l.drop num.toNat).map s.data).Perm s.conns := by
    rwa [← List.map_append, List.take_append_drop]
  constructor
  · intro h
    have hordered := h.ordered
    rw [List.pairwise_map] at hordered
    refine ⟨List.pairwise_map.mp h.distinct, hordered, fun a ha b hb => ?_⟩
    obtain ⟨others, hothers, hleast⟩ := h.least
    have hperm : others.Perm ((l.drop num.toNat).map s.data) :=
      (List.perm_append_left_iff _).mp (hothers.trans hsplit.symm)
    exact hleast _ (List.mem_map_of_mem ha) _ (hperm.mem_iff.mpr (List.mem_map_of_mem hb))
  · rintro ⟨hdistinct, hordered, hleast⟩
    refine ⟨?_, List.pairwise_map.mpr hdistinct, ?_, _, hsplit, ?_⟩
    · rw [List.length_map, List.length_take, ← hconns.length_eq, List.length_map]
    · rw [List.pairwise_map]
      exact hordered
    · intro c hc d hd
      obtain ⟨a, ha, rfl⟩ := List.mem_map.mp hc
      obtain ⟨b, hb, rfl⟩ := List.mem_map.mp hd
      exact hleast a ha b hb

/-- The front of the sorted list -/
theorem leastLoaded_sorted_iff {reg : BitVec 32 → Option Conn} (h : Serves s reg)
    (hring : Holds s.links none (dslist.map some)) (num : BitVec 32) :
    LeastLoaded user num s (((sortedList behind dslist).take num.toNat).map s.data) ↔
      ReadsRight behind user s.data dslist num.toNat := by
  have hperm := perm_sortedList behind dslist
  have hnodup := nodup_of_ring hring
  have hpairwise := pairwise_sortedList behind hnodup
  have hasymm : ∀ a b, Ahead behind dslist a b → ¬ Ahead behind dslist b a := fun a b hab => hab.asymm hnodup
  rw [leastLoaded_take_iff ((hperm.map s.data).trans (h.perm_conns hring)), take_iff_rank hperm hpairwise hasymm,
    front_iff_rank hperm hpairwise hasymm]
  constructor
  · exact fun ⟨hdistinct, hordered⟩ a ha b hb hab => ⟨hdistinct a ha b hb hab, hordered a ha b hb hab⟩
  · exact fun hreads => ⟨fun a ha b hb hab => (hreads a ha b hb hab).1, fun a ha b hb hab => (hreads a ha b hb hab).2⟩

end

/-- A call that sorts finds the least loaded servers exactly when what it reads puts them in front. -/
theorem leastLoaded_iff (behind : Option Map → Load) (user : Conn → Load) (now : ℤ) (num : BitVec 32) (p : Placement)
    (reg : BitVec 32 → Option Conn) (dslist : List Map) (h : Serves p.map reg)
    (hring : Holds p.map.links none (dslist.map some)) (hnum : 1 ≤ num) (htime : 5 * 60 ≤ now - p.sortTime) :
    (∃ pnet p', netMapGettopn behind now num p = some (gfsOk, pnet, p') ∧ LeastLoaded user num p.map pnet ∧
        Serves p'.map reg) ↔ ReadsRight behind user p.map.data dslist num.toNat := by
  obtain ⟨links, hcall, hlinks⟩ := netMapGettopn_eq behind now num hring hnum htime
  have hserves := h.relink hring hlinks (perm_sortedList behind dslist)
  rw [← leastLoaded_sorted_iff h hring, hcall]
  constructor
  · rintro ⟨pnet, p', heq, hleast, -⟩
    cases heq
    exact hleast
  · exact fun hleast => ⟨_, _, rfl, hleast, hserves⟩

/-! ## Two servers -/

def firstEntry : Map := (1023 : Fin 1024)
def secondEntry : Map := (1022 : Fin 1024)

/-- After `gfs_net_map_add` of the servers 1 and 2 on the connections 0 and 1 -/
def twoServers : ServerMap where
  maplist := (List.finRange gfsNetDsMaps).reverse.drop 2
  data map := if map = secondEntry then 1 else 0
  rbtree := .node .black .nil (1, firstEntry) (.node .red .nil (2, secondEntry) .nil)
  links := (((⟨fun _ => none, fun _ => none⟩ : Links (Option Map)).init none).insertTail none
    (some firstEntry)).insertTail none (some secondEntry)

/-- The load of the first is the greater one. -/
def twoLoads (c : Conn) : Load := if c = 0 then ⟨100, 0⟩ else ⟨10, 0⟩

theorem twoServers_ring : Holds twoServers.links none ([firstEntry, secondEntry].map some) :=
  ((Holds.init _ none).insertTail (x := some firstEntry) (by decide)).insertTail (x := some secondEntry) (by decide)

theorem twoServers_serves : Serves twoServers (registered [.add 1 0, .add 2 1]) := by
  apply Indexed.serves
  refine ⟨by decide, fun node hnode => ?_, fun keyid conn hconn => ?_, [firstEntry, secondEntry], twoServers_ring, .refl _⟩
  · have hcases : node = (1, firstEntry) ∨ node = (2, secondEntry) := by
      simpa [twoServers, RedBlack.Tree.toList] using hnode
    rcases hcases with rfl | rfl
    · rfl
    · rfl
  by_contra hkey
  have hnone : registered [.add 1 0, .add 2 1] keyid = none := by
    refine registered_of_ne fun c hc heq => hkey ?_
    rcases List.mem_cons.mp hc with rfl | hc
    · exact ⟨(1, firstEntry), by decide, heq⟩
    · rw [List.mem_singleton.mp hc] at heq
      exact ⟨(2, secondEntry), by decide, heq⟩
  rw [hnone] at hconn
  cases hconn

theorem leastLoaded_iff_two :
    (∃ pnet p', netMapGettopn (fun _ => ⟨0, 0⟩) 300 1 ⟨twoServers, 0⟩ = some (gfsOk, pnet, p') ∧
        LeastLoaded twoLoads 1 twoServers pnet ∧ Serves p'.map (registered [.add 1 0, .add 2 1])) ↔
      ReadsRight (fun _ => ⟨0, 0⟩) twoLoads twoServers.data [firstEntry, secondEntry] 1 :=
  leastLoaded_iff _ _ 300 1 ⟨twoServers, 0⟩ _ _ twoServers_serves twoServers_ring (by decide) (by decide)

/-- With zeros behind the array the servers stay in the order they came in, and the busier one is chosen. -/
theorem busier_server_chosen :
    ¬ ∃ pnet p', netMapGettopn (fun _ => ⟨0, 0⟩) 300 1 ⟨twoServers, 0⟩ = some (gfsOk, pnet, p') ∧
      LeastLoaded twoLoads 1 twoServers pnet ∧ Serves p'.map (registered [.add 1 0, .add 2 1]) := by
  rintro ⟨pnet, p', hcall, hleast, -⟩
  obtain ⟨links, hcall', -⟩ :=
    netMapGettopn_eq (p := ⟨twoServers, 0⟩) (fun _ => ⟨0, 0⟩) 300 1 twoServers_ring (by decide) (by decide)
  rw [hcall'] at hcall
  cases hcall
  have hreads := (leastLoaded_sorted_iff twoServers_serves twoServers_ring 1).mp hleast
  have hload := (hreads firstEntry (by decide) secondEntry (by decide) (by decide)).2 (by decide)
  exact absurd hload (by decide)

end Tefs.NameServer.NetMap
