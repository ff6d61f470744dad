import Tefs.Lib.RedBlack
import Tefs.Lib.Ring

/-! # The map of data servers

Source: `nameservice/net/gfs_net_map.c`, `gfs_rbtree_insert_value` and `gfs_rbtree_lookup_value` of `core/gfs_rbtree.c`,
`gfs_queue_insert_tail` and `gfs_queue_remove` of `core/gfs_queue.h`.

An entry is on `maplist` until its first use, then in the tree and in `dslist` at once. `gfs_net_map_remove` takes it out
of both, and does not put it back on `maplist`: after `GFS_NET_DS_MAPS` new keys every call fails.
-/

namespace Tefs.NameServer.NetMap
open Tefs.RedBlack Tefs.Ring
set_option autoImplicit false

/-! ## Data -/

/-- `GFS_NET_DS_MAPS` -/
def gfsNetDsMaps : ℕ := 1024

/-- An entry of the array of `gfs_map_t` -/
abbrev Map := Fin gfsNetDsMaps

/-- A `gfs_net_t*`, by its index in the pool of connections -/
abbrev Conn := ℕ

def gfsOk : ℤ := 0
def gfsErr : ℤ := 1

/-- `links` are those of the entries' `qnode`s and of `dslist`, which is `none`. The tree holds each entry with its
`rbnode.key`. -/
structure ServerMap where
  maplist : List Map
  data : Map → Conn
  rbtree : RedBlack.Tree (BitVec 32 × Map)
  links : Links (Option Map)

/-- A call of the two functions that change the map -/
inductive Call
  | add (keyid : BitVec 32) (net : Conn)
  | remove (keyid : BitVec 32)
  deriving DecidableEq, Repr

/-! ## The functions -/

/-- The way of `gfs_rbtree_lookup_value` at a node -/
def lookupSide (key : BitVec 32) (node : BitVec 32 × Map) : Option Side :=
  if key = node.1 then none else if key < node.1 then some .left else some .right

/-- The way of `gfs_rbtree_insert_value` at a node -/
def insertSide (key : BitVec 32) (node : BitVec 32 × Map) : Option Side :=
  if key < node.1 then some .left else some .right

namespace ServerMap

/-- `gfs_net_map_init`, on memory with any contents -/
def netMapInit (data : Map → Conn) (qnodes : Links (Option Map)) : ServerMap where
  maplist := (List.finRange gfsNetDsMaps).reverse
  data := data
  rbtree := .nil
  links := qnodes.init none

def netMapAdd (keyid : BitVec 32) (net : Conn) (s : ServerMap) : Option (ℤ × ServerMap) :=
  match s.maplist with
  | [] => some (gfsErr, s)
  | map :: next =>
    match s.rbtree.lookup (lookupSide keyid) with
    | some node => some (gfsOk, { s with data := Function.update s.data node.2 net })
    | none =>
      (s.rbtree.insert (insertSide keyid) (keyid, map)).bind fun rbtree =>
      some (gfsOk, { maplist := next, data := Function.update s.data map net, rbtree := rbtree,
                     links := s.links.insertTail none (some map) })

def netMapGet (keyid : BitVec 32) (s : ServerMap) : Option Conn :=
  (s.rbtree.lookup (lookupSide keyid)).map fun node => s.data node.2

def netMapRemove (keyid : BitVec 32) (s : ServerMap) : Option (ℤ × ServerMap) :=
  match s.maplist with
  | [] => some (gfsErr, s)
  | _ :: _ =>
    match s.rbtree.lookup (lookupSide keyid) with
    | some node =>
      (s.rbtree.delete node).bind fun rbtree =>
      some (gfsOk, { s with rbtree := rbtree, links := s.links.remove (some node.2) })
    | none => some (gfsOk, s)

def call (s : ServerMap) : Call → Option (ℤ × ServerMap)
  | .add keyid net => s.netMapAdd keyid net
  | .remove keyid => s.netMapRemove keyid

/-- The map after some calls; nothing if one of them followed a pointer that is not there. -/
def calls (s : ServerMap) (cs : List Call) : Option ServerMap := cs.foldlM (fun s c => (s.call c).map Prod.snd) s

end ServerMap

/-! ## What the map is for -/

/-- The connection registered under each key, after one more call -/
def register (reg : BitVec 32 → Option Conn) : Call → BitVec 32 → Option Conn
  | .add keyid net => Function.update reg keyid (some net)
  | .remove keyid => Function.update reg keyid none

def registered (cs : List Call) : BitVec 32 → Option Conn := cs.foldl register fun _ => none

/-- The call adds a key that is not registered. -/
def IsNew (reg : BitVec 32 → Option Conn) : Call → Prop
  | .add keyid _ => reg keyid = none
  | .remove _ => False

instance (reg : BitVec 32 → Option Conn) : ∀ c, Decidable (IsNew reg c)
  | .add keyid _ => inferInstanceAs (Decidable (reg keyid = none))
  | .remove _ => .isFalse id

/-- The number of calls that add a key which is not registered -/
def newKeys (reg : BitVec 32 → Option Conn) : List Call → ℕ
  | [] => 0
  | c :: cs => (if IsNew reg c then 1 else 0) + newKeys (register reg c) cs

/-- The keys of the tree are the registered ones, each once, `dslist` runs through the entries of the tree, each once, and
a search finds the connection registered under a key. -/
structure Serves (s : ServerMap) (reg : BitVec 32 → Option Conn) : Prop where
  get : ∀ keyid, s.netMapGet keyid = reg keyid
  keys : ∀ keyid, keyid ∈ s.rbtree.toList.map Prod.fst ↔ (reg keyid).isSome
  once : (s.rbtree.toList.map Prod.fst).Nodup
  queue : ∃ dslist : List Map, Holds s.links none (dslist.map some) ∧ dslist.Perm (s.rbtree.toList.map Prod.snd)

/-- From `s` on, every call of the sequence succeeds and leaves what was registered. -/
def Succeeds (s : ServerMap) (cs : List Call) : Prop :=
  ∀ before c, before ++ [c] <+: cs →
    ∃ s₁ s₂, s.calls before = some s₁ ∧ s₁.call c = some (gfsOk, s₂) ∧ Serves s₂ (registered (before ++ [c]))

/-! ## One call -/

/-- The tree in order, and what it is an index of -/
structure Indexed (s : ServerMap) (reg : BitVec 32 → Option Conn) : Prop where
  sorted : s.rbtree.toList.Pairwise fun a b => a.1 < b.1
  data : ∀ node ∈ s.rbtree.toList, reg node.1 = some (s.data node.2)
  known : ∀ keyid conn, reg keyid = some conn → ∃ node ∈ s.rbtree.toList, node.1 = keyid
  queue : ∃ dslist : List Map, Holds s.links none (dslist.map some) ∧ dslist.Perm (s.rbtree.toList.map Prod.snd)

/-- What holds of the map as long as no call has failed -/
structure Inv (s : ServerMap) (reg : BitVec 32 → Option Conn) : Prop extends Indexed s reg where
  sound : Sound s.rbtree
  apart : (s.maplist ++ s.rbtree.toList.map Prod.snd).Nodup

section

variable {s : ServerMap} {reg : BitVec 32 → Option Conn} {keyid : BitVec 32}

theorem lookup_of_node (h : Indexed s reg) {node : BitVec 32 × Map} (hnode : node ∈ s.rbtree.toList) :
    s.rbtree.lookup (lookupSide node.1) = some node := by
  apply lookup_of_mem h.sorted hnode
  · exact if_pos rfl
  · intro z (hz : z.1 < node.1)
    rw [lookupSide, if_neg (BitVec.ne_of_lt hz).symm, if_neg (BitVec.lt_asymm hz)]
  · intro z (hz : node.1 < z.1)
    rw [lookupSide, if_neg (BitVec.ne_of_lt hz), if_pos hz]

/-- A search finds the node with the key, and nothing else. -/
theorem lookup_eq_some_iff (h : Indexed s reg) (node : BitVec 32 × Map) :
    s.rbtree.lookup (lookupSide keyid) = some node ↔ node ∈ s.rbtree.toList ∧ node.1 = keyid := by
  constructor
  · intro hlookup
    obtain ⟨hmem, hside⟩ := mem_of_lookup hlookup
    refine ⟨hmem, ?_⟩
    by_contra hne
    rw [lookupSide, if_neg (Ne.symm hne)] at hside
    split at hside <;> cases hside
  · rintro ⟨hmem, rfl⟩
    exact lookup_of_node h hmem

theorem lookup_eq_none_iff (h : Indexed s reg) :
    s.rbtree.lookup (lookupSide keyid) = none ↔ reg keyid = none := by
  constructor
  · intro hnone
    cases hreg : reg keyid with
    | none => rfl
    | some conn =>
      obtain ⟨node, hmem, hkey⟩ := h.known keyid conn hreg
      rw [(lookup_eq_some_iff h node).mpr ⟨hmem, hkey⟩] at hnone
      cases hnone
  · intro hreg
    cases hlookup : s.rbtree.lookup (lookupSide keyid) with
    | none => rfl
    | some node =>
      obtain ⟨hmem, rfl⟩ := (lookup_eq_some_iff h node).mp hlookup
      rw [h.data node hmem] at hreg
      cases hreg

theorem Indexed.serves (h : Indexed s reg) : Serves s reg := by
  refine ⟨fun keyid => ?_, fun keyid => ?_, ?_, h.queue⟩
  · rw [ServerMap.netMapGet]
    cases hlookup : s.rbtree.lookup (lookupSide keyid) with
    | none => exact ((lookup_eq_none_iff h).mp hlookup).symm
    | some node =>
      obtain ⟨hmem, rfl⟩ := (lookup_eq_some_iff h node).mp hlookup
      exact (h.data node hmem).symm
  · rw [List.mem_map, Option.isSome_iff_exists]
    constructor
    · rintro ⟨node, hmem, rfl⟩
      exact ⟨_, h.data node hmem⟩
    · rintro ⟨conn, hconn⟩
      exact h.known keyid conn hconn
  · rw [List.Nodup, List.pairwise_map]
    exact h.sorted.imp BitVec.ne_of_lt

theorem Indexed.eq_of_key (h : Indexed s reg) {node node' : BitVec 32 × Map} (hnode : node ∈ s.rbtree.toList)
    (hnode' : node' ∈ s.rbtree.toList) (hkey : node.1 = node'.1) : node = node' :=
  List.inj_on_of_nodup_map h.serves.once hnode hnode' hkey

theorem Inv.eq_of_entry (h : Inv s reg) {node node' : BitVec 32 × Map} (hnode : node ∈ s.rbtree.toList)
    (hnode' : node' ∈ s.rbtree.toList) (hentry : node.2 = node'.2) : node = node' :=
  List.inj_on_of_nodup_map (List.nodup_append.mp h.apart).2.1 hnode hnode' hentry

/-- A key that is registered already keeps its entry. -/
theorem Inv.replace (h : Inv s reg) {node : BitVec 32 × Map} (hnode : node ∈ s.rbtree.toList) (net : Conn) :
    Inv { s with data := Function.update s.data node.2 net } (register reg (.add node.1 net)) := by
  refine ⟨⟨h.sorted, fun node' hnode' => ?_, fun keyid conn hconn => ?_, h.queue⟩, h.sound, h.apart⟩
  · by_cases hkey : node' = node
    · rw [hkey, register, Function.update_self]
      exact congrArg some (Function.update_self node.2 net s.data).symm
    · rw [register, Function.update_of_ne fun heq => hkey (h.eq_of_key hnode' hnode heq), h.data node' hnode']
      refine congrArg some (Function.update_of_ne ?_ net s.data).symm
      exact fun heq => hkey (h.eq_of_entry hnode' hnode heq)
  · by_cases hkey : keyid = node.1
    · exact ⟨node, hnode, hkey.symm⟩
    · rw [register, Function.update_of_ne hkey] at hconn
      exact h.known keyid conn hconn

/-- A new key gets the first entry of `maplist`. -/
theorem Inv.insert (h : Inv s reg) {map : Map} {next : List Map} (hmaplist : s.maplist = map :: next)
    (hnew : reg keyid = none) (net : Conn) : ∃ t, s.rbtree.insert (insertSide keyid) (keyid, map) = some t ∧
      Inv ⟨next, Function.update s.data map net, t, s.links.insertTail none (some map)⟩
        (register reg (.add keyid net)) := by
  have hkeys : ∀ node ∈ s.rbtree.toList, node.1 ≠ keyid := by
    rintro node hnode rfl
    rw [h.data node hnode] at hnew
    cases hnew
  have hapart := h.apart
  rw [hmaplist, List.cons_append, List.nodup_cons] at hapart
  have hentries : ∀ node ∈ s.rbtree.toList, node.2 ≠ map := by
    rintro node hnode rfl
    exact hapart.1 (List.mem_append_right next (List.mem_map_of_mem hnode))
  obtain ⟨t, b, a, hinsert, hsound, hlist, hlist', hsorted⟩ :=
    insert_spec (insertSide keyid) (keyid, map) h.sound (R := fun a b => a.1 < b.1) (fun _ _ _ => BitVec.lt_trans)
      (fun node hnode hside => by
        by_contra hlt
        rw [insertSide, if_neg hlt] at hside
        cases hside)
      (fun node hnode hside => by
        have hge : ¬ keyid < node.1 := by
          intro hlt
          rw [insertSide, if_pos hlt] at hside
          cases hside
        exact BitVec.lt_of_le_ne (BitVec.not_lt.mp hge) (hkeys node hnode))
      (fun node hnode hside => by
        rw [insertSide] at hside
        split at hside <;> cases hside)
      h.sorted
  have hperm : t.toList.Perm ((keyid, map) :: s.rbtree.toList) := by
    rw [hlist', hlist]
    exact List.perm_middle
  refine ⟨t, hinsert, ⟨hsorted, fun node hnode => ?_, fun k conn hconn => ?_, ?_⟩, hsound, ?_⟩
  · rcases List.mem_cons.mp (hperm.mem_iff.mp hnode) with rfl | hnode
    · rw [register, Function.update_self]
      exact congrArg some (Function.update_self map net s.data).symm
    · rw [register, Function.update_of_ne (hkeys node hnode), h.data node hnode]
      exact congrArg some (Function.update_of_ne (hentries node hnode) net s.data).symm
  · by_cases hk : k = keyid
    · exact ⟨(keyid, map), hperm.mem_iff.mpr List.mem_cons_self, hk.symm⟩
    · rw [register, Function.update_of_ne hk] at hconn
      obtain ⟨node, hnode, hkey⟩ := h.known k conn hconn
      exact ⟨node, hperm.mem_iff.mpr (List.mem_cons_of_mem _ hnode), hkey⟩
  · obtain ⟨dslist, hring, hdslist⟩ := h.queue
    refine ⟨dslist ++ [map], ?_, ?_⟩
    · rw [List.map_append]
      refine hring.insertTail ?_
      rw [List.mem_cons, List.mem_map]
      rintro (hnone | ⟨entry, hentry, heq⟩)
      · cases hnone
      · obtain ⟨node, hnode, rfl⟩ := List.mem_map.mp (hdslist.mem_iff.mp hentry)
        exact hentries node hnode (Option.some.inj heq)
    · exact (List.perm_append_singleton map dslist).trans ((hdslist.cons map).trans (hperm.map Prod.snd).symm)
  · have hnodup : (next ++ map :: s.rbtree.toList.map Prod.snd).Nodup :=
      (List.perm_middle.nodup_iff).mpr (List.nodup_cons.mpr hapart)
    exact (((hperm.map Prod.snd).append_left next).nodup_iff).mpr hnodup

/-- A registered key leaves the tree and the queue. -/
theorem Inv.delete (h : Inv s reg) {node : BitVec 32 × Map} (hnode : node ∈ s.rbtree.toList) :
    ∃ t, s.rbtree.delete node = some t ∧
      Inv { s with rbtree := t, links := s.links.remove (some node.2) } (register reg (.remove node.1)) := by
  obtain ⟨t, b, a, hdelete, hsound, hlist, hlist'⟩ := delete_spec h.sound hnode
  have hperm : s.rbtree.toList.Perm (node :: t.toList) := by
    rw [hlist, hlist']
    exact List.perm_middle
  have hsub : t.toList.Sublist s.rbtree.toList := by
    rw [hlist, hlist']
    exact (List.sublist_cons_self node a).append_left b
  have hother : ∀ node' ∈ t.toList, node'.1 ≠ node.1 := by
    have honce := h.serves.once
    rw [(hperm.map Prod.fst).nodup_iff, List.map_cons, List.nodup_cons] at honce
    intro node' hnode' hkey
    exact honce.1 (hkey ▸ List.mem_map_of_mem hnode')
  refine ⟨t, hdelete, ⟨h.sorted.sublist hsub, fun node' hnode' => ?_, fun k conn hconn => ?_, ?_⟩, hsound, ?_⟩
  · rw [register, Function.update_of_ne (hother node' hnode')]
    exact h.data node' (hsub.subset hnode')
  · by_cases hk : k = node.1
    · rw [hk, register, Function.update_self] at hconn
      cases hconn
    · rw [register, Function.update_of_ne hk] at hconn
      obtain ⟨node', hnode', hkey⟩ := h.known k conn hconn
      rcases List.mem_cons.mp (hperm.mem_iff.mp hnode') with rfl | hnode'
      · exact absurd hkey.symm hk
      · exact ⟨node', hnode', hkey⟩
  · obtain ⟨dslist, hring, hdslist⟩ := h.queue
    obtain ⟨before, after, rfl⟩ := List.append_of_mem (hdslist.mem_iff.mpr (List.mem_map_of_mem hnode))
    refine ⟨before ++ after, ?_, ?_⟩
    · rw [List.map_append, List.map_cons] at hring
      rw [List.map_append]
      exact hring.remove
    · exact (List.perm_cons node.2).mp (List.perm_middle.symm.trans (hdslist.trans (hperm.map Prod.snd)))
  · exact h.apart.sublist ((hsub.map Prod.snd).append_left _)

/-- One call, while an entry is left -/
theorem Inv.call (h : Inv s reg) (hleft : s.maplist ≠ []) (c : Call) :
    ∃ s', s.call c = some (gfsOk, s') ∧ Inv s' (register reg c) ∧
      s'.maplist.length + (if IsNew reg c then 1 else 0) = s.maplist.length := by
  obtain ⟨maplist, data, rbtree, links⟩ := s
  obtain ⟨map, next, rfl⟩ := List.exists_cons_of_ne_nil hleft
  cases c with
  | add keyid net =>
    rw [ServerMap.call, ServerMap.netMapAdd]
    dsimp only
    cases hlookup : rbtree.lookup (lookupSide keyid) with
    | some node =>
      obtain ⟨hnode, rfl⟩ := (lookup_eq_some_iff h.toIndexed node).mp hlookup
      refine ⟨_, rfl, h.replace hnode net, ?_⟩
      rw [if_neg (by simp [IsNew, h.data node hnode])]
      rfl
    | none =>
      have hnew := (lookup_eq_none_iff h.toIndexed).mp hlookup
      obtain ⟨t, hinsert, hinv⟩ := h.insert rfl hnew net
      refine ⟨_, ?_, hinv, ?_⟩
      · dsimp only at hinsert ⊢
        rw [hinsert, Option.bind_some]
      · rw [if_pos (show IsNew reg (.add keyid net) from hnew)]
        rfl
  | remove keyid =>
    rw [ServerMap.call, ServerMap.netMapRemove]
    dsimp only
    cases hlookup : rbtree.lookup (lookupSide keyid) with
    | some node =>
      obtain ⟨hnode, rfl⟩ := (lookup_eq_some_iff h.toIndexed node).mp hlookup
      obtain ⟨t, hdelete, hinv⟩ := h.delete hnode
      refine ⟨_, ?_, hinv, ?_⟩
      · dsimp only at hdelete ⊢
        rw [hdelete, Option.bind_some]
      · rw [if_neg (show ¬ IsNew reg (.remove node.1) from id)]
        rfl
    | none =>
      have hsame : register reg (.remove keyid) = reg := by
        rw [register, ← (lookup_eq_none_iff h.toIndexed).mp hlookup, Function.update_eq_self]
      rw [hsame]
      refine ⟨_, rfl, h, ?_⟩
      rw [if_neg (show ¬ IsNew reg (.remove keyid) from id)]
      rfl

theorem call_of_empty (hempty : s.maplist = []) (c : Call) : s.call c = some (gfsErr, s) := by
  cases c with
  | add keyid net => rw [ServerMap.call, ServerMap.netMapAdd, hempty]
  | remove keyid => rw [ServerMap.call, ServerMap.netMapRemove, hempty]

end

/-! ## Sequences of calls -/

theorem registered_append (before : List Call) (c : Call) :
    registered (before ++ [c]) = register (registered before) c := by
  rw [registered, List.foldl_append]
  rfl

theorem newKeys_append (reg : BitVec 32 → Option Conn) (before : List Call) (c : Call) :
    newKeys reg (before ++ [c]) = newKeys reg before + if IsNew (before.foldl register reg) c then 1 else 0 := by
  induction before generalizing reg with
  | nil =>
    rw [List.nil_append, newKeys, newKeys, newKeys, Nat.zero_add]
    rfl
  | cons d before ih => rw [List.cons_append, newKeys, newKeys, ih, List.foldl_cons, Nat.add_assoc]

theorem newKeys_registered (before : List Call) (c : Call) :
    newKeys (fun _ => none) (before ++ [c]) =
      newKeys (fun _ => none) before + if IsNew (registered before) c then 1 else 0 :=
  newKeys_append _ before c

theorem newKeys_le_append (reg : BitVec 32 → Option Conn) (before after : List Call) :
    newKeys reg before ≤ newKeys reg (before ++ after) := by
  induction before generalizing reg with
  | nil => exact Nat.zero_le _
  | cons d before ih =>
    rw [List.cons_append, newKeys, newKeys]
    exact Nat.add_le_add_left (ih _) _

theorem calls_append (s : ServerMap) (before : List Call) (c : Call) :
    s.calls (before ++ [c]) = (s.calls before).bind fun s => (s.call c).map Prod.snd := by
  rw [ServerMap.calls, List.foldlM_append]
  simp [ServerMap.calls]

theorem inv_init (data : Map → Conn) (qnodes : Links (Option Map)) : Inv (.netMapInit data qnodes) fun _ => none := by
  refine ⟨⟨.nil, ?_, ?_, ⟨[], Holds.init qnodes none, .nil⟩⟩, ⟨rfl, 0, .nil⟩, ?_⟩
  · exact fun node hnode => absurd hnode List.not_mem_nil
  · exact fun keyid conn hconn => absurd hconn nofun
  rw [ServerMap.netMapInit, RedBlack.Tree.toList, List.map_nil, List.append_nil, List.nodup_reverse]
  exact List.nodup_finRange gfsNetDsMaps

/-- The map after any sequence of calls: nothing has failed before all entries are used up, and everything fails from
then on. -/
theorem calls_spec (data : Map → Conn) (qnodes : Links (Option Map)) (before : List Call) :
    ∃ s, (ServerMap.netMapInit data qnodes).calls before = some s ∧
      (newKeys (fun _ => none) before < gfsNetDsMaps → Inv s (registered before) ∧
        s.maplist.length + newKeys (fun _ => none) before = gfsNetDsMaps) ∧
      (gfsNetDsMaps ≤ newKeys (fun _ => none) before → s.maplist = []) := by
  induction before using List.reverseRecOn with
  | nil =>
    refine ⟨_, rfl, fun _ => ⟨inv_init data qnodes, ?_⟩, fun h => absurd h (by decide)⟩
    rw [ServerMap.netMapInit, List.length_reverse, List.length_finRange]
    rfl
  | append_singleton before c ih =>
    obtain ⟨s, hcalls, hinv, hempty⟩ := ih
    rw [calls_append, hcalls, Option.bind_some, newKeys_registered]
    by_cases hfew : newKeys (fun _ => none) before < gfsNetDsMaps
    · obtain ⟨h, hlength⟩ := hinv hfew
      obtain ⟨s', hcall, h', hlength'⟩ := h.call (List.ne_nil_of_length_pos (by omega)) c
      refine ⟨s', by rw [hcall]; rfl, fun _ => ⟨registered_append before c ▸ h', by omega⟩, fun hmany => ?_⟩
      exact List.eq_nil_of_length_eq_zero (by omega)
    · have hnil := hempty (by omega)
      rw [call_of_empty hnil]
      exact ⟨s, rfl, fun h => absurd h (by omega), fun _ => hnil⟩

theorem not_succeeds (data : Map → Conn) (qnodes : Links (Option Map)) {before : List Call}
    (hmany : gfsNetDsMaps ≤ newKeys (fun _ => none) before) (c : Call) :
    ¬ Succeeds (.netMapInit data qnodes) (before ++ [c]) := by
  intro h
  obtain ⟨s, s', hcalls, hcall, -⟩ := h before c (List.prefix_refl _)
  obtain ⟨s₀, hcalls', -, hempty⟩ := calls_spec data qnodes before
  obtain rfl : s₀ = s := Option.some.inj (hcalls'.symm.trans hcalls)
  rw [call_of_empty (hempty hmany)] at hcall
  have herr : gfsErr = gfsOk := congrArg Prod.fst (Option.some.inj hcall)
  exact absurd herr (by decide)

theorem succeeds_iff (data : Map → Conn) (qnodes : Links (Option Map)) (cs : List Call) :
    Succeeds (.netMapInit data qnodes) cs ↔ newKeys (fun _ => none) cs.dropLast < gfsNetDsMaps := by
  constructor
  · intro h
    rcases List.eq_nil_or_concat' cs with rfl | ⟨before, c, rfl⟩
    · exact Nat.zero_lt_succ _
    · rw [List.dropLast_concat]
      by_contra hmany
      exact not_succeeds data qnodes (by omega) c h
  · intro hfew before c ⟨after, hcs⟩
    have hbefore : newKeys (fun _ => none) before < gfsNetDsMaps := by
      refine lt_of_le_of_lt ?_ hfew
      rw [← hcs, List.append_assoc, List.dropLast_append_of_ne_nil (by simp)]
      exact newKeys_le_append _ _ _
    obtain ⟨s, hcalls, hinv, -⟩ := calls_spec data qnodes before
    obtain ⟨h, hlength⟩ := hinv hbefore
    obtain ⟨s', hcall, h', -⟩ := h.call (List.ne_nil_of_length_pos (by omega)) c
    exact ⟨s, s', hcalls, hcall, registered_append before c ▸ h'.serves⟩

/-- No more keys than entries are registered at any time. -/
def Fits (cs : List Call) : Prop :=
  ∀ before, before <+: cs → ∃ keys : List (BitVec 32), keys.length ≤ gfsNetDsMaps ∧
    ∀ keyid, (registered before keyid).isSome → keyid ∈ keys

def Call.keyid : Call → BitVec 32
  | .add keyid _ => keyid
  | .remove keyid => keyid

theorem registered_of_ne {cs : List Call} {keyid : BitVec 32} (h : ∀ c ∈ cs, c.keyid ≠ keyid) :
    registered cs keyid = none := by
  induction cs using List.reverseRecOn with
  | nil => rfl
  | append_singleton cs c ih =>
    have hc : keyid ≠ c.keyid := (h c (by simp)).symm
    have hrest := ih fun d hd => h d (List.mem_append_left [c] hd)
    rw [registered_append]
    cases c with
    | add k net => exact (Function.update_of_ne hc _ _).trans hrest
    | remove k => exact (Function.update_of_ne hc _ _).trans hrest

/-- One data server that comes and goes -/
def reconnects (n : ℕ) : List Call := (List.replicate n [.add 7 1, .remove 7]).flatten

theorem newKeys_reconnects (n : ℕ) : newKeys (fun _ => none) (reconnects n) = n := by
  induction n with
  | zero => rfl
  | succ n ih =>
    have hback : register (register (fun _ => none) (.add 7 1)) (.remove 7) = fun _ => none := by
      rw [register, register, Function.update_idem]
      exact Function.update_eq_self 7 _
    have hnew : IsNew (fun _ => none) (.add 7 1) := rfl
    rw [reconnects, List.replicate_succ, List.flatten_cons, List.cons_append, List.cons_append, List.nil_append, newKeys,
      newKeys, hback, if_pos hnew, if_neg (show ¬ IsNew _ (.remove 7) from id), Nat.zero_add, Nat.add_comm]
    exact congrArg (· + 1) ih

/-- The 1025th time that the only data server connects, it is refused. -/
theorem map_wears_out : Fits (reconnects 1024 ++ [.add 7 1]) ∧
    ¬ Succeeds (.netMapInit (fun _ => 0) ⟨fun _ => none, fun _ => none⟩) (reconnects 1024 ++ [.add 7 1]) := by
  constructor
  · intro before ⟨after, hcs⟩
    refine ⟨[7], by decide, fun keyid hkeyid => ?_⟩
    by_contra hne
    have hkeys : ∀ c ∈ before, c.keyid ≠ keyid := by
      intro c hc heq
      have hmem : c ∈ reconnects 1024 ++ [.add 7 1] := hcs ▸ List.mem_append_left after hc
      have hseven : c.keyid = 7 := by
        simp only [reconnects, List.mem_append, List.mem_flatten, List.mem_replicate, List.mem_singleton] at hmem
        rcases hmem with ⟨l, ⟨-, rfl⟩, hc⟩ | rfl
        · rcases List.mem_cons.mp hc with rfl | hc
          · rfl
          · rw [List.mem_singleton.mp hc]
            rfl
        · rfl
      exact hne (by rw [← heq, hseven]; exact List.mem_singleton_self 7)
    rw [registered_of_ne hkeys] at hkeyid
    cases hkeyid
  · refine not_succeeds _ _ ?_ _
    rw [newKeys_reconnects]
    exact le_refl 1024

end Tefs.NameServer.NetMap
