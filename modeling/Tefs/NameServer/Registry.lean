import Mathlib.Data.Int.Notation
import Mathlib.Data.List.Nodup
import Mathlib.Logic.Function.Basic
import Tefs.Lib.Runs

/-! # The registry of data servers

Source: `nameservice/net/gfs_net_map.c`, `gfs_net_node_get` and `gfs_net_close` of `net/gfs_net.c`, and
`gfs_busi_login_handle` of `busi/gfs_busi_login.c`.

A connection is one of the nodes of the pool, reused after a close. The registry maps a data server's
id to the connection it logged in on; its own nodes come from a list of `GFS_NET_DS_MAPS` that nothing
ever refills.
-/

namespace Tefs.NameServer.Registry
open Runs
set_option autoImplicit false

/-! ## State -/

abbrev Conn := ℕ

/-- `gfs_net_data_t` as far as a login sets it -/
structure User where
  ctype : BitVec 32
  dsid : BitVec 32
  resize : BitVec 64
  dsize : BitVec 64
  cfft : BitVec 32
  port : BitVec 32
  deriving DecidableEq, Repr

def User.zero : User := ⟨0, 0, 0, 0, 0, 0⟩

def clientTypePs : BitVec 32 := 0
def clientTypeDs : BitVec 32 := 1

def gfsNetDsMaps : ℕ := 1024

/-- `maplist` is the number of nodes left there, `map` the tree. -/
structure Server where
  freeList : List Conn
  usedList : List Conn
  user : Conn → User
  maplist : ℕ
  map : BitVec 32 → Option Conn

def Server.init (num : ℕ) : Server where
  freeList := List.range num
  usedList := []
  user := fun _ => .zero
  maplist := gfsNetDsMaps
  map := fun _ => none

/-! ## gfs_net_map -/

def gfsOk : ℤ := 0
def gfsErr : ℤ := 1

def netMapGet (s : Server) (keyid : BitVec 32) : Option Conn := s.map keyid

def netMapAdd (s : Server) (keyid : BitVec 32) (net : Conn) : ℤ × Server :=
  if s.maplist = 0 then (gfsErr, s)
  else
    let map := Function.update s.map keyid (some net)
    if (s.map keyid).isSome then (gfsOk, { s with map := map })
    else (gfsOk, { s with map := map, maplist := s.maplist - 1 })

def netMapRemove (s : Server) (keyid : BitVec 32) : ℤ × Server :=
  if s.maplist = 0 then (gfsErr, s)
  else (gfsOk, { s with map := Function.update s.map keyid none })

/-! ## Connections -/

/-- `gfs_net_node_get` -/
def netNodeGet (s : Server) : Option Conn × Server :=
  match s.freeList with
  | [] => (none, s)
  | c :: rest =>
    (some c, { s with freeList := rest, usedList := c :: s.usedList,
                      user := Function.update s.user c .zero })

def netClose (s : Server) (c : Conn) : Server :=
  let s := { s with usedList := s.usedList.erase c, freeList := c :: s.freeList }
  if (s.user c).ctype = clientTypeDs then (netMapRemove s (s.user c).dsid).2 else s

/-! ## Login -/

structure LoginReq where
  encrypt : BitVec 32
  type : BitVec 32
  dsid : BitVec 32
  remain : BitVec 64
  disk : BitVec 64
  port : BitVec 32
  deriving DecidableEq, Repr

def rtnOk : ℤ := 0
def rtnSysErr : ℤ := 1
def rtnUnknownClient : ℤ := 7

def LoginReq.toUser (req : LoginReq) : User where
  ctype := req.type
  dsid := req.dsid
  resize := req.remain
  dsize := req.disk
  cfft := ((req.remain * 100) / req.disk).setWidth 32
  port := req.port

/-- The return code of the answer and the state; `none` where the division by `disk` ends the process. -/
def loginHandle (s : Server) (c : Conn) (req : LoginReq) (mysqlOk : Bool) : Option (ℤ × Server) :=
  if req.encrypt ≠ 0 then some (rtnOk, s)
  else if req.type = clientTypePs then some (rtnOk, s)
  else if req.type ≠ clientTypeDs then some (rtnUnknownClient, s)
  else if req.disk < req.remain then some (rtnOk, s)
  else if ¬ mysqlOk then some (rtnSysErr, s)
  else if req.disk = 0 then none
  else
    let (ret, s) := netMapAdd { s with user := Function.update s.user c req.toUser } req.dsid c
    some (if ret = gfsOk then rtnOk else rtnSysErr, s)

/-- The login gets as far as setting `c->user`. -/
def LoginReq.Accepted (req : LoginReq) (mysqlOk : Bool) : Prop :=
  req.encrypt = 0 ∧ req.type = clientTypeDs ∧ req.remain ≤ req.disk ∧ mysqlOk = true

instance (req : LoginReq) (mysqlOk : Bool) : Decidable (req.Accepted mysqlOk) :=
  inferInstanceAs (Decidable (_ ∧ _))

/-! ## Histories -/

/-- What happened to connections, the latest first. -/
inductive Happened
  | accepted (c : Conn)
  | loggedIn (c : Conn) (dsid : BitVec 32)
  deriving DecidableEq, Repr

structure World where
  server : Server
  log : List Happened

def World.init (num : ℕ) : World := ⟨.init num, []⟩

/-- The id of the latest successful login on the connection that `c` now is. -/
def latestLogin (c : Conn) : List Happened → Option (BitVec 32)
  | [] => none
  | .accepted d :: log => if d = c then none else latestLogin c log
  | .loggedIn d k :: log => if d = c then some k else latestLogin c log

/-- The connection of the latest successful login with the id `k`. -/
def lastUser (k : BitVec 32) : List Happened → Option Conn
  | [] => none
  | .accepted _ :: log => lastUser k log
  | .loggedIn d j :: log => if j = k then some d else lastUser k log

inductive Event
  | accept
  | login (c : Conn) (req : LoginReq) (mysqlOk : Bool)
  | close (c : Conn)
  deriving DecidableEq, Repr

def World.accept (w : World) : World :=
  match netNodeGet w.server with
  | (none, s) => ⟨s, w.log⟩
  | (some c, s) => ⟨s, .accepted c :: w.log⟩

/-- A login is a successful one of a data server if it ends in the registry. -/
def World.login (w : World) (c : Conn) (req : LoginReq) (mysqlOk : Bool) : Option World :=
  (loginHandle w.server c req mysqlOk).map fun (rtn, s) =>
    ⟨s, if req.Accepted mysqlOk ∧ rtn = rtnOk then .loggedIn c req.dsid :: w.log else w.log⟩

def World.step (w : World) : Event → Option World
  | .accept => some w.accept
  | .login c req mysqlOk => w.login c req mysqlOk
  | .close c => some ⟨netClose w.server c, w.log⟩

def Step (w : World) (e : Event) (w' : World) : Prop := w.step e = some w'

/-- Messages arrive, and closes happen, on open connections. -/
def Enabled (w : World) : Event → Prop
  | .accept => True
  | .login c _ _ => c ∈ w.server.usedList
  | .close c => c ∈ w.server.usedList

instance (w : World) : ∀ e, Decidable (Enabled w e)
  | .accept => .isTrue trivial
  | .login c _ _ | .close c => inferInstanceAs (Decidable (c ∈ w.server.usedList))

/-! ## The registry matches the connections -/

def Correct (w : World) : Prop :=
  (∀ k c, netMapGet w.server k = some c → c ∈ w.server.usedList ∧ (w.server.user c).dsid = k) ∧
  ∀ c k, c ∈ w.server.usedList → latestLogin c w.log = some k → lastUser k w.log = some c →
    netMapGet w.server k = some c

/-- No connection logs in under an id while it is registered under another one. A data server's
connection is closed only while its id is registered to itself or to none, and with no map nodes left
only while it is not registered to itself. -/
def Orderly (w : World) : Event → Prop
  | .accept => True
  | .login c req mysqlOk =>
    req.Accepted mysqlOk →
      ¬ (w.server.map (w.server.user c).dsid = some c ∧ (w.server.user c).dsid ≠ req.dsid)
  | .close c =>
    (w.server.user c).ctype = clientTypeDs →
      if w.server.maplist = 0 then w.server.map (w.server.user c).dsid ≠ some c
      else w.server.map (w.server.user c).dsid = some c ∨ w.server.map (w.server.user c).dsid = none

instance (w : World) : ∀ e, Decidable (Orderly w e)
  | .accept => .isTrue trivial
  | .login _ _ _ | .close _ => inferInstanceAs (Decidable (_ → _))

/-! ## What a step does -/

theorem loginHandle_of_not_accepted {s : Server} {c : Conn} {req : LoginReq} {mysqlOk : Bool}
    (h : ¬ req.Accepted mysqlOk) : ∃ rtn, loginHandle s c req mysqlOk = some (rtn, s) := by
  rw [loginHandle]
  by_cases hencrypt : req.encrypt ≠ 0
  · exact ⟨rtnOk, if_pos hencrypt⟩
  rw [if_neg hencrypt]
  by_cases hps : req.type = clientTypePs
  · exact ⟨rtnOk, if_pos hps⟩
  rw [if_neg hps]
  by_cases htype : req.type ≠ clientTypeDs
  · exact ⟨rtnUnknownClient, if_pos htype⟩
  rw [if_neg htype]
  by_cases hdisk : req.disk < req.remain
  · exact ⟨rtnOk, if_pos hdisk⟩
  rw [if_neg hdisk]
  have hsql : ¬ mysqlOk = true := fun hsql =>
    h ⟨not_not.1 hencrypt, not_not.1 htype, BitVec.not_lt.1 hdisk, hsql⟩
  exact ⟨rtnSysErr, if_pos hsql⟩

theorem loginHandle_of_accepted {s s' : Server} {c : Conn} {req : LoginReq} {mysqlOk : Bool} {rtn : ℤ}
    (hacc : req.Accepted mysqlOk) (h : loginHandle s c req mysqlOk = some (rtn, s')) :
    (s.maplist = 0 ∧ rtn = rtnSysErr ∧
      s' = { s with user := Function.update s.user c req.toUser }) ∨
    (rtn = rtnOk ∧ ∃ n, s' = { s with
      user := Function.update s.user c req.toUser, maplist := n,
      map := Function.update s.map req.dsid (some c) }) := by
  obtain ⟨hencrypt, htype, hremain, hsql⟩ := hacc
  have hdisk : ¬ req.disk < req.remain := BitVec.not_lt.2 hremain
  have hps : ¬ clientTypeDs = clientTypePs := by decide
  simp only [loginHandle, hencrypt, htype, hps, hdisk, hsql, ne_eq, not_true_eq_false, if_false] at h
  by_cases hzero : req.disk = 0
  · rw [if_pos hzero] at h
    cases h
  · rw [if_neg hzero, netMapAdd] at h
    by_cases hnodes : s.maplist = 0
    · rw [if_pos hnodes] at h
      simp only [Option.some.injEq, Prod.mk.injEq] at h
      exact .inl ⟨hnodes, h.1.symm, h.2.symm⟩
    · right
      simp only [hnodes, if_false] at h
      split at h <;> simp only [Option.some.injEq, Prod.mk.injEq, if_true] at h
      · exact ⟨h.1.symm, s.maplist, h.2.symm⟩
      · exact ⟨h.1.symm, s.maplist - 1, h.2.symm⟩

theorem login_cases {w w' : World} {c : Conn} {req : LoginReq} {mysqlOk : Bool}
    (h : w.login c req mysqlOk = some w') :
    (¬ req.Accepted mysqlOk ∧ w' = w) ∨
    (req.Accepted mysqlOk ∧
      w' = ⟨{ w.server with user := Function.update w.server.user c req.toUser }, w.log⟩) ∨
    (req.Accepted mysqlOk ∧ ∃ n, w' = ⟨{ w.server with
      user := Function.update w.server.user c req.toUser, maplist := n,
      map := Function.update w.server.map req.dsid (some c) }, .loggedIn c req.dsid :: w.log⟩) := by
  obtain ⟨⟨rtn, s⟩, hs, rfl⟩ := Option.map_eq_some_iff.1 h
  by_cases hacc : req.Accepted mysqlOk
  · right
    obtain ⟨-, rfl, rfl⟩ | ⟨rfl, n, rfl⟩ := loginHandle_of_accepted hacc hs
    · exact .inl ⟨hacc, by simp [hacc, rtnSysErr, rtnOk]⟩
    · exact .inr ⟨hacc, n, by simp [hacc]⟩
  · left
    obtain ⟨rtn', hrtn⟩ := loginHandle_of_not_accepted (s := w.server) (c := c) hacc
    rw [hrtn] at hs
    cases hs
    exact ⟨hacc, by simp [hacc]⟩

/-- The tree after a close. -/
def closedMap (s : Server) (c : Conn) : BitVec 32 → Option Conn :=
  if (s.user c).ctype = clientTypeDs ∧ s.maplist ≠ 0 then
    Function.update s.map (s.user c).dsid none
  else s.map

theorem netClose_eq (s : Server) (c : Conn) :
    netClose s c = { s with
      usedList := s.usedList.erase c, freeList := c :: s.freeList, map := closedMap s c } := by
  rw [netClose, closedMap]
  by_cases htype : (s.user c).ctype = clientTypeDs
  · by_cases hnodes : s.maplist = 0
    · simp [htype, hnodes, netMapRemove]
    · simp [htype, hnodes, netMapRemove]
  · simp [htype]

/-! ## The invariant -/

structure Inv (w : World) : Prop where
  nodup : w.server.usedList.Nodup
  free : ∀ c ∈ w.server.freeList, c ∉ w.server.usedList
  freeNodup : w.server.freeList.Nodup
  entry : ∀ k c, w.server.map k = some c → c ∈ w.server.usedList ∧
    (w.server.user c).ctype = clientTypeDs ∧ (w.server.user c).dsid = k ∧
    latestLogin c w.log = some k ∧ lastUser k w.log = some c
  found : ∀ c k, c ∈ w.server.usedList → latestLogin c w.log = some k → lastUser k w.log = some c →
    w.server.map k = some c

theorem Inv.correct {w : World} (h : Inv w) : Correct w :=
  ⟨fun k c hk => ⟨(h.entry k c hk).1, (h.entry k c hk).2.2.1⟩, h.found⟩

theorem Inv.init (num : ℕ) : Inv (World.init num) where
  nodup := List.nodup_nil
  free := fun _ _ => List.not_mem_nil
  freeNodup := List.nodup_range
  entry := fun _ _ hk => by cases hk
  found := fun _ _ hc => by cases hc

theorem Inv.accept {w : World} (h : Inv w) : Inv w.accept := by
  obtain ⟨⟨freeList, usedList, user, maplist, map⟩, log⟩ := w
  cases freeList with
  | nil => exact h
  | cons c rest =>
    have hc : c ∉ usedList := h.free c List.mem_cons_self
    refine ⟨List.nodup_cons.2 ⟨hc, h.nodup⟩, fun d hd hmem => ?_, (List.nodup_cons.1 h.freeNodup).2,
      fun k d hk => ?_, fun d k hd hlogin huser => ?_⟩
    · rcases List.mem_cons.1 hmem with rfl | hmem
      · exact (List.nodup_cons.1 h.freeNodup).1 hd
      · exact h.free d (List.mem_cons_of_mem c hd) hmem
    · obtain ⟨hd, htype, hdsid, hlogin, huser⟩ := h.entry k d hk
      have hne : d ≠ c := fun heq => hc (heq ▸ hd)
      refine ⟨List.mem_cons_of_mem c hd, ?_, ?_, ?_, huser⟩
      · rw [← htype]
        exact congrArg User.ctype (Function.update_of_ne hne _ _)
      · rw [← hdsid]
        exact congrArg User.dsid (Function.update_of_ne hne _ _)
      · rw [← hlogin]
        exact if_neg (Ne.symm hne)
    · have hne : c ≠ d := by
        intro heq
        have hnone : latestLogin d (.accepted c :: log) = none := if_pos heq
        exact absurd (hnone.symm.trans hlogin) (by simp)
      have hlogin' : latestLogin d log = some k := by
        rw [← hlogin]
        exact (if_neg hne).symm
      exact h.found d k ((List.mem_cons.1 hd).resolve_left hne.symm) hlogin' huser

theorem Inv.login {w w' : World} {c : Conn} {req : LoginReq} {mysqlOk : Bool} (h : Inv w)
    (hc : c ∈ w.server.usedList) (hok : Orderly w (.login c req mysqlOk))
    (hw : w.login c req mysqlOk = some w') : Inv w' := by
  -- every entry for `c` is under the id of this login
  have hown : req.Accepted mysqlOk → ∀ k, w.server.map k = some c → k = req.dsid := by
    intro hacc k hk
    have hdsid := (h.entry k c hk).2.2.1
    by_contra hne
    exact hok hacc (by rw [hdsid]; exact ⟨hk, hne⟩)
  have huser : ∀ d, d ≠ c → Function.update w.server.user c req.toUser d = w.server.user d :=
    fun d hd => Function.update_of_ne hd _ _
  have hself : Function.update w.server.user c req.toUser c = req.toUser := Function.update_self _ _ _
  obtain ⟨-, rfl⟩ | ⟨hacc, rfl⟩ | ⟨hacc, n, rfl⟩ := login_cases hw
  · exact h
  · refine ⟨h.nodup, h.free, h.freeNodup, fun k d hk => ?_, h.found⟩
    obtain ⟨hd, htype, hdsid, hlogin, hlast⟩ := h.entry k d hk
    by_cases hdc : d = c
    · subst hdc
      exact ⟨hd, (congrArg User.ctype hself).trans hacc.2.1,
        (congrArg User.dsid hself).trans (hown hacc k hk).symm, hlogin, hlast⟩
    · exact ⟨hd, (congrArg User.ctype (huser d hdc)).trans htype,
        (congrArg User.dsid (huser d hdc)).trans hdsid, hlogin, hlast⟩
  · refine ⟨h.nodup, h.free, h.freeNodup, fun k d hk => ?_, fun d k hd hlogin hlast => ?_⟩
    · by_cases hkey : k = req.dsid
      · subst hkey
        have hd : d = c := by simpa [Function.update_self] using hk.symm
        subst hd
        exact ⟨hc, (congrArg User.ctype hself).trans hacc.2.1, congrArg User.dsid hself, if_pos rfl,
          if_pos rfl⟩
      · have hold : w.server.map k = some d := by
          rw [← hk]
          exact (Function.update_of_ne hkey _ _).symm
        obtain ⟨hd, htype, hdsid, hlogin, hlast⟩ := h.entry k d hold
        have hdc : d ≠ c := fun heq => hkey (hown hacc k (heq ▸ hold))
        refine ⟨hd, (congrArg User.ctype (huser d hdc)).trans htype,
          (congrArg User.dsid (huser d hdc)).trans hdsid, ?_, ?_⟩
        · rw [← hlogin]
          exact if_neg hdc.symm
        · rw [← hlast]
          exact if_neg (Ne.symm hkey)
    · by_cases hkey : k = req.dsid
      · subst hkey
        have hd : c = d := by simpa [lastUser] using hlast
        rw [← hd]
        exact Function.update_self _ _ _
      · have hlast' : lastUser k w.log = some d := by
          rw [← hlast]
          exact (if_neg (Ne.symm hkey)).symm
        have hdc : c ≠ d := by
          intro heq
          have hnow : latestLogin d (.loggedIn c req.dsid :: w.log) = some req.dsid := if_pos heq
          exact hkey (Option.some.inj (hlogin.symm.trans hnow))
        have hlogin' : latestLogin d w.log = some k := by
          rw [← hlogin]
          exact (if_neg hdc).symm
        have hfound := h.found d k hd hlogin' hlast'
        rw [← hfound]
        exact Function.update_of_ne hkey _ _

/-- What is left after an orderly close was there before, and belongs to another connection. -/
theorem closedMap_of_orderly {w : World} {c d : Conn} {k : BitVec 32} (h : Inv w)
    (hok : Orderly w (.close c)) (hk : closedMap w.server c k = some d) :
    w.server.map k = some d ∧ d ≠ c := by
  have hfound : ∀ {k}, w.server.map k = some c → (w.server.user c).ctype = clientTypeDs ∧
      (w.server.user c).dsid = k := fun hk => ⟨(h.entry _ c hk).2.1, (h.entry _ c hk).2.2.1⟩
  rw [closedMap] at hk
  split at hk
  · rename_i hcond
    by_cases hkey : k = (w.server.user c).dsid
    · subst hkey
      rw [Function.update_self] at hk
      cases hk
    · rw [Function.update_of_ne hkey] at hk
      refine ⟨hk, fun hd => ?_⟩
      subst hd
      exact hkey (hfound hk).2.symm
  · rename_i hcond
    refine ⟨hk, fun hd => ?_⟩
    subst hd
    obtain ⟨htype, hdsid⟩ := hfound hk
    have hnodes : w.server.maplist = 0 := by
      by_contra hne
      exact hcond ⟨htype, hne⟩
    have hnot := hok htype
    rw [if_pos hnodes, hdsid] at hnot
    exact hnot hk

theorem Inv.close {w : World} {c : Conn} (h : Inv w) (hc : c ∈ w.server.usedList)
    (hok : Orderly w (.close c)) : Inv ⟨netClose w.server c, w.log⟩ := by
  rw [netClose_eq]
  refine ⟨h.nodup.erase c, fun d hd hmem => ?_, ?_, fun k d hk => ?_, fun d k hd hlogin hlast => ?_⟩
  · rcases List.mem_cons.1 hd with rfl | hd
    · exact h.nodup.not_mem_erase hmem
    · exact h.free d hd (List.mem_of_mem_erase hmem)
  · exact List.nodup_cons.2 ⟨fun hfree => h.free c hfree hc, h.freeNodup⟩
  · obtain ⟨hold, hne⟩ := closedMap_of_orderly h hok hk
    obtain ⟨hd, htype, hdsid, hlogin, hlast⟩ := h.entry k d hold
    exact ⟨(List.mem_erase_of_ne hne).2 hd, htype, hdsid, hlogin, hlast⟩
  · obtain ⟨hne, hmem⟩ := h.nodup.mem_erase_iff.1 hd
    have hfound := h.found d k hmem hlogin hlast
    show closedMap w.server c k = some d
    rw [closedMap]
    split
    · rename_i hcond
      have hkey : k ≠ (w.server.user c).dsid := by
        intro heq
        have hclose := hok hcond.1
        rw [if_neg hcond.2, ← heq, hfound] at hclose
        rcases hclose with hsame | hnone
        · exact hne (Option.some.inj hsame)
        · cases hnone
      rw [Function.update_of_ne hkey, hfound]
    · exact hfound

theorem Inv.step {w w' : World} {e : Event} (h : Inv w) (hen : Enabled w e) (hok : Orderly w e)
    (hstep : Step w e w') : Inv w' := by
  cases e with
  | accept =>
    obtain rfl : w.accept = w' := Option.some.inj hstep
    exact h.accept
  | login c req mysqlOk => exact h.login hen hok hstep
  | close c =>
    obtain rfl : (⟨netClose w.server c, w.log⟩ : World) = w' := Option.some.inj hstep
    exact h.close hen hok

/-! ## Steps that are not orderly -/

/-- A second id on one connection leaves the entry of the first behind. -/
theorem not_correct_login {w w' : World} {c : Conn} {req : LoginReq} {mysqlOk : Bool}
    (hno : ¬ Orderly w (.login c req mysqlOk)) (hw : w.login c req mysqlOk = some w') : ¬ Correct w' := by
  intro hcorrect
  obtain ⟨hacc, hbad⟩ := Classical.not_imp.1 hno
  obtain ⟨hentry, hne⟩ := not_not.1 hbad
  have hself : Function.update w.server.user c req.toUser c = req.toUser := Function.update_self _ _ _
  obtain ⟨hnot, -⟩ | ⟨-, rfl⟩ | ⟨-, n, rfl⟩ := login_cases hw
  · exact hnot hacc
  · have hdsid := (hcorrect.1 _ c hentry).2
    exact hne (hdsid.symm.trans (congrArg User.dsid hself))
  · have hkept : Function.update w.server.map req.dsid (some c) (w.server.user c).dsid = some c := by
      rw [Function.update_of_ne hne, hentry]
    have hdsid := (hcorrect.1 _ c hkept).2
    exact hne (hdsid.symm.trans (congrArg User.dsid hself))

/-- A close removes the entry of a newer connection, or leaves its own. -/
theorem not_correct_close {w : World} {c : Conn} (h : Inv w) (hno : ¬ Orderly w (.close c)) :
    ¬ Correct ⟨netClose w.server c, w.log⟩ := by
  rw [netClose_eq]
  intro hcorrect
  obtain ⟨htype, hbad⟩ := Classical.not_imp.1 hno
  by_cases hnodes : w.server.maplist = 0
  · rw [if_pos hnodes, not_not] at hbad
    have hkept : closedMap w.server c (w.server.user c).dsid = some c := by
      rw [closedMap, if_neg (fun hcond => hcond.2 hnodes), hbad]
    exact h.nodup.not_mem_erase (hcorrect.1 _ c hkept).1
  · rw [if_neg hnodes, not_or] at hbad
    obtain ⟨hother, hsome⟩ := hbad
    obtain ⟨d, hd⟩ := Option.ne_none_iff_exists'.1 hsome
    have hne : d ≠ c := fun heq => hother (heq ▸ hd)
    obtain ⟨hmem, -, -, hlogin, hlast⟩ := h.entry _ d hd
    have hfound := hcorrect.2 d _ ((List.mem_erase_of_ne hne).2 hmem) hlogin hlast
    have hgone : closedMap w.server c (w.server.user c).dsid = none := by
      rw [closedMap, if_pos ⟨htype, hnodes⟩, Function.update_self]
    exact absurd (hgone.symm.trans hfound) (by simp)

/-! ## Runs -/

theorem inv_of_reaches {num : ℕ} {es : List Event} {w : World}
    (h : Reaches Step (fun w e => Enabled w e ∧ Orderly w e) (World.init num) es w) : Inv w :=
  h.invariant (fun _ _ _ hinv hok hstep => hinv.step hok.1 hok.2 hstep) (Inv.init num)

/-- In every run of orderly steps each state is correct, and the first step that is not orderly leads to
a state that is not. -/
theorem registry_correct_iff_orderly {num : ℕ} {es : List Event} {w : World}
    (h : Reaches Step (fun w e => Enabled w e ∧ Orderly w e) (World.init num) es w) :
    Correct w ∧ ∀ e w', Enabled w e → Step w e w' → (Correct w' ↔ Orderly w e) := by
  have hinv := inv_of_reaches h
  refine ⟨hinv.correct, fun e w' hen hstep => ⟨fun hcorrect => ?_, fun hok => ?_⟩⟩
  · by_contra hno
    cases e with
    | accept => exact hno trivial
    | login c req mysqlOk => exact not_correct_login hno hstep hcorrect
    | close c =>
      obtain rfl : (⟨netClose w.server c, w.log⟩ : World) = w' := Option.some.inj hstep
      exact not_correct_close hinv hno hcorrect
  · exact (hinv.step hen hok hstep).correct

def exampleLogin : LoginReq := ⟨0, clientTypeDs, 7, 50, 100, 9000⟩

/-- A data server logs in, is registered, and its registration goes with the connection. -/
theorem registry_correct_login_close :
    ∃ w w', Reaches Step (fun w e => Enabled w e ∧ Orderly w e) (World.init 2)
        [.accept, .login 0 exampleLogin true] w ∧
      netMapGet w.server 7 = some 0 ∧ Correct w ∧ Step w (.close 0) w' ∧ Correct w' := by
  have hrun : Reaches Step (fun w e => Enabled w e ∧ Orderly w e) (World.init 2)
      [.accept, .login 0 exampleLogin true] _ :=
    .cons ⟨trivial, trivial⟩ rfl (.cons ⟨by decide, by decide⟩ rfl (.nil _))
  have hmain := registry_correct_iff_orderly hrun
  refine ⟨_, _, hrun, by decide, hmain.1, rfl, (hmain.2 (.close 0) _ ?_ rfl).2 ?_⟩
  · decide
  · decide

/-- A data server reconnects before its old connection is closed: the close unregisters it. -/
theorem stale_close_unregisters :
    ∃ w, Reaches Step Enabled (World.init 2)
        [.accept, .accept, .login 0 exampleLogin true, .login 1 exampleLogin true, .close 0] w ∧
      netMapGet w.server 7 = none ∧ ¬ Correct w := by
  refine ⟨_, .cons trivial rfl (.cons trivial rfl (.cons ?_ rfl (.cons ?_ rfl (.cons ?_ rfl (.nil _))))),
    ?_, fun hcorrect => ?_⟩
  · decide
  · decide
  · decide
  · decide
  · exact absurd (hcorrect.2 1 7 (by decide) (by decide) (by decide)) (by decide)

end Tefs.NameServer.Registry
