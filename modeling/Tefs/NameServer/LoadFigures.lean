import Tefs.NameServer.Handlers
import Tefs.NameServer.Placement

/-! # The load figures of a data server

Source: the computation of `user.cfft` in `gfs_busi_login_handle`, `gfs_busi_heartbeat_handle` of
`nameservice/busi/gfs_busi_heartbeat.c`, and the sum in `gfs_net_ds_cmp`.

The product with 100 is taken in 64 bits, and a disk of size 0 is not ruled out.
-/

namespace Tefs.NameServer.Handlers
open NetMap (Load)
set_option autoImplicit false

/-! ## Heartbeats -/

/-- `weighted` is unsigned, so the test for a negative one never holds. -/
def heartbeatHandle (ctype : BitVec 32) (load : Load) (req : Message.Heartbeat) : Load :=
  if req.head.encrypt ≠ 0 then load
  else if ctype = Registry.clientTypePs then load
  else if 100 < req.weighted then load
  else { load with weight := req.weighted }

/-- The login computes figures that are percentages of the disk, and no heartbeat after it takes the load beyond 200. -/
structure Figures (e : Env) (c : Registry.Conn) (req : Registry.LoginReq) (s : State) : Prop where
  divides : req.disk ≠ 0
  product : req.remain.toNat * 100 < 2 ^ 64
  stored : ∃ x, loginHandle e c req s = some x ∧
    let user := x.state.server.user c
    user.cfft.toNat ≤ 100 ∧ user.cfft.toNat = 100 * req.remain.toNat / req.disk.toNat ∧
    ∀ weight : BitVec 32, weight ≤ 100 → ∀ hbs : List Message.Heartbeat,
      let load := hbs.foldl (heartbeatHandle user.ctype) ⟨user.cfft, weight⟩
      load.sum.toNat = load.weight.toNat + load.cfft.toNat ∧ load.sum.toNat ≤ 200

/-! ## The load after heartbeats -/

theorem heartbeatHandle_cfft (ctype : BitVec 32) (load : Load) (req : Message.Heartbeat) :
    (heartbeatHandle ctype load req).cfft = load.cfft := by
  unfold heartbeatHandle
  split_ifs <;> rfl

theorem heartbeatHandle_weight {ctype : BitVec 32} {load : Load} (req : Message.Heartbeat) (h : load.weight ≤ 100) :
    (heartbeatHandle ctype load req).weight ≤ 100 := by
  unfold heartbeatHandle
  split
  · exact h
  split
  · exact h
  split
  · exact h
  · next hweighted => exact BitVec.not_lt.mp hweighted

theorem heartbeats_load (ctype : BitVec 32) (hbs : List Message.Heartbeat) {load : Load} (h : load.weight ≤ 100) :
    (hbs.foldl (heartbeatHandle ctype) load).cfft = load.cfft ∧
    (hbs.foldl (heartbeatHandle ctype) load).weight ≤ 100 := by
  induction hbs generalizing load with
  | nil => exact ⟨rfl, h⟩
  | cons req hbs ih =>
    have hhead : (heartbeatHandle ctype load req).weight ≤ 100 := heartbeatHandle_weight req h
    have hrest := ih hhead
    rwa [heartbeatHandle_cfft] at hrest

theorem sum_of_le {load : Load} (hweight : load.weight ≤ 100) (hcfft : load.cfft.toNat ≤ 100) :
    load.sum.toNat = load.weight.toNat + load.cfft.toNat ∧ load.sum.toNat ≤ 200 := by
  have hw : load.weight.toNat ≤ 100 := hweight
  rw [Load.sum, BitVec.toNat_add]
  omega

/-! ## The login -/

section

variable {e : Env} {c : Registry.Conn} {req : Registry.LoginReq} {s : State}

theorem netMapAdd_user (server : Registry.Server) (keyid : BitVec 32) (net : Registry.Conn) :
    (Registry.netMapAdd server keyid net).2.user = server.user := by
  unfold Registry.netMapAdd
  split_ifs <;> rfl

theorem loginHandle_accepted (haccepted : req.Accepted (mysqlLogin e req s.db).1) (hdisk : req.disk ≠ 0) :
    ∃ x, loginHandle e c req s = some x ∧ x.state.server.user c = req.toUser := by
  obtain ⟨hencrypt, htype, hremain, hok⟩ := haccepted
  have huser := netMapAdd_user { s.server with user := Function.update s.server.user c req.toUser } req.dsid c
  unfold loginHandle
  rw [if_neg (not_not.mpr hencrypt), if_neg (by rw [htype]; decide), if_neg (not_not.mpr htype),
    if_neg (BitVec.not_lt.mpr hremain)]
  dsimp only
  rw [if_neg (by rw [hok]; decide), if_neg hdisk]
  split
  · refine ⟨_, rfl, ?_⟩
    exact (congrFun huser c).trans (Function.update_self ..)
  · refine ⟨_, rfl, ?_⟩
    exact (congrFun huser c).trans (Function.update_self ..)

theorem cfft_toNat (hremain : req.remain ≤ req.disk) :
    req.toUser.cfft.toNat = req.remain.toNat * 100 % 2 ^ 64 / req.disk.toNat := by
  have hle : req.remain.toNat * 100 % 2 ^ 64 / req.disk.toNat ≤ 100 := by
    have hremain' : req.remain.toNat ≤ req.disk.toNat := hremain
    apply Nat.div_le_of_le_mul
    omega
  have hudiv : (req.remain * 100 / req.disk).toNat = req.remain.toNat * 100 % 2 ^ 64 / req.disk.toNat := by
    rw [BitVec.toNat_udiv, BitVec.toNat_mul]
    rfl
  rw [Registry.LoginReq.toUser, BitVec.toNat_setWidth, hudiv]
  omega

/-- Where the product wraps, the figure is too small by at least one. -/
theorem cfft_of_wrap (hdisk : req.disk ≠ 0) (hremain : req.remain ≤ req.disk) (hwrap : 2 ^ 64 ≤ req.remain.toNat * 100) :
    req.toUser.cfft.toNat < 100 * req.remain.toNat / req.disk.toNat := by
  have hpos : 0 < req.disk.toNat := Nat.pos_of_ne_zero fun h => hdisk (BitVec.eq_of_toNat_eq h)
  rw [cfft_toNat hremain, Nat.mul_comm 100]
  apply Nat.lt_of_lt_of_le (Nat.lt_succ_self _)
  rw [Nat.succ_eq_add_one, ← Nat.add_div_right _ hpos]
  apply Nat.div_le_div_right
  have := req.disk.isLt
  omega

/-- The figures are in range exactly for a disk that has a size and a remaining size that can be multiplied by 100. -/
theorem figures_iff (haccepted : req.Accepted (mysqlLogin e req s.db).1) :
    Figures e c req s ↔ req.disk ≠ 0 ∧ req.remain.toNat ≤ (2 ^ 64 - 1) / 100 := by
  constructor
  · intro h
    refine ⟨h.divides, ?_⟩
    by_contra hbig
    obtain ⟨x, hx, huser⟩ := loginHandle_accepted (c := c) haccepted h.divides
    obtain ⟨y, hy, -, hcfft, -⟩ := h.stored
    obtain rfl := Option.some.inj (hx.symm.trans hy)
    rw [huser] at hcfft
    exact absurd hcfft (cfft_of_wrap h.divides haccepted.2.2.1 (by omega)).ne
  · rintro ⟨hdisk, hbound⟩
    have hproduct : req.remain.toNat * 100 < 2 ^ 64 := by omega
    obtain ⟨x, hx, huser⟩ := loginHandle_accepted (c := c) haccepted hdisk
    have hremain : req.remain.toNat ≤ req.disk.toNat := haccepted.2.2.1
    have hcfft := cfft_toNat haccepted.2.2.1
    rw [Nat.mod_eq_of_lt hproduct, Nat.mul_comm] at hcfft
    have hle : req.toUser.cfft.toNat ≤ 100 := by
      rw [hcfft]
      apply Nat.div_le_of_le_mul
      omega
    refine ⟨hdisk, hproduct, x, hx, ?_⟩
    dsimp only
    rw [huser]
    refine ⟨hle, hcfft, fun weight hweight hbs => ?_⟩
    have hstart : (⟨req.toUser.cfft, weight⟩ : Load).weight ≤ 100 := hweight
    obtain ⟨hsame, hweight'⟩ := heartbeats_load req.toUser.ctype hbs hstart
    apply sum_of_le hweight'
    rw [hsame]
    exact hle

end

/-- A disk of 100 with 40 free -/
theorem figures_small_disk : Figures ⟨some [], true, .ran, .empty, [], 0⟩ 0 ⟨0, Registry.clientTypeDs, 7, 40, 100, 9000⟩
    ⟨.empty, .init 4⟩ :=
  (figures_iff (by decide)).mpr (by decide)

/-- A data server with a disk of size 0 ends the name server. -/
theorem empty_disk_divides_by_zero :
    loginHandle ⟨some [], true, .ran, .empty, [], 0⟩ 0 ⟨0, Registry.clientTypeDs, 7, 0, 0, 9000⟩ ⟨.empty, .init 4⟩ = none ∧
    ¬ Figures ⟨some [], true, .ran, .empty, [], 0⟩ 0 ⟨0, Registry.clientTypeDs, 7, 0, 0, 9000⟩ ⟨.empty, .init 4⟩ :=
  ⟨rfl, fun h => h.divides rfl⟩

end Tefs.NameServer.Handlers
