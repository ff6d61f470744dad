import Tefs.NameServer.PacketFramed

/-! # What the parser makes of any bytes

Source: `gfs_net_packet_parse_tcp` of `nameservice/net/gfs_net.c`.

The length and the type are read at `pu`, where the scan began, and before it is known how many bytes there are; the
separator is read where the scan stands. So a packet found after a skip need not begin with its own length, and a
buffer with less than a header makes the parser read behind `pos`.
-/

namespace Tefs.NameServer.PacketParse
open Runs Wire Framing
set_option autoImplicit false

namespace NetBuf

variable {b : NetBuf}

def reads (b : NetBuf) : List ℕ := (b.scanReads b.size).2

/-- What the claim asks of one call: the count is in range, nothing behind `pos` is read, and a packet lies in the
buffer, ends with the separator and begins with its own length. -/
structure Sound (b : NetBuf) : Prop where
  rtn : b.packetParseTcp.2 ≤ b.pos - b.hd
  reads : ∀ p ∈ b.reads, p + 4 ≤ b.pos
  packet : ∀ start plen, b.packetParseTcp.1 = some (start, plen) →
    b.hd ≤ start ∧ start + plen ≤ b.pos ∧ b.word (start + plen - 4) = 0 ∧ b.word start = plen

/-- The window of `len` bytes that the scan takes: the first one that ends with the separator. -/
def Window (b : NetBuf) (k : ℕ) : Prop :=
  k + b.word b.hd ≤ b.size ∧ b.word (b.hd + k + b.word b.hd - 4) = 0 ∧
    ∀ j < k, b.word (b.hd + j + b.word b.hd - 4) ≠ 0

/-- There is nothing to parse or at least a header, and the first window of the length at `hd` that ends with the
separator begins with this length. -/
def Headed (b : NetBuf) : Prop :=
  (b.size = 0 ∨ 12 ≤ b.size) ∧ (ValidLen (b.word b.hd) → ∀ k, b.Window k → b.word (b.hd + k) = b.word b.hd)

/-! ## The scan -/

theorem scan_snd_le (b : NetBuf) {left : ℕ} (hleft : left ≤ b.size) : (b.scan left).2 ≤ b.size := by
  induction left with
  | zero => exact Nat.le_refl _
  | succ left ih =>
    have hrest := ih (by omega)
    rw [scan_succ]
    split
    · exact hrest
    · split
      · split
        · exact hrest
        · split
          · exact Nat.sub_le _ _
          · exact Nat.le_refl _
      · split
        · exact hrest
        · omega

/-- A packet is the first window from the place on where the scan stands. -/
theorem scan_some {left start plen : ℕ} (hleft : left ≤ b.size) (h : (b.scan left).1 = some (start, plen)) :
    plen = b.word b.hd ∧ ValidLen plen ∧ ∃ k, start = b.hd + k ∧ k + plen ≤ b.size ∧
      b.word (b.hd + k + plen - 4) = 0 ∧ ∀ j, b.size - left ≤ j → j < k → b.word (b.hd + j + plen - 4) ≠ 0 := by
  induction left with
  | zero => cases h
  | succ left ih =>
    -- What is found behind a place is found from it on, unless a window ends there.
    have hskip (hhere : ValidLen (b.word b.hd) → b.size - (left + 1) + b.word b.hd ≤ b.size →
          b.word (b.hd + (b.size - (left + 1)) + b.word b.hd - 4) ≠ 0)
        (hrest : (b.scan left).1 = some (start, plen)) : plen = b.word b.hd ∧ ValidLen plen ∧ ∃ k, start = b.hd + k ∧
          k + plen ≤ b.size ∧ b.word (b.hd + k + plen - 4) = 0 ∧
          ∀ j, b.size - (left + 1) ≤ j → j < k → b.word (b.hd + j + plen - 4) ≠ 0 := by
      obtain ⟨rfl, hvalid, k, hstart, hfit, hzero, hbefore⟩ := ih (by omega) hrest
      refine ⟨rfl, hvalid, k, hstart, hfit, hzero, fun j hj hjk => ?_⟩
      by_cases hnow : j = b.size - (left + 1)
      · exact hnow ▸ hhere hvalid (by omega)
      · exact hbefore j (by omega) hjk
    rw [scan_succ] at h
    split at h
    next hinvalid =>
      refine hskip (fun hvalid => ?_) h
      unfold ValidLen at hvalid
      omega
    next hvalid =>
      split at h
      next hshort =>
        split at h
        · exact hskip (fun _ hfit => by omega) h
        · split at h <;> cases h
      next hfit =>
        split at h
        next hne => exact hskip (fun _ _ => hne) h
        next hzero =>
          cases h
          refine ⟨rfl, ⟨by omega, by omega⟩, b.size - (left + 1), rfl, by omega, not_not.mp hzero, fun j hj hjk => ?_⟩
          omega

/-- The first window is found. -/
theorem scan_window {left k : ℕ} (hleft : left ≤ b.size) (hvalid : ValidLen (b.word b.hd)) (hk : b.size - left ≤ k)
    (hfit : k + b.word b.hd ≤ b.size) (hzero : b.word (b.hd + k + b.word b.hd - 4) = 0)
    (hbefore : ∀ j, b.size - left ≤ j → j < k → b.word (b.hd + j + b.word b.hd - 4) ≠ 0) :
    (b.scan left).1 = some (b.hd + k, b.word b.hd) := by
  obtain ⟨hlower, hupper⟩ := hvalid
  induction left with
  | zero => omega
  | succ left ih =>
    rw [scan_succ, if_neg (by omega), if_neg (by omega)]
    by_cases hnow : b.size - (left + 1) = k
    · rw [hnow, if_neg (not_not.mpr hzero)]
    · rw [if_pos (hbefore _ (Nat.le_refl _) (by omega))]
      exact ih (by omega) (by omega) fun j hj hjk => hbefore j (by omega) hjk

theorem scanReads_le (hheader : 12 ≤ b.size) {left : ℕ} (hleft : left ≤ b.size) :
    ∀ p ∈ (b.scanReads left).2, p + 4 ≤ b.pos := by
  have hpos : b.hd + b.size = b.pos := by
    rw [size] at hheader ⊢
    omega
  induction left with
  | zero => exact fun p hp => absurd hp List.not_mem_nil
  | succ left ih =>
    have hhead : ∀ p ∈ [b.hd, b.hd + 8], p + 4 ≤ b.pos := by
      intro p hp
      simp only [List.mem_cons, List.not_mem_nil, or_false] at hp
      omega
    have hagain : ∀ p ∈ [b.hd, b.hd + 8] ++ (b.scanReads left).2, p + 4 ≤ b.pos :=
      fun p hp => (List.mem_append.mp hp).elim (hhead p) (ih (by omega) p)
    rw [scanReads]
    dsimp only
    split
    · exact hagain
    next hvalid =>
      split
      · split
        · exact hagain
        · split <;> exact hhead
      next hfit =>
        have hseparator : b.hd + (b.size - (left + 1)) + b.word b.hd - 4 + 4 ≤ b.pos := by omega
        split
        · intro p hp
          rcases List.mem_append.mp hp with hp | hp
          · exact hhead p hp
          · rcases List.mem_cons.mp hp with rfl | hp
            · exact hseparator
            · exact ih (by omega) p hp
        · intro p hp
          rcases List.mem_append.mp hp with hp | hp
          · exact hhead p hp
          · rw [List.mem_singleton.mp hp]
            exact hseparator

theorem head_mem_scanReads (b : NetBuf) (left : ℕ) : b.hd + 8 ∈ (b.scanReads (left + 1)).2 := by
  rw [scanReads]
  dsimp only
  split
  · simp
  · split
    · split
      · simp
      · split <;> simp
    · split <;> simp

/-! ## Any bytes -/

theorem reads_le_iff (b : NetBuf) : (∀ p ∈ b.reads, p + 4 ≤ b.pos) ↔ b.size = 0 ∨ 12 ≤ b.size := by
  constructor
  · intro h
    by_contra hshort
    obtain ⟨left, hleft⟩ : ∃ left, b.size = left + 1 := ⟨b.size - 1, by omega⟩
    have hhead := h (b.hd + 8) (by rw [reads, hleft]; exact b.head_mem_scanReads left)
    rw [size] at hshort hleft
    omega
  · rintro (hempty | hheader)
    · rw [reads, hempty]
      exact fun p hp => absurd hp List.not_mem_nil
    · exact scanReads_le hheader (Nat.le_refl _)

theorem packet_of_headed (h : ValidLen (b.word b.hd) → ∀ k, b.Window k → b.word (b.hd + k) = b.word b.hd)
    {start plen : ℕ} (hpacket : b.packetParseTcp.1 = some (start, plen)) :
    b.hd ≤ start ∧ start + plen ≤ b.pos ∧ b.word (start + plen - 4) = 0 ∧ b.word start = plen := by
  obtain ⟨rfl, hvalid, k, rfl, hfit, hzero, hbefore⟩ := scan_some (Nat.le_refl _) hpacket
  have hwindow : b.Window k := ⟨hfit, hzero, fun j hj => hbefore j (by omega) hj⟩
  refine ⟨by omega, ?_, hzero, h hvalid k hwindow⟩
  obtain ⟨hlower, -⟩ := hvalid
  rw [size] at hfit
  omega

theorem sound_iff_headed (b : NetBuf) : b.Sound ↔ b.Headed := by
  constructor
  · rintro ⟨-, hreads, hpacket⟩
    refine ⟨b.reads_le_iff.mp hreads, fun hvalid k hwindow => ?_⟩
    have hfound : b.packetParseTcp.1 = some (b.hd + k, b.word b.hd) :=
      scan_window (Nat.le_refl _) hvalid (by omega) hwindow.1 hwindow.2.1 fun j _ hj => hwindow.2.2 j hj
    exact (hpacket _ _ hfound).2.2.2
  · rintro ⟨hreads, hheaded⟩
    exact ⟨b.scan_snd_le (Nat.le_refl _), b.reads_le_iff.mpr hreads, fun start plen => packet_of_headed hheaded⟩

/-- The length 16 with a separator one byte too late: the packet begins with its second byte. -/
def shifted : NetBuf where
  data i := if i = 3 then 16 else if i = 12 then 1 else 0
  pos := 17

theorem shifted_not_sound : ¬ shifted.Sound := by
  rintro ⟨-, -, hpacket⟩
  exact absurd (hpacket 1 16 (by decide)).2.2.2 (by decide)

end NetBuf

end Tefs.NameServer.PacketParse
