import Tefs.Message.ProxyWire

/-! # The proxy and any response

Source: `gvfs_ns_file_upload_process` and `gvfs_ns_file_download_process` of `gvfsproxy/src/private`, behind
`gvfs_ns_read_response_header`, `gvfs_ns_read_response_body` and `gvfs_ns_process` of `gvfs_ns_interface.c`.

The buffer has 3072 bytes, the body is as long as the length field says, and the entries are as many as the response
announces. The addresses of a download are stored in an array for `r->ds_number` servers, the number of an upload before.
-/

namespace Tefs.Message.ProxyDecode
open Wire Proxy Runs
set_option autoImplicit false

/-! ## Decoders that look where they read and write -/

/-- A read of `n` bytes at `p`; nothing comes back if they have not been received. -/
def readAt {α : Type} (read : (ℕ → BitVec 8) → ℕ → α) (n : ℕ) (received : List (BitVec 8)) (p : ℕ) : Option α :=
  if p + n ≤ received.length then some (read (memoryOf received fun _ => 0) p) else none

/-- The loop over the entries from entry `i` on, into an array of `allocated` -/
def readEntries {α : Type} (entry : ℕ → Option α) (size allocated : ℕ) : ℕ → ℕ → ℕ → Option (List α)
  | _, _, 0 => some []
  | i, p, left + 1 =>
    if i < allocated then
      (entry p).bind fun x => (readEntries entry size allocated (i + 1) (p + size) left).map (x :: ·)
    else none

def serverAt (received : List (BitVec 8)) (p : ℕ) : Option Ipv4Addr :=
  (readAt hostWord 4 received p).bind fun ip =>
  (readAt hostWord 4 received (p + 16)).bind fun port =>
  some ⟨ip, port⟩

def blockAt (received : List (BitVec 8)) (p : ℕ) : Option (BitVec 32 × Ipv4Addr) :=
  (readAt rb32 4 received p).bind fun index =>
  (readAt hostWord 4 received (p + 4)).bind fun port =>
  (readAt hostWord 4 received (p + 8)).bind fun ip =>
  some (index, ⟨ip, port⟩)

/-- `gvfs_ns_file_upload_process` -/
def uploadProcess (received : List (BitVec 8)) : Option (BitVec 64 × List Ipv4Addr) :=
  (readAt rb32 4 received 16).bind fun _encrypt =>
  (readAt rb64 8 received 20).bind fun fileId =>
  (readAt rb32 4 received 28).bind fun dsNumber =>
  (readEntries (serverAt received) 20 dsNumber.toNat 0 32 dsNumber.toNat).bind fun servers =>
  (readAt rb32 4 received (32 + 20 * dsNumber.toNat)).bind fun _separate =>
  some (fileId, servers)

/-- `gvfs_ns_file_download_process`. `block_index` is allocated for `block_number` entries, `ds_addr` for `dsNumber`. -/
def downloadProcess (received : List (BitVec 8)) (dsNumber : BitVec 32) :
    Option (BitVec 64 × List (BitVec 32 × Ipv4Addr)) :=
  (readAt rb32 4 received 16).bind fun _encrypt =>
  (readAt rb64 8 received 20).bind fun fileId =>
  (readAt rb32 4 received 28).bind fun blockNumber =>
  (readEntries (blockAt received) 24 (min blockNumber.toNat dsNumber.toNat) 0 32 blockNumber.toNat).bind fun blocks =>
  (readAt rb32 4 received (32 + 24 * blockNumber.toNat)).bind fun _separate =>
  some (fileId, blocks)

/-- `NS_FILE_UPLOAD` and `NS_FILE_DOWNLOAD` -/
def nsFileUpload : BitVec 32 := 0x02
def nsFileDownload : BitVec 32 := 0x03

/-- The decoder that `gvfs_ns_process` calls for the type comes to its end. -/
def Decodes (dsNumber type : BitVec 32) (received : List (BitVec 8)) : Prop :=
  (type = nsFileUpload → (uploadProcess received).isSome) ∧
    (type = nsFileDownload → (downloadProcess received dsNumber).isSome)

instance (dsNumber type : BitVec 32) (received : List (BitVec 8)) : Decidable (Decodes dsNumber type received) :=
  inferInstanceAs (Decidable (_ ∧ _))

/-! ## What a response announces -/

/-- `ds_number` or `block_number` of the response -/
def announced (received : List (BitVec 8)) : ℕ := (rb32 (memoryOf received fun _ => 0) 28).toNat

/-- The entries announced have been received, and there is room for those of a download. -/
def Holdable (dsNumber type : BitVec 32) (received : List (BitVec 8)) : Prop :=
  (type = nsFileUpload → 36 + 20 * announced received ≤ received.length) ∧
    (type = nsFileDownload → 36 + 24 * announced received ≤ received.length ∧ announced received ≤ dsNumber.toNat)

instance (dsNumber type : BitVec 32) (received : List (BitVec 8)) : Decidable (Holdable dsNumber type received) :=
  inferInstanceAs (Decidable (_ ∧ _))

/-- Nothing is stored behind the buffer, and what has been received is decoded within its bounds. -/
def Safe (dsNumber : BitVec 32) (u : Upstream) : Prop :=
  u.buf.length ≤ nsBufSize ∧ (u.bodyCompleted = true → Decodes dsNumber u.rspHead.type u.buf)

/-- The length field is one of a response that fits the buffer, or the bytes do; and a response that is now complete holds
what it announces. -/
def Keeps (dsNumber : BitVec 32) (u : Upstream) : Action → Prop
  | .recv (.bytes n) => u.headerCompleted = true →
    (16 ≤ u.rspHead.len.toNat ∧ u.rspHead.len.toNat ≤ nsBufSize ∨ u.buf.length + n ≤ nsBufSize) ∧
      ((u.received + n : ℤ) = u.rsize .ns → Holdable dsNumber u.rspHead.type (u.buf ++ u.pending.take n))
  | _ => True

instance (dsNumber : BitVec 32) (u : Upstream) : Decidable (Safe dsNumber u) := inferInstanceAs (Decidable (_ ∧ _))

instance (dsNumber : BitVec 32) (u : Upstream) : ∀ a, Decidable (Keeps dsNumber u a)
  | .recv (.bytes _) => inferInstanceAs (Decidable (_ → _ ∧ _))
  | .recv .again | .recv .error | .recv .zero | .readEvent | .peerClose => .isTrue trivial

/-! ## The decoders -/

section

variable {received : List (BitVec 8)}

theorem readAt_of_le {α : Type} {read : (ℕ → BitVec 8) → ℕ → α} {n p : ℕ} (h : p + n ≤ received.length) :
    readAt read n received p = some (read (memoryOf received fun _ => 0) p) := if_pos h

theorem bind_isSome {α β : Type} {o : Option α} {f : α → Option β} :
    (o.bind f).isSome ↔ ∃ a, o = some a ∧ (f a).isSome := by
  cases o <;> simp

theorem readEntries_servers {allocated i p left : ℕ} (hroom : i + left ≤ allocated) (h : p + 20 * left ≤ received.length) :
    readEntries (serverAt received) 20 allocated i p left = some (readServers (memoryOf received fun _ => 0) p left) := by
  induction left generalizing i p with
  | zero => rfl
  | succ left ih =>
    rw [readEntries, if_pos (by omega), serverAt, readAt_of_le (by omega), readAt_of_le (by omega), ih (by omega) (by omega)]
    rfl

theorem readEntries_blocks {allocated i p left : ℕ} (hroom : i + left ≤ allocated) (h : p + 24 * left ≤ received.length) :
    readEntries (blockAt received) 24 allocated i p left = some (readBlocks (memoryOf received fun _ => 0) p left) := by
  induction left generalizing i p with
  | zero => rfl
  | succ left ih =>
    rw [readEntries, if_pos (by omega), blockAt, readAt_of_le (by omega), readAt_of_le (by omega), readAt_of_le (by omega),
      ih (by omega) (by omega)]
    rfl

/-- The loop comes to its end only inside the array. -/
theorem room_of_readEntries {α : Type} {entry : ℕ → Option α} {size allocated i p left : ℕ}
    (h : (readEntries entry size allocated i p left).isSome) : left = 0 ∨ i + left ≤ allocated := by
  induction left generalizing i p with
  | zero => exact Or.inl rfl
  | succ left ih =>
    rw [readEntries] at h
    split at h
    next hlt =>
      obtain ⟨x, -, hrest⟩ := bind_isSome.mp h
      rw [Option.isSome_map] at hrest
      have := ih hrest
      omega
    next => cases h

theorem readAt_isSome {α : Type} {read : (ℕ → BitVec 8) → ℕ → α} {n p : ℕ} :
    (readAt read n received p).isSome ↔ p + n ≤ received.length := by
  rw [readAt]
  split <;> simp [*]

theorem uploadProcess_isSome : (uploadProcess received).isSome ↔ 36 + 20 * announced received ≤ received.length := by
  constructor
  · intro h
    rw [uploadProcess] at h
    obtain ⟨_, -, h⟩ := bind_isSome.mp h
    obtain ⟨_, -, h⟩ := bind_isSome.mp h
    obtain ⟨dsNumber, hnumber, h⟩ := bind_isSome.mp h
    obtain ⟨_, -, h⟩ := bind_isSome.mp h
    obtain ⟨_, hseparate, -⟩ := bind_isSome.mp h
    have hle := readAt_isSome.mp (Option.isSome_of_eq_some hnumber)
    have hend := readAt_isSome.mp (Option.isSome_of_eq_some hseparate)
    rw [readAt_of_le hle] at hnumber
    cases hnumber
    rw [announced]
    omega
  · intro h
    rw [announced] at h
    rw [uploadProcess, readAt_of_le (by omega), readAt_of_le (by omega), readAt_of_le (by omega)]
    simp only [Option.bind_some]
    rw [readEntries_servers (by omega) (by omega), readAt_of_le (by omega)]
    rfl

theorem downloadProcess_isSome {dsNumber : BitVec 32} : (downloadProcess received dsNumber).isSome ↔
    36 + 24 * announced received ≤ received.length ∧ announced received ≤ dsNumber.toNat := by
  constructor
  · intro h
    rw [downloadProcess] at h
    obtain ⟨_, -, h⟩ := bind_isSome.mp h
    obtain ⟨_, -, h⟩ := bind_isSome.mp h
    obtain ⟨blockNumber, hnumber, h⟩ := bind_isSome.mp h
    obtain ⟨_, hblocks, h⟩ := bind_isSome.mp h
    obtain ⟨_, hseparate, -⟩ := bind_isSome.mp h
    have hle := readAt_isSome.mp (Option.isSome_of_eq_some hnumber)
    have hend := readAt_isSome.mp (Option.isSome_of_eq_some hseparate)
    rw [readAt_of_le hle] at hnumber
    cases hnumber
    have hroom := room_of_readEntries (Option.isSome_of_eq_some hblocks)
    rw [announced]
    omega
  · rintro ⟨h, hroom⟩
    rw [announced] at h hroom
    rw [downloadProcess, readAt_of_le (by omega), readAt_of_le (by omega), readAt_of_le (by omega)]
    simp only [Option.bind_some]
    rw [readEntries_blocks (by omega) (by omega), readAt_of_le (by omega)]
    rfl

theorem decodes_iff {dsNumber type : BitVec 32} : Decodes dsNumber type received ↔ Holdable dsNumber type received := by
  rw [Decodes, Holdable, uploadProcess_isSome, downloadProcess_isSome]

end

/-! ## Reading -/

section

variable {dsNumber : BitVec 32} {behind : ℕ → BitVec 8} {u : Upstream}

/-- The header has 16 bytes; a body whose length field is at least that ends where the field says. -/
structure Bounded (u : Upstream) : Prop where
  header : u.headerCompleted = false → u.buf.length ≤ 16
  body : u.headerCompleted = true → 16 ≤ u.rspHead.len.toNat → u.buf.length ≤ u.rspHead.len.toNat

theorem rsize_header (h : Bounded u) (hheader : u.headerCompleted = false) : u.rsize .ns = 16 - u.buf.length := by
  have hle := h.header hheader
  rw [Upstream.rsize, Upstream.size, hheader]
  simp only [Bool.false_eq_true, if_false, Peer.headSize]
  omega

theorem rsize_body (h : Bounded u) (hheader : u.headerCompleted = true) (hlen : 16 ≤ u.rspHead.len.toNat) :
    u.rsize .ns = u.rspHead.len.toNat - u.buf.length := by
  have hle := h.body hheader hlen
  have := u.rspHead.len.isLt
  rw [Upstream.rsize, Upstream.size, hheader, if_pos rfl]
  omega

/-- The state after a turn in the header -/
theorem take_header (behind : ℕ → BitVec 8) (n : ℕ) (hheader : u.headerCompleted = false) :
    (u.take .ns behind n).buf = u.buf ++ u.pending.take n ∧ (u.take .ns behind n).bodyCompleted = u.bodyCompleted := by
  rw [Upstream.take]
  split
  · simp [Upstream.complete, hheader]
  · exact ⟨rfl, rfl⟩

/-- The state after a turn in the body -/
theorem take_body (behind : ℕ → BitVec 8) (n : ℕ) (hheader : u.headerCompleted = true) :
    (u.take .ns behind n).buf = u.buf ++ u.pending.take n ∧ (u.take .ns behind n).rspHead = u.rspHead ∧
      (u.take .ns behind n).headerCompleted = true ∧
      (u.take .ns behind n).bodyCompleted = (u.bodyCompleted || decide ((u.received + n : ℤ) = u.rsize .ns)) := by
  rw [Upstream.take]
  split
  next hlast =>
    rw [Nat.cast_add] at hlast
    simp [Upstream.complete, hheader, hlast]
  next hlast =>
    rw [Nat.cast_add] at hlast
    simp [hheader, hlast]

theorem Bounded.take {n : ℕ} (h : Bounded u) (hn : (n : ℤ) ≤ u.rsize .ns) : Bounded (u.take .ns behind n) := by
  cases hheader : u.headerCompleted with
  | false =>
    have hlength : (u.buf ++ u.pending.take n).length ≤ 16 := by
      rw [rsize_header h hheader] at hn
      rw [List.length_append, List.length_take]
      omega
    rw [← (take_header behind n hheader).1] at hlength
    exact ⟨fun _ => hlength, fun _ hlen => Nat.le_trans hlength hlen⟩
  | true =>
    obtain ⟨hbuf, hhead, hheader', -⟩ := take_body behind n hheader
    refine ⟨fun hfalse => ?_, fun _ hlen => ?_⟩
    · rw [hheader'] at hfalse
      cases hfalse
    · rw [hhead] at hlen ⊢
      have hle := h.body hheader hlen
      rw [rsize_body h hheader hlen] at hn
      rw [hbuf, List.length_append, List.length_take]
      omega

theorem Bounded.step (h : Bounded u) {a : Action} (henabled : Enabled .ns u a) : Bounded (step .ns behind u a) := by
  cases a with
  | readEvent => exact ⟨h.header, h.body⟩
  | peerClose => exact ⟨h.header, h.body⟩
  | recv r =>
    cases r with
    | bytes n => exact h.take henabled.2.2.2.1
    | again => exact ⟨h.header, h.body⟩
    | error => exact ⟨h.header, h.body⟩
    | zero => exact ⟨h.header, h.body⟩

/-- A turn that brings bytes -/
theorem safe_take_iff {n : ℕ} (h : Bounded u) (henabled : Enabled .ns u (.recv (.bytes n))) :
    Safe dsNumber (u.take .ns behind n) ↔ Keeps dsNumber u (.recv (.bytes n)) := by
  obtain ⟨-, hrunning, -, hn, hpending⟩ := henabled
  have hbody : u.bodyCompleted = false := by
    rw [← Bool.not_eq_true]
    exact fun hcompleted => hrunning (.inr (.inl hcompleted))
  have hlength : (u.buf ++ u.pending.take n).length = u.buf.length + n := by
    rw [List.length_append, List.length_take]
    omega
  cases hheader : u.headerCompleted with
  | false =>
    obtain ⟨hbuf, hcompleted⟩ := take_header behind n hheader
    refine iff_of_true ⟨?_, fun htrue => ?_⟩ fun htrue => ?_
    · rw [rsize_header h hheader] at hn
      rw [hbuf, hlength, nsBufSize]
      omega
    · rw [hcompleted, hbody] at htrue
      cases htrue
    · rw [hheader] at htrue
      cases htrue
  | true =>
    obtain ⟨hbuf, hhead, -, hcompleted⟩ := take_body behind n hheader
    have hstored : u.buf.length + n ≤ nsBufSize ↔
        16 ≤ u.rspHead.len.toNat ∧ u.rspHead.len.toNat ≤ nsBufSize ∨ u.buf.length + n ≤ nsBufSize := by
      refine ⟨Or.inr, fun hor => hor.elim (fun ⟨hlen, hle⟩ => ?_) id⟩
      have := h.body hheader hlen
      rw [rsize_body h hheader hlen] at hn
      omega
    rw [Safe, hbuf, hlength, hhead, hcompleted, hbody, Bool.false_or, decide_eq_true_eq, decodes_iff, hstored, Keeps]
    exact ⟨fun hsafe _ => hsafe, fun hkeeps => hkeeps hheader⟩

theorem safe_step_iff (h : Bounded u) (hsafe : Safe dsNumber u) {a : Action} (henabled : Enabled .ns u a) :
    Safe dsNumber (step .ns behind u a) ↔ Keeps dsNumber u a := by
  cases a with
  | readEvent => exact iff_of_true hsafe trivial
  | peerClose => exact iff_of_true hsafe trivial
  | recv r =>
    cases r with
    | bytes n => exact safe_take_iff h henabled
    | again => exact iff_of_true hsafe trivial
    | error => exact iff_of_true hsafe trivial
    | zero => exact iff_of_true hsafe trivial

end

/-- As long as every step keeps to it everything is safe, and the first that does not is not. -/
theorem safe_iff_keeps (sent : List (BitVec 8)) (rspHead : RspHead) (behind : ℕ → BitVec 8) (dsNumber : BitVec 32)
    {actions : List Action} {u : Upstream}
    (h : Reaches (ofFun (step .ns behind)) (fun u a => Enabled .ns u a ∧ Keeps dsNumber u a)
      { pending := sent, rspHead := rspHead } actions u) :
    Safe dsNumber u ∧ ∀ a, Enabled .ns u a → (Safe dsNumber (step .ns behind u a) ↔ Keeps dsNumber u a) := by
  have hinv : Bounded u ∧ Safe dsNumber u := by
    refine h.invariant (I := fun u => Bounded u ∧ Safe dsNumber u) ?_ ⟨⟨fun _ => Nat.zero_le _, nofun⟩, Nat.zero_le _, nofun⟩
    rintro u a _ ⟨hbounded, hsafe⟩ ⟨henabled, hkeeps⟩ rfl
    exact ⟨hbounded.step henabled, (safe_step_iff hbounded hsafe henabled).mpr hkeeps⟩
  exact ⟨hinv.2, fun a henabled => safe_step_iff hinv.1 hinv.2 henabled⟩

/-- The answer to a download request for a file of one block -/
def oneBlock : List (BitVec 8) :=
  [0, 0, 0, 60, 0, 0, 0, 1, 0, 0, 0, 3, 0, 0, 0, 0, 0, 0, 0, 0, 0, 0, 0, 0, 0, 0, 0, 9, 0, 0, 0, 1, 0, 0, 0, 0,
    0, 0, 31, 144, 127, 0, 0, 1, 0, 0, 0, 0, 0, 0, 0, 0, 0, 0, 0, 0, 0, 0, 0, 0]

/-- On a connection that has asked for an upload to one server before -/
theorem safe_iff_keeps_oneBlock :
    ∃ u, Reaches (ofFun (step .ns fun _ => 0)) (fun u a => Enabled .ns u a ∧ Keeps 1 u a)
        { pending := oneBlock, rspHead := ⟨0, 0, 0, 0, 0⟩ } [.readEvent, .recv (.bytes 16), .recv (.bytes 44)] u ∧
      u.bodyCompleted = true ∧ Safe 1 u := by
  have hrun := reaches_of_allAllowed (step .ns fun _ => 0) (fun u a => Enabled .ns u a ∧ Keeps 1 u a)
    { pending := oneBlock, rspHead := ⟨0, 0, 0, 0, 0⟩ } [.readEvent, .recv (.bytes 16), .recv (.bytes 44)] (by decide)
  exact ⟨_, hrun, by decide, (safe_iff_keeps oneBlock ⟨0, 0, 0, 0, 0⟩ (fun _ => 0) 1 hrun).1⟩

/-- On a new connection `r->ds_number` is 0, and the first address is stored behind the array. -/
theorem first_address_unallocated :
    ∃ u, Reaches (ofFun (step .ns fun _ => 0)) (Enabled .ns) { pending := oneBlock, rspHead := ⟨0, 0, 0, 0, 0⟩ }
        [.readEvent, .recv (.bytes 16), .recv (.bytes 44)] u ∧ ¬ Safe 0 u :=
  ⟨_, reaches_of_allAllowed _ _ _ _ (by decide), by decide⟩

end Tefs.Message.ProxyDecode
