import Mathlib.Data.Finset.Card
import Tefs.NameServer.Requests

/-! # Requests leave the pool as it was

A request begins with blocks `held` over a pool `base` and ends with the same ones, and so does a request that is
handled while another sends its response. What stays behind is a packet of an unknown type; and a packet that says it is
longer than it is makes its parse store into the next block.
-/

namespace Tefs.NameServer.Requests
open Message Wire
set_option autoImplicit false

/-! ## The pool while requests are handled -/

section Pool

variable {slack : ℕ → ℕ} {base pool : Heap} {held : List (ℕ × ℕ)}

theorem malloc_zero (pool : Heap) : malloc slack 0 pool = some (none, pool) := rfl

theorem malloc_wraps (slack : ℕ → ℕ) (pool : Heap) {size : ℕ} (hsize : size ≠ 0) (hfits : ¬ Fits size) :
    malloc slack size pool = none := by
  rw [malloc, if_neg hsize, if_neg hfits]

theorem blockSize_pos (slack size : ℕ) : 0 < blockSize slack size := by
  unfold blockSize
  split_ifs <;> omega

theorem malloc_holds (slack : ℕ → ℕ) (hh : base.Holds held pool) {size : ℕ} (hsize : size ≠ 0) (hfits : Fits size) :
    ∃ id bytes pool', malloc slack size pool = some (some id, pool') ∧ base.Holds ((id, bytes) :: held) pool' := by
  refine ⟨pool.next, blockSize (slack pool.next) size, pool.alloc _, ?_, hh.alloc (blockSize_pos _ _)⟩
  rw [malloc, if_neg hsize, if_pos hfits]

theorem free_holds (before : List (ℕ × ℕ)) {after : List (ℕ × ℕ)} {id bytes : ℕ}
    (hh : base.Holds (before ++ (id, bytes) :: after) pool) :
    ∃ pool', free (some id) pool = some pool' ∧ base.Holds (before ++ after) pool' := hh.release

@[simp] theorem free_none (pool : Heap) : free none pool = some pool := rfl

theorem fits_sizeofBusi : Fits sizeofBusi := by decide

theorem fits_rspSize (type : ℕ) : Fits (rspSize type) := by
  unfold rspSize
  split <;> decide

theorem create_empty (slack : ℕ → ℕ) {packet : Packet} (hh : base.Holds held pool) (hlen : packet.len = 0) :
    ∃ pool', create slack packet pool = some (none, pool') ∧ base.Holds held pool' := by
  obtain ⟨busi, bytes, pool₁, hbusi, hh₁⟩ := malloc_holds slack hh (by decide) fits_sizeofBusi
  obtain ⟨pool₂, hfree, hh₂⟩ := free_holds [] hh₁
  refine ⟨pool₂, ?_, hh₂⟩
  have hzero : packet.len.toNat = 0 := by rw [hlen]; rfl
  simp [create, hbusi, hzero, malloc_zero, hfree]

theorem create_wraps (slack : ℕ → ℕ) {packet : Packet} (hh : base.Holds held pool) (hlen : packet.len ≠ 0)
    (hfits : ¬ Fits packet.len.toNat) : create slack packet pool = none := by
  obtain ⟨busi, bytes, pool₁, hbusi, hh₁⟩ := malloc_holds slack hh (by decide) fits_sizeofBusi
  have hsize : packet.len.toNat ≠ 0 := fun h => hlen (BitVec.eq_of_toNat_eq h)
  simp [create, hbusi, malloc_wraps (fun _ => packet.slack) pool₁ hsize hfits]

theorem create_copies (slack : ℕ → ℕ) {packet : Packet} (hh : base.Holds held pool) (hlen : packet.len ≠ 0)
    (hfits : Fits packet.len.toNat) :
    ∃ busi rbuf m n pool', create slack packet pool = createRsh slack busi rbuf packet pool' ∧
      base.Holds ((rbuf, n) :: (busi, m) :: held) pool' := by
  obtain ⟨busi, m, pool₁, hbusi, hh₁⟩ := malloc_holds slack hh (by decide) fits_sizeofBusi
  have hsize : packet.len.toNat ≠ 0 := fun h => hlen (BitVec.eq_of_toNat_eq h)
  obtain ⟨rbuf, n, pool₂, hrbuf, hh₂⟩ := malloc_holds (fun _ => packet.slack) hh₁ hsize hfits
  exact ⟨busi, rbuf, m, n, pool₂, by simp [create, hbusi, hrbuf], hh₂⟩

/-- The types 5 and 7 have no response to make room for. -/
theorem createRsh_unused (slack : ℕ → ℕ) {packet : Packet} {busi rbuf m n : ℕ}
    (hh : base.Holds ((rbuf, n) :: (busi, m) :: held) pool) (htype : packet.type = 5 ∨ packet.type = 7) :
    ∃ pool', createRsh slack busi rbuf packet pool = some (none, pool') ∧ base.Holds held pool' := by
  obtain ⟨pool₁, hrbuf, hh₁⟩ := free_holds [] hh
  obtain ⟨pool₂, hbusi, hh₂⟩ := free_holds [] hh₁
  refine ⟨pool₂, ?_, hh₂⟩
  rcases htype with h | h <;> simp [createRsh, h, rspSize, malloc_zero, hrbuf, hbusi]

theorem createRsh_ready (slack : ℕ → ℕ) {packet : Packet} {busi rbuf m n : ℕ}
    (hh : base.Holds ((rbuf, n) :: (busi, m) :: held) pool) (htype : packet.type ∈ [1, 2, 3, 4, 6, 8, 9, 10]) :
    ∃ rsh k pool', createRsh slack busi rbuf packet pool = some (some ⟨busi, rbuf, rsh⟩, pool') ∧
      base.Holds ((rsh, k) :: (rbuf, n) :: (busi, m) :: held) pool' := by
  have hsize : rspSize packet.type ≠ 0 := by
    simp only [List.mem_cons, List.not_mem_nil, or_false] at htype
    rcases htype with h | h | h | h | h | h | h | h <;> rw [h] <;> decide
  have hbounds : ¬ (packet.type < 1 ∨ 10 < packet.type) := by
    simp only [List.mem_cons, List.not_mem_nil, or_false] at htype
    omega
  obtain ⟨rsh, k, pool₁, hrsh, hh₁⟩ := malloc_holds slack hh hsize (fits_rspSize packet.type)
  exact ⟨rsh, k, pool₁, by rw [createRsh, if_neg hbounds]; simp [hrsh], hh₁⟩

theorem destory_empty {b : Busi} {k m n : ℕ}
    (hh : base.Holds ((b.rsh, k) :: (b.rbuf, n) :: (b.busi, m) :: held) pool) :
    ∃ pool', destory b none pool = some pool' ∧ base.Holds held pool' := by
  obtain ⟨pool₁, hrsh, hh₁⟩ := free_holds [] hh
  obtain ⟨pool₂, hrbuf, hh₂⟩ := free_holds [] hh₁
  obtain ⟨pool₃, hbusi, hh₃⟩ := free_holds [] hh₂
  exact ⟨pool₃, by simp [destory, hrsh, hrbuf, hbusi], hh₃⟩

/-- `leaked` is what the calls made during the send have left behind. -/
theorem destory_sent {leaked : List (ℕ × ℕ)} {b : Busi} {sbuf j k m n : ℕ}
    (hh : base.Holds (leaked ++ (sbuf, j) :: (b.rsh, k) :: (b.rbuf, n) :: (b.busi, m) :: held) pool) :
    ∃ pool', destory b (some sbuf) pool = some pool' ∧ base.Holds (leaked ++ held) pool' := by
  rw [List.append_cons] at hh
  obtain ⟨pool₁, hrsh, hh₁⟩ := free_holds _ hh
  obtain ⟨pool₂, hrbuf, hh₂⟩ := free_holds _ hh₁
  rw [← List.append_cons] at hh₂
  obtain ⟨pool₃, hsbuf, hh₃⟩ := free_holds _ hh₂
  obtain ⟨pool₄, hbusi, hh₄⟩ := free_holds _ hh₃
  exact ⟨pool₄, by simp [destory, hrsh, hrbuf, hsbuf, hbusi], hh₄⟩

/-! ## The parse of a request -/

theorem room_ge (packet : Packet) : 16 ≤ packet.room := by
  unfold Packet.room payload blockSize align8
  split_ifs <;> omega

/-- The last of the members stored ends at `reach`. -/
theorem reach_spec {type : ℕ} (h : type ∈ [1, 2, 3, 4, 6, 8, 9, 10]) :
    (∀ store ∈ (parsed type).2, store.1 + store.2 ≤ reach type) ∧
      ∃ store ∈ (parsed type).2, store.1 + store.2 = reach type := by
  simp only [List.mem_cons, List.not_mem_nil, or_false] at h
  rcases h with rfl | rfl | rfl | rfl | rfl | rfl | rfl | rfl <;> decide

theorem parse_eq_some_iff {packet : Packet} (h : packet.type ∈ [1, 2, 3, 4, 6, 8, 9, 10]) :
    parse packet = some () ↔ packet.Honest := by
  have hroom := room_ge packet
  obtain ⟨hle, last, hlast, heq⟩ := reach_spec h
  rw [parse, Option.ite_none_right_eq_some, and_iff_left rfl, Packet.stores, List.forall_mem_cons,
    and_iff_right (by omega), Packet.Honest]
  split
  next hlen =>
    rw [forall_prop_of_true hlen]
    constructor
    · intro hall
      exact heq ▸ hall last hlast
    · intro hreach store hstore
      exact (hle store hstore).trans hreach
  next hlen => simp [hlen]

theorem parse_overruns {packet : Packet} (h : packet.type ∈ [1, 2, 3, 4, 6, 8, 9, 10]) (hnot : ¬ packet.Honest) :
    parse packet = none := by
  cases hparse : parse packet with
  | none => rfl
  | some _ => exact absurd ((parse_eq_some_iff h).mp hparse) hnot

/-! ## The response of a request -/

theorem sendBuffer_holds (slack : ℕ → ℕ) (hh : base.Holds held pool) (response : Response)
    (hsize : response.allocated ≠ 0) (hfits : Fits response.allocated) :
    ∃ sbuf bytes pool', sendBuffer slack response pool = some ((response, sbuf), pool') ∧
      base.Holds ((sbuf, bytes) :: held) pool' := by
  obtain ⟨sbuf, bytes, pool', hmalloc, hh'⟩ := malloc_holds slack hh hsize hfits
  exact ⟨sbuf, bytes, pool', by simp [sendBuffer, hmalloc], hh'⟩

theorem dsnum_le (packet : Packet) (sql : Outcome) : dsnum packet sql ≤ 3 := by
  unfold dsnum
  split
  · omega
  · split_ifs <;> try omega
    split
    · omega
    · next num _ => exact Nat.le_of_lt_succ num.isLt

theorem fits_of_le {size : ℕ} (h : size ≤ 96) : Fits size := by
  unfold Fits align8
  omega

theorem upload_holds (slack : ℕ → ℕ) (packet : Packet) (sql : Outcome) (hh : base.Holds held pool) :
    ∃ sbuf bytes pool', upload slack packet sql pool = some ((uploadResponse (dsnum packet sql), sbuf), pool') ∧
      base.Holds ((sbuf, bytes) :: held) pool' := by
  have hnum := dsnum_le packet sql
  have hsize : (uploadResponse (dsnum packet sql)).allocated ≠ 0 := by simp [uploadResponse]
  have hfits : Fits (uploadResponse (dsnum packet sql)).allocated :=
    fits_of_le (by simp only [uploadResponse]; omega)
  by_cases hzero : dsnum packet sql = 0
  · obtain ⟨sbuf, bytes, pool₁, hsend, hh₁⟩ := sendBuffer_holds slack hh _ hsize hfits
    rw [hzero] at hsend
    exact ⟨sbuf, bytes, pool₁, by simp [upload, hzero, hsend], hh₁⟩
  · obtain ⟨dslist, m, pool₁, hmalloc, hh₁⟩ :=
      malloc_holds slack hh (show dsnum packet sql * 20 ≠ 0 by omega) (fits_of_le (by omega))
    obtain ⟨sbuf, n, pool₂, hsend, hh₂⟩ := sendBuffer_holds slack hh₁ _ hsize hfits
    obtain ⟨pool₃, hfree, hh₃⟩ := free_holds [(sbuf, n)] hh₂
    exact ⟨sbuf, n, pool₃, by simp [upload, hzero, hmalloc, hsend, hfree], hh₃⟩

/-- `rsp->bnum` when `gfs_busi_download_handle` returns -/
def bnum (packet : Packet) (sql : Outcome) : BitVec 32 :=
  match sql.download with
  | .found _ num _ => if asks packet ∧ num * 16 ≠ 0 then num else 0
  | _ => 0

/-- The handler of a download stores inside its blocks. -/
def Roomy (packet : Packet) (sql : Outcome) : Prop := bnum packet sql ≠ 0 → Room (bnum packet sql)

theorem bnum_ne_zero {packet : Packet} {sql : Outcome} (h : bnum packet sql ≠ 0) :
    asks packet = true ∧ bnum packet sql * 16 ≠ 0 ∧ ∃ fid blist, sql.download = .found fid (bnum packet sql) blist := by
  cases hd : sql.download with
  | found fid num blist =>
    simp only [bnum, hd] at h ⊢
    by_cases hc : asks packet ∧ num * 16 ≠ 0
    · rw [if_pos hc]
      exact ⟨hc.1, hc.2, fid, blist, rfl⟩
    · exact absurd (if_neg hc) h
  | failed => simp [bnum, hd] at h
  | error => simp [bnum, hd] at h
  | empty => simp [bnum, hd] at h

theorem downloadHandle_blank {packet : Packet} {sql : Outcome} (h : bnum packet sql = 0) :
    downloadHandle slack packet sql pool = some ((none, 0), pool) := by
  by_cases hasks : asks packet
  · rw [downloadHandle, if_pos hasks]
    cases hd : sql.download with
    | found fid num blist =>
      have hnum : num * 16 = 0 := by
        by_contra hne
        simp only [bnum, hd, hasks, hne, ne_eq, not_false_eq_true, and_self, if_true] at h
        exact hne (by rw [h]; rfl)
      have hsize : (num * 16).toNat = 0 := by rw [hnum]; rfl
      rw [gfsMysqlDownload, hsize, malloc_zero]
      simp
    | failed => simp [gfsMysqlDownload]
    | error => simp [gfsMysqlDownload]
    | empty => simp [gfsMysqlDownload]
  · rw [downloadHandle, if_neg hasks]

theorem downloadHandle_found (slack : ℕ → ℕ) {packet : Packet} {sql : Outcome} (hh : base.Holds held pool)
    (h : bnum packet sql ≠ 0) (hfits : Fits (bnum packet sql * 16).toNat)
    (hstores : 16 * (bnum packet sql).toInt ≤ (bnum packet sql * 16).toNat) :
    ∃ blist bytes pool', downloadHandle slack packet sql pool = some ((some blist, bnum packet sql), pool') ∧
      base.Holds ((blist, bytes) :: held) pool' := by
  obtain ⟨hasks, hsize, fid, entries, hd⟩ := bnum_ne_zero h
  obtain ⟨blist, bytes, pool', hmalloc, hh'⟩ :=
    malloc_holds slack hh (fun hz => hsize (BitVec.eq_of_toNat_eq hz)) hfits
  have hpos : ¬ (bnum packet sql < 1 ∨ some blist = none) := by simpa using h
  refine ⟨blist, bytes, pool', ?_, hh'⟩
  rw [downloadHandle, if_pos hasks, hd, gfsMysqlDownload, hmalloc]
  simp only [Option.bind_eq_bind, Option.bind_some, if_pos hstores, if_neg hpos]

theorem downloadHandle_overruns {packet : Packet} {sql : Outcome} (hh : base.Holds held pool)
    (h : bnum packet sql ≠ 0)
    (hover : ¬ (Fits (bnum packet sql * 16).toNat ∧ 16 * (bnum packet sql).toInt ≤ (bnum packet sql * 16).toNat)) :
    downloadHandle slack packet sql pool = none := by
  obtain ⟨hasks, hsize, fid, entries, hd⟩ := bnum_ne_zero h
  have hsize' : (bnum packet sql * 16).toNat ≠ 0 := fun hz => hsize (BitVec.eq_of_toNat_eq hz)
  rw [downloadHandle, if_pos hasks, hd, gfsMysqlDownload]
  by_cases hfits : Fits (bnum packet sql * 16).toNat
  · obtain ⟨blist, bytes, pool', hmalloc, hh'⟩ := malloc_holds slack hh hsize' hfits
    rw [hmalloc]
    simp only [Option.bind_eq_bind, Option.bind_some, if_neg fun hstores => hover ⟨hfits, hstores⟩, Option.bind_none]
  · rw [malloc_wraps slack pool hsize' hfits]
    rfl

theorem downloadResponse_allocated (copies : ℕ) (packet : Packet) (sql : Outcome) (bnum : BitVec 32) :
    (downloadResponse copies packet sql bnum).allocated = if bnum = 0 then 36 else (bnum * 24 + 36).toNat := rfl

/-- The size is an odd multiple of four. -/
theorem downloadResponse_allocated_ne (copies : ℕ) (packet : Packet) (sql : Outcome) (bnum : BitVec 32) :
    (downloadResponse copies packet sql bnum).allocated ≠ 0 := by
  rw [downloadResponse_allocated]
  split_ifs
  · decide
  · rw [BitVec.toNat_add, BitVec.toNat_mul, show (24 : BitVec 32).toNat = 24 from rfl,
      show (36 : BitVec 32).toNat = 36 from rfl]
    omega

variable {copies : ℕ} {packet : Packet} {sql : Outcome}

theorem download_holds (slack : ℕ → ℕ) (copies : ℕ) (hh : base.Holds held pool) (hroom : Roomy packet sql) :
    ∃ sbuf bytes pool', download slack copies packet sql pool =
        some ((downloadResponse copies packet sql (bnum packet sql), sbuf), pool') ∧
      base.Holds ((sbuf, bytes) :: held) pool' := by
  have hsize := downloadResponse_allocated_ne copies packet sql (bnum packet sql)
  by_cases hb : bnum packet sql = 0
  · have hfits : Fits (downloadResponse copies packet sql (bnum packet sql)).allocated := by
      rw [downloadResponse_allocated, if_pos hb]
      decide
    obtain ⟨sbuf, bytes, pool₁, hsend, hh₁⟩ := sendBuffer_holds slack hh _ hsize hfits
    rw [hb] at hsend ⊢
    refine ⟨sbuf, bytes, pool₁, ?_, hh₁⟩
    simp only [download, downloadHandle_blank hb, hsend, Option.bind_eq_bind, Option.bind_some, free_none]
  · obtain ⟨hlist, hstores, hbuf⟩ := hroom hb
    have hfits : Fits (downloadResponse copies packet sql (bnum packet sql)).allocated := by
      rw [downloadResponse_allocated, if_neg hb]
      exact hbuf
    obtain ⟨blist, m, pool₁, hhandle, hh₁⟩ := downloadHandle_found slack hh hb hlist hstores
    obtain ⟨sbuf, n, pool₂, hsend, hh₂⟩ := sendBuffer_holds slack hh₁ _ hsize hfits
    obtain ⟨pool₃, hfree, hh₃⟩ := free_holds [(sbuf, n)] hh₂
    exact ⟨sbuf, n, pool₃, by simp [download, hhandle, hsend, hfree], hh₃⟩

theorem download_overruns (hh : base.Holds held pool) (hroom : ¬ Roomy packet sql) :
    download slack copies packet sql pool = none := by
  obtain ⟨hb, hroom⟩ : bnum packet sql ≠ 0 ∧ ¬ Room (bnum packet sql) := Classical.not_imp.mp hroom
  by_cases hlist : Fits (bnum packet sql * 16).toNat ∧ 16 * (bnum packet sql).toInt ≤ (bnum packet sql * 16).toNat
  · obtain ⟨blist, m, pool₁, hhandle, hh₁⟩ := downloadHandle_found slack hh hb hlist.1 hlist.2
    have hbuf : ¬ Fits (downloadResponse copies packet sql (bnum packet sql)).allocated := by
      rw [downloadResponse_allocated, if_neg hb]
      exact fun hbuf => hroom ⟨hlist.1, hlist.2, hbuf⟩
    have hwraps := malloc_wraps slack pool₁ (downloadResponse_allocated_ne copies packet sql (bnum packet sql)) hbuf
    simp [download, hhandle, sendBuffer, hwraps]
  · simp [download, downloadHandle_overruns hh hb hlist]

/-- The response of a request whose type is answered -/
def response (copies : ℕ) (packet : Packet) (sql : Outcome) : Response :=
  match packet.type with
  | 1 => loginResponse
  | 2 => uploadResponse (dsnum packet sql)
  | 3 => downloadResponse copies packet sql (bnum packet sql)
  | 4 => deleteFileResponse
  | _ => getfsizeResponse

theorem answer_holds (slack : ℕ → ℕ) (copies : ℕ) (hh : base.Holds held pool) (htype : packet.type ∈ [1, 2, 3, 4, 10])
    (hroom : packet.type = 3 → Roomy packet sql) :
    ∃ sbuf bytes pool', answer slack copies packet sql pool = some (some (response copies packet sql, sbuf), pool') ∧
      base.Holds ((sbuf, bytes) :: held) pool' := by
  simp only [List.mem_cons, List.not_mem_nil, or_false] at htype
  rcases htype with h | h | h | h | h
  · obtain ⟨sbuf, n, pool', hsend, hh'⟩ := sendBuffer_holds slack hh loginResponse (by decide) (by decide)
    exact ⟨sbuf, n, pool', by simp [answer, response, h, hsend], hh'⟩
  · obtain ⟨sbuf, n, pool', hsend, hh'⟩ := upload_holds slack packet sql hh
    exact ⟨sbuf, n, pool', by simp [answer, response, h, hsend], hh'⟩
  · obtain ⟨sbuf, n, pool', hsend, hh'⟩ := download_holds slack copies hh (hroom h)
    exact ⟨sbuf, n, pool', by simp [answer, response, h, hsend], hh'⟩
  · obtain ⟨sbuf, n, pool', hsend, hh'⟩ := sendBuffer_holds slack hh deleteFileResponse (by decide) (by decide)
    exact ⟨sbuf, n, pool', by simp [answer, response, h, hsend], hh'⟩
  · obtain ⟨sbuf, n, pool', hsend, hh'⟩ := sendBuffer_holds slack hh getfsizeResponse (by decide) (by decide)
    exact ⟨sbuf, n, pool', by simp [answer, response, h, hsend], hh'⟩

theorem answer_overruns (slack : ℕ → ℕ) (copies : ℕ) (hh : base.Holds held pool) (htype : packet.type = 3)
    (hroom : ¬ Roomy packet sql) :
    answer slack copies packet sql pool = none := by
  simp [answer, htype, download_overruns hh hroom]

theorem answer_silent (slack : ℕ → ℕ) (copies : ℕ) (sql : Outcome) (pool : Heap)
    (h : packet.type = 6 ∨ packet.type = 8 ∨ packet.type = 9) :
    answer slack copies packet sql pool = some (none, pool) := by
  rcases h with h | h | h <;> simp [answer, h]

end Pool

/-! ## Whole runs -/

/-- How calls end that began with `held` over `base`: where they return, they are `clean` exactly if they left nothing
behind and every response is `good`. -/
def Ends (good : Response → Prop) (clean : Prop) (base : Heap) (held : List (ℕ × ℕ))
    (result : Option (List Response × Heap)) : Prop :=
  result = none ∧ ¬ clean ∨ ∃ responses leaked pool, result = some (responses, pool) ∧
    base.Holds (leaked ++ held) pool ∧ (clean ↔ leaked = [] ∧ ∀ r ∈ responses, good r)

section Runs

variable {good : Response → Prop} {slack : ℕ → ℕ} {copies : ℕ} {base pool : Heap} {held : List (ℕ × ℕ)}
  {packet : Packet} {sql : Outcome} {clean : Prop}

/-- The request neither leaks nor stores outside its blocks, its response is `good`, and `within` is clean. -/
def Packet.CleanFor (good : Response → Prop) (copies : ℕ) (sql : Outcome) (within : Prop) (packet : Packet) : Prop :=
  packet.Proper ∧ (packet.Parsed → packet.Honest) ∧ (packet.Answered →
    (packet.type = 3 → Roomy packet sql) ∧ good (response copies packet sql) ∧ within)

theorem Ends.congr {clean' : Prop} {result : Option (List Response × Heap)} (h : Ends good clean base held result)
    (hiff : clean' ↔ clean) : Ends good clean' base held result := by
  rwa [Ends, hiff, ← Ends]

theorem Ends.of_holds {clean : Prop} (hh : base.Holds held pool) (hclean : clean) :
    Ends good clean base held (some ([], pool)) :=
  Or.inr ⟨[], [], pool, rfl, hh, by simpa using hclean⟩

theorem Packet.cleanFor_iff (h : packet.Proper) (ha : ¬ packet.Answered) :
    packet.CleanFor good copies sql clean ↔ (packet.Parsed → packet.Honest) := by
  simp [Packet.CleanFor, h, ha]

/-- A parse that stores outside the block of the copy ends the request. -/
theorem serve_overruns (send : Heap → Option (List Response × Heap)) (busi : Busi)
    (htype : packet.type ∈ [1, 2, 3, 4, 6, 8, 9, 10]) (hnot : ¬ packet.Honest) :
    serve slack copies send busi packet sql pool = none := by
  simp [serve, parse_overruns htype hnot]

/-- The request holds its three blocks, and its buffer, while the packets behind it are handled. -/
theorem serve_ends (send : Heap → Option (List Response × Heap)) {busi : Busi} {k m n : ℕ}
    (hsend : ∀ held pool, base.Holds held pool → Ends good clean base held (send pool))
    (hh : base.Holds ((busi.rsh, k) :: (busi.rbuf, n) :: (busi.busi, m) :: held) pool)
    (htype : packet.type ∈ [1, 2, 3, 4, 10]) (hhonest : packet.Honest) :
    Ends good ((packet.type = 3 → Roomy packet sql) ∧ good (response copies packet sql) ∧ clean) base held
      (serve slack copies send busi packet sql pool) := by
  have hparse : parse packet = some () := by
    refine (parse_eq_some_iff ?_).mpr hhonest
    simp only [List.mem_cons, List.not_mem_nil, or_false] at htype ⊢
    omega
  by_cases hroom : packet.type = 3 → Roomy packet sql
  · obtain ⟨sbuf, j, pool₁, hanswer, hh₁⟩ := answer_holds slack copies hh htype hroom
    rcases hsend _ pool₁ hh₁ with ⟨hnone, hclean⟩ | ⟨responses, leaked, pool₂, hsome, hh₂, hclean⟩
    · refine Or.inl ⟨by simp [serve, hparse, hanswer, hnone], ?_⟩
      tauto
    · obtain ⟨pool₃, hdestory, hh₃⟩ := destory_sent hh₂
      refine Or.inr ⟨response copies packet sql :: responses, leaked, pool₃,
        by simp [serve, hparse, hanswer, hsome, hdestory], hh₃, ?_⟩
      rw [hclean, List.forall_mem_cons]
      tauto
  · obtain ⟨h3, hover⟩ := Classical.not_imp.mp hroom
    refine Or.inl ⟨by simp [serve, hparse, answer_overruns slack copies hh h3 hover], ?_⟩
    tauto

theorem serve_silent (send : Heap → Option (List Response × Heap)) {busi : Busi} {k m n : ℕ}
    (hh : base.Holds ((busi.rsh, k) :: (busi.rbuf, n) :: (busi.busi, m) :: held) pool)
    (htype : packet.type = 6 ∨ packet.type = 8 ∨ packet.type = 9) (hhonest : packet.Honest) :
    Ends good True base held (serve slack copies send busi packet sql pool) := by
  have hparse : parse packet = some () := by
    refine (parse_eq_some_iff ?_).mpr hhonest
    simp only [List.mem_cons, List.not_mem_nil, or_false]
    omega
  obtain ⟨pool', hdestory, hh'⟩ := destory_empty hh
  have hserve : serve slack copies send busi packet sql pool = some ([], pool') := by
    simp [serve, hparse, answer_silent slack copies sql pool htype, hdestory]
  rw [hserve]
  exact Ends.of_holds hh' trivial

theorem handle_ends (slack : ℕ → ℕ) (copies : ℕ) (packet : Packet) (sql : Outcome)
    (send : Heap → Option (List Response × Heap))
    (hsend : ∀ held pool, base.Holds held pool → Ends good clean base held (send pool))
    (hh : base.Holds held pool) :
    Ends good (packet.CleanFor good copies sql clean) base held (handle slack copies send packet sql pool) := by
  by_cases hlen : packet.len = 0
  · obtain ⟨pool', hcreate, hh'⟩ := create_empty slack hh hlen
    have hhandle : handle slack copies send packet sql pool = some ([], pool') := by simp [handle, hcreate]
    rw [hhandle]
    exact Ends.of_holds hh' ⟨Or.inl hlen, fun hp => absurd hlen hp.1, fun ha => absurd hlen ha.1⟩
  by_cases hfits : Fits packet.len.toNat
  case neg =>
    refine Or.inl ⟨by simp [handle, create_wraps slack hh hlen hfits], fun hclean => ?_⟩
    exact hclean.1.elim hlen fun h => hfits h.1
  obtain ⟨busi, rbuf, m, n, pool₁, hcreate, hh₁⟩ := create_copies slack hh hlen hfits
  by_cases htype : packet.type < 1 ∨ 10 < packet.type
  · -- the blocks of `busi` and of `rbuf` stay behind
    refine Or.inr ⟨[], [(rbuf, n), (busi, m)], pool₁, ?_, hh₁, ?_⟩
    · simp only [handle, hcreate, createRsh, if_pos htype, Option.bind_eq_bind, Option.bind_some]
    · simp only [List.cons_ne_nil, false_and, iff_false]
      exact fun hclean => hclean.1.elim hlen fun h => by omega
  have hproper : packet.Proper := Or.inr ⟨hfits, by omega⟩
  by_cases hunused : packet.type = 5 ∨ packet.type = 7
  · obtain ⟨pool', hcreated, hh'⟩ := createRsh_unused slack hh₁ hunused
    have hhandle : handle slack copies send packet sql pool = some ([], pool') := by simp [handle, hcreate, hcreated]
    rw [hhandle]
    refine Ends.of_holds hh' ⟨hproper, fun hp => absurd hp.2 ?_, fun ha => absurd ha.2 ?_⟩ <;>
      rcases hunused with h | h <;> simp [h]
  have hready : packet.type ∈ [1, 2, 3, 4, 6, 8, 9, 10] := by
    simp only [List.mem_cons, List.not_mem_nil, or_false]
    omega
  obtain ⟨rsh, k, pool₂, hcreated, hh₂⟩ := createRsh_ready slack hh₁ hready
  have hhandle : handle slack copies send packet sql pool =
      serve slack copies send ⟨busi, rbuf, rsh⟩ packet sql pool₂ := by
    simp [handle, hcreate, hcreated]
  rw [hhandle]
  have hparsed : packet.Parsed := ⟨hlen, hready⟩
  by_cases hhonest : packet.Honest
  case neg => exact Or.inl ⟨serve_overruns send _ hready hhonest, fun hclean => hhonest (hclean.2.1 hparsed)⟩
  by_cases hsilent : packet.type = 6 ∨ packet.type = 8 ∨ packet.type = 9
  · refine (serve_silent send hh₂ hsilent hhonest).congr ?_
    rw [packet.cleanFor_iff hproper fun ha => absurd ha.2 ?_]
    · exact iff_true_intro fun _ => hhonest
    · rcases hsilent with h | h | h <;> simp [h]
  · have hanswered : packet.type ∈ [1, 2, 3, 4, 10] := by
      simp only [List.mem_cons, List.not_mem_nil, or_false] at hready ⊢
      omega
    refine (serve_ends send hsend hh₂ hanswered hhonest).congr ?_
    simp only [Packet.CleanFor, hproper, hhonest, implies_true, true_and, Packet.Answered, ne_eq, hlen,
      not_false_eq_true, hanswered, and_self, forall_const]

def Calls.CleanFor (good : Response → Prop) (copies : ℕ) : Calls → Prop
  | .done => True
  | .call packet sql within rest =>
    packet.CleanFor good copies sql (within.CleanFor good copies) ∧ rest.CleanFor good copies

theorem Calls.run_ends (good : Response → Prop) (slack : ℕ → ℕ) (copies : ℕ) (calls : Calls)
    (hh : base.Holds held pool) :
    Ends good (calls.CleanFor good copies) base held (calls.run slack copies pool) := by
  induction calls generalizing held pool with
  | done => exact Ends.of_holds hh trivial
  | call packet sql within rest ihwithin ihrest =>
    have hhandle := handle_ends slack copies packet sql (within.run slack copies) (fun held pool hh => ihwithin hh) hh
    rcases hhandle with ⟨hnone, hclean⟩ | ⟨sent, leaked, pool₁, hsome, hh₁, hclean⟩
    · exact Or.inl ⟨by simp [run, hnone], fun h => hclean h.1⟩
    rcases ihrest hh₁ with ⟨hnone, hrest⟩ | ⟨later, leaked', pool₂, hsome', hh₂, hrest⟩
    · exact Or.inl ⟨by simp [run, hsome, hnone], fun h => hrest h.2⟩
    · rw [← List.append_assoc] at hh₂
      refine Or.inr ⟨sent ++ later, leaked' ++ leaked, pool₂, by simp [run, hsome, hsome'], hh₂, ?_⟩
      rw [CleanFor, hclean, hrest, List.append_eq_nil_iff, List.forall_mem_append]
      tauto

theorem neutral_iff_cleanFor (good : Response → Prop) (slack : ℕ → ℕ) (copies : ℕ) (calls : Calls) (pool : Heap) :
    Neutral good slack copies calls pool ↔ calls.CleanFor good copies := by
  rcases calls.run_ends good slack copies (Heap.Holds.refl pool) with
    ⟨hnone, hclean⟩ | ⟨responses, leaked, pool', hsome, hh, hclean⟩
  · constructor
    · rintro ⟨responses, pool', hsome, -⟩
      rw [hnone] at hsome
      cases hsome
    · exact fun h => absurd h hclean
  · rw [List.append_nil] at hh
    rw [hclean, ← hh.eq_nil_iff]
    constructor
    · rintro ⟨rs, p, hrun, hsize, -, hgood⟩
      rw [hsome, Option.some.injEq, Prod.mk.injEq] at hrun
      rw [hrun.1, hrun.2]
      exact ⟨hsize, hgood⟩
    · rintro ⟨hsize, hgood⟩
      exact ⟨responses, pool', hsome, hsize, fun id bytes hid => hh.keeps hid, hgood⟩

end Runs

/-! ## The bytes of a response -/

namespace Response

theorem mem_written {r : Response} {i : ℕ} :
    i ∈ r.written ↔ ∃ store ∈ r.stores, store.1 ≤ i ∧ i < store.1 + store.2 := by
  simp [written]

theorem filled_of_written {r : Response} (h : r.written = Finset.range r.len) (hle : r.len ≤ r.allocated) :
    r.Filled := by
  rw [Filled, h, Finset.card_range]
  exact ⟨hle, rfl⟩

/-- All of the length is written, and nothing more. -/
theorem written_eq {r : Response} (hin : ∀ store ∈ r.stores, store.1 + store.2 ≤ r.len)
    (hall : ∀ i < r.len, ∃ store ∈ r.stores, store.1 ≤ i ∧ i < store.1 + store.2) :
    r.written = Finset.range r.len := by
  ext i
  rw [mem_written, Finset.mem_range]
  constructor
  · rintro ⟨store, hstore, -, hi⟩
    have := hin store hstore
    omega
  · exact hall i

/-- A byte inside the length that no store reaches -/
theorem not_filled {r : Response} {i : ℕ} (hin : ∀ store ∈ r.stores, store.1 + store.2 ≤ r.len) (hi : i < r.len)
    (hgap : ∀ store ∈ r.stores, i < store.1 ∨ store.1 + store.2 ≤ i) : ¬ r.Filled := by
  rintro ⟨-, hcard⟩
  have hsub : r.written ⊆ (Finset.range r.len).erase i := by
    intro j hj
    obtain ⟨store, hstore, hlow, hhigh⟩ := mem_written.mp hj
    have hlen := hin store hstore
    have hi' := hgap store hstore
    rw [Finset.mem_erase, Finset.mem_range]
    omega
  have hlt := Finset.card_le_card hsub
  rw [Finset.card_erase_of_mem (Finset.mem_range.mpr hi), Finset.card_range] at hlt
  omega

end Response

theorem loginResponse_filled : loginResponse.Filled :=
  Response.filled_of_written (by decide) (by decide)

theorem deleteFileResponse_filled : deleteFileResponse.Filled :=
  Response.filled_of_written (by decide) (by decide)

theorem getfsizeResponse_filled : getfsizeResponse.Filled :=
  Response.filled_of_written (by decide) (by decide)

theorem uploadResponse_filled (num : ℕ) : (uploadResponse num).Filled := by
  refine Response.filled_of_written (Response.written_eq ?_ ?_) le_rfl
  · simp only [uploadResponse, List.mem_cons, List.not_mem_nil, or_false, forall_eq_or_imp, forall_eq]
    omega
  · intro i hi
    simp only [uploadResponse, List.mem_cons, List.not_mem_nil, or_false, exists_eq_or_imp, exists_eq_left] at hi ⊢
    omega

/-! ### The loop over the blocks -/

section Loop

open BlockLoop

variable {copies : ℕ} {net : BitVec 32 → Option Message.DataServer} {l : BlockLoop} {row : Message.SqlBlock}

theorem turn_b (copies : ℕ) (net : BitVec 32 → Option Message.DataServer) (l : BlockLoop) (row : Message.SqlBlock) :
    (l.turn copies net row).b = l.b ∨ (l.turn copies net row).b = l.b + 1 := by
  rcases turn_blocks copies net l row with h | ⟨server, -, h⟩
  · exact Or.inl (by rw [b, h, b])
  · exact Or.inr (by rw [b, h, List.length_append, List.length_singleton, b])

theorem foldl_b (copies : ℕ) (net : BitVec 32 → Option Message.DataServer) (l : BlockLoop)
    (rows : List Message.SqlBlock) :
    l.b ≤ (rows.foldl (turn copies net) l).b ∧ (rows.foldl (turn copies net) l).b ≤ l.b + rows.length := by
  induction rows generalizing l with
  | nil => exact ⟨le_rfl, le_rfl⟩
  | cons row rows ih =>
    have hturn := turn_b copies net l row
    have hrest := ih (l.turn copies net row)
    rw [List.foldl_cons, List.length_cons]
    omega

theorem turn_adds {server : Message.DataServer} (hgo : l.stopped = false) (henough : ¬ l.Enough copies row)
    (hroom : ¬ 150 < l.b) (hnet : net row.dsid = some server) : (l.turn copies net row).b = l.b + 1 := by
  have hblocks : (l.turn copies net row).blocks = l.blocks ++ [(row.bindex, server)] := by
    rw [turn_eq copies net hgo henough hroom, hnet, ← reset_blocks copies l]
    rfl
  rw [b, hblocks, List.length_append, List.length_singleton, b]

/-- The stores of a turn are in the first half of the entry, and what is behind the entries is the index alone. -/
theorem turnStores_inside {store : ℕ × ℕ} (h : store ∈ turnStores copies net l row) :
    32 + 24 * l.b ≤ store.1 ∧ store.1 + store.2 ≤ 44 + 24 * l.b ∧
      store.1 + store.2 ≤ 36 + 24 * (l.turn copies net row).b := by
  unfold turnStores at h
  split at h
  · cases h
  next hgo =>
    obtain ⟨hgo, henough, hroom⟩ : ¬ l.stopped = true ∧ ¬ l.Enough copies row ∧ ¬ 150 < l.b := by
      simpa only [not_or] using hgo
    cases hnet : net row.dsid with
    | none =>
      have hturn := turn_b copies net l row
      simp only [hnet, Option.isSome_none, Bool.false_eq_true, if_false, List.mem_singleton] at h
      subst h
      dsimp only
      omega
    | some server =>
      have hturn := turn_adds (by simpa using hgo) henough hroom hnet
      simp only [hnet, Option.isSome_some, if_true, List.mem_cons, List.not_mem_nil, or_false] at h
      rcases h with rfl | rfl | rfl <;> dsimp only <;> omega

theorem loopStores_inside (l : BlockLoop) (rows : List Message.SqlBlock) :
    ∀ store ∈ loopStores copies net l rows,
      (∃ i, 32 + 24 * i ≤ store.1 ∧ store.1 + store.2 ≤ 44 + 24 * i) ∧
        store.1 + store.2 ≤ 36 + 24 * (rows.foldl (turn copies net) l).b := by
  induction rows generalizing l with
  | nil =>
    intro store hstore
    cases hstore
  | cons row rows ih =>
    intro store hstore
    rw [loopStores, List.mem_append] at hstore
    rcases hstore with h | h
    · obtain ⟨hlow, hhigh, hlast⟩ := turnStores_inside h
      have hgrows := (foldl_b copies net (l.turn copies net row) rows).1
      refine ⟨⟨l.b, hlow, hhigh⟩, ?_⟩
      rw [List.foldl_cons]
      omega
    · exact ih _ store h

/-- The word before the first entry is the type of the message. -/
theorem hostInt_loopStart (packet : Packet) (sql : Outcome) :
    hostInt 32 4 (loopStart packet sql).pdata 8 = (readHead packet.rbuf).msgType := by
  have hhead := setRspHead_holds 36 (readHead packet.rbuf).id (readHead packet.rbuf).msgType 0 sql.rsh
  have hrsp := holds_poke_bytesAt hhead (rspFootprint_length _ _ _ _) sql.pdata 0
  simp only [rspFootprint, holds_append, field_length] at hrsp
  have htype : Holds (loopStart packet sql).pdata 8 (field 4 (ntohl (readHead packet.rbuf).msgType)) :=
    word_after hrsp.2.2.1 (by decide)
  rw [← ntohl_ntohl (hostInt 32 4 _ 8), ntohl_hostInt htype, ntohl_ntohl]

/-- No entry has been made. -/
structure Untouched (packet : Packet) (sql : Outcome) (l : BlockLoop) : Prop where
  front : Inv (loopStart packet sql).pdata l
  blocks : l.blocks = []
  dsnum : l.dsnum = 0
  stopped : l.stopped = false

variable {packet : Packet} {sql : Outcome}

theorem Untouched.enough_iff (h : Untouched packet sql l) (row : Message.SqlBlock) :
    l.Enough copies row ↔ copies = 0 ∧ (readHead packet.rbuf).msgType = ntohl row.bindex := by
  have hzero : l.b = 0 := by rw [b, h.blocks, List.length_nil]
  have hread : hostInt 32 4 l.pdata (BlockLoop.entry (l.b - 1)) = (readHead packet.rbuf).msgType := by
    rw [← hostInt_loopStart packet sql, hzero]
    unfold hostInt
    congr 1
    refine List.map_congr_left fun i hi => h.front.front _ ?_
    rw [List.mem_range] at hi
    simp only [BlockLoop.entry, Nat.cast_zero]
    omega
  rw [Enough, hread, h.dsnum, Nat.le_zero]

theorem Untouched.turn (h : Untouched packet sql l) (hrow : Skipped copies packet sql row) :
    Untouched packet sql (l.turn copies sql.net row) := by
  have hfront := h.front.turn copies sql.net row
  have hroom : ¬ 150 < l.b := by rw [b, h.blocks]; decide
  by_cases henough : l.Enough copies row
  · have hsame : l.turn copies sql.net row = l := by
      rw [BlockLoop.turn, if_neg (by simp [h.stopped]), if_pos henough]
    rw [hsame]
    exact h
  · have hnet : sql.net row.dsid = none := hrow.resolve_right fun hc => henough ((h.enough_iff row).mpr hc)
    have hturn : l.turn copies sql.net row = (l.reset copies).add row none := by
      rw [turn_eq copies sql.net h.stopped henough hroom, hnet]
    have hreset : (l.reset copies).dsnum = 0 := by
      rw [reset]
      split
      · rfl
      · exact h.dsnum
    refine ⟨hfront, ?_, ?_, ?_⟩ <;> rw [hturn]
    · exact (reset_blocks copies l).trans h.blocks
    · exact hreset
    · exact (reset_stopped copies l).trans h.stopped

theorem Untouched.b_eq_zero_iff (h : Untouched packet sql l) (rows : List Message.SqlBlock) :
    (rows.foldl (BlockLoop.turn copies sql.net) l).b = 0 ↔ ∀ row ∈ rows, Skipped copies packet sql row := by
  induction rows generalizing l with
  | nil => simp [b, h.blocks]
  | cons row rows ih =>
    rw [List.foldl_cons, List.forall_mem_cons]
    by_cases hrow : Skipped copies packet sql row
    · rw [ih (h.turn hrow), and_iff_right hrow]
    · -- the row gets an entry, and entries stay
      obtain ⟨hnet, hne⟩ := not_or.mp hrow
      obtain ⟨server, hserver⟩ := Option.ne_none_iff_exists'.mp hnet
      have hroom : ¬ 150 < l.b := by rw [b, h.blocks]; decide
      have hadds := turn_adds h.stopped (fun he => hne ((h.enough_iff row).mp he)) hroom hserver
      have hstays := (foldl_b copies sql.net (l.turn copies sql.net row) rows).1
      constructor
      · intro hzero
        omega
      · exact fun hall => absurd hall.1 hrow

theorem untouched_loopStart (packet : Packet) (sql : Outcome) : Untouched packet sql (loopStart packet sql) :=
  ⟨inv_start _ _ _ _ _ _, rfl, rfl, rfl⟩

end Loop

/-! ### A download -/

section Downloads

variable {copies : ℕ} {packet : Packet} {sql : Outcome} {bnum : BitVec 32}

/-- The entries of the response -/
def listed (copies : ℕ) (packet : Packet) (sql : Outcome) (bnum : BitVec 32) : ℕ :=
  ((rows sql.download bnum).foldl (BlockLoop.turn copies sql.net) (loopStart packet sql)).b

theorem downloadResponse_len (copies : ℕ) (packet : Packet) (sql : Outcome) (bnum : BitVec 32) :
    (downloadResponse copies packet sql bnum).len = 36 + 24 * listed copies packet sql bnum := by
  have hbound : listed copies packet sql bnum ≤ 151 := (BlockLoop.inv_run copies sql.net _ _).bound
  show (BitVec.ofNat 32 (listed copies packet sql bnum) * 24 + 36).toNat = _
  rw [BitVec.toNat_add, BitVec.toNat_mul, BitVec.toNat_ofNat, show (24 : BitVec 32).toNat = 24 from rfl,
    show (36 : BitVec 32).toNat = 36 from rfl]
  omega

theorem mem_downloadStores {store : ℕ × ℕ} : store ∈ (downloadResponse copies packet sql bnum).stores ↔
    store ∈ [(0, 20), (20, 8), (28, 4), (32 + 24 * listed copies packet sql bnum, 4), (0, 4)] ∨
      store ∈ loopStores copies sql.net (loopStart packet sql) (rows sql.download bnum) := by
  show store ∈ [(0, 20), (20, 8)] ++ loopStores copies sql.net (loopStart packet sql) (rows sql.download bnum) ++
    [(28, 4), (32 + 24 * listed copies packet sql bnum, 4), (0, 4)] ↔ _
  simp only [List.mem_append, List.mem_cons, List.not_mem_nil, or_false]
  tauto

theorem downloadStores_inside {store : ℕ × ℕ} (h : store ∈ (downloadResponse copies packet sql bnum).stores) :
    store.1 + store.2 ≤ 36 + 24 * listed copies packet sql bnum := by
  rcases mem_downloadStores.mp h with h | h
  · simp only [List.mem_cons, List.not_mem_nil, or_false] at h
    rcases h with rfl | rfl | rfl | rfl | rfl <;> dsimp only <;> omega
  · exact (loopStores_inside _ _ store h).2

/-- Of the sixteen bytes for the address of the first entry the last twelve are not written. -/
theorem downloadStores_gap {store : ℕ × ℕ} (hlisted : listed copies packet sql bnum ≠ 0)
    (h : store ∈ (downloadResponse copies packet sql bnum).stores) : 44 < store.1 ∨ store.1 + store.2 ≤ 44 := by
  have hpos := Nat.pos_of_ne_zero hlisted
  rcases mem_downloadStores.mp h with h | h
  · simp only [List.mem_cons, List.not_mem_nil, or_false] at h
    rcases h with rfl | rfl | rfl | rfl | rfl <;> dsimp only <;> omega
  · obtain ⟨i, hlow, hhigh⟩ := (loopStores_inside _ _ store h).1
    omega

theorem downloadResponse_filled_iff : (downloadResponse copies packet sql bnum).Filled ↔
    listed copies packet sql bnum = 0 ∧ 36 ≤ (downloadResponse copies packet sql bnum).allocated := by
  have hlen := downloadResponse_len copies packet sql bnum
  have hin : ∀ store ∈ (downloadResponse copies packet sql bnum).stores,
      store.1 + store.2 ≤ (downloadResponse copies packet sql bnum).len := by
    intro store hstore
    rw [hlen]
    exact downloadStores_inside hstore
  by_cases hzero : listed copies packet sql bnum = 0
  · have hwritten := Response.written_eq hin ?_
    · rw [Response.Filled, hwritten, Finset.card_range, hlen, hzero]
      simp
    · intro i hi
      simp only [mem_downloadStores]
      by_cases hfirst : i < 20
      · exact ⟨(0, 20), by simp, by omega⟩
      by_cases hfid : i < 28
      · exact ⟨(20, 8), by simp, by omega⟩
      by_cases hbnum : i < 32
      · exact ⟨(28, 4), by simp, by omega⟩
      · exact ⟨(32 + 24 * listed copies packet sql bnum, 4), by simp, by omega⟩
  · have hgap : ¬ (downloadResponse copies packet sql bnum).Filled :=
      Response.not_filled hin (by omega) fun store hstore => downloadStores_gap hzero hstore
    tauto

theorem listed_eq_zero_iff : listed copies packet sql bnum = 0 ↔
    ∀ row ∈ rows sql.download bnum, Skipped copies packet sql row :=
  (untouched_loopStart packet sql).b_eq_zero_iff _

theorem rows_zero (download : Download) : rows download 0 = [] := by
  cases download <;> rfl

theorem download_clean_iff : Roomy packet sql ∧ (downloadResponse copies packet sql (Requests.bnum packet sql)).Filled ↔
    (asks packet → sql.download.Blank copies packet sql) := by
  rw [downloadResponse_filled_iff, listed_eq_zero_iff, downloadResponse_allocated]
  by_cases hb : Requests.bnum packet sql = 0
  · have hleft : Roomy packet sql := fun h => absurd hb h
    have hright : asks packet → sql.download.Blank copies packet sql := by
      intro hasks
      cases hd : sql.download with
      | found fid num blist =>
        refine Or.inl (by_contra fun hne => hne ?_)
        simp only [Requests.bnum, hd, hasks, hne, ne_eq, not_false_eq_true, and_self, if_true] at hb
        rw [hb]
        rfl
      | failed => trivial
      | error => trivial
      | empty => trivial
    rw [hb, rows_zero, if_pos rfl]
    exact ⟨fun _ => hright, fun _ => ⟨hleft, by simp, le_rfl⟩⟩
  · obtain ⟨hasks, hsize, fid, blist, hd⟩ := bnum_ne_zero hb
    have hroom : Roomy packet sql ↔ Room (Requests.bnum packet sql) := ⟨fun h => h hb, fun h _ => h⟩
    have hrows : (∀ row ∈ rows sql.download (Requests.bnum packet sql), Skipped copies packet sql row) ↔
        ∀ i < (Requests.bnum packet sql).toNat, Skipped copies packet sql (blist i) := by
      simp [hd, rows]
    have hblank : (asks packet → sql.download.Blank copies packet sql) ↔
        Room (Requests.bnum packet sql) ∧ 36 ≤ (Requests.bnum packet sql * 24 + 36).toNat ∧
          ∀ i < (Requests.bnum packet sql).toNat, Skipped copies packet sql (blist i) := by
      rw [hd, forall_prop_of_true hasks, Download.Blank, or_iff_right hsize]
    rw [hroom, hrows, hblank, if_neg hb]
    exact and_congr_right fun _ => and_comm

theorem listed_le (copies : ℕ) (packet : Packet) (sql : Outcome) (bnum : BitVec 32) :
    listed copies packet sql bnum ≤ bnum.toNat := by
  have hle := (foldl_b copies sql.net (loopStart packet sql) (rows sql.download bnum)).2
  have hrows : (rows sql.download bnum).length ≤ bnum.toNat := by
    cases sql.download <;> simp [rows]
  have hzero : (loopStart packet sql).b = 0 := rfl
  rw [listed]
  omega

theorem room_of_fits {num : BitVec 32} (h : Fits (num.toNat * 24 + 36)) :
    Room num ∧ (num * 24 + 36).toNat = num.toNat * 24 + 36 := by
  have hsmall : num.toNat * 24 + 36 + 48 < 2 ^ 32 := by
    rw [Fits, align8] at h
    omega
  have hlist : (num * 16).toNat = num.toNat * 16 := by
    rw [BitVec.toNat_mul, show (16 : BitVec 32).toNat = 16 from rfl]
    omega
  have hbuf : (num * 24 + 36).toNat = num.toNat * 24 + 36 := by
    rw [BitVec.toNat_add, BitVec.toNat_mul, show (24 : BitVec 32).toNat = 24 from rfl,
      show (36 : BitVec 32).toNat = 36 from rfl]
    omega
  have hsigned : num.toInt = num.toNat := by
    rw [BitVec.toInt_eq_toNat_of_lt]
    omega
  refine ⟨⟨?_, ?_, ?_⟩, hbuf⟩
  · rw [hlist, Fits, align8]
    omega
  · rw [hlist, hsigned]
    push_cast
    omega
  · rw [hbuf]
    exact h

/-- Where no size wraps, the buffer has an entry for every row. -/
theorem download_reaches (hshort : asks packet → sql.download.Short) :
    Roomy packet sql ∧ (downloadResponse copies packet sql (Requests.bnum packet sql)).Reaches := by
  have hlen := downloadResponse_len copies packet sql (Requests.bnum packet sql)
  have hlisted := listed_le copies packet sql (Requests.bnum packet sql)
  have hsizes : Roomy packet sql ∧ (downloadResponse copies packet sql (Requests.bnum packet sql)).len ≤
      (downloadResponse copies packet sql (Requests.bnum packet sql)).allocated := by
    rw [hlen, downloadResponse_allocated]
    by_cases hb : Requests.bnum packet sql = 0
    · refine ⟨fun h => absurd hb h, ?_⟩
      rw [if_pos hb]
      rw [hb] at hlisted ⊢
      have hzero : listed copies packet sql 0 = 0 := Nat.le_zero.mp hlisted
      omega
    · obtain ⟨hasks, -, fid, blist, hd⟩ := bnum_ne_zero hb
      have hfits := hshort hasks
      rw [hd, Download.Short] at hfits
      obtain ⟨hroom, hbuf⟩ := room_of_fits hfits
      refine ⟨fun _ => hroom, ?_⟩
      rw [if_neg hb, hbuf]
      omega
  have hlast : (32 + 24 * listed copies packet sql (Requests.bnum packet sql), 4) ∈
      (downloadResponse copies packet sql (Requests.bnum packet sql)).stores :=
    mem_downloadStores.mpr (Or.inl (by simp))
  refine ⟨hsizes.1, fun store hstore => ?_, ⟨_, hlast, ?_⟩, hsizes.2⟩
  · rw [hlen]
    exact downloadStores_inside hstore
  · rw [hlen]
    omega

end Downloads

/-! ## The two readings of the size of a response -/

variable {copies : ℕ} {packet : Packet} {sql : Outcome}

theorem response_filled_iff (htype : packet.type ∈ [1, 2, 3, 4, 10]) :
    (packet.type = 3 → Roomy packet sql) ∧ (response copies packet sql).Filled ↔
      (packet.type = 3 → asks packet → sql.download.Blank copies packet sql) := by
  simp only [List.mem_cons, List.not_mem_nil, or_false] at htype
  rcases htype with h | h | h | h | h
  · simp [response, h, loginResponse_filled]
  · simp [response, h, uploadResponse_filled]
  · simp only [response, h, forall_const]
    exact download_clean_iff
  · simp [response, h, deleteFileResponse_filled]
  · simp [response, h, getfsizeResponse_filled]

theorem response_reaches (htype : packet.type ∈ [1, 2, 3, 4, 10])
    (hshort : packet.type = 3 → asks packet → sql.download.Short) :
    (packet.type = 3 → Roomy packet sql) ∧ (response copies packet sql).Reaches := by
  simp only [List.mem_cons, List.not_mem_nil, or_false] at htype
  rcases htype with h | h | h | h | h
  · simp only [response, h]
    exact ⟨by simp, by simp [Response.Reaches, loginResponse]; decide⟩
  · simp only [response, h]
    exact ⟨by simp, by simp [Response.Reaches, uploadResponse]; omega⟩
  · simp only [response, h, forall_const]
    exact download_reaches (hshort h)
  · simp only [response, h]
    exact ⟨by simp, by simp [Response.Reaches, deleteFileResponse]⟩
  · simp only [response, h]
    exact ⟨by simp, by simp [Response.Reaches, getfsizeResponse]; decide⟩

theorem Calls.cleanFor_filled_iff (copies : ℕ) (calls : Calls) :
    calls.CleanFor Response.Filled copies ↔ calls.Clean copies := by
  induction calls with
  | done => rfl
  | call packet sql within rest ihwithin ihrest =>
    rw [CleanFor, Clean, Packet.CleanFor, ihwithin, ihrest, and_assoc, and_assoc]
    refine and_congr_right fun _ => and_congr_right fun _ => and_congr_left fun _ => forall_congr' fun ha => ?_
    rw [← and_assoc, response_filled_iff ha.2]

theorem Calls.cleanFor_reaches (copies : ℕ) {calls : Calls} (h : calls.Short) :
    calls.CleanFor Response.Reaches copies := by
  induction calls with
  | done => trivial
  | call packet sql within rest ihwithin ihrest =>
    obtain ⟨hproper, hhonest, hanswered, hrest⟩ := h
    refine ⟨⟨hproper, hhonest, fun ha => ?_⟩, ihrest hrest⟩
    obtain ⟨hshort, hwithin⟩ := hanswered ha
    obtain ⟨hroom, hreaches⟩ := response_reaches ha.2 hshort
    exact ⟨hroom, hreaches, ihwithin hwithin⟩

/-- Calls on an open connection are neutral, with every byte of every response written, exactly if no packet has a type
outside `[1, 10]` or says that it is longer than the block of its copy, and each download answers that there is no block.
Read by where the last byte is written instead, it is enough that the rows of a download do not make its sizes wrap. -/
theorem neutral_iff_clean (slack : ℕ → ℕ) (copies : ℕ) (calls : Calls) (pool : Heap) :
    (Neutral Response.Filled slack copies calls pool ↔ calls.Clean copies) ∧
      (calls.Short → Neutral Response.Reaches slack copies calls pool) := by
  constructor
  · rw [neutral_iff_cleanFor, Calls.cleanFor_filled_iff]
  · intro hshort
    rw [neutral_iff_cleanFor]
    exact Calls.cleanFor_reaches copies hshort

def emptyPool : Heap where
  live _ := none
  next := 0
  size := 0
  unused _ _ := rfl

/-- A packet of zeros but for its length and its type, which are less than 256 -/
def zeroPacket (len type : BitVec 8) : Packet where
  data q := if q = 3 then len else if q = 11 then type else 0
  len := len.setWidth 32
  rest _ := 0
  slack := 0

/-- No data server, and no file -/
def noServer : Outcome where
  gettopn := some 0
  download := .empty
  net _ := none
  rsh _ := 0
  pdata _ := 0

instance (packet : Packet) : Decidable packet.Honest := inferInstanceAs (Decidable (_ → _))

/-- Sixteen bytes of an upload that says it has 52: the last member stored ends at 52, and the block has 24. -/
example : ¬ { zeroPacket 52 2 with len := 16 }.Honest := by decide

/-- A file is deleted, and the packet behind it, which is handled while the answer is sent, is an answer to a delete
command: its parse stores behind the 40 bytes of the packet, and in the block. -/
theorem neutral_iff_clean_delete :
    Neutral Response.Filled (fun _ => 0) 3
        (.call (zeroPacket 36 4) noServer (.call (zeroPacket 40 6) noServer .done .done) .done) emptyPool ∧
      Neutral Response.Reaches (fun _ => 0) 3
        (.call (zeroPacket 36 4) noServer (.call (zeroPacket 40 6) noServer .done .done) .done) emptyPool := by
  have hdelete : (zeroPacket 36 4).Proper := Or.inr ⟨by decide, by decide, by decide⟩
  have hnotice : (zeroPacket 40 6).Proper := Or.inr ⟨by decide, by decide, by decide⟩
  have hfile : (zeroPacket 36 4).type = 4 := by decide
  have hsilent : ¬ (zeroPacket 40 6).Answered := fun ha => absurd ha.2 (by decide)
  have hhonest : (zeroPacket 36 4).Honest ∧ (zeroPacket 40 6).Honest := by decide
  obtain ⟨hiff, hshort⟩ := neutral_iff_clean (fun _ => 0) 3
    (.call (zeroPacket 36 4) noServer (.call (zeroPacket 40 6) noServer .done .done) .done) emptyPool
  constructor
  · refine hiff.mpr ⟨hdelete, fun _ => hhonest.1, fun _ => ⟨fun h3 => by omega, ?_⟩, trivial⟩
    exact ⟨hnotice, fun _ => hhonest.2, fun ha => absurd ha hsilent, trivial⟩
  · refine hshort ⟨hdelete, fun _ => hhonest.1, fun _ => ⟨fun h3 => by omega, ?_⟩, trivial⟩
    exact ⟨hnotice, fun _ => hhonest.2, fun ha => absurd ha hsilent, trivial⟩

/-- A packet of type 11 leaves two blocks in the pool, of 144 and of 48 bytes. -/
theorem unknown_type_not_neutral :
    ((Calls.call (zeroPacket 16 11) noServer .done .done).run (fun _ => 0) 3 emptyPool).map
        (fun result => (result.1.length, result.2.size)) = some (0, 192) ∧
      ¬ Neutral Response.Filled (fun _ => 0) 3 (.call (zeroPacket 16 11) noServer .done .done) emptyPool := by
  have hrun : ((Calls.call (zeroPacket 16 11) noServer .done .done).run (fun _ => 0) 3 emptyPool).map
      (fun result => (result.1.length, result.2.size)) = some (0, 192) := by decide
  refine ⟨hrun, ?_⟩
  rintro ⟨responses, pool', hsome, hsize, -⟩
  rw [hsome, Option.map_some, Option.some.injEq, Prod.mk.injEq] at hrun
  have hleft : pool'.size = 192 := hrun.2
  have hbefore : pool'.size = 0 := hsize
  omega

end Tefs.NameServer.Requests
