import Tefs.Message.ProxyWire

/-! # Proxy and servers agree on the wire

Each request of the proxy lays down the footprint that the struct or the decoder of its receiver expects, and each
response of the name server the one the proxy's decoder walks over. Two things stand in the way: a word that is not
initialised, and a struct that lies behind a buffer which does not hold every response.
-/

namespace Tefs.Message
open Wire Proxy
set_option autoImplicit false

/-! ## Bytes and words -/

theorem ofBigEndian_halves {as bs : List (BitVec 8)} (ha : as.length = 4) (hb : bs.length = 4) :
    (ofBigEndian 32 as).setWidth 64 <<< 32 ||| (ofBigEndian 32 bs).setWidth 64 = ofBigEndian 64 (as ++ bs) := by
  apply BitVec.eq_of_getLsbD_eq
  intro k hk
  rw [ofBigEndian_getLsbD (as ++ bs) k (by rw [List.length_append, ha, hb]) hk, BitVec.getLsbD_or,
    BitVec.getLsbD_shiftLeft, BitVec.getLsbD_setWidth, BitVec.getLsbD_setWidth, List.length_append, ha, hb]
  by_cases hlow : k < 32
  · have hidx : (as ++ bs).getD (4 + 4 - 1 - k / 8) 0 = bs.getD (4 - 1 - k / 8) 0 := by
      have hsub : 4 + 4 - 1 - k / 8 - 4 = 4 - 1 - k / 8 := by omega
      rw [List.getD_eq_getElem?_getD, List.getElem?_append_right (by omega), ha, hsub, ← List.getD_eq_getElem?_getD]
    rw [ofBigEndian_getLsbD bs k (by omega) hlow, hidx, hb]
    simp [hk, hlow]
  · have hidx : (as ++ bs).getD (4 + 4 - 1 - k / 8) 0 = as.getD (4 - 1 - (k - 32) / 8) 0 := by
      have hsub : 4 + 4 - 1 - k / 8 = 4 - 1 - (k - 32) / 8 := by omega
      rw [hsub, List.getD_eq_getElem?_getD, List.getElem?_append_left (by omega), ← List.getD_eq_getElem?_getD]
    have hhigh : (ofBigEndian 32 bs).getLsbD k = false := BitVec.getLsbD_of_ge _ k (by omega)
    have hmod : (k - 32) % 8 = k % 8 := by omega
    rw [ofBigEndian_getLsbD as (k - 32) (by omega) (by omega), hidx, ha, hhigh, hmod]
    simp [hk, hlow, show k - 32 < 64 by omega]

theorem littleEndian_ntohl (v : BitVec 32) : littleEndian (ntohl v) 4 = bigEndian v 4 := littleEndian_byteSwap v 4 rfl

/-- Four bytes of the receiving memory, and as a list -/
theorem bytesAt_four (mem : ℤ → BitVec 8) (p : ℕ) :
    [mem p, mem (p + 1 : ℕ), mem (p + 2 : ℕ), mem (p + 3 : ℕ)] = bytesAt mem p 4 := by
  simp [bytesAt, List.range_succ]

theorem rb32_of_holds {mem : ℤ → BitVec 8} {p : ℕ} {v : BitVec 32} (h : Holds mem p (field 4 v)) :
    rb32 (fun i => mem i) p = v := by
  rw [rb32, bytesAt_four, bytesAt_of_holds_field h, ofBigEndian_bigEndian v 4 rfl]

theorem rb64_eq (mem : ℤ → BitVec 8) (p : ℕ) : rb64 (fun i => mem i) p = ofBigEndian 64 (bytesAt mem p 8) := by
  rw [rb64, rb32, rb32, bytesAt_four, bytesAt_four, ofBigEndian_halves (bytesAt_length _ _ _) (bytesAt_length _ _ _)]
  exact congrArg (ofBigEndian 64) (bytesAt_add mem p 4 4).symm

theorem rb64_of_holds {mem : ℤ → BitVec 8} {p : ℕ} {v : BitVec 64} (h : Holds mem p (field 8 v)) :
    rb64 (fun i => mem i) p = v := by
  rw [rb64_eq, bytesAt_of_holds_field h, ofBigEndian_bigEndian v 8 rfl]

theorem hostWord_of_holds {mem : ℤ → BitVec 8} {p : ℕ} {v : BitVec 32}
    (h : Holds mem p ((littleEndian v 4).map some)) : hostWord (fun i => mem i) p = v := by
  have hbytes := bytesAt_of_holds h
  rw [littleEndian_length] at hbytes
  rw [hostWord, bytesAt_four, hbytes, ofLittleEndian_littleEndian v 4 rfl]

theorem littleEndian_swapped64 (v : BitVec 64) : littleEndian (swapped64 v) 8 = bigEndian v 8 := by
  have hmem : swapped64 v = ofBigEndian 64 (bytesAt (lay (fun _ => 0) 0 ((littleEndian v 8).map some)) 0 8) := by
    refine Eq.trans ?_ (rb64_eq (lay (fun _ => 0) 0 ((littleEndian v 8).map some)) 0)
    rw [swapped64]
    congr 1
    funext i
    rw [memoryOf, lay, if_pos (by omega), List.getElem?_map]
    cases hi : (littleEndian v 8)[i]? with
    | none => simp [hi]
    | some b => simp [hi]
  have hbytes := bytesAt_of_holds (holds_lay (fun _ => 0) 0 ((littleEndian v 8).map some))
  rw [littleEndian_length] at hbytes
  rw [hmem, hbytes]
  exact littleEndian_byteSwap v 8 rfl

/-! ## Memory that is written elsewhere -/

theorem poke_before {mem : ℤ → BitVec 8} {pos q : ℤ} {bs : List (BitVec 8)} (h : q < pos) : poke mem pos bs q = mem q :=
  if_neg (by omega)

theorem poke_behind {mem : ℤ → BitVec 8} {pos q : ℤ} {bs : List (BitVec 8)} (h : pos + bs.length ≤ q) :
    poke mem pos bs q = mem q := by
  rw [poke, lay, if_pos (by omega), List.getElem?_eq_none (by rw [List.length_map]; omega)]
  rfl

theorem holds_poke (mem : ℤ → BitVec 8) (pos : ℤ) (bs : List (BitVec 8)) : Holds (poke mem pos bs) pos (bs.map some) :=
  holds_lay mem pos _

/-- What stands in front of the bytes that are written stays. -/
theorem holds_poke_after {mem : ℤ → BitVec 8} {pos pos' : ℤ} {ps : List (Option (BitVec 8))} {bs : List (BitVec 8)}
    (h : Holds mem pos ps) (hle : pos + ps.length ≤ pos') : Holds (poke mem pos' bs) pos ps :=
  h.of_agree fun _ _ hq => poke_before (by omega)

theorem holds_poke_front {mem : ℤ → BitVec 8} {pos pos' : ℤ} {ps : List (Option (BitVec 8))} {bs : List (BitVec 8)}
    (h : Holds mem pos ps) (hle : pos' + bs.length ≤ pos) : Holds (poke mem pos' bs) pos ps :=
  h.of_agree fun _ hq _ => poke_behind (by omega)

theorem holds_replicate_none (mem : ℤ → BitVec 8) (pos : ℤ) (n : ℕ) : Holds mem pos (List.replicate n none) := by
  intro i b hb
  rw [List.getElem?_replicate] at hb
  split at hb
  · cases hb
  · cases hb

theorem holds_of_append {mem : ℤ → BitVec 8} {pos : ℤ} {ps qs : List (Option (BitVec 8))} (hps : Holds mem pos ps)
    (hqs : Holds mem (pos + ps.length) qs) : Holds mem pos (ps ++ qs) := (holds_append mem pos ps qs).2 ⟨hps, hqs⟩

theorem length_flatMap_of_length {α β : Type} {f : α → List β} {n : ℕ} (h : ∀ a, (f a).length = n) (l : List α) :
    (l.flatMap f).length = n * l.length := by
  induction l with
  | nil => rfl
  | cons a l ih => rw [List.flatMap_cons, List.length_append, h, ih, List.length_cons, Nat.mul_add, Nat.mul_one, Nat.add_comm]

/-! ## Packets -/

/-- The packet holds `ps`, and nothing behind it. -/
structure Packet.Built (ps : List (Option (BitVec 8))) (p : Packet) : Prop where
  size : p.size = ps.length
  holds : Holds p.request 0 ps
  clear : ∀ q, p.size ≤ q → p.request q = 0

namespace Packet.Built

variable {ps : List (Option (BitVec 8))} {p : Packet}

theorem nil : Packet.Built [] {} := by
  refine ⟨rfl, fun i b hb => ?_, fun _ _ => rfl⟩
  cases hb

theorem copy (h : p.Built ps) (bs : List (BitVec 8)) : (p.copy bs).Built (ps ++ bs.map some) := by
  refine ⟨?_, holds_of_append (holds_poke_after h.holds ?_) ?_, fun q hq => ?_⟩
  · simp [Packet.copy, h.size]
  · rw [h.size]
    omega
  · show Holds (poke p.request p.size bs) _ _
    rw [h.size, Int.zero_add]
    exact holds_poke p.request _ bs
  · have hbehind : p.size + bs.length ≤ q := hq
    exact (poke_behind hbehind).trans (h.clear q (by omega))

theorem first (bs : List (BitVec 8)) : (Packet.copy bs {}).Built (bs.map some) := nil.copy bs

theorem skip (h : p.Built ps) (n : ℕ) : (p.skip n).Built (ps ++ List.replicate n (some 0)) := by
  refine ⟨?_, holds_of_append h.holds fun i b hb => ?_, fun q hq => ?_⟩
  · simp [Packet.skip, h.size]
  · have hzero : b = 0 := by
      rw [List.getElem?_replicate] at hb
      split at hb
      · cases hb
        rfl
      · cases hb
    rw [hzero]
    exact h.clear _ (by rw [h.size]; omega)
  · have hbehind : p.size + n ≤ q := hq
    exact h.clear q (by omega)

theorem skipAny (h : p.Built ps) (n : ℕ) : (p.skip n).Built (ps ++ List.replicate n none) := by
  have hskip := h.skip n
  refine ⟨?_, holds_of_append h.holds (holds_replicate_none _ _ n), hskip.clear⟩
  simp [Packet.skip, h.size]

/-- A receiver that has the bytes of the packet -/
theorem arrives (h : p.Built ps) {mem : ℤ → BitVec 8} (hmem : ∀ q, 0 ≤ q → q < p.size → mem q = p.request q) :
    Holds mem 0 ps := h.holds.of_agree fun q h0 hq => hmem q h0 (by rw [h.size]; omega)

end Packet.Built

/-! ## Requests to the name server -/

theorem field_zero : field 4 (0 : BitVec 32) = List.replicate 4 (some 0) := by decide

theorem map_nsReqHead (len sid type : BitVec 32) :
    (nsReqHead len sid type).map some = field 4 len ++ (field 4 sid ++ field 4 type) := by
  simp only [nsReqHead, List.map_append, littleEndian_ntohl, field, List.append_assoc]

theorem map_littleEndian_ntohl (v : BitVec 32) : (littleEndian (ntohl v) 4).map some = field 4 v := by
  rw [littleEndian_ntohl, field]

theorem map_littleEndian_swapped64 (v : BitVec 64) : (littleEndian (swapped64 v) 8).map some = field 8 v := by
  rw [littleEndian_swapped64, field]

/-- The head of a request, its skipped `encrypt` with it, and what comes behind -/
theorem head_append (len sid type : BitVec 32) (ps : List (Option (BitVec 8))) :
    field 4 len ++ (field 4 sid ++ (field 4 type ++ (field 4 (0 : BitVec 32) ++ ps))) =
      (⟨len, sid, type, 0⟩ : MessageBase).footprint ++ ps := by
  simp only [MessageBase.footprint, List.append_assoc]

theorem nsUploadRequest_built (sid : BitVec 32) (hash : List (BitVec 8)) (fileSize : BitVec 64)
    (blockNumber blockIndex : BitVec 32) :
    (nsUploadRequest sid hash fileSize blockNumber blockIndex).Built
      ((⟨52, sid, 0x02, 0⟩ : MessageBase).footprint ++ (hash.map some ++ (field 8 fileSize ++ (field 4 blockNumber ++
        (field 4 blockIndex ++ field 4 (0 : BitVec 32)))))) := by
  have h := ((((((Packet.Built.first (nsReqHead 52 sid 0x02)).skip 4).copy hash).copy
    (littleEndian (swapped64 fileSize) 8)).copy (littleEndian (ntohl blockNumber) 4)).copy
    (littleEndian (ntohl blockIndex) 4)).skip 4
  simp only [map_nsReqHead, map_littleEndian_ntohl, map_littleEndian_swapped64, List.append_assoc,
    head_append, ← field_zero] at h
  exact h

theorem nsDownloadRequest_built (sid : BitVec 32) (hash : List (BitVec 8)) (blockIndex : BitVec 32) :
    (nsDownloadRequest sid hash blockIndex).Built
      ((⟨40, sid, 0x03, 0⟩ : MessageBase).footprint ++ (hash.map some ++ (field 4 blockIndex ++
        field 4 (0 : BitVec 32)))) := by
  have h := ((((Packet.Built.first (nsReqHead 40 sid 0x03)).skip 4).copy hash).copy
    (littleEndian (ntohl blockIndex) 4)).skip 4
  simp only [map_nsReqHead, map_littleEndian_ntohl, List.append_assoc, head_append, ← field_zero] at h
  exact h

theorem nsFileRequest_built (type sid : BitVec 32) (hash : List (BitVec 8)) :
    (nsFileRequest type sid hash).Built
      ((⟨36, sid, type, 0⟩ : MessageBase).footprint ++ (hash.map some ++ field 4 (0 : BitVec 32))) := by
  have h := (((Packet.Built.first (nsReqHead 36 sid type)).skip 4).copy hash).skip 4
  simp only [map_nsReqHead, List.append_assoc, head_append, ← field_zero] at h
  exact h

section Parse

variable {mem : ℤ → BitVec 8} {hash : List (BitVec 8)} (hhash : hash.length = 16)

include hhash in
theorem uploadParse_of_holds {m : MessageBase} {fsize : BitVec 64} {bnum bindex separate : BitVec 32}
    (hlength : m.length = 52)
    (h : Holds mem 0 (m.footprint ++ (hash.map some ++ (field 8 fsize ++ (field 4 bnum ++ (field 4 bindex ++
      field 4 separate)))))) :
    ∃ r, uploadParse mem = some r ∧ r.head.Agrees (ntohl r.head.id) m ∧ r.hash = hash ∧ r.fsize = fsize ∧
      r.bnum = bnum ∧ r.bindex = bindex ∧ r.separate = separate := by
  simp only [holds_append, field_length, MessageBase.footprint_length, List.length_map, hhash] at h
  obtain ⟨hbase, htext, hfsize, hbnum, hbindex, hseparate⟩ := h
  have hhead := readHead_of_holds hbase
  have hbytes := bytesAt_of_holds htext
  rw [hhash] at hbytes
  refine ⟨_, if_neg ?_, hhead, hbytes, ntohll_hostInt hfsize, ntohl_hostInt hbnum, ntohl_hostInt hbindex,
    ntohl_hostInt hseparate⟩
  rw [hhead.1, hlength]
  exact fun hne => hne rfl

include hhash in
theorem downloadParse_of_holds {m : MessageBase} {bindex separate : BitVec 32} (hlength : m.length = 40)
    (h : Holds mem 0 (m.footprint ++ (hash.map some ++ (field 4 bindex ++ field 4 separate)))) :
    ∃ r, downloadParse mem = some r ∧ r.head.Agrees (ntohl r.head.id) m ∧ r.hash = hash ∧ r.bindex = bindex := by
  simp only [holds_append, field_length, MessageBase.footprint_length, List.length_map, hhash] at h
  obtain ⟨hbase, htext, hbindex, -⟩ := h
  have hhead := readHead_of_holds hbase
  have hbytes := bytesAt_of_holds htext
  rw [hhash] at hbytes
  refine ⟨_, if_neg ?_, hhead, hbytes, ntohl_hostInt hbindex⟩
  rw [hhead.1, hlength]
  exact fun hne => hne rfl

include hhash in
theorem fileParse_of_holds {m : MessageBase} {separate : BitVec 32} (hlength : m.length = 36)
    (h : Holds mem 0 (m.footprint ++ (hash.map some ++ field 4 separate))) :
    ∃ r, fileParse mem = some r ∧ r.head.Agrees (ntohl r.head.id) m ∧ r.hash = hash ∧ r.separate = separate := by
  simp only [holds_append, MessageBase.footprint_length, List.length_map, hhash] at h
  obtain ⟨hbase, htext, hseparate⟩ := h
  have hhead := readHead_of_holds hbase
  have hbytes := bytesAt_of_holds htext
  rw [hhash] at hbytes
  refine ⟨_, if_neg ?_, hhead, hbytes, ntohl_hostInt hseparate⟩
  rw [hhead.1, hlength]
  exact fun hne => hne rfl

end Parse

/-! ### The hash -/

/-- `text` are the digits of `hash`, two for a byte. -/
def Spells : List (BitVec 8) → List (BitVec 8) → Prop
  | [], [] => True
  | c :: d :: text, byte :: hash =>
    (∃ x y, hexValue c = some x ∧ hexValue d = some y ∧ byte = x * 16 + y) ∧ Spells text hash
  | _, _ => False

/-- The loop when a byte is complete and not yet written -/
theorem hextoiLoop_of_spells {text hash : List (BitVec 8)} (h : Spells text hash) (value : BitVec 8) {len : ℤ}
    (hlen : hash.length < len) (hmax : len ≤ 2 ^ 64) (dst : List (BitVec 8)) :
    (hextoiLoop text 2 value len dst).1 ++ [(hextoiLoop text 2 value len dst).2.1] = dst ++ value :: hash ∧
      (hextoiLoop text 2 value len dst).2.2 = len - hash.length := by
  induction hash generalizing text value len dst with
  | nil =>
    cases text with
    | nil => simp [hextoiLoop]
    | cons c text => cases text <;> exact h.elim
  | cons byte hash ih =>
    match text, h with
    | c :: d :: text, h =>
      obtain ⟨⟨x, y, hx, hy, rfl⟩, hrest⟩ := h
      have hcast : (((x * 16 + y) :: hash).length : ℤ) = hash.length + 1 := by simp
      have hpos : (0 : ℤ) < len := by omega
      have hmod : (len - 1) % 18446744073709551616 = len - 1 := Int.emod_eq_of_lt (by omega) (by omega)
      have hnext := ih hrest (x * 16 + y) (show (hash.length : ℤ) < len - 1 by omega) (by omega) (dst ++ [value])
      have hloop : hextoiLoop (c :: d :: text) 2 value len dst =
          hextoiLoop text 2 (x * 16 + y) (len - 1) (dst ++ [value]) := by
        simp [hextoiLoop, hx, hy, hpos, hmod]
      rw [hloop, hnext.1, hnext.2, hcast]
      refine ⟨?_, by omega⟩
      simp

theorem hextoi_of_spells {text hash : List (BitVec 8)} (h : Spells text hash) (hne : hash ≠ []) {len : ℤ}
    (hlen : hash.length ≤ len) (hmax : len ≤ 2 ^ 64) : hextoi len text = hash := by
  match text, hash, h with
  | [], [], _ => exact absurd rfl hne
  | c :: d :: text, byte :: hash, h =>
    obtain ⟨⟨x, y, hx, hy, rfl⟩, hrest⟩ := h
    have hcast : (((x * 16 + y) :: hash).length : ℤ) = hash.length + 1 := by simp
    have hloop : hextoiLoop (c :: d :: text) 0 0 len [] = hextoiLoop text 2 (x * 16 + y) len [] := by
      simp [hextoiLoop, hx, hy]
    obtain ⟨hbytes, hleft⟩ := hextoiLoop_of_spells hrest (x * 16 + y) (by omega) hmax []
    have hpos : 0 < (hextoiLoop text 2 (x * 16 + y) len []).2.2 := by
      rw [hleft]
      omega
    rw [hextoi, hloop]
    exact (if_pos hpos).trans hbytes

theorem fileHash_of_spells (junk : ℤ → BitVec 8) {text hash : List (BitVec 8)} (h : Spells text hash)
    (hhash : hash.length = 16) : fileHash junk text = hash := by
  have hne : hash ≠ [] := by
    rintro rfl
    cases hhash
  rw [fileHash, hextoi_of_spells h hne (by omega) (by decide)]
  have hbytes := bytesAt_of_holds (holds_poke junk 0 hash)
  rwa [hhash] at hbytes

/-! ## Requests to a data server -/

theorem map_dsReqHead (len sid type encrypt : BitVec 32) :
    (dsReqHead len sid type encrypt).map some =
      (⟨len, sid, type, ntohl encrypt⟩ : MessageBase).footprint := by
  simp only [dsReqHead, List.map_append, map_littleEndian_ntohl, MessageBase.footprint, List.append_assoc, field_ntohl]

/-- The address as a data server keeps it -/
def Ipv4Addr.address (a : Ipv4Addr) : Address := .ofIpWord (ntohl a.ip) (ntohl a.port)

theorem Ipv4Addr.footprint_address (a : Ipv4Addr) :
    a.address.footprint = (littleEndian a.ip 4).map some ++ List.replicate 12 none ++ (littleEndian a.port 4).map some := by
  rw [address, Address.footprint, Address.ipWord_ofIpWord, field_ntohl]
  exact congrArg _ (field_ntohl a.port)

theorem backups_behind {curDs cnt : ℕ} (h : curDs < cnt) (servers : List Ipv4Addr) {ps : List (Option (BitVec 8))}
    {p : Packet} (hp : p.Built ps) :
    (backups curDs cnt servers p).Built (ps ++ (servers.map Ipv4Addr.address).flatMap Address.footprint) := by
  induction servers generalizing cnt ps p with
  | nil =>
    rw [List.map_nil, List.flatMap_nil, List.append_nil]
    exact hp
  | cons server servers ih =>
    rw [backups, if_neg (by omega), List.map_cons, List.flatMap_cons, server.footprint_address]
    have hnext := ih (Nat.lt_succ_of_lt h)
      (((hp.copy (littleEndian server.ip 4)).skipAny 12).copy (littleEndian server.port 4))
    simpa only [List.append_assoc] using hnext

/-- Every entry but the one the request goes to -/
theorem backups_built {curDs cnt : ℕ} (h : cnt ≤ curDs) (servers : List Ipv4Addr) {ps : List (Option (BitVec 8))}
    {p : Packet} (hp : p.Built ps) : (backups curDs cnt servers p).Built
      (ps ++ ((servers.eraseIdx (curDs - cnt)).map Ipv4Addr.address).flatMap Address.footprint) := by
  induction servers generalizing cnt ps p with
  | nil =>
    rw [List.eraseIdx_nil, List.map_nil, List.flatMap_nil, List.append_nil]
    exact hp
  | cons server servers ih =>
    by_cases heq : curDs = cnt
    · rw [backups, if_pos heq, heq, Nat.sub_self, List.eraseIdx_cons_zero]
      exact backups_behind (Nat.lt_succ_self cnt) servers hp
    · have hsub : curDs - cnt = curDs - (cnt + 1) + 1 := by omega
      rw [backups, if_neg heq, hsub, List.eraseIdx_cons_succ, List.map_cons, List.flatMap_cons,
        server.footprint_address]
      have hnext := ih (show cnt + 1 ≤ curDs by omega)
        (((hp.copy (littleEndian server.ip 4)).skipAny 12).copy (littleEndian server.port 4))
      simpa only [List.append_assoc] using hnext

theorem backups_zero (curDs : ℕ) (servers : List Ipv4Addr) {ps : List (Option (BitVec 8))} {p : Packet}
    (hp : p.Built ps) : (backups curDs 0 servers p).Built
      (ps ++ ((servers.eraseIdx curDs).map Ipv4Addr.address).flatMap Address.footprint) :=
  backups_built (Nat.zero_le curDs) servers hp

theorem Packet.Built.decodes {α : Type} {decode : ℤ → Coder α} {ps : List (Option (BitVec 8))} {p : Packet} {m : α}
    (h : p.Built ps) (hread : Reads p.size (decode p.size) ps m) : Decodes decode p.request p.size m := by
  intro buffer hbuffer
  have hroom : (0 : ℤ) + ps.length ≤ p.size := by rw [h.size, Int.zero_add]
  rw [hread ⟨buffer, 0⟩ (Int.le_refl 0) hroom (h.arrives hbuffer)]

theorem backupNumber {n : ℕ} (hn : n ≤ 2) : n = (BitVec.ofNat 32 n).toInt.toNat := by
  match n, hn with
  | 0, _ => rfl
  | 1, _ => rfl
  | 2, _ => rfl

/-- A PUT request as the proxy means it: the block, its bytes and the backups -/
def putMessage (sid : BitVec 32) (fileid : BitVec 64) (blockindex endPos : BitVec 32) (backup : List Address)
    (hle : backup.length ≤ 2) : ClientPut where
  length := 40 + BitVec.ofNat 32 backup.length * 20
  requestId := sid
  type := 0x0101
  encrypt := 0
  fileid := fileid
  chunkid := blockindex
  start := 0
  endPos := endPos - 1
  backupDataservernum := BitVec.ofNat 32 backup.length
  address := backup
  address_length := backupNumber hle

/-- A GET request as the proxy means it -/
def getMessage (sid : BitVec 32) (fileid : BitVec 64) (blockindex endPos : BitVec 32) : ClientGet where
  length := 36
  requestId := sid
  type := 0x0102
  encrypt := 0
  fileid := fileid
  chunkid := blockindex
  start := 0
  endPos := endPos - 1

theorem littleEndian_zero : (littleEndian (0 : BitVec 32) 4).map some = field 4 (0 : BitVec 32) := by decide

theorem dsDownloadRequest_built (sid encrypt : BitVec 32) (fileid : BitVec 64) (blockindex endPos : BitVec 32) :
    (dsDownloadRequest sid encrypt fileid blockindex endPos).Built
      ({ getMessage sid fileid blockindex endPos with encrypt := ntohl encrypt } : ClientGet).fields.flatten := by
  have h := ((((Packet.Built.first (dsReqHead 36 sid 0x0102 encrypt)).copy (littleEndian (swapped64 fileid) 8)).copy
    (littleEndian (ntohl blockindex) 4)).copy (littleEndian (0 : BitVec 32) 4)).copy
    (littleEndian (ntohl (endPos - 1)) 4)
  simp only [map_dsReqHead, map_littleEndian_swapped64, map_littleEndian_ntohl, littleEndian_zero,
    List.append_assoc] at h
  simp only [ClientGet.fields, List.flatten_cons, List.flatten_nil, List.append_nil]
  exact h

/-- The request goes to the first entry that connects. -/
theorem dsUploadRequest_target {sid : BitVec 32} {fileid : BitVec 64} {blockindex endPos : BitVec 32}
    {servers : List Ipv4Addr} {connects : ℕ → Bool} {curDs : ℕ} {p : Packet}
    (h : dsUploadRequest sid fileid blockindex endPos servers connects = some (curDs, p)) :
    curDs < servers.length ∧ connects curDs = true := by
  unfold dsUploadRequest at h
  split at h
  · cases h
  · next cur hfind =>
    obtain ⟨rfl, -⟩ : cur = curDs ∧ _ = p := Prod.mk.inj (Option.some.inj h)
    exact ⟨List.mem_range.mp (List.mem_of_find?_eq_some hfind), List.find?_some hfind⟩

theorem dsUploadRequest_built {sid : BitVec 32} {fileid : BitVec 64} {blockindex endPos : BitVec 32}
    {servers : List Ipv4Addr} {connects : ℕ → Bool} {curDs : ℕ} {p : Packet}
    (h : dsUploadRequest sid fileid blockindex endPos servers connects = some (curDs, p))
    (hle : ((servers.eraseIdx curDs).map Ipv4Addr.address).length ≤ 2) :
    p.Built (putMessage sid fileid blockindex endPos _ hle).fields.flatten := by
  obtain ⟨hlt, -⟩ := dsUploadRequest_target h
  unfold dsUploadRequest at h
  split at h
  · cases h
  · next cur hfind =>
    obtain ⟨rfl, rfl⟩ : cur = curDs ∧ _ = p := Prod.mk.inj (Option.some.inj h)
    have hcount : BitVec.ofNat 32 servers.length - 1 =
        BitVec.ofNat 32 ((servers.eraseIdx cur).map Ipv4Addr.address).length := by
      rw [List.length_map, List.length_eraseIdx_of_lt hlt]
      obtain ⟨n, hn⟩ : ∃ n, servers.length = n + 1 := ⟨servers.length - 1, by omega⟩
      rw [hn, Nat.add_sub_cancel, BitVec.ofNat_add]
      exact BitVec.add_sub_cancel _ _
    have hhead := ((((((Packet.Built.first (dsReqHead (40 + (BitVec.ofNat 32 servers.length - 1) * 20) sid 0x0101 0)).copy
      (littleEndian (swapped64 fileid) 8)).copy (littleEndian (ntohl blockindex) 4)).copy
      (littleEndian (0 : BitVec 32) 4)).copy (littleEndian (ntohl (endPos - 1)) 4)).copy
      (littleEndian (ntohl (BitVec.ofNat 32 servers.length - 1)) 4))
    have hall := backups_zero cur servers hhead
    have hzero : ntohl 0 = 0 := by decide
    simp only [map_dsReqHead, map_littleEndian_swapped64, map_littleEndian_ntohl, littleEndian_zero,
      List.append_assoc, hcount, hzero] at hall
    simp only [ClientPut.fields, putMessage, List.flatten_cons, List.flatten_nil, List.append_nil]
    rw [← hcount] at hall ⊢
    exact hall

/-! ## Responses of the name server -/

/-- Bytes copied from where `ps` is held -/
theorem holds_poke_bytesAt {src : ℤ → BitVec 8} {pos : ℤ} {ps : List (Option (BitVec 8))} (h : Holds src pos ps)
    {n : ℕ} (hn : ps.length = n) (mem : ℤ → BitVec 8) (pos' : ℤ) : Holds (poke mem pos' (bytesAt src pos n)) pos' ps := by
  intro i b hb
  have hi : i < n := by
    obtain ⟨hi, -⟩ := List.getElem?_eq_some_iff.1 hb
    omega
  refine holds_poke mem pos' (bytesAt src pos n) i b ?_
  rw [List.getElem?_map, bytesAt, List.getElem?_map, List.getElem?_range hi, Option.map_some, Option.map_some, h i b hb]

/-- A footprint is continued where it ends. -/
theorem holds_extend {mem : ℤ → BitVec 8} {ps qs : List (Option (BitVec 8))} (h : Holds mem 0 ps) {pos : ℤ}
    (hpos : (ps.length : ℤ) = pos) {bs : List (BitVec 8)} (hqs : Holds (poke mem pos bs) pos qs) :
    Holds (poke mem pos bs) 0 (ps ++ qs) := by
  refine holds_of_append (holds_poke_after h (by omega)) ?_
  rwa [Int.zero_add, hpos]

def rspFootprint (len id msgType rtn : BitVec 32) : List (Option (BitVec 8)) :=
  field 4 len ++ (field 4 (ntohl id) ++ (field 4 (ntohl msgType) ++ (field 4 rtn ++ field 4 (0 : BitVec 32))))

@[simp] theorem rspFootprint_length (len id msgType rtn : BitVec 32) :
    (rspFootprint len id msgType rtn).length = 20 := by
  simp only [rspFootprint, List.length_append, field_length]

/-- A word set in the struct, and the words around it -/
theorem holds_word (mem : ℤ → BitVec 8) (pos : ℤ) (v : BitVec 32) :
    Holds (poke mem pos (littleEndian v 4)) pos (field 4 (ntohl v)) := by
  rw [field_ntohl]
  exact holds_poke mem pos _

theorem word_after {mem : ℤ → BitVec 8} {pos pos' : ℤ} {v : BitVec 32} {bs : List (BitVec 8)}
    (h : Holds mem pos (field 4 v)) (hle : pos + 4 ≤ pos') : Holds (poke mem pos' bs) pos (field 4 v) :=
  holds_poke_after h (by rw [field_length]; exact hle)

theorem word_front {mem : ℤ → BitVec 8} {pos pos' : ℤ} {v w : BitVec 32} (h : Holds mem pos (field 4 v))
    (hle : pos' + 4 ≤ pos) : Holds (poke mem pos' (littleEndian w 4)) pos (field 4 v) :=
  holds_poke_front h (by rw [littleEndian_length]; exact hle)

theorem setRspHead_holds (len id msgType rtn : BitVec 32) (rsh : ℤ → BitVec 8) :
    Holds (setRspHead len id msgType rtn rsh) 0 (rspFootprint len id msgType rtn) := by
  have hzero : ntohl 0 = 0 := by decide
  have hlen (mem : ℤ → BitVec 8) := holds_word mem 0 (ntohl len)
  have hid (mem : ℤ → BitVec 8) := holds_word mem 4 id
  have htype (mem : ℤ → BitVec 8) := holds_word mem 8 msgType
  have hencrypt (mem : ℤ → BitVec 8) := holds_word mem 16 0
  have hrtn (mem : ℤ → BitVec 8) := holds_word mem 12 (ntohl rtn)
  rw [ntohl_ntohl] at hlen hrtn
  rw [hzero] at hencrypt
  simp only [rspFootprint, holds_append, field_length]
  refine ⟨?_, ?_, ?_, hrtn _, ?_⟩
  · exact word_after (word_after (word_after (word_after (hlen _) (by decide)) (by decide)) (by decide)) (by decide)
  · exact word_after (word_after (word_after (hid _) (by decide)) (by decide)) (by decide)
  · exact word_after (word_after (htype _) (by decide)) (by decide)
  · exact word_front (hencrypt _) (by decide)

/-! ### Uploads -/

def DataServer.footprint (d : DataServer) : List (Option (BitVec 8)) :=
  (littleEndian d.sAddr 4).map some ++ (List.replicate 12 none ++ field 4 d.port)

@[simp] theorem DataServer.footprint_length (d : DataServer) : d.footprint.length = 20 := by
  simp [footprint]

/-- The entry of `r->ds_addr` for a data server -/
def DataServer.addr (d : DataServer) : Ipv4Addr := ⟨d.sAddr, ntohl d.port⟩

theorem setDslist_before {i q : ℤ} (servers : List DataServer) (dslist : ℤ → BitVec 8) (h : q < 20 * i) :
    setDslist i servers dslist q = dslist q := by
  induction servers generalizing i dslist with
  | nil => rfl
  | cons server servers ih =>
    rw [setDslist, ih _ (by omega), poke_before (by omega), poke_before h]

theorem setDslist_holds (i : ℤ) (servers : List DataServer) (dslist : ℤ → BitVec 8) :
    Holds (setDslist i servers dslist) (20 * i) (servers.flatMap DataServer.footprint) := by
  induction servers generalizing i dslist with
  | nil =>
    intro k b hb
    cases hb
  | cons server servers ih =>
    rw [setDslist, List.flatMap_cons]
    refine holds_of_append ?_ ?_
    · have haddr := holds_poke dslist (20 * i) (littleEndian server.sAddr 4)
      have hport := holds_word (poke dslist (20 * i) (littleEndian server.sAddr 4)) (20 * i + 16) (ntohl server.port)
      rw [ntohl_ntohl] at hport
      have hentry : Holds (poke (poke dslist (20 * i) (littleEndian server.sAddr 4)) (20 * i + 16)
          (littleEndian (ntohl server.port) 4)) (20 * i) server.footprint := by
        refine holds_of_append (holds_poke_after haddr (by simp)) (holds_of_append (holds_replicate_none _ _ 12) ?_)
        convert hport using 1
        simp
        omega
      refine Holds.of_agree hentry fun q _ hq => ?_
      rw [DataServer.footprint_length] at hq
      exact setDslist_before servers _ (by omega)
    · have hnext := ih (i + 1) (poke (poke dslist (20 * i) (littleEndian server.sAddr 4)) (20 * i + 16)
        (littleEndian (ntohl server.port) 4))
      rwa [show 20 * (i + 1) = 20 * i + (server.footprint.length : ℤ) by
        rw [DataServer.footprint_length]; omega] at hnext

theorem uploadResponse_holds (rsh dslist pdata : ℤ → BitVec 8) (id msgType rtn : BitVec 32) (fid : BitVec 64)
    (servers : List DataServer) :
    Holds (uploadResponse rsh dslist pdata id msgType rtn fid servers) 0
      (rspFootprint (36 + BitVec.ofNat 32 servers.length * 20) id msgType rtn ++ field 8 fid ++
        field 4 (BitVec.ofNat 32 servers.length) ++ servers.flatMap DataServer.footprint ++ field 4 (0 : BitVec 32)) := by
  have hhead := setRspHead_holds (36 + BitVec.ofNat 32 servers.length * 20) id msgType rtn rsh
  have hfid (mem : ℤ → BitVec 8) : Holds (poke mem 20 (littleEndian (ntohll fid) 8)) 20 (field 8 fid) := by
    rw [← field_eq_littleEndian_ntohll]
    exact holds_poke mem 20 _
  have hnum (mem : ℤ → BitVec 8) := holds_word mem 28 (ntohl (BitVec.ofNat 32 servers.length))
  have hlist := setDslist_holds 0 servers dslist
  have hlen := length_flatMap_of_length DataServer.footprint_length servers
  rw [ntohl_ntohl] at hnum
  unfold uploadResponse
  refine holds_extend (holds_extend (holds_extend (holds_extend ?_ ?_ (hfid _)) ?_ (hnum _)) ?_ ?_) ?_ ?_
  · exact holds_poke_bytesAt hhead (rspFootprint_length _ _ _ _) pdata 0
  · simp
  · simp
  · simp
  · exact holds_poke_bytesAt hlist hlen _ 32
  · simp only [List.length_append, rspFootprint_length, field_length, hlen]
    push_cast
    omega
  · exact holds_poke _ _ [0, 0, 0, 0]

theorem readServers_of_holds {mem : ℤ → BitVec 8} {p : ℕ} {servers : List DataServer}
    (h : Holds mem p (servers.flatMap DataServer.footprint)) :
    readServers (fun i => mem i) p servers.length = servers.map DataServer.addr := by
  induction servers generalizing p with
  | nil => rfl
  | cons server servers ih =>
    rw [List.flatMap_cons, holds_append, DataServer.footprint_length] at h
    obtain ⟨hserver, hservers⟩ := h
    rw [DataServer.footprint, holds_append, holds_append, List.length_map, littleEndian_length,
      List.length_replicate] at hserver
    obtain ⟨haddr, -, hport⟩ := hserver
    have hport' : Holds mem (p + 16 : ℕ) ((littleEndian (ntohl server.port) 4).map some) := by
      rw [map_littleEndian_ntohl]
      convert hport using 1
      push_cast
      omega
    rw [List.length_cons, readServers, hostWord_of_holds haddr, hostWord_of_holds hport', ih (by exact_mod_cast hservers)]
    rfl

/-! ### Downloads -/

def blockFootprint (block : BitVec 32 × DataServer) : List (Option (BitVec 8)) :=
  field 4 block.1 ++ (field 4 block.2.port ++ ((littleEndian block.2.sAddr 4).map some ++ List.replicate 12 none))

@[simp] theorem blockFootprint_length (block : BitVec 32 × DataServer) : (blockFootprint block).length = 24 := by
  simp [blockFootprint]

namespace BlockLoop

/-- The entries stand behind the head, which is untouched. -/
structure Inv (pdata : ℤ → BitVec 8) (l : BlockLoop) : Prop where
  front : ∀ q < 32, l.pdata q = pdata q
  blocks : Holds l.pdata 32 (l.blocks.flatMap blockFootprint)
  bound : l.b ≤ 151

theorem Inv.add {pdata : ℤ → BitVec 8} {l : BlockLoop} (h : Inv pdata l) (hb : ¬ 150 < l.b) (row : SqlBlock)
    (net : Option DataServer) : Inv pdata (l.add row net) := by
  have hlen : 32 + ((l.blocks.flatMap blockFootprint).length : ℤ) = entry l.b := by
    rw [length_flatMap_of_length blockFootprint_length, entry, b]
    push_cast
    rfl
  have hentry : 32 ≤ entry l.b := by omega
  have hblocks : Holds (poke l.pdata (entry l.b) (littleEndian (ntohl row.bindex) 4)) 32 _ :=
    holds_poke_after h.blocks (le_of_eq hlen)
  cases net with
  | none =>
    refine ⟨fun q hq => ?_, hblocks, h.bound⟩
    exact (poke_before (by omega)).trans (h.front q hq)
  | some server =>
    refine ⟨fun q hq => ?_, ?_, ?_⟩
    · show poke (poke (poke l.pdata _ _) _ _) _ _ q = pdata q
      have hentry' : 32 ≤ entry (l.blocks.length : ℤ) := hentry
      rw [poke_before (by simp only [b]; omega), poke_before (by simp only [b]; omega), poke_before (by omega)]
      exact h.front q hq
    · show Holds (poke (poke (poke l.pdata (entry l.b) _) (entry l.b + 8) _) (entry l.b + 4) _) 32
        ((l.blocks ++ [(row.bindex, server)]).flatMap blockFootprint)
      rw [List.flatMap_append, List.flatMap_singleton]
      refine holds_of_append (holds_poke_after (holds_poke_after hblocks (by omega)) (by omega)) ?_
      rw [hlen]
      have hindex := holds_word l.pdata (entry l.b) (ntohl row.bindex)
      have hport := holds_word (poke (poke l.pdata (entry l.b) (littleEndian (ntohl row.bindex) 4)) (entry l.b + 8)
        (littleEndian server.sAddr 4)) (entry l.b + 4) (ntohl server.port)
      have haddr := holds_poke (poke l.pdata (entry l.b) (littleEndian (ntohl row.bindex) 4)) (entry l.b + 8)
        (littleEndian server.sAddr 4)
      rw [ntohl_ntohl] at hindex hport
      refine holds_of_append (word_after (word_after hindex (by omega)) (by omega)) (holds_of_append ?_
        (holds_of_append ?_ (holds_replicate_none _ _ 12)))
      · rw [field_length]
        exact hport
      · rw [field_length, field_length, Int.add_assoc]
        exact holds_poke_front haddr (by rw [littleEndian_length]; omega)
    · show (l.blocks ++ [(row.bindex, server)]).length ≤ 151
      have hbound : ¬ 150 < l.blocks.length := hb
      rw [List.length_append, List.length_singleton]
      omega

theorem Inv.turn {pdata : ℤ → BitVec 8} {l : BlockLoop} (h : Inv pdata l) (copies : ℕ)
    (net : BitVec 32 → Option DataServer) (row : SqlBlock) : Inv pdata (l.turn copies net row) := by
  unfold BlockLoop.turn
  split
  · exact h
  · split
    · exact h
    · have hreset : Inv pdata (if copies ≤ l.dsnum then { l with dsnum := 0 } else l) := by
        split
        · exact ⟨h.front, h.blocks, h.bound⟩
        · exact h
      dsimp only
      generalize (if copies ≤ l.dsnum then { l with dsnum := 0 } else l) = l' at hreset ⊢
      split
      · exact ⟨hreset.front, hreset.blocks, hreset.bound⟩
      · next hb => exact hreset.add hb row _

theorem inv_run (copies : ℕ) (net : BitVec 32 → Option DataServer) (rows : List SqlBlock) (pdata : ℤ → BitVec 8) :
    Inv pdata (run copies net rows pdata) := by
  have hloop (l : BlockLoop) (h : Inv pdata l) : Inv pdata (rows.foldl (turn copies net) l) := by
    induction rows generalizing l with
    | nil => exact h
    | cons row rows ih => exact ih _ (h.turn copies net row)
  refine hloop _ ⟨fun _ _ => rfl, fun i b hb => ?_, Nat.zero_le _⟩
  cases hb

end BlockLoop

/-- Where the parts of a download response stand -/
structure Downloaded (mem : ℤ → BitVec 8) (id msgType rtn : BitVec 32) (fid : BitVec 64)
    (blocks : List (BitVec 32 × DataServer)) : Prop where
  len : Holds mem 0 (field 4 (36 + BitVec.ofNat 32 blocks.length * 24))
  id : Holds mem 4 (field 4 (ntohl id))
  msgType : Holds mem 8 (field 4 (ntohl msgType))
  rtn : Holds mem 12 (field 4 rtn)
  encrypt : Holds mem 16 (field 4 (0 : BitVec 32))
  fid : Holds mem 20 (field 8 fid)
  bnum : Holds mem 28 (field 4 (BitVec.ofNat 32 blocks.length))
  blocks : Holds mem 32 (blocks.flatMap blockFootprint)

theorem Downloaded.of_agree {mem sent : ℤ → BitVec 8} {id msgType rtn : BitVec 32} {fid : BitVec 64}
    {blocks : List (BitVec 32 × DataServer)} (h : Downloaded sent id msgType rtn fid blocks)
    (hmem : ∀ q : ℤ, 0 ≤ q → q < (36 + 24 * blocks.length : ℕ) → mem q = sent q) :
    Downloaded mem id msgType rtn fid blocks := by
  have hlen := length_flatMap_of_length blockFootprint_length blocks
  have hpart {pos : ℤ} {ps : List (Option (BitVec 8))} (hps : Holds sent pos ps) (h0 : 0 ≤ pos)
      (hend : pos + ps.length ≤ 32 + 24 * blocks.length) : Holds mem pos ps :=
    Holds.of_agree hps fun q hq hq' => hmem q (by omega) (by push_cast; omega)
  have hword {pos : ℤ} {v : BitVec 32} (hv : Holds sent pos (field 4 v)) (h0 : 0 ≤ pos) (hend : pos + 4 ≤ 32) :
      Holds mem pos (field 4 v) := hpart hv h0 (by rw [field_length]; omega)
  refine ⟨hword h.len (by decide) (by decide), hword h.id (by decide) (by decide), hword h.msgType (by decide) (by decide),
    hword h.rtn (by decide) (by decide), hword h.encrypt (by decide) (by decide),
    hpart h.fid (by decide) (by rw [field_length]; omega), hword h.bnum (by decide) (by decide),
    hpart h.blocks (by decide) ?_⟩
  rw [hlen]
  push_cast
  omega

theorem downloadResponse_holds (rsh pdata : ℤ → BitVec 8) (id msgType rtn : BitVec 32) (fid : BitVec 64) (copies : ℕ)
    (net : BitVec 32 → Option DataServer) (rows : List SqlBlock) :
    Downloaded (downloadResponse rsh pdata id msgType rtn fid copies net rows).2 id msgType rtn fid
      (downloadResponse rsh pdata id msgType rtn fid copies net rows).1.blocks := by
  have hhead := holds_poke_bytesAt (setRspHead_holds 36 id msgType rtn rsh) (rspFootprint_length _ _ _ _) pdata 0
  simp only [rspFootprint, holds_append, field_length] at hhead
  obtain ⟨-, hid, htype, hrtn, hencrypt⟩ := hhead
  generalize hfront : poke pdata 0 (bytesAt (setRspHead 36 id msgType rtn rsh) 0 20) = front at hid htype hrtn hencrypt
  have hfid : Holds (poke front 20 (littleEndian (ntohll fid) 8)) 20 (field 8 fid) := by
    rw [← field_eq_littleEndian_ntohll]
    exact holds_poke front 20 _
  have hinv := BlockLoop.inv_run copies net rows (poke front 20 (littleEndian (ntohll fid) 8))
  unfold downloadResponse
  dsimp only
  rw [hfront]
  generalize hrun : BlockLoop.run copies net rows (poke front 20 (littleEndian (ntohll fid) 8)) = l at hinv
  have hlen := length_flatMap_of_length blockFootprint_length l.blocks
  -- what stands in front of the entries is left alone by the loop and the last writes
  have hkeep {pos : ℤ} {ps : List (Option (BitVec 8))} (h : Holds (poke front 20 (littleEndian (ntohll fid) 8)) pos ps)
      (hlow : 4 ≤ pos) (hhigh : pos + ps.length ≤ 28) :
      Holds (poke (poke (poke l.pdata 28 (littleEndian (ntohl (BitVec.ofNat 32 l.b)) 4)) (32 + 24 * l.b) [0, 0, 0, 0]) 0
        (littleEndian (ntohl (36 + BitVec.ofNat 32 l.b * 24)) 4)) pos ps := by
    refine holds_poke_front (holds_poke_after (holds_poke_after ?_ hhigh) (by omega)) ?_
    · exact Holds.of_agree h fun q _ hq => hinv.front q (by omega)
    · rw [littleEndian_length]
      omega
  refine ⟨?_, ?_, ?_, ?_, ?_, ?_, ?_, ?_⟩
  · have hword (mem : ℤ → BitVec 8) := holds_word mem 0 (ntohl (36 + BitVec.ofNat 32 l.b * 24))
    rw [ntohl_ntohl] at hword
    exact hword _
  · exact hkeep (word_after hid (by decide)) (by decide) (by rw [field_length]; decide)
  · exact hkeep (word_after htype (by decide)) (by decide) (by rw [field_length]; decide)
  · exact hkeep (word_after hrtn (by decide)) (by decide) (by rw [field_length]; decide)
  · exact hkeep (word_after hencrypt (by decide)) (by decide) (by rw [field_length]; decide)
  · exact hkeep hfid (by decide) (by rw [field_length]; decide)
  · have hword (mem : ℤ → BitVec 8) := holds_word mem 28 (ntohl (BitVec.ofNat 32 l.b))
    rw [ntohl_ntohl] at hword
    exact word_front (word_after (hword _) (by omega)) (by decide)
  · refine holds_poke_front (holds_poke_after (holds_poke_front hinv.blocks ?_) ?_) ?_
    · rw [littleEndian_length]
      decide
    · rw [hlen, BlockLoop.b]
      push_cast
      omega
    · rw [littleEndian_length]
      decide

/-- The entry of `r->block_index` and of `r->ds_addr` for a block -/
def blockAddr (block : BitVec 32 × DataServer) : BitVec 32 × Ipv4Addr := (block.1, block.2.addr)

theorem blockEntry_of_holds {mem : ℤ → BitVec 8} {p : ℕ} {block : BitVec 32 × DataServer}
    (h : Holds mem p (blockFootprint block)) : blockEntry (fun i => mem i) p = blockAddr block := by
  rw [blockFootprint, holds_append, holds_append, holds_append, field_length, field_length] at h
  obtain ⟨hindex, hport, haddr, -⟩ := h
  have hport' : Holds mem (p + 4 : ℕ) ((littleEndian (ntohl block.2.port) 4).map some) := by
    rw [map_littleEndian_ntohl]
    exact_mod_cast hport
  have haddr' : Holds mem (p + 8 : ℕ) ((littleEndian block.2.sAddr 4).map some) := by
    rw [Int.add_assoc] at haddr
    exact_mod_cast haddr
  rw [blockEntry, rb32_of_holds hindex, hostWord_of_holds hport', hostWord_of_holds haddr']
  rfl

/-- The entries that arrive -/
theorem holds_blocks_get {mem : ℤ → BitVec 8} {p : ℕ} {blocks : List (BitVec 32 × DataServer)}
    (h : Holds mem p (blocks.flatMap blockFootprint)) {j : ℕ} {block : BitVec 32 × DataServer}
    (hj : blocks[j]? = some block) : Holds mem (p + 24 * j : ℕ) (blockFootprint block) := by
  induction blocks generalizing p j with
  | nil => cases hj
  | cons first blocks ih =>
    rw [List.flatMap_cons, holds_append, blockFootprint_length] at h
    cases j with
    | zero =>
      cases hj
      simpa using h.1
    | succ j =>
      have hplace : p + 24 * (j + 1) = p + 24 + 24 * j := by omega
      rw [hplace]
      exact ih (by exact_mod_cast h.2) (by simpa using hj)

theorem readBlocks_getElem? (mem : ℕ → BitVec 8) (p n j : ℕ) :
    (readBlocks mem p n)[j]? = if j < n then some (blockEntry mem (p + 24 * j)) else none := by
  induction n generalizing p j with
  | zero => rfl
  | succ n ih =>
    cases j with
    | zero => rfl
    | succ j =>
      have hplace : p + 24 * (j + 1) = p + 24 + 24 * j := by omega
      rw [readBlocks, List.getElem?_cons_succ, ih, hplace]
      simp only [Nat.add_lt_add_iff_right]

/-! ### The struct behind the buffer -/

theorem storeBytes_before {mem : ℕ → BitVec 8} {p i : ℕ} {bs : List (BitVec 8)} (h : i < p) : storeBytes mem p bs i = mem i :=
  if_neg (by omega)

theorem storeBytes_behind {mem : ℕ → BitVec 8} {p i : ℕ} {bs : List (BitVec 8)} (h : p + bs.length ≤ i) :
    storeBytes mem p bs i = mem i := by
  rw [storeBytes, if_pos (by omega), List.getElem?_eq_none (by omega)]
  rfl

theorem rspdPlace_encrypt : rspdPlace .encrypt = 3088 := by decide

theorem rspdPlace_fileId : rspdPlace .fileId = 3096 := by decide

theorem rspdPlace_blockNumber : rspdPlace .blockNumber = 3104 := by decide

/-- The three members stand in the address of entry 127, behind it, and in the index of entry 128. -/
theorem storeRspd_eq {mem : ℕ → BitVec 8} {i : ℕ} (hencrypt : ¬ (3088 ≤ i ∧ i < 3092)) (hfile : ¬ (3096 ≤ i ∧ i < 3104))
    (hnumber : ¬ (3104 ≤ i ∧ i < 3108)) : storeRspd mem i = mem i := by
  have hkeep {mem' : ℕ → BitVec 8} {p : ℕ} {bs : List (BitVec 8)} (hout : ¬ (p ≤ i ∧ i < p + bs.length)) :
      storeBytes mem' p bs i = mem' i := by
    by_cases hp : p ≤ i
    · exact storeBytes_behind (by omega)
    · exact storeBytes_before (by omega)
  unfold storeRspd
  rw [rspdPlace_encrypt, rspdPlace_fileId, rspdPlace_blockNumber]
  rw [hkeep (by rwa [littleEndian_length]), hkeep (by rwa [littleEndian_length]), hkeep (by rwa [littleEndian_length])]

theorem rb32_congr {mem mem' : ℕ → BitVec 8} {p : ℕ} (h : ∀ i, p ≤ i → i < p + 4 → mem i = mem' i) :
    rb32 mem p = rb32 mem' p := by
  rw [rb32, rb32, h p (by omega) (by omega), h (p + 1) (by omega) (by omega), h (p + 2) (by omega) (by omega),
    h (p + 3) (by omega) (by omega)]

theorem hostWord_congr {mem mem' : ℕ → BitVec 8} {p : ℕ} (h : ∀ i, p ≤ i → i < p + 4 → mem i = mem' i) :
    hostWord mem p = hostWord mem' p := by
  rw [hostWord, hostWord, h p (by omega) (by omega), h (p + 1) (by omega) (by omega), h (p + 2) (by omega) (by omega),
    h (p + 3) (by omega) (by omega)]

/-- The four bytes of a word that was stored -/
theorem storeBytes_word (mem : ℕ → BitVec 8) (p : ℕ) (v : BitVec 32) :
    [storeBytes mem p (littleEndian v 4) p, storeBytes mem p (littleEndian v 4) (p + 1),
      storeBytes mem p (littleEndian v 4) (p + 2), storeBytes mem p (littleEndian v 4) (p + 3)] = littleEndian v 4 := by
  obtain ⟨b₀, b₁, b₂, b₃, hbytes⟩ : ∃ b₀ b₁ b₂ b₃, littleEndian v 4 = [b₀, b₁, b₂, b₃] := ⟨_, _, _, _, rfl⟩
  rw [hbytes]
  simp [storeBytes]

/-- The entry of `r->block_index` and of `r->ds_addr` for block `j` of `n`: the address of entry 127 and the index of
entry 128 are what has been stored over them. -/
def decodedBlock (n : BitVec 32) (j : ℕ) (block : BitVec 32 × DataServer) : BitVec 32 × Ipv4Addr :=
  if j = 127 then (block.1, { block.2.addr with ip := 0 })
  else if j = 128 then (ntohl n, block.2.addr)
  else blockAddr block

theorem storeRspd_encrypt (mem : ℕ → BitVec 8) : hostWord (storeRspd mem) 3088 = rb32 mem 16 := by
  have hkeep : hostWord (storeRspd mem) 3088 =
      hostWord (storeBytes mem (rspdPlace .encrypt) (littleEndian (rb32 mem 16) 4)) 3088 := by
    refine hostWord_congr fun i hi hi' => ?_
    unfold storeRspd
    rw [rspdPlace_fileId, rspdPlace_blockNumber, storeBytes_before (by omega), storeBytes_before (by omega)]
  rw [hkeep, rspdPlace_encrypt, hostWord, storeBytes_word, ofLittleEndian_littleEndian _ 4 rfl]

theorem storeRspd_blockNumber (mem : ℕ → BitVec 8) : rb32 (storeRspd mem) 3104 = ntohl (rb32 mem 28) := by
  have hnumber : rb32 (storeBytes (storeBytes mem (rspdPlace .encrypt) (littleEndian (rb32 mem 16) 4))
      (rspdPlace .fileId) (littleEndian (rb64 (storeBytes mem (rspdPlace .encrypt) (littleEndian (rb32 mem 16) 4)) 20)
        8)) 28 = rb32 mem 28 := by
    refine rb32_congr fun i hi hi' => ?_
    rw [rspdPlace_encrypt, rspdPlace_fileId, storeBytes_before (by omega), storeBytes_before (by omega)]
  unfold storeRspd
  dsimp only
  rw [hnumber, rspdPlace_blockNumber, rb32, storeBytes_word]
  rfl

theorem blockEntry_storeRspd {mem : ℤ → BitVec 8} {j : ℕ} {block : BitVec 32 × DataServer}
    (hencrypt : rb32 (fun i => mem i) 16 = 0) (h : Holds mem (32 + 24 * j : ℕ) (blockFootprint block)) :
    blockEntry (storeRspd fun i => mem i) (32 + 24 * j) = decodedBlock (rb32 (fun i => mem i) 28) j block := by
  have hentry := blockEntry_of_holds h
  rw [blockEntry] at hentry ⊢
  -- an index, a port or an address that lies beside the three members
  have hindex (hj : j ≠ 128) : rb32 (storeRspd fun i => mem i) (32 + 24 * j) = rb32 (fun i => mem i) (32 + 24 * j) :=
    rb32_congr fun i hi hi' => storeRspd_eq (by omega) (by omega) (by omega)
  have hport : hostWord (storeRspd fun i => mem i) (32 + 24 * j + 4) = hostWord (fun i => mem i) (32 + 24 * j + 4) :=
    hostWord_congr fun i hi hi' => storeRspd_eq (by omega) (by omega) (by omega)
  have haddr (hj : j ≠ 127) :
      hostWord (storeRspd fun i => mem i) (32 + 24 * j + 8) = hostWord (fun i => mem i) (32 + 24 * j + 8) :=
    hostWord_congr fun i hi hi' => storeRspd_eq (by omega) (by omega) (by omega)
  simp only [blockAddr, Prod.mk.injEq] at hentry
  obtain ⟨hblock, hserver⟩ := hentry
  rw [hport, decodedBlock]
  split
  next hj =>
    subst hj
    rw [hindex (by decide), hblock]
    have hzero : hostWord (storeRspd fun i => mem i) (32 + 24 * 127 + 8) = 0 :=
      (storeRspd_encrypt _).trans hencrypt
    rw [hzero, ← hserver]
  next hj =>
    rw [haddr hj, hserver]
    split
    next hj' =>
      subst hj'
      exact congrArg (·, block.2.addr) (storeRspd_blockNumber _)
    next hj' =>
      rw [hindex hj', hblock]
      rfl

theorem readBlocks_storeRspd {mem : ℤ → BitVec 8} {blocks : List (BitVec 32 × DataServer)}
    (hencrypt : rb32 (fun i => mem i) 16 = 0) (h : Holds mem 32 (blocks.flatMap blockFootprint)) :
    readBlocks (storeRspd fun i => mem i) 32 blocks.length =
      blocks.mapIdx (decodedBlock (rb32 (fun i => mem i) 28)) := by
  apply List.ext_getElem?
  intro j
  rw [readBlocks_getElem?, List.getElem?_mapIdx]
  split
  next hj =>
    rw [List.getElem?_eq_getElem hj, Option.map_some]
    exact congrArg some (blockEntry_storeRspd hencrypt (holds_blocks_get (p := 32) h (List.getElem?_eq_getElem hj)))
  next hj => rw [List.getElem?_eq_none (by omega), Option.map_none]

/-- The list is recovered exactly when what was stored over entries 127 and 128 is what stood there. -/
theorem mapIdx_decodedBlock_iff (n : BitVec 32) (blocks : List (BitVec 32 × DataServer)) :
    blocks.mapIdx (decodedBlock n) = blocks.map blockAddr ↔
      (∀ block ∈ blocks[127]?, block.2.sAddr = 0) ∧ ∀ block ∈ blocks[128]?, block.1 = ntohl n := by
  constructor
  · intro h
    have hget (j : ℕ) (block : BitVec 32 × DataServer) (hj : blocks[j]? = some block) :
        decodedBlock n j block = blockAddr block := by
      have heq := congrArg (·[j]?) h
      simpa [hj] using heq
    refine ⟨fun block hblock => ?_, fun block hblock => ?_⟩
    · have haddr := congrArg (fun b => b.2.ip) (hget 127 block hblock)
      exact haddr.symm
    · have hindex := congrArg Prod.fst (hget 128 block hblock)
      exact hindex.symm
  · rintro ⟨hserver, hindex⟩
    apply List.ext_getElem?
    intro j
    rw [List.getElem?_mapIdx, List.getElem?_map]
    cases hj : blocks[j]? with
    | none => rfl
    | some block =>
      rw [Option.map_some, Option.map_some, decodedBlock]
      congr 1
      split
      next hj' =>
        subst hj'
        rw [blockAddr, DataServer.addr, hserver block hj]
      next =>
        split
        next hj' =>
          subst hj'
          rw [blockAddr, hindex block hj]
        next => rfl

/-! ## The agreement -/

/-- A request arrives: its length is the number of its bytes, and whoever has them finds `R`. -/
def Packet.Delivers (p : Packet) (len : BitVec 32) (R : (ℤ → BitVec 8) → Prop) : Prop :=
  p.size = len.toNat ∧ ∀ mem : ℤ → BitVec 8, (∀ q, 0 ≤ q → q < p.size → mem q = p.request q) → R mem

/-- A response of `len` bytes stays in the block of the pool that has the buffer of the proxy, and whoever has them
finds `R`. -/
def ResponseDelivers (sent : ℤ → BitVec 8) (len : ℕ) (R : (ℤ → BitVec 8) → Prop) : Prop :=
  len ≤ nsPoolRoom ∧ ∀ mem : ℤ → BitVec 8, (∀ q : ℤ, 0 ≤ q → q < len → mem q = sent q) → R mem

/-- The file hash of a request: sixteen bytes, and how the client spelled them -/
structure HashText where
  hash : List (BitVec 8)
  text : List (BitVec 8)
  length : hash.length = 16
  spells : Spells text hash

/-- All that the proxy exchanges with a server. In `get` `encrypt` is what `req_head` holds before; in
`downloadResponse` `rsh` and `pdata` are the memory of the name server before. -/
inductive WireMessage
  | upload (sid : BitVec 32) (hash : HashText) (fileSize : BitVec 64) (blockNumber blockIndex : BitVec 32)
  | download (sid : BitVec 32) (hash : HashText) (blockIndex : BitVec 32)
  | query (sid : BitVec 32) (hash : HashText)
  | delete (sid : BitVec 32) (hash : HashText)
  | put (sid : BitVec 32) (fileid : BitVec 64) (blockindex endPos : BitVec 32) (servers : List Ipv4Addr)
      (pos : 1 ≤ servers.length) (le : servers.length ≤ 3)
  | get (sid encrypt : BitVec 32) (fileid : BitVec 64) (blockindex endPos : BitVec 32)
  | uploadResponse (id msgType rtn : BitVec 32) (fid : BitVec 64) (servers : List DataServer) (le : servers.length ≤ 3)
  | downloadResponse (rsh pdata : ℤ → BitVec 8) (id msgType rtn : BitVec 32) (fid : BitVec 64) (copies : ℕ)
      (net : BitVec 32 → Option DataServer) (rows : List SqlBlock)

namespace WireMessage

/-- The receiver reads every field as the sender meant it. -/
def Agrees : WireMessage → Prop
  | .upload sid hash fileSize blockNumber blockIndex => ∀ junk,
    (nsUploadRequest sid (fileHash junk hash.text) fileSize blockNumber blockIndex).Delivers 52 fun mem =>
      ∃ r, uploadParse mem = some r ∧ r.head.Agrees (ntohl r.head.id) ⟨52, sid, 0x02, 0⟩ ∧ r.hash = hash.hash ∧
        r.fsize = fileSize ∧ r.bnum = blockNumber ∧ r.bindex = blockIndex ∧ r.separate = 0
  | .download sid hash blockIndex => ∀ junk,
    (nsDownloadRequest sid (fileHash junk hash.text) blockIndex).Delivers 40 fun mem =>
      ∃ r, downloadParse mem = some r ∧ r.head.Agrees (ntohl r.head.id) ⟨40, sid, 0x03, 0⟩ ∧ r.hash = hash.hash ∧
        r.bindex = blockIndex
  | .query sid hash => ∀ junk,
    (nsQueryRequest sid (fileHash junk hash.text)).Delivers 36 fun mem =>
      ∃ r, getfsizeParse mem = some r ∧ r.head.Agrees (ntohl r.head.id) ⟨36, sid, 0x0a, 0⟩ ∧ r.hash = hash.hash ∧
        r.separate = 0
  | .delete sid hash => ∀ junk,
    (nsDeleteRequest sid (fileHash junk hash.text)).Delivers 36 fun mem =>
      ∃ r, deleteFileParse mem = some r ∧ r.head.Agrees (ntohl r.head.id) ⟨36, sid, 0x04, 0⟩ ∧ r.hash = hash.hash ∧
        r.separate = 0
  | .put sid fileid blockindex endPos servers _ _ => ∀ connects curDs p,
    dsUploadRequest sid fileid blockindex endPos servers connects = some (curDs, p) →
      curDs < servers.length ∧ connects curDs = true ∧
        ∃ hle, p.size =
            (putMessage sid fileid blockindex endPos ((servers.eraseIdx curDs).map Ipv4Addr.address) hle).length.toNat ∧
          Decodes ClientPut.deserialize p.request p.size
            (putMessage sid fileid blockindex endPos ((servers.eraseIdx curDs).map Ipv4Addr.address) hle)
  | .get sid encrypt fileid blockindex endPos =>
    (dsDownloadRequest sid encrypt fileid blockindex endPos).size = (getMessage sid fileid blockindex endPos).length.toNat ∧
      Decodes ClientGet.deserialize (dsDownloadRequest sid encrypt fileid blockindex endPos).request
        (dsDownloadRequest sid encrypt fileid blockindex endPos).size (getMessage sid fileid blockindex endPos)
  | .uploadResponse id msgType rtn fid servers _ => ∀ rsh dslist pdata,
    ResponseDelivers (Message.uploadResponse rsh dslist pdata id msgType rtn fid servers) (36 + 20 * servers.length) fun mem =>
      (∀ h, Peer.ns.parseHead (fun i => mem i) h = { h with
        len := BitVec.ofNat 32 (36 + 20 * servers.length), id := ntohl id, type := ntohl msgType, rtn := rtn }) ∧
      fileUploadProcess (fun i => mem i) = (fid, servers.map DataServer.addr)
  | .downloadResponse rsh pdata id msgType rtn fid copies net rows =>
    let (l, sent) := Message.downloadResponse rsh pdata id msgType rtn fid copies net rows
    ResponseDelivers sent (36 + 24 * l.b) fun mem =>
      (∀ h, Peer.ns.parseHead (fun i => mem i) h = { h with
        len := BitVec.ofNat 32 (36 + 24 * l.b), id := ntohl id, type := ntohl msgType, rtn := rtn }) ∧
      fileDownloadProcess (fun i => mem i) = (fid, l.blocks.map blockAddr)

/-- The word that a GET request does not set is 0. Entry 127 of a download response, if there is one, has the address 0,
and entry 128 for its index the number of entries with its bytes swapped: the decoder has stored that there. -/
def Safe : WireMessage → Prop
  | .get _ encrypt _ _ _ => encrypt = 0
  | .downloadResponse rsh pdata id msgType rtn fid copies net rows =>
    let blocks := (Message.downloadResponse rsh pdata id msgType rtn fid copies net rows).1.blocks
    (∀ block ∈ blocks[127]?, block.2.sAddr = 0) ∧
      ∀ block ∈ blocks[128]?, block.1 = ntohl (BitVec.ofNat 32 blocks.length)
  | _ => True

end WireMessage

theorem Packet.Built.delivers {ps : List (Option (BitVec 8))} {p : Packet} (h : p.Built ps) {len : BitVec 32}
    (hlen : ps.length = len.toNat) {R : (ℤ → BitVec 8) → Prop} (hR : ∀ mem, Holds mem 0 ps → R mem) :
    p.Delivers len R := by
  refine ⟨?_, fun mem hmem => hR mem (h.arrives hmem)⟩
  rw [h.size, hlen]

theorem Packet.Delivers.mono {p : Packet} {len : BitVec 32} {R R' : (ℤ → BitVec 8) → Prop} (h : p.Delivers len R)
    (hR : ∀ mem, R mem → R' mem) : p.Delivers len R' :=
  ⟨h.1, fun mem hmem => hR mem (h.2 mem hmem)⟩

theorem upload_agrees (sid : BitVec 32) (hash : HashText) (fileSize : BitVec 64) (blockNumber blockIndex : BitVec 32) :
    (WireMessage.upload sid hash fileSize blockNumber blockIndex).Agrees := by
  intro junk
  rw [fileHash_of_spells junk hash.spells hash.length]
  refine (nsUploadRequest_built sid hash.hash fileSize blockNumber blockIndex).delivers ?_ fun mem hmem =>
    uploadParse_of_holds hash.length rfl hmem
  simp [hash.length]

theorem download_agrees (sid : BitVec 32) (hash : HashText) (blockIndex : BitVec 32) :
    (WireMessage.download sid hash blockIndex).Agrees := by
  intro junk
  rw [fileHash_of_spells junk hash.spells hash.length]
  refine (nsDownloadRequest_built sid hash.hash blockIndex).delivers ?_ fun mem hmem =>
    downloadParse_of_holds hash.length rfl hmem
  simp [hash.length]

theorem file_delivers (type sid : BitVec 32) (hash : HashText) (junk : ℤ → BitVec 8) :
    (nsFileRequest type sid (fileHash junk hash.text)).Delivers 36 fun mem =>
      ∃ r, fileParse mem = some r ∧ r.head.Agrees (ntohl r.head.id) ⟨36, sid, type, 0⟩ ∧ r.hash = hash.hash ∧
        r.separate = 0 := by
  rw [fileHash_of_spells junk hash.spells hash.length]
  refine (nsFileRequest_built type sid hash.hash).delivers ?_ fun mem hmem =>
    fileParse_of_holds hash.length rfl hmem
  simp [hash.length]

theorem putLength {n : ℕ} (hn : n ≤ 2) : (40 + BitVec.ofNat 32 n * 20).toNat = 40 + 20 * n := by
  match n, hn with
  | 0, _ => rfl
  | 1, _ => rfl
  | 2, _ => rfl

theorem put_agrees (sid : BitVec 32) (fileid : BitVec 64) (blockindex endPos : BitVec 32) (servers : List Ipv4Addr)
    (pos : 1 ≤ servers.length) (le : servers.length ≤ 3) :
    (WireMessage.put sid fileid blockindex endPos servers pos le).Agrees := by
  intro connects curDs p hp
  obtain ⟨hlt, hconnects⟩ := dsUploadRequest_target hp
  have hle : ((servers.eraseIdx curDs).map Ipv4Addr.address).length ≤ 2 := by
    rw [List.length_map, List.length_eraseIdx_of_lt hlt]
    omega
  have hbuilt := dsUploadRequest_built hp hle
  have hsize : p.size = 40 + 20 * ((servers.eraseIdx curDs).map Ipv4Addr.address).length := by
    have haddresses := length_flatMap_of_length Address.footprint_length ((servers.eraseIdx curDs).map Ipv4Addr.address)
    rw [hbuilt.size]
    simp only [ClientPut.fields, putMessage, List.flatten_cons, List.flatten_nil, List.length_append,
      List.length_nil, MessageBase.footprint_length, field_length, haddresses]
    push_cast
    omega
  refine ⟨hlt, hconnects, hle, ?_, hbuilt.decodes (ClientPut.deserialize_reads _ (by omega))⟩
  rw [hsize, putMessage, putLength hle]
  push_cast
  rfl

theorem getMessage_decodes (sid encrypt : BitVec 32) (fileid : BitVec 64) (blockindex endPos : BitVec 32) :
    (dsDownloadRequest sid encrypt fileid blockindex endPos).size = 36 ∧
      Decodes ClientGet.deserialize (dsDownloadRequest sid encrypt fileid blockindex endPos).request
        (dsDownloadRequest sid encrypt fileid blockindex endPos).size
        { getMessage sid fileid blockindex endPos with encrypt := ntohl encrypt } := by
  have hbuilt := dsDownloadRequest_built sid encrypt fileid blockindex endPos
  have hsize : (dsDownloadRequest sid encrypt fileid blockindex endPos).size = 36 := by
    rw [hbuilt.size]
    simp [ClientGet.fields]
  exact ⟨hsize, hbuilt.decodes (ClientGet.deserialize_reads _ (by omega))⟩

theorem get_agrees_iff (sid encrypt : BitVec 32) (fileid : BitVec 64) (blockindex endPos : BitVec 32) :
    (WireMessage.get sid encrypt fileid blockindex endPos).Agrees ↔ encrypt = 0 := by
  have hzero : ntohl 0 = 0 := by decide
  obtain ⟨hsize, hdecodes⟩ := getMessage_decodes sid encrypt fileid blockindex endPos
  constructor
  · rintro ⟨-, hmeant⟩
    have hsame := (hdecodes _ fun _ _ _ => rfl).symm.trans (hmeant _ fun _ _ _ => rfl)
    have hword : ntohl encrypt = 0 := congrArg (fun m : ClientGet => m.encrypt) (Except.ok.inj hsame)
    rw [← ntohl_ntohl encrypt, hword, hzero]
  · rintro rfl
    refine ⟨hsize, ?_⟩
    rw [hzero] at hdecodes
    exact hdecodes

theorem uploadResponse_agrees (id msgType rtn : BitVec 32) (fid : BitVec 64) (servers : List DataServer)
    (le : servers.length ≤ 3) : (WireMessage.uploadResponse id msgType rtn fid servers le).Agrees := by
  intro rsh dslist pdata
  refine ⟨?_, fun mem hmem => ?_⟩
  · rw [nsPoolRoom]
    omega
  have hlen := length_flatMap_of_length DataServer.footprint_length servers
  have hholds := @Holds.of_agree _ mem 0 _ (uploadResponse_holds rsh dslist pdata id msgType rtn fid servers)
    fun q h0 hq => hmem q h0 (by
      simp only [List.length_append, rspFootprint_length, field_length, hlen] at hq
      push_cast at hq ⊢
      omega)
  simp only [rspFootprint, holds_append, List.length_append, field_length] at hholds
  obtain ⟨⟨⟨⟨⟨hlength, hid, htype, hrtn, -⟩, hfid⟩, hnum⟩, hservers⟩, -⟩ := hholds
  have hcount : (BitVec.ofNat 32 servers.length).toNat = servers.length := by
    rw [BitVec.toNat_ofNat, Nat.mod_eq_of_lt (by omega)]
  refine ⟨fun h => ?_, ?_⟩
  · have hword : rb32 (fun i => mem i) 0 = BitVec.ofNat 32 (36 + 20 * servers.length) := by
      rw [rb32_of_holds (p := 0) hlength, Nat.mul_comm 20, BitVec.ofNat_add, BitVec.ofNat_mul]
      rfl
    rw [Peer.parseHead, hword, rb32_of_holds (p := 4) hid, rb32_of_holds (p := 8) htype, rb32_of_holds (p := 12) hrtn]
  · rw [fileUploadProcess, rb64_of_holds (p := 20) hfid, rb32_of_holds (p := 28) hnum, hcount,
      readServers_of_holds (p := 32) hservers]

theorem downloadResponse_agrees_iff (rsh pdata : ℤ → BitVec 8) (id msgType rtn : BitVec 32) (fid : BitVec 64) (copies : ℕ)
    (net : BitVec 32 → Option DataServer) (rows : List SqlBlock) :
    (WireMessage.downloadResponse rsh pdata id msgType rtn fid copies net rows).Agrees ↔
      (WireMessage.downloadResponse rsh pdata id msgType rtn fid copies net rows).Safe := by
  have hsent := downloadResponse_holds rsh pdata id msgType rtn fid copies net rows
  have hbound : (downloadResponse rsh pdata id msgType rtn fid copies net rows).1.b ≤ 151 :=
    (BlockLoop.inv_run copies net rows _).bound
  simp only [WireMessage.Agrees, WireMessage.Safe]
  generalize downloadResponse rsh pdata id msgType rtn fid copies net rows = response at hsent hbound
  obtain ⟨l, sent⟩ := response
  have hle : l.blocks.length ≤ 151 := hbound
  have hcount : (BitVec.ofNat 32 l.blocks.length).toNat = l.blocks.length := by
    rw [BitVec.toNat_ofNat, Nat.mod_eq_of_lt (by omega)]
  have hdecode {mem : ℤ → BitVec 8} (h : Downloaded mem id msgType rtn fid l.blocks) :
      fileDownloadProcess (fun i => mem i) =
        (fid, l.blocks.mapIdx (decodedBlock (BitVec.ofNat 32 l.blocks.length))) := by
    rw [fileDownloadProcess, rb64_of_holds (p := 20) h.fid, rb32_of_holds (p := 28) h.bnum, hcount,
      readBlocks_storeRspd (rb32_of_holds (p := 16) h.encrypt) h.blocks, rb32_of_holds (p := 28) h.bnum]
  rw [← mapIdx_decodedBlock_iff]
  constructor
  · rintro ⟨-, hread⟩
    have hsame := (hread sent fun _ _ _ => rfl).2
    rw [hdecode hsent] at hsame
    exact congrArg Prod.snd hsame
  · intro hsame
    refine ⟨?_, fun mem hmem => ?_⟩
    · show 36 + 24 * l.blocks.length ≤ nsPoolRoom
      rw [nsPoolRoom]
      omega
    have hmem' : Downloaded mem id msgType rtn fid l.blocks := hsent.of_agree hmem
    refine ⟨fun h => ?_, ?_⟩
    · have hword : rb32 (fun i => mem i) 0 = BitVec.ofNat 32 (36 + 24 * l.b) := by
        rw [rb32_of_holds (p := 0) hmem'.len, Nat.mul_comm 24, BitVec.ofNat_add, BitVec.ofNat_mul]
        rfl
      rw [Peer.parseHead, hword, rb32_of_holds (p := 4) hmem'.id, rb32_of_holds (p := 8) hmem'.msgType,
        rb32_of_holds (p := 12) hmem'.rtn]
    · rw [hdecode hmem', hsame]

/-- The proxy and the servers agree on a message exactly when it is safe. -/
theorem proxy_agrees_iff (m : WireMessage) : m.Agrees ↔ m.Safe := by
  cases m with
  | upload sid hash fileSize blockNumber blockIndex =>
    exact iff_of_true (upload_agrees sid hash fileSize blockNumber blockIndex) trivial
  | download sid hash blockIndex => exact iff_of_true (download_agrees sid hash blockIndex) trivial
  | query sid hash => exact iff_of_true (file_delivers 0x0a sid hash) trivial
  | delete sid hash => exact iff_of_true (file_delivers 0x04 sid hash) trivial
  | put sid fileid blockindex endPos servers pos le =>
    exact iff_of_true (put_agrees sid fileid blockindex endPos servers pos le) trivial
  | get sid encrypt fileid blockindex endPos => exact get_agrees_iff sid encrypt fileid blockindex endPos
  | uploadResponse id msgType rtn fid servers le =>
    exact iff_of_true (uploadResponse_agrees id msgType rtn fid servers le) trivial
  | downloadResponse rsh pdata id msgType rtn fid copies net rows =>
    exact downloadResponse_agrees_iff rsh pdata id msgType rtn fid copies net rows

/-- A file of 128 blocks, each on a server of its own kind -/
def rowsOfFile : List SqlBlock := (List.range 128).map fun i => ⟨BitVec.ofNat 32 i, 0⟩

/-- A GET whose head holds what was on the stack before, and a response in which `encrypt` is stored over an address -/
theorem get_and_long_list_disagree :
    ¬ (WireMessage.get 1 1 7 0 4096).Agrees ∧
      ¬ (WireMessage.downloadResponse (fun _ => 0) (fun _ => 0) 0 (ntohl 3) 0 7 3 (fun _ => some ⟨1, 2⟩)
        rowsOfFile).Agrees := by
  constructor
  · intro h
    have hzero := (get_agrees_iff _ _ _ _ _).mp h
    exact absurd hzero (by decide)
  · intro h
    have hsafe := (downloadResponse_agrees_iff _ _ _ _ _ _ _ _ _).mp h
    have hblock : (downloadResponse (fun _ => 0) (fun _ => 0) 0 (ntohl 3) 0 7 3 (fun _ => some ⟨1, 2⟩)
        rowsOfFile).1.blocks[127]? = some (127, ⟨1, 2⟩) := by decide +kernel
    have haddr := hsafe.1 _ hblock
    exact absurd haddr (by decide)

end Tefs.Message
