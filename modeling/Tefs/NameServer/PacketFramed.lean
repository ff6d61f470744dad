import Tefs.NameServer.PacketParse

/-! # When requests are framed

Source: `gfs_net_packet_parse_tcp` of `nameservice/net/gfs_net.c`, `gfs_handle_tcp_parse` of `core/gfs_handle.c`.

A round is described by the requests that are complete in the buffer and the part of the next one behind them.
It frames them exactly when no request before the last is refused or has an answer that closes the connection, and
that part is empty, waits in a full buffer or lies behind a last request of that kind.
-/

namespace Tefs.NameServer.PacketParse
open Runs Wire Framing
set_option autoImplicit false

/-! ## One call of the parser -/

namespace NetBuf

theorem unparsed_length (b : NetBuf) : b.unparsed.length = b.size := bytesAt_length _ _ _

/-- The words of what lies at the head of the buffer -/
theorem word_of_unparsed {b : NetBuf} (front bytes tail : List (BitVec 8))
    (h : b.unparsed = front ++ (bytes ++ tail)) (hlen : bytes.length = 4) :
    b.word (b.hd + front.length) = (ofBigEndian 32 bytes).toNat := by
  obtain ⟨-, hback⟩ := bytesAt_append h
  obtain ⟨hword, -⟩ := bytesAt_append hback
  rw [hlen] at hword
  rw [word, Int.natCast_add, hword]

theorem packetParseTcp_request {b : NetBuf} (request : Request) {tail : List (BitVec 8)}
    (h : b.unparsed = request.bytes ++ tail) :
    b.packetParseTcp = (some (b.hd, request.bytes.length), request.bytes.length) := by
  have hlower := request.lower
  have hupper := request.upper
  have hsize : b.size = request.bytes.length + tail.length := by
    rw [← b.unparsed_length, h, List.length_append]
  have hfirst : b.word b.hd = request.bytes.length := by
    rw [← request.len]
    refine word_of_unparsed [] (request.bytes.take 4) (request.bytes.drop 4 ++ tail) ?_ ?_
    · rw [h, List.nil_append, ← List.append_assoc, List.take_append_drop]
    · rw [List.length_take]
      omega
  have hlast : b.word (b.hd + 0 + request.bytes.length - 4) = 0 := by
    have hparts : b.unparsed = request.bytes.take (request.bytes.length - 4) ++
        (request.bytes.drop (request.bytes.length - 4) ++ tail) := by
      rw [h, ← List.append_assoc, List.take_append_drop]
    have hfour : (request.bytes.drop (request.bytes.length - 4)).length = 4 := by
      rw [List.length_drop]
      omega
    have hword := word_of_unparsed _ _ _ hparts hfour
    rw [request.separator, List.length_take] at hword
    have hplace : b.hd + 0 + request.bytes.length - 4 =
        b.hd + min (request.bytes.length - 4) request.bytes.length := by omega
    rw [hplace, hword]
    rfl
  obtain ⟨left, hleft⟩ : ∃ left, b.size = left + 1 := ⟨b.size - 1, by omega⟩
  have hrtn : b.size - (left + 1) = 0 := by omega
  rw [packetParseTcp, hleft, scan_succ]
  simp only [hrtn, hfirst]
  rw [if_neg (by omega), if_neg (by omega), if_neg (by rw [hlast]; exact fun h => h rfl), Nat.zero_add,
    Nat.add_zero]

theorem packetParseTcp_empty {b : NetBuf} (h : b.size = 0) : b.packetParseTcp = (none, 0) := by
  rw [packetParseTcp, h, scan, scanReads, h]

/-- A full buffer waits. -/
theorem packetParseTcp_full {b : NetBuf} (hpos : 0 < b.size) (hfull : b.pos = recvBufferSize)
    (hvalid : ValidLen (b.word b.hd)) (hshort : b.size < b.word b.hd) : b.packetParseTcp = (none, 0) := by
  obtain ⟨hlower, hupper⟩ := hvalid
  obtain ⟨left, hleft⟩ : ∃ left, b.size = left + 1 := ⟨b.size - 1, by omega⟩
  have hrtn : b.size - (left + 1) = 0 := by omega
  rw [packetParseTcp, hleft, scan_succ]
  simp only [hrtn]
  rw [if_neg (by omega), if_pos (by omega), if_neg (by omega), if_pos hfull]

/-- Any other buffer gives up what is not complete. -/
theorem packetParseTcp_dropped {b : NetBuf} (hshort : b.size < b.word b.hd ∨ ¬ ValidLen (b.word b.hd))
    (hnot : ¬ (b.pos = recvBufferSize ∧ ValidLen (b.word b.hd))) (hroom : b.pos ≤ recvBufferSize) :
    b.packetParseTcp = (none, b.size) := by
  have hscan (left : ℕ) : b.scan left = (none, b.size) := by
    induction left with
    | zero => rfl
    | succ left ih =>
      rw [scan_succ]
      by_cases hvalid : ValidLen (b.word b.hd)
      · have hpos : b.pos < recvBufferSize :=
          Nat.lt_of_le_of_ne hroom fun heq => hnot ⟨heq, hvalid⟩
        have hlen : b.size < b.word b.hd := hshort.resolve_right fun hinvalid => hinvalid hvalid
        obtain ⟨hlower, hupper⟩ := hvalid
        rw [if_neg (by omega), if_pos (by omega), if_pos hpos]
        exact ih
      · have hinvalid : 2048 < b.word b.hd ∨ b.word b.hd < 16 := by
          unfold ValidLen at hvalid
          omega
        rw [if_pos hinvalid]
        exact ih
  exact hscan b.size

theorem compact_eq {b : NetBuf} (hle : b.hd ≤ b.pos) (hroom : b.pos ≤ recvBufferSize) :
    b.compact.unparsed = b.unparsed ∧ b.compact.hd = 0 ∧ b.compact.pos = b.size := by
  have hnot : ¬ (b.pos < b.hd ∨ recvBufferSize < b.pos ∨ recvBufferSize < b.hd) := by omega
  rw [compact, if_neg hnot]
  refine ⟨?_, rfl, rfl⟩
  have hbytes := bytesAt_of_holds (holds_lay b.data 0 (b.unparsed.map some))
  rw [b.unparsed_length] at hbytes
  exact hbytes

theorem compact_bounds {b : NetBuf} (hle : b.hd ≤ b.pos) (hroom : b.pos ≤ recvBufferSize) :
    b.compact.hd ≤ b.compact.pos ∧ b.compact.pos ≤ recvBufferSize := by
  obtain ⟨-, hhd, hpos⟩ := compact_eq hle hroom
  rw [hhd, hpos, size]
  omega

end NetBuf

/-! ## One round -/

/-- The connection after `packets` were handed over. -/
def Conn.handing (c : Conn) (packets : List (List (BitVec 8))) : Conn :=
  { c with
    handed := c.handed ++ packets
    rbuf := { c.rbuf with hd := c.rbuf.hd + packets.flatten.length } }

theorem Conn.handing_unparsed {c : Conn} {ms : List (List (BitVec 8))} {tail : List (BitVec 8)}
    (h : c.rbuf.unparsed = ms.flatten ++ tail) : (c.handing ms).rbuf.unparsed = tail := by
  have hsize : c.rbuf.pos - c.rbuf.hd = ms.flatten.length + tail.length := by
    rw [← List.length_append, ← h]
    exact c.rbuf.unparsed_length.symm
  have hrest : c.rbuf.pos - (c.rbuf.hd + ms.flatten.length) = tail.length := by omega
  obtain ⟨-, hback⟩ := bytesAt_append h
  rw [← Int.natCast_add] at hback
  exact (congrArg _ hrest).trans hback

theorem Conn.handing_handing (c : Conn) (ms ms' : List (List (BitVec 8))) :
    (c.handing ms).handing ms' = c.handing (ms ++ ms') := by
  simp only [handing, List.append_assoc, List.flatten_append, List.length_append, Nat.add_assoc]

theorem handleTcpParse_request {c : Conn} (request : Request) {rest : List (BitVec 8)}
    (h : c.rbuf.unparsed = request.bytes ++ rest) (result : ℕ → BusiResult) (rounds calls : ℕ) :
    c.handleTcpParse result (rounds + 1) calls =
      match result calls with
      | .ok => (c.handing [request.bytes]).handleTcpParse result rounds (calls + 1)
      | .closed => (c.handing [request.bytes]).netClose.handleTcpParse result rounds (calls + 1)
      | .err => c.handing [request.bytes] := by
  obtain ⟨hbytes, -⟩ := bytesAt_append h
  rw [Conn.handleTcpParse, NetBuf.packetParseTcp_request request h]
  cases result calls <;> simp only [hbytes, Conn.handing, List.flatten_singleton]

/-- The loop finds nothing more in the buffer of a connection that was closed under it. -/
theorem handleTcpParse_netClose (c : Conn) (result : ℕ → BusiResult) (rounds calls : ℕ) :
    c.netClose.handleTcpParse result rounds calls = c.netClose := by
  cases rounds with
  | zero => rfl
  | succ rounds =>
    have hparse : c.netClose.rbuf.packetParseTcp = (none, 0) := NetBuf.packetParseTcp_empty rfl
    have hcompact : c.netClose.rbuf.compact = c.netClose.rbuf := by
      simp [NetBuf.compact, Conn.netClose, NetBuf.unparsed, NetBuf.size, bytesAt]
    rw [Conn.handleTcpParse, hparse]
    simp only [Nat.add_zero, hcompact]

theorem all_ok_succ {result : ℕ → BusiResult} {calls n : ℕ} (hok : result calls = .ok)
    (hall : ∀ i < n, result (calls + 1 + i) = .ok) : ∀ i < n + 1, result (calls + i) = .ok := by
  intro i hi
  cases i with
  | zero => exact hok
  | succ i =>
    have hidx : calls + (i + 1) = calls + 1 + i := by omega
    rw [hidx]
    exact hall i (by omega)

/-- What a call that does not end with `GFS_OK` alone leaves -/
def Conn.stopped (c : Conn) : BusiResult → Conn
  | .closed => c.netClose
  | _ => c

/-- The loop hands over one request after the other, until a call of `gfs_busi_handle` fails or closes the connection. -/
theorem handleTcpParse_requests (result : ℕ → BusiResult) (rs : List Request) (tail : List (BitVec 8)) (c : Conn)
    (rounds calls : ℕ) (h : c.rbuf.unparsed = (packets rs).flatten ++ tail) (hrounds : c.rbuf.size < rounds) :
    (∃ done later, rs = done ++ later ∧ done ≠ [] ∧ (∀ i < done.length - 1, result (calls + i) = .ok) ∧
        result (calls + (done.length - 1)) ≠ .ok ∧
        c.handleTcpParse result rounds calls =
          (c.handing (packets done)).stopped (result (calls + (done.length - 1)))) ∨
      ((∀ i < rs.length, result (calls + i) = .ok) ∧ ∃ rounds', tail.length < rounds' ∧
        c.handleTcpParse result rounds calls =
          (c.handing (packets rs)).handleTcpParse result rounds' (calls + rs.length)) := by
  induction rs generalizing c rounds calls with
  | nil =>
    refine .inr ⟨fun i hi => (Nat.not_lt_zero i hi).elim, rounds, ?_, ?_⟩
    · rw [← c.rbuf.unparsed_length, h] at hrounds
      exact hrounds
    · simp [packets, Conn.handing]
  | cons request rs ih =>
    have hparts : c.rbuf.unparsed = request.bytes ++ ((packets rs).flatten ++ tail) := by
      rw [h, packets, List.map_cons, List.flatten_cons, List.append_assoc]
      rfl
    obtain ⟨rounds, rfl⟩ : ∃ n, rounds = n + 1 := ⟨rounds - 1, by omega⟩
    have hone : c.rbuf.unparsed = [request.bytes].flatten ++ ((packets rs).flatten ++ tail) := by
      rw [hparts, List.flatten_singleton]
    rw [handleTcpParse_request request hparts]
    cases hok : result calls with
    | err =>
      refine .inl ⟨[request], rs, rfl, List.cons_ne_nil _ _, fun i hi => (Nat.not_lt_zero i hi).elim, ?_, ?_⟩
      · change result calls ≠ .ok
        rw [hok]
        exact BusiResult.noConfusion
      · change _ = (c.handing (packets [request])).stopped (result calls)
        rw [hok]
        rfl
    | closed =>
      refine .inl ⟨[request], rs, rfl, List.cons_ne_nil _ _, fun i hi => (Nat.not_lt_zero i hi).elim, ?_, ?_⟩
      · change result calls ≠ .ok
        rw [hok]
        exact BusiResult.noConfusion
      · change _ = (c.handing (packets [request])).stopped (result calls)
        rw [hok]
        exact handleTcpParse_netClose _ _ _ _
    | ok =>
      have hrest := Conn.handing_unparsed hone
      have hlower := request.lower
      have hsmaller : (c.handing [request.bytes]).rbuf.size < rounds := by
        rw [← NetBuf.unparsed_length, hrest]
        rw [← c.rbuf.unparsed_length, hparts, List.length_append] at hrounds
        omega
      dsimp only
      rcases ih (c.handing [request.bytes]) rounds (calls + 1) hrest hsmaller with
        ⟨done, later, hrs, hne, hbefore, hfail, hres⟩ | ⟨hall, rounds', hlt, hres⟩
      · have hpos : 0 < done.length := List.length_pos_iff.2 hne
        have hcount : (request :: done).length - 1 = done.length - 1 + 1 := by
          rw [List.length_cons]
          omega
        have hidx : calls + ((request :: done).length - 1) = calls + 1 + (done.length - 1) := by omega
        refine .inl ⟨request :: done, later, ?_, List.cons_ne_nil _ _, ?_, ?_, ?_⟩
        · rw [hrs, List.cons_append]
        · rw [hcount]
          exact all_ok_succ hok hbefore
        · rw [hidx]
          exact hfail
        · rw [hres, Conn.handing_handing, hidx]
          rfl
      · refine .inr ⟨all_ok_succ hok hall, rounds', hlt, ?_⟩
        · rw [hres, Conn.handing_handing, List.length_cons]
          have hidx : calls + (rs.length + 1) = calls + 1 + rs.length := by omega
          rw [hidx]
          rfl

/-- The loop stops at a request that is not complete, and keeps it. -/
theorem handleTcpParse_kept {c : Conn} (hparse : c.rbuf.packetParseTcp = (none, 0)) (result : ℕ → BusiResult)
    (rounds calls : ℕ) : c.handleTcpParse result (rounds + 1) calls = { c with rbuf := c.rbuf.compact } := by
  rw [Conn.handleTcpParse, hparse]
  simp only [Nat.add_zero]

theorem handleTcpParse_dropped {c : Conn} (hparse : c.rbuf.packetParseTcp = (none, c.rbuf.size))
    (hle : c.rbuf.hd ≤ c.rbuf.pos) (result : ℕ → BusiResult) (rounds calls : ℕ) :
    c.handleTcpParse result (rounds + 1) calls =
      { c with rbuf := { c.rbuf with hd := c.rbuf.pos }.compact } := by
  have hend : c.rbuf.hd + c.rbuf.size = c.rbuf.pos := by
    rw [NetBuf.size]
    omega
  rw [Conn.handleTcpParse, hparse]
  simp only [hend]

/-- Of a request that is not complete, a length that passes for one is always too much. -/
theorem size_lt_word {b : NetBuf} (request : Request) (hunparsed : b.unparsed <+: request.bytes)
    (hshort : b.size < request.bytes.length) (hvalid : ValidLen (b.word b.hd)) : b.size < b.word b.hd := by
  obtain ⟨hlower, -⟩ := hvalid
  by_cases hsmall : b.size < 4
  · omega
  · obtain ⟨tail, htail⟩ := hunparsed
    have hlen := b.unparsed_length
    have hparts : b.unparsed = [] ++ (request.bytes.take 4 ++ b.unparsed.drop 4) := by
      rw [← htail, List.take_append_of_le_length (by omega), List.nil_append, List.take_append_drop]
    have hword := NetBuf.word_of_unparsed _ _ _ hparts (by rw [List.length_take]; omega)
    rw [List.length_nil, Nat.add_zero, request.len] at hword
    omega

/-- What is left behind the complete requests waits in a full buffer, if its length may be one. -/
theorem packetParseTcp_kept {b : NetBuf}
    (hnext : b.unparsed ≠ [] → ∃ request : Request, b.unparsed <+: request.bytes ∧ b.size < request.bytes.length)
    (hkeep : b.unparsed = [] ∨ b.pos = recvBufferSize ∧ ValidLen (b.word b.hd)) : b.packetParseTcp = (none, 0) := by
  have hsize := b.unparsed_length
  by_cases hempty : b.unparsed = []
  · exact NetBuf.packetParseTcp_empty (by rw [← hsize, hempty, List.length_nil])
  · obtain ⟨hfull, hvalid⟩ := hkeep.resolve_left hempty
    obtain ⟨request, hfront, hshort⟩ := hnext hempty
    refine NetBuf.packetParseTcp_full ?_ hfull hvalid (size_lt_word request hfront hshort hvalid)
    rw [← hsize]
    exact List.length_pos_iff.2 hempty

theorem packetParseTcp_lost {b : NetBuf}
    (hnext : b.unparsed ≠ [] → ∃ request : Request, b.unparsed <+: request.bytes ∧ b.size < request.bytes.length)
    (hkeep : ¬ (b.unparsed = [] ∨ b.pos = recvBufferSize ∧ ValidLen (b.word b.hd))) (hroom : b.pos ≤ recvBufferSize) :
    b.packetParseTcp = (none, b.size) := by
  obtain ⟨request, hfront, hshort⟩ := hnext fun hempty => hkeep (.inl hempty)
  refine NetBuf.packetParseTcp_dropped ?_ (fun hfull => hkeep (.inr hfull)) hroom
  by_cases hvalid : ValidLen (b.word b.hd)
  · exact .inl (size_lt_word request hfront hshort hvalid)
  · exact .inr hvalid

/-! ## The invariant -/

structure Inv (requests : List Request) (c : Conn) : Prop extends Correct requests c where
  bounds : c.rbuf.hd ≤ c.rbuf.pos ∧ c.rbuf.pos ≤ recvBufferSize
  received : c.received ≤ (streamOf requests).length

theorem packets_append (rs rs' : List Request) : packets (rs ++ rs') = packets rs ++ packets rs' :=
  List.map_append

theorem streamOf_append (rs rs' : List Request) : streamOf (rs ++ rs') = streamOf rs ++ streamOf rs' := by
  rw [streamOf, packets_append, List.flatten_append]
  rfl

/-- The front of the packets is the packets of a front. -/
theorem packets_of_prefix {requests : List Request} {ms : List (List (BitVec 8))}
    (h : ms <+: packets requests) :
    ∃ done later, requests = done ++ later ∧ packets done = ms := by
  obtain ⟨tail, htail⟩ := h
  obtain ⟨done, later, hrequests, hdone, -⟩ := List.map_eq_append_iff.1 htail.symm
  exact ⟨done, later, hrequests, hdone⟩

theorem NetBuf.append_unparsed {b : NetBuf} (hle : b.hd ≤ b.pos) (bs : List (BitVec 8)) :
    (b.append bs).unparsed = b.unparsed ++ bs := by
  have hpos : (b.pos : ℤ) = b.hd + b.size := by
    rw [size]
    omega
  have hsize : (b.append bs).size = b.size + bs.length := by
    simp only [size, append]
    omega
  rw [unparsed, hsize]
  simp only [append, hpos]
  exact bytesAt_lay_behind b.data b.hd b.size bs

/-- What is in the buffer after `n` more bytes -/
theorem Inv.recv_unparsed {requests : List Request} {c : Conn} {n : ℕ} (h : Inv requests c)
    (hclosed : c.closed = false) :
    (c.recv (streamOf requests) n).rbuf.unparsed =
      ((streamOf requests).take (c.received + n)).drop c.handed.flatten.length := by
  have hhanded : c.handed.flatten.length ≤ c.received := by
    obtain ⟨-, -, hlen, -⟩ := take_flatten (packets requests) c.received
    rw [h.handed]
    exact hlen
  have hreceived := h.received
  rw [Conn.recv, NetBuf.append_unparsed h.bounds.1, h.suffix hclosed, List.take_add,
    List.drop_append_of_le_length (by rw [List.length_take]; omega)]

/-- What a round finds in the buffer: the requests that became complete, and a part of the next one. -/
theorem Inv.round_parts {requests : List Request} {c : Conn} (h : Inv requests c)
    (hclosed : c.closed = false) (n : ℕ) :
    ∃ rs tail, fresh requests c n = packets rs ∧
      arrived (packets requests) (c.received + n) = c.handed ++ packets rs ∧
      (c.recv (streamOf requests) n).rbuf.unparsed = (packets rs).flatten ++ tail ∧
      (tail ≠ [] → ∃ request : Request, tail <+: request.bytes ∧ tail.length < request.bytes.length) := by
  obtain ⟨done, later, hrequests, hdone⟩ : ∃ done later, requests = done ++ later ∧
      packets done = c.handed := by
    rw [h.handed]
    exact packets_of_prefix (arrived_isPrefix _ _)
  have hhanded : c.handed.flatten.length ≤ c.received := by
    obtain ⟨-, -, hlen, -⟩ := take_flatten (packets requests) c.received
    rw [h.handed]
    exact hlen
  obtain ⟨rest, hlater, hlen, htake, hnext⟩ :=
    take_flatten (packets later) (c.received + n - c.handed.flatten.length)
  have harrived : arrived (packets requests) (c.received + n) =
      c.handed ++ arrived (packets later) (c.received + n - c.handed.flatten.length) := by
    rw [hrequests, packets_append, hdone, arrived_append _ (by omega)]
  obtain ⟨rs, after, hrs, hpackets⟩ := packets_of_prefix
    (arrived_isPrefix (packets later) (c.received + n - c.handed.flatten.length))
  rw [← hpackets] at harrived hlater htake hnext
  have hafter : packets after = rest := by
    rw [hrs, packets_append] at hlater
    exact List.append_cancel_left hlater
  refine ⟨rs, rest.flatten.take
    (c.received + n - c.handed.flatten.length - (packets rs).flatten.length), ?_, harrived, ?_, fun hne => ?_⟩
  · rw [fresh, harrived, List.drop_left]
  · rw [h.recv_unparsed hclosed, ← htake]
    have hstream : streamOf requests = c.handed.flatten ++ (packets later).flatten := by
      rw [hrequests, streamOf_append, ← hdone]
      rfl
    rw [hstream, List.take_append, List.take_of_length_le (by omega), List.drop_left]
  · cases after with
    | nil =>
      rw [← hafter] at hne
      exact (hne (by simp [packets])).elim
    | cons request after =>
      have hcons : rest = request.bytes :: packets after := hafter.symm
      have hshort := hnext _ _ hcons
      have htail : rest.flatten.take
          (c.received + n - c.handed.flatten.length - (packets rs).flatten.length) =
          request.bytes.take (c.received + n - c.handed.flatten.length - (packets rs).flatten.length) := by
        rw [hcons, List.flatten_cons, List.take_append_of_le_length (by omega)]
      refine ⟨request, ?_, ?_⟩
      · rw [htail]
        exact List.take_prefix _ _
      · rw [htail, List.length_take]
        omega

/-- The connection in which exactly `rs` were handed over and `unparsed` is left. -/
structure Handed (c c' : Conn) (rs : List Request) (unparsed : List (BitVec 8)) : Prop where
  handed : c'.handed = c.handed ++ packets rs
  unparsed : c'.rbuf.unparsed = unparsed
  received : c'.received = c.received
  closed : c'.closed = c.closed

/-- Exactly `rs` were handed over, and then the connection was closed. -/
structure ClosedAfter (c c' : Conn) (rs : List Request) : Prop where
  handed : c'.handed = c.handed ++ packets rs
  received : c'.received = c.received
  closed : c'.closed = true

theorem handing_handed {c : Conn} {rs : List Request} {tail : List (BitVec 8)}
    (h : c.rbuf.unparsed = (packets rs).flatten ++ tail) : Handed c (c.handing (packets rs)) rs tail :=
  ⟨rfl, Conn.handing_unparsed h, rfl, rfl⟩

/-- A round comes out right exactly when every request that became complete was handed over and what is
left of the next one is kept. -/
theorem correct_round_iff {requests : List Request} {c c' : Conn} (h : Inv requests c)
    (hclosed : c.closed = false) {n : ℕ} {rs done : List Request} {tail unparsed : List (BitVec 8)}
    (harrived : arrived (packets requests) (c.received + n) = c.handed ++ packets rs)
    (hparts : (c.recv (streamOf requests) n).rbuf.unparsed = (packets rs).flatten ++ tail)
    (hres : Handed (c.recv (streamOf requests) n) c' done unparsed) :
    Correct requests c' ↔ packets done = packets rs ∧ unparsed = tail := by
  have hhanded : c'.handed = c.handed ++ packets done := hres.handed
  have hreceived : c'.received = c.received + n := hres.received
  have htail : ((streamOf requests).take (c.received + n)).drop (c.handed ++ packets rs).flatten.length =
      tail := by
    rw [List.flatten_append, List.length_append, ← List.drop_drop, ← h.recv_unparsed hclosed, hparts,
      List.drop_left]
  refine ⟨fun hcorrect => ?_, fun ⟨hdone, hunparsed⟩ => ⟨?_, fun _ => ?_⟩⟩
  · have hsame : packets done = packets rs := by
      have heq := hcorrect.handed
      rw [hhanded, hreceived, harrived] at heq
      exact List.append_cancel_left heq
    have hsuffix := hcorrect.suffix (hres.closed.trans hclosed)
    rw [hhanded, hreceived, hsame, htail, hres.unparsed] at hsuffix
    exact ⟨hsame, hsuffix⟩
  · rw [hhanded, hreceived, harrived, hdone]
  · rw [hhanded, hreceived, hdone, htail, hres.unparsed, hunparsed]

theorem correct_closed_iff {requests : List Request} {c c' : Conn} {n : ℕ} {rs done : List Request}
    (harrived : arrived (packets requests) (c.received + n) = c.handed ++ packets rs)
    (hres : ClosedAfter (c.recv (streamOf requests) n) c' done) :
    Correct requests c' ↔ packets done = packets rs := by
  have hhanded : c'.handed = c.handed ++ packets done := hres.handed
  have hreceived : c'.received = c.received + n := hres.received
  constructor
  · intro hcorrect
    have heq := hcorrect.handed
    rw [hhanded, hreceived, harrived] at heq
    exact List.append_cancel_left heq
  · intro hdone
    refine ⟨?_, fun hopen => ?_⟩
    · rw [hhanded, hreceived, harrived, hdone]
    · rw [hres.closed] at hopen
      cases hopen

theorem handing_bounds {c : Conn} {rs : List Request} {tail : List (BitVec 8)}
    (h : c.rbuf.unparsed = (packets rs).flatten ++ tail) (hle : c.rbuf.hd ≤ c.rbuf.pos) :
    (c.handing (packets rs)).rbuf.hd ≤ (c.handing (packets rs)).rbuf.pos := by
  have hlen := congrArg List.length h
  rw [c.rbuf.unparsed_length, NetBuf.size, List.length_append] at hlen
  simp only [Conn.handing]
  omega

/-- What a round does: it stops behind a request that is refused or whose answer closes the connection, or it comes
to the end, where what is left is kept or lost. -/
theorem round_cases {c : Conn} {rs : List Request} {tail : List (BitVec 8)} (result : ℕ → BusiResult)
    (hle : c.rbuf.hd ≤ c.rbuf.pos) (hroom : c.rbuf.pos ≤ recvBufferSize)
    (h : c.rbuf.unparsed = (packets rs).flatten ++ tail)
    (hnext : tail ≠ [] → ∃ request : Request, tail <+: request.bytes ∧ tail.length < request.bytes.length) :
    let c' := c.handleTcpParse result (c.rbuf.size + 1) 0
    let kept := c.rbuf.pos = recvBufferSize ∧
      ValidLen (c.rbuf.word (c.rbuf.hd + (packets rs).flatten.length))
    c'.rbuf.hd ≤ c'.rbuf.pos ∧ c'.rbuf.pos ≤ recvBufferSize ∧
      ((∃ done later, rs = done ++ later ∧ done ≠ [] ∧ (∀ i < done.length - 1, result i = .ok) ∧
          result (done.length - 1) ≠ .ok ∧
          (Handed c c' done ((packets later).flatten ++ tail) ∨ ClosedAfter c c' done)) ∨
        ((∀ i < rs.length, result i = .ok) ∧ (tail = [] ∨ kept) ∧ Handed c c' rs tail) ∨
        ((∀ i < rs.length, result i = .ok) ∧ ¬ (tail = [] ∨ kept) ∧ Handed c c' rs [])) := by
  intro c' kept
  rcases handleTcpParse_requests result rs tail c (c.rbuf.size + 1) 0 h (Nat.lt_succ_self _) with
    ⟨done, later, hrs, hne, hbefore, hfail, hres⟩ | ⟨hall, rounds, hlt, hres⟩
  · have hsplit : c.rbuf.unparsed = (packets done).flatten ++ ((packets later).flatten ++ tail) := by
      rw [h, hrs, packets_append, List.flatten_append, List.append_assoc]
    rw [Nat.zero_add] at hfail
    have hbefore' (i : ℕ) (hi : i < done.length - 1) : result i = .ok := by
      have hok := hbefore i hi
      rwa [Nat.zero_add] at hok
    have hc' : c' = (c.handing (packets done)).stopped (result (done.length - 1)) := by
      rw [Nat.zero_add] at hres
      exact hres
    cases hresult : result (done.length - 1) with
    | ok => exact absurd hresult hfail
    | err =>
      rw [hc', hresult]
      refine ⟨handing_bounds hsplit hle, hroom, .inl ⟨done, later, hrs, hne, hbefore', ?_, ?_⟩⟩
      · rw [hresult]
        exact BusiResult.noConfusion
      · exact .inl (handing_handed hsplit)
    | closed =>
      rw [hc', hresult]
      refine ⟨Nat.le_refl 0, Nat.zero_le _, .inl ⟨done, later, hrs, hne, hbefore', ?_, ?_⟩⟩
      · rw [hresult]
        exact BusiResult.noConfusion
      · exact .inr ⟨rfl, rfl, rfl⟩
  · have hallOk (i : ℕ) (hi : i < rs.length) : result i = .ok := by
      have hok := hall i hi
      rwa [Nat.zero_add] at hok
    obtain ⟨rounds, rfl⟩ : ∃ k, rounds = k + 1 := ⟨rounds - 1, by omega⟩
    have hunparsed := Conn.handing_unparsed h
    have hbounds := handing_bounds h hle
    rw [← hunparsed, NetBuf.unparsed_length] at hnext
    by_cases hkeep : tail = [] ∨ kept
    · have hparse := packetParseTcp_kept hnext (hunparsed.symm ▸ hkeep)
      have hc' : c' = { c.handing (packets rs) with rbuf := (c.handing (packets rs)).rbuf.compact } :=
        hres.trans (handleTcpParse_kept hparse result rounds _)
      obtain ⟨hlower, hupper⟩ := NetBuf.compact_bounds hbounds hroom
      have hcompact := (NetBuf.compact_eq hbounds hroom).1
      rw [hc']
      exact ⟨hlower, hupper, .inr (.inl ⟨hallOk, hkeep, rfl, hcompact.trans hunparsed, rfl, rfl⟩)⟩
    · have hparse := packetParseTcp_lost hnext (hunparsed.symm ▸ hkeep) hroom
      have hc' : c' = { c.handing (packets rs) with rbuf :=
          { (c.handing (packets rs)).rbuf with hd := (c.handing (packets rs)).rbuf.pos }.compact } :=
        hres.trans (handleTcpParse_dropped hparse hbounds result rounds _)
      obtain ⟨hlower, hupper⟩ := NetBuf.compact_bounds
        (b := { (c.handing (packets rs)).rbuf with hd := (c.handing (packets rs)).rbuf.pos }) (Nat.le_refl _) hroom
      have hcompact := (NetBuf.compact_eq
        (b := { (c.handing (packets rs)).rbuf with hd := (c.handing (packets rs)).rbuf.pos }) (Nat.le_refl _) hroom).1
      rw [hc']
      refine ⟨hlower, hupper, .inr (.inr ⟨hallOk, hkeep, rfl, ?_, rfl, rfl⟩)⟩
      rw [hcompact, NetBuf.unparsed, NetBuf.size, Nat.sub_self]
      rfl

/-! ## Runs -/

theorem Inv.recv {requests : List Request} {c : Conn} {n : ℕ} (h : Inv requests c)
    (hn : c.rbuf.pos + n ≤ recvBufferSize ∧ c.received + n ≤ (streamOf requests).length) :
    (c.recv (streamOf requests) n).rbuf.pos = c.rbuf.pos + n ∧
      (c.recv (streamOf requests) n).rbuf.hd ≤ (c.recv (streamOf requests) n).rbuf.pos := by
  have hlen : (((streamOf requests).drop c.received).take n).length = n := by
    rw [List.length_take, List.length_drop]
    omega
  have hle := h.bounds.1
  refine ⟨congrArg (c.rbuf.pos + ·) hlen, ?_⟩
  simp only [Conn.recv, NetBuf.append]
  omega

theorem packets_length (rs : List Request) : (packets rs).length = rs.length := List.length_map _

/-- `Tidy` in terms of what the round finds -/
theorem tidy_round_iff {requests : List Request} {c : Conn} {n : ℕ} {result : ℕ → BusiResult} (h : Inv requests c)
    (hn : c.rbuf.pos + n ≤ recvBufferSize ∧ c.received + n ≤ (streamOf requests).length) {rs : List Request}
    {tail : List (BitVec 8)} (hfresh : fresh requests c n = packets rs)
    (hparts : (c.recv (streamOf requests) n).rbuf.unparsed = (packets rs).flatten ++ tail) :
    Tidy requests c (.round n result) ↔ (∀ i < rs.length - 1, result i = .ok) ∧
      (tail = [] ∨ (rs ≠ [] ∧ result (rs.length - 1) ≠ .ok) ∨
        ((c.recv (streamOf requests) n).rbuf.pos = recvBufferSize ∧ ValidLen
          ((c.recv (streamOf requests) n).rbuf.word (c.rbuf.hd + (packets rs).flatten.length)))) := by
  obtain ⟨hpos, -⟩ := h.recv hn
  have hle := h.bounds.1
  have hsize : c.rbuf.size + n = (packets rs).flatten.length + tail.length := by
    rw [← List.length_append, ← hparts, NetBuf.unparsed_length, NetBuf.size, NetBuf.size, hpos]
    simp only [Conn.recv, NetBuf.append]
    omega
  have hwhole : c.rbuf.size + n = (packets rs).flatten.length ↔ tail = [] := by
    rw [hsize, ← List.length_eq_zero_iff]
    omega
  have hne : packets rs ≠ [] ↔ rs ≠ [] := not_congr List.map_eq_nil_iff
  simp only [Tidy, cut, hfresh, packets_length, hwhole, hne, hpos]

/-- A round is right exactly when it is tidy. -/
theorem Inv.correct_round_iff_tidy {requests : List Request} {c : Conn} {n : ℕ} {result : ℕ → BusiResult}
    (h : Inv requests c) (hen : Enabled (streamOf requests) c (.round n result)) :
    Correct requests (step (streamOf requests) c (.round n result)) ↔ Tidy requests c (.round n result) := by
  have hclosed := hen.1
  have hn : c.rbuf.pos + n ≤ recvBufferSize ∧ c.received + n ≤ (streamOf requests).length := hen.2
  obtain ⟨rs, tail, hfresh, harrived, hparts, hnext⟩ := h.round_parts hclosed n
  obtain ⟨hpos, hle⟩ := h.recv hn
  have hroom : (c.recv (streamOf requests) n).rbuf.pos ≤ recvBufferSize := hpos ▸ hn.1
  obtain ⟨-, -, hcases⟩ := round_cases result hle hroom hparts hnext
  rw [tidy_round_iff h hn hfresh hparts]
  rcases hcases with ⟨done, later, hrs, hne, hbefore, hfail, hres⟩ | ⟨hall, hkeep, hres⟩ |
    ⟨hall, hlost, hres⟩
  · have hpositive : 0 < done.length := List.length_pos_iff.2 hne
    cases later with
    | nil =>
      rw [List.append_nil] at hrs
      subst hrs
      have hcorrect : Correct requests (step (streamOf requests) c (.round n result)) := by
        rcases hres with hres | hres
        · exact (correct_round_iff h hclosed harrived hparts hres).2 ⟨rfl, rfl⟩
        · exact (correct_closed_iff harrived hres).2 rfl
      exact iff_of_true hcorrect ⟨hbefore, .inr (.inl ⟨hne, hfail⟩)⟩
    | cons request later =>
      have hlonger : rs.length = done.length + (later.length + 1) := by
        rw [hrs, List.length_append, List.length_cons]
      have hmore : packets done ≠ packets rs := by
        intro hsame
        have hlen := congrArg List.length hsame
        rw [packets_length, packets_length] at hlen
        omega
      refine iff_of_false (fun hcorrect => hmore ?_) (fun ⟨hok, _⟩ => hfail (hok _ (by omega)))
      rcases hres with hres | hres
      · exact ((correct_round_iff h hclosed harrived hparts hres).1 hcorrect).1
      · exact (correct_closed_iff harrived hres).1 hcorrect
  · refine (correct_round_iff h hclosed harrived hparts hres).trans (iff_of_true ⟨rfl, rfl⟩ ?_)
    exact ⟨fun i hi => hall i (by omega), hkeep.imp_right .inr⟩
  · refine (correct_round_iff h hclosed harrived hparts hres).trans (iff_of_false ?_ ?_)
    · intro ⟨_, hnil⟩
      exact hlost (.inl hnil.symm)
    · intro ⟨_, hend⟩
      rcases hend with hnil | ⟨hne, hfail⟩ | hkept
      · exact hlost (.inl hnil)
      · exact hfail (hall (rs.length - 1) (Nat.sub_lt (List.length_pos_iff.2 hne) Nat.one_pos))
      · exact hlost (.inr hkept)

theorem Inv.round {requests : List Request} {c : Conn} {n : ℕ} {result : ℕ → BusiResult} (h : Inv requests c)
    (hen : Enabled (streamOf requests) c (.round n result)) (hok : Tidy requests c (.round n result)) :
    Inv requests (step (streamOf requests) c (.round n result)) := by
  have hcorrect := (h.correct_round_iff_tidy hen).2 hok
  have hn : c.rbuf.pos + n ≤ recvBufferSize ∧ c.received + n ≤ (streamOf requests).length := hen.2
  obtain ⟨rs, tail, -, -, hparts, hnext⟩ := h.round_parts hen.1 n
  obtain ⟨hpos, hle⟩ := h.recv hn
  obtain ⟨hle', hroom', hcases⟩ := round_cases result hle (hpos ▸ hn.1) hparts hnext
  refine ⟨hcorrect, ⟨hle', hroom'⟩, ?_⟩
  have hreceived : (step (streamOf requests) c (.round n result)).received = c.received + n := by
    rcases hcases with ⟨done, later, -, -, -, -, hres | hres⟩ | ⟨-, -, hres⟩ | ⟨-, -, hres⟩
    · exact hres.received
    · exact hres.received
    · exact hres.received
    · exact hres.received
  rw [hreceived]
  exact hn.2

/-- What came with the close is never looked at. -/
theorem Inv.correct_close_iff_tidy {requests : List Request} {c : Conn} {n : ℕ} (h : Inv requests c)
    (hclosed : c.closed = false) :
    Correct requests (step (streamOf requests) c (.close n)) ↔ Tidy requests c (.close n) := by
  obtain ⟨rs, tail, hfresh, harrived, -, -⟩ := h.round_parts hclosed n
  have hhanded : (step (streamOf requests) c (.close n)).handed = c.handed := rfl
  have hreceived : (step (streamOf requests) c (.close n)).received = c.received + n := rfl
  rw [Tidy, hfresh]
  refine ⟨fun hcorrect => ?_, fun hnone => ⟨?_, fun hopen => (Bool.false_ne_true hopen.symm).elim⟩⟩
  · have heq := hcorrect.handed
    rw [hhanded, hreceived, harrived] at heq
    exact List.append_cancel_left ((List.append_nil _).trans heq) |>.symm
  · rw [hhanded, hreceived, harrived, hnone, List.append_nil]

theorem Inv.close {requests : List Request} {c : Conn} {n : ℕ} (h : Inv requests c)
    (hen : Enabled (streamOf requests) c (.close n)) (hok : Tidy requests c (.close n)) :
    Inv requests (step (streamOf requests) c (.close n)) :=
  ⟨(h.correct_close_iff_tidy hen.1).2 hok, ⟨Nat.le_refl 0, Nat.zero_le _⟩, hen.2.2⟩

def Conn.init (data : ℤ → BitVec 8) : Conn := { rbuf := { data := data } }

/-- While every round is tidy the connection is right, and the first that is not makes it wrong. -/
theorem framing_correct_iff_tidy {requests : List Request} {data : ℤ → BitVec 8} {as : List Action} {c : Conn}
    (h : Reaches (ofFun (step (streamOf requests)))
      (fun c a => Enabled (streamOf requests) c a ∧ Tidy requests c a) (Conn.init data) as c) :
    Correct requests c ∧ ∀ a, Enabled (streamOf requests) c a →
      (Correct requests (step (streamOf requests) c a) ↔ Tidy requests c a) := by
  have hstart : Inv requests (Conn.init data) := by
    have hnone : arrived (packets requests) 0 = [] := by
      cases requests with
      | nil => rfl
      | cons request requests =>
        have hlower := request.lower
        exact if_neg (by omega)
    exact ⟨⟨hnone.symm, fun _ => rfl⟩, ⟨Nat.le_refl 0, Nat.zero_le _⟩, Nat.zero_le _⟩
  have hinv : Inv requests c := by
    refine h.invariant (fun c a c' hc hok htaken => ?_) hstart
    subst htaken
    cases a with
    | round n result => exact hc.round hok.1 hok.2
    | close n => exact hc.close hok.1 hok.2
  refine ⟨hinv.toCorrect, fun a hen => ?_⟩
  cases a with
  | round n result => exact hinv.correct_round_iff_tidy hen
  | close n => exact hinv.correct_close_iff_tidy hen.1

/-- A heartbeat -/
def exampleRequest : Request where
  bytes := [0, 0, 0, 16, 0, 0, 0, 1, 0, 0, 0, 9, 0, 0, 0, 0]
  lower := by decide
  upper := by decide
  len := by decide
  separator := by decide

/-- Two requests in one segment, then a third whose answer closes the connection -/
theorem framing_three_requests :
    ∃ c, Reaches (ofFun (step (streamOf [exampleRequest, exampleRequest, exampleRequest])))
        (fun c a => Enabled (streamOf [exampleRequest, exampleRequest, exampleRequest]) c a ∧
          Tidy [exampleRequest, exampleRequest, exampleRequest] c a)
        (Conn.init fun _ => 0) [.round 32 fun _ => .ok, .round 16 fun _ => .closed] c ∧
      c.handed = [exampleRequest.bytes, exampleRequest.bytes, exampleRequest.bytes] ∧
      Correct [exampleRequest, exampleRequest, exampleRequest] c := by
  have hrun := reaches_of_allAllowed (step (streamOf [exampleRequest, exampleRequest, exampleRequest]))
    (fun c a => Enabled (streamOf [exampleRequest, exampleRequest, exampleRequest]) c a ∧
      Tidy [exampleRequest, exampleRequest, exampleRequest] c a)
    (Conn.init fun _ => 0) [.round 32 fun _ => .ok, .round 16 fun _ => .closed] (by decide)
  exact ⟨_, hrun, by decide, (framing_correct_iff_tidy hrun).1⟩

/-- A request cut in the middle is lost, with all of it received. -/
theorem cut_request_lost :
    ∃ c, Reaches (ofFun (step (streamOf [exampleRequest]))) (Enabled (streamOf [exampleRequest]))
        (Conn.init fun _ => 0) [.round 8 fun _ => .ok, .round 8 fun _ => .ok] c ∧
      c.received = 16 ∧ c.handed = [] ∧ c.rbuf.unparsed = [] ∧ ¬ Correct [exampleRequest] c := by
  refine ⟨_, reaches_of_allAllowed _ _ _ _ (by decide), by decide, by decide, by decide, fun h => ?_⟩
  exact absurd h.handed (by decide)

/-- The answer to the first of two requests closes the connection: the second one is never handed over. -/
example : ¬ Tidy [exampleRequest, exampleRequest] (Conn.init fun _ => 0) (.round 32 fun _ => .closed) := by decide

end Tefs.NameServer.PacketParse
