import Tefs.Proxy.Download
import Tefs.Proxy.UploadStream

/-! # When an upload is exact

Source: `gvfsproxy/src/http/gvfs_http_request.c`, `gvfs_http_request_body.c`.

In a clean run a connection goes through four phases: the first request, the headers of the second, its body,
and the time after it. `headers_parse_completed` is set by the first request and is still set when the second
comes, so every piece of the second is taken for the end of its headers.
-/

namespace Tefs.Proxy.UploadStream
open Runs Download RequestUrls
set_option autoImplicit false

/-! ## The parser's view -/

section Parser
variable {parser : HttpParser} {request : HttpRequest}

theorem bodySizeAt_of_le (request : HttpRequest) {k : ℕ} (hk : request.header.length ≤ k) :
    request.bodySizeAt k = request.body.length % 2 ^ 32 := by
  have hlen : request.digits.length ≤ k - request.front.length := by
    rw [HttpRequest.header, List.length_append, List.length_append, List.length_map] at hk
    omega
  rw [HttpRequest.bodySizeAt, List.take_of_length_le hlen, request.length]

theorem bytes_length (request : HttpRequest) :
    request.bytes.length = request.header.length + request.body.length := List.length_append

/-- A piece that starts in the headers -/
theorem bodyPart_eq {pos n : ℕ} (hpos : pos ≤ request.header.length) (hn : pos + n ≤ request.bytes.length)
    {piece : List (BitVec 8)} (hpiece : request.bytes.take pos ++ piece = request.bytes.take (pos + n)) :
    bodyPart request (request.bytes.take pos) piece = request.body.take (pos + n - request.header.length) := by
  have hlen := bytes_length request
  have hmax : max (request.bytes.take pos).length request.header.length = request.header.length := by
    rw [List.length_take]
    omega
  rw [bodyPart, hpiece, hmax, List.drop_take]
  congr 1
  exact List.drop_left

end Parser

theorem header_pos (d : Dialogue) : 0 < d.second.header.length := by
  have hdigits : d.second.digits ≠ [] := by
    intro hnil
    have hlength := d.second.length
    rw [hnil] at hlength
    exact d.second_body (List.eq_nil_of_length_eq_zero hlength.symm)
  have hpos := List.length_pos_iff.2 hdigits
  rw [HttpRequest.header, List.length_append, List.length_append, List.length_map]
  omega

/-! ## The phases -/

variable (d : Dialogue)

/-- Where the path and the query of the first request are -/
def firstUrl : RequestUrl where
  requestPath := some ⟨d.first.method.length, d.first.path.length⟩
  queryString := some ⟨d.first.method.length + (d.first.path.length + 1), d.first.query.length⟩

structure AwaitingFirst (c : Conn) : Prop where
  second : c.second = false
  handler : c.handler = .processRequest
  control : ¬ InBody c
  pos : c.pos ≤ d.first.bytes.length
  fed : c.fed = d.first.bytes.take c.pos
  incomplete : c.headersParseCompleted = false → c.headersIn = d.first.bytes.take c.pos ∧ c.peer = none
  parsed : c.headersParseCompleted = true → d.first.header.length ≤ c.pos
  outside : c.pos ≤ d.first.method.length ∨ d.first.urlEnd ≤ c.pos
  url : d.first.urlEnd ≤ c.pos → c.url = firstUrl d
  sent : c.sent = []
  completed : c.completed = false
  kept : c.dropped = false
  served : c.refused = false
  inside : c.stray = false

structure AwaitingHeaders (c : Conn) : Prop where
  second : c.second = true
  handler : c.handler = .processRequest
  control : ¬ InBody c
  pos : c.pos < d.second.header.length
  fed : c.fed = d.second.bytes.take c.pos
  parsed : c.headersParseCompleted = true
  bodyInHeaders : c.bodyInHeaders = []
  bodyWithHeaders : c.pos = 0 → c.bodyWithHeaders = true
  recvSize : c.recvSize = 0
  peer : c.peer = some .dataServer
  sent : c.sent = []
  completed : c.completed = false
  kept : c.dropped = false
  served : c.refused = false
  inside : c.stray = false

structure Receiving (capacity : ℕ) (c : Conn) : Prop where
  second : c.second = true
  handler : c.handler = .readClientRequestBody
  control : c.control = .header → c.ready = false
  lower : d.second.header.length ≤ c.pos
  upper : c.pos < d.second.bytes.length
  room : c.requestBody.length ≤ capacity
  bodySize : c.bodySize = c.recvSize + (d.second.bytes.length - c.pos)
  peer : c.peer = some .dataServer
  taken : c.sent ++ c.requestBody = d.second.body.take (c.pos - d.second.header.length)
  completed : c.completed = false
  kept : c.dropped = false
  served : c.refused = false
  inside : c.stray = false

structure Done (c : Conn) : Prop where
  second : c.second = true
  handler : c.handler = .readClientRequestBody
  pos : c.pos = d.second.bytes.length
  sent : c.sent = d.second.body
  completed : c.completed = true
  kept : c.dropped = false
  served : c.refused = false
  inside : c.stray = false

def Inv (capacity : ℕ) (c : Conn) : Prop :=
  AwaitingFirst d c ∨ AwaitingHeaders d c ∨ Receiving d capacity c ∨ Done d c

variable {d} {parser : HttpParser} {capacity : ℕ} {c : Conn}

theorem Inv.correct (h : Inv d capacity c) : Correct d c := by
  have hlen := bytes_length d.second
  obtain h | h | h | h := h
  · refine ⟨?_, fun hc => ?_, ?_, fun hs => ?_, h.kept, h.served, h.inside⟩
    · rw [h.sent]
      exact List.nil_prefix
    · exact (Bool.false_ne_true (h.completed.symm.trans hc)).elim
    · rw [h.completed, h.second]
      simp
    · exact (Bool.false_ne_true (h.second.symm.trans hs)).elim
  · have hpos := h.pos
    refine ⟨?_, fun hc => ?_, ?_, fun _ hlt => ?_, h.kept, h.served, h.inside⟩
    · rw [h.sent]
      exact List.nil_prefix
    · exact (Bool.false_ne_true (h.completed.symm.trans hc)).elim
    · rw [h.completed]
      refine iff_of_false Bool.false_ne_true fun hend => ?_
      have hle := hend.2
      omega
    · omega
  · have hupper := h.upper
    refine ⟨?_, fun hc => ?_, ?_, fun _ hlt => ?_, h.kept, h.served, h.inside⟩
    · have hfront : c.sent <+: d.second.body.take (c.pos - d.second.header.length) := ⟨_, h.taken⟩
      exact hfront.trans (List.take_prefix _ _)
    · exact (Bool.false_ne_true (h.completed.symm.trans hc)).elim
    · rw [h.completed]
      refine iff_of_false Bool.false_ne_true fun hend => ?_
      have hle := hend.2
      omega
    · omega
  · have hpos := h.pos
    refine ⟨?_, fun _ => h.sent, ?_, fun _ hlt => ?_, h.kept, h.served, h.inside⟩
    · exact ⟨[], (List.append_nil _).trans h.sent⟩
    · exact iff_of_true h.completed ⟨h.second, hpos.ge⟩
    · omega

/-! ## The first request -/

theorem piece_length {n : ℕ} (hn : c.pos + n ≤ (d.stream c).length) : (d.piece c n).length = n := by
  rw [Dialogue.piece, List.length_take, List.length_drop]
  omega

theorem take_piece {bytes : List (BitVec 8)} {n : ℕ} (hn : c.pos + n ≤ bytes.length)
    (hfront : bytes <+: d.stream c) : bytes.take c.pos ++ d.piece c n = bytes.take (c.pos + n) := by
  obtain ⟨rest, hrest⟩ := hfront
  rw [Dialogue.piece, ← hrest, List.drop_append_of_le_length (by omega),
    List.take_append_of_le_length (by rw [List.length_drop]; omega), ← List.take_add]

/-- A piece the parser understands -/
theorem processRequest_eq {request : HttpRequest} (hparser : parser.Correct request) {pos n : ℕ}
    (hfed : c.fed = request.bytes.take pos) (hpos : pos ≤ request.header.length) (hpositive : 0 < n)
    (hn : pos + n ≤ request.bytes.length) {piece : List (BitVec 8)} (hlen : piece.length = n)
    (hpiece : request.bytes.take pos ++ piece = request.bytes.take (pos + n)) (buf up : Bool) (failed : Option ℕ) :
    let part := request.body.take (pos + n - request.header.length)
    let c' : Conn := { c with
      headersIn := c.headersIn ++ piece
      url := Conn.onUrls parser c.headersIn.length piece (request.urlCalls pos n) c.url
      pos := c.pos + n
      fed := request.bytes.take (pos + n)
      headersParseCompleted := c.headersParseCompleted ||
        decide (pos < request.header.length ∧ request.header.length ≤ pos + n)
      bodyInHeaders := if c.bodyWithHeaders ∧ part ≠ [] then part else c.bodyInHeaders }
    c.processRequest parser piece buf up failed =
      if c'.headersParseCompleted then c'.headersParsed parser buf up failed else c' := by
  intro part c'
  have htotal := bytes_length request
  have hfedLen : (request.bytes.take pos).length = pos := by
    rw [List.length_take]
    omega
  have hne : piece ≠ [] := fun hnil => by
    rw [hnil] at hlen
    exact absurd hlen.symm hpositive.ne'
  have hparse := hparser.parse (request.bytes.take pos) piece hne (hpiece ▸ List.take_prefix _ _)
  rw [bodyPart_eq hpos hn hpiece, hfedLen, hlen] at hparse
  have hparsed : c.parsePiece parser piece = c' := by
    unfold Conn.parsePiece
    rw [hfed, hparse]
    simp only [hlen, hpiece]
    by_cases hpart : part = []
    · have hnone : ¬ (c.bodyWithHeaders = true ∧ part ≠ []) := fun h => h.2 hpart
      simp only [c', if_neg hnone]
      rw [if_pos hpart]
      simp
    · simp only [c', part]
      rw [if_neg hpart]
      simp [part, hpart]
  unfold Conn.processRequest
  simp only [hparsed]
  rw [hfed, hparse]
  simp only [hlen, ne_eq, not_true_eq_false, if_false]

/-- With an upstream connection the request handler does nothing. -/
theorem requestHandler_connected {peer : UpstreamPeer} (hpeer : c.peer = some peer) (up : Bool) :
    c.requestHandler up = (c, .ok) := by
  have hsome : c.peer.isSome = true := by rw [hpeer, Option.isSome_some]
  rw [Conn.requestHandler, hsome, RequestUrls.requestHandler_connected]
  simp only [ne_eq, not_true_eq_false, false_and, if_false, Option.none_or]

/-- Headers without a body, or of which the content length is not known yet -/
theorem headersParsed_zero (hsize : parser.bodySize c.fed = 0) {peer : UpstreamPeer} (hpeer : c.peer = some peer)
    (buf up : Bool) (failed : Option ℕ) : c.headersParsed parser buf up failed = c.noteHeaders 0 := by
  have hserved : (c.noteHeaders 0).requestHandler up = (c.noteHeaders 0, .ok) :=
    requestHandler_connected (c := c.noteHeaders 0) hpeer up
  unfold Conn.headersParsed
  simp only [hsize, hserved, if_true]

theorem url_length_pos (d : Dialogue) : 0 < d.first.url.length := by
  rw [HttpRequest.url, d.first_path]
  split
  · decide
  · exact List.length_pos_iff.2 (by simp [uploadPath])

theorem query_ne_nil (d : Dialogue) : d.first.query ≠ [] := by
  intro hnil
  have hfinds := d.first_finds
  rw [hnil] at hfinds
  exact absurd hfinds (by decide)

theorem url_eq (d : Dialogue) : d.first.url = d.first.path ++ HttpRequest.questionMark :: d.first.query :=
  if_neg (query_ne_nil d)

/-- The first request around its URL -/
theorem bytes_eq_url (d : Dialogue) : ∃ behind, d.first.bytes = d.first.method ++ (d.first.url ++ behind) := by
  refine ⟨d.first.before ++ (d.first.digits.map (fun digit => BitVec.ofNat 8 (48 + digit.val)) ++
    (d.first.after ++ d.first.body)), ?_⟩
  simp only [HttpRequest.bytes, HttpRequest.header, HttpRequest.front, List.append_assoc]

/-- The calls for a piece that does not end inside the URL: the whole URL, a call without bytes behind it, or none -/
theorem onUrls_eq (hparser : parser.Correct d.first) {pos n : ℕ} {piece headersIn : List (BitVec 8)} {url : RequestUrl}
    (hlen : headersIn.length = pos) (hpiece : headersIn ++ piece = d.first.bytes.take (pos + n))
    (houtside : pos ≤ d.first.method.length ∨ d.first.urlEnd ≤ pos) (hurl : d.first.urlEnd ≤ pos → url = firstUrl d)
    (hend : d.first.urlEnd ≤ pos + n) :
    Conn.onUrls parser headersIn.length piece (d.first.urlCalls pos n) url = firstUrl d := by
  have hurlEnd : d.first.urlEnd = d.first.method.length + d.first.url.length := rfl
  have hpositive := url_length_pos d
  rw [hlen]
  rcases houtside with hbefore | hbehind
  · have hcalls : d.first.urlCalls pos n = [⟨d.first.method.length - pos, d.first.url.length⟩] := by
      have hmax : max pos d.first.method.length = d.first.method.length := by omega
      have hmin : min (pos + n) d.first.urlEnd - d.first.method.length = d.first.url.length := by omega
      simp only [HttpRequest.urlCalls, hmax, hmin]
      exact if_pos (by omega)
    have hdrop : piece.drop (d.first.method.length - pos) = (headersIn ++ piece).drop d.first.method.length := by
      have hnil : headersIn.drop d.first.method.length = [] := List.drop_eq_nil_of_le (by omega)
      rw [List.drop_append, hnil, hlen, List.nil_append]
    have hwhole : (piece.drop (d.first.method.length - pos)).take d.first.url.length = d.first.url := by
      obtain ⟨behind, hbytes⟩ := bytes_eq_url d
      rw [hdrop, hpiece, List.drop_take, hbytes, List.drop_left, List.take_take, Nat.min_eq_left (by omega),
        List.take_left]
    rw [hcalls, Conn.onUrls, List.foldl_cons, List.foldl_nil]
    simp only [hwhole]
    rw [hparser.parseUrl, if_neg (query_ne_nil d), Nat.add_sub_cancel' hbefore]
    rfl
  · rw [hurl hbehind]
    by_cases hexact : pos = d.first.urlEnd
    · have hcalls : d.first.urlCalls pos n = [⟨0, 0⟩] := by
        have hmax : max pos d.first.method.length = pos := by omega
        have hmin : min (pos + n) d.first.urlEnd - pos = 0 := by omega
        simp only [HttpRequest.urlCalls, hmax, hmin, Nat.sub_self]
        exact if_pos (by omega)
      rw [hcalls, Conn.onUrls, List.foldl_cons, List.foldl_nil]
      simp only [List.take_zero]
      rw [hparser.parseUrl_nil]
      rfl
    · have hcalls : d.first.urlCalls pos n = [] := if_neg (by omega)
      rw [hcalls]
      rfl

/-- The name server is asked. -/
theorem requestHandler_first (hquery : d.first.query.length < queryStrSize) (hpeer : c.peer = none)
    (hurl : c.url = firstUrl d) (hheaders : c.headersIn = endHeader d.first.bytes) :
    c.requestHandler true = ({ c with operation := some .upload, peer := some .nameServer }, .ok) := by
  obtain ⟨behind, hbytes⟩ := bytes_eq_url d
  rw [url_eq] at hbytes
  have hpath : Window.text c.headersIn ⟨d.first.method.length, d.first.path.length⟩ = uploadPath := by
    have htext : Window.text d.first.bytes ⟨d.first.method.length, d.first.path.length⟩ = d.first.path := by
      rw [hbytes, List.append_assoc]
      exact Window.text_append _ _ _
    rw [hheaders, Window.text_endHeader, htext, d.first_path]
    rw [htext, d.first_path]
    decide
  have hstr : queryStr c.headersIn c.url = d.first.query := by
    have htext : Window.text d.first.bytes
        ⟨d.first.method.length + (d.first.path.length + 1), d.first.query.length⟩ = d.first.query := by
      have hfront : d.first.bytes = (d.first.method ++ (d.first.path ++ [HttpRequest.questionMark])) ++
          (d.first.query ++ behind) := by
        rw [hbytes]
        simp only [List.append_assoc, List.cons_append, List.nil_append]
      have hlen : d.first.method.length + (d.first.path.length + 1) =
          (d.first.method ++ (d.first.path ++ [HttpRequest.questionMark])).length := by
        simp only [List.length_append, List.length_singleton]
      rw [hfront, hlen]
      exact Window.text_append _ _ _
    have hwindow : queryStr c.headersIn c.url = (Window.text (endHeader d.first.bytes)
        ⟨d.first.method.length + (d.first.path.length + 1), d.first.query.length⟩).takeWhile (· ≠ 0) := by
      rw [hheaders, hurl]
      rfl
    have hclean : carriageReturn ∉ Window.text d.first.bytes
        ⟨d.first.method.length + (d.first.path.length + 1), d.first.query.length⟩ := by
      rw [htext]
      exact d.first_query.2
    rw [hwindow, Window.text_endHeader hclean, htext, List.takeWhile_eq_self_iff]
    intro byte hbyte
    have hne : byte ≠ 0 := fun hzero => d.first_query.1 (hzero ▸ hbyte)
    simpa using hne
  have hpresent : c.url.requestPath = some ⟨d.first.method.length, d.first.path.length⟩ := by rw [hurl]; rfl
  have hhandled := requestHandler_upload hpresent hpath (by rw [hstr]; exact d.first_finds) (by rw [hstr]; exact hquery)
  have hnone : c.peer.isSome = false := by rw [hpeer, Option.isSome_none]
  rw [Conn.requestHandler, hnone, hhandled]
  rfl

theorem headersParsed_first (hquery : d.first.query.length < queryStrSize) (hsize : parser.bodySize c.fed = 0)
    (hpeer : c.peer = none) (hurl : c.url = firstUrl d) (hheaders : c.headersIn = d.first.bytes) (buf : Bool)
    (failed : Option ℕ) : c.headersParsed parser buf true failed =
      { c.noteHeaders 0 with operation := some .upload, peer := some .nameServer } := by
  have hserved : (c.noteHeaders 0).requestHandler true =
      ({ c.noteHeaders 0 with operation := some .upload, peer := some .nameServer }, .ok) :=
    requestHandler_first hquery hpeer hurl (congrArg endHeader hheaders)
  unfold Conn.headersParsed
  simp only [hsize, hserved, if_true]

theorem AwaitingFirst.recvHeader (h : AwaitingFirst d c) (hparser : parser.Correct d.first)
    (hquery : d.first.query.length < queryStrSize) {n : ℕ} {buf up : Bool} {failed : Option ℕ}
    (hen : Enabled d capacity c (.recvHeader n buf up failed))
    (hclean : Clean d capacity c (.recvHeader n buf up failed)) :
    AwaitingFirst d (step d parser capacity c (.recvHeader n buf up failed)) := by
  obtain ⟨-, -, -, hpositive, -, hn⟩ := hen
  obtain ⟨rfl, houtside⟩ : up = true ∧ (c.pos + n ≤ d.first.method.length ∨ d.first.urlEnd ≤ c.pos + n) := by
    rw [Clean, if_pos h.second] at hclean
    exact hclean
  have hstream : d.stream c = d.first.bytes := if_neg (by rw [h.second]; decide)
  have hlen := piece_length hn
  rw [hstream] at hn
  have htotal := bytes_length d.first
  rw [d.first_body, List.length_nil, Nat.add_zero] at htotal
  -- the headers are all of the request, so nothing is left behind them
  have hincomplete : c.headersParseCompleted = false := by
    by_contra hparsed
    have hle := h.parsed (eq_true_of_ne_false hparsed)
    omega
  obtain ⟨hheaders, hpeer⟩ := h.incomplete hincomplete
  have hpiece := take_piece (d := d) hn (hstream ▸ List.prefix_refl _)
  have heq := processRequest_eq hparser h.fed (htotal ▸ h.pos) hpositive hn hlen hpiece buf true failed
  rw [d.first_body] at heq
  simp only [List.take_nil, ne_eq, not_true_eq_false, and_false, if_false, hincomplete, Bool.false_or] at heq
  change AwaitingFirst d (c.processRequest parser (d.piece c n) buf true failed)
  rw [heq]
  rw [← hheaders] at hpiece
  have hheadersLen : c.headersIn.length = c.pos := by
    rw [hheaders, List.length_take]
    omega
  have hurl := onUrls_eq hparser hheadersLen hpiece h.outside h.url
  split
  · next hcomplete =>
    rw [decide_eq_true_eq] at hcomplete
    have hall : c.pos + n = d.first.bytes.length := by omega
    have hsize : parser.bodySize (d.first.bytes.take (c.pos + n)) = 0 := by
      have hfedLen : (d.first.bytes.take (c.pos + n)).length = c.pos + n := by
        rw [List.length_take]
        omega
      rw [hparser.bodySize _ (List.take_prefix _ _), hfedLen, bodySizeAt_of_le _ hcomplete.2, d.first_body]
      rfl
    have hend : d.first.urlEnd ≤ c.pos + n := by
      obtain ⟨behind, hbytes⟩ := bytes_eq_url d
      have hlength := congrArg List.length hbytes
      rw [List.length_append, List.length_append] at hlength
      rw [HttpRequest.urlEnd]
      omega
    rw [hall, List.take_length] at hpiece
    rw [headersParsed_first hquery hsize]
    · refine ⟨h.second, h.handler, h.control, hn, rfl, fun hc => ?_, fun _ => hcomplete.2, houtside, hurl, h.sent,
        h.completed, h.kept, h.served, h.inside⟩
      simp [Conn.noteHeaders, hcomplete] at hc
    · exact hpeer
    · exact hurl hend
    · exact hpiece
  · next hmore =>
    refine ⟨h.second, h.handler, h.control, hn, rfl, fun _ => ⟨hpiece, hpeer⟩, fun hc => absurd hc hmore, houtside,
      hurl, h.sent, h.completed, h.kept, h.served, h.inside⟩

/-- The first request is answered. -/
theorem AwaitingFirst.opened (h : AwaitingFirst d c) (hen : Enabled d capacity c .opened) :
    AwaitingHeaders d (step d parser capacity c .opened) := by
  obtain ⟨-, -, -, hpeer, -⟩ := hen
  have hparsed : c.headersParseCompleted = true := by
    by_contra hparsed
    rw [(h.incomplete (eq_false_of_ne_true hparsed)).2] at hpeer
    cases hpeer
  refine ⟨rfl, h.handler, h.control, header_pos d, ?_, hparsed, rfl, fun _ => rfl, rfl, rfl, h.sent, h.completed,
    h.kept, h.served, h.inside⟩
  exact List.take_zero.symm

/-! ## The headers of the second request -/

theorem send_none (hpeer : c.peer = some .dataServer) (data : List (BitVec 8)) :
    c.send none data = { c with sent := c.sent ++ data } := by
  rw [Conn.send, if_pos hpeer, Option.getD_none, List.take_length]

theorem sendBodyInHeaders_none (hpeer : c.peer = some .dataServer) (hlt : c.bodyInHeaders.length < c.bodySize) :
    c.sendBodyInHeaders none =
      { c with sent := c.sent ++ c.bodyInHeaders, bodySize := c.bodySize - c.bodyInHeaders.length } := by
  unfold Conn.sendBodyInHeaders
  split
  · next hnil =>
    have hsame : c.sent ++ c.bodyInHeaders = c.sent := by rw [hnil, List.append_nil]
    have hsize : c.bodySize - c.bodyInHeaders.length = c.bodySize := by rw [hnil, List.length_nil, Nat.sub_zero]
    rw [hsame, hsize]
  · rw [send_none hpeer]
    exact if_pos hlt

/-- A part of the body has come with the headers. -/
theorem headersParsed_body (hpeer : c.peer = some .dataServer) {size : ℕ} (hsize : parser.bodySize c.fed = size)
    (hlt : c.bodyInHeaders.length < size) (up : Bool) :
    c.headersParsed parser true up none = { c with
      headersIn := endHeader c.headersIn
      bodyWithHeaders := false
      bodySize := size - c.bodyInHeaders.length
      requestBody := []
      sent := c.sent ++ c.bodyInHeaders
      handler := .readClientRequestBody
      control := .body true } := by
  have hsome : size ≠ 0 := Nat.ne_zero_of_lt hlt
  have hserved : (c.noteHeaders size).requestHandler up = (c.noteHeaders size, .ok) :=
    requestHandler_connected (c := c.noteHeaders size) hpeer up
  unfold Conn.headersParsed
  simp only [hsize, hserved, hsome, if_false, if_true]
  rw [sendBodyInHeaders_none (c := { c.noteHeaders size with requestBody := [] }) hpeer hlt]
  rfl

theorem receiving_of_headersParsed {k : ℕ} (hsecond : c.second = true) (hpos : c.pos = d.second.header.length + k)
    (hk : k < d.second.body.length) (hsize : parser.bodySize c.fed = d.second.body.length) (hrecv : c.recvSize = 0)
    (hpeer : c.peer = some .dataServer) (hpart : c.bodyInHeaders = d.second.body.take k) (hsent : c.sent = [])
    (hcompleted : c.completed = false) (hkept : c.dropped = false) (hserved : c.refused = false)
    (hinside : c.stray = false) (up : Bool) : Receiving d capacity (c.headersParsed parser true up none) := by
  have htotal := bytes_length d.second
  have hlen : c.bodyInHeaders.length = k := by
    rw [hpart, List.length_take]
    omega
  rw [headersParsed_body hpeer hsize (hlen.trans_lt hk)]
  refine ⟨hsecond, rfl, ?_, ?_, ?_, Nat.zero_le _, ?_, hpeer, ?_, hcompleted, hkept, hserved,
    hinside⟩
  · intro hcontrol
    cases hcontrol
  · simp only
    omega
  · simp only
    omega
  · simp only [hlen, hrecv]
    omega
  · simp only [hsent, hpart, hpos, Nat.add_sub_cancel_left, List.nil_append, List.append_nil]

/-- The bytes of the body in the last piece of the headers are recorded, or there are none. -/
theorem AwaitingHeaders.recorded (h : AwaitingHeaders d c) {k : ℕ} (hk : k = 0 ∨ c.pos = 0) :
    (if c.bodyWithHeaders = true ∧ d.second.body.take k ≠ [] then d.second.body.take k else c.bodyInHeaders) =
      d.second.body.take k := by
  by_cases hnil : d.second.body.take k = []
  · rw [hnil, h.bodyInHeaders]
    exact if_neg fun hand => hand.2 rfl
  · obtain hzero | hfirst := hk
    · rw [hzero, List.take_zero] at hnil
      exact absurd rfl hnil
    · exact if_pos ⟨h.bodyWithHeaders hfirst, hnil⟩

theorem clean_second (hsecond : c.second = true) {n : ℕ} {buf up : Bool} {failed : Option ℕ}
    (hclean : Clean d capacity c (.recvHeader n buf up failed)) :
    if c.pos + n < d.second.header.length then d.second.bodySizeAt (c.pos + n) = 0
    else buf = true ∧ failed = none ∧ (c.pos + n = d.second.header.length ∨
      c.pos = 0 ∧ n < d.second.bytes.length) := by
  rwa [Clean, if_neg (by rw [hsecond]; decide)] at hclean

theorem AwaitingHeaders.recvHeader (h : AwaitingHeaders d c) (hparser : parser.Correct d.second)
    (hsmall : d.second.body.length < 2 ^ 32) {n : ℕ} {buf up : Bool} {failed : Option ℕ}
    (hen : Enabled d capacity c (.recvHeader n buf up failed))
    (hclean : Clean d capacity c (.recvHeader n buf up failed)) :
    Inv d capacity (step d parser capacity c (.recvHeader n buf up failed)) := by
  obtain ⟨-, -, -, hpositive, -, hn⟩ := hen
  have hclean := clean_second h.second hclean
  have hpos := h.pos
  have htotal := bytes_length d.second
  have hbody : 0 < d.second.body.length := List.length_pos_iff.2 d.second_body
  have hlen := piece_length hn
  have hfits : c.pos + n ≤ d.second.bytes.length := by
    split at hclean
    · omega
    · obtain ⟨-, -, hend | ⟨hfirst, hlt⟩⟩ := hclean
      · omega
      · omega
  have hstream : d.stream c = d.second.bytes ++ d.next := if_pos h.second
  have hpiece := take_piece (d := d) hfits (by rw [hstream]; exact List.prefix_append _ _)
  have heq := processRequest_eq hparser h.fed hpos.le hpositive hfits hlen hpiece buf up failed
  simp only [h.parsed, Bool.true_or, if_true] at heq
  change Inv d capacity (c.processRequest parser (d.piece c n) buf up failed)
  rw [heq]
  have hfedLen : (d.second.bytes.take (c.pos + n)).length = c.pos + n := by
    rw [List.length_take]
    omega
  have hsize := hparser.bodySize _ (List.take_prefix (c.pos + n) d.second.bytes)
  rw [hfedLen] at hsize
  by_cases hmore : c.pos + n < d.second.header.length
  · -- another piece is to come, and the block for complete headers does nothing yet
    rw [if_pos hmore] at hclean
    have hpart : d.second.body.take (c.pos + n - d.second.header.length) = [] := by
      rw [Nat.sub_eq_zero_of_le hmore.le, List.take_zero]
    rw [hpart]
    simp only [ne_eq, not_true_eq_false, and_false, if_false]
    rw [headersParsed_zero (hsize.trans hclean)]
    · refine .inr (.inl ⟨h.second, h.handler, h.control, hmore, rfl, rfl, h.bodyInHeaders, fun hzero => ?_,
        h.recvSize, h.peer, h.sent, h.completed, h.kept, h.served, h.inside⟩)
      simp only [Conn.noteHeaders] at hzero
      omega
    · exact h.peer
  · rw [if_neg hmore] at hclean
    obtain ⟨rfl, rfl, hend⟩ := hclean
    have hwhole : d.second.bodySizeAt (c.pos + n) = d.second.body.length := by
      rw [bodySizeAt_of_le _ (Nat.le_of_not_lt hmore), Nat.mod_eq_of_lt hsmall]
    rw [hwhole] at hsize
    obtain ⟨k, hk⟩ : ∃ k, c.pos + n - d.second.header.length = k := ⟨_, rfl⟩
    have hshort : k < d.second.body.length := by omega
    have hrecorded := h.recorded (k := k) (by omega)
    rw [hk]
    simp only [hrecorded]
    have hposition : c.pos + n = d.second.header.length + k := by omega
    refine .inr (.inr (.inl ?_))
    apply receiving_of_headersParsed (k := k)
    · exact h.second
    · exact hposition
    · exact hshort
    · exact hsize
    · exact h.recvSize
    · exact h.peer
    · rfl
    · exact h.sent
    · exact h.completed
    · exact h.kept
    · exact h.served
    · exact h.inside

/-! ## The body -/

theorem Receiving.writeFull (h : Receiving d capacity c) : Receiving d capacity (c.writeFull capacity none) := by
  unfold Conn.writeFull
  split
  · rw [send_none h.peer]
    refine ⟨h.second, h.handler, h.control, h.lower, h.upper, Nat.zero_le _, h.bodySize, h.peer, ?_, h.completed,
      h.kept, h.served, h.inside⟩
    exact (List.append_nil _).trans h.taken
  · exact h

theorem Receiving.leaveBody (h : Receiving d capacity c) : Receiving d capacity { c.leaveBody with ready := false } :=
  ⟨h.second, h.handler, fun _ => rfl, h.lower, h.upper, h.room, h.bodySize, h.peer, h.taken, h.completed, h.kept,
    h.served, h.inside⟩

theorem writeFull_eq (c : Conn) (capacity : ℕ) (failed : Option ℕ) : ∃ sent requestBody,
    c.writeFull capacity failed = { c with sent := sent, requestBody := requestBody } := by
  unfold Conn.writeFull Conn.send
  split
  · split
    · exact ⟨_, _, rfl⟩
    · exact ⟨_, _, rfl⟩
  · exact ⟨_, _, rfl⟩

/-- A piece of the body is its next bytes. -/
theorem Receiving.take_body (h : Receiving d capacity c) {n : ℕ} (hn : c.pos + n ≤ d.second.bytes.length) :
    d.second.body.take (c.pos - d.second.header.length) ++ d.piece c n =
      d.second.body.take (c.pos + n - d.second.header.length) := by
  have hstream : d.stream c = d.second.bytes ++ d.next := if_pos h.second
  have hlower := h.lower
  have htaken := take_piece (d := d) hn (by rw [hstream]; exact List.prefix_append _ _)
  have hdrop (k : ℕ) : (d.second.bytes.take k).drop d.second.header.length =
      d.second.body.take (k - d.second.header.length) := by
    rw [List.drop_take, HttpRequest.bytes, List.drop_left]
  rw [← hdrop, ← hdrop, ← htaken, List.drop_append_of_le_length]
  rw [List.length_take]
  omega

theorem Receiving.readBody (h : Receiving d capacity c) (hbody : InBody c) {n : ℕ} (hpositive : 0 < n)
    (hroom : c.requestBody.length + n ≤ capacity) (hlen : (d.piece c n).length = n)
    (hn : c.pos + n ≤ d.second.bytes.length) : Inv d capacity (c.readBody (d.piece c n) none) := by
  have htaken := h.take_body hn
  have hsize := h.bodySize
  have hlower := h.lower
  have htotal := bytes_length d.second
  rw [← h.taken, List.append_assoc] at htaken
  unfold Conn.readBody
  simp only [hlen]
  split
  · next hend =>
    refine .inr (.inr (.inr ?_))
    rw [send_none (c := { c with
      requestBody := c.requestBody ++ d.piece c n, recvSize := c.recvSize + n, pos := c.pos + n }) h.peer]
    refine ⟨h.second, h.handler, ?_, ?_, rfl, h.kept, h.served, h.inside⟩
    · simp only [Conn.leaveBody]
      omega
    · change c.sent ++ (c.requestBody ++ d.piece c n) = d.second.body
      rw [htaken]
      exact List.take_of_length_le (by omega)
  · next hmore =>
    refine .inr (.inr (.inl ?_))
    refine ⟨h.second, h.handler, fun hheader => ?_, ?_, ?_, ?_, ?_, h.peer, htaken, h.completed, h.kept, h.served,
      h.inside⟩
    · obtain hnested | hdirect := hbody
      · exact absurd (hnested.symm.trans hheader) (by decide)
      · exact absurd (hdirect.symm.trans hheader) (by decide)
    · exact hlower.trans (Nat.le_add_right _ _)
    · simp only
      omega
    · simp only [List.length_append, hlen]
      exact hroom
    · simp only
      omega

/-! ## After the body -/

theorem Done.writeFull (h : Done d c) (hkeep : c.requestBody.length ≠ capacity ∨ c.peer = none) :
    Done d (c.writeFull capacity none) := by
  unfold Conn.writeFull
  split
  · next hfull =>
    have hpeer : c.peer = none := hkeep.resolve_left fun hne => hne hfull
    rw [Conn.send, if_neg (by rw [hpeer]; exact fun hnone => by cases hnone)]
    exact ⟨h.second, h.handler, h.pos, h.sent, h.completed, h.kept, h.served, h.inside⟩
  · exact h

/-! ## Whole runs -/

theorem control_of_not_inBody (hcontrol : ¬ InBody c) : c.control = .idle ∨ c.control = .header := by
  unfold InBody at hcontrol
  match hc : c.control with
  | .idle => exact .inl rfl
  | .header => exact .inr rfl
  | .body true => exact absurd (.inl hc) hcontrol
  | .body false => exact absurd (.inr hc) hcontrol

/-- While the request handler is in place, an event does not lead into the body. -/
theorem not_inBody_event (hhandler : c.handler = .processRequest) :
    ¬ InBody (step d parser capacity c .event) := by
  simp only [InBody, step, hhandler, if_true]
  decide

theorem step_close (hcontrol : ¬ InBody c) (failed : Option ℕ) :
    step d parser capacity c (.close failed) = { c with closed := true } := by
  simp only [step, if_pos (control_of_not_inBody hcontrol)]

theorem AwaitingFirst.step (h : AwaitingFirst d c) (hparser : parser.Correct d.first)
    (hquery : d.first.query.length < queryStrSize) {a : Action}
    (hen : Enabled d capacity c a) (hclean : Clean d capacity c a) :
    Inv d capacity (step d parser capacity c a) := by
  have hkeep {c' : Conn} (hcontrol : ¬ InBody c') (hsame : c' = { c with
      control := c'.control, ready := c'.ready, closed := c'.closed }) : Inv d capacity c' := by
    rw [hsame]
    exact .inl ⟨h.second, h.handler, hcontrol, h.pos, h.fed, h.incomplete, h.parsed, h.outside, h.url, h.sent,
      h.completed, h.kept, h.served, h.inside⟩
  match a with
  | .event => exact hkeep (not_inBody_event h.handler) rfl
  | .recvHeader n buf up failed => exact .inl (h.recvHeader hparser hquery hen hclean)
  | .headerAgain => exact hkeep (by simp [UploadStream.step, InBody]) rfl
  | .full => exact hclean.elim
  | .opened => exact .inr (.inl (h.opened hen))
  | .recvBody n failed failed' => exact absurd hen.2.1 h.control
  | .bodyAgain failed => exact absurd hen.2 h.control
  | .close failed =>
    rw [step_close h.control]
    exact hkeep h.control rfl
  | .answered => exact (Bool.false_ne_true (h.second.symm.trans hen.2.2.1)).elim

theorem AwaitingHeaders.step (h : AwaitingHeaders d c) (hparser : parser.Correct d.second)
    (hsmall : d.second.body.length < 2 ^ 32) {a : Action} (hen : Enabled d capacity c a)
    (hclean : Clean d capacity c a) : Inv d capacity (step d parser capacity c a) := by
  have hkeep {c' : Conn} (hcontrol : ¬ InBody c') (hsame : c' = { c with
      control := c'.control, ready := c'.ready, closed := c'.closed }) : Inv d capacity c' := by
    rw [hsame]
    exact .inr (.inl ⟨h.second, h.handler, hcontrol, h.pos, h.fed, h.parsed, h.bodyInHeaders, h.bodyWithHeaders,
      h.recvSize, h.peer, h.sent, h.completed, h.kept, h.served, h.inside⟩)
  match a with
  | .event => exact hkeep (not_inBody_event h.handler) rfl
  | .recvHeader n buf up failed => exact h.recvHeader hparser hsmall hen hclean
  | .headerAgain => exact hkeep (by simp [UploadStream.step, InBody]) rfl
  | .full => exact hclean.elim
  | .opened => exact (Bool.false_ne_true (hen.2.2.1.symm.trans h.second)).elim
  | .recvBody n failed failed' => exact absurd hen.2.1 h.control
  | .bodyAgain failed => exact absurd hen.2 h.control
  | .close failed =>
    rw [step_close h.control]
    exact hkeep h.control rfl
  | .answered =>
    have hpos := h.pos
    have htotal := bytes_length d.second
    have hend : d.second.bytes.length ≤ c.pos := hclean
    omega

theorem Receiving.step (h : Receiving d capacity c) {a : Action} (hen : Enabled d capacity c a)
    (hclean : Clean d capacity c a) : Inv d capacity (step d parser capacity c a) := by
  have hkeep {c' : Conn} (hcontrol : c'.control = .header → c'.ready = false) (hsame : c' = { c with
      control := c'.control, ready := c'.ready, closed := c'.closed }) : Inv d capacity c' := by
    rw [hsame]
    exact .inr (.inr (.inl ⟨h.second, h.handler, hcontrol, h.lower, h.upper, h.room, h.bodySize, h.peer, h.taken,
      h.completed, h.kept, h.served, h.inside⟩))
  match a with
  | .event =>
    refine hkeep (fun hheader => ?_) rfl
    simp [UploadStream.step, h.handler] at hheader
  | .recvHeader n buf up failed =>
    obtain ⟨-, hheader, hready, -⟩ := hen
    exact (Bool.false_ne_true ((h.control hheader).symm.trans hready)).elim
  | .headerAgain => exact hkeep (fun _ => rfl) rfl
  | .full => exact hclean.elim
  | .opened => exact (Bool.false_ne_true (hen.2.2.1.symm.trans h.second)).elim
  | .recvBody n failed failed' =>
    obtain ⟨rfl, rfl, hn⟩ := hclean
    obtain ⟨-, hbody, -, hpositive, hroom, hin⟩ := hen
    have hlen := piece_length hin
    have hwritten := h.writeFull
    obtain ⟨sent, requestBody, heq⟩ := writeFull_eq c capacity none
    simp only [UploadStream.step]
    rw [heq] at hroom hwritten ⊢
    exact hwritten.readBody hbody hpositive hroom hlen hn
  | .bodyAgain failed =>
    obtain ⟨rfl, -⟩ := hclean
    exact .inr (.inr (.inl h.writeFull.leaveBody))
  | .close failed =>
    obtain ⟨rfl, -⟩ := hclean
    simp only [UploadStream.step]
    split
    · exact hkeep h.control rfl
    · have h' := h.writeFull
      exact .inr (.inr (.inl ⟨h'.second, h'.handler, h'.control, h'.lower, h'.upper, h'.room, h'.bodySize, h'.peer,
        h'.taken, h'.completed, h'.kept, h'.served, h'.inside⟩))
  | .answered =>
    have hupper := h.upper
    have hend : d.second.bytes.length ≤ c.pos := hclean
    omega

theorem Done.step (h : Done d c) {a : Action} (hen : Enabled d capacity c a) (hclean : Clean d capacity c a) :
    Inv d capacity (step d parser capacity c a) := by
  refine .inr (.inr (.inr ?_))
  have hpos := h.pos
  have htotal := bytes_length d.second
  have hbody : 0 < d.second.body.length := List.length_pos_iff.2 d.second_body
  match a with
  | .event => exact ⟨h.second, h.handler, h.pos, h.sent, h.completed, h.kept, h.served, h.inside⟩
  | .recvHeader n buf up failed =>
    obtain ⟨-, -, -, hpositive, -⟩ := hen
    have hclean := clean_second h.second hclean
    rw [if_neg (by omega)] at hclean
    obtain ⟨-, -, hend | hend⟩ := hclean
    · omega
    · omega
  | .headerAgain => exact ⟨h.second, h.handler, h.pos, h.sent, h.completed, h.kept, h.served, h.inside⟩
  | .full => exact hclean.elim
  | .opened => exact (Bool.false_ne_true (hen.2.2.1.symm.trans h.second)).elim
  | .recvBody n failed failed' =>
    obtain ⟨-, -, hn⟩ := hclean
    obtain ⟨-, -, -, hpositive, -⟩ := hen
    omega
  | .bodyAgain failed =>
    obtain ⟨rfl, hkeep⟩ := hclean
    have h' := h.writeFull (hkeep h.completed)
    exact ⟨h'.second, h'.handler, h'.pos, h'.sent, h'.completed, h'.kept, h'.served, h'.inside⟩
  | .close failed =>
    obtain ⟨rfl, hkeep⟩ := hclean
    simp only [UploadStream.step]
    split
    · exact ⟨h.second, h.handler, h.pos, h.sent, h.completed, h.kept, h.served, h.inside⟩
    · next hin =>
      have hkept : c.requestBody.length ≠ capacity ∨ c.peer = none := by
        obtain hfull | hnone | hout := hkeep h.completed
        · exact .inl hfull
        · exact .inr hnone
        · exact absurd (control_of_not_inBody hout) hin
      have h' := h.writeFull hkept
      exact ⟨h'.second, h'.handler, h'.pos, h'.sent, h'.completed, h'.kept, h'.served, h'.inside⟩
  | .answered => exact ⟨h.second, h.handler, h.pos, h.sent, h.completed, h.kept, h.served, h.inside⟩

theorem Inv.step (h : Inv d capacity c) (hfirst : parser.Correct d.first) (hsecond : parser.Correct d.second)
    (hquery : d.first.query.length < queryStrSize) (hsmall : d.second.body.length < 2 ^ 32) {a : Action}
    (hen : Enabled d capacity c a) (hclean : Clean d capacity c a) : Inv d capacity (step d parser capacity c a) := by
  obtain h | h | h | h := h
  · exact h.step hfirst hquery hen hclean
  · exact h.step hsecond hsmall hen hclean
  · exact h.step hen hclean
  · exact h.step hen hclean

theorem inv_start (d : Dialogue) (capacity : ℕ) : Inv d capacity {} := by
  refine .inl ⟨rfl, rfl, ?_, Nat.zero_le _, List.take_zero.symm, ?_, ?_, .inl (Nat.zero_le _), fun hend => ?_, rfl, rfl,
    rfl, rfl, rfl⟩
  · simp [InBody]
  · simp
  · simp
  · have hpositive := url_length_pos d
    change d.first.method.length + d.first.url.length ≤ 0 at hend
    omega

/-- A run that stays clear of the defects is exact. -/
theorem upload_exact (hfirst : parser.Correct d.first) (hsecond : parser.Correct d.second)
    (hquery : d.first.query.length < queryStrSize) (hsmall : d.second.body.length < 2 ^ 32) {as : List Action}
    (hrun : Reaches (ofFun (step d parser capacity)) (fun c a => Enabled d capacity c a ∧ Clean d capacity c a)
      {} as c) : Correct d c := by
  have hinv : Inv d capacity c := by
    refine hrun.invariant ?_ (inv_start d capacity)
    intro c a c' h hok htaken
    rw [← htaken]
    exact h.step hfirst hsecond hquery hsmall hok.1 hok.2
  exact hinv.correct

/-! ## A dialogue of two requests -/

def openRequest : HttpRequest where
  method := ascii "GET "
  path := ascii "/storage/v1/upload"
  query := ascii "filename=a&filesize=2&blocksize=2&filehash=00&blocknumber=1&blockindex=0"
  before := ascii " HTTP/1.1\r\n\r\n"
  digits := []
  after := []
  body := []
  length := rfl

def bodyRequest : HttpRequest where
  method := ascii "PUT "
  path := ascii "/storage/v1/upload"
  query := []
  before := ascii " HTTP/1.1\r\nContent-Length: "
  digits := [2]
  after := ascii "\r\n\r\n"
  body := ascii "ab"
  length := by decide

def twoRequests : Dialogue where
  first := openRequest
  second := bodyRequest
  next := []
  first_body := rfl
  first_path := rfl
  first_finds := by decide +kernel
  first_query := by decide +kernel
  second_body := by decide

/-- The callbacks for these two requests, told apart by their first byte -/
def requestOf (bytes : List (BitVec 8)) : HttpRequest :=
  if bytes.head? = some 71 then openRequest else bodyRequest

/-- The path and the query of a URL that begins with a slash. What begins with another character has neither. -/
def splitUrl (url : List (BitVec 8)) : UrlFields :=
  if url.head? = some Routing.slash then
    let path := url.takeWhile (· ≠ HttpRequest.questionMark)
    let query := url.drop (path.length + 1)
    ⟨some ⟨0, path.length⟩, if query = [] then none else some ⟨path.length + 1, query.length⟩⟩
  else ⟨none, none⟩

def twoRequestsParser : HttpParser where
  parse fed piece :=
    let request := requestOf (fed ++ piece)
    let part := bodyPart request fed piece
    ⟨piece.length, request.urlCalls fed.length piece.length,
      decide (fed.length < request.header.length ∧ request.header.length ≤ fed.length + piece.length),
      if part = [] then [] else [part]⟩
  bodySize fed := (requestOf fed).bodySizeAt fed.length
  parseUrl := splitUrl

theorem requestOf_prefix {request : HttpRequest} {bytes : List (BitVec 8)} (hne : bytes ≠ [])
    (hfront : bytes <+: request.bytes) (hrequest : requestOf request.bytes = request) :
    requestOf bytes = request := by
  have hhead : bytes.head? = request.bytes.head? := by
    obtain ⟨rest, hrest⟩ := hfront
    rw [← hrest, List.head?_append_of_ne_nil _ hne]
  unfold requestOf at hrequest ⊢
  rw [hhead, hrequest]

theorem twoRequestsParser_correct {request : HttpRequest} (hrequest : requestOf request.bytes = request)
    (hurl : splitUrl request.url = ⟨some ⟨0, request.path.length⟩,
      if request.query = [] then none else some ⟨request.path.length + 1, request.query.length⟩⟩) :
    twoRequestsParser.Correct request := by
  refine ⟨fun fed piece hne hfront => ?_, fun fed hfront => ?_, hurl, rfl⟩
  · have hboth : fed ++ piece ≠ [] := List.append_ne_nil_of_right_ne_nil _ hne
    simp only [twoRequestsParser, requestOf_prefix hboth hfront hrequest]
  · by_cases hnil : fed = []
    · rw [hnil]
      simp [twoRequestsParser, HttpRequest.bodySizeAt]
    · simp only [twoRequestsParser, requestOf_prefix hnil hfront hrequest]

theorem openRequest_correct : twoRequestsParser.Correct openRequest :=
  twoRequestsParser_correct (if_pos (by decide)) (by decide +kernel)

theorem bodyRequest_correct : twoRequestsParser.Correct bodyRequest :=
  twoRequestsParser_correct (if_neg (by decide)) (by decide +kernel)

/-- The first request comes in two pieces, of which the first ends at the end of its URL. The first byte of the body
comes with the headers, the second behind them. -/
def inPieces : List Action :=
  [.event, .recvHeader openRequest.urlEnd true true none,
    .recvHeader (openRequest.bytes.length - openRequest.urlEnd) true true none, .headerAgain, .opened, .event,
    .recvHeader (bodyRequest.header.length + 1) true true none, .recvBody 1 none none, .headerAgain, .answered]

theorem upload_exact_two_pieces : ∃ c, Reaches (ofFun (step twoRequests twoRequestsParser 16))
    (fun c a => Enabled twoRequests 16 c a ∧ Clean twoRequests 16 c a) {} inPieces c ∧
    c.completed = true ∧ Correct twoRequests c := by
  have hall : allAllowed (step twoRequests twoRequestsParser 16)
      (fun c a => Enabled twoRequests 16 c a ∧ Clean twoRequests 16 c a) {} inPieces ∧
      (inPieces.foldl (step twoRequests twoRequestsParser 16) {}).completed = true := by decide +kernel
  have hrun := reaches_of_allAllowed _ _ _ _ hall.1
  exact ⟨_, hrun, hall.2, upload_exact openRequest_correct bodyRequest_correct (by decide) (by decide) hrun⟩

/-- The whole body comes with the headers. -/
def inOnePiece : List Action :=
  [.event, .recvHeader openRequest.bytes.length true true none, .headerAgain, .opened, .event,
    .recvHeader bodyRequest.bytes.length true true none, .bodyAgain none, .headerAgain]

/-- The URL of the first request is cut behind the name of its second parameter. -/
def inUrlPieces : List Action :=
  [.event, .recvHeader 41 true true none, .recvHeader (openRequest.bytes.length - 41) true true none]

/-- `body_size` is not reduced then, and the proxy waits for as many bytes again. And a request that is cut inside its
URL is refused. -/
theorem whole_body_with_headers : twoRequestsParser.Correct twoRequests.first ∧
    twoRequestsParser.Correct twoRequests.second ∧
    (∃ c, Reaches (ofFun (step twoRequests twoRequestsParser 16)) (Enabled twoRequests 16) {} inOnePiece c ∧
      c.completed = false ∧ ¬ Correct twoRequests c) ∧
    ∃ c, Reaches (ofFun (step twoRequests twoRequestsParser 16)) (Enabled twoRequests 16) {} inUrlPieces c ∧
      c.refused = true ∧ ¬ Correct twoRequests c := by
  have hall : allAllowed (step twoRequests twoRequestsParser 16) (Enabled twoRequests 16) {} inOnePiece ∧
      (inOnePiece.foldl (step twoRequests twoRequestsParser 16) {}).completed = false ∧
      (inOnePiece.foldl (step twoRequests twoRequestsParser 16) {}).second = true ∧
      twoRequests.second.bytes.length ≤ (inOnePiece.foldl (step twoRequests twoRequestsParser 16) {}).pos := by
    decide +kernel
  have hcut : allAllowed (step twoRequests twoRequestsParser 16) (Enabled twoRequests 16) {} inUrlPieces ∧
      (inUrlPieces.foldl (step twoRequests twoRequestsParser 16) {}).refused = true := by
    decide +kernel
  obtain ⟨hrun, hwaiting, hsecond, hpos⟩ := hall
  refine ⟨openRequest_correct, bodyRequest_correct, ⟨_, reaches_of_allAllowed _ _ _ _ hrun, hwaiting, fun h => ?_⟩,
    ⟨_, reaches_of_allAllowed _ _ _ _ hcut.1, hcut.2, fun h => ?_⟩⟩
  · exact Bool.false_ne_true (hwaiting.symm.trans (h.detected.2 ⟨hsecond, hpos⟩))
  · exact Bool.false_ne_true (h.served.symm.trans hcut.2)

end Tefs.Proxy.UploadStream
