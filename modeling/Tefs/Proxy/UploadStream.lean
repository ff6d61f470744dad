import Mathlib.Algebra.Order.Ring.Int
import Mathlib.Algebra.Order.Ring.Nat
import Mathlib.Data.Fin.Basic
import Mathlib.Data.List.Basic
import Tefs.Lib.Runs
import Tefs.Proxy.RequestUrl

/-! # An upload through the proxy

Source: `gvfs_http_process_request`, `gvfs_http_request_handler`, `gvfs_http_reinit_request` and
`gvfs_http_finalize_request` of `gvfsproxy/src/http/gvfs_http_request.c`, `gvfs_http_request_body.c`,
`gvfs_http_on_url`, `gvfs_http_on_headers_complete` and `gvfs_http_on_body` of `gvfs_http_parse_cb.c`,
`gvfs_ns_process_response_body` and `gvfs_ds_process_respodse_header` of `src/private`.

A request without a body makes the proxy connect to a data server; the next request on the connection has the
body. Its bytes come to `headers_in` until the headers are parsed, and to `request_body` from there on. The
handler of the connection is changed when the body begins, and never changed back.

The HTTP parser is a parameter: what it calls back for a piece depends on the bytes it was given before. The URL comes
in as many calls as it has pieces, and each call finds the path and the query of its piece only.
-/

namespace Tefs.Proxy.UploadStream
open Runs RequestUrls
set_option autoImplicit false

/-! ## Requests and the parser -/

def decimal (digits : List (Fin 10)) : ℕ := digits.foldl (fun n d => n * 10 + d.val) 0

/-- A request, cut around its URL and the digits of its content length. The method has the blank behind it. A request
without a content length has no digits, and one without parameters no query. -/
structure HttpRequest where
  method : List (BitVec 8)
  path : List (BitVec 8)
  query : List (BitVec 8)
  before : List (BitVec 8)
  digits : List (Fin 10)
  after : List (BitVec 8)
  body : List (BitVec 8)
  length : decimal digits = body.length

namespace HttpRequest

def questionMark : BitVec 8 := 63

def url (request : HttpRequest) : List (BitVec 8) :=
  if request.query = [] then request.path else request.path ++ questionMark :: request.query

/-- Up to the digits -/
def front (request : HttpRequest) : List (BitVec 8) := request.method ++ (request.url ++ request.before)

def header (request : HttpRequest) : List (BitVec 8) :=
  request.front ++ request.digits.map (fun d => BitVec.ofNat 8 (48 + d.val)) ++ request.after

def bytes (request : HttpRequest) : List (BitVec 8) := request.header ++ request.body

/-- `body_size` of the parser, an `unsigned int`, after `k` bytes of the request -/
def bodySizeAt (request : HttpRequest) (k : ℕ) : ℕ :=
  decimal (request.digits.take (k - request.front.length)) % 2 ^ 32

def urlEnd (request : HttpRequest) : ℕ := request.method.length + request.url.length

/-- The calls of `on_url` for `n` bytes from `pos` on. One that begins right behind the URL has a call without bytes. -/
def urlCalls (request : HttpRequest) (pos n : ℕ) : List Window :=
  let first := max pos request.method.length
  if request.method.length < pos + n ∧ pos ≤ request.urlEnd then
    [⟨first - pos, min (pos + n) request.urlEnd - first⟩]
  else []

end HttpRequest

/-- What `gvfs_http_parse` returns and calls for a piece: the calls of `on_url` with the places in the piece, and those
of `on_body` with their bytes -/
structure ParseResult where
  consumed : ℕ
  urls : List Window
  headersComplete : Bool
  bodies : List (List (BitVec 8))
  deriving DecidableEq, Repr

/-- `fed` is what the parser was given since `gvfs_http_parse_init`, and `parseUrl` is `gvfs_http_parse_url`. -/
structure HttpParser where
  parse : (fed piece : List (BitVec 8)) → ParseResult
  bodySize : (fed : List (BitVec 8)) → ℕ
  parseUrl : (url : List (BitVec 8)) → UrlFields

/-- The bytes of the body in `piece` -/
def bodyPart (request : HttpRequest) (fed piece : List (BitVec 8)) : List (BitVec 8) :=
  (fed ++ piece).drop (max fed.length request.header.length)

/-- The parser calls its callbacks correctly, however the request is cut. Of a URL it finds the path and the query if it
is given the whole, and nothing in one without bytes. -/
structure HttpParser.Correct (parser : HttpParser) (request : HttpRequest) : Prop where
  parse : ∀ fed piece, piece ≠ [] → fed ++ piece <+: request.bytes →
    parser.parse fed piece =
      ⟨piece.length, request.urlCalls fed.length piece.length, decide (fed.length < request.header.length ∧
          request.header.length ≤ fed.length + piece.length),
        if bodyPart request fed piece = [] then [] else [bodyPart request fed piece]⟩
  bodySize : ∀ fed, fed <+: request.bytes → parser.bodySize fed = request.bodySizeAt fed.length
  parseUrl : parser.parseUrl request.url =
    ⟨some ⟨0, request.path.length⟩,
      if request.query = [] then none else some ⟨request.path.length + 1, request.query.length⟩⟩
  parseUrl_nil : parser.parseUrl [] = ⟨none, none⟩

/-! ## The connection -/

inductive Handler
  | processRequest
  | readClientRequestBody
  deriving DecidableEq, Repr

/-- The loop a call is in. The body handler may have been called by `gvfs_http_process_request`, whose loop
goes on when it returns. -/
inductive Control
  | idle
  | header
  | body (nested : Bool)
  deriving DecidableEq, Repr

/-- `upstream->peer.connection` -/
inductive UpstreamPeer
  | nameServer
  | dataServer
  deriving DecidableEq, Repr

/-- `second` says that the first request has been answered. `pos` counts the bytes taken from the client since
then (or since the beginning), `sent` is what the data server was sent after its PUT request, `completed`
says that the end of the body was seen, `dropped` that the connection was closed by the proxy, `refused` that the proxy
answered a request with an error, and `stray` that it went for memory that is not there. -/
structure Conn where
  handler : Handler := .processRequest
  control : Control := .idle
  ready : Bool := false
  headersParseCompleted : Bool := false
  bodyWithHeaders : Bool := true
  bodyInHeaders : List (BitVec 8) := []
  bodySize : ℕ := 0
  recvSize : ℕ := 0
  headersIn : List (BitVec 8) := []
  fed : List (BitVec 8) := []
  requestBody : List (BitVec 8) := []
  url : RequestUrl := {}
  operation : Option Routing.Operation := none
  peer : Option UpstreamPeer := none
  closed : Bool := false
  second : Bool := false
  pos : ℕ := 0
  sent : List (BitVec 8) := []
  completed : Bool := false
  dropped : Bool := false
  refused : Bool := false
  stray : Bool := false
  deriving DecidableEq, Repr

/-- `HTTP_MAIN_CHUNK_SIZE`, the size of `headers_in` -/
def mainChunkSize : ℕ := 1024

namespace Conn

/-- `gvfs_http_reinit_request` -/
def reinit (c : Conn) : Conn :=
  { c with
    bodySize := 0, recvSize := 0, bodyWithHeaders := true, bodyInHeaders := [], headersIn := [], fed := [] }

/-- `gvfs_completed_send`, which takes all of `data` or fails after some bytes. Nothing is sent without a
connection. -/
def send (failed : Option ℕ) (data : List (BitVec 8)) (c : Conn) : Conn :=
  if c.peer = some .dataServer then { c with sent := c.sent ++ data.take (failed.getD data.length) } else c

/-- The calls of `gvfs_http_on_url` for a piece that comes to `place` -/
def onUrls (parser : HttpParser) (place : ℕ) (piece : List (BitVec 8)) (urls : List Window) (url : RequestUrl) :
    RequestUrl :=
  urls.foldl (fun url call =>
    onUrl (place + call.start) (parser.parseUrl ((piece.drop call.start).take call.length)) url) url

/-- A piece is read into `headers_in` and parsed. -/
def parsePiece (parser : HttpParser) (piece : List (BitVec 8)) (c : Conn) : Conn :=
  let result := parser.parse c.fed piece
  { c with
    headersIn := c.headersIn ++ piece
    url := onUrls parser c.headersIn.length piece result.urls c.url
    pos := c.pos + piece.length
    fed := c.fed ++ piece
    headersParseCompleted := c.headersParseCompleted || result.headersComplete
    bodyInHeaders := if c.bodyWithHeaders then result.bodies.getLast?.getD c.bodyInHeaders
      else c.bodyInHeaders }

/-- `gvfs_http_request_handler`. Each operation connects to the name server. -/
def requestHandler (up : Bool) (c : Conn) : Conn × Routing.Status :=
  match RequestUrls.requestHandler c.headersIn c.url c.peer.isSome up with
  | none => ({ c with stray := true }, .error)
  | some handled =>
    ({ c with
        operation := handled.called.or c.operation
        peer := if handled.called ≠ none ∧ handled.rc = .ok then some .nameServer else c.peer }, handled.rc)

/-- The end of `gvfs_http_process_request`, with an error for the client -/
def toClient (c : Conn) : Conn := { c.reinit with control := .idle, refused := true }

/-- The bytes of the body that came with the headers -/
def sendBodyInHeaders (failed : Option ℕ) (c : Conn) : Conn :=
  if c.bodyInHeaders = [] then c
  else
    let c := c.send failed c.bodyInHeaders
    if c.bodyInHeaders.length < c.bodySize then { c with bodySize := c.bodySize - c.bodyInHeaders.length } else c

/-- What is stored before the request handler is called -/
def noteHeaders (bodySize : ℕ) (c : Conn) : Conn :=
  { c with headersIn := endHeader c.headersIn, bodyWithHeaders := false, bodySize := bodySize }

/-- The block under `if (r->headers_parse_completed)`; `buf` says that a body buffer was free and the read event
could be deleted. -/
def headersParsed (parser : HttpParser) (buf up : Bool) (failed : Option ℕ) (c : Conn) : Conn :=
  let bodySize := parser.bodySize c.fed
  match (c.noteHeaders bodySize).requestHandler up with
  | (c, .error) => c.toClient
  | (c, .ok) =>
    if bodySize = 0 then c
    else if buf then
      { { c with requestBody := [] }.sendBodyInHeaders failed with
        handler := .readClientRequestBody, control := .body true }
    else c.toClient

/-- A turn of the loop of `gvfs_http_process_request` that reads `piece` -/
def processRequest (parser : HttpParser) (piece : List (BitVec 8)) (buf up : Bool) (failed : Option ℕ) (c : Conn) :
    Conn :=
  let consumed := (parser.parse c.fed piece).consumed
  let c := c.parsePiece parser piece
  if consumed ≠ piece.length then { c.reinit with closed := true, dropped := true }
  else if c.headersParseCompleted then c.headersParsed parser buf up failed
  else c

/-- The start of a turn of the loop of `gvfs_http_do_read_client_request_body`, with a buffer of `capacity`
bytes -/
def writeFull (capacity : ℕ) (failed : Option ℕ) (c : Conn) : Conn :=
  if c.requestBody.length = capacity then { c.send failed c.requestBody with requestBody := [] } else c

/-- The body handler returns. -/
def leaveBody (c : Conn) : Conn :=
  { c with control := if c.control = .body true then .header else .idle }

/-- The rest of the turn when it reads `piece` -/
def readBody (piece : List (BitVec 8)) (failed : Option ℕ) (c : Conn) : Conn :=
  let c := { c with
    requestBody := c.requestBody ++ piece, recvSize := c.recvSize + piece.length, pos := c.pos + piece.length }
  if c.bodySize = c.recvSize then { c.send failed c.requestBody with completed := true }.leaveBody else c

end Conn

/-! ## Runs -/

/-- The first request asks for an upload with all its parameters, and `next` is what the client sends behind the
second. -/
structure Dialogue where
  first : HttpRequest
  second : HttpRequest
  next : List (BitVec 8)
  first_body : first.body = []
  first_path : first.path = uploadPath
  first_finds : uploadFinds first.query = true
  first_query : 0 ∉ first.query ∧ carriageReturn ∉ first.query
  second_body : second.body ≠ []

/-- `up` says that the name server took a request. `full` is a `recv` into a `headers_in` without room, which returns 0
like that of a closed connection.
`opened`: the name server has answered, the data server has the PUT request, and the client its answer.
`answered`: the data server has answered. Answers to other operations, which a piece of a URL can name, are left out. -/
inductive Action
  | event
  | recvHeader (n : ℕ) (buf up : Bool) (failed : Option ℕ)
  | headerAgain
  | full
  | opened
  | recvBody (n : ℕ) (failed failed' : Option ℕ)
  | bodyAgain (failed : Option ℕ)
  | close (failed : Option ℕ)
  | answered
  deriving DecidableEq, Repr

/-- What the client has to send, the second request only when the first is answered -/
def Dialogue.stream (d : Dialogue) (c : Conn) : List (BitVec 8) :=
  if c.second then d.second.bytes ++ d.next else d.first.bytes

/-- The next `n` bytes -/
def Dialogue.piece (d : Dialogue) (c : Conn) (n : ℕ) : List (BitVec 8) := ((d.stream c).drop c.pos).take n

def step (d : Dialogue) (parser : HttpParser) (capacity : ℕ) (c : Conn) : Action → Conn
  | .event =>
    { c with ready := true, control := if c.handler = .processRequest then .header else .body false }
  | .recvHeader n buf up failed => c.processRequest parser (d.piece c n) buf up failed
  | .headerAgain => { c with ready := false, control := .idle }
  | .full => { c with closed := true, dropped := true }
  | .opened => { c.reinit with peer := some .dataServer, second := true, pos := 0 }
  | .recvBody n failed failed' => (c.writeFull capacity failed).readBody (d.piece c n) failed'
  | .bodyAgain failed => { (c.writeFull capacity failed).leaveBody with ready := false }
  | .close failed =>
    { (if c.control = .idle ∨ c.control = .header then c else c.writeFull capacity failed) with closed := true }
  | .answered => { c.reinit with peer := none }

def InBody (c : Conn) : Prop := c.control = .body true ∨ c.control = .body false

instance (c : Conn) : Decidable (InBody c) := inferInstanceAs (Decidable (_ ∨ _))

def Enabled (d : Dialogue) (capacity : ℕ) (c : Conn) : Action → Prop
  | .event => c.closed = false ∧ c.control = .idle
  | .recvHeader n _ _ _ => c.closed = false ∧ c.control = .header ∧ c.ready = true ∧ 0 < n ∧
      c.headersIn.length + n ≤ mainChunkSize ∧ c.pos + n ≤ (d.stream c).length
  | .headerAgain => c.closed = false ∧ c.control = .header
  | .full => c.closed = false ∧ c.control = .header ∧ c.ready = true ∧ c.headersIn.length = mainChunkSize
  | .opened => c.closed = false ∧ c.control = .idle ∧ c.second = false ∧ c.peer = some .nameServer ∧
      c.operation = some .upload
  | .recvBody n failed _ => c.closed = false ∧ InBody c ∧ c.ready = true ∧ 0 < n ∧
      (c.writeFull capacity failed).requestBody.length + n ≤ capacity ∧ c.pos + n ≤ (d.stream c).length
  | .bodyAgain _ => c.closed = false ∧ InBody c
  | .close _ => c.closed = false
  | .answered => c.closed = false ∧ c.control = .idle ∧ c.second = true ∧ c.peer = some .dataServer

instance (d : Dialogue) (capacity : ℕ) (c : Conn) : ∀ a, Decidable (Enabled d capacity c a)
  | .event | .recvHeader _ _ _ _ | .headerAgain | .full | .opened | .recvBody _ _ _ | .bodyAgain _ | .answered =>
    inferInstanceAs (Decidable (_ ∧ _))
  | .close _ => inferInstanceAs (Decidable (_ = _))

/-! ## Exactness -/

/-- The data server is sent the body and nothing else, its end is seen when it is there, what follows it is
parsed from its first byte on, and the proxy neither refuses a request nor closes the connection. -/
structure Correct (d : Dialogue) (c : Conn) : Prop where
  sent : c.sent <+: d.second.body
  whole : c.completed = true → c.sent = d.second.body
  detected : c.completed = true ↔ c.second = true ∧ d.second.bytes.length ≤ c.pos
  next : c.second = true → d.second.bytes.length < c.pos → c.fed = d.next.take (c.pos - d.second.bytes.length)
  kept : c.dropped = false
  served : c.refused = false
  inside : c.stray = false

/-- The steps that stay clear of the defects. No piece of the first request ends inside its URL, and the name server
takes the request. A piece of the second request's headers before their end has no digit of the content length other
than leading zeros; the piece with their end is the first one and not the whole body with them, or ends there. Nothing
follows the body. Sends succeed, a buffer is free, and the data server answers when it has the body. When the body is
complete and has filled the buffer, the body handler is not called again before the answer. -/
def Clean (d : Dialogue) (capacity : ℕ) (c : Conn) : Action → Prop
  | .recvHeader n buf up failed =>
      if c.second = false then up = true ∧ (c.pos + n ≤ d.first.method.length ∨ d.first.urlEnd ≤ c.pos + n)
      else if c.pos + n < d.second.header.length then d.second.bodySizeAt (c.pos + n) = 0
      else buf = true ∧ failed = none ∧ (c.pos + n = d.second.header.length ∨
        c.pos = 0 ∧ n < d.second.bytes.length)
  | .recvBody n failed failed' => failed = none ∧ failed' = none ∧ c.pos + n ≤ d.second.bytes.length
  | .bodyAgain failed => failed = none ∧
      (c.completed = true → c.requestBody.length ≠ capacity ∨ c.peer = none)
  | .close failed => failed = none ∧
      (c.completed = true → c.requestBody.length ≠ capacity ∨ c.peer = none ∨ ¬ InBody c)
  | .answered => d.second.bytes.length ≤ c.pos
  | .full => False
  | .event | .headerAgain | .opened => True

instance (d : Dialogue) (capacity : ℕ) (c : Conn) : ∀ a, Decidable (Clean d capacity c a)
  | .recvHeader _ _ _ _ => inferInstanceAs (Decidable (ite _ _ _))
  | .recvBody _ _ _ | .bodyAgain _ | .close _ => inferInstanceAs (Decidable (_ ∧ _))
  | .answered => inferInstanceAs (Decidable (_ ≤ _))
  | .full => .isFalse id
  | .event | .headerAgain | .opened => .isTrue trivial

end Tefs.Proxy.UploadStream
