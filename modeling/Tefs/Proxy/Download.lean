import Tefs.Proxy.Upstream

/-! # A block on its way from a data server to an HTTP client

Source: `gvfs_ds_process_respodse_header`, `gvfs_ds_process_respodse_body` and what they call in
`gvfsproxy/src/private/gvfs_ds_interface.c`, `gvfs_ds_file_download.c` and `gvfs_ds_file_upload.c`,
`gvfs_http_finalize_request` of `http/gvfs_http_request.c`, `http/gvfs_http_response.c`, and
`gvfs_completed_send` of `os/unix/gvfs_send.c`.

The head of the data server's response is read as in `Tefs.Proxy.Upstream`. What follows it goes through
`download_body`, a buffer of a configured size, which is written out whenever it is full. Each call of
`c->send` is a step of its own, so that a write to the client can stop anywhere.
-/

namespace Tefs.Proxy.Download
open Runs Wire
set_option autoImplicit false

/-! ## What the client is sent -/

def ascii (text : String) : List (BitVec 8) := text.toList.map fun c => BitVec.ofNat 8 c.toNat

inductive Code
  | ok
  | notAcceptable
  | internalServerError
  | notImplemented
  | serviceUnavailable
  deriving DecidableEq, Repr

def Code.number : Code → ℕ
  | .ok => 200
  | .notAcceptable => 406
  | .internalServerError => 500
  | .notImplemented => 501
  | .serviceUnavailable => 503

def Code.reasonPhrase : Code → String
  | .ok => "OK"
  | .notAcceptable => "Not Acceptable"
  | .internalServerError => "Internal Server Error"
  | .notImplemented => "Not Implemented"
  | .serviceUnavailable => "Service Unavailable"

def statusLines (code : Code) : List (BitVec 8) :=
  ascii ("HTTP/1.1 " ++ toString code.number ++ " " ++ code.reasonPhrase ++ "\r\n" ++
    "Server: gvfs/1.0.0\r\n" ++ "Content-Type: text/html\r\n")

def lengthLine (contentLength : ℕ) : List (BitVec 8) :=
  ascii ("Content-Length: " ++ toString contentLength ++ "\r\n")

def lastLines : List (BitVec 8) := ascii ("Connection: keep-alive\r\n" ++ "\r\n")

/-- `gvfs_http_response_headers` -/
def responseHeaders (code : Code) (contentLength : ℕ) : List (BitVec 8) :=
  statusLines code ++ (if contentLength ≠ 0 then lengthLine contentLength else []) ++ lastLines

/-- What `gvfs_http_finalize_request` sends when nothing was prepared -/
def page (code : Code) : List (BitVec 8) :=
  let body := ascii ("<html>\r\n" ++ "<head>\r\n" ++ "<title>Welcome to gvfs</title>\r\n" ++ "</head>\r\n" ++
    "<body bgcolor=\"white\" text=\"black\">\r\n" ++
    "<center><h1>" ++ code.reasonPhrase ++ "!</h1></center>\r\n" ++ "</body>\r\n" ++ "</html>\r\n")
  responseHeaders code body.length ++ body

/-- `gvfs_ds_file_upload_completed`, and `gvfs_ds_file_download_completed` for a refused block -/
def rtnText (rtn : BitVec 32) : List (BitVec 8) :=
  let body := ascii ("rtn=" ++ toString rtn.toNat)
  responseHeaders .ok body.length ++ body

def dsBlockUpload : BitVec 32 := 0x0101

def dsBlockDownload : BitVec 32 := 0x0102

/-- `gvfs_ds_file_download_completed` -/
def fileDownloadCompleted (bodySize : ℕ) (head : RspHead) : List (BitVec 8) :=
  if head.rtn = 200 then responseHeaders .ok bodySize else rtnText head.rtn

/-! ## The exchange -/

/-- What follows a write to the client: the block, the emptied buffer, a second response because the read
event could not be changed, or the end. -/
inductive Next
  | body
  | refill
  | internalError
  | close
  deriving DecidableEq, Repr

/-- The handler of the data server's connection, or the write to the client it waits in -/
inductive Stage
  | header
  | sending (rest : List (BitVec 8)) (next : Next)
  | body (reading : Bool)
  | ended
  deriving DecidableEq, Repr

/-- `sent` is all that the client's connection took, `failed` whether a write to it failed. -/
structure Exchange where
  upstream : Upstream
  start : BitVec 32
  endPos : BitVec 32
  bodySize : ℕ := 0
  recvSize : ℕ := 0
  downloadBody : List (BitVec 8) := []
  stage : Stage := .header
  sent : List (BitVec 8) := []
  failed : Bool := false
  closed : Bool := false
  deriving DecidableEq, Repr

/-- Whether a body buffer was free, and the read event could be taken out of the edge-triggered set -/
inductive Setup
  | ok
  | noBuffer
  | delEventFailed
  deriving DecidableEq, Repr

/-- What `gvfs_unix_send` returns; `again` also for 0 -/
inductive Send
  | bytes (n : ℕ)
  | again
  | error
  deriving DecidableEq, Repr

inductive Action
  | readEvent
  | timeout
  | recv (r : Recv) (setup : Setup)
  | send (r : Send)
  | peerClose
  | clientClose
  deriving DecidableEq, Repr

namespace Exchange

/-- `gvfs_http_finalize_request` with nothing prepared, then `gvfs_close_upstream` -/
def refuse (code : Code) (d : Exchange) : Exchange := { d with stage := .sending (page code) .close }

/-- The head of the response is complete. -/
def process (setup : Setup) (d : Exchange) : Exchange :=
  let head := d.upstream.rspHead
  if head.type = dsBlockUpload then { d with stage := .sending (rtnText head.rtn) .close }
  else if head.type = dsBlockDownload then
    let bodySize := (d.endPos - d.start).toNat
    match setup with
    | .noBuffer => { d with bodySize := bodySize }.refuse .serviceUnavailable
    | .delEventFailed => { d with
        bodySize := bodySize
        stage := .sending (fileDownloadCompleted bodySize head) .internalError }
    | .ok => { d with
        bodySize := bodySize
        stage := .sending (fileDownloadCompleted bodySize head) .body }
  else d.refuse .notImplemented

/-- The loop of `gvfs_ds_process_respodse_header`, after a `recv` -/
def processHeader (setup : Setup) (d : Exchange) : Exchange :=
  match d.upstream.reported with
  | some .error => d.refuse .internalServerError
  | some .peerClosed => d.refuse .notAcceptable
  | none => if d.upstream.headerCompleted then d.process setup else d

/-- The top of the loop of `gvfs_ds_process_respodse_body` -/
def loop (size : ℕ) (d : Exchange) : Exchange :=
  if d.downloadBody.length = size then { d with stage := .sending d.downloadBody .refill }
  else { d with stage := .body true }

def readBody (size : ℕ) (d : Exchange) : Recv → Exchange
  | .bytes n =>
    let pending := d.upstream.pending
    let d := { d with
      upstream := { d.upstream with pending := pending.drop n }
      downloadBody := d.downloadBody ++ pending.take n
      recvSize := d.recvSize + n }
    if d.bodySize = d.recvSize then { d with stage := .sending d.downloadBody .close } else d.loop size
  | .again => { d with stage := .body false }
  | .error | .zero => { d with stage := .ended }

/-- `gvfs_completed_send` has returned; what it returned is not looked at. -/
def resume (size : ℕ) (d : Exchange) : Next → Exchange
  | .body => { d with
      bodySize := (d.endPos - d.start).toNat, recvSize := 0, downloadBody := [] }.loop size
  | .refill => { d with downloadBody := [] }.loop size
  | .internalError => d.refuse .internalServerError
  | .close => { d with stage := .ended }

def completedSend (size : ℕ) (rest : List (BitVec 8)) (next : Next) (d : Exchange) : Send → Exchange
  | .bytes n =>
    let d := { d with sent := d.sent ++ rest.take n, stage := .sending (rest.drop n) next }
    if rest.length = n then d.resume size next else d
  | .again => d
  | .error => { d with failed := true }.resume size next

/-- What a running write has still to hand to the client -/
def outgoing (d : Exchange) : List (BitVec 8) :=
  match d.stage with
  | .sending rest _ => rest
  | _ => []

end Exchange

def step (size : ℕ) (behind : ℕ → BitVec 8) (d : Exchange) : Action → Exchange
  | .readEvent =>
    match d.stage with
    | .header => { d with upstream := Proxy.step .ds behind d.upstream .readEvent }
    | _ => d.loop size
  | .timeout => d.refuse .notAcceptable
  | .recv r setup =>
    match d.stage with
    | .header =>
      { d with upstream := Proxy.step .ds behind d.upstream (.recv r) }.processHeader setup
    | _ => d.readBody size r
  | .send r =>
    match d.stage with
    | .sending rest next => d.completedSend size rest next r
    | _ => d
  | .peerClose => { d with upstream := Proxy.step .ds behind d.upstream .peerClose }
  | .clientClose => { d with closed := true, stage := .ended }

def PossibleBody (size : ℕ) (d : Exchange) : Recv → Prop
  | .bytes n => 0 < n ∧ d.downloadBody.length + n ≤ size ∧ n ≤ d.upstream.pending.length
  | .again | .error => True
  | .zero => d.upstream.peerClosed = true

def Enabled (size : ℕ) (d : Exchange) : Action → Prop
  | .readEvent => (d.stage = .header ∧ Proxy.Enabled .ds d.upstream .readEvent) ∨ d.stage = .body false
  | .timeout => d.stage = .header ∧ d.upstream.reading = none
  | .recv r _ => (d.stage = .header ∧ Proxy.Enabled .ds d.upstream (.recv r)) ∨
      (d.stage = .body true ∧ PossibleBody size d r)
  | .send (.bytes n) => 0 < n ∧ n ≤ d.outgoing.length
  | .send .again | .send .error => d.outgoing ≠ []
  | .peerClose => True
  | .clientClose => (d.stage = .header ∧ d.upstream.reading = none) ∨ d.stage = .body false

instance (size : ℕ) (d : Exchange) : ∀ r, Decidable (PossibleBody size d r)
  | .bytes _ => inferInstanceAs (Decidable (_ ∧ _))
  | .again | .error => .isTrue trivial
  | .zero => inferInstanceAs (Decidable (_ = _))

instance (size : ℕ) (d : Exchange) : ∀ a, Decidable (Enabled size d a)
  | .readEvent | .recv _ _ | .clientClose => inferInstanceAs (Decidable (_ ∨ _))
  | .timeout | .send (.bytes _) => inferInstanceAs (Decidable (_ ∧ _))
  | .send .again | .send .error => inferInstanceAs (Decidable (_ ≠ _))
  | .peerClose => .isTrue trivial

/-! ## Exact delivery -/

/-- The response to a request for a block: the data are what follows the head. -/
structure GetResponse extends Response .ds where
  type : (Peer.ds.parseHead (memoryOf bytes fun _ => 0) ⟨0, 0, 0, 0, 0⟩).type = dsBlockDownload

namespace GetResponse

def rspHead (g : GetResponse) : RspHead := Peer.ds.parseHead (memoryOf g.bytes fun _ => 0) ⟨0, 0, 0, 0, 0⟩

def data (g : GetResponse) : List (BitVec 8) := g.bytes.drop 20

def wantedHead (g : GetResponse) : List (BitVec 8) :=
  statusLines .ok ++ lengthLine g.data.length ++ lastLines

/-- One head with the length of the data, then the data -/
def wanted (g : GetResponse) : List (BitVec 8) := g.wantedHead ++ g.data

end GetResponse

def Exchange.init (g : GetResponse) (rspHead : RspHead) (start endPos : BitVec 32) : Exchange :=
  { upstream := .init g.toResponse rspHead, start := start, endPos := endPos }

/-- The client never gets anything but the response, nothing is written behind a write that failed, an
exchange ends with all of the response or with a closed connection, and once the data server's last byte
has come all that is missing is being written. -/
structure Correct (g : GetResponse) (d : Exchange) : Prop where
  sent : d.sent <+: g.wanted
  failed : d.failed = true → d.outgoing = []
  ended : d.stage = .ended → d.sent = g.wanted ∨ d.closed = true
  arrived : d.upstream.pending = [] → d.sent ++ d.outgoing = g.wanted ∨ d.closed = true

/-- The data server grants the request and sends as many bytes as were asked for. -/
structure Granted (g : GetResponse) (start endPos : BitVec 32) : Prop where
  rtn : g.rspHead.rtn = 200
  asked : g.data.length = (endPos - start).toNat
  pos : 0 < g.data.length

/-- The head comes whole, neither connection fails, and the proxy has a buffer. -/
def Smooth (g : GetResponse) (d : Exchange) : Action → Prop
  | .recv r setup => setup = .ok ∧ r ≠ .error ∧ r ≠ .zero ∧
      (d.stage = .header → Whole g.toResponse d.upstream (.recv r))
  | .send r => r ≠ .error
  | .timeout => False
  | .readEvent | .peerClose | .clientClose => True

instance (g : GetResponse) (d : Exchange) : ∀ a, Decidable (Smooth g d a)
  | .recv _ _ => inferInstanceAs (Decidable (_ ∧ _))
  | .send _ => inferInstanceAs (Decidable (_ ≠ _))
  | .timeout => .isFalse id
  | .readEvent | .peerClose | .clientClose => .isTrue trivial

/-! ## The invariant -/

/-- While the block is copied, `held` is what the proxy has and the client has not. -/
structure Flowing (g : GetResponse) (d : Exchange) (held : List (BitVec 8)) : Prop where
  parts : d.sent ++ held ++ d.upstream.pending = g.wanted
  bodySize : d.bodySize = g.data.length
  counted : d.recvSize + d.upstream.pending.length = g.data.length
  pending : d.upstream.pending ≠ []

def Staged (g : GetResponse) (d : Exchange) : Stage → Prop
  | .header => Proxy.Inv g.toResponse d.upstream ∧ d.upstream.headerCompleted = false ∧
      d.upstream.reported = none ∧ d.sent = []
  | .sending rest .body => d.sent ++ rest = g.wantedHead ∧ d.upstream.pending = g.data
  | .sending rest .refill => Flowing g d rest
  | .sending rest .close => d.sent ++ rest = g.wanted ∧ d.upstream.pending = []
  | .sending _ .internalError => False
  | .body _ => Flowing g d d.downloadBody
  | .ended => d.sent <+: g.wanted ∧ (d.sent = g.wanted ∨ d.closed = true)

structure Inv (g : GetResponse) (d : Exchange) : Prop where
  failed : d.failed = false
  granted : Granted g d.start d.endPos
  staged : Staged g d d.stage

theorem Inv.init {g : GetResponse} {start endPos : BitVec 32} (h : Granted g start endPos)
    (rspHead : RspHead) : Inv g (.init g rspHead start endPos) :=
  ⟨rfl, h, Proxy.Inv.init g.toResponse rspHead, rfl, rfl, rfl⟩

theorem Staged.loop {g : GetResponse} {d : Exchange} (h : Flowing g d d.downloadBody) (size : ℕ) :
    Staged g (d.loop size) (d.loop size).stage := by
  unfold Exchange.loop
  split
  · exact ⟨h.parts, h.bodySize, h.counted, h.pending⟩
  · exact ⟨h.parts, h.bodySize, h.counted, h.pending⟩

theorem Inv.loop {g : GetResponse} {d : Exchange} (hfailed : d.failed = false)
    (hgranted : Granted g d.start d.endPos) (h : Flowing g d d.downloadBody) (size : ℕ) :
    Inv g (d.loop size) := by
  refine ⟨?_, ?_, Staged.loop h size⟩
  · unfold Exchange.loop
    split
    · exact hfailed
    · exact hfailed
  · unfold Exchange.loop
    split
    · exact hgranted
    · exact hgranted

/-- The write has taken everything. -/
theorem Inv.resume {g : GetResponse} {d : Exchange} {next : Next} (hfailed : d.failed = false)
    (hgranted : Granted g d.start d.endPos) (h : Staged g d (.sending [] next)) (size : ℕ) :
    Inv g (d.resume size next) := by
  cases next with
  | body =>
    obtain ⟨hsent, hpending⟩ := h
    rw [List.append_nil] at hsent
    refine Inv.loop (d := { d with
      bodySize := (d.endPos - d.start).toNat, recvSize := 0, downloadBody := [] })
      hfailed hgranted ⟨?_, hgranted.asked.symm, ?_, ?_⟩ size
    · simp only [List.append_nil, hsent, hpending, GetResponse.wanted]
    · simp only [hpending, Nat.zero_add]
    · intro hnil
      have hpos := hgranted.pos
      rw [← hpending, hnil] at hpos
      exact Nat.lt_irrefl 0 hpos
  | refill =>
    exact Inv.loop (d := { d with downloadBody := [] }) hfailed hgranted
      ⟨h.parts, h.bodySize, h.counted, h.pending⟩ size
  | internalError => exact h.elim
  | close =>
    obtain ⟨hsent, -⟩ := h
    rw [List.append_nil] at hsent
    refine ⟨hfailed, hgranted, ?_, .inl hsent⟩
    exact hsent ▸ List.prefix_refl _

/-- What is sent leaves what is held. -/
theorem Staged.sending {g : GetResponse} {d : Exchange} {rest : List (BitVec 8)} {next : Next}
    (h : Staged g d (.sending rest next)) (n : ℕ) :
    Staged g { d with sent := d.sent ++ rest.take n, stage := .sending (rest.drop n) next }
      (.sending (rest.drop n) next) := by
  have hsplit : d.sent ++ rest.take n ++ rest.drop n = d.sent ++ rest := by
    rw [List.append_assoc, List.take_append_drop]
  cases next with
  | body => exact ⟨hsplit.trans h.1, h.2⟩
  | refill => exact ⟨(congrArg (· ++ d.upstream.pending) hsplit).trans h.parts, h.bodySize, h.counted, h.pending⟩
  | internalError => exact h
  | close => exact ⟨hsplit.trans h.1, h.2⟩

theorem Inv.completedSend {g : GetResponse} {d : Exchange} {rest : List (BitVec 8)} {next : Next} {r : Send}
    (h : Inv g d) (hstage : d.stage = .sending rest next) (hok : r ≠ .error) (size : ℕ) :
    Inv g (d.completedSend size rest next r) := by
  have hstaged : Staged g d (.sending rest next) := hstage ▸ h.staged
  cases r with
  | again => exact h
  | error => exact (hok rfl).elim
  | bytes n =>
    have hafter := hstaged.sending n
    unfold Exchange.completedSend
    by_cases hall : rest.length = n
    · simp only [if_pos hall]
      rw [List.drop_of_length_le (Nat.le_of_eq hall)] at hafter ⊢
      exact Inv.resume (d := { d with sent := d.sent ++ rest.take n, stage := .sending [] next })
        h.failed h.granted hafter size
    · simp only [if_neg hall]
      exact ⟨h.failed, h.granted, hafter⟩

theorem Inv.readBody {g : GetResponse} {d : Exchange} {r : Recv} {size : ℕ} (h : Inv g d)
    (hstage : d.stage = .body true) (hposs : PossibleBody size d r) (herror : r ≠ .error) (hzero : r ≠ .zero) :
    Inv g (d.readBody size r) := by
  have hflow : Flowing g d d.downloadBody := by
    have hstaged := h.staged
    rw [hstage] at hstaged
    exact hstaged
  cases r with
  | error => exact (herror rfl).elim
  | zero => exact (hzero rfl).elim
  | again => exact ⟨h.failed, h.granted, hflow.parts, hflow.bodySize, hflow.counted, hflow.pending⟩
  | bytes n =>
    obtain ⟨hpos, -, hle⟩ := hposs
    have hparts : d.sent ++ (d.downloadBody ++ d.upstream.pending.take n) ++ d.upstream.pending.drop n =
        g.wanted := by
      rw [← hflow.parts]
      simp only [List.append_assoc, List.take_append_drop]
    have hcounted : d.recvSize + n + (d.upstream.pending.drop n).length = g.data.length := by
      have hsum := hflow.counted
      rw [List.length_drop]
      omega
    have hsize := hflow.bodySize
    unfold Exchange.readBody
    by_cases hlast : d.bodySize = d.recvSize + n
    · have hnone : d.upstream.pending.drop n = [] := List.eq_nil_of_length_eq_zero (by omega)
      simp only [if_pos hlast]
      rw [hnone, List.append_nil] at hparts
      exact ⟨h.failed, h.granted, hparts, hnone⟩
    · simp only [if_neg hlast]
      refine Inv.loop (d := { d with
        upstream := { d.upstream with pending := d.upstream.pending.drop n }
        downloadBody := d.downloadBody ++ d.upstream.pending.take n
        recvSize := d.recvSize + n }) h.failed h.granted
        ⟨hparts, hsize, hcounted, fun hnone => hlast ?_⟩ size
      have hzero : (d.upstream.pending.drop n).length = 0 := congrArg List.length hnone
      omega

/-- The head that is prepared from the fields the data server sent. -/
theorem fileDownloadCompleted_eq {g : GetResponse} {start endPos : BitVec 32} (h : Granted g start endPos)
    {head : RspHead} (hrtn : head.rtn = g.rspHead.rtn) :
    fileDownloadCompleted (endPos - start).toNat head = g.wantedHead := by
  have hpos := h.pos
  rw [fileDownloadCompleted, if_pos (hrtn.trans h.rtn), ← h.asked, responseHeaders,
    if_pos (by omega), GetResponse.wantedHead]

/-- The head came whole. -/
theorem Inv.process {g : GetResponse} {d : Exchange} (hfailed : d.failed = false)
    (hgranted : Granted g d.start d.endPos) (hinv : Proxy.Inv g.toResponse d.upstream)
    (hdone : d.upstream.headerCompleted = true) (hlen : d.upstream.buf.length ≤ 20) (hsent : d.sent = []) :
    Inv g (d.process .ok) := by
  have hfull : 20 ≤ d.upstream.buf.length := hinv.header.1 hdone
  have hfields := hinv.fields hdone
  have hrtn : d.upstream.rspHead.rtn = g.rspHead.rtn := congrArg RspHead.rtn hfields
  have htype : d.upstream.rspHead.type = dsBlockDownload := (congrArg RspHead.type hfields).trans g.type
  have hpending : d.upstream.pending = g.data := by
    rw [GetResponse.data, ← hinv.parts, List.drop_left' (Nat.le_antisymm hlen hfull)]
  have hupload : ¬ d.upstream.rspHead.type = dsBlockUpload := by
    rw [htype]
    decide
  unfold Exchange.process
  simp only [if_neg hupload, if_pos htype]
  refine ⟨hfailed, hgranted, ?_, hpending⟩
  simp only [hsent, List.nil_append]
  exact fileDownloadCompleted_eq hgranted hrtn

theorem Inv.processHeader {g : GetResponse} {d : Exchange} (hfailed : d.failed = false)
    (hgranted : Granted g d.start d.endPos) (hstage : d.stage = .header)
    (hinv : Proxy.Inv g.toResponse d.upstream) (hnone : d.upstream.reported = none)
    (hlen : d.upstream.buf.length ≤ 20) (hsent : d.sent = []) : Inv g (d.processHeader .ok) := by
  unfold Exchange.processHeader
  simp only [hnone]
  by_cases hdone : d.upstream.headerCompleted = true
  · rw [if_pos hdone]
    exact Inv.process hfailed hgranted hinv hdone hlen hsent
  · rw [if_neg hdone]
    exact ⟨hfailed, hgranted, hstage ▸ ⟨hinv, Bool.eq_false_iff.2 hdone, hnone, hsent⟩⟩

theorem Inv.readHeader {g : GetResponse} {d : Exchange} {behind : ℕ → BitVec 8} {r : Recv} (h : Inv g d)
    (hstage : d.stage = .header) (hen : Proxy.Enabled .ds d.upstream (.recv r)) (herror : r ≠ .error)
    (hzero : r ≠ .zero) (hwhole : Whole g.toResponse d.upstream (.recv r)) :
    Inv g ({ d with upstream := Proxy.step .ds behind d.upstream (.recv r) }.processHeader .ok) := by
  have hstaged := h.staged
  rw [hstage] at hstaged
  obtain ⟨hinv, hnot, hnone, hsent⟩ := hstaged
  have hnext : Proxy.Inv g.toResponse (Proxy.step .ds behind d.upstream (.recv r)) :=
    hinv.step hen hwhole
  obtain ⟨m, -, hrsize, hhead, -⟩ := hinv.rsize_eq hen.2.1
  have htotal : d.upstream.buf.length + m = 20 := hhead hnot
  cases r with
  | error => exact (herror rfl).elim
  | zero => exact (hzero rfl).elim
  | again =>
    have hlen : d.upstream.buf.length ≤ 20 := by omega
    exact Inv.processHeader h.failed h.granted hstage hnext hnone hlen hsent
  | bytes n =>
    obtain ⟨-, -, -, hle, hpending⟩ := hen
    obtain ⟨hbuf, -, hreported⟩ := d.upstream.take_bytes .ds behind n
    have hlen : (d.upstream.take .ds behind n).buf.length ≤ 20 := by
      rw [hbuf, Upstream.grown_buf_length hpending]
      omega
    exact Inv.processHeader h.failed h.granted hstage hnext (hreported.trans hnone) hlen hsent

theorem Inv.staged_of {g : GetResponse} {d : Exchange} {stage : Stage} (h : Inv g d)
    (hstage : d.stage = stage) : Staged g d stage :=
  hstage ▸ h.staged

/-- A close by the data server is not noticed before it is read. -/
theorem Staged.peerClose {g : GetResponse} {d : Exchange} {stage : Stage} (h : Staged g d stage)
    (behind : ℕ → BitVec 8) :
    Staged g { d with upstream := Proxy.step .ds behind d.upstream .peerClose } stage := by
  cases stage with
  | header =>
    have hinv : Proxy.Inv g.toResponse (Proxy.step .ds behind d.upstream .peerClose) :=
      h.1.step trivial trivial
    exact ⟨hinv, h.2⟩
  | sending rest next =>
    cases next with
    | body => exact h
    | refill => exact ⟨h.parts, h.bodySize, h.counted, h.pending⟩
    | internalError => exact h
    | close => exact h
  | body reading => exact ⟨h.parts, h.bodySize, h.counted, h.pending⟩
  | ended => exact h

theorem Staged.sent_prefix {g : GetResponse} {d : Exchange} {stage : Stage} (h : Staged g d stage) :
    d.sent <+: g.wanted := by
  cases stage with
  | header => exact h.2.2.2 ▸ List.nil_prefix
  | sending rest next =>
    cases next with
    | body => exact ⟨rest ++ g.data, by rw [← List.append_assoc, h.1, GetResponse.wanted]⟩
    | refill => exact ⟨rest ++ d.upstream.pending, by rw [← List.append_assoc, h.parts]⟩
    | internalError => exact h.elim
    | close => exact ⟨rest, h.1⟩
  | body reading => exact ⟨d.downloadBody ++ d.upstream.pending, by rw [← List.append_assoc, h.parts]⟩
  | ended => exact h.1

theorem Inv.step {g : GetResponse} {d : Exchange} {size : ℕ} {behind : ℕ → BitVec 8} {a : Action}
    (h : Inv g d) (hen : Enabled size d a) (hok : Smooth g d a) : Inv g (step size behind d a) := by
  cases a with
  | timeout => exact hok.elim
  | readEvent =>
    unfold Download.step
    rcases hen with ⟨hstage, hen⟩ | hstage
    · obtain ⟨hinv, hnot, hnone, hsent⟩ := h.staged_of hstage
      have hnext : Proxy.Inv g.toResponse (Proxy.step .ds behind d.upstream .readEvent) :=
        hinv.step hen trivial
      simp only [hstage]
      exact ⟨h.failed, h.granted, hnext, hnot, hnone, hsent⟩
    · simp only [hstage]
      exact Inv.loop h.failed h.granted (h.staged_of hstage) size
  | recv r setup =>
    obtain ⟨rfl, herror, hzero, hwhole⟩ := hok
    rcases hen with ⟨hstage, hen⟩ | ⟨hstage, hposs⟩
    · have heq : Download.step size behind d (.recv r .ok) =
          { d with upstream := Proxy.step .ds behind d.upstream (.recv r) }.processHeader .ok := by
        simp only [Download.step, hstage]
      rw [heq]
      exact h.readHeader hstage hen herror hzero (hwhole hstage)
    · have heq : Download.step size behind d (.recv r .ok) = d.readBody size r := by
        simp only [Download.step, hstage]
      rw [heq]
      exact h.readBody hstage hposs herror hzero
  | send r =>
    unfold Download.step
    cases hstage : d.stage with
    | sending rest next => exact h.completedSend hstage hok size
    | header => exact h
    | body reading => exact h
    | ended => exact h
  | peerClose => exact ⟨h.failed, h.granted, h.staged.peerClose behind⟩
  | clientClose => exact ⟨h.failed, h.granted, h.staged.sent_prefix, .inr rfl⟩

theorem Inv.correct {g : GetResponse} {d : Exchange} (h : Inv g d) : Correct g d := by
  refine ⟨h.staged.sent_prefix, fun hfailed => ?_, fun hover => (h.staged_of hover).2, fun hnone => ?_⟩
  · exact (Bool.false_ne_true (h.failed.symm.trans hfailed)).elim
  · have hpos := h.granted.pos
    unfold Exchange.outgoing
    cases hstage : d.stage with
    | header =>
      -- less than the head has come, so something is pending
      obtain ⟨hinv, hnot, -, -⟩ := h.staged_of hstage
      have hlong := g.head
      have hparts := hinv.parts
      rw [hnone, List.append_nil] at hparts
      rw [← hparts] at hlong
      exact (Bool.false_ne_true (hnot.symm.trans (hinv.header.2 hlong))).elim
    | sending rest next =>
      have hstaged := h.staged_of hstage
      cases next with
      | body =>
        rw [← hstaged.2, hnone] at hpos
        exact (Nat.lt_irrefl 0 hpos).elim
      | refill => exact (hstaged.pending hnone).elim
      | internalError => exact hstaged.elim
      | close => exact .inl hstaged.1
    | body reading => exact ((h.staged_of hstage).pending hnone).elim
    | ended =>
      rcases (h.staged_of hstage).2 with hsent | hclosed
      · exact .inl (by rw [List.append_nil]; exact hsent)
      · exact .inr hclosed

/-! ## Runs -/

/-- Where the data server grants the request and no step of either connection fails, the client gets the
response and nothing else. -/
theorem download_exact_of_smooth {g : GetResponse} {rspHead : RspHead} {start endPos : BitVec 32} {size : ℕ}
    {behind : ℕ → BitVec 8} {as : List Action} {d : Exchange} (hgranted : Granted g start endPos)
    (h : Reaches (ofFun (step size behind)) (fun d a => Enabled size d a ∧ Smooth g d a)
      (.init g rspHead start endPos) as d) : Correct g d := by
  have hinv : Inv g d := by
    refine h.invariant (fun d a d' hd hok htaken => ?_) (Inv.init hgranted rspHead)
    subst htaken
    exact hd.step hok.1 hok.2
  exact hinv.correct

/-- Three bytes of data -/
def exampleResponse : GetResponse where
  bytes := [0, 0, 0, 20, 0, 0, 0, 1, 0, 0, 1, 2, 0, 0, 0, 0, 0, 0, 0, 200, 65, 66, 67]
  head := by decide
  len := fun h => by cases h
  type := by decide

def exampleStart : Exchange := .init exampleResponse ⟨0, 0, 0, 0, 0⟩ 0 3

/-- With a buffer of two bytes: the head in two writes, the first two bytes, the last. -/
def exampleActions (second : Send) : List Action :=
  [.readEvent, .recv (.bytes 20) .ok, .send (.bytes 50), .send .again, .send (.bytes 57),
    .recv (.bytes 2) .ok, .send second, .recv (.bytes 1) .ok, .send (.bytes 1)]

theorem download_exact_example :
    ∃ d, Reaches (ofFun (step 2 fun _ => 0)) (fun d a => Enabled 2 d a ∧ Smooth exampleResponse d a)
        exampleStart (exampleActions (.bytes 2)) d ∧
      d.stage = .ended ∧ d.closed = false ∧ Correct exampleResponse d := by
  have hrun := reaches_of_allAllowed (step 2 fun _ => 0)
    (fun d a => Enabled 2 d a ∧ Smooth exampleResponse d a) exampleStart (exampleActions (.bytes 2))
    (by decide)
  have hgranted : Granted exampleResponse 0 3 := ⟨by decide, by decide, by decide⟩
  exact ⟨_, hrun, by decide, by decide, download_exact_of_smooth hgranted hrun⟩

/-- The write of the first two bytes fails, the third byte is sent all the same. -/
theorem failed_send_skipped :
    ∃ d, Reaches (ofFun (step 2 fun _ => 0)) (Enabled 2) exampleStart (exampleActions .error) d ∧
      d.failed = true ∧ d.sent = exampleResponse.wantedHead ++ [67] ∧ d.closed = false ∧
      ¬ Correct exampleResponse d := by
  refine ⟨_, reaches_of_allAllowed _ _ _ _ (by decide), by decide, by decide, by decide, fun h => ?_⟩
  exact absurd h.sent (by decide)

end Tefs.Proxy.Download
