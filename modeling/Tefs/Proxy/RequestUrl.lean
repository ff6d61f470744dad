import Tefs.Proxy.Routing
import Tefs.Proxy.StringValue

/-! # The URL of a request

Source: `gvfs_http_on_url` of `gvfsproxy/src/http/gvfs_http_parse_cb.c`, `gvfs_http_url_dump` of `gvfs_http_parse.c`,
and what `gvfs_http_process_request` and `gvfs_http_request_handler` make of it, with the lookups of
`gvfs_ns_upload_request` in `gvfsproxy/src/private/gvfs_http_upload.c`.

The path and the query are places in `headers_in`, and nothing is copied before they are used. `gvfs_http_on_url` is
called for every piece of a URL, and finds the path and the query of that piece.
-/

namespace Tefs.Proxy.RequestUrls
open CString Download Search
set_option autoImplicit false

/-- A place, and how far it goes -/
structure Window where
  start : ℕ
  length : ℕ
  deriving DecidableEq, Repr

/-- `field_data` of a path and a query, as far as `field_set` has them -/
structure UrlFields where
  path : Option Window
  query : Option Window
  deriving DecidableEq, Repr

/-- `request_path` and `query_string` with their lengths -/
structure RequestUrl where
  requestPath : Option Window := none
  queryString : Option Window := none
  deriving DecidableEq, Repr

/-- `gvfs_http_url_dump`: a field that is not set leaves what was there. -/
def urlDump (place : ℕ) (field out : Option Window) : Option Window :=
  match field with
  | some window => some ⟨place + window.start, window.length⟩
  | none => out

/-- `gvfs_http_on_url`; `fields` are those of the piece at `place`. -/
def onUrl (place : ℕ) (fields : UrlFields) (url : RequestUrl) : RequestUrl :=
  { requestPath := urlDump place fields.path url.requestPath
    queryString := urlDump place fields.query url.queryString }

/-! ## The text of the headers -/

/-- `headers_in`, with zeros behind what has been read -/
def memory (headersIn : List Byte) (i : ℕ) : Byte := headersIn.getD i 0

def Window.text (headersIn : List Byte) (window : Window) : List Byte :=
  bytes (fun i => memory headersIn (window.start + i)) window.length

def carriageReturn : Byte := 13

def lineFeed : Byte := 10

/-- What stands behind the last header -/
def headerEnd : List Byte := [carriageReturn, lineFeed, carriageReturn, lineFeed]

/-- The line behind the last header is made the end of the text, for the log. -/
def endHeader (headersIn : List Byte) : List Byte :=
  let text := headersIn.takeWhile (· ≠ 0)
  match search headerEnd text with
  | none => headersIn
  | some rest => headersIn.set (text.length - rest.length + 2) 0

/-! ## The request handler -/

/-- The parameters of an upload, and the sizes of their buffers -/
def uploadParams : List (List Byte × ℕ) :=
  [(ascii "filename", 128), (ascii "filesize", 16), (ascii "blocksize", 16), (ascii "filehash", 64),
    (ascii "blocknumber", 16), (ascii "blockindex", 16)]

/-- All parameters are found, and fit. -/
def uploadFinds (queryStr : List Byte) : Bool :=
  uploadParams.all fun (key, size) =>
    (StringValue.stringValue queryStr key (List.replicate size 0) [StringValue.ampersand]).isSome

/-- The size of `query_str` -/
def queryStrSize : ℕ := 512

/-- What is copied to `query_str`. The literal `NULL` prints has no room. -/
def queryStr (headersIn : List Byte) (url : RequestUrl) : List Byte :=
  match url.queryString with
  | none => []
  | some window => (window.text headersIn).takeWhile (· ≠ 0)

/-- `gvfs_ns_upload_request`; `up` says that the name server takes the request, and all that its siblings depend on. -/
def serve (queryStr : List Byte) (up : Bool) : Routing.Operation → Routing.Status
  | .upload => if uploadFinds queryStr && up then .ok else .error
  | .query | .download | .delete | .cos => if up then .ok else .error

def routed (headersIn : List Byte) (url : RequestUrl) (connected : Bool) : Routing.Request where
  requestPath := url.requestPath.map fun window i => memory headersIn (window.start + i)
  requestPathLen := match url.requestPath with
    | none => 0
    | some window => BitVec.ofNat 32 window.length
  connected := connected
  null_empty := by
    intro hnone
    rw [Option.map_eq_none_iff.mp hnone]

/-- `gvfs_http_request_handler`, and `none` for an access to memory that is not there: a path at `NULL`, or a query that
overruns the copy each operation makes -/
def requestHandler (headersIn : List Byte) (url : RequestUrl) (connected up : Bool) : Option Routing.Handled :=
  let query := queryStr headersIn url
  match Routing.requestHandler (serve query up) (routed headersIn url connected) with
  | none => none
  | some handled => if handled.called ≠ none ∧ queryStrSize ≤ query.length then none else some handled

/-! ## What is read in `headers_in` -/

section

variable {headersIn : List Byte}

theorem endHeader_cases (headersIn : List Byte) : endHeader headersIn = headersIn ∨
    ∃ k, endHeader headersIn = headersIn.set k 0 ∧ memory headersIn k = carriageReturn := by
  unfold endHeader
  dsimp only
  split
  · exact .inl rfl
  · next rest hrest =>
    right
    refine ⟨_, rfl, ?_⟩
    obtain ⟨⟨behind, hbehind⟩, front, hfront⟩ := prefix_of_search hrest
    have hlen : (headersIn.takeWhile (· ≠ 0)).length - rest.length = front.length := by
      rw [← hfront, List.length_append, Nat.add_sub_cancel]
    obtain ⟨more, hmore⟩ := List.takeWhile_prefix (l := headersIn) (· ≠ 0)
    have hsplit : headersIn = front ++ (headerEnd ++ (behind ++ more)) := by
      rw [← List.append_assoc headerEnd, hbehind, ← List.append_assoc, hfront, hmore]
    rw [hlen, memory, hsplit, List.getD_eq_getElem?_getD, List.getElem?_append_right (by omega),
      Nat.add_sub_cancel_left]
    rfl

theorem memory_endHeader {i : ℕ} (h : memory headersIn i ≠ carriageReturn) :
    memory (endHeader headersIn) i = memory headersIn i := by
  rcases endHeader_cases headersIn with hsame | ⟨k, hset, hk⟩
  · rw [hsame]
  · have hne : k ≠ i := by
      rintro rfl
      exact h hk
    rw [hset, memory, memory, List.getD_eq_getElem?_getD, List.getElem?_set_ne hne, List.getD_eq_getElem?_getD]

/-- A text without line ends is left as it is. -/
theorem Window.text_endHeader {window : Window} (h : carriageReturn ∉ window.text headersIn) :
    window.text (endHeader headersIn) = window.text headersIn := by
  apply List.map_congr_left
  intro i hi
  apply memory_endHeader
  intro heq
  exact h (List.mem_map.mpr ⟨i, hi, heq⟩)

/-- The place of a text in the headers -/
theorem Window.text_append (front text behind : List Byte) :
    Window.text (front ++ (text ++ behind)) ⟨front.length, text.length⟩ = text := by
  rw [Window.text, bytes]
  apply List.ext_getElem
  · simp
  · intro i hi hi'
    rw [List.length_map, List.length_range] at hi
    have hplace : (front ++ (text ++ behind))[front.length + i]? = some text[i] := by
      rw [List.getElem?_append_right (by omega), Nat.add_sub_cancel_left, List.getElem?_append_left hi,
        List.getElem?_eq_getElem hi]
    rw [List.getElem_map, List.getElem_range, memory, List.getD_eq_getElem?_getD, hplace, Option.getD_some]

end

/-! ## An upload -/

def uploadPath : List Byte := Routing.slash :: Routing.Operation.upload.name

section

variable {headersIn : List Byte} {url : RequestUrl}

/-- With an upstream connection there is nothing to do. -/
theorem requestHandler_connected (headersIn : List Byte) (url : RequestUrl) (up : Bool) :
    requestHandler headersIn url true up = some { rc := .ok } := by
  have hrouted : Routing.requestHandler (serve (queryStr headersIn url) up) (routed headersIn url true) =
      some { rc := .ok } := if_pos rfl
  rw [requestHandler, hrouted]
  exact if_neg fun h => h.1 rfl

theorem compared_routed {window : Window} (hpath : url.requestPath = some window) (connected : Bool) {text : List Byte}
    (htext : window.text headersIn = Routing.slash :: text) (hlen : window.length < 2 ^ 32) :
    (routed headersIn url connected).compared = text := by
  have hsucc : window.length = text.length + 1 := by
    have hlength := congrArg List.length htext
    rwa [Window.text, bytes_length, List.length_cons] at hlength
  have hcount : (BitVec.ofNat 32 window.length - 1).toNat = text.length := by
    rw [hsucc] at hlen ⊢
    rw [BitVec.toNat_sub, BitVec.toNat_ofNat, Nat.mod_eq_of_lt hlen]
    simp
    omega
  have hshift : bytes (fun i => memory headersIn (window.start + (i + 1))) text.length = text := by
    rw [Window.text, hsucc, bytes_succ] at htext
    exact (List.cons.inj htext).2
  simp only [Routing.Request.compared, routed, hpath, Option.map_some]
  rw [hcount]
  exact hshift

/-- The path of an upload, and all parameters in the query -/
theorem requestHandler_upload {window : Window} (hpath : url.requestPath = some window)
    (htext : window.text headersIn = uploadPath) (hfinds : uploadFinds (queryStr headersIn url) = true)
    (hroom : (queryStr headersIn url).length < queryStrSize) :
    requestHandler headersIn url false true = some { called := some .upload, rc := .ok } := by
  have hlen : window.length = 18 := by
    have hlength := congrArg List.length htext
    rwa [Window.text, bytes_length] at hlength
  have hcompared := compared_routed hpath false htext (by omega)
  have hserve : serve (queryStr headersIn url) true .upload = .ok := by
    rw [serve, hfinds]
    rfl
  have hrouted : (routed headersIn url false).requestPath =
      some fun i => memory headersIn (window.start + i) :=
    congrArg (Option.map fun (window : Window) i => memory headersIn (window.start + i)) hpath
  have hquery : ¬ Routing.Matches (routed headersIn url false) .query := by
    rw [Routing.Matches, hcompared]
    decide
  have hupload : Routing.Matches (routed headersIn url false) .upload := by
    rw [Routing.Matches, hcompared]
    exact .inl List.prefix_rfl
  rw [← Routing.strncmp_name hrouted] at hquery hupload
  have hlong : (routed headersIn url false).requestPathLen - 1 ≠ 0 := by
    simp only [routed, hpath, hlen]
    decide
  have hhandled : Routing.requestHandler (serve (queryStr headersIn url) true) (routed headersIn url false) =
      some { called := some .upload, rc := .ok } := by
    have hfresh : (routed headersIn url false).connected = false := rfl
    rw [Routing.requestHandler, hfresh, if_neg Bool.false_ne_true, if_neg hlong, hrouted]
    dsimp only
    rw [if_neg hquery, if_pos hupload, hserve]
  rw [requestHandler, hhandled]
  exact if_neg fun h => absurd h.2 (Nat.not_le_of_lt hroom)

end

end Tefs.Proxy.RequestUrls
