import Tefs.Lib.CString
import Tefs.Proxy.Download

/-! # Which operation a request path names

Source: `gvfs_http_request_handler` of `gvfsproxy/src/http/gvfs_http_request.c`, and the names `GVFS_QUERY` to `GVFS_COS`
of `gvfsproxy/src/private/gvfs_private.h`.

The path is not copied: it is a place in the headers and a length, and a request without one has no place and the length
0. The byte it begins with is skipped, and the rest is compared with the names one after the other, each time as far as
the path goes.
-/

namespace Tefs.Proxy.Routing
open CString Download
set_option autoImplicit false

inductive Operation
  | query
  | upload
  | download
  | delete
  | cos
  deriving DecidableEq, Repr

/-- `GVFS_QUERY` to `GVFS_COS` -/
def Operation.name : Operation → List Byte
  | .query => ascii "storage/v1/query"
  | .upload => ascii "storage/v1/upload"
  | .download => ascii "storage/v1/download"
  | .delete => ascii "storage/v1/delete"
  | .cos => ascii "cos"

def slash : Byte := 47

/-- The memory from `request_path` on, unless that is `NULL`, and whether `upstream->peer.connection` is there -/
structure Request where
  requestPath : Option (ℕ → Byte)
  requestPathLen : BitVec 32
  connected : Bool
  null_empty : requestPath = none → requestPathLen = 0

def Request.path (r : Request) : List Byte :=
  match r.requestPath with
  | none => []
  | some requestPath => bytes requestPath r.requestPathLen.toNat

inductive Status
  | ok
  | error
  deriving DecidableEq, Repr

/-- What the handler did: the operation it called, the response it sent, if it set `upstream_busy`, and its result -/
structure Handled where
  called : Option Operation := none
  finalized : Option Code := none
  upstreamBusy : Bool := false
  rc : Status
  deriving DecidableEq, Repr

def rejected : Handled := { rc := .error }

def cosHandled (rc : Status) : Handled :=
  { called := some .cos
    finalized := some (if rc = .ok then .ok else .serviceUnavailable)
    upstreamBusy := rc = .ok
    rc := rc }

/-- `serve` is what the operations return. Without a path, the address 1 is read. -/
def requestHandler (serve : Operation → Status) (r : Request) : Option Handled :=
  if r.connected then some { rc := .ok }
  else
    let rpLen := r.requestPathLen - 1
    if rpLen = 0 then some rejected
    else
      match r.requestPath with
      | none => none
      | some requestPath =>
        let rp := fun i => requestPath (i + 1)
        if strncmp rp (literal Operation.query.name) rpLen.toNat = 0 then
          some { called := some .query, rc := serve .query }
        else if strncmp rp (literal Operation.upload.name) rpLen.toNat = 0 then
          some { called := some .upload, rc := serve .upload }
        else if strncmp rp (literal Operation.download.name) rpLen.toNat = 0 then
          some { called := some .download, rc := serve .download }
        else if strncmp rp (literal Operation.delete.name) rpLen.toNat = 0 then
          some { called := some .delete, rc := serve .delete }
        else if strncmp rp (literal Operation.cos.name) rpLen.toNat = 0 then some (cosHandled (serve .cos))
        else some rejected

/-- An operation is called exactly if the path is its name behind a slash, and any other path is rejected. -/
structure Exact (serve : Operation → Status) (r : Request) : Prop where
  dispatches : ∀ op : Operation, (∃ h, requestHandler serve r = some h ∧ h.called = some op) ↔ r.path = slash :: op.name
  rejects : (∀ op : Operation, r.path ≠ slash :: op.name) → requestHandler serve r = some rejected

/-- The bytes that are compared: those behind the first of the path -/
def Request.compared (r : Request) : List Byte :=
  match r.requestPath with
  | none => []
  | some requestPath => bytes (fun i => requestPath (i + 1)) (r.requestPathLen - 1).toNat

/-- There is a path. If a name or a beginning of one follows on its first byte, that is a whole name, and the first byte
is the slash. No name is followed by a zero. -/
structure Harmless (r : Request) : Prop where
  present : r.requestPath ≠ none
  slashed : ∀ op : Operation, r.compared = op.name → r.path.head? = some slash
  whole : ∀ op : Operation, r.compared <+: op.name → r.compared = [] ∨ r.compared = op.name
  unended : ∀ op : Operation, ¬ op.name ++ [0] <+: r.compared

/-! ## The names -/

theorem Operation.zero_notMem_name (op : Operation) : 0 ∉ op.name := by
  cases op <;> decide

theorem Operation.name_ne_nil (op : Operation) : op.name ≠ [] := by
  cases op <;> decide

theorem Operation.eq_of_prefixed {op op' : Operation} (h : op.name <+: op'.name) : op = op' := by
  revert h
  cases op <;> cases op' <;> decide

theorem not_ended_prefixed (op op' : Operation) : ¬ op.name ++ [0] <+: op'.name := fun h =>
  op'.zero_notMem_name (h.subset (List.mem_append_right _ (List.mem_singleton.mpr rfl)))

/-! ## The comparisons -/

/-- The name compares equal. -/
def Matches (r : Request) (op : Operation) : Prop := r.compared <+: op.name ∨ op.name ++ [0] <+: r.compared

section

variable {serve : Operation → Status} {r : Request}

theorem strncmp_name {requestPath : ℕ → Byte} (hpath : r.requestPath = some requestPath) (op : Operation) :
    strncmp (fun i => requestPath (i + 1)) (literal op.name) (r.requestPathLen - 1).toNat = 0 ↔ Matches r op := by
  rw [strncmp_literal op.zero_notMem_name, Matches, Request.compared, hpath]

/-- With a path of at least two bytes, or one of none that is there: an operation that matches is called, or none does. -/
theorem requestHandler_cases (serve : Operation → Status) (hfresh : r.connected = false)
    (hlen : r.requestPathLen - 1 ≠ 0) (hpresent : r.requestPath ≠ none) :
    (∃ h op, requestHandler serve r = some h ∧ h.called = some op ∧ Matches r op) ∨
    (requestHandler serve r = some rejected ∧ ∀ op, ¬ Matches r op) := by
  obtain ⟨requestPath, hpath⟩ := Option.ne_none_iff_exists'.mp hpresent
  rw [requestHandler, hfresh, if_neg Bool.false_ne_true, if_neg hlen, hpath]
  dsimp only
  split
  · next hop => exact .inl ⟨_, .query, rfl, rfl, (strncmp_name hpath _).mp hop⟩
  next hquery =>
  split
  · next hop => exact .inl ⟨_, .upload, rfl, rfl, (strncmp_name hpath _).mp hop⟩
  next hupload =>
  split
  · next hop => exact .inl ⟨_, .download, rfl, rfl, (strncmp_name hpath _).mp hop⟩
  next hdownload =>
  split
  · next hop => exact .inl ⟨_, .delete, rfl, rfl, (strncmp_name hpath _).mp hop⟩
  next hdelete =>
  split
  · next hop => exact .inl ⟨_, .cos, rfl, rfl, (strncmp_name hpath _).mp hop⟩
  next hcos =>
  refine .inr ⟨rfl, ?_⟩
  intro op hop
  have heq := (strncmp_name hpath op).mpr hop
  cases op with
  | query => exact hquery heq
  | upload => exact hupload heq
  | download => exact hdownload heq
  | delete => exact hdelete heq
  | cos => exact hcos heq

theorem requestHandler_short (hfresh : r.connected = false) (hlen : r.requestPathLen - 1 = 0) :
    requestHandler serve r = some rejected := by
  rw [requestHandler, hfresh, if_neg Bool.false_ne_true, if_pos hlen]

theorem requestHandler_null (hfresh : r.connected = false) (hnull : r.requestPath = none) :
    requestHandler serve r = none := by
  have hlen : r.requestPathLen - 1 ≠ 0 := by
    rw [r.null_empty hnull]
    decide
  rw [requestHandler, hfresh, if_neg Bool.false_ne_true, if_neg hlen, hnull]

/-! ## The path -/

theorem path_eq_cons {requestPath : ℕ → Byte} (hpath : r.requestPath = some requestPath) (hlen : r.requestPathLen ≠ 0) :
    r.path = requestPath 0 :: r.compared := by
  have hsucc : r.requestPathLen.toNat = (r.requestPathLen - 1).toNat + 1 := by
    bv_omega
  rw [Request.path, Request.compared, hpath]
  dsimp only
  rw [hsucc, bytes_succ]

/-- The path is a name behind a slash. -/
theorem path_eq_iff {op : Operation} :
    r.path = slash :: op.name ↔ r.path.head? = some slash ∧ r.compared = op.name := by
  cases hpath : r.requestPath with
  | none =>
    have hnil : r.path = [] := by rw [Request.path, hpath]
    simp [hnil]
  | some requestPath =>
    by_cases hlen : r.requestPathLen = 0
    · have hnil : r.path = [] := by
        rw [Request.path, hpath, hlen]
        rfl
      simp [hnil]
    · rw [path_eq_cons hpath hlen, List.cons_eq_cons, List.head?_cons, Option.some.injEq]

theorem compared_ne_nil (hpresent : r.requestPath ≠ none) (hlen : r.requestPathLen - 1 ≠ 0) : r.compared ≠ [] := by
  obtain ⟨requestPath, hpath⟩ := Option.ne_none_iff_exists'.mp hpresent
  rw [Request.compared, hpath]
  apply List.ne_nil_of_length_pos
  rw [bytes_length]
  bv_omega

theorem compared_eq_nil (hlen : r.requestPathLen - 1 = 0) : r.compared = [] := by
  rw [Request.compared, hlen]
  cases r.requestPath with
  | none => rfl
  | some requestPath => rfl

/-! ## When the dispatch is exact -/

/-- A whole name matches no other operation. -/
theorem eq_of_matches_name {op op' : Operation} (h : Matches r op') (hname : r.compared = op.name) : op = op' := by
  rw [Matches, hname] at h
  rcases h with hprefixed | hended
  · exact Operation.eq_of_prefixed hprefixed
  · exact absurd hended (not_ended_prefixed op' op)

theorem Harmless.path_of_matches (h : Harmless r) {op : Operation} (hmatches : Matches r op) (hne : r.compared ≠ []) :
    r.path = slash :: op.name := by
  rcases hmatches with hprefixed | hended
  · have hname : r.compared = op.name := (h.whole op hprefixed).resolve_left hne
    exact path_eq_iff.mpr ⟨h.slashed op hname, hname⟩
  · exact absurd hended (h.unended op)

theorem Harmless.exact (h : Harmless r) (hfresh : r.connected = false) : Exact serve r := by
  by_cases hlen : r.requestPathLen - 1 = 0
  · have hhandled : requestHandler serve r = some rejected := requestHandler_short hfresh hlen
    have hpath : ∀ op : Operation, r.path ≠ slash :: op.name := by
      intro op heq
      exact op.name_ne_nil ((path_eq_iff.mp heq).2.symm.trans (compared_eq_nil hlen))
    refine ⟨fun op => ⟨?_, fun heq => absurd heq (hpath op)⟩, fun _ => hhandled⟩
    rintro ⟨handled, hcalled, hop⟩
    cases hhandled.symm.trans hcalled
    cases hop
  · have hne := compared_ne_nil h.present hlen
    rcases requestHandler_cases serve hfresh hlen h.present with
      ⟨handled, op, hhandled, hcalled, hmatches⟩ | ⟨hhandled, hnone⟩
    · have hpath := h.path_of_matches hmatches hne
      refine ⟨fun op' => ⟨?_, ?_⟩, fun hother => absurd hpath (hother op)⟩
      · rintro ⟨handled', hhandled', hcalled'⟩
        cases hhandled.symm.trans hhandled'
        cases hcalled.symm.trans hcalled'
        exact hpath
      · intro hpath'
        obtain rfl := eq_of_matches_name hmatches (path_eq_iff.mp hpath').2
        exact ⟨handled, hhandled, hcalled⟩
    · refine ⟨fun op => ⟨?_, ?_⟩, fun _ => hhandled⟩
      · rintro ⟨handled, hhandled', hcalled⟩
        cases hhandled.symm.trans hhandled'
        cases hcalled
      · intro hpath
        have hname := (path_eq_iff.mp hpath).2
        exact absurd (.inl (hname ▸ List.prefix_rfl)) (hnone op)

/-- Of two bytes on, whatever matches is dispatched. -/
theorem Exact.path_of_matches (h : Exact serve r) (hfresh : r.connected = false) (hpresent : r.requestPath ≠ none)
    (hlen : r.requestPathLen - 1 ≠ 0) {op : Operation} (hmatches : Matches r op) :
    ∃ op' : Operation, r.path = slash :: op'.name := by
  rcases requestHandler_cases serve hfresh hlen hpresent with
    ⟨handled, op', hhandled, hcalled, -⟩ | ⟨-, hnone⟩
  · exact ⟨op', (h.dispatches op').mp ⟨handled, hhandled, hcalled⟩⟩
  · exact absurd hmatches (hnone op)

theorem Exact.present (h : Exact serve r) (hfresh : r.connected = false) : r.requestPath ≠ none := by
  intro hnull
  have hpath : ∀ op : Operation, r.path ≠ slash :: op.name := by
    intro op
    rw [Request.path, hnull]
    exact (List.cons_ne_nil _ _).symm
  cases (requestHandler_null hfresh hnull).symm.trans (h.rejects hpath)

theorem Exact.harmless (h : Exact serve r) (hfresh : r.connected = false) : Harmless r := by
  have hpresent := h.present hfresh
  by_cases hlen : r.requestPathLen - 1 = 0
  · have hnil := compared_eq_nil hlen
    refine ⟨hpresent, fun op hname => ?_, fun _ _ => .inl hnil, fun op hended => ?_⟩
    · exact absurd (hname.symm.trans hnil) op.name_ne_nil
    · rw [hnil, List.prefix_nil] at hended
      exact absurd hended (List.append_ne_nil_of_right_ne_nil _ (List.cons_ne_nil _ _))
  · refine ⟨hpresent, fun op hname => ?_, fun op hprefixed => ?_, fun op hended => ?_⟩
    · obtain ⟨op', hpath⟩ := h.path_of_matches hfresh hpresent hlen (.inl (hname ▸ List.prefix_rfl) : Matches r op)
      exact (path_eq_iff.mp hpath).1
    · obtain ⟨op', hpath⟩ := h.path_of_matches hfresh hpresent hlen (.inl hprefixed : Matches r op)
      have hname := (path_eq_iff.mp hpath).2
      obtain rfl := Operation.eq_of_prefixed (hname ▸ hprefixed)
      exact .inr hname
    · obtain ⟨op', hpath⟩ := h.path_of_matches hfresh hpresent hlen (.inr hended : Matches r op)
      have hname := (path_eq_iff.mp hpath).2
      exact not_ended_prefixed op op' (hname ▸ hended)

end

/-- A request that waits for its dispatch gets the right one exactly if its path is harmless, and one that has its upstream
connection already is not dispatched again. -/
theorem dispatch_exact_iff (serve : Operation → Status) (r : Request) :
    (r.connected = false → (Exact serve r ↔ Harmless r)) ∧
      (r.connected = true → requestHandler serve r = some { rc := .ok }) :=
  ⟨fun hfresh => ⟨fun h => h.harmless hfresh, fun h => h.exact hfresh⟩, fun hconnected => if_pos hconnected⟩

/-- A request with this path, and with a blank behind it -/
def requestOf (path : List Byte) : Request where
  requestPath := some fun i => path.getD i 32
  requestPathLen := BitVec.ofNat 32 path.length
  connected := false
  null_empty := fun h => absurd h (Option.some_ne_none _)

theorem delete_path_exact : Exact (fun _ => .ok) (requestOf (ascii "/storage/v1/delete")) := by
  refine ((dispatch_exact_iff _ _).1 rfl).mpr ⟨Option.some_ne_none _, ?_, ?_, ?_⟩
  · intro op _
    rfl
  · intro op
    cases op <;> decide
  · intro op
    cases op <;> decide

/-- A beginning of two names is taken for the first of them. -/
theorem beginning_downloads : requestHandler (fun _ => .ok) (requestOf (ascii "/storage/v1/d")) =
    some { called := some .download, rc := .ok } ∧ ¬ Exact (fun _ => .ok) (requestOf (ascii "/storage/v1/d")) := by
  have hcalled : requestHandler (fun _ => .ok) (requestOf (ascii "/storage/v1/d")) =
      some { called := some .download, rc := .ok } := by decide
  refine ⟨hcalled, fun h => ?_⟩
  have hpath := (h.dispatches .download).mp ⟨_, hcalled, rfl⟩
  revert hpath
  decide

end Tefs.Proxy.Routing
