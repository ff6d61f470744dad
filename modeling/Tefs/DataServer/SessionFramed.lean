import Tefs.DataServer.Session

/-! # Every message is dispatched once

Source: `Run` and `again` of `src/NameServersession.cpp`.

`Framed` is the state of a connection between two reads. A clean run keeps it: the inner loop dispatches the
messages that are complete one after the other and stops at the part of the next one.
-/

namespace Tefs.DataServer
open Runs Wire Framing
set_option autoImplicit false

namespace NameServerSession

/-! ## One message -/

/-- `ms` were dispatched and `tail` is left, laid over the front of what was dispatched last. -/
structure Dispatched (s s' : NameServerSession) (ms : List (List Byte)) (tail : List Byte) : Prop where
  state : s'.state = s.state
  socket : s'.socket = s.socket
  looping : s'.looping = s.looping
  hung : s'.hung = s.hung
  messages : s'.messages = s.messages
  received : s'.received = s.received
  dispatched : s'.dispatched = s.dispatched ++ ms
  recvLen : s'.recvLen = tail.length
  unparsed : s'.unparsed = tail
  front : bytesAt s'.recvBuffer 0 4 = (tail ++ (s.stale ms).drop tail.length).take 4

theorem unparsed_length (s : NameServerSession) : s.unparsed.length = s.recvLen := bytesAt_length _ _ _

theorem Dispatched.refl (s : NameServerSession) : Dispatched s s [] s.unparsed := by
  refine ⟨rfl, rfl, rfl, rfl, rfl, rfl, (List.append_nil _).symm, s.unparsed_length.symm, rfl, ?_⟩
  have hfront := bytesAt_lay_over s.recvBuffer 0 4 s.unparsed
  rw [NameServerSession.unparsed, lay_bytesAt] at hfront
  exact hfront

/-- The length at the front of a message that has come is its own. -/
theorem requestLen_of_message {s : NameServerSession} {m rest : List Byte} (h : s.unparsed = m ++ rest)
    (hvalid : Valid m) : bytesAt s.recvBuffer 0 4 = m.take 4 ∧ s.requestLen = m.length := by
  have hlower := hvalid.lower
  obtain ⟨hbytes, -⟩ := bytesAt_append h
  obtain ⟨k, hk⟩ : ∃ k, m.length = 4 + k := ⟨m.length - 4, by omega⟩
  have hfront : bytesAt s.recvBuffer 0 4 = m.take 4 := by
    rw [hk, bytesAt_add] at hbytes
    conv_rhs => rw [← hbytes]
    rw [List.take_left' (bytesAt_length _ _ _)]
  exact ⟨hfront, by rw [requestLen, hfront, hvalid.len]⟩

theorem complete_of_message {s : NameServerSession} {m rest : List Byte} (h : s.unparsed = m ++ rest)
    (hvalid : Valid m) : s.Complete := by
  have hlower := hvalid.lower
  have hlen := s.unparsed_length
  rw [h, List.length_append] at hlen
  rw [Complete, (requestLen_of_message h hvalid).2]
  omega

theorem dispatch_message {s : NameServerSession} {m rest : List Byte} (h : s.unparsed = m ++ rest)
    (hvalid : Valid m) : Dispatched s (s.dispatch true) [m] rest := by
  obtain ⟨hfront, hlen⟩ := requestLen_of_message h hvalid
  obtain ⟨hbytes, hrest⟩ := bytesAt_append h
  have hsize : s.recvLen - m.length = rest.length := by
    rw [← s.unparsed_length, h, List.length_append, Nat.add_sub_cancel_left]
  have hdispatch : s.dispatch true =
      { s with
        dispatched := s.dispatched ++ [m]
        recvBuffer := lay s.recvBuffer 0 (rest.map some)
        recvLen := rest.length } := by
    rw [Int.zero_add] at hrest
    simp only [dispatch, if_true, hlen, hbytes, hsize, hrest]
  rw [hdispatch]
  refine ⟨rfl, rfl, rfl, rfl, rfl, rfl, rfl, rfl, ?_, ?_⟩
  · exact bytesAt_of_holds (holds_lay s.recvBuffer 0 (rest.map some))
  · rw [bytesAt_lay_over, hfront]
    rfl

/-- One message after the others -/
theorem Dispatched.snoc {s s' : NameServerSession} {ms : List (List Byte)} {m tail : List Byte}
    (h : Dispatched s s' ms (m ++ tail)) (hvalid : Valid m) :
    s'.Complete ∧ Dispatched s (s'.dispatch true) (ms ++ [m]) tail := by
  have hlast := dispatch_message h.unparsed hvalid
  refine ⟨complete_of_message h.unparsed hvalid, hlast.state.trans h.state,
    hlast.socket.trans h.socket, hlast.looping.trans h.looping, hlast.hung.trans h.hung,
    hlast.messages.trans h.messages, hlast.received.trans h.received, ?_,
    hlast.recvLen, hlast.unparsed, ?_⟩
  · rw [hlast.dispatched, h.dispatched, List.append_assoc]
  · have hstale : s.stale (ms ++ [m]) = s'.stale [m] := by
      rw [stale, List.getLast?_concat]
      rfl
    rw [hlast.front, hstale]

/-! ## The inner loop -/

theorem drain_messages (ok : ℕ → Bool) (s : NameServerSession) (ms : List (List Byte)) :
    ∀ tail, s.unparsed = ms.flatten ++ tail → (∀ m ∈ ms, Valid m) → (∀ i < ms.length, ok i = true) →
      ∃ s' rounds, tail.length ≤ rounds ∧ Dispatched s s' ms tail ∧
        s.drainAll ok = s'.drain ok rounds ms.length := by
  induction ms using List.reverseRecOn with
  | nil =>
    intro tail h _ _
    have htail : s.unparsed = tail := h
    refine ⟨s, s.recvLen, ?_, htail ▸ Dispatched.refl s, rfl⟩
    rw [← htail, s.unparsed_length]
  | append_singleton ms m ih =>
    intro tail h hvalid hok
    have hparts : s.unparsed = ms.flatten ++ (m ++ tail) := by
      rw [h, List.flatten_append, List.flatten_singleton, List.append_assoc]
    have hm : Valid m := hvalid m (List.mem_append_right _ (List.mem_singleton_self m))
    have hlower := hm.lower
    rw [List.length_append, List.length_singleton] at hok ⊢
    obtain ⟨s', rounds, hrounds, hdispatched, hdrain⟩ := ih (m ++ tail) hparts
      (fun m' hm' => hvalid m' (List.mem_append_left _ hm')) (fun i hi => hok i (by omega))
    obtain ⟨hcomplete, hsnoc⟩ := hdispatched.snoc hm
    rw [List.length_append] at hrounds
    obtain ⟨rounds, rfl⟩ : ∃ k, rounds = k + 1 := ⟨rounds - 1, by omega⟩
    refine ⟨s'.dispatch true, rounds, by omega, hsnoc, ?_⟩
    rw [hdrain, drain, if_pos hcomplete, hok ms.length (by omega)]

theorem Dispatched.not_complete {s s' : NameServerSession} {ms : List (List Byte)} {tail : List Byte}
    (h : Dispatched s s' ms tail) (hwaits : Waits tail (s.stale ms)) : ¬ s'.Complete := by
  intro ⟨hpos, hle⟩
  rw [h.recvLen] at hpos hle
  rw [requestLen, h.front] at hle
  obtain hnil | hlt := hwaits
  · rw [hnil, List.length_nil] at hpos
    exact Nat.lt_irrefl 0 hpos
  · omega

theorem drainAll_messages {ok : ℕ → Bool} {s : NameServerSession} {ms : List (List Byte)} {tail : List Byte}
    (h : s.unparsed = ms.flatten ++ tail) (hvalid : ∀ m ∈ ms, Valid m) (hok : ∀ i < ms.length, ok i = true)
    (hwaits : Waits tail (s.stale ms)) : Dispatched s (s.drainAll ok) ms tail := by
  obtain ⟨s', rounds, -, hdispatched, hdrain⟩ := drain_messages ok s ms tail h hvalid hok
  have hnot := hdispatched.not_complete hwaits
  have hends : s'.drain ok rounds ms.length = s' := by
    cases rounds with
    | zero => exact if_neg hnot
    | succ rounds => exact if_neg hnot
  rw [hdrain, hends]
  exact hdispatched

/-! ## The connection -/

/-- What was read of the messages is dispatched or in the buffer. -/
structure Framed (s : NameServerSession) : Prop where
  order : s.messages = s.dispatched ++ s.later
  received : s.received = s.dispatched.flatten.length + s.recvLen
  total : s.recvLen ≤ s.later.flatten.length
  bytes : s.unparsed = s.later.flatten.take s.recvLen

theorem Framed.relabel {s : NameServerSession} (h : Framed s) (state : SessionState) (looping : Bool) :
    Framed { s with state := state, looping := looping } :=
  ⟨h.order, h.received, h.total, h.bytes⟩

theorem later_of_append {s : NameServerSession} {rest : List (List Byte)} (h : s.messages = s.dispatched ++ rest) :
    s.later = rest := by
  rw [later, h, List.drop_left]

theorem Framed.reads {s : NameServerSession} (h : Framed s) {n : ℕ}
    (hn : s.received + n ≤ s.messages.flatten.length) : Framed (s.reads n) := by
  have hflat : s.messages.flatten = s.dispatched.flatten ++ s.later.flatten := by
    rw [h.order, List.flatten_append]
  have hreceived := h.received
  have hdrop : s.messages.flatten.drop s.received = s.later.flatten.drop s.recvLen := by
    rw [hflat, hreceived, ← List.drop_drop, List.drop_left]
  have hroom : s.recvLen + n ≤ s.later.flatten.length := by
    rw [hflat, List.length_append] at hn
    omega
  refine ⟨h.order, ?_, hroom, ?_⟩
  · simp only [NameServerSession.reads]
    omega
  · have hlen : ((s.later.flatten.drop s.recvLen).take n).length = n := by
      rw [List.length_take, List.length_drop]
      omega
    have hbehind := bytesAt_lay_behind s.recvBuffer 0 s.recvLen ((s.later.flatten.drop s.recvLen).take n)
    rw [hlen, Int.zero_add] at hbehind
    have hbytes : bytesAt s.recvBuffer 0 s.recvLen = s.later.flatten.take s.recvLen := h.bytes
    simp only [NameServerSession.reads, NameServerSession.unparsed, hdrop]
    rw [hbehind, hbytes, ← List.take_add]
    rfl

/-- What is in the buffer: the messages that are complete, and a part of the next one -/
theorem Framed.parts {s : NameServerSession} (h : Framed s) :
    ∃ rest, s.later = s.fresh 0 ++ rest ∧ s.unparsed = (s.fresh 0).flatten ++ s.part 0 := by
  obtain ⟨rest, hlater, hlen, htake, -⟩ := take_flatten s.later s.recvLen
  refine ⟨rest, hlater, ?_⟩
  have hpart : s.part 0 = rest.flatten.take (s.recvLen - (s.fresh 0).flatten.length) := by
    rw [part, Nat.add_zero, htake]
    exact List.drop_left
  rw [h.bytes, htake, hpart]
  rfl

theorem Framed.dispatched {s s' : NameServerSession} {ms rest : List (List Byte)} {tail : List Byte}
    (h : Framed s) (hd : Dispatched s s' ms tail) (hlater : s.later = ms ++ rest)
    (hparts : s.unparsed = ms.flatten ++ tail) : Framed s' ∧ s'.fresh 0 = arrived rest tail.length := by
  have hsplit : s'.messages = s'.dispatched ++ rest := by
    rw [hd.messages, hd.dispatched, h.order, hlater, List.append_assoc]
  have hrest := later_of_append hsplit
  have hlen : s.recvLen = ms.flatten.length + tail.length := by
    rw [← s.unparsed_length, hparts, List.length_append]
  have htotal := h.total
  have hflat : s.later.flatten = ms.flatten ++ rest.flatten := by rw [hlater, List.flatten_append]
  rw [hflat, List.length_append] at htotal
  refine ⟨⟨hrest ▸ hsplit, ?_, ?_, ?_⟩, ?_⟩
  · rw [hd.received, hd.dispatched, hd.recvLen, h.received, List.flatten_append, List.length_append]
    omega
  · rw [hrest, hd.recvLen]
    omega
  · have hbytes := h.bytes
    rw [hparts, hflat, hlen, List.take_length_add_append] at hbytes
    rw [hd.unparsed, hrest, hd.recvLen]
    exact List.append_cancel_left hbytes
  · rw [fresh, hrest, hd.recvLen, Nat.add_zero]

/-- Behind the messages that are complete there is none. -/
theorem Framed.none_fresh {s s' : NameServerSession} {tail : List Byte} {rest : List (List Byte)} (h : Framed s)
    (hd : Dispatched s s' (s.fresh 0) tail) (hlater : s.later = s.fresh 0 ++ rest)
    (hparts : s.unparsed = (s.fresh 0).flatten ++ tail) : s'.fresh 0 = [] := by
  have hlen : s.recvLen = (s.fresh 0).flatten.length + tail.length := by
    rw [← s.unparsed_length, hparts, List.length_append]
  have harrived : s.fresh 0 = s.fresh 0 ++ arrived rest tail.length := by
    have happend : arrived (s.fresh 0 ++ rest) s.recvLen =
        s.fresh 0 ++ arrived rest (s.recvLen - (s.fresh 0).flatten.length) := arrived_append rest (by omega)
    have hsub : s.recvLen - (s.fresh 0).flatten.length = tail.length := by omega
    rw [← hlater, hsub] at happend
    exact happend
  rw [(h.dispatched hd hlater hparts).2]
  exact List.append_cancel_left ((List.append_nil _).trans harrived).symm

/-- `Waits` looks at the stale bytes behind the part only, and those a read leaves alone. -/
theorem Framed.waits_reads {s : NameServerSession} (h : Framed s) {n : ℕ}
    (hn : s.received + n ≤ s.messages.flatten.length) (hwaits : Waits (s.part n) (s.stale (s.fresh n))) :
    Waits ((s.reads n).part 0) ((s.reads n).stale ((s.reads n).fresh 0)) := by
  have hfresh : (s.reads n).fresh 0 = s.fresh n := rfl
  have hpart : (s.reads n).part 0 = s.part n := rfl
  have hdrop : ((s.reads n).stale (s.fresh n)).drop (s.part n).length =
      (s.stale (s.fresh n)).drop (s.part n).length := by
    cases hlast : (s.fresh n).getLast? with
    | some m => simp only [stale, hlast]
    | none =>
      have hempty : s.fresh n = [] := List.getLast?_eq_none_iff.1 hlast
      obtain ⟨rest, -, hparts⟩ := (h.reads hn).parts
      rw [hfresh, hempty, hpart, List.flatten_nil, List.nil_append] at hparts
      have hlen : (s.part n).length = s.recvLen + n := by
        rw [← hparts, unparsed_length]
        rfl
      simp only [stale, hlast, bytesAt_drop, hlen]
      refine bytesAt_congr fun q hq _ => lay_of_ge _ _ ?_
      rw [List.length_map, List.length_take]
      omega
  rw [hfresh, hpart]
  unfold Waits at hwaits ⊢
  rw [hdrop]
  exact hwaits

structure Inv (s : NameServerSession) : Prop where
  valid : ∀ m ∈ s.messages, Valid m
  ends : s.hung = false
  socket : s.state ≠ .initial → s.socket = true
  framed : s.Receiving → Framed s
  register : s.state = .recvRegisterResponse → ¬ s.Complete ∧ s.fresh 0 = []
  connected : s.state = .connected → s.looping = false → s.fresh 0 = []
  start : ¬ s.Receiving → s.recvLen = 0 ∧ s.looping = false ∧
    (s.state = .sendRegister → s.dispatched = [] ∧ s.received = 0)

theorem Receiving.ne_initial {s : NameServerSession} (h : s.Receiving) : s.state ≠ .initial := by
  intro hinitial
  rw [Receiving, hinitial] at h
  exact absurd h (by decide)

theorem Inv.correct {s : NameServerSession} (h : Inv s) : s.Correct := by
  refine ⟨fun hr => ?_, fun hr => ?_, fun hr hlooping => ?_, fun hnot => (h.start hnot).1, h.ends,
    fun hlooping => ?_⟩
  · rw [(h.framed hr).order]
    exact List.prefix_append _ _
  · have hframed := h.framed hr
    rw [hframed.order, List.flatten_append, hframed.received, List.take_length_add_append, List.drop_left]
    exact hframed.bytes
  · have hframed := h.framed hr
    have hnone : s.fresh 0 = [] := by
      obtain hregister | hconnected := hr
      · exact (h.register hregister).2
      · exact h.connected hconnected hlooping
    have happend : arrived (s.dispatched ++ s.later) s.received =
        s.dispatched ++ arrived s.later (s.received - s.dispatched.flatten.length) :=
      arrived_append s.later (by rw [hframed.received]; omega)
    have hsub : s.received - s.dispatched.flatten.length = s.recvLen := by
      rw [hframed.received, Nat.add_sub_cancel_left]
    have hlater : arrived s.later s.recvLen = [] := hnone
    rw [← hframed.order, hsub, hlater, List.append_nil] at happend
    exact happend.symm
  · have hreceiving : s.Receiving := by
      by_contra hnot
      exact Bool.false_ne_true ((h.start hnot).2.1.symm.trans hlooping)
    exact h.socket hreceiving.ne_initial

theorem valid_fresh {s : NameServerSession} (h : ∀ m ∈ s.messages, Valid m) (n : ℕ) :
    ∀ m ∈ s.fresh n, Valid m := by
  intro m hm
  exact h m (List.mem_of_mem_drop ((arrived_isPrefix s.later (s.recvLen + n)).subset hm))

/-- The loop of `kConnected` dispatches what has come completely. -/
theorem Framed.drained {s : NameServerSession} (h : Framed s) (hvalid : ∀ m ∈ s.messages, Valid m)
    {ok : ℕ → Bool} (hok : ∀ i < (s.fresh 0).length, ok i = true) (hwaits : Waits (s.part 0) (s.stale (s.fresh 0))) :
    Dispatched s (s.drainAll ok) (s.fresh 0) (s.part 0) ∧ Framed (s.drainAll ok) ∧
      (s.drainAll ok).fresh 0 = [] := by
  obtain ⟨rest, hlater, hparts⟩ := h.parts
  have hd := drainAll_messages hparts (valid_fresh hvalid 0) hok hwaits
  exact ⟨hd, (h.dispatched hd hlater hparts).1, h.none_fresh hd hlater hparts⟩

/-! ## Steps -/

theorem Inv.read_connected {s : NameServerSession} (h : Inv s) (hstate : s.state = .connected) {n : ℕ}
    {ok : ℕ → Bool} (event : Bool) (hn : s.received + n ≤ s.messages.flatten.length) (hok : s.Settles n ok) :
    Inv (s.step (.read n ok event)) := by
  have hframed := (h.framed (.inr hstate)).reads hn
  have hwaits := (h.framed (.inr hstate)).waits_reads hn hok.2
  obtain ⟨hd, hframed', hnone⟩ := hframed.drained h.valid hok.1 hwaits
  have hstep : s.step (.read n ok event) = (s.reads n).drainAll ok := by
    have hreads : (s.reads n).state = .connected := hstate
    simp only [step, hreads]
  have hconnected : ((s.reads n).drainAll ok).state = .connected := hd.state.trans hstate
  rw [hstep]
  refine ⟨hd.messages ▸ h.valid, hd.hung.trans h.ends, fun _ => ?_, fun _ => hframed', fun hregister => ?_,
    fun _ _ => hnone, fun hnot => (hnot (.inr hconnected)).elim⟩
  · exact hd.socket.trans (h.socket (Receiving.ne_initial (.inr hstate)))
  · rw [hconnected] at hregister
    cases hregister

/-- Too little has come for the register response. -/
theorem Inv.read_waiting {s : NameServerSession} (h : Inv s) (hstate : s.state = .recvRegisterResponse) {n : ℕ}
    (ok : ℕ → Bool) (event : Bool) (hn : s.received + n ≤ s.messages.flatten.length) (hnone : s.fresh n = [])
    (hwaits : Waits (s.part n) (s.stale [])) : Inv (s.step (.read n ok event)) := by
  have hframed := (h.framed (.inl hstate)).reads hn
  have hparts : (s.reads n).unparsed = s.part n := by
    obtain ⟨rest, -, hparts⟩ := hframed.parts
    have hfresh : (s.reads n).fresh 0 = [] := hnone
    rw [hfresh, List.flatten_nil, List.nil_append] at hparts
    exact hparts
  have hnot : ¬ (s.reads n).Complete := by
    have hstale := (h.framed (.inl hstate)).waits_reads hn (hnone ▸ hwaits)
    have hfresh : (s.reads n).fresh 0 = [] := hnone
    rw [hfresh] at hstale
    exact (Dispatched.refl (s.reads n)).not_complete (hparts ▸ hstale)
  have hreads : (s.reads n).state = .recvRegisterResponse := hstate
  have hstep : s.step (.read n ok event) = s.reads n := by
    simp only [step, hreads]
    exact if_neg hnot
  rw [hstep]
  refine ⟨h.valid, h.ends, h.socket, fun _ => hframed, fun _ => ⟨hnot, hnone⟩, fun hconnected => ?_,
    fun hother => (hother (.inl hreads)).elim⟩
  rw [hreads] at hconnected
  cases hconnected

/-- The register response comes, with what follows it. -/
theorem Inv.read_registered {s : NameServerSession} (h : Inv s) (hstate : s.state = .recvRegisterResponse)
    {n : ℕ} {ok : ℕ → Bool} {event : Bool} (hn : s.received + n ≤ s.messages.flatten.length)
    (hsome : s.fresh n ≠ []) (hok : ok 0 = true) (hevent : (s.fresh n).length = 1 ∨ event = true) :
    Inv (s.step (.read n ok event)) := by
  have hframed := (h.framed (.inl hstate)).reads hn
  obtain ⟨rest, hlater, hparts⟩ := hframed.parts
  obtain ⟨m, ms, hfresh⟩ : ∃ m ms, s.fresh n = m :: ms := List.exists_cons_of_ne_nil hsome
  have hfresh' : (s.reads n).fresh 0 = m :: ms := hfresh
  have hm : Valid m := valid_fresh h.valid n m (by rw [hfresh]; exact List.mem_cons_self)
  rw [hfresh'] at hlater hparts
  have hunparsed : (s.reads n).unparsed = m ++ (ms.flatten ++ (s.reads n).part 0) := by
    rw [hparts, List.flatten_cons, List.append_assoc]
  have hd := dispatch_message hunparsed hm
  have hone : (s.reads n).unparsed = [m].flatten ++ (ms.flatten ++ (s.reads n).part 0) := by
    rw [hunparsed, List.flatten_singleton]
  obtain ⟨hframed', hrest⟩ := hframed.dispatched hd hlater hone
  have hstep : s.step (.read n ok event) =
      { (s.reads n).dispatch true with state := .connected, looping := event } := by
    have hreads : (s.reads n).state = .recvRegisterResponse := hstate
    simp only [step, hreads, hok]
    exact if_pos (complete_of_message hunparsed hm)
  rw [hstep]
  refine ⟨hd.messages ▸ h.valid, hd.hung.trans h.ends, fun _ => ?_, fun _ => hframed'.relabel _ _,
    fun hregister => ?_, fun _ hlooping => ?_, fun hother => (hother (.inr rfl)).elim⟩
  · exact hd.socket.trans (h.socket (Receiving.ne_initial (.inl hstate)))
  · cases hregister
  · have hlast : ms = [] := by
      have hlen := hevent.resolve_right fun htrue => Bool.false_ne_true (hlooping.symm.trans htrue)
      rw [hfresh, List.length_cons] at hlen
      exact List.length_eq_zero_iff.1 (by omega)
    subst hlast
    have hd' : Dispatched (s.reads n) ((s.reads n).dispatch true) ((s.reads n).fresh 0)
        ((s.reads n).part 0) := by
      rw [hfresh']
      exact hd
    have hnone : ((s.reads n).dispatch true).fresh 0 = [] :=
      hframed.none_fresh hd' (hfresh' ▸ hlater) (hfresh' ▸ hparts)
    exact hnone

theorem Inv.read {s : NameServerSession} (h : Inv s) {n : ℕ} {ok : ℕ → Bool} {event : Bool}
    (hen : s.Enabled (.read n ok event)) (hclean : s.Clean (.read n ok event)) :
    Inv (s.step (.read n ok event)) := by
  obtain ⟨hreceiving, -, -, -, -, -, hn⟩ := hen
  rw [Clean] at hclean
  obtain hstate | hstate := hreceiving
  · rw [if_neg (by rw [hstate]; decide)] at hclean
    by_cases hnone : s.fresh n = []
    · rw [if_pos hnone] at hclean
      exact h.read_waiting hstate ok event hn hnone hclean
    · rw [if_neg hnone] at hclean
      exact h.read_registered hstate hn hnone hclean.1 hclean.2
  · rw [if_pos hstate] at hclean
    exact h.read_connected hstate event hn hclean

/-- After a `Reads` that brought nothing -/
theorem Inv.process {s : NameServerSession} (h : Inv s) (hreceiving : s.Receiving) {ok : ℕ → Bool}
    (hok : s.state = .connected → s.Settles 0 ok) :
    Inv (s.process ok) ∧ (s.process ok).fresh 0 = [] ∧ (s.process ok).state = s.state ∧
      (s.process ok).unparsed = s.part 0 := by
  have hframed := h.framed hreceiving
  obtain hstate | hstate := hreceiving
  · obtain ⟨hnot, hnone⟩ := h.register hstate
    have hprocess : s.process ok = s := by
      simp only [NameServerSession.process, hstate]
      exact if_neg hnot
    obtain ⟨rest, -, hparts⟩ := hframed.parts
    rw [hnone, List.flatten_nil, List.nil_append] at hparts
    rw [hprocess]
    exact ⟨h, hnone, rfl, hparts⟩
  · obtain ⟨hd, hframed', hnone⟩ := hframed.drained h.valid (hok hstate).1 (hok hstate).2
    have hprocess : s.process ok = s.drainAll ok := by
      simp only [NameServerSession.process, hstate]
    have hconnected : (s.drainAll ok).state = .connected := hd.state.trans hstate
    rw [hprocess]
    refine ⟨⟨hd.messages ▸ h.valid, hd.hung.trans h.ends, fun _ => ?_, fun _ => hframed', fun hregister => ?_,
      fun _ _ => hnone, fun hother => (hother (.inr hconnected)).elim⟩, hnone, hd.state, hd.unparsed⟩
    · exact hd.socket.trans (h.socket (Receiving.ne_initial (.inr hstate)))
    · rw [hconnected] at hregister
      cases hregister

theorem Inv.again {s : NameServerSession} (h : Inv s) (hempty : s.recvLen = 0) :
    Inv { s.again with looping := false } := by
  refine ⟨h.valid, h.ends, fun hstate => (hstate rfl).elim, fun hreceiving => ?_, fun hstate => ?_,
    fun hstate => ?_, fun _ => ⟨hempty, rfl, fun hstate => ?_⟩⟩
  · obtain hstate | hstate := hreceiving
    · cases hstate
    · cases hstate
  · cases hstate
  · cases hstate
  · cases hstate

/-- A new connection, up to the register response -/
theorem Inv.registered {s : NameServerSession} (h : Inv s) (hstate : s.state = .sendRegister) :
    Inv (s.step .registered) := by
  have hnot : ¬ s.Receiving := by
    rw [Receiving, hstate]
    decide
  obtain ⟨hempty, -, hnew⟩ := h.start hnot
  have hstart := hnew hstate
  have hlater : s.later = s.messages := by rw [later, hstart.1, List.length_nil, List.drop_zero]
  have hnone : arrived s.messages 0 = [] := by
    cases hms : s.messages with
    | nil => rfl
    | cons m ms =>
      have hlower := (h.valid m (by rw [hms]; exact List.mem_cons_self)).lower
      exact if_neg (by omega)
  have hsocket : s.socket = true := h.socket (by rw [hstate]; decide)
  refine ⟨h.valid, h.ends, fun _ => hsocket, fun _ => ⟨?_, ?_, ?_, ?_⟩, fun _ => ⟨fun hcomplete => ?_, ?_⟩, fun hconnected => ?_,
    fun hother => (hother (.inl rfl)).elim⟩
  · change s.messages = s.dispatched ++ s.later
    rw [hlater, hstart.1, List.nil_append]
  · change s.received = s.dispatched.flatten.length + s.recvLen
    rw [hstart.1, hstart.2, hempty]
    rfl
  · change s.recvLen ≤ s.later.flatten.length
    omega
  · change s.unparsed = s.later.flatten.take s.recvLen
    rw [unparsed, hempty]
    rfl
  · have hpos : 0 < s.recvLen := hcomplete.1
    omega
  · change arrived s.later (s.recvLen + 0) = []
    rw [hlater, hempty, hnone]
  · cases hconnected

theorem Inv.connect {s : NameServerSession} (h : Inv s) {messages : List (List Byte)}
    (hen : s.Enabled (.connect messages)) : Inv (s.step (.connect messages)) := by
  have hnot : ¬ s.Receiving := by
    rw [Receiving, hen.1]
    decide
  obtain ⟨hempty, hidle, -⟩ := h.start hnot
  refine ⟨hen.2, h.ends, fun _ => rfl, fun hreceiving => ?_, fun hstate => ?_, fun hstate => ?_,
    fun _ => ⟨hempty, hidle, fun _ => ⟨rfl, rfl⟩⟩⟩
  · obtain hstate | hstate := hreceiving
    · cases hstate
    · cases hstate
  · cases hstate
  · cases hstate

theorem Inv.step {s : NameServerSession} (h : Inv s) {a : SessionAction} (hen : s.Enabled a)
    (hclean : s.Clean a) : Inv (s.step a) := by
  cases a with
  | connect messages => exact h.connect hen
  | registered => exact h.registered hen
  | run =>
    obtain ⟨hreceiving, -, -⟩ := hen
    exact ⟨h.valid, h.ends, h.socket, fun _ => (h.framed hreceiving).relabel s.state true, h.register,
      fun _ hlooping => (Bool.false_ne_true hlooping.symm).elim, fun hnot => (hnot hreceiving).elim⟩
  | read n ok event => exact h.read hen hclean
  | eagain ok =>
    obtain ⟨hinv, hnone, -, -⟩ := h.process hen.1 hclean
    exact ⟨hinv.valid, hinv.ends, hinv.socket, fun hreceiving => (hinv.framed hreceiving).relabel _ false,
      hinv.register, fun _ _ => hnone, fun hnot => ⟨(hinv.start hnot).1, rfl, (hinv.start hnot).2.2⟩⟩
  | readError ok =>
    obtain ⟨hinv, -, -, hunparsed⟩ := h.process hen.1 hclean.2
    have hempty : (s.process ok).recvLen = 0 := by
      rw [← unparsed_length, hunparsed, hclean.1, List.length_nil]
    exact hinv.again hempty
  | lost =>
    obtain ⟨-, hidle⟩ := hen
    have hagain : s.step .lost = { s.again with looping := false } := by
      rw [← hidle]
      rfl
    rw [hagain]
    exact h.again hclean

theorem session_framed {as : List SessionAction} {s : NameServerSession}
    (h : Reaches (ofFun step) (fun s a => s.Enabled a ∧ s.Clean a) {} as s) : s.Correct := by
  have hinv : Inv s := by
    refine h.invariant (fun s a s' hs hok htaken => ?_) ?_
    · subst htaken
      exact hs.step hok.1 hok.2
    · refine ⟨fun m hm => (List.not_mem_nil hm).elim, rfl, fun hstate => (hstate rfl).elim, fun hreceiving => ?_,
        fun hstate => ?_, fun hstate => ?_, fun _ => ⟨rfl, rfl, fun hstate => ?_⟩⟩
      · obtain hstate | hstate := hreceiving
        · cases hstate
        · cases hstate
      · cases hstate
      · cases hstate
      · cases hstate
  exact hinv.correct

/-- A register response -/
def exampleResponse : List Byte :=
  [0, 0, 0, 28, 0, 0, 0, 0, 0, 0, 0, 1, 0, 0, 0, 0, 0, 0, 0, 0, 4, 0, 0, 0, 0, 0, 0, 0]

/-- A delete command for block `<7, 0>` -/
def exampleCommand : List Byte :=
  [0, 0, 0, 32, 0, 0, 0, 0, 0, 0, 0, 5, 0, 0, 0, 0, 0, 0, 0, 0, 0, 0, 0, 7, 0, 0, 0, 0, 0, 0, 0, 0]

/-- The response and a command in pieces of at least four bytes, and a connection after that one -/
theorem session_framed_pieces :
    ∃ s, Reaches (ofFun step) (fun s a => s.Enabled a ∧ s.Clean a) {}
        [.connect [exampleResponse, exampleCommand], .registered, .read 5 (fun _ => true) false,
          .eagain fun _ => true, .run, .read 27 (fun _ => true) true, .read 28 (fun _ => true) true,
          .eagain fun _ => true, .lost, .connect [exampleResponse], .registered,
          .read 28 (fun _ => true) false] s ∧
      s.Correct ∧ s.dispatched = [exampleResponse] := by
  have hrun := reaches_of_allAllowed step (fun s a => s.Enabled a ∧ s.Clean a) {}
    [.connect [exampleResponse, exampleCommand], .registered, .read 5 (fun _ => true) false,
      .eagain fun _ => true, .run, .read 27 (fun _ => true) true, .read 28 (fun _ => true) true,
      .eagain fun _ => true, .lost, .connect [exampleResponse], .registered,
      .read 28 (fun _ => true) false] (by decide)
  exact ⟨_, hrun, session_framed hrun, by decide⟩

/-- One byte of the response is taken for an empty message. Half a message is still in the buffer when the
connection is gone. -/
theorem session_not_framed :
    (∃ s, Reaches (ofFun step) Enabled {}
        [.connect [exampleResponse], .registered, .read 1 (fun _ => false) false] s ∧
      s.dispatched = [[]] ∧ s.state = .connected ∧ s.socket = false ∧ ¬ s.Correct) ∧
    ∃ s, Reaches (ofFun step) Enabled {}
        [.connect [exampleResponse], .registered, .read 8 (fun _ => true) false, .readError fun _ => true] s ∧
      s.state = .initial ∧ s.unparsed = exampleResponse.take 8 ∧ ¬ s.Correct := by
  refine ⟨⟨_, reaches_of_allAllowed _ _ _ _ (by decide), by decide, by decide, by decide, fun h => ?_⟩,
    _, reaches_of_allAllowed _ _ _ _ (by decide), by decide, by decide, fun h => ?_⟩
  · exact absurd (h.order (by decide)) (by decide)
  · exact absurd (h.empty (by decide)) (by decide)

end NameServerSession
end Tefs.DataServer
