import Tefs.DataServer.NoticeSession
import Mathlib.Data.List.Forall2

/-! # No notice is lost or sent twice

A ledger says of a connection which messages went out on it. The bytes of each connection are those of its ledger
and of a message that was not finished; the notices of all ledgers, the pending one and the queue are the notices
that were put into the queue, in their order; and the heartbeats that were counted are those of the ledgers.
-/

namespace Tefs.DataServer.NoticeSession
open ClientPutTask Runs
set_option autoImplicit false

/-! ## Ledgers -/

inductive Message
  | heartbeat (bytes : List Byte)
  | notice (bytes : List Byte)
  deriving DecidableEq, Repr

def Message.bytes : Message → List Byte
  | .heartbeat bytes | .notice bytes => bytes

def Message.heartbeat? : Message → Option (List Byte)
  | .heartbeat bytes => some bytes
  | .notice _ => none

def Message.notice? : Message → Option (List Byte)
  | .heartbeat _ => none
  | .notice bytes => some bytes

/-- What was sent whole on a connection: the registration, then the other messages. -/
structure Ledger where
  register : Option (List Byte) := none
  messages : List Message := []
  deriving DecidableEq, Repr

namespace Ledger

def bytes (l : Ledger) : List Byte := l.register.getD [] ++ l.messages.flatMap Message.bytes

def heartbeats (l : Ledger) : List (List Byte) := l.messages.filterMap Message.heartbeat?

def notices (l : Ledger) : List (List Byte) := l.messages.filterMap Message.notice?

def add (m : Message) (l : Ledger) : Ledger := { l with messages := l.messages ++ [m] }

@[simp] theorem add_register (m : Message) (l : Ledger) : (l.add m).register = l.register := rfl

@[simp] theorem bytes_add (m : Message) (l : Ledger) : (l.add m).bytes = l.bytes ++ m.bytes := by
  simp [bytes, add]

@[simp] theorem heartbeats_add (m : Message) (l : Ledger) :
    (l.add m).heartbeats = l.heartbeats ++ m.heartbeat?.toList := by
  cases m <;> simp [heartbeats, add, Message.heartbeat?]

@[simp] theorem notices_add (m : Message) (l : Ledger) : (l.add m).notices = l.notices ++ m.notice?.toList := by
  cases m <;> simp [notices, add, Message.notice?]

/-- Nothing but the registration goes out before it. -/
structure Registered (packed : List (List Byte)) (l : Ledger) : Prop where
  first : l.register = none → l.messages = []
  packed : ∀ b, l.register = some b → b ∈ packed

/-- `l` tells what went out on `c`; of the messages in `unfinished` a front part may have followed. -/
structure Explains (packed unfinished : List (List Byte)) (l : Ledger) (c : Connection) : Prop where
  registered : l.Registered packed
  wire : ∃ part, c.wire = l.bytes ++ part ∧ (part = [] ∨ ∃ m ∈ unfinished, part <+: m ∧ part ≠ m)
  counted : l.heartbeats = c.counted

theorem Registered.mono {packed packed' : List (List Byte)} {l : Ledger} (h : l.Registered packed)
    (hsub : packed ⊆ packed') : l.Registered packed' := ⟨h.first, fun b hb => hsub (h.packed b hb)⟩

theorem Explains.mono {packed packed' unfinished unfinished' : List (List Byte)} {l : Ledger} {c : Connection}
    (h : l.Explains packed unfinished c) (hpacked : packed ⊆ packed') (hsub : unfinished ⊆ unfinished') :
    l.Explains packed' unfinished' c := by
  obtain ⟨part, hwire, hpart⟩ := h.wire
  refine ⟨h.registered.mono hpacked, ⟨part, hwire, hpart.imp_right ?_⟩, h.counted⟩
  rintro ⟨m, hm, hfront⟩
  exact ⟨m, hsub hm, hfront⟩

/-- A message of the ledger is on the wire. -/
theorem Explains.bytes_subset {packed unfinished : List (List Byte)} {l : Ledger} {c : Connection}
    (h : l.Explains packed unfinished c) {m : Message} (hm : m ∈ l.messages) : m.bytes ⊆ c.wire := by
  obtain ⟨part, hwire, -⟩ := h.wire
  intro b hb
  rw [hwire, bytes, List.mem_append, List.mem_append]
  exact .inl (.inr (List.mem_flatMap.mpr ⟨m, hm, hb⟩))

end Ledger

/-! ## What is claimed of a state -/

def connections (s : NoticeSession) : List Connection :=
  s.closed ++ s.socket.toList.map fun k => ⟨k.wire, s.counted⟩

def Delivered (s : NoticeSession) : Prop :=
  ∃ ledgers : List Ledger,
    List.Forall₂ (Ledger.Explains s.packed (s.resMessage.toList ++ s.packed)) ledgers s.connections ∧
      s.put = ledgers.flatMap Ledger.notices ++ s.resMessage.toList ++ s.messageQueue

/-! ## What has to be true of a step -/

/-- The message `sendNotice` would be given -/
def next (s : NoticeSession) : Option (List Byte) := if s.sendbusy then s.resMessage else s.messageQueue.head?

/-- If the kernel takes all that is in the buffer of `k`, it was not of another message. -/
def Unmixed (message : List Byte) (sends : List SendResult) (k : ServerSocket) : Prop :=
  k.rest.length ≤ taken sends → k.sendBuffer = [] ∨ k.sendBuffer = message

/-- `Send` of a part of a notice does not fail. -/
def Unbroken : SendResult → Prop
  | .bytes _ => True
  | .error theErr => theErr = eagain

def Allowed (heartBeatTime : ℤ) (s : NoticeSession) : Action → Prop
  | .put _ => True
  | .run _ => True
  | .go r =>
    (∀ result ∈ r.sends, result.Real) ∧
      (s.point = .heartbeat → s.events.idle → heartBeatTime ≤ s.mulIdleTime →
        ∀ k ∈ s.socket, Unmixed r.packet r.sends k) ∧
      (s.point = .notices → (s.sendbusy ∨ s.resMessage = none) ∧
        ∀ message ∈ s.next, (∀ result ∈ r.sends, Unbroken result) ∧ ∀ k ∈ s.socket, Unmixed message r.sends k)

instance (message : List Byte) (sends : List SendResult) (k : ServerSocket) : Decidable (Unmixed message sends k) :=
  inferInstanceAs (Decidable (_ → _))

instance : ∀ result : SendResult, Decidable (Unbroken result)
  | .bytes _ => .isTrue trivial
  | .error _ => inferInstanceAs (Decidable (_ = _))

instance (heartBeatTime : ℤ) (s : NoticeSession) : ∀ a, Decidable (Allowed heartBeatTime s a)
  | .put _ | .run _ => .isTrue trivial
  | .go _ => inferInstanceAs (Decidable (_ ∧ _ ∧ _))

/-! ## The invariant -/

/-- The message in `socket` is the pending notice or a packet of this session, and the ledger tells what is on the
wire before it. -/
structure Flowing (s : NoticeSession) (cur : Ledger) (k : ServerSocket) : Prop where
  carries : k.Carries cur.bytes
  owned : k.sendBuffer = [] ∨ k.sendBuffer ∈ s.resMessage.toList ++ s.packed
  counted : cur.heartbeats = s.counted
  registered : cur.Registered s.packed
  initial : s.fState = .kInitial → cur = {} ∧ k.sendBuffer = []
  register : s.fState = .kSendRegister → cur = {} ∧ (k.sendV s.packetSend).sendBuffer ∈ s.packed
  begun : s.fState = .kRecvRegisterResponse ∨ s.fState = .kConnected → cur.register ≠ none

/-- The messages a closed connection may have a front part of: a notice that is taken up again is none of them. -/
def kept (s : NoticeSession) : List (List Byte) := (if s.sendbusy then [] else s.resMessage.toList) ++ s.packed

structure Inv (s : NoticeSession) (done : List Ledger) (cur : Ledger) : Prop where
  closed : List.Forall₂ (Ledger.Explains s.packed s.kept) done s.closed
  put : s.put = done.flatMap Ledger.notices ++ cur.notices ++ s.resMessage.toList ++ s.messageQueue
  busy : s.sendbusy = true → s.resMessage ≠ none
  unconnected : s.socket = none → cur = {}
  connected : ∀ k, s.socket = some k → Flowing s cur k

/-- The parts of the state that belong to a point of `Run` -/
def Fits (s : NoticeSession) : Prop :=
  match s.point with
  | .initial => s.fState = .kInitial
  | .sendRegister => s.fState = .kSendRegister
  | .recvResponse => s.fState = .kRecvRegisterResponse
  | .readCommands => s.fState = .kConnected
  | .heartbeat | .notices => s.socket ≠ none → s.fState = .kConnected
  | .returned | .crashed => True

def Kept (s : NoticeSession) : Prop := ∃ done cur, Inv s done cur

variable {s : NoticeSession} {done : List Ledger} {cur : Ledger} {k : ServerSocket}

/-- Only these fields matter. -/
theorem Flowing.of_eq {s' : NoticeSession} (h : Flowing s cur k) (hstate : s'.fState = s.fState)
    (hmessage : s'.resMessage = s.resMessage) (hpacked : s'.packed = s.packed)
    (hsend : s'.packetSend = s.packetSend) (hcounted : s'.counted = s.counted) : Flowing s' cur k := by
  constructor
  · exact h.carries
  · rw [hmessage, hpacked]
    exact h.owned
  · rw [hcounted]
    exact h.counted
  · rw [hpacked]
    exact h.registered
  · rw [hstate]
    exact h.initial
  · rw [hstate, hsend, hpacked]
    exact h.register
  · rw [hstate]
    exact h.begun

/-- What a connection leaves behind -/
theorem Flowing.explains (h : Flowing s cur k) :
    cur.Explains s.packed (s.resMessage.toList ++ s.packed) ⟨k.wire, s.counted⟩ := by
  refine ⟨h.registered, ⟨k.sendBuffer.take k.sentLength, h.carries.wire, ?_⟩, h.counted⟩
  obtain hempty | howned := h.owned
  · rw [hempty, List.take_nil]
    exact .inl rfl
  · obtain hlt | hzero := h.carries.sound
    · refine .inr ⟨k.sendBuffer, howned, List.take_prefix _ _, fun hall => ?_⟩
      have hlen := congrArg List.length hall
      rw [List.length_take] at hlen
      omega
    · rw [hzero, List.take_zero]
      exact .inl rfl

theorem Inv.delivered (h : Inv s done cur) : Delivered s := by
  have hsub : s.kept ⊆ s.resMessage.toList ++ s.packed := by
    intro m hm
    rw [kept] at hm
    split at hm
    · exact List.mem_append_right _ hm
    · exact hm
  have hclosed : List.Forall₂ (Ledger.Explains s.packed (s.resMessage.toList ++ s.packed)) done s.closed :=
    h.closed.imp fun _ _ hexplains => hexplains.mono (List.Subset.refl _) hsub
  cases hsocket : s.socket with
  | none =>
    refine ⟨done, ?_, ?_⟩
    · rw [connections, hsocket]
      simpa using hclosed
    · rw [h.put, h.unconnected hsocket]
      simp [Ledger.notices]
  | some k =>
    refine ⟨done ++ [cur], ?_, ?_⟩
    · rw [connections, hsocket]
      exact List.rel_append hclosed (.cons ((h.connected k hsocket).explains) .nil)
    · rw [h.put]
      simp

/-! ## The steps -/

theorem Inv.goTo (h : Inv s done cur) (point : Point) : Inv (s.goTo point) done cur :=
  ⟨h.closed, h.put, h.busy, h.unconnected, fun k hk => (h.connected k hk).of_eq rfl rfl rfl rfl rfl⟩

theorem Kept.goTo (h : Kept s) (point : Point) : Kept (s.goTo point) := by
  obtain ⟨done, cur, hinv⟩ := h
  exact ⟨done, cur, hinv.goTo point⟩

theorem kept_again (s : NoticeSession) : s.kept ⊆ s.again.kept := by
  intro m hm
  show m ∈ s.resMessage.toList ++ s.packed
  rw [kept] at hm
  split at hm
  · exact List.mem_append_right _ hm
  · exact hm

theorem Kept.again (h : Kept s) : Kept s.again := by
  obtain ⟨done, cur, hinv⟩ := h
  have hclosed : List.Forall₂ (Ledger.Explains s.again.packed s.again.kept) done s.closed :=
    hinv.closed.imp fun _ _ hexplains => hexplains.mono (List.Subset.refl _) (kept_again s)
  cases hsocket : s.socket with
  | none =>
    refine ⟨done, {}, ⟨?_, ?_, fun hbusy => (Bool.false_ne_true hbusy).elim, fun _ => rfl, fun k hk => ?_⟩⟩
    · show List.Forall₂ _ done (s.closed ++ s.socket.toList.map fun k => ⟨k.wire, s.counted⟩)
      rw [hsocket]
      simpa using hclosed
    · rw [← hinv.unconnected hsocket]
      exact hinv.put
    · cases hk
  | some k =>
    refine ⟨done ++ [cur], {}, ⟨?_, ?_, fun hbusy => (Bool.false_ne_true hbusy).elim, fun _ => rfl, fun k hk => ?_⟩⟩
    · show List.Forall₂ _ (done ++ [cur]) (s.closed ++ s.socket.toList.map fun k => ⟨k.wire, s.counted⟩)
      rw [hsocket]
      exact List.rel_append hclosed (.cons (hinv.connected k hsocket).explains .nil)
    · show s.put = _ ++ _ ++ s.resMessage.toList ++ s.messageQueue
      rw [hinv.put]
      simp [Ledger.notices]
    · cases hk

theorem Kept.openSocket (h : Kept s) (hstate : s.fState = .kInitial) :
    Kept s.openSocket ∧ s.openSocket.fState = .kInitial := by
  unfold NoticeSession.openSocket
  split
  · exact ⟨h, hstate⟩
  · next hnone =>
    refine ⟨?_, hstate⟩
    obtain ⟨done, cur, hinv⟩ := h
    have hcur : cur = {} := hinv.unconnected (Option.not_isSome_iff_eq_none.mp hnone)
    subst hcur
    refine ⟨done, {}, ⟨hinv.closed, hinv.put, hinv.busy, fun _ => rfl, fun k hk => ?_⟩⟩
    cases hk
    refine ⟨⟨.inr rfl, rfl⟩, .inl rfl, rfl, ⟨fun _ => rfl, fun b hb => ?_⟩, fun _ => ⟨rfl, rfl⟩, fun hfalse => ?_,
      fun hfalse => ?_⟩
    · cases hb
    · rw [hstate] at hfalse
      cases hfalse
    · rw [hstate] at hfalse
      obtain hfalse | hfalse := hfalse
      · cases hfalse
      · cases hfalse

/-- A packet in `fPacketSend`, when that does not hold the registration -/
theorem Inv.pack (h : Inv s done cur) (hstate : s.socket ≠ none → s.fState ≠ .kSendRegister) (packet : List Byte) :
    Inv (s.pack packet) done cur := by
  have hpacked : s.packed ⊆ (s.pack packet).packed := List.subset_append_left _ _
  have hkept : s.kept ⊆ (s.pack packet).kept := List.append_subset.mpr
    ⟨List.subset_append_left _ _, fun m hm => List.mem_append_right _ (hpacked hm)⟩
  refine ⟨h.closed.imp fun _ _ hexplains => hexplains.mono hpacked hkept, h.put, h.busy, h.unconnected, fun k hk => ?_⟩
  have hflow := h.connected k hk
  refine ⟨hflow.carries, hflow.owned.imp_right fun hmem => ?_, hflow.counted, hflow.registered.mono hpacked,
    hflow.initial, fun hfalse => absurd hfalse (hstate ?_), hflow.begun⟩
  · exact List.append_subset.mpr ⟨List.subset_append_left _ _, fun m hm => List.mem_append_right _ (hpacked hm)⟩ hmem
  · exact fun hnone => Option.some_ne_none k (hk.symm.trans hnone)

/-- The connection is new and the registration is in `fPacketSend`. -/
theorem Inv.connect (h : Inv s done cur) (hstate : s.fState = .kInitial) (packet : List Byte) :
    Inv { s.pack packet with fState := .kSendRegister } done cur := by
  have hpack := h.pack (fun _ => by rw [hstate]; decide) packet
  refine ⟨hpack.closed, hpack.put, hpack.busy, hpack.unconnected, fun k hk => ?_⟩
  have hflow := hpack.connected k hk
  obtain ⟨hcur, hempty⟩ := hflow.initial hstate
  refine ⟨hflow.carries, hflow.owned, hflow.counted, hflow.registered, fun hfalse => ?_, fun _ => ⟨hcur, ?_⟩,
    fun hfalse => ?_⟩
  · cases hfalse
  · rw [ServerSocket.sendV_of_empty hempty]
    exact List.mem_append_right _ List.mem_cons_self
  · obtain hfalse | hfalse := hfalse
    · cases hfalse
    · cases hfalse

/-- What is sent or left of a message after `Sendall` was called with it -/
theorem sendall_cases {base : List Byte} (h : k.Carries base) {message : List Byte} {sends : List SendResult}
    (hreal : ∀ r ∈ sends, r.Real) (hunmixed : Unmixed message sends k) :
    ((k.sendall message sends).1 = osNoErr ∧ (k.sendall message sends).2.sendBuffer = [] ∧
        (k.sendall message sends).2.Carries (base ++ message)) ∨
      ((k.sendall message sends).1 ≠ osNoErr ∧ (k.sendall message sends).2.Carries base ∧
        ((k.sendall message sends).2.sendBuffer = message ∨ (k.sendall message sends).2.sendBuffer = k.sendBuffer)) := by
  have hattempt := h.sendall message hreal
  by_cases hempty : k.sendBuffer = []
  · rw [ServerSocket.sendV_of_empty hempty] at hattempt
    by_cases hdone : (k.sendall message sends).1 = osNoErr
    · exact .inl ⟨hdone, hattempt.done hdone⟩
    · exact .inr ⟨hdone, (hattempt.left hdone).2, .inl (hattempt.left hdone).1⟩
  · rw [ServerSocket.sendV_of_busy hempty] at hattempt
    by_cases hdone : (k.sendall message sends).1 = osNoErr
    · have htaken : k.rest.length ≤ taken sends := by
        have hloop := hdone
        rw [ServerSocket.sendall, ServerSocket.sendV_of_busy hempty, if_neg hempty] at hloop
        exact ServerSocket.taken_of_sendLoop hreal hloop
      have hown : k.sendBuffer = message := (hunmixed htaken).resolve_left hempty
      rw [hown] at hattempt
      exact .inl ⟨hdone, hattempt.done hdone⟩
    · exact .inr ⟨hdone, (hattempt.left hdone).2, .inr (hattempt.left hdone).1⟩

theorem sendLoop_unbroken {sends : List SendResult} (h : ∀ r ∈ sends, Unbroken r) (k : ServerSocket) :
    (k.sendLoop sends).1 = osNoErr ∨ (k.sendLoop sends).1 = eagain := by
  induction sends generalizing k with
  | nil => exact .inr rfl
  | cons r sends ih =>
    have hr := h r List.mem_cons_self
    have hrest := fun r hr => h r (List.mem_cons_of_mem _ hr)
    cases r with
    | error theErr => exact .inr hr
    | bytes n =>
      rw [ServerSocket.sendLoop]
      split
      · exact .inl rfl
      · exact ih hrest _

theorem sendall_unbroken {sends : List SendResult} (h : ∀ r ∈ sends, Unbroken r) (message : List Byte)
    (k : ServerSocket) : (k.sendall message sends).1 = osNoErr ∨ (k.sendall message sends).1 = eagain := by
  rw [ServerSocket.sendall]
  split
  · exact .inl rfl
  · exact sendLoop_unbroken h _

/-- The message in the buffer was not sent whole. -/
theorem Inv.left (h : Inv s done cur) (hk : s.socket = some k) (hstate : s.fState = .kConnected) {k' : ServerSocket}
    (hcarries : k'.Carries cur.bytes) (howned : k'.sendBuffer = [] ∨ k'.sendBuffer ∈ s.resMessage.toList ++ s.packed) :
    Inv { s with socket := some k' } done cur := by
  refine ⟨h.closed, h.put, h.busy, fun hnone => ?_, fun l hl => ?_⟩
  · cases hnone
  · cases hl
    have hflow := h.connected k hk
    refine ⟨hcarries, howned, hflow.counted, hflow.registered, fun hfalse => ?_, fun hfalse => ?_, hflow.begun⟩
    · rw [hstate] at hfalse
      cases hfalse
    · rw [hstate] at hfalse
      cases hfalse

/-- A message was sent whole, and is now in the ledger. -/
theorem Flowing.add (h : Flowing s cur k) (hstate : s.fState = .kConnected) {m : Message} {k' : ServerSocket}
    (hempty : k'.sendBuffer = []) (hcarries : k'.Carries (cur.bytes ++ m.bytes)) {s' : NoticeSession}
    (hsame : s'.fState = .kConnected) (hpacked : s'.packed = s.packed)
    (hcounted : s'.counted = s.counted ++ m.heartbeat?.toList) : Flowing s' (cur.add m) k' := by
  have hbegun := h.begun (.inr hstate)
  refine ⟨?_, .inl hempty, ?_, ⟨fun hfalse => absurd hfalse hbegun, ?_⟩, fun hfalse => ?_, fun hfalse => ?_,
    fun _ => hbegun⟩
  · rw [Ledger.bytes_add]
    exact hcarries
  · rw [Ledger.heartbeats_add, h.counted, hcounted]
  · rw [hpacked]
    exact h.registered.packed
  · rw [hsame] at hfalse
    cases hfalse
  · rw [hsame] at hfalse
    cases hfalse

theorem Inv.heartbeat (h : Inv s done cur) (hk : s.socket = some k) (hstate : s.fState = .kConnected)
    {k' : ServerSocket} {packet : List Byte} (hempty : k'.sendBuffer = [])
    (hcarries : k'.Carries (cur.bytes ++ packet)) :
    Inv { s with socket := some k', counted := s.counted ++ [packet] } done (cur.add (.heartbeat packet)) := by
  refine ⟨h.closed, ?_, h.busy, fun hnone => ?_, fun l hl => ?_⟩
  · rw [Ledger.notices_add]
    simpa [Message.notice?] using h.put
  · cases hnone
  · cases hl
    exact (h.connected k hk).add (m := .heartbeat packet) hstate hempty hcarries hstate rfl rfl

theorem Inv.notice (h : Inv s done cur) (hk : s.socket = some k) (hstate : s.fState = .kConnected)
    (hbusy : s.sendbusy = true) {k' : ServerSocket} {message : List Byte} (hmessage : s.resMessage = some message)
    (hempty : k'.sendBuffer = []) (hcarries : k'.Carries (cur.bytes ++ message)) :
    Inv { s with socket := some k', sendbusy := false, resMessage := none } done (cur.add (.notice message)) := by
  have hkept : s.kept = s.packed := by
    rw [kept, if_pos hbusy]
    rfl
  refine ⟨?_, ?_, fun hfalse => (Bool.false_ne_true hfalse).elim, fun hnone => ?_, fun l hl => ?_⟩
  · have hclosed := h.closed
    rw [hkept] at hclosed
    exact hclosed
  · have hput := h.put
    rw [hmessage] at hput
    rw [Ledger.notices_add]
    simpa [Message.notice?] using hput
  · cases hnone
  · cases hl
    exact (h.connected k hk).add (m := .notice message) hstate hempty hcarries hstate rfl (List.append_nil _).symm

/-- The next notice is taken from the queue, and none is lost by it. -/
theorem Inv.takeUp (h : Inv s done cur) (hbusy : s.sendbusy = false) (hnone : s.resMessage = none) :
    Inv { s.getMessageFromQueue with sendbusy := s.messageQueue.head?.isSome } done cur := by
  have hput := h.put
  have hkept : s.kept = s.packed := by
    rw [kept, hnone, hbusy]
    rfl
  have hclosed := h.closed
  rw [hkept] at hclosed
  rw [hnone, Option.toList_none, List.append_nil] at hput
  have hflow : ∀ k, s.socket = some k → Flowing { s.getMessageFromQueue with sendbusy := s.messageQueue.head?.isSome }
      cur k := by
    intro k hk
    have hflow := h.connected k hk
    refine ⟨hflow.carries, hflow.owned.imp_right fun hmem => ?_, hflow.counted, hflow.registered, hflow.initial,
      hflow.register, hflow.begun⟩
    rw [hnone] at hmem
    exact List.mem_append_right _ hmem
  cases hqueue : s.messageQueue with
  | nil =>
    rw [hqueue] at hflow
    refine ⟨?_, ?_, fun hfalse => (Bool.false_ne_true hfalse).elim, h.unconnected, hflow⟩
    · simpa [kept, getMessageFromQueue, hqueue] using hclosed
    · simpa [getMessageFromQueue, hqueue] using hput
  | cons m q =>
    rw [hqueue] at hflow
    refine ⟨?_, ?_, fun _ => ?_, h.unconnected, hflow⟩
    · simpa [kept, getMessageFromQueue, hqueue] using hclosed
    · simpa [getMessageFromQueue, hqueue] using hput
    · simp [getMessageFromQueue, hqueue]

/-! ## The points of `Run` -/

structure Good (s : NoticeSession) : Prop where
  kept : Kept s
  fits : Fits s

theorem Kept.returned (h : Kept s) : Good (s.goTo .returned) := ⟨h.goTo _, trivial⟩

theorem Kept.crashed (h : Kept s) : Good (s.goTo .crashed) := ⟨h.goTo _, trivial⟩

theorem Kept.toNotices (h : Kept s) (hstate : s.socket ≠ none → s.fState = .kConnected) : Good s.toNotices := by
  unfold NoticeSession.toNotices
  split
  · exact ⟨h.goTo _, hstate⟩
  · exact h.returned

theorem Kept.requestEvent (h : Kept s) {point : Point} (hfits : s.socket ≠ none → Fits (s.goTo point)) :
    Good (s.requestEvent point) := by
  unfold NoticeSession.requestEvent
  split
  · next hsome =>
    refine ⟨h.goTo _, hfits fun hnone => ?_⟩
    rw [hnone] at hsome
    cases hsome
  · exact h.crashed

theorem Good.runInitial (h : Good s) (hpoint : s.point = .initial) (r : Results) : Good (s.runInitial r) := by
  have hstate : s.fState = .kInitial := by
    have hfits := h.fits
    rwa [Fits, hpoint] at hfits
  obtain ⟨hopen, hinitial⟩ := h.kept.openSocket hstate
  unfold NoticeSession.runInitial
  dsimp only
  split
  · exact hopen.returned
  · obtain ⟨done, cur, hinv⟩ := hopen
    have hconnect := hinv.connect hinitial r.packet
    split
    · exact ⟨⟨done, cur, hconnect.goTo .sendRegister⟩, rfl⟩
    · split
      · exact ⟨⟨done, cur, hconnect.goTo .returned⟩, trivial⟩
      · have hne : s.openSocket.fState ≠ .kSendRegister := by
          rw [hinitial]
          decide
        exact (Kept.again ⟨done, cur, hinv.pack (fun _ => hne) r.packet⟩).returned

theorem sendV_nil (k : ServerSocket) : (k.sendV []).sendBuffer = k.sendBuffer := by
  by_cases hempty : k.sendBuffer = []
  · rw [ServerSocket.sendV_of_empty hempty, hempty]
  · rw [ServerSocket.sendV_of_busy hempty]

/-- A message that is already in the buffer is not put there again. -/
theorem sendV_again {k' : ServerSocket} {packet : List Byte} (h : k'.sendBuffer = (k.sendV packet).sendBuffer) :
    (k'.sendV packet).sendBuffer = k'.sendBuffer := by
  by_cases hempty : k'.sendBuffer = []
  · have hpacket : packet = [] := by
      by_cases hk : k.sendBuffer = []
      · rw [ServerSocket.sendV_of_empty hk, hempty] at h
        exact h.symm
      · rw [ServerSocket.sendV_of_busy hk, hempty] at h
        exact absurd h.symm hk
    rw [hpacket, sendV_nil]
  · rw [ServerSocket.sendV_of_busy hempty]

/-- Part of the registration may be sent, and the rest of it is what `Sendall` goes on with. -/
theorem Inv.registering (h : Inv s done cur) (hk : s.socket = some k) (hstate : s.fState = .kSendRegister)
    {k' : ServerSocket} {packet : List Byte} (hcarries : k'.Carries cur.bytes) (howned : k'.sendBuffer ∈ s.packed)
    (hnext : (k'.sendV packet).sendBuffer = k'.sendBuffer) :
    Inv { s with socket := some k', packetSend := packet } done cur := by
  refine ⟨h.closed, h.put, h.busy, fun hnone => ?_, fun l hl => ?_⟩
  · cases hnone
  · cases hl
    have hflow := h.connected k hk
    refine ⟨hcarries, .inr (List.mem_append_right _ howned), hflow.counted, hflow.registered, fun hfalse => ?_,
      fun _ => ⟨(hflow.register hstate).1, ?_⟩, hflow.begun⟩
    · rw [hstate] at hfalse
      cases hfalse
    · rw [hnext]
      exact howned

theorem Inv.registered (h : Inv s done cur) (hk : s.socket = some k) (hstate : s.fState = .kSendRegister)
    {k' : ServerSocket} {packet : List Byte} (hempty : k'.sendBuffer = [])
    (hcarries : k'.Carries (cur.bytes ++ packet)) (hpacked : packet ∈ s.packed) :
    Inv { s with socket := some k', fState := .kRecvRegisterResponse } done { cur with register := some packet } := by
  have hflow := h.connected k hk
  obtain ⟨rfl, -⟩ := hflow.register hstate
  refine ⟨h.closed, h.put, h.busy, fun hnone => ?_, fun l hl => ?_⟩
  · cases hnone
  · cases hl
    refine ⟨?_, .inl hempty, hflow.counted, ⟨fun hfalse => ?_, fun b hb => ?_⟩, fun hfalse => ?_, fun hfalse => ?_,
      fun _ hfalse => ?_⟩
    · simpa [Ledger.bytes] using hcarries
    · cases hfalse
    · cases hb
      exact hpacked
    · cases hfalse
    · cases hfalse
    · cases hfalse

theorem Good.runSendRegister (h : Good s) (hpoint : s.point = .sendRegister) (r : Results)
    (hreal : ∀ result ∈ r.sends, result.Real) : Good (s.runSendRegister r) := by
  have hstate : s.fState = .kSendRegister := by
    have hfits := h.fits
    rwa [Fits, hpoint] at hfits
  unfold NoticeSession.runSendRegister
  cases hsocket : s.socket with
  | none => exact h.kept.crashed
  | some k =>
    obtain ⟨done, cur, hinv⟩ := h.kept
    have hflow := hinv.connected k hsocket
    have hpacked := (hflow.register hstate).2
    have hattempt := hflow.carries.sendall s.packetSend hreal
    dsimp only
    split
    · next heagain =>
      have hleft := hattempt.left (by rw [heagain]; decide)
      have hregistering := hinv.registering hsocket hstate hleft.2 (hleft.1 ▸ hpacked) (sendV_nil _)
      exact ⟨⟨done, cur, hregistering.goTo .returned⟩, trivial⟩
    · split
      · next herr =>
        have hleft := hattempt.left herr
        have hregistering := hinv.registering hsocket hstate hleft.2 (hleft.1 ▸ hpacked) (sendV_again hleft.1)
        exact (Kept.again ⟨done, cur, hregistering⟩).returned
      · next hok =>
        obtain ⟨hempty, hcarries⟩ := hattempt.done (not_not.mp hok)
        exact ⟨⟨done, _, (hinv.registered hsocket hstate hempty hcarries hpacked).goTo .recvResponse⟩, rfl⟩

/-! ### Reading -/

theorem responseLoop_cases (turns : List ReadTurn) (s : NoticeSession) :
    (responseLoop turns s).2 = s ∨ (responseLoop turns s).2 = s.again := by
  induction turns with
  | nil => exact .inl rfl
  | cons turn turns ih =>
    rw [responseLoop]
    split
    · split
      · exact ih
      · exact .inl rfl
    · next ret _ _ =>
      by_cases hret : ret < 0
      · exact .inr (if_pos hret)
      · exact .inl (if_neg hret)

theorem Kept.responseLoop (h : Kept s) (turns : List ReadTurn) : Kept (responseLoop turns s).2 := by
  obtain heq | heq := responseLoop_cases turns s
  · rw [heq]
    exact h
  · rw [heq]
    exact h.again

/-- The response has come. -/
theorem Inv.response (h : Inv s done cur) (hstate : s.fState = .kRecvRegisterResponse ∨ s.socket = none) :
    Inv { s with fState := .kConnected } done cur := by
  refine ⟨h.closed, h.put, h.busy, h.unconnected, fun k hk => ?_⟩
  have hflow := h.connected k hk
  have hrecv : s.fState = .kRecvRegisterResponse := by
    refine hstate.resolve_right fun hnone => ?_
    rw [hnone] at hk
    cases hk
  refine ⟨hflow.carries, hflow.owned, hflow.counted, hflow.registered, fun hfalse => ?_, fun hfalse => ?_,
    fun _ => hflow.begun (.inl hrecv)⟩
  · cases hfalse
  · cases hfalse

theorem Good.runRecvResponse (h : Good s) (hpoint : s.point = .recvResponse) (r : Results) :
    Good (s.runRecvResponse r) := by
  have hstate : s.fState = .kRecvRegisterResponse := by
    have hfits := h.fits
    rwa [Fits, hpoint] at hfits
  have hkept := h.kept.responseLoop r.reads
  unfold NoticeSession.runRecvResponse
  split
  · dsimp only
    split
    · exact hkept.requestEvent fun _ => trivial
    · split
      · exact hkept.again.returned
      · have hwhere : (responseLoop r.reads s).2.fState = .kRecvRegisterResponse ∨
            (responseLoop r.reads s).2.socket = none := by
          obtain heq | heq := responseLoop_cases r.reads s
          · rw [heq]
            exact .inl hstate
          · rw [heq]
            exact .inr rfl
        obtain ⟨done, cur, hinv⟩ := hkept
        exact Kept.requestEvent ⟨done, cur, hinv.response hwhere⟩ fun _ => rfl
  · exact h.kept.crashed

theorem commands_kept {rets : List ℤ} {s' : NoticeSession} (h : Kept s) (hrun : commands rets s = some s') :
    Kept s' ∧ (s' = s ∨ s'.socket = none) := by
  induction rets generalizing s with
  | nil =>
    cases hrun
    exact ⟨h, .inl rfl⟩
  | cons ret rets ih =>
    rw [commands] at hrun
    split at hrun
    · by_cases hret : ret < 0
      · rw [if_pos hret] at hrun
        obtain ⟨hkept, hsame⟩ := ih h.again hrun
        refine ⟨hkept, .inr ?_⟩
        obtain heq | hnone := hsame
        · rw [heq]
          rfl
        · exact hnone
      · rw [if_neg hret] at hrun
        exact ih h hrun
    · cases hrun

theorem readLoop_kept {turns : List ReadTurn} {theErr : ℤ} {s' : NoticeSession} (h : Kept s)
    (hrun : readLoop turns s = some (theErr, s')) : Kept s' ∧ (s' = s ∨ s'.socket = none) := by
  induction turns generalizing s with
  | nil =>
    rw [readLoop] at hrun
    split at hrun
    · cases hrun
      exact ⟨h, .inl rfl⟩
    · cases hrun
  | cons turn turns ih =>
    rw [readLoop] at hrun
    split at hrun
    · split at hrun
      · cases hrun
      · next t hcommands =>
        obtain ⟨hkept, hsame⟩ := commands_kept h hcommands
        split at hrun
        · obtain ⟨hlast, hthen⟩ := ih hkept hrun
          refine ⟨hlast, ?_⟩
          obtain heq | hnone := hthen
          · rw [heq]
            exact hsame
          · exact .inr hnone
        · cases hrun
          exact ⟨hkept, hsame⟩
    · cases hrun

theorem Good.runReadCommands (h : Good s) (hpoint : s.point = .readCommands) (r : Results) :
    Good (s.runReadCommands r) := by
  have hstate : s.fState = .kConnected := by
    have hfits := h.fits
    rwa [Fits, hpoint] at hfits
  unfold NoticeSession.runReadCommands
  split
  · split
    · exact h.kept.crashed
    · next theErr s' hrun =>
      obtain ⟨hkept, hsame⟩ := readLoop_kept h.kept hrun
      split
      · refine ⟨hkept.goTo _, fun hsome => ?_⟩
        obtain heq | hnone := hsame
        · rw [heq]
          exact hstate
        · exact absurd hnone hsome
      · exact hkept.again.returned
  · exact ⟨h.kept.goTo _, fun _ => hstate⟩

/-! ### Sending -/

theorem Inv.idle (h : Inv s done cur) (mulIdleTime : ℤ) : Inv { s with mulIdleTime := mulIdleTime } done cur :=
  ⟨h.closed, h.put, h.busy, h.unconnected, fun k hk => (h.connected k hk).of_eq rfl rfl rfl rfl rfl⟩

theorem Good.sendHeartbeat (h : Kept s) (hstate : s.socket ≠ none → s.fState = .kConnected) (r : Results)
    (hreal : ∀ result ∈ r.sends, result.Real) (hunmixed : ∀ k ∈ s.socket, Unmixed r.packet r.sends k) :
    Good (s.sendHeartbeat r) := by
  obtain ⟨done, cur, hidle⟩ := h
  have hne : s.socket ≠ none → s.fState ≠ .kSendRegister := by
    intro hsome
    rw [hstate hsome]
    decide
  have hinv := (hidle.idle 0).pack hne r.packet
  unfold NoticeSession.sendHeartbeat
  cases hsocket : s.socket with
  | none =>
    dsimp only [pack] at hinv ⊢
    rw [hsocket] at hinv
    exact Kept.crashed ⟨done, cur, hinv⟩
  | some k =>
    have hconnected : s.fState = .kConnected := hstate (by rw [hsocket]; exact Option.some_ne_none k)
    have hflow := hinv.connected k hsocket
    have hsend := sendall_cases hflow.carries hreal (hunmixed k hsocket)
    dsimp only [pack]
    obtain ⟨hok, hempty, hcarries⟩ | ⟨herr, hcarries, hbuffer⟩ := hsend
    · have hagain : (k.sendall r.packet r.sends).1 ≠ eagain := by
        rw [hok]
        decide
      rw [if_neg hagain, if_neg (not_not.mpr hok)]
      have hbeat := hinv.heartbeat hsocket hconnected hempty hcarries
      exact Kept.toNotices ⟨done, _, hbeat.idle _⟩ fun _ => hconnected
    · have howned : (k.sendall r.packet r.sends).2.sendBuffer = [] ∨
          (k.sendall r.packet r.sends).2.sendBuffer ∈ s.resMessage.toList ++ (s.packed ++ [r.packet]) := by
        obtain hnew | hold := hbuffer
        · rw [hnew]
          exact .inr (List.mem_append_right _ (List.mem_append_right _ List.mem_cons_self))
        · rw [hold]
          exact hflow.owned
      have hleft : Kept _ := ⟨done, cur, hinv.left hsocket hconnected hcarries howned⟩
      split
      · exact hleft.returned
      · exact hleft.again.returned

theorem Good.runHeartbeat (h : Good s) (hpoint : s.point = .heartbeat) (heartBeatTime : ℤ) (r : Results)
    (hallowed : Allowed heartBeatTime s (.go r)) : Good (s.runHeartbeat heartBeatTime r) := by
  have hstate : s.socket ≠ none → s.fState = .kConnected := by
    have hfits := h.fits
    rwa [Fits, hpoint] at hfits
  obtain ⟨hreal, hbeat, -⟩ := hallowed
  unfold NoticeSession.runHeartbeat
  split
  · next hidle =>
    split
    · next hdue => exact Good.sendHeartbeat h.kept hstate r hreal (hbeat hpoint hidle hdue)
    · obtain ⟨done, cur, hinv⟩ := h.kept
      exact Kept.toNotices ⟨done, cur, hinv.idle _⟩ hstate
  · exact h.kept.toNotices hstate

/-- While `ResMessage` is being sent, only the notices after it are in the queue. -/
theorem Good.sendNotice (h : Inv { s with sendbusy := true } done cur) {message : List Byte}
    (hmessage : s.resMessage = some message) (hstate : s.socket ≠ none → s.fState = .kConnected)
    (hpoint : s.point = .notices) (r : Results) (hreal : ∀ result ∈ r.sends, result.Real)
    (hunbroken : ∀ result ∈ r.sends, Unbroken result) (hunmixed : ∀ k ∈ s.socket, Unmixed message r.sends k) :
    Good (s.sendNotice message r) := by
  unfold NoticeSession.sendNotice
  cases hsocket : s.socket with
  | none =>
    have hclosed : List.Forall₂ (Ledger.Explains s.packed s.kept) done s.closed :=
      h.closed.imp fun _ _ hexplains => hexplains.mono (List.Subset.refl _) (List.subset_append_right _ _)
    have hinv : Inv s done cur := by
      refine ⟨hclosed, h.put, fun _ => ?_, h.unconnected, fun k hk => ?_⟩
      · rw [hmessage]
        exact Option.some_ne_none message
      · rw [hsocket] at hk
        cases hk
    exact Kept.crashed ⟨done, cur, hinv⟩
  | some k =>
    have hconnected : s.fState = .kConnected := hstate (by rw [hsocket]; exact Option.some_ne_none k)
    have hflow := h.connected k hsocket
    dsimp only
    obtain ⟨hok, hempty, hcarries⟩ | ⟨herr, hcarries, hbuffer⟩ :=
      sendall_cases hflow.carries hreal (hunmixed k hsocket)
    · have hagain : (k.sendall message r.sends).1 ≠ eagain := by
        rw [hok]
        decide
      rw [if_neg hagain, if_neg (not_not.mpr hok)]
      refine ⟨⟨done, _, h.notice hsocket hconnected rfl hmessage hempty hcarries⟩, ?_⟩
      rw [Fits, hpoint]
      exact fun _ => hconnected
    · have hagain := (sendall_unbroken hunbroken message k).resolve_left herr
      have howned : (k.sendall message r.sends).2.sendBuffer = [] ∨
          (k.sendall message r.sends).2.sendBuffer ∈ s.resMessage.toList ++ s.packed := by
        obtain hnew | hold := hbuffer
        · rw [hnew, hmessage]
          exact .inr (List.mem_append_left _ List.mem_cons_self)
        · rw [hold]
          exact hflow.owned
      rw [if_pos hagain]
      exact ⟨⟨done, cur, (h.left hsocket hconnected hcarries howned).goTo .returned⟩, trivial⟩

theorem Good.runNotices (h : Good s) (hpoint : s.point = .notices) (heartBeatTime : ℤ) (r : Results)
    (hallowed : Allowed heartBeatTime s (.go r)) : Good (s.runNotices r) := by
  have hstate : s.socket ≠ none → s.fState = .kConnected := by
    have hfits := h.fits
    rwa [Fits, hpoint] at hfits
  obtain ⟨hreal, -, hnotice⟩ := hallowed
  obtain ⟨hpending, hnext⟩ := hnotice hpoint
  obtain ⟨done, cur, hinv⟩ := h.kept
  unfold NoticeSession.runNotices
  dsimp only
  by_cases hbusy : s.sendbusy = true
  · rw [if_pos hbusy]
    have hsame : { s with sendbusy := true } = s := by rw [← hbusy]
    split
    · next hnone => exact absurd hnone (hinv.busy hbusy)
    · next message hmessage =>
      obtain ⟨hunbroken, hunmixed⟩ := hnext message (by rw [next, if_pos hbusy]; exact hmessage)
      exact Good.sendNotice (hsame.symm ▸ hinv) hmessage hstate hpoint r hreal hunbroken hunmixed
  · have hfree : s.sendbusy = false := Bool.eq_false_iff.mpr hbusy
    have htake := hinv.takeUp hfree (hpending.resolve_left hbusy)
    rw [if_neg hbusy]
    split
    · next hnone =>
      have hsame : { s.getMessageFromQueue with sendbusy := s.messageQueue.head?.isSome } = s.getMessageFromQueue := by
        rw [show s.messageQueue.head? = none from hnone]
        simp [getMessageFromQueue, hfree]
      rw [hsame] at htake
      rw [if_neg (show ¬ s.getMessageFromQueue.sendbusy = true from hbusy)]
      exact Kept.requestEvent ⟨done, cur, htake⟩ fun _ => trivial
    · next message hmessage =>
      obtain ⟨hunbroken, hunmixed⟩ := hnext message (by rw [next, if_neg hbusy]; exact hmessage)
      rw [show s.messageQueue.head? = some message from hmessage] at htake
      exact Good.sendNotice htake hmessage hstate hpoint r hreal hunbroken hunmixed

theorem Good.put (h : Good s) (packet : List Byte) : Good (s.addMessageToQueue packet) := by
  obtain ⟨done, cur, hinv⟩ := h.kept
  refine ⟨⟨done, cur, ⟨hinv.closed, ?_, hinv.busy, hinv.unconnected, fun k hk => ?_⟩⟩, h.fits⟩
  · show s.put ++ [packet] = _ ++ _ ++ s.resMessage.toList ++ (s.messageQueue ++ [packet])
    rw [hinv.put, List.append_assoc]
  · exact (hinv.connected k hk).of_eq rfl rfl rfl rfl rfl

theorem Good.run (h : Good s) (events : Events) :
    Good { s with events := events, point := entry s.fState } := by
  obtain ⟨done, cur, hinv⟩ := h.kept
  refine ⟨⟨done, cur, ⟨hinv.closed, hinv.put, hinv.busy, hinv.unconnected, fun k hk => ?_⟩⟩, ?_⟩
  · exact (hinv.connected k hk).of_eq rfl rfl rfl rfl rfl
  · unfold Fits
    cases hstate : s.fState with
    | kInitial => rfl
    | kSendRegister => rfl
    | kRecvRegisterResponse => rfl
    | kConnected => rfl

theorem Good.step (h : Good s) (heartBeatTime : ℤ) {a : Action} (hallowed : Allowed heartBeatTime s a) :
    Good (s.step heartBeatTime a) := by
  cases a with
  | put packet => exact h.put packet
  | run events =>
    dsimp only [NoticeSession.step]
    split
    · exact h.run events
    · exact h
  | go r =>
    dsimp only [NoticeSession.step]
    split
    · exact h
    · next hpoint => exact h.runInitial hpoint r
    · next hpoint => exact h.runSendRegister hpoint r hallowed.1
    · next hpoint => exact h.runRecvResponse hpoint r
    · next hpoint => exact h.runReadCommands hpoint r
    · next hpoint => exact h.runHeartbeat hpoint heartBeatTime r hallowed
    · next hpoint => exact h.runNotices hpoint heartBeatTime r hallowed
    · exact h

theorem good_start : Good {} := by
  refine ⟨⟨[], {}, ⟨.nil, rfl, fun hfalse => (Bool.false_ne_true hfalse).elim, fun _ => rfl, fun k hk => ?_⟩⟩, trivial⟩
  cases hk

/-! ## Every run -/

/-- In every run in which no message is finished for another, no notice fails and no pending one is forgotten. -/
theorem notices_delivered (heartBeatTime : ℤ) {actions : List Action}
    (hrun : Reaches (ofFun (step heartBeatTime)) (Allowed heartBeatTime) {} actions s) : Delivered s := by
  have hgood : Good s := by
    refine hrun.invariant ?_ good_start
    intro s a s' hs hok htaken
    rw [← htaken]
    exact hs.step heartBeatTime hok
  obtain ⟨done, cur, hinv⟩ := hgood.kept
  exact hinv.delivered

/-- Connected and registered, with a notice in the queue, up to the loop that sends it -/
def upToNotices (notice : List Byte) : List Action :=
  [.put notice, .run { write := true }, .go { packet := [1] }, .go { sends := [.bytes 1] },
    .go { reads := [⟨osNoErr, [0]⟩] }, .go {}, .go {}]

/-- The notice goes out in two parts. -/
theorem notices_delivered_in_parts : ∃ s, Reaches (ofFun (step 5000)) (Allowed 5000) {}
    (upToNotices [7, 8] ++ [.go { sends := [.bytes 1] }, .run { write := true }, .go {}, .go {},
      .go { sends := [.bytes 1] }]) s ∧
    s.connections = [⟨[1, 7, 8], []⟩] ∧ s.resMessage = none ∧ s.messageQueue = [] ∧ Delivered s := by
  have hrun := reaches_of_allAllowed (step 5000) (Allowed 5000) {} (upToNotices [7, 8] ++
    [.go { sends := [.bytes 1] }, .run { write := true }, .go {}, .go {}, .go { sends := [.bytes 1] }]) (by decide)
  exact ⟨_, hrun, by decide, by decide, by decide, notices_delivered 5000 hrun⟩

def Possible (_ : NoticeSession) : Action → Prop
  | .put _ => True
  | .run _ => True
  | .go r => ∀ result ∈ r.sends, result.Real

instance (s : NoticeSession) : ∀ a, Decidable (Possible s a)
  | .put _ | .run _ => .isTrue trivial
  | .go _ => inferInstanceAs (Decidable (∀ _ ∈ _, _))

/-- Half of the notice is sent; the heartbeat that is due then sends the other half and counts as sent. -/
theorem heartbeat_sends_a_notice : ∃ s, Reaches (ofFun (step 0)) Possible {}
    (upToNotices [7, 8] ++ [.go { sends := [.bytes 1] }, .run { idle := true }, .go {},
      .go { packet := [9], sends := [.bytes 1] }]) s ∧ ¬ Delivered s := by
  have hrun := reaches_of_allAllowed (step 0) Possible {} (upToNotices [7, 8] ++
    [.go { sends := [.bytes 1] }, .run { idle := true }, .go {}, .go { packet := [9], sends := [.bytes 1] }])
    (by decide)
  refine ⟨_, hrun, ?_⟩
  rintro ⟨ledgers, hexplains, -⟩
  obtain ⟨l, -, hl, -, -⟩ := List.forall₂_cons_right_iff.mp hexplains
  have hbeat : [9] ∈ l.heartbeats := by
    rw [hl.counted]
    decide
  obtain ⟨m, hm, hbytes⟩ := List.mem_filterMap.mp hbeat
  have hmessage : m.bytes = [9] := by
    cases m with
    | heartbeat bytes => exact Option.some.inj hbytes
    | notice bytes => cases hbytes
  have hwire := hl.bytes_subset hm
  rw [hmessage] at hwire
  exact absurd (hwire List.mem_cons_self) (by decide)

end Tefs.DataServer.NoticeSession
