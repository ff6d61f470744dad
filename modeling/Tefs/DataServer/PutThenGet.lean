import Tefs.DataServer.ByteStore
import Tefs.DataServer.GetStreamed
import Tefs.DataServer.PutAcknowledged

/-! # What was put is what is got

Source: `src/DSClientPutTask.cpp`, `src/DSClientGetTask.cpp`, `diskmanager/src/data_management.cpp`.

A put task on a data server whose block manager others use too. Each write of the task is a call of the manager, and
returns to the task what the manager returned; a call of the manager is one step. Between the steps of the task, and
after it, others make any calls that leave the range of the task alone. Once the task has acknowledged, a get of any part
of the range brings the bytes that the client sent.
-/

namespace Tefs.DataServer.PutThenGet
open Runs Segments Extents Wire Manager
open Message (ClientGet)
set_option autoImplicit false

/-! ## The task and the manager -/

def blockKey (put : ClientPut) : Key := (BitVec.ofInt 64 put.fileid, BitVec.ofInt 32 put.chunkid)

/-- The call of the manager behind a write of the task -/
def managerCall (w : WriteCall) : StoreCall × ℤ :=
  (.store (.writeRawData (BitVec.ofInt 64 w.fileid, BitVec.ofInt 32 w.chunkid) w.offset w.data), w.result)

structure World where
  manager : Manager
  task : ClientPutTask

inductive Act
  | task (i : ClientPutTask.Input)
  -- a call of somebody else, and what it returned
  | other (d : StoreCall × ℤ)

inductive Taken (extendSupport : Bool) (put : ClientPut) (w : World) : Act → World → Prop
  | quiet {i : ClientPutTask.Input} (h : (w.task.step put i).writes = w.task.writes) :
      Taken extendSupport put w (.task i) ⟨w.manager, w.task.step put i⟩
  | writes {i : ClientPutTask.Input} {call : WriteCall} {s' : Manager}
      (h : (w.task.step put i).writes = w.task.writes ++ [call])
      (hcall : w.manager.Calls extendSupport (managerCall call) s') :
      Taken extendSupport put w (.task i) ⟨s', w.task.step put i⟩
  | other {d : StoreCall × ℤ} {s' : Manager} (hcall : w.manager.Calls extendSupport d s') :
      Taken extendSupport put w (.other d) ⟨s', w.task⟩

/-- The call does not touch the bytes `start..end` of the block. -/
def Leaves (put : ClientPut) : StoreCall → Prop
  | .store (.delBlock key) => key ≠ blockKey put
  | .store (.writeRawData key offset buf) => key = blockKey put → offset + buf.length ≤ put.start ∨ put.endPos < offset
  | .store (.newBlock _) | .store (.extendBlock _ _ _) | .restart => True

instance (put : ClientPut) : ∀ call, Decidable (Leaves put call)
  | .store (.delBlock _) => inferInstanceAs (Decidable (_ ≠ _))
  | .store (.writeRawData _ _ _) => inferInstanceAs (Decidable (_ → _ ∨ _))
  | .store (.newBlock _) | .store (.extendBlock _ _ _) | .restart => .isTrue trivial

/-- The task stays clear of its defects; from its first write on nobody else touches its range, and while it goes on the
data server is not started anew. -/
def Allowed (put : ClientPut) (extendBlockSize : ℤ) (w : World) : Act → Prop
  | .task i => w.task.Enabled i ∧ w.task.Regular put i
  | .other d => d.1.InRange extendBlockSize ∧ (w.task.writes ≠ [] → Leaves put d.1) ∧
      (d.1 = .restart → w.task.phase = .ended)

/-! ## The writes of the task -/

section Writes

variable {put : ClientPut} {t : ClientPutTask}

theorem managerCall_writeCall (hfile : 0 ≤ put.fileid) (hchunk : 0 ≤ put.chunkid) (result : ℤ) (r : ClientPutTask) :
    managerCall (r.writeCall put result) =
      (.store (.writeRawData (blockKey put) r.recvBlockdataOffset r.buffer), result) := by
  have hfile' := put.fileid_range
  have hchunk' := put.chunkid_range
  have hword : uint32 put.chunkid = put.chunkid := uint32_of_range hchunk (by omega)
  have hlong : put.fileid % 2 ^ 64 = put.fileid := by omega
  simp only [managerCall, ClientPutTask.writeCall, blockKey, hword, hlong]

/-- A write of the task lies in its range. -/
theorem managerCall_of_step {i : ClientPutTask.Input} {call : WriteCall} (h : t.Inv put) (hen : t.Enabled i)
    (hreg : t.Regular put i) (hcall : (t.step put i).writes = t.writes ++ [call]) :
    ∃ offset buf, managerCall call = (.store (.writeRawData (blockKey put) offset buf), call.result) ∧
      call.toSegment = ⟨offset, buf⟩ ∧ 0 ≤ offset ∧ put.start ≤ offset ∧ offset + buf.length ≤ put.endPos + 1 := by
  have hno : ∀ t' : ClientPutTask, t'.writes = t.writes → ¬ t'.writes = t.writes ++ [call] := by
    intro t' hsame heq
    rw [hsame] at heq
    exact absurd (congrArg List.length heq) (by simp)
  have hone : ∀ {r : ClientPutTask} {result : ℤ}, (0 ≤ put.fileid ∧ 0 ≤ put.chunkid ∧ 0 ≤ put.start) →
      t.writes ++ [r.writeCall put result] = t.writes ++ [call] → put.start ≤ r.recvBlockdataOffset →
      r.recvBlockdataOffset + r.buffer.length ≤ put.endPos + 1 →
      ∃ offset buf, managerCall call = (.store (.writeRawData (blockKey put) offset buf), call.result) ∧
        call.toSegment = ⟨offset, buf⟩ ∧ 0 ≤ offset ∧ put.start ≤ offset ∧ offset + buf.length ≤ put.endPos + 1 := by
    intro r result hv heq hlow hhigh
    obtain rfl := List.singleton_injective (List.append_cancel_left heq)
    exact ⟨r.recvBlockdataOffset, r.buffer, managerCall_writeCall hv.1 hv.2.1 result r, rfl, hv.2.2.trans hlow, hlow,
      hhigh⟩
  cases i with
  | run killed connected => exact (hno _ rfl hcall).elim
  | readError theErr => exact (hno _ (ClientPutTask.leave_frame put theErr t).2.2.1 hcall).elim
  | send theErr =>
    have hsame : ((t.responseSending put).leave put theErr).writes = t.writes :=
      (ClientPutTask.leave_frame put theErr _).2.2.1.trans (ClientPutTask.responseSending_frame put t).2.2.1
    exact (hno _ hsame hcall).elim
  | process maxBlockSize result =>
    obtain ⟨-, hstate, -⟩ := hen
    rw [ClientPutTask.Inv, hstate] at h
    obtain ⟨-, -, hbuf, hlen, -⟩ := h
    simp only [ClientPutTask.step, ClientPutTask.requestProcessing] at hcall
    split at hcall
    · exact (hno t rfl hcall).elim
    · next hvalid =>
      obtain ⟨hv, -, -⟩ := ClientPutTask.size_of_valid hvalid
      split at hcall
      · next hfull =>
        have hsize : t.dataRecvLen ≤ put.size := by
          obtain ⟨-, hle⟩ | ⟨-, heq⟩ := hreg.resolve_left hvalid hfull
          · exact hle
          · exact heq.le
        refine hone (r := t.prepare put) hv hcall le_rfl ?_
        have hbuffer : (t.prepare put).buffer = t.received := hbuf
        have hoffset : (t.prepare put).recvBlockdataOffset = put.start := rfl
        rw [hlen, ClientPut.size] at hsize
        rw [hbuffer, hoffset]
        omega
      · exact (hno t rfl hcall).elim
  | read bs maxBlockSize result =>
    obtain ⟨-, hstate, -, -, hmax⟩ := hen
    obtain ⟨hlen, hend, -, -⟩ := hreg
    rw [ClientPutTask.Inv, hstate] at h
    obtain ⟨-, hr⟩ := h
    have hw := hr.receive hlen
    have hwrites : (t.receive bs).writes = t.writes := rfl
    simp only [ClientPutTask.step, ClientPutTask.dataReceiving, hr.limit_receive hmax hlen hend] at hcall
    have hlast : ∀ t' : ClientPutTask, (if t'.contentLen ≤ t'.dataRecvLen then
        { t' with state := .responseSending, retcode := putOk } else t').writes = t'.writes := by
      intro t'
      split
      · rfl
      · rfl
    rw [hlast] at hcall
    split at hcall
    · rw [ClientPutTask.flush_writes] at hcall
      have hparts := hw.received
      have hoffset := hw.offset
      have hsize := hw.le_size
      rw [← hparts, List.length_append, ClientPut.size] at hsize
      exact hone (r := t.receive bs) hw.valid hcall (by omega) (by omega)
    · exact (hno _ hwrites hcall).elim

end Writes

/-! ## What the task has written -/

/-- The bytes of its writes, each of them with its place -/
def laid (t : ClientPutTask) : ℤ → Option Byte := (t.segments.map (Segment.map some)).foldl Segment.lay fun _ => none

section Laid

variable {put : ClientPut} {t t' : ClientPutTask}

theorem laid_concat {call : WriteCall} (h : t'.writes = t.writes ++ [call]) :
    laid t' = Segment.lay (laid t) (call.toSegment.map some) := by
  simp only [laid, ClientPutTask.segments, h, List.map_append, List.map_cons, List.map_nil, List.foldl_append,
    List.foldl_cons, List.foldl_nil]

theorem laid_congr (h : t'.writes = t.writes) : laid t' = laid t := by
  simp only [laid, ClientPutTask.segments, h]

theorem laid_of_no_write (h : t.writes = []) (q : ℤ) : laid t q = none := by
  simp only [laid, ClientPutTask.segments, h, List.map_nil, List.foldl_nil]

theorem in_range_of_laid (h : t.WritesInRange put) {q : ℤ} {v : Byte} (hv : laid t q = some v) :
    put.start ≤ q ∧ q ≤ put.endPos := by
  by_contra hout
  have hnone : laid t q = none := by
    refine foldl_lay_of_not_covers _ _ fun s hs hq => ?_
    obtain ⟨s', hs', rfl⟩ := List.mem_map.mp hs
    exact hout (h s' hs' q ((Segment.covers_map some).mp hq))
  rw [hnone] at hv
  cases hv

/-- All of the range, with the bytes of the client -/
theorem laid_of_stored (h : t.Stored put) {i : ℕ} (hi : (i : ℤ) < put.size) :
    laid t (put.start + i) = t.received[i]? := by
  have hwhole := h.whole
  have hlay := (h.ordered.map some).foldl_lay (fun _ => none) i (by rw [bytes_map, List.length_map]; omega)
  rw [bytes_map, List.getElem?_map] at hlay
  have hbyte : (bytes t.segments)[i]? = t.received[i]? := by
    rw [h.clientBytes, List.getElem?_take_of_lt (by omega)]
  rw [← hbyte]
  cases hget : (bytes t.segments)[i]? with
  | none =>
    rw [hget] at hlay
    cases hlay
  | some v =>
    rw [hget] at hlay
    exact Option.some.inj hlay

end Laid

/-! ## The invariant -/

/-- What the task has written successfully is among the bytes that the manager holds. -/
structure Good (sb : SuperBlock) (put : ClientPut) (b : Written) (w : World) : Prop where
  stored : w.manager.Stored sb
  holds : w.manager.Holds b
  inv : w.task.Inv put
  laid : (∀ c ∈ w.task.writes, c.result = tfsSuccess) → ∀ q v, laid w.task q = some v → b (blockKey put) q = some v

section Good

variable {sb : SuperBlock} {put : ClientPut} {b : Written} {w w' : World} {extendSupport : Bool} {extendBlockSize : ℤ}

/-- A call beside the range -/
theorem after_of_leaves {d : StoreCall × ℤ} (h : Leaves put d.1) {q : ℤ} (hq : put.start ≤ q ∧ q ≤ put.endPos) :
    b.after d (blockKey put) q = b (blockKey put) q := by
  obtain ⟨call, ret⟩ := d
  cases call with
  | restart => rfl
  | store op =>
    cases op with
    | newBlock key => rfl
    | extendBlock key size offset => rfl
    | delBlock key =>
      simp only [Written.after]
      split
      · exact congrFun (Function.update_of_ne (Ne.symm h) _ _) q
      · rfl
    | writeRawData key offset buf =>
      simp only [Written.after]
      split
      · by_cases hkey : key = blockKey put
        · subst hkey
          rw [Function.update_self]
          refine if_neg fun hc => ?_
          have hlow : offset ≤ q := hc.1
          have hhigh : q < offset + ((buf.map some).length : ℤ) := hc.2
          rw [List.length_map] at hhigh
          have := h rfl
          omega
        · exact congrFun (Function.update_of_ne (Ne.symm hkey) _ _) q
      · rfl

theorem Good.step (h : Good sb put b w) (hkey : blockKey put ≠ (0, 0)) (hend : put.endPos + 1 + extendBlockSize < 2 ^ 31)
    {a : Act} (hok : Allowed put extendBlockSize w a) (htaken : Taken extendSupport put w a w') :
    ∃ b, Good sb put b w' := by
  cases htaken with
  | @quiet i hsame =>
    refine ⟨b, h.stored, h.holds, ClientPutTask.inv_step i h.inv hok.1 hok.2, fun hall q v hv => ?_⟩
    rw [laid_congr hsame] at hv
    exact h.laid (fun c hc => hall c (hsame.symm ▸ hc)) q v hv
  | @writes i call s' hone hcall =>
    obtain ⟨offset, buf, heq, hseg, hpos, -, hhigh⟩ := managerCall_of_step h.inv hok.1 hok.2 hone
    rw [heq] at hcall
    have hrange : (StoreCall.store (.writeRawData (blockKey put) offset buf)).InRange extendBlockSize :=
      ⟨hkey, hpos, by omega⟩
    refine ⟨_, h.stored.step hrange hcall, h.holds.step h.stored hrange hcall,
      ClientPutTask.inv_step i h.inv hok.1 hok.2, fun hall q v hv => ?_⟩
    have hcalls : ∀ c, c ∈ w.task.writes ∨ c = call → c.result = tfsSuccess := by
      intro c hc
      refine hall c ?_
      show c ∈ (w.task.step put i).writes
      rw [hone, List.mem_append, List.mem_singleton]
      exact hc
    have hafter : b.after (.store (.writeRawData (blockKey put) offset buf), call.result) =
        Function.update b (blockKey put) (Segment.lay (b (blockKey put)) ⟨offset, buf.map some⟩) := by
      simp [Written.after, hcalls call (.inr rfl)]
    rw [laid_concat hone, hseg] at hv
    rw [hafter, Function.update_self]
    show Segment.lay (b (blockKey put)) (Segment.map some ⟨offset, buf⟩) q = some v
    rw [Segment.lay] at hv ⊢
    split at hv
    · next hc =>
      rw [if_pos hc]
      have hidx : (q - (Segment.map some ⟨offset, buf⟩).offset).toNat < (Segment.map some ⟨offset, buf⟩).data.length := by
        have hlow := hc.1
        have hhigh := hc.2
        omega
      rw [List.getD_eq_getElem?_getD, List.getElem?_eq_getElem hidx, Option.getD_some] at hv ⊢
      exact hv
    · next hc =>
      rw [if_neg hc]
      exact h.laid (fun c hc => hcalls c (.inl hc)) q v hv
  | @other d s' hcall =>
    obtain ⟨hrange, hleaves, -⟩ := hok
    refine ⟨b.after d, h.stored.step hrange hcall, h.holds.step h.stored hrange hcall, h.inv, fun hall q v hv => ?_⟩
    have hsome : w.task.writes ≠ [] := by
      intro hnil
      rw [laid_of_no_write hnil] at hv
      cases hv
    rw [after_of_leaves (hleaves hsome) (in_range_of_laid h.inv.ackMeansStored.2 hv)]
    exact h.laid hall q v hv

/-- After the acknowledgement all of the range is held. -/
theorem Good.held (h : Good sb put b w) (hack : w.task.Acknowledged) {i : ℕ} (hi : (i : ℤ) < put.size) :
    ∃ v, w.task.received[i]? = some v ∧ b (blockKey put) (put.start + i) = some v := by
  have hstored := h.inv.ackMeansStored.1 hack
  have hwhole := hstored.whole
  rw [hstored.clientBytes, List.length_take] at hwhole
  have hin : i < w.task.received.length := by omega
  refine ⟨w.task.received[i], List.getElem?_eq_getElem hin, ?_⟩
  refine h.laid hstored.succeeded _ _ ?_
  rw [laid_of_stored hstored hi, List.getElem?_eq_getElem hin]

end Good

/-! ## A get -/

/-- The block of the manager under `key`, as a get task sees it -/
def Shows (s : Manager) (key : Key) (block : Block) : Prop :=
  ∃ lb, s.logicBlocks key = some lb ∧ lb.availDataSize = block.availDataSize ∧
    ∀ q, 0 ≤ q → q < block.availDataSize → s.byteAt lb.physicalBlockList q = some (block.data q)

/-- What a get asks for of the bytes that a put received -/
def part (put : ClientPut) (get : ClientGet) (received : List Byte) : List Byte :=
  (received.drop (get.start.toInt - put.start).toNat).take (get.endPos.toInt - get.start.toInt + 1).toNat

section Get

open ClientGetTask

variable {sb : SuperBlock} {s : Manager} {b : Written} {key : Key} {get : ClientGet} {block : Block}

theorem Shows.data (hshows : Shows s key block) (hs : s.Stored sb) (hholds : s.Holds b) {q : ℤ} {v : Byte}
    (hv : b key q = some v) : q < block.availDataSize ∧ block.data q = v := by
  obtain ⟨lb, hlb, havail, hbytes⟩ := hshows
  obtain ⟨hq, lb', hlb', hbyte⟩ := hholds key q v hv
  obtain rfl : lb = lb' := Option.some.inj (hlb.symm.trans hlb')
  obtain ⟨p, hloc, -⟩ := exists_of_byteAt hbyte
  have hlt := lt_total_of_locate (fun id hid => hs.backed.totalDataLen_pos (hs.listed hlb id hid)) hloc
  rw [← hs.avail_eq hlb, havail] at hlt
  exact ⟨hlt, Option.some.inj ((hbytes q hq hlt).symm.trans hbyte)⟩

/-- A read of the manager inside the block -/
theorem Shows.read (hshows : Shows s key block) (hs : s.Stored sb) {offset : ℤ} (hpos : 0 ≤ offset)
    (hle : offset ≤ block.availDataSize) (n : ℕ) : ∃ buf, s.readRawData key offset n = .ok (tfsSuccess, buf) := by
  obtain ⟨lb, hlb, havail, -⟩ := hshows
  rw [readRawData, hlb]
  simp only [if_neg (show ¬ lb.availDataSize < offset by omega)]
  generalize hn : (if lb.availDataSize < offset + n then (lb.availDataSize - offset).toNat else n) = m
  have hroom : offset + m ≤ lb.availDataSize := by
    rw [← hn]
    split <;> omega
  obtain ⟨bytes, hread, -⟩ := readSegmentData_eq hs.backed (hs.listed hlb) m m hpos (hs.avail_eq hlb ▸ hroom) le_rfl
    []
  exact ⟨_, hread⟩

/-- A read of the task returns what the read of the manager returns. -/
def ReadBy (s : Manager) (get : ClientGet) (t : ClientGetTask) : ClientGetTask.Input → Prop
  | .read ret _ => ∃ buf, s.readRawData (get.fileid, get.chunkid) t.readOffset (packetLen get t.readOffset).toNat =
      .ok (ret, buf)
  | .run _ _ | .process _ _ | .send _ => True

theorem readsSucceed (hshows : Shows s (get.fileid, get.chunkid) block) (hs : s.Stored sb) (hin : InBlock get block)
    {t : ClientGetTask} (h : ClientGetTask.Inv get block t) {i : ClientGetTask.Input} (hen : t.Enabled i)
    (hread : ReadBy s get t i) : ReadsSucceed i := by
  cases i with
  | run killed connected => trivial
  | process maxBlockSize found => trivial
  | send r => trivial
  | read ret part =>
    obtain ⟨hphase, hsending, hstate⟩ := hen
    obtain ⟨hranged, hstream, hwhere⟩ := h.staged hstate
    have hbelow := hranged.start
    have hinside := hin.inside
    have hle := hranged.le
    have hoffset := hstream.offset
    rw [kMaxPacketSize] at hoffset
    obtain ⟨buf, heq⟩ := hread
    obtain ⟨buf', heq'⟩ := hshows.read hs (show 0 ≤ t.readOffset by omega) (by omega)
      (packetLen get t.readOffset).toNat
    rw [heq'] at heq
    cases heq
    exact rfl

/-- The bytes of a part of the range, once all of it is held -/
theorem range_eq {put : ClientPut} {w : World} (h : Good sb put b w) (hack : w.task.Acknowledged)
    (hshows : Shows w.manager (blockKey put) block) (hlow : put.start ≤ get.start.toInt)
    (hhigh : get.endPos.toInt ≤ put.endPos) :
    range get block (get.endPos.toInt + 1) = part put get w.task.received := by
  apply List.ext_getElem?
  intro i
  by_cases hi : i < (get.endPos.toInt - get.start.toInt + 1).toNat
  · obtain ⟨v, hv, hheld⟩ := h.held hack (i := (get.start.toInt - put.start).toNat + i) (by rw [ClientPut.size]; omega)
    have hsum : put.start + (((get.start.toInt - put.start).toNat + i : ℕ) : ℤ) = get.start.toInt + i := by omega
    rw [hsum] at hheld
    have hlen : (get.endPos.toInt + 1 - get.start.toInt).toNat = (get.endPos.toInt - get.start.toInt + 1).toNat := by
      omega
    rw [part, List.getElem?_take_of_lt hi, List.getElem?_drop, hv, range, hlen, bytesAt, List.getElem?_map,
      List.getElem?_range hi, Option.map_some, (hshows.data h.stored h.holds hheld).2]
  · rw [List.getElem?_eq_none (by rw [range, bytesAt_length]; omega),
      List.getElem?_eq_none (by rw [part, List.length_take]; omega)]

end Get

/-- Whatever others do beside the range of an acknowledged put, before, during and after it, restarts included, a get of
any part of the range brings the client's bytes and nothing else, and all of them once it is through. -/
theorem put_is_got (mainBlockCount extendBlockCount : ℕ) (mainBlockSize extendBlockSize : ℤ) (hmain : 0 < mainBlockSize)
    (hext : extendBlockCount = 0 ∨ 0 < extendBlockSize) (extendSupport : Bool) {s₀ : Manager}
    (hboot : bootstrap (format (SuperBlock.fresh mainBlockCount extendBlockCount mainBlockSize extendBlockSize)) =
      .ok (tfsSuccess, some s₀))
    {put : ClientPut} {payload : Payload} (hkey : blockKey put ≠ (0, 0))
    (hend : put.endPos + 1 + extendBlockSize < 2 ^ 31) {acts : List Act} {w : World}
    (hrun : Reaches (Taken extendSupport put) (Allowed put extendBlockSize) ⟨s₀, .construct payload⟩ acts w)
    (hack : w.task.Acknowledged)
    {get : ClientGet} (hfile : (get.fileid, get.chunkid) = blockKey put) (hlow : put.start ≤ get.start.toInt)
    (hle : get.start.toInt ≤ get.endPos.toInt) (hhigh : get.endPos.toInt ≤ put.endPos)
    (hsmall : get.start.toInt + ClientGetTask.kMaxPacketSize * ClientGetTask.packets get < 2 ^ 31)
    {block : Block} (hshows : Shows w.manager (blockKey put) block) {packetSend : ℤ → Byte}
    {inputs : List ClientGetTask.Input} {t : ClientGetTask}
    (hget : Reaches (ofFun (ClientGetTask.step get block))
      (fun t i => t.Enabled i ∧ ClientGetTask.Served get i ∧ ReadBy w.manager get t i)
      (ClientGetTask.construct packetSend) inputs t) :
    t.socket.wire <+: ClientGetTask.response get ++ part put get w.task.received ∧
      (t.state = .tasksessionEnd ∨ t.phase = .ended →
        t.socket.wire = ClientGetTask.response get ++ part put get w.task.received) := by
  obtain ⟨sb, hstored, hholds⟩ := fresh_held hmain hext hboot
  have hstart : Good sb put (fun _ _ => none) ⟨s₀, .construct payload⟩ :=
    ⟨hstored, hholds, ClientPutTask.inv_construct put payload, fun _ q v hv => by
      rw [laid_of_no_write rfl] at hv
      cases hv⟩
  obtain ⟨b, hgood⟩ := hrun.invariant (I := fun w => ∃ b, Good sb put b w)
    (fun _ _ _ h hok htaken => h.elim fun _ h => h.step hkey hend hok htaken) ⟨_, hstart⟩
  -- the last byte of the range is held, so the block reaches as far
  obtain ⟨v, -, hlast⟩ := hgood.held hack (i := (get.endPos.toInt - put.start).toNat) (by rw [ClientPut.size]; omega)
  have hsum : put.start + ((get.endPos.toInt - put.start).toNat : ℤ) = get.endPos.toInt := by omega
  rw [hsum] at hlast
  have hin : ClientGetTask.InBlock get block := ⟨(hshows.data hgood.stored hgood.holds hlast).1, hsmall⟩
  have hfirst : ClientGetTask.Inv get block (ClientGetTask.construct packetSend) := ⟨RunPhase.noConfusion, rfl, rfl, rfl, rfl⟩
  have hinv : ClientGetTask.Inv get block t := by
    refine hget.invariant (fun t i t' ht hok htaken => ?_) hfirst
    subst htaken
    exact ClientGetTask.inv_step hin ht hok.1 hok.2.1
      (readsSucceed (hfile ▸ hshows) hgood.stored hin ht hok.1 hok.2.2)
  have hcorrect := hinv.correct hle
  rw [← range_eq hgood hack hshows hlow hhigh]
  exact ⟨hcorrect.wire, hcorrect.complete⟩

/-! ### A put, a restart and a get -/

def exampleOp : StoreOp := .writeRawData (7, 0) 0 [1, 2]

def exampleWorld : World :=
  ⟨advance exampleFresh exampleOp,
    ClientPutTask.twoBytes.foldl (ClientPutTask.step ClientPutTask.firstBytes) (.construct ⟨[1], by decide⟩)⟩

theorem exampleWorld_stored : exampleWorld.manager.Stored (.fresh 2 1 4 4) :=
  Stored.step (d := (.store exampleOp, 0)) ⟨fresh_sound (by decide) (.inr (by decide)) rfl rfl, fresh_onDisk rfl⟩
    (show StoreOp.InRange 4 exampleOp from ⟨by decide, by decide, by decide⟩) (calls_advance rfl)

/-- The first byte comes with the request, the second one later; in the end the data server is started anew. -/
theorem exampleWorld_reaches : Reaches (Taken true ClientPutTask.firstBytes) (Allowed ClientPutTask.firstBytes 4)
    ⟨exampleFresh, .construct ⟨[1], by decide⟩⟩
    [.task (.run false true), .task (.process 67108864 0), .task (.readError ClientPutTask.eagain),
      .task (.run false true), .task (.read [2] 67108864 0), .task (.send 0), .other (.restart, 0)] exampleWorld := by
  refine .cons ⟨by decide, by decide⟩ (.quiet rfl) (.cons ⟨by decide, by decide⟩ (.quiet rfl)
    (.cons ⟨by decide, by decide⟩ (.quiet rfl) (.cons ⟨by decide, by decide⟩ (.quiet rfl)
      (.cons ⟨by decide, by decide⟩ (.writes rfl (calls_advance rfl)) (.cons ⟨by decide, by decide⟩ (.quiet rfl)
        (.cons ⟨trivial, fun _ => trivial, fun _ => rfl⟩ (.other (.restart ?_)) (.nil _)))))))
  exact bootstrap_onDisk exampleWorld_stored.sound.alloc exampleWorld_stored.disk

def exampleGet : ClientGet := ⟨⟨36, 7, 0x0102, 0⟩, 7, 0, 0, 1⟩

def exampleBlock : Block := ⟨4, fun q => if q = 0 then 1 else if q = 1 then 2 else 0, by decide⟩

theorem exampleBlock_shown : Shows exampleWorld.manager (7, 0) exampleBlock := by
  refine ⟨_, rfl, rfl, fun q hlow hhigh => ?_⟩
  have hcases : q = 0 ∨ q = 1 ∨ q = 2 ∨ q = 3 := by
    have : q < 4 := hhigh
    omega
  obtain rfl | rfl | rfl | rfl := hcases <;> rfl

theorem put_is_got_example : ∃ t, Reaches (ofFun (ClientGetTask.step exampleGet exampleBlock))
      (fun t i => t.Enabled i ∧ ClientGetTask.Served exampleGet i ∧ ReadBy exampleWorld.manager exampleGet t i)
      (ClientGetTask.construct fun _ => 0)
      [.run false true, .process 1024 true, .send (.bytes 20), .read 0 [], .send (.bytes 2)] t ∧
    t.socket.wire = ClientGetTask.response exampleGet ++ [1, 2] := by
  have hget : Reaches (ofFun (ClientGetTask.step exampleGet exampleBlock))
      (fun t i => t.Enabled i ∧ ClientGetTask.Served exampleGet i ∧ ReadBy exampleWorld.manager exampleGet t i)
      (ClientGetTask.construct fun _ => 0)
      [.run false true, .process 1024 true, .send (.bytes 20), .read 0 [], .send (.bytes 2)]
      ([.run false true, .process 1024 true, .send (.bytes 20), .read 0 [], .send (.bytes 2)].foldl
        (ClientGetTask.step exampleGet exampleBlock) (ClientGetTask.construct fun _ => 0)) :=
    .cons ⟨by decide, by decide, trivial⟩ rfl (.cons ⟨by decide, by decide, trivial⟩ rfl
      (.cons ⟨by decide, by decide, trivial⟩ rfl (.cons ⟨by decide, by decide, ⟨_, rfl⟩⟩ rfl
        (.cons ⟨by decide, by decide, trivial⟩ rfl (.nil _)))))
  refine ⟨_, hget, ?_⟩
  exact (put_is_got 2 1 4 4 (by decide) (.inr (by decide)) true (bootstrap_format rfl) (by decide) (by decide)
    exampleWorld_reaches (.inr (.inl (by decide))) rfl (by decide) (by decide) (by decide) (by decide)
    exampleBlock_shown hget).2 (.inl (by decide))

end Tefs.DataServer.PutThenGet
