import CRpc.SessionHistory

/-!
# The asynchronous echo server

In `coro_echo_async.cpp` a handler outlives the read loop.  When the peer ends
its stream while a handler sleeps and the write loop is idle, `Close` ends the
write loop, and the response that the handler pushes later stays in the queue.

`no_response_lost_iff` says exactly in which runs this does not happen: those in
which no handler wakes up after the write loop has ended, and in which the write
loop does not give up on a length that is negative as an `int` while responses
wait.  `response_lost_after_close` is a run in which a response is lost.
-/

namespace CRpc

open Lib Protocol

namespace Session

variable {base : Ops} {s : Session} {codec : EchoCodec}

/-- No response is left behind by a write loop that has ended. -/
def NothingLeft (s : Session) : Prop := s.writer = .done → s.queue.items = []

theorem nothingLeft_of_ne {s : Session} (h : s.writer ≠ .done) : s.NothingLeft :=
  fun hdone => absurd hdone h

/-- The inner loop of the asynchronous server starts handlers and nothing else. -/
theorem handleAll_async (codec : EchoCodec) (ms : List Message) (s : Session) :
    (handleAll (onMessage .async codec) s ms).writer = s.writer ∧
      (handleAll (onMessage .async codec) s ms).queue = s.queue := by
  refine handleAll_induction (P := fun t => t.writer = s.writer ∧ t.queue = s.queue)
    ?_ ?_ ?_ ms s ⟨rfl, rfl⟩
  · exact fun t m _ ht => ht
  · intro hflavor
    cases hflavor
  · exact fun _ t m r _ ht => ht

/-- A completed read leaves nothing behind that was not left before. -/
theorem Ok.nothingLeft_readDone {sqe : Sqe} (h : Ok ((.reader, sqe) :: base) s) (res : Int)
    {bytes : List UInt8} (hbytes : bytes.length ≤ postedRead sqe) :
    (Session.readDone .async codec s res bytes).NothingLeft ↔ s.NothingLeft := by
  rcases h.readDone_cases .async codec res hbytes with ⟨_, heq⟩ | ⟨_, buf, heq⟩
  · obtain ⟨_, _, _, hrun⟩ := h.resumeReader
    rw [heq, Session.endRead]
    by_cases hpop : s.writer = .onPop
    · obtain ⟨hwaiter, hitems, _, _, _⟩ := hrun.onPop hpop
      rw [close_waiting hwaiter hpop hitems]
      exact ⟨fun _ => nothingLeft_of_ne (by simp [hpop]), fun _ _ => hitems⟩
    · rw [close_busy (hrun.waiter_none hpop)]
      exact Iff.rfl
  · obtain ⟨hwriter, hqueue⟩ := handleAll_async codec
      (frames.drain (s.conn.readBuffer.getSpan ++ bytes)).1 (s.received bytes)
    rw [heq, NothingLeft, readAgain_writer, readAgain_queue, hwriter, hqueue]
    exact Iff.rfl

/-- A handler that wakes up finds a write loop, or leaves its response behind. -/
theorem Ok.nothingLeft_timerDone {sqe : Sqe} {id : Nat}
    (h : Ok ((.handler id, sqe) :: base) s) :
    (Session.timerDone codec s id).NothingLeft ↔ s.writer ≠ .done := by
  obtain ⟨hd, hfind, hok⟩ := h.resumeHandler
  have hdata := codec.response_ne_nil hd.header hd.message
  have heq : Session.timerDone codec s id =
      { s with handlers := s.handlers.eraseP (fun hd => hd.id = id) }.push
        (codec.response hd.header hd.message) := by
    rw [Session.timerDone, hfind]
  rw [heq]
  constructor
  · intro hleft hdone
    have hbusy := hok.waiter_none (by simp [hdone])
    have hitems := hleft (by
      rw [hok.push_writer hdata, if_neg (by simp [hdone])]
      exact hdone)
    rw [push_busy hbusy] at hitems
    simp at hitems
  · intro hne
    exact nothingLeft_of_ne (hok.push_writer_ne (by simp) hne hdata)

/-- A completed write ends the write loop early only on a negative length. -/
theorem Ok.nothingLeft_writeDone {sqe : Sqe} (h : Ok ((.writer, sqe) :: base) s) {w : Int}
    (hw : w ≤ postedWrite sqe) (hpos : 0 < w) :
    ((s.kernelWrites sqe w).writeDone w).NothingLeft ↔
      ∀ f, s.writer = .onWrite f → f.remaining ≤ w.toNat →
        toInt32 f.data.length ≤ 0 → s.queue.items = [] := by
  obtain ⟨f, hwriter, hf, hsent, _⟩ := h.sent hw
  have honly : ∀ f', s.writer = .onWrite f' → f' = f := by
    intro f' hf'
    rw [hwriter, WriterState.onWrite.injEq] at hf'
    exact hf'.symm
  rcases le_or_gt f.remaining w.toNat with hlast | hmore
  · rw [writeDone_last sqe hwriter hpos hlast]
    split
    next hneg =>
      constructor
      · intro hleft f' hf' _ _
        exact hleft rfl
      · intro hcond _
        exact hcond f hwriter hlast hneg
    next hgo =>
      constructor
      · intro _ f' hf' _ hneg
        rw [honly f' hf'] at hneg
        exact absurd hneg hgo
      · intro _
        cases hitems : (s.sent sqe w).queue.items with
        | nil =>
            cases hclosed : (s.sent sqe w).queue.closed with
            | true =>
                rw [writeLoop_closed hitems hclosed]
                exact fun _ => hitems
            | false =>
                rw [writeLoop_suspends
                  (ResponseQueue.awaitReady_eq_false_iff.mpr ⟨hitems, hclosed⟩)]
                exact nothingLeft_of_ne (by simp)
        | cons item rest =>
            rw [writeLoop_cons hitems
              (hsent.nonempty item (by rw [hitems]; exact List.mem_cons_self))]
            exact nothingLeft_of_ne (by simp [Session.waitWrite, post])
  · rw [writeDone_more sqe hwriter hf hpos hmore]
    constructor
    · intro _ f' hf' hlast _
      rw [honly f' hf'] at hlast
      omega
    · intro _
      exact nothingLeft_of_ne (by simp [Session.waitWrite, post])

end Session

namespace Live

variable {codec : EchoCodec}

/--
The completion finds the write loop able to send: a handler wakes up before the
write loop has ended, and a response whose length is not positive as an `int`
is completely sent only while no other waits.
-/
def Deliverable (t : Live) : Event → Prop
  | .timer _ => t.session.writer ≠ .done
  | .write w => ∀ f, t.session.writer = .onWrite f → f.remaining ≤ w.toNat →
      toInt32 f.data.length ≤ 0 → t.session.queue.items = []
  | .read _ _ => True

theorem nothingLeft_step {t t' : Live} {e : Event} (hok : t.Ok)
    (hpos : ∀ w, e = .write w → 0 < w)
    (hstep : (machine .async codec).step t e = some t') :
    t'.session.NothingLeft ↔ t.session.NothingLeft ∧ t.Deliverable e := by
  rcases step_cases hstep with
    ⟨res, bytes, sqe, rfl, hop, hres, rfl⟩ | ⟨w, sqe, rfl, hop, hw, rfl⟩ |
      ⟨id, sqe, rfl, hop, rfl⟩
  · rw [Deliverable, and_true]
    exact (hok.take hop).nothingLeft_readDone res hres.2
  · have hdone := (hok.take hop).nothingLeft_writeDone hw (hpos w rfl)
    obtain ⟨f, hwriter, _⟩ := (hok.take hop).resumeWriter
    rw [Deliverable]
    exact hdone.trans ⟨fun hcond => ⟨Session.nothingLeft_of_ne (by simp [hwriter]), hcond⟩,
      fun hcond => hcond.2⟩
  · rw [Deliverable]
    exact (hok.take hop).nothingLeft_timerDone.trans
      ⟨fun hne => ⟨Session.nothingLeft_of_ne hne, hne⟩, fun hcond => hcond.2⟩

theorem nothingLeft_exec {c : CoroConnection} (hread : c.FreshRead) (hwrite : c.WriteOk)
    {es : List Event} {t : Live}
    (hrun : (machine .async codec).exec (init c) es = some t) (hpos : WritesSucceed es) :
    t.session.NothingLeft ↔
      ∀ s e, (machine .async codec).Takes (init c) es s e → s.Deliverable e := by
  induction es using List.reverseRecOn generalizing t with
  | nil =>
      simp only [Machine.exec_nil, Option.some.injEq] at hrun
      subst hrun
      constructor
      · intro _ s e htakes
        exact absurd htakes Machine.takes_nil
      · intro _
        rw [init, Session.start_eq]
        exact Session.nothingLeft_of_ne (by simp [settle, Session.startRead, Session.post])
  | append_singleton es e ih =>
      obtain ⟨m, hm, hstep⟩ := Machine.exec_concat_eq_some.mp hrun
      have hpos' : WritesSucceed es := fun w hw => hpos w (List.mem_append_left _ hw)
      rw [nothingLeft_step (ok_exec hread hwrite hm)
        (fun w he => hpos w (by simp [he])) hstep, Machine.forall_takes_concat hm,
        ih hm hpos']

/-- In a final state of a run without failed writes, only queued responses are missing. -/
theorem final_wire {c : CoroConnection} (hread : c.FreshRead) (hwrite : c.WriteOk)
    {es : List Event} {t : Live}
    (hrun : (machine .async codec).exec (init c) es = some t) (hpos : WritesSucceed es)
    (hfinal : t.flight = []) :
    ∃ sent left, t.session.wire = (sent.map codec.respond).flatten ∧
      t.session.queue.items = left.map codec.respond ∧
      (sent ++ left).Perm (codec.requests t.session.delivered) ∧
      (t.session.NothingLeft ↔ left = []) := by
  have hok := ok_exec hread hwrite hrun
  obtain ⟨rs, hrs, hperm, _⟩ := answered_exec hread hwrite hrun
  have hnobody : t.session.waiting = [] := by
    have hroles := hok.session.roles
    rw [hfinal, hok.posts] at hroles
    exact List.perm_nil.mp hroles.symm
  simp only [Session.waiting, List.append_eq_nil_iff, List.map_eq_nil_iff] at hnobody
  obtain ⟨⟨_, hwriting⟩, hhandlers⟩ := hnobody
  rw [hhandlers, List.map_nil, List.append_nil] at hperm
  have hsplit := hok.session.history
  rw [hrs] at hsplit
  obtain ⟨sent, left, rfl, hpopped, hitems⟩ := List.map_eq_append_iff.mp hsplit
  have hleft : t.session.queue.items = [] ↔ left = [] := by
    rw [← hitems, List.map_eq_nil_iff]
  have hwire := hok.session.wireOk
  rw [Session.WireOk] at hwire
  refine ⟨sent, left, ?_, hitems.symm, hperm, ?_⟩
  · rw [hpopped]
    cases hw : t.session.writer with
    | running => exact absurd hw hok.rested.writer
    | onPop => rwa [hw] at hwire
    | onWrite f => simp [hw, WriterState.roles] at hwriting
    | done => exact complete_exec hread hwrite hrun hpos hw
  · rw [Session.NothingLeft, hleft]
    cases hw : t.session.writer with
    | running => exact absurd hw hok.rested.writer
    | onPop =>
        have hnone := hleft.mp (hok.session.idle hw).1
        simp [hnone]
    | onWrite f => simp [hw, WriterState.roles] at hwriting
    | done => simp

/-- Sequence numbers of the responses on the wire. -/
def answeredIds (wire : List UInt8) : List UInt32 :=
  (frames.decode wire).map fun m => m.1.seqId

/-- Sequence numbers of the accepted requests. -/
def requestIds (codec : EchoCodec) (ms : List Message) : List UInt32 :=
  (codec.requests ms).map fun r => r.1.seqId

/-- Protobuf serialises no message of 2 GiB or more. -/
def SmallReplies (codec : EchoCodec) : Prop :=
  ∀ message, (codec.reply message).length < 2 ^ 31

/--
In a final state of a run without failed writes the responses on the wire carry
exactly the sequence numbers of the accepted requests if and only if every
completion found the write loop able to send.
-/
theorem no_response_lost_iff (hsmall : SmallReplies codec) {c : CoroConnection}
    (hread : c.FreshRead) (hwrite : c.WriteOk) {es : List Event} {t : Live}
    (hrun : (machine .async codec).exec (init c) es = some t) (hpos : WritesSucceed es)
    (hfinal : t.flight = []) :
    (answeredIds t.session.wire).Perm (requestIds codec t.session.delivered) ↔
      ∀ s e, (machine .async codec).Takes (init c) es s e → s.Deliverable e := by
  obtain ⟨sent, left, hwire, _, hperm, hleft⟩ :=
    final_wire hread hwrite hrun hpos hfinal
  have hids : answeredIds t.session.wire = sent.map fun r => r.1.seqId := by
    rw [answeredIds, hwire, decode_responses fun r _ => (hsmall r.2).trans (by decide),
      List.map_map]
    rfl
  have hreq : ((sent ++ left).map fun r => r.1.seqId).Perm
      (requestIds codec t.session.delivered) := hperm.map _
  rw [← nothingLeft_exec hread hwrite hrun hpos, hleft, hids]
  constructor
  · intro hsame
    have hlen := hsame.length_eq.trans hreq.length_eq.symm
    simp only [List.length_map, List.length_append] at hlen
    exact List.length_eq_zero_iff.mp (by omega)
  · rintro rfl
    rwa [List.append_nil] at hreq

theorem smallReplies_protoCodec : SmallReplies protoCodec := length_protoCodec_reply_lt

set_option maxRecDepth 2000 in
/-- A request whose handler wakes up and is answered before the peer ends its stream. -/
theorem no_response_lost_iff_answered :
    ∃ t,
      (machine .async protoCodec).exec (init smallConn)
        [.read 12 emptyRequest, .timer 0, .write 10, .write 10, .read 0 []] = some t ∧
      t.flight = [] ∧
      (answeredIds t.session.wire).Perm (requestIds protoCodec t.session.delivered) ∧
      ∀ s e, (machine .async protoCodec).Takes (init smallConn)
        [.read 12 emptyRequest, .timer 0, .write 10, .write 10, .read 0 []] s e →
          s.Deliverable e := by
  have hrun : ((machine .async protoCodec).exec (init smallConn)
      [.read 12 emptyRequest, .timer 0, .write 10, .write 10, .read 0 []]).any
        (fun t => t.flight = [] ∧
          answeredIds t.session.wire = requestIds protoCodec t.session.delivered) = true := by
    decide
  obtain ⟨t, ht, hstate⟩ := (Option.any_eq_true _ _).mp hrun
  obtain ⟨hfinal, hids⟩ := of_decide_eq_true hstate
  have hpos : WritesSucceed
      [.read 12 emptyRequest, .timer 0, .write 10, .write 10, .read 0 []] := by
    intro w hw
    simp only [List.mem_cons, Event.write.injEq, reduceCtorEq, List.not_mem_nil, or_false,
      false_or] at hw
    omega
  have hperm := List.Perm.of_eq hids
  exact ⟨t, ht, hfinal, hperm, (no_response_lost_iff smallReplies_protoCodec
    smallConn_freshRead smallConn_writeOk ht hpos hfinal).mp hperm⟩

/--
The peer sends one request and ends its stream while the handler sleeps: the
write loop ends, the handler pushes its response, and nothing is ever written.
-/
theorem response_lost_after_close :
    ∃ t,
      (machine .async protoCodec).exec (init smallConn)
        [.read 12 emptyRequest, .read 0 [], .timer 0] = some t ∧
      t.flight = [] ∧ t.session.wire = [] ∧
      requestIds protoCodec t.session.delivered = [7] ∧
      ¬ (answeredIds t.session.wire).Perm (requestIds protoCodec t.session.delivered) := by
  have hrun : ((machine .async protoCodec).exec (init smallConn)
      [.read 12 emptyRequest, .read 0 [], .timer 0]).any
        (fun t => t.flight = [] ∧ t.session.wire = [] ∧
          requestIds protoCodec t.session.delivered = [7]) = true := by
    decide
  obtain ⟨t, ht, hlost⟩ := (Option.any_eq_true _ _).mp hrun
  obtain ⟨hfinal, hwire, hids⟩ := of_decide_eq_true hlost
  refine ⟨t, ht, hfinal, hwire, hids, ?_⟩
  intro hperm
  rw [hwire, hids] at hperm
  exact absurd hperm.length_eq (by decide)

end Live

end CRpc
