import CRpc.SessionHistory

/-!
# The synchronous echo server

End-to-end correctness of one connection of `coro_echo.cpp`: when its write loop
has ended, the socket has accepted the encoded responses to the accepted
requests, in order, and nothing else.

The write loop ends only on a closed and empty queue (`endsClosed_exec`), because
no response is long enough for its length to turn negative as an `int`, which is
assumed of the requests of the run (`SmallResponses`), and no handler outlives
the read loop.
-/

namespace CRpc

open Lib Protocol

namespace Session

variable {base : Ops} {s : Session} {flavor : Flavor} {codec : EchoCodec}

/-- A write loop that has ended left a closed and empty queue. -/
def EndsClosed (s : Session) : Prop :=
  s.writer = .done → s.queue.closed = true ∧ s.queue.items = []

theorem endsClosed_of_ne {s : Session} (h : s.writer ≠ .done) : s.EndsClosed :=
  fun hdone => absurd hdone h

theorem Ok.endsClosed_endRead {sqe : Sqe} (h : Ok ((.reader, sqe) :: base) s)
    (he : s.EndsClosed) : s.endRead.EndsClosed := by
  obtain ⟨_, _, _, hrun⟩ := h.resumeReader
  rw [Session.endRead]
  by_cases hpop : s.writer = .onPop
  · obtain ⟨hwaiter, hitems, _, _, _⟩ := hrun.onPop hpop
    rw [close_waiting hwaiter hpop hitems]
    exact fun _ => ⟨rfl, hitems⟩
  · rw [close_busy (hrun.waiter_none hpop)]
    exact fun hdone => ⟨rfl, (he hdone).2⟩

theorem Ok.endsClosed_readDone {sqe : Sqe} (h : Ok ((.reader, sqe) :: base) s)
    (he : s.EndsClosed) (res : Int) {bytes : List UInt8}
    (hbytes : bytes.length ≤ postedRead sqe) :
    (Session.readDone flavor codec s res bytes).EndsClosed := by
  rcases h.readDone_cases flavor codec res hbytes with ⟨_, heq⟩ | ⟨_, buf, heq⟩
  · rw [heq]
    exact h.endsClosed_endRead he
  · -- the queue is open while the reader runs, so the write loop has not ended
    have hnot : s.writer ≠ .done := by
      intro hdone
      have hclosed := (he hdone).1
      rw [h.resumeReader.2.1] at hclosed
      cases hclosed
    rw [heq]
    refine endsClosed_of_ne ?_
    rw [readAgain_writer]
    exact (h.received hbytes).handleAll_writer_ne (by simp) hnot _

theorem endsClosed_writeLoop {s : Session}
    (hnonempty : ∀ x, x ∈ s.queue.items → x ≠ []) : s.writeLoop.EndsClosed := by
  cases hitems : s.queue.items with
  | nil =>
      cases hclosed : s.queue.closed with
      | true =>
          rw [writeLoop_closed hitems hclosed]
          exact fun _ => ⟨hclosed, hitems⟩
      | false =>
          rw [writeLoop_suspends
            (ResponseQueue.awaitReady_eq_false_iff.mpr ⟨hitems, hclosed⟩)]
          exact endsClosed_of_ne (by simp)
  | cons item rest =>
      rw [writeLoop_cons hitems
        (hnonempty item (by rw [hitems]; exact List.mem_cons_self))]
      exact endsClosed_of_ne (by simp [Session.waitWrite, post])

theorem Ok.endsClosed_writeDone {sqe : Sqe} (h : Ok ((.writer, sqe) :: base) s) {w : Int}
    (hw : w ≤ postedWrite sqe) (hpos : 0 < w)
    (hsmall : ∀ x, x ∈ s.pushed → x.length < 2 ^ 31) :
    ((s.kernelWrites sqe w).writeDone w).EndsClosed := by
  obtain ⟨f, hwriter, hf, hsent, before, hpopped, _⟩ := h.sent hw
  rcases le_or_gt f.remaining w.toNat with hlast | hmore
  · have hin : f.data ∈ s.pushed := by
      rw [h.history, hpopped]
      simp
    have hlen := hf.length_eq
    have hrem := hf.remaining_pos
    have hgo : ¬ toInt32 f.data.length ≤ 0 := by
      rw [toInt32_of_lt (hsmall _ hin)]
      omega
    rw [writeDone_last sqe hwriter hpos hlast, if_neg hgo]
    exact endsClosed_writeLoop hsent.nonempty
  · rw [writeDone_more sqe hwriter hf hpos hmore]
    exact endsClosed_of_ne (by simp [Session.waitWrite, post])

end Session

/-- `m` is a response to the request `r`. -/
structure EchoCodec.Answers (codec : EchoCodec) (r : RpcHeader × List UInt8)
    (m : Message) : Prop where
  version : m.1.version = r.1.version
  seqId : m.1.seqId = r.1.seqId
  msgType : m.1.msgType = 1
  payload : m.2 = codec.reply r.2

theorem forall₂_answers (codec : EchoCodec) (rs : List (RpcHeader × List UInt8)) :
    List.Forall₂ codec.Answers rs (rs.map codec.answer) := by
  rw [List.forall₂_map_right_iff]
  exact List.forall₂_same.mpr fun r _ => ⟨rfl, rfl, rfl, rfl⟩

namespace Live

variable {codec : EchoCodec}

/-- No encoded response to the accepted requests among `ms` reaches 2 GiB. -/
def SmallResponses (codec : EchoCodec) (ms : List Message) : Prop :=
  ∀ r, r ∈ codec.requests ms → (codec.respond r).length < 2 ^ 31

theorem SmallResponses.mono {ms ms' : List Message} (h : SmallResponses codec ms')
    (hpre : ms <+: ms') : SmallResponses codec ms :=
  fun r hr => h r ((hpre.filterMap codec.accepts).subset hr)

theorem endsClosed_exec {c : CoroConnection} (hread : c.FreshRead) (hwrite : c.WriteOk)
    {es : List Event} {t : Live} (hrun : (machine .sync codec).exec (init c) es = some t)
    (hsmall : SmallResponses codec t.session.delivered) (hpos : WritesSucceed es) :
    t.session.EndsClosed := by
  refine Machine.run_induction
    (motive := fun es t => SmallResponses codec t.session.delivered → WritesSucceed es →
      t.session.EndsClosed) ?_ ?_ hrun hsmall hpos
  · intro _ _
    rw [init, Session.start_eq]
    exact Session.endsClosed_of_ne (by simp [settle, Session.startRead, Session.post])
  · rintro es t e t' hexec ih hstep hsmall hpos
    have hok := ok_exec hread hwrite hexec
    have hbefore := hsmall.mono (delivered_step hread hwrite hexec hstep)
    have he := ih hbefore fun w hw => hpos w (List.mem_append_left _ hw)
    obtain ⟨rs, hrs, _, hsync⟩ := answered_exec hread hwrite hexec
    rcases step_cases hstep with
      ⟨res, bytes, sqe, rfl, hop, hres, rfl⟩ | ⟨w, sqe, rfl, hop, hw, rfl⟩ |
        ⟨id, sqe, rfl, hop, rfl⟩
    · exact (hok.take hop).endsClosed_readDone he res hres.2
    · refine (hok.take hop).endsClosed_writeDone hw (hpos w (by simp)) ?_
      intro x hx
      rw [hrs, (hsync rfl).2] at hx
      obtain ⟨r, hr, rfl⟩ := List.mem_map.mp hx
      exact hbefore r hr
    · -- no handler sleeps in the synchronous server
      obtain ⟨hd, hfind, _⟩ := (hok.take hop).resumeHandler
      rw [(hsync rfl).1] at hfind
      cases hfind

/--
End-to-end correctness of the synchronous server on one connection.  Whatever
the peer sends, however it is cut and however the writes are cut and interleaved
with the reads, when the write loop has ended the bytes on the wire are the
responses to the accepted requests in order, and they decode to the answers.
No response to a request of this run may reach 2 GiB.
-/
theorem sync_echo_exact {c : CoroConnection}
    (hread : c.FreshRead) (hwrite : c.WriteOk) {es : List Event} {t : Live}
    (hrun : (machine .sync codec).exec (init c) es = some t)
    (hsmall : SmallResponses codec t.session.delivered) (hpos : WritesSucceed es)
    (hdone : t.session.writer = .done) :
    t.session.wire =
        ((codec.requests t.session.delivered).map codec.respond).flatten ∧
      List.Forall₂ codec.Answers (codec.requests t.session.delivered)
        (frames.decode t.session.wire) ∧
      t.session.delivered = (frames.feed [] (chunks es)).1 := by
  have hok := ok_exec hread hwrite hrun
  obtain ⟨rs, hrs, _, hsync⟩ := answered_exec hread hwrite hrun
  obtain ⟨_, hitems⟩ := endsClosed_exec hread hwrite hrun hsmall hpos hdone
  have hwire := complete_exec hread hwrite hrun hpos hdone
  have hall : t.session.wire =
      ((codec.requests t.session.delivered).map codec.respond).flatten := by
    rw [hwire, ← (hsync rfl).2, ← hrs, hok.session.history, hitems, List.append_nil]
  have hsize : ∀ r, r ∈ codec.requests t.session.delivered →
      (codec.reply r.2).length < 2 ^ 32 := by
    intro r hr
    have hlt := hsmall r hr
    rw [EchoCodec.respond, codec.length_response] at hlt
    omega
  refine ⟨hall, ?_, (delivered_exec hread hwrite hrun).1⟩
  rw [hall, decode_responses hsize]
  exact forall₂_answers codec _

theorem smallResponses_protoCodec (ms : List Message) : SmallResponses protoCodec ms := by
  intro r hr
  obtain ⟨m, _, hm⟩ := List.mem_filterMap.mp hr
  rw [EchoCodec.accepts] at hm
  split at hm
  · obtain ⟨message, hparse, rfl⟩ := Option.map_eq_some_iff.mp hm
    rw [EchoCodec.respond, EchoCodec.length_response]
    exact protoCodec_response_lt hparse
  · cases hm

/-- Two requests, the second of which comes in two parts, and the end of the stream. -/
def twoRequests : List Event :=
  [.read 12 emptyRequest, .read 4 ((encoded echoRequest).take 4),
    .read 11 ((encoded echoRequest).drop 4), .read 0 [], .write 10, .write 10, .write 16, .write 5]

set_option maxRecDepth 2000 in
theorem sync_echo_exact_two_requests :
    ∃ t, (machine .sync protoCodec).exec (init smallConn) twoRequests = some t ∧
      (protoCodec.requests t.session.delivered).map Prod.snd = [[], [0x61]] ∧
      t.session.wire =
        ((protoCodec.requests t.session.delivered).map protoCodec.respond).flatten := by
  have hrun : ((machine .sync protoCodec).exec (init smallConn) twoRequests).any
      (fun t => t.session.writer = .done ∧
        (protoCodec.requests t.session.delivered).map Prod.snd = [[], [0x61]]) = true := by
    decide
  obtain ⟨t, ht, hstate⟩ := (Option.any_eq_true _ _).mp hrun
  obtain ⟨hdone, hrequests⟩ := of_decide_eq_true hstate
  have hpos : WritesSucceed twoRequests := by
    intro w hw
    simp only [twoRequests, List.mem_cons, Event.write.injEq, reduceCtorEq, List.not_mem_nil,
      or_false, false_or] at hw
    omega
  exact ⟨t, ht, hrequests, (sync_echo_exact smallConn_freshRead smallConn_writeOk ht
    (smallResponses_protoCodec _) hpos hdone).1⟩

end Live

end CRpc
