import CRpc.SessionRun

/-!
# What a connection receives and answers

Three facts about the history of runs, shared by the results on the two echo
servers.

* The reading half of a session delivers what the fragmented decoder
  `frames.feed` delivers on the same completions (`Live.delivered_exec`).
* Each accepted request is answered into the queue exactly once, or its handler
  sleeps; in the synchronous server it is answered at once and in order
  (`Live.answered_exec`).
* While no write fails, a write loop that has ended has sent all it took from
  the queue (`Live.complete_exec`).
-/

namespace CRpc

open Lib Protocol

/-- The requests among the messages delivered: type 0 and a payload that parses. -/
def EchoCodec.requests (codec : EchoCodec) (ms : List Message) :
    List (RpcHeader × List UInt8) :=
  ms.filterMap codec.accepts

/-- The encoded response to a request. -/
def EchoCodec.respond (codec : EchoCodec) (r : RpcHeader × List UInt8) : List UInt8 :=
  codec.response r.1 r.2

/-- The request a sleeping handler will answer. -/
def Handler.request (h : Handler) : RpcHeader × List UInt8 := (h.header, h.message)

namespace Session

variable {base : Ops} {s : Session} {flavor : Flavor} {codec : EchoCodec}

/-! ### Delivered messages -/

theorem handleAll_delivered (flavor : Flavor) (codec : EchoCodec) (ms : List Message) :
    ∀ s : Session,
      (handleAll (onMessage flavor codec) s ms).delivered = s.delivered ++ ms := by
  induction ms with
  | nil => simp [handleAll]
  | cons m ms ih =>
      intro s
      have hone : (onMessage flavor codec s m.1 m.2).delivered = s.delivered ++ [m] := by
        rw [onMessage_eq]
        cases codec.accepts m with
        | none => rfl
        | some r =>
            cases flavor with
            | sync => exact push_delivered _ _
            | async => rfl
      have hrest := ih (onMessage flavor codec s m.1 m.2)
      rw [hone, List.append_assoc] at hrest
      exact hrest

/-- A completed read: the messages and the unread bytes of one burst. -/
theorem Ok.readDone_delivered (flavor : Flavor) (codec : EchoCodec) {sqe : Sqe}
    (h : Ok ((.reader, sqe) :: base) s) {res : Int}
    (hres : 0 < res) {bytes : List UInt8} (hbytes : bytes.length ≤ postedRead sqe) :
    (Session.readDone flavor codec s res bytes).delivered =
        s.delivered ++ (frames.drain (s.conn.readBuffer.getSpan ++ bytes)).1 ∧
      (Session.readDone flavor codec s res bytes).conn.readBuffer.getSpan =
        (frames.drain (s.conn.readBuffer.getSpan ++ bytes)).2 := by
  obtain ⟨_, _, hposted, _⟩ := h.resumeReader
  obtain ⟨buf, hv, hfixed, hspan, heq⟩ := readDone_data flavor codec hres h.readOk.valid
    (hbytes.trans hposted)
  have hframe := frame_handleAll flavor codec
    (frames.drain (s.conn.readBuffer.getSpan ++ bytes)).1 (s.received bytes)
  obtain ⟨wbuf, hconn⟩ := hframe.conn
  have hmode : buf.isFixed = (CRpc.handleAll (onMessage flavor codec) (s.received bytes)
      (frames.drain (s.conn.readBuffer.getSpan ++ bytes)).1).conn.readBufIdx.isSome := by
    rw [hfixed, h.readOk.mode, hconn]
    rfl
  have hdelivered := handleAll_delivered flavor codec
    (frames.drain (s.conn.readBuffer.getSpan ++ bytes)).1 (s.received bytes)
  rw [heq, readAgain_delivered]
  exact ⟨hdelivered, (getSpan_readAgain hv hmode).trans hspan⟩

/-- The end of the read loop delivers nothing. -/
theorem endRead_history (s : Session) :
    s.endRead.delivered = s.delivered ∧ s.endRead.pushed = s.pushed ∧
      s.endRead.handlers = s.handlers ∧
      s.endRead.conn.readBuffer = s.conn.readBuffer := by
  have hframe := writerFrame_resumeWaiter
    ({ s with reader := .running, queue := s.queue.close.1 } : Session) s.queue.close.2
  obtain ⟨buf, hconn⟩ := hframe.conn
  refine ⟨hframe.delivered, hframe.pushed, hframe.handlers, ?_⟩
  change (({ s with reader := .running, queue := s.queue.close.1 } : Session).resumeWaiter
    s.queue.close.2).conn.readBuffer = s.conn.readBuffer
  rw [hconn]
  rfl

/-! ### Answered requests -/

/-- Each accepted request has been pushed or has a sleeping handler. -/
def Answered (flavor : Flavor) (codec : EchoCodec) (s : Session) : Prop :=
  ∃ rs, s.pushed = rs.map codec.respond ∧
    (rs ++ s.handlers.map Handler.request).Perm (codec.requests s.delivered) ∧
    (flavor = .sync → s.handlers = [] ∧ rs = codec.requests s.delivered)

theorem Answered.congr {s' : Session} (h : Answered flavor codec s)
    (hdelivered : s'.delivered = s.delivered) (hpushed : s'.pushed = s.pushed)
    (hhandlers : s'.handlers = s.handlers) : Answered flavor codec s' := by
  obtain ⟨rs, hrs, hperm, hsync⟩ := h
  exact ⟨rs, hpushed.trans hrs, by rw [hhandlers, hdelivered]; exact hperm,
    by rw [hhandlers, hdelivered]; exact hsync⟩

theorem requests_append (codec : EchoCodec) (ms : List Message) (m : Message) :
    codec.requests (ms ++ [m]) = codec.requests ms ++ (codec.accepts m).toList := by
  rw [EchoCodec.requests, List.filterMap_append]
  cases hm : codec.accepts m with
  | none => rw [List.filterMap_cons_none hm]; rfl
  | some r => rw [List.filterMap_cons_some hm]; rfl

theorem answered_handleAll (h : Answered flavor codec s) (ms : List Message) :
    Answered flavor codec (handleAll (onMessage flavor codec) s ms) := by
  refine handleAll_induction ?_ ?_ ?_ ms s h
  · intro t m hm ⟨rs, hrs, hperm, hsync⟩
    have hsame : codec.requests (t.note m).delivered = codec.requests t.delivered := by
      simp only [note, requests_append, hm, Option.toList_none, List.append_nil]
    exact ⟨rs, hrs, by rw [hsame]; exact hperm, by rw [hsame]; exact hsync⟩
  · rintro hflavor t m r hm ⟨rs, hrs, _, hsync⟩
    obtain ⟨hnone, hall⟩ := hsync hflavor
    have hreq : codec.requests (t.note m).delivered = rs ++ [r] := by
      simp only [note, requests_append, hm, Option.toList_some, hall]
    refine ⟨rs ++ [r], ?_, ?_, ?_⟩
    · rw [push_pushed, List.map_append]
      simp only [note, hrs]
      rfl
    · rw [push_delivered, push_handlers, hreq]
      simp only [note, hnone]
      simp
    · intro _
      rw [push_delivered, push_handlers, hreq]
      exact ⟨hnone, rfl⟩
  · rintro hflavor t m r hm ⟨rs, hrs, hperm, _⟩
    have hreq : codec.requests (t.note m).delivered = codec.requests t.delivered ++ [r] := by
      simp only [note, requests_append, hm, Option.toList_some]
    refine ⟨rs, hrs, ?_, ?_⟩
    · simp only [sleep, post, List.map_append, List.map_singleton, ← List.append_assoc]
      rw [hreq]
      exact hperm.append_right [r]
    · rw [hflavor]
      simp

theorem Ok.answered_readDone {sqe : Sqe} (h : Ok ((.reader, sqe) :: base) s)
    (ha : Answered flavor codec s) (res : Int) {bytes : List UInt8}
    (hbytes : bytes.length ≤ postedRead sqe) :
    Answered flavor codec (Session.readDone flavor codec s res bytes) := by
  rcases h.readDone_cases flavor codec res hbytes with ⟨_, heq⟩ | ⟨_, buf, heq⟩
  · obtain ⟨hdelivered, hpushed, hhandlers, _⟩ := endRead_history s
    rw [heq]
    exact ha.congr hdelivered hpushed hhandlers
  · have hall : Answered flavor codec (s.received bytes) := ha.congr rfl rfl rfl
    rw [heq]
    exact (answered_handleAll hall _).congr (readAgain_delivered _ buf)
      (readAgain_pushed _ buf) (readAgain_handlers _ buf)

/-- A handler that wakes up pushes its own response. -/
theorem Ok.answered_timerDone {sqe : Sqe} {id : Nat}
    (h : Ok ((.handler id, sqe) :: base) s) (ha : Answered flavor codec s) :
    Answered flavor codec (Session.timerDone codec s id) := by
  obtain ⟨hd, hfind, _⟩ := h.resumeHandler
  have hperm := perm_find_eraseP hfind
  obtain ⟨rs, hrs, hreq, hsync⟩ := ha
  rw [Session.timerDone, hfind]
  refine ⟨rs ++ [hd.request], ?_, ?_, ?_⟩
  · rw [push_pushed, List.map_append]
    simp only [hrs]
    rfl
  · rw [push_delivered, push_handlers, List.append_assoc, List.singleton_append]
    have hmove := (hperm.map Handler.request).append_left rs
    rw [List.map_cons] at hmove
    exact hmove.symm.trans hreq
  · intro hflavor
    have hnone := (hsync hflavor).1
    rw [hnone] at hfind
    cases hfind

/-! ### Sent responses -/

/-- A write loop that has ended sent every item it took. -/
def Complete (s : Session) : Prop := s.writer = .done → s.wire = s.popped.flatten

theorem Ok.complete_push (h : Ok base s) (hc : s.Complete) {data : List UInt8}
    (hdata : data ≠ []) : (s.push data).Complete := by
  by_cases hpop : s.writer = .onPop
  · obtain ⟨hwaiter, hitems, _, _, _⟩ := h.onPop hpop
    rw [push_waiting hwaiter hpop hitems hdata]
    intro hdone
    cases hdone
  · rw [push_busy (h.waiter_none hpop)]
    exact hc

theorem Ok.complete_close (h : Ok base s) (hc : s.Complete) : s.close.Complete := by
  by_cases hpop : s.writer = .onPop
  · obtain ⟨hwaiter, hitems, _, hwire, _⟩ := h.onPop hpop
    rw [close_waiting hwaiter hpop hitems]
    exact fun _ => hwire
  · rw [close_busy (h.waiter_none hpop)]
    exact hc

theorem Ok.complete_handleAll (h : Ok base s) (hc : s.Complete) (ms : List Message) :
    (CRpc.handleAll (onMessage flavor codec) s ms).Complete := by
  refine (handleAll_induction (P := fun t => Ok base t ∧ t.Complete)
    ?_ ?_ ?_ ms s ⟨h, hc⟩).2
  · exact fun t m _ ht => ⟨ht.1.note m, ht.2⟩
  · intro _ t m r _ ht
    have hdata := codec.response_ne_nil r.1 r.2
    exact ⟨(ht.1.note m).push hdata, (ht.1.note m).complete_push ht.2 hdata⟩
  · exact fun _ t m r _ ht => ⟨(ht.1.note m).sleep r.1 r.2, ht.2⟩

theorem Ok.complete_readDone {sqe : Sqe} (h : Ok ((.reader, sqe) :: base) s)
    (hc : s.Complete) (res : Int) {bytes : List UInt8}
    (hbytes : bytes.length ≤ postedRead sqe) :
    (Session.readDone flavor codec s res bytes).Complete := by
  rcases h.readDone_cases flavor codec res hbytes with ⟨_, heq⟩ | ⟨_, buf, heq⟩
  · rw [heq]
    exact h.resumeReader.2.2.2.complete_close hc
  · rw [heq, Complete, readAgain_writer, readAgain_wire, readAgain_popped]
    exact (h.received hbytes).complete_handleAll hc _

theorem Ok.complete_timerDone {sqe : Sqe} {id : Nat}
    (h : Ok ((.handler id, sqe) :: base) s) (hc : s.Complete) :
    (Session.timerDone codec s id).Complete := by
  obtain ⟨hd, hfind, hok⟩ := h.resumeHandler
  rw [Session.timerDone, hfind]
  exact hok.complete_push hc (codec.response_ne_nil hd.header hd.message)

/-- Only a failed write leaves an item half sent. -/
theorem Ok.complete_writeDone {sqe : Sqe} (h : Ok ((.writer, sqe) :: base) s) {w : Int}
    (hw : w ≤ postedWrite sqe) (hpos : 0 < w) :
    ((s.kernelWrites sqe w).writeDone w).Complete := by
  obtain ⟨f, hwriter, hf, hsent, before, hpopped, hwire⟩ := h.sent hw
  rcases le_or_gt f.remaining w.toNat with hlast | hmore
  · have hlen := hf.length_eq
    have hall : (s.sent sqe w).wire = (s.sent sqe w).popped.flatten := by
      change _ = s.popped.flatten
      rw [hpopped, hwire, List.take_of_length_le (by omega), List.flatten_append,
        List.flatten_singleton]
    rw [writeDone_last sqe hwriter hpos hlast]
    split
    · exact fun _ => hall
    · cases hitems : (s.sent sqe w).queue.items with
      | nil =>
          cases hclosed : (s.sent sqe w).queue.closed with
          | true =>
              rw [writeLoop_closed hitems hclosed]
              exact fun _ => hall
          | false =>
              rw [writeLoop_suspends
                (ResponseQueue.awaitReady_eq_false_iff.mpr ⟨hitems, hclosed⟩)]
              intro hdone
              cases hdone
      | cons item rest =>
          rw [writeLoop_cons hitems
            (hsent.nonempty item (by rw [hitems]; exact List.mem_cons_self))]
          intro hdone
          cases hdone
  · rw [writeDone_more sqe hwriter hf hpos hmore]
    intro hdone
    cases hdone

end Session

/-- The response to a request, before it is encoded. -/
def EchoCodec.responseTo (codec : EchoCodec) (r : RpcHeader × List UInt8) : Message :=
  ({ r.1 with msgType := 1 }, codec.reply r.2)

/-- What a client decodes from the response to a request. -/
def EchoCodec.answer (codec : EchoCodec) (r : RpcHeader × List UInt8) : Message :=
  (wireWord (codec.responseTo r)).1

/-- A stream of responses decodes to the answers. -/
theorem decode_responses {codec : EchoCodec} {rs : List (RpcHeader × List UInt8)}
    (hsize : ∀ r, r ∈ rs → (codec.reply r.2).length < 2 ^ 32) :
    frames.decode (rs.map codec.respond).flatten = rs.map codec.answer := by
  have hsmall : ∀ m, m ∈ rs.map codec.responseTo → m.2.length < 2 ^ 32 := by
    intro m hm
    obtain ⟨r, hr, rfl⟩ := List.mem_map.mp hm
    exact hsize r hr
  have hstream : (rs.map codec.respond).flatten =
      Decoder.wordsOf ((rs.map codec.responseTo).map wireWord) := by
    rw [← encodedStream_eq_wordsOf, encodedStream, List.map_map]
    rfl
  rw [hstream, Decoder.decode_codewords (codeword_wireWord hsmall), List.map_map,
    List.map_map]
  rfl

namespace Live

variable {flavor : Flavor} {codec : EchoCodec}

/-- The runs of bytes that the read completions of a run delivered. -/
def chunks (es : List Event) : List (List UInt8) :=
  es.filterMap fun
    | .read res bytes => if 0 < res then some bytes else none
    | _ => none

theorem chunks_append (es : List Event) (e : Event) :
    chunks (es ++ [e]) = chunks es ++ chunks [e] := by
  simp only [chunks, List.filterMap_append]

/-- The session delivers what the fragmented decoder delivers. -/
theorem delivered_exec {c : CoroConnection} (hread : c.FreshRead) (hwrite : c.WriteOk)
    {es : List Event} {t : Live}
    (hrun : (machine flavor codec).exec (init c) es = some t) :
    t.session.delivered = (frames.feed [] (chunks es)).1 ∧
      t.session.conn.readBuffer.getSpan = (frames.feed [] (chunks es)).2 := by
  refine Machine.run_induction
    (motive := fun es t => t.session.delivered = (frames.feed [] (chunks es)).1 ∧
      t.session.conn.readBuffer.getSpan = (frames.feed [] (chunks es)).2) ?_ ?_ hrun
  · have hspan := CoroConnection.getSpan_read hread.readOk
    rw [hread.getSpan] at hspan
    rw [init, Session.start_eq]
    exact ⟨rfl, hspan⟩
  · rintro es t e t' hexec ⟨hdel, hspan⟩ hstep
    have hok := ok_exec hread hwrite hexec
    rw [chunks_append, Decoder.feed_append]
    rcases step_cases hstep with
      ⟨res, bytes, sqe, rfl, hop, hres, rfl⟩ | ⟨w, sqe, rfl, hop, hw, rfl⟩ |
        ⟨id, sqe, rfl, hop, rfl⟩
    · rcases le_or_gt res 0 with hend | hdata
      · obtain ⟨hdel', _, _, hbuf⟩ := Session.endRead_history t.session
        have hnone : chunks [.read res bytes] = [] := by
          simp [chunks, not_lt.mpr hend]
        simp only [settle, Session.readDone, if_pos hend, hdel', hbuf, hdel, hspan, hnone,
          Decoder.feed, List.append_nil, and_self]
      · obtain ⟨hdel', hspan'⟩ :=
          (hok.take hop).readDone_delivered flavor codec hdata hres.2
        have hone : chunks [.read res bytes] = [bytes] := by
          simp [chunks, hdata]
        simp only [settle, hdel', hspan', hdel, hspan, hone, Decoder.feed, List.append_nil,
          and_self]
    · have hframe := (hok.take hop).writerFrame_writeDone hw
      obtain ⟨buf, hconn⟩ := hframe.conn
      have hnone : chunks [.write w] = [] := rfl
      simp only [settle, hframe.delivered, hconn, hnone, Decoder.feed, List.append_nil]
      exact ⟨hdel, hspan⟩
    · obtain ⟨hd, hfind, _⟩ := (hok.take hop).resumeHandler
      have hframe := Session.frame_push
        { t.session with handlers := t.session.handlers.eraseP (fun hd => hd.id = id) }
        (codec.response hd.header hd.message)
      obtain ⟨buf, hconn⟩ := hframe.conn
      have hnone : chunks [.timer id] = [] := rfl
      simp only [settle, Session.timerDone, hfind, Session.push_delivered, hconn, hnone,
        Decoder.feed, List.append_nil]
      exact ⟨hdel, hspan⟩

/-- A step takes no delivered message back. -/
theorem delivered_step {c : CoroConnection} (hread : c.FreshRead) (hwrite : c.WriteOk)
    {es : List Event} {e : Event} {t t' : Live}
    (hrun : (machine flavor codec).exec (init c) es = some t)
    (hstep : (machine flavor codec).step t e = some t') :
    t.session.delivered <+: t'.session.delivered := by
  have hrun' := Machine.exec_concat_eq_some.mpr ⟨t, hrun, hstep⟩
  rw [(delivered_exec hread hwrite hrun).1, (delivered_exec hread hwrite hrun').1, chunks_append,
    Decoder.feed_append]
  exact List.prefix_append _ _

/-- Each accepted request is pushed once, or its handler sleeps. -/
theorem answered_exec {c : CoroConnection} (hread : c.FreshRead) (hwrite : c.WriteOk)
    {es : List Event} {t : Live}
    (hrun : (machine flavor codec).exec (init c) es = some t) :
    t.session.Answered flavor codec := by
  refine Machine.run_induction
    (motive := fun _ t => t.session.Answered flavor codec) ?_ ?_ hrun
  · rw [init, Session.start_eq]
    exact ⟨[], rfl, List.Perm.nil, fun _ => ⟨rfl, rfl⟩⟩
  · rintro es t e t' hexec ha hstep
    have hok := ok_exec hread hwrite hexec
    rcases step_cases hstep with
      ⟨res, bytes, sqe, rfl, hop, hres, rfl⟩ | ⟨w, sqe, rfl, hop, hw, rfl⟩ |
        ⟨id, sqe, rfl, hop, rfl⟩
    · exact ((hok.take hop).answered_readDone ha res hres.2).congr rfl rfl rfl
    · have hframe := (hok.take hop).writerFrame_writeDone hw
      exact ha.congr hframe.delivered hframe.pushed hframe.handlers
    · exact ((hok.take hop).answered_timerDone ha).congr rfl rfl rfl

/-- No write has failed: every write completion is positive. -/
def WritesSucceed (es : List Event) : Prop := ∀ w, Event.write w ∈ es → 0 < w

theorem complete_exec {c : CoroConnection} (hread : c.FreshRead) (hwrite : c.WriteOk)
    {es : List Event} {t : Live}
    (hrun : (machine flavor codec).exec (init c) es = some t) (hpos : WritesSucceed es) :
    t.session.Complete := by
  refine Machine.run_induction
    (motive := fun es t => WritesSucceed es → t.session.Complete) ?_ ?_ hrun hpos
  · intro _
    rw [init, Session.start_eq]
    intro hdone
    cases hdone
  · rintro es t e t' hexec ih hstep hpos
    have hok := ok_exec hread hwrite hexec
    have hc := ih fun w hw => hpos w (List.mem_append_left _ hw)
    rcases step_cases hstep with
      ⟨res, bytes, sqe, rfl, hop, hres, rfl⟩ | ⟨w, sqe, rfl, hop, hw, rfl⟩ |
        ⟨id, sqe, rfl, hop, rfl⟩
    · exact (hok.take hop).complete_readDone hc res hres.2
    · exact (hok.take hop).complete_writeDone hw (hpos w (by simp))
    · exact (hok.take hop).complete_timerDone hc

end Live

end CRpc
