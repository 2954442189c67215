import CRpc.ServerInvariant
import CRpc.SessionHistory

/-!
# Demand for submission entries

`Read`, `WriteOnce` and `AsyncSleep` take a submission entry without a check.
How many entries a resumed coroutine takes depends on the state of its
connection and on the bytes received: a read completion of the asynchronous
server takes one for the next read and one for every request in the bytes.

`demand` computes that number before the coroutine runs, and `no_null_entry_iff`
says that a worker never dereferences a null entry if and only if the demand of
every resumption fits into the room left in the submission ring.
`null_entry_by_input` is a run in which the bytes of a single read exhaust the
1024 entries of the default configuration.
-/

namespace CRpc

open Lib Protocol

namespace Session

variable {base : Ops} {s : Session} {flavor : Flavor} {codec : EchoCodec}

/-! ### What the coroutines of a connection take -/

/-- Entries for `n` requests of one read; `idle` when the write loop waits in `Pop`. -/
def requestDemand (flavor : Flavor) (idle : Bool) (n : Nat) : Nat :=
  match flavor with
  | .sync => if idle ∧ 0 < n then 1 else 0
  | .async => n

/-- Entries taken after a completed read. -/
def readDemand (flavor : Flavor) (codec : EchoCodec) (s : Session) (res : Int)
    (bytes : List UInt8) : Nat :=
  if res ≤ 0 then 0
  else
    requestDemand flavor (s.writer = .onPop)
      (codec.requests (frames.drain (s.conn.readBuffer.getSpan ++ bytes)).1).length + 1

/-- Entries taken after a completed write. -/
def writeDemand (s : Session) (w : Int) : Nat :=
  match s.writer with
  | .onWrite f =>
      if w ≤ 0 then 0
      else if w.toNat < f.remaining then 1
      else if 0 < toInt32 f.data.length ∧ s.queue.items ≠ [] then 1
      else 0
  | _ => 0

/-- Entries taken after the sleep of a handler. -/
def timerDemand (s : Session) : Nat := if s.writer = .onPop then 1 else 0

theorem Ok.posts_push (h : Ok base s) {data : List UInt8} (hdata : data ≠ []) :
    (s.push data).posts.length = s.posts.length + if s.writer = .onPop then 1 else 0 := by
  by_cases hpop : s.writer = .onPop
  · obtain ⟨hwaiter, hitems, _, _, _⟩ := h.onPop hpop
    rw [push_waiting hwaiter hpop hitems hdata, if_pos hpop]
    exact List.length_append
  · rw [push_busy (h.waiter_none hpop), if_neg hpop]
    rfl

/-- The inner loop: a push takes an entry only when it finds the write loop idle. -/
theorem posts_handleAll (flavor : Flavor) (codec : EchoCodec) (ms : List Message) :
    ∀ {s : Session}, Ok base s →
      (CRpc.handleAll (Session.onMessage flavor codec) s ms).posts.length =
        s.posts.length +
          requestDemand flavor (s.writer = .onPop) (codec.requests ms).length := by
  induction ms with
  | nil =>
      intro s _
      cases flavor <;> simp [CRpc.handleAll, EchoCodec.requests, requestDemand]
  | cons m ms ih =>
      intro s h
      change (CRpc.handleAll (Session.onMessage flavor codec)
        (Session.onMessage flavor codec s m.1 m.2) ms).posts.length = _
      rw [onMessage_eq, EchoCodec.requests]
      cases haccepts : codec.accepts m with
      | none =>
          rw [List.filterMap_cons_none haccepts]
          exact ih (h.note m)
      | some r =>
          rw [List.filterMap_cons_some haccepts, List.length_cons]
          cases flavor with
          | sync =>
              have hdata := codec.response_ne_nil r.1 r.2
              -- after the push the write loop is not idle
              have hbusy : ((s.note m).push (codec.response r.1 r.2)).writer ≠ .onPop := by
                rw [(h.note m).push_writer hdata]
                split
                · simp
                · assumption
              refine (ih ((h.note m).push hdata)).trans ?_
              rw [(h.note m).posts_push hdata, decide_eq_false hbusy]
              by_cases hpop : s.writer = .onPop <;> simp [requestDemand, Session.note, hpop]
          | async =>
              refine (ih ((h.note m).sleep r.1 r.2)).trans ?_
              change (s.posts ++ [_]).length + (codec.requests ms).length =
                s.posts.length + ((codec.requests ms).length + 1)
              rw [List.length_append, List.length_singleton]
              omega

theorem Ok.posts_readDone {sqe : Sqe} (h : Ok ((.reader, sqe) :: base) s) (res : Int)
    {bytes : List UInt8} (hbytes : bytes.length ≤ postedRead sqe) :
    (Session.readDone flavor codec s res bytes).posts.length =
      s.posts.length + s.readDemand flavor codec res bytes := by
  rw [readDemand]
  rcases h.readDone_cases flavor codec res hbytes with ⟨hend, heq⟩ | ⟨hdata, buf, heq⟩
  · obtain ⟨_, _, _, hrun⟩ := h.resumeReader
    rw [if_pos hend, heq, Session.endRead]
    by_cases hpop : s.writer = .onPop
    · obtain ⟨hwaiter, hitems, _, _, _⟩ := hrun.onPop hpop
      rw [close_waiting hwaiter hpop hitems]
      rfl
    · rw [close_busy (hrun.waiter_none hpop)]
      rfl
  · have hall := posts_handleAll flavor codec
      (frames.drain (s.conn.readBuffer.getSpan ++ bytes)).1 (h.received hbytes)
    rw [if_neg (not_le.mpr hdata), heq, Session.readAgain, Session.startRead, post,
      List.length_append, List.length_singleton, hall, Nat.add_assoc]
    rfl

theorem posts_writeLoop {s : Session} (hnonempty : ∀ x, x ∈ s.queue.items → x ≠ []) :
    s.writeLoop.posts.length = s.posts.length + if s.queue.items ≠ [] then 1 else 0 := by
  cases hitems : s.queue.items with
  | nil =>
      cases hready : s.queue.awaitReady with
      | true =>
          rw [writeLoop_ready hready, afterPop_nil _ hitems]
          simp
      | false =>
          rw [writeLoop_suspends hready]
          simp
  | cons item rest =>
      rw [writeLoop_cons hitems (hnonempty item (by rw [hitems]; exact List.mem_cons_self)),
        if_pos (by simp)]
      exact List.length_append

theorem Ok.posts_writeDone {sqe : Sqe} (h : Ok ((.writer, sqe) :: base) s) {w : Int}
    (hw : w ≤ postedWrite sqe) :
    ((s.kernelWrites sqe w).writeDone w).posts.length =
      s.posts.length + s.writeDemand w := by
  obtain ⟨f, hwriter, hf, hsent, _⟩ := h.sent hw
  rw [writeDemand, hwriter]
  rcases le_or_gt w 0 with hneg | hpos
  · rw [writeDone_failed sqe hwriter hneg]
    simp only [if_pos hneg]
    rfl
  · simp only [if_neg (not_le.mpr hpos)]
    rcases le_or_gt f.remaining w.toNat with hlast | hmore
    · rw [writeDone_last sqe hwriter hpos hlast, if_neg (not_lt.mpr hlast)]
      by_cases hint : toInt32 f.data.length ≤ 0
      · rw [if_pos hint, if_neg (fun hand => absurd hint (not_le.mpr hand.1))]
        rfl
      · have hgo : 0 < toInt32 f.data.length := not_le.mp hint
        rw [if_neg hint, posts_writeLoop hsent.nonempty]
        simp only [hgo, true_and]
        rfl
    · rw [writeDone_more sqe hwriter hf hpos hmore, if_pos hmore]
      exact List.length_append

theorem Ok.posts_timerDone {sqe : Sqe} {id : Nat} (h : Ok ((.handler id, sqe) :: base) s) :
    (Session.timerDone codec s id).posts.length = s.posts.length + s.timerDemand := by
  obtain ⟨hd, hfind, hok⟩ := h.resumeHandler
  rw [Session.timerDone, hfind]
  exact hok.posts_push (codec.response_ne_nil hd.header hd.message)

end Session

namespace Server

variable {r : FixedResources} {s : Server} {flavor : Flavor} {codec : EchoCodec}

/-! ### What a resumption takes -/

/-- Unchecked entries that a coroutine takes when it is resumed with `res`. -/
def demand (flavor : Flavor) (codec : EchoCodec) (s : Server) (res : Int)
    (bytes : List UInt8) : Handle → Nat
  | .acceptLoop => if res < 0 then 0 else 1
  | .session cid role =>
      match s.peers[cid]? with
      | none => 0
      | some p =>
          match role with
          | .reader => p.session.readDemand flavor codec res bytes
          | .writer => p.session.writeDemand res
          | .handler _ => p.session.timerDemand

/-- Entries that can be taken before the next submission. -/
def room (s : Server) : Nat := s.loop.entries - s.loop.sq.length

/-- The coroutine resumed next finds the entries it takes. -/
def Fits (flavor : Flavor) (codec : EchoCodec) (s : Server) : Event → Prop
  | .fetch input => ∀ handle cqe, s.loop.next = some (handle, cqe) →
      s.demand flavor codec cqe.res input.bytes handle ≤ s.room
  | _ => True

theorem submitAll_crashed (heap : Heap) (ops : List (Handle × Sqe)) :
    ∀ s : Server, s.crashed = false →
      ((submitAll heap s ops).crashed = false ↔ ops.length ≤ s.room) := by
  induction ops with
  | nil =>
      intro s hs
      simp [submitAll, hs]
  | cons op ops ih =>
      intro s hs
      rw [submitAll]
      split
      next hroom =>
        rw [ih (s.submit heap op.1 op.2) hs]
        simp only [room, submit, EventLoop.submit, List.length_append, List.length_cons,
          List.length_nil]
        rw [EventLoop.HasSqe] at hroom
        omega
      next hfull =>
        rw [EventLoop.HasSqe] at hfull
        simp only [Bool.true_eq_false, false_iff, room, List.length_cons]
        omega

@[simp] theorem acceptLoop_crashed (heap : Heap) (s : Server) :
    (s.acceptLoop heap).crashed = s.crashed := by
  rw [acceptLoop]
  split <;> rfl

@[simp] theorem returns_crashed (s : Server) : s.returns.crashed = s.crashed := by
  rw [Server.returns]
  split
  · rfl
  · split <;> rfl

theorem posted_length (cid : Nat) (t : Session) :
    (posted cid t).length = t.posts.length := List.length_map _

/-- A new connection takes one entry, for its first read. -/
theorem connect_crashed (input : Input) (clientFd : Int) (hs : s.crashed = false) :
    (s.connect input clientFd).crashed = false ↔ 1 ≤ s.room := by
  refine Iff.trans (submitAll_crashed _ _ _ ?_) ?_
  · exact hs
  · rw [posted_length, Session.start_eq]
    rfl

theorem acceptDone_crashed (input : Input) (res : Int) (hs : s.crashed = false) :
    (s.acceptDone input res).crashed = false ↔
      s.demand flavor codec res input.bytes .acceptLoop ≤ s.room := by
  rw [acceptDone, demand]
  split
  · simp [hs]
  · have hconn : (({ s with accept := .running } : Server).connect input res).crashed = false ↔
        1 ≤ s.room := connect_crashed input res hs
    simp only
    split
    next hcrashed =>
      rw [hcrashed] at hconn
      simpa [hcrashed] using hconn
    next hlive =>
      rw [acceptLoop_crashed]
      exact hconn

/-- A coroutine of a connection takes as many entries as its demand says. -/
theorem resumes_posts {base : Ops} {cid : Nat} {p : Peer} {t : Session} {op : Sqe} {res : Int}
    {bytes : List UInt8} {role : Role} (hp : s.peers[cid]? = some p)
    (hran : Live.Resumes flavor codec p.session op res bytes role t)
    (hok : p.session.Ok ((role, op) :: base)) :
    t.posts.length =
      p.session.posts.length + s.demand flavor codec res bytes (.session cid role) := by
  simp only [demand, hp]
  cases hran with
  | reader hread => exact hok.posts_readDone res hread.2
  | writer hw => exact hok.posts_writeDone hw
  | handler id => exact hok.posts_timerDone

/-- A resumed coroutine crashes exactly when its demand exceeds the room. -/
theorem resume_crashed {ops : List (Handle × Sqe)} {input : Input} {handle : Handle}
    {op : Sqe} {res : Int} {s' : Server} (hs : s.crashed = false)
    (h : Consistent flavor codec r ((handle, op) :: ops) s)
    (hres : resume flavor codec input s handle op res = some s') :
    s'.crashed = false ↔ s.demand flavor codec res input.bytes handle ≤ s.room := by
  rcases resume_cases hres with
    ⟨rfl, _, rfl⟩ | ⟨cid, role, rfl, hnone, rfl⟩ | ⟨cid, role, p, t, rfl, hp, hran, rfl⟩
  · exact acceptDone_crashed input res hs
  · -- no operation waits for a coroutine that does not exist
    have hops := h.known cid (List.getElem?_eq_none_iff.mp hnone)
    rw [opsOf_cons_self] at hops
    cases hops
  · have hreached := (h.peers cid p hp).reached
    rw [opsOf_cons_self] at hreached
    have hlive := hreached.ok
    have hposts : p.session.posts.length = 0 := by
      rw [hlive.posts]
      rfl
    refine Iff.trans (submitAll_crashed _ _ _ ?_) ?_
    · exact hs
    · rw [posted_length, resumes_posts hp hran hlive.session, hposts, Nat.zero_add]
      rfl

/-- The dispatch of a completion and the resumption of its coroutine. -/
theorem Ok.fetch_next (h : s.Ok flavor codec r) (input : Input)
    {handle : Handle} {cqe : Cqe} (hnext : s.loop.next = some (handle, cqe)) :
    ∃ l, l.sq = s.loop.sq ∧ l.entries = s.loop.entries ∧
      Consistent flavor codec r ((handle, cqe.entry.op) :: l.ops) { s with loop := l } ∧
      s.fetch flavor codec input =
        (resume flavor codec input { s with loop := l } handle cqe.entry.op cqe.res).map
          Server.returns := by
  obtain ⟨_, _, slot, l, hfetch, _, _, hentries, hsq, _, hmem, hslot, hops⟩ :=
    h.loop.ops_dispatch hnext
  -- the coroutine reads its own slot
  obtain rfl : handle = slot := h.slots _ hmem
  refine ⟨l, hsq, hentries, Consistent.perm { h.consistent with } hops, ?_⟩
  simp only [Server.fetch, hfetch, hnext, hslot]

theorem crashed_step {s' : Server} {e : Event} (h : s.Ok flavor codec r)
    (hstep : (machine flavor codec).step s e = some s') :
    s'.crashed = false ↔ s.Fits flavor codec e := by
  simp only [machine, Option.ite_none_left_eq_some] at hstep
  obtain ⟨hlive, hstep⟩ := hstep
  have hs : s.crashed = false := (Bool.not_eq_true _).mp hlive
  cases e with
  | start heap =>
      simp only [Server.start, Option.ite_none_right_eq_some, Option.some.injEq] at hstep
      obtain ⟨_, rfl⟩ := hstep
      simp [Fits, hs]
  | stop =>
      cases hstep
      simp [Fits, Server.stop, hs]
  | fetch input =>
      rw [Fits]
      cases hnext : s.loop.next with
      | none =>
          simp only [Server.fetch, hnext] at hstep
          split at hstep
          next => cases hstep
          next =>
            cases hstep
            simp [hs]
      | some x =>
          obtain ⟨handle, cqe⟩ := x
          obtain ⟨l, hsq, hentries, hcons, hfetch⟩ :=
            h.fetch_next input hnext
          change s.fetch flavor codec input = some s' at hstep
          rw [hfetch] at hstep
          obtain ⟨t, ht, rfl⟩ := Option.map_eq_some_iff.mp hstep
          have hroom : ({ s with loop := l } : Server).room = s.room := by
            rw [room, room, hsq, hentries]
          have hcrash := resume_crashed (s := { s with loop := l }) hs hcons ht
          rw [hroom] at hcrash
          rw [returns_crashed, hcrash]
          constructor
          · rintro hle _ _ heq
            cases heq
            exact hle
          · exact fun hall => hall handle cqe rfl
  | loop e =>
      simp only [Option.ite_none_right_eq_some, Option.map_eq_some_iff] at hstep
      obtain ⟨_, l, _, rfl⟩ := hstep
      simp [Fits, hs]

/--
A worker never dereferences a null submission entry if and only if the demand of
every resumption fits into the room left in the submission ring.
-/
theorem no_null_entry_iff {entries : Nat} {listenFd : Int} {es : List Event} {t : Server}
    (hrun : (machine flavor codec).exec (init entries listenFd r) es = some t) :
    t.crashed = false ↔
      ∀ s e, (machine flavor codec).Takes (init entries listenFd r) es s e →
        s.Fits flavor codec e := by
  refine Machine.run_induction
    (motive := fun es t => t.crashed = false ↔
      ∀ s e, (machine flavor codec).Takes (init entries listenFd r) es s e →
        s.Fits flavor codec e) ?_ ?_ hrun
  · exact ⟨fun _ s e htakes => absurd htakes Machine.takes_nil, fun _ => rfl⟩
  · intro es s e s' hs ih hstep
    have hlive := crashed_of_step hstep
    rw [Machine.forall_takes_concat hs, crashed_step (ok_exec hs hlive) hstep]
    exact ⟨fun hfits => ⟨ih.mp hlive, hfits⟩, fun hall => hall.2⟩

/-- A client connects, and the entries for its read and the next accept are there. -/
theorem no_null_entry_iff_connect :
    ∃ t,
      (machine .async protoCodec).exec (init 8 3 smallResources)
        [.start countingHeap, .loop .run, .loop .test, .loop (.complete 0 5),
          .loop (.wake 0), .fetch (smallInput [])] = some t ∧
      t.crashed = false ∧
      ∀ s e, (machine .async protoCodec).Takes (init 8 3 smallResources)
        [.start countingHeap, .loop .run, .loop .test, .loop (.complete 0 5),
          .loop (.wake 0), .fetch (smallInput [])] s e → s.Fits .async protoCodec e := by
  have hrun : ((machine .async protoCodec).exec (init 8 3 smallResources)
      [.start countingHeap, .loop .run, .loop .test, .loop (.complete 0 5),
        .loop (.wake 0), .fetch (smallInput [])]).any (fun t => t.crashed = false) = true := by
    decide
  obtain ⟨t, ht, hcrash⟩ := (Option.any_eq_true _ _).mp hrun
  exact ⟨t, ht, of_decide_eq_true hcrash, (no_null_entry_iff ht).mp (of_decide_eq_true hcrash)⟩

/-! ### A single read that exhausts the ring -/

/-- In the asynchronous server a read with as many requests as there is room crashes. -/
theorem Ok.crashed_of_requests (h : s.Ok .async codec r) (hs : s.crashed = false)
    {cid : Nat} {cqe : Cqe} {p : Peer} (hnext : s.loop.next = some (.session cid .reader, cqe))
    (hp : s.peers[cid]? = some p) {input : Input}
    (hread : Live.ReadResult cqe.entry.op cqe.res input.bytes) (hres : 0 < cqe.res)
    (hmany : s.room ≤ (codec.requests
      (frames.drain (p.session.conn.readBuffer.getSpan ++ input.bytes)).1).length) :
    ∃ t, (machine .async codec).step s (.fetch input) = some t ∧ t.crashed = true := by
  obtain ⟨l, _, _, _, hfetch⟩ := h.fetch_next input hnext
  simp only [resume, hp, if_pos hread, Option.map_some] at hfetch
  obtain ⟨t, ht⟩ : ∃ t, s.fetch .async codec input = some t := ⟨_, hfetch⟩
  have hstep : (machine .async codec).step s (.fetch input) = some t := by
    simp only [machine, hs, Bool.false_eq_true, if_false, ht]
  refine ⟨t, hstep, ?_⟩
  rw [← Bool.not_eq_false, crashed_step h hstep, Fits]
  intro hfits
  have hdemand := hfits _ _ hnext
  simp only [demand, hp, Session.readDemand, if_neg (not_le.mpr hres),
    Session.requestDemand] at hdemand
  omega

/-- The default configuration, on a kernel that refuses to register the buffers. -/
def plainResources : FixedResources := FixedResources.setup true 64 65536 true false true

def plainInput (bytes : List UInt8) : Input :=
  { bytes := bytes, readMem := [], writeMem := [], registerOk := true
    unregisterOk := true, heap := countingHeap }

theorem plainInput_bytes (bytes : List UInt8) : (plainInput bytes).bytes = bytes := rfl

/-- `n` requests without payload. -/
def flood (n : Nat) : List UInt8 := encodedStream (List.replicate n (smallRequest.1, []))

theorem length_flood (n : Nat) : (flood n).length = n * 12 := by
  have hone : (encoded (smallRequest.1, [])).length = 12 := by
    rw [encoded_eq_frame, length_frame]
    rfl
  rw [flood, encodedStream, List.map_replicate, List.length_flatten, List.map_replicate,
    List.sum_replicate, hone]
  rfl

theorem requests_flood (n : Nat) :
    (protoCodec.requests (frames.drain (flood n)).1).length = n := by
  have hsize : ∀ m : Message, m ∈ List.replicate n (smallRequest.1, []) →
      m.2.length < 2 ^ 32 := by
    intro m hm
    rw [List.eq_of_mem_replicate hm]
    decide
  have hcut : [flood n].flatten =
      Decoder.wordsOf ((List.replicate n (smallRequest.1, [])).map wireWord) := by
    rw [List.flatten_singleton, flood, encodedStream_eq_wordsOf]
  have hfeed := Decoder.feed_all_codewords (codeword_wireWord hsize) hcut
  have hdrain : (frames.feed [] [flood n]).1 = (frames.drain (flood n)).1 := by
    simp [Decoder.feed]
  have haccepts : protoCodec.accepts (wireWord (smallRequest.1, [])).1 =
      some (wireHeader smallRequest.1 [], []) := by
    decide
  rw [← hdrain, hfeed, EchoCodec.requests, List.map_replicate, List.map_replicate,
    List.filterMap_replicate_of_some haccepts, List.length_replicate]

/-- A client has connected, and its first read completes with 12 KiB. -/
def floodEvents : List Event :=
  [.start countingHeap, .loop .run, .loop .test, .loop (.complete 0 5), .loop (.wake 0),
    .fetch (plainInput []), .loop .advance, .loop .test, .loop (.complete 0 12288),
    .loop (.wake 0)]

/--
A client of the asynchronous server with 1024 entries sends 1024 small requests
at once.  Their timers take all entries, and `Read` dereferences null.
-/
theorem null_entry_by_input :
    ∃ t,
      (machine .async protoCodec).exec (init 1024 3 plainResources)
        (floodEvents ++ [.fetch (plainInput (flood 1024))]) = some t ∧
      t.crashed = true := by
  have hbefore : ((machine .async protoCodec).exec (init 1024 3 plainResources) floodEvents).any
      (fun s => s.crashed = false ∧ s.room = 1024 ∧
        s.loop.next.map (fun x => (x.1, x.2.res, postedRead x.2.entry.op)) =
          some (.session 0 .reader, 12288, 65536) ∧
        s.peers[0]?.map (fun p => p.session.conn.readBuffer.getSpan) = some []) = true := by
    decide +kernel
  obtain ⟨s, hs, hstate⟩ := (Option.any_eq_true _ _).mp hbefore
  obtain ⟨hcrash, hroom, hnext, hpeer⟩ := of_decide_eq_true hstate
  obtain ⟨⟨handle, cqe⟩, hnext, heq⟩ := Option.map_eq_some_iff.mp hnext
  simp only [Prod.mk.injEq] at heq
  obtain ⟨rfl, hres, hposted⟩ := heq
  obtain ⟨p, hp, hspan⟩ := Option.map_eq_some_iff.mp hpeer
  have hread : Live.ReadResult cqe.entry.op cqe.res (plainInput (flood 1024)).bytes := by
    rw [Live.ReadResult, plainInput_bytes, length_flood, hres, hposted]
    decide
  obtain ⟨t, hstep, ht⟩ := (ok_exec hs hcrash).crashed_of_requests hcrash hnext hp
    hread (by rw [hres]; decide)
    (by rw [hroom, hspan, List.nil_append, plainInput_bytes, requests_flood])
  exact ⟨t, Machine.exec_concat_eq_some.mpr ⟨s, hs, hstep⟩, ht⟩

end Server

end CRpc
