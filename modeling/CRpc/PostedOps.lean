import CRpc.PartialWrites
import CRpc.ReadProgress
import CRpc.SyncEcho
import CRpc.WriteOrder

/-!
# What a connection has posted

The operations a connection has in flight, with their lengths.  `conn_step` says
what one completion does to the connection and to its read in flight, and
`readPosted_exec` what follows for whole runs: the read in flight is the one that
`Read` posted on the buffer as it is now.  `WritePosted` says the same of the write.

On a stream of frames both have a positive length (`read_room`, `write_room`), so
that the kernel can always move at least one byte.
-/

namespace CRpc

open Lib Protocol

namespace CoroConnection

/-- `c'` is the connection `c` with other contents of its two buffers. -/
def SameConn (c c' : CoroConnection) : Prop :=
  ∃ rbuf wbuf, c' = { c with readBuffer := rbuf, writeBuffer := wbuf }

theorem SameConn.refl (c : CoroConnection) : SameConn c c :=
  ⟨c.readBuffer, c.writeBuffer, rfl⟩

theorem SameConn.trans {c₁ c₂ c₃ : CoroConnection} (h₁ : SameConn c₁ c₂)
    (h₂ : SameConn c₂ c₃) : SameConn c₁ c₃ := by
  obtain ⟨_, _, rfl⟩ := h₁
  obtain ⟨rbuf, wbuf, rfl⟩ := h₂
  exact ⟨rbuf, wbuf, rfl⟩

theorem SameConn.symm {c c' : CoroConnection} (h : SameConn c c') : SameConn c' c := by
  obtain ⟨_, _, rfl⟩ := h
  exact ⟨c.readBuffer, c.writeBuffer, rfl⟩

theorem sameConn_withWriteBuffer (c : CoroConnection) (wbuf : Buffer) :
    SameConn c (c.withWriteBuffer wbuf) :=
  ⟨c.readBuffer, wbuf, rfl⟩

theorem sameConn_read (c : CoroConnection) : SameConn c c.read.1 :=
  ⟨_, c.writeBuffer, rfl⟩

/-- `Read` in dynamic mode grows the storage to the unread bytes and the room it asks for. -/
theorem capacity_read_le {c : CoroConnection} (hdyn : c.readBufIdx = none) :
    c.read.1.readBuffer.capacity ≤
      max c.readBuffer.capacity (c.readBuffer.readableBytes + 4096) := by
  have hread : c.read.1.readBuffer = (c.readBuffer.ensureWritable 4096).2 := by
    simp [CoroConnection.read, CoroConnection.readRequest, hdyn]
  rw [hread, Buffer.ensureWritable]
  split_ifs
  · exact le_max_left _ _
  · rw [Buffer.compact_capacity]
    exact le_max_left _ _
  · rw [Buffer.compact_capacity]
    exact le_max_left _ _
  · simp only [Buffer.compact_writeIdx]
    exact le_max_right _ _

end CoroConnection

open CoroConnection

namespace Session

variable {base : Ops} {s : Session} {flavor : Flavor} {codec : EchoCodec}

/-- A completed read leaves the storage of the buffer as it is until the next `Read`. -/
theorem readDone_storage (flavor : Flavor) (codec : EchoCodec) {res : Int}
    (hres : 0 < res) {bytes : List UInt8} (hok : s.conn.ReadOk)
    (hroom : bytes.length ≤ s.conn.readBuffer.writableBytes) :
    ∃ c ms, SameConn s.conn c ∧ c.ReadOk ∧
      c.readBuffer.capacity = s.conn.readBuffer.capacity ∧
      c.readBuffer.getSpan = (frames.drain (s.conn.readBuffer.getSpan ++ bytes)).2 ∧
      readDone flavor codec s res bytes =
        ({ handleAll (onMessage flavor codec) (s.received bytes) ms with conn := c } :
          Session).startRead := by
  have hv := Buffer.valid_append hok.valid bytes hroom
  obtain ⟨n, hn, hrest, hloop⟩ :=
    parseLoop_spec (onMessage flavor codec) hv (s.received bytes)
  have hframe := frame_handleAll flavor codec
    (frames.drain ((s.conn.readBuffer.storeAtWriteBegin bytes).hasWritten
      bytes.length).getSpan).1 (s.received bytes)
  obtain ⟨wbuf, hconn⟩ := hframe.conn
  have hparse : parseMessages flavor codec (s.received bytes) =
      { handleAll (onMessage flavor codec) (s.received bytes)
          (frames.drain ((s.conn.readBuffer.storeAtWriteBegin bytes).hasWritten
            bytes.length).getSpan).1 with
        conn := { (s.received bytes).conn.withWriteBuffer wbuf with
          readBuffer := ((s.conn.readBuffer.storeAtWriteBegin bytes).hasWritten
            bytes.length).hasRead n } } := by
    have hbuf : (s.received bytes).conn.readBuffer =
        (s.conn.readBuffer.storeAtWriteBegin bytes).hasWritten bytes.length := rfl
    rw [parseMessages, hbuf]
    simp only [hloop, hconn]
  refine ⟨_, _, ?_, ?_, ?_, ?_, by rw [readDone, if_neg (not_le.mpr hres), hparse]⟩
  · exact ⟨_, wbuf, rfl⟩
  · exact ⟨Buffer.valid_hasRead hv hn, hok.mode⟩
  · rfl
  · rw [Buffer.getSpan_append hok.valid] at hrest
    exact hrest

/-- The write in flight is the one that `WriteOnce` posted for the rest of the item. -/
def WritePosted (base : Ops) (s : Session) : Prop :=
  ∀ f, s.writer = .onWrite f → ∃ c, SameConn s.conn c ∧
    (Role.writer, (c.writeOnce f.rest).2) ∈ base ++ s.posts

theorem writePosted_of_not {s : Session} (h : ∀ f, s.writer ≠ .onWrite f) :
    WritePosted base s :=
  fun f hf => absurd hf (h f)

theorem WritePosted.congr {s' : Session} (h : WritePosted base s)
    (hwriter : s'.writer = s.writer) (hconn : SameConn s'.conn s.conn)
    (hposts : s.posts ⊆ s'.posts) : WritePosted base s' := by
  intro f hf
  rw [hwriter] at hf
  obtain ⟨c, hc, hop⟩ := h f hf
  refine ⟨c, hconn.trans hc, ?_⟩
  rcases List.mem_append.mp hop with hbase | hpost
  · exact List.mem_append_left _ hbase
  · exact List.mem_append_right _ (hposts hpost)

theorem writePosted_waitWrite (s : Session) (f : WriteFrame) :
    WritePosted base (s.waitWrite f) := by
  intro f' hf'
  simp only [waitWrite, post, WriterState.onWrite.injEq] at hf'
  subst hf'
  refine ⟨s.conn, ?_, by simp [waitWrite, post]⟩
  obtain ⟨buf, hbuf⟩ := s.conn.writeOnce_conn f.rest
  simp only [waitWrite, post, hbuf]
  exact ⟨s.conn.readBuffer, s.conn.writeBuffer, rfl⟩

theorem Ok.writePosted_push (h : Ok base s) (hw : WritePosted base s) {data : List UInt8}
    (hdata : data ≠ []) : WritePosted base (s.push data) := by
  by_cases hpop : s.writer = .onPop
  · obtain ⟨hwaiter, hitems, _, _, _⟩ := h.onPop hpop
    rw [push_waiting hwaiter hpop hitems hdata]
    exact writePosted_waitWrite _ _
  · rw [push_busy (h.waiter_none hpop)]
    exact hw.congr rfl (SameConn.refl _) (List.Subset.refl _)

theorem Ok.writePosted_handleAll (h : Ok base s) (hw : WritePosted base s)
    (ms : List Message) :
    WritePosted base (CRpc.handleAll (onMessage flavor codec) s ms) := by
  refine (handleAll_induction (P := fun t => Ok base t ∧ WritePosted base t)
    ?_ ?_ ?_ ms s ⟨h, hw⟩).2
  · exact fun t m _ ht =>
      ⟨ht.1.note m, ht.2.congr rfl (SameConn.refl _) (List.Subset.refl _)⟩
  · intro _ t m r _ ht
    have hdata := codec.response_ne_nil r.1 r.2
    have hnoted : WritePosted base (t.note m) :=
      ht.2.congr rfl (SameConn.refl _) (List.Subset.refl _)
    exact ⟨(ht.1.note m).push hdata, (ht.1.note m).writePosted_push hnoted hdata⟩
  · exact fun _ t m r _ ht => ⟨(ht.1.note m).sleep r.1 r.2,
      ht.2.congr rfl (SameConn.refl _) (List.subset_append_left _ _)⟩

theorem writePosted_writeLoop (s : Session) (hnonempty : ∀ x, x ∈ s.queue.items → x ≠ []) :
    WritePosted base s.writeLoop := by
  cases hready : s.queue.awaitReady with
  | false =>
      rw [writeLoop_suspends hready]
      exact writePosted_of_not (by simp)
  | true =>
      cases hitems : s.queue.items with
      | nil =>
          rw [writeLoop_ready hready, afterPop_nil _ hitems]
          exact writePosted_of_not (by simp)
      | cons item rest =>
          rw [writeLoop_cons hitems
            (hnonempty item (by rw [hitems]; exact List.mem_cons_self))]
          exact writePosted_waitWrite _ _

theorem Ok.writePosted_writeDone {sqe : Sqe} (h : Ok ((.writer, sqe) :: base) s) {w : Int}
    (hw : w ≤ postedWrite sqe) :
    WritePosted base ((s.kernelWrites sqe w).writeDone w) := by
  obtain ⟨f, hwriter, hf, hsent, _⟩ := h.sent hw
  rcases le_or_gt w 0 with hneg | hpos
  · rw [writeDone_failed sqe hwriter hneg]
    exact writePosted_of_not (by simp)
  · rcases le_or_gt f.remaining w.toNat with hlast | hmore
    · rw [writeDone_last sqe hwriter hpos hlast]
      split
      · exact writePosted_of_not (by simp)
      · exact writePosted_writeLoop _ hsent.nonempty
    · rw [writeDone_more sqe hwriter hf hpos hmore]
      exact writePosted_waitWrite _ _

theorem Ok.writePosted_readDone {sqe : Sqe} (h : Ok ((.reader, sqe) :: base) s)
    (hw : WritePosted base s) (res : Int) {bytes : List UInt8}
    (hbytes : bytes.length ≤ postedRead sqe) :
    WritePosted base (Session.readDone flavor codec s res bytes) := by
  rcases h.readDone_cases flavor codec res hbytes with ⟨_, heq⟩ | ⟨_, buf, heq⟩
  · obtain ⟨_, _, _, hrun⟩ := h.resumeReader
    rw [heq, Session.endRead]
    by_cases hpop : s.writer = .onPop
    · obtain ⟨hwaiter, hitems, _, _, _⟩ := hrun.onPop hpop
      rw [close_waiting hwaiter hpop hitems]
      exact writePosted_of_not (by simp)
    · rw [close_busy (hrun.waiter_none hpop)]
      exact hw.congr rfl (SameConn.refl _) (List.Subset.refl _)
  · have hrec : WritePosted base (s.received bytes) :=
      hw.congr rfl ⟨s.conn.readBuffer, s.conn.writeBuffer, rfl⟩ (List.Subset.refl _)
    have hall : WritePosted base (CRpc.handleAll (onMessage flavor codec) (s.received bytes)
        (frames.drain (s.conn.readBuffer.getSpan ++ bytes)).1) :=
      (h.received hbytes).writePosted_handleAll hrec _
    rw [heq]
    refine hall.congr rfl (SameConn.symm ?_) (List.subset_append_left _ _)
    exact SameConn.trans ⟨buf, _, rfl⟩ (sameConn_read _)

theorem Ok.writePosted_timerDone {sqe : Sqe} {id : Nat}
    (h : Ok ((.handler id, sqe) :: base) s) (hw : WritePosted base s) :
    WritePosted base (Session.timerDone codec s id) := by
  obtain ⟨hd, hfind, hok⟩ := h.resumeHandler
  rw [Session.timerDone, hfind]
  exact hok.writePosted_push (hw.congr rfl (SameConn.refl _) (List.Subset.refl _))
    (codec.response_ne_nil hd.header hd.message)

end Session

namespace Live

variable {flavor : Flavor} {codec : EchoCodec} {c : CoroConnection} {t t' : Live} {e : Event}

theorem mem_without {role : Role} {op : Role × Sqe} (hop : op ∈ t.flight)
    (hne : op.1 ≠ role) : op ∈ t.without role :=
  (List.mem_eraseP_of_neg (by simpa using hne)).mpr hop

/--
What a completion does to the connection: it leaves the read in flight and the
read buffer alone, or ends the read loop, or it is a read with data, after which
`Read` is called on the connection with the same storage.
-/
theorem conn_step (hok : t.Ok) (hstep : (machine flavor codec).step t e = some t') :
    (∃ wbuf, t'.session.conn = t.session.conn.withWriteBuffer wbuf ∧
      (t'.session.reader = .done ∧ (∃ res bytes, e = .read res bytes ∧ res ≤ 0) ∨
        t'.session.reader = t.session.reader ∧
          ∀ sqe, (Role.reader, sqe) ∈ t.flight → (Role.reader, sqe) ∈ t'.flight)) ∨
    ∃ c, SameConn t.session.conn c ∧ c.ReadOk ∧
      c.readBuffer.capacity = t.session.conn.readBuffer.capacity ∧
      t'.session.conn.readBuffer = c.read.1.readBuffer ∧ SameConn c t'.session.conn ∧
      t'.session.reader = .onRead ∧ (Role.reader, c.read.2) ∈ t'.flight := by
  rcases step_cases hstep with
    ⟨res, bytes, sqe, rfl, hop, hres, rfl⟩ | ⟨w, sqe, rfl, hop, hw, rfl⟩ |
      ⟨id, sqe, rfl, hop, rfl⟩
  · rcases le_or_gt res 0 with hend | hdata
    · left
      have hframe := Session.writerFrame_resumeWaiter
        ({ t.session with reader := .running, queue := t.session.queue.close.1 } : Session)
        t.session.queue.close.2
      obtain ⟨wbuf, hconn⟩ := hframe.conn
      refine ⟨wbuf, ?_, Or.inl ⟨?_, res, bytes, rfl, hend⟩⟩
      · simp only [settle, Session.readDone, if_pos hend, Session.endRead, Session.close, hconn]
      · simp only [settle, Session.readDone, if_pos hend, Session.endRead]
    · right
      have hroom := hres.2.trans (hok.take hop).resumeReader.2.2.1
      obtain ⟨c, ms, hsame, hread, hcap, _, heq⟩ :=
        Session.readDone_storage flavor codec hdata hok.session.readOk hroom
      rw [heq]
      exact ⟨c, hsame, hread, hcap, rfl, sameConn_read c, rfl,
        List.mem_append_right _ (List.mem_append_right _ List.mem_cons_self)⟩
  · left
    have hframe := (hok.take hop).writerFrame_writeDone hw
    obtain ⟨wbuf, hconn⟩ := hframe.conn
    refine ⟨wbuf, hconn, Or.inr ⟨hframe.reader, fun sqe' hin => ?_⟩⟩
    exact List.mem_append_left _ (mem_without hin (by simp))
  · left
    obtain ⟨hd, hfind, _⟩ := (hok.take hop).resumeHandler
    have hframe := Session.frame_push
      { t.session with handlers := t.session.handlers.eraseP (fun hd => hd.id = id) }
      (codec.response hd.header hd.message)
    obtain ⟨wbuf, hconn⟩ := hframe.conn
    refine ⟨wbuf, ?_, Or.inr ⟨?_, fun sqe' hin => ?_⟩⟩
    · simp only [settle, Session.timerDone, hfind, hconn]
    · simp only [settle, Session.timerDone, hfind, hframe.reader]
    · exact List.mem_append_left _ (mem_without hin (by simp))

/-- The read in flight is the one posted on the buffer as it is now. -/
structure ReadPosted (c₀ : CoroConnection) (t : Live) : Prop where
  same : SameConn c₀ t.session.conn
  capacity : c₀.readBufIdx.isSome →
    t.session.conn.readBuffer.capacity = c₀.readBuffer.capacity
  reading : t.session.reader = .onRead → ∃ c, SameConn c₀ c ∧ c.ReadOk ∧
    c.readBuffer.capacity ≤ t.session.conn.readBuffer.capacity ∧
    t.session.conn.readBuffer = c.read.1.readBuffer ∧ (Role.reader, c.read.2) ∈ t.flight

/-- `Read` never shrinks the storage, and leaves that of a fixed buffer alone. -/
theorem capacity_read {c : CoroConnection} (h : c.ReadOk) :
    c.readBuffer.capacity ≤ c.read.1.readBuffer.capacity ∧
      (c.readBufIdx.isSome → c.read.1.readBuffer.capacity = c.readBuffer.capacity) := by
  have hv := h.valid.write_le
  constructor
  · simp only [CoroConnection.read, Buffer.ensureWritable]
    split_ifs with h1 h2
    · exact le_rfl
    · rw [Buffer.compact_capacity]
    · rw [Buffer.compact_capacity]
    · rw [Buffer.compact_writableBytes] at h2
      simp only [Buffer.compact_writeIdx]
      omega
  · intro hfix
    exact Buffer.ensureWritable_capacity_of_fixed (by rw [h.mode, hfix]) _

theorem readPosted_exec (hread : c.FreshRead) (hwrite : c.WriteOk) {es : List Event}
    (hrun : (machine flavor codec).exec (init c) es = some t) : t.ReadPosted c := by
  refine Machine.run_induction (motive := fun _ t => ReadPosted c t) ?_ ?_ hrun
  · have hcap := capacity_read hread.readOk
    rw [init, Session.start_eq]
    refine ⟨sameConn_read c, fun hfix => hcap.2 hfix, fun _ => ?_⟩
    exact ⟨c, SameConn.refl c, hread.readOk, hcap.1, rfl, List.mem_cons_self⟩
  · intro es t e t' hexec h hstep
    rcases conn_step (ok_exec hread hwrite hexec) hstep with
      ⟨wbuf, hconn, hreader⟩ | ⟨c', hsame, hok', hcap', hbuf, hsame', _, hop⟩
    · refine ⟨h.same.trans (hconn ▸ sameConn_withWriteBuffer _ wbuf), ?_, ?_⟩
      · rw [hconn]
        exact h.capacity
      · intro hon
        rcases hreader with ⟨hdone, _⟩ | ⟨hkeep, hflight⟩
        · rw [hon] at hdone
          cases hdone
        · rw [hkeep] at hon
          obtain ⟨c', hsame, hok', hcap', hbuf, hop⟩ := h.reading hon
          refine ⟨c', hsame, hok', ?_, ?_, hflight _ hop⟩
          · rw [hconn]
            exact hcap'
          · rw [hconn]
            exact hbuf
    · have hcap := capacity_read hok'
      refine ⟨(h.same.trans hsame).trans hsame', ?_, fun _ => ?_⟩
      · intro hfix
        have hidx : c'.readBufIdx.isSome := by
          obtain ⟨_, _, rfl⟩ := h.same.trans hsame
          exact hfix
        rw [hbuf, hcap.2 hidx, hcap', h.capacity hfix]
      · exact ⟨c', h.same.trans hsame, hok', hbuf ▸ hcap.1, hbuf, hop⟩

theorem writePosted_exec (hread : c.FreshRead) (hwrite : c.WriteOk) {es : List Event}
    (hrun : (machine flavor codec).exec (init c) es = some t) :
    t.session.WritePosted t.flight := by
  refine Machine.run_induction (motive := fun _ t => t.session.WritePosted t.flight) ?_ ?_ hrun
  · rw [init, Session.start_eq]
    exact Session.writePosted_of_not (by simp [settle, Session.startRead, Session.post])
  · intro es t e t' hexec h hstep
    have hok := ok_exec hread hwrite hexec
    -- the writer's operation is not the one that completes
    have hkept : ∀ role, role ≠ Role.writer → t.session.WritePosted (t.without role) := by
      intro role hne f hf
      obtain ⟨c', hc', hop⟩ := h f hf
      rw [hok.posts, List.append_nil] at hop
      exact ⟨c', hc', List.mem_append_left _ (mem_without hop hne.symm)⟩
    have hsettle : ∀ (s : Session) base, s.WritePosted base →
        (settle s base).session.WritePosted (settle s base).flight := by
      intro s base hs f hf
      obtain ⟨c', hc', hop⟩ := hs f hf
      exact ⟨c', hc', List.mem_append_left _ hop⟩
    rcases step_cases hstep with
      ⟨res, bytes, sqe, rfl, hop, hres, rfl⟩ | ⟨w, sqe, rfl, hop, hw, rfl⟩ |
        ⟨id, sqe, rfl, hop, rfl⟩
    · exact hsettle _ _ ((hok.take hop).writePosted_readDone (hkept _ (by simp)) res hres.2)
    · exact hsettle _ _ ((hok.take hop).writePosted_writeDone hw)
    · exact hsettle _ _ ((hok.take hop).writePosted_timerDone (hkept _ (by simp)))

end Live

end CRpc
