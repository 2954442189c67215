import CRpc.EchoSession

/-!
# The invariant of a connection

`Session.Ok base s` relates the coroutines of a connection with its operations.
The operations are those in `base`, which were in flight before the event loop
resumed a coroutine, and those in `s.posts`.  The invariant says that each
suspended coroutine waits for exactly one operation or for the queue, that the
operation of the write loop takes its bytes from the item being sent, and that
the bytes on the wire are what the items popped so far explain.

Each function of the model has one lemma: it keeps the invariant.
-/

namespace CRpc

open Lib Protocol

/-- Operations of a connection, with the coroutines that wait for them. -/
abbrev Ops := List (Role × Sqe)

def ReaderState.roles : ReaderState → List Role
  | .onRead => [.reader]
  | _ => []

def WriterState.roles : WriterState → List Role
  | .onWrite _ => [.writer]
  | _ => []

namespace Session

/-- The coroutines that wait for an operation. -/
def waiting (s : Session) : List Role :=
  s.reader.roles ++ s.writer.roles ++ s.handlers.map (fun h => .handler h.id)

/-- The bytes on the wire, in terms of the items popped. -/
def WireOk (s : Session) : Prop :=
  match s.writer with
  | .onWrite f =>
      ∃ sent, s.popped = sent ++ [f.data] ∧ s.wire = sent.flatten ++ f.data.take f.ptr
  | .onPop => s.wire = s.popped.flatten
  | .done => s.wire <+: s.popped.flatten
  | .running => True

/-- The invariant. -/
structure Ok (base : Ops) (s : Session) : Prop where
  roles : ((base ++ s.posts).map Prod.fst).Perm s.waiting
  waiter : s.queue.waiter = if s.writer = .onPop then some .writer else none
  idle : s.writer = .onPop → s.queue.items = [] ∧ s.queue.closed = false
  open_of_read : s.reader = .onRead → s.queue.closed = false
  closed_of_done : s.reader = .done → s.queue.closed = true
  reading : s.reader = .onRead → ∃ addr len,
    (Role.reader, Sqe.read s.conn.target s.conn.readBufIdx addr len) ∈ base ++ s.posts ∧
      len ≤ s.conn.readBuffer.writableBytes
  writing : ∀ f, s.writer = .onWrite f → f.Ok ∧
    ∃ sqe, (Role.writer, sqe) ∈ base ++ s.posts ∧ s.conn.Staged sqe f.rest
  sleeping : ∀ op, op ∈ base ++ s.posts → ∀ id, op.1 = .handler id →
    op.2 = .timeout 0 10000000
  readOk : s.conn.ReadOk
  writeOk : s.conn.WriteOk
  history : s.pushed = s.popped ++ s.queue.items
  nonempty : ∀ x, x ∈ s.queue.items → x ≠ []
  wireOk : s.WireOk
  ids_nodup : (s.handlers.map Handler.id).Nodup
  ids_lt : ∀ h, h ∈ s.handlers → h.id < s.nextHandler
  noFault : s.fault = false

/-- What the write loop and the handlers leave alone. -/
structure Frame (s s' : Session) : Prop where
  reader : s'.reader = s.reader
  closed : s'.queue.closed = s.queue.closed
  conn : ∃ buf, s'.conn = s.conn.withWriteBuffer buf

/-- What the write loop leaves alone. -/
structure WriterFrame (s s' : Session) : Prop extends Frame s s' where
  handlers : s'.handlers = s.handlers
  nextHandler : s'.nextHandler = s.nextHandler
  delivered : s'.delivered = s.delivered
  pushed : s'.pushed = s.pushed

theorem Frame.refl (s : Session) : Frame s s :=
  ⟨rfl, rfl, ⟨s.conn.writeBuffer, rfl⟩⟩

theorem Frame.trans {s₁ s₂ s₃ : Session} (h₁ : Frame s₁ s₂) (h₂ : Frame s₂ s₃) :
    Frame s₁ s₃ := by
  obtain ⟨buf₁, hconn₁⟩ := h₁.conn
  obtain ⟨buf₂, hconn₂⟩ := h₂.conn
  refine ⟨h₂.reader.trans h₁.reader, h₂.closed.trans h₁.closed, ⟨buf₂, ?_⟩⟩
  rw [hconn₂, hconn₁]
  rfl

theorem WriterFrame.refl (s : Session) : WriterFrame s s :=
  ⟨Frame.refl s, rfl, rfl, rfl, rfl⟩

theorem writerFrame_waitWrite (s : Session) (f : WriteFrame) :
    WriterFrame s (s.waitWrite f) :=
  ⟨⟨rfl, rfl, s.conn.writeOnce_conn f.rest⟩, rfl, rfl, rfl, rfl⟩

theorem writerFrame_afterPop (again : Session → Session) (s : Session) :
    WriterFrame s (afterPop again s) := by
  cases hitems : s.queue.items with
  | nil =>
      rw [afterPop_nil again hitems]
      exact ⟨⟨rfl, rfl, ⟨s.conn.writeBuffer, rfl⟩⟩, rfl, rfl, rfl, rfl⟩
  | cons item rest =>
      rw [afterPop_cons again hitems]
      by_cases hitem : item = []
      · rw [hitem, beginWrite_nil]
        exact ⟨⟨rfl, rfl, ⟨s.conn.writeBuffer, rfl⟩⟩, rfl, rfl, rfl, rfl⟩
      · rw [beginWrite_cons _ hitem]
        exact ⟨⟨rfl, rfl, s.conn.writeOnce_conn item⟩, rfl, rfl, rfl, rfl⟩

theorem writerFrame_writeLoop (s : Session) : WriterFrame s s.writeLoop := by
  cases hready : s.queue.awaitReady with
  | true =>
      rw [writeLoop_ready hready]
      exact writerFrame_afterPop _ s
  | false =>
      rw [writeLoop_suspends hready]
      exact ⟨⟨rfl, rfl, ⟨s.conn.writeBuffer, rfl⟩⟩, rfl, rfl, rfl, rfl⟩

theorem writerFrame_resumeWaiter (s : Session) (h : Option Role) :
    WriterFrame s (s.resumeWaiter h) := by
  cases h with
  | none => exact WriterFrame.refl s
  | some role =>
      rw [resumeWaiter]
      split
      · have hframe := writerFrame_afterPop writeLoop { s with writer := .running }
        exact ⟨⟨hframe.reader, hframe.closed, hframe.conn⟩, hframe.handlers,
          hframe.nextHandler, hframe.delivered, hframe.pushed⟩
      · exact ⟨⟨rfl, rfl, ⟨s.conn.writeBuffer, rfl⟩⟩, rfl, rfl, rfl, rfl⟩

theorem frame_push (s : Session) (data : List UInt8) : Frame s (s.push data) := by
  refine Frame.trans ?_ (writerFrame_resumeWaiter _ _).toFrame
  exact ⟨rfl, by rw [ResponseQueue.push_fst], ⟨s.conn.writeBuffer, rfl⟩⟩

@[simp] theorem push_pushed (s : Session) (data : List UInt8) :
    (s.push data).pushed = s.pushed ++ [data] :=
  (writerFrame_resumeWaiter _ _).pushed

@[simp] theorem push_delivered (s : Session) (data : List UInt8) :
    (s.push data).delivered = s.delivered :=
  (writerFrame_resumeWaiter _ _).delivered

@[simp] theorem push_handlers (s : Session) (data : List UInt8) :
    (s.push data).handlers = s.handlers :=
  (writerFrame_resumeWaiter _ _).handlers

theorem frame_handleAll (flavor : Flavor) (codec : EchoCodec) (ms : List Message)
    (s : Session) : Frame s (handleAll (onMessage flavor codec) s ms) := by
  refine handleAll_induction (P := Frame s) ?_ ?_ ?_ ms s (Frame.refl s)
  · intro t m _ h
    exact ⟨h.reader, h.closed, h.conn⟩
  · intro _ t m r _ h
    have hpush := frame_push (t.note m) (codec.response r.1 r.2)
    exact h.trans ⟨hpush.reader, hpush.closed, hpush.conn⟩
  · intro _ t m r _ h
    exact ⟨h.reader, h.closed, h.conn⟩

variable {base base' : Ops} {s : Session}

theorem Ok.perm (h : Ok base s) (hperm : base.Perm base') : Ok base' s := by
  have hmem : ∀ op, op ∈ base ++ s.posts → op ∈ base' ++ s.posts := by
    intro op hop
    exact (hperm.append_right s.posts).mem_iff.mp hop
  refine { h with
    roles := ((hperm.append_right s.posts).map Prod.fst).symm.trans h.roles
    reading := ?_, writing := ?_, sleeping := ?_ }
  · intro hread
    obtain ⟨addr, len, hop, hlen⟩ := h.reading hread
    exact ⟨addr, len, hmem _ hop, hlen⟩
  · intro f hf
    obtain ⟨hframe, sqe, hop, hstaged⟩ := h.writing f hf
    exact ⟨hframe, sqe, hmem _ hop, hstaged⟩
  · intro op hop
    exact h.sleeping op ((hperm.append_right s.posts).mem_iff.mpr hop)

/-- A coroutine that starts to wait joins the others. -/
theorem perm_insert {posts : Ops} {left right : List Role} (role : Role) (sqe : Sqe)
    (h : ((base ++ posts).map Prod.fst).Perm (left ++ right)) :
    ((base ++ (posts ++ [(role, sqe)])).map Prod.fst).Perm
      (left ++ [role] ++ right) := by
  rw [← List.append_assoc, List.map_append, List.map_singleton]
  refine (List.perm_append_singleton _ _).trans ?_
  rw [List.append_assoc, List.singleton_append]
  exact (h.cons role).trans List.perm_middle.symm

theorem mem_ops_post {posts : Ops} {op op' : Role × Sqe} (h : op ∈ base ++ posts) :
    op ∈ base ++ (posts ++ [op']) := by
  rw [← List.append_assoc]
  exact List.mem_append_left _ h

/-! ### The write loop -/

/-- The write loop waits for an operation that sends the rest of its item. -/
theorem Ok.waitWrite (h : Ok base s) (hrun : s.writer = .running) {f : WriteFrame}
    (hf : f.Ok) {sent : List (List UInt8)} (hpopped : s.popped = sent ++ [f.data])
    (hwire : s.wire = sent.flatten ++ f.data.take f.ptr) :
    Ok base (s.waitWrite f) := by
  obtain ⟨hwriteOk, hstaged⟩ := CoroConnection.writeOnce_staged h.writeOk f.rest
  obtain ⟨buf, hconn⟩ := s.conn.writeOnce_conn f.rest
  have hwaiter := h.waiter
  rw [hrun] at hwaiter
  constructor
  · have hroles := h.roles
    simp only [waiting, hrun, WriterState.roles, List.append_nil] at hroles
    exact perm_insert .writer _ hroles
  · simpa [Session.waitWrite, post] using hwaiter
  · simp [Session.waitWrite, post]
  · exact h.open_of_read
  · exact h.closed_of_done
  · intro hread
    obtain ⟨addr, len, hop, hlen⟩ := h.reading hread
    simp only [Session.waitWrite, post, hconn]
    exact ⟨addr, len, mem_ops_post hop, hlen⟩
  · intro f' hf'
    simp only [Session.waitWrite, post, WriterState.onWrite.injEq] at hf'
    subst hf'
    exact ⟨hf, _, by simp [Session.waitWrite, post], hstaged⟩
  · intro op hop id hid
    simp only [Session.waitWrite, post, ← List.append_assoc, List.mem_append,
      List.mem_singleton] at hop
    rcases hop with hop | rfl
    · exact h.sleeping op (List.mem_append.mpr hop) id hid
    · cases hid
  · simp only [Session.waitWrite, post, hconn]
    exact ⟨h.readOk.valid, h.readOk.mode⟩
  · exact hwriteOk
  · exact h.history
  · exact h.nonempty
  · exact ⟨sent, hpopped, hwire⟩
  · exact h.ids_nodup
  · exact h.ids_lt
  · exact h.noFault

/-- The write loop ends. -/
theorem Ok.endWriter (h : Ok base s) (hrun : s.writer = .running)
    (hwire : s.wire <+: s.popped.flatten) : Ok base { s with writer := .done } := by
  have hwaiter := h.waiter
  rw [hrun] at hwaiter
  exact { h with
    roles := by simpa [waiting, hrun, WriterState.roles] using h.roles
    waiter := by simpa using hwaiter
    idle := by simp
    writing := by simp
    wireOk := hwire }

/-- The write loop takes the next item, or ends. -/
theorem Ok.afterPop (h : Ok base s) (hrun : s.writer = .running)
    (hwire : s.wire = s.popped.flatten) (again : Session → Session) :
    Ok base (afterPop again s) := by
  cases hitems : s.queue.items with
  | nil =>
      rw [afterPop_nil again hitems]
      exact h.endWriter hrun (by rw [hwire])
  | cons item rest =>
      have hitem : item ≠ [] := h.nonempty item (by rw [hitems]; exact List.mem_cons_self)
      have htaken : Ok base
          { s with queue := { s.queue with items := rest }, popped := s.popped ++ [item] } :=
        { h with
          idle := by simp [hrun]
          history := by simp [h.history, hitems]
          nonempty := fun x hx => h.nonempty x (by rw [hitems]; exact List.mem_cons_of_mem _ hx)
          wireOk := by simp [WireOk, hrun] }
      rw [afterPop_cons again hitems, beginWrite_cons _ hitem]
      exact htaken.waitWrite hrun (WriteFrame.ok_start hitem) rfl
        (by simp [hwire, WriteFrame.start])

/-- The head of the write loop. -/
theorem Ok.writeLoop (h : Ok base s) (hrun : s.writer = .running)
    (hwire : s.wire = s.popped.flatten) : Ok base s.writeLoop := by
  cases hready : s.queue.awaitReady with
  | true =>
      rw [writeLoop_ready hready]
      exact h.afterPop hrun hwire _
  | false =>
      rw [writeLoop_suspends hready]
      exact { h with
        roles := by simpa [waiting, hrun, WriterState.roles] using h.roles
        waiter := by simp [ResponseQueue.awaitSuspend]
        idle := fun _ => ResponseQueue.awaitReady_eq_false_iff.mp hready
        writing := by simp
        wireOk := hwire }

/-! ### Queue operations -/

/-- The write loop waits in `Pop` with nothing sent halfway. -/
theorem Ok.onPop (h : Ok base s) (hpop : s.writer = .onPop) :
    s.queue.waiter = some .writer ∧ s.queue.items = [] ∧ s.queue.closed = false ∧
      s.wire = s.popped.flatten ∧
      Ok base { s with writer := .running, queue := { s.queue with waiter := none } } := by
  have hwaiter := h.waiter
  have hwire := h.wireOk
  obtain ⟨hitems, hopen⟩ := h.idle hpop
  rw [hpop, if_pos rfl] at hwaiter
  rw [WireOk, hpop] at hwire
  refine ⟨hwaiter, hitems, hopen, hwire, ?_⟩
  exact { h with
    roles := by simpa [waiting, hpop, WriterState.roles] using h.roles
    waiter := rfl
    idle := by simp
    writing := by simp
    wireOk := trivial }

theorem Ok.waiter_none (h : Ok base s) (hpop : s.writer ≠ .onPop) :
    s.queue.waiter = none := by
  rw [h.waiter, if_neg hpop]

theorem Ok.push (h : Ok base s) {data : List UInt8} (hdata : data ≠ []) :
    Ok base (s.push data) := by
  by_cases hpop : s.writer = .onPop
  · obtain ⟨hwaiter, hitems, _, hwire, hrun⟩ := h.onPop hpop
    rw [push_waiting hwaiter hpop hitems hdata]
    have hpushed : Ok base
        { s with
          writer := .running
          queue := { s.queue with waiter := none }
          pushed := s.pushed ++ [data]
          popped := s.popped ++ [data] } :=
      { hrun with
        history := by simp [h.history, hitems]
        wireOk := trivial }
    exact hpushed.waitWrite rfl (WriteFrame.ok_start hdata) rfl
      (by simp [hwire, WriteFrame.start])
  · rw [push_busy (h.waiter_none hpop)]
    exact { h with
      idle := fun hpop' => absurd hpop' hpop
      history := by simp [h.history]
      nonempty := fun x hx => by
        rcases List.mem_append.mp hx with hin | hlast
        · exact h.nonempty x hin
        · exact List.mem_singleton.mp hlast ▸ hdata }

theorem Ok.push_writer (h : Ok base s) {data : List UInt8} (hdata : data ≠ []) :
    (s.push data).writer =
      if s.writer = .onPop then .onWrite (WriteFrame.start data) else s.writer := by
  by_cases hpop : s.writer = .onPop
  · obtain ⟨hwaiter, hitems, _, _, _⟩ := h.onPop hpop
    rw [if_pos hpop, push_waiting hwaiter hpop hitems hdata]
    rfl
  · rw [if_neg hpop, push_busy (h.waiter_none hpop)]

theorem Ok.close_writer (h : Ok base s) :
    s.close.writer = if s.writer = .onPop then .done else s.writer := by
  by_cases hpop : s.writer = .onPop
  · obtain ⟨hwaiter, hitems, _, _, _⟩ := h.onPop hpop
    rw [if_pos hpop, close_waiting hwaiter hpop hitems]
  · rw [if_neg hpop, close_busy (h.waiter_none hpop)]

theorem Ok.close (h : Ok base s) (hreader : s.reader = .running) : Ok base s.close := by
  by_cases hpop : s.writer = .onPop
  · obtain ⟨hwaiter, hitems, _, hwire, hrun⟩ := h.onPop hpop
    rw [close_waiting hwaiter hpop hitems]
    have hclosed : Ok base
        { s with
          writer := .running
          queue := { s.queue with waiter := none, closed := true } } :=
      { hrun with
        idle := by simp
        open_of_read := by simp [hreader]
        closed_of_done := by simp }
    exact hclosed.endWriter rfl (by rw [hwire])
  · rw [close_busy (h.waiter_none hpop)]
    exact { h with
      idle := fun hpop' => absurd hpop' hpop
      open_of_read := by simp [hreader]
      closed_of_done := by simp }

/-! ### Handlers and the reader -/

variable {flavor : Flavor} {codec : EchoCodec}

theorem Ok.note (h : Ok base s) (m : Message) : Ok base (s.note m) := { h with }

/-- A new handler waits for its own timer. -/
theorem Ok.sleep (h : Ok base s) (header : RpcHeader) (message : List UInt8) :
    Ok base (s.sleep header message) := by
  have hfresh : s.nextHandler ∉ s.handlers.map Handler.id := by
    intro hin
    obtain ⟨other, hother, heq⟩ := List.mem_map.mp hin
    exact absurd (h.ids_lt other hother) (by omega)
  exact { h with
    roles := by
      have hroles := h.roles
      rw [← List.append_nil s.waiting] at hroles
      have hnew := perm_insert (.handler s.nextHandler) (.timeout 0 10000000) hroles
      simpa [Session.sleep, post, waiting, List.append_assoc] using hnew
    reading := fun hread => by
      obtain ⟨addr, len, hop, hlen⟩ := h.reading hread
      exact ⟨addr, len, mem_ops_post hop, hlen⟩
    writing := fun f hf => by
      obtain ⟨hframe, sqe, hop, hstaged⟩ := h.writing f hf
      exact ⟨hframe, sqe, mem_ops_post hop, hstaged⟩
    sleeping := fun op hop id hid => by
      simp only [Session.sleep, post, ← List.append_assoc, List.mem_append,
        List.mem_singleton] at hop
      rcases hop with hop | rfl
      · exact h.sleeping op (List.mem_append.mpr hop) id hid
      · rfl
    ids_nodup := by
      simp only [Session.sleep, post, List.map_append, List.map_singleton]
      exact List.nodup_append_comm.mp (List.nodup_cons.mpr ⟨hfresh, h.ids_nodup⟩)
    ids_lt := fun other hother => by
      simp only [Session.sleep, post, List.mem_append, List.mem_singleton] at hother
      rcases hother with hin | rfl
      · exact Nat.lt_succ_of_lt (h.ids_lt other hin)
      · exact Nat.lt_succ_self _ }

theorem Ok.handleAll (h : Ok base s) (ms : List Message) :
    Ok base (CRpc.handleAll (Session.onMessage flavor codec) s ms) := by
  refine handleAll_induction ?_ ?_ ?_ ms s h
  · exact fun t m _ ht => ht.note m
  · exact fun _ t m r _ ht => (ht.note m).push (codec.response_ne_nil r.1 r.2)
  · exact fun _ t m r _ ht => (ht.note m).sleep r.1 r.2

/-- `Read` posts an operation of at most the writable bytes. -/
theorem Ok.startRead (h : Ok base s) (hreader : s.reader = .running)
    (hopen : s.queue.closed = false) : Ok base s.startRead := by
  exact { h with
    roles := by
      have hroles := h.roles
      simp only [waiting, hreader, ReaderState.roles, List.append_assoc] at hroles
      have hnew := perm_insert .reader s.conn.read.2 hroles
      simpa [Session.startRead, post, waiting, ReaderState.roles] using hnew
    open_of_read := fun _ => hopen
    closed_of_done := by simp [Session.startRead, post]
    reading := fun _ => by
      refine ⟨s.conn.read.1.readBuffer.writeIdx,
        toU32 s.conn.read.1.readBuffer.writableBytes, ?_, Nat.mod_le _ _⟩
      simp only [Session.startRead, post, List.mem_append, List.mem_singleton]
      exact Or.inr (Or.inr rfl)
    writing := fun f hf => by
      obtain ⟨hframe, sqe, hop, hstaged⟩ := h.writing f hf
      exact ⟨hframe, sqe, mem_ops_post hop, hstaged.of_readBuffer _⟩
    sleeping := fun op hop id hid => by
      simp only [Session.startRead, post, ← List.append_assoc, List.mem_append,
        List.mem_singleton] at hop
      rcases hop with hop | rfl
      · exact h.sleeping op (List.mem_append.mpr hop) id hid
      · cases hid
    readOk := h.readOk.read
    writeOk := h.writeOk }

/-! ### Resumption of a coroutine -/

theorem waiting_nodup (h : (s.handlers.map Handler.id).Nodup) : s.waiting.Nodup := by
  have hhandlers : (s.handlers.map fun h => Role.handler h.id).Nodup := by
    have hmap := h.map (f := Role.handler) fun a b hab => by cases hab; rfl
    rwa [List.map_map] at hmap
  have hnot : ∀ r, r ∈ s.reader.roles ++ s.writer.roles →
      r ∉ s.handlers.map fun h => Role.handler h.id := by
    intro r hr hin
    obtain ⟨hd, _, rfl⟩ := List.mem_map.mp hin
    cases hreader : s.reader <;> cases hwriter : s.writer <;>
      simp [hreader, hwriter, ReaderState.roles, WriterState.roles] at hr
  refine List.nodup_append'.mpr ⟨?_, hhandlers, fun r hr => hnot r hr⟩
  cases s.reader <;> cases s.writer <;> simp [ReaderState.roles, WriterState.roles]

theorem Ok.roles_nodup (h : Ok base s) : ((base ++ s.posts).map Prod.fst).Nodup :=
  h.roles.nodup_iff.mpr (waiting_nodup h.ids_nodup)

/-- A coroutine waits for at most one operation. -/
theorem Ok.op_unique (h : Ok base s) (role : Role) {sqe sqe' : Sqe}
    (h₁ : (role, sqe) ∈ base ++ s.posts) (h₂ : (role, sqe') ∈ base ++ s.posts) :
    sqe = sqe' :=
  congrArg Prod.snd (List.inj_on_of_nodup_map h.roles_nodup h₁ h₂ rfl)

theorem mem_of_role_ne {op op' : Role × Sqe} {posts : Ops}
    (h : op ∈ op' :: base ++ posts) (hne : op.1 ≠ op'.1) : op ∈ base ++ posts := by
  rcases List.mem_cons.mp h with rfl | hin
  · exact absurd rfl hne
  · exact hin

/-- The read of the reader completes. -/
theorem Ok.resumeReader {sqe : Sqe} (h : Ok ((.reader, sqe) :: base) s) :
    s.reader = .onRead ∧ s.queue.closed = false ∧
      postedRead sqe ≤ s.conn.readBuffer.writableBytes ∧
      Ok base { s with reader := .running } := by
  have hin : Role.reader ∈ s.waiting := h.roles.mem_iff.mp (by simp)
  have hreader : s.reader = .onRead := by
    cases hr : s.reader <;> cases hw : s.writer <;>
      simp [waiting, hr, hw, ReaderState.roles, WriterState.roles] at hin ⊢
  refine ⟨hreader, h.open_of_read hreader, ?_, ?_⟩
  · obtain ⟨addr, len, hop, hlen⟩ := h.reading hreader
    obtain rfl := h.op_unique .reader List.mem_cons_self hop
    exact hlen
  · exact { h with
      roles := by
        have hroles := h.roles
        simp only [waiting, hreader, ReaderState.roles, List.cons_append, List.map_cons,
          List.nil_append] at hroles
        simpa [waiting, ReaderState.roles] using hroles.cons_inv
      open_of_read := by simp
      closed_of_done := by simp
      reading := by simp
      writing := fun f hf => by
        obtain ⟨hframe, sqe', hop, hstaged⟩ := h.writing f hf
        exact ⟨hframe, sqe', mem_of_role_ne hop (by simp), hstaged⟩
      sleeping := fun op hop => h.sleeping op (List.mem_cons_of_mem _ hop) }

/-- The write of the write loop completes. -/
theorem Ok.resumeWriter {sqe : Sqe} (h : Ok ((.writer, sqe) :: base) s) :
    ∃ f, s.writer = .onWrite f ∧ f.Ok ∧ s.conn.Staged sqe f.rest ∧
      (∃ sent, s.popped = sent ++ [f.data] ∧
        s.wire = sent.flatten ++ f.data.take f.ptr) ∧
      Ok base { s with writer := .running } := by
  have hin : Role.writer ∈ s.waiting := h.roles.mem_iff.mp (by simp)
  obtain ⟨f, hwriter⟩ : ∃ f, s.writer = .onWrite f := by
    cases hr : s.reader <;> cases hw : s.writer <;>
      simp [waiting, hr, hw, ReaderState.roles, WriterState.roles] at hin ⊢
  obtain ⟨hframe, sqe', hop, hstaged⟩ := h.writing f hwriter
  obtain rfl : sqe = sqe' := h.op_unique .writer List.mem_cons_self hop
  have hwaiter := h.waiter
  rw [hwriter] at hwaiter
  have hwire := h.wireOk
  rw [WireOk, hwriter] at hwire
  refine ⟨f, hwriter, hframe, hstaged, hwire, ?_⟩
  exact { h with
    roles := by
      have hroles := h.roles
      simp only [waiting, hwriter, WriterState.roles, List.cons_append, List.map_cons,
        List.append_assoc] at hroles
      have hfront := hroles.trans List.perm_middle
      simpa [waiting, WriterState.roles] using hfront.cons_inv
    waiter := by simpa using hwaiter
    idle := by simp
    reading := fun hread => by
      obtain ⟨addr, len, hop', hlen⟩ := h.reading hread
      exact ⟨addr, len, mem_of_role_ne hop' (by simp), hlen⟩
    writing := by simp
    sleeping := fun op hop' => h.sleeping op (List.mem_cons_of_mem _ hop')
    wireOk := trivial }

/-- The first match of a search can be taken to the front. -/
theorem perm_find_eraseP {α : Type} {p : α → Bool} {l : List α} {a : α}
    (h : l.find? p = some a) : l.Perm (a :: l.eraseP p) := by
  obtain ⟨hp, before, after, rfl, hnot⟩ := List.find?_eq_some_iff_append.mp h
  have herase : (before ++ a :: after).eraseP p = before ++ after := by
    rw [List.eraseP_append_right _ (fun b hb => by simpa using hnot b hb),
      List.eraseP_cons_of_pos hp]
  rw [herase]
  exact List.perm_middle

/-- The timer of a handler completes. -/
theorem Ok.resumeHandler {sqe : Sqe} {id : Nat} (h : Ok ((.handler id, sqe) :: base) s) :
    ∃ hd, s.handlers.find? (fun hd => hd.id = id) = some hd ∧
      Ok base { s with handlers := s.handlers.eraseP (fun hd => hd.id = id) } := by
  have hin : Role.handler id ∈ s.waiting := h.roles.mem_iff.mp (by simp)
  have hid : ∃ hd, hd ∈ s.handlers ∧ hd.id = id := by
    cases hr : s.reader <;> cases hw : s.writer <;>
      simpa [waiting, hr, hw, ReaderState.roles, WriterState.roles] using hin
  obtain ⟨hd, hfind⟩ : ∃ hd, s.handlers.find? (fun hd => hd.id = id) = some hd := by
    obtain ⟨hd, hmem, heq⟩ := hid
    refine Option.isSome_iff_exists.mp (List.find?_isSome.mpr ⟨hd, hmem, by simpa using heq⟩)
  have hdid : hd.id = id := by simpa using List.find?_some hfind
  have hperm := perm_find_eraseP hfind
  refine ⟨hd, hfind, ?_⟩
  exact { h with
    roles := by
      have hroles := h.roles.trans
        ((hperm.map fun hd => Role.handler hd.id).append_left
          (s.reader.roles ++ s.writer.roles))
      rw [List.map_cons, hdid] at hroles
      have hfront := hroles.trans List.perm_middle
      exact hfront.cons_inv
    reading := fun hread => by
      obtain ⟨addr, len, hop, hlen⟩ := h.reading hread
      exact ⟨addr, len, mem_of_role_ne hop (by simp), hlen⟩
    writing := fun f hf => by
      obtain ⟨hframe, sqe', hop, hstaged⟩ := h.writing f hf
      exact ⟨hframe, sqe', mem_of_role_ne hop (by simp), hstaged⟩
    sleeping := fun op hop => h.sleeping op (List.mem_cons_of_mem _ hop)
    ids_nodup := by
      have hnodup := (hperm.map Handler.id).nodup_iff.mp h.ids_nodup
      exact (List.nodup_cons.mp hnodup).2
    ids_lt := fun other hother => h.ids_lt other (List.mem_of_mem_eraseP hother) }

/-! ### The resumptions of the event loop -/

/-- The read loop ends. -/
theorem Ok.endRead {sqe : Sqe} (h : Ok ((.reader, sqe) :: base) s) : Ok base s.endRead := by
  obtain ⟨_, _, _, hrun⟩ := h.resumeReader
  have hclosed := hrun.close rfl
  have hframe := writerFrame_resumeWaiter
    ({ s with reader := .running, queue := s.queue.close.1 } : Session) s.queue.close.2
  have hq : ({ s with reader := .running } : Session).close.queue.closed = true := by
    rw [Session.close, hframe.closed, ResponseQueue.close_fst]
  have hreader : ({ s with reader := .running } : Session).close.reader = .running :=
    hframe.reader
  exact { hclosed with
    roles := by
      have hroles := hclosed.roles
      simp only [waiting, hreader, ReaderState.roles] at hroles
      exact hroles
    open_of_read := by simp [Session.endRead]
    closed_of_done := fun _ => hq
    reading := by simp [Session.endRead] }

theorem Ok.received {sqe : Sqe} (h : Ok ((.reader, sqe) :: base) s) {bytes : List UInt8}
    (hbytes : bytes.length ≤ postedRead sqe) : Ok base (s.received bytes) := by
  obtain ⟨_, _, hposted, hrun⟩ := h.resumeReader
  exact { hrun with
    reading := by simp [Session.received]
    writing := fun f hf => by
      obtain ⟨hf', sqe', hop, hstaged⟩ := hrun.writing f hf
      exact ⟨hf', sqe', hop, hstaged.of_readBuffer _⟩
    readOk := ⟨Buffer.valid_append h.readOk.valid bytes (hbytes.trans hposted),
      h.readOk.mode⟩
    writeOk := h.writeOk }

/-- The handler goes back to `Read`. -/
theorem Ok.readAgain (h : Ok base s) (hreader : s.reader = .running)
    (hopen : s.queue.closed = false) {buf : Buffer} (hv : buf.Valid)
    (hmode : buf.isFixed = s.conn.readBufIdx.isSome) : Ok base (s.readAgain buf) := by
  have hstored : Ok base { s with conn := { s.conn with readBuffer := buf } } :=
    { h with
      reading := by simp [hreader]
      writing := fun f hf => by
        obtain ⟨hf', sqe, hop, hstaged⟩ := h.writing f hf
        exact ⟨hf', sqe, hop, hstaged.of_readBuffer _⟩
      readOk := ⟨hv, hmode⟩
      writeOk := h.writeOk }
  exact hstored.startRead hreader hopen

/-- `handleConnection` after a completed read. -/
theorem Ok.readDone {sqe : Sqe} (h : Ok ((.reader, sqe) :: base) s) (res : Int)
    {bytes : List UInt8} (hbytes : bytes.length ≤ postedRead sqe) :
    Ok base (readDone flavor codec s res bytes) := by
  rcases le_or_gt res 0 with hend | hdata
  · rw [Session.readDone, if_pos hend]
    exact h.endRead
  · obtain ⟨_, hopen, hposted, _⟩ := h.resumeReader
    obtain ⟨buf, hv, hfixed, _, heq⟩ := readDone_data flavor codec hdata h.readOk.valid
      (hbytes.trans hposted)
    have hframe := frame_handleAll flavor codec
      (frames.drain (s.conn.readBuffer.getSpan ++ bytes)).1 (s.received bytes)
    obtain ⟨wbuf, hconn⟩ := hframe.conn
    rw [heq]
    refine ((h.received hbytes).handleAll _).readAgain hframe.reader
      (hframe.closed.trans hopen) hv ?_
    rw [hfixed, h.readOk.mode, hconn]
    rfl

/-- The bytes the socket took extend the wire within the item being sent. -/
theorem Ok.sent {sqe : Sqe} (h : Ok ((.writer, sqe) :: base) s) {w : Int}
    (hw : w ≤ postedWrite sqe) :
    ∃ f, s.writer = .onWrite f ∧ f.Ok ∧ Ok base (s.sent sqe w) ∧
      ∃ before, s.popped = before ++ [f.data] ∧
        (s.sent sqe w).wire = before.flatten ++ f.data.take (f.ptr + w.toNat) := by
  obtain ⟨f, hwriter, hf, hstaged, ⟨before, hpopped, hwire⟩, hrun⟩ := h.resumeWriter
  have haccepted := hstaged.accepted_eq w (by omega)
  refine ⟨f, hwriter, hf, { hrun with wireOk := trivial }, before, hpopped, ?_⟩
  simp only [Session.sent]
  rw [haccepted, hwire, WriteFrame.rest, List.append_assoc, List.take_add]

/-- `writeLoop` after a completed write. -/
theorem Ok.writeDone {sqe : Sqe} (h : Ok ((.writer, sqe) :: base) s) {w : Int}
    (hw : w ≤ postedWrite sqe) : Ok base ((s.kernelWrites sqe w).writeDone w) := by
  obtain ⟨f, hwriter, hf, hsent, before, hpopped, hwire⟩ := h.sent hw
  have hall : (s.sent sqe w).popped.flatten = before.flatten ++ f.data := by
    change s.popped.flatten = _
    rw [hpopped, List.flatten_append, List.flatten_singleton]
  have hdone : (s.sent sqe w).wire <+: (s.sent sqe w).popped.flatten := by
    rw [hall, hwire]
    exact (List.prefix_append_right_inj _).mpr (List.take_prefix _ _)
  rcases le_or_gt w 0 with hneg | hpos
  · rw [writeDone_failed sqe hwriter hneg]
    exact hsent.endWriter rfl hdone
  · rcases le_or_gt f.remaining w.toNat with hlast | hmore
    · rw [writeDone_last sqe hwriter hpos hlast]
      split
      · exact hsent.endWriter rfl hdone
      · -- the whole item is on the wire
        have hlen := hf.length_eq
        refine hsent.writeLoop rfl ?_
        rw [hall, hwire, List.take_of_length_le (by omega)]
    · rw [writeDone_more sqe hwriter hf hpos hmore]
      exact hsent.waitWrite rfl (hf.advance hmore) hpopped hwire

/-- A handler after its sleep. -/
theorem Ok.timerDone {sqe : Sqe} {id : Nat} (h : Ok ((.handler id, sqe) :: base) s) :
    Ok base (timerDone codec s id) := by
  obtain ⟨hd, hfind, hok⟩ := h.resumeHandler
  rw [Session.timerDone, hfind]
  exact hok.push (codec.response_ne_nil hd.header hd.message)

theorem ok_start {c : CoroConnection} (hread : c.ReadOk) (hwrite : c.WriteOk) :
    Ok [] (start c) := by
  have hnew : Ok []
      { conn := c, queue := .empty, reader := .running, writer := .running
        handlers := [], nextHandler := 0, posts := [], fault := false
        delivered := [], pushed := [], popped := [], wire := [] } :=
    { roles := by simp [waiting, ReaderState.roles, WriterState.roles]
      waiter := rfl
      idle := by simp
      open_of_read := by simp
      closed_of_done := by simp
      reading := by simp
      writing := by simp
      sleeping := by simp
      readOk := hread
      writeOk := hwrite
      history := rfl
      nonempty := by simp [ResponseQueue.empty]
      wireOk := trivial
      ids_nodup := by simp
      ids_lt := by simp
      noFault := rfl }
  have hloop := hnew.writeLoop rfl rfl
  rw [writeLoop_suspends rfl] at hloop
  rw [start_eq]
  exact hloop.startRead rfl rfl

/-- The completion of a write concerns the write loop only. -/
theorem Ok.writerFrame_writeDone {sqe : Sqe} (h : Ok ((.writer, sqe) :: base) s) {w : Int}
    (hw : w ≤ postedWrite sqe) :
    WriterFrame s ((s.kernelWrites sqe w).writeDone w) := by
  obtain ⟨f, hwriter, hf, _⟩ := h.sent hw
  have hdone : WriterFrame s { s.sent sqe w with writer := .done } :=
    ⟨⟨rfl, rfl, ⟨s.conn.writeBuffer, rfl⟩⟩, rfl, rfl, rfl, rfl⟩
  rcases le_or_gt w 0 with hneg | hpos
  · rw [writeDone_failed sqe hwriter hneg]
    exact hdone
  · rcases le_or_gt f.remaining w.toNat with hlast | hmore
    · rw [writeDone_last sqe hwriter hpos hlast]
      split
      · exact hdone
      · have hloop := writerFrame_writeLoop (s.sent sqe w)
        exact ⟨⟨hloop.reader, hloop.closed, hloop.conn⟩, hloop.handlers,
          hloop.nextHandler, hloop.delivered, hloop.pushed⟩
    · rw [writeDone_more sqe hwriter hf hpos hmore]
      have hwait := writerFrame_waitWrite (s.sent sqe w) (f.advance w.toNat)
      exact ⟨⟨hwait.reader, hwait.closed, hwait.conn⟩, hwait.handlers,
        hwait.nextHandler, hwait.delivered, hwait.pushed⟩

/-! ### Control is back in the event loop -/

/-- Both loops of the connection are suspended or have ended. -/
structure Rested (s : Session) : Prop where
  reader : s.reader ≠ .running
  writer : s.writer ≠ .running

/-- A push never moves the write loop to a state other than sending. -/
theorem Ok.push_writer_ne (h : Ok base s) {st : WriterState} (hst : ∀ f, st ≠ .onWrite f)
    (hw : s.writer ≠ st) {data : List UInt8} (hdata : data ≠ []) :
    (s.push data).writer ≠ st := by
  rw [h.push_writer hdata]
  split
  · exact (hst _).symm
  · exact hw

theorem Ok.handleAll_writer_ne (h : Ok base s) {st : WriterState}
    (hst : ∀ f, st ≠ .onWrite f) (hw : s.writer ≠ st) (ms : List Message) :
    (CRpc.handleAll (Session.onMessage flavor codec) s ms).writer ≠ st := by
  refine (handleAll_induction (P := fun t => Ok base t ∧ t.writer ≠ st)
    ?_ ?_ ?_ ms s ⟨h, hw⟩).2
  · exact fun t m _ ht => ⟨ht.1.note m, ht.2⟩
  · intro _ t m r _ ht
    have hdata := codec.response_ne_nil r.1 r.2
    exact ⟨(ht.1.note m).push hdata, (ht.1.note m).push_writer_ne hst ht.2 hdata⟩
  · exact fun _ t m r _ ht => ⟨(ht.1.note m).sleep r.1 r.2, ht.2⟩

/-- A completed read ends the read loop, or handles one burst and reads again. -/
theorem Ok.readDone_cases (flavor : Flavor) (codec : EchoCodec) {sqe : Sqe}
    (h : Ok ((.reader, sqe) :: base) s) (res : Int) {bytes : List UInt8}
    (hbytes : bytes.length ≤ postedRead sqe) :
    (res ≤ 0 ∧ Session.readDone flavor codec s res bytes = s.endRead) ∨
      (0 < res ∧ ∃ buf, Session.readDone flavor codec s res bytes =
        (CRpc.handleAll (Session.onMessage flavor codec) (s.received bytes)
          (frames.drain (s.conn.readBuffer.getSpan ++ bytes)).1).readAgain buf) := by
  obtain ⟨_, _, hposted, _⟩ := h.resumeReader
  rcases le_or_gt res 0 with hend | hdata
  · exact Or.inl ⟨hend, if_pos hend⟩
  · obtain ⟨buf, _, _, _, heq⟩ := readDone_data flavor codec hdata h.readOk.valid
      (hbytes.trans hposted)
    exact Or.inr ⟨hdata, buf, heq⟩

theorem Ok.readDone_rests {sqe : Sqe} (h : Ok ((.reader, sqe) :: base) s)
    (hw : s.writer ≠ .running) (res : Int) {bytes : List UInt8}
    (hbytes : bytes.length ≤ postedRead sqe) :
    (Session.readDone flavor codec s res bytes).Rested := by
  rcases h.readDone_cases flavor codec res hbytes with ⟨_, heq⟩ | ⟨_, buf, heq⟩
  · rw [heq]
    refine ⟨by simp [Session.endRead], ?_⟩
    simp only [Session.endRead]
    rw [h.resumeReader.2.2.2.close_writer]
    split
    · simp
    · exact hw
  · rw [heq]
    refine ⟨by simp [Session.readAgain, Session.startRead, post], ?_⟩
    rw [readAgain_writer]
    exact (h.received hbytes).handleAll_writer_ne (by simp) hw _

theorem writeLoop_rests (s : Session) (hnonempty : ∀ x, x ∈ s.queue.items → x ≠ []) :
    s.writeLoop.writer ≠ .running := by
  cases hready : s.queue.awaitReady with
  | false =>
      rw [writeLoop_suspends hready]
      simp
  | true =>
      cases hitems : s.queue.items with
      | nil =>
          rw [writeLoop_ready hready, afterPop_nil _ hitems]
          simp
      | cons item rest =>
          rw [writeLoop_cons hitems
            (hnonempty item (by rw [hitems]; exact List.mem_cons_self))]
          simp [Session.waitWrite, post]

theorem Ok.writeDone_rests {sqe : Sqe} (h : Ok ((.writer, sqe) :: base) s) {w : Int}
    (hw : w ≤ postedWrite sqe) : ((s.kernelWrites sqe w).writeDone w).writer ≠ .running := by
  obtain ⟨f, hwriter, hf, hsent, _⟩ := h.sent hw
  rcases le_or_gt w 0 with hneg | hpos
  · rw [writeDone_failed sqe hwriter hneg]
    simp
  · rcases le_or_gt f.remaining w.toNat with hlast | hmore
    · rw [writeDone_last sqe hwriter hpos hlast]
      split
      · simp
      · exact writeLoop_rests _ hsent.nonempty
    · rw [writeDone_more sqe hwriter hf hpos hmore]
      simp [Session.waitWrite, post]

theorem Ok.timerDone_rests {sqe : Sqe} {id : Nat}
    (h : Ok ((.handler id, sqe) :: base) s) (hrested : s.Rested) :
    (Session.timerDone codec s id).Rested := by
  obtain ⟨hd, hfind, hok⟩ := h.resumeHandler
  have hframe := frame_push { s with handlers := s.handlers.eraseP (fun hd => hd.id = id) }
    (codec.response hd.header hd.message)
  rw [Session.timerDone, hfind]
  refine ⟨?_, hok.push_writer_ne (by simp) hrested.writer
    (codec.response_ne_nil hd.header hd.message)⟩
  simp only [hframe.reader]
  exact hrested.reader

end Session

end CRpc
