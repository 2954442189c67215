import CRpc.SessionRun

/-!
# Writes are never interleaved

In every run of either echo server, with any results of its operations, a
connection has at most one write in flight, nothing touches the staged bytes of
that write, and the bytes on the wire are a prefix of the pushed items in the
order of their `Push` calls.
-/

namespace CRpc

open Lib Protocol

/-- The operation is a write. -/
def Sqe.isWrite : Sqe → Bool
  | .write _ _ _ _ => true
  | _ => false

/-- The bytes a posted write takes from the connection's staging buffer. -/
def CoroConnection.staged (c : CoroConnection) : Sqe → List UInt8
  | .write _ _ addr len => slice c.writeBuffer.data addr len
  | _ => []

namespace Session

variable {base : Ops} {s : Session} {flavor : Flavor} {codec : EchoCodec}

/-- The write loop waits for a write whose bytes are staged in `buf`. -/
structure Sending (f : WriteFrame) (buf : Buffer) (s : Session) : Prop where
  writer : s.writer = .onWrite f
  waiter : s.queue.waiter = none
  buffer : s.conn.writeBuffer = buf

variable {f : WriteFrame} {buf : Buffer}

theorem Sending.push (h : Sending f buf s) (data : List UInt8) :
    Sending f buf (s.push data) := by
  rw [push_busy h.waiter]
  exact ⟨h.writer, h.waiter, h.buffer⟩

theorem Sending.close (h : Sending f buf s) : Sending f buf s.close := by
  rw [close_busy h.waiter]
  exact ⟨h.writer, h.waiter, h.buffer⟩

theorem Sending.handleAll (flavor : Flavor) (codec : EchoCodec) (h : Sending f buf s)
    (ms : List Message) :
    Sending f buf (CRpc.handleAll (onMessage flavor codec) s ms) := by
  refine handleAll_induction ?_ ?_ ?_ ms s h
  · exact fun t m _ ht => ⟨ht.writer, ht.waiter, ht.buffer⟩
  · intro _ t m r _ ht
    have hnoted : Sending f buf (t.note m) := ⟨ht.writer, ht.waiter, ht.buffer⟩
    exact hnoted.push _
  · exact fun _ t m r _ ht => ⟨ht.writer, ht.waiter, ht.buffer⟩

theorem Sending.readDone (flavor : Flavor) (codec : EchoCodec) (h : Sending f buf s)
    {sqe : Sqe}
    (hok : Ok ((.reader, sqe) :: base) s) (res : Int) {bytes : List UInt8}
    (hbytes : bytes.length ≤ postedRead sqe) :
    Sending f buf (readDone flavor codec s res bytes) := by
  rcases hok.readDone_cases flavor codec res hbytes with ⟨_, heq⟩ | ⟨_, rbuf, heq⟩
  · have hrun : Sending f buf { s with reader := .running } :=
      ⟨h.writer, h.waiter, h.buffer⟩
    have hclosed := hrun.close
    rw [heq]
    exact ⟨hclosed.writer, hclosed.waiter, hclosed.buffer⟩
  · have hrun : Sending f buf (s.received bytes) := ⟨h.writer, h.waiter, h.buffer⟩
    have hall := hrun.handleAll flavor codec
      (frames.drain (s.conn.readBuffer.getSpan ++ bytes)).1
    rw [heq]
    exact ⟨(readAgain_writer _ rbuf).trans hall.writer, by rw [readAgain_queue, hall.waiter],
      (readAgain_writeBuffer _ rbuf).trans hall.buffer⟩

theorem Sending.timerDone (codec : EchoCodec) (h : Sending f buf s) (id : Nat) :
    Sending f buf (timerDone codec s id) := by
  rw [Session.timerDone]
  split
  next hd _ =>
    exact (⟨h.writer, h.waiter, h.buffer⟩ :
      Sending f buf { s with handlers := s.handlers.eraseP _ }).push _
  next => exact ⟨h.writer, h.waiter, h.buffer⟩

/-- A write in flight is the one the write loop waits for. -/
theorem Ok.onWrite_of_mem (h : Ok base s) {op : Role × Sqe} (hop : op ∈ base ++ s.posts)
    (hrole : op.1 = .writer) : ∃ f, s.writer = .onWrite f := by
  have hin : Role.writer ∈ s.waiting :=
    h.roles.mem_iff.mp (hrole ▸ List.mem_map_of_mem (f := Prod.fst) hop)
  cases hr : s.reader <;> cases hw : s.writer <;>
    simp [waiting, hr, hw, ReaderState.roles, WriterState.roles] at hin ⊢

theorem Ok.onRead_of_mem (h : Ok base s) {op : Role × Sqe} (hop : op ∈ base ++ s.posts)
    (hrole : op.1 = .reader) : s.reader = .onRead := by
  have hin : Role.reader ∈ s.waiting :=
    h.roles.mem_iff.mp (hrole ▸ List.mem_map_of_mem (f := Prod.fst) hop)
  cases hr : s.reader <;> cases hw : s.writer <;>
    simp [waiting, hr, hw, ReaderState.roles, WriterState.roles] at hin ⊢

/-- Only the write loop posts writes. -/
theorem Ok.writer_of_isWrite (h : Ok base s) {op : Role × Sqe}
    (hop : op ∈ base ++ s.posts) (hwrite : op.2.isWrite = true) : op.1 = .writer := by
  obtain ⟨role, sqe⟩ := op
  cases role with
  | writer => rfl
  | reader =>
      obtain ⟨addr, len, hread, _⟩ := h.reading (h.onRead_of_mem hop rfl)
      obtain rfl := h.op_unique .reader hop hread
      cases hwrite
  | handler id =>
      have htimeout : sqe = .timeout 0 10000000 := h.sleeping _ hop id rfl
      subst htimeout
      cases hwrite

end Session

namespace Live

variable {flavor : Flavor} {codec : EchoCodec}

/-- At most one write is in flight. -/
theorem Ok.one_write {t : Live} (h : t.Ok) :
    (t.flight.filter (fun op => op.2.isWrite)).length ≤ 1 := by
  have hops : t.flight ++ t.session.posts = t.flight := by
    rw [h.posts, List.append_nil]
  have hwriter : ∀ op, op ∈ t.flight.filter (fun op => op.2.isWrite) →
      op.1 = Role.writer := by
    intro op hop
    obtain ⟨hin, hwrite⟩ := List.mem_filter.mp hop
    exact h.session.writer_of_isWrite (hops.symm ▸ hin) hwrite
  have hnodup : ((t.flight.filter (fun op => op.2.isWrite)).map Prod.fst).Nodup := by
    have hall := h.session.roles_nodup
    rw [hops] at hall
    exact hall.sublist (List.filter_sublist.map Prod.fst)
  have hsame : (t.flight.filter (fun op => op.2.isWrite)).map Prod.fst =
      List.replicate (t.flight.filter (fun op => op.2.isWrite)).length Role.writer := by
    rw [List.eq_replicate_iff]
    refine ⟨List.length_map _, ?_⟩
    intro role hrole
    obtain ⟨op, hop, rfl⟩ := List.mem_map.mp hrole
    exact hwriter op hop
  rw [hsame, List.nodup_replicate] at hnodup
  exact hnodup

/-- The bytes on the wire come from the pushed items, in order. -/
theorem Ok.wire_prefix_pushed {t : Live} (h : t.Ok) :
    t.session.wire <+: t.session.pushed.flatten := by
  have hpopped : t.session.popped.flatten <+: t.session.pushed.flatten := by
    rw [h.session.history, List.flatten_append]
    exact List.prefix_append _ _
  refine List.IsPrefix.trans ?_ hpopped
  have hwire := h.session.wireOk
  rw [Session.WireOk] at hwire
  split at hwire
  next f _ =>
    obtain ⟨sent, hpop, hw⟩ := hwire
    rw [hpop, hw, List.flatten_append, List.flatten_singleton]
    exact (List.prefix_append_right_inj _).mpr (List.take_prefix _ _)
  next => rw [hwire]
  next => exact hwire
  next hrun => exact absurd hrun h.rested.writer

/-- Only its own completion ends a write or changes its staged bytes. -/
theorem Ok.staged_unchanged {t t' : Live} {e : Event} (h : t.Ok)
    (hstep : (machine flavor codec).step t e = some t') (hother : ∀ w, e ≠ .write w)
    {op : Role × Sqe} (hop : op ∈ t.flight) (hwrite : op.2.isWrite = true) :
    op ∈ t'.flight ∧ t'.session.conn.staged op.2 = t.session.conn.staged op.2 := by
  have hin : op ∈ t.flight ++ t.session.posts := List.mem_append_left _ hop
  have hrole := h.session.writer_of_isWrite hin hwrite
  obtain ⟨f, hwriter⟩ := h.session.onWrite_of_mem hin hrole
  have hsending : Session.Sending f t.session.conn.writeBuffer t.session :=
    ⟨hwriter, h.session.waiter_none (by simp [hwriter]), rfl⟩
  have hkept : ∀ role, role ≠ Role.writer → op ∈ t.without role := by
    intro role hne
    refine (List.mem_eraseP_of_neg ?_).mpr hop
    simp only [hrole, decide_eq_true_eq]
    exact Ne.symm hne
  have hsame : ∀ c : CoroConnection, c.writeBuffer = t.session.conn.writeBuffer →
      c.staged op.2 = t.session.conn.staged op.2 := by
    intro c hc
    cases op.2 <;> simp [CoroConnection.staged, hc]
  rcases step_cases hstep with
    ⟨res, bytes, sqe, rfl, hsqe, hres, rfl⟩ | ⟨w, sqe, rfl, _⟩ | ⟨id, sqe, rfl, hsqe, rfl⟩
  · have hdone := hsending.readDone flavor codec (h.take hsqe) res hres.2
    exact ⟨List.mem_append_left _ (hkept _ (by simp)), hsame _ hdone.buffer⟩
  · exact absurd rfl (hother w)
  · have hdone := hsending.timerDone codec id
    exact ⟨List.mem_append_left _ (hkept _ (by simp)), hsame _ hdone.buffer⟩

/--
Writes are never interleaved: at most one is in flight, its staged bytes stay as
they are until it completes, and the wire is a prefix of the pushed items.
-/
theorem writes_never_interleaved {c : CoroConnection} (hread : c.FreshRead)
    (hwrite : c.WriteOk) {es : List Event} {t : Live}
    (hrun : (machine flavor codec).exec (init c) es = some t) :
    (t.flight.filter (fun op => op.2.isWrite)).length ≤ 1 ∧
      t.session.wire <+: t.session.pushed.flatten ∧
      ∀ e t', (machine flavor codec).step t e = some t' → (∀ w, e ≠ .write w) →
        ∀ op, op ∈ t.flight → op.2.isWrite = true →
          op ∈ t'.flight ∧
            t'.session.conn.staged op.2 = t.session.conn.staged op.2 := by
  have hok := ok_exec hread hwrite hrun
  refine ⟨hok.one_write, hok.wire_prefix_pushed, ?_⟩
  intro e t' hstep hother op hop hw
  exact hok.staged_unchanged hstep hother hop hw

/-- A response that takes two operations: the second is in flight. -/
theorem writes_never_interleaved_partial :
    ∃ t,
      (machine .sync protoCodec).exec (init smallConn)
        [.read 12 emptyRequest, .write 10] = some t ∧
      (t.flight.filter (fun op => op.2.isWrite)).length ≤ 1 ∧
      t.session.wire <+: t.session.pushed.flatten := by
  obtain ⟨t, ht⟩ : ∃ t, (machine .sync protoCodec).exec (init smallConn)
      [.read 12 emptyRequest, .write 10] = some t :=
    Option.isSome_iff_exists.mp (by decide)
  have hmain := writes_never_interleaved smallConn_freshRead smallConn_writeOk ht
  exact ⟨t, ht, hmain.1, hmain.2.1⟩

end Live

end CRpc
