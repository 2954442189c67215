import CRpc.Lib.Endpoint
import CRpc.Lib.Machine
import CRpc.ResponseReader
import CRpc.SessionProgress

/-!
# A client and its connection in the server

A client, its connection in one of the echo servers, and the two byte streams
between them.  TCP delivers the bytes of each stream in order and may cut them
anywhere: a completed read takes any number of the bytes in transit that the posted
length allows, and so does `recv`.  Every call and every operation may also fail,
at any time.

The client is any `Endpoint`, so that the results here serve all clients.

* `linked_exec`: the server's part of a run is a run of the connection, which has
  read what the client has sent, up to the bytes in transit; and the client has
  received what the connection has written, up to the bytes in transit.
* `Live.Ok.wire_write`, `Live.Ok.unsent_lt`: what a completed write does to the
  stream and to the bytes that are still to be written.
-/

namespace CRpc

open Lib Protocol CoroConnection

universe u v

/-! ### What a completion puts on the wire -/

namespace Session

variable {flavor : Flavor} {codec : EchoCodec}

theorem afterPop_wire (again : Session → Session) (s : Session) :
    (afterPop again s).wire = s.wire := by
  cases hitems : s.queue.items with
  | nil => rw [afterPop_nil again hitems]
  | cons item rest =>
      rw [afterPop_cons again hitems]
      by_cases hitem : item = []
      · rw [hitem, beginWrite_nil]
      · rw [beginWrite_cons _ hitem]
        rfl

theorem writeLoop_wire (s : Session) : s.writeLoop.wire = s.wire := by
  cases hready : s.queue.awaitReady with
  | true => rw [writeLoop_ready hready, afterPop_wire]
  | false => rw [writeLoop_suspends hready]

theorem resumeWaiter_wire (s : Session) (h : Option Role) : (s.resumeWaiter h).wire = s.wire := by
  cases h with
  | none => rfl
  | some role =>
      rw [resumeWaiter]
      split
      · rw [afterPop_wire]
      · rfl

theorem push_wire (s : Session) (data : List UInt8) : (s.push data).wire = s.wire :=
  resumeWaiter_wire _ _

theorem handleAll_wire (flavor : Flavor) (codec : EchoCodec) (ms : List Message) (s : Session) :
    (handleAll (onMessage flavor codec) s ms).wire = s.wire := by
  refine handleAll_induction (P := fun t => t.wire = s.wire) ?_ ?_ ?_ ms s rfl
  · exact fun t m _ ht => ht
  · exact fun _ t m r _ ht => (push_wire _ _).trans ht
  · exact fun _ t m r _ ht => ht

end Session

namespace Live

variable {flavor : Flavor} {codec : EchoCodec} {t t' : Live}

theorem Ok.wire_read (hok : t.Ok) {res : Int} {bytes : List UInt8}
    (hstep : (machine flavor codec).step t (.read res bytes) = some t') :
    t'.session.wire = t.session.wire := by
  rcases step_cases hstep with ⟨_, _, sqe, he, hop, hres, rfl⟩ | ⟨_, _, he, _⟩ | ⟨_, _, he, _⟩
  · cases he
    rcases (hok.take hop).readDone_cases flavor codec res hres.2 with ⟨_, heq⟩ | ⟨_, buf, heq⟩
    · simp only [settle, heq, Session.endRead, Session.close, Session.resumeWaiter_wire]
    · simp only [settle, heq, Session.readAgain_wire, Session.handleAll_wire]
      rfl
  · cases he
  · cases he

theorem Ok.wire_timer (hok : t.Ok) {id : Nat}
    (hstep : (machine flavor codec).step t (.timer id) = some t') :
    t'.session.wire = t.session.wire ∧
      t.session.handlers.length = t'.session.handlers.length + 1 := by
  rcases step_cases hstep with ⟨_, _, _, he, _⟩ | ⟨_, _, he, _⟩ | ⟨_, sqe, he, hop, rfl⟩
  · cases he
  · cases he
  · cases he
    obtain ⟨hd, hfind, _⟩ := (hok.take hop).resumeHandler
    have hperm := (Session.perm_find_eraseP hfind).length_eq
    simp only [settle, Session.timerDone, hfind, Session.push_wire, Session.push_handlers]
    exact ⟨trivial, hperm⟩

/-- A completed write puts the bytes the socket took on the wire. -/
theorem Ok.wire_write (hok : t.Ok) {w : Int}
    (hstep : (machine flavor codec).step t (.write w) = some t') :
    (∃ out, t'.session.wire = t.session.wire ++ out ∧ out.length = w.toNat) ∧
      t'.session.handlers = t.session.handlers ∧ t'.session.pushed = t.session.pushed := by
  rcases step_cases hstep with ⟨_, _, _, he, _⟩ | ⟨_, sqe, he, hop, hw, rfl⟩ | ⟨_, _, he, _⟩
  · cases he
  · cases he
    have hframe := (hok.take hop).writerFrame_writeDone hw
    refine ⟨?_, hframe.handlers, hframe.pushed⟩
    obtain ⟨f, hwriter, hf, hstaged, _, _⟩ := (hok.take hop).resumeWriter
    have hlen := hstaged.posted_le
    refine ⟨t.session.conn.accepted sqe w, ?_, ?_⟩
    · simp only [settle]
      rcases le_or_gt w 0 with hneg | hpos
      · rw [Session.writeDone_failed sqe hwriter hneg]
        rfl
      · rcases le_or_gt f.remaining w.toNat with hlast | hmore
        · rw [Session.writeDone_last sqe hwriter hpos hlast]
          split
          · rfl
          · rw [Session.writeLoop_wire]
            rfl
        · rw [Session.writeDone_more sqe hwriter hf hpos hmore]
          rfl
    · rw [hstaged.accepted_eq w (by omega), List.length_take]
      omega
  · cases he

/-- The number of bytes pushed and not yet on the wire. -/
def unsent (t : Live) : Nat := t.session.pushed.flatten.length - t.session.wire.length

/-- The bytes written were still to be written. -/
theorem Ok.unsent_lt (hok : t.Ok) {w : Int} (hpos : 0 < w)
    (hstep : (machine flavor codec).step t (.write w) = some t') : t'.unsent < t.unsent := by
  obtain ⟨⟨out, hout, hlen⟩, _, hpushed⟩ := hok.wire_write hstep
  have hwire := (ok_step hok hstep).wire_prefix_pushed.length_le
  rw [hpushed, hout, List.length_append] at hwire
  rw [unsent, unsent, hpushed, hout, List.length_append]
  omega

end Live

/-! ### The model -/

/-- A client, the bytes in transit, and the connection in the server. -/
structure Link (σ : Type u) where
  client : σ
  toServer : List UInt8
  toClient : List UInt8
  server : Live

namespace Link

/-- A step of the client, the result of one of its calls, or a completion in the server. -/
inductive Event (ε : Type v) where
  | client (e : ε)
  | send (n : Int)
  | recv (n : Int)
  | read (res : Int)
  | write (w : Int)
  | timer (id : Nat)

/-- The call or the operation has not failed and the stream has not ended. -/
def Event.Succeeds {ε : Type v} : Event ε → Prop
  | .send n => 0 < n
  | .recv n => 0 < n
  | .read res => 0 < res
  | .write w => 0 < w
  | .client _ => True
  | .timer _ => True

variable {σ : Type u} {ε : Type v}

def machine (C : Endpoint σ ε UInt8) (flavor : Flavor) (codec : EchoCodec) :
    Machine (Link σ) (Event ε) where
  step x
    | .client e => (C.step x.client e).map fun c => { x with client := c }
    | .send n =>
        (C.send x.client n).map fun c =>
          { x with
            client := c
            toServer := x.toServer ++ (C.sent c).drop (C.sent x.client).length }
    | .recv n =>
        if n.toNat ≤ x.toClient.length then
          (C.recv x.client n (x.toClient.take n.toNat)).map fun c =>
            { x with client := c, toClient := x.toClient.drop n.toNat }
        else none
    | .read res =>
        if res.toNat ≤ x.toServer.length then
          ((Live.machine flavor codec).step x.server
            (.read res (x.toServer.take res.toNat))).map fun t =>
              { x with server := t, toServer := x.toServer.drop res.toNat }
        else none
    | .write w =>
        ((Live.machine flavor codec).step x.server (.write w)).map fun t =>
          { x with
            server := t
            toClient := x.toClient ++ t.session.wire.drop x.server.session.wire.length }
    | .timer id =>
        ((Live.machine flavor codec).step x.server (.timer id)).map fun t =>
          { x with server := t }

/-- A client that has just connected. -/
def init (client : σ) (c : CoroConnection) : Link σ :=
  { client := client, toServer := [], toClient := [], server := Live.init c }

variable {C : Endpoint σ ε UInt8} {flavor : Flavor} {codec : EchoCodec} {x x' : Link σ}
variable {e : Event ε}

/-- What one step can do. -/
theorem step_cases (hok : x.server.Ok) (hstep : (machine C flavor codec).step x e = some x') :
    (∃ d c, e = .client d ∧ C.step x.client d = some c ∧ x' = { x with client := c }) ∨
    (∃ n c out, e = .send n ∧ C.send x.client n = some c ∧
      C.sent c = C.sent x.client ++ out ∧
      x' = { x with client := c, toServer := x.toServer ++ out }) ∨
    (∃ n c, e = .recv n ∧ n.toNat ≤ x.toClient.length ∧
      C.recv x.client n (x.toClient.take n.toNat) = some c ∧
      x' = { x with client := c, toClient := x.toClient.drop n.toNat }) ∨
    (∃ res t, e = .read res ∧ res.toNat ≤ x.toServer.length ∧
      (Live.machine flavor codec).step x.server (.read res (x.toServer.take res.toNat)) =
        some t ∧
      x' = { x with server := t, toServer := x.toServer.drop res.toNat }) ∨
    (∃ w t out, e = .write w ∧ (Live.machine flavor codec).step x.server (.write w) = some t ∧
      t.session.wire = x.server.session.wire ++ out ∧ out.length = w.toNat ∧
      x' = { x with server := t, toClient := x.toClient ++ out }) ∨
    (∃ id t, e = .timer id ∧ (Live.machine flavor codec).step x.server (.timer id) = some t ∧
      x' = { x with server := t }) := by
  cases e with
  | client d =>
      obtain ⟨c, hc, rfl⟩ := Option.map_eq_some_iff.mp hstep
      exact Or.inl ⟨d, c, rfl, hc, rfl⟩
  | send n =>
      obtain ⟨c, hc, rfl⟩ := Option.map_eq_some_iff.mp hstep
      obtain ⟨⟨out, hout, _⟩, _⟩ := C.send_history hc
      refine Or.inr (Or.inl ⟨n, c, out, rfl, hc, hout, ?_⟩)
      rw [hout, List.drop_left]
  | recv n =>
      simp only [machine, Option.ite_none_right_eq_some] at hstep
      obtain ⟨hlen, hstep⟩ := hstep
      obtain ⟨c, hc, rfl⟩ := Option.map_eq_some_iff.mp hstep
      exact Or.inr (Or.inr (Or.inl ⟨n, c, rfl, hlen, hc, rfl⟩))
  | read res =>
      simp only [machine, Option.ite_none_right_eq_some] at hstep
      obtain ⟨hlen, hstep⟩ := hstep
      obtain ⟨t, ht, rfl⟩ := Option.map_eq_some_iff.mp hstep
      exact Or.inr (Or.inr (Or.inr (Or.inl ⟨res, t, rfl, hlen, ht, rfl⟩)))
  | write w =>
      obtain ⟨t, ht, rfl⟩ := Option.map_eq_some_iff.mp hstep
      obtain ⟨⟨out, hout, hlen⟩, _⟩ := hok.wire_write ht
      refine Or.inr (Or.inr (Or.inr (Or.inr (Or.inl ⟨w, t, out, rfl, ht, hout, hlen, ?_⟩))))
      rw [hout, List.drop_left]
  | timer id =>
      obtain ⟨t, ht, rfl⟩ := Option.map_eq_some_iff.mp hstep
      exact Or.inr (Or.inr (Or.inr (Or.inr (Or.inr ⟨id, t, rfl, ht, rfl⟩))))

/-! ### The two ends agree on the streams -/

/-- The server's part of a run of the link. -/
structure Linked (C : Endpoint σ ε UInt8) (flavor : Flavor) (codec : EchoCodec)
    (c : CoroConnection) (es : List (Event ε)) (x : Link σ) (ds : List Live.Event) : Prop where
  run : (Live.machine flavor codec).exec (Live.init c) ds = some x.server
  read : (Live.chunks ds).flatten ++ x.toServer = C.sent x.client
  written : C.received x.client ++ x.toClient = x.server.session.wire
  succeeds : (∀ e, e ∈ es → e.Succeeds) → ∀ d, d ∈ ds → d.Succeeds

variable {client : σ} {c : CoroConnection} {es : List (Event ε)} {ds : List Live.Event}

theorem Linked.ok (h : Linked C flavor codec c es x ds) (hread : c.FreshRead)
    (hwrite : c.WriteOk) : x.server.Ok :=
  Live.ok_exec hread hwrite h.run

theorem chunks_concat_read (ds : List Live.Event) {res : Int} {bytes : List UInt8}
    (hlen : bytes.length = res.toNat) :
    (Live.chunks (ds ++ [.read res bytes])).flatten = (Live.chunks ds).flatten ++ bytes := by
  rw [Live.chunks_append, List.flatten_append]
  congr 1
  rcases le_or_gt res 0 with hend | hdata
  · have hnil : bytes = [] := List.length_eq_zero_iff.mp (by omega)
    simp [Live.chunks, not_lt.mpr hend, hnil]
  · simp [Live.chunks, hdata]

theorem Linked.step (h : Linked C flavor codec c es x ds) (hread : c.FreshRead)
    (hwrite : c.WriteOk) (hstep : (machine C flavor codec).step x e = some x') :
    ∃ ds', Linked C flavor codec c (es ++ [e]) x' ds' := by
  have hgood : (∀ e', e' ∈ es ++ [e] → e'.Succeeds) → ∀ d, d ∈ ds → d.Succeeds :=
    fun hall => h.succeeds fun e' he' => hall e' (List.mem_append_left _ he')
  have hlast : ∀ d : Live.Event, (e.Succeeds → d.Succeeds) →
      (∀ e', e' ∈ es ++ [e] → e'.Succeeds) → ∀ d', d' ∈ ds ++ [d] → d'.Succeeds := by
    intro d hd hall d' hd'
    rcases List.mem_append.mp hd' with hin | hin
    · exact hgood hall d' hin
    · rw [List.mem_singleton.mp hin]
      exact hd (hall e (List.mem_append_right _ List.mem_cons_self))
  rcases step_cases (h.ok hread hwrite) hstep with
    ⟨d, c', rfl, hc', rfl⟩ | ⟨n, c', out, rfl, hc', hout, rfl⟩ | ⟨n, c', rfl, hlen, hc', rfl⟩ |
      ⟨res, t, rfl, hlen, ht, rfl⟩ | ⟨w, t, out, rfl, ht, hout, _, rfl⟩ | ⟨id, t, rfl, ht, rfl⟩
  · obtain ⟨hsent, hreceived⟩ := C.step_history hc'
    exact ⟨ds, h.run, by rw [hsent]; exact h.read, by rw [hreceived]; exact h.written, hgood⟩
  · obtain ⟨_, hreceived⟩ := C.send_history hc'
    refine ⟨ds, h.run, ?_, by rw [hreceived]; exact h.written, hgood⟩
    rw [hout, ← List.append_assoc, h.read]
  · obtain ⟨hsent, hreceived, _⟩ := C.recv_history hc'
    refine ⟨ds, h.run, by rw [hsent]; exact h.read, ?_, hgood⟩
    rw [hreceived, List.append_assoc, List.take_append_drop, h.written]
  · refine ⟨_, Machine.exec_concat_eq_some.mpr ⟨_, h.run, ht⟩, ?_, ?_, hlast _ fun hd => hd⟩
    · rw [chunks_concat_read ds (by rw [List.length_take]; omega), List.append_assoc,
        List.take_append_drop, h.read]
    · rw [(h.ok hread hwrite).wire_read ht, h.written]
  · refine ⟨_, Machine.exec_concat_eq_some.mpr ⟨_, h.run, ht⟩, ?_, ?_, hlast _ fun hd => hd⟩
    · rw [Live.chunks_append]
      simpa [Live.chunks] using h.read
    · rw [hout, ← h.written, List.append_assoc]
  · refine ⟨_, Machine.exec_concat_eq_some.mpr ⟨_, h.run, ht⟩, ?_, ?_, hlast _ fun _ => trivial⟩
    · rw [Live.chunks_append]
      simpa [Live.chunks] using h.read
    · rw [((h.ok hread hwrite).wire_timer ht).1, h.written]

theorem linked_exec (hread : c.FreshRead) (hwrite : c.WriteOk) (hsent : C.sent client = [])
    (hreceived : C.received client = [])
    (hrun : (machine C flavor codec).exec (init client c) es = some x) :
    ∃ ds, Linked C flavor codec c es x ds := by
  refine Machine.run_induction
    (motive := fun es x => ∃ ds, Linked C flavor codec c es x ds) ?_ ?_ hrun
  · refine ⟨[], rfl, ?_, ?_, by simp⟩
    · simp [init, Live.chunks, hsent]
    · rw [init, Live.init, Session.start_eq]
      simp [hreceived, Live.settle, Session.startRead, Session.post]
  · rintro es x e x' _ ⟨ds, h⟩ hstep
    exact h.step hread hwrite hstep

end Link

end CRpc
