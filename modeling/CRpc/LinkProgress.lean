import CRpc.Link

/-!
# Responses over a link

What a client that sends numbered requests gets back, whichever of the two servers
it talks to and however the streams are cut.

* `Linked.responses`: the bytes received are those of responses to distinct
  requests, all of them sent completely before.
* `Linked.idle`: where no completion is possible in the server, every request sent
  is answered.
* `no_infinite_run`: a client with finite work cannot go on for ever without a
  failure.  A step uses up one of the measures below, and gives work only to
  measures behind it: requests to be sent, bytes on the way to the server, handlers
  asleep, bytes to be written, bytes on the way to the client, responses to be
  handled.
-/

namespace CRpc

open Lib Protocol CoroConnection

universe u v

theorem encodedStream_responses (codec : EchoCodec) (rs : List (RpcHeader × List UInt8)) :
    encodedStream (rs.map codec.responseTo) = (rs.map codec.respond).flatten := by
  rw [encodedStream, List.map_map]
  rfl

theorem take_requestsUpTo (reqBytes : List UInt8) {k n : Nat} (h : k ≤ n) :
    (requestsUpTo reqBytes n).take k = requestsUpTo reqBytes k := by
  rw [requestsUpTo, ← List.map_take, List.take_range, min_eq_left h, requestsUpTo]

/-- The server accepts the requests of the clients. -/
theorem requests_requestsUpTo {codec : EchoCodec} {reqBytes message : List UInt8}
    (hparse : codec.parseEchoRequest reqBytes = some message) (k : Nat) :
    codec.requests (((requestsUpTo reqBytes k).map wireWord).map Prod.fst) =
      (List.range k).map fun i => (wireHeader (requestHeader reqBytes i) reqBytes, message) := by
  have haccept : ∀ i, codec.accepts (wireWord (request reqBytes i)).1 =
      some (wireHeader (requestHeader reqBytes i) reqBytes, message) := by
    intro i
    simp [EchoCodec.accepts, wireWord, wireHeader, request, requestHeader, hparse]
  rw [EchoCodec.requests, requestsUpTo, List.map_map, List.map_map, List.filterMap_map]
  rw [← List.filterMap_eq_map]
  exact List.filterMap_congr fun i _ => haccept i

/-- The server accepts the requests of a client, on a connection just made. -/
structure Serves (codec : EchoCodec) (c : CoroConnection) (reqBytes message : List UInt8) :
    Prop where
  freshRead : c.FreshRead
  writeOk : c.WriteOk
  accepted : codec.parseEchoRequest reqBytes = some message
  requestSize : reqBytes.length < 2 ^ 32
  replySize : (codec.reply message).length < 2 ^ 32

theorem smallConn_serves : Serves protoCodec smallConn [0x0a, 1, 0x61] [0x61] :=
  ⟨smallConn_freshRead, smallConn_writeOk, rfl, by decide, by decide⟩

theorem smallConn_fits_two :
    Live.Fits protoCodec smallConn (requestsUpTo [0x0a, 1, 0x61] 2) :=
  ⟨by decide, fun _ _ _ hparse => protoCodec_response_lt hparse,
    fun _ => by decide, fun _ => by decide, fun _ => by decide⟩

/-- Requests out of the first `k`, each at most once; the synchronous server keeps the order. -/
structure Replied (flavor : Flavor) (message : List UInt8) (k : Nat)
    (rs : List (RpcHeader × List UInt8)) : Prop where
  ids : ∃ asleep : List UInt32, ((rs.map fun r => r.1.seqId) ++ asleep).Perm (seqIds k)
  message : ∀ r, r ∈ rs → r.2 = message
  inOrder : flavor = .sync → (rs.map fun r => r.1.seqId) = seqIds k

namespace Replied

variable {flavor : Flavor} {message : List UInt8} {k : Nat}
variable {rs : List (RpcHeader × List UInt8)}

theorem subset (h : Replied flavor message k rs) : (rs.map fun r => r.1.seqId) ⊆ seqIds k := by
  obtain ⟨asleep, hperm⟩ := h.ids
  exact fun id hid => hperm.mem_iff.mp (List.mem_append_left asleep hid)

theorem nodup (h : Replied flavor message k rs) (hk : k ≤ 2 ^ 32) :
    (rs.map fun r => r.1.seqId).Nodup := by
  obtain ⟨asleep, hperm⟩ := h.ids
  exact (List.nodup_append'.mp (hperm.nodup_iff.mpr (nodup_seqIds hk))).1

theorem length_le (h : Replied flavor message k rs) : rs.length ≤ k := by
  obtain ⟨asleep, hperm⟩ := h.ids
  have hlen := hperm.length_eq
  rw [List.length_append, List.length_map, length_seqIds] at hlen
  omega

theorem responses_lt (h : Replied flavor message k rs) {codec : EchoCodec}
    (hreply : (codec.reply message).length < 2 ^ 32) :
    ∀ m, m ∈ rs.map codec.responseTo → m.2.length < 2 ^ 32 := by
  intro m hm
  obtain ⟨r, hr, rfl⟩ := List.mem_map.mp hm
  simpa only [EchoCodec.responseTo, h.message r hr] using hreply

/-- What a session has pushed when it has taken the first `k` requests. -/
theorem of_delivered {codec : EchoCodec} {reqBytes : List UInt8}
    (hparse : codec.parseEchoRequest reqBytes = some message)
    {asleep delivered : List (RpcHeader × List UInt8)}
    (hperm : (rs ++ asleep).Perm delivered)
    (hsync : flavor = .sync → rs = delivered)
    (hdelivered : delivered =
      codec.requests (((requestsUpTo reqBytes k).map wireWord).map Prod.fst)) :
    Replied flavor message k rs := by
  rw [requests_requestsUpTo hparse] at hdelivered
  have hids : (delivered.map fun r => r.1.seqId) = seqIds k := by
    rw [hdelivered, List.map_map]
    rfl
  refine ⟨⟨asleep.map fun r => r.1.seqId, ?_⟩, ?_, fun hflavor => hsync hflavor ▸ hids⟩
  · rw [← hids, ← List.map_append]
    exact hperm.map _
  · intro r hr
    have hin := hperm.mem_iff.mp (List.mem_append_left asleep hr)
    rw [hdelivered] at hin
    obtain ⟨i, _, rfl⟩ := List.mem_map.mp hin
    rfl

end Replied

namespace Link

variable {σ : Type u} {ε : Type v} {C : Endpoint σ ε UInt8} {flavor : Flavor}
variable {codec : EchoCodec} {client : σ} {c : CoroConnection} {es : List (Event ε)}
variable {ds : List Live.Event} {x x' : Link σ} {e : Event ε}

section Responses

variable {reqBytes message : List UInt8}

/-- The requests the server has taken out of its stream. -/
theorem Linked.taken (h : Linked C flavor codec c es x ds)
    (hserves : Serves codec c reqBytes message) {n : Nat}
    (hsent : C.sent x.client <+: encodedStream (requestsUpTo reqBytes n)) :
    ∃ k, k ≤ n ∧ encodedStream (requestsUpTo reqBytes k) <+: (Live.chunks ds).flatten ∧
      x.server.session.delivered = ((requestsUpTo reqBytes k).map wireWord).map Prod.fst ∧
      ((Live.chunks ds).flatten = encodedStream (requestsUpTo reqBytes n) → k = n) := by
  have hsmall : ∀ m, m ∈ requestsUpTo reqBytes n → m.2.length < 2 ^ 32 := by
    intro m hm
    obtain ⟨i, _, rfl⟩ := List.mem_map.mp hm
    exact hserves.requestSize
  have hwords := codeword_wireWord hsmall
  have hpre : (Live.chunks ds).flatten <+: C.sent x.client := ⟨_, h.read⟩
  have hstream := hpre.trans hsent
  rw [encodedStream_eq_wordsOf] at hstream
  obtain ⟨done, todo, hsplit, hfeed, hcut, _⟩ := Decoder.feed_codewords hwords hstream
  have hle : done.length ≤ n := by
    have hlen := congrArg List.length hsplit
    simp only [List.length_map, length_requestsUpTo, List.length_append] at hlen
    omega
  have hdone : done = (requestsUpTo reqBytes done.length).map wireWord := by
    rw [← take_requestsUpTo reqBytes hle, List.map_take, hsplit, List.take_left]
  refine ⟨done.length, hle, ?_, ?_, ?_⟩
  · rw [encodedStream_eq_wordsOf, ← hdone]
    rw [hcut]
    exact List.prefix_append _ _
  · rw [(Live.delivered_exec hserves.freshRead hserves.writeOk h.run).1, hfeed, ← hdone]
  · intro hall
    have hfull := Decoder.feed_all_codewords hwords (by rw [hall, encodedStream_eq_wordsOf])
    have hlen := congrArg List.length (hfeed.symm.trans (congrArg Prod.fst hfull))
    simpa [length_requestsUpTo] using hlen

theorem Linked.responses (h : Linked C flavor codec c es x ds)
    (hserves : Serves codec c reqBytes message) {n : Nat}
    (hsent : C.sent x.client <+: encodedStream (requestsUpTo reqBytes n)) :
    ∃ (k : Nat) (rs : List (RpcHeader × List UInt8)),
      k ≤ n ∧
      (encodedStream (requestsUpTo reqBytes k)).length + x.toServer.length ≤
        (C.sent x.client).length ∧
      Replied flavor message k rs ∧
      C.received x.client ++ x.toClient <+: encodedStream (rs.map codec.responseTo) := by
  obtain ⟨k, hk, hdone, hdelivered, _⟩ := h.taken hserves hsent
  obtain ⟨rs, hrs, hperm, hsync⟩ :=
    Live.answered_exec hserves.freshRead hserves.writeOk h.run
  refine ⟨k, rs, hk, ?_, .of_delivered hserves.accepted hperm
    (fun hflavor => (hsync hflavor).2) (by rw [hdelivered]), ?_⟩
  · have hle := hdone.length_le
    rw [← h.read, List.length_append]
    omega
  · rw [h.written, encodedStream_responses, ← hrs]
    exact (h.ok hserves.freshRead hserves.writeOk).wire_prefix_pushed

/-- Where nothing can go on in the server, all that was sent is answered. -/
theorem Linked.idle (h : Linked C flavor codec c es x ds)
    (hserves : Serves codec c reqBytes message) {n : Nat}
    (hfits : Live.Fits codec c (requestsUpTo reqBytes n)) (hgood : ∀ e, e ∈ es → e.Succeeds)
    (hsent : C.sent x.client = encodedStream (requestsUpTo reqBytes n))
    (hstuck : ∀ e, e.Succeeds → (machine C flavor codec).step x e = none) :
    ∃ rs : List (RpcHeader × List UInt8), Replied flavor message n rs ∧ rs.length = n ∧
      C.received x.client ++ x.toClient = encodedStream (rs.map codec.responseTo) := by
  have hread := hserves.freshRead
  have hwrite := hserves.writeOk
  have hparse := hserves.accepted
  have hok := h.ok hread hwrite
  have hlive := h.succeeds hgood
  have hpre : (Live.chunks ds).flatten <+: encodedStream (requestsUpTo reqBytes n) :=
    hsent ▸ ⟨_, h.read⟩
  -- a read with room is in flight, so that no byte can be on its way to the server
  have hempty : x.toServer = [] := by
    obtain ⟨sqe, hop, hroom⟩ := Live.read_room hread hwrite hfits h.run hpre
      (Live.reading_exec hread hwrite h.run hlive)
    cases hbytes : x.toServer with
    | nil => rfl
    | cons b rest =>
        have hone : [b].length ≤ postedRead sqe := hroom
        obtain ⟨t, ht⟩ := Live.read_step flavor codec hop hone
        have hnone := hstuck (.read 1) Int.one_pos
        rw [List.length_singleton, Nat.cast_one] at ht
        simp [machine, hbytes, ht] at hnone
  have hpop : x.server.session.writer = .onPop := by
    cases hw : x.server.session.writer with
    | running => exact absurd hw hok.rested.writer
    | done => exact absurd hw (Live.writing_exec hread hwrite hfits h.run hlive hpre)
    | onPop => rfl
    | onWrite f =>
        obtain ⟨sqe, hop, hpos⟩ := Live.write_room hread hwrite hfits h.run hpre hw
        obtain ⟨t, ht⟩ := Live.write_step flavor codec hop hpos
        have hnone := hstuck (.write 1) Int.one_pos
        simp [machine, ht] at hnone
  have hhandlers : x.server.session.handlers = [] := by
    cases hh : x.server.session.handlers with
    | nil => rfl
    | cons hd rest =>
        obtain ⟨t, ht⟩ := hok.timer_step flavor codec (hh ▸ List.mem_cons_self)
        have hnone := hstuck (.timer hd.id) trivial
        simp [machine, ht] at hnone
  obtain ⟨rs, hrs, hperm, hsync⟩ := Live.answered_exec hread hwrite h.run
  obtain ⟨k, _, _, hdelivered, hall⟩ := h.taken hserves (by rw [hsent])
  have hchunks := h.read
  rw [hempty, List.append_nil, hsent] at hchunks
  obtain rfl := hall hchunks
  refine ⟨rs, .of_delivered hparse hperm (fun hflavor => (hsync hflavor).2) ?_, ?_, ?_⟩
  · rw [hdelivered]
  · have hlen := hperm.length_eq
    rw [hhandlers, hdelivered, requests_requestsUpTo hparse] at hlen
    simpa using hlen
  · rw [h.written, encodedStream_responses, ← hrs]
    exact hok.wire_of_idle hpop

/-! ### What the client reads -/

variable {inbox : Inbox}

/-- The sequence numbers of responses as a client reads them. -/
theorem seqId_responses (codec : EchoCodec) (rs : List (RpcHeader × List UInt8)) :
    ((rs.map codec.responseTo).map fun m => wireHeader m.1 m.2).map RpcHeader.seqId =
      rs.map fun r => r.1.seqId := by
  rw [List.map_map, List.map_map]
  rfl

/--
The responses taken out of the vector answer requests that were sent completely.  With
the last one taken, nothing is left in the vector or on the way to it.
-/
theorem Linked.headers (h : Linked C flavor codec c es x ds)
    (hserves : Serves codec c reqBytes message) {n : Nat}
    (hsent : C.sent x.client <+: encodedStream (requestsUpTo reqBytes n))
    (hinbox : inbox.Ok) (hreceived : inbox.received = C.received x.client) :
    ∃ (k : Nat) (rs : List (RpcHeader × List UInt8)),
      k ≤ n ∧
      (encodedStream (requestsUpTo reqBytes k)).length + x.toServer.length ≤
        (C.sent x.client).length ∧
      Replied flavor message k rs ∧
      inbox.headers.map RpcHeader.seqId <+: (rs.map fun r => r.1.seqId) ∧
      inbox.phase ≠ .thrown .badMagic ∧
      (inbox.headers.length = rs.length → inbox.phase = .header →
        inbox.buf = [] ∧ x.toClient = []) := by
  obtain ⟨k, rs, hk, hdone, hreplied, hbytes⟩ := h.responses hserves hsent
  obtain ⟨hheaders, hmagic⟩ := hinbox.on_stream (hreplied.responses_lt hserves.replySize)
    (hreceived ▸ (List.prefix_append _ _).trans hbytes)
  have hsizes := hreplied.responses_lt hserves.replySize
  refine ⟨k, rs, hk, hdone, hreplied, ?_, hmagic, fun hall hphase => ?_⟩
  · rw [← seqId_responses codec rs]
    exact hheaders.map RpcHeader.seqId
  · rw [← hreceived] at hbytes
    obtain ⟨hlater, hbuf⟩ := hinbox.drained hsizes hbytes (by rw [hall, List.length_map])
    exact ⟨hbuf hphase, hlater⟩

/-- A client that waits for bytes in a link at rest has all its responses. -/
theorem Linked.all_taken (h : Linked C flavor codec c es x ds)
    (hserves : Serves codec c reqBytes message) {n : Nat}
    (hfits : Live.Fits codec c (requestsUpTo reqBytes n)) (hgood : ∀ e, e ∈ es → e.Succeeds)
    (hsent : C.sent x.client = encodedStream (requestsUpTo reqBytes n))
    (hstuck : ∀ e, e.Succeeds → (machine C flavor codec).step x e = none)
    (hinbox : inbox.Ok) (hreceived : inbox.received = C.received x.client)
    {need : Nat} (hneed : inbox.need = some need) (hshort : inbox.buf.length < need)
    (hrecv : ∀ b, ∃ c, C.recv x.client 1 [b] = some c) : inbox.headers.length = n := by
  obtain ⟨rs, hreplied, hlen, hbytes⟩ := h.idle hserves hfits hgood hsent hstuck
  have hempty : x.toClient = [] := by
    cases hrest : x.toClient with
    | nil => rfl
    | cons b rest =>
        obtain ⟨c', hc'⟩ := hrecv b
        have hnone := hstuck (.recv 1) Int.one_pos
        simp [machine, hrest, hc'] at hnone
  rw [hempty, List.append_nil, ← hreceived] at hbytes
  rw [hinbox.all_taken (hreplied.responses_lt hserves.replySize) hbytes hneed hshort,
    List.length_map, List.length_map, hlen]

end Responses

/-! ### Termination -/

/-- What is ahead of the link, the measures that come first in a request's way first. -/
def workAhead (W : C.Work) (x : Link σ) : ℕ ×ₗ ℕ ×ₗ ℕ ×ₗ ℕ ×ₗ ℕ ×ₗ ℕ :=
  toLex (W.ahead x.client, toLex (x.toServer.length,
    toLex (x.server.session.handlers.length,
      toLex (x.server.session.pushed.flatten.length - x.server.session.wire.length,
        toLex (x.toClient.length, W.rest x.client)))))

theorem server_step (hok : x.server.Ok) (hstep : (machine C flavor codec).step x e = some x') :
    x'.server.Ok := by
  rcases step_cases hok hstep with
    ⟨_, _, _, _, rfl⟩ | ⟨_, _, _, _, _, _, rfl⟩ | ⟨_, _, _, _, _, rfl⟩ | ⟨_, _, _, _, ht, rfl⟩ |
      ⟨_, _, _, _, ht, _, _, rfl⟩ | ⟨_, _, _, ht, rfl⟩
  · exact hok
  · exact hok
  · exact hok
  · exact Live.ok_step hok ht
  · exact Live.ok_step hok ht
  · exact Live.ok_step hok ht

/-- A step without failure uses up some of the work ahead. -/
theorem measure_lt (W : C.Work) (hok : x.server.Ok)
    (hstep : (machine C flavor codec).step x e = some x') (hgood : e.Succeeds) :
    workAhead W x' < workAhead W x := by
  simp only [workAhead, Prod.Lex.toLex_lt_toLex]
  rcases step_cases hok hstep with
    ⟨d, c', rfl, hc', rfl⟩ | ⟨n, c', out, rfl, hc', _, rfl⟩ | ⟨n, c', rfl, hlen, hc', rfl⟩ |
      ⟨res, t, rfl, hlen, ht, rfl⟩ | ⟨w, t, out, rfl, ht, hout, hlen, rfl⟩ | ⟨id, t, rfl, ht, rfl⟩
  · rcases W.step_lt hc' with hlt | ⟨heq, hlt⟩
    · exact Or.inl hlt
    · simp [heq, hlt]
  · exact Or.inl (W.send_lt hc' hgood)
  · have heq := W.recv_eq hc' hgood
    have hpos : 0 < n := hgood
    have hshort : (x.toClient.drop n.toNat).length < x.toClient.length := by
      rw [List.length_drop]
      omega
    simp only [heq, hshort, lt_irrefl, false_or, true_and, true_or]
  · have hpos : 0 < res := hgood
    have hshort : (x.toServer.drop res.toNat).length < x.toServer.length := by
      rw [List.length_drop]
      omega
    simp only [hshort, lt_irrefl, false_or, true_and, true_or]
  · obtain ⟨_, hhandlers, _⟩ := hok.wire_write ht
    have hshort : t.session.pushed.flatten.length - t.session.wire.length <
        x.server.session.pushed.flatten.length - x.server.session.wire.length :=
      hok.unsent_lt hgood ht
    simp only [hhandlers, hshort, lt_irrefl, false_or, true_and, true_or]
  · obtain ⟨_, hcount⟩ := hok.wire_timer ht
    have hshort : t.session.handlers.length < x.server.session.handlers.length := by omega
    simp only [hshort, lt_irrefl, false_or, true_and, true_or]

theorem no_infinite_run (W : C.Work) (hread : c.FreshRead) (hwrite : c.WriteOk)
    (f : ℕ → Link σ) (hstart : f 0 = init client c) :
    ¬ ∀ n, ∃ e, e.Succeeds ∧ (machine C flavor codec).step (f n) e = some (f (n + 1)) := by
  intro hsteps
  have hok : ∀ n, (f n).server.Ok := by
    intro n
    induction n with
    | zero =>
        rw [hstart]
        exact Live.ok_init hread hwrite
    | succ n ih =>
        obtain ⟨e, _, he⟩ := hsteps n
        exact server_step ih he
  refine not_strictAnti_of_wellFoundedLT (fun n => workAhead W (f n))
    (strictAnti_nat_of_succ_lt fun n => ?_)
  obtain ⟨e, hgood, he⟩ := hsteps n
  exact measure_lt W (hok n) he hgood

end Link

end CRpc
