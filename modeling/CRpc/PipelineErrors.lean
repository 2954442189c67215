import CRpc.PipelineEcho

/-!
# The pipelined client when something fails

Results about `multiplex_bench.cpp` in front of any peer, and about its end after an
error of one thread.

* `pipeline_any_peer`: whatever the peer sends, the bytes sent are those of the
  requests in order, the counter stays below the window, a round-trip time is
  recorded at most once for a request and only after the request was recorded; and
  the receiver takes the frames at the front of the stream, up to where the parser
  of the server would skip a byte.
* `sender_hangs_iff`: after an error of the receiver the sender can end exactly
  when it does not wait for room in a full window.  The loop around `yield` does
  not look at `recv_error`, and nobody lowers the counter any more.
* `all_sent_of_receiver_finished`: the receiver leaves its loop without an error
  only after all of the requests have left the client.  After a failed `send` the
  call of `join` hence returns only if `recv` fails as well.
-/

namespace CRpc

open Lib Protocol CoroConnection

namespace Pipeline

variable {cfg : PipelineConfig} {p p' : Pipeline} {es : List (Endpoint.Event Thread UInt8)}

/-! ### Any peer -/

theorem ok_alone (hrun : (client cfg).alone.exec init es = some p) : p.Ok cfg := by
  refine Machine.exec_invariant (I := Ok cfg) ?_ hrun (ok_init cfg)
  intro p e p' hok hstep
  cases e with
  | own d =>
      cases d with
      | sender now => exact hok.senderStep hstep
      | receiver now => exact hok.receiverStep hstep
  | send n => exact hok.send hstep
  | recv n bytes => exact hok.recv hstep

/--
The pipelined client in front of any peer.  The last two parts compare its reader
with the frames of the whole stream, `later` being what has not arrived.
-/
theorem pipeline_any_peer (hrun : (client cfg).alone.exec init es = some p)
    (later : List UInt8) :
    p.sent ++ p.sender.unsent = encodedStream (requestsUpTo cfg.reqBytes p.sender.begun) ∧
      p.inFlight ≤ max cfg.window 0 ∧
      p.latencies.length = p.found.length ∧ p.found.Nodup ∧
      (∀ id, id ∈ p.found → id ∈ seqIds p.sender.recorded) ∧
      p.inbox.headers <+: (frames.front (p.inbox.received ++ later)).1.map Prod.fst ∧
      (p.inbox.phase = .thrown .badMagic →
        p.inbox.headers = (frames.front (p.inbox.received ++ later)).1.map Prod.fst ∧
          frames.look (frames.front (p.inbox.received ++ later)).2 = .skip) := by
  have hok := ok_alone hrun
  exact ⟨hok.sentOk, hok.flight_le, hok.measured, hok.found_nodup, hok.found_mem,
    hok.inboxOk.front later⟩

/-- A peer that answers with something else than a frame. -/
theorem pipeline_any_peer_wrong_magic :
    ∃ p, (client twoPings).alone.exec init
        [.own (.receiver 0), .recv 12 (List.replicate 12 0), .own (.receiver 0)] = some p ∧
      p.inbox.phase = .thrown .badMagic ∧
      frames.look (frames.front (p.inbox.received ++ [])).2 = .skip := by
  have hrun : ((client twoPings).alone.exec init
      [.own (.receiver 0), .recv 12 (List.replicate 12 0), .own (.receiver 0)]).map
      (fun p => p.inbox.phase) = some (.thrown .badMagic) := by decide
  obtain ⟨p, hp, hphase⟩ := Option.map_eq_some_iff.mp hrun
  exact ⟨p, hp, hphase, ((pipeline_any_peer hp []).2.2.2.2.2.2 hphase).2⟩

/-! ### An error of the receiver -/

/-- The sender has left its loop. -/
def Sender.Ended : Sender → Prop
  | .finished _ => True
  | .failed _ _ => True
  | _ => False

theorem Ok.receiver_of_error (h : p.Ok cfg) (herr : p.recvError = true) :
    ∃ i, p.receiver = .failed i := by
  have hwithin := h.within
  cases hr : p.receiver with
  | failed i => exact ⟨i, rfl⟩
  | head i => simp [hr, Receiver.Within, herr] at hwithin
  | reading i => simp [hr, Receiver.Within, herr] at hwithin
  | lookup i hdr => simp [hr, Receiver.Within, herr] at hwithin
  | release i => simp [hr, Receiver.Within, herr] at hwithin
  | finished i => simp [hr, Receiver.Within, herr] at hwithin

/-- The sender spins on a full window and the receiver is gone. -/
structure Hung (cfg : PipelineConfig) (p : Pipeline) : Prop where
  spins : ∃ i, p.sender = .spin i
  full : cfg.window ≤ p.inFlight
  gone : ∃ i, p.receiver = .failed i

theorem Hung.no_step (h : Hung cfg p) {e : Endpoint.Event Thread UInt8} :
    (client cfg).alone.step p e = none := by
  obtain ⟨i, hs⟩ := h.spins
  obtain ⟨j, hr⟩ := h.gone
  cases e with
  | own d =>
      cases d with
      | sender now =>
          show senderStep cfg now p = none
          simp only [senderStep, hs, if_pos h.full]
      | receiver now =>
          show receiverStep cfg now p = none
          simp only [receiverStep, hr]
  | send n =>
      show p.send n = none
      simp only [send, hs]
  | recv n bytes =>
      show p.recv n bytes = none
      simp only [recv, hr]

section Ends

variable (herr : p.recvError = true)
include herr

theorem ends_of_head {i : Nat} (hs : p.sender = .head i) :
    (client cfg).alone.Reaches p fun q => q.sender.Ended := by
  have hstep : (client cfg).alone.step p (.own (.sender 0)) =
      some { p with sender := .finished i } := by
    show senderStep cfg 0 p = _
    simp [senderStep, hs, herr]
  exact .after hstep (.here trivial)

theorem ends_of_sending {i : Nat} {rest : List UInt8} (hs : p.sender = .sending i rest) :
    (client cfg).alone.Reaches p fun q => q.sender.Ended := by
  have hsent : ∀ q : Pipeline, q.recvError = true → q.sender = .sending i [] →
      (client cfg).alone.Reaches q fun q => q.sender.Ended := by
    intro q hq hqs
    have hstep : (client cfg).alone.step q (.own (.sender 0)) =
        some { q with sender := .head (i + 1) } := by
      show senderStep cfg 0 q = _
      simp [senderStep, hqs]
    exact .after hstep (ends_of_head hq rfl)
  rcases eq_or_ne rest [] with rfl | hrest
  · exact hsent p herr hs
  · -- one call of `send` takes all of the rest
    have hlen := List.length_pos_iff.mpr hrest
    have hstep : (client cfg).alone.step p (.send rest.length) =
        some { p with sender := .sending i [], sent := p.sent ++ rest } := by
      show p.send rest.length = _
      simp [send, hs, hrest, sendAll]
    exact .after hstep (hsent _ herr rfl)

theorem ends_of_increment {i : Nat} (hs : p.sender = .increment i) :
    (client cfg).alone.Reaches p fun q => q.sender.Ended := by
  have hstep : (client cfg).alone.step p (.own (.sender 0)) = some { p with
      inFlight := p.inFlight + 1
      sender := .sending i (encoded (request cfg.reqBytes i)) } := by
    show senderStep cfg 0 p = _
    simp only [senderStep, hs]
  exact .after hstep (ends_of_sending herr rfl)

theorem ends_of_record {i : Nat} (hs : p.sender = .record i) :
    (client cfg).alone.Reaches p fun q => q.sender.Ended := by
  have hstep : (client cfg).alone.step p (.own (.sender 0)) = some { p with
      pending := Function.update p.pending (requestHeader cfg.reqBytes i).seqId (some 0)
      sender := .increment i } := by
    show senderStep cfg 0 p = _
    simp only [senderStep, hs]
  exact .after hstep (ends_of_increment herr rfl)

theorem ends_of_spin {i : Nat} (hs : p.sender = .spin i) (hroom : p.inFlight < cfg.window) :
    (client cfg).alone.Reaches p fun q => q.sender.Ended := by
  have hstep : (client cfg).alone.step p (.own (.sender 0)) =
      some { p with sender := .record i } := by
    show senderStep cfg 0 p = _
    simp only [senderStep, hs, if_neg (not_le.mpr hroom)]
  exact .after hstep (ends_of_record herr rfl)

end Ends

/--
After an error of the receiver, no continuation lets the sender leave its loop if
and only if it spins on a full window.
-/
theorem sender_hangs_iff (hrun : (client cfg).alone.exec init es = some p)
    (herr : p.recvError = true) :
    (∀ ds p', (client cfg).alone.exec p ds = some p' → ¬ p'.sender.Ended) ↔
      ∃ i, p.sender = .spin i ∧ cfg.window ≤ p.inFlight := by
  constructor
  · intro hnever
    have hno : ¬ (client cfg).alone.Reaches p fun q => q.sender.Ended :=
      fun ⟨ds, p', hds, hended⟩ => hnever ds p' hds hended
    cases hs : p.sender with
    | head i => exact absurd (ends_of_head herr hs) hno
    | spin i => exact ⟨i, rfl, not_lt.mp fun hroom => hno (ends_of_spin herr hs hroom)⟩
    | record i => exact absurd (ends_of_record herr hs) hno
    | increment i => exact absurd (ends_of_increment herr hs) hno
    | sending i rest => exact absurd (ends_of_sending herr hs) hno
    | finished i => exact absurd (.here (by rw [hs]; trivial)) hno
    | failed i rest => exact absurd (.here (by rw [hs]; trivial)) hno
  · rintro ⟨i, hs, hfull⟩ ds p' hds hended
    have hhung : Hung cfg p := ⟨⟨i, hs⟩, hfull, (ok_alone hrun).receiver_of_error herr⟩
    cases ds with
    | nil =>
        simp only [Machine.exec_nil, Option.some.injEq] at hds
        rw [← hds, hs] at hended
        exact hended
    | cons d ds =>
        obtain ⟨q, hq, _⟩ := Machine.exec_cons_eq_some.mp hds
        rw [hhung.no_step] at hq
        cases hq

/-- The connection is closed after the first of two requests. -/
theorem sender_hangs_iff_closed :
    ∃ p, (client twoPings).alone.exec init
        [.own (.sender 0), .own (.sender 0), .own (.sender 0), .own (.sender 0), .send 15,
          .own (.sender 0), .own (.sender 0), .own (.receiver 0), .recv 0 [],
          .own (.receiver 0)] = some p ∧
      ∀ ds p', (client twoPings).alone.exec p ds = some p' → ¬ p'.sender.Ended := by
  have hrun : ((client twoPings).alone.exec init
      [.own (.sender 0), .own (.sender 0), .own (.sender 0), .own (.sender 0), .send 15,
        .own (.sender 0), .own (.sender 0), .own (.receiver 0), .recv 0 [],
        .own (.receiver 0)]).map (fun p => (p.recvError, p.sender, p.inFlight)) =
      some (true, .spin 1, 1) := by decide
  obtain ⟨p, hp, hstate⟩ := Option.map_eq_some_iff.mp hrun
  simp only [Prod.mk.injEq] at hstate
  obtain ⟨herr, hs, hflight⟩ := hstate
  exact ⟨p, hp, (sender_hangs_iff hp herr).mpr ⟨1, hs, by rw [hflight]; decide⟩⟩

/-! ### An error of the sender -/

section Sender

variable {flavor : Flavor} {codec : EchoCodec} {c : CoroConnection} {message : List UInt8}
variable {es : List (Link.Event Thread)} {x : Link Pipeline}

/--
Against either server, the receiver leaves its loop without an error only after the
client has sent all of its requests completely.
-/
theorem all_sent_of_receiver_finished (hserves : Serves codec c cfg.reqBytes message)
    (hrun : (Link.machine (client cfg) flavor codec).exec (Link.init init c) es = some x)
    {i : Nat} (hr : x.client.receiver = .finished i) :
    x.client.sent = encodedStream (requestsUpTo cfg.reqBytes cfg.count.toNat) ∧
      ∀ j rest, x.client.sender ≠ .failed j rest := by
  have hok := ok_exec hserves.freshRead hserves.writeOk hrun
  obtain ⟨ds, hlinked⟩ := Link.linked_exec hserves.freshRead hserves.writeOk rfl rfl hrun
  obtain ⟨k, rs, hk, hdone, hreplied, hids, _, _⟩ :=
    hlinked.headers hserves ⟨_, hok.sentOk⟩ hok.inboxOk rfl
  have hbegun := hok.begun_le
  have hwithin := hok.within
  have htaken := hok.takenOk
  simp only [hr, Receiver.Within, Receiver.taken] at hwithin htaken
  have hlen := hids.length_le
  rw [List.length_map] at hlen
  have hfew := hreplied.length_le
  -- as many responses as requests: all requests have been taken out by the server
  obtain ⟨rfl, hall⟩ : k = x.client.sender.begun ∧ x.client.sender.begun = cfg.count.toNat := by
    rw [List.length_map] at hlen
    omega
  have hsent := hok.sentOk
  have hunsent : x.client.sender.unsent = [] := by
    have heq := congrArg List.length hsent
    rw [List.length_append] at heq
    exact List.length_eq_zero_iff.mp (by simp only [client] at hdone; omega)
  rw [hunsent, List.append_nil, hall] at hsent
  refine ⟨hsent, ?_⟩
  intro j rest hs
  rw [hs, Sender.unsent] at hunsent
  exact hok.unsent_ne j rest hs hunsent

/-- One request with the text `"a"`. -/
def onePing : PipelineConfig :=
  { count := 1, window := 1, reqBytes := [0x0a, 1, 0x61], count_nonneg := Int.one_nonneg
    window_nonneg := Int.one_nonneg, count_lt := by decide }

/-- The synchronous server has answered the only request. -/
theorem all_sent_of_receiver_finished_onePing :
    ∃ x, (Link.machine (client onePing) .sync protoCodec).exec (Link.init init smallConn)
        [.client (.sender 0), .client (.sender 0), .client (.sender 0), .client (.sender 0),
          .send 15, .client (.receiver 0), .read 15, .write 16, .write 5, .recv 21,
          .client (.receiver 0), .client (.receiver 0), .client (.receiver 0),
          .client (.receiver 0), .client (.receiver 0)] = some x ∧
      x.client.receiver = .finished 1 ∧
      x.client.sent = encodedStream (requestsUpTo onePing.reqBytes onePing.count.toNat) := by
  have hrun : ((Link.machine (client onePing) .sync protoCodec).exec (Link.init init smallConn)
      [.client (.sender 0), .client (.sender 0), .client (.sender 0), .client (.sender 0),
        .send 15, .client (.receiver 0), .read 15, .write 16, .write 5, .recv 21,
        .client (.receiver 0), .client (.receiver 0), .client (.receiver 0),
        .client (.receiver 0), .client (.receiver 0)]).map (fun x => x.client.receiver) =
      some (.finished 1) := by decide
  obtain ⟨x, hx, hr⟩ := Option.map_eq_some_iff.mp hrun
  exact ⟨x, hx, hr, (all_sent_of_receiver_finished smallConn_serves hx hr).1⟩

end Sender

end Pipeline

end CRpc
