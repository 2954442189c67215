import CRpc.LinkProgress
import CRpc.PipelineInvariant

/-!
# The pipelined client against the echo servers

The connection of `multiplex_bench.cpp` and either echo server, over a link that
cuts the streams anywhere.  The asynchronous server may answer in any order.

* `pipeline_safe`: in every run, with failures or without, each response finds the
  entry of its own request, each entry is taken out at most once, and the number of
  requests in flight stays within the window.
* `pipeline_completes`: without failures every run ends, and it ends with one
  round-trip time for each of the `count` requests.
-/

namespace CRpc

open Lib Protocol CoroConnection

namespace Pipeline

variable {cfg : PipelineConfig} {flavor : Flavor} {codec : EchoCodec} {c : CoroConnection}
variable {es : List (Link.Event Thread)} {x x' : Link Pipeline} {p p' : Pipeline}
variable {message : List UInt8}

/-! ### Safety -/

theorem ok_step (hserver : x.server.Ok) (hok : x.client.Ok cfg) {e : Link.Event Thread}
    (hstep : (Link.machine (client cfg) flavor codec).step x e = some x') :
    x'.client.Ok cfg := by
  rcases Link.step_cases hserver hstep with
    ⟨d, _, _, hd, rfl⟩ | ⟨_, _, _, _, hsend, _, rfl⟩ | ⟨_, _, _, _, hrecv, rfl⟩ |
      ⟨_, _, _, _, _, rfl⟩ | ⟨_, _, _, _, _, _, _, rfl⟩ | ⟨_, _, _, _, rfl⟩
  · cases d with
    | sender now => exact hok.senderStep hd
    | receiver now => exact hok.receiverStep hd
  · exact hok.send hsend
  · exact hok.recv hrecv
  · exact hok
  · exact hok
  · exact hok

theorem ok_exec (hread : c.FreshRead) (hwrite : c.WriteOk)
    (hrun : (Link.machine (client cfg) flavor codec).exec (Link.init init c) es = some x) :
    x.client.Ok cfg :=
  (Machine.exec_invariant (I := fun x => x.server.Ok ∧ x.client.Ok cfg)
    (fun _ _ _ h hstep => ⟨Link.server_step h.1 hstep, ok_step h.1 h.2 hstep⟩) hrun
    ⟨Live.ok_init hread hwrite, ok_init cfg⟩).2

theorem Ok.begun_le (h : p.Ok cfg) : p.sender.begun ≤ cfg.count.toNat := by
  have hentered := h.entered_le
  have hle : p.sender.begun ≤ p.sender.entered := by
    cases p.sender <;> simp [Sender.begun, Sender.entered]
  omega

/-- The responses a client has taken out of its vector are answers to its requests. -/
structure Known (flavor : Flavor) (p : Pipeline) : Prop where
  nodup : (p.inbox.headers.map RpcHeader.seqId).Nodup
  begun : ∀ id, id ∈ p.inbox.headers.map RpcHeader.seqId → id ∈ seqIds p.sender.begun
  inOrder : flavor = .sync →
    p.inbox.headers.map RpcHeader.seqId <+: seqIds p.sender.begun
  magic : p.inbox.phase ≠ .thrown .badMagic

theorem Known.length_le (h : p.Known flavor) : p.inbox.headers.length ≤ p.sender.begun := by
  have hle := (List.subperm_of_subset h.nodup h.begun).length_le
  rwa [List.length_map, length_seqIds] at hle

theorem known_exec (hserves : Serves codec c cfg.reqBytes message)
    (hrun : (Link.machine (client cfg) flavor codec).exec (Link.init init c) es = some x) :
    x.client.Known flavor := by
  have hok := ok_exec hserves.freshRead hserves.writeOk hrun
  obtain ⟨ds, hlinked⟩ := Link.linked_exec hserves.freshRead hserves.writeOk rfl rfl hrun
  obtain ⟨k, rs, hk, _, hreplied, hids, hmagic, _⟩ :=
    hlinked.headers hserves ⟨_, hok.sentOk⟩ hok.inboxOk rfl
  have hle : k ≤ 2 ^ 32 := by
    have hbegun := hok.begun_le
    have hcount := cfg.count_lt
    omega
  refine ⟨(hreplied.nodup hle).sublist hids.sublist, ?_, ?_, hmagic⟩
  · exact fun id hid => (seqIds_isPrefix_of_le hk).subset (hreplied.subset (hids.subset hid))
  · intro hflavor
    exact (hreplied.inOrder hflavor ▸ hids).trans (seqIds_isPrefix_of_le hk)

/-- Every response looked up has found its entry. -/
def Matched (p : Pipeline) : Prop :=
  p.found = (p.inbox.headers.take p.receiver.looked).map RpcHeader.seqId

/-- The entry of a response that is about to be looked up. -/
theorem Ok.pending_of_known (h : p.Ok cfg) (hknown : p.Known flavor) {i : Nat} {hdr : RpcHeader}
    (hr : p.receiver = .lookup i hdr) (hmatched : p.Matched) :
    ∃ t0, p.pending hdr.seqId = some t0 := by
  obtain ⟨hs, hheaders⟩ := h.looking i hdr hr
  have htaken := h.takenOk
  simp only [hr, Receiver.taken, hheaders, List.length_append, List.length_singleton] at htaken
  rw [Matched, hr, hheaders, Receiver.looked, List.take_left' (by omega)] at hmatched
  have hnodup := hknown.nodup
  rw [hheaders, List.map_append, List.map_singleton, List.nodup_append_comm] at hnodup
  have hrecorded : hdr.seqId ∈ seqIds p.sender.recorded := by
    have hin := hknown.begun hdr.seqId (by rw [hheaders]; simp)
    refine (seqIds_isPrefix_of_le ?_).subset hin
    cases p.sender <;> simp [Sender.begun, Sender.recorded]
  refine Option.isSome_iff_exists.mp ((h.pendingOk hdr.seqId).mpr ⟨hrecorded, ?_⟩)
  rw [hmatched]
  exact (List.nodup_cons.mp hnodup).1

theorem matched_receiverStep (h : p.Ok cfg) (hknown : p.Known flavor) (hmatched : p.Matched)
    {now : Int} (hstep : receiverStep cfg now p = some p') : p'.Matched := by
  rcases receiverStep_cases hstep with
    ⟨i, hr, _, rfl⟩ | ⟨i, hr, _, rfl⟩ | ⟨i, _, hr, _, rfl⟩ | ⟨i, inbox, hr, hadv, rfl⟩ |
      ⟨i, inbox, hdr, hr, hadv, rfl⟩ | ⟨i, hdr, hr, rfl⟩ | ⟨i, hr, rfl⟩
  case inr.inr.inr.inr.inr.inl =>
    obtain ⟨t0, ht0⟩ := h.pending_of_known hknown hr hmatched
    obtain ⟨hs, hheaders⟩ := h.looking i hdr hr
    have htaken := h.takenOk
    simp only [hr, Receiver.taken] at htaken
    rw [Matched, hr, Receiver.looked] at hmatched
    have hone : p.inbox.headers.take (i + 1) = p.inbox.headers.take i ++ [hdr] := by
      rw [List.take_of_length_le (by omega)]
      rw [hheaders, List.length_append, List.length_singleton] at htaken
      rw [hheaders, List.take_left' (by omega)]
    rcases lookup_cases now p i hdr.seqId with ⟨hnone, _⟩ | ⟨t0, _, heq⟩
    · rw [ht0] at hnone
      cases hnone
    · rw [heq, Matched]
      simp only [Receiver.looked]
      rw [hone, List.map_append, List.map_singleton, hmatched]
  all_goals
    rw [Matched, hr] at hmatched
    simp only [Receiver.looked] at hmatched
  · exact hmatched
  · exact hmatched
  · exact hmatched
  · rcases Inbox.advance_cases hadv with ⟨_, _, _, hnext⟩ | ⟨_, _, _, hout, _⟩
    · simp only [Matched, hr, Receiver.looked]
      rcases hnext with ⟨_, rfl⟩ | ⟨_, rfl⟩
      all_goals exact hmatched
    · cases hout
  · rcases Inbox.advance_cases hadv with ⟨_, _, hout, _⟩ | ⟨_, _, _, _, rfl⟩
    · cases hout
    · have htaken := h.takenOk
      simp only [hr, Receiver.taken] at htaken
      simp only [Matched, Receiver.looked]
      rw [List.take_append_of_le_length (by omega)]
      exact hmatched
  · exact hmatched

theorem matched_exec (hserves : Serves codec c cfg.reqBytes message)
    (hrun : (Link.machine (client cfg) flavor codec).exec (Link.init init c) es = some x) :
    x.client.Matched := by
  refine Machine.run_induction (motive := fun _ x => x.client.Matched) rfl ?_ hrun
  intro es x e x' hexec hmatched hstep
  obtain ⟨ds, hlinked⟩ := Link.linked_exec hserves.freshRead hserves.writeOk rfl rfl hexec
  have hok := ok_exec hserves.freshRead hserves.writeOk hexec
  have hknown := known_exec hserves hexec
  rcases Link.step_cases (hlinked.ok hserves.freshRead hserves.writeOk) hstep with
    ⟨d, _, _, hd, rfl⟩ | ⟨_, _, _, _, hsend, _, rfl⟩ | ⟨_, _, _, _, hrecv, rfl⟩ |
      ⟨_, _, _, _, _, rfl⟩ | ⟨_, _, _, _, _, _, _, rfl⟩ | ⟨_, _, _, _, rfl⟩
  · cases d with
    | sender now =>
        rcases senderStep_cases hd with
          ⟨_, _, _, _, rfl⟩ | ⟨_, _, _, rfl⟩ | ⟨_, _, _, rfl⟩ | ⟨_, _, rfl⟩ | ⟨_, _, rfl⟩ |
            ⟨_, _, rfl⟩
        all_goals exact hmatched
    | receiver now => exact matched_receiverStep hok hknown hmatched hd
  · obtain ⟨_, _, _, _, _, ⟨_, rfl⟩ | ⟨_, rfl⟩⟩ := send_cases hsend
    all_goals exact hmatched
  · obtain ⟨_, inbox, _, hinbox, rfl⟩ := recv_cases hrecv
    obtain ⟨_, ⟨_, rfl⟩ | ⟨_, _, rfl⟩⟩ := Inbox.recv_cases hinbox
    all_goals exact hmatched
  · exact hmatched
  · exact hmatched
  · exact hmatched

/--
The pipelined client against either server, under any interleaving, any cuts of the
streams and any failures.  The client never sees a wrong magic; the counter of
requests in flight is between zero and the window; each response looked up has
found the entry of its own request and has given one round-trip time; the entries
left are those of the requests recorded and not yet found; and the synchronous
server has the entries found in the order of the requests.
-/
theorem pipeline_safe (hserves : Serves codec c cfg.reqBytes message)
    (hrun : (Link.machine (client cfg) flavor codec).exec (Link.init init c) es = some x) :
    x.client.inbox.phase ≠ .thrown .badMagic ∧
      0 ≤ x.client.inFlight ∧ x.client.inFlight ≤ cfg.window ∧
      x.client.found =
        (x.client.inbox.headers.take x.client.receiver.looked).map RpcHeader.seqId ∧
      x.client.found.Nodup ∧ x.client.latencies.length = x.client.receiver.looked ∧
      (∀ id, (x.client.pending id).isSome = true ↔
        id ∈ seqIds x.client.sender.recorded ∧ id ∉ x.client.found) ∧
      (flavor = .sync → x.client.found = seqIds x.client.receiver.looked) := by
  have hok := ok_exec hserves.freshRead hserves.writeOk hrun
  have hknown := known_exec hserves hrun
  have hmatched := matched_exec hserves hrun
  have hlooked : x.client.receiver.looked ≤ x.client.inbox.headers.length := by
    rw [hok.takenOk]
    cases x.client.receiver <;> simp [Receiver.looked, Receiver.taken]
  have hreleased : x.client.receiver.released ≤ x.client.inbox.headers.length := by
    rw [hok.takenOk]
    cases x.client.receiver <;> simp [Receiver.released, Receiver.taken]
  have hlength : x.client.found.length = x.client.receiver.looked := by
    rw [hmatched, List.length_map, List.length_take]
    omega
  have hwindow := hok.flight_le
  rw [max_eq_left cfg.window_nonneg] at hwindow
  refine ⟨hknown.magic, ?_, hwindow, hmatched, hok.found_nodup, ?_, hok.pendingOk, ?_⟩
  · have hle := hknown.length_le
    rw [hok.flight]
    omega
  · rw [hok.measured, hlength]
  · intro hflavor
    have hpre : x.client.found <+: seqIds x.client.sender.begun := by
      rw [hmatched]
      exact ((List.take_prefix _ _).map _).trans (hknown.inOrder hflavor)
    have hle := hlooked.trans hknown.length_le
    have heq := List.prefix_of_prefix_length_le hpre (seqIds_isPrefix_of_le hle)
      (by rw [hlength, length_seqIds])
    exact heq.eq_of_length (by rw [hlength, length_seqIds])

/-- Two requests with the text `"a"`, one of them in flight at a time. -/
def twoPings : PipelineConfig :=
  { count := 2, window := 1, reqBytes := [0x0a, 1, 0x61], count_nonneg := intTwo_nonneg
    window_nonneg := Int.one_nonneg, count_lt := two_lt_intMax }

/-- The first response of the asynchronous server has been matched. -/
theorem pipeline_safe_one_response :
    ∃ x, (Link.machine (client twoPings) .async protoCodec).exec (Link.init init smallConn)
        [.client (.sender 0), .client (.sender 0), .client (.sender 1000), .client (.sender 0),
          .send 15, .client (.receiver 0), .read 15, .timer 0, .write 16, .write 5, .recv 21,
          .client (.receiver 0), .client (.receiver 0), .client (.receiver 5000)] = some x ∧
      x.client.latencies.length = x.client.receiver.looked ∧ x.client.found = [0] := by
  have hrun : ((Link.machine (client twoPings) .async protoCodec).exec (Link.init init smallConn)
      [.client (.sender 0), .client (.sender 0), .client (.sender 1000), .client (.sender 0),
        .send 15, .client (.receiver 0), .read 15, .timer 0, .write 16, .write 5, .recv 21,
        .client (.receiver 0), .client (.receiver 0), .client (.receiver 5000)]).map
      (fun x => x.client.found) = some [0] := by decide
  obtain ⟨x, hx, hfound⟩ := Option.map_eq_some_iff.mp hrun
  exact ⟨x, hx, (pipeline_safe smallConn_serves hx).2.2.2.2.2.1, hfound⟩

/-! ### The work ahead -/

/-- The steps of the sender up to its end, with one for each byte. -/
def Sender.ahead (count len : Nat) : Sender → Nat
  | .head i => (count - i) * (len + 6) + 1
  | .spin i => (count - (i + 1)) * (len + 6) + (len + 6)
  | .record i => (count - (i + 1)) * (len + 6) + (len + 5)
  | .increment i => (count - (i + 1)) * (len + 6) + (len + 4)
  | .sending i rest => (count - (i + 1)) * (len + 6) + (rest.length + 2)
  | .finished _ => 0
  | .failed _ _ => 0

/-- The steps of the receiver up to its end, without its calls of `recv`. -/
def Receiver.rest (count : Nat) (phase : ReadPhase) : Receiver → Nat
  | .head i => (count - i) * 5 + 1
  | .reading i => (count - (i + 1)) * 5 + (if phase = .header then 5 else 4)
  | .lookup i _ => (count - (i + 1)) * 5 + 3
  | .release i => (count - (i + 1)) * 5 + 2
  | .finished _ => 0
  | .failed _ => 0

theorem ahead_lt {now : Int} (h : senderStep cfg now p = some p') :
    p'.sender.ahead cfg.count.toNat (headerSize + cfg.reqBytes.length) <
      p.sender.ahead cfg.count.toNat (headerSize + cfg.reqBytes.length) := by
  rcases senderStep_cases h with
    ⟨i, hs, hlt, _, rfl⟩ | ⟨i, hs, _, rfl⟩ | ⟨i, hs, _, rfl⟩ | ⟨i, hs, rfl⟩ | ⟨i, hs, rfl⟩ |
      ⟨i, hs, rfl⟩
  all_goals simp only [hs, Sender.ahead]
  · rw [Endpoint.roundsLeft_mul (show i < cfg.count.toNat by omega)]
    omega
  · omega
  · omega
  · omega
  · rw [length_encoded]
    simp only [request]
    omega
  · simp only [List.length_nil]
    omega

theorem receiverStep_sender {now : Int} (h : receiverStep cfg now p = some p') :
    p'.sender = p.sender := by
  rcases receiverStep_cases h with
    ⟨_, _, _, rfl⟩ | ⟨_, _, _, rfl⟩ | ⟨_, _, _, _, rfl⟩ | ⟨_, _, _, _, rfl⟩ |
      ⟨_, _, _, _, _, rfl⟩ | ⟨i, hdr, _, rfl⟩ | ⟨_, _, rfl⟩
  case inr.inr.inr.inr.inr.inl =>
    rcases lookup_cases now p i hdr.seqId with ⟨_, heq⟩ | ⟨_, _, heq⟩ <;> rw [heq]
  all_goals rfl

theorem rest_lt {now : Int} (h : receiverStep cfg now p = some p') :
    p'.receiver.rest cfg.count.toNat p'.inbox.phase <
      p.receiver.rest cfg.count.toNat p.inbox.phase := by
  rcases receiverStep_cases h with
    ⟨i, hr, hlt, rfl⟩ | ⟨i, hr, _, rfl⟩ | ⟨i, err, hr, _, rfl⟩ | ⟨i, inbox, hr, hadv, rfl⟩ |
      ⟨i, inbox, hdr, hr, hadv, rfl⟩ | ⟨i, hdr, hr, rfl⟩ | ⟨i, hr, rfl⟩
  all_goals simp only [hr, Receiver.rest]
  · rw [Endpoint.roundsLeft_mul (show i < cfg.count.toNat by omega)]
    split <;> omega
  · omega
  · split <;> omega
  · rcases Inbox.advance_cases hadv with ⟨hphase, _, _, hnext⟩ | ⟨_, _, _, hout, _⟩
    · rcases hnext with ⟨_, rfl⟩ | ⟨_, rfl⟩
      all_goals simp [hphase]
    · cases hout
  · split <;> omega
  · rcases lookup_cases now p i hdr.seqId with ⟨_, heq⟩ | ⟨_, _, heq⟩
    all_goals
      rw [heq]
      simp only
      omega
  · omega

theorem threadStep_lt {e : Thread} (h : threadStep cfg p e = some p') :
    p'.sender.ahead cfg.count.toNat (headerSize + cfg.reqBytes.length) <
        p.sender.ahead cfg.count.toNat (headerSize + cfg.reqBytes.length) ∨
      (p'.sender.ahead cfg.count.toNat (headerSize + cfg.reqBytes.length) =
          p.sender.ahead cfg.count.toNat (headerSize + cfg.reqBytes.length) ∧
        p'.receiver.rest cfg.count.toNat p'.inbox.phase <
          p.receiver.rest cfg.count.toNat p.inbox.phase) := by
  cases e with
  | sender now => exact Or.inl (ahead_lt h)
  | receiver now => exact Or.inr ⟨by rw [receiverStep_sender h], rest_lt h⟩

theorem send_lt {n : Int} (h : p.send n = some p') (hpos : 0 < n) (count len : Nat) :
    p'.sender.ahead count len < p.sender.ahead count len := by
  obtain ⟨i, rest, hs, _, hlen, ⟨hfail, _⟩ | ⟨_, rfl⟩⟩ := send_cases h
  · omega
  · simp only [hs, Sender.ahead, List.length_drop]
    omega

theorem recv_sender {n : Int} {bytes : List UInt8} (h : p.recv n bytes = some p') :
    p'.sender = p.sender := by
  obtain ⟨_, _, _, _, rfl⟩ := recv_cases h
  rfl

/-- The work of a client: what it sends comes before what it does with the responses. -/
def work (cfg : PipelineConfig) : (client cfg).Work where
  ahead p := p.sender.ahead cfg.count.toNat (headerSize + cfg.reqBytes.length)
  rest p := p.receiver.rest cfg.count.toNat p.inbox.phase
  step_lt := threadStep_lt
  send_lt h hpos := send_lt h hpos _ _
  recv_eq h _ := congrArg _ (recv_sender h)

/-! ### Runs without failures -/

/-- Neither thread has met an error. -/
structure Sound (p : Pipeline) : Prop where
  sender : ∀ i rest, p.sender ≠ .failed i rest
  receiver : ∀ i, p.receiver ≠ .failed i
  phase : ∀ err, p.inbox.phase ≠ .thrown err

theorem sound_senderStep (h : p.Sound) {now : Int} (hstep : senderStep cfg now p = some p') :
    p'.Sound := by
  rcases senderStep_cases hstep with
    ⟨_, _, _, _, rfl⟩ | ⟨_, _, _, rfl⟩ | ⟨_, _, _, rfl⟩ | ⟨_, _, rfl⟩ | ⟨_, _, rfl⟩ | ⟨_, _, rfl⟩
  all_goals exact ⟨by simp, h.receiver, h.phase⟩

theorem sound_send (h : p.Sound) {n : Int} (hpos : 0 < n) (hsend : p.send n = some p') :
    p'.Sound := by
  obtain ⟨_, _, _, _, _, ⟨hfail, _⟩ | ⟨_, rfl⟩⟩ := send_cases hsend
  · omega
  · exact ⟨by simp, h.receiver, h.phase⟩

theorem sound_recv (h : p.Sound) {n : Int} {bytes : List UInt8} (hpos : 0 < n)
    (hrecv : p.recv n bytes = some p') : p'.Sound := by
  obtain ⟨_, inbox, _, hinbox, rfl⟩ := recv_cases hrecv
  obtain ⟨_, ⟨hend, _⟩ | ⟨_, _, rfl⟩⟩ := Inbox.recv_cases hinbox
  · omega
  · exact ⟨h.sender, h.receiver, h.phase⟩

theorem sound_receiverStep (h : p.Sound) {now : Int} (hstep : receiverStep cfg now p = some p')
    (hmagic : p'.inbox.phase ≠ .thrown .badMagic) : p'.Sound := by
  rcases receiverStep_cases hstep with
    ⟨_, _, _, rfl⟩ | ⟨_, _, _, rfl⟩ | ⟨_, err, _, hthrown, rfl⟩ | ⟨_, inbox, hr, hadv, rfl⟩ |
      ⟨_, inbox, hdr, _, hadv, rfl⟩ | ⟨i, hdr, _, rfl⟩ | ⟨_, _, rfl⟩
  · exact ⟨h.sender, by simp, h.phase⟩
  · exact ⟨h.sender, by simp, h.phase⟩
  · exact absurd hthrown (h.phase err)
  · rcases Inbox.advance_cases hadv with ⟨_, _, _, hnext⟩ | ⟨_, _, _, hout, _⟩
    · rcases hnext with ⟨_, rfl⟩ | ⟨_, rfl⟩
      · exact absurd rfl hmagic
      · exact ⟨h.sender, h.receiver, by simp⟩
    · cases hout
  · rcases Inbox.advance_cases hadv with ⟨_, _, hout, _⟩ | ⟨_, _, _, _, rfl⟩
    · cases hout
    · exact ⟨h.sender, by simp, by simp⟩
  · rcases lookup_cases now p i hdr.seqId with ⟨_, heq⟩ | ⟨_, _, heq⟩
    all_goals
      rw [heq]
      exact ⟨h.sender, by simp, h.phase⟩
  · exact ⟨h.sender, by simp, h.phase⟩

theorem sound_exec (hserves : Serves codec c cfg.reqBytes message)
    (hrun : (Link.machine (client cfg) flavor codec).exec (Link.init init c) es = some x)
    (hgood : ∀ e, e ∈ es → e.Succeeds) : x.client.Sound := by
  refine Machine.run_induction
    (motive := fun es x => (∀ e, e ∈ es → Link.Event.Succeeds e) → x.client.Sound)
    (fun _ => ⟨by simp [Link.init, init], by simp [Link.init, init],
      by simp [Link.init, init, Inbox.empty]⟩) ?_ hrun hgood
  intro es x e x' hexec ih hstep hgood
  have hsound := ih fun e he => hgood e (List.mem_append_left _ he)
  have hlast : e.Succeeds := hgood e (by simp)
  obtain ⟨ds, hlinked⟩ := Link.linked_exec hserves.freshRead hserves.writeOk rfl rfl hexec
  have hmagic := (known_exec hserves
    (Machine.exec_concat_eq_some.mpr ⟨x, hexec, hstep⟩)).magic
  rcases Link.step_cases (hlinked.ok hserves.freshRead hserves.writeOk) hstep with
    ⟨d, _, _, hd, rfl⟩ | ⟨_, _, _, rfl, hsend, _, rfl⟩ | ⟨_, _, rfl, _, hrecv, rfl⟩ |
      ⟨_, _, _, _, _, rfl⟩ | ⟨_, _, _, _, _, _, _, rfl⟩ | ⟨_, _, _, _, rfl⟩
  · cases d with
    | sender now => exact sound_senderStep hsound hd
    | receiver now => exact sound_receiverStep hsound hd hmagic
  · exact sound_send hsound hlast hsend
  · exact sound_recv hsound hlast hrecv
  · exact hsound
  · exact hsound
  · exact hsound

/-! ### Where nothing can go on -/

theorem Sound.sender_blocked (h : p.Sound) (hstep : senderStep cfg 0 p = none)
    (hsend : p.send 1 = none) :
    (∃ i, p.sender = .spin i ∧ cfg.window ≤ p.inFlight) ∨ ∃ i, p.sender = .finished i := by
  unfold senderStep at hstep
  split at hstep
  next i hs =>
    split at hstep
    · cases hstep
    · cases hstep
  next i hs =>
    split at hstep
    next hfull => exact Or.inl ⟨i, hs, hfull⟩
    · cases hstep
  · cases hstep
  · cases hstep
  next i rest hs =>
    -- a call of `send` is outstanding, and it may take one byte
    split at hstep
    · cases hstep
    next hrest =>
      have hlen : (1 : Int) ≤ rest.length := by
        have := List.length_pos_iff.mpr hrest
        omega
      simp [send, hs, hrest, hlen, sendAll] at hsend
  next i hs => exact Or.inr ⟨i, hs⟩
  next i rest hs => exact absurd hs (h.sender i rest)

theorem Sound.receiver_blocked (h : p.Sound) (hstep : receiverStep cfg 0 p = none) :
    (∃ i need, p.receiver = .reading i ∧ p.inbox.need = some need ∧ p.inbox.buf.length < need) ∨
      ∃ i, p.receiver = .finished i := by
  cases hr : p.receiver with
  | head i =>
      simp only [receiverStep, hr] at hstep
      split at hstep <;> cases hstep
  | reading i =>
      refine Or.inl ⟨i, ?_⟩
      obtain ⟨need, hneed⟩ := Inbox.need_of_not_thrown h.phase
      refine ⟨need, rfl, hneed, not_le.mp fun hlen => ?_⟩
      obtain ⟨inbox, out, hadv⟩ := Inbox.advance_isSome hneed hlen
      cases hphase : p.inbox.phase with
      | thrown err => exact h.phase err hphase
      | header => cases out <;> simp [receiverStep, hr, hphase, hadv] at hstep
      | payload hdr => cases out <;> simp [receiverStep, hr, hphase, hadv] at hstep
  | lookup i hdr => simp [receiverStep, hr] at hstep
  | release i => simp [receiverStep, hr] at hstep
  | finished i => exact Or.inr ⟨i, rfl⟩
  | failed i => exact absurd hr (h.receiver i)

theorem recv_one {i need : Nat} (hr : p.receiver = .reading i) (hneed : p.inbox.need = some need)
    (hshort : p.inbox.buf.length < need) (b : UInt8) : ∃ p', p.recv 1 [b] = some p' := by
  simp [recv, hr, Inbox.recv, hneed, hshort, recvExact]

/-- A client whose link is at rest has ended both threads. -/
theorem finished_of_stuck (hserves : Serves codec c cfg.reqBytes message)
    (hwindow : 0 < cfg.window)
    (hfits : Live.Fits codec c (requestsUpTo cfg.reqBytes cfg.count.toNat))
    (hrun : (Link.machine (client cfg) flavor codec).exec (Link.init init c) es = some x)
    (hgood : ∀ e, e ∈ es → e.Succeeds)
    (hstuck : ∀ e, e.Succeeds → (Link.machine (client cfg) flavor codec).step x e = none) :
    x.client.sender = .finished cfg.count.toNat ∧
      x.client.receiver = .finished cfg.count.toNat := by
  have hok := ok_exec hserves.freshRead hserves.writeOk hrun
  have hsound := sound_exec hserves hrun hgood
  obtain ⟨ds, hlinked⟩ := Link.linked_exec hserves.freshRead hserves.writeOk rfl rfl hrun
  have hsender := hsound.sender_blocked
    (Option.map_eq_none_iff.mp (hstuck (.client (.sender 0)) trivial))
    (Option.map_eq_none_iff.mp (hstuck (.send 1) Int.one_pos))
  have hreceiver := hsound.receiver_blocked
    (Option.map_eq_none_iff.mp (hstuck (.client (.receiver 0)) trivial))
  have hbegun := hok.begun_le
  have hentered := hok.entered_le
  have hwithin := hok.within
  have hflight := hok.flight
  have htaken := hok.takenOk
  have hsent := hok.sentOk
  rcases hreceiver with ⟨i, need, hr, hneed, hshort⟩ | ⟨i, hr⟩
  · -- every request begun is answered, so that the window has room and the loop goes on
    exfalso
    have hunsent : x.client.sender.unsent = [] := by
      rcases hsender with ⟨j, hs, _⟩ | ⟨j, hs⟩ <;> rw [hs] <;> rfl
    rw [hunsent, List.append_nil] at hsent
    have hfits' := hfits.subset (take_requestsUpTo cfg.reqBytes hbegun ▸ List.take_subset _ _)
    have hall := hlinked.all_taken hserves hfits' hgood hsent hstuck hok.inboxOk rfl hneed hshort
      (recv_one hr hneed hshort)
    simp only [hr, Receiver.Within, Receiver.taken, Receiver.released] at hwithin htaken hflight
    rcases hsender with ⟨j, hs, hfull⟩ | ⟨j, hs⟩
    · omega
    · have hended := hok.ended j hs
      simp only [hwithin.2, Bool.false_eq_true, or_false] at hended
      simp only [hs, Sender.begun] at hall
      omega
  · simp only [hr, Receiver.Within, Receiver.taken] at hwithin htaken
    have hle := (known_exec hserves hrun).length_le
    obtain rfl : i = cfg.count.toNat := by omega
    refine ⟨?_, hr⟩
    rcases hsender with ⟨j, hs, _⟩ | ⟨j, hs⟩
    · simp only [hs, Sender.begun, Sender.entered] at hle hentered
      omega
    · simp only [hs, Sender.begun] at hle hbegun
      rw [hs, show j = cfg.count.toNat by omega]

/--
Without failures every run of the pipelined client against either server ends, and
where it ends both threads have left their loops, each of the `count` requests has
given one round-trip time, and no request is left in flight or pending.
-/
theorem pipeline_completes (hserves : Serves codec c cfg.reqBytes message)
    (hwindow : 0 < cfg.window)
    (hfits : Live.Fits codec c (requestsUpTo cfg.reqBytes cfg.count.toNat)) :
    (∀ f : ℕ → Link Pipeline, f 0 = Link.init init c → ¬ ∀ n, ∃ e, e.Succeeds ∧
      (Link.machine (client cfg) flavor codec).step (f n) e = some (f (n + 1))) ∧
    ∀ es x, (Link.machine (client cfg) flavor codec).exec (Link.init init c) es = some x →
      (∀ e, e ∈ es → e.Succeeds) →
      (∀ e, e.Succeeds → (Link.machine (client cfg) flavor codec).step x e = none) →
      x.client.sender = .finished cfg.count.toNat ∧
        x.client.receiver = .finished cfg.count.toNat ∧
        (x.client.latencies.length : Int) = cfg.count ∧ x.client.inFlight = 0 ∧
        ∀ id, x.client.pending id = none := by
  refine ⟨fun f => Link.no_infinite_run (work cfg) hserves.freshRead hserves.writeOk f, ?_⟩
  intro es x hrun hgood hstuck
  obtain ⟨hs, hr⟩ := finished_of_stuck hserves hwindow hfits hrun hgood hstuck
  have hok := ok_exec hserves.freshRead hserves.writeOk hrun
  have hfound : x.client.found.length = cfg.count.toNat := by
    rw [matched_exec hserves hrun, hr, Receiver.looked, List.length_map, List.length_take,
      hok.takenOk, hr, Receiver.taken, min_self]
  refine ⟨hs, hr, ?_, ?_, ?_⟩
  · rw [hok.measured, hfound]
    exact Int.toNat_of_nonneg cfg.count_nonneg
  · rw [hok.flight, hs, hr, Sender.begun, Receiver.released, sub_self]
  · -- the entries found are all the entries recorded
    intro id
    by_contra hsome
    obtain ⟨hin, hout⟩ := (hok.pendingOk id).mp (Option.isSome_iff_ne_none.mpr hsome)
    have hlen := (List.subperm_of_subset (List.nodup_cons.mpr ⟨hout, hok.found_nodup⟩)
      (List.cons_subset.mpr ⟨hin, hok.found_mem⟩)).length_le
    rw [hs, Sender.recorded, length_seqIds, List.length_cons, hfound] at hlen
    omega

theorem pipeline_completes_twoPings :
    (¬ ∃ f : ℕ → Link Pipeline, f 0 = Link.init init smallConn ∧ ∀ n, ∃ e, e.Succeeds ∧
      (Link.machine (client twoPings) .async protoCodec).step (f n) e = some (f (n + 1))) ∧
    ∀ es x, (Link.machine (client twoPings) .async protoCodec).exec (Link.init init smallConn) es =
        some x → (∀ e, e ∈ es → e.Succeeds) →
      (∀ e, e.Succeeds → (Link.machine (client twoPings) .async protoCodec).step x e = none) →
      x.client.latencies.length = 2 := by
  obtain ⟨hends, hdone⟩ := pipeline_completes smallConn_serves
    (by decide : 0 < twoPings.window) smallConn_fits_two
  refine ⟨fun ⟨f, hinit, hf⟩ => hends f hinit hf, fun es x hrun hgood hstuck => ?_⟩
  exact Int.ofNat_inj.mp (hdone es x hrun hgood hstuck).2.2.1

end Pipeline

end CRpc
