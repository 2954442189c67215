import CRpc.LinkProgress
import CRpc.PingPong

/-!
# The client with one request at a time against the echo servers

`latency_bench.cpp` does not look at the sequence number of a response.  Against
either server it need not: between two rounds nothing is on the way in either
direction, so that the response of a round is that of its request.

* `ping_pong_in_step`: in every run, with failures or without, the responses taken
  are those of the requests in order, the loop never meets a wrong magic, and a
  round begins with an empty vector and an empty link.
* `ping_pong_completes`: without failures every run ends, with one round-trip time
  for each of the `count` requests.
-/

namespace CRpc

open Lib Protocol CoroConnection

namespace PingPong

variable {cfg : PingPongConfig} {flavor : Flavor} {codec : EchoCodec} {c : CoroConnection}
variable {es : List (Link.Event Int)} {x x' : Link PingPong} {p p' : PingPong}
variable {message : List UInt8} {now : Int}

/-! ### Rounds in step -/

theorem ok_step (hserver : x.server.Ok) (hok : x.client.Ok cfg) {e : Link.Event Int}
    (hstep : (Link.machine (client cfg) flavor codec).step x e = some x') :
    x'.client.Ok cfg := by
  rcases Link.step_cases hserver hstep with
    ⟨_, _, _, hd, rfl⟩ | ⟨_, _, _, _, hsend, _, rfl⟩ | ⟨_, _, _, _, hrecv, rfl⟩ |
      ⟨_, _, _, _, _, rfl⟩ | ⟨_, _, _, _, _, _, _, rfl⟩ | ⟨_, _, _, _, rfl⟩
  · exact hok.step hd
  · exact hok.send hsend
  · exact hok.recv hrecv
  · exact hok
  · exact hok
  · exact hok

theorem ok_exec (hread : c.FreshRead) (hwrite : c.WriteOk)
    (hrun : (Link.machine (client cfg) flavor codec).exec (Link.init init c) es = some x) :
    x.client.Ok cfg :=
  (Machine.exec_invariant (I := fun x => x.server.Ok ∧ x.client.Ok cfg)
    (fun _ _ _ h hstep => ⟨Link.server_step h.1 hstep, ok_step h.1 h.2 hstep⟩) hrun
    ⟨Live.ok_init hread hwrite, ok_init cfg⟩).2

/-- The responses taken are answers to requests sent, none of them twice. -/
structure Known (x : Link PingPong) : Prop where
  nodup : (x.client.inbox.headers.map RpcHeader.seqId).Nodup
  begun : ∀ id, id ∈ x.client.inbox.headers.map RpcHeader.seqId →
    id ∈ seqIds x.client.phase.begun
  magic : x.client.inbox.phase ≠ .thrown .badMagic
  quiet : ∀ i, x.client.phase = .head i →
    x.client.inbox.buf = [] ∧ x.toServer = [] ∧ x.toClient = []

theorem known_exec (hserves : Serves codec c cfg.reqBytes message)
    (hrun : (Link.machine (client cfg) flavor codec).exec (Link.init init c) es = some x) :
    Known x := by
  have hok := ok_exec hserves.freshRead hserves.writeOk hrun
  obtain ⟨ds, hlinked⟩ := Link.linked_exec hserves.freshRead hserves.writeOk rfl rfl hrun
  obtain ⟨k, rs, hk, hdone, hreplied, hids, hmagic, hquiet⟩ :=
    hlinked.headers hserves hok.sent_isPrefix hok.inboxOk rfl
  have hle : k ≤ 2 ^ 32 := by
    have hbegun := hok.begun_le
    have hcount := cfg.count_lt
    omega
  refine ⟨(hreplied.nodup hle).sublist hids.sublist, ?_, hmagic, ?_⟩
  · exact fun id hid => (seqIds_isPrefix_of_le hk).subset (hreplied.subset (hids.subset hid))
  · -- as many responses taken as requests sent
    intro i hp
    have hwithin := hok.within
    have htaken := hok.takenOk
    simp only [hp, Phase.Within, Phase.done, Phase.begun] at hwithin htaken hk
    have hlen := hids.length_le
    rw [List.length_map, List.length_map] at hlen
    have hfew := hreplied.length_le
    obtain rfl : k = i := by omega
    obtain ⟨hbuf, hclient⟩ := hquiet (by omega) hwithin.2.1
    refine ⟨hbuf, ?_, hclient⟩
    simp only [client, hwithin.2.2] at hdone
    exact List.length_eq_zero_iff.mp (by omega)

/-- The responses taken are those of the first requests, in order. -/
def InOrder (p : PingPong) : Prop :=
  p.inbox.headers.map RpcHeader.seqId = seqIds p.phase.done

/-- A response that differs from the ones before it is that of the round. -/
theorem inOrder_step (hknown : Known x') (horder : x.client.InOrder)
    (hstep : step cfg now x.client = some x'.client) :
    x'.client.InOrder := by
  rw [InOrder] at horder ⊢
  rcases step_cases hstep with
    ⟨i, hp, _, heq⟩ | ⟨i, hp, _, heq⟩ | ⟨i, t0, hp, heq⟩ | ⟨i, t0, err, hp, _, heq⟩ |
      ⟨i, t0, inbox, hp, hadv, heq⟩ | ⟨i, t0, inbox, hdr, hp, hadv, heq⟩
  all_goals
    rw [hp] at horder
    simp only [Phase.done] at horder
  · rw [heq]
    exact horder
  · rw [heq]
    exact horder
  · rw [heq]
    exact horder
  · rw [heq]
    exact horder
  · rcases Inbox.advance_cases hadv with ⟨_, _, _, hnext⟩ | ⟨_, _, _, hout, _⟩
    · rw [heq, hp]
      rcases hnext with ⟨_, rfl⟩ | ⟨_, rfl⟩
      all_goals exact horder
    · cases hout
  · rcases Inbox.advance_cases hadv with ⟨_, _, hout, _⟩ | ⟨hdr', _, _, hout, hnext⟩
    · cases hout
    · have hheaders : x'.client.inbox.headers.map RpcHeader.seqId =
          seqIds i ++ [hdr'.seqId] := by
        rw [heq, hnext, List.map_append, List.map_singleton, horder]
      have hnodup := hknown.nodup
      have hbegun := hknown.begun hdr'.seqId (by rw [hheaders]; simp)
      rw [hheaders, List.nodup_append_comm] at hnodup
      rw [heq, Phase.begun, seqIds_succ, List.mem_append, List.mem_singleton] at hbegun
      rw [hheaders, heq, Phase.done, seqIds_succ]
      rcases hbegun with hbefore | hnow
      · exact absurd hbefore (List.nodup_cons.mp hnodup).1
      · rw [hnow]

theorem inOrder_exec (hserves : Serves codec c cfg.reqBytes message)
    (hrun : (Link.machine (client cfg) flavor codec).exec (Link.init init c) es = some x) :
    x.client.InOrder := by
  refine Machine.run_induction (motive := fun _ x => x.client.InOrder) rfl ?_ hrun
  intro es x e x' hexec horder hstep
  obtain ⟨ds, hlinked⟩ := Link.linked_exec hserves.freshRead hserves.writeOk rfl rfl hexec
  have hknown := known_exec hserves (Machine.exec_concat_eq_some.mpr ⟨x, hexec, hstep⟩)
  rcases Link.step_cases (hlinked.ok hserves.freshRead hserves.writeOk) hstep with
    ⟨_, _, _, hd, rfl⟩ | ⟨_, _, _, _, hsend, _, rfl⟩ | ⟨_, _, _, _, hrecv, rfl⟩ |
      ⟨_, _, _, _, _, rfl⟩ | ⟨_, _, _, _, _, _, _, rfl⟩ | ⟨_, _, _, _, rfl⟩
  · exact inOrder_step hknown horder hd
  · obtain ⟨_, _, _, hp, _, _, ⟨_, rfl⟩ | ⟨_, rfl⟩⟩ := send_cases hsend
    all_goals
      rw [InOrder, hp] at horder
      exact horder
  · obtain ⟨_, _, inbox, _, hinbox, rfl⟩ := recv_cases hrecv
    obtain ⟨_, ⟨_, rfl⟩ | ⟨_, _, rfl⟩⟩ := Inbox.recv_cases hinbox
    all_goals exact horder
  · exact horder
  · exact horder
  · exact horder

/--
The client with one request at a time against either server, under any cuts of the
streams and any failures.  The responses taken are those of the first requests in
order, one round-trip time is recorded for each, and a round begins with nothing in
the staging vector or on the way.  The error recorded is never the one for a wrong
magic.
-/
theorem ping_pong_in_step (hserves : Serves codec c cfg.reqBytes message)
    (hrun : (Link.machine (client cfg) flavor codec).exec (Link.init init c) es = some x) :
    x.client.inbox.headers.map RpcHeader.seqId = seqIds x.client.latencies.length ∧
      (∀ i, x.client.phase = .head i →
        x.client.latencies.length = i ∧
          x.client.inbox.buf = [] ∧ x.toServer = [] ∧ x.toClient = []) ∧
      x.client.inbox.phase ≠ .thrown .badMagic ∧
      (x.client.error = "" ∨ x.client.error = "send failed" ∨
        x.client.error = "recv failed / connection closed") := by
  have hok := ok_exec hserves.freshRead hserves.writeOk hrun
  have hknown := known_exec hserves hrun
  refine ⟨?_, ?_, hknown.magic, ?_⟩
  · rw [inOrder_exec hserves hrun, hok.measured]
  · intro i hp
    refine ⟨?_, hknown.quiet i hp⟩
    rw [hok.measured, hp, Phase.done]
  · cases hp : x.client.phase with
    | failed i err =>
        right
        have hwithin := hok.within
        simp only [hp, Phase.Within] at hwithin
        rw [error, hp]
        cases err with
        | sendFailed => exact Or.inl rfl
        | recvFailed => exact Or.inr rfl
        | badMagic => exact absurd hwithin.2.1 (by simp [hknown.magic])
    | head i => exact Or.inl (by rw [error, hp])
    | sending i t0 rest => exact Or.inl (by rw [error, hp])
    | reading i t0 => exact Or.inl (by rw [error, hp])
    | finished i => exact Or.inl (by rw [error, hp])

/-- Two rounds with the text `"a"`. -/
def twoRounds : PingPongConfig :=
  { count := 2, reqBytes := [0x0a, 1, 0x61], count_nonneg := intTwo_nonneg
    count_lt := two_lt_intMax }

/-- The synchronous server has answered the first of two requests. -/
theorem ping_pong_in_step_one_round :
    ∃ x, (Link.machine (client twoRounds) .sync protoCodec).exec (Link.init init smallConn)
        [.client 0, .send 15, .client 0, .read 15, .write 16, .write 5, .recv 21, .client 0,
          .client 5000] = some x ∧
      x.client.phase = .head 1 ∧ x.client.inbox.buf = [] ∧ x.toServer = [] ∧ x.toClient = [] := by
  have hrun : ((Link.machine (client twoRounds) .sync protoCodec).exec (Link.init init smallConn)
      [.client 0, .send 15, .client 0, .read 15, .write 16, .write 5, .recv 21, .client 0,
        .client 5000]).map (fun x => x.client.phase) = some (.head 1) := by decide
  obtain ⟨x, hx, hp⟩ := Option.map_eq_some_iff.mp hrun
  exact ⟨x, hx, hp, ((ping_pong_in_step smallConn_serves hx).2.1 1 hp).2⟩

/-! ### Runs without failures -/

/-- The loop has met no error. -/
structure Sound (p : PingPong) : Prop where
  phase : ∀ i err, p.phase ≠ .failed i err
  inbox : ∀ err, p.inbox.phase ≠ .thrown err

theorem sound_step (h : p.Sound) (hstep : step cfg now p = some p')
    (hmagic : p'.inbox.phase ≠ .thrown .badMagic) : p'.Sound := by
  rcases step_cases hstep with
    ⟨_, _, _, rfl⟩ | ⟨_, _, _, rfl⟩ | ⟨_, _, _, rfl⟩ | ⟨_, _, err, _, hthrown, rfl⟩ |
      ⟨_, _, inbox, _, hadv, rfl⟩ | ⟨_, _, inbox, hdr, _, hadv, rfl⟩
  · exact ⟨by simp, h.inbox⟩
  · exact ⟨by simp, h.inbox⟩
  · exact ⟨by simp, h.inbox⟩
  · exact absurd hthrown (h.inbox err)
  · rcases Inbox.advance_cases hadv with ⟨_, _, _, hnext⟩ | ⟨_, _, _, hout, _⟩
    · rcases hnext with ⟨_, rfl⟩ | ⟨_, rfl⟩
      · exact absurd rfl hmagic
      · exact ⟨h.phase, by simp⟩
    · cases hout
  · rcases Inbox.advance_cases hadv with ⟨_, _, hout, _⟩ | ⟨_, _, _, _, rfl⟩
    · cases hout
    · exact ⟨by simp, by simp⟩

theorem sound_exec (hserves : Serves codec c cfg.reqBytes message)
    (hrun : (Link.machine (client cfg) flavor codec).exec (Link.init init c) es = some x)
    (hgood : ∀ e, e ∈ es → e.Succeeds) : x.client.Sound := by
  refine Machine.run_induction
    (motive := fun es x => (∀ e, e ∈ es → Link.Event.Succeeds e) → x.client.Sound)
    (fun _ => ⟨by simp [Link.init, init], by simp [Link.init, init, Inbox.empty]⟩) ?_ hrun hgood
  intro es x e x' hexec ih hstep hgood
  have hsound := ih fun e he => hgood e (List.mem_append_left _ he)
  have hlast : e.Succeeds := hgood e (by simp)
  obtain ⟨ds, hlinked⟩ := Link.linked_exec hserves.freshRead hserves.writeOk rfl rfl hexec
  have hmagic := (known_exec hserves
    (Machine.exec_concat_eq_some.mpr ⟨x, hexec, hstep⟩)).magic
  rcases Link.step_cases (hlinked.ok hserves.freshRead hserves.writeOk) hstep with
    ⟨_, _, _, hd, rfl⟩ | ⟨n, _, _, rfl, hsend, _, rfl⟩ | ⟨n, _, rfl, _, hrecv, rfl⟩ |
      ⟨_, _, _, _, _, rfl⟩ | ⟨_, _, _, _, _, _, _, rfl⟩ | ⟨_, _, _, _, rfl⟩
  · exact sound_step hsound hd hmagic
  · have hpos : 0 < n := hlast
    obtain ⟨_, _, _, _, _, _, ⟨hfail, _⟩ | ⟨_, rfl⟩⟩ := send_cases hsend
    · omega
    · exact ⟨by simp, hsound.inbox⟩
  · have hpos : 0 < n := hlast
    obtain ⟨_, _, inbox, _, hinbox, rfl⟩ := recv_cases hrecv
    obtain ⟨_, ⟨hend, _⟩ | ⟨_, _, rfl⟩⟩ := Inbox.recv_cases hinbox
    · omega
    · exact ⟨hsound.phase, hsound.inbox⟩
  · exact hsound
  · exact hsound
  · exact hsound

/-- Where the loop cannot go on it has ended or waits for bytes. -/
theorem Sound.blocked (h : p.Sound) (hstep : step cfg 0 p = none) (hsend : p.send 1 = none) :
    (∃ i, p.phase = .finished i) ∨
      ∃ i t0 need, p.phase = .reading i t0 ∧ p.inbox.need = some need ∧
        p.inbox.buf.length < need := by
  cases hp : p.phase with
  | head i =>
      simp only [step, hp] at hstep
      split at hstep <;> cases hstep
  | sending i t0 rest =>
      rcases eq_or_ne rest [] with rfl | hrest
      · simp [step, hp] at hstep
      · have hlen : (1 : Int) ≤ rest.length := by
          have := List.length_pos_iff.mpr hrest
          omega
        simp [send, hp, hrest, hlen, sendAll] at hsend
  | reading i t0 =>
      right
      obtain ⟨need, hneed⟩ := Inbox.need_of_not_thrown h.inbox
      refine ⟨i, t0, need, rfl, hneed, not_le.mp fun hlen => ?_⟩
      obtain ⟨inbox, out, hadv⟩ := Inbox.advance_isSome hneed hlen
      cases hphase : p.inbox.phase with
      | thrown err => exact h.inbox err hphase
      | header => cases out <;> simp [step, hp, hphase, hadv] at hstep
      | payload hdr => cases out <;> simp [step, hp, hphase, hadv] at hstep
  | finished i => exact Or.inl ⟨i, rfl⟩
  | failed i err => exact absurd hp (h.phase i err)

theorem recv_one {i need : Nat} {t0 : Int} (hp : p.phase = .reading i t0)
    (hneed : p.inbox.need = some need) (hshort : p.inbox.buf.length < need) (b : UInt8) :
    ∃ p', p.recv 1 [b] = some p' := by
  simp [recv, hp, Inbox.recv, hneed, hshort, recvExact]

/--
Without failures every run of the client against either server ends, and where it
ends the loop is left after `count` rounds, each with its round-trip time.
-/
theorem ping_pong_completes (hserves : Serves codec c cfg.reqBytes message)
    (hfits : Live.Fits codec c (requestsUpTo cfg.reqBytes cfg.count.toNat)) :
    (∀ f : ℕ → Link PingPong, f 0 = Link.init init c → ¬ ∀ n, ∃ e, e.Succeeds ∧
      (Link.machine (client cfg) flavor codec).step (f n) e = some (f (n + 1))) ∧
    ∀ es x, (Link.machine (client cfg) flavor codec).exec (Link.init init c) es = some x →
      (∀ e, e ∈ es → e.Succeeds) →
      (∀ e, e.Succeeds → (Link.machine (client cfg) flavor codec).step x e = none) →
      x.client.phase = .finished cfg.count.toNat ∧
        (x.client.latencies.length : Int) = cfg.count := by
  refine ⟨fun f => Link.no_infinite_run (work cfg) hserves.freshRead hserves.writeOk f, ?_⟩
  intro es x hrun hgood hstuck
  have hok := ok_exec hserves.freshRead hserves.writeOk hrun
  have hwithin := hok.within
  obtain ⟨ds, hlinked⟩ := Link.linked_exec hserves.freshRead hserves.writeOk rfl rfl hrun
  have hblocked := (sound_exec hserves hrun hgood).blocked
    (Option.map_eq_none_iff.mp (hstuck (.client 0) trivial))
    (Option.map_eq_none_iff.mp (hstuck (.send 1) Int.one_pos))
  rcases hblocked with ⟨i, hp⟩ | ⟨i, t0, need, hp, hneed, hshort⟩
  · simp only [hp, Phase.Within] at hwithin
    obtain rfl : i = cfg.count.toNat := by omega
    refine ⟨hp, ?_⟩
    rw [hok.measured, hp, Phase.done]
    exact Int.toNat_of_nonneg cfg.count_nonneg
  · -- the response of the round must have been taken
    exfalso
    have htaken := hok.takenOk
    simp only [hp, Phase.Within, Phase.done] at hwithin htaken
    have hle : i + 1 ≤ cfg.count.toNat := by omega
    have hfits' := hfits.subset (take_requestsUpTo cfg.reqBytes hle ▸ List.take_subset _ _)
    have hall := hlinked.all_taken hserves hfits' hgood hwithin.2 hstuck hok.inboxOk rfl hneed
      hshort (recv_one hp hneed hshort)
    omega

theorem ping_pong_completes_twoRounds :
    (¬ ∃ f : ℕ → Link PingPong, f 0 = Link.init init smallConn ∧ ∀ n, ∃ e, e.Succeeds ∧
      (Link.machine (client twoRounds) .async protoCodec).step (f n) e = some (f (n + 1))) ∧
    ∀ es x, (Link.machine (client twoRounds) .async protoCodec).exec (Link.init init smallConn) es =
        some x → (∀ e, e ∈ es → e.Succeeds) →
      (∀ e, e.Succeeds → (Link.machine (client twoRounds) .async protoCodec).step x e = none) →
      x.client.latencies.length = 2 := by
  have hfits : Live.Fits protoCodec smallConn
      (requestsUpTo twoRounds.reqBytes twoRounds.count.toNat) := smallConn_fits_two
  obtain ⟨hends, hdone⟩ := ping_pong_completes smallConn_serves hfits
  refine ⟨fun ⟨f, hinit, hf⟩ => hends f hinit hf, fun es x hrun hgood hstuck => ?_⟩
  exact Int.ofNat_inj.mp (hdone es x hrun hgood hstuck).2

end PingPong

end CRpc
