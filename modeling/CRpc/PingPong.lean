import CRpc.Lib.Endpoint
import CRpc.ResponseReader

/-!
# The client with one request at a time

Model of the loop of `latency_bench.cpp`, which is the loop of `WorkerThread` in
`latency_bench_mt.cpp` behind its start signal.  A round sends one request, takes
one response out of the staging vector and records the round-trip time; the
sequence number of the response is not looked at.

The loop is cut at its calls of `send` and `recv` and at its readings of the
clock.  `PingPong.Ok` holds in front of any peer.
-/

namespace CRpc

open Lib Protocol

/--
The arguments of a run: an `int` and the serialised `EchoRequest`.  A negative
`int` makes `reserve` throw before the loop.
-/
structure PingPongConfig where
  count : Int
  reqBytes : List UInt8
  count_nonneg : 0 ≤ count
  count_lt : count < 2 ^ 31

namespace PingPong

/-- Where the loop is, in the round `i` that began at `t0`. -/
inductive Phase where
  | head (i : Nat)
  | sending (i : Nat) (t0 : Int) (rest : List UInt8)
  | reading (i : Nat) (t0 : Int)
  | finished (i : Nat)
  | failed (i : Nat) (err : ClientError)
deriving DecidableEq, Repr

end PingPong

/-- The client: its loop, the staging vector and the round-trip times. -/
structure PingPong where
  phase : PingPong.Phase
  inbox : Inbox
  latencies : List Int
  /-- History: the bytes `send` has taken. -/
  sent : List UInt8

namespace PingPong

def init : PingPong := { phase := .head 0, inbox := .empty, latencies := [], sent := [] }

/-- The text in `ThreadResult::error`, empty without an error. -/
def error (p : PingPong) : String :=
  match p.phase with
  | .failed _ err => err.what
  | _ => ""

/-- The loop between its calls, at a time `now` in nanoseconds. -/
def step (cfg : PingPongConfig) (now : Int) (p : PingPong) : Option PingPong :=
  match p.phase with
  | .head i =>
      if (i : Int) < cfg.count then
        some { p with phase := .sending i now (encoded (request cfg.reqBytes i)) }
      else some { p with phase := .finished i }
  | .sending i t0 rest => if rest = [] then some { p with phase := .reading i t0 } else none
  | .reading i t0 =>
      match p.inbox.phase, p.inbox.advance with
      | .thrown err, _ => some { p with phase := .failed i err }
      | _, some (inbox, none) => some { p with inbox := inbox }
      | _, some (inbox, some _) =>
          some { p with
            inbox := inbox
            latencies := p.latencies ++ [(now - t0).tdiv 1000]
            phase := .head (i + 1) }
      | _, none => none
  | .finished _ => none
  | .failed _ _ => none

/-- `::send` has returned `n`. -/
def send (p : PingPong) (n : Int) : Option PingPong :=
  match p.phase with
  | .sending i t0 rest =>
      if rest ≠ [] ∧ n ≤ rest.length then
        match sendAll rest n with
        | .ok rest' =>
            some { p with phase := .sending i t0 rest', sent := p.sent ++ rest.take n.toNat }
        | .error err => some { p with phase := .failed i err }
      else none
  | _ => none

/-- `::recv` has returned `n`. -/
def recv (p : PingPong) (n : Int) (bytes : List UInt8) : Option PingPong :=
  match p.phase with
  | .reading _ _ => (p.inbox.recv 4096 n bytes).map fun inbox => { p with inbox := inbox }
  | _ => none

/-! ### What the steps can do -/

variable {cfg : PingPongConfig} {p p' : PingPong} {now : Int}

theorem step_cases (h : step cfg now p = some p') :
    (∃ i : Nat, p.phase = .head i ∧ (i : Int) < cfg.count ∧
      p' = { p with phase := .sending i now (encoded (request cfg.reqBytes i)) }) ∨
    (∃ i : Nat, p.phase = .head i ∧ cfg.count ≤ i ∧ p' = { p with phase := .finished i }) ∨
    (∃ i t0, p.phase = .sending i t0 [] ∧ p' = { p with phase := .reading i t0 }) ∨
    (∃ i t0 err, p.phase = .reading i t0 ∧ p.inbox.phase = .thrown err ∧
      p' = { p with phase := .failed i err }) ∨
    (∃ i t0 inbox, p.phase = .reading i t0 ∧ p.inbox.advance = some (inbox, none) ∧
      p' = { p with inbox := inbox }) ∨
    (∃ i t0 inbox hdr, p.phase = .reading i t0 ∧ p.inbox.advance = some (inbox, some hdr) ∧
      p' = { p with
        inbox := inbox
        latencies := p.latencies ++ [(now - t0).tdiv 1000]
        phase := .head (i + 1) }) := by
  unfold step at h
  split at h
  next i hp =>
    split at h
    next hgo => exact Or.inl ⟨i, hp, hgo, (Option.some.inj h).symm⟩
    next hstop => exact Or.inr (Or.inl ⟨i, hp, not_lt.mp hstop, (Option.some.inj h).symm⟩)
  next i t0 rest hp =>
    split at h
    next hrest =>
      subst hrest
      exact Or.inr (Or.inr (Or.inl ⟨i, t0, hp, (Option.some.inj h).symm⟩))
    · cases h
  next i t0 hp =>
    right; right; right
    split at h
    next err hphase => exact Or.inl ⟨i, t0, err, hp, hphase, (Option.some.inj h).symm⟩
    next inbox hadv _ =>
      exact Or.inr (Or.inl ⟨i, t0, inbox, hp, hadv, (Option.some.inj h).symm⟩)
    next inbox hdr hadv _ =>
      exact Or.inr (Or.inr ⟨i, t0, inbox, hdr, hp, hadv, (Option.some.inj h).symm⟩)
    · cases h
  · cases h
  · cases h

theorem send_cases {n : Int} (h : p.send n = some p') :
    ∃ i t0 rest, p.phase = .sending i t0 rest ∧ rest ≠ [] ∧ n ≤ rest.length ∧
      ((n ≤ 0 ∧ p' = { p with phase := .failed i .sendFailed }) ∨
        (0 < n ∧ p' = { p with
          phase := .sending i t0 (rest.drop n.toNat), sent := p.sent ++ rest.take n.toNat })) := by
  unfold send at h
  split at h
  next i t0 rest hp =>
    split at h
    next hcall =>
      refine ⟨i, t0, rest, hp, hcall.1, hcall.2, ?_⟩
      rcases le_or_gt n 0 with hfail | hpos
      · simp only [sendAll, if_pos hfail, Option.some.injEq] at h
        exact Or.inl ⟨hfail, h.symm⟩
      · simp only [sendAll, if_neg (not_le.mpr hpos), Option.some.injEq] at h
        exact Or.inr ⟨hpos, h.symm⟩
    · cases h
  · cases h

theorem recv_cases {n : Int} {bytes : List UInt8} (h : p.recv n bytes = some p') :
    ∃ i t0 inbox, p.phase = .reading i t0 ∧ p.inbox.recv 4096 n bytes = some inbox ∧
      p' = { p with inbox := inbox } := by
  unfold recv at h
  split at h
  next i t0 hp =>
    obtain ⟨inbox, hinbox, rfl⟩ := Option.map_eq_some_iff.mp h
    exact ⟨i, t0, inbox, hp, hinbox, rfl⟩
  · cases h

theorem step_history (h : step cfg now p = some p') :
    p'.sent = p.sent ∧ p'.inbox.received = p.inbox.received := by
  rcases step_cases h with
    ⟨_, _, _, rfl⟩ | ⟨_, _, _, rfl⟩ | ⟨_, _, _, rfl⟩ | ⟨_, _, _, _, _, rfl⟩ |
      ⟨_, _, _, _, hadv, rfl⟩ | ⟨_, _, _, _, _, hadv, rfl⟩
  · exact ⟨rfl, rfl⟩
  · exact ⟨rfl, rfl⟩
  · exact ⟨rfl, rfl⟩
  · exact ⟨rfl, rfl⟩
  · exact ⟨rfl, Inbox.advance_received hadv⟩
  · exact ⟨rfl, Inbox.advance_received hadv⟩

theorem send_history {n : Int} (h : p.send n = some p') :
    (∃ out, p'.sent = p.sent ++ out ∧ out.length = n.toNat) ∧
      p'.inbox.received = p.inbox.received := by
  obtain ⟨i, t0, rest, _, _, hlen, ⟨hfail, rfl⟩ | ⟨hpos, rfl⟩⟩ := send_cases h
  · exact ⟨⟨[], by simp, by simp only [List.length_nil]; omega⟩, rfl⟩
  · exact ⟨⟨_, rfl, by rw [List.length_take]; omega⟩, rfl⟩

theorem recv_history {n : Int} {bytes : List UInt8} (h : p.recv n bytes = some p') :
    p'.sent = p.sent ∧ p'.inbox.received = p.inbox.received ++ bytes ∧
      bytes.length = n.toNat := by
  obtain ⟨_, _, inbox, _, hrecv, rfl⟩ := recv_cases h
  exact ⟨rfl, Inbox.recv_received hrecv⟩

/-- The client as the end of a stream; an own step carries the time. -/
def client (cfg : PingPongConfig) : Endpoint PingPong Int UInt8 where
  step p now := step cfg now p
  send := send
  recv := recv
  sent := sent
  received p := p.inbox.received
  step_history := step_history
  send_history := send_history
  recv_history := recv_history

/-! ### The invariant -/

/-- The rounds completed. -/
def Phase.done : Phase → Nat
  | .head i => i
  | .sending i _ _ => i
  | .reading i _ => i
  | .finished i => i
  | .failed i _ => i

/-- The requests whose sending has begun. -/
def Phase.begun : Phase → Nat
  | .head i => i
  | .finished i => i
  | .sending i _ _ => i + 1
  | .reading i _ => i + 1
  | .failed i _ => i + 1

/-- Where the loop can be with respect to `count`, the bytes sent and the reader. -/
def Phase.Within (cfg : PingPongConfig) (sent : List UInt8) (inbox : ReadPhase) : Phase → Prop
  | .head i => (i : Int) ≤ max cfg.count 0 ∧ inbox = .header ∧
      sent = encodedStream (requestsUpTo cfg.reqBytes i)
  | .finished i => (i : Int) = max cfg.count 0 ∧ inbox = .header ∧
      sent = encodedStream (requestsUpTo cfg.reqBytes i)
  | .sending i _ rest => (i : Int) < cfg.count ∧ inbox = .header ∧
      sent ++ rest = encodedStream (requestsUpTo cfg.reqBytes (i + 1))
  | .reading i _ => (i : Int) < cfg.count ∧
      sent = encodedStream (requestsUpTo cfg.reqBytes (i + 1))
  | .failed i err => (i : Int) < cfg.count ∧ (err = .sendFailed ∨ inbox = .thrown err) ∧
      sent <+: encodedStream (requestsUpTo cfg.reqBytes (i + 1))

/-- The invariant, whatever the peer sends. -/
structure Ok (cfg : PingPongConfig) (p : PingPong) : Prop where
  within : p.phase.Within cfg p.sent p.inbox.phase
  inboxOk : p.inbox.Ok
  takenOk : p.inbox.headers.length = p.phase.done
  measured : p.latencies.length = p.phase.done

theorem ok_init (cfg : PingPongConfig) : init.Ok cfg :=
  ⟨⟨le_max_right _ _, rfl, rfl⟩, Inbox.ok_empty, rfl, rfl⟩

theorem Ok.step (h : p.Ok cfg) (hstep : step cfg now p = some p') : p'.Ok cfg := by
  have hwithin := h.within
  have htaken := h.takenOk
  have hmeasured := h.measured
  rcases step_cases hstep with
    ⟨i, hp, hlt, rfl⟩ | ⟨i, hp, hge, rfl⟩ | ⟨i, t0, hp, rfl⟩ | ⟨i, t0, err, hp, hthrown, rfl⟩ |
      ⟨i, t0, inbox, hp, hadv, rfl⟩ | ⟨i, t0, inbox, hdr, hp, hadv, rfl⟩
  all_goals
    rw [hp] at hwithin htaken hmeasured
    simp only [Phase.Within, Phase.done] at hwithin htaken hmeasured
  · refine { h with within := ⟨hlt, hwithin.2.1, ?_⟩, takenOk := htaken, measured := hmeasured }
    rw [requestsUpTo_succ, encodedStream_append, encodedStream_singleton, hwithin.2.2]
  · exact { h with
      within := ⟨by omega, hwithin.2⟩, takenOk := htaken, measured := hmeasured }
  · refine { h with within := ⟨hwithin.1, ?_⟩, takenOk := htaken, measured := hmeasured }
    rw [← hwithin.2.2, List.append_nil]
  · exact { h with
      within := ⟨hwithin.1, Or.inr hthrown, by rw [hwithin.2]⟩
      takenOk := htaken, measured := hmeasured }
  · -- the header of a response, or a wrong magic
    rcases Inbox.advance_cases hadv with ⟨_, _, _, hnext⟩ | ⟨_, _, _, hout, _⟩
    · have hsame : inbox.headers = p.inbox.headers := by
        rcases hnext with ⟨_, rfl⟩ | ⟨_, rfl⟩ <;> rfl
      refine ⟨?_, h.inboxOk.advance hadv, ?_, ?_⟩
      · simp only [hp]
        exact hwithin
      · simp only [hp, hsame]
        exact htaken
      · simp only [hp]
        exact hmeasured
    · cases hout
  · -- a complete response
    rcases Inbox.advance_cases hadv with ⟨_, _, hout, _⟩ | ⟨hdr', _, _, hout, hnext⟩
    · cases hout
    · refine ⟨⟨by push_cast; omega, by rw [hnext], hwithin.2⟩, h.inboxOk.advance hadv, ?_, ?_⟩
      · simp only [hnext, List.length_append, htaken, List.length_singleton, Phase.done]
      · simp only [List.length_append, hmeasured, List.length_singleton, Phase.done]

theorem Ok.send (h : p.Ok cfg) {n : Int} (hsend : p.send n = some p') : p'.Ok cfg := by
  have hwithin := h.within
  have htaken := h.takenOk
  have hmeasured := h.measured
  obtain ⟨i, t0, rest, hp, _, _, ⟨_, rfl⟩ | ⟨_, rfl⟩⟩ := send_cases hsend
  all_goals
    rw [hp] at hwithin htaken hmeasured
    simp only [Phase.Within, Phase.done] at hwithin htaken hmeasured
  · exact { h with
      within := ⟨hwithin.1, Or.inl rfl, rest, hwithin.2.2⟩, takenOk := htaken
      measured := hmeasured }
  · refine { h with
      within := ⟨hwithin.1, hwithin.2.1, ?_⟩, takenOk := htaken, measured := hmeasured }
    rw [List.append_assoc, List.take_append_drop, hwithin.2.2]

theorem Ok.recv (h : p.Ok cfg) {n : Int} {bytes : List UInt8}
    (hrecv : p.recv n bytes = some p') : p'.Ok cfg := by
  have hwithin := h.within
  have htaken := h.takenOk
  obtain ⟨i, t0, inbox, hp, hinbox, rfl⟩ := recv_cases hrecv
  have hsame : inbox.headers = p.inbox.headers := by
    obtain ⟨_, ⟨_, rfl⟩ | ⟨_, _, rfl⟩⟩ := Inbox.recv_cases hinbox <;> rfl
  refine ⟨?_, h.inboxOk.recv hinbox, ?_, h.measured⟩
  · simp only [hp] at hwithin ⊢
    exact hwithin
  · simp only [hsame]
    exact htaken

theorem Ok.sent_isPrefix (h : p.Ok cfg) :
    p.sent <+: encodedStream (requestsUpTo cfg.reqBytes p.phase.begun) := by
  have hwithin := h.within
  cases hp : p.phase with
  | head i =>
      simp only [hp, Phase.Within] at hwithin
      rw [hwithin.2.2, Phase.begun]
  | finished i =>
      simp only [hp, Phase.Within] at hwithin
      rw [hwithin.2.2, Phase.begun]
  | sending i t0 rest =>
      simp only [hp, Phase.Within] at hwithin
      exact ⟨rest, hwithin.2.2⟩
  | reading i t0 =>
      simp only [hp, Phase.Within] at hwithin
      rw [hwithin.2, Phase.begun]
  | failed i err =>
      simp only [hp, Phase.Within] at hwithin
      exact hwithin.2.2

theorem Ok.begun_le (h : p.Ok cfg) : p.phase.begun ≤ cfg.count.toNat := by
  have hwithin := h.within
  cases hp : p.phase <;> simp only [hp, Phase.Within, Phase.begun] at hwithin ⊢ <;> omega

/-! ### The work ahead -/

/-- The steps up to the end, with one for each byte sent. -/
def Phase.ahead (count len : Nat) : Phase → Nat
  | .head i => (count - i) * (len + 4) + 1
  | .sending i _ rest => (count - (i + 1)) * (len + 4) + (rest.length + 3)
  | .reading i _ => (count - (i + 1)) * (len + 4) + 2
  | .finished _ => 0
  | .failed _ _ => 0

/-- The step of the reader that is ahead in a round. -/
def rest (p : PingPong) : Nat := if p.inbox.phase = .header then 1 else 0

theorem step_lt (h : step cfg now p = some p') :
    p'.phase.ahead cfg.count.toNat (headerSize + cfg.reqBytes.length) <
        p.phase.ahead cfg.count.toNat (headerSize + cfg.reqBytes.length) ∨
      (p'.phase.ahead cfg.count.toNat (headerSize + cfg.reqBytes.length) =
          p.phase.ahead cfg.count.toNat (headerSize + cfg.reqBytes.length) ∧
        p'.rest < p.rest) := by
  rcases step_cases h with
    ⟨i, hp, hlt, rfl⟩ | ⟨i, hp, _, rfl⟩ | ⟨i, t0, hp, rfl⟩ | ⟨i, t0, err, hp, _, rfl⟩ |
      ⟨i, t0, inbox, hp, hadv, rfl⟩ | ⟨i, t0, inbox, hdr, hp, _, rfl⟩
  · left
    simp only [hp, Phase.ahead, length_encoded, request]
    rw [Endpoint.roundsLeft_mul (show i < cfg.count.toNat by omega)]
    omega
  · left
    simp only [hp, Phase.ahead]
    omega
  · left
    simp only [hp, Phase.ahead]
    omega
  · left
    simp only [hp, Phase.ahead]
    omega
  · -- the header is taken, the payload is left
    right
    rcases Inbox.advance_cases hadv with ⟨hphase, _, _, hnext⟩ | ⟨_, _, _, hout, _⟩
    · refine ⟨rfl, ?_⟩
      rcases hnext with ⟨_, rfl⟩ | ⟨_, rfl⟩
      all_goals simp [rest, hphase]
    · cases hout
  · left
    simp only [hp, Phase.ahead]
    omega

theorem send_lt {n : Int} (h : p.send n = some p') (hpos : 0 < n) (count len : Nat) :
    p'.phase.ahead count len < p.phase.ahead count len := by
  obtain ⟨i, t0, rest, hp, _, hlen, ⟨hfail, _⟩ | ⟨_, rfl⟩⟩ := send_cases h
  · omega
  · simp only [hp, Phase.ahead, List.length_drop]
    omega

theorem recv_phase {n : Int} {bytes : List UInt8} (h : p.recv n bytes = some p') :
    p'.phase = p.phase := by
  obtain ⟨_, _, _, _, _, rfl⟩ := recv_cases h
  rfl

def work (cfg : PingPongConfig) : (client cfg).Work where
  ahead p := p.phase.ahead cfg.count.toNat (headerSize + cfg.reqBytes.length)
  rest := rest
  step_lt := step_lt
  send_lt h hpos := send_lt h hpos _ _
  recv_eq h _ := congrArg _ (recv_phase h)

end PingPong

end CRpc
