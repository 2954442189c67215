import CRpc.Lib.Endpoint
import CRpc.ResponseReader

/-!
# The pipelined client

Model of the connection of `multiplex_bench.cpp`, which is the text of
`RunConnection` in `mt_multiplex_bench.cpp`.  A sender loop keeps up to `window`
requests in flight; a receiver thread takes the responses, finds the send time of
each under its sequence number and records the round-trip time.

The two threads share `pending` (under a mutex), the counter `in_flight` and the
flag `recv_error`.  Each thread is cut at its accesses to them and at its calls of
`send` and `recv`, so that a run is an interleaving of the two.  Readings of the
clock are chosen by the environment.  A `yield` of the sender changes nothing and
is not a step: the sender leaves its spin loop when the window has room.

`Pipeline.Ok` is the invariant of all runs, whatever the peer sends.
-/

namespace CRpc

open Lib Protocol

/--
The arguments of a run: two `int`s and the serialised `EchoRequest`.  A negative
`int` makes `reserve` throw before the threads start.
-/
structure PipelineConfig where
  count : Int
  window : Int
  reqBytes : List UInt8
  count_nonneg : 0 ≤ count
  window_nonneg : 0 ≤ window
  count_lt : count < 2 ^ 31

namespace Pipeline

/-- Where the sender loop is, in the round `i`. -/
inductive Sender where
  | head (i : Nat)
  | spin (i : Nat)
  | record (i : Nat)
  | increment (i : Nat)
  | sending (i : Nat) (rest : List UInt8)
  | finished (i : Nat)
  | failed (i : Nat) (rest : List UInt8)
deriving DecidableEq, Repr

/-- Where the receiver thread is, in the round `i`. -/
inductive Receiver where
  | head (i : Nat)
  | reading (i : Nat)
  | lookup (i : Nat) (hdr : RpcHeader)
  | release (i : Nat)
  | finished (i : Nat)
  | failed (i : Nat)
deriving DecidableEq, Repr

end Pipeline

/-- The connection of a client: its two threads and what they share. -/
structure Pipeline where
  sender : Pipeline.Sender
  receiver : Pipeline.Receiver
  inbox : Inbox
  pending : UInt32 → Option Int
  latencies : List Int
  inFlight : Int
  recvError : Bool
  /-- History: the bytes `send` has taken. -/
  sent : List UInt8
  /-- History: the sequence numbers whose entry the receiver has found. -/
  found : List UInt32

namespace Pipeline

/-- A step of one of the threads at a time `now`, in nanoseconds. -/
inductive Thread where
  | sender (now : Int)
  | receiver (now : Int)
deriving DecidableEq, Repr

def init : Pipeline :=
  { sender := .head 0, receiver := .head 0, inbox := .empty, pending := fun _ => none
    latencies := [], inFlight := 0, recvError := false, sent := [], found := [] }

/-- The sender loop between its calls of `send`. -/
def senderStep (cfg : PipelineConfig) (now : Int) (p : Pipeline) : Option Pipeline :=
  match p.sender with
  | .head i =>
      if (i : Int) < cfg.count ∧ p.recvError = false then some { p with sender := .spin i }
      else some { p with sender := .finished i }
  | .spin i => if cfg.window ≤ p.inFlight then none else some { p with sender := .record i }
  | .record i =>
      some { p with
        pending := Function.update p.pending (requestHeader cfg.reqBytes i).seqId (some now)
        sender := .increment i }
  | .increment i =>
      some { p with
        inFlight := p.inFlight + 1
        sender := .sending i (encoded (request cfg.reqBytes i)) }
  | .sending i rest => if rest = [] then some { p with sender := .head (i + 1) } else none
  | .finished _ => none
  | .failed _ _ => none

/-- `::send` has returned `n`. -/
def send (p : Pipeline) (n : Int) : Option Pipeline :=
  match p.sender with
  | .sending i rest =>
      if rest ≠ [] ∧ n ≤ rest.length then
        match sendAll rest n with
        | .ok rest' =>
            some { p with sender := .sending i rest', sent := p.sent ++ rest.take n.toNat }
        | .error _ => some { p with sender := .failed i rest }
      else none
  | _ => none

/-- The critical section of the receiver: look up the entry and take it out. -/
def lookup (now : Int) (p : Pipeline) (i : Nat) (seqId : UInt32) : Pipeline :=
  match p.pending seqId with
  | some t0 =>
      { p with
        latencies := p.latencies ++ [(now - t0).tdiv 1000]
        pending := Function.update p.pending seqId none
        found := p.found ++ [seqId]
        receiver := .release i }
  | none => { p with receiver := .release i }

/-- The receiver thread between its calls of `recv`. -/
def receiverStep (cfg : PipelineConfig) (now : Int) (p : Pipeline) : Option Pipeline :=
  match p.receiver with
  | .head i =>
      if (i : Int) < cfg.count then some { p with receiver := .reading i }
      else some { p with receiver := .finished i }
  | .reading i =>
      match p.inbox.phase, p.inbox.advance with
      | .thrown _, _ => some { p with recvError := true, receiver := .failed i }
      | _, some (inbox, none) => some { p with inbox := inbox }
      | _, some (inbox, some hdr) => some { p with inbox := inbox, receiver := .lookup i hdr }
      | _, none => none
  | .lookup i hdr => some (p.lookup now i hdr.seqId)
  | .release i => some { p with inFlight := p.inFlight - 1, receiver := .head (i + 1) }
  | .finished _ => none
  | .failed _ => none

/-- `::recv` has returned `n`. -/
def recv (p : Pipeline) (n : Int) (bytes : List UInt8) : Option Pipeline :=
  match p.receiver with
  | .reading _ => (p.inbox.recv 65536 n bytes).map fun inbox => { p with inbox := inbox }
  | _ => none

/-! ### What the steps can do -/

variable {cfg : PipelineConfig} {p p' : Pipeline} {now : Int}

theorem senderStep_cases (h : senderStep cfg now p = some p') :
    (∃ i : Nat, p.sender = .head i ∧ (i : Int) < cfg.count ∧ p.recvError = false ∧
      p' = { p with sender := .spin i }) ∨
    (∃ i : Nat, p.sender = .head i ∧ (cfg.count ≤ i ∨ p.recvError = true) ∧
      p' = { p with sender := .finished i }) ∨
    (∃ i, p.sender = .spin i ∧ p.inFlight < cfg.window ∧ p' = { p with sender := .record i }) ∨
    (∃ i, p.sender = .record i ∧
      p' = { p with
        pending := Function.update p.pending (UInt32.ofNat i) (some now)
        sender := .increment i }) ∨
    (∃ i, p.sender = .increment i ∧
      p' = { p with
        inFlight := p.inFlight + 1
        sender := .sending i (encoded (request cfg.reqBytes i)) }) ∨
    (∃ i, p.sender = .sending i [] ∧ p' = { p with sender := .head (i + 1) }) := by
  unfold senderStep at h
  split at h
  next i hs =>
    split at h
    next hgo => exact Or.inl ⟨i, hs, hgo.1, hgo.2, (Option.some.inj h).symm⟩
    next hstop =>
      refine Or.inr (Or.inl ⟨i, hs, ?_, (Option.some.inj h).symm⟩)
      cases herr : p.recvError with
      | true => exact Or.inr rfl
      | false => exact Or.inl (not_lt.mp fun hlt => hstop ⟨hlt, herr⟩)
  next i hs =>
    split at h
    · cases h
    next hroom =>
      exact Or.inr (Or.inr (Or.inl ⟨i, hs, not_le.mp hroom, (Option.some.inj h).symm⟩))
  next i hs =>
    exact Or.inr (Or.inr (Or.inr (Or.inl ⟨i, hs, (Option.some.inj h).symm⟩)))
  next i hs =>
    exact Or.inr (Or.inr (Or.inr (Or.inr (Or.inl ⟨i, hs, (Option.some.inj h).symm⟩))))
  next i rest hs =>
    split at h
    next hrest =>
      subst hrest
      exact Or.inr (Or.inr (Or.inr (Or.inr (Or.inr ⟨i, hs, (Option.some.inj h).symm⟩))))
    · cases h
  · cases h
  · cases h

theorem send_cases {n : Int} (h : p.send n = some p') :
    ∃ i rest, p.sender = .sending i rest ∧ rest ≠ [] ∧ n ≤ rest.length ∧
      ((n ≤ 0 ∧ p' = { p with sender := .failed i rest }) ∨
        (0 < n ∧ p' = { p with
          sender := .sending i (rest.drop n.toNat), sent := p.sent ++ rest.take n.toNat })) := by
  unfold send at h
  split at h
  next i rest hs =>
    split at h
    next hcall =>
      refine ⟨i, rest, hs, hcall.1, hcall.2, ?_⟩
      rcases le_or_gt n 0 with hfail | hpos
      · simp only [sendAll, if_pos hfail, Option.some.injEq] at h
        exact Or.inl ⟨hfail, h.symm⟩
      · simp only [sendAll, if_neg (not_le.mpr hpos), Option.some.injEq] at h
        exact Or.inr ⟨hpos, h.symm⟩
    · cases h
  · cases h

theorem lookup_cases (now : Int) (p : Pipeline) (i : Nat) (seqId : UInt32) :
    (p.pending seqId = none ∧ p.lookup now i seqId = { p with receiver := .release i }) ∨
    ∃ t0, p.pending seqId = some t0 ∧
      p.lookup now i seqId =
        { p with
          latencies := p.latencies ++ [(now - t0).tdiv 1000]
          pending := Function.update p.pending seqId none
          found := p.found ++ [seqId]
          receiver := .release i } := by
  cases ht : p.pending seqId with
  | none => exact Or.inl ⟨rfl, by simp only [lookup, ht]⟩
  | some t0 => exact Or.inr ⟨t0, rfl, by simp only [lookup, ht]⟩

theorem receiverStep_cases (h : receiverStep cfg now p = some p') :
    (∃ i : Nat, p.receiver = .head i ∧ (i : Int) < cfg.count ∧
      p' = { p with receiver := .reading i }) ∨
    (∃ i : Nat, p.receiver = .head i ∧ cfg.count ≤ i ∧
      p' = { p with receiver := .finished i }) ∨
    (∃ i err, p.receiver = .reading i ∧ p.inbox.phase = .thrown err ∧
      p' = { p with recvError := true, receiver := .failed i }) ∨
    (∃ i inbox, p.receiver = .reading i ∧ p.inbox.advance = some (inbox, none) ∧
      p' = { p with inbox := inbox }) ∨
    (∃ i inbox hdr, p.receiver = .reading i ∧ p.inbox.advance = some (inbox, some hdr) ∧
      p' = { p with inbox := inbox, receiver := .lookup i hdr }) ∨
    (∃ i hdr, p.receiver = .lookup i hdr ∧ p' = p.lookup now i hdr.seqId) ∨
    (∃ i, p.receiver = .release i ∧
      p' = { p with inFlight := p.inFlight - 1, receiver := .head (i + 1) }) := by
  unfold receiverStep at h
  split at h
  next i hr =>
    split at h
    next hgo => exact Or.inl ⟨i, hr, hgo, (Option.some.inj h).symm⟩
    next hstop => exact Or.inr (Or.inl ⟨i, hr, not_lt.mp hstop, (Option.some.inj h).symm⟩)
  next i hr =>
    right; right
    split at h
    next err hphase => exact Or.inl ⟨i, err, hr, hphase, (Option.some.inj h).symm⟩
    next inbox hadv _ =>
      exact Or.inr (Or.inl ⟨i, inbox, hr, hadv, (Option.some.inj h).symm⟩)
    next inbox hdr hadv _ =>
      exact Or.inr (Or.inr (Or.inl ⟨i, inbox, hdr, hr, hadv, (Option.some.inj h).symm⟩))
    · cases h
  next i hdr hr =>
    iterate 5 right
    exact Or.inl ⟨i, hdr, hr, (Option.some.inj h).symm⟩
  next i hr =>
    iterate 6 right
    exact ⟨i, hr, (Option.some.inj h).symm⟩
  · cases h
  · cases h

theorem recv_cases {n : Int} {bytes : List UInt8} (h : p.recv n bytes = some p') :
    ∃ i inbox, p.receiver = .reading i ∧ p.inbox.recv 65536 n bytes = some inbox ∧
      p' = { p with inbox := inbox } := by
  unfold recv at h
  split at h
  next i hr =>
    obtain ⟨inbox, hinbox, rfl⟩ := Option.map_eq_some_iff.mp h
    exact ⟨i, inbox, hr, hinbox, rfl⟩
  · cases h

/-! ### The client as an end of a stream -/

theorem senderStep_history (h : senderStep cfg now p = some p') :
    p'.sent = p.sent ∧ p'.inbox = p.inbox := by
  rcases senderStep_cases h with
    ⟨_, _, _, _, rfl⟩ | ⟨_, _, _, rfl⟩ | ⟨_, _, _, rfl⟩ | ⟨_, _, rfl⟩ | ⟨_, _, rfl⟩ | ⟨_, _, rfl⟩
  all_goals exact ⟨rfl, rfl⟩

theorem receiverStep_history (h : receiverStep cfg now p = some p') :
    p'.sent = p.sent ∧ p'.inbox.received = p.inbox.received := by
  rcases receiverStep_cases h with
    ⟨_, _, _, rfl⟩ | ⟨_, _, _, rfl⟩ | ⟨_, _, _, _, rfl⟩ | ⟨_, _, _, hadv, rfl⟩ |
      ⟨_, _, _, _, hadv, rfl⟩ | ⟨i, hdr, _, rfl⟩ | ⟨_, _, rfl⟩
  · exact ⟨rfl, rfl⟩
  · exact ⟨rfl, rfl⟩
  · exact ⟨rfl, rfl⟩
  · exact ⟨rfl, Inbox.advance_received hadv⟩
  · exact ⟨rfl, Inbox.advance_received hadv⟩
  · rcases lookup_cases now p i hdr.seqId with ⟨_, heq⟩ | ⟨_, _, heq⟩ <;> rw [heq] <;>
      exact ⟨rfl, rfl⟩
  · exact ⟨rfl, rfl⟩

theorem send_history {n : Int} (h : p.send n = some p') :
    (∃ out, p'.sent = p.sent ++ out ∧ out.length = n.toNat) ∧
      p'.inbox.received = p.inbox.received := by
  obtain ⟨i, rest, _, _, hlen, ⟨hfail, rfl⟩ | ⟨hpos, rfl⟩⟩ := send_cases h
  · exact ⟨⟨[], by simp, by simp only [List.length_nil]; omega⟩, rfl⟩
  · exact ⟨⟨_, rfl, by rw [List.length_take]; omega⟩, rfl⟩

theorem recv_history {n : Int} {bytes : List UInt8} (h : p.recv n bytes = some p') :
    p'.sent = p.sent ∧ p'.inbox.received = p.inbox.received ++ bytes ∧
      bytes.length = n.toNat := by
  obtain ⟨i, inbox, _, hrecv, rfl⟩ := recv_cases h
  exact ⟨rfl, Inbox.recv_received hrecv⟩

/-- A step of the thread `e`. -/
def threadStep (cfg : PipelineConfig) (p : Pipeline) : Thread → Option Pipeline
  | .sender now => senderStep cfg now p
  | .receiver now => receiverStep cfg now p

theorem threadStep_history {e : Thread} (h : threadStep cfg p e = some p') :
    p'.sent = p.sent ∧ p'.inbox.received = p.inbox.received := by
  cases e with
  | sender now =>
      obtain ⟨hsent, hinbox⟩ := senderStep_history h
      exact ⟨hsent, by rw [hinbox]⟩
  | receiver now => exact receiverStep_history h

/-- The client, with the steps of its two threads as own steps. -/
def client (cfg : PipelineConfig) : Endpoint Pipeline Thread UInt8 where
  step := threadStep cfg
  send := send
  recv := recv
  sent := sent
  received p := p.inbox.received
  step_history := threadStep_history
  send_history := send_history
  recv_history := recv_history

end Pipeline

end CRpc
