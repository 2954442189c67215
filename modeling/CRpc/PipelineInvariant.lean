import CRpc.Pipeline

/-!
# What holds in the pipelined client

The invariant of the two threads of `multiplex_bench.cpp`, under any
interleaving, any results of `send` and `recv` and any bytes from the peer.  The
counters below say how far a thread has come; the shared variables are then
functions of the counters of both threads.

The bytes handed to `send` are those of the requests in order.  An entry of
`pending` belongs to a request that was recorded and whose response the receiver
has not seen.  The sender alone raises `in_flight`, after it has seen room in the
window, so that the counter never passes the window.
-/

namespace CRpc

open Lib Protocol

namespace Pipeline

/-- The rounds the sender has entered. -/
def Sender.entered : Sender → Nat
  | .head i => i
  | .finished i => i
  | .spin i => i + 1
  | .record i => i + 1
  | .increment i => i + 1
  | .sending i _ => i + 1
  | .failed i _ => i + 1

/-- The requests recorded in `pending`. -/
def Sender.recorded : Sender → Nat
  | .head i => i
  | .finished i => i
  | .spin i => i
  | .record i => i
  | .increment i => i + 1
  | .sending i _ => i + 1
  | .failed i _ => i + 1

/-- The requests counted in `in_flight`. -/
def Sender.begun : Sender → Nat
  | .head i => i
  | .finished i => i
  | .spin i => i
  | .record i => i
  | .increment i => i
  | .sending i _ => i + 1
  | .failed i _ => i + 1

/-- The bytes of the request under way that `send` has not taken. -/
def Sender.unsent : Sender → List UInt8
  | .sending _ rest => rest
  | .failed _ rest => rest
  | _ => []

/-- The rounds the receiver has completed. -/
def Receiver.released : Receiver → Nat
  | .head i => i
  | .reading i => i
  | .lookup i _ => i
  | .release i => i
  | .finished i => i
  | .failed i => i

/-- The responses the receiver has taken out of its vector. -/
def Receiver.taken : Receiver → Nat
  | .lookup i _ => i + 1
  | .release i => i + 1
  | .head i => i
  | .reading i => i
  | .finished i => i
  | .failed i => i

/-- The responses the receiver has looked up. -/
def Receiver.looked : Receiver → Nat
  | .release i => i + 1
  | .lookup i _ => i
  | .head i => i
  | .reading i => i
  | .finished i => i
  | .failed i => i

/-- Where the receiver can be with respect to `count` and to an exception. -/
def Receiver.Within (count : Int) (recvError : Bool) (phase : ReadPhase) : Receiver → Prop
  | .head i => (i : Int) ≤ max count 0 ∧ recvError = false ∧ phase = .header
  | .reading i => (i : Int) < count ∧ recvError = false
  | .lookup i _ => (i : Int) < count ∧ recvError = false ∧ phase = .header
  | .release i => (i : Int) < count ∧ recvError = false ∧ phase = .header
  | .finished i => (i : Int) = max count 0 ∧ recvError = false
  | .failed i => (i : Int) < count ∧ recvError = true ∧ ∃ err, phase = .thrown err

/-- The invariant. -/
structure Ok (cfg : PipelineConfig) (p : Pipeline) : Prop where
  sentOk : p.sent ++ p.sender.unsent =
    encodedStream (requestsUpTo cfg.reqBytes p.sender.begun)
  unsent_ne : ∀ i rest, p.sender = .failed i rest → rest ≠ []
  entered_le : (p.sender.entered : Int) ≤ max cfg.count 0
  ended : ∀ i : Nat, p.sender = .finished i → (i : Int) = max cfg.count 0 ∨ p.recvError = true
  flight : p.inFlight = p.sender.begun - p.receiver.released
  flight_le : p.inFlight ≤ max cfg.window 0
  room : ∀ i, p.sender = .record i ∨ p.sender = .increment i → p.inFlight < cfg.window
  pendingOk : ∀ k, (p.pending k).isSome = true ↔ k ∈ seqIds p.sender.recorded ∧ k ∉ p.found
  found_mem : ∀ k, k ∈ p.found → k ∈ seqIds p.sender.recorded
  found_nodup : p.found.Nodup
  measured : p.latencies.length = p.found.length
  within : p.receiver.Within cfg.count p.recvError p.inbox.phase
  inboxOk : p.inbox.Ok
  takenOk : p.inbox.headers.length = p.receiver.taken
  looking : ∀ i hdr, p.receiver = .lookup i hdr → ∃ hs, p.inbox.headers = hs ++ [hdr]
  found_taken : p.found.Sublist ((p.inbox.headers.take p.receiver.looked).map RpcHeader.seqId)

variable {cfg : PipelineConfig} {p p' : Pipeline} {now : Int}

theorem ok_init (cfg : PipelineConfig) : init.Ok cfg where
  sentOk := rfl
  unsent_ne := by simp [init]
  entered_le := le_max_right _ _
  ended := by simp [init]
  flight := rfl
  flight_le := le_max_right _ _
  room := by simp [init]
  pendingOk := by simp [init, Sender.recorded, seqIds]
  found_mem := by simp [init]
  found_nodup := List.nodup_nil
  measured := rfl
  within := ⟨le_max_right _ _, rfl, rfl⟩
  inboxOk := Inbox.ok_empty
  takenOk := rfl
  looking := by simp [init]
  found_taken := List.Sublist.refl _

theorem Ok.senderStep (h : p.Ok cfg) (hstep : senderStep cfg now p = some p') : p'.Ok cfg := by
  obtain ⟨sender, receiver, inbox, pending, latencies, inFlight, recvError, sent, found⟩ := p
  rcases senderStep_cases hstep with
    ⟨i, hs, hlt, herr, rfl⟩ | ⟨i, hs, hstop, rfl⟩ | ⟨i, hs, hroom, rfl⟩ | ⟨i, hs, rfl⟩ |
      ⟨i, hs, rfl⟩ | ⟨i, hs, rfl⟩ <;> simp only at hs <;> subst hs
  · -- the head of the loop, with a round left
    refine { h with unsent_ne := by simp, entered_le := ?_, ended := by simp, room := by simp }
    simp only [Sender.entered]
    omega
  · -- the head of the loop, after the last round or an error
    refine { h with unsent_ne := by simp, ended := ?_, room := by simp }
    intro j hj
    obtain rfl := Sender.finished.inj hj
    have hle := h.entered_le
    simp only [Sender.entered] at hle
    simp only at hstop
    rcases hstop with hcount | herr
    · exact Or.inl (by omega)
    · exact Or.inr herr
  · -- the window has room
    exact { h with unsent_ne := by simp, ended := by simp, room := fun _ _ => hroom }
  · -- `pending[seq_id] = send_time`
    have hle := h.entered_le
    simp only [Sender.entered] at hle
    have hfresh : UInt32.ofNat i ∉ seqIds i := notMem_seqIds (by have := cfg.count_lt; omega)
    refine { h with
      unsent_ne := by simp
      ended := by simp
      room := fun _ _ => h.room i (Or.inl rfl)
      pendingOk := ?_
      found_mem := ?_ }
    · intro k
      have hk := h.pendingOk k
      simp only [Sender.recorded] at hk ⊢
      rw [seqIds_succ, List.mem_append, List.mem_singleton]
      by_cases heq : k = UInt32.ofNat i
      · have hnot : k ∉ found := fun hin => hfresh (heq ▸ h.found_mem k hin)
        subst heq
        simp [hnot]
      · rw [Function.update_of_ne heq, hk]
        simp [heq]
    · intro k hk
      have hin := h.found_mem k hk
      simp only [Sender.recorded] at hin ⊢
      rw [seqIds_succ]
      exact List.mem_append_left _ hin
  · -- `in_flight.fetch_add(1)`
    have hroom := h.room i (Or.inr rfl)
    have hflight := h.flight
    have hsent := h.sentOk
    simp only [Sender.begun, Sender.unsent, List.append_nil] at hroom hflight hsent
    refine { h with
      sentOk := ?_, unsent_ne := by simp, ended := by simp, flight := ?_, flight_le := ?_
      room := by simp }
    · simp only [Sender.begun, Sender.unsent]
      rw [requestsUpTo_succ, encodedStream_append, encodedStream_singleton, hsent]
    · simp only [Sender.begun]
      omega
    · simp only
      omega
  · -- `SendAll` has returned
    exact { h with unsent_ne := by simp, ended := by simp, room := by simp }

theorem Ok.send (h : p.Ok cfg) {n : Int} (hstep : p.send n = some p') : p'.Ok cfg := by
  obtain ⟨sender, receiver, inbox, pending, latencies, inFlight, recvError, sent, found⟩ := p
  obtain ⟨i, rest, hs, hrest, _, ⟨_, rfl⟩ | ⟨_, rfl⟩⟩ := send_cases hstep <;>
    simp only at hs <;> subst hs
  · refine { h with unsent_ne := ?_, ended := by simp, room := by simp }
    intro j rest' hj
    rwa [(Sender.failed.inj hj).2] at hrest
  · have hsent := h.sentOk
    simp only [Sender.begun, Sender.unsent] at hsent
    refine { h with
      sentOk := ?_, unsent_ne := by simp, ended := by simp, room := by simp }
    simp only [Sender.begun, Sender.unsent]
    rw [List.append_assoc, List.take_append_drop, hsent]

/-- The receiver looks up a response it has just taken out. -/
theorem Ok.lookup (h : p.Ok cfg) {i : Nat} {hdr : RpcHeader} (hr : p.receiver = .lookup i hdr) :
    (p.lookup now i hdr.seqId).Ok cfg := by
  obtain ⟨sender, receiver, inbox, pending, latencies, inFlight, recvError, sent, found⟩ := p
  simp only at hr
  subst hr
  obtain ⟨hs, hheaders⟩ := h.looking i hdr rfl
  simp only at hheaders
  have htaken := h.takenOk
  simp only [Receiver.taken, hheaders, List.length_append, List.length_singleton] at htaken
  have hfound := h.found_taken
  simp only [Receiver.looked, hheaders] at hfound
  rw [List.take_left' (by omega)] at hfound
  have hlast : (inbox.headers.take (i + 1)).map RpcHeader.seqId =
      hs.map RpcHeader.seqId ++ [hdr.seqId] := by
    rw [hheaders, List.take_of_length_le (by simp; omega), List.map_append, List.map_singleton]
  rcases lookup_cases now _ i hdr.seqId with ⟨_, heq⟩ | ⟨t0, ht0, heq⟩ <;> rw [heq]
  · refine { h with looking := by simp, found_taken := ?_ }
    simp only [Receiver.looked]
    rw [hlast]
    exact hfound.trans (List.sublist_append_left _ _)
  · have hmem := (h.pendingOk hdr.seqId).mp (by rw [ht0]; rfl)
    simp only at hmem ht0
    refine { h with
      pendingOk := ?_, found_mem := ?_, found_nodup := ?_, measured := ?_
      looking := by simp, found_taken := ?_ }
    · intro k
      have hk := h.pendingOk k
      simp only [List.mem_append, List.mem_singleton, not_or] at hk ⊢
      by_cases hkey : k = hdr.seqId
      · subst hkey
        simp
      · rw [Function.update_of_ne hkey, hk]
        simp [hkey]
    · intro k hk
      rcases List.mem_append.mp hk with hin | hnew
      · exact h.found_mem k hin
      · rw [List.mem_singleton.mp hnew]
        exact hmem.1
    · exact List.nodup_append_comm.mp (List.nodup_cons.mpr ⟨hmem.2, h.found_nodup⟩)
    · have hlen := h.measured
      simp only at hlen
      simp [hlen]
    · simp only [Receiver.looked]
      rw [hlast]
      exact hfound.append (List.Sublist.refl _)

theorem Ok.receiverStep (h : p.Ok cfg) (hstep : receiverStep cfg now p = some p') :
    p'.Ok cfg := by
  rcases receiverStep_cases hstep with
    ⟨i, hr, hlt, rfl⟩ | ⟨i, hr, hge, rfl⟩ | ⟨i, err, hr, hphase, rfl⟩ |
      ⟨i, inbox', hr, hadv, rfl⟩ | ⟨i, inbox', hdr, hr, hadv, rfl⟩ | ⟨i, hdr, hr, rfl⟩ |
      ⟨i, hr, rfl⟩
  case inr.inr.inr.inr.inr.inl => exact h.lookup hr
  all_goals
    obtain ⟨sender, receiver, inbox, pending, latencies, inFlight, recvError, sent, found⟩ := p
    simp only at hr
    subst hr
    have hwithin := h.within
    simp only [Receiver.Within] at hwithin
  · exact { h with within := ⟨hlt, hwithin.2.1⟩, looking := by simp }
  · exact { h with within := ⟨by omega, hwithin.2.1⟩, looking := by simp }
  · exact { h with
      ended := fun _ _ => Or.inr rfl
      within := ⟨hwithin.1, rfl, err, hphase⟩
      looking := by simp }
  · -- the header of a response, or a wrong magic
    rcases Inbox.advance_cases hadv with
      ⟨_, _, _, hnext⟩ | ⟨_, _, _, hout, _⟩
    · have hsame : inbox'.headers = inbox.headers := by
        rcases hnext with ⟨_, rfl⟩ | ⟨_, rfl⟩ <;> rfl
      refine { h with
        within := hwithin, inboxOk := h.inboxOk.advance hadv, takenOk := ?_
        looking := by simp, found_taken := ?_ }
      · simp only [hsame]
        exact h.takenOk
      · simp only [hsame]
        exact h.found_taken
    · cases hout
  · -- a complete response
    rcases Inbox.advance_cases hadv with ⟨_, _, hout, _⟩ | ⟨hdr', _, _, hout, hnext⟩
    · cases hout
    · obtain rfl := Option.some.inj hout
      have htaken := h.takenOk
      have hfound := h.found_taken
      have hheaders : inbox'.headers = inbox.headers ++ [hdr] := by rw [hnext]
      simp only [Receiver.taken, Receiver.looked] at htaken hfound
      refine { h with
        within := ⟨hwithin.1, hwithin.2, by rw [hnext]⟩
        inboxOk := h.inboxOk.advance hadv
        takenOk := by simp only [hheaders, Receiver.taken]; simp [htaken]
        looking := ?_, found_taken := ?_ }
      · intro j hdr' hj
        simp only [Receiver.lookup.injEq] at hj
        exact ⟨inbox.headers, by rw [← hj.2]; exact hheaders⟩
      · simp only [Receiver.looked, hheaders]
        rw [List.take_append_of_le_length (by omega)]
        exact hfound
  · -- `in_flight.fetch_sub(1)`
    have hflight := h.flight
    have hle := h.flight_le
    simp only [Receiver.released] at hflight hle
    refine { h with
      flight := ?_, flight_le := ?_, room := ?_
      within := ⟨by push_cast; omega, hwithin.2⟩, looking := by simp }
    · simp only [Receiver.released]
      push_cast
      omega
    · simp only
      omega
    · intro j hj
      have hroom := h.room j hj
      simp only at hroom ⊢
      omega

theorem Ok.recv (h : p.Ok cfg) {n : Int} {bytes : List UInt8}
    (hstep : p.recv n bytes = some p') : p'.Ok cfg := by
  obtain ⟨i, inbox', hr, hrecv, rfl⟩ := recv_cases hstep
  have hwithin := h.within
  rw [hr] at hwithin
  have hsame : inbox'.headers = p.inbox.headers := by
    obtain ⟨_, ⟨_, rfl⟩ | ⟨_, _, rfl⟩⟩ := Inbox.recv_cases hrecv <;> rfl
  refine { h with
    within := ?_, inboxOk := h.inboxOk.recv hrecv, takenOk := ?_
    looking := ?_, found_taken := ?_ }
  · simp only [hr]
    exact hwithin
  · simp only [hsame]
    exact h.takenOk
  · simp [hr]
  · simp only [hsame]
    exact h.found_taken

end Pipeline

end CRpc
