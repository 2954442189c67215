import CRpc.ClientService

/-!
# A client that prolongs the drain phase

The cancel of the drain phase reaches the operations that are in flight when it is
submitted.  A read that completed before it, or an accept, is still handled, and
the read that the coroutine posts then is submitted after the cancel.  From there
on a client keeps the worker in the drain phase as long as it likes: messages that
are no requests make `handleConnection` read again and post nothing else
(`Live.quiet_exec`), one round of the loop for each byte sent (`drain_prolonged`).

`drain_bounded` has the other half: what ends the drain phase is that completions
fail.
-/

namespace CRpc

open Lib Protocol CoroConnection

/-! ### A connection that is sent no request -/

namespace Live

variable {flavor : Flavor} {codec : EchoCodec} {c : CoroConnection} {t t' : Live}
variable {es : List Event}

/-- While no request arrives, a read with room is all that a connection has in flight. -/
theorem quiet_exec {ms : List Message} (hread : c.FreshRead) (hwrite : c.WriteOk)
    (hfits : Fits codec c ms) (hignored : ∀ m, m ∈ ms → codec.accepts (wireWord m).1 = none)
    (hrun : (machine flavor codec).exec (init c) es = some t)
    (hgood : ∀ e, e ∈ es → e.Succeeds) (hpre : (chunks es).flatten <+: encodedStream ms) :
    ∃ sqe, t.flight = [(.reader, sqe)] ∧ 0 < postedRead sqe := by
  have hok := ok_exec hread hwrite hrun
  have hon := reading_exec hread hwrite hrun hgood
  have hnone : codec.requests t.session.delivered = [] := by
    rw [List.eq_nil_iff_forall_not_mem]
    intro r hr
    obtain ⟨m, hm, haccept⟩ := message_of_request hread hwrite hfits.size32 hrun hpre hr
    rw [hignored m hm] at haccept
    cases haccept
  obtain ⟨rs, hpushed, hperm, _⟩ := answered_exec hread hwrite hrun
  rw [hnone, List.perm_nil, List.append_eq_nil_iff, List.map_eq_nil_iff] at hperm
  obtain ⟨rfl, hhandlers⟩ := hperm
  have hpop : t.session.writer = .onPop := by
    cases hw : t.session.writer with
    | running => exact absurd hw hok.rested.writer
    | done => exact absurd hw (writing_exec hread hwrite hfits hrun hgood hpre)
    | onPop => rfl
    | onWrite f =>
        -- nothing was ever pushed
        have hin := hok.session.data_mem_pushed hw
        rw [hpushed] at hin
        cases hin
  have hroles := hok.session.roles
  rw [hok.posts, List.append_nil, Session.waiting, hon, hpop, hhandlers] at hroles
  obtain ⟨op, hflight, hrole⟩ := List.map_eq_singleton_iff.mp (List.perm_singleton.mp hroles)
  obtain ⟨sqe, hop, hroom⟩ := read_room hread hwrite hfits hrun hpre hon
  refine ⟨sqe, ?_, hroom⟩
  have hperm := perm_without hop
  rw [hflight] at hperm ⊢
  rw [List.perm_singleton.mp hperm.symm |> List.cons_eq_cons.mp |>.1]

/-- One byte more: the connection posts its next read and nothing else. -/
theorem quiet_byte {ms : List Message} (hread : c.FreshRead) (hwrite : c.WriteOk)
    (hfits : Fits codec c ms) (hignored : ∀ m, m ∈ ms → codec.accepts (wireWord m).1 = none)
    (hrun : (machine flavor codec).exec (init c) es = some t)
    (hgood : ∀ e, e ∈ es → e.Succeeds) {b : UInt8}
    (hbyte : (chunks (es ++ [.read 1 [b]])).flatten <+: encodedStream ms) :
    ∃ sqe sqe', t.flight = [(.reader, sqe)] ∧ ReadResult sqe 1 [b] ∧
      (Session.readDone flavor codec t.session 1 [b]).posts = [(.reader, sqe')] ∧
      (machine flavor codec).exec (init c) (es ++ [.read 1 [b]]) =
        some (settle (Session.readDone flavor codec t.session 1 [b]) []) := by
  obtain ⟨sqe, hflight, hroom⟩ := quiet_exec hread hwrite hfits hignored hrun hgood
    (prefix_of_chunks_concat hbyte)
  have hstep : (machine flavor codec).step t (.read 1 [b]) =
      some (settle (Session.readDone flavor codec t.session 1 [b]) []) := by
    simp only [machine, opOf, without, hflight]
    exact if_pos ⟨rfl, hroom⟩
  have hrun' := Machine.exec_concat_eq_some.mpr ⟨t, hrun, hstep⟩
  have hgood' : ∀ e, e ∈ es ++ [Event.read 1 [b]] → e.Succeeds := by
    intro e he
    rcases List.mem_append.mp he with hold | hnew
    · exact hgood e hold
    · rw [List.mem_singleton.mp hnew]
      exact Int.one_pos
  obtain ⟨sqe', hposts, _⟩ := quiet_exec hread hwrite hfits hignored hrun' hgood' hbyte
  exact ⟨sqe, sqe', hflight, ⟨rfl, hroom⟩, hposts, hrun'⟩

end Live

/-! ### A worker and one client -/

namespace Server

variable {flavor : Flavor} {codec : EchoCodec} {r : FixedResources} {s t : Server}

/-- Between two bytes of a client that sends no requests, in the drain phase. -/
structure Chats (flavor : Flavor) (codec : EchoCodec) (r : FixedResources) (cid : Nat)
    (c : CoroConnection) (ms : List Message) (es : List Live.Event) (s : Server) : Prop where
  rests : Rests flavor codec r true s
  ring : 0 < s.loop.entries
  peer : ∃ p, s.peers[cid]? = some p ∧ (Live.machine flavor codec).exec (Live.init c) es =
    some { session := p.session, flight := opsOf cid s.loop.ops }
  good : ∀ e, e ∈ es → e.Succeeds
  stream : (Live.chunks es).flatten <+: encodedStream ms

section Chats

variable {cid : Nat} {c : CoroConnection} {ms : List Message} {es : List Live.Event}

/-- The next byte: one completion is handled, and a read is posted again. -/
theorem Chats.next (hread : c.FreshRead) (hwrite : c.WriteOk) (hfits : Live.Fits codec c ms)
    (hignored : ∀ m, m ∈ ms → codec.accepts (wireWord m).1 = none)
    (h : Chats flavor codec r cid c ms es s) {b : UInt8}
    (hbyte : (Live.chunks (es ++ [.read 1 [b]])).flatten <+: encodedStream ms) :
    ∃ ds t d, (machine flavor codec).exec s ds = some t ∧
      Chats flavor codec r cid c ms (es ++ [.read 1 [b]]) t ∧
      t.loop.dispatched = s.loop.dispatched ++ [d] ∧
      d.handle = .session cid .reader ∧ d.stored = 1 := by
  obtain ⟨p, hp, hlive⟩ := h.peer
  obtain ⟨sqe, sqe', hflight, hres, hposts, hlive'⟩ :=
    Live.quiet_byte hread hwrite hfits hignored hlive h.good hbyte
  have hop : (Role.reader, sqe) ∈ opsOf cid s.loop.ops := by
    simp only at hflight
    rw [hflight]
    exact List.mem_cons_self
  obtain ⟨ds, t, hexec, hrests, hserved, _⟩ := h.rests.serve hp (mem_opsOf.mp hop)
    (.reader hres) (by rw [hposts]; exact h.ring)
  obtain ⟨d, hrecord, hhandle, hstored⟩ := hserved.record
  obtain ⟨_, hp'⟩ := hserved.peer hp
  obtain ⟨rest, hbefore, hafter⟩ := hserved.flight
  -- the read was the only operation of the connection
  have hnew : opsOf cid t.loop.ops = [(.reader, sqe')] := by
    have heq : opsOf cid s.loop.ops = [(.reader, sqe)] := hflight
    rw [heq] at hbefore
    obtain rfl : rest = [] := by simpa using hbefore.symm
    rw [hposts] at hafter
    exact List.perm_singleton.mp hafter
  refine ⟨ds, t, d, hexec, ⟨hrests, hserved.entries ▸ h.ring, ⟨_, hp', ?_⟩, ?_, hbyte⟩, hrecord,
    hhandle, hstored⟩
  · rw [hlive', hnew, Live.settle, hposts, List.nil_append]
  · intro e he
    rcases List.mem_append.mp he with hold | hlast
    · exact h.good e hold
    · rw [List.mem_singleton.mp hlast]
      exact Int.one_pos

/-- The client sends `n` bytes more, one at a time. -/
theorem Chats.goes_on (hread : c.FreshRead) (hwrite : c.WriteOk) (hfits : Live.Fits codec c ms)
    (hignored : ∀ m, m ∈ ms → codec.accepts (wireWord m).1 = none) :
    ∀ (n : Nat) {s : Server} {es : List Live.Event}, Chats flavor codec r cid c ms es s →
      (Live.chunks es).flatten.length + n ≤ (encodedStream ms).length →
      ∃ ds t new es', (machine flavor codec).exec s ds = some t ∧
        Chats flavor codec r cid c ms es' t ∧
        t.loop.dispatched = s.loop.dispatched ++ new ∧ new.length = n ∧
        ∀ d, d ∈ new → d.handle = .session cid .reader ∧ d.stored = 1
  | 0, s, es, h, _ => ⟨[], s, [], es, rfl, h, by simp, rfl, by simp⟩
  | n + 1, s, es, h, hlen => by
      -- the next byte of the stream
      obtain ⟨rest, hstream⟩ := h.stream
      obtain ⟨b, rest', rfl⟩ : ∃ b rest', rest = b :: rest' := by
        refine List.exists_cons_of_length_pos ?_
        rw [← hstream, List.length_append] at hlen
        omega
      have hchunks : (Live.chunks (es ++ [.read 1 [b]])).flatten =
          (Live.chunks es).flatten ++ [b] := by
        rw [Live.chunks_append, List.flatten_append]
        rfl
      have hbyte : (Live.chunks (es ++ [.read 1 [b]])).flatten <+: encodedStream ms := by
        rw [hchunks]
        exact ⟨rest', by rw [← hstream, List.append_assoc, List.singleton_append]⟩
      obtain ⟨ds, t, d, hexec, hchats, hrecord, hd⟩ :=
        h.next hread hwrite hfits hignored hbyte
      have hlen' : (Live.chunks (es ++ [.read 1 [b]])).flatten.length + n ≤
          (encodedStream ms).length := by
        rw [hchunks, List.length_append, List.length_singleton]
        omega
      obtain ⟨ds', t', new, es', hexec', hchats', hrecord', hnew, hall⟩ :=
        Chats.goes_on hread hwrite hfits hignored n hchats hlen'
      refine ⟨ds ++ ds', t', d :: new, es', Machine.exec_append_eq_some.mpr ⟨t, hexec, hexec'⟩,
        hchats', ?_, by rw [List.length_cons, hnew], ?_⟩
      · rw [hrecord', hrecord, List.append_assoc, List.singleton_append]
      · exact List.forall_mem_cons.mpr ⟨hd, hall⟩

end Chats

/-- The stream of a client that repeats a message is as long as the client likes. -/
theorem le_length_replicate (m : Message) (n : Nat) :
    n ≤ (encodedStream (List.replicate n m)).length := by
  induction n with
  | zero => exact Nat.zero_le _
  | succ n ih =>
      rw [List.replicate_succ, ← List.singleton_append, encodedStream_append,
        encodedStream_singleton, List.length_append, length_encoded, headerSize]
      omega

/--
One client prolongs the drain phase at will.  From a state of the drain phase in
which a connection has just been made, with room for a message `m` that is not a
request, there is for every `n` a run in which the worker handles `n` completions,
all of them reads of one byte on that connection, and is still in the drain phase
with an operation in flight.
-/
theorem drain_prolonged {entries : Nat} {listenFd : Int} {es : List Event} {cid : Nat} {p : Peer}
    {c : CoroConnection} {m : Message}
    (hrun : (machine flavor codec).exec (init entries listenFd r) es = some s)
    (hcrash : s.crashed = false) (hphase : s.loop.phase = .test true) (hcq : s.loop.cq = [])
    (hring : 0 < s.loop.entries) (hp : s.peers[cid]? = some p)
    (hnew : Live.init c = { session := p.session, flight := opsOf cid s.loop.ops })
    (hread : c.FreshRead) (hwrite : c.WriteOk) (hfits : Live.Fits codec c [m])
    (hignored : codec.accepts (wireWord m).1 = none) (n : Nat) :
    ∃ ds t new, (machine flavor codec).exec s ds = some t ∧ t.crashed = false ∧
      t.loop.phase = .test true ∧ 0 < t.loop.inFlight ∧
      t.loop.dispatched = s.loop.dispatched ++ new ∧ new.length = n ∧
      ∀ d, d ∈ new → d.handle = .session cid .reader ∧ d.stored = 1 := by
  have hall : ∀ m', m' ∈ List.replicate n m → codec.accepts (wireWord m').1 = none :=
    fun m' hm' => (List.eq_of_mem_replicate hm') ▸ hignored
  have hfits' : Live.Fits codec c (List.replicate n m) :=
    hfits.subset fun m' hm' => List.mem_singleton.mpr (List.eq_of_mem_replicate hm')
  have hstart : Chats flavor codec r cid c (List.replicate n m) [] s :=
    { rests := ⟨ok_exec hrun hcrash, hcrash, hphase, hcq, by simp⟩
      ring := hring
      peer := ⟨p, hp, by rw [Machine.exec_nil, hnew]⟩
      good := by simp, stream := List.nil_prefix }
  obtain ⟨ds, t, new, es', hexec, hchats, hrecord, hlen, hnew'⟩ :=
    hstart.goes_on hread hwrite hfits' hall n (by simpa [Live.chunks] using le_length_replicate m n)
  refine ⟨ds, t, new, hexec, hchats.rests.live, hchats.rests.phase, ?_, hrecord, hlen, hnew'⟩
  obtain ⟨p', hp', hlive⟩ := hchats.peer
  obtain ⟨sqe, hflight, _⟩ :=
    Live.quiet_exec hread hwrite hfits' hall hlive hchats.good hchats.stream
  have hop : (Role.reader, sqe) ∈ opsOf cid t.loop.ops := by
    simp only at hflight
    rw [hflight]
    exact List.mem_cons_self
  rw [hchats.rests.ok.loop.inFlight_eq_length]
  exact Int.natCast_pos.mpr (List.length_pos_of_mem (mem_opsOf.mp hop))

/-- The first connection of a worker with `smallResources`. -/
def firstConn : CoroConnection :=
  (CoroConnection.create smallResources 5 true (List.replicate 24 0) (List.replicate 24 0)).1

theorem firstConn_freshRead : firstConn.FreshRead :=
  freshRead_create smallResources 5 true rfl _

/-- A response, which the server ignores. -/
def ignoredMessage : Message :=
  ({ magic := 0, version := 1, msgType := 1, seqId := 0, payloadLen := 0 }, [])

theorem firstConn_writeOk : firstConn.WriteOk := writeOk_create _ _ _ _ _ rfl

theorem firstConn_fits : Live.Fits protoCodec firstConn [ignoredMessage] :=
  ⟨by decide, fun _ _ _ hparse => protoCodec_response_lt hparse,
    fun _ => by decide +kernel, fun _ => by decide +kernel, fun _ => by decide⟩

set_option maxRecDepth 4000 in
/-- The accept completes before it is cancelled; the new connection prolongs the drain phase. -/
theorem drain_prolonged_accept :
    ∃ s, (machine .async protoCodec).exec (init 8 3 smallResources)
        [.start countingHeap, .loop .run, .loop .test, .loop .stop, .loop (.wake (-4)),
          .loop .test, .loop .enterDrain, .loop .test, .loop (.complete 0 5),
          .loop (.complete 0 0), .loop (.wake 0), .fetch (smallInput []), .fetch (smallInput []),
          .loop .advance] = some s ∧
      ∃ ds t new, (machine .async protoCodec).exec s ds = some t ∧ t.crashed = false ∧
        t.loop.phase = .test true ∧ 0 < t.loop.inFlight ∧
        t.loop.dispatched = s.loop.dispatched ++ new ∧ new.length = 500 ∧
        ∀ d, d ∈ new → d.handle = .session 0 .reader ∧ d.stored = 1 := by
  have hrun : ((machine .async protoCodec).exec (init 8 3 smallResources)
        [.start countingHeap, .loop .run, .loop .test, .loop .stop, .loop (.wake (-4)),
          .loop .test, .loop .enterDrain, .loop .test, .loop (.complete 0 5),
          .loop (.complete 0 0), .loop (.wake 0), .fetch (smallInput []), .fetch (smallInput []),
          .loop .advance]).map (fun s => (s.crashed, s.loop.phase, s.loop.cq, s.loop.entries,
            s.peers[0]?.map fun p => Live.mk p.session (opsOf 0 s.loop.ops))) =
      some (false, .test true, [], 8, some (Live.init firstConn)) := rfl
  obtain ⟨s, hs, hstate⟩ := Option.map_eq_some_iff.mp hrun
  simp only [Prod.mk.injEq, Option.map_eq_some_iff] at hstate
  obtain ⟨hcrash, hphase, hcq, hentries, p, hp, hnew⟩ := hstate
  exact ⟨s, hs, drain_prolonged hs hcrash hphase hcq (by omega) hp hnew.symm
    firstConn_freshRead firstConn_writeOk firstConn_fits rfl 500⟩

end Server

end CRpc
