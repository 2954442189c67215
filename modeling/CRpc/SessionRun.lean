import CRpc.SessionInvariant

/-!
# Runs of a connection

The coroutines of one connection under an arbitrary environment: completions of
its reads, writes and timers arrive in any order, with any results the kernel
can report for the operations posted.  The event loop resumes one coroutine per
completion (`CompletionRouting`), and the operations posted meanwhile join those
in flight.

`Live.ok_exec` is the invariant of all runs, and `Live.step_cases` says what one
step can do.  `Live.Reached` is a run seen from outside, by the operations it has
left in flight.
-/

namespace CRpc

open Lib Protocol

/-- A session while control is in the event loop, and its operations in flight. -/
structure Live where
  session : Session
  flight : Ops

namespace Live

/-- The operations posted by the coroutines that ran are in flight. -/
def settle (s : Session) (flight : Ops) : Live :=
  { session := { s with posts := [] }, flight := flight ++ s.posts }

/-- After `handleConnection` was called with a new connection. -/
def init (c : CoroConnection) : Live := settle (Session.start c) []

/-- A completion for one of the coroutines of the connection. -/
inductive Event where
  | read (res : Int) (bytes : List UInt8)
  | write (w : Int)
  | timer (id : Nat)
deriving DecidableEq, Repr

/-- The operation a coroutine waits for. -/
def opOf (t : Live) (role : Role) : Option Sqe :=
  (t.flight.find? (fun op => op.1 = role)).map Prod.snd

/-- The other operations. -/
def without (t : Live) (role : Role) : Ops :=
  t.flight.eraseP (fun op => op.1 = role)

/-- A read reports the number of bytes it stored, within the length posted. -/
def ReadResult (sqe : Sqe) (res : Int) (bytes : List UInt8) : Prop :=
  bytes.length = res.toNat ∧ bytes.length ≤ postedRead sqe

instance (sqe : Sqe) (res : Int) (bytes : List UInt8) :
    Decidable (ReadResult sqe res bytes) :=
  inferInstanceAs (Decidable (_ ∧ _))

/-- One completion and the resumption of the coroutine that waits for it. -/
def machine (flavor : Flavor) (codec : EchoCodec) : Machine Live Event where
  step t
    | .read res bytes =>
        match t.opOf .reader with
        | some sqe =>
            if ReadResult sqe res bytes then
              some (settle (Session.readDone flavor codec t.session res bytes)
                (t.without .reader))
            else none
        | none => none
    | .write w =>
        match t.opOf .writer with
        | some sqe =>
            if w ≤ postedWrite sqe then
              some (settle ((t.session.kernelWrites sqe w).writeDone w)
                (t.without .writer))
            else none
        | none => none
    | .timer id =>
        match t.opOf (.handler id) with
        | some _ =>
            some (settle (Session.timerDone codec t.session id)
              (t.without (.handler id)))
        | none => none

/-- The invariant while control is in the event loop. -/
structure Ok (t : Live) : Prop where
  session : t.session.Ok t.flight
  posts : t.session.posts = []
  rested : t.session.Rested

variable {flavor : Flavor} {codec : EchoCodec}

theorem ok_settle {s : Session} {base : Ops} (h : s.Ok base) (hrested : s.Rested) :
    (settle s base).Ok where
  session :=
    { h with
      roles := by simpa [settle, Session.waiting] using h.roles
      reading := fun hread => by
        obtain ⟨addr, len, hop, hlen⟩ := h.reading hread
        exact ⟨addr, len, by simpa [settle] using hop, hlen⟩
      writing := fun f hf => by
        obtain ⟨hframe, sqe, hop, hstaged⟩ := h.writing f hf
        exact ⟨hframe, sqe, by simpa [settle] using hop, hstaged⟩
      sleeping := fun op hop => h.sleeping op (by simpa [settle] using hop) }
  posts := rfl
  rested := ⟨hrested.reader, hrested.writer⟩

theorem ok_init {c : CoroConnection} (hread : c.FreshRead) (hwrite : c.WriteOk) :
    (init c).Ok :=
  ok_settle (Session.ok_start hread.readOk hwrite)
    (by rw [Session.start_eq]; exact ⟨by simp [Session.startRead, Session.post],
      by simp [Session.startRead, Session.post]⟩)

/-- The operations in flight are the one a coroutine waits for and the others. -/
theorem perm_without {t : Live} {role : Role} {sqe : Sqe} (hop : t.opOf role = some sqe) :
    t.flight.Perm ((role, sqe) :: t.without role) := by
  obtain ⟨op, hfind, rfl⟩ := Option.map_eq_some_iff.mp hop
  have hrole : op.1 = role := by simpa using List.find?_some hfind
  have hperm := Session.perm_find_eraseP hfind
  rw [← hrole] at hperm ⊢
  exact hperm

/-- Taking the operation of a coroutine out of those in flight. -/
theorem Ok.take {t : Live} (h : t.Ok) {role : Role} {sqe : Sqe}
    (hop : t.opOf role = some sqe) :
    t.session.Ok ((role, sqe) :: t.without role) :=
  h.session.perm (perm_without hop)

/-- The operation in flight for a coroutine is the one it waits for. -/
theorem Ok.opOf_of_mem {t : Live} (h : t.Ok) {role : Role} {sqe : Sqe}
    (hmem : (role, sqe) ∈ t.flight) : t.opOf role = some sqe := by
  have hsome : (t.opOf role).isSome := by
    rw [opOf, Option.isSome_map, List.find?_isSome]
    exact ⟨_, hmem, by simp⟩
  obtain ⟨sqe', hop⟩ := Option.isSome_iff_exists.mp hsome
  have hmem' : (role, sqe') ∈ t.flight :=
    (perm_without hop).mem_iff.mpr List.mem_cons_self
  rw [hop, h.session.op_unique role (List.mem_append_left _ hmem)
    (List.mem_append_left _ hmem')]

/-- A connection whose loops have not both ended has a read or a write in flight. -/
theorem Ok.transfer {t : Live} (h : t.Ok)
    (hrunning : t.session.reader ≠ .done ∨ t.session.writer ≠ .done) :
    ∃ role op, (role, op) ∈ t.flight ∧ op.isTransfer = true := by
  have hops : t.flight ++ t.session.posts = t.flight := by
    rw [h.posts, List.append_nil]
  cases hreader : t.session.reader with
  | running => exact absurd hreader h.rested.reader
  | onRead =>
      obtain ⟨addr, len, hop, _⟩ := h.session.reading hreader
      exact ⟨.reader, _, hops ▸ hop, rfl⟩
  | done =>
      cases hwriter : t.session.writer with
      | running => exact absurd hwriter h.rested.writer
      | onWrite f =>
          obtain ⟨_, sqe, hop, hstaged⟩ := h.session.writing f hwriter
          obtain ⟨len, rfl⟩ := hstaged.op
          exact ⟨.writer, _, hops ▸ hop, rfl⟩
      | onPop =>
          -- the reader closed the queue, which ends a write loop that waits in `Pop`
          have hopen := (h.session.idle hwriter).2
          rw [h.session.closed_of_done hreader] at hopen
          cases hopen
      | done => exact absurd hrunning (by simp [hreader, hwriter])

/-- What one step can do. -/
theorem step_cases {t t' : Live} {e : Event}
    (hstep : (machine flavor codec).step t e = some t') :
    (∃ res bytes sqe, e = .read res bytes ∧ t.opOf .reader = some sqe ∧
      ReadResult sqe res bytes ∧
      t' = settle (Session.readDone flavor codec t.session res bytes)
        (t.without .reader)) ∨
    (∃ w sqe, e = .write w ∧ t.opOf .writer = some sqe ∧ w ≤ postedWrite sqe ∧
      t' = settle ((t.session.kernelWrites sqe w).writeDone w) (t.without .writer)) ∨
    (∃ id sqe, e = .timer id ∧ t.opOf (.handler id) = some sqe ∧
      t' = settle (Session.timerDone codec t.session id) (t.without (.handler id))) := by
  cases e with
  | read res bytes =>
      left
      simp only [machine] at hstep
      split at hstep
      next sqe hop =>
        simp only [Option.ite_none_right_eq_some, Option.some.injEq] at hstep
        exact ⟨res, bytes, sqe, rfl, hop, hstep.1, hstep.2.symm⟩
      next => cases hstep
  | write w =>
      right; left
      simp only [machine] at hstep
      split at hstep
      next sqe hop =>
        simp only [Option.ite_none_right_eq_some, Option.some.injEq] at hstep
        exact ⟨w, sqe, rfl, hop, hstep.1, hstep.2.symm⟩
      next => cases hstep
  | timer id =>
      right; right
      simp only [machine] at hstep
      split at hstep
      next sqe hop =>
        simp only [Option.some.injEq] at hstep
        exact ⟨id, sqe, rfl, hop, hstep.symm⟩
      next => cases hstep

theorem ok_step {t t' : Live} {e : Event} (h : t.Ok)
    (hstep : (machine flavor codec).step t e = some t') : t'.Ok := by
  rcases step_cases hstep with
    ⟨res, bytes, sqe, _, hop, hres, rfl⟩ | ⟨w, sqe, _, hop, hw, rfl⟩ | ⟨id, sqe, _, hop, rfl⟩
  · exact ok_settle ((h.take hop).readDone res hres.2)
      ((h.take hop).readDone_rests h.rested.writer res hres.2)
  · exact ok_settle ((h.take hop).writeDone hw)
      ⟨by rw [((h.take hop).writerFrame_writeDone hw).reader]; exact h.rested.reader,
        (h.take hop).writeDone_rests hw⟩
  · exact ok_settle (h.take hop).timerDone ((h.take hop).timerDone_rests h.rested)

/-- The invariant holds in every run. -/
theorem ok_exec {c : CoroConnection} (hread : c.FreshRead) (hwrite : c.WriteOk)
    {es : List Event} {t : Live}
    (hrun : (machine flavor codec).exec (init c) es = some t) : t.Ok :=
  Machine.exec_invariant (fun _ _ _ h hstep => ok_step h hstep) hrun
    (ok_init hread hwrite)

/-- A session that a new connection has come to, with the operations `ops` in flight. -/
def Reached (flavor : Flavor) (codec : EchoCodec) (session : Session) (ops : Ops) : Prop :=
  ∃ (c : CoroConnection) (es : List Event) (flight : Ops), c.FreshRead ∧ c.WriteOk ∧
    (machine flavor codec).exec (init c) es = some { session := session, flight := flight } ∧
    flight.Perm ops

section Reached

variable {session : Session} {ops ops' : Ops}

theorem Reached.perm (h : Reached flavor codec session ops) (hperm : ops.Perm ops') :
    Reached flavor codec session ops' := by
  obtain ⟨c, es, flight, hread, hwrite, hrun, hflight⟩ := h
  exact ⟨c, es, flight, hread, hwrite, hrun, hflight.trans hperm⟩

theorem Reached.ok (h : Reached flavor codec session ops) :
    Ok { session := session, flight := ops } := by
  obtain ⟨c, es, flight, hread, hwrite, hrun, hflight⟩ := h
  have hok := ok_exec hread hwrite hrun
  exact ⟨hok.session.perm hflight, hok.posts, hok.rested⟩

theorem reached_start {c : CoroConnection} (hread : c.FreshRead) (hwrite : c.WriteOk) :
    Reached flavor codec { Session.start c with posts := [] } (Session.start c).posts :=
  ⟨c, [], _, hread, hwrite, rfl, List.Perm.refl _⟩

/-- What a coroutine of a connection does when its operation has completed with `res`. -/
inductive Resumes (flavor : Flavor) (codec : EchoCodec) (t : Session) (op : Sqe) (res : Int)
    (bytes : List UInt8) : Role → Session → Prop
  | reader (h : ReadResult op res bytes) :
      Resumes flavor codec t op res bytes .reader (Session.readDone flavor codec t res bytes)
  | writer (h : res ≤ postedWrite op) :
      Resumes flavor codec t op res bytes .writer ((t.kernelWrites op res).writeDone res)
  | handler (id : Nat) :
      Resumes flavor codec t op res bytes (.handler id) (Session.timerDone codec t id)

/-- The resumption of a coroutine is a step of its connection. -/
theorem Resumes.step {t : Live} {op : Sqe} {res : Int} {bytes : List UInt8} {role : Role}
    {t' : Session} (h : Resumes flavor codec t.session op res bytes role t')
    (hop : t.opOf role = some op) :
    ∃ e, (machine flavor codec).step t e = some (settle t' (t.without role)) := by
  cases h with
  | reader hres => exact ⟨.read res bytes, by simp only [machine, hop, if_pos hres]⟩
  | writer hw => exact ⟨.write res, by simp only [machine, hop, if_pos hw]⟩
  | handler id => exact ⟨.timer id, by simp only [machine, hop]⟩

theorem Reached.resumes {op : Sqe} {res : Int} {bytes : List UInt8} {role : Role}
    {t' : Session} (h : Reached flavor codec session ((role, op) :: ops))
    (hran : Resumes flavor codec session op res bytes role t') :
    Reached flavor codec { t' with posts := [] } (ops ++ t'.posts) := by
  obtain ⟨c, es, flight, hread, hwrite, hrun, hflight⟩ := h
  have hop := (ok_exec hread hwrite hrun).opOf_of_mem
    (hflight.mem_iff.mpr List.mem_cons_self)
  obtain ⟨e, he⟩ := hran.step (t := { session := session, flight := flight }) hop
  refine ⟨c, es ++ [e], _, hread, hwrite, Machine.exec_concat_eq_some.mpr ⟨_, hrun, he⟩, ?_⟩
  exact (List.Perm.cons_inv ((perm_without hop).symm.trans hflight)).append_right _

end Reached

end Live

/-! ### Data for examples -/

/-- The number `n` in base 128, lowest digits first, on at most `k + 1` bytes. -/
def varint : Nat → Nat → List UInt8
  | 0, n => [UInt8.ofNat n]
  | k + 1, n =>
      if n < 128 then [UInt8.ofNat n]
      else UInt8.ofNat (128 + n % 128) :: varint k (n / 128)

theorem length_varint_le (k n : Nat) : (varint k n).length ≤ k + 1 := by
  induction k generalizing n with
  | zero => rfl
  | succ k ih =>
      rw [varint]
      split
      · simp
      · simpa using ih (n / 128)

/-- The field `message` of a proto3 message, with tag `0x0a`; an empty text is not written. -/
def messageField (text : List UInt8) : List UInt8 :=
  if text = [] then [] else 0x0a :: (varint 4 text.length ++ text)

theorem length_messageField_le (text : List UInt8) :
    (messageField text).length ≤ text.length + 6 := by
  have hvarint := length_varint_le 4 text.length
  rw [messageField]
  split
  · simp
  · simp only [List.length_cons, List.length_append]
    omega

/-- The text of a proto3 message with no field other than a short ASCII `message`. -/
def parseMessageField : List UInt8 → Option (List UInt8)
  | [] => some []
  | [_] => none
  | tag :: size :: text =>
      if tag = 0x0a ∧ size < 128 ∧ size.toNat = text.length ∧ text.all (fun b => b < 128) then
        some text
      else none

/--
The messages of `rpc_message.proto` as protobuf reads and writes them.  Payloads with
long or non-ASCII texts, repeated or unknown fields, which protobuf reads as well, are
left out.  A message of `2 ^ 31` bytes or more is not serialised.
-/
def protoCodec : EchoCodec :=
  { parseEchoRequest := parseMessageField
    serializeEchoResponse := fun text =>
      if (messageField text).length < 2 ^ 31 then messageField text else [] }

example : protoCodec.reply [] = [10, 6, 69, 99, 104, 111, 58, 32] := by decide

theorem length_protoCodec_reply_lt (message : List UInt8) :
    (protoCodec.reply message).length < 2 ^ 31 := by
  simp only [EchoCodec.reply, protoCodec]
  split
  · assumption
  · simp

theorem length_of_parseMessageField {payload text : List UInt8}
    (h : parseMessageField payload = some text) : text.length < 128 := by
  unfold parseMessageField at h
  split at h
  · cases h
    simp
  · cases h
  · split at h
    · rename_i hfield
      cases h
      rw [← hfield.2.2.1]
      exact UInt8.lt_iff_toNat_lt.mp hfield.2.1
    · cases h

/-- The response to a request that parses fits an `int`. -/
theorem protoCodec_response_lt {payload message : List UInt8}
    (h : protoCodec.parseEchoRequest payload = some message) :
    headerSize + (protoCodec.reply message).length < 2 ^ 31 := by
  have hmessage := length_of_parseMessageField h
  have hfield := length_messageField_le (echoText ++ message)
  have hreply : (protoCodec.reply message).length ≤
      (messageField (echoText ++ message)).length := by
    simp only [EchoCodec.reply, protoCodec]
    split <;> simp
  have htext : (echoText ++ message).length = 6 + message.length := by
    rw [List.length_append, echoText]
    rfl
  rw [headerSize]
  omega

theorem smallConn_writeOk : smallConn.WriteOk := fun _ => rfl

theorem plainConn_writeOk : plainConn.WriteOk := fun h => by cases h

/-- The bytes of a request without payload. -/
def emptyRequest : List UInt8 := [0x54, 0x52, 1, 0, 0, 0, 0, 7, 0, 0, 0, 0]

/-- The request with the text `"a"`. -/
def echoRequest : Message := (smallRequest.1, [0x0a, 1, 0x61])

end CRpc
