import CRpc.CoroConnection
import CRpc.Lib.Machine
import CRpc.Protocol

/-!
# The read loop of a connection handler

The reading half of `handleConnection`, which is the same text in
`coro_echo.cpp` and `coro_echo_async.cpp`: `co_await conn->Read()`, then the
inner loop that calls `ParseMessage` while a header's worth of bytes is unread
and stops at the first `nullopt`.

`parseLoop` is that inner loop, generic in what the handler does with a message.
`Reader.machine` drives it: an event is the run of bytes one read completion
delivers.  `Reader.exec_feed` connects the machine with the reference decoder:
after any run, the messages delivered and the bytes left unread are those of
the fragmented reader `frames.feed` on the same chunks, in both buffer modes.
-/

namespace CRpc

open Lib Protocol

universe u

section ParseLoop

variable {σ : Type u}

/-- The inner loop with a bound on its rounds; every round but the last delivers. -/
def parseLoopFuel (onMessage : σ → RpcHeader → List UInt8 → σ) :
    Nat → Buffer → σ → Buffer × σ
  | 0, buf, s => (buf, s)
  | k + 1, buf, s =>
      if headerSize ≤ buf.readableBytes then
        match parseMessage buf default with
        | (none, buf', _) => (buf', s)
        | (some payload, buf', header) =>
            parseLoopFuel onMessage k buf' (onMessage s header payload)
      else (buf, s)

/-- The inner loop of `handleConnection`. -/
def parseLoop (onMessage : σ → RpcHeader → List UInt8 → σ)
    (buf : Buffer) (s : σ) : Buffer × σ :=
  parseLoopFuel onMessage (buf.readableBytes + 1) buf s

/-- Handling a list of messages in order. -/
def handleAll (onMessage : σ → RpcHeader → List UInt8 → σ)
    (s : σ) (ms : List Message) : σ :=
  ms.foldl (fun s m => onMessage s m.1 m.2) s

/--
The inner loop consumes unread bytes only, delivers what one burst of the
reference decoder emits and leaves what that burst leaves.
-/
theorem parseLoopFuel_spec (onMessage : σ → RpcHeader → List UInt8 → σ) :
    ∀ (k : Nat) (buf : Buffer) (s : σ), buf.Valid → buf.readableBytes < k →
      ∃ n, n ≤ buf.readableBytes ∧
        (buf.hasRead n).getSpan = (frames.drain buf.getSpan).2 ∧
        parseLoopFuel onMessage k buf s =
          (buf.hasRead n, handleAll onMessage s (frames.drain buf.getSpan).1)
  | 0, buf, s, _, hk => by omega
  | k + 1, buf, s, hv, hk => by
      have hlen := Buffer.length_getSpan hv
      have hzero : buf.hasRead 0 = buf := rfl
      by_cases hhead : headerSize ≤ buf.readableBytes
      · cases hlook : frameLook buf.getSpan with
        | wait =>
            obtain ⟨header, hparse⟩ := parseMessage_wait hv default hlook
            have hdrain := Decoder.drain_of_wait (D := frames) hlook
            refine ⟨0, Nat.zero_le _, ?_, ?_⟩
            · rw [hdrain, hzero]
            · simp [parseLoopFuel, hhead, hparse, hdrain, hzero, handleAll]
        | skip =>
            obtain ⟨header, hparse⟩ := parseMessage_skip hv default hlook
            have hdrain := Decoder.drain_of_skip (D := frames) hlook
            refine ⟨1, ?_, ?_, ?_⟩
            · simp only [headerSize] at hhead
              omega
            · rw [hdrain, Buffer.getSpan_hasRead]
            · simp [parseLoopFuel, hhead, hparse, hdrain, handleAll]
        | emit m n =>
            have hparse := parseMessage_emit hv default hlook
            have hdrain := Decoder.drain_of_emit (D := frames) hlook
            have hpos := frames.emit_pos _ _ _ hlook
            have hle := frames.emit_le _ _ _ hlook
            have hv' := Buffer.valid_hasRead hv (n := n) (by omega)
            have hspan := Buffer.getSpan_hasRead buf n
            have hread : (buf.hasRead n).readableBytes = buf.readableBytes - n := by
              simp only [Buffer.hasRead, Buffer.readableBytes]
              omega
            obtain ⟨j, hj, hrest, hloop⟩ :=
              parseLoopFuel_spec onMessage k (buf.hasRead n)
                (onMessage s m.1 m.2) hv' (by omega)
            have hadd : (buf.hasRead n).hasRead j = buf.hasRead (n + j) := by
              simp only [Buffer.hasRead, Nat.add_assoc]
            rw [hspan] at hrest hloop
            refine ⟨n + j, by omega, ?_, ?_⟩
            · rw [← hadd, hrest, hdrain]
            · simp only [parseLoopFuel, hhead, if_true, hparse, hloop, hadd, hdrain,
                handleAll, List.foldl_cons]
      · have hwait : frameLook buf.getSpan = .wait :=
          frameLook_wait_iff.mpr (Or.inl (by omega))
        have hdrain := Decoder.drain_of_wait (D := frames) hwait
        refine ⟨0, Nat.zero_le _, ?_, ?_⟩
        · rw [hdrain, hzero]
        · simp [parseLoopFuel, hhead, hdrain, hzero, handleAll]

theorem parseLoop_spec (onMessage : σ → RpcHeader → List UInt8 → σ)
    {buf : Buffer} (hv : buf.Valid) (s : σ) :
    ∃ n, n ≤ buf.readableBytes ∧
      (buf.hasRead n).getSpan = (frames.drain buf.getSpan).2 ∧
      parseLoop onMessage buf s =
        (buf.hasRead n, handleAll onMessage s (frames.drain buf.getSpan).1) :=
  parseLoopFuel_spec onMessage (buf.readableBytes + 1) buf s hv (Nat.lt_succ_self _)

end ParseLoop

/-! ### The reading machine -/

/-- A handler that reads: its connection and the messages delivered so far. -/
structure Reader where
  conn : CoroConnection
  delivered : List Message

namespace Reader

/-- `Read()`, its completion with `chunk`, then the inner loop. -/
def onChunk (s : Reader) (chunk : List UInt8) : Reader :=
  let conn := s.conn.read.1.readDone chunk
  let r := parseLoop (fun ms header payload => ms ++ [(header, payload)])
    conn.readBuffer s.delivered
  { conn := { conn with readBuffer := r.1 }, delivered := r.2 }

/-- A completion delivers at least one byte and at most `WritableBytes()`. -/
def machine : Machine Reader (List UInt8) where
  step s chunk :=
    if 0 < chunk.length ∧ chunk.length ≤ s.conn.read.1.readBuffer.writableBytes then
      some (s.onChunk chunk)
    else none

/-- The unread bytes. -/
def unread (s : Reader) : List UInt8 := s.conn.readBuffer.getSpan

theorem step_eq_some {s t : Reader} {chunk : List UInt8} :
    machine.step s chunk = some t ↔
      0 < chunk.length ∧
        chunk.length ≤ s.conn.read.1.readBuffer.writableBytes ∧
        t = s.onChunk chunk := by
  simp only [machine, Option.ite_none_right_eq_some, Option.some.injEq]
  constructor
  · rintro ⟨⟨hpos, hroom⟩, rfl⟩
    exact ⟨hpos, hroom, rfl⟩
  · rintro ⟨hpos, hroom, rfl⟩
    exact ⟨⟨hpos, hroom⟩, rfl⟩

end Reader

namespace CoroConnection

/-- The read buffer as the constructor leaves it, in one of the two modes. -/
inductive FreshRead (c : CoroConnection) : Prop
  | dynamic :
      c.readBufIdx = none →
      c.readBuffer = Buffer.dynamic 65536 →
      FreshRead c
  | fixed (idx : Nat) (mem : List UInt8) :
      c.readBufIdx = some idx →
      c.readBuffer = Buffer.fixed mem mem.length →
      FreshRead c

/-- A read buffer in use: valid, and in the mode its index says. -/
structure ReadOk (c : CoroConnection) : Prop where
  valid : c.readBuffer.Valid
  mode : c.readBuffer.isFixed = c.readBufIdx.isSome

theorem FreshRead.readOk {c : CoroConnection} (h : c.FreshRead) : c.ReadOk := by
  cases h with
  | dynamic hidx hbuf =>
      exact ⟨hbuf ▸ Buffer.valid_dynamic 65536, by rw [hidx, hbuf]; rfl⟩
  | fixed idx mem hidx hbuf =>
      exact ⟨hbuf ▸ Buffer.valid_fixed mem, by rw [hidx, hbuf]; rfl⟩

theorem FreshRead.getSpan {c : CoroConnection} (h : c.FreshRead) :
    c.readBuffer.getSpan = [] := by
  cases h with
  | dynamic _ hbuf => rw [hbuf, Buffer.getSpan_dynamic]
  | fixed _ mem _ hbuf => rw [hbuf, Buffer.getSpan_fixed]

/-- The constructor leaves a fresh read buffer. -/
theorem freshRead_create (r : FixedResources) (fd : Int) (updateOk : Bool)
    {readMem : List UInt8} (hmem : readMem.length = r.bufSize)
    (writeMem : List UInt8) :
    (create r fd updateOk readMem writeMem).1.FreshRead := by
  simp only [create]
  cases hidx : ((r.registerFile fd updateOk).2.allocateBuffer).1 with
  | none => exact FreshRead.dynamic rfl rfl
  | some idx => exact FreshRead.fixed idx readMem rfl (by rw [hmem])

/-! What `Read` does to the buffer. -/

theorem ReadOk.read {c : CoroConnection} (h : c.ReadOk) : c.read.1.ReadOk :=
  ⟨Buffer.valid_ensureWritable h.valid _, by
    simpa [CoroConnection.read] using h.mode⟩

theorem getSpan_read {c : CoroConnection} (h : c.ReadOk) :
    c.read.1.readBuffer.getSpan = c.readBuffer.getSpan :=
  Buffer.getSpan_ensureWritable h.valid _

/-- In fixed mode `Read` finds room unless the unread bytes fill the buffer. -/
theorem read_writable_fixed {c : CoroConnection} (h : c.ReadOk)
    {idx : Nat} (hfix : c.readBufIdx = some idx) :
    0 < c.read.1.readBuffer.writableBytes ↔
      c.readBuffer.getSpan.length < c.readBuffer.capacity := by
  have hmode : c.readBuffer.isFixed = true := by rw [h.mode, hfix]; rfl
  have hlen := Buffer.length_getSpan h.valid
  have hrefuse := Buffer.ensureWritable_eq_false_iff h.valid 1
  have hread : c.read.1.readBuffer = (c.readBuffer.ensureWritable 1).2 := by
    simp [CoroConnection.read, readRequest, hfix]
  rw [hread, hlen]
  cases hres : (c.readBuffer.ensureWritable 1).1 with
  | true =>
      have hroom := Buffer.le_writableBytes_of_ensureWritable hres
      have hfit : ¬ (c.readBuffer.isFixed = true ∧
          c.readBuffer.capacity < c.readBuffer.readableBytes + 1) := by
        rw [← hrefuse, hres]
        simp
      simp only [hmode, true_and] at hfit
      constructor <;> intro <;> omega
  | false =>
      -- refused: the buffer is compacted and full
      obtain ⟨_, hfull⟩ := hrefuse.mp hres
      have hw := Buffer.valid_ensureWritable h.valid 1
      have hcap := Buffer.ensureWritable_capacity_of_fixed hmode 1
      have hspan := Buffer.getSpan_ensureWritable h.valid 1
      have hlen' := Buffer.length_getSpan hw
      rw [hspan, hlen] at hlen'
      have h1 := hw.read_le
      simp only [Buffer.readableBytes, Buffer.writableBytes] at *
      constructor <;> intro <;> omega

end CoroConnection

/-! ### The machine follows the reference decoder -/

namespace Reader

theorem handleAll_collect (ms : List Message) :
    ∀ acc : List Message,
      handleAll (fun ms header payload => ms ++ [(header, payload)]) acc ms =
        acc ++ ms := by
  induction ms with
  | nil => simp [handleAll]
  | cons m ms ih =>
      intro acc
      have := ih (acc ++ [m])
      simp only [handleAll, List.foldl_cons] at this ⊢
      rw [this]
      simp

/-- One chunk: a burst of the reference decoder on unread bytes and chunk. -/
theorem onChunk_spec {s : Reader} (h : s.conn.ReadOk) {chunk : List UInt8}
    (hroom : chunk.length ≤ s.conn.read.1.readBuffer.writableBytes) :
    (s.onChunk chunk).conn.ReadOk ∧
      (s.onChunk chunk).unread = (frames.drain (s.unread ++ chunk)).2 ∧
      (s.onChunk chunk).delivered =
        s.delivered ++ (frames.drain (s.unread ++ chunk)).1 ∧
      (s.onChunk chunk).conn.readBufIdx = s.conn.readBufIdx ∧
      (s.onChunk chunk).conn.readBuffer.capacity =
        s.conn.read.1.readBuffer.capacity := by
  have hr := h.read
  have hv := Buffer.valid_append hr.valid chunk hroom
  have hspan := Buffer.getSpan_append hr.valid chunk
  rw [CoroConnection.getSpan_read h] at hspan
  obtain ⟨n, hn, hrest, hloop⟩ := parseLoop_spec
    (fun ms header payload => ms ++ [(header, payload)]) hv s.delivered
  rw [hspan] at hrest hloop
  rw [handleAll_collect] at hloop
  have honChunk : s.onChunk chunk =
      { conn :=
          { s.conn.read.1.readDone chunk with
            readBuffer :=
              ((s.conn.read.1.readBuffer.storeAtWriteBegin chunk).hasWritten
                chunk.length).hasRead n }
        delivered := s.delivered ++ (frames.drain (s.unread ++ chunk)).1 } := by
    simp only [onChunk, CoroConnection.readDone, hloop, unread]
  rw [honChunk]
  refine ⟨⟨Buffer.valid_hasRead hv hn, hr.mode⟩, hrest, rfl, rfl, rfl⟩

/-- After any run the reader is where the fragmented decoder is. -/
theorem exec_feed {c : CoroConnection} (hfresh : c.FreshRead)
    {chunks : List (List UInt8)} {t : Reader}
    (h : machine.exec { conn := c, delivered := [] } chunks = some t) :
    t.conn.ReadOk ∧ t.conn.readBufIdx = c.readBufIdx ∧
      t.unread = (frames.feed [] chunks).2 ∧
      t.delivered = (frames.feed [] chunks).1 := by
  refine Machine.run_induction
    (motive := fun chunks t => t.conn.ReadOk ∧ t.conn.readBufIdx = c.readBufIdx ∧
      t.unread = (frames.feed [] chunks).2 ∧
      t.delivered = (frames.feed [] chunks).1) ?_ ?_ h
  · exact ⟨hfresh.readOk, rfl, hfresh.getSpan, rfl⟩
  · rintro chunks s chunk s' _ ⟨hok, hidx, hun, hdel⟩ hstep
    obtain ⟨_, hroom, rfl⟩ := step_eq_some.mp hstep
    obtain ⟨hok', hun', hdel', hidx', _⟩ := onChunk_spec hok hroom
    rw [hun] at hun' hdel'
    rw [hdel] at hdel'
    rw [Decoder.feed_append]
    refine ⟨hok', hidx'.trans hidx, ?_, ?_⟩
    · simpa [Decoder.feed] using hun'
    · simpa [Decoder.feed] using hdel'

/-- A fixed read buffer keeps the capacity it was created with. -/
theorem exec_capacity_fixed {c : CoroConnection} (hfresh : c.FreshRead)
    {idx : Nat} (hfix : c.readBufIdx = some idx)
    {chunks : List (List UInt8)} {t : Reader}
    (h : machine.exec { conn := c, delivered := [] } chunks = some t) :
    t.conn.readBuffer.capacity = c.readBuffer.capacity := by
  refine Machine.run_induction
    (motive := fun _ t => t.conn.readBuffer.capacity = c.readBuffer.capacity)
    rfl ?_ h
  intro chunks s chunk s' hrun hcap hstep
  obtain ⟨hok, hidx, _, _⟩ := exec_feed hfresh hrun
  obtain ⟨_, hroom, rfl⟩ := step_eq_some.mp hstep
  obtain ⟨_, _, _, _, hcap'⟩ := onChunk_spec hok hroom
  have hmode : s.conn.readBuffer.isFixed = true := by
    rw [hok.mode, hidx, hfix]
    rfl
  rw [hcap']
  exact (Buffer.ensureWritable_capacity_of_fixed hmode _).trans hcap

end Reader

end CRpc
