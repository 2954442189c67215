import CRpc.Framing

/-!
# When the read loop makes progress

Two ways in which a handler can stop making progress although its peer did
nothing wrong, with the exact conditions under which they do not arise.

* The inner loop stops on every `nullopt`, also on the one that reports a skipped
  byte.  A complete frame can then be left unread behind garbage
  (`no_frame_left_waiting_iff`).
* `Read` ignores a refusal of `EnsureWritable`, and the length field of the entry
  has 32 bits.  The posted read can then have length zero, which the kernel
  completes with 0, the result that means end of stream (`read_posts_iff`).

A reader that is left with neither (`Settled`) has delivered the whole parse of what it
received, so two of them that have received the same bytes have delivered the same
messages, whatever their buffers and however the bytes were cut.
-/

namespace CRpc

open Lib Protocol

/-! ### Frames left behind garbage -/

/-- No complete frame is unread and no byte of garbage is in front. -/
def Settled (bs : List UInt8) : Prop :=
  bs.length < headerSize ∨ (bs.take 2 = magicBytes ∧ bs.length < announced bs)

instance (bs : List UInt8) : Decidable (Settled bs) :=
  inferInstanceAs (Decidable (_ ∨ _))

theorem settled_iff_wait {bs : List UInt8} : Settled bs ↔ frames.look bs = .wait :=
  frameLook_wait_iff.symm

/--
The unread bytes and the new chunk leave no frame behind garbage: where a
garbage byte follows the complete frames at the front, skipping that one byte
is enough.
-/
def Resyncs (unread chunk : List UInt8) : Prop :=
  headerSize ≤ (frames.front (unread ++ chunk)).2.length →
    (frames.front (unread ++ chunk)).2.take 2 ≠ magicBytes →
      Settled ((frames.front (unread ++ chunk)).2.drop 1)

instance (unread chunk : List UInt8) : Decidable (Resyncs unread chunk) :=
  inferInstanceAs (Decidable (_ → _ → _))

theorem settled_drain_iff (unread chunk : List UInt8) :
    Settled (frames.drain (unread ++ chunk)).2 ↔ Resyncs unread chunk := by
  rw [settled_iff_wait, Decoder.look_drain_iff, frames_look, frameLook_skip_iff,
    Resyncs, ← settled_iff_wait, and_imp]

/-- A reader that ends settled has delivered the whole parse of what it received. -/
theorem delivered_eq_decode {c : CoroConnection} (hfresh : c.FreshRead)
    {chunks : List (List UInt8)} {t : Reader}
    (hrun : Reader.machine.exec { conn := c, delivered := [] } chunks = some t)
    (hsettled : Settled t.unread) :
    t.delivered = frames.decode chunks.flatten := by
  obtain ⟨_, _, hun, hdel⟩ := Reader.exec_feed hfresh hrun
  have hpath : frames.Path chunks.flatten t.delivered t.unread := by
    rw [hun, hdel]
    exact Decoder.feed_path [] chunks
  rw [hpath.decode_eq, Decoder.decode_of_wait (settled_iff_wait.mp hsettled),
    List.append_nil]

/-- Every completion of a run resynchronises with one skip. -/
def Resynced (c : CoroConnection) (chunks : List (List UInt8)) : Prop :=
  ∀ s chunk, Reader.machine.Takes { conn := c, delivered := [] } chunks s chunk →
    Resyncs s.unread chunk

/-- The bytes are the beginning of a stream of frames. -/
def FrameStream (bs : List UInt8) : Prop :=
  ∃ ms : List Message, (∀ m, m ∈ ms → m.2.length < 2 ^ 32) ∧ bs <+: encodedStream ms

/-- Before the first completion there is nothing to resynchronise. -/
theorem settled_init {c : CoroConnection} (hfresh : c.FreshRead) {t : Reader}
    (hrun : Reader.machine.exec { conn := c, delivered := [] } [] = some t) :
    Settled t.unread := by
  obtain ⟨_, _, hun, _⟩ := Reader.exec_feed hfresh hrun
  rw [hun]
  exact Or.inl (by decide)

/-- A reader is settled exactly when its last completion has resynchronised. -/
theorem settled_concat_iff {c : CoroConnection} (hfresh : c.FreshRead)
    {chunks : List (List UInt8)} {chunk : List UInt8} {m t : Reader}
    (hm : Reader.machine.exec { conn := c, delivered := [] } chunks = some m)
    (hstep : Reader.machine.step m chunk = some t) :
    Settled t.unread ↔ Resyncs m.unread chunk := by
  obtain ⟨hok, _, _, _⟩ := Reader.exec_feed hfresh hm
  obtain ⟨_, hroom, rfl⟩ := Reader.step_eq_some.mp hstep
  obtain ⟨_, hun, _, _, _⟩ := Reader.onChunk_spec hok hroom
  rw [hun, settled_drain_iff]

theorem Resynced.settled {c : CoroConnection} (hfresh : c.FreshRead)
    {chunks : List (List UInt8)} {t : Reader} (h : Resynced c chunks)
    (hrun : Reader.machine.exec { conn := c, delivered := [] } chunks = some t) :
    Settled t.unread := by
  rcases List.eq_nil_or_concat chunks with rfl | ⟨chunks, chunk, rfl⟩
  · exact settled_init hfresh hrun
  · rw [List.concat_eq_append] at h hrun
    obtain ⟨m, hm, hstep⟩ := Machine.exec_concat_eq_some.mp hrun
    exact (settled_concat_iff hfresh hm hstep).mpr ((Machine.forall_takes_concat hm).mp h).2

theorem FrameStream.settled {c : CoroConnection} (hfresh : c.FreshRead)
    {chunks : List (List UInt8)} {t : Reader} (h : FrameStream chunks.flatten)
    (hrun : Reader.machine.exec { conn := c, delivered := [] } chunks = some t) :
    Settled t.unread := by
  obtain ⟨ms, hsize, hpre⟩ := h
  obtain ⟨_, _, hun, _⟩ := Reader.exec_feed hfresh hrun
  rw [encodedStream_eq_wordsOf] at hpre
  rw [hun, settled_iff_wait]
  exact Decoder.look_feed_codewords (codeword_wireWord hsize) hpre

/--
The handler goes back to `Read()` with no complete frame unread, and with all
messages received so far delivered, exactly in the runs in which every chunk
resynchronises with one skip.
-/
theorem no_frame_left_waiting_iff {c : CoroConnection} (hfresh : c.FreshRead)
    {chunks : List (List UInt8)} {t : Reader}
    (hrun : Reader.machine.exec { conn := c, delivered := [] } chunks = some t) :
    (∀ cs s, cs <+: chunks →
        Reader.machine.exec { conn := c, delivered := [] } cs = some s →
        Settled s.unread ∧ s.delivered = frames.decode cs.flatten) ↔
      ∀ s chunk,
        Reader.machine.Takes { conn := c, delivered := [] } chunks s chunk →
        Resyncs s.unread chunk := by
  induction chunks using List.reverseRecOn generalizing t with
  | nil =>
      constructor
      · intro _ s chunk htakes
        exact absurd htakes Machine.takes_nil
      · intro _ cs s hcs hs
        obtain rfl : cs = [] := List.prefix_nil.mp hcs
        have hset := settled_init hfresh hs
        exact ⟨hset, delivered_eq_decode hfresh hs hset⟩
  | append_singleton chunks chunk ih =>
      obtain ⟨m, hm, hstep⟩ := Machine.exec_concat_eq_some.mp hrun
      rw [Machine.forall_visited_concat hrun, Machine.forall_takes_concat hm, ih hm]
      apply and_congr_right
      intro _
      rw [← settled_concat_iff hfresh hm hstep]
      exact ⟨fun h => h.1, fun h => ⟨h, delivered_eq_decode hfresh hrun h⟩⟩

/-- The cut lets the reader resynchronise behind the garbage: nothing is left waiting. -/
theorem no_frame_left_waiting_skipped_byte :
    ∃ t,
      Reader.machine.exec { conn := smallConn, delivered := [] } skippedByte = some t ∧
      (∀ s chunk,
        Reader.machine.Takes { conn := smallConn, delivered := [] } skippedByte s chunk →
        Resyncs s.unread chunk) ∧
      ∀ cs s, cs <+: skippedByte →
        Reader.machine.exec { conn := smallConn, delivered := [] } cs = some s →
        Settled s.unread ∧ s.delivered = frames.decode cs.flatten := by
  have hrun : (Reader.machine.exec { conn := smallConn, delivered := [] }
      [[0, 0x54, 0x52, 1, 0, 0, 0, 0, 7, 0, 0, 0]]).any (fun s =>
        Resyncs s.unread [1, 9] ∧ (Reader.machine.step s [1, 9]).isSome = true) = true := by
    decide
  obtain ⟨s, hs, hstate⟩ := (Option.any_eq_true _ _).mp hrun
  obtain ⟨hlast, hsome⟩ := of_decide_eq_true hstate
  obtain ⟨t, ht⟩ := Option.isSome_iff_exists.mp hsome
  have hexec : Reader.machine.exec { conn := smallConn, delivered := [] } skippedByte = some t :=
    Machine.exec_concat_eq_some.mpr ⟨s, hs, ht⟩
  have hall : ∀ s chunk,
      Reader.machine.Takes { conn := smallConn, delivered := [] } skippedByte s chunk →
      Resyncs s.unread chunk := by
    refine (Machine.forall_takes_concat hs).mpr ⟨?_, hlast⟩
    have hinit := Machine.exec_nil (M := Reader.machine) { conn := smallConn, delivered := [] }
    refine (Machine.forall_takes_concat hinit).mpr
      ⟨fun s chunk htakes => absurd htakes Machine.takes_nil, ?_⟩
    decide
  exact ⟨t, hexec, hall, (no_frame_left_waiting_iff smallConn_freshRead hexec).mpr hall⟩

/-- One garbage byte in front: the complete request behind it stays unread. -/
theorem frame_left_behind_garbage :
    ∃ t,
      Reader.machine.exec { conn := smallConn, delivered := [] }
        [[0, 0x54, 0x52, 1, 0, 0, 0, 0, 7, 0, 0, 0, 0]] = some t ∧
      ¬ Settled t.unread ∧ t.delivered = [] ∧
      t.unread = [0x54, 0x52, 1, 0, 0, 0, 0, 7, 0, 0, 0, 0] := by
  have hrun : (Reader.machine.exec { conn := smallConn, delivered := [] }
      [[0, 0x54, 0x52, 1, 0, 0, 0, 0, 7, 0, 0, 0, 0]]).any
        (fun t => decide (¬ Settled t.unread ∧ t.delivered = [] ∧
          t.unread = [0x54, 0x52, 1, 0, 0, 0, 0, 7, 0, 0, 0, 0])) = true := by
    decide
  obtain ⟨t, ht, hprop⟩ := (Option.any_eq_true _ _).mp hrun
  exact ⟨t, ht, of_decide_eq_true hprop⟩

/-! ### Reads of length zero -/

/-- Room that `EnsureWritable(4096)` leaves in a dynamic buffer. -/
def growRoom (b : Buffer) : Nat :=
  if 4096 ≤ b.writableBytes then b.writableBytes
  else max 4096 (b.capacity - b.readableBytes)

/--
The state of the read buffer lets `Read` post at least one byte: a fixed buffer
is not full of unread bytes, the room in a dynamic one is not a multiple of the
range of the length field.
-/
def HasRoom (c : CoroConnection) : Prop :=
  if c.readBufIdx.isSome then c.readBuffer.readableBytes < c.readBuffer.capacity
  else ¬ 2 ^ 32 ∣ growRoom c.readBuffer

instance (c : CoroConnection) : Decidable (HasRoom c) :=
  inferInstanceAs (Decidable (if c.readBufIdx.isSome then _ else ¬ _ ∣ _))

/-- `io_uring_register_buffers` takes no buffer above 1 GiB. -/
def RegisteredSize (c : CoroConnection) : Prop :=
  c.readBufIdx.isSome → c.readBuffer.capacity ≤ 2 ^ 30

theorem writable_eq_growRoom {c : CoroConnection} (h : c.ReadOk)
    (hdyn : c.readBufIdx = none) :
    c.read.1.readBuffer.writableBytes = growRoom c.readBuffer := by
  have hmode : c.readBuffer.isFixed = false := by rw [h.mode, hdyn]; rfl
  have hroom := Buffer.compact_writableBytes c.readBuffer
  have hread : c.read.1.readBuffer = (c.readBuffer.ensureWritable 4096).2 := by
    simp [CoroConnection.read, CoroConnection.readRequest, hdyn]
  rw [hread, growRoom, Buffer.ensureWritable]
  by_cases hnow : 4096 ≤ c.readBuffer.writableBytes
  · rw [if_pos hnow, if_pos hnow]
  · rw [if_neg hnow, if_neg hnow]
    by_cases hcompact : 4096 ≤ c.readBuffer.compact.writableBytes
    · rw [if_pos hcompact]
      rw [hroom] at hcompact ⊢
      rw [max_eq_right hcompact]
    · -- neither was enough: the storage grows by exactly the request
      rw [if_neg hcompact, if_neg (by simp [hmode])]
      rw [hroom] at hcompact
      rw [max_eq_left (by omega)]
      simp only [Buffer.writableBytes]
      omega

/-- `Read` posts at least one byte exactly when the buffer has room. -/
theorem posted_pos_iff {c : CoroConnection} (h : c.ReadOk)
    (hreg : RegisteredSize c) : 0 < postedRead c.read.2 ↔ HasRoom c := by
  have hposted : postedRead c.read.2 = c.read.1.readBuffer.writableBytes % 2 ^ 32 :=
    rfl
  rw [hposted]
  cases hidx : c.readBufIdx with
  | none =>
      rw [writable_eq_growRoom h hidx, HasRoom, hidx, Nat.pos_iff_ne_zero, ne_eq,
        Nat.dvd_iff_mod_eq_zero]
      simp
  | some idx =>
      have hlen := Buffer.length_getSpan h.valid
      have hroom := CoroConnection.read_writable_fixed h hidx
      rw [hlen] at hroom
      have hmode : c.readBuffer.isFixed = true := by rw [h.mode, hidx]; rfl
      have hcap := Buffer.ensureWritable_capacity_of_fixed hmode c.readRequest
      have hsmall : c.readBuffer.capacity ≤ 2 ^ 30 := hreg (by rw [hidx]; rfl)
      have hle : c.read.1.readBuffer.writableBytes ≤ c.readBuffer.capacity := by
        rw [← hcap]
        exact Nat.sub_le _ _
      rw [Nat.mod_eq_of_lt (by omega), hroom, HasRoom, hidx]
      simp

/-- In fixed mode only an announced frame larger than the buffer can fill it. -/
theorem oversized_of_full {c : CoroConnection} (hfresh : c.FreshRead)
    {idx : Nat} (hfix : c.readBufIdx = some idx)
    (hcap : headerSize ≤ c.readBuffer.capacity)
    {chunks : List (List UInt8)} {t : Reader}
    (hrun : Reader.machine.exec { conn := c, delivered := [] } chunks = some t)
    (hfull : t.unread.length = c.readBuffer.capacity) :
    t.unread.take 2 = magicBytes ∧ c.readBuffer.capacity < announced t.unread := by
  rcases List.eq_nil_or_concat chunks with rfl | ⟨chunks, chunk, rfl⟩
  · obtain ⟨_, _, hun, _⟩ := Reader.exec_feed hfresh hrun
    simp only [hun, Decoder.feed, List.length_nil] at hfull
    simp only [headerSize] at hcap
    omega
  · rw [List.concat_eq_append] at hrun
    obtain ⟨m, hm, hstep⟩ := Machine.exec_concat_eq_some.mp hrun
    obtain ⟨hok, hidx, _, _⟩ := Reader.exec_feed hfresh hm
    have hsame := Reader.exec_capacity_fixed hfresh hfix hm
    obtain ⟨_, hroom, rfl⟩ := Reader.step_eq_some.mp hstep
    obtain ⟨_, hun, _, _, _⟩ := Reader.onChunk_spec hok hroom
    have hmode : m.conn.readBuffer.isFixed = true := by
      rw [hok.mode, hidx, hfix]
      rfl
    -- unread bytes and chunk together fit in the buffer
    have hfits : (m.unread ++ chunk).length ≤ c.readBuffer.capacity := by
      have hv := Buffer.valid_append hok.read.valid chunk hroom
      have hspan := Buffer.getSpan_append hok.read.valid chunk
      rw [CoroConnection.getSpan_read hok] at hspan
      have hcap' := Buffer.ensureWritable_capacity_of_fixed hmode m.conn.readRequest
      have hlen := Buffer.length_getSpan hv
      have hw := hv.write_le
      rw [Reader.unread, ← hspan, hlen, ← hsame, ← hcap']
      exact (Nat.sub_le _ _).trans hw
    rw [hun] at hfull ⊢
    -- a skip would have made the unread bytes shorter than the buffer
    have hnoskip : frames.look (frames.front (m.unread ++ chunk)).2 ≠ .skip := by
      intro hskip
      have hpos := frames.skip_pos _ hskip
      have hle := (Decoder.front_path (D := frames) (m.unread ++ chunk)).suffix.length_le
      simp only [Decoder.drain, hskip, List.length_drop] at hfull
      omega
    have hwait : frames.look (frames.drain (m.unread ++ chunk)).2 = .wait :=
      (Decoder.look_drain_iff _).mpr (fun hskip => absurd hskip hnoskip)
    rcases frameLook_wait_iff.mp hwait with hshort | ⟨hmagic, hann⟩
    · omega
    · exact ⟨hmagic, by omega⟩

/--
Every `Read` of a run posts at least one byte exactly when the buffer has room
at each of them.  In fixed mode room is missing only behind a header that
announces a frame larger than the buffer.  Two connections of any modes that have
received the same bytes, each in its own cut, have delivered the same messages if
the bytes are those of frames, or if all completions of both resynchronise, or if
the cuts are equal.
-/
theorem read_posts_iff {c : CoroConnection} (hfresh : c.FreshRead)
    (hreg : RegisteredSize c) {chunks : List (List UInt8)} {t : Reader}
    (hrun : Reader.machine.exec { conn := c, delivered := [] } chunks = some t) :
    ((∀ cs s, cs <+: chunks →
        Reader.machine.exec { conn := c, delivered := [] } cs = some s →
        0 < postedRead s.conn.read.2) ↔
      ∀ cs s, cs <+: chunks →
        Reader.machine.exec { conn := c, delivered := [] } cs = some s →
        HasRoom s.conn) ∧
    (c.readBufIdx.isSome → headerSize ≤ c.readBuffer.capacity →
      ∀ cs s, cs <+: chunks →
        Reader.machine.exec { conn := c, delivered := [] } cs = some s →
        ¬ HasRoom s.conn →
        s.unread.take 2 = magicBytes ∧
          c.readBuffer.capacity < announced s.unread) ∧
    ∀ {c' : CoroConnection}, c'.FreshRead → ∀ {chunks' : List (List UInt8)} {t' : Reader},
      Reader.machine.exec { conn := c', delivered := [] } chunks' = some t' →
      chunks'.flatten = chunks.flatten →
      FrameStream chunks.flatten ∨ (Resynced c chunks ∧ Resynced c' chunks') ∨
        chunks' = chunks →
      t'.delivered = t.delivered := by
  have hcapOf : ∀ {cs s},
      Reader.machine.exec { conn := c, delivered := [] } cs = some s →
      c.readBufIdx.isSome → s.conn.readBuffer.capacity = c.readBuffer.capacity := by
    intro cs s hs hfix
    obtain ⟨idx, hidx⟩ := Option.isSome_iff_exists.mp hfix
    exact Reader.exec_capacity_fixed hfresh hidx hs
  refine ⟨?_, ?_, ?_⟩
  · refine forall_congr' fun cs => forall_congr' fun s => forall_congr' fun _ =>
      forall_congr' fun hs => ?_
    obtain ⟨hok, hidx, _, _⟩ := Reader.exec_feed hfresh hs
    refine posted_pos_iff hok ?_
    intro hfix
    rw [hidx] at hfix
    rw [hcapOf hs hfix]
    exact hreg hfix
  · intro hfix hcap cs s _ hs hno
    obtain ⟨idx, hidx⟩ := Option.isSome_iff_exists.mp hfix
    obtain ⟨hok, hsame, _, _⟩ := Reader.exec_feed hfresh hs
    have hlen := Buffer.length_getSpan hok.valid
    have hle := hok.valid.write_le
    refine oversized_of_full hfresh hidx hcap hs ?_
    rw [HasRoom, hsame, if_pos hfix, not_lt] at hno
    have hunread : s.unread.length = s.conn.readBuffer.readableBytes := hlen
    rw [hunread, ← hcapOf hs hfix]
    exact le_antisymm ((Nat.sub_le _ _).trans hle) hno
  · intro c' hfresh' chunks' t' hrun' hsame hcond
    have hparse : Settled t.unread → Settled t'.unread → t'.delivered = t.delivered := by
      intro hsettled hsettled'
      rw [delivered_eq_decode hfresh hrun hsettled, delivered_eq_decode hfresh' hrun' hsettled',
        hsame]
    rcases hcond with hframes | ⟨hsync, hsync'⟩ | rfl
    · exact hparse (hframes.settled hfresh hrun) ((hsame ▸ hframes).settled hfresh' hrun')
    · exact hparse (hsync.settled hfresh hrun) (hsync'.settled hfresh' hrun')
    · obtain ⟨_, _, _, hdel⟩ := Reader.exec_feed hfresh hrun
      obtain ⟨_, _, _, hdel'⟩ := Reader.exec_feed hfresh' hrun'
      rw [hdel', hdel]

/-- A request in two parts into a registered buffer, and as a whole into a dynamic one. -/
theorem read_posts_two_cuts :
    ∃ t t',
      Reader.machine.exec { conn := smallConn, delivered := [] }
        [(encoded smallRequest).take 12, (encoded smallRequest).drop 12] = some t ∧
      Reader.machine.exec { conn := plainConn, delivered := [] }
        [encoded smallRequest] = some t' ∧
      (∀ cs s, cs <+: [(encoded smallRequest).take 12, (encoded smallRequest).drop 12] →
        Reader.machine.exec { conn := smallConn, delivered := [] } cs = some s →
        HasRoom s.conn ∧ 0 < postedRead s.conn.read.2) ∧
      t.delivered.map Prod.snd = [[9]] ∧ t'.delivered = t.delivered := by
  have hrun : (Reader.machine.exec { conn := smallConn, delivered := [] }
      [(encoded smallRequest).take 12, (encoded smallRequest).drop 12]).any
        (fun t => t.delivered.map Prod.snd = [[9]]) = true := by
    decide
  obtain ⟨t, ht, hpayload⟩ := (Option.any_eq_true _ _).mp hrun
  obtain ⟨t', ht'⟩ : ∃ t', Reader.machine.exec { conn := plainConn, delivered := [] }
      [encoded smallRequest] = some t' :=
    Option.isSome_iff_exists.mp (by decide +kernel)
  have hroom : ∀ cs, cs ∈ List.inits
        [(encoded smallRequest).take 12, (encoded smallRequest).drop 12] →
      ∀ s, s ∈ Reader.machine.exec { conn := smallConn, delivered := [] } cs →
        HasRoom s.conn := by
    decide
  obtain ⟨hposts, _, hsame⟩ := read_posts_iff smallConn_freshRead (fun _ => by decide) ht
  have hroom' := fun cs s hcs => hroom cs (List.mem_inits _ _ |>.mpr hcs) s
  refine ⟨t, t', ht, ht', fun cs s hcs hs => ⟨hroom' cs s hcs hs, hposts.mpr hroom' cs s hcs hs⟩,
    of_decide_eq_true hpayload, hsame plainConn_freshRead ht' (by decide) (Or.inl ?_)⟩
  exact ⟨[smallRequest], by decide, by decide⟩

/-- A connection with a registered read buffer of the default 64 KiB. -/
def defaultConn : CoroConnection :=
  { fd := 5, closed := false, fixedFileIdx := some 0, readBufIdx := some 1,
    writeBufIdx := some 0,
    readBuffer := Buffer.fixed (List.replicate 65536 0) 65536,
    writeBuffer := Buffer.fixed (List.replicate 65536 0) 65536, bufSize := 65536 }

theorem defaultConn_freshRead : defaultConn.FreshRead :=
  CoroConnection.FreshRead.fixed 1 (List.replicate 65536 0) rfl
    (by rw [List.length_replicate]; rfl)

/-- The first 64 KiB of a request that announces a payload of 64 KiB. -/
def oversizedChunk : List UInt8 :=
  (frame smallRequest.1 (List.replicate 65536 0)).take 65536

theorem length_oversizedChunk : oversizedChunk.length = 65536 := by
  rw [oversizedChunk, List.length_take, length_frame, List.length_replicate]
  rfl

theorem look_oversizedChunk : frames.look oversizedChunk = .wait := by
  have hsize : (List.replicate 65536 (0 : UInt8)).length < 2 ^ 32 := by
    rw [List.length_replicate]
    omega
  apply (codeword_frame hsize).waits
  · exact List.take_prefix _ _
  · rw [length_oversizedChunk, length_frame, List.length_replicate, headerSize]
    omega

/--
One completion with the first 64 KiB of a larger frame fills the default read
buffer, and the next `Read` posts zero bytes.
-/
theorem read_posts_zero_bytes :
    ∃ t,
      Reader.machine.exec { conn := defaultConn, delivered := [] }
        [oversizedChunk] = some t ∧
      postedRead t.conn.read.2 = 0 := by
  have hwritable : defaultConn.read.1.readBuffer.writableBytes = 65536 := rfl
  have hrun : Reader.machine.exec { conn := defaultConn, delivered := [] }
      [oversizedChunk] =
        some (Reader.onChunk { conn := defaultConn, delivered := [] } oversizedChunk) := by
    refine Machine.exec_cons_eq_some.mpr ⟨_, Reader.step_eq_some.mpr ⟨?_, ?_, rfl⟩, rfl⟩
    · rw [length_oversizedChunk]
      omega
    · rw [length_oversizedChunk]
      exact hwritable.ge
  refine ⟨_, hrun, ?_⟩
  obtain ⟨hok, hidx, hun, _⟩ := Reader.exec_feed defaultConn_freshRead hrun
  have hcap := Reader.exec_capacity_fixed defaultConn_freshRead
    (show defaultConn.readBufIdx = some 1 from rfl) hrun
  have hdrain := Decoder.drain_of_wait look_oversizedChunk
  have hlen := Buffer.length_getSpan hok.valid
  rw [← Reader.unread, hun] at hlen
  simp only [Decoder.feed, List.nil_append, hdrain, length_oversizedChunk] at hlen
  have hreg : RegisteredSize
      (Reader.onChunk { conn := defaultConn, delivered := [] } oversizedChunk).conn := by
    intro _
    rw [hcap]
    decide
  have hno : ¬ HasRoom
      (Reader.onChunk { conn := defaultConn, delivered := [] } oversizedChunk).conn := by
    rw [HasRoom, hidx, hcap, ← hlen]
    decide
  exact Nat.eq_zero_of_not_pos fun hpos => hno ((posted_pos_iff hok hreg).mp hpos)

end CRpc
