import CRpc.ReadLoop

/-!
# Framing under arbitrary fragmentation

The two results about what a handler delivers, for every way the kernel can cut
a byte stream into read completions and for both buffer modes:

* a stream of encoded messages is delivered exactly, and a fixed buffer that
  holds the largest frame never leaves a read without room;
* on any stream, well formed or not, the messages delivered are a prefix of the
  reference parse of the whole stream.
-/

namespace CRpc

open Lib Protocol

/-- The bytes that `EncodeMessage` appends for one message. -/
def encoded (m : Message) : List UInt8 :=
  (encodeMessage Buffer.empty m.1 m.2).getSpan

/-- The concatenation of the encodings of a list of messages. -/
def encodedStream (ms : List Message) : List UInt8 :=
  (ms.map encoded).flatten

/-- `got` is `sent` as its receiver should see it. -/
structure Received (sent got : Message) : Prop where
  version : got.1.version = sent.1.version
  msgType : got.1.msgType = sent.1.msgType
  seqId : got.1.seqId = sent.1.seqId
  payloadLen : got.1.payloadLen.toNat = sent.2.length
  payload : got.2 = sent.2

/-- The encoding of a message, labelled with what a receiver decodes. -/
def wireWord (m : Message) : Message × List UInt8 :=
  ((wireHeader m.1 m.2, m.2), frame m.1 m.2)

theorem encoded_eq_frame (m : Message) : encoded m = frame m.1 m.2 := by
  have hroom :
      (Buffer.empty.ensureWritable (headerSize + m.2.length)).1 = true := by
    cases hres : (Buffer.empty.ensureWritable (headerSize + m.2.length)).1 with
    | true => rfl
    | false =>
        have hfix :=
          ((Buffer.ensureWritable_eq_false_iff Buffer.valid_empty _).mp hres).1
        simp [Buffer.empty] at hfix
  have hspec := (encodeMessage_spec Buffer.valid_empty m.1 m.2 hroom).2
  rw [Buffer.getSpan_empty, List.nil_append] at hspec
  exact hspec

theorem encodedStream_eq_wordsOf (ms : List Message) :
    encodedStream ms = Decoder.wordsOf (ms.map wireWord) := by
  simp only [encodedStream, Decoder.wordsOf, List.map_map]
  congr 1
  apply List.map_congr_left
  intro m _
  exact encoded_eq_frame m

theorem codeword_wireWord {ms : List Message}
    (hsize : ∀ m, m ∈ ms → m.2.length < 2 ^ 32) :
    ∀ w, w ∈ ms.map wireWord → frames.Codeword w.1 w.2 := by
  intro w hw
  obtain ⟨m, hm, rfl⟩ := List.mem_map.mp hw
  exact codeword_frame (hsize m hm)

theorem received_wireWord {m : Message} (h : m.2.length < 2 ^ 32) :
    Received m (wireWord m).1 := by
  refine ⟨rfl, rfl, rfl, ?_, rfl⟩
  simp only [wireWord, wireHeader, UInt32.toNat_ofNat', Nat.mod_eq_of_lt h]

theorem forall₂_received :
    ∀ {ms : List Message}, (∀ m, m ∈ ms → m.2.length < 2 ^ 32) →
      List.Forall₂ Received ms ((ms.map wireWord).map Prod.fst)
  | [], _ => List.Forall₂.nil
  | m :: ms, hsize =>
      List.Forall₂.cons (received_wireWord (hsize m (by simp)))
        (forall₂_received fun m' hm' => hsize m' (List.mem_cons_of_mem _ hm'))

/--
While a stream of frames that fit arrives in a fixed buffer, the unread bytes
never fill it.
-/
theorem unread_lt_capacity {ms : List Message} {capacity : Nat}
    (hcap : 0 < capacity)
    (hsize : ∀ m, m ∈ ms → m.2.length < 2 ^ 32)
    (hfit : ∀ m, m ∈ ms → headerSize + m.2.length ≤ capacity)
    {chunks : List (List UInt8)} (hpre : chunks.flatten <+: encodedStream ms) :
    (frames.feed [] chunks).2.length < capacity := by
  rw [encodedStream_eq_wordsOf] at hpre
  obtain ⟨done, todo, hsplit, _, _, hrest, hshort⟩ :=
    Decoder.feed_codewords (codeword_wireWord hsize) hpre
  cases todo with
  | nil =>
      have hnil : (frames.feed [] chunks).2 = [] := by simpa using hrest
      rw [hnil]
      exact hcap
  | cons w todo =>
      -- the unread bytes are a proper prefix of the next frame
      have hw : w ∈ ms.map wireWord := by
        rw [hsplit]
        simp
      obtain ⟨m, hm, rfl⟩ := List.mem_map.mp hw
      have hlt := hshort (wireWord m) rfl
      have hle := hfit m hm
      simp only [wireWord, length_frame] at hlt
      omega

/--
Framing is lossless under any fragmentation, in both buffer modes; and a fixed
buffer in which every frame fits gives every read at least one byte.
-/
theorem framing_lossless {c : CoroConnection} (hfresh : c.FreshRead)
    {ms : List Message} (hsize : ∀ m, m ∈ ms → m.2.length < 2 ^ 32)
    (hfit : c.readBufIdx.isSome →
      ∀ m, m ∈ ms → headerSize + m.2.length ≤ c.readBuffer.capacity)
    {chunks : List (List UInt8)} (hcut : chunks.flatten = encodedStream ms)
    {t : Reader}
    (hrun : Reader.machine.exec { conn := c, delivered := [] } chunks = some t) :
    List.Forall₂ Received ms t.delivered ∧
      t.conn.readBuffer.readableBytes = 0 ∧
      (c.readBufIdx.isSome → 0 < c.readBuffer.capacity →
        ∀ (cs : List (List UInt8)) (s : Reader), cs <+: chunks →
          Reader.machine.exec { conn := c, delivered := [] } cs = some s →
          0 < s.conn.read.1.readBuffer.writableBytes) := by
  obtain ⟨hok, _, hun, hdel⟩ := Reader.exec_feed hfresh hrun
  have hfeed : frames.feed [] chunks = ((ms.map wireWord).map Prod.fst, []) :=
    Decoder.feed_all_codewords (codeword_wireWord hsize)
      (by rw [hcut, encodedStream_eq_wordsOf])
  rw [hfeed] at hun hdel
  refine ⟨?_, ?_, ?_⟩
  · rw [hdel]
    exact forall₂_received hsize
  · have hlen := Buffer.length_getSpan hok.valid
    rw [Reader.unread] at hun
    rw [← hlen, hun]
    rfl
  · intro hfix hcap cs s hpre hs
    obtain ⟨idx, hidx⟩ := Option.isSome_iff_exists.mp hfix
    obtain ⟨hok', hidx', hun', _⟩ := Reader.exec_feed hfresh hs
    have hsame := Reader.exec_capacity_fixed hfresh hidx hs
    have hprefix : cs.flatten <+: encodedStream ms := by
      obtain ⟨rest, rfl⟩ := hpre
      rw [← hcut, List.flatten_append]
      exact List.prefix_append _ _
    have hlt := unread_lt_capacity hcap hsize (hfit hfix) hprefix
    rw [CoroConnection.read_writable_fixed hok' (hidx'.trans hidx), hsame]
    rw [Reader.unread] at hun'
    rw [hun']
    exact hlt

/-- A connection with a fixed read buffer of 16 bytes. -/
def smallConn : CoroConnection :=
  { fd := 5, closed := false, fixedFileIdx := some 0, readBufIdx := some 1,
    writeBufIdx := some 0, readBuffer := Buffer.fixed (List.replicate 16 0) 16,
    writeBuffer := Buffer.fixed (List.replicate 16 0) 16, bufSize := 16 }

theorem smallConn_freshRead : smallConn.FreshRead :=
  CoroConnection.FreshRead.fixed 1 (List.replicate 16 0) rfl rfl

/-- A connection of a worker that has no registered buffer left. -/
def plainConn : CoroConnection :=
  { fd := 5, closed := false, fixedFileIdx := none, readBufIdx := none, writeBufIdx := none
    readBuffer := Buffer.dynamic 65536, writeBuffer := Buffer.dynamic 8192, bufSize := 16 }

theorem plainConn_freshRead : plainConn.FreshRead := CoroConnection.FreshRead.dynamic rfl rfl

/-- A request with a one-byte payload. -/
def smallRequest : Message :=
  ({ magic := 0, version := 1, msgType := 0, seqId := 7, payloadLen := 0 }, [9])

/--
Two frames in five completions, cut inside the magic and inside the length; the
fourth fills the buffer, so that the fifth is read after a compaction.
-/
theorem framing_lossless_five_cuts :
    ∃ t,
      Reader.machine.exec { conn := smallConn, delivered := [] }
        [[0x54], [0x52, 1, 0, 0, 0, 0, 7, 0], [0, 0, 1, 9, 0x54, 0x52],
          [1], [0, 0, 0, 0, 7, 0, 0, 0, 1, 9]] = some t ∧
      List.Forall₂ Received [smallRequest, smallRequest] t.delivered ∧
      t.conn.readBuffer.readableBytes = 0 := by
  have hsize : ∀ m, m ∈ [smallRequest, smallRequest] → m.2.length < 2 ^ 32 := by
    decide
  have hfit : ∀ m, m ∈ [smallRequest, smallRequest] →
      headerSize + m.2.length ≤ smallConn.readBuffer.capacity := by
    decide
  obtain ⟨t, ht⟩ : ∃ t,
      Reader.machine.exec { conn := smallConn, delivered := [] }
        [[0x54], [0x52, 1, 0, 0, 0, 0, 7, 0], [0, 0, 1, 9, 0x54, 0x52],
          [1], [0, 0, 0, 0, 7, 0, 0, 0, 1, 9]] = some t :=
    Option.isSome_iff_exists.mp (by decide)
  have hmain := framing_lossless smallConn_freshRead hsize (fun _ => hfit)
    (by decide) ht
  exact ⟨t, ht, hmain.1, hmain.2.1⟩

/--
On every stream the messages delivered are a prefix of the reference parse,
every received byte is accounted for by a move of that parse or is unread, and
two fragmentations of one stream deliver comparable sequences.
-/
theorem delivered_prefix_reference {c : CoroConnection} (hfresh : c.FreshRead)
    {chunks : List (List UInt8)} {t : Reader}
    (hrun : Reader.machine.exec { conn := c, delivered := [] } chunks = some t)
    (later : List UInt8) :
    t.delivered <+: frames.decode (chunks.flatten ++ later) ∧
      (∃ pos, pos ≤ chunks.flatten.length ∧
        t.unread = chunks.flatten.drop pos ∧
        frames.Path chunks.flatten t.delivered t.unread) ∧
      ∀ {c' : CoroConnection}, c'.FreshRead →
        ∀ {chunks' : List (List UInt8)} {later' : List UInt8} {t' : Reader},
          Reader.machine.exec { conn := c', delivered := [] } chunks' = some t' →
          chunks'.flatten ++ later' = chunks.flatten ++ later →
          t.delivered <+: t'.delivered ∨ t'.delivered <+: t.delivered := by
  obtain ⟨_, _, hun, hdel⟩ := Reader.exec_feed hfresh hrun
  have hpath : frames.Path chunks.flatten t.delivered t.unread := by
    rw [hun, hdel]
    exact Decoder.feed_path [] chunks
  have hpre := hpath.prefix_decode later
  refine ⟨hpre, ?_, ?_⟩
  · obtain ⟨moved, hmoved⟩ := hpath.suffix
    refine ⟨moved.length, ?_, ?_, hpath⟩
    · rw [← hmoved, List.length_append]
      omega
    · rw [← hmoved, List.drop_left]
  · intro c' hfresh' chunks' later' t' hrun' hsame
    obtain ⟨_, _, _, hdel'⟩ := Reader.exec_feed hfresh' hrun'
    have hpre' : t'.delivered <+: frames.decode (chunks'.flatten ++ later') := by
      rw [hdel']
      exact (Decoder.feed_path [] chunks').prefix_decode later'
    rw [hsame] at hpre'
    exact List.prefix_or_prefix_of_prefix hpre hpre'

/-- A byte of garbage, then a request in two parts: the byte is skipped, the request delivered. -/
def skippedByte : List (List UInt8) :=
  [[0, 0x54, 0x52, 1, 0, 0, 0, 0, 7, 0, 0, 0], [1, 9]]

theorem delivered_prefix_reference_skipped_byte :
    ∃ t,
      Reader.machine.exec { conn := smallConn, delivered := [] } skippedByte = some t ∧
      t.delivered.map Prod.snd = [[9]] ∧
      t.delivered <+: frames.decode (skippedByte.flatten ++ [0x54]) := by
  have hrun : (Reader.machine.exec { conn := smallConn, delivered := [] } skippedByte).any
      (fun t => t.delivered.map Prod.snd = [[9]]) = true := by
    decide
  obtain ⟨t, ht, hpayload⟩ := (Option.any_eq_true _ _).mp hrun
  exact ⟨t, ht, of_decide_eq_true hpayload,
    (delivered_prefix_reference smallConn_freshRead ht [0x54]).1⟩

end CRpc
