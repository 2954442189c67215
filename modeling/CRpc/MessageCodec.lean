import CRpc.Protocol

/-!
# Laws of the message codec

`EncodeMessage` and `ParseMessage` against each other, for arbitrary buffers.

* `encodeMessage_allOrNothing_iff`: when `EncodeMessage` appends one frame that
  decodes to its payload, or nothing, and stays inside the storage.  It does not
  look at the result of `EnsureWritable` and stores a `size_t` length into 32
  bits, so both limits come back as conditions.
* `parseMessage_inverse`: what `ParseMessage` removes is what `EncodeMessage`
  produces for the result, for any bytes at all.
-/

namespace CRpc

open Lib

namespace Protocol

/-! ### What a frame decodes to -/

/-- The verdict on one frame, also when its length field has wrapped. -/
theorem frameLook_frame (header : RpcHeader) (payload : List UInt8) :
    frameLook (frame header payload) =
      .emit (wireHeader header payload, payload.take (payload.length % 2 ^ 32))
        (headerSize + payload.length % 2 ^ 32) := by
  have hhead := decodeHeader_frame header payload []
  rw [List.append_nil] at hhead
  have hlen : (wireHeader header payload).payloadLen.toNat = payload.length % 2 ^ 32 := by
    rw [wireHeader, UInt32.toNat_ofNat']
  have hmod : payload.length % 2 ^ 32 ≤ payload.length := Nat.mod_le _ _
  have hdrop : (frame header payload).drop headerSize = payload := rfl
  rw [frameLook_emit_iff, announced, hhead, hlen, hdrop, length_frame]
  exact ⟨by omega, rfl, by omega, rfl, rfl⟩

/-- `ParseMessage` takes the bytes `f` for one frame with the payload `payload`. -/
def DecodesTo (f payload : List UInt8) : Prop :=
  ∀ (b : Buffer) (out : RpcHeader), b.Valid → b.getSpan = f →
    (parseMessage b out).1 = some payload ∧ (parseMessage b out).2.1.getSpan = []

/-- A buffer that holds the unread bytes `bs` and nothing else. -/
def holding (bs : List UInt8) : Buffer :=
  { data := bs, capacity := bs.length, isFixed := false, writeIdx := bs.length, readIdx := 0 }

theorem valid_holding (bs : List UInt8) : (holding bs).Valid :=
  ⟨Nat.zero_le _, le_rfl, rfl⟩

theorem getSpan_holding (bs : List UInt8) : (holding bs).getSpan = bs := by
  simp [Buffer.getSpan, holding, Buffer.readableBytes, slice]

/-- A frame decodes to its payload as long as the length fits into the header. -/
theorem decodesTo_frame_iff (header : RpcHeader) (payload : List UInt8) :
    DecodesTo (frame header payload) payload ↔ payload.length < 2 ^ 32 := by
  constructor
  · intro h
    have hparse := (h _ default (valid_holding _) (getSpan_holding _)).1
    rw [parseMessage_emit (valid_holding _) default
      (by rw [getSpan_holding]; exact frameLook_frame header payload)] at hparse
    have hlen := congrArg List.length (Option.some.inj hparse)
    rw [List.length_take, min_eq_left (Nat.mod_le _ _)] at hlen
    rw [← hlen]
    exact Nat.mod_lt _ (by decide)
  · intro h b out hb hspan
    have hlook := frameLook_frame header payload
    rw [Nat.mod_eq_of_lt h, List.take_length, ← hspan] at hlook
    rw [parseMessage_emit hb out hlook]
    refine ⟨rfl, ?_⟩
    rw [Buffer.getSpan_hasRead, hspan, ← length_frame header payload, List.drop_length]

/-! ### `EncodeMessage` -/

/-- `EncodeMessage` either appends one frame or nothing, inside the storage. -/
structure AllOrNothing (before after : Buffer) (payload : List UInt8) : Prop where
  contents : (∃ f, after.getSpan = before.getSpan ++ f ∧ DecodesTo f payload) ∨
    after.getSpan = before.getSpan
  inBounds : after.writeIdx ≤ after.capacity

theorem encodeMessage_indices (b : Buffer) (header : RpcHeader) (payload : List UInt8) :
    (encodeMessage b header payload).writeIdx =
        (b.ensureWritable (headerSize + payload.length)).2.writeIdx +
          (headerSize + payload.length) ∧
      (encodeMessage b header payload).capacity =
        (b.ensureWritable (headerSize + payload.length)).2.capacity := by
  simp only [encodeMessage]
  split
  · exact ⟨Nat.add_assoc _ _ _, rfl⟩
  next hnil =>
    have hzero : payload.length = 0 := by omega
    rw [hzero]
    exact ⟨rfl, rfl⟩

/-- A refused `EncodeMessage` runs past the end of the storage. -/
theorem encodeMessage_overruns {b : Buffer} (h : b.Valid) (header : RpcHeader)
    {payload : List UInt8}
    (hrefused : (b.ensureWritable (headerSize + payload.length)).1 = false) :
    (encodeMessage b header payload).capacity < (encodeMessage b header payload).writeIdx := by
  obtain ⟨hfixed, hfull⟩ := (Buffer.ensureWritable_eq_false_iff h _).mp hrefused
  obtain ⟨hwrite, hcap⟩ := encodeMessage_indices b header payload
  have hcompact : (b.ensureWritable (headerSize + payload.length)).2 = b.compact := by
    rw [Buffer.ensureWritable] at hrefused ⊢
    split_ifs at hrefused ⊢
    rfl
  rw [hwrite, hcap, hcompact, Buffer.compact_writeIdx, Buffer.compact_capacity]
  exact hfull

/--
`EncodeMessage` is all-or-nothing exactly when the frame fits behind the unread
bytes of a fixed buffer and the payload is shorter than 2^32 bytes.
-/
theorem encodeMessage_allOrNothing_iff {b : Buffer} (h : b.Valid) (header : RpcHeader)
    (payload : List UInt8) :
    AllOrNothing b (encodeMessage b header payload) payload ↔
      (b.isFixed = true → b.readableBytes + (headerSize + payload.length) ≤ b.capacity) ∧
        payload.length < 2 ^ 32 := by
  cases hroom : (b.ensureWritable (headerSize + payload.length)).1 with
  | false =>
      have hover := encodeMessage_overruns h header hroom
      obtain ⟨hfixed, hfull⟩ := (Buffer.ensureWritable_eq_false_iff h _).mp hroom
      constructor
      · intro hall
        exact absurd hall.inBounds (not_le.mpr hover)
      · rintro ⟨hfits, _⟩
        exact absurd (hfits hfixed) (not_le.mpr hfull)
  | true =>
      obtain ⟨hvalid, hspan⟩ := encodeMessage_spec h header payload hroom
      have hfits : b.isFixed = true →
          b.readableBytes + (headerSize + payload.length) ≤ b.capacity := by
        intro hfixed
        by_contra hfull
        have hrefused := (Buffer.ensureWritable_eq_false_iff h
          (headerSize + payload.length)).mpr ⟨hfixed, not_le.mp hfull⟩
        rw [hroom] at hrefused
        cases hrefused
      constructor
      · intro hall
        refine ⟨hfits, ?_⟩
        rw [← decodesTo_frame_iff header]
        rcases hall.contents with ⟨f, hf, hdecodes⟩ | hsame
        · rw [hspan] at hf
          rw [List.append_cancel_left hf]
          exact hdecodes
        · -- a frame has at least its header
          rw [hspan] at hsame
          have hlen := congrArg List.length (List.append_right_eq_self.mp hsame)
          rw [length_frame, headerSize, List.length_nil] at hlen
          omega
      · rintro ⟨_, hsize⟩
        exact ⟨Or.inl ⟨_, hspan, (decodesTo_frame_iff header payload).mpr hsize⟩,
          hvalid.write_le⟩

/-- A message without payload just fits into a registered buffer of twelve bytes. -/
theorem encodeMessage_allOrNothing_iff_twelve :
    (Buffer.fixed (List.replicate 12 0) 12).Valid ∧
      AllOrNothing (Buffer.fixed (List.replicate 12 0) 12)
        (encodeMessage (Buffer.fixed (List.replicate 12 0) 12) default []) [] := by
  have hvalid : (Buffer.fixed (List.replicate 12 0) 12).Valid :=
    Buffer.valid_fixed (List.replicate 12 0)
  exact ⟨hvalid, (encodeMessage_allOrNothing_iff hvalid default []).mpr
    ⟨fun _ => by decide, by decide⟩⟩

/--
A payload of eight bytes in a registered buffer of sixteen: the frame is stored
up to four bytes behind the end.
-/
theorem encodeMessage_past_end :
    (Buffer.fixed (List.replicate 16 0) 16).Valid ∧
      ¬ AllOrNothing (Buffer.fixed (List.replicate 16 0) 16)
        (encodeMessage (Buffer.fixed (List.replicate 16 0) 16) default
          [1, 2, 3, 4, 5, 6, 7, 8]) [1, 2, 3, 4, 5, 6, 7, 8] ∧
      (encodeMessage (Buffer.fixed (List.replicate 16 0) 16) default
        [1, 2, 3, 4, 5, 6, 7, 8]).writeIdx = 20 := by
  refine ⟨Buffer.valid_fixed (List.replicate 16 0), ?_, by decide⟩
  intro hall
  exact absurd hall.inBounds (by decide)

/-! ### `ParseMessage` -/

/-- A dynamic buffer always has room. -/
theorem ensureWritable_dynamic {b : Buffer} (h : b.Valid) (hmode : b.isFixed = false)
    (len : Nat) : (b.ensureWritable len).1 = true := by
  rw [← Bool.not_eq_false, Buffer.ensureWritable_eq_false_iff h, hmode]
  simp

/-- The bytes a verdict takes are the frame of what it emits. -/
theorem take_eq_frame {bs : List UInt8} {m : Message} {n : Nat}
    (h : frameLook bs = .emit m n) : bs.take n = frame m.1 m.2 := by
  obtain ⟨hlen, hmagic, hann, rfl, rfl⟩ := frameLook_emit_iff.mp h
  obtain ⟨m₀, m₁, v, t, s₀, s₁, s₂, s₃, p₀, p₁, p₂, p₃, rest, rfl⟩ :=
    exists_header_bytes hlen
  simp only [List.take_succ_cons, List.take_zero, magicBytes, List.cons.injEq,
    and_true] at hmagic
  obtain ⟨rfl, rfl⟩ := hmagic
  have hpay : (ofLe32 p₃ p₂ p₁ p₀).toNat ≤ rest.length := by
    simp only [announced, decodeHeader, headerSize, List.length_cons] at hann
    omega
  -- the length field of the new frame is the one that was read
  have hfield : UInt32.ofNat (rest.take (ofLe32 p₃ p₂ p₁ p₀).toNat).length =
      ofLe32 p₃ p₂ p₁ p₀ := by
    rw [List.length_take, min_eq_left hpay, UInt32.ofNat_toNat]
  have hann' : announced (0x54 :: 0x52 :: v :: t :: s₀ :: s₁ :: s₂ :: s₃ :: p₀ :: p₁ :: p₂ ::
      p₃ :: rest) = (ofLe32 p₃ p₂ p₁ p₀).toNat + 12 := by
    simp only [announced, decodeHeader, headerSize]
    omega
  simp only [frame, decodeHeader, headerSize, List.drop_succ_cons, List.drop_zero, hfield,
    swap32_ofLe32, le32_ofLe32, magicBytes, hann', List.take_succ_cons, List.cons_append,
    List.nil_append]

/-- `EncodeMessage` of the result puts back what `ParseMessage` has removed. -/
theorem getSpan_of_parseMessage {b b' : Buffer} (h : b.Valid) {out header : RpcHeader}
    {payload : List UInt8} (hparse : parseMessage b out = (some payload, b', header)) :
    b.getSpan = frame header payload ++ b'.getSpan := by
  cases hlook : frameLook b.getSpan with
  | wait =>
      obtain ⟨_, heq⟩ := parseMessage_wait h out hlook
      rw [heq] at hparse
      cases hparse
  | skip =>
      obtain ⟨_, heq⟩ := parseMessage_skip h out hlook
      rw [heq] at hparse
      cases hparse
  | emit m n =>
      rw [parseMessage_emit h out hlook] at hparse
      cases hparse
      rw [← take_eq_frame hlook, Buffer.getSpan_hasRead, List.take_append_drop]

/-- A call without a result gives up one byte in front of a wrong magic, or nothing. -/
theorem getSpan_of_parseMessage_none {b b' : Buffer} (h : b.Valid) {out header : RpcHeader}
    (hparse : parseMessage b out = (none, b', header)) :
    (headerSize ≤ b.readableBytes ∧ b.getSpan.take 2 ≠ magicBytes ∧
        b'.getSpan = b.getSpan.drop 1) ∨
      (¬ (headerSize ≤ b.readableBytes ∧ b.getSpan.take 2 ≠ magicBytes) ∧
        b'.getSpan = b.getSpan) := by
  have hlen := Buffer.length_getSpan h
  cases hlook : frameLook b.getSpan with
  | wait =>
      obtain ⟨_, heq⟩ := parseMessage_wait h out hlook
      rw [heq] at hparse
      cases hparse
      refine Or.inr ⟨?_, rfl⟩
      rw [← hlen, ← frameLook_skip_iff, hlook]
      simp
  | skip =>
      obtain ⟨_, heq⟩ := parseMessage_skip h out hlook
      rw [heq] at hparse
      cases hparse
      obtain ⟨hge, hmagic⟩ := frameLook_skip_iff.mp hlook
      exact Or.inl ⟨hlen ▸ hge, hmagic, Buffer.getSpan_hasRead b 1⟩
  | emit m n =>
      rw [parseMessage_emit h out hlook] at hparse
      cases hparse

/--
Encoding inverts decoding, on any bytes.  A result comes with exactly the bytes
that `EncodeMessage` produces for it, a call without result leaves the unread
bytes or drops the first one in front of a wrong magic, and bytes with the same
result are the same.
-/
theorem parseMessage_inverse {b : Buffer} (h : b.Valid) (out : RpcHeader) :
    (∀ payload b' header, parseMessage b out = (some payload, b', header) →
      ∀ e : Buffer, e.Valid → e.isFixed = false → e.getSpan = [] →
        b.getSpan = (encodeMessage e header payload).getSpan ++ b'.getSpan) ∧
    (∀ b' header, parseMessage b out = (none, b', header) →
      (headerSize ≤ b.readableBytes ∧ b.getSpan.take 2 ≠ magicBytes ∧
          b'.getSpan = b.getSpan.drop 1) ∨
        (¬ (headerSize ≤ b.readableBytes ∧ b.getSpan.take 2 ≠ magicBytes) ∧
          b'.getSpan = b.getSpan)) ∧
    (∀ (c : Buffer) (out' : RpcHeader) payload b' c' header, c.Valid →
      parseMessage b out = (some payload, b', header) →
      parseMessage c out' = (some payload, c', header) →
      ∃ w, b.getSpan = w ++ b'.getSpan ∧ c.getSpan = w ++ c'.getSpan) := by
  refine ⟨?_, ?_, ?_⟩
  · intro payload b' header hparse e he hmode hempty
    have hroom := ensureWritable_dynamic he hmode (headerSize + payload.length)
    rw [(encodeMessage_spec he header payload hroom).2, hempty, List.nil_append]
    exact getSpan_of_parseMessage h hparse
  · intro b' header hparse
    exact getSpan_of_parseMessage_none h hparse
  · intro c out' payload b' c' header hc hb hc'
    exact ⟨frame header payload, getSpan_of_parseMessage h hb,
      getSpan_of_parseMessage hc hc'⟩

/-- A request with two bytes of payload, and one byte of the next frame. -/
theorem parseMessage_inverse_request :
    (holding [0x54, 0x52, 1, 0, 0, 0, 0, 7, 0, 0, 0, 2, 8, 9, 0x54]).Valid ∧
      parseMessage (holding [0x54, 0x52, 1, 0, 0, 0, 0, 7, 0, 0, 0, 2, 8, 9, 0x54]) default =
        (some [8, 9],
          (holding [0x54, 0x52, 1, 0, 0, 0, 0, 7, 0, 0, 0, 2, 8, 9, 0x54]).hasRead 14,
          { magic := 0x5452, version := 1, msgType := 0, seqId := 7, payloadLen := 2 }) ∧
      (holding [0x54, 0x52, 1, 0, 0, 0, 0, 7, 0, 0, 0, 2, 8, 9, 0x54]).getSpan =
        (encodeMessage Buffer.empty
          { magic := 0x5452, version := 1, msgType := 0, seqId := 7, payloadLen := 2 }
          [8, 9]).getSpan ++
        ((holding [0x54, 0x52, 1, 0, 0, 0, 0, 7, 0, 0, 0, 2, 8, 9, 0x54]).hasRead 14).getSpan := by
  have hparse : parseMessage
      (holding [0x54, 0x52, 1, 0, 0, 0, 0, 7, 0, 0, 0, 2, 8, 9, 0x54]) default =
      (some [8, 9],
        (holding [0x54, 0x52, 1, 0, 0, 0, 0, 7, 0, 0, 0, 2, 8, 9, 0x54]).hasRead 14,
        { magic := 0x5452, version := 1, msgType := 0, seqId := 7, payloadLen := 2 }) := by
    decide
  exact ⟨valid_holding _, hparse,
    (parseMessage_inverse (valid_holding _) default).1 _ _ _ hparse Buffer.empty
      Buffer.valid_empty rfl rfl⟩

end Protocol

end CRpc
