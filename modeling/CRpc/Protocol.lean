import CRpc.Buffer
import CRpc.Lib.Decoder

/-!
# The framing protocol

Model of `Protocol` in `protocol.h` and `protocol.cpp`: the packed 12-byte
header, `ParseMessage` and `EncodeMessage`.  The header is copied to and from
memory in host layout; the multi-byte fields are swapped to network order.

Above the code stands its purpose, the decoder `frames` over byte lists: wait
for a whole header, skip one byte when it does not start with the magic, wait
for the announced payload, then deliver the frame.  `parseMessage_wait`, `parseMessage_skip`
and `parseMessage_emit` say that the code takes exactly the step `frames`
prescribes on the unread bytes, and
`codeword_frame` that every encoded message is a codeword of `frames`.
-/

namespace CRpc

open Lib

/-- `RpcHeader`. -/
structure RpcHeader where
  magic : UInt16
  version : UInt8
  msgType : UInt8
  seqId : UInt32
  payloadLen : UInt32
deriving DecidableEq, Repr, Inhabited

namespace RpcHeader

/-- The packed struct in the memory of the host. -/
def toMemory (h : RpcHeader) : List UInt8 :=
  le16 h.magic ++ [h.version, h.msgType] ++ le32 h.seqId ++ le32 h.payloadLen

/-- The packed struct read back from the memory of the host. -/
def ofMemory : List UInt8 → RpcHeader
  | m₀ :: m₁ :: v :: t :: s₀ :: s₁ :: s₂ :: s₃ :: p₀ :: p₁ :: p₂ :: p₃ :: _ =>
      { magic := ofLe16 m₀ m₁, version := v, msgType := t,
        seqId := ofLe32 s₀ s₁ s₂ s₃, payloadLen := ofLe32 p₀ p₁ p₂ p₃ }
  | _ => default

end RpcHeader

/-- `htons` on a little-endian host. -/
def htons (x : UInt16) : UInt16 := swap16 x

/-- `ntohs` on a little-endian host. -/
def ntohs (x : UInt16) : UInt16 := swap16 x

/-- `htonl` on a little-endian host. -/
def htonl (x : UInt32) : UInt32 := swap32 x

/-- `ntohl` on a little-endian host. -/
def ntohl (x : UInt32) : UInt32 := swap32 x

namespace RpcHeader

/-- The multi-byte fields of a received header, swapped to host order. -/
def toHost (raw : RpcHeader) : RpcHeader :=
  { raw with
    magic := ntohs raw.magic
    seqId := ntohl raw.seqId
    payloadLen := ntohl raw.payloadLen }

/-- `net_header`: a header to be sent, with magic and length filled in. -/
def toNetwork (header : RpcHeader) (magic : UInt16) (payloadLen : Nat) : RpcHeader :=
  { header with
    magic := htons magic
    seqId := htonl header.seqId
    payloadLen := htonl (UInt32.ofNat payloadLen) }

end RpcHeader

/-- A header with its payload. -/
abbrev Message := RpcHeader × List UInt8

namespace Protocol

/-- `MAGIC_NUMBER`. -/
def magicNumber : UInt16 := 0x5452

/-- `HEADER_SIZE`, the size of the packed `RpcHeader`. -/
def headerSize : Nat := 12

/--
`ParseMessage`: the payload if a full message is available, the buffer
afterwards, and the output header.
-/
def parseMessage (buffer : Buffer) (outHeader : RpcHeader) :
    Option (List UInt8) × Buffer × RpcHeader :=
  if buffer.readableBytes < headerSize then
    (none, buffer, outHeader)
  else
    let header := (RpcHeader.ofMemory (buffer.readBegin headerSize)).toHost
    if header.magic ≠ magicNumber then
      -- resynchronise: give up one byte and let the caller try again
      (none, buffer.hasRead 1, header)
    else if buffer.readableBytes < headerSize + header.payloadLen.toNat then
      (none, buffer, header)
    else
      let buffer := buffer.hasRead headerSize
      if 0 < header.payloadLen.toNat then
        (some (buffer.readBegin header.payloadLen.toNat),
          buffer.hasRead header.payloadLen.toNat, header)
      else
        (some [], buffer, header)

/-- `EncodeMessage`: the result of `EnsureWritable` is not looked at. -/
def encodeMessage (buffer : Buffer) (header : RpcHeader)
    (payload : List UInt8) : Buffer :=
  let netHeader := header.toNetwork magicNumber payload.length
  let buffer := (buffer.ensureWritable (headerSize + payload.length)).2
  let buffer := (buffer.storeAtWriteBegin netHeader.toMemory).hasWritten headerSize
  if 0 < payload.length then
    (buffer.storeAtWriteBegin payload).hasWritten payload.length
  else
    buffer

/-! ### The frame format -/

/-- The two magic bytes in network order. -/
def magicBytes : List UInt8 := [0x54, 0x52]

/-- The header announced by the first twelve bytes, fields in network order. -/
def decodeHeader : List UInt8 → RpcHeader
  | m₀ :: m₁ :: v :: t :: s₀ :: s₁ :: s₂ :: s₃ :: p₀ :: p₁ :: p₂ :: p₃ :: _ =>
      { magic := ofLe16 m₁ m₀, version := v, msgType := t,
        seqId := ofLe32 s₃ s₂ s₁ s₀, payloadLen := ofLe32 p₃ p₂ p₁ p₀ }
  | _ => default

/-- Size of the frame that the first twelve bytes announce. -/
def announced (bs : List UInt8) : Nat :=
  headerSize + (decodeHeader bs).payloadLen.toNat

/-- One step of the reference parse. -/
def frameLook (bs : List UInt8) : Verdict Message :=
  if bs.length < headerSize then .wait
  else if bs.take 2 ≠ magicBytes then .skip
  else if bs.length < announced bs then .wait
  else
    .emit
      (decodeHeader bs,
        (bs.drop headerSize).take (decodeHeader bs).payloadLen.toNat)
      (announced bs)

/-- The bytes of one frame: header in network order, then the payload. -/
def frame (header : RpcHeader) (payload : List UInt8) : List UInt8 :=
  magicBytes ++ [header.version, header.msgType] ++
    le32 (swap32 header.seqId) ++
    le32 (swap32 (UInt32.ofNat payload.length)) ++ payload

/-- The header as the receiver of a frame sees it. -/
def wireHeader (header : RpcHeader) (payload : List UInt8) : RpcHeader :=
  { header with
    magic := magicNumber
    payloadLen := UInt32.ofNat payload.length }

/-- A list of at least twelve bytes, with the header bytes named. -/
theorem exists_header_bytes {bs : List UInt8} (h : headerSize ≤ bs.length) :
    ∃ m₀ m₁ v t s₀ s₁ s₂ s₃ p₀ p₁ p₂ p₃ rest,
      bs = m₀ :: m₁ :: v :: t :: s₀ :: s₁ :: s₂ :: s₃ ::
        p₀ :: p₁ :: p₂ :: p₃ :: rest := by
  rcases bs with
    _ | ⟨m₀, _ | ⟨m₁, _ | ⟨v, _ | ⟨t, _ | ⟨s₀, _ | ⟨s₁, _ | ⟨s₂, _ | ⟨s₃,
      _ | ⟨p₀, _ | ⟨p₁, _ | ⟨p₂, _ | ⟨p₃, rest⟩⟩⟩⟩⟩⟩⟩⟩⟩⟩⟩⟩
  all_goals first
    | exact ⟨_, _, _, _, _, _, _, _, _, _, _, _, _, rfl⟩
    | (simp only [headerSize, List.length_cons, List.length_nil] at h; omega)

theorem decodeHeader_append {bs : List UInt8} (h : headerSize ≤ bs.length)
    (cs : List UInt8) : decodeHeader (bs ++ cs) = decodeHeader bs := by
  obtain ⟨_, _, _, _, _, _, _, _, _, _, _, _, rest, rfl⟩ := exists_header_bytes h
  rfl

theorem announced_append {bs : List UInt8} (h : headerSize ≤ bs.length)
    (cs : List UInt8) : announced (bs ++ cs) = announced bs := by
  rw [announced, announced, decodeHeader_append h]

theorem take_two_append {bs : List UInt8} (h : headerSize ≤ bs.length)
    (cs : List UInt8) : (bs ++ cs).take 2 = bs.take 2 :=
  List.take_append_of_le_length (by simp only [headerSize] at h; omega)

theorem magic_eq_iff {bs : List UInt8} (h : headerSize ≤ bs.length) :
    (decodeHeader bs).magic = magicNumber ↔ bs.take 2 = magicBytes := by
  obtain ⟨m₀, m₁, _, _, _, _, _, _, _, _, _, _, rest, rfl⟩ := exists_header_bytes h
  have hmagic : magicNumber = ofLe16 0x52 0x54 := rfl
  simp only [decodeHeader, List.take_succ_cons, List.take_zero, magicBytes,
    List.cons.injEq, and_true]
  constructor
  · intro he
    have hl := congrArg le16 he
    rw [hmagic, le16_ofLe16, le16_ofLe16] at hl
    simp only [List.cons.injEq, and_true] at hl
    exact ⟨hl.2, hl.1⟩
  · rintro ⟨rfl, rfl⟩
    rfl

/-! ### The reference decoder -/

theorem frameLook_emit_iff {bs : List UInt8} {m : Message} {n : Nat} :
    frameLook bs = .emit m n ↔
      headerSize ≤ bs.length ∧ bs.take 2 = magicBytes ∧
        announced bs ≤ bs.length ∧ n = announced bs ∧
        m = (decodeHeader bs,
          (bs.drop headerSize).take (decodeHeader bs).payloadLen.toNat) := by
  unfold frameLook
  split_ifs with h1 h2 h3
  · simp only [false_iff]
    omega
  · simp [h2]
  · simp only [false_iff]
    omega
  · simp only [Verdict.emit.injEq]
    constructor
    · rintro ⟨rfl, rfl⟩
      exact ⟨by omega, not_not.mp h2, by omega, rfl, rfl⟩
    · rintro ⟨_, _, _, rfl, rfl⟩
      exact ⟨rfl, rfl⟩

theorem frameLook_skip_iff {bs : List UInt8} :
    frameLook bs = .skip ↔ headerSize ≤ bs.length ∧ bs.take 2 ≠ magicBytes := by
  unfold frameLook
  split_ifs with h1 h2 h3
  · simp only [false_iff]
    omega
  · simp only [true_iff]
    exact ⟨by omega, h2⟩
  · simp [h2]
  · simp [h2]

theorem frameLook_wait_iff {bs : List UInt8} :
    frameLook bs = .wait ↔
      bs.length < headerSize ∨
        (bs.take 2 = magicBytes ∧ bs.length < announced bs) := by
  unfold frameLook
  split_ifs with h1 h2 h3
  · simp [h1]
  · simp [h1, h2]
  · simp only [true_iff]
    exact Or.inr ⟨not_not.mp h2, h3⟩
  · simp [h1, h3]

theorem frameLook_append (bs cs : List UInt8) (h : frameLook bs ≠ .wait) :
    frameLook (bs ++ cs) = frameLook bs := by
  cases hlook : frameLook bs with
  | wait => exact absurd hlook h
  | skip =>
      obtain ⟨hlen, hmagic⟩ := frameLook_skip_iff.mp hlook
      rw [frameLook_skip_iff, take_two_append hlen]
      exact ⟨by rw [List.length_append]; omega, hmagic⟩
  | emit m n =>
      obtain ⟨hlen, hmagic, hann, rfl, rfl⟩ := frameLook_emit_iff.mp hlook
      rw [frameLook_emit_iff, take_two_append hlen, announced_append hlen,
        decodeHeader_append hlen]
      refine ⟨by rw [List.length_append]; omega, hmagic,
        by rw [List.length_append]; omega, rfl, ?_⟩
      have hpay : (decodeHeader bs).payloadLen.toNat ≤
          (bs.drop headerSize).length := by
        rw [announced] at hann
        rw [List.length_drop]
        omega
      rw [List.drop_append_of_le_length hlen, List.take_append_of_le_length hpay]

/-- The reference decoder of the byte stream. -/
def frames : Decoder UInt8 Message where
  look := frameLook
  skip_pos := by
    intro bs h
    have hlen := (frameLook_skip_iff.mp h).1
    simp only [headerSize] at hlen
    omega
  emit_pos := by
    intro bs m n h
    obtain ⟨_, _, _, rfl, _⟩ := frameLook_emit_iff.mp h
    simp only [announced, headerSize]
    omega
  emit_le := by
    intro bs m n h
    obtain ⟨_, _, hann, rfl, _⟩ := frameLook_emit_iff.mp h
    exact hann
  look_append := frameLook_append

@[simp] theorem frames_look (bs : List UInt8) : frames.look bs = frameLook bs := rfl

/-! ### `ParseMessage` takes the step of the reference decoder -/

/-- The header that `ParseMessage` decodes from the front of the buffer. -/
theorem toHost_readBegin {b : Buffer} (h : b.Valid)
    (hlen : headerSize ≤ b.readableBytes) :
    (RpcHeader.ofMemory (b.readBegin headerSize)).toHost =
      decodeHeader b.getSpan := by
  have hspan : headerSize ≤ b.getSpan.length := by
    rw [Buffer.length_getSpan h]
    exact hlen
  rw [Buffer.readBegin_eq_take hlen]
  generalize b.getSpan = bs at hspan
  obtain ⟨_, _, _, _, _, _, _, _, _, _, _, _, rest, rfl⟩ := exists_header_bytes hspan
  simp [headerSize, RpcHeader.ofMemory, RpcHeader.toHost, decodeHeader, ntohs, ntohl,
    swap16_ofLe16, swap32_ofLe32]

theorem parseMessage_wait {b : Buffer} (h : b.Valid) (out : RpcHeader)
    (hlook : frameLook b.getSpan = .wait) :
    ∃ header, parseMessage b out = (none, b, header) := by
  have hlen := Buffer.length_getSpan h
  unfold parseMessage
  by_cases hshort : b.readableBytes < headerSize
  · exact ⟨out, by rw [if_pos hshort]⟩
  · rw [if_neg hshort]
    simp only [toHost_readBegin h (by omega)]
    rcases frameLook_wait_iff.mp hlook with hlt | ⟨hmagic, hlt⟩
    · omega
    · have hge : headerSize ≤ b.getSpan.length := by omega
      have hm := (magic_eq_iff hge).mpr hmagic
      rw [announced, hlen] at hlt
      refine ⟨decodeHeader b.getSpan, ?_⟩
      rw [if_neg (by simp [hm]), if_pos hlt]

theorem parseMessage_skip {b : Buffer} (h : b.Valid) (out : RpcHeader)
    (hlook : frameLook b.getSpan = .skip) :
    ∃ header, parseMessage b out = (none, b.hasRead 1, header) := by
  have hlen := Buffer.length_getSpan h
  obtain ⟨hge, hmagic⟩ := frameLook_skip_iff.mp hlook
  have hm : (decodeHeader b.getSpan).magic ≠ magicNumber :=
    fun he => hmagic ((magic_eq_iff hge).mp he)
  unfold parseMessage
  rw [if_neg (by omega)]
  simp only [toHost_readBegin h (by omega)]
  exact ⟨decodeHeader b.getSpan, by rw [if_pos hm]⟩

theorem parseMessage_emit {b : Buffer} (h : b.Valid) (out : RpcHeader)
    {m : Message} {n : Nat} (hlook : frameLook b.getSpan = .emit m n) :
    parseMessage b out = (some m.2, b.hasRead n, m.1) := by
  have hlen := Buffer.length_getSpan h
  obtain ⟨hge, hmagic, hann, rfl, rfl⟩ := frameLook_emit_iff.mp hlook
  have hm := (magic_eq_iff hge).mpr hmagic
  have hann' := hann
  rw [announced, hlen] at hann'
  unfold parseMessage
  rw [if_neg (by omega)]
  simp only [toHost_readBegin h (by omega)]
  rw [if_neg (by simp [hm]), if_neg (by omega)]
  have hread : (b.hasRead headerSize).readableBytes =
      b.readableBytes - headerSize := by
    simp only [Buffer.hasRead, Buffer.readableBytes]
    omega
  by_cases hpos : 0 < (decodeHeader b.getSpan).payloadLen.toNat
  · rw [if_pos hpos, Buffer.readBegin_eq_take (by omega), Buffer.getSpan_hasRead]
    simp [Buffer.hasRead, announced, Nat.add_assoc]
  · have hzero : (decodeHeader b.getSpan).payloadLen.toNat = 0 := by omega
    rw [if_neg hpos]
    simp [announced, hzero]

/-! ### `EncodeMessage` appends a codeword -/

@[simp] theorem length_frame (header : RpcHeader) (payload : List UInt8) :
    (frame header payload).length = headerSize + payload.length := by
  simp only [frame, magicBytes, le32, headerSize, List.length_append, List.length_cons,
    List.length_nil]

theorem toMemory_toNetwork (header : RpcHeader) (payload : List UInt8) :
    (header.toNetwork magicNumber payload.length).toMemory ++ payload =
      frame header payload := by
  have hmagic : le16 (htons magicNumber) = magicBytes := by decide
  simp only [RpcHeader.toMemory, RpcHeader.toNetwork, frame, hmagic, htonl]

/-- With room granted, `EncodeMessage` appends exactly one frame. -/
theorem encodeMessage_spec {b : Buffer} (h : b.Valid) (header : RpcHeader)
    (payload : List UInt8)
    (hroom : (b.ensureWritable (headerSize + payload.length)).1 = true) :
    (encodeMessage b header payload).Valid ∧
      (encodeMessage b header payload).getSpan =
        b.getSpan ++ frame header payload := by
  have hv := Buffer.valid_ensureWritable h (headerSize + payload.length)
  have hs := Buffer.getSpan_ensureWritable h (headerSize + payload.length)
  have hw := Buffer.le_writableBytes_of_ensureWritable hroom
  have hframe := toMemory_toNetwork header payload
  unfold encodeMessage
  generalize (b.ensureWritable (headerSize + payload.length)).2 = b' at hv hs hw
  generalize header.toNetwork magicNumber payload.length = net at hframe
  have hlen : net.toMemory.length = headerSize := by
    simp only [RpcHeader.toMemory, le16, le32, List.length_append, List.length_cons,
      List.length_nil, headerSize]
  have hv₁ := Buffer.valid_append hv net.toMemory (by omega)
  have hs₁ := Buffer.getSpan_append hv net.toMemory
  rw [hlen] at hv₁ hs₁
  simp only
  split_ifs with hpos
  · refine ⟨Buffer.valid_append hv₁ payload ?_, ?_⟩
    · simp only [Buffer.hasWritten, Buffer.storeAtWriteBegin,
        Buffer.writableBytes] at hw ⊢
      omega
    · rw [Buffer.getSpan_append hv₁, hs₁, hs, List.append_assoc, hframe]
  · have hnil : payload = [] := List.length_eq_zero_iff.mp (by omega)
    subst hnil
    refine ⟨hv₁, ?_⟩
    rw [hs₁, hs, ← hframe, List.append_nil]

theorem ofLe32_rev_le32 (x : UInt32) (rest : List UInt8) :
    ∃ a b c d, le32 (swap32 x) ++ rest = a :: b :: c :: d :: rest ∧
      ofLe32 d c b a = x := by
  refine ⟨_, _, _, _, rfl, ?_⟩
  rw [← swap32_ofLe32, ofLe32_le32, swap32_swap32]

theorem decodeHeader_frame (header : RpcHeader) (payload rest : List UInt8) :
    decodeHeader (frame header payload ++ rest) = wireHeader header payload := by
  obtain ⟨s₀, s₁, s₂, s₃, hs, hs'⟩ := ofLe32_rev_le32 header.seqId
    (le32 (swap32 (UInt32.ofNat payload.length)) ++ (payload ++ rest))
  obtain ⟨p₀, p₁, p₂, p₃, hp, hp'⟩ := ofLe32_rev_le32
    (UInt32.ofNat payload.length) (payload ++ rest)
  have hmagic : ofLe16 0x52 0x54 = magicNumber := rfl
  simp only [frame, magicBytes, List.append_assoc, List.cons_append,
    List.nil_append]
  rw [hs, hp]
  simp only [decodeHeader, hs', hp', hmagic, wireHeader]

theorem announced_frame (header : RpcHeader) {payload : List UInt8}
    (h : payload.length < 2 ^ 32) (rest : List UInt8) :
    announced (frame header payload ++ rest) = headerSize + payload.length := by
  rw [announced, decodeHeader_frame, wireHeader, UInt32.toNat_ofNat',
    Nat.mod_eq_of_lt h]

/-- Every encoded message is a codeword of the reference decoder. -/
theorem codeword_frame {header : RpcHeader} {payload : List UInt8}
    (h : payload.length < 2 ^ 32) :
    frames.Codeword (wireHeader header payload, payload)
      (frame header payload) := by
  have hmagic : (frame header payload).take 2 = magicBytes := rfl
  have hhead := decodeHeader_frame header payload []
  have hann := announced_frame header h []
  rw [List.append_nil] at hhead hann
  constructor
  · rw [frames_look, frameLook_emit_iff, hhead, hann, length_frame]
    refine ⟨by omega, hmagic, le_rfl, rfl, ?_⟩
    have hdrop : (frame header payload).drop headerSize = payload := rfl
    rw [hdrop, wireHeader, UInt32.toNat_ofNat', Nat.mod_eq_of_lt h,
      List.take_length]
  · intro p hp hlt
    rw [frames_look, frameLook_wait_iff]
    by_cases hshort : p.length < headerSize
    · exact Or.inl hshort
    · obtain ⟨q, hq⟩ := hp
      right
      have hge : headerSize ≤ p.length := by omega
      rw [← take_two_append hge q, ← announced_append hge q, hq, hann]
      rw [length_frame] at hlt
      exact ⟨hmagic, hlt⟩

end Protocol

end CRpc
