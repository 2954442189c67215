import CRpc.Framing
import CRpc.Lib.StrictReader

/-!
# Requests and responses on the client side

The text that the four clients under `examples` share: the request of a round,
`SendAll`, `RecvExact`, and the receipt of one response.  A client receives a
response with two calls of `RecvExact`, one for the header and one for the
payload the header announces.  It throws on a wrong magic, where the server's
`ParseMessage` would give up one byte and go on.

An `Inbox` is the staging vector between the calls of `recv`.  `Inbox.Ok` says
that it follows the strict reader of the frame format, `Inbox.Ok.front` what that
means for an arbitrary stream and `Inbox.Ok.on_stream` what it means for a stream
of encoded messages.
-/

namespace CRpc

open Lib Protocol

/-- The exceptions thrown in the loops of a client. -/
inductive ClientError where
  | sendFailed
  | recvFailed
  | badMagic
deriving DecidableEq, Repr

/-- `e.what()`. -/
def ClientError.what : ClientError → String
  | .sendFailed => "send failed"
  | .recvFailed => "recv failed / connection closed"
  | .badMagic => "bad magic in response"

/-- `hdr` of the request of round `i`. -/
def requestHeader (reqBytes : List UInt8) (i : Nat) : RpcHeader :=
  { magic := magicNumber, version := 1, msgType := 0, seqId := UInt32.ofNat i
    payloadLen := UInt32.ofNat reqBytes.length }

/-- The request of round `i`. -/
def request (reqBytes : List UInt8) (i : Nat) : Message :=
  (requestHeader reqBytes i, reqBytes)

/-- The requests of the rounds before `n`. -/
def requestsUpTo (reqBytes : List UInt8) (n : Nat) : List Message :=
  (List.range n).map (request reqBytes)

/-- `SendAll` after `::send` has returned `n`: the bytes still to be sent. -/
def sendAll (rest : List UInt8) (n : Int) : Except ClientError (List UInt8) :=
  if n ≤ 0 then .error .sendFailed else .ok (rest.drop n.toNat)

/-- `RecvExact` after `::recv` has returned `n`, with `bytes` in `tmp`. -/
def recvExact (buf : List UInt8) (n : Int) (bytes : List UInt8) :
    Except ClientError (List UInt8) :=
  if n ≤ 0 then .error .recvFailed else .ok (buf ++ bytes)

theorem requestsUpTo_succ (reqBytes : List UInt8) (n : Nat) :
    requestsUpTo reqBytes (n + 1) = requestsUpTo reqBytes n ++ [request reqBytes n] := by
  simp [requestsUpTo, List.range_succ]

theorem length_requestsUpTo (reqBytes : List UInt8) (n : Nat) :
    (requestsUpTo reqBytes n).length = n := by
  simp [requestsUpTo]

theorem encodedStream_append (ms ms' : List Message) :
    encodedStream (ms ++ ms') = encodedStream ms ++ encodedStream ms' := by
  simp [encodedStream]

theorem encodedStream_singleton (m : Message) : encodedStream [m] = encoded m := by
  simp [encodedStream]

theorem length_encoded (m : Message) : (encoded m).length = headerSize + m.2.length := by
  rw [encoded_eq_frame, length_frame]

/-- The sequence numbers of the rounds before `n`. -/
def seqIds (n : Nat) : List UInt32 := (List.range n).map UInt32.ofNat

theorem seqIds_succ (n : Nat) : seqIds (n + 1) = seqIds n ++ [UInt32.ofNat n] := by
  simp [seqIds, List.range_succ]

theorem length_seqIds (n : Nat) : (seqIds n).length = n := by
  simp [seqIds]

theorem nodup_seqIds {n : Nat} (h : n ≤ 2 ^ 32) : (seqIds n).Nodup := by
  refine List.Nodup.map_on ?_ List.nodup_range
  intro i hi j hj hij
  rw [List.mem_range] at hi hj
  have heq := congrArg UInt32.toNat hij
  simp only [UInt32.toNat_ofNat'] at heq
  rwa [Nat.mod_eq_of_lt (by omega), Nat.mod_eq_of_lt (by omega)] at heq

theorem notMem_seqIds {n : Nat} (h : n < 2 ^ 32) : UInt32.ofNat n ∉ seqIds n := by
  have hnodup : (seqIds (n + 1)).Nodup := nodup_seqIds h
  rw [seqIds_succ, List.nodup_append_comm] at hnodup
  exact (List.nodup_cons.mp hnodup).1

theorem seqIds_isPrefix_of_le {m n : Nat} (h : m ≤ n) : seqIds m <+: seqIds n := by
  obtain ⟨k, rfl⟩ := Nat.exists_eq_add_of_le h
  simp [seqIds, List.range_add]

/-- A small count of requests is an `int`. -/
theorem two_lt_intMax : (2 : Int) < 2 ^ 31 := by decide

theorem intTwo_nonneg : (0 : Int) ≤ 2 := by decide

/-! ### The staging vector -/

/-- Which part of a response the client waits for, or the exception it has thrown. -/
inductive ReadPhase where
  | header
  | payload (hdr : RpcHeader)
  | thrown (err : ClientError)
deriving DecidableEq, Repr

/-- The vector `buf` of a client with the place of the code that reads it. -/
structure Inbox where
  buf : List UInt8
  phase : ReadPhase
  /-- History: the bytes `recv` has stored. -/
  received : List UInt8
  /-- History: the headers of the responses taken out of the vector. -/
  headers : List RpcHeader

namespace Inbox

def empty : Inbox := { buf := [], phase := .header, received := [], headers := [] }

/-- The argument `need` of the call of `RecvExact` that is running. -/
def need (x : Inbox) : Option Nat :=
  match x.phase with
  | .header => some headerSize
  | .payload hdr => some hdr.payloadLen.toNat
  | .thrown _ => none

/-- `recv` has returned `n`; it was called because bytes are missing. -/
def recv (tmpSize : Nat) (x : Inbox) (n : Int) (bytes : List UInt8) : Option Inbox :=
  match x.need with
  | none => none
  | some need =>
      if x.buf.length < need ∧ bytes.length = n.toNat ∧ n ≤ tmpSize then
        match recvExact x.buf n bytes with
        | .ok buf => some { x with buf := buf, received := x.received ++ bytes }
        | .error err => some { x with phase := .thrown err }
      else none

/-- The code behind a call of `RecvExact`, with the header of a response that is complete. -/
def advance (x : Inbox) : Option (Inbox × Option RpcHeader) :=
  match x.phase with
  | .header =>
      if headerSize ≤ x.buf.length then
        let hdr := (RpcHeader.ofMemory (x.buf.take headerSize)).toHost
        let buf := x.buf.drop headerSize
        if hdr.magic ≠ magicNumber then
          some ({ x with buf := buf, phase := .thrown .badMagic }, none)
        else some ({ x with buf := buf, phase := .payload hdr }, none)
      else none
  | .payload hdr =>
      if hdr.payloadLen.toNat ≤ x.buf.length then
        some ({ x with
          buf := x.buf.drop hdr.payloadLen.toNat
          phase := .header
          headers := x.headers ++ [hdr] }, some hdr)
      else none
  | .thrown _ => none

/-- Where the vector stands in the unread part of the stream. -/
def At (x : Inbox) (unread : List UInt8) : Prop :=
  match x.phase with
  | .header => x.buf = unread
  | .payload hdr =>
      headerSize ≤ unread.length ∧ unread.take 2 = magicBytes ∧
        hdr = decodeHeader unread ∧ x.buf = unread.drop headerSize
  | .thrown .badMagic => frames.look unread = .skip
  | .thrown _ => True

/-- The vector follows the strict reader of the frame format. -/
def Ok (x : Inbox) : Prop :=
  ∃ ms unread, frames.Emits x.received ms unread ∧ x.headers = ms.map Prod.fst ∧ x.At unread

theorem ok_empty : empty.Ok := ⟨[], [], Decoder.Emits.refl _, rfl, rfl⟩

variable {x x' : Inbox}

/-- What a call of `recv` can do. -/
theorem recv_cases {tmpSize : Nat} {n : Int} {bytes : List UInt8}
    (h : x.recv tmpSize n bytes = some x') :
    bytes.length = n.toNat ∧
      ((n ≤ 0 ∧ x' = { x with phase := .thrown .recvFailed }) ∨
        (0 < n ∧ (∃ need, x.need = some need ∧ x.buf.length < need) ∧
          x' = { x with buf := x.buf ++ bytes, received := x.received ++ bytes })) := by
  unfold recv at h
  split at h
  · cases h
  next need hneed =>
    split at h
    next hcall =>
      refine ⟨hcall.2.1, ?_⟩
      rcases le_or_gt n 0 with hend | hdata
      · simp only [recvExact, if_pos hend, Option.some.injEq] at h
        exact Or.inl ⟨hend, h.symm⟩
      · simp only [recvExact, if_neg (not_le.mpr hdata), Option.some.injEq] at h
        exact Or.inr ⟨hdata, ⟨need, hneed, hcall.1⟩, h.symm⟩
    · cases h

/-- The header a client copies out of the vector is the one the frame announces. -/
theorem toHost_take {bs : List UInt8} (h : headerSize ≤ bs.length) :
    (RpcHeader.ofMemory (bs.take headerSize)).toHost = decodeHeader bs := by
  obtain ⟨_, _, _, _, _, _, _, _, _, _, _, _, rest, rfl⟩ := exists_header_bytes h
  simp [headerSize, RpcHeader.ofMemory, RpcHeader.toHost, decodeHeader, ntohs, ntohl,
    swap16_ofLe16, swap32_ofLe32]

/-- What the code behind a call of `RecvExact` can do. -/
theorem advance_cases {out : Option RpcHeader} (h : x.advance = some (x', out)) :
    (x.phase = .header ∧ headerSize ≤ x.buf.length ∧ out = none ∧
      ((decodeHeader x.buf).magic ≠ magicNumber ∧
          x' = { x with buf := x.buf.drop headerSize, phase := .thrown .badMagic } ∨
        (decodeHeader x.buf).magic = magicNumber ∧
          x' = { x with
            buf := x.buf.drop headerSize, phase := .payload (decodeHeader x.buf) })) ∨
    ∃ hdr, x.phase = .payload hdr ∧ hdr.payloadLen.toNat ≤ x.buf.length ∧ out = some hdr ∧
      x' = { x with
        buf := x.buf.drop hdr.payloadLen.toNat
        phase := .header
        headers := x.headers ++ [hdr] } := by
  unfold advance at h
  split at h
  next hphase =>
    left
    split at h
    next hlen =>
      simp only [toHost_take hlen] at h
      split at h
      next hmagic =>
        simp only [Option.some.injEq, Prod.mk.injEq] at h
        exact ⟨hphase, hlen, h.2.symm, Or.inl ⟨hmagic, h.1.symm⟩⟩
      next hmagic =>
        simp only [Option.some.injEq, Prod.mk.injEq] at h
        exact ⟨hphase, hlen, h.2.symm, Or.inr ⟨not_not.mp hmagic, h.1.symm⟩⟩
    · cases h
  next hdr hphase =>
    right
    split at h
    next hlen =>
      simp only [Option.some.injEq, Prod.mk.injEq] at h
      exact ⟨hdr, hphase, hlen, h.2.symm, h.1.symm⟩
    · cases h
  · cases h

theorem need_of_not_thrown (h : ∀ err, x.phase ≠ .thrown err) : ∃ need, x.need = some need := by
  cases hphase : x.phase with
  | header => exact ⟨headerSize, by simp only [Inbox.need, hphase]⟩
  | payload hdr => exact ⟨hdr.payloadLen.toNat, by simp only [Inbox.need, hphase]⟩
  | thrown err => exact absurd hphase (h err)

/-- The code of a client never stops on its own while it reads. -/
theorem advance_isSome {need : Nat} (hneed : x.need = some need) (hlen : need ≤ x.buf.length) :
    ∃ x' out, x.advance = some (x', out) := by
  unfold advance
  unfold Inbox.need at hneed
  split at hneed
  next hphase =>
    obtain rfl : headerSize = need := by simpa using hneed
    simp only [hlen, if_true]
    split <;> exact ⟨_, _, rfl⟩
  next hdr hphase =>
    obtain rfl : hdr.payloadLen.toNat = need := by simpa using hneed
    simp only [hlen, if_true]
    exact ⟨_, _, rfl⟩
  · cases hneed

theorem advance_received {out : Option RpcHeader}
    (h : x.advance = some (x', out)) : x'.received = x.received := by
  rcases advance_cases h with
    ⟨_, _, _, ⟨_, rfl⟩ | ⟨_, rfl⟩⟩ | ⟨_, _, _, _, rfl⟩
  all_goals rfl

theorem recv_received {tmpSize : Nat} {n : Int} {bytes : List UInt8}
    (h : x.recv tmpSize n bytes = some x') :
    x'.received = x.received ++ bytes ∧ bytes.length = n.toNat := by
  obtain ⟨hlen, ⟨hend, rfl⟩ | ⟨_, _, rfl⟩⟩ := recv_cases h
  · have hnil : bytes = [] := List.length_eq_zero_iff.mp (by omega)
    exact ⟨by rw [hnil, List.append_nil], hlen⟩
  · exact ⟨rfl, hlen⟩

theorem Ok.recv (h : x.Ok) {tmpSize : Nat} {n : Int} {bytes : List UInt8}
    (hrecv : x.recv tmpSize n bytes = some x') : x'.Ok := by
  obtain ⟨ms, unread, hemits, hheaders, hat⟩ := h
  obtain ⟨_, ⟨_, rfl⟩ | ⟨_, ⟨need, hneed, _⟩, rfl⟩⟩ := recv_cases hrecv
  · exact ⟨ms, unread, hemits, hheaders, trivial⟩
  · refine ⟨ms, unread ++ bytes, hemits.append bytes, hheaders, ?_⟩
    unfold At at hat ⊢
    unfold Inbox.need at hneed
    split at hneed
    next hphase =>
      simp only [hphase] at hat ⊢
      rw [hat]
    next hdr hphase =>
      simp only [hphase] at hat ⊢
      obtain ⟨hlen, hmagic, hhdr, hbuf⟩ := hat
      refine ⟨by rw [List.length_append]; omega, ?_, ?_, ?_⟩
      · rw [take_two_append hlen, hmagic]
      · rw [decodeHeader_append hlen, hhdr]
      · rw [List.drop_append_of_le_length hlen, hbuf]
    · cases hneed

theorem Ok.advance (h : x.Ok) {out : Option RpcHeader} (hadv : x.advance = some (x', out)) :
    x'.Ok := by
  obtain ⟨ms, unread, hemits, hheaders, hat⟩ := h
  rcases advance_cases hadv with
    ⟨hphase, hlen, _, ⟨hmagic, rfl⟩ | ⟨hmagic, rfl⟩⟩ | ⟨hdr, hphase, hlen, _, rfl⟩
  · simp only [At, hphase] at hat
    subst hat
    refine ⟨ms, x.buf, hemits, hheaders, ?_⟩
    exact frameLook_skip_iff.mpr ⟨hlen, fun htake => hmagic ((magic_eq_iff hlen).mpr htake)⟩
  · simp only [At, hphase] at hat
    subst hat
    exact ⟨ms, x.buf, hemits, hheaders, hlen, (magic_eq_iff hlen).mp hmagic, rfl, rfl⟩
  · simp only [At, hphase] at hat
    obtain ⟨hhead, hmagic, rfl, hbuf⟩ := hat
    rw [hbuf, List.length_drop] at hlen
    -- header and payload together are the frame at the front
    have hlook : frames.look unread = .emit
        (decodeHeader unread,
          (unread.drop headerSize).take (decodeHeader unread).payloadLen.toNat)
        (announced unread) :=
      frameLook_emit_iff.mpr ⟨hhead, hmagic, by rw [announced]; omega, rfl, rfl⟩
    refine ⟨_, _, hemits.concat hlook, by rw [hheaders, List.map_append]; rfl, ?_⟩
    simp only [At, hbuf, List.drop_drop, announced]

/-! ### What the client takes out of a stream -/

/--
On any stream the responses taken out are the frames at its very front, and a
client that throws on the magic stands where the server's parser would skip.
-/
theorem Ok.front (h : x.Ok) (later : List UInt8) :
    x.headers <+: (frames.front (x.received ++ later)).1.map Prod.fst ∧
      (x.phase = .thrown .badMagic →
        x.headers = (frames.front (x.received ++ later)).1.map Prod.fst ∧
          frames.look (frames.front (x.received ++ later)).2 = .skip) := by
  obtain ⟨ms, unread, hemits, hheaders, hat⟩ := h
  rw [(hemits.append later).front_eq, hheaders, List.map_append]
  refine ⟨List.prefix_append _ _, ?_⟩
  intro hphase
  simp only [At, hphase] at hat
  have hskip : frames.look (unread ++ later) = .skip := by
    rw [frames.look_append unread later (by rw [hat]; simp), hat]
  have hnone : frames.front (unread ++ later) = ([], unread ++ later) :=
    Decoder.front_of_not_emit (by rw [hskip]; simp)
  rw [hnone]
  exact ⟨by simp, hskip⟩

/-- On a stream of encoded messages the client takes them out in order and never throws. -/
theorem Ok.on_stream (h : x.Ok) {ms : List Message}
    (hsize : ∀ m, m ∈ ms → m.2.length < 2 ^ 32) (hpre : x.received <+: encodedStream ms) :
    x.headers <+: ms.map (fun m => wireHeader m.1 m.2) ∧ x.phase ≠ .thrown .badMagic := by
  obtain ⟨emitted, unread, hemits, hheaders, hat⟩ := h
  rw [encodedStream_eq_wordsOf] at hpre
  have hws := codeword_wireWord hsize
  obtain ⟨done, todo, hsplit, rfl, _, htodo⟩ := hemits.codewords hws hpre
  constructor
  · have hall : ms.map (fun m => wireHeader m.1 m.2) =
        ((done ++ todo).map Prod.fst).map Prod.fst := by
      rw [← hsplit, List.map_map, List.map_map]
      rfl
    rw [hall, hheaders, List.map_append, List.map_append]
    exact List.prefix_append _ _
  · intro hphase
    simp only [At, hphase] at hat
    refine Decoder.look_ne_skip (fun w hw => hws w ?_) htodo hat
    rw [hsplit]
    exact List.mem_append_right _ hw

/-- A client that has taken all messages of a stream has nothing left, nor anything to come. -/
theorem Ok.drained (h : x.Ok) {ms : List Message} (hsize : ∀ m, m ∈ ms → m.2.length < 2 ^ 32)
    {later : List UInt8} (hpre : x.received ++ later <+: encodedStream ms)
    (hall : x.headers.length = ms.length) :
    later = [] ∧ (x.phase = .header → x.buf = []) := by
  obtain ⟨emitted, unread, hemits, hheaders, hat⟩ := h
  rw [encodedStream_eq_wordsOf] at hpre
  obtain ⟨done, todo, hsplit, rfl, hcut, _⟩ :=
    hemits.codewords (codeword_wireWord hsize) ((List.prefix_append _ _).trans hpre)
  obtain rfl : todo = [] := by
    have hlen := congrArg List.length hsplit
    rw [List.length_map, List.length_append, ← hall, hheaders, List.length_map,
      List.length_map] at hlen
    exact List.length_eq_zero_iff.mp (by omega)
  rw [List.append_nil] at hsplit
  rw [hcut, hsplit, List.append_assoc] at hpre
  have hnil : unread ++ later = [] := by
    have hlen := hpre.length_le
    rw [List.length_append] at hlen
    exact List.length_eq_zero_iff.mp (by omega)
  obtain ⟨rfl, rfl⟩ := List.append_eq_nil_iff.mp hnil
  refine ⟨rfl, fun hphase => ?_⟩
  simpa only [At, hphase] using hat

/-- A client that lacks bytes although all of the stream has arrived has taken all of it. -/
theorem Ok.all_taken (h : x.Ok) {ms : List Message}
    (hsize : ∀ m, m ∈ ms → m.2.length < 2 ^ 32) (hall : x.received = encodedStream ms)
    {need : Nat} (hneed : x.need = some need) (hshort : x.buf.length < need) :
    x.headers = ms.map (fun m => wireHeader m.1 m.2) := by
  obtain ⟨emitted, unread, hemits, hheaders, hat⟩ := h
  have hws := codeword_wireWord hsize
  obtain ⟨done, todo, hsplit, rfl, hcut, _⟩ :=
    hemits.codewords hws (by rw [hall, encodedStream_eq_wordsOf])
  rw [hall, encodedStream_eq_wordsOf, hsplit, Decoder.wordsOf_append,
    List.append_cancel_left_eq] at hcut
  cases todo with
  | nil =>
      rw [List.append_nil] at hsplit
      rw [hheaders, ← hsplit, List.map_map, List.map_map]
      rfl
  | cons w todo =>
      -- a whole frame is unread, so neither header nor payload can lack bytes
      have hw := hws w (by rw [hsplit]; simp)
      have hlook : frames.look unread = .emit w.1 w.2.length := by
        rw [← hcut, Decoder.wordsOf_cons, frames.look_append _ _ (by rw [hw.emits]; simp),
          hw.emits]
      obtain ⟨hhead, _, hann, _, _⟩ := frameLook_emit_iff.mp hlook
      rw [announced] at hann
      unfold At at hat
      unfold Inbox.need at hneed
      split at hneed
      next hphase =>
        simp only [hphase] at hat
        obtain rfl : headerSize = need := by simpa using hneed
        rw [hat] at hshort
        omega
      next hdr hphase =>
        simp only [hphase] at hat
        obtain ⟨_, _, rfl, hbuf⟩ := hat
        obtain rfl : (decodeHeader unread).payloadLen.toNat = need := by simpa using hneed
        rw [hbuf, List.length_drop] at hshort
        omega
      · cases hneed

end Inbox

end CRpc
