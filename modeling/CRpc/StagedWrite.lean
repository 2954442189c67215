import CRpc.CoroConnection

/-!
# Staged writes

What `WriteOnce` puts into the staging buffer and what the socket can take from
it.  `Staged c sqe data` says that the posted write `sqe` addresses staged bytes
of `c` that are a prefix of `data`; then a completion with `w` bytes accepts
exactly the first `w` bytes of `data`, in both buffer modes.
-/

namespace CRpc

open Lib

/-- What `Write` still has to send in its frame. -/
def WriteFrame.rest (f : WriteFrame) : List UInt8 := f.data.drop f.ptr

/-- The frame of `Write` before its first operation. -/
def WriteFrame.start (data : List UInt8) : WriteFrame :=
  { data := data, ptr := 0, remaining := data.length }

/-- The frame of `Write` after `n` more bytes were sent. -/
def WriteFrame.advance (f : WriteFrame) (n : Nat) : WriteFrame :=
  { f with ptr := f.ptr + n, remaining := f.remaining - n }

/-- A frame of `Write` at its suspension point. -/
structure WriteFrame.Ok (f : WriteFrame) : Prop where
  remaining_pos : 0 < f.remaining
  length_eq : f.ptr + f.remaining = f.data.length

namespace CoroConnection

/-- The registered write buffer has the size of the pool's buffers. -/
def WriteOk (c : CoroConnection) : Prop :=
  c.writeBufIdx.isSome → c.writeBuffer.data.length = c.bufSize

/-- The posted write `sqe` takes its bytes from the front of `data`. -/
structure Staged (c : CoroConnection) (sqe : Sqe) (data : List UInt8) : Prop where
  op : ∃ len, sqe = .write c.target c.writeBufIdx 0 len
  posted_le : postedWrite sqe ≤ data.length
  accepted_eq : ∀ w : Int, w.toNat ≤ postedWrite sqe →
    c.accepted sqe w = data.take w.toNat

/-- The read buffer plays no role in a write. -/
theorem Staged.of_readBuffer {c : CoroConnection} {sqe : Sqe} {data : List UInt8}
    (h : c.Staged sqe data) (buf : Buffer) :
    ({ c with readBuffer := buf } : CoroConnection).Staged sqe data :=
  ⟨h.op, h.posted_le, h.accepted_eq⟩

/-- The connection with another staging buffer. -/
def withWriteBuffer (c : CoroConnection) (buf : Buffer) : CoroConnection :=
  { c with writeBuffer := buf }

/-- Staged bytes at the start of the storage are what the kernel reads. -/
theorem staged_of_storage {c : CoroConnection} (mem : List UInt8)
    {xs data : List UInt8} {len : Nat}
    (hmem : c.writeBuffer.data = overwrite mem 0 xs) (hxs : xs <+: data)
    (hlen : len ≤ xs.length) :
    c.Staged (.write c.target c.writeBufIdx 0 len) data := by
  refine ⟨⟨len, rfl⟩, hlen.trans hxs.length_le, ?_⟩
  intro w hw
  have hw' : w.toNat ≤ len := hw
  have hstart : overwrite mem 0 xs = xs ++ mem.drop xs.length := by
    simp [overwrite]
  obtain ⟨rest, rfl⟩ := hxs
  rw [accepted, hmem, slice, List.drop_zero, hstart, min_eq_right hw',
    List.take_append_of_le_length (hw'.trans hlen),
    List.take_append_of_le_length (hw'.trans hlen)]

theorem writeOnce_fixed {c : CoroConnection} {idx : Nat} (hidx : c.writeBufIdx = some idx)
    (data : List UInt8) :
    c.writeOnce data =
      (c.withWriteBuffer
        ((Buffer.fixed
          (overwrite c.writeBuffer.data 0 (data.take (min data.length c.bufSize)))
          c.bufSize).hasWritten (min data.length c.bufSize)),
        .write c.target c.writeBufIdx 0 (toU32 (min data.length c.bufSize))) := by
  rw [writeOnce]
  split
  next idx' h =>
    simp [withWriteBuffer, Buffer.fixed, Buffer.hasWritten, Buffer.readableBytes, h]
  next h => simp [hidx] at h

theorem writeOnce_dynamic {c : CoroConnection} (hidx : c.writeBufIdx = none)
    (data : List UInt8) :
    c.writeOnce data =
      (c.withWriteBuffer
        (((Buffer.dynamic data.length).storeAtWriteBegin data).hasWritten data.length),
        .write c.target c.writeBufIdx 0 (toU32 data.length)) := by
  rw [writeOnce]
  split
  next idx h => simp [hidx] at h
  next h =>
    simp [withWriteBuffer, Buffer.dynamic, Buffer.storeAtWriteBegin, Buffer.hasWritten,
      Buffer.readableBytes, h]

/-- `WriteOnce` changes the staging buffer and nothing else. -/
theorem writeOnce_conn (c : CoroConnection) (data : List UInt8) :
    ∃ buf, (c.writeOnce data).1 = c.withWriteBuffer buf := by
  cases hidx : c.writeBufIdx with
  | none => exact ⟨_, congrArg Prod.fst (writeOnce_dynamic hidx data)⟩
  | some idx => exact ⟨_, congrArg Prod.fst (writeOnce_fixed hidx data)⟩

/-- `WriteOnce` stages a prefix of its data and posts a write of it. -/
theorem writeOnce_staged {c : CoroConnection} (h : c.WriteOk) (data : List UInt8) :
    (c.writeOnce data).1.WriteOk ∧
      (c.writeOnce data).1.Staged (c.writeOnce data).2 data := by
  cases hidx : c.writeBufIdx with
  | none =>
      rw [writeOnce_dynamic hidx]
      refine ⟨fun hsome => ?_, ?_⟩
      · simp [withWriteBuffer, hidx] at hsome
      · exact staged_of_storage (List.replicate data.length 0) rfl List.prefix_rfl
          (Nat.mod_le _ _)
  | some idx =>
      have hsize := h (by rw [hidx]; rfl)
      have hlen : (data.take (min data.length c.bufSize)).length =
          min data.length c.bufSize := by
        rw [List.length_take]
        omega
      rw [writeOnce_fixed hidx]
      refine ⟨fun _ => ?_, ?_⟩
      · refine (length_overwrite ?_).trans hsize
        rw [hlen, hsize]
        omega
      · refine staged_of_storage _ rfl (List.take_prefix _ _) ?_
        rw [hlen]
        exact Nat.mod_le _ _

/-! The loop of `Write`, one operation at a time. -/

/-- At its suspension point `Write` has posted what remains of its data. -/
theorem writeHead_of_ok (c : CoroConnection) {f : WriteFrame} (hf : f.Ok) :
    c.writeHead f =
      .suspended (c.writeOnce f.rest).1 (c.writeOnce f.rest).2 f := by
  have hlen := hf.length_eq
  have hrest : slice f.data f.ptr f.remaining = f.rest := by
    rw [slice, WriteFrame.rest, List.take_of_length_le]
    rw [List.length_drop]
    omega
  rw [writeHead, if_pos hf.remaining_pos, hrest]

theorem writeResume_failed (c : CoroConnection) (f : WriteFrame) {w : Int}
    (hw : w ≤ 0) : c.writeResume f w = .returned w :=
  if_pos hw

/-- The last bytes were accepted: `Write` returns the length as an `int`. -/
theorem writeResume_last (c : CoroConnection) {f : WriteFrame} {w : Int}
    (hw : 0 < w) (hlast : f.remaining ≤ w.toNat) :
    c.writeResume f w = .returned (toInt32 f.data.length) := by
  rw [writeResume, if_neg (not_le.mpr hw), writeHead, if_neg]
  simp only [not_lt]
  omega

/-- Bytes remain: `Write` posts the next operation. -/
theorem writeResume_more (c : CoroConnection) (f : WriteFrame) {w : Int} (hw : 0 < w) :
    c.writeResume f w = c.writeHead (f.advance w.toNat) :=
  if_neg (not_le.mpr hw)

end CoroConnection

namespace WriteFrame

theorem ok_start {data : List UInt8} (hdata : data ≠ []) : (start data).Ok :=
  ⟨List.length_pos_iff.mpr hdata, Nat.zero_add _⟩

theorem Ok.advance {f : WriteFrame} (h : f.Ok) {n : Nat} (hmore : n < f.remaining) :
    (f.advance n).Ok := by
  have hlen := h.length_eq
  refine ⟨?_, ?_⟩
  · simp only [WriteFrame.advance]
    omega
  · simp only [WriteFrame.advance]
    omega

end WriteFrame

end CRpc
