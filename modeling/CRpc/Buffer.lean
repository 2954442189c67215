import CRpc.Lib.Bytes

/-!
# The byte buffer

Model of `Buffer` in `buffer.h`.  The storage is the memory behind the buffer:
the vector `data_` in dynamic mode, the external (registered) memory in fixed
mode.  Pointers into it are offsets: `WriteBegin()` is the offset `writeIdx`,
`ReadBegin()` the offset `readIdx`.

The abstract view of a buffer is `getSpan`, the unread bytes.  Each operation
has one lemma that says what it does to the unread bytes and one that says it
keeps the index invariant `Valid`.
-/

namespace CRpc

open Lib

/-- `Buffer`: storage, capacity, mode and the two indices. -/
structure Buffer where
  data : List UInt8
  capacity : Nat
  isFixed : Bool
  writeIdx : Nat
  readIdx : Nat
deriving DecidableEq, Repr

namespace Buffer

/-- `Buffer()`: dynamic mode without storage. -/
def empty : Buffer :=
  { data := [], capacity := 0, isFixed := false, writeIdx := 0, readIdx := 0 }

/-- `Buffer(char* external_mem, size_t capacity)`: fixed mode. -/
def fixed (externalMem : List UInt8) (capacity : Nat) : Buffer :=
  { data := externalMem, capacity := capacity, isFixed := true,
    writeIdx := 0, readIdx := 0 }

/-- `Buffer(size_t initial_size)`: dynamic mode. -/
def dynamic (initialSize : Nat) : Buffer :=
  { data := List.replicate initialSize 0, capacity := initialSize,
    isFixed := false, writeIdx := 0, readIdx := 0 }

/-- `WritableBytes()`. -/
def writableBytes (b : Buffer) : Nat :=
  b.capacity - b.writeIdx

/-- `HasWritten(len)`. -/
def hasWritten (b : Buffer) (len : Nat) : Buffer :=
  { b with writeIdx := b.writeIdx + len }

/-- `ReadableBytes()`. -/
def readableBytes (b : Buffer) : Nat :=
  b.writeIdx - b.readIdx

/-- `HasRead(len)`. -/
def hasRead (b : Buffer) (len : Nat) : Buffer :=
  { b with readIdx := b.readIdx + len }

/-- The `n` bytes a `memcpy` reads from `ReadBegin()`. -/
def readBegin (b : Buffer) (n : Nat) : List UInt8 :=
  slice b.data b.readIdx n

/-- A `memcpy`, or the kernel, stores bytes at `WriteBegin()`. -/
def storeAtWriteBegin (b : Buffer) (bytes : List UInt8) : Buffer :=
  { b with data := overwrite b.data b.writeIdx bytes }

/-- `Compact()`: move the unread bytes to the start of the storage. -/
def compact (b : Buffer) : Buffer :=
  if b.readIdx = 0 then b
  else
    { b with
      data :=
        if 0 < b.readableBytes then
          overwrite b.data 0 (slice b.data b.readIdx b.readableBytes)
        else b.data
      readIdx := 0
      writeIdx := b.readableBytes }

/-- `EnsureWritable(len)`: the result and the buffer afterwards. -/
def ensureWritable (b : Buffer) (len : Nat) : Bool × Buffer :=
  if len ≤ b.writableBytes then (true, b)
  else if len ≤ b.compact.writableBytes then (true, b.compact)
  else if b.compact.isFixed then (false, b.compact)
  else
    (true,
      { b.compact with
        capacity := b.compact.writeIdx + len
        data :=
          -- `data_.resize`: keep the cells that fit and zero-fill the new ones
          (b.compact.data ++
            List.replicate (b.compact.writeIdx + len - b.compact.data.length) 0).take
              (b.compact.writeIdx + len) })

/-- `GetSpan()`: the unread bytes. -/
def getSpan (b : Buffer) : List UInt8 :=
  slice b.data b.readIdx b.readableBytes

/-- The index invariant, with storage of exactly `capacity` bytes. -/
structure Valid (b : Buffer) : Prop where
  read_le : b.readIdx ≤ b.writeIdx
  write_le : b.writeIdx ≤ b.capacity
  size : b.data.length = b.capacity

theorem valid_empty : empty.Valid :=
  ⟨le_rfl, le_rfl, rfl⟩

theorem valid_fixed (mem : List UInt8) : (fixed mem mem.length).Valid :=
  ⟨le_rfl, Nat.zero_le _, rfl⟩

theorem valid_dynamic (n : Nat) : (dynamic n).Valid :=
  ⟨le_rfl, Nat.zero_le _, by simp [dynamic]⟩

@[simp] theorem getSpan_empty : empty.getSpan = [] := rfl

@[simp] theorem getSpan_fixed (mem : List UInt8) (n : Nat) :
    (fixed mem n).getSpan = [] := by
  simp [getSpan, fixed, readableBytes]

@[simp] theorem getSpan_dynamic (n : Nat) : (dynamic n).getSpan = [] := by
  simp [getSpan, dynamic, readableBytes]

theorem length_getSpan {b : Buffer} (h : b.Valid) :
    b.getSpan.length = b.readableBytes := by
  have h1 := h.read_le
  have h2 := h.write_le
  have h3 := h.size
  apply length_slice
  unfold readableBytes
  omega

/-! ### Reading -/

theorem readBegin_eq_take {b : Buffer} {n : Nat} (h : n ≤ b.readableBytes) :
    b.readBegin n = b.getSpan.take n := by
  simp only [readBegin, getSpan, slice, List.take_take, min_eq_left h]

theorem getSpan_hasRead (b : Buffer) (n : Nat) :
    (b.hasRead n).getSpan = b.getSpan.drop n := by
  have hn : (b.hasRead n).readableBytes = b.readableBytes - n := by
    simp only [hasRead, readableBytes]
    omega
  rw [getSpan, hn]
  exact slice_drop b.data b.readIdx b.readableBytes n

theorem valid_hasRead {b : Buffer} {n : Nat} (h : b.Valid)
    (hn : n ≤ b.readableBytes) : (b.hasRead n).Valid := by
  have h1 := h.read_le
  unfold readableBytes at hn
  refine ⟨?_, h.write_le, h.size⟩
  simp only [hasRead]
  omega

/-! ### Writing -/

/-- Storing bytes at `WriteBegin()` and announcing them appends them. -/
theorem getSpan_append {b : Buffer} (h : b.Valid) (bytes : List UInt8) :
    ((b.storeAtWriteBegin bytes).hasWritten bytes.length).getSpan =
      b.getSpan ++ bytes := by
  have h1 := h.read_le
  have h2 := h.write_le
  have h3 := h.size
  exact slice_overwrite b.data bytes h1 (by omega)

theorem valid_append {b : Buffer} (h : b.Valid) (bytes : List UInt8)
    (hlen : bytes.length ≤ b.writableBytes) :
    ((b.storeAtWriteBegin bytes).hasWritten bytes.length).Valid := by
  have h1 := h.read_le
  have h2 := h.write_le
  have h3 := h.size
  unfold writableBytes at hlen
  refine ⟨?_, ?_, ?_⟩
  · simp only [hasWritten, storeAtWriteBegin]
    omega
  · simp only [hasWritten, storeAtWriteBegin]
    omega
  · simp only [hasWritten, storeAtWriteBegin]
    rw [length_overwrite (by omega), h3]

/-! ### Making room -/

@[simp] theorem compact_readIdx (b : Buffer) : b.compact.readIdx = 0 := by
  unfold compact
  split_ifs with h hr
  · exact h
  · rfl
  · rfl

@[simp] theorem compact_writeIdx (b : Buffer) :
    b.compact.writeIdx = b.readableBytes := by
  unfold compact
  split_ifs with h hr
  · simp [readableBytes, h]
  · rfl
  · rfl

@[simp] theorem compact_capacity (b : Buffer) : b.compact.capacity = b.capacity := by
  unfold compact
  split_ifs <;> rfl

@[simp] theorem compact_isFixed (b : Buffer) : b.compact.isFixed = b.isFixed := by
  unfold compact
  split_ifs <;> rfl

theorem compact_readableBytes (b : Buffer) :
    b.compact.readableBytes = b.readableBytes := by
  rw [readableBytes, compact_readIdx, compact_writeIdx, Nat.sub_zero]

theorem compact_writableBytes (b : Buffer) :
    b.compact.writableBytes = b.capacity - b.readableBytes := by
  rw [writableBytes, compact_capacity, compact_writeIdx]

theorem length_compact_data {b : Buffer} (h : b.Valid) :
    b.compact.data.length = b.capacity := by
  have h1 := h.read_le
  have h2 := h.write_le
  have h3 := h.size
  unfold compact
  split_ifs with h0 hr
  · exact h3
  · have hlen := length_getSpan h
    unfold getSpan at hlen
    simp only
    rw [length_overwrite, h3]
    rw [hlen]
    unfold readableBytes
    omega
  · exact h3

theorem valid_compact {b : Buffer} (h : b.Valid) : b.compact.Valid := by
  have h1 := h.read_le
  have h2 := h.write_le
  refine ⟨?_, ?_, ?_⟩
  · simp
  · rw [compact_writeIdx, compact_capacity]
    unfold readableBytes
    omega
  · rw [length_compact_data h, compact_capacity]

theorem getSpan_compact {b : Buffer} (h : b.Valid) :
    b.compact.getSpan = b.getSpan := by
  have hlen := length_getSpan h
  rw [getSpan, compact_readableBytes, compact_readIdx]
  unfold compact
  split_ifs with h0 hr
  · rw [getSpan, h0]
  · -- the moved bytes are read back from offset zero
    have hmove := slice_overwrite b.data b.getSpan
      (Nat.le_refl 0) (Nat.zero_le _)
    simp only [Nat.zero_add, Nat.sub_zero, slice_zero, List.nil_append,
      hlen] at hmove
    exact hmove
  · have hzero : b.readableBytes = 0 := by omega
    rw [getSpan, hzero, slice_zero, slice_zero]

theorem valid_ensureWritable {b : Buffer} (h : b.Valid) (len : Nat) :
    (b.ensureWritable len).2.Valid := by
  have hc := valid_compact h
  unfold ensureWritable
  split_ifs with h1 h2 h3
  · exact h
  · exact hc
  · exact hc
  · have hw := hc.write_le
    have hs := hc.size
    refine ⟨?_, ?_, ?_⟩
    · exact hc.read_le
    · simp only
      omega
    · simp only [List.length_take, List.length_append, List.length_replicate]
      omega

theorem getSpan_ensureWritable {b : Buffer} (h : b.Valid) (len : Nat) :
    (b.ensureWritable len).2.getSpan = b.getSpan := by
  have hc := valid_compact h
  have hspan := getSpan_compact h
  unfold ensureWritable
  split_ifs with h1 h2 h3
  · rfl
  · exact hspan
  · exact hspan
  · -- growth happens behind the unread bytes
    rw [← hspan]
    have hw := hc.write_le
    have hs := hc.size
    have hlen : len > b.compact.capacity - b.compact.writeIdx := by
      unfold writableBytes at h2
      omega
    simp only [getSpan, readableBytes, slice, compact_readIdx, List.drop_zero,
      Nat.sub_zero, List.take_take]
    rw [min_eq_left (by omega), List.take_append_of_le_length (by omega)]

@[simp] theorem ensureWritable_isFixed (b : Buffer) (len : Nat) :
    (b.ensureWritable len).2.isFixed = b.isFixed := by
  unfold ensureWritable
  split_ifs <;> simp

theorem ensureWritable_capacity_of_fixed {b : Buffer} (h : b.isFixed = true)
    (len : Nat) : (b.ensureWritable len).2.capacity = b.capacity := by
  unfold ensureWritable
  split_ifs with h1 h2 h3
  · rfl
  · simp
  · simp
  · simp [h] at h3

/-- Refusal happens in fixed mode only, when the unread bytes leave no room. -/
theorem ensureWritable_eq_false_iff {b : Buffer} (h : b.Valid) (len : Nat) :
    (b.ensureWritable len).1 = false ↔
      b.isFixed = true ∧ b.capacity < b.readableBytes + len := by
  have h1 := h.read_le
  have h2 := h.write_le
  have hroom := compact_writableBytes b
  have hr : b.readableBytes ≤ b.writeIdx := by
    unfold readableBytes
    omega
  unfold ensureWritable
  split_ifs with hw hcw hf
  · unfold writableBytes at hw
    simp only [false_iff, not_and]
    omega
  · rw [hroom] at hcw
    simp only [false_iff, not_and]
    omega
  · rw [hroom] at hcw
    rw [compact_isFixed] at hf
    simp only [hf, true_and, true_iff]
    omega
  · rw [compact_isFixed] at hf
    simp [hf]

/-- After a granted request at least `len` bytes are writable. -/
theorem le_writableBytes_of_ensureWritable {b : Buffer} {len : Nat}
    (h : (b.ensureWritable len).1 = true) :
    len ≤ (b.ensureWritable len).2.writableBytes := by
  unfold ensureWritable at h ⊢
  split_ifs at h ⊢ with h1 h2 h3
  · exact h1
  · exact h2
  · simp only [writableBytes]
    omega

end Buffer

end CRpc
