import CRpc.Buffer
import CRpc.Lib.Machine

/-!
# The buffer as a byte queue

What `Buffer` is for: a first-in first-out queue of bytes.  `Fifo.machine` is the
queue itself, over any type of items.  `Buffer.machine` is a buffer on which its
clients call `EnsureWritable`, `Compact`, `HasRead` within the readable bytes, and
store bytes at `WriteBegin()` that they announce with `HasWritten` within the
writable bytes, in any order.

`Buffer.refines_fifo` says that every run of the buffer, in either mode, is a run
of the queue on the unread bytes.
-/

namespace CRpc

open Lib

universe u

namespace Fifo

variable {α : Type u}

/-- What can happen to a queue. -/
inductive Event (α : Type u) where
  | append (xs : List α)
  | drop (n : Nat)
  | keep

/-- A first-in first-out queue of unbounded size. -/
def machine : Machine (List α) (Event α) where
  step q
    | .append xs => some (q ++ xs)
    | .drop n => if n ≤ q.length then some (q.drop n) else none
    | .keep => some q

end Fifo

namespace Buffer

/-- A call on a buffer; `write` is a store at `WriteBegin()` with its `HasWritten`. -/
inductive Call where
  | ensureWritable (len : Nat)
  | write (bytes : List UInt8)
  | hasRead (len : Nat)
  | compact
deriving DecidableEq, Repr

/-- A buffer whose clients keep to the readable and the writable bytes. -/
def machine : Machine Buffer Call where
  step b
    | .ensureWritable len => some (b.ensureWritable len).2
    | .write bytes =>
        if bytes.length ≤ b.writableBytes then
          some ((b.storeAtWriteBegin bytes).hasWritten bytes.length)
        else none
    | .hasRead len => if len ≤ b.readableBytes then some (b.hasRead len) else none
    | .compact => some b.compact

/-- What a call means for the queue of unread bytes. -/
def Call.effect : Call → Fifo.Event UInt8
  | .ensureWritable _ => .keep
  | .write bytes => .append bytes
  | .hasRead len => .drop len
  | .compact => .keep

/-- What the clients of a buffer with the unread bytes `q` rely on. -/
structure Represents (b : Buffer) (q : List UInt8) : Prop where
  read_le : b.readIdx ≤ b.writeIdx
  write_le : b.writeIdx ≤ b.capacity
  size : b.data.length = b.capacity
  getSpan_eq : b.getSpan = q
  readableBytes_eq : b.readableBytes = q.length
  readBegin_eq : ∀ n, n ≤ b.readableBytes → b.readBegin n = q.take n
  refused_iff : ∀ n, (b.ensureWritable n).1 = false ↔
    b.isFixed = true ∧ b.capacity < b.readableBytes + n
  granted : ∀ n, (b.ensureWritable n).1 = true →
    n ≤ (b.ensureWritable n).2.writableBytes

theorem Valid.represents {b : Buffer} (h : b.Valid) : b.Represents b.getSpan where
  read_le := h.read_le
  write_le := h.write_le
  size := h.size
  getSpan_eq := rfl
  readableBytes_eq := (length_getSpan h).symm
  readBegin_eq _ hn := readBegin_eq_take hn
  refused_iff n := ensureWritable_eq_false_iff h n
  granted _ hn := le_writableBytes_of_ensureWritable hn

/-- One call keeps the buffer well formed and does to the unread bytes what it means. -/
theorem step_effect {b b' : Buffer} {e : Call} (h : b.Valid)
    (hstep : machine.step b e = some b') :
    b'.Valid ∧ b'.isFixed = b.isFixed ∧
      Fifo.machine.step b.getSpan e.effect = some b'.getSpan := by
  cases e with
  | ensureWritable len =>
      cases hstep
      refine ⟨valid_ensureWritable h len, ensureWritable_isFixed b len, ?_⟩
      rw [getSpan_ensureWritable h]
      rfl
  | write bytes =>
      simp only [machine, Option.ite_none_right_eq_some, Option.some.injEq] at hstep
      obtain ⟨hlen, rfl⟩ := hstep
      refine ⟨valid_append h bytes hlen, rfl, ?_⟩
      rw [getSpan_append h]
      rfl
  | hasRead len =>
      simp only [machine, Option.ite_none_right_eq_some, Option.some.injEq] at hstep
      obtain ⟨hlen, rfl⟩ := hstep
      refine ⟨valid_hasRead h hlen, rfl, ?_⟩
      rw [getSpan_hasRead]
      rw [← length_getSpan h] at hlen
      exact if_pos hlen
  | compact =>
      cases hstep
      refine ⟨valid_compact h, compact_isFixed b, ?_⟩
      rw [getSpan_compact h]
      rfl

/-- Every run of a buffer is a run of the queue of its unread bytes. -/
theorem refines_fifo {b : Buffer} (h : b.Valid) {es : List Call} {t : Buffer}
    (hrun : machine.exec b es = some t) :
    t.isFixed = b.isFixed ∧
      ∃ q, Fifo.machine.exec b.getSpan (es.map Call.effect) = some q ∧ t.Represents q := by
  have hstep : ∀ (s : Buffer) (e : Call) (s' : Buffer) (q : List UInt8),
      (s.Valid ∧ s.isFixed = b.isFixed ∧ s.getSpan = q) → machine.step s e = some s' →
      ∃ q', Fifo.machine.step q e.effect = some q' ∧
        s'.Valid ∧ s'.isFixed = b.isFixed ∧ s'.getSpan = q' := by
    rintro s e s' q ⟨hs, hmode, rfl⟩ hstep
    obtain ⟨hs', hmode', heffect⟩ := step_effect hs hstep
    exact ⟨_, heffect, hs', hmode'.trans hmode, rfl⟩
  obtain ⟨q, hq, hvalid, hmode, rfl⟩ :=
    Machine.exec_refinement hstep ⟨h, rfl, rfl⟩ hrun
  exact ⟨hmode, _, hq, hvalid.represents⟩

/-- A registered buffer of four bytes is filled, read, compacted and filled again. -/
theorem refines_fifo_four_bytes :
    (fixed [0, 0, 0, 0] 4).Valid ∧
      ∃ t, machine.exec (fixed [0, 0, 0, 0] 4)
          [.write [1, 2, 3, 4], .hasRead 3, .ensureWritable 2, .write [5, 6],
            .ensureWritable 2] = some t ∧
        t.isFixed = true ∧
        ∃ q, Fifo.machine.exec (fixed [0, 0, 0, 0] 4).getSpan
            ([.write [1, 2, 3, 4], .hasRead 3, .ensureWritable 2, .write [5, 6],
              .ensureWritable 2].map Call.effect) = some q ∧
          t.Represents q := by
  have hvalid : (fixed [0, 0, 0, 0] 4).Valid := valid_fixed [0, 0, 0, 0]
  obtain ⟨t, ht⟩ : ∃ t, machine.exec (fixed [0, 0, 0, 0] 4)
      [.write [1, 2, 3, 4], .hasRead 3, .ensureWritable 2, .write [5, 6],
        .ensureWritable 2] = some t :=
    Option.isSome_iff_exists.mp (by decide)
  exact ⟨hvalid, t, ht, refines_fifo hvalid ht⟩

end Buffer

end CRpc
