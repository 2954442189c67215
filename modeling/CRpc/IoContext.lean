import Mathlib.Data.List.Basic
import Mathlib.Tactic

/-!
# Submission entries and registered resources

The part of `IoContext` (`io_context.h`, `io_context.cpp`) that hands out the
registered buffers and the fixed file slots, and the submission entries that
name them.  The request pool and the event loop are in `EventLoop`.

What the kernel decides (whether a registration succeeds) is an argument.
-/

namespace CRpc

/-- What an operation addresses: a descriptor, or a slot with `IOSQE_FIXED_FILE`. -/
inductive Target where
  | fd (n : Int)
  | fixedFile (idx : Nat)
deriving DecidableEq, Repr

/--
A prepared submission entry.  `bufIdx` is the registered buffer of the `_fixed`
variants, `addr` the offset in the storage of the connection's buffer, `len`
the 32-bit length field.
-/
inductive Sqe where
  | accept (listenFd : Int)
  | read (target : Target) (bufIdx : Option Nat) (addr len : Nat)
  | write (target : Target) (bufIdx : Option Nat) (addr len : Nat)
  | timeout (sec nsec : Nat)
  | cancelAll
deriving DecidableEq, Repr

/-- The operation is a read or a write. -/
def Sqe.isTransfer : Sqe → Bool
  | .read _ _ _ _ => true
  | .write _ _ _ _ => true
  | _ => false

/-- Length of a posted read. -/
def postedRead : Sqe → Nat
  | .read _ _ _ len => len
  | _ => 0

/-- Length of a posted write. -/
def postedWrite : Sqe → Nat
  | .write _ _ _ len => len
  | _ => 0

/-- A `size_t` stored into the 32-bit length field of an entry. -/
def toU32 (n : Nat) : Nat := n % 2 ^ 32

/-- `static_cast<int>` of a `size_t`. -/
def toInt32 (n : Nat) : Int := Int.bmod n (2 ^ 32)

theorem toInt32_of_lt {n : Nat} (h : n < 2 ^ 31) : toInt32 n = n :=
  Int.bmod_eq_of_le_mul_two (by omega) (by omega)

/-- The fixed buffer pool and the fixed file table of one `IoContext`. -/
structure FixedResources where
  bufSize : Nat
  freeBufIndices : List Nat
  filesEnabled : Bool
  maxFixedFiles : Nat
  freeFileIndices : List Nat
  /-- The kernel's table behind the fixed file slots; `-1` is an empty slot. -/
  fileTable : Nat → Int

namespace FixedResources

/-- Pool setup in the constructor of `IoContext`. -/
def setup (enableRegisteredBufs : Bool) (bufCount bufSize : Nat)
    (memalignOk registerBuffersOk registerFilesOk : Bool) : FixedResources :=
  { bufSize :=
      if enableRegisteredBufs && memalignOk && registerBuffersOk then bufSize else 0
    freeBufIndices :=
      if enableRegisteredBufs && memalignOk && registerBuffersOk then
        List.range bufCount
      else []
    filesEnabled := registerFilesOk
    maxFixedFiles := 1024
    freeFileIndices := if registerFilesOk then List.range 1024 else []
    fileTable := fun _ => -1 }

/-- `AllocateBuffer`: the last free index, if any. -/
def allocateBuffer (r : FixedResources) : Option Nat × FixedResources :=
  match r.freeBufIndices.getLast? with
  | none => (none, r)
  | some idx => (some idx, { r with freeBufIndices := r.freeBufIndices.dropLast })

/-- `FreeBuffer`. -/
def freeBuffer (r : FixedResources) (idx : Nat) : FixedResources :=
  { r with freeBufIndices := r.freeBufIndices ++ [idx] }

/-- `RegisterFile`; `updateOk` is the outcome of `io_uring_register_files_update`. -/
def registerFile (r : FixedResources) (fd : Int) (updateOk : Bool) :
    Option Nat × FixedResources :=
  if r.filesEnabled then
    match r.freeFileIndices.getLast? with
    | none => (none, r)
    | some idx =>
        if updateOk then
          (some idx,
            { r with
              freeFileIndices := r.freeFileIndices.dropLast
              fileTable := Function.update r.fileTable idx fd })
        else
          -- the slot taken from the back is pushed back
          (none, { r with freeFileIndices := r.freeFileIndices.dropLast ++ [idx] })
  else (none, r)

/-- `UnregisterFile`: the slot is freed whether or not the update succeeds. -/
def unregisterFile (r : FixedResources) (idx : Nat) (updateOk : Bool) :
    FixedResources :=
  { r with
    fileTable := if updateOk then Function.update r.fileTable idx (-1) else r.fileTable
    freeFileIndices := r.freeFileIndices ++ [idx] }

end FixedResources

end CRpc
