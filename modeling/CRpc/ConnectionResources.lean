import CRpc.SessionInvariant

/-!
# Registered resources of a connection

A connection takes its file slot and its two buffers from the pools of the
`IoContext` when it is constructed, keeps them unchanged while its coroutines
run, and returns exactly these when it is closed.
-/

namespace CRpc

open Lib Protocol

namespace FixedResources

theorem setup_nodup (enable : Bool) (bufCount bufSize : Nat)
    (memalignOk buffersOk filesOk : Bool) :
    (setup enable bufCount bufSize memalignOk buffersOk filesOk).freeBufIndices.Nodup ∧
      (setup enable bufCount bufSize memalignOk buffersOk filesOk).freeFileIndices.Nodup := by
  simp only [setup]
  refine ⟨?_, ?_⟩
  · split
    · exact List.nodup_range
    · exact List.nodup_nil
  · split
    · exact List.nodup_range
    · exact List.nodup_nil

variable (r : FixedResources)

theorem allocateBuffer_free :
    r.allocateBuffer.2.freeBufIndices ++ r.allocateBuffer.1.toList = r.freeBufIndices := by
  rw [allocateBuffer]
  cases hlast : r.freeBufIndices.getLast? with
  | none => simp
  | some idx => exact List.dropLast_append_getLast? idx hlast

theorem allocateBuffer_files :
    r.allocateBuffer.2.freeFileIndices = r.freeFileIndices := by
  rw [allocateBuffer]
  split <;> rfl

theorem registerFile_free (fd : Int) (updateOk : Bool) :
    (r.registerFile fd updateOk).2.freeFileIndices ++
      (r.registerFile fd updateOk).1.toList = r.freeFileIndices := by
  rw [registerFile]
  split
  · cases hlast : r.freeFileIndices.getLast? with
    | none => simp
    | some idx =>
        have hback := List.dropLast_append_getLast? idx hlast
        cases updateOk with
        | true => exact hback
        | false => simpa using hback
  · simp

theorem registerFile_buffers (fd : Int) (updateOk : Bool) :
    (r.registerFile fd updateOk).2.freeBufIndices = r.freeBufIndices := by
  rw [registerFile]
  split
  · split
    · rfl
    · split <;> rfl
  · rfl

/-- A successful registration puts the descriptor into the slot it hands out. -/
theorem registerFile_table (fd : Int) (updateOk : Bool) (idx : Nat) :
    (r.registerFile fd updateOk).2.fileTable idx =
      if idx ∈ (r.registerFile fd updateOk).1.toList then fd else r.fileTable idx := by
  rw [registerFile]
  split
  · split
    · simp
    · split
      · simp only [Function.update_apply, Option.toList_some, List.mem_singleton]
      · simp
  · simp

theorem allocateBuffer_table : r.allocateBuffer.2.fileTable = r.fileTable := by
  rw [allocateBuffer]
  split <;> rfl

theorem allocateBuffer_bufSize : r.allocateBuffer.2.bufSize = r.bufSize := by
  rw [allocateBuffer]
  split <;> rfl

theorem registerFile_bufSize (fd : Int) (updateOk : Bool) :
    (r.registerFile fd updateOk).2.bufSize = r.bufSize := by
  rw [registerFile]
  split
  · split
    · rfl
    · split <;> rfl
  · rfl

end FixedResources

namespace CoroConnection

/-- The registered buffers a connection holds. -/
def buffers (c : CoroConnection) : List Nat := c.readBufIdx.toList ++ c.writeBufIdx.toList

/-- The file slot a connection holds. -/
def files (c : CoroConnection) : List Nat := c.fixedFileIdx.toList

section Create

variable (r : FixedResources) (fd : Int) (updateOk : Bool) (readMem writeMem : List UInt8)

theorem create_buffers :
    ((create r fd updateOk readMem writeMem).2.freeBufIndices ++
      (create r fd updateOk readMem writeMem).1.buffers).Perm r.freeBufIndices := by
  have hread := (r.registerFile fd updateOk).2.allocateBuffer_free
  have hwrite := (r.registerFile fd updateOk).2.allocateBuffer.2.allocateBuffer_free
  rw [r.registerFile_buffers fd updateOk] at hread
  rw [← hread, ← hwrite, buffers, List.append_assoc]
  exact List.Perm.append_left _ List.perm_append_comm

theorem create_files :
    (create r fd updateOk readMem writeMem).2.freeFileIndices ++
      (create r fd updateOk readMem writeMem).1.files = r.freeFileIndices := by
  rw [← r.registerFile_free fd updateOk]
  simp only [create, files, FixedResources.allocateBuffer_files]

/-- The slot of a new connection leads to its descriptor; the others are unchanged. -/
theorem create_table (idx : Nat) :
    (create r fd updateOk readMem writeMem).2.fileTable idx =
      if idx ∈ (create r fd updateOk readMem writeMem).1.files then fd
      else r.fileTable idx := by
  rw [create, FixedResources.allocateBuffer_table, FixedResources.allocateBuffer_table]
  exact r.registerFile_table fd updateOk idx

theorem create_bufSize : (create r fd updateOk readMem writeMem).2.bufSize = r.bufSize := by
  rw [create, FixedResources.allocateBuffer_bufSize, FixedResources.allocateBuffer_bufSize,
    FixedResources.registerFile_bufSize]

/-- A new connection owns a write buffer of the registered size. -/
theorem writeOk_create (hmem : writeMem.length = r.bufSize) :
    (create r fd updateOk readMem writeMem).1.WriteOk := by
  intro hsome
  simp only [create] at hsome ⊢
  cases hidx : (r.registerFile fd updateOk).2.allocateBuffer.2.allocateBuffer.1 with
  | none => simp [hidx] at hsome
  | some idx => exact hmem

end Create

/-- `Close` returns to the pools what the connection holds. -/
theorem close_resources {c : CoroConnection} (hopen : c.closed = false)
    (r : FixedResources) (updateOk : Bool) :
    (c.close r updateOk).2.freeBufIndices = r.freeBufIndices ++ c.buffers ∧
      (c.close r updateOk).2.freeFileIndices = r.freeFileIndices ++ c.files := by
  simp only [close, hopen, buffers, files, Bool.false_eq_true, if_false]
  cases c.fixedFileIdx <;> cases c.readBufIdx <;> cases c.writeBufIdx <;>
    simp [FixedResources.unregisterFile, FixedResources.freeBuffer]

/-- `Close` touches the slot of the connection and no other. -/
theorem close_table {c : CoroConnection} {idx : Nat} (hidx : idx ∉ c.files)
    (r : FixedResources) (updateOk : Bool) :
    (c.close r updateOk).2.fileTable idx = r.fileTable idx := by
  rw [close]
  split
  · rfl
  · cases hfile : c.fixedFileIdx with
    | none => cases c.readBufIdx <;> cases c.writeBufIdx <;> rfl
    | some slot =>
        have hne : idx ≠ slot := by
          rw [files, hfile, Option.toList_some, List.mem_singleton] at hidx
          exact hidx
        cases c.readBufIdx <;> cases c.writeBufIdx <;> cases updateOk <;>
          simp [FixedResources.unregisterFile, FixedResources.freeBuffer, hne]

theorem close_bufSize (c : CoroConnection) (r : FixedResources) (updateOk : Bool) :
    (c.close r updateOk).2.bufSize = r.bufSize := by
  rw [close]
  split
  · rfl
  · cases c.fixedFileIdx <;> cases c.readBufIdx <;> cases c.writeBufIdx <;> rfl

/-- The connection keeps its descriptor, its slot and its buffers. -/
structure SameResources (c c' : CoroConnection) : Prop where
  fd : c'.fd = c.fd
  closed : c'.closed = c.closed
  fixedFileIdx : c'.fixedFileIdx = c.fixedFileIdx
  readBufIdx : c'.readBufIdx = c.readBufIdx
  writeBufIdx : c'.writeBufIdx = c.writeBufIdx

theorem SameResources.trans {c₁ c₂ c₃ : CoroConnection} (h₁ : SameResources c₁ c₂)
    (h₂ : SameResources c₂ c₃) : SameResources c₁ c₃ :=
  ⟨h₂.fd.trans h₁.fd, h₂.closed.trans h₁.closed, h₂.fixedFileIdx.trans h₁.fixedFileIdx,
    h₂.readBufIdx.trans h₁.readBufIdx, h₂.writeBufIdx.trans h₁.writeBufIdx⟩

theorem SameResources.buffers_eq {c c' : CoroConnection} (h : SameResources c c') :
    c'.buffers = c.buffers := by
  rw [buffers, buffers, h.readBufIdx, h.writeBufIdx]

theorem SameResources.files_eq {c c' : CoroConnection} (h : SameResources c c') :
    c'.files = c.files := by
  rw [files, files, h.fixedFileIdx]

end CoroConnection

namespace Session

open CoroConnection (SameResources)

variable {base : Ops} {s : Session} {flavor : Flavor} {codec : EchoCodec}

theorem Frame.sameResources {s' : Session} (h : Frame s s') :
    SameResources s.conn s'.conn := by
  obtain ⟨buf, hconn⟩ := h.conn
  rw [hconn]
  exact ⟨rfl, rfl, rfl, rfl, rfl⟩

theorem sameResources_readAgain (s : Session) (buf : Buffer) :
    SameResources s.conn (s.readAgain buf).conn := ⟨rfl, rfl, rfl, rfl, rfl⟩

theorem sameResources_received (s : Session) (bytes : List UInt8) :
    SameResources s.conn (s.received bytes).conn := ⟨rfl, rfl, rfl, rfl, rfl⟩

theorem Ok.sameResources_readDone {sqe : Sqe} (h : Ok ((.reader, sqe) :: base) s)
    (res : Int) {bytes : List UInt8} (hbytes : bytes.length ≤ postedRead sqe) :
    SameResources s.conn (Session.readDone flavor codec s res bytes).conn := by
  rcases h.readDone_cases flavor codec res hbytes with ⟨_, heq⟩ | ⟨_, buf, heq⟩
  · rw [heq, Session.endRead]
    have hframe := writerFrame_resumeWaiter
      ({ s with reader := .running, queue := s.queue.close.1 } : Session) s.queue.close.2
    exact hframe.toFrame.sameResources
  · have hsame := (frame_handleAll flavor codec
      (frames.drain (s.conn.readBuffer.getSpan ++ bytes)).1 (s.received bytes)).sameResources
    rw [heq]
    exact ((sameResources_received s bytes).trans hsame).trans (sameResources_readAgain _ buf)

theorem Ok.sameResources_writeDone {sqe : Sqe} (h : Ok ((.writer, sqe) :: base) s) {w : Int}
    (hw : w ≤ postedWrite sqe) :
    SameResources s.conn ((s.kernelWrites sqe w).writeDone w).conn :=
  (h.writerFrame_writeDone hw).toFrame.sameResources

theorem Ok.sameResources_timerDone {sqe : Sqe} {id : Nat}
    (h : Ok ((.handler id, sqe) :: base) s) :
    SameResources s.conn (Session.timerDone codec s id).conn := by
  obtain ⟨hd, hfind, _⟩ := h.resumeHandler
  rw [Session.timerDone, hfind]
  exact (frame_push { s with handlers := s.handlers.eraseP (fun hd => hd.id = id) }
    (codec.response hd.header hd.message)).sameResources

theorem sameResources_start (c : CoroConnection) :
    SameResources c (Session.start c).conn := by
  rw [start_eq]
  exact ⟨rfl, rfl, rfl, rfl, rfl⟩

end Session

end CRpc
