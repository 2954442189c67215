import CRpc.Connections

/-!
# What a posted operation may touch

An operation of a connection names a descriptor or file slot and a piece of memory.
`Client.Owns` says that both still belong to the connection: the connection is not
closed, the slot and the registered buffer are among those it holds, and the memory
lies inside the storage.

`Close` gives the slot and the buffers back and resets their indices, but keeps the
descriptor and `read_buffer_`.  A later `Read` or `Write` therefore goes to the old
descriptor number, and a `Read` into pool memory that may belong to another
connection by then.

* `posts_only_owned`: in a run in which nothing is posted on closed connections, and
  in which the reads of a connection do not overlap, every posted operation is owned
  by its caller and by nobody else.
* `read_after_close`: the run that shows why the first condition is needed.
-/

namespace CRpc

open Lib

namespace CoroConnection

/-- The connection owns the target of an operation. -/
def OwnsTarget (c : CoroConnection) (r : FixedResources) : Target → Prop
  | .fd fd => c.closed = false ∧ fd = c.fd
  | .fixedFile idx => idx ∈ c.files ∧ r.fileTable idx = c.fd

/--
The connection owns `len` bytes at `addr` of the storage of `buf`, which is the
registered buffer `idx` or storage of its own.
-/
def OwnsMemory (c : CoroConnection) (r : FixedResources) (idx : Option Nat) (buf : Buffer)
    (addr len : Nat) : Prop :=
  addr + len ≤ buf.data.length ∧
    ∀ i, idx = some i → i ∈ c.buffers ∧ buf.data.length = r.bufSize

theorem SameResources.ownsTarget {c c' : CoroConnection} {r : FixedResources} {target : Target}
    (h : SameResources c c') (howns : c.OwnsTarget r target) : c'.OwnsTarget r target := by
  cases target with
  | fd fd => exact ⟨h.closed.trans howns.1, howns.2.trans h.fd.symm⟩
  | fixedFile idx =>
      refine ⟨?_, howns.2.trans h.fd.symm⟩
      rw [h.files_eq]
      exact howns.1

/-- `Read` posts a read into the free part of the read buffer. -/
theorem read_bounds {c : CoroConnection} (h : c.readBuffer.Valid) :
    ∃ len, c.read.2 = .read c.target c.readBufIdx c.read.1.readBuffer.writeIdx len ∧
      len ≤ c.read.1.readBuffer.writableBytes ∧
      c.read.1.readBuffer.writeIdx + len ≤ c.read.1.readBuffer.data.length := by
  have hvalid : c.read.1.readBuffer.Valid := Buffer.valid_ensureWritable h _
  have hbegin := hvalid.write_le
  have hlen : toU32 c.read.1.readBuffer.writableBytes ≤ c.read.1.readBuffer.writableBytes :=
    Nat.mod_le _ _
  refine ⟨toU32 c.read.1.readBuffer.writableBytes, rfl, hlen, ?_⟩
  rw [hvalid.size]
  unfold Buffer.writableBytes at hlen ⊢
  omega

/-- `WriteOnce` posts a write of staged bytes. -/
theorem writeOnce_bounds {c : CoroConnection} (h : c.WriteOk) (data : List UInt8) :
    ∃ len, (c.writeOnce data).2 = .write c.target c.writeBufIdx 0 len ∧
      len ≤ (c.writeOnce data).1.writeBuffer.data.length := by
  have hsize := (writeOnce_staged h data).1
  cases hidx : c.writeBufIdx with
  | none =>
      rw [writeOnce_dynamic hidx, hidx]
      refine ⟨_, rfl, ?_⟩
      simp only [withWriteBuffer, Buffer.hasWritten, Buffer.storeAtWriteBegin, Buffer.dynamic]
      rw [length_overwrite (by simp), List.length_replicate]
      exact Nat.mod_le _ _
  | some idx =>
      have hstaged := hsize (by rw [((c.sameResources_writeOnce data).writeBufIdx), hidx]; rfl)
      rw [hstaged]
      rw [writeOnce_fixed hidx, hidx]
      refine ⟨_, rfl, ?_⟩
      exact (Nat.mod_le _ _).trans (Nat.min_le_right _ _)

theorem ownsTarget_target {c : CoroConnection} {r : FixedResources} (hopen : c.closed = false)
    (htable : ∀ idx, idx ∈ c.files → r.fileTable idx = c.fd) : c.OwnsTarget r c.target := by
  rw [target]
  split
  next idx hidx =>
    have hmem : idx ∈ c.files := by
      rw [files, hidx]
      exact List.mem_singleton_self idx
    exact ⟨hmem, htable idx hmem⟩
  next => exact ⟨hopen, rfl⟩

end CoroConnection

namespace Client

/-- The registered buffer that an operation of the connection reads or fills. -/
def memory (p : Client) : Sqe → Option Nat
  | .read _ _ _ _ => p.readMemory
  | .write _ idx _ _ => idx
  | _ => none

/-- The connection owns what the operation names. -/
def Owns (p : Client) (r : FixedResources) : Sqe → Prop
  | .read target idx addr len =>
      p.conn.OwnsTarget r target ∧ (∀ i, idx = some i → i ∈ p.conn.buffers) ∧
        p.conn.OwnsMemory r p.readMemory p.conn.readBuffer addr len
  | .write target idx addr len =>
      p.conn.OwnsTarget r target ∧ p.conn.OwnsMemory r idx p.conn.writeBuffer addr len
  | _ => False

/--
The call posts nothing on a closed connection, and no second read while one is in
flight.
-/
def Permits (p : Client) (c : Call) : Prop :=
  (c = .read → p.conn.closed = false ∧ p.reads = []) ∧ (p.Sends c → p.conn.closed = false)

/-- The buffers of a connection and its read in flight, if there is one. -/
structure Ok (size : Nat) (p : Client) : Prop where
  readValid : p.conn.readBuffer.Valid
  readMemory : p.conn.closed = false → p.readMemory = p.conn.readBufIdx
  readFixed : p.readMemory.isSome →
    p.conn.readBuffer.isFixed = true ∧ p.conn.readBuffer.capacity = size
  writeOk : p.conn.WriteOk
  bufSize : p.conn.bufSize = size
  reading : ∀ op, op ∈ p.reads → p.reads = [op] ∧ ∃ target idx len,
    op = .read target idx p.conn.readBuffer.writeIdx len ∧
      len ≤ p.conn.readBuffer.writableBytes

variable {p q : Client} {c : Call} {op : Option Sqe} {size : Nat}

theorem ok_construct (r : FixedResources) (fd : Int) (updateOk : Bool)
    {readMem writeMem : List UInt8} (hread : readMem.length = r.bufSize)
    (hwrite : writeMem.length = r.bufSize) :
    (construct (CoroConnection.create r fd updateOk readMem writeMem).1).Ok r.bufSize := by
  have hwriteOk := CoroConnection.writeOk_create r fd updateOk readMem writeMem hwrite
  refine ⟨?_, fun _ => rfl, ?_, hwriteOk, rfl, ?_⟩
  · simp only [construct, CoroConnection.create]
    split
    · rw [← hread]
      exact Buffer.valid_fixed readMem
    · exact Buffer.valid_dynamic _
  · simp only [construct, CoroConnection.create]
    intro hsome
    obtain ⟨idx, hidx⟩ := Option.isSome_iff_exists.mp hsome
    rw [hidx]
    exact ⟨rfl, rfl⟩
  · simp [construct]

/-- `Close` leaves the buffers as they are. -/
theorem Ok.close (h : p.Ok size) (r : FixedResources) (updateOk alive : Bool) :
    Ok size { p with conn := (p.conn.close r updateOk).1, alive := alive } := by
  cases hopen : p.conn.closed with
  | true =>
      have hsame : p.conn.close r updateOk = (p.conn, r) := if_pos hopen
      rw [hsame]
      exact ⟨h.readValid, h.readMemory, h.readFixed, h.writeOk, h.bufSize, h.reading⟩
  | false =>
      have hclosed : (p.conn.close r updateOk).1 = { p.conn with
          closed := true, fixedFileIdx := none, readBufIdx := none, writeBufIdx := none } := by
        simp [CoroConnection.close, hopen]
      rw [hclosed]
      refine ⟨h.readValid, ?_, h.readFixed, ?_, h.bufSize, h.reading⟩
      · intro hfalse
        cases hfalse
      · intro hsome
        cases hsome

/-! ### One call -/

theorem Ok.read (h : p.Ok size) (hreads : p.reads = []) :
    Ok size { p with conn := p.conn.read.1, reads := p.reads ++ [p.conn.read.2] } := by
  refine ⟨Buffer.valid_ensureWritable h.readValid _, h.readMemory, ?_, h.writeOk, h.bufSize, ?_⟩
  · intro hsome
    obtain ⟨hfixed, hcapacity⟩ := h.readFixed hsome
    refine ⟨?_, ?_⟩
    · exact (Buffer.ensureWritable_isFixed _ _).trans hfixed
    · exact (Buffer.ensureWritable_capacity_of_fixed hfixed _).trans hcapacity
  · intro op hop
    obtain ⟨len, hread, hlen, _⟩ := CoroConnection.read_bounds h.readValid
    rw [hreads, List.nil_append] at hop ⊢
    rw [List.mem_singleton.mp hop]
    exact ⟨rfl, _, _, len, hread, hlen⟩

/-- The kernel stores the bytes where the buffer ends. -/
theorem Ok.readDone (h : p.Ok size) {i addr len : Nat} {bytes : List UInt8} {target : Target}
    {idx : Option Nat} (hop : p.reads[i]? = some (.read target idx addr len))
    (hlen : bytes.length ≤ len) :
    Ok size { p with
      conn := { p.conn with readBuffer := stored p.conn.readBuffer addr bytes }
      reads := p.reads.eraseIdx i } := by
  obtain ⟨hone, target', idx', len', heq, hroom⟩ := h.reading _ (List.mem_of_getElem? hop)
  cases heq
  have hvalid := Buffer.valid_append h.readValid bytes (hlen.trans hroom)
  have hrest : p.reads.eraseIdx i = [] := by
    rw [hone] at hop ⊢
    obtain ⟨hlt, _⟩ := List.getElem?_eq_some_iff.mp hop
    rw [List.length_singleton, Nat.lt_one_iff] at hlt
    rw [hlt]
    rfl
  refine ⟨hvalid, h.readMemory, h.readFixed, h.writeOk, h.bufSize, ?_⟩
  simp [hrest]

theorem Ok.hasRead (h : p.Ok size) {n : Nat} (hreads : p.reads = [])
    (hn : n ≤ p.conn.readBuffer.readableBytes) :
    Ok size { p with conn := { p.conn with readBuffer := p.conn.readBuffer.hasRead n } } := by
  refine ⟨Buffer.valid_hasRead h.readValid hn, h.readMemory, h.readFixed, h.writeOk, h.bufSize, ?_⟩
  simp [hreads]

theorem Ok.writeOnce (h : p.Ok size) (data : List UInt8) (writes : List (Sqe × WriteFrame)) :
    Ok size { p with conn := (p.conn.writeOnce data).1, writes := writes } := by
  have hwriteOk := (CoroConnection.writeOnce_staged h.writeOk data).1
  obtain ⟨buf, hbuf⟩ := p.conn.writeOnce_conn data
  rw [hbuf] at hwriteOk ⊢
  exact ⟨h.readValid, h.readMemory, h.readFixed, hwriteOk, h.bufSize, h.reading⟩

theorem Ok.call (h : p.Ok size) (hpermits : p.Permits c) (hcall : p.call c = some (q, op)) :
    q.Ok size := by
  rcases call_cases hcall with ⟨rfl, _, rfl⟩ | ⟨i, bytes, _, _, _, _, hop, hlen, _, rfl⟩ |
    ⟨n, hreads, hn, _, rfl⟩ | ⟨data, writes, _, _, rfl⟩ | ⟨writes, _, rfl⟩
  · exact h.read (hpermits.1 rfl).2
  · exact h.readDone hop hlen
  · exact h.hasRead hreads hn
  · exact h.writeOnce data writes
  · exact ⟨h.readValid, h.readMemory, h.readFixed, h.writeOk, h.bufSize, h.reading⟩

/-- The operation a permitted call posts is owned by the connection. -/
theorem Ok.owns {r : FixedResources} (h : p.Ok r.bufSize) (hpermits : p.Permits c)
    (htable : ∀ idx, idx ∈ p.conn.files → r.fileTable idx = p.conn.fd) {sqe : Sqe}
    (hcall : p.call c = some (q, some sqe)) : q.Owns r sqe := by
  have hq := h.call hpermits hcall
  rcases call_cases hcall with ⟨rfl, hsqe, rfl⟩ | ⟨_, _, _, _, _, _, _, _, hsqe, _⟩ |
    ⟨_, _, _, hsqe, _⟩ | ⟨data, writes, hsends, hsqe, rfl⟩ | ⟨_, hsqe, _⟩
  · -- a read into the storage of `read_buffer_`
    obtain ⟨hopen, _⟩ := hpermits.1 rfl
    cases hsqe
    obtain ⟨len, hop, _, hlen⟩ := CoroConnection.read_bounds h.readValid
    have hheld : ∀ i, p.conn.readBufIdx = some i → i ∈ p.conn.buffers := by
      intro i hi
      rw [CoroConnection.buffers, hi]
      exact List.mem_append_left _ (List.mem_singleton_self i)
    rw [hop]
    refine ⟨p.conn.sameResources_read.ownsTarget (CoroConnection.ownsTarget_target hopen htable),
      hheld, hlen, ?_⟩
    intro i hi
    refine ⟨hheld i ((h.readMemory hopen).symm.trans hi), ?_⟩
    exact hq.readValid.size.trans (hq.readFixed (by rw [hi]; rfl)).2
  · cases hsqe
  · cases hsqe
  · -- a write of staged bytes
    have hopen := hpermits.2 hsends
    cases hsqe
    obtain ⟨len, hop, hlen⟩ := CoroConnection.writeOnce_bounds h.writeOk data
    have hsame := p.conn.sameResources_writeOnce data
    rw [hop]
    refine ⟨hsame.ownsTarget (CoroConnection.ownsTarget_target hopen htable), ?_, ?_⟩
    · rw [Nat.zero_add]
      exact hlen
    · intro i hi
      refine ⟨?_, ?_⟩
      · rw [hsame.buffers_eq, CoroConnection.buffers, hi]
        exact List.mem_append_right _ (List.mem_singleton_self i)
      · refine (hq.writeOk ?_).trans hq.bufSize
        rw [hsame.writeBufIdx, hi]
        rfl
  · cases hsqe

/-- Registered memory that an owned operation names is held by the connection. -/
theorem Owns.memory_mem {r : FixedResources} {sqe : Sqe} (h : p.Owns r sqe) {i : Nat}
    (hi : p.memory sqe = some i) : i ∈ p.conn.buffers := by
  cases sqe with
  | read target idx addr len => exact (h.2.2.2 i hi).1
  | write target idx addr len => exact (h.2.2 i hi).1
  | accept | timeout | cancelAll => cases hi

end Client

namespace Connections

/-- The operation posted last is owned by its caller, and its pool memory by nobody else. -/
def Owned (s : Connections) (cid : Nat) (op : Sqe) : Prop :=
  ∃ p, s.clients[cid]? = some p ∧ p.Owns s.resources op ∧
    ∀ i, p.memory op = some i → i ∉ s.resources.freeBufIndices ∧
      ∀ j q, j ≠ cid → s.clients[j]? = some q → i ∉ q.conn.buffers

/-- The condition on a step. -/
def Permits (s : Connections) : Event → Prop
  | .call cid c => ∀ p, s.client cid = some p → p.Permits c
  | _ => True

variable {s t : Connections}

/-- The buffers of all connections. -/
def BuffersOk (s : Connections) : Prop := ∀ p, p ∈ s.clients → p.Ok s.resources.bufSize

theorem BuffersOk.close (h : s.BuffersOk) {cid : Nat} {updateOk alive : Bool}
    (hstep : s.close cid updateOk alive = some t) : t.BuffersOk := by
  obtain ⟨p, hclient, rfl⟩ := Option.map_eq_some_iff.mp hstep
  obtain ⟨hp, _⟩ := client_eq_some hclient
  intro x hx
  simp only [CoroConnection.close_bufSize]
  rcases mem_set_cases hp hx with rfl | ⟨i, _, hi⟩
  · exact (h p (List.mem_of_getElem? hp)).close s.resources updateOk alive
  · exact h x (List.mem_of_getElem? hi)

theorem BuffersOk.step {e : Event} (h : s.BuffersOk) (hpermits : s.Permits e)
    (hstep : machine.step s e = some t) : t.BuffersOk := by
  cases e with
  | construct fd updateOk readMem writeMem =>
      simp only [machine, Connections.construct, Option.ite_none_right_eq_some,
        Option.some.injEq] at hstep
      obtain ⟨⟨hread, hwrite⟩, rfl⟩ := hstep
      intro x hx
      simp only [CoroConnection.create_bufSize]
      rcases List.mem_append.mp hx with hx | hx
      · exact h x hx
      · rw [List.mem_singleton.mp hx]
        exact Client.ok_construct s.resources fd updateOk hread hwrite
  | call cid c =>
      obtain ⟨p, hclient, hstep⟩ := Option.bind_eq_some_iff.mp hstep
      obtain ⟨⟨q, op⟩, hcall, rfl⟩ := Option.map_eq_some_iff.mp hstep
      obtain ⟨hp, _⟩ := client_eq_some hclient
      intro x hx
      rcases mem_set_cases hp hx with rfl | ⟨i, _, hi⟩
      · exact (h p (List.mem_of_getElem? hp)).call (hpermits p hclient) hcall
      · exact h x (List.mem_of_getElem? hi)
  | close cid updateOk => exact h.close hstep
  | destroy cid updateOk => exact h.close hstep

/-- What a permitted step posts is owned. -/
theorem owned_step {r : FixedResources} {e : Event} (hbuffers : r.freeBufIndices.Nodup)
    (hfiles : r.freeFileIndices.Nodup) (hok : s.Ok r) (h : s.BuffersOk)
    (hpermits : s.Permits e) (hstep : machine.step s e = some t) {cid : Nat} {op : Sqe}
    (hposted : t.posted = some (cid, op)) : t.Owned cid op := by
  have hok' := ok_step hfiles hok hstep
  cases e with
  | construct fd updateOk readMem writeMem =>
      simp only [machine, Connections.construct, Option.ite_none_right_eq_some,
        Option.some.injEq] at hstep
      rw [← hstep.2] at hposted
      cases hposted
  | close cid' updateOk =>
      obtain ⟨p, _, rfl⟩ := Option.map_eq_some_iff.mp hstep
      cases hposted
  | destroy cid' updateOk =>
      obtain ⟨p, _, rfl⟩ := Option.map_eq_some_iff.mp hstep
      cases hposted
  | call cid' c =>
      obtain ⟨p, hclient, hstep⟩ := Option.bind_eq_some_iff.mp hstep
      obtain ⟨⟨q, op'⟩, hcall, rfl⟩ := Option.map_eq_some_iff.mp hstep
      obtain ⟨op', rfl, heq⟩ := Option.map_eq_some_iff.mp hposted
      cases heq
      obtain ⟨hp, _⟩ := client_eq_some hclient
      have hmem := List.mem_of_getElem? hp
      have howns := (h p hmem).owns (hpermits p hclient) (hok.table p hmem) hcall
      obtain ⟨hlt, _⟩ := List.getElem?_eq_some_iff.mp hp
      have hq : (s.clients.set cid q)[cid]? = some q := List.getElem?_set_self hlt
      refine ⟨q, hq, howns, ?_⟩
      intro i hi
      have hheld := howns.memory_mem hi
      refine ⟨?_, ?_⟩
      · intro hfree
        exact pool_free_disjoint hok'.buffers hbuffers (List.mem_of_getElem? hq) hfree hheld
      · intro j x hne hx hx_mem
        exact pool_disjoint hok'.buffers hbuffers hx hq hne hx_mem hheld

/--
A connection posts only operations that it owns.  In every run in which no step
posts on a closed connection and no `Read` is called while one is in flight, every
operation posted names the descriptor or slot of its caller, lies inside storage of
its caller, and names no registered buffer that is free or held by another
connection.
-/
theorem posts_only_owned {enable memalignOk buffersOk filesOk : Bool} {bufCount bufSize : Nat}
    {es : List Event}
    (hrun : machine.exec
      (init (FixedResources.setup enable bufCount bufSize memalignOk buffersOk filesOk)) es =
        some t)
    (hpermits : ∀ s e, machine.Takes
      (init (FixedResources.setup enable bufCount bufSize memalignOk buffersOk filesOk)) es s e →
        s.Permits e) :
    ∀ cid op, t.posted = some (cid, op) → t.Owned cid op := by
  obtain ⟨hbuffers, hfiles⟩ :=
    FixedResources.setup_nodup enable bufCount bufSize memalignOk buffersOk filesOk
  suffices hinv : t.BuffersOk ∧ ∀ cid op, t.posted = some (cid, op) → t.Owned cid op from hinv.2
  revert hpermits
  -- the buffers are carried along the run, the shares are those of every run
  refine Machine.run_induction
    (motive := fun es t => (∀ s e, machine.Takes (init _) es s e → s.Permits e) →
      t.BuffersOk ∧ ∀ cid op, t.posted = some (cid, op) → t.Owned cid op) ?_ ?_ hrun
  · intro _
    refine ⟨?_, ?_⟩
    · intro p hp
      cases hp
    · intro cid op hposted
      cases hposted
  · intro es m e m' hm ih hstep hpermits
    obtain ⟨hbefore, hlast⟩ := (Machine.forall_takes_concat hm).mp hpermits
    have hbuf := (ih hbefore).1
    exact ⟨hbuf.step hlast hstep, fun _ _ hposted =>
      owned_step hbuffers hfiles (ok_exec hfiles hm) hbuf hlast hstep hposted⟩

/-- A connection reads on the descriptor and into the buffers of one closed before. -/
theorem posts_only_owned_reused :
    ∃ t, machine.exec (init (FixedResources.setup true 4 2 true true false))
        [.construct 5 true [0, 0] [0, 0], .close 0 true, .construct 5 true [0, 0] [0, 0],
          .call 1 .read] = some t ∧
      t.posted = some (1, .read (.fd 5) (some 2) 0 2) ∧
      t.Owned 1 (.read (.fd 5) (some 2) 0 2) := by
  have hrun : machine.exec (init (FixedResources.setup true 4 2 true true false))
      [.construct 5 true [0, 0] [0, 0], .close 0 true, .construct 5 true [0, 0] [0, 0],
        .call 1 .read] = some _ := rfl
  refine ⟨_, hrun, rfl, posts_only_owned hrun ?_ _ _ rfl⟩
  rintro s e ⟨before, after, hsplit, hs⟩
  rcases before with _ | ⟨_, _ | ⟨_, _ | ⟨_, _ | ⟨_, before⟩⟩⟩⟩
  · cases hsplit
    exact trivial
  · cases hsplit
    exact trivial
  · cases hsplit
    exact trivial
  · cases hsplit
    cases hs
    intro p hp
    cases hp
    exact ⟨fun _ => ⟨rfl, rfl⟩, False.elim⟩
  · simp at hsplit

/--
The first connection is closed, its descriptor number and its buffers go to a new
connection, and a `Read` of the first one is posted on that descriptor, into memory
of the second one.
-/
theorem read_after_close :
    ∃ t, machine.exec (init (FixedResources.setup true 4 2 true true false))
        [.construct 5 true [0, 0] [0, 0], .close 0 true, .construct 5 true [0, 0] [0, 0],
          .call 0 .read] = some t ∧
      t.posted = some (0, .read (.fd 5) none 0 2) ∧
      (∃ p q, t.clients[0]? = some p ∧ t.clients[1]? = some q ∧ q.conn.fd = 5 ∧
        ∃ i, p.memory (.read (.fd 5) none 0 2) = some i ∧ i ∈ q.conn.buffers) ∧
      ¬ t.Owned 0 (.read (.fd 5) none 0 2) := by
  refine ⟨_, rfl, rfl, ⟨_, _, rfl, rfl, rfl, 3, rfl, by decide⟩, ?_⟩
  rintro ⟨p, hp, ⟨⟨hopen, _⟩, _⟩, _⟩
  cases hp
  cases hopen

end Connections

end CRpc
