import CRpc.ConnectionResources
import CRpc.Lib.Pool

/-!
# The connections of one context

Any number of `CoroConnection` objects on one `IoContext`, and every sequence of
constructions, `Read`, `Write` and `Close` calls, completions and destructions.
The callers are arbitrary: nothing is assumed about when a connection is used or
closed, and the outcomes of `io_uring_register_files_update` are arbitrary too.

* `resources_partitioned`: the pools and the connections that are not closed share
  the registered buffers and file slots, and each held slot leads to the
  descriptor of its holder.
-/

namespace CRpc

open Lib

/--
A `CoroConnection` object and its operations in flight: the reads, and the writes
with the frames of `Write` that wait for them.
-/
structure Client where
  conn : CoroConnection
  /-- The registered buffer that `read_buffer_` points to; the pointer is never reset. -/
  readMemory : Option Nat
  reads : List Sqe
  writes : List (Sqe × WriteFrame)
  alive : Bool

/-- Calls of one connection and completions of its operations. -/
inductive Call where
  | read
  /-- The kernel has stored `bytes` for the read `i`, and its caller is resumed. -/
  | readDone (i : Nat) (bytes : List UInt8)
  /-- The user takes `n` bytes from the read buffer. -/
  | hasRead (n : Nat)
  | write (data : List UInt8)
  /-- The write `i` completes with the result `w`, and `Write` is resumed. -/
  | writeDone (i : Nat) (w : Int)

namespace Client

/-- A new connection. -/
def construct (c : CoroConnection) : Client :=
  { conn := c, readMemory := c.readBufIdx, reads := [], writes := [], alive := true }

/-- The read buffer when the kernel has stored `bytes` at `addr` and they are announced. -/
def stored (buf : Buffer) (addr : Nat) (bytes : List UInt8) : Buffer :=
  ({ buf with data := overwrite buf.data addr bytes } : Buffer).hasWritten bytes.length

/-- A call or completion: the connection afterwards and the operation it posts. -/
def call (p : Client) : Call → Option (Client × Option Sqe)
  | .read =>
      some ({ p with conn := p.conn.read.1, reads := p.reads ++ [p.conn.read.2] },
        some p.conn.read.2)
  | .readDone i bytes =>
      match p.reads[i]? with
      | some (.read _ _ addr len) =>
          if bytes.length ≤ len then
            some ({ p with
              conn := { p.conn with readBuffer := stored p.conn.readBuffer addr bytes }
              reads := p.reads.eraseIdx i }, none)
          else none
      | _ => none
  | .hasRead n =>
      -- the buffer is the kernel's while a read is in flight
      if p.reads = [] ∧ n ≤ p.conn.readBuffer.readableBytes then
        some ({ p with
          conn := { p.conn with readBuffer := p.conn.readBuffer.hasRead n } }, none)
      else none
  | .write data =>
      match p.conn.write data with
      | .suspended c op f =>
          some ({ p with conn := c, writes := p.writes ++ [(op, f)] }, some op)
      | .returned _ => some (p, none)
  | .writeDone i w =>
      match p.writes[i]? with
      | some (op, f) =>
          if w ≤ postedWrite op then
            match p.conn.writeResume f w with
            | .suspended c op' f' =>
                some ({ p with conn := c, writes := p.writes.set i (op', f') }, some op')
            | .returned _ => some ({ p with writes := p.writes.eraseIdx i }, none)
          else none
      | none => none

end Client

/-- A context and its connections; `posted` is what the last step posted. -/
structure Connections where
  resources : FixedResources
  clients : List Client
  posted : Option (Nat × Sqe)

namespace Connections

open CoroConnection (SameResources)

/-- A context without connections. -/
def init (r : FixedResources) : Connections :=
  { resources := r, clients := [], posted := none }

/-- What can happen; connections are numbered in the order of their construction. -/
inductive Event where
  | construct (fd : Int) (updateOk : Bool) (readMem writeMem : List UInt8)
  | call (cid : Nat) (c : Call)
  | close (cid : Nat) (updateOk : Bool)
  /-- The destructor, which calls `Close`. -/
  | destroy (cid : Nat) (updateOk : Bool)

/-- The constructor; the registered memory has the registered size. -/
def construct (s : Connections) (fd : Int) (updateOk : Bool)
    (readMem writeMem : List UInt8) : Option Connections :=
  if readMem.length = s.resources.bufSize ∧ writeMem.length = s.resources.bufSize then
    some
      { resources := (CoroConnection.create s.resources fd updateOk readMem writeMem).2
        clients := s.clients ++
          [Client.construct (CoroConnection.create s.resources fd updateOk readMem writeMem).1]
        posted := none }
  else none

/-- The connection `cid`, unless it has been destroyed. -/
def client (s : Connections) (cid : Nat) : Option Client :=
  s.clients[cid]?.filter (·.alive)

/-- `Close` of a connection, which exists afterwards if `alive`. -/
def close (s : Connections) (cid : Nat) (updateOk alive : Bool) : Option Connections :=
  (s.client cid).map fun p =>
    { resources := (p.conn.close s.resources updateOk).2
      clients := s.clients.set cid
        { p with conn := (p.conn.close s.resources updateOk).1, alive := alive }
      posted := none }

/-- Connections under arbitrary callers and an arbitrary kernel. -/
def machine : Machine Connections Event where
  step s
    | .construct fd updateOk readMem writeMem => s.construct fd updateOk readMem writeMem
    | .call cid c =>
        (s.client cid).bind fun p =>
          (p.call c).map fun q =>
            { s with
              clients := s.clients.set cid q.1
              posted := q.2.map fun op => (cid, op) }
    | .close cid updateOk => s.close cid updateOk true
    | .destroy cid updateOk => s.close cid updateOk false

/-- The connections that are not closed. -/
def opened (s : Connections) : List Client := s.clients.filter fun p => !p.conn.closed

/-- The buffers held by connections that are not closed. -/
def heldBuffers (s : Connections) : List Nat := s.opened.flatMap fun p => p.conn.buffers

/-- The file slots held by connections that are not closed. -/
def heldFiles (s : Connections) : List Nat := s.opened.flatMap fun p => p.conn.files

end Connections

/-- The part of the pool memory behind a registered buffer (`iov_base` and `iov_len`). -/
def FixedResources.memory (r : FixedResources) (idx : Nat) : Finset Nat :=
  Finset.Ico (idx * r.bufSize) (idx * r.bufSize + r.bufSize)

theorem FixedResources.memory_disjoint (r : FixedResources) {i j : Nat} (hne : i ≠ j) :
    Disjoint (r.memory i) (r.memory j) := by
  have hsucc : ∀ {i j : Nat}, i < j → i * r.bufSize + r.bufSize ≤ j * r.bufSize := by
    intro i j hlt
    rw [← Nat.succ_mul]
    exact Nat.mul_le_mul_right _ hlt
  rw [memory, memory, Finset.disjoint_left]
  intro a ha ha'
  rw [Finset.mem_Ico] at ha ha'
  rcases Nat.lt_or_gt_of_ne hne with hlt | hlt
  · have hle := hsucc hlt
    omega
  · have hle := hsucc hlt
    omega

namespace CoroConnection

theorem sameResources_read (c : CoroConnection) : SameResources c c.read.1 :=
  ⟨rfl, rfl, rfl, rfl, rfl⟩

theorem sameResources_writeOnce (c : CoroConnection) (data : List UInt8) :
    SameResources c (c.writeOnce data).1 := by
  obtain ⟨buf, hbuf⟩ := c.writeOnce_conn data
  rw [hbuf]
  exact ⟨rfl, rfl, rfl, rfl, rfl⟩

/-- `Write` suspends in `WriteOnce` and nowhere else. -/
theorem writeHead_suspended {c c' : CoroConnection} {f f' : WriteFrame} {op : Sqe}
    (h : c.writeHead f = .suspended c' op f') :
    0 < f.remaining ∧ f' = f ∧ ∃ data, c.writeOnce data = (c', op) := by
  rw [writeHead] at h
  split at h
  next hpos =>
    cases h
    exact ⟨hpos, rfl, _, rfl⟩
  next => cases h

theorem writeResume_suspended {c c' : CoroConnection} {f f' : WriteFrame} {op : Sqe} {w : Int}
    (h : c.writeResume f w = .suspended c' op f') :
    0 < w ∧ w < f.remaining ∧ ∃ data, c.writeOnce data = (c', op) := by
  rw [writeResume] at h
  split at h
  next => cases h
  next hpos =>
    obtain ⟨hmore, _, hdata⟩ := writeHead_suspended h
    simp only at hmore
    exact ⟨by omega, by omega, hdata⟩

/-- A connection holds nothing after it has been closed. -/
theorem close_released {c : CoroConnection} (hopen : c.closed = false)
    (r : FixedResources) (updateOk : Bool) :
    (c.close r updateOk).1.buffers = [] ∧ (c.close r updateOk).1.files = [] := by
  simp [close, hopen, buffers, files]

end CoroConnection

namespace Client

open CoroConnection (SameResources)

/-- The call makes `Write` post an operation. -/
def Sends (p : Client) : Call → Prop
  | .write data => data ≠ []
  | .writeDone i w => ∃ op f, p.writes[i]? = some (op, f) ∧ 0 < w ∧ w < f.remaining
  | _ => False

variable {p q : Client} {c : Call} {op : Option Sqe}

/-- What a call can do. -/
theorem call_cases (h : p.call c = some (q, op)) :
    (c = .read ∧ op = some p.conn.read.2 ∧
      q = { p with conn := p.conn.read.1, reads := p.reads ++ [p.conn.read.2] }) ∨
    (∃ i bytes target idx addr len, p.reads[i]? = some (.read target idx addr len) ∧
      bytes.length ≤ len ∧ op = none ∧
      q = { p with
        conn := { p.conn with readBuffer := stored p.conn.readBuffer addr bytes }
        reads := p.reads.eraseIdx i }) ∨
    (∃ n, p.reads = [] ∧ n ≤ p.conn.readBuffer.readableBytes ∧ op = none ∧
      q = { p with conn := { p.conn with readBuffer := p.conn.readBuffer.hasRead n } }) ∨
    (∃ data writes, p.Sends c ∧ op = some (p.conn.writeOnce data).2 ∧
      q = { p with conn := (p.conn.writeOnce data).1, writes := writes }) ∨
    (∃ writes, op = none ∧ q = { p with writes := writes }) := by
  cases c with
  | read =>
      cases h
      exact Or.inl ⟨rfl, rfl, rfl⟩
  | readDone i bytes =>
      simp only [call] at h
      split at h
      next hread =>
        simp only [Option.ite_none_right_eq_some, Option.some.injEq, Prod.mk.injEq] at h
        obtain ⟨hlen, rfl, rfl⟩ := h
        exact Or.inr (Or.inl ⟨i, bytes, _, _, _, _, hread, hlen, rfl, rfl⟩)
      next => cases h
  | hasRead n =>
      simp only [call, Option.ite_none_right_eq_some, Option.some.injEq, Prod.mk.injEq] at h
      obtain ⟨⟨hreads, hn⟩, rfl, rfl⟩ := h
      exact Or.inr (Or.inr (Or.inl ⟨n, hreads, hn, rfl, rfl⟩))
  | write data =>
      simp only [call] at h
      split at h
      next c' sqe f hwrite =>
        cases h
        obtain ⟨hpos, _, bytes, hbytes⟩ := CoroConnection.writeHead_suspended hwrite
        refine Or.inr (Or.inr (Or.inr (Or.inl ⟨bytes, p.writes ++ [(sqe, f)], ?_, ?_, ?_⟩)))
        · exact List.length_pos_iff.mp hpos
        · rw [hbytes]
        · rw [hbytes]
      next =>
        cases h
        exact Or.inr (Or.inr (Or.inr (Or.inr ⟨p.writes, rfl, rfl⟩)))
  | writeDone i w =>
      simp only [call] at h
      split at h
      next sqe f hop =>
        rw [Option.ite_none_right_eq_some] at h
        obtain ⟨_, h⟩ := h
        split at h
        next c' sqe' f' hwrite =>
          cases h
          obtain ⟨hpos, hmore, bytes, hbytes⟩ := CoroConnection.writeResume_suspended hwrite
          refine Or.inr (Or.inr (Or.inr (Or.inl ⟨bytes, p.writes.set i (sqe', f'),
            ⟨sqe, f, hop, hpos, hmore⟩, ?_, ?_⟩)))
          · rw [hbytes]
          · rw [hbytes]
        next =>
          cases h
          exact Or.inr (Or.inr (Or.inr (Or.inr ⟨_, rfl, rfl⟩)))
      next => cases h

/-- No call changes what a connection holds. -/
theorem call_sameResources (h : p.call c = some (q, op)) : SameResources p.conn q.conn := by
  rcases call_cases h with ⟨_, _, rfl⟩ | ⟨_, _, _, _, _, _, _, _, _, rfl⟩ | ⟨_, _, _, _, rfl⟩ |
    ⟨data, _, _, _, rfl⟩ | ⟨_, _, rfl⟩
  · exact p.conn.sameResources_read
  · exact ⟨rfl, rfl, rfl, rfl, rfl⟩
  · exact ⟨rfl, rfl, rfl, rfl, rfl⟩
  · exact p.conn.sameResources_writeOnce data
  · exact ⟨rfl, rfl, rfl, rfl, rfl⟩

end Client

namespace Connections

open CoroConnection (SameResources)

/-! ### The shares of the connections -/

/--
What is registered is shared by the pools and the connections, a closed connection
has nothing, and each slot leads to the descriptor of the connection that has it.
-/
structure Ok (r : FixedResources) (s : Connections) : Prop where
  buffers : (s.resources.freeBufIndices ++ s.clients.flatMap fun p => p.conn.buffers).Perm
    r.freeBufIndices
  files : (s.resources.freeFileIndices ++ s.clients.flatMap fun p => p.conn.files).Perm
    r.freeFileIndices
  released : ∀ p, p ∈ s.clients → p.conn.closed = true →
    p.conn.buffers = [] ∧ p.conn.files = []
  table : ∀ p, p ∈ s.clients → ∀ idx, idx ∈ p.conn.files →
    s.resources.fileTable idx = p.conn.fd

variable {r r' : FixedResources} {s t : Connections} {cid : Nat} {p q : Client}

theorem ok_init (r : FixedResources) : (init r).Ok r := by
  refine ⟨?_, ?_, ?_, ?_⟩
  · simp [init]
  · simp [init]
  · simp [init]
  · simp [init]

/-- A connection that is replaced by `q`, and the others. -/
theorem mem_set_cases (hp : s.clients[cid]? = some p) {x : Client}
    (hx : x ∈ s.clients.set cid q) :
    x = q ∨ ∃ i, i ≠ cid ∧ s.clients[i]? = some x := by
  obtain ⟨i, hi⟩ := List.mem_iff_getElem?.mp hx
  by_cases hic : i = cid
  · subst hic
    obtain ⟨hlt, _⟩ := List.getElem?_eq_some_iff.mp hp
    rw [List.getElem?_set_self hlt, Option.some.injEq] at hi
    exact Or.inl hi.symm
  · rw [List.getElem?_set_ne (Ne.symm hic)] at hi
    exact Or.inr ⟨i, hic, hi⟩

/-- One connection changes, and exchanges resources with the pools. -/
theorem Ok.set (h : s.Ok r) (hnodup : r.freeFileIndices.Nodup) (hp : s.clients[cid]? = some p)
    (hbuffers : (r'.freeBufIndices ++ q.conn.buffers).Perm
      (s.resources.freeBufIndices ++ p.conn.buffers))
    (hfiles : (r'.freeFileIndices ++ q.conn.files).Perm
      (s.resources.freeFileIndices ++ p.conn.files))
    (hreleased : q.conn.closed = true → q.conn.buffers = [] ∧ q.conn.files = [])
    (hown : ∀ idx, idx ∈ q.conn.files → r'.fileTable idx = q.conn.fd)
    (hothers : ∀ idx, idx ∉ p.conn.files → r'.fileTable idx = s.resources.fileTable idx)
    (posted : Option (Nat × Sqe)) :
    Ok r { resources := r', clients := s.clients.set cid q, posted := posted } := by
  refine ⟨pool_set h.buffers hp hbuffers, pool_set h.files hp hfiles, ?_, ?_⟩
  · intro x hx hclosed
    rcases mem_set_cases hp hx with rfl | ⟨i, _, hi⟩
    · exact hreleased hclosed
    · exact h.released x (List.mem_of_getElem? hi) hclosed
  · intro x hx idx hidx
    rcases mem_set_cases hp hx with rfl | ⟨i, hne, hi⟩
    · exact hown idx hidx
    · -- a slot of another connection is none of `p`'s
      have hnot : idx ∉ p.conn.files := pool_disjoint h.files hnodup hi hp hne hidx
      rw [hothers idx hnot]
      exact h.table x (List.mem_of_getElem? hi) idx hidx

theorem client_eq_some (hp : s.client cid = some p) :
    s.clients[cid]? = some p ∧ p.alive = true := by
  rw [client, Option.filter_eq_some_iff] at hp
  exact hp

theorem Ok.construct (h : s.Ok r) (hnodup : r.freeFileIndices.Nodup) {fd : Int}
    {updateOk : Bool} {readMem writeMem : List UInt8}
    (hstep : s.construct fd updateOk readMem writeMem = some t) : t.Ok r := by
  simp only [Connections.construct, Option.ite_none_right_eq_some, Option.some.injEq] at hstep
  obtain ⟨_, rfl⟩ := hstep
  have hbuffers := CoroConnection.create_buffers s.resources fd updateOk readMem writeMem
  have hfiles := CoroConnection.create_files s.resources fd updateOk readMem writeMem
  refine ⟨pool_concat h.buffers hbuffers, pool_concat h.files (by rw [← hfiles]; rfl), ?_, ?_⟩
  · intro x hx hclosed
    rcases List.mem_append.mp hx with hx | hx
    · exact h.released x hx hclosed
    · rw [List.mem_singleton.mp hx] at hclosed
      cases hclosed
  · intro x hx idx hidx
    rw [CoroConnection.create_table]
    rcases List.mem_append.mp hx with hx | hx
    · -- the new slot was free
      rw [if_neg]
      · exact h.table x hx idx hidx
      · intro hnew
        refine pool_free_disjoint h.files hnodup hx ?_ hidx
        rw [← hfiles]
        exact List.mem_append_right _ hnew
    · rw [List.mem_singleton.mp hx] at hidx ⊢
      exact if_pos hidx

theorem Ok.close (h : s.Ok r) (hnodup : r.freeFileIndices.Nodup) {updateOk alive : Bool}
    (hstep : s.close cid updateOk alive = some t) : t.Ok r := by
  obtain ⟨p, hclient, rfl⟩ := Option.map_eq_some_iff.mp hstep
  obtain ⟨hp, _⟩ := client_eq_some hclient
  cases hopen : p.conn.closed with
  | true =>
      have hsame : p.conn.close s.resources updateOk = (p.conn, s.resources) := if_pos hopen
      rw [hsame]
      have hmem := List.mem_of_getElem? hp
      exact h.set (q := { p with alive := alive }) hnodup hp (List.Perm.refl _) (List.Perm.refl _)
        (h.released p hmem) (h.table p hmem) (fun _ _ => rfl) none
  | false =>
      obtain ⟨hbuffers, hfiles⟩ := CoroConnection.close_resources hopen s.resources updateOk
      have hempty := CoroConnection.close_released hopen s.resources updateOk
      refine h.set hnodup hp ?_ ?_ (fun _ => hempty) ?_ ?_ none
      · simp only [hempty.1, List.append_nil, hbuffers]
        exact List.Perm.refl _
      · simp only [hempty.2, List.append_nil, hfiles]
        exact List.Perm.refl _
      · simp [hempty.2]
      · exact fun idx hidx => CoroConnection.close_table hidx s.resources updateOk

theorem Ok.call (h : s.Ok r) (hnodup : r.freeFileIndices.Nodup) {c : Call} {op : Option Sqe}
    (hp : s.clients[cid]? = some p) (hcall : p.call c = some (q, op))
    (posted : Option (Nat × Sqe)) :
    Ok r { s with clients := s.clients.set cid q, posted := posted } := by
  have hsame := Client.call_sameResources hcall
  have hmem := List.mem_of_getElem? hp
  refine h.set hnodup hp ?_ ?_ ?_ ?_ (fun _ _ => rfl) posted
  · rw [hsame.buffers_eq]
  · rw [hsame.files_eq]
  · rw [hsame.closed, hsame.buffers_eq, hsame.files_eq]
    exact h.released p hmem
  · rw [hsame.files_eq, hsame.fd]
    exact h.table p hmem

theorem ok_step {e : Event} (hnodup : r.freeFileIndices.Nodup) (h : s.Ok r)
    (hstep : machine.step s e = some t) : t.Ok r := by
  cases e with
  | construct fd updateOk readMem writeMem => exact h.construct hnodup hstep
  | call cid c =>
      obtain ⟨p, hclient, hstep⟩ := Option.bind_eq_some_iff.mp hstep
      obtain ⟨⟨q, op⟩, hcall, rfl⟩ := Option.map_eq_some_iff.mp hstep
      exact h.call hnodup (client_eq_some hclient).1 hcall _
  | close cid updateOk => exact h.close hnodup hstep
  | destroy cid updateOk => exact h.close hnodup hstep

theorem ok_exec {es : List Event} (hnodup : r.freeFileIndices.Nodup)
    (hrun : machine.exec (init r) es = some t) : t.Ok r :=
  Machine.exec_invariant (fun _ _ _ h hstep => ok_step hnodup h hstep) hrun (ok_init r)

/-! ### The connections that are not closed -/

/-- Closed connections hold nothing, so it does not matter whether they are counted. -/
theorem flatMap_opened {held : Client → List Nat} {clients : List Client}
    (hreleased : ∀ p, p ∈ clients → p.conn.closed = true → held p = []) :
    (clients.filter fun p => !p.conn.closed).flatMap held = clients.flatMap held := by
  induction clients with
  | nil => rfl
  | cons p clients ih =>
      have hrest := ih fun q hq => hreleased q (List.mem_cons_of_mem _ hq)
      cases hopen : p.conn.closed with
      | true =>
          rw [List.filter_cons_of_neg (by simp [hopen]), List.flatMap_cons,
            hreleased p List.mem_cons_self hopen, List.nil_append]
          exact hrest
      | false =>
          rw [List.filter_cons_of_pos (by simp [hopen]), List.flatMap_cons, List.flatMap_cons,
            hrest]

theorem Ok.heldBuffers_eq (h : s.Ok r) :
    s.heldBuffers = s.clients.flatMap fun p => p.conn.buffers :=
  flatMap_opened fun p hp hclosed => (h.released p hp hclosed).1

theorem Ok.heldFiles_eq (h : s.Ok r) :
    s.heldFiles = s.clients.flatMap fun p => p.conn.files :=
  flatMap_opened fun p hp hclosed => (h.released p hp hclosed).2

/--
Registered resources are partitioned.  After every sequence of constructions,
calls, `Close` calls and destructions, the free buffers and those held by
connections that are not closed are the registered ones, and so are the file slots;
the memory of held buffers is disjoint; and the entry of the kernel's table at each
held slot is the descriptor of its holder.
-/
theorem resources_partitioned {enable memalignOk buffersOk filesOk : Bool}
    {bufCount bufSize : Nat} {es : List Event}
    (hrun : machine.exec
      (init (FixedResources.setup enable bufCount bufSize memalignOk buffersOk filesOk)) es =
        some t) :
    (t.resources.freeBufIndices ++ t.heldBuffers).Perm
        (if enable && memalignOk && buffersOk then List.range bufCount else []) ∧
      (t.resources.freeFileIndices ++ t.heldFiles).Perm
        (if filesOk then
          List.range (FixedResources.setup enable bufCount bufSize memalignOk buffersOk
            filesOk).maxFixedFiles
        else []) ∧
      t.heldBuffers.Pairwise (fun i j =>
        Disjoint (t.resources.memory i) (t.resources.memory j)) ∧
      (∀ p, p ∈ t.clients → p.conn.closed = false → ∀ idx, p.conn.fixedFileIdx = some idx →
        t.resources.fileTable idx = p.conn.fd) := by
  obtain ⟨hbuffers, hfiles⟩ :=
    FixedResources.setup_nodup enable bufCount bufSize memalignOk buffersOk filesOk
  have hok := ok_exec hfiles hrun
  have hshared : (t.resources.freeBufIndices ++ t.heldBuffers).Perm
      (if enable && memalignOk && buffersOk then List.range bufCount else []) := by
    rw [hok.heldBuffers_eq]
    exact hok.buffers
  refine ⟨hshared, ?_, ?_, ?_⟩
  · rw [hok.heldFiles_eq]
    exact hok.files
  · have hnodup : t.heldBuffers.Nodup := (hshared.nodup_iff.mpr hbuffers).of_append_right
    exact hnodup.imp fun hne => t.resources.memory_disjoint hne
  · intro p hp _ idx hidx
    refine hok.table p hp idx ?_
    rw [CoroConnection.files, hidx]
    exact List.mem_singleton_self idx

/-- Two connections, one without a file slot; the first is closed twice. -/
theorem resources_partitioned_two_connections :
    ∃ t, machine.exec (init (FixedResources.setup true 4 2 true true true))
        [.construct 5 true [0, 0] [0, 0], .construct 6 false [0, 0] [0, 0], .close 0 false,
          .close 0 true] = some t ∧
      (t.resources.freeBufIndices ++ t.heldBuffers).Perm (List.range 4) ∧
      (t.resources.freeFileIndices ++ t.heldFiles).Perm (List.range 1024) := by
  obtain ⟨t, hrun⟩ : ∃ t, machine.exec (init (FixedResources.setup true 4 2 true true true))
      [.construct 5 true [0, 0] [0, 0], .construct 6 false [0, 0] [0, 0], .close 0 false,
        .close 0 true] = some t := Option.isSome_iff_exists.mp (by decide +kernel)
  obtain ⟨hbuffers, hfiles, _, _⟩ := resources_partitioned hrun
  rw [if_pos rfl] at hfiles
  exact ⟨t, hrun, hbuffers, hfiles⟩

end Connections

end CRpc
