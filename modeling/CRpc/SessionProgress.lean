import CRpc.PostedOps

/-!
# A connection never stalls

Runs without failures: every read brings data and every write takes some.  As long
as the peer sends frames that the connection has room for, a read of at least one
byte is in flight, and until all accepted requests are answered on the wire the
kernel can complete a write or a timer (`never_stalls`).  Nothing is left to a
coroutine that nobody resumes.
-/

namespace CRpc

open Lib Protocol CoroConnection

/-- What the write loop is writing was pushed. -/
theorem Session.Ok.data_mem_pushed {base : Ops} {s : Session} (h : s.Ok base) {f : WriteFrame}
    (hf : s.writer = .onWrite f) : f.data ∈ s.pushed := by
  have hwire := h.wireOk
  rw [Session.WireOk, hf] at hwire
  obtain ⟨sent, hpopped, _⟩ := hwire
  rw [h.history, hpopped]
  simp

namespace Live

variable {flavor : Flavor} {codec : EchoCodec} {c : CoroConnection} {t t' : Live}
variable {es : List Event}

/-- The operation has not failed and the stream has not ended. -/
def Event.Succeeds : Event → Prop
  | .read res _ => 0 < res
  | .write w => 0 < w
  | .timer _ => True

/-- The frames of a stream and the responses to them fit into the buffers of the connection. -/
structure Fits (codec : EchoCodec) (c : CoroConnection) (ms : List Message) : Prop where
  size : ∀ m, m ∈ ms → m.2.length < 2 ^ 31
  reply : ∀ m, m ∈ ms → ∀ message, codec.parseEchoRequest m.2 = some message →
    headerSize + (codec.reply message).length < 2 ^ 31
  registered : RegisteredSize c
  fixed : c.readBufIdx.isSome → 0 < c.readBuffer.capacity ∧
    ∀ m, m ∈ ms → headerSize + m.2.length ≤ c.readBuffer.capacity
  stage : WriteRun.CanStage c

theorem Fits.size32 {ms : List Message} (h : Fits codec c ms) :
    ∀ m, m ∈ ms → m.2.length < 2 ^ 32 :=
  fun m hm => (h.size m hm).trans (by decide)

theorem Fits.subset {ms ms' : List Message} (h : Fits codec c ms) (hsub : ms' ⊆ ms) :
    Fits codec c ms' where
  size m hm := h.size m (hsub hm)
  reply m hm := h.reply m (hsub hm)
  registered := h.registered
  fixed hidx := ⟨(h.fixed hidx).1, fun m hm => (h.fixed hidx).2 m (hsub hm)⟩
  stage := h.stage

/-- A connection keeps the buffers by which frames fit. -/
theorem Fits.of_exec {ms : List Message} (hread : c.FreshRead) (hwrite : c.WriteOk)
    (hrun : (machine flavor codec).exec (init c) es = some t)
    (h : Fits codec t.session.conn ms) : Fits codec c ms := by
  have hposted := readPosted_exec hread hwrite hrun
  obtain ⟨rbuf, wbuf, hconn⟩ := hposted.same
  have hcap := hposted.capacity
  rw [hconn] at h hcap
  refine ⟨h.size, h.reply, fun hidx => ?_, fun hidx => ?_, h.stage⟩
  · rw [← hcap hidx]
    exact h.registered hidx
  · rw [← hcap hidx]
    exact h.fixed hidx

theorem prefix_of_chunks_concat {e : Event} {bs : List UInt8}
    (h : (chunks (es ++ [e])).flatten <+: bs) : (chunks es).flatten <+: bs := by
  rw [chunks_append, List.flatten_append] at h
  exact (List.prefix_append _ _).trans h

/-! ### The loops go on -/

theorem reading_exec (hread : c.FreshRead) (hwrite : c.WriteOk)
    (hrun : (machine flavor codec).exec (init c) es = some t)
    (hgood : ∀ e, e ∈ es → e.Succeeds) : t.session.reader = .onRead := by
  refine Machine.run_induction
    (motive := fun es t => (∀ e, e ∈ es → e.Succeeds) → t.session.reader = .onRead)
    ?_ ?_ hrun hgood
  · intro _
    rw [init, Session.start_eq]
    rfl
  · intro es t e t' hexec ih hstep hgood
    have hon := ih fun e he => hgood e (List.mem_append_left _ he)
    rcases conn_step (ok_exec hread hwrite hexec) hstep with
      ⟨_, _, ⟨_, res, bytes, rfl, hend⟩ | ⟨hkeep, _⟩⟩ | ⟨_, _, _, _, _, _, hreader, _⟩
    · have hpos : 0 < res := hgood _ (List.mem_append_right _ List.mem_cons_self)
      omega
    · rw [hkeep, hon]
    · exact hreader

/-- The requests accepted come from the messages of the stream. -/
theorem message_of_request {ms : List Message} (hread : c.FreshRead) (hwrite : c.WriteOk)
    (hsize : ∀ m, m ∈ ms → m.2.length < 2 ^ 32)
    (hrun : (machine flavor codec).exec (init c) es = some t)
    (hpre : (chunks es).flatten <+: encodedStream ms) {r : RpcHeader × List UInt8}
    (hr : r ∈ codec.requests t.session.delivered) :
    ∃ m, m ∈ ms ∧ codec.accepts (wireWord m).1 = some r := by
  rw [encodedStream_eq_wordsOf] at hpre
  obtain ⟨done, todo, hsplit, hfeed, _⟩ := Decoder.feed_codewords (codeword_wireWord hsize) hpre
  rw [(delivered_exec hread hwrite hrun).1, hfeed, EchoCodec.requests] at hr
  obtain ⟨frame, hframe, haccept⟩ := List.mem_filterMap.mp hr
  obtain ⟨w, hw, rfl⟩ := List.mem_map.mp hframe
  obtain ⟨m, hm, rfl⟩ := List.mem_map.mp (hsplit ▸ List.mem_append_left todo hw)
  exact ⟨m, hm, haccept⟩

theorem parse_of_accepts {m : Message} {r : RpcHeader × List UInt8}
    (haccept : codec.accepts m = some r) : codec.parseEchoRequest m.2 = some r.2 := by
  rw [EchoCodec.accepts] at haccept
  split at haccept
  · obtain ⟨message, hparse, rfl⟩ := Option.map_eq_some_iff.mp haccept
    exact hparse
  · cases haccept

theorem pushed_small {ms : List Message} (hread : c.FreshRead) (hwrite : c.WriteOk)
    (hfits : Fits codec c ms) (hrun : (machine flavor codec).exec (init c) es = some t)
    (hpre : (chunks es).flatten <+: encodedStream ms) :
    ∀ x, x ∈ t.session.pushed → x.length < 2 ^ 31 := by
  obtain ⟨rs, hrs, hperm, _⟩ := answered_exec hread hwrite hrun
  intro x hx
  rw [hrs] at hx
  obtain ⟨r, hr, rfl⟩ := List.mem_map.mp hx
  obtain ⟨m, hm, haccept⟩ := message_of_request hread hwrite hfits.size32 hrun hpre
    (hperm.mem_iff.mp (List.mem_append_left _ hr))
  rw [EchoCodec.respond, codec.length_response]
  exact hfits.reply m hm r.2 (parse_of_accepts (m := (wireWord m).1) haccept)

theorem writing_exec {ms : List Message} (hread : c.FreshRead) (hwrite : c.WriteOk)
    (hfits : Fits codec c ms) (hrun : (machine flavor codec).exec (init c) es = some t)
    (hgood : ∀ e, e ∈ es → e.Succeeds) (hpre : (chunks es).flatten <+: encodedStream ms) :
    t.session.writer ≠ .done := by
  refine Machine.run_induction
    (motive := fun es t => (∀ e, e ∈ es → e.Succeeds) →
      (chunks es).flatten <+: encodedStream ms → t.session.writer ≠ .done)
    ?_ ?_ hrun hgood hpre
  · intro _ _
    rw [init, Session.start_eq]
    simp [settle, Session.startRead, Session.post]
  · intro es t e t' hexec ih hstep hgood hpre
    have hok := ok_exec hread hwrite hexec
    have hpre' := prefix_of_chunks_concat hpre
    have hne := ih (fun e he => hgood e (List.mem_append_left _ he)) hpre'
    have hlast : e.Succeeds := hgood e (List.mem_append_right _ List.mem_cons_self)
    have hexec' := Machine.exec_concat_eq_some.mpr ⟨t, hexec, hstep⟩
    have hopen := (ok_exec hread hwrite hexec').session.open_of_read
      (reading_exec hread hwrite hexec' hgood)
    rcases step_cases hstep with
      ⟨res, bytes, sqe, rfl, hop, hres, rfl⟩ | ⟨w, sqe, rfl, hop, hw, rfl⟩ |
        ⟨id, sqe, rfl, hop, rfl⟩
    · rcases (hok.take hop).readDone_cases flavor codec res hres.2 with
        ⟨hend, _⟩ | ⟨_, buf, heq⟩
      · have hpos : 0 < res := hlast
        omega
      · rw [heq]
        simp only [settle, Session.readAgain_writer]
        exact ((hok.take hop).received hres.2).handleAll_writer_ne (by simp) hne _
    · -- the write loop ends on a closed queue only
      intro hdone
      have hclosed := ((hok.take hop).endsClosed_writeDone hw hlast
        (pushed_small hread hwrite hfits hexec hpre') hdone).1
      exact absurd (hclosed.symm.trans hopen) (by decide)
    · obtain ⟨hd, hfind, hok'⟩ := (hok.take hop).resumeHandler
      simp only [settle, Session.timerDone, hfind]
      exact hok'.push_writer_ne (by simp) hne (codec.response_ne_nil hd.header hd.message)

/-! ### Room in the operations posted -/

/-- The bytes unread while a stream of frames arrives. -/
theorem unread_lt {ms : List Message} {limit : Nat} (hread : c.FreshRead) (hwrite : c.WriteOk)
    (hlimit : 0 < limit) (hsize : ∀ m, m ∈ ms → m.2.length < 2 ^ 32)
    (hfit : ∀ m, m ∈ ms → headerSize + m.2.length ≤ limit)
    (hrun : (machine flavor codec).exec (init c) es = some t)
    (hpre : (chunks es).flatten <+: encodedStream ms) :
    t.session.conn.readBuffer.getSpan.length < limit := by
  rw [(delivered_exec hread hwrite hrun).2]
  exact unread_lt_capacity hlimit hsize hfit hpre

/-- The storage of a dynamic read buffer while frames of at most `limit` bytes arrive. -/
theorem capacity_exec {ms : List Message} {limit : Nat} (hread : c.FreshRead)
    (hwrite : c.WriteOk) (hdyn : c.readBufIdx = none) (hlimit : 0 < limit)
    (hsize : ∀ m, m ∈ ms → m.2.length < 2 ^ 32)
    (hfit : ∀ m, m ∈ ms → headerSize + m.2.length ≤ limit)
    (hrun : (machine flavor codec).exec (init c) es = some t)
    (hpre : (chunks es).flatten <+: encodedStream ms) :
    t.session.conn.readBuffer.capacity ≤ max 65536 (limit + 4095) := by
  refine Machine.run_induction (motive := fun es t => (chunks es).flatten <+: encodedStream ms →
    t.session.conn.readBuffer.capacity ≤ max 65536 (limit + 4095)) ?_ ?_ hrun hpre
  · intro _
    have hle := capacity_read_le hdyn
    have hbuf : c.readBuffer = Buffer.dynamic 65536 := by
      cases hread with
      | dynamic _ hbuf => exact hbuf
      | fixed idx _ hidx _ => simp [hdyn] at hidx
    rw [hbuf] at hle
    simp only [Buffer.dynamic, Buffer.readableBytes] at hle
    have hstart : c.read.1.readBuffer.capacity ≤ max 65536 (limit + 4095) := by omega
    rw [init, Session.start_eq]
    exact hstart
  · intro es t e t' hexec ih hstep hpre
    have hbound := ih (prefix_of_chunks_concat hpre)
    have hexec' := Machine.exec_concat_eq_some.mpr ⟨t, hexec, hstep⟩
    rcases conn_step (ok_exec hread hwrite hexec) hstep with
      ⟨_, hconn, _⟩ | ⟨c', hsame, hok', hcap', hbuf, _⟩
    · rw [hconn]
      exact hbound
    · have hunread := unread_lt hread hwrite hlimit hsize hfit hexec' hpre
      rw [hbuf, getSpan_read hok', Buffer.length_getSpan hok'.valid] at hunread
      have hidx : c'.readBufIdx = none := by
        obtain ⟨_, _, rfl⟩ := (readPosted_exec hread hwrite hexec).same.trans hsame
        exact hdyn
      have hle := capacity_read_le hidx
      rw [hcap'] at hle
      rw [hbuf]
      omega

/-- The read in flight has room for at least one byte. -/
theorem read_room {ms : List Message} (hread : c.FreshRead) (hwrite : c.WriteOk)
    (hfits : Fits codec c ms) (hrun : (machine flavor codec).exec (init c) es = some t)
    (hpre : (chunks es).flatten <+: encodedStream ms) (hon : t.session.reader = .onRead) :
    ∃ sqe, t.opOf .reader = some sqe ∧ 0 < postedRead sqe := by
  have hposted := readPosted_exec hread hwrite hrun
  obtain ⟨c', hsame, hok', hcap', hbuf, hop⟩ := hposted.reading hon
  refine ⟨_, (ok_exec hread hwrite hrun).opOf_of_mem hop, ?_⟩
  obtain ⟨rbuf, wbuf, hc'⟩ := hsame
  have hidx : c'.readBufIdx = c.readBufIdx := by rw [hc']
  have hspan : t.session.conn.readBuffer.getSpan.length = c'.readBuffer.readableBytes := by
    rw [hbuf, getSpan_read hok', Buffer.length_getSpan hok'.valid]
  have hfixcap : c.readBufIdx.isSome → c'.readBuffer.capacity = c.readBuffer.capacity := by
    intro hfix
    rw [← hposted.capacity hfix, hbuf, (capacity_read hok').2 (hidx ▸ hfix)]
  refine (posted_pos_iff hok' ?_).mpr ?_
  · intro hfix
    rw [hidx] at hfix
    rw [hfixcap hfix]
    exact hfits.registered hfix
  · rw [HasRoom, hidx]
    split
    next hfix =>
      obtain ⟨hpos, hfit⟩ := hfits.fixed hfix
      have hlt := unread_lt hread hwrite hpos hfits.size32 hfit hrun hpre
      rw [hspan] at hlt
      rw [hfixcap hfix]
      exact hlt
    next hdyn =>
      -- the room lies strictly between zero and the range of the length field
      rw [Option.not_isSome_iff_eq_none] at hdyn
      have hbig := capacity_exec hread hwrite hdyn (by decide : 0 < 2 ^ 31 + headerSize)
        hfits.size32 (fun m hm => by have := hfits.size m hm; omega) hrun hpre
      have hroom := writable_eq_growRoom hok' (hidx.trans hdyn)
      rw [← hbuf] at hroom
      have hwritable : t.session.conn.readBuffer.writableBytes ≤
          t.session.conn.readBuffer.capacity := Nat.sub_le _ _
      have hlow : 4096 ≤ growRoom c'.readBuffer := by
        rw [growRoom]
        split_ifs with hnow
        · exact hnow
        · exact le_max_left _ _
      simp only [headerSize] at hbig
      exact Nat.not_dvd_of_pos_of_lt (by omega) (by omega)

/-- The write in flight has at least one byte. -/
theorem write_room {ms : List Message} (hread : c.FreshRead) (hwrite : c.WriteOk)
    (hfits : Fits codec c ms) (hrun : (machine flavor codec).exec (init c) es = some t)
    (hpre : (chunks es).flatten <+: encodedStream ms) {f : WriteFrame}
    (hf : t.session.writer = .onWrite f) :
    ∃ sqe, t.opOf .writer = some sqe ∧ 0 < postedWrite sqe := by
  have hok := ok_exec hread hwrite hrun
  obtain ⟨c', hsame', hop⟩ := writePosted_exec hread hwrite hrun f hf
  rw [hok.posts, List.append_nil] at hop
  refine ⟨_, hok.opOf_of_mem hop, ?_⟩
  obtain ⟨hframe, _⟩ := hok.session.writing f hf
  have hlen := hframe.length_eq
  have hpos := hframe.remaining_pos
  have hrest : f.rest.length = f.data.length - f.ptr := List.length_drop
  have hdata := pushed_small hread hwrite hfits hrun hpre _ (hok.session.data_mem_pushed hf)
  refine (WriteRun.postedWrite_writeOnce_pos_iff c' (by omega) (by omega)).mpr ?_
  obtain ⟨_, _, rfl⟩ := (readPosted_exec hread hwrite hrun).same.trans hsame'
  exact hfits.stage

/-! ### Completions that are possible -/

theorem read_step (flavor : Flavor) (codec : EchoCodec) {sqe : Sqe}
    (hop : t.opOf .reader = some sqe) {bytes : List UInt8}
    (hlen : bytes.length ≤ postedRead sqe) :
    ∃ t', (machine flavor codec).step t (.read bytes.length bytes) = some t' :=
  ⟨_, by simp only [machine, hop]; exact if_pos ⟨by simp, hlen⟩⟩

theorem write_step (flavor : Flavor) (codec : EchoCodec) {sqe : Sqe}
    (hop : t.opOf .writer = some sqe) (hpos : 0 < postedWrite sqe) :
    ∃ t', (machine flavor codec).step t (.write 1) = some t' :=
  ⟨_, by simp only [machine, hop]; exact if_pos (by omega)⟩

theorem Ok.timer_step (hok : t.Ok) (flavor : Flavor) (codec : EchoCodec) {hd : Handler}
    (hin : hd ∈ t.session.handlers) :
    ∃ t', (machine flavor codec).step t (.timer hd.id) = some t' := by
  have hwaits : Role.handler hd.id ∈ t.session.waiting :=
    List.mem_append_right _ (List.mem_map_of_mem (f := fun h => Role.handler h.id) hin)
  have hroles := hok.session.roles
  rw [hok.posts, List.append_nil] at hroles
  obtain ⟨⟨role, sqe⟩, hop, hrole⟩ := List.mem_map.mp (hroles.mem_iff.mpr hwaits)
  simp only at hrole
  subst hrole
  exact ⟨_, by simp only [machine, hok.opOf_of_mem hop]; rfl⟩

/-- With nothing to write, everything pushed is on the wire. -/
theorem Ok.wire_of_idle (hok : t.Ok) (hpop : t.session.writer = .onPop) :
    t.session.wire = t.session.pushed.flatten := by
  obtain ⟨_, hitems, _, hwire, _⟩ := hok.session.onPop hpop
  rw [hwire, hok.session.history, hitems, List.append_nil]

/-- The kernel can complete a write or a timer, or every accepted request is answered. -/
theorem answered_or_possible {ms : List Message} (hread : c.FreshRead) (hwrite : c.WriteOk)
    (hfits : Fits codec c ms) (hrun : (machine flavor codec).exec (init c) es = some t)
    (hgood : ∀ e, e ∈ es → e.Succeeds) (hpre : (chunks es).flatten <+: encodedStream ms) :
    (∃ t', (machine flavor codec).step t (.write 1) = some t') ∨
      (∃ id t', (machine flavor codec).step t (.timer id) = some t') ∨
      ∃ rs : List (RpcHeader × List UInt8), rs.Perm (codec.requests t.session.delivered) ∧
        t.session.wire = (rs.map codec.respond).flatten := by
  have hok := ok_exec hread hwrite hrun
  cases hw : t.session.writer with
  | running => exact absurd hw hok.rested.writer
  | done => exact absurd hw (writing_exec hread hwrite hfits hrun hgood hpre)
  | onWrite f =>
      obtain ⟨sqe, hop, hpos⟩ := write_room hread hwrite hfits hrun hpre hw
      exact Or.inl (write_step flavor codec hop hpos)
  | onPop =>
      right
      cases hh : t.session.handlers with
      | nil =>
          obtain ⟨rs, hrs, hperm, _⟩ := answered_exec hread hwrite hrun
          rw [hh, List.map_nil, List.append_nil] at hperm
          exact Or.inr ⟨rs, hperm, by rw [hok.wire_of_idle hw, hrs]⟩
      | cons hd rest =>
          exact Or.inl ⟨hd.id, hok.timer_step flavor codec (by rw [hh]; exact List.mem_cons_self)⟩

/--
A connection never stalls.  In every run without failures, while the peer sends
frames that fit, a read with room is in flight; and the kernel can complete a
write or a timer, or all accepted requests are answered on the wire, each once.
-/
theorem never_stalls {ms : List Message}
    (hread : c.FreshRead) (hwrite : c.WriteOk) (hfits : Fits codec c ms)
    (hrun : (machine flavor codec).exec (init c) es = some t)
    (hgood : ∀ e, e ∈ es → e.Succeeds)
    (hpre : (chunks es).flatten <+: encodedStream ms) :
    (∃ sqe, t.opOf .reader = some sqe ∧ 0 < postedRead sqe) ∧
      ((∃ w t', 0 < w ∧ (machine flavor codec).step t (.write w) = some t') ∨
        (∃ id t', (machine flavor codec).step t (.timer id) = some t') ∨
        ∃ rs : List (RpcHeader × List UInt8), rs.Perm (codec.requests t.session.delivered) ∧
          t.session.wire = (rs.map codec.respond).flatten) := by
  refine ⟨read_room hread hwrite hfits hrun hpre (reading_exec hread hwrite hrun hgood), ?_⟩
  rcases answered_or_possible hread hwrite hfits hrun hgood hpre with ⟨t', ht'⟩ | hrest
  · exact Or.inl ⟨1, t', Int.one_pos, ht'⟩
  · exact Or.inr hrest

theorem smallConn_fits : Fits protoCodec smallConn [echoRequest] :=
  ⟨by decide, fun _ _ _ hparse => protoCodec_response_lt hparse,
    fun _ => by decide, fun _ => by decide, fun _ => by decide⟩

/-- One request has arrived: its response is still to be written. -/
theorem never_stalls_one_request :
    ∃ t, (machine .async protoCodec).exec (init smallConn)
        [.read 15 (encoded echoRequest)] = some t ∧
      (∃ sqe, t.opOf .reader = some sqe ∧ 0 < postedRead sqe) := by
  obtain ⟨t, ht⟩ : ∃ t, (machine .async protoCodec).exec (init smallConn)
      [.read 15 (encoded echoRequest)] = some t :=
    Option.isSome_iff_exists.mp (by decide)
  have hgood : ∀ e, e ∈ [Event.read 15 (encoded echoRequest)] → e.Succeeds := by
    intro e he
    rw [List.mem_singleton.mp he]
    exact (by decide : (0 : Int) < 15)
  exact ⟨t, ht, (never_stalls smallConn_freshRead smallConn_writeOk
    smallConn_fits ht hgood (by decide)).1⟩

end Live

end CRpc
