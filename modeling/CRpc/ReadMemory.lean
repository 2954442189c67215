import CRpc.SessionProgress

/-!
# The memory of a read buffer

How much storage a connection takes for the bytes it has not parsed.  While the
peer sends frames, the largest frame bounds it, in both buffer modes and for a
connection of any length (`read_memory_bounded`).

`ParseMessage` gives up one byte of garbage per call and the inner loop stops
there, so that each read of garbage gives up one byte however much it brought.  A
peer that sends garbage therefore makes a dynamic buffer grow beyond every bound
without a single message (`read_memory_unbounded`).
-/

namespace CRpc

open Lib Protocol CoroConnection

namespace Live

variable {flavor : Flavor} {codec : EchoCodec} {c : CoroConnection} {t : Live}
variable {es : List Event}

/-- On a stream of frames of at most `limit` bytes the storage stays bounded. -/
theorem read_memory_bounded {ms : List Message} {limit : Nat} (hread : c.FreshRead)
    (hwrite : c.WriteOk) (hlimit : 0 < limit) (hsize : ∀ m, m ∈ ms → m.2.length < 2 ^ 32)
    (hfit : ∀ m, m ∈ ms → headerSize + m.2.length ≤ limit)
    (hrun : (machine flavor codec).exec (init c) es = some t)
    (hpre : (chunks es).flatten <+: encodedStream ms) :
    t.session.conn.readBuffer.data.length ≤ max c.readBuffer.capacity (limit + 4095) := by
  rw [(ok_exec hread hwrite hrun).session.readOk.valid.size]
  cases hidx : c.readBufIdx with
  | none =>
      have hbuf : c.readBuffer = Buffer.dynamic 65536 := by
        cases hread with
        | dynamic _ hbuf => exact hbuf
        | fixed idx _ hfix _ => simp [hidx] at hfix
      rw [hbuf]
      exact capacity_exec hread hwrite hidx hlimit hsize hfit hrun hpre
  | some idx =>
      rw [(readPosted_exec hread hwrite hrun).capacity (by rw [hidx]; rfl)]
      exact le_max_left _ _

/-- A request in two parts, on a connection without registered buffers. -/
theorem read_memory_bounded_two_parts :
    ∃ t, (machine .sync protoCodec).exec (init plainConn)
        [.read 5 ((encoded echoRequest).take 5), .read 10 ((encoded echoRequest).drop 5)] =
          some t ∧
      t.session.delivered.map Prod.snd = [[0x0a, 1, 0x61]] ∧
      t.session.conn.readBuffer.data.length ≤ max 65536 (15 + 4095) := by
  have hrun : ((machine .sync protoCodec).exec (init plainConn)
      [.read 5 ((encoded echoRequest).take 5), .read 10 ((encoded echoRequest).drop 5)]).any
      (fun t => t.session.delivered.map Prod.snd = [[0x0a, 1, 0x61]]) = true := by
    decide +kernel
  obtain ⟨t, ht, hpayload⟩ := (Option.any_eq_true _ _).mp hrun
  have hsize : ∀ m, m ∈ [echoRequest] → m.2.length < 2 ^ 32 := by decide
  have hfit : ∀ m, m ∈ [echoRequest] → headerSize + m.2.length ≤ 15 := by decide
  exact ⟨t, ht, of_decide_eq_true hpayload, read_memory_bounded plainConn_freshRead
    plainConn_writeOk (by decide) hsize hfit ht (by decide)⟩

/-! ### Garbage -/

/-- A burst on zero bytes gives up one of them. -/
theorem drain_zeros {n : Nat} (h : headerSize ≤ n) :
    frames.drain (List.replicate n 0) = ([], List.replicate (n - 1) 0) := by
  have hskip : frames.look (List.replicate n 0) = .skip := by
    refine frameLook_skip_iff.mpr ⟨by rw [List.length_replicate]; exact h, ?_⟩
    simp only [headerSize] at h
    rw [List.take_replicate, min_eq_left (by omega)]
    decide
  rw [Decoder.drain_of_skip hskip, List.drop_replicate]

/-- A connection that has received nothing but zero bytes, in reads of 4096. -/
structure Flooded (t : Live) (k : Nat) : Prop where
  delivered : t.session.delivered = []
  unread : t.session.conn.readBuffer.getSpan = List.replicate (4095 * k) 0
  capacity_le : t.session.conn.readBuffer.capacity ≤ 4095 * k + 65536

theorem flooded_step (hread : c.FreshRead) (hwrite : c.WriteOk) (hdyn : c.readBufIdx = none)
    (hrun : (machine flavor codec).exec (init c) es = some t)
    (hgood : ∀ e, e ∈ es → e.Succeeds) {k : Nat} (h : t.Flooded k) :
    ∃ t', (machine flavor codec).step t (.read 4096 (List.replicate 4096 0)) = some t' ∧
      t'.Flooded (k + 1) := by
  have hok := ok_exec hread hwrite hrun
  obtain ⟨c', ⟨_, _, hc'⟩, hok', _, hbuf, hop⟩ :=
    (readPosted_exec hread hwrite hrun).reading (reading_exec hread hwrite hrun hgood)
  have hidx : c'.readBufIdx = none := by rw [hc']; exact hdyn
  have hlen : (List.replicate 4096 (0 : UInt8)).length = 4096 := List.length_replicate
  -- the room posted is at least 4096 bytes and fits into the length field
  have hposted : 4096 ≤ postedRead c'.read.2 := by
    have hroom := writable_eq_growRoom hok' hidx
    have hlow : 4096 ≤ growRoom c'.readBuffer := by
      rw [growRoom]
      split_ifs with hnow
      · exact hnow
      · exact le_max_left _ _
    have hv := hok.session.readOk.valid
    have hspan := Buffer.length_getSpan hv
    rw [h.unread, List.length_replicate] at hspan
    have hcap := h.capacity_le
    have hread_le := hv.read_le
    have hhigh : growRoom c'.readBuffer < 2 ^ 32 := by
      rw [← hroom, ← hbuf]
      simp only [Buffer.writableBytes, Buffer.readableBytes] at hspan ⊢
      omega
    change 4096 ≤ c'.read.1.readBuffer.writableBytes % 2 ^ 32
    rw [hroom, Nat.mod_eq_of_lt hhigh]
    exact hlow
  obtain ⟨t', hstep⟩ := read_step flavor codec (hok.opOf_of_mem hop) (hlen.le.trans hposted)
  rw [hlen, Nat.cast_ofNat] at hstep
  refine ⟨t', hstep, ?_⟩
  have hrun' := Machine.exec_concat_eq_some.mpr ⟨t, hrun, hstep⟩
  obtain ⟨hdel, hspan⟩ := delivered_exec hread hwrite hrun
  obtain ⟨hdel', hspan'⟩ := delivered_exec hread hwrite hrun'
  have hzeros : List.replicate (4095 * k) (0 : UInt8) ++ List.replicate 4096 0 =
      List.replicate (4095 * k + 4096) 0 := by
    rw [← List.replicate_add]
  have hburst := drain_zeros (n := 4095 * k + 4096) (by simp only [headerSize]; omega)
  have hone : chunks [.read 4096 (List.replicate 4096 0)] = [List.replicate 4096 0] := rfl
  rw [chunks_append, hone, Decoder.feed_append, ← hdel, ← hspan, h.delivered, h.unread]
    at hdel' hspan'
  simp only [Decoder.feed, hzeros, hburst, List.append_nil] at hdel' hspan'
  have hcount : 4095 * k + 4096 - 1 = 4095 * (k + 1) := by omega
  rw [hcount] at hspan'
  refine ⟨hdel', hspan', ?_⟩
  rcases conn_step hok hstep with
    ⟨_, hconn, _⟩ | ⟨c₂, hsame₂, hok₂, hcap₂, hbuf₂, _⟩
  · have hcap := h.capacity_le
    rw [hconn]
    exact hcap.trans (by omega)
  · have hidx₂ : c₂.readBufIdx = none := by
      obtain ⟨_, _, rfl⟩ := (readPosted_exec hread hwrite hrun).same.trans hsame₂
      exact hdyn
    have hle := capacity_read_le hidx₂
    have hcap := h.capacity_le
    rw [hbuf₂, getSpan_read hok₂] at hspan'
    have hreadable := Buffer.length_getSpan hok₂.valid
    rw [hspan', List.length_replicate] at hreadable
    rw [hcap₂] at hle
    rw [hbuf₂]
    omega

/--
A peer that sends zero bytes, 4096 at a time, makes the dynamic read buffer grow
beyond every bound; no operation fails and no message is delivered.
-/
theorem read_memory_unbounded (hread : c.FreshRead) (hwrite : c.WriteOk)
    (hdyn : c.readBufIdx = none) (flavor : Flavor) (codec : EchoCodec) (bound : Nat) :
    ∃ n t, (machine flavor codec).exec (init c)
        (List.replicate n (.read 4096 (List.replicate 4096 0))) = some t ∧
      t.session.delivered = [] ∧ bound < t.session.conn.readBuffer.data.length := by
  have hflood : ∀ k, ∃ t, (machine flavor codec).exec (init c)
      (List.replicate k (.read 4096 (List.replicate 4096 0))) = some t ∧ t.Flooded k := by
    intro k
    induction k with
    | zero =>
        obtain ⟨hdel, hspan⟩ := delivered_exec hread hwrite
          (Machine.exec_nil (M := machine flavor codec) (init c))
        refine ⟨init c, rfl, hdel, hspan, ?_⟩
        have hnone : ∀ m : Message, m ∈ ([] : List Message) →
            headerSize + m.2.length ≤ 1 := by simp
        have hcap := capacity_exec hread hwrite hdyn Nat.one_pos (by simp) hnone
          (Machine.exec_nil (M := machine flavor codec) (init c)) List.nil_prefix
        omega
    | succ k ih =>
        obtain ⟨t, hrun, hflooded⟩ := ih
        have hgood : ∀ e, e ∈ List.replicate k (Event.read 4096 (List.replicate 4096 0)) →
            e.Succeeds := by
          intro e he
          rw [List.eq_of_mem_replicate he]
          exact (by decide : (0 : Int) < 4096)
        obtain ⟨t', hstep, hflooded'⟩ := flooded_step hread hwrite hdyn hrun hgood hflooded
        rw [List.replicate_succ']
        exact ⟨t', Machine.exec_concat_eq_some.mpr ⟨t, hrun, hstep⟩, hflooded'⟩
  obtain ⟨t, hrun, hflooded⟩ := hflood (bound + 1)
  refine ⟨bound + 1, t, hrun, hflooded.delivered, ?_⟩
  have hv := (ok_exec hread hwrite hrun).session.readOk.valid
  have hlen := Buffer.length_getSpan hv
  have hle := hv.write_le
  rw [hflooded.unread, List.length_replicate, Buffer.readableBytes] at hlen
  rw [hv.size]
  omega

theorem read_memory_unbounded_plain :
    ∃ n t, (machine .sync protoCodec).exec (init plainConn)
        (List.replicate n (.read 4096 (List.replicate 4096 0))) = some t ∧
      t.session.delivered = [] ∧ 2 ^ 32 < t.session.conn.readBuffer.data.length :=
  read_memory_unbounded plainConn_freshRead plainConn_writeOk rfl .sync protoCodec (2 ^ 32)

end Live

end CRpc
