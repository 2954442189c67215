import CRpc.Framing
import CRpc.MessageCodec

/-!
# Resynchronisation

A caller that keeps calling `ParseMessage`, until a call neither returns a payload
nor changes the buffer, comes to the point where the reference decoder waits.  In
front of encoded messages it skips every byte string without the magic: the scan
cannot lock on to a header that starts inside the garbage, and it never looks for
a header inside a payload.
-/

namespace CRpc

open Lib Protocol

namespace Protocol

/--
Calls of `ParseMessage` until one neither returns a payload nor changes the
buffer: the messages and the buffer, if `fuel` calls are enough.
-/
def parseAll : Nat → Buffer → RpcHeader → Option (List Message × Buffer)
  | 0, _, _ => none
  | fuel + 1, b, out =>
      match parseMessage b out with
      | (some payload, b', header) =>
          (parseAll fuel b' header).map fun r => ((header, payload) :: r.1, r.2)
      | (none, b', header) => if b' = b then some ([], b) else parseAll fuel b' header

/-- The calls come to an end, and they are moves of the reference decoder. -/
theorem parseAll_path :
    ∀ (fuel : Nat) {b : Buffer} (out : RpcHeader), b.Valid → b.getSpan.length < fuel →
      ∃ got b', parseAll fuel b out = some (got, b') ∧ b'.Valid ∧
        frames.Path b.getSpan got b'.getSpan ∧ frames.look b'.getSpan = .wait
  | 0, _, _, _, hfuel => absurd hfuel (Nat.not_lt_zero _)
  | fuel + 1, b, out, hb, hfuel => by
      have hlen := Buffer.length_getSpan hb
      cases hlook : frameLook b.getSpan with
      | wait =>
          obtain ⟨header, hparse⟩ := parseMessage_wait hb out hlook
          exact ⟨[], b, by simp [parseAll, hparse], hb, Decoder.Path.refl _, hlook⟩
      | skip =>
          obtain ⟨header, hparse⟩ := parseMessage_skip hb out hlook
          have hpos := frames.skip_pos _ hlook
          have hvalid := Buffer.valid_hasRead hb (n := 1) (by omega)
          have hspan := Buffer.getSpan_hasRead b 1
          -- the call has changed the buffer
          have hmoved : b.hasRead 1 ≠ b := by
            intro heq
            have hidx := congrArg Buffer.readIdx heq
            simp [Buffer.hasRead] at hidx
          obtain ⟨got, b', hall, hb', hpath, hwait⟩ :=
            parseAll_path fuel header hvalid (by rw [hspan, List.length_drop]; omega)
          rw [hspan] at hpath
          exact ⟨got, b', by simp [parseAll, hparse, hmoved, hall], hb',
            Decoder.Path.skip hlook hpath, hwait⟩
      | emit m n =>
          have hparse := parseMessage_emit hb out hlook
          have hpos := frames.emit_pos _ _ _ hlook
          have hle := frames.emit_le _ _ _ hlook
          have hvalid := Buffer.valid_hasRead hb (n := n) (by omega)
          have hspan := Buffer.getSpan_hasRead b n
          obtain ⟨got, b', hall, hb', hpath, hwait⟩ :=
            parseAll_path fuel m.1 hvalid (by rw [hspan, List.length_drop]; omega)
          rw [hspan] at hpath
          exact ⟨m :: got, b', by simp [parseAll, hparse, hall], hb',
            Decoder.Path.emit hlook hpath, hwait⟩

/-- Bytes without the magic are skipped one by one in front of a magic. -/
theorem path_garbage {w : List UInt8} (hlen : headerSize ≤ w.length)
    (hmagic : w.take 2 = magicBytes) :
    ∀ {g : List UInt8}, ¬ magicBytes <:+: g → frames.Path (g ++ w) [] w
  | [], _ => Decoder.Path.refl _
  | x :: g, hg => by
      have hrest : ¬ magicBytes <:+: g := fun h => hg (h.trans (List.suffix_cons x g).isInfix)
      have hskip : frameLook (x :: g ++ w) = .skip := by
        rw [frameLook_skip_iff]
        refine ⟨by simp only [List.cons_append, List.length_cons, List.length_append]; omega, ?_⟩
        intro htake
        cases g with
        | nil =>
            -- the second byte is the first one of the magic
            obtain ⟨y, w', rfl⟩ : ∃ y w', w = y :: w' :=
              List.exists_cons_of_length_pos (by simp only [headerSize] at hlen; omega)
            simp only [List.cons_append, List.nil_append, List.take_succ_cons, List.take_zero,
              magicBytes, List.cons.injEq, and_true] at htake hmagic
            rw [htake.2] at hmagic
            simp at hmagic
        | cons y g =>
            refine hg ⟨[], g, ?_⟩
            rw [← htake]
            rfl
      exact Decoder.Path.skip hskip (path_garbage hlen hmagic hrest)

end Protocol

/-- The moves of the reference decoder over encoded messages. -/
theorem path_encodedStream {ms : List Message}
    (hsize : ∀ m, m ∈ ms → m.2.length < 2 ^ 32) :
    frames.Path (encodedStream ms) ((ms.map wireWord).map Prod.fst) [] := by
  have hcut : [encodedStream ms].flatten = Decoder.wordsOf (ms.map wireWord) := by
    rw [List.flatten_singleton, encodedStream_eq_wordsOf]
  have hpath := Decoder.feed_path (D := frames) [] [encodedStream ms]
  rw [Decoder.feed_all_codewords (codeword_wireWord hsize) hcut, List.nil_append,
    List.flatten_singleton] at hpath
  exact hpath

/--
Behind garbage without the magic every message is recovered: the calls end, they
deliver exactly the messages in order, and nothing is left unread.
-/
theorem resync_recovers_frames {g : List UInt8} (hg : ¬ magicBytes <:+: g)
    {ms : List Message} (hms : ms ≠ []) (hsize : ∀ m, m ∈ ms → m.2.length < 2 ^ 32)
    {b : Buffer} (hb : b.Valid) (hspan : b.getSpan = g ++ encodedStream ms)
    (out : RpcHeader) {fuel : Nat} (hfuel : b.getSpan.length < fuel) :
    ∃ got b', parseAll fuel b out = some (got, b') ∧ List.Forall₂ Received ms got ∧
      b'.readableBytes = 0 := by
  obtain ⟨got, b', hall, hb', hpath, hwait⟩ := parseAll_path fuel out hb hfuel
  obtain ⟨m, ms', rfl⟩ := List.exists_cons_of_ne_nil hms
  have hstart : encodedStream (m :: ms') = frame m.1 m.2 ++ encodedStream ms' := by
    rw [encodedStream, List.map_cons, List.flatten_cons, encoded_eq_frame]
    rfl
  have hgarbage : frames.Path b.getSpan [] (encodedStream (m :: ms')) := by
    rw [hspan]
    refine path_garbage ?_ ?_ hg
    · rw [hstart, List.length_append, length_frame]
      omega
    · rw [hstart]
      rfl
  obtain ⟨rfl, hnil⟩ :=
    hpath.eq_of_wait hwait (hgarbage.trans (path_encodedStream hsize)) Decoder.look_nil
  refine ⟨_, b', hall, forall₂_received hsize, ?_⟩
  rw [← Buffer.length_getSpan hb', hnil]
  rfl

/-- Garbage that ends with half a magic, then a message with a magic in its payload. -/
theorem resync_recovers_frames_half_magic :
    ¬ magicBytes <:+: [0x00, 0x54, 0x54] ∧
      ∃ got b', parseAll 18
          (holding ([0x00, 0x54, 0x54] ++ encodedStream [(smallRequest.1, [0x54, 0x52])]))
          default = some (got, b') ∧
        List.Forall₂ Received [(smallRequest.1, [0x54, 0x52])] got ∧ b'.readableBytes = 0 := by
  have hg : ¬ magicBytes <:+: [0x00, 0x54, 0x54] := by decide
  refine ⟨hg, resync_recovers_frames hg (List.cons_ne_nil _ _) ?_ (valid_holding _)
    (getSpan_holding _) default ?_⟩
  · intro m hm
    rw [List.mem_singleton.mp hm]
    decide
  · rw [getSpan_holding]
    decide

end CRpc
