import CRpc.StagedWrite
import CRpc.Lib.Machine

/-!
# `Write` under partial completions

One call of `CoroConnection::Write` from its start to its return.  The kernel
completes each operation that `Write` posts with any result that does not exceed
the bytes posted, and a positive result `w` means that it has accepted the first
`w` staged bytes.

`Progress data ws s` says where a call with the data `data` is after the
completions `ws`; `progress_exec` is the invariant of all runs.  From it follow

* `write_sends_data`: what is accepted, in both staging modes;
* `write_result_iff`: when the result tells success from failure.  The length is
  cast to `int` on return, so it does for lengths that an `int` can hold.
-/

namespace CRpc

open Lib

/-- A call of `Write` and the bytes the kernel has accepted from it. -/
structure WriteRun where
  outcome : WriteOutcome
  wire : List UInt8

namespace WriteRun

/-- `Write(data, len)` has been called. -/
def start (c : CoroConnection) (data : List UInt8) : WriteRun :=
  { outcome := c.write data, wire := [] }

/-- The posted operation completes with `w`, and `Write` is resumed. -/
def machine : Machine WriteRun Int where
  step s w :=
    match s.outcome with
    | .suspended c sqe f =>
        if w ≤ postedWrite sqe then
          some { outcome := c.writeResume f w, wire := s.wire ++ c.accepted sqe w }
        else none
    | .returned _ => none

/-- A registered staging buffer, if the connection has one, is not empty. -/
def CanStage (c : CoroConnection) : Prop := c.writeBufIdx.isSome → 0 < c.bufSize

/-- Where a call of `c₀.Write` is after the completions `ws`. -/
inductive Progress (c₀ : CoroConnection) (data : List UInt8) (ws : List Int) (s : WriteRun) :
    Prop
  | waiting {c : CoroConnection} {sqe : Sqe} {f : WriteFrame}
      (outcome : s.outcome = .suspended c sqe f) (writeOk : c.WriteOk)
      (staged : c.Staged sqe f.rest) (frame : f.Ok) (data_eq : f.data = data)
      (wire_eq : s.wire = data.take f.ptr) (positive : ∀ w, w ∈ ws → 0 < w)
      (length_le : ws.length ≤ f.ptr) (stage : CanStage c ↔ CanStage c₀)
      (posted_iff : data.length < 2 ^ 31 → (0 < postedWrite sqe ↔ CanStage c))
  | sent (outcome : s.outcome = .returned (toInt32 data.length)) (wire_eq : s.wire = data)
      (positive : ∀ w, w ∈ ws → 0 < w) (length_le : ws.length ≤ data.length)
  | failed {w : Int} {before : List Int} (outcome : s.outcome = .returned w) (failure : w ≤ 0)
      (last : ws = before ++ [w]) (positive : ∀ w', w' ∈ before → 0 < w')
      (wire_le : s.wire <+: data) (wire_lt : s.wire.length < data.length)
      (length_le : ws.length ≤ data.length)

variable {c c₀ : CoroConnection} {data : List UInt8} {ws : List Int} {s t : WriteRun}

theorem canStage_writeOnce (c : CoroConnection) (bytes : List UInt8) :
    CanStage (c.writeOnce bytes).1 ↔ CanStage c := by
  obtain ⟨buf, hbuf⟩ := c.writeOnce_conn bytes
  rw [hbuf]
  exact Iff.rfl

/-- A length below 2^31 is posted in full, or as much of it as the staging buffer holds. -/
theorem postedWrite_writeOnce_pos_iff (c : CoroConnection) {bytes : List UInt8}
    (hpos : 0 < bytes.length) (hlen : bytes.length < 2 ^ 31) :
    0 < postedWrite (c.writeOnce bytes).2 ↔ CanStage c := by
  cases hidx : c.writeBufIdx with
  | none =>
      rw [CoroConnection.writeOnce_dynamic hidx]
      simp only [postedWrite, toU32, CanStage, hidx, Option.isSome_none, Bool.false_eq_true,
        false_imp_iff, iff_true]
      omega
  | some idx =>
      rw [CoroConnection.writeOnce_fixed hidx]
      simp only [postedWrite, toU32, CanStage, hidx, Option.isSome_some, true_imp_iff]
      omega

/-- `Write` posts an operation for what remains. -/
theorem progress_writeHead (hc : c.WriteOk) {f : WriteFrame} (hf : f.Ok)
    (hdata : f.data = data) (houtcome : s.outcome = c.writeHead f)
    (hwire : s.wire = data.take f.ptr) (hpos : ∀ w, w ∈ ws → 0 < w)
    (hlen : ws.length ≤ f.ptr) (hstage : CanStage c ↔ CanStage c₀) :
    Progress c₀ data ws s := by
  obtain ⟨hok, hstaged⟩ := CoroConnection.writeOnce_staged hc f.rest
  rw [CoroConnection.writeHead_of_ok c hf] at houtcome
  refine .waiting houtcome hok hstaged hf hdata hwire hpos hlen
    ((canStage_writeOnce c f.rest).trans hstage) ?_
  intro hsmall
  have hf_len := hf.length_eq
  have hf_pos := hf.remaining_pos
  have hrest : f.rest.length = f.data.length - f.ptr := List.length_drop
  rw [hdata] at hf_len hrest
  rw [canStage_writeOnce]
  exact postedWrite_writeOnce_pos_iff c (by omega) (by omega)

theorem progress_start (hc : c.WriteOk) (data : List UInt8) :
    Progress c data [] (start c data) := by
  by_cases hdata : data = []
  · subst hdata
    exact .sent rfl rfl (by simp) le_rfl
  · exact progress_writeHead hc (WriteFrame.ok_start hdata) rfl rfl rfl (by simp) le_rfl Iff.rfl

/-- One completion, whatever its result. -/
theorem progress_step {w : Int} (h : Progress c₀ data ws s)
    (hstep : machine.step s w = some t) : Progress c₀ data (ws ++ [w]) t := by
  cases h with
  | sent houtcome => simp [machine, houtcome] at hstep
  | failed houtcome => simp [machine, houtcome] at hstep
  | @waiting c sqe f houtcome hok hstaged hf hdata hwire hpos hlen hstage =>
      simp only [machine, houtcome, Option.ite_none_right_eq_some, Option.some.injEq] at hstep
      obtain ⟨hposted, rfl⟩ := hstep
      have hf_len := hf.length_eq
      have hf_pos := hf.remaining_pos
      have hrest : f.rest.length = f.remaining := by
        rw [WriteFrame.rest, List.length_drop]
        omega
      have hle : w.toNat ≤ postedWrite sqe := by omega
      have haccepted := hstaged.accepted_eq w hle
      have hwithin : w.toNat ≤ f.remaining := by
        rw [← hrest]
        exact hle.trans hstaged.posted_le
      rw [hdata] at hf_len
      -- the accepted bytes follow those accepted before
      have hwire' : s.wire ++ c.accepted sqe w = data.take (f.ptr + w.toNat) := by
        rw [hwire, haccepted, WriteFrame.rest, hdata, List.take_add]
      rcases le_or_gt w 0 with hfail | hgood
      · have hzero : w.toNat = 0 := by omega
        rw [hzero, Nat.add_zero] at hwire'
        refine .failed (CoroConnection.writeResume_failed c f hfail) hfail rfl hpos ?_ ?_ ?_
        · rw [hwire']
          exact List.take_prefix _ _
        · rw [hwire', List.length_take]
          omega
        · rw [List.length_append, List.length_singleton]
          omega
      · have hpos' : ∀ w', w' ∈ ws ++ [w] → 0 < w' := by
          intro w' hw'
          rcases List.mem_append.mp hw' with hin | hlast
          · exact hpos w' hin
          · rw [List.mem_singleton.mp hlast]
            exact hgood
        have hlen' : (ws ++ [w]).length ≤ f.ptr + w.toNat := by
          rw [List.length_append, List.length_singleton]
          omega
        rcases Nat.lt_or_ge w.toNat f.remaining with hmore | hlast
        · exact progress_writeHead hok (hf.advance hmore) hdata
            (CoroConnection.writeResume_more c f hgood) hwire' hpos' hlen' hstage
        · have hall : f.ptr + w.toNat = data.length := by omega
          rw [hall] at hwire' hlen'
          rw [List.take_length] at hwire'
          refine .sent ?_ hwire' hpos' hlen'
          rw [← hdata]
          exact CoroConnection.writeResume_last c hgood hlast

/-- The invariant of a call of `Write`. -/
theorem progress_exec (hc : c.WriteOk) (hrun : machine.exec (start c data) ws = some t) :
    Progress c data ws t :=
  Machine.run_induction (motive := fun ws t => Progress c data ws t) (progress_start hc data)
    (fun _ _ _ _ _ h hstep => progress_step h hstep) hrun

/-- `Write` has returned, and no completion told of a failure. -/
def Succeeded (ws : List Int) (t : WriteRun) : Prop :=
  (∃ v, t.outcome = .returned v) ∧ ∀ w, w ∈ ws → 0 < w

theorem Progress.wire_eq_of_succeeded (h : Progress c data ws t) (hok : Succeeded ws t) :
    t.wire = data := by
  obtain ⟨⟨v, hv⟩, hpos⟩ := hok
  cases h with
  | waiting houtcome =>
      rw [hv] at houtcome
      cases houtcome
  | sent _ hwire => exact hwire
  | failed _ hfail hlast =>
      have hmem := hpos _ (by rw [hlast]; exact List.mem_append_right _ (List.mem_singleton_self _))
      exact absurd hfail (not_le.mpr hmem)

/-- A connection with registered buffers of four bytes. -/
def stagingConn : CoroConnection :=
  { fd := 5, closed := false, fixedFileIdx := some 0, readBufIdx := some 1,
    writeBufIdx := some 0, readBuffer := Buffer.fixed [0, 0, 0, 0] 4,
    writeBuffer := Buffer.fixed [0, 0, 0, 0] 4, bufSize := 4 }

theorem toInt32_lt (n : Nat) : toInt32 n < 2 ^ 31 :=
  lt_of_lt_of_eq (Int.bmod_lt (by decide)) (by decide)

/--
The completion `w` tells that the connection is lost: an error, or no byte taken
from an operation that has some.
-/
def Loses (s : WriteRun) (w : Int) : Prop :=
  match s.outcome with
  | .suspended _ sqe _ => w < 0 ∨ w = 0 ∧ 0 < postedWrite sqe
  | .returned _ => False

/-- The connection is lost during the call. -/
def Lost (c : CoroConnection) (data : List UInt8) (ws : List Int) : Prop :=
  ∃ s w, machine.Takes (start c data) ws s w ∧ s.Loses w

theorem Loses.nonpos {w : Int} (h : s.Loses w) : w ≤ 0 := by
  rw [Loses] at h
  split at h
  · omega
  · exact h.elim

theorem Lost.exists_nonpos (h : Lost c data ws) : ∃ w, w ∈ ws ∧ w ≤ 0 := by
  obtain ⟨s, w, htakes, hloses⟩ := h
  exact ⟨w, htakes.mem, hloses.nonpos⟩

/-- The last completion of a run, and the operation it belongs to. -/
theorem exists_last (hc : c.WriteOk) (hdata : data ≠ [])
    (hrun : machine.exec (start c data) ws = some t) {v : Int}
    (hreturned : t.outcome = .returned v) :
    ∃ (before : List Int) (w : Int) (m : WriteRun) (conn : CoroConnection) (sqe : Sqe)
      (f : WriteFrame), ws = before ++ [w] ∧
      machine.exec (start c data) before = some m ∧ m.outcome = .suspended conn sqe f ∧
      w ≤ postedWrite sqe ∧ (data.length < 2 ^ 31 → (0 < postedWrite sqe ↔ CanStage c)) := by
  rcases List.eq_nil_or_concat ws with rfl | ⟨before, w, rfl⟩
  · cases hrun
    rw [start, CoroConnection.write] at hreturned
    simp [CoroConnection.writeHead, List.length_pos_iff.mpr hdata] at hreturned
  · rw [List.concat_eq_append] at hrun ⊢
    obtain ⟨m, hm, hstep⟩ := Machine.exec_concat_eq_some.mp hrun
    cases progress_exec hc hm with
    | sent houtcome => simp [machine, houtcome] at hstep
    | failed houtcome => simp [machine, houtcome] at hstep
    | waiting houtcome _ _ _ _ _ _ _ hstage hposted =>
        simp only [machine, houtcome, Option.ite_none_right_eq_some] at hstep
        exact ⟨before, w, m, _, _, _, rfl, hm, houtcome, hstep.1,
          fun hsmall => (hposted hsmall).trans hstage⟩

/--
What the result `v` of a call tells: it is positive exactly when all of the data
was accepted, it is then the length, and otherwise the connection was lost.
-/
def TellsSuccess (c : CoroConnection) (data : List UInt8) (ws : List Int) (t : WriteRun)
    (v : Int) : Prop :=
  (0 < v ↔ t.wire = data) ∧ (0 < v → v = data.length) ∧ (v ≤ 0 → Lost c data ws)

/-- All completions were positive: the result is the length as an `int`. -/
theorem tellsSuccess_iff_of_sent (hdata : data ≠ []) (hwire : t.wire = data) :
    TellsSuccess c data ws t (toInt32 data.length) ↔ data.length < 2 ^ 31 := by
  have hlen : 0 < data.length := List.length_pos_iff.mpr hdata
  constructor
  · rintro ⟨htells, hvalue, _⟩
    have hbound := toInt32_lt data.length
    have heq := hvalue (htells.mpr hwire)
    omega
  · intro hsmall
    rw [TellsSuccess, toInt32_of_lt hsmall]
    exact ⟨⟨fun _ => hwire, fun _ => by omega⟩, fun _ => rfl, fun hneg => by omega⟩

/-- A completion failed: the result is not positive and bytes are missing. -/
theorem tellsSuccess_iff_of_failed {v : Int} (hfail : v ≤ 0)
    (hshort : t.wire.length < data.length) :
    TellsSuccess c data ws t v ↔ Lost c data ws := by
  constructor
  · exact fun htells => htells.2.2 hfail
  · intro hlost
    refine ⟨⟨fun hgood => absurd hfail (not_le.mpr hgood), fun heq => ?_⟩,
      fun hgood => absurd hfail (not_le.mpr hgood), fun _ => hlost⟩
    rw [heq] at hshort
    exact absurd hshort (lt_irrefl _)

/--
The result of `Write` tells success from failure if and only if the length fits
into an `int` (and a staging buffer, if there is one, is not empty), or the
connection is lost during the call.
-/
theorem write_result_iff (hc : c.WriteOk) (hdata : data ≠ [])
    (hrun : machine.exec (start c data) ws = some t) {v : Int}
    (hreturned : t.outcome = .returned v) :
    TellsSuccess c data ws t v ↔
      data.length < 2 ^ 31 ∧ CanStage c ∨ Lost c data ws := by
  obtain ⟨before, w, m, conn, sqe, f, hws, hm, hsuspended, hposted, hposted_iff⟩ :=
    exists_last hc hdata hrun hreturned
  cases progress_exec hc hrun with
  | waiting houtcome =>
      rw [hreturned] at houtcome
      cases houtcome
  | sent houtcome hwire hpos =>
      rw [hreturned] at houtcome
      have hkept : ¬ Lost c data ws := by
        intro hlost
        obtain ⟨w', hw', hfail⟩ := hlost.exists_nonpos
        exact absurd hfail (not_le.mpr (hpos w' hw'))
      have hw_pos : 0 < w := by
        refine hpos w ?_
        rw [hws]
        exact List.mem_append_right _ (List.mem_singleton_self w)
      rw [WriteOutcome.returned.inj houtcome, tellsSuccess_iff_of_sent hdata hwire,
        or_iff_left hkept]
      -- the last operation had bytes, so the staging buffer has room
      exact ⟨fun hsmall => ⟨hsmall, (hposted_iff hsmall).mp (by omega)⟩, fun hcond => hcond.1⟩
  | @failed w' before' houtcome hfail hlast _ _ hshort =>
      rw [hreturned] at houtcome
      have hw_eq : w = w' := by
        rw [hws] at hlast
        exact List.singleton_inj.mp (List.append_inj' hlast rfl).2
      rw [WriteOutcome.returned.inj houtcome, tellsSuccess_iff_of_failed hfail hshort]
      refine ⟨Or.inr, ?_⟩
      rintro (⟨hsmall, hstage⟩ | hlost)
      · refine ⟨m, w, ⟨before, [], hws, hm⟩, ?_⟩
        have hsome := (hposted_iff hsmall).mpr hstage
        rw [Loses, hsuspended]
        simp only
        omega
      · exact hlost

/-- Seven bytes are sent, and `Write` returns seven. -/
theorem write_result_iff_seven :
    stagingConn.WriteOk ∧
      ∃ t, machine.exec (start stagingConn [1, 2, 3, 4, 5, 6, 7]) [3, 4] = some t ∧
        t.outcome = .returned 7 ∧ TellsSuccess stagingConn [1, 2, 3, 4, 5, 6, 7] [3, 4] t 7 := by
  have hc : stagingConn.WriteOk := fun _ => rfl
  have hstage : CanStage stagingConn := fun _ => by decide
  exact ⟨hc, _, rfl, rfl, (write_result_iff hc (List.cons_ne_nil _ _) rfl rfl).mpr
    (Or.inl ⟨by decide, hstage⟩)⟩

theorem step_of_suspended {conn : CoroConnection} {sqe : Sqe} {f : WriteFrame} {w : Int}
    (houtcome : s.outcome = .suspended conn sqe f) (hw : w ≤ postedWrite sqe) :
    machine.step s w =
      some { outcome := conn.writeResume f w, wire := s.wire ++ conn.accepted sqe w } := by
  simp only [machine, houtcome, if_pos hw]

/-- A call in dynamic mode whose two completions accept all of the data. -/
theorem exec_two_completions (hidx : c.writeBufIdx = none) {n m : Nat} (hn : 0 < n)
    (hm : 0 < m) (hlen : data.length = n + m) (hmax : n + m < 2 ^ 32) :
    ∃ t, machine.exec (start c data) [(n : Int), (m : Int)] = some t ∧
      t.outcome = .returned (toInt32 (n + m)) ∧ t.wire = data := by
  have hc : c.WriteOk := by
    intro hsome
    simp [hidx] at hsome
  have hdata : data ≠ [] := List.length_pos_iff.mp (by omega)
  have hf : (WriteFrame.start data).Ok := WriteFrame.ok_start hdata
  have hmore : n < (WriteFrame.start data).remaining := by
    simp only [WriteFrame.start]
    omega
  -- the first operation takes `n` bytes
  have houtcome : (start c data).outcome = .suspended (c.writeOnce data).1
      (c.writeOnce data).2 (WriteFrame.start data) := c.writeHead_of_ok hf
  have hposted : (n : Int) ≤ postedWrite (c.writeOnce data).2 := by
    rw [CoroConnection.writeOnce_dynamic hidx]
    simp only [postedWrite, toU32]
    omega
  have hfirst := step_of_suspended houtcome hposted
  rw [CoroConnection.writeResume_more _ _ (by omega : (0 : Int) < n), Int.toNat_natCast,
    CoroConnection.writeHead_of_ok _ (hf.advance hmore)] at hfirst
  -- the second one takes the other `m`
  have hidx' : (c.writeOnce data).1.writeBufIdx = none := by
    obtain ⟨buf, hbuf⟩ := c.writeOnce_conn data
    rw [hbuf]
    exact hidx
  have hrest : ((WriteFrame.start data).advance n).rest.length = m := by
    simp only [WriteFrame.rest, WriteFrame.advance, WriteFrame.start, List.length_drop]
    omega
  have hposted' : (m : Int) ≤
      postedWrite ((c.writeOnce data).1.writeOnce ((WriteFrame.start data).advance n).rest).2 := by
    rw [CoroConnection.writeOnce_dynamic hidx']
    simp only [postedWrite, toU32, hrest]
    omega
  obtain ⟨s₁, hs₁, houtcome'⟩ : ∃ s₁, machine.step (start c data) n = some s₁ ∧
      s₁.outcome = .suspended _ _ ((WriteFrame.start data).advance n) := ⟨_, hfirst, rfl⟩
  have hsecond := step_of_suspended houtcome' hposted'
  rw [CoroConnection.writeResume_last _ (by omega : (0 : Int) < m)
    (by simp only [WriteFrame.advance, WriteFrame.start]; omega)] at hsecond
  have hrun := Machine.exec_cons_eq_some.mpr
    ⟨s₁, hs₁, Machine.exec_cons_eq_some.mpr ⟨_, hsecond, Machine.exec_nil _⟩⟩
  refine ⟨_, hrun, ?_, ?_⟩
  · simp only [WriteFrame.advance, WriteFrame.start, hlen]
  · refine (progress_exec hc hrun).wire_eq_of_succeeded ⟨⟨_, rfl⟩, ?_⟩
    simp [hn, hm]

/-- A connection of a context without registered buffers and files. -/
def dynamicConn : CoroConnection :=
  (CoroConnection.create (FixedResources.setup false 64 65536 true true false) 5 true [] []).1

/-- Two gigabytes. -/
def twoGigabytes : List UInt8 := List.replicate (2 ^ 31) 0

/--
All of the 2^31 bytes are accepted by two operations, and `Write` returns a
negative number.
-/
theorem write_two_gigabytes :
    dynamicConn.WriteOk ∧ twoGigabytes ≠ [] ∧
      ∃ t, machine.exec (start dynamicConn twoGigabytes) [2147479552, 4096] = some t ∧
        t.outcome = .returned (-2147483648) ∧ t.wire = twoGigabytes ∧
        ¬ TellsSuccess dynamicConn twoGigabytes [2147479552, 4096] t (-2147483648) := by
  have hlen : twoGigabytes.length = 2147479552 + 4096 := List.length_replicate
  obtain ⟨t, hrun, houtcome, hwire⟩ := exec_two_completions (c := dynamicConn) rfl
    (by omega) (by omega) hlen (by omega)
  have hresult : toInt32 (2147479552 + 4096) = -2147483648 := by decide
  rw [hresult] at houtcome
  refine ⟨?_, ?_, t, hrun, houtcome, hwire, ?_⟩
  · intro hsome
    cases hsome
  · exact List.length_pos_iff.mp (by omega)
  · rintro ⟨htells, _, _⟩
    exact absurd (htells.mpr hwire) (by decide)

end WriteRun

end CRpc
