import Mathlib.Data.List.Infix
import Mathlib.Tactic

/-!
# Incremental decoders

A decoder looks at the unread part of a stream and answers with a verdict:
wait for more input, skip one symbol, or emit a value and consume the symbols
that encode it.  The only law is that a verdict other than waiting survives
every extension of the input.

* `Path xs bs ys`: from the unread input `xs` the decoder can emit `bs` and
  reach the unread input `ys`.
* `decode`: the reference decoding of a whole input, which keeps going until
  the verdict is to wait.
* `front`: the values at the very front of the input, up to the first verdict
  that is not an emission.
* `drain`: one burst of a reader that stops at the first verdict that is not
  an emission, performing the skip when that verdict is a skip.
* `feed`: a reader that receives the stream in chunks and bursts after each.

The results connect `feed` with `decode` for arbitrary input
(`feed_path`, `Path.decode_eq`) and determine `feed` completely on a
concatenation of codewords (`drain_codewords`).
-/

namespace CRpc
namespace Lib

universe u v

/-- Answer of a decoder that looks at unread input. -/
inductive Verdict (β : Type v) where
  | wait
  | skip
  | emit (value : β) (length : Nat)

/-- A decoder whose verdicts are stable under extension of the input. -/
structure Decoder (α : Type u) (β : Type v) where
  look : List α → Verdict β
  skip_pos : ∀ xs, look xs = .skip → 0 < xs.length
  emit_pos : ∀ xs b n, look xs = .emit b n → 0 < n
  emit_le : ∀ xs b n, look xs = .emit b n → n ≤ xs.length
  look_append : ∀ xs ys, look xs ≠ .wait → look (xs ++ ys) = look xs

namespace Decoder

variable {α : Type u} {β : Type v}
variable (D : Decoder α β)

/-- Finitely many moves of the decoder: values emitted and input left unread. -/
inductive Path : List α → List β → List α → Prop
  | refl (xs : List α) : Path xs [] xs
  | skip {xs ys : List α} {bs : List β} :
      D.look xs = .skip →
      Path (xs.drop 1) bs ys →
      Path xs bs ys
  | emit {xs ys : List α} {b : β} {n : Nat} {bs : List β} :
      D.look xs = .emit b n →
      Path (xs.drop n) bs ys →
      Path xs (b :: bs) ys

/-- Reference decoding with a bound on the number of moves. -/
def decodeFuel : Nat → List α → List β
  | 0, _ => []
  | k + 1, xs =>
      match D.look xs with
      | .wait => []
      | .skip => decodeFuel k (xs.drop 1)
      | .emit b n => b :: decodeFuel k (xs.drop n)

/-- Reference decoding of a whole input. -/
def decode (xs : List α) : List β :=
  D.decodeFuel xs.length xs

/-- Emissions at the front of the input, with a bound on their number. -/
def frontFuel : Nat → List α → List β × List α
  | 0, xs => ([], xs)
  | k + 1, xs =>
      match D.look xs with
      | .emit b n =>
          (b :: (frontFuel k (xs.drop n)).1, (frontFuel k (xs.drop n)).2)
      | _ => ([], xs)

/-- The values at the front of the input, and the input behind them. -/
def front (xs : List α) : List β × List α :=
  D.frontFuel xs.length xs

/-- One burst: the front of the input, then one skip if that comes next. -/
def drain (xs : List α) : List β × List α :=
  match D.look (D.front xs).2 with
  | .skip => ((D.front xs).1, (D.front xs).2.drop 1)
  | _ => D.front xs

/-- Bursts after each chunk of a fragmented stream. -/
def feed : List α → List (List α) → List β × List α
  | xs, [] => ([], xs)
  | xs, c :: cs =>
      ((D.drain (xs ++ c)).1 ++ (feed (D.drain (xs ++ c)).2 cs).1,
        (feed (D.drain (xs ++ c)).2 cs).2)

variable {D}

theorem look_nil : D.look [] = .wait := by
  cases h : D.look [] with
  | wait => rfl
  | skip => exact absurd (D.skip_pos [] h) (by simp)
  | emit b n =>
      have h1 := D.emit_pos [] b n h
      have h2 := D.emit_le [] b n h
      simp only [List.length_nil] at h2
      omega

/-! ### Moves and the reference decoding -/

theorem Path.trans {xs ys zs : List α} {bs cs : List β}
    (h₁ : D.Path xs bs ys) (h₂ : D.Path ys cs zs) :
    D.Path xs (bs ++ cs) zs := by
  induction h₁ with
  | refl xs => exact h₂
  | skip hlook _ ih => exact Path.skip hlook (ih h₂)
  | emit hlook _ ih => exact Path.emit hlook (ih h₂)

/-- Moves made on a prefix of the stream are moves on the whole stream. -/
theorem Path.append {xs ys : List α} {bs : List β}
    (h : D.Path xs bs ys) (zs : List α) :
    D.Path (xs ++ zs) bs (ys ++ zs) := by
  induction h with
  | refl xs => exact Path.refl _
  | @skip xs ys bs hlook _ ih =>
      have hlook' : D.look (xs ++ zs) = .skip := by
        rw [D.look_append xs zs (by simp [hlook]), hlook]
      have hlen := D.skip_pos xs hlook
      rw [← List.drop_append_of_le_length (by omega)] at ih
      exact Path.skip hlook' ih
  | @emit xs ys b n bs hlook _ ih =>
      have hlook' : D.look (xs ++ zs) = .emit b n := by
        rw [D.look_append xs zs (by simp [hlook]), hlook]
      rw [← List.drop_append_of_le_length (D.emit_le xs b n hlook)] at ih
      exact Path.emit hlook' ih

/-- The unread input is always a suffix of the input. -/
theorem Path.suffix {xs ys : List α} {bs : List β}
    (h : D.Path xs bs ys) : ys <:+ xs := by
  induction h with
  | refl xs => exact List.suffix_refl xs
  | skip _ _ ih => exact ih.trans (List.drop_suffix _ _)
  | emit _ _ ih => exact ih.trans (List.drop_suffix _ _)

theorem decodeFuel_eq :
    ∀ {k j : Nat} {xs : List α}, xs.length ≤ k → xs.length ≤ j →
      D.decodeFuel k xs = D.decodeFuel j xs
  | 0, j, xs, hk, _ => by
      have hnil : xs = [] := List.length_eq_zero_iff.mp (by omega)
      subst hnil
      cases j with
      | zero => rfl
      | succ j => simp [decodeFuel, look_nil]
  | k + 1, 0, xs, _, hj => by
      have hnil : xs = [] := List.length_eq_zero_iff.mp (by omega)
      subst hnil
      simp [decodeFuel, look_nil]
  | k + 1, j + 1, xs, hk, hj => by
      cases hlook : D.look xs with
      | wait => simp [decodeFuel, hlook]
      | skip =>
          have hpos := D.skip_pos xs hlook
          have ih : D.decodeFuel k (xs.drop 1) = D.decodeFuel j (xs.drop 1) :=
            decodeFuel_eq (by simp only [List.length_drop]; omega)
              (by simp only [List.length_drop]; omega)
          simp only [decodeFuel, hlook, ih]
      | emit b n =>
          have hpos := D.emit_pos xs b n hlook
          have hle := D.emit_le xs b n hlook
          have ih : D.decodeFuel k (xs.drop n) = D.decodeFuel j (xs.drop n) :=
            decodeFuel_eq (by simp only [List.length_drop]; omega)
              (by simp only [List.length_drop]; omega)
          simp [decodeFuel, hlook, ih]

theorem decode_of_wait {xs : List α} (h : D.look xs = .wait) :
    D.decode xs = [] := by
  unfold decode
  cases xs.length with
  | zero => rfl
  | succ k => simp [decodeFuel, h]

theorem decode_of_skip {xs : List α} (h : D.look xs = .skip) :
    D.decode xs = D.decode (xs.drop 1) := by
  have hpos := D.skip_pos xs h
  obtain ⟨k, hk⟩ : ∃ k, xs.length = k + 1 := ⟨xs.length - 1, by omega⟩
  unfold decode
  rw [hk]
  simp only [decodeFuel, h]
  exact decodeFuel_eq (by simp only [List.length_drop]; omega) le_rfl

theorem decode_of_emit {xs : List α} {b : β} {n : Nat}
    (h : D.look xs = .emit b n) :
    D.decode xs = b :: D.decode (xs.drop n) := by
  have hpos := D.emit_pos xs b n h
  have hle := D.emit_le xs b n h
  obtain ⟨k, hk⟩ : ∃ k, xs.length = k + 1 := ⟨xs.length - 1, by omega⟩
  unfold decode
  rw [hk]
  simp only [decodeFuel, h, List.cons.injEq, true_and]
  exact decodeFuel_eq (by simp only [List.length_drop]; omega) le_rfl

/-- The reference decoding starts with whatever a path has emitted. -/
theorem Path.decode_eq {xs ys : List α} {bs : List β}
    (h : D.Path xs bs ys) : D.decode xs = bs ++ D.decode ys := by
  induction h with
  | refl xs => rfl
  | skip hlook _ ih => rw [decode_of_skip hlook, ih]
  | emit hlook _ ih => rw [decode_of_emit hlook, ih]; rfl

theorem Path.prefix_decode {xs ys : List α} {bs : List β}
    (h : D.Path xs bs ys) (zs : List α) : bs <+: D.decode (xs ++ zs) := by
  rw [(h.append zs).decode_eq]
  exact List.prefix_append _ _

/-- The decoder is deterministic: its moves lead to one place where it waits. -/
theorem Path.eq_of_wait {xs ys zs : List α} {bs cs : List β}
    (h₁ : D.Path xs bs ys) (hys : D.look ys = .wait)
    (h₂ : D.Path xs cs zs) (hzs : D.look zs = .wait) :
    bs = cs ∧ ys = zs := by
  induction h₁ generalizing cs with
  | refl xs =>
      cases h₂ with
      | refl => exact ⟨rfl, rfl⟩
      | skip hlook _ => simp [hys] at hlook
      | emit hlook _ => simp [hys] at hlook
  | skip hlook _ ih =>
      cases h₂ with
      | refl => simp [hzs] at hlook
      | skip _ hrest => exact ih hys hrest
      | emit hlook' _ => simp [hlook] at hlook'
  | emit hlook _ ih =>
      cases h₂ with
      | refl => simp [hzs] at hlook
      | skip hlook' _ => simp [hlook] at hlook'
      | emit hlook' hrest =>
          rw [hlook, Verdict.emit.injEq] at hlook'
          obtain ⟨rfl, rfl⟩ := hlook'
          obtain ⟨rfl, rfl⟩ := ih hys hrest
          exact ⟨rfl, rfl⟩

/-! ### The front of the input -/

theorem frontFuel_eq :
    ∀ {k j : Nat} {xs : List α}, xs.length ≤ k → xs.length ≤ j →
      D.frontFuel k xs = D.frontFuel j xs
  | 0, j, xs, hk, _ => by
      have hnil : xs = [] := List.length_eq_zero_iff.mp (by omega)
      subst hnil
      cases j with
      | zero => rfl
      | succ j => simp [frontFuel, look_nil]
  | k + 1, 0, xs, _, hj => by
      have hnil : xs = [] := List.length_eq_zero_iff.mp (by omega)
      subst hnil
      simp [frontFuel, look_nil]
  | k + 1, j + 1, xs, hk, hj => by
      cases hlook : D.look xs with
      | wait => simp [frontFuel, hlook]
      | skip => simp [frontFuel, hlook]
      | emit b n =>
          have hpos := D.emit_pos xs b n hlook
          have hle := D.emit_le xs b n hlook
          have ih : D.frontFuel k (xs.drop n) = D.frontFuel j (xs.drop n) :=
            frontFuel_eq (by simp only [List.length_drop]; omega)
              (by simp only [List.length_drop]; omega)
          simp [frontFuel, hlook, ih]

theorem front_of_emit {xs : List α} {b : β} {n : Nat}
    (h : D.look xs = .emit b n) :
    D.front xs = (b :: (D.front (xs.drop n)).1, (D.front (xs.drop n)).2) := by
  have hpos := D.emit_pos xs b n h
  have hle := D.emit_le xs b n h
  obtain ⟨k, hk⟩ : ∃ k, xs.length = k + 1 := ⟨xs.length - 1, by omega⟩
  have hfuel : D.frontFuel k (xs.drop n) = D.front (xs.drop n) :=
    frontFuel_eq (by simp only [List.length_drop]; omega) le_rfl
  unfold front at hfuel ⊢
  rw [hk]
  simp only [frontFuel, h, hfuel]

theorem front_of_not_emit {xs : List α}
    (h : ∀ b n, D.look xs ≠ .emit b n) :
    D.front xs = ([], xs) := by
  unfold front
  cases xs.length with
  | zero => rfl
  | succ k =>
      cases hlook : D.look xs with
      | wait => simp [frontFuel, hlook]
      | skip => simp [frontFuel, hlook]
      | emit b n => exact absurd hlook (h b n)

/-- Induction along the values at the front of the input. -/
theorem front_induction {motive : List α → Prop}
    (stop : ∀ xs, (∀ b n, D.look xs ≠ .emit b n) → motive xs)
    (emit : ∀ xs b n, D.look xs = .emit b n → motive (xs.drop n) → motive xs)
    (xs : List α) : motive xs := by
  induction hk : xs.length using Nat.strong_induction_on generalizing xs with
  | _ k ih =>
      cases hlook : D.look xs with
      | wait => exact stop xs (by simp [hlook])
      | skip => exact stop xs (by simp [hlook])
      | emit b n =>
          have hpos := D.emit_pos xs b n hlook
          have hle := D.emit_le xs b n hlook
          refine emit xs b n hlook (ih (xs.drop n).length ?_ (xs.drop n) rfl)
          simp only [List.length_drop]
          omega

theorem front_path (xs : List α) :
    D.Path xs (D.front xs).1 (D.front xs).2 := by
  induction xs using D.front_induction with
  | stop xs h =>
      rw [front_of_not_emit h]
      exact Path.refl xs
  | emit xs b n h ih =>
      rw [front_of_emit h]
      exact Path.emit h ih

/-- The front ends where the next verdict is not an emission. -/
theorem look_front (xs : List α) (b : β) (n : Nat) :
    D.look (D.front xs).2 ≠ .emit b n := by
  induction xs using D.front_induction with
  | stop xs h =>
      rw [front_of_not_emit h]
      exact h b n
  | emit xs b' n' h ih =>
      rw [front_of_emit h]
      exact ih

/-! ### Bursts and fragmented streams -/

theorem drain_of_wait {xs : List α} (h : D.look xs = .wait) :
    D.drain xs = ([], xs) := by
  have hfront : D.front xs = ([], xs) := front_of_not_emit (by simp [h])
  simp [drain, hfront, h]

theorem drain_of_skip {xs : List α} (h : D.look xs = .skip) :
    D.drain xs = ([], xs.drop 1) := by
  have hfront : D.front xs = ([], xs) := front_of_not_emit (by simp [h])
  simp [drain, hfront, h]

theorem drain_of_emit {xs : List α} {b : β} {n : Nat}
    (h : D.look xs = .emit b n) :
    D.drain xs = (b :: (D.drain (xs.drop n)).1, (D.drain (xs.drop n)).2) := by
  rw [drain, front_of_emit h, drain]
  cases D.look (D.front (xs.drop n)).2 <;> rfl

theorem drain_path (xs : List α) :
    D.Path xs (D.drain xs).1 (D.drain xs).2 := by
  unfold drain
  split
  next hskip =>
      have hstep : D.Path (D.front xs).2 [] ((D.front xs).2.drop 1) :=
        Path.skip hskip (Path.refl _)
      simpa using (front_path xs).trans hstep
  next => exact front_path xs

/-- A burst ends waiting exactly when no skip came next, or the skip led there. -/
theorem look_drain_iff (xs : List α) :
    D.look (D.drain xs).2 = .wait ↔
      (D.look (D.front xs).2 = .skip →
        D.look ((D.front xs).2.drop 1) = .wait) := by
  unfold drain
  cases hlook : D.look (D.front xs).2 with
  | wait => simp [hlook]
  | skip => simp
  | emit b n => exact absurd hlook (look_front xs b n)

theorem feed_append :
    ∀ (xs : List α) (cs ds : List (List α)),
      D.feed xs (cs ++ ds) =
        ((D.feed xs cs).1 ++ (D.feed (D.feed xs cs).2 ds).1,
          (D.feed (D.feed xs cs).2 ds).2)
  | xs, [], ds => by simp [feed]
  | xs, c :: cs, ds => by
      simp [feed, feed_append (D.drain (xs ++ c)).2 cs ds, List.append_assoc]

/-- A fragmented reader moves along the path of the whole stream. -/
theorem feed_path :
    ∀ (xs : List α) (cs : List (List α)),
      D.Path (xs ++ cs.flatten) (D.feed xs cs).1 (D.feed xs cs).2
  | xs, [] => by simpa [feed] using Path.refl xs
  | xs, c :: cs => by
      have hburst := (drain_path (D := D) (xs ++ c)).append cs.flatten
      have hrest := feed_path (D.drain (xs ++ c)).2 cs
      simpa [feed, List.append_assoc] using hburst.trans hrest

/-! ### Streams of codewords -/

/-- The word `w` encodes `b`: it decodes as a whole and no proper prefix does. -/
structure Codeword (b : β) (w : List α) : Prop where
  emits : D.look w = .emit b w.length
  waits : ∀ p, p <+: w → p.length < w.length → D.look p = .wait

theorem Codeword.length_pos {b : β} {w : List α}
    (h : D.Codeword b w) : 0 < w.length :=
  D.emit_pos w b w.length h.emits

/-- The concatenation of the words of a labelled list. -/
def wordsOf (ws : List (β × List α)) : List α :=
  (ws.map Prod.snd).flatten

@[simp] theorem wordsOf_nil : wordsOf ([] : List (β × List α)) = [] := rfl

@[simp] theorem wordsOf_cons (w : β × List α) (ws : List (β × List α)) :
    wordsOf (w :: ws) = w.2 ++ wordsOf ws := by
  simp [wordsOf]

@[simp] theorem wordsOf_append (ws vs : List (β × List α)) :
    wordsOf (ws ++ vs) = wordsOf ws ++ wordsOf vs := by
  simp [wordsOf]

/--
On any prefix of a concatenation of codewords a burst emits the labels of the
complete words and leaves a proper prefix of the next word.
-/
theorem drain_codewords :
    ∀ (ws : List (β × List α)),
      (∀ w, w ∈ ws → D.Codeword w.1 w.2) →
      ∀ xs : List α, xs <+: wordsOf ws →
        ∃ done todo : List (β × List α),
          ws = done ++ todo ∧
          (D.drain xs).1 = done.map Prod.fst ∧
          xs = wordsOf done ++ (D.drain xs).2 ∧
          (D.drain xs).2 <+: wordsOf todo ∧
          (∀ w, todo.head? = some w → (D.drain xs).2.length < w.2.length)
  | [], _, xs, hxs => by
      have hnil : xs = [] := by simpa using hxs
      subst hnil
      have hdrain : D.drain ([] : List α) = ([], []) := drain_of_wait look_nil
      refine ⟨[], [], rfl, ?_, ?_, ?_, ?_⟩ <;> simp [hdrain]
  | w :: ws, hws, xs, hxs => by
      have hw := hws w (by simp)
      rw [wordsOf_cons] at hxs
      by_cases hlen : xs.length < w.2.length
      · -- the word at the front is incomplete: the burst leaves everything
        have hpre : xs <+: w.2 :=
          List.prefix_of_prefix_length_le hxs (List.prefix_append _ _) hlen.le
        have hdrain : D.drain xs = ([], xs) :=
          drain_of_wait (hw.waits xs hpre hlen)
        refine ⟨[], w :: ws, rfl, ?_, ?_, ?_, ?_⟩
        · simp [hdrain]
        · simp [hdrain]
        · simpa [hdrain] using hxs
        · intro w' hw'
          simp only [List.head?_cons, Option.some.injEq] at hw'
          subst hw'
          simpa [hdrain] using hlen
      · -- the word at the front is complete: peel it and continue behind it
        obtain ⟨ys, rfl⟩ : w.2 <+: xs :=
          List.prefix_of_prefix_length_le (List.prefix_append _ _) hxs
            (by omega)
        have hlook : D.look (w.2 ++ ys) = .emit w.1 w.2.length := by
          rw [D.look_append w.2 ys (by simp [hw.emits]), hw.emits]
        have hdrain := drain_of_emit hlook
        rw [List.drop_left] at hdrain
        have hys : ys <+: wordsOf ws := (List.prefix_append_right_inj w.2).mp hxs
        obtain ⟨done, todo, h1, h2, h3, h4, h5⟩ :=
          drain_codewords ws (fun v hv => hws v (List.mem_cons_of_mem _ hv)) ys hys
        refine ⟨w :: done, todo, ?_, ?_, ?_, ?_, ?_⟩
        · rw [h1]; rfl
        · simp [hdrain, h2]
        · rw [hdrain, wordsOf_cons, List.append_assoc, ← h3]
        · simpa [hdrain] using h4
        · simpa [hdrain] using h5

/-- A fragmented reader on a prefix of a concatenation of codewords. -/
theorem feed_codewords {ws : List (β × List α)}
    (hws : ∀ w, w ∈ ws → D.Codeword w.1 w.2) {cs : List (List α)}
    (hcs : cs.flatten <+: wordsOf ws) :
    ∃ done todo : List (β × List α),
      ws = done ++ todo ∧
      (D.feed [] cs).1 = done.map Prod.fst ∧
      cs.flatten = wordsOf done ++ (D.feed [] cs).2 ∧
      (D.feed [] cs).2 <+: wordsOf todo ∧
      (∀ w, todo.head? = some w → (D.feed [] cs).2.length < w.2.length) := by
  induction cs using List.reverseRecOn with
  | nil =>
      refine ⟨[], ws, rfl, rfl, rfl, List.nil_prefix, ?_⟩
      intro w hw
      exact (hws w (List.mem_of_mem_head? hw)).length_pos
  | append_singleton cs c ih =>
      rw [List.flatten_append, List.flatten_singleton] at hcs
      obtain ⟨done, todo, rfl, hfst, hcut, _, _⟩ :=
        ih ((List.prefix_append _ _).trans hcs)
      rw [hcut, wordsOf_append, List.append_assoc,
        List.prefix_append_right_inj] at hcs
      obtain ⟨done', todo', rfl, h2, h3, h4, h5⟩ :=
        drain_codewords todo (fun w hw => hws w (List.mem_append_right _ hw)) _ hcs
      have hfeed : D.feed [] (cs ++ [c]) =
          ((D.feed [] cs).1 ++ (D.drain ((D.feed [] cs).2 ++ c)).1,
            (D.drain ((D.feed [] cs).2 ++ c)).2) := by
        rw [feed_append]
        simp [feed]
      refine ⟨done ++ done', todo', by rw [List.append_assoc], ?_, ?_, ?_, ?_⟩
      · rw [hfeed, hfst, h2, List.map_append]
      · rw [hfeed, List.flatten_append, List.flatten_singleton, hcut,
          wordsOf_append, List.append_assoc, List.append_assoc, ← h3]
      · rw [hfeed]
        exact h4
      · rw [hfeed]
        exact h5

/-- On a prefix of a concatenation of codewords the reader waits for more. -/
theorem look_feed_codewords {ws : List (β × List α)}
    (hws : ∀ w, w ∈ ws → D.Codeword w.1 w.2) {cs : List (List α)}
    (hcs : cs.flatten <+: wordsOf ws) : D.look (D.feed [] cs).2 = .wait := by
  obtain ⟨done, todo, hsplit, _, _, hrest, hshort⟩ := feed_codewords hws hcs
  cases todo with
  | nil =>
      have hnil : (D.feed [] cs).2 = [] := by simpa using hrest
      rw [hnil]
      exact look_nil
  | cons w todo =>
      have hw := hws w (by rw [hsplit]; simp)
      have hlt := hshort w rfl
      rw [wordsOf_cons] at hrest
      exact hw.waits _ (List.prefix_of_prefix_length_le hrest (List.prefix_append _ _) hlt.le) hlt

/-- Once all codewords have arrived, all labels are emitted and nothing is left. -/
theorem feed_all_codewords {ws : List (β × List α)}
    (hws : ∀ w, w ∈ ws → D.Codeword w.1 w.2) {cs : List (List α)}
    (hcs : cs.flatten = wordsOf ws) :
    D.feed [] cs = (ws.map Prod.fst, []) := by
  have hpre : cs.flatten <+: wordsOf ws := by rw [hcs]
  obtain ⟨done, todo, rfl, hfst, hcut, _, hshort⟩ := feed_codewords hws hpre
  rw [hcs, wordsOf_append, List.append_cancel_left_eq] at hcut
  cases todo with
  | nil =>
      rw [wordsOf_nil] at hcut
      rw [Prod.ext_iff, hfst, ← hcut]
      simp
  | cons w todo =>
      have hlt := hshort w rfl
      rw [← hcut, wordsOf_cons, List.length_append] at hlt
      omega

/-- The reference decoding of a concatenation of codewords. -/
theorem decode_codewords {ws : List (β × List α)}
    (hws : ∀ w, w ∈ ws → D.Codeword w.1 w.2) :
    D.decode (wordsOf ws) = ws.map Prod.fst := by
  have hone : [wordsOf ws].flatten = wordsOf ws := List.flatten_singleton
  have hpath := feed_path (D := D) [] [wordsOf ws]
  rw [feed_all_codewords hws hone, List.nil_append, hone] at hpath
  rw [hpath.decode_eq, decode_of_wait look_nil, List.append_nil]

end Decoder

end Lib
end CRpc
