import CRpc.Lib.Decoder

/-!
# Readers that do not resynchronise

A strict reader of a stream follows the decoder while it emits and gives up at
the first skip.  `Emits` are its moves.

* `Emits.front_eq`: what a strict reader has delivered is the front of the
  stream, whatever follows.
* `Emits.codewords`: on a prefix of a concatenation of codewords it delivers
  the labels of the words it has passed.
* `look_ne_skip`: on such a prefix it never meets a skip.
-/

namespace CRpc
namespace Lib

universe u v

namespace Decoder

variable {α : Type u} {β : Type v}
variable (D : Decoder α β)

/-- Finitely many emissions: values delivered and input left unread. -/
inductive Emits : List α → List β → List α → Prop
  | refl (xs : List α) : Emits xs [] xs
  | emit {xs ys : List α} {b : β} {n : Nat} {bs : List β} :
      D.look xs = .emit b n →
      Emits (xs.drop n) bs ys →
      Emits xs (b :: bs) ys

variable {D}
variable {xs ys : List α} {bs : List β}

/-- One more emission. -/
theorem Emits.concat (h : D.Emits xs bs ys) {b : β} {n : Nat}
    (hlook : D.look ys = .emit b n) : D.Emits xs (bs ++ [b]) (ys.drop n) := by
  induction h with
  | refl xs => exact Emits.emit hlook (Emits.refl _)
  | emit hfirst _ ih => exact Emits.emit hfirst (ih hlook)

/-- Emissions on a prefix of the stream are emissions on the whole stream. -/
theorem Emits.append (h : D.Emits xs bs ys) (zs : List α) :
    D.Emits (xs ++ zs) bs (ys ++ zs) := by
  induction h with
  | refl xs => exact Emits.refl _
  | @emit xs ys b n bs hlook _ ih =>
      have hlook' : D.look (xs ++ zs) = .emit b n := by
        rw [D.look_append xs zs (by simp [hlook]), hlook]
      rw [← List.drop_append_of_le_length (D.emit_le xs b n hlook)] at ih
      exact Emits.emit hlook' ih

theorem Emits.front_eq (h : D.Emits xs bs ys) :
    D.front xs = (bs ++ (D.front ys).1, (D.front ys).2) := by
  induction h with
  | refl xs => rfl
  | emit hlook _ ih =>
      rw [front_of_emit hlook, ih]
      rfl

/-! ### Streams of codewords -/

/-- What the decoder sees on a prefix of a concatenation of codewords. -/
theorem look_codewords {w : β × List α} {ws : List (β × List α)}
    (hw : D.Codeword w.1 w.2) (hxs : xs <+: wordsOf (w :: ws)) :
    (xs.length < w.2.length ∧ D.look xs = .wait) ∨
      ∃ zs, xs = w.2 ++ zs ∧ zs <+: wordsOf ws ∧ D.look xs = .emit w.1 w.2.length := by
  rw [wordsOf_cons] at hxs
  rcases lt_or_ge xs.length w.2.length with hshort | hlong
  · have hpre : xs <+: w.2 :=
      List.prefix_of_prefix_length_le hxs (List.prefix_append _ _) hshort.le
    exact Or.inl ⟨hshort, hw.waits xs hpre hshort⟩
  · obtain ⟨zs, rfl⟩ : w.2 <+: xs :=
      List.prefix_of_prefix_length_le (List.prefix_append _ _) hxs hlong
    refine Or.inr ⟨zs, rfl, (List.prefix_append_right_inj w.2).mp hxs, ?_⟩
    rw [D.look_append w.2 zs (by simp [hw.emits]), hw.emits]

theorem look_ne_skip {ws : List (β × List α)} (hws : ∀ w, w ∈ ws → D.Codeword w.1 w.2)
    (hxs : xs <+: wordsOf ws) : D.look xs ≠ .skip := by
  cases ws with
  | nil =>
      have hnil : xs = [] := by simpa using hxs
      rw [hnil, look_nil]
      simp
  | cons w ws =>
      rcases look_codewords (hws w List.mem_cons_self) hxs with ⟨_, hlook⟩ | ⟨_, _, _, hlook⟩
      · simp [hlook]
      · simp [hlook]

theorem Emits.codewords (h : D.Emits xs bs ys) {ws : List (β × List α)}
    (hws : ∀ w, w ∈ ws → D.Codeword w.1 w.2) (hxs : xs <+: wordsOf ws) :
    ∃ done todo : List (β × List α), ws = done ++ todo ∧ bs = done.map Prod.fst ∧
      xs = wordsOf done ++ ys ∧ ys <+: wordsOf todo := by
  induction h generalizing ws with
  | refl xs => exact ⟨[], ws, rfl, rfl, rfl, hxs⟩
  | @emit xs ys b n bs hlook _ ih =>
      cases ws with
      | nil =>
          have hnil : xs = [] := by simpa using hxs
          rw [hnil, look_nil] at hlook
          cases hlook
      | cons w ws =>
          rcases look_codewords (hws w List.mem_cons_self) hxs with
            ⟨_, hwait⟩ | ⟨zs, rfl, hzs, hemit⟩
          · rw [hlook] at hwait
            cases hwait
          · -- the word at the front is the one emitted
            rw [hlook, Verdict.emit.injEq] at hemit
            obtain ⟨rfl, rfl⟩ := hemit
            rw [List.drop_left] at ih
            obtain ⟨done, todo, rfl, rfl, rfl, htodo⟩ :=
              ih (fun v hv => hws v (List.mem_cons_of_mem _ hv)) hzs
            exact ⟨w :: done, todo, rfl, rfl, by rw [wordsOf_cons, List.append_assoc], htodo⟩

end Decoder

end Lib
end CRpc
