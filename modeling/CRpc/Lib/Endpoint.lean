import CRpc.Lib.Machine

/-!
# The end of a byte stream

A party at one end of a stream in each direction.  Beside its own steps it takes
the results of its calls of `send` and `recv`; a positive result is the number
of symbols moved, any other result an error or the end of the stream.  The two
histories are the symbols it has handed over and those it was given.

`Endpoint.alone` lets the party run against any peer: whatever the calls return.

`Endpoint.Work` measures what such a party can do without further input: it is
finite between two receipts, and receipts do not give it anything new to send
that was not counted before.
-/

namespace CRpc
namespace Lib

universe u v w

/-- A party with states `σ`, own steps `ε` and symbols `α`. -/
structure Endpoint (σ : Type u) (ε : Type v) (α : Type w) where
  step : σ → ε → Option σ
  send : σ → Int → Option σ
  recv : σ → Int → List α → Option σ
  sent : σ → List α
  received : σ → List α
  step_history : ∀ {s e t}, step s e = some t → sent t = sent s ∧ received t = received s
  send_history : ∀ {s n t}, send s n = some t →
    (∃ out, sent t = sent s ++ out ∧ out.length = n.toNat) ∧ received t = received s
  recv_history : ∀ {s n bs t}, recv s n bs = some t →
    sent t = sent s ∧ received t = received s ++ bs ∧ bs.length = n.toNat

namespace Endpoint

variable {σ : Type u} {ε : Type v} {α : Type w}

/-- An own step of the party, or the result of one of its calls. -/
inductive Event (ε : Type v) (α : Type w) where
  | own (e : ε)
  | send (n : Int)
  | recv (n : Int) (bs : List α)

/-- The party in front of an arbitrary peer. -/
def alone (C : Endpoint σ ε α) : Machine σ (Event ε α) where
  step s
    | .own e => C.step s e
    | .send n => C.send s n
    | .recv n bs => C.recv s n bs

/-- Measures of the work a party has ahead. -/
structure Work (C : Endpoint σ ε α) where
  /-- The work that leads to symbols sent. -/
  ahead : σ → Nat
  /-- The work on the symbols received. -/
  rest : σ → Nat
  step_lt : ∀ {s e t}, C.step s e = some t →
    ahead t < ahead s ∨ (ahead t = ahead s ∧ rest t < rest s)
  send_lt : ∀ {s n t}, C.send s n = some t → 0 < n → ahead t < ahead s
  recv_eq : ∀ {s n bs t}, C.recv s n bs = some t → 0 < n → ahead t = ahead s

/-- The work of the rounds of a loop: one round less, and the one entered. -/
theorem roundsLeft_mul {i n : Nat} (h : i < n) (k : Nat) :
    (n - i) * k = (n - (i + 1)) * k + k := by
  rw [← Nat.succ_mul, Nat.succ_eq_add_one, show n - (i + 1) + 1 = n - i by omega]

end Endpoint

end Lib
end CRpc
