import Mathlib.Data.Nat.Basic

/-!
# Loops that may go on for ever

A loop is given by its round: from a state the round ends the loop with a result, or the
loop goes on in another state. `loop round n s` are at most `n` rounds, and `Halts` says
that some number of rounds is enough. A measure that every round makes smaller bounds the
number of rounds; a property of states that always leads to another round, and holds
there again, shows that the loop never ends.
-/

set_option autoImplicit false

namespace MaerOS.Lib

section Loop

variable {σ α : Type} (round : σ → α ⊕ σ)

/-- At most `n` rounds, from the state `s` on. -/
def loop : ℕ → σ → Option α
  | 0, _ => none
  | n + 1, s =>
    match round s with
    | .inl a => some a
    | .inr s' => loop n s'

/-- The loop comes to an end. -/
def Halts (s : σ) : Prop := ∃ n a, loop round n s = some a

variable {round}

theorem loop_done {s : σ} {a : α} (h : round s = .inl a) (n : ℕ) :
    loop round (n + 1) s = some a := by
  unfold loop
  rw [h]

theorem loop_next {s s' : σ} (h : round s = .inr s') (n : ℕ) :
    loop round (n + 1) s = loop round n s' := by
  rw [loop, h]

/-- More rounds than enough do no harm. -/
theorem loop_mono {n m : ℕ} {s : σ} {a : α} (h : loop round n s = some a) (hnm : n ≤ m) :
    loop round m s = some a := by
  induction n generalizing m s with
  | zero => cases h
  | succ n ih =>
    obtain ⟨m, rfl⟩ : ∃ m', m = m' + 1 := ⟨m - 1, by omega⟩
    cases hround : round s with
    | inl b =>
      rw [loop_done hround] at h ⊢
      exact h
    | inr s' =>
      rw [loop_next hround] at h ⊢
      exact ih h (by omega)

/-- **Measure rule.** A loop whose rounds make `μ` smaller ends within `μ s + 1` rounds. -/
theorem loop_of_measure (μ : σ → ℕ) (hμ : ∀ s s', round s = .inr s' → μ s' < μ s) (n : ℕ) :
    ∀ s, μ s < n → ∃ a, loop round n s = some a := by
  induction n with
  | zero =>
    intro s hs
    omega
  | succ n ih =>
    intro s hs
    cases hround : round s with
    | inl a => exact ⟨a, loop_done hround n⟩
    | inr s' =>
      rw [loop_next hround]
      have hless := hμ s s' hround
      exact ih s' (by omega)

/-- **Divergence rule.** A loop that always goes on to a state with the property `I` again does not
end. -/
theorem not_halts_of_invariant {I : σ → Prop}
    (hI : ∀ s, I s → ∃ s', round s = .inr s' ∧ I s') {s : σ} (hs : I s) : ¬ Halts round s := by
  rintro ⟨n, a, hn⟩
  induction n generalizing s with
  | zero => cases hn
  | succ n ih =>
    obtain ⟨s', hround, hs'⟩ := hI s hs
    rw [loop_next hround] at hn
    exact ih hs' hn

end Loop

end MaerOS.Lib
