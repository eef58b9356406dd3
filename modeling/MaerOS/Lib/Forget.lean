import Mathlib.Control.Basic

/-!
# Forgetting a part of the state

A program may carry state that its results do not depend on: a cache, a cursor that is
set before every use. `Forgets m m'` says that `m`, which carries such a state, returns
from every state what `m'` returns without it. The rules follow the ways programs are
put together.
-/

set_option autoImplicit false

universe u

namespace MaerOS.Lib

variable {σ α β ι : Type u} {M : Type u → Type u} [Monad M]

/-- `m` returns what `m'` does, whatever the state is. -/
def Forgets (m : StateT σ M α) (m' : M α) : Prop := ∀ s, Prod.fst <$> m s = m'

/-- Branching, where the condition does not look at the state. -/
theorem Forgets.ite {c : Prop} [Decidable c] {m₁ m₂ : StateT σ M α} {m₁' m₂' : M α}
    (h₁ : c → Forgets m₁ m₁') (h₂ : ¬ c → Forgets m₂ m₂') :
    Forgets (if c then m₁ else m₂) (if c then m₁' else m₂') := by
  by_cases hc : c
  · rw [if_pos hc, if_pos hc]
    exact h₁ hc
  · rw [if_neg hc, if_neg hc]
    exact h₂ hc

variable [LawfulMonad M]

/-- Returning a value. -/
theorem Forgets.pure (a : α) : Forgets (pure a : StateT σ M α) (Pure.pure a) := by
  intro s
  show Prod.fst <$> (Pure.pure (a, s) : M (α × σ)) = _
  simp

/-- A program without the state, run beside it. -/
theorem Forgets.lift (m : M α) : Forgets (StateT.lift m : StateT σ M α) m := by
  intro s
  simp [StateT.lift]

/-- Sequencing. -/
theorem Forgets.bind {m : StateT σ M α} {m' : M α} {f : α → StateT σ M β} {f' : α → M β}
    (hm : Forgets m m') (hf : ∀ a, Forgets (f a) (f' a)) : Forgets (m >>= f) (m' >>= f') := by
  intro s
  show Prod.fst <$> (m s >>= fun r => f r.1 r.2) = _
  have hrest : (fun r : α × σ => Prod.fst <$> f r.1 r.2) = fun r => f' r.1 := by
    funext r
    exact hf r.1 r.2
  rw [map_bind, hrest, ← hm s, bind_map_left]

/-- A loop that carries a value. -/
theorem Forgets.foldlM {f : α → ι → StateT σ M α} {f' : α → ι → M α}
    (hf : ∀ a i, Forgets (f a i) (f' a i)) :
    ∀ (l : List ι) (a : α), Forgets (l.foldlM f a) (l.foldlM f' a) := by
  intro l
  induction l with
  | nil =>
    intro a
    exact Forgets.pure a
  | cons i l ih =>
    intro a
    rw [List.foldlM_cons, List.foldlM_cons]
    exact (hf a i).bind ih

end MaerOS.Lib
