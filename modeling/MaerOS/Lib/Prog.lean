import Mathlib.Data.List.Basic
import Mathlib.Tactic.Ring

/-!
# Partial state programs and their Hoare rules

A partial program over a state `σ` is a `StateT σ Option`: it either has no
outcome or ends with a value and a new state. `prog_bind` and `prog_pure` take a
finished run apart, one step at a time. `Triple P m Q` is partial correctness:
from a state that satisfies `P`, wherever `m` ends, its value and the new state
satisfy `Q`. The rules below cover sequencing, branching and the two kinds of
loop over a list. `endingWith u r` is the outcome `r` with the state changed by `u`,
for programs of which one does what the other does and something more.
-/

set_option autoImplicit false

namespace MaerOS.Lib

section Prog

variable {σ α β ι : Type}

/-! ## Taking a run apart -/

/-- A sequence ends exactly when its first part ends and then its second. -/
theorem prog_bind {m : StateT σ Option α} {f : α → StateT σ Option β} {s s' : σ} {b : β} :
    (m >>= f) s = some (b, s') ↔ ∃ a s₁, m s = some (a, s₁) ∧ f a s₁ = some (b, s') := by
  show (m s).bind (fun p => f p.1 p.2) = some (b, s') ↔ _
  rw [Option.bind_eq_some_iff]
  constructor
  · rintro ⟨⟨a, s₁⟩, hm, hf⟩
    exact ⟨a, s₁, hm, hf⟩
  · rintro ⟨a, s₁, hm, hf⟩
    exact ⟨(a, s₁), hm, hf⟩

/-- A sequence whose first part is known to end goes on with its second. -/
theorem bind_of_some {m : StateT σ Option α} {s s₁ : σ} {a : α} (h : m s = some (a, s₁))
    (f : α → StateT σ Option β) : (m >>= f) s = f a s₁ := by
  show (m s).bind (fun p => f p.1 p.2) = _
  rw [h]
  rfl

/-- Reading the state and going on. -/
theorem bind_get (f : σ → StateT σ Option β) (s : σ) :
    ((get : StateT σ Option σ) >>= f) s = f s s := rfl

/-- `pure` ends at once, with the state unchanged. -/
theorem prog_pure {a b : α} {s s' : σ} :
    (pure a : StateT σ Option α) s = some (b, s') ↔ a = b ∧ s = s' := by
  show some (a, s) = some (b, s') ↔ _
  rw [Option.some.injEq, Prod.mk.injEq]

/-- `get` ends at once with the state as its value. -/
theorem prog_get {s s' t : σ} :
    (get : StateT σ Option σ) s = some (t, s') ↔ s = t ∧ s = s' := by
  show some (s, s) = some (t, s') ↔ _
  rw [Option.some.injEq, Prod.mk.injEq]

/-- One round of a loop over a list. -/
theorem forM_cons_eq (body : ι → StateT σ Option Unit) (i : ι) (l : List ι) :
    (i :: l).forM body = (body i >>= fun _ => l.forM body) := by
  rfl

/-- A loop ends if every round does, from all the states that the rounds before can lead to. -/
theorem forM_total {P : σ → Prop} {R : σ → σ → Prop} {body : ι → StateT σ Option Unit}
    (hrefl : ∀ s, R s s) (htrans : ∀ {s₁ s₂ s₃}, R s₁ s₂ → R s₂ s₃ → R s₁ s₃)
    (hkeep : ∀ {s s'}, P s → R s s' → P s')
    (h : ∀ i s, P s → ∃ s', body i s = some ((), s') ∧ R s s') (l : List ι) :
    ∀ s, P s → ∃ s', l.forM body s = some ((), s') ∧ R s s' := by
  induction l with
  | nil => exact fun s _ => ⟨s, rfl, hrefl s⟩
  | cons i l ih =>
    intro s hs
    obtain ⟨s₁, h₁, hr₁⟩ := h i s hs
    obtain ⟨s₂, h₂, hr₂⟩ := ih s₁ (hkeep hs hr₁)
    refine ⟨s₂, ?_, htrans hr₁ hr₂⟩
    rw [forM_cons_eq, bind_of_some h₁]
    exact h₂

/-! ## Partial correctness -/

/-- From a state in `P`, wherever `m` ends, value and state are in `Q`. -/
def Triple (P : σ → Prop) (m : StateT σ Option α) (Q : α → σ → Prop) : Prop :=
  ∀ s, P s → ∀ a s', m s = some (a, s') → Q a s'

variable {P : σ → Prop} {Q : α → σ → Prop} {R : β → σ → Prop}

/-- Sequencing. -/
theorem Triple.bind {m : StateT σ Option α} {f : α → StateT σ Option β} (hm : Triple P m Q)
    (hf : ∀ a, Triple (Q a) (f a) R) : Triple P (m >>= f) R := by
  intro s hs b s' hrun
  obtain ⟨a, s₁, h₁, h₂⟩ := prog_bind.mp hrun
  exact hf a s₁ (hm s hs a s₁ h₁) b s' h₂

/-- Sequencing, where the first part keeps the state condition and says something of its value. -/
theorem Triple.bind_fact {φ : α → Prop} {m : StateT σ Option α} {f : α → StateT σ Option β}
    (hm : Triple P m fun a s => φ a ∧ P s) (hf : ∀ a, φ a → Triple P (f a) R) :
    Triple P (m >>= f) R := by
  intro s hs b s' hrun
  obtain ⟨a, s₁, h₁, h₂⟩ := prog_bind.mp hrun
  obtain ⟨ha, hs₁⟩ := hm s hs a s₁ h₁
  exact hf a ha s₁ hs₁ b s' h₂

/-- No outcome. -/
theorem Triple.failure : Triple P (failure : StateT σ Option α) Q := by
  intro s _ a s' hrun
  cases hrun

/-- Returning a value. -/
theorem Triple.pure {a : α} (h : ∀ s, P s → Q a s) : Triple P (pure a) Q := by
  intro s hs b s' hrun
  obtain ⟨rfl, rfl⟩ := prog_pure.mp hrun
  exact h s hs

/-- Weakening the postcondition and strengthening the precondition. -/
theorem Triple.conseq {P' : σ → Prop} {Q' : α → σ → Prop} {m : StateT σ Option α}
    (h : Triple P m Q) (hP : ∀ s, P' s → P s) (hQ : ∀ a s, Q a s → Q' a s) : Triple P' m Q' :=
  fun s hs a s' hrun => hQ a s' (h s (hP s hs) a s' hrun)

/-- Branching. -/
theorem Triple.ite {c : Prop} [Decidable c] {m m' : StateT σ Option α}
    (hm : c → Triple P m Q) (hm' : ¬ c → Triple P m' Q) : Triple P (if c then m else m') Q := by
  split
  · exact hm ‹c›
  · exact hm' ‹¬ c›

/-- Reading the state. -/
theorem Triple.get {Q : σ → σ → Prop} (h : ∀ s, P s → Q s s) :
    Triple P (get : StateT σ Option σ) Q := by
  intro s hs t s' hrun
  obtain ⟨rfl, rfl⟩ := prog_get.mp hrun
  exact h s hs

/-- A loop whose rounds all keep `P` keeps `P`. -/
theorem Triple.forM {body : ι → StateT σ Option Unit} (l : List ι)
    (h : ∀ i ∈ l, Triple P (body i) fun _ => P) : Triple P (l.forM body) fun _ => P := by
  induction l with
  | nil => exact Triple.pure fun s hs => hs
  | cons i l ih =>
    rw [forM_cons_eq]
    exact (h i List.mem_cons_self).bind fun _ =>
      ih fun j hj => h j (List.mem_cons_of_mem _ hj)

/-- A loop that carries a value: what the rounds keep of the value and the state holds at the
end. -/
theorem Triple.foldlM {body : α → ι → StateT σ Option α} (l : List ι)
    (h : ∀ a, ∀ i ∈ l, Triple (Q a) (body a i) Q) : ∀ a, Triple (Q a) (l.foldlM body a) Q := by
  induction l with
  | nil =>
    intro a
    exact Triple.pure fun s hs => hs
  | cons i l ih =>
    intro a
    rw [List.foldlM_cons]
    exact (h a i List.mem_cons_self).bind fun b =>
      ih (fun c j hj => h c j (List.mem_cons_of_mem _ hj)) b

/-! ## Two programs that end in states of which one is the other changed -/

/-- The outcome `r`, with the change `u` made to the state at the end. -/
def endingWith (u : σ → σ) (r : Option (α × σ)) : Option (α × σ) := r.map fun p => (p.1, u p.2)

/-- An outcome is the one without the change, from some state. -/
theorem endingWith_eq_some {u : σ → σ} {r : Option (α × σ)} {a : α} {s : σ} :
    endingWith u r = some (a, s) ↔ ∃ s₁, r = some (a, s₁) ∧ u s₁ = s := by
  unfold endingWith
  rw [Option.map_eq_some_iff]
  constructor
  · rintro ⟨⟨a', s₁⟩, hr, heq⟩
    cases heq
    exact ⟨s₁, hr, rfl⟩
  · rintro ⟨s₁, hr, rfl⟩
    exact ⟨(a, s₁), hr, rfl⟩

/-- No change at all. -/
theorem endingWith_id (r : Option (α × σ)) : endingWith id r = r := by
  cases r <;> rfl

/-- The programs begin alike. -/
theorem bind_endingWith {u : σ → σ} {m : StateT σ Option α} {f f' : α → StateT σ Option β} {s : σ}
    (h : ∀ a s₁, m s = some (a, s₁) → f' a s₁ = endingWith u (f a s₁)) :
    (m >>= f') s = endingWith u ((m >>= f) s) := by
  show (m s).bind (fun p => f' p.1 p.2) = endingWith u ((m s).bind fun p => f p.1 p.2)
  cases hm : m s with
  | none => rfl
  | some r => exact h r.1 r.2 hm

/-- The change is made early, and what follows does not look at what has changed. -/
theorem endingWith_bind {u : σ → σ} {m m' : StateT σ Option α} {f : α → StateT σ Option β}
    {s s' : σ} (hm : m' s' = endingWith u (m s))
    (h : ∀ a s₁, m s = some (a, s₁) → f a (u s₁) = endingWith u (f a s₁)) :
    (m' >>= f) s' = endingWith u ((m >>= f) s) := by
  show (m' s').bind (fun p => f p.1 p.2) = endingWith u ((m s).bind fun p => f p.1 p.2)
  rw [hm]
  cases hr : m s with
  | none => rfl
  | some r => exact h r.1 r.2 hr

/-- Programs that begin alike and go on alike. -/
theorem bind_congr_outcome {m m' : StateT σ Option α} {f f' : α → StateT σ Option β} {s : σ}
    (hm : m' s = m s) (h : ∀ a s₁, m s = some (a, s₁) → f' a s₁ = f a s₁) :
    (m' >>= f') s = (m >>= f) s := by
  show (m' s).bind (fun p => f' p.1 p.2) = (m s).bind fun p => f p.1 p.2
  rw [hm]
  cases hm : m s with
  | none => rfl
  | some r => exact h r.1 r.2 hm

end Prog

end MaerOS.Lib
