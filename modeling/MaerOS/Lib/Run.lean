import Mathlib.Data.List.Basic

/-!
# Runs of a transition function

A system is a state type, a type of operations and a step. `run` carries out a
list of operations, `Along` says that a condition on a state and the next
operation holds at every step of such a run, and the two rules say that a
property which every step preserves, under that condition, holds wherever the run
gets to. The partial form is for steps that may have no outcome.
-/

set_option autoImplicit false

namespace MaerOS.Lib

section Total

variable {σ ο : Type} (step : σ → ο → σ) (C : σ → ο → Prop)

/-- Carry out the operations from left to right. -/
def run (s : σ) (ops : List ο) : σ := ops.foldl step s

/-- Every operation of the run meets the condition in the state it is carried out in. -/
def Along : σ → List ο → Prop
  | _, [] => True
  | s, o :: ops => C s o ∧ Along (step s o) ops

variable {step C}

/-- The run without an operation. -/
theorem run_nil (s : σ) : run step s [] = s := rfl

/-- **Invariant rule.** What every step preserves holds at the end of every run. -/
theorem run_invariant {I : σ → Prop}
    (hstep : ∀ s o, I s → C s o → I (step s o)) :
    ∀ (ops : List ο) (s : σ), I s → Along step C s ops → I (run step s ops) := by
  intro ops
  induction ops with
  | nil =>
    intro s hs _
    exact hs
  | cons o ops ih =>
    rintro s hs ⟨ho, hrest⟩
    exact ih (step s o) (hstep s o hs ho) hrest

/-- A condition met along a run may be weakened. -/
theorem Along.imp {C' : σ → ο → Prop} (himp : ∀ s o, C s o → C' s o) :
    ∀ {ops : List ο} {s : σ}, Along step C s ops → Along step C' s ops
  | [], _, _ => trivial
  | _ :: _, _, ⟨ho, hrest⟩ => ⟨himp _ _ ho, hrest.imp himp⟩

/-- A condition is met along a run exactly if it is met along the two parts of it. -/
theorem along_append : ∀ {ops ops' : List ο} {s : σ}, Along step C s (ops ++ ops') ↔
    Along step C s ops ∧ Along step C (run step s ops) ops'
  | [], _, _ => by simp [Along, run_nil]
  | o :: ops, ops', s => by
    have ih : Along step C (step s o) (ops ++ ops') ↔ _ := along_append
    simp only [List.cons_append, Along, ih, and_assoc]
    rfl

/-- Two conditions met along a run are met together along it. -/
theorem Along.and {C' : σ → ο → Prop} : ∀ {ops : List ο} {s : σ}, Along step C s ops →
    Along step C' s ops → Along step (fun s o => C s o ∧ C' s o) s ops
  | [], _, _, _ => trivial
  | _ :: _, _, ⟨ho, hrest⟩, ⟨ho', hrest'⟩ => ⟨⟨ho, ho'⟩, hrest.and hrest'⟩

/-- A condition met along a run is met along every initial part of it. -/
theorem Along.take : ∀ (ops : List ο) (s : σ) (k : ℕ), Along step C s ops →
    Along step C s (ops.take k) := by
  intro ops
  induction ops with
  | nil =>
    intro s k _
    rw [List.take_nil]
    trivial
  | cons o ops ih =>
    rintro s k ⟨ho, hrest⟩
    cases k with
    | zero => trivial
    | succ k => exact ⟨ho, ih (step s o) k hrest⟩

/-- What a step establishes exactly when the operation meets the condition holds all along a run
exactly when all operations meet it. -/
theorem run_always_iff {I : σ → Prop} (hstep : ∀ s o, I s → (I (step s o) ↔ C s o)) :
    ∀ (ops : List ο) (s : σ), I s →
      ((∀ k, I (run step s (ops.take k))) ↔ Along step C s ops) := by
  intro ops
  induction ops with
  | nil =>
    intro s hs
    refine iff_of_true (fun k => ?_) trivial
    rw [List.take_nil]
    exact hs
  | cons o ops ih =>
    intro s hs
    constructor
    · intro h
      have h₁ : I (step s o) := h 1
      exact ⟨(hstep s o hs).mp h₁, (ih _ h₁).mp fun k => h (k + 1)⟩
    · rintro ⟨ho, hrest⟩ k
      cases k with
      | zero => exact hs
      | succ k => exact (ih _ ((hstep s o hs).mpr ho)).mpr hrest k

/-- What holds after a step exactly when it held before and the operation meets the condition holds
at the end of a run exactly when it held at the start and all operations meet it. -/
theorem run_iff_along {I J : σ → Prop} (hJ : ∀ s o, J s → J (step s o))
    (hstep : ∀ s o, J s → (I (step s o) ↔ I s ∧ C s o)) :
    ∀ (ops : List ο) (s : σ), J s → (I (run step s ops) ↔ I s ∧ Along step C s ops) := by
  intro ops
  induction ops with
  | nil =>
    intro s _
    exact (and_iff_left trivial).symm
  | cons o ops ih =>
    intro s hs
    have h := ih (step s o) (hJ s o hs)
    rw [hstep s o hs, and_assoc] at h
    exact h

end Total

section Partial

variable {σ ο : Type} (step : σ → ο → Option σ) (C : σ → ο → Prop)

/-- Carry out the operations from left to right; no outcome if one of them has none. -/
def runPartial (s : σ) (ops : List ο) : Option σ := ops.foldlM step s

/-- Every operation of the run meets the condition in the state it is carried out in. -/
def AlongPartial : σ → List ο → Prop
  | _, [] => True
  | s, o :: ops => C s o ∧ ∀ s', step s o = some s' → AlongPartial s' ops

variable {step C}

/-- A run of at least one operation carries out the first one and then the others. -/
theorem runPartial_cons (s : σ) (o : ο) (ops : List ο) :
    runPartial step s (o :: ops) = (step s o).bind fun s' => runPartial step s' ops := by
  simp [runPartial, List.foldlM_cons]

/-- Following a run, one known step after the other. -/
theorem runPartial_step {s s₁ : σ} {o : ο} (h : step s o = some s₁) (ops : List ο) :
    runPartial step s (o :: ops) = runPartial step s₁ ops := by
  rw [runPartial_cons, h, Option.bind_some]

/-- Checking a condition along a run, one known step after the other. -/
theorem AlongPartial.cons {s s₁ : σ} {o : ο} {ops : List ο} (hm : C s o)
    (h : step s o = some s₁) (hrest : AlongPartial step C s₁ ops) :
    AlongPartial step C s (o :: ops) := by
  refine ⟨hm, fun s' hs' => ?_⟩
  rw [h, Option.some.injEq] at hs'
  exact hs' ▸ hrest

/-- A condition on the operations alone is met along every run of operations that satisfy it. -/
theorem alongPartial_of_forall {p : ο → Prop} : ∀ {ops : List ο} {s : σ}, (∀ o ∈ ops, p o) →
    AlongPartial step (fun _ o => p o) s ops
  | [], _, _ => trivial
  | _ :: _, _, h =>
    ⟨h _ List.mem_cons_self, fun _ _ =>
      alongPartial_of_forall fun o ho => h o (List.mem_cons_of_mem _ ho)⟩

/-- Two conditions met along a run are met together along it. -/
theorem AlongPartial.and {C' : σ → ο → Prop} : ∀ {ops : List ο} {s : σ},
    AlongPartial step C s ops → AlongPartial step C' s ops →
    AlongPartial step (fun s o => C s o ∧ C' s o) s ops
  | [], _, _, _ => trivial
  | _ :: _, _, ⟨ho, hrest⟩, ⟨ho', hrest'⟩ =>
    ⟨⟨ho, ho'⟩, fun s' hs' => (hrest s' hs').and (hrest' s' hs')⟩

/-- A condition met along two runs, one after the other. -/
theorem AlongPartial.of_append : ∀ (ops : List ο) {ops' : List ο} {s : σ},
    AlongPartial step C s (ops ++ ops') → AlongPartial step C s ops ∧
      ∀ s', runPartial step s ops = some s' → AlongPartial step C s' ops' := by
  intro ops
  induction ops with
  | nil =>
    intro ops' s h
    refine ⟨trivial, fun s' hs' => ?_⟩
    cases hs'
    exact h
  | cons o ops ih =>
    rintro ops' s ⟨ho, hrest⟩
    refine ⟨⟨ho, fun s₁ hs₁ => (ih (hrest s₁ hs₁)).1⟩, fun s' hs' => ?_⟩
    rw [runPartial_cons, Option.bind_eq_some_iff] at hs'
    obtain ⟨s₁, hs₁, hs'⟩ := hs'
    exact (ih (hrest s₁ hs₁)).2 s' hs'

/-- The other way round, for a first run whose outcome is known. -/
theorem AlongPartial.append : ∀ (ops : List ο) {ops' : List ο} {s s' : σ},
    AlongPartial step C s ops → runPartial step s ops = some s' →
    AlongPartial step C s' ops' → AlongPartial step C s (ops ++ ops') := by
  intro ops
  induction ops with
  | nil =>
    intro ops' s s' _ hrun h'
    cases hrun
    exact h'
  | cons o ops ih =>
    rintro ops' s s' ⟨ho, hrest⟩ hrun h'
    rw [runPartial_cons, Option.bind_eq_some_iff] at hrun
    obtain ⟨s₁, hs₁, hrun⟩ := hrun
    exact .cons ho hs₁ (ih (hrest s₁ hs₁) hrun h')

/-- Two runs, one after the other. -/
theorem runPartial_append (s : σ) (ops ops' : List ο) :
    runPartial step s (ops ++ ops') =
      (runPartial step s ops).bind fun s' => runPartial step s' ops' := by
  unfold runPartial
  rw [List.foldlM_append]
  rfl

/-- **Invariant rule** for partial steps: what every step with an outcome preserves holds
wherever a run gets to. -/
theorem runPartial_invariant {I : σ → Prop}
    (hstep : ∀ s o s', I s → C s o → step s o = some s' → I s') :
    ∀ (ops : List ο) (s s' : σ), I s → AlongPartial step C s ops →
      runPartial step s ops = some s' → I s' := by
  intro ops
  induction ops with
  | nil =>
    intro s s' hs _ hrun
    cases hrun
    exact hs
  | cons o ops ih =>
    rintro s s' hs ⟨ho, hrest⟩ hrun
    rw [runPartial_cons, Option.bind_eq_some_iff] at hrun
    obtain ⟨s₁, hs₁, hrun⟩ := hrun
    exact ih s₁ s' (hstep s o s₁ hs ho hs₁) (hrest s₁ hs₁) hrun

end Partial

end MaerOS.Lib
