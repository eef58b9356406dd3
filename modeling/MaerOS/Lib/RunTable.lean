import Mathlib.Data.List.Pairwise
import Mathlib.Data.List.Perm.Basic
import Mathlib.Tactic.Ring

/-!
# Tables laid out as disjoint runs

A table is an array of entries indexed by the integers, of which `[0, total)` is
in use. A *run* `(b, n)` is the block of `n` consecutive indices from `b`; an
encoding `enc n j` says what the `j`-th entry of a run of length `n` holds, and
`free` is what an entry outside every run holds. `Layout` says that a table is
exactly the picture of a list of pairwise disjoint runs.

Two operations move between pictures: `fill` writes one run, `clear` wipes an
interval. `Layout.fill` and `Layout.clear` are the only two facts an allocator
over such a table needs, and `clear_fill` says the second undoes the first.
-/

set_option autoImplicit false

namespace MaerOS.Lib

section RunTable

variable {E : Type} (free : E) (enc : ℕ → ℕ → E)

/-- Index `i` lies in the run `r = (b, n)`. -/
def Covers (r : ℕ × ℕ) (i : ℕ) : Prop := r.1 ≤ i ∧ i < r.1 + r.2

instance (r : ℕ × ℕ) (i : ℕ) : Decidable (Covers r i) :=
  inferInstanceAs (Decidable (_ ∧ _))

/-- Two runs share no index. -/
def Apart (r s : ℕ × ℕ) : Prop := r.1 + r.2 ≤ s.1 ∨ s.1 + s.2 ≤ r.1

/-- Being apart does not depend on the order of the two runs. -/
theorem Apart.symm {r s : ℕ × ℕ} (h : Apart r s) : Apart s r := Or.symm h

/-- The table `e` is the picture of the runs `runs` on `[0, total)`. -/
structure Layout (total : ℕ) (e : ℤ → E) (runs : List (ℕ × ℕ)) : Prop where
  /-- Every run has at least one entry. -/
  pos : ∀ r ∈ runs, 1 ≤ r.2
  /-- Every run ends inside the table. -/
  inside : ∀ r ∈ runs, r.1 + r.2 ≤ total
  /-- No two runs share an index. -/
  apart : runs.Pairwise Apart
  /-- Each run is encoded entry by entry. -/
  entry : ∀ r ∈ runs, ∀ j < r.2, e ((r.1 + j : ℕ) : ℤ) = enc r.2 j
  /-- Everything else in the table is free. -/
  rest : ∀ i < total, (∀ r ∈ runs, ¬ Covers r i) → e (i : ℤ) = free

/-- Write a run of `n` entries from `b` on. -/
def fill (e : ℤ → E) (b : ℤ) (n : ℕ) : ℤ → E := fun i =>
  if b ≤ i ∧ i < b + n then enc n (i - b).toNat else e i

/-- Wipe the `n` entries from `b` on. -/
def clear (e : ℤ → E) (b : ℤ) (n : ℕ) : ℤ → E := fun i =>
  if b ≤ i ∧ i < b + n then free else e i

/-- All `n` entries from `b` on are free. -/
def FreeRun (e : ℤ → E) (b n : ℕ) : Prop := ∀ j < n, e ((b + j : ℕ) : ℤ) = free

variable {free enc} {total : ℕ} {e : ℤ → E} {runs : List (ℕ × ℕ)} {b n : ℕ}

/-- Inside the run, `fill` holds the encoding. -/
theorem fill_inside {j : ℕ} (hj : j < n) : fill enc e b n ((b + j : ℕ) : ℤ) = enc n j := by
  unfold fill
  rw [if_pos (by omega)]
  congr 1
  omega

/-- Outside the run, `fill` changes nothing. -/
theorem fill_outside {b i : ℤ} (hi : i < b ∨ b + n ≤ i) : fill enc e b n i = e i := by
  unfold fill
  rw [if_neg (by omega)]

/-- Inside the interval, `clear` holds the free entry. -/
theorem clear_inside {b i : ℤ} (hlo : b ≤ i) (hhi : i < b + n) : clear free e b n i = free := by
  unfold clear
  rw [if_pos ⟨hlo, hhi⟩]

/-- Outside the interval, `clear` changes nothing. -/
theorem clear_outside {b i : ℤ} (hi : i < b ∨ b + n ≤ i) : clear free e b n i = e i := by
  unfold clear
  rw [if_neg (by omega)]

/-- An index that no run covers is free, and a covered one holds its run's encoding:
the value of a table is determined by its runs. -/
theorem Layout.covered (h : Layout free enc total e runs) {r : ℕ × ℕ} (hr : r ∈ runs) {i : ℕ}
    (hi : Covers r i) : e (i : ℤ) = enc r.2 (i - r.1) := by
  obtain ⟨hlo, hhi⟩ := hi
  have hentry := h.entry r hr (i - r.1) (by omega)
  rwa [Nat.add_sub_cancel' hlo] at hentry

/-- Where the encoding is never the free entry, a free index is covered by no run. -/
theorem Layout.not_covers_of_free (h : Layout free enc total e runs)
    (henc : ∀ n j, enc n j ≠ free) {i : ℕ} (hi : e (i : ℤ) = free) :
    ∀ r ∈ runs, ¬ Covers r i := by
  intro r hr hc
  exact henc r.2 (i - r.1) ((h.covered hr hc).symm.trans hi)

/-- A free interval is apart from every run. -/
theorem Layout.apart_of_freeRun (h : Layout free enc total e runs)
    (henc : ∀ n j, enc n j ≠ free) (hn : 1 ≤ n) (hfree : FreeRun free e b n) :
    ∀ r ∈ runs, Apart (b, n) r := by
  intro r hr
  have hpos := h.pos r hr
  by_contra hna
  unfold Apart at hna
  -- the larger of the two starts is in both intervals
  have hmem : Covers r (max b r.1) := by
    unfold Covers
    constructor
    · exact le_max_right _ _
    · simp only [not_or, not_le] at hna
      rcases Nat.le_total b r.1 with hle | hle
      · rw [max_eq_right hle]
        omega
      · rw [max_eq_left hle]
        omega
  have hfr := hfree (max b r.1 - b) (by
    simp only [not_or, not_le] at hna
    rcases Nat.le_total b r.1 with hle | hle
    · rw [max_eq_right hle]
      omega
    · rw [max_eq_left hle]
      omega)
  rw [Nat.add_sub_cancel' (le_max_left _ _)] at hfr
  exact h.not_covers_of_free henc hfr r hr hmem

/-- **Allocation step.** Writing a run over a free interval adds that run to the picture. -/
theorem Layout.fill (h : Layout free enc total e runs) (henc : ∀ n j, enc n j ≠ free)
    (hn : 1 ≤ n) (hin : b + n ≤ total) (hfree : FreeRun free e b n) :
    Layout free enc total (fill enc e b n) ((b, n) :: runs) := by
  have hapart := h.apart_of_freeRun henc hn hfree
  refine ⟨?_, ?_, ?_, ?_, ?_⟩
  · intro r hr
    rcases List.mem_cons.mp hr with rfl | hr
    · exact hn
    · exact h.pos r hr
  · intro r hr
    rcases List.mem_cons.mp hr with rfl | hr
    · exact hin
    · exact h.inside r hr
  · exact List.pairwise_cons.mpr ⟨hapart, h.apart⟩
  · intro r hr j hj
    rcases List.mem_cons.mp hr with rfl | hr
    · exact fill_inside hj
    · rw [fill_outside, h.entry r hr j hj]
      have := hapart r hr
      unfold Apart at this
      dsimp only at this
      omega
  · intro i hi hnone
    have hout : ¬ Covers (b, n) i := hnone (b, n) List.mem_cons_self
    rw [fill_outside]
    · exact h.rest i hi fun r hr => hnone r (List.mem_cons_of_mem _ hr)
    · unfold Covers at hout
      dsimp only at hout
      omega

/-- **Release step.** Wiping a run of the picture takes it out and leaves the others. -/
theorem Layout.clear (h : Layout free enc total e ((b, n) :: runs)) :
    Layout free enc total (clear free e b n) runs := by
  have hapart := (List.pairwise_cons.mp h.apart).1
  refine ⟨fun r hr => h.pos r (List.mem_cons_of_mem _ hr),
    fun r hr => h.inside r (List.mem_cons_of_mem _ hr), (List.pairwise_cons.mp h.apart).2, ?_, ?_⟩
  · intro r hr j hj
    rw [clear_outside, h.entry r (List.mem_cons_of_mem _ hr) j hj]
    have := hapart r hr
    unfold Apart at this
    dsimp only at this
    omega
  · intro i hi hnone
    by_cases hc : Covers (b, n) i
    · obtain ⟨hlo, hhi⟩ := hc
      exact clear_inside (by exact_mod_cast hlo) (by exact_mod_cast hhi)
    · rw [clear_outside]
      · refine h.rest i hi fun r hr => ?_
        rcases List.mem_cons.mp hr with rfl | hr
        · exact hc
        · exact hnone r hr
      · unfold Covers at hc
        dsimp only at hc
        omega

/-- The order in which the runs are listed does not matter. -/
theorem Layout.perm {runs' : List (ℕ × ℕ)} (h : Layout free enc total e runs)
    (hp : runs.Perm runs') : Layout free enc total e runs' := by
  refine ⟨fun r hr => h.pos r (hp.mem_iff.mpr hr), fun r hr => h.inside r (hp.mem_iff.mpr hr),
    (hp.pairwise_iff fun hab => Apart.symm hab).mp h.apart,
    fun r hr => h.entry r (hp.mem_iff.mpr hr), ?_⟩
  intro i hi hnone
  exact h.rest i hi fun r hr => hnone r (hp.mem_iff.mp hr)

/-- A table with no run is free throughout. -/
theorem Layout.nil (h : ∀ i < total, e ((i : ℕ) : ℤ) = free) : Layout free enc total e [] :=
  ⟨by simp, by simp, List.Pairwise.nil, by simp, fun i hi _ => h i hi⟩

/-- The picture only looks at the entries of the table. -/
theorem Layout.congr {e' : ℤ → E} (h : Layout free enc total e runs)
    (hagree : ∀ i < total, e' ((i : ℕ) : ℤ) = e (i : ℤ)) : Layout free enc total e' runs := by
  refine ⟨h.pos, h.inside, h.apart, ?_, ?_⟩
  · intro r hr j hj
    have hin := h.inside r hr
    rw [hagree _ (by omega), h.entry r hr j hj]
  · intro i hi hnone
    rw [hagree i hi, h.rest i hi hnone]

/-- Wiping a run just written over a free interval gives the table back. -/
theorem clear_fill (hfree : FreeRun free e b n) : Lib.clear free (Lib.fill enc e b n) b n = e := by
  funext i
  by_cases hi : (b : ℤ) ≤ i ∧ i < b + n
  · rw [clear_inside hi.1 hi.2]
    have := hfree (i - b).toNat (by omega)
    rw [show ((b + (i - b).toNat : ℕ) : ℤ) = i from by omega] at this
    exact this.symm
  · rw [clear_outside (by omega), fill_outside (by omega)]

end RunTable

end MaerOS.Lib
