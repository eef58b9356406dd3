import Mathlib.Order.BoundedOrder.Basic
import Mathlib.Order.Lattice
import Mathlib.Data.List.Basic
import Mathlib.Data.List.Induction

/-!
# The least and the greatest element of a list, with bottom for "none yet"

A loop looks for the element with the least key. It keeps the one it has and its key,
starts from the bottom of the order for the key, and takes bottom for "none yet" later
on as well. So an element whose key is bottom is forgotten again, unless it is the
last one. For the greatest key the same convention does no harm.
-/

set_option autoImplicit false

namespace MaerOS.Lib

section Extent

variable {α β : Type} [LinearOrder α] [OrderBot α] (key : β → α)

/-- One round of the search for the least key; `cur` is the element found so far. -/
def lowStep (cur : Option β) (x : β) : Option β :=
  match cur with
  | none => some x
  | some y => if key x ≤ key y ∨ key y = ⊥ then some x else some y

/-- One round of the search for the greatest key. -/
def highStep (cur : Option β) (x : β) : Option β :=
  match cur with
  | none => some x
  | some y => if key y ≤ key x ∨ key y = ⊥ then some x else some y

/-- The element that the search for the least key ends with. -/
def lowest (xs : List β) : Option β := xs.foldl (lowStep key) none

/-- The element that the search for the greatest key ends with. -/
def highest (xs : List β) : Option β := xs.foldl (highStep key) none

variable {key}

theorem lowest_concat (xs : List β) (x : β) :
    lowest key (xs ++ [x]) = lowStep key (lowest key xs) x := by
  simp [lowest, List.foldl_append]

theorem highest_concat (xs : List β) (x : β) :
    highest key (xs ++ [x]) = highStep key (highest key xs) x := by
  simp [highest, List.foldl_append]

/-- The search for the least key ends with an element of the list. -/
theorem lowest_mem (xs : List β) : ∀ y, lowest key xs = some y → y ∈ xs := by
  induction xs using List.reverseRecOn with
  | nil => simp [lowest]
  | append_singleton xs x ih =>
    intro y
    rw [lowest_concat]
    cases hcur : lowest key xs with
    | none =>
      rintro ⟨rfl⟩
      simp
    | some z =>
      simp only [lowStep]
      split_ifs
      · rintro ⟨rfl⟩
        simp
      · rintro ⟨rfl⟩
        exact List.mem_append_left _ (ih _ hcur)

theorem lowest_isSome {xs : List β} (h : xs ≠ []) : ∃ y, lowest key xs = some y := by
  obtain ⟨init, x, rfl⟩ := List.eq_nil_or_concat' xs |>.resolve_left h
  rw [lowest_concat]
  unfold lowStep
  split
  · exact ⟨x, rfl⟩
  · split_ifs
    · exact ⟨x, rfl⟩
    · exact ⟨_, rfl⟩

/-- Bottom is kept if it comes last, and only then. -/
theorem lowest_bot_iff {init : List β} {x y : β} (h : lowest key (init ++ [x]) = some y) :
    key y = ⊥ ↔ key x = ⊥ := by
  rw [lowest_concat] at h
  cases hcur : lowest key init with
  | none =>
    simp only [hcur, lowStep, Option.some.injEq] at h
    rw [h]
  | some z =>
    simp only [hcur, lowStep] at h
    split_ifs at h with htake
    · obtain rfl := Option.some.inj h
      rfl
    · obtain rfl := Option.some.inj h
      obtain ⟨hlt, hne⟩ := not_or.mp htake
      refine iff_of_false hne fun hx => hlt ?_
      simp [hx]

/-- Without bottom the search is right. -/
theorem lowest_le (xs : List β) (hne : ∀ x ∈ xs, key x ≠ ⊥) :
    ∀ y, lowest key xs = some y → ∀ x ∈ xs, key y ≤ key x := by
  induction xs using List.reverseRecOn with
  | nil => simp
  | append_singleton xs x ih =>
    intro y hy
    have hrest : ∀ x ∈ xs, key x ≠ ⊥ := fun z hz => hne z (List.mem_append_left _ hz)
    rw [lowest_concat] at hy
    cases hcur : lowest key xs with
    | none =>
      have hnil : xs = [] := by
        by_contra hxs
        obtain ⟨z, hz⟩ : ∃ z, lowest key xs = some z := lowest_isSome hxs
        simp [hz] at hcur
      simp only [hcur, lowStep, Option.some.injEq] at hy
      simp [hnil, hy]
    | some z =>
      have hz := ih hrest z hcur
      simp only [hcur, lowStep] at hy
      split_ifs at hy with htake
      · obtain rfl := Option.some.inj hy
        have hxz := htake.resolve_right (hrest z (lowest_mem xs z hcur))
        intro w hw
        rcases List.mem_append.mp hw with hw | hw
        · exact hxz.trans (hz w hw)
        · simp [List.mem_singleton.mp hw]
      · obtain rfl := Option.some.inj hy
        obtain ⟨hlt, -⟩ := not_or.mp htake
        intro w hw
        rcases List.mem_append.mp hw with hw | hw
        · exact hz w hw
        · rw [List.mem_singleton.mp hw]
          exact (not_le.mp hlt).le

/-- **The search for the least key** is right exactly when no key is bottom, or the last one is. -/
theorem lowest_le_iff {xs : List β} {y : β} (h : lowest key xs = some y) :
    (∀ x ∈ xs, key y ≤ key x) ↔
      (∀ x ∈ xs, key x ≠ ⊥) ∨ ∀ x ∈ xs.getLast?, key x = ⊥ := by
  have hxs : xs ≠ [] := by
    rintro rfl
    cases h
  obtain ⟨init, x, rfl⟩ := List.eq_nil_or_concat' xs |>.resolve_left hxs
  have hlast := lowest_bot_iff h
  simp only [List.getLast?_concat, Option.mem_some_iff, forall_eq']
  constructor
  · intro hle
    by_cases hbot : ∀ z ∈ init ++ [x], key z ≠ ⊥
    · exact .inl hbot
    · simp only [not_forall, not_not] at hbot
      obtain ⟨z, hz, hzero⟩ := hbot
      exact .inr (hlast.mp (le_bot_iff.mp (hzero ▸ hle z hz)))
  · rintro (hne | hbot)
    · exact lowest_le _ hne y h
    · intro z _
      simp [hlast.mpr hbot]

/-- **The search for the greatest key** is always right. -/
theorem highest_spec (xs : List β) (h : xs ≠ []) :
    ∃ y ∈ xs, highest key xs = some y ∧ ∀ x ∈ xs, key x ≤ key y := by
  induction xs using List.reverseRecOn with
  | nil => exact absurd rfl h
  | append_singleton xs x ih =>
    rw [highest_concat]
    by_cases hxs : xs = []
    · simp [hxs, highest, highStep]
    · obtain ⟨z, hz, hcur, hle⟩ := ih hxs
      simp only [hcur, highStep]
      split_ifs with htake
      · have hzx : key z ≤ key x := by
          rcases htake with hle' | hbot
          · exact hle'
          · simp [hbot]
        refine ⟨x, by simp, rfl, fun w hw => ?_⟩
        rcases List.mem_append.mp hw with hw | hw
        · exact (hle w hw).trans hzx
        · simp [List.mem_singleton.mp hw]
      · obtain ⟨hlt, -⟩ := not_or.mp htake
        refine ⟨z, List.mem_append_left _ hz, rfl, fun w hw => ?_⟩
        rcases List.mem_append.mp hw with hw | hw
        · exact hle w hw
        · rw [List.mem_singleton.mp hw]
          exact (not_le.mp hlt).le

end Extent

end MaerOS.Lib
