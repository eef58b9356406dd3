import Mathlib.Data.List.TakeWhile

/-!
# The components of a list between separators, up to the first empty one

A reader of paths takes one component after the other and stops at the first empty
one. `leading sep l` are the components it takes. It inverts joining non-empty
components, and joining what it takes gives `l` back, up to one separator at the
end, exactly when no component but the last is empty (`joined_leading_iff`).
-/

set_option autoImplicit false

namespace MaerOS.Lib

section Components

variable {α : Type} [DecidableEq α] {sep : α}

/-- The components of `l` before the first empty one. -/
def leading (sep : α) (l : List α) : List (List α) :=
  (l.splitOn sep).takeWhile fun w => w != []

@[simp] theorem leading_nil : leading sep [] = [] := by
  simp [leading]

@[simp] theorem leading_sep (l : List α) : leading sep (sep :: l) = [] := by
  have hsplit : ([] ++ sep :: l).splitOn sep = [] :: l.splitOn sep :=
    List.splitOn_append_cons_self_of_not_mem (by simp) l
  rw [List.nil_append] at hsplit
  simp [leading, hsplit]

/-- The last component. -/
theorem leading_end {w : List α} (hw : w ≠ []) (hsep : sep ∉ w) : leading sep w = [w] := by
  simp [leading, List.splitOn_eq_singleton hsep, hw]

/-- A component with a separator behind it. -/
theorem leading_next {w : List α} (hw : w ≠ []) (hsep : sep ∉ w) (l : List α) :
    leading sep (w ++ sep :: l) = w :: leading sep l := by
  simp [leading, List.splitOn_append_cons_self_of_not_mem hsep, hw]

/-- Reading inverts joining. -/
theorem leading_intercalate {ws : List (List α)} (hws : ∀ w ∈ ws, w ≠ [] ∧ sep ∉ w) :
    leading sep ([sep].intercalate ws) = ws := by
  by_cases hnil : ws = []
  · subst hnil
    simp
  · unfold leading
    rw [List.splitOn_intercalate sep (fun w hw => (hws w hw).2) hnil]
    apply List.takeWhile_eq_self_iff.mpr
    intro w hw
    simpa using (hws w hw).1

/-- The reader: the elements up to the next separator, and what is behind it. -/
theorem leading_eq (l : List α) :
    leading sep l =
      if l.takeWhile (fun c => c != sep) = [] then []
      else l.takeWhile (fun c => c != sep) ::
        leading sep (l.dropWhile fun c => c != sep).tail := by
  have hsep : sep ∉ l.takeWhile fun c => c != sep := by
    intro hmem
    simpa using List.mem_takeWhile_imp hmem
  have happ := List.takeWhile_append_dropWhile (p := fun c => c != sep) (l := l)
  generalize l.takeWhile (fun c => c != sep) = w at hsep happ
  cases hrest : l.dropWhile fun c => c != sep with
  | nil =>
    rw [hrest, List.append_nil] at happ
    subst happ
    split_ifs with hw
    · simp [hw]
    · simpa using leading_end hw hsep
  | cons c rest =>
    have hc : c = sep := by
      have hhead := List.head_dropWhile_not (fun c => c != sep) (by rw [hrest]; simp)
      simpa [hrest] using hhead
    subst hc
    rw [hrest] at happ
    rw [← happ, List.tail_cons]
    split_ifs with hw
    · simp [hw]
    · exact leading_next hw hsep rest

omit [DecidableEq α] in
/-- Joined components are empty only if there is but one, and that is empty. -/
theorem intercalate_eq_nil_iff (w : List α) (ws : List (List α)) :
    [sep].intercalate (w :: ws) = [] ↔ w = [] ∧ ws = [] := by
  cases ws <;> simp

omit [DecidableEq α] in
/-- The elements of joined components. -/
theorem mem_intercalate {c : α} {ws : List (List α)} (hc : c ∈ [sep].intercalate ws) :
    c = sep ∨ ∃ w ∈ ws, c ∈ w := by
  induction ws with
  | nil => simp at hc
  | cons w ws ih =>
    cases ws with
    | nil => simpa using Or.inr hc
    | cons v ws =>
      simp only [List.intercalate_cons_cons, List.mem_append, List.mem_singleton] at hc
      rcases hc with (hc | hc) | hc
      · exact .inr ⟨w, by simp, hc⟩
      · exact .inl hc
      · rcases ih hc with hsep | ⟨u, hu, hcu⟩
        · exact .inl hsep
        · exact .inr ⟨u, List.mem_cons_of_mem _ hu, hcu⟩

omit [DecidableEq α] in
/-- No component is longer than all of them joined. -/
theorem length_le_intercalate {w : List α} {ws : List (List α)} (hw : w ∈ ws) :
    w.length ≤ ([sep].intercalate ws).length := by
  induction ws with
  | nil => simp at hw
  | cons v ws ih =>
    cases ws with
    | nil => simp_all
    | cons u ws =>
      simp only [List.intercalate_cons_cons, List.length_append]
      rcases List.mem_cons.mp hw with rfl | hw
      · omega
      · have := ih hw
        omega

/-- Joining the components before the first empty one. -/
theorem joined_takeWhile_iff (ws : List (List α)) (hws : ws ≠ []) :
    ([sep].intercalate (ws.takeWhile fun w => w != []) = [sep].intercalate ws ∨
        [sep].intercalate (ws.takeWhile fun w => w != []) ++ [sep] = [sep].intercalate ws) ↔
      (∀ w ∈ ws.dropLast, w ≠ []) ∨ ws = [[], []] := by
  induction ws with
  | nil => exact absurd rfl hws
  | cons w ws ih =>
    cases ws with
    | nil =>
      by_cases hw : w = []
      · simp [hw]
      · simp [hw]
    | cons v ws =>
      by_cases hw : w = []
      · subst hw
        simp [intercalate_eq_nil_iff]
      · by_cases hv : v = []
        · subst hv
          cases ws with
          | nil => simp [hw]
          | cons u ws => simp [hw]
        · have hstep := ih (by simp)
          simp [hv] at hstep
          simp [hw, hv, hstep]

/-- What the reader takes, joined again, is the list up to one separator at its end iff no
component but the last is empty, or the list is one separator. -/
theorem joined_leading_iff (l : List α) :
    ([sep].intercalate (leading sep l) = l ∨ [sep].intercalate (leading sep l) ++ [sep] = l) ↔
      (∀ w ∈ (l.splitOn sep).dropLast, w ≠ []) ∨ l = [sep] := by
  have hjoin := @joined_takeWhile_iff _ _ sep (l.splitOn sep) (List.splitOn_ne_nil sep l)
  rw [List.intercalate_splitOn] at hjoin
  have hone : l.splitOn sep = [[], []] ↔ l = [sep] := by
    constructor
    · intro hsplit
      have hl : [sep].intercalate (l.splitOn sep) = l := List.intercalate_splitOn sep
      rw [← hl, hsplit]
      simp
    · rintro rfl
      have hsplit : ([] ++ sep :: []).splitOn sep = [] :: [].splitOn sep :=
        List.splitOn_append_cons_self_of_not_mem (by simp) []
      exact hsplit
  rw [← hone]
  exact hjoin

end Components

end MaerOS.Lib
