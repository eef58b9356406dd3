import Mathlib.Data.List.Basic

/-!
# A line editor

The editor reads keys one after the other. `enter` ends the line, `delete` removes
its last key, every other key is appended, and a line of `limit` keys is full and
ends as well. `editLine` ignores `delete` on an empty line; `editLineOver` appends
it there like any other key.

The second editor has the line of the first, or that line behind one `delete`: each
`delete` on the empty line of the first editor takes it from the one to the other
(`editLineOver_eq_iff`).
-/

set_option autoImplicit false

namespace MaerOS.Lib

section StrayLine

variable {κ : Type} {delete : κ}

/-- A line, behind one `delete` if there is a stray one. -/
def strayLine (delete : κ) (stray : Bool) (line : List κ) : List κ :=
  if stray then delete :: line else line

theorem length_strayLine (stray : Bool) (line : List κ) :
    (strayLine delete stray line).length = line.length + stray.toNat := by
  cases stray <;> rfl

theorem strayLine_append (stray : Bool) (line : List κ) (key : κ) :
    strayLine delete stray line ++ [key] = strayLine delete stray (line ++ [key]) := by
  cases stray <;> rfl

/-- A line that is not empty loses its own last key. -/
theorem strayLine_dropLast (stray : Bool) {line : List κ} (hline : line ≠ []) :
    (strayLine delete stray line).dropLast = strayLine delete stray line.dropLast := by
  cases stray
  · rfl
  · exact List.dropLast_cons_of_ne_nil hline

/-- What has no `delete` in it is not the line with the stray one. -/
theorem strayLine_eq_iff {stray : Bool} {line : List κ} {res : Option (List κ)}
    (hstop : stray = false → res = some line) (hres : ∀ r, res = some r → delete ∉ r) :
    some (strayLine delete stray line) = res ↔ stray = false := by
  cases stray
  · exact iff_of_true (hstop rfl).symm rfl
  · refine iff_of_false (fun heq => hres _ heq.symm ?_) (by simp)
    exact List.mem_cons_self

end StrayLine

section LineEditor

variable {κ : Type} [DecidableEq κ] (enter delete : κ) (limit : ℕ)

/-- The line at the end, or none if the keys do not end it. -/
def editLine : (line : List κ) → List κ → Option (List κ)
  | line, [] => if limit ≤ line.length then some line else none
  | line, key :: keys =>
    if limit ≤ line.length then some line
    else if key = enter then some line
    else if key = delete then editLine line.dropLast keys
    else editLine (line ++ [key]) keys

/-- The same, with `delete` appended to an empty line. -/
def editLineOver : (line : List κ) → List κ → Option (List κ)
  | line, [] => if limit ≤ line.length then some line else none
  | line, key :: keys =>
    if limit ≤ line.length then some line
    else if key = enter then some line
    else if key = delete ∧ line ≠ [] then editLineOver line.dropLast keys
    else editLineOver (line ++ [key]) keys

/-- An appended `delete` is in the line when the second editor ends, where the line of the first
has `n` keys now. -/
def strayAtEnd : (n : ℕ) → (stray : Bool) → List κ → Bool
  | n, stray, [] => if limit ≤ n + stray.toNat then stray else false
  | n, stray, key :: keys =>
    if limit ≤ n + stray.toNat then stray
    else if key = enter then stray
    else if key = delete then
      if n = 0 then strayAtEnd 0 (!stray) keys else strayAtEnd (n - 1) stray keys
    else strayAtEnd (n + 1) stray keys

variable {enter delete limit}

/-- The line consists of keys. -/
theorem mem_of_editLine {keys line r : List κ} (h : editLine enter delete limit line keys = some r)
    {x : κ} (hx : x ∈ r) : x ∈ line ∨ x ∈ keys ∧ x ≠ delete := by
  induction keys generalizing line with
  | nil =>
    unfold editLine at h
    split at h
    · cases h
      exact .inl hx
    · cases h
  | cons key keys ih =>
    unfold editLine at h
    split at h
    · cases h
      exact .inl hx
    split at h
    · cases h
      exact .inl hx
    split at h
    · rcases ih h with hline | ⟨hmem, hne⟩
      · exact .inl (List.dropLast_subset _ hline)
      · exact .inr ⟨List.mem_cons_of_mem _ hmem, hne⟩
    · rename_i hkey
      rcases ih h with hline | ⟨hmem, hne⟩
      · rcases List.mem_append.mp hline with hline | hlast
        · exact .inl hline
        · rw [List.mem_singleton.mp hlast]
          exact .inr ⟨List.mem_cons_self, hkey⟩
      · exact .inr ⟨List.mem_cons_of_mem _ hmem, hne⟩

/-- The same for the second editor. -/
theorem mem_of_editLineOver {keys line r : List κ}
    (h : editLineOver enter delete limit line keys = some r) {x : κ} (hx : x ∈ r) :
    x ∈ line ∨ x ∈ keys := by
  induction keys generalizing line with
  | nil =>
    unfold editLineOver at h
    split at h
    · cases h
      exact .inl hx
    · cases h
  | cons key keys ih =>
    unfold editLineOver at h
    split at h
    · cases h
      exact .inl hx
    split at h
    · cases h
      exact .inl hx
    split at h
    · exact (ih h).imp (fun hline => List.dropLast_subset _ hline) (List.mem_cons_of_mem _)
    · rcases ih h with hline | hmem
      · rcases List.mem_append.mp hline with hline | hlast
        · exact .inl hline
        · rw [List.mem_singleton.mp hlast]
          exact .inr List.mem_cons_self
      · exact .inr (List.mem_cons_of_mem _ hmem)

/-- The line has at most `limit` keys. -/
theorem length_editLine_le {keys line r : List κ}
    (h : editLine enter delete limit line keys = some r) (hline : line.length ≤ limit) :
    r.length ≤ limit := by
  induction keys generalizing line with
  | nil =>
    unfold editLine at h
    split at h
    · cases h
      exact hline
    · cases h
  | cons key keys ih =>
    unfold editLine at h
    split at h
    · cases h
      exact hline
    split at h
    · cases h
      exact hline
    split at h
    · exact ih h (by simp; omega)
    · exact ih h (by simp; omega)

theorem not_mem_of_editLine {keys line r : List κ} (hline : delete ∉ line)
    (h : editLine enter delete limit line keys = some r) : delete ∉ r :=
  fun hmem => (mem_of_editLine h hmem).elim hline fun h => h.2 rfl

theorem editLine_full {line : List κ} (h : limit ≤ line.length) (keys : List κ) :
    editLine enter delete limit line keys = some line := by
  cases keys <;> exact if_pos h

/-- The second editor ends because its line is full. -/
theorem editLine_stray_full {keys line : List κ} {stray : Bool} (hline : delete ∉ line)
    (hfull : limit ≤ line.length + stray.toNat) :
    some (strayLine delete stray line) = editLine enter delete limit line keys ↔ stray = false := by
  refine strayLine_eq_iff (fun hstray => ?_) fun r h => not_mem_of_editLine hline h
  rw [hstray] at hfull
  exact editLine_full hfull keys

/-- **The two editors** end with the same line exactly when no appended `delete` is left in it. -/
theorem editLineOver_eq_iff (keys : List κ) (stray : Bool) {line : List κ} (hline : delete ∉ line) :
    editLineOver enter delete limit (strayLine delete stray line) keys =
        editLine enter delete limit line keys ↔
      strayAtEnd enter delete limit line.length stray keys = false := by
  induction keys generalizing line stray with
  | nil =>
    unfold editLineOver strayAtEnd
    rw [length_strayLine]
    by_cases hfull : limit ≤ line.length + stray.toNat
    · rw [if_pos hfull, if_pos hfull]
      exact editLine_stray_full hline hfull
    · have hroom : ¬ limit ≤ line.length := by omega
      unfold editLine
      rw [if_neg hfull, if_neg hfull, if_neg hroom]
      exact iff_of_true rfl rfl
  | cons key keys ih =>
    unfold editLineOver strayAtEnd
    rw [length_strayLine]
    by_cases hfull : limit ≤ line.length + stray.toNat
    · rw [if_pos hfull, if_pos hfull]
      exact editLine_stray_full hline hfull
    have hroom : ¬ limit ≤ line.length := by omega
    unfold editLine
    rw [if_neg hfull, if_neg hfull, if_neg hroom]
    by_cases henter : key = enter
    · rw [if_pos henter, if_pos henter, if_pos henter]
      refine strayLine_eq_iff (fun _ => rfl) fun r h => ?_
      rw [← Option.some.inj h]
      exact hline
    rw [if_neg henter, if_neg henter, if_neg henter]
    by_cases hdelete : key = delete
    · rw [if_pos hdelete, if_pos hdelete]
      by_cases hempty : line = []
      · -- the stray `delete` appears, or goes
        subst hempty
        have h := @ih (!stray) [] List.not_mem_nil
        cases stray <;> simpa [strayLine, hdelete] using h
      · have hne : strayLine delete stray line ≠ [] := by
          cases stray <;> simp [strayLine, hempty]
        have hlen : line.length ≠ 0 := by simpa using hempty
        rw [if_pos ⟨hdelete, hne⟩, strayLine_dropLast stray hempty, if_neg hlen,
          ← List.length_dropLast]
        exact ih stray fun hmem => hline (List.dropLast_subset _ hmem)
    · rw [if_neg fun h => hdelete h.1, if_neg hdelete, if_neg hdelete, strayLine_append]
      have h := @ih stray (line ++ [key]) (by simp [hline, Ne.symm hdelete])
      simpa using h

end LineEditor

end MaerOS.Lib
