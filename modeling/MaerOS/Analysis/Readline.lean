import MaerOS.Lib.LineEditor
import MaerOS.Model.Stdlib

/-!
# `peachos_terminal_readline` as a line editor

The loop counts its index up in every round and takes it back by two for a
backspace, so the index is always the number of keys in `out`. The test `i >= 1`
keeps a backspace from leaving the array at the start of the line; the key is then
stored like any other one. So the function is the editor that appends a deletion to
an empty line (`readlineLoop_spec`), and it agrees with the reference editor when no
such key is left at the end.
-/

set_option autoImplicit false

namespace MaerOS.Analysis

open MaerOS.Lib MaerOS.Model

/-- The keys: the values that are not zero. -/
def keysOf (vals : List (BitVec 8)) : List (BitVec 8) := vals.filter (· ≠ 0#8)

/-- `peachos_getkeyblock` takes the next key, and waits if there is none. -/
theorem peachosGetkeyblock_eq (vals : List (BitVec 8)) :
    (peachosGetkeyblock vals = none ∧ keysOf vals = []) ∨
      ∃ key rest, peachosGetkeyblock vals = some (key, rest) ∧
        keysOf vals = key :: keysOf rest ∧ rest.length < vals.length := by
  induction vals with
  | nil => exact .inl ⟨rfl, rfl⟩
  | cons val vals ih =>
    unfold peachosGetkeyblock keysOf
    by_cases hval : val = 0#8
    · rw [if_pos hval, List.filter_cons_of_neg (by simpa using hval)]
      rcases ih with hnone | ⟨key, rest, hget, hkeys, hlen⟩
      · exact .inl hnone
      · exact .inr ⟨key, rest, hget, hkeys, by simp; omega⟩
    · rw [if_neg hval, List.filter_cons_of_pos (by simpa using hval)]
      exact .inr ⟨val, vals, rfl, rfl, by simp⟩

/-- The characters of `line` are in `out`, one after the other. -/
def LineAt (out : ℤ → BitVec 8) (line : List (BitVec 8)) : Prop :=
  ∀ (j : ℕ) (key : BitVec 8), (line)[j]? = some key → out j = key

/-- A key is put behind the line. -/
theorem LineAt.append {s : Readline} {line : List (BitVec 8)} (h : LineAt s.out line)
    (key : BitVec 8) : LineAt (s.store line.length key).out (line ++ [key]) := by
  intro j key' hj
  unfold Readline.store
  dsimp only
  by_cases hlast : j = line.length
  · subst hlast
    rw [Function.update_self]
    simpa using hj
  · rw [Function.update_of_ne (by exact_mod_cast hlast)]
    refine h j key' ?_
    have hlt : j < line.length := by
      have := (List.getElem?_eq_some_iff.mp hj).1
      simp at this
      omega
    rwa [List.getElem?_append_left hlt] at hj

theorem LineAt.dropLast {s : Readline} {line : List (BitVec 8)} (h : LineAt s.out line) :
    LineAt (s.store (line.length - 1) 0#8).out line.dropLast := by
  intro j key hj
  obtain ⟨hlt, -⟩ := List.getElem?_eq_some_iff.mp hj
  rw [List.length_dropLast] at hlt
  unfold Readline.store
  dsimp only
  rw [Function.update_of_ne (by omega)]
  refine h j key ?_
  rwa [List.getElem?_dropLast, if_pos hlt] at hj

/-- `out` holds the line and the terminator behind it. -/
def HoldsLine (out : ℤ → BitVec 8) (line : List (BitVec 8)) : Prop :=
  LineAt out line ∧ out line.length = 0#8

theorem LineAt.terminate {s : Readline} {line : List (BitVec 8)} (h : LineAt s.out line) :
    HoldsLine (s.store line.length 0#8).out line := by
  refine ⟨fun j key hj => ?_, Function.update_self _ _ _⟩
  obtain ⟨hlt, -⟩ := List.getElem?_eq_some_iff.mp hj
  unfold Readline.store
  dsimp only
  rw [Function.update_of_ne (by omega)]
  exact h j key hj

/-- What is stored stays in the array. -/
def StoresInside (max : ℤ) (s : Readline) : Prop := ∀ i ∈ s.written, 0 ≤ i ∧ i < max

/-- A store inside the bounds stays inside them. -/
theorem StoresInside.store {max : ℤ} {s : Readline} (h : StoresInside max s) {i : ℤ} (hi : 0 ≤ i)
    (hlt : i < max) (c : BitVec 8) : StoresInside max (s.store i c) := by
  unfold StoresInside Readline.store
  rw [List.forall_mem_cons]
  exact ⟨⟨hi, hlt⟩, h⟩

/-- The outcome of `readline` is that of an editor. -/
def EndsWith (r : Bool × Readline) : Option (List (BitVec 8)) → Prop
  | none => r.1 = false
  | some line => r.1 = true ∧ HoldsLine r.2.out line

/-! ## The loop -/

section Loop

variable {limit : ℕ} {output_while_typing : Bool} {s : Readline} {line : List (BitVec 8)}

/-- A line that ends is terminated behind its last key. -/
theorem readlineLoop_end (hat : LineAt s.out line) (hin : StoresInside (limit + 1) s)
    (hlen : line.length ≤ limit) :
    EndsWith (true, s.store line.length 0#8) (some line) ∧
      StoresInside (limit + 1) (s.store line.length 0#8) :=
  ⟨⟨rfl, hat.terminate⟩, hin.store (by omega) (by omega) _⟩

/-- **The loop** from a line on is the editor that appends a deletion to an empty line. -/
theorem readlineLoop_spec (n : ℕ) {vals : List (BitVec 8)} (hn : vals.length < n)
    (hat : LineAt s.out line) (hin : StoresInside (limit + 1) s) (hlen : line.length ≤ limit) :
    EndsWith (readlineLoop (limit + 1) output_while_typing n line.length vals s)
        (editLineOver 13#8 0x08#8 limit line (keysOf vals)) ∧
      StoresInside (limit + 1)
        (readlineLoop (limit + 1) output_while_typing n line.length vals s).2 := by
  induction n generalizing vals s line with
  | zero => omega
  | succ n ih =>
    unfold readlineLoop
    by_cases hfull : limit ≤ line.length
    · rw [if_neg (by omega)]
      have hover : editLineOver 13#8 0x08#8 limit line (keysOf vals) = some line := by
        cases keysOf vals <;> exact if_pos hfull
      rw [hover]
      exact readlineLoop_end hat hin hlen
    rw [if_pos (by omega)]
    rcases peachosGetkeyblock_eq vals with ⟨hget, hkeys⟩ | ⟨key, rest, hget, hkeys, hrest⟩
    · rw [hget, hkeys]
      unfold editLineOver
      rw [if_neg hfull]
      exact ⟨rfl, hin⟩
    rw [hget, hkeys]
    unfold editLineOver
    dsimp only
    rw [if_neg hfull]
    by_cases henter : key = 13#8
    · rw [if_pos henter, if_pos henter]
      exact readlineLoop_end hat hin hlen
    rw [if_neg henter, if_neg henter]
    -- the echo does not touch the array
    generalize hs' : (if output_while_typing = true then s.putchar key else s) = s'
    have hat' : LineAt s'.out line := by
      rw [← hs']
      split <;> exact hat
    have hin' : StoresInside (limit + 1) s' := by
      rw [← hs']
      split <;> exact hin
    by_cases hdelete : key = 0x08#8 ∧ line ≠ []
    · have hpos : 1 ≤ line.length := List.length_pos_iff.mpr hdelete.2
      have hindex : (line.length : ℤ) - 2 + 1 = (line.dropLast.length : ℕ) := by
        rw [List.length_dropLast]
        omega
      rw [if_pos hdelete, if_pos ⟨hdelete.1, by exact_mod_cast hpos⟩, hindex]
      refine ih (by omega) hat'.dropLast (hin'.store (by omega) (by omega) _) ?_
      rw [List.length_dropLast]
      omega
    · have hindex : (line.length : ℤ) + 1 = ((line ++ [key]).length : ℕ) := by
        rw [List.length_append, List.length_singleton]
        exact_mod_cast rfl
      have hnot : ¬ (key = 0x08#8 ∧ (line.length : ℤ) ≥ 1) := by
        rintro ⟨hkey, hpos⟩
        refine hdelete ⟨hkey, ?_⟩
        rintro rfl
        simp at hpos
      rw [if_neg hdelete, if_neg hnot, hindex]
      refine ih (by omega) (hat'.append key) (hin'.store (by omega) (by omega) _) ?_
      rw [List.length_append, List.length_singleton]
      omega

end Loop

/-! ## The reference editor -/

/-- Only one line without zeros is in the array. -/
theorem HoldsLine.unique {out : ℤ → BitVec 8} {line line' : List (BitVec 8)}
    (h : HoldsLine out line) (h' : HoldsLine out line') (hne : 0#8 ∉ line) (hne' : 0#8 ∉ line') :
    line = line' := by
  have hle : ∀ {l l' : List (BitVec 8)}, HoldsLine out l → HoldsLine out l' → 0#8 ∉ l →
      l.length ≤ l'.length := by
    intro l l' hl hl' hz
    by_contra hlt
    refine hz (List.mem_of_getElem? (i := l'.length) ?_)
    rw [List.getElem?_eq_getElem (by omega), Option.some.injEq, ← hl'.2]
    exact (hl.1 _ _ (List.getElem?_eq_getElem (by omega))).symm
  have hlen := Nat.le_antisymm (hle h h' hne) (hle h' h hne')
  refine List.ext_getElem hlen fun j hj hj' => ?_
  rw [← h.1 j _ (List.getElem?_eq_getElem hj), ← h'.1 j _ (List.getElem?_eq_getElem hj')]

/-- The outcome determines the line. -/
theorem endsWith_inj {r : Bool × Readline} {o o' : Option (List (BitVec 8))}
    (h : EndsWith r o) (h' : EndsWith r o') (ho : ∀ l, o = some l → 0#8 ∉ l)
    (ho' : ∀ l, o' = some l → 0#8 ∉ l) : o = o' := by
  cases o with
  | none =>
    cases o' with
    | none => rfl
    | some l' => exact absurd (h.symm.trans h'.1) (by simp)
  | some l =>
    cases o' with
    | none => exact absurd (h'.symm.trans h.1) (by simp)
    | some l' => rw [h.2.unique h'.2 (ho l rfl) (ho' l' rfl)]

theorem zero_not_mem_keysOf (vals : List (BitVec 8)) : 0#8 ∉ keysOf vals := by
  simp [keysOf]

/-- **`peachos_terminal_readline` and the reference editor.** Whatever keys are typed, nothing is
stored outside of the `max` bytes. The function returns when the reference editor ends, with its
line and a terminator in `out`, exactly when no deletion that was typed on an empty line is left
at the end of the line's input; each further one on the empty line takes the one before it away. -/
theorem readline_refines_iff (out : ℤ → BitVec 8) (max : ℤ) (hmax : 1 ≤ max)
    (output_while_typing : Bool) (vals : List (BitVec 8)) :
    StoresInside max (peachosTerminalReadline out max output_while_typing vals).2 ∧
      (∀ line, editLine 13#8 0x08#8 (max - 1).toNat [] (keysOf vals) = some line →
        (line.length : ℤ) < max) ∧
      (EndsWith (peachosTerminalReadline out max output_while_typing vals)
          (editLine 13#8 0x08#8 (max - 1).toNat [] (keysOf vals)) ↔
        strayAtEnd 13#8 0x08#8 (max - 1).toNat 0 false (keysOf vals) = false) := by
  obtain ⟨limit, rfl⟩ : ∃ limit : ℕ, max = limit + 1 := ⟨(max - 1).toNat, by omega⟩
  have hlimit : ((limit : ℤ) + 1 - 1).toNat = limit := by omega
  rw [hlimit]
  obtain ⟨hends, hin⟩ := @readlineLoop_spec limit output_while_typing ⟨out, [], []⟩ []
    (vals.length + 1) vals (by omega) (by simp [LineAt]) (by simp [StoresInside]) (by simp)
  refine ⟨hin, fun line h => ?_, ?_⟩
  · have := length_editLine_le h (by simp)
    omega
  · have hover : ∀ l, editLineOver 13#8 0x08#8 limit [] (keysOf vals) = some l → 0#8 ∉ l :=
      fun l h hmem => zero_not_mem_keysOf vals ((mem_of_editLineOver h hmem).resolve_left (by simp))
    have href : ∀ l, editLine 13#8 0x08#8 limit [] (keysOf vals) = some l → 0#8 ∉ l :=
      fun l h hmem => zero_not_mem_keysOf vals ((mem_of_editLine h hmem).resolve_left (by simp)).1
    have hiff := @editLineOver_eq_iff _ _ 13#8 0x08#8 limit (keysOf vals) false [] (by simp)
    refine Iff.trans ⟨fun h => endsWith_inj hends h hover href, fun h => ?_⟩ hiff
    exact h ▸ hends

/-- The keys `a`, backspace, `b` and Enter. -/
theorem readline_refines_typed :
    EndsWith (peachosTerminalReadline (fun _ => 0#8) 10 true [0x61#8, 0x08#8, 0x62#8, 13#8])
      (some [0x62#8]) :=
  (readline_refines_iff (fun _ => 0#8) 10 (by decide) true
    [0x61#8, 0x08#8, 0x62#8, 13#8]).2.2.mpr (by decide)

/-- A backspace and Enter: the line is a backspace. -/
theorem readline_backspace : ¬ ∀ (out : ℤ → BitVec 8) (max : ℤ) (output_while_typing : Bool)
    (vals : List (BitVec 8)), 1 ≤ max →
      EndsWith (peachosTerminalReadline out max output_while_typing vals)
        (editLine 13#8 0x08#8 (max - 1).toNat [] (keysOf vals)) := by
  intro h
  exact absurd (h (fun _ => 0#8) 10 false [0x08#8, 13#8] (by decide)).2.2 (by decide)

end MaerOS.Analysis
