import MaerOS.Analysis.Readline
import MaerOS.Analysis.Terminal

/-!
# The line on the screen is the line in the array

`peachos_terminal_readline` echoes each key through the system call for a character,
which hands it to `terminal_writechar`. While the line is edited, the screen shows it
from the cell on where the cursor was at first: every operation of the terminal is
described cell by cell, and the loop keeps array and screen in step. Both sides have
their trouble with a deletion at the start of a line, on the screen also where a long
line has just wrapped; `EditsInPlace` leaves those out.
-/

set_option autoImplicit false

namespace MaerOS.Analysis

open MaerOS.Lib MaerOS.Model

/-- What `isr80h_command3_putchar` draws, one key after the other. `isr80h/io.c:25-30` -/
def echo (t : Terminal) (keys : List (BitVec 8)) : Terminal :=
  keys.foldl (fun t key => terminalWritechar t key 15#8) t

/-- A cell that a deletion has cleared. -/
def blankCell : BitVec 16 := terminalMakeChar 0x20#8 15#8

/-- The keys edit a line that starts in the cell `cell`, where there is something to delete on the
same line of the screen, and no newline. The keys behind the end of the line do not count. -/
def EditsInPlace (cell limit : ℕ) : (line : List (BitVec 8)) → (keys : List (BitVec 8)) → Prop
  | _, [] => True
  | line, key :: keys =>
    limit ≤ line.length ∨ key = 13#8 ∨
      if key = 0x08#8 then line ≠ [] ∧ (cell + line.length) % vgaWidth ≠ 0 ∧
        EditsInPlace cell limit line.dropLast keys
      else key ≠ 0x0a#8 ∧ EditsInPlace cell limit (line ++ [key]) keys

/-- From the screen `t₀` on, the line has been drawn from the cell `cell` on, within `limit` cells.
What was there before is on the screen still, or has been cleared. -/
structure Shows (t₀ : Terminal) (cell limit : ℕ) (drawn : List (BitVec 8)) (t : Terminal) : Prop where
  cursor : cursorCell t = cell + drawn.length
  column : t.terminal_col.toNat < vgaWidth
  shown : ∀ (i : ℕ) (key : BitVec 8), drawn[i]? = some key →
    t.video_mem (cell + i) = terminalMakeChar key 15#8
  before : ∀ j < cell, t.video_mem j = t₀.video_mem j
  behind : ∀ j, cell + drawn.length ≤ j →
    t.video_mem j = t₀.video_mem j ∨ t.video_mem j = blankCell ∧ j < cell + limit
  stores : ∀ j ∈ t.written, j ∈ t₀.written ∨ cell ≤ j ∧ j < cell + limit

/-! ## The cursor as a number of cells -/

section Cells

variable {t : Terminal}

/-- The column is the number of the cell within its line. -/
theorem cursorCell_mod (h : t.terminal_col.toNat < vgaWidth) :
    cursorCell t % vgaWidth = t.terminal_col.toNat := by
  unfold cursorCell vgaWidth at *
  omega

/-- A character moves the cursor one cell on, also at the end of a line. -/
theorem cursorCell_put (h : t.terminal_col.toNat < vgaWidth) (hrow : t.terminal_row.toNat < 65535)
    (c colour : BitVec 8) : cursorCell (terminalPut t c colour) = cursorCell t + 1 := by
  unfold cursorCell vgaWidth at *
  by_cases hnext : (t.terminal_col + 1#16).toNat < vgaWidth
  · obtain ⟨hr, hc⟩ := terminalPut_next t c colour hnext
    rw [hr, hc]
    unfold vgaWidth at hnext
    bv_omega
  · obtain ⟨hr, hc⟩ := terminalPut_wrap t c colour (by omega)
    rw [hr, hc]
    unfold vgaWidth at hnext
    bv_omega

/-- A deletion moves it one cell back. -/
theorem cursorCell_backspace (hcol : t.terminal_col ≠ 0#16) (h : t.terminal_col.toNat < vgaWidth) :
    cursorCell (terminalBackspace t) + 1 = cursorCell t := by
  obtain ⟨hr, hc⟩ := terminalBackspace_inside hcol h
  unfold cursorCell vgaWidth at *
  rw [hr, hc]
  bv_omega

end Cells

/-! ## Single keys -/

section Keys

variable {t₀ t : Terminal} {cell limit : ℕ} {line : List (BitVec 8)}

/-- A key that is drawn is appended to the line on the screen. -/
theorem Shows.append (h : Shows t₀ cell limit line t) (hfit : cell + limit ≤ vgaWidth * vgaHeight)
    (hlen : line.length < limit) {key : BitVec 8} (hnl : key ≠ 0x0a#8) (hbs : key ≠ 0x08#8) :
    Shows t₀ cell limit (line ++ [key]) (terminalWritechar t key 15#8) := by
  rw [terminalWritechar_ordinary t key 15#8 hnl hbs]
  obtain ⟨hmem, hwritten⟩ := terminalPut_store t key 15#8
  rw [h.cursor] at hmem hwritten
  have hrow : t.terminal_row.toNat < 65535 := by
    have hc := h.cursor
    unfold cursorCell vgaWidth vgaHeight at *
    omega
  refine ⟨?_, terminalPut_col_lt t key 15#8, ?_, ?_, ?_, ?_⟩
  · rw [cursorCell_put h.column hrow, h.cursor, List.length_append, List.length_singleton]
    omega
  · intro i key' hi
    rw [hmem]
    by_cases hlast : i = line.length
    · subst hlast
      rw [Function.update_self]
      simp only [List.getElem?_append_right le_rfl, Nat.sub_self, List.getElem?_cons_zero,
        Option.some.injEq] at hi
      rw [hi]
    · rw [Function.update_of_ne (by omega)]
      have hlt : i < line.length := by
        have := (List.getElem?_eq_some_iff.mp hi).1
        simp at this
        omega
      rw [List.getElem?_append_left hlt] at hi
      exact h.shown i key' hi
  · intro j hj
    rw [hmem, Function.update_of_ne (by omega)]
    exact h.before j hj
  · intro j hj
    rw [List.length_append, List.length_singleton] at hj
    rw [hmem, Function.update_of_ne (by omega)]
    exact h.behind j (by omega)
  · rw [hwritten, List.forall_mem_cons]
    exact ⟨.inr ⟨by omega, by omega⟩, h.stores⟩

/-- A deletion removes the last key from the line on the screen. -/
theorem Shows.dropLast (h : Shows t₀ cell limit line t) (hlen : line.length ≤ limit)
    (hne : line ≠ []) (hcol : (cell + line.length) % vgaWidth ≠ 0) :
    Shows t₀ cell limit line.dropLast (terminalWritechar t 0x08#8 15#8) := by
  have hpos : 1 ≤ line.length := List.length_pos_iff.mpr hne
  have hcol' : t.terminal_col ≠ 0#16 := by
    intro hzero
    rw [← h.cursor, cursorCell_mod h.column, hzero] at hcol
    exact hcol rfl
  have hback := cursorCell_backspace hcol' h.column
  obtain ⟨hmem, hwritten⟩ := terminalBackspace_store fun h0 => hcol' h0.2
  rw [h.cursor] at hback hmem hwritten
  have hlast : cell + line.length - 1 = cell + line.dropLast.length := by
    rw [List.length_dropLast]
    omega
  rw [hlast] at hmem hwritten
  show Shows t₀ cell limit line.dropLast (terminalBackspace t)
  refine ⟨?_, ?_, ?_, ?_, ?_, ?_⟩
  · rw [← hlast]
    omega
  · rw [(terminalBackspace_inside hcol' h.column).2]
    have hlt := h.column
    unfold vgaWidth at *
    bv_omega
  · intro i key hi
    obtain ⟨hlt, -⟩ := List.getElem?_eq_some_iff.mp hi
    rw [hmem, Function.update_of_ne (by omega)]
    rw [List.length_dropLast] at hlt
    rw [List.getElem?_dropLast, if_pos hlt] at hi
    exact h.shown i key hi
  · intro j hj
    rw [hmem, Function.update_of_ne (by omega)]
    exact h.before j hj
  · intro j hj
    rw [hmem]
    by_cases hj' : j = cell + line.dropLast.length
    · rw [hj', Function.update_self, List.length_dropLast]
      exact .inr ⟨rfl, by omega⟩
    · rw [Function.update_of_ne hj']
      exact h.behind j (by omega)
  · rw [hwritten, List.forall_mem_cons, List.length_dropLast]
    exact ⟨.inr ⟨by omega, by omega⟩, h.stores⟩

end Keys

/-! ## The loop -/

/-- The bytes outside of the `limit + 1` bytes of the array are as they were. -/
def KeptOutside (out₀ : ℤ → BitVec 8) (limit : ℕ) (out : ℤ → BitVec 8) : Prop :=
  ∀ i : ℤ, i < 0 ∨ (limit : ℤ) < i → out i = out₀ i

/-- A store to the array. -/
theorem KeptOutside.store {out₀ : ℤ → BitVec 8} {limit : ℕ} {s : Readline}
    (h : KeptOutside out₀ limit s.out) {i : ℤ} (hi : 0 ≤ i) (hlt : i ≤ limit) (c : BitVec 8) :
    KeptOutside out₀ limit (s.store i c).out := by
  intro j hj
  unfold Readline.store
  dsimp only
  rw [Function.update_of_ne (by omega)]
  exact h j hj

/-- Array and screen have the same line, and nothing outside of the array has changed. -/
structure LineShown (out₀ : ℤ → BitVec 8) (t₀ : Terminal) (cell limit : ℕ) (r : Bool × Readline)
    (line : List (BitVec 8)) : Prop where
  returned : r.1 = true
  holds : HoldsLine r.2.out line
  kept : KeptOutside out₀ limit r.2.out
  shows : Shows t₀ cell limit line (echo t₀ r.2.echoed)

/-- One more key on the screen. -/
theorem echo_putchar (t₀ : Terminal) (s : Readline) (key : BitVec 8) :
    echo t₀ (s.putchar key).echoed = terminalWritechar (echo t₀ s.echoed) key 15#8 := by
  simp [echo, Readline.putchar]

section Loop

variable {out₀ : ℤ → BitVec 8} {t₀ : Terminal} {cell limit : ℕ} {s : Readline}
  {line : List (BitVec 8)}

/-- The loop keeps the line in the array and the line on the screen the same, and they are that of
the reference editor. -/
theorem readlineLoop_shows (hfit : cell + limit ≤ vgaWidth * vgaHeight) (n : ℕ)
    {vals : List (BitVec 8)} (hn : vals.length < n) (hat : LineAt s.out line)
    (hkept : KeptOutside out₀ limit s.out)
    (hshows : Shows t₀ cell limit line (echo t₀ s.echoed)) (hlen : line.length ≤ limit)
    (hedits : EditsInPlace cell limit line (keysOf vals)) {final : List (BitVec 8)}
    (hfinal : editLine 13#8 0x08#8 limit line (keysOf vals) = some final) :
    LineShown out₀ t₀ cell limit (readlineLoop (limit + 1) true n line.length vals s) final := by
  induction n generalizing vals s line with
  | zero => omega
  | succ n ih =>
    unfold readlineLoop
    by_cases hfull : limit ≤ line.length
    · rw [if_neg (by omega)]
      rw [editLine_full hfull] at hfinal
      obtain rfl := Option.some.inj hfinal
      exact ⟨rfl, hat.terminate, hkept.store (by omega) (by omega) _, hshows⟩
    rw [if_pos (by omega)]
    rcases peachosGetkeyblock_eq vals with ⟨hget, hkeys⟩ | ⟨key, rest, hget, hkeys, hrest⟩
    · rw [hkeys] at hfinal
      unfold editLine at hfinal
      rw [if_neg hfull] at hfinal
      cases hfinal
    rw [hkeys] at hfinal hedits
    rw [hget]
    unfold editLine at hfinal
    unfold EditsInPlace at hedits
    dsimp only
    rw [if_neg hfull] at hfinal
    by_cases henter : key = 13#8
    · rw [if_pos henter] at hfinal ⊢
      obtain rfl := Option.some.inj hfinal
      exact ⟨rfl, hat.terminate, hkept.store (by omega) (by omega) _, hshows⟩
    rw [if_neg henter] at hfinal ⊢
    rw [if_pos rfl]
    replace hedits := (hedits.resolve_left hfull).resolve_left henter
    by_cases hdelete : key = 0x08#8
    · -- the last key goes from the array and from the screen
      rw [if_pos hdelete] at hfinal hedits
      obtain ⟨hne, hcol, hedits⟩ := hedits
      have hpos : 1 ≤ line.length := List.length_pos_iff.mpr hne
      have hindex : (line.length : ℤ) - 2 + 1 = (line.dropLast.length : ℕ) := by
        rw [List.length_dropLast]
        omega
      rw [if_pos ⟨hdelete, by exact_mod_cast hpos⟩, hindex]
      refine ih (by omega) (LineAt.dropLast (s := s.putchar key) hat)
        (KeptOutside.store (s := s.putchar key) hkept (by omega) (by omega) _) ?_ ?_ hedits hfinal
      · show Shows t₀ cell limit line.dropLast (echo t₀ (s.putchar key).echoed)
        rw [echo_putchar, hdelete]
        exact hshows.dropLast hlen hne hcol
      · rw [List.length_dropLast]
        omega
    · rw [if_neg hdelete] at hfinal hedits
      have hindex : (line.length : ℤ) + 1 = ((line ++ [key]).length : ℕ) := by
        rw [List.length_append, List.length_singleton]
        exact_mod_cast rfl
      rw [if_neg fun h => hdelete h.1, hindex]
      refine ih (by omega) (LineAt.append (s := s.putchar key) hat key)
        (KeptOutside.store (s := s.putchar key) hkept (by omega) (by omega) _) ?_ ?_ hedits.2 hfinal
      · show Shows t₀ cell limit (line ++ [key]) (echo t₀ (s.putchar key).echoed)
        rw [echo_putchar]
        exact hshows.append hfit (by omega) hedits.1 hdelete
      · rw [List.length_append, List.length_singleton]
        omega

end Loop

/-- **What is on the screen is what is in the array.** Where the line fits on the screen and every
deletion has a key of the line before it on the same line of the screen, `peachos_terminal_readline`
returns when the reference editor ends; then its array holds the line of the editor with a
terminator, no byte outside of the `max` bytes of the array has changed, the screen shows that line
from the cell where the cursor was, the cursor is behind it, all cells behind it are as before or
blank, and nothing was stored elsewhere on the screen. -/
theorem screen_shows_line (t₀ : Terminal) (hcol : t₀.terminal_col.toNat < vgaWidth)
    (out : ℤ → BitVec 8) (max : ℤ) (hmax : 1 ≤ max)
    (hfit : cursorCell t₀ + (max - 1).toNat ≤ vgaWidth * vgaHeight) (vals : List (BitVec 8))
    (hedits : EditsInPlace (cursorCell t₀) (max - 1).toNat [] (keysOf vals))
    (line : List (BitVec 8))
    (hline : editLine 13#8 0x08#8 (max - 1).toNat [] (keysOf vals) = some line) :
    LineShown out t₀ (cursorCell t₀) (max - 1).toNat (peachosTerminalReadline out max true vals)
      line := by
  obtain ⟨limit, rfl⟩ : ∃ limit : ℕ, max = limit + 1 := ⟨(max - 1).toNat, by omega⟩
  have hlimit : ((limit : ℤ) + 1 - 1).toNat = limit := by omega
  rw [hlimit] at hfit hedits hline ⊢
  have hat : LineAt (⟨out, [], []⟩ : Readline).out [] := by simp [LineAt]
  refine readlineLoop_shows hfit (vals.length + 1) (by omega) hat (fun _ _ => rfl) ?_ (by simp)
    hedits hline
  exact ⟨rfl, hcol, by simp, fun _ _ => rfl, fun _ _ => .inl rfl, fun _ hj => .inl hj⟩

/-- The keys `a`, backspace, `b` and Enter, on an empty screen. -/
theorem screen_shows_line_typed :
    LineShown (fun _ => 0#8) (Terminal.boot fun _ => 0#16) 0 9
      (peachosTerminalReadline (fun _ => 0#8) 10 true [0x61#8, 0x08#8, 0x62#8, 13#8]) [0x62#8] := by
  have h := screen_shows_line (.boot fun _ => 0#16) (by decide) (fun _ => 0#8) 10 (by decide)
    (by decide) [0x61#8, 0x08#8, 0x62#8, 13#8]
    (by simp [EditsInPlace, keysOf, cursorCell, Terminal.boot]) [0x62#8] (by decide)
  exact h

end MaerOS.Analysis
