import MaerOS.Model.Terminal

/-!
# The cursor of the terminal, and where the terminal draws

`terminal_backspace` steps back, draws a space and steps back again. Drawing in the
last column moves the cursor to the next line, so the second step starts from column
0 there and the 16-bit column wraps around. That happens for a backspace at the
start of a line, and for no other one: `terminalBackspace_cursor`.

Nothing keeps the row below `VGA_HEIGHT`: what is written below the last line of the
screen is stored behind the screen. `terminalWritechar_written` says which index a
character is stored at.
-/

set_option autoImplicit false

namespace MaerOS.Analysis

open MaerOS.Lib MaerOS.Model

/-- The cell at the cursor. -/
def cursorCell (t : Terminal) : ℕ := t.terminal_row.toNat * vgaWidth + t.terminal_col.toNat

/-- The cursor is on the screen. -/
def OnScreen (t : Terminal) : Prop :=
  t.terminal_row.toNat < vgaHeight ∧ t.terminal_col.toNat < vgaWidth

/-- Write a character in a colour. -/
def writeStep (t : Terminal) (c : BitVec 8 × BitVec 8) : Terminal := terminalWritechar t c.1 c.2

/-! ## `terminal_initialize` -/

/-- The cursor is in the first cell, and nothing was stored outside of the screen. -/
def Cleared (t : Terminal) : Prop :=
  t.terminal_row = 0#16 ∧ t.terminal_col = 0#16 ∧ ∀ i ∈ t.written, i < vgaWidth * vgaHeight

/-- A character on the screen stores inside of it. -/
theorem cleared_terminalPutchar {t : Terminal} (h : Cleared t) {x y : ℕ} (hx : x < vgaWidth)
    (hy : y < vgaHeight) (c colour : BitVec 8) : Cleared (terminalPutchar t x y c colour) := by
  obtain ⟨hrow, hcol, hw⟩ := h
  refine ⟨hrow, hcol, ?_⟩
  unfold terminalPutchar
  simp only [List.mem_cons, forall_eq_or_imp]
  refine ⟨?_, hw⟩
  unfold vgaWidth vgaHeight at *
  omega

theorem cleared_terminalInitialize (video_mem : ℕ → BitVec 16) :
    Cleared (terminalInitialize (.boot video_mem)) := by
  unfold terminalInitialize
  refine List.foldlRecOn _ _ ⟨rfl, rfl, by simp [Terminal.boot]⟩ fun t ht y hy => ?_
  refine List.foldlRecOn _ _ ht fun t ht x hx => ?_
  exact cleared_terminalPutchar ht (List.mem_range.mp hx) (List.mem_range.mp hy) _ _

/-! ## One character -/

section Step

variable (t : Terminal) (c colour : BitVec 8)

/-- A character that is neither a newline nor a backspace. -/
theorem terminalWritechar_ordinary (hc : c ≠ 0x0a#8) (hc' : c ≠ 0x08#8) :
    terminalWritechar t c colour = terminalPut t c colour := by
  unfold terminalWritechar
  rw [if_neg hc, if_neg hc']

/-- `terminal_backspace` as the source has it, with the call of `terminal_writechar`. -/
theorem terminalBackspace_eq (h : ¬ (t.terminal_row = 0#16 ∧ t.terminal_col = 0#16)) :
    terminalBackspace t =
      let t₁ := if t.terminal_col = 0#16 then
          { t with terminal_row := t.terminal_row - 1#16, terminal_col := BitVec.ofNat 16 vgaWidth }
        else t
      let t₂ := terminalWritechar { t₁ with terminal_col := t₁.terminal_col - 1#16 } 0x20#8 15#8
      { t₂ with terminal_col := t₂.terminal_col - 1#16 } := by
  unfold terminalBackspace
  rw [if_neg h]
  dsimp only
  rw [terminalWritechar_ordinary _ _ _ (by decide) (by decide)]

/-- After an ordinary character in the middle of a line. -/
theorem terminalPut_next (h : (t.terminal_col + 1#16).toNat < vgaWidth) :
    (terminalPut t c colour).terminal_row = t.terminal_row ∧
      (terminalPut t c colour).terminal_col = t.terminal_col + 1#16 := by
  unfold terminalPut
  dsimp only [terminalPutchar]
  rw [if_neg (by omega)]
  exact ⟨rfl, rfl⟩

/-- After an ordinary character in the last column, or behind it. -/
theorem terminalPut_wrap (h : vgaWidth ≤ (t.terminal_col + 1#16).toNat) :
    (terminalPut t c colour).terminal_row = t.terminal_row + 1#16 ∧
      (terminalPut t c colour).terminal_col = 0#16 := by
  unfold terminalPut
  dsimp only [terminalPutchar]
  rw [if_pos h]
  exact ⟨rfl, rfl⟩

/-- An ordinary character is stored at the cursor, and nowhere else. -/
theorem terminalPut_store : (terminalPut t c colour).video_mem =
      Function.update t.video_mem (cursorCell t) (terminalMakeChar c colour) ∧
    (terminalPut t c colour).written = cursorCell t :: t.written := by
  unfold terminalPut
  dsimp only [terminalPutchar]
  split <;> exact ⟨rfl, rfl⟩

end Step

/-! ## The cursor after a step -/

section Cursor

variable {t : Terminal}

theorem terminalPut_col_lt (t : Terminal) (c colour : BitVec 8) :
    (terminalPut t c colour).terminal_col.toNat < vgaWidth := by
  by_cases h : (t.terminal_col + 1#16).toNat < vgaWidth
  · rw [(terminalPut_next t c colour h).2]
    exact h
  · rw [(terminalPut_wrap t c colour (by omega)).2]
    decide

theorem terminalBackspace_origin (hrow : t.terminal_row = 0#16) (hcol : t.terminal_col = 0#16) :
    terminalBackspace t = t := by
  unfold terminalBackspace
  rw [if_pos ⟨hrow, hcol⟩]

/-- Where `terminal_backspace` draws: one cell before the cursor. -/
theorem cursorCell_back (h : ¬ (t.terminal_row = 0#16 ∧ t.terminal_col = 0#16)) :
    let t₁ := if t.terminal_col = 0#16 then
        { t with terminal_row := t.terminal_row - 1#16, terminal_col := BitVec.ofNat 16 vgaWidth }
      else t
    cursorCell { t₁ with terminal_col := t₁.terminal_col - 1#16 } = cursorCell t - 1 := by
  dsimp only
  unfold cursorCell vgaWidth
  by_cases hcol : t.terminal_col = 0#16
  · have hrow : t.terminal_row ≠ 0#16 := fun hrow => h ⟨hrow, hcol⟩
    simp only [if_pos hcol]
    rw [hcol]
    bv_omega
  · simp only [if_neg hcol]
    bv_omega

/-- A backspace stores a space in the cell before the cursor. -/
theorem terminalBackspace_store (h : ¬ (t.terminal_row = 0#16 ∧ t.terminal_col = 0#16)) :
    (terminalBackspace t).video_mem =
        Function.update t.video_mem (cursorCell t - 1) (terminalMakeChar 0x20#8 15#8) ∧
      (terminalBackspace t).written = (cursorCell t - 1) :: t.written := by
  have hcell := cursorCell_back h
  unfold terminalBackspace
  rw [if_neg h]
  dsimp only at hcell ⊢
  rw [(terminalPut_store _ _ _).1, (terminalPut_store _ _ _).2, hcell]
  split <;> exact ⟨rfl, rfl⟩

/-- A backspace within a line: one column back. -/
theorem terminalBackspace_inside (hcol : t.terminal_col ≠ 0#16)
    (hlt : t.terminal_col.toNat < vgaWidth) :
    (terminalBackspace t).terminal_row = t.terminal_row ∧
      (terminalBackspace t).terminal_col = t.terminal_col - 1#16 := by
  have hback : t.terminal_col - 1#16 + 1#16 = t.terminal_col := by bv_omega
  obtain ⟨hrow', hcol'⟩ := terminalPut_next { t with terminal_col := t.terminal_col - 1#16 }
    0x20#8 15#8 (by rw [hback]; exact hlt)
  unfold terminalBackspace
  rw [if_neg fun h => hcol h.2]
  simp only [if_neg hcol, hrow', hcol', hback, and_self]

/-- A backspace at the start of a line leaves the row as it is, and the column wraps around. -/
theorem terminalBackspace_lineStart (hrow : t.terminal_row ≠ 0#16) (hcol : t.terminal_col = 0#16) :
    (terminalBackspace t).terminal_row = t.terminal_row ∧
      (terminalBackspace t).terminal_col = 65535#16 := by
  let t₁ : Terminal := { t with terminal_row := t.terminal_row - 1#16, terminal_col := 79#16 }
  obtain ⟨hrow', hcol'⟩ := terminalPut_wrap t₁ 0x20#8 15#8 (by simp [t₁])
  unfold terminalBackspace
  rw [if_neg fun h => hrow h.1]
  simp only [if_pos hcol]
  refine ⟨hrow'.trans ?_, congrArg (· - 1#16) hcol'⟩
  dsimp only [t₁]
  bv_omega

end Cursor

/-! ## The discipline of the cursor -/

/-- The character is no backspace at the start of a line below the first one. -/
def WithinLine (t : Terminal) (c : BitVec 8 × BitVec 8) : Prop :=
  c.1 = 0x08#8 → t.terminal_col = 0#16 → t.terminal_row = 0#16

/-- **One character** leaves the column inside the line, unless it is a backspace at the start of
one. -/
theorem writeStep_col_lt_iff (t : Terminal) (c : BitVec 8 × BitVec 8)
    (hlt : t.terminal_col.toNat < vgaWidth) :
    (writeStep t c).terminal_col.toNat < vgaWidth ↔ WithinLine t c := by
  unfold writeStep terminalWritechar WithinLine
  by_cases hnl : c.1 = 0x0a#8
  · rw [if_pos hnl]
    refine iff_of_true (by simp) fun h => ?_
    rw [hnl] at h
    cases h
  rw [if_neg hnl]
  by_cases hbs : c.1 = 0x08#8
  · rw [if_pos hbs]
    by_cases hcol : t.terminal_col = 0#16
    · by_cases hrow : t.terminal_row = 0#16
      · rw [terminalBackspace_origin hrow hcol]
        exact iff_of_true hlt fun _ _ => hrow
      · rw [(terminalBackspace_lineStart hrow hcol).2]
        exact iff_of_false (by decide) fun h => hrow (h hbs hcol)
    · rw [(terminalBackspace_inside hcol hlt).2]
      refine iff_of_true ?_ fun _ h => absurd h hcol
      bv_omega
  · rw [if_neg hbs]
    exact iff_of_true (terminalPut_col_lt t c.1 c.2) fun h => absurd h hbs

/-- Writing the character and then a backspace leaves the cursor where it was, and a blank there. -/
def Restored (t : Terminal) (c colour colour' : BitVec 8) : Prop :=
  let t' := terminalWritechar (terminalWritechar t c colour) 0x08#8 colour'
  t'.terminal_row = t.terminal_row ∧ t'.terminal_col = t.terminal_col ∧
    t'.video_mem (cursorCell t) = terminalMakeChar 0x20#8 15#8

/-- **A character and a backspace** undo each other except in the last column. -/
theorem restored_iff {t : Terminal} (h : OnScreen t) {c : BitVec 8} (hnl : c ≠ 0x0a#8)
    (hbs : c ≠ 0x08#8) (colour colour' : BitVec 8) :
    Restored t c colour colour' ↔ t.terminal_col ≠ 79#16 := by
  obtain ⟨hrow, hcol⟩ := h
  unfold Restored
  rw [terminalWritechar_ordinary t c colour hnl hbs]
  show (terminalBackspace _).terminal_row = _ ∧ (terminalBackspace _).terminal_col = _ ∧
    (terminalBackspace _).video_mem _ = _ ↔ _
  by_cases hlast : t.terminal_col = 79#16
  · -- the cursor is at the start of the next line
    obtain ⟨hrow', hcol'⟩ := terminalPut_wrap t c colour (by rw [hlast]; decide)
    refine iff_of_false (fun hres => ?_) (not_not_intro hlast)
    have hstart := (terminalBackspace_lineStart (t := terminalPut t c colour) ?_ hcol').1
    · rw [hstart, hrow'] at hres
      have := hres.1
      bv_omega
    · rw [hrow']
      unfold vgaHeight at hrow
      bv_omega
  · unfold vgaWidth at hcol
    obtain ⟨hrow', hcol'⟩ := terminalPut_next t c colour (by unfold vgaWidth; bv_omega)
    have hne : (terminalPut t c colour).terminal_col ≠ 0#16 := by
      rw [hcol']
      bv_omega
    obtain ⟨hrow₂, hcol₂⟩ := terminalBackspace_inside hne (terminalPut_col_lt t c colour)
    obtain ⟨hmem, -⟩ := terminalBackspace_store fun h => hne h.2
    refine iff_of_true ⟨hrow₂.trans hrow', ?_, ?_⟩ hlast
    · rw [hcol₂, hcol']
      bv_omega
    · have hcell : cursorCell (terminalPut t c colour) - 1 = cursorCell t := by
        unfold cursorCell vgaWidth
        rw [hrow', hcol']
        bv_omega
      rw [hmem, hcell, Function.update_self]

/-- **The discipline of the cursor.** From `terminal_initialize` on, the column stays inside the
line in all the states of a run exactly when the run has no backspace at the start of a line below
the first one; and from a state reached with the cursor on the screen, a character that is neither
a newline nor a backspace is undone by a backspace exactly when it was not written in the last
column. -/
theorem terminal_cursor_iff (video_mem : ℕ → BitVec 16) (cs : List (BitVec 8 × BitVec 8)) :
    ((∀ k, (run writeStep (terminalInitialize (.boot video_mem))
        (cs.take k)).terminal_col.toNat < vgaWidth) ↔
      Along writeStep WithinLine (terminalInitialize (.boot video_mem)) cs) ∧
    (OnScreen (run writeStep (terminalInitialize (.boot video_mem)) cs) →
      ∀ c colour colour' : BitVec 8, c ≠ 0x0a#8 → c ≠ 0x08#8 →
        (Restored (run writeStep (terminalInitialize (.boot video_mem)) cs) c colour colour' ↔
          (run writeStep (terminalInitialize (.boot video_mem)) cs).terminal_col ≠ 79#16)) := by
  refine ⟨?_, fun h c colour colour' hnl hbs => restored_iff h hnl hbs colour colour'⟩
  refine run_always_iff (I := fun t => t.terminal_col.toNat < vgaWidth)
    (fun t c hlt => writeStep_col_lt_iff t c hlt) cs _ ?_
  rw [(cleared_terminalInitialize video_mem).2.1]
  decide

/-- The first character on the screen, and a backspace. -/
theorem terminal_cursor_first :
    Restored (terminalInitialize (.boot fun _ => 0#16)) 0x41#8 15#8 15#8 := by
  obtain ⟨hrow, hcol, -⟩ := cleared_terminalInitialize fun _ => 0#16
  have h := (terminal_cursor_iff (fun _ => 0#16) []).2
  rw [run_nil] at h
  refine (h ⟨?_, ?_⟩ 0x41#8 15#8 15#8 (by decide) (by decide)).mpr ?_
  · rw [hrow]
    decide
  · rw [hcol]
    decide
  · rw [hcol]
    decide

/-- A backspace behind a newline wraps the column. -/
theorem newline_backspace_col {t : Terminal} (hrow : t.terminal_row = 0#16) :
    (run writeStep t [(0x0a#8, 15#8), (0x08#8, 15#8)]).terminal_col = 65535#16 := by
  refine (terminalBackspace_lineStart (t := writeStep t (0x0a#8, 15#8)) ?_ rfl).2
  show t.terminal_row + 1#16 ≠ 0#16
  rw [hrow]
  decide

/-- A newline and a backspace: the column is 65535. -/
theorem terminal_cursor_newline : ¬ ∀ (video_mem : ℕ → BitVec 16) (cs : List (BitVec 8 × BitVec 8)),
    (run writeStep (terminalInitialize (.boot video_mem)) cs).terminal_col.toNat < vgaWidth := by
  intro h
  have hlt := h (fun _ => 0#16) [(0x0a#8, 15#8), (0x08#8, 15#8)]
  rw [newline_backspace_col (cleared_terminalInitialize fun _ => 0#16).1] at hlt
  exact absurd hlt (by decide)

/-! ## The indices that are stored to -/

/-- A column inside the line, or the one a backspace at the start of a line leaves. -/
def Columned (t : Terminal) : Prop :=
  t.terminal_col.toNat < vgaWidth ∨ t.terminal_col = 65535#16

theorem columned_sub_one {col : BitVec 16} (h : col.toNat < vgaWidth) :
    (col - 1#16).toNat < vgaWidth ∨ col - 1#16 = 65535#16 := by
  unfold vgaWidth at *
  bv_omega

theorem columned_terminalBackspace {t : Terminal} (h : Columned t) :
    Columned (terminalBackspace t) := by
  unfold terminalBackspace
  split
  · exact h
  · exact columned_sub_one (terminalPut_col_lt _ _ _)

theorem columned_writeStep (t : Terminal) (c : BitVec 8 × BitVec 8) (h : Columned t) :
    Columned (writeStep t c) := by
  unfold writeStep terminalWritechar
  split
  · exact .inl (by simp)
  split
  · exact columned_terminalBackspace h
  · exact .inl (terminalPut_col_lt t c.1 c.2)

/-- The cursor is on the screen, unless the character is a newline. A backspace may also come from
the first cell behind the screen. -/
def DrawsOnScreen (t : Terminal) (c : BitVec 8 × BitVec 8) : Prop :=
  c.1 = 0x0a#8 ∨ OnScreen t ∨ c.1 = 0x08#8 ∧ t.terminal_row = 20#16 ∧ t.terminal_col = 0#16

/-- Nothing was stored outside of the screen. -/
def StoresOnScreen (t : Terminal) : Prop := ∀ i ∈ t.written, i < vgaWidth * vgaHeight

theorem cursorCell_lt_iff {t : Terminal} (h : Columned t) :
    cursorCell t < vgaWidth * vgaHeight ↔ OnScreen t := by
  unfold Columned at h
  unfold cursorCell OnScreen vgaWidth vgaHeight at *
  bv_omega

/-- **One character** is stored on the screen exactly when the cursor allows it. -/
theorem writeStep_storesOnScreen (t : Terminal) (c : BitVec 8 × BitVec 8) (h : Columned t) :
    StoresOnScreen (writeStep t c) ↔ StoresOnScreen t ∧ DrawsOnScreen t c := by
  have hcons : ∀ i l, (∀ j ∈ i :: l, j < vgaWidth * vgaHeight) ↔
      (∀ j ∈ l, j < vgaWidth * vgaHeight) ∧ i < vgaWidth * vgaHeight := by
    intro i l
    rw [List.forall_mem_cons, and_comm]
  unfold writeStep terminalWritechar StoresOnScreen DrawsOnScreen
  by_cases hnl : c.1 = 0x0a#8
  · rw [if_pos hnl]
    exact (and_iff_left (.inl hnl)).symm
  rw [if_neg hnl]
  by_cases hbs : c.1 = 0x08#8
  · rw [if_pos hbs]
    by_cases horigin : t.terminal_row = 0#16 ∧ t.terminal_col = 0#16
    · rw [terminalBackspace_origin horigin.1 horigin.2]
      refine (and_iff_left (.inr (.inl ⟨?_, ?_⟩))).symm
      · rw [horigin.1]
        decide
      · rw [horigin.2]
        decide
    · rw [(terminalBackspace_store horigin).2, hcons]
      refine and_congr_right fun _ => ?_
      simp only [hbs, true_and]
      unfold Columned at h
      unfold cursorCell OnScreen vgaWidth vgaHeight at *
      bv_omega
  · rw [if_neg hbs, (terminalPut_store t c.1 c.2).2, hcons, cursorCell_lt_iff h]
    simp only [hnl, hbs, false_or, false_and, or_false]

/-- What the kernel writes to the terminal. -/
inductive TerminalOutput where
  | print (str : List (BitVec 8))
  | writechar (c colour : BitVec 8)

/-- Write it. -/
def outputStep (t : Terminal) : TerminalOutput → Terminal
  | .print str => Model.print t str
  | .writechar c colour => terminalWritechar t c colour

/-- Its characters, with their colours. -/
def TerminalOutput.chars : TerminalOutput → List (BitVec 8 × BitVec 8)
  | .print str => str.map fun c => (c, 15#8)
  | .writechar c colour => [(c, colour)]

theorem run_outputStep (outs : List TerminalOutput) (t : Terminal) :
    run outputStep t outs = run writeStep t (outs.flatMap TerminalOutput.chars) := by
  induction outs generalizing t with
  | nil => rfl
  | cons out outs ih =>
    rw [List.flatMap_cons]
    unfold run at *
    rw [List.foldl_cons, List.foldl_append, ih]
    congr 1
    cases out with
    | print str =>
      unfold outputStep TerminalOutput.chars Model.print
      rw [List.foldl_map]
      rfl
    | writechar c colour => rfl

/-- **Where the terminal draws.** Whatever is printed and written after `terminal_initialize`, all
stores to the video memory are on the screen exactly when each character other than a newline is
written with the cursor on the screen, or is a backspace from the first cell behind it. -/
theorem terminal_output_iff (video_mem : ℕ → BitVec 16) (outs : List TerminalOutput) :
    (∀ i ∈ (run outputStep (terminalInitialize (.boot video_mem)) outs).written,
        i < vgaWidth * vgaHeight) ↔
      Along writeStep DrawsOnScreen (terminalInitialize (.boot video_mem))
        (outs.flatMap TerminalOutput.chars) := by
  obtain ⟨-, hcol, hw⟩ := cleared_terminalInitialize video_mem
  rw [run_outputStep]
  refine (run_iff_along (I := StoresOnScreen) columned_writeStep writeStep_storesOnScreen _ _
    (.inl ?_)).trans (and_iff_right hw)
  rw [hcol]
  decide

/-- Newlines lead down, one row each. -/
theorem print_newlines {n : ℕ} (t : Terminal) (hcol : t.terminal_col = 0#16) :
    (Model.print t (List.replicate n 0x0a#8)).terminal_row = t.terminal_row + BitVec.ofNat 16 n ∧
      (Model.print t (List.replicate n 0x0a#8)).terminal_col = 0#16 := by
  induction n generalizing t with
  | zero => exact ⟨by simp [Model.print], hcol⟩
  | succ n ih =>
    obtain ⟨h₁, h₂⟩ := ih (terminalWritechar t 0x0a#8 15#8) rfl
    refine ⟨h₁.trans ?_, h₂⟩
    show t.terminal_row + 1#16 + BitVec.ofNat 16 n = _
    rw [Nat.add_comm, BitVec.ofNat_add, BitVec.add_assoc]

/-- A plain character is stored at the cursor. -/
theorem print_append_ordinary (t : Terminal) (str : List (BitVec 8)) {c : BitVec 8}
    (hc : c ≠ 0x0a#8) (hc' : c ≠ 0x08#8) :
    (Model.print t (str ++ [c])).written =
      cursorCell (Model.print t str) :: (Model.print t str).written := by
  unfold Model.print
  rw [List.foldl_append, List.foldl_cons, List.foldl_nil, terminalWritechar_ordinary _ _ _ hc hc',
    (terminalPut_store _ _ _).2]

/-- Twenty newlines and a letter: the letter is stored behind the screen. -/
theorem terminal_output_lines : ¬ ∀ (video_mem : ℕ → BitVec 16) (outs : List TerminalOutput),
    ∀ i ∈ (run outputStep (terminalInitialize (.boot video_mem)) outs).written,
      i < vgaWidth * vgaHeight := by
  intro h
  obtain ⟨hrow, hcol, -⟩ := cleared_terminalInitialize fun _ => 0#16
  have hw := h (fun _ => 0#16) [.print (List.replicate 20 0x0a#8 ++ [0x41#8])]
  obtain ⟨hrow', hcol'⟩ := print_newlines (n := 20) _ hcol
  unfold run at hw
  rw [List.foldl_cons, List.foldl_nil] at hw
  unfold outputStep at hw
  rw [print_append_ordinary _ _ (by decide) (by decide), List.forall_mem_cons] at hw
  have hcell := hw.1
  unfold cursorCell at hcell
  rw [hrow', hcol', hrow] at hcell
  exact absurd hcell (by decide)

end MaerOS.Analysis
