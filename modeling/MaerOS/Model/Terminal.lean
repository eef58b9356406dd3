import MaerOS.Lib.Memory
import MaerOS.Lib.Run

/-!
# The terminal: `print` and `terminal_writechar` of `kernel.c`

The cursor is a row and a column of 16 bits each, and the screen is the array of
words at `video_mem`. A word that is stored at an index outside of the screen goes
to whatever memory is there, so the array has a value at every index. `written`
records the indices that are stored to; no function reads it.

`terminal_writechar` and `terminal_backspace` call each other, the latter only to
write a space. `terminalPut` is what `terminal_writechar` does with a character
that is neither a newline nor a backspace.
-/

set_option autoImplicit false

namespace MaerOS.Model

/-- `VGA_WIDTH`. `kernel.h:4` -/
abbrev vgaWidth : ℕ := 80

/-- `VGA_HEIGHT`. `kernel.h:5` -/
abbrev vgaHeight : ℕ := 20

/-- The globals of the terminal. `kernel.c:25-27` -/
structure Terminal where
  video_mem : ℕ → BitVec 16
  terminal_row : BitVec 16
  terminal_col : BitVec 16
  written : List ℕ

/-- The globals before the kernel runs, with what the video memory happens to hold. -/
def Terminal.boot (video_mem : ℕ → BitVec 16) : Terminal := ⟨video_mem, 0#16, 0#16, []⟩

/-- `terminal_make_char`; a `char` is signed. `kernel.c:267-270` -/
def terminalMakeChar (c colour : BitVec 8) : BitVec 16 :=
  (colour.signExtend 32 <<< 8 ||| c.signExtend 32).setWidth 16

/-- `terminal_putchar`; neither caller passes a negative number. `kernel.c:273-276` -/
def terminalPutchar (t : Terminal) (x y : ℕ) (c colour : BitVec 8) : Terminal :=
  { t with
    video_mem := Function.update t.video_mem (y * vgaWidth + x) (terminalMakeChar c colour)
    written := (y * vgaWidth + x) :: t.written }

/-- `terminal_initialize`. `kernel.c:254-265` -/
def terminalInitialize (t : Terminal) : Terminal :=
  (List.range vgaHeight).foldl
    (fun t y => (List.range vgaWidth).foldl (fun t x => terminalPutchar t x y 0x20#8 0#8) t)
    { t with terminal_row := 0#16, terminal_col := 0#16 }

/-- The end of `terminal_writechar`. `kernel.c:314-320` -/
def terminalPut (t : Terminal) (c colour : BitVec 8) : Terminal :=
  let t := terminalPutchar t t.terminal_col.toNat t.terminal_row.toNat c colour
  let t := { t with terminal_col := t.terminal_col + 1#16 }
  if t.terminal_col.toNat ≥ vgaWidth then
    { t with terminal_col := 0#16, terminal_row := t.terminal_row + 1#16 }
  else t

/-- `terminal_backspace`. `kernel.c:279-296` -/
def terminalBackspace (t : Terminal) : Terminal :=
  if t.terminal_row = 0#16 ∧ t.terminal_col = 0#16 then t
  else
    let t :=
      if t.terminal_col = 0#16 then
        { t with terminal_row := t.terminal_row - 1#16, terminal_col := BitVec.ofNat 16 vgaWidth }
      else t
    let t := { t with terminal_col := t.terminal_col - 1#16 }
    let t := terminalPut t 0x20#8 15#8
    { t with terminal_col := t.terminal_col - 1#16 }

/-- `terminal_writechar`. `kernel.c:299-321` -/
def terminalWritechar (t : Terminal) (c colour : BitVec 8) : Terminal :=
  if c = 0x0a#8 then
    { t with terminal_row := t.terminal_row + 1#16, terminal_col := 0#16 }
  else if c = 0x08#8 then terminalBackspace t
  else terminalPut t c colour

/-- `print` of a string, given by its characters before the terminator. `kernel.c:245-252` -/
def print (t : Terminal) (str : List (BitVec 8)) : Terminal :=
  str.foldl (fun t c => terminalWritechar t c 15#8) t

end MaerOS.Model
