import MaerOS.Model.Isr80h
import MaerOS.Model.Terminal

/-!
# System calls that print: `isr80h/io.c`

`isr80h_command1_print` copies the string of the caller to an array of 1024 bytes on
the kernel stack and prints what is there; it does not look at the result of the copy.
The screen is no part of the memory of the model.
-/

set_option autoImplicit false

namespace MaerOS.Model

open MaerOS.Lib

/-- The kernel and its terminal. -/
structure Console where
  kernel : Kernel
  terminal : Terminal

/-- Code that prints. -/
abbrev ConsoleM := StateT Console Option

/-- Code of the kernel that does not print. -/
def silently {α : Type} (m : KernelM α) : ConsoleM α := fun s =>
  (m s.kernel).map fun r => (r.1, { s with kernel := r.2 })

/-- `print` of the string at an address. `kernel.c:245-252` -/
def printAt (str : Addr) : ConsoleM Unit := fun s =>
  (strlenLoop s.kernel.mem str addressSpace 0).map fun len =>
    ((), { s with
      terminal := print s.terminal
        ((List.range len).map fun i => s.kernel.mem (str + BitVec.ofNat 32 i)) })

/-- `sizeof(buf)`. `isr80h/io.c:12` -/
abbrev sizeofPrintBuffer : ℤ := 1024

/-- `isr80h_command1_print`, with the address of its array. `isr80h/io.c:7-17` -/
def isr80hCommand1Print (buf : Addr) : ConsoleM Addr := do
  let s ← get
  let task := s.kernel.sched.current_task
  let user_space_msg_buffer ← silently (taskGetStackItem task 0)
  let _ ← silently (copyStringFromTask task user_space_msg_buffer buf sizeofPrintBuffer)
  printAt buf
  pure 0#32

/-- `isr80h_command3_putchar`. `isr80h/io.c:25-30` -/
def isr80hCommand3Putchar : ConsoleM Addr := do
  let s ← get
  let c ← silently (taskGetStackItem s.kernel.sched.current_task 0)
  modify fun s => { s with terminal := terminalWritechar s.terminal (c.setWidth 8) 15#8 }
  pure 0#32

end MaerOS.Model
