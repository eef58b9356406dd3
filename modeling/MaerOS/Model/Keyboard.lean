import MaerOS.Model.Kernel

/-!
# The keyboard buffer of a process: `keyboard.c`

The interrupt side puts keys into the buffer of the current process, the programs
take keys from the buffer of the process of the current task. The counters `tail`
and `head` run freely; `tail % sizeof(buffer)` mixes an `int` and a `size_t`, so the
counter is reduced as an unsigned number. A cell without a key holds zero.
`keyboard_backspace` has no caller.
-/

set_option autoImplicit false

namespace MaerOS.Model

/-- `MAEROS_KEYBOARD_BUFFER_SIZE`. `config.h:80` -/
abbrev maerosKeyboardBufferSize : ℕ := 1024

/-- `struct keyboard_buffer`. `process.h:73-78` -/
structure KeyboardBuffer where
  buffer : ℕ → BitVec 8
  tail : BitVec 32
  head : BitVec 32

/-- The buffer of a process that `process_init` has cleared. `process.c:20-23` -/
def KeyboardBuffer.zero : KeyboardBuffer := ⟨fun _ => 0#8, 0#32, 0#32⟩

/-- The kernel with the keyboard buffers of its processes. -/
structure KeyboardKernel where
  kernel : Kernel
  keyboards : Addr → KeyboardBuffer

/-- Kernel code that uses the keyboard buffers. -/
abbrev KeyboardM := StateT KeyboardKernel Option

/-- `keyboard_get_tail_index`. `keyboard.c:48-51` -/
def keyboardGetTailIndex (kb : KeyboardBuffer) : ℕ := kb.tail.toNat % maerosKeyboardBufferSize

/-- Assign to the keyboard buffer of a process. -/
def KeyboardKernel.assign (s : KeyboardKernel) (process : Addr)
    (f : KeyboardBuffer → KeyboardBuffer) : KeyboardKernel :=
  { s with keyboards := Function.update s.keyboards process (f (s.keyboards process)) }

/-- The character is written at `tail`, whatever is there. -/
def KeyboardBuffer.push (kb : KeyboardBuffer) (c : BitVec 8) : KeyboardBuffer :=
  { kb with buffer := Function.update kb.buffer (keyboardGetTailIndex kb) c
            tail := kb.tail + 1#32 }

/-- The character at `head`; a zero is not stepped over. -/
def KeyboardBuffer.pop (kb : KeyboardBuffer) : BitVec 8 × KeyboardBuffer :=
  let real_index := kb.head.toNat % maerosKeyboardBufferSize
  let c := kb.buffer real_index
  if c = 0#8 then (0#8, kb)
  else (c, { kb with buffer := Function.update kb.buffer real_index 0#8, head := kb.head + 1#32 })

/-- `keyboard_push`. `keyboard.c:76-92` -/
def keyboardPush (c : BitVec 8) : KeyboardM Unit := do
  let s ← get
  let process := s.kernel.current_process
  if process = 0#32 then pure ()
  else if c = 0#8 then pure ()
  else modify fun s => s.assign process fun kb => kb.push c

/-- `keyboard_pop`; a task without a process is undefined behaviour. `keyboard.c:94-114` -/
def keyboardPop : KeyboardM (BitVec 8) := do
  let s ← get
  let current := s.kernel.sched.current_task
  if current = 0#32 then pure 0#8
  else
    let process := (s.kernel.sched.tasks current).process
    if process = 0#32 then failure
    else do
      let (c, kb) := (s.keyboards process).pop
      modify fun s => s.assign process fun _ => kb
      pure c

end MaerOS.Model
