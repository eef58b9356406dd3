import MaerOS.Model.Disk
import MaerOS.Model.Dispatch
import MaerOS.Model.Switch
import MaerOS.Model.TaskMemory

/-!
# System calls for memory: `isr80h/heap.c` and `isr80h/misc.c`

`isr80h_handler` saves the registers of the caller in its task, carries out the command
and goes back to the page directory of the task. A handler finds its arguments on the
caller's stack, where the saved stack pointer leads. The frame is on the kernel stack,
at the address `frame`; the segment registers are not treated here.
-/

set_option autoImplicit false

namespace MaerOS.Model

open MaerOS.Lib

/-- `task_current_save_state`; it panics without a task. `task.c:203-212` -/
def taskCurrentSaveState (frame : Addr) : KernelM Unit := do
  let k ← get
  deref k.sched.current_task
  onTasks fun s => taskSaveState s s.current_task (interruptFrameAt k.mem frame)

/-- `task_page`, without the segment registers. `task.c:215-220` -/
def taskPage : KernelM Unit := do
  let k ← get
  deref k.sched.current_task
  onTasks fun s => taskSwitch s s.current_task

/-- `isr80h_handler`, where `isr80h_handle_command` carries out `command`. `idt.c:227-241` -/
def isr80hHandler (command : KernelM Addr) (frame : Addr) : KernelM Addr := do
  taskCurrentSaveState frame
  let res ← command
  taskPage
  pure res

/-- `isr80h_command0_sum`; an `int` that overflows has no outcome. `isr80h/misc.c:5-10` -/
def isr80hCommand0Sum : KernelM Addr := do
  let k ← get
  let v2 ← taskGetStackItem k.sched.current_task 1
  let v1 ← taskGetStackItem k.sched.current_task 0
  match checkInt (v1.toInt + v2.toInt) with
  | none => failure
  | some sum => pure (BitVec.ofInt 32 sum)

/-- `isr80h_command4_malloc`. `isr80h/heap.c:7-12` -/
def isr80hCommand4Malloc : KernelM Addr := do
  let k ← get
  let size ← taskGetStackItem k.sched.current_task 0
  let process ← Table.currentProcess
  processMalloc process size

/-- `isr80h_command5_free`. `isr80h/heap.c:15-20` -/
def isr80hCommand5Free : KernelM Addr := do
  let k ← get
  let ptr_to_free ← taskGetStackItem k.sched.current_task 0
  let process ← Table.currentProcess
  processFree process ptr_to_free
  pure 0#32

end MaerOS.Model
