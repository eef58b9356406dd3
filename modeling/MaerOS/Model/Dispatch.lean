import MaerOS.Model.ProcessTable

/-!
# What makes the kernel change tasks: `idt.c` and `isr80h/process.c`

When the kernel is set up, it starts the first task of the list. A tick of the clock
goes on to the next one. A program that exits, or that causes an exception, is
terminated first. These three end in `task_next`. None of the four returns: their value
is the task that runs. The registers are not treated here.
-/

set_option autoImplicit false

namespace MaerOS.Model.Table

open MaerOS.Lib

/-- `task_next`, up to `task_return`. `task.c:113-123` -/
def runNextTask : KernelM Addr := fun k =>
  (taskNext k.sched).map fun (task, sched) => (task, { k with sched := sched })

/-- `task_run_first_ever_task`, up to `task_return`; it panics without a current task.
`task.c:230-239` -/
def taskRunFirstEverTask : KernelM Addr := do
  let k ← get
  deref k.sched.current_task
  onTasks fun s => taskSwitch s s.task_head
  deref k.sched.task_head
  pure k.sched.task_head

/-- `task_current()->process`. -/
def currentProcess : KernelM Addr := do
  let k ← get
  deref k.sched.current_task
  pure (k.sched.tasks k.sched.current_task).process

/-- `idt_clock`, without the end of interrupt. `idt.c:121-129` -/
def idtClock : KernelM Addr := runNextTask

/-- `idt_handle_exception`. `idt.c:110-114` -/
def idtHandleException : KernelM Addr := do
  let process ← currentProcess
  let _ ← processTerminate process
  runNextTask

/-- `isr80h_command9_exit`. `process.c:87-93` -/
def isr80hCommand9Exit : KernelM Addr := do
  let process ← currentProcess
  let _ ← processTerminate process
  runNextTask

end MaerOS.Model.Table
