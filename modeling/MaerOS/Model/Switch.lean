import MaerOS.Lib.X86
import MaerOS.Model.Task

/-!
# Preemption: from the interrupt to `task_return`

A timer interrupt saves the registers of the running program three times over: the
processor and `pushad` put them on the kernel stack, where the handler reads them
as a `struct interrupt_frame`; `task_save_state` copies that to the `struct
registers` of the current task; and when the task is resumed, the assembly of
`task_return` fetches them from there by byte offsets. The two structures are given
here by the offsets of their fields, and the assembly line by line.

The chunk of a task maps kernel memory to itself, so `paging_switch` does not show
in what the kernel reads and writes. Between the interrupt and `task_return` the
kernel's own code runs; its registers and flags when it calls `task_return` are
inputs here.
-/

set_option autoImplicit false

namespace MaerOS.Model

open MaerOS.Lib

/-- `tss.esp0`, the top of the kernel stack. `kernel.c:103` -/
def tssEsp0 : Addr := 0x600000#32

/-- `struct interrupt_frame`. `idt.h:42-57` -/
structure InterruptFrame where
  edi : BitVec 32
  esi : BitVec 32
  ebp : BitVec 32
  reserved : BitVec 32
  ebx : BitVec 32
  edx : BitVec 32
  ecx : BitVec 32
  eax : BitVec 32
  ip : BitVec 32
  cs : BitVec 32
  flags : BitVec 32
  esp : BitVec 32
  ss : BitVec 32

/-- The frame at the address `frame`: thirteen words in the order of the structure. -/
def interruptFrameAt (mem : Memory) (frame : Addr) : InterruptFrame :=
  let word (off : ℕ) := load32 mem (frame + BitVec.ofNat 32 off)
  { edi := word 0, esi := word 4, ebp := word 8, reserved := word 12, ebx := word 16
    edx := word 20, ecx := word 24, eax := word 28, ip := word 32, cs := word 36
    flags := word 40, esp := word 44, ss := word 48 }

/-- The words of `struct registers` by their offsets. `task.h:13-29` -/
def Registers.words (r : Registers) : List (ℕ × BitVec 32) :=
  [(0, r.edi), (4, r.esi), (8, r.ebp), (12, r.ebx), (16, r.edx), (20, r.ecx), (24, r.eax),
    (28, r.ip), (32, r.cs), (36, r.flags), (40, r.esp), (44, r.ss)]

/-- Memory with the structure laid out at `regs`. -/
def Registers.layOut (r : Registers) (mem : Memory) (regs : Addr) : Memory :=
  r.words.foldl (fun mem w => store32 mem (regs + BitVec.ofNat 32 w.1) w.2) mem

/-- `&task->registers`: the structure follows the pointer to the chunk. -/
def registersAddr (task : Addr) : Addr := task + 4#32

/-- `task_save_state`. `task.c:134-148` -/
def taskSaveState (s : TaskList) (task : Addr) (frame : InterruptFrame) : TaskList :=
  s.assign task fun t =>
    { t with
      registers :=
        { ip := frame.ip, cs := frame.cs, flags := frame.flags, esp := frame.esp, ss := frame.ss
          eax := frame.eax, ebp := frame.ebp, ebx := frame.ebx, ecx := frame.ecx
          edi := frame.edi, edx := frame.edx, esi := frame.esi } }

/-- The entry of every interrupt up to the call of `interrupt_handler`. The frame is what `esp`
points to when it is pushed. `idt.asm:69-92` -/
def interruptCode (interrupt : BitVec 32) : List Instr :=
  [.pushad, .push .esp, .pushImm interrupt, .call]

/-- `restore_general_purpose_registers`. `task.asm:50-63` -/
def restoreGeneralPurposeRegisters : List Instr :=
  [.push .ebp,
    .mov .ebp .esp,
    .load .ebx .ebp 8,
    .load .edi .ebx 0,
    .load .esi .ebx 4,
    .load .ebp .ebx 8,
    .load .edx .ebx 16,
    .load .ecx .ebx 20,
    .load .eax .ebx 24,
    .load .ebx .ebx 12,
    .add .esp 4#32,
    .ret]

/-- `task_return`, without the four moves to data segment registers. `task.asm:9-47` -/
def taskReturn : List Instr :=
  [.mov .ebp .esp,
    .load .ebx .ebp 4,
    .pushMem .ebx 44,
    .pushMem .ebx 40,
    .pushf,
    .pop .eax,
    .or .eax 0x200#32,
    .push .eax,
    .pushMem .ebx 32,
    .pushMem .ebx 28,
    .loadLow .eax .ebx 44,
    .pushMem .ebp 4,
    .call] ++ restoreGeneralPurposeRegisters ++
  [.add .esp 4#32,
    .iretd]

/-- The scheduler's view of the machine: the task list, and for every task the registers of the
program when the task was preempted last. The latter is a record; no function reads it. -/
structure Core where
  sched : TaskList
  preempted : Addr → Option Cpu

/-- A timer interrupt: the registers of the interrupted program, memory, and the registers of the
kernel when it calls `task_return`. -/
structure Timer where
  user : Cpu
  mem : Memory
  kernel : Cpu

/-- Memory and registers at the first instruction of `task_return(&task->registers)`: the argument
is above the return address. -/
def taskReturnEntry (e : Timer) (mem : Memory) (s : TaskList) (task : Addr) : Machine :=
  let mem := (s.tasks task).registers.layOut mem (registersAddr task)
  { e.kernel with mem := store32 mem (e.kernel.gpr .esp + 4#32) (registersAddr task) }

/-- The handling of interrupt `0x20`: save the state of the current task, go on to the next task
and leave the kernel through `task_return`. The result is the new state and the registers the
processor resumes with; a panic has no outcome. `idt.c:70-81`, `idt.c:119-128`,
`task.c:113-131` -/
def idtClock (alu : BitVec 32 → BitVec 32 → BitVec 32) (c : Core) (e : Timer) :
    Option (Core × Cpu) :=
  let entered := interruptEntry tssEsp0 { e.user with mem := e.mem }
  let framed := execAll alu entered (interruptCode 0x20#32)
  -- the handler finds the pointer to the frame above the interrupt number
  let frame := interruptFrameAt framed.mem (load32 framed.mem (framed.gpr .esp + 8#32))
  let task := c.sched.current_task
  if task = 0#32 then none
  else
    let sched := taskSaveState c.sched task frame
    let next_task := taskGetNext sched
    if next_task = 0#32 then none
    else
      let sched := { sched with current_task := next_task }
      let resumed := execAll alu (taskReturnEntry e framed.mem sched next_task) taskReturn
      some ({ sched := sched, preempted := Function.update c.preempted task (some e.user) },
        resumed.toCpu)

end MaerOS.Model
