import MaerOS.Lib.Stores
import MaerOS.Model.ProcessTable
import MaerOS.Model.TaskMemory

/-!
# The system calls that start a program: `isr80h/process.c`

Commands 6 and 7 build a path in an array of 108 bytes on the kernel stack and load
the program it names; command 7 then hands the caller's list of arguments to the new
process. Command 8 stores `argc` and `argv` where the caller asks for them. The
arrays on the kernel stack are named by their addresses.

`stores` records the bytes that the handlers themselves store to, through a pointer
of the caller or to the array `path`; no function reads it. A handler that switches
to the new task does not return.
-/

set_option autoImplicit false

namespace MaerOS.Model

open MaerOS.Lib

/-! ## Copies with a record of their stores -/

/-- The loop of `strcpy`, at most `n` rounds from index `i`, with the terminator. -/
def strcpyLoop (dest src : Addr) : (n i : ℕ) → Traced → Option Traced
  | 0, _, _ => none
  | n + 1, i, t =>
    let c := t.mem (src + BitVec.ofNat 32 i)
    let t := t.store (dest + BitVec.ofNat 32 i) c
    if c = 0#8 then some t else strcpyLoop dest src n (i + 1) t

/-- `strcpy`. `string.c:81-94` -/
def strcpy (dest src : Addr) (t : Traced) : Option Traced := strcpyLoop dest src addressSpace 0 t

/-- `strcpy` of a string literal. -/
def strcpyLiteral (dest : Addr) (literal : List (BitVec 8)) (t : Traced) : Traced :=
  t.storeAll dest (literal ++ [0#8])

/-- `strncpyLoop` with a record of its stores. -/
def strncpyStores (dest src : Addr) : (n i : ℕ) → Traced → Traced
  | 0, i, t => t.store (dest + BitVec.ofNat 32 i) 0#8
  | n + 1, i, t =>
    let c := t.mem (src + BitVec.ofNat 32 i)
    if c = 0#8 then t.store (dest + BitVec.ofNat 32 i) 0#8
    else strncpyStores dest src n (i + 1) (t.store (dest + BitVec.ofNat 32 i) c)

/-- `strlen`, at most `n` bytes from index `i` on. `string.c:13-23` -/
def strlenLoop (m : Memory) (str : Addr) : (n i : ℕ) → Option ℕ
  | 0, _ => none
  | n + 1, i => if m (str + BitVec.ofNat 32 i) = 0#8 then some i else strlenLoop m str n (i + 1)

/-- The bytes of the string at `a`, at most `n` of them. -/
def stringAt (m : Memory) : (n : ℕ) → (a : Addr) → List (BitVec 8)
  | 0, _ => []
  | n + 1, a => if m a = 0#8 then [] else m a :: stringAt m n (a + 1#32)

/-! ## The handlers -/

/-- The kernel during a system call. -/
structure Isr80hState where
  command : CommandKernel
  stores : List Addr

/-- Code of a handler. -/
abbrev Isr80hM := StateT Isr80hState Option

/-- The kernel below. -/
abbrev Isr80hState.kernel (s : Isr80hState) : Kernel := s.command.kernel

/-- Code that works on the arguments of processes. -/
def onCommand {α : Type} (m : CommandM α) : Isr80hM α := fun s =>
  (m s.command).map fun r => (r.1, { s with command := r.2 })

/-- Memory and the record of the stores to it. -/
def Isr80hState.traced (s : Isr80hState) : Traced := ⟨s.kernel.mem, s.stores⟩

/-- The state with other memory and another record. -/
def Isr80hState.withTraced (s : Isr80hState) (t : Traced) : Isr80hState :=
  { command := { s.command with kernel := { s.command.kernel with mem := t.mem } }
    stores := t.stores }

/-- Store to memory. -/
def onTraced (f : Traced → Option Traced) : Isr80hM Unit := fun s =>
  (f s.traced).map fun t => ((), s.withTraced t)

/-- `task_get_stack_item(task_current(), index)`. -/
def stackItem (index : ℕ) : Isr80hM Addr := onCommand (onKernel do
  let k ← get
  taskGetStackItem k.sched.current_task index)

/-- `task_virtual_address_to_physical(task_current(), virtual_address)`. -/
def callerAddress (virtual_address : Addr) : Isr80hM Addr := onCommand (onKernel do
  let k ← get
  taskVirtualAddressToPhysical k.sched.current_task virtual_address)

/-- `"0:/"`. -/
def pathPrefix : List (BitVec 8) := [0x30#8, 0x3a#8, 0x2f#8]

/-- The array `path` of command 6: `strcpy(path, "0:/")` and `strcpy(path+3, filename)`. -/
def startPath (path filename : Addr) : Isr80hM Unit := do
  onTraced fun t => some (strcpyLiteral path pathPrefix t)
  onTraced (strcpy (path + 3#32) filename)

/-- The array `path` of command 7: `strcpy(path, "0:/")` and
`strncpy(path+3, program_name, sizeof(path))`. -/
def systemPath (path program_name : Addr) : Isr80hM Unit := do
  onTraced fun t => some (strcpyLiteral path pathPrefix t)
  onTraced fun t => some (strncpyStores (path + 3#32) program_name (maerosMaxPath - 1) 0 t)

/-- How a handler ends: with the value it returns, or in the task it switches to. -/
inductive Isr80hEnd where
  | returned (result : Addr)
  | switched (task : Addr)
  deriving DecidableEq

/-- `ERROR(value)`. `kernel.h:23` -/
def error (value : ℤ) : Isr80hEnd := .returned (BitVec.ofInt 32 value)

/-- `task_switch(process->task)` and `task_return`. -/
def switchToProcess (process : Addr) : Isr80hM Isr80hEnd := onCommand (onKernel do
  deref process
  let k ← get
  let task := (k.procs process).task
  deref task
  onTasks fun s => taskSwitch s task
  pure (.switched task))

/-- `process_load_switch(path, &process)`, with what the file layer does when the program is read
as an ELF file and as a raw binary. -/
def loadPath (path : Addr) (elf binary : Table.FileUse) : Isr80hM (ℤ × Addr) :=
  onCommand (onKernel do
    let k ← get
    Table.processLoadSwitch (stringAt k.mem addressSpace path) elf binary)

/-- `isr80h_command6_process_load_start` up to `process_load_switch`: the result of
`copy_string_from_task`, with the path built if there is no error. -/
def isr80hCommand6Path (filename path : Addr) : Isr80hM ℤ := do
  let filename_user_ptr ← stackItem 0
  let s ← get
  let res ← onCommand (onKernel (copyStringFromTask s.kernel.sched.current_task filename_user_ptr
    filename maerosMaxPath))
  if res < 0 then pure res
  else do
    startPath path filename
    pure res

/-- `isr80h_command6_process_load_start`, with the addresses of its arrays. `process.c:10-36` -/
def isr80hCommand6ProcessLoadStart (filename path : Addr) (elf binary : Table.FileUse) :
    Isr80hM Isr80hEnd := do
  let res ← isr80hCommand6Path filename path
  if res < 0 then pure (.returned 0#32)
  else do
    let (res, process) ← loadPath path elf binary
    if res < 0 then pure (.returned 0#32) else switchToProcess process

/-- `isr80h_command7_invoke_system_command` up to `process_load_switch`: the caller's arguments,
with the path built, or nothing if there is no program name. -/
def isr80hCommand7Path (path : Addr) : Isr80hM (Option Addr) := do
  let item ← stackItem 0
  let arguments ← callerAddress item
  if arguments = 0#32 then pure none
  else do
    let s ← get
    match strlenLoop s.kernel.mem arguments addressSpace 0 with
    | none => failure
    | some len =>
      if len = 0 then pure none
      else do
        systemPath path arguments
        pure (some arguments)

/-- `isr80h_command7_invoke_system_command`, with the address of its array. `process.c:43-76` -/
def isr80hCommand7InvokeSystemCommand (path : Addr) (elf binary : Table.FileUse) :
    Isr80hM Isr80hEnd := do
  match ← isr80hCommand7Path path with
  | none => pure (error (-einvarg))
  | some root_command_argument =>
    let (res, process) ← loadPath path elf binary
    if res < 0 then pure (error res)
    else do
      let res ← onCommand (processInjectArguments process root_command_argument)
      if res < 0 then pure (error res) else switchToProcess process

/-- `process_get_arguments`. `process.c:241-245` -/
def processGetArguments (process argc argv : Addr) : Isr80hM Unit := do
  onCommand (onKernel (deref process))
  let s ← get
  onTraced fun t => some (t.storeWord argc (BitVec.ofInt 32 (s.command.arguments process).argc))
  onTraced fun t => some (t.storeWord argv (s.command.arguments process).argv)

/-- `isr80h_command8_get_program_arguments`; `argv` is the second word of
`struct process_arguments`. `process.c:78-85` -/
def isr80hCommand8GetProgramArguments : Isr80hM Isr80hEnd := do
  let s ← get
  let process := (s.kernel.sched.tasks s.kernel.sched.current_task).process
  let item ← stackItem 0
  let arguments ← callerAddress item
  processGetArguments process arguments (arguments + 4#32)
  pure (.returned 0#32)

end MaerOS.Model
