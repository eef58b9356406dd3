import MaerOS.Model.ProcessLife

/-!
# The process table over one memory and one heap

The records of tasks are kept by address, apart from memory, so a link that is
written through a pointer to a freed task changes nothing but that record. In the
kernel the block of a freed task may have become something else by then. Here the
two assignments that go through such a pointer, `task->prev->next = …` of
`task_list_remove` and `task_tail->next = …` of `task_new`, also store to memory,
at the field `next` of the task they go to.

Which block becomes what depends on every allocation, so the file layer is taken
with its heap traffic: `FileUse` adds to what `fopen`, `fstat` and `fread` return
the allocations and releases of `fopen` and `fclose`. Otherwise the functions are
those of `task.c`, `elfloader.c` and `process.c` as before, with these put in.
-/

set_option autoImplicit false

namespace MaerOS.Model.Table

open MaerOS.Lib MaerOS.Model

/-! ## The file layer as a user of the heap -/

/-- What the file layer does to the heap, one call at a time. -/
inductive HeapAct where
  /-- `kzalloc` of at least one byte. -/
  | take (size : BitVec 32) (hsize : size ≠ 0#32)
  /-- `kzalloc` of no bytes, released at once: the items of a directory that is empty.
  `fat16.c:568`, `fat16.c:525` -/
  | takeNothing
  /-- `kfree` of a block it has taken, counted from the latest. -/
  | give (i : ℕ)

/-- Carry out a call; `held` are the blocks the file layer has, the latest first. -/
def heapAct (held : List Addr) : HeapAct → KernelM (List Addr)
  | .take size _ => do
    let ptr ← kzalloc size
    pure (if ptr = 0#32 then held else ptr :: held)
  | .takeNothing => do
    let ptr ← kzalloc 0#32
    (if ptr = 0#32 then pure () else kfree ptr)
    pure held
  | .give i =>
    match held[i]? with
    | none => pure held
    | some ptr => do
      kfree ptr
      pure (held.eraseIdx i)

/-- Carry out the calls one after the other. -/
def heapActs (held : List Addr) (acts : List HeapAct) : KernelM (List Addr) :=
  acts.foldlM heapAct held

/-- A file opened, measured, read and closed once, with the heap traffic of `fopen` and of
`fclose`. -/
structure FileUse extends FilePass where
  opening : List HeapAct
  closing : List HeapAct

/-! ## Loading the program -/

/-- `elf_load`. `elfloader.c:217-255` -/
def elfLoad (file : FileUse) : KernelM (ℤ × Addr) := do
  let elf_file ← kzalloc sizeofElfFile
  onElf elf_file fun _ => ElfFile.zero
  let held ← heapActs [] file.opening
  let out ← elfRead file.toFilePass elf_file
  let _ ← heapActs held file.closing
  pure out

/-- `process_load_elf`. `process.c:383-398` -/
def processLoadElf (file : FileUse) (process : Addr) : KernelM ℤ :=
  processLoadElfBy (elfLoad file) process

/-- `process_load_binary`, where `Model.processLoadBinary` is what lies between `fopen` and
`fclose`. `process.c:335-380` -/
def processLoadBinary (file : FileUse) (process : Addr) : KernelM ℤ := do
  let held ← heapActs [] file.opening
  let res ← Model.processLoadBinary file.toFilePass process
  let _ ← heapActs held file.closing
  pure res

/-- `process_load_data`. `process.c:403-416` -/
def processLoadData (elf binary : FileUse) (process : Addr) : KernelM ℤ :=
  processLoadDataBy (processLoadElf elf) (processLoadBinary binary) process

/-! ## Tasks -/

/-- `&task->next`, behind `page_directory`, twelve registers and `process`. `task.h:35-51` -/
def nextField (task : Addr) : Addr := task + 56#32

/-- `task_list_remove`. `task.c:76-97` -/
def taskListRemove (task : Addr) : KernelM Unit := do
  let k ← get
  let t := k.sched.tasks task
  (if t.prev ≠ 0#32 then storeWord (nextField t.prev) t.next else pure ())
  onTasks fun s => Model.taskListRemove s task

/-- `task_free`. `task.c:102-110` -/
def taskFree (task : Addr) : KernelM ℤ := taskFreeBy taskListRemove task

/-- `task_new` from the list on. `task.c:42-52` -/
def taskLink (task : Addr) : KernelM Unit := do
  let k ← get
  (if k.sched.task_head ≠ 0#32 then do
    deref k.sched.task_tail
    storeWord (nextField k.sched.task_tail) task
  else pure ())
  onTasks fun s => taskListAppend s task

/-- `task_new`. `task.c:26-62` -/
def taskNew (process : Addr) : KernelM Addr := taskNewBy taskLink taskFree process

/-! ## Processes -/

/-- `process_load_for_slot` from the task on. `process.c:578-610` -/
def processLoadTask (process : Addr) (process_slot : ℤ) : KernelM (ℤ × Addr) :=
  processLoadTaskBy taskNew taskFree process process_slot

/-- `process_load_for_slot`. `process.c:540-610` -/
def processLoadForSlot (filename : List (BitVec 8)) (elf binary : FileUse) (process_slot : ℤ) :
    KernelM (ℤ × Addr) :=
  processLoadForSlotBy kzalloc (processLoadData elf binary) processLoadTask filename process_slot

/-- `process_load`. `process.c:511-524` -/
def processLoad (filename : List (BitVec 8)) (elf binary : FileUse) : KernelM (ℤ × Addr) :=
  processLoadBy (processLoadForSlot filename elf binary)

/-- `process_switch`. `process.c:43-48` -/
def processSwitch (process : Addr) : KernelM Unit :=
  modify fun k => { k with current_process := process }

/-- `process_load_switch`. `process.c:527-535` -/
def processLoadSwitch (filename : List (BitVec 8)) (elf binary : FileUse) :
    KernelM (ℤ × Addr) := do
  let (res, process) ← processLoad filename elf binary
  (if res = 0 then processSwitch process else pure ())
  pure (res, process)

/-- `process_terminate`. `process.c:212-238` -/
def processTerminate (process : Addr) : KernelM ℤ := processTerminateBy taskFree process

end MaerOS.Model.Table
