import MaerOS.Model.Process
import MaerOS.Model.Elf

/-!
# Loading and terminating processes: the other half of `process.c`

`process_load_for_slot` allocates a process record, loads the program (an ELF
file, or else the raw bytes of the file), allocates a stack, creates a task and
maps program and stack into its page directory. `process_terminate` takes the
parts apart again.

`panic` never returns and `processes[slot]` outside the array is undefined
behaviour; both have no outcome, like the read of an uninitialised local.
-/

set_option autoImplicit false

namespace MaerOS.Model

open MaerOS.Lib

/-! ## Loading -/

/-- `process_load_binary`. When the file cannot be opened or measured, `program_data_ptr` is read
before it has a value. `process.c:335-380` -/
def processLoadBinary (pass : FilePass) (process : Addr) : KernelM ℤ := do
  if pass.fopen = 0 then failure
  else if pass.fstat ≠ maerosAllOk then
    (if pass.fstat < 0 then failure else pure pass.fstat)
  else do
    let program_data_ptr ← kzalloc pass.filesize
    if program_data_ptr = 0#32 then pure (-enomem)
    else do
      let count ← pass.read program_data_ptr pass.filesize
      if count ≠ 1 then do
        kfree program_data_ptr
        pure (-eio)
      else do
        onProcess process fun p =>
          { p with filetype := processFiletypeBinary, ptr := program_data_ptr
                   size := pass.filesize }
        pure 0

/-- `process_load_elf`, where `load` is `elf_load`. `process.c:383-398` -/
def processLoadElfBy (load : KernelM (ℤ × Addr)) (process : Addr) : KernelM ℤ := do
  let (res, elf_file) ← load
  if res < 0 then pure res
  else do
    onProcess process fun p => { p with filetype := processFiletypeElf, ptr := elf_file }
    pure res

/-- `process_load_elf`, of a file that is read by itself. -/
def processLoadElf (pass : FilePass) (process : Addr) : KernelM ℤ :=
  processLoadElfBy (elfLoad pass) process

/-- `process_load_data`: an ELF file first, by `elf`, and by `binary` a raw binary if it is none.
`process.c:403-416` -/
def processLoadDataBy (elf binary : Addr → KernelM ℤ) (process : Addr) : KernelM ℤ := do
  let res ← elf process
  if res = -einformat then binary process else pure res

/-- `process_load_data`. The file is read anew for the second attempt. -/
def processLoadData (elf binary : FilePass) (process : Addr) : KernelM ℤ :=
  processLoadDataBy (processLoadElf elf) (processLoadBinary binary) process

/-- The flags of a program's image and stack. -/
def processImageFlags : BitVec 32 := pagingIsPresent ||| pagingAccessFromAll ||| pagingIsWriteable

/-- `process_map_binary`; the result of the mapping is not looked at. `process.c:419-424` -/
def processMapBinary (process : Addr) : KernelM ℤ := do
  let k ← get
  let ptr := (k.procs process).ptr
  let _ ← processMapTo process maerosProgramVirtualAddress ptr
    (pagingAlignAddress (ptr + (k.procs process).size)) processImageFlags
  pure 0

/-- The flags of a segment: writable if the segment is. -/
def segmentFlags (mem : Memory) (phdr : Addr) : BitVec 32 :=
  let flags := pagingIsPresent ||| pagingAccessFromAll
  if phdrFlags mem phdr &&& 2#32 ≠ 0#32 then flags ||| pagingIsWriteable else flags

/-- Map one segment of an ELF file. -/
def processMapSegment (process elf_file phdr : Addr) : KernelM ℤ := do
  let k ← get
  let phdr_phys_address := elfPhdrPhysAddress k.mem (k.elfs elf_file) phdr
  processMapTo process (pagingAlignToLowerPage (phdrVaddr k.mem phdr))
    (pagingAlignToLowerPage phdr_phys_address)
    (pagingAlignAddress (phdr_phys_address + phdrMemsz k.mem phdr)) (segmentFlags k.mem phdr)

/-- The loop of `process_map_elf`, `n` program headers from index `i`. -/
def processMapElfLoop (process elf_file phdrs : Addr) : (n i : ℕ) → (res : ℤ) → KernelM ℤ
  | 0, _, res => pure res
  | n + 1, i, _ => do
    let res ← processMapSegment process elf_file (phdrs + BitVec.ofNat 32 (32 * i))
    if res < 0 then pure res else processMapElfLoop process elf_file phdrs n (i + 1) res

/-- `process_map_elf`. `process.c:435-462` -/
def processMapElf (process : Addr) : KernelM ℤ := do
  let k ← get
  let elf_file := (k.procs process).ptr
  deref elf_file
  let header := (k.elfs elf_file).elf_memory
  deref header
  processMapElfLoop process elf_file (elfPheader k.mem header) (elfPhnum k.mem header) 0 0

/-- `process_map_memory`; `process_map_binary` comes first, whatever the type of the file.
`process.c:467-496` -/
def processMapMemory (process : Addr) : KernelM ℤ := do
  let _ ← processMapBinary process
  let k ← get
  let res ← (if (k.procs process).filetype = processFiletypeElf then processMapElf process
    else if (k.procs process).filetype = processFiletypeBinary then processMapBinary process
    else failure)
  if res < 0 then pure res
  else do
    let k ← get
    let stack := (k.procs process).stack
    let _ ← processMapTo process maerosProgramVirtualStackAddressEnd stack
      (pagingAlignAddress (stack + maerosUserProgramStackSize)) processImageFlags
    pure res

/-- `process_get`. `process.c:32-40` -/
def processGet (processes : ℕ → Addr) (process_id : ℤ) : Addr :=
  if process_id < 0 ∨ process_id ≥ maerosMaxProcesses then 0#32 else processes process_id.toNat

/-- `strncpy` into `filename`: at most 107 bytes and the terminator. `string.c:96-109` -/
def processFilename (filename : List (BitVec 8)) : List (BitVec 8) :=
  (filename.takeWhile (· ≠ 0#8)).take (maerosMaxPath - 1)

/-- `process_load_for_slot` from the task on, where `new` is `task_new` and `free` is `task_free`.
On failure the task is freed and nothing else. `process.c:578-610` -/
def processLoadTaskBy (new : Addr → KernelM Addr) (free : Addr → KernelM ℤ) (process : Addr)
    (process_slot : ℤ) : KernelM (ℤ × Addr) := do
  let task ← new process
  if task = 0#32 then pure (0, 0#32)
  else do
    onProcess process fun p => { p with task := task }
    let res ← processMapMemory process
    if res < 0 then do
      let _ ← free task
      pure (res, 0#32)
    else if process_slot < 0 ∨ process_slot ≥ maerosMaxProcesses then failure
    else do
      modify fun k => { k with processes := Function.update k.processes process_slot.toNat process }
      pure (res, process)

/-- `process_load_for_slot` from the task on, over the records of the tasks. -/
def processLoadTask (process : Addr) (process_slot : ℤ) : KernelM (ℤ × Addr) :=
  processLoadTaskBy taskNew taskFree process process_slot

/-- `process_load_for_slot` from the record on, where `data` is `process_load_data` and `rest` goes
on from the task. `process.c:560-610` -/
def processLoadRecord (data : Addr → KernelM ℤ) (rest : Addr → ℤ → KernelM (ℤ × Addr))
    (filename : List (BitVec 8)) (process_slot : ℤ) (process : Addr) : KernelM (ℤ × Addr) := do
  onProcess process fun _ => Process.zero
  let res ← data process
  if res < 0 then pure (res, 0#32)
  else do
    let program_stack_ptr ← kzalloc maerosUserProgramStackSize
    if program_stack_ptr = 0#32 then pure (-enomem, 0#32)
    else do
      onProcess process fun p =>
        { p with filename := processFilename filename, stack := program_stack_ptr
                 id := process_slot.toNat }
      rest process process_slot

/-- `process_load_for_slot`, with the process it returns through `process`, where `alloc` allocates
the record; for a slot that is in use, the uninitialised `_process` is read. `process.c:540-610` -/
def processLoadForSlotBy (alloc : BitVec 32 → KernelM Addr) (data : Addr → KernelM ℤ)
    (rest : Addr → ℤ → KernelM (ℤ × Addr)) (filename : List (BitVec 8)) (process_slot : ℤ) :
    KernelM (ℤ × Addr) := do
  let k ← get
  if processGet k.processes process_slot ≠ 0#32 then failure
  else do
    let process ← alloc sizeofProcess
    if process = 0#32 then pure (-enomem, 0#32)
    else processLoadRecord data rest filename process_slot process

/-- `process_load_for_slot`. `process.c:540-610` -/
def processLoadForSlot (filename : List (BitVec 8)) (elf binary : FilePass) (process_slot : ℤ) :
    KernelM (ℤ × Addr) :=
  processLoadForSlotBy kzalloc (processLoadData elf binary) processLoadTask filename process_slot

/-- `process_load_for_slot`, where the record may be granted past the end of the arena. -/
def processLoadForSlotPast (filename : List (BitVec 8)) (elf binary : FilePass)
    (process_slot : ℤ) : KernelM (ℤ × Addr) :=
  processLoadForSlotBy kzallocPast (processLoadData elf binary) processLoadTask filename process_slot

/-- `process_get_free_slot`. `process.c:499-508` -/
def processGetFreeSlot (processes : ℕ → Addr) : ℤ :=
  match (List.range maerosMaxProcesses).find? fun i => processes i == 0#32 with
  | some i => i
  | none => -eistkn

/-- `process_load`, where `load` is `process_load_for_slot`. `process.c:511-524` -/
def processLoadBy (load : ℤ → KernelM (ℤ × Addr)) : KernelM (ℤ × Addr) := do
  let k ← get
  let process_slot := processGetFreeSlot k.processes
  if process_slot < 0 then pure (-eistkn, 0#32)
  else load process_slot

/-- `process_load`. -/
def processLoad (filename : List (BitVec 8)) (elf binary : FilePass) : KernelM (ℤ × Addr) :=
  processLoadBy (processLoadForSlot filename elf binary)

/-! ## Termination -/

/-- `process_free(process, process->allocations[i].ptr)`. -/
def processFreeSlot (process : Addr) (i : ℕ) : KernelM Unit := do
  let k ← get
  processFree process ((k.procs process).allocations i).ptr

/-- `process_terminate_allocations`: `process_free` of every slot, in use or not.
`process.c:142-150` -/
def processTerminateAllocations (process : Addr) : KernelM ℤ := do
  forUpto maerosMaxProgramAllocations (processFreeSlot process)
  pure 0

/-- `process_free_program_data`. `process.c:153-182` -/
def processFreeProgramData (process : Addr) : KernelM ℤ := do
  let k ← get
  if (k.procs process).filetype = processFiletypeBinary then do
    kfree (k.procs process).ptr
    pure 0
  else if (k.procs process).filetype = processFiletypeElf then do
    elfClose (k.procs process).ptr
    pure 0
  else pure (-einvarg)

/-- `process_switch_to_any`. `process.c:185-198` -/
def processSwitchToAny : KernelM Unit := do
  let k ← get
  match (List.range maerosMaxProcesses).find? fun i => k.processes i != 0#32 with
  | some i => set { k with current_process := k.processes i }
  | none => failure

/-- `process_unlink`. `process.c:201-209` -/
def processUnlink (process : Addr) : KernelM Unit := do
  modify fun k => { k with processes := Function.update k.processes (k.procs process).id 0#32 }
  let k ← get
  if k.current_process = process then processSwitchToAny else pure ()

/-- `process_terminate`, where `free` is `task_free`. The record of the process itself is not
freed. `process.c:212-238` -/
def processTerminateBy (free : Addr → KernelM ℤ) (process : Addr) : KernelM ℤ := do
  let _ ← processTerminateAllocations process
  let res ← processFreeProgramData process
  if res < 0 then pure res
  else do
    let k ← get
    kfree (k.procs process).stack
    let _ ← free (k.procs process).task
    processUnlink process
    pure res

/-- `process_terminate`, over the records of the tasks. -/
def processTerminate (process : Addr) : KernelM ℤ := processTerminateBy taskFree process

end MaerOS.Model
