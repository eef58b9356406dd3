import MaerOS.Model.Task

/-!
# Memory of user programs: the allocation half of `process.c`

A process asks for memory through `process_malloc` and gives it back through
`process_free`. Three tables take part: the heap table, the array `allocations` of
the process, and the page directory of its task, in which the memory is mapped
writable for as long as the process has it.
-/

set_option autoImplicit false

namespace MaerOS.Model

open MaerOS.Lib

/-- `sizeof(struct process)`: 8192 of its bytes are `allocations` and 1024 the keyboard buffer. -/
def sizeofProcess : BitVec 32 := 9364#32

/-- Assign to fields of the process at `process`. -/
def onProcess (process : Addr) (f : Process → Process) : KernelM Unit := fun k =>
  some ((), { k with procs := Function.update k.procs process (f (k.procs process)) })

/-- `process_find_free_allocation_index`. `process.c:50-63` -/
def processFindFreeAllocationIndex (process : Process) : ℤ :=
  match (List.range maerosMaxProgramAllocations).find? fun i =>
    (process.allocations i).ptr == 0#32 with
  | some i => i
  | none => -enomem

/-- `paging_map_to(process->task->page_directory, virt, phys, phys_end, flags)`. -/
def processMapTo (process virt phys phys_end : Addr) (flags : BitVec 32) : KernelM ℤ := do
  let k ← get
  deref (k.procs process).task
  let page_directory := (k.sched.tasks (k.procs process).task).page_directory
  let (res, mem) := pagingMapTo k.mem page_directory virt phys phys_end flags
  set { k with mem := mem }
  pure res

/-- `process->allocations[index] = { ptr, size }`. -/
def Process.setAllocation (process : Process) (index : ℕ) (allocation : ProcessAllocation) :
    Process :=
  { process with allocations := Function.update process.allocations index allocation }

/-- The flags of memory given to a process. -/
def processMallocFlags : BitVec 32 := pagingIsWriteable ||| pagingIsPresent ||| pagingAccessFromAll

/-- `process_malloc`. `process.c:66-99` -/
def processMalloc (process : Addr) (size : BitVec 32) : KernelM Addr := do
  let ptr ← kzalloc size
  if ptr = 0#32 then pure 0#32
  else do
    deref process
    let k ← get
    let index := processFindFreeAllocationIndex (k.procs process)
    if index < 0 then do
      kfree ptr
      pure 0#32
    else do
      let res ← processMapTo process ptr ptr (pagingAlignAddress (ptr + size))
        processMallocFlags
      if res < 0 then do
        kfree ptr
        pure 0#32
      else do
        onProcess process fun p => p.setAllocation index.toNat ⟨ptr, size⟩
        pure ptr

/-- `process_allocation_unjoin`: every slot that holds the pointer is cleared.
`process.c:117-127` -/
def processAllocationUnjoin (process : Process) (ptr : Addr) : Process :=
  { process with
    allocations := fun i =>
      if i < maerosMaxProgramAllocations ∧ (process.allocations i).ptr = ptr then ⟨0#32, 0#32⟩
      else process.allocations i }

/-- `process_get_allocation_by_addr`. `process.c:131-140` -/
def processGetAllocationByAddr (process : Process) (addr : Addr) : Option ProcessAllocation :=
  ((List.range maerosMaxProgramAllocations).find? fun i =>
    (process.allocations i).ptr == addr).map process.allocations

/-- `process_free`. The null pointer is found in every slot that is not in use.
`process.c:311-332` -/
def processFree (process ptr : Addr) : KernelM Unit := do
  deref process
  let k ← get
  match processGetAllocationByAddr (k.procs process) ptr with
  | none => pure ()
  | some allocation => do
    let res ← processMapTo process allocation.ptr allocation.ptr
      (pagingAlignAddress (allocation.ptr + allocation.size)) 0#32
    if res < 0 then pure ()
    else do
      onProcess process fun p => processAllocationUnjoin p ptr
      kfree ptr

end MaerOS.Model
