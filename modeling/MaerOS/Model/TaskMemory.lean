import MaerOS.Lib.Mmu
import MaerOS.Model.Command

/-!
# The memory of a task, as the kernel reads it

A system call finds the caller's values in the caller's memory: words of its stack,
pointers that it turns into physical addresses, strings that it copies. While the
page directory of the task is loaded, every access goes through its tables, as an
access of the supervisor: only the present bits count, and an entry without one is
a page fault, which the kernel does not survive (no outcome). The kernel's own
directory maps every page to itself. What the compiler keeps on the kernel stack is
not in the memory of the model.
-/

set_option autoImplicit false

namespace MaerOS.Model

open MaerOS.Lib

/-- The access of the supervisor, whose stores ignore the writeable bits: `enable_paging` leaves
the write-protect bit of `cr0` clear. `paging.asm:16-23` -/
def taskWalk (cr3 : Addr) (m : Memory) (v : Addr) : Option Addr := mmuWalk m cr3 pagingIsPresent v

/-- `task->page_directory->directory_entry`. -/
def taskDirectory (task : Addr) : KernelM Addr := do
  deref task
  let k ← get
  let page_directory := (k.sched.tasks task).page_directory
  deref page_directory
  pure (load32 k.mem page_directory)

/-- A word read through the tables of a directory, byte by byte. -/
def loadThrough (cr3 : Addr) (m : Memory) (v : Addr) : Option (BitVec 32) := do
  let b0 ← (taskWalk cr3 m v).map m
  let b1 ← (taskWalk cr3 m (v + 1#32)).map m
  let b2 ← (taskWalk cr3 m (v + 2#32)).map m
  let b3 ← (taskWalk cr3 m (v + 3#32)).map m
  pure (b3 ++ b2 ++ b1 ++ b0)

/-- `task_get_stack_item`. `task.c:275-293` -/
def taskGetStackItem (task : Addr) (index : ℕ) : KernelM Addr := do
  let cr3 ← taskDirectory task
  let k ← get
  let sp_ptr := (k.sched.tasks task).registers.esp
  match loadThrough cr3 k.mem (wordIndex sp_ptr index) with
  | none => failure
  | some result => pure result

/-- `task_virtual_address_to_physical`. `task.c:295-298` -/
def taskVirtualAddressToPhysical (task virtual_address : Addr) : KernelM Addr := do
  let cr3 ← taskDirectory task
  let k ← get
  pure (pagingGetPhysicalAddress k.mem cr3 virtual_address)

/-- The flags under which the temporary page is mapped while the string is copied to it. -/
def copyFlags : BitVec 32 := pagingIsWriteable ||| pagingIsPresent ||| pagingAccessFromAll

/-- The copy of `copy_string_from_task`, from the temporary page on. -/
def copyStringThrough (task virt phys tmp : Addr) (max : ℤ) : KernelM ℤ := do
  let task_directory ← taskDirectory task
  let k ← get
  let page_directory := (k.sched.tasks task).page_directory
  let old_entry := pagingGet k.mem task_directory tmp
  let mapped := (pagingMap k.mem page_directory tmp tmp copyFlags).2
  match strncpyThrough (taskWalk (load32 mapped page_directory)) tmp virt (max.toNat - 1) 0
      mapped with
  | none => failure
  | some copied =>
    let (res, restored) := pagingSet copied task_directory tmp old_entry
    if res < 0 then do
      set { k with mem := restored }
      kfree tmp
      pure (-eio)
    else do
      set { k with mem := strncpy restored phys tmp max.toNat }
      kfree tmp
      pure res

/-- `copy_string_from_task`. The result of `paging_map` is not looked at. `task.c:160-201` -/
def copyStringFromTask (task virt phys : Addr) (max : ℤ) : KernelM ℤ :=
  if max ≥ (pagingPageSize : ℤ) then pure (-einvarg)
  else do
    let tmp ← kzalloc (BitVec.ofInt 32 max)
    if tmp = 0#32 then pure (-enomem)
    else copyStringThrough task virt phys tmp max

end MaerOS.Model
