import MaerOS.Model.Heap
import MaerOS.Model.Paging

/-!
# The state of the process side of the kernel

The kernel heap, physical memory, the task list, the processes and the ELF file
records. Arrays that the code addresses word by word or byte by byte (page tables,
program images, the memory handed to programs) are in `mem`; the C structures that
are only ever reached through typed pointers (`struct task`, `struct process`,
`struct elf_file`) are kept in one store for each type, by address.

Kernel code is a partial state transformer: it has no outcome where the C program
has undefined behaviour (a null pointer is dereferenced, an uninitialised variable
is read, `memset` leaves the heap's arena). `kallocs` and `kfrees` record the
pointers that came out of `kzalloc` and went into `kfree`; no function reads them.
-/

set_option autoImplicit false

namespace MaerOS.Model

open MaerOS.Lib

/-- `struct registers`. `task.h:13-29` -/
structure Registers where
  edi : BitVec 32
  esi : BitVec 32
  ebp : BitVec 32
  ebx : BitVec 32
  edx : BitVec 32
  ecx : BitVec 32
  eax : BitVec 32
  ip : BitVec 32
  cs : BitVec 32
  flags : BitVec 32
  esp : BitVec 32
  ss : BitVec 32
  deriving DecidableEq, Inhabited

/-- `struct task`. `task.h:35-51` -/
structure Task where
  page_directory : Addr
  registers : Registers
  process : Addr
  next : Addr
  prev : Addr
  deriving DecidableEq, Inhabited

/-- The bytes of `struct task` are all zero. -/
def Task.zero : Task :=
  { page_directory := 0#32, process := 0#32, next := 0#32, prev := 0#32
    registers := ⟨0#32, 0#32, 0#32, 0#32, 0#32, 0#32, 0#32, 0#32, 0#32, 0#32, 0#32, 0#32⟩ }

/-- The tasks and the three globals of `task.c`. `task.c:13-17` -/
structure TaskList where
  tasks : Addr → Task
  current_task : Addr
  task_tail : Addr
  task_head : Addr

/-- `struct process_allocation`. `process.h:16-20` -/
structure ProcessAllocation where
  ptr : Addr
  size : BitVec 32
  deriving DecidableEq, Inhabited

/-- `PROCESS_FILETYPE_ELF`. `process.h:9` -/
def processFiletypeElf : BitVec 8 := 0#8

/-- `PROCESS_FILETYPE_BINARY`. `process.h:11` -/
def processFiletypeBinary : BitVec 8 := 1#8

/-- `struct process`, without the keyboard buffer and the arguments. `ptr` is the union of the
image pointer and the ELF file pointer. `process.h:36-82` -/
structure Process where
  id : ℕ
  filename : List (BitVec 8)
  task : Addr
  allocations : ℕ → ProcessAllocation
  filetype : BitVec 8
  ptr : Addr
  stack : Addr
  size : BitVec 32

/-- The bytes of `struct process` are all zero. -/
def Process.zero : Process :=
  { id := 0, filename := [], task := 0#32, allocations := fun _ => ⟨0#32, 0#32⟩
    filetype := 0#8, ptr := 0#32, stack := 0#32, size := 0#32 }

/-- `struct elf_file`, without the unused name and size. `elfloader.h:11-46` -/
structure ElfFile where
  elf_memory : Addr
  virtual_base_address : Addr
  virtual_end_address : Addr
  physical_base_address : Addr
  physical_end_address : Addr

/-- The bytes of `struct elf_file` are all zero. -/
def ElfFile.zero : ElfFile := ⟨0#32, 0#32, 0#32, 0#32, 0#32⟩

/-- The state of the kernel. -/
structure Kernel where
  heap : Heap
  mem : Memory
  sched : TaskList
  procs : Addr → Process
  elfs : Addr → ElfFile
  processes : ℕ → Addr
  current_process : Addr
  kallocs : List Addr
  kfrees : List Addr

/-- Kernel code. -/
abbrev KernelM := StateT Kernel Option

/-- Use `p` as a pointer to a structure: undefined behaviour if it is null. -/
def deref (p : Addr) : KernelM Unit := fun k => if p = 0#32 then none else some ((), k)

/-- `kzalloc`. `kheap.c:42-50` -/
def kzalloc (size : BitVec 32) : KernelM Addr := fun k =>
  match k.heap.kzalloc size with
  | none => none
  | some (ptr, heap) =>
    some (ptr, { k with
      heap := heap
      mem := if ptr = 0#32 then k.mem else zeroFill k.mem ptr size.toNat
      kallocs := ptr :: k.kallocs })

/-- `kzalloc` where `memset` may leave the arena of the heap and clears what lies behind it.
`kheap.c:42-50` -/
def kzallocPast (size : BitVec 32) : KernelM Addr := fun k =>
  let (ptr, heap) := heapMalloc k.heap size
  some (ptr, { k with
    heap := heap
    mem := if ptr = 0#32 then k.mem else zeroFill k.mem ptr size.toNat
    kallocs := ptr :: k.kallocs })

/-- `kfree`. `kheap.c:52-55` -/
def kfree (ptr : Addr) : KernelM Unit := fun k =>
  some ((), { k with heap := heapFree k.heap ptr, kfrees := ptr :: k.kfrees })

/-- Store a word to memory. -/
def storeWord (a : Addr) (v : BitVec 32) : KernelM Unit := fun k =>
  some ((), { k with mem := store32 k.mem a v })

/-- Carry out `body i` for `i = 0, …, n - 1`. -/
def forUpto (n : ℕ) (body : ℕ → KernelM Unit) : KernelM Unit := (List.range n).forM body

/-! ## Chunks: the allocating half of `paging.c` -/

/-- One round of the outer loop of `paging_new_4gb`: allocate and fill table `i`, enter it in the
directory and advance `offset`. The inner loop maps entry `b` to `offset + b * 4096`. -/
def pagingNewTable (directory : Addr) (flags : BitVec 8) (offset : BitVec 32) (i : ℕ) :
    KernelM (BitVec 32) := do
  let entry ← kzalloc (BitVec.ofNat 32 (4 * pagingTotalEntriesPerTable))
  deref entry
  forUpto pagingTotalEntriesPerTable fun b =>
    storeWord (wordIndex entry b)
      ((offset + BitVec.ofNat 32 (b * pagingPageSize)) ||| flags.setWidth 32)
  deref directory
  storeWord (wordIndex directory i) (entry ||| flags.setWidth 32 ||| pagingIsWriteable)
  pure (offset + BitVec.ofNat 32 (pagingTotalEntriesPerTable * pagingPageSize))

/-- `paging_new_4gb`. `paging.c:12-36` -/
def pagingNew4gb (flags : BitVec 8) : KernelM Addr := do
  let directory ← kzalloc (BitVec.ofNat 32 (4 * pagingTotalEntriesPerTable))
  let _ ← (List.range pagingTotalEntriesPerTable).foldlM (pagingNewTable directory flags) 0#32
  let chunk_4gb ← kzalloc 4#32
  deref chunk_4gb
  storeWord chunk_4gb directory
  pure chunk_4gb

/-- One round of the loop of `paging_free_4gb`: free the table that entry `i` points to. -/
def pagingFreeTable (chunk : Addr) (i : ℕ) : KernelM Unit := do
  let k ← get
  let entry := load32 k.mem (wordIndex (load32 k.mem chunk) i)
  kfree (entry &&& 0xfffff000#32)

/-- `paging_free_4gb`. `paging.c:46-58` -/
def pagingFree4gb (chunk : Addr) : KernelM Unit := do
  deref chunk
  forUpto 1024 (pagingFreeTable chunk)
  let k ← get
  kfree (load32 k.mem chunk)
  kfree chunk

end MaerOS.Model
