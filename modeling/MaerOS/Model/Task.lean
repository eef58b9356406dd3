import MaerOS.Model.Kernel

/-!
# Tasks: creation, removal and the task list of `task.c`

A task is allocated and linked by `task_new` and unlinked and freed by
`task_free`. The three globals `current_task`, `task_tail`, `task_head` and the
link fields are edited one assignment at a time, each reading what the one before
it left.
-/

set_option autoImplicit false

namespace MaerOS.Model

open MaerOS.Lib

/-- `sizeof(struct task)`: sixteen words. -/
def sizeofTask : BitVec 32 := 64#32

/-- Assign to fields of the task at `task`. -/
def TaskList.assign (s : TaskList) (task : Addr) (f : Task → Task) : TaskList :=
  { s with tasks := Function.update s.tasks task (f (s.tasks task)) }

/-- Change the task list. -/
def onTasks (f : TaskList → TaskList) : KernelM Unit := fun k =>
  some ((), { k with sched := f k.sched })

/-- `task_get_next`, for a current task that is not null. `task.c:65-73` -/
def taskGetNext (s : TaskList) : Addr :=
  if (s.tasks s.current_task).next = 0#32 then s.task_head
  else (s.tasks s.current_task).next

/-- `task_switch` as the task list sees it; the rest of it loads the task's page directory.
`task.c:126-131` -/
def taskSwitch (s : TaskList) (task : Addr) : TaskList := { s with current_task := task }

/-- The selection of `task_next`: the task it dispatches and the list it leaves. Reading through a
null `current_task` and the panic without a next task have no outcome. `task.c:113-124` -/
def taskNext (s : TaskList) : Option (Addr × TaskList) :=
  if s.current_task = 0#32 then none
  else if taskGetNext s = 0#32 then none
  else some (taskGetNext s, taskSwitch s (taskGetNext s))

/-- `task_list_remove`, for a task that is not null. The `prev` field of the next task is not
touched. `task.c:76-97` -/
def taskListRemove (s : TaskList) (task : Addr) : TaskList :=
  let s :=
    if (s.tasks task).prev ≠ 0#32 then
      s.assign (s.tasks task).prev fun p => { p with next := (s.tasks task).next }
    else s
  let s := if task = s.task_head then { s with task_head := (s.tasks task).next } else s
  let s := if task = s.task_tail then { s with task_tail := (s.tasks task).prev } else s
  if task = s.current_task then { s with current_task := taskGetNext s } else s

/-- `task_free`, where `remove` is `task_list_remove`. `task.c:102-110` -/
def taskFreeBy (remove : Addr → KernelM Unit) (task : Addr) : KernelM ℤ := do
  deref task
  let k ← get
  pagingFree4gb (k.sched.tasks task).page_directory
  remove task
  kfree task
  pure 0

/-- `task_free` over the records of the tasks. -/
def taskFree (task : Addr) : KernelM ℤ :=
  taskFreeBy (fun task => onTasks fun s => taskListRemove s task) task

/-- `elf_header(elf_file)->e_entry`, the word at byte 24 of the image. `elfloader.c:64-67` -/
def elfHeaderEntry (elf_file : Addr) : KernelM Addr := do
  deref elf_file
  let k ← get
  deref (k.elfs elf_file).elf_memory
  pure (load32 k.mem ((k.elfs elf_file).elf_memory + 24#32))

/-- The flags of a task's chunk: present, and accessible from user land. -/
def taskChunkFlags : BitVec 8 := 5#8

/-- `task_init`. `task.c:242-273` -/
def taskInit (task process : Addr) : KernelM ℤ := do
  onTasks fun s => s.assign task fun _ => Task.zero
  let page_directory ← pagingNew4gb taskChunkFlags
  onTasks fun s => s.assign task fun t => { t with page_directory := page_directory }
  if page_directory = 0#32 then pure (-eio)
  else do
    deref process
    let k ← get
    let ip ← (if (k.procs process).filetype = processFiletypeElf then
        elfHeaderEntry (k.procs process).ptr
      else pure maerosProgramVirtualAddress)
    onTasks fun s => s.assign task fun t =>
      { t with
        registers := { t.registers with
          ip := ip
          ss := userDataSegment
          cs := userCodeSegment
          esp := maerosProgramVirtualStackAddressStart }
        process := process }
    pure 0

/-- The linking half of `task_new`. `task.c:42-52` -/
def taskListAppend (s : TaskList) (task : Addr) : TaskList :=
  if s.task_head = 0#32 then
    { s with task_head := task, task_tail := task, current_task := task }
  else
    let s := s.assign s.task_tail fun t => { t with next := task }
    let s := s.assign task fun t => { t with prev := s.task_tail }
    { s with task_tail := task }

/-- `task_new` from the list on: the tail is dereferenced unless the list is empty. -/
def taskLink (task : Addr) : KernelM Unit := do
  let k ← get
  (if k.sched.task_head ≠ 0#32 then deref k.sched.task_tail else pure ())
  onTasks fun s => taskListAppend s task

/-- `task_new`, where `link` is what it does to the list; an error code is returned as a pointer,
after `task_free` of the task, which is null when its allocation failed. `task.c:26-62` -/
def taskNewBy (link : Addr → KernelM Unit) (free : Addr → KernelM ℤ) (process : Addr) :
    KernelM Addr := do
  let task ← kzalloc sizeofTask
  let res ← (if task = 0#32 then pure (-enomem) else taskInit task process)
  (if res = maerosAllOk then link task else pure ())
  if res < 0 then do
    let _ ← free task
    pure (BitVec.ofInt 32 res)
  else pure task

/-- `task_new` over the records of the tasks. -/
def taskNew (process : Addr) : KernelM Addr := taskNewBy taskLink taskFree process

end MaerOS.Model
