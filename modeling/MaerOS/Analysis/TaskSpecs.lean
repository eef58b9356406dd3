import MaerOS.Model.Task
import MaerOS.Analysis.PagingOwns

/-!
# What `task_new` and `task_free` do to the kernel

Both are described as steps on ownership: `task_new` takes the block of the task
and the blocks of its chunk and appends the task to the list, `task_free` gives
these blocks back and removes the task from the list. Neither touches memory that
somebody else owns.
-/

set_option autoImplicit false

namespace MaerOS.Analysis

open MaerOS.Lib MaerOS.Model

/-- `k'` differs from `k` in the heap, the memory, the task list and the two records only. -/
structure OnlyTasks (k k' : Kernel) : Prop where
  procs : k'.procs = k.procs
  elfs : k'.elfs = k.elfs
  processes : k'.processes = k.processes
  current_process : k'.current_process = k.current_process

/-- The entries of a chunk that maps every page to itself for user land to read. -/
def selfMap : ℕ → BitVec 32 := fun p => BitVec.ofNat 32 (4096 * p) ||| taskChunkFlags.setWidth 32

/-- A task as `task_init` leaves it. -/
def newTask (chunk process ip : Addr) : Task :=
  { Task.zero with
    page_directory := chunk
    registers := { Task.zero.registers with
      ip := ip
      ss := userDataSegment
      cs := userCodeSegment
      esp := maerosProgramVirtualStackAddressStart }
    process := process }

/-- Reading the entry point of an ELF file changes nothing. -/
theorem elfHeaderEntry_some {elf_file ip : Addr} {k k' : Kernel}
    (h : elfHeaderEntry elf_file k = some (ip, k')) : k' = k := by
  unfold elfHeaderEntry at h
  obtain ⟨_, k₁, hd, h₁⟩ := prog_bind.mp h
  obtain ⟨-, rfl⟩ := deref_some hd
  obtain ⟨_, k₂, hg, h₂⟩ := prog_bind.mp h₁
  obtain ⟨rfl, rfl⟩ := prog_get.mp hg
  obtain ⟨_, k₃, hd', h₃⟩ := prog_bind.mp h₂
  obtain ⟨-, rfl⟩ := deref_some hd'
  exact ((prog_pure.mp h₃).2).symm

/-- Where the program of a process starts: an ELF file says it, a raw binary starts at a fixed
address. -/
def StartsAt (p : Process) (ip : Addr) : Prop :=
  p.filetype ≠ processFiletypeElf → ip = maerosProgramVirtualAddress

/-- `task_init` with the entry point and the words of the directory. -/
theorem taskInit_started {task process : Addr} {k k' : Kernel} {res : ℤ}
    (h : taskInit task process k = some (res, k')) {rs : List (Addr × ℕ)}
    (ho : HeapOwns k.heap rs) :
    res = 0 ∧ process ≠ 0#32 ∧ ∃ chunk shape ip, HeapOwns k'.heap (chunkRuns chunk shape ++ rs) ∧
      ChunkAt k'.mem chunk shape selfMap ∧ AgreeOnRuns k.mem k'.mem rs ∧ OnlyTasks k k' ∧
      k'.kfrees = k.kfrees ∧ ChunkTaken k.heap chunk shape k'.heap ∧
      k'.sched = k.sched.assign task (fun _ => newTask chunk process ip) ∧
      StartsAt (k.procs process) ip ∧ DirectoryWords k'.mem shape taskChunkFlags := by
  unfold taskInit at h
  obtain ⟨_, k₁, hzero, h₁⟩ := prog_bind.mp h
  cases hzero
  obtain ⟨chunk, k₂, hnew, h₂⟩ := prog_bind.mp h₁
  obtain ⟨shape, hown, hat, hagree, honly, hchunk, htaken, hwords⟩ := pagingNew4gb_owned hnew ho
  obtain ⟨_, k₃, hdir, h₃⟩ := prog_bind.mp h₂
  cases hdir
  rw [if_neg hchunk] at h₃
  obtain ⟨_, k₄, hd, h₄⟩ := prog_bind.mp h₃
  obtain ⟨hproc, rfl⟩ := deref_some hd
  obtain ⟨_, k₅, hg, h₅⟩ := prog_bind.mp h₄
  obtain ⟨rfl, rfl⟩ := prog_get.mp hg
  obtain ⟨ip, k₆, hip, h₆⟩ := prog_bind.mp h₅
  have hk₆ : k₆ = { k₂ with sched := k₂.sched.assign task fun t =>
      { t with page_directory := chunk } } ∧ StartsAt (k₂.procs process) ip := by
    split at hip
    · rename_i helf
      exact ⟨elfHeaderEntry_some hip, fun hne => absurd helf hne⟩
    · exact ⟨((prog_pure.mp hip).2).symm, fun _ => (prog_pure.mp hip).1.symm⟩
  obtain ⟨hk₆, hstart⟩ := hk₆
  obtain ⟨_, k₇, hregs, h₇⟩ := prog_bind.mp h₆
  cases hregs
  obtain ⟨rfl, rfl⟩ := prog_pure.mp h₇
  subst hk₆
  refine ⟨rfl, hproc, chunk, shape, ip, hown, hat, hagree, ?_, honly.kfrees, htaken, ?_, ?_, hwords⟩
  · exact ⟨honly.procs, honly.elfs, honly.processes, honly.current_process⟩
  · dsimp only [TaskList.assign]
    rw [honly.sched]
    dsimp only [TaskList.assign]
    rw [Function.update_idem, Function.update_idem]
    simp only [Function.update_self]
    rfl
  · have hprocs : k₂.procs = k.procs := honly.procs
    rw [← hprocs]
    exact hstart

/-- **`task_init`**, where it has an outcome, has allocated a chunk and written the task. -/
theorem taskInit_some {task process : Addr} {k k' : Kernel} {res : ℤ}
    (h : taskInit task process k = some (res, k')) {rs : List (Addr × ℕ)}
    (ho : HeapOwns k.heap rs) :
    res = 0 ∧ process ≠ 0#32 ∧ ∃ chunk shape ip, HeapOwns k'.heap (chunkRuns chunk shape ++ rs) ∧
      ChunkAt k'.mem chunk shape selfMap ∧ AgreeOnRuns k.mem k'.mem rs ∧ OnlyTasks k k' ∧
      k'.kfrees = k.kfrees ∧ ChunkTaken k.heap chunk shape k'.heap ∧
      k'.sched = k.sched.assign task fun _ => newTask chunk process ip := by
  obtain ⟨hres, hproc, chunk, shape, ip, hown, hat, hagree, honly, hlog, htaken, hsched, -, -⟩ :=
    taskInit_started h ho
  exact ⟨hres, hproc, chunk, shape, ip, hown, hat, hagree, honly, hlog, htaken, hsched⟩

/-- `h'` is the heap after a task and then its chunk were allocated. -/
def TaskTaken (h : Heap) (task chunk : Addr) (shape : ChunkShape) (h' : Heap) : Prop :=
  ∃ h₁, h.kzalloc sizeofTask = some (task, h₁) ∧ ChunkTaken h₁ chunk shape h'

/-- **`task_new`**, where it has an outcome, has allocated the task, initialised it and put it on the
list. -/
theorem taskNewBy_parts {link remove : Addr → KernelM Unit} {process task : Addr} {k k' : Kernel}
    {rs : List (Addr × ℕ)} (ho : HeapOwns k.heap rs) :
    taskNewBy link (taskFreeBy remove) process k = some (task, k') ↔
      ∃ k₁ k₂, Model.kzalloc sizeofTask k = some (task, k₁) ∧ task ≠ 0#32 ∧
        HeapOwns k₁.heap ((task, 1) :: rs) ∧ taskInit task process k₁ = some (0, k₂) ∧
        link task k₂ = some ((), k') := by
  unfold taskNewBy
  constructor
  · intro h
    obtain ⟨p, k₁, hz, h₁⟩ := prog_bind.mp h
    obtain ⟨hheap, -, -, -⟩ := kzalloc_some hz
    obtain ⟨res, k₂, hinit, h₂⟩ := prog_bind.mp h₁
    by_cases hp : p = 0#32
    · -- `task_free` of the null pointer has no outcome
      exfalso
      rw [if_pos hp] at hinit
      obtain ⟨rfl, rfl⟩ := prog_pure.mp hinit
      obtain ⟨_, k₃, hskip, h₃⟩ := prog_bind.mp h₂
      rw [if_pos (by decide)] at h₃
      obtain ⟨_, k₄, hfree, -⟩ := prog_bind.mp h₃
      obtain ⟨_, _, hd, -⟩ := prog_bind.mp hfree
      exact (deref_some hd).1 hp
    · rw [if_neg hp] at hinit
      have ho₁ : HeapOwns k₁.heap ((p, 1) :: rs) :=
        ((ho.kzalloc (by decide) hheap).resolve_left fun h0 => hp h0.1).2
      obtain ⟨rfl, -⟩ := taskInit_started hinit ho₁
      obtain ⟨_, k₃, hlink, h₃⟩ := prog_bind.mp h₂
      rw [if_pos rfl] at hlink
      rw [if_neg (by decide)] at h₃
      obtain ⟨rfl, rfl⟩ := prog_pure.mp h₃
      exact ⟨k₁, k₂, hz, hp, ho₁, hinit, hlink⟩
  · rintro ⟨k₁, k₂, hz, htask, -, hinit, hlink⟩
    rw [bind_of_some hz, if_neg htask, bind_of_some hinit, if_pos rfl, bind_of_some hlink,
      if_neg (by decide)]
    rfl

/-- `task_new` with the entry point and the words of the directory. -/
theorem taskNew_started {process task : Addr} {k k' : Kernel}
    (h : taskNew process k = some (task, k')) {rs : List (Addr × ℕ)}
    (ho : HeapOwns k.heap rs) :
    process ≠ 0#32 ∧ ∃ chunk shape ip,
      HeapOwns k'.heap (chunkRuns chunk shape ++ (task, 1) :: rs) ∧
      ChunkAt k'.mem chunk shape selfMap ∧ AgreeOnRuns k.mem k'.mem rs ∧ OnlyTasks k k' ∧
      k'.kfrees = k.kfrees ∧ TaskTaken k.heap task chunk shape k'.heap ∧ k'.sched =
        taskListAppend (k.sched.assign task fun _ => newTask chunk process ip) task ∧
      StartsAt (k.procs process) ip ∧ DirectoryWords k'.mem shape taskChunkFlags := by
  obtain ⟨k₁, k₂, hz, -, ho₁, hinit, hlink⟩ := (taskNewBy_parts ho).mp h
  obtain ⟨hheap, -, -, honly⟩ := kzalloc_some hz
  have hagree₁ : AgreeOnRuns k.mem k₁.mem rs := agreeOnRuns_kzalloc hz ho₁
  obtain ⟨-, hproc, chunk, shape, ip, hown, hat, hagree₂, honly₂, hlog, htaken, hsched, hstart,
    hwords⟩ := taskInit_started hinit ho₁
  unfold taskLink at hlink
  obtain ⟨_, k₄, hg, hlink₁⟩ := prog_bind.mp hlink
  obtain ⟨rfl, rfl⟩ := prog_get.mp hg
  obtain ⟨_, k₅, hd, hlink₂⟩ := prog_bind.mp hlink₁
  have hk₅ : k₅ = k₂ := by
    split at hd
    · exact (deref_some hd).2
    · exact ((prog_pure.mp hd).2).symm
  subst hk₅
  cases hlink₂
  refine ⟨hproc, chunk, shape, ip, hown, hat, hagree₁.trans
    (hagree₂.subset fun r hr => List.mem_cons_of_mem _ hr), ?_, ?_, ⟨k₁.heap, hheap, htaken⟩, ?_, ?_,
    hwords⟩
  · exact ⟨honly₂.procs.trans honly.procs, honly₂.elfs.trans honly.elfs,
      honly₂.processes.trans honly.processes,
      honly₂.current_process.trans honly.current_process⟩
  · exact hlog.trans honly.kfrees
  · dsimp only
    rw [hsched, honly.sched]
  · rw [← honly.procs]
    exact hstart

/-- **`task_new`**, where it has an outcome, has allocated a task and its chunk and appended the
task to the list. -/
theorem taskNew_some {process task : Addr} {k k' : Kernel}
    (h : taskNew process k = some (task, k')) {rs : List (Addr × ℕ)}
    (ho : HeapOwns k.heap rs) :
    process ≠ 0#32 ∧ ∃ chunk shape ip,
      HeapOwns k'.heap (chunkRuns chunk shape ++ (task, 1) :: rs) ∧
      ChunkAt k'.mem chunk shape selfMap ∧ AgreeOnRuns k.mem k'.mem rs ∧ OnlyTasks k k' ∧
      k'.kfrees = k.kfrees ∧ TaskTaken k.heap task chunk shape k'.heap ∧ k'.sched =
        taskListAppend (k.sched.assign task fun _ => newTask chunk process ip) task := by
  obtain ⟨hproc, chunk, shape, ip, hown, hat, hagree, honly, hlog, htaken, hsched, -, -⟩ :=
    taskNew_started h ho
  exact ⟨hproc, chunk, shape, ip, hown, hat, hagree, honly, hlog, htaken, hsched⟩

/-- **`task_free`** of a task that owns its block and its chunk gives them back and removes the
task from the list. -/
theorem taskFree_owns {task : Addr} {shape : ChunkShape} {pm : ℕ → BitVec 32} {k : Kernel}
    (hat : ChunkAt k.mem (k.sched.tasks task).page_directory shape pm) {rs : List (Addr × ℕ)}
    (ho : HeapOwns k.heap
      (chunkRuns (k.sched.tasks task).page_directory shape ++ (task, 1) :: rs)) :
    ∃ heap kfrees, taskFree task k = some (0, { k with
        heap := heap
        sched := taskListRemove k.sched task
        kfrees := kfrees }) ∧ HeapOwns heap rs := by
  have hne : task ≠ 0#32 := ho.ne_zero (List.mem_append_right _ List.mem_cons_self)
  obtain ⟨heap, kfrees, hfree, hown⟩ := pagingFree4gb_owns hat ho
  refine ⟨heapFree heap task, task :: kfrees, ?_, hown.kfree⟩
  unfold taskFree taskFreeBy
  refine prog_bind.mpr ⟨_, k, deref_of_ne hne k, ?_⟩
  refine prog_bind.mpr ⟨k, k, rfl, ?_⟩
  refine prog_bind.mpr ⟨_, _, hfree, ?_⟩
  refine prog_bind.mpr ⟨_, _, rfl, ?_⟩
  exact prog_bind.mpr ⟨_, _, rfl, rfl⟩

/-- **`task_new` on a packed heap** takes the next 1027 blocks, for a process that is a raw
binary. -/
theorem Packed.taskNew {k : Kernel} {s : ℕ} (hp : Packed k.heap s) (hfit : s + 1027 ≤ 25600)
    (process : Addr) (hproc : process ≠ 0#32)
    (hbin : (k.procs process).filetype ≠ processFiletypeElf)
    (htail : k.sched.task_head ≠ 0#32 → k.sched.task_tail ≠ 0#32) :
    ∃ k', Model.taskNew process k = some (blockAddr s, k') ∧ Packed k'.heap (s + 1027) ∧
      OnlyTasks k k' ∧ k'.sched.task_tail = blockAddr s := by
  obtain ⟨k₁, hz, hp₁, -⟩ := hp.kernel_kzalloc sizeofTask (by decide)
    (by rw [show blocksFor sizeofTask = 1 from rfl]; omega)
  rw [show blocksFor sizeofTask = 1 from rfl] at hp₁
  obtain ⟨-, -, -, honly⟩ := kzalloc_some hz
  have htask : blockAddr s ≠ 0#32 := blockAddr_ne_zero (by omega)
  have hchunk : blockAddr (s + 1 + 1025) ≠ 0#32 := blockAddr_ne_zero (by omega)
  -- `task_init` first zeroes the task
  obtain ⟨k₂, hnew, hp₂, -⟩ := Packed.pagingNew4gb
    (k := { k₁ with sched := k₁.sched.assign (blockAddr s) fun _ => Task.zero }) hp₁ (by omega)
    taskChunkFlags
  obtain ⟨-, -, -, -, -, -, -, -, -, -, -, honly₂, -⟩ := pagingNew4gb_spec hnew
  rw [show s + 1 + 1026 = s + 1027 from by omega] at hp₂
  have hprocs : k₂.procs = k.procs := honly₂.procs.trans honly.procs
  have hbin₂ : ¬ (k₂.procs process).filetype = processFiletypeElf := by
    rw [hprocs]
    exact hbin
  have hinit : ∃ sched, taskInit (blockAddr s) process k₁ =
      some (0, { k₂ with sched := sched }) ∧ sched.task_head = k₂.sched.task_head ∧
      sched.task_tail = k₂.sched.task_tail := by
    apply Exists.intro
    refine ⟨?_, ?_, ?_⟩
    · unfold taskInit
      refine prog_bind.mpr ⟨_, _, rfl, ?_⟩
      refine prog_bind.mpr ⟨_, k₂, hnew, ?_⟩
      refine prog_bind.mpr ⟨_, _, rfl, ?_⟩
      rw [if_neg hchunk]
      refine prog_bind.mpr ⟨_, _, deref_of_ne hproc _, ?_⟩
      refine prog_bind.mpr ⟨_, _, rfl, ?_⟩
      rw [if_neg hbin₂]
      refine prog_bind.mpr ⟨_, _, rfl, ?_⟩
      exact prog_bind.mpr ⟨_, _, rfl, rfl⟩
    · rfl
    · rfl
  obtain ⟨sched, hcode, hh, ht⟩ := hinit
  have hsched : k₂.sched.task_head = k.sched.task_head ∧
      k₂.sched.task_tail = k.sched.task_tail := by
    rw [honly₂.sched, ← honly.sched]
    exact ⟨rfl, rfl⟩
  rw [hsched.1] at hh
  rw [hsched.2] at ht
  have honly' : OnlyTasks k k₂ := ⟨hprocs, honly₂.elfs.trans honly.elfs,
    honly₂.processes.trans honly.processes, honly₂.current_process.trans honly.current_process⟩
  refine ⟨{ k₂ with sched := taskListAppend sched (blockAddr s) }, ?_, hp₂,
    ⟨honly'.procs, honly'.elfs, honly'.processes, honly'.current_process⟩, ?_⟩
  · unfold Model.taskNew taskNewBy
    refine prog_bind.mpr ⟨_, k₁, hz, ?_⟩
    rw [if_neg htask]
    refine prog_bind.mpr ⟨_, _, hcode, ?_⟩
    rw [if_pos rfl, if_neg (by decide)]
    refine prog_bind.mpr ⟨(), { k₂ with sched := taskListAppend sched (blockAddr s) }, ?_, rfl⟩
    unfold taskLink
    refine prog_bind.mpr ⟨_, _, rfl, ?_⟩
    refine prog_bind.mpr ⟨(), { k₂ with sched := sched }, ?_, rfl⟩
    dsimp only
    split
    · rename_i hne
      rw [hh] at hne
      rw [ht]
      exact deref_of_ne (htail hne) _
    · rfl
  · show (taskListAppend sched (blockAddr s)).task_tail = _
    unfold taskListAppend
    split <;> rfl

end MaerOS.Analysis
