import MaerOS.Lib.Run
import MaerOS.Analysis.ProcessAlloc
import MaerOS.Analysis.TaskRuns

/-!
# Processes cannot write each other's memory

A run starts processes, each on the page directory that `task_init` builds for it,
and carries out any sequence of `process_malloc` and `process_free` by them. The
invariant is that the heap table is the picture of what the processes hold and
that each of them can write its own allocations only; it survives every step
except a `process_malloc` of no bytes, which hands out the address of a free block
and records it, so that a later `process_free` of that address releases the block
under whoever has it by then.
-/

set_option autoImplicit false

namespace MaerOS.Analysis

open MaerOS.Lib MaerOS.Model

/-- One step of a run. -/
inductive MemOp where
  /-- A process gets its task. -/
  | start (process : Addr)
  /-- `process_malloc`. -/
  | malloc (process : Addr) (size : BitVec 32)
  /-- `process_free`. -/
  | free (process ptr : Addr)

/-- The kernel and the processes that have been started. -/
structure MemRun where
  kernel : Kernel
  started : List Addr

/-- `task_new` for a process, and the assignment to `process->task`. `process.c:579-586` -/
def startProcess (process : Addr) : KernelM Unit := do
  let task ← taskNew process
  onProcess process fun p => { p with task := task }

/-- Carry out a step. -/
def MemRun.step (s : MemRun) : MemOp → Option MemRun
  | .start process => (startProcess process s.kernel).map fun r => ⟨r.2, process :: s.started⟩
  | .malloc process size => (processMalloc process size s.kernel).map fun r => ⟨r.2, s.started⟩
  | .free process ptr => (processFree process ptr s.kernel).map fun r => ⟨r.2, s.started⟩

/-- A finished `process_malloc` is a step. -/
theorem MemRun.step_malloc {s : MemRun} {process ptr : Addr} {size : BitVec 32} {k' : Kernel}
    (h : processMalloc process size s.kernel = some (ptr, k')) :
    s.step (.malloc process size) = some ⟨k', s.started⟩ :=
  Option.map_eq_some_iff.mpr ⟨_, h, rfl⟩

/-- What a release does is a step of the run. -/
theorem MemRun.step_free {s : MemRun} {process ptr : Addr} {k' : Kernel} {u : Unit}
    (h : processFree process ptr s.kernel = some (u, k')) :
    s.step (.free process ptr) = some ⟨k', s.started⟩ :=
  Option.map_eq_some_iff.mpr ⟨_, h, rfl⟩

/-- A process is started once, without allocations, and only then makes system calls. -/
def MemRun.Allowed (s : MemRun) : MemOp → Prop
  | .start process => process ∉ s.started ∧
      ∀ i < 1024, ((s.kernel.procs process).allocations i).ptr = 0#32
  | .malloc process _ => process ∈ s.started
  | .free process _ => process ∈ s.started

/-- No `process_malloc` asks for zero bytes while the last block of the heap is free. -/
def MemRun.Safe (s : MemRun) : MemOp → Prop
  | .malloc _ size => RequestSafe s.kernel.heap size
  | _ => True

/-! ## Isolation -/

/-- The page directory of a process. -/
def directoryOf (k : Kernel) (process : Addr) : Addr :=
  load32 k.mem (k.sched.tasks (k.procs process).task).page_directory

/-- Some virtual page of the process is mapped to the page `q` for the program to write. -/
def MapsWritable (k : Kernel) (process : Addr) (q : ℕ) : Prop :=
  ∃ virt, PageAligned virt ∧ UserWritable (pagingGet k.mem (directoryOf k process) virt) ∧
    pageOf (pagingGet k.mem (directoryOf k process) virt) = q

/-- The page `q` belongs to an allocation of the process. -/
def HoldsPage (k : Kernel) (process : Addr) (q : ℕ) : Prop :=
  ∃ i < maerosMaxProgramAllocations, ((k.procs process).allocations i).ptr ≠ 0#32 ∧
    InRun (((k.procs process).allocations i).ptr,
      blocksFor ((k.procs process).allocations i).size) q

/-- No process can write what another process holds, nor a block that is free. -/
structure MemRun.Isolated (s : MemRun) : Prop where
  others : ∀ P ∈ s.started, ∀ Q ∈ s.started, P ≠ Q → ∀ q, HoldsPage s.kernel Q q →
    ¬ MapsWritable s.kernel P q
  free : ∀ P ∈ s.started, ∀ b < s.kernel.heap.table.total, IsFree s.kernel.heap.table.entries b →
    ¬ MapsWritable s.kernel P (pageOf s.kernel.heap.saddr + b)

/-- The invariant of a run: the table is the picture of the allocations of all processes and of
`rs`, which has the blocks of their tasks, and every process is confined. -/
structure MemRun.Inv (s : MemRun) (foots : List ProcFoot) (rs : List (Addr × ℕ)) : Prop where
  started : s.started = foots.map ProcFoot.process
  nodup : s.started.Nodup
  owns : HeapOwns s.kernel.heap (foots.flatMap (ProcFoot.runs s.kernel) ++ rs)
  task : ∀ f ∈ foots, ((s.kernel.procs f.process).task, 1) ∈ rs
  confined : ∀ f ∈ foots, Confined s.kernel f

/-- A page that a confined process can write is in one of its allocations. -/
theorem Confined.writable {k : Kernel} {f : ProcFoot} (h : Confined k f) {q : ℕ}
    (hm : MapsWritable k f.process q) : ∃ r ∈ allocRuns (k.procs f.process), InRun r q := by
  obtain ⟨virt, ha, hw, rfl⟩ := hm
  obtain ⟨pm, hat, hwithin⟩ := h.map
  have hentry : pagingGet k.mem (directoryOf k f.process) virt = pm (pageOf virt) := by
    unfold directoryOf
    rw [h.dir, hat.chunk_word]
    exact pagingGet_spec hat ha
  rw [hentry] at hw ⊢
  obtain ⟨hpage, r, hr, hin⟩ := hwithin _ (pageOf_lt virt) hw
  rw [hpage]
  exact ⟨r, hr, hin⟩

/-- The runs of one of several processes, put in front. -/
theorem flatMap_runs_perm {ι : Type} (F : ι → List (Addr × ℕ)) (init post : List ι) (f : ι)
    (rs : List (Addr × ℕ)) :
    ((init ++ f :: post).flatMap F ++ rs).Perm (F f ++ ((init ++ post).flatMap F ++ rs)) := by
  have hleft : (init ++ f :: post).flatMap F ++ rs =
      init.flatMap F ++ (F f ++ (post.flatMap F ++ rs)) := by simp
  have hright : F f ++ ((init ++ post).flatMap F ++ rs) =
      F f ++ (init.flatMap F ++ (post.flatMap F ++ rs)) := by simp
  rw [hleft, hright]
  exact List.perm_append_comm_assoc _ _ _

/-- **The invariant gives isolation.** -/
theorem MemRun.Inv.isolated {s : MemRun} {foots : List ProcFoot} {rs : List (Addr × ℕ)}
    (h : s.Inv foots rs) : s.Isolated := by
  constructor
  · intro P hP Q hQ hne q hq hm
    rw [h.started] at hP hQ
    obtain ⟨f, hf, rfl⟩ := List.mem_map.mp hP
    obtain ⟨g, hg, rfl⟩ := List.mem_map.mp hQ
    obtain ⟨r, hr, hin⟩ := (h.confined f hf).writable hm
    obtain ⟨i, hi, hnz, hin'⟩ := hq
    obtain ⟨init, post, rfl⟩ := List.append_of_mem hf
    have hg' : g ∈ init ++ post := by
      rcases List.mem_append.mp hg with hg | hg
      · exact List.mem_append_left _ hg
      · rcases List.mem_cons.mp hg with rfl | hg
        · exact absurd rfl hne
        · exact List.mem_append_right _ hg
    have hown := h.owns.perm (flatMap_runs_perm _ init post f rs)
    refine (List.pairwise_append.mp hown.apart).2.2 r (List.mem_append_right _ hr) _
      (List.mem_append_left _ (List.mem_flatMap.mpr ⟨g, hg', List.mem_append_right _
        (mem_allocRuns hi hnz)⟩)) q hin hin'
  · intro P hP b hb hfree hm
    rw [h.started] at hP
    obtain ⟨f, hf, rfl⟩ := List.mem_map.mp hP
    obtain ⟨r, hr, hin⟩ := (h.confined f hf).writable hm
    have hmem : r ∈ foots.flatMap (ProcFoot.runs s.kernel) ++ rs :=
      List.mem_append_left _ (List.mem_flatMap.mpr ⟨f, hf, List.mem_append_right _ hr⟩)
    rw [h.owns.saddr, show pageOf 0x01000000#32 = 4096 from rfl] at hin
    exact h.owns.not_isFree hmem hin hfree

/-! ## One step -/

/-- The other processes of a list without repetitions. -/
theorem process_ne_of_nodup {init post : List ProcFoot} {f : ProcFoot}
    (hnd : ((init ++ f :: post).map ProcFoot.process).Nodup) :
    ∀ g ∈ init ++ post, g.process ≠ f.process := by
  rw [List.map_append, List.map_cons, List.nodup_middle, List.nodup_cons] at hnd
  intro g hg heq
  refine hnd.1 ?_
  rw [← List.map_append, ← heq]
  exact List.mem_map_of_mem hg

/-- A system call of a started process keeps the invariant, if it does so for that process. -/
theorem MemRun.Inv.call {s : MemRun} {foots : List ProcFoot} {rs : List (Addr × ℕ)}
    (h : s.Inv foots rs) {process : Addr} (hp : process ∈ s.started) {k' : Kernel}
    (hcall : ∀ f : ProcFoot, f.process = process → ∀ os, HeapOwns s.kernel.heap
      (f.runs s.kernel ++ os) → Confined s.kernel f →
      HeapOwns k'.heap (f.runs k' ++ os) ∧ Confined k' f ∧
        CallFrame s.kernel k' f.process os) :
    MemRun.Inv ⟨k', s.started⟩ foots rs := by
  rw [h.started] at hp
  obtain ⟨f, hf, rfl⟩ := List.mem_map.mp hp
  obtain ⟨init, post, rfl⟩ := List.append_of_mem hf
  obtain ⟨hown, hconf, hframe⟩ := hcall f rfl _
    (h.owns.perm (flatMap_runs_perm _ init post f rs)) (h.confined f hf)
  -- the others are different processes, so the call leaves them alone
  have hne := process_ne_of_nodup (h.started ▸ h.nodup)
  have hsame : ∀ g ∈ init ++ post, ProcFoot.runs k' g = ProcFoot.runs s.kernel g := by
    intro g hg
    unfold ProcFoot.runs
    rw [hframe.others _ (hne g hg)]
  have hothers : (init ++ post).flatMap (ProcFoot.runs s.kernel) =
      (init ++ post).flatMap (ProcFoot.runs k') :=
    List.flatMap_congr fun g hg => (hsame g hg).symm
  have hcases : ∀ g ∈ init ++ f :: post, g = f ∨ g ∈ init ++ post := by
    intro g hg
    rcases List.mem_append.mp hg with hg | hg
    · exact .inr (List.mem_append_left _ hg)
    · rcases List.mem_cons.mp hg with rfl | hg
      · exact .inl rfl
      · exact .inr (List.mem_append_right _ hg)
  refine ⟨h.started, h.nodup, ?_, ?_, ?_⟩
  · rw [hothers] at hown
    exact hown.perm (flatMap_runs_perm _ init post f rs).symm
  · intro g hg
    dsimp only
    rcases hcases g hg with rfl | hg'
    · rw [hframe.task]
      exact h.task g hg
    · rw [hframe.others _ (hne g hg')]
      exact h.task g hg
  · intro g hg
    rcases hcases g hg with rfl | hg'
    · exact hconf
    · refine (h.confined g hg).frame hframe (hne g hg') fun r hr => ?_
      exact List.mem_append_left _ (List.mem_flatMap.mpr ⟨g, hg', List.mem_append_left _ hr⟩)

/-- What starting a process does: `task_new`, and one assignment. -/
theorem startProcess_some {process : Addr} {k k' : Kernel} {u : Unit}
    (h : startProcess process k = some (u, k')) :
    ∃ task k₁, taskNew process k = some (task, k₁) ∧ k'.heap = k₁.heap ∧ k'.mem = k₁.mem ∧
      k'.sched = k₁.sched ∧ (∀ q, q ≠ process → k'.procs q = k₁.procs q) ∧
      (k'.procs process).task = task ∧
      (k'.procs process).allocations = (k₁.procs process).allocations := by
  unfold startProcess at h
  obtain ⟨task, k₁, hnew, h₁⟩ := prog_bind.mp h
  cases h₁
  refine ⟨task, k₁, hnew, rfl, rfl, rfl, fun q hq => Function.update_of_ne hq _ _, ?_, ?_⟩
  · dsimp only
    rw [Function.update_self]
  · dsimp only
    rw [Function.update_self]

/-- **Starting a process** keeps the invariant. -/
theorem MemRun.Inv.start {s s' : MemRun} {foots : List ProcFoot} {rs : List (Addr × ℕ)}
    (h : s.Inv foots rs) {process : Addr} (hallowed : s.Allowed (.start process))
    (hstep : s.step (.start process) = some s') :
    ∃ f : ProcFoot, f.process = process ∧ ∃ rs', s'.Inv (f :: foots) rs' := by
  obtain ⟨hfresh, hempty⟩ := hallowed
  obtain ⟨⟨_, k'⟩, hcode, rfl⟩ := Option.map_eq_some_iff.mp hstep
  obtain ⟨task, k₁, hnew, hheap, hmem, hsched', hothers, htask, halloc⟩ := startProcess_some hcode
  obtain ⟨-, chunk, shape, ip, hown, hat, hagree, honly, -, -, hsched⟩ := taskNew_some hnew h.owns
  have hprocs : ∀ g ∈ foots, k'.procs g.process = s.kernel.procs g.process := by
    intro g hg
    rw [hothers, honly.procs]
    rintro rfl
    refine hfresh ?_
    rw [h.started]
    exact List.mem_map_of_mem hg
  -- the new task is none of the tasks there were
  have hntask : ∀ g ∈ foots, (s.kernel.procs g.process).task ≠ task := by
    intro g hg heq
    have hnd := hown.nodup
    rw [List.map_append, List.map_cons] at hnd
    refine (List.nodup_cons.mp (List.nodup_append.mp hnd).2.1).1 ?_
    rw [← heq]
    exact List.mem_map.mpr ⟨_, List.mem_append_right _ (h.task g hg), rfl⟩
  have hnone : allocRuns (k'.procs process) = [] := by
    refine allocRuns_eq_nil fun i hi => ?_
    rw [halloc, honly.procs]
    exact hempty i hi
  refine ⟨⟨process, chunk, shape⟩, rfl, (task, 1) :: rs, ?_, ?_, ?_, ?_, ?_⟩
  · dsimp only
    rw [h.started]
    rfl
  · exact List.nodup_cons.mpr ⟨hfresh, h.nodup⟩
  · have hself : ProcFoot.runs k' ⟨process, chunk, shape⟩ = chunkRuns chunk shape := by
      unfold ProcFoot.runs
      dsimp only
      rw [hnone, List.append_nil]
    have hrest : foots.flatMap (ProcFoot.runs k') = foots.flatMap (ProcFoot.runs s.kernel) := by
      refine List.flatMap_congr fun g hg => ?_
      unfold ProcFoot.runs
      rw [hprocs g hg]
    dsimp only
    rw [hheap, List.flatMap_cons, hself, hrest, List.append_assoc]
    exact hown.perm (List.Perm.append_left _ List.perm_middle.symm)
  · intro g hg
    dsimp only
    rcases List.mem_cons.mp hg with rfl | hg
    · rw [htask]
      exact List.mem_cons_self
    · rw [hprocs g hg]
      exact List.mem_cons_of_mem _ (h.task g hg)
  · intro g hg
    rcases List.mem_cons.mp hg with rfl | hg
    · refine ⟨?_, selfMap, hmem.symm ▸ hat, writesWithin_selfMap _⟩
      dsimp only
      rw [htask, hsched', hsched, page_directory_newTask]
    · obtain ⟨pm, hpm, hw⟩ := (h.confined g hg).map
      refine ⟨?_, pm, ?_, ?_⟩
      · dsimp only
        rw [hprocs g hg, hsched', hsched, page_directory_taskListAppend, assign_tasks,
          if_neg (hntask g hg)]
        exact (h.confined g hg).dir
      · dsimp only
        rw [hmem]
        refine hpm.of_agree (hagree.subset fun r hr => ?_)
        exact List.mem_append_left _ (List.mem_flatMap.mpr ⟨g, hg, List.mem_append_left _ hr⟩)
      · dsimp only
        rw [hprocs g hg]
        exact hw

/-- `process_malloc` keeps the processes where they are. -/
theorem MemRun.Inv.malloc {s : MemRun} {foots : List ProcFoot} {rs : List (Addr × ℕ)}
    (h : s.Inv foots rs) {process ptr : Addr} (hp : process ∈ s.started) {size : BitVec 32}
    (hsafe : RequestSafe s.kernel.heap size) {k' : Kernel}
    (hcode : processMalloc process size s.kernel = some (ptr, k')) :
    MemRun.Inv ⟨k', s.started⟩ foots rs := by
  refine h.call hp ?_
  rintro f rfl os ho hf
  obtain ⟨pm, hat, hw⟩ := hf.map
  obtain ⟨hown, hframe, pm', hat', hw'⟩ := processMalloc_owns hcode ho hf.dir hat hsafe
  exact ⟨hown, ⟨hframe.dir.trans hf.dir, pm', hat', hw' hw⟩, hframe⟩

/-- **Every step** keeps the invariant, if no `process_malloc` of zero bytes is among them. -/
theorem MemRun.Inv.step {s s' : MemRun} {foots : List ProcFoot} {rs : List (Addr × ℕ)}
    (h : s.Inv foots rs) {op : MemOp} (hallowed : s.Allowed op) (hsafe : s.Safe op)
    (hstep : s.step op = some s') : ∃ foots' rs', s'.Inv foots' rs' := by
  cases op with
  | start process =>
    obtain ⟨f, -, rs', hinv⟩ := h.start hallowed hstep
    exact ⟨_, rs', hinv⟩
  | malloc process size =>
    obtain ⟨⟨ptr, k'⟩, hcode, rfl⟩ := Option.map_eq_some_iff.mp hstep
    exact ⟨foots, rs, h.malloc hallowed hsafe hcode⟩
  | free process ptr =>
    obtain ⟨⟨_, k'⟩, hcode, rfl⟩ := Option.map_eq_some_iff.mp hstep
    refine ⟨foots, rs, h.call hallowed ?_⟩
    rintro f rfl os ho hf
    obtain ⟨pm, hat, hw⟩ := hf.map
    obtain ⟨hown, hframe, pm', hat', hw'⟩ := processFree_owns hcode ho hf.dir hat
    exact ⟨hown, ⟨hframe.dir.trans hf.dir, pm', hat', hw' hw⟩, hframe⟩

theorem MemRun.Inv.init {k : Kernel} {rs : List (Addr × ℕ)} (ho : HeapOwns k.heap rs) :
    MemRun.Inv ⟨k, []⟩ [] rs :=
  ⟨rfl, List.nodup_nil, ho, by simp, by simp⟩

/-- **Isolation over whole runs.** Whatever processes are started and whatever memory they ask for
and give back, in whatever order: if no `process_malloc` asked for zero bytes while the last block
of the heap was free, no process can write the memory of another one or free memory, in any state
the run gets to. -/
theorem process_runs_isolated (k : Kernel) (rs : List (Addr × ℕ)) (hstart : HeapOwns k.heap rs)
    (ops : List MemOp) (s : MemRun) (hallowed : AlongPartial MemRun.step MemRun.Allowed ⟨k, []⟩ ops)
    (hsafe : AlongPartial MemRun.step MemRun.Safe ⟨k, []⟩ ops)
    (hrun : runPartial MemRun.step ⟨k, []⟩ ops = some s) : s.Isolated := by
  obtain ⟨foots, rs', hinv⟩ := runPartial_invariant
    (I := fun s => ∃ foots rs', MemRun.Inv s foots rs') (C := fun s op =>
      s.Allowed op ∧ s.Safe op) (fun s op s' ⟨foots, rs', h⟩ hop hs => h.step hop.1 hop.2 hs)
    ops ⟨k, []⟩ s ⟨[], rs, MemRun.Inv.init hstart⟩ (hallowed.and hsafe) hrun
  exact hinv.isolated

/-! ## Two processes in a fresh kernel -/

/-- Starting a process that is a raw binary, on a packed heap. -/
theorem Packed.start {k : Kernel} {s : ℕ} (hp : Packed k.heap s) (hfit : s + 1027 ≤ 25600)
    {process : Addr} (hproc : process ≠ 0#32)
    (hbin : ∀ p, (k.procs p).filetype ≠ processFiletypeElf)
    (hnone : ∀ p i, ((k.procs p).allocations i).ptr = 0#32)
    (htail : k.sched.task_head ≠ 0#32 → k.sched.task_tail ≠ 0#32) (started : List Addr) :
    ∃ k', MemRun.step ⟨k, started⟩ (.start process) = some ⟨k', process :: started⟩ ∧
      Packed k'.heap (s + 1027) ∧ (∀ p, (k'.procs p).filetype ≠ processFiletypeElf) ∧
      (∀ p i, ((k'.procs p).allocations i).ptr = 0#32) ∧ k'.sched.task_tail ≠ 0#32 := by
  obtain ⟨k₁, hnew, hp₁, ⟨hprocs, -, -, -⟩, htail₁⟩ := hp.taskNew hfit process hproc (hbin process) htail
  refine ⟨{ k₁ with
    procs := Function.update k₁.procs process
      ((fun p : Process => { p with task := blockAddr s }) (k₁.procs process)) },
    ?_, hp₁, ?_, ?_, ?_⟩
  · have hcode : startProcess process k = some ((), { k₁ with
        procs := Function.update k₁.procs process
          ((fun p : Process => { p with task := blockAddr s }) (k₁.procs process)) }) :=
      prog_bind.mpr ⟨_, _, hnew, rfl⟩
    show (startProcess process k).map _ = _
    rw [hcode]
    rfl
  · intro p
    dsimp only
    by_cases hpp : p = process
    · subst hpp
      rw [Function.update_self, hprocs]
      exact hbin p
    · rw [Function.update_of_ne hpp, hprocs]
      exact hbin p
  · intro p i
    dsimp only
    by_cases hpp : p = process
    · subst hpp
      rw [Function.update_self, hprocs]
      exact hnone p i
    · rw [Function.update_of_ne hpp, hprocs]
      exact hnone p i
  · show k₁.sched.task_tail ≠ 0#32
    rw [htail₁]
    exact blockAddr_ne_zero (by omega)

/-- A fresh kernel with the records of two processes, and the two processes started. -/
theorem two_processes_boot : ∃ (k : Kernel) (rs : List (Addr × ℕ)) (k₁ k₂ : Kernel)
    (f g : ProcFoot) (rs₂ : List (Addr × ℕ)), HeapOwns k.heap rs ∧
      MemRun.Allowed ⟨k, []⟩ (.start (blockAddr 0)) ∧
      MemRun.step ⟨k, []⟩ (.start (blockAddr 0)) = some ⟨k₁, [blockAddr 0]⟩ ∧
      MemRun.Allowed ⟨k₁, [blockAddr 0]⟩ (.start (blockAddr 3)) ∧
      MemRun.step ⟨k₁, [blockAddr 0]⟩ (.start (blockAddr 3)) =
        some ⟨k₂, [blockAddr 3, blockAddr 0]⟩ ∧
      f.process = blockAddr 0 ∧ g.process = blockAddr 3 ∧
      MemRun.Inv ⟨k₂, [blockAddr 3, blockAddr 0]⟩ [g, f] rs₂ ∧ Packed k₂.heap 2060 ∧
      ∀ p i, ((k₂.procs p).allocations i).ptr = 0#32 := by
  have hsize : blocksFor sizeofProcess = 3 := rfl
  obtain ⟨ka, hza, hpa, -⟩ := packed_bootKernel.kernel_kzalloc sizeofProcess (by decide)
    (by rw [hsize]; omega)
  obtain ⟨hheapa, -, -, honlya⟩ := kzalloc_some hza
  rw [hsize] at hpa
  obtain ⟨k, hzb, hpb, -⟩ := hpa.kernel_kzalloc sizeofProcess (by decide) (by rw [hsize]; omega)
  obtain ⟨hheapb, -, -, honlyb⟩ := kzalloc_some hzb
  rw [hsize] at hpb
  obtain ⟨-, hoa⟩ := (heapOwns_bootKernel.kzalloc (by decide) hheapa).resolve_left
    fun h => blockAddr_ne_zero (by omega) h.1
  obtain ⟨-, hob⟩ := (hoa.kzalloc (by decide) hheapb).resolve_left
    fun h => blockAddr_ne_zero (by omega) h.1
  have hprocs : k.procs = bootKernel.procs := honlyb.procs.trans honlya.procs
  have hsched : k.sched = bootKernel.sched := honlyb.sched.trans honlya.sched
  have hbin : ∀ p, (k.procs p).filetype ≠ processFiletypeElf := by
    intro p
    rw [hprocs]
    exact (by decide : processFiletypeBinary ≠ processFiletypeElf)
  have hnone : ∀ p i, ((k.procs p).allocations i).ptr = 0#32 := by
    intro p i
    rw [hprocs]
    rfl
  obtain ⟨k₁, hs₁, hp₁, hbin₁, hnone₁, htail₁⟩ := hpb.start (by omega)
    (blockAddr_ne_zero (s := 0) (by omega)) hbin hnone
    (fun h => absurd (by rw [hsched]; rfl) h) []
  obtain ⟨k₂, hs₂, hp₂, -, hnone₂, -⟩ := hp₁.start (by omega)
    (blockAddr_ne_zero (s := 3) (by omega)) hbin₁ hnone₁ (fun _ => htail₁) [blockAddr 0]
  have ha₁ : MemRun.Allowed ⟨k, []⟩ (.start (blockAddr 0)) :=
    ⟨List.not_mem_nil, fun i _ => hnone _ i⟩
  have ha₂ : MemRun.Allowed ⟨k₁, [blockAddr 0]⟩ (.start (blockAddr 3)) := by
    refine ⟨fun hm => ?_, fun i _ => hnone₁ _ i⟩
    have := blockAddr_inj (by omega) (by omega) (List.mem_singleton.mp hm)
    omega
  obtain ⟨f, hf, rs₁, hinv₁⟩ := (MemRun.Inv.init hob).start ha₁ hs₁
  obtain ⟨g, hg, rs₂, hinv₂⟩ := hinv₁.start ha₂ hs₂
  exact ⟨k, _, k₁, k₂, f, g, rs₂, hob, ha₁, hs₁, ha₂, hs₂, hf, hg, hinv₂, hp₂, hnone₂⟩

/-- Two processes, and one page for the first of them: a run within the condition. -/
theorem process_runs_isolated_boot : ∃ (k : Kernel) (s : MemRun), runPartial MemRun.step ⟨k, []⟩
    [.start (blockAddr 0), .start (blockAddr 3), .malloc (blockAddr 0) 4096#32] = some s ∧
      s.Isolated := by
  obtain ⟨k, rs, k₁, k₂, f, g, rs₂, ho, ha₁, hs₁, ha₂, hs₂, hf, -, hinv, hpk, hnone⟩ :=
    two_processes_boot
  have hown := hinv.owns.perm (flatMap_runs_perm _ [g] [] f rs₂)
  have hconf := hinv.confined f (by simp)
  obtain ⟨pm, hat, -⟩ := hconf.map
  have htask : (k₂.procs f.process).task ≠ 0#32 :=
    hown.ne_zero (List.mem_append_right _ (List.mem_append_right _ (hinv.task f (by simp))))
  have hown' : HeapOwns k₂.heap (chunkRuns f.chunk f.shape ++ (allocRuns (k₂.procs f.process) ++
      (([g] ++ []).flatMap (ProcFoot.runs k₂) ++ rs₂))) := by
    rw [← List.append_assoc]
    exact hown
  obtain ⟨heap, mem, kallocs, hcode, -⟩ := hpk.processMalloc_page (by omega) hown' hconf.dir hat
    htask (by rw [hf]; exact blockAddr_ne_zero (by omega)) fun i _ => hnone _ i
  rw [hf] at hcode
  have hs₃ := MemRun.step_malloc (s := ⟨k₂, [blockAddr 3, blockAddr 0]⟩) hcode
  have hallowed : AlongPartial MemRun.step MemRun.Allowed ⟨k, []⟩ [.start (blockAddr 0),
      .start (blockAddr 3), .malloc (blockAddr 0) 4096#32] :=
    .cons ha₁ hs₁ (.cons ha₂ hs₂ (.cons (List.mem_cons_of_mem _ List.mem_cons_self) hs₃ trivial))
  have hsafe : AlongPartial MemRun.step MemRun.Safe ⟨k, []⟩ [.start (blockAddr 0),
      .start (blockAddr 3), .malloc (blockAddr 0) 4096#32] :=
    .cons trivial hs₁ (.cons trivial hs₂ (.cons (.inl (by decide)) hs₃ trivial))
  have hrun := runPartial_step hs₁ [.start (blockAddr 3), .malloc (blockAddr 0) 4096#32]
  rw [runPartial_step hs₂, runPartial_step hs₃] at hrun
  exact ⟨k, _, hrun, process_runs_isolated k rs ho _ _ hallowed hsafe hrun⟩

/-- The page of a one-block allocation belongs to no other allocation. -/
theorem HeapOwns.only_head {h : Heap} {n : ℕ} {rs : List (Addr × ℕ)}
    (ho : HeapOwns h ((blockAddr n, 1) :: rs)) (hn : n < 25600) :
    ∀ r ∈ rs, ¬ InRun r (4096 + n) := by
  intro r hr
  refine ho.apart_cons hr ?_
  unfold InRun
  dsimp only
  rw [pageOf_blockAddr hn]
  omega

/-- A process that may write to a page no one owns is not isolated. -/
theorem not_isolated_of_free {s : MemRun} {g : ProcFoot} {n : ℕ} (hn : n < 25600)
    {os : List (Addr × ℕ)} (hown : HeapOwns s.kernel.heap os)
    (hno : ∀ r ∈ os, ¬ InRun r (4096 + n)) (hg : g.process ∈ s.started)
    (hdir : (s.kernel.sched.tasks (s.kernel.procs g.process).task).page_directory = g.chunk)
    {pm : ℕ → BitVec 32} (hat : ChunkAt s.kernel.mem g.chunk g.shape pm)
    (hw : UserWritable (pm (4096 + n))) (hpage : pageOf (pm (4096 + n)) = 4096 + n) :
    ¬ s.Isolated := by
  intro hiso
  have hentry := pagingGet_spec hat (pageAligned_blockAddr hn)
  rw [pageOf_blockAddr hn] at hentry
  refine hiso.free g.process hg n (by rw [hown.total]; exact hn) (hown.isFree hn hno)
    ⟨blockAddr n, pageAligned_blockAddr hn, ?_, ?_⟩
  · unfold directoryOf
    rw [hdir, hat.chunk_word, hentry]
    exact hw
  · unfold directoryOf
    rw [hdir, hat.chunk_word, hentry, hpage, hown.saddr]
    rfl

/-- **A request of no bytes.** The first process asks for zero bytes and is given the address of
block 2060, which stays free; the second asks for a page and gets that block; the first gives its
zero bytes back. The block is free now and the second process can still write it. -/
theorem process_runs_share_block : ∃ (k : Kernel) (rs : List (Addr × ℕ)) (s : MemRun),
    HeapOwns k.heap rs ∧
    AlongPartial MemRun.step MemRun.Allowed ⟨k, []⟩
      [.start (blockAddr 0), .start (blockAddr 3), .malloc (blockAddr 0) 0#32,
        .malloc (blockAddr 3) 4096#32, .free (blockAddr 0) (blockAddr 2060)] ∧
    runPartial MemRun.step ⟨k, []⟩
      [.start (blockAddr 0), .start (blockAddr 3), .malloc (blockAddr 0) 0#32,
        .malloc (blockAddr 3) 4096#32, .free (blockAddr 0) (blockAddr 2060)] = some s ∧
    ¬ s.Isolated := by
  obtain ⟨k, rs, k₁, k₂, f, g, rs₂, ho, ha₁, hs₁, ha₂, hs₂, hf, hg, hinv, hpk, hnone⟩ :=
    two_processes_boot
  have hfg : g.process ≠ f.process := by
    rw [hf, hg]
    exact fun heq => absurd (blockAddr_inj (by omega) (by omega) heq) (by omega)
  have hfne : f.process ≠ 0#32 := hf ▸ blockAddr_ne_zero (by omega)
  have hgne : g.process ≠ 0#32 := hg ▸ blockAddr_ne_zero (by omega)
  have htask : ∀ x ∈ [g, f], (k₂.procs x.process).task ≠ 0#32 := fun x hx =>
    hinv.owns.ne_zero (List.mem_append_right _ (hinv.task x hx))
  have hpne : blockAddr 2060 ≠ 0#32 := blockAddr_ne_zero (by omega)
  have hpa : PageAligned (blockAddr 2060) := pageAligned_blockAddr (by omega)
  -- the request of no bytes
  obtain ⟨k₃, hm₃, hpk₃, ho₃, hmem₃, hsched₃, hprocs₃⟩ := hpk.processMalloc_nothing (by omega)
    hinv.owns hfne (htask f (by simp)) fun i _ => hnone _ i
  have hg₃ : k₃.procs g.process = k₂.procs g.process := by
    rw [hprocs₃, Function.update_of_ne hfg]
  -- the page for the second process
  have hconf := hinv.confined g (by simp)
  obtain ⟨pm, hat, -⟩ := hconf.map
  have ho₃' := ho₃.perm (flatMap_runs_perm _ [] [f] g rs₂)
  rw [ProcFoot.runs, List.append_assoc] at ho₃'
  obtain ⟨heap₄, mem₄, kallocs₄, hm₄, ho₄, pm₄, hat₄, hw₄, hpage₄⟩ :=
    hpk₃.processMalloc_page (by omega) ho₃' (by rw [hsched₃, hg₃]; exact hconf.dir)
      (hmem₃.symm ▸ hat) (by rw [hg₃]; exact htask g (by simp)) hgne
      fun i _ => by rw [hg₃]; exact hnone _ i
  -- giving the zero bytes back
  have hfree := processFree_nothing (k := { k₃ with
    heap := heap₄
    mem := mem₄
    kallocs := kallocs₄
    procs := Function.update k₃.procs g.process
      ((k₃.procs g.process).setAllocation 0 ⟨blockAddr 2060, 4096#32⟩) }) hfne
    (by
      dsimp only
      rw [Function.update_of_ne hfg.symm, hprocs₃, Function.update_self]
      exact htask f (by simp)) hpa
    (by
      dsimp only
      rw [Function.update_of_ne hfg.symm, hprocs₃, Function.update_self]
      rfl)
  have hs₃ := MemRun.step_malloc (s := ⟨k₂, [blockAddr 3, blockAddr 0]⟩) hm₃
  have hs₄ := MemRun.step_malloc (s := ⟨k₃, [blockAddr 3, blockAddr 0]⟩) hm₄
  have hs₅ := MemRun.step_free (s := ⟨_, [blockAddr 3, blockAddr 0]⟩) hfree
  rw [hf] at hs₃ hs₅
  rw [hg] at hs₄ hs₅
  have hrun := runPartial_step hs₁ [.start (blockAddr 3), .malloc (blockAddr 0) 0#32,
    .malloc (blockAddr 3) 4096#32, .free (blockAddr 0) (blockAddr 2060)]
  rw [runPartial_step hs₂, runPartial_step hs₃, runPartial_step hs₄, runPartial_step hs₅] at hrun
  refine ⟨k, rs, _, ho, ?_, hrun, ?_⟩
  · exact .cons ha₁ hs₁ (.cons ha₂ hs₂ (.cons (List.mem_cons_of_mem _ List.mem_cons_self) hs₃
      (.cons List.mem_cons_self hs₄
        (.cons (List.mem_cons_of_mem _ List.mem_cons_self) hs₅ trivial))))
  · have hown := ho₄.kfree
    have honly := ho₄.only_head (by omega)
    refine not_isolated_of_free (g := g) (n := 2060) (by omega) ?_ honly ?_ ?_ hat₄ hw₄ hpage₄
    · dsimp only
      exact hown
    · rw [hg]
      exact List.mem_cons_self
    dsimp only
    rw [← hf, ← hg, Function.update_of_ne hfg, Function.update_self, hsched₃]
    show (k₂.sched.tasks (k₃.procs g.process).task).page_directory = g.chunk
    rw [hg₃]
    exact hconf.dir

end MaerOS.Analysis
