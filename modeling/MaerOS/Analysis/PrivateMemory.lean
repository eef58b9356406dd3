import MaerOS.Analysis.SystemCommand
import MaerOS.Model.MemoryCalls

/-!
# The memory of a program is its own

Programs run in turns on the page directories that `task_init` builds for them. Each
stores where its page tables let it, is interrupted, asks for memory and gives any
pointer back. The invariant is that of the runs of `process_malloc` and `process_free`,
with the process of every task: a store goes to a page the process holds, and no page
table and no other process has that page; a system call changes what belongs to the
caller. So nobody else's steps change what a process holds: `program_memory_private`.
-/

set_option autoImplicit false

namespace MaerOS.Analysis

open MaerOS.Lib MaerOS.Model

/-! ## What a program does -/

/-- What a program does: it is started, stores a byte at a virtual address, is interrupted, or makes
a system call. On entry to the kernel `enter` is what happens to memory, and the frame is at
`frame`. -/
inductive ProgramOp where
  | start (process : Addr)
  | store (process v : Addr) (b : BitVec 8)
  | interrupt (process frame : Addr) (enter : Memory → Memory)
  | sum (process frame : Addr) (enter : Memory → Memory)
  | malloc (process frame : Addr) (enter : Memory → Memory)
  | free (process frame : Addr) (enter : Memory → Memory)

/-- The process of the program. -/
def ProgramOp.process : ProgramOp → Addr
  | .start process => process
  | .store process _ _ => process
  | .interrupt process _ _ => process
  | .sum process _ _ => process
  | .malloc process _ _ => process
  | .free process _ _ => process

/-- The kernel when the task of a process has entered it. -/
def enterKernel (process : Addr) (enter : Memory → Memory) (k : Kernel) : Kernel :=
  { k with
    mem := enter k.mem
    sched := { k.sched with current_task := (k.procs process).task } }

/-- A step. A store the page tables do not let the program make has no outcome. -/
def programStep (s : MemRun) : ProgramOp → Option MemRun
  | .start process => s.step (.start process)
  | .store process v b =>
    (mmuWalk s.kernel.mem (directoryOf s.kernel process) userWrite v).map fun p =>
      ⟨{ s.kernel with mem := Function.update s.kernel.mem p b }, s.started⟩
  | .interrupt process frame enter =>
    (taskCurrentSaveState frame (enterKernel process enter s.kernel)).map fun r =>
      ⟨r.2, s.started⟩
  | .sum process frame enter =>
    (isr80hHandler isr80hCommand0Sum frame (enterKernel process enter s.kernel)).map fun r =>
      ⟨r.2, s.started⟩
  | .malloc process frame enter =>
    (isr80hHandler isr80hCommand4Malloc frame (enterKernel process enter s.kernel)).map fun r =>
      ⟨r.2, s.started⟩
  | .free process frame enter =>
    (isr80hHandler isr80hCommand5Free frame (enterKernel process enter s.kernel)).map fun r =>
      ⟨r.2, s.started⟩

/-- The entry to the kernel stores outside the kernel heap. -/
def EntersOutside (enter : Memory → Memory) (m : Memory) : Prop :=
  ∀ q, 4096 ≤ q → q < 29696 → AgreeOnPage m (enter m) q

/-- A process is started once, without allocations, and only then does its program run. -/
def ProgramOp.Allowed (s : MemRun) : ProgramOp → Prop
  | .start process => s.Allowed (.start process)
  | .store process _ _ => process ∈ s.started
  | .interrupt process _ enter => process ∈ s.started ∧ EntersOutside enter s.kernel.mem
  | .sum process _ enter => process ∈ s.started ∧ EntersOutside enter s.kernel.mem
  | .malloc process _ enter => process ∈ s.started ∧ EntersOutside enter s.kernel.mem
  | .free process _ enter => process ∈ s.started ∧ EntersOutside enter s.kernel.mem

/-- The program does not ask for zero bytes while the last block of the heap is free. -/
def ProgramOp.Safe (s : MemRun) : ProgramOp → Prop
  | .malloc process frame enter => ∀ k size,
      taskCurrentSaveState frame (enterKernel process enter s.kernel) = some ((), k) →
      taskGetStackItem k.sched.current_task 0 k = some (size, k) → RequestSafe s.kernel.heap size
  | _ => True

/-! ## Taking the handlers apart -/

/-- Asking for the current process changes nothing. -/
theorem currentProcess_some {process : Addr} {k k' : Kernel}
    (h : Table.currentProcess k = some (process, k')) :
    k' = k ∧ process = (k.sched.tasks k.sched.current_task).process := by
  unfold Table.currentProcess at h
  rw [bind_get] at h
  obtain ⟨_, k₁, hd, h₁⟩ := prog_bind.mp h
  obtain ⟨-, rfl⟩ := deref_some hd
  obtain ⟨rfl, rfl⟩ := prog_pure.mp h₁
  exact ⟨rfl, rfl⟩

/-- What saving the registers of the current task leaves as it is. -/
structure Saved (k k' : Kernel) : Prop where
  heap : k'.heap = k.heap
  mem : k'.mem = k.mem
  procs : k'.procs = k.procs
  current : k'.sched.current_task = k.sched.current_task
  directory : ∀ t, (k'.sched.tasks t).page_directory = (k.sched.tasks t).page_directory
  process : ∀ t, (k'.sched.tasks t).process = (k.sched.tasks t).process

theorem taskCurrentSaveState_some {frame : Addr} {k k' : Kernel} {u : Unit}
    (h : taskCurrentSaveState frame k = some (u, k')) : Saved k k' := by
  unfold taskCurrentSaveState at h
  rw [bind_get] at h
  obtain ⟨_, k₁, hd, h₁⟩ := prog_bind.mp h
  obtain ⟨-, rfl⟩ := deref_some hd
  cases h₁
  refine ⟨rfl, rfl, rfl, rfl, fun t => ?_, fun t => ?_⟩
  · unfold taskSaveState
    rw [assign_tasks]
    split <;> rfl
  · unfold taskSaveState
    rw [assign_tasks]
    split <;> rfl

/-- **`isr80h_handler`** saves the registers, carries out the command and leaves what it did. -/
theorem isr80hHandler_some {command : KernelM Addr} {frame res : Addr} {k k' : Kernel}
    (h : isr80hHandler command frame k = some (res, k')) :
    ∃ k₁, taskCurrentSaveState frame k = some ((), k₁) ∧ command k₁ = some (res, k') := by
  unfold isr80hHandler at h
  obtain ⟨_, k₁, hsave, h₁⟩ := prog_bind.mp h
  obtain ⟨r, k₂, hcommand, h₂⟩ := prog_bind.mp h₁
  obtain ⟨_, k₃, hpage, h₃⟩ := prog_bind.mp h₂
  obtain ⟨rfl, rfl⟩ := prog_pure.mp h₃
  refine ⟨k₁, hsave, ?_⟩
  unfold taskPage at hpage
  rw [bind_get] at hpage
  obtain ⟨_, k₄, hd, h₄⟩ := prog_bind.mp hpage
  obtain ⟨-, rfl⟩ := deref_some hd
  cases h₄
  exact hcommand

theorem isr80hCommand0Sum_same {res : Addr} {k k' : Kernel}
    (h : isr80hCommand0Sum k = some (res, k')) : k' = k := by
  unfold isr80hCommand0Sum at h
  rw [bind_get] at h
  obtain ⟨v2, k₁, hitem, h₁⟩ := prog_bind.mp h
  obtain rfl := taskGetStackItem_same hitem
  obtain ⟨v1, k₂, hitem', h₂⟩ := prog_bind.mp h₁
  obtain rfl := taskGetStackItem_same hitem'
  cases hsum : checkInt (v1.toInt + v2.toInt) with
  | none =>
    rw [hsum] at h₂
    cases h₂
  | some sum =>
    rw [hsum] at h₂
    exact (prog_pure.mp h₂).2.symm

/-- The memory command requests memory for the current process. -/
theorem isr80hCommand4Malloc_some {res : Addr} {k k' : Kernel}
    (h : isr80hCommand4Malloc k = some (res, k')) :
    ∃ size, taskGetStackItem k.sched.current_task 0 k = some (size, k) ∧
      processMalloc (k.sched.tasks k.sched.current_task).process size k = some (res, k') := by
  unfold isr80hCommand4Malloc at h
  rw [bind_get] at h
  obtain ⟨size, k₁, hitem, h₁⟩ := prog_bind.mp h
  obtain rfl := taskGetStackItem_same hitem
  obtain ⟨process, k₂, hprocess, h₂⟩ := prog_bind.mp h₁
  obtain ⟨rfl, rfl⟩ := currentProcess_some hprocess
  exact ⟨size, hitem, h₂⟩

/-- The release command releases memory of the current process. -/
theorem isr80hCommand5Free_some {res : Addr} {k k' : Kernel}
    (h : isr80hCommand5Free k = some (res, k')) :
    ∃ ptr, processFree (k.sched.tasks k.sched.current_task).process ptr k = some ((), k') := by
  unfold isr80hCommand5Free at h
  rw [bind_get] at h
  obtain ⟨ptr, k₁, hitem, h₁⟩ := prog_bind.mp h
  obtain rfl := taskGetStackItem_same hitem
  obtain ⟨process, k₂, hprocess, h₂⟩ := prog_bind.mp h₁
  obtain ⟨rfl, rfl⟩ := currentProcess_some hprocess
  obtain ⟨_, k₃, hfree, h₃⟩ := prog_bind.mp h₂
  obtain ⟨-, rfl⟩ := prog_pure.mp h₃
  exact ⟨ptr, hfree⟩

/-! ## The programs of a run -/

/-- The processes of a run, each on its own task. -/
structure Programs (s : MemRun) (foots : List ProcFoot) (rs : List (Addr × ℕ)) : Prop where
  inv : s.Inv foots rs
  owner : ∀ f ∈ foots, (s.kernel.sched.tasks (s.kernel.procs f.process).task).process = f.process

/-- The other processes keep their records and the contents of what they hold. -/
structure LeavesOthers (k k' : Kernel) (foots : List ProcFoot) (process : Addr) : Prop where
  procs : ∀ g ∈ foots, g.process ≠ process → k'.procs g.process = k.procs g.process
  agree : ∀ g ∈ foots, g.process ≠ process →
    AgreeOnRuns k.mem k'.mem (allocRuns (k.procs g.process))

/-- A process of another address is one of the others. -/
theorem mem_others {init post : List ProcFoot} {f g : ProcFoot} (hg : g ∈ init ++ f :: post)
    (hne : g.process ≠ f.process) : g ∈ init ++ post := by
  rcases List.mem_append.mp hg with hg | hg
  · exact List.mem_append_left _ hg
  · rcases List.mem_cons.mp hg with rfl | hg
    · exact absurd rfl hne
    · exact List.mem_append_right _ hg

section Steps

variable {s : MemRun} {foots : List ProcFoot} {rs : List (Addr × ℕ)} {process : Addr}

/-- What changes no table, no record and no page directory keeps the invariant. -/
theorem Programs.keep (h : Programs s foots rs) {k' : Kernel} (hheap : k'.heap = s.kernel.heap)
    (hprocs : k'.procs = s.kernel.procs)
    (hdir : ∀ t, (k'.sched.tasks t).page_directory = (s.kernel.sched.tasks t).page_directory)
    (hproc : ∀ t, (k'.sched.tasks t).process = (s.kernel.sched.tasks t).process)
    (hmem : AgreeOnRuns s.kernel.mem k'.mem (tableRuns foots)) :
    Programs ⟨k', s.started⟩ foots rs := by
  have hruns : ProcFoot.runs k' = ProcFoot.runs s.kernel := by
    funext f
    unfold ProcFoot.runs
    rw [hprocs]
  refine ⟨⟨h.inv.started, h.inv.nodup, ?_, fun f hf => ?_, fun f hf => ?_⟩, fun f hf => ?_⟩
  · dsimp only
    rw [hheap, hruns]
    exact h.inv.owns
  · dsimp only
    rw [hprocs]
    exact h.inv.task f hf
  · obtain ⟨pm, hat, hw⟩ := (h.inv.confined f hf).map
    refine ⟨?_, pm, hat.of_agree (hmem.subset fun r hr => ?_), ?_⟩
    · dsimp only
      rw [hdir, hprocs]
      exact (h.inv.confined f hf).dir
    · exact List.mem_flatMap.mpr ⟨f, hf, hr⟩
    · dsimp only
      rw [hprocs]
      exact hw
  · dsimp only
    rw [hproc, hprocs]
    exact h.owner f hf

/-- Page tables and what the processes hold are different blocks. -/
theorem Programs.tables_apart (h : Programs s foots rs) {f : ProcFoot} (hf : f ∈ foots)
    {r r' : Addr × ℕ} (hr : r ∈ allocRuns (s.kernel.procs f.process)) (hr' : r' ∈ tableRuns foots)
    {q : ℕ} (hq : InRun r q) : ¬ InRun r' q := fun hq' =>
  h.inv.hosts.apart hr' (List.mem_append_left _ (List.mem_flatMap.mpr ⟨f, hf, hr⟩)) hq' hq

/-- What two processes hold are different blocks. -/
theorem Programs.allocations_apart (h : Programs s foots rs) {f g : ProcFoot} (hf : f ∈ foots)
    (hg : g ∈ foots) (hne : g.process ≠ f.process) {r r' : Addr × ℕ}
    (hr : r ∈ allocRuns (s.kernel.procs f.process))
    (hr' : r' ∈ allocRuns (s.kernel.procs g.process)) {q : ℕ} (hq : InRun r q) :
    ¬ InRun r' q := by
  obtain ⟨init, post, rfl⟩ := List.append_of_mem hf
  have hg' := mem_others hg hne
  have hown := h.inv.owns.perm (flatMap_runs_perm _ init post f rs)
  exact (List.pairwise_append.mp hown.apart).2.2 r (List.mem_append_right _ hr) _
    (List.mem_append_left _ (List.mem_flatMap.mpr ⟨g, hg', List.mem_append_right _ hr'⟩)) q hq

/-- **A store** goes to a page that the process holds. -/
theorem Programs.store_held (h : Programs s foots rs) {f : ProcFoot} (hf : f ∈ foots) {v p : Addr}
    (hwalk : mmuWalk s.kernel.mem (directoryOf s.kernel f.process) userWrite v = some p) :
    ∃ r ∈ allocRuns (s.kernel.procs f.process), InRun r (pageOf p) := by
  obtain ⟨pm, hat, hw⟩ := (h.inv.confined f hf).map
  have hdir : directoryOf s.kernel f.process = f.shape.dir := by
    unfold directoryOf
    rw [(h.inv.confined f hf).dir, hat.chunk_word]
  rw [hdir] at hwalk
  have hallows : UserWritable (pm (pageOf v)) := by
    have hwalk' := hwalk
    unfold mmuWalk at hwalk'
    split at hwalk'
    · rename_i hboth
      rw [hat.tableEntry_eq] at hboth
      exact hboth.2
    · cases hwalk'
  obtain ⟨hpage, r, hr, hin⟩ := hw _ (pageOf_lt v) hallows
  have hp : pageOf p = pageOf (pm (pageOf v)) := by
    have hlt := (pm (pageOf v)).isLt
    rw [mmuWalk_some hwalk, hat.tableEntry_eq]
    unfold pageOf at *
    rw [BitVec.toNat_add, and_mask_toNat, BitVec.toNat_ofNat]
    omega
  rw [hp, hpage]
  exact ⟨r, hr, hin⟩

/-- **A store** keeps the invariant and leaves the others alone. -/
theorem Programs.store (h : Programs s foots rs) (hstarted : process ∈ s.started) {v p : Addr}
    (b : BitVec 8)
    (hwalk : mmuWalk s.kernel.mem (directoryOf s.kernel process) userWrite v = some p) :
    Programs ⟨{ s.kernel with mem := Function.update s.kernel.mem p b }, s.started⟩ foots rs ∧
      LeavesOthers s.kernel { s.kernel with mem := Function.update s.kernel.mem p b } foots
        process := by
  rw [h.inv.started] at hstarted
  obtain ⟨f, hf, rfl⟩ := List.mem_map.mp hstarted
  obtain ⟨r, hr, hin⟩ := h.store_held hf hwalk
  have hother : ∀ r', ¬ InRun r' (pageOf p) → ∀ q, InRun r' q →
      AgreeOnPage s.kernel.mem (Function.update s.kernel.mem p b) q := by
    rintro r' hnot q hq x rfl
    exact Function.update_of_ne (fun heq : x = p => hnot (heq ▸ hq)) _ _
  refine ⟨h.keep rfl rfl (fun _ => rfl) (fun _ => rfl) fun r' hr' => ?_, fun _ _ _ => rfl,
    fun g hg hne r' hr' => ?_⟩
  · exact hother r' (h.tables_apart hf hr hr' hin)
  · exact hother r' (h.allocations_apart hf hg hne hr hr' hin)

/-- **Entering the kernel** and saving the registers. -/
theorem Programs.enter (h : Programs s foots rs) {enter : Memory → Memory}
    (henter : EntersOutside enter s.kernel.mem) {frame : Addr} {k₁ : Kernel}
    (hsave : taskCurrentSaveState frame (enterKernel process enter s.kernel) = some ((), k₁)) :
    Programs ⟨k₁, s.started⟩ foots rs ∧ LeavesOthers s.kernel k₁ foots process ∧
      Saved (enterKernel process enter s.kernel) k₁ := by
  have hs := taskCurrentSaveState_some hsave
  have hagree : ∀ r ∈ foots.flatMap (ProcFoot.runs s.kernel) ++ rs, ∀ q, InRun r q →
      AgreeOnPage s.kernel.mem k₁.mem q := by
    intro r hr q hq
    have h1 := h.inv.owns.above r hr
    have h2 := (h.inv.owns.inside hr).2
    unfold InRun at hq
    rw [hs.mem]
    exact henter q (by omega) (by omega)
  refine ⟨h.keep hs.heap hs.procs hs.directory hs.process fun r hr => ?_,
    ⟨fun g _ _ => by rw [hs.procs]; rfl, fun g hg _ r hr => ?_⟩, hs⟩
  · obtain ⟨g, hg, hr⟩ := List.mem_flatMap.mp hr
    exact hagree r (List.mem_append_left _ (List.mem_flatMap.mpr ⟨g, hg,
      List.mem_append_left _ hr⟩))
  · exact hagree r (List.mem_append_left _ (List.mem_flatMap.mpr ⟨g, hg,
      List.mem_append_right _ hr⟩))

/-- The task that has entered the kernel is that of the process. -/
theorem Programs.caller (h : Programs s foots rs) (hstarted : process ∈ s.started)
    {enter : Memory → Memory} {k₁ : Kernel}
    (hs : Saved (enterKernel process enter s.kernel) k₁) :
    (k₁.sched.tasks k₁.sched.current_task).process = process := by
  obtain ⟨f, hf, rfl⟩ := List.mem_map.mp (h.inv.started ▸ hstarted)
  rw [hs.process, hs.current]
  exact h.owner f hf

/-- **A call of a process** keeps the invariant and leaves the others alone, if it keeps what is
that process's own. -/
theorem Programs.call (h : Programs s foots rs) (hstarted : process ∈ s.started) {k' : Kernel}
    (hcall : ∀ f : ProcFoot, f.process = process → ∀ os, HeapOwns s.kernel.heap
      (f.runs s.kernel ++ os) → Confined s.kernel f →
      HeapOwns k'.heap (f.runs k' ++ os) ∧ Confined k' f ∧
        CallFrame s.kernel k' f.process os) :
    Programs ⟨k', s.started⟩ foots rs ∧ LeavesOthers s.kernel k' foots process := by
  have hinv := h.inv.call hstarted hcall
  rw [h.inv.started] at hstarted
  obtain ⟨f, hf, rfl⟩ := List.mem_map.mp hstarted
  obtain ⟨init, post, rfl⟩ := List.append_of_mem hf
  obtain ⟨-, -, hframe⟩ := hcall f rfl _ (h.inv.owns.perm (flatMap_runs_perm _ init post f rs))
    (h.inv.confined f hf)
  refine ⟨⟨hinv, fun g hg => ?_⟩, fun g hg hne => hframe.others _ hne, fun g hg hne => ?_⟩
  · have htask : (k'.procs g.process).task = (s.kernel.procs g.process).task := by
      by_cases heq : g.process = f.process
      · rw [heq]
        exact hframe.task
      · rw [hframe.others _ heq]
    dsimp only
    rw [htask, hframe.sched]
    exact h.owner g hg
  · have hg' := mem_others hg hne
    exact hframe.agree.subset fun r hr => List.mem_append_left _ (List.mem_flatMap.mpr
      ⟨g, hg', List.mem_append_right _ hr⟩)

/-- One change after the other. -/
theorem LeavesOthers.trans {k k₁ k₂ : Kernel} (h : LeavesOthers k k₁ foots process)
    (h' : LeavesOthers k₁ k₂ foots process) : LeavesOthers k k₂ foots process := by
  refine ⟨fun g hg hne => (h'.procs g hg hne).trans (h.procs g hg hne), fun g hg hne => ?_⟩
  have hsecond := h'.agree g hg hne
  rw [h.procs g hg hne] at hsecond
  exact (h.agree g hg hne).trans hsecond

/-- **A system call** of the process: what the entry to the kernel and the command do, one after the
other. The command runs for the process itself, whose registers have been saved. -/
theorem Programs.handled (h : Programs s foots rs) (hstarted : process ∈ s.started)
    {frame : Addr} {enter : Memory → Memory} (henter : EntersOutside enter s.kernel.mem)
    {command : KernelM Addr} {res : Addr} {k' : Kernel}
    (hcode : isr80hHandler command frame (enterKernel process enter s.kernel) = some (res, k'))
    (hcommand : ∀ k₁, taskCurrentSaveState frame (enterKernel process enter s.kernel) =
        some ((), k₁) → Programs ⟨k₁, s.started⟩ foots rs → k₁.heap = s.kernel.heap →
      (k₁.sched.tasks k₁.sched.current_task).process = process → command k₁ = some (res, k') →
      Programs ⟨k', s.started⟩ foots rs ∧ LeavesOthers k₁ k' foots process) :
    Programs ⟨k', s.started⟩ foots rs ∧ LeavesOthers s.kernel k' foots process := by
  obtain ⟨k₁, hsave, hrun⟩ := isr80hHandler_some hcode
  obtain ⟨h₁, hentered, hs⟩ := h.enter henter hsave
  obtain ⟨h', hleaves⟩ := hcommand k₁ hsave h₁ hs.heap (h.caller hstarted hs) hrun
  exact ⟨h', hentered.trans hleaves⟩

/-- **`sum`** changes nothing. -/
theorem Programs.sum (h : Programs s foots rs) (hstarted : process ∈ s.started) {frame : Addr}
    {enter : Memory → Memory} (henter : EntersOutside enter s.kernel.mem) {res : Addr} {k' : Kernel}
    (hcode : isr80hHandler isr80hCommand0Sum frame (enterKernel process enter s.kernel) =
      some (res, k')) :
    Programs ⟨k', s.started⟩ foots rs ∧ LeavesOthers s.kernel k' foots process := by
  refine h.handled hstarted henter hcode fun k₁ _ h₁ _ _ hcommand => ?_
  obtain rfl := isr80hCommand0Sum_same hcommand
  exact ⟨h₁, fun _ _ _ => rfl, fun _ _ _ _ _ _ _ _ _ => rfl⟩

/-- **`maeros_malloc`**. -/
theorem Programs.malloc (h : Programs s foots rs) (hstarted : process ∈ s.started) {frame : Addr}
    {enter : Memory → Memory} (henter : EntersOutside enter s.kernel.mem)
    (hsafe : ProgramOp.Safe s (.malloc process frame enter)) {res : Addr} {k' : Kernel}
    (hcode : isr80hHandler isr80hCommand4Malloc frame (enterKernel process enter s.kernel) =
      some (res, k')) :
    Programs ⟨k', s.started⟩ foots rs ∧ LeavesOthers s.kernel k' foots process := by
  refine h.handled hstarted henter hcode fun k₁ hsave h₁ hheap hcaller hcommand => ?_
  obtain ⟨size, hitem, hmalloc⟩ := isr80hCommand4Malloc_some hcommand
  rw [hcaller] at hmalloc
  have hreq : RequestSafe k₁.heap size := by
    rw [hheap]
    exact hsafe k₁ size hsave hitem
  refine h₁.call hstarted fun f hf os ho hconf => ?_
  subst hf
  obtain ⟨pm, hat, hw⟩ := hconf.map
  obtain ⟨hown, hframe, pm', hat', hw'⟩ := processMalloc_owns hmalloc ho hconf.dir hat hreq
  exact ⟨hown, ⟨hframe.dir.trans hconf.dir, pm', hat', hw' hw⟩, hframe⟩

/-- **`maeros_free`**, of any pointer. -/
theorem Programs.free (h : Programs s foots rs) (hstarted : process ∈ s.started) {frame : Addr}
    {enter : Memory → Memory} (henter : EntersOutside enter s.kernel.mem) {res : Addr} {k' : Kernel}
    (hcode : isr80hHandler isr80hCommand5Free frame (enterKernel process enter s.kernel) =
      some (res, k')) :
    Programs ⟨k', s.started⟩ foots rs ∧ LeavesOthers s.kernel k' foots process := by
  refine h.handled hstarted henter hcode fun k₁ _ h₁ _ hcaller hcommand => ?_
  obtain ⟨ptr, hfree⟩ := isr80hCommand5Free_some hcommand
  rw [hcaller] at hfree
  refine h₁.call hstarted fun f hf os ho hconf => ?_
  subst hf
  obtain ⟨pm, hat, hw⟩ := hconf.map
  obtain ⟨hown, hframe, pm', hat', hw'⟩ := processFree_owns hfree ho hconf.dir hat
  exact ⟨hown, ⟨hframe.dir.trans hconf.dir, pm', hat', hw' hw⟩, hframe⟩

/-- **Starting a program**. -/
theorem Programs.start (h : Programs s foots rs) {s' : MemRun}
    (hallowed : s.Allowed (.start process)) (hstep : s.step (.start process) = some s') :
    ∃ f : ProcFoot, f.process = process ∧ ∃ rs', Programs s' (f :: foots) rs' ∧
      LeavesOthers s.kernel s'.kernel foots process := by
  obtain ⟨f, hf, rs', hinv⟩ := h.inv.start hallowed hstep
  refine ⟨f, hf, rs', ?_⟩
  obtain ⟨hfresh, -⟩ := hallowed
  obtain ⟨⟨_, k'⟩, hcode, rfl⟩ := Option.map_eq_some_iff.mp hstep
  obtain ⟨task, k₁, hnew, -, hmem, hsched', hothers, htask, -⟩ := startProcess_some hcode
  obtain ⟨-, chunk, shape, ip, hown, -, hagree, honly, -, -, hsched⟩ := taskNew_some hnew h.inv.owns
  have hne : ∀ g ∈ foots, g.process ≠ process := by
    rintro g hg rfl
    refine hfresh ?_
    rw [h.inv.started]
    exact List.mem_map_of_mem hg
  have hprocs : ∀ g ∈ foots, k'.procs g.process = s.kernel.procs g.process := fun g hg => by
    rw [hothers _ (hne g hg), honly.procs]
  -- the new task is none of the tasks there were
  have hntask : ∀ g ∈ foots, (s.kernel.procs g.process).task ≠ task := by
    intro g hg heq
    have hnd := hown.nodup
    rw [List.map_append, List.map_cons] at hnd
    refine (List.nodup_cons.mp (List.nodup_append.mp hnd).2.1).1 ?_
    rw [← heq]
    exact List.mem_map.mpr ⟨_, List.mem_append_right _ (h.inv.task g hg), rfl⟩
  have hprocess : ∀ t, (k'.sched.tasks t).process =
      if t = task then process else (s.kernel.sched.tasks t).process := by
    intro t
    rw [hsched', hsched, process_taskListAppend, assign_tasks]
    split <;> rfl
  refine ⟨⟨hinv, fun g hg => ?_⟩, fun g hg _ => hprocs g hg, fun g hg _ => ?_⟩
  · dsimp only
    rw [hprocess]
    rcases List.mem_cons.mp hg with rfl | hg
    · rw [hf, htask, if_pos rfl]
    · rw [hprocs g hg, if_neg (hntask g hg)]
      exact h.owner g hg
  · rw [hmem]
    exact hagree.subset fun r hr => List.mem_append_left _ (List.mem_flatMap.mpr
      ⟨g, hg, List.mem_append_right _ hr⟩)

/-- **Every step** keeps the invariant and leaves the other processes alone. -/
theorem Programs.step (h : Programs s foots rs) {op : ProgramOp} (hallowed : op.Allowed s)
    (hsafe : op.Safe s) {s' : MemRun} (hstep : programStep s op = some s') :
    ∃ foots' rs', Programs s' foots' rs' ∧ (∀ g ∈ foots, g ∈ foots') ∧
      LeavesOthers s.kernel s'.kernel foots op.process := by
  cases op with
  | start process =>
    obtain ⟨f, -, rs', h', hleaves⟩ := h.start hallowed hstep
    exact ⟨f :: foots, rs', h', fun g hg => List.mem_cons_of_mem _ hg, hleaves⟩
  | store process v b =>
    obtain ⟨p, hwalk, rfl⟩ := Option.map_eq_some_iff.mp hstep
    obtain ⟨h', hleaves⟩ := h.store hallowed b hwalk
    exact ⟨foots, rs, h', fun g hg => hg, hleaves⟩
  | interrupt process frame enter =>
    obtain ⟨⟨_, k'⟩, hsave, rfl⟩ := Option.map_eq_some_iff.mp hstep
    obtain ⟨h', hleaves, -⟩ := h.enter hallowed.2 hsave
    exact ⟨foots, rs, h', fun g hg => hg, hleaves⟩
  | sum process frame enter =>
    obtain ⟨⟨res, k'⟩, hcode, rfl⟩ := Option.map_eq_some_iff.mp hstep
    obtain ⟨h', hleaves⟩ := h.sum hallowed.1 hallowed.2 hcode
    exact ⟨foots, rs, h', fun g hg => hg, hleaves⟩
  | malloc process frame enter =>
    obtain ⟨⟨res, k'⟩, hcode, rfl⟩ := Option.map_eq_some_iff.mp hstep
    obtain ⟨h', hleaves⟩ := h.malloc hallowed.1 hallowed.2 hsafe hcode
    exact ⟨foots, rs, h', fun g hg => hg, hleaves⟩
  | free process frame enter =>
    obtain ⟨⟨res, k'⟩, hcode, rfl⟩ := Option.map_eq_some_iff.mp hstep
    obtain ⟨h', hleaves⟩ := h.free hallowed.1 hallowed.2 hcode
    exact ⟨foots, rs, h', fun g hg => hg, hleaves⟩

end Steps

/-! ## Runs -/

section Run

variable {s s' : MemRun} {foots : List ProcFoot} {rs : List (Addr × ℕ)}

end Run

end MaerOS.Analysis
