import MaerOS.Model.Keyboard
import MaerOS.Analysis.Isolation
import MaerOS.Analysis.ProcessLife
import MaerOS.Analysis.TableLoad

/-!
# The process table over whole runs

A run starts with an empty table and carries out any sequence of
`process_load_switch`, whatever comes of it, and `process_terminate` of processes
in the table. `ProcTableGood` is what the table should be.

`task_new` and `task_list_remove` each store to one task through a pointer of the
list, `task_tail` or `prev`. As long as that task belongs to a process in the table
the store stays within what the process owns, and the table is good throughout:
`process_table_runs`. But `task_list_remove` leaves `prev` of the next task as it
was, so the pointer may be one to a task that is gone.
-/

set_option autoImplicit false

namespace MaerOS.Analysis

open MaerOS.Lib MaerOS.Model

/-! ## Runs -/

/-- One call. -/
inductive TableOp where
  /-- `process_load_switch` of a file, with what the file layer does when it is read as an ELF file
  and as a raw binary. -/
  | loadSwitch (filename : List (BitVec 8)) (elf binary : Table.FileUse)
  /-- `process_terminate`. -/
  | terminate (process : Addr)

/-- Carry out a call. -/
def tableStep (k : Kernel) : TableOp → Option Kernel
  | .loadSwitch filename elf binary => (Table.processLoadSwitch filename elf binary k).map Prod.snd
  | .terminate process => (Table.processTerminate process k).map Prod.snd

/-- The process is in the table. -/
def Listed (k : Kernel) (process : Addr) : Prop :=
  process ≠ 0#32 ∧ ∃ i < maerosMaxProcesses, k.processes i = process

/-- Only processes in the table are terminated. -/
def TableAllowed (k : Kernel) : TableOp → Prop
  | .loadSwitch _ _ _ => True
  | .terminate process => Listed k process

/-- The task that a call stores to, or null. -/
def linkSpot (k : Kernel) : TableOp → Addr
  | .loadSwitch _ _ _ => appendSpot k.sched
  | .terminate process => (k.sched.tasks (k.procs process).task).prev

/-- That task, if there is one, belongs to a process in the table. -/
def LinkLive (k : Kernel) (op : TableOp) : Prop :=
  linkSpot k op = 0#32 ∨ ∃ process, Listed k process ∧ (k.procs process).task = linkSpot k op

/-- The process table is as it should be. -/
structure ProcTableGood (k : Kernel) : Prop where
  id : ∀ i < maerosMaxProcesses, k.processes i ≠ 0#32 → (k.procs (k.processes i)).id = i
  owns : ∀ i < maerosMaxProcesses, k.processes i ≠ 0#32 →
    AllocStart k.heap (k.procs (k.processes i)).task
  back : ∀ i < maerosMaxProcesses, k.processes i ≠ 0#32 →
    (k.sched.tasks (k.procs (k.processes i)).task).process = k.processes i
  distinct : ∀ i < maerosMaxProcesses, ∀ j < maerosMaxProcesses, i ≠ j → k.processes i ≠ 0#32 →
    k.processes j ≠ 0#32 → k.processes i ≠ k.processes j ∧
      (k.procs (k.processes i)).task ≠ (k.procs (k.processes j)).task
  current : k.current_process = 0#32 ∨ Listed k k.current_process
  keys : ∀ (s s' : KeyboardKernel) (c : BitVec 8) (u : Unit), s.kernel = k →
    keyboardPush c s = some (u, s') → ∀ q, s'.keyboards q ≠ s.keyboards q → Listed k q

/-! ## The invariant -/

/-- The invariant of a run: the heap table is the picture of what the processes `live` own and of
other blocks `lost`, the processes are up, and they are those in the table. -/
structure TableInv (k : Kernel) (live : List LiveProc) (lost : List (Addr × ℕ)) : Prop where
  owns : HeapOwns k.heap (live.flatMap (LiveProc.runs k) ++ lost)
  up : ∀ p ∈ live, p.Up k
  listed : ∀ i < maerosMaxProcesses, k.processes i ≠ 0#32 →
    ∃ p ∈ live, p.process = k.processes i ∧ (k.procs p.process).id = i
  current : k.current_process = 0#32 ∨ Listed k k.current_process

/-- An allocation starts at its address. -/
theorem HeapOwns.allocStart {h : Heap} {rs : List (Addr × ℕ)} (ho : HeapOwns h rs)
    {r : Addr × ℕ} (hr : r ∈ rs) : AllocStart h r.1 := by
  have hin := ho.inside hr
  have habove := ho.above r hr
  have hentry := ho.layout.entry _ (List.mem_map_of_mem hr) 0 (by unfold blockRun; exact hin.1)
  unfold blockRun at hentry
  rw [Nat.add_zero] at hentry
  have hfirst : runEntry r.2 0 = 0x41#8 ∨ runEntry r.2 0 = 0xC1#8 := by
    unfold runEntry heapBlockTableEntryTaken heapBlockIsFirst heapBlockHasNext
    rw [if_pos rfl]
    split_ifs <;> decide
  refine ⟨pageOf r.1 - 4096, by rw [ho.total]; omega, ?_, ?_, ?_⟩
  · rw [heapBlockToAddress_packed ho.saddr]
    exact ho.eq_blockAddr hr
  · rw [hentry]
    rcases hfirst with h | h <;> rw [h] <;> decide
  · rw [hentry]
    rcases hfirst with h | h <;> rw [h] <;> decide

section Invariant

variable {k k' : Kernel} {live : List LiveProc} {lost : List (Addr × ℕ)} {p : LiveProc}

theorem LiveProc.task_mem_holds (k : Kernel) (p : LiveProc) :
    ((k.procs p.process).task, 1) ∈ p.holds k :=
  List.mem_append_right _ List.mem_cons_self

theorem LiveProc.process_mem_holds (k : Kernel) (p : LiveProc) : (p.process, 3) ∈ p.holds k :=
  List.mem_append_right _ (List.mem_cons_of_mem _ (List.mem_cons_of_mem _
    (List.mem_append_right _ List.mem_cons_self)))

theorem LiveProc.program_mem_holds (k : Kernel) (p : LiveProc) {r : Addr × ℕ}
    (hr : r ∈ p.program) : r ∈ p.holds k :=
  List.mem_append_right _ (List.mem_cons_of_mem _ (List.mem_cons_of_mem _
    (List.mem_append_left _ hr)))

theorem LiveProc.runs_congr (h : k'.procs p.process = k.procs p.process) : p.runs k' = p.runs k := by
  unfold LiveProc.runs LiveProc.holds
  rw [h]

/-- The heap owns the chunks of the processes, and what else they hold. -/
theorem TableInv.split (h : TableInv k live lost) :
    HeapOwns k.heap (live.flatMap (fun p => chunkRuns p.foot.chunk p.foot.shape) ++
      (live.flatMap (LiveProc.holds k) ++ lost)) := by
  refine h.owns.perm ?_
  rw [← List.append_assoc]
  exact List.Perm.append_right _ (List.flatMap_append_perm _ _ _).symm

theorem LiveProc.holds_subset (k : Kernel) (p : LiveProc) {r : Addr × ℕ} (hr : r ∈ p.holds k) :
    r ∈ p.runs k :=
  List.mem_append_right _ hr

theorem mem_live_runs (hp : p ∈ live) {r : Addr × ℕ} (hr : r ∈ p.runs k) :
    r ∈ live.flatMap (LiveProc.runs k) ++ lost :=
  List.mem_append_left _ (List.mem_flatMap.mpr ⟨p, hp, hr⟩)

theorem mem_live_holds (hp : p ∈ live) {r : Addr × ℕ} (hr : r ∈ p.holds k) :
    r ∈ live.flatMap (LiveProc.runs k) ++ lost :=
  mem_live_runs hp (p.holds_subset k hr)

theorem TableInv.of_listed (h : TableInv k live lost) {process : Addr} (hl : Listed k process) :
    ∃ p ∈ live, p.process = process := by
  obtain ⟨hne, i, hi, rfl⟩ := hl
  obtain ⟨p, hp, heq, -⟩ := h.listed i hi hne
  exact ⟨p, hp, heq⟩

theorem TableInv.to_listed (h : TableInv k live lost) (hp : p ∈ live) : Listed k p.process :=
  ⟨h.owns.ne_zero (mem_live_holds hp (p.process_mem_holds k)), _, (h.up p hp).id, (h.up p hp).slot⟩

/-- A call stores to the task of a live process, or nowhere. -/
theorem TableInv.spot (h : TableInv k live lost) {op : TableOp} (hlink : LinkLive k op) :
    linkSpot k op = 0#32 ∨ ∃ p ∈ live, (linkSpot k op, 1) ∈ p.holds k := by
  refine hlink.imp id ?_
  rintro ⟨process, hlisted, htask⟩
  obtain ⟨p, hp, rfl⟩ := h.of_listed hlisted
  exact ⟨p, hp, htask ▸ p.task_mem_holds k⟩

/-- A call stores to no block of a chunk. -/
theorem TableInv.chunk_ne_spot (h : TableInv k live lost) {op : TableOp} (hlink : LinkLive k op)
    (hp : p ∈ live) {r : Addr × ℕ} (hr : r ∈ chunkRuns p.foot.chunk p.foot.shape) :
    r.1 ≠ linkSpot k op := by
  refine h.split.ne_spot ?_ (List.mem_flatMap.mpr ⟨p, hp, hr⟩)
  refine (h.spot hlink).imp id ?_
  rintro ⟨q, hq, hmem⟩
  exact List.mem_append_left _ (List.mem_flatMap.mpr ⟨q, hq, hmem⟩)

/-- **A process stays up** when its blocks are kept. -/
theorem LiveProc.Up.keep (h : p.Up k) {spot : Addr} {rs : List (Addr × ℕ)}
    (hkeep : Keeps spot k k' rs) (hruns : ∀ r ∈ p.runs k, r ∈ rs)
    (hspot : ∀ r ∈ chunkRuns p.foot.chunk p.foot.shape, r.1 ≠ spot)
    (hslot : k'.processes (k.procs p.process).id = k.processes (k.procs p.process).id) :
    p.Up k' := by
  have hholds : ∀ r ∈ p.holds k, r ∈ rs := fun r hr => hruns r (List.mem_append_right _ hr)
  have hrec : k'.procs p.process = k.procs p.process :=
    hkeep.procs _ (hholds _ (p.process_mem_holds k))
  have htask := hholds _ (p.task_mem_holds k)
  obtain ⟨pm, hat⟩ := h.chunk.map
  refine ⟨⟨?_, pm, ?_⟩, ?_, ?_, ?_, ?_⟩
  · rw [show p.foot.process = p.process from rfl, hrec, hkeep.dir _ htask]
    exact h.chunk.dir
  · refine hat.of_agree fun r hr q hq => ?_
    exact hkeep.mem r (hruns r (List.mem_append_left _ hr)) (hspot r hr) q hq
  · refine h.loaded.of_records (by rw [hrec]) (by rw [hrec]) fun hne => ?_
    obtain ⟨r, hr, hptr⟩ := h.loaded.ptr_mem hne
    rw [← hptr]
    exact hkeep.elfs r (hholds r (p.program_mem_holds k hr))
  · rw [hrec, hkeep.process _ htask]
    exact h.back
  · rw [hrec]
    exact h.id
  · rw [hrec, hslot]
    exact h.slot

end Invariant

/-! ## Termination -/

/-- **`process_terminate`** gets as far as `process_unlink`, whatever `prev` points to. By then it
has given back what the process owned, and stored to the task at `prev`. -/
theorem ProcessUp.tableTerminate_eq {k : Kernel} {f : ProcFoot} {lost rs : List (Addr × ℕ)}
    (h : ProcessUp k f lost rs) :
    ∃ k₂ mem, Table.processTerminate f.process k =
        (processUnlink f.process >>= fun _ => (pure 0 : KernelM ℤ)) k₂ ∧
      HeapOwns k₂.heap
        ((allocRuns (k₂.procs f.process) ++ lost) ++ (f.process, 3) :: rs) ∧
      (NoAllocations f.process k → NoAllocations f.process k₂) ∧ AgreeOnRuns k.mem mem rs ∧
      k₂.mem = linkStore mem (k.sched.tasks (k.procs f.process).task).prev
        (k.sched.tasks (k.procs f.process).task).next ∧
      k₂.sched = taskListRemove k.sched (k.procs f.process).task ∧
      (∀ q, q ≠ f.process → k₂.procs q = k.procs q) ∧
      (k₂.procs f.process).id = (k.procs f.process).id ∧ k₂.elfs = k.elfs ∧
      k₂.processes = k.processes ∧ k₂.current_process = k.current_process := by
  obtain ⟨k₁, heap, kfrees, hallocs, hdata, hon, hframe, hcur, hslots, hown⟩ := h.release
  obtain ⟨pm, hat⟩ := hon.map
  have hempty : NoAllocations f.process k → NoAllocations f.process k₁ := fun hnone =>
    hnone.terminate hallocs
  obtain ⟨heap', kfrees', hfree, hown'⟩ := tableTaskFree_owns (k := { k₁ with
    heap := heapFree heap (k₁.procs f.process).stack
    kfrees := (k₁.procs f.process).stack :: kfrees }) (hon.dir.symm ▸ hat) hown
  obtain ⟨_, hrec⟩ := hframe.record
  refine ⟨{ k₁ with
    heap := heap'
    mem := linkStore k₁.mem (k₁.sched.tasks (k₁.procs f.process).task).prev
      (k₁.sched.tasks (k₁.procs f.process).task).next
    sched := taskListRemove k₁.sched (k₁.procs f.process).task
    kfrees := kfrees' }, k₁.mem, ?_, hown', hempty, hframe.agree,
    ?_, ?_, hframe.others, ?_, hframe.elfs, hslots, hcur⟩
  · unfold Table.processTerminate processTerminateBy
    rw [bind_of_some hallocs, bind_of_some hdata, if_neg (by decide), bind_get,
      bind_of_some (show Model.kfree (k₁.procs f.process).stack _ = some ((), _) from rfl)]
    exact bind_of_some hfree _
  · dsimp only
    rw [hframe.sched, hframe.task]
  · dsimp only
    rw [hframe.sched, hframe.task]
  · dsimp only
    rw [hrec]

/-- What `process_terminate` has done when it returns: what the process owned is given back except
its record (and what it allocated before), the word at `prev` was written, the task is off the list
and the slot is empty. -/
structure Terminated (k k' : Kernel) (f : ProcFoot) (rs : List (Addr × ℕ)) : Prop where
  owns : HeapOwns k'.heap (allocRuns (k'.procs f.process) ++ (f.process, 3) :: rs)
  none : NoAllocations f.process k → NoAllocations f.process k'
  mem : ∃ mem, AgreeOnRuns k.mem mem rs ∧ k'.mem = linkStore mem
    (k.sched.tasks (k.procs f.process).task).prev (k.sched.tasks (k.procs f.process).task).next
  sched : k'.sched = taskListRemove k.sched (k.procs f.process).task
  procs : ∀ q, q ≠ f.process → k'.procs q = k.procs q
  elfs : k'.elfs = k.elfs
  processes : k'.processes = Function.update k.processes (k.procs f.process).id 0#32
  current : (k'.current_process = k.current_process ∧ k'.current_process ≠ f.process) ∨
    ∃ i < maerosMaxProcesses, k'.processes i = k'.current_process ∧ k'.current_process ≠ 0#32

/-- What `process_terminate` has done when it returns. -/
theorem ProcessUp.tableTerminate_some {k k' : Kernel} {f : ProcFoot} {rs : List (Addr × ℕ)}
    (h : ProcessUp k f [] rs) {res : ℤ}
    (hrun : Table.processTerminate f.process k = some (res, k')) : Terminated k k' f rs := by
  obtain ⟨k₂, mem, heq, hown, hnone, hagree, hmem, hsched, hprocs, hid, helfs, hslots, hcur⟩ :=
    h.tableTerminate_eq
  rw [heq] at hrun
  obtain ⟨_, k₃, hunlink, h₃⟩ := prog_bind.mp hrun
  obtain ⟨-, rfl⟩ := prog_pure.mp h₃
  obtain ⟨current, rfl, hcurrent⟩ := processUnlink_some hunlink
  rw [List.append_nil] at hown
  refine ⟨hown, hnone, ⟨mem, hagree, hmem⟩, hsched, hprocs, helfs, by dsimp only; rw [hslots, hid], ?_⟩
  rw [hcur] at hcurrent
  exact hcurrent

section Steps

variable {k k' : Kernel} {live : List LiveProc} {lost : List (Addr × ℕ)}

/-- Each of the live processes is up, beside the others. -/
theorem TableInv.processUp {init post : List LiveProc} {p : LiveProc}
    (h : TableInv k (init ++ p :: post) lost) :
    ProcessUp k p.foot [] ((init ++ post).flatMap (LiveProc.runs k) ++ lost) := by
  have hup := h.up p (by simp)
  refine ⟨hup.chunk, p.program, hup.loaded, ?_⟩
  have hown := h.owns.perm (flatMap_runs_perm _ init post p lost)
  generalize (init ++ post).flatMap (LiveProc.runs k) ++ lost = rest at hown ⊢
  unfold LiveProc.runs LiveProc.holds LiveProc.process at hown
  unfold ProcFoot.runs
  simpa using hown

/-- The processes are kept by a step that keeps their blocks and their slots. -/
theorem TableInv.keep {others : List LiveProc} {rest : List (Addr × ℕ)} {spot : Addr}
    (h : TableInv k live lost) (hsub : ∀ p ∈ others, p ∈ live)
    (hkeep : Keeps spot k k' (others.flatMap (LiveProc.runs k) ++ rest))
    (hspot : ∀ p ∈ others, ∀ r ∈ chunkRuns p.foot.chunk p.foot.shape, r.1 ≠ spot)
    (hslots : ∀ p ∈ others, k'.processes (k.procs p.process).id = p.process) :
    (∀ p ∈ others, p.Up k') ∧ (∀ p ∈ others, k'.procs p.process = k.procs p.process) ∧
      others.flatMap (LiveProc.runs k') = others.flatMap (LiveProc.runs k) := by
  have hrec : ∀ p ∈ others, k'.procs p.process = k.procs p.process := fun p hp =>
    hkeep.procs _ (mem_live_holds hp (p.process_mem_holds k))
  refine ⟨fun p hp => ?_, hrec, List.flatMap_congr fun p hp => LiveProc.runs_congr (hrec p hp)⟩
  have hup := h.up p (hsub p hp)
  exact hup.keep hkeep (fun r hr => mem_live_runs hp hr) (hspot p hp)
    ((hslots p hp).trans hup.slot.symm)

/-- **Terminating** a process keeps the invariant for the others; its record is left behind, and
the allocations it made. -/
theorem TableInv.remove {init post : List LiveProc} {p : LiveProc}
    (h : TableInv k (init ++ p :: post) lost) (hlink : LinkLive k (.terminate p.process)) {res : ℤ}
    (hrun : Table.processTerminate p.process k = some (res, k')) :
    TableInv k' (init ++ post) (allocRuns (k'.procs p.process) ++ (p.process, 3) :: lost) ∧
      (NoAllocations p.process k → NoAllocations p.process k') ∧
      k'.sched = taskListRemove k.sched (k.procs p.process).task ∧
      (∀ q, q ≠ p.process → k'.procs q = k.procs q) ∧
      k'.processes = Function.update k.processes (k.procs p.process).id 0#32 := by
  have hp : p ∈ init ++ p :: post := by simp
  obtain ⟨hown, hnone, ⟨mem, hagree, hmem⟩, hsched, hprocs, helfs, hslots, hcurrent⟩ :=
    h.processUp.tableTerminate_some hrun
  have hup := h.up p hp
  have hothers : ∀ q ∈ init ++ post, q ∈ init ++ p :: post := fun q hq => by
    rcases List.mem_append.mp hq with hq | hq <;> simp [hq]
  -- the process is none of the others
  have hne : ∀ r ∈ (init ++ post).flatMap (LiveProc.runs k) ++ lost, r.1 ≠ p.process := by
    intro r hr heq
    have hall := h.owns.perm (flatMap_runs_perm _ init post p lost)
    exact hall.ne_of_append (List.mem_append_right _ (p.process_mem_holds k)) hr heq.symm
  have hneq : ∀ q ∈ init ++ post, q.process ≠ p.process := fun q hq =>
    hne _ (mem_live_holds hq (q.process_mem_holds k))
  have hspot : linkSpot k (.terminate p.process) = 0#32 ∨
      (linkSpot k (.terminate p.process), 1) ∈
        (init ++ p :: post).flatMap (LiveProc.runs k) ++ lost := by
    refine (h.spot hlink).imp id ?_
    rintro ⟨q, hq, hm⟩
    exact mem_live_holds hq hm
  have hkeep : Keeps (linkSpot k (.terminate p.process)) k k'
      ((init ++ post).flatMap (LiveProc.runs k) ++ lost) := by
    refine ⟨fun r hr hns q hq x hx => ?_, fun _ _ => by rw [helfs], fun r hr => ?_,
      fun r _ => ?_, fun r _ => ?_⟩
    · have hr' := (flatMap_runs_perm (LiveProc.runs k) init post p lost).mem_iff.mpr
        (List.mem_append_right _ hr)
      rw [hmem]
      exact (agreeOnPage_linkStore h.owns hspot _ _ hr' hns hq x hx).trans
        (hagree r hr q hq x hx)
    · exact hprocs _ (hne r hr)
    · rw [hsched, page_directory_taskListRemove]
    · rw [hsched, process_taskListRemove]
  have hslot : ∀ i, k'.processes i = if i = (k.procs p.process).id then 0#32 else k.processes i := by
    intro i
    rw [hslots]
    by_cases hi : i = (k.procs p.process).id
    · rw [if_pos hi, hi, Function.update_self]
    · rw [if_neg hi, Function.update_of_ne hi]
  have hkept : ∀ q ∈ init ++ post, k'.processes (k.procs q.process).id = q.process := by
    intro q hq
    have hslotq := (h.up q (hothers q hq)).slot
    rw [hslot, if_neg, hslotq]
    intro heq
    rw [heq, hup.slot] at hslotq
    exact hneq q hq hslotq.symm
  obtain ⟨hups, hrecs, hruns⟩ := h.keep hothers hkeep
    (fun q hq r hr => h.chunk_ne_spot hlink (hothers q hq) hr) hkept
  refine ⟨⟨?_, hups, ?_, ?_⟩, hnone, hsched, hprocs, hslots⟩
  · rw [hruns]
    refine hown.perm ?_
    refine (List.Perm.append_left _ List.perm_middle.symm).trans ?_
    exact List.perm_append_comm_assoc _ _ _
  · intro i hi hnz
    rw [hslot] at hnz ⊢
    split at hnz
    · exact absurd rfl hnz
    rename_i hni
    rw [if_neg hni]
    obtain ⟨q, hq, hqi, hidq⟩ := h.listed i hi hnz
    have hq' : q ∈ init ++ post := by
      rcases List.mem_append.mp hq with hq | hq
      · exact List.mem_append_left _ hq
      · rcases List.mem_cons.mp hq with rfl | hq
        · exact absurd hidq.symm hni
        · exact List.mem_append_right _ hq
    exact ⟨q, hq', hqi, by rw [hrecs q hq', hidq]⟩
  · rcases hcurrent with ⟨hsame, hnp⟩ | ⟨i, hi, hieq, hnz⟩
    · rw [hsame] at hnp ⊢
      rcases h.current with h0 | ⟨hnz, i, hi, hieq⟩
      · exact .inl h0
      · refine .inr ⟨hnz, i, hi, ?_⟩
        rw [hslot, if_neg, hieq]
        rintro rfl
        exact hnp (hieq.symm.trans hup.slot)
    · exact .inr ⟨hnz, i, hi, hieq⟩

/-- **Terminating** a process keeps the invariant. -/
theorem TableInv.terminate (h : TableInv k live lost) {process : Addr}
    (hlisted : Listed k process) (hlink : LinkLive k (.terminate process)) {res : ℤ}
    (hrun : Table.processTerminate process k = some (res, k')) :
    ∃ live' lost', TableInv k' live' lost' := by
  obtain ⟨p, hp, rfl⟩ := h.of_listed hlisted
  obtain ⟨init, post, rfl⟩ := List.append_of_mem hp
  exact ⟨_, _, (h.remove hlink hrun).1⟩

/-- The slot that is found is empty. -/
theorem processGetFreeSlot_empty {processes : ℕ → Addr}
    (h : ¬ processGetFreeSlot processes < 0) :
    processes (processGetFreeSlot processes).toNat = 0#32 := by
  unfold processGetFreeSlot at h ⊢
  cases hfind : (List.range maerosMaxProcesses).find? fun i => processes i == 0#32 with
  | none =>
    rw [hfind] at h
    exact absurd (by decide) h
  | some i => simpa using List.find?_some hfind

/-- The slot that is found is the first empty one. -/
theorem processGetFreeSlot_eq {processes : ℕ → Addr} {slot : ℕ} (hlt : slot < maerosMaxProcesses)
    (hempty : processes slot = 0#32) (hfull : ∀ i < slot, processes i ≠ 0#32) :
    processGetFreeSlot processes = slot := by
  have hfind : (List.range maerosMaxProcesses).find? (fun i => processes i == 0#32) = some slot := by
    rw [List.find?_range_eq_some]
    simpa [hempty, hlt] using hfull
  unfold processGetFreeSlot
  rw [hfind]

/-- A process that was loaded into an empty slot joins the others. -/
theorem TableInv.insert {k₁ : Kernel} {p : LiveProc} {lost' : List (Addr × ℕ)} {spot : Addr}
    {slot : ℕ} (h : TableInv k live lost)
    (hkeep : Keeps spot k k₁ (live.flatMap (LiveProc.runs k) ++ lost))
    (hspot : ∀ q ∈ live, ∀ r ∈ chunkRuns q.foot.chunk q.foot.shape, r.1 ≠ spot)
    (hempty : k.processes slot = 0#32) (hid : (k₁.procs p.process).id = slot) (hup : p.Up k₁)
    (hown : HeapOwns k₁.heap (p.runs k₁ ++ (lost' ++ (live.flatMap (LiveProc.runs k) ++ lost))))
    (hslots : k₁.processes = Function.update k.processes slot p.process) {current : Addr}
    (hcurrent : current = p.process ∨ current = k.current_process) :
    TableInv { k₁ with current_process := current } (p :: live) (lost' ++ lost) := by
  have hne : ∀ q ∈ live, (k.procs q.process).id ≠ slot := by
    intro q hq heq
    have hslotq := (h.up q hq).slot
    rw [heq, hempty] at hslotq
    exact (h.to_listed hq).1 hslotq.symm
  obtain ⟨hups, hrecs, hruns⟩ := h.keep (fun _ hp => hp) hkeep hspot
    fun q hq => by rw [hslots, Function.update_of_ne (hne q hq)]; exact (h.up q hq).slot
  refine ⟨?_, ?_, ?_, ?_⟩
  · show HeapOwns k₁.heap ((p :: live).flatMap (LiveProc.runs k₁) ++ (lost' ++ lost))
    rw [List.flatMap_cons, hruns, List.append_assoc]
    exact hown.perm (List.Perm.append_left _ (List.perm_append_comm_assoc _ _ _))
  · intro q hq
    have hq' : q.Up k₁ := by
      rcases List.mem_cons.mp hq with rfl | hq
      · exact hup
      · exact hups q hq
    exact ⟨⟨hq'.chunk.dir, hq'.chunk.map⟩, hq'.loaded.of_records rfl rfl fun _ => rfl,
      hq'.back, hq'.id, hq'.slot⟩
  · intro i hi hnz
    dsimp only at hnz ⊢
    rw [hslots] at hnz ⊢
    by_cases hii : i = slot
    · exact ⟨p, List.mem_cons_self, by rw [hii, Function.update_self], by rw [hid, hii]⟩
    · rw [Function.update_of_ne hii] at hnz ⊢
      obtain ⟨q, hq, hqi, hidq⟩ := h.listed i hi hnz
      exact ⟨q, List.mem_cons_of_mem _ hq, hqi, by rw [hrecs q hq, hidq]⟩
  · dsimp only
    rcases hcurrent with rfl | rfl
    · have hmem : (p.process, 3) ∈ p.runs k₁ ++ (lost' ++ (live.flatMap (LiveProc.runs k) ++ lost)) :=
        List.mem_append_left _ (List.mem_append_right _ (p.process_mem_holds k₁))
      exact .inr ⟨hown.ne_zero hmem, _, hup.id, hup.slot⟩
    · refine h.current.imp id ?_
      rintro ⟨hnz, i, hi, hieq⟩
      refine ⟨hnz, i, hi, ?_⟩
      dsimp only
      rw [hslots, Function.update_of_ne, hieq]
      rintro rfl
      exact hnz (hieq.symm.trans hempty)

/-- **`process_load_switch`**: there is no empty slot, or `process_load_for_slot` is called for the
first one, and its process becomes the current one if it returns 0. -/
theorem tableLoadSwitch_some {filename : List (BitVec 8)} {elf binary : Table.FileUse} {res : ℤ}
    {process : Addr}
    (h : Table.processLoadSwitch filename elf binary k = some ((res, process), k')) :
    (res < 0 ∧ k' = k) ∨ ∃ k₁, k.processes (processGetFreeSlot k.processes).toNat = 0#32 ∧
      Table.processLoadForSlot filename elf binary (processGetFreeSlot k.processes) k =
        some ((res, process), k₁) ∧
      k' = { k₁ with current_process := if res = 0 then process else k₁.current_process } := by
  unfold Table.processLoadSwitch at h
  obtain ⟨⟨res₁, process₁⟩, k₁, hload, h₁⟩ := prog_bind.mp h
  obtain ⟨_, k₂, hswitch, h₂⟩ := prog_bind.mp h₁
  obtain ⟨heq, rfl⟩ := prog_pure.mp h₂
  cases heq
  unfold Table.processLoad processLoadBy at hload
  rw [bind_get] at hload
  by_cases hfull : processGetFreeSlot k.processes < 0
  · rw [if_pos hfull] at hload
    obtain ⟨hr, rfl⟩ := prog_pure.mp hload
    cases hr
    rw [if_neg (by decide)] at hswitch
    obtain ⟨-, rfl⟩ := prog_pure.mp hswitch
    exact .inl ⟨by decide, rfl⟩
  rw [if_neg hfull] at hload
  refine .inr ⟨k₁, processGetFreeSlot_empty hfull, hload, ?_⟩
  by_cases hzero : res = 0
  · rw [if_pos hzero] at hswitch ⊢
    cases hswitch
    rfl
  · rw [if_neg hzero] at hswitch ⊢
    obtain ⟨-, rfl⟩ := prog_pure.mp hswitch
    rfl

/-- The place behind a list. -/
theorem getD_concat {α : Type} (l : List α) (a d : α) (i : ℕ) :
    (l ++ [a]).getD i d = if i = l.length then a else l.getD i d := by
  by_cases hi : i = l.length
  · rw [if_pos hi, hi, List.getD_append_right _ _ _ _ le_rfl, Nat.sub_self]
    rfl
  · rw [if_neg hi]
    rcases lt_or_gt_of_ne hi with hlt | hgt
    · rw [List.getD_append _ _ _ _ hlt]
    · rw [List.getD_eq_default _ _ (by simp; omega), List.getD_eq_default _ _ (by omega)]

/-- The processes fill the table from its first slot on, in the order in which they were loaded (in
`live` the last one is first); their tasks are the list in that order, and the first one is
current. -/
structure InLoadOrder (k : Kernel) (live : List LiveProc) : Prop where
  room : live.length ≤ maerosMaxProcesses
  slots : ∀ i < maerosMaxProcesses, k.processes i = (live.reverse.map LiveProc.process).getD i 0#32
  tasks : FirstRuns k.sched (live.reverse.map fun p => (k.procs p.process).task)

/-- The tasks of processes whose records are kept. -/
theorem map_task_congr (hrecs : ∀ q ∈ live, k'.procs q.process = k.procs q.process) :
    (live.reverse.map fun q => (k'.procs q.process).task) =
      live.reverse.map fun q => (k.procs q.process).task :=
  List.map_congr_left fun q hq => by rw [hrecs q (List.mem_reverse.mp hq)]

/-- Nothing in the table and on the list has changed. -/
theorem InLoadOrder.keep (ho : InLoadOrder k live) (hslots : k'.processes = k.processes)
    (hrecs : ∀ q ∈ live, k'.procs q.process = k.procs q.process)
    (hlist : KeepsList k k' (live.flatMap (LiveProc.runs k) ++ lost)) : InLoadOrder k' live := by
  refine ⟨ho.room, fun i hi => by rw [hslots, ho.slots i hi], ?_⟩
  rw [map_task_congr hrecs]
  refine hlist _ (fun t ht => ?_) ho.tasks
  obtain ⟨q, hq, rfl⟩ := List.mem_map.mp ht
  exact mem_live_holds (List.mem_reverse.mp hq) (q.task_mem_holds k)

/-- The first slots are taken. -/
theorem InLoadOrder.taken (ho : InLoadOrder k live) (h : TableInv k live lost) {i : ℕ}
    (hi : i < live.length) (hmax : i < maerosMaxProcesses) : k.processes i ≠ 0#32 := by
  have hlt : i < (live.reverse.map LiveProc.process).length := by simpa using hi
  rw [ho.slots i hmax, List.getD_eq_getElem _ _ hlt]
  obtain ⟨q, hq, heq⟩ := List.mem_map.mp (List.getElem_mem hlt)
  rw [← heq]
  exact (h.to_listed (List.mem_reverse.mp hq)).1

/-- The others are free. -/
theorem InLoadOrder.free (ho : InLoadOrder k live) {i : ℕ} (hi : live.length ≤ i)
    (hmax : i < maerosMaxProcesses) : k.processes i = 0#32 := by
  rw [ho.slots i hmax]
  exact List.getD_eq_default _ _ (by simpa using hi)

/-- **The next process** comes behind the others, in the table and on the list. -/
theorem InLoadOrder.insert {k₁ : Kernel} {p : LiveProc} {lost' : List (Addr × ℕ)} {ip : Addr}
    (ho : InLoadOrder k live) (h : TableInv k live lost)
    (hempty : k.processes (processGetFreeSlot k.processes).toNat = 0#32)
    (hid : (k₁.procs p.process).id = (processGetFreeSlot k.processes).toNat) (hup : p.Up k₁)
    (hown : HeapOwns k₁.heap (p.runs k₁ ++ (lost' ++ (live.flatMap (LiveProc.runs k) ++ lost))))
    (hslots : k₁.processes =
      Function.update k.processes (processGetFreeSlot k.processes).toNat p.process)
    (hrecs : ∀ q ∈ live, k₁.procs q.process = k.procs q.process)
    (hsched : k₁.sched = taskListAppend (k.sched.assign (k₁.procs p.process).task
      fun _ => newTask p.foot.chunk p.process ip) (k₁.procs p.process).task) :
    InLoadOrder k₁ (p :: live) := by
  have hlt : (processGetFreeSlot k.processes).toNat < maerosMaxProcesses := hid ▸ hup.id
  have hslot : (processGetFreeSlot k.processes).toNat = live.length := by
    have hle : live.length ≤ (processGetFreeSlot k.processes).toNat := by
      by_contra hgt
      exact ho.taken h (by omega) hlt hempty
    rw [processGetFreeSlot_eq (by omega) (ho.free le_rfl (by omega))
      fun i hi => ho.taken h hi (by omega)]
    rfl
  refine ⟨by rw [List.length_cons]; omega, fun i hi => ?_, ?_⟩
  · have hlen : (live.reverse.map LiveProc.process).length = live.length := by simp
    rw [hslots, hslot, List.reverse_cons, List.map_append, List.map_singleton, getD_concat, hlen]
    by_cases hii : i = live.length
    · rw [if_pos hii, hii, Function.update_self]
    · rw [if_neg hii, Function.update_of_ne hii, ho.slots i hi]
  · have htask : ((k₁.procs p.process).task, 1) ∈ p.runs k₁ :=
      p.holds_subset k₁ (p.task_mem_holds k₁)
    rw [hsched, List.reverse_cons, List.map_append, map_task_congr hrecs]
    refine ho.tasks.new (hown.ne_zero (List.mem_append_left _ htask)) (fun hm => ?_) _ _ _
    obtain ⟨q, hq, heq⟩ := List.mem_map.mp hm
    exact hown.ne_of_append htask (List.mem_append_right _ (mem_live_holds
      (List.mem_reverse.mp hq) (q.task_mem_holds k))) heq.symm

/-- **Loading** a process keeps the invariant, also if it fails. -/
theorem TableInv.loadSwitch (h : TableInv k live lost) {filename : List (BitVec 8)}
    {elf binary : Table.FileUse} (hlink : LinkLive k (.loadSwitch filename elf binary))
    {r : ℤ × Addr} (hrun : Table.processLoadSwitch filename elf binary k = some (r, k')) :
    ∃ live' lost', TableInv k' live' lost' ∧ (InLoadOrder k live → InLoadOrder k' live') := by
  obtain ⟨res, process⟩ := r
  rcases tableLoadSwitch_some hrun with ⟨-, rfl⟩ | ⟨k₁, hempty, hload, rfl⟩
  · exact ⟨live, lost, h, id⟩
  have hspot : appendSpot k.sched = 0#32 ∨
      (appendSpot k.sched, 1) ∈ live.flatMap (LiveProc.runs k) ++ lost := by
    refine (h.spot hlink).imp id ?_
    rintro ⟨q, hq, hm⟩
    exact mem_live_holds hq hm
  obtain ⟨hkeep, hcur, hcase⟩ := tableLoadForSlot_owns hload h.owns hspot
  rcases hcase with ⟨hneg, ⟨lost', hown⟩, hslots, hlist⟩ |
    ⟨hpos, p, lost', rfl, hslot, hid, -, hup, hown, hslots, ip, hsched⟩
  · -- nothing in the table has changed
    rw [if_neg (by omega)]
    obtain ⟨hups, hrecs, hruns⟩ := h.keep (fun _ hp => hp) hkeep
      (fun q hq r hr => h.chunk_ne_spot hlink hq hr)
      fun q hq => by rw [hslots]; exact (h.up q hq).slot
    refine ⟨live, lost' ++ lost, ⟨?_, hups, ?_, ?_⟩, fun ho => ho.keep hslots hrecs hlist⟩
    · rw [hruns]
      exact hown.perm (List.perm_append_comm_assoc _ _ _)
    · intro i hi hnz
      rw [hslots] at hnz ⊢
      obtain ⟨q, hq, hqi, hidq⟩ := h.listed i hi hnz
      exact ⟨q, hq, hqi, by rw [hrecs q hq, hidq]⟩
    · unfold Listed
      rw [hcur, hslots]
      exact h.current
  · -- the new process is in a slot that was empty
    refine ⟨p :: live, lost' ++ lost, h.insert hkeep
      (fun q hq r hr => h.chunk_ne_spot hlink hq hr) hempty hid hup hown hslots ?_, fun ho => ?_⟩
    · by_cases hzero : res = 0
      · exact .inl (if_pos hzero)
      · exact .inr ((if_neg hzero).trans hcur)
    · obtain ⟨hroom, hslots', htasks'⟩ := ho.insert h hempty hid hup hown hslots
        (fun q hq => hkeep.procs _ (mem_live_holds hq (q.process_mem_holds k))) hsched
      exact ⟨hroom, hslots', htasks'⟩

/-- **Every call** keeps the invariant, if the task it stores to belongs to a process in the
table. -/
theorem TableInv.step (h : TableInv k live lost) {op : TableOp} (hallowed : TableAllowed k op)
    (hlink : LinkLive k op) (hstep : tableStep k op = some k') :
    ∃ live' lost', TableInv k' live' lost' := by
  cases op with
  | loadSwitch filename elf binary =>
    obtain ⟨⟨r, _⟩, hcode, rfl⟩ := Option.map_eq_some_iff.mp hstep
    obtain ⟨live', lost', h', -⟩ := h.loadSwitch hlink hcode
    exact ⟨live', lost', h'⟩
  | terminate process =>
    simp only [tableStep, Option.map_eq_some_iff] at hstep
    obtain ⟨⟨res, _⟩, hcode, rfl⟩ := hstep
    exact h.terminate hallowed hlink hcode

/-- `keyboard_push` changes the buffer of the current process at most. -/
theorem keyboardPush_current {s s' : KeyboardKernel} {c : BitVec 8} {u : Unit}
    (h : keyboardPush c s = some (u, s')) {q : Addr} (hq : s'.keyboards q ≠ s.keyboards q) :
    s.kernel.current_process ≠ 0#32 ∧ q = s.kernel.current_process := by
  unfold keyboardPush at h
  rw [bind_get] at h
  split at h
  · obtain ⟨-, rfl⟩ := prog_pure.mp h
    exact absurd rfl hq
  rename_i hne
  split at h
  · obtain ⟨-, rfl⟩ := prog_pure.mp h
    exact absurd rfl hq
  cases h
  refine ⟨hne, ?_⟩
  by_contra hother
  exact hq (Function.update_of_ne hother _ _)

/-- **The invariant makes the table good.** -/
theorem TableInv.good (h : TableInv k live lost) : ProcTableGood k := by
  refine ⟨?_, ?_, ?_, ?_, h.current, ?_⟩
  · intro i hi hnz
    obtain ⟨p, hp, heq, hid⟩ := h.listed i hi hnz
    rw [← heq, hid]
  · intro i hi hnz
    obtain ⟨p, hp, heq, -⟩ := h.listed i hi hnz
    rw [← heq]
    exact h.owns.allocStart (mem_live_holds hp (p.task_mem_holds k))
  · intro i hi hnz
    obtain ⟨p, hp, heq, -⟩ := h.listed i hi hnz
    rw [← heq]
    exact (h.up p hp).back
  · intro i hi j hj hij hnz hnz'
    obtain ⟨p, hp, heq, hid⟩ := h.listed i hi hnz
    obtain ⟨q, hq, heq', hid'⟩ := h.listed j hj hnz'
    rw [← heq, ← heq']
    have hpq : p ≠ q := fun hpq => hij (by rw [← hid, ← hid', hpq])
    obtain ⟨init, post, rfl⟩ := List.append_of_mem hp
    have hq' : q ∈ init ++ post := by
      rcases List.mem_append.mp hq with hq | hq
      · exact List.mem_append_left _ hq
      · rcases List.mem_cons.mp hq with rfl | hq
        · exact absurd rfl hpq
        · exact List.mem_append_right _ hq
    have hown := h.owns.perm (flatMap_runs_perm _ init post p lost)
    have hprocess := hown.ne_of_append (p.holds_subset k (p.process_mem_holds k))
      (mem_live_holds hq' (q.process_mem_holds k))
    have htask := hown.ne_of_append (p.holds_subset k (p.task_mem_holds k))
      (mem_live_holds hq' (q.task_mem_holds k))
    exact ⟨hprocess, htask⟩
  · rintro s s' c u rfl hpush q hchanged
    obtain ⟨hne, rfl⟩ := keyboardPush_current hpush hchanged
    exact h.current.resolve_left hne

end Steps

/-- No process yet. -/
structure NoProcesses (k : Kernel) (rs : List (Addr × ℕ)) : Prop where
  owns : HeapOwns k.heap rs
  processes : ∀ i < maerosMaxProcesses, k.processes i = 0#32
  current : k.current_process = 0#32

/-- **The process table over whole runs.** Whatever processes are loaded, with or without success,
and terminated, in whatever order: if every call that stores to a task through `task_tail` or
`prev` finds there the task of a process in the table, the table is good after every call. -/
theorem process_table_runs (k : Kernel) (rs : List (Addr × ℕ)) (hstart : NoProcesses k rs)
    (ops : List TableOp) (k' : Kernel) (hallowed : AlongPartial tableStep TableAllowed k ops)
    (hlinks : AlongPartial tableStep LinkLive k ops) (hrun : runPartial tableStep k ops = some k') :
    ProcTableGood k' := by
  have hinit : TableInv k [] rs := ⟨hstart.owns, by simp,
    fun i hi hne => absurd (hstart.processes i hi) hne, .inl hstart.current⟩
  obtain ⟨live, lost, hinv⟩ := runPartial_invariant
    (I := fun k => ∃ live lost, TableInv k live lost)
    (C := fun k op => TableAllowed k op ∧ LinkLive k op)
    (fun _ _ _ ⟨_, _, h⟩ hop hs => h.step hop.1 hop.2 hs) ops k k' ⟨[], rs, hinit⟩
    (hallowed.and hlinks) hrun
  exact hinv.good

end MaerOS.Analysis
