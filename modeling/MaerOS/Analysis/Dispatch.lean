import MaerOS.Model.Dispatch
import MaerOS.Analysis.ProcessLife
import MaerOS.Analysis.TableLoad
import MaerOS.Analysis.TaskOrder

/-!
# Whose turn it is, over whole runs

Ticks of the clock, exits and exceptions move the current task round the list. The
tasks from the current one on are a ring in which a tick passes the turn on. A task
that goes brings the one behind it to the front before `task_next` goes on once more,
so the one behind it loses its turn: `dispatch_runs_iff`. No task waits for ever all
the same, `dispatch_waits`.
-/

set_option autoImplicit false

namespace MaerOS.Analysis

open MaerOS.Lib MaerOS.Model

/-! ## What `process_terminate` leaves as it is -/

/-- The task list, the process table, and the fields of the processes that lead to them. -/
structure SameTasks (k k' : Kernel) : Prop where
  sched : k'.sched = k.sched
  processes : k'.processes = k.processes
  current : k'.current_process = k.current_process
  record : ∀ p, (k'.procs p).task = (k.procs p).task ∧
    (k'.procs p).filetype = (k.procs p).filetype ∧ (k'.procs p).id = (k.procs p).id

theorem SameTasks.refl (k : Kernel) : SameTasks k k :=
  ⟨rfl, rfl, rfl, fun _ => ⟨rfl, rfl, rfl⟩⟩

theorem SameTasks.trans {k k₁ k₂ : Kernel} (h : SameTasks k k₁) (h' : SameTasks k₁ k₂) :
    SameTasks k k₂ :=
  ⟨h'.sched.trans h.sched, h'.processes.trans h.processes, h'.current.trans h.current, fun p =>
    ⟨(h'.record p).1.trans (h.record p).1, (h'.record p).2.1.trans (h.record p).2.1,
      (h'.record p).2.2.trans (h.record p).2.2⟩⟩

section Terminate

variable {process : Addr} {k : Kernel}

/-- `process_free` leaves the tasks alone, whatever pointer it is given. -/
theorem processFree_sameTasks (hproc : process ≠ 0#32) (htask : (k.procs process).task ≠ 0#32)
    (ptr : Addr) : ∃ k', processFree process ptr k = some ((), k') ∧ SameTasks k k' := by
  unfold processFree
  rw [bind_of_some (deref_of_ne hproc k), bind_get]
  cases processGetAllocationByAddr (k.procs process) ptr with
  | none => exact ⟨k, rfl, .refl k⟩
  | some a =>
    obtain ⟨res, mem, hmap⟩ := processMapTo_outcome htask a.ptr a.ptr
      (pagingAlignAddress (a.ptr + a.size)) 0#32
    dsimp only
    rw [bind_of_some hmap]
    split
    · exact ⟨_, rfl, rfl, rfl, rfl, fun _ => ⟨rfl, rfl, rfl⟩⟩
    · refine ⟨_, prog_bind.mpr ⟨_, _, rfl, rfl⟩, rfl, rfl, rfl, fun p => ?_⟩
      by_cases hp : p = process
      · subst hp
        simp [processAllocationUnjoin]
      · simp [Function.update_of_ne hp]

/-- Releasing all allocations of a process leaves the tasks alone. -/
theorem terminateAllocations_sameTasks (hproc : process ≠ 0#32)
    (htask : (k.procs process).task ≠ 0#32) :
    ∃ k', processTerminateAllocations process k = some (0, k') ∧ SameTasks k k' := by
  have hround : ∀ i k, (k.procs process).task ≠ 0#32 →
      ∃ k', processFreeSlot process i k = some ((), k') ∧ SameTasks k k' := fun i k ht =>
    processFree_sameTasks hproc ht ((k.procs process).allocations i).ptr
  obtain ⟨k', hloop, hsame⟩ := forM_total (P := fun k => (k.procs process).task ≠ 0#32)
    SameTasks.refl SameTasks.trans (fun ht hs => by rwa [(hs.record process).1]) hround
    (List.range maerosMaxProgramAllocations) k htask
  refine ⟨k', ?_, hsame⟩
  unfold processTerminateAllocations forUpto
  rw [bind_of_some hloop]
  rfl

/-- Releasing the program leaves the tasks alone. -/
theorem freeProgramData_sameTasks (process : Addr) (k : Kernel)
    (hloaded : (k.procs process).filetype = processFiletypeElf ∨
      (k.procs process).filetype = processFiletypeBinary) :
    ∃ k', processFreeProgramData process k = some (0, k') ∧ SameTasks k k' := by
  unfold processFreeProgramData
  rw [bind_get]
  rcases hloaded with helf | hbinary
  · rw [helf, if_neg (by decide), if_pos rfl]
    unfold elfClose
    split
    · exact ⟨k, rfl, .refl k⟩
    · exact ⟨_, rfl, rfl, rfl, rfl, fun _ => ⟨rfl, rfl, rfl⟩⟩
  · rw [hbinary, if_pos rfl]
    exact ⟨_, rfl, rfl, rfl, rfl, fun _ => ⟨rfl, rfl, rfl⟩⟩

theorem pagingFree4gb_sameTasks {chunk : Addr} (hchunk : chunk ≠ 0#32) (k : Kernel) :
    ∃ k', pagingFree4gb chunk k = some ((), k') ∧ SameTasks k k' := by
  have hround : ∀ i (k : Kernel), True →
      ∃ k', pagingFreeTable chunk i k = some ((), k') ∧ SameTasks k k' := fun i k _ =>
    ⟨_, rfl, rfl, rfl, rfl, fun _ => ⟨rfl, rfl, rfl⟩⟩
  obtain ⟨k', hloop, hsame⟩ := forM_total (P := fun _ : Kernel => True) SameTasks.refl
    SameTasks.trans (fun _ _ => trivial) hround (List.range 1024) k trivial
  refine ⟨{ k' with
    heap := heapFree (heapFree k'.heap (load32 k'.mem chunk)) chunk
    kfrees := chunk :: load32 k'.mem chunk :: k'.kfrees }, ?_,
    hsame.trans ⟨rfl, rfl, rfl, fun _ => ⟨rfl, rfl, rfl⟩⟩⟩
  unfold pagingFree4gb forUpto
  rw [bind_of_some (deref_of_ne hchunk k), bind_of_some hloop, bind_get]
  rfl

/-- The links of the list change, and nothing else of what dispatching looks at. -/
theorem tableTaskFree_tasks (task : Addr) (k : Kernel) (htask : task ≠ 0#32)
    (hdir : (k.sched.tasks task).page_directory ≠ 0#32) :
    ∃ k', Table.taskFree task k = some (0, k') ∧
      SameTasks { k with sched := taskListRemove k.sched task } k' := by
  obtain ⟨k₁, hfree, hsame⟩ := pagingFree4gb_sameTasks hdir k
  refine ⟨{ k₁ with
    heap := heapFree k₁.heap task
    mem := linkStore k₁.mem (k₁.sched.tasks task).prev (k₁.sched.tasks task).next
    sched := taskListRemove k₁.sched task
    kfrees := task :: k₁.kfrees }, ?_, congrArg (fun s => taskListRemove s task) hsame.sched,
    hsame.processes, hsame.current, hsame.record⟩
  unfold Table.taskFree taskFreeBy
  rw [bind_of_some (deref_of_ne htask k), bind_get, bind_of_some hfree,
    bind_of_some (tableListRemove_eq task _)]
  rfl

/-- As long as another process is in the table, `process_unlink` returns. -/
theorem processUnlink_returns (process : Addr) (k : Kernel)
    (hother : ∃ i < maerosMaxProcesses, i ≠ (k.procs process).id ∧ k.processes i ≠ 0#32) :
    ∃ k', processUnlink process k = some ((), k') ∧ k'.sched = k.sched ∧ k'.procs = k.procs ∧
      k'.processes = Function.update k.processes (k.procs process).id 0#32 := by
  obtain ⟨i, hi, hne, hslot⟩ := hother
  unfold processUnlink
  by_cases hcur : k.current_process = process
  · have hsome : ((List.range maerosMaxProcesses).find? fun i =>
        Function.update k.processes (k.procs process).id 0#32 i != 0#32).isSome := by
      rw [List.find?_isSome]
      refine ⟨i, List.mem_range.mpr hi, ?_⟩
      rw [Function.update_of_ne hne]
      simpa using hslot
    obtain ⟨j, hj⟩ := Option.isSome_iff_exists.mp hsome
    refine ⟨{ k with
      processes := Function.update k.processes (k.procs process).id 0#32
      current_process := Function.update k.processes (k.procs process).id 0#32 j },
      prog_bind.mpr ⟨_, _, rfl, ?_⟩, rfl, rfl, rfl⟩
    rw [bind_get, if_pos hcur]
    unfold processSwitchToAny
    rw [bind_get]
    dsimp only
    rw [hj]
    rfl
  · refine ⟨{ k with processes := Function.update k.processes (k.procs process).id 0#32 },
      prog_bind.mpr ⟨_, _, rfl, ?_⟩, rfl, rfl, rfl⟩
    rw [bind_get, if_neg hcur]
    rfl

end Terminate

/-! ## Tasks that can go -/

/-- The task belongs to a process that is in the table, has a program and runs on the task. -/
structure Held (k : Kernel) (t : Addr) : Prop where
  process : (k.sched.tasks t).process ≠ 0#32
  task : (k.procs (k.sched.tasks t).process).task = t
  loaded : (k.procs (k.sched.tasks t).process).filetype = processFiletypeElf ∨
    (k.procs (k.sched.tasks t).process).filetype = processFiletypeBinary
  directory : (k.sched.tasks t).page_directory ≠ 0#32
  index : (k.procs (k.sched.tasks t).process).id < maerosMaxProcesses
  slot : k.processes (k.procs (k.sched.tasks t).process).id = (k.sched.tasks t).process

section Held

variable {k k' : Kernel} {c t : Addr}

/-- Two tasks are in different slots. -/
theorem Held.id_ne (h : Held k t) (hc : Held k c) (hne : t ≠ c) :
    (k.procs (k.sched.tasks t).process).id ≠ (k.procs (k.sched.tasks c).process).id := by
  intro heq
  refine hne ?_
  rw [← h.task, ← hc.task, ← h.slot, ← hc.slot, heq]

/-- **`process_terminate`** of the process of a task takes the task off the list and the process out
of the table. -/
theorem Held.terminate (hc : Held k c) (hnull : c ≠ 0#32) (ht : Held k t) (hne : t ≠ c) :
    ∃ k', Table.processTerminate (k.sched.tasks c).process k = some (0, k') ∧
      k'.sched = taskListRemove k.sched c ∧
      (∀ p, (k'.procs p).task = (k.procs p).task ∧ (k'.procs p).filetype = (k.procs p).filetype ∧
        (k'.procs p).id = (k.procs p).id) ∧
      k'.processes =
        Function.update k.processes (k.procs (k.sched.tasks c).process).id 0#32 := by
  have htask : (k.procs (k.sched.tasks c).process).task ≠ 0#32 := by
    rw [hc.task]
    exact hnull
  obtain ⟨k₁, hallocs, hsame₁⟩ := terminateAllocations_sameTasks hc.process htask
  obtain ⟨k₂, hdata, hsame₂⟩ := freeProgramData_sameTasks (k.sched.tasks c).process k₁
    (by rw [(hsame₁.record _).2.1]; exact hc.loaded)
  have hsame := hsame₁.trans hsame₂
  have hc₂ : (k₂.procs (k.sched.tasks c).process).task = c := (hsame.record _).1.trans hc.task
  obtain ⟨k₃, hfree, hsame₃⟩ := tableTaskFree_tasks c { k₂ with
    heap := heapFree k₂.heap (k₂.procs (k.sched.tasks c).process).stack
    kfrees := (k₂.procs (k.sched.tasks c).process).stack :: k₂.kfrees } hnull
    (by dsimp only; rw [hsame.sched]; exact hc.directory)
  have hprocesses : k₃.processes = k.processes := hsame₃.processes.trans hsame.processes
  have hid : ∀ p, (k₃.procs p).id = (k.procs p).id := fun p =>
    (hsame₃.record p).2.2.trans (hsame.record p).2.2
  obtain ⟨k₄, hunlink, hsched, hprocs, hslots⟩ :=
    processUnlink_returns (k.sched.tasks c).process k₃
      ⟨_, ht.index, by rw [hid]; exact ht.id_ne hc hne, by
        rw [hprocesses, ht.slot]
        exact ht.process⟩
  refine ⟨k₄, ?_, ?_, fun p => ?_, ?_⟩
  · unfold Table.processTerminate processTerminateBy
    rw [bind_of_some hallocs, bind_of_some hdata, if_neg (by decide), bind_get,
      bind_of_some (show Model.kfree _ _ = some ((), _) from rfl), hc₂, bind_of_some hfree,
      bind_of_some hunlink]
    rfl
  · rw [hsched, hsame₃.sched]
    dsimp only
    rw [hsame.sched]
  · rw [hprocs]
    exact ⟨(hsame₃.record p).1.trans (hsame.record p).1,
      (hsame₃.record p).2.1.trans (hsame.record p).2.1, hid p⟩
  · rw [hslots, hprocesses, hid]

/-- The tasks that stay keep their processes. -/
theorem Held.keep (h : Held k t) (hc : Held k c) (hne : t ≠ c)
    (hsched : k'.sched = taskListRemove k.sched c)
    (hrecord : ∀ p, (k'.procs p).task = (k.procs p).task ∧
      (k'.procs p).filetype = (k.procs p).filetype ∧ (k'.procs p).id = (k.procs p).id)
    (hslots : k'.processes =
      Function.update k.processes (k.procs (k.sched.tasks c).process).id 0#32) : Held k' t := by
  have hprocess : (k'.sched.tasks t).process = (k.sched.tasks t).process := by
    rw [hsched, process_taskListRemove]
  have hdir : (k'.sched.tasks t).page_directory = (k.sched.tasks t).page_directory := by
    rw [hsched, page_directory_taskListRemove]
  obtain ⟨htask, htype, hid⟩ := hrecord (k.sched.tasks t).process
  constructor
  · rw [hprocess]
    exact h.process
  · rw [hprocess, htask]
    exact h.task
  · rw [hprocess, htype]
    exact h.loaded
  · rw [hdir]
    exact h.directory
  · rw [hprocess, hid]
    exact h.index
  · rw [hprocess, hid, hslots, Function.update_of_ne (h.id_ne hc hne)]
    exact h.slot

end Held

/-- The tasks of the list, from the current one on and round, and each of them can go. -/
structure Scheduled (k : Kernel) (r : List Addr) : Prop where
  ring : TaskTurns k.sched r
  held : ∀ t ∈ r, Held k t

/-! ## Events -/

/-- What makes the kernel change tasks. -/
inductive DispatchEvent where
  | clock
  | exit
  | exception
  deriving DecidableEq

/-- One event, up to `task_return`. -/
def dispatchStep (k : Kernel) : DispatchEvent → Option Kernel
  | .clock => (Table.idtClock k).map Prod.snd
  | .exit => (Table.isr80hCommand9Exit k).map Prod.snd
  | .exception => (Table.idtHandleException k).map Prod.snd

/-- How the turn of the current task ends. -/
def DispatchEvent.turn : DispatchEvent → Turn
  | .clock => .pass
  | .exit => .leave
  | .exception => .leave

/-- If the current task goes, the list can be mended. -/
def DispatchEvent.Mends (k : Kernel) : DispatchEvent → Prop
  | .clock => True
  | .exit => Mended k.sched k.sched.current_task
  | .exception => Mended k.sched k.sched.current_task

section Step

variable {k : Kernel} {r : List Addr} {c : Addr}

/-- **`task_next`** over a kernel. -/
theorem Scheduled.runNextTask (h : Scheduled k r) : ∃ t k', Table.runNextTask k = some (t, k') ∧
    Scheduled k' (passOn r) := by
  obtain ⟨s', hnext, htasks, hring⟩ := h.ring.taskNext
  refine ⟨(passOn r).headD 0#32, { k with sched := s' }, ?_, hring, fun t ht => ?_⟩
  · unfold Table.runNextTask
    rw [hnext]
    rfl
  · obtain ⟨h₁, h₂, h₃, h₄, h₅, h₆⟩ := h.held t (mem_passOn.mp ht)
    rw [← htasks] at h₁ h₂ h₃ h₄ h₅ h₆
    exact ⟨h₁, h₂, h₃, h₄, h₅, h₆⟩

theorem runNextTask_some {t : Addr} {k' : Kernel} (h : Table.runNextTask k = some (t, k')) :
    k'.sched.tasks = k.sched.tasks := by
  obtain ⟨⟨t, s⟩, hnext, heq⟩ := Option.map_eq_some_iff.mp h
  cases heq
  unfold taskNext at hnext
  split at hnext
  · cases hnext
  · split at hnext
    · cases hnext
    · cases hnext
      rfl

/-- **The current task goes**: what is left when `process_terminate` returns. -/
theorem Scheduled.terminate (h : Scheduled k (c :: r)) (hne : r ≠ []) :
    ∃ k₁, Table.isr80hCommand9Exit k = Table.runNextTask k₁ ∧
      k₁.sched = taskListRemove k.sched c ∧ ∀ t ∈ r, Held k₁ t := by
  have hcur : k.sched.current_task = c := h.ring.current
  obtain ⟨hnot, hnull⟩ := h.ring.notMem
  have hc := h.held c List.mem_cons_self
  have hother : ∀ t ∈ r, t ≠ c := by
    rintro t ht rfl
    exact hnot ht
  obtain ⟨t, r', rfl⟩ := List.exists_cons_of_ne_nil hne
  obtain ⟨k₁, hterm, hsched, hrecord, hslots⟩ := hc.terminate hnull
    (h.held t (by simp)) (hother t List.mem_cons_self)
  refine ⟨k₁, ?_, hsched, fun t' ht' => (h.held t' (List.mem_cons_of_mem _ ht')).keep hc
    (hother t' ht') hsched hrecord hslots⟩
  have hprocess : Table.currentProcess k = some ((k.sched.tasks c).process, k) := by
    unfold Table.currentProcess
    rw [bind_get, hcur, bind_of_some (deref_of_ne hnull k)]
    rfl
  unfold Table.isr80hCommand9Exit
  rw [bind_of_some hprocess, bind_of_some hterm]

/-- **One event.** The turn ends as in the ring, exactly if the list can be mended. -/
theorem Scheduled.step (h : Scheduled k r) (e : DispatchEvent) (hstay : endTurn r e.turn ≠ []) :
    (∃ k', dispatchStep k e = some k' ∧ Scheduled k' (endTurn r e.turn)) ↔ e.Mends k := by
  have hleave : ∀ hstay : endTurn r .leave ≠ [],
      (∃ k', (Table.isr80hCommand9Exit k).map Prod.snd = some k' ∧
        Scheduled k' (endTurn r .leave)) ↔ Mended k.sched k.sched.current_task := by
    intro hstay
    obtain ⟨c, r, rfl⟩ := List.exists_cons_of_ne_nil h.ring.nonempty
    have hcur : k.sched.current_task = c := h.ring.current
    have hne : r ≠ [] := by
      rintro rfl
      exact hstay rfl
    obtain ⟨k₁, hexit, hsched, hheld⟩ := h.terminate hne
    rw [hexit, hcur]
    constructor
    · rintro ⟨k₂, hnext, hafter⟩
      obtain ⟨⟨t, k₂⟩, hrun, rfl⟩ := Option.map_eq_some_iff.mp hnext
      by_contra hmend
      obtain ⟨b, hb, hstale⟩ := h.ring.remove_stale hmend
      obtain ⟨hnot, hnull⟩ := h.ring.notMem
      have hlink : nextOf k₂.sched b = c := by
        unfold nextOf at hstale ⊢
        rw [runNextTask_some hrun, hsched, hstale]
      rcases hafter.ring.mem_next (mem_passOn.mpr hb) with h0 | hmem
      · exact hnull (hlink.symm.trans h0)
      · rw [hlink] at hmem
        exact hnot (mem_passOn.mp hmem)
    · intro hmend
      have hrest : Scheduled k₁ r := ⟨hsched ▸ h.ring.remove hmend hne, hheld⟩
      obtain ⟨t, k₂, hnext, hafter⟩ := hrest.runNextTask
      exact ⟨k₂, by rw [hnext]; rfl, hafter⟩
  cases e with
  | clock =>
    obtain ⟨t, k', hnext, hafter⟩ := h.runNextTask
    refine iff_of_true ⟨k', ?_, hafter⟩ trivial
    show (Table.runNextTask k).map Prod.snd = some k'
    rw [hnext]
    rfl
  | exit => exact hleave hstay
  | exception => exact hleave hstay

end Step

/-! ## Runs -/

section Run

variable {k : Kernel} {r : List Addr}

/-- The ring after the first events of a run. -/
def ringAfter (r : List Addr) (events : List DispatchEvent) : List Addr :=
  endTurns r (events.map DispatchEvent.turn)

theorem ringAfter_cons (e : DispatchEvent) (events : List DispatchEvent) :
    ringAfter r (e :: events) = ringAfter (endTurn r e.turn) events := rfl

/-- As long as somebody stays to the end, there is somebody all the time. -/
theorem endTurn_ne_nil {e : DispatchEvent} {events : List DispatchEvent}
    (hstay : ringAfter r (e :: events) ≠ []) : endTurn r e.turn ≠ [] := by
  intro hnil
  rw [ringAfter_cons, hnil] at hstay
  exact hstay (endTurns_nil _)

/-- A run in which the list can always be mended keeps the turns of the ring. -/
theorem Scheduled.run (events : List DispatchEvent) : ∀ {k : Kernel} {r : List Addr},
    Scheduled k r → ringAfter r events ≠ [] →
    AlongPartial dispatchStep DispatchEvent.Mends k events →
    ∀ i, ∃ k', runPartial dispatchStep k (events.take i) = some k' ∧
      Scheduled k' (ringAfter r (events.take i)) := by
  induction events with
  | nil =>
    intro k r h _ _ i
    rw [List.take_nil]
    exact ⟨k, rfl, h⟩
  | cons e events ih =>
    rintro k r h hstay ⟨hmend, hrest⟩ i
    obtain ⟨k₁, hk₁, h₁⟩ := (h.step e (endTurn_ne_nil hstay)).mpr hmend
    cases i with
    | zero => exact ⟨k, rfl, h⟩
    | succ i =>
      obtain ⟨k', hk', h'⟩ := ih h₁ hstay (hrest k₁ hk₁) i
      exact ⟨k', by rw [List.take_succ_cons, runPartial_step hk₁, hk'], h'⟩

/-- A run that keeps the turns of the ring has mended the list whenever a task went. -/
theorem Scheduled.along (events : List DispatchEvent) : ∀ {k : Kernel} {r : List Addr},
    Scheduled k r → ringAfter r events ≠ [] →
    (∀ i, ∃ k', runPartial dispatchStep k (events.take i) = some k' ∧
      Scheduled k' (ringAfter r (events.take i))) →
    AlongPartial dispatchStep DispatchEvent.Mends k events := by
  induction events with
  | nil => exact fun _ _ _ => trivial
  | cons e events ih =>
    intro k r h hstay hall
    obtain ⟨k₁, hrun, h₁⟩ := hall 1
    have hk₁ : dispatchStep k e = some k₁ := by
      rw [List.take_succ_cons, List.take_zero, runPartial_cons, Option.bind_eq_some_iff] at hrun
      obtain ⟨k₂, hk₂, hrest⟩ := hrun
      cases hrest
      exact hk₂
    refine .cons ((h.step e (endTurn_ne_nil hstay)).mp ⟨k₁, hk₁, h₁⟩) hk₁
      (ih h₁ hstay fun i => ?_)
    obtain ⟨k', hk', h'⟩ := hall (i + 1)
    rw [List.take_succ_cons, runPartial_step hk₁] at hk'
    exact ⟨k', hk', h'⟩

/-- **Dispatching refines taking turns.** In every run of ticks, exits and exceptions that does not
end the last task, the tasks run in the turns of the ring all along, exactly if every task that goes
is the first of the list or its `prev` is still on the list when it goes. -/
theorem dispatch_runs_iff (k : Kernel) (r : List Addr) (h : Scheduled k r)
    (events : List DispatchEvent) (hstay : ringAfter r events ≠ []) :
    (∀ i, ∃ k', runPartial dispatchStep k (events.take i) = some k' ∧
        Scheduled k' (ringAfter r (events.take i))) ↔
      AlongPartial dispatchStep DispatchEvent.Mends k events :=
  ⟨h.along events hstay, h.run events hstay⟩

/-- Three tasks in the order in which they were loaded, the first of them current. -/
def threeTaskList : TaskList :=
  { tasks := fun a =>
      if a = 0x1000#32 then
        { Task.zero with page_directory := 1#32, process := 0x10#32, next := 0x2000#32 }
      else if a = 0x2000#32 then
        { Task.zero with
          page_directory := 1#32, process := 0x20#32, next := 0x3000#32, prev := 0x1000#32 }
      else { Task.zero with page_directory := 1#32, process := 0x30#32, prev := 0x2000#32 }
    current_task := 0x1000#32
    task_tail := 0x3000#32
    task_head := 0x1000#32 }

/-- Their processes, all of them raw binaries. -/
def threeTaskKernel : Kernel :=
  { bootKernel with
    sched := threeTaskList
    procs := fun p =>
      if p = 0x10#32 then { Process.zero with id := 0, task := 0x1000#32, filetype := 1#8 }
      else if p = 0x20#32 then { Process.zero with id := 1, task := 0x2000#32, filetype := 1#8 }
      else { Process.zero with id := 2, task := 0x3000#32, filetype := 1#8 }
    processes := fun i =>
      if i = 0 then 0x10#32 else if i = 1 then 0x20#32 else if i = 2 then 0x30#32 else 0#32
    current_process := 0x10#32 }

theorem scheduled_threeTaskKernel :
    Scheduled threeTaskKernel [0x1000#32, 0x2000#32, 0x3000#32] := by
  have hlist : Represents threeTaskList [0x1000#32, 0x2000#32, 0x3000#32] :=
    ⟨by decide, by decide, ⟨rfl, rfl, rfl, rfl, rfl, rfl, trivial⟩, rfl, rfl, .inr (by decide)⟩
  refine ⟨⟨⟨[], _, (List.append_nil _).symm, hlist.tasksInOrder⟩, rfl, by decide⟩, fun t ht => ?_⟩
  simp only [List.mem_cons, List.not_mem_nil, or_false] at ht
  rcases ht with rfl | rfl | rfl <;>
    exact ⟨by decide, by decide, .inr (by decide), by decide, by decide, by decide⟩

/-- The first task exits: the second one loses its turn to the third. -/
theorem dispatch_runs_iff_three : ∃ k',
    runPartial dispatchStep threeTaskKernel [.exit, .clock] = some k' ∧
      k'.sched.current_task = 0x2000#32 := by
  obtain ⟨k', hrun, h⟩ := (dispatch_runs_iff threeTaskKernel _ scheduled_threeTaskKernel
    [.exit, .clock] (by decide)).mpr ⟨.inl rfl, fun _ _ => ⟨trivial, fun _ _ => trivial⟩⟩ 2
  exact ⟨k', hrun, h.ring.current⟩

/-- **No task waits for ever.** In such a run every one of `n` tasks but the current one runs before
`n * (n - 1) / 2` events are over, whichever of the others go. -/
theorem dispatch_waits (k : Kernel) (r : List Addr) (h : Scheduled k r)
    (events : List DispatchEvent) (hstay : ringAfter r events ≠ [])
    (hmends : AlongPartial dispatchStep DispatchEvent.Mends k events) (t : Addr) (ht : t ∈ r)
    (hcur : t ≠ k.sched.current_task)
    (hlen : r.length * (r.length - 1) ≤ 2 * events.length) :
    ∃ i < events.length, ∃ k', runPartial dispatchStep k (events.take (i + 1)) = some k' ∧
      k'.sched.current_task = t := by
  obtain ⟨c, r, rfl⟩ := List.exists_cons_of_ne_nil h.ring.nonempty
  have htail : t ∈ r := (List.mem_cons.mp ht).resolve_left fun heq =>
    hcur (heq.trans h.ring.current.symm)
  have hfront : t ∈ fronts (c :: r) (events.map DispatchEvent.turn) :=
    mem_fronts htail (by rwa [List.length_map])
  obtain ⟨i, hi, hhead⟩ := mem_fronts_iff.mp hfront
  rw [List.length_map] at hi
  rw [← List.map_take] at hhead
  obtain ⟨k', hrun, h'⟩ := h.run events hstay hmends (i + 1)
  refine ⟨i, hi, k', hrun, ?_⟩
  rw [h'.ring.current, List.headD_eq_head?_getD]
  unfold ringAfter
  rw [hhead]
  rfl

/-- The second task, behind one that exits. -/
theorem dispatch_waits_three : ∃ i < 3, ∃ k',
    runPartial dispatchStep threeTaskKernel
      (([.exit, .clock, .clock] : List DispatchEvent).take (i + 1)) = some k' ∧
      k'.sched.current_task = 0x2000#32 :=
  dispatch_waits threeTaskKernel _ scheduled_threeTaskKernel [.exit, .clock, .clock] (by decide)
    ⟨.inl rfl, fun _ _ => ⟨trivial, fun _ _ => ⟨trivial, fun _ _ => trivial⟩⟩⟩ 0x2000#32
    (by decide) (by decide) (by decide)

end Run

end MaerOS.Analysis
