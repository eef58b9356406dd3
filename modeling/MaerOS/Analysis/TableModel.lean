import MaerOS.Analysis.Dispatch

/-!
# The two models of loading and terminating agree

`Model.processLoad` and `Model.processTerminate` keep the links of the tasks with
their records; `Table.processLoad` and `Table.processTerminate` also store them to
memory, and take the file layer with its heap traffic. Termination over memory is
termination over the records, followed by the one store through `prev`
(`tableTerminate_model`). Loading over memory is loading over the records as long as
there is no task to append to and the file layer leaves the heap alone
(`tableLoad_model`); from then on the mapping may read the word that was stored.
-/

set_option autoImplicit false

namespace MaerOS.Analysis

open MaerOS.Lib MaerOS.Model

/-! ## Termination -/

/-- `process_unlink` does not look at memory. -/
theorem processUnlink_linked (process spot v : Addr) (k : Kernel) :
    processUnlink process (linked spot v k) =
      endingWith (linked spot v) (processUnlink process k) := by
  unfold processUnlink
  refine endingWith_bind rfl fun _ k₁ _ => ?_
  rw [bind_get, bind_get]
  by_cases hcurrent : k₁.current_process = process
  · rw [if_pos hcurrent, if_pos (show (linked spot v k₁).current_process = process from hcurrent)]
    unfold processSwitchToAny
    rw [bind_get, bind_get]
    cases hfind : (List.range maerosMaxProcesses).find? fun i => k₁.processes i != 0#32 with
    | none =>
      rw [show ((List.range maerosMaxProcesses).find? fun i =>
        (linked spot v k₁).processes i != 0#32) = none from hfind]
      rfl
    | some i =>
      rw [show ((List.range maerosMaxProcesses).find? fun i =>
        (linked spot v k₁).processes i != 0#32) = some i from hfind]
      rfl
  · rw [if_neg hcurrent,
      if_neg (show ¬ (linked spot v k₁).current_process = process from hcurrent)]
    rfl

/-- **Termination over memory** is termination over the records, followed by the store to the task
before the one that goes. -/
theorem tableTerminate_model {process : Addr} {k : Kernel} (hproc : process ≠ 0#32)
    (htask : (k.procs process).task ≠ 0#32)
    (hloaded : (k.procs process).filetype = processFiletypeElf ∨
      (k.procs process).filetype = processFiletypeBinary) :
    Table.processTerminate process k = endingWith
      (linked (k.sched.tasks (k.procs process).task).prev
        (k.sched.tasks (k.procs process).task).next) (processTerminate process k) := by
  obtain ⟨k₁, hallocs, hsame₁⟩ := terminateAllocations_sameTasks hproc htask
  obtain ⟨k₂, hdata, hsame₂⟩ :=
    freeProgramData_sameTasks process k₁ (by rw [(hsame₁.record process).2.1]; exact hloaded)
  have hsame := hsame₁.trans hsame₂
  unfold Table.processTerminate processTerminate processTerminateBy
  rw [bind_of_some hallocs, bind_of_some hallocs, bind_of_some hdata, bind_of_some hdata,
    if_neg (by decide), if_neg (by decide), bind_get, bind_get]
  rw [bind_of_some (show Model.kfree _ k₂ = some ((), _) from rfl),
    bind_of_some (show Model.kfree _ k₂ = some ((), _) from rfl)]
  refine endingWith_bind ?_ fun _ k₃ _ => ?_
  · rw [tableTaskFree_eq]
    dsimp only
    rw [(hsame.record process).1, hsame.sched]
  · refine endingWith_bind (processUnlink_linked _ _ _ _) fun _ _ _ => ?_
    rfl

/-! ## Loading -/

/-- The file layer leaves the heap alone. -/
structure Quiet (file : Table.FileUse) : Prop where
  opening : file.opening = []
  closing : file.closing = []

section Quiet

variable {elf binary file : Table.FileUse}

/-- **`elf_load`** of a file whose opening and closing leave the heap alone. -/
theorem tableElfLoad_quiet (h : Quiet file) : Table.elfLoad file = elfLoad file.toFilePass := by
  unfold Table.elfLoad elfLoad Table.heapActs
  simp only [h.opening, h.closing, List.foldlM_nil, pure_bind, bind_pure]

/-- **`process_load_binary`** of such a file. -/
theorem tableLoadBinary_quiet (h : Quiet file) :
    Table.processLoadBinary file = processLoadBinary file.toFilePass := by
  funext process
  unfold Table.processLoadBinary Table.heapActs
  simp only [h.opening, h.closing, List.foldlM_nil, pure_bind, bind_pure]

/-- **`process_load_data`** of such files. -/
theorem tableLoadData_quiet (helf : Quiet elf) (hbinary : Quiet binary) :
    Table.processLoadData elf binary = processLoadData elf.toFilePass binary.toFilePass := by
  funext process
  unfold Table.processLoadData processLoadData Table.processLoadElf processLoadElf
  rw [tableElfLoad_quiet helf, tableLoadBinary_quiet hbinary]

end Quiet

section FirstLoad

variable {k : Kernel} {rs : List (Addr × ℕ)}

/-- **`task_new`** without a task to append to. -/
theorem tableTaskNew_first (ho : HeapOwns k.heap rs) (hfirst : appendSpot k.sched = 0#32)
    (process : Addr) : Table.taskNew process k = taskNew process k := by
  refine Option.ext fun r => ?_
  obtain ⟨task, k'⟩ := r
  rw [tableTaskNew_iff ho, hfirst]
  constructor
  · rintro ⟨k₁, hmodel, rfl⟩
    exact hmodel
  · exact fun hmodel => ⟨k', hmodel, rfl⟩

/-- **`process_load_for_slot` from the task on**, without a task to append to: what is freed after a
failure has no task before it. -/
theorem tableLoadTask_first (ho : HeapOwns k.heap rs) (hfirst : appendSpot k.sched = 0#32)
    (process : Addr) (slot : ℤ) :
    Table.processLoadTask process slot k = processLoadTask process slot k := by
  unfold Table.processLoadTask processLoadTask processLoadTaskBy
  refine bind_congr_outcome (tableTaskNew_first ho hfirst process) fun task k₁ hnew => ?_
  obtain ⟨-, chunk, shape, ip, hown, hat, -, honly, -, -, hsched⟩ := taskNew_some hnew ho
  have hne : task ≠ 0#32 := hown.ne_zero (List.mem_append_right _ List.mem_cons_self)
  have hprev : (k₁.sched.tasks task).prev = 0#32 := by
    rw [hsched, prev_newTask (by rw [hfirst]; exact hne), hfirst]
  rw [if_neg hne, if_neg hne]
  refine bind_congr_outcome rfl fun _ k₂ hset => ?_
  cases hset
  refine bind_congr_outcome rfl fun res k₃ hmap => ?_
  have hdirtask : (k₁.sched.tasks task).page_directory = chunk := by
    rw [hsched, page_directory_newTask]
  obtain ⟨mem, rfl, -⟩ := processMapMemory_mapsApart (f := ⟨process, chunk, shape⟩) hmap
    (OnChunk.setTask process hdirtask hat) hown
  split
  · refine bind_congr_outcome ?_ fun _ _ _ => rfl
    rw [tableTaskFree_eq]
    dsimp only
    rw [hprev]
    rw [show linked 0#32 _ = id from funext (linked_null _)]
    exact endingWith_id _
  · rfl

/-- **`process_load_for_slot`** without a task to append to, where the file layer leaves the heap
alone. -/
theorem tableLoadForSlot_first {elf binary : Table.FileUse} (helf : Quiet elf)
    (hbinary : Quiet binary) (ho : HeapOwns k.heap rs) (hfirst : appendSpot k.sched = 0#32)
    (filename : List (BitVec 8)) (slot : ℤ) :
    Table.processLoadForSlot filename elf binary slot k =
      processLoadForSlot filename elf.toFilePass binary.toFilePass slot k := by
  unfold Table.processLoadForSlot processLoadForSlot processLoadForSlotBy
  rw [tableLoadData_quiet helf hbinary, bind_get, bind_get]
  split
  · rfl
  refine bind_congr_outcome rfl fun process k₁ hz => ?_
  split
  · rfl
  rename_i hnull
  have ho₁ := ho.record hz hnull
  obtain ⟨-, -, -, honly₁⟩ := kzalloc_some hz
  unfold processLoadRecord
  refine bind_congr_outcome rfl fun _ k₂ hset => ?_
  cases hset
  refine bind_congr_outcome rfl fun res k₃ hdata => ?_
  rw [← tableLoadData_quiet helf hbinary] at hdata
  obtain ⟨os, lost, hread⟩ := programRead_of_data hdata ho₁
  split
  · rfl
  refine bind_congr_outcome rfl fun stack k₄ hz₂ => ?_
  split
  · rfl
  rename_i hstack
  have hown := hread.owns.stack hz₂ hstack
  have hsame := (hread.spares_stack hz₂).sched
  refine bind_congr_outcome rfl fun _ k₅ hset => ?_
  cases hset
  refine @tableLoadTask_first { k₄ with procs := Function.update k₄.procs process _ } _ hown ?_
    process slot
  dsimp only
  rw [hsame, honly₁.sched]
  exact hfirst

/-- **Loading over memory** is loading over the records, as long as there is no task and the file
layer leaves the heap alone. -/
theorem tableLoad_model {elf binary : Table.FileUse} (helf : Quiet elf) (hbinary : Quiet binary)
    (ho : HeapOwns k.heap rs) (hfirst : k.sched.task_head = 0#32) (filename : List (BitVec 8)) :
    Table.processLoad filename elf binary k =
      processLoad filename elf.toFilePass binary.toFilePass k := by
  unfold Table.processLoad processLoad processLoadBy
  rw [bind_get, bind_get]
  split
  · rfl
  · exact tableLoadForSlot_first helf hbinary ho (if_pos hfirst) filename _

end FirstLoad

end MaerOS.Analysis
