import MaerOS.Lib.Run
import MaerOS.Analysis.ProcessLoad

/-!
# The life of a process, from load to termination

What a process owns is followed through `process_load`, any sequence of its
`process_malloc` and `process_free` calls, and `process_terminate`. Termination
releases the program, the stack, the task and the page tables; the three blocks of
the process record itself are released by nobody.
-/

set_option autoImplicit false

namespace MaerOS.Analysis

open MaerOS.Lib MaerOS.Model

/-! ## System calls of the process -/

/-- A system call about memory. -/
inductive UserCall where
  /-- `process_malloc`. -/
  | malloc (size : BitVec 32)
  /-- `process_free`. -/
  | free (ptr : Addr)

/-- Carry out a system call of `process`. -/
def userStep (process : Addr) (k : Kernel) : UserCall → Option Kernel
  | .malloc size => (processMalloc process size k).map Prod.snd
  | .free ptr => (processFree process ptr k).map Prod.snd

/-- A finished `process_free` is a step. -/
theorem userStep_free {process ptr : Addr} {k k' : Kernel} {u : Unit}
    (h : processFree process ptr k = some (u, k')) :
    userStep process k (.free ptr) = some k' :=
  Option.map_eq_some_iff.mpr ⟨_, h, rfl⟩

/-- Every request is for at least one byte. -/
def UserCall.Sized : UserCall → Prop
  | .malloc size => 1 ≤ size.toNat
  | .free _ => True

/-- The program stays where it is as long as the record of the process does. -/
theorem Loaded.frame {k k' : Kernel} {process : Addr} {os rs : List (Addr × ℕ)}
    (h : Loaded k process os) (hframe : CallFrame k k' process rs) : Loaded k' process os := by
  obtain ⟨_, hrec⟩ := hframe.record
  have htype : (k'.procs process).filetype = (k.procs process).filetype := by rw [hrec]
  have hptr : (k'.procs process).ptr = (k.procs process).ptr := by rw [hrec]
  exact h.of_records htype hptr fun _ => by rw [hframe.elfs]

/-- A system call that keeps the heap the picture of the allocations keeps the process up. -/
theorem ProcessUp.call {k k' : Kernel} {f : ProcFoot} {lost rs : List (Addr × ℕ)}
    (h : ProcessUp k f lost rs)
    (hcall : ∀ os pm, HeapOwns k.heap (f.runs k ++ os) → ChunkAt k.mem f.chunk f.shape pm →
      HeapOwns k'.heap (f.runs k' ++ os) ∧ CallFrame k k' f.process os ∧
        ∃ pm', ChunkAt k'.mem f.chunk f.shape pm') :
    ProcessUp k' f lost rs ∧ CallFrame k k' f.process rs := by
  obtain ⟨pm, hat⟩ := h.chunk.map
  obtain ⟨os, hloaded, hown⟩ := h.parts
  obtain ⟨hown', hframe, hat'⟩ := hcall _ pm hown hat
  have hstack : (k'.procs f.process).stack = (k.procs f.process).stack := by
    obtain ⟨_, hrec⟩ := hframe.record
    rw [hrec]
  refine ⟨⟨⟨hframe.dir.trans h.chunk.dir, hat'⟩, os, hloaded.frame hframe, ?_⟩,
    hframe.sched, hframe.others, hframe.record, hframe.elfs, hframe.agree.subset fun r hr => ?_⟩
  · rw [hframe.task, hstack]
    exact hown'
  · refine List.mem_cons_of_mem _ (List.mem_cons_of_mem _ (List.mem_append_right _ ?_))
    exact List.mem_append_right _ (List.mem_cons_of_mem _ hr)

/-- **`process_free`** keeps the process up. -/
theorem ProcessUp.free {k k' : Kernel} {f : ProcFoot} {lost rs : List (Addr × ℕ)}
    (h : ProcessUp k f lost rs) {ptr : Addr} {u : Unit}
    (hcode : processFree f.process ptr k = some (u, k')) :
    ProcessUp k' f lost rs ∧ CallFrame k k' f.process rs := by
  refine h.call fun os pm hown hat => ?_
  obtain ⟨hown', hframe, pm', hat', -⟩ := processFree_owns hcode hown h.chunk.dir hat
  exact ⟨hown', hframe, pm', hat'⟩

/-- **One system call** keeps the process up. -/
theorem ProcessUp.step {k k' : Kernel} {f : ProcFoot} {lost rs : List (Addr × ℕ)}
    (h : ProcessUp k f lost rs) {c : UserCall} (hc : c.Sized)
    (hstep : userStep f.process k c = some k') : ProcessUp k' f lost rs := by
  cases c with
  | malloc size =>
    obtain ⟨⟨ptr, _⟩, hcode, rfl⟩ := Option.map_eq_some_iff.mp hstep
    refine (h.call fun os pm hown hat => ?_).1
    obtain ⟨hown', hframe, pm', hat', -⟩ :=
      processMalloc_owns hcode hown h.chunk.dir hat (.inl hc)
    exact ⟨hown', hframe, pm', hat'⟩
  | free ptr =>
    obtain ⟨⟨_, _⟩, hcode, rfl⟩ := Option.map_eq_some_iff.mp hstep
    exact (h.free hcode).1

/-- **Any sequence of system calls** keeps the process up. -/
theorem ProcessUp.run {k k' : Kernel} {f : ProcFoot} {lost rs : List (Addr × ℕ)}
    (h : ProcessUp k f lost rs) {calls : List UserCall} (hsized : ∀ c ∈ calls, c.Sized)
    (hrun : runPartial (userStep f.process) k calls = some k') : ProcessUp k' f lost rs :=
  runPartial_invariant (C := fun _ c => UserCall.Sized c)
    (fun _ _ _ hup hc hs => ProcessUp.step hup hc hs) calls k k' h
    (alongPartial_of_forall hsized) hrun

/-! ## Termination -/

/-- A step on an ELF file is a change of its record. -/
theorem bind_onElf {α : Type} (elf_file : Addr) (f : ElfFile → ElfFile) (g : Unit → KernelM α)
    (k : Kernel) : (onElf elf_file f >>= g) k = g () { k with
      elfs := Function.update k.elfs elf_file (f (k.elfs elf_file)) } := rfl

/-- A step on a process is a change of its record. -/
theorem bind_onProcess {α : Type} (process : Addr) (f : Process → Process) (g : Unit → KernelM α)
    (k : Kernel) : (onProcess process f >>= g) k = g () { k with
      procs := Function.update k.procs process (f (k.procs process)) } := rfl

/-- `paging_map_to` on the directory of a process always has an outcome. -/
theorem processMapTo_outcome {process : Addr} {k : Kernel} (htask : (k.procs process).task ≠ 0#32)
    (virt phys phys_end : Addr) (flags : BitVec 32) :
    ∃ res mem, processMapTo process virt phys phys_end flags k =
      some (res, { k with mem := mem }) := by
  refine ⟨(pagingMapTo k.mem (k.sched.tasks (k.procs process).task).page_directory virt phys
    phys_end flags).1, (pagingMapTo k.mem (k.sched.tasks (k.procs process).task).page_directory
    virt phys phys_end flags).2, ?_⟩
  unfold processMapTo
  refine prog_bind.mpr ⟨_, _, rfl, ?_⟩
  refine prog_bind.mpr ⟨_, _, deref_of_ne htask k, ?_⟩
  exact prog_bind.mpr ⟨_, _, rfl, rfl⟩

/-- A release has an outcome, and leaves the process table alone. -/
theorem processFree_outcome {process : Addr} {k : Kernel} (hproc : process ≠ 0#32)
    (htask : (k.procs process).task ≠ 0#32) (ptr : Addr) :
    ∃ k', processFree process ptr k = some ((), k') ∧
      k'.current_process = k.current_process ∧ k'.processes = k.processes := by
  unfold processFree
  rw [bind_of_some (deref_of_ne hproc k), bind_get]
  cases processGetAllocationByAddr (k.procs process) ptr with
  | none => exact ⟨k, rfl, rfl, rfl⟩
  | some a =>
    obtain ⟨res, mem, hmap⟩ := processMapTo_outcome htask a.ptr a.ptr
      (pagingAlignAddress (a.ptr + a.size)) 0#32
    dsimp only
    rw [bind_of_some hmap]
    split
    · exact ⟨_, rfl, rfl, rfl⟩
    · exact ⟨_, prog_bind.mpr ⟨_, _, rfl, rfl⟩, rfl, rfl⟩

/-- The record and the task of a process that is up are not null. -/
theorem ProcessUp.ne_zero {k : Kernel} {f : ProcFoot} {lost rs : List (Addr × ℕ)}
    (h : ProcessUp k f lost rs) : f.process ≠ 0#32 ∧ (k.procs f.process).task ≠ 0#32 := by
  obtain ⟨os, -, hown⟩ := h.parts
  have hmem : (f.process, 3) ∈ os ++ (lost ++ (f.process, 3) :: rs) :=
    List.mem_append_right _ (List.mem_append_right _ List.mem_cons_self)
  exact ⟨hown.ne_zero (List.mem_append_right _ (List.mem_cons_of_mem _
    (List.mem_cons_of_mem _ hmem))), hown.ne_zero (List.mem_append_right _ List.mem_cons_self)⟩

/-- Releasing the slots one by one keeps the process up. -/
theorem ProcessUp.freeSlots {f : ProcFoot} {lost rs : List (Addr × ℕ)} :
    ∀ (l : List ℕ) {k : Kernel}, ProcessUp k f lost rs →
      ∃ k', l.forM (processFreeSlot f.process) k = some ((), k') ∧ ProcessUp k' f lost rs ∧
        CallFrame k k' f.process rs ∧ k'.current_process = k.current_process ∧
        k'.processes = k.processes := by
  intro l
  induction l with
  | nil =>
    intro k h
    exact ⟨k, rfl, h, .refl _ _ _, rfl, rfl⟩
  | cons i l ih =>
    intro k h
    obtain ⟨hproc, htask⟩ := h.ne_zero
    obtain ⟨k₁, hfree, hcur, hslots⟩ := processFree_outcome hproc htask
      ((k.procs f.process).allocations i).ptr
    obtain ⟨hup₁, hframe₁⟩ := h.free hfree
    obtain ⟨k₂, hrest, hup, hframe, hcur', hslots'⟩ := ih hup₁
    refine ⟨k₂, ?_, hup, hframe₁.trans hframe, hcur'.trans hcur, hslots'.trans hslots⟩
    rw [forM_cons_eq, bind_of_some (show processFreeSlot f.process i k = some ((), k₁) from hfree)]
    exact hrest

/-- **`process_terminate_allocations`** keeps the process up, and the others as they are. -/
theorem ProcessUp.terminateAllocations {k : Kernel} {f : ProcFoot} {lost rs : List (Addr × ℕ)}
    (h : ProcessUp k f lost rs) : ∃ k', processTerminateAllocations f.process k = some (0, k') ∧
      ProcessUp k' f lost rs ∧ CallFrame k k' f.process rs ∧
      k'.current_process = k.current_process ∧ k'.processes = k.processes := by
  obtain ⟨k', hloop, hrest⟩ := h.freeSlots (List.range maerosMaxProgramAllocations)
  refine ⟨k', ?_, hrest⟩
  unfold processTerminateAllocations forUpto
  rw [bind_of_some hloop]
  rfl

/-- No slot of the array of the process is in use. -/
def NoAllocations (process : Addr) (k : Kernel) : Prop :=
  ∀ i, ((k.procs process).allocations i).ptr = 0#32

/-- `process_free` puts nothing into the array. -/
theorem NoAllocations.free {process : Addr} (ptr : Addr) :
    Triple (NoAllocations process) (processFree process ptr) fun _ => NoAllocations process := by
  intro k h u k' hrun
  unfold processFree at hrun
  obtain ⟨_, k₁, hd, h₁⟩ := prog_bind.mp hrun
  obtain ⟨-, rfl⟩ := deref_some hd
  rw [bind_get] at h₁
  cases hget : processGetAllocationByAddr (k₁.procs process) ptr with
  | none =>
    rw [hget] at h₁
    obtain ⟨-, rfl⟩ := prog_pure.mp h₁
    exact h
  | some a =>
    rw [hget] at h₁
    obtain ⟨res, k₂, hmap, h₂⟩ := prog_bind.mp h₁
    have hprocs : k₂.procs = k₁.procs := by
      unfold processMapTo at hmap
      rw [bind_get] at hmap
      obtain ⟨_, k₃, hd', hm⟩ := prog_bind.mp hmap
      obtain ⟨-, rfl⟩ := deref_some hd'
      cases hm
      rfl
    split at h₂
    · obtain ⟨-, rfl⟩ := prog_pure.mp h₂
      intro i
      rw [hprocs]
      exact h i
    · rw [bind_onProcess] at h₂
      cases h₂
      intro i
      dsimp only
      rw [Function.update_self, hprocs]
      unfold processAllocationUnjoin
      dsimp only
      split
      · rfl
      · exact h i

/-- Where there are no allocations, releasing them keeps it so. -/
theorem NoAllocations.terminate {process : Addr} {k k' : Kernel} {res : ℤ}
    (h : NoAllocations process k)
    (hrun : processTerminateAllocations process k = some (res, k')) : NoAllocations process k' := by
  unfold processTerminateAllocations forUpto at hrun
  obtain ⟨_, k₁, hloop, h₁⟩ := prog_bind.mp hrun
  obtain ⟨-, rfl⟩ := prog_pure.mp h₁
  have hslot : ∀ i ∈ List.range maerosMaxProgramAllocations, Triple (NoAllocations process)
      (processFreeSlot process i) fun _ => NoAllocations process := fun i _ k₂ h₂ =>
    NoAllocations.free ((k₂.procs process).allocations i).ptr k₂ h₂
  exact Triple.forM _ hslot k h _ k₁ hloop

/-- A run anywhere among those owned can be released. -/
theorem HeapOwns.kfree_middle {h : Heap} {as bs : List (Addr × ℕ)} {p : Addr} {n : ℕ}
    (ho : HeapOwns h (as ++ (p, n) :: bs)) : HeapOwns (heapFree h p) (as ++ bs) :=
  (ho.perm List.perm_middle).kfree

/-- **`process_free_program_data`** releases the program. -/
theorem processFreeProgramData_owns {process : Addr} {k : Kernel} {as os bs : List (Addr × ℕ)}
    (hl : Loaded k process os) (ho : HeapOwns k.heap (as ++ (os ++ bs))) :
    ∃ heap kfrees, processFreeProgramData process k =
        some (0, { k with heap := heap, kfrees := kfrees }) ∧ HeapOwns heap (as ++ bs) := by
  unfold processFreeProgramData
  rw [bind_get]
  cases hl with
  | elf n ht hf =>
    rw [ht, if_neg (by decide), if_pos rfl]
    unfold elfClose
    rw [if_neg hf]
    exact ⟨_, _, rfl, ho.kfree_middle.kfree_middle⟩
  | binary n ht =>
    rw [ht, if_pos rfl]
    exact ⟨_, _, rfl, ho.kfree_middle⟩
  | nothing ht hp =>
    rw [ht, if_neg (by decide), if_pos rfl]
    unfold elfClose
    rw [if_pos hp]
    exact ⟨_, _, rfl, ho⟩

/-- **`process_terminate` up to `task_free`**: the allocations, the program and the stack are
given back. -/
theorem ProcessUp.release {k : Kernel} {f : ProcFoot} {lost rs : List (Addr × ℕ)}
    (h : ProcessUp k f lost rs) :
    ∃ k₁ heap kfrees, processTerminateAllocations f.process k = some (0, k₁) ∧
      processFreeProgramData f.process k₁ =
        some (0, { k₁ with heap := heap, kfrees := kfrees }) ∧
      OnChunk k₁ f ∧ CallFrame k k₁ f.process rs ∧ k₁.current_process = k.current_process ∧
      k₁.processes = k.processes ∧ HeapOwns (heapFree heap (k₁.procs f.process).stack)
        (chunkRuns (k₁.sched.tasks (k₁.procs f.process).task).page_directory f.shape ++
          ((k₁.procs f.process).task, 1) ::
            ((allocRuns (k₁.procs f.process) ++ lost) ++ (f.process, 3) :: rs)) := by
  obtain ⟨k₁, hallocs, hup, hframe, hcur, hslots⟩ := h.terminateAllocations
  obtain ⟨os, hloaded, hown⟩ := hup.parts
  have hown₁ : HeapOwns k₁.heap ((f.runs k₁ ++ [((k₁.procs f.process).task, 1),
      ((k₁.procs f.process).stack, 4)]) ++ (os ++ (lost ++ (f.process, 3) :: rs))) := by
    simpa using hown
  obtain ⟨heap, kfrees, hdata, hown₂⟩ := processFreeProgramData_owns hloaded hown₁
  have hown₃ : HeapOwns heap ((f.runs k₁ ++ [((k₁.procs f.process).task, 1)]) ++
      ((k₁.procs f.process).stack, 4) :: (lost ++ (f.process, 3) :: rs)) := by
    simpa using hown₂
  refine ⟨k₁, heap, kfrees, hallocs, hdata, hup.chunk, hframe, hcur, hslots, ?_⟩
  rw [hup.chunk.dir]
  refine hown₃.kfree_middle.perm ?_
  simp only [ProcFoot.runs, List.append_assoc, List.cons_append, List.nil_append]
  exact List.Perm.append_left _ List.perm_middle

/-- **`process_terminate`** gets as far as `process_unlink`, and by then has released everything
but the record of the process (and what was lost before). -/
theorem ProcessUp.terminate_eq {k : Kernel} {f : ProcFoot} {lost rs : List (Addr × ℕ)}
    (h : ProcessUp k f lost rs) :
    ∃ k', processTerminate f.process k =
        (processUnlink f.process >>= fun _ => (pure 0 : KernelM ℤ)) k' ∧
      k'.current_process = k.current_process ∧
      ∃ os, HeapOwns k'.heap (os ++ (f.process, 3) :: rs) := by
  obtain ⟨k₁, heap, kfrees, hallocs, hdata, hon, -, hcur, -, hown⟩ := h.release
  obtain ⟨pm, hat⟩ := hon.map
  obtain ⟨heap', kfrees', hfree, hown'⟩ := taskFree_owns (k := { k₁ with
    heap := heapFree heap (k₁.procs f.process).stack
    kfrees := (k₁.procs f.process).stack :: kfrees }) (hon.dir.symm ▸ hat) hown
  apply Exists.intro
  refine ⟨?_, ?_, ?_⟩
  · unfold processTerminate processTerminateBy
    rw [bind_of_some hallocs, bind_of_some hdata, if_neg (by decide), bind_get,
      bind_of_some (show Model.kfree (k₁.procs f.process).stack _ = some ((), _) from rfl)]
    exact bind_of_some hfree _
  · exact hcur
  · exact ⟨_, hown'⟩

/-- **`process_unlink`** empties the slot of the process, and if that was the current one switches
to one that is left. -/
theorem processUnlink_some {process : Addr} {k k' : Kernel} {u : Unit}
    (h : processUnlink process k = some (u, k')) :
    ∃ current, k' = { k with
        processes := Function.update k.processes (k.procs process).id 0#32
        current_process := current } ∧
      ((current = k.current_process ∧ current ≠ process) ∨ ∃ i < maerosMaxProcesses,
        Function.update k.processes (k.procs process).id 0#32 i = current ∧
          current ≠ 0#32) := by
  unfold processUnlink at h
  obtain ⟨_, k₁, hm, h₁⟩ := prog_bind.mp h
  cases hm
  rw [bind_get] at h₁
  split at h₁
  · unfold processSwitchToAny at h₁
    rw [bind_get] at h₁
    cases hfind : (List.range maerosMaxProcesses).find? fun i =>
        Function.update k.processes (k.procs process).id 0#32 i != 0#32 with
    | none =>
      rw [hfind] at h₁
      cases h₁
    | some i =>
      rw [hfind] at h₁
      cases h₁
      refine ⟨_, rfl, .inr ⟨i, List.mem_range.mp (List.mem_of_find?_eq_some hfind), rfl, ?_⟩⟩
      simpa using List.find?_some hfind
  · rename_i hne
    obtain ⟨-, rfl⟩ := prog_pure.mp h₁
    exact ⟨_, rfl, .inl ⟨rfl, hne⟩⟩

/-- **After `process_terminate`** the record of the process is still allocated. -/
theorem ProcessUp.terminate {k k' : Kernel} {f : ProcFoot} {lost rs : List (Addr × ℕ)}
    (h : ProcessUp k f lost rs) {res : ℤ} (hcode : processTerminate f.process k = some (res, k')) :
    ∃ os, HeapOwns k'.heap (os ++ (f.process, 3) :: rs) := by
  obtain ⟨k₁, heq, -, hown⟩ := h.terminate_eq
  rw [heq] at hcode
  obtain ⟨_, k₂, hunlink, h₂⟩ := prog_bind.mp hcode
  obtain ⟨-, rfl⟩ := prog_pure.mp h₂
  obtain ⟨current, rfl, -⟩ := processUnlink_some hunlink
  exact hown

/-- Termination of a process that is not the current one returns. -/
theorem ProcessUp.terminate_outcome {k : Kernel} {f : ProcFoot} {lost rs : List (Addr × ℕ)}
    (h : ProcessUp k f lost rs) (hcur : k.current_process ≠ f.process) :
    ∃ k', processTerminate f.process k = some (0, k') := by
  obtain ⟨k₁, heq, hcur₁, -⟩ := h.terminate_eq
  have hunlink : processUnlink f.process k₁ = some ((), { k₁ with
      processes := Function.update k₁.processes (k₁.procs f.process).id 0#32 }) := by
    unfold processUnlink
    refine prog_bind.mpr ⟨_, _, rfl, ?_⟩
    rw [bind_get, if_neg (by rw [hcur₁]; exact hcur)]
    rfl
  rw [heq, bind_of_some hunlink]
  exact ⟨_, rfl⟩

/-! ## The heap after a life -/

/-- The address is the start of an allocation: the entry of its block is that of a first block. -/
def AllocStart (h : Heap) (q : Addr) : Prop :=
  ∃ b < h.table.total, q = heapBlockToAddress h b ∧
    heapGetEntryType (h.table.entries b) = heapBlockTableEntryTaken ∧
    h.table.entries b &&& heapBlockIsFirst ≠ 0#8

/-- The life of a process is balanced: the live blocks after its termination (`k'`) are those
before its load (`k₀`), every slot of its array is empty, and termination, from `k` on, freed only
live allocations. -/
structure LifeBalanced (k₀ k k' : Kernel) (process : Addr) : Prop where
  heap : liveBlocks k'.heap = liveBlocks k₀.heap
  slots : ∀ i < maerosMaxProgramAllocations, ((k'.procs process).allocations i).ptr = 0#32
  kfrees : ∃ freed, k'.kfrees = freed ++ k.kfrees ∧ freed.Nodup ∧
    ∀ q ∈ freed, AllocStart k.heap q

/-- A process that was loaded is up. -/
theorem processLoad_up {filename : List (BitVec 8)} {elf binary : FilePass} {k k' : Kernel}
    {process : Addr} (h : processLoad filename elf binary k = some ((0, process), k'))
    {rs : List (Addr × ℕ)} (ho : HeapOwns k.heap rs) :
    ∃ f lost, f.process = process ∧ ProcessUp k' f lost rs := by
  unfold processLoad processLoadBy at h
  rw [bind_get] at h
  split at h
  · obtain ⟨hr, -⟩ := prog_pure.mp h
    cases hr
  · rcases processLoadForSlot_owns h ho with ⟨_, -, -, hres⟩ | ⟨hneg, -⟩ | ⟨-, hup⟩
    · exact absurd hres (by decide)
    · exact absurd hneg (by decide)
    · exact hup

/-- Once terminated, a process that was up has not been balanced. -/
theorem ProcessUp.not_balanced {k₀ k k' : Kernel} {f : ProcFoot} {lost rs : List (Addr × ℕ)}
    (h : ProcessUp k f lost rs) (ho : HeapOwns k₀.heap rs) {res : ℤ}
    (hterm : processTerminate f.process k = some (res, k')) :
    ¬ LifeBalanced k₀ k k' f.process := by
  obtain ⟨os, hown⟩ := h.terminate hterm
  exact fun hbal => ho.liveBlocks_ne hown hbal.heap

/-- **No life is balanced.** A process that was loaded, made any calls and was terminated leaves
the blocks of its record behind. -/
theorem process_life_unbalanced (k₀ k₁ k₂ k₃ : Kernel) (rs : List (Addr × ℕ))
    (ho : HeapOwns k₀.heap rs) (filename : List (BitVec 8)) (elf binary : FilePass)
    (process : Addr) (hload : processLoad filename elf binary k₀ = some ((0, process), k₁))
    (calls : List UserCall) (hsized : ∀ c ∈ calls, c.Sized)
    (hrun : runPartial (userStep process) k₁ calls = some k₂) (res : ℤ)
    (hterm : processTerminate process k₂ = some (res, k₃)) : ¬ LifeBalanced k₀ k₂ k₃ process := by
  obtain ⟨f, lost, rfl, hup⟩ := processLoad_up hload ho
  exact (hup.run hsized hrun).not_balanced ho hterm

/-! ## A raw binary in a fresh kernel -/

/-- A program of four bytes, `jmp $` and two `nop`. -/
def rawBytes : List (BitVec 8) := [0xEB#8, 0xFE#8, 0x90#8, 0x90#8]

/-- Its file. -/
def rawFile : FilePass := ⟨1, 0, 4#32, 1, rawBytes⟩

/-- Reading the file. -/
theorem rawFile_read {ptr : Addr} (hp : ptr ≠ 0#32) (k : Kernel) :
    rawFile.read ptr rawFile.filesize k =
      some (1, { k with mem := storeBytes k.mem ptr rawBytes }) := by
  unfold FilePass.read
  rw [if_neg (by decide), if_neg (by decide), bind_of_some (deref_of_ne hp k)]
  rfl

theorem elfValidateLoaded_rawFile (mem : Memory) (ptr : Addr) :
    elfValidateLoaded (storeBytes mem ptr rawBytes) ptr = -einformat := by
  have hfirst : storeBytes mem ptr rawBytes ptr = 0xEB#8 := by
    unfold storeBytes
    rw [BitVec.sub_self]
    rfl
  unfold elfValidateLoaded elfValidSignature
  rw [hfirst]
  rfl

/-- A raw file is refused as ELF file, without a change. -/
theorem elfProcessLoaded_rawFile {k : Kernel} {file image : Addr} {mem : Memory}
    (himage : (k.elfs file).elf_memory = image) (hne : image ≠ 0#32)
    (hmem : k.mem = storeBytes mem image rawBytes) :
    elfProcessLoaded file k = some (-einformat, k) := by
  unfold elfProcessLoaded
  rw [bind_get, himage, bind_of_some (deref_of_ne hne k), hmem, elfValidateLoaded_rawFile,
    if_pos (by decide)]
  rfl

/-- **`elf_load` of the file** fails, with a record and an image left behind. -/
theorem Packed.elfLoad_rawFile {k : Kernel} {s : ℕ} (hp : Packed k.heap s) (hfit : s + 2 ≤ 25600) :
    ∃ k', elfLoad rawFile k = some ((-einformat, 0#32), k') ∧ Packed k'.heap (s + 2) ∧
      k'.procs = k.procs ∧ k'.sched = k.sched ∧ k'.current_process = k.current_process := by
  obtain ⟨k₁, hz₁, hp₁, -⟩ := hp.kernel_kzalloc sizeofElfFile (by decide)
    (by rw [show blocksFor sizeofElfFile = 1 from rfl]; omega)
  rw [show blocksFor sizeofElfFile = 1 from rfl] at hp₁
  obtain ⟨-, -, -, honly₁⟩ := kzalloc_some hz₁
  obtain ⟨k₂, hz₂, hp₂, -⟩ := Packed.kernel_kzalloc (k := { k₁ with
    elfs := Function.update k₁.elfs (blockAddr s) ElfFile.zero }) hp₁ rawFile.filesize (by decide)
    (by rw [show blocksFor rawFile.filesize = 1 from rfl]; omega)
  rw [show blocksFor rawFile.filesize = 1 from rfl] at hp₂
  obtain ⟨-, -, -, honly₂⟩ := kzalloc_some hz₂
  have hfile : blockAddr s ≠ 0#32 := blockAddr_ne_zero (by omega)
  have himage : blockAddr (s + 1) ≠ 0#32 := blockAddr_ne_zero (by omega)
  have hread := rawFile_read himage { k₂ with
    elfs := Function.update k₂.elfs (blockAddr s)
      ((fun file : ElfFile => { file with elf_memory := blockAddr (s + 1) })
        (k₂.elfs (blockAddr s))) }
  have hloaded := @elfProcessLoaded_rawFile ({ k₂ with
    elfs := Function.update k₂.elfs (blockAddr s)
      ((fun file : ElfFile => { file with elf_memory := blockAddr (s + 1) })
        (k₂.elfs (blockAddr s)))
    mem := storeBytes k₂.mem (blockAddr (s + 1)) rawBytes }) (blockAddr s) _ _
    (by dsimp only; rw [Function.update_self]) himage rfl
  apply Exists.intro
  refine ⟨?_, ?_, ?_, ?_, ?_⟩
  · unfold elfLoad elfRead
    rw [bind_of_some hz₁, bind_onElf, if_neg (by decide), if_neg (by decide), bind_of_some hz₂,
      bind_of_some (deref_of_ne hfile _), bind_onElf, bind_of_some hread, if_neg (by decide),
      bind_of_some hloaded, if_pos (by decide)]
    rfl
  · exact hp₂
  · exact honly₂.procs.trans honly₁.procs
  · exact honly₂.sched.trans honly₁.sched
  · exact honly₂.current_process.trans honly₁.current_process

/-- **`process_load_data` of the file** loads it as a raw binary. -/
theorem Packed.processLoadData_rawFile {k : Kernel} {s : ℕ} (hp : Packed k.heap s)
    (hfit : s + 3 ≤ 25600) (process : Addr) :
    ∃ k', processLoadData rawFile rawFile process k = some (0, k') ∧ Packed k'.heap (s + 3) ∧
      (k'.procs process).filetype = processFiletypeBinary ∧ k'.sched = k.sched ∧
      k'.current_process = k.current_process := by
  obtain ⟨k₁, helf, hp₁, hprocs₁, hsched₁, hcur₁⟩ := hp.elfLoad_rawFile (by omega)
  obtain ⟨k₂, hz, hp₂, -⟩ := hp₁.kernel_kzalloc rawFile.filesize (by decide)
    (by rw [show blocksFor rawFile.filesize = 1 from rfl]; omega)
  rw [show blocksFor rawFile.filesize = 1 from rfl] at hp₂
  obtain ⟨-, -, -, honly⟩ := kzalloc_some hz
  have himage : blockAddr (s + 2) ≠ 0#32 := blockAddr_ne_zero (by omega)
  have hcode : processLoadElf rawFile process k = some (-einformat, k₁) := by
    unfold processLoadElf processLoadElfBy
    rw [bind_of_some helf]
    rfl
  have hbinary : processLoadBinary rawFile process k₁ = some (0, { k₂ with
      mem := storeBytes k₂.mem (blockAddr (s + 2)) rawBytes
      procs := Function.update k₂.procs process
        ((fun p : Process => { p with
          filetype := processFiletypeBinary, ptr := blockAddr (s + 2), size := rawFile.filesize })
          (k₂.procs process)) }) := by
    unfold processLoadBinary
    rw [if_neg (by decide), if_neg (by decide), bind_of_some hz, if_neg himage,
      bind_of_some (rawFile_read himage k₂), if_neg (by decide), bind_onProcess]
    rfl
  apply Exists.intro
  refine ⟨?_, ?_, ?_, ?_, ?_⟩
  · unfold processLoadData processLoadDataBy
    rw [bind_of_some hcode, if_pos rfl]
    exact hbinary
  · exact hp₂
  · dsimp only
    rw [Function.update_self]
  · exact honly.sched.trans hsched₁
  · exact honly.current_process.trans hcur₁

/-- A raw program is mapped without an error. -/
theorem processMapMemory_binary {process : Addr} {k : Kernel}
    (htask : (k.procs process).task ≠ 0#32)
    (htype : (k.procs process).filetype = processFiletypeBinary) :
    ∃ mem, processMapMemory process k = some (0, { k with mem := mem }) := by
  obtain ⟨_, mem₁, h₁⟩ := processMapTo_outcome htask maerosProgramVirtualAddress
    (k.procs process).ptr (pagingAlignAddress ((k.procs process).ptr + (k.procs process).size))
    processImageFlags
  obtain ⟨_, mem₂, h₂⟩ := processMapTo_outcome (k := { k with mem := mem₁ }) htask
    maerosProgramVirtualAddress (k.procs process).ptr
    (pagingAlignAddress ((k.procs process).ptr + (k.procs process).size)) processImageFlags
  obtain ⟨_, mem₃, h₃⟩ := processMapTo_outcome (k := { k with mem := mem₂ }) htask
    maerosProgramVirtualStackAddressEnd (k.procs process).stack
    (pagingAlignAddress ((k.procs process).stack + maerosUserProgramStackSize)) processImageFlags
  have hb₁ : processMapBinary process k = some (0, { k with mem := mem₁ }) := by
    unfold processMapBinary
    rw [bind_get, bind_of_some h₁]
    rfl
  have hb₂ : processMapBinary process { k with mem := mem₁ } = some (0, { k with mem := mem₂ }) := by
    unfold processMapBinary
    rw [bind_get, bind_of_some h₂]
    rfl
  refine ⟨mem₃, ?_⟩
  unfold processMapMemory
  rw [bind_of_some hb₁, bind_get, htype, if_neg (by decide), if_pos rfl, bind_of_some hb₂,
    if_neg (by decide), bind_get, bind_of_some h₃]
  rfl

/-- The file is loaded in a fresh kernel, as a raw binary. -/
theorem processLoad_rawFile_typed : ∃ k', processLoad [] rawFile rawFile bootKernel =
    some ((0, blockAddr 0), k') ∧ k'.current_process = 0#32 ∧
      (k'.procs (blockAddr 0)).filetype = processFiletypeBinary := by
  have hsize : blocksFor sizeofProcess = 3 := rfl
  obtain ⟨k₁, hz₁, hp₁, -⟩ := packed_bootKernel.kernel_kzalloc sizeofProcess (by decide)
    (by rw [hsize]; omega)
  rw [hsize, Nat.zero_add] at hp₁
  obtain ⟨-, -, -, honly₁⟩ := kzalloc_some hz₁
  obtain ⟨k₂, hdata, hp₂, htype₂, hsched₂, hcur₂⟩ := Packed.processLoadData_rawFile
    (k := { k₁ with procs := Function.update k₁.procs (blockAddr 0) Process.zero }) hp₁ (by omega)
    (blockAddr 0)
  have hstack : blocksFor maerosUserProgramStackSize = 4 := rfl
  obtain ⟨k₃, hz₃, hp₃, -⟩ := hp₂.kernel_kzalloc maerosUserProgramStackSize (by decide)
    (by rw [hstack]; omega)
  rw [hstack] at hp₃
  obtain ⟨-, -, -, honly₃⟩ := kzalloc_some hz₃
  have hne : blockAddr 0 ≠ 0#32 := blockAddr_ne_zero (by omega)
  obtain ⟨k₄, hnew, -, honly₄, -⟩ := Packed.taskNew (k := { k₃ with
    procs := Function.update k₃.procs (blockAddr 0)
      ((fun p : Process => { p with
        filename := processFilename [], stack := blockAddr (3 + 3), id := (0 : ℤ).toNat })
        (k₃.procs (blockAddr 0))) }) hp₃ (by omega) (blockAddr 0) hne
    (by
      dsimp only
      rw [Function.update_self, honly₃.procs]
      dsimp only
      rw [htype₂]
      decide)
    (by
      dsimp only
      rw [honly₃.sched, hsched₂]
      dsimp only
      rw [honly₁.sched]
      exact fun h => absurd rfl h)
  have htask : blockAddr 10 ≠ 0#32 := blockAddr_ne_zero (by omega)
  have htype₄ : (k₄.procs (blockAddr 0)).filetype = processFiletypeBinary := by
    rw [honly₄.procs]
    dsimp only
    rw [Function.update_self, honly₃.procs]
    exact htype₂
  obtain ⟨mem, hmap⟩ := @processMapMemory_binary (blockAddr 0) ({ k₄ with
    procs := Function.update k₄.procs (blockAddr 0)
      ((fun p : Process => { p with task := blockAddr 10 }) (k₄.procs (blockAddr 0))) })
    (by dsimp only; rw [Function.update_self]; exact htask)
    (by dsimp only; rw [Function.update_self]; exact htype₄)
  have hslot : processGetFreeSlot bootKernel.processes = 0 := by decide
  apply Exists.intro
  refine ⟨?_, ?_, ?_⟩
  · unfold processLoad processLoadBy
    rw [bind_get, hslot, if_neg (by decide)]
    unfold processLoadForSlot processLoadForSlotBy
    rw [bind_get, if_neg (by decide), bind_of_some hz₁, if_neg hne]
    unfold processLoadRecord
    rw [bind_onProcess, bind_of_some hdata, if_neg (by decide), bind_of_some hz₃,
      if_neg (blockAddr_ne_zero (by omega)), bind_onProcess]
    unfold processLoadTask processLoadTaskBy
    rw [bind_of_some hnew, if_neg htask, bind_onProcess, bind_of_some hmap, if_neg (by decide),
      if_neg (by decide)]
    rfl
  · exact honly₄.current_process.trans (honly₃.current_process.trans
      (hcur₂.trans honly₁.current_process))
  · show (Function.update k₄.procs (blockAddr 0) _ (blockAddr 0)).filetype = _
    rw [Function.update_self]
    exact htype₄

/-- **The file is loaded** in a fresh kernel. -/
theorem processLoad_rawFile : ∃ k', processLoad [] rawFile rawFile bootKernel =
    some ((0, blockAddr 0), k') ∧ k'.current_process = 0#32 := by
  obtain ⟨k', hload, hcur, -⟩ := processLoad_rawFile_typed
  exact ⟨k', hload, hcur⟩

/-- A raw binary is loaded into a fresh kernel, gives back the null pointer and is terminated. -/
theorem process_life_unbalanced_boot : ∃ k₁ k₂ k₃ : Kernel,
    processLoad [] rawFile rawFile bootKernel = some ((0, blockAddr 0), k₁) ∧
    runPartial (userStep (blockAddr 0)) k₁ [.free 0#32] = some k₂ ∧
    processTerminate (blockAddr 0) k₂ = some (0, k₃) ∧
    ¬ LifeBalanced bootKernel k₂ k₃ (blockAddr 0) := by
  obtain ⟨k₁, hload, hcur⟩ := processLoad_rawFile
  obtain ⟨f, lost, hf, hup⟩ := processLoad_up hload heapOwns_bootKernel
  obtain ⟨hproc, htask⟩ := hup.ne_zero
  obtain ⟨k₂, hfree, hcur₂, -⟩ := processFree_outcome hproc htask 0#32
  obtain ⟨k₃, hterm⟩ := (hup.free hfree).1.terminate_outcome (by
    rw [hcur₂, hcur]
    exact hproc.symm)
  rw [hf] at hfree hterm
  have hstep := userStep_free hfree
  have hrun : runPartial (userStep (blockAddr 0)) k₁ [.free 0#32] = some k₂ := by
    rw [runPartial_step hstep]
    rfl
  exact ⟨k₁, k₂, k₃, hload, hrun, hterm, process_life_unbalanced bootKernel k₁ k₂ k₃ []
    heapOwns_bootKernel [] rawFile rawFile (blockAddr 0) hload [.free 0#32]
    (by simp [UserCall.Sized]) hrun 0 hterm⟩

/-- **The shortest life**: a raw binary is loaded into a fresh kernel and terminated at once; the
heap does not get back to what it was. -/
theorem process_life_leaks_record : ∃ k₁ k₂ : Kernel,
    processLoad [] rawFile rawFile bootKernel = some ((0, blockAddr 0), k₁) ∧
    processTerminate (blockAddr 0) k₁ = some (0, k₂) ∧
    ¬ LifeBalanced bootKernel k₁ k₂ (blockAddr 0) := by
  obtain ⟨k₁, hload, hcur⟩ := processLoad_rawFile
  obtain ⟨f, lost, hf, hup⟩ := processLoad_up hload heapOwns_bootKernel
  obtain ⟨k₂, hterm⟩ := hup.terminate_outcome (by
    rw [hcur]
    exact hup.ne_zero.1.symm)
  have hbal := hup.not_balanced heapOwns_bootKernel hterm
  rw [hf] at hterm hbal
  exact ⟨k₁, k₂, hload, hterm, hbal⟩

end MaerOS.Analysis
