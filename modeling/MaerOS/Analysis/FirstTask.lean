import MaerOS.Analysis.Dispatch
import MaerOS.Analysis.TableRuns

/-!
# From the first program to the first tick

`kernel_main` loads its programs, and then starts the first task. Whatever is loaded,
and whatever fails, the processes fill the table from its first slot on and the list of
tasks has their order. Nothing is lost or linked to a task that is gone: without a
termination there is no stale `prev`, and `task_new` always appends to the task of a
process in the table. So the runs of `dispatch_runs_iff` start here, and the ticks of
the clock give the programs their turns in the order of the table.
-/

set_option autoImplicit false

namespace MaerOS.Analysis

open MaerOS.Lib MaerOS.Model

/-- The call loads a process. -/
def TableOp.Loads : TableOp → Prop
  | .loadSwitch _ _ _ => True
  | .terminate _ => False

section Loads

variable {k k' : Kernel} {live : List LiveProc} {lost : List (Addr × ℕ)}

/-- `task_new` appends to the task of a process in the table. -/
theorem InLoadOrder.tailLive (ho : InLoadOrder k live) : TailLive k live := by
  intro hhead
  have hne : (live.reverse.map fun p => (k.procs p.process).task) ≠ [] := by
    intro hnil
    rw [ho.tasks.list.head, hnil] at hhead
    exact hhead rfl
  obtain ⟨p, hp, htask⟩ := List.mem_map.mp (getLastD_mem hne)
  exact ⟨p, List.mem_reverse.mp hp, htask.trans ho.tasks.list.tail.symm⟩

/-- **A load** keeps the order, also if it fails. -/
theorem InLoadOrder.step (ho : InLoadOrder k live) (h : TableInv k live lost) {op : TableOp}
    (hload : op.Loads) (hstep : tableStep k op = some k') :
    ∃ live' lost', TableInv k' live' lost' ∧ InLoadOrder k' live' := by
  cases op with
  | loadSwitch filename elf binary =>
    obtain ⟨⟨r, _⟩, hcode, rfl⟩ := Option.map_eq_some_iff.mp hstep
    obtain ⟨live', lost', h', hkeep⟩ := h.loadSwitch (ho.tailLive.linkLive h _ _ _) hcode
    exact ⟨live', lost', h', hkeep ho⟩
  | terminate process => exact hload.elim

/-- **Loads**, one after the other. -/
theorem InLoadOrder.run (ho : InLoadOrder k live) (h : TableInv k live lost) {ops : List TableOp}
    (hloads : ∀ op ∈ ops, op.Loads) (hrun : runPartial tableStep k ops = some k') :
    ∃ live' lost', TableInv k' live' lost' ∧ InLoadOrder k' live' :=
  runPartial_invariant (I := fun k => ∃ live lost, TableInv k live lost ∧ InLoadOrder k live)
    (C := fun _ op => op.Loads)
    (fun _ _ _ ⟨_, _, h, ho⟩ hload hs => ho.step h hload hs) ops k k' ⟨live, lost, h, ho⟩
    (alongPartial_of_forall hloads) hrun

/-- A process with a program has one of the two file types. -/
theorem Loaded.filetype {process : Addr} {os : List (Addr × ℕ)} (h : Loaded k process os) :
    (k.procs process).filetype = processFiletypeElf ∨
      (k.procs process).filetype = processFiletypeBinary := by
  cases h with
  | elf _ htype _ => exact .inl htype
  | binary _ htype => exact .inr htype
  | nothing htype _ => exact .inl htype

/-- A process in the table can go. -/
theorem TableInv.held (h : TableInv k live lost) {p : LiveProc} (hp : p ∈ live) :
    Held k (k.procs p.process).task := by
  have hup := h.up p hp
  have hchunk : p.foot.chunk ≠ 0#32 := by
    refine h.owns.ne_zero (r := (p.foot.chunk, 1)) (mem_live_runs hp (List.mem_append_left _ ?_))
    simp [chunkRuns]
  refine ⟨?_, by rw [hup.back], ?_, ?_, by rw [hup.back]; exact hup.id,
    by rw [hup.back]; exact hup.slot⟩
  · rw [hup.back]
    exact (h.to_listed hp).1
  · rw [hup.back]
    exact hup.loaded.filetype
  · rw [show (k.sched.tasks (k.procs p.process).task).page_directory = p.foot.chunk from
      hup.chunk.dir]
    exact hchunk

/-- The tasks in the order of the table. -/
def tableTasks (k : Kernel) (n : ℕ) : List Addr :=
  (List.range n).map fun i => (k.procs (k.processes i)).task

theorem InLoadOrder.tableTasks_eq (ho : InLoadOrder k live) :
    tableTasks k live.length = live.reverse.map fun p => (k.procs p.process).task := by
  unfold tableTasks
  refine List.ext_getElem (by simp) fun i hi _ => ?_
  have hlt : i < live.length := by simpa using hi
  have hslot := ho.slots i (hlt.trans_le ho.room)
  rw [List.getD_eq_getElem _ _ (by simpa using hlt), List.getElem_map] at hslot
  rw [List.getElem_map, List.getElem_map, List.getElem_range, hslot]

/-- **The tasks take turns** in the order of the table. -/
theorem InLoadOrder.scheduled (ho : InLoadOrder k live) (h : TableInv k live lost)
    (hne : live ≠ []) : Scheduled k (tableTasks k live.length) := by
  rw [ho.tableTasks_eq]
  refine ⟨⟨⟨[], _, (List.append_nil _).symm, ho.tasks.list.tasksInOrder⟩, ho.tasks.current,
    by simpa using hne⟩, fun t ht => ?_⟩
  obtain ⟨p, hp, rfl⟩ := List.mem_map.mp ht
  exact h.held (List.mem_reverse.mp hp)

/-- A slot is taken exactly if it is one of the first. -/
theorem InLoadOrder.slot_iff (ho : InLoadOrder k live) (h : TableInv k live lost) {i : ℕ}
    (hi : i < maerosMaxProcesses) : k.processes i ≠ 0#32 ↔ i < live.length :=
  ⟨fun hne => not_le.mp fun hle => hne (ho.free hle hi), fun hlt => ho.taken h hlt hi⟩

end Loads

section Ticks

variable {k : Kernel} {r : List Addr}

/-- The first task is current already. -/
theorem taskRunFirstEverTask_eq {ts : List Addr} (h : FirstRuns k.sched ts) (hne : ts ≠ []) :
    Table.taskRunFirstEverTask k = some (k.sched.current_task, k) := by
  have hhead : k.sched.current_task = k.sched.task_head := h.current.trans h.list.head.symm
  have hnull : k.sched.task_head ≠ 0#32 := by
    rw [h.list.head]
    exact fun h0 => h.list.nonnull (h0 ▸ headD_mem hne)
  have hswitch : taskSwitch k.sched k.sched.task_head = k.sched := by
    rw [← hhead]
    rfl
  unfold Table.taskRunFirstEverTask
  rw [bind_get, bind_of_some (deref_of_ne (hhead ▸ hnull) k),
    bind_of_some (show onTasks _ k = some ((), _) from rfl), hswitch,
    bind_of_some (deref_of_ne hnull _), hhead]
  rfl

/-- After the last turn of a round the first one starts again. -/
theorem headD_rotate {n : ℕ} (hn : r ≠ []) (d : Addr) :
    (r.rotate n).headD d = r.getD (n % r.length) d := by
  have hlt : n % r.length < r.length := Nat.mod_lt _ (List.length_pos_of_ne_nil hn)
  rw [← List.rotate_mod, List.headD_eq_head?_getD, List.head?_rotate hlt,
    List.getD_eq_getElem?_getD]

theorem mends_clocks (n : ℕ) : ∀ {k : Kernel},
    AlongPartial dispatchStep DispatchEvent.Mends k (List.replicate n .clock) := by
  induction n with
  | zero => exact fun {_} => trivial
  | succ n ih => exact fun {_} => ⟨trivial, fun _ _ => ih⟩

/-- **Ticks** alone. -/
theorem Scheduled.ticks (h : Scheduled k r) (n : ℕ) :
    ∃ k', runPartial dispatchStep k (List.replicate n .clock) = some k' ∧
      k'.sched.current_task = r.getD (n % r.length) 0#32 := by
  have hring : ringAfter r (List.replicate n .clock) = r.rotate n := by
    unfold ringAfter
    rw [List.map_replicate]
    exact endTurns_pass r n
  have hstay : ringAfter r (List.replicate n .clock) ≠ [] := by
    rw [hring]
    exact fun hnil => h.ring.nonempty (List.rotate_eq_nil_iff.mp hnil)
  obtain ⟨k', hrun, h'⟩ := h.run _ hstay (mends_clocks n) n
  rw [List.take_of_length_le (by simp)] at hrun h'
  refine ⟨k', hrun, ?_⟩
  rw [h'.ring.current, hring]
  exact headD_rotate h.ring.nonempty _

end Ticks

/-- **From the first program to the ticks.** Whatever files are loaded, with or without success, the
processes that there are then fill the table from its first slot on. If there is none, starting the
first task panics. If there are `n`, their tasks are ready to take turns in the order of the table,
and after `j` ticks the process in slot `j % n` runs. -/
theorem loaded_programs_take_turns (k : Kernel) (rs : List (Addr × ℕ)) (hstart : NoProcesses k rs)
    (htasks : FirstRuns k.sched []) (ops : List TableOp) (hloads : ∀ op ∈ ops, op.Loads)
    (k' : Kernel) (hrun : runPartial tableStep k ops = some k') :
    ∃ n ≤ maerosMaxProcesses, (∀ i < maerosMaxProcesses, k'.processes i ≠ 0#32 ↔ i < n) ∧
      (n = 0 → Table.taskRunFirstEverTask k' = none) ∧
      (0 < n → Table.taskRunFirstEverTask k' = some ((k'.procs (k'.processes 0)).task, k') ∧
        Scheduled k' (tableTasks k' n) ∧
        ∀ j, ∃ k'', runPartial dispatchStep k' (List.replicate j .clock) = some k'' ∧
          k''.sched.current_task = (k'.procs (k'.processes (j % n))).task) := by
  have hinit : TableInv k [] rs := ⟨hstart.owns, by simp,
    fun i hi hne => absurd (hstart.processes i hi) hne, .inl hstart.current⟩
  have horder : InLoadOrder k [] := ⟨Nat.zero_le _, hstart.processes, htasks⟩
  obtain ⟨live, lost, h, ho⟩ := horder.run hinit hloads hrun
  refine ⟨live.length, ho.room, fun i hi => ho.slot_iff h hi, fun hzero => ?_, fun hpos => ?_⟩
  · obtain rfl := List.length_eq_zero_iff.mp hzero
    have hcur : k'.sched.current_task = 0#32 := ho.tasks.current
    refine Option.eq_none_iff_forall_ne_some.mpr fun ⟨t, k₁⟩ hfirst => ?_
    unfold Table.taskRunFirstEverTask at hfirst
    rw [bind_get] at hfirst
    obtain ⟨_, _, hd, -⟩ := prog_bind.mp hfirst
    exact (deref_some hd).1 hcur
  · have hne := List.ne_nil_of_length_pos hpos
    have hsched := ho.scheduled h hne
    have hlen : (tableTasks k' live.length).length = live.length := by simp [tableTasks]
    have htask : ∀ j, (tableTasks k' live.length).getD (j % live.length) 0#32 =
        (k'.procs (k'.processes (j % live.length))).task := by
      intro j
      have hlt : j % live.length < (tableTasks k' live.length).length := by
        rw [hlen]
        exact Nat.mod_lt j hpos
      rw [List.getD_eq_getElem _ _ hlt]
      simp [tableTasks]
    have hfirst : k'.sched.current_task = (k'.procs (k'.processes 0)).task := by
      obtain ⟨k'', hnone, hcur⟩ := hsched.ticks 0
      cases hnone
      rw [hcur, hlen, htask, Nat.zero_mod]
    refine ⟨?_, hsched, fun j => ?_⟩
    · rw [← hfirst]
      exact taskRunFirstEverTask_eq (ho.tableTasks_eq ▸ ho.tasks) hsched.ring.nonempty
    · obtain ⟨k'', hticks, hcur⟩ := hsched.ticks j
      rw [hlen, htask] at hcur
      exact ⟨k'', hticks, hcur⟩

/-- Two programs; the first tick goes on to the second one. -/
theorem loaded_programs_take_turns_two : ∃ k' k'',
    runPartial tableStep bootKernel [loadBare 0x41#8 8, loadBare 0x42#8 1] = some k' ∧
    Table.taskRunFirstEverTask k' = some ((k'.procs (k'.processes 0)).task, k') ∧
    runPartial dispatchStep k' [.clock] = some k'' ∧
      k''.sched.current_task = (k'.procs (k'.processes 1)).task := by
  obtain ⟨k₁, hs₁, -, h₁⟩ := onlyLoaded_bootKernel.next (by decide) 0x41#8 (by omega) (by omega)
    placeLoad_placeA
  obtain ⟨k₂, hs₂, -, h₂⟩ := h₁.next (by decide) 0x42#8 (by omega) (by omega) placeLoad_placeB
  have hrun : runPartial tableStep bootKernel [loadBare 0x41#8 8, loadBare 0x42#8 1] = some k₂ := by
    rw [runPartial_step hs₁, runPartial_step hs₂]
    rfl
  obtain ⟨n, -, hslots, -, hturns⟩ := loaded_programs_take_turns bootKernel []
    noProcesses_bootKernel ⟨onlyLoaded_bootKernel.tasks, rfl⟩ _ (by simp [loadBare, TableOp.Loads])
    k₂ hrun
  have hn : n = 2 := by
    have h1 := (hslots 1 (by decide)).mp (by rw [h₂.processes]; decide)
    have h2 := mt (hslots 2 (by decide)).mpr (by rw [h₂.processes]; decide)
    omega
  subst hn
  obtain ⟨hfirst, -, hticks⟩ := hturns (by omega)
  obtain ⟨k'', htick, hcur⟩ := hticks 1
  exact ⟨k₂, k'', hrun, hfirst, htick, hcur⟩

end MaerOS.Analysis
