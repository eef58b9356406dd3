import MaerOS.Lib.LinkedList
import MaerOS.Lib.Run
import MaerOS.Analysis.TaskSpecs

/-!
# The task list over whole runs

A run starts with no task and carries out any sequence of `task_new` and
`task_free`, the latter on live tasks in any order. `TaskRun.Good` is what the list
should be: the live tasks in creation order, linked both ways, with no pointer left
to a freed one.

`task_list_remove` mends `prev->next` but never `next->prev`. Removing the last
task leaves nothing to mend, and a run that only ever frees the last task is good
throughout; freeing any other task leaves its successor pointing back at it, and
the state is not good from there on. The two together are `task_runs_good_iff`.
-/

set_option autoImplicit false

namespace MaerOS.Analysis

open MaerOS.Lib MaerOS.Model

/-! ## The list -/

/-- The links of the tasks. -/
abbrev nextOf (s : TaskList) (t : Addr) : Addr := (s.tasks t).next

/-- The links of the tasks, the other way. -/
abbrev prevOf (s : TaskList) (t : Addr) : Addr := (s.tasks t).prev

/-- The task list is the list of the tasks `live`. -/
structure Represents (s : TaskList) (live : List Addr) : Prop where
  nodup : live.Nodup
  nonnull : 0#32 ∉ live
  linked : Linked (nextOf s) (prevOf s) 0#32 live 0#32
  head : s.task_head = live.headD 0#32
  tail : s.task_tail = live.getLastD 0#32
  current : (live = [] ∧ s.current_task = 0#32) ∨ s.current_task ∈ live

/-- The tasks after an assignment. -/
theorem assign_tasks (s : TaskList) (task : Addr) (f : Task → Task) (x : Addr) :
    (s.assign task f).tasks x = if x = task then f (s.tasks x) else s.tasks x := by
  unfold TaskList.assign
  dsimp only
  by_cases h : x = task
  · rw [if_pos h, h, Function.update_self]
  · rw [if_neg h, Function.update_of_ne h]

/-- Behind a list that is not empty, `task_new` sets one `next` and one `prev` field. -/
theorem taskListAppend_tasks {s : TaskList} {task : Addr} (hhead : s.task_head ≠ 0#32)
    (htail : task ≠ s.task_tail) (x : Addr) :
    (taskListAppend s task).tasks x =
      if x = task then { s.tasks x with prev := s.task_tail }
      else if x = s.task_tail then { s.tasks x with next := task } else s.tasks x := by
  unfold taskListAppend
  rw [if_neg hhead]
  dsimp only
  rw [assign_tasks, assign_tasks]
  by_cases hx : x = task
  · rw [if_pos hx, if_pos hx, if_neg (by rw [hx]; exact htail)]
    rfl
  · rw [if_neg hx, if_neg hx]

/-- The other tasks keep their links. -/
theorem taskListAppend_other {s : TaskList} {task x : Addr} (htask : x ≠ task)
    (htail : x ≠ s.task_tail) : (taskListAppend s task).tasks x = s.tasks x := by
  unfold taskListAppend
  split
  · rfl
  · dsimp only
    rw [assign_tasks, if_neg htask, assign_tasks, if_neg htail]

/-- Unlinking a task changes the `next` of the one before it. -/
theorem taskListRemove_tasks (s : TaskList) (task x : Addr) :
    (taskListRemove s task).tasks x =
      if (s.tasks task).prev ≠ 0#32 ∧ x = (s.tasks task).prev then
        { s.tasks x with next := (s.tasks task).next }
      else s.tasks x := by
  have hassign : (if (s.tasks task).prev ≠ 0#32 then
      s.assign (s.tasks task).prev fun p => { p with next := (s.tasks task).next }
      else s).tasks x = if (s.tasks task).prev ≠ 0#32 ∧ x = (s.tasks task).prev then
        { s.tasks x with next := (s.tasks task).next } else s.tasks x := by
    by_cases hp : (s.tasks task).prev ≠ 0#32
    · rw [if_pos hp, assign_tasks]
      by_cases hx : x = (s.tasks task).prev
      · rw [if_pos hx, if_pos ⟨hp, hx⟩]
      · rw [if_neg hx, if_neg fun h => hx h.2]
    · rw [if_neg hp, if_neg fun h => hp h.1]
  unfold taskListRemove
  dsimp only
  rw [← hassign]
  generalize (if (s.tasks task).prev ≠ 0#32 then
    s.assign (s.tasks task).prev fun p => { p with next := (s.tasks task).next } else s) = s₁
  split_ifs <;> rfl

theorem prevOf_taskListRemove (s : TaskList) (task x : Addr) :
    prevOf (taskListRemove s task) x = prevOf s x := by
  unfold prevOf
  rw [taskListRemove_tasks]
  split <;> rfl

/-- Removing the first task leaves the tail where it is. -/
theorem task_tail_taskListRemove {s : TaskList} {task : Addr} (htail : task ≠ s.task_tail)
    (hprev : prevOf s task = 0#32) : (taskListRemove s task).task_tail = s.task_tail := by
  have hnone : ¬ (s.tasks task).prev ≠ 0#32 := not_not.mpr hprev
  unfold taskListRemove
  dsimp only
  rw [if_neg hnone]
  split_ifs <;> rfl

theorem page_directory_taskListRemove (s : TaskList) (task x : Addr) :
    ((taskListRemove s task).tasks x).page_directory = (s.tasks x).page_directory := by
  rw [taskListRemove_tasks]
  split <;> rfl

theorem page_directory_taskListAppend (s : TaskList) (task x : Addr) :
    ((taskListAppend s task).tasks x).page_directory = (s.tasks x).page_directory := by
  unfold taskListAppend
  split
  · rfl
  · dsimp only
    rw [assign_tasks, assign_tasks]
    split <;> split <;> rfl

/-- The task that was appended runs on its chunk. -/
theorem page_directory_newTask (s : TaskList) (task chunk process ip : Addr) :
    ((taskListAppend (s.assign task fun _ => newTask chunk process ip) task).tasks
      task).page_directory = chunk := by
  rw [page_directory_taskListAppend, assign_tasks, if_pos rfl]
  rfl

/-- Removing a task leaves the processes of all tasks as they are. -/
theorem process_taskListRemove (s : TaskList) (task x : Addr) :
    ((taskListRemove s task).tasks x).process = (s.tasks x).process := by
  rw [taskListRemove_tasks]
  split <;> rfl

/-- Appending a task leaves the processes of all tasks as they are. -/
theorem process_taskListAppend (s : TaskList) (task x : Addr) :
    ((taskListAppend s task).tasks x).process = (s.tasks x).process := by
  unfold taskListAppend
  split
  · rfl
  · dsimp only
    rw [assign_tasks, assign_tasks]
    split <;> split <;> rfl

theorem getLastD_mem {l : List Addr} (h : l ≠ []) : l.getLastD 0#32 ∈ l := by
  rw [List.getLastD_eq_getLast?, List.getLast?_eq_some_getLast h]
  exact List.getLast_mem h

theorem headD_mem {l : List Addr} (h : l ≠ []) : l.headD 0#32 ∈ l := by
  obtain ⟨t, ts, rfl⟩ := List.exists_cons_of_ne_nil h
  exact List.mem_cons_self

/-- **Appending** a task that is not in the list. -/
theorem Represents.append {s : TaskList} {live : List Addr} (h : Represents s live) {task : Addr}
    (htask : task ≠ 0#32) (hnew : task ∉ live) (hnext : nextOf s task = 0#32)
    (hprev : prevOf s task = 0#32) : Represents (taskListAppend s task) (live ++ [task]) := by
  by_cases hempty : live = []
  · subst hempty
    have hhead : s.task_head = 0#32 := h.head
    unfold taskListAppend
    rw [if_pos hhead]
    exact ⟨by simp, by simpa using htask.symm, ⟨hprev, hnext, trivial⟩, rfl, rfl, .inr (by simp)⟩
  · have hhead : s.task_head ≠ 0#32 := by
      rw [h.head]
      exact fun h0 => h.nonnull (h0 ▸ headD_mem hempty)
    have htail : task ≠ s.task_tail := by
      rw [h.tail]
      exact fun heq => hnew (heq ▸ getLastD_mem hempty)
    have htasks := taskListAppend_tasks hhead htail
    have hglobals : (taskListAppend s task).task_head = s.task_head ∧
        (taskListAppend s task).task_tail = task ∧
        (taskListAppend s task).current_task = s.current_task := by
      unfold taskListAppend
      rw [if_neg hhead]
      exact ⟨rfl, rfl, rfl⟩
    refine ⟨List.nodup_append.mpr ⟨h.nodup, by simp, ?_⟩, ?_, ?_, ?_, ?_, ?_⟩
    · intro a ha b hb heq
      rw [List.mem_singleton] at hb
      exact hnew (hb ▸ heq ▸ ha)
    · simp only [List.mem_append, List.mem_singleton, not_or]
      exact ⟨h.nonnull, htask.symm⟩
    · refine h.linked.push h.nodup ?_ (fun _ => ?_) ?_ ?_ ?_
      · intro x hx hxl
        have hxt : x ≠ task := fun heq => hnew (heq ▸ hx)
        rw [← h.tail] at hxl
        unfold nextOf
        rw [htasks, if_neg hxt, if_neg hxl]
      · unfold nextOf
        rw [← h.tail, htasks, if_neg htail.symm, if_pos rfl]
      · unfold nextOf
        rw [htasks, if_pos rfl]
        exact hnext
      · intro x hx
        have hxt : x ≠ task := fun heq => hnew (heq ▸ hx)
        unfold prevOf
        rw [htasks, if_neg hxt]
        split <;> rfl
      · unfold prevOf
        rw [htasks, if_pos rfl]
        exact h.tail
    · rw [hglobals.1, h.head]
      obtain ⟨t, ts, rfl⟩ := List.exists_cons_of_ne_nil hempty
      rfl
    · rw [hglobals.2.1]
      simp
    · rw [hglobals.2.2]
      exact .inr (List.mem_append_left _ (h.current.resolve_left fun hc => hempty hc.1))

/-- **A new task** is appended as `task_init` leaves it. -/
theorem Represents.new {s : TaskList} {live : List Addr} (h : Represents s live) {task : Addr}
    (htask : task ≠ 0#32) (hnot : task ∉ live) (chunk process ip : Addr) :
    Represents (taskListAppend (s.assign task fun _ => newTask chunk process ip) task)
      (live ++ [task]) := by
  have hframe : ∀ x ∈ live, (s.assign task fun _ => newTask chunk process ip).tasks x =
      s.tasks x := by
    intro x hx
    rw [assign_tasks, if_neg]
    exact fun heq => hnot (heq ▸ hx)
  have hrep : Represents (s.assign task fun _ => newTask chunk process ip) live := by
    refine ⟨h.nodup, h.nonnull, ?_, h.head, h.tail, h.current⟩
    exact h.linked.congr (fun x hx => by unfold nextOf; rw [hframe x hx])
      (fun x hx => by unfold prevOf; rw [hframe x hx])
  refine hrep.append htask hnot ?_ ?_
  · unfold nextOf
    rw [assign_tasks, if_pos rfl]
    rfl
  · unfold prevOf
    rw [assign_tasks, if_pos rfl]
    rfl

/-- Where the last task is unlinked, the head, the tail and the current task are those left. -/
theorem Represents.remove_globals {s : TaskList} {live : List Addr} {task : Addr}
    (h : Represents s (live ++ [task])) :
    (taskListRemove s task).task_head = live.headD 0#32 ∧
      (taskListRemove s task).task_tail = live.getLastD 0#32 ∧
      (taskListRemove s task).current_task =
        if task = s.current_task then live.headD 0#32 else s.current_task := by
  have hnd := List.nodup_append.mp h.nodup
  have hnot : task ∉ live := fun hm => hnd.2.2 task hm task (by simp) rfl
  obtain ⟨-, hprev, hnext⟩ := (linked_concat _ _ _ _).mp h.linked
  have htail : s.task_tail = task := by
    rw [h.tail]
    simp
  have hpt : (s.tasks task).prev ≠ 0#32 → task ≠ (s.tasks task).prev := by
    intro hp heq
    have hpl : (s.tasks task).prev = live.getLastD 0#32 := hprev
    by_cases hempty : live = []
    · exact hp (by rw [hpl, hempty]; rfl)
    · exact hnot (by rw [heq, hpl]; exact getLastD_mem hempty)
  have hhead : (if task = s.task_head then 0#32 else s.task_head) = live.headD 0#32 := by
    rw [h.head]
    cases live with
    | nil => exact if_pos rfl
    | cons t ts => exact if_neg fun heq => hnot (by rw [heq]; exact List.mem_cons_self)
  -- the first assignment does not reach the task itself, nor a global
  obtain ⟨s₁, hs₁, hself, h1, h2, h3⟩ : ∃ s₁, (if (s.tasks task).prev ≠ 0#32 then
      s.assign (s.tasks task).prev fun p => { p with next := (s.tasks task).next } else s) = s₁ ∧
      s₁.tasks task = s.tasks task ∧ s₁.task_head = s.task_head ∧ s₁.task_tail = s.task_tail ∧
      s₁.current_task = s.current_task := by
    refine ⟨_, rfl, ?_⟩
    split
    · rename_i hp
      exact ⟨by rw [assign_tasks, if_neg (hpt hp)], rfl, rfl, rfl⟩
    · exact ⟨rfl, rfl, rfl, rfl⟩
  have hn1 : (s₁.tasks task).next = 0#32 := by
    rw [hself]
    exact hnext
  have hp1 : (s₁.tasks task).prev = live.getLastD 0#32 := by
    rw [hself]
    exact hprev
  rw [← hhead]
  unfold taskListRemove taskGetNext
  dsimp only
  rw [hs₁, ← h1, ← h3]
  rw [← h2] at htail
  by_cases hh : task = s₁.task_head
  · by_cases hc : task = s₁.current_task
    · simp [← hh, ← hc, htail, hn1, hp1]
    · simp [← hh, hc, htail, hn1, hp1]
  · by_cases hc : task = s₁.current_task
    · simp [hh, ← hc, htail, hn1, hp1]
    · simp [hh, hc, htail, hp1]

/-- **Removing the last task.** -/
theorem Represents.remove_last {s : TaskList} {live : List Addr} {task : Addr}
    (h : Represents s (live ++ [task])) : Represents (taskListRemove s task) live := by
  have hnd := List.nodup_append.mp h.nodup
  have hnn : 0#32 ∉ live := fun hm => h.nonnull (List.mem_append_left _ hm)
  obtain ⟨-, hprev, hnext⟩ := (linked_concat _ _ _ _).mp h.linked
  obtain ⟨hhead, htail, hcur⟩ := h.remove_globals
  refine ⟨hnd.1, hnn, ?_, hhead, htail, ?_⟩
  · refine h.linked.pop hnd.1 ?_ (fun hne => ?_) fun x _ => prevOf_taskListRemove s task x
    · intro x _ hxl
      rw [← hprev] at hxl
      unfold nextOf
      rw [taskListRemove_tasks, if_neg fun hx => hxl hx.2]
    · have hpne : (s.tasks task).prev ≠ 0#32 := by
        show prevOf s task ≠ 0#32
        rw [hprev]
        exact fun h0 => hnn (h0 ▸ getLastD_mem hne)
      unfold nextOf
      rw [← hprev, taskListRemove_tasks, if_pos ⟨hpne, rfl⟩]
      exact hnext
  · rw [hcur]
    by_cases hempty : live = []
    · subst hempty
      have hc : task = s.current_task := by
        rcases h.current with ⟨hc, -⟩ | hc
        · simp at hc
        · exact (List.mem_singleton.mp hc).symm
      exact .inl ⟨rfl, by rw [if_pos hc]; rfl⟩
    · refine .inr ?_
      split
      · exact headD_mem hempty
      · rename_i hne
        rcases h.current with ⟨hc, -⟩ | hc
        · simp at hc
        · refine (List.mem_append.mp hc).resolve_right fun hm => hne ?_
          exact (List.mem_singleton.mp hm).symm

/-! ## Runs -/

/-- The kernel and the live tasks in the order they were created. -/
structure TaskRun where
  kernel : Kernel
  live : List Addr

/-- A call of `task_new` or `task_free`. -/
inductive TaskOp where
  | new (process : Addr)
  | free (task : Addr)

/-- Carry out one call. -/
def TaskRun.step (s : TaskRun) : TaskOp → Option TaskRun
  | .new process =>
    (taskNew process s.kernel).map fun r => { kernel := r.2, live := s.live ++ [r.1] }
  | .free task =>
    (taskFree task s.kernel).map fun r => { kernel := r.2, live := s.live.erase task }

/-- A finished `task_new` as a step. -/
theorem TaskRun.step_new {s : TaskRun} {process task : Addr} {k' : Kernel}
    (h : taskNew process s.kernel = some (task, k')) :
    s.step (.new process) = some { kernel := k', live := s.live ++ [task] } := by
  simp only [TaskRun.step, h, Option.map_some]

/-- `task_free` is only called on a live task. -/
def TaskRun.Allowed (s : TaskRun) : TaskOp → Prop
  | .new _ => True
  | .free task => task ∈ s.live

/-- The task list holds the address `p`. -/
def TaskRun.Refers (s : TaskRun) (p : Addr) : Prop :=
  p = s.kernel.sched.task_head ∨ p = s.kernel.sched.task_tail ∨
    p = s.kernel.sched.current_task ∨
    ∃ t ∈ s.live, p = nextOf s.kernel.sched t ∨ p = prevOf s.kernel.sched t

/-- What the task list should be. -/
structure TaskRun.Good (s : TaskRun) : Prop where
  /-- Following `next` from the head visits the live tasks in creation order, and ends. -/
  order : ∀ n, s.live.length ≤ n →
    follow (nextOf s.kernel.sched) 0#32 n s.kernel.sched.task_head = s.live
  /-- `prev` is the task created before, and null for the first. -/
  prev : ∀ i (hi : i < s.live.length),
    prevOf s.kernel.sched s.live[i] = (0#32 :: s.live).getD i 0#32
  /-- The tail is the last live task, or null. -/
  tail : s.kernel.sched.task_tail = s.live.getLastD 0#32
  /-- The current task is live. -/
  current : s.live ≠ [] → s.kernel.sched.current_task ∈ s.live
  /-- No freed task is referred to. -/
  noStale : ∀ p, s.Refers p → p = 0#32 ∨ p ∈ s.live

/-- A list that represents its live tasks is as it should be. -/
theorem Represents.good {s : TaskRun} (h : Represents s.kernel.sched s.live) : s.Good := by
  refine ⟨?_, h.linked.prev_getElem, h.tail, ?_, ?_⟩
  · rw [h.head]
    exact h.linked.follow_eq h.nonnull
  · exact fun hne => h.current.resolve_left fun hc => hne hc.1
  · rintro p (rfl | rfl | rfl | ⟨t, ht, rfl | rfl⟩)
    · rw [h.head]
      by_cases hne : s.live = []
      · exact .inl (by rw [hne]; rfl)
      · exact .inr (headD_mem hne)
    · rw [h.tail]
      by_cases hne : s.live = []
      · exact .inl (by rw [hne]; rfl)
      · exact .inr (getLastD_mem hne)
    · exact h.current.imp And.right id
    · exact (h.linked.mem_links t ht).1
    · exact (h.linked.mem_links t ht).2

/-- A task with its chunk. -/
structure TaskFoot where
  task : Addr
  chunk : Addr
  shape : ChunkShape

/-- The blocks of a task. -/
def TaskFoot.runs (f : TaskFoot) : List (Addr × ℕ) := chunkRuns f.chunk f.shape ++ [(f.task, 1)]

/-- Taking one task out of the list of owners. -/
theorem taskRuns_perm (init post : List TaskFoot) (f : TaskFoot) (rs : List (Addr × ℕ)) :
    (chunkRuns f.chunk f.shape ++ (f.task, 1) ::
      ((init ++ post).flatMap TaskFoot.runs ++ rs)).Perm
      ((init ++ f :: post).flatMap TaskFoot.runs ++ rs) := by
  have hleft : chunkRuns f.chunk f.shape ++ (f.task, 1) ::
      ((init ++ post).flatMap TaskFoot.runs ++ rs) =
      f.runs ++ (init.flatMap TaskFoot.runs ++ (post.flatMap TaskFoot.runs ++ rs)) := by
    unfold TaskFoot.runs
    simp
  have hright : (init ++ f :: post).flatMap TaskFoot.runs ++ rs =
      init.flatMap TaskFoot.runs ++ (f.runs ++ (post.flatMap TaskFoot.runs ++ rs)) := by simp
  rw [hleft, hright]
  exact List.perm_append_comm_assoc _ _ _

/-- The invariant: the list represents the live tasks, each of which owns its block and its chunk;
`rs` is what others own. -/
structure TaskRun.Inv (rs : List (Addr × ℕ)) (s : TaskRun) (foots : List TaskFoot) : Prop where
  live : s.live = foots.map TaskFoot.task
  list : Represents s.kernel.sched s.live
  owns : HeapOwns s.kernel.heap (foots.flatMap TaskFoot.runs ++ rs)
  chunk : ∀ f ∈ foots, (s.kernel.sched.tasks f.task).page_directory = f.chunk ∧
    ∃ pm, ChunkAt s.kernel.mem f.chunk f.shape pm

/-- **One `task_new`** keeps the invariant. -/
theorem TaskRun.Inv.new {rs : List (Addr × ℕ)} {s s' : TaskRun} {foots : List TaskFoot}
    (h : TaskRun.Inv rs s foots) {process : Addr} (hstep : s.step (.new process) = some s') :
    ∃ foots', TaskRun.Inv rs s' foots' := by
  obtain ⟨⟨task, k'⟩, hnew, rfl⟩ := Option.map_eq_some_iff.mp hstep
  obtain ⟨-, chunk, shape, ip, hown, hat, hagree, -, -, -, hsched⟩ := taskNew_some hnew h.owns
  have hnodup := hown.nodup
  rw [List.map_append, List.nodup_append] at hnodup
  -- the new task is at no address that was in use
  have hfresh : ∀ f ∈ foots, task ≠ f.task := by
    intro f hf heq
    have hmem : task ∈ ((foots.flatMap TaskFoot.runs ++ rs).map Prod.fst) := by
      rw [heq]
      refine List.mem_map.mpr ⟨(f.task, 1), List.mem_append_left _ ?_, rfl⟩
      exact List.mem_flatMap.mpr ⟨f, hf, List.mem_append_right _ (by simp)⟩
    exact (List.nodup_cons.mp hnodup.2.1).1 hmem
  have hnot : task ∉ s.live := by
    rw [h.live]
    intro hm
    obtain ⟨f, hf, heq⟩ := List.mem_map.mp hm
    exact hfresh f hf heq.symm
  have hne : task ≠ 0#32 := hown.ne_zero (List.mem_append_right _ List.mem_cons_self)
  refine ⟨foots ++ [⟨task, chunk, shape⟩], ?_, ?_, ?_, ?_⟩
  · show s.live ++ [task] = _
    rw [h.live, List.map_append]
    rfl
  · show Represents k'.sched (s.live ++ [task])
    rw [hsched]
    exact h.list.new hne hnot chunk process ip
  · have hperm := taskRuns_perm foots [] ⟨task, chunk, shape⟩ rs
    rw [List.append_nil] at hperm
    exact hown.perm hperm
  · intro f hf
    show (k'.sched.tasks f.task).page_directory = _ ∧ _
    rw [hsched, page_directory_taskListAppend, assign_tasks]
    rcases List.mem_append.mp hf with hf | hf
    · obtain ⟨hdir, pm, hpm⟩ := h.chunk f hf
      refine ⟨?_, pm, hpm.of_agree (hagree.subset fun r hr => ?_)⟩
      · rw [if_neg fun heq => hfresh f hf heq.symm]
        exact hdir
      · exact List.mem_append_left _ (List.mem_flatMap.mpr ⟨f, hf, List.mem_append_left _ hr⟩)
    · rw [List.mem_singleton] at hf
      subst hf
      refine ⟨?_, selfMap, hat⟩
      rw [if_pos rfl]
      rfl

/-- When `task_free` mends all there is to mend: it is called on the last task. -/
def TaskRun.FreesLast (s : TaskRun) : TaskOp → Prop
  | .new _ => True
  | .free task => task = s.kernel.sched.task_tail

/-- `task_free` of a live task has an outcome: its blocks are given back and the list is edited. -/
theorem TaskRun.Inv.free_outcome {rs : List (Addr × ℕ)} {s : TaskRun} {init post : List TaskFoot}
    {f : TaskFoot} (h : TaskRun.Inv rs s (init ++ f :: post)) :
    ∃ heap kfrees, s.step (.free f.task) = some
        { kernel := { s.kernel with
            heap := heap
            sched := taskListRemove s.kernel.sched f.task
            kfrees := kfrees }
          live := s.live.erase f.task } ∧
      HeapOwns heap ((init ++ post).flatMap TaskFoot.runs ++ rs) := by
  obtain ⟨hdir, pm, hpm⟩ := h.chunk f (by simp)
  have hown := h.owns.perm (taskRuns_perm init post f rs).symm
  rw [← hdir] at hown hpm
  obtain ⟨heap, kfrees, hfree, hown'⟩ := taskFree_owns hpm hown
  exact ⟨heap, kfrees, Option.map_eq_some_iff.mpr ⟨_, hfree, rfl⟩, hown'⟩

/-- **One `task_free` of the last task** keeps the invariant. -/
theorem TaskRun.Inv.free_last {rs : List (Addr × ℕ)} {s s' : TaskRun} {foots : List TaskFoot}
    (h : TaskRun.Inv rs s foots) {task : Addr} (hmem : task ∈ s.live)
    (hlast : task = s.kernel.sched.task_tail) (hstep : s.step (.free task) = some s') :
    ∃ foots', TaskRun.Inv rs s' foots' := by
  rcases List.eq_nil_or_concat foots with rfl | ⟨init, f, rfl⟩
  · rw [h.live] at hmem
    simp at hmem
  · rw [List.concat_eq_append] at h
    have hlive : s.live = init.map TaskFoot.task ++ [f.task] := by
      rw [h.live, List.map_append]
      rfl
    obtain rfl : task = f.task := by
      rw [hlast, h.list.tail, hlive]
      simp
    obtain ⟨heap, kfrees, hfree, hown⟩ := h.free_outcome
    rw [hfree] at hstep
    cases hstep
    have hrep := h.list
    rw [hlive] at hrep
    have herase : s.live.erase f.task = init.map TaskFoot.task := by
      have hnot : f.task ∉ init.map TaskFoot.task := fun hm =>
        (List.nodup_append.mp hrep.nodup).2.2 f.task hm f.task (by simp) rfl
      rw [hlive, List.erase_append_right _ hnot]
      simp
    refine ⟨init, herase, ?_, by simpa using hown, ?_⟩
    · dsimp only
      rw [herase]
      exact hrep.remove_last
    · intro g hg
      dsimp only
      rw [page_directory_taskListRemove]
      exact h.chunk g (List.mem_append_left _ hg)

theorem exists_succ_of_ne_getLastD {l : List Addr} {t : Addr} (hmem : t ∈ l)
    (hne : t ≠ l.getLastD 0#32) : ∃ xs n ys, l = xs ++ t :: n :: ys := by
  obtain ⟨xs, zs, rfl⟩ := List.append_of_mem hmem
  cases zs with
  | nil => exact absurd (by simp) hne
  | cons n ys => exact ⟨xs, n, ys, rfl⟩

/-- **Freeing any other task** leaves its successor pointing at it. -/
theorem TaskRun.Inv.not_good_free {rs : List (Addr × ℕ)} {s s' : TaskRun} {foots : List TaskFoot}
    (h : TaskRun.Inv rs s foots) {task : Addr} (hmem : task ∈ s.live)
    (hne : task ≠ s.kernel.sched.task_tail) (hstep : s.step (.free task) = some s') :
    ¬ s'.Good := by
  intro hgood
  have hrep := h.list
  rw [hrep.tail] at hne
  obtain ⟨xs, n, ys, hlive⟩ := exists_succ_of_ne_getLastD hmem hne
  -- the successor points back at the task
  have hprev : prevOf s.kernel.sched n = task := by
    have hl := hrep.linked
    rw [hlive] at hl
    obtain ⟨-, -, -, hp, -⟩ := (linked_append _ _ _ _).mp hl
    exact hp
  have hnd := hrep.nodup
  have htn : n ∈ s.live.erase task := by
    rw [List.Nodup.mem_erase_iff hnd]
    refine ⟨fun heq => ?_, by rw [hlive]; simp⟩
    rw [hlive, List.nodup_append] at hnd
    exact (List.nodup_cons.mp hnd.2.1).1 (by rw [heq]; exact List.mem_cons_self)
  have hmem' : task ∈ foots.map TaskFoot.task := h.live ▸ hmem
  obtain ⟨f, hf, rfl⟩ := List.mem_map.mp hmem'
  obtain ⟨init, post, rfl⟩ := List.append_of_mem hf
  obtain ⟨heap, kfrees, hfree, -⟩ := h.free_outcome
  rw [hfree] at hstep
  cases hstep
  have hback : f.task = prevOf (taskListRemove s.kernel.sched f.task) n := by
    rw [prevOf_taskListRemove, hprev]
  rcases hgood.noStale f.task (.inr (.inr (.inr ⟨n, htn, .inr hback⟩))) with h0 | hm
  · exact hrep.nonnull (h0 ▸ hmem)
  · exact hnd.not_mem_erase hm

/-- The two directions, for runs from a state that satisfies the invariant. -/
theorem TaskRun.Inv.good_iff {rs : List (Addr × ℕ)} :
    ∀ (ops : List TaskOp) (s s' : TaskRun) (foots : List TaskFoot), TaskRun.Inv rs s foots →
      AlongPartial TaskRun.step TaskRun.Allowed s ops →
      runPartial TaskRun.step s ops = some s' →
      ((∀ i t, runPartial TaskRun.step s (ops.take i) = some t → t.Good) ↔
        AlongPartial TaskRun.step TaskRun.FreesLast s ops) := by
  intro ops
  induction ops with
  | nil =>
    intro s s' foots hinv _ _
    refine iff_of_true (fun i t ht => ?_) trivial
    rw [List.take_nil] at ht
    cases ht
    exact hinv.list.good
  | cons o ops ih =>
    rintro s s' foots hinv ⟨hallowed, hrest⟩ hrun
    rw [runPartial_cons, Option.bind_eq_some_iff] at hrun
    obtain ⟨s₁, hs₁, hrun⟩ := hrun
    have htail : (∀ i t, runPartial TaskRun.step s ((o :: ops).take (i + 1)) = some t → t.Good) ↔
        (∀ i t, runPartial TaskRun.step s₁ (ops.take i) = some t → t.Good) := by
      simp only [List.take_succ_cons, runPartial_cons, hs₁, Option.bind_some]
    constructor
    · intro hgood
      have hlast : s.FreesLast o := by
        by_contra hnot
        cases o with
        | new process => exact hnot trivial
        | free task =>
          refine hinv.not_good_free hallowed hnot hs₁ (hgood 1 s₁ ?_)
          rw [List.take_succ_cons, List.take_zero, runPartial_cons, hs₁]
          rfl
      obtain ⟨foots', hinv'⟩ : ∃ foots', TaskRun.Inv rs s₁ foots' := by
        cases o with
        | new process => exact hinv.new hs₁
        | free task => exact hinv.free_last hallowed hlast hs₁
      refine ⟨hlast, fun s₂ hs₂ => ?_⟩
      rw [hs₁] at hs₂
      cases hs₂
      exact (ih s₁ s' foots' hinv' (hrest s₁ hs₁) hrun).mp
        (htail.mp fun i t ht => hgood (i + 1) t ht)
    · rintro ⟨hlast, hrest'⟩ i t ht
      obtain ⟨foots', hinv'⟩ : ∃ foots', TaskRun.Inv rs s₁ foots' := by
        cases o with
        | new process => exact hinv.new hs₁
        | free task => exact hinv.free_last hallowed hlast hs₁
      cases i with
      | zero =>
        cases ht
        exact hinv.list.good
      | succ i =>
        exact htail.mpr ((ih s₁ s' foots' hinv' (hrest s₁ hs₁) hrun).mpr (hrest' s₁ hs₁)) i t ht

/-- The kernel before the first task, over any heap whose table is the picture of its
allocations. -/
structure NoTasks (k : Kernel) (rs : List (Addr × ℕ)) : Prop where
  heap : HeapOwns k.heap rs
  head : k.sched.task_head = 0#32
  tail : k.sched.task_tail = 0#32
  current : k.sched.current_task = 0#32

/-- The invariant holds before the first task. -/
theorem NoTasks.inv {k : Kernel} {rs : List (Addr × ℕ)} (h : NoTasks k rs) :
    TaskRun.Inv rs { kernel := k, live := [] } [] :=
  ⟨rfl, ⟨List.nodup_nil, by simp, trivial, h.head, h.tail, .inl ⟨rfl, h.current⟩⟩, h.heap, by simp⟩

/-- **The task list over whole runs.** In a run of `task_new` and `task_free` on live tasks, from
the empty list, the list is as it should be in every state reached exactly when every `task_free`
was of the last task. -/
theorem task_runs_good_iff (k : Kernel) (rs : List (Addr × ℕ)) (hstart : NoTasks k rs)
    (ops : List TaskOp) (s' : TaskRun)
    (hallowed : AlongPartial TaskRun.step TaskRun.Allowed { kernel := k, live := [] } ops)
    (hrun : runPartial TaskRun.step { kernel := k, live := [] } ops = some s') :
    (∀ i t, runPartial TaskRun.step { kernel := k, live := [] } (ops.take i) = some t → t.Good) ↔
      AlongPartial TaskRun.step TaskRun.FreesLast { kernel := k, live := [] } ops :=
  TaskRun.Inv.good_iff ops _ s' [] hstart.inv hallowed hrun

theorem noTasks_bootKernel : NoTasks bootKernel [] := ⟨heapOwns_bootKernel, rfl, rfl, rfl⟩

theorem two_tasks_boot : ∃ s₁ s₂ : TaskRun,
    TaskRun.step { kernel := bootKernel, live := [] } (.new 1#32) = some s₁ ∧
      s₁.step (.new 1#32) = some s₂ ∧ s₁.live = [blockAddr 0] ∧
      s₁.kernel.sched.task_tail = blockAddr 0 ∧ s₂.live = [blockAddr 0, blockAddr 1027] ∧
      s₂.kernel.sched.task_tail = blockAddr 1027 := by
  obtain ⟨k₁, h₁, hp₁, honly₁, htail₁⟩ := packed_bootKernel.taskNew (by omega) 1#32
    (by decide) (by decide) fun h => absurd rfl h
  rw [Nat.zero_add] at hp₁
  obtain ⟨k₂, h₂, -, -, htail₂⟩ := hp₁.taskNew (by omega) 1#32 (by decide)
    (by rw [honly₁.procs]; decide) fun _ => by rw [htail₁]; exact blockAddr_ne_zero (by omega)
  have hs₁ := TaskRun.step_new (s := { kernel := bootKernel, live := [] }) h₁
  have hs₂ := TaskRun.step_new (s := { kernel := k₁, live := [blockAddr 0] }) h₂
  exact ⟨_, _, hs₁, hs₂, rfl, htail₁, rfl, htail₂⟩

/-- `task_free` of a live task returns. -/
theorem TaskRun.Inv.free_returns {rs : List (Addr × ℕ)} {s : TaskRun} {foots : List TaskFoot}
    (h : TaskRun.Inv rs s foots) {task : Addr} (hmem : task ∈ s.live) :
    ∃ s', s.step (.free task) = some s' ∧ s'.live = s.live.erase task := by
  rw [h.live] at hmem
  obtain ⟨f, hf, rfl⟩ := List.mem_map.mp hmem
  obtain ⟨init, post, rfl⟩ := List.append_of_mem hf
  obtain ⟨heap, kfrees, hfree, -⟩ := h.free_outcome
  exact ⟨_, hfree, rfl⟩

/-- Two tasks, of which the last is freed again: a good run. -/
theorem task_runs_good_boot : ∃ s', runPartial TaskRun.step { kernel := bootKernel, live := [] }
    [.new 1#32, .new 1#32, .free (blockAddr 1027)] = some s' ∧ s'.live = [blockAddr 0] ∧
      s'.Good := by
  obtain ⟨s₁, s₂, h₁, h₂, -, -, hlive, htail⟩ := two_tasks_boot
  obtain ⟨foots₁, hinv₁⟩ := noTasks_bootKernel.inv.new h₁
  obtain ⟨foots₂, hinv₂⟩ := hinv₁.new h₂
  have hmem : blockAddr 1027 ∈ s₂.live := by
    rw [hlive]
    exact List.mem_cons_of_mem _ List.mem_cons_self
  obtain ⟨s₃, h₃, hlive₃⟩ := hinv₂.free_returns hmem
  have hrun : runPartial TaskRun.step { kernel := bootKernel, live := [] }
      [.new 1#32, .new 1#32, .free (blockAddr 1027)] = some s₃ := by
    rw [runPartial_cons, h₁, Option.bind_some, runPartial_cons, h₂, Option.bind_some,
      runPartial_cons, h₃]
    rfl
  have hend : ∀ C : TaskRun → TaskOp → Prop, (∀ s process, C s (.new process)) →
      C s₂ (.free (blockAddr 1027)) →
      AlongPartial TaskRun.step C { kernel := bootKernel, live := [] }
        [.new 1#32, .new 1#32, .free (blockAddr 1027)] := fun C hnew hfree =>
    .cons (hnew _ _) h₁ (.cons (hnew _ _) h₂ ⟨hfree, fun _ _ => trivial⟩)
  refine ⟨s₃, hrun, ?_, ?_⟩
  · rw [hlive₃, hlive]
    rfl
  · exact (task_runs_good_iff bootKernel [] noTasks_bootKernel _ s₃
      (hend _ (fun _ _ => trivial) hmem) hrun).mpr
      (hend _ (fun _ _ => trivial) htail.symm) 3 s₃ hrun

/-- Two tasks, and then the first is freed: the second still points back at it. -/
theorem task_runs_stale_boot : ∃ s',
    AlongPartial TaskRun.step TaskRun.Allowed { kernel := bootKernel, live := [] }
      [.new 1#32, .new 1#32, .free (blockAddr 0)] ∧
    runPartial TaskRun.step { kernel := bootKernel, live := [] }
      [.new 1#32, .new 1#32, .free (blockAddr 0)] = some s' ∧ ¬ s'.Good := by
  obtain ⟨s₁, s₂, h₁, h₂, -, -, hlive, htail⟩ := two_tasks_boot
  obtain ⟨foots₁, hinv₁⟩ := noTasks_bootKernel.inv.new h₁
  obtain ⟨foots₂, hinv₂⟩ := hinv₁.new h₂
  have hmem : blockAddr 0 ∈ s₂.live := by
    rw [hlive]
    exact List.mem_cons_self
  obtain ⟨s₃, h₃, -⟩ := hinv₂.free_returns hmem
  refine ⟨s₃, ⟨trivial, fun t₁ ht₁ => ⟨trivial, fun t₂ ht₂ => ⟨?_, fun _ _ => trivial⟩⟩⟩, ?_, ?_⟩
  · rw [h₁] at ht₁
    cases ht₁
    rw [h₂] at ht₂
    cases ht₂
    exact hmem
  · rw [runPartial_cons, h₁, Option.bind_some, runPartial_cons, h₂, Option.bind_some,
      runPartial_cons, h₃]
    rfl
  · refine hinv₂.not_good_free hmem ?_ h₃
    rw [htail]
    exact fun heq => absurd (blockAddr_inj (by omega) (by omega) heq) (by omega)

end MaerOS.Analysis
