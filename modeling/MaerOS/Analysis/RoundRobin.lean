import MaerOS.Lib.Cycle
import MaerOS.Model.Task

/-!
# Round-robin dispatching

`task_next` goes to the next task of the list, and from the last one back to the head. As long as
no task comes or goes, this is a walk round the list.
-/

set_option autoImplicit false

namespace MaerOS.Analysis

open MaerOS.Lib MaerOS.Model

/-- The `next` fields lead from `task_head` through all of `ts` to `task_tail`, and the current
task is one of them. -/
structure TaskRing (s : TaskList) (ts : List Addr) : Prop where
  nodup : ts.Nodup
  nonnull : 0#32 ∉ ts
  head : s.task_head = ts.headD 0#32
  tail : s.task_tail = ts.getLastD 0#32
  next : ∀ i (hi : i < ts.length), (s.tasks ts[i]).next = ts.getD (i + 1) 0#32
  current : s.current_task ∈ ts

/-- `k` applications of `task_next`: the tasks they dispatch, in order, and the list they leave. -/
def taskDispatches : ℕ → TaskList → Option (List Addr × TaskList)
  | 0, s => some ([], s)
  | k + 1, s => do
    let (task, s) ← taskNext s
    let (tasks, s) ← taskDispatches k s
    some (task :: tasks, s)

variable {s : TaskList} {ts : List Addr}

theorem TaskRing.ne_nil (h : TaskRing s ts) : ts ≠ [] := List.ne_nil_of_mem h.current

/-- Changing the current task within the list. -/
theorem TaskRing.switch (h : TaskRing s ts) {task : Addr} (ht : task ∈ ts) :
    TaskRing (taskSwitch s task) ts :=
  ⟨h.nodup, h.nonnull, h.head, h.tail, h.next, ht⟩

/-- The next task is the one behind the current, and behind the last comes the first. -/
theorem TaskRing.taskGetNext_eq (h : TaskRing s ts) {i : ℕ} (hi : i < ts.length)
    (hcur : s.current_task = ts[i]) :
    taskGetNext s = ts.getD ((i + 1) % ts.length) 0#32 := by
  have hnext := h.next i hi
  rw [← hcur] at hnext
  unfold taskGetNext
  rw [hnext, h.head]
  by_cases hlast : i + 1 < ts.length
  · have hmem := List.getElem_mem hlast
    rw [List.getD_eq_getElem _ _ hlast, Nat.mod_eq_of_lt hlast, List.getD_eq_getElem _ _ hlast]
    apply if_neg
    intro h0
    exact h.nonnull (h0 ▸ hmem)
  · have hend : i + 1 = ts.length := by omega
    rw [List.getD_eq_default _ _ (by omega), if_pos rfl, hend, Nat.mod_self]
    cases ts with
    | nil => rfl
    | cons t ts => rfl

/-- `task_next` switches to the next one of the ring. -/
theorem TaskRing.taskNext_eq (h : TaskRing s ts) {i : ℕ} (hi : i < ts.length)
    (hcur : s.current_task = ts[i]) :
    taskNext s = some (ts.getD ((i + 1) % ts.length) 0#32,
      taskSwitch s (ts.getD ((i + 1) % ts.length) 0#32)) := by
  have hlt : (i + 1) % ts.length < ts.length := Nat.mod_lt _ (by omega)
  have hmem := List.getElem_mem hlt
  have hnext := h.taskGetNext_eq hi hcur
  rw [List.getD_eq_getElem _ _ hlt] at hnext ⊢
  unfold taskNext
  rw [hnext, if_neg, if_neg]
  · intro h0
    exact h.nonnull (h0 ▸ hmem)
  · intro h0
    exact h.nonnull (h0 ▸ h.current)

/-- The tasks are dispatched in the order of the ring, one step at a time. -/
theorem TaskRing.dispatches (k : ℕ) : ∀ {s : TaskList} {i : ℕ} (hi : i < ts.length),
    TaskRing s ts → s.current_task = ts[i] →
    ∃ s', taskDispatches k s = some (visits ts 0#32 (i + 1) k, s') ∧
      s'.current_task = ts.getD ((i + k) % ts.length) 0#32 := by
  induction k with
  | zero =>
    intro s i hi h hcur
    refine ⟨s, rfl, ?_⟩
    rw [Nat.add_zero, Nat.mod_eq_of_lt hi, List.getD_eq_getElem _ _ hi]
    exact hcur
  | succ k ih =>
    intro s i hi h hcur
    have hlt : (i + 1) % ts.length < ts.length := Nat.mod_lt _ (by omega)
    have hstep := h.taskNext_eq hi hcur
    rw [List.getD_eq_getElem _ _ hlt] at hstep
    obtain ⟨s', hrest, hcur'⟩ := ih hlt (h.switch (List.getElem_mem hlt)) rfl
    refine ⟨s', ?_, ?_⟩
    · simp only [taskDispatches, hstep, hrest, Option.bind_eq_bind, Option.bind_some]
      rw [visits_succ, List.getD_eq_getElem _ _ hlt]
      congr 3
      unfold visits
      apply List.map_congr_left
      intro j _
      congr 1
      rw [Nat.add_assoc, Nat.mod_add_mod, ← Nat.add_assoc, Nat.add_right_comm]
    · rw [hcur', Nat.mod_add_mod]
      congr 2
      omega

/-- **Round robin.** On every well-formed list of `n ≥ 1` tasks, `n` applications of `task_next`
dispatch every task exactly once and come back to the current task, and `k` applications dispatch
every task `⌊k / n⌋` or `⌈k / n⌉` times and no other task. -/
theorem task_next_round_robin (s : TaskList) (ts : List Addr) (h : TaskRing s ts) :
    (∃ ds s', taskDispatches ts.length s = some (ds, s') ∧ ds.Perm ts ∧
      s'.current_task = s.current_task) ∧
    ∀ k, ∃ ds s', taskDispatches k s = some (ds, s') ∧ (∀ t ∈ ds, t ∈ ts) ∧
      ∀ t ∈ ts, ds.count t = k / ts.length ∨ ds.count t = (k + ts.length - 1) / ts.length := by
  obtain ⟨i, hi, hcur⟩ := List.getElem_of_mem h.current
  constructor
  · obtain ⟨s', hrun, hend⟩ := h.dispatches ts.length hi hcur.symm
    refine ⟨_, s', hrun, visits_length_perm h.nodup h.ne_nil _ _, ?_⟩
    rw [hend, Nat.add_mod_right, Nat.mod_eq_of_lt hi, List.getD_eq_getElem _ _ hi, hcur]
  · intro k
    obtain ⟨s', hrun, -⟩ := h.dispatches k hi hcur.symm
    refine ⟨_, s', hrun, ?_, ?_⟩
    · intro t ht
      exact mem_of_mem_visits h.ne_nil ht
    · intro t ht
      exact count_visits_bounds h.nodup _ _ _ ht

/-- Two tasks, the second of them current. -/
def twoTaskList : TaskList :=
  { tasks := fun a => if a = 0x1000#32 then { Task.zero with next := 0x2000#32 }
      else { Task.zero with prev := 0x1000#32 }
    current_task := 0x2000#32
    task_tail := 0x2000#32
    task_head := 0x1000#32 }

/-- Five timer ticks on two tasks. -/
theorem task_next_round_robin_twoTasks :
    TaskRing twoTaskList [0x1000#32, 0x2000#32] ∧
      ∃ ds s', taskDispatches 5 twoTaskList = some (ds, s') ∧
        (ds.count 0x1000#32 = 2 ∨ ds.count 0x1000#32 = 3) := by
  have hring : TaskRing twoTaskList [0x1000#32, 0x2000#32] := by
    refine ⟨by decide, by decide, rfl, rfl, ?_, by decide⟩
    intro i hi
    match i, hi with
    | 0, _ => rfl
    | 1, _ => rfl
  obtain ⟨ds, s', hrun, -, hcount⟩ := (task_next_round_robin _ _ hring).2 5
  exact ⟨hring, ds, s', hrun, hcount _ (by decide)⟩

end MaerOS.Analysis
