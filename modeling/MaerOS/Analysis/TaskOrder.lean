import Mathlib.Data.List.Chain
import MaerOS.Lib.Turns
import MaerOS.Analysis.TaskRuns

/-!
# The task list under exits

When a task is taken off the list, the `prev` of the task behind it keeps pointing to
it. A list in which every `prev` is right or points to a task that is gone is still
good for dispatching, `TasksInOrder`, and it stays so when a task is taken off whose own
`prev` is right, or which is the first.
-/

set_option autoImplicit false

namespace MaerOS.Analysis

open MaerOS.Lib MaerOS.Model

/-- The tasks `ts` are the list, in this order. A `prev` may point to a task that is gone. -/
structure TasksInOrder (s : TaskList) (ts : List Addr) : Prop where
  nodup : ts.Nodup
  nonnull : 0#32 ∉ ts
  head : s.task_head = ts.headD 0#32
  tail : s.task_tail = ts.getLastD 0#32
  next : Leads (nextOf s) ts 0#32
  prev : List.IsChain (fun a b => prevOf s b = a ∨ prevOf s b ∉ ts) (0#32 :: ts)

/-- The list still leads to the task. -/
def Reached (s : TaskList) (t : Addr) : Prop := ∃ n, t ∈ follow (nextOf s) 0#32 n s.task_head

/-- A list that is linked both ways is in order. -/
theorem Represents.tasksInOrder {s : TaskList} {ts : List Addr} (h : Represents s ts) :
    TasksInOrder s ts := by
  refine ⟨h.nodup, h.nonnull, h.head, h.tail, h.linked.leads, ?_⟩
  have hlink : ∀ (p : Addr) (ts : List Addr), Linked (nextOf s) (prevOf s) p ts 0#32 →
      List.IsChain (fun a b => prevOf s b = a) (p :: ts) := by
    intro p ts
    induction ts generalizing p with
    | nil => exact fun _ => List.IsChain.singleton p
    | cons t ts ih => exact fun h => List.isChain_cons_cons.mpr ⟨h.1, ih t h.2.2⟩
  exact (hlink _ _ h.linked).imp fun a b hab => .inl hab

section Order

variable {s : TaskList} {xs ys ts : List Addr} {c : Addr}

theorem TasksInOrder.reached_iff (h : TasksInOrder s ts) {t : Addr} : Reached s t ↔ t ∈ ts := by
  unfold Reached
  simp only [h.head, h.next.follow_eq h.nonnull]
  constructor
  · rintro ⟨n, hn⟩
    exact List.mem_of_mem_take hn
  · intro ht
    exact ⟨ts.length, by rwa [List.take_length]⟩

/-- The task behind the current one, or the first. -/
theorem TasksInOrder.taskGetNext_eq (h : TasksInOrder s (xs ++ c :: ys))
    (hcur : s.current_task = c) :
    taskGetNext s = (ys ++ (xs ++ [c])).headD 0#32 := by
  have hnext : (s.tasks c).next = ys.headD 0#32 := ((leads_append _ _ _).mp h.next).2.1
  unfold taskGetNext
  rw [hcur, hnext, h.head]
  cases ys with
  | nil =>
    rw [List.headD_nil, if_pos rfl]
    rfl
  | cons d ys =>
    rw [List.headD_cons, if_neg]
    · rfl
    · rintro rfl
      exact h.nonnull (by simp)

/-- The task list with another current task. -/
theorem TasksInOrder.switch (h : TasksInOrder s ts) (task : Addr) :
    TasksInOrder (taskSwitch s task) ts :=
  ⟨h.nodup, h.nonnull, h.head, h.tail, h.next, h.prev⟩

/-- What `prev` of a task is, in order. -/
theorem TasksInOrder.prev_eq (h : TasksInOrder s (xs ++ c :: ys)) :
    prevOf s c = xs.getLastD 0#32 ∨ prevOf s c ∉ xs ++ c :: ys := by
  have hprev := h.prev
  rcases List.eq_nil_or_concat xs with rfl | ⟨init, b, rfl⟩
  · exact (List.isChain_cons_cons.mp hprev).1
  · rw [List.concat_eq_append] at hprev ⊢
    rw [show (0#32 :: (init ++ [b] ++ c :: ys)) = (0#32 :: init) ++ b :: c :: ys from by simp,
      List.isChain_append_cons_cons] at hprev
    simpa using hprev.2.1

/-- The task may be taken off the list: it is the first, or its `prev` is on the list. -/
def Mended (s : TaskList) (c : Addr) : Prop := c = s.task_head ∨ Reached s (prevOf s c)

/-- Which is so exactly if the list in front of it ends where its `prev` points. -/
theorem TasksInOrder.mended_iff (h : TasksInOrder s (xs ++ c :: ys)) :
    Mended s c ↔ xs = [] ∨ prevOf s c = xs.getLastD 0#32 := by
  unfold Mended
  rw [h.reached_iff, h.head]
  constructor
  · rintro (hhead | hmem)
    · cases xs with
      | nil => exact .inl rfl
      | cons x xs =>
        have hnodup := h.nodup
        rw [List.cons_append, List.nodup_cons] at hnodup
        rw [List.cons_append, List.headD_cons] at hhead
        exact absurd (by simp [hhead]) hnodup.1
    · exact .inr (h.prev_eq.resolve_right (not_not.mpr hmem))
  · rintro (rfl | hprev)
    · exact .inl rfl
    · rcases List.eq_nil_or_concat xs with rfl | ⟨init, b, rfl⟩
      · exact .inl rfl
      · rw [hprev]
        simp

end Order

section Remove

variable {s : TaskList} {xs ys : List Addr} {c : Addr}

/-- The `prev` fields after the removal. -/
theorem TasksInOrder.remove_prev (h : TasksInOrder s (xs ++ c :: ys)) :
    List.IsChain (fun a b => prevOf (taskListRemove s c) b = a ∨
      prevOf (taskListRemove s c) b ∉ xs ++ ys) (0#32 :: (xs ++ ys)) := by
  have hsub : ∀ t, t ∈ xs ++ ys → t ∈ xs ++ c :: ys := by
    intro t ht
    simp only [List.mem_append, List.mem_cons] at ht ⊢
    exact ht.imp_right .inr
  have hnot : c ∉ xs ++ ys := (List.nodup_cons.mp (List.nodup_middle.mp h.nodup)).1
  have hweak := h.prev.imp (S := fun a b => prevOf (taskListRemove s c) b = a ∨
    prevOf (taskListRemove s c) b ∉ xs ++ ys) fun a b hab => by
      rw [prevOf_taskListRemove]
      exact hab.imp_right fun hb hmem => hb (hsub _ hmem)
  rw [show (0#32 :: (xs ++ c :: ys)) = (0#32 :: xs) ++ c :: ys from rfl,
    List.isChain_split] at hweak
  refine List.isChain_append.mpr ⟨hweak.1.left_of_append, hweak.2.tail, ?_⟩
  -- the task behind the one that goes still points to it
  intro a _ b hb
  obtain ⟨ys', rfl⟩ : ∃ ys', ys = b :: ys' := by
    cases ys with
    | nil => cases hb
    | cons d ys' => exact ⟨ys', by rw [Option.mem_some.mp hb]⟩
  refine .inr ?_
  rcases (List.isChain_cons_cons.mp hweak.2).1 with hprev | hprev
  · rwa [hprev]
  · exact hprev

theorem nextOf_taskListRemove_of_ne (s : TaskList) {task x : Addr} (h : x ≠ prevOf s task) :
    nextOf (taskListRemove s task) x = nextOf s x := by
  unfold nextOf
  rw [taskListRemove_tasks, if_neg fun hx => h hx.2]

/-- The links after the removal. -/
theorem TasksInOrder.remove_next (h : TasksInOrder s (xs ++ c :: ys)) (hmend : Mended s c) :
    Leads (nextOf (taskListRemove s c)) (xs ++ ys) 0#32 := by
  obtain ⟨hfront, -, hback⟩ := (leads_append _ _ _).mp h.next
  rw [List.headD_cons] at hfront
  have hnodup := h.nodup
  rcases List.eq_nil_or_concat xs with rfl | ⟨init, b, rfl⟩
  · -- the first task: what its `prev` points to is not on the list
    refine hback.congr fun t ht => nextOf_taskListRemove_of_ne s ?_
    rintro rfl
    rcases h.prev_eq with hprev | hprev
    · rw [hprev] at ht
      exact h.nonnull (by simpa using .inr ht)
    · exact hprev (by simp [ht])
  · rw [List.concat_eq_append] at *
    have hprev : prevOf s c = b := by
      rcases h.mended_iff.mp hmend with hnil | hprev
      · simp at hnil
      · simpa using hprev
    obtain ⟨hinit, hb, -⟩ := (leads_append _ _ _).mp hfront
    rw [List.append_assoc, List.singleton_append, List.nodup_middle, List.nodup_cons] at hnodup
    have hbnot : b ∉ init ++ c :: ys := hnodup.1
    rw [List.append_assoc, List.singleton_append, leads_append]
    refine ⟨hinit.congr fun t ht => nextOf_taskListRemove_of_ne s ?_, ?_,
      hback.congr fun t ht => nextOf_taskListRemove_of_ne s ?_⟩
    · rintro rfl
      exact hbnot (by simp [← hprev, ht])
    · have hb0 : (s.tasks c).prev ≠ 0#32 := by
        intro h0
        rw [← hprev, show prevOf s c = 0#32 from h0] at h
        exact h.nonnull (by simp)
      unfold nextOf
      rw [taskListRemove_tasks, if_pos ⟨hb0, hprev.symm⟩]
      exact ((leads_append _ _ _).mp h.next).2.1
    · rintro rfl
      exact hbnot (by simp [← hprev, ht])

/-- The three globals after a removal. -/
theorem taskListRemove_globals (s : TaskList) (task : Addr) :
    (taskListRemove s task).task_head =
        (if task = s.task_head then nextOf s task else s.task_head) ∧
      (taskListRemove s task).task_tail =
        (if task = s.task_tail then prevOf s task else s.task_tail) ∧
      (taskListRemove s task).current_task =
        if task = s.current_task then
          if nextOf s task = 0#32 then (taskListRemove s task).task_head else nextOf s task
        else s.current_task := by
  have hlink : ∃ s₁ : TaskList, (if (s.tasks task).prev ≠ 0#32 then
      s.assign (s.tasks task).prev fun p => { p with next := (s.tasks task).next }
      else s) = s₁ ∧ s₁.task_head = s.task_head ∧ s₁.task_tail = s.task_tail ∧
        s₁.current_task = s.current_task ∧ (s₁.tasks task).next = nextOf s task ∧
        (s₁.tasks task).prev = prevOf s task := by
    refine ⟨_, rfl, ?_⟩
    split
    · refine ⟨rfl, rfl, rfl, ?_, ?_⟩ <;>
        · rw [assign_tasks]
          split <;> rfl
    · exact ⟨rfl, rfl, rfl, rfl, rfl⟩
  obtain ⟨s₁, hs₁, hhead, htail, hcur, hnext, hprev⟩ := hlink
  unfold taskListRemove
  dsimp only
  rw [hs₁]
  unfold taskGetNext
  split_ifs <;> simp_all

/-- The globals after the removal of the current task. -/
theorem TasksInOrder.remove_globals (h : TasksInOrder s (xs ++ c :: ys)) (hmend : Mended s c)
    (hcur : s.current_task = c) :
    (taskListRemove s c).task_head = (xs ++ ys).headD 0#32 ∧
      (xs ++ ys ≠ [] → (taskListRemove s c).task_tail = (xs ++ ys).getLastD 0#32) ∧
      (taskListRemove s c).current_task = (ys ++ xs).headD 0#32 := by
  obtain ⟨hhead, htail, hcurrent⟩ := taskListRemove_globals s c
  have hnext : nextOf s c = ys.headD 0#32 := ((leads_append _ _ _).mp h.next).2.1
  have hnodup := (List.nodup_cons.mp (List.nodup_middle.mp h.nodup)).1
  have hhead' : (taskListRemove s c).task_head = (xs ++ ys).headD 0#32 := by
    rw [hhead, h.head, hnext]
    cases xs with
    | nil => exact if_pos rfl
    | cons x xs =>
      refine if_neg ?_
      rintro rfl
      exact hnodup (by simp)
  refine ⟨hhead', fun hne => ?_, ?_⟩
  · rw [htail, h.tail]
    rcases List.eq_nil_or_concat ys with rfl | ⟨init, d, rfl⟩
    · rw [if_pos (by simp)]
      rw [List.append_nil] at hne ⊢
      exact (h.mended_iff.mp hmend).resolve_left hne
    · rw [List.concat_eq_append] at *
      have hlast : (xs ++ c :: (init ++ [d])).getLastD 0#32 = d := by
        rw [show xs ++ c :: (init ++ [d]) = xs ++ c :: init ++ [d] from by simp,
          List.getLastD_concat]
      rw [hlast, if_neg, ← List.append_assoc, List.getLastD_concat]
      rintro rfl
      exact hnodup (by simp)
  · rw [hcurrent, if_pos hcur.symm, hnext, hhead']
    cases ys with
    | nil => simp
    | cons d ys =>
      refine if_neg ?_
      rintro rfl
      exact h.nonnull (by simp)

/-- **Taking the current task off the list.** -/
theorem TasksInOrder.remove (h : TasksInOrder s (xs ++ c :: ys)) (hmend : Mended s c)
    (hcur : s.current_task = c) (hne : xs ++ ys ≠ []) :
    TasksInOrder (taskListRemove s c) (xs ++ ys) := by
  obtain ⟨hhead, htail, -⟩ := h.remove_globals hmend hcur
  refine ⟨(List.nodup_cons.mp (List.nodup_middle.mp h.nodup)).2, fun h0 => h.nonnull ?_, hhead,
    htail hne, h.remove_next hmend, h.remove_prev⟩
  simp only [List.mem_append, List.mem_cons] at h0 ⊢
  exact h0.imp_right .inr

end Remove

/-! ## The ring -/

/-- `r` are the tasks of the list, from the current one on and round. -/
structure TaskTurns (s : TaskList) (r : List Addr) : Prop where
  order : ∃ xs ys, r = ys ++ xs ∧ TasksInOrder s (xs ++ ys)
  current : s.current_task = r.headD 0#32
  nonempty : r ≠ []

section Turns

variable {s : TaskList} {r : List Addr} {c : Addr}

/-- The list is cut in front of the current task. -/
theorem TaskTurns.split (h : TaskTurns s (c :: r)) :
    ∃ xs ys, r = ys ++ xs ∧ TasksInOrder s (xs ++ c :: ys) ∧ s.current_task = c := by
  obtain ⟨xs, ys, heq, hin⟩ := h.order
  cases ys with
  | nil =>
    obtain rfl : c :: r = xs := heq
    rw [List.append_nil] at hin
    exact ⟨[], r, (List.append_nil r).symm, hin, h.current⟩
  | cons d ys =>
    rw [List.cons_append, List.cons.injEq] at heq
    obtain ⟨rfl, rfl⟩ := heq
    exact ⟨xs, ys, rfl, hin, h.current⟩

theorem TaskTurns.notMem (h : TaskTurns s (c :: r)) : c ∉ r ∧ c ≠ 0#32 := by
  obtain ⟨xs, ys, rfl, hin, -⟩ := h.split
  have hnot := (List.nodup_cons.mp (List.nodup_middle.mp hin.nodup)).1
  simp only [List.mem_append, not_or] at hnot ⊢
  refine ⟨hnot.symm, ?_⟩
  rintro rfl
  exact hin.nonnull (by simp)

/-- The links lead to tasks of the ring. -/
theorem TaskTurns.mem_next (h : TaskTurns s r) {t : Addr} (ht : t ∈ r) :
    nextOf s t = 0#32 ∨ nextOf s t ∈ r := by
  obtain ⟨xs, ys, rfl, hin⟩ := h.order
  have hnext := hin.next.mem_next (t := t) (List.mem_append.mpr (List.mem_append.mp ht).symm)
  rwa [List.mem_append, or_comm (a := nextOf s t ∈ xs), ← List.mem_append] at hnext

/-- **`task_next`** passes the turn on. -/
theorem TaskTurns.taskNext (h : TaskTurns s r) : ∃ s',
    Model.taskNext s = some ((passOn r).headD 0#32, s') ∧
    s'.tasks = s.tasks ∧ TaskTurns s' (passOn r) := by
  obtain ⟨c, r, rfl⟩ := List.exists_cons_of_ne_nil h.nonempty
  have hnull := h.notMem.2
  obtain ⟨xs, ys, rfl, hin, hcur⟩ := h.split
  have hring : passOn (c :: (ys ++ xs)) = ys ++ (xs ++ [c]) := by simp [passOn]
  have hnext := hin.taskGetNext_eq hcur
  have hne : taskGetNext s ≠ 0#32 := by
    intro h0
    have hmem := headD_mem (l := ys ++ (xs ++ [c])) (by simp)
    rw [← hnext, h0] at hmem
    refine hin.nonnull ?_
    simp only [List.mem_append, List.mem_cons, List.not_mem_nil, or_false] at hmem ⊢
    tauto
  refine ⟨taskSwitch s (taskGetNext s), ?_, rfl, ⟨xs ++ [c], ys, hring, ?_⟩, ?_, ?_⟩
  · unfold Model.taskNext
    rw [hcur, if_neg hnull, if_neg hne, hring, hnext]
  · rw [List.append_assoc, List.singleton_append]
    exact hin.switch _
  · rw [hring]
    exact hnext
  · rw [hring]
    simp

/-- **`task_list_remove`** of the current task takes it out of the ring. -/
theorem TaskTurns.remove (h : TaskTurns s (c :: r)) (hmend : Mended s c) (hne : r ≠ []) :
    TaskTurns (taskListRemove s c) r := by
  obtain ⟨xs, ys, rfl, hin, hcur⟩ := h.split
  have hne' : xs ++ ys ≠ [] := by
    simp only [ne_eq, List.append_eq_nil_iff, not_and] at hne ⊢
    exact fun hx hy => hne hy hx
  exact ⟨⟨xs, ys, rfl, hin.remove hmend hcur hne'⟩, (hin.remove_globals hmend hcur).2.2, hne⟩

/-- Where that is not so, another task of the ring still leads to the one that is gone. -/
theorem TaskTurns.remove_stale (h : TaskTurns s (c :: r)) (hmend : ¬ Mended s c) :
    ∃ b ∈ r, nextOf (taskListRemove s c) b = c := by
  obtain ⟨xs, ys, rfl, hin, -⟩ := h.split
  rw [hin.mended_iff, not_or] at hmend
  obtain ⟨hxs, hprev⟩ := hmend
  rcases List.eq_nil_or_concat xs with rfl | ⟨init, b, rfl⟩
  · exact absurd rfl hxs
  · rw [List.concat_eq_append] at *
    refine ⟨b, by simp, ?_⟩
    have hb : nextOf s b = c :=
      ((leads_append _ _ _).mp ((leads_append _ _ _).mp hin.next).1).2.1
    rw [nextOf_taskListRemove_of_ne s, hb]
    rintro rfl
    exact hprev (by simp)

end Turns

end MaerOS.Analysis
