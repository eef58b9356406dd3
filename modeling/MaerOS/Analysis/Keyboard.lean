import MaerOS.Analysis.PackedHeap
import MaerOS.Model.Keyboard
import MaerOS.Lib.Prog
import MaerOS.Lib.RingBuffer
import MaerOS.Lib.Run

/-!
# The keyboard buffer is a queue, up to its capacity

A run of pushes and pops on the buffer of one process is compared with the same run
on a queue. As long as the queue holds at most 1024 characters the pops deliver what
the queue delivers, however often the counters wrap. A push into a full buffer
overwrites the oldest character, and the order is lost.
-/

set_option autoImplicit false

namespace MaerOS.Analysis

open MaerOS.Lib MaerOS.Model

/-- A call on the keyboard buffer. -/
inductive KeyOp where
  | push (c : BitVec 8)
  | pop
  deriving DecidableEq

/-- Carry out the calls of a run; the result is what the pops return, in order. -/
def keyRun : List KeyOp → KeyboardM (List (BitVec 8))
  | [] => pure []
  | .push c :: ops => do
    keyboardPush c
    keyRun ops
  | .pop :: ops => do
    let c ← keyboardPop
    let cs ← keyRun ops
    pure (c :: cs)

/-! ## The queue -/

/-- A call on a queue. -/
def queueStep (q : List (BitVec 8)) : KeyOp → List (BitVec 8)
  | .push c => q ++ [c]
  | .pop => q.tail

/-- What the pops of a run return: the oldest unread character, zero if there is none. -/
def queueResults : List (BitVec 8) → List KeyOp → List (BitVec 8)
  | _, [] => []
  | q, .push c :: ops => queueResults (q ++ [c]) ops
  | q, .pop :: ops => q.headD 0#8 :: queueResults q.tail ops

/-- The characters pushed in a run. -/
def pushed (ops : List KeyOp) : List (BitVec 8) :=
  ops.filterMap fun
    | .push c => some c
    | .pop => none

/-- How many pops a run has. -/
def popCount (ops : List KeyOp) : ℕ := ops.countP (· = .pop)

/-- A push is made only while fewer characters are unread than the buffer has cells. -/
def HasRoom (q : List (BitVec 8)) (op : KeyOp) : Prop :=
  op ≠ .pop → q.length < maerosKeyboardBufferSize

/-! ## The process at the keyboard -/

/-- The process is the current one and the one of the current task. -/
structure Attends (s : KeyboardKernel) (process : Addr) : Prop where
  process_ne : process ≠ 0#32
  current : s.kernel.current_process = process
  task_ne : s.kernel.sched.current_task ≠ 0#32
  task : (s.kernel.sched.tasks s.kernel.sched.current_task).process = process

/-- The keyboard buffer of the process holds the queue `q`. -/
def Unread (s : KeyboardKernel) (process : Addr) (q : List (BitVec 8)) : Prop :=
  RingHolds maerosKeyboardBufferSize 0#8 (s.keyboards process).buffer (s.keyboards process).tail
    (s.keyboards process).head q

/-- Changing the buffer of a process leaves it attended. -/
theorem Attends.assign {s : KeyboardKernel} {process : Addr} (hs : Attends s process)
    (p : Addr) (f : KeyboardBuffer → KeyboardBuffer) : Attends (s.assign p f) process :=
  ⟨hs.process_ne, hs.current, hs.task_ne, hs.task⟩

theorem bufferSize_dvd : maerosKeyboardBufferSize ∣ 2 ^ 32 := by decide

variable {s : KeyboardKernel} {process : Addr} {q : List (BitVec 8)}

theorem unread_zero (hs : s.keyboards process = KeyboardBuffer.zero) : Unread s process [] := by
  unfold Unread
  rw [hs]
  exact RingHolds.nil fun i _ => rfl

/-- `keyboard_push` appends to the queue while a cell is free. -/
theorem keyboardPush_unread (hs : Attends s process) (hq : Unread s process q) {c : BitVec 8}
    (hc : c ≠ 0#8) (hlt : q.length < maerosKeyboardBufferSize) :
    ∃ s', keyboardPush c s = some ((), s') ∧ Attends s' process ∧ Unread s' process (q ++ [c]) := by
  refine ⟨s.assign process fun kb => kb.push c, ?_, hs.assign _ _, ?_⟩
  · rw [← hs.current]
    have hne : ¬ s.kernel.current_process = 0#32 := hs.current ▸ hs.process_ne
    unfold keyboardPush
    rw [bind_get, if_neg hne, if_neg hc]
    rfl
  · have h := RingHolds.put bufferSize_dvd hq hc hlt
    simpa [Unread, KeyboardKernel.assign, KeyboardBuffer.push, keyboardGetTailIndex] using h

/-- `keyboard_pop` returns the oldest character and removes it. -/
theorem keyboardPop_unread (hs : Attends s process) (hq : Unread s process q) :
    ∃ s', keyboardPop s = some (q.headD 0#8, s') ∧ Attends s' process ∧
      Unread s' process q.tail := by
  refine ⟨s.assign process fun _ => (s.keyboards process).pop.2, ?_, hs.assign _ _, ?_⟩
  · have hpop : keyboardPop s = some ((s.keyboards process).pop.1,
        s.assign process fun _ => (s.keyboards process).pop.2) := by
      unfold keyboardPop
      simp only [bind_get, hs.task, if_neg hs.task_ne, if_neg hs.process_ne]
      rfl
    rw [hpop]
    cases q with
    | nil => simp [KeyboardBuffer.pop, hq.head_nil (by simp)]
    | cons a q =>
      have ha : a ≠ 0#8 := fun h => hq.marker (by simp [h])
      simp [KeyboardBuffer.pop, hq.head_cons, ha]
  · cases q with
    | nil =>
      have h : (s.keyboards process).pop.2 = s.keyboards process := by
        simp [KeyboardBuffer.pop, hq.head_nil (by simp)]
      simpa [Unread, KeyboardKernel.assign, h] using hq
    | cons a q =>
      have ha : a ≠ 0#8 := fun h => hq.marker (by simp [h])
      have h := RingHolds.take bufferSize_dvd hq
      simpa [Unread, KeyboardKernel.assign, KeyboardBuffer.pop, hq.head_cons, ha] using h

/-! ## Facts about the queue -/

theorem run_queueStep_append (q : List (BitVec 8)) (a b : List KeyOp) :
    run queueStep q (a ++ b) = run queueStep (run queueStep q a) b := by
  simp [run]

/-- The results of one run after the other. -/
theorem queueResults_append (a b : List KeyOp) : ∀ q : List (BitVec 8),
    queueResults q (a ++ b) = queueResults q a ++ queueResults (run queueStep q a) b := by
  induction a with
  | nil => simp [queueResults, run]
  | cons op a ih =>
    intro q
    cases op <;> simp [queueResults, run, queueStep, ih]

theorem length_queueResults (ops : List KeyOp) : ∀ q : List (BitVec 8),
    (queueResults q ops).length = popCount ops := by
  induction ops with
  | nil => simp [queueResults, popCount]
  | cons op ops ih =>
    intro q
    cases op <;> simpa [queueResults, popCount] using ih _

/-- The pop after the calls `pre` returns the head of the queue that they leave. -/
theorem queueResults_pop (q : List (BitVec 8)) (pre post : List KeyOp) :
    (queueResults q (pre ++ .pop :: post))[popCount pre]? =
      some ((run queueStep q pre).headD 0#8) := by
  rw [queueResults_append, ← length_queueResults pre q, List.getElem?_append_right le_rfl]
  simp [queueResults]

theorem queueResults_sublist (ops : List KeyOp) : ∀ q : List (BitVec 8),
    ((queueResults q ops).filter (· ≠ 0#8)).Sublist (q ++ pushed ops) := by
  induction ops with
  | nil => simp [queueResults]
  | cons op ops ih =>
    intro q
    cases op with
    | push c => simpa [queueResults, pushed] using ih (q ++ [c])
    | pop =>
      cases q with
      | nil => simpa [queueResults, pushed] using ih []
      | cons a q =>
        have h := ih q
        simp only [queueResults, List.headD_cons, List.tail_cons, List.cons_append]
        by_cases ha : a = 0#8
        · simpa [ha, pushed] using h.cons 0#8
        · simpa [ha, pushed] using h.cons_cons a

/-- The queue holds what it held before and what was pushed. -/
theorem mem_run_queueStep (ops : List KeyOp) : ∀ (q : List (BitVec 8)) (a : BitVec 8),
    a ∈ run queueStep q ops → a ∈ q ∨ .push a ∈ ops := by
  induction ops with
  | nil =>
    intro q a ha
    exact Or.inl ha
  | cons op ops ih =>
    intro q a ha
    rcases ih _ a ha with hq | hops
    · cases op with
      | push c =>
        rcases List.mem_append.mp hq with hq | hq
        · exact Or.inl hq
        · simp_all
      | pop => exact Or.inl (List.mem_of_mem_tail hq)
    · exact Or.inr (List.mem_cons_of_mem _ hops)

theorem run_queueStep_of_no_pop (ops : List KeyOp) (hops : .pop ∉ ops) :
    ∀ q : List (BitVec 8), run queueStep q ops = q ++ pushed ops := by
  induction ops with
  | nil => simp [run, pushed]
  | cons op ops ih =>
    intro q
    simp only [List.mem_cons, not_or] at hops
    cases op with
    | push c => simpa [run, queueStep, pushed] using ih hops.2 (q ++ [c])
    | pop => simp at hops

/-! ## Runs -/

/-- The buffer simulates the queue as long as no push meets a full buffer. -/
theorem keyRun_eq (ops : List KeyOp) (hops : ∀ c, .push c ∈ ops → c ≠ 0#8) :
    ∀ (s : KeyboardKernel) (q : List (BitVec 8)), Attends s process → Unread s process q →
      Along queueStep HasRoom q ops → ∃ s', keyRun ops s = some (queueResults q ops, s') := by
  induction ops with
  | nil =>
    intro s q _ _ _
    exact ⟨s, rfl⟩
  | cons op ops ih =>
    rintro s q hs hq ⟨hroom, hrest⟩
    have hops' : ∀ c, .push c ∈ ops → c ≠ 0#8 := fun c hc => hops c (List.mem_cons_of_mem _ hc)
    cases op with
    | push c =>
      have hlt : q.length < maerosKeyboardBufferSize := hroom (by simp)
      obtain ⟨s₁, hpush, hs₁, hq₁⟩ := keyboardPush_unread hs hq (hops c (by simp)) hlt
      obtain ⟨s', hrun⟩ := ih hops' s₁ (q ++ [c]) hs₁ hq₁ hrest
      exact ⟨s', by simp only [keyRun, bind_of_some hpush, hrun, queueResults]⟩
    | pop =>
      obtain ⟨s₁, hpop, hs₁, hq₁⟩ := keyboardPop_unread hs hq
      obtain ⟨s', hrun⟩ := ih hops' s₁ q.tail hs₁ hq₁ hrest
      exact ⟨s', by simp only [keyRun, bind_of_some hpop, bind_of_some hrun, queueResults]; rfl⟩

/-- Within its capacity the keyboard buffer is a queue: every `keyboard_pop` of a run returns the
oldest unread character, and zero if and only if there is none. The run may be of any length, so the
counters may wrap. -/
theorem keyboard_refines_queue (hs : Attends s process)
    (hzero : s.keyboards process = KeyboardBuffer.zero) (ops : List KeyOp)
    (hops : ∀ c, .push c ∈ ops → c ≠ 0#8)
    (hfit : Along queueStep (fun q op => (queueStep q op).length ≤ maerosKeyboardBufferSize) [] ops) :
    ∃ cs s', keyRun ops s = some (cs, s') ∧ cs.length = popCount ops ∧
      ∀ pre post, ops = pre ++ .pop :: post → ∃ c, cs[popCount pre]? = some c ∧
        c = (run queueStep [] pre).headD 0#8 ∧ (c = 0#8 ↔ run queueStep [] pre = []) := by
  have hroom : Along queueStep HasRoom [] ops := by
    apply Along.imp _ hfit
    rintro q (c | _) hq hop
    · simp only [queueStep, List.length_append, List.length_singleton] at hq
      omega
    · simp at hop
  obtain ⟨s', hrun⟩ := keyRun_eq ops hops s [] hs (unread_zero hzero) hroom
  refine ⟨_, s', hrun, length_queueResults ops [], ?_⟩
  rintro pre post rfl
  refine ⟨_, queueResults_pop [] pre post, rfl, ?_⟩
  cases hq : run queueStep [] pre with
  | nil => simp
  | cons a q =>
    have ha : a ≠ 0#8 := by
      rcases mem_run_queueStep pre [] a (by simp [hq]) with h | h
      · simp at h
      · exact hops a (List.mem_append_left _ h)
    simpa using ha

/-- The current process of a kernel that has booted, with a cleared keyboard buffer. -/
def attendedKernel : KeyboardKernel where
  kernel :=
    { bootKernel with
      current_process := 0x1000#32
      sched := { bootKernel.sched with
        current_task := 0x2000#32
        tasks := fun _ => { Task.zero with process := 0x1000#32 } } }
  keyboards := fun _ => KeyboardBuffer.zero

theorem attendedKernel_attends : Attends attendedKernel 0x1000#32 :=
  ⟨by decide, rfl, by decide, rfl⟩

/-- Three characters, the last of them typed after the first is read, and one `keyboard_pop` more. -/
def typedAhead : List KeyOp :=
  [.push 97#8, .push 98#8, .pop, .push 99#8, .pop, .pop, .pop]

theorem keyboard_refines_queue_attendedKernel :
    ∃ s', keyRun typedAhead attendedKernel = some ([97#8, 98#8, 99#8, 0#8], s') := by
  obtain ⟨cs, s', hrun, hlen, hpop⟩ := keyboard_refines_queue attendedKernel_attends rfl typedAhead
    (by simp [typedAhead]) (by simp [Along, queueStep, typedAhead, maerosKeyboardBufferSize])
  obtain ⟨c₀, h₀, rfl, -⟩ := hpop [.push 97#8, .push 98#8] _ rfl
  obtain ⟨c₁, h₁, rfl, -⟩ := hpop [.push 97#8, .push 98#8, .pop, .push 99#8] _ rfl
  obtain ⟨c₂, h₂, rfl, -⟩ := hpop [.push 97#8, .push 98#8, .pop, .push 99#8, .pop] _ rfl
  obtain ⟨c₃, h₃, rfl, -⟩ := hpop [.push 97#8, .push 98#8, .pop, .push 99#8, .pop, .pop] _ rfl
  obtain rfl : cs = [97#8, 98#8, 99#8, 0#8] := by
    refine List.ext_getElem? fun i => ?_
    rcases i with _ | _ | _ | _ | i
    · exact h₀
    · exact h₁
    · exact h₂
    · exact h₃
    · have hend : cs.length = 4 := hlen
      rw [List.getElem?_eq_none (by omega), List.getElem?_eq_none (by simp)]
  exact ⟨s', hrun⟩

/-- What is popped is a part of what is pushed, in the order of the pushes, and a pop with a push
between it and the pop before does not report an empty buffer. -/
structure InOrder (ops : List KeyOp) (cs : List (BitVec 8)) : Prop where
  sublist : (cs.filter (· ≠ 0#8)).Sublist (pushed ops)
  delivers : ∀ pre c mid post, ops = pre ++ .push c :: mid ++ .pop :: post → .pop ∉ mid →
    cs.getD (popCount pre) 0#8 ≠ 0#8

/-- Runs in which no push meets a full buffer keep the order. -/
theorem keyboard_runs_in_order (hs : Attends s process)
    (hzero : s.keyboards process = KeyboardBuffer.zero) (ops : List KeyOp)
    (hops : ∀ c, .push c ∈ ops → c ≠ 0#8)
    (hroom : Along queueStep HasRoom [] ops) :
    ∃ cs s', keyRun ops s = some (cs, s') ∧ InOrder ops cs := by
  obtain ⟨s', hrun⟩ := keyRun_eq ops hops s [] hs (unread_zero hzero) hroom
  refine ⟨_, s', hrun, by simpa using queueResults_sublist ops [], ?_⟩
  rintro pre c mid post rfl hmid
  -- the pushes after the last pop are still in the queue
  have hqueue : run queueStep [] (pre ++ .push c :: mid) =
      run queueStep [] pre ++ c :: pushed mid := by
    rw [run_queueStep_append, run_queueStep_of_no_pop _ (by simpa using hmid)]
    simp [pushed]
  have hcount : popCount (pre ++ .push c :: mid) = popCount pre := by
    have h0 : mid.countP (· = .pop) = 0 := by
      rw [List.countP_eq_zero]
      intro op hop
      simp only [decide_eq_true_eq]
      rintro rfl
      exact hmid hop
    simp [popCount, h0]
  have hget := queueResults_pop [] (pre ++ .push c :: mid) post
  rw [hcount] at hget
  rw [List.getD_eq_getElem?_getD, hget, Option.getD_some]
  obtain ⟨a, q, hq⟩ : ∃ a q, run queueStep [] (pre ++ .push c :: mid) = a :: q :=
    List.exists_cons_of_ne_nil (by rw [hqueue]; simp)
  rw [hq, List.headD_cons]
  rcases mem_run_queueStep (pre ++ .push c :: mid) [] a (by simp [hq]) with h | h
  · simp at h
  · exact hops a (List.mem_append_left _ h)

/-- Two keys, and the first of them is read. -/
theorem keyboard_runs_in_order_attendedKernel :
    ∃ cs s', keyRun [.push 97#8, .push 98#8, .pop] attendedKernel = some (cs, s') ∧
      InOrder [.push 97#8, .push 98#8, .pop] cs := by
  apply keyboard_runs_in_order attendedKernel_attends rfl
  · simp
  · simp [Along, queueStep, HasRoom]

/-- 1024 unread characters and one more. -/
def overflowOps : List KeyOp :=
  List.replicate maerosKeyboardBufferSize (.push 97#8) ++ [.push 98#8, .pop, .pop]

theorem keyRun_overflowOps :
    (keyRun overflowOps attendedKernel).map Prod.fst = some [98#8, 97#8] := by
  decide +kernel

/-- The last character pushed is popped first. -/
theorem keyboard_overflow_reorders : ∃ cs s', keyRun overflowOps attendedKernel = some (cs, s') ∧
    (∀ c, .push c ∈ overflowOps → c ≠ 0#8) ∧ ¬ InOrder overflowOps cs := by
  have hrun := keyRun_overflowOps
  rw [Option.map_eq_some_iff] at hrun
  obtain ⟨⟨cs, s'⟩, hrun, rfl⟩ := hrun
  refine ⟨_, s', hrun, ?_, ?_⟩
  · intro c hc
    simp only [overflowOps, List.mem_append, List.mem_replicate, List.mem_cons] at hc
    simp at hc
    rcases hc with rfl | rfl <;> decide
  · intro h
    have hsub := h.sublist
    have hpushed : pushed overflowOps = List.replicate 1024 97#8 ++ [98#8] := by
      unfold pushed overflowOps
      rw [List.filterMap_append, List.filterMap_replicate]
      rfl
    rw [hpushed] at hsub
    have hrev : [97#8, 98#8].Sublist (98#8 :: List.replicate 1024 97#8) := by
      have h := hsub.reverse
      rwa [List.reverse_append, List.reverse_replicate] at h
    have hrest : [97#8, 98#8].Sublist (List.replicate 1024 97#8) := by
      rcases List.sublist_cons_iff.mp hrev with h | ⟨r, hr, -⟩
      · exact h
      · simp at hr
    have hmem : 98#8 ∈ List.replicate 1024 97#8 := hrest.subset (by simp)
    exact absurd (List.mem_replicate.mp hmem).2 (by decide)

end MaerOS.Analysis
