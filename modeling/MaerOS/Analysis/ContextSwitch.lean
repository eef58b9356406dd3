import MaerOS.Model.Switch
import MaerOS.Analysis.TaskRuns

/-!
# Context switches over whole runs

The registers of a preempted program go from the interrupt frame to the `struct
registers` of its task and, when the task is resumed, from there to the processor.
`interruptFrame_registers` and `taskReturn_registers` follow them through the three
layouts. All of them arrive but one: `task_return` takes the flags from the kernel
and not from the structure, so the program gets the kernel's flags with the
interrupt bit set.

In every run, then, a resumed task continues with the registers it was preempted
with exactly when its flags were those of the kernel with that bit set.
-/

set_option autoImplicit false

namespace MaerOS.Analysis

open MaerOS.Lib MaerOS.Model

variable (alu : BitVec 32 → BitVec 32 → BitVec 32)

/-- The registers of the processor as `struct registers` names them. -/
def registersOf (c : Cpu) : Registers :=
  { edi := c.gpr .edi, esi := c.gpr .esi, ebp := c.gpr .ebp, ebx := c.gpr .ebx
    edx := c.gpr .edx, ecx := c.gpr .ecx, eax := c.gpr .eax, ip := c.eip, cs := c.cs
    flags := c.eflags, esp := c.gpr .esp, ss := c.ss }

/-- What `task_save_state` makes of a frame. -/
def frameRegisters (frame : InterruptFrame) : Registers :=
  { edi := frame.edi, esi := frame.esi, ebp := frame.ebp, ebx := frame.ebx, edx := frame.edx
    ecx := frame.ecx, eax := frame.eax, ip := frame.ip, cs := frame.cs, flags := frame.flags
    esp := frame.esp, ss := frame.ss }

/-- **The frame the handler sees** holds the registers of the interrupted program. -/
theorem interruptFrame_registers {E : Addr} (he : E.toNat % 4 = 0) (hlow : 64 ≤ E.toNat)
    (m : Machine) :
    let framed := execAll alu (interruptEntry (slot E 0) m) (interruptCode 0x20#32)
    frameRegisters (interruptFrameAt framed.mem (load32 framed.mem (framed.gpr .esp + 8#32))) =
      registersOf m.toCpu := by
  have hslot : ∀ (mem : Memory) (v : BitVec 32) (i j : ℕ), i ≤ 16 → j ≤ 16 → i ≠ j →
      load32 (store32 mem (slot E i) v) (slot E j) = load32 mem (slot E j) :=
    fun mem v i j hi hj hij => load32_store32_slot he (by omega) (by omega) hij
  simp only [frameRegisters, registersOf, interruptFrameAt, interruptEntry, execAll,
    interruptCode, List.foldl, exec, Machine.pushWord_gpr, Machine.pushWord_mem, Machine.set_gpr,
    Machine.set_mem, slot_sub, if_true, if_false, reduceCtorEq, Nat.reduceAdd]
  simp (disch := decide) only [slot_add, Nat.reduceDiv, Nat.reduceSub, hslot, load32_store32_self]

/-- Words of a structure at an aligned address that does not wrap do not overlap. -/
theorem load32_store32_field {mem : Memory} {R v : BitVec 32} (hR : R.toNat % 4 = 0)
    (htop : R.toNat + 48 ≤ 2 ^ 32) {i j : ℕ} (hi : i % 4 = 0 ∧ i ≤ 44) (hj : j % 4 = 0 ∧ j ≤ 44)
    (hij : i ≠ j) :
    load32 (store32 mem (R + BitVec.ofNat 32 i) v) (R + BitVec.ofNat 32 j) =
      load32 mem (R + BitVec.ofNat 32 j) := by
  have h1 : (R + BitVec.ofNat 32 i).toNat = R.toNat + i := by
    rw [BitVec.toNat_add, BitVec.toNat_ofNat]
    omega
  have h2 : (R + BitVec.ofNat 32 j).toNat = R.toNat + j := by
    rw [BitVec.toNat_add, BitVec.toNat_ofNat]
    omega
  refine load32_store32_of_ne (by omega) (by omega) fun heq => ?_
  have := congrArg BitVec.toNat heq
  omega

/-- A store to a slot of the stack below a structure is not seen in the structure. -/
theorem load32_store32_stack {mem : Memory} {E R v : BitVec 32} (he : E.toNat % 4 = 0)
    (hlow : 64 ≤ E.toNat) (hR : R.toNat % 4 = 0) (hER : E.toNat ≤ R.toNat)
    (htop : R.toNat + 48 ≤ 2 ^ 32) {i off : ℕ} (hi : 1 ≤ i ∧ i ≤ 16)
    (hoff : off % 4 = 0 ∧ off ≤ 44) :
    load32 (store32 mem (slot E i) v) (R + BitVec.ofNat 32 off) =
      load32 mem (R + BitVec.ofNat 32 off) := by
  have h1 := slot_toNat (e := E) (i := i) (by omega)
  have h2 : (R + BitVec.ofNat 32 off).toNat = R.toNat + off := by
    rw [BitVec.toNat_add, BitVec.toNat_ofNat]
    omega
  refine load32_store32_of_ne (by omega) (by omega) fun heq => ?_
  have := congrArg BitVec.toNat heq
  omega

theorem Registers.words_offset (r : Registers) : ∀ w ∈ r.words, w.1 % 4 = 0 ∧ w.1 ≤ 44 := by
  simp [Registers.words]

/-- The structure laid out in memory can be read back by its offsets. -/
theorem load32_layOut {R : Addr} (hR : R.toNat % 4 = 0) (htop : R.toNat + 48 ≤ 2 ^ 32)
    (r : Registers) (mem : Memory) :
    ∀ w ∈ r.words, load32 (r.layOut mem R) (R + BitVec.ofNat 32 w.1) = w.2 := by
  have hfield : ∀ (mem : Memory) (v : BitVec 32) (i j : ℕ), i % 4 = 0 ∧ i ≤ 44 →
      j % 4 = 0 ∧ j ≤ 44 → i ≠ j → load32 (store32 mem (R + BitVec.ofNat 32 i) v)
        (R + BitVec.ofNat 32 j) = load32 mem (R + BitVec.ofNat 32 j) :=
    fun mem v i j hi hj hij => load32_store32_field hR htop hi hj hij
  simp (disch := decide) only [Registers.layOut, Registers.words, List.foldl, List.forall_mem_cons,
    hfield, load32_store32_self, List.not_mem_nil, IsEmpty.forall_iff, implies_true, and_self]

section TaskReturn

variable {E R : Addr} {m : Machine} {r : Registers}

/-- Where `task_return` runs: a stack below the structure it reads, both aligned. -/
structure ReturnAt (E R : Addr) (m : Machine) (r : Registers) : Prop where
  stack_aligned : E.toNat % 4 = 0
  stack_room : 64 ≤ E.toNat
  regs_aligned : R.toNat % 4 = 0
  below : E.toNat ≤ R.toNat
  top : R.toNat + 48 ≤ 2 ^ 32
  esp : m.gpr .esp = slot E 2
  arg : load32 m.mem (slot E 1) = R
  words : ∀ w ∈ r.words, load32 m.mem (R + BitVec.ofNat 32 w.1) = w.2

/-- A store to one of the first slots is not seen at another. -/
theorem ReturnAt.slot (h : ReturnAt E R m r) (mem : Memory) (v : BitVec 32) (i j : ℕ)
    (hi : i ≤ 16) (hj : j ≤ 16) (hij : i ≠ j) :
    load32 (store32 mem (slot E i) v) (slot E j) = load32 mem (slot E j) := by
  have := h.stack_room
  exact load32_store32_slot h.stack_aligned (by omega) (by omega) hij

/-- A push on the kernel stack leaves the registers of the task as they are. -/
theorem ReturnAt.stack (h : ReturnAt E R m r) (mem : Memory) (v : BitVec 32) (i off : ℕ)
    (hi : 1 ≤ i ∧ i ≤ 16) (hoff : off % 4 = 0 ∧ off ≤ 44) :
    load32 (store32 mem (Lib.slot E i) v) (R + BitVec.ofNat 32 off) =
      load32 mem (R + BitVec.ofNat 32 off) :=
  load32_store32_stack h.stack_aligned h.stack_room h.regs_aligned h.below h.top hi hoff

/-- `task_return` up to the push of the instruction pointer: the frame for `iretd` is built. -/
def taskReturnFrame : List Instr := taskReturn.take 10

/-- The call of `restore_general_purpose_registers` up to its reading of the argument. -/
def taskReturnCall : List Instr := (taskReturn.drop 10).take 6

/-- The loads of the general registers. -/
def taskReturnLoads : List Instr := (taskReturn.drop 16).take 7

/-- The way out. -/
def taskReturnLeave : List Instr := taskReturn.drop 23

/-- The memory once the frame is built. -/
def frameMemory (E : Addr) (m : Machine) (r : Registers) : Memory :=
  store32 (store32 (store32 (store32 (store32 (store32 m.mem (slot E 3) r.ss) (slot E 4) r.esp)
    (slot E 5) m.eflags) (slot E 5) (m.eflags ||| 0x200#32)) (slot E 6) r.cs) (slot E 7) r.ip

/-- The first part. -/
theorem taskReturnFrame_spec (h : ReturnAt E R m r) :
    (execAll alu m taskReturnFrame).gpr .esp = slot E 7 ∧
      (execAll alu m taskReturnFrame).gpr .ebx = R ∧
      (execAll alu m taskReturnFrame).gpr .ebp = slot E 2 ∧
      (execAll alu m taskReturnFrame).mem = frameMemory E m r := by
  have hr := h.words
  have hstack := h.stack
  have hesp := h.esp
  have harg := h.arg
  simp only [Registers.words, List.forall_mem_cons] at hr
  obtain ⟨-, -, -, -, -, -, -, h28, h32, -, h40, h44, -⟩ := hr
  simp (disch := decide) only [execAll, taskReturnFrame, taskReturn, List.cons_append,
    List.take_succ_cons, List.take_zero, List.foldl, exec, frameMemory, Machine.at, Machine.top,
    Machine.drop, Machine.pushWord_gpr, Machine.pushWord_mem, Machine.set_gpr, Machine.set_mem,
    Machine.pushWord_eflags, Machine.set_eflags, slot_sub, slot_add, hesp, if_true, if_false,
    reduceCtorEq, Nat.reduceAdd, Nat.reduceDiv, Nat.reduceSub, hstack, harg,
    load32_store32_self, h28, h32, h40, h44, and_self]

/-- The second part leaves the frame and the structure alone. -/
theorem taskReturnCall_spec (h : ReturnAt E R m r) {m₁ : Machine} (hesp : m₁.gpr .esp = slot E 7)
    (hebp : m₁.gpr .ebp = slot E 2) (harg : load32 m₁.mem (slot E 1) = R) :
    (execAll alu m₁ taskReturnCall).gpr .esp = slot E 10 ∧
      (execAll alu m₁ taskReturnCall).gpr .ebx = R ∧
      (∀ i, 1 ≤ i ∧ i ≤ 7 → load32 (execAll alu m₁ taskReturnCall).mem (slot E i) =
        load32 m₁.mem (slot E i)) ∧
      ∀ off, off % 4 = 0 ∧ off ≤ 44 →
        load32 (execAll alu m₁ taskReturnCall).mem (R + BitVec.ofNat 32 off) =
          load32 m₁.mem (R + BitVec.ofNat 32 off) := by
  have hslot := h.slot
  have hmem : ∃ v w, (execAll alu m₁ taskReturnCall).mem =
      store32 (store32 (store32 m₁.mem (slot E 8) R) (slot E 9) v) (slot E 10) w := by
    refine ⟨m₁.eip, slot E 2, ?_⟩
    simp (disch := decide) only [execAll, taskReturnCall, taskReturn,
      restoreGeneralPurposeRegisters, List.cons_append, List.nil_append, List.drop_succ_cons,
      List.drop_zero,
      List.take_succ_cons, List.take_zero, List.foldl, exec, Machine.at, Machine.pushWord_gpr,
      Machine.pushWord_mem, Machine.set_gpr, Machine.set_mem, slot_sub, slot_add, hesp, hebp,
      if_true, if_false, reduceCtorEq, Nat.reduceAdd, Nat.reduceDiv, Nat.reduceSub, harg]
    rfl
  refine ⟨?_, ?_, ?_, ?_⟩
  · simp (disch := decide) only [execAll, taskReturnCall, taskReturn,
      restoreGeneralPurposeRegisters, List.cons_append, List.nil_append, List.drop_succ_cons,
      List.drop_zero,
      List.take_succ_cons, List.take_zero, List.foldl, exec, Machine.pushWord_gpr,
      Machine.set_gpr, slot_sub, hesp, if_true, if_false, reduceCtorEq, Nat.reduceAdd]
  · simp (disch := decide) only [execAll, taskReturnCall, taskReturn,
      restoreGeneralPurposeRegisters, List.cons_append, List.nil_append, List.drop_succ_cons,
      List.drop_zero,
      List.take_succ_cons, List.take_zero, List.foldl, exec, Machine.at, Machine.pushWord_gpr,
      Machine.pushWord_mem, Machine.set_gpr, Machine.set_mem, slot_sub, slot_add, hesp, hebp,
      if_true, if_false, reduceCtorEq, Nat.reduceAdd, Nat.reduceDiv, Nat.reduceSub, harg,
      hslot, load32_store32_self]
  · obtain ⟨v, w, hmem⟩ := hmem
    intro i hi
    rw [hmem, h.slot _ _ _ _ (by omega) (by omega) (by omega),
      h.slot _ _ _ _ (by omega) (by omega) (by omega),
      h.slot _ _ _ _ (by omega) (by omega) (by omega)]
  · obtain ⟨v, w, hmem⟩ := hmem
    intro off hoff
    rw [hmem, h.stack _ _ _ _ (by omega) hoff, h.stack _ _ _ _ (by omega) hoff,
      h.stack _ _ _ _ (by omega) hoff]

/-- The third part loads the general registers from the structure. -/
theorem taskReturnLoads_spec {m₂ : Machine} (hebx : m₂.gpr .ebx = R)
    (hr : ∀ w ∈ r.words, load32 m₂.mem (R + BitVec.ofNat 32 w.1) = w.2) :
    (execAll alu m₂ taskReturnLoads).mem = m₂.mem ∧
      (execAll alu m₂ taskReturnLoads).gpr .esp = m₂.gpr .esp ∧
      (execAll alu m₂ taskReturnLoads).gpr .edi = r.edi ∧
      (execAll alu m₂ taskReturnLoads).gpr .esi = r.esi ∧
      (execAll alu m₂ taskReturnLoads).gpr .ebp = r.ebp ∧
      (execAll alu m₂ taskReturnLoads).gpr .edx = r.edx ∧
      (execAll alu m₂ taskReturnLoads).gpr .ecx = r.ecx ∧
      (execAll alu m₂ taskReturnLoads).gpr .eax = r.eax ∧
      (execAll alu m₂ taskReturnLoads).gpr .ebx = r.ebx := by
  simp only [Registers.words, List.forall_mem_cons] at hr
  obtain ⟨h0, h4, h8, h12, h16, h20, h24, -⟩ := hr
  simp only [execAll, taskReturnLoads, taskReturn, restoreGeneralPurposeRegisters,
    List.cons_append, List.nil_append, List.drop_succ_cons, List.drop_zero, List.take_succ_cons,
    List.take_zero,
    List.foldl, exec, Machine.at, Machine.set_gpr, Machine.set_mem, hebx, if_true, if_false,
    reduceCtorEq, h0, h4, h8, h12, h16, h20, h24, and_self]

/-- What the last three instructions of `task_return` leave in the registers. -/
theorem taskReturnLeave_spec {m₃ : Machine} (hesp : m₃.gpr .esp = slot E 10) :
    registersOf (execAll alu m₃ taskReturnLeave).toCpu =
      { edi := m₃.gpr .edi, esi := m₃.gpr .esi, ebp := m₃.gpr .ebp, ebx := m₃.gpr .ebx
        edx := m₃.gpr .edx, ecx := m₃.gpr .ecx, eax := m₃.gpr .eax
        ip := load32 m₃.mem (slot E 7), cs := load32 m₃.mem (slot E 6)
        flags := load32 m₃.mem (slot E 5), esp := load32 m₃.mem (slot E 4)
        ss := load32 m₃.mem (slot E 3) } := by
  simp (disch := decide) only [registersOf, execAll, taskReturnLeave, taskReturn,
    restoreGeneralPurposeRegisters, List.cons_append, List.nil_append, List.drop_succ_cons,
    List.drop_zero, List.foldl, exec, Machine.top, Machine.drop, Machine.set_gpr,
    Machine.set_mem, slot_add, hesp, if_true, if_false, reduceCtorEq, Nat.reduceDiv,
    Nat.reduceSub]

/-- **`task_return`** loads all registers from the structure, but the flags from the kernel's
flags, with the interrupt bit set. -/
theorem taskReturn_registers (h : ReturnAt E R m r) :
    registersOf (execAll alu m taskReturn).toCpu = { r with flags := m.eflags ||| 0x200#32 } := by
  have hparts : taskReturn = taskReturnFrame ++
      (taskReturnCall ++ (taskReturnLoads ++ taskReturnLeave)) := rfl
  rw [hparts, execAll_append, execAll_append, execAll_append]
  obtain ⟨hesp₁, -, hebp₁, hmem₁⟩ := taskReturnFrame_spec alu h
  have harg₁ : load32 (execAll alu m taskReturnFrame).mem (slot E 1) = R := by
    have hslot := h.slot
    rw [hmem₁]
    unfold frameMemory
    simp (disch := decide) only [hslot, h.arg]
  have hr₁ : ∀ w ∈ r.words,
      load32 (execAll alu m taskReturnFrame).mem (R + BitVec.ofNat 32 w.1) = w.2 := by
    intro w hw
    have hoff := Registers.words_offset r w hw
    rw [hmem₁]
    unfold frameMemory
    rw [h.stack _ _ _ _ (by omega) hoff, h.stack _ _ _ _ (by omega) hoff,
      h.stack _ _ _ _ (by omega) hoff, h.stack _ _ _ _ (by omega) hoff,
      h.stack _ _ _ _ (by omega) hoff, h.stack _ _ _ _ (by omega) hoff, h.words w hw]
  generalize execAll alu m taskReturnFrame = m₁ at *
  obtain ⟨hesp₂, hebx₂, hslots₂, hfields₂⟩ := taskReturnCall_spec alu h hesp₁ hebp₁ harg₁
  have hr₂ : ∀ w ∈ r.words,
      load32 (execAll alu m₁ taskReturnCall).mem (R + BitVec.ofNat 32 w.1) = w.2 := by
    intro w hw
    rw [hfields₂ w.1 (Registers.words_offset r w hw), hr₁ w hw]
  generalize execAll alu m₁ taskReturnCall = m₂ at *
  obtain ⟨hmem₃, hesp₃, h1, h2, h3, h4, h5, h6, h7⟩ := taskReturnLoads_spec alu hebx₂ hr₂
  rw [hesp₂] at hesp₃
  rw [taskReturnLeave_spec alu hesp₃, hmem₃, h1, h2, h3, h4, h5, h6, h7,
    hslots₂ 7 (by omega), hslots₂ 6 (by omega), hslots₂ 5 (by omega), hslots₂ 4 (by omega),
    hslots₂ 3 (by omega), hmem₁]
  have hslot := h.slot
  unfold frameMemory
  simp (disch := decide) only [hslot, load32_store32_self]

end TaskReturn

/-! ## One timer interrupt -/

/-- The kernel calls `task_return` on its stack. -/
structure OnKernelStack (e : Timer) : Prop where
  aligned : (e.kernel.gpr .esp).toNat % 4 = 0
  room : 56 ≤ (e.kernel.gpr .esp).toNat
  below : (e.kernel.gpr .esp).toNat + 8 ≤ tssEsp0.toNat

/-- The task is a block of the kernel heap, above the kernel stack. -/
structure Placed (task : Addr) : Prop where
  aligned : task.toNat % 4 = 0
  above : 0x01000000 ≤ task.toNat
  inside : task.toNat + 64 ≤ 2 ^ 32

/-- The entry of `task_return` is as `taskReturn_registers` needs it. -/
theorem returnAt_entry {e : Timer} (he : OnKernelStack e) (mem : Memory) (s : TaskList) {task : Addr}
    (ht : Placed task) :
    ReturnAt (e.kernel.gpr .esp + 8#32) (registersAddr task) (taskReturnEntry e mem s task)
      (s.tasks task).registers := by
  have h1 := he.aligned
  have h2 := he.room
  have h3 := he.below
  have h4 := ht.aligned
  have h5 := ht.above
  have h6 := ht.inside
  have hesp0 : tssEsp0.toNat = 0x600000 := rfl
  have hE : (e.kernel.gpr .esp + 8#32).toNat = (e.kernel.gpr .esp).toNat + 8 := by
    rw [BitVec.toNat_add]
    simp only [BitVec.toNat_ofNat]
    omega
  have hR : (registersAddr task).toNat = task.toNat + 4 := by
    unfold registersAddr
    rw [BitVec.toNat_add]
    simp only [BitVec.toNat_ofNat]
    omega
  have hslot1 : slot (e.kernel.gpr .esp + 8#32) 1 = e.kernel.gpr .esp + 4#32 := by
    unfold slot
    bv_omega
  refine ⟨by omega, by omega, by omega, by omega, by omega, ?_, ?_, ?_⟩
  · unfold taskReturnEntry slot
    dsimp only
    bv_omega
  · rw [hslot1]
    exact load32_store32_self _ _ _
  · intro w hw
    unfold taskReturnEntry
    dsimp only
    rw [← hslot1, load32_store32_stack (by omega) (by omega) (by omega) (by omega) (by omega)
      (by omega) (Registers.words_offset _ w hw)]
    exact load32_layOut (by omega) (by omega) _ _ w hw

/-- The task list with the registers of the interrupted program saved to the current task. -/
def savedTasks (c : Core) (e : Timer) : TaskList :=
  c.sched.assign c.sched.current_task fun t => { t with registers := registersOf e.user }

/-- **One timer interrupt**: the current task gets the registers of the interrupted program, the
task after it becomes the current one, and the processor resumes with the registers of that task,
but with the kernel's flags. -/
theorem idtClock_some {c c' : Core} {e : Timer} {cpu : Cpu}
    (h : idtClock alu c e = some (c', cpu)) (he : OnKernelStack e) :
    c'.sched.tasks = (savedTasks c e).tasks ∧ c'.sched.task_head = c.sched.task_head ∧
    c'.sched.task_tail = c.sched.task_tail ∧
    c'.sched.current_task = taskGetNext (savedTasks c e) ∧
    c'.preempted = Function.update c.preempted c.sched.current_task (some e.user) ∧
    (Placed c'.sched.current_task → registersOf cpu =
      { (c'.sched.tasks c'.sched.current_task).registers with
        flags := e.kernel.eflags ||| 0x200#32 }) := by
  have hframe := interruptFrame_registers alu (E := tssEsp0) (by decide) (by decide)
    { e.user with mem := e.mem }
  rw [slot_zero] at hframe
  unfold idtClock at h
  dsimp only at h hframe
  generalize execAll alu (interruptEntry tssEsp0 { e.user with mem := e.mem })
    (interruptCode 0x20#32) = framed at h hframe
  have hsave : ∀ s task, taskSaveState s task
      (interruptFrameAt framed.mem (load32 framed.mem (framed.gpr .esp + 8#32))) =
      s.assign task fun t => { t with registers := registersOf e.user } := by
    intro s task
    rw [← hframe]
    rfl
  rw [hsave] at h
  split at h
  · cases h
  · split at h
    · cases h
    · cases h
      refine ⟨rfl, rfl, rfl, rfl, rfl, fun hplaced => ?_⟩
      exact taskReturn_registers alu (returnAt_entry he framed.mem _ hplaced)

/-- Saving registers changes no link. -/
theorem taskGetNext_assign_registers (s : TaskList) (task : Addr) (f : Task → Registers) :
    taskGetNext (s.assign task fun t => { t with registers := f t }) = taskGetNext s := by
  have hnext : ∀ t, ((s.assign task fun t => { t with registers := f t }).tasks t).next =
      (s.tasks t).next := by
    intro t
    rw [assign_tasks]
    split <;> rfl
  unfold taskGetNext
  rw [hnext]
  rfl

/-- The interrupt returns if there is a task to go on with. -/
theorem idtClock_outcome {c : Core} (hcur : c.sched.current_task ≠ 0#32)
    (hnext : taskGetNext c.sched ≠ 0#32) (e : Timer) :
    ∃ c' cpu, idtClock alu c e = some (c', cpu) := by
  unfold idtClock taskSaveState
  dsimp only
  rw [if_neg hcur, taskGetNext_assign_registers, if_neg hnext]
  exact ⟨_, _, rfl⟩

/-! ## Runs -/

/-- One timer interrupt as a step. -/
def Core.step (c : Core) (e : Timer) : Option Core := (idtClock alu c e).map Prod.fst

/-- The invariant: the list represents the live tasks, and a task that was preempted still has the
registers it was preempted with. -/
structure Core.Inv (live : List Addr) (c : Core) : Prop where
  list : Represents c.sched live
  kept : ∀ t u, c.preempted t = some u → (c.sched.tasks t).registers = registersOf u

/-- The task after the current one is live. -/
theorem Represents.next_mem {s : TaskList} {live : List Addr} (h : Represents s live)
    (hne : live ≠ []) : taskGetNext s ∈ live := by
  have hcur := h.current.resolve_left fun hc => hne hc.1
  unfold taskGetNext
  split
  · rw [h.head]
    exact headD_mem hne
  · rename_i hnext
    exact (h.linked.mem_links _ hcur).1.resolve_left hnext

/-- **One step** keeps the invariant. -/
theorem Core.Inv.step {live : List Addr} {c c' : Core} {e : Timer} {cpu : Cpu}
    (hinv : Core.Inv live c) (hne : live ≠ []) (he : OnKernelStack e)
    (h : idtClock alu c e = some (c', cpu)) : Core.Inv live c' := by
  obtain ⟨htasks, hhead, htail, hcur, hpre, -⟩ := idtClock_some alu h he
  have hsaved : ∀ t, (savedTasks c e).tasks t = if t = c.sched.current_task then
      { c.sched.tasks t with registers := registersOf e.user } else c.sched.tasks t :=
    fun t => assign_tasks _ _ _ _
  -- as far as its links go, the list is what it was
  have hlinked : Linked (nextOf (savedTasks c e)) (prevOf (savedTasks c e)) 0#32 live 0#32 := by
    refine hinv.list.linked.congr (fun t _ => ?_) (fun t _ => ?_)
    · unfold nextOf
      rw [hsaved]
      split <;> rfl
    · unfold prevOf
      rw [hsaved]
      split <;> rfl
  have hlist : Represents (savedTasks c e) live :=
    ⟨hinv.list.nodup, hinv.list.nonnull, hlinked, hinv.list.head, hinv.list.tail,
      hinv.list.current⟩
  refine ⟨⟨hinv.list.nodup, hinv.list.nonnull, ?_, ?_, ?_, .inr ?_⟩, ?_⟩
  · unfold nextOf prevOf
    rw [htasks]
    exact hlinked
  · rw [hhead]
    exact hinv.list.head
  · rw [htail]
    exact hinv.list.tail
  · rw [hcur]
    exact hlist.next_mem hne
  · intro t u hu
    rw [hpre] at hu
    rw [htasks, hsaved]
    by_cases ht : t = c.sched.current_task
    · rw [ht, Function.update_self] at hu
      rw [if_pos ht]
      cases hu
      rfl
    · rw [Function.update_of_ne ht] at hu
      rw [if_neg ht]
      exact hinv.kept t u hu

/-- Structures that differ in the flags only are equal when the flags are. -/
theorem registers_eq_iff_flags (r : Registers) (f : BitVec 32) :
    { r with flags := f } = r ↔ r.flags = f := by
  constructor
  · intro h
    exact (congrArg Registers.flags h).symm
  · rintro rfl
    rfl

/-- **Context switches over whole runs.** Take any list of tasks, none of which was preempted yet,
and any sequence of timer interrupts. Whenever the next interrupt resumes a task that was
preempted, the processor resumes with the registers it was preempted with, flags included, exactly
when these flags are the flags of the kernel in `task_return` with the interrupt bit set. -/
theorem context_switch_runs (live : List Addr) (start : Core)
    (hlist : Represents start.sched live) (hne : live ≠ []) (hplaced : ∀ t ∈ live, Placed t)
    (hfresh : ∀ t, start.preempted t = none) (events : List Timer)
    (hstack : ∀ e ∈ events, OnKernelStack e) (c : Core)
    (hrun : runPartial (Core.step alu) start events = some c) (e : Timer) (he : OnKernelStack e)
    (c' : Core) (cpu : Cpu) (hstep : idtClock alu c e = some (c', cpu)) (u : Cpu)
    (hu : c'.preempted c'.sched.current_task = some u) :
    registersOf cpu = registersOf u ↔ u.eflags = e.kernel.eflags ||| 0x200#32 := by
  have hstart : Core.Inv live start := ⟨hlist, fun t u hu => by rw [hfresh t] at hu; cases hu⟩
  have hinv : Core.Inv live c := by
    refine runPartial_invariant (C := fun _ e => OnKernelStack e) ?_ events start c hstart ?_ hrun
    · intro s e s' hs he hstep
      obtain ⟨⟨c₁, cpu₁⟩, hclock, rfl⟩ := Option.map_eq_some_iff.mp hstep
      exact hs.step alu hne he hclock
    · exact alongPartial_of_forall hstack
  have hinv' := hinv.step alu hne he hstep
  obtain ⟨-, -, -, -, -, hregs⟩ := idtClock_some alu hstep he
  have hcur := hinv'.list.current.resolve_left fun hc => hne hc.1
  rw [hregs (hplaced _ hcur), hinv'.kept _ u hu]
  exact registers_eq_iff_flags (registersOf u) _

/-- A processor with all registers zero but the stack pointer and the flags. -/
def plainCpu (esp eflags : BitVec 32) : Cpu :=
  { gpr := fun r => if r = .esp then esp else 0#32, eip := 0x400000#32, cs := userCodeSegment
    ss := userDataSegment, eflags := eflags }

/-- One task, which is running. -/
def oneTask : Core :=
  { sched := ⟨fun _ => Task.zero, 0x01000000#32, 0x01000000#32, 0x01000000#32⟩
    preempted := fun _ => none }

/-- The task is interrupted with the flags `eflags` and resumed at once; the flags of the kernel
are `0x46`. -/
def oneTick (eflags : BitVec 32) : Timer :=
  { user := plainCpu 0x3ff000#32 eflags, mem := fun _ => 0#8, kernel := plainCpu 0x5fff00#32 0x46#32 }

/-- The list of the one task. -/
theorem represents_oneTask : Represents oneTask.sched [0x01000000#32] :=
  ⟨by simp, by decide, ⟨rfl, rfl, trivial⟩, rfl, rfl, .inr List.mem_cons_self⟩

theorem placed_oneTask : ∀ t ∈ [0x01000000#32], Placed t := by
  intro t ht
  rw [List.mem_singleton] at ht
  subst ht
  exact ⟨by decide, by decide, by decide⟩

theorem onKernelStack_oneTick (eflags : BitVec 32) : OnKernelStack (oneTick eflags) := by
  have hesp : (oneTick eflags).kernel.gpr .esp = 0x5fff00#32 := rfl
  refine ⟨?_, ?_, ?_⟩ <;> rw [hesp] <;> decide

/-- The tick resumes the one task, which was preempted by it. -/
theorem idtClock_oneTick (eflags : BitVec 32) : ∃ c' cpu,
    idtClock (fun f _ => f) oneTask (oneTick eflags) = some (c', cpu) ∧
      c'.preempted c'.sched.current_task = some (oneTick eflags).user := by
  refine ⟨_, _, rfl, ?_⟩
  rfl

/-- Two tasks, the first of which is running. -/
def twoTasks : Core :=
  { sched := ⟨fun t => if t = 0x01000000#32 then { Task.zero with next := 0x01001000#32 }
      else if t = 0x01001000#32 then { Task.zero with prev := 0x01000000#32 } else Task.zero,
      0x01000000#32, 0x01001000#32, 0x01000000#32⟩
    preempted := fun _ => none }

/-- The running task is interrupted with `eax` in that register and the flags `0x246`. -/
def tickAt (eax : BitVec 32) : Timer :=
  { user := { plainCpu 0x3ff000#32 0x246#32 with
      gpr := Function.update (plainCpu 0x3ff000#32 0x246#32).gpr .eax eax }
    mem := fun _ => 0#8, kernel := plainCpu 0x5fff00#32 0x46#32 }

/-- The list of the two tasks. -/
theorem represents_twoTasks : Represents twoTasks.sched [0x01000000#32, 0x01001000#32] :=
  ⟨by decide, by decide, ⟨rfl, rfl, rfl, rfl, trivial⟩, rfl, rfl, .inr List.mem_cons_self⟩

/-- The links of `c` are those of the two tasks, and `task` is running. -/
structure TwoTurn (c : Core) (task : Addr) : Prop where
  next : ∀ t, (c.sched.tasks t).next = (twoTasks.sched.tasks t).next
  head : c.sched.task_head = 0x01000000#32
  current : c.sched.current_task = task

/-- A tick gives the turn to the other task. -/
theorem TwoTurn.tick {c : Core} {task other : Addr} (h : TwoTurn c task) (hne : task ≠ 0#32)
    (hnext : taskGetNext { twoTasks.sched with current_task := task } = other)
    (hother : other ≠ 0#32) {e : Timer} (he : OnKernelStack e) :
    ∃ c' cpu, idtClock (fun f _ => f) c e = some (c', cpu) ∧ TwoTurn c' other ∧
      c'.preempted = Function.update c.preempted task (some e.user) := by
  have hturn : taskGetNext c.sched = other := by
    rw [← hnext]
    unfold taskGetNext
    rw [h.next, h.head, h.current]
    rfl
  obtain ⟨c', cpu, hstep⟩ := idtClock_outcome (fun f _ => f) (h.current ▸ hne)
    (hturn ▸ hother) e
  obtain ⟨htasks, hhead, -, hcur, hpre, -⟩ := idtClock_some _ hstep he
  refine ⟨c', cpu, hstep, ⟨fun t => ?_, hhead.trans h.head, ?_⟩, h.current ▸ hpre⟩
  · rw [htasks, ← h.next]
    unfold savedTasks
    rw [assign_tasks]
    split <;> rfl
  · rw [hcur]
    unfold savedTasks
    rw [taskGetNext_assign_registers, hturn]

/-- **Two programs take turns** for three ticks; the fourth resumes the first one, whose flags are
those of the kernel, with the registers it had at the third. -/
theorem context_switch_twoTasks : ∃ c c' cpu,
    runPartial (Core.step fun f _ => f) twoTasks [tickAt 1#32, tickAt 2#32, tickAt 3#32] = some c ∧
      idtClock (fun f _ => f) c (tickAt 4#32) = some (c', cpu) ∧
      c'.sched.current_task = 0x01000000#32 ∧ registersOf cpu = registersOf (tickAt 3#32).user := by
  have hplaced : ∀ t ∈ [0x01000000#32, 0x01001000#32], Placed t := by
    intro t ht
    rcases List.mem_pair.mp ht with rfl | rfl <;> exact ⟨by decide, by decide, by decide⟩
  have hstack : ∀ eax, OnKernelStack (tickAt eax) := by
    intro eax
    have hesp : (tickAt eax).kernel.gpr .esp = 0x5fff00#32 := rfl
    refine ⟨?_, ?_, ?_⟩ <;> rw [hesp] <;> decide
  have hstart : TwoTurn twoTasks 0x01000000#32 := ⟨fun _ => rfl, rfl, rfl⟩
  have hfirst : taskGetNext { twoTasks.sched with current_task := 0x01000000#32 } =
      0x01001000#32 := rfl
  have hsecond : taskGetNext { twoTasks.sched with current_task := 0x01001000#32 } =
      0x01000000#32 := rfl
  obtain ⟨c₁, cpu₁, h₁, hturn₁, -⟩ := hstart.tick (by decide) hfirst (by decide) (hstack 1#32)
  obtain ⟨c₂, cpu₂, h₂, hturn₂, -⟩ := hturn₁.tick (by decide) hsecond (by decide) (hstack 2#32)
  obtain ⟨c₃, cpu₃, h₃, hturn₃, hpre₃⟩ := hturn₂.tick (by decide) hfirst (by decide) (hstack 3#32)
  obtain ⟨c₄, cpu₄, h₄, hturn₄, hpre₄⟩ := hturn₃.tick (by decide) hsecond (by decide) (hstack 4#32)
  have hrun : runPartial (Core.step fun f _ => f) twoTasks
      [tickAt 1#32, tickAt 2#32, tickAt 3#32] = some c₃ := by
    simp only [runPartial_cons, Core.step, h₁, h₂, h₃, Option.map_some, Option.bind_some]
    rfl
  have hu : c₄.preempted c₄.sched.current_task = some (tickAt 3#32).user := by
    rw [hturn₄.current, hpre₄, Function.update_of_ne (by decide), hpre₃, Function.update_self]
  refine ⟨c₃, c₄, cpu₄, hrun, h₄, hturn₄.current, ?_⟩
  refine (context_switch_runs (fun f _ => f) _ twoTasks represents_twoTasks (by decide) hplaced
    (fun _ => rfl) _ (fun e he => ?_) c₃ hrun (tickAt 4#32) (hstack _) c₄ cpu₄ h₄ _ hu).mpr
      (by decide)
  rcases List.mem_cons.mp he with rfl | he
  · exact hstack _
  · rcases List.mem_pair.mp he with rfl | rfl <;> exact hstack _

/-- A program interrupted with the carry flag set is resumed without it. -/
theorem context_switch_loses_carry : ∃ c' cpu,
    idtClock (fun f _ => f) oneTask (oneTick 0x203#32) = some (c', cpu) ∧
      c'.preempted c'.sched.current_task = some (oneTick 0x203#32).user ∧
      ¬ registersOf cpu = registersOf (oneTick 0x203#32).user := by
  obtain ⟨c', cpu, hstep, hu⟩ := idtClock_oneTick 0x203#32
  refine ⟨c', cpu, hstep, hu, fun heq => ?_⟩
  have hinv : Core.Inv [0x01000000#32] oneTask := ⟨represents_oneTask, fun t u h => by cases h⟩
  have hcur := (hinv.step _ (by simp) (onKernelStack_oneTick _) hstep).list.current.resolve_left
    (by simp)
  obtain ⟨-, -, -, -, -, hregs⟩ := idtClock_some _ hstep (onKernelStack_oneTick _)
  rw [hregs (placed_oneTask _ hcur)] at heq
  have hflags : (0x46#32 ||| 0x200#32 : BitVec 32) = 0x203#32 := congrArg Registers.flags heq
  exact absurd hflags (by decide)

end MaerOS.Analysis
