import MaerOS.Model.Interrupt
import MaerOS.Analysis.ContextSwitch

/-!
# System calls return to the program

The frame that `isr80h_wrapper` builds is the one of the library, so the program goes on
with its registers, `eax` apart, which has the result of the handler. What the handler
in C has to do for that is in `Returned`: the stack pointer is back where the call
found it, and the frame is as it was. `stub_call_returns` puts the stub of the program
around this: its caller finds all registers as they were, and the handler finds the number
of the command, the registers of the program and, on the stack they point to, the argument.
Of memory, the way in takes the kernel stack and the two words below the caller's, and the
way out the word where the result is kept.
-/

set_option autoImplicit false

namespace MaerOS.Analysis

open MaerOS.Lib MaerOS.Model

variable (alu : BitVec 32 → BitVec 32 → BitVec 32)

/-! ## The call of the handler -/

/-- An aligned word that is not one of the first 16 of the kernel stack. -/
structure OffStack (a : Addr) : Prop where
  aligned : a.toNat % 4 = 0
  off : a.toNat + 64 < tssEsp0.toNat ∨ tssEsp0.toNat ≤ a.toNat

/-- A store to the kernel stack is not seen elsewhere. -/
theorem OffStack.skip {a : Addr} (h : OffStack a) (mem : Memory) (v : BitVec 32) (i : ℕ)
    (hi : 1 ≤ i ∧ i ≤ 16) : load32 (store32 mem (slot tssEsp0 i) v) a = load32 mem a := by
  have hesp0 : tssEsp0.toNat = 0x600000 := rfl
  have hslot := slot_toNat (e := tssEsp0) (i := i) (by omega)
  have hoff := h.off
  refine load32_store32_of_ne (by omega) h.aligned fun heq => ?_
  have := congrArg BitVec.toNat heq
  omega

/-- A store elsewhere is not seen on the kernel stack. -/
theorem OffStack.keep {a : Addr} (h : OffStack a) (mem : Memory) (v : BitVec 32) (i : ℕ)
    (hi : 1 ≤ i ∧ i ≤ 16) :
    load32 (store32 mem a v) (slot tssEsp0 i) = load32 mem (slot tssEsp0 i) := by
  have hesp0 : tssEsp0.toNat = 0x600000 := rfl
  have hslot := slot_toNat (e := tssEsp0) (i := i) (by omega)
  have hoff := h.off
  refine load32_store32_of_ne h.aligned (by omega) fun heq => ?_
  have := congrArg BitVec.toNat heq
  omega

/-- The entry of an interrupt, where `x` pushes the word `w`. -/
theorem called_entry (m : Machine) {x : Instr} {w : BitVec 32}
    (hx : ∀ m' : Machine, m'.gpr .eax = m.gpr .eax → exec alu m' x = m'.pushWord w) :
    Called tssEsp0 m.toCpu w
        (execAll alu (interruptEntry tssEsp0 m) [.pushad, .push .esp, x, .call]) ∧
      ∀ a, OffStack a →
        load32 (execAll alu (interruptEntry tssEsp0 m) [.pushad, .push .esp, x, .call]).mem a =
          load32 m.mem a := by
  have hesp0 : tssEsp0.toNat = 0x600000 := rfl
  have hframe := frameAt_entry alu (E := tssEsp0) (by decide) (by omega) m
  have hgpr := entry_gpr alu (E := tssEsp0) m
  have hmem := fun {a : Addr} (ha : OffStack a) => entry_mem alu (E := tssEsp0) (by decide) (by omega)
    m ha.aligned fun i h1 hi heq => by
      have hslot := slot_toNat (e := tssEsp0) (i := i) (by omega)
      have hoff := ha.off
      rw [heq] at hoff
      omega
  rw [slot_zero] at hframe hgpr hmem
  have hsplit : execAll alu (interruptEntry tssEsp0 m) [.pushad, .push .esp, x, .call] =
      exec alu (exec alu (exec alu (exec alu (interruptEntry tssEsp0 m) .pushad) (.push .esp)) x)
        .call := rfl
  rw [hsplit]
  generalize exec alu (interruptEntry tssEsp0 m) .pushad = m₁ at *
  have hesp₁ : m₁.gpr .esp = slot tssEsp0 13 := by rw [hgpr, if_pos rfl]
  have hpush : exec alu m₁ (.push .esp) = m₁.pushWord (slot tssEsp0 13) := by
    show m₁.pushWord (m₁.gpr .esp) = _
    rw [hesp₁]
  rw [hpush, hx _ (by rw [Machine.pushWord_gpr, if_neg (by decide), hgpr, if_neg (by decide)])]
  refine ⟨called_frame alu (by decide) (by omega) hframe hesp₁ w, fun a ha => ?_⟩
  rw [(pushed_call alu (w := w) hesp₁).2, ha.skip _ _ _ (by omega), ha.skip _ _ _ (by omega),
    ha.skip _ _ _ (by omega), hmem ha]

/-- What the C calling convention promises of a handler that returns: the return address is off the
stack, and the frame is as the handler found it. -/
structure Returned (E : Addr) (framed m₁ : Machine) : Prop where
  esp : m₁.gpr .esp = slot E 15
  frame : ∀ i, 1 ≤ i → i ≤ 13 → load32 m₁.mem (slot E i) = load32 framed.mem (slot E i)

section Exit

variable {cpu : Cpu} {m₁ : Machine}

/-- The machine when the arguments of the handler are off the stack. -/
def dropArguments (m : Machine) : Machine := exec alu m (.add .esp 8#32)

/-- The stack pointer is then at the frame. -/
theorem dropArguments_esp {E : BitVec 32} {m : Machine} (hesp : m.gpr .esp = slot E 15) :
    (dropArguments alu m).gpr .esp = slot E 13 := by
  unfold dropArguments
  simp (disch := decide) only [exec, Machine.set_gpr, hesp, slot_add, if_true, Nat.reduceDiv,
    Nat.reduceSub]

/-- **A system call ends** with the result of the handler in `eax` and all other registers as they
were. -/
theorem isr80hExit_leave (hframe : FrameAt tssEsp0 cpu m₁.mem)
    (hesp : m₁.gpr .esp = slot tssEsp0 15) {tmp_res : Addr} (htmp : OffStack tmp_res) :
    (execOps alu m₁ (isr80hExit tmp_res)).toCpu =
        { cpu with gpr := Function.update cpu.gpr .eax (m₁.gpr .eax) } ∧
      (execOps alu m₁ (isr80hExit tmp_res)).mem = store32 m₁.mem tmp_res (m₁.gpr .eax) := by
  have hsplit : ∀ m : Machine, execOps alu m (isr80hExit tmp_res) =
      exec alu ((dropArguments alu (execOp alu m (.storeAt tmp_res .eax))).popad.set .eax
        (load32 (store32 m.mem tmp_res (m.gpr .eax)) tmp_res)) .iretd := by
    intro m
    simp only [execOps, isr80hExit, List.foldl_cons, List.foldl_nil, execOp, dropArguments,
      Machine.popad_mem, exec_add_mem]
  have hkept : FrameAt tssEsp0 cpu
      (dropArguments alu (execOp alu m₁ (.storeAt tmp_res .eax))).mem :=
    hframe.congr fun i h1 hi => htmp.keep _ _ _ ⟨h1, by omega⟩
  have hesp' : (execOp alu m₁ (.storeAt tmp_res .eax)).gpr .esp = slot tssEsp0 15 := hesp
  rw [hsplit, load32_store32_self]
  refine ⟨toCpu_leave alu hkept (dropArguments_esp alu hesp') _, ?_⟩
  rw [exec_iretd_mem, Machine.set_mem, Machine.popad_mem]
  rfl

/-- **Another interrupt ends** with all registers as they were. -/
theorem interruptExit_leave {E : Addr} (hframe : FrameAt E cpu m₁.mem)
    (hesp : m₁.gpr .esp = slot E 15) :
    (execOps alu m₁ interruptExit).toCpu = cpu ∧ (execOps alu m₁ interruptExit).mem = m₁.mem := by
  have hsplit : execOps alu m₁ interruptExit =
      exec alu (dropArguments alu m₁).popad .iretd := rfl
  have hkept : FrameAt E cpu (dropArguments alu m₁).mem := hframe
  rw [hsplit]
  refine ⟨toCpu_leave_same alu hkept (dropArguments_esp alu hesp), ?_⟩
  rw [exec_iretd_mem, Machine.popad_mem]
  rfl

end Exit

/-! ## The stubs -/

/-- A program about to run a stub: the return address is the second word below `V` and an argument
the first, well below the kernel stack. -/
structure UserStack (V : Addr) (m : Machine) : Prop where
  aligned : V.toNat % 4 = 0
  room : 16 ≤ V.toNat
  below : V.toNat + 64 < tssEsp0.toNat
  esp : m.gpr .esp = slot V 2

/-- The words below the stack of the program are different words. -/
theorem UserStack.slot {V : Addr} {m : Machine} (h : UserStack V m) (mem : Memory) (v : BitVec 32)
    (i j : ℕ) (hi : i ≤ 4) (hj : j ≤ 4) (hij : i ≠ j) :
    load32 (store32 mem (slot V i) v) (slot V j) = load32 mem (slot V j) := by
  have := h.room
  exact load32_store32_slot h.aligned (by omega) (by omega) hij

/-- A word that is neither of the two below the caller's stack pointer. -/
theorem UserStack.skip {V : Addr} {m : Machine} (h : UserStack V m) {a : Addr}
    (ha : a.toNat % 4 = 0) {i : ℕ} (hi : i ≤ 4) (hne : a ≠ Lib.slot V i) (mem : Memory)
    (v : BitVec 32) : load32 (store32 mem (Lib.slot V i) v) a = load32 mem a := by
  have hroom := h.room
  have haligned := h.aligned
  have hslot := slot_toNat (e := V) (i := i) (by omega)
  exact load32_store32_of_ne (by omega) ha hne.symm

/-- They are not on the kernel stack. -/
theorem UserStack.offStack {V : Addr} {m : Machine} (h : UserStack V m) {i : ℕ} (hi : i ≤ 4) :
    OffStack (Lib.slot V i) := by
  have hroom := h.room
  have haligned := h.aligned
  have hbelow := h.below
  have hslot := slot_toNat (e := V) (i := i) (by omega)
  exact ⟨by omega, .inl (by omega)⟩

/-- The program at `int 0x80`: the command in `eax`, the caller's `ebp` and the return address on
the stack, and on top of them the argument if there is one. -/
structure Entered (V : Addr) (m m₂ : Machine) (command : BitVec 32) (argument : Bool) : Prop where
  eax : m₂.gpr .eax = command
  esp : m₂.gpr .esp = slot V (if argument then 4 else 3)
  others : ∀ r, r ≠ .eax → r ≠ .esp → r ≠ .ebp → m₂.gpr r = m.gpr r
  ret : load32 m₂.mem (slot V 2) = load32 m.mem (slot V 2)
  saved : load32 m₂.mem (slot V 3) = m.gpr .ebp
  rest : ∀ a, a.toNat % 4 = 0 → a ≠ slot V 3 → a ≠ slot V 4 → load32 m₂.mem a = load32 m.mem a
  item : argument = true → load32 m₂.mem (slot V 4) = load32 m.mem (slot V 1)

section Stubs

variable {V : Addr} {m : Machine} (huser : UserStack V m)

include huser

/-- A stub without an argument. -/
theorem entered_plain (command : BitVec 32) :
    Entered V m (execOps alu m (Stub.plain command).enter) command false := by
  have hslot := huser.slot
  have hesp := huser.esp
  constructor
  case others =>
    intro r h1 h2 h3
    simp only [execOps, Stub.plain, List.foldl, execOp, exec, Machine.pushWord_gpr,
      Machine.set_gpr, h1, h2, h3, if_false]
  case item => exact fun h => absurd h Bool.false_ne_true
  case rest =>
    intro a ha h3 h4
    simp (disch := decide) only [execOps, Stub.plain, List.foldl, execOp, exec,
      Machine.pushWord_mem, Machine.set_mem, hesp, slot_sub, Nat.reduceAdd,
      huser.skip ha (show 3 ≤ 4 by decide) h3]
  all_goals
    simp (disch := decide) only [execOps, Stub.plain, List.foldl, execOp, exec,
      Machine.pushWord_gpr, Machine.pushWord_mem, Machine.set_gpr, Machine.set_mem, hesp, slot_sub,
      if_true, if_false, reduceCtorEq, Nat.reduceAdd, hslot, load32_store32_self, Bool.false_eq_true]

/-- A stub with an argument. -/
theorem entered_withArgument (command : BitVec 32) :
    Entered V m (execOps alu m (Stub.withArgument command).enter) command true := by
  have hslot := huser.slot
  have hesp := huser.esp
  constructor
  case others =>
    intro r h1 h2 h3
    simp only [execOps, Stub.withArgument, List.foldl, execOp, exec, Machine.pushWord_gpr,
      Machine.set_gpr, h1, h2, h3, if_false]
  case rest =>
    intro a ha h3 h4
    simp (disch := decide) only [execOps, Stub.withArgument, List.foldl, execOp, exec,
      Machine.pushWord_gpr, Machine.pushWord_mem, Machine.set_gpr, Machine.set_mem, hesp, slot_sub,
      if_true, if_false, reduceCtorEq, Nat.reduceAdd, huser.skip ha (show 3 ≤ 4 by decide) h3,
      huser.skip ha (show 4 ≤ 4 by decide) h4]
  all_goals
    simp (disch := decide) only [execOps, Stub.withArgument, List.foldl, execOp, exec, Machine.at,
      Machine.pushWord_gpr, Machine.pushWord_mem, Machine.set_gpr, Machine.set_mem, hesp, slot_sub,
      slot_add, if_true, if_false, reduceCtorEq, Nat.reduceAdd, Nat.reduceDiv, Nat.reduceSub, hslot,
      load32_store32_self, implies_true]

/-- `print`, which pushes its argument before it sets `eax`. -/
theorem entered_print : Entered V m (execOps alu m Stub.print.enter) 1#32 true := by
  have hslot := huser.slot
  have hesp := huser.esp
  constructor
  case others =>
    intro r h1 h2 h3
    simp only [execOps, Stub.print, List.foldl, execOp, exec, Machine.pushWord_gpr,
      Machine.set_gpr, h1, h2, h3, if_false]
  case rest =>
    intro a ha h3 h4
    simp (disch := decide) only [execOps, Stub.print, List.foldl, execOp, exec,
      Machine.pushWord_gpr, Machine.pushWord_mem, Machine.set_gpr, Machine.set_mem, hesp, slot_sub,
      if_true, if_false, reduceCtorEq, Nat.reduceAdd, huser.skip ha (show 3 ≤ 4 by decide) h3,
      huser.skip ha (show 4 ≤ 4 by decide) h4]
  all_goals
    simp (disch := decide) only [execOps, Stub.print, List.foldl, execOp, exec, Machine.at,
      Machine.pushWord_gpr, Machine.pushWord_mem, Machine.set_gpr, Machine.set_mem, hesp, slot_sub,
      slot_add, if_true, if_false, reduceCtorEq, Nat.reduceAdd, Nat.reduceDiv, Nat.reduceSub, hslot,
      load32_store32_self, implies_true]

/-- Every stub of the library enters its system call with its command and its argument. -/
theorem entered_stub {command : BitVec 32} {argument : Bool} {stub : Stub}
    (hstub : (command, argument, stub) ∈ Stub.table) :
    Entered V m (execOps alu m stub.enter) command argument := by
  simp only [Stub.table, List.mem_cons, List.not_mem_nil, or_false, Prod.mk.injEq] at hstub
  rcases hstub with ⟨rfl, rfl, rfl⟩ | ⟨rfl, rfl, rfl⟩ | ⟨rfl, rfl, rfl⟩ | ⟨rfl, rfl, rfl⟩ |
    ⟨rfl, rfl, rfl⟩ | ⟨rfl, rfl, rfl⟩ | ⟨rfl, rfl, rfl⟩ | ⟨rfl, rfl, rfl⟩ | ⟨rfl, rfl, rfl⟩
  · exact entered_print alu huser
  · exact entered_plain alu huser _
  · exact entered_withArgument alu huser _
  · exact entered_withArgument alu huser _
  · exact entered_withArgument alu huser _
  · exact entered_withArgument alu huser _
  · exact entered_withArgument alu huser _
  · exact entered_withArgument alu huser _
  · exact entered_plain alu huser _

end Stubs

/-- The caller of the stub, when it goes on: `ebp` and the return address are off the stack. -/
structure Left (V : Addr) (m₃ m' : Machine) : Prop where
  eip : m'.eip = load32 m₃.mem (slot V 2)
  esp : m'.gpr .esp = slot V 1
  ebp : m'.gpr .ebp = load32 m₃.mem (slot V 3)
  others : ∀ r, r ≠ .esp → r ≠ .ebp → m'.gpr r = m₃.gpr r
  mem : m'.mem = m₃.mem

/-- Every stub leaves its system call in this way. -/
theorem left_stub {V : Addr} {m₃ : Machine} {command : BitVec 32} {argument : Bool} {stub : Stub}
    (hstub : (command, argument, stub) ∈ Stub.table)
    (hesp : m₃.gpr .esp = slot V (if argument then 4 else 3)) :
    Left V m₃ (execOps alu m₃ stub.leave) := by
  have harg : (argument = true ∧
        stub.leave = [.instr (.add .esp 4#32), .instr (.pop .ebp), .instr .ret]) ∨
      (argument = false ∧ stub.leave = [.instr (.pop .ebp), .instr .ret]) := by
    simp only [Stub.table, List.mem_cons, List.not_mem_nil, or_false, Prod.mk.injEq] at hstub
    rcases hstub with ⟨rfl, rfl, rfl⟩ | ⟨rfl, rfl, rfl⟩ | ⟨rfl, rfl, rfl⟩ | ⟨rfl, rfl, rfl⟩ |
      ⟨rfl, rfl, rfl⟩ | ⟨rfl, rfl, rfl⟩ | ⟨rfl, rfl, rfl⟩ | ⟨rfl, rfl, rfl⟩ | ⟨rfl, rfl, rfl⟩
    all_goals first | exact .inl ⟨rfl, rfl⟩ | exact .inr ⟨rfl, rfl⟩
  rcases harg with ⟨rfl, hleave⟩ | ⟨rfl, hleave⟩
  · rw [if_pos rfl] at hesp
    rw [hleave]
    constructor
    case others =>
      intro r h1 h2
      simp only [execOps, List.foldl, execOp, exec, Machine.drop, Machine.set_gpr, h1, h2, if_false]
    all_goals
      simp (disch := decide) only [execOps, List.foldl, execOp, exec, Machine.top, Machine.drop,
        Machine.set_gpr, Machine.set_mem, hesp, slot_add, if_true, if_false, reduceCtorEq,
        Nat.reduceDiv, Nat.reduceSub]
  · rw [if_neg (by decide)] at hesp
    rw [hleave]
    constructor
    case others =>
      intro r h1 h2
      simp only [execOps, List.foldl, execOp, exec, Machine.drop, Machine.set_gpr, h1, h2, if_false]
    all_goals
      simp (disch := decide) only [execOps, List.foldl, execOp, exec, Machine.top, Machine.drop,
        Machine.set_gpr, Machine.set_mem, hesp, slot_add, if_true, if_false, reduceCtorEq,
        Nat.reduceDiv, Nat.reduceSub]

/-! ## Whole system calls -/

/-- The handler reads the frame as `struct interrupt_frame`. -/
theorem frameRegisters_frame {E : Addr} {cpu : Cpu} {mem : Memory} (h : FrameAt E cpu mem) :
    frameRegisters (interruptFrameAt mem (slot E 13)) = registersOf cpu := by
  unfold frameRegisters interruptFrameAt registersOf
  simp (disch := decide) only [slot_add, Nat.reduceDiv, Nat.reduceSub, h.ss, h.esp, h.eflags, h.cs,
    h.eip, h.eax, h.ecx, h.edx, h.ebx, h.ebp, h.esi, h.edi]

/-- What the handler finds in its arguments. -/
theorem called_arguments {E : Addr} {cpu : Cpu} {framed : Machine} {w : BitVec 32}
    (h : Called E cpu w framed) :
    load32 framed.mem (framed.gpr .esp + 4#32) = w ∧
      frameRegisters (interruptFrameAt framed.mem (load32 framed.mem (framed.gpr .esp + 8#32))) =
        registersOf cpu := by
  have h4 : slot E 16 + 4#32 = slot E 15 := slot_add (by decide) (by decide)
  have h8 : slot E 16 + 8#32 = slot E 14 := slot_add (by decide) (by decide)
  rw [h.esp, h4, h8, h.first, h.second]
  exact ⟨rfl, frameRegisters_frame h.frame⟩

/-- The registers as the handler of an exception with an error code takes them: the code stands
where it looks for the instruction pointer, and every word above it one place too far down. -/
def shiftedCpu (m : Machine) (code : BitVec 32) : Cpu :=
  { gpr := Function.update m.gpr .esp m.eflags, eip := code, cs := m.eip, eflags := m.cs
    ss := m.gpr .esp }

/-- Words below words. -/
theorem slot_slot (e : Addr) (i j : ℕ) : slot (slot e i) j = slot e (i + j) := by
  unfold slot
  rw [Nat.mul_add, BitVec.ofNat_add]
  bv_omega

/-- The frame of such an exception. -/
theorem frameAt_exception {E : Addr} (he : E.toNat % 4 = 0) (hlow : 56 ≤ E.toNat) (m : Machine)
    (code : BitVec 32) : FrameAt (slot E 1) (shiftedCpu m code)
      (exec alu (exceptionEntry (slot E 0) code m) .pushad).mem := by
  have hslot : ∀ (mem : Memory) (v : BitVec 32) (i j : ℕ), i ≤ 14 → j ≤ 14 → i ≠ j →
      load32 (store32 mem (slot E i) v) (slot E j) = load32 mem (slot E j) :=
    fun mem v i j hi hj hij => load32_store32_slot he (by omega) (by omega) hij
  constructor <;>
    · simp only [exceptionEntry, interruptEntry, exec, Machine.pushWord_gpr, Machine.pushWord_mem,
        Machine.set_gpr, Machine.set_mem, slot_sub, slot_slot, if_true, if_false, reduceCtorEq,
        Nat.reduceAdd, shiftedCpu, Function.update_apply]
      simp (disch := decide) only [hslot, load32_store32_self]

/-- Its handler is called. -/
theorem called_exception (m : Machine) (interrupt code : BitVec 32) :
    Called (slot tssEsp0 1) (shiftedCpu m code) interrupt
      (execAll alu (exceptionEntry tssEsp0 code m) (interruptCode interrupt)) := by
  have hesp0 : tssEsp0.toNat = 0x600000 := rfl
  have hframe := frameAt_exception alu (E := tssEsp0) (by decide) (by omega) m code
  have hesp : (exec alu (exceptionEntry (slot tssEsp0 0) code m) .pushad).gpr .esp =
      slot (slot tssEsp0 1) 13 := by
    simp only [exceptionEntry, interruptEntry, exec, Machine.pushWord_gpr, Machine.set_gpr, slot_sub,
      slot_slot, if_true, Nat.reduceAdd]
  rw [slot_zero] at hframe hesp
  have hsplit : execAll alu (exceptionEntry tssEsp0 code m) (interruptCode interrupt) =
      exec alu ((exec alu (exec alu (exceptionEntry tssEsp0 code m) .pushad) (.push .esp)).pushWord
        interrupt) .call := rfl
  rw [hsplit]
  generalize exec alu (exceptionEntry tssEsp0 code m) .pushad = m₁ at *
  have hpush : exec alu m₁ (.push .esp) = m₁.pushWord (slot (slot tssEsp0 1) 13) := by
    show m₁.pushWord (m₁.gpr .esp) = _
    rw [hesp]
  have hbase : (slot tssEsp0 1).toNat = 0x600000 - 4 := slot_toNat (by omega)
  rw [hpush]
  exact called_frame alu (by omega) (by omega) hframe hesp interrupt

/-- **An exception with an error code.** The entry makes no room for the code. The handler takes the
code for the instruction pointer, that for the code segment, and so on up to the stack pointer for
the stack segment; and if it returned, the program would go on at the code. -/
theorem exception_stub_shifts (interrupt code : BitVec 32)
    (interrupt_handler : Machine → Option Machine) (m m₁ : Machine)
    (hcall : interrupt_handler
      (execAll alu (exceptionEntry tssEsp0 code m) (interruptCode interrupt)) = some m₁)
    (hreturned : Returned (slot tssEsp0 1)
      (execAll alu (exceptionEntry tssEsp0 code m) (interruptCode interrupt)) m₁) :
    let framed := execAll alu (exceptionEntry tssEsp0 code m) (interruptCode interrupt)
    frameRegisters (interruptFrameAt framed.mem (load32 framed.mem (framed.gpr .esp + 8#32))) =
      { registersOf m.toCpu with
        ip := code, cs := m.eip, flags := m.cs, esp := m.eflags, ss := m.gpr .esp } ∧
    ∃ m', exceptionStub alu interrupt code interrupt_handler m = some m' ∧ m'.eip = code ∧
      ∀ r, r ≠ .esp → m'.gpr r = m.gpr r := by
  have hcalled := called_exception alu m interrupt code
  obtain ⟨-, hframe⟩ := called_arguments hcalled
  obtain ⟨hcpu, -⟩ := interruptExit_leave alu (hcalled.frame.congr hreturned.frame) hreturned.esp
  refine ⟨?_, execOps alu m₁ interruptExit, ?_, congrArg Cpu.eip hcpu, fun r hr => ?_⟩
  · rw [hframe]
    simp [registersOf, shiftedCpu]
  · unfold exceptionStub
    rw [hcall]
    rfl
  · rw [congrArg Cpu.gpr hcpu]
    exact Function.update_of_ne hr _ _

/-- **A system call, from the caller of the stub and back.** `isr80h_handler` gets the number of the
command and the registers of the program, whose stack pointer points to the argument; memory is as
the caller left it, except on the kernel stack and in the two words below the caller's stack
pointer. When it returns, the caller goes on behind the call of the stub with the result in `eax`
and every other register as it was, in the memory the handler left, with the result in `tmp_res`. -/
theorem stub_call_returns (tmp_res : Addr) (htmp : OffStack tmp_res)
    (isr80h_handler : Machine → Option Machine) (command : BitVec 32) (argument : Bool) (stub : Stub)
    (hstub : (command, argument, stub) ∈ Stub.table) (V : Addr) (m : Machine)
    (huser : UserStack V m) (hdata : tmp_res.toNat + 16 ≤ V.toNat) (m₁ : Machine)
    (hcall : isr80h_handler (callEntry alu stub m) = some m₁)
    (hreturned : Returned tssEsp0 (callEntry alu stub m) m₁)
    (hkept : ∀ i, i = 2 ∨ i = 3 →
      load32 m₁.mem (slot V i) = load32 (callEntry alu stub m).mem (slot V i)) :
    let framed := callEntry alu stub m
    let frame := interruptFrameAt framed.mem (load32 framed.mem (framed.gpr .esp + 8#32))
    load32 framed.mem (framed.gpr .esp + 4#32) = command ∧
    frameRegisters frame = registersOf (execOps alu m stub.enter).toCpu ∧
    (argument = true → load32 framed.mem frame.esp = load32 m.mem (m.gpr .esp + 4#32)) ∧
    (∀ a, OffStack a → a ≠ m.gpr .esp - 4#32 → a ≠ m.gpr .esp - 8#32 →
      load32 framed.mem a = load32 m.mem a) ∧
    ∃ m', stub.call alu tmp_res isr80h_handler m = some m' ∧
      m'.eip = load32 m.mem (m.gpr .esp) ∧ m'.gpr .eax = m₁.gpr .eax ∧
      m'.gpr .esp = m.gpr .esp + 4#32 ∧ (∀ r, r ≠ .eax → r ≠ .esp → m'.gpr r = m.gpr r) ∧
      m'.mem = store32 m₁.mem tmp_res (m₁.gpr .eax) := by
  have hent := entered_stub alu huser hstub
  obtain ⟨hcalled, hrest⟩ := called_entry alu (execOps alu m stub.enter) (x := .push .eax)
    (w := command) fun m' heax => by
      rw [← hent.eax, ← heax]
      rfl
  obtain ⟨hcommand, hframe⟩ := called_arguments hcalled
  -- the words of the program on its stack, as the handler sees them
  have hword : ∀ i ≤ 4, load32 (callEntry alu stub m).mem (slot V i) =
      load32 (execOps alu m stub.enter).mem (slot V i) := fun i hi =>
    hrest _ (huser.offStack hi)
  have hbelow : m.gpr .esp - 4#32 = slot V 3 ∧ m.gpr .esp - 8#32 = slot V 4 := by
    rw [huser.esp]
    refine ⟨slot_sub V 2, ?_⟩
    rw [show (8#32 : BitVec 32) = 4#32 + 4#32 from rfl, ← BitVec.sub_sub, slot_sub, slot_sub]
  refine ⟨hcommand, hframe, fun harg => ?_, fun a ha h3 h4 => ?_, ?_⟩
  · have hesp : (interruptFrameAt (callEntry alu stub m).mem (load32 (callEntry alu stub m).mem
        ((callEntry alu stub m).gpr .esp + 8#32))).esp = (execOps alu m stub.enter).gpr .esp :=
      congrArg Registers.esp hframe
    rw [hesp, hent.esp, if_pos harg, hword 4 (by omega), hent.item harg, huser.esp,
      show slot V 2 + 4#32 = slot V 1 from slot_add (by decide) (by decide)]
  · rw [hbelow.1] at h3
    rw [hbelow.2] at h4
    exact (hrest a ha).trans (hent.rest a ha.aligned h3 h4)
  · have hframe₁ : FrameAt tssEsp0 (execOps alu m stub.enter).toCpu m₁.mem :=
      hcalled.frame.congr hreturned.frame
    obtain ⟨hcpu, hmem⟩ := isr80hExit_leave alu hframe₁ hreturned.esp htmp
    have hgpr := congrArg Cpu.gpr hcpu
    -- storing the result does not touch the program's stack
    have hstack : ∀ i, i = 2 ∨ i = 3 →
        load32 (execOps alu m₁ (isr80hExit tmp_res)).mem (slot V i) =
          load32 (execOps alu m stub.enter).mem (slot V i) := by
      intro i hi
      have hroom := huser.room
      have hV := slot_toNat (e := V) (i := i) (by omega)
      rw [hmem, load32_store32_of_ne htmp.aligned (huser.offStack (by omega)).aligned (fun heq => by
        have := congrArg BitVec.toNat heq
        omega), hkept i hi, hword i (by omega)]
    have hleft : Left V (execOps alu m₁ (isr80hExit tmp_res))
        (execOps alu (execOps alu m₁ (isr80hExit tmp_res)) stub.leave) := left_stub alu hstub (by
      rw [hgpr]
      dsimp only
      rw [Function.update_of_ne (by decide), hent.esp])
    have hrun : stub.call alu tmp_res isr80h_handler m =
        some (execOps alu (execOps alu m₁ (isr80hExit tmp_res)) stub.leave) := by
      unfold Stub.call isr80hWrapper
      rw [show isr80h_handler (execAll alu (interruptEntry tssEsp0 (execOps alu m stub.enter))
        isr80hEntry) = some m₁ from hcall]
      rfl
    generalize execOps alu (execOps alu m₁ (isr80hExit tmp_res)) stub.leave = m' at hleft hrun
    refine ⟨m', hrun, ?_, ?_, ?_, fun r h1 h2 => ?_, hleft.mem.trans hmem⟩
    · rw [hleft.eip, hstack 2 (.inl rfl), hent.ret, huser.esp]
    · rw [hleft.others _ (by decide) (by decide), hgpr]
      dsimp only
      rw [Function.update_self]
    · rw [hleft.esp, huser.esp, show slot V 2 + 4#32 = slot V 1 from slot_add (by decide) (by decide)]
    · by_cases h3 : r = .ebp
      · rw [h3, hleft.ebp, hstack 3 (.inr rfl), hent.saved]
      · rw [hleft.others r h2 h3, hgpr]
        dsimp only
        rw [Function.update_of_ne h1, hent.others r h1 h2 h3]

/-- A handler that returns a value and does nothing else. -/
def returnValue (v : BitVec 32) (m : Machine) : Option Machine := some (m.drop.set .eax v)

/-- It keeps the calling convention. -/
theorem returned_returnValue {E : Addr} {cpu : Cpu} {w : BitVec 32} {framed : Machine}
    (h : Called E cpu w framed) (v : BitVec 32) : Returned E framed (framed.drop.set .eax v) := by
  refine ⟨?_, fun _ _ _ => rfl⟩
  rw [Machine.set_gpr, if_neg (by decide)]
  unfold Machine.drop
  rw [Machine.set_gpr, if_pos rfl, h.esp]
  exact slot_add (by decide) (by decide)

/-- A program about to call `maeros_malloc(4096)`. -/
def mallocCaller : Machine :=
  { plainCpu 0x3fefe0#32 0x202#32 with
    mem := store32 (store32 (fun _ => 0#8) 0x3fefe0#32 0x400123#32) 0x3fefe4#32 0x1000#32 }

/-- The program is where it should be on its stack. -/
theorem userStack_mallocCaller : UserStack 0x3fefe8#32 mallocCaller := by
  refine ⟨by decide, by decide, by decide, ?_⟩
  show (0x3fefe0#32 : Addr) = _
  decide

/-- The call returns, with the result in `eax`. -/
theorem stub_call_returns_malloc : ∃ m', Stub.maerosMalloc.call (fun _ v => v) 0x110000#32
    (returnValue 0x1001000#32) mallocCaller = some m' ∧ m'.gpr .eax = 0x1001000#32 ∧
      m'.gpr .esp = 0x3fefe4#32 ∧ load32 m'.mem 0x110000#32 = 0x1001000#32 := by
  have hent := entered_withArgument (fun _ v => v) userStack_mallocCaller 4#32
  obtain ⟨hcalled, -⟩ := called_entry (fun _ v => v)
    (execOps (fun _ v => v) mallocCaller Stub.maerosMalloc.enter) (x := .push .eax) (w := 4#32)
    fun m' heax => by
      rw [show (4#32 : BitVec 32) = m'.gpr .eax from by rw [heax]; exact hent.eax.symm]
      rfl
  obtain ⟨-, -, -, -, m', hm', -, heax, hesp, -, hmem⟩ := stub_call_returns (fun _ v => v) 0x110000#32
    ⟨by decide, .inl (by decide)⟩ (returnValue 0x1001000#32) 4#32 true Stub.maerosMalloc
    (by simp [Stub.table]) 0x3fefe8#32 mallocCaller userStack_mallocCaller (by decide) _ rfl
    (returned_returnValue hcalled _) fun _ _ => rfl
  exact ⟨m', hm', heax, hesp, by rw [hmem, load32_store32_self]; rfl⟩

/-- A page fault with the error code `6` would go on at address `6`. -/
theorem exception_stub_shifts_page_fault : ∃ m', exceptionStub (fun _ v => v) 14#32 6#32
    (returnValue 0#32) mallocCaller = some m' ∧ m'.eip = 6#32 := by
  have hcalled := called_exception (fun _ v => v) mallocCaller 14#32 6#32
  obtain ⟨-, m', hm', heip, -⟩ := exception_stub_shifts (fun _ v => v) 14#32 6#32
    (returnValue 0#32) mallocCaller _ rfl (returned_returnValue hcalled _)
  exact ⟨m', hm', heip⟩

end MaerOS.Analysis
