import MaerOS.Lib.X86

/-!
# Interrupt frames on the 32-bit x86 machine

A handler that is going to return saves the general registers with `pushad` on top of
what the processor saved, and leaves through `popad` and `iretd`. `toCpu_leave` is the
reason this works: whatever happened in between, the interrupted program goes on with
all its registers as long as the stack pointer is back at the frame and the frame is
as it was.

`Op` adds to the instructions the few that such a handler and the code around an
`int` need.
-/

set_option autoImplicit false

namespace MaerOS.Lib

/-- The instructions of the machine, and some more. -/
inductive Op where
  | instr (i : Instr)
  /-- `mov dst, v` -/
  | movImm (dst : Reg) (v : BitVec 32)
  /-- `mov [a], src` -/
  | storeAt (a : BitVec 32) (src : Reg)
  /-- `mov dst, [a]` -/
  | loadAt (dst : Reg) (a : BitVec 32)
  | popad

instance : Coe Instr Op := ⟨Op.instr⟩

/-- `popad`: the saved stack pointer is skipped. -/
def Machine.popad (m : Machine) : Machine :=
  let m := m.drop.set .edi m.top
  let m := m.drop.set .esi m.top
  let m := m.drop.set .ebp m.top
  let m := m.drop
  let m := m.drop.set .ebx m.top
  let m := m.drop.set .edx m.top
  let m := m.drop.set .ecx m.top
  m.drop.set .eax m.top

/-- Carry out one instruction. -/
def execOp (alu : BitVec 32 → BitVec 32 → BitVec 32) (m : Machine) : Op → Machine
  | .instr i => exec alu m i
  | .movImm dst v => m.set dst v
  | .storeAt a src => { m with mem := store32 m.mem a (m.gpr src) }
  | .loadAt dst a => m.set dst (load32 m.mem a)
  | .popad => m.popad

/-- Carry out a listing. -/
def execOps (alu : BitVec 32 → BitVec 32 → BitVec 32) (m : Machine) (code : List Op) : Machine :=
  code.foldl (execOp alu) m

@[simp] theorem Machine.pushWord_eip (m : Machine) (v : BitVec 32) : (m.pushWord v).eip = m.eip := rfl

@[simp] theorem Machine.popad_mem (m : Machine) : m.popad.mem = m.mem := rfl

@[simp] theorem exec_add_mem (alu : BitVec 32 → BitVec 32 → BitVec 32) (m : Machine) (r : Reg)
    (v : BitVec 32) : (exec alu m (.add r v)).mem = m.mem := rfl

/-- Leaving an interrupt does not touch memory. -/
@[simp] theorem exec_iretd_mem (alu : BitVec 32 → BitVec 32 → BitVec 32) (m : Machine) :
    (exec alu m .iretd).mem = m.mem := rfl

/-! ## The frame -/

/-- The frame of the interrupted program, as the processor and `pushad` leave it on a stack that
begins at `E`. -/
structure FrameAt (E : BitVec 32) (cpu : Cpu) (mem : Memory) : Prop where
  ss : load32 mem (slot E 1) = cpu.ss
  esp : load32 mem (slot E 2) = cpu.gpr .esp
  eflags : load32 mem (slot E 3) = cpu.eflags
  cs : load32 mem (slot E 4) = cpu.cs
  eip : load32 mem (slot E 5) = cpu.eip
  eax : load32 mem (slot E 6) = cpu.gpr .eax
  ecx : load32 mem (slot E 7) = cpu.gpr .ecx
  edx : load32 mem (slot E 8) = cpu.gpr .edx
  ebx : load32 mem (slot E 9) = cpu.gpr .ebx
  ebp : load32 mem (slot E 11) = cpu.gpr .ebp
  esi : load32 mem (slot E 12) = cpu.gpr .esi
  edi : load32 mem (slot E 13) = cpu.gpr .edi

/-- A frame is determined by its words. -/
theorem FrameAt.congr {E : BitVec 32} {cpu : Cpu} {mem mem' : Memory} (h : FrameAt E cpu mem)
    (heq : ∀ i, 1 ≤ i → i ≤ 13 → load32 mem' (slot E i) = load32 mem (slot E i)) :
    FrameAt E cpu mem' :=
  ⟨(heq 1 (by omega) (by omega)).trans h.ss, (heq 2 (by omega) (by omega)).trans h.esp,
    (heq 3 (by omega) (by omega)).trans h.eflags, (heq 4 (by omega) (by omega)).trans h.cs,
    (heq 5 (by omega) (by omega)).trans h.eip, (heq 6 (by omega) (by omega)).trans h.eax,
    (heq 7 (by omega) (by omega)).trans h.ecx, (heq 8 (by omega) (by omega)).trans h.edx,
    (heq 9 (by omega) (by omega)).trans h.ebx, (heq 11 (by omega) (by omega)).trans h.ebp,
    (heq 12 (by omega) (by omega)).trans h.esi, (heq 13 (by omega) (by omega)).trans h.edi⟩

section Frame

variable (alu : BitVec 32 → BitVec 32 → BitVec 32) {E : BitVec 32}

/-- The processor and `pushad` save the interrupted program in a frame. -/
theorem frameAt_entry (he : E.toNat % 4 = 0) (hlow : 52 ≤ E.toNat) (m : Machine) :
    FrameAt E m.toCpu (exec alu (interruptEntry (slot E 0) m) .pushad).mem := by
  have hslot : ∀ (mem : Memory) (v : BitVec 32) (i j : ℕ), i ≤ 13 → j ≤ 13 → i ≠ j →
      load32 (store32 mem (slot E i) v) (slot E j) = load32 mem (slot E j) :=
    fun mem v i j hi hj hij => load32_store32_slot he (by omega) (by omega) hij
  constructor <;>
    · simp only [interruptEntry, exec, Machine.pushWord_gpr, Machine.pushWord_mem, Machine.set_gpr,
        Machine.set_mem, slot_sub, if_true, if_false, reduceCtorEq, Nat.reduceAdd]
      simp (disch := decide) only [hslot, load32_store32_self]

/-- The registers of the handler when its frame is complete. -/
theorem entry_gpr (m : Machine) (r : Reg) :
    (exec alu (interruptEntry (slot E 0) m) .pushad).gpr r =
      if r = .esp then slot E 13 else m.gpr r := by
  cases r <;>
    simp only [interruptEntry, exec, Machine.pushWord_gpr, Machine.set_gpr, slot_sub, if_true,
      if_false, reduceCtorEq, Nat.reduceAdd]

/-- The frame is on the stack and nowhere else. -/
theorem entry_mem (he : E.toNat % 4 = 0) (hlow : 52 ≤ E.toNat) (m : Machine) {a : BitVec 32}
    (ha : a.toNat % 4 = 0) (hout : ∀ i, 1 ≤ i → i ≤ 13 → a ≠ slot E i) :
    load32 (exec alu (interruptEntry (slot E 0) m) .pushad).mem a = load32 m.mem a := by
  have hskip : ∀ (mem : Memory) (v : BitVec 32) (i : ℕ), 1 ≤ i → i ≤ 13 →
      load32 (store32 mem (slot E i) v) a = load32 mem a := by
    intro mem v i h1 hi
    refine load32_store32_of_ne ?_ ha (hout i h1 hi).symm
    rw [slot_toNat (by omega)]
    omega
  simp only [interruptEntry, exec, Machine.pushWord_gpr, Machine.pushWord_mem, Machine.set_gpr,
    Machine.set_mem, slot_sub, if_true, if_false, reduceCtorEq, Nat.reduceAdd]
  simp (disch := decide) only [hskip]

/-- A handler that was called with the word `w` and a pointer to the frame as its arguments. -/
structure Called (E : BitVec 32) (cpu : Cpu) (w : BitVec 32) (m : Machine) : Prop where
  frame : FrameAt E cpu m.mem
  esp : m.gpr .esp = slot E 16
  first : load32 m.mem (slot E 15) = w
  second : load32 m.mem (slot E 14) = slot E 13

/-- Two arguments and the return address on top of a frame. -/
theorem pushed_call {w : BitVec 32} {m : Machine} (hesp : m.gpr .esp = slot E 13) :
    (exec alu ((m.pushWord (slot E 13)).pushWord w) .call).gpr .esp = slot E 16 ∧
      (exec alu ((m.pushWord (slot E 13)).pushWord w) .call).mem =
        store32 (store32 (store32 m.mem (slot E 14) (slot E 13)) (slot E 15) w) (slot E 16)
          m.eip := by
  simp only [exec, Machine.pushWord_mem, Machine.pushWord_gpr, Machine.pushWord_eip, hesp, slot_sub,
    if_true, Nat.reduceAdd, and_self]

/-- **Calling** the handler keeps the frame. -/
theorem called_frame (he : E.toNat % 4 = 0) (hlow : 64 ≤ E.toNat) {cpu : Cpu} {m : Machine}
    (hframe : FrameAt E cpu m.mem) (hesp : m.gpr .esp = slot E 13) (w : BitVec 32) :
    Called E cpu w (exec alu ((m.pushWord (slot E 13)).pushWord w) .call) := by
  have hslot : ∀ (mem : Memory) (v : BitVec 32) (i j : ℕ), i ≤ 16 → j ≤ 16 → i ≠ j →
      load32 (store32 mem (slot E i) v) (slot E j) = load32 mem (slot E j) :=
    fun mem v i j hi hj hij => load32_store32_slot he (by omega) (by omega) hij
  obtain ⟨hesp₂, hmem₂⟩ := pushed_call alu (w := w) hesp
  refine ⟨hframe.congr fun i h1 hi => ?_, hesp₂, ?_, ?_⟩
  · rw [hmem₂, hslot _ _ _ _ (by omega) (by omega) (by omega),
      hslot _ _ _ _ (by omega) (by omega) (by omega),
      hslot _ _ _ _ (by omega) (by omega) (by omega)]
  · rw [hmem₂, hslot _ _ _ _ (by omega) (by omega) (by omega), load32_store32_self]
  · rw [hmem₂, hslot _ _ _ _ (by omega) (by omega) (by omega),
      hslot _ _ _ _ (by omega) (by omega) (by omega), load32_store32_self]

/-- **Leaving.** With the stack pointer at the frame, `popad` and `iretd` go back to the interrupted
program. -/
theorem toCpu_leave {cpu : Cpu} {m : Machine} (hframe : FrameAt E cpu m.mem)
    (hesp : m.gpr .esp = slot E 13) (v : BitVec 32) :
    (exec alu (m.popad.set .eax v) .iretd).toCpu =
      { cpu with gpr := Function.update cpu.gpr .eax v } := by
  have hgpr : (exec alu (m.popad.set .eax v) .iretd).gpr = Function.update cpu.gpr .eax v := by
    funext r
    cases r <;>
      simp (disch := decide) only [exec, Machine.popad, Machine.top, Machine.drop, Machine.set_gpr,
        Machine.set_mem, hesp, slot_add, if_true, if_false, reduceCtorEq, Nat.reduceDiv,
        Nat.reduceSub, Function.update_apply, hframe.esp, hframe.ecx, hframe.edx, hframe.ebx,
        hframe.ebp, hframe.esi, hframe.edi]
  obtain ⟨gpr, eip, cs, ss, eflags⟩ := cpu
  have hss := hframe.ss
  have hflags := hframe.eflags
  have hcs := hframe.cs
  have heip := hframe.eip
  dsimp only at hgpr hss hflags hcs heip ⊢
  rw [← hgpr, ← hss, ← hflags, ← hcs, ← heip]
  simp (disch := decide) only [exec, Machine.popad, Machine.top, Machine.drop, Machine.set_gpr,
    Machine.set_mem, hesp, slot_add, if_true, if_false, reduceCtorEq, Nat.reduceDiv, Nat.reduceSub]

/-- Leaving with all registers as they were. -/
theorem toCpu_leave_same {cpu : Cpu} {m : Machine} (hframe : FrameAt E cpu m.mem)
    (hesp : m.gpr .esp = slot E 13) : (exec alu m.popad .iretd).toCpu = cpu := by
  have heax : m.popad.gpr .eax = cpu.gpr .eax := by
    simp (disch := decide) only [Machine.popad, Machine.top, Machine.drop, Machine.set_gpr,
      Machine.set_mem, hesp, slot_add, if_true, if_false, reduceCtorEq, Nat.reduceDiv,
      Nat.reduceSub, hframe.eax]
  have hset : m.popad.set .eax (cpu.gpr .eax) = m.popad := by
    rw [← heax]
    unfold Machine.set
    rw [Function.update_eq_self]
  have hleave := toCpu_leave alu hframe hesp (cpu.gpr .eax)
  rwa [hset, Function.update_eq_self] at hleave

end Frame

end MaerOS.Lib
