import MaerOS.Lib.Run
import MaerOS.Model.Interrupt

/-!
# What a division by zero does to the machine

The gate of vector 0 leads to `idt_zero`, a function in C, and such a function ends in
`ret`. That takes the address of the instruction which faulted off the stack and
nothing else, so the program goes on with the segments of the kernel, on the kernel's
stack and with interrupts kept out. The instruction faults again, now from inside the
kernel, and every time two more words are left on the stack.
-/

set_option autoImplicit false

namespace MaerOS.Analysis

open MaerOS.Lib MaerOS.Model

/-- A C function without arguments has returned: by the calling convention it has taken its return
address off the stack and kept four registers; it changes neither segments nor the interrupt
flag. -/
structure ReturnsToCaller (m m' : Machine) : Prop where
  eip : m'.eip = m.top
  esp : m'.gpr .esp = m.gpr .esp + 4#32
  cs : m'.cs = m.cs
  ss : m'.ss = m.ss
  interrupts : m'.eflags &&& interruptFlag = m.eflags &&& interruptFlag
  kept : ∀ r, r = .ebx ∨ r = .esi ∨ r = .edi ∨ r = .ebp → m'.gpr r = m.gpr r

/-- The program of `m` goes on at the instruction it was at, but as a part of the kernel, `n` words
down the kernel stack and with interrupts kept out. -/
structure InKernel (n : ℕ) (m m' : Machine) : Prop where
  eip : m'.eip = m.eip
  cs : m'.cs = kernelCodeSelector.setWidth 32
  ss : m'.ss = tssSs0
  interrupts : m'.eflags &&& interruptFlag = 0#32
  esp : m'.gpr .esp = slot tssEsp0 n
  kept : ∀ r, r = .ebx ∨ r = .esi ∨ r = .edi ∨ r = .ebp → m'.gpr r = m.gpr r

section Fault

variable {gate : Gate} {m : Machine}

/-- With the flag cleared, it is clear. -/
theorem clear_interruptFlag (x : BitVec 32) :
    (x &&& ~~~interruptFlag) &&& interruptFlag = 0#32 := by
  rw [BitVec.and_assoc, show ~~~interruptFlag &&& interruptFlag = 0#32 from by decide,
    BitVec.and_zero]

/-- From user land the return address is the fifth word of the kernel stack. -/
theorem faultEntry_user (gate : Gate) (huser : m.cs &&& 3#32 ≠ 0#32) :
    (faultEntry tssEsp0 tssSs0 gate m).gpr .esp = slot tssEsp0 5 ∧
      (faultEntry tssEsp0 tssSs0 gate m).top = m.eip ∧
      (faultEntry tssEsp0 tssSs0 gate m).ss = tssSs0 ∧
      ∀ r, r ≠ .esp → (faultEntry tssEsp0 tssSs0 gate m).gpr r = m.gpr r := by
  have hfirst : tssEsp0 - 4#32 = slot tssEsp0 1 := by
    rw [← slot_sub tssEsp0 0, slot_zero]
  have hesp : (interruptEntry tssEsp0 m).gpr .esp = slot tssEsp0 5 := by
    simp only [interruptEntry, Machine.pushWord_gpr, Machine.set_gpr, if_true, hfirst, slot_sub,
      Nat.reduceAdd]
  unfold faultEntry Machine.top
  rw [if_neg huser]
  refine ⟨hesp, ?_, rfl, fun r hr => ?_⟩
  · dsimp only
    simp only [interruptEntry, Machine.pushWord_gpr, Machine.pushWord_mem, if_true,
      load32_store32_self]
  · dsimp only
    simp only [interruptEntry, Machine.pushWord_gpr, Machine.set_gpr, if_neg hr]

/-- From the kernel three words go on the stack it is on. -/
theorem faultEntry_kernel (gate : Gate) (hkernel : m.cs &&& 3#32 = 0#32) {n : ℕ}
    (hesp : m.gpr .esp = slot tssEsp0 n) :
    (faultEntry tssEsp0 tssSs0 gate m).gpr .esp = slot tssEsp0 (n + 3) ∧
      (faultEntry tssEsp0 tssSs0 gate m).top = m.eip ∧
      (faultEntry tssEsp0 tssSs0 gate m).ss = m.ss ∧
      ∀ r, r ≠ .esp → (faultEntry tssEsp0 tssSs0 gate m).gpr r = m.gpr r := by
  unfold faultEntry Machine.top
  rw [if_pos hkernel]
  refine ⟨?_, ?_, rfl, fun r hr => ?_⟩
  · dsimp only
    simp only [Machine.pushWord_gpr, if_true, hesp, slot_sub]
  · dsimp only
    simp only [Machine.pushWord_gpr, Machine.pushWord_mem, if_true, load32_store32_self]
  · dsimp only
    simp only [Machine.pushWord_gpr, if_neg hr]

/-- What the return of `idt_zero` makes of a fault. -/
theorem InKernel.of_fault {m₀ m' : Machine} {n : ℕ} (hgate : gate.selector = kernelCodeSelector)
    (hesp : (faultEntry tssEsp0 tssSs0 gate m).gpr .esp = slot tssEsp0 (n + 1))
    (htop : (faultEntry tssEsp0 tssSs0 gate m).top = m₀.eip)
    (hss : (faultEntry tssEsp0 tssSs0 gate m).ss = tssSs0)
    (hregs : ∀ r, r = .ebx ∨ r = .esi ∨ r = .edi ∨ r = .ebp →
      (faultEntry tssEsp0 tssSs0 gate m).gpr r = m₀.gpr r)
    (hret : ReturnsToCaller (faultEntry tssEsp0 tssSs0 gate m) m') : InKernel n m₀ m' := by
  refine ⟨hret.eip.trans htop, ?_, hret.ss.trans hss, ?_, ?_,
    fun r hr => (hret.kept r hr).trans (hregs r hr)⟩
  · rw [hret.cs]
    unfold faultEntry
    rw [← hgate]
  · rw [hret.interrupts]
    exact clear_interruptFlag _
  · rw [hret.esp, hesp]
    exact slot_add (show 4 % 4 = 0 by decide) (by omega)

/-- The first division by zero of a program. -/
theorem InKernel.first_fault {m' : Machine} (hgate : gate.selector = kernelCodeSelector)
    (huser : m.cs &&& 3#32 ≠ 0#32)
    (hret : ReturnsToCaller (faultEntry tssEsp0 tssSs0 gate m) m') : InKernel 4 m m' := by
  obtain ⟨hesp, htop, hss, hregs⟩ := faultEntry_user gate huser
  refine InKernel.of_fault hgate hesp htop hss (fun r hr => hregs r ?_) hret
  rintro rfl
  simp at hr

/-- The same instruction once more, which is now code of the kernel. -/
theorem InKernel.fault_again {m₀ m' : Machine} {n : ℕ} (h : InKernel n m₀ m)
    (hgate : gate.selector = kernelCodeSelector)
    (hret : ReturnsToCaller (faultEntry tssEsp0 tssSs0 gate m) m') : InKernel (n + 2) m₀ m' := by
  have hkernel : m.cs &&& 3#32 = 0#32 := by
    rw [h.cs]
    decide
  obtain ⟨hesp, htop, hss, hregs⟩ := faultEntry_kernel gate hkernel h.esp
  refine InKernel.of_fault hgate hesp (htop.trans h.eip) (hss.trans h.ss) (fun r hr => ?_) hret
  refine (hregs r ?_).trans (h.kept r hr)
  rintro rfl
  simp at hr

end Fault

section Runs

variable {gate : Gate} {idt_zero : Machine → Option Machine}

/-- One fault after the other. -/
def faults (gate : Gate) (idt_zero : Machine → Option Machine) (m : Machine) (n : ℕ) :
    Option Machine :=
  runPartial (fun m (_ : Unit) => divideError gate idt_zero m) m (List.replicate n ())

theorem faults_succ (m : Machine) (n : ℕ) :
    faults gate idt_zero m (n + 1) =
      (divideError gate idt_zero m).bind fun m' => faults gate idt_zero m' n := by
  unfold faults
  rw [List.replicate_succ, runPartial_cons]

/-- Each fault from the kernel leaves two more words on its stack. -/
theorem InKernel.faults (hgate : gate.selector = kernelCodeSelector)
    (hzero : ∀ m m', idt_zero m = some m' → ReturnsToCaller m m') {m₀ : Machine} :
    ∀ (n k : ℕ) {m m' : Machine}, InKernel k m₀ m → faults gate idt_zero m n = some m' →
      InKernel (k + 2 * n) m₀ m' := by
  intro n
  induction n with
  | zero =>
    intro k m m' h hrun
    obtain rfl : m = m' := Option.some.inj hrun
    exact h
  | succ n ih =>
    intro k m m' h hrun
    rw [faults_succ] at hrun
    obtain ⟨m₁, hfault, hrest⟩ := Option.bind_eq_some_iff.mp hrun
    have hagain := ih (k + 2) (h.fault_again hgate (hzero _ _ hfault)) hrest
    rwa [show k + 2 + 2 * n = k + 2 * (n + 1) from by omega] at hagain

/-- **Division by zero.** However often a program in user land faults at an instruction, it comes
back to that instruction with the code segment of the kernel, the kernel's stack segment, interrupts
kept out and the registers that C functions keep; after `n + 1` times the `4 + 2 * n` words below
the top of the kernel stack are lost. -/
theorem divide_error_runs (hgate : gate.selector = kernelCodeSelector)
    (hzero : ∀ m m', idt_zero m = some m' → ReturnsToCaller m m') {m m' : Machine}
    (huser : m.cs &&& 3#32 ≠ 0#32) (n : ℕ)
    (hrun : MaerOS.Analysis.faults gate idt_zero m (n + 1) = some m') :
    InKernel (4 + 2 * n) m m' := by
  rw [faults_succ] at hrun
  obtain ⟨m₁, hfault, hrest⟩ := Option.bind_eq_some_iff.mp hrun
  exact (InKernel.first_fault hgate huser (hzero _ _ hfault)).faults hgate hzero n 4 hrest

/-- Three divisions by zero in a row of a program that has interrupts on. -/
theorem divide_error_runs_three :
    let m : Machine := ⟨⟨fun _ => 0#32, 0x400000#32, 0x1b#32, 0x23#32, 0x202#32⟩, fun _ => 0#8⟩
    let idt_zero (m : Machine) : Option Machine := some { m.drop with eip := m.top }
    ∃ m', faults ⟨0x100b2c#32, kernelCodeSelector, true, 3#2, interruptGate⟩ idt_zero m 3 =
        some m' ∧ InKernel 8 m m' := by
  intro m idt_zero
  have hzero : ∀ m m', idt_zero m = some m' → ReturnsToCaller m m' := by
    intro m m' h
    obtain rfl : _ = m' := Option.some.inj h
    refine ⟨rfl, ?_, rfl, rfl, rfl, fun r hr => ?_⟩
    · simp [Machine.drop, Machine.set]
    · rcases hr with rfl | rfl | rfl | rfl <;> simp [Machine.drop, Machine.set]
  exact ⟨_, rfl, divide_error_runs rfl hzero (by decide) 2 rfl⟩

end Runs

end MaerOS.Analysis
