import MaerOS.Lib.Memory
import Mathlib.Logic.Function.Basic

/-!
# A fragment of the 32-bit x86 machine

Straight-line code over the general registers, the flags and the stack, with the
instructions a kernel needs to enter and leave an interrupt. The stack is in
memory, as on the machine: `slot e i` is the address `i` words below `e`, pushing
moves from one slot to the next, and a store to a slot is seen at that slot only.

What an arithmetic instruction leaves in the flags is a parameter. The data segment
registers are not modelled.
-/

set_option autoImplicit false

namespace MaerOS.Lib

/-- The general registers. -/
inductive Reg where
  | eax | ebx | ecx | edx | esi | edi | ebp | esp
  deriving DecidableEq

/-- The registers an interrupt saves. -/
structure Cpu where
  gpr : Reg → BitVec 32
  eip : BitVec 32
  cs : BitVec 32
  ss : BitVec 32
  eflags : BitVec 32

/-- Registers and memory. -/
structure Machine extends Cpu where
  mem : Memory

/-- The instructions. -/
inductive Instr where
  /-- `mov dst, src` -/
  | mov (dst src : Reg)
  /-- `mov dst, [base+off]` -/
  | load (dst base : Reg) (off : ℕ)
  /-- `mov ax, [base+off]` for the low half of `dst` -/
  | loadLow (dst base : Reg) (off : ℕ)
  /-- `push r` -/
  | push (r : Reg)
  /-- `push dword [base+off]` -/
  | pushMem (base : Reg) (off : ℕ)
  /-- `push dword v` -/
  | pushImm (v : BitVec 32)
  /-- `pop r` -/
  | pop (r : Reg)
  | pushf
  /-- `or r, v` -/
  | or (r : Reg) (v : BitVec 32)
  /-- `add r, v` -/
  | add (r : Reg) (v : BitVec 32)
  /-- The push of the return address; the code called follows in the listing. -/
  | call
  | ret
  | pushad
  | iretd

/-- Set a general register. -/
def Machine.set (m : Machine) (r : Reg) (v : BitVec 32) : Machine :=
  { m with gpr := Function.update m.gpr r v }

/-- Push a word. -/
def Machine.pushWord (m : Machine) (v : BitVec 32) : Machine :=
  let m' := m.set .esp (m.gpr .esp - 4#32)
  { m' with mem := store32 m.mem (m.gpr .esp - 4#32) v }

/-- The word on top of the stack. -/
def Machine.top (m : Machine) : BitVec 32 := load32 m.mem (m.gpr .esp)

/-- Take the top off the stack. -/
def Machine.drop (m : Machine) : Machine := m.set .esp (m.gpr .esp + 4#32)

/-- The word at `[base+off]`. -/
def Machine.at (m : Machine) (base : Reg) (off : ℕ) : BitVec 32 :=
  load32 m.mem (m.gpr base + BitVec.ofNat 32 off)

/-- Carry out one instruction; `alu old v` are the flags after a result `v`. -/
def exec (alu : BitVec 32 → BitVec 32 → BitVec 32) (m : Machine) : Instr → Machine
  | .mov dst src => m.set dst (m.gpr src)
  | .load dst base off => m.set dst (m.at base off)
  | .loadLow dst base off =>
    m.set dst ((m.gpr dst &&& 0xffff0000#32) ||| (m.at base off &&& 0xffff#32))
  | .push r => m.pushWord (m.gpr r)
  | .pushMem base off => m.pushWord (m.at base off)
  | .pushImm v => m.pushWord v
  | .pop r => m.drop.set r m.top
  | .pushf => m.pushWord m.eflags
  | .or r v =>
    let m' := m.set r (m.gpr r ||| v)
    { m' with eflags := alu m.eflags (m.gpr r ||| v) }
  | .add r v =>
    let m' := m.set r (m.gpr r + v)
    { m' with eflags := alu m.eflags (m.gpr r + v) }
  | .call => m.pushWord m.eip
  | .ret => { m.drop with eip := m.top }
  | .pushad =>
    let esp := m.gpr .esp
    let m := m.pushWord (m.gpr .eax)
    let m := m.pushWord (m.gpr .ecx)
    let m := m.pushWord (m.gpr .edx)
    let m := m.pushWord (m.gpr .ebx)
    let m := m.pushWord esp
    let m := m.pushWord (m.gpr .ebp)
    let m := m.pushWord (m.gpr .esi)
    m.pushWord (m.gpr .edi)
  | .iretd =>
    let eip := m.top
    let m := m.drop
    let cs := m.top
    let m := m.drop
    let eflags := m.top
    let m := m.drop
    let esp := m.top
    let m := m.drop
    let ss := m.top
    let m := m.set .esp esp
    { m with eip := eip, cs := cs, eflags := eflags, ss := ss }

/-- Carry out a listing. -/
def execAll (alu : BitVec 32 → BitVec 32 → BitVec 32) (m : Machine) (code : List Instr) :
    Machine := code.foldl (exec alu) m

/-- A listing in two parts. -/
theorem execAll_append (alu : BitVec 32 → BitVec 32 → BitVec 32) (m : Machine)
    (xs ys : List Instr) : execAll alu m (xs ++ ys) = execAll alu (execAll alu m xs) ys :=
  List.foldl_append

/-- What the processor does on an interrupt from user land: it changes to the stack at `esp0` and
saves where it came from. -/
def interruptEntry (esp0 : BitVec 32) (m : Machine) : Machine :=
  let user := m.toCpu
  let m := m.set .esp esp0
  let m := m.pushWord user.ss
  let m := m.pushWord (user.gpr .esp)
  let m := m.pushWord user.eflags
  let m := m.pushWord user.cs
  m.pushWord user.eip

/-! ## Registers after an update -/

/-- Reading a register that was set, or another one. -/
@[simp] theorem Machine.set_gpr (m : Machine) (r r' : Reg) (v : BitVec 32) :
    (m.set r v).gpr r' = if r' = r then v else m.gpr r' := by
  unfold Machine.set
  by_cases h : r' = r
  · rw [if_pos h, h]
    exact Function.update_self _ _ _
  · rw [if_neg h]
    exact Function.update_of_ne h _ _

@[simp] theorem Machine.set_mem (m : Machine) (r : Reg) (v : BitVec 32) : (m.set r v).mem = m.mem :=
  rfl

@[simp] theorem Machine.set_eflags (m : Machine) (r : Reg) (v : BitVec 32) :
    (m.set r v).eflags = m.eflags := rfl

@[simp] theorem Machine.pushWord_gpr (m : Machine) (v : BitVec 32) (r : Reg) :
    (m.pushWord v).gpr r = if r = .esp then m.gpr .esp - 4#32 else m.gpr r :=
  Machine.set_gpr m .esp r _

@[simp] theorem Machine.pushWord_mem (m : Machine) (v : BitVec 32) :
    (m.pushWord v).mem = store32 m.mem (m.gpr .esp - 4#32) v := rfl

@[simp] theorem Machine.pushWord_eflags (m : Machine) (v : BitVec 32) :
    (m.pushWord v).eflags = m.eflags := rfl

/-! ## Slots -/

/-- The address `i` words below `e`. -/
def slot (e : BitVec 32) (i : ℕ) : BitVec 32 := e - BitVec.ofNat 32 (4 * i)

/-- The slot of `e` itself. -/
theorem slot_zero (e : BitVec 32) : slot e 0 = e := by
  unfold slot
  simp

/-- Pushing goes to the next slot. -/
theorem slot_sub (e : BitVec 32) (i : ℕ) : slot e i - 4#32 = slot e (i + 1) := by
  unfold slot
  rw [show 4 * (i + 1) = 4 * i + 4 from by ring, BitVec.ofNat_add]
  bv_omega

/-- Going up by `off` bytes. -/
theorem slot_add {e : BitVec 32} {i off : ℕ} (h4 : off % 4 = 0) (h : off / 4 ≤ i) :
    slot e i + BitVec.ofNat 32 off = slot e (i - off / 4) := by
  unfold slot
  rw [show 4 * i = 4 * (i - off / 4) + off from by omega, BitVec.ofNat_add]
  bv_omega

/-- Where a slot is, as a number. -/
theorem slot_toNat {e : BitVec 32} {i : ℕ} (h : 4 * i ≤ e.toNat) :
    (slot e i).toNat = e.toNat - 4 * i := by
  have := e.isLt
  unfold slot
  rw [BitVec.toNat_sub, BitVec.toNat_ofNat]
  omega

/-- A store to one slot is not seen at another. -/
theorem load32_store32_slot {m : Memory} {e v : BitVec 32} {i j : ℕ} (he : e.toNat % 4 = 0)
    (hi : 4 * i ≤ e.toNat) (hj : 4 * j ≤ e.toNat) (hij : i ≠ j) :
    load32 (store32 m (slot e i) v) (slot e j) = load32 m (slot e j) := by
  have h1 := slot_toNat hi
  have h2 := slot_toNat hj
  refine load32_store32_of_ne (by omega) (by omega) fun heq => ?_
  have := congrArg BitVec.toNat heq
  omega

end MaerOS.Lib
