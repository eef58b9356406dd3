import MaerOS.Lib.X86Frame
import MaerOS.Model.Idt
import MaerOS.Model.Switch

/-!
# Interrupts that return: `idt.asm` and the stubs of `peachos.asm`

A system call goes through three pieces of assembly: the stub that the program calls,
which puts the number of the command in `eax` and the argument on its stack;
`isr80h_wrapper`, which builds the frame and calls `isr80h_handler`; and the rest of the
stub. The other interrupts go through the entry that the macro `interrupt` makes for
each of them.

What the handler in C does is a parameter: it takes the machine as it is when the
handler is called to the machine when it has returned, and has no outcome where it does
not return.
-/

set_option autoImplicit false

namespace MaerOS.Model

open MaerOS.Lib

/-! ## `idt.asm` -/

/-- `isr80h_wrapper` up to the call of `isr80h_handler`. `idt.asm:104-125` -/
def isr80hEntry : List Instr := [.pushad, .push .esp, .push .eax, .call]

/-- `isr80h_wrapper` behind that call. `idt.asm:126-132` -/
def isr80hExit (tmp_res : Addr) : List Op :=
  [.storeAt tmp_res .eax,
    .instr (.add .esp 8#32),
    .popad,
    .loadAt .eax tmp_res,
    .instr .iretd]

/-- An interrupt `0x80`, from the program and back. -/
def isr80hWrapper (alu : BitVec 32 → BitVec 32 → BitVec 32) (tmp_res : Addr)
    (isr80h_handler : Machine → Option Machine) (m : Machine) : Option Machine :=
  (isr80h_handler (execAll alu (interruptEntry tssEsp0 m) isr80hEntry)).map fun m =>
    execOps alu m (isr80hExit tmp_res)

/-- The entry of an interrupt behind the call of `interrupt_handler`. `idt.asm:87-89` -/
def interruptExit : List Op := [.instr (.add .esp 8#32), .popad, .instr .iretd]

/-- What the processor does on an exception that comes with an error code: it pushes the code on top
of the rest. -/
def exceptionEntry (esp0 code : BitVec 32) (m : Machine) : Machine :=
  (interruptEntry esp0 m).pushWord code

/-- An exception with an error code, which has the same entry as the other interrupts.
`idt.asm:70-90` -/
def exceptionStub (alu : BitVec 32 → BitVec 32 → BitVec 32) (interrupt code : BitVec 32)
    (interrupt_handler : Machine → Option Machine) (m : Machine) : Option Machine :=
  (interrupt_handler (execAll alu (exceptionEntry tssEsp0 code m) (interruptCode interrupt))).map
    fun m => execOps alu m interruptExit

/-- `tss.ss0`, `KERNEL_DATA_SELECTOR`. `kernel.c:104` -/
def tssSs0 : BitVec 32 := 0x10#32

/-- The flag that lets interrupts in. -/
def interruptFlag : BitVec 32 := 0x200#32

/-- What the processor does with a fault that has no error code: code of the kernel stays on its
stack, other code changes to the kernel's, and an interrupt gate keeps interrupts out. The address
that is saved is that of the instruction which faulted. -/
def faultEntry (esp0 ss0 : BitVec 32) (gate : Gate) (m : Machine) : Machine :=
  let saved :=
    if m.cs &&& 3#32 = 0#32 then ((m.pushWord m.eflags).pushWord m.cs).pushWord m.eip
    else { interruptEntry esp0 m with ss := ss0 }
  { saved with
    cs := gate.selector.setWidth 32
    eip := gate.offset
    eflags := saved.eflags &&& ~~~interruptFlag }

/-- A division by zero, up to the return of `idt_zero`: its gate leads to the C function itself.
`idt.c:87-90,142` -/
def divideError (gate : Gate) (idt_zero : Machine → Option Machine) (m : Machine) :
    Option Machine := idt_zero (faultEntry tssEsp0 tssSs0 gate m)

/-! ## `peachos.asm` -/

/-- A function of the library that makes a system call: the code before and behind `int 0x80`. -/
structure Stub where
  enter : List Op
  leave : List Op

/-- The stub of a command without an argument. -/
def Stub.plain (command : BitVec 32) : Stub where
  enter := [.instr (.push .ebp), .instr (.mov .ebp .esp), .movImm .eax command]
  leave := [.instr (.pop .ebp), .instr .ret]

/-- The stub of a command with one argument, which it pushes once more. -/
def Stub.withArgument (command : BitVec 32) : Stub where
  enter :=
    [.instr (.push .ebp), .instr (.mov .ebp .esp), .movImm .eax command, .instr (.pushMem .ebp 8)]
  leave := [.instr (.add .esp 4#32), .instr (.pop .ebp), .instr .ret]

/-- `print`, which pushes its argument first. `peachos.asm:16-25` -/
def Stub.print : Stub where
  enter :=
    [.instr (.push .ebp), .instr (.mov .ebp .esp), .instr (.pushMem .ebp 8), .movImm .eax 1#32]
  leave := [.instr (.add .esp 4#32), .instr (.pop .ebp), .instr .ret]

/-- `peachos_getkey`. `peachos.asm:28-34` -/
def Stub.peachosGetkey : Stub := .plain 2#32

/-- `maeros_putchar`. `peachos.asm:37-45` -/
def Stub.maerosPutchar : Stub := .withArgument 3#32

/-- `maeros_malloc`. `peachos.asm:48-56` -/
def Stub.maerosMalloc : Stub := .withArgument 4#32

/-- `maeros_free`. `peachos.asm:59-67` -/
def Stub.maerosFree : Stub := .withArgument 5#32

/-- `maeros_process_load_start`. `peachos.asm:70-78` -/
def Stub.maerosProcessLoadStart : Stub := .withArgument 6#32

/-- `maeros_system`. `peachos.asm:81-89` -/
def Stub.maerosSystem : Stub := .withArgument 7#32

/-- `maeros_process_get_arguments`. `peachos.asm:93-101` -/
def Stub.maerosProcessGetArguments : Stub := .withArgument 8#32

/-- `maeros_exit`. `peachos.asm:104-110` -/
def Stub.maerosExit : Stub := .plain 9#32

/-- The functions, with the number of their command and whether they have an argument. -/
def Stub.table : List (BitVec 32 × Bool × Stub) :=
  [(1#32, true, .print), (2#32, false, .peachosGetkey), (3#32, true, .maerosPutchar),
    (4#32, true, .maerosMalloc), (5#32, true, .maerosFree),
    (6#32, true, .maerosProcessLoadStart), (7#32, true, .maerosSystem),
    (8#32, true, .maerosProcessGetArguments), (9#32, false, .maerosExit)]

/-- The machine when `isr80h_handler` is called in the system call of a stub. -/
def callEntry (alu : BitVec 32 → BitVec 32 → BitVec 32) (stub : Stub) (m : Machine) : Machine :=
  execAll alu (interruptEntry tssEsp0 (execOps alu m stub.enter)) isr80hEntry

/-- A call of a stub, up to its return. -/
def Stub.call (alu : BitVec 32 → BitVec 32 → BitVec 32) (tmp_res : Addr)
    (isr80h_handler : Machine → Option Machine) (stub : Stub) (m : Machine) : Option Machine :=
  (isr80hWrapper alu tmp_res isr80h_handler (execOps alu m stub.enter)).map fun m =>
    execOps alu m stub.leave

end MaerOS.Model
