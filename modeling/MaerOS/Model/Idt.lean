import MaerOS.Lib.Gate
import MaerOS.Lib.Run
import MaerOS.Model.Config

/-!
# The interrupt descriptor table and the tables of handlers: `idt.c`

`idt_init` fills a table of 512 gates in memory and has the processor load it. The
gates of all vectors but two lead to the entries that the assembler made, which call
`interrupt_handler` with their number; that looks into `interrupt_callbacks`. Vector
`0x80` leads to the system calls, which are looked up in `isr80h_commands`.

A function is its address, and the null pointer is none. What the functions called do
is a parameter. `panic` does not return and has no outcome.
-/

set_option autoImplicit false

namespace MaerOS.Model

open MaerOS.Lib

/-- `KERNEL_CODE_SELECTOR`. `config.h:4` -/
def kernelCodeSelector : BitVec 16 := 0x08#16

/-- `MAEROS_TOTAL_INTERRUPTS`. `config.h:11` -/
abbrev maerosTotalInterrupts : ℕ := 512

/-- `MAEROS_MAX_ISR80H_COMMANDS`. `config.h:78` -/
abbrev maerosMaxIsr80hCommands : ℕ := 1024

/-! ## Gates -/

/-- Where the linker put the data and the functions of `idt.c` and `idt.asm`; the pointer table is
given by its entries. -/
structure IdtPlaces where
  idt_descriptors : Addr
  idtr_descriptor : Addr
  interrupt_pointer_table : ℕ → Addr
  idt_zero : Addr
  isr80h_wrapper : Addr
  idt_handle_exception : Addr
  idt_clock : Addr

/-- `idt_set`; a descriptor is packed. `idt.c:92-100`, `idt.h:19-26` -/
def idtSet (idt_descriptors : Addr) (m : Memory) (interrupt_no : ℕ) (address : Addr) : Memory :=
  let desc := idt_descriptors + BitVec.ofNat 32 (8 * interrupt_no)
  let m := store16 m desc ((address &&& 0x0000ffff#32).setWidth 16)
  let m := store16 m (desc + 2#32) kernelCodeSelector
  let m := Function.update m (desc + 4#32) 0x00#8
  let m := Function.update m (desc + 5#32) 0xEE#8
  store16 m (desc + 6#32) ((address >>> 16).setWidth 16)

/-- The loop of `idt_init` over the pointer table, the first `n` rounds. -/
def idtSetLoop (p : IdtPlaces) (m : Memory) (n : ℕ) : Memory :=
  (List.range n).foldl
    (fun m i => idtSet p.idt_descriptors m i (p.interrupt_pointer_table i)) m

/-! ## Handlers -/

/-- `idt_register_interrupt_callback`. `idt.c:168-178` -/
def idtRegisterInterruptCallback (interrupt_callbacks : ℕ → Addr) (interrupt : ℤ)
    (interrupt_callback : Addr) : ℤ × (ℕ → Addr) :=
  if interrupt < 0 ∨ interrupt ≥ maerosTotalInterrupts then (-einvarg, interrupt_callbacks)
  else (0, Function.update interrupt_callbacks interrupt.toNat interrupt_callback)

/-- The table, the handlers, and the limit and the base that the processor has loaded. -/
structure Idt where
  mem : Memory
  interrupt_callbacks : ℕ → Addr
  loaded : BitVec 16 × Addr

/-- Register a handler and do not look at the result. -/
def Idt.register (s : Idt) (interrupt : ℤ) (interrupt_callback : Addr) : Idt :=
  { s with
    interrupt_callbacks :=
      (idtRegisterInterruptCallback s.interrupt_callbacks interrupt interrupt_callback).2 }

/-- `idt_init`; `idt_load` is one `lidt`. `idt.c:131-165` -/
def idtInit (p : IdtPlaces) (s : Idt) : Idt :=
  let m := zeroFill s.mem p.idt_descriptors (8 * maerosTotalInterrupts)
  let m := store16 m p.idtr_descriptor (BitVec.ofNat 16 (8 * maerosTotalInterrupts - 1))
  let m := store32 m (p.idtr_descriptor + 2#32) p.idt_descriptors
  let m := idtSetLoop p m maerosTotalInterrupts
  let m := idtSet p.idt_descriptors m 0 p.idt_zero
  let m := idtSet p.idt_descriptors m 0x80 p.isr80h_wrapper
  let s := { s with mem := m }
  let s := (List.range 0x20).foldl (fun s (i : ℕ) => s.register i p.idt_handle_exception) s
  let s := s.register 0x20 p.idt_clock
  { s with loaded := (load16 s.mem p.idtr_descriptor, load32 s.mem (p.idtr_descriptor + 2#32)) }

/-- What `interrupt_handler` calls. -/
structure InterruptCalls (σ : Type) where
  kernel_page : σ → Option σ
  task_current_save_state : (frame : Addr) → σ → Option σ
  callback : (interrupt_callback frame : Addr) → σ → Option σ
  task_page : σ → Option σ
  end_of_interrupt : σ → Option σ

/-- `interrupt_handler`. `idt.c:71-82` -/
def interruptHandler {σ : Type} (calls : InterruptCalls σ) (interrupt_callbacks : ℕ → Addr)
    (interrupt : ℕ) (frame : Addr) (s : σ) : Option σ := do
  let s ← calls.kernel_page s
  let s ← (if interrupt_callbacks interrupt ≠ 0#32 then do
      let s ← calls.task_current_save_state frame s
      calls.callback (interrupt_callbacks interrupt) frame s
    else some s)
  let s ← calls.task_page s
  calls.end_of_interrupt s

/-! ## System calls -/

/-- `isr80h_register_command`; it panics out of bounds and on a command that is there.
`idt.c:185-198` -/
def isr80hRegisterCommand (isr80h_commands : ℕ → Addr) (command_id : ℤ) (command : Addr) :
    Option (ℕ → Addr) :=
  if command_id < 0 ∨ command_id ≥ maerosMaxIsr80hCommands then none
  else if isr80h_commands command_id.toNat ≠ 0#32 then none
  else some (Function.update isr80h_commands command_id.toNat command)

/-- `isr80h_handle_command`, where `call` carries out a command. `idt.c:201-221` -/
def isr80hHandleCommand {σ : Type} (isr80h_commands : ℕ → Addr)
    (call : (command_func frame : Addr) → σ → Option (Addr × σ)) (command : ℤ) (frame : Addr)
    (s : σ) : Option (Addr × σ) :=
  if command < 0 ∨ command ≥ maerosMaxIsr80hCommands then some (0#32, s)
  else
    let command_func := isr80h_commands command.toNat
    if command_func = 0#32 then some (0#32, s)
    else call command_func frame s

/-- `isr80h_register_commands`, with the addresses of the commands by their numbers.
`isr80h.c:23-34` -/
def isr80hRegisterCommands (isr80h_commands : ℕ → Addr) (command : ℕ → Addr) :
    Option (ℕ → Addr) :=
  (List.range 10).foldlM
    (fun (table : ℕ → Addr) (i : ℕ) => isr80hRegisterCommand table i (command i)) isr80h_commands

end MaerOS.Model
