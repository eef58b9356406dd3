import MaerOS.Model.Process

/-!
# From a command line to the arguments of a process

The shell cuts a command into a list of arguments (`peachos_parse_command`, with
`strtok` and `strncpy` of the standard library, and one `maeros_malloc` for each
argument), and the kernel copies the list into the memory of the new process
(`process_inject_arguments`).

Addresses are those of physical memory: what `maeros_malloc` returns is mapped to
itself, and the stack of the program, which has the array `scommand`, is one
allocation. A loop that never ends has no outcome: it would go through the whole
address space.
-/

set_option autoImplicit false

namespace MaerOS.Model

open MaerOS.Lib

/-- `struct process_arguments`. `process.h:30-34` -/
structure ProcessArguments where
  argc : ℤ
  argv : Addr

/-- The kernel with the arguments of its processes and the cursor `sp` of `strtok`. -/
structure CommandKernel where
  kernel : Kernel
  arguments : Addr → ProcessArguments
  sp : Addr

/-- Code that works on commands. -/
abbrev CommandM := StateT CommandKernel Option

/-- Code of the kernel. -/
def onKernel {α : Type} (m : KernelM α) : CommandM α := fun s =>
  (m s.kernel).map fun r => (r.1, { s with kernel := r.2 })

/-- Write to memory. -/
def onMemory (f : Memory → Memory) : CommandM Unit :=
  modify fun s => { s with kernel := { s.kernel with mem := f s.kernel.mem } }

/-- As many bytes as there are addresses. -/
def addressSpace : ℕ := 2 ^ 32

/-! ## `string.c` -/

/-- The loop of `strncpy`, `n` rounds from index `i`, and the terminator. -/
def strncpyLoop (dest src : Addr) : (n i : ℕ) → Memory → Memory
  | 0, i, m => Function.update m (dest + BitVec.ofNat 32 i) 0#8
  | n + 1, i, m =>
    if m (src + BitVec.ofNat 32 i) = 0#8 then Function.update m (dest + BitVec.ofNat 32 i) 0#8
    else strncpyLoop dest src n (i + 1)
      (Function.update m (dest + BitVec.ofNat 32 i) (m (src + BitVec.ofNat 32 i)))

/-- `strncpy`: at most `count - 1` bytes and a terminator. `string.c:96-109` -/
def strncpy (m : Memory) (dest src : Addr) (count : ℕ) : Memory :=
  strncpyLoop dest src (count - 1) 0 m

/-- The loop of `strtok` over the delimiters in front of a token. -/
def strtokSkip (m : Memory) (delimiters : List (BitVec 8)) : (n : ℕ) → (p_start : Addr) →
    Option Addr
  | 0, _ => none
  | n + 1, p_start =>
    if m p_start ∈ delimiters then strtokSkip m delimiters n (p_start + 1#32) else some p_start

/-- The loop of `strtok` to the end of the token. A delimiter becomes the terminator. -/
def strtokEnd (m : Memory) (delimiters : List (BitVec 8)) : (n : ℕ) → (sp : Addr) →
    Option (Memory × Addr)
  | 0, _ => none
  | n + 1, sp =>
    if m sp = 0#8 then some (m, sp)
    else if m sp ∈ delimiters then some (Function.update m sp 0#8, sp + 1#32)
    else strtokEnd m delimiters n (sp + 1#32)

/-- `strtok`. A string that is given while a scan is in progress is not looked at.
`programs/stdlib/src/string.c:120-176` -/
def strtok (str : Addr) (delimiters : List (BitVec 8)) : CommandM Addr := fun s =>
  if str = 0#32 ∧ s.sp = 0#32 then some (0#32, s)
  else
    let sp := if str ≠ 0#32 ∧ s.sp = 0#32 then str else s.sp
    match strtokSkip s.kernel.mem delimiters addressSpace sp with
    | none => none
    | some p_start =>
      if s.kernel.mem p_start = 0#8 then some (0#32, { s with sp := 0#32 })
      else
        match strtokEnd s.kernel.mem delimiters addressSpace p_start with
        | none => none
        | some (mem, sp) => some (p_start, { s with kernel := { s.kernel with mem := mem }, sp := sp })

/-! ## The argument list of a command -/

/-- `sizeof(((struct command_argument*) 0)->argument)`. `peachos.h:11` -/
abbrev sizeofArgument : ℕ := 512

/-- `sizeof(struct command_argument)`: the text and the pointer `next`. -/
def sizeofCommandArgument : BitVec 32 := 516#32

/-- `&argument->next`. -/
def commandNext (argument : Addr) : Addr := argument + BitVec.ofNat 32 sizeofArgument

/-- `argument->next = next`. -/
def setNext (argument next : Addr) : CommandM Unit :=
  onMemory fun m => store32 m (commandNext argument) next

/-- `maeros_malloc`, a system call to `isr80h_command4_malloc`. `isr80h/heap.c:7-12` -/
def maerosMalloc (size : BitVec 32) : CommandM Addr := onKernel do
  let k ← get
  deref k.sched.current_task
  processMalloc (k.sched.tasks k.sched.current_task).process size

/-- A new `struct command_argument` with the text of `token`, or the null pointer. -/
def newCommandArgument (token : Addr) : CommandM Addr := do
  let new_command ← maerosMalloc sizeofCommandArgument
  if new_command = 0#32 then pure 0#32
  else do
    onMemory fun m => strncpy m new_command token sizeofArgument
    setNext new_command 0#32
    pure new_command

/-- The space. -/
def commandDelimiters : List (BitVec 8) := [0x20#8]

/-- The loop of `peachos_parse_command`, with the `strtok` in front of each of its rounds. -/
def peachosParseLoop : (n : ℕ) → (current : Addr) → CommandM Unit
  | 0, _ => failure
  | n + 1, current => do
    let token ← strtok 0#32 commandDelimiters
    if token = 0#32 then pure ()
    else do
      let new_command ← newCommandArgument token
      if new_command = 0#32 then pure ()
      else do
        setNext current new_command
        peachosParseLoop n new_command

/-- `peachos_parse_command`, with the address of its array `scommand[1025]`.
`programs/stdlib/src/peachos.c:5-50` -/
def peachosParseCommand (scommand command : Addr) (max : ℤ) : CommandM Addr := do
  if max ≥ 1025 then pure 0#32
  else do
    onMemory fun m => strncpy m scommand command 1025
    let token ← strtok scommand commandDelimiters
    if token = 0#32 then pure 0#32
    else do
      let root_command ← newCommandArgument token
      if root_command = 0#32 then pure 0#32
      else do
        peachosParseLoop addressSpace root_command
        pure root_command

/-! ## The arguments of a process -/

/-- `process_count_command_arguments`, from the count `i` on. `process.c:248-259` -/
def processCountCommandArguments (m : Memory) : (n : ℕ) → (current : Addr) → (i : ℕ) → Option ℕ
  | 0, _, _ => none
  | n + 1, current, i =>
    if current = 0#32 then some i
    else processCountCommandArguments m n (load32 m (commandNext current)) (i + 1)

/-- The loop of `process_inject_arguments`. -/
def processInjectLoop (process argv : Addr) : (n : ℕ) → (current : Addr) → (i : ℕ) → CommandM ℤ
  | 0, _, _ => failure
  | n + 1, current, i =>
    if current = 0#32 then pure 0
    else do
      let argument_str ← onKernel (processMalloc process (BitVec.ofNat 32 sizeofArgument))
      if argument_str = 0#32 then pure (-enomem)
      else do
        onMemory fun m => strncpy m argument_str current sizeofArgument
        onMemory fun m => store32 m (wordIndex argv i) argument_str
        let s ← get
        processInjectLoop process argv n (load32 s.kernel.mem (commandNext current)) (i + 1)

/-- `process_inject_arguments`. `process.c:269-308` -/
def processInjectArguments (process root_argument : Addr) : CommandM ℤ := do
  let s ← get
  match processCountCommandArguments s.kernel.mem addressSpace root_argument 0 with
  | none => failure
  | some argc =>
    if argc = 0 then pure (-eio)
    else do
      let argv ← onKernel (processMalloc process (BitVec.ofNat 32 (4 * argc)))
      if argv = 0#32 then pure (-enomem)
      else do
        let res ← processInjectLoop process argv addressSpace root_argument 0
        if res < 0 then pure res
        else do
          modify fun s =>
            { s with arguments := Function.update s.arguments process ⟨argc, argv⟩ }
          pure res

end MaerOS.Model
