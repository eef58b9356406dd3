import MaerOS.Model.Kernel

/-!
# The ELF loader: `elfloader.c`

The image of a file is read into memory as it is; the header and the program
headers are read back from there, field by field, at their offsets in the packed C
structures.

The file layer is taken as it appears to the loader: `FilePass` holds what `fopen`,
`fstat` and `fread` return during one reading of a file, and the bytes that
`fread` stores. The heap blocks it takes and gives back meanwhile are left out here;
`Model/ProcessTable` runs the loader with them.
-/

set_option autoImplicit false

namespace MaerOS.Model

open MaerOS.Lib

/-- What the file layer does while a file is opened, measured and read once. -/
structure FilePass where
  fopen : ℕ
  fstat : ℤ
  filesize : BitVec 32
  fread : ℤ
  bytes : List (BitVec 8)

/-- `fread(ptr, size, 1, fd)`; nothing is read when `size` is zero. `file.c:241-262` -/
def FilePass.read (pass : FilePass) (ptr : Addr) (size : BitVec 32) : KernelM ℤ := do
  if size = 0#32 then pure (-einvarg)
  else do
    (if (pass.bytes.take size.toNat).isEmpty then pure () else deref ptr)
    modify fun k => { k with mem := storeBytes k.mem ptr (pass.bytes.take size.toNat) }
    pure pass.fread

/-! ## Headers -/

/-- `elf_valid_signature`: `0x7f`, `E`, `L`, `F`. `elfloader.c:19-22` -/
def elfValidSignature (mem : Memory) (buffer : Addr) : Bool :=
  mem buffer == 0x7f#8 && mem (buffer + 1#32) == 0x45#8 && mem (buffer + 2#32) == 0x4c#8 &&
    mem (buffer + 3#32) == 0x46#8

/-- `elf_valid_class`: none or 32 bits. `elfloader.c:26-30` -/
def elfValidClass (mem : Memory) (header : Addr) : Bool :=
  mem (header + 4#32) == 0#8 || mem (header + 4#32) == 1#8

/-- `elf_valid_encoding`: none or little endian. `elfloader.c:34-37` -/
def elfValidEncoding (mem : Memory) (header : Addr) : Bool :=
  mem (header + 5#32) == 0#8 || mem (header + 5#32) == 1#8

/-- `header->e_phoff`. -/
def elfPhoff (mem : Memory) (header : Addr) : BitVec 32 := load32 mem (header + 28#32)

/-- `header->e_phnum`. -/
def elfPhnum (mem : Memory) (header : Addr) : ℕ := (load16 mem (header + 44#32)).toNat

/-- `elf_has_program_header`. `elfloader.c:49-52` -/
def elfHasProgramHeader (mem : Memory) (header : Addr) : Bool := elfPhoff mem header != 0#32

/-- `elf_validate_loaded`. `elfloader.c:136-139` -/
def elfValidateLoaded (mem : Memory) (header : Addr) : ℤ :=
  if elfValidSignature mem header && elfValidClass mem header && elfValidEncoding mem header &&
    elfHasProgramHeader mem header then maerosAllOk else -einformat

/-- `elf_pheader`. `elfloader.c:75-83` -/
def elfPheader (mem : Memory) (header : Addr) : Addr :=
  if elfPhoff mem header = 0#32 then 0#32 else header + elfPhoff mem header

/-- `elf_program_header`; a program header has 32 bytes. `elfloader.c:86-89` -/
def elfProgramHeader (mem : Memory) (header : Addr) (index : ℕ) : Addr :=
  elfPheader mem header + BitVec.ofNat 32 (32 * index)

/-- `phdr->p_type`. -/
def phdrType (mem : Memory) (phdr : Addr) : BitVec 32 := load32 mem phdr
/-- `phdr->p_offset`. -/
def phdrOffset (mem : Memory) (phdr : Addr) : BitVec 32 := load32 mem (phdr + 4#32)
/-- `phdr->p_vaddr`. -/
def phdrVaddr (mem : Memory) (phdr : Addr) : Addr := load32 mem (phdr + 8#32)
/-- `phdr->p_filesz`. -/
def phdrFilesz (mem : Memory) (phdr : Addr) : BitVec 32 := load32 mem (phdr + 16#32)
/-- `phdr->p_memsz`. -/
def phdrMemsz (mem : Memory) (phdr : Addr) : BitVec 32 := load32 mem (phdr + 20#32)
/-- `phdr->p_flags`. -/
def phdrFlags (mem : Memory) (phdr : Addr) : BitVec 32 := load32 mem (phdr + 24#32)

/-- `elf_phdr_phys_address`. `elfloader.c:98-101` -/
def elfPhdrPhysAddress (mem : Memory) (file : ElfFile) (phdr : Addr) : Addr :=
  file.elf_memory + phdrOffset mem phdr

/-! ## Loading -/

/-- `elf_process_phdr_pt_load`: the base is the lowest and the end the highest address of a loaded
segment. `elfloader.c:143-160` -/
def elfProcessPhdrPtLoad (mem : Memory) (file : ElfFile) (phdr : Addr) : ℤ × ElfFile :=
  let file :=
    if file.virtual_base_address ≥ phdrVaddr mem phdr ∨ file.virtual_base_address = 0#32 then
      { file with
        virtual_base_address := phdrVaddr mem phdr
        physical_base_address := file.elf_memory + phdrOffset mem phdr }
    else file
  let end_virtual_address := phdrVaddr mem phdr + phdrFilesz mem phdr
  let file :=
    if file.virtual_end_address ≤ end_virtual_address ∨ file.virtual_end_address = 0#32 then
      { file with
        virtual_end_address := end_virtual_address
        physical_end_address := file.elf_memory + phdrOffset mem phdr + phdrFilesz mem phdr }
    else file
  (0, file)

/-- `elf_process_pheader`: only `PT_LOAD` segments count. `elfloader.c:163-174` -/
def elfProcessPheader (mem : Memory) (file : ElfFile) (phdr : Addr) : ℤ × ElfFile :=
  if phdrType mem phdr = 1#32 then elfProcessPhdrPtLoad mem file phdr else (0, file)

/-- The loop of `elf_process_pheaders`, `n` program headers from index `i`. -/
def elfProcessPheadersLoop (mem : Memory) : (n i : ℕ) → ElfFile → (res : ℤ) → ℤ × ElfFile
  | 0, _, file, res => (res, file)
  | n + 1, i, file, _ =>
    let (res, file) := elfProcessPheader mem file (elfProgramHeader mem file.elf_memory i)
    if res < 0 then (res, file) else elfProcessPheadersLoop mem n (i + 1) file res

/-- `elf_process_pheaders`. `elfloader.c:178-193` -/
def elfProcessPheaders (mem : Memory) (file : ElfFile) : ℤ × ElfFile :=
  elfProcessPheadersLoop mem (elfPhnum mem file.elf_memory) 0 file 0

/-- Assign to the ELF file record at `elf_file`. -/
def onElf (elf_file : Addr) (f : ElfFile → ElfFile) : KernelM Unit := fun k =>
  some ((), { k with elfs := Function.update k.elfs elf_file (f (k.elfs elf_file)) })

/-- `elf_process_loaded`. `elfloader.c:196-214` -/
def elfProcessLoaded (elf_file : Addr) : KernelM ℤ := do
  let k ← get
  deref (k.elfs elf_file).elf_memory
  let res := elfValidateLoaded k.mem (k.elfs elf_file).elf_memory
  if res < 0 then pure res
  else do
    let (res, file) := elfProcessPheaders k.mem (k.elfs elf_file)
    onElf elf_file fun _ => file
    pure res

/-- `sizeof(struct elf_file)`. -/
def sizeofElfFile : BitVec 32 := 132#32

/-- `elf_load` between `fopen` and `fclose`, with the file it returns through `file_out`. Neither
the record nor the image is released on failure. `elfloader.c:223-248` -/
def elfRead (pass : FilePass) (elf_file : Addr) : KernelM (ℤ × Addr) := do
  if pass.fopen = 0 then pure (-eio, 0#32)
  else if pass.fstat < 0 then pure (pass.fstat, 0#32)
  else do
    let elf_memory ← kzalloc pass.filesize
    deref elf_file
    onElf elf_file fun file => { file with elf_memory := elf_memory }
    let res ← pass.read elf_memory pass.filesize
    if res < 0 then pure (res, 0#32)
    else do
      let res ← elfProcessLoaded elf_file
      if res < 0 then pure (res, 0#32) else pure (res, elf_file)

/-- `elf_load`. `elfloader.c:217-255` -/
def elfLoad (pass : FilePass) : KernelM (ℤ × Addr) := do
  let elf_file ← kzalloc sizeofElfFile
  onElf elf_file fun _ => ElfFile.zero
  elfRead pass elf_file

/-- `elf_close`. `elfloader.c:257-264` -/
def elfClose (file : Addr) : KernelM Unit := do
  if file = 0#32 then pure ()
  else do
    let k ← get
    kfree (k.elfs file).elf_memory
    kfree file

end MaerOS.Model
