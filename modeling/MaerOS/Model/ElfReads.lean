import MaerOS.Lib.Checked
import MaerOS.Model.Elf
import MaerOS.Model.ProcessLife

/-!
# The reads of an ELF image

`elf_validate_loaded`, `elf_process_pheaders` and `process_map_elf` once more, with the image as a
buffer of bytes and every read of it checked: there is no outcome when a byte
behind the buffer would be read. Program headers are given by their offset in the image.
Reads come in the order of the source and only where it makes them: `memcmp`
ends at the first difference, and `&&` and `||` at the first operand that decides.
-/

set_option autoImplicit false

namespace MaerOS.Model

open MaerOS.Lib

/-- `elf_signature`. `elfloader.c:14` -/
def elfSignature : List (BitVec 8) := [0x7f#8, 0x45#8, 0x4c#8, 0x46#8]

/-- `memcmp` with the image on the left. `memory.c:13-26` -/
def memcmpReads (image : List (BitVec 8)) : (c1 : BitVec 32) → (c2 : List (BitVec 8)) → Option ℤ
  | _, [] => pure 0
  | c1, c :: c2 => do
    let b ← read8 image c1
    if b ≠ c then pure (if b.toInt < c.toInt then -1 else 1) else memcmpReads image (c1 + 1#32) c2

/-- `elf_validate_loaded`. `elfloader.c:136-139` -/
def elfValidateLoadedReads (image : List (BitVec 8)) : Option ℤ := do
  let cmp ← memcmpReads image 0#32 elfSignature
  if cmp ≠ 0 then pure (-einformat)
  else do
    let ei_class ← read8 image 4#32
    if ¬ (ei_class = 0#8 ∨ ei_class = 1#8) then pure (-einformat)
    else do
      let ei_data ← read8 image 5#32
      if ¬ (ei_data = 0#8 ∨ ei_data = 1#8) then pure (-einformat)
      else do
        let e_phoff ← read32 image 28#32
        if e_phoff = 0#32 then pure (-einformat) else pure maerosAllOk

/-- `elf_process_phdr_pt_load`. `elfloader.c:143-160` -/
def elfProcessPhdrPtLoadReads (image : List (BitVec 8)) (file : ElfFile) (phdr : BitVec 32) :
    Option (ℤ × ElfFile) := do
  let p_vaddr ← read32 image (phdr + 8#32)
  let file ← (if file.virtual_base_address ≥ p_vaddr ∨ file.virtual_base_address = 0#32 then do
      let p_offset ← read32 image (phdr + 4#32)
      pure { file with
        virtual_base_address := p_vaddr
        physical_base_address := file.elf_memory + p_offset }
    else pure file)
  let p_filesz ← read32 image (phdr + 16#32)
  let end_virtual_address := p_vaddr + p_filesz
  if file.virtual_end_address ≤ end_virtual_address ∨ file.virtual_end_address = 0#32 then do
    let p_offset ← read32 image (phdr + 4#32)
    pure (0, { file with
      virtual_end_address := end_virtual_address
      physical_end_address := file.elf_memory + p_offset + p_filesz })
  else pure (0, file)

/-- `elf_process_pheader`. `elfloader.c:163-174` -/
def elfProcessPheaderReads (image : List (BitVec 8)) (file : ElfFile) (phdr : BitVec 32) :
    Option (ℤ × ElfFile) := do
  let p_type ← read32 image phdr
  if p_type = 1#32 then elfProcessPhdrPtLoadReads image file phdr else pure (0, file)

/-- `elf_pheader`, as an offset. `elfloader.c:75-83` -/
def elfPheaderReads (image : List (BitVec 8)) : Option (BitVec 32) := read32 image 28#32

/-- The loop of `elf_process_pheaders`, `n` program headers from index `i`. -/
def elfProcessPheadersLoopReads (image : List (BitVec 8)) :
    (n i : ℕ) → ElfFile → (res : ℤ) → Option (ℤ × ElfFile)
  | 0, _, file, res => pure (res, file)
  | n + 1, i, file, _ => do
    let phdrs ← elfPheaderReads image
    let (res, file) ← elfProcessPheaderReads image file (phdrs + BitVec.ofNat 32 (32 * i))
    if res < 0 then pure (res, file) else elfProcessPheadersLoopReads image n (i + 1) file res

/-- `elf_process_pheaders`. `elfloader.c:178-193` -/
def elfProcessPheadersReads (image : List (BitVec 8)) (file : ElfFile) :
    Option (ℤ × ElfFile) := do
  let e_phnum ← read16 image 44#32
  elfProcessPheadersLoopReads image e_phnum.toNat 0 file 0

/-- The loop of `process_map_elf`, `n` program headers from index `i`; the page tables are in
`mem`. -/
def processMapElfLoopReads (image : List (BitVec 8)) (elf_memory directory : Addr)
    (phdrs : BitVec 32) : (n i : ℕ) → Memory → (res : ℤ) → Option (ℤ × Memory)
  | 0, _, mem, res => pure (res, mem)
  | n + 1, i, mem, _ => do
    let phdr := phdrs + BitVec.ofNat 32 (32 * i)
    let p_offset ← read32 image (phdr + 4#32)
    let p_flags ← read32 image (phdr + 24#32)
    let p_vaddr ← read32 image (phdr + 8#32)
    let p_memsz ← read32 image (phdr + 20#32)
    let phdr_phys_address := elf_memory + p_offset
    let flags := if p_flags &&& 2#32 ≠ 0#32
      then pagingIsPresent ||| pagingAccessFromAll ||| pagingIsWriteable
      else pagingIsPresent ||| pagingAccessFromAll
    let (res, mem) := pagingMapTo mem directory (pagingAlignToLowerPage p_vaddr)
      (pagingAlignToLowerPage phdr_phys_address)
      (pagingAlignAddress (phdr_phys_address + p_memsz)) flags
    if res < 0 then pure (res, mem)
    else processMapElfLoopReads image elf_memory directory phdrs n (i + 1) mem res

/-- `process_map_elf`. `process.c:435-462` -/
def processMapElfReads (image : List (BitVec 8)) (elf_memory directory : Addr) (mem : Memory) :
    Option (ℤ × Memory) := do
  let phdrs ← elfPheaderReads image
  let e_phnum ← read16 image 44#32
  processMapElfLoopReads image elf_memory directory phdrs e_phnum.toNat 0 mem 0

/-- What happens to an image after `fread`: it is validated, its program headers are
processed and at last its segments are mapped; nothing is read from an empty file.
`elfloader.c:217-255`, `process.c:435-462` -/
def elfImageReads (image : List (BitVec 8)) (elf_memory directory : Addr) (mem : Memory) :
    Option ℤ :=
  if image = [] then pure (-einvarg)
  else do
    let res ← elfValidateLoadedReads image
    if res < 0 then pure res
    else do
      let (res, _) ← elfProcessPheadersReads image { ElfFile.zero with elf_memory := elf_memory }
      if res < 0 then pure res
      else do
        let (res, _) ← processMapElfReads image elf_memory directory mem
        pure res

end MaerOS.Model
