import Mathlib.Data.Int.Notation
import Mathlib.Tactic.Ring

/-!
# Configuration and status codes

The compile-time constants of `config.h`, the error codes of `status.h` and the
type of a pointer on the 32-bit target. A `void*` is a `BitVec 32`: pointer
arithmetic and the `uint32_t` casts of the source are arithmetic modulo `2^32`,
and a cast to `int` is `BitVec.toInt`.
-/

set_option autoImplicit false

namespace MaerOS.Model

/-- A `void*` of the i686 target. -/
abbrev Addr := BitVec 32

/-- `MAEROS_HEAP_SIZE_BYTES`, the fixed heap size of 100 MB. `config.h:16` -/
def maerosHeapSizeBytes : ℕ := 104857600

/-- `MAEROS_HEAP_BLOCK_SIZE`. `config.h:21` -/
abbrev maerosHeapBlockSize : ℕ := 4096

/-- `MAEROS_HEAP_ADDRESS`. `config.h:27` -/
def maerosHeapAddress : Addr := 0x01000000#32

/-- `MAEROS_SECTOR_SIZE`. `config.h:35` -/
abbrev maerosSectorSize : ℕ := 512

/-- `MAEROS_MAX_PATH`. `config.h:38` -/
abbrev maerosMaxPath : ℕ := 108

/-- `MAEROS_MAX_FILE_DESCRIPTORS`. `config.h:41` -/
abbrev maerosMaxFileDescriptors : ℕ := 512

/-- `MAEROS_PROGRAM_VIRTUAL_ADDRESS`. `config.h:49` -/
def maerosProgramVirtualAddress : Addr := 0x400000#32

/-- `MAEROS_USER_PROGRAM_STACK_SIZE`. `config.h:52` -/
def maerosUserProgramStackSize : BitVec 32 := 16384#32

/-- `MAEROS_PROGRAM_VIRTUAL_STACK_ADDRESS_START`. `config.h:55` -/
def maerosProgramVirtualStackAddressStart : Addr := 0x3FF000#32

/-- `MAEROS_PROGRAM_VIRTUAL_STACK_ADDRESS_END`; the stack grows down. `config.h:58` -/
def maerosProgramVirtualStackAddressEnd : Addr :=
  maerosProgramVirtualStackAddressStart - maerosUserProgramStackSize

/-- `MAEROS_MAX_PROGRAM_ALLOCATIONS`. `config.h:63` -/
abbrev maerosMaxProgramAllocations : ℕ := 1024

/-- `MAEROS_MAX_PROCESSES`. `config.h:66` -/
abbrev maerosMaxProcesses : ℕ := 12

/-- `USER_DATA_SEGMENT`. `config.h:71` -/
def userDataSegment : BitVec 32 := 0x23#32

/-- `USER_CODE_SEGMENT`. `config.h:75` -/
def userCodeSegment : BitVec 32 := 0x1b#32

/-! ## `status.h` -/

/-- `MAEROS_ALL_OK`. -/
abbrev maerosAllOk : ℤ := 0
/-- `EIO`. -/
abbrev eio : ℤ := 1
/-- `EINVARG`, invalid argument. -/
abbrev einvarg : ℤ := 2
/-- `ENOMEM`, no memory. -/
abbrev enomem : ℤ := 3
/-- `EBADPATH`. -/
abbrev ebadpath : ℤ := 4
/-- `EFSNOTUS`, not a file system of this driver. -/
abbrev efsnotus : ℤ := 5
/-- `ERDONLY`, a read-only file is opened for writing. -/
abbrev erdonly : ℤ := 6
/-- `EUNIMP`, not implemented. -/
abbrev eunimp : ℤ := 7
/-- `EISTKN`, the process slot is taken. -/
abbrev eistkn : ℤ := 8
/-- `EINFORMAT`, not a file of the expected format. -/
abbrev einformat : ℤ := 9

end MaerOS.Model
