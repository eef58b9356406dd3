import MaerOS.Lib.Memory
import MaerOS.Model.Config

/-!
# Page tables: the mapping half of `paging.c`

A chunk is a structure of one word, the address of a page directory; a directory
is an array of 1024 words, each the address of a page table with flags in its low
bits; a page table is an array of 1024 words, each the address of a page with
flags. All of them live in memory, and the functions below read and write them
there, word by word, as the source does.
-/

set_option autoImplicit false

namespace MaerOS.Model

open MaerOS.Lib

/-- `PAGING_ACCESS_FROM_ALL`. `paging.h:21` -/
abbrev pagingAccessFromAll : BitVec 32 := 0b100#32
/-- `PAGING_IS_WRITEABLE`. `paging.h:26` -/
abbrev pagingIsWriteable : BitVec 32 := 0b010#32
/-- `PAGING_IS_PRESENT`. `paging.h:29` -/
abbrev pagingIsPresent : BitVec 32 := 0b001#32
/-- `PAGING_TOTAL_ENTRIES_PER_TABLE`. `paging.h:32` -/
abbrev pagingTotalEntriesPerTable : ℕ := 1024
/-- `PAGING_PAGE_SIZE`. `paging.h:35` -/
abbrev pagingPageSize : ℕ := 4096

/-- `paging_is_aligned`. `paging.c:65-68` -/
def pagingIsAligned (addr : Addr) : Bool := addr.toNat % pagingPageSize == 0

/-- `paging_get_indexes`: the result code and the two indices, which stay `0` as the callers
initialise them when the address is not aligned. `paging.c:74-87` -/
def pagingGetIndexes (virtual_address : Addr) : ℤ × ℕ × ℕ :=
  if !pagingIsAligned virtual_address then (-einvarg, 0, 0)
  else
    (0, virtual_address.toNat / (pagingTotalEntriesPerTable * pagingPageSize),
      virtual_address.toNat % (pagingTotalEntriesPerTable * pagingPageSize) / pagingPageSize)

/-- `paging_align_address`. `paging.c:90-98` -/
def pagingAlignAddress (ptr : Addr) : Addr :=
  if ptr.toNat % pagingPageSize ≠ 0 then
    ptr + BitVec.ofNat 32 pagingPageSize - BitVec.ofNat 32 (ptr.toNat % pagingPageSize)
  else ptr

/-- `paging_align_to_lower_page`. `paging.c:101-106` -/
def pagingAlignToLowerPage (addr : Addr) : Addr :=
  addr - BitVec.ofNat 32 (addr.toNat % pagingPageSize)

/-- `directory[i]` or `table[i]` for an array of words. -/
def wordIndex (array : Addr) (i : ℕ) : Addr := wordAt array i

/-- `paging_set`. `paging.c:169-193` -/
def pagingSet (mem : Memory) (directory virt : Addr) (val : BitVec 32) : ℤ × Memory :=
  if !pagingIsAligned virt then (-einvarg, mem)
  else
    let (res, directory_index, table_index) := pagingGetIndexes virt
    if res < 0 then (res, mem)
    else
      let entry := load32 mem (wordIndex directory directory_index)
      let table := entry &&& 0xfffff000#32
      (0, store32 mem (wordIndex table table_index) val)

/-- `paging_map`; `directory` is the chunk, whose only word is `directory_entry`.
`paging.c:108-116` -/
def pagingMap (mem : Memory) (directory virt phys : Addr) (flags : BitVec 32) : ℤ × Memory :=
  if virt.toNat % pagingPageSize ≠ 0 ∨ phys.toNat % pagingPageSize ≠ 0 then (-einvarg, mem)
  else pagingSet mem (load32 mem directory) virt (phys ||| flags)

/-- `paging_map_range`; `res` is the result of the page mapped last. `paging.c:118-132` -/
def pagingMapRange (directory : Addr) (flags : BitVec 32) :
    (count : ℕ) → Memory → (virt phys : Addr) → (res : ℤ) → ℤ × Memory
  | 0, mem, _, _, res => (res, mem)
  | count + 1, mem, virt, phys, _ =>
    let (res, mem) := pagingMap mem directory virt phys flags
    if res < 0 then (res, mem)
    else pagingMapRange directory flags count mem (virt + BitVec.ofNat 32 pagingPageSize)
      (phys + BitVec.ofNat 32 pagingPageSize) res

/-- `paging_map_to`. `paging.c:134-163` -/
def pagingMapTo (mem : Memory) (directory virt phys phys_end : Addr) (flags : BitVec 32) :
    ℤ × Memory :=
  if virt.toNat % pagingPageSize ≠ 0 then (-einvarg, mem)
  else if phys.toNat % pagingPageSize ≠ 0 then (-einvarg, mem)
  else if phys_end.toNat % pagingPageSize ≠ 0 then (-einvarg, mem)
  else if phys_end < phys then (-einvarg, mem)
  else
    let total_bytes := phys_end - phys
    let total_pages := total_bytes.toNat / pagingPageSize
    pagingMapRange directory flags total_pages mem virt phys 0

/-- `paging_get`. `paging.c:210-218` -/
def pagingGet (mem : Memory) (directory virt : Addr) : BitVec 32 :=
  let (_, directory_index, table_index) := pagingGetIndexes virt
  let entry := load32 mem (wordIndex directory directory_index)
  let table := entry &&& 0xfffff000#32
  load32 mem (wordIndex table table_index)

/-- `paging_get_physical_address`. `paging.c:196-206` -/
def pagingGetPhysicalAddress (mem : Memory) (directory virt : Addr) : Addr :=
  let virt_addr_new := pagingAlignToLowerPage virt
  let difference := virt - virt_addr_new
  (pagingGet mem directory virt_addr_new &&& 0xfffff000#32) + difference

end MaerOS.Model
