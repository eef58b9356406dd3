import MaerOS.Model.Config

/-!
# The block allocator: `heap.c` and `kheap.c`

The heap is an arena of 4096-byte blocks with one table byte per block. The
table is read and written through `table->entries[i]` with an `int` index, so it
is modelled as a function on the integers: an access outside `[0, total)` is an
access to the memory around the table, which is what the machine does.

`Heap.stores` records the indices the code has stored to; no function reads it,
it is there to say that an entry was (not) written.

Block counts and indices stay far below `2^31` (an arena has at most `2^20`
blocks), so `int` arithmetic on them is arithmetic on `ℤ`. Where the code leaves
that range (`block * MAEROS_HEAP_BLOCK_SIZE`, the cast of a pointer difference to
`int`) the wrap-around is explicit.
-/

set_option autoImplicit false

namespace MaerOS.Model

/-- One byte of the heap table. `heap.h:32` -/
abbrev HeapBlockTableEntry := BitVec 8

/-- The entry is allocated. `heap.h:11` -/
def heapBlockTableEntryTaken : HeapBlockTableEntry := 0x01#8

/-- The entry is free. `heap.h:15` -/
def heapBlockTableEntryFree : HeapBlockTableEntry := 0x00#8

/-- The allocation goes on in the next block. `heap.h:21` -/
def heapBlockHasNext : HeapBlockTableEntry := 0b10000000#8

/-- First block of an allocation. `heap.h:27` -/
def heapBlockIsFirst : HeapBlockTableEntry := 0b01000000#8

/-- `struct heap_table`: the bytes at `entries`, and how many of them are the table.
`heap.h:37-41` -/
structure HeapTable where
  entries : ℤ → HeapBlockTableEntry
  total : ℕ

/-- `struct heap`, with the record of the entries stored to. `heap.h:46-53` -/
structure Heap where
  table : HeapTable
  saddr : Addr
  stores : List ℤ

/-- `heap->table->entries[i] = entry`. -/
def Heap.store (heap : Heap) (i : ℤ) (entry : HeapBlockTableEntry) : Heap :=
  { heap with
    table := { heap.table with entries := Function.update heap.table.entries i entry }
    stores := i :: heap.stores }

/-- `heap_validate_alignment`. The mask is the block size itself. `heap.c:10-13` -/
def heapValidateAlignment (ptr : Addr) : Bool :=
  ptr &&& BitVec.ofNat 32 maerosHeapBlockSize == 0#32

/-- `heap_validate_table`. `heap.c:21-35` -/
def heapValidateTable (ptr end_ : Addr) (table : HeapTable) : ℤ :=
  let table_size := (end_ - ptr).toNat
  let total_blocks := table_size / maerosHeapBlockSize
  if table.total ≠ total_blocks then -einvarg else 0

/-- `memset(table->entries, HEAP_BLOCK_TABLE_ENTRY_FREE, table->total)`. -/
def HeapTable.clearAll (table : HeapTable) : HeapTable :=
  { table with
    entries := fun i =>
      if 0 ≤ i ∧ i < table.total then heapBlockTableEntryFree else table.entries i }

/-- `heap_create`. `heap.c:37-63` -/
def heapCreate (heap : Heap) (ptr end_ : Addr) (table : HeapTable) : ℤ × Heap :=
  if !heapValidateAlignment ptr || !heapValidateAlignment end_ then
    (-einvarg, heap)
  else
    let heap := { saddr := ptr, table := table, stores := [] }
    let res := heapValidateTable ptr end_ table
    if res < 0 then (res, heap)
    else (res, { heap with table := table.clearAll })

/-- `struct heap` as it lies in memory, with the pointer to the table. `heap.h:46-53` -/
structure HeapRecord where
  table : Addr
  saddr : Addr
  deriving DecidableEq

/-- `heap_create` on the structure at `heap` and the table at the address `table`, which holds
`contents`: the result, and what is in the two afterwards. `heap.c:37-63` -/
def heapCreateAt (heap : HeapRecord) (ptr end_ table : Addr) (contents : HeapTable) :
    ℤ × HeapRecord × HeapTable :=
  if !heapValidateAlignment ptr || !heapValidateAlignment end_ then
    (-einvarg, heap, contents)
  else
    let heap : HeapRecord := { table := 0#32, saddr := 0#32 }
    let heap := { heap with saddr := ptr }
    let heap := { heap with table := table }
    let res := heapValidateTable ptr end_ contents
    if res < 0 then (res, heap, contents)
    else (res, heap, contents.clearAll)

/-- `heap_align_value_to_upper`; wraps to `0` above `2^32 - 4096`. `heap.c:65-76` -/
def heapAlignValueToUpper (val : BitVec 32) : BitVec 32 :=
  if val % BitVec.ofNat 32 maerosHeapBlockSize = 0#32 then val
  else val - val % BitVec.ofNat 32 maerosHeapBlockSize + BitVec.ofNat 32 maerosHeapBlockSize

/-- `heap_get_entry_type`: the low four bits. `heap.c:81-84` -/
def heapGetEntryType (entry : HeapBlockTableEntry) : HeapBlockTableEntry := entry &&& 0x0f#8

/-- The scan of `heap_get_start_block` from index `i` with `remaining` entries to go.
`block_current` counts the free blocks seen in a row, `block_start` is where they began. -/
def heapGetStartBlockLoop (entries : ℤ → HeapBlockTableEntry) (total_blocks : ℕ) :
    (remaining : ℕ) → (i : ℕ) → (block_current block_start : ℤ) → ℤ
  | 0, _, _, block_start => block_start
  | remaining + 1, i, block_current, block_start =>
    if heapGetEntryType (entries i) ≠ heapBlockTableEntryFree then
      heapGetStartBlockLoop entries total_blocks remaining (i + 1) 0 (-1)
    else
      let block_start := if block_start = -1 then (i : ℤ) else block_start
      let block_current := block_current + 1
      if block_current = total_blocks then block_start
      else heapGetStartBlockLoop entries total_blocks remaining (i + 1) block_current block_start

/-- `heap_get_start_block`. What is left in `block_start` when the table ends is returned,
however many blocks were counted. `heap.c:93-134` -/
def heapGetStartBlock (heap : Heap) (total_blocks : ℕ) : ℤ :=
  let block_start := heapGetStartBlockLoop heap.table.entries total_blocks heap.table.total 0 0 (-1)
  if block_start = -1 then -enomem else block_start

/-- `heap_block_to_address`. `heap.c:139-142` -/
def heapBlockToAddress (heap : Heap) (block : ℤ) : Addr :=
  heap.saddr + BitVec.ofInt 32 (block * maerosHeapBlockSize)

/-- The loop of `heap_mark_blocks_taken`, `n` iterations from index `i`; `entry` is the value
computed one iteration ahead. -/
def heapMarkBlocksTakenLoop (end_block : ℤ) :
    (n : ℕ) → (i : ℤ) → HeapBlockTableEntry → Heap → Heap
  | 0, _, _, heap => heap
  | n + 1, i, entry, heap =>
    let heap := heap.store i entry
    let entry :=
      if i ≠ end_block - 1 then heapBlockTableEntryTaken ||| heapBlockHasNext
      else heapBlockTableEntryTaken
    heapMarkBlocksTakenLoop end_block n (i + 1) entry heap

/-- `heap_mark_blocks_taken`. `heap.c:147-172` -/
def heapMarkBlocksTaken (heap : Heap) (start_block total_blocks : ℤ) : Heap :=
  let end_block := start_block + total_blocks - 1
  let entry := heapBlockTableEntryTaken ||| heapBlockIsFirst
  let entry := if total_blocks > 1 then entry ||| heapBlockHasNext else entry
  heapMarkBlocksTakenLoop end_block (end_block + 1 - start_block).toNat start_block entry heap

/-- `heap_malloc_blocks`: the null pointer when no start block is found. `heap.c:178-197` -/
def heapMallocBlocks (heap : Heap) (total_blocks : ℕ) : Addr × Heap :=
  let start_block := heapGetStartBlock heap total_blocks
  if start_block < 0 then (0#32, heap)
  else (heapBlockToAddress heap start_block, heapMarkBlocksTaken heap start_block total_blocks)

/-- The loop of `heap_mark_blocks_free`, at most `n` iterations from index `i`. -/
def heapMarkBlocksFreeLoop : (n : ℕ) → (i : ℤ) → Heap → Heap
  | 0, _, heap => heap
  | n + 1, i, heap =>
    let entry := heap.table.entries i
    let heap := heap.store i heapBlockTableEntryFree
    if entry &&& heapBlockHasNext = 0#8 then heap
    else heapMarkBlocksFreeLoop n (i + 1) heap

/-- `heap_mark_blocks_free`. `heap.c:202-215` -/
def heapMarkBlocksFree (heap : Heap) (starting_block : ℤ) : Heap :=
  heapMarkBlocksFreeLoop (heap.table.total - starting_block).toNat starting_block heap

/-- `heap_address_to_block`: the difference is cast to `int` and divided towards zero.
`heap.c:218-221` -/
def heapAddressToBlock (heap : Heap) (address : Addr) : ℤ :=
  (address - heap.saddr).toInt.tdiv maerosHeapBlockSize

/-- How many blocks `heap_malloc` asks for. `heap.c:226-228` -/
def heapTotalBlocks (size : BitVec 32) : ℕ :=
  (heapAlignValueToUpper size / BitVec.ofNat 32 maerosHeapBlockSize).toNat

/-- `heap_malloc`. `heap.c:223-231` -/
def heapMalloc (heap : Heap) (size : BitVec 32) : Addr × Heap :=
  heapMallocBlocks heap (heapTotalBlocks size)

/-- `heap_free`. `heap.c:233-236` -/
def heapFree (heap : Heap) (ptr : Addr) : Heap :=
  heapMarkBlocksFree heap (heapAddressToBlock heap ptr)

/-! ## The kernel heap -/

/-- `kheap_init`, over the bytes found at `MAEROS_HEAP_TABLE_ADDRESS`. `kheap.c:18-32` -/
def kheapInit (kernel_heap : Heap) (entries : ℤ → HeapBlockTableEntry) : ℤ × Heap :=
  heapCreate kernel_heap maerosHeapAddress
    (maerosHeapAddress + BitVec.ofNat 32 maerosHeapSizeBytes)
    { entries := entries, total := maerosHeapSizeBytes / maerosHeapBlockSize }

/-- The `size` bytes from `ptr` lie in the arena of the heap. -/
def Heap.InArena (heap : Heap) (ptr : Addr) (size : BitVec 32) : Prop :=
  (ptr - heap.saddr).toNat + size.toNat ≤ heap.table.total * maerosHeapBlockSize

instance (heap : Heap) (ptr : Addr) (size : BitVec 32) : Decidable (heap.InArena ptr size) :=
  inferInstanceAs (Decidable (_ ≤ _))

/-- `kzalloc` as seen by the heap. A `memset` that leaves the arena of the heap is undefined
behaviour and has no outcome. `kheap.c:42-50` -/
def Heap.kzalloc (heap : Heap) (size : BitVec 32) : Option (Addr × Heap) :=
  let (ptr, heap') := heapMalloc heap size
  if ptr = 0#32 then some (0#32, heap')
  else if heap.InArena ptr size then some (ptr, heap')
  else none

end MaerOS.Model
