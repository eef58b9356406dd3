import MaerOS.Analysis.HeapTable
import Mathlib.Tactic.IntervalCases

/-!
# `heap_malloc` and `heap_free` on a table of runs

The address arithmetic of the allocator, and its two operations as steps on the
picture `Layout`: an allocation adds a run, a release takes one out.

`heapTotalBlocks` is the number of blocks the code asks for; `blocksFor` is
`ceil(size / 4096)`. They agree up to `2^32 - 4096`, where the rounding of
`heap_align_value_to_upper` starts to wrap to zero.
-/

set_option autoImplicit false

namespace MaerOS.Analysis

open MaerOS.Lib MaerOS.Model

/-- The table of `h` is the picture of `runs`. -/
abbrev HeapLayout (h : Heap) (runs : List (ℕ × ℕ)) : Prop :=
  Layout heapBlockTableEntryFree runEntry h.table.total h.table.entries runs

/-! ## Sizes -/

/-- `ceil(size / 4096)`. -/
def blocksFor (size : BitVec 32) : ℕ := (size.toNat + 4095) / 4096

/-- The code asks for `ceil(size / 4096)` blocks, unless the rounding wraps. -/
theorem heapTotalBlocks_eq (size : BitVec 32) :
    heapTotalBlocks size = if size.toNat ≤ 2 ^ 32 - 4096 then blocksFor size else 0 := by
  have hlt := size.isLt
  simp only [heapTotalBlocks, heapAlignValueToUpper, blocksFor, maerosHeapBlockSize]
  by_cases hmod : size.toNat % 4096 = 0
  · rw [if_pos (by
      apply BitVec.eq_of_toNat_eq
      simpa using hmod)]
    simp only [BitVec.toNat_udiv, BitVec.toNat_ofNat, show 4096 % 2 ^ 32 = 4096 from rfl]
    split <;> omega
  · rw [if_neg (by
      intro h
      have := congrArg BitVec.toNat h
      simp at this
      omega)]
    simp only [BitVec.toNat_udiv, BitVec.toNat_add, BitVec.toNat_sub, BitVec.toNat_umod,
      BitVec.toNat_ofNat, show 4096 % 2 ^ 32 = 4096 from rfl]
    split <;> omega

/-- A request that gets at least one block gets `ceil(size / 4096)` of them. -/
theorem heapTotalBlocks_pos {size : BitVec 32} (h : 1 ≤ heapTotalBlocks size) :
    heapTotalBlocks size = blocksFor size ∧ 1 ≤ size.toNat ∧ size.toNat ≤ 2 ^ 32 - 4096 := by
  rw [heapTotalBlocks_eq] at h ⊢
  split at h
  · rename_i hle
    rw [if_pos hle]
    refine ⟨rfl, ?_, hle⟩
    unfold blocksFor at h
    omega
  · omega

theorem blocksFor_pos {size : BitVec 32} (h : 1 ≤ size.toNat) : 1 ≤ blocksFor size := by
  unfold blocksFor
  omega

/-! ## Addresses -/

/-- The block an address lies in, counted from the start of the arena. -/
def blockIndex (h : Heap) (ptr : Addr) : ℕ := (ptr - h.saddr).toNat / 4096

/-- The distance of a block's address from the start of the arena. -/
theorem heapBlockToAddress_sub (h : Heap) (s : ℕ) (hs : s < 2 ^ 20) :
    (heapBlockToAddress h s - h.saddr).toNat = s * 4096 := by
  unfold heapBlockToAddress
  rw [BitVec.add_comm, BitVec.add_sub_cancel,
    show ((s : ℤ) * (maerosHeapBlockSize : ℕ)) = ((s * 4096 : ℕ) : ℤ) from by push_cast; rfl,
    BitVec.ofInt_natCast, BitVec.toNat_ofNat]
  omega

theorem blockIndex_heapBlockToAddress (h : Heap) (s : ℕ) (hs : s < 2 ^ 20) :
    blockIndex h (heapBlockToAddress h s) = s := by
  unfold blockIndex
  rw [heapBlockToAddress_sub h s hs]
  omega

/-- In the lower half of the address range, `heap_address_to_block` inverts
`heap_block_to_address`; above it the cast to `int` turns the block negative. -/
theorem heapAddressToBlock_eq (h : Heap) (ptr : Addr) (hlow : (ptr - h.saddr).toNat < 2 ^ 31) :
    heapAddressToBlock h ptr = blockIndex h ptr := by
  unfold heapAddressToBlock blockIndex
  rw [BitVec.toInt_eq_toNat_of_lt (by omega)]
  rfl

/-! ## The two operations -/

/-- How `heap_malloc(size)` can end. -/
inductive MallocOutcome (h : Heap) (size : BitVec 32) : Addr × Heap → Prop
  /-- The lowest run of free blocks was found and marked. -/
  | found (s : ℕ) (h' : Heap) (hn : 1 ≤ heapTotalBlocks size)
      (hin : s + heapTotalBlocks size ≤ h.table.total)
      (hfree : FreeBlocks h.table.entries s (heapTotalBlocks size))
      (hleast : ∀ s' < s, ¬ FreeBlocks h.table.entries s' (heapTotalBlocks size))
      (hrw : Rewrites h h' s (heapTotalBlocks size)
        (fill runEntry h.table.entries s (heapTotalBlocks size))) :
      MallocOutcome h size (heapBlockToAddress h s, h')
  /-- There was no such run, and the free blocks at the end of the table were taken. -/
  | tail (s : ℕ) (h' : Heap) (hin : s < h.table.total)
      (hfree : FreeBlocks h.table.entries s (h.table.total - s))
      (hbefore : s = 0 ∨ ¬ IsFree h.table.entries (s - 1))
      (hno : 1 ≤ heapTotalBlocks size → ¬ HasFreeRun h.table.entries h.table.total
        (heapTotalBlocks size))
      (hrw : Rewrites h h' s (heapTotalBlocks size)
        (fill runEntry h.table.entries s (heapTotalBlocks size))) :
      MallocOutcome h size (heapBlockToAddress h s, h')
  /-- There was no such run and the last block is taken. -/
  | fail (hno : 1 ≤ heapTotalBlocks size → ¬ HasFreeRun h.table.entries h.table.total
        (heapTotalBlocks size))
      (hlast : LastTaken h.table.entries h.table.total) : MallocOutcome h size (0#32, h)

/-- **`heap_malloc`** ends as `MallocOutcome` says. -/
theorem heapMalloc_spec (h : Heap) (size : BitVec 32) : MallocOutcome h size (heapMalloc h size) := by
  unfold heapMalloc heapMallocBlocks
  dsimp only
  rcases heapGetStartBlock_spec h (heapTotalBlocks size) with ⟨s, hs, hsb⟩ | ⟨hs, hsb⟩
  · rw [hs, if_neg (by omega)]
    have hrw := heapMarkBlocksTaken_spec h (s : ℤ) (heapTotalBlocks size)
    generalize hx : (s : ℤ) = x at hsb
    cases hsb with
    | found s' hn hin hfree hleast =>
      obtain rfl : s = s' := by omega
      exact .found s _ hn hin hfree hleast hrw
    | tail s' hin hfree hbefore hno =>
      obtain rfl : s = s' := by omega
      exact .tail s _ hin hfree hbefore hno hrw
    | fail hno hlast => omega
  · rw [hs, if_pos (by decide)]
    generalize hx : (-1 : ℤ) = x at hsb
    cases hsb with
    | found s' _ _ _ _ => omega
    | tail s' _ _ _ _ => omega
    | fail hno hlast => exact .fail hno hlast

/-- In a picture of runs, a block that looks free to the scan holds the free byte. -/
theorem freeRun_of_freeBlocks {h : Heap} {runs : List (ℕ × ℕ)} (hl : HeapLayout h runs) {s n : ℕ}
    (hin : s + n ≤ h.table.total) (hfree : FreeBlocks h.table.entries s n) :
    FreeRun heapBlockTableEntryFree h.table.entries s n := by
  intro j hj
  refine hl.rest (s + j) (by omega) fun r hr hc => ?_
  have hval := hl.covered hr hc
  have hfr := hfree j hj
  unfold IsFree at hfr
  rw [hval] at hfr
  exact runEntry_type_ne _ _ hfr

/-- A run of free blocks that is filled is one more run of the layout. -/
theorem HeapLayout.malloc {h h' : Heap} {runs : List (ℕ × ℕ)} (hl : HeapLayout h runs) {s n : ℕ}
    (hn : 1 ≤ n) (hin : s + n ≤ h.table.total) (hfree : FreeBlocks h.table.entries s n)
    (hrw : Rewrites h h' s n (fill runEntry h.table.entries s n)) :
    HeapLayout h' ((s, n) :: runs) := by
  unfold HeapLayout
  rw [hrw.total, hrw.entries]
  exact hl.fill runEntry_ne_free hn hin (freeRun_of_freeBlocks hl hin hfree)

/-- **`heap_free`** of the address of a run, in the lower half of the address range, wipes
that run. -/
theorem heapFree_run {h : Heap} {runs : List (ℕ × ℕ)} {ptr : Addr} {n : ℕ}
    (hl : HeapLayout h runs) (hmem : (blockIndex h ptr, n) ∈ runs)
    (hlow : (ptr - h.saddr).toNat < 2 ^ 31) :
    Rewrites h (heapFree h ptr) (blockIndex h ptr) n
      (clear heapBlockTableEntryFree h.table.entries (blockIndex h ptr) n) := by
  unfold heapFree
  rw [heapAddressToBlock_eq h ptr hlow]
  exact heapMarkBlocksFree_run h _ n (hl.pos _ hmem) (hl.inside _ hmem) fun j hj =>
    hl.entry _ hmem j hj

/-- A run that is cleared is no longer one of the layout. -/
theorem HeapLayout.release {h h' : Heap} {runs : List (ℕ × ℕ)} {b n : ℕ}
    (hl : HeapLayout h ((b, n) :: runs))
    (hrw : Rewrites h h' b n (clear heapBlockTableEntryFree h.table.entries b n)) :
    HeapLayout h' runs := by
  unfold HeapLayout
  rw [hrw.total, hrw.entries]
  exact hl.clear

/-! ## The steps on well-formed tables -/

/-- The address of block `s`. -/
def runAddress (h : Heap) (s : ℕ) : Addr := h.saddr + BitVec.ofNat 32 (4096 * s)

theorem heapBlockToAddress_eq (h : Heap) (s : ℕ) :
    heapBlockToAddress h s = runAddress h s := by
  unfold heapBlockToAddress runAddress
  rw [show ((s : ℤ) * (maerosHeapBlockSize : ℕ)) = ((4096 * s : ℕ) : ℤ) from by
    push_cast
    ring, BitVec.ofInt_natCast]

theorem runAddress_sub (h : Heap) {s : ℕ} (hs : 4096 * s < 2 ^ 31) :
    (runAddress h s - h.saddr).toNat = 4096 * s := by
  unfold runAddress
  rw [BitVec.add_comm, BitVec.add_sub_cancel, BitVec.toNat_ofNat]
  omega

/-- What `heap_malloc_blocks(n)` owes when `n` consecutive blocks are free: the address of the
lowest such run, the run's entries encoded and no other entry changed, and so the well-formed table
with that run added. -/
structure MallocBlocksGood (h : Heap) (runs : List (ℕ × ℕ)) (n s : ℕ) (r : Addr × Heap) : Prop where
  inTable : s + n ≤ h.table.total
  free : FreeBlocks h.table.entries s n
  lowest : ∀ s' < s, ¬ FreeBlocks h.table.entries s' n
  address : r.1 = runAddress h s
  inside : ∀ j < n, r.2.table.entries ((s + j : ℕ) : ℤ) = runEntry n j
  outside : ∀ i : ℤ, i < s ∨ (s : ℤ) + n ≤ i → r.2.table.entries i = h.table.entries i
  total : r.2.table.total = h.table.total
  layout : HeapLayout r.2 ((s, n) :: runs)

/-- What `heap_free` owes for the address of the run `(s, n)`. -/
structure FreeRunGood (h : Heap) (runs : List (ℕ × ℕ)) (s n : ℕ) (h' : Heap) : Prop where
  inside : ∀ i : ℤ, (s : ℤ) ≤ i → i < (s : ℤ) + n → h'.table.entries i = 0#8
  outside : ∀ i : ℤ, i < s ∨ (s : ℤ) + n ≤ i → h'.table.entries i = h.table.entries i
  total : h'.table.total = h.table.total
  layout : HeapLayout h' (runs.erase (s, n))

/-- `heap_malloc_blocks` takes the lowest run that is long enough. -/
theorem heapMallocBlocks_good {h : Heap} {runs : List (ℕ × ℕ)} (hl : HeapLayout h runs) {n : ℕ}
    (hn : 1 ≤ n) (hrun : HasFreeRun h.table.entries h.table.total n) :
    ∃ s, MallocBlocksGood h runs n s (heapMallocBlocks h n) := by
  rcases heapGetStartBlock_spec h n with ⟨s, hs, hsb⟩ | ⟨-, hsb⟩
  · have hrw := heapMarkBlocksTaken_spec h (s : ℤ) n
    have hcode : heapMallocBlocks h n =
        (heapBlockToAddress h s, heapMarkBlocksTaken h s n) := by
      simp only [heapMallocBlocks, hs]
      rw [if_neg (by omega)]
    generalize hx : (s : ℤ) = x at hsb
    cases hsb with
    | found s' _ hin hfree hleast =>
      obtain rfl : s = s' := by omega
      refine ⟨s, hin, hfree, hleast, ?_, ?_, ?_, ?_, ?_⟩
      · rw [hcode]
        exact heapBlockToAddress_eq h s
      · intro j hj
        rw [hcode, hrw.entries]
        exact fill_inside hj
      · intro i hi
        rw [hcode, hrw.entries]
        exact fill_outside hi
      · rw [hcode]
        exact hrw.total
      · rw [hcode]
        exact hl.malloc hn hin hfree hrw
    | tail _ _ _ _ hno => exact absurd hrun (hno hn)
    | fail _ _ => omega
  · generalize hx : (-1 : ℤ) = x at hsb
    cases hsb with
    | found _ _ _ _ _ => omega
    | tail _ _ _ _ _ => omega
    | fail hno _ => exact absurd hrun (hno hn)

/-- `heap_free` releases the run it is given, and no other block. -/
theorem heapFree_good {h : Heap} {runs : List (ℕ × ℕ)} (hl : HeapLayout h runs)
    (hsize : h.table.total * 4096 < 2 ^ 31) {s n : ℕ} (hmem : (s, n) ∈ runs) :
    FreeRunGood h runs s n (heapFree h (runAddress h s)) := by
  have hin : s + n ≤ h.table.total := hl.inside _ hmem
  have hsub := runAddress_sub h (s := s) (by omega)
  have hblock : blockIndex h (runAddress h s) = s := by
    unfold blockIndex
    omega
  have hrw := @heapFree_run h runs (runAddress h s) n hl (by rw [hblock]; exact hmem) (by omega)
  rw [hblock] at hrw
  refine ⟨?_, ?_, hrw.total, ?_⟩
  · intro i hlo hhi
    rw [hrw.entries]
    exact clear_inside hlo hhi
  · intro i hi
    rw [hrw.entries]
    exact clear_outside hi
  · exact HeapLayout.release (hl.perm (List.perm_cons_erase hmem)) hrw

/-- **The two steps of the allocator** on every well-formed table of a heap below two gigabytes. -/
theorem heap_steps_good (h : Heap) (runs : List (ℕ × ℕ)) (hl : HeapLayout h runs)
    (hsize : h.table.total * 4096 < 2 ^ 31) :
    (∀ n, 1 ≤ n → HasFreeRun h.table.entries h.table.total n →
      ∃ s, MallocBlocksGood h runs n s (heapMallocBlocks h n)) ∧
    (∀ s n, (s, n) ∈ runs → FreeRunGood h runs s n (heapFree h (runAddress h s))) :=
  ⟨fun _ hn hrun => heapMallocBlocks_good hl hn hrun, fun _ _ hmem => heapFree_good hl hsize hmem⟩

/-- A table of four blocks with one run of two. -/
def fourBlockHeap : Heap :=
  { table := { entries := fun i => if i = 0 then 0xC1#8 else if i = 1 then 0x01#8 else 0#8
               total := 4 }
    saddr := 0x01000000#32
    stores := [] }

theorem fourBlockHeap_layout : HeapLayout fourBlockHeap [(0, 2)] := by
  refine ⟨by simp, by simp [fourBlockHeap], List.pairwise_singleton _ _, ?_, ?_⟩
  · intro r hr j hj
    obtain rfl := List.mem_singleton.mp hr
    interval_cases j <;> decide
  · intro i hi hno
    have hout : ¬ Covers (0, 2) i := hno _ List.mem_cons_self
    unfold Covers at hout
    change i < 4 at hi
    interval_cases i <;> first | omega | decide

/-- On that table, one more block is taken from block 2 on, and the run is freed. -/
theorem heap_steps_good_fourBlock :
    (HeapLayout fourBlockHeap [(0, 2)] ∧ fourBlockHeap.table.total * 4096 < 2 ^ 31) ∧
      (∃ s, MallocBlocksGood fourBlockHeap [(0, 2)] 1 s (heapMallocBlocks fourBlockHeap 1)) ∧
      FreeRunGood fourBlockHeap [(0, 2)] 0 2 (heapFree fourBlockHeap (runAddress fourBlockHeap 0)) := by
  have hsize : fourBlockHeap.table.total * 4096 < 2 ^ 31 := by decide
  obtain ⟨hmalloc, hfree⟩ := heap_steps_good fourBlockHeap [(0, 2)] fourBlockHeap_layout hsize
  refine ⟨⟨fourBlockHeap_layout, hsize⟩, hmalloc 1 le_rfl ⟨2, by decide, ?_⟩, hfree 0 2 (by simp)⟩
  intro j hj
  obtain rfl : j = 0 := by omega
  decide

end MaerOS.Analysis
