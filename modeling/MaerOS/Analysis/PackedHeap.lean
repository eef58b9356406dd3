import MaerOS.Analysis.HeapSafety
import MaerOS.Analysis.PagingNew

/-!
# The kernel heap before anything is released

`kheap_init` leaves all 25600 blocks free, and as long as nothing is released the
taken blocks are the first ones of the table. In such a heap every request that
fits is granted the next blocks, so the calls that need many allocations can be
followed to their end: `Packed.pagingNew4gb` is the total counterpart of
`pagingNew4gb_spec`.
-/

set_option autoImplicit false

namespace MaerOS.Analysis

open MaerOS.Lib MaerOS.Model

/-- The kernel heap with exactly its first `s` blocks taken. -/
structure Packed (h : Heap) (s : ℕ) : Prop where
  saddr : h.saddr = 0x01000000#32
  total : h.table.total = 25600
  taken : ∀ i < s, ¬ IsFree h.table.entries i
  free : ∀ i, s ≤ i → i < 25600 → IsFree h.table.entries i

/-- The address of block `s` of the kernel heap. -/
def blockAddr (s : ℕ) : Addr := BitVec.ofNat 32 (16777216 + 4096 * s)

/-- Block addresses do not wrap. -/
theorem blockAddr_toNat {s : ℕ} (hs : s < 25600) : (blockAddr s).toNat = 16777216 + 4096 * s := by
  unfold blockAddr
  rw [BitVec.toNat_ofNat]
  omega

theorem blockAddr_ne_zero {s : ℕ} (hs : s < 25600) : blockAddr s ≠ 0#32 := by
  intro h
  have := congrArg BitVec.toNat h
  rw [blockAddr_toNat hs] at this
  simp at this

theorem pageAligned_blockAddr {s : ℕ} (hs : s < 25600) : PageAligned (blockAddr s) := by
  unfold PageAligned
  rw [blockAddr_toNat hs]
  omega

theorem blockAddr_inj {s t : ℕ} (hs : s < 25600) (ht : t < 25600)
    (h : blockAddr s = blockAddr t) : s = t := by
  have := congrArg BitVec.toNat h
  rw [blockAddr_toNat hs, blockAddr_toNat ht] at this
  omega

theorem heapBlockToAddress_packed {h : Heap} (hs : h.saddr = 0x01000000#32) (s : ℕ) :
    heapBlockToAddress h s = blockAddr s := by
  unfold heapBlockToAddress blockAddr
  rw [hs, show ((s : ℤ) * (maerosHeapBlockSize : ℕ)) = ((4096 * s : ℕ) : ℤ) from by
    push_cast
    ring, BitVec.ofInt_natCast, BitVec.ofNat_add]

/-- A request lies in the arena iff its blocks are blocks of the table. -/
theorem inArena_blockAddr_iff {h : Heap} (hs : h.saddr = 0x01000000#32)
    (ht : h.table.total = 25600) {s : ℕ} (hlt : s < 25600) (size : BitVec 32) :
    h.InArena (blockAddr s) size ↔ s + blocksFor size ≤ 25600 := by
  unfold Heap.InArena blocksFor
  rw [← heapBlockToAddress_packed hs s, heapBlockToAddress_sub h s (by omega), ht]
  simp only [maerosHeapBlockSize]
  omega

/-- `kheap_init` succeeds, with an empty table. -/
theorem kheapInit_eq (kernel_heap : Heap) (entries : ℤ → HeapBlockTableEntry) :
    kheapInit kernel_heap entries = (0, { table := HeapTable.clearAll ⟨entries, 25600⟩,
                                          saddr := 0x01000000#32, stores := [] }) := by
  have hstart : heapValidateAlignment maerosHeapAddress = true := by decide
  have hend : heapValidateAlignment
      (maerosHeapAddress + BitVec.ofNat 32 maerosHeapSizeBytes) = true := by decide
  have htable : heapValidateTable maerosHeapAddress
      (maerosHeapAddress + BitVec.ofNat 32 maerosHeapSizeBytes)
      ⟨entries, maerosHeapSizeBytes / maerosHeapBlockSize⟩ = 0 := by
    unfold heapValidateTable
    dsimp only
    rw [if_neg]
    decide
  unfold kheapInit heapCreate
  rw [hstart, hend, htable]
  rfl

theorem packed_kheapInit (kernel_heap : Heap) (entries : ℤ → HeapBlockTableEntry) :
    Packed (kheapInit kernel_heap entries).2 0 := by
  rw [kheapInit_eq]
  refine ⟨rfl, rfl, fun i hi => by omega, ?_⟩
  intro i _ hi
  unfold IsFree HeapTable.clearAll
  dsimp only
  rw [if_pos (by omega)]
  decide

/-- **A request that fits** is granted the next blocks. -/
theorem Packed.kzalloc {h : Heap} {s : ℕ} (hp : Packed h s) (size : BitVec 32)
    (hsize : 1 ≤ size.toNat) (hfit : s + blocksFor size ≤ 25600) :
    ∃ h', h.kzalloc size = some (blockAddr s, h') ∧ Packed h' (s + blocksFor size) := by
  have hn := blocksFor_pos hsize
  have hsmall : size.toNat ≤ blocksFor size * 4096 := by
    unfold blocksFor
    omega
  have hblocks : heapTotalBlocks size = blocksFor size := by
    rw [heapTotalBlocks_eq, if_pos (by omega)]
  have hrow : FreeBlocks h.table.entries s (blocksFor size) := fun j hj =>
    hp.free (s + j) (by omega) (by omega)
  have hrun : HasFreeRun h.table.entries h.table.total (blocksFor size) :=
    ⟨s, by rw [hp.total]; exact hfit, hrow⟩
  have hout := heapMalloc_spec h size
  unfold Heap.kzalloc
  generalize heapMalloc h size = r at hout
  cases hout with
  | found b h' _ hin hfree hleast hrw =>
    rw [hblocks] at hin hfree hleast hrw
    -- the lowest free run starts right behind the taken blocks
    obtain rfl : b = s := by
      refine le_antisymm (not_lt.mp fun hlt => hleast s hlt hrow) (not_lt.mp fun hlt => ?_)
      exact hp.taken b hlt (hfree 0 (by omega))
    have haddr := heapBlockToAddress_packed hp.saddr b
    refine ⟨h', ?_, ⟨hrw.saddr.trans hp.saddr, hrw.total.trans hp.total, ?_, ?_⟩⟩
    · dsimp only
      rw [haddr, if_neg (blockAddr_ne_zero (by omega)), if_pos]
      exact (inArena_blockAddr_iff hp.saddr hp.total (by omega) size).mpr hfit
    · intro i hi
      unfold IsFree
      rw [hrw.entries]
      by_cases hib : i < b
      · rw [fill_outside (by omega)]
        exact hp.taken i hib
      · rw [show (i : ℤ) = ((b + (i - b) : ℕ) : ℤ) from by omega, fill_inside (by omega)]
        exact runEntry_type_ne _ _
    · intro i hlo hhi
      unfold IsFree
      rw [hrw.entries, fill_outside (by omega)]
      exact hp.free i (by omega) hhi
  | tail b h' _ _ _ hno _ => exact absurd hrun (hblocks ▸ hno (hblocks ▸ hn))
  | fail hno _ => exact absurd hrun (hblocks ▸ hno (hblocks ▸ hn))

/-! ## Kernel code on a packed heap -/

theorem heapAddressToBlock_blockAddr {h : Heap} (hs : h.saddr = 0x01000000#32) {b : ℕ}
    (hb : b < 25600) : heapAddressToBlock h (blockAddr b) = b := by
  have hsub : (blockAddr b - h.saddr).toNat = 4096 * b := by
    rw [hs, BitVec.toNat_sub, blockAddr_toNat hb]
    simp only [BitVec.toNat_ofNat]
    omega
  rw [heapAddressToBlock_eq h _ (by omega)]
  unfold blockIndex
  rw [hsub]
  omega

/-! ## The three operations -/

/-- How `kzalloc` can end: null and nothing done, or the address of a block, where blocks that
were free have been marked. -/
theorem kzalloc_cases {h h' : Heap} (hs : h.saddr = 0x01000000#32) (ht : h.table.total = 25600)
    {size : BitVec 32} {p : Addr} (hz : h.kzalloc size = some (p, h')) :
    (p = 0#32 ∧ h' = h) ∨ ∃ s < 25600, p = blockAddr s ∧
      Rewrites h h' s (heapTotalBlocks size)
        (fill runEntry h.table.entries s (heapTotalBlocks size)) ∧ IsFree h.table.entries s ∧
      ∀ j < heapTotalBlocks size, s + j < 25600 → IsFree h.table.entries (s + j) := by
  have hout := heapMalloc_spec h size
  unfold Heap.kzalloc at hz
  generalize heapMalloc h size = res at hout hz
  have hmark : ∀ (s : ℕ) (h₁ : Heap), s < 25600 →
      (if heapBlockToAddress h s = 0#32 then some (0#32, h₁)
        else if h.InArena (heapBlockToAddress h s) size then some (heapBlockToAddress h s, h₁)
        else none) = some (p, h') → p = blockAddr s ∧ h₁ = h' := by
    intro s h₁ hlt hif
    rw [heapBlockToAddress_packed hs s, if_neg (blockAddr_ne_zero hlt)] at hif
    split at hif
    · cases hif
      exact ⟨rfl, rfl⟩
    · cases hif
  cases hout with
  | found s h₁ hn hin hfree _ hrw =>
    obtain ⟨rfl, rfl⟩ := hmark s h₁ (by omega) hz
    exact .inr ⟨s, by omega, rfl, hrw, hfree 0 hn, fun j hj _ => hfree j hj⟩
  | tail s h₁ hin hfree _ _ hrw =>
    obtain ⟨rfl, rfl⟩ := hmark s h₁ (by omega) hz
    exact .inr ⟨s, by omega, rfl, hrw, hfree 0 (by omega), fun j _ hlt => hfree j (by omega)⟩
  | fail _ _ =>
    dsimp only at hz
    rw [if_pos rfl] at hz
    cases hz
    exact .inl ⟨rfl, rfl⟩

/-- A one-block request and its release leave the heap packed as it was. -/
theorem Packed.kzalloc_kfree {h h' : Heap} {s : ℕ} (hp : Packed h s) {size : BitVec 32}
    (hone : heapTotalBlocks size = 1) (hfit : s < 25600)
    (hz : h.kzalloc size = some (blockAddr s, h')) : Packed (heapFree h' (blockAddr s)) s := by
  have htotal := hp.total
  -- the request has marked block `s` alone
  have hrw : Rewrites h h' s 1 (fill runEntry h.table.entries s 1) := by
    rcases kzalloc_cases hp.saddr hp.total hz with ⟨h0, -⟩ | ⟨b, hb, haddr, hrw, -, -⟩
    · exact absurd h0 (blockAddr_ne_zero hfit)
    · obtain rfl := blockAddr_inj hfit hb haddr
      rw [hone] at hrw
      exact hrw
  have hclear : Rewrites h' (heapFree h' (blockAddr s)) s 1
      (clear heapBlockTableEntryFree h'.table.entries s 1) := by
    unfold heapFree
    rw [heapAddressToBlock_blockAddr (hrw.saddr.trans hp.saddr) hfit]
    refine heapMarkBlocksFree_run h' s 1 le_rfl (by rw [hrw.total]; omega) fun j hj => ?_
    rw [hrw.entries, fill_inside hj]
  refine ⟨hclear.saddr.trans (hrw.saddr.trans hp.saddr),
    hclear.total.trans (hrw.total.trans hp.total), fun i hi => ?_, fun i hi hlt => ?_⟩
  · unfold IsFree
    rw [hclear.entries, clear_outside (by omega), hrw.entries, fill_outside (by omega)]
    exact hp.taken i hi
  · unfold IsFree
    rw [hclear.entries]
    by_cases his : i = s
    · subst his
      rw [clear_inside le_rfl (by omega)]
      decide
    · rw [clear_outside (by omega), hrw.entries, fill_outside (by omega)]
      exact hp.free i hi hlt

/-- An allocation takes the next blocks of a packed heap. -/
theorem Packed.kernel_kzalloc {k : Kernel} {s : ℕ} (hp : Packed k.heap s) (size : BitVec 32)
    (hsize : 1 ≤ size.toNat) (hfit : s + blocksFor size ≤ 25600) :
    ∃ k', Model.kzalloc size k = some (blockAddr s, k') ∧ Packed k'.heap (s + blocksFor size) ∧
      k'.kallocs = blockAddr s :: k.kallocs := by
  obtain ⟨h', hz, hp'⟩ := hp.kzalloc size hsize hfit
  refine ⟨{ k with
    heap := h'
    mem := if blockAddr s = 0#32 then k.mem else zeroFill k.mem (blockAddr s) size.toNat
    kallocs := blockAddr s :: k.kallocs }, ?_, hp', rfl⟩
  unfold Model.kzalloc
  rw [hz]

/-- A full heap refuses every request. -/
theorem Packed.kzalloc_full {k : Kernel} (hp : Packed k.heap 25600) (size : BitVec 32) :
    Model.kzalloc size k = some (0#32, { k with kallocs := 0#32 :: k.kallocs }) := by
  have hout := heapMalloc_spec k.heap size
  have hz : k.heap.kzalloc size = some (0#32, k.heap) := by
    unfold Heap.kzalloc
    generalize heapMalloc k.heap size = r at hout
    cases hout with
    | found b h' hn hin hfree _ _ =>
      rw [hp.total] at hin
      exact absurd (hfree 0 (by omega)) (hp.taken (b + 0) (by omega))
    | tail b h' hin hfree _ _ _ =>
      rw [hp.total] at hin hfree
      exact absurd (hfree 0 (by omega)) (hp.taken (b + 0) (by omega))
    | fail _ _ => rfl
  unfold Model.kzalloc
  rw [hz]
  rfl

/-- A page table takes the next block of a packed heap. -/
theorem Packed.pagingNewTable {k : Kernel} {s : ℕ} (hp : Packed k.heap s) (hfit : s + 1 ≤ 25600)
    {dir : Addr} (hdir : dir ≠ 0#32) (flags : BitVec 8) (offset : BitVec 32) (i : ℕ) :
    ∃ offset' k', Model.pagingNewTable dir flags offset i k = some (offset', k') ∧
      Packed k'.heap (s + 1) ∧ k'.kallocs = blockAddr s :: k.kallocs := by
  obtain ⟨k₁, hz, hp₁, hlog⟩ := hp.kernel_kzalloc 4096#32 (by decide) hfit
  refine ⟨_, _, prog_bind.mpr ⟨_, k₁, hz, prog_bind.mpr ⟨_, _,
    deref_of_ne (blockAddr_ne_zero (by omega)) k₁, prog_bind.mpr ⟨_, _, forUpto_storeWord _ _ _ _,
      prog_bind.mpr ⟨_, _, deref_of_ne hdir _, prog_bind.mpr ⟨_, _, rfl, rfl⟩⟩⟩⟩⟩, hp₁, hlog⟩

/-- Page tables take the next blocks of a packed heap, one each. -/
theorem Packed.newTables {dir : Addr} (hdir : dir ≠ 0#32) (flags : BitVec 8) :
    ∀ (l : List ℕ) (s : ℕ) (offset : BitVec 32) (k : Kernel), Packed k.heap s →
      s + l.length ≤ 25600 →
      ∃ offset' k', l.foldlM (Model.pagingNewTable dir flags) offset k = some (offset', k') ∧
        Packed k'.heap (s + l.length) ∧
        k'.kallocs = ((List.range' s l.length).map blockAddr).reverse ++ k.kallocs := by
  intro l
  induction l with
  | nil =>
    intro s offset k hp _
    exact ⟨offset, k, rfl, hp, rfl⟩
  | cons i l ih =>
    intro s offset k hp hfit
    rw [List.length_cons] at hfit
    obtain ⟨offset₁, k₁, hround, hp₁, hlog₁⟩ := hp.pagingNewTable (by omega) hdir flags offset i
    obtain ⟨offset₂, k₂, hrest, hp₂, hlog₂⟩ := ih (s + 1) offset₁ k₁ hp₁ (by omega)
    refine ⟨offset₂, k₂, ?_, ?_, ?_⟩
    · rw [List.foldlM_cons]
      exact prog_bind.mpr ⟨_, k₁, hround, hrest⟩
    · rw [List.length_cons, show s + (l.length + 1) = s + 1 + l.length from by omega]
      exact hp₂
    · rw [hlog₂, hlog₁, List.length_cons, List.range'_succ, List.map_cons, List.reverse_cons,
        List.append_assoc, List.singleton_append]

/-- **`paging_new_4gb` on a packed heap** takes the next 1026 blocks. -/
theorem Packed.pagingNew4gb {k : Kernel} {s : ℕ} (hp : Packed k.heap s) (hfit : s + 1026 ≤ 25600)
    (flags : BitVec 8) :
    ∃ k', Model.pagingNew4gb flags k = some (blockAddr (s + 1025), k') ∧
      Packed k'.heap (s + 1026) ∧
      k'.kallocs = ((List.range' s 1026).map blockAddr).reverse ++ k.kallocs := by
  obtain ⟨k₁, hz₁, hp₁, hlog₁⟩ := hp.kernel_kzalloc 4096#32 (by decide)
    (by rw [show blocksFor 4096#32 = 1 from rfl]; omega)
  rw [show blocksFor 4096#32 = 1 from rfl] at hp₁
  have hdir : blockAddr s ≠ 0#32 := blockAddr_ne_zero (by omega)
  have hchunk : blockAddr (s + 1025) ≠ 0#32 := blockAddr_ne_zero (by omega)
  obtain ⟨offset, k₂, hloop, hp₂, hlog₂⟩ := Packed.newTables hdir flags (List.range 1024) (s + 1)
    0#32 k₁ hp₁ (by rw [List.length_range]; omega)
  rw [List.length_range] at hp₂ hlog₂
  obtain ⟨k₃, hz₃, hp₃, hlog₃⟩ := hp₂.kernel_kzalloc 4#32 (by decide)
    (by rw [show blocksFor 4#32 = 1 from rfl]; omega)
  rw [show blocksFor 4#32 = 1 from rfl, show s + 1 + 1024 + 1 = s + 1026 from by omega] at hp₃
  rw [show s + 1 + 1024 = s + 1025 from by omega] at hz₃ hlog₃
  refine ⟨{ k₃ with mem := store32 k₃.mem (blockAddr (s + 1025)) (blockAddr s) }, ?_, hp₃, ?_⟩
  · unfold Model.pagingNew4gb
    refine prog_bind.mpr ⟨_, k₁, hz₁, ?_⟩
    refine prog_bind.mpr ⟨_, k₂, hloop, ?_⟩
    refine prog_bind.mpr ⟨_, k₃, hz₃, ?_⟩
    refine prog_bind.mpr ⟨_, k₃, deref_of_ne hchunk k₃, ?_⟩
    exact prog_bind.mpr ⟨_, _, rfl, rfl⟩
  show k₃.kallocs = _
  have hsplit : List.range' s 1026 = s :: (List.range' (s + 1) 1024 ++ [s + 1025]) := by
    rw [List.range'_succ, List.range'_concat]
  rw [hlog₃, hlog₂, hlog₁, hsplit, List.map_cons, List.map_append, List.reverse_cons,
    List.reverse_append, List.append_assoc]
  simp

/-- The allocations of `paging_new_4gb` on a packed heap are distinct aligned blocks. -/
theorem blockAddrs_distinct {s n : ℕ} (hfit : s + n ≤ 25600) :
    (∀ a ∈ ((List.range' s n).map blockAddr).reverse, PageAligned a) ∧
      ((List.range' s n).map blockAddr).reverse.Nodup := by
  have hlt : ∀ i ∈ List.range' s n, i < 25600 := by
    intro i hi
    rw [List.mem_range'_1] at hi
    omega
  refine ⟨?_, List.nodup_reverse.mpr ?_⟩
  · intro a ha
    rw [List.mem_reverse, List.mem_map] at ha
    obtain ⟨i, hi, rfl⟩ := ha
    exact pageAligned_blockAddr (hlt i hi)
  · exact List.Nodup.map_on (fun i hi j hj heq => blockAddr_inj (hlt i hi) (hlt j hj) heq)
      List.nodup_range'

/-- **`kfree`** clears a row of entries, wherever the pointer leads. -/
theorem heapFree_clears (h : Heap) (p : Addr) : ∃ m,
    Rewrites h (heapFree h p) (heapAddressToBlock h p) m
      (clear heapBlockTableEntryFree h.table.entries (heapAddressToBlock h p) m) := by
  obtain ⟨m, -, hrw, -⟩ := heapMarkBlocksFreeLoop_spec
    (h.table.total - heapAddressToBlock h p).toNat (heapAddressToBlock h p) h
  exact ⟨m, hrw⟩

/-- What was free stays free. -/
theorem isFree_heapFree {h : Heap} {b : ℕ} (hb : IsFree h.table.entries b) (p : Addr) :
    IsFree (heapFree h p).table.entries b := by
  obtain ⟨m, hrw⟩ := heapFree_clears h p
  unfold IsFree
  rw [hrw.entries]
  by_cases hin : heapAddressToBlock h p ≤ b ∧ (b : ℤ) < heapAddressToBlock h p + m
  · rw [clear_inside hin.1 hin.2]
    decide
  · rw [clear_outside (by omega)]
    exact hb

/-- Memory around the heap table: the last two bytes of the boot sector are right below it, and
everything else is zero. -/
def bootBytes : ℤ → HeapBlockTableEntry := fun i =>
  if i = -2 then 0x55#8 else if i = -1 then 0xaa#8 else 0#8

/-- The kernel after `kheap_init`, with no task and no process; every process record reads as that
of a raw binary. -/
def bootKernel : Kernel :=
  { heap := (kheapInit ⟨⟨fun _ => 0#8, 0⟩, 0#32, []⟩ bootBytes).2
    mem := fun _ => 0#8
    sched := ⟨fun _ => Task.zero, 0#32, 0#32, 0#32⟩
    procs := fun _ => { Process.zero with filetype := processFiletypeBinary }
    elfs := fun _ => ElfFile.zero
    processes := fun _ => 0#32
    current_process := 0#32
    kallocs := []
    kfrees := [] }

/-- Its heap is free throughout. -/
theorem packed_bootKernel : Packed bootKernel.heap 0 :=
  packed_kheapInit ⟨⟨fun _ => 0#8, 0⟩, 0#32, []⟩ bootBytes

end MaerOS.Analysis
