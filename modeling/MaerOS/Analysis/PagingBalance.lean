import Mathlib.Data.Finset.Card
import MaerOS.Analysis.PagingOwns
import MaerOS.Lib.Run

/-!
# A chunk costs nothing once it is freed

With 1026 free blocks, wherever they are, `paging_new_4gb` finds the blocks it needs.
Mapping calls write to tables only, so the directory still leads `paging_free_4gb` to
every table, and the block table of the heap is what it was.
-/

set_option autoImplicit false

namespace MaerOS.Analysis

open MaerOS.Lib MaerOS.Model

/-! ## Free blocks -/

/-- The free blocks of a heap. -/
def freeBlocks (h : Heap) : Finset ℕ :=
  (Finset.range h.table.total).filter fun b => IsFree h.table.entries b

/-- A free block is enough for an allocation of at most one block, which takes one block. -/
theorem HeapOwns.kzalloc_block {h : Heap} {rs : List (Addr × ℕ)} (ho : HeapOwns h rs)
    {size : BitVec 32} (hpos : 1 ≤ size.toNat) (hsize : size.toNat ≤ 4096)
    (hfree : 1 ≤ (freeBlocks h).card) :
    ∃ p h', h.kzalloc size = some (p, h') ∧ p ≠ 0#32 ∧ HeapOwns h' ((p, 1) :: rs) ∧
      (freeBlocks h').card + 1 = (freeBlocks h).card := by
  have hone : blocksFor size = 1 := by
    unfold blocksFor
    omega
  have hblocks : heapTotalBlocks size = 1 := by
    rw [heapTotalBlocks_eq, if_pos (by omega), hone]
  have hrun : HasFreeRun h.table.entries h.table.total 1 := by
    obtain ⟨b, hb⟩ := Finset.card_pos.mp hfree
    obtain ⟨hlt, hb⟩ := Finset.mem_filter.mp hb
    refine ⟨b, Finset.mem_range.mp hlt, fun j hj => ?_⟩
    rw [show b + j = b from by omega]
    exact hb
  have hout := heapMalloc_spec h size
  have hz : h.kzalloc size = h.kzalloc size := rfl
  nth_rewrite 2 [Heap.kzalloc] at hz
  generalize heapMalloc h size = r at hout hz
  cases hout with
  | found b h' hn hin hfree' _ hrw =>
    rw [hblocks] at hin hfree' hrw
    have hb : b < 25600 := by
      have := ho.total
      omega
    have hne : blockAddr b ≠ 0#32 := blockAddr_ne_zero hb
    dsimp only at hz
    rw [heapBlockToAddress_packed ho.saddr b, if_neg hne,
      if_pos ((inArena_blockAddr_iff ho.saddr ho.total hb size).mpr (by omega))] at hz
    refine ⟨_, _, hz, hne, ?_, ?_⟩
    · rw [← hone]
      exact ((ho.kzalloc hpos hz).resolve_left fun h0 => hne h0.1).2
    · have hmem : b ∈ freeBlocks h := by
        apply Finset.mem_filter.mpr
        refine ⟨Finset.mem_range.mpr (by omega), ?_⟩
        simpa using hfree' 0 (by omega)
      have herase : freeBlocks h' = (freeBlocks h).erase b := by
        ext i
        simp only [freeBlocks, Finset.mem_erase, Finset.mem_filter, Finset.mem_range, hrw.total]
        by_cases hi : i = b
        · subst hi
          have hent : h'.table.entries i = runEntry 1 0 := by
            rw [hrw.entries]
            exact fill_inside (j := 0) (by omega)
          have hnot : ¬ IsFree h'.table.entries i := by
            unfold IsFree
            rw [hent]
            exact runEntry_type_ne 1 0
          simp [hnot]
        · have hent : h'.table.entries i = h.table.entries i := by
            rw [hrw.entries, fill_outside (by omega)]
          simp [IsFree, hent, hi]
      rw [herase]
      exact Finset.card_erase_add_one hmem
  | tail _ _ _ _ _ hno _ =>
    rw [hblocks] at hno
    exact absurd hrun (hno le_rfl)
  | fail hno _ =>
    rw [hblocks] at hno
    exact absurd hrun (hno le_rfl)

/-- A full heap denies a block. -/
theorem HeapOwns.kzalloc_full {h : Heap} {rs : List (Addr × ℕ)} (ho : HeapOwns h rs)
    {size : BitVec 32} (hpos : 1 ≤ size.toNat) (hsize : size.toNat ≤ 4096)
    (hfull : ∀ b < 25600, ¬ IsFree h.table.entries b) : h.kzalloc size = some (0#32, h) := by
  have hone : blocksFor size = 1 := by
    unfold blocksFor
    omega
  have hblocks : heapTotalBlocks size = 1 := by
    rw [heapTotalBlocks_eq, if_pos (by omega), hone]
  have htotal := ho.total
  have hout := heapMalloc_spec h size
  unfold Heap.kzalloc
  generalize heapMalloc h size = r at hout
  cases hout with
  | found b h' _ hin hfree _ _ =>
    rw [hblocks] at hin hfree
    exact absurd (hfree 0 (by omega)) (hfull (b + 0) (by omega))
  | tail b h' hin hfree _ _ _ => exact absurd (hfree 0 (by omega)) (hfull (b + 0) (by omega))
  | fail _ _ => rfl

/-- A heap that is not full has a free block. -/
theorem freeBlocks_pos {h : Heap}
    (hfree : ¬ ∀ b < h.table.total, ¬ IsFree h.table.entries b) : 1 ≤ (freeBlocks h).card := by
  by_contra hzero
  refine hfree fun b hb hbf => ?_
  have hmem : b ∈ freeBlocks h := Finset.mem_filter.mpr ⟨Finset.mem_range.mpr hb, hbf⟩
  have hpos := Finset.card_pos.mpr ⟨b, hmem⟩
  omega

/-! ## `paging_new_4gb` succeeds -/

/-- Where a block is free, `kzalloc` of at most 4096 bytes is granted and takes one block. -/
theorem kzalloc_block {k : Kernel} {rs : List (Addr × ℕ)} (ho : HeapOwns k.heap rs)
    {s : BitVec 32} (hpos : 1 ≤ s.toNat) (hsize : s.toNat ≤ 4096)
    (hfree : 1 ≤ (freeBlocks k.heap).card) :
    ∃ p k', Model.kzalloc s k = some (p, k') ∧ p ≠ 0#32 ∧ HeapOwns k'.heap ((p, 1) :: rs) ∧
      (freeBlocks k'.heap).card + 1 = (freeBlocks k.heap).card := by
  obtain ⟨p, h', hz, hne, ho', hcard⟩ := ho.kzalloc_block hpos hsize hfree
  refine ⟨p, { k with
    heap := h'
    mem := if p = 0#32 then k.mem else zeroFill k.mem p s.toNat
    kallocs := p :: k.kallocs }, ?_, hne, ho', hcard⟩
  unfold Model.kzalloc
  rw [hz]

/-- A page table takes one block. -/
theorem pagingNewTable_block {k : Kernel} {rs : List (Addr × ℕ)} (ho : HeapOwns k.heap rs)
    (hfree : 1 ≤ (freeBlocks k.heap).card) {dir : Addr} (hdir : dir ≠ 0#32) (flags : BitVec 8)
    (offset : BitVec 32) (i : ℕ) :
    ∃ offset' k' rs', pagingNewTable dir flags offset i k = some (offset', k') ∧
      HeapOwns k'.heap rs' ∧ (freeBlocks k'.heap).card + 1 = (freeBlocks k.heap).card := by
  obtain ⟨entry, k₁, hz, hne, ho₁, hcard⟩ :=
    kzalloc_block ho (s := BitVec.ofNat 32 (4 * pagingTotalEntriesPerTable)) (by decide)
      (by decide) hfree
  have hround : ∃ offset' k', pagingNewTable dir flags offset i k = some (offset', k') := by
    unfold pagingNewTable
    rw [bind_of_some hz, bind_of_some (deref_of_ne hne k₁), bind_of_some (forUpto_storeWord _ _ _ _),
      bind_of_some (deref_of_ne hdir _)]
    exact ⟨_, _, rfl⟩
  obtain ⟨offset', k', hround⟩ := hround
  obtain ⟨entry', hz', -, -, -, -, -, -⟩ := pagingNewTable_some hround
  have hheap : k'.heap = k₁.heap := by
    have heq : some (entry, k₁.heap) = some (entry', k'.heap) := (kzalloc_some hz).1.symm.trans hz'
    simp only [Option.some.injEq, Prod.mk.injEq] at heq
    exact heq.2.symm
  refine ⟨offset', k', (entry, 1) :: rs, hround, ?_, ?_⟩
  · rw [hheap]
    exact ho₁
  · rw [hheap]
    exact hcard

/-- As many page tables take as many blocks. -/
theorem newTables_blocks {dir : Addr} (hdir : dir ≠ 0#32) (flags : BitVec 8) :
    ∀ (l : List ℕ) (offset : BitVec 32) (k : Kernel) (rs : List (Addr × ℕ)),
      HeapOwns k.heap rs → l.length ≤ (freeBlocks k.heap).card →
      ∃ offset' k' rs', l.foldlM (pagingNewTable dir flags) offset k = some (offset', k') ∧
        HeapOwns k'.heap rs' ∧
        (freeBlocks k'.heap).card + l.length = (freeBlocks k.heap).card := by
  intro l
  induction l with
  | nil =>
    intro offset k rs ho _
    exact ⟨offset, k, rs, rfl, ho, rfl⟩
  | cons i l ih =>
    intro offset k rs ho hlen
    rw [List.length_cons] at hlen
    obtain ⟨offset₁, k₁, rs₁, hround, ho₁, hcard₁⟩ :=
      pagingNewTable_block ho (by omega) hdir flags offset i
    obtain ⟨offset', k', rs', hrest, ho', hcard⟩ := ih offset₁ k₁ rs₁ ho₁ (by omega)
    refine ⟨offset', k', rs', ?_, ho', ?_⟩
    · rw [List.foldlM_cons]
      exact prog_bind.mpr ⟨offset₁, k₁, hround, hrest⟩
    · rw [List.length_cons]
      omega

/-- 1026 free blocks are enough for a chunk, wherever they are. -/
theorem pagingNew4gb_succeeds {k : Kernel} {rs : List (Addr × ℕ)} (ho : HeapOwns k.heap rs)
    (hfree : 1026 ≤ (freeBlocks k.heap).card) (flags : BitVec 8) :
    ∃ chunk k', pagingNew4gb flags k = some (chunk, k') := by
  obtain ⟨dir, k₁, hz, hdir, ho₁, hcard₁⟩ :=
    kzalloc_block ho (s := BitVec.ofNat 32 (4 * pagingTotalEntriesPerTable)) (by decide)
      (by decide) (by omega)
  obtain ⟨offset, k₂, rs₂, hloop, ho₂, hcard₂⟩ :=
    newTables_blocks hdir flags (List.range 1024) 0#32 k₁ _ ho₁ (by rw [List.length_range]; omega)
  rw [List.length_range] at hcard₂
  obtain ⟨chunk, k₃, hz', hchunk, -, -⟩ :=
    kzalloc_block ho₂ (s := 4#32) (by decide) (by decide) (by omega)
  unfold pagingNew4gb
  rw [bind_of_some hz, bind_of_some hloop, bind_of_some hz', bind_of_some (deref_of_ne hchunk k₃)]
  exact ⟨chunk, _, rfl⟩

/-! ## Mapping calls -/

/-- A mapping call on a chunk. -/
inductive ChunkCall where
  | mapTo (virt phys phys_end : Addr) (flags : BitVec 32)
  | map (virt phys : Addr) (flags : BitVec 32)
  | set (virt : Addr) (val : BitVec 32)

/-- The memory after a call; `paging_set` is given the directory of the chunk. -/
def ChunkCall.exec (chunk : Addr) (mem : Memory) : ChunkCall → Memory
  | mapTo virt phys phys_end flags => (pagingMapTo mem chunk virt phys phys_end flags).2
  | map virt phys flags => (pagingMap mem chunk virt phys flags).2
  | set virt val => (pagingSet mem (load32 mem chunk) virt val).2

/-- The two memories differ in the tables of the chunk only. -/
def AgreeOffTables (shape : ChunkShape) (mem mem' : Memory) : Prop :=
  ∀ q, (∀ i < 1024, q ≠ pageOf (shape.tables i)) → AgreeOnPage mem mem' q

/-- `paging_set` with any arguments leaves a chunk. -/
theorem pagingSet_keeps {mem : Memory} {chunk : Addr} {shape : ChunkShape} {pm : ℕ → BitVec 32}
    (h : ChunkAt mem chunk shape pm) (virt : Addr) (val : BitVec 32) :
    (∃ pm', ChunkAt (pagingSet mem shape.dir virt val).2 chunk shape pm') ∧
      AgreeOffTables shape mem (pagingSet mem shape.dir virt val).2 := by
  by_cases hv : PageAligned virt
  · obtain ⟨mem', hset, hat, hframe⟩ := pagingSet_spec h hv val
    rw [hset]
    exact ⟨⟨_, hat⟩, hframe⟩
  · have hcode : pagingSet mem shape.dir virt val = (-einvarg, mem) := by
      unfold PageAligned at hv
      simp [pagingSet, pagingIsAligned, hv]
    rw [hcode]
    exact ⟨⟨pm, h⟩, fun q _ x _ => rfl⟩

/-- A mapping call with any arguments leaves a chunk of the same shape. -/
theorem ChunkCall.exec_keeps {mem : Memory} {chunk : Addr} {shape : ChunkShape}
    {pm : ℕ → BitVec 32} (h : ChunkAt mem chunk shape pm) (c : ChunkCall) :
    (∃ pm', ChunkAt (c.exec chunk mem) chunk shape pm') ∧
      AgreeOffTables shape mem (c.exec chunk mem) := by
  cases c with
  | mapTo virt phys phys_end flags =>
    simp only [ChunkCall.exec]
    by_cases hval : MapToValid virt phys phys_end
    · obtain ⟨mem', hmap, hat, hframe⟩ := pagingMapTo_valid h hval flags
      rw [hmap]
      exact ⟨⟨_, hat⟩, hframe⟩
    · rw [pagingMapTo_invalid hval]
      exact ⟨⟨pm, h⟩, fun q _ x _ => rfl⟩
  | map virt phys flags =>
    simp only [ChunkCall.exec, pagingMap]
    split
    · exact ⟨⟨pm, h⟩, fun q _ x _ => rfl⟩
    · rw [h.chunk_word]
      exact pagingSet_keeps h virt _
  | set virt val =>
    simp only [ChunkCall.exec]
    rw [h.chunk_word]
    exact pagingSet_keeps h virt val

/-- Mapping calls keep the chunk well formed and store to its tables only. -/
theorem chunkCalls_keep {chunk : Addr} {shape : ChunkShape} (calls : List ChunkCall) :
    ∀ (mem : Memory) (pm : ℕ → BitVec 32), ChunkAt mem chunk shape pm →
      (∃ pm', ChunkAt (run (ChunkCall.exec chunk) mem calls) chunk shape pm') ∧
        AgreeOffTables shape mem (run (ChunkCall.exec chunk) mem calls) := by
  induction calls with
  | nil =>
    intro mem pm h
    exact ⟨⟨pm, h⟩, fun q _ x _ => rfl⟩
  | cons c calls ih =>
    intro mem pm h
    obtain ⟨⟨pm₁, h₁⟩, hframe₁⟩ := c.exec_keeps h
    obtain ⟨hat, hframe⟩ := ih _ pm₁ h₁
    refine ⟨hat, fun q hq x hx => ?_⟩
    exact (hframe q hq x hx).trans (hframe₁ q hq x hx)

/-- The entries of the directory lie off the tables. -/
theorem AgreeOffTables.dir_word {mem mem' : Memory} {chunk : Addr} {shape : ChunkShape}
    {pm : ℕ → BitVec 32} (h : ChunkAt mem chunk shape pm) (hagree : AgreeOffTables shape mem mem')
    {i : ℕ} (hi : i < 1024) : load32 mem' (wordAt shape.dir i) = load32 mem (wordAt shape.dir i) := by
  apply AgreeOnPage.load32 _ h.dir_aligned hi
  apply hagree
  intro j hj heq
  exact h.tables_ne_dir j hj (eq_of_pageOf_eq h.dir_aligned (h.tables_aligned j hj) heq).symm

/-! ## The balance -/

/-- Two heaps with the same allocations have the same table. -/
theorem HeapOwns.entries_eq {h h' : Heap} {rs : List (Addr × ℕ)} (ho : HeapOwns h rs)
    (ho' : HeapOwns h' rs) {i : ℕ} (hi : i < 25600) : h.table.entries i = h'.table.entries i := by
  by_cases hc : ∃ r ∈ rs.map blockRun, Covers r i
  · obtain ⟨r, hr, hcov⟩ := hc
    rw [ho.layout.covered hr hcov, ho'.layout.covered hr hcov]
  · have hno : ∀ r ∈ rs.map blockRun, ¬ Covers r i := fun r hr hcov => hc ⟨r, hr, hcov⟩
    rw [ho.layout.rest i (by rw [ho.total]; exact hi) hno,
      ho'.layout.rest i (by rw [ho'.total]; exact hi) hno]

/-- **Chunks are heap-balanced.** From every well-formed heap with 1026 free blocks
`paging_new_4gb` makes a chunk; no mapping call on it changes a word of its directory, and freeing
it afterwards restores the block table. -/
theorem paging_chunk_balanced (k : Kernel) (rs : List (Addr × ℕ)) (ho : HeapOwns k.heap rs)
    (hfree : 1026 ≤ (freeBlocks k.heap).card) (flags : BitVec 8) (calls : List ChunkCall) :
    ∃ chunk k₁, pagingNew4gb flags k = some (chunk, k₁) ∧
      (∀ n, ∀ i < 1024,
        load32 (run (ChunkCall.exec chunk) k₁.mem (calls.take n))
            (wordIndex (load32 k₁.mem chunk) i) =
          load32 k₁.mem (wordIndex (load32 k₁.mem chunk) i)) ∧
      ∃ k₂, pagingFree4gb chunk { k₁ with mem := run (ChunkCall.exec chunk) k₁.mem calls } =
          some ((), k₂) ∧ k₂.heap.table.total = k.heap.table.total ∧
        ∀ i < k.heap.table.total, k₂.heap.table.entries i = k.heap.table.entries i := by
  obtain ⟨chunk, k₁, hnew⟩ := pagingNew4gb_succeeds ho hfree flags
  obtain ⟨shape, ho₁, hat, -⟩ := pagingNew4gb_owns hnew ho
  refine ⟨chunk, k₁, hnew, fun n i hi => ?_, ?_⟩
  · rw [hat.chunk_word]
    exact (chunkCalls_keep (calls.take n) k₁.mem _ hat).2.dir_word hat hi
  · obtain ⟨⟨pm, hat₂⟩, -⟩ := chunkCalls_keep calls k₁.mem _ hat
    obtain ⟨heap, kfrees, hfree4gb, ho₂⟩ := pagingFree4gb_owns
      (k := { k₁ with mem := run (ChunkCall.exec chunk) k₁.mem calls }) hat₂ ho₁
    refine ⟨_, hfree4gb, by rw [ho₂.total, ho.total], fun i hi => ?_⟩
    rw [ho.total] at hi
    exact ho₂.entries_eq ho hi

/-- After the boot all blocks are free. -/
theorem card_freeBlocks_bootKernel : (freeBlocks bootKernel.heap).card = 25600 := by
  have hall : freeBlocks bootKernel.heap = Finset.range 25600 := by
    apply Finset.filter_true_of_mem
    intro b hb
    exact heapOwns_bootKernel.isFree (Finset.mem_range.mp hb) (by simp)
  rw [hall, Finset.card_range]

/-- A chunk is made after the boot, a page of it is mapped, and it is given back. -/
theorem paging_chunk_balanced_boot :
    ∃ chunk k₁, pagingNew4gb 7#8 bootKernel = some (chunk, k₁) ∧
      (∀ n, ∀ i < 1024,
        load32 (run (ChunkCall.exec chunk) k₁.mem ([.set 0x400000#32 0xffffffff#32].take n))
            (wordIndex (load32 k₁.mem chunk) i) =
          load32 k₁.mem (wordIndex (load32 k₁.mem chunk) i)) ∧
      ∃ k₂, pagingFree4gb chunk { k₁ with
          mem := run (ChunkCall.exec chunk) k₁.mem [.set 0x400000#32 0xffffffff#32] } =
          some ((), k₂) ∧ k₂.heap.table.total = bootKernel.heap.table.total ∧
        ∀ i < bootKernel.heap.table.total,
          k₂.heap.table.entries i = bootKernel.heap.table.entries i :=
  paging_chunk_balanced bootKernel [] heapOwns_bootKernel
    (by rw [card_freeBlocks_bootKernel]; omega) 7#8 [.set 0x400000#32 0xffffffff#32]

end MaerOS.Analysis
