import MaerOS.Analysis.UserMemory

/-!
# Releasing what a process does not have

`process_free` looks the pointer up in the array of allocations and does nothing
when it is not there. A slot that is not in use holds the null pointer, so the null
pointer is there as long as one slot is free: the lookup hands that slot out, no
page is unmapped for it, and `kfree` is called on the null pointer. On the kernel
heap that is block `-4096`, a byte in front of the table.
-/

set_option autoImplicit false

namespace MaerOS.Analysis

open MaerOS.Lib MaerOS.Model

/-! ## The table -/

/-- The byte of the block that is freed is wiped, wherever it is. -/
theorem heapMarkBlocksFree_first (h : Heap) {b : ℤ} (hb : b < h.table.total) :
    (heapMarkBlocksFree h b).table.entries b = heapBlockTableEntryFree := by
  unfold heapMarkBlocksFree
  obtain ⟨m, -, hrw, -, hstop⟩ := heapMarkBlocksFreeLoop_spec (h.table.total - b).toNat b h
  have hpos : 1 ≤ m := by
    by_contra hzero
    exact hzero (hstop (by omega)).1
  rw [hrw.entries, clear_inside le_rfl (by omega)]

/-- Freeing from block `b` on changes nothing if and only if `b` is behind the table or its byte is
the free one already. -/
theorem heapMarkBlocksFree_same_iff (h : Heap) (b : ℤ) :
    (heapMarkBlocksFree h b).table = h.table ↔
      (h.table.total : ℤ) ≤ b ∨ h.table.entries b = heapBlockTableEntryFree := by
  constructor
  · intro hsame
    by_cases hb : (h.table.total : ℤ) ≤ b
    · exact .inl hb
    · refine .inr ?_
      rw [← hsame]
      exact heapMarkBlocksFree_first h (by omega)
  · intro hcond
    unfold heapMarkBlocksFree
    obtain ⟨m, hm, hrw, hgo, -⟩ := heapMarkBlocksFreeLoop_spec (h.table.total - b).toNat b h
    have hentries : clear heapBlockTableEntryFree h.table.entries b m = h.table.entries := by
      funext i
      by_cases hi : b ≤ i ∧ i < b + m
      · rw [clear_inside hi.1 hi.2]
        rcases hcond with hb | hb
        · omega
        · have hone : ¬ 2 ≤ m := by
            intro htwo
            have hnext := hgo 0 (by omega)
            rw [Nat.cast_zero, add_zero, hb] at hnext
            exact not_hasNext_free hnext
          rw [show i = b by omega, hb]
      · rw [clear_outside (by omega)]
    generalize heapMarkBlocksFreeLoop (h.table.total - b).toNat b h = h' at hrw
    calc h'.table = ⟨h'.table.entries, h'.table.total⟩ := rfl
      _ = h.table := by rw [hrw.entries, hrw.total, hentries]

theorem heapMarkBlocksFree_saddr (h : Heap) (b : ℤ) : (heapMarkBlocksFree h b).saddr = h.saddr := by
  obtain ⟨_, -, hrw, -⟩ := heapMarkBlocksFreeLoop_spec (h.table.total - b).toNat b h
  exact hrw.saddr

/-! ## The pages -/

/-- The result of mapping accepted pages does not depend on what is in memory. -/
theorem pagingMapRange_zero (directory : Addr) (flags : BitVec 32) (count : ℕ) (mem : Memory)
    {virt phys : Addr} (hv : PageAligned virt) (hp : PageAligned phys) :
    (pagingMapRange directory flags count mem virt phys 0).1 = 0 := by
  induction count generalizing mem virt phys with
  | zero => rfl
  | succ count ih =>
    have hcode : (pagingMap mem directory virt phys flags).1 = 0 := by
      have hidx := pagingGetIndexes_aligned hv
      unfold PageAligned at hv hp
      unfold pagingMap pagingSet
      simp [pagingPageSize, pagingIsAligned, hidx, hv, hp]
    unfold pagingMapRange
    dsimp only
    rw [hcode, if_neg (by decide)]
    exact ih _ (pageOf_add_page hv).1 (pageOf_add_page hp).1

/-- A valid range is mapped without an error. -/
theorem pagingMapTo_zero {virt phys phys_end : Addr} (hval : MapToValid virt phys phys_end)
    (mem : Memory) (directory : Addr) (flags : BitVec 32) :
    (pagingMapTo mem directory virt phys phys_end flags).1 = 0 := by
  obtain ⟨hv, hp, he, hle⟩ := hval
  have hrange := pagingMapRange_zero directory flags ((phys_end - phys).toNat / 4096) mem hv hp
  unfold PageAligned at hv hp he
  unfold pagingMapTo
  simp only [pagingPageSize]
  rw [if_neg (by omega), if_neg (by omega), if_neg (by omega), if_neg (BitVec.not_lt.mpr hle)]
  exact hrange

/-- The pages of a slot that is not in use are accepted, whatever its size. -/
theorem mapToValid_null (size : BitVec 32) :
    MapToValid 0#32 0#32 (pagingAlignAddress (0#32 + size)) := by
  refine ⟨by decide, by decide, pageAligned_pagingAlignAddress _, ?_⟩
  rw [BitVec.le_def]
  exact Nat.zero_le _

/-! ## The release -/

/-- Nothing that `process_free` can reach has changed: the heap table and the bytes around it,
memory with the page directories in it, the processes with their allocations. -/
structure Untouched (k k' : Kernel) : Prop where
  table : k'.heap.table = k.heap.table
  saddr : k'.heap.saddr = k.heap.saddr
  memory : k'.mem = k.mem
  sched : k'.sched = k.sched
  procs : k'.procs = k.procs

section Release

variable {k : Kernel} {process : Addr}

/-- An address that is in no slot is not found. -/
theorem processGetAllocationByAddr_none {p : Process} {addr : Addr}
    (hno : ∀ i < 1024, (p.allocations i).ptr ≠ addr) :
    processGetAllocationByAddr p addr = none := by
  cases hlook : processGetAllocationByAddr p addr with
  | none => rfl
  | some a =>
    obtain ⟨i, hi, rfl, hptr⟩ := processGetAllocationByAddr_some hlook
    exact absurd hptr (hno i hi)

/-- A pointer that no slot holds is turned away. -/
theorem processFree_absent (hproc : process ≠ 0#32) {ptr : Addr}
    (hno : ∀ i < 1024, ((k.procs process).allocations i).ptr ≠ ptr) :
    processFree process ptr k = some ((), k) := by
  unfold processFree
  refine prog_bind.mpr ⟨_, _, deref_of_ne hproc k, ?_⟩
  refine prog_bind.mpr ⟨_, _, rfl, ?_⟩
  rw [processGetAllocationByAddr_none hno]
  rfl

/-- The pages of a slot that is not in use are mapped; there are none when it has no bytes. -/
theorem processMapTo_null (htask : (k.procs process).task ≠ 0#32) (size : BitVec 32) :
    ∃ mem, processMapTo process 0#32 0#32 (pagingAlignAddress (0#32 + size)) 0#32 k =
        some (0, { k with mem := mem }) ∧ (size = 0#32 → mem = k.mem) := by
  have hrun := processMapTo_run htask 0#32 0#32 (pagingAlignAddress (0#32 + size)) 0#32
  have hzero := pagingMapTo_zero (mapToValid_null size) k.mem
    (k.sched.tasks (k.procs process).task).page_directory 0#32
  dsimp only at hrun
  rw [hzero] at hrun
  refine ⟨_, hrun, fun hsize => ?_⟩
  have hempty := @processMapTo_empty k process htask 0#32 (by decide) 0#32
  rw [hsize] at hrun ⊢
  rw [hempty, Option.some.injEq, Prod.mk.injEq] at hrun
  exact (congrArg Kernel.mem hrun.2).symm

/-- **The null pointer**, while a slot is free: `kfree` is called, and the slots that are not in
use are cleared. -/
theorem processFree_null (hproc : process ≠ 0#32) (htask : (k.procs process).task ≠ 0#32) {i : ℕ}
    (hi : i < 1024) (hfree : ((k.procs process).allocations i).ptr = 0#32) :
    ∃ mem, processFree process 0#32 k = some ((), { k with
        mem := mem
        procs := Function.update k.procs process (processAllocationUnjoin (k.procs process) 0#32)
        heap := heapFree k.heap 0#32
        kfrees := 0#32 :: k.kfrees }) ∧
      ((∀ j < 1024, ((k.procs process).allocations j).ptr = 0#32 →
        ((k.procs process).allocations j).size = 0#32) → mem = k.mem) := by
  cases hlook : processGetAllocationByAddr (k.procs process) 0#32 with
  | none =>
    unfold processGetAllocationByAddr at hlook
    have := List.find?_eq_none.mp (Option.map_eq_none_iff.mp hlook) i (List.mem_range.mpr hi)
    simp [hfree] at this
  | some a =>
    obtain ⟨j, hj, rfl, hptr⟩ := processGetAllocationByAddr_some hlook
    obtain ⟨mem, hmap, hmem⟩ := processMapTo_null htask ((k.procs process).allocations j).size
    refine ⟨mem, ?_, fun hnone => hmem (hnone j hj hptr)⟩
    unfold processFree
    refine prog_bind.mpr ⟨_, _, deref_of_ne hproc k, ?_⟩
    refine prog_bind.mpr ⟨_, _, rfl, ?_⟩
    rw [hlook]
    dsimp only
    rw [hptr]
    refine prog_bind.mpr ⟨_, _, hmap, ?_⟩
    rw [if_neg (by decide)]
    exact prog_bind.mpr ⟨_, _, rfl, rfl⟩

end Release

/-- Clearing the slots that are not in use changes nothing if and only if they are clear. -/
theorem processAllocationUnjoin_null_iff (p : Process) :
    processAllocationUnjoin p 0#32 = p ↔
      ∀ i < 1024, (p.allocations i).ptr = 0#32 → (p.allocations i).size = 0#32 := by
  constructor
  · intro hsame i hi hfree
    have hslot := congrArg (fun q : Process => (q.allocations i).size) hsame
    unfold processAllocationUnjoin at hslot
    dsimp only at hslot
    rw [if_pos ⟨hi, hfree⟩] at hslot
    exact hslot.symm
  · intro hclear
    unfold processAllocationUnjoin
    congr 1
    funext i
    by_cases hi : i < maerosMaxProgramAllocations ∧ (p.allocations i).ptr = 0#32
    · rw [if_pos hi]
      calc (⟨0#32, 0#32⟩ : ProcessAllocation)
          = ⟨(p.allocations i).ptr, (p.allocations i).size⟩ := by rw [hi.2, hclear i hi.1 hi.2]
        _ = p.allocations i := rfl
    · rw [if_neg hi]

/-! ## A kernel without allocations -/

/-- A kernel whose processes have a task and no allocation, over the bytes found where the table of
the heap is put. -/
def idleKernel (entries : ℤ → HeapBlockTableEntry) : Kernel :=
  { bootKernel with
    heap := (kheapInit ⟨⟨fun _ => 0#8, 0⟩, 0#32, []⟩ entries).2
    procs := fun _ => { Process.zero with task := blockAddr 3 } }

/-- For the null pointer, `kfree` goes 4096 bytes in front of the table, to a byte that
`kheap_init` leaves as it found it. -/
theorem idleKernel_null (entries : ℤ → HeapBlockTableEntry) :
    heapAddressToBlock (idleKernel entries).heap 0#32 = -4096 ∧
      (idleKernel entries).heap.table.entries (-4096) = entries (-4096) ∧
      (idleKernel entries).heap.table.total = 25600 := by
  unfold idleKernel
  dsimp only
  rw [kheapInit_eq]
  refine ⟨?_, ?_, rfl⟩
  · exact (by decide : (0#32 - 0x01000000#32).toInt.tdiv (maerosHeapBlockSize : ℕ) = -4096)
  · unfold HeapTable.clearAll
    dsimp only
    rw [if_neg (by omega)]

/-! ## Pointers of nobody and of others -/

/-- **A pointer that is not one of the process's allocations**: its release changes nothing if and
only if it is not the null pointer, or every slot is in use, or the slots that are not in use are
clear and the byte `kfree` wipes for the null pointer is zero already (or not in front of the end
of the table). -/
theorem process_free_foreign_iff (k : Kernel) (process ptr : Addr) (hproc : process ≠ 0#32)
    (htask : (k.procs process).task ≠ 0#32)
    (hforeign : ∀ i < 1024, ((k.procs process).allocations i).ptr ≠ 0#32 →
      ((k.procs process).allocations i).ptr ≠ ptr) :
    (∃ k', processFree process ptr k = some ((), k') ∧ Untouched k k') ↔
      ptr ≠ 0#32 ∨ (∀ i < 1024, ((k.procs process).allocations i).ptr ≠ 0#32) ∨
        ((∀ i < 1024, ((k.procs process).allocations i).ptr = 0#32 →
            ((k.procs process).allocations i).size = 0#32) ∧
          ((k.heap.table.total : ℤ) ≤ heapAddressToBlock k.heap 0#32 ∨
            k.heap.table.entries (heapAddressToBlock k.heap 0#32) =
              heapBlockTableEntryFree)) := by
  by_cases hheld : ∀ i < 1024, ((k.procs process).allocations i).ptr ≠ ptr
  · -- no slot holds the pointer
    refine iff_of_true ⟨k, processFree_absent hproc hheld, rfl, rfl, rfl, rfl, rfl⟩ ?_
    by_cases hptr : ptr = 0#32
    · rw [hptr] at hheld
      exact .inr (.inl hheld)
    · exact .inl hptr
  · -- a slot that is not in use holds the null pointer
    push Not at hheld
    obtain ⟨i, hi, hptr⟩ := hheld
    obtain rfl : ptr = 0#32 := by
      by_contra hne
      exact hforeign i hi (by rw [hptr]; exact hne) hptr
    obtain ⟨mem, hcode, hmem⟩ := processFree_null hproc htask hi hptr
    have hused : ¬ ∀ j < 1024, ((k.procs process).allocations j).ptr ≠ 0#32 :=
      fun h => h i hi hptr
    rw [← processAllocationUnjoin_null_iff] at hmem ⊢
    rw [← heapMarkBlocksFree_same_iff]
    constructor
    · rintro ⟨k', hcode', h⟩
      rw [hcode, Option.some.injEq, Prod.mk.injEq] at hcode'
      obtain ⟨-, rfl⟩ := hcode'
      refine .inr (.inr ⟨?_, h.table⟩)
      have hprocs := congrFun h.procs process
      dsimp only at hprocs
      rw [Function.update_self] at hprocs
      exact hprocs
    · rintro (hne | hall | ⟨hclear, htable⟩)
      · exact absurd rfl hne
      · exact absurd hall hused
      · refine ⟨_, hcode, htable, ?_, hmem hclear, rfl, ?_⟩
        · exact heapMarkBlocksFree_saddr k.heap _
        · dsimp only
          rw [hclear, Function.update_eq_self]

/-- The null pointer, over memory that is zero where the byte is. -/
theorem process_free_foreign_idle :
    ∃ k', processFree (blockAddr 0) 0#32 (idleKernel bootBytes) = some ((), k') ∧
      Untouched (idleKernel bootBytes) k' := by
  refine (process_free_foreign_iff (idleKernel bootBytes) (blockAddr 0) 0#32
    (blockAddr_ne_zero (by omega)) (blockAddr_ne_zero (by omega)) ?_).mpr (.inr (.inr ⟨?_, .inr ?_⟩))
  · intro i _ hne
    exact absurd rfl hne
  · intro i _ _
    rfl
  · obtain ⟨hblock, hbyte, -⟩ := idleKernel_null bootBytes
    rw [hblock, hbyte]
    decide

/-- The same where that byte is `0x01`: the process has no allocation, and the release of the null
pointer wipes the byte. -/
theorem process_free_null_wipes : ∃ (k : Kernel) (process : Addr), process ≠ 0#32 ∧
    (k.procs process).task ≠ 0#32 ∧
    (∀ i < 1024, ((k.procs process).allocations i).ptr = 0#32) ∧
    k.heap.table.entries (-4096) = 0x01#8 ∧
    (∃ k', processFree process 0#32 k = some ((), k') ∧
      k'.heap.table.entries (-4096) = 0x00#8) ∧
    ¬ ∃ k', processFree process 0#32 k = some ((), k') ∧ Untouched k k' := by
  obtain ⟨hblock, hbyte, htotal⟩ := idleKernel_null (Function.update bootBytes (-4096) 0x01#8)
  rw [Function.update_self] at hbyte
  have hproc : blockAddr 0 ≠ 0#32 := blockAddr_ne_zero (by omega)
  have htask : ((idleKernel (Function.update bootBytes (-4096) 0x01#8)).procs (blockAddr 0)).task ≠
      0#32 := blockAddr_ne_zero (s := 3) (by omega)
  obtain ⟨mem, hcode, -⟩ := processFree_null hproc htask (i := 0) (by omega) rfl
  have hwiped := heapMarkBlocksFree_first (b := -4096)
    (idleKernel (Function.update bootBytes (-4096) 0x01#8)).heap (by rw [htotal]; omega)
  rw [← hblock] at hwiped
  refine ⟨_, blockAddr 0, hproc, htask, fun _ _ => rfl, hbyte, ⟨_, hcode, ?_⟩, ?_⟩
  · rw [← hblock]
    exact hwiped
  · rintro ⟨k', hcode', h⟩
    rw [hcode, Option.some.injEq, Prod.mk.injEq] at hcode'
    obtain ⟨-, rfl⟩ := hcode'
    have hsame := congrFun (congrArg HeapTable.entries h.table) (-4096)
    rw [hbyte, ← hblock] at hsame
    exact absurd (hwiped.symm.trans hsame) (by decide)

end MaerOS.Analysis
