import MaerOS.Analysis.ProcessLoad

/-!
# Undoing a failed load

A load that fails leaves no trace exactly when its very first allocation, that of the
record of the process, was refused; once there is a record, no path gives it back.

The delicate case is a heap without three free blocks in a row that ends in one or two
free ones. The record is granted there, and `memset` goes on behind the arena. No four
blocks are left for the stack then, so the load fails; and since all that it has done
until then is `OnlyTaken`, the last block of the heap stays live.
-/

set_option autoImplicit false

namespace MaerOS.Analysis

open MaerOS.Lib MaerOS.Model

/-! ## Nothing is given back -/

/-- From `h` to `h'` no block has become free. -/
structure OnlyTaken (h h' : Heap) : Prop where
  saddr : h'.saddr = h.saddr
  total : h'.table.total = h.table.total
  free : ∀ i < h.table.total, IsFree h'.table.entries i → IsFree h.table.entries i

section OnlyTaken

variable {h h₁ h₂ : Heap}

/-- Nothing has happened. -/
theorem OnlyTaken.refl : OnlyTaken h h := ⟨rfl, rfl, fun _ _ hi => hi⟩

/-- One thing after the other. -/
theorem OnlyTaken.trans (h01 : OnlyTaken h h₁) (h12 : OnlyTaken h₁ h₂) : OnlyTaken h h₂ :=
  ⟨h12.saddr.trans h01.saddr, h12.total.trans h01.total, fun i hi hfree =>
    h01.free i hi (h12.free i (h01.total.symm ▸ hi) hfree)⟩

/-- The last block stays taken. -/
theorem OnlyTaken.lastTaken (h01 : OnlyTaken h h₁) (ht : h.table.total = 25600)
    (hlast : LastTaken h.table.entries 25600) : LastTaken h₁.table.entries 25600 :=
  hlast.imp_right fun hnot hfree => hnot (h01.free 25599 (by omega) hfree)

/-- No longer run of free blocks comes up. -/
theorem OnlyTaken.not_hasFreeRun (h01 : OnlyTaken h h₁) (ht : h.table.total = 25600) {m n : ℕ}
    (hmn : m ≤ n) (hno : ¬ HasFreeRun h.table.entries 25600 m) :
    ¬ HasFreeRun h₁.table.entries 25600 n := by
  rintro ⟨s, hs, hfree⟩
  exact hno ⟨s, by omega, fun j hj => h01.free (s + j) (by omega) (hfree j (by omega))⟩

end OnlyTaken

/-- A marked block is not free. -/
theorem isFree_of_fill {e : ℤ → HeapBlockTableEntry} {b n i : ℕ}
    (h : IsFree (fill runEntry e b n) i) : IsFree e i ∧ ¬ (b ≤ i ∧ i < b + n) := by
  by_cases hin : b ≤ i ∧ i < b + n
  · obtain ⟨j, rfl⟩ := Nat.exists_eq_add_of_le hin.1
    unfold IsFree at h
    rw [fill_inside (by omega)] at h
    exact absurd h (runEntry_type_ne _ _)
  · refine ⟨?_, hin⟩
    unfold IsFree at h ⊢
    rwa [fill_outside (by omega)] at h

/-- **`heap_malloc`** frees nothing. -/
theorem heapMalloc_onlyTaken (h : Heap) (size : BitVec 32) : OnlyTaken h (heapMalloc h size).2 := by
  have hout := heapMalloc_spec h size
  generalize heapMalloc h size = r at hout
  cases hout with
  | found s h₁ _ _ _ _ hrw =>
    refine ⟨hrw.saddr, hrw.total, fun i _ hfree => ?_⟩
    dsimp only at hfree
    rw [hrw.entries] at hfree
    exact (isFree_of_fill hfree).1
  | tail s h₁ _ _ _ _ hrw =>
    refine ⟨hrw.saddr, hrw.total, fun i _ hfree => ?_⟩
    dsimp only at hfree
    rw [hrw.entries] at hfree
    exact (isFree_of_fill hfree).1
  | fail _ _ => exact .refl

/-- What `kzalloc` has done to the heap is what `heap_malloc` does. -/
theorem heapMalloc_of_kzalloc {h h' : Heap} {size : BitVec 32} {p : Addr}
    (hz : h.kzalloc size = some (p, h')) : heapMalloc h size = (p, h') := by
  unfold Heap.kzalloc at hz
  dsimp only at hz
  split at hz
  · rename_i hnull
    cases hz
    exact Prod.ext hnull rfl
  · split at hz
    · cases hz
      rfl
    · cases hz

/-- **`kzalloc`** frees nothing. -/
theorem kzalloc_onlyTaken {k k' : Kernel} {size : BitVec 32} {p : Addr}
    (hz : Model.kzalloc size k = some (p, k')) : OnlyTaken k.heap k'.heap := by
  have hsame := heapMalloc_of_kzalloc (kzalloc_some hz).1
  have htaken := heapMalloc_onlyTaken k.heap size
  rwa [hsame] at htaken

section Arena

variable {h h' : Heap} {size : BitVec 32} {p : Addr}

/-- Where the last block is taken, a request is granted a run of free blocks or nothing. -/
theorem heapMalloc_lastTaken (hlast : LastTaken h.table.entries h.table.total)
    (hz : heapMalloc h size = (p, h')) (hp : p ≠ 0#32) :
    ∃ s : ℕ, p = heapBlockToAddress h s ∧ 1 ≤ heapTotalBlocks size ∧
      s + heapTotalBlocks size ≤ h.table.total ∧
      FreeBlocks h.table.entries s (heapTotalBlocks size) ∧
      Rewrites h h' s (heapTotalBlocks size)
        (fill runEntry h.table.entries s (heapTotalBlocks size)) := by
  have hout := heapMalloc_spec h size
  rw [hz] at hout
  generalize hr : (p, h') = r at hout
  cases hout with
  | found s h₁ hn hin hfree _ hrw =>
    cases hr
    exact ⟨s, rfl, hn, hin, hfree, hrw⟩
  | tail s h₁ hin hfree _ _ _ =>
    have hend := hfree (h.table.total - 1 - s) (by omega)
    have hindex : ((s : ℤ) + (h.table.total - 1 - s : ℕ)) = (h.table.total - 1 : ℕ) := by omega
    rcases hlast with h0 | hnot
    · omega
    · refine absurd ?_ hnot
      rwa [show s + (h.table.total - 1 - s) = h.table.total - 1 from by omega] at hend
  | fail _ _ =>
    cases hr
    exact absurd rfl hp

/-- **Giving back at once** what was just granted frees nothing else. -/
theorem heapFree_onlyTaken (hs : h.saddr = 0x01000000#32) (ht : h.table.total = 25600)
    (hlast : LastTaken h.table.entries 25600) (hz : heapMalloc h size = (p, h')) (hp : p ≠ 0#32) :
    OnlyTaken h (heapFree h' p) := by
  obtain ⟨s, rfl, hn, hin, hfree, hrw⟩ := heapMalloc_lastTaken (ht.symm ▸ hlast) hz hp
  rw [ht] at hin
  have hblock : heapAddressToBlock h' (heapBlockToAddress h s) = s := by
    rw [heapBlockToAddress_packed hs]
    exact heapAddressToBlock_blockAddr (hrw.saddr.trans hs) (by omega)
  have hclear : Rewrites h' (heapFree h' (heapBlockToAddress h s)) s (heapTotalBlocks size)
      (clear heapBlockTableEntryFree h'.table.entries s (heapTotalBlocks size)) := by
    unfold heapFree
    rw [hblock]
    refine heapMarkBlocksFree_run h' s _ hn (by rw [hrw.total, ht]; exact hin) fun j hj => ?_
    rw [hrw.entries, fill_inside hj]
  refine ⟨hclear.saddr.trans hrw.saddr, hclear.total.trans hrw.total, fun i _ hi => ?_⟩
  by_cases hrun : s ≤ i ∧ i < s + heapTotalBlocks size
  · obtain ⟨j, rfl⟩ := Nat.exists_eq_add_of_le hrun.1
    exact hfree j (by omega)
  · unfold IsFree at hi ⊢
    rwa [hclear.entries, clear_outside (by omega), hrw.entries, fill_outside (by omega)] at hi

/-- A request that would leave the arena: no run of free blocks serves it, and it is granted what is
free at the end of the heap. -/
theorem HeapOwns.kzalloc_past {rs : List (Addr × ℕ)} (ho : HeapOwns h rs) (hsize : 1 ≤ size.toNat)
    (hle : size.toNat ≤ 2 ^ 32 - 4096) (hz : h.kzalloc size = none) :
    ¬ HasFreeRun h.table.entries 25600 (blocksFor size) ∧ ¬ LastTaken h.table.entries 25600 ∧
      (heapMalloc h size).1 ≠ 0#32 ∧ LastTaken (heapMalloc h size).2.table.entries 25600 := by
  have hn := blocksFor_pos hsize
  have hblocks : heapTotalBlocks size = blocksFor size := by rw [heapTotalBlocks_eq, if_pos hle]
  have htotal := ho.total
  have hout := heapMalloc_spec h size
  unfold Heap.kzalloc at hz
  generalize heapMalloc h size = r at hout hz
  cases hout with
  | found s h₁ _ hin _ _ _ =>
    rw [hblocks, htotal] at hin
    dsimp only at hz
    rw [heapBlockToAddress_packed ho.saddr, if_neg (blockAddr_ne_zero (by omega)),
      if_pos ((inArena_blockAddr_iff ho.saddr ho.total (by omega) size).mpr hin)] at hz
    cases hz
  | tail s h₁ hin hfree _ hno hrw =>
    rw [hblocks, htotal] at hno
    rw [htotal] at hin hfree
    have hshort : 25600 < s + blocksFor size := by
      by_contra hfit
      exact hno hn ⟨s, by omega, fun j hj => hfree j (by omega)⟩
    refine ⟨hno hn, ?_, ?_, .inr fun hlast => ?_⟩
    · rintro (h0 | hnot)
      · omega
      · refine hnot ?_
        have hend := hfree (25599 - s) (by omega)
        rwa [show s + (25599 - s) = 25599 from by omega] at hend
    · dsimp only
      rw [heapBlockToAddress_packed ho.saddr]
      exact blockAddr_ne_zero (by omega)
    · dsimp only at hlast
      rw [hrw.entries, hblocks] at hlast
      exact (isFree_of_fill hlast).2 ⟨by omega, by omega⟩
  | fail _ _ => cases hz

end Arena

/-! ## Loading the program -/

/-- **`elf_load`** frees nothing. -/
theorem elfLoad_onlyTaken {pass : FilePass} {k k' : Kernel} {r : ℤ × Addr}
    (h : elfLoad pass k = some (r, k')) : OnlyTaken k.heap k'.heap := by
  unfold elfLoad at h
  obtain ⟨elf_file, k₁, hz, h₁⟩ := prog_bind.mp h
  obtain ⟨_, _, he, h₂⟩ := prog_bind.mp h₁
  cases he
  have hrecord := kzalloc_onlyTaken hz
  unfold elfRead at h₂
  split at h₂
  · obtain ⟨-, rfl⟩ := prog_pure.mp h₂
    exact hrecord
  split at h₂
  · obtain ⟨-, rfl⟩ := prog_pure.mp h₂
    exact hrecord
  obtain ⟨elf_memory, k₂, hz₂, h₃⟩ := prog_bind.mp h₂
  obtain ⟨_, k₃, hd, h₄⟩ := prog_bind.mp h₃
  obtain ⟨-, rfl⟩ := deref_some hd
  obtain ⟨_, _, hset, h₅⟩ := prog_bind.mp h₄
  cases hset
  obtain ⟨res₁, k₄, hread, h₆⟩ := prog_bind.mp h₅
  have hadded := kzalloc_onlyTaken hz₂
  have himage : OnlyTaken k.heap k₃.heap := hrecord.trans hadded
  have hsame : k₄.heap = k₃.heap := by
    rcases read_some hread with ⟨-, -, rfl⟩ | ⟨-, -, -, rfl⟩ <;> rfl
  split at h₆
  · obtain ⟨-, rfl⟩ := prog_pure.mp h₆
    exact hsame ▸ himage
  · obtain ⟨res₂, k₅, hload, h₇⟩ := prog_bind.mp h₆
    obtain ⟨-, file, rfl, -⟩ := elfProcessLoaded_some hload
    split at h₇ <;>
      · obtain ⟨-, rfl⟩ := prog_pure.mp h₇
        exact hsame ▸ himage

/-- **`process_load_elf`** frees nothing. -/
theorem processLoadElf_onlyTaken {pass : FilePass} {process : Addr} {k k' : Kernel} {res : ℤ}
    (h : processLoadElf pass process k = some (res, k')) : OnlyTaken k.heap k'.heap := by
  unfold processLoadElf processLoadElfBy at h
  obtain ⟨⟨res₁, elf_file⟩, k₁, hload, h₁⟩ := prog_bind.mp h
  have htaken := elfLoad_onlyTaken hload
  dsimp only at h₁
  split at h₁
  · obtain ⟨-, rfl⟩ := prog_pure.mp h₁
    exact htaken
  · obtain ⟨_, _, hset, h₂⟩ := prog_bind.mp h₁
    cases hset
    obtain ⟨-, rfl⟩ := prog_pure.mp h₂
    exact htaken

/-- **`process_load_binary`** gives back what it has just been granted, at most. -/
theorem processLoadBinary_onlyTaken {pass : FilePass} {process : Addr} {k k' : Kernel} {res : ℤ}
    (h : processLoadBinary pass process k = some (res, k')) (hs : k.heap.saddr = 0x01000000#32)
    (ht : k.heap.table.total = 25600) (hlast : LastTaken k.heap.table.entries 25600) :
    OnlyTaken k.heap k'.heap := by
  unfold processLoadBinary at h
  split at h
  · cases h
  split at h
  · split at h
    · cases h
    · obtain ⟨-, rfl⟩ := prog_pure.mp h
      exact .refl
  obtain ⟨program_data_ptr, k₁, hz, h₁⟩ := prog_bind.mp h
  have htaken := kzalloc_onlyTaken hz
  by_cases hnull : program_data_ptr = 0#32
  · rw [if_pos hnull] at h₁
    obtain ⟨-, rfl⟩ := prog_pure.mp h₁
    exact htaken
  rw [if_neg hnull] at h₁
  obtain ⟨count, k₂, hread, h₂⟩ := prog_bind.mp h₁
  have hsame : k₂.heap = k₁.heap := by
    rcases read_some hread with ⟨-, -, rfl⟩ | ⟨-, -, -, rfl⟩ <;> rfl
  split at h₂
  · obtain ⟨_, k₃, hfree, h₃⟩ := prog_bind.mp h₂
    cases hfree
    obtain ⟨-, rfl⟩ := prog_pure.mp h₃
    dsimp only
    rw [hsame]
    exact heapFree_onlyTaken hs ht hlast (heapMalloc_of_kzalloc (kzalloc_some hz).1) hnull
  · obtain ⟨_, _, hset, h₃⟩ := prog_bind.mp h₂
    cases hset
    obtain ⟨-, rfl⟩ := prog_pure.mp h₃
    exact hsame ▸ htaken

/-- **`process_load_data`** frees nothing, where the last block is taken. -/
theorem processLoadData_onlyTaken {elf binary : FilePass} {process : Addr} {k k' : Kernel} {res : ℤ}
    (h : processLoadData elf binary process k = some (res, k')) (hs : k.heap.saddr = 0x01000000#32)
    (ht : k.heap.table.total = 25600) (hlast : LastTaken k.heap.table.entries 25600) :
    OnlyTaken k.heap k'.heap := by
  unfold processLoadData processLoadDataBy at h
  obtain ⟨res₁, k₁, hload, h₁⟩ := prog_bind.mp h
  have htaken := processLoadElf_onlyTaken hload
  split at h₁
  · exact htaken.trans (processLoadBinary_onlyTaken h₁ (htaken.saddr.trans hs)
      (htaken.total.trans ht) (htaken.lastTaken ht hlast))
  · obtain ⟨-, rfl⟩ := prog_pure.mp h₁
    exact htaken

/-- **From a record at the end of the heap on**, nothing is given back: no room is left for the
stack. -/
theorem RecordLoad.onlyTaken {filename : List (BitVec 8)} {elf binary : FilePass} {slot : ℤ}
    {process p : Addr} {k k' : Kernel} {res : ℤ}
    (h : RecordLoad (processLoadData elf binary) processLoadTask filename slot process k k' res p)
    (hs : k.heap.saddr = 0x01000000#32) (ht : k.heap.table.total = 25600)
    (hlast : LastTaken k.heap.table.entries 25600)
    (hno : ¬ HasFreeRun k.heap.table.entries 25600 3) : OnlyTaken k.heap k'.heap := by
  cases h with
  | data hdata hneg =>
    have htaken := processLoadData_onlyTaken hdata hs ht hlast
    exact htaken
  | stack hdata hz hres =>
    have htaken := processLoadData_onlyTaken hdata hs ht hlast
    exact htaken.trans (kzalloc_onlyTaken hz)
  | @task res₁ k₁ k₂ stack hdata hpos hz hstack htask =>
    have hloaded := processLoadData_onlyTaken hdata hs ht hlast
    have htaken : OnlyTaken k.heap k₁.heap := hloaded
    have ht₁ := htaken.total.trans ht
    obtain ⟨s, -, -, hin, hfree, -⟩ := heapMalloc_lastTaken
      (by rw [ht₁]; exact htaken.lastTaken ht hlast)
      (heapMalloc_of_kzalloc (kzalloc_some hz).1) hstack
    rw [ht₁] at hin
    exact absurd ⟨s, hin, hfree⟩ (htaken.not_hasFreeRun ht (by decide) hno)

/-! ## The record -/

/-- Where `memset` stays in the arena, it is `kzalloc`. -/
theorem kzallocPast_of_kzalloc {k : Kernel} {size : BitVec 32} {r : Addr × Kernel}
    (hz : Model.kzalloc size k = some r) : kzallocPast size k = some r := by
  obtain ⟨p, k'⟩ := r
  obtain ⟨hheap, hmem, hlog, honly⟩ := kzalloc_some hz
  unfold Model.kzalloc at hz
  unfold kzallocPast
  rw [hheap] at hz
  rw [heapMalloc_of_kzalloc hheap]
  exact hz

/-- **`process_load_for_slot`** with a record that may lie past the arena does all that it does
where this has no outcome. -/
theorem processLoadForSlotPast_of_kzalloc {filename : List (BitVec 8)} {elf binary : FilePass}
    {slot : ℤ} {k : Kernel} {r : (ℤ × Addr) × Kernel}
    (h : processLoadForSlot filename elf binary slot k = some r) :
    processLoadForSlotPast filename elf binary slot k = some r := by
  obtain ⟨r, k'⟩ := r
  unfold processLoadForSlot processLoadForSlotBy at h
  unfold processLoadForSlotPast processLoadForSlotBy
  rw [bind_get] at h ⊢
  split at h
  · cases h
  · rename_i hfree
    rw [if_neg hfree]
    obtain ⟨process, k₁, hz, h₁⟩ := prog_bind.mp h
    rw [bind_of_some (kzallocPast_of_kzalloc hz)]
    exact h₁

/-- The call left no trace: the processes, the current process, the list of tasks and the live
blocks are what they were, and it freed nothing but what it had allocated. -/
structure LoadUndone (k k' : Kernel) : Prop where
  processes : k'.processes = k.processes
  current : k'.current_process = k.current_process
  tasks : ∀ live, Represents k.sched live → Represents k'.sched live
  heap : liveBlocks k'.heap = liveBlocks k.heap
  kfrees : ∃ freed allocated, k'.kfrees = freed ++ k.kfrees ∧
    k'.kallocs = allocated ++ k.kallocs ∧ ∀ q ∈ freed, q ∈ allocated

section Undone

variable {k k₁ k' : Kernel} {rs : List (Addr × ℕ)}

/-- Where the record is refused, there is no trace. -/
theorem loadUndone_of_refused (ho : HeapOwns k.heap rs)
    (hz : Model.kzalloc sizeofProcess k = some (0#32, k')) :
    LoadUndone k k' ∧ ¬ HasFreeRun k.heap.table.entries 25600 3 ∧
      LastTaken k.heap.table.entries 25600 := by
  obtain ⟨hheap, -, hlog, honly⟩ := kzalloc_some hz
  rcases ho.kzalloc (by decide) hheap with ⟨-, hsame, hrefused⟩ | ⟨hne, -⟩
  · refine ⟨⟨honly.processes, honly.current_process, fun _ hl => ?_, by rw [hsame],
      [], [0#32], honly.kfrees, hlog, by simp⟩, hrefused⟩
    rw [honly.sched]
    exact hl
  · exact absurd rfl hne

/-- A record that has stayed live is a trace, and its blocks were free before. -/
theorem not_loadUndone_of_record (ho : HeapOwns k.heap rs) {os : List (Addr × ℕ)} {process : Addr}
    (hown : HeapOwns k'.heap (os ++ (process, 3) :: rs)) :
    ¬ LoadUndone k k' ∧ HasFreeRun k.heap.table.entries 25600 3 := by
  refine ⟨fun hun => ho.liveBlocks_ne hown hun.heap, ?_⟩
  have hr : (process, 3) ∈ os ++ (process, 3) :: rs :=
    List.mem_append_right _ List.mem_cons_self
  have hin := hown.inside hr
  have habove := hown.above _ hr
  dsimp only at hin habove
  refine ⟨pageOf process - 4096, by omega, fun j hj => ho.isFree (by omega) fun r hr' hq => ?_⟩
  have hap := (List.pairwise_append.mp hown.apart).2.1
  refine (List.pairwise_cons.mp hap).1 r hr' _ ?_ hq
  unfold InRun
  dsimp only
  omega

/-- The last block has become live. -/
theorem not_loadUndone_of_last (htaken : OnlyTaken k₁.heap k'.heap)
    (ht : k₁.heap.table.total = 25600) (hlast : ¬ LastTaken k.heap.table.entries 25600)
    (hlast₁ : LastTaken k₁.heap.table.entries 25600) : ¬ LoadUndone k k' := by
  intro hun
  have hlive : 25599 ∈ liveBlocks k'.heap := by
    refine ⟨by rw [htaken.total, ht]; decide, ?_⟩
    exact (htaken.lastTaken ht hlast₁).resolve_left (by decide)
  rw [hun.heap] at hlive
  exact hlast (.inr hlive.2)

end Undone

/-- **When a failed load is undone.** A call that returns an error code leaves no trace exactly
when the record of the process is refused: no three free blocks follow each other, and the last
block of the heap is taken. The record may be granted past the end of the arena. -/
theorem process_load_undone_iff (filename : List (BitVec 8)) (elf binary : FilePass) (slot : ℤ)
    (k k' : Kernel) (res : ℤ) (p : Addr) (rs : List (Addr × ℕ)) (ho : HeapOwns k.heap rs)
    (h : processLoadForSlotPast filename elf binary slot k = some ((res, p), k'))
    (hneg : res < 0) :
    LoadUndone k k' ↔ ¬ HasFreeRun k.heap.table.entries k.heap.table.total 3 ∧
      LastTaken k.heap.table.entries k.heap.table.total := by
  rw [ho.total]
  obtain ⟨process, k₁, hz, hrest⟩ := processLoadForSlotBy_cases h
  cases hk : Model.kzalloc sizeofProcess k with
  | some r =>
    rw [kzallocPast_of_kzalloc hk] at hz
    cases hz
    rcases hrest with ⟨rfl, rfl, -⟩ | ⟨hnull, hload⟩
    · obtain ⟨hun, hrefused⟩ := loadUndone_of_refused ho hk
      exact iff_of_true hun hrefused
    · rcases hload.owns (ho.record hk hnull) with ⟨-, os, hown⟩ | ⟨hpos, -⟩
      · obtain ⟨hnot, hrun⟩ := not_loadUndone_of_record ho hown
        exact iff_of_false hnot fun hrefused => hrefused.1 hrun
      · exact absurd hpos (not_le.mpr hneg)
  | none =>
    have hheap : k.heap.kzalloc sizeofProcess = none := by
      unfold Model.kzalloc at hk
      split at hk
      · assumption
      · cases hk
    obtain ⟨hno, hlast, hnull, hlast₁⟩ := ho.kzalloc_past (by decide) (by decide) hheap
    have htaken := heapMalloc_onlyTaken k.heap sizeofProcess
    cases hz
    rcases hrest with ⟨h0, -, -⟩ | ⟨-, hload⟩
    · exact absurd h0 hnull
    · have ht := htaken.total.trans ho.total
      exact iff_of_false (not_loadUndone_of_last (hload.onlyTaken (htaken.saddr.trans ho.saddr)
        ht hlast₁ (htaken.not_hasFreeRun ho.total le_rfl hno)) ht hlast hlast₁)
        fun hrefused => hlast hrefused.2

/-- A load into a full heap fails and leaves no trace. -/
theorem process_load_undone_full : ∃ k k' : Kernel,
    processLoadForSlotPast [] ⟨0, 0, 0#32, 0, []⟩ ⟨0, 0, 0#32, 0, []⟩ 0 k = some ((-3, 0#32), k') ∧
      LoadUndone k k' := by
  have hsize : blocksFor 104857600#32 = 25600 := rfl
  obtain ⟨k, hz, hp, -⟩ := packed_bootKernel.kernel_kzalloc 104857600#32 (by decide)
    (by rw [hsize])
  rw [hsize, Nat.zero_add] at hp
  obtain ⟨hheap, -, -, honly⟩ := kzalloc_some hz
  obtain ⟨-, hown⟩ := (heapOwns_bootKernel.kzalloc (by decide) hheap).resolve_left
    fun h => blockAddr_ne_zero (by omega) h.1
  have hslot : ¬ processGet k.processes 0 ≠ 0#32 := by
    rw [honly.processes]
    decide
  have hcode : processLoadForSlotPast [] ⟨0, 0, 0#32, 0, []⟩ ⟨0, 0, 0#32, 0, []⟩ 0 k =
      some ((-3, 0#32), { k with kallocs := 0#32 :: k.kallocs }) := by
    unfold processLoadForSlotPast processLoadForSlotBy
    refine prog_bind.mpr ⟨_, _, rfl, ?_⟩
    rw [if_neg hslot]
    refine prog_bind.mpr ⟨_, _, kzallocPast_of_kzalloc (hp.kzalloc_full sizeofProcess), ?_⟩
    rw [if_pos rfl]
    rfl
  refine ⟨k, _, hcode, ?_⟩
  refine (process_load_undone_iff [] _ _ 0 k _ (-3) 0#32 _ hown hcode (by decide)).mpr ⟨?_, ?_⟩
  · rintro ⟨s, hs, hfree⟩
    rw [hp.total] at hs
    exact hp.taken (s + 0) (by omega) (hfree 0 (by omega))
  · rw [hp.total]
    exact .inr (hp.taken 25599 (by omega))

/-- **A file that is not there**, in a fresh kernel: the call fails and the record of the process,
blocks 0 to 2, stays live. -/
theorem process_load_leaks_record : ∃ k' : Kernel,
    processLoadForSlotPast [] ⟨0, 0, 0#32, 0, []⟩ ⟨0, 0, 0#32, 0, []⟩ 0 bootKernel =
      some ((-1, 0#32), k') ∧ ¬ LoadUndone bootKernel k' := by
  have hsize : blocksFor sizeofProcess = 3 := rfl
  obtain ⟨k₁, hz₁, hp₁, -⟩ := packed_bootKernel.kernel_kzalloc sizeofProcess (by decide)
    (by rw [hsize]; omega)
  rw [hsize, Nat.zero_add] at hp₁
  obtain ⟨k₂, hz₂, -⟩ := Packed.kernel_kzalloc
    (k := { k₁ with procs := Function.update k₁.procs (blockAddr 0) Process.zero }) hp₁
    sizeofElfFile (by decide) (by rw [show blocksFor sizeofElfFile = 1 from rfl]; omega)
  have hcode : processLoadForSlotPast [] ⟨0, 0, 0#32, 0, []⟩ ⟨0, 0, 0#32, 0, []⟩ 0 bootKernel =
      some ((-1, 0#32), { k₂ with
        elfs := Function.update k₂.elfs (blockAddr 3) ElfFile.zero }) := by
    unfold processLoadForSlotPast processLoadForSlotBy
    refine prog_bind.mpr ⟨_, _, rfl, ?_⟩
    rw [if_neg (by decide)]
    refine prog_bind.mpr ⟨_, _, kzallocPast_of_kzalloc hz₁, ?_⟩
    rw [if_neg (blockAddr_ne_zero (by omega))]
    refine prog_bind.mpr ⟨_, _, rfl, ?_⟩
    refine prog_bind.mpr ⟨-1, { k₂ with
      elfs := Function.update k₂.elfs (blockAddr 3) ElfFile.zero }, ?_, rfl⟩
    unfold processLoadData processLoadDataBy
    refine prog_bind.mpr ⟨-1, _, ?_, rfl⟩
    unfold processLoadElf processLoadElfBy
    refine prog_bind.mpr ⟨(-1, 0#32), _, ?_, rfl⟩
    unfold elfLoad
    refine prog_bind.mpr ⟨_, _, hz₂, ?_⟩
    refine prog_bind.mpr ⟨_, _, rfl, ?_⟩
    rfl
  refine ⟨_, hcode, fun hun => ?_⟩
  obtain ⟨process, k₃, hz, ⟨-, -, hres⟩ | ⟨hnull, hload⟩⟩ := processLoadForSlotBy_cases hcode
  · exact absurd hres (by decide)
  rw [kzallocPast_of_kzalloc hz₁] at hz
  cases hz
  rcases hload.owns (heapOwns_bootKernel.record hz₁ hnull) with ⟨-, os, hown⟩ | ⟨hpos, -⟩
  · exact (not_loadUndone_of_record heapOwns_bootKernel hown).1 hun
  · exact absurd hpos (by decide)

end MaerOS.Analysis
