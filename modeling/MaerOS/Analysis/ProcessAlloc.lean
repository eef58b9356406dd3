import MaerOS.Model.Process
import MaerOS.Analysis.TaskSpecs

/-!
# What `process_malloc` and `process_free` do to the kernel

The allocations of a process are read off its array `allocations`. Both functions
move blocks between the heap and the process and edit the process's own page
directory in the same breath, so what is writable for the process is always
contained in what the array lists. The one request that breaks the link between
the array and the heap is that of no bytes at all: it is granted the address of a
block that stays free.
-/

set_option autoImplicit false

namespace MaerOS.Analysis

open MaerOS.Lib MaerOS.Model

/-! ## The array of allocations -/

/-- The blocks a slot of the array stands for. -/
def slotRun (a : ProcessAllocation) : Option (Addr × ℕ) :=
  if a.ptr = 0#32 then none else some (a.ptr, blocksFor a.size)

/-- The blocks a process has. -/
def allocRuns (p : Process) : List (Addr × ℕ) :=
  (List.range maerosMaxProgramAllocations).filterMap fun i => slotRun (p.allocations i)

/-- A slot that is switched off takes one element out of the list. -/
theorem filterMap_perm_cons {ι α : Type} {l : List ι} (hl : l.Nodup) {f g : ι → Option α} {i : ι}
    (hi : i ∈ l) {r : α} (hf : f i = some r) (hg : g i = none)
    (hfg : ∀ j ∈ l, j ≠ i → f j = g j) : (l.filterMap f).Perm (r :: l.filterMap g) := by
  obtain ⟨l₁, l₂, rfl⟩ := List.append_of_mem hi
  obtain ⟨-, hnd, hdisj⟩ := List.nodup_append.mp hl
  have h₁ : l₁.filterMap f = l₁.filterMap g := by
    refine List.filterMap_congr fun j hj => hfg j (by simp [hj]) fun heq => ?_
    exact hdisj j hj i (by simp) heq
  have h₂ : l₂.filterMap f = l₂.filterMap g := by
    refine List.filterMap_congr fun j hj => hfg j (by simp [hj]) fun heq => ?_
    exact (List.nodup_cons.mp hnd).1 (heq ▸ hj)
  rw [List.filterMap_append, List.filterMap_append, List.filterMap_cons_some hf,
    List.filterMap_cons_none hg, h₁, h₂]
  exact List.perm_middle

theorem slotRun_of_ne {a : ProcessAllocation} (h : a.ptr ≠ 0#32) :
    slotRun a = some (a.ptr, blocksFor a.size) := if_neg h

theorem slotRun_of_eq {a : ProcessAllocation} (h : a.ptr = 0#32) : slotRun a = none := if_pos h

/-- A slot that is taken has its run among those of the process. -/
theorem mem_allocRuns {p : Process} {i : ℕ} (hi : i < 1024) (h : (p.allocations i).ptr ≠ 0#32) :
    ((p.allocations i).ptr, blocksFor (p.allocations i).size) ∈ allocRuns p :=
  List.mem_filterMap.mpr ⟨i, List.mem_range.mpr hi, slotRun_of_ne h⟩

theorem allocRuns_eq_nil {p : Process} (h : ∀ i < 1024, (p.allocations i).ptr = 0#32) :
    allocRuns p = [] := by
  refine List.filterMap_eq_nil_iff.mpr fun i hi => slotRun_of_eq (h i (List.mem_range.mp hi))

/-- **`process_find_free_allocation_index`** finds a slot that is not in use. -/
theorem processFindFreeAllocationIndex_spec {p : Process}
    (h : ¬ processFindFreeAllocationIndex p < 0) :
    ∃ i : ℕ, i < 1024 ∧ processFindFreeAllocationIndex p = i ∧ (p.allocations i).ptr = 0#32 := by
  unfold processFindFreeAllocationIndex at *
  cases hfind : (List.range maerosMaxProgramAllocations).find?
      fun i => (p.allocations i).ptr == 0#32 with
  | none =>
    rw [hfind] at h
    exact absurd (by decide) h
  | some i =>
    refine ⟨i, List.mem_range.mp (List.mem_of_find?_eq_some hfind), rfl, ?_⟩
    simpa using List.find?_some hfind

/-- The slot found is not behind a free one. -/
theorem processFindFreeAllocationIndex_le {p : Process} {j : ℕ} (hj : j < 1024)
    (hfree : (p.allocations j).ptr = 0#32) :
    ∃ i ≤ j, processFindFreeAllocationIndex p = i := by
  unfold processFindFreeAllocationIndex
  cases hfind : (List.range maerosMaxProgramAllocations).find?
      fun i => (p.allocations i).ptr == 0#32 with
  | none =>
    have := List.find?_eq_none.mp hfind j (List.mem_range.mpr hj)
    simp [hfree] at this
  | some i =>
    refine ⟨i, ?_, rfl⟩
    by_contra hlt
    have := (List.find?_range_eq_some.mp hfind).2.2 j (by omega)
    simp [hfree] at this

/-- **`process_get_allocation_by_addr`** finds a slot with the address. -/
theorem processGetAllocationByAddr_some {p : Process} {addr : Addr} {a : ProcessAllocation}
    (h : processGetAllocationByAddr p addr = some a) :
    ∃ i < 1024, p.allocations i = a ∧ a.ptr = addr := by
  unfold processGetAllocationByAddr at h
  obtain ⟨i, hfind, rfl⟩ := Option.map_eq_some_iff.mp h
  refine ⟨i, List.mem_range.mp (List.mem_of_find?_eq_some hfind), rfl, ?_⟩
  simpa using List.find?_some hfind

/-- A slot that is filled is one more run. -/
theorem allocRuns_setAllocation {p : Process} {i : ℕ} (hi : i < 1024)
    (hfree : (p.allocations i).ptr = 0#32) {a : ProcessAllocation} (ha : a.ptr ≠ 0#32) :
    (allocRuns (p.setAllocation i a)).Perm ((a.ptr, blocksFor a.size) :: allocRuns p) := by
  refine filterMap_perm_cons List.nodup_range (List.mem_range.mpr hi) ?_ (slotRun_of_eq hfree) ?_
  · unfold Process.setAllocation
    dsimp only
    rw [Function.update_self]
    exact slotRun_of_ne ha
  · intro j _ hj
    unfold Process.setAllocation
    dsimp only
    rw [Function.update_of_ne hj]

/-- Clearing the slots that hold the null pointer changes nothing. -/
theorem allocRuns_unjoin_null (p : Process) :
    allocRuns (processAllocationUnjoin p 0#32) = allocRuns p := by
  refine List.filterMap_congr fun i hi => ?_
  have hlt := List.mem_range.mp hi
  unfold processAllocationUnjoin
  dsimp only
  split
  · rename_i h
    rw [slotRun_of_eq h.2, slotRun_of_eq rfl]
  · rfl

/-- Clearing the slots of a pointer that only one slot holds. -/
theorem allocRuns_unjoin {p : Process} {i : ℕ} (hi : i < 1024)
    (hne : (p.allocations i).ptr ≠ 0#32)
    (honly : ∀ j < 1024, j ≠ i → (p.allocations j).ptr ≠ (p.allocations i).ptr) :
    (allocRuns p).Perm (((p.allocations i).ptr, blocksFor (p.allocations i).size) ::
      allocRuns (processAllocationUnjoin p (p.allocations i).ptr)) := by
  refine filterMap_perm_cons List.nodup_range (List.mem_range.mpr hi) (slotRun_of_ne hne) ?_ ?_
  · unfold processAllocationUnjoin
    dsimp only
    rw [if_pos ⟨hi, rfl⟩]
    rfl
  · intro j hj hji
    unfold processAllocationUnjoin
    dsimp only
    rw [if_neg fun h => honly j h.1 hji h.2]

/-- Where the addresses of the allocations are all different, no two slots hold the same one. -/
theorem slot_unique {p : Process} (hnd : ((allocRuns p).map Prod.fst).Nodup) {i j : ℕ}
    (hi : i < 1024) (hj : j < 1024) (hne : (p.allocations i).ptr ≠ 0#32)
    (heq : (p.allocations j).ptr = (p.allocations i).ptr) : j = i := by
  by_contra hji
  have hperm := filterMap_perm_cons (f := fun i => slotRun (p.allocations i))
    (g := fun l => if l = i then none else slotRun (p.allocations l)) List.nodup_range
    (List.mem_range.mpr hi) (slotRun_of_ne hne) (if_pos rfl) fun l _ hl => (if_neg hl).symm
  have hnd' := (hperm.map Prod.fst).nodup_iff.mp hnd
  rw [List.map_cons, List.nodup_cons] at hnd'
  refine hnd'.1 (List.mem_map.mpr ⟨((p.allocations j).ptr, blocksFor (p.allocations j).size),
    List.mem_filterMap.mpr ⟨j, List.mem_range.mpr hj, ?_⟩, heq⟩)
  rw [if_neg hji]
  exact slotRun_of_ne (heq.symm ▸ hne)

/-! ## What a process may write -/

/-- The entry lets a user program write: present, writable, accessible from user land. -/
def UserWritable (entry : BitVec 32) : Prop := entry &&& processMallocFlags = processMallocFlags

instance (entry : BitVec 32) : Decidable (UserWritable entry) := inferInstanceAs (Decidable (_ = _))

/-- Every page a directory lets the program write is mapped to itself and belongs to one of the
runs. -/
def WritesWithin (pm : ℕ → BitVec 32) (runs : List (Addr × ℕ)) : Prop :=
  ∀ v < 2 ^ 20, UserWritable (pm v) → pageOf (pm v) = v ∧ ∃ r ∈ runs, InRun r v

/-- The rights of an entry are those it was made with. -/
theorem userWritable_or {p flags : BitVec 32} (hp : PageAligned p) (hf : flags.toNat < 4096) :
    UserWritable (p ||| flags) ↔ UserWritable flags := by
  have hmask : processMallocFlags = 0xfff#32 &&& processMallocFlags := by decide
  have h1 : (p ||| flags) &&& processMallocFlags = flags &&& processMallocFlags := by
    rw [hmask, ← BitVec.and_assoc, or_flags_and_low hp hf, ← hmask]
  unfold UserWritable
  rw [h1]

theorem writesWithin_selfMap (runs : List (Addr × ℕ)) : WritesWithin selfMap runs := by
  intro v hv hw
  have ha : PageAligned (BitVec.ofNat 32 (4096 * v)) := by
    unfold PageAligned
    rw [BitVec.toNat_ofNat]
    omega
  rw [selfMap, userWritable_or ha (by decide)] at hw
  exact absurd hw (by decide)

/-- What stays within some runs stays within more. -/
theorem WritesWithin.subset {pm : ℕ → BitVec 32} {runs runs' : List (Addr × ℕ)}
    (h : WritesWithin pm runs) (hsub : ∀ r ∈ runs, r ∈ runs') : WritesWithin pm runs' := by
  intro v hv hw
  obtain ⟨hpage, r, hr, hin⟩ := h v hv hw
  exact ⟨hpage, r, hsub r hr, hin⟩

/-- The end of an allocation, as `process_malloc` and `process_free` compute it. -/
theorem pagingAlignAddress_end {ptr : Addr} (ha : PageAligned ptr) {size : BitVec 32}
    (hin : pageOf ptr + blocksFor size < 2 ^ 20) :
    MapToValid ptr ptr (pagingAlignAddress (ptr + size)) ∧
      (pagingAlignAddress (ptr + size) - ptr).toNat / 4096 = blocksFor size := by
  have h1 := ptr.isLt
  have h2 := size.isLt
  unfold PageAligned at ha
  unfold blocksFor pageOf at hin
  have hsum : (ptr + size).toNat = ptr.toNat + size.toNat := by
    rw [BitVec.toNat_add]
    omega
  have hend : (pagingAlignAddress (ptr + size)).toNat = ptr.toNat + 4096 * blocksFor size := by
    unfold pagingAlignAddress blocksFor
    simp only [pagingPageSize]
    split
    · rw [BitVec.toNat_sub, BitVec.toNat_add (ptr + size), hsum, BitVec.toNat_ofNat,
        BitVec.toNat_ofNat]
      omega
    · omega
  refine ⟨⟨ha, ha, ?_, ?_⟩, ?_⟩
  · unfold PageAligned
    omega
  · rw [BitVec.le_def, hend]
    omega
  · rw [BitVec.toNat_sub, hend]
    unfold blocksFor
    omega

/-- The pages behind a pointer are those of its run. -/
theorem pageDist_lt_iff_inRun {ptr : Addr} {n v : ℕ} (hin : pageOf ptr + n < 2 ^ 20)
    (hv : v < 2 ^ 20) : pageDist (pageOf ptr) v < n ↔ InRun (ptr, n) v := by
  unfold pageDist InRun
  dsimp only
  omega

/-- **Mapping a run to itself** lets the program write there, and only the page itself. -/
theorem writesWithin_map {pm : ℕ → BitVec 32} {runs : List (Addr × ℕ)} {ptr : Addr} {n : ℕ}
    (ha : PageAligned ptr) (hin : pageOf ptr + n < 2 ^ 20) (h : WritesWithin pm runs) :
    WritesWithin (mapPages pm (pageOf ptr) ptr n processMallocFlags) ((ptr, n) :: runs) := by
  intro v hv hw
  unfold mapPages at hw ⊢
  by_cases hd : pageDist (pageOf ptr) v < n
  · rw [if_pos ⟨hv, hd⟩] at hw ⊢
    have hrun := (pageDist_lt_iff_inRun hin hv).mp hd
    refine ⟨?_, (ptr, n), List.mem_cons_self, hrun⟩
    have hptr := ptr.isLt
    have hsum : (ptr + BitVec.ofNat 32 (4096 * pageDist (pageOf ptr) v)).toNat = 4096 * v := by
      rw [BitVec.toNat_add, BitVec.toNat_ofNat]
      unfold InRun at hrun
      unfold PageAligned at ha
      unfold pageDist pageOf at *
      dsimp only at hrun
      omega
    have hal : PageAligned (ptr + BitVec.ofNat 32 (4096 * pageDist (pageOf ptr) v)) := by
      unfold PageAligned
      omega
    have hentry := or_flags_toNat hal (f := processMallocFlags) (by decide)
    rw [hsum, show processMallocFlags.toNat = 7 from rfl] at hentry
    show (_ : BitVec 32).toNat / 4096 = v
    rw [hentry]
    omega
  · rw [if_neg fun hx => hd hx.2] at hw ⊢
    obtain ⟨hpage, r, hr, hin'⟩ := h v hv hw
    exact ⟨hpage, r, List.mem_cons_of_mem _ hr, hin'⟩

/-- **Mapping without flags** takes the right to write away. -/
theorem not_userWritable_unmap {pm : ℕ → BitVec 32} {vp : ℕ} {phys : Addr} {n v : ℕ}
    (ha : PageAligned phys) (hv : v < 2 ^ 20)
    (hw : UserWritable (mapPages pm vp phys n 0#32 v)) :
    ¬ pageDist vp v < n ∧ mapPages pm vp phys n 0#32 v = pm v := by
  unfold mapPages at hw ⊢
  by_cases hd : v < 2 ^ 20 ∧ pageDist vp v < n
  · exfalso
    rw [if_pos hd, userWritable_or _ (by decide)] at hw
    · exact absurd hw (by decide)
    · unfold PageAligned at *
      rw [BitVec.toNat_add, BitVec.toNat_ofNat]
      omega
  · rw [if_neg hd]
    exact ⟨fun h => hd ⟨hv, h⟩, rfl⟩

/-! ## The two functions -/

/-- A process, its chunk and where the parts of the chunk are. -/
structure ProcFoot where
  process : Addr
  chunk : Addr
  shape : ChunkShape

/-- The blocks of the chunk of a process and those it has allocated. -/
def ProcFoot.runs (k : Kernel) (f : ProcFoot) : List (Addr × ℕ) :=
  chunkRuns f.chunk f.shape ++ allocRuns (k.procs f.process)

/-- The process runs on its chunk and can write its own allocations only. -/
structure Confined (k : Kernel) (f : ProcFoot) : Prop where
  dir : (k.sched.tasks (k.procs f.process).task).page_directory = f.chunk
  map : ∃ pm, ChunkAt k.mem f.chunk f.shape pm ∧ WritesWithin pm (allocRuns (k.procs f.process))

/-- What a system call of `process` leaves alone: the tasks, the other processes, the ELF files,
everything in its own record but the array of allocations, and the blocks `rs`. -/
structure CallFrame (k k' : Kernel) (process : Addr) (rs : List (Addr × ℕ)) : Prop where
  sched : k'.sched = k.sched
  others : ∀ q, q ≠ process → k'.procs q = k.procs q
  record : ∃ allocations, k'.procs process = { k.procs process with allocations := allocations }
  elfs : k'.elfs = k.elfs
  agree : AgreeOnRuns k.mem k'.mem rs

/-- Nothing changed. -/
theorem CallFrame.refl (k : Kernel) (process : Addr) (rs : List (Addr × ℕ)) :
    CallFrame k k process rs :=
  ⟨rfl, fun _ _ => rfl, ⟨_, rfl⟩, rfl, fun _ _ _ _ _ _ => rfl⟩

/-- One call after the other. -/
theorem CallFrame.trans {k k₁ k₂ : Kernel} {process : Addr} {rs : List (Addr × ℕ)}
    (h : CallFrame k k₁ process rs) (h' : CallFrame k₁ k₂ process rs) :
    CallFrame k k₂ process rs := by
  obtain ⟨_, hrec⟩ := h.record
  obtain ⟨allocations, hrec'⟩ := h'.record
  refine ⟨h'.sched.trans h.sched, fun q hq => (h'.others q hq).trans (h.others q hq),
    ⟨allocations, by rw [hrec', hrec]⟩, h'.elfs.trans h.elfs, h.agree.trans h'.agree⟩

/-- A call does not change the task of the process. -/
theorem CallFrame.task {k k' : Kernel} {process : Addr} {rs : List (Addr × ℕ)}
    (h : CallFrame k k' process rs) : (k'.procs process).task = (k.procs process).task := by
  obtain ⟨_, hrec⟩ := h.record
  rw [hrec]

/-- A call does not change the page directory of the process. -/
theorem CallFrame.dir {k k' : Kernel} {process : Addr} {rs : List (Addr × ℕ)}
    (h : CallFrame k k' process rs) :
    (k'.sched.tasks (k'.procs process).task).page_directory =
      (k.sched.tasks (k.procs process).task).page_directory := by
  rw [h.sched, h.task]

/-- A change of memory that leaves the runs alone is a call. -/
theorem OnlyMemory.callFrame {k k' : Kernel} (h : OnlyMemory k k') (process : Addr)
    {rs : List (Addr × ℕ)} (hagree : AgreeOnRuns k.mem k'.mem rs) :
    CallFrame k k' process rs :=
  ⟨h.sched, fun _ _ => by rw [h.procs], ⟨_, by rw [h.procs]⟩, h.elfs, hagree⟩

/-- A process stays confined when another one makes a call. -/
theorem Confined.frame {k k' : Kernel} {process : Addr} {rs : List (Addr × ℕ)} {g : ProcFoot}
    (h : Confined k g) (hframe : CallFrame k k' process rs) (hne : g.process ≠ process)
    (hrs : ∀ r ∈ chunkRuns g.chunk g.shape, r ∈ rs) : Confined k' g := by
  obtain ⟨pm, hat, hw⟩ := h.map
  refine ⟨?_, pm, hat.of_agree (hframe.agree.subset hrs), ?_⟩
  · rw [hframe.sched, hframe.others _ hne]
    exact h.dir
  · rw [hframe.others _ hne]
    exact hw

/-- Mapping pages of a process changes memory in the tables of its chunk only. -/
theorem processMapTo_some {k k' : Kernel} {f : ProcFoot} {virt phys phys_end : Addr}
    {flags : BitVec 32} {res : ℤ} (h : processMapTo f.process virt phys phys_end flags k =
      some (res, k')) (hdir : (k.sched.tasks (k.procs f.process).task).page_directory = f.chunk)
    {pm : ℕ → BitVec 32} (hat : ChunkAt k.mem f.chunk f.shape pm) {rs : List (Addr × ℕ)}
    (ho : HeapOwns k.heap (chunkRuns f.chunk f.shape ++ rs)) :
    ∃ mem, k' = { k with mem := mem } ∧ AgreeOnRuns k.mem mem rs ∧
      ((res < 0 ∧ ¬ MapToValid virt phys phys_end ∧ mem = k.mem) ∨
        (res = 0 ∧ MapToValid virt phys phys_end ∧ ChunkAt mem f.chunk f.shape
          (mapPages pm (pageOf virt) phys ((phys_end - phys).toNat / 4096) flags))) := by
  unfold processMapTo at h
  obtain ⟨_, k₁, hg, h₁⟩ := prog_bind.mp h
  obtain ⟨rfl, rfl⟩ := prog_get.mp hg
  obtain ⟨_, k₂, hd, h₂⟩ := prog_bind.mp h₁
  obtain ⟨-, rfl⟩ := deref_some hd
  rw [hdir] at h₂
  by_cases hval : MapToValid virt phys phys_end
  · obtain ⟨mem, hcode, hat', hframe⟩ := pagingMapTo_valid hat hval flags
    rw [hcode] at h₂
    obtain ⟨_, k₃, hs, h₃⟩ := prog_bind.mp h₂
    cases hs
    obtain ⟨rfl, rfl⟩ := prog_pure.mp h₃
    refine ⟨mem, rfl, ?_, .inr ⟨rfl, hval, hat'⟩⟩
    intro r hr q hq
    refine hframe q fun i hi heq => ?_
    have hmem : (f.shape.tables i, 1) ∈ chunkRuns f.chunk f.shape :=
      List.mem_append_left _ (List.mem_map.mpr ⟨i, List.mem_range.mpr hi, rfl⟩)
    have hap := (List.pairwise_append.mp ho.apart).2.2 _ hmem r hr q
    exact hap ⟨heq.ge, by rw [heq]; simp⟩ hq
  · rw [pagingMapTo_invalid hval] at h₂
    obtain ⟨_, k₃, hs, h₃⟩ := prog_bind.mp h₂
    cases hs
    obtain ⟨rfl, rfl⟩ := prog_pure.mp h₃
    exact ⟨k₂.mem, rfl, fun _ _ _ _ _ _ => rfl, .inl ⟨by decide, hval, rfl⟩⟩

/-- Clearing the slots of one of the allocations takes that allocation out and no other. -/
theorem HeapOwns.unjoin_perm {h : Heap} {p : Process} {os rs : List (Addr × ℕ)}
    (ho : HeapOwns h (os ++ (allocRuns p ++ rs))) {i : ℕ} (hi : i < 1024)
    (hne : (p.allocations i).ptr ≠ 0#32) :
    (allocRuns p).Perm (((p.allocations i).ptr, blocksFor (p.allocations i).size) ::
      allocRuns (processAllocationUnjoin p (p.allocations i).ptr)) := by
  have hnd := ho.nodup
  rw [List.map_append, List.map_append] at hnd
  have hown := (List.nodup_append.mp (List.nodup_append.mp hnd).2.1).1
  exact allocRuns_unjoin hi hne fun j hj hji heq => hji (slot_unique hown hi hj hne heq)

/-- A request of some bytes, or one of none while the last block of the heap is taken. -/
def RequestSafe (h : Heap) (size : BitVec 32) : Prop :=
  1 ≤ size.toNat ∨ LastTaken h.table.entries h.table.total

/-- A safe request is refused, or becomes an allocation. -/
theorem HeapOwns.kzalloc_safe {h h' : Heap} {rs : List (Addr × ℕ)} (ho : HeapOwns h rs)
    {size : BitVec 32} (hsize : RequestSafe h size) {p : Addr}
    (hz : h.kzalloc size = some (p, h')) :
    (p = 0#32 ∧ h' = h) ∨ (p ≠ 0#32 ∧ HeapOwns h' ((p, blocksFor size) :: rs)) := by
  by_cases hpos : 1 ≤ size.toNat
  · rcases ho.kzalloc hpos hz with ⟨h1, h2, -⟩ | hown
    · exact .inl ⟨h1, h2⟩
    · exact .inr hown
  · have hlast := hsize.resolve_left hpos
    have hzero : heapTotalBlocks size = 0 := by
      rw [heapTotalBlocks_eq]
      unfold blocksFor
      split <;> omega
    have hout := heapMalloc_spec h size
    unfold Heap.kzalloc at hz
    generalize heapMalloc h size = r at hout hz
    cases hout with
    | found b h₁ hn => exact absurd hn (by omega)
    | tail b h₁ hin hfree =>
      -- the blocks behind `b` would all be free, and the last one is not
      exfalso
      rcases hlast with h0 | hlast
      · omega
      · have := hfree (h.table.total - 1 - b) (by omega)
        rw [show b + (h.table.total - 1 - b) = h.table.total - 1 from by omega] at this
        exact hlast this
    | fail hno _ =>
      dsimp only at hz
      rw [if_pos rfl] at hz
      cases hz
      exact .inl ⟨rfl, rfl⟩

/-- **`process_malloc`**, for a safe request: it is refused and the process has what it had, or
the process has one allocation more and its pages are mapped to themselves. What it had before is
left alone either way. -/
theorem processMalloc_cases {k k' : Kernel} {f : ProcFoot} {size : BitVec 32} {ptr : Addr}
    (h : processMalloc f.process size k = some (ptr, k')) {rs : List (Addr × ℕ)}
    (ho : HeapOwns k.heap (f.runs k ++ rs))
    (hdir : (k.sched.tasks (k.procs f.process).task).page_directory = f.chunk)
    {pm : ℕ → BitVec 32} (hat : ChunkAt k.mem f.chunk f.shape pm)
    (hsize : RequestSafe k.heap size) :
    CallFrame k k' f.process (allocRuns (k.procs f.process) ++ rs) ∧
      ((ptr = 0#32 ∧ HeapOwns k'.heap (f.runs k ++ rs) ∧ k'.procs = k.procs ∧
          ChunkAt k'.mem f.chunk f.shape pm) ∨
        (ptr ≠ 0#32 ∧ HeapOwns k'.heap ((ptr, blocksFor size) :: (f.runs k ++ rs)) ∧
          (allocRuns (k'.procs f.process)).Perm
            ((ptr, blocksFor size) :: allocRuns (k.procs f.process)) ∧
          ChunkAt k'.mem f.chunk f.shape
            (mapPages pm (pageOf ptr) ptr (blocksFor size) processMallocFlags))) := by
  unfold processMalloc at h
  obtain ⟨p, k₁, hz, h₁⟩ := prog_bind.mp h
  obtain ⟨hheap, hmem, -, honly⟩ := kzalloc_some hz
  rcases ho.kzalloc_safe hsize hheap with ⟨rfl, hsame⟩ | ⟨hp, ho₁⟩
  · rw [if_pos rfl] at h₁ hmem
    obtain ⟨rfl, rfl⟩ := prog_pure.mp h₁
    refine ⟨honly.callFrame _ ?_, .inl ⟨rfl, hsame.symm ▸ ho, honly.procs, hmem.symm ▸ hat⟩⟩
    rw [hmem]
    exact fun _ _ _ _ _ _ => rfl
  · rw [if_neg hp] at h₁
    have hagree : AgreeOnRuns k.mem k₁.mem (f.runs k ++ rs) := agreeOnRuns_kzalloc hz ho₁
    unfold ProcFoot.runs at hagree
    rw [List.append_assoc] at hagree
    have hat₁ : ChunkAt k₁.mem f.chunk f.shape pm :=
      hat.of_agree (hagree.subset fun r hr => List.mem_append_left _ hr)
    have hframe₁ : CallFrame k k₁ f.process (allocRuns (k.procs f.process) ++ rs) :=
      honly.callFrame _ (hagree.subset fun r hr => List.mem_append_right _ hr)
    obtain ⟨_, k₂, hd, h₂⟩ := prog_bind.mp h₁
    obtain ⟨-, rfl⟩ := deref_some hd
    obtain ⟨_, k₃, hg, h₃⟩ := prog_bind.mp h₂
    obtain ⟨rfl, rfl⟩ := prog_get.mp hg
    by_cases hindex : processFindFreeAllocationIndex (k₂.procs f.process) < 0
    · -- giving the block back leaves what was there before
      rw [if_pos hindex] at h₃
      obtain ⟨_, k₄, hk, h₄⟩ := prog_bind.mp h₃
      cases hk
      obtain ⟨rfl, rfl⟩ := prog_pure.mp h₄
      exact ⟨⟨hframe₁.sched, hframe₁.others, hframe₁.record, hframe₁.elfs, hframe₁.agree⟩,
        .inl ⟨rfl, ho₁.kfree, honly.procs, hat₁⟩⟩
    · rw [if_neg hindex] at h₃
      obtain ⟨i, hi, hieq, hifree⟩ := processFindFreeAllocationIndex_spec hindex
      rw [hieq, Int.toNat_natCast] at h₃
      obtain ⟨res, k₄, hmap, h₄⟩ := prog_bind.mp h₃
      have ho₂ : HeapOwns k₂.heap (chunkRuns f.chunk f.shape ++
          ((p, blocksFor size) :: (allocRuns (k.procs f.process) ++ rs))) := by
        refine ho₁.perm ?_
        unfold ProcFoot.runs
        rw [List.append_assoc]
        exact List.perm_middle.symm
      have halign : PageAligned p := ho₁.aligned _ List.mem_cons_self
      have hin : pageOf p + blocksFor size ≤ 29696 := (ho₁.inside List.mem_cons_self).2
      have hlast : pageOf p + blocksFor size < 2 ^ 20 := by omega
      obtain ⟨hval, hcount⟩ := pagingAlignAddress_end halign hlast
      obtain ⟨mem, rfl, hagree₂, ⟨hneg, hbad, -⟩ | ⟨rfl, -, hat₂⟩⟩ :=
        processMapTo_some hmap (hframe₁.dir.trans hdir) hat₁ ho₂
      · exact absurd hval hbad
      · rw [if_neg (by decide)] at h₄
        obtain ⟨_, k₅, hset, h₅⟩ := prog_bind.mp h₄
        cases hset
        obtain ⟨rfl, rfl⟩ := prog_pure.mp h₅
        rw [hcount] at hat₂
        have hrec := allocRuns_setAllocation (a := ⟨p, size⟩) hi hifree hp
        have hrs : AgreeOnRuns k₂.mem mem (allocRuns (k.procs f.process) ++ rs) :=
          hagree₂.subset fun r hr => List.mem_cons_of_mem _ hr
        refine ⟨⟨honly.sched, ?_, ?_, honly.elfs, hframe₁.agree.trans hrs⟩,
          .inr ⟨hp, ho₁, ?_, hat₂⟩⟩
        · intro q hq
          dsimp only
          rw [Function.update_of_ne hq, honly.procs]
        · dsimp only
          rw [Function.update_self, honly.procs]
          exact ⟨_, rfl⟩
        · dsimp only
          rw [Function.update_self, ← honly.procs]
          exact hrec

/-- **`process_malloc`**, for a safe request, keeps the heap the picture of the allocations; the
process gains the right to write what it was given. -/
theorem processMalloc_owns {k k' : Kernel} {f : ProcFoot} {size : BitVec 32} {ptr : Addr}
    (h : processMalloc f.process size k = some (ptr, k')) {rs : List (Addr × ℕ)}
    (ho : HeapOwns k.heap (f.runs k ++ rs))
    (hdir : (k.sched.tasks (k.procs f.process).task).page_directory = f.chunk)
    {pm : ℕ → BitVec 32} (hat : ChunkAt k.mem f.chunk f.shape pm)
    (hsize : RequestSafe k.heap size) :
    HeapOwns k'.heap (f.runs k' ++ rs) ∧ CallFrame k k' f.process rs ∧
      ∃ pm', ChunkAt k'.mem f.chunk f.shape pm' ∧
        (WritesWithin pm (allocRuns (k.procs f.process)) →
          WritesWithin pm' (allocRuns (k'.procs f.process))) := by
  obtain ⟨hframe, hcases⟩ := processMalloc_cases h ho hdir hat hsize
  have hframe' : CallFrame k k' f.process rs := ⟨hframe.sched, hframe.others, hframe.record,
    hframe.elfs, hframe.agree.subset fun r hr => List.mem_append_right _ hr⟩
  rcases hcases with ⟨-, hown, hprocs, hat'⟩ | ⟨-, hown, hperm, hat'⟩
  · refine ⟨?_, hframe', pm, hat', ?_⟩
    · unfold ProcFoot.runs at hown ⊢
      rw [hprocs]
      exact hown
    · rw [hprocs]
      exact id
  · refine ⟨?_, hframe', _, hat', ?_⟩
    · refine hown.perm ?_
      unfold ProcFoot.runs
      rw [List.append_assoc, List.append_assoc]
      refine List.perm_middle.symm.trans (List.Perm.append_left _ ?_)
      rw [← List.cons_append]
      exact List.Perm.append_right _ hperm.symm
    · intro hw
      have hlast : pageOf ptr + blocksFor size < 2 ^ 20 :=
        lt_of_le_of_lt (hown.inside List.mem_cons_self).2 (by norm_num)
      refine (writesWithin_map (hown.aligned _ List.mem_cons_self) hlast hw).subset
        fun r hr => ?_
      exact hperm.mem_iff.mpr hr

/-- **`process_free`**, of any pointer, keeps the heap the picture of the allocations; the process
loses the right to write what it gave back. -/
theorem processFree_owns {k k' : Kernel} {f : ProcFoot} {ptr : Addr} {u : Unit}
    (h : processFree f.process ptr k = some (u, k')) {rs : List (Addr × ℕ)}
    (ho : HeapOwns k.heap (f.runs k ++ rs))
    (hdir : (k.sched.tasks (k.procs f.process).task).page_directory = f.chunk)
    {pm : ℕ → BitVec 32} (hat : ChunkAt k.mem f.chunk f.shape pm) :
    HeapOwns k'.heap (f.runs k' ++ rs) ∧ CallFrame k k' f.process rs ∧
      ∃ pm', ChunkAt k'.mem f.chunk f.shape pm' ∧
        (WritesWithin pm (allocRuns (k.procs f.process)) →
          WritesWithin pm' (allocRuns (k'.procs f.process))) := by
  unfold processFree at h
  obtain ⟨_, k₁, hd, h₁⟩ := prog_bind.mp h
  obtain ⟨-, rfl⟩ := deref_some hd
  obtain ⟨_, k₂, hg, h₂⟩ := prog_bind.mp h₁
  obtain ⟨rfl, rfl⟩ := prog_get.mp hg
  have hstay : HeapOwns k₁.heap (f.runs k₁ ++ rs) ∧ CallFrame k₁ k₁ f.process rs ∧
      ∃ pm', ChunkAt k₁.mem f.chunk f.shape pm' ∧
        (WritesWithin pm (allocRuns (k₁.procs f.process)) →
          WritesWithin pm' (allocRuns (k₁.procs f.process))) :=
    ⟨ho, .refl _ _ _, pm, hat, id⟩
  cases hlook : processGetAllocationByAddr (k₁.procs f.process) ptr with
  | none =>
    rw [hlook] at h₂
    obtain ⟨-, rfl⟩ := prog_pure.mp h₂
    exact hstay
  | some a =>
    rw [hlook] at h₂
    obtain ⟨i, hi, rfl, hptr⟩ := processGetAllocationByAddr_some hlook
    dsimp only at h₂
    obtain ⟨res, k₃, hmap, h₃⟩ := prog_bind.mp h₂
    have ho₁ : HeapOwns k₁.heap (chunkRuns f.chunk f.shape ++
        (allocRuns (k₁.procs f.process) ++ rs)) := by
      rw [← List.append_assoc]
      exact ho
    obtain ⟨mem, rfl, hagree, hcase⟩ := processMapTo_some hmap hdir hat ho₁
    have hrs : AgreeOnRuns k₁.mem mem rs := hagree.subset fun r hr => List.mem_append_right _ hr
    rcases hcase with ⟨hneg, -, rfl⟩ | ⟨rfl, hval, hat'⟩
    · rw [if_pos hneg] at h₃
      obtain ⟨-, rfl⟩ := prog_pure.mp h₃
      exact hstay
    · rw [if_neg (by decide)] at h₃
      obtain ⟨_, k₄, hset, h₄⟩ := prog_bind.mp h₃
      cases hset
      cases h₄
      have halign : PageAligned ((k₁.procs f.process).allocations i).ptr := hval.1
      have hrest : allocRuns (processAllocationUnjoin (k₁.procs f.process) ptr) =
          allocRuns (k₁.procs f.process) ∧ ptr = 0#32 ∨
        ptr ≠ 0#32 ∧ (allocRuns (k₁.procs f.process)).Perm
          ((ptr, blocksFor ((k₁.procs f.process).allocations i).size) ::
            allocRuns (processAllocationUnjoin (k₁.procs f.process) ptr)) := by
        by_cases hnull : ptr = 0#32
        · subst hnull
          exact .inl ⟨allocRuns_unjoin_null _, rfl⟩
        · rw [← hptr] at hnull ⊢
          exact .inr ⟨hnull, ho₁.unjoin_perm hi hnull⟩
      refine ⟨?_, ⟨rfl, fun q hq => Function.update_of_ne hq _ _, ?_, rfl, hrs⟩, _, hat', ?_⟩
      · show HeapOwns (heapFree k₁.heap ptr) _
        unfold ProcFoot.runs
        dsimp only
        rw [Function.update_self, List.append_assoc]
        rcases hrest with ⟨hsame, rfl⟩ | ⟨hnull, hperm⟩
        · rw [hsame]
          exact ho₁.kfree_null
        · refine HeapOwns.kfree (n := blocksFor ((k₁.procs f.process).allocations i).size) ?_
          exact ho₁.perm ((List.Perm.append_left _ (hperm.append_right _)).trans List.perm_middle)
      · dsimp only
        rw [Function.update_self]
        exact ⟨_, rfl⟩
      · intro hw
        dsimp only
        rw [Function.update_self]
        intro v hv hwv
        obtain ⟨hout, hsame⟩ := not_userWritable_unmap halign hv hwv
        rw [hsame] at hwv ⊢
        obtain ⟨hpage, r, hr, hin⟩ := hw v hv hwv
        refine ⟨hpage, r, ?_, hin⟩
        rcases hrest with ⟨hsame', -⟩ | ⟨hnull, hperm⟩
        · rw [hsame']
          exact hr
        · rcases List.mem_cons.mp (hperm.mem_iff.mp hr) with rfl | hr'
          · -- the page was given back, so it was unmapped
            exfalso
            rw [← hptr] at hnull hin
            have hins := (ho₁.inside (List.mem_append_right _ (List.mem_append_left _
              (mem_allocRuns hi hnull)))).2
            have hlast : pageOf ((k₁.procs f.process).allocations i).ptr +
                blocksFor ((k₁.procs f.process).allocations i).size < 2 ^ 20 :=
              lt_of_le_of_lt hins (by norm_num)
            rw [(pagingAlignAddress_end halign hlast).2] at hout
            exact hout ((pageDist_lt_iff_inRun hlast hv).mpr hin)
          · exact hr'

/-! ## Requests that are granted -/

/-- Mapping a range of a process writes to its own page tables. -/
theorem processMapTo_eq {k : Kernel} {f : ProcFoot}
    (hdir : (k.sched.tasks (k.procs f.process).task).page_directory = f.chunk)
    (htask : (k.procs f.process).task ≠ 0#32) {pm : ℕ → BitVec 32}
    (hat : ChunkAt k.mem f.chunk f.shape pm) {virt phys phys_end : Addr}
    (hval : MapToValid virt phys phys_end) (flags : BitVec 32) :
    ∃ mem, processMapTo f.process virt phys phys_end flags k = some (0, { k with mem := mem }) ∧
      ChunkAt mem f.chunk f.shape
        (mapPages pm (pageOf virt) phys ((phys_end - phys).toNat / 4096) flags) := by
  obtain ⟨mem, hcode, hat', -⟩ := pagingMapTo_valid hat hval flags
  refine ⟨mem, ?_, hat'⟩
  unfold processMapTo
  refine prog_bind.mpr ⟨_, _, rfl, ?_⟩
  refine prog_bind.mpr ⟨_, _, deref_of_ne htask k, ?_⟩
  rw [hdir, hcode]
  exact prog_bind.mpr ⟨_, _, rfl, rfl⟩

/-- An empty range is mapped without a change. -/
theorem processMapTo_empty {k : Kernel} {process : Addr}
    (htask : (k.procs process).task ≠ 0#32) {ptr : Addr} (ha : PageAligned ptr)
    (flags : BitVec 32) :
    processMapTo process ptr ptr (pagingAlignAddress (ptr + 0#32)) flags k = some (0, k) := by
  unfold PageAligned at ha
  have hend : pagingAlignAddress (ptr + 0#32) = ptr := by
    unfold pagingAlignAddress
    simp [pagingPageSize, ha]
  have hcode : ∀ chunk, pagingMapTo k.mem chunk ptr ptr ptr flags = (0, k.mem) := by
    intro chunk
    unfold pagingMapTo
    simp [pagingPageSize, ha, pagingMapRange]
  unfold processMapTo
  refine prog_bind.mpr ⟨_, _, rfl, ?_⟩
  refine prog_bind.mpr ⟨_, _, deref_of_ne htask k, ?_⟩
  rw [hend, hcode]
  exact prog_bind.mpr ⟨_, _, rfl, rfl⟩

theorem processFindFreeAllocationIndex_empty {p : Process}
    (h : ∀ i < 1024, (p.allocations i).ptr = 0#32) : processFindFreeAllocationIndex p = 0 := by
  unfold processFindFreeAllocationIndex
  rw [show List.range maerosMaxProgramAllocations = 0 :: (List.range 1023).map Nat.succ from
    List.range_succ_eq_map, List.find?_cons_of_pos (by simp [h 0 (by omega)])]
  rfl

/-- The first slot is looked at first. -/
theorem processGetAllocationByAddr_first {p : Process} {addr : Addr}
    (h : (p.allocations 0).ptr = addr) :
    processGetAllocationByAddr p addr = some (p.allocations 0) := by
  unfold processGetAllocationByAddr
  rw [show List.range maerosMaxProgramAllocations = 0 :: (List.range 1023).map Nat.succ from
    List.range_succ_eq_map, List.find?_cons_of_pos (by simp [h])]
  rfl

/-- **A granted request** is recorded in the first slot that is not in use. -/
theorem processMalloc_slot {k k₁ : Kernel} {process : Addr} {size : BitVec 32} {p : Addr}
    {mem : Memory} {i : ℕ} (hz : Model.kzalloc size k = some (p, k₁)) (hp : p ≠ 0#32)
    (hproc : process ≠ 0#32) (hindex : processFindFreeAllocationIndex (k₁.procs process) = i)
    (hmap : processMapTo process p p (pagingAlignAddress (p + size)) processMallocFlags k₁ =
      some (0, { k₁ with mem := mem })) :
    processMalloc process size k = some (p, { k₁ with
      mem := mem
      procs := Function.update k₁.procs process
        ((k₁.procs process).setAllocation i ⟨p, size⟩) }) := by
  unfold processMalloc
  refine prog_bind.mpr ⟨_, _, hz, ?_⟩
  rw [if_neg hp]
  refine prog_bind.mpr ⟨_, _, deref_of_ne hproc k₁, ?_⟩
  refine prog_bind.mpr ⟨_, _, rfl, ?_⟩
  rw [hindex, if_neg (by omega)]
  refine prog_bind.mpr ⟨_, _, hmap, ?_⟩
  rw [if_neg (by decide), Int.toNat_natCast]
  exact prog_bind.mpr ⟨_, _, rfl, rfl⟩

/-- **One page** for a process without allocations, on a packed heap: it can write that page. -/
theorem Packed.processMalloc_page {k : Kernel} {n : ℕ} (hpk : Packed k.heap n) (hn : n < 25600)
    {f : ProcFoot} {os : List (Addr × ℕ)}
    (ho : HeapOwns k.heap (chunkRuns f.chunk f.shape ++ os))
    (hdir : (k.sched.tasks (k.procs f.process).task).page_directory = f.chunk)
    {pm : ℕ → BitVec 32} (hat : ChunkAt k.mem f.chunk f.shape pm)
    (htask : (k.procs f.process).task ≠ 0#32) (hproc : f.process ≠ 0#32)
    (hempty : ∀ i < 1024, ((k.procs f.process).allocations i).ptr = 0#32) :
    ∃ heap mem kallocs, processMalloc f.process 4096#32 k = some (blockAddr n, { k with
        heap := heap
        mem := mem
        kallocs := kallocs
        procs := Function.update k.procs f.process
          ((k.procs f.process).setAllocation 0 ⟨blockAddr n, 4096#32⟩) }) ∧
      HeapOwns heap ((blockAddr n, 1) :: (chunkRuns f.chunk f.shape ++ os)) ∧
      ∃ pm', ChunkAt mem f.chunk f.shape pm' ∧ UserWritable (pm' (4096 + n)) ∧
        pageOf (pm' (4096 + n)) = 4096 + n := by
  obtain ⟨h', hz, -⟩ := hpk.kzalloc 4096#32 (by decide)
    (by rw [show blocksFor 4096#32 = 1 from rfl]; omega)
  have hne : blockAddr n ≠ 0#32 := blockAddr_ne_zero hn
  have hkz : Model.kzalloc 4096#32 k = some (blockAddr n, { k with
      heap := h'
      mem := zeroFill k.mem (blockAddr n) 4096
      kallocs := blockAddr n :: k.kallocs }) := by
    unfold Model.kzalloc
    rw [hz]
    dsimp only
    rw [if_neg hne]
    rfl
  obtain ⟨-, ho₁⟩ := (ho.kzalloc (by decide) hz).resolve_left fun h => hne h.1
  have hat₁ := hat.of_agree ((agreeOnRuns_kzalloc hkz ho₁).subset
    fun r hr => List.mem_append_left _ hr)
  have ha : PageAligned (blockAddr n) := pageAligned_blockAddr hn
  obtain ⟨hval, hcount⟩ := @pagingAlignAddress_end _ ha 4096#32
    (by rw [pageOf_blockAddr hn, show blocksFor 4096#32 = 1 from rfl]; omega)
  obtain ⟨mem, hmap, hat₂⟩ := processMapTo_eq
    (k := { k with
      heap := h'
      mem := zeroFill k.mem (blockAddr n) 4096
      kallocs := blockAddr n :: k.kallocs }) hdir htask hat₁ hval processMallocFlags
  have hcode := processMalloc_slot hkz hne hproc (processFindFreeAllocationIndex_empty hempty) hmap
  refine ⟨h', mem, blockAddr n :: k.kallocs, hcode, ho₁, _, hat₂, ?_⟩
  rw [hcount, show blocksFor 4096#32 = 1 from rfl, pageOf_blockAddr hn]
  have hd : pageDist (4096 + n) (4096 + n) = 0 := by
    unfold pageDist
    omega
  unfold mapPages
  rw [if_pos (by omega), hd, Nat.mul_zero, BitVec.add_zero, userWritable_or ha (by decide)]
  refine ⟨by decide, ?_⟩
  have hentry := or_flags_toNat ha (f := processMallocFlags) (by decide)
  have hpage := pageOf_blockAddr hn
  rw [show processMallocFlags.toNat = 7 from rfl] at hentry
  unfold PageAligned at ha
  unfold pageOf at hpage ⊢
  rw [hentry]
  omega

/-- **A request of no bytes** on a packed heap is granted the first free block, which stays
free. -/
theorem Packed.kzalloc_zero {k : Kernel} {s : ℕ} (hpk : Packed k.heap s) (hs : s < 25600)
    {rs : List (Addr × ℕ)} (ho : HeapOwns k.heap rs) :
    ∃ heap, Model.kzalloc 0#32 k = some (blockAddr s, { k with
        heap := heap
        kallocs := blockAddr s :: k.kallocs }) ∧ Packed heap s ∧ HeapOwns heap rs := by
  have hzero : heapTotalBlocks 0#32 = 0 := by decide
  have hout := heapMalloc_spec k.heap 0#32
  have hfill : zeroFill k.mem (blockAddr s) (0#32).toNat = k.mem := by
    funext a
    unfold zeroFill
    simp
  have hkz : ∀ {r : Addr × Heap}, heapMalloc k.heap 0#32 = r → r.1 = blockAddr s →
      Model.kzalloc 0#32 k = some (blockAddr s, { k with
        heap := r.2
        kallocs := blockAddr s :: k.kallocs }) := by
    rintro ⟨p, heap⟩ hr rfl
    have hne : blockAddr s ≠ 0#32 := blockAddr_ne_zero hs
    have hzero : blocksFor 0#32 = 0 := by decide
    have harena : k.heap.InArena (blockAddr s) 0#32 :=
      (inArena_blockAddr_iff hpk.saddr hpk.total hs 0#32).mpr (by omega)
    unfold Model.kzalloc Heap.kzalloc
    rw [hr]
    dsimp only
    rw [if_neg hne, if_pos harena]
    dsimp only
    rw [if_neg hne, hfill]
  generalize hr : heapMalloc k.heap 0#32 = r at hout hkz
  cases hout with
  | found b h₁ hn => exact absurd hn (by omega)
  | tail b h₁ hin hfree hbefore hno hrw =>
    rw [hpk.total] at hin hfree
    obtain rfl : b = s := by
      rcases lt_trichotomy b s with hlt | rfl | hgt
      · exact absurd (hfree 0 (by omega)) (hpk.taken b hlt)
      · rfl
      · rcases hbefore with rfl | hb
        · omega
        · exact absurd (hpk.free (b - 1) (by omega) (by omega)) hb
    have hsame : h₁.table.entries = k.heap.table.entries := by
      rw [hrw.entries, hzero]
      funext i
      exact fill_outside (by omega)
    refine ⟨h₁, hkz rfl (heapBlockToAddress_packed hpk.saddr b), ?_, ?_⟩
    · exact ⟨hrw.saddr.trans hpk.saddr, hrw.total.trans hpk.total, by rw [hsame]; exact hpk.taken,
        by rw [hsame]; exact hpk.free⟩
    · refine ⟨hrw.saddr.trans ho.saddr, hrw.total.trans ho.total, by rw [hsame]; exact ho.below,
        ?_, ho.aligned, ho.above⟩
      unfold HeapLayout
      rw [hrw.total, hsame]
      exact ho.layout
  | fail hno hlast =>
    exfalso
    rcases hlast with h0 | hlast
    · rw [hpk.total] at h0
      omega
    · rw [hpk.total] at hlast
      exact hlast (hpk.free 25599 (by omega) (by omega))

/-- **`process_malloc` of no bytes**, for a process without allocations on a packed heap: the
address of the first free block is recorded. -/
theorem Packed.processMalloc_nothing {k : Kernel} {s : ℕ} (hpk : Packed k.heap s) (hs : s < 25600)
    {rs : List (Addr × ℕ)} (ho : HeapOwns k.heap rs) {process : Addr} (hproc : process ≠ 0#32)
    (htask : (k.procs process).task ≠ 0#32)
    (hempty : ∀ i < 1024, ((k.procs process).allocations i).ptr = 0#32) :
    ∃ k', processMalloc process 0#32 k = some (blockAddr s, k') ∧ Packed k'.heap s ∧
      HeapOwns k'.heap rs ∧ k'.mem = k.mem ∧ k'.sched = k.sched ∧ k'.procs =
        Function.update k.procs process
          ((k.procs process).setAllocation 0 ⟨blockAddr s, 0#32⟩) := by
  obtain ⟨heap, hz, hpk', ho'⟩ := hpk.kzalloc_zero hs ho
  have hmap := processMapTo_empty (k := { k with
    heap := heap
    kallocs := blockAddr s :: k.kallocs }) htask (pageAligned_blockAddr hs) processMallocFlags
  exact ⟨_, processMalloc_slot hz (blockAddr_ne_zero hs) hproc
    (processFindFreeAllocationIndex_empty hempty) hmap, hpk', ho', rfl, rfl,
    rfl⟩

/-- **`process_free` of no bytes** in the first slot still frees the block at the address. -/
theorem processFree_nothing {k : Kernel} {process p : Addr} (hproc : process ≠ 0#32)
    (htask : (k.procs process).task ≠ 0#32) (ha : PageAligned p)
    (hslot : (k.procs process).allocations 0 = ⟨p, 0#32⟩) :
    processFree process p k = some ((), { k with
      heap := heapFree k.heap p
      kfrees := p :: k.kfrees
      procs := Function.update k.procs process
        (processAllocationUnjoin (k.procs process) p) }) := by
  unfold processFree
  refine prog_bind.mpr ⟨_, _, deref_of_ne hproc k, ?_⟩
  refine prog_bind.mpr ⟨_, _, rfl, ?_⟩
  rw [processGetAllocationByAddr_first (by rw [hslot]), hslot]
  dsimp only
  refine prog_bind.mpr ⟨_, _, processMapTo_empty htask ha 0#32, ?_⟩
  rw [if_neg (by decide)]
  exact prog_bind.mpr ⟨_, _, rfl, rfl⟩

end MaerOS.Analysis
