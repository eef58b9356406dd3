import MaerOS.Analysis.Isolation
import MaerOS.Analysis.PagingBalance
import Mathlib.Order.Interval.Finset.Nat

/-!
# The pages of an allocation

The heap counts the blocks of a request from its size, `process_malloc` and
`process_free` count the pages from the end address of what they were given. On an
arena that starts at a page boundary and stays below the end of the address space
the two counts are the same, so a run of blocks reserved in the table and a run of
pages set in the directory are the same run, and a release undoes both.
-/

set_option autoImplicit false

namespace MaerOS.Analysis

open MaerOS.Lib MaerOS.Model

/-! ## The arena -/

/-- The table of the heap is the picture of `runs`. The arena starts at a page boundary behind the
null page, has less than two gigabytes and ends before the last page of the address space. -/
structure ArenaGood (h : Heap) (runs : List (ℕ × ℕ)) : Prop where
  layout : HeapLayout h runs
  aligned : PageAligned h.saddr
  ne_zero : h.saddr ≠ 0#32
  small : h.table.total * 4096 < 2 ^ 31
  ends : h.saddr.toNat + 4096 * h.table.total < 2 ^ 32

/-- The runs of the table as addresses with their numbers of blocks. -/
def arenaRuns (h : Heap) (runs : List (ℕ × ℕ)) : List (Addr × ℕ) :=
  runs.map fun r => (runAddress h r.1, r.2)

section Arena

variable {h : Heap} {runs : List (ℕ × ℕ)} {s n : ℕ}

theorem ArenaGood.address_toNat (ha : ArenaGood h runs) (hs : s ≤ h.table.total) :
    (runAddress h s).toNat = h.saddr.toNat + 4096 * s := by
  have hends := ha.ends
  unfold runAddress
  rw [BitVec.toNat_add, BitVec.toNat_ofNat]
  omega

theorem ArenaGood.address_aligned (ha : ArenaGood h runs) (hs : s ≤ h.table.total) :
    PageAligned (runAddress h s) := by
  have hal := ha.aligned
  unfold PageAligned at hal ⊢
  rw [ha.address_toNat hs]
  omega

theorem ArenaGood.address_ne_zero (ha : ArenaGood h runs) (hs : s ≤ h.table.total) :
    runAddress h s ≠ 0#32 := by
  intro heq
  have hto := congrArg BitVec.toNat heq
  rw [ha.address_toNat hs] at hto
  refine ha.ne_zero (BitVec.eq_of_toNat_eq ?_)
  simp at hto ⊢
  omega

theorem ArenaGood.pageOf_address (ha : ArenaGood h runs) (hs : s ≤ h.table.total) :
    pageOf (runAddress h s) = pageOf h.saddr + s := by
  have hal := ha.aligned
  unfold PageAligned at hal
  unfold pageOf
  rw [ha.address_toNat hs]
  omega

/-- The pages of a run in the arena come before the last page. -/
theorem ArenaGood.pageOf_end (ha : ArenaGood h runs) (hin : s + n ≤ h.table.total) :
    pageOf (runAddress h s) + n < 2 ^ 20 := by
  have hends := ha.ends
  rw [ha.pageOf_address (by omega)]
  unfold pageOf
  omega

/-- Runs of blocks apart are runs of pages apart. -/
theorem ArenaGood.apart_pages (ha : ArenaGood h runs) (hin : s + n ≤ h.table.total)
    (hap : ∀ r ∈ runs, Apart (s, n) r) {r : Addr × ℕ} (hr : r ∈ arenaRuns h runs) {q : ℕ}
    (hq : InRun r q) : ¬ InRun (runAddress h s, n) q := by
  obtain ⟨r', hr', rfl⟩ := List.mem_map.mp hr
  have hin' := ha.layout.inside r' hr'
  have hr₁ := hap r' hr'
  unfold InRun at hq ⊢
  unfold Apart at hr₁
  dsimp only at hq hr₁ ⊢
  rw [ha.pageOf_address (by omega)] at hq ⊢
  omega

/-- Runs of blocks apart have different addresses. -/
theorem ArenaGood.address_ne (ha : ArenaGood h runs) (hn : 1 ≤ n) (hin : s + n ≤ h.table.total)
    (hap : ∀ r ∈ runs, Apart (s, n) r) {r : Addr × ℕ} (hr : r ∈ arenaRuns h runs) :
    r.1 ≠ runAddress h s := by
  intro heq
  obtain ⟨r', hr', rfl⟩ := List.mem_map.mp hr
  have hpos := ha.layout.pos r' hr'
  refine ha.apart_pages hin hap hr (q := pageOf (runAddress h s)) ⟨?_, ?_⟩ ⟨le_rfl, ?_⟩
  · rw [heq]
  · rw [heq]
    dsimp only
    omega
  · dsimp only
    omega

/-- What lies on a page of a live run does not lie in the bytes of a free one. -/
theorem ArenaGood.far (ha : ArenaGood h runs) {size : BitVec 32}
    (hin : s + blocksFor size ≤ h.table.total) (hap : ∀ r ∈ runs, Apart (s, blocksFor size) r)
    {r : Addr × ℕ} (hr : r ∈ arenaRuns h runs) {x : Addr} (hx : InRun r (pageOf x)) :
    size.toNat ≤ (x - runAddress h s).toNat := by
  by_contra hlt
  refine ha.apart_pages hin hap hr hx ?_
  have hend := ha.pageOf_end hin
  have hal := ha.address_aligned (s := s) (by omega)
  have hto : x.toNat = (runAddress h s).toNat + (x - runAddress h s).toNat := by
    have := x.isLt
    have := (runAddress h s).isLt
    unfold blocksFor pageOf at hend
    rw [BitVec.toNat_sub] at hlt ⊢
    omega
  unfold PageAligned at hal
  unfold InRun blocksFor pageOf
  dsimp only
  omega

end Arena

/-! ## The heap under a request and its release -/

/-- A granted request of the kernel heap: the lowest free run, marked and filled with zeros. -/
theorem ArenaGood.kzalloc {k : Kernel} {runs : List (ℕ × ℕ)} (ha : ArenaGood k.heap runs)
    {size : BitVec 32} (hsize : 1 ≤ size.toNat)
    (hrun : HasFreeRun k.heap.table.entries k.heap.table.total (blocksFor size)) :
    ∃ s k₁, Model.kzalloc size k = some (runAddress k.heap s, k₁) ∧
      s + blocksFor size ≤ k.heap.table.total ∧
      FreeBlocks k.heap.table.entries s (blocksFor size) ∧
      Rewrites k.heap k₁.heap s (blocksFor size)
        (fill runEntry k.heap.table.entries s (blocksFor size)) ∧
      k₁.mem = zeroFill k.mem (runAddress k.heap s) size.toNat ∧ OnlyMemory k k₁ := by
  have hsmall := ha.small
  have hfits : blocksFor size ≤ k.heap.table.total := by
    obtain ⟨b, hb, -⟩ := hrun
    omega
  have hblocks : heapTotalBlocks size = blocksFor size := by
    rw [heapTotalBlocks_eq, if_pos]
    unfold blocksFor at hfits
    omega
  have hn := blocksFor_pos hsize
  have hout := heapMalloc_spec k.heap size
  generalize hcode : heapMalloc k.heap size = r at hout
  cases hout with
  | found s h' _ hin hfree _ hrw =>
    rw [hblocks] at hin hfree hrw
    have hne : heapBlockToAddress k.heap s ≠ 0#32 := by
      rw [heapBlockToAddress_eq]
      exact ha.address_ne_zero (by omega)
    have harena : k.heap.InArena (heapBlockToAddress k.heap s) size := by
      unfold Heap.InArena
      rw [heapBlockToAddress_eq, runAddress_sub _ (by omega)]
      simp only [maerosHeapBlockSize]
      unfold blocksFor at hin
      omega
    have hz : k.heap.kzalloc size = some (heapBlockToAddress k.heap s, h') := by
      unfold Heap.kzalloc
      rw [hcode]
      dsimp only
      rw [if_neg hne, if_pos harena]
    have hkz : Model.kzalloc size k = some (runAddress k.heap s, { k with
        heap := h'
        mem := zeroFill k.mem (runAddress k.heap s) size.toNat
        kallocs := runAddress k.heap s :: k.kallocs }) := by
      unfold Model.kzalloc
      rw [hz]
      dsimp only
      rw [if_neg hne, heapBlockToAddress_eq]
    exact ⟨s, _, hkz, hin, hfree, hrw, rfl, rfl, rfl, rfl, rfl, rfl, rfl⟩
  | tail _ _ _ _ _ hno _ =>
    rw [hblocks] at hno
    exact absurd hrun (hno hn)
  | fail hno _ =>
    rw [hblocks] at hno
    exact absurd hrun (hno hn)

section Reserved

variable {h h₁ : Heap} {runs : List (ℕ × ℕ)} {s n : ℕ}

/-- A free run lies apart from those that are taken. -/
theorem ArenaGood.apart_free (ha : ArenaGood h runs) (hn : 1 ≤ n) (hin : s + n ≤ h.table.total)
    (hfree : FreeBlocks h.table.entries s n) : ∀ r ∈ runs, Apart (s, n) r :=
  ha.layout.apart_of_freeRun runEntry_ne_free hn (freeRun_of_freeBlocks ha.layout hin hfree)

/-- A run that is reserved is one more run of the arena. -/
theorem ArenaGood.reserve (ha : ArenaGood h runs) (hn : 1 ≤ n) (hin : s + n ≤ h.table.total)
    (hfree : FreeBlocks h.table.entries s n)
    (hrw : Rewrites h h₁ s n (fill runEntry h.table.entries s n)) :
    ArenaGood h₁ ((s, n) :: runs) := by
  refine ⟨ha.layout.malloc hn hin hfree hrw, ?_, ?_, ?_, ?_⟩
  · rw [hrw.saddr]
    exact ha.aligned
  · rw [hrw.saddr]
    exact ha.ne_zero
  · rw [hrw.total]
    exact ha.small
  · rw [hrw.saddr, hrw.total]
    exact ha.ends

/-- **A run reserved and released** leaves the table as it was. -/
theorem ArenaGood.release_table (ha : ArenaGood h runs) (hn : 1 ≤ n)
    (hin : s + n ≤ h.table.total) (hfree : FreeBlocks h.table.entries s n)
    (hrw : Rewrites h h₁ s n (fill runEntry h.table.entries s n)) :
    (heapFree h₁ (runAddress h s)).table = h.table ∧
      (heapFree h₁ (runAddress h s)).saddr = h.saddr := by
  have hg := ha.reserve hn hin hfree hrw
  have haddr : runAddress h s = runAddress h₁ s := by
    unfold runAddress
    rw [hrw.saddr]
  have hsmall := ha.small
  have hlow := runAddress_sub h₁ (s := s) (by omega)
  have hblock : blockIndex h₁ (runAddress h₁ s) = s := by
    unfold blockIndex
    omega
  have hfreed := @heapFree_run h₁ ((s, n) :: runs) (runAddress h₁ s) n hg.layout
    (by rw [hblock]; exact List.mem_cons_self) (by omega)
  rw [hblock] at hfreed
  have hentries : (heapFree h₁ (runAddress h₁ s)).table.entries = h.table.entries := by
    rw [hfreed.entries, hrw.entries]
    exact clear_fill (freeRun_of_freeBlocks ha.layout hin hfree)
  rw [haddr]
  refine ⟨?_, hfreed.saddr.trans hrw.saddr⟩
  calc (heapFree h₁ (runAddress h₁ s)).table
      = ⟨(heapFree h₁ (runAddress h₁ s)).table.entries,
          (heapFree h₁ (runAddress h₁ s)).table.total⟩ := rfl
    _ = h.table := by rw [hentries, hfreed.total.trans hrw.total]

/-- Filling a free run with zeros leaves the other runs alone. -/
theorem ArenaGood.agree_zeroFill (ha : ArenaGood h runs) {size : BitVec 32}
    (hin : s + blocksFor size ≤ h.table.total) (hap : ∀ r ∈ runs, Apart (s, blocksFor size) r)
    (m : Memory) : AgreeOnRuns m (zeroFill m (runAddress h s) size.toNat) (arenaRuns h runs) := by
  intro r hr q hq
  refine agreeOnPage_zeroFill fun x hx heq => ?_
  have hfar := ha.far hin hap hr (x := x) (heq ▸ hq)
  omega

end Reserved

/-! ## The pages of a run -/

/-- `pm'` maps the pages of the run to themselves with `flags`, and the other pages as `pm`
does. -/
structure PagesSet (pm pm' : ℕ → BitVec 32) (r : Addr × ℕ) (flags : BitVec 32) : Prop where
  inside : ∀ v, InRun r v → pm' v = BitVec.ofNat 32 (4096 * v) ||| flags
  outside : ∀ v < 2 ^ 20, ¬ InRun r v → pm' v = pm v

/-- Mapping a run sets its pages and no others. -/
theorem pagesSet_mapPages {ptr : Addr} (halign : PageAligned ptr) {n : ℕ}
    (hlast : pageOf ptr + n < 2 ^ 20) (pm : ℕ → BitVec 32) (flags : BitVec 32) :
    PagesSet pm (mapPages pm (pageOf ptr) ptr n flags) (ptr, n) flags := by
  refine ⟨?_, ?_⟩
  · intro v hin
    have hv : v < 2 ^ 20 := by
      unfold InRun at hin
      dsimp only at hin
      omega
    have hd := (pageDist_lt_iff_inRun hlast hv).mpr hin
    have hpage : ptr + BitVec.ofNat 32 (4096 * pageDist (pageOf ptr) v) =
        BitVec.ofNat 32 (4096 * v) := by
      unfold InRun at hin
      unfold PageAligned at halign
      unfold pageDist pageOf at *
      dsimp only at hin
      apply BitVec.eq_of_toNat_eq
      rw [BitVec.toNat_add, BitVec.toNat_ofNat, BitVec.toNat_ofNat]
      omega
    unfold mapPages
    rw [if_pos ⟨hv, hd⟩, hpage]
  · intro v hv hout
    unfold mapPages
    rw [if_neg fun hx => hout ((pageDist_lt_iff_inRun hlast hv).mp hx.2)]

/-- Pages set without flags are not present. -/
theorem PagesSet.absent {pm pm' : ℕ → BitVec 32} {r : Addr × ℕ} (h : PagesSet pm pm' r 0#32)
    {v : ℕ} (hin : InRun r v) : pm' v &&& pagingIsPresent = 0#32 := by
  have hal : PageAligned (BitVec.ofNat 32 (4096 * v)) := by
    unfold PageAligned
    rw [BitVec.toNat_ofNat]
    omega
  have hmask : pagingIsPresent = 0xfff#32 &&& pagingIsPresent := by decide
  rw [h.inside v hin, hmask, ← BitVec.and_assoc, or_flags_and_low hal (by decide)]
  exact BitVec.zero_and

/-! ## One slot -/

section Slot

variable {p : Process} {i : ℕ} {addr : Addr}

/-- The only slot that holds an address is the one that is found. -/
theorem processGetAllocationByAddr_only (hi : i < 1024) (haddr : (p.allocations i).ptr = addr)
    (honly : ∀ j < 1024, (p.allocations j).ptr = addr → j = i) :
    processGetAllocationByAddr p addr = some (p.allocations i) := by
  cases hlook : processGetAllocationByAddr p addr with
  | none =>
    unfold processGetAllocationByAddr at hlook
    have := List.find?_eq_none.mp (Option.map_eq_none_iff.mp hlook) i (List.mem_range.mpr hi)
    simp [haddr] at this
  | some a =>
    obtain ⟨j, hj, rfl, hptr⟩ := processGetAllocationByAddr_some hlook
    rw [honly j hj hptr]

/-- Taking the address out of the array clears the only slot that holds it. -/
theorem processAllocationUnjoin_only (hi : i < 1024) (haddr : (p.allocations i).ptr = addr)
    (honly : ∀ j < 1024, (p.allocations j).ptr = addr → j = i) :
    processAllocationUnjoin p addr = p.setAllocation i ⟨0#32, 0#32⟩ := by
  unfold processAllocationUnjoin Process.setAllocation
  congr 1
  funext j
  by_cases hj : j = i
  · subst hj
    rw [Function.update_self, if_pos ⟨hi, haddr⟩]
  · rw [Function.update_of_ne hj, if_neg fun h => hj (honly j h.1 h.2)]

end Slot

theorem processFindFreeAllocationIndex_full {p : Process}
    (hfull : ∀ i < 1024, (p.allocations i).ptr ≠ 0#32) : processFindFreeAllocationIndex p < 0 := by
  by_contra hindex
  obtain ⟨i, hi, -, hfree⟩ := processFindFreeAllocationIndex_spec hindex
  exact hfull i hi hfree

/-- **A request without a free slot** is given back. -/
theorem processMalloc_full {k k₁ : Kernel} {process : Addr} {size : BitVec 32} {p : Addr}
    (hz : Model.kzalloc size k = some (p, k₁)) (hp : p ≠ 0#32) (hproc : process ≠ 0#32)
    (hfull : ∀ i < 1024, ((k₁.procs process).allocations i).ptr ≠ 0#32) :
    processMalloc process size k = some (0#32,
      { k₁ with heap := heapFree k₁.heap p, kfrees := p :: k₁.kfrees }) := by
  unfold processMalloc
  refine prog_bind.mpr ⟨_, _, hz, ?_⟩
  rw [if_neg hp]
  refine prog_bind.mpr ⟨_, _, deref_of_ne hproc k₁, ?_⟩
  refine prog_bind.mpr ⟨_, _, rfl, ?_⟩
  rw [if_pos (processFindFreeAllocationIndex_full hfull)]
  exact prog_bind.mpr ⟨_, _, rfl, rfl⟩

/-- **A release** of the address in a slot that is the only one to hold it. -/
theorem processFree_slot {k : Kernel} {process ptr : Addr} {mem : Memory} {i : ℕ}
    (hproc : process ≠ 0#32) (hi : i < 1024) (haddr : ((k.procs process).allocations i).ptr = ptr)
    (honly : ∀ j < 1024, ((k.procs process).allocations j).ptr = ptr → j = i)
    (hmap : processMapTo process ptr ptr
      (pagingAlignAddress (ptr + ((k.procs process).allocations i).size)) 0#32 k =
        some (0, { k with mem := mem })) :
    processFree process ptr k = some ((), { k with
      mem := mem
      procs := Function.update k.procs process
        ((k.procs process).setAllocation i ⟨0#32, 0#32⟩)
      heap := heapFree k.heap ptr
      kfrees := ptr :: k.kfrees }) := by
  unfold processFree
  refine prog_bind.mpr ⟨_, _, deref_of_ne hproc k, ?_⟩
  refine prog_bind.mpr ⟨_, _, rfl, ?_⟩
  rw [processGetAllocationByAddr_only hi haddr honly]
  dsimp only
  rw [haddr]
  refine prog_bind.mpr ⟨_, _, hmap, ?_⟩
  rw [if_neg (by decide)]
  refine prog_bind.mpr ⟨_, _, rfl, ?_⟩
  dsimp only
  rw [processAllocationUnjoin_only hi haddr honly]
  rfl

/-! ## A request and its release -/

/-- A process on a well-formed kernel heap: what its array lists and the tables of its directory
are live runs of the heap, and the directory maps the pages as `pm` says. -/
structure ProcessGood (k : Kernel) (f : ProcFoot) (runs : List (ℕ × ℕ)) (pm : ℕ → BitVec 32) :
    Prop where
  arena : ArenaGood k.heap runs
  tables : ∀ r ∈ chunkRuns f.chunk f.shape, r ∈ arenaRuns k.heap runs
  allocations : ∀ r ∈ allocRuns (k.procs f.process), r ∈ arenaRuns k.heap runs
  process : f.process ≠ 0#32
  task : (k.procs f.process).task ≠ 0#32
  dir : (k.sched.tasks (k.procs f.process).task).page_directory = f.chunk
  chunk : ChunkAt k.mem f.chunk f.shape pm

/-- The request of `size` bytes was granted: the run from block `s` on was free and is reserved,
its pages and no others are set to writable, present and accessible from user land, and slot `i`
was free and records the run. -/
structure RunGranted (k k' : Kernel) (f : ProcFoot) (runs : List (ℕ × ℕ)) (size : BitVec 32)
    (pm pm' : ℕ → BitVec 32) (s i : ℕ) : Prop where
  address : runAddress k.heap s ≠ 0#32
  inTable : s + blocksFor size ≤ k.heap.table.total
  free : FreeBlocks k.heap.table.entries s (blocksFor size)
  reserved : Rewrites k.heap k'.heap s (blocksFor size)
    (fill runEntry k.heap.table.entries s (blocksFor size))
  layout : HeapLayout k'.heap ((s, blocksFor size) :: runs)
  pages : PagesSet pm pm' (runAddress k.heap s, blocksFor size) processMallocFlags
  chunk : ChunkAt k'.mem f.chunk f.shape pm'
  sched : k'.sched = k.sched
  slot : i < 1024
  slot_free : ((k.procs f.process).allocations i).ptr = 0#32
  procs : k'.procs = Function.update k.procs f.process
    ((k.procs f.process).setAllocation i ⟨runAddress k.heap s, size⟩)

/-- The run was given back: its pages and no others are not present any more, slot `i` and no
other is cleared, and the table of the heap is that of `k`. -/
structure RunReturned (k k' k'' : Kernel) (f : ProcFoot) (r : Addr × ℕ) (pm' pm'' : ℕ → BitVec 32)
    (i : ℕ) : Prop where
  table : k''.heap.table = k.heap.table
  saddr : k''.heap.saddr = k.heap.saddr
  pages : PagesSet pm' pm'' r 0#32
  absent : ∀ v, InRun r v → pm'' v &&& pagingIsPresent = 0#32
  chunk : ChunkAt k''.mem f.chunk f.shape pm''
  sched : k''.sched = k'.sched
  procs : k''.procs = Function.update k'.procs f.process
    ((k'.procs f.process).setAllocation i ⟨0#32, 0#32⟩)

/-- The request was refused: the table, the page directory and the processes are those of `k`. -/
structure RunRefused (k k' : Kernel) (f : ProcFoot) (pm : ℕ → BitVec 32) : Prop where
  table : k'.heap.table = k.heap.table
  saddr : k'.heap.saddr = k.heap.saddr
  memory : AgreeOnRuns k.mem k'.mem (chunkRuns f.chunk f.shape)
  chunk : ChunkAt k'.mem f.chunk f.shape pm
  sched : k'.sched = k.sched
  procs : k'.procs = k.procs

section Requests

variable {k : Kernel} {f : ProcFoot} {runs : List (ℕ × ℕ)} {pm : ℕ → BitVec 32} {size : BitVec 32}

/-- The run for a request is free, and taking and clearing it leaves the tables of the directory
alone. -/
theorem ProcessGood.kzalloc (hg : ProcessGood k f runs pm) (hsize : 1 ≤ size.toNat)
    (hrun : HasFreeRun k.heap.table.entries k.heap.table.total (blocksFor size)) :
    ∃ s k₁, Model.kzalloc size k = some (runAddress k.heap s, k₁) ∧
      s + blocksFor size ≤ k.heap.table.total ∧
      FreeBlocks k.heap.table.entries s (blocksFor size) ∧
      Rewrites k.heap k₁.heap s (blocksFor size)
        (fill runEntry k.heap.table.entries s (blocksFor size)) ∧
      OnlyMemory k k₁ ∧ AgreeOnRuns k.mem k₁.mem (chunkRuns f.chunk f.shape) := by
  have ha := hg.arena
  obtain ⟨s, k₁, hz, hin, hfree, hrw, hmem, honly⟩ := ha.kzalloc hsize hrun
  have hap := ha.apart_free (blocksFor_pos hsize) hin hfree
  refine ⟨s, k₁, hz, hin, hfree, hrw, honly, ?_⟩
  rw [hmem]
  exact (ha.agree_zeroFill hin hap k.mem).subset hg.tables

/-- **A request that is granted**: the lowest run that is long enough is reserved, mapped and
recorded. -/
theorem ProcessGood.malloc (hg : ProcessGood k f runs pm) (hsize : 1 ≤ size.toNat)
    (hrun : HasFreeRun k.heap.table.entries k.heap.table.total (blocksFor size))
    (hslot : ∃ j < 1024, ((k.procs f.process).allocations j).ptr = 0#32) :
    ∃ s i k' pm', processMalloc f.process size k = some (runAddress k.heap s, k') ∧
      RunGranted k k' f runs size pm pm' s i := by
  obtain ⟨j, hj, hjfree⟩ := hslot
  have ha := hg.arena
  have hn := blocksFor_pos hsize
  obtain ⟨s, k₁, hz, hin, hfree, hrw, honly, hagree⟩ := hg.kzalloc hsize hrun
  have hs : s ≤ k.heap.table.total := by omega
  have hne := ha.address_ne_zero hs
  have hat₁ := hg.chunk.of_agree hagree
  have halign := ha.address_aligned hs
  have hlast := ha.pageOf_end hin
  obtain ⟨hval, hcount⟩ := pagingAlignAddress_end halign hlast
  obtain ⟨mem, hmap, hat₂⟩ := processMapTo_eq (k := k₁) (f := f)
    (by rw [honly.procs, honly.sched]; exact hg.dir) (by rw [honly.procs]; exact hg.task) hat₁
    hval processMallocFlags
  rw [hcount] at hat₂
  obtain ⟨i, hi, hindex⟩ := processFindFreeAllocationIndex_le hj hjfree
  obtain ⟨i', hi', hieq, hifree⟩ := processFindFreeAllocationIndex_spec
    (show ¬ processFindFreeAllocationIndex (k.procs f.process) < 0 by omega)
  obtain rfl : i = i' := by omega
  have hcode := processMalloc_slot hz hne hg.process (by rw [honly.procs]; exact hindex) hmap
  refine ⟨s, i, _, _, hcode, hne, hin, hfree, hrw, ha.layout.malloc hn hin hfree hrw,
    pagesSet_mapPages halign hlast pm _, hat₂, honly.sched, hi', hifree, ?_⟩
  dsimp only
  rw [honly.procs]

/-- **A release** gives back the run, its pages and its slot. -/
theorem ProcessGood.free (hg : ProcessGood k f runs pm) (hsize : 1 ≤ size.toNat) {s i : ℕ}
    {k' : Kernel} {pm' : ℕ → BitVec 32} (hr : RunGranted k k' f runs size pm pm' s i) :
    ∃ k'' pm'', processFree f.process (runAddress k.heap s) k' = some ((), k'') ∧
      RunReturned k k' k'' f (runAddress k.heap s, blocksFor size) pm' pm'' i := by
  have ha := hg.arena
  have hin := hr.inTable
  have hn := blocksFor_pos hsize
  have hproc : k'.procs f.process =
      (k.procs f.process).setAllocation i ⟨runAddress k.heap s, size⟩ := by
    rw [hr.procs, Function.update_self]
  have htask : (k'.procs f.process).task = (k.procs f.process).task := by
    rw [hproc]
    rfl
  have hi : (k'.procs f.process).allocations i = ⟨runAddress k.heap s, size⟩ := by
    rw [hproc]
    unfold Process.setAllocation
    dsimp only
    rw [Function.update_self]
  -- the other slots hold live runs, and those start elsewhere
  have honly : ∀ j < 1024, ((k'.procs f.process).allocations j).ptr = runAddress k.heap s →
      j = i := by
    intro j hj hptr
    by_contra hji
    rw [hproc] at hptr
    unfold Process.setAllocation at hptr
    dsimp only at hptr
    rw [Function.update_of_ne hji] at hptr
    have hmem := hg.allocations _ (mem_allocRuns hj (by rw [hptr]; exact hr.address))
    exact ha.address_ne hn hin (ha.apart_free hn hin hr.free) hmem hptr
  have halign := ha.address_aligned (s := s) (by omega)
  have hlast := ha.pageOf_end hin
  obtain ⟨hval, hcount⟩ := pagingAlignAddress_end halign hlast
  obtain ⟨mem, hmap, hat⟩ := processMapTo_eq (k := k') (f := f)
    (by rw [htask, hr.sched]; exact hg.dir) (by rw [htask]; exact hg.task) hr.chunk hval 0#32
  rw [hcount] at hat
  have hcode := processFree_slot (k := k') hg.process hr.slot (by rw [hi]) honly
    (by rw [hi]; exact hmap)
  obtain ⟨htable, hsaddr⟩ := ha.release_table hn hin hr.free hr.reserved
  have hpages := pagesSet_mapPages halign hlast pm' 0#32
  exact ⟨_, _, hcode, htable, hsaddr, hpages, fun v hv => hpages.absent hv, hat, rfl, rfl⟩

/-- **A request without a free slot** gives the run back. -/
theorem ProcessGood.malloc_full (hg : ProcessGood k f runs pm) (hsize : 1 ≤ size.toNat)
    (hrun : HasFreeRun k.heap.table.entries k.heap.table.total (blocksFor size))
    (hfull : ∀ j < 1024, ((k.procs f.process).allocations j).ptr ≠ 0#32) :
    ∃ k', processMalloc f.process size k = some (0#32, k') ∧ RunRefused k k' f pm := by
  have ha := hg.arena
  have hn := blocksFor_pos hsize
  obtain ⟨s, k₁, hz, hin, hfree, hrw, honly, hagree⟩ := hg.kzalloc hsize hrun
  have hcode := processMalloc_full hz (ha.address_ne_zero (by omega)) hg.process
    (by rw [honly.procs]; exact hfull)
  obtain ⟨htable, hsaddr⟩ := ha.release_table hn hin hfree hrw
  exact ⟨_, hcode, htable, hsaddr, hagree, hg.chunk.of_agree hagree, honly.sched, honly.procs⟩

end Requests

/-- **The blocks and the pages of an allocation agree**, for every request of at least one byte
that a free run can serve. -/
theorem process_pages_agree (k : Kernel) (f : ProcFoot) (runs : List (ℕ × ℕ))
    (pm : ℕ → BitVec 32) (hg : ProcessGood k f runs pm) (size : BitVec 32)
    (hsize : 1 ≤ size.toNat)
    (hrun : HasFreeRun k.heap.table.entries k.heap.table.total (blocksFor size)) :
    ((∃ j < 1024, ((k.procs f.process).allocations j).ptr = 0#32) →
      ∃ s i k' pm', processMalloc f.process size k = some (runAddress k.heap s, k') ∧
        RunGranted k k' f runs size pm pm' s i ∧
        ∃ k'' pm'', processFree f.process (runAddress k.heap s) k' = some ((), k'') ∧
          RunReturned k k' k'' f (runAddress k.heap s, blocksFor size) pm' pm'' i) ∧
    ((∀ j < 1024, ((k.procs f.process).allocations j).ptr ≠ 0#32) →
      ∃ k', processMalloc f.process size k = some (0#32, k') ∧ RunRefused k k' f pm) := by
  refine ⟨fun hslot => ?_, hg.malloc_full hsize hrun⟩
  obtain ⟨s, i, k', pm', hcode, hr⟩ := hg.malloc hsize hrun hslot
  exact ⟨s, i, k', pm', hcode, hr, hg.free hsize hr⟩

/-! ## The kernel heap -/

theorem HeapOwns.arenaGood {h : Heap} {rs : List (Addr × ℕ)} (ho : HeapOwns h rs) :
    ArenaGood h (rs.map blockRun) := by
  refine ⟨ho.layout, ?_, ?_, ?_, ?_⟩
  · rw [ho.saddr]
    decide
  · rw [ho.saddr]
    decide
  · rw [ho.total]
    norm_num
  · rw [ho.saddr, ho.total]
    norm_num

theorem HeapOwns.mem_arenaRuns {h : Heap} {rs : List (Addr × ℕ)} (ho : HeapOwns h rs)
    {r : Addr × ℕ} (hr : r ∈ rs) : r ∈ arenaRuns h (rs.map blockRun) := by
  have hin := ho.inside hr
  have haddr : runAddress h (blockRun r).1 = r.1 := by
    rw [← heapBlockToAddress_eq, heapBlockToAddress_packed ho.saddr]
    exact (ho.eq_blockAddr hr).symm
  refine List.mem_map.mpr ⟨blockRun r, List.mem_map_of_mem hr, ?_⟩
  rw [haddr]
  rfl

/-- A process in a run of `process_malloc` and `process_free` is one the theorem is about. -/
theorem MemRun.Inv.processGood {s : MemRun} {foots : List ProcFoot} {rs : List (Addr × ℕ)}
    (h : s.Inv foots rs) {f : ProcFoot} (hf : f ∈ foots) (hproc : f.process ≠ 0#32) :
    ∃ runs pm, ProcessGood s.kernel f runs pm := by
  have hown : ∀ r ∈ f.runs s.kernel, r ∈ foots.flatMap (ProcFoot.runs s.kernel) ++ rs :=
    fun r hr => List.mem_append_left _ (List.mem_flatMap.mpr ⟨f, hf, hr⟩)
  obtain ⟨pm, hat, -⟩ := (h.confined f hf).map
  refine ⟨_, pm, h.owns.arenaGood, ?_, ?_, hproc, ?_, (h.confined f hf).dir, hat⟩
  · exact fun r hr => h.owns.mem_arenaRuns (hown r (List.mem_append_left _ hr))
  · exact fun r hr => h.owns.mem_arenaRuns (hown r (List.mem_append_right _ hr))
  · exact h.owns.ne_zero (List.mem_append_right _ (h.task f hf))

theorem Packed.hasFreeRun {h : Heap} {s n : ℕ} (hp : Packed h s) (hfit : s + n ≤ 25600) :
    HasFreeRun h.table.entries h.table.total n := by
  refine ⟨s, ?_, fun j hj => hp.free (s + j) (by omega) (by omega)⟩
  rw [hp.total]
  exact hfit

/-! ## A process whose array is full -/

/-- How many of the slots of a process are free. -/
def freeSlots (p : Process) : ℕ :=
  ((Finset.range maerosMaxProgramAllocations).filter fun i => (p.allocations i).ptr = 0#32).card

/-- There are no more slots than those of the array. -/
theorem freeSlots_le (p : Process) : freeSlots p ≤ 1024 := by
  refine (Finset.card_filter_le _ _).trans ?_
  rw [Finset.card_range]

/-- A slot that is taken is one free slot less. -/
theorem freeSlots_setAllocation {p : Process} {i : ℕ} (hi : i < 1024)
    (hfree : (p.allocations i).ptr = 0#32) {ptr : Addr} (hne : ptr ≠ 0#32) (size : BitVec 32) :
    freeSlots (p.setAllocation i ⟨ptr, size⟩) + 1 = freeSlots p := by
  have hmem : i ∈ (Finset.range maerosMaxProgramAllocations).filter
      fun j => (p.allocations j).ptr = 0#32 :=
    Finset.mem_filter.mpr ⟨Finset.mem_range.mpr hi, hfree⟩
  have herase : ((Finset.range maerosMaxProgramAllocations).filter
      fun j => ((p.setAllocation i ⟨ptr, size⟩).allocations j).ptr = 0#32) =
        ((Finset.range maerosMaxProgramAllocations).filter
          fun j => (p.allocations j).ptr = 0#32).erase i := by
    ext j
    rw [Finset.mem_erase, Finset.mem_filter, Finset.mem_filter]
    unfold Process.setAllocation
    dsimp only
    by_cases hj : j = i
    · subst hj
      rw [Function.update_self]
      simp [hne]
    · rw [Function.update_of_ne hj]
      simp [hj]
  unfold freeSlots
  rw [herase]
  exact Finset.card_erase_add_one hmem

/-- A slot is free if one can be named. -/
theorem freeSlots_pos {p : Process} : 1 ≤ freeSlots p ↔
    ∃ j < 1024, (p.allocations j).ptr = 0#32 := by
  unfold freeSlots
  rw [Nat.one_le_iff_ne_zero, ← Nat.pos_iff_ne_zero, Finset.card_pos]
  simp only [Finset.Nonempty, Finset.mem_filter, Finset.mem_range]

/-- A request takes one slot. -/
theorem RunGranted.freeSlots {k k' : Kernel} {f : ProcFoot} {runs : List (ℕ × ℕ)}
    {size : BitVec 32} {pm pm' : ℕ → BitVec 32} {s i : ℕ}
    (hr : RunGranted k k' f runs size pm pm' s i) :
    freeSlots (k'.procs f.process) + 1 = freeSlots (k.procs f.process) := by
  rw [hr.procs, Function.update_self]
  exact freeSlots_setAllocation hr.slot hr.slot_free hr.address size

/-- It takes the blocks that it asks for. -/
theorem RunGranted.card_freeBlocks {k k' : Kernel} {f : ProcFoot} {runs : List (ℕ × ℕ)}
    {size : BitVec 32} {pm pm' : ℕ → BitVec 32} {s i : ℕ}
    (hr : RunGranted k k' f runs size pm pm' s i) :
    (freeBlocks k.heap).card ≤ (freeBlocks k'.heap).card + blocksFor size := by
  have hsub : freeBlocks k.heap ⊆ freeBlocks k'.heap ∪ Finset.Ico s (s + blocksFor size) := by
    intro b hb
    obtain ⟨hlt, hfree⟩ := Finset.mem_filter.mp hb
    by_cases hin : s ≤ b ∧ b < s + blocksFor size
    · exact Finset.mem_union_right _ (Finset.mem_Ico.mpr hin)
    · refine Finset.mem_union_left _ (Finset.mem_filter.mpr ⟨?_, ?_⟩)
      · rwa [hr.reserved.total]
      · unfold IsFree
        rw [hr.reserved.entries, fill_outside (by omega)]
        exact hfree
  refine (Finset.card_le_card hsub).trans ((Finset.card_union_le _ _).trans ?_)
  rw [Nat.card_Ico, Nat.add_sub_cancel_left]

/-- A free block is a run of one. -/
theorem hasFreeRun_one {h : Heap} (hfree : 1 ≤ (freeBlocks h).card) :
    HasFreeRun h.table.entries h.table.total 1 := by
  obtain ⟨b, hb⟩ := Finset.card_pos.mp hfree
  obtain ⟨hlt, hb⟩ := Finset.mem_filter.mp hb
  refine ⟨b, Finset.mem_range.mp hlt, fun j hj => ?_⟩
  rw [show b + j = b from by omega]
  exact hb

/-- **One byte at a time**, a process fills its array. -/
theorem MemRun.Inv.fill {foots : List ProcFoot} {rs : List (Addr × ℕ)} {f : ProcFoot}
    (hf : f ∈ foots) (hproc : f.process ≠ 0#32) : ∀ (n : ℕ) (s : MemRun), s.Inv foots rs →
    freeSlots (s.kernel.procs f.process) ≤ n → n < (freeBlocks s.kernel.heap).card →
    ∃ s' : MemRun, s'.Inv foots rs ∧ 1 ≤ (freeBlocks s'.kernel.heap).card ∧
      ∀ j < 1024, ((s'.kernel.procs f.process).allocations j).ptr ≠ 0#32 := by
  intro n
  induction n with
  | zero =>
    intro s hinv hslots hblocks
    refine ⟨s, hinv, hblocks, fun j hj hnull => ?_⟩
    have hpos := freeSlots_pos.mpr ⟨j, hj, hnull⟩
    omega
  | succ n ih =>
    intro s hinv hslots hblocks
    by_cases hfull : ∀ j < 1024, ((s.kernel.procs f.process).allocations j).ptr ≠ 0#32
    · exact ⟨s, hinv, by omega, hfull⟩
    push Not at hfull
    obtain ⟨runs, pm, hg⟩ := hinv.processGood hf hproc
    have hsize : 1 ≤ (1#32).toNat := by decide
    obtain ⟨b, i, k', pm', hcode, hr⟩ := hg.malloc hsize (hasFreeRun_one (by omega)) hfull
    have hstarted : f.process ∈ s.started := by
      rw [hinv.started]
      exact List.mem_map_of_mem hf
    have hinv' := hinv.malloc hstarted (.inl (by decide)) hcode
    have hfewer := hr.freeSlots
    have hleft : (freeBlocks s.kernel.heap).card ≤ (freeBlocks k'.heap).card + 1 :=
      hr.card_freeBlocks
    exact ih ⟨k', s.started⟩ hinv' (by dsimp only; omega) (by dsimp only; omega)

/-- 5000 bytes for the first of two started processes: two blocks, two pages. Once its array is
full, a request that a free block can serve is refused. -/
theorem process_pages_agree_boot :
    (∃ k f runs pm s i k' pm' k'' pm'', ProcessGood k f runs pm ∧
      processMalloc f.process 5000#32 k = some (runAddress k.heap s, k') ∧
      RunGranted k k' f runs 5000#32 pm pm' s i ∧
      processFree f.process (runAddress k.heap s) k' = some ((), k'') ∧
      RunReturned k k' k'' f (runAddress k.heap s, 2) pm' pm'' i) ∧
    ∃ k f runs pm k', ProcessGood k f runs pm ∧
      HasFreeRun k.heap.table.entries k.heap.table.total (blocksFor 1000#32) ∧
      processMalloc f.process 1000#32 k = some (0#32, k') ∧ RunRefused k k' f pm := by
  obtain ⟨_, _, _, k₂, f, g, rs₂, -, -, -, -, -, hf, -, hinv, hpk, hnone⟩ := two_processes_boot
  have hproc : f.process ≠ 0#32 := by
    rw [hf]
    exact blockAddr_ne_zero (by omega)
  constructor
  · obtain ⟨runs, pm, hg⟩ := hinv.processGood (f := f) (by simp) hproc
    have htwo : blocksFor 5000#32 = 2 := rfl
    have hrun : HasFreeRun k₂.heap.table.entries k₂.heap.table.total (blocksFor 5000#32) := by
      rw [htwo]
      exact hpk.hasFreeRun (by omega)
    obtain ⟨s, i, k', pm', hcode, hr, k'', pm'', hfree, hret⟩ :=
      (process_pages_agree k₂ f runs pm hg 5000#32 (by decide) hrun).1 ⟨0, by omega, hnone _ _⟩
    rw [htwo] at hret
    exact ⟨k₂, f, runs, pm, s, i, k', pm', k'', pm'', hg, hcode, hr, hfree, hret⟩
  · have hblocks : 1024 < (freeBlocks k₂.heap).card := by
      have hsub : Finset.Ico 2060 25600 ⊆ freeBlocks k₂.heap := by
        intro b hb
        obtain ⟨hlo, hhi⟩ := Finset.mem_Ico.mp hb
        refine Finset.mem_filter.mpr ⟨Finset.mem_range.mpr ?_, hpk.free b hlo hhi⟩
        rw [hpk.total]
        exact hhi
      have hcard := Finset.card_le_card hsub
      rw [Nat.card_Ico] at hcard
      omega
    obtain ⟨s, hinv', hfree, hfull⟩ :=
      MemRun.Inv.fill (f := f) (by simp) hproc 1024 _ hinv (freeSlots_le _) hblocks
    obtain ⟨runs, pm, hg⟩ := hinv'.processGood (f := f) (by simp) hproc
    have hrun := hasFreeRun_one hfree
    obtain ⟨k', hcode, hr⟩ :=
      (process_pages_agree s.kernel f runs pm hg 1000#32 (by decide) hrun).2 hfull
    exact ⟨s.kernel, f, runs, pm, k', hg, hrun, hcode, hr⟩

end MaerOS.Analysis
