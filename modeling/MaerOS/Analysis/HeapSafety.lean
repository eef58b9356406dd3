import MaerOS.Lib.Run
import MaerOS.Analysis.HeapAlloc

/-!
# The kernel heap over whole runs

A run starts from a heap set up by `heap_create` and carries out any sequence of
`heap_malloc` and `heap_free`, the latter on pointers still live. `HeapRun.Safe`
is what the allocator promises: a live pointer designates a run of
`ceil(size / 4096) ≥ 1` blocks inside the table, the runs of live pointers are
pairwise disjoint, and no table entry outside `[0, total)` is stored to.

The code keeps that promise as long as each step meets `HeapRun.Served`. Two
things break it. When no free run is long enough but the table ends in a free
block, the scan hands out that block all the same, and the marking runs off the
end of the table; the request for no blocks at all (size `0`, or a size whose
rounding wraps) is the extreme case. And in an arena of more than `2^31` bytes the
cast in `heap_address_to_block` makes the block of a high address negative.
-/

set_option autoImplicit false

namespace MaerOS.Analysis

open MaerOS.Lib MaerOS.Model

/-- The heap, and the pointers it has handed out and not got back, each with the size asked
for. -/
structure HeapRun where
  heap : Heap
  live : List (Addr × BitVec 32)

/-- A call of the allocator. -/
inductive HeapOp where
  | malloc (size : BitVec 32)
  | free (ptr : Addr)

/-- Carry out one call. -/
def HeapRun.step (s : HeapRun) : HeapOp → HeapRun
  | .malloc size =>
    let (ptr, heap) := heapMalloc s.heap size
    { heap := heap, live := if ptr = 0#32 then s.live else (ptr, size) :: s.live }
  | .free ptr =>
    { heap := heapFree s.heap ptr, live := s.live.eraseP fun p => p.1 == ptr }

/-- `heap_free` is only called on a live pointer. -/
def HeapRun.Allowed (s : HeapRun) : HeapOp → Prop
  | .malloc _ => True
  | .free ptr => ∃ size, (ptr, size) ∈ s.live

/-- The blocks a pointer designates. -/
def blocksOf (h : Heap) (p : Addr × BitVec 32) : ℕ × ℕ := (blockIndex h p.1, blocksFor p.2)

/-- What the allocator promises about its live pointers and its table. -/
structure HeapRun.Safe (s : HeapRun) : Prop where
  /-- A live pointer is the address of a block. -/
  aligned : ∀ p ∈ s.live, (p.1 - s.heap.saddr).toNat % 4096 = 0
  /-- It designates at least one block. -/
  nonempty : ∀ p ∈ s.live, 1 ≤ blocksFor p.2
  /-- Its blocks lie inside the table. -/
  inside : ∀ p ∈ s.live, blockIndex s.heap p.1 + blocksFor p.2 ≤ s.heap.table.total
  /-- Different live pointers designate disjoint blocks. -/
  apart : s.live.Pairwise fun p q => Apart (blocksOf s.heap p) (blocksOf s.heap q)
  /-- No entry outside the table was stored to. -/
  stores : ∀ i ∈ s.heap.stores, 0 ≤ i ∧ i < s.heap.table.total

/-- When a step keeps the promise. A request is served when the last block of the table is taken,
or when it asks for at least one byte, does not wrap in the rounding and finds a free run; a
release needs the pointer to be less than `2^31` bytes into the arena. -/
def HeapRun.Served (s : HeapRun) : HeapOp → Prop
  | .malloc size =>
    LastTaken s.heap.table.entries s.heap.table.total ∨
      (1 ≤ size.toNat ∧ size.toNat ≤ 2 ^ 32 - 4096 ∧
        HasFreeRun s.heap.table.entries s.heap.table.total (blocksFor size))
  | .free ptr => (ptr - s.heap.saddr).toNat < 2 ^ 31

/-- The invariant: the table is the picture of the live runs and of the runs that were handed out
as the null pointer (when the arena contains address `0`). -/
structure HeapRun.Inv (s : HeapRun) : Prop where
  picture : ∃ lost, HeapLayout s.heap (s.live.map (blocksOf s.heap) ++ lost)
  aligned : ∀ p ∈ s.live, (p.1 - s.heap.saddr).toNat % 4096 = 0
  bounded : s.heap.table.total < 2 ^ 20
  stores : ∀ i ∈ s.heap.stores, 0 ≤ i ∧ i < s.heap.table.total

/-- The invariant implies the promise. -/
theorem HeapRun.Inv.safe {s : HeapRun} (h : s.Inv) : s.Safe := by
  obtain ⟨lost, hl⟩ := h.picture
  have hmem : ∀ p ∈ s.live, blocksOf s.heap p ∈ s.live.map (blocksOf s.heap) ++ lost := by
    intro p hp
    exact List.mem_append_left _ (List.mem_map_of_mem hp)
  refine ⟨h.aligned, fun p hp => hl.pos _ (hmem p hp), fun p hp => hl.inside _ (hmem p hp), ?_,
    h.stores⟩
  exact List.pairwise_map.mp (List.pairwise_append.mp hl.apart).1

theorem blocksOf_congr {h h' : Heap} (hs : h'.saddr = h.saddr) : blocksOf h' = blocksOf h := by
  funext p
  unfold blocksOf blockIndex
  rw [hs]

/-- Stores recorded by a rewrite of `[b, b + n)` stay inside the table if that interval does. -/
theorem Rewrites.stores_inside {h h' : Heap} {b n : ℕ} {e : ℤ → HeapBlockTableEntry}
    (hrw : Rewrites h h' b n e) (hin : b + n ≤ h.table.total)
    (hst : ∀ i ∈ h.stores, 0 ≤ i ∧ i < h.table.total) :
    ∀ i ∈ h'.stores, 0 ≤ i ∧ i < h'.table.total := by
  intro i hi
  rw [hrw.total]
  rcases hrw.stores i hi with hi | hi
  · exact hst i hi
  · omega

/-- A found run keeps the invariant: it joins the live runs, or the lost ones if its address is
the null pointer. -/
theorem HeapRun.Inv.malloc_found {s : HeapRun} (hinv : s.Inv) {size : BitVec 32} {b : ℕ} {h' : Heap}
    (hn : 1 ≤ heapTotalBlocks size) (hin : b + heapTotalBlocks size ≤ s.heap.table.total)
    (hfree : FreeBlocks s.heap.table.entries b (heapTotalBlocks size))
    (hrw : Rewrites s.heap h' b (heapTotalBlocks size)
      (fill runEntry s.heap.table.entries b (heapTotalBlocks size))) :
    HeapRun.Inv { heap := h'
                  live := if heapBlockToAddress s.heap b = 0#32 then s.live
                    else (heapBlockToAddress s.heap b, size) :: s.live } := by
  obtain ⟨lost, hl⟩ := hinv.picture
  have hb := hinv.bounded
  have hl' := hl.malloc hn hin hfree hrw
  have hsub := heapBlockToAddress_sub s.heap b (by omega)
  have hblk : blocksOf h' (heapBlockToAddress s.heap b, size) = (b, heapTotalBlocks size) := by
    rw [blocksOf_congr hrw.saddr]
    unfold blocksOf
    rw [blockIndex_heapBlockToAddress s.heap b (by omega), (heapTotalBlocks_pos hn).1]
  refine ⟨?_, ?_, by rw [hrw.total]; exact hb, hrw.stores_inside hin hinv.stores⟩
  · dsimp only
    split
    · refine ⟨(b, heapTotalBlocks size) :: lost, ?_⟩
      rw [blocksOf_congr hrw.saddr]
      exact hl'.perm (List.perm_middle.symm)
    · refine ⟨lost, ?_⟩
      rw [List.map_cons, hblk, blocksOf_congr hrw.saddr, List.cons_append]
      exact hl'
  · intro p hp
    dsimp only at hp ⊢
    rw [hrw.saddr]
    split at hp
    · exact hinv.aligned p hp
    · rcases List.mem_cons.mp hp with rfl | hp
      · dsimp only
        rw [hsub]
        omega
      · exact hinv.aligned p hp

/-- **One call of `heap_malloc`** keeps the invariant when it is served. -/
theorem HeapRun.Inv.malloc {s : HeapRun} (hinv : s.Inv) {size : BitVec 32}
    (hserved : s.Served (.malloc size)) : (s.step (.malloc size)).Inv := by
  dsimp only [HeapRun.step]
  have hout := heapMalloc_spec s.heap size
  generalize heapMalloc s.heap size = r at hout
  cases hout with
  | found b h' hn hin hfree _ hrw => exact hinv.malloc_found hn hin hfree hrw
  | tail b h' hin hfree hbefore hno hrw =>
    exfalso
    rcases hserved with hlast | ⟨hpos, hle, hrun⟩
    · have hend := hfree (s.heap.table.total - 1 - b) (by omega)
      rw [show b + (s.heap.table.total - 1 - b) = s.heap.table.total - 1 from by omega] at hend
      rcases hlast with h0 | hlast
      · omega
      · exact hlast hend
    · rw [heapTotalBlocks_eq, if_pos hle] at hno
      exact hno (by unfold blocksFor; omega) hrun
  | fail hno hlast => simpa using hinv

/-- **One call of `heap_free`** on a live pointer keeps the invariant when it is served. -/
theorem HeapRun.Inv.free {s : HeapRun} (hinv : s.Inv) {ptr : Addr}
    (hallowed : s.Allowed (.free ptr)) (hserved : s.Served (.free ptr)) :
    (s.step (.free ptr)).Inv := by
  obtain ⟨lost, hl⟩ := hinv.picture
  obtain ⟨size, hmem⟩ := hallowed
  obtain ⟨p, live₁, live₂, hnot, hp, hlive, herase⟩ :=
    List.exists_of_eraseP (p := fun q : Addr × BitVec 32 => q.1 == ptr) hmem (by simp)
  obtain ⟨ptr', size'⟩ := p
  obtain rfl : ptr' = ptr := by simpa using hp
  -- bring the run of `ptr` to the front of the picture
  have hl' : HeapLayout s.heap ((blockIndex s.heap ptr', blocksFor size') ::
      ((live₁ ++ live₂).map (blocksOf s.heap) ++ lost)) := by
    refine hl.perm ?_
    rw [hlive, List.map_append, List.map_cons, List.map_append, List.append_assoc,
      List.append_assoc, List.cons_append]
    exact List.perm_middle
  have hrw := heapFree_run hl' List.mem_cons_self hserved
  dsimp only [HeapRun.step]
  rw [herase]
  refine ⟨⟨lost, ?_⟩, ?_, by rw [hrw.total]; exact hinv.bounded,
    hrw.stores_inside (hl'.inside _ List.mem_cons_self) hinv.stores⟩
  · rw [blocksOf_congr hrw.saddr]
    exact hl'.release hrw
  · intro q hq
    dsimp only at hq ⊢
    rw [hrw.saddr]
    refine hinv.aligned q ?_
    rw [hlive]
    rcases List.mem_append.mp hq with hq | hq
    · exact List.mem_append_left _ hq
    · exact List.mem_append_right _ (List.mem_cons_of_mem _ hq)

/-- A heap set up by `heap_create` has an all-free table of fewer than `2^20` blocks. -/
theorem heapCreate_zero {heap h : Heap} {ptr end_ : Addr} {table : HeapTable}
    (hc : heapCreate heap ptr end_ table = (0, h)) :
    h.table.total < 2 ^ 20 ∧ h.saddr = ptr ∧ h.stores = [] ∧
      ∀ i < h.table.total, h.table.entries ((i : ℕ) : ℤ) = heapBlockTableEntryFree := by
  unfold heapCreate at hc
  split at hc
  · simp at hc
  · dsimp only at hc
    split at hc
    · rename_i hneg
      rw [Prod.mk.injEq] at hc
      omega
    · rw [Prod.mk.injEq] at hc
      obtain ⟨hres, rfl⟩ := hc
      have htotal : table.total = (end_ - ptr).toNat / 4096 := by
        unfold heapValidateTable at hres
        dsimp only at hres
        split at hres
        · simp at hres
        · rename_i heq
          exact not_not.mp heq
      refine ⟨?_, rfl, rfl, ?_⟩
      · show table.total < 2 ^ 20
        have := (end_ - ptr).isLt
        omega
      · intro i hi
        show (if 0 ≤ (i : ℤ) ∧ (i : ℤ) < table.total then heapBlockTableEntryFree
          else table.entries i) = _
        have : i < table.total := hi
        rw [if_pos (by omega)]

/-- A heap just created has no live runs. -/
theorem HeapRun.Inv.start {heap h : Heap} {ptr end_ : Addr} {table : HeapTable}
    (hc : heapCreate heap ptr end_ table = (0, h)) : HeapRun.Inv { heap := h, live := [] } := by
  obtain ⟨hbound, -, hstores, hfree⟩ := heapCreate_zero hc
  refine ⟨⟨[], ?_⟩, by simp, hbound, by simp [hstores]⟩
  simpa using Layout.nil hfree

/-- **Heap safety over whole runs.** From a heap set up by `heap_create`, in every run whose
steps are all served, the promise holds in every state reached. -/
theorem heap_run_safe (heap h : Heap) (ptr end_ : Addr) (table : HeapTable)
    (hc : heapCreate heap ptr end_ table = (0, h)) (ops : List HeapOp)
    (hallowed : Along HeapRun.step HeapRun.Allowed { heap := h, live := [] } ops)
    (hserved : Along HeapRun.step HeapRun.Served { heap := h, live := [] } ops) (k : ℕ) :
    (run HeapRun.step { heap := h, live := [] } (ops.take k)).Safe := by
  have hboth := (hallowed.and hserved).take ops _ k
  refine HeapRun.Inv.safe (run_invariant (I := HeapRun.Inv) ?_ _ _ (HeapRun.Inv.start hc) hboth)
  rintro s (size | ptr') hinv ⟨ha, hs⟩
  · exact hinv.malloc hs
  · exact hinv.free ha hs

/-- An arena of two blocks at `0x01000000`, before `heap_create`. -/
def twoBlockTable : HeapTable := { entries := fun _ => 0#8, total := 2 }

/-- The heap that `heap_create` sets up over it. -/
def twoBlockHeap : Heap :=
  { table := twoBlockTable.clearAll, saddr := 0x01000000#32, stores := [] }

/-- `heap_create` accepts the two-block arena. -/
theorem heapCreate_twoBlock :
    heapCreate twoBlockHeap 0x01000000#32 0x01002000#32 twoBlockTable = (0, twoBlockHeap) :=
  Prod.ext (by decide) rfl

/-- Taking a block and giving it back is a run whose steps are all served. -/
theorem heap_run_safe_twoBlock :
    heapCreate twoBlockHeap 0x01000000#32 0x01002000#32 twoBlockTable = (0, twoBlockHeap) ∧
      (run HeapRun.step { heap := twoBlockHeap, live := [] }
        ([.malloc 1#32, .free 0x01000000#32].take 2)).Safe := by
  refine ⟨heapCreate_twoBlock, heap_run_safe twoBlockHeap twoBlockHeap 0x01000000#32
    0x01002000#32 twoBlockTable heapCreate_twoBlock [.malloc 1#32, .free 0x01000000#32] ?_ ?_ 2⟩
  · exact ⟨trivial, ⟨1#32, by decide⟩, trivial⟩
  · refine ⟨.inr ⟨by decide, by decide, 0, by decide, ?_⟩, ?_, trivial⟩
    · intro j hj
      obtain rfl : j = 0 := by
        have : blocksFor 1#32 = 1 := by decide
        omega
      decide
    · show (0x01000000#32 - 0x01000000#32).toNat < 2 ^ 31
      decide

/-- With two free blocks at the end of the table, a request for three blocks is granted: the
marking stores to entry `2` of a table of two entries. -/
theorem heap_run_unsafe_shortTail :
    heapCreate twoBlockHeap 0x01000000#32 0x01002000#32 twoBlockTable = (0, twoBlockHeap) ∧
      Along HeapRun.step HeapRun.Allowed { heap := twoBlockHeap, live := [] } [.malloc 12288#32] ∧
      ¬ (run HeapRun.step { heap := twoBlockHeap, live := [] } [.malloc 12288#32]).Safe := by
  refine ⟨heapCreate_twoBlock, ⟨trivial, trivial⟩, fun hsafe => ?_⟩
  have := hsafe.stores 2 (by decide)
  exact absurd this (by decide)

end MaerOS.Analysis
