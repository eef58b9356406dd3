import MaerOS.Analysis.PackedHeap

/-!
# Who owns the blocks of the kernel heap

`HeapOwns h rs` lists the live allocations of the kernel heap, each as its address
and its number of blocks, and says that the table is the picture of exactly these.
`kzalloc` adds an allocation and `kfree` of one of them takes it out, so a caller
that knows what it owns never looks at the table again.

`kfree` of the null pointer is part of the picture. It wipes bytes below the table,
from the one at block `-4096` on; the boot sector lies there and its signature byte
`0x55`, two bytes below the table, has no `HAS_NEXT` bit, so the wiping never gets
as far as the table.
-/

set_option autoImplicit false

namespace MaerOS.Analysis

open MaerOS.Lib MaerOS.Model

/-- The blocks of an allocation, as an interval of the table. -/
def blockRun (r : Addr × ℕ) : ℕ × ℕ := (pageOf r.1 - 4096, r.2)

/-- The page `q` belongs to the allocation. -/
def InRun (r : Addr × ℕ) (q : ℕ) : Prop := pageOf r.1 ≤ q ∧ q < pageOf r.1 + r.2

/-- The live allocations of the kernel heap are exactly `rs`. -/
structure HeapOwns (h : Heap) (rs : List (Addr × ℕ)) : Prop where
  saddr : h.saddr = 0x01000000#32
  total : h.table.total = 25600
  below : ¬ HasNext (h.table.entries (-2))
  layout : HeapLayout h (rs.map blockRun)
  aligned : ∀ r ∈ rs, PageAligned r.1
  above : ∀ r ∈ rs, 4096 ≤ pageOf r.1

/-- The order of the list does not matter. -/
theorem HeapOwns.perm {h : Heap} {rs rs' : List (Addr × ℕ)} (ho : HeapOwns h rs)
    (hp : rs.Perm rs') : HeapOwns h rs' :=
  ⟨ho.saddr, ho.total, ho.below, ho.layout.perm (hp.map _),
    fun r hr => ho.aligned r (hp.mem_iff.mpr hr), fun r hr => ho.above r (hp.mem_iff.mpr hr)⟩

/-- An allocation has at least one block and lies in the arena. -/
theorem HeapOwns.inside {h : Heap} {rs : List (Addr × ℕ)} (ho : HeapOwns h rs) {r : Addr × ℕ}
    (hr : r ∈ rs) : 1 ≤ r.2 ∧ pageOf r.1 + r.2 ≤ 29696 := by
  have h1 := ho.layout.pos _ (List.mem_map_of_mem hr)
  have h2 := ho.layout.inside _ (List.mem_map_of_mem hr)
  have h3 := ho.above r hr
  rw [ho.total] at h2
  unfold blockRun at h1 h2
  dsimp only at h1 h2
  omega

/-- No page belongs to two allocations. -/
theorem HeapOwns.apart {h : Heap} {rs : List (Addr × ℕ)} (ho : HeapOwns h rs) :
    rs.Pairwise fun r r' => ∀ q, InRun r q → ¬ InRun r' q := by
  refine (List.pairwise_map.mp ho.layout.apart).imp_of_mem ?_
  intro r r' hr hr' hap q hq hq'
  have h1 := ho.above r hr
  have h2 := ho.above r' hr'
  unfold Apart blockRun at hap
  unfold InRun at hq hq'
  dsimp only at hap
  omega

/-- The addresses of the allocations are pairwise different. -/
theorem HeapOwns.nodup {h : Heap} {rs : List (Addr × ℕ)} (ho : HeapOwns h rs) :
    (rs.map Prod.fst).Nodup := by
  rw [List.Nodup, List.pairwise_map]
  refine ho.apart.imp_of_mem ?_
  intro r r' hr hr' hap heq
  have h1 := (ho.inside hr).1
  have h2 := (ho.inside hr').1
  refine hap (pageOf r.1) ⟨le_rfl, by omega⟩ ⟨by rw [heq], by rw [heq]; omega⟩

/-- The address of an allocation is that of its first block. -/
theorem HeapOwns.eq_blockAddr {h : Heap} {rs : List (Addr × ℕ)} (ho : HeapOwns h rs)
    {r : Addr × ℕ} (hr : r ∈ rs) : r.1 = blockAddr (pageOf r.1 - 4096) := by
  have h1 := ho.aligned r hr
  have h2 := ho.above r hr
  have h3 := ho.inside hr
  apply BitVec.eq_of_toNat_eq
  rw [blockAddr_toNat (by omega)]
  unfold PageAligned at h1
  unfold pageOf at h2 h3 ⊢
  omega

/-- No allocation is at the null pointer. -/
theorem HeapOwns.ne_zero {h : Heap} {rs : List (Addr × ℕ)} (ho : HeapOwns h rs)
    {r : Addr × ℕ} (hr : r ∈ rs) : r.1 ≠ 0#32 := by
  intro heq
  have := ho.above r hr
  rw [heq] at this
  simp [pageOf] at this

/-- Two allocations in different places of the list share no page. -/
theorem HeapOwns.apart_cons {h : Heap} {r : Addr × ℕ} {rs : List (Addr × ℕ)}
    (ho : HeapOwns h (r :: rs)) {r' : Addr × ℕ} (hr' : r' ∈ rs) {q : ℕ} (hq : InRun r q) :
    ¬ InRun r' q :=
  (List.pairwise_cons.mp ho.apart).1 r' hr' q hq

/-- Allocations in different parts of the list have different addresses. -/
theorem HeapOwns.ne_of_append {h : Heap} {as bs : List (Addr × ℕ)} (ho : HeapOwns h (as ++ bs))
    {r r' : Addr × ℕ} (hr : r ∈ as) (hr' : r' ∈ bs) : r.1 ≠ r'.1 := by
  have hnd := ho.nodup
  rw [List.map_append] at hnd
  exact (List.nodup_append.mp hnd).2.2 _ (List.mem_map_of_mem hr) _ (List.mem_map_of_mem hr')

/-- No other allocation of the list has the address of this one. -/
theorem HeapOwns.ne_middle {h : Heap} {as bs : List (Addr × ℕ)} {r : Addr × ℕ}
    (ho : HeapOwns h (as ++ r :: bs)) {r' : Addr × ℕ} (hr' : r' ∈ as ++ bs) : r'.1 ≠ r.1 := by
  have hnd := (ho.perm List.perm_middle).nodup
  rw [List.map_cons, List.nodup_cons] at hnd
  exact fun heq => hnd.1 (heq ▸ List.mem_map_of_mem hr')

/-- Two allocations with different addresses share no page. -/
theorem HeapOwns.apart_mem {h : Heap} {rs : List (Addr × ℕ)} (ho : HeapOwns h rs)
    {r r' : Addr × ℕ} (hr : r ∈ rs) (hr' : r' ∈ rs) (hne : r.1 ≠ r'.1) {q : ℕ}
    (hq : InRun r q) : ¬ InRun r' q := by
  have : Std.Symm fun r r' : Addr × ℕ => ∀ q, InRun r q → ¬ InRun r' q :=
    ⟨fun _ _ hap q hq hq' => hap q hq' hq⟩
  exact ho.apart.forall hr hr' (fun heq => hne (by rw [heq])) q hq

/-- A block that belongs to no allocation is free. -/
theorem HeapOwns.isFree {h : Heap} {rs : List (Addr × ℕ)} (ho : HeapOwns h rs) {b : ℕ}
    (hb : b < 25600) (hno : ∀ r ∈ rs, ¬ InRun r (4096 + b)) : IsFree h.table.entries b := by
  have hrest := ho.layout.rest b (by rw [ho.total]; exact hb) fun r hr hc => by
    obtain ⟨r', hr', rfl⟩ := List.mem_map.mp hr
    have habove := ho.above r' hr'
    refine hno r' hr' ?_
    unfold Covers blockRun at hc
    unfold InRun
    dsimp only at hc
    omega
  unfold IsFree
  rw [hrest]
  decide

/-- A block of an allocation is not free. -/
theorem HeapOwns.not_isFree {h : Heap} {rs : List (Addr × ℕ)} (ho : HeapOwns h rs)
    {r : Addr × ℕ} (hr : r ∈ rs) {b : ℕ} (hin : InRun r (4096 + b)) :
    ¬ IsFree h.table.entries b := by
  intro hfree
  have habove := ho.above r hr
  unfold InRun at hin
  have hentry := ho.layout.entry _ (List.mem_map_of_mem hr) (4096 + b - pageOf r.1)
    (by unfold blockRun; dsimp only; omega)
  unfold blockRun at hentry
  dsimp only at hentry
  rw [show pageOf r.1 - 4096 + (4096 + b - pageOf r.1) = b from by omega] at hentry
  unfold IsFree at hfree
  rw [hentry] at hfree
  exact runEntry_type_ne _ _ hfree

/-! ## Block addresses -/

/-- The page of a block. -/
theorem pageOf_blockAddr {b : ℕ} (hb : b < 25600) : pageOf (blockAddr b) = 4096 + b := by
  unfold pageOf
  rw [blockAddr_toNat hb]
  omega

/-- A table changed inside `[0, total)` only keeps the byte below it. -/
theorem Rewrites.below {h h' : Heap} {b n : ℕ} (hrw : Rewrites h h' b n
    (fill runEntry h.table.entries b n)) (hb : ¬ HasNext (h.table.entries (-2))) :
    ¬ HasNext (h'.table.entries (-2)) := by
  rw [hrw.entries, fill_outside (by omega)]
  exact hb

/-- **`kzalloc` of at least one byte**: the null pointer and nothing done, or one more
allocation. A request that no free run can serve gets the null pointer only if the last block is
taken; else it has no outcome, since `memset` leaves the arena. -/
theorem HeapOwns.kzalloc {h h' : Heap} {rs : List (Addr × ℕ)} (ho : HeapOwns h rs)
    {size : BitVec 32} (hsize : 1 ≤ size.toNat) {p : Addr}
    (hz : h.kzalloc size = some (p, h')) :
    (p = 0#32 ∧ h' = h ∧ ¬ HasFreeRun h.table.entries 25600 (blocksFor size) ∧
      LastTaken h.table.entries 25600) ∨
      (p ≠ 0#32 ∧ HeapOwns h' ((p, blocksFor size) :: rs)) := by
  have hlt := size.isLt
  have htotal := ho.total
  have hout := heapMalloc_spec h size
  unfold Heap.kzalloc at hz
  generalize heapMalloc h size = r at hout hz
  cases hout with
  | found b h₁ hn hin hfree _ hrw =>
    obtain ⟨hblocks, -, -⟩ := heapTotalBlocks_pos hn
    rw [hblocks] at hn hin hfree hrw
    have haddr := heapBlockToAddress_packed ho.saddr b
    have hne : blockAddr b ≠ 0#32 := blockAddr_ne_zero (by omega)
    dsimp only at hz
    rw [haddr, if_neg hne] at hz
    split at hz
    · cases hz
      refine .inr ⟨hne, hrw.saddr.trans ho.saddr, hrw.total.trans ho.total, hrw.below ho.below,
        ?_, ?_, ?_⟩
      · have hl := ho.layout.malloc hn hin hfree hrw
        rw [List.map_cons]
        unfold blockRun
        dsimp only
        rw [pageOf_blockAddr (by omega), Nat.add_sub_cancel_left]
        exact hl
      · intro r hr
        rcases List.mem_cons.mp hr with rfl | hr
        · exact pageAligned_blockAddr (by omega)
        · exact ho.aligned r hr
      · intro r hr
        rcases List.mem_cons.mp hr with rfl | hr
        · dsimp only
          rw [pageOf_blockAddr (by omega)]
          omega
        · exact ho.above r hr
    · cases hz
  | tail b h₁ hin hfree hbefore hno hrw =>
    -- fewer than `blocksFor size` blocks are left behind `b`, so `memset` leaves the arena
    exfalso
    have haddr := heapBlockToAddress_packed ho.saddr b
    have hne : blockAddr b ≠ 0#32 := blockAddr_ne_zero (by omega)
    dsimp only at hz
    rw [haddr, if_neg hne] at hz
    split at hz
    · rename_i harena
      rw [inArena_blockAddr_iff ho.saddr ho.total (by omega)] at harena
      have hle : size.toNat ≤ 2 ^ 32 - 4096 := by
        unfold blocksFor at harena
        omega
      rw [heapTotalBlocks_eq, if_pos hle] at hno
      exact hno (blocksFor_pos hsize) ⟨b, by omega, fun j hj => hfree j (by omega)⟩
    · cases hz
  | fail hno hlast =>
    dsimp only at hz
    rw [if_pos rfl] at hz
    cases hz
    refine .inl ⟨rfl, rfl, fun hrun => ?_, htotal ▸ hlast⟩
    obtain ⟨s, hs, -⟩ := id hrun
    have hblocks : heapTotalBlocks size = blocksFor size := by
      rw [heapTotalBlocks_eq, if_pos]
      unfold blocksFor at hs
      omega
    have hn := blocksFor_pos hsize
    rw [hblocks, htotal] at hno
    exact hno hn hrun

/-- A table in which exactly the run of an allocation was wiped. -/
theorem HeapOwns.of_release {h h' : Heap} {p : Addr} {n : ℕ} {rs : List (Addr × ℕ)}
    (ho : HeapOwns h ((p, n) :: rs))
    (hrw : Rewrites h h' (pageOf p - 4096 : ℕ) n
      (clear heapBlockTableEntryFree h.table.entries (pageOf p - 4096 : ℕ) n)) :
    HeapOwns h' rs := by
  refine ⟨hrw.saddr.trans ho.saddr, hrw.total.trans ho.total, ?_, ?_,
    fun r hr => ho.aligned r (List.mem_cons_of_mem _ hr),
    fun r hr => ho.above r (List.mem_cons_of_mem _ hr)⟩
  · rw [hrw.entries, clear_outside (by omega)]
    exact ho.below
  · have hl := ho.layout
    rw [List.map_cons] at hl
    exact HeapLayout.release hl hrw

/-- **`kfree` of an allocation** takes it out. -/
theorem HeapOwns.kfree {h : Heap} {p : Addr} {n : ℕ} {rs : List (Addr × ℕ)}
    (ho : HeapOwns h ((p, n) :: rs)) : HeapOwns (heapFree h p) rs := by
  have hin : 1 ≤ n ∧ pageOf p + n ≤ 29696 := ho.inside List.mem_cons_self
  have habove : 4096 ≤ pageOf p := ho.above _ List.mem_cons_self
  have hp : p = blockAddr (pageOf p - 4096) := ho.eq_blockAddr List.mem_cons_self
  have hl := ho.layout
  rw [List.map_cons] at hl
  have hrun : ∀ j < n, h.table.entries ((pageOf p - 4096 + j : ℕ) : ℤ) = runEntry n j :=
    hl.entry (pageOf p - 4096, n) List.mem_cons_self
  have hblock : heapAddressToBlock h p = (pageOf p - 4096 : ℕ) := by
    conv_lhs => rw [hp]
    exact heapAddressToBlock_blockAddr ho.saddr (by omega)
  refine ho.of_release ?_
  unfold heapFree
  rw [hblock]
  exact heapMarkBlocksFree_run h (pageOf p - 4096) n hin.1 (by rw [ho.total]; omega) hrun

/-- **`kfree` of the null pointer** changes nothing in the table. -/
theorem HeapOwns.kfree_null {h : Heap} {rs : List (Addr × ℕ)} (ho : HeapOwns h rs) :
    HeapOwns (heapFree h 0#32) rs := by
  have hblock : heapAddressToBlock h 0#32 = -4096 := by
    unfold heapAddressToBlock
    rw [ho.saddr]
    decide
  unfold heapFree heapMarkBlocksFree
  rw [hblock]
  obtain ⟨m, -, hrw, hgo, -⟩ :=
    heapMarkBlocksFreeLoop_spec (h.table.total - (-4096 : ℤ)).toNat (-4096) h
  have hm : m ≤ 4095 := by
    by_contra hgt
    exact ho.below (hgo 4094 (by omega))
  refine ⟨hrw.saddr.trans ho.saddr, hrw.total.trans ho.total, ?_, ?_, ho.aligned, ho.above⟩
  · rw [hrw.entries]
    by_cases hin : (-2 : ℤ) < -4096 + m
    · rw [clear_inside (by omega) hin]
      exact not_hasNext_free
    · rw [clear_outside (by omega)]
      exact ho.below
  · unfold HeapLayout
    rw [hrw.total, hrw.entries]
    exact ho.layout.congr fun i _ => clear_outside (by omega)

/-- Only the address of the arena and its table matter. -/
theorem HeapOwns.of_entries {h h' : Heap} {rs : List (Addr × ℕ)} (ho : HeapOwns h rs)
    (hs : h'.saddr = h.saddr) (ht : h'.table.total = h.table.total)
    (he : h'.table.entries = h.table.entries) : HeapOwns h' rs := by
  refine ⟨hs.trans ho.saddr, ht.trans ho.total, by rw [he]; exact ho.below, ?_, ho.aligned,
    ho.above⟩
  unfold HeapLayout
  rw [ht, he]
  exact ho.layout

/-- **`kzalloc` of no bytes** takes nothing; its result is null or the address of a free block. -/
theorem HeapOwns.kzalloc_nothing {h h' : Heap} {rs : List (Addr × ℕ)} (ho : HeapOwns h rs)
    {p : Addr} (hz : h.kzalloc 0#32 = some (p, h')) :
    HeapOwns h' rs ∧ (p = 0#32 ∨ ∃ b < 25600, p = blockAddr b ∧ IsFree h'.table.entries b) := by
  have hzero : heapTotalBlocks 0#32 = 0 := by decide
  have htotal := ho.total
  have hout := heapMalloc_spec h 0#32
  unfold Heap.kzalloc at hz
  generalize heapMalloc h 0#32 = r at hout hz
  cases hout with
  | found b h₁ hn => exact absurd hn (by omega)
  | tail b h₁ hin hfree _ _ hrw =>
    have hsame : h₁.table.entries = h.table.entries := by
      rw [hrw.entries, hzero]
      funext i
      exact fill_outside (by omega)
    have haddr := heapBlockToAddress_packed ho.saddr b
    have hne : blockAddr b ≠ 0#32 := blockAddr_ne_zero (by omega)
    dsimp only at hz
    rw [haddr, if_neg hne] at hz
    split at hz
    · cases hz
      refine ⟨ho.of_entries hrw.saddr hrw.total hsame, .inr ⟨b, by omega, rfl, ?_⟩⟩
      rw [hsame]
      exact hfree 0 (by omega)
    · cases hz
  | fail _ _ =>
    dsimp only at hz
    rw [if_pos rfl] at hz
    cases hz
    exact ⟨ho, .inl rfl⟩

/-- **`kfree` of a free block** changes nothing. -/
theorem HeapOwns.kfree_free {h : Heap} {rs : List (Addr × ℕ)} (ho : HeapOwns h rs) {b : ℕ}
    (hb : b < 25600) (hfree : IsFree h.table.entries b) :
    HeapOwns (heapFree h (blockAddr b)) rs := by
  -- a block that reads as free belongs to no allocation, so its entry is zero
  have hentry : h.table.entries (b : ℤ) = heapBlockTableEntryFree := by
    refine ho.layout.rest b (by rw [ho.total]; exact hb) fun r hr hc => ?_
    have hrun := ho.layout.entry r hr (b - r.1) (by unfold Covers at hc; omega)
    rw [show r.1 + (b - r.1) = b from by unfold Covers at hc; omega] at hrun
    unfold IsFree at hfree
    rw [hrun] at hfree
    exact runEntry_type_ne _ _ hfree
  unfold heapFree heapMarkBlocksFree
  rw [heapAddressToBlock_blockAddr ho.saddr hb]
  obtain ⟨m, -, hrw, hgo, -⟩ :=
    heapMarkBlocksFreeLoop_spec (h.table.total - (b : ℤ)).toNat b h
  have hm : m ≤ 1 := by
    by_contra hgt
    have := hgo 0 (by omega)
    rw [show (b : ℤ) + (0 : ℕ) = b from by omega, hentry] at this
    exact not_hasNext_free this
  refine ho.of_entries hrw.saddr hrw.total ?_
  rw [hrw.entries]
  funext i
  by_cases hin : (b : ℤ) ≤ i ∧ i < b + m
  · rw [clear_inside hin.1 hin.2, show i = b from by omega, hentry]
  · rw [clear_outside (by omega)]

/-! ## Several allocations -/

/-- Several requests of one size, one after the other. -/
theorem HeapOwns.allocChain {size : BitVec 32} (hsize : 1 ≤ size.toNat) :
    ∀ (ps : List Addr) {h h' : Heap} {rs : List (Addr × ℕ)}, HeapOwns h rs →
      AllocChain size h ps h' →
      HeapOwns h' ((ps.map fun p => (p, blocksFor size)).reverse ++ rs) := by
  intro ps
  induction ps with
  | nil =>
    rintro h h' rs ho rfl
    exact ho
  | cons p ps ih =>
    rintro h h' rs ho ⟨h₁, hz, hne, hrest⟩
    rcases ho.kzalloc hsize hz with ⟨h0, -, -⟩ | ⟨-, ho₁⟩
    · exact absurd h0 hne
    · have := ih ho₁ hrest
      rw [List.map_cons, List.reverse_cons, List.append_assoc]
      exact this

/-- Giving back several allocations. -/
theorem HeapOwns.release_list : ∀ (os : List (Addr × ℕ)) {h : Heap} {rs : List (Addr × ℕ)},
    HeapOwns h (os ++ rs) → HeapOwns ((os.map Prod.fst).foldl heapFree h) rs := by
  intro os
  induction os with
  | nil =>
    intro h rs ho
    exact ho
  | cons o os ih =>
    intro h rs ho
    obtain ⟨p, n⟩ := o
    exact ih ho.kfree

/-! ## Live blocks -/

/-- The blocks of the heap that are not free. -/
def liveBlocks (h : Heap) : Set ℕ := {b | b < h.table.total ∧ ¬ IsFree h.table.entries b}

/-- The live blocks are those of the allocations. -/
theorem HeapOwns.mem_liveBlocks {h : Heap} {rs : List (Addr × ℕ)} (ho : HeapOwns h rs) {b : ℕ} :
    b ∈ liveBlocks h ↔ b < 25600 ∧ ∃ r ∈ rs, InRun r (4096 + b) := by
  constructor
  · rintro ⟨hb, hlive⟩
    rw [ho.total] at hb
    refine ⟨hb, ?_⟩
    by_contra hno
    exact hlive (ho.isFree hb fun r hr hin => hno ⟨r, hr, hin⟩)
  · rintro ⟨hb, r, hr, hin⟩
    exact ⟨by rw [ho.total]; exact hb, ho.not_isFree hr hin⟩

/-- One allocation more makes other blocks live. -/
theorem HeapOwns.liveBlocks_ne {h h' : Heap} {os rs : List (Addr × ℕ)} {r : Addr × ℕ}
    (ho : HeapOwns h rs) (ho' : HeapOwns h' (os ++ r :: rs)) : liveBlocks h' ≠ liveBlocks h := by
  intro heq
  have hr : r ∈ os ++ r :: rs := List.mem_append_right _ List.mem_cons_self
  have hin := ho'.inside hr
  have habove := ho'.above r hr
  have hfirst : InRun r (4096 + (pageOf r.1 - 4096)) := by
    unfold InRun
    omega
  have hmem : pageOf r.1 - 4096 ∈ liveBlocks h' :=
    ho'.mem_liveBlocks.mpr ⟨by omega, r, hr, hfirst⟩
  rw [heq] at hmem
  obtain ⟨-, r', hr', hin'⟩ := ho.mem_liveBlocks.mp hmem
  have hap := (List.pairwise_append.mp ho'.apart).2.1
  exact (List.pairwise_cons.mp hap).1 r' hr' _ hfirst hin'

/-! ## The first heap -/

/-- **`kheap_init`** sets up a heap without allocations, if the boot sector has its signature. -/
theorem heapOwns_kheapInit (kernel_heap : Heap) {entries : ℤ → HeapBlockTableEntry}
    (hsig : entries (-2) = 0x55#8) : HeapOwns (kheapInit kernel_heap entries).2 [] := by
  rw [kheapInit_eq]
  refine ⟨rfl, rfl, ?_, Layout.nil fun i hi => ?_, by simp, by simp⟩
  · unfold HeapTable.clearAll
    dsimp only
    rw [if_neg (by omega), hsig]
    decide
  · unfold HeapTable.clearAll
    dsimp only
    dsimp only [HeapTable.clearAll] at hi
    rw [if_pos (by omega)]

/-- Nothing is allocated after the boot. -/
theorem heapOwns_bootKernel : HeapOwns bootKernel.heap [] :=
  heapOwns_kheapInit ⟨⟨fun _ => 0#8, 0⟩, 0#32, []⟩ rfl

end MaerOS.Analysis
