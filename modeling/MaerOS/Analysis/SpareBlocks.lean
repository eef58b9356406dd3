import MaerOS.Analysis.PackedHeap

/-!
# The free blocks at the end of the kernel heap

The heap serves a request from its lowest run of free blocks that is long enough, so a run at the
end of the table is there for the requests that fit nowhere else. `SpareBlocks h n` says
that the last `n` blocks are free. A request takes no more of them than the blocks it
asks for, whatever the blocks before them look like, and nothing that is released takes
any. So code that asks for fewer than `n` blocks in all is never refused.
-/

set_option autoImplicit false

namespace MaerOS.Analysis

open MaerOS.Lib MaerOS.Model

/-- The last `n` blocks of the kernel heap are free. -/
structure SpareBlocks (h : Heap) (n : ℕ) : Prop where
  saddr : h.saddr = 0x01000000#32
  total : h.table.total = 25600
  inside : n ≤ 25600
  free : ∀ b, 25600 ≤ b + n → b < 25600 → IsFree h.table.entries b

section SpareBlocks

variable {h : Heap} {n : ℕ}

theorem SpareBlocks.mono (hs : SpareBlocks h n) {m : ℕ} (hm : m ≤ n) : SpareBlocks h m :=
  ⟨hs.saddr, hs.total, hm.trans hs.inside, fun b hb hlt => hs.free b (by omega) hlt⟩

theorem Packed.spareBlocks {s : ℕ} (hp : Packed h s) (hs : s + n ≤ 25600) : SpareBlocks h n :=
  ⟨hp.saddr, hp.total, by omega, fun b hb hlt => hp.free b (by omega) hlt⟩

/-- **A request** that leaves one of the blocks is granted, and takes no more of them than it asks
for. -/
theorem SpareBlocks.kzalloc {size : BitVec 32} (hs : SpareBlocks h (blocksFor size + n))
    (hn : 0 < n) : ∃ p h', h.kzalloc size = some (p, h') ∧ p ≠ 0#32 ∧ SpareBlocks h' n := by
  have hinside := hs.inside
  have hsmall : size.toNat ≤ blocksFor size * 4096 := by
    unfold blocksFor
    omega
  have hblocks : heapTotalBlocks size = blocksFor size := by
    rw [heapTotalBlocks_eq, if_pos (by omega)]
  have hrow : FreeBlocks h.table.entries (25600 - (blocksFor size + n)) (blocksFor size) :=
    fun j hj => hs.free _ (by omega) (by omega)
  have hout := heapMalloc_spec h size
  unfold Heap.kzalloc
  generalize heapMalloc h size = r at hout
  -- the blocks that were marked lie before the last `n`
  have hgrant : ∀ (s : ℕ) (h' : Heap), s + blocksFor size + n ≤ 25600 →
      Rewrites h h' s (blocksFor size) (fill runEntry h.table.entries s (blocksFor size)) →
      SpareBlocks h' n := by
    intro s h' hend hrw
    refine ⟨hrw.saddr.trans hs.saddr, hrw.total.trans hs.total, by omega, fun b hb hlt => ?_⟩
    unfold IsFree
    rw [hrw.entries, fill_outside (by omega)]
    exact hs.free b (by omega) hlt
  have harena : ∀ s : ℕ, s + blocksFor size ≤ 25600 → s < 25600 →
      h.InArena (blockAddr s) size := fun s hend hlt =>
    (inArena_blockAddr_iff hs.saddr hs.total hlt size).mpr hend
  cases hout with
  | found s h' _ hfit hfree hleast hrw =>
    rw [hblocks] at hfit hfree hleast hrw
    have hle : s ≤ 25600 - (blocksFor size + n) := not_lt.mp fun hlt => hleast _ hlt hrow
    refine ⟨blockAddr s, h', ?_, blockAddr_ne_zero (by omega), hgrant s h' (by omega) hrw⟩
    dsimp only
    rw [heapBlockToAddress_packed hs.saddr s, if_neg (blockAddr_ne_zero (by omega)),
      if_pos (harena s (by omega) (by omega))]
  | tail s h' hlt hfree _ hno hrw =>
    rw [hblocks] at hno hrw
    rw [hs.total] at hlt
    -- there is a run of the size asked for, so nothing was asked for
    have hzero : blocksFor size = 0 := by
      by_contra hne
      refine hno (by omega) ⟨_, ?_, hrow⟩
      rw [hs.total]
      omega
    refine ⟨blockAddr s, h', ?_, blockAddr_ne_zero hlt, ?_⟩
    · dsimp only
      rw [heapBlockToAddress_packed hs.saddr s, if_neg (blockAddr_ne_zero hlt),
        if_pos (harena s (by omega) hlt)]
    · rw [hzero] at hrw hs
      refine ⟨hrw.saddr.trans hs.saddr, hrw.total.trans hs.total, by omega, fun b hb hb' => ?_⟩
      unfold IsFree
      rw [hrw.entries, fill_outside (by omega)]
      exact hs.free b (by omega) hb'
  | fail _ hlast =>
    rcases hlast with h0 | hlast
    · simp [hs.total] at h0
    · rw [hs.total] at hlast
      exact absurd (hs.free 25599 (by omega) (by omega)) hlast

/-- **A release** takes none of the blocks. -/
theorem SpareBlocks.kfree (hs : SpareBlocks h n) (p : Addr) : SpareBlocks (heapFree h p) n := by
  obtain ⟨m, hrw⟩ := heapFree_clears h p
  exact ⟨hrw.saddr.trans hs.saddr, hrw.total.trans hs.total, hs.inside,
    fun b hb hlt => isFree_heapFree (hs.free b hb hlt) p⟩

end SpareBlocks

end MaerOS.Analysis
