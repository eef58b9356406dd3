import Mathlib.Order.Interval.Finset.Nat
import MaerOS.Lib.FreeSpans
import MaerOS.Analysis.TableLoad
import MaerOS.Analysis.PagingBalance

/-!
# Where the kernel heap puts things

`FreeSpans h spans` lists the free blocks of the kernel heap as spans. The heap
serves a request from the first span that is long enough, so where a block is put,
and which block that was released before is used again, can be computed from the
spans: `FreeSpans.kzalloc`, `FreeSpans.chunkTaken` and `FreeSpans.acts`.
-/

set_option autoImplicit false

namespace MaerOS.Analysis

open MaerOS.Lib MaerOS.Model

/-- The free blocks of the kernel heap are those in the spans. -/
structure FreeSpans (h : Heap) (spans : List (ℕ × ℕ)) : Prop where
  saddr : h.saddr = 0x01000000#32
  total : h.table.total = 25600
  free : ∀ b < 25600, IsFree h.table.entries b ↔ InSpans spans b
  inside : ∀ b, InSpans spans b → b < 25600
  ordered : SpansFrom 0 spans

section FreeSpans

variable {h h' : Heap} {spans spans' : List (ℕ × ℕ)}

/-- **A request that fits** is granted the first place. -/
theorem FreeSpans.kzalloc (hf : FreeSpans h spans) {size : BitVec 32} (hsize : 1 ≤ size.toNat)
    {a : ℕ} (htake : takeSpan (blocksFor size) spans = some (a, spans')) :
    a < 25600 ∧ ∃ h', h.kzalloc size = some (blockAddr a, h') ∧ FreeSpans h' spans' := by
  have hn := blocksFor_pos hsize
  have hspec := takeSpan_spec hn hf.ordered htake
  have hin : ∀ j < blocksFor size, InSpans spans (a + j) := fun j hj =>
    (hspec.free _).mpr (.inr ⟨by omega, by omega⟩)
  have hlast : a + blocksFor size ≤ 25600 := by
    have := hf.inside _ (hin (blocksFor size - 1) (by omega))
    omega
  have hblocks : heapTotalBlocks size = blocksFor size := by
    rw [heapTotalBlocks_eq, if_pos]
    unfold blocksFor at hlast
    omega
  have hrow : FreeBlocks h.table.entries a (blocksFor size) := fun j hj =>
    (hf.free (a + j) (by omega)).mpr (hin j hj)
  have hrun : HasFreeRun h.table.entries h.table.total (blocksFor size) :=
    ⟨a, by rw [hf.total]; exact hlast, hrow⟩
  refine ⟨by omega, ?_⟩
  have hout := heapMalloc_spec h size
  unfold Heap.kzalloc
  generalize heapMalloc h size = r at hout
  cases hout with
  | found b h' _ hfit hfree hleast hrw =>
    rw [hblocks] at hfit hfree hleast hrw
    rw [hf.total] at hfit
    -- the heap and the list agree on which run is the first
    obtain rfl : b = a := by
      refine le_antisymm (not_lt.mp fun hlt => hleast a hlt hrow) (hspec.first b fun j hj => ?_)
      exact (hf.free (b + j) (by omega)).mp (hfree j hj)
    have haddr := heapBlockToAddress_packed hf.saddr b
    refine ⟨h', ?_, hrw.saddr.trans hf.saddr, hrw.total.trans hf.total, fun i hi => ?_,
      fun i hi => hf.inside i ((hspec.free i).mpr (.inl hi)), hspec.ordered⟩
    · dsimp only
      rw [haddr, if_neg (blockAddr_ne_zero (by omega)), if_pos]
      exact (inArena_blockAddr_iff hf.saddr hf.total (by omega) size).mpr hlast
    · unfold IsFree
      rw [hrw.entries]
      by_cases hib : b ≤ i ∧ i < b + blocksFor size
      · rw [show (i : ℤ) = ((b + (i - b) : ℕ) : ℤ) from by omega, fill_inside (by omega)]
        exact iff_of_false (runEntry_type_ne _ _) (hspec.taken i hib.1 hib.2)
      · rw [fill_outside (by omega)]
        refine (hf.free i hi).trans ((hspec.free i).trans ?_)
        exact or_iff_left hib
  | tail b h' _ _ _ hno _ => exact absurd hrun (hblocks ▸ hno (hblocks ▸ hn))
  | fail hno _ => exact absurd hrun (hblocks ▸ hno (hblocks ▸ hn))

/-- An allocation of the kernel takes its blocks from the first span that is long enough. -/
theorem FreeSpans.kernel_kzalloc {k : Kernel} (hf : FreeSpans k.heap spans) {size : BitVec 32}
    (hsize : 1 ≤ size.toNat) {a : ℕ} (htake : takeSpan (blocksFor size) spans = some (a, spans')) :
    blockAddr a ≠ 0#32 ∧
      ∃ k', Model.kzalloc size k = some (blockAddr a, k') ∧ FreeSpans k'.heap spans' := by
  obtain ⟨ha, h', hz, hf'⟩ := hf.kzalloc hsize htake
  refine ⟨blockAddr_ne_zero ha, { k with
    heap := h'
    mem := if blockAddr a = 0#32 then k.mem else zeroFill k.mem (blockAddr a) size.toNat
    kallocs := blockAddr a :: k.kallocs }, ?_, hf'⟩
  unfold Model.kzalloc
  rw [hz]

/-- What an allocation delivers is where the first span was that is long enough. -/
theorem FreeSpans.eq_of_kzalloc (hf : FreeSpans h spans) {size : BitVec 32}
    (hsize : 1 ≤ size.toNat) {a : ℕ} (htake : takeSpan (blocksFor size) spans = some (a, spans'))
    {p : Addr} (hz : h.kzalloc size = some (p, h')) : p = blockAddr a ∧ FreeSpans h' spans' := by
  obtain ⟨-, h₁, hz₁, hf₁⟩ := hf.kzalloc hsize htake
  rw [hz₁] at hz
  cases hz
  exact ⟨rfl, hf₁⟩

/-- What is released joins the spans. -/
theorem FreeSpans.release (hf : FreeSpans h spans) {os rs : List (Addr × ℕ)}
    (ho : HeapOwns h (os ++ rs)) (ho' : HeapOwns h' rs) (hordered : SpansFrom 0 spans')
    (hfree : ∀ b, InSpans spans' b ↔ InSpans spans b ∨ ∃ r ∈ os, InRun r (4096 + b)) :
    FreeSpans h' spans' := by
  have hlt : ∀ b, (∃ r ∈ os, InRun r (4096 + b)) → b < 25600 := by
    rintro b ⟨r, hr, hin⟩
    have := ho.inside (List.mem_append_left _ hr)
    unfold InRun at hin
    omega
  refine ⟨ho'.saddr, ho'.total, fun b hb => ?_, fun b hb => ?_, hordered⟩
  · rw [hfree, ← hf.free b hb]
    constructor
    · intro hb'
      by_contra hno
      obtain ⟨-, r, hr, hin⟩ := ho.mem_liveBlocks.mp ⟨by rw [ho.total]; exact hb, fun hfr =>
        hno (.inl hfr)⟩
      rcases List.mem_append.mp hr with hr | hr
      · exact hno (.inr ⟨r, hr, hin⟩)
      · exact ho'.not_isFree hr hin hb'
    · rintro (hfr | ⟨r, hr, hin⟩)
      · exact ho'.isFree hb fun r hr hin => ho.not_isFree (List.mem_append_right _ hr) hin hfr
      · refine ho'.isFree hb fun r' hr' hin' => ?_
        exact (List.pairwise_append.mp ho.apart).2.2 r hr r' hr' _ hin hin'
  · rcases (hfree b).mp hb with hb | hb
    · exact hf.inside b hb
    · exact hlt b hb

theorem inRun_blockAddr {a n b : ℕ} (ha : a < 25600) :
    InRun (blockAddr a, n) (4096 + b) ↔ a ≤ b ∧ b < a + n := by
  unfold InRun
  rw [pageOf_blockAddr ha]
  omega

/-- **`kfree` of an allocation** puts its blocks back. -/
theorem FreeSpans.kfree {b n : ℕ} {rs : List (Addr × ℕ)} (hf : FreeSpans h spans)
    (ho : HeapOwns h ((blockAddr b, n) :: rs)) (hb : b < 25600) :
    FreeSpans (heapFree h (blockAddr b)) (giveSpan b n spans) := by
  have hn : 1 ≤ n := (ho.inside List.mem_cons_self).1
  have hrun : ∀ c, InRun (blockAddr b, n) (4096 + c) ↔ b ≤ c ∧ c < b + n := fun c =>
    inRun_blockAddr hb
  obtain ⟨hiff, hordered⟩ := giveSpan_spec hn (Nat.zero_le b) hf.ordered fun c hc hc' hin =>
    ho.not_isFree List.mem_cons_self ((hrun c).mpr ⟨hc, hc'⟩)
      ((hf.free c (hf.inside c hin)).mpr hin)
  refine @FreeSpans.release _ _ _ _ hf [(blockAddr b, n)] _ ho ho.kfree hordered fun c => ?_
  rw [hiff, ← hrun]
  simp

theorem Packed.freeSpans {s : ℕ} (hp : Packed h s) (hs : s < 25600) :
    FreeSpans h [(s, 25600 - s)] := by
  have hin : ∀ b, InSpans [(s, 25600 - s)] b ↔ s ≤ b ∧ b < 25600 := by
    intro b
    rw [inSpans_cons, or_iff_left (inSpans_nil b)]
    omega
  refine ⟨hp.saddr, hp.total, fun b hb => ?_, fun b hb => ((hin b).mp hb).2,
    Nat.zero_le s, by omega, trivial⟩
  rw [hin]
  by_cases hlt : b < s
  · exact iff_of_false (hp.taken b hlt) (by omega)
  · exact iff_of_true (hp.free b (by omega) hb) (by omega)

/-- The live allocations of the heap are `rs`, and the free blocks are those in the spans. -/
structure HeapAt (h : Heap) (rs : List (Addr × ℕ)) (spans : List (ℕ × ℕ)) : Prop where
  owns : HeapOwns h rs
  free : FreeSpans h spans

/-- **`kzalloc`** of a request that fits. -/
theorem HeapAt.kzalloc {k : Kernel} {rs : List (Addr × ℕ)} (h : HeapAt k.heap rs spans)
    (size : BitVec 32) (hsize : 1 ≤ size.toNat) {a n : ℕ} (hn : blocksFor size = n)
    (htake : takeSpan n spans = some (a, spans')) :
    a < 25600 ∧ blockAddr a ≠ 0#32 ∧ ∃ k', Model.kzalloc size k = some (blockAddr a, k') ∧
      HeapAt k'.heap ((blockAddr a, n) :: rs) spans' ∧ OnlyMemory k k' := by
  subst hn
  obtain ⟨hne, k', hz, hf⟩ := h.free.kernel_kzalloc hsize htake
  obtain ⟨hheap, -, -, honly⟩ := kzalloc_some hz
  have hown := ((h.owns.kzalloc hsize hheap).resolve_left fun h0 => hne h0.1).2
  exact ⟨(h.free.kzalloc hsize htake).1, hne, k', hz, ⟨hown, hf⟩, honly⟩

/-! ## Chunks -/

theorem takeSpan_head {a m n : ℕ} (h : n < m) :
    takeSpan n ((a, m) :: spans) = some (a, (a + n, m - n) :: spans) := by
  unfold takeSpan
  rw [if_neg (by omega), if_neg (by omega)]

/-- A request for one block takes the first block of the first span. -/
theorem FreeSpans.next {a m : ℕ} (hf : FreeSpans h ((a, m) :: spans)) (hm : 1 < m)
    {size : BitVec 32} (hone : blocksFor size = 1) (hsize : 1 ≤ size.toNat) {p : Addr}
    (hz : h.kzalloc size = some (p, h')) :
    p = blockAddr a ∧ FreeSpans h' ((a + 1, m - 1) :: spans) := by
  refine hf.eq_of_kzalloc hsize ?_ hz
  rw [hone]
  exact takeSpan_head hm

/-- Blocks taken one after the other are consecutive as long as the first span lasts. -/
theorem FreeSpans.allocChain {size : BitVec 32} (hone : blocksFor size = 1)
    (hsize : 1 ≤ size.toNat) : ∀ (ps : List Addr) {h h' : Heap} {a m : ℕ},
      FreeSpans h ((a, m) :: spans) → ps.length < m → AllocChain size h ps h' →
      ps = (List.range' a ps.length).map blockAddr ∧
        FreeSpans h' ((a + ps.length, m - ps.length) :: spans) := by
  intro ps
  induction ps with
  | nil =>
    intro h h' a m hf _ hchain
    obtain rfl : h = h' := hchain
    exact ⟨rfl, hf⟩
  | cons p ps ih =>
    intro h h' a m hf hlen hchain
    obtain ⟨h₁, hz, -, hrest⟩ := hchain
    rw [List.length_cons] at hlen
    obtain ⟨rfl, hf₁⟩ := hf.next (by omega) hone hsize hz
    obtain ⟨hps, hf₂⟩ := ih hf₁ (by omega) hrest
    rw [List.length_cons]
    refine ⟨?_, ?_⟩
    · rw [List.range'_succ, List.map_cons, ← hps]
    · rw [show a + (ps.length + 1) = a + 1 + ps.length from by omega,
        show m - (ps.length + 1) = m - 1 - ps.length from by omega]
      exact hf₂

/-- The shape of a chunk whose blocks are consecutive: the directory is the first of them. -/
def rowShape (a : ℕ) : ChunkShape := ⟨blockAddr a, fun i => blockAddr (a + 1 + i)⟩

/-- **A chunk** that fits in the first span lies there in one row. -/
theorem FreeSpans.chunkTaken {a m : ℕ} {chunk : Addr} {shape : ChunkShape}
    (hf : FreeSpans h ((a, m) :: spans)) (hm : 1026 < m) (ht : ChunkTaken h chunk shape h') :
    chunk = blockAddr (a + 1025) ∧ shape.dir = blockAddr a ∧
      (∀ i < 1024, shape.tables i = blockAddr (a + 1 + i)) ∧
      FreeSpans h' ((a + 1026, m - 1026) :: spans) := by
  obtain ⟨h₁, ts, h₂, hd, hts, hchain, hc⟩ := ht
  obtain ⟨hdir, hf₁⟩ := hf.next (by omega) (by rfl) (by decide) hd
  have hlen : ts.length = 1024 := by simp [hts]
  obtain ⟨hrow, hf₂⟩ := FreeSpans.allocChain (by rfl) (by decide) ts hf₁ (by omega) hchain
  obtain ⟨hchunk, hf₃⟩ := hf₂.next (by omega) (by rfl) (by decide) hc
  rw [hlen] at hrow hchunk hf₃
  refine ⟨?_, hdir, fun i hi => ?_, ?_⟩
  · rw [hchunk, show a + 1 + 1024 = a + 1025 from by omega]
  · have hget : ts[i]? = ((List.range' (a + 1) 1024).map blockAddr)[i]? := by rw [← hrow]
    rw [hts] at hget
    simpa [hi] using hget
  · rw [show a + 1026 = a + 1 + 1024 + 1 from by omega,
      show m - 1026 = m - 1 - 1024 - 1 from by omega]
    exact hf₃

/-- There is room for a chunk in a span that is long enough. -/
theorem FreeSpans.card_le {a m : ℕ} (hf : FreeSpans h ((a, m) :: spans)) :
    m ≤ (freeBlocks h).card := by
  have hsub : Finset.Ico a (a + m) ⊆ freeBlocks h := by
    intro b hb
    have hin : InSpans ((a, m) :: spans) b :=
      (inSpans_cons _ _ _ _).mpr (.inl (Finset.mem_Ico.mp hb))
    have hlt := hf.inside b hin
    refine Finset.mem_filter.mpr ⟨Finset.mem_range.mpr (by rw [hf.total]; exact hlt), ?_⟩
    exact (hf.free b hlt).mpr hin
  have := Finset.card_le_card hsub
  rwa [Nat.card_Ico, Nat.add_sub_cancel_left] at this

end FreeSpans

/-! ## The traffic of the file layer -/

/-- The allocation of `n` blocks from block `b` on. -/
def spanRun (b : ℕ × ℕ) : Addr × ℕ := (blockAddr b.1, b.2)

/-- What a call of the file layer does to the blocks it holds and to the free spans. -/
def spanAct (s : List (ℕ × ℕ) × List (ℕ × ℕ)) : Table.HeapAct → Option (List (ℕ × ℕ) × List (ℕ × ℕ))
  | .take size _ => (takeSpan (blocksFor size) s.2).map fun r => ((r.1, blocksFor size) :: s.1, r.2)
  | .takeNothing => none
  | .give i => s.1[i]?.map fun b => (s.1.eraseIdx i, giveSpan b.1 b.2 s.2)

/-- One call after the other. -/
def spanActs (s : List (ℕ × ℕ) × List (ℕ × ℕ)) (acts : List Table.HeapAct) :
    Option (List (ℕ × ℕ) × List (ℕ × ℕ)) :=
  acts.foldlM spanAct s

/-- The file layer holds these blocks, and the free blocks are those. -/
structure SpanState (h : Heap) (rs : List (Addr × ℕ)) (s : List (ℕ × ℕ) × List (ℕ × ℕ)) : Prop where
  owns : HeapOwns h (s.1.map spanRun ++ rs)
  free : FreeSpans h s.2
  inside : ∀ b ∈ s.1, b.1 < 25600

/-- One call of the file layer. -/
theorem SpanState.act {k : Kernel} {rs : List (Addr × ℕ)} {s s' : List (ℕ × ℕ) × List (ℕ × ℕ)}
    {act : Table.HeapAct} (h : SpanState k.heap rs s) (hact : spanAct s act = some s') :
    ∃ k', Table.heapAct (s.1.map fun b => blockAddr b.1) act k =
      some (s'.1.map fun b => blockAddr b.1, k') ∧ SpanState k'.heap rs s' := by
  cases act with
  | take size hsize =>
    obtain ⟨⟨a, spans⟩, htake, rfl⟩ := Option.map_eq_some_iff.mp hact
    have hpos := one_le_of_ne_zero hsize
    obtain ⟨ha, hne, k', hz, hat, -⟩ := HeapAt.kzalloc ⟨h.owns, h.free⟩ size hpos rfl htake
    refine ⟨k', prog_bind.mpr ⟨_, k', hz, ?_⟩, hat.owns, hat.free, fun b hb => ?_⟩
    · rw [if_neg hne]
      rfl
    · rcases List.mem_cons.mp hb with rfl | hb
      · exact ha
      · exact h.inside b hb
  | takeNothing => cases hact
  | give i =>
    obtain ⟨⟨b, n⟩, hget, rfl⟩ := Option.map_eq_some_iff.mp hact
    obtain ⟨hi, hb⟩ := List.getElem?_eq_some_iff.mp hget
    have hmem : (b, n) ∈ s.1 := hb ▸ List.getElem_mem hi
    have hperm : (s.1.map spanRun ++ rs).Perm
        ((blockAddr b, n) :: ((s.1.eraseIdx i).map spanRun ++ rs)) := by
      rw [← List.cons_append, ← show spanRun (b, n) = (blockAddr b, n) from rfl, ← List.map_cons,
        ← hb]
      exact ((List.getElem_cons_eraseIdx_perm hi).symm.map spanRun).append_right rs
    have hown := h.owns.perm hperm
    have haddr : (s.1.map fun b => blockAddr b.1)[i]? = some (blockAddr b) := by
      rw [List.getElem?_map, hget]
      rfl
    refine ⟨{ k with
      heap := heapFree k.heap (blockAddr b)
      kfrees := blockAddr b :: k.kfrees }, ?_, hown.kfree, h.free.kfree hown (h.inside _ hmem),
      fun c hc => h.inside c (List.mem_of_mem_eraseIdx hc)⟩
    simp only [Table.heapAct, haddr]
    refine prog_bind.mpr ⟨_, _, rfl, ?_⟩
    rw [← List.eraseIdx_map]
    rfl

/-- **Any traffic** of the file layer that has room. -/
theorem SpanState.acts {rs : List (Addr × ℕ)} : ∀ (acts : List Table.HeapAct) {k : Kernel}
    {s s' : List (ℕ × ℕ) × List (ℕ × ℕ)}, SpanState k.heap rs s → spanActs s acts = some s' →
      ∃ k', Table.heapActs (s.1.map fun b => blockAddr b.1) acts k =
        some (s'.1.map fun b => blockAddr b.1, k') ∧ SpanState k'.heap rs s' := by
  intro acts
  induction acts with
  | nil =>
    intro k s s' h hacts
    cases hacts
    exact ⟨k, rfl, h⟩
  | cons act acts ih =>
    intro k s s' h hacts
    unfold spanActs at hacts
    rw [List.foldlM_cons] at hacts
    obtain ⟨s₁, hact, hrest⟩ := Option.bind_eq_some_iff.mp hacts
    obtain ⟨k₁, hrun, h₁⟩ := h.act hact
    obtain ⟨k₂, hrun₂, h₂⟩ := ih h₁ hrest
    refine ⟨k₂, ?_, h₂⟩
    unfold Table.heapActs
    rw [List.foldlM_cons]
    exact prog_bind.mpr ⟨_, k₁, hrun, hrun₂⟩

end MaerOS.Analysis
