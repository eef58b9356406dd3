import MaerOS.Analysis.FirstFit

/-!
# The kernel heap is a first-fit pool

Seen from outside, the kernel heap is a pool of 25600 blocks that are handed out in rows:
a request gets the lowest row of free blocks that is long enough, and a row that is
returned joins its neighbours. `Pool` says so with a list of free spans, without entries,
flags or scans. Every run of requests and returns on the heap that `kheap_init` sets up
has the answers of the pool, also where it goes wrong: a request that does not fit is
refused only while the last block is taken, otherwise the scan settles for the free
blocks at the end and the fill leaves the arena. As the free spans have one description
only, a heap to which everything was returned cannot be told from a new one.
-/

set_option autoImplicit false

namespace MaerOS.Analysis

open MaerOS.Lib MaerOS.Model

/-! ## The heap and the pool -/

/-- What the kernel asks of its heap. -/
inductive KheapOp where
  | kzalloc (size : BitVec 32)
  | kfree (ptr : Addr)

/-- The pointers that a run of requests gets, and the heap it leaves. -/
def kheapRun : List KheapOp → Heap → Option (List Addr × Heap)
  | [], h => some ([], h)
  | .kzalloc size :: ops, h =>
    (h.kzalloc size).bind fun r => (kheapRun ops r.2).map fun s => (r.1 :: s.1, s.2)
  | .kfree ptr :: ops, h => kheapRun ops (heapFree h ptr)

/-- The rows that are handed out, and the free spans. -/
structure Pool where
  live : List (ℕ × ℕ)
  spans : List (ℕ × ℕ)

/-- Nothing is handed out. -/
def Pool.fresh : Pool := ⟨[], [(0, 25600)]⟩

/-- A request for `n` blocks: the first row, or nothing. It goes wrong where the pool ends in free
blocks, but not in enough of them. The request for no block is answered with the free end of the
pool, which stays free. -/
def Pool.request (p : Pool) (n : ℕ) : Option (Option ℕ × Pool) :=
  if n = 0 then some (tailSpan 25600 p.spans, p)
  else
    match takeSpan n p.spans, tailSpan 25600 p.spans with
    | some (a, spans), _ => some (some a, ⟨(a, n) :: p.live, spans⟩)
    | none, none => some (none, p)
    | none, some _ => none

/-- The address of a row, null for none. -/
def rowAddr (a : Option ℕ) : Addr := (a.map blockAddr).getD 0#32

/-- The row at the address is returned. -/
def Pool.return (p : Pool) (ptr : Addr) : Pool :=
  match p.live.find? fun b => blockAddr b.1 = ptr with
  | none => p
  | some b => ⟨p.live.erase b, giveSpan b.1 b.2 p.spans⟩

/-- The same run on the pool. -/
def Pool.run : List KheapOp → Pool → Option (List Addr × Pool)
  | [], p => some ([], p)
  | .kzalloc size :: ops, p =>
    (p.request (blocksFor size)).bind fun r =>
      (Pool.run ops r.2).map fun s => (rowAddr r.1 :: s.1, s.2)
  | .kfree ptr :: ops, p => Pool.run ops (p.return ptr)

/-- Only what is handed out is returned. -/
def Pool.FreesLive : List KheapOp → Pool → Prop
  | [], _ => True
  | .kzalloc size :: ops, p => ∀ r ∈ p.request (blocksFor size), Pool.FreesLive ops r.2
  | .kfree ptr :: ops, p => (∃ b ∈ p.live, blockAddr b.1 = ptr) ∧ Pool.FreesLive ops (p.return ptr)

/-- The heap stands where the pool stands. -/
structure KheapAt (h : Heap) (p : Pool) : Prop where
  owns : HeapOwns h (p.live.map spanRun)
  free : FreeSpans h p.spans
  inside : ∀ b ∈ p.live, b.1 < 25600

/-! ## The end of the heap -/

section Steps

variable {h : Heap} {p : Pool} {spans : List (ℕ × ℕ)}

/-- The scan has settled for the free blocks at the end. -/
theorem FreeSpans.tail_some (hf : FreeSpans h spans) {b : ℕ} (hin : b < h.table.total)
    (hfree : FreeBlocks h.table.entries b (h.table.total - b))
    (hbefore : b = 0 ∨ ¬ IsFree h.table.entries (b - 1)) : tailSpan 25600 spans = some b := by
  rw [hf.total] at hin hfree
  refine tailSpan_eq_some hf.ordered hf.inside hin (fun i hbi hi => ?_) (fun i hib hspan => ?_)
  · refine (hf.free i hi).mp ?_
    have := hfree (i - b) (by omega)
    rwa [Nat.add_sub_cancel' hbi] at this
  · rcases hbefore with hzero | htaken
    · omega
    · refine htaken ?_
      rw [show b - 1 = i from by omega]
      exact (hf.free i (by omega)).mpr hspan

/-- The last block is taken. -/
theorem FreeSpans.tail_none (hf : FreeSpans h spans)
    (hlast : LastTaken h.table.entries h.table.total) : tailSpan 25600 spans = none := by
  rw [hf.total] at hlast
  refine tailSpan_eq_none hf.ordered fun hspan => ?_
  rcases hlast with hzero | htaken
  · omega
  · exact htaken ((hf.free (25600 - 1) (by omega)).mpr hspan)

/-- A row of free blocks would have been found in the spans. -/
theorem FreeSpans.not_freeRun (hf : FreeSpans h spans) {n : ℕ} (hn : 1 ≤ n)
    (htake : takeSpan n spans = none) : ¬ HasFreeRun h.table.entries h.table.total n := by
  rintro ⟨s, hs, hfree⟩
  rw [hf.total] at hs
  exact takeSpan_none hn hf.ordered htake ⟨s, fun j hj => (hf.free (s + j) (by omega)).mp
    (hfree j hj)⟩

/-! ## One request, one return -/

/-- What a request of the heap answers, beside the pool's answer. -/
abbrev SameAnswer (r : Addr × Heap) (s : Option ℕ × Pool) : Prop :=
  r.1 = rowAddr s.1 ∧ KheapAt r.2 s.2

/-- A heap with the same entries stands where this one stands. -/
theorem KheapAt.of_entries (hat : KheapAt h p) {h' : Heap} (hs : h'.saddr = h.saddr)
    (ht : h'.table.total = h.table.total) (he : h'.table.entries = h.table.entries) :
    KheapAt h' p := by
  refine ⟨hat.owns.of_entries hs ht he, ⟨hs.trans hat.free.saddr, ht.trans hat.free.total,
    fun b hb => ?_, hat.free.inside, hat.free.ordered⟩, hat.inside⟩
  rw [he]
  exact hat.free.free b hb

/-- The request for no bytes. -/
theorem KheapAt.kzalloc_nothing (hat : KheapAt h p) :
    Option.Rel SameAnswer (h.kzalloc 0#32) (p.request 0) := by
  have hzero : heapTotalBlocks 0#32 = 0 := by decide
  have htotal := hat.free.total
  have hout := heapMalloc_spec h 0#32
  unfold Pool.request
  rw [if_pos rfl]
  unfold Heap.kzalloc
  generalize heapMalloc h 0#32 = r at hout
  cases hout with
  | found b h₁ hn => exact absurd hn (by omega)
  | tail b h₁ hin hfree hbefore hno hrw =>
    have hsame : h₁.table.entries = h.table.entries := by
      rw [hrw.entries, hzero]
      funext i
      exact fill_outside (by omega)
    have haddr := heapBlockToAddress_packed hat.free.saddr b
    dsimp only
    rw [hat.free.tail_some hin hfree hbefore, haddr, if_neg (blockAddr_ne_zero (by omega)), if_pos]
    · exact .some ⟨rfl, hat.of_entries hrw.saddr hrw.total hsame⟩
    · refine (inArena_blockAddr_iff hat.free.saddr htotal (by omega) 0#32).mpr ?_
      have : blocksFor 0#32 = 0 := by decide
      omega
  | fail hno hlast =>
    dsimp only
    rw [if_pos rfl, hat.free.tail_none hlast]
    exact .some ⟨rfl, hat⟩

/-- A request that fits. -/
theorem KheapAt.kzalloc_fits (hat : KheapAt h p) {size : BitVec 32} (hsize : 1 ≤ size.toNat) {a : ℕ}
    {spans' : List (ℕ × ℕ)} (htake : takeSpan (blocksFor size) p.spans = some (a, spans')) :
    ∃ h', h.kzalloc size = some (blockAddr a, h') ∧
      KheapAt h' ⟨(a, blocksFor size) :: p.live, spans'⟩ := by
  obtain ⟨ha, h', hz, hfree⟩ := hat.free.kzalloc hsize htake
  refine ⟨h', hz, ?_, hfree, fun b hb => ?_⟩
  · rcases hat.owns.kzalloc hsize hz with ⟨hnull, -⟩ | ⟨-, howns⟩
    · exact absurd hnull (blockAddr_ne_zero ha)
    · exact howns
  · rcases List.mem_cons.mp hb with rfl | hb
    · exact ha
    · exact hat.inside b hb

/-- A request that does not fit is refused, or goes wrong at the end of the heap. -/
theorem KheapAt.kzalloc_refused (hat : KheapAt h p) {size : BitVec 32} (hsize : 1 ≤ size.toNat)
    (htake : takeSpan (blocksFor size) p.spans = none) :
    (h.kzalloc size = some (0#32, h) ∧ tailSpan 25600 p.spans = none) ∨
      (h.kzalloc size = none ∧ ∃ a, tailSpan 25600 p.spans = some a) := by
  have hno := hat.free.not_freeRun (blocksFor_pos hsize) htake
  have htotal := hat.free.total
  have hout := heapMalloc_spec h size
  unfold Heap.kzalloc
  generalize heapMalloc h size = r at hout
  cases hout with
  | found b h₁ hn hin hfree _ _ =>
    rw [(heapTotalBlocks_pos hn).1] at hin hfree
    exact absurd ⟨b, hin, hfree⟩ hno
  | tail b h₁ hin hfree hbefore _ _ =>
    refine .inr ⟨?_, b, hat.free.tail_some hin hfree hbefore⟩
    dsimp only
    rw [heapBlockToAddress_packed hat.free.saddr, if_neg (blockAddr_ne_zero (by omega)), if_neg]
    rw [inArena_blockAddr_iff hat.free.saddr htotal (by omega)]
    intro hend
    -- the row that the fill needs would be free
    exact hno ⟨b, by omega, fun j hj => hfree j (by omega)⟩
  | fail _ hlast =>
    refine .inl ⟨?_, hat.free.tail_none hlast⟩
    dsimp only
    rw [if_pos rfl]

/-- **One request**: the heap answers as the pool does, or both go wrong. -/
theorem KheapAt.kzalloc (hat : KheapAt h p) (size : BitVec 32) :
    Option.Rel SameAnswer (h.kzalloc size) (p.request (blocksFor size)) := by
  by_cases hsize : size.toNat = 0
  · obtain rfl : size = 0#32 := BitVec.eq_of_toNat_eq hsize
    exact hat.kzalloc_nothing
  replace hsize : 1 ≤ size.toNat := by omega
  have hpos := blocksFor_pos hsize
  unfold Pool.request
  rw [if_neg (by omega)]
  cases htake : takeSpan (blocksFor size) p.spans with
  | some r =>
    obtain ⟨a, spans'⟩ := r
    obtain ⟨h', hz, hat'⟩ := hat.kzalloc_fits hsize htake
    rw [hz]
    exact .some ⟨rfl, hat'⟩
  | none =>
    rcases hat.kzalloc_refused hsize htake with ⟨hz, htail⟩ | ⟨hz, a, htail⟩
    · rw [hz, htail]
      exact .some ⟨rfl, hat⟩
    · rw [hz, htail]
      exact .none

/-- **One return** of a row that is handed out. -/
theorem KheapAt.kfree (hat : KheapAt h p) {ptr : Addr} (hlive : ∃ b ∈ p.live, blockAddr b.1 = ptr) :
    KheapAt (heapFree h ptr) (p.return ptr) := by
  obtain ⟨b₀, hb₀, hptr₀⟩ := hlive
  unfold Pool.return
  cases hfind : p.live.find? fun b => blockAddr b.1 = ptr with
  | none => exact absurd hptr₀ (by simpa using List.find?_eq_none.mp hfind b₀ hb₀)
  | some b =>
    have hmem := List.mem_of_find?_eq_some hfind
    obtain rfl : blockAddr b.1 = ptr := by simpa using List.find?_some hfind
    have howns : HeapOwns h ((blockAddr b.1, b.2) :: (p.live.erase b).map spanRun) :=
      hat.owns.perm ((List.perm_cons_erase hmem).map spanRun)
    exact ⟨howns.kfree, hat.free.kfree howns (hat.inside b hmem),
      fun c hc => hat.inside c (List.mem_of_mem_erase hc)⟩

end Steps

/-! ## Runs -/

/-- The answers are those of the pool, and the heap ends where the pool ends. -/
abbrev SameRun (r : List Addr × Heap) (s : List Addr × Pool) : Prop :=
  r.1 = s.1 ∧ KheapAt r.2 s.2

/-- **A run of requests and releases** in the heap is the run in its pool. -/
theorem KheapAt.run : ∀ (ops : List KheapOp) {h : Heap} {p : Pool}, KheapAt h p →
    Pool.FreesLive ops p → Option.Rel SameRun (kheapRun ops h) (Pool.run ops p)
  | [], _, _, hat, _ => .some ⟨rfl, hat⟩
  | .kzalloc size :: ops, h, p, hat, hlive => by
    have hstep := hat.kzalloc size
    unfold kheapRun Pool.run
    unfold Pool.FreesLive at hlive
    generalize h.kzalloc size = x at hstep
    generalize p.request (blocksFor size) = y at hstep hlive
    cases hstep with
    | none => exact .none
    | @some r s hsame =>
      have ih := KheapAt.run ops hsame.2 (hlive s rfl)
      rw [Option.bind_some, Option.bind_some, hsame.1]
      generalize kheapRun ops r.2 = x at ih
      generalize Pool.run ops s.2 = y at ih
      cases ih with
      | none => exact .none
      | some hrest => exact .some ⟨congrArg (rowAddr s.1 :: ·) hrest.1, hrest.2⟩
  | .kfree ptr :: ops, h, p, hat, hlive => by
    unfold kheapRun Pool.run
    exact KheapAt.run ops (hat.kfree hlive.1) hlive.2

/-- The heap that `kheap_init` sets up stands where the fresh pool stands. -/
theorem kheapAt_kheapInit (kernel_heap : Heap) {entries : ℤ → HeapBlockTableEntry}
    (hsig : entries (-2) = 0x55#8) : KheapAt (kheapInit kernel_heap entries).2 .fresh := by
  have howns := heapOwns_kheapInit kernel_heap hsig
  have hspan : ∀ b, InSpans [(0, 25600)] b ↔ b < 25600 := by
    intro b
    rw [inSpans_cons, Nat.zero_add]
    exact ⟨fun hb => (hb.resolve_right (inSpans_nil b)).2, fun hb => .inl ⟨Nat.zero_le b, hb⟩⟩
  refine ⟨howns, ⟨howns.saddr, howns.total, fun b hb => ?_, fun b hb => (hspan b).mp hb,
    by decide, by decide, trivial⟩, by simp [Pool.fresh]⟩
  exact iff_of_true (howns.isFree hb (by simp)) ((hspan b).mpr hb)

/-- **The kernel heap refines the first-fit pool.** Whatever the kernel asks for, in any order, as
long as it returns only what was handed out and not yet returned: the pointers are those that the
pool answers, and a run on the heap goes wrong exactly where it does on the pool. -/
theorem kheap_run_first_fit (kernel_heap : Heap) (entries : ℤ → HeapBlockTableEntry)
    (hsig : entries (-2) = 0x55#8) (ops : List KheapOp) (hlive : Pool.FreesLive ops .fresh) :
    Option.Rel SameRun (kheapRun ops (kheapInit kernel_heap entries).2) (Pool.run ops .fresh) :=
  (kheapAt_kheapInit kernel_heap hsig).run ops hlive

/-- A request that is shorter than the first span. -/
theorem Pool.request_head {live spans : List (ℕ × ℕ)} {a m n : ℕ} (hn : 1 ≤ n) (hlt : n < m) :
    Pool.request ⟨live, (a, m) :: spans⟩ n =
      some (some a, ⟨(a, n) :: live, (a + n, m - n) :: spans⟩) := by
  unfold Pool.request
  rw [if_neg (by omega)]
  dsimp only
  rw [takeSpan_head hlt]

/-- Two rows, the first of them returned and taken again in part. -/
def rowTraffic : List KheapOp :=
  [.kzalloc 5000#32, .kzalloc 4096#32, .kfree 0x01000000#32, .kzalloc 1#32, .kfree 0x01000000#32,
    .kfree 0x01002000#32]

/-- The pool goes through the traffic and ends as it began. -/
theorem pool_rowTraffic : Pool.FreesLive rowTraffic .fresh ∧
    Pool.run rowTraffic .fresh =
      some ([0x01000000#32, 0x01002000#32, 0x01000000#32], .fresh) := by
  have hfirst : Pool.fresh.request (blocksFor 5000#32) = some (some 0, ⟨[(0, 2)], [(2, 25598)]⟩) :=
    Pool.request_head (by decide) (by decide)
  have hsecond : Pool.request ⟨[(0, 2)], [(2, 25598)]⟩ (blocksFor 4096#32) =
      some (some 2, ⟨[(2, 1), (0, 2)], [(3, 25597)]⟩) :=
    Pool.request_head (by decide) (by decide)
  have hreturn : Pool.return ⟨[(2, 1), (0, 2)], [(3, 25597)]⟩ 0x01000000#32 =
      ⟨[(2, 1)], [(0, 2), (3, 25597)]⟩ := rfl
  have hagain : Pool.request ⟨[(2, 1)], [(0, 2), (3, 25597)]⟩ (blocksFor 1#32) =
      some (some 0, ⟨[(0, 1), (2, 1)], [(1, 1), (3, 25597)]⟩) :=
    Pool.request_head (by decide) (by decide)
  unfold rowTraffic
  constructor
  · simp only [Pool.FreesLive, hfirst, hsecond, hreturn, hagain, Option.mem_some_iff, forall_eq']
    exact ⟨⟨(0, 2), by decide, rfl⟩, ⟨(0, 1), by decide, rfl⟩, ⟨(2, 1), by decide, rfl⟩, trivial⟩
  · simp only [Pool.run, hfirst, hsecond, hreturn, hagain, Option.bind_some]
    rfl

/-- The row of the example takes the place of the first request again. -/
theorem kheap_run_first_fit_rowTraffic : ∃ h,
    kheapRun rowTraffic bootKernel.heap =
      some ([0x01000000#32, 0x01002000#32, 0x01000000#32], h) ∧ KheapAt h .fresh := by
  have hrel : Option.Rel SameRun (kheapRun rowTraffic bootKernel.heap) (Pool.run rowTraffic .fresh) :=
    kheap_run_first_fit ⟨⟨fun _ => 0#8, 0⟩, 0#32, []⟩ bootBytes rfl rowTraffic pool_rowTraffic.1
  rw [pool_rowTraffic.2] at hrel
  generalize kheapRun rowTraffic bootKernel.heap = x at hrel
  cases hrel with
  | @some r _ hsame =>
    obtain ⟨ps, h⟩ := r
    obtain ⟨rfl, hat⟩ := hsame
    exact ⟨h, rfl, hat⟩

/-! ## A heap to which everything was returned -/

/-- Nothing is handed out, so the pool is the fresh one. -/
theorem KheapAt.eq_fresh {h : Heap} {p : Pool} (hat : KheapAt h p) (hempty : p.live = []) :
    p = .fresh := by
  obtain ⟨live, spans⟩ := p
  obtain rfl : live = [] := hempty
  have hspans : spans = [(0, 25600)] := by
    refine hat.free.ordered.ext ⟨by decide, by decide, trivial⟩ fun b => ?_
    rw [inSpans_cons, Nat.zero_add]
    constructor
    · exact fun hb => .inl ⟨Nat.zero_le b, hat.free.inside b hb⟩
    · intro hb
      have hlt := (hb.resolve_right (inSpans_nil b)).2
      exact (hat.free.free b hlt).mp (hat.owns.isFree hlt (by simp))
  rw [hspans]
  rfl

/-- **A heap to which everything was returned is as good as new**: all its blocks are free, in one
piece, and no further run of requests can tell it from the heap that `kheap_init` set up. -/
theorem emptied_kheap_as_new (kernel_heap : Heap) (entries : ℤ → HeapBlockTableEntry)
    (hsig : entries (-2) = 0x55#8) (ops : List KheapOp) (hlive : Pool.FreesLive ops .fresh)
    {ps : List Addr} {p : Pool} (hrun : Pool.run ops .fresh = some (ps, p)) (hempty : p.live = []) :
    ∃ h, kheapRun ops (kheapInit kernel_heap entries).2 = some (ps, h) ∧
      (∀ i < 25600, h.table.entries ((i : ℕ) : ℤ) = heapBlockTableEntryFree) ∧
      ∀ ops', Pool.FreesLive ops' .fresh →
        (kheapRun ops' h).map Prod.fst =
          (kheapRun ops' (kheapInit kernel_heap entries).2).map Prod.fst := by
  have hinit := kheapAt_kheapInit kernel_heap hsig
  have hrel := hinit.run ops hlive
  rw [hrun] at hrel
  generalize kheapRun ops (kheapInit kernel_heap entries).2 = x at hrel
  cases hrel with
  | @some r _ hsame =>
    obtain ⟨qs, h⟩ := r
    obtain ⟨rfl, hat⟩ := hsame
    have hfresh : KheapAt h .fresh := hat.eq_fresh hempty ▸ hat
    refine ⟨h, rfl, fun i hi => ?_, fun ops' hlive' => ?_⟩
    · exact hfresh.owns.layout.rest i (by rw [hfresh.owns.total]; exact hi) (by simp [Pool.fresh])
    · -- both heaps answer as the fresh pool does
      have hnew := hinit.run ops' hlive'
      have hold := hfresh.run ops' hlive'
      generalize kheapRun ops' h = x at hold
      generalize kheapRun ops' (kheapInit kernel_heap entries).2 = y at hnew
      generalize Pool.run ops' .fresh = z at hold hnew
      cases hold with
      | none =>
        cases hnew
        rfl
      | some hsame =>
        cases hnew with
        | some hsame' => exact congrArg some (hsame.1.trans hsame'.1.symm)

/-- The emptied heap serves the row of the example as a new one does. -/
theorem emptied_kheap_as_new_rowTraffic : ∃ h,
    kheapRun rowTraffic bootKernel.heap =
      some ([0x01000000#32, 0x01002000#32, 0x01000000#32], h) ∧
      (kheapRun rowTraffic h).map Prod.fst = (kheapRun rowTraffic bootKernel.heap).map Prod.fst := by
  obtain ⟨h, hrun, -, hnew⟩ := emptied_kheap_as_new ⟨⟨fun _ => 0#8, 0⟩, 0#32, []⟩ bootBytes rfl
    rowTraffic pool_rowTraffic.1 pool_rowTraffic.2 rfl
  exact ⟨h, hrun, hnew rowTraffic pool_rowTraffic.1⟩

end MaerOS.Analysis
