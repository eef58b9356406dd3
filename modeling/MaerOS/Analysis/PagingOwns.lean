import MaerOS.Analysis.HeapOwns

/-!
# Chunks as owners of heap blocks

A chunk owns 1026 blocks: itself, its directory and its tables. `paging_new_4gb`
takes them from the heap and `paging_free_4gb` gives exactly these back, provided
the tables still lie where the directory says, which is what `ChunkAt` keeps.
-/

set_option autoImplicit false

namespace MaerOS.Analysis

open MaerOS.Lib MaerOS.Model

/-- The blocks of a chunk. -/
def chunkRuns (chunk : Addr) (shape : ChunkShape) : List (Addr × ℕ) :=
  (List.range 1024).map (fun i => (shape.tables i, 1)) ++ [(shape.dir, 1), (chunk, 1)]

/-- The pages a chunk occupies are those of its blocks. -/
theorem ChunkShape.Occupies.inRun {chunk : Addr} {shape : ChunkShape} {q : ℕ}
    (h : shape.Occupies chunk q) : ∃ r ∈ chunkRuns chunk shape, InRun r q := by
  unfold chunkRuns InRun
  rcases h with rfl | rfl | ⟨i, hi, rfl⟩
  · exact ⟨(chunk, 1), by simp, le_rfl, by simp⟩
  · exact ⟨(shape.dir, 1), by simp, le_rfl, by simp⟩
  · exact ⟨(shape.tables i, 1),
      List.mem_append_left _ (List.mem_map.mpr ⟨i, List.mem_range.mpr hi, rfl⟩), le_rfl, by simp⟩

/-- The two memories agree on the pages of the allocations `rs`. -/
def AgreeOnRuns (m m' : Memory) (rs : List (Addr × ℕ)) : Prop :=
  ∀ r ∈ rs, ∀ q, InRun r q → AgreeOnPage m m' q

/-- One after the other. -/
theorem AgreeOnRuns.trans {m₁ m₂ m₃ : Memory} {rs : List (Addr × ℕ)} (h : AgreeOnRuns m₁ m₂ rs)
    (h' : AgreeOnRuns m₂ m₃ rs) : AgreeOnRuns m₁ m₃ rs := by
  intro r hr q hq x hx
  rw [h' r hr q hq x hx, h r hr q hq x hx]

/-- Fewer runs agree as well. -/
theorem AgreeOnRuns.subset {m m' : Memory} {rs rs' : List (Addr × ℕ)} (h : AgreeOnRuns m m' rs)
    (hs : ∀ r ∈ rs', r ∈ rs) : AgreeOnRuns m m' rs' := fun r hr => h r (hs r hr)

/-- A chunk stays where its runs are left alone. -/
theorem ChunkAt.of_agree {m m' : Memory} {chunk : Addr} {shape : ChunkShape}
    {pm : ℕ → BitVec 32} (h : ChunkAt m chunk shape pm)
    (hagree : AgreeOnRuns m m' (chunkRuns chunk shape)) : ChunkAt m' chunk shape pm := by
  refine h.frame fun q hq => ?_
  obtain ⟨r, hr, hin⟩ := hq.inRun
  exact hagree r hr q hin

/-- What lies in another allocation does not lie in the first `size` bytes of this one. -/
theorem HeapOwns.far {h : Heap} {p : Addr} {size : BitVec 32} {rs : List (Addr × ℕ)}
    (ho : HeapOwns h ((p, blocksFor size) :: rs)) {r : Addr × ℕ} (hr : r ∈ rs) {x : Addr}
    (hx : InRun r (pageOf x)) : size.toNat ≤ (x - p).toNat := by
  by_contra hlt
  have halign : p.toNat % 4096 = 0 := ho.aligned _ List.mem_cons_self
  have hin : 1 ≤ blocksFor size ∧ pageOf p + blocksFor size ≤ 29696 :=
    ho.inside List.mem_cons_self
  have hxp : x.toNat = p.toNat + (x - p).toNat := by
    unfold blocksFor pageOf at hin
    have := x.isLt
    have := p.isLt
    rw [BitVec.toNat_sub] at hlt ⊢
    omega
  refine ho.apart_cons hr (q := pageOf x) ⟨?_, ?_⟩ hx
  · show pageOf p ≤ pageOf x
    unfold pageOf
    omega
  · show pageOf x < pageOf p + blocksFor size
    unfold blocksFor pageOf
    omega

/-- A fresh allocation is filled without touching the others. -/
theorem agreeOnRuns_kzalloc {k k' : Kernel} {size : BitVec 32} {p : Addr}
    (hz : Model.kzalloc size k = some (p, k')) {rs : List (Addr × ℕ)}
    (ho : HeapOwns k'.heap ((p, blocksFor size) :: rs)) : AgreeOnRuns k.mem k'.mem rs := by
  obtain ⟨-, hmem, -, -⟩ := kzalloc_some hz
  rw [if_neg (ho.ne_zero List.mem_cons_self)] at hmem
  intro r hr q hq
  rw [hmem]
  refine agreeOnPage_zeroFill fun x hx heq => ?_
  have hfar := ho.far hr (x := x) (heq ▸ hq)
  omega

/-- `h'` is the heap after the directory, the tables and the chunk were allocated, in that order. -/
def ChunkTaken (h : Heap) (chunk : Addr) (shape : ChunkShape) (h' : Heap) : Prop :=
  ∃ h₁ ts h₂, h.kzalloc 4096#32 = some (shape.dir, h₁) ∧
    ts = (List.range 1024).map shape.tables ∧ AllocChain 4096#32 h₁ ts h₂ ∧
    h₂.kzalloc 4#32 = some (chunk, h')

/-- The words of a directory made with these flags. -/
def DirectoryWords (m : Memory) (shape : ChunkShape) (flags : BitVec 8) : Prop :=
  ∀ i < 1024, load32 m (wordAt shape.dir i) =
    shape.tables i ||| flags.setWidth 32 ||| pagingIsWriteable

/-- `paging_new_4gb` as an allocation, with the words of the directory. -/
theorem pagingNew4gb_owned {flags : BitVec 8} {chunk : Addr} {k k' : Kernel}
    (h : pagingNew4gb flags k = some (chunk, k')) {rs : List (Addr × ℕ)}
    (ho : HeapOwns k.heap rs) :
    ∃ shape, HeapOwns k'.heap (chunkRuns chunk shape ++ rs) ∧
      ChunkAt k'.mem chunk shape
        (fun p => BitVec.ofNat 32 (4096 * p) ||| flags.setWidth 32) ∧
      AgreeOnRuns k.mem k'.mem rs ∧ OnlyMemory k k' ∧ chunk ≠ 0#32 ∧
      ChunkTaken k.heap chunk shape k'.heap ∧ DirectoryWords k'.mem shape flags := by
  obtain ⟨dir, ts, h₁, h₂, hlen, hzd, hdir, hchain, hzc, hchunk, -, honly, hspec⟩ :=
    pagingNew4gb_spec h
  -- the three kinds of allocation, in the order they are made
  have ho₁ : HeapOwns h₁ ((dir, 1) :: rs) :=
    ((ho.kzalloc (by decide) hzd).resolve_left fun h0 => hdir h0.1).2
  have ho₂ := HeapOwns.allocChain (by decide) ts ho₁ hchain
  have ho₃ : HeapOwns k'.heap ((chunk, 1) :: ((ts.map fun p => (p, 1)).reverse ++ (dir, 1) :: rs)) :=
    ((ho₂.kzalloc (by decide) hzc).resolve_left fun h0 => hchunk h0.1).2
  have hlist : (List.range 1024).map (fun i => ts.getD i 0#32) = ts := by
    apply List.ext_getElem
    · simp [hlen]
    · intro i h1 h2
      simp [h2]
  have htables : (List.range 1024).map (fun i => (ts.getD i 0#32, 1)) = ts.map fun p => (p, 1) := by
    conv_rhs => rw [← hlist]
    rw [List.map_map]
    rfl
  have hperm : ((chunk, 1) :: ((ts.map fun p => (p, 1)).reverse ++ (dir, 1) :: rs)).Perm
      (chunkRuns chunk ⟨dir, fun i => ts.getD i 0#32⟩ ++ rs) := by
    unfold chunkRuns
    dsimp only
    rw [htables, List.append_assoc]
    have h1 : ((chunk, 1) :: ((ts.map fun p => (p, 1)).reverse ++ (dir, 1) :: rs)).Perm
        ((ts.map fun p => (p, 1)).reverse ++ (chunk, 1) :: (dir, 1) :: rs) :=
      List.perm_middle.symm
    refine h1.trans ((List.reverse_perm _).append ?_)
    exact List.Perm.swap _ _ _
  have hown := ho₃.perm hperm
  have hin : ∀ a ∈ chunk :: dir :: ts, (a, 1) ∈
      ((chunk, 1) :: ((ts.map fun p => (p, 1)).reverse ++ (dir, 1) :: rs)) := by
    intro a ha
    rcases List.mem_cons.mp ha with rfl | ha
    · exact List.mem_cons_self
    · rcases List.mem_cons.mp ha with rfl | ha
      · exact List.mem_cons_of_mem _ (List.mem_append_right _ List.mem_cons_self)
      · refine List.mem_cons_of_mem _ (List.mem_append_left _ ?_)
        exact List.mem_reverse.mpr (List.mem_map_of_mem ha)
  have hnodup : (chunk :: dir :: ts).Nodup := by
    have := ho₃.nodup
    rw [List.map_cons, List.map_append, List.map_reverse, List.map_map, List.map_cons] at this
    have hid : ts.map (Prod.fst ∘ fun p : Addr => (p, 1)) = ts := by
      simp [Function.comp_def]
    rw [hid] at this
    have hsub : (chunk :: (ts.reverse ++ [dir])).Sublist
        (chunk :: (ts.reverse ++ dir :: rs.map Prod.fst)) := by
      refine List.Sublist.cons_cons _ (List.Sublist.append_left ?_ _)
      exact List.Sublist.cons_cons _ (List.nil_sublist _)
    have hp : (chunk :: (ts.reverse ++ [dir])).Perm (chunk :: dir :: ts) := by
      refine List.Perm.cons _ (List.perm_append_comm.trans ?_)
      exact List.Perm.cons _ (List.reverse_perm ts)
    exact hp.nodup_iff.mp (this.sublist hsub)
  obtain ⟨hat, hwords, hframe⟩ := hspec (fun a ha => ho₃.aligned _ (hin a ha)) hnodup
  have htaken : ChunkTaken k.heap chunk ⟨dir, fun i => ts.getD i 0#32⟩ k'.heap :=
    ⟨h₁, ts, h₂, hzd, hlist.symm, hchain, hzc⟩
  refine ⟨_, hown, hat, ?_, honly, hchunk, htaken, hwords⟩
  intro r hr q hq
  refine hframe q fun a ha heq => ?_
  -- `q` would belong both to the chunk and to an older allocation
  have hmem : (a, 1) ∈ chunkRuns chunk ⟨dir, fun i => ts.getD i 0#32⟩ := by
    unfold chunkRuns
    dsimp only
    rw [htables]
    rcases List.mem_cons.mp ha with rfl | ha
    · simp
    · rcases List.mem_cons.mp ha with rfl | ha
      · simp
      · exact List.mem_append_left _ (List.mem_map_of_mem ha)
  have hap := (List.pairwise_append.mp hown.apart).2.2 (a, 1) hmem r hr q
  exact hap ⟨heq.ge, by rw [heq]; simp⟩ hq

/-- **`paging_new_4gb` as an allocation.** It takes the blocks of a chunk that maps every page to
itself, and leaves the blocks of everybody else alone. -/
theorem pagingNew4gb_owns {flags : BitVec 8} {chunk : Addr} {k k' : Kernel}
    (h : pagingNew4gb flags k = some (chunk, k')) {rs : List (Addr × ℕ)}
    (ho : HeapOwns k.heap rs) :
    ∃ shape, HeapOwns k'.heap (chunkRuns chunk shape ++ rs) ∧
      ChunkAt k'.mem chunk shape
        (fun p => BitVec.ofNat 32 (4096 * p) ||| flags.setWidth 32) ∧
      AgreeOnRuns k.mem k'.mem rs ∧ OnlyMemory k k' ∧ chunk ≠ 0#32 ∧
      ChunkTaken k.heap chunk shape k'.heap := by
  obtain ⟨shape, hown, hat, hagree, honly, hchunk, htaken, -⟩ := pagingNew4gb_owned h ho
  exact ⟨shape, hown, hat, hagree, honly, hchunk, htaken⟩

/-! ## Giving a chunk back -/

/-- The loop over the tables frees them one after the other. -/
theorem freeTables_eq (chunk : Addr) (shape : ChunkShape) (pm : ℕ → BitVec 32) :
    ∀ (l : List ℕ) (k : Kernel), (∀ i ∈ l, i < 1024) → ChunkAt k.mem chunk shape pm →
      l.forM (pagingFreeTable chunk) k = some ((), { k with
        heap := (l.map shape.tables).foldl heapFree k.heap
        kfrees := (l.map shape.tables).reverse ++ k.kfrees }) := by
  intro l
  induction l with
  | nil =>
    intro k _ _
    rfl
  | cons i l ih =>
    intro k hlt hat
    rw [forM_cons_eq]
    have hi : i < 1024 := hlt i List.mem_cons_self
    have hentry : load32 k.mem (wordIndex (load32 k.mem chunk) i) &&& 0xfffff000#32 =
        shape.tables i := by
      rw [hat.chunk_word]
      exact hat.dir_word i hi
    have hround : pagingFreeTable chunk i k = some ((), { k with
        heap := heapFree k.heap (shape.tables i)
        kfrees := shape.tables i :: k.kfrees }) := by
      rw [← hentry]
      rfl
    refine prog_bind.mpr ⟨_, _, hround, ?_⟩
    have hrest := ih { k with
      heap := heapFree k.heap (shape.tables i)
      kfrees := shape.tables i :: k.kfrees } (fun j hj => hlt j (List.mem_cons_of_mem _ hj)) hat
    rw [hrest]
    simp

/-- The addresses of the blocks of a chunk, in the order they are freed. -/
theorem chunkRuns_map_fst (chunk : Addr) (shape : ChunkShape) :
    (chunkRuns chunk shape).map Prod.fst =
      (List.range 1024).map shape.tables ++ [shape.dir, chunk] := by
  simp only [chunkRuns, List.map_append, List.map_map, List.map_cons, List.map_nil,
    Function.comp_def]

/-- What `paging_free_4gb` does, for any list of table indices. -/
theorem freeChunk_eq {chunk : Addr} {shape : ChunkShape} {pm : ℕ → BitVec 32} {k : Kernel}
    (hat : ChunkAt k.mem chunk shape pm) (hne : chunk ≠ 0#32) (l : List ℕ)
    (hl : ∀ i ∈ l, i < 1024) :
    (deref chunk >>= fun _ => l.forM (pagingFreeTable chunk) >>= fun _ =>
      (get : KernelM Kernel) >>= fun k => Model.kfree (load32 k.mem chunk) >>= fun _ =>
        Model.kfree chunk) k =
      some ((), { k with
        heap := (l.map shape.tables ++ [shape.dir, chunk]).foldl heapFree k.heap
        kfrees := chunk :: shape.dir :: ((l.map shape.tables).reverse ++ k.kfrees) }) := by
  refine prog_bind.mpr ⟨_, k, deref_of_ne hne k, ?_⟩
  refine prog_bind.mpr ⟨_, _, freeTables_eq chunk shape pm l k hl hat, ?_⟩
  refine prog_bind.mpr ⟨_, _, rfl, ?_⟩
  refine prog_bind.mpr ⟨_, _, rfl, ?_⟩
  show some _ = some _
  simp only [List.foldl_append, List.foldl_cons, List.foldl_nil, hat.chunk_word]

/-- **`paging_free_4gb`** gives the blocks of the chunk back, and does nothing else. -/
theorem pagingFree4gb_owns {chunk : Addr} {shape : ChunkShape} {pm : ℕ → BitVec 32} {k : Kernel}
    (hat : ChunkAt k.mem chunk shape pm) {rs : List (Addr × ℕ)}
    (ho : HeapOwns k.heap (chunkRuns chunk shape ++ rs)) :
    ∃ heap kfrees, pagingFree4gb chunk k = some ((), { k with heap := heap, kfrees := kfrees }) ∧
      HeapOwns heap rs := by
  have hmem : (chunk, 1) ∈ chunkRuns chunk shape := List.mem_append_right _ (by simp)
  have hne : chunk ≠ 0#32 := ho.ne_zero (List.mem_append_left _ hmem)
  have hown := HeapOwns.release_list (chunkRuns chunk shape) ho
  rw [chunkRuns_map_fst] at hown
  exact ⟨_, _, freeChunk_eq hat hne (List.range 1024) fun i hi => List.mem_range.mp hi, hown⟩

end MaerOS.Analysis
