import MaerOS.Analysis.ProcessPages
import Mathlib.Order.Interval.Finset.Nat
import MaerOS.Analysis.PagingBalance

/-!
# The memory of the programs

`Hosts k foots rs` says that the heap table is the picture of the page tables and
the allocations of the processes `foots` and of other blocks `rs`. A granted
`process_malloc` adds one block to what is live and changes no live block; a write
to a live block changes no other one. Whether a request is granted does not depend
on what is in memory.
-/

set_option autoImplicit false

namespace MaerOS.Analysis

open MaerOS.Lib MaerOS.Model

/-- The blocks of the page tables. -/
def tableRuns (foots : List ProcFoot) : List (Addr × ℕ) :=
  foots.flatMap fun f => chunkRuns f.chunk f.shape

/-- The blocks that hold data: the allocations of the processes, and `rs`. -/
def liveRuns (k : Kernel) (foots : List ProcFoot) (rs : List (Addr × ℕ)) : List (Addr × ℕ) :=
  foots.flatMap (fun f => allocRuns (k.procs f.process)) ++ rs

/-- The processes `foots`, each on its own page directory. -/
structure Hosts (k : Kernel) (foots : List ProcFoot) (rs : List (Addr × ℕ)) : Prop where
  nodup : (foots.map ProcFoot.process).Nodup
  owns : HeapOwns k.heap (tableRuns foots ++ liveRuns k foots rs)
  dir : ∀ f ∈ foots, (k.sched.tasks (k.procs f.process).task).page_directory = f.chunk
  chunk : ∀ f ∈ foots, ∃ pm, ChunkAt k.mem f.chunk f.shape pm

/-! ## One more allocation -/

/-- The runs of one of the processes, put in front. -/
theorem liveRuns_perm (k : Kernel) (init post : List ProcFoot) (f : ProcFoot)
    (rs : List (Addr × ℕ)) : (liveRuns k (init ++ f :: post) rs).Perm
      (allocRuns (k.procs f.process) ++ liveRuns k (init ++ post) rs) := by
  unfold liveRuns
  exact flatMap_runs_perm _ init post f rs

/-- The blocks of one of the processes, put in front. -/
theorem hosts_perm (k : Kernel) (init post : List ProcFoot) (f : ProcFoot)
    (rs : List (Addr × ℕ)) :
    (tableRuns (init ++ f :: post) ++ liveRuns k (init ++ f :: post) rs).Perm
      (f.runs k ++ (tableRuns (init ++ post) ++ liveRuns k (init ++ post) rs)) := by
  have htables := flatMap_runs_perm (fun f => chunkRuns f.chunk f.shape) init post f
    (liveRuns k (init ++ f :: post) rs)
  have hlive : (tableRuns (init ++ post) ++ liveRuns k (init ++ f :: post) rs).Perm
      (allocRuns (k.procs f.process) ++ (tableRuns (init ++ post) ++ liveRuns k (init ++ post) rs)) :=
    (List.Perm.append_left _ (liveRuns_perm k init post f rs)).trans
      (List.perm_append_comm_assoc _ _ _)
  unfold ProcFoot.runs
  rw [List.append_assoc]
  exact htables.trans (List.Perm.append_left _ hlive)

section Hosts

variable {k k' : Kernel} {foots : List ProcFoot} {rs : List (Addr × ℕ)} {q : ℕ}

theorem Hosts.apart (h : Hosts k foots rs) {r r' : Addr × ℕ} (hr : r ∈ tableRuns foots)
    (hr' : r' ∈ liveRuns k foots rs) (hq : InRun r q) : ¬ InRun r' q :=
  (List.pairwise_append.mp h.owns.apart).2.2 r hr r' hr' q hq

/-- **A granted request** adds a block to the live ones and leaves them alone. -/
theorem Hosts.malloc (h : Hosts k foots rs) {f : ProcFoot} (hf : f ∈ foots) {size : BitVec 32}
    (hsize : 1 ≤ size.toNat) {ptr : Addr}
    (hcode : processMalloc f.process size k = some (ptr, k')) (hne : ptr ≠ 0#32) :
    Hosts k' foots rs ∧
      (liveRuns k' foots rs).Perm ((ptr, blocksFor size) :: liveRuns k foots rs) ∧
      AgreeOnRuns k.mem k'.mem (liveRuns k foots rs) ∧ k'.sched = k.sched := by
  obtain ⟨init, post, rfl⟩ := List.append_of_mem hf
  obtain ⟨pm, hat⟩ := h.chunk f hf
  have hperm := hosts_perm k init post f rs
  obtain ⟨hframe, ⟨h0, -⟩ | ⟨-, hown, halloc, hat'⟩⟩ :=
    processMalloc_cases hcode (h.owns.perm hperm) (h.dir f hf) hat (.inl hsize)
  · exact absurd h0 hne
  -- the other processes are different ones, so their records stay
  have hothers : ∀ g ∈ init ++ post, k'.procs g.process = k.procs g.process :=
    fun g hg => hframe.others _ (process_ne_of_nodup h.nodup g hg)
  have hrest : liveRuns k' (init ++ post) rs = liveRuns k (init ++ post) rs := by
    unfold liveRuns
    rw [List.flatMap_congr fun g hg => by rw [hothers g hg]]
  have hlive : (liveRuns k' (init ++ f :: post) rs).Perm
      ((ptr, blocksFor size) :: liveRuns k (init ++ f :: post) rs) := by
    refine (liveRuns_perm k' init post f rs).trans ?_
    rw [hrest]
    refine (List.Perm.append_right _ halloc).trans ?_
    rw [List.cons_append]
    exact (liveRuns_perm k init post f rs).symm.cons _
  have hmem : ∀ r ∈ liveRuns k (init ++ f :: post) rs,
      r ∈ allocRuns (k.procs f.process) ++
        (tableRuns (init ++ post) ++ liveRuns k (init ++ post) rs) := by
    intro r hr
    rcases List.mem_append.mp ((liveRuns_perm k init post f rs).mem_iff.mp hr) with hr | hr
    · exact List.mem_append_left _ hr
    · exact List.mem_append_right _ (List.mem_append_right _ hr)
  refine ⟨⟨h.nodup, ?_, ?_, ?_⟩, hlive, hframe.agree.subset hmem, hframe.sched⟩
  · refine hown.perm ?_
    refine (List.Perm.cons _ hperm.symm).trans ?_
    exact List.perm_middle.symm.trans (List.Perm.append_left _ hlive.symm)
  · intro g hg
    rcases List.mem_append.mp hg with hg' | hg'
    · rw [hframe.sched, hothers g (List.mem_append_left _ hg')]
      exact h.dir g hg
    · rcases List.mem_cons.mp hg' with rfl | hg'
      · exact hframe.dir.trans (h.dir g hg)
      · rw [hframe.sched, hothers g (List.mem_append_right _ hg')]
        exact h.dir g hg
  · have hkeep : ∀ g ∈ init ++ post, ∃ pm, ChunkAt k'.mem g.chunk g.shape pm := by
      intro g hg
      obtain ⟨pmg, hatg⟩ := h.chunk g (by
        rcases List.mem_append.mp hg with hg | hg
        · exact List.mem_append_left _ hg
        · exact List.mem_append_right _ (List.mem_cons_of_mem _ hg))
      refine ⟨pmg, hatg.of_agree (hframe.agree.subset fun r hr => ?_)⟩
      exact List.mem_append_right _ (List.mem_append_left _ (List.mem_flatMap.mpr ⟨g, hg, hr⟩))
    intro g hg
    rcases List.mem_append.mp hg with hg' | hg'
    · exact hkeep g (List.mem_append_left _ hg')
    · rcases List.mem_cons.mp hg' with rfl | hg'
      · exact ⟨_, hat'⟩
      · exact hkeep g (List.mem_append_right _ hg')

/-- **A denied request** leaves the live blocks alone. -/
theorem Hosts.denied (h : Hosts k foots rs) {f : ProcFoot} (hf : f ∈ foots) {size : BitVec 32}
    (hsize : 1 ≤ size.toNat) (hcode : processMalloc f.process size k = some (0#32, k')) :
    Hosts k' foots rs ∧ liveRuns k' foots rs = liveRuns k foots rs ∧
      AgreeOnRuns k.mem k'.mem (liveRuns k foots rs) ∧ k'.sched = k.sched := by
  obtain ⟨init, post, rfl⟩ := List.append_of_mem hf
  obtain ⟨pm, hat⟩ := h.chunk f hf
  have hperm := hosts_perm k init post f rs
  obtain ⟨hframe, ⟨-, hown, hprocs, hat'⟩ | ⟨hne, -⟩⟩ :=
    processMalloc_cases hcode (h.owns.perm hperm) (h.dir f hf) hat (.inl hsize)
  swap
  · exact absurd rfl hne
  have hlive : liveRuns k' (init ++ f :: post) rs = liveRuns k (init ++ f :: post) rs := by
    unfold liveRuns
    rw [hprocs]
  have hagree := hframe.agree
  refine ⟨⟨h.nodup, ?_, fun g hg => ?_, fun g hg => ?_⟩, hlive, hagree.subset fun r hr => ?_,
    hframe.sched⟩
  · rw [hlive]
    exact hown.perm hperm.symm
  · rw [hframe.sched, hprocs]
    exact h.dir g hg
  · rcases List.mem_append.mp hg with hg' | hg'
    · obtain ⟨pmg, hatg⟩ := h.chunk g hg
      refine ⟨pmg, hatg.of_agree (hagree.subset fun r hr => ?_)⟩
      exact List.mem_append_right _ (List.mem_append_left _ (List.mem_flatMap.mpr
        ⟨g, List.mem_append_left _ hg', hr⟩))
    · rcases List.mem_cons.mp hg' with rfl | hg'
      · exact ⟨pm, hat'⟩
      · obtain ⟨pmg, hatg⟩ := h.chunk g hg
        refine ⟨pmg, hatg.of_agree (hagree.subset fun r hr => ?_)⟩
        exact List.mem_append_right _ (List.mem_append_left _ (List.mem_flatMap.mpr
          ⟨g, List.mem_append_right _ hg', hr⟩))
  · rcases List.mem_append.mp ((liveRuns_perm k init post f rs).mem_iff.mp hr) with hr | hr
    · exact List.mem_append_left _ hr
    · exact List.mem_append_right _ (List.mem_append_right _ hr)

/-- What the kernel is granted belongs to it. -/
theorem Hosts.kzalloc (h : Hosts k foots rs) {size : BitVec 32} (hsize : 1 ≤ size.toNat)
    {ptr : Addr} (hcode : Model.kzalloc size k = some (ptr, k')) (hne : ptr ≠ 0#32) :
    Hosts k' foots ((ptr, blocksFor size) :: rs) := by
  obtain ⟨hheap, -, -, honly⟩ := kzalloc_some hcode
  obtain ⟨-, hown⟩ := (h.owns.kzalloc hsize hheap).resolve_left fun h0 => hne h0.1
  have hagree := agreeOnRuns_kzalloc hcode hown
  refine ⟨h.nodup, hown.perm ?_, fun f hf => ?_, fun f hf => ?_⟩
  · refine List.perm_middle.symm.trans (List.Perm.append_left _ ?_)
    unfold liveRuns
    rw [honly.procs]
    exact List.perm_middle.symm
  · rw [honly.sched, honly.procs]
    exact h.dir f hf
  · obtain ⟨pm, hat⟩ := h.chunk f hf
    refine ⟨pm, hat.of_agree (hagree.subset fun r hr => ?_)⟩
    exact List.mem_append_left _ (List.mem_flatMap.mpr ⟨f, hf, hr⟩)

/-- A page of a live block. -/
def LivePage (k : Kernel) (foots : List ProcFoot) (rs : List (Addr × ℕ)) (q : ℕ) : Prop :=
  ∃ r ∈ liveRuns k foots rs, InRun r q

/-- **A write to live pages** leaves the page tables alone. -/
theorem Hosts.write (h : Hosts k foots rs) {mem : Memory}
    (hmem : ∀ q, ¬ LivePage k foots rs q → AgreeOnPage k.mem mem q) :
    Hosts { k with mem := mem } foots rs := by
  refine ⟨h.nodup, h.owns, h.dir, fun f hf => ?_⟩
  obtain ⟨pm, hat⟩ := h.chunk f hf
  refine ⟨pm, hat.of_agree fun r hr q hq => hmem q ?_⟩
  rintro ⟨r', hr', hq'⟩
  exact h.apart (List.mem_flatMap.mpr ⟨f, hf, hr⟩) hr' hq hq'

theorem LivePage.above (hq : LivePage k foots rs q) (h : Hosts k foots rs) : 4096 ≤ q := by
  obtain ⟨r, hr, hin⟩ := hq
  exact (h.owns.above r (List.mem_append_right _ hr)).trans hin.1

/-- What a granted request for one page does: `ptr` is a page that was not live, what was live has
not changed. -/
structure Grant (k k' : Kernel) (foots : List ProcFoot) (rs : List (Addr × ℕ)) (ptr : Addr) :
    Prop where
  hosts : Hosts k' foots rs
  aligned : PageAligned ptr
  fresh : ¬ LivePage k foots rs (pageOf ptr)
  live : ∀ q, LivePage k' foots rs q ↔ q = pageOf ptr ∨ LivePage k foots rs q
  agree : ∀ q, LivePage k foots rs q → AgreeOnPage k.mem k'.mem q
  sched : k'.sched = k.sched

/-- **A granted request for one page**, by pages. -/
theorem Hosts.grant (h : Hosts k foots rs) {f : ProcFoot} (hf : f ∈ foots) {size : BitVec 32}
    (hsize : blocksFor size = 1) {ptr : Addr}
    (hcode : processMalloc f.process size k = some (ptr, k')) (hne : ptr ≠ 0#32) :
    Grant k k' foots rs ptr := by
  have hpos : 1 ≤ size.toNat := by
    unfold blocksFor at hsize
    omega
  obtain ⟨hhosts, hlive, hagree, hsched⟩ := h.malloc hf hpos hcode hne
  rw [hsize] at hlive
  have hinRun : ∀ q, InRun (ptr, 1) q ↔ q = pageOf ptr := by
    intro q
    unfold InRun
    dsimp only
    omega
  have hmem : (ptr, 1) ∈ tableRuns foots ++ liveRuns k' foots rs :=
    List.mem_append_right _ (hlive.mem_iff.mpr List.mem_cons_self)
  refine ⟨hhosts, hhosts.owns.aligned _ hmem, ?_, ?_, ?_, hsched⟩
  · rintro ⟨r, hr, hin⟩
    have hown := hhosts.owns.perm
      ((List.Perm.append_left (tableRuns foots) hlive).trans List.perm_middle)
    exact hown.apart_cons (List.mem_append_right _ hr) ((hinRun _).mpr rfl) hin
  · intro q
    unfold LivePage
    simp only [hlive.mem_iff, List.mem_cons, exists_eq_or_imp, hinRun]
  · rintro q ⟨r, hr, hin⟩
    exact hagree r hr q hin

end Hosts

/-- The processes of a run of `process_malloc` and `process_free`. -/
theorem MemRun.Inv.hosts {s : MemRun} {foots : List ProcFoot} {rs : List (Addr × ℕ)}
    (h : s.Inv foots rs) : Hosts s.kernel foots rs := by
  refine ⟨h.started ▸ h.nodup, h.owns.perm ?_, fun f hf => (h.confined f hf).dir, fun f hf => ?_⟩
  · unfold tableRuns liveRuns ProcFoot.runs
    rw [← List.append_assoc]
    exact List.Perm.append_right _ (List.flatMap_append_perm _ _ _).symm
  · obtain ⟨pm, hat, -⟩ := (h.confined f hf).map
    exact ⟨pm, hat⟩

/-! ## Requests that are granted -/

/-- The requests, made one after the other, are all granted. -/
def Granted : List (Addr × BitVec 32) → Kernel → Prop
  | [], _ => True
  | (process, size) :: rest, k => ∃ ptr k', processMalloc process size k = some (ptr, k') ∧
      ptr ≠ 0#32 ∧ Granted rest k'

/-- What `paging_map_range` returns does not depend on the memory. -/
theorem pagingMapRange_code (directory : Addr) (flags : BitVec 32) (count : ℕ) (m m' : Memory)
    (virt phys : Addr) (res : ℤ) : (pagingMapRange directory flags count m virt phys res).1 =
      (pagingMapRange directory flags count m' virt phys res).1 := by
  induction count generalizing m m' virt phys res with
  | zero => rfl
  | succ count ih =>
    have hcode : (pagingMap m directory virt phys flags).1 =
        (pagingMap m' directory virt phys flags).1 := by
      unfold pagingMap pagingSet
      split
      · rfl
      · split
        · rfl
        · dsimp only
          split <;> rfl
    unfold pagingMapRange
    dsimp only
    rw [hcode]
    split
    · rfl
    · exact ih _ _ _ _ _

/-- What `paging_map_to` returns does not depend on the memory. -/
theorem pagingMapTo_code (m m' : Memory) (directory virt phys phys_end : Addr)
    (flags : BitVec 32) : (pagingMapTo m directory virt phys phys_end flags).1 =
      (pagingMapTo m' directory virt phys phys_end flags).1 := by
  unfold pagingMapTo
  split
  · rfl
  split
  · rfl
  split
  · rfl
  split
  · rfl
  exact pagingMapRange_code _ _ _ _ _ _ _ _

/-- Mapping a range of a process is `paging_map_to` in its directory. -/
theorem processMapTo_run {process : Addr} {k : Kernel} (htask : (k.procs process).task ≠ 0#32)
    (virt phys phys_end : Addr) (flags : BitVec 32) :
    processMapTo process virt phys phys_end flags k =
      let out := pagingMapTo k.mem (k.sched.tasks (k.procs process).task).page_directory virt phys
        phys_end flags
      some (out.1, { k with mem := out.2 }) := by
  unfold processMapTo
  rw [bind_get, bind_of_some (deref_of_ne htask k)]
  rfl

/-- Mapping a range works out the same in any memory. -/
theorem processMapTo_mem {process virt phys phys_end : Addr} {flags : BitVec 32} {k k' : Kernel}
    {res : ℤ} (h : processMapTo process virt phys phys_end flags k = some (res, k'))
    (m : Memory) : ∃ m', processMapTo process virt phys phys_end flags { k with mem := m } =
      some (res, { k' with mem := m' }) := by
  by_cases htask : (k.procs process).task = 0#32
  · unfold processMapTo at h
    rw [bind_get] at h
    obtain ⟨_, k₁, hd, -⟩ := prog_bind.mp h
    exact absurd htask (deref_some hd).1
  · rw [processMapTo_run htask] at h
    rw [processMapTo_run (k := { k with mem := m }) htask]
    dsimp only at h ⊢
    rw [pagingMapTo_code m k.mem]
    simp only [Option.some.injEq, Prod.mk.injEq] at h
    rw [← h.1, ← h.2]
    exact ⟨_, rfl⟩

/-- Whether a request is granted, and what, does not depend on what is in memory. -/
theorem processMalloc_mem {process ptr : Addr} {size : BitVec 32} {k k' : Kernel}
    (h : processMalloc process size k = some (ptr, k')) (hne : ptr ≠ 0#32) (m : Memory) :
    ∃ m', processMalloc process size { k with mem := m } = some (ptr, { k' with mem := m' }) := by
  unfold processMalloc at h ⊢
  obtain ⟨p, k₁, hz, h₁⟩ := prog_bind.mp h
  have hz' : ∃ m₁, kzalloc size { k with mem := m } = some (p, { k₁ with mem := m₁ }) := by
    unfold Model.kzalloc at hz ⊢
    dsimp only
    cases hheap : k.heap.kzalloc size with
    | none =>
      rw [hheap] at hz
      cases hz
    | some r =>
      rw [hheap] at hz
      cases hz
      exact ⟨_, rfl⟩
  obtain ⟨m₁, hz₁⟩ := hz'
  rw [bind_of_some hz₁]
  by_cases hp : p = 0#32
  · rw [if_pos hp] at h₁
    obtain ⟨rfl, -⟩ := prog_pure.mp h₁
    exact absurd rfl hne
  rw [if_neg hp] at h₁ ⊢
  obtain ⟨_, k₂, hd, h₂⟩ := prog_bind.mp h₁
  obtain ⟨hproc, rfl⟩ := deref_some hd
  rw [bind_get] at h₂
  rw [bind_of_some (deref_of_ne hproc _), bind_get]
  dsimp only at h₂ ⊢
  split at h₂
  · obtain ⟨_, k₃, hk, h₃⟩ := prog_bind.mp h₂
    obtain ⟨rfl, -⟩ := prog_pure.mp h₃
    exact absurd rfl hne
  rename_i hindex
  rw [if_neg hindex]
  obtain ⟨res, k₃, hmap, h₃⟩ := prog_bind.mp h₂
  obtain ⟨m₂, hmap'⟩ := processMapTo_mem hmap m₁
  rw [bind_of_some hmap']
  split at h₃
  · obtain ⟨_, k₄, hk, h₄⟩ := prog_bind.mp h₃
    obtain ⟨rfl, -⟩ := prog_pure.mp h₄
    exact absurd rfl hne
  rename_i hres
  rw [if_neg hres]
  obtain ⟨_, k₄, hset, h₄⟩ := prog_bind.mp h₃
  cases hset
  obtain ⟨rfl, rfl⟩ := prog_pure.mp h₄
  exact ⟨m₂, rfl⟩

theorem Granted.with_mem {reqs : List (Addr × BitVec 32)} {k : Kernel} (h : Granted reqs k)
    (m : Memory) : Granted reqs { k with mem := m } := by
  induction reqs generalizing k m with
  | nil => trivial
  | cons req rest ih =>
    obtain ⟨ptr, k', hcode, hne, hrest⟩ := h
    obtain ⟨m', hcode'⟩ := processMalloc_mem hcode hne m
    exact ⟨ptr, _, hcode', hne, ih hrest m'⟩

/-! ## Requests that may be denied -/

/-- What a request leaves alone, and the slot that a granted one takes. -/
structure RequestFrame (k k' : Kernel) (process : Addr) (size : BitVec 32) (ptr : Addr) :
    Prop where
  sched : k'.sched = k.sched
  processes : k'.processes = k.processes
  current_process : k'.current_process = k.current_process
  slot : (ptr = 0#32 ∧ k'.procs = k.procs) ∨
    (ptr ≠ 0#32 ∧ ∃ i < 1024, ((k.procs process).allocations i).ptr = 0#32 ∧
      k'.procs = Function.update k.procs process ((k.procs process).setAllocation i ⟨ptr, size⟩))

/-- **`process_malloc`** in any kernel. -/
theorem processMalloc_frame {process ptr : Addr} {size : BitVec 32} {k k' : Kernel}
    (h : processMalloc process size k = some (ptr, k')) : RequestFrame k k' process size ptr := by
  unfold processMalloc at h
  obtain ⟨p, k₁, hz, h₁⟩ := prog_bind.mp h
  obtain ⟨-, -, -, honly⟩ := kzalloc_some hz
  by_cases hp : p = 0#32
  · rw [if_pos hp] at h₁
    obtain ⟨rfl, rfl⟩ := prog_pure.mp h₁
    exact ⟨honly.sched, honly.processes, honly.current_process, .inl ⟨rfl, honly.procs⟩⟩
  rw [if_neg hp] at h₁
  obtain ⟨_, k₂, hd, h₂⟩ := prog_bind.mp h₁
  obtain ⟨-, rfl⟩ := deref_some hd
  rw [bind_get] at h₂
  by_cases hindex : processFindFreeAllocationIndex (k₂.procs process) < 0
  · rw [if_pos hindex] at h₂
    obtain ⟨_, k₃, hk, h₃⟩ := prog_bind.mp h₂
    cases hk
    obtain ⟨rfl, rfl⟩ := prog_pure.mp h₃
    exact ⟨honly.sched, honly.processes, honly.current_process, .inl ⟨rfl, honly.procs⟩⟩
  rw [if_neg hindex] at h₂
  obtain ⟨res, k₃, hmap, h₃⟩ := prog_bind.mp h₂
  obtain ⟨mem, rfl⟩ : ∃ mem, k₃ = { k₂ with mem := mem } := by
    by_cases htask : (k₂.procs process).task = 0#32
    · unfold processMapTo at hmap
      rw [bind_get] at hmap
      obtain ⟨_, k₄, hd₄, -⟩ := prog_bind.mp hmap
      exact absurd htask (deref_some hd₄).1
    · rw [processMapTo_run htask] at hmap
      cases hmap
      exact ⟨_, rfl⟩
  by_cases hres : res < 0
  · rw [if_pos hres] at h₃
    obtain ⟨_, k₄, hk, h₄⟩ := prog_bind.mp h₃
    cases hk
    obtain ⟨rfl, rfl⟩ := prog_pure.mp h₄
    exact ⟨honly.sched, honly.processes, honly.current_process, .inl ⟨rfl, honly.procs⟩⟩
  rw [if_neg hres] at h₃
  obtain ⟨_, k₄, hset, h₄⟩ := prog_bind.mp h₃
  cases hset
  obtain ⟨rfl, rfl⟩ := prog_pure.mp h₄
  obtain ⟨i, hi, hieq, hifree⟩ := processFindFreeAllocationIndex_spec hindex
  rw [honly.procs] at hifree
  refine ⟨honly.sched, honly.processes, honly.current_process, .inr ⟨hp, i, hi, hifree, ?_⟩⟩
  dsimp only
  rw [hieq, Int.toNat_natCast, honly.procs]

/-- A request takes one slot. -/
theorem RequestFrame.freeSlots {k k' : Kernel} {process ptr : Addr} {size : BitVec 32}
    (h : RequestFrame k k' process size ptr) (hne : ptr ≠ 0#32) :
    freeSlots (k'.procs process) + 1 = freeSlots (k.procs process) := by
  obtain ⟨-, i, hi, hfree, hprocs⟩ := h.slot.resolve_left fun h0 => hne h0.1
  rw [hprocs, Function.update_self]
  exact freeSlots_setAllocation hi hfree hne size

/-- The process can ask for memory: it has a task. -/
structure Requester (k : Kernel) (f : ProcFoot) : Prop where
  process : f.process ≠ 0#32
  task : (k.procs f.process).task ≠ 0#32

/-- Who could request can do so after the request of another. -/
theorem Requester.of_frame {k k' : Kernel} {f : ProcFoot} {process ptr : Addr} {size : BitVec 32}
    (h : Requester k f) (hframe : RequestFrame k k' process size ptr) : Requester k' f := by
  refine ⟨h.process, ?_⟩
  rcases hframe.slot with ⟨-, hprocs⟩ | ⟨-, i, -, -, hprocs⟩
  · rw [hprocs]
    exact h.task
  · rw [hprocs]
    by_cases heq : f.process = process
    · rw [← heq, Function.update_self]
      exact h.task
    · rw [Function.update_of_ne heq]
      exact h.task

/-- Only a process with a task is granted memory. -/
theorem Granted.requester {f : ProcFoot} {size : BitVec 32} {reqs : List (Addr × BitVec 32)}
    {k : Kernel} (h : Granted ((f.process, size) :: reqs) k) : Requester k f := by
  obtain ⟨ptr, k', hcode, hne, -⟩ := h
  unfold processMalloc at hcode
  obtain ⟨p, k₁, hz, h₁⟩ := prog_bind.mp hcode
  obtain ⟨-, -, -, honly⟩ := kzalloc_some hz
  by_cases hp : p = 0#32
  · rw [if_pos hp] at h₁
    exact absurd (prog_pure.mp h₁).1.symm hne
  rw [if_neg hp] at h₁
  obtain ⟨_, k₂, hd, h₂⟩ := prog_bind.mp h₁
  obtain ⟨hproc, rfl⟩ := deref_some hd
  rw [bind_get] at h₂
  by_cases hindex : processFindFreeAllocationIndex (k₂.procs f.process) < 0
  · rw [if_pos hindex] at h₂
    obtain ⟨_, k₃, -, h₃⟩ := prog_bind.mp h₂
    exact absurd (prog_pure.mp h₃).1.symm hne
  rw [if_neg hindex] at h₂
  obtain ⟨res, k₃, hmap, -⟩ := prog_bind.mp h₂
  unfold processMapTo at hmap
  rw [bind_get] at hmap
  obtain ⟨_, k₄, hd₄, -⟩ := prog_bind.mp hmap
  have htask := (deref_some hd₄).1
  rw [honly.procs] at htask
  exact ⟨hproc, htask⟩

/-- What a request keeps, whatever its outcome. -/
structure Kept (k k' : Kernel) (foots : List ProcFoot) (rs : List (Addr × ℕ)) : Prop where
  hosts : Hosts k' foots rs
  mono : ∀ q, LivePage k foots rs q → LivePage k' foots rs q
  agree : ∀ q, LivePage k foots rs q → AgreeOnPage k.mem k'.mem q
  sched : k'.sched = k.sched

theorem Grant.kept {k k' : Kernel} {foots : List ProcFoot} {rs : List (Addr × ℕ)} {ptr : Addr}
    (h : Grant k k' foots rs ptr) : Kept k k' foots rs :=
  ⟨h.hosts, fun q hq => (h.live q).mpr (.inr hq), h.agree, h.sched⟩

/-- How a request for one page ends: it is denied, for want of a block or a slot, or it is granted
and takes one of each. -/
inductive Requested (k k' : Kernel) (foots : List ProcFoot) (rs : List (Addr × ℕ))
    (process : Addr) : Addr → Prop
  | denied (hnone : (freeBlocks k.heap).card = 0 ∨ freeSlots (k.procs process) = 0)
      (hkept : Kept k k' foots rs) : Requested k k' foots rs process 0#32
  | granted (ptr : Addr) (hne : ptr ≠ 0#32)
      (hblock : (freeBlocks k'.heap).card + 1 = (freeBlocks k.heap).card)
      (hslot : freeSlots (k'.procs process) + 1 = freeSlots (k.procs process))
      (hgrant : Grant k k' foots rs ptr) : Requested k k' foots rs process ptr

/-- **A request for one page** of a process with a task. -/
theorem Hosts.request {k : Kernel} {foots : List ProcFoot} {rs : List (Addr × ℕ)} {f : ProcFoot}
    (h : Hosts k foots rs) (hf : f ∈ foots) (hreq : Requester k f) {size : BitVec 32}
    (hsize : blocksFor size = 1) : ∃ ptr k', processMalloc f.process size k = some (ptr, k') ∧
      RequestFrame k k' f.process size ptr ∧ Requested k k' foots rs f.process ptr := by
  have hpos : 1 ≤ size.toNat ∧ size.toNat ≤ 4096 := by
    unfold blocksFor at hsize
    omega
  have hdenied : ∀ k', processMalloc f.process size k = some (0#32, k') →
      (freeBlocks k.heap).card = 0 ∨ freeSlots (k.procs f.process) = 0 →
      ∃ ptr k', processMalloc f.process size k = some (ptr, k') ∧
        RequestFrame k k' f.process size ptr ∧ Requested k k' foots rs f.process ptr := by
    intro k' hcode hnone
    obtain ⟨hhosts, hlive, hagree, hsched⟩ := h.denied hf hpos.1 hcode
    refine ⟨0#32, k', hcode, processMalloc_frame hcode, .denied hnone ⟨hhosts, ?_, ?_, hsched⟩⟩
    · rintro q ⟨r, hr, hin⟩
      exact ⟨r, hlive.symm ▸ hr, hin⟩
    · rintro q ⟨r, hr, hin⟩
      exact hagree r hr q hin
  by_cases hblocks : (freeBlocks k.heap).card = 0
  · -- there is no free block
    have hz : k.heap.kzalloc size = some (0#32, k.heap) := by
      refine h.owns.kzalloc_full hpos.1 hpos.2 fun b hb hbf => ?_
      have hmem : b ∈ freeBlocks k.heap :=
        Finset.mem_filter.mpr ⟨Finset.mem_range.mpr (by rw [h.owns.total]; exact hb), hbf⟩
      rw [Finset.card_eq_zero.mp hblocks] at hmem
      cases hmem
    have halloc : Model.kzalloc size k = some (0#32, { k with kallocs := 0#32 :: k.kallocs }) := by
      unfold Model.kzalloc
      rw [hz]
      rfl
    refine hdenied { k with kallocs := 0#32 :: k.kallocs } ?_ (.inl hblocks)
    unfold processMalloc
    rw [bind_of_some halloc, if_pos rfl]
    rfl
  obtain ⟨p, k₁, hz, hp, hown, hcard⟩ :=
    Analysis.kzalloc_block h.owns hpos.1 hpos.2 (Nat.one_le_iff_ne_zero.mpr hblocks)
  obtain ⟨-, -, -, honly⟩ := kzalloc_some hz
  by_cases hslots : freeSlots (k.procs f.process) = 0
  · -- there is no free slot
    refine hdenied _ (processMalloc_full hz hp hreq.process fun j hj hfree => ?_) (.inr hslots)
    rw [honly.procs] at hfree
    have := freeSlots_pos.mpr ⟨j, hj, hfree⟩
    omega
  obtain ⟨j, hj, hfree⟩ := freeSlots_pos.mp (Nat.one_le_iff_ne_zero.mpr hslots)
  obtain ⟨i, -, hindex⟩ := processFindFreeAllocationIndex_le hj hfree
  obtain ⟨pm, hat⟩ := h.chunk f hf
  obtain ⟨hval, -⟩ := @pagingAlignAddress_end p (hown.aligned _ List.mem_cons_self) size (by
    have := (hown.inside List.mem_cons_self).2
    rw [hsize]
    dsimp only at this
    omega)
  have hmap := @processMapTo_run f.process k₁ (by rw [honly.procs]; exact hreq.task) p p
    (pagingAlignAddress (p + size)) processMallocFlags
  have hzero : (pagingMapTo k₁.mem (k₁.sched.tasks (k₁.procs f.process).task).page_directory p p
      (pagingAlignAddress (p + size)) processMallocFlags).1 = 0 := by
    obtain ⟨m₁, hvalid, -⟩ := pagingMapTo_valid hat hval processMallocFlags
    rw [pagingMapTo_code k₁.mem k.mem, honly.procs, honly.sched, h.dir f hf, hvalid]
  dsimp only at hmap
  rw [hzero] at hmap
  obtain ⟨k', hcode, hheap⟩ : ∃ k', processMalloc f.process size k = some (p, k') ∧
      k'.heap = k₁.heap :=
    ⟨_, processMalloc_slot hz hp hreq.process (by rw [honly.procs]; exact hindex) hmap, rfl⟩
  have hframe := processMalloc_frame hcode
  exact ⟨p, k', hcode, hframe, .granted p hp (by rw [hheap]; exact hcard) (hframe.freeSlots hp)
    (h.grant hf hsize hcode hp)⟩

/-- **Enough blocks and slots** for requests for one page each: all of them are granted. -/
theorem Hosts.granted {foots : List ProcFoot} {rs : List (Addr × ℕ)} {f : ProcFoot} (hf : f ∈ foots)
    (sizes : List (BitVec 32)) (hsizes : ∀ size ∈ sizes, blocksFor size = 1) {k : Kernel}
    (h : Hosts k foots rs) (hreq : Requester k f)
    (hblocks : sizes.length ≤ (freeBlocks k.heap).card)
    (hslots : sizes.length ≤ freeSlots (k.procs f.process)) :
    Granted (sizes.map fun size => (f.process, size)) k := by
  induction sizes generalizing k with
  | nil => trivial
  | cons size sizes ih =>
    rw [List.length_cons] at hblocks hslots
    obtain ⟨ptr, k', hcode, hframe, hend⟩ := h.request hf hreq (hsizes size List.mem_cons_self)
    cases hend with
    | denied hnone _ => omega
    | granted _ hne hblock hslot hgrant =>
      exact ⟨ptr, k', hcode, hne, ih (fun x hx => hsizes x (List.mem_cons_of_mem _ hx)) hgrant.hosts
        (hreq.of_frame hframe) (by omega) (by omega)⟩

/-- **A packed heap** grants requests for one page each, as long as there are blocks and slots. -/
theorem Packed.granted {k : Kernel} {foots : List ProcFoot} {rs : List (Addr × ℕ)} {f : ProcFoot}
    (hf : f ∈ foots) (hreq : Requester k f) (sizes : List (BitVec 32))
    (hsizes : ∀ size ∈ sizes, blocksFor size = 1) {s j : ℕ} (hpk : Packed k.heap s)
    (hhosts : Hosts k foots rs) (hfit : s + sizes.length ≤ 25600) (hslots : j + sizes.length ≤ 1024)
    (hfree : ∀ i, j ≤ i → i < 1024 → ((k.procs f.process).allocations i).ptr = 0#32) :
    Granted (sizes.map fun size => (f.process, size)) k := by
  have hblocks : Finset.Ico s 25600 ⊆ freeBlocks k.heap := by
    intro b hb
    obtain ⟨hle, hlt⟩ := Finset.mem_Ico.mp hb
    refine Finset.mem_filter.mpr ⟨Finset.mem_range.mpr ?_, hpk.free b hle hlt⟩
    rw [hpk.total]
    exact hlt
  have hempty : Finset.Ico j 1024 ⊆ (Finset.range maerosMaxProgramAllocations).filter
      fun i => ((k.procs f.process).allocations i).ptr = 0#32 := by
    intro i hi
    obtain ⟨hle, hlt⟩ := Finset.mem_Ico.mp hi
    exact Finset.mem_filter.mpr ⟨Finset.mem_range.mpr hlt, hfree i hle hlt⟩
  have hcard := Finset.card_le_card hblocks
  have hcard' := Finset.card_le_card hempty
  rw [Nat.card_Ico] at hcard hcard'
  refine hhosts.granted hf sizes hsizes hreq (by omega) ?_
  unfold freeSlots
  omega

/-! ## A kernel with one process -/

/-- The program of process `f` is running. -/
def Caller (k : Kernel) (f : ProcFoot) : Prop :=
  k.sched.current_task ≠ 0#32 ∧ (k.sched.tasks k.sched.current_task).process = f.process

/-- The first process that is started has the current task. -/
theorem startProcess_first {process : Addr} {k k' : Kernel} {u : Unit} {rs : List (Addr × ℕ)}
    (h : startProcess process k = some (u, k')) (ho : HeapOwns k.heap rs)
    (hhead : k.sched.task_head = 0#32) :
    k'.sched.current_task ≠ 0#32 ∧
      (k'.sched.tasks k'.sched.current_task).process = process := by
  obtain ⟨task, k₁, hnew, -, -, hsched, -⟩ := startProcess_some h
  obtain ⟨-, chunk, shape, ip, hown, -, -, -, -, -, hlist⟩ := taskNew_some hnew ho
  have htask : task ≠ 0#32 := hown.ne_zero (List.mem_append_right _ List.mem_cons_self)
  unfold taskListAppend at hlist
  rw [if_pos (by exact hhead)] at hlist
  rw [hsched, hlist]
  refine ⟨htask, ?_⟩
  dsimp only
  rw [assign_tasks, if_pos rfl]
  rfl

/-- A process with a stack of four blocks, whose program is running; nothing else is allocated. -/
theorem one_process_boot : ∃ (k : Kernel) (f : ProcFoot) (rs : List (Addr × ℕ)),
    Hosts k [f] ((blockAddr 1030, 4) :: rs) ∧ Caller k f ∧ Packed k.heap 1034 ∧
      f.process ≠ 0#32 ∧ (k.procs f.process).task ≠ 0#32 ∧
      ∀ i, ((k.procs f.process).allocations i).ptr = 0#32 := by
  have hsize : blocksFor sizeofProcess = 3 := rfl
  obtain ⟨k, hz, hpk, -⟩ := packed_bootKernel.kernel_kzalloc sizeofProcess (by decide)
    (by rw [hsize]; omega)
  obtain ⟨hheap, -, -, honly⟩ := kzalloc_some hz
  rw [hsize] at hpk
  have hproc : blockAddr 0 ≠ 0#32 := blockAddr_ne_zero (by omega)
  obtain ⟨-, ho⟩ := (heapOwns_bootKernel.kzalloc (by decide) hheap).resolve_left
    fun h => hproc h.1
  have hnone : ∀ p i, ((k.procs p).allocations i).ptr = 0#32 := by
    intro p i
    rw [honly.procs]
    rfl
  obtain ⟨k₁, hs₁, hpk₁, -, hnone₁, -⟩ := hpk.start (by omega) hproc
    (fun p => by rw [honly.procs]; exact (by decide : processFiletypeBinary ≠ processFiletypeElf))
    hnone (fun h => absurd (by rw [honly.sched]; rfl) h) []
  obtain ⟨f, hf, rs, hinv⟩ := (MemRun.Inv.init ho).start
    ⟨List.not_mem_nil, fun i _ => hnone _ i⟩ hs₁
  obtain ⟨⟨_, k'⟩, hcode, heq⟩ := Option.map_eq_some_iff.mp hs₁
  cases heq
  have hcaller := startProcess_first hcode ho (by rw [honly.sched]; rfl)
  have hstack : blocksFor maerosUserProgramStackSize = 4 := rfl
  obtain ⟨k₂, hz₂, hpk₂, -⟩ := hpk₁.kernel_kzalloc maerosUserProgramStackSize (by decide)
    (by rw [hstack]; omega)
  obtain ⟨-, -, -, honly₂⟩ := kzalloc_some hz₂
  have hhosts₂ := hinv.hosts.kzalloc (by decide) hz₂ (blockAddr_ne_zero (by omega))
  rw [hstack] at hpk₂ hhosts₂
  refine ⟨k₂, f, rs, hhosts₂, ?_, hpk₂, hf ▸ hproc, ?_, ?_⟩
  · unfold Caller
    rw [honly₂.sched, hf]
    exact hcaller
  · rw [honly₂.procs]
    exact hinv.owns.ne_zero (List.mem_append_right _ (hinv.task f List.mem_cons_self))
  · intro i
    rw [honly₂.procs]
    exact hnone₁ _ i

end MaerOS.Analysis
