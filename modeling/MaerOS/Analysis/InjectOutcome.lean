import MaerOS.Analysis.ParseCommand

/-!
# How injecting arguments ends

`process_inject_arguments` asks for one block for the array `argv` and one for each
string, and each of them takes one of the 1024 slots of the process. If the `next`
pointers of the list lie in live blocks, the loop finds them as they were, whatever it
writes: it returns no error if and only if there are blocks and slots for all of them.
In any case the processes and the task list stay as they are.
-/

set_option autoImplicit false

namespace MaerOS.Analysis

open MaerOS.Lib MaerOS.Model

/-- The array `processes`, `current_process` and the task list are the same. -/
structure SameProcesses (k k' : Kernel) : Prop where
  processes : k'.processes = k.processes
  current_process : k'.current_process = k.current_process
  sched : k'.sched = k.sched

theorem SameProcesses.refl (k : Kernel) : SameProcesses k k := ⟨rfl, rfl, rfl⟩

theorem SameProcesses.trans {k k₁ k₂ : Kernel} (h : SameProcesses k k₁)
    (h' : SameProcesses k₁ k₂) : SameProcesses k k₂ :=
  ⟨h'.processes.trans h.processes, h'.current_process.trans h.current_process,
    h'.sched.trans h.sched⟩

theorem RequestFrame.same {k k' : Kernel} {process ptr : Addr} {size : BitVec 32}
    (h : RequestFrame k k' process size ptr) : SameProcesses k k' :=
  ⟨h.processes, h.current_process, h.sched⟩

/-! ## Lists that are kept -/

/-- The words `next` of the nodes are the same. -/
theorem ChainAt.congr {m m' : Memory} {p : Addr} {nodes : List Addr} (h : ChainAt m p nodes)
    (hwords : ∀ a ∈ nodes, load32 m' (commandNext a) = load32 m (commandNext a)) :
    ChainAt m' p nodes := by
  induction nodes generalizing p with
  | nil => exact h
  | cons a nodes ih =>
    refine ⟨h.1, h.2.1, ?_⟩
    rw [hwords a List.mem_cons_self]
    exact ih h.2.2 fun b hb => hwords b (List.mem_cons_of_mem _ hb)

/-- A word is the same if its four bytes are. -/
theorem load32_of_bytes {m m' : Memory} {a : Addr}
    (h : ∀ j < 4, m' (a + BitVec.ofNat 32 j) = m (a + BitVec.ofNat 32 j)) :
    load32 m' a = load32 m a := by
  refine load32_congr ?_ (h 1 (by omega)) (h 2 (by omega)) (h 3 (by omega))
  simpa using h 0 (by omega)

section Inject

variable {k k₁ : Kernel} {foots : List ProcFoot} {rs : List (Addr × ℕ)}

/-- A list of arguments whose `next` pointers lie on live pages. -/
structure LiveChain (k : Kernel) (foots : List ProcFoot) (rs : List (Addr × ℕ)) (current : Addr)
    (nodes : List Addr) : Prop where
  chain : ChainAt k.mem current nodes
  live : ∀ a ∈ nodes, ∀ j < 4, LivePage k foots rs (pageOf (commandNext a + BitVec.ofNat 32 j))

/-- None of these pages is that of `argv`. -/
structure InjectList (k : Kernel) (foots : List ProcFoot) (rs : List (Addr × ℕ))
    (argv current : Addr) (nodes : List Addr) : Prop
    extends LiveChain k foots rs current nodes where
  apart : ∀ a ∈ nodes, ∀ j < 4, pageOf (commandNext a + BitVec.ofNat 32 j) ≠ pageOf argv

/-- **A round of the loop**: the string and the word of `argv` are stored where the rest of the list
is not. -/
theorem Grant.injectRound {str argv current : Addr} (h : Grant k k₁ foots rs str)
    (hargv : PageAligned argv) (hlive : LivePage k foots rs (pageOf argv)) {i : ℕ} (hi : i < 1024)
    {a : Addr} {nodes : List Addr} (hlist : InjectList k foots rs argv current (a :: nodes))
    {m : Memory} (hm : m = store32 (Model.strncpy k₁.mem str current sizeofArgument)
      (wordIndex argv i) str) :
    Hosts { k₁ with mem := m } foots rs ∧ LivePage { k₁ with mem := m } foots rs (pageOf argv) ∧
      InjectList { k₁ with mem := m } foots rs argv (load32 m (commandNext current)) nodes := by
  have hcopy : ∀ q, q ≠ pageOf str →
      AgreeOnPage k₁.mem (Model.strncpy k₁.mem str current sizeofArgument) q := by
    rintro q hq x rfl
    have hfar := far_of_pageOf_ne h.aligned hq
    refine strncpy_of_far _ (by decide) (by decide) ?_
    unfold sizeofArgument
    omega
  have hgrant := h.write hcopy
  have hstore : ∀ q, q ≠ pageOf argv →
      AgreeOnPage (Model.strncpy k₁.mem str current sizeofArgument) m q := fun q hq => by
    rw [hm]
    exact agreeOnPage_store32 hargv hi _ hq
  have hargvLive : LivePage k₁ foots rs (pageOf argv) := (h.live _).mpr (.inr hlive)
  have hwords : ∀ b ∈ a :: nodes, load32 m (commandNext b) = load32 k.mem (commandNext b) := by
    intro b hb
    refine load32_of_bytes fun j hj => ?_
    rw [hstore _ (hlist.apart b hb j hj) _ rfl]
    exact hgrant.agree _ (hlist.live b hb j hj) _ rfl
  obtain ⟨rfl, -, hrest⟩ := hlist.chain
  refine ⟨hgrant.hosts.write fun q hq => hstore q ?_, hargvLive, ⟨⟨?_, fun b hb j hj => ?_⟩,
    fun b hb => hlist.apart b (List.mem_cons_of_mem _ hb)⟩⟩
  · rintro rfl
    exact hq hargvLive
  · rw [hwords _ List.mem_cons_self]
    exact hrest.congr fun b hb => hwords b (List.mem_cons_of_mem _ hb)
  · exact (h.live _).mpr (.inr (hlist.live b (List.mem_cons_of_mem _ hb) j hj))

variable {f : ProcFoot}

/-- **The loop of `process_inject_arguments`** returns no error exactly if there are a free slot and
a free block for each node. -/
theorem processInjectLoop_outcome (hf : f ∈ foots) {argv : Addr} (hargv : PageAligned argv)
    (nodes : List Addr) {n i : ℕ} {current : Addr} {s : CommandKernel} (hn : nodes.length < n)
    (hi : i + freeSlots (s.kernel.procs f.process) ≤ 1024) (hhosts : Hosts s.kernel foots rs)
    (hreq : Requester s.kernel f) (hlive : LivePage s.kernel foots rs (pageOf argv))
    (hlist : InjectList s.kernel foots rs argv current nodes) :
    ∃ res s', processInjectLoop f.process argv n current i s = some (res, s') ∧
      SameProcesses s.kernel s'.kernel ∧
      (0 ≤ res ↔ nodes.length ≤ freeSlots (s.kernel.procs f.process) ∧
        nodes.length ≤ (freeBlocks s.kernel.heap).card) := by
  induction nodes generalizing n i current s with
  | nil =>
    obtain ⟨n, rfl⟩ : ∃ l, n = l + 1 := ⟨n - 1, by simp at hn; omega⟩
    refine ⟨0, s, ?_, .refl _, by simp⟩
    unfold processInjectLoop
    rw [if_pos (show current = 0#32 from hlist.chain)]
    rfl
  | cons a nodes ih =>
    rw [List.length_cons] at hn ⊢
    obtain ⟨n, rfl⟩ : ∃ l, n = l + 1 := ⟨n - 1, by omega⟩
    have hcur : current ≠ 0#32 := hlist.chain.1 ▸ hlist.chain.2.1
    have hone : blocksFor (BitVec.ofNat 32 sizeofArgument) = 1 := rfl
    obtain ⟨str, k₁, hcode, hframe, hend⟩ := hhosts.request hf hreq hone
    unfold processInjectLoop
    rw [if_neg hcur, bind_of_some (onKernel_some hcode)]
    cases hend with
    | denied hnone hkept =>
      refine ⟨-enomem, { s with kernel := k₁ }, ?_, hframe.same, iff_of_false (by decide) ?_⟩
      · rw [if_pos rfl]
        rfl
      · omega
    | granted _ hne hblock hslot hgrant =>
      rw [if_neg hne]
      obtain ⟨m, hm⟩ : ∃ m, m = store32 (strncpy k₁.mem str current sizeofArgument)
        (wordIndex argv i) str := ⟨_, rfl⟩
      obtain ⟨hhosts', hlive', hlist'⟩ :=
        hgrant.injectRound hargv hlive (i := i) (by omega) hlist hm
      have hreq' := hreq.of_frame hframe
      obtain ⟨res, s', hloop, hsame, hiff⟩ := ih (n := n) (i := i + 1)
        (s := { s with kernel := { k₁ with mem := m } }) (by omega) (by dsimp only; omega)
        hhosts' ⟨hreq'.process, hreq'.task⟩ hlive' hlist'
      refine ⟨res, s', ?_, hframe.same.trans ⟨hsame.processes, hsame.current_process,
        hsame.sched⟩, hiff.trans ?_⟩
      · rw [hm] at hloop
        exact hloop
      · dsimp only
        omega

/-! ## The array and the strings -/

/-- Each of the `next` pointers has an address of its own in the heap. -/
theorem LiveChain.length_le {root : Addr} {nodes : List Addr}
    (h : LiveChain k foots rs root nodes) (hhosts : Hosts k foots rs) :
    nodes.length ≤ 4096 * 25600 := by
  have hnodup : (nodes.map fun a => (commandNext a).toNat).Nodup := by
    refine h.chain.nodup.map fun a b heq => ?_
    have := BitVec.eq_of_toNat_eq heq
    unfold commandNext at this
    bv_omega
  have hsub : (nodes.map fun a => (commandNext a).toNat) ⊆
      List.range' (4096 * 4096) (4096 * 25600) := by
    intro x hx
    obtain ⟨a, ha, rfl⟩ := List.mem_map.mp hx
    obtain ⟨r, hr, hin⟩ := h.live a ha 0 (by omega)
    have habove := hhosts.owns.above r (List.mem_append_right _ hr)
    have hinside := hhosts.owns.inside (List.mem_append_right _ hr)
    have hzero : commandNext a + BitVec.ofNat 32 0 = commandNext a := by simp
    rw [hzero] at hin
    unfold InRun pageOf at hin
    unfold pageOf at habove hinside
    rw [List.mem_range'_1]
    omega
  have hlen := (List.subperm_of_subset hnodup hsub).length_le
  rwa [List.length_map, List.length_range'] at hlen

/-- A granted request leaves the list alone. -/
theorem LiveChain.malloc {root argv : Addr} {nodes : List Addr}
    (h : LiveChain k foots rs root nodes) (hhosts : Hosts k foots rs) (hf : f ∈ foots)
    {size : BitVec 32} (hsize : 1 ≤ size.toNat)
    (hcode : processMalloc f.process size k = some (argv, k₁)) (hne : argv ≠ 0#32) :
    Hosts k₁ foots rs ∧ PageAligned argv ∧ LivePage k₁ foots rs (pageOf argv) ∧
      InjectList k₁ foots rs argv root nodes := by
  obtain ⟨hhosts₁, hperm, hagree, -⟩ := hhosts.malloc hf hsize hcode hne
  have hmem : (argv, blocksFor size) ∈ liveRuns k₁ foots rs :=
    hperm.mem_iff.mpr List.mem_cons_self
  have hown := hhosts₁.owns.perm
    ((List.Perm.append_left (tableRuns foots) hperm).trans List.perm_middle)
  have hpage : InRun (argv, blocksFor size) (pageOf argv) := by
    have := hhosts₁.owns.inside (List.mem_append_right _ hmem)
    unfold InRun
    dsimp only at this ⊢
    omega
  have hsame : ∀ a ∈ nodes, load32 k₁.mem (commandNext a) = load32 k.mem (commandNext a) := by
    intro a ha
    refine load32_of_bytes fun j hj => ?_
    obtain ⟨r, hr, hin⟩ := h.live a ha j hj
    exact hagree r hr _ hin _ rfl
  refine ⟨hhosts₁, hhosts₁.owns.aligned _ (List.mem_append_right _ hmem), ⟨_, hmem, hpage⟩,
    ⟨⟨h.chain.congr hsame, fun a ha j hj => ?_⟩, fun a ha j hj heq => ?_⟩⟩
  · obtain ⟨r, hr, hin⟩ := h.live a ha j hj
    exact ⟨r, hperm.mem_iff.mpr (List.mem_cons_of_mem _ hr), hin⟩
  · obtain ⟨r, hr, hin⟩ := h.live a ha j hj
    rw [heq] at hin
    exact hown.apart_cons (List.mem_append_right _ hr) hpage hin

/-- **`process_inject_arguments`** once there is memory for `argv`. -/
theorem processInjectArguments_granted (hf : f ∈ foots) {root argv : Addr} {nodes : List Addr}
    {s : CommandKernel} (hne : nodes ≠ []) (hhosts : Hosts s.kernel foots rs)
    (hreq : Requester s.kernel f) (hlist : LiveChain s.kernel foots rs root nodes)
    (hcode : processMalloc f.process (BitVec.ofNat 32 (4 * nodes.length)) s.kernel =
      some (argv, k₁)) (hargv : argv ≠ 0#32) :
    ∃ res s', processInjectArguments f.process root s = some (res, s') ∧
      SameProcesses s.kernel s'.kernel ∧
      (0 ≤ res ↔ nodes.length + 1 ≤ freeSlots (s.kernel.procs f.process) ∧
        nodes.length ≤ (freeBlocks k₁.heap).card) := by
  have hpos := List.length_pos_iff.mpr hne
  have hmax := hlist.length_le hhosts
  have hsize : 1 ≤ (BitVec.ofNat 32 (4 * nodes.length)).toNat := by
    rw [BitVec.toNat_ofNat]
    omega
  obtain ⟨hhosts₁, haligned, hlive, hlist₁⟩ := hlist.malloc hhosts hf hsize hcode hargv
  have hframe := processMalloc_frame hcode
  have hslots := hframe.freeSlots hargv
  have hle := freeSlots_le (s.kernel.procs f.process)
  obtain ⟨res, s', hloop, hsame, hiff⟩ := processInjectLoop_outcome hf haligned nodes
    (n := addressSpace) (i := 0) (s := { s with kernel := k₁ }) hlist.chain.length_lt
    (by dsimp only; omega) hhosts₁ (hreq.of_frame hframe) hlive hlist₁
  have hiff' : 0 ≤ res ↔ nodes.length + 1 ≤ freeSlots (s.kernel.procs f.process) ∧
      nodes.length ≤ (freeBlocks k₁.heap).card := by
    rw [hiff, ← hslots, Nat.add_le_add_iff_right]
  rw [processInjectArguments_eq hne hlist.chain, bind_of_some (onKernel_some hcode), if_neg hargv,
    bind_of_some hloop]
  by_cases hneg : res < 0
  · rw [if_pos hneg]
    exact ⟨res, s', rfl, hframe.same.trans hsame, hiff'⟩
  · rw [if_neg hneg]
    refine ⟨res, _, rfl, ?_, hiff'⟩
    exact hframe.same.trans ⟨hsame.processes, hsame.current_process, hsame.sched⟩

/-- Without memory for `argv` it returns an error. -/
theorem processInjectArguments_denied {root : Addr} {nodes : List Addr} {s : CommandKernel}
    (hne : nodes ≠ []) (hchain : ChainAt s.kernel.mem root nodes)
    (hcode : processMalloc f.process (BitVec.ofNat 32 (4 * nodes.length)) s.kernel =
      some (0#32, k₁)) :
    processInjectArguments f.process root s = some (-enomem, { s with kernel := k₁ }) := by
  rw [processInjectArguments_eq hne hchain, bind_of_some (onKernel_some hcode), if_pos rfl]
  rfl

/-- **Up to 1024 arguments**: whether it returns an error is decided by the free blocks and the free
slots. -/
theorem processInjectArguments_short (hf : f ∈ foots) {root : Addr} {nodes : List Addr}
    {s : CommandKernel} (hne : nodes ≠ []) (hshort : nodes.length ≤ 1024)
    (hhosts : Hosts s.kernel foots rs) (hreq : Requester s.kernel f)
    (hlist : LiveChain s.kernel foots rs root nodes) :
    ∃ res s', processInjectArguments f.process root s = some (res, s') ∧
      SameProcesses s.kernel s'.kernel ∧
      (0 ≤ res ↔ nodes.length + 1 ≤ freeSlots (s.kernel.procs f.process) ∧
        nodes.length + 1 ≤ (freeBlocks s.kernel.heap).card) := by
  have hpos := List.length_pos_iff.mpr hne
  have hone : blocksFor (BitVec.ofNat 32 (4 * nodes.length)) = 1 := by
    unfold blocksFor
    rw [BitVec.toNat_ofNat]
    omega
  obtain ⟨argv, k₁, hcode, hframe, hend⟩ := hhosts.request hf hreq hone
  cases hend with
  | denied hnone hkept =>
    refine ⟨_, _, processInjectArguments_denied hne hlist.chain hcode, hframe.same,
      iff_of_false (by decide) ?_⟩
    omega
  | granted _ hargv hblock hslot hgrant =>
    obtain ⟨res, s', hrun, hsame, hiff⟩ :=
      processInjectArguments_granted hf hne hhosts hreq hlist hcode hargv
    refine ⟨res, s', hrun, hsame, hiff.trans ?_⟩
    omega

/-- **`process_inject_arguments`** of a list of any length: it returns no error exactly if there are
a free slot and a free block for `argv` and for each string. -/
theorem processInjectArguments_outcome (hf : f ∈ foots) {root : Addr} {nodes : List Addr}
    {s s' : CommandKernel} {res : ℤ} (hne : nodes ≠ []) (hhosts : Hosts s.kernel foots rs)
    (hreq : Requester s.kernel f) (hlist : LiveChain s.kernel foots rs root nodes)
    (hrun : processInjectArguments f.process root s = some (res, s')) :
    SameProcesses s.kernel s'.kernel ∧
      (0 ≤ res ↔ nodes.length + 1 ≤ freeSlots (s.kernel.procs f.process) ∧
        nodes.length + 1 ≤ (freeBlocks s.kernel.heap).card) := by
  by_cases hshort : nodes.length ≤ 1024
  · obtain ⟨res', s₁, hrun', hsame, hiff⟩ :=
      processInjectArguments_short hf hne hshort hhosts hreq hlist
    rw [hrun'] at hrun
    cases hrun
    exact ⟨hsame, hiff⟩
  -- there are not enough slots, with or without memory for `argv`
  have hle := freeSlots_le (s.kernel.procs f.process)
  have hmany : ¬ nodes.length + 1 ≤ freeSlots (s.kernel.procs f.process) := by omega
  cases hcode : processMalloc f.process (BitVec.ofNat 32 (4 * nodes.length)) s.kernel with
  | none =>
    rw [processInjectArguments_eq hne hlist.chain] at hrun
    obtain ⟨argv, s₁, hmalloc, -⟩ := prog_bind.mp hrun
    unfold onKernel at hmalloc
    rw [hcode] at hmalloc
    cases hmalloc
  | some r =>
    obtain ⟨argv, k₁⟩ := r
    by_cases hargv : argv = 0#32
    · subst hargv
      rw [processInjectArguments_denied hne hlist.chain hcode] at hrun
      cases hrun
      exact ⟨(processMalloc_frame hcode).same, iff_of_false (by decide) fun h => hmany h.1⟩
    · obtain ⟨res', s₁, hrun', hsame, hiff⟩ :=
        processInjectArguments_granted hf hne hhosts hreq hlist hcode hargv
      rw [hrun'] at hrun
      cases hrun
      exact ⟨hsame, iff_of_false (fun h => hmany (hiff.mp h).1) fun h => hmany h.1⟩

end Inject

end MaerOS.Analysis
