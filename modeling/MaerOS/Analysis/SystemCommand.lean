import MaerOS.Analysis.InjectOutcome
import MaerOS.Analysis.ProgramPath
import MaerOS.Analysis.TableRuns

/-!
# A system command that fails

Command 7 loads the program and switches to its process before it hands over the
arguments, and nothing undoes this when they cannot be handed over. The command leaves
the processes and the task list as they were exactly if it fails before, or does not
fail: if the list has at most 1023 arguments and the heap has a free block for each of
them and for the array `argv` once the program is loaded.
-/

set_option autoImplicit false

namespace MaerOS.Analysis

open MaerOS.Lib MaerOS.Model

/-! ## The handler step by step -/

section Handler

variable {s s' : Isr80hState} {path : Addr}

/-- A step of the kernel, taken apart. -/
theorem onKernel_cases {α : Type} {m : KernelM α} {c c' : CommandKernel} {a : α}
    (h : onKernel m c = some (a, c')) : ∃ k', m c.kernel = some (a, k') ∧
      c' = { c with kernel := k' } := by
  obtain ⟨⟨b, k'⟩, hm, heq⟩ := Option.map_eq_some_iff.mp h
  cases heq
  exact ⟨k', hm, rfl⟩

/-- A step of the command, taken apart. -/
theorem onCommand_cases {α : Type} {m : CommandM α} {a : α} (h : onCommand m s = some (a, s')) :
    ∃ c', m s.command = some (a, c') ∧ s' = { s with command := c' } := by
  obtain ⟨⟨b, c'⟩, hm, heq⟩ := Option.map_eq_some_iff.mp h
  cases heq
  exact ⟨c', hm, rfl⟩

theorem taskDirectory_same {task cr3 : Addr} {k k' : Kernel}
    (h : taskDirectory task k = some (cr3, k')) : k' = k := by
  unfold taskDirectory at h
  obtain ⟨_, k₁, hd, h₁⟩ := prog_bind.mp h
  obtain ⟨-, rfl⟩ := deref_some hd
  rw [bind_get] at h₁
  obtain ⟨_, k₂, hd₂, h₂⟩ := prog_bind.mp h₁
  obtain ⟨-, rfl⟩ := deref_some hd₂
  exact (prog_pure.mp h₂).2.symm

theorem taskGetStackItem_same {task item : Addr} {i : ℕ} {k k' : Kernel}
    (h : taskGetStackItem task i k = some (item, k')) : k' = k := by
  unfold taskGetStackItem at h
  obtain ⟨cr3, k₁, hdir, h₁⟩ := prog_bind.mp h
  obtain rfl := taskDirectory_same hdir
  rw [bind_get] at h₁
  cases hword : loadThrough cr3 k₁.mem (wordIndex (k₁.sched.tasks task).registers.esp i) with
  | none =>
    rw [hword] at h₁
    cases h₁
  | some result =>
    rw [hword] at h₁
    exact (prog_pure.mp h₁).2.symm

/-- Reading the stack of the caller changes nothing. -/
theorem stackItem_same {i : ℕ} {item : Addr} (h : stackItem i s = some (item, s')) : s' = s := by
  obtain ⟨c', hc, rfl⟩ := onCommand_cases h
  obtain ⟨k', hk, rfl⟩ := onKernel_cases hc
  rw [bind_get] at hk
  obtain rfl := taskGetStackItem_same hk
  rfl

theorem callerAddress_same {v a : Addr} (h : callerAddress v s = some (a, s')) : s' = s := by
  obtain ⟨c', hc, rfl⟩ := onCommand_cases h
  obtain ⟨k', hk, rfl⟩ := onKernel_cases hc
  rw [bind_get] at hk
  unfold taskVirtualAddressToPhysical at hk
  obtain ⟨cr3, k₁, hdir, h₁⟩ := prog_bind.mp hk
  obtain rfl := taskDirectory_same hdir
  rw [bind_get] at h₁
  obtain ⟨-, rfl⟩ := prog_pure.mp h₁
  rfl

/-- The address is none of the bytes from `path` on that the handler can store to. -/
def OffPath (path x : Addr) : Prop := 111 ≤ (x - path).toNat

/-- **Command 7 up to the path**: no program name, or the caller's arguments, with bytes of the
array `path` changed and of three more behind it at most. -/
theorem isr80hCommand7Path_cases {r : Option Addr} (h : isr80hCommand7Path path s = some (r, s')) :
    (r = none ∧ s' = s) ∨ ∃ a t, r = some a ∧ a ≠ 0#32 ∧ s' = s.withTraced t ∧
      ∀ x, OffPath path x → t.mem x = s.kernel.mem x := by
  unfold isr80hCommand7Path at h
  obtain ⟨item, s₁, hitem, h₁⟩ := prog_bind.mp h
  obtain rfl := stackItem_same hitem
  obtain ⟨a, s₂, haddr, h₂⟩ := prog_bind.mp h₁
  obtain rfl := callerAddress_same haddr
  by_cases hnull : a = 0#32
  · rw [if_pos hnull] at h₂
    obtain ⟨rfl, rfl⟩ := prog_pure.mp h₂
    exact .inl ⟨rfl, rfl⟩
  rw [if_neg hnull, bind_get] at h₂
  cases hlen : strlenLoop s₂.kernel.mem a addressSpace 0 with
  | none =>
    rw [hlen] at h₂
    cases h₂
  | some len =>
    rw [hlen] at h₂
    dsimp only at h₂
    by_cases hempty : len = 0
    · rw [if_pos hempty] at h₂
      obtain ⟨rfl, rfl⟩ := prog_pure.mp h₂
      exact .inl ⟨rfl, rfl⟩
    rw [if_neg hempty] at h₂
    obtain ⟨_, s₃, hpath, h₃⟩ := prog_bind.mp h₂
    obtain ⟨rfl, rfl⟩ := prog_pure.mp h₃
    obtain ⟨t, ht⟩ : ∃ t, t = strncpyStores (path + 3#32) a (maerosMaxPath - 1) 0
      (strcpyLiteral path pathPrefix s₂.traced) := ⟨_, rfl⟩
    have hbuilt : systemPath path a s₂ = some ((), s₂.withTraced t) := by
      rw [ht]
      rfl
    rw [hbuilt] at hpath
    cases hpath
    refine .inr ⟨a, t, rfl, hnull, rfl, fun x hx => ?_⟩
    unfold OffPath at hx
    rw [ht, strncpyStores_mem, strncpyLoop_of_far _ _ (by decide)]
    · unfold strcpyLiteral
      rw [Traced.storeAll_mem _ _ (by decide)]
      refine storeBytes_of_far ?_
      have hlen : (pathPrefix ++ [0#8]).length = 4 := rfl
      omega
    · unfold maerosMaxPath
      bv_omega

end Handler

/-! ## The process that was loaded -/

section Load

variable {k k' : Kernel} {rs : List (Addr × ℕ)} {filename : List (BitVec 8)}
  {elf binary : Table.FileUse} {res : ℤ} {process : Addr}

/-- From `k` to `k'` the process `f` was loaded: it has page tables of its own, a task, and no
allocations; it is in a slot that was empty; and the blocks `rs` are as they were, apart from the
last task of the list. -/
structure NewProcess (k k' : Kernel) (rs rest : List (Addr × ℕ)) (f : ProcFoot) : Prop where
  hosts : Hosts k' [f] (rest ++ rs)
  requester : Requester k' f
  slots : freeSlots (k'.procs f.process) = 1024
  entered : ∃ slot, k.processes slot = 0#32 ∧ k'.processes slot = f.process
  agree : ∀ r ∈ rs, r.1 ≠ appendSpot k.sched → ∀ q, InRun r q → AgreeOnPage k.mem k'.mem q

theorem freeSlots_zero {p : Process} (h : p.allocations = Process.zero.allocations) :
    freeSlots p = 1024 := by
  have hall : ((Finset.range maerosMaxProgramAllocations).filter
      fun i => (p.allocations i).ptr = 0#32) = Finset.range maerosMaxProgramAllocations := by
    refine Finset.filter_true_of_mem fun i _ => ?_
    rw [h]
    rfl
  unfold freeSlots
  rw [hall, Finset.card_range]

/-- **`process_load_switch`** that returns no error. -/
theorem tableLoadSwitch_new (h : Table.processLoadSwitch filename elf binary k =
      some ((res, process), k')) (ho : HeapOwns k.heap rs) (htail : TailIn k.sched rs)
    (hpos : 0 ≤ res) : ∃ f rest, f.process = process ∧ NewProcess k k' rs rest f := by
  rcases tableLoadSwitch_some h with ⟨hneg, -⟩ | ⟨k₁, hempty, hload, rfl⟩
  · omega
  obtain ⟨hkeep, -, hcase⟩ := tableLoadForSlot_owns hload ho htail.spot
  rcases hcase with ⟨hneg, -⟩ | ⟨-, p, lost, rfl, -, -, hzero, hup, hown, hslots, -⟩
  · omega
  obtain ⟨own, hown'⟩ : ∃ own, p.holds k₁ = allocRuns (k₁.procs p.process) ++ own := ⟨_, rfl⟩
  have htask := hown.ne_zero (List.mem_append_left _ (p.holds_subset k₁ (p.task_mem_holds k₁)))
  have hprocess :=
    hown.ne_zero (List.mem_append_left _ (p.holds_subset k₁ (p.process_mem_holds k₁)))
  refine ⟨p.foot, own ++ lost, rfl, ⟨⟨?_, ?_, ?_, ?_⟩, ⟨hprocess, htask⟩, freeSlots_zero hzero,
    ⟨_, hempty, ?_⟩, hkeep.mem⟩⟩
  · simp
  · unfold LiveProc.runs at hown
    rw [hown'] at hown
    unfold tableRuns liveRuns
    simpa [LiveProc.process] using hown
  · intro f hf
    obtain rfl := List.mem_singleton.mp hf
    exact hup.chunk.dir
  · intro f hf
    obtain rfl := List.mem_singleton.mp hf
    exact hup.chunk.map
  · dsimp only
    rw [hslots, Function.update_self]

end Load

/-! ## The list of the caller -/

/-- Where the `next` pointers lead from `root` on. -/
inductive Follows (m : Memory) (root : Addr) : Addr → Prop where
  | root : Follows m root root
  | next {a : Addr} (h : Follows m root a) (hne : a ≠ 0#32) :
    Follows m root (load32 m (commandNext a))

section Follows

variable {m m' : Memory} {root p : Addr} {nodes : List Addr}

theorem ChainAt.follows (h : ChainAt m p nodes) (hp : Follows m root p) {a : Addr}
    (ha : a ∈ nodes) : Follows m root a := by
  induction nodes generalizing p with
  | nil => cases ha
  | cons b nodes ih =>
    obtain ⟨rfl, hne, hrest⟩ := h
    rcases List.mem_cons.mp ha with rfl | ha
    · exact hp
    · exact ih hrest (hp.next hne) ha

/-- Following the pointers of a chain leads to its nodes and then to the null pointer. -/
theorem ChainAt.mem_of_follows (h : ChainAt m root nodes) {a : Addr} (ha : Follows m root a)
    (hne : a ≠ 0#32) : a ∈ nodes := by
  have hnode : ∀ {p : Addr} {rest : List Addr}, ChainAt m p rest → p ≠ 0#32 → p ∈ rest := by
    intro p rest hp hpne
    cases rest with
    | nil => exact absurd hp hpne
    | cons b rest =>
      rw [hp.1]
      exact List.mem_cons_self
  induction ha with
  | root => exact hnode h hne
  | next _ hbne ih =>
    obtain ⟨front, rest, rfl, -, -, hrest⟩ := h.suffix (ih hbne)
    refine List.mem_append_right _ (List.mem_cons_of_mem _ (hnode hrest hne))

/-- If the pointers on the way are the same, there is a chain in both memories or in none. -/
theorem chainAt_iff_of_follows (hwords : ∀ a, Follows m root a → a ≠ 0#32 →
      load32 m' (commandNext a) = load32 m (commandNext a)) (hp : Follows m root p) :
    ChainAt m' p nodes ↔ ChainAt m p nodes := by
  induction nodes generalizing p with
  | nil => exact Iff.rfl
  | cons a nodes ih =>
    unfold ChainAt
    refine and_congr_right fun hpa => and_congr_right fun hne => ?_
    subst hpa
    rw [hwords p hp hne]
    exact ih (hp.next hne)

end Follows

/-- The `next` pointers from `root` on lie in allocated blocks, none of them the last task. -/
def UserList (k : Kernel) (rs : List (Addr × ℕ)) (root : Addr) : Prop :=
  ∀ a, Follows k.mem root a → a ≠ 0#32 → ∀ j < 4, ∃ r ∈ rs, r.1 ≠ appendSpot k.sched ∧
    InRun r (pageOf (commandNext a + BitVec.ofNat 32 j))

/-- A call of command 7: `rs` are the allocated blocks, the last task of the list is one of them,
the array `path` and the stack above it are not in the heap, and the list of the caller is in these
blocks. -/
structure SystemCall (s : Isr80hState) (path : Addr) (rs : List (Addr × ℕ)) : Prop where
  owns : HeapOwns s.kernel.heap rs
  tail : TailIn s.kernel.sched rs
  outside : ∀ i < 111, OutsideArena (path + BitVec.ofNat 32 i)
  list : ∀ arguments s₁, isr80hCommand7Path path s = some (some arguments, s₁) →
    UserList s.kernel rs arguments

/-- The program that the arguments name is loaded, with this result and in this state. -/
def LoadsTo (path : Addr) (elf binary : Table.FileUse) (s : Isr80hState) (arguments : Addr)
    (res : ℤ) (process : Addr) (s₂ : Isr80hState) : Prop :=
  ∃ s₁, isr80hCommand7Path path s = some (some arguments, s₁) ∧
    loadPath path elf binary s₁ = some ((res, process), s₂)

section Call

variable {s s₂ : Isr80hState} {path arguments process : Addr} {rs : List (Addr × ℕ)}
  {elf binary : Table.FileUse} {res : ℤ}

/-- **After the load**, in terms of the state before the call. -/
theorem SystemCall.loaded (h : SystemCall s path rs)
    (hload : LoadsTo path elf binary s arguments res process s₂) (hpos : 0 ≤ res) :
    ∃ f rest, f.process = process ∧ NewProcess s.kernel s₂.kernel rs rest f := by
  obtain ⟨s₁, hpath, hload⟩ := hload
  rcases isr80hCommand7Path_cases hpath with ⟨hnone, -⟩ | ⟨a, t, -, -, rfl, hsame⟩
  · cases hnone
  obtain ⟨c₂, hc, rfl⟩ := onCommand_cases hload
  obtain ⟨k₂, hk, rfl⟩ := onKernel_cases hc
  rw [bind_get] at hk
  have howns : HeapOwns (s.withTraced t).kernel.heap rs := h.owns
  obtain ⟨f, rest, hf, hnew⟩ := tableLoadSwitch_new hk howns h.tail hpos
  refine ⟨f, rest, hf, ⟨hnew.hosts, hnew.requester, hnew.slots, hnew.entered, ?_⟩⟩
  intro r hr hne q hq x hx
  refine (hnew.agree r hr hne q hq x hx).trans (hsame x ?_)
  -- the path is not in the heap
  by_contra hon
  unfold OffPath at hon
  have hout := h.outside (x - path).toNat (by omega)
  have habove := h.owns.above r hr
  have hinside := h.owns.inside hr
  rw [BitVec.ofNat_toNat, BitVec.setWidth_eq, show path + (x - path) = x from by bv_omega] at hout
  unfold OutsideArena at hout
  unfold InRun at hq
  omega

/-- The list is still there. -/
theorem SystemCall.chain (h : SystemCall s path rs) {f : ProcFoot} {rest : List (Addr × ℕ)}
    (hnew : NewProcess s.kernel s₂.kernel rs rest f) {s₁ : Isr80hState}
    (hpath : isr80hCommand7Path path s = some (some arguments, s₁)) {nodes : List Addr} :
    (ChainAt s₂.kernel.mem arguments nodes ↔ ChainAt s.kernel.mem arguments nodes) ∧
      (ChainAt s.kernel.mem arguments nodes →
        LiveChain s₂.kernel [f] (rest ++ rs) arguments nodes) := by
  have hlist := h.list arguments s₁ hpath
  have hwords : ∀ a, Follows s.kernel.mem arguments a → a ≠ 0#32 →
      load32 s₂.kernel.mem (commandNext a) = load32 s.kernel.mem (commandNext a) := by
    intro a ha hne
    refine load32_of_bytes fun j hj => ?_
    obtain ⟨r, hr, hspot, hin⟩ := hlist a ha hne j hj
    exact hnew.agree r hr hspot _ hin _ rfl
  have hiff : ∀ nodes, ChainAt s₂.kernel.mem arguments nodes ↔
      ChainAt s.kernel.mem arguments nodes := fun _ => chainAt_iff_of_follows hwords .root
  refine ⟨hiff nodes, fun hchain => ⟨(hiff nodes).mpr hchain, fun a ha j hj => ?_⟩⟩
  obtain ⟨r, hr, -, hin⟩ := hlist a (hchain.follows .root ha) (hchain.nonnull ha) j hj
  exact ⟨r, List.mem_append_right _ (List.mem_append_right _ hr), hin⟩

/-- The list has at most 1023 arguments, and there is a free block for the array `argv` and for each
of them. -/
def ListFits (m : Memory) (root : Addr) (h : Heap) : Prop :=
  ∃ nodes, ChainAt m root nodes ∧ nodes.length ≤ 1023 ∧ nodes.length + 1 ≤ (freeBlocks h).card

/-- **Handing over the arguments** to the process just loaded. -/
theorem SystemCall.inject (h : SystemCall s path rs)
    (hload : LoadsTo path elf binary s arguments res process s₂) (hpos : 0 ≤ res) {r : ℤ}
    {c : CommandKernel}
    (hrun : processInjectArguments process arguments s₂.command = some (r, c)) :
    SameProcesses s₂.kernel c.kernel ∧
      (0 ≤ r ↔ ListFits s.kernel.mem arguments s₂.kernel.heap) := by
  obtain ⟨f, rest, rfl, hnew⟩ := h.loaded hload hpos
  obtain ⟨s₁, hpath, -⟩ := hload
  have hne : arguments ≠ 0#32 := by
    rcases isr80hCommand7Path_cases hpath with ⟨hnone, -⟩ | ⟨a, t, heq, hne, -⟩
    · cases hnone
    · cases heq
      exact hne
  -- the arguments were counted
  obtain ⟨nodes, hcounted⟩ : ∃ nodes, ChainAt s₂.kernel.mem arguments nodes := by
    unfold processInjectArguments at hrun
    rw [bind_get] at hrun
    cases hcount : processCountCommandArguments s₂.command.kernel.mem addressSpace arguments 0 with
    | none =>
      rw [hcount] at hrun
      cases hrun
    | some argc => exact chainAt_of_count hcount
  have hchain := (h.chain hnew hpath).1.mp hcounted
  have hnonempty : nodes ≠ [] := by
    rintro rfl
    exact hne hchain
  obtain ⟨hsame, hiff⟩ := processInjectArguments_outcome (s := s₂.command) List.mem_cons_self
    hnonempty hnew.hosts hnew.requester ((h.chain hnew hpath).2 hchain) hrun
  refine ⟨hsame, hiff.trans ?_⟩
  have hslots : freeSlots (s₂.command.kernel.procs f.process) = 1024 := hnew.slots
  rw [hslots]
  constructor
  · rintro ⟨hshort, hblocks⟩
    exact ⟨nodes, hchain, by omega, hblocks⟩
  · rintro ⟨nodes', hchain', hshort, hblocks⟩
    rw [hchain.unique hchain']
    exact ⟨by omega, hblocks⟩

/-- There is one outcome of the load at most. -/
theorem LoadsTo.unique (h : LoadsTo path elf binary s arguments res process s₂)
    {arguments' process' : Addr} {res' : ℤ} {s₃ : Isr80hState}
    (h' : LoadsTo path elf binary s arguments' res' process' s₃) :
    arguments' = arguments ∧ res' = res ∧ process' = process ∧ s₃ = s₂ := by
  obtain ⟨s₁, hpath, hload⟩ := h
  obtain ⟨s₄, hpath', hload'⟩ := h'
  rw [hpath] at hpath'
  cases hpath'
  rw [hload] at hload'
  cases hload'
  exact ⟨rfl, rfl, rfl, rfl⟩

/-- The table is no longer what it was. -/
theorem NewProcess.changed {k k' : Kernel} {rest : List (Addr × ℕ)} {f : ProcFoot}
    (h : NewProcess k k' rs rest f) : k'.processes ≠ k.processes := by
  intro heq
  obtain ⟨slot, hempty, hslot⟩ := h.entered
  rw [heq, hempty] at hslot
  exact h.requester.process hslot.symm

end Call

/-- **A failed system command without an effect.** For every list of arguments of the caller and
every outcome of loading the program: if the handler returns (it returns nothing but errors, as it
ends in the new task otherwise), then `processes`, `current_process` and the task list are as before
the call, if and only if no program was loaded or the list fits: it has at most 1023 arguments, and
after the load there is a free block for `argv` and for each argument. Loading the program is
assumed to be without an effect when it fails. -/
theorem system_command_no_effect_iff (s s' : Isr80hState) (path : Addr)
    (elf binary : Table.FileUse) (rs : List (Addr × ℕ)) (out : Isr80hEnd)
    (hcall : SystemCall s path rs)
    (hatomic : ∀ arguments res process s₂, LoadsTo path elf binary s arguments res process s₂ →
      res < 0 → SameProcesses s.kernel s₂.kernel)
    (hrun : isr80hCommand7InvokeSystemCommand path elf binary s = some (out, s')) :
    ((∃ result, out = .returned result) → SameProcesses s.kernel s'.kernel) ↔
      ∀ arguments res process s₂, LoadsTo path elf binary s arguments res process s₂ → 0 ≤ res →
        ListFits s.kernel.mem arguments s₂.kernel.heap := by
  unfold isr80hCommand7InvokeSystemCommand at hrun
  obtain ⟨root, s₁, hpath, h₁⟩ := prog_bind.mp hrun
  cases root with
  | none =>
    -- no program name
    obtain ⟨rfl, rfl⟩ := prog_pure.mp h₁
    have hsame : s₁ = s := by
      rcases isr80hCommand7Path_cases hpath with ⟨-, hs⟩ | ⟨a, t, heq, -⟩
      · exact hs
      · cases heq
    refine iff_of_true (fun _ => hsame ▸ .refl _) ?_
    rintro arguments res process s₂ ⟨s₃, hpath', -⟩ -
    rw [hpath] at hpath'
    cases hpath'
  | some arguments =>
    obtain ⟨⟨res, process⟩, s₂, hload, h₂⟩ := prog_bind.mp h₁
    have hloads : LoadsTo path elf binary s arguments res process s₂ := ⟨s₁, hpath, hload⟩
    dsimp only at h₂
    by_cases hneg : res < 0
    · -- the program is not loaded
      rw [if_pos hneg] at h₂
      obtain ⟨rfl, rfl⟩ := prog_pure.mp h₂
      refine iff_of_true (fun _ => hatomic _ _ _ _ hloads hneg) ?_
      intro arguments' res' process' s₃ hl hpos
      obtain ⟨-, rfl, -, -⟩ := hloads.unique hl
      omega
    rw [if_neg hneg] at h₂
    obtain ⟨r, s₃, hinject, h₃⟩ := prog_bind.mp h₂
    obtain ⟨c, hc, rfl⟩ := onCommand_cases hinject
    obtain ⟨hsame, hfits⟩ := hcall.inject hloads (by omega) hc
    have hiff : (∀ arguments' res' process' s₃,
        LoadsTo path elf binary s arguments' res' process' s₃ → 0 ≤ res' →
          ListFits s.kernel.mem arguments' s₃.kernel.heap) ↔ 0 ≤ r := by
      rw [hfits]
      constructor
      · intro hall
        exact hall _ _ _ _ hloads (by omega)
      · intro hfit arguments' res' process' s₃ hl _
        obtain ⟨rfl, -, -, rfl⟩ := hloads.unique hl
        exact hfit
    rw [hiff]
    by_cases hr : r < 0
    · -- the program is loaded and its arguments are not handed over
      rw [if_pos hr] at h₃
      obtain ⟨rfl, rfl⟩ := prog_pure.mp h₃
      refine iff_of_false (fun hkept => ?_) (by omega)
      obtain ⟨f, rest, -, hnew⟩ := hcall.loaded hloads (by omega)
      exact hnew.changed (hsame.processes.symm.trans (hkept ⟨_, rfl⟩).processes)
    · -- the handler does not return
      rw [if_neg hr] at h₃
      refine iff_of_true ?_ (by omega)
      rintro ⟨result, rfl⟩
      obtain ⟨c', hc', -⟩ := onCommand_cases h₃
      obtain ⟨k', hk', -⟩ := onKernel_cases hc'
      obtain ⟨_, k₁, -, hk₁⟩ := prog_bind.mp hk'
      rw [bind_get] at hk₁
      obtain ⟨_, k₂, -, hk₂⟩ := prog_bind.mp hk₁
      obtain ⟨_, k₃, -, hk₃⟩ := prog_bind.mp hk₂
      cases (prog_pure.mp hk₃).1

/-! ## A caller in a heap with little room -/

section Boot

variable {k : Kernel} {rs : List (Addr × ℕ)} {spans : List (ℕ × ℕ)}

/-- **`paging_new_4gb`** in a heap whose first span is long enough. -/
theorem HeapAt.pagingNew4gb {a m : ℕ} (h : HeapAt k.heap rs ((a, m) :: spans)) (hm : 1026 < m)
    (flags : BitVec 8) : ∃ chunk shape k', Model.pagingNew4gb flags k = some (chunk, k') ∧
      HeapAt k'.heap (chunkRuns chunk shape ++ rs) ((a + 1026, m - 1026) :: spans) ∧
      ChunkAt k'.mem chunk shape (fun p => BitVec.ofNat 32 (4096 * p) ||| flags.setWidth 32) ∧
      DirectoryWords k'.mem shape flags ∧ chunk ≠ 0#32 := by
  have hcard := h.free.card_le
  obtain ⟨chunk, k', hnew⟩ := pagingNew4gb_succeeds h.owns (by omega) flags
  obtain ⟨shape, hown, hat, -, -, hne, htaken, hwords⟩ := pagingNew4gb_owned hnew h.owns
  obtain ⟨-, -, -, hfree⟩ := h.free.chunkTaken hm htaken
  exact ⟨chunk, shape, k', hnew, ⟨hown, hfree⟩, hat, hwords, hne⟩

/-- A stack, a record, a task, a program of `image` blocks and page tables, one behind the other. -/
structure CallerHeap (k : Kernel) (chunk : Addr) (shape : ChunkShape) (image : ℕ) : Prop where
  heap : HeapAt k.heap (chunkRuns chunk shape ++ [(blockAddr 8, image), (blockAddr 7, 1),
    (blockAddr 4, 3), (blockAddr 0, 4)]) [(1034 + image, 24566 - image)]
  map : ChunkAt k.mem chunk shape taskMap
  present : ∀ i < 1024, Allows pagingIsPresent (load32 k.mem (wordAt shape.dir i))
  chunk_ne : chunk ≠ 0#32

theorem callerHeap_boot {image : ℕ} (himage : 1 ≤ image) (hfit : image < 24566) :
    ∃ k chunk shape, CallerHeap k chunk shape image := by
  have hboot : HeapAt bootKernel.heap [] [(0, 25600)] :=
    ⟨heapOwns_bootKernel, packed_bootKernel.freeSpans (by omega)⟩
  obtain ⟨-, -, k₁, -, h₁, -⟩ := hboot.kzalloc (n := 4) maerosUserProgramStackSize (by decide) rfl
    (takeSpan_head (by omega))
  obtain ⟨-, -, k₂, -, h₂, -⟩ := h₁.kzalloc (n := 3) sizeofProcess (by decide) rfl
    (takeSpan_head (by omega))
  obtain ⟨-, -, k₃, -, h₃, -⟩ := h₂.kzalloc (n := 1) sizeofTask (by decide) rfl
    (takeSpan_head (by omega))
  have hsize : (BitVec.ofNat 32 (4096 * image)).toNat = 4096 * image := by
    rw [BitVec.toNat_ofNat]
    omega
  obtain ⟨-, -, k₄, -, h₄, -⟩ := h₃.kzalloc (n := image) (BitVec.ofNat 32 (4096 * image))
    (by omega) (by unfold blocksFor; omega) (takeSpan_head (by omega))
  obtain ⟨chunk, shape, k₅, -, h₅, hat, hwords, hne⟩ := h₄.pagingNew4gb (by omega) taskChunkFlags
  rw [show 0 + 4 + 3 + 1 + image + 1026 = 1034 + image from by omega,
    show 25600 - 4 - 3 - 1 - image - 1026 = 24566 - image from by omega] at h₅
  refine ⟨k₅, chunk, shape, h₅, hat, fun i hi => ?_, hne⟩
  rw [hwords i hi, BitVec.or_assoc]
  exact allows_or (by decide)

/-- The list of one argument `B` at the start of the stack, and the pointer to it behind it. -/
def oneArgument (m : Memory) : Memory :=
  store32 (store32 (storeBytes m (blockAddr 0) ([0x42#8] ++ [0#8]))
    (commandNext (blockAddr 0)) 0#32) (wordAt (blockAddr 0) 512) (blockAddr 0)

/-- The task of the caller, whose stack pointer is at the pointer to the list. -/
def callerTask (chunk : Addr) : Task :=
  { Task.zero with
    page_directory := chunk
    process := blockAddr 4
    registers := { Task.zero.registers with esp := wordAt (blockAddr 0) 512 } }

/-- The program of the caller is running, and its task is the only one. -/
def callingKernel (k : Kernel) (chunk : Addr) (processes : ℕ → Addr) : Kernel :=
  { k with
    mem := oneArgument k.mem
    sched := ⟨Function.update (fun _ => Task.zero) (blockAddr 7) (callerTask chunk),
      blockAddr 7, blockAddr 7, blockAddr 7⟩
    processes := processes
    current_process := blockAddr 4 }

theorem differOnPage_oneArgument (m : Memory) :
    DifferOnPage m (oneArgument m) (pageOf (blockAddr 0)) := by
  have hpage : PageAligned (blockAddr 0) := pageAligned_blockAddr (by omega)
  unfold oneArgument
  rw [commandNext_eq]
  exact ((differOnPage_storeBytes _ hpage (by decide)).trans
    (differOnPage_store32 _ hpage (by omega) _)).trans (differOnPage_store32 _ hpage (by omega) _)

theorem oneArgument_chain (m : Memory) :
    ChainAt (oneArgument m) (blockAddr 0) [blockAddr 0] := by
  have hpage : PageAligned (blockAddr 0) := pageAligned_blockAddr (by omega)
  refine ⟨rfl, blockAddr_ne_zero (by omega), ?_⟩
  show load32 (oneArgument m) (commandNext (blockAddr 0)) = 0#32
  unfold oneArgument
  rw [commandNext_eq, load32_store32_of_ne (wordAt_mod hpage (by omega))
    (wordAt_mod hpage (by omega)), load32_store32_self]
  intro heq
  have := (wordAt_inj hpage hpage (by omega) (by omega) heq).2
  omega

theorem oneArgument_string (m : Memory) : CString (oneArgument m) (blockAddr 0) [0x42#8] := by
  refine (cstring_storeBytes m (blockAddr 0) (s := [0x42#8]) (by decide) (by decide)).congr
    fun i hi => ?_
  have hlen : i ≤ 1 := hi
  unfold oneArgument
  rw [store32_of_far, store32_of_far]
  · unfold commandNext sizeofArgument
    rw [BitVec.toNat_sub, BitVec.toNat_add, BitVec.toNat_add, BitVec.toNat_ofNat,
      BitVec.toNat_ofNat, blockAddr_toNat (by omega)]
    omega
  · unfold wordAt
    rw [BitVec.toNat_sub, BitVec.toNat_add, BitVec.toNat_add, BitVec.toNat_ofNat,
      BitVec.toNat_ofNat, blockAddr_toNat (by omega)]
    omega

section Caller

variable {chunk : Addr} {shape : ChunkShape} {image : ℕ}

/-- The tables are as before, and the stack is mapped to itself. -/
theorem CallerHeap.walk (h : CallerHeap k chunk shape image) :
    ChunkAt (oneArgument k.mem) chunk shape taskMap ∧
      ∀ j < 4096, taskWalk shape.dir (oneArgument k.mem) (blockAddr 0 + BitVec.ofNat 32 j) =
        some (blockAddr 0 + BitVec.ofNat 32 j) := by
  have hfresh : ¬ shape.Occupies chunk (pageOf (blockAddr 0)) := by
    intro hocc
    obtain ⟨r, hr, hin⟩ := hocc.inRun
    refine (List.pairwise_append.mp h.heap.owns.apart).2.2 r hr (blockAddr 0, 4) (by simp) _ hin
      ⟨le_rfl, ?_⟩
    dsimp only
    omega
  obtain ⟨hat, hstable⟩ := h.map.taskWalk_stable hfresh (differOnPage_oneArgument k.mem)
  refine ⟨hat, fun j hj => ?_⟩
  rw [hstable]
  exact h.map.taskWalk_self (taskChunkFlags.setWidth 32) h.present (pageAligned_blockAddr (by omega))
    (by decide) (by decide) (by decide) hj

/-- The task of the caller. -/
theorem callingKernel_task (k : Kernel) (chunk : Addr) (processes : ℕ → Addr) :
    (callingKernel k chunk processes).sched.tasks (blockAddr 7) = callerTask chunk := by
  unfold callingKernel
  dsimp only
  rw [Function.update_self]

/-- The caller has the pointer to its list on its stack. -/
theorem CallerHeap.request (h : CallerHeap k chunk shape image) (processes : ℕ → Addr) :
    SystemRequest (callingKernel k chunk processes) 0x5ff100#32 (blockAddr 0) [0x42#8] := by
  obtain ⟨hat, hself⟩ := h.walk
  have htask : blockAddr 7 ≠ 0#32 := blockAddr_ne_zero (by omega)
  have hcur := callingKernel_task k chunk processes
  have hchunk : ((callingKernel k chunk processes).sched.tasks (blockAddr 7)).page_directory ≠
      0#32 := by
    rw [hcur]
    exact h.chunk_ne
  have hat₇ : ChunkAt (callingKernel k chunk processes).mem
      ((callingKernel k chunk processes).sched.tasks (blockAddr 7)).page_directory shape
      taskMap := by
    rw [hcur]
    exact hat
  have hdir : callerDirectory (callingKernel k chunk processes) = shape.dir := hat₇.chunk_word
  have hitem : taskGetStackItem (blockAddr 7) 0 (callingKernel k chunk processes) =
      some (blockAddr 0, callingKernel k chunk processes) := by
    refine taskGetStackItem_eq htask hchunk hat₇ ?_
    rw [hcur, show wordIndex (callerTask chunk).registers.esp 0 = wordAt (blockAddr 0) 512 from
      wordAt_zero _]
    show loadThrough shape.dir (oneArgument k.mem) (wordAt (blockAddr 0) 512) = _
    rw [loadThrough_self fun i hi => ?_]
    · unfold oneArgument
      rw [load32_store32_self]
    · unfold wordAt
      rw [← add_ofNat_add]
      exact hself _ (by omega)
  refine ⟨⟨htask, hchunk, ?_⟩, ⟨blockAddr 0, hitem, ?_⟩, oneArgument_string k.mem, fun i hi => ?_⟩
  · show ((callingKernel k chunk processes).sched.tasks (blockAddr 7)).process ≠ 0#32
    rw [hcur]
    exact blockAddr_ne_zero (by omega)
  · rw [hdir]
    have hzero := hself 0 (by omega)
    rw [show blockAddr 0 + BitVec.ofNat 32 0 = blockAddr 0 from by simp] at hzero
    exact mmuWalk_physical hat.dir_aligned hzero
  · have hlen : i ≤ 1 := hi
    unfold InPath maerosMaxPath
    rw [BitVec.toNat_sub, BitVec.toNat_add, BitVec.toNat_ofNat, BitVec.toNat_ofNat,
      blockAddr_toNat (by omega)]
    omega

end Caller

/-- **A call with one argument**, whatever the processes are. -/
theorem systemCall_boot (image : ℕ) (himage : 1 ≤ image) (hfit : image < 24566)
    (processes : ℕ → Addr) : ∃ (s : Isr80hState) (rs : List (Addr × ℕ)) (s₁ : Isr80hState),
      SystemCall s 0x5ff100#32 rs ∧
      isr80hCommand7Path 0x5ff100#32 s = some (some (blockAddr 0), s₁) ∧
      s.kernel.processes = processes ∧ s.kernel.current_process = blockAddr 4 ∧
      s.kernel.sched.task_tail = blockAddr 7 ∧
      FreeSpans s.kernel.heap [(1034 + image, 24566 - image)] ∧
      ChainAt s.kernel.mem (blockAddr 0) [blockAddr 0] := by
  obtain ⟨k, chunk, shape, h⟩ := callerHeap_boot himage hfit
  have hpath := isr80hCommand7Path_eq
    (s := ⟨⟨callingKernel k chunk processes, fun _ => ⟨0, 0#32⟩, 0#32⟩, []⟩) (h.request processes)
  rw [if_neg (by simp [blockAddr_ne_zero])] at hpath
  refine ⟨⟨⟨callingKernel k chunk processes, fun _ => ⟨0, 0#32⟩, 0#32⟩, []⟩, _, _,
    ⟨h.heap.owns, fun _ => ?_, fun i hi => ?_, ?_⟩, hpath, rfl, rfl, rfl,
    h.heap.free, oneArgument_chain k.mem⟩
  · simp [callingKernel]
  · unfold OutsideArena pageOf
    rw [BitVec.toNat_add, BitVec.toNat_ofNat, BitVec.toNat_ofNat]
    omega
  · intro arguments s₁ hpath' a ha hne j hj
    rw [hpath] at hpath'
    cases hpath'
    have hmem := (oneArgument_chain k.mem).mem_of_follows ha hne
    obtain rfl := List.mem_singleton.mp hmem
    refine ⟨(blockAddr 0, 4), List.mem_append_right _ (by simp), ?_, ?_⟩
    · show (blockAddr 0 : Addr) ≠ blockAddr 7
      decide
    · rw [commandNext_eq, pageOf_wordAt_add (pageAligned_blockAddr (by omega)) (by omega) hj]
      exact ⟨le_rfl, by dsimp only; omega⟩

/-- A heap with one free span has as many free blocks as the span. -/
theorem FreeSpans.card_eq {h : Heap} {a m : ℕ} (hf : FreeSpans h [(a, m)]) :
    (freeBlocks h).card = m := by
  refine le_antisymm ?_ hf.card_le
  have hsub : freeBlocks h ⊆ Finset.Ico a (a + m) := by
    intro b hb
    obtain ⟨hlt, hfree⟩ := Finset.mem_filter.mp hb
    rw [hf.total, Finset.mem_range] at hlt
    have hin := (hf.free b hlt).mp hfree
    rw [inSpans_cons, or_iff_left (inSpans_nil b)] at hin
    exact Finset.mem_Ico.mpr hin
  have hle := Finset.card_le_card hsub
  rwa [Nat.card_Ico, Nat.add_sub_cancel_left] at hle

/-- Loading the program goes through the first free slot of the table. -/
theorem loadsTo_of_slot {s s₁ : Isr80hState} {path arguments process : Addr}
    (hpath : isr80hCommand7Path path s = some (some arguments, s₁)) {slot : ℕ}
    (hslot : slot < maerosMaxProcesses) (hempty : s₁.kernel.processes slot = 0#32)
    (hfull : ∀ i < slot, s₁.kernel.processes i ≠ 0#32) {elf binary : Table.FileUse} {res : ℤ}
    {P : Kernel → Prop} (hload : ∀ filename, ∃ k',
      Table.processLoadForSlot filename elf binary slot s₁.kernel = some ((res, process), k') ∧
        P k') :
    ∃ k' s₂, P k' ∧ LoadsTo path elf binary s arguments res process s₂ ∧
      s₂.kernel = if res = 0 then { k' with current_process := process } else k' := by
  obtain ⟨k', hcode, hP⟩ := hload (stringAt s₁.kernel.mem addressSpace path)
  have hprocess : Table.processLoad (stringAt s₁.kernel.mem addressSpace path) elf binary
      s₁.kernel = some ((res, process), k') := by
    unfold Table.processLoad processLoadBy
    rw [bind_get, processGetFreeSlot_eq hslot hempty hfull, if_neg (by omega)]
    exact hcode
  have hswitch : Table.processLoadSwitch (stringAt s₁.kernel.mem addressSpace path) elf binary
      s₁.kernel = some ((res, process),
        if res = 0 then { k' with current_process := process } else k') := by
    unfold Table.processLoadSwitch
    rw [bind_of_some hprocess]
    dsimp only
    split <;> rfl
  refine ⟨k', { s₁ with command := { s₁.command with
    kernel := if res = 0 then { k' with current_process := process } else k' } }, hP,
    ⟨s₁, hpath, ?_⟩, rfl⟩
  unfold loadPath
  refine onCommand_some (onKernel_some ?_)
  rw [bind_get]
  exact hswitch

/-- **The program is loaded** where `placeLoad` says. -/
theorem SystemCall.load_bare {s s₁ : Isr80hState} {path arguments : Addr} (h : SystemCall s path rs)
    (hpath : isr80hCommand7Path path s = some (some arguments, s₁))
    (hfree : FreeSpans s.kernel.heap spans) {place : LoadPlace} {held spans' : List (ℕ × ℕ)}
    (hplace : placeLoad (bareFile 1) 1 spans = some (place, held, spans')) (slot : ℕ)
    (hslot : slot < maerosMaxProcesses) (hempty : s.kernel.processes slot = 0#32)
    (hfull : ∀ i < slot, s.kernel.processes i ≠ 0#32) :
    ∃ s₂, LoadsTo path (bareFile 1) (bareFile 1) s arguments 0 (blockAddr place.process) s₂ ∧
      FreeSpans s₂.kernel.heap spans' ∧
      s₂.kernel.current_process = blockAddr place.process ∧
      s₂.kernel.sched.task_tail = blockAddr place.task := by
  have hs₁ := hpath
  rcases isr80hCommand7Path_cases hs₁ with ⟨hnone, -⟩ | ⟨a, t, -, -, rfl, -⟩
  · cases hnone
  have hbare : (bareFile 1).toFilePass = bareElf 1 := rfl
  have hslotLoad : ∀ filename, ∃ k', Table.processLoadForSlot filename (bareFile 1) (bareFile 1) slot
      (s.withTraced t).kernel = some ((0, blockAddr place.process), k') ∧
        LoadedAt (s.withTraced t).kernel k' place 1 slot (held.map spanRun) rs spans' :=
    fun filename => HeapAt.loadForSlot (k := (s.withTraced t).kernel) ⟨h.owns, hfree⟩ hbare
      (by omega) (by omega) filename (bareFile 1) hplace h.tail hslot hempty
  obtain ⟨k', s₂, hloaded, hloads, hkernel⟩ := loadsTo_of_slot hpath hslot hempty hfull hslotLoad
  rw [if_pos rfl] at hkernel
  refine ⟨s₂, hloads, ?_, ?_, ?_⟩
  · rw [hkernel]
    exact hloaded.heap.free
  · rw [hkernel]
  · obtain ⟨chunk, ip, hsched⟩ := hloaded.sched
    rw [hkernel]
    show k'.sched.task_tail = _
    rw [hsched]
    unfold taskListAppend
    dsimp only
    split <;> rfl

/-- What `fopen` of a name that is not in the root directory does: up to the FAT descriptor it is
the same, and the descriptor is released. -/
def missingCalls : List Table.HeapAct := openingCalls.take 6 ++ [.give 0]

/-- A file that is not there. -/
def missingFile : Table.FileUse :=
  { fopen := 0, fstat := 0, filesize := 0#32, fread := 0, bytes := []
    opening := missingCalls, closing := [] }

/-- **Loading it** fails with its process record, its ELF record and the path left behind. -/
theorem HeapAt.load_missing {k : Kernel} (h : HeapAt k.heap rs spans) {p e : ℕ}
    {s₁ s₂ : List (ℕ × ℕ)} {s₃ : List (ℕ × ℕ) × List (ℕ × ℕ)}
    (hrecord : takeSpan 3 spans = some (p, s₁)) (helf : takeSpan 1 s₁ = some (e, s₂))
    (hopen : spanActs ([], s₂) missingCalls = some s₃) {slot : ℕ}
    (hslot : slot < maerosMaxProcesses) (hempty : k.processes slot = 0#32)
    (filename : List (BitVec 8)) :
    ∃ k', Table.processLoadForSlot filename missingFile missingFile slot k =
      some ((-eio, 0#32), k') ∧ SameProcesses k k' := by
  have hget : processGet k.processes slot = 0#32 := by
    unfold processGet
    rw [if_neg (by omega), Int.toNat_natCast]
    exact hempty
  obtain ⟨-, hne, k₁, hz₁, hat₁, honly₁⟩ := h.kzalloc (n := 3) sizeofProcess (by decide) rfl hrecord
  obtain ⟨-, -, k₂, hz₂, hat₂, honly₂⟩ := HeapAt.kzalloc (n := 1) (k := { k₁ with
    procs := Function.update k₁.procs (blockAddr p) Process.zero }) hat₁ sizeofElfFile (by decide)
    rfl helf
  obtain ⟨k₃, hrun, -⟩ := SpanState.acts missingCalls (k := { k₂ with
    elfs := Function.update k₂.elfs (blockAddr e) ElfFile.zero }) (s := ([], s₂))
    ⟨hat₂.owns, hat₂.free, by simp⟩ hopen
  have htraffic := @heapActs_owns 0#32 _ _ _ _ _ hrun [] _ rfl hat₂.owns
  have hload : Table.elfLoad missingFile { k₁ with
      procs := Function.update k₁.procs (blockAddr p) Process.zero } = some ((-eio, 0#32), k₃) := by
    unfold Table.elfLoad
    rw [bind_of_some hz₂, bind_onElf]
    exact prog_bind.mpr ⟨_, k₃, hrun, rfl⟩
  have hdata : Table.processLoadData missingFile missingFile (blockAddr p) { k₁ with
      procs := Function.update k₁.procs (blockAddr p) Process.zero } = some (-eio, k₃) := by
    unfold Table.processLoadData processLoadDataBy Table.processLoadElf processLoadElfBy
    exact prog_bind.mpr ⟨-eio, k₃, prog_bind.mpr ⟨_, k₃, hload, rfl⟩, rfl⟩
  refine ⟨k₃, ?_, ?_⟩
  · unfold Table.processLoadForSlot processLoadForSlotBy processLoadRecord
    rw [bind_get, hget, if_neg (not_not.mpr rfl), bind_of_some hz₁, if_neg hne, bind_onProcess,
      bind_of_some hdata]
    rfl
  · exact ⟨htraffic.spares.processes.trans (honly₂.processes.trans honly₁.processes),
      htraffic.spares.current_process.trans (honly₂.current_process.trans honly₁.current_process),
      htraffic.spares.sched.trans (honly₂.sched.trans honly₁.sched)⟩

theorem spanActs_missingCalls : spanActs ([], [(1039, 24561)]) missingCalls =
    some ([(1041, 1), (1040, 1), (1039, 1)], [(1042, 24558)]) := by decide +kernel

/-- **A program that is not there**: a process is loaded and running, the load of the second one
fails with five records left behind, and the failed command has no effect on the processes. -/
theorem system_command_missing_file : ∃ (s s' : Isr80hState) (rs : List (Addr × ℕ)),
    SystemCall s 0x5ff100#32 rs ∧ s.kernel.processes 0 = s.kernel.current_process ∧
      (∀ arguments res process s₂, LoadsTo 0x5ff100#32 missingFile missingFile s arguments res
        process s₂ → res < 0 → SameProcesses s.kernel s₂.kernel) ∧
      isr80hCommand7InvokeSystemCommand 0x5ff100#32 missingFile missingFile s =
        some (error (-eio), s') ∧ SameProcesses s.kernel s'.kernel := by
  obtain ⟨s, rs, s₁, hcall, hpath, hprocesses, hcurrent, -, hfree, -⟩ := systemCall_boot 1 (by omega)
    (by omega) (Function.update (fun _ => 0#32) 0 (blockAddr 4))
  have hs₁ := hpath
  rcases isr80hCommand7Path_cases hs₁ with ⟨hnone, -⟩ | ⟨a, t, -, -, rfl, -⟩
  · cases hnone
  have hone : 1 < maerosMaxProcesses := by decide
  have hempty : (s.withTraced t).kernel.processes 1 = 0#32 := by
    show s.kernel.processes 1 = 0#32
    rw [hprocesses]
    decide
  have hfull : ∀ i < 1, (s.withTraced t).kernel.processes i ≠ 0#32 := by
    show ∀ i < 1, s.kernel.processes i ≠ 0#32
    rw [hprocesses]
    decide
  obtain ⟨k', s₂, hsame, hloads, hkernel⟩ := loadsTo_of_slot hpath hone hempty hfull fun filename =>
    HeapAt.load_missing (k := (s.withTraced t).kernel) ⟨hcall.owns, hfree⟩ rfl rfl
      spanActs_missingCalls hone hempty filename
  rw [if_neg (by decide)] at hkernel
  have hsame₂ : SameProcesses s.kernel s₂.kernel := by
    rw [hkernel]
    exact ⟨hsame.processes, hsame.current_process, hsame.sched⟩
  have hatomic : ∀ arguments res process s₂, LoadsTo 0x5ff100#32 missingFile missingFile s arguments
      res process s₂ → res < 0 → SameProcesses s.kernel s₂.kernel := by
    intro arguments res process s₃ hloads' _
    obtain ⟨-, -, -, rfl⟩ := hloads.unique hloads'
    exact hsame₂
  have hrun : isr80hCommand7InvokeSystemCommand 0x5ff100#32 missingFile missingFile s =
      some (error (-eio), s₂) := by
    obtain ⟨s₁', hpath', hload⟩ := hloads
    unfold isr80hCommand7InvokeSystemCommand
    rw [bind_of_some hpath']
    dsimp only
    rw [bind_of_some hload]
    rfl
  refine ⟨s, s₂, rs, hcall, ?_, hatomic, hrun, ?_⟩
  · rw [hprocesses, hcurrent]
    rfl
  refine (system_command_no_effect_iff s s₂ 0x5ff100#32 missingFile missingFile rs _ hcall hatomic
    hrun).mpr ?_ ⟨_, rfl⟩
  intro arguments res process s₃ hloads' hpos
  obtain ⟨-, rfl, -, -⟩ := hloads.unique hloads'
  exact absurd hpos (by decide)

/-- The place of a program that is loaded behind 24560 blocks. -/
def placeLast : LoadPlace := ⟨24560, 24563, 24571, 24567, 24572, 24573⟩

/-- Where the program is placed that leaves one block. -/
theorem placeLoad_placeLast : placeLoad (bareFile 1) 1 [(24560, 1040)] =
    some (placeLast, [(24566, 1), (24565, 1), (24564, 1)], [(25599, 1)]) := by decide +kernel

/-- **One block is left** after the load, and it becomes the array `argv`: there is no memory for
the argument, the handler returns an error, and the new process is in the table, the current one,
and the last one of the task list. -/
theorem system_command_stays_loaded : ∃ (s s' : Isr80hState) (rs : List (Addr × ℕ)) (res : ℤ),
    SystemCall s 0x5ff100#32 rs ∧
      (∀ arguments res process s₂, LoadsTo 0x5ff100#32 (bareFile 1) (bareFile 1) s arguments res
        process s₂ → res < 0 → SameProcesses s.kernel s₂.kernel) ∧
      isr80hCommand7InvokeSystemCommand 0x5ff100#32 (bareFile 1) (bareFile 1) s =
        some (error res, s') ∧ res < 0 ∧
      s'.kernel.processes ≠ s.kernel.processes ∧
      s'.kernel.current_process ≠ s.kernel.current_process ∧
      s'.kernel.sched.task_tail ≠ s.kernel.sched.task_tail := by
  obtain ⟨s, rs, s₁, hcall, hpath, hprocesses, hcurrent, htail, hfree, hchain⟩ := systemCall_boot 23526
    (by omega) (by omega) (Function.update (fun _ => 0#32) 0 (blockAddr 4))
  obtain ⟨s₂, hloads, hfree₂, hcurrent₂, htail₂⟩ := hcall.load_bare hpath hfree placeLoad_placeLast 1
    (by decide) (by rw [hprocesses]; decide) (by rw [hprocesses]; decide)
  obtain ⟨f, rest, hf, hnew⟩ := hcall.loaded hloads le_rfl
  obtain ⟨res, c, hinject, hsame, hiff⟩ := processInjectArguments_short (s := s₂.command)
    List.mem_cons_self (List.cons_ne_nil _ _) (by simp) hnew.hosts hnew.requester
    ((hcall.chain hnew hpath).2 hchain)
  have hcard : (freeBlocks s₂.command.kernel.heap).card = 1 := hfree₂.card_eq
  have hneg : res < 0 := by
    rw [hcard, List.length_singleton] at hiff
    omega
  refine ⟨s, { s₂ with command := c }, rs, res, hcall, ?_, ?_, hneg, ?_, ?_, ?_⟩
  · intro arguments res' process' s₃ hloads' hneg'
    obtain ⟨-, rfl, -, -⟩ := hloads.unique hloads'
    omega
  · obtain ⟨s₁', hpath', hload⟩ := hloads
    rw [hf] at hinject
    unfold isr80hCommand7InvokeSystemCommand
    rw [bind_of_some hpath']
    dsimp only
    rw [bind_of_some hload]
    dsimp only
    rw [if_neg (by decide), bind_of_some (onCommand_some hinject), if_pos hneg]
    rfl
  · exact fun heq => hnew.changed (hsame.processes.symm.trans heq)
  · show c.kernel.current_process ≠ _
    rw [hsame.current_process, hcurrent]
    refine fun heq => absurd (hcurrent₂.symm.trans heq) ?_
    decide
  · show c.kernel.sched.task_tail ≠ _
    rw [hsame.sched, htail]
    refine fun heq => absurd (htail₂.symm.trans heq) ?_
    decide

end Boot

end MaerOS.Analysis
