import MaerOS.Analysis.CommandLine
import MaerOS.Analysis.TaskString
import MaerOS.Model.Isr80h

/-!
# Where the get-arguments system call writes

Command 8 turns the caller's pointer into a physical address, without a look at the
flags of its page, and stores eight bytes from there on. `get_arguments_iff` says
when these are the bytes the caller may write at its pointer: when all eight are
user-writable and lie next to each other in physical memory.
-/

set_option autoImplicit false

namespace MaerOS.Analysis

open MaerOS.Lib MaerOS.Model

/-- What a store from user land asks for. -/
def userWrite : BitVec 32 := pagingIsWriteable ||| pagingIsPresent ||| pagingAccessFromAll

/-! ## Translation -/

/-- **`paging_get_physical_address`** is the walk without a look at the flags. -/
theorem pagingGetPhysicalAddress_eq (m : Memory) {dir : Addr} (hdir : PageAligned dir) (v : Addr) :
    pagingGetPhysicalAddress m dir v =
      (tableEntry m dir v &&& 0xfffff000#32) + BitVec.ofNat 32 (v.toNat % 4096) := by
  obtain ⟨halign, hpage, hoff⟩ := pagingAlignToLowerPage_spec v
  have hdiff : v - pagingAlignToLowerPage v = BitVec.ofNat 32 (v.toNat % 4096) := by
    apply BitVec.eq_of_toNat_eq
    rw [hoff, BitVec.toNat_ofNat]
    omega
  unfold pagingGetPhysicalAddress pagingGet
  dsimp only
  rw [pagingGetIndexes_aligned halign, hdiff, hpage]
  unfold tableEntry directoryEntry wordIndex
  rw [and_mask_of_aligned hdir]

/-- Where a permitted access goes is where the code takes it to be. -/
theorem mmuWalk_physical {m : Memory} {dir need v p : Addr} (hdir : PageAligned dir)
    (h : mmuWalk m dir need v = some p) : pagingGetPhysicalAddress m dir v = p := by
  rw [pagingGetPhysicalAddress_eq m hdir, mmuWalk_some h]

/-- Translation keeps the offset in the page. -/
theorem mmuWalk_offset {m : Memory} {dir need v p : Addr} (h : mmuWalk m dir need v = some p) :
    p.toNat % 4096 = v.toNat % 4096 := by
  have halign := pageAligned_and_mask (tableEntry m dir v)
  have hlt := (tableEntry m dir v &&& 0xfffff000#32).isLt
  rw [mmuWalk_some h, BitVec.toNat_add, BitVec.toNat_ofNat]
  unfold PageAligned at halign
  omega

/-- Bytes of one page stay together. -/
theorem mmuWalk_same_page {m : Memory} {dir need v p : Addr} (h : mmuWalk m dir need v = some p)
    {i : ℕ} (hi : v.toNat % 4096 + i < 4096) :
    mmuWalk m dir need (v + BitVec.ofNat 32 i) = some (p + BitVec.ofNat 32 i) := by
  have hv : (v + BitVec.ofNat 32 i).toNat = v.toNat + i := by
    have := v.isLt
    rw [BitVec.toNat_add, BitVec.toNat_ofNat]
    omega
  have hpage : pageOf (v + BitVec.ofNat 32 i) = pageOf v := by
    unfold pageOf
    omega
  have hp := mmuWalk_some h
  unfold mmuWalk tableEntry directoryEntry at h hp ⊢
  rw [hpage]
  split at h
  · rename_i hallow
    rw [if_pos hallow, hp, hv, BitVec.add_assoc, ← BitVec.ofNat_add]
    congr 3
    omega
  · cases h

/-! ## The eight bytes -/

/-- The caller may write the `n` bytes from `v` on. -/
def UserMayWrite (m : Memory) (cr3 v : Addr) (n : ℕ) : Prop :=
  ∀ i < n, ∃ p, mmuWalk m cr3 userWrite (v + BitVec.ofNat 32 i) = some p

/-- The bytes of memory the caller reaches at these addresses. -/
def UserBytes (m : Memory) (cr3 v : Addr) (n : ℕ) (a : Addr) : Prop :=
  ∃ i < n, mmuWalk m cr3 userWrite (v + BitVec.ofNat 32 i) = some a

/-- The stores are exactly the bytes the caller may write from `v` on; if there is one it may not
write, nothing is stored. -/
def StoresAsUser (m : Memory) (cr3 v : Addr) (n : ℕ) (stores : List Addr) : Prop :=
  (UserMayWrite m cr3 v n → ∀ a, a ∈ stores ↔ UserBytes m cr3 v n a) ∧
    (¬ UserMayWrite m cr3 v n → stores = [])

/-- The `n` bytes from `v` on are user-writable and lie next to each other in memory. -/
def Contiguous (m : Memory) (cr3 v : Addr) (n : ℕ) : Prop :=
  ∃ p, ∀ i < n, mmuWalk m cr3 userWrite (v + BitVec.ofNat 32 i) = some (p + BitVec.ofNat 32 i)

/-- If the eight bytes behind the physical address are those the caller reaches, they lie next to
each other: the first byte of a second page can only be the one behind the first page. -/
theorem contiguous_of_bytes {m : Memory} {cr3 v p : Addr}
    (hfirst : mmuWalk m cr3 userWrite v = some p)
    (heq : ∀ i < 8, UserBytes m cr3 v 8 (p + BitVec.ofNat 32 i)) : Contiguous m cr3 v 8 := by
  refine ⟨p, fun i hi => ?_⟩
  by_cases hin : v.toNat % 4096 + i < 4096
  · exact mmuWalk_same_page hfirst hin
  -- the second page begins `b` bytes behind `v`
  have hoff := mmuWalk_offset hfirst
  obtain ⟨b, hb⟩ : ∃ b, b = 4096 - v.toNat % 4096 := ⟨_, rfl⟩
  have hb8 : b ≤ i := by omega
  obtain ⟨j, hj, hpj⟩ := heq b (by omega)
  have hjoff := mmuWalk_offset hpj
  have hpn := p.isLt
  have hvn := v.isLt
  have hjb : j = b := by
    rw [BitVec.toNat_add, BitVec.toNat_add, BitVec.toNat_ofNat, BitVec.toNat_ofNat] at hjoff
    omega
  subst hjb
  have hstart : (v + BitVec.ofNat 32 j).toNat % 4096 = 0 := by
    rw [BitVec.toNat_add, BitVec.toNat_ofNat]
    omega
  have hrest := mmuWalk_same_page hpj (i := i - j) (by omega)
  rw [← add_ofNat_add, ← add_ofNat_add, Nat.add_sub_cancel' hb8] at hrest
  exact hrest

/-! ## The handler -/

section Handler

variable {s : Isr80hState} {ptr : Addr}

/-- A step of a command is a step of the caller's kernel. -/
theorem onCommand_some {α : Type} {m : CommandM α} {a : α} {c : CommandKernel}
    (h : m s.command = some (a, c)) : onCommand m s = some (a, { s with command := c }) := by
  unfold onCommand
  rw [h]
  rfl

/-- The address behind the pointer, for a task with a page directory. -/
theorem taskVirtualAddressToPhysical_eq {k : Kernel} {task : Addr} (htask : task ≠ 0#32)
    (hchunk : (k.sched.tasks task).page_directory ≠ 0#32) (v : Addr) :
    taskVirtualAddressToPhysical task v k = some (pagingGetPhysicalAddress k.mem
      (load32 k.mem (k.sched.tasks task).page_directory) v, k) := by
  unfold taskVirtualAddressToPhysical taskDirectory
  refine prog_bind.mpr ⟨load32 k.mem (k.sched.tasks task).page_directory, k, ?_, rfl⟩
  rw [bind_of_some (deref_of_ne htask k), bind_get, bind_of_some (deref_of_ne hchunk k)]
  rfl

/-- The current task, with a page directory and a process. -/
structure Calling (k : Kernel) : Prop where
  task : k.sched.current_task ≠ 0#32
  chunk : (k.sched.tasks k.sched.current_task).page_directory ≠ 0#32
  process : (k.sched.tasks k.sched.current_task).process ≠ 0#32

/-- The page directory of the current task. -/
def callerDirectory (k : Kernel) : Addr :=
  load32 k.mem (k.sched.tasks k.sched.current_task).page_directory

/-- An address of the caller is looked up in its page directory. -/
theorem callerAddress_eq (hcall : Calling s.kernel) (v : Addr) :
    callerAddress v s =
      some (pagingGetPhysicalAddress s.kernel.mem (callerDirectory s.kernel) v, s) := by
  unfold callerAddress
  refine onCommand_some (onKernel_some ?_)
  rw [bind_get]
  exact taskVirtualAddressToPhysical_eq hcall.task hcall.chunk v

theorem stackItem_eq {i : ℕ} (h : taskGetStackItem s.kernel.sched.current_task i s.kernel =
    some (ptr, s.kernel)) : stackItem i s = some (ptr, s) := by
  unfold stackItem
  refine onCommand_some (onKernel_some ?_)
  rw [bind_get]
  exact h

/-- **What the handler stores**: two words at the physical address of the pointer. -/
theorem isr80hCommand8_eq (hcall : Calling s.kernel)
    (hitem : taskGetStackItem s.kernel.sched.current_task 0 s.kernel = some (ptr, s.kernel)) :
    ∃ argc argv, isr80hCommand8GetProgramArguments s = some (.returned 0#32, s.withTraced
      ((s.traced.storeWord (pagingGetPhysicalAddress s.kernel.mem (callerDirectory s.kernel) ptr)
        argc).storeWord (pagingGetPhysicalAddress s.kernel.mem (callerDirectory s.kernel) ptr +
          4#32) argv)) := by
  obtain ⟨process, hprocess⟩ : ∃ process,
      (s.kernel.sched.tasks s.kernel.sched.current_task).process = process := ⟨_, rfl⟩
  have hne : process ≠ 0#32 := hprocess ▸ hcall.process
  refine ⟨BitVec.ofInt 32 (s.command.arguments process).argc, (s.command.arguments process).argv, ?_⟩
  unfold isr80hCommand8GetProgramArguments
  rw [bind_get, hprocess, bind_of_some (stackItem_eq hitem), bind_of_some (callerAddress_eq hcall ptr)]
  have hderef : onCommand (onKernel (deref process)) s = some ((), s) :=
    onCommand_some (onKernel_some (deref_of_ne hne s.kernel))
  refine prog_bind.mpr ⟨(), _, ?_, rfl⟩
  unfold processGetArguments
  rw [bind_of_some hderef, bind_get]
  rfl

/-- **The get-arguments system call.** For every page directory and every pointer on the caller's
stack: the bytes stored to are exactly those the caller may write at its pointer, and none if there
is one it may not write, if and only if the eight bytes are user-writable and lie next to each
other in memory. No byte outside the record has changed. -/
theorem get_arguments_iff (s : Isr80hState) (ptr : Addr) (hcall : Calling s.kernel)
    (hdir : PageAligned (callerDirectory s.kernel))
    (hitem : taskGetStackItem s.kernel.sched.current_task 0 s.kernel = some (ptr, s.kernel))
    (hstores : s.stores = []) :
    ∃ s', isr80hCommand8GetProgramArguments s = some (.returned 0#32, s') ∧
      (∀ x, x ∉ s'.stores → s'.kernel.mem x = s.kernel.mem x) ∧
      (StoresAsUser s.kernel.mem (callerDirectory s.kernel) ptr 8 s'.stores ↔
        Contiguous s.kernel.mem (callerDirectory s.kernel) ptr 8) := by
  obtain ⟨argc, argv, hcode⟩ := isr80hCommand8_eq hcall hitem
  obtain ⟨p, hp⟩ : ∃ p, pagingGetPhysicalAddress s.kernel.mem (callerDirectory s.kernel) ptr = p :=
    ⟨_, rfl⟩
  rw [hp] at hcode
  -- the record holds the eight bytes from `p` on
  have hmem : ∀ a, a ∈ ((s.traced.storeWord p argc).storeWord (p + 4#32) argv).stores ↔
      ∃ i < 8, a = p + BitVec.ofNat 32 i := by
    intro a
    rw [Traced.mem_storeWord, Traced.mem_storeWord]
    constructor
    · rintro (⟨i, hi, rfl⟩ | ⟨i, hi, rfl⟩ | ha)
      · exact ⟨4 + i, by omega, by rw [add_ofNat_add]⟩
      · exact ⟨i, by omega, rfl⟩
      · rw [show s.traced.stores = [] from hstores] at ha
        cases ha
    · rintro ⟨i, hi, rfl⟩
      by_cases hlow : i < 4
      · exact .inr (.inl ⟨i, hlow, rfl⟩)
      · refine .inl ⟨i - 4, by omega, ?_⟩
        rw [show i = 4 + (i - 4) from by omega, add_ofNat_add, Nat.add_sub_cancel_left]
  refine ⟨_, hcode, fun x hx => ?_, ?_⟩
  · exact ((Traced.records_storeWord _ _ _).trans (Traced.records_storeWord _ _ _) x hx).1
  show StoresAsUser _ _ _ _ ((s.traced.storeWord p argc).storeWord (p + 4#32) argv).stores ↔ _
  constructor
  · rintro ⟨hsame, hnone⟩
    have hmay : UserMayWrite s.kernel.mem (callerDirectory s.kernel) ptr 8 := by
      by_contra hno
      have hin := (hmem p).mpr ⟨0, by omega, by simp⟩
      rw [hnone hno] at hin
      cases hin
    obtain ⟨q, hq⟩ := hmay 0 (by omega)
    rw [show ptr + BitVec.ofNat 32 0 = ptr from by simp] at hq
    obtain rfl : p = q := hp.symm.trans (mmuWalk_physical hdir hq)
    exact contiguous_of_bytes hq fun i hi =>
      (hsame hmay _).mp ((hmem _).mpr ⟨i, hi, rfl⟩)
  · rintro ⟨q, hq⟩
    have hfirst := hq 0 (by omega)
    rw [show ptr + BitVec.ofNat 32 0 = ptr from by simp,
      show q + BitVec.ofNat 32 0 = q from by simp] at hfirst
    obtain rfl : p = q := hp.symm.trans (mmuWalk_physical hdir hfirst)
    refine ⟨fun _ a => ?_, fun hno => absurd (fun i hi => ⟨_, hq i hi⟩) hno⟩
    rw [hmem]
    constructor
    · rintro ⟨i, hi, rfl⟩
      exact ⟨i, hi, hq i hi⟩
    · rintro ⟨i, hi, ha⟩
      rw [hq i hi] at ha
      exact ⟨i, hi, (Option.some.inj ha).symm⟩

end Handler

/-! ## A caller in a fresh kernel -/

/-- A word whose bytes are mapped to themselves is the word in memory. -/
theorem loadThrough_self {cr3 v : Addr} {m : Memory}
    (h : ∀ i < 4, taskWalk cr3 m (v + BitVec.ofNat 32 i) = some (v + BitVec.ofNat 32 i)) :
    loadThrough cr3 m v = some (load32 m v) := by
  have h0 := h 0 (by omega)
  have h1 := h 1 (by omega)
  have h2 := h 2 (by omega)
  have h3 := h 3 (by omega)
  rw [show v + BitVec.ofNat 32 0 = v from by simp] at h0
  unfold loadThrough
  rw [h0, h1, h2, h3]
  rfl

/-- **`task_get_stack_item`** of a task with page tables. -/
theorem taskGetStackItem_eq {k : Kernel} {task word : Addr} {shape : ChunkShape}
    {pm : ℕ → BitVec 32} {i : ℕ} (htask : task ≠ 0#32)
    (hchunk : (k.sched.tasks task).page_directory ≠ 0#32)
    (hat : ChunkAt k.mem (k.sched.tasks task).page_directory shape pm)
    (hword : loadThrough shape.dir k.mem (wordIndex (k.sched.tasks task).registers.esp i) =
      some word) : taskGetStackItem task i k = some (word, k) := by
  unfold taskGetStackItem
  rw [bind_of_some (taskDirectory_eq htask hchunk hat), bind_get, hword]
  rfl

/-- The kernel with a caller whose stack pointer is `esp`. -/
def callerKernel (k : Kernel) (esp : Addr) (m : Memory) : Kernel :=
  { k with
    mem := m
    sched := ⟨fun _ => { Task.zero with
      page_directory := (k.sched.tasks 1#32).page_directory
      process := 1#32
      registers := { Task.zero.registers with esp := esp } }, 1#32, 1#32, 1#32⟩ }

/-- The kernel of a caller, on whose stack the word is found. -/
theorem callerKernel_calling {k : Kernel} {shape : ChunkShape} {pm : ℕ → BitVec 32} {m : Memory}
    (esp : Addr) (hchunk : (k.sched.tasks 1#32).page_directory ≠ 0#32)
    (hat : ChunkAt m (k.sched.tasks 1#32).page_directory shape pm) :
    Calling (callerKernel k esp m) ∧ callerDirectory (callerKernel k esp m) = shape.dir ∧
      ∀ word, loadThrough shape.dir m esp = some word →
        taskGetStackItem 1#32 0 (callerKernel k esp m) = some (word, callerKernel k esp m) := by
  have hone : (1#32 : Addr) ≠ 0#32 := by decide
  refine ⟨⟨hone, hchunk, hone⟩, hat.chunk_word, fun word hword => ?_⟩
  refine taskGetStackItem_eq (k := callerKernel k esp m) hone hchunk hat ?_
  rw [show wordIndex ((callerKernel k esp m).sched.tasks 1#32).registers.esp 0 = esp from
    wordAt_zero _]
  exact hword

/-- A caller whose stack pointer is at the entry of page 5136: the pointer it has left there is
that entry, an address on the page itself. -/
theorem TaskPages.entry_item {k : Kernel} {task : Addr} {shape : ChunkShape} {rs : List (Addr × ℕ)}
    (hp : TaskPages k task shape taskMap rs) {m : Memory} {pm : ℕ → BitVec 32}
    (hat : ChunkAt m (k.sched.tasks task).page_directory shape pm)
    (hdir : AgreeOnPage k.mem m (pageOf shape.dir))
    (hentry : pm (pageOf (shape.tables 5)) = taskMap (pageOf (shape.tables 5))) :
    loadThrough shape.dir m (wordAt (shape.tables 5) 16) = some (pm 5136) := by
  rw [loadThrough_self, ← hat.entry 5136 (by omega)]
  intro i hi
  unfold wordAt
  rw [← add_ofNat_add]
  exact hp.table_self hat hdir (by omega) hentry (by omega)

/-- **A read-only page.** The pointer is an address on a free page of the kernel heap, which the
caller may read but not write, and the handler stores there. -/
theorem get_arguments_read_only : ∃ (s s' : Isr80hState) (ptr : Addr), Calling s.kernel ∧
    PageAligned (callerDirectory s.kernel) ∧
    taskGetStackItem s.kernel.sched.current_task 0 s.kernel = some (ptr, s.kernel) ∧
    s.stores = [] ∧ isr80hCommand8GetProgramArguments s = some (.returned 0#32, s') ∧
    ¬ StoresAsUser s.kernel.mem (callerDirectory s.kernel) ptr 8 s'.stores := by
  obtain ⟨k, shape, rs, hp, -, -⟩ := taskPages_boot
  obtain ⟨hcall, hdir, hload⟩ := callerKernel_calling (wordAt (shape.tables 5) 16)
    hp.chunk_ne hp.chunk
  have hitem := hload _ (hp.entry_item hp.chunk (fun _ _ => rfl) rfl)
  obtain ⟨s, hs⟩ : ∃ s : Isr80hState, s = ⟨⟨callerKernel k (wordAt (shape.tables 5) 16) k.mem,
    fun _ => ⟨0, 0#32⟩, 0#32⟩, []⟩ := ⟨_, rfl⟩
  have hkernel : s.kernel = callerKernel k (wordAt (shape.tables 5) 16) k.mem := by rw [hs]
  rw [← hkernel] at hcall hdir hitem
  obtain ⟨argc, argv, hcode⟩ := isr80hCommand8_eq (s := s) hcall (by rw [hkernel] at hitem ⊢; exact hitem)
  refine ⟨s, _, taskMap 5136, hcall, by rw [hdir]; exact hp.chunk.dir_aligned,
    by rw [hkernel] at hitem ⊢; exact hitem, by rw [hs], hcode, fun hsame => ?_⟩
  -- the entry has no writeable bit
  have hno : ¬ UserMayWrite s.kernel.mem (callerDirectory s.kernel) (taskMap 5136) 8 := by
    intro hmay
    obtain ⟨q, hq⟩ := hmay 0 (by omega)
    rw [hdir, show s.kernel.mem = k.mem from by rw [hkernel]; rfl] at hq
    unfold mmuWalk at hq
    rw [hp.chunk.tableEntry_eq, show pageOf (taskMap 5136 + BitVec.ofNat 32 0) = 5136 from by decide,
      if_neg fun h => absurd h.2 (by decide)] at hq
    cases hq
  have hnone := hsame.2 hno
  exact absurd hnone (List.cons_ne_nil _ _)

/-- A pointer to a page that the caller may write. -/
theorem get_arguments_writable : ∃ (s s' : Isr80hState) (ptr : Addr),
    isr80hCommand8GetProgramArguments s = some (.returned 0#32, s') ∧
      StoresAsUser s.kernel.mem (callerDirectory s.kernel) ptr 8 s'.stores := by
  obtain ⟨k, shape, rs, hp, hpk, hdirs⟩ := taskPages_boot
  have htable := hp.table_ne hpk
  have hpage : PageAligned (blockAddr 1040) := pageAligned_blockAddr (by omega)
  have hnum : pageOf (blockAddr 1040) = 5136 := pageOf_blockAddr (by omega)
  obtain ⟨-, hat⟩ := hp.chunk.mapped hpage
  have hmap : ChunkAt (mapTemporary k.mem shape (blockAddr 1040))
      (k.sched.tasks 1#32).page_directory shape
      (Function.update taskMap 5136 (blockAddr 1040 ||| copyFlags)) := hnum ▸ hat
  obtain ⟨hcall, hdir, hload⟩ := callerKernel_calling (wordAt (shape.tables 5) 16)
    hp.chunk_ne hmap
  have hitem := hload _ (hp.entry_item hmap hp.chunk.mapTemporary_dir
    (Function.update_of_ne htable _ _))
  rw [Function.update_self] at hitem
  obtain ⟨s', hcode, -, hiff⟩ := get_arguments_iff ⟨⟨callerKernel k (wordAt (shape.tables 5) 16)
    (mapTemporary k.mem shape (blockAddr 1040)), fun _ => ⟨0, 0#32⟩, 0#32⟩, []⟩ _ hcall
    (by rw [hdir]; exact hp.chunk.dir_aligned) hitem rfl
  refine ⟨_, s', _, hcode, hiff.mpr ⟨blockAddr 1040 ||| copyFlags, fun i hi => ?_⟩⟩
  rw [hdir]
  show mmuWalk (mapTemporary k.mem shape (blockAddr 1040)) shape.dir userWrite _ = _
  have hnear : pageOf ((blockAddr 1040 ||| copyFlags) + BitVec.ofNat 32 i) = 5136 ∧
      ((blockAddr 1040 ||| copyFlags) &&& 0xfffff000#32) + BitVec.ofNat 32
        (((blockAddr 1040 ||| copyFlags) + BitVec.ofNat 32 i).toNat % 4096) =
          (blockAddr 1040 ||| copyFlags) + BitVec.ofNat 32 i := by
    interval_cases i <;> decide
  unfold mmuWalk
  rw [hmap.directoryEntry_eq, hmap.tableEntry_eq, hnear.1, Function.update_self, hnear.2,
    hp.chunk.mapTemporary_dir.load32 hp.chunk.dir_aligned (by omega),
    if_pos ⟨hdirs _ (by omega), allows_or (by decide)⟩]

end MaerOS.Analysis
