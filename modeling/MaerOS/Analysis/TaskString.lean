import MaerOS.Analysis.PagingBalance
import MaerOS.Analysis.Strtok
import MaerOS.Model.TaskMemory

/-!
# Copying a string from a task

`copy_string_from_task` borrows one block of the kernel heap, maps it into the task
for the time of the first copy and puts the old entry back. The first copy reads
through the tables of the task, and the only words of these tables that change
while it runs are on no page it writes to, so it copies the string that is seen
with the entry of the temporary page replaced (`copyStringThrough_eq`). That is the
string the task sees, unless the string lies where the routine itself works.
-/

set_option autoImplicit false

namespace MaerOS.Analysis

open MaerOS.Lib MaerOS.Model

/-! ## The walk through a chunk -/

section Walk

variable {m m' : Memory} {chunk : Addr} {shape : ChunkShape} {pm : ℕ → BitVec 32}

/-- The directory entry of an address is a word of the directory. -/
theorem ChunkAt.directoryEntry_eq (h : ChunkAt m chunk shape pm) (v : Addr) :
    directoryEntry m shape.dir v = load32 m (wordAt shape.dir (pageOf v / 1024)) := by
  unfold directoryEntry
  rw [and_mask_of_aligned h.dir_aligned]

/-- The table entry of an address is the entry of its page. -/
theorem ChunkAt.tableEntry_eq (h : ChunkAt m chunk shape pm) (v : Addr) :
    tableEntry m shape.dir v = pm (pageOf v) := by
  have hlt := pageOf_lt v
  unfold tableEntry
  rw [h.directoryEntry_eq, h.dir_word _ (by omega), h.entry _ hlt]

/-- The walk of two memories that agree on the directory and on the entry. -/
theorem ChunkAt.mmuWalk_congr {pm' : ℕ → BitVec 32} {need v : Addr} (h : ChunkAt m chunk shape pm)
    (h' : ChunkAt m' chunk shape pm') (hdir : AgreeOnPage m m' (pageOf shape.dir))
    (hentry : pm' (pageOf v) = pm (pageOf v)) :
    mmuWalk m' shape.dir need v = mmuWalk m shape.dir need v := by
  have hlt := pageOf_lt v
  apply Lib.mmuWalk_congr
  · rw [h.directoryEntry_eq, h'.directoryEntry_eq, hdir.load32 h.dir_aligned (by omega)]
  · rw [h.tableEntry_eq, h'.tableEntry_eq, hentry]

/-- A page that is not one of the chunk's is not read by the walk. -/
theorem ChunkAt.taskWalk_stable (h : ChunkAt m chunk shape pm) {q : ℕ}
    (hq : ¬ shape.Occupies chunk q) (hm : DifferOnPage m m' q) :
    ChunkAt m' chunk shape pm ∧ taskWalk shape.dir m' = taskWalk shape.dir m := by
  have hagree : ∀ q', shape.Occupies chunk q' → AgreeOnPage m m' q' := by
    rintro q' hq' x rfl
    exact hm x fun heq => hq (heq ▸ hq')
  have h' := h.frame hagree
  refine ⟨h', funext fun v => ?_⟩
  exact h.mmuWalk_congr h' (hagree _ (.inr (.inl rfl))) rfl

/-- A page that is mapped to itself with the flags `flags`, in a directory that allows it. -/
theorem ChunkAt.taskWalk_self (h : ChunkAt m chunk shape pm) (flags : Addr)
    (hpresent : ∀ i < 1024, Allows pagingIsPresent (load32 m (wordAt shape.dir i))) {p : Addr}
    (hp : PageAligned p) (hflags : flags.toNat < 4096) (hallows : Allows pagingIsPresent flags)
    (hentry : pm (pageOf p) = p ||| flags) {j : ℕ} (hj : j < 4096) :
    taskWalk shape.dir m (p + BitVec.ofNat 32 j) = some (p + BitVec.ofNat 32 j) := by
  have hpage := pageOf_add_ofNat hp hj
  have hlt := pageOf_lt p
  have hoff : (p + BitVec.ofNat 32 j).toNat % 4096 = j := by
    have := p.isLt
    unfold PageAligned at hp
    rw [BitVec.toNat_add, BitVec.toNat_ofNat]
    omega
  unfold taskWalk mmuWalk
  rw [h.directoryEntry_eq, h.tableEntry_eq, hpage, hentry, hoff, or_flags_and_mask hp hflags,
    if_pos ⟨hpresent _ (by omega), allows_or hallows⟩]

end Walk

/-! ## Remapping one page -/

/-- The word of the tables that holds the entry of a page. -/
def entryWord (shape : ChunkShape) (page : Addr) : Addr :=
  wordAt (shape.tables (pageOf page / 1024)) (pageOf page % 1024)

/-- The memory after the temporary page was entered in the tables of the task. -/
def mapTemporary (m : Memory) (shape : ChunkShape) (tmp : Addr) : Memory :=
  store32 m (entryWord shape tmp) (tmp ||| copyFlags)

section Remap

variable {m : Memory} {chunk : Addr} {shape : ChunkShape} {pm : ℕ → BitVec 32} {tmp : Addr}

theorem ChunkAt.entryWord_page (h : ChunkAt m chunk shape pm) (v : Addr) :
    pageOf (entryWord shape v) = pageOf (shape.tables (pageOf v / 1024)) := by
  have hlt := pageOf_lt v
  exact pageOf_wordAt (h.tables_aligned _ (by omega)) (Nat.mod_lt _ (by omega))

/-- Storing to an entry changes the page of its table only. -/
theorem ChunkAt.differ_entry (h : ChunkAt m chunk shape pm) (m₁ : Memory) (v : Addr)
    (val : BitVec 32) : DifferOnPage m₁ (store32 m₁ (entryWord shape v) val)
      (pageOf (entryWord shape v)) := by
  have hlt := pageOf_lt v
  rw [h.entryWord_page]
  exact differOnPage_store32 m₁ (h.tables_aligned _ (by omega)) (Nat.mod_lt _ (by omega)) val

/-- An entry that is stored is an entry of the map. -/
theorem ChunkAt.store_entry (h : ChunkAt m chunk shape pm) {v : Addr} (hv : PageAligned v)
    (val : BitVec 32) :
    pagingSet m shape.dir v val = (0, store32 m (entryWord shape v) val) ∧
      ChunkAt (store32 m (entryWord shape v) val) chunk shape (Function.update pm (pageOf v) val) := by
  have hcode : pagingSet m shape.dir v val = (0, store32 m (entryWord shape v) val) :=
    pagingSet_eq h hv val
  obtain ⟨m', hset, hat, -⟩ := pagingSet_spec h hv val
  rw [hcode] at hset
  cases hset
  exact ⟨hcode, hat⟩

/-- The tables while the temporary page is mapped to itself. -/
theorem ChunkAt.mapped (h : ChunkAt m chunk shape pm) (htmp : PageAligned tmp) :
    pagingMap m chunk tmp tmp copyFlags = (0, mapTemporary m shape tmp) ∧
      ChunkAt (mapTemporary m shape tmp) chunk shape
        (Function.update pm (pageOf tmp) (tmp ||| copyFlags)) := by
  rw [pagingMap_eq h htmp htmp]
  exact h.store_entry htmp _

theorem ChunkAt.mapTemporary_dir (h : ChunkAt m chunk shape pm) :
    AgreeOnPage m (mapTemporary m shape tmp) (pageOf shape.dir) := by
  have hlt := pageOf_lt tmp
  intro x hx
  refine h.differ_entry m tmp _ x fun heq => ?_
  rw [hx, h.entryWord_page] at heq
  exact h.tables_ne_dir _ (by omega) (eq_of_pageOf_eq h.dir_aligned
    (h.tables_aligned _ (by omega)) heq).symm

/-- Memory is back where it was, but for the temporary page. -/
theorem restore_differ {m₂ : Memory} {q : ℕ}
    (hmid : DifferOnPage (mapTemporary m shape tmp) m₂ q) :
    DifferOnPage m (store32 m₂ (entryWord shape tmp) (load32 m (entryWord shape tmp))) q := by
  intro x hx
  by_cases hword : (x - entryWord shape tmp).toNat < 4
  · exact store32_load32 m₂ m hword
  · rw [store32_of_far (by omega), hmid x hx]
    unfold mapTemporary
    rw [store32_of_far (by omega)]

end Remap

/-! ## The copy -/

section Copy

variable {k : Kernel} {task virt phys tmp : Addr} {shape : ChunkShape} {pm : ℕ → BitVec 32}
  {max : ℤ} {s : List (BitVec 8)}

/-- The page directory of a task with a chunk. -/
theorem taskDirectory_eq (htask : task ≠ 0#32)
    (hchunk : (k.sched.tasks task).page_directory ≠ 0#32)
    (hat : ChunkAt k.mem (k.sched.tasks task).page_directory shape pm) :
    taskDirectory task k = some (shape.dir, k) := by
  unfold taskDirectory
  rw [bind_of_some (deref_of_ne htask k), bind_get, bind_of_some (deref_of_ne hchunk k),
    hat.chunk_word]
  rfl

/-- **What is copied** is the string that is seen while the temporary page is mapped. Afterwards
memory is as it was, but for the temporary page and the destination. -/
theorem copyStringThrough_eq (phys : Addr) (max : ℤ) (htask : task ≠ 0#32)
    (hchunk : (k.sched.tasks task).page_directory ≠ 0#32)
    (hat : ChunkAt k.mem (k.sched.tasks task).page_directory shape pm)
    (hpresent : ∀ i < 1024, Allows pagingIsPresent (load32 k.mem (wordAt shape.dir i)))
    (htmp : PageAligned tmp)
    (hfresh : ¬ shape.Occupies (k.sched.tasks task).page_directory (pageOf tmp))
    (hmin : 1 ≤ max) (hmax : max < 4096)
    (hdest : ∀ i < max.toNat, pageOf (phys + BitVec.ofNat 32 i) ≠ pageOf tmp)
    (hsee : StringThrough (mapTemporary k.mem shape tmp)
      (taskWalk shape.dir (mapTemporary k.mem shape tmp)) virt s)
    (hout : ∀ j ≤ s.length, ∀ p, taskWalk shape.dir (mapTemporary k.mem shape tmp)
      (virt + BitVec.ofNat 32 j) = some p → pageOf p ≠ pageOf tmp) :
    ∃ m', copyStringThrough task virt phys tmp max k = some (0, { k with
        mem := storeBytes m' phys (s.take (max.toNat - 1) ++ [0#8])
        heap := heapFree k.heap tmp
        kfrees := tmp :: k.kfrees }) ∧ DifferOnPage k.mem m' (pageOf tmp) := by
  obtain ⟨hmap, hat₂⟩ := hat.mapped htmp
  have hlt := pageOf_lt tmp
  -- the entry of the temporary page lies on a page of the chunk
  have hentry : pageOf (entryWord shape tmp) ≠ pageOf tmp := by
    rw [hat.entryWord_page]
    exact fun heq => hfresh (.inr (.inr ⟨_, by omega, heq.symm⟩))
  have hpresent₂ : ∀ i < 1024, Allows pagingIsPresent
      (load32 (mapTemporary k.mem shape tmp) (wordAt shape.dir i)) := by
    intro i hi
    rw [hat.mapTemporary_dir.load32 hat.dir_aligned hi]
    exact hpresent i hi
  have hself : ∀ j < 4096, taskWalk shape.dir (mapTemporary k.mem shape tmp)
      (tmp + BitVec.ofNat 32 j) = some (tmp + BitVec.ofNat 32 j) := fun j hj =>
    hat₂.taskWalk_self copyFlags hpresent₂ htmp (by decide) (by decide)
      (Function.update_self _ _ _) hj
  have hcopy := strncpyThrough_eq (taskWalk shape.dir) (mapTemporary k.mem shape tmp) virt htmp hself
    (fun m hm => (hat₂.taskWalk_stable hfresh hm).2) (max.toNat - 1) 0
    (s := s) (DifferOnPage.refl _ _) (by omega) (by simpa using hsee)
    (fun j hj p hp => hout j hj p (by rwa [Nat.zero_add] at hp))
  rw [show tmp + BitVec.ofNat 32 0 = tmp from by simp] at hcopy
  -- the temporary page is the only one the copy writes to
  have hlen : (s.take (max.toNat - 1)).length ≤ max.toNat - 1 := by
    rw [List.length_take]
    exact min_le_left _ _
  have hmid : DifferOnPage (mapTemporary k.mem shape tmp) (storeBytes (mapTemporary k.mem shape tmp)
      tmp (s.take (max.toNat - 1) ++ [0#8])) (pageOf tmp) := by
    refine differOnPage_storeBytes _ htmp ?_
    rw [List.length_append, List.length_singleton]
    omega
  obtain ⟨hset, -⟩ := (hat₂.taskWalk_stable hfresh hmid).1.store_entry htmp
    (pagingGet k.mem shape.dir tmp)
  have hold : pagingGet k.mem shape.dir tmp = load32 k.mem (entryWord shape tmp) := by
    rw [pagingGet_spec hat htmp, entryWord, hat.entry _ hlt]
  have hback := restore_differ hmid
  rw [← hold] at hback
  refine ⟨_, ?_, hback⟩
  have hstring : CString (storeBytes (mapTemporary k.mem shape tmp) tmp
      (s.take (max.toNat - 1) ++ [0#8])) tmp (s.take (max.toNat - 1)) :=
    cstring_storeBytes _ _ (fun hmem => hsee.not_mem (List.mem_of_mem_take hmem)) (by omega)
  have hkept := hstring.of_page htmp (by omega) fun x hx =>
    hat.differ_entry _ tmp (pagingGet k.mem shape.dir tmp) x fun heq => hentry (heq ▸ hx)
  have hsecond := @strncpy_eq _ phys tmp _ hkept max.toNat (by omega) (by omega) (by
    intro j hj
    by_contra hnear
    refine hdest (tmp + BitVec.ofNat 32 j - phys).toNat (by omega) ?_
    rw [BitVec.ofNat_toNat, BitVec.setWidth_eq, show phys + (tmp + BitVec.ofNat 32 j - phys) =
      tmp + BitVec.ofNat 32 j from by bv_omega]
    exact pageOf_add_ofNat htmp (by omega))
  rw [List.take_take, min_self] at hsecond
  unfold copyStringThrough
  rw [bind_of_some (taskDirectory_eq htask hchunk hat), bind_get]
  dsimp only
  rw [hmap]
  dsimp only
  rw [hat₂.chunk_word, hcopy]
  dsimp only
  rw [hset]
  dsimp only
  rw [if_neg (by decide), hsecond]
  rfl

end Copy

/-! ## The whole call -/

/-- A task whose tables are allocations of a well-formed heap, every table of its directory
present. -/
structure TaskPages (k : Kernel) (task : Addr) (shape : ChunkShape) (pm : ℕ → BitVec 32)
    (rs : List (Addr × ℕ)) : Prop where
  nonnull : task ≠ 0#32
  owns : HeapOwns k.heap (chunkRuns (k.sched.tasks task).page_directory shape ++ rs)
  chunk : ChunkAt k.mem (k.sched.tasks task).page_directory shape pm
  present : ∀ i < 1024, Allows pagingIsPresent (load32 k.mem (wordAt shape.dir i))

/-- A task with pages has a chunk. -/
theorem TaskPages.chunk_ne {k : Kernel} {task : Addr} {shape : ChunkShape} {pm : ℕ → BitVec 32}
    {rs : List (Addr × ℕ)} (hp : TaskPages k task shape pm rs) :
    (k.sched.tasks task).page_directory ≠ 0#32 := by
  have hrun : ((k.sched.tasks task).page_directory, 1) ∈
      chunkRuns (k.sched.tasks task).page_directory shape := List.mem_append_right _ (by simp)
  exact hp.owns.ne_zero (List.mem_append_left _ hrun)

/-- The string does not lie where the copy works: on the temporary page, under its own or another
virtual address, or in the word of the tables that maps this page. -/
def ClearOf (m : Memory) (shape : ChunkShape) (tmp virt : Addr) (s : List (BitVec 8)) : Prop :=
  ∀ i ≤ s.length, pageOf (virt + BitVec.ofNat 32 i) ≠ pageOf tmp ∧
    ∀ p, taskWalk shape.dir m (virt + BitVec.ofNat 32 i) = some p →
      pageOf p ≠ pageOf tmp ∧ 4 ≤ (p - entryWord shape tmp).toNat

/-- The address lies outside the arena of the kernel heap. -/
def OutsideArena (a : Addr) : Prop := pageOf a < 4096 ∨ 29696 ≤ pageOf a

/-- The allocations `runs`, the block table of the heap, the tasks and the processes are the same
in both states. -/
structure NoTrace (k k' : Kernel) (runs : List (Addr × ℕ)) : Prop where
  agree : AgreeOnRuns k.mem k'.mem runs
  total : k'.heap.table.total = k.heap.table.total
  entries : ∀ i < k.heap.table.total, k'.heap.table.entries i = k.heap.table.entries i
  sched : k'.sched = k.sched
  procs : k'.procs = k.procs
  processes : k'.processes = k.processes
  current_process : k'.current_process = k.current_process

section Call

variable {k k₁ : Kernel} {task virt phys tmp : Addr} {shape : ChunkShape} {pm : ℕ → BitVec 32}
  {rs : List (Addr × ℕ)} {max : ℤ} {s : List (BitVec 8)}

/-- What the allocation of the temporary page leaves of the task. -/
theorem temporary_apart {size : BitVec 32}
    (hsize : size.toNat ≤ 4096) (hz : Model.kzalloc size k = some (tmp, k₁)) (hne : tmp ≠ 0#32)
    (ho₁ : HeapOwns k₁.heap
      ((tmp, 1) :: (chunkRuns (k.sched.tasks task).page_directory shape ++ rs))) :
    ¬ shape.Occupies (k.sched.tasks task).page_directory (pageOf tmp) ∧
      DifferOnPage k.mem k₁.mem (pageOf tmp) := by
  obtain ⟨-, hmem, -, -⟩ := kzalloc_some hz
  rw [if_neg hne] at hmem
  constructor
  · intro hocc
    obtain ⟨r, hr, hin⟩ := hocc.inRun
    exact ho₁.apart_cons (List.mem_append_left _ hr) ⟨le_rfl, Nat.lt_succ_self _⟩ hin
  · intro x hx
    rw [hmem]
    exact agreeOnPage_zeroPage (ho₁.aligned _ List.mem_cons_self) hsize hx x rfl

/-- A string that is clear of the copy is seen the same while the temporary page is mapped. -/
theorem ClearOf.seen (hat : ChunkAt k.mem (k.sched.tasks task).page_directory shape pm)
    (htmp : PageAligned tmp)
    (hfresh : ¬ shape.Occupies (k.sched.tasks task).page_directory (pageOf tmp))
    (hdiffer : DifferOnPage k.mem k₁.mem (pageOf tmp))
    (hclear : ClearOf k.mem shape tmp virt s)
    (hsee : StringThrough k.mem (taskWalk shape.dir k.mem) virt s) :
    StringThrough (mapTemporary k₁.mem shape tmp)
        (taskWalk shape.dir (mapTemporary k₁.mem shape tmp)) virt s ∧
      ∀ i ≤ s.length, ∀ p, taskWalk shape.dir (mapTemporary k₁.mem shape tmp)
        (virt + BitVec.ofNat 32 i) = some p → pageOf p ≠ pageOf tmp := by
  have hlt := pageOf_lt tmp
  obtain ⟨hat₁, hstable⟩ := hat.taskWalk_stable hfresh hdiffer
  obtain ⟨-, hat₂⟩ := hat₁.mapped htmp
  -- no address of the string is translated differently
  have hwalk : ∀ i ≤ s.length, taskWalk shape.dir (mapTemporary k₁.mem shape tmp)
      (virt + BitVec.ofNat 32 i) = taskWalk shape.dir k.mem (virt + BitVec.ofNat 32 i) := by
    intro i hi
    rw [← hstable]
    exact hat₁.mmuWalk_congr hat₂ hat₁.mapTemporary_dir (Function.update_of_ne (hclear i hi).1 _ _)
  refine ⟨hsee.congr fun i hi => ?_, fun i hi p hp => ?_⟩
  · rw [hwalk i hi]
    obtain ⟨p, hp⟩ := hsee.walk_some hi
    obtain ⟨hpage, hfar⟩ := (hclear i hi).2 p hp
    rw [hp, Option.map_some, Option.map_some]
    congr 1
    unfold mapTemporary
    rw [store32_of_far hfar, hdiffer p hpage]
  · rw [hwalk i hi] at hp
    exact ((hclear i hi).2 p hp).1

/-- Giving the temporary page back leaves no trace of the call. -/
theorem noTrace_of_copy (hp : TaskPages k task shape pm rs) {size : BitVec 32}
    (hz : Model.kzalloc size k = some (tmp, k₁))
    (ho₁ : HeapOwns k₁.heap
      ((tmp, 1) :: (chunkRuns (k.sched.tasks task).page_directory shape ++ rs)))
    (hdiffer : DifferOnPage k.mem k₁.mem (pageOf tmp)) {m' : Memory}
    (hback : DifferOnPage k₁.mem m' (pageOf tmp)) {bs : List (BitVec 8)}
    (hdest : ∀ i < bs.length, OutsideArena (phys + BitVec.ofNat 32 i)) :
    NoTrace k { k₁ with
        mem := storeBytes m' phys bs
        heap := heapFree k₁.heap tmp
        kfrees := tmp :: k₁.kfrees }
      (chunkRuns (k.sched.tasks task).page_directory shape ++ rs) := by
  obtain ⟨-, -, -, honly⟩ := kzalloc_some hz
  have ho₂ := ho₁.kfree
  refine ⟨?_, ho₂.total.trans hp.owns.total.symm, ?_, honly.sched, honly.procs, honly.processes,
    honly.current_process⟩
  · intro r hr q hq x hx
    -- a live page is neither the temporary page nor outside the arena
    have hne : pageOf x ≠ pageOf tmp := by
      rintro heq
      rw [hx] at heq
      exact ho₁.apart_cons hr (q := q) ⟨heq.ge, heq.le.trans_lt (Nat.lt_succ_self _)⟩ hq
    have hinside := hp.owns.inside hr
    have habove := hp.owns.above r hr
    have hfar : bs.length ≤ (x - phys).toNat := by
      by_contra hnear
      have hout := hdest (x - phys).toNat (by omega)
      rw [BitVec.ofNat_toNat, BitVec.setWidth_eq, show phys + (x - phys) = x from by bv_omega] at hout
      unfold OutsideArena at hout
      unfold InRun at hq
      omega
    dsimp only
    rw [storeBytes_of_far hfar, hback x hne, hdiffer x hne]
  · intro i hi
    rw [hp.owns.total] at hi
    exact ho₂.entries_eq hp.owns hi

/-- A call for less than a page is granted memory, or returns at once. -/
theorem copyStringFromTask_call {n : ℕ} (hn : n < 4096) :
    copyStringFromTask task virt phys (n : ℤ) k =
      (Model.kzalloc (BitVec.ofInt 32 (n : ℤ)) >>= fun tmp =>
        if tmp = 0#32 then pure (-enomem) else copyStringThrough task virt phys tmp n) k := by
  unfold copyStringFromTask
  rw [if_neg (by simp only [pagingPageSize]; omega)]

/-- Without a free block there is no temporary page. -/
theorem copyStringFromTask_full (ho : HeapOwns k.heap rs) (hmin : 1 ≤ max) (hmax : max < 4096)
    (hfull : ∀ b < k.heap.table.total, ¬ IsFree k.heap.table.entries b) :
    copyStringFromTask task virt phys max k =
      some (-enomem, { k with kallocs := 0#32 :: k.kallocs }) := by
  obtain ⟨n, rfl⟩ : ∃ n : ℕ, max = n := ⟨max.toNat, by omega⟩
  have hsize : (BitVec.ofInt 32 (n : ℤ)).toNat = n := by
    rw [BitVec.ofInt_natCast, BitVec.toNat_ofNat]
    omega
  have hz : k.heap.kzalloc (BitVec.ofInt 32 (n : ℤ)) = some (0#32, k.heap) :=
    ho.kzalloc_full (by omega) (by omega) (by rw [← ho.total]; exact hfull)
  have halloc : Model.kzalloc (BitVec.ofInt 32 (n : ℤ)) k =
      some (0#32, { k with kallocs := 0#32 :: k.kallocs }) := by
    unfold Model.kzalloc
    rw [hz]
    rfl
  rw [copyStringFromTask_call (by omega), bind_of_some halloc, if_pos rfl]
  rfl

/-- With a free block the string is copied, and no trace is left. -/
theorem copyStringFromTask_copies (hp : TaskPages k task shape pm rs) (hmin : 1 ≤ max)
    (hmax : max < 4096) (hsee : StringThrough k.mem (taskWalk shape.dir k.mem) virt s)
    (hdest : ∀ i < max.toNat, OutsideArena (phys + BitVec.ofNat 32 i))
    (hclear : ∀ tmp heap, k.heap.kzalloc (BitVec.ofInt 32 max) = some (tmp, heap) → tmp ≠ 0#32 →
      ClearOf k.mem shape tmp virt s) (hfree : 1 ≤ (freeBlocks k.heap).card) :
    ∃ k', copyStringFromTask task virt phys max k = some (0, k') ∧
      CString k'.mem phys (s.take (max.toNat - 1)) ∧
      NoTrace k k' (chunkRuns (k.sched.tasks task).page_directory shape ++ rs) := by
  obtain ⟨n, rfl⟩ : ∃ n : ℕ, max = n := ⟨max.toNat, by omega⟩
  have hsize : (BitVec.ofInt 32 (n : ℤ)).toNat = n := by
    rw [BitVec.ofInt_natCast, BitVec.toNat_ofNat]
    omega
  obtain ⟨tmp, k₁, hz, hne, ho₁, -⟩ := kzalloc_block hp.owns (s := BitVec.ofInt 32 (n : ℤ))
    (by omega) (by omega) hfree
  obtain ⟨hheap, -, -, honly⟩ := kzalloc_some hz
  have htmp : PageAligned tmp := ho₁.aligned _ List.mem_cons_self
  obtain ⟨hfresh, hdiffer⟩ := temporary_apart (by omega) hz hne ho₁
  have hinside : 1 ≤ 1 ∧ pageOf tmp + 1 ≤ 29696 := ho₁.inside List.mem_cons_self
  have habove : 4096 ≤ pageOf tmp := ho₁.above _ List.mem_cons_self
  obtain ⟨hsee₂, hout₂⟩ := ClearOf.seen hp.chunk htmp hfresh hdiffer (hclear tmp _ hheap hne) hsee
  obtain ⟨m', hcode, hback⟩ := copyStringThrough_eq (k := k₁) phys n
    hp.nonnull (by rw [honly.sched]; exact hp.chunk_ne)
    (by rw [honly.sched]; exact (hp.chunk.taskWalk_stable hfresh hdiffer).1)
    (by
      intro i hi
      rw [AgreeOnPage.load32 _ hp.chunk.dir_aligned hi]
      · exact hp.present i hi
      rintro x hx
      exact hdiffer x fun heq => hfresh (.inr (.inl (by rw [← hx, heq]))))
    htmp (by rw [honly.sched]; exact hfresh) hmin hmax
    (by
      intro i hi heq
      have hout := hdest i hi
      unfold OutsideArena at hout
      omega)
    hsee₂ hout₂
  refine ⟨_, (copyStringFromTask_call (by omega)).trans ((bind_of_some hz _).trans
    ((congrFun (if_neg hne) k₁).trans hcode)), ?_, noTrace_of_copy hp hz ho₁ hdiffer hback ?_⟩
  · refine cstring_storeBytes _ _ (fun hmem => hsee.not_mem (List.mem_of_mem_take hmem)) ?_
    rw [List.length_take]
    omega
  · intro i hi
    refine hdest i ?_
    rw [List.length_append, List.length_take, List.length_singleton] at hi
    omega

/-- **Copying a string from a task.** For every task with well-formed tables, every string it sees
at `virt` that does not lie where the copy works, every `1 ≤ max < 4096` and every well-formed heap,
`copy_string_from_task` to kernel memory outside the heap either returns `-ENOMEM`, with nothing
changed and no free block, or returns 0, with the first `max - 1` characters of the string and a
terminator at the destination; every byte of the task's directory and tables and of every other
allocation, and the block table of the heap, are then what they were. -/
theorem copyStringFromTask_faithful (k : Kernel) (task virt phys : Addr) (shape : ChunkShape)
    (pm : ℕ → BitVec 32) (rs : List (Addr × ℕ)) (max : ℤ) (s : List (BitVec 8))
    (hp : TaskPages k task shape pm rs) (hmin : 1 ≤ max) (hmax : max < 4096)
    (hsee : StringThrough k.mem (taskWalk shape.dir k.mem) virt s)
    (hdest : ∀ i < max.toNat, OutsideArena (phys + BitVec.ofNat 32 i))
    (hclear : ∀ tmp heap, k.heap.kzalloc (BitVec.ofInt 32 max) = some (tmp, heap) → tmp ≠ 0#32 →
      ClearOf k.mem shape tmp virt s) :
    ∃ res k', copyStringFromTask task virt phys max k = some (res, k') ∧
      ((res = -enomem ∧ k'.heap = k.heap ∧ k'.mem = k.mem ∧ OnlyMemory k k' ∧
          ∀ b < k.heap.table.total, ¬ IsFree k.heap.table.entries b) ∨
        (res = 0 ∧ CString k'.mem phys (s.take (max.toNat - 1)) ∧
          NoTrace k k' (chunkRuns (k.sched.tasks task).page_directory shape ++ rs))) := by
  by_cases hfull : ∀ b < k.heap.table.total, ¬ IsFree k.heap.table.entries b
  · exact ⟨_, _, copyStringFromTask_full hp.owns hmin hmax hfull, .inl ⟨rfl, rfl, rfl,
      ⟨rfl, rfl, rfl, rfl, rfl, rfl⟩, hfull⟩⟩
  · obtain ⟨k', hcode, hstring, hno⟩ := copyStringFromTask_copies hp hmin hmax hsee hdest hclear
      (freeBlocks_pos hfull)
    exact ⟨0, k', hcode, .inr ⟨rfl, hstring, hno⟩⟩

end Call

/-! ## A task in a fresh kernel -/

/-- Every page is mapped to itself, present and accessible from user land. -/
def taskMap (p : ℕ) : BitVec 32 := BitVec.ofNat 32 (4096 * p) ||| taskChunkFlags.setWidth 32

/-- A task whose chunk was allocated behind fourteen other blocks: the next free block is on a page
whose number is a multiple of 16, so that its table entry reads as a string of one character. -/
theorem taskPages_boot : ∃ k shape rs, TaskPages k 1#32 shape taskMap rs ∧ Packed k.heap 1040 ∧
    ∀ i < 1024, Allows copyFlags (load32 k.mem (wordAt shape.dir i)) := by
  have hblocks : blocksFor 57344#32 = 14 := rfl
  obtain ⟨k, hz, hpk, -⟩ := packed_bootKernel.kernel_kzalloc 57344#32 (by decide)
    (by rw [hblocks]; omega)
  obtain ⟨hheap, -, -, -⟩ := kzalloc_some hz
  obtain ⟨-, ho⟩ := (heapOwns_bootKernel.kzalloc (by decide) hheap).resolve_left
    fun h => blockAddr_ne_zero (s := 0) (by omega) h.1
  rw [hblocks] at hpk ho
  obtain ⟨k₁, hnew, hpk₁, -⟩ := hpk.pagingNew4gb (by omega) taskChunkFlags
  obtain ⟨shape, ho₁, hat, -, -, -, -, hwords⟩ := pagingNew4gb_owned hnew ho
  refine ⟨{ k₁ with
    sched := ⟨fun _ => { Task.zero with page_directory := blockAddr 1039 }, 1#32, 1#32, 1#32⟩ },
    shape, _, ⟨by decide, ho₁, hat, fun i hi => ?_⟩, hpk₁, fun i hi => ?_⟩
  · rw [hwords i hi, BitVec.or_assoc]
    exact allows_or (by decide)
  · dsimp only
    rw [hwords i hi, BitVec.or_assoc]
    exact allows_or (by decide)

section Boot

variable {k : Kernel} {task : Addr} {shape : ChunkShape} {rs : List (Addr × ℕ)}

/-- A table sees itself. -/
theorem TaskPages.table_self (hp : TaskPages k task shape taskMap rs) {m : Memory}
    {pm : ℕ → BitVec 32} (hat : ChunkAt m (k.sched.tasks task).page_directory shape pm)
    (hdir : AgreeOnPage k.mem m (pageOf shape.dir)) {i : ℕ} (hi : i < 1024)
    (hentry : pm (pageOf (shape.tables i)) = taskMap (pageOf (shape.tables i))) {j : ℕ}
    (hj : j < 4096) :
    taskWalk shape.dir m (shape.tables i + BitVec.ofNat 32 j) =
      some (shape.tables i + BitVec.ofNat 32 j) := by
  have halign := hp.chunk.tables_aligned i hi
  refine hat.taskWalk_self (taskChunkFlags.setWidth 32) (fun l hl => ?_) halign (by decide)
    (by decide) ?_ hj
  · rw [hdir.load32 hp.chunk.dir_aligned hl]
    exact hp.present l hl
  · rw [hentry, taskMap]
    congr 1
    apply BitVec.eq_of_toNat_eq
    have := (shape.tables i).isLt
    unfold PageAligned at halign
    unfold pageOf
    rw [BitVec.toNat_ofNat]
    omega

/-- The entry of page `p`, in table 5, reads as a string of one character when its low bytes are
the character and zero. -/
theorem TaskPages.entry_string (hp : TaskPages k task shape taskMap rs) {m : Memory}
    {pm : ℕ → BitVec 32} (hat : ChunkAt m (k.sched.tasks task).page_directory shape pm)
    (hdir : AgreeOnPage k.mem m (pageOf shape.dir))
    (hentry : pm (pageOf (shape.tables 5)) = taskMap (pageOf (shape.tables 5))) {j : ℕ}
    (hj : j < 1024) {c : BitVec 8} (hc : (pm (5120 + j)).extractLsb' 0 8 = c) (hne : c ≠ 0#8)
    (hz : (pm (5120 + j)).extractLsb' 8 8 = 0#8) :
    StringThrough m (taskWalk shape.dir m) (wordAt (shape.tables 5) j) [c] ∧
      ∀ i ≤ 1, taskWalk shape.dir m (wordAt (shape.tables 5) j + BitVec.ofNat 32 i) =
        some (wordAt (shape.tables 5) j + BitVec.ofNat 32 i) := by
  have hword := hat.entry (5120 + j) (by omega)
  rw [show (5120 + j) / 1024 = 5 from by omega, show (5120 + j) % 1024 = j from by omega] at hword
  have hwalk : ∀ i ≤ 1, taskWalk shape.dir m (wordAt (shape.tables 5) j + BitVec.ofNat 32 i) =
      some (wordAt (shape.tables 5) j + BitVec.ofNat 32 i) := by
    intro i hi
    unfold wordAt
    rw [← add_ofNat_add]
    exact hp.table_self hat hdir (by omega) hentry (by omega)
  refine ⟨⟨?_, hne, ?_⟩, hwalk⟩
  · have h0 := load32_extract m (wordAt (shape.tables 5) j) (i := 0) (by omega)
    rw [hword, Nat.mul_zero, hc] at h0
    have hself := hwalk 0 (by omega)
    rw [show wordAt (shape.tables 5) j + BitVec.ofNat 32 0 = wordAt (shape.tables 5) j from
      by simp] at h0 hself
    rw [hself, Option.map_some, h0]
  · have h1 := load32_extract m (wordAt (shape.tables 5) j) (i := 1) (by omega)
    rw [hword, Nat.mul_one, hz] at h1
    show (taskWalk shape.dir m (wordAt (shape.tables 5) j + BitVec.ofNat 32 1)).map m = some 0#8
    rw [hwalk 1 le_rfl, Option.map_some, h1]

/-- The temporary page is not the one table 5 is on. -/
theorem TaskPages.table_ne (hp : TaskPages k task shape taskMap rs) (hpk : Packed k.heap 1040) :
    pageOf (shape.tables 5) ≠ 5136 := by
  intro heq
  have hrun : (shape.tables 5, 1) ∈ chunkRuns (k.sched.tasks task).page_directory shape :=
    List.mem_append_left _ (List.mem_map.mpr ⟨5, List.mem_range.mpr (by omega), rfl⟩)
  refine hp.owns.not_isFree (List.mem_append_left _ hrun) (b := 1040) ?_
    (hpk.free 1040 le_rfl (by omega))
  unfold InRun
  dsimp only
  omega

end Boot

/-- A string in the table of another page is copied. -/
theorem copyStringFromTask_faithful_boot : ∃ (k k' : Kernel) (virt : Addr),
    copyStringFromTask 1#32 virt 0x5ff000#32 108 k = some (0, k') ∧
      CString k'.mem 0x5ff000#32 [5#8] := by
  obtain ⟨k, shape, rs, hp, hpk, -⟩ := taskPages_boot
  have htable := hp.table_ne hpk
  obtain ⟨hsee, hwalk⟩ := hp.entry_string hp.chunk (fun _ _ => rfl) rfl (j := 32) (by omega)
    (c := 5#8) (by decide) (by decide) (by decide)
  have halign := hp.chunk.tables_aligned 5 (by omega)
  have hpage : ∀ i ≤ 1, pageOf (wordAt (shape.tables 5) 32 + BitVec.ofNat 32 i) =
      pageOf (shape.tables 5) := fun i hi => pageOf_wordAt_add halign (by omega) (by omega)
  have hword : entryWord shape (blockAddr 1040) = wordAt (shape.tables 5) 16 := by
    unfold entryWord
    rw [pageOf_blockAddr (by omega)]
  obtain ⟨h', hz', -⟩ := hpk.kzalloc 108#32 (by decide) (by decide)
  have hz : k.heap.kzalloc (BitVec.ofInt 32 108) = some (blockAddr 1040, h') := hz'
  obtain ⟨res, k', hcode, hend⟩ := copyStringFromTask_faithful k 1#32 (wordAt (shape.tables 5) 32)
    0x5ff000#32 shape taskMap rs 108 [5#8] hp (by decide) (by decide) hsee
    (by
      intro i hi
      left
      unfold pageOf
      rw [BitVec.toNat_add, BitVec.toNat_ofNat, BitVec.toNat_ofNat]
      omega)
    (by
      intro tmp heap htmp _ i hi
      obtain rfl : tmp = blockAddr 1040 := by
        rw [hz] at htmp
        cases htmp
        rfl
      have hi' : i ≤ 1 := hi
      rw [pageOf_blockAddr (by omega), hpage i hi']
      refine ⟨htable, fun p hp' => ?_⟩
      rw [hwalk i hi'] at hp'
      cases hp'
      rw [hpage i hi']
      refine ⟨htable, ?_⟩
      rw [hword]
      unfold wordAt
      interval_cases i <;> bv_omega)
  rcases hend with ⟨-, -, -, -, hfull⟩ | ⟨rfl, hstring, -⟩
  · exact absurd (hpk.free 1040 le_rfl (by omega)) (hfull 1040 (by rw [hpk.total]; omega))
  · exact ⟨k, k', _, hcode, hstring⟩

/-- **The entry of the temporary page.** The tables are mapped to themselves, and the low byte of
this entry is 7 while the string is copied: a task that asks for the string at this word, which
lies on no temporary page, sees the one character 5 there and is told 7. -/
theorem copyStringFromTask_own_entry : ∃ (k k' : Kernel) (shape : ChunkShape)
    (rs : List (Addr × ℕ)) (virt tmp : Addr) (heap : Heap), TaskPages k 1#32 shape taskMap rs ∧
      StringThrough k.mem (taskWalk shape.dir k.mem) virt [5#8] ∧
      k.heap.kzalloc 2#32 = some (tmp, heap) ∧
      (∀ i ≤ 1, pageOf (virt + BitVec.ofNat 32 i) ≠ pageOf tmp ∧
        ∀ p, taskWalk shape.dir k.mem (virt + BitVec.ofNat 32 i) = some p →
          pageOf p ≠ pageOf tmp) ∧
      copyStringFromTask 1#32 virt 0x5ff000#32 2 k = some (0, k') ∧
      ¬ CString k'.mem 0x5ff000#32 ([5#8].take 1) := by
  obtain ⟨k, shape, rs, hp, hpk, -⟩ := taskPages_boot
  have htable := hp.table_ne hpk
  obtain ⟨hsee, hwalk⟩ := hp.entry_string hp.chunk (fun _ _ => rfl) rfl (j := 16) (by omega)
    (c := 5#8) (by decide) (by decide) (by decide)
  have halign := hp.chunk.tables_aligned 5 (by omega)
  have hpage : ∀ i ≤ 1, pageOf (wordAt (shape.tables 5) 16 + BitVec.ofNat 32 i) =
      pageOf (shape.tables 5) := fun i hi => pageOf_wordAt_add halign (by omega) (by omega)
  obtain ⟨k₁, hz, -, -⟩ := hpk.kernel_kzalloc 2#32 (by decide) (by decide)
  obtain ⟨hheap, -, -, honly⟩ := kzalloc_some hz
  have htmp : PageAligned (blockAddr 1040) := pageAligned_blockAddr (by omega)
  have hnum : pageOf (blockAddr 1040) = 5136 := pageOf_blockAddr (by omega)
  have hne : blockAddr 1040 ≠ 0#32 := blockAddr_ne_zero (by omega)
  obtain ⟨-, ho₁⟩ := (hp.owns.kzalloc (by decide) hheap).resolve_left fun h => hne h.1
  obtain ⟨hfresh, hdiffer⟩ := temporary_apart (by decide) hz hne ho₁
  -- the tables while the temporary page is mapped
  have hat₁ := (hp.chunk.taskWalk_stable hfresh hdiffer).1
  have hdir₁ : AgreeOnPage k.mem k₁.mem (pageOf shape.dir) := fun x hx =>
    hdiffer x fun heq => hfresh (.inr (.inl (by rw [← hx, heq])))
  obtain ⟨hsee₂, hwalk₂⟩ := hp.entry_string (hat₁.mapped htmp).2
    (hdir₁.trans hat₁.mapTemporary_dir) (Function.update_of_ne (by rw [hnum]; exact htable) _ _)
    (j := 16) (by omega) (c := 7#8)
    (by rw [hnum, Function.update_self]; decide) (by decide)
    (by rw [hnum, Function.update_self]; decide)
  obtain ⟨m', hcode, -⟩ := copyStringThrough_eq (k := k₁) 0x5ff000#32 2
    hp.nonnull (by rw [honly.sched]; exact hp.chunk_ne)
    (by rw [honly.sched]; exact hat₁)
    (by
      intro i hi
      rw [hdir₁.load32 hp.chunk.dir_aligned hi]
      exact hp.present i hi)
    htmp (by rw [honly.sched]; exact hfresh) (by decide) (by decide)
    (by
      intro i hi
      have hi' : i < 2 := hi
      rw [hnum]
      interval_cases i <;> decide)
    hsee₂
    (by
      intro i hi p hp'
      rw [hwalk₂ i hi] at hp'
      cases hp'
      rw [hpage i hi, hnum]
      exact htable)
  refine ⟨k, _, shape, rs, wordAt (shape.tables 5) 16, blockAddr 1040, _, hp, hsee, hheap,
    fun i hi => ?_, (bind_of_some hz _).trans ((congrFun (if_neg hne) k₁).trans hcode),
    fun hstring => ?_⟩
  · rw [hpage i hi, hnum]
    refine ⟨htable, fun p hp' => ?_⟩
    rw [hwalk i hi] at hp'
    cases hp'
    rw [hpage i hi]
    exact htable
  · have h5 := hstring.1
    simp [storeBytes] at h5

end MaerOS.Analysis
