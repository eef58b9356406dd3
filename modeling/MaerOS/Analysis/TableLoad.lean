import MaerOS.Analysis.ProcessLoad

/-!
# Loading a process among others

What `process_load_for_slot` leaves alone. Up to the task it touches no block that
was allocated before the call, the file layer's traffic included. From the task on
it writes to one word of an older block, the field `next` of the task that
`task_tail` points to.
-/

set_option autoImplicit false

namespace MaerOS.Analysis

open MaerOS.Lib MaerOS.Model

/-! ## The traffic of the file layer -/

/-- After some traffic, the file layer holds `held`, which are allocations of their own. -/
structure Traffic (k₀ : Kernel) (process : Addr) (rs : List (Addr × ℕ)) (held : List Addr)
    (k : Kernel) : Prop where
  owns : ∃ os, os.map Prod.fst = held ∧ HeapOwns k.heap (os ++ rs)
  spares : Spares process k₀ k rs
  procs : k.procs = k₀.procs
  elfs : k.elfs = k₀.elfs

section Traffic

variable {k₀ : Kernel} {process : Addr} {rs : List (Addr × ℕ)}

/-- A request of the file layer is one more allocation it holds. -/
theorem Traffic.take {held : List Addr} {size : BitVec 32} (hsize : size ≠ 0#32) :
    Triple (Traffic k₀ process rs held) (Table.heapAct held (.take size hsize))
      (Traffic k₀ process rs) := by
  intro k h held' k' hrun
  obtain ⟨os, rfl, hown⟩ := h.owns
  obtain ⟨p, k₁, hz, h₁⟩ := prog_bind.mp hrun
  obtain ⟨-, -, -, honly⟩ := kzalloc_some hz
  obtain ⟨rfl, rfl⟩ := prog_pure.mp h₁
  have hspares : Spares process k₀ k₁ rs := h.spares.trans
    ((hown.spares_kzalloc hz).subset fun r hr => List.mem_append_right _ hr)
  refine ⟨?_, hspares, honly.procs.trans h.procs, honly.elfs.trans h.elfs⟩
  rcases hown.kzalloc_any hz with ⟨hsame, h0 | h0⟩ | ⟨-, hne, hnew⟩
  · exact ⟨os, by rw [if_pos h0], hsame⟩
  · exact absurd h0 hsize
  · exact ⟨(p, blocksFor size) :: os, by rw [if_neg hne]; rfl, hnew⟩

theorem Traffic.takeNothing {held : List Addr} :
    Triple (Traffic k₀ process rs held) (Table.heapAct held .takeNothing)
      (Traffic k₀ process rs) := by
  intro k h held' k' hrun
  obtain ⟨os, rfl, hown⟩ := h.owns
  obtain ⟨p, k₁, hz, h₁⟩ := prog_bind.mp hrun
  obtain ⟨hheap, -, -, honly⟩ := kzalloc_some hz
  have hspares : Spares process k₀ k₁ rs := h.spares.trans
    ((hown.spares_kzalloc hz).subset fun r hr => List.mem_append_right _ hr)
  obtain ⟨hsame, hp⟩ := hown.kzalloc_nothing hheap
  obtain ⟨_, k₂, hfree, h₂⟩ := prog_bind.mp h₁
  obtain ⟨rfl, rfl⟩ := prog_pure.mp h₂
  split at hfree
  · obtain ⟨-, rfl⟩ := prog_pure.mp hfree
    exact ⟨⟨os, rfl, hsame⟩, hspares, honly.procs.trans h.procs, honly.elfs.trans h.elfs⟩
  · rename_i hne
    obtain ⟨b, hb, rfl, hbfree⟩ := hp.resolve_left hne
    cases hfree
    exact ⟨⟨os, rfl, hsame.kfree_free hb hbfree⟩, hspares.trans (spares_kfree _),
      honly.procs.trans h.procs, honly.elfs.trans h.elfs⟩

theorem Traffic.give {held : List Addr} (i : ℕ) :
    Triple (Traffic k₀ process rs held) (Table.heapAct held (.give i))
      (Traffic k₀ process rs) := by
  intro k h held' k' hrun
  obtain ⟨os, rfl, hown⟩ := h.owns
  cases hget : (os.map Prod.fst)[i]? with
  | none =>
    simp only [Table.heapAct, hget] at hrun
    obtain ⟨rfl, rfl⟩ := prog_pure.mp hrun
    exact ⟨⟨os, rfl, hown⟩, h.spares, h.procs, h.elfs⟩
  | some ptr =>
    simp only [Table.heapAct, hget] at hrun
    obtain ⟨_, k₁, hfree, h₁⟩ := prog_bind.mp hrun
    cases hfree
    obtain ⟨rfl, rfl⟩ := prog_pure.mp h₁
    rw [List.getElem?_map, Option.map_eq_some_iff] at hget
    obtain ⟨⟨p, n⟩, hget, rfl⟩ := hget
    obtain ⟨hi, hp⟩ := List.getElem?_eq_some_iff.mp hget
    have hperm : (os ++ rs).Perm ((p, n) :: (os.eraseIdx i ++ rs)) := by
      rw [← hp, ← List.cons_append]
      exact (List.getElem_cons_eraseIdx_perm hi).symm.append_right rs
    exact ⟨⟨os.eraseIdx i, (List.eraseIdx_map _ _ _).symm, (hown.perm hperm).kfree⟩,
      h.spares.trans (spares_kfree _), h.procs, h.elfs⟩

/-- **The file layer** takes blocks that nobody has and gives back none but its own. -/
theorem Traffic.acts {held : List Addr} (acts : List Table.HeapAct) :
    Triple (Traffic k₀ process rs held) (Table.heapActs held acts) (Traffic k₀ process rs) :=
  Triple.foldlM acts (fun held act _ => by
    cases act with
    | take size hsize => exact Traffic.take hsize
    | takeNothing => exact Traffic.takeNothing
    | give i => exact Traffic.give i) held

end Traffic

/-- **The traffic of the file layer**: what it holds are allocations of its own, whatever it does.
-/
theorem heapActs_owns {process : Addr} {acts : List Table.HeapAct} {held held' : List Addr}
    {k k' : Kernel} (h : Table.heapActs held acts k = some (held', k')) {os rs : List (Addr × ℕ)}
    (hos : os.map Prod.fst = held) (ho : HeapOwns k.heap (os ++ rs)) :
    Traffic k process rs held' k' :=
  Traffic.acts acts k ⟨⟨os, hos, ho⟩, .refl, rfl, rfl⟩ held' k' h

/-! ## The program -/

/-- **`elf_load`** with the file layer's traffic. -/
theorem elfLoad_spares {file : Table.FileUse} {k k' : Kernel} {res : ℤ} {elf : Addr}
    (h : Table.elfLoad file k = some ((res, elf), k')) {rs : List (Addr × ℕ)}
    (ho : HeapOwns k.heap rs) (process : Addr) :
    ∃ os lost, HeapOwns k'.heap (os ++ (lost ++ rs)) ∧ k'.procs = k.procs ∧
      Spares process k k' rs ∧ (0 ≤ res → elf ≠ 0#32 ∧
        os = [((k'.elfs elf).elf_memory, blocksFor file.filesize), (elf, 1)]) := by
  unfold Table.elfLoad at h
  obtain ⟨elf_file, k₁, hz, h₁⟩ := prog_bind.mp h
  obtain ⟨-, -, -, honly⟩ := kzalloc_some hz
  obtain ⟨_, k₂, he, h₂⟩ := prog_bind.mp h₁
  cases he
  obtain ⟨held, k₃, hopen, h₃⟩ := prog_bind.mp h₂
  obtain ⟨⟨res', elf'⟩, k₄, hread, h₄⟩ := prog_bind.mp h₃
  obtain ⟨held', k₅, hclose, h₅⟩ := prog_bind.mp h₄
  obtain ⟨hr, rfl⟩ := prog_pure.mp h₅
  cases hr
  -- the record, if there was room for it
  obtain ⟨es, ho₁, hnot, hes⟩ : ∃ es, HeapOwns k₁.heap (es ++ rs) ∧
      (∀ r ∈ rs, r.1 ≠ elf_file) ∧ (elf_file ≠ 0#32 → es = [(elf_file, 1)]) := by
    rcases ho.kzalloc_any hz with ⟨hown, h0 | h0⟩ | ⟨-, -, hown⟩
    · exact ⟨[], hown, fun r hr => h0 ▸ ho.ne_zero hr, fun hne => absurd h0 hne⟩
    · exact absurd h0 (by decide)
    · refine ⟨[(elf_file, 1)], hown, fun r hr heq => ?_, fun _ => rfl⟩
      have hnd := hown.nodup
      rw [List.map_cons, List.nodup_cons] at hnd
      exact hnd.1 (List.mem_map.mpr ⟨r, hr, heq⟩)
  have hspares₁ : Spares process k { k₁ with
      elfs := Function.update k₁.elfs elf_file ElfFile.zero } rs :=
    (ho.spares_kzalloc hz).trans (spares_onElf hnot _)
  have hfirst := @heapActs_owns process _ _ _ _ _ hopen [] _ rfl ho₁
  obtain ⟨held_runs, hheld, ho₃⟩ := hfirst.owns
  have ho₃' : HeapOwns k₃.heap ((held_runs ++ es) ++ rs) := by simpa using ho₃
  obtain ⟨os, ho₄, hprocs, hspares₂, hsucc⟩ := elfRead_owns hread ho₃' hnot process
  have ho₄' : HeapOwns k₄.heap (held_runs ++ (os ++ (es ++ rs))) := by
    refine ho₄.perm ?_
    rw [List.append_assoc]
    exact List.perm_append_comm_assoc _ _ _
  have hlast := @heapActs_owns process _ _ _ _ _ hclose _ _ hheld ho₄'
  obtain ⟨lost, -, ho₅⟩ := hlast.owns
  have hown : HeapOwns k₅.heap ((os ++ es) ++ (lost ++ rs)) := by
    refine ho₅.perm ?_
    rw [List.append_assoc os]
    exact ((List.perm_append_comm_assoc _ _ _).trans
      (List.Perm.append_left _ (List.perm_append_comm_assoc _ _ _)))
  refine ⟨os ++ es, lost, hown, ?_, ?_, fun hle => ?_⟩
  · rw [hlast.procs, hprocs, hfirst.procs]
    exact honly.procs
  · refine (hspares₁.trans (hfirst.spares.subset fun r hr => List.mem_append_right _ hr)).trans
      (hspares₂.trans (hlast.spares.subset fun r hr => ?_))
    exact List.mem_append_right _ (List.mem_append_right _ hr)
  · obtain ⟨rfl, hne, rfl⟩ := hsucc hle
    refine ⟨hne, ?_⟩
    rw [hlast.elfs, hes hne]
    rfl

/-- **`process_load_binary`** with the file layer's traffic. -/
theorem processLoadBinary_spares {file : Table.FileUse} {process : Addr} {k k' : Kernel} {res : ℤ}
    (h : Table.processLoadBinary file process k = some (res, k'))
    (hzero : k.procs process = Process.zero) {rs : List (Addr × ℕ)} (ho : HeapOwns k.heap rs) :
    ∃ os lost, HeapOwns k'.heap (os ++ (lost ++ rs)) ∧
      (k'.procs process).allocations = Process.zero.allocations ∧ Spares process k k' rs ∧
      (0 ≤ res → Loaded k' process os) := by
  unfold Table.processLoadBinary at h
  obtain ⟨held, k₁, hopen, h₁⟩ := prog_bind.mp h
  obtain ⟨res', k₂, hread, h₂⟩ := prog_bind.mp h₁
  obtain ⟨held', k₃, hclose, h₃⟩ := prog_bind.mp h₂
  obtain ⟨rfl, rfl⟩ := prog_pure.mp h₃
  have hfirst := @heapActs_owns process _ _ _ _ _ hopen [] _ rfl ho
  obtain ⟨held_runs, hheld, ho₁⟩ := hfirst.owns
  obtain ⟨os, ho₂, halloc, hspares, hloaded⟩ :=
    processLoadBinary_owns hread (by rw [hfirst.procs, hzero]) ho₁
  have hlast := @heapActs_owns process _ _ _ _ _ hclose _ _ hheld
    (ho₂.perm (List.perm_append_comm_assoc _ _ _))
  obtain ⟨lost, -, ho₃⟩ := hlast.owns
  refine ⟨os, lost, ho₃.perm (List.perm_append_comm_assoc _ _ _), ?_, ?_, fun hle => ?_⟩
  · rw [hlast.procs]
    exact halloc
  · refine (hfirst.spares.trans (hspares.subset fun r hr => ?_)).trans
      (hlast.spares.subset fun r hr => ?_)
    · exact List.mem_append_right _ hr
    · exact List.mem_append_right _ hr
  · exact (hloaded hle).of_records (by rw [hlast.procs]) (by rw [hlast.procs])
      fun _ => by rw [hlast.elfs]

/-- **`process_load_data`** with the file layer's traffic. -/
theorem processLoadData_spares {elf binary : Table.FileUse} {process : Addr} {k k' : Kernel}
    {res : ℤ} (h : Table.processLoadData elf binary process k = some (res, k'))
    (hzero : k.procs process = Process.zero) {rs : List (Addr × ℕ)} (ho : HeapOwns k.heap rs) :
    ∃ os lost, HeapOwns k'.heap (os ++ (lost ++ rs)) ∧
      (k'.procs process).allocations = Process.zero.allocations ∧ Spares process k k' rs ∧
      (0 ≤ res → Loaded k' process os) := by
  unfold Table.processLoadData processLoadDataBy at h
  obtain ⟨res₁, k₁, helf, h₁⟩ := prog_bind.mp h
  unfold Table.processLoadElf processLoadElfBy at helf
  obtain ⟨⟨res₂, file⟩, k₂, hload, h₂⟩ := prog_bind.mp helf
  obtain ⟨os, lost, hown, hprocs, hspares, hsucc⟩ := elfLoad_spares hload ho process
  have hzero₂ : k₂.procs process = Process.zero := by rw [hprocs, hzero]
  dsimp only at h₂
  by_cases hneg : res₂ < 0
  · rw [if_pos hneg] at h₂
    obtain ⟨rfl, rfl⟩ := prog_pure.mp h₂
    rw [← List.append_assoc] at hown
    split at h₁
    · obtain ⟨os', lost', hown', halloc, hspares', hl⟩ :=
        processLoadBinary_spares h₁ hzero₂ hown
      refine ⟨os', lost' ++ (os ++ lost), by simpa using hown', halloc, ?_, hl⟩
      exact hspares.trans (hspares'.subset fun r hr => List.mem_append_right _ hr)
    · obtain ⟨rfl, rfl⟩ := prog_pure.mp h₁
      exact ⟨[], os ++ lost, hown, by rw [hzero₂], hspares,
        fun hle => absurd hle (not_le.mpr hneg)⟩
  · rw [if_neg hneg] at h₂
    obtain ⟨_, k₃, hp, h₃⟩ := prog_bind.mp h₂
    cases hp
    obtain ⟨rfl, rfl⟩ := prog_pure.mp h₃
    obtain ⟨hfile, rfl⟩ := hsucc (not_lt.mp hneg)
    rw [if_neg fun heq => hneg (by rw [heq]; decide)] at h₁
    obtain ⟨rfl, rfl⟩ := prog_pure.mp h₁
    refine ⟨_, lost, hown, ?_, hspares.trans (spares_onProcess _), fun _ => ?_⟩
    · dsimp only
      rw [Function.update_self, hzero₂]
    · exact Loaded.setElf k₂ process (blocksFor elf.filesize) hfile

/-! ## The word of another task -/

/-- Store `v` to `next` of the task at `spot`, unless `spot` is null. -/
def linkStore (m : Memory) (spot v : Addr) : Memory :=
  if spot = 0#32 then m else store32 m (Table.nextField spot) v

/-- The task that `task_new` appends to, if any. -/
def appendSpot (s : TaskList) : Addr := if s.task_head = 0#32 then 0#32 else s.task_tail

/-- From `k` to `k'`, what lies in the blocks `rs` stayed: the records, the chunk and the process
of each task, and the bytes except those of the block at `spot`. -/
structure Keeps (spot : Addr) (k k' : Kernel) (rs : List (Addr × ℕ)) : Prop where
  mem : ∀ r ∈ rs, r.1 ≠ spot → ∀ q, InRun r q → AgreeOnPage k.mem k'.mem q
  elfs : ∀ r ∈ rs, k'.elfs r.1 = k.elfs r.1
  procs : ∀ r ∈ rs, k'.procs r.1 = k.procs r.1
  dir : ∀ r ∈ rs, (k'.sched.tasks r.1).page_directory = (k.sched.tasks r.1).page_directory
  process : ∀ r ∈ rs, (k'.sched.tasks r.1).process = (k.sched.tasks r.1).process

section Keeps

variable {spot : Addr} {k k₁ k₂ : Kernel} {rs : List (Addr × ℕ)}

theorem Keeps.trans (h : Keeps spot k k₁ rs) (h' : Keeps spot k₁ k₂ rs) : Keeps spot k k₂ rs :=
  ⟨fun r hr hne q hq x hx => (h'.mem r hr hne q hq x hx).trans (h.mem r hr hne q hq x hx),
    fun r hr => (h'.elfs r hr).trans (h.elfs r hr),
    fun r hr => (h'.procs r hr).trans (h.procs r hr),
    fun r hr => (h'.dir r hr).trans (h.dir r hr),
    fun r hr => (h'.process r hr).trans (h.process r hr)⟩

theorem Keeps.subset (h : Keeps spot k k₁ rs) {rs' : List (Addr × ℕ)} (hs : ∀ r ∈ rs', r ∈ rs) :
    Keeps spot k k₁ rs' :=
  ⟨fun r hr => h.mem r (hs r hr), fun r hr => h.elfs r (hs r hr),
    fun r hr => h.procs r (hs r hr), fun r hr => h.dir r (hs r hr),
    fun r hr => h.process r (hs r hr)⟩

theorem Spares.keeps {process : Addr} (h : Spares process k k₁ rs)
    (hnot : ∀ r ∈ rs, r.1 ≠ process) : Keeps spot k k₁ rs :=
  ⟨fun r hr _ => h.mem r hr, h.elfs, fun r hr => h.procs r.1 (hnot r hr),
    fun _ _ => by rw [h.sched], fun _ _ => by rw [h.sched]⟩

/-- The word `next` of an allocated task lies in the block of that task. -/
theorem agreeOnPage_linkStore {h : Heap} (ho : HeapOwns h rs)
    (hspot : spot = 0#32 ∨ (spot, 1) ∈ rs) (m : Memory) (v : Addr) {r : Addr × ℕ} (hr : r ∈ rs)
    (hne : r.1 ≠ spot) {q : ℕ} (hq : InRun r q) : AgreeOnPage m (linkStore m spot v) q := by
  unfold linkStore
  split
  · exact fun _ _ => rfl
  · rename_i hnz
    have hmem := hspot.resolve_left hnz
    refine agreeOnPage_store32 (i := 14) (ho.aligned _ hmem) (by omega) v fun heq => ?_
    refine ho.apart_mem hr hmem hne hq ⟨?_, ?_⟩
    · exact heq.ge
    · rw [heq]
      exact Nat.lt_succ_self _

end Keeps

/-! ## Tasks -/

/-- The kernel after `v` was stored to `next` of the task at `spot`. -/
def linked (spot v : Addr) (k : Kernel) : Kernel := { k with mem := linkStore k.mem spot v }

/-- Nothing is stored through the null pointer. -/
theorem linked_null (v : Addr) (k : Kernel) : linked 0#32 v k = k := rfl

/-- **`paging_free_4gb`** frees and does nothing else. -/
theorem pagingFree4gb_some {chunk : Addr} {k k' : Kernel} {u : Unit}
    (h : pagingFree4gb chunk k = some (u, k')) :
    ∃ heap kfrees, k' = { k with heap := heap, kfrees := kfrees } := by
  unfold pagingFree4gb forUpto at h
  obtain ⟨_, k₁, hd, h₁⟩ := prog_bind.mp h
  obtain ⟨-, rfl⟩ := deref_some hd
  obtain ⟨_, k₂, hloop, h₂⟩ := prog_bind.mp h₁
  have hround : ∀ i ∈ List.range 1024,
      Triple (fun k₂ => ∃ heap kfrees, k₂ = { k₁ with heap := heap, kfrees := kfrees })
        (pagingFreeTable chunk i)
        fun _ k₂ => ∃ heap kfrees, k₂ = { k₁ with heap := heap, kfrees := kfrees } := by
    rintro i - _ ⟨heap, kfrees, rfl⟩ _ k₂ hrun
    cases hrun
    exact ⟨_, _, rfl⟩
  obtain ⟨heap, kfrees, rfl⟩ :=
    Triple.forM (List.range 1024) hround k₁ ⟨k₁.heap, k₁.kfrees, rfl⟩ _ k₂ hloop
  cases h₂
  exact ⟨_, _, rfl⟩

/-- `task_list_remove` is the one on the records, and the store to the task before. -/
theorem tableListRemove_eq (task : Addr) (k : Kernel) :
    Table.taskListRemove task k = some ((), { k with
      mem := linkStore k.mem (k.sched.tasks task).prev (k.sched.tasks task).next
      sched := taskListRemove k.sched task }) := by
  unfold Table.taskListRemove linkStore
  rw [bind_get]
  by_cases hprev : (k.sched.tasks task).prev = 0#32
  · rw [if_neg (not_not.mpr hprev), if_pos hprev]
    rfl
  · rw [if_pos hprev, if_neg hprev]
    rfl

/-- **`task_free`** is the function on the records, followed by the store to the task before. -/
theorem tableTaskFree_eq (task : Addr) (k : Kernel) :
    Table.taskFree task k =
      endingWith (linked (k.sched.tasks task).prev (k.sched.tasks task).next) (taskFree task k) := by
  unfold Table.taskFree taskFree taskFreeBy
  refine bind_endingWith fun _ k₁ hd => ?_
  obtain ⟨-, rfl⟩ := deref_some hd
  rw [bind_get, bind_get]
  refine bind_endingWith fun _ k₂ hfree => ?_
  obtain ⟨heap, kfrees, rfl⟩ := pagingFree4gb_some hfree
  rw [bind_of_some (tableListRemove_eq task _)]
  rfl

/-- **`task_free`** gives back the block and the chunk, removes the task from the list and stores
to the task before it. -/
theorem tableTaskFree_owns {task : Addr} {shape : ChunkShape} {pm : ℕ → BitVec 32} {k : Kernel}
    (hat : ChunkAt k.mem (k.sched.tasks task).page_directory shape pm) {rs : List (Addr × ℕ)}
    (ho : HeapOwns k.heap
      (chunkRuns (k.sched.tasks task).page_directory shape ++ (task, 1) :: rs)) :
    ∃ heap kfrees, Table.taskFree task k = some (0, { k with
        heap := heap
        mem := linkStore k.mem (k.sched.tasks task).prev (k.sched.tasks task).next
        sched := taskListRemove k.sched task
        kfrees := kfrees }) ∧ HeapOwns heap rs := by
  obtain ⟨heap, kfrees, hfree, hown⟩ := taskFree_owns hat ho
  refine ⟨heap, kfrees, ?_, hown⟩
  rw [tableTaskFree_eq, hfree]
  rfl

/-- `task_new` from the list on is the one on the records, and the store to the old tail. -/
theorem tableTaskLink_eq (task : Addr) (k : Kernel) :
    Table.taskLink task k = endingWith (linked (appendSpot k.sched) task) (taskLink task k) := by
  unfold Table.taskLink taskLink appendSpot
  rw [bind_get, bind_get]
  by_cases hhead : k.sched.task_head = 0#32
  · rw [if_neg (not_not.mpr hhead), if_neg (not_not.mpr hhead), if_pos hhead]
    rfl
  rw [if_pos hhead, if_pos hhead, if_neg hhead]
  by_cases htail : k.sched.task_tail = 0#32
  · rw [htail]
    rfl
  · have hlink : (deref k.sched.task_tail >>= fun _ =>
        storeWord (Table.nextField k.sched.task_tail) task) k =
          some ((), linked k.sched.task_tail task k) := by
      rw [bind_of_some (deref_of_ne htail k)]
      unfold linked linkStore
      rw [if_neg htail]
      rfl
    rw [bind_of_some hlink, bind_of_some (deref_of_ne htail k)]
    rfl

/-- **`task_new`** is the function on the records, followed by the store to the old tail. -/
theorem tableTaskNew_iff {process task : Addr} {k k' : Kernel} {rs : List (Addr × ℕ)}
    (ho : HeapOwns k.heap rs) : Table.taskNew process k = some (task, k') ↔
      ∃ k₁, taskNew process k = some (task, k₁) ∧ linked (appendSpot k.sched) task k₁ = k' := by
  unfold Table.taskNew Table.taskFree taskNew taskFree
  have hspot : ∀ k₁ k₂, Model.kzalloc sizeofTask k = some (task, k₁) →
      HeapOwns k₁.heap ((task, 1) :: rs) → taskInit task process k₁ = some (0, k₂) →
      appendSpot k₂.sched = appendSpot k.sched := by
    intro k₁ k₂ hz ho₁ hinit
    obtain ⟨-, -, -, honly⟩ := kzalloc_some hz
    obtain ⟨-, -, chunk, shape, ip, -, -, -, -, -, -, hsched⟩ := taskInit_some hinit ho₁
    rw [hsched, ← honly.sched]
    rfl
  constructor
  · intro h
    obtain ⟨k₁, k₂, hz, htask, ho₁, hinit, hlink⟩ := (taskNewBy_parts ho).mp h
    rw [tableTaskLink_eq, hspot k₁ k₂ hz ho₁ hinit] at hlink
    obtain ⟨k₃, hmodel, hk'⟩ := endingWith_eq_some.mp hlink
    exact ⟨k₃, (taskNewBy_parts ho).mpr ⟨k₁, k₂, hz, htask, ho₁, hinit, hmodel⟩, hk'⟩
  · rintro ⟨k₃, h, hk'⟩
    obtain ⟨k₁, k₂, hz, htask, ho₁, hinit, hlink⟩ := (taskNewBy_parts ho).mp h
    refine (taskNewBy_parts ho).mpr ⟨k₁, k₂, hz, htask, ho₁, hinit, ?_⟩
    rw [tableTaskLink_eq, hspot k₁ k₂ hz ho₁ hinit]
    exact endingWith_eq_some.mpr ⟨k₃, hlink, hk'⟩

/-- The task before a new one is the one it was appended to. -/
theorem prev_newTask {s : TaskList} {task : Addr} (hne : task ≠ appendSpot s)
    (chunk process ip : Addr) :
    ((taskListAppend (s.assign task fun _ => newTask chunk process ip) task).tasks task).prev =
      appendSpot s := by
  unfold appendSpot at hne ⊢
  by_cases hhead : s.task_head = 0#32
  · unfold taskListAppend
    rw [if_pos hhead, if_pos (show (s.assign task _).task_head = 0#32 from hhead)]
    dsimp only
    rw [assign_tasks, if_pos rfl]
    rfl
  · rw [if_neg hhead] at hne ⊢
    rw [taskListAppend_tasks (s := s.assign task _) hhead hne, if_pos rfl]
    rfl

/-- The tasks of the list, the first of which is current. -/
structure FirstRuns (s : TaskList) (ts : List Addr) : Prop where
  list : Represents s ts
  current : s.current_task = ts.headD 0#32

section FirstRuns

variable {s : TaskList} {ts : List Addr} {task : Addr}

/-- A new task is not current, unless it is the first one. -/
theorem FirstRuns.new (h : FirstRuns s ts) (htask : task ≠ 0#32) (hnot : task ∉ ts)
    (chunk process ip : Addr) :
    FirstRuns (taskListAppend (s.assign task fun _ => newTask chunk process ip) task)
      (ts ++ [task]) := by
  refine ⟨h.list.new htask hnot chunk process ip, ?_⟩
  have hhead : (s.assign task fun _ => newTask chunk process ip).task_head = ts.headD 0#32 :=
    h.list.head
  unfold taskListAppend
  cases ts with
  | nil =>
    rw [if_pos (show (s.assign task _).task_head = 0#32 from hhead)]
    rfl
  | cons t ts =>
    rw [if_neg (by rw [hhead]; exact fun h0 => h.list.nonnull (h0 ▸ List.mem_cons_self))]
    exact h.current

/-- The last task goes again. -/
theorem FirstRuns.remove_last (h : FirstRuns s (ts ++ [task])) :
    FirstRuns (taskListRemove s task) ts := by
  obtain ⟨-, -, hcur⟩ := h.list.remove_globals
  refine ⟨h.list.remove_last, ?_⟩
  rw [hcur, h.current]
  split_ifs with heq
  · rfl
  · cases ts with
    | nil => exact absurd rfl heq
    | cons t ts => rfl

end FirstRuns

/-- A list of tasks in the blocks `rs` is still the list. -/
def KeepsList (k k' : Kernel) (rs : List (Addr × ℕ)) : Prop :=
  ∀ ts, (∀ t ∈ ts, (t, 1) ∈ rs) → FirstRuns k.sched ts → FirstRuns k'.sched ts

theorem Spares.keepsList {process : Addr} {k k' : Kernel} {rs : List (Addr × ℕ)}
    (h : Spares process k k' rs) : KeepsList k k' rs := by
  intro ts _ hlist
  rw [h.sched]
  exact hlist

/-- A pointer to an allocation of the second part, or null, is no allocation of the first. -/
theorem HeapOwns.ne_spot {h : Heap} {as bs : List (Addr × ℕ)} (ho : HeapOwns h (as ++ bs))
    {spot : Addr} (hspot : spot = 0#32 ∨ (spot, 1) ∈ bs) {r : Addr × ℕ} (hr : r ∈ as) :
    r.1 ≠ spot := by
  rcases hspot with rfl | hmem
  · exact ho.ne_zero (List.mem_append_left _ hr)
  · exact ho.ne_of_append hr hmem

/-- **`task_new`** among other tasks: a chunk and a task of its own, everything else kept. -/
theorem tableTaskNew_owns {process task : Addr} {k k' : Kernel}
    (h : Table.taskNew process k = some (task, k')) {rs : List (Addr × ℕ)}
    (ho : HeapOwns k.heap rs)
    (hspot : appendSpot k.sched = 0#32 ∨ (appendSpot k.sched, 1) ∈ rs) :
    ∃ chunk shape ip, HeapOwns k'.heap (chunkRuns chunk shape ++ (task, 1) :: rs) ∧
      ChunkAt k'.mem chunk shape selfMap ∧ Keeps (appendSpot k.sched) k k' rs ∧ OnlyTasks k k' ∧
      TaskTaken k.heap task chunk shape k'.heap ∧ k'.sched =
        taskListAppend (k.sched.assign task fun _ => newTask chunk process ip) task := by
  obtain ⟨k₁, hmodel, rfl⟩ := (tableTaskNew_iff ho).mp h
  obtain ⟨-, chunk, shape, ip, hown, hat, hagree, honly, -, htaken, hsched⟩ := taskNew_some hmodel ho
  have hspot' : appendSpot k.sched = 0#32 ∨ (appendSpot k.sched, 1) ∈ (task, 1) :: rs :=
    hspot.imp id (List.mem_cons_of_mem _)
  have hall := hspot'.imp id fun hm => List.mem_append_right (chunkRuns chunk shape) hm
  have hntask : ∀ r ∈ rs, r.1 ≠ task := fun r hr => hown.ne_middle (List.mem_append_right _ hr)
  refine ⟨chunk, shape, ip, hown, ?_, ⟨?_, ?_, ?_, ?_, ?_⟩,
    ⟨honly.procs, honly.elfs, honly.processes, honly.current_process⟩, htaken, hsched⟩
  · exact hat.of_agree fun r hr q hq => agreeOnPage_linkStore hown hall k₁.mem task
      (List.mem_append_left _ hr) (hown.ne_spot hspot' hr) hq
  · intro r hr hne q hq x hx
    have hr' : r ∈ chunkRuns chunk shape ++ (task, 1) :: rs :=
      List.mem_append_right _ (List.mem_cons_of_mem _ hr)
    exact (agreeOnPage_linkStore hown hall k₁.mem task hr' hne hq x hx).trans
      (hagree r hr q hq x hx)
  · exact fun r _ => congrFun honly.elfs r.1
  · exact fun r _ => congrFun honly.procs r.1
  · intro r hr
    dsimp only [linked]
    rw [hsched, page_directory_taskListAppend, assign_tasks, if_neg (hntask r hr)]
  · intro r hr
    dsimp only [linked]
    rw [hsched, process_taskListAppend, assign_tasks, if_neg (hntask r hr)]

/-! ## The process -/

/-- The process has been given its task, and its program is mapped: it runs on a chunk of its own,
and for the others nothing but the word in the old tail has changed. -/
structure TaskMapped (k k₁ : Kernel) (process task : Addr) (rs rs' : List (Addr × ℕ)) (chunk : Addr)
    (shape : ChunkShape) (ip : Addr) : Prop where
  owns : HeapOwns k₁.heap (chunkRuns chunk shape ++ (task, 1) :: rs)
  on : OnChunk k₁ ⟨process, chunk, shape⟩
  keeps : Keeps (appendSpot k.sched) k k₁ rs'
  elfs : k₁.elfs = k.elfs
  procs : k₁.procs = Function.update k.procs process { k.procs process with task := task }
  processes : k₁.processes = k.processes
  current : k₁.current_process = k.current_process
  taken : TaskTaken k.heap task chunk shape k₁.heap
  sched : k₁.sched = taskListAppend (k.sched.assign task fun _ => newTask chunk process ip) task

section TaskMapped

variable {process task : Addr} {k k₁ k₂ : Kernel} {res : ℤ} {rs rs' : List (Addr × ℕ)}

/-- `task_new` and `process_map_memory` one after the other. -/
theorem taskMapped_of_map (hnew : Table.taskNew process k = some (task, k₁))
    (hmap : processMapMemory process { k₁ with
      procs := Function.update k₁.procs process (withTask (k₁.procs process) task) } =
        some (res, k₂)) (ho : HeapOwns k.heap rs)
    (hspot : appendSpot k.sched = 0#32 ∨ (appendSpot k.sched, 1) ∈ rs)
    (hsub : ∀ r ∈ rs', r ∈ rs) (hnot : ∀ r ∈ rs', r.1 ≠ process) :
    ∃ chunk shape ip, TaskMapped k k₂ process task rs rs' chunk shape ip := by
  obtain ⟨chunk, shape, ip, hown, hat, hkeeps, honly, htaken, hsched⟩ :=
    tableTaskNew_owns hnew ho hspot
  have hdirtask : (k₁.sched.tasks task).page_directory = chunk := by
    rw [hsched, page_directory_newTask]
  obtain ⟨mem, rfl, hon, hagree⟩ := processMapMemory_mapsApart (f := ⟨process, chunk, shape⟩) hmap
    (OnChunk.setTask process hdirtask hat) hown
  have hkept := hkeeps.subset hsub
  refine ⟨chunk, shape, ip, hown, hon, ⟨fun r hr hne q hq x hx => ?_, hkept.elfs, fun r hr => ?_,
    hkept.dir, hkept.process⟩, honly.elfs, ?_, honly.processes, honly.current_process, htaken,
    hsched⟩
  · exact (hagree r (List.mem_cons_of_mem _ (hsub r hr)) q hq x hx).trans
      (hkept.mem r hr hne q hq x hx)
  · exact (Function.update_of_ne (hnot r hr) _ _).trans (hkept.procs r hr)
  · dsimp only
    rw [honly.procs]
    rfl

/-- **Freeing the task again** gives back what it owned, and the list is what it was. -/
theorem TaskMapped.free {chunk ip : Addr} {shape : ChunkShape} {u : ℤ} {k' : Kernel}
    (h : TaskMapped k k₁ process task rs rs' chunk shape ip)
    (hspot : appendSpot k.sched = 0#32 ∨ (appendSpot k.sched, 1) ∈ rs) (hsub : ∀ r ∈ rs', r ∈ rs)
    (hfree : Table.taskFree task k₁ = some (u, k')) :
    Keeps (appendSpot k.sched) k k' rs' ∧ k'.current_process = k.current_process ∧
      HeapOwns k'.heap rs ∧ k'.processes = k.processes ∧ KeepsList k k' rs := by
  have hne : task ≠ 0#32 := h.owns.ne_zero (List.mem_append_right _ List.mem_cons_self)
  have hdirtask : (k₁.sched.tasks task).page_directory = chunk := by
    rw [h.sched, page_directory_newTask]
  obtain ⟨pm, hat⟩ := h.on.map
  obtain ⟨heap, kfrees, hcode, hown⟩ := @tableTaskFree_owns task _ pm k₁
    (hdirtask.symm ▸ hat) _ (hdirtask.symm ▸ h.owns)
  rw [hcode] at hfree
  cases hfree
  have hprev : (k₁.sched.tasks task).prev = appendSpot k.sched := by
    rw [h.sched]
    refine prev_newTask ?_ _ _ _
    rcases hspot with h0 | hmem
    · rw [h0]
      exact hne
    · exact (h.owns.ne_middle (List.mem_append_right _ hmem)).symm
  refine ⟨h.keeps.trans ⟨fun r hr hne q hq => ?_, fun _ _ => rfl, fun _ _ => rfl,
    fun r _ => page_directory_taskListRemove _ _ _, fun r _ => process_taskListRemove _ _ _⟩,
    h.current, hown, h.processes, fun ts hts hlist => ?_⟩
  · dsimp only
    rw [hprev]
    exact agreeOnPage_linkStore hown hspot _ _ (hsub r hr) hne hq
  · dsimp only
    rw [h.sched]
    refine (hlist.new hne (fun hm => ?_) chunk process ip).remove_last
    exact h.owns.ne_middle (List.mem_append_right _ (hts task hm)) rfl

end TaskMapped

/-- **`process_load_for_slot` from the task on**, among other processes. -/
theorem tableLoadTask_owns {process p : Addr} {slot : ℤ} {k k' : Kernel} {res : ℤ}
    (h : Table.processLoadTask process slot k = some ((res, p), k')) {rs rs' : List (Addr × ℕ)}
    (ho : HeapOwns k.heap rs)
    (hspot : appendSpot k.sched = 0#32 ∨ (appendSpot k.sched, 1) ∈ rs)
    (hsub : ∀ r ∈ rs', r ∈ rs) (hnot : ∀ r ∈ rs', r.1 ≠ process) :
    Keeps (appendSpot k.sched) k k' rs' ∧ k'.current_process = k.current_process ∧
      ((res < 0 ∧ HeapOwns k'.heap rs ∧ k'.processes = k.processes ∧ KeepsList k k' rs) ∨
        (0 ≤ res ∧ p = process ∧ 0 ≤ slot ∧ slot < maerosMaxProcesses ∧
          ∃ (f : ProcFoot) (task ip : Addr), f.process = process ∧
            HeapOwns k'.heap (chunkRuns f.chunk f.shape ++ (task, 1) :: rs) ∧ OnChunk k' f ∧
            k'.elfs = k.elfs ∧ k'.procs process = { k.procs process with task := task } ∧
            k'.processes = Function.update k.processes slot.toNat process ∧
            TaskTaken k.heap task f.chunk f.shape k'.heap ∧ k'.sched =
              taskListAppend (k.sched.assign task fun _ => newTask f.chunk process ip) task)) := by
  cases processLoadTaskBy_cases h with
  | none hnew =>
    -- a task is never null
    obtain ⟨chunk, shape, ip, hown, -⟩ := tableTaskNew_owns hnew ho hspot
    exact absurd rfl (hown.ne_zero (List.mem_append_right _ List.mem_cons_self))
  | unmapped hnew hmap hneg hfree =>
    obtain ⟨chunk, shape, ip, hmapped⟩ := taskMapped_of_map hnew hmap ho hspot hsub hnot
    obtain ⟨hkeeps, hcurrent, hown, hsame, hlist⟩ := hmapped.free hspot hsub hfree
    exact ⟨hkeeps, hcurrent, .inl ⟨hneg, hown, hsame, hlist⟩⟩
  | @up task k₁ k₂ hnew hmap hpos hslot hlt hk hp =>
    obtain ⟨chunk, shape, ip, hmapped⟩ := taskMapped_of_map hnew hmap ho hspot hsub hnot
    have hkeeps := hmapped.keeps
    subst hk
    refine ⟨⟨hkeeps.mem, hkeeps.elfs, hkeeps.procs, hkeeps.dir, hkeeps.process⟩, hmapped.current,
      .inr ⟨hpos, hp, hslot, hlt, ⟨process, chunk, shape⟩, task, ip, rfl, hmapped.owns,
        ⟨hmapped.on.dir, hmapped.on.map⟩, hmapped.elfs, ?_, ?_, hmapped.taken,
        hmapped.sched⟩⟩
    · dsimp only
      rw [hmapped.procs, Function.update_self]
    · dsimp only
      rw [hmapped.processes]

/-- A process in the table: its chunk, and the allocations that make up its program. -/
structure LiveProc where
  foot : ProcFoot
  program : List (Addr × ℕ)

/-- The record of the process. -/
abbrev LiveProc.process (p : LiveProc) : Addr := p.foot.process

/-- What the process owns apart from its chunk: its allocations, task, stack, program and record. -/
def LiveProc.holds (k : Kernel) (p : LiveProc) : List (Addr × ℕ) :=
  allocRuns (k.procs p.process) ++ ((k.procs p.process).task, 1) ::
    ((k.procs p.process).stack, 4) :: (p.program ++ [(p.process, 3)])

/-- Everything the process owns. -/
def LiveProc.runs (k : Kernel) (p : LiveProc) : List (Addr × ℕ) :=
  chunkRuns p.foot.chunk p.foot.shape ++ p.holds k

/-- The process is as it should be: on its chunk, with a program, a task that points back to it and
a number under which the table has it. -/
structure LiveProc.Up (k : Kernel) (p : LiveProc) : Prop where
  chunk : OnChunk k p.foot
  loaded : Loaded k p.process p.program
  back : (k.sched.tasks (k.procs p.process).task).process = p.process
  id : (k.procs p.process).id < maerosMaxProcesses
  slot : k.processes (k.procs p.process).id = p.process

section Slot

variable {filename : List (BitVec 8)} {elf binary : Table.FileUse} {slot : ℤ} {k k₁ k₂ k' : Kernel}
  {res : ℤ} {process q : Addr} {rs : List (Addr × ℕ)}

/-- What a call that failed among other processes has done: the blocks `rs`, the table and the list
are kept, and what it took besides is lost. -/
structure LoadFailed (k k' : Kernel) (rs : List (Addr × ℕ)) : Prop where
  keeps : Keeps (appendSpot k.sched) k k' rs
  current : k'.current_process = k.current_process
  owns : ∃ lost, HeapOwns k'.heap (lost ++ rs)
  processes : k'.processes = k.processes
  list : KeepsList k k' rs

/-- A call that fails before there is a task. -/
theorem Spares.loadFailed (h : Spares process k k' rs) (hnot : ∀ r ∈ rs, r.1 ≠ process)
    {os : List (Addr × ℕ)} (ho : HeapOwns k'.heap (os ++ rs)) : LoadFailed k k' rs :=
  ⟨h.keeps hnot, h.current_process, ⟨os, ho⟩, h.processes, h.keepsList⟩

/-- What a failed load has done, as an outcome. -/
theorem LoadFailed.outcome (h : LoadFailed k k' rs) (hneg : res < 0) {P : Prop} :
    Keeps (appendSpot k.sched) k k' rs ∧ k'.current_process = k.current_process ∧
      ((res < 0 ∧ (∃ lost, HeapOwns k'.heap (lost ++ rs)) ∧ k'.processes = k.processes ∧
        KeepsList k k' rs) ∨ P) :=
  ⟨h.keeps, h.current, .inl ⟨hneg, h.owns, h.processes, h.list⟩⟩

/-- Up to the stack, the process has a program, and the others are left alone. -/
structure ProgramRead (k k₁ : Kernel) (process : Addr) (res : ℤ) (os lost rs : List (Addr × ℕ)) :
    Prop where
  owns : HeapOwns k₁.heap ((os ++ (lost ++ [(process, 3)])) ++ rs)
  spares : Spares process k k₁ rs
  allocations : (k₁.procs process).allocations = Process.zero.allocations
  loaded : 0 ≤ res → Loaded k₁ process os

/-- `process_load_data` for a record that has just been allocated. -/
theorem programRead_of_data (hdata : Table.processLoadData elf binary process { k with
      procs := Function.update k.procs process Process.zero } = some (res, k₁))
    (ho : HeapOwns k.heap ((process, 3) :: rs)) :
    ∃ os lost, ProgramRead k k₁ process res os lost rs := by
  obtain ⟨os, lost, hown, halloc, hspares, hloaded⟩ := processLoadData_spares hdata
    (by dsimp only; rw [Function.update_self]) ho
  exact ⟨os, lost, by simpa using hown, (spares_onProcess _).trans
    (hspares.subset fun r hr => List.mem_cons_of_mem _ hr), halloc, hloaded⟩

/-- The stack is taken from what nobody has. -/
theorem ProgramRead.spares_stack {os lost : List (Addr × ℕ)} {stack : Addr}
    (h : ProgramRead k k₁ process res os lost rs)
    (hz : Model.kzalloc maerosUserProgramStackSize k₁ = some (stack, k₂)) :
    Spares process k k₂ rs :=
  h.spares.trans ((h.owns.spares_kzalloc hz).subset fun _ hr => List.mem_append_right _ hr)

/-- **With its task** the process is up, and owns what it has. -/
theorem ProgramRead.up {res₁ : ℤ} {os lost : List (Addr × ℕ)}
    (h : ProgramRead k k₁ process res₁ os lost rs) (hpos : 0 ≤ res₁) {stack task ip : Addr}
    (hz : Model.kzalloc maerosUserProgramStackSize k₁ = some (stack, k₂)) {f : ProcFoot}
    (hf : f.process = process) (hlt : slot < maerosMaxProcesses)
    (hown : HeapOwns k'.heap (chunkRuns f.chunk f.shape ++ (task, 1) :: (stack, 4) ::
      ((os ++ (lost ++ [(process, 3)])) ++ rs))) (hon : OnChunk k' f)
    (helfs : k'.elfs = k₂.elfs)
    (hrec : k'.procs process = withTask (withStack (k₂.procs process) filename stack slot) task)
    (hslots : k'.processes = Function.update k₂.processes slot.toNat process)
    (hsched : k'.sched =
      taskListAppend (k₂.sched.assign task fun _ => newTask f.chunk process ip) task) :
    (k'.procs process).id = slot.toNat ∧
      (k'.procs process).allocations = Process.zero.allocations ∧ LiveProc.Up k' ⟨f, os⟩ ∧
      HeapOwns k'.heap (LiveProc.runs k' ⟨f, os⟩ ++ (lost ++ rs)) ∧
      k'.processes = Function.update k.processes slot.toNat process ∧
      k'.sched = taskListAppend (k.sched.assign (k'.procs process).task
        fun _ => newTask f.chunk process ip) (k'.procs process).task := by
  subst hf
  obtain ⟨-, -, -, honly⟩ := kzalloc_some hz
  have hprocs : k₂.procs f.process = k₁.procs f.process := by rw [honly.procs]
  have hid : (k'.procs f.process).id = slot.toNat := by rw [hrec]; rfl
  have htask : (k'.procs f.process).task = task := by rw [hrec]; rfl
  have hst : (k'.procs f.process).stack = stack := by rw [hrec]; rfl
  have hzero : (k'.procs f.process).allocations = Process.zero.allocations := by
    rw [hrec, ← h.allocations, ← hprocs]
    rfl
  have hnone : allocRuns (k'.procs f.process) = [] := by
    refine allocRuns_eq_nil fun i _ => ?_
    rw [hzero]
    rfl
  refine ⟨hid, hzero, ⟨hon, ?_, ?_, ?_, ?_⟩, ?_, ?_, ?_⟩
  · -- only the stack, the name, the number and the task were filled in since
    refine (h.loaded hpos).of_records ?_ ?_ fun _ => by rw [helfs, honly.elfs]
    · rw [hrec, ← hprocs]
      rfl
    · rw [hrec, ← hprocs]
      rfl
  · rw [htask, hsched, process_taskListAppend, assign_tasks, if_pos rfl]
    rfl
  · rw [hid]
    unfold maerosMaxProcesses at hlt ⊢
    omega
  · rw [hid, hslots, Function.update_self]
  · unfold LiveProc.runs LiveProc.holds
    dsimp only
    rw [hnone, htask, hst]
    refine hown.perm ?_
    simp only [List.nil_append, List.append_assoc, List.cons_append]
    refine List.Perm.append_left _ (List.Perm.cons _ (List.Perm.cons _ ?_))
    exact List.Perm.append_left _ List.perm_middle
  · rw [hslots, honly.processes, h.spares.processes]
  · rw [htask, hsched, honly.sched, h.spares.sched]

/-- **`process_load_for_slot`** among other processes. Whatever it returns, it keeps all blocks
`rs`; a process that it returns is up and owns what it has. -/
theorem tableLoadForSlot_owns
    (h : Table.processLoadForSlot filename elf binary slot k = some ((res, q), k'))
    (ho : HeapOwns k.heap rs)
    (hspot : appendSpot k.sched = 0#32 ∨ (appendSpot k.sched, 1) ∈ rs) :
    Keeps (appendSpot k.sched) k k' rs ∧ k'.current_process = k.current_process ∧
      ((res < 0 ∧ (∃ lost, HeapOwns k'.heap (lost ++ rs)) ∧ k'.processes = k.processes ∧
          KeepsList k k' rs) ∨
        (0 ≤ res ∧ ∃ (p : LiveProc) (lost : List (Addr × ℕ)), p.process = q ∧ 0 ≤ slot ∧
          (k'.procs q).id = slot.toNat ∧
          (k'.procs q).allocations = Process.zero.allocations ∧ p.Up k' ∧
          HeapOwns k'.heap (p.runs k' ++ (lost ++ rs)) ∧
          k'.processes = Function.update k.processes slot.toNat q ∧
          ∃ ip, k'.sched = taskListAppend (k.sched.assign (k'.procs q).task
            fun _ => newTask p.foot.chunk q ip) (k'.procs q).task)) := by
  obtain ⟨process, k₁, hz, hrest⟩ := processLoadForSlotBy_cases h
  have hrecord : Spares process k k₁ rs := ho.spares_kzalloc hz
  rcases hrest with ⟨hnull, rfl, rfl⟩ | ⟨hnull, hload⟩
  · have hown : HeapOwns k'.heap ([] ++ rs) := by
      rcases ho.kzalloc_any hz with ⟨hown, -⟩ | ⟨-, hne, -⟩
      · exact hown
      · exact absurd hnull hne
    exact (hrecord.loadFailed (fun r hr => hnull ▸ ho.ne_zero hr) hown).outcome (by decide)
  have ho₁ : HeapOwns k₁.heap ((process, 3) :: rs) := ho.record hz hnull
  have hnot : ∀ r ∈ rs, r.1 ≠ process := fun r hr => @HeapOwns.ne_middle _ [] _ _ ho₁ _ hr
  cases hload with
  | data hdata hneg =>
    obtain ⟨os, lost, hread⟩ := programRead_of_data hdata ho₁
    exact ((hrecord.trans hread.spares).loadFailed hnot hread.owns).outcome hneg
  | stack hdata hz₂ hres =>
    obtain ⟨os, lost, hread⟩ := programRead_of_data hdata ho₁
    have hown : HeapOwns k'.heap ((os ++ (lost ++ [(process, 3)])) ++ rs) := by
      rcases hread.owns.kzalloc_any hz₂ with ⟨hown, -⟩ | ⟨-, hne, -⟩
      · exact hown
      · exact absurd rfl hne
    exact ((hrecord.trans (hread.spares_stack hz₂)).loadFailed hnot hown).outcome
      (hres ▸ by decide)
  | @task res₁ k₂ k₃ stack hdata hpos hz₂ hstack htask =>
    obtain ⟨os, lost, hread⟩ := programRead_of_data hdata ho₁
    have hfront : Spares process k k₃ rs := hrecord.trans (hread.spares_stack hz₂)
    have hmem : ∀ r ∈ rs, r ∈ (stack, 4) :: ((os ++ (lost ++ [(process, 3)])) ++ rs) :=
      fun r hr => List.mem_cons_of_mem _ (List.mem_append_right _ hr)
    have hspot₃ : appendSpot k₃.sched = 0#32 ∨
        (appendSpot k₃.sched, 1) ∈ (stack, 4) :: ((os ++ (lost ++ [(process, 3)])) ++ rs) := by
      rw [hfront.sched]
      exact hspot.imp id (hmem _)
    have hown₃ := hread.owns.stack hz₂ hstack
    obtain ⟨hkeeps, hcurrent, hcase⟩ := tableLoadTask_owns htask hown₃ hspot₃ hmem hnot
    dsimp only at hkeeps hcurrent hcase
    rw [show appendSpot k₃.sched = appendSpot k.sched by rw [hfront.sched]] at hkeeps
    have hkept := ((hfront.trans (spares_onProcess _)).keeps hnot).trans hkeeps
    have hsame := hcurrent.trans hfront.current_process
    rcases hcase with ⟨hneg, hown, hslots, hlist⟩ |
      ⟨hpos', rfl, hslot, hlt, f, task, ip, hf, hown, hon, helfs, hrec, hslots, -, hsched⟩
    · have hfail : LoadFailed k k' rs :=
        ⟨hkept, hsame, ⟨(stack, 4) :: (os ++ (lost ++ [(process, 3)])), hown⟩,
          hslots.trans hfront.processes, fun ts hts h =>
            hlist ts (fun t ht => hmem _ (hts t ht)) (hfront.keepsList ts hts h)⟩
      exact hfail.outcome hneg
    · rw [Function.update_self] at hrec
      have hbefore : ProgramRead k k₂ q res₁ os lost rs :=
        ⟨hread.owns, hrecord.trans hread.spares, hread.allocations, hread.loaded⟩
      obtain ⟨hid, hzero, hup, hruns, hprocesses, hlinked⟩ :=
        hbefore.up hpos hz₂ hf hlt hown hon helfs hrec hslots hsched
      exact ⟨hkept, hsame, .inr ⟨hpos', ⟨f, os⟩, lost, hf, hslot, hid, hzero, hup, hruns,
        hprocesses, ip, hlinked⟩⟩

end Slot

end MaerOS.Analysis
