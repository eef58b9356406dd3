import Mathlib.Tactic.Abel
import MaerOS.Model.File
import MaerOS.Analysis.LoadPlace

/-!
# A run that ruins the table

Four processes are loaded and three are terminated. The page directory of the last
one lies where the task of the first one was, and the second one still points back
there: terminating it makes the task of the third one a page table of the last one,
and terminating the last one frees it. Up to there the run is as it should be.
-/

set_option autoImplicit false

namespace MaerOS.Analysis

open MaerOS.Lib MaerOS.Model

/-! ## Steps with known places -/

/-- The table is as it should be, and the free blocks are those in the spans. -/
structure Stage (k : Kernel) (live : List LiveProc) (lost : List (Addr × ℕ))
    (spans : List (ℕ × ℕ)) : Prop where
  inv : TableInv k live lost
  free : FreeSpans k.heap spans

/-- What a load does to the rest of the kernel. -/
structure Loads (k k' : Kernel) (live : List LiveProc) (place : LoadPlace) (slot : ℕ) : Prop where
  task : (k'.procs (blockAddr place.process)).task = blockAddr place.task
  stack : (k'.procs (blockAddr place.process)).stack = blockAddr place.stack
  none : NoAllocations (blockAddr place.process) k'
  others : ∀ q ∈ live, k'.procs q.process = k.procs q.process
  sched : ∃ chunk ip, k'.sched = taskListAppend (k.sched.assign (blockAddr place.task)
    fun _ => newTask chunk (blockAddr place.process) ip) (blockAddr place.task)
  processes : k'.processes = Function.update k.processes slot (blockAddr place.process)

section Stage

variable {k k' : Kernel} {live : List LiveProc} {lost : List (Addr × ℕ)}
  {spans spans' : List (ℕ × ℕ)}

/-- The tail of the list, if there is a list, is the task of a process in the table. -/
def TailLive (k : Kernel) (live : List LiveProc) : Prop :=
  k.sched.task_head ≠ 0#32 → ∃ q ∈ live, (k.procs q.process).task = k.sched.task_tail

/-- Where the tail is live, a load stores to a live task. -/
theorem TailLive.linkLive (h : TailLive k live) (hinv : TableInv k live lost)
    (filename : List (BitVec 8)) (elf binary : Table.FileUse) :
    LinkLive k (.loadSwitch filename elf binary) := by
  unfold LinkLive linkSpot appendSpot
  dsimp only
  by_cases hhead : k.sched.task_head = 0#32
  · exact .inl (if_pos hhead)
  · rw [if_neg hhead]
    obtain ⟨q, hq, htask⟩ := h hhead
    exact .inr ⟨q.process, hinv.to_listed hq, htask⟩

/-- **A load** puts the process where `placeLoad` says. -/
theorem Stage.load (h : Stage k live lost spans) {file : Table.FileUse} {pages : ℕ}
    (hfile : file.toFilePass = bareElf pages) (hpages : 1 ≤ pages) (hmax : pages ≤ 25600)
    (filename : List (BitVec 8)) (binary : Table.FileUse) {place : LoadPlace}
    {held : List (ℕ × ℕ)}
    (hplace : placeLoad file pages spans = some (place, held, spans')) (htail : TailLive k live)
    {slot : ℕ} (hlt : slot < maerosMaxProcesses) (hempty : k.processes slot = 0#32)
    (hfull : ∀ i < slot, k.processes i ≠ 0#32) :
    ∃ k', tableStep k (.loadSwitch filename file binary) = some k' ∧
      Stage k' (place.live pages :: live) (held.map spanRun ++ lost) spans' ∧
      Loads k k' live place slot := by
  have hlink := htail.linkLive h.inv filename file binary
  have hslot := processGetFreeSlot_eq hlt hempty hfull
  have htailIn : TailIn k.sched (live.flatMap (LiveProc.runs k) ++ lost) := by
    intro hhead
    obtain ⟨q, hq, htask⟩ := htail hhead
    rw [← htask]
    exact mem_live_holds hq (q.task_mem_holds k)
  obtain ⟨k₁, hcode, hloaded⟩ := HeapAt.loadForSlot ⟨h.inv.owns, h.free⟩ hfile hpages hmax
    filename binary hplace htailIn hlt hempty
  have hstep : tableStep k (.loadSwitch filename file binary) = some { k₁ with
      current_process := blockAddr place.process } := by
    have hload : Table.processLoad filename file binary k = some ((0, blockAddr place.process), k₁) := by
      unfold Table.processLoad processLoadBy
      rw [bind_get, hslot, if_neg (by omega)]
      exact hcode
    have hswitch : Table.processLoadSwitch filename file binary k =
        some ((0, blockAddr place.process), { k₁ with
          current_process := blockAddr place.process }) := by
      unfold Table.processLoadSwitch
      rw [bind_of_some hload]
      rfl
    simp only [tableStep, hswitch, Option.map_some]
  refine ⟨_, hstep, ⟨?_, hloaded.heap.free⟩, hloaded.task, hloaded.stack, fun i => ?_, fun q hq => ?_,
    hloaded.sched, hloaded.processes⟩
  · exact h.inv.insert (p := place.live pages) hloaded.keeps
      (fun q hq r hr => h.inv.chunk_ne_spot hlink hq hr) hempty hloaded.id hloaded.up
      hloaded.heap.owns hloaded.processes (.inl rfl)
  · dsimp only
    rw [hloaded.allocations]
    rfl
  · exact hloaded.keeps.procs _ (mem_live_holds hq (q.process_mem_holds k))

/-- `process_unlink` finds another process to switch to, if there is one. -/
theorem processUnlink_outcome {process : Addr} {i : ℕ} (hi : i < maerosMaxProcesses)
    (hne : i ≠ (k.procs process).id) (hslot : k.processes i ≠ 0#32) :
    ∃ k', processUnlink process k = some ((), k') := by
  have hother : Function.update k.processes (k.procs process).id 0#32 i ≠ 0#32 := by
    rwa [Function.update_of_ne hne]
  obtain ⟨k₁, hk₁⟩ : ∃ k₁, k₁ = { k with
    processes := Function.update k.processes (k.procs process).id 0#32 } := ⟨_, rfl⟩
  have hthere : k₁.processes i ≠ 0#32 := by rwa [hk₁]
  have hrest : ∃ k', (do
      let k ← (get : KernelM Kernel)
      if k.current_process = process then processSwitchToAny else pure ()) k₁ = some ((), k') := by
    rw [bind_get]
    split
    · unfold processSwitchToAny
      rw [bind_get]
      cases hfind : (List.range maerosMaxProcesses).find? fun i => k₁.processes i != 0#32 with
      | none =>
        have := List.find?_eq_none.mp hfind i (List.mem_range.mpr hi)
        simp [hthere] at this
      | some j => exact ⟨_, rfl⟩
    · exact ⟨k₁, rfl⟩
  obtain ⟨k', hrest⟩ := hrest
  exact ⟨k', prog_bind.mpr ⟨(), k₁, by rw [hk₁]; rfl, hrest⟩⟩

/-- **`process_terminate`** returns, if there is another process. -/
theorem ProcessUp.tableTerminate_outcome {f : ProcFoot} {rs : List (Addr × ℕ)}
    (h : ProcessUp k f [] rs) {i : ℕ} (hi : i < maerosMaxProcesses)
    (hne : i ≠ (k.procs f.process).id) (hslot : k.processes i ≠ 0#32) :
    ∃ k', Table.processTerminate f.process k = some (0, k') := by
  obtain ⟨k₂, -, heq, -, -, -, -, -, -, hid, -, hslots, -⟩ := h.tableTerminate_eq
  obtain ⟨k', hunlink⟩ := processUnlink_outcome hi (hid ▸ hne) (hslots ▸ hslot)
  rw [heq, bind_of_some hunlink]
  exact ⟨k', rfl⟩

/-- What a process gives back when it is terminated, if it has allocated nothing. -/
def LiveProc.gives (k : Kernel) (p : LiveProc) : List (Addr × ℕ) :=
  chunkRuns p.foot.chunk p.foot.shape ++ ((k.procs p.process).task, 1) ::
    ((k.procs p.process).stack, 4) :: p.program

theorem LiveProc.runs_eq_gives {p : LiveProc} (hnone : NoAllocations p.process k) :
    p.runs k = p.gives k ++ [(p.process, 3)] := by
  unfold LiveProc.runs LiveProc.holds LiveProc.gives
  rw [allocRuns_eq_nil fun i _ => hnone i]
  simp

/-- **Terminating** a process whose task nobody stale points to gives its blocks back. -/
theorem Stage.terminate {init post : List LiveProc} {p : LiveProc}
    (h : Stage k (init ++ p :: post) lost spans) (hlink : LinkLive k (.terminate p.process))
    (hnone : NoAllocations p.process k) {i : ℕ} (hi : i < maerosMaxProcesses)
    (hne : i ≠ (k.procs p.process).id) (hslot : k.processes i ≠ 0#32)
    (hordered : SpansFrom 0 spans')
    (hfree : ∀ b, InSpans spans' b ↔ InSpans spans b ∨ ∃ r ∈ p.gives k, InRun r (4096 + b)) :
    ∃ k', tableStep k (.terminate p.process) = some k' ∧
      Stage k' (init ++ post) ((p.process, 3) :: lost) spans' ∧
      k'.sched = taskListRemove k.sched (k.procs p.process).task ∧
      (∀ q ∈ init ++ post, k'.procs q.process = k.procs q.process) ∧
      k'.processes = Function.update k.processes (k.procs p.process).id 0#32 := by
  obtain ⟨k', hrun⟩ := h.inv.processUp.tableTerminate_outcome hi hne hslot
  obtain ⟨hinv, hkeep, hsched, hprocs, hprocesses⟩ := h.inv.remove hlink hrun
  rw [allocRuns_eq_nil fun i _ => hkeep hnone i, List.nil_append] at hinv
  have hall := h.inv.owns.perm (flatMap_runs_perm _ init post p lost)
  have hneq : ∀ q ∈ init ++ post, q.process ≠ p.process := fun q hq =>
    (hall.ne_of_append (p.holds_subset k (p.process_mem_holds k))
      (mem_live_holds hq (q.process_mem_holds k))).symm
  have hrecs : ∀ q ∈ init ++ post, k'.procs q.process = k.procs q.process := fun q hq =>
    hprocs _ (hneq q hq)
  refine ⟨k', ?_, ⟨hinv, ?_⟩, hsched, hrecs, hprocesses⟩
  · simp only [tableStep, hrun, Option.map_some]
  · refine h.free.release ?_ hinv.owns hordered hfree
    rw [List.flatMap_congr fun q hq => LiveProc.runs_congr (hrecs q hq)]
    refine hall.perm ?_
    rw [p.runs_eq_gives hnone, List.append_assoc]
    rw [List.singleton_append]
    exact List.Perm.append_left _ List.perm_middle.symm

end Stage

/-- The blocks of the parts of a process, as intervals. -/
theorem LoadPlace.inRun_gives {k : Kernel} {place : LoadPlace} {pages : ℕ}
    (htask : (k.procs (blockAddr place.process)).task = blockAddr place.task)
    (hstack : (k.procs (blockAddr place.process)).stack = blockAddr place.stack)
    (hbounds : place.row + 1026 ≤ 25600 ∧ place.task < 25600 ∧ place.stack < 25600 ∧
      place.image < 25600 ∧ place.elf < 25600) (b : ℕ) :
    (∃ r ∈ (place.live pages).gives k, InRun r (4096 + b)) ↔
      (place.row ≤ b ∧ b < place.row + 1026) ∨ b = place.task ∨
        (place.stack ≤ b ∧ b < place.stack + 4) ∨ (place.image ≤ b ∧ b < place.image + pages) ∨
        b = place.elf := by
  obtain ⟨hrow, ht, hs, hi, he⟩ := hbounds
  have htables : (∃ r ∈ (List.range 1024).map (fun i => (blockAddr (place.row + 1 + i), 1)),
      InRun r (4096 + b)) ↔ place.row + 1 ≤ b ∧ b < place.row + 1025 := by
    constructor
    · rintro ⟨r, hr, hin⟩
      obtain ⟨i, hi, rfl⟩ := List.mem_map.mp hr
      have := List.mem_range.mp hi
      have := (inRun_blockAddr (by omega)).mp hin
      omega
    · intro hb
      refine ⟨_, List.mem_map.mpr ⟨b - (place.row + 1), List.mem_range.mpr (by omega), rfl⟩, ?_⟩
      exact (inRun_blockAddr (by omega)).mpr (by omega)
  unfold LiveProc.gives LoadPlace.live chunkRuns rowShape
  dsimp only [LiveProc.process]
  rw [htask, hstack]
  simp only [List.mem_append, or_and_right, exists_or, htables, List.mem_cons, exists_eq_left,
    List.not_mem_nil, or_false, inRun_blockAddr ht, inRun_blockAddr hs, inRun_blockAddr hi,
    inRun_blockAddr he, inRun_blockAddr (show place.row < 25600 by omega),
    inRun_blockAddr (show place.row + 1025 < 25600 by omega)]
  omega

/-! ## A task as a page table -/

/-- The chunk with another block as table `i`. -/
def ChunkShape.redirect (shape : ChunkShape) (i : ℕ) (v : Addr) : ChunkShape :=
  { shape with tables := Function.update shape.tables i v }

/-- The two blocks change places. -/
theorem chunkRuns_redirect (chunk : Addr) (shape : ChunkShape) {i : ℕ} (hi : i < 1024) (v : Addr) :
    ((v, 1) :: chunkRuns chunk shape).Perm
      ((shape.tables i, 1) :: chunkRuns chunk (shape.redirect i v)) := by
  have hone : ∀ tables : ℕ → Addr, (∀ j, j ≠ i → tables j = shape.tables j) →
      ((List.range 1024).map fun j => (tables j, 1)).Perm ((tables i, 1) ::
        (List.range 1024).filterMap fun j => if j = i then none else some (shape.tables j, 1)) := by
    intro tables htables
    rw [← List.filterMap_eq_map]
    refine filterMap_perm_cons List.nodup_range (List.mem_range.mpr hi) rfl (if_pos rfl) ?_
    intro j _ hj
    rw [if_neg hj]
    simp [htables j hj]
  have hold := hone shape.tables fun _ _ => rfl
  have hnew := hone (shape.redirect i v).tables fun j hj => Function.update_of_ne hj _ _
  rw [show (shape.redirect i v).tables i = v from Function.update_self _ _ _] at hnew
  unfold chunkRuns
  refine ((hold.append_right _).cons _).trans ?_
  refine (List.Perm.swap _ _ _).trans ((List.Perm.cons _ ?_))
  exact (hnew.append_right [((shape.redirect i v).dir, 1), (chunk, 1)]).symm

/-- An allocation becomes table `i` of a chunk, and the old table one that nobody has. -/
theorem HeapOwns.redirect {h : Heap} {chunk v : Addr} {shape : ChunkShape} {rs : List (Addr × ℕ)}
    {i : ℕ} (hi : i < 1024) (ho : HeapOwns h ((v, 1) :: (chunkRuns chunk shape ++ rs))) :
    HeapOwns h (chunkRuns chunk (shape.redirect i v) ++ (shape.tables i, 1) :: rs) := by
  have hswap := (chunkRuns_redirect chunk shape hi v).append_right rs
  exact ho.perm (hswap.trans List.perm_middle.symm)

/-- Blocks that belong to a chunk are one if the directory says so. -/
theorem ChunkAt.of_owned {h : Heap} {m : Memory} {chunk : Addr} {shape : ChunkShape}
    {rs : List (Addr × ℕ)} (ho : HeapOwns h (chunkRuns chunk shape ++ rs))
    (hword : load32 m chunk = shape.dir)
    (hdir : ∀ i < 1024, load32 m (wordAt shape.dir i) &&& 0xfffff000#32 = shape.tables i) :
    ∃ pm, ChunkAt m chunk shape pm := by
  have hnd : ((List.range 1024).map shape.tables ++ [shape.dir, chunk]).Nodup := by
    have hnd := ho.nodup
    rw [List.map_append, chunkRuns_map_fst] at hnd
    exact (List.nodup_append.mp hnd).1
  obtain ⟨htables, hpair, hdisj⟩ := List.nodup_append.mp hnd
  have hmem : ∀ i < 1024, shape.tables i ∈ (List.range 1024).map shape.tables := fun i hi =>
    List.mem_map_of_mem (List.mem_range.mpr hi)
  have haligned : ∀ p ∈ (List.range 1024).map shape.tables ++ [shape.dir, chunk], PageAligned p := by
    intro p hp
    rw [← chunkRuns_map_fst] at hp
    obtain ⟨r, hr, rfl⟩ := List.mem_map.mp hp
    exact ho.aligned _ (List.mem_append_left _ hr)
  refine ⟨fun p => load32 m (wordAt (shape.tables (p / 1024)) (p % 1024)),
    haligned _ (by simp), haligned _ (by simp),
    fun i hi => haligned _ (List.mem_append_left _ (hmem i hi)), ?_,
    fun i hi => hdisj _ (hmem i hi) _ (by simp), fun i hi => hdisj _ (hmem i hi) _ (by simp),
    fun i hi j hj heq => List.inj_on_of_nodup_map htables (List.mem_range.mpr hi)
      (List.mem_range.mpr hj) heq, hword, hdir, fun _ _ => rfl⟩
  intro heq
  simp [heq] at hpair

/-- **A store to the directory** of the address of another block makes that block a table. -/
theorem ChunkAt.redirect {h : Heap} {m : Memory} {chunk : Addr} {shape : ChunkShape}
    {pm : ℕ → BitVec 32} {rs : List (Addr × ℕ)} (hat : ChunkAt m chunk shape pm) {i : ℕ}
    (hi : i < 1024) {v : Addr} (ho : HeapOwns h (chunkRuns chunk (shape.redirect i v) ++ rs)) :
    ∃ pm', ChunkAt (store32 m (wordAt shape.dir i) v) chunk (shape.redirect i v) pm' := by
  have hv : PageAligned v := by
    refine ho.aligned (v, 1) (List.mem_append_left _ (List.mem_append_left _ ?_))
    refine List.mem_map.mpr ⟨i, List.mem_range.mpr hi, ?_⟩
    rw [show (shape.redirect i v).tables i = v from Function.update_self _ _ _]
  have hdir := hat.dir_aligned
  refine ChunkAt.of_owned ho ?_ fun j hj => ?_
  · have hchunk : chunk.toNat % 4 = 0 := by
      have := hat.chunk_aligned
      unfold PageAligned at this
      omega
    rw [load32_store32_of_ne (wordAt_mod hdir hi) hchunk fun heq => ?_]
    · exact hat.chunk_word
    · refine hat.chunk_ne_dir (eq_of_pageOf_eq hat.chunk_aligned hdir ?_)
      rw [← heq, pageOf_wordAt hdir hi]
  · show load32 _ (wordAt shape.dir j) &&& 0xfffff000#32 = Function.update shape.tables i v j
    by_cases hji : j = i
    · rw [hji, load32_store32_self, Function.update_self]
      have hmask := or_flags_and_mask hv (show (0#32).toNat < 4096 by decide)
      rwa [BitVec.or_zero] at hmask
    · rw [load32_store32_of_ne (wordAt_mod hdir hi) (wordAt_mod hdir hj)
        fun heq => hji (wordAt_inj hdir hdir hi hj heq).2.symm, Function.update_of_ne hji]
      exact hat.dir_word j hj

/-- A block that nobody owns is no allocation. -/
theorem HeapOwns.not_allocStart {h : Heap} {rs : List (Addr × ℕ)} (ho : HeapOwns h rs) {p : Addr}
    (hno : ∀ r ∈ rs, ¬ InRun r (pageOf p)) : ¬ AllocStart h p := by
  rintro ⟨b, hb, rfl, htype, -⟩
  rw [ho.total] at hb
  rw [heapBlockToAddress_packed ho.saddr, pageOf_blockAddr hb] at hno
  have hfree := ho.isFree hb hno
  unfold IsFree at hfree
  rw [htype] at hfree
  exact absurd hfree (by decide)

/-- The process `d` has the task of `c` for a page table. -/
structure Redirected (k : Kernel) (c d : LiveProc) (i : ℕ) (rs : List (Addr × ℕ)) : Prop where
  index : i < 1024
  up : ProcessUp k ⟨d.process, d.foot.chunk, d.foot.shape.redirect i (k.procs c.process).task⟩ [] rs
  none : NoAllocations d.process k
  ne : c.process ≠ 0#32 ∧ c.process ≠ d.process
  id : (k.procs c.process).id < maerosMaxProcesses
  slot : k.processes (k.procs c.process).id = c.process
  other : (k.procs c.process).id ≠ (k.procs d.process).id

/-- **Terminating `d`** frees the task of `c`, which stays in the table. -/
theorem Redirected.ruined {k : Kernel} {c d : LiveProc} {i : ℕ} {rs : List (Addr × ℕ)}
    (h : Redirected k c d i rs) :
    ∃ k', tableStep k (.terminate d.process) = some k' ∧ ¬ ProcTableGood k' := by
  obtain ⟨k', hrun⟩ := h.up.tableTerminate_outcome h.id h.other
    (by rw [h.slot]; exact h.ne.1)
  have hdone := h.up.tableTerminate_some hrun
  refine ⟨k', ?_, fun hgood => ?_⟩
  · simp only [tableStep, hrun, Option.map_some]
  -- `c` is in the table as before
  have hrec : k'.procs c.process = k.procs c.process := hdone.procs _ h.ne.2
  have hslot : k'.processes (k.procs c.process).id = c.process := by
    rw [hdone.processes, Function.update_of_ne h.other, h.slot]
  have hstart := hgood.owns _ h.id (by rw [hslot]; exact h.ne.1)
  rw [hslot, hrec] at hstart
  -- but its task was a table of `d`
  obtain ⟨os, -, hown⟩ := h.up.parts
  have hmem : ((k.procs c.process).task, 1) ∈
      chunkRuns d.foot.chunk (d.foot.shape.redirect i (k.procs c.process).task) := by
    refine List.mem_append_left _ (List.mem_map.mpr ⟨i, List.mem_range.mpr h.index, ?_⟩)
    rw [show (d.foot.shape.redirect i (k.procs c.process).task).tables i = _ from
      Function.update_self _ _ _]
  have howns := hdone.owns
  rw [allocRuns_eq_nil fun j _ => hdone.none h.none j, List.nil_append] at howns
  refine howns.not_allocStart (fun r hr => ?_) hstart
  unfold ProcFoot.runs at hown
  dsimp only at hown
  rw [List.append_assoc] at hown
  refine (List.pairwise_append.mp hown.apart).2.2 _ hmem r ?_ _ ⟨le_rfl, by dsimp only; omega⟩
  simp only [List.mem_append, List.mem_cons]
  rcases List.mem_cons.mp hr with rfl | hr
  · simp
  · simp [hr]

/-- Two processes in the table have different numbers. -/
theorem LiveProc.Up.id_ne {k : Kernel} {p q : LiveProc} (hp : p.Up k) (hq : q.Up k)
    (hne : p.process ≠ q.process) : (k.procs p.process).id ≠ (k.procs q.process).id := by
  intro heq
  exact hne (hp.slot.symm.trans (heq ▸ hq.slot))

/-- The task of `b`, whose process is in the table, points back to a block that has become the
page directory of `d`, and on to the task of `c`. -/
structure Stale (k : Kernel) (b c d : LiveProc) (lost : List (Addr × ℕ)) : Prop where
  inv : TableInv k [d, c, b] lost
  prev : (k.sched.tasks (k.procs b.process).task).prev = d.foot.shape.dir
  next : (k.sched.tasks (k.procs b.process).task).next = (k.procs c.process).task
  none : NoAllocations d.process k

/-- The task of `c` and the table of `d` in each other's place. -/
theorem HeapOwns.takeTask {k : Kernel} {h : Heap} {c d : LiveProc} {r : Addr × ℕ}
    {as lost : List (Addr × ℕ)}
    (ho : HeapOwns h (as ++ r :: (([d, c] ++ []).flatMap (LiveProc.runs k) ++ lost))) :
    ∃ rest, HeapOwns h (chunkRuns d.foot.chunk
      (d.foot.shape.redirect 14 (k.procs c.process).task) ++ (d.holds k ++ rest)) := by
  have htask : ((k.procs c.process).task, 1) ∈ c.runs k := c.holds_subset k (c.task_mem_holds k)
  obtain ⟨c₁, c₂, hc⟩ := List.append_of_mem htask
  have hflat : ([d, c] ++ []).flatMap (LiveProc.runs k) =
      (chunkRuns d.foot.chunk d.foot.shape ++ d.holds k) ++
        (c₁ ++ ((k.procs c.process).task, 1) :: c₂) := by
    rw [← hc]
    simp [LiveProc.runs]
  obtain ⟨rest, hrest⟩ : ∃ rest, rest = c₁ ++ (c₂ ++ (lost ++ (as ++ [r]))) := ⟨_, rfl⟩
  have hgather : HeapOwns h (((k.procs c.process).task, 1) ::
      (chunkRuns d.foot.chunk d.foot.shape ++ (d.holds k ++ rest))) := by
    refine ho.perm ?_
    rw [hflat, hrest, ← Multiset.coe_eq_coe]
    simp only [← Multiset.coe_add, ← Multiset.cons_coe, ← Multiset.singleton_add,
      Multiset.coe_nil]
    abel
  have hswapped := HeapOwns.redirect (show 14 < 1024 by omega) hgather
  have hmove : ((d.foot.shape.tables 14, 1) :: (d.holds k ++ rest)).Perm
      (d.holds k ++ (d.foot.shape.tables 14, 1) :: rest) := List.perm_middle.symm
  exact ⟨_, hswapped.perm (hmove.append_left _)⟩

/-- **Terminating `b`** makes the task of `c` a page table of `d`. -/
theorem Stale.redirected {k : Kernel} {b c d : LiveProc} {lost : List (Addr × ℕ)}
    (h : Stale k b c d lost) :
    ∃ k' rs, tableStep k (.terminate b.process) = some k' ∧ Listed k' d.process ∧
      Redirected k' c d 14 rs := by
  have hupb := h.inv.up b (by simp)
  have hupc := h.inv.up c (by simp)
  have hupd := h.inv.up d (by simp)
  have hown : HeapOwns k.heap (d.runs k ++ (c.runs k ++ (b.runs k ++ lost))) := by
    simpa using h.inv.owns
  have hown' : HeapOwns k.heap ((d.runs k ++ c.runs k) ++ (b.runs k ++ lost)) := by
    rwa [List.append_assoc]
  have hrecord : ∀ p : LiveProc, (p.process, 3) ∈ p.runs k := fun p =>
    p.holds_subset k (p.process_mem_holds k)
  have hcb : c.process ≠ b.process := hown'.ne_of_append
    (List.mem_append_right _ (hrecord c)) (List.mem_append_left _ (hrecord b))
  have hdb : d.process ≠ b.process := hown'.ne_of_append
    (List.mem_append_left _ (hrecord d)) (List.mem_append_left _ (hrecord b))
  have hdc : d.process ≠ c.process := hown.ne_of_append (hrecord d)
    (List.mem_append_left _ (hrecord c))
  have hinv : TableInv k ([d, c] ++ b :: []) lost := h.inv
  have hup := hinv.processUp
  obtain ⟨k', hrun⟩ := hup.tableTerminate_outcome hupc.id (hupc.id_ne hupb hcb)
    (by rw [hupc.slot]; exact (h.inv.to_listed (by simp)).1)
  have hdone := hup.tableTerminate_some hrun
  have hslot : ∀ p : LiveProc, p.Up k → p.process ≠ b.process →
      k'.processes (k.procs p.process).id = p.process := by
    intro p hp hne
    rw [hdone.processes, Function.update_of_ne (hp.id_ne hupb hne), hp.slot]
  have hprocd := hdone.procs _ hdb
  have hprocc := hdone.procs _ hcb
  -- the blocks after the call, with the two in each other's place
  obtain ⟨rs, hredirect⟩ := hdone.owns.takeTask
  obtain ⟨mem, hagree, hmem⟩ := hdone.mem
  have hdir : d.foot.shape.dir ≠ 0#32 := hredirect.ne_zero (r := (d.foot.shape.dir, 1))
    (List.mem_append_left _ (List.mem_append_right _ List.mem_cons_self))
  obtain ⟨pm, hat⟩ := hupd.chunk.map
  have hat₁ : ChunkAt mem d.foot.chunk d.foot.shape pm :=
    hat.of_agree (hagree.subset fun r hr => List.mem_append_left _
      (List.mem_flatMap.mpr ⟨d, by simp, List.mem_append_left _ hr⟩))
  obtain ⟨pm', hat'⟩ := hat₁.redirect (by omega) hredirect
  refine ⟨k', rs, ?_, ⟨(h.inv.to_listed (by simp)).1, _, hupd.id, hslot d hupd hdb⟩, by omega,
    ⟨⟨?_, pm', ?_⟩, d.program, ?_, ?_⟩, ?_, ⟨(h.inv.to_listed (by simp)).1, hdc.symm⟩, ?_, ?_, ?_⟩
  · simp only [tableStep, hrun, Option.map_some]
  · show (k'.sched.tasks (k'.procs d.process).task).page_directory = d.foot.chunk
    rw [hprocd, hdone.sched, page_directory_taskListRemove]
    exact hupd.chunk.dir
  · dsimp only
    rw [hmem, h.prev, h.next, hprocc]
    unfold linkStore
    rw [if_neg hdir]
    exact hat'
  · exact hupd.loaded.of_records (by rw [hprocd]) (by rw [hprocd]) fun _ => by rw [hdone.elfs]
  · unfold ProcFoot.runs
    dsimp only
    rw [hprocd, hprocc]
    refine hredirect.perm ?_
    simp [LiveProc.holds]
  · intro i
    rw [hprocd]
    exact h.none i
  · rw [hprocc]
    exact hupc.id
  · rw [hprocc]
    exact hslot c hupc hcb
  · rw [hprocc, hprocd]
    exact hupc.id_ne hupd hdc.symm

/-! ## Loading one process after the other -/

/-- What `fopen` of a file in the root directory does: the path root and one part with its string
stay allocated, the string of an empty part does not. -/
def openingCalls : List Table.HeapAct :=
  [.take sizeofPathRoot (by decide), .take (BitVec.ofNat 32 maerosMaxPath) (by decide),
    .take sizeofPathPart (by decide), .take (BitVec.ofNat 32 maerosMaxPath) (by decide), .give 0,
    .take sizeofFatFileDescriptor (by decide), .take sizeofFatItem (by decide),
    .take (BitVec.ofNat 32 sizeofFatDirectoryItem) (by decide),
    .take sizeofFileDescriptor (by decide)]

/-- What `fclose` does: the directory item, the item, the FAT descriptor and the descriptor. -/
def closingCalls : List Table.HeapAct := [.give 1, .give 1, .give 1, .give 0]

/-- An ELF file without program headers in the root directory. -/
def bareFile (pages : ℕ) : Table.FileUse :=
  { bareElf pages with opening := openingCalls, closing := closingCalls }

/-- `process_load_switch` of such a file, with a name of one letter. -/
def loadBare (letter : BitVec 8) (pages : ℕ) : TableOp :=
  .loadSwitch [0x30#8, 0x3a#8, 0x2f#8, letter] (bareFile pages) (bareFile pages)

/-- Processes were loaded at these places, the last one first, and none was terminated. -/
structure OnlyLoaded (k : Kernel) (places : List (LoadPlace × ℕ)) (lost : List (Addr × ℕ))
    (spans : List (ℕ × ℕ)) : Prop where
  stage : Stage k (places.map fun p => p.1.live p.2) lost spans
  tasks : Represents k.sched (places.reverse.map fun p => blockAddr p.1.task)
  records : ∀ p ∈ places, (k.procs (blockAddr p.1.process)).task = blockAddr p.1.task ∧
    (k.procs (blockAddr p.1.process)).stack = blockAddr p.1.stack ∧
    NoAllocations (blockAddr p.1.process) k
  processes : ∀ i, k.processes i =
    (places.reverse.map fun p => blockAddr p.1.process).getD i 0#32

/-- One more program is loaded, behind the others. -/
theorem OnlyLoaded.next {k : Kernel} {places : List (LoadPlace × ℕ)} {lost : List (Addr × ℕ)}
    {spans spans' held : List (ℕ × ℕ)} (h : OnlyLoaded k places lost spans)
    (hlen : places.length < maerosMaxProcesses) (letter : BitVec 8) {pages : ℕ} (hpages : 1 ≤ pages)
    (hmax : pages ≤ 25600) {place : LoadPlace}
    (hplace : placeLoad (bareFile pages) pages spans = some (place, held, spans')) :
    ∃ k', tableStep k (loadBare letter pages) = some k' ∧ LinkLive k (loadBare letter pages) ∧
      OnlyLoaded k' ((place, pages) :: places) (held.map spanRun ++ lost) spans' := by
  have htail : TailLive k (places.map fun p => p.1.live p.2) := by
    intro hhead
    have hne : (places.reverse.map fun p => blockAddr p.1.task) ≠ [] := by
      intro hnil
      rw [h.tasks.head, hnil] at hhead
      exact hhead rfl
    have hmem := getLastD_mem hne
    rw [← h.tasks.tail] at hmem
    obtain ⟨p, hp, htask⟩ := List.mem_map.mp hmem
    have hp' := List.mem_reverse.mp hp
    exact ⟨p.1.live p.2, List.mem_map_of_mem hp', (h.records p hp').1.trans htask⟩
  have hslots : ∀ i < places.length, k.processes i ≠ 0#32 := by
    intro i hi
    have hlt : i < (places.reverse.map fun p => blockAddr p.1.process).length := by simpa using hi
    rw [h.processes, List.getD_eq_getElem _ _ hlt]
    obtain ⟨p, hp, heq⟩ := List.mem_map.mp (List.getElem_mem hlt)
    rw [← heq]
    exact (h.stage.inv.to_listed (List.mem_map_of_mem (List.mem_reverse.mp hp))).1
  have hempty : k.processes places.length = 0#32 := by
    rw [h.processes]
    simp
  have hbare : (bareFile pages).toFilePass = bareElf pages := rfl
  obtain ⟨k', hstep, hstage, hloads⟩ := h.stage.load hbare hpages hmax _ (bareFile pages) hplace
    htail hlen hempty hslots
  have hrecords : ∀ p ∈ places, (k'.procs (blockAddr p.1.process)) =
      k.procs (blockAddr p.1.process) := fun p hp =>
    hloads.others (p.1.live p.2) (List.mem_map_of_mem hp)
  have hown := hstage.inv.owns
  rw [List.flatMap_cons, List.append_assoc] at hown
  have htask : (blockAddr place.task, 1) ∈ (place.live pages).runs k' := by
    rw [← hloads.task]
    exact LiveProc.holds_subset k' _ (LiveProc.task_mem_holds k' _)
  have hnew : blockAddr place.task ∉ places.reverse.map fun p => blockAddr p.1.task := by
    intro hm
    obtain ⟨p, hp, heq⟩ := List.mem_map.mp hm
    have hp' := List.mem_reverse.mp hp
    refine hown.ne_of_append htask (mem_live_holds (List.mem_map_of_mem hp')
      ((p.1.live p.2).task_mem_holds k')) ?_
    refine heq.symm.trans ((h.records p hp').1.symm.trans ?_)
    exact congrArg Process.task (hrecords p hp').symm
  refine ⟨k', hstep, htail.linkLive h.stage.inv _ _ _, ⟨hstage, ?_, ?_, ?_⟩⟩
  · obtain ⟨chunk, ip, hsched⟩ := hloads.sched
    rw [hsched, List.reverse_cons, List.map_append]
    exact h.tasks.new (hown.ne_zero (List.mem_append_left _ htask)) hnew chunk _ ip
  · intro p hp
    rcases List.mem_cons.mp hp with rfl | hp
    · exact ⟨hloads.task, hloads.stack, hloads.none⟩
    · obtain ⟨h1, h2, h3⟩ := h.records p hp
      unfold NoAllocations
      rw [hrecords p hp]
      exact ⟨h1, h2, h3⟩
  · intro i
    have hlength : places.length = (places.reverse.map fun p => blockAddr p.1.process).length := by
      simp
    rw [hloads.processes, List.reverse_cons, List.map_append, List.map_singleton, getD_concat,
      ← hlength]
    by_cases hi : i = places.length
    · rw [if_pos hi, hi, Function.update_self]
    · rw [if_neg hi, Function.update_of_ne hi, h.processes]

/-! ## The run -/

/-- The process that is terminated first, of eight pages. -/
def placeA : LoadPlace := ⟨0, 3, 11, 7, 19, 20⟩

/-- The process with the stale link. -/
def placeB : LoadPlace := ⟨1046, 1049, 1057, 1053, 1058, 1059⟩

/-- The process that loses its task. -/
def placeC : LoadPlace := ⟨2085, 2088, 2096, 2092, 2097, 2098⟩

/-- The process whose page directory lies where the first task was. -/
def placeD : LoadPlace := ⟨7, 3, 17, 13, 18, 19⟩

theorem onlyLoaded_bootKernel : OnlyLoaded bootKernel [] [] [(0, 25600)] :=
  ⟨⟨⟨heapOwns_bootKernel, by simp, fun _ _ h => absurd rfl h, .inl rfl⟩,
    packed_bootKernel.freeSpans (by omega)⟩,
    ⟨List.nodup_nil, by simp, trivial, rfl, rfl, .inl ⟨rfl, rfl⟩⟩, by simp, fun _ => rfl⟩

theorem placeLoad_placeA : placeLoad (bareFile 8) 8 [(0, 25600)] =
    some (placeA, [(6, 1), (5, 1), (4, 1)], [(1046, 24554)]) := by decide +kernel

theorem placeLoad_placeB : placeLoad (bareFile 1) 1 [(1046, 24554)] =
    some (placeB, [(1052, 1), (1051, 1), (1050, 1)], [(2085, 23515)]) := by decide +kernel

theorem placeLoad_placeC : placeLoad (bareFile 1) 1 [(2085, 23515)] =
    some (placeC, [(2091, 1), (2090, 1), (2089, 1)], [(3124, 22476)]) := by decide +kernel

/-- Where the fourth program is placed, in the room of the first. -/
theorem placeLoad_placeD : placeLoad (bareFile 1) 1 [(3, 1), (7, 1039), (3124, 22476)] =
    some (placeD, [(12, 1), (11, 1), (10, 1)], [(1045, 1), (3124, 22476)]) := by decide +kernel

/-- The first of the three is gone, and the task of the second one still points back to its task. -/
structure Dangling (k : Kernel) (lost : List (Addr × ℕ)) : Prop where
  stage : Stage k [placeC.live 1, placeB.live 1] lost [(3, 1), (7, 1039), (3124, 22476)]
  taskB : (k.procs (blockAddr placeB.process)).task = blockAddr placeB.task
  taskC : (k.procs (blockAddr placeC.process)).task = blockAddr placeC.task
  tail : k.sched.task_tail = blockAddr placeC.task
  prev : (k.sched.tasks (blockAddr placeB.task)).prev = blockAddr placeA.task
  next : (k.sched.tasks (blockAddr placeB.task)).next = blockAddr placeC.task
  slot : k.processes 0 = 0#32

/-- **Terminating the first** of them gives back everything behind its record. -/
theorem OnlyLoaded.terminateFirst {k : Kernel} {lost : List (Addr × ℕ)}
    (h : OnlyLoaded k [(placeC, 1), (placeB, 1), (placeA, 8)] lost [(3124, 22476)]) :
    ∃ k', tableStep k (.terminate (blockAddr 0)) = some k' ∧ Listed k (blockAddr 0) ∧
      LinkLive k (.terminate (blockAddr 0)) ∧ Dangling k' ((blockAddr 0, 3) :: lost) := by
  obtain ⟨htask, hstack, hnone⟩ := h.records (placeA, 8) (by simp)
  have hzero : k.processes 0 = blockAddr 0 := h.processes 0
  have hone : k.processes 1 = blockAddr placeB.process := h.processes 1
  have hid : (k.procs (placeA.live 8).process).id = 0 := by
    obtain ⟨p, -, heq, hid⟩ := h.stage.inv.listed 0 (by decide) (by rw [hzero]; decide)
    rwa [heq, hzero] at hid
  obtain ⟨hprevA, -, hprevB, hnextB, -, -⟩ := h.tasks.linked
  have hlink : LinkLive k (.terminate (blockAddr 0)) := by
    refine .inl ?_
    show (k.sched.tasks (k.procs (blockAddr 0)).task).prev = 0#32
    rw [show (k.procs (blockAddr 0)).task = blockAddr placeA.task from htask]
    exact hprevA
  have hgives := @LoadPlace.inRun_gives k placeA 8 htask hstack (by decide)
  have hspans : ∀ b, InSpans [(3, 1), (7, 1039), (3124, 22476)] b ↔
      InSpans [(3124, 22476)] b ∨ ∃ r ∈ (placeA.live 8).gives k, InRun r (4096 + b) := by
    intro b
    rw [hgives b]
    simp [InSpans, placeA]
    omega
  have hstage : Stage k ([placeC.live 1, placeB.live 1] ++ placeA.live 8 :: []) lost
      [(3124, 22476)] := h.stage
  obtain ⟨k', hstep, hstage', hsched, hrecs, hprocesses⟩ := hstage.terminate hlink hnone (i := 1)
    (by decide) (by rw [hid]; decide) (by rw [hone]; decide) (by simp [SpansFrom]) hspans
  have hsched' : k'.sched = taskListRemove k.sched (blockAddr placeA.task) := by
    rw [hsched]
    exact congrArg (taskListRemove k.sched) htask
  have htasks : ∀ x, k'.sched.tasks x = k.sched.tasks x := fun x => by
    rw [hsched', taskListRemove_tasks, if_neg fun hp => hp.1 hprevA]
  refine ⟨k', hstep, ⟨by decide, 0, by decide, hzero⟩, hlink, ⟨hstage', ?_, ?_, ?_, ?_, ?_, ?_⟩⟩
  · rw [← (h.records (placeB, 1) (by simp)).1]
    exact congrArg Process.task (hrecs (placeB.live 1) (by simp))
  · rw [← (h.records (placeC, 1) (by simp)).1]
    exact congrArg Process.task (hrecs (placeC.live 1) (by simp))
  · have htail : k.sched.task_tail = blockAddr placeC.task := h.tasks.tail
    rw [hsched', task_tail_taskListRemove (by rw [htail]; decide) hprevA, htail]
  · rw [htasks]
    exact hprevB
  · rw [htasks]
    exact hnextB
  · rw [hprocesses, hid, Function.update_self]

/-- **Loading the last** process puts its page directory where the first task was. -/
theorem Dangling.loadLast {k : Kernel} {lost : List (Addr × ℕ)} (h : Dangling k lost) :
    ∃ k' lost', tableStep k (loadBare 0x42#8 1) = some k' ∧ LinkLive k (loadBare 0x42#8 1) ∧
      Stale k' (placeB.live 1) (placeC.live 1) (placeD.live 1) lost' := by
  have htail : TailLive k [placeC.live 1, placeB.live 1] := fun _ =>
    ⟨placeC.live 1, by simp, h.taskC.trans h.tail.symm⟩
  have hbare : (bareFile 1).toFilePass = bareElf 1 := rfl
  obtain ⟨k', hstep, hstage, hloads⟩ := h.stage.load hbare (by omega) (by omega) _ (bareFile 1)
    placeLoad_placeD htail (by decide) h.slot (by simp)
  have htask : ∀ p ∈ [placeC.live 1, placeB.live 1],
      (k'.procs p.process).task = (k.procs p.process).task := fun p hp =>
    congrArg Process.task (hloads.others p hp)
  have htaskB := (htask (placeB.live 1) (by simp)).trans h.taskB
  have htaskC := (htask (placeC.live 1) (by simp)).trans h.taskC
  have hlinks : k'.sched.tasks (blockAddr placeB.task) = k.sched.tasks (blockAddr placeB.task) := by
    obtain ⟨chunk, ip, hsched⟩ := hloads.sched
    rw [hsched, taskListAppend_other (by decide), assign_tasks, if_neg (by decide)]
    show blockAddr placeB.task ≠ k.sched.task_tail
    rw [h.tail]
    decide
  refine ⟨k', _, hstep, htail.linkLive h.stage.inv _ _ _, ⟨hstage.inv, ?_, ?_, hloads.none⟩⟩
  · rw [htaskB, hlinks]
    exact h.prev
  · rw [htaskB, htaskC, hlinks]
    exact h.next

/-- The run up to there. -/
def staleOps : List TableOp :=
  [loadBare 0x41#8 8, loadBare 0x42#8 1, loadBare 0x42#8 1, .terminate (blockAddr 0),
    loadBare 0x42#8 1]

/-- **Every call of it** finds a live task to store to, and still the link is stale at the end. -/
theorem stale_boot : ∃ k lost, AlongPartial tableStep TableAllowed bootKernel staleOps ∧
    AlongPartial tableStep LinkLive bootKernel staleOps ∧
    runPartial tableStep bootKernel staleOps = some k ∧
    Stale k (placeB.live 1) (placeC.live 1) (placeD.live 1) lost := by
  obtain ⟨k₁, hstep₁, hlink₁, h₁⟩ :=
    onlyLoaded_bootKernel.next (by decide) 0x41#8 (by omega) (by omega) placeLoad_placeA
  obtain ⟨k₂, hstep₂, hlink₂, h₂⟩ := h₁.next (by decide) 0x42#8 (by omega) (by omega) placeLoad_placeB
  obtain ⟨k₃, hstep₃, hlink₃, h₃⟩ := h₂.next (by decide) 0x42#8 (by omega) (by omega) placeLoad_placeC
  obtain ⟨k₄, hstep₄, hlisted, hlink₄, h₄⟩ := h₃.terminateFirst
  obtain ⟨k₅, lost, hstep₅, hlink₅, h₅⟩ := h₄.loadLast
  refine ⟨k₅, lost, ?_, ?_, ?_, h₅⟩
  · exact .cons trivial hstep₁ (.cons trivial hstep₂ (.cons trivial hstep₃
      (.cons hlisted hstep₄ (.cons trivial hstep₅ trivial))))
  · exact .cons hlink₁ hstep₁ (.cons hlink₂ hstep₂ (.cons hlink₃ hstep₃
      (.cons hlink₄ hstep₄ (.cons hlink₅ hstep₅ trivial))))
  · unfold staleOps
    rw [runPartial_step hstep₁, runPartial_step hstep₂, runPartial_step hstep₃,
      runPartial_step hstep₄, runPartial_step hstep₅]
    rfl

theorem noProcesses_bootKernel : NoProcesses bootKernel [] :=
  ⟨heapOwns_bootKernel, fun _ _ => rfl, rfl⟩

/-- Up to there the table is as it should be. -/
theorem process_table_runs_boot : ∃ k', NoProcesses bootKernel [] ∧
    AlongPartial tableStep TableAllowed bootKernel staleOps ∧
    AlongPartial tableStep LinkLive bootKernel staleOps ∧
    runPartial tableStep bootKernel staleOps = some k' ∧ ProcTableGood k' := by
  obtain ⟨k', -, hallowed, hlinks, hrun, -⟩ := stale_boot
  exact ⟨k', noProcesses_bootKernel, hallowed, hlinks, hrun,
    process_table_runs bootKernel [] noProcesses_bootKernel staleOps k' hallowed hlinks hrun⟩

/-- **Terminating two more** leaves a process in the table whose task is free. -/
theorem process_table_runs_stale : ∃ k', NoProcesses bootKernel [] ∧
    AlongPartial tableStep TableAllowed bootKernel
      (staleOps ++ [.terminate (placeB.live 1).process, .terminate (placeD.live 1).process]) ∧
    runPartial tableStep bootKernel
      (staleOps ++ [.terminate (placeB.live 1).process, .terminate (placeD.live 1).process]) =
        some k' ∧ ¬ ProcTableGood k' := by
  obtain ⟨k, lost, hallowed, -, hrun, hstale⟩ := stale_boot
  obtain ⟨k₁, rs, hstep₁, hlisted, hredirected⟩ := hstale.redirected
  obtain ⟨k₂, hstep₂, hbad⟩ := hredirected.ruined
  refine ⟨k₂, noProcesses_bootKernel, ?_, ?_, hbad⟩
  · refine hallowed.append _ hrun ?_
    exact .cons (hstale.inv.to_listed (by simp)) hstep₁ (.cons hlisted hstep₂ trivial)
  · rw [runPartial_append, hrun, Option.bind_some, runPartial_step hstep₁, runPartial_step hstep₂]
    rfl

end MaerOS.Analysis
