import MaerOS.Analysis.FirstFit
import MaerOS.Analysis.ProcessTable

/-!
# Where a load puts things

An ELF file without program headers is loaded without any mapping of its own, so
nothing but the heap decides what `process_load_switch` does with it. From the free
spans before the call `placeLoad` computes where the record, the ELF file, the
image, the stack, the task and the chunk go, and the load does exactly that.
-/

set_option autoImplicit false

namespace MaerOS.Analysis

open MaerOS.Lib MaerOS.Model

/-! ## An ELF file without program headers -/

/-- The header: 32 bits, little endian, an executable for the i386, and no program header at
byte 52. -/
def bareHeader : List (BitVec 8) :=
  [0x7f#8, 0x45#8, 0x4c#8, 0x46#8, 1#8, 1#8, 1#8, 0#8, 0#8, 0#8, 0#8, 0#8, 0#8, 0#8, 0#8, 0#8,
    2#8, 0#8, 3#8, 0#8, 1#8, 0#8, 0#8, 0#8, 0#8, 0#8, 0x40#8, 0#8, 52#8, 0#8, 0#8, 0#8,
    0#8, 0#8, 0#8, 0#8, 0#8, 0#8, 0#8, 0#8, 52#8, 0#8, 32#8, 0#8, 0#8, 0#8, 40#8, 0#8,
    0#8, 0#8, 0#8, 0#8]

/-- A file of the given number of pages: the header, and zeros behind it. -/
def bareElf (pages : ℕ) : FilePass :=
  ⟨1, 0, BitVec.ofNat 32 (4096 * pages), 1, bareHeader ++ List.replicate (4096 * pages - 52) 0#8⟩

/-- The header lies at `p`. -/
def HeaderAt (m : Memory) (p : Addr) : Prop :=
  ∀ i < 52, m (p + BitVec.ofNat 32 i) = bareHeader.getD i 0#8

section BareElf

variable {m m' : Memory} {p : Addr} {pages : ℕ}

theorem bareElf_filesize (hpages : pages ≤ 25600) :
    (bareElf pages).filesize.toNat = 4096 * pages := by
  unfold bareElf
  rw [BitVec.toNat_ofNat]
  omega

theorem blocksFor_bareElf (hpages : pages ≤ 25600) :
    blocksFor (bareElf pages).filesize = pages := by
  unfold blocksFor
  rw [bareElf_filesize hpages]
  omega

theorem HeaderAt.congr (h : HeaderAt m p) (hp : PageAligned p) (hagree : AgreeOnPage m m' (pageOf p)) :
    HeaderAt m' p := by
  intro i hi
  rw [← h i hi]
  refine hagree _ ?_
  unfold PageAligned at hp
  unfold pageOf
  rw [BitVec.toNat_add, BitVec.toNat_ofNat]
  have := p.isLt
  omega

/-- After the file was read, the header is there. -/
theorem headerAt_read (hpages : 1 ≤ pages) (hmax : pages ≤ 25600) :
    HeaderAt (storeBytes m p ((bareElf pages).bytes.take (bareElf pages).filesize.toNat)) p := by
  intro i hi
  have hlen : i < bareHeader.length := hi
  have hget : ((bareElf pages).bytes.take (4096 * pages))[i]? = bareHeader[i]? := by
    rw [List.getElem?_take_of_lt (by omega)]
    exact List.getElem?_append_left hlen
  unfold storeBytes
  rw [add_ofNat_sub p (by omega), bareElf_filesize hmax, List.getD_eq_getElem?_getD, hget,
    List.getElem?_eq_getElem hlen, List.getD_eq_getElem _ _ hlen]
  rfl

/-- The file is read in one go. -/
theorem bareElf_read {k : Kernel} (hpages : 1 ≤ pages) (hmax : pages ≤ 25600) (hp : p ≠ 0#32) :
    (bareElf pages).read p (bareElf pages).filesize k = some (1, { k with
      mem := storeBytes k.mem p ((bareElf pages).bytes.take (bareElf pages).filesize.toNat) }) := by
  have hsize := bareElf_filesize hmax
  have hne : (bareElf pages).filesize ≠ 0#32 := by
    intro h0
    rw [h0, BitVec.toNat_ofNat] at hsize
    omega
  have hbytes : ¬ ((bareElf pages).bytes.take (bareElf pages).filesize.toNat).isEmpty := by
    rw [hsize, List.isEmpty_iff_length_eq_zero, List.length_take]
    unfold bareElf
    rw [List.length_append, show bareHeader.length = 52 from rfl]
    omega
  unfold FilePass.read
  rw [if_neg hne, if_neg hbytes, bind_of_some (deref_of_ne hp k)]
  rfl

/-- The loader accepts the header. -/
theorem HeaderAt.valid (h : HeaderAt m p) : elfValidateLoaded m p = maerosAllOk := by
  have hphoff : elfPhoff m p = 52#32 := by
    unfold elfPhoff load32
    simp only [BitVec.add_assoc]
    rw [show 28#32 + 3#32 = BitVec.ofNat 32 31 from rfl, show 28#32 + 2#32 = BitVec.ofNat 32 30 from rfl,
      show 28#32 + 1#32 = BitVec.ofNat 32 29 from rfl, h 31 (by omega), h 30 (by omega),
      h 29 (by omega), h 28 (by omega)]
    rfl
  have h0 := h 0 (by omega)
  rw [BitVec.add_zero] at h0
  unfold elfValidateLoaded elfValidSignature elfValidClass elfValidEncoding elfHasProgramHeader
  rw [hphoff, h0, h 1 (by omega), h 2 (by omega), h 3 (by omega), h 4 (by omega), h 5 (by omega)]
  rfl

/-- It has no program headers. -/
theorem HeaderAt.phnum (h : HeaderAt m p) : elfPhnum m p = 0 := by
  unfold elfPhnum load16
  rw [BitVec.add_assoc, show 44#32 + 1#32 = BitVec.ofNat 32 45 from rfl, h 45 (by omega),
    h 44 (by omega)]
  rfl

/-- **`elf_process_loaded`** finds nothing to do. -/
theorem elfProcessLoaded_bare {k : Kernel} {elf_file : Addr}
    (hne : (k.elfs elf_file).elf_memory ≠ 0#32)
    (h : HeaderAt k.mem (k.elfs elf_file).elf_memory) : elfProcessLoaded elf_file k = some (0, k) := by
  have hheaders : elfProcessPheaders k.mem (k.elfs elf_file) = (0, k.elfs elf_file) := by
    unfold elfProcessPheaders
    rw [h.phnum]
    rfl
  unfold elfProcessLoaded
  rw [bind_get, bind_of_some (deref_of_ne hne k), h.valid, if_neg (by decide), hheaders]
  dsimp only
  rw [bind_onElf, Function.update_eq_self]
  rfl

end BareElf

/-! ## The program -/

section Program

variable {k : Kernel} {rs : List (Addr × ℕ)} {spans spans' : List (ℕ × ℕ)} {pages image : ℕ}

/-- **`elf_load` between `fopen` and `fclose`**, with room for the image. -/
theorem HeapAt.elfRead (h : HeapAt k.heap rs spans) (hpages : 1 ≤ pages) (hmax : pages ≤ 25600)
    (htake : takeSpan pages spans = some (image, spans')) {elf_file : Addr} (hfile : elf_file ≠ 0#32) :
    ∃ k', Model.elfRead (bareElf pages) elf_file k = some ((0, elf_file), k') ∧
      HeapAt k'.heap ((blockAddr image, pages) :: rs) spans' ∧
      (k'.elfs elf_file).elf_memory = blockAddr image ∧ HeaderAt k'.mem (blockAddr image) := by
  have hpos : 1 ≤ (bareElf pages).filesize.toNat := by
    rw [bareElf_filesize hmax]
    omega
  obtain ⟨-, himage, k₁, hz, hat, -⟩ :=
    h.kzalloc (bareElf pages).filesize hpos (blocksFor_bareElf hmax) htake
  obtain ⟨k₂, hk₂⟩ : ∃ k₂, k₂ = { k₁ with
      elfs := Function.update k₁.elfs elf_file
        ((fun file : ElfFile => { file with elf_memory := blockAddr image }) (k₁.elfs elf_file))
      mem := storeBytes k₁.mem (blockAddr image)
        ((bareElf pages).bytes.take (bareElf pages).filesize.toNat) } := ⟨_, rfl⟩
  have hmem : (k₂.elfs elf_file).elf_memory = blockAddr image := by
    rw [hk₂]
    dsimp only
    rw [Function.update_self]
  have hheader : HeaderAt k₂.mem (blockAddr image) := by
    rw [hk₂]
    exact headerAt_read hpages hmax
  have hloaded := elfProcessLoaded_bare (hmem ▸ himage) (hmem ▸ hheader)
  refine ⟨k₂, ?_, by rw [hk₂]; exact hat, hmem, hheader⟩
  unfold Model.elfRead
  rw [if_neg (show (bareElf pages).fopen ≠ 0 from Nat.one_ne_zero),
    if_neg (show ¬ (bareElf pages).fstat < 0 from lt_irrefl 0), bind_of_some hz,
    bind_of_some (deref_of_ne hfile k₁), bind_onElf, bind_of_some (bareElf_read hpages hmax himage),
    if_neg (by decide), ← hk₂, bind_of_some hloaded, if_neg (by decide)]
  rfl

/-- **`elf_load`**, with room for the record, the traffic of the file layer and the image. -/
theorem HeapAt.elfLoad (h : HeapAt k.heap rs spans) {file : Table.FileUse}
    (hfile : file.toFilePass = bareElf pages) (hpages : 1 ≤ pages) (hmax : pages ≤ 25600)
    {elf : ℕ} {s₁ s₂ s₃ s₄ held lost : List (ℕ × ℕ)} (helf : takeSpan 1 spans = some (elf, s₁))
    (hopen : spanActs ([], s₁) file.opening = some (held, s₂))
    (himage : takeSpan pages s₂ = some (image, s₃))
    (hclose : spanActs (held, s₃) file.closing = some (lost, s₄)) :
    ∃ k', Table.elfLoad file k = some ((0, blockAddr elf), k') ∧
      HeapAt k'.heap
        (lost.map spanRun ++ (blockAddr image, pages) :: (blockAddr elf, 1) :: rs) s₄ ∧
      (k'.elfs (blockAddr elf)).elf_memory = blockAddr image ∧ HeaderAt k'.mem (blockAddr image) := by
  obtain ⟨-, hne, k₁, hz, hat₁, -⟩ := h.kzalloc (n := 1) sizeofElfFile (by decide) rfl helf
  obtain ⟨k₂, hrun, hstate₂⟩ := SpanState.acts file.opening (k := { k₁ with
    elfs := Function.update k₁.elfs (blockAddr elf) ElfFile.zero }) (s := ([], s₁))
    ⟨hat₁.owns, hat₁.free, by simp⟩ hopen
  obtain ⟨k₃, hread, hat₃, hmem₃, hheader₃⟩ :=
    HeapAt.elfRead ⟨hstate₂.owns, hstate₂.free⟩ hpages hmax himage hne
  have hown₃ : HeapOwns k₃.heap
      (held.map spanRun ++ (blockAddr image, pages) :: (blockAddr elf, 1) :: rs) :=
    hat₃.owns.perm List.perm_middle.symm
  obtain ⟨k₄, hrun', hstate₄⟩ := SpanState.acts file.closing (s := (held, s₃))
    ⟨hown₃, hat₃.free, hstate₂.inside⟩ hclose
  have htraffic := @heapActs_owns 0#32 _ _ _ _ _ hrun' (held.map spanRun) _
    (by simp [spanRun, Function.comp_def]) hown₃
  have hrs : (blockAddr image, pages) ∈ (blockAddr image, pages) :: (blockAddr elf, 1) :: rs :=
    List.mem_cons_self
  refine ⟨k₄, ?_, ⟨hstate₄.owns, hstate₄.free⟩, by rw [htraffic.elfs]; exact hmem₃,
    hheader₃.congr (hown₃.aligned _ (List.mem_append_right _ hrs))
      (htraffic.spares.mem _ hrs _ ⟨le_rfl, by dsimp only; omega⟩)⟩
  unfold Table.elfLoad
  rw [bind_of_some hz, bind_onElf, hfile]
  refine prog_bind.mpr ⟨_, k₂, hrun, ?_⟩
  refine prog_bind.mpr ⟨_, k₃, hread, ?_⟩
  exact prog_bind.mpr ⟨_, k₄, hrun', rfl⟩

/-- **`process_load_data`** of such a file. -/
theorem HeapAt.processLoadData (h : HeapAt k.heap rs spans) {file : Table.FileUse}
    (hfile : file.toFilePass = bareElf pages) (hpages : 1 ≤ pages) (hmax : pages ≤ 25600)
    (binary : Table.FileUse) {process : Addr} (hzero : k.procs process = Process.zero)
    {elf : ℕ} {s₁ s₂ s₃ s₄ held lost : List (ℕ × ℕ)} (helf : takeSpan 1 spans = some (elf, s₁))
    (hopen : spanActs ([], s₁) file.opening = some (held, s₂))
    (himage : takeSpan pages s₂ = some (image, s₃))
    (hclose : spanActs (held, s₃) file.closing = some (lost, s₄)) :
    ∃ k', Table.processLoadData file binary process k = some (0, k') ∧
      HeapAt k'.heap
        (lost.map spanRun ++ (blockAddr image, pages) :: (blockAddr elf, 1) :: rs) s₄ ∧
      k'.procs process =
        { Process.zero with filetype := processFiletypeElf, ptr := blockAddr elf } ∧
      (k'.elfs (blockAddr elf)).elf_memory = blockAddr image ∧
      HeaderAt k'.mem (blockAddr image) ∧ Spares process k k' rs := by
  obtain ⟨k₁, hload, hat, hmem, hheader⟩ := h.elfLoad hfile hpages hmax helf hopen himage hclose
  obtain ⟨-, -, -, hprocs, hspares, -⟩ := elfLoad_spares hload h.owns process
  obtain ⟨k₂, hk₂⟩ : ∃ k₂, k₂ = { k₁ with
    procs := Function.update k₁.procs process
      ((fun p : Process => { p with filetype := processFiletypeElf, ptr := blockAddr elf })
        (k₁.procs process)) } := ⟨_, rfl⟩
  have hcode : Table.processLoadElf file process k = some (0, k₂) := by
    unfold Table.processLoadElf processLoadElfBy
    rw [bind_of_some hload]
    dsimp only
    rw [if_neg (by decide), bind_onProcess, ← hk₂]
    rfl
  refine ⟨k₂, ?_, by rw [hk₂]; exact hat, ?_, by rw [hk₂]; exact hmem, by rw [hk₂]; exact hheader,
    by rw [hk₂]; exact hspares.trans (spares_onProcess _)⟩
  · unfold Table.processLoadData processLoadDataBy
    rw [bind_of_some hcode, if_neg (by decide)]
    rfl
  · rw [hk₂]
    dsimp only
    rw [Function.update_self, hprocs, hzero]

end Program

/-! ## The task -/

section Place

variable {k : Kernel} {rs : List (Addr × ℕ)} {spans spans' rest : List (ℕ × ℕ)} {process : Addr}

/-- The process has an ELF file with an image. -/
structure HasElf (k : Kernel) (process : Addr) : Prop where
  filetype : (k.procs process).filetype = processFiletypeElf
  file : (k.procs process).ptr ≠ 0#32
  image : (k.elfs (k.procs process).ptr).elf_memory ≠ 0#32

theorem HasElf.entry (h : HasElf k process) :
    ∃ ip, elfHeaderEntry (k.procs process).ptr k = some (ip, k) := by
  unfold elfHeaderEntry
  rw [bind_of_some (deref_of_ne h.file k), bind_get, bind_of_some (deref_of_ne h.image k)]
  exact ⟨_, rfl⟩

/-- A task is linked, whatever the list is. -/
theorem tableTaskLink_outcome (htail : k.sched.task_head ≠ 0#32 → k.sched.task_tail ≠ 0#32)
    (task : Addr) : ∃ k', Table.taskLink task k = some ((), k') := by
  unfold Table.taskLink
  rw [bind_get]
  by_cases hempty : k.sched.task_head = 0#32
  · rw [if_neg (not_not.mpr hempty)]
    exact ⟨_, rfl⟩
  · rw [if_pos hempty]
    refine ⟨_, prog_bind.mpr ⟨(), { k with
      mem := store32 k.mem (Table.nextField k.sched.task_tail) task }, ?_, rfl⟩⟩
    rw [bind_of_some (deref_of_ne (htail hempty) k)]
    rfl

/-- **`task_new`** succeeds if there is room for the task, and behind it for the chunk. -/
theorem HeapAt.taskNew (h : HeapAt k.heap rs spans) {t a m : ℕ}
    (htake : takeSpan 1 spans = some (t, (a, m) :: rest)) (hm : 1026 < m) (hproc : process ≠ 0#32)
    (helf : HasElf k process) (htail : k.sched.task_head ≠ 0#32 → k.sched.task_tail ≠ 0#32) :
    ∃ k', Table.taskNew process k = some (blockAddr t, k') := by
  obtain ⟨-, htask, k₁, hz, hat, honly₁⟩ := h.kzalloc (n := 1) sizeofTask (by decide) rfl htake
  have hcard := hat.free.card_le
  obtain ⟨chunk, k₂, hnew⟩ := pagingNew4gb_succeeds
    (k := { k₁ with sched := k₁.sched.assign (blockAddr t) fun _ => Task.zero }) hat.owns
    (show 1026 ≤ (freeBlocks k₁.heap).card by omega) taskChunkFlags
  obtain ⟨-, -, -, -, honly₂, hchunk, -⟩ := pagingNew4gb_owns hnew hat.owns
  have hprocs : k₂.procs = k.procs := honly₂.procs.trans honly₁.procs
  have helfs : k₂.elfs = k.elfs := honly₂.elfs.trans honly₁.elfs
  have hhead : k₂.sched.task_head = k.sched.task_head := by
    rw [honly₂.sched, ← honly₁.sched]
    rfl
  have hlast : k₂.sched.task_tail = k.sched.task_tail := by
    rw [honly₂.sched, ← honly₁.sched]
    rfl
  have helf₂ : ∀ s, HasElf { k₂ with sched := s } process := by
    intro s
    refine ⟨?_, ?_, ?_⟩
    all_goals dsimp only; rw [hprocs]
    · exact helf.filetype
    · exact helf.file
    · rw [helfs]
      exact helf.image
  obtain ⟨sched, hinit, hhead₃, htail₃⟩ : ∃ sched, taskInit (blockAddr t) process k₁ =
      some (0, { k₂ with sched := sched }) ∧ sched.task_head = k.sched.task_head ∧
      sched.task_tail = k.sched.task_tail := by
    obtain ⟨ip, hip⟩ := (helf₂ (k₂.sched.assign (blockAddr t) fun t =>
      { t with page_directory := chunk })).entry
    apply Exists.intro
    refine ⟨?_, ?_, ?_⟩
    · unfold taskInit
      refine prog_bind.mpr ⟨_, _, rfl, ?_⟩
      refine prog_bind.mpr ⟨_, k₂, hnew, ?_⟩
      refine prog_bind.mpr ⟨_, _, rfl, ?_⟩
      rw [if_neg hchunk, bind_of_some (deref_of_ne hproc _), bind_get,
        if_pos (helf₂ _).filetype]
      refine prog_bind.mpr ⟨ip, _, hip, ?_⟩
      exact prog_bind.mpr ⟨_, _, rfl, rfl⟩
    · exact hhead
    · exact hlast
  have hne : sched.task_head ≠ 0#32 → sched.task_tail ≠ 0#32 := by
    rw [hhead₃, htail₃]
    exact htail
  obtain ⟨k₃, hlink⟩ := tableTaskLink_outcome (k := { k₂ with sched := sched }) hne (blockAddr t)
  unfold Table.taskNew taskNewBy
  rw [bind_of_some hz, if_neg htask, bind_of_some hinit, if_pos rfl, bind_of_some hlink,
    if_neg (by decide)]
  exact ⟨k₃, rfl⟩

/-- **`process_map_memory`** of a process whose ELF file has no program headers. -/
theorem processMapMemory_bare {f : ProcFoot} (hon : OnChunk k f)
    (ho : HeapOwns k.heap (chunkRuns f.chunk f.shape ++ rs)) (helf : HasElf k f.process)
    (htask : (k.procs f.process).task ≠ 0#32) {n : ℕ}
    (himage : ((k.elfs (k.procs f.process).ptr).elf_memory, n) ∈ rs)
    (hheader : HeaderAt k.mem (k.elfs (k.procs f.process).ptr).elf_memory) :
    ∃ k', processMapMemory f.process k = some (0, k') := by
  obtain ⟨_, mem₁, h₁⟩ := processMapTo_outcome htask maerosProgramVirtualAddress
    (k.procs f.process).ptr
    (pagingAlignAddress ((k.procs f.process).ptr + (k.procs f.process).size)) processImageFlags
  have hbinary : processMapBinary f.process k = some (0, { k with mem := mem₁ }) := by
    unfold processMapBinary
    rw [bind_get, bind_of_some h₁]
    rfl
  -- the first mapping leaves the image alone
  obtain ⟨mem, heq, -, hagree⟩ := processMapBinary_mapsApart hbinary hon ho
  have hmem : mem₁ = mem := by rw [show mem₁ = ({ k with mem := mem₁ } : Kernel).mem from rfl, heq]
  subst hmem
  have hsize := (ho.inside (List.mem_append_right _ himage)).1
  have hheader₁ := hheader.congr (ho.aligned _ (List.mem_append_right _ himage))
    (hagree _ himage _ ⟨le_rfl, by dsimp only at hsize ⊢; omega⟩)
  have hfile : processMapElf f.process { k with mem := mem₁ } =
      some (0, { k with mem := mem₁ }) := by
    unfold processMapElf
    rw [bind_get]
    dsimp only
    rw [bind_of_some (deref_of_ne helf.file _), bind_of_some (deref_of_ne helf.image _),
      hheader₁.phnum]
    rfl
  obtain ⟨_, mem₂, h₂⟩ := processMapTo_outcome (k := { k with mem := mem₁ }) htask
    maerosProgramVirtualStackAddressEnd (k.procs f.process).stack
    (pagingAlignAddress ((k.procs f.process).stack + maerosUserProgramStackSize)) processImageFlags
  refine ⟨{ k with mem := mem₂ }, ?_⟩
  unfold processMapMemory
  rw [bind_of_some hbinary, bind_get]
  dsimp only
  rw [if_pos helf.filetype, bind_of_some hfile, if_neg (by decide), bind_get, bind_of_some h₂]
  rfl

/-- A chunk lies where another description of its parts says as well. -/
theorem ChunkAt.of_shape {m : Memory} {chunk : Addr} {shape shape' : ChunkShape}
    {pm : ℕ → BitVec 32} (h : ChunkAt m chunk shape pm) (hdir : shape'.dir = shape.dir)
    (htables : ∀ i < 1024, shape'.tables i = shape.tables i) : ChunkAt m chunk shape' pm := by
  refine ⟨h.chunk_aligned, hdir ▸ h.dir_aligned, fun i hi => htables i hi ▸ h.tables_aligned i hi,
    hdir ▸ h.chunk_ne_dir, fun i hi => htables i hi ▸ h.tables_ne_chunk i hi, fun i hi => ?_,
    fun i hi j hj heq => ?_, hdir ▸ h.chunk_word, fun i hi => ?_, fun q hq => ?_⟩
  · rw [hdir, htables i hi]
    exact h.tables_ne_dir i hi
  · rw [htables i hi, htables j hj] at heq
    exact h.tables_inj i hi j hj heq
  · rw [hdir, htables i hi]
    exact h.dir_word i hi
  · rw [htables _ (by omega)]
    exact h.entry q hq

/-- The runs of a chunk depend on its directory and tables alone. -/
theorem chunkRuns_congr {shape shape' : ChunkShape} (chunk : Addr) (hdir : shape'.dir = shape.dir)
    (htables : ∀ i < 1024, shape'.tables i = shape.tables i) :
    chunkRuns chunk shape' = chunkRuns chunk shape := by
  have hmap : (List.range 1024).map (fun i => (shape'.tables i, 1)) =
      (List.range 1024).map fun i => (shape.tables i, 1) :=
    List.map_congr_left fun i hi => by rw [htables i (List.mem_range.mp hi)]
  unfold chunkRuns
  rw [hdir, hmap]

/-- The tail of the list, if there is a list, is one of the allocations. -/
def TailIn (s : TaskList) (rs : List (Addr × ℕ)) : Prop :=
  s.task_head ≠ 0#32 → (s.task_tail, 1) ∈ rs

theorem TailIn.spot {s : TaskList} (h : TailIn s rs) :
    appendSpot s = 0#32 ∨ (appendSpot s, 1) ∈ rs := by
  unfold appendSpot
  by_cases hhead : s.task_head = 0#32
  · exact .inl (if_pos hhead)
  · rw [if_neg hhead]
    exact .inr (h hhead)

/-- **`process_load_for_slot` from the task on**, with room for the task and behind it for the
chunk. -/
theorem HeapAt.loadTask (h : HeapAt k.heap rs spans) {t a m : ℕ}
    (htake : takeSpan 1 spans = some (t, (a, m) :: rest)) (hm : 1026 < m) (hproc : process ≠ 0#32)
    (helf : HasElf k process) (htail : TailIn k.sched rs) {n : ℕ}
    (himage : ((k.elfs (k.procs process).ptr).elf_memory, n) ∈ rs)
    (hspot : (k.elfs (k.procs process).ptr).elf_memory ≠ appendSpot k.sched)
    (hheader : HeaderAt k.mem (k.elfs (k.procs process).ptr).elf_memory) {slot : ℕ}
    (hslot : slot < maerosMaxProcesses) {rs' : List (Addr × ℕ)} (hsub : ∀ r ∈ rs', r ∈ rs)
    (hnot : ∀ r ∈ rs', r.1 ≠ process) :
    ∃ k' ip, Table.processLoadTask process slot k = some ((0, process), k') ∧
      HeapAt k'.heap (chunkRuns (blockAddr (a + 1025)) (rowShape a) ++ (blockAddr t, 1) :: rs)
        ((a + 1026, m - 1026) :: rest) ∧
      OnChunk k' ⟨process, blockAddr (a + 1025), rowShape a⟩ ∧ k'.elfs = k.elfs ∧
      k'.procs process = { k.procs process with task := blockAddr t } ∧
      k'.processes = Function.update k.processes slot process ∧
      k'.current_process = k.current_process ∧ Keeps (appendSpot k.sched) k k' rs' ∧
      k'.sched = taskListAppend (k.sched.assign (blockAddr t)
        fun _ => newTask (blockAddr (a + 1025)) process ip) (blockAddr t) := by
  obtain ⟨k₁, hnew⟩ := h.taskNew htake hm hproc helf fun hhead => h.owns.ne_zero (htail hhead)
  obtain ⟨chunk, shape, ip, hown, hat, hkeeps, honly, -, hsched⟩ :=
    tableTaskNew_owns hnew h.owns htail.spot
  have htask : blockAddr t ≠ 0#32 := hown.ne_zero (List.mem_append_right _ List.mem_cons_self)
  have hsize := (h.owns.inside himage).1
  have hheader₁ := hheader.congr (h.owns.aligned _ himage)
    (hkeeps.mem _ himage hspot _ ⟨le_rfl, by dsimp only at hsize ⊢; omega⟩)
  obtain ⟨k₂, hk₂⟩ : ∃ k₂, k₂ = { k₁ with
    procs := Function.update k₁.procs process
      ((fun p : Process => { p with task := blockAddr t }) (k₁.procs process)) } := ⟨_, rfl⟩
  have hrec : k₂.procs process = { k.procs process with task := blockAddr t } := by
    rw [hk₂]
    dsimp only
    rw [Function.update_self, honly.procs]
  have helfs : k₂.elfs = k.elfs := by
    rw [hk₂]
    exact honly.elfs
  have hon : OnChunk k₂ ⟨process, chunk, shape⟩ := by
    rw [hk₂]
    exact OnChunk.setTask process (by rw [hsched, page_directory_newTask]) hat
  obtain ⟨k₃, hmap⟩ := @processMapMemory_bare k₂ _ ⟨process, chunk, shape⟩ hon
    (by rw [hk₂]; exact hown)
    ⟨by rw [hrec]; exact helf.filetype, by rw [hrec]; exact helf.file,
      by rw [hrec, helfs]; exact helf.image⟩
    (by rw [hrec]; exact htask) n
    (by rw [hrec, helfs]; exact List.mem_cons_of_mem _ himage)
    (by rw [hrec, helfs, hk₂]; exact hheader₁)
  have hcode : Table.processLoadTask process slot k = some ((0, process), { k₃ with
      processes := Function.update k₃.processes slot process }) := by
    unfold Table.processLoadTask processLoadTaskBy
    rw [bind_of_some hnew, if_neg htask, bind_onProcess, ← hk₂, bind_of_some hmap,
      if_neg (by decide), if_neg (by unfold maerosMaxProcesses at hslot ⊢; omega)]
    rfl
  obtain ⟨hkeep, hcurrent, hcase⟩ := tableLoadTask_owns hcode h.owns htail.spot hsub hnot
  obtain ⟨-, -, -, -, ⟨p₂, chunk₂, shape₂⟩, task₂, ip₂, hf, hown₂, hon₂, helfs₂, hrec₂, hprocesses,
    htaken, hsched₂⟩ := hcase.resolve_left fun h => absurd h.1 (by decide)
  obtain rfl : p₂ = process := hf
  dsimp only at hown₂ hsched₂
  -- the place of the chunk follows from the free spans
  obtain ⟨h₁, hz, hchunk⟩ := htaken
  have hplace : takeSpan (blocksFor sizeofTask) spans = some (t, (a, m) :: rest) := htake
  obtain ⟨rfl, hfree₁⟩ := h.free.eq_of_kzalloc (by decide) hplace hz
  obtain ⟨hc, hd, ht, hfree⟩ := hfree₁.chunkTaken hm hchunk
  obtain rfl : chunk₂ = blockAddr (a + 1025) := hc
  have hdir : (rowShape a).dir = shape₂.dir := hd.symm
  have htables : ∀ i < 1024, (rowShape a).tables i = shape₂.tables i := fun i hi => (ht i hi).symm
  refine ⟨_, ip₂, hcode, ⟨?_, hfree⟩, ⟨hon₂.dir, ?_⟩, helfs₂, hrec₂, hprocesses, hcurrent, hkeep,
    hsched₂⟩
  · rw [chunkRuns_congr _ hdir htables]
    exact hown₂
  · obtain ⟨pm, hat₂⟩ := hon₂.map
    exact ⟨pm, hat₂.of_shape hdir htables⟩

end Place

/-! ## The whole load -/

/-- The first blocks of the parts of a process: its record, its ELF file and the image, its stack,
its task and its chunk. -/
structure LoadPlace where
  process : ℕ
  elf : ℕ
  image : ℕ
  stack : ℕ
  task : ℕ
  row : ℕ
  deriving DecidableEq

/-- Where a load of a file of `pages` pages puts the parts of the process, which blocks the file
layer keeps, and what is free afterwards. -/
def placeLoad (file : Table.FileUse) (pages : ℕ) (spans : List (ℕ × ℕ)) :
    Option (LoadPlace × List (ℕ × ℕ) × List (ℕ × ℕ)) := do
  let (process, spans) ← takeSpan 3 spans
  let (elf, spans) ← takeSpan 1 spans
  let (held, spans) ← spanActs ([], spans) file.opening
  let (image, spans) ← takeSpan pages spans
  let (held, spans) ← spanActs (held, spans) file.closing
  let (stack, spans) ← takeSpan 4 spans
  let (task, spans) ← takeSpan 1 spans
  match spans with
  | (row, m) :: rest =>
    if 1026 < m then some (⟨process, elf, image, stack, task, row⟩, held, (row + 1026, m - 1026) :: rest)
    else none
  | [] => none

/-- The process that is loaded there. -/
def LoadPlace.live (place : LoadPlace) (pages : ℕ) : LiveProc :=
  ⟨⟨blockAddr place.process, blockAddr (place.row + 1025), rowShape place.row⟩,
    [(blockAddr place.image, pages), (blockAddr place.elf, 1)]⟩

/-- The process was loaded there, under the number `slot`, and everything in the blocks `rs` was
kept. -/
structure LoadedAt (k k' : Kernel) (place : LoadPlace) (pages slot : ℕ)
    (lost rs : List (Addr × ℕ)) (spans : List (ℕ × ℕ)) : Prop where
  heap : HeapAt k'.heap ((place.live pages).runs k' ++ (lost ++ rs)) spans
  up : (place.live pages).Up k'
  task : (k'.procs (blockAddr place.process)).task = blockAddr place.task
  stack : (k'.procs (blockAddr place.process)).stack = blockAddr place.stack
  id : (k'.procs (blockAddr place.process)).id = slot
  allocations : (k'.procs (blockAddr place.process)).allocations = Process.zero.allocations
  keeps : Keeps (appendSpot k.sched) k k' rs
  sched : ∃ chunk ip, k'.sched = taskListAppend (k.sched.assign (blockAddr place.task)
    fun _ => newTask chunk (blockAddr place.process) ip) (blockAddr place.task)
  processes : k'.processes = Function.update k.processes slot (blockAddr place.process)
  current_process : k'.current_process = k.current_process

/-- The record as `process_load_for_slot` has filled it in before the task is made. -/
def frontRecord (filename : List (BitVec 8)) (elf stack slot : ℕ) : Process :=
  { Process.zero with
    filetype := processFiletypeElf
    ptr := blockAddr elf
    filename := processFilename filename
    stack := blockAddr stack
    id := slot }

/-- The state before the task is made: the record, the ELF file, the image and the stack lie where
`placeLoad` says. -/
structure LoadFront (k k' : Kernel) (filename : List (BitVec 8)) (process elf image stack : ℕ)
    (pages slot : ℕ) (lost rs : List (Addr × ℕ)) (spans : List (ℕ × ℕ)) : Prop where
  heap : HeapAt k'.heap ((blockAddr stack, 4) :: (lost ++ (blockAddr image, pages) ::
    (blockAddr elf, 1) :: (blockAddr process, 3) :: rs)) spans
  record : k'.procs (blockAddr process) = frontRecord filename elf stack slot
  memory : (k'.elfs (blockAddr elf)).elf_memory = blockAddr image
  header : HeaderAt k'.mem (blockAddr image)
  spares : Spares (blockAddr process) k k' rs

section Load

variable {k : Kernel} {rs : List (Addr × ℕ)} {spans spans' held : List (ℕ × ℕ)}
  {file : Table.FileUse} {pages slot : ℕ}

/-- **`process_load_for_slot` up to the task.** -/
theorem HeapAt.loadFront (h : HeapAt k.heap rs spans) (hfile : file.toFilePass = bareElf pages)
    (hpages : 1 ≤ pages) (hmax : pages ≤ 25600) (filename : List (BitVec 8))
    (binary : Table.FileUse) (hslot : slot < maerosMaxProcesses) (hempty : k.processes slot = 0#32)
    {process elf image stack : ℕ} {s₁ s₂ s₃ s₄ s₅ s₆ held' : List (ℕ × ℕ)}
    (htake₁ : takeSpan 3 spans = some (process, s₁)) (htake₂ : takeSpan 1 s₁ = some (elf, s₂))
    (hopen : spanActs ([], s₂) file.opening = some (held', s₃))
    (htake₃ : takeSpan pages s₃ = some (image, s₄))
    (hclose : spanActs (held', s₄) file.closing = some (held, s₅))
    (htake₄ : takeSpan 4 s₅ = some (stack, s₆)) :
    ∃ k', Table.processLoadForSlot filename file binary slot k =
        Table.processLoadTask (blockAddr process) slot k' ∧
      LoadFront k k' filename process elf image stack pages slot (held.map spanRun) rs s₆ := by
  obtain ⟨-, hprocess, k₁, hz₁, hat₁, -⟩ := h.kzalloc (n := 3) sizeofProcess (by decide) rfl htake₁
  have hspares₁ : Spares (blockAddr process) k k₁ rs := h.owns.spares_kzalloc hz₁
  -- the program
  obtain ⟨k₂, hdata, hat₂, hrec₂, hmem₂, hheader₂, hspares₂⟩ := HeapAt.processLoadData (k := { k₁ with
      procs := Function.update k₁.procs (blockAddr process) Process.zero }) hat₁ hfile hpages hmax
    binary (Function.update_self _ _ _) htake₂ hopen htake₃ hclose
  have hfront₂ : Spares (blockAddr process) k k₂ rs := (hspares₁.trans (spares_onProcess _)).trans
    (hspares₂.subset fun r hr => List.mem_cons_of_mem _ hr)
  -- the stack
  obtain ⟨-, hstack, k₃, hz₃, hat₃, honly₃⟩ :=
    hat₂.kzalloc (n := 4) maerosUserProgramStackSize (by decide) rfl htake₄
  have hfront₃ : Spares (blockAddr process) k k₃ rs := hfront₂.trans
    (hat₂.owns.spares_kzalloc hz₃ |>.subset fun r hr => by simp [hr])
  have himage : (blockAddr image, pages) ∈ held.map spanRun ++ (blockAddr image, pages) ::
      (blockAddr elf, 1) :: (blockAddr process, 3) :: rs :=
    List.mem_append_right _ List.mem_cons_self
  have hheader₃ := hheader₂.congr (hat₂.owns.aligned _ himage)
    (agreeOnRuns_kzalloc hz₃ hat₃.owns _ himage _ ⟨le_rfl, by dsimp only; omega⟩)
  obtain ⟨k₄, hk₄⟩ : ∃ k₄, k₄ = { k₃ with
    procs := Function.update k₃.procs (blockAddr process)
      ((fun p : Process => { p with
        filename := processFilename filename, stack := blockAddr stack, id := (slot : ℤ).toNat })
        (k₃.procs (blockAddr process))) } := ⟨_, rfl⟩
  have hget : processGet k.processes slot = 0#32 := by
    unfold processGet
    rw [if_neg (by unfold maerosMaxProcesses at hslot ⊢; omega), Int.toNat_natCast, hempty]
  refine ⟨k₄, ?_, ⟨by rw [hk₄]; exact hat₃, ?_, ?_, by rw [hk₄]; exact hheader₃, ?_⟩⟩
  · unfold Table.processLoadForSlot processLoadForSlotBy
    rw [bind_get, if_neg (not_not.mpr hget), bind_of_some hz₁, if_neg hprocess]
    unfold processLoadRecord
    rw [bind_onProcess, bind_of_some hdata, if_neg (by decide), bind_of_some hz₃, if_neg hstack,
      bind_onProcess, ← hk₄]
  · rw [hk₄]
    dsimp only
    rw [Function.update_self, honly₃.procs, hrec₂, Int.toNat_natCast]
    rfl
  · rw [hk₄]
    dsimp only
    rw [honly₃.elfs]
    exact hmem₂
  · rw [hk₄]
    exact hfront₃.trans (spares_onProcess _)

/-- **`process_load_for_slot`** does what `placeLoad` says. -/
theorem HeapAt.loadForSlot (h : HeapAt k.heap rs spans) (hfile : file.toFilePass = bareElf pages)
    (hpages : 1 ≤ pages) (hmax : pages ≤ 25600) (filename : List (BitVec 8))
    (binary : Table.FileUse) {place : LoadPlace}
    (hplace : placeLoad file pages spans = some (place, held, spans'))
    (htail : TailIn k.sched rs) (hslot : slot < maerosMaxProcesses)
    (hempty : k.processes slot = 0#32) :
    ∃ k', Table.processLoadForSlot filename file binary slot k =
        some ((0, blockAddr place.process), k') ∧
      LoadedAt k k' place pages slot (held.map spanRun) rs spans' := by
  unfold placeLoad at hplace
  obtain ⟨⟨process, s₁⟩, htake₁, hplace⟩ := Option.bind_eq_some_iff.mp hplace
  obtain ⟨⟨elf, s₂⟩, htake₂, hplace⟩ := Option.bind_eq_some_iff.mp hplace
  obtain ⟨⟨held₁, s₃⟩, hopen, hplace⟩ := Option.bind_eq_some_iff.mp hplace
  obtain ⟨⟨image, s₄⟩, htake₃, hplace⟩ := Option.bind_eq_some_iff.mp hplace
  obtain ⟨⟨held₂, s₅⟩, hclose, hplace⟩ := Option.bind_eq_some_iff.mp hplace
  obtain ⟨⟨stack, s₆⟩, htake₄, hplace⟩ := Option.bind_eq_some_iff.mp hplace
  obtain ⟨⟨task, s₇⟩, htake₅, hplace⟩ := Option.bind_eq_some_iff.mp hplace
  dsimp only at htake₂ hopen htake₃ hclose htake₄ htake₅ hplace
  obtain ⟨row, m, rest, rfl⟩ : ∃ row m rest, s₇ = (row, m) :: rest := by
    cases s₇ with
    | nil => cases hplace
    | cons s s₇ => exact ⟨s.1, s.2, s₇, rfl⟩
  dsimp only at hplace
  by_cases hm : 1026 < m
  swap
  · rw [if_neg hm] at hplace
    cases hplace
  rw [if_pos hm] at hplace
  cases hplace
  dsimp only
  obtain ⟨k₁, hfront, ⟨hat, hrec, hmem, hheader, hspares⟩⟩ := h.loadFront hfile hpages hmax filename
    binary hslot hempty htake₁ htake₂ hopen htake₃ hclose htake₄
  have hsub : ∀ r ∈ rs, r ∈ (blockAddr stack, 4) :: (held.map spanRun ++
      (blockAddr image, pages) :: (blockAddr elf, 1) :: (blockAddr process, 3) :: rs) :=
    fun r hr => by simp [hr]
  have hown : HeapOwns k₁.heap (((blockAddr stack, 4) :: held.map spanRun ++ [(blockAddr image, pages),
      (blockAddr elf, 1), (blockAddr process, 3)]) ++ rs) := by simpa using hat.owns
  have hnot : ∀ r ∈ rs, r.1 ≠ blockAddr process := fun r hr heq =>
    hown.ne_of_append (r := (blockAddr process, 3)) (by simp) hr heq.symm
  have hspot : blockAddr image ≠ appendSpot k₁.sched := by
    rw [hspares.sched]
    exact hown.ne_spot htail.spot (r := (blockAddr image, pages)) (by simp)
  -- the task
  have hptr : (k₁.procs (blockAddr process)).ptr = blockAddr elf := by
    rw [hrec]
    rfl
  have hmem₁ : (k₁.elfs (k₁.procs (blockAddr process)).ptr).elf_memory = blockAddr image := by
    rw [hptr, hmem]
  have helf : HasElf k₁ (blockAddr process) :=
    ⟨by rw [hrec]; rfl, by rw [hptr]; exact hat.owns.ne_zero (r := (blockAddr elf, 1)) (by simp),
      by rw [hmem₁]; exact hat.owns.ne_zero (r := (blockAddr image, pages)) (by simp)⟩
  obtain ⟨k₂, ip, hcode, hat₂, hon, helfs, hrec₂, hprocesses, hcurrent, hkeeps, hsched⟩ :=
    hat.loadTask htake₅ hm (hat.owns.ne_zero (r := (blockAddr process, 3)) (by simp)) helf
      (fun hhead => hsub _ (by rw [hspares.sched] at hhead ⊢; exact htail hhead))
      (n := pages) (by rw [hmem₁]; simp) (by rw [hmem₁]; exact hspot) (by rw [hmem₁]; exact hheader)
      hslot hsub hnot
  rw [hrec] at hrec₂
  refine ⟨k₂, hfront.trans hcode, ⟨⟨?_, hat₂.free⟩, ⟨hon, ?_, ?_, ?_, ?_⟩, by rw [hrec₂],
    by rw [hrec₂]; rfl, by rw [hrec₂]; rfl, by rw [hrec₂]; rfl, ?_,
    ⟨blockAddr (row + 1025), ip, ?_⟩, ?_, ?_⟩⟩
  · have hnone : allocRuns (k₂.procs (blockAddr process)) = [] := by
      rw [hrec₂]
      exact allocRuns_eq_nil fun _ _ => rfl
    unfold LiveProc.runs LiveProc.holds LoadPlace.live
    dsimp only [LiveProc.process]
    rw [hnone, hrec₂]
    refine hat₂.owns.perm ?_
    simp only [frontRecord, List.nil_append, List.cons_append, List.append_assoc]
    refine List.Perm.append_left _ (List.Perm.cons _ (List.Perm.cons _ ?_))
    exact List.perm_append_comm_assoc _ [_, _, _] _
  · have hptr₂ : (k₂.procs (blockAddr process)).ptr = blockAddr elf := by
      rw [hrec₂]
      rfl
    have hloaded := Loaded.elf (k := k₂) pages
      (show (k₂.procs (blockAddr process)).filetype = processFiletypeElf by rw [hrec₂]; rfl)
      (by rw [hptr₂]; exact hat.owns.ne_zero (r := (blockAddr elf, 1)) (by simp))
    rw [hptr₂, helfs, hmem] at hloaded
    exact hloaded
  · show (k₂.sched.tasks (k₂.procs (blockAddr process)).task).process = blockAddr process
    rw [hrec₂, hsched, process_taskListAppend, assign_tasks, if_pos rfl]
    rfl
  · show (k₂.procs (blockAddr process)).id < maerosMaxProcesses
    rw [hrec₂]
    exact hslot
  · show k₂.processes (k₂.procs (blockAddr process)).id = blockAddr process
    rw [hrec₂, hprocesses]
    exact Function.update_self _ _ _
  · exact (hspares.keeps hnot).trans (hspares.sched ▸ hkeeps)
  · rw [hsched, hspares.sched]
  · rw [hprocesses, hspares.processes]
  · rw [hcurrent, hspares.current_process]

end Load

end MaerOS.Analysis
