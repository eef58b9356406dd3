import MaerOS.Analysis.ElfMap
import MaerOS.Analysis.TaskString
import MaerOS.Analysis.ProcessLife

/-!
# What a raw binary sees when it starts

`process_load_for_slot` reads a file that is no ELF file into one allocation, takes
another one for the stack and enters both in the page directory of a new task. The
processor, walking that directory, therefore finds the bytes of the file from the
entry point on and an empty stack below the initial stack pointer; every other
address leads to itself and cannot be written.

`Maps` says that a row of bytes is entered in the tables, `ChunkAt` that the tables
lie in memory, and `BinarySpace` what comes out of both.
-/

set_option autoImplicit false

namespace MaerOS.Analysis

open MaerOS.Lib MaerOS.Model

/-! ## Rows of bytes in the tables -/

/-- The `n` bytes from the virtual address `virt` on are entered as the bytes from `phys` on. -/
def Maps (pm : ℕ → BitVec 32) (virt phys : Addr) (n : ℕ) (flags : BitVec 32) : Prop :=
  ∀ i < n, ∃ page, PageAligned page ∧ pm (pageOf (virt + BitVec.ofNat 32 i)) = page ||| flags ∧
    page + BitVec.ofNat 32 ((virt + BitVec.ofNat 32 i).toNat % 4096) = phys + BitVec.ofNat 32 i

section Rows

variable {pm : ℕ → BitVec 32} {virt phys : Addr} {n count : ℕ} {flags : BitVec 32}

/-- A byte of a row of pages lies on the page that its offset says. -/
theorem pageOf_add_row (hv : PageAligned virt) {i : ℕ} (hi : virt.toNat + i < 2 ^ 32) :
    pageOf (virt + BitVec.ofNat 32 i) = pageOf virt + i / 4096 ∧
      (virt + BitVec.ofNat 32 i).toNat % 4096 = i % 4096 := by
  unfold PageAligned at hv
  unfold pageOf
  rw [BitVec.toNat_add, BitVec.toNat_ofNat]
  omega

/-- The pages of the row are entered one after the other. -/
theorem maps_mapPages (hv : PageAligned virt) (hp : PageAligned phys) (hn : n ≤ 4096 * count)
    (hfit : virt.toNat + n ≤ 2 ^ 32) :
    Maps (mapPages pm (pageOf virt) phys count flags) virt phys n flags := by
  intro i hi
  obtain ⟨hpage, hoff⟩ := pageOf_add_row hv (i := i) (by omega)
  have hlt := pageOf_lt (virt + BitVec.ofNat 32 i)
  have hdist : pageDist (pageOf virt) (pageOf (virt + BitVec.ofNat 32 i)) = i / 4096 := by
    unfold pageDist
    rw [hpage] at hlt ⊢
    omega
  refine ⟨phys + BitVec.ofNat 32 (4096 * (i / 4096)), ?_, ?_, ?_⟩
  · unfold PageAligned at hp ⊢
    rw [BitVec.toNat_add, BitVec.toNat_ofNat]
    omega
  · unfold mapPages
    rw [if_pos ⟨hlt, by rw [hdist]; omega⟩, hdist]
  · rw [hoff, ← add_ofNat_add, Nat.div_add_mod]

/-- Entering other pages leaves the row. -/
theorem Maps.mapPages {vp count' : ℕ} {phys' : Addr} {flags' : BitVec 32}
    (h : Maps pm virt phys n flags)
    (hoff : ∀ i < n, ¬ pageDist vp (pageOf (virt + BitVec.ofNat 32 i)) < count') :
    Maps (Analysis.mapPages pm vp phys' count' flags') virt phys n flags := by
  intro i hi
  obtain ⟨page, hpage, hentry, hphys⟩ := h i hi
  refine ⟨page, hpage, ?_, hphys⟩
  unfold Analysis.mapPages
  rw [if_neg fun hc => hoff i hi hc.2, hentry]

/-- Entering the same pages again changes nothing. -/
theorem mapPages_twice (pm : ℕ → BitVec 32) (vp : ℕ) (phys : Addr) (count : ℕ)
    (flags : BitVec 32) :
    mapPages (mapPages pm vp phys count flags) vp phys count flags =
      mapPages pm vp phys count flags := by
  funext p
  unfold mapPages
  split_ifs <;> rfl

/-- The processor finds the bytes of a row, if the directory allows as much as the flags. -/
theorem Maps.walk {m : Memory} {chunk : Addr} {shape : ChunkShape} (h : Maps pm virt phys n flags)
    (hat : ChunkAt m chunk shape pm)
    (hdir : ∀ i < 1024, Allows flags (load32 m (wordAt shape.dir i))) (hflags : flags.toNat < 4096)
    {i : ℕ} (hi : i < n) :
    mmuWalk m shape.dir flags (virt + BitVec.ofNat 32 i) = some (phys + BitVec.ofNat 32 i) := by
  obtain ⟨page, hpage, hentry, hphys⟩ := h i hi
  have hlt := pageOf_lt (virt + BitVec.ofNat 32 i)
  unfold mmuWalk
  rw [hat.directoryEntry_eq, hat.tableEntry_eq, hentry,
    if_pos ⟨hdir _ (by omega), allows_or (BitVec.and_self)⟩, or_flags_and_mask hpage hflags, hphys]

end Rows

/-! ## Mapping an allocation -/

/-- An allocation is as many pages as it has blocks. -/
theorem allocation_mapTo {virt phys size : Addr} (hv : PageAligned virt) (hp : PageAligned phys)
    (hfits : phys.toNat + 4096 * blocksFor size < 2 ^ 32) :
    MapToValid virt phys (pagingAlignAddress (phys + size)) ∧
      (pagingAlignAddress (phys + size) - phys).toNat / 4096 = blocksFor size := by
  unfold blocksFor at hfits ⊢
  have hsum : (phys + size).toNat = phys.toNat + size.toNat := by
    rw [BitVec.toNat_add]
    omega
  have hround : roundUp (phys.toNat + size.toNat) =
      phys.toNat + 4096 * ((size.toNat + 4095) / 4096) := by
    unfold PageAligned at hp
    unfold roundUp
    omega
  have hend : (pagingAlignAddress (phys + size)).toNat =
      phys.toNat + 4096 * ((size.toNat + 4095) / 4096) := by
    rw [pagingAlignAddress_toNat (by rw [hsum, hround]; exact hfits), hsum, hround]
  refine ⟨⟨hv, hp, pageAligned_pagingAlignAddress _, ?_⟩, ?_⟩
  · rw [BitVec.le_def, hend]
    omega
  · rw [BitVec.toNat_sub, hend]
    omega

section Mapping

variable {f : ProcFoot} {k : Kernel} {pm : ℕ → BitVec 32}

/-- `paging_map_to` of a whole allocation. -/
theorem processMapTo_allocation
    (hdir : (k.sched.tasks (k.procs f.process).task).page_directory = f.chunk)
    (htask : (k.procs f.process).task ≠ 0#32) (hat : ChunkAt k.mem f.chunk f.shape pm)
    {virt phys size : Addr} (hv : PageAligned virt) (hp : PageAligned phys)
    (hfits : phys.toNat + 4096 * blocksFor size < 2 ^ 32) (flags : BitVec 32) :
    ∃ mem, processMapTo f.process virt phys (pagingAlignAddress (phys + size)) flags k =
        some (0, { k with mem := mem }) ∧
      ChunkAt mem f.chunk f.shape (mapPages pm (pageOf virt) phys (blocksFor size) flags) ∧
      AgreeOffTables f.shape k.mem mem := by
  obtain ⟨hval, hcount⟩ := allocation_mapTo hv hp hfits
  have h := processMapTo_onTables hdir htask hat virt phys (pagingAlignAddress (phys + size)) flags
  rw [if_pos hval, if_pos hval, hcount] at h
  exact h

/-- The entries of a raw binary: its image and its stack, and every other page for itself. -/
def binaryMap (image stack size : Addr) : ℕ → BitVec 32 :=
  mapPages (mapPages selfMap (pageOf maerosProgramVirtualAddress) image (blocksFor size)
    processImageFlags) (pageOf maerosProgramVirtualStackAddressEnd) stack 4 processImageFlags

/-- **`process_map_memory`** of a raw binary whose parts are whole pages. -/
theorem processMapMemory_binaryMap {image stack size : Addr}
    (hdir : (k.sched.tasks (k.procs f.process).task).page_directory = f.chunk)
    (htask : (k.procs f.process).task ≠ 0#32) (hat : ChunkAt k.mem f.chunk f.shape selfMap)
    (htype : (k.procs f.process).filetype = processFiletypeBinary)
    (hptr : (k.procs f.process).ptr = image) (hsize : (k.procs f.process).size = size)
    (hstack : (k.procs f.process).stack = stack) (himage : PageAligned image)
    (hfits : image.toNat + 4096 * blocksFor size < 2 ^ 32) (hspage : PageAligned stack)
    (hsfits : stack.toNat + 4096 * 4 < 2 ^ 32) :
    ∃ mem, processMapMemory f.process k = some (0, { k with mem := mem }) ∧
      ChunkAt mem f.chunk f.shape (binaryMap image stack size) ∧
      AgreeOffTables f.shape k.mem mem := by
  have hvirt : PageAligned maerosProgramVirtualAddress := by decide
  obtain ⟨mem₁, h₁, hat₁, hagree₁⟩ := processMapTo_allocation hdir htask hat hvirt himage hfits
    processImageFlags
  obtain ⟨mem₂, h₂, hat₂, hagree₂⟩ := processMapTo_allocation (k := { k with mem := mem₁ }) hdir
    htask hat₁ hvirt himage hfits processImageFlags
  rw [mapPages_twice] at hat₂
  have hbottom : PageAligned maerosProgramVirtualStackAddressEnd := by decide
  obtain ⟨mem₃, h₃, hat₃, hagree₃⟩ := processMapTo_allocation (k := { k with mem := mem₂ }) hdir
    htask hat₂ hbottom hspage
    (show stack.toNat + 4096 * blocksFor maerosUserProgramStackSize < 2 ^ 32 from hsfits)
    processImageFlags
  have hb : ∀ {mem mem' : Memory}, processMapTo f.process maerosProgramVirtualAddress image
      (pagingAlignAddress (image + size)) processImageFlags { k with mem := mem } =
        some (0, { k with mem := mem' }) →
      processMapBinary f.process { k with mem := mem } = some (0, { k with mem := mem' }) := by
    intro mem mem' hmap
    unfold processMapBinary
    rw [bind_get]
    dsimp only
    rw [hptr, hsize, bind_of_some hmap]
    rfl
  refine ⟨mem₃, ?_, hat₃, fun q hq => ((hagree₁ q hq).trans (hagree₂ q hq)).trans (hagree₃ q hq)⟩
  unfold processMapMemory
  rw [bind_of_some (hb h₁), bind_get]
  dsimp only
  rw [htype, if_neg (by decide), if_pos rfl, bind_of_some (hb h₂), if_neg (by decide), bind_get]
  dsimp only
  rw [hstack, bind_of_some h₃]
  rfl

end Mapping

/-! ## The address space -/

/-- An address on no page of the image and on none of the stack. -/
def OutsideProgram (size : BitVec 32) (v : Addr) : Prop :=
  ¬ StackPage (pageOf v) ∧ ¬ (pageOf maerosProgramVirtualAddress ≤ pageOf v ∧
    pageOf v < pageOf maerosProgramVirtualAddress + blocksFor size)

/-- What a raw binary of `size` bytes sees through the directory `cr3`: its bytes from the entry
point on, zeros on the stack, both writable, and everything else as it is, for reading only. -/
structure BinarySpace (m : Memory) (cr3 : Addr) (size : BitVec 32) (bytes : List (BitVec 8)) :
    Prop where
  image : ∀ i < size.toNat, ∃ a,
    mmuWalk m cr3 processImageFlags (maerosProgramVirtualAddress + BitVec.ofNat 32 i) = some a ∧
      m a = bytes.getD i 0#8
  stack : ∀ j < 16384, ∃ a, mmuWalk m cr3 processImageFlags
      (maerosProgramVirtualStackAddressEnd + BitVec.ofNat 32 j) = some a ∧ m a = 0#8
  rest : ∀ v, OutsideProgram size v →
    mmuWalk m cr3 (pagingIsPresent ||| pagingAccessFromAll) v = some v ∧
      mmuWalk m cr3 processImageFlags v = none

section Space

variable {m : Memory} {chunk image stack size : Addr} {shape : ChunkShape}

/-- The words of a page directory allow what the entries of user memory ask for. -/
theorem DirectoryWords.allows (h : DirectoryWords m shape taskChunkFlags) {need : BitVec 32}
    (hneed : Allows need processImageFlags) :
    ∀ i < 1024, Allows need (load32 m (wordAt shape.dir i)) := by
  intro i hi
  rw [h i hi, BitVec.or_assoc]
  exact allows_or (by
    rw [show taskChunkFlags.setWidth 32 ||| pagingIsWriteable = processImageFlags from by decide]
    exact hneed)

/-- The image and the stack of a raw binary are where they should be. -/
theorem maps_binaryMap (himage : PageAligned image) (hsize : 4096 * blocksFor size < 2 ^ 31)
    (hstack : PageAligned stack) :
    Maps (binaryMap image stack size) maerosProgramVirtualAddress image size.toNat
        processImageFlags ∧
      Maps (binaryMap image stack size) maerosProgramVirtualStackAddressEnd stack 16384
        processImageFlags := by
  have hbytes : size.toNat ≤ 4096 * blocksFor size := by
    unfold blocksFor
    omega
  have hvirt : maerosProgramVirtualAddress.toNat = 0x400000 := rfl
  refine ⟨?_, maps_mapPages (by decide) hstack (by omega) (by decide)⟩
  refine (maps_mapPages (by decide) himage hbytes (by omega)).mapPages fun i hi => ?_
  have hstart : PageAligned maerosProgramVirtualAddress := by decide
  obtain ⟨hpage, -⟩ := pageOf_add_row hstart (i := i) (by omega)
  rw [hpage, pageDist_stack (by
    rw [← hpage]
    exact pageOf_lt _)]
  unfold StackPage
  rw [show pageOf maerosProgramVirtualAddress = 1024 from by decide,
    show pageOf maerosProgramVirtualStackAddressEnd = 1019 from by decide]
  omega

/-- A page outside the program has the entry it was made with. -/
theorem binaryMap_rest {v : Addr} (hsize : 4096 * blocksFor size < 2 ^ 31)
    (hv : OutsideProgram size v) : binaryMap image stack size (pageOf v) = selfMap (pageOf v) := by
  have hlt := pageOf_lt v
  have hdist : ¬ pageDist (pageOf maerosProgramVirtualAddress) (pageOf v) < blocksFor size := by
    intro hin
    refine hv.2 ?_
    unfold pageDist at hin
    rw [show pageOf maerosProgramVirtualAddress = 1024 from by decide] at hin ⊢
    omega
  unfold binaryMap mapPages
  rw [if_neg fun h => hv.1 ((pageDist_stack hlt).mp h.2), if_neg fun h => hdist h.2]

/-- **The address space of a raw binary**, from its tables and from the bytes of its parts. -/
theorem binarySpace_of_chunk {bytes : List (BitVec 8)}
    (hat : ChunkAt m chunk shape (binaryMap image stack size))
    (hwords : DirectoryWords m shape taskChunkFlags) (himage : PageAligned image)
    (hsize : 4096 * blocksFor size < 2 ^ 31) (hstack : PageAligned stack)
    (hbytes : ∀ i < size.toNat, m (image + BitVec.ofNat 32 i) = bytes.getD i 0#8)
    (hzero : ∀ j < 16384, m (stack + BitVec.ofNat 32 j) = 0#8) :
    BinarySpace m shape.dir size bytes := by
  obtain ⟨hi, hs⟩ := maps_binaryMap himage hsize hstack
  have hdir := hwords.allows (show Allows processImageFlags processImageFlags by decide)
  refine ⟨fun i hlt => ⟨_, hi.walk hat hdir (by decide) hlt, hbytes i hlt⟩,
    fun j hlt => ⟨_, hs.walk hat hdir (by decide) hlt, hzero j hlt⟩, fun v hv => ?_⟩
  have hlt := pageOf_lt v
  have hentry : tableEntry m shape.dir v =
      BitVec.ofNat 32 (4096 * pageOf v) ||| taskChunkFlags.setWidth 32 := by
    rw [hat.tableEntry_eq, binaryMap_rest hsize hv]
    rfl
  have hpage : PageAligned (BitVec.ofNat 32 (4096 * pageOf v)) := by
    unfold PageAligned
    rw [BitVec.toNat_ofNat]
    omega
  have hread := hwords.allows
    (show Allows (pagingIsPresent ||| pagingAccessFromAll) processImageFlags by decide)
    (pageOf v / 1024) (by omega)
  constructor
  · unfold mmuWalk
    rw [hat.directoryEntry_eq, hentry, if_pos ⟨hread, allows_or (by decide)⟩,
      or_flags_and_mask hpage (by decide)]
    congr 1
    apply BitVec.eq_of_toNat_eq
    unfold pageOf at hlt ⊢
    rw [BitVec.toNat_add, BitVec.toNat_ofNat, BitVec.toNat_ofNat]
    omega
  · unfold mmuWalk
    rw [hentry, if_neg]
    rintro ⟨-, hallows⟩
    -- the writable bit is among the low ones
    have hlow : taskChunkFlags.setWidth 32 &&& processImageFlags = processImageFlags := by
      have hmask : 0xfff#32 &&& processImageFlags = processImageFlags := by decide
      rw [← or_flags_and_low hpage (show (taskChunkFlags.setWidth 32).toNat < 4096 by decide),
        BitVec.and_assoc, hmask]
      exact hallows
    exact absurd hlow (by decide)

end Space

/-! ## Reading the file -/

/-- The process is the raw binary that was read to `image`, and nothing else yet. -/
structure ReadBinary (k : Kernel) (process : Addr) (pass : FilePass) (image : Addr) : Prop where
  record : k.procs process = { Process.zero with
    filetype := processFiletypeBinary, ptr := image, size := pass.filesize }
  bytes : ∀ i < pass.filesize.toNat,
    k.mem (image + BitVec.ofNat 32 i) = (pass.bytes.take pass.filesize.toNat).getD i 0#8

section Reading

variable {elf binary pass : FilePass} {process : Addr} {k k' : Kernel} {res : ℤ}
  {rs : List (Addr × ℕ)}

/-- **`process_load_binary`** that made a raw binary has read the file to an allocation. -/
theorem processLoadBinary_read (h : processLoadBinary pass process k = some (res, k'))
    (hzero : k.procs process = Process.zero) (ho : HeapOwns k.heap rs) (hres : 0 ≤ res)
    (htype : (k'.procs process).filetype = processFiletypeBinary) :
    ∃ image, HeapOwns k'.heap ((image, blocksFor pass.filesize) :: rs) ∧
      ReadBinary k' process pass image := by
  unfold processLoadBinary at h
  by_cases hopen : pass.fopen = 0
  · rw [if_pos hopen] at h
    cases h
  rw [if_neg hopen] at h
  by_cases hstat : pass.fstat ≠ maerosAllOk
  · -- the record is still empty
    rw [if_pos hstat] at h
    split at h
    · cases h
    · obtain ⟨-, rfl⟩ := prog_pure.mp h
      rw [hzero] at htype
      exact absurd htype (by decide)
  rw [if_neg hstat] at h
  obtain ⟨ptr, k₁, hz, h₁⟩ := prog_bind.mp h
  obtain ⟨-, hmem, -, honly⟩ := kzalloc_some hz
  by_cases hptr : ptr = 0#32
  · rw [if_pos hptr] at h₁
    obtain ⟨rfl, -⟩ := prog_pure.mp h₁
    exact absurd hres (by decide)
  rw [if_neg hptr] at h₁ hmem
  obtain ⟨count, k₂, hread, h₂⟩ := prog_bind.mp h₁
  by_cases hcount : count ≠ 1
  · rw [if_pos hcount] at h₂
    obtain ⟨_, k₃, -, h₃⟩ := prog_bind.mp h₂
    obtain ⟨rfl, -⟩ := prog_pure.mp h₃
    exact absurd hres (by decide)
  rw [if_neg hcount] at h₂
  rcases read_some hread with ⟨-, rfl, -⟩ | ⟨hsize, -, -, rfl⟩
  · exact absurd (by decide) hcount
  obtain ⟨_, k₃, hp, h₃⟩ := prog_bind.mp h₂
  cases hp
  obtain ⟨-, rfl⟩ := prog_pure.mp h₃
  rcases ho.kzalloc_any hz with ⟨-, h0 | h0⟩ | ⟨-, -, hown⟩
  · exact absurd h0 hptr
  · exact absurd h0 hsize
  refine ⟨ptr, hown, ⟨?_, fun i hi => ?_⟩⟩
  · dsimp only
    rw [Function.update_self, honly.procs, hzero]
  · have hsub : (ptr + BitVec.ofNat 32 i - ptr).toNat = i := by
      rw [add_ofNat_sub]
      have := pass.filesize.isLt
      omega
    -- what the read did not reach is still zero
    have hfill : k₁.mem (ptr + BitVec.ofNat 32 i) = 0#8 := by
      rw [hmem]
      unfold zeroFill
      rw [hsub, if_pos hi]
    dsimp only
    unfold storeBytes
    rw [hsub, hfill]

/-- **`process_load_data`** that made a raw binary has read the file to an allocation, behind
whatever the attempt to read it as an ELF file left. -/
theorem processLoadData_read (h : processLoadData elf binary process k = some (res, k'))
    (hzero : k.procs process = Process.zero) (ho : HeapOwns k.heap rs) (hres : 0 ≤ res)
    (htype : (k'.procs process).filetype = processFiletypeBinary) :
    ∃ image lost, HeapOwns k'.heap ((image, blocksFor binary.filesize) :: (lost ++ rs)) ∧
      ReadBinary k' process binary image := by
  unfold processLoadData processLoadDataBy at h
  obtain ⟨res₁, k₁, helf, h₁⟩ := prog_bind.mp h
  unfold processLoadElf processLoadElfBy at helf
  obtain ⟨⟨res₂, file⟩, k₂, hload, h₂⟩ := prog_bind.mp helf
  obtain ⟨os, hown, hprocs, -⟩ := elfLoad_owns hload ho
  dsimp only at h₂
  by_cases hneg : res₂ < 0
  · rw [if_pos hneg] at h₂
    obtain ⟨rfl, rfl⟩ := prog_pure.mp h₂
    split at h₁
    · obtain ⟨image, hown', hread⟩ := processLoadBinary_read h₁ (by rw [hprocs, hzero]) hown hres
        htype
      exact ⟨image, os, hown', hread⟩
    · obtain ⟨rfl, -⟩ := prog_pure.mp h₁
      exact absurd hres (not_le.mpr hneg)
  · -- an ELF file
    rw [if_neg hneg] at h₂
    obtain ⟨_, k₃, hp, h₃⟩ := prog_bind.mp h₂
    cases hp
    obtain ⟨rfl, rfl⟩ := prog_pure.mp h₃
    rw [if_neg (by
      intro heq
      rw [heq] at hneg
      exact hneg (by decide))] at h₁
    obtain ⟨-, rfl⟩ := prog_pure.mp h₁
    dsimp only at htype
    rw [Function.update_self] at htype
    exact absurd (show processFiletypeElf = processFiletypeBinary from htype) (by decide)

end Reading

/-! ## Starting it -/

section Starting

variable {process p : Addr} {slot : ℤ} {k k' : Kernel} {res : ℤ} {rs : List (Addr × ℕ)}

theorem registers_taskListAppend (s : TaskList) (task x : Addr) :
    ((taskListAppend s task).tasks x).registers = (s.tasks x).registers := by
  unfold taskListAppend
  split
  · rfl
  · dsimp only
    rw [assign_tasks, assign_tasks]
    split <;> split <;> rfl

/-- The task runs the process on the directory `chunk`, from the start of a raw binary. -/
structure StartsBinary (t : Task) (process chunk : Addr) : Prop where
  process : t.process = process
  page_directory : t.page_directory = chunk
  ip : t.registers.ip = maerosProgramVirtualAddress
  esp : t.registers.esp = maerosProgramVirtualStackAddressStart
  cs : t.registers.cs = userCodeSegment
  ss : t.registers.ss = userDataSegment

/-- A new task starts at the load address with its stack pointer at the top of the stack. -/
theorem startsBinary_newTask (s : TaskList) (task process chunk : Addr) :
    StartsBinary ((taskListAppend (s.assign task fun _ =>
      newTask chunk process maerosProgramVirtualAddress) task).tasks task) process chunk := by
  have hregs := registers_taskListAppend (s.assign task fun _ =>
    newTask chunk process maerosProgramVirtualAddress) task task
  rw [assign_tasks, if_pos rfl] at hregs
  refine ⟨?_, page_directory_newTask s task chunk process _, ?_, ?_, ?_, ?_⟩
  · rw [process_taskListAppend, assign_tasks, if_pos rfl]
    rfl
  all_goals
    rw [hregs]
    rfl

/-- A call that succeeds has a task, has mapped the program and puts the process in its slot. -/
theorem processLoadTask_up (h : processLoadTask process slot k = some ((res, p), k'))
    (ho : HeapOwns k.heap rs) (hres : 0 ≤ res) :
    p = process ∧ ∃ task k₁ k₂, taskNew process k = some (task, k₁) ∧
      processMapMemory process { k₁ with
        procs := Function.update k₁.procs process (withTask (k₁.procs process) task) } =
          some (res, k₂) ∧
      k' = { k₂ with processes := Function.update k₂.processes slot.toNat process } := by
  cases processLoadTaskBy_cases h with
  | none hnew =>
    -- a task is never null
    obtain ⟨-, chunk, shape, ip, hown, -⟩ := taskNew_some hnew ho
    exact absurd rfl (hown.ne_zero (List.mem_append_right _ List.mem_cons_self))
  | unmapped hnew hmap hneg hfree => exact absurd hres (not_le.mpr hneg)
  | up hnew hmap hpos hslot hlt hk hp => exact ⟨hp, _, _, _, hnew, hmap, hk⟩

/-- **`process_load_for_slot` from the task on**, for a raw binary: what it owns stays as it is, and
its address space is that of its image and its stack. -/
theorem processLoadTask_binary (h : processLoadTask process slot k = some ((res, p), k'))
    (ho : HeapOwns k.heap rs) (hres : 0 ≤ res) {image stack size : Addr}
    (htype : (k.procs process).filetype = processFiletypeBinary)
    (hptr : (k.procs process).ptr = image) (hsize : (k.procs process).size = size)
    (hstack : (k.procs process).stack = stack) (himage : (image, blocksFor size) ∈ rs)
    (hstackIn : (stack, 4) ∈ rs) :
    p = process ∧ ∃ chunk shape,
      StartsBinary (k'.sched.tasks (k'.procs process).task) process chunk ∧
      ChunkAt k'.mem chunk shape (binaryMap image stack size) ∧
      DirectoryWords k'.mem shape taskChunkFlags ∧ AgreeOnRuns k.mem k'.mem rs := by
  obtain ⟨hp, task, k₁, k₃, hnew, hmap, rfl⟩ := processLoadTask_up h ho hres
  obtain ⟨-, chunk, shape, ip, hown, hat, hagree, honly, -, -, hsched, hstart, hwords⟩ :=
    taskNew_started hnew ho
  have hne : task ≠ 0#32 := hown.ne_zero (List.mem_append_right _ List.mem_cons_self)
  obtain rfl : ip = maerosProgramVirtualAddress := hstart (by
    rw [htype]
    decide)
  obtain ⟨k₂, hk₂⟩ : ∃ k₂, k₂ = { k₁ with
    procs := Function.update k₁.procs process (withTask (k₁.procs process) task) } := ⟨_, rfl⟩
  rw [← hk₂] at hmap
  have hrec : k₂.procs process = { k.procs process with task := task } := by
    rw [hk₂]
    dsimp only
    rw [Function.update_self, honly.procs]
    rfl
  have hdir : (k₂.sched.tasks task).page_directory = chunk := by
    rw [hk₂]
    dsimp only
    rw [hsched, page_directory_newTask]
  have hmem : k₂.mem = k₁.mem := by rw [hk₂]
  have hheap : k₂.heap = k₁.heap := by rw [hk₂]
  have hi := ho.inside himage
  have hs := ho.inside hstackIn
  have hip := ho.aligned _ himage
  have hsp := ho.aligned _ hstackIn
  dsimp only at hi hs hip hsp
  obtain ⟨mem, hcode, hat', hoff⟩ := @processMapMemory_binaryMap ⟨process, chunk, shape⟩ k₂ image
    stack size (by rw [hrec]; exact hdir) (by rw [hrec]; exact hne) (by rw [hmem]; exact hat)
    (by rw [hrec]; exact htype) (by rw [hrec]; exact hptr) (by rw [hrec]; exact hsize)
    (by rw [hrec]; exact hstack) hip (by unfold pageOf at hi; unfold PageAligned at hip; omega) hsp
    (by unfold pageOf at hs; unfold PageAligned at hsp; omega)
  have hon : OnChunk k₂ ⟨process, chunk, shape⟩ := by
    rw [hk₂]
    exact OnChunk.setTask process (by rw [hsched, page_directory_newTask]) hat
  obtain ⟨mem', hk₃, -, hrun⟩ := processMapMemory_mapsApart (f := ⟨process, chunk, shape⟩) hmap hon
    (by rw [hheap]; exact hown)
  rw [hcode] at hmap
  cases hmap
  have hmm : mem' = mem := (congrArg Kernel.mem hk₃).symm
  rw [hmm, hmem] at hrun
  refine ⟨hp, chunk, shape, ?_, hat', fun i hlt => ?_,
    hagree.trans (hrun.subset fun r hr => List.mem_cons_of_mem _ hr)⟩
  · dsimp only
    rw [hrec, hk₂]
    dsimp only
    rw [hsched]
    exact startsBinary_newTask _ _ _ _
  · dsimp only
    rw [hoff.dir_word (hmem ▸ hat) hlt, hmem]
    exact hwords i hlt

/-- An offset inside a run of blocks stays inside it. -/
theorem inRun_add {a : Addr} {n i : ℕ} (ha : PageAligned a)
    (hfit : pageOf a + n ≤ 29696) (hi : i < 4096 * n) :
    InRun (a, n) (pageOf (a + BitVec.ofNat 32 i)) := by
  obtain ⟨hpage, -⟩ := pageOf_add_row ha (i := i) (by
    unfold PageAligned at ha
    unfold pageOf at hfit
    omega)
  rw [hpage]
  exact ⟨Nat.le_add_right _ _, by dsimp only; omega⟩

/-- A successful `process_load_for_slot` has allocated the record, read the file, allocated the
stack and gone on with the task. -/
theorem processLoadForSlot_parts {filename : List (BitVec 8)} {elf binary : FilePass}
    (h : processLoadForSlot filename elf binary slot k = some ((res, p), k')) (hres : 0 ≤ res)
    (ho : HeapOwns k.heap rs) :
    ∃ (process stack : Addr) (k₁ k₂ k₃ : Kernel) (res₁ : ℤ), HeapOwns k₁.heap ((process, 3) :: rs) ∧
      processLoadData elf binary process { k₁ with
        procs := Function.update k₁.procs process Process.zero } = some (res₁, k₂) ∧ 0 ≤ res₁ ∧
      Model.kzalloc maerosUserProgramStackSize k₂ = some (stack, k₃) ∧ stack ≠ 0#32 ∧
      processLoadTask process slot { k₃ with
        procs := Function.update k₃.procs process
          (withStack (k₃.procs process) filename stack slot) } = some ((res, p), k') := by
  obtain ⟨process, k₁, hz, ⟨-, -, rfl⟩ | ⟨hnull, hload⟩⟩ := processLoadForSlotBy_cases h
  · exact absurd hres (by decide)
  cases hload with
  | data hdata hneg => exact absurd hres (not_le.mpr hneg)
  | stack hdata hz' hres' => exact absurd hres (hres' ▸ by decide)
  | @task res₁ k₂ k₃ stack hdata hpos hz' hstack htask =>
    exact ⟨process, stack, k₁, k₂, k₃, res₁, ho.record hz hnull, hdata, hpos, hz', hstack, htask⟩

/-- **A raw binary starts.** When `process_load_for_slot` has loaded a file as a raw binary, its
task starts at the entry point with the stack pointer at the top of its stack, and walking the
directory of the task the processor finds the bytes of the file from the entry point on, zeros on
the stack, and every other address where it is, for reading only. -/
theorem binary_process_starts (filename : List (BitVec 8)) (elf binary : FilePass) (slot : ℤ)
    (k k' : Kernel) (res : ℤ) (p : Addr) (rs : List (Addr × ℕ)) (ho : HeapOwns k.heap rs)
    (h : processLoadForSlot filename elf binary slot k = some ((res, p), k')) (hres : 0 ≤ res)
    (htype : (k'.procs p).filetype = processFiletypeBinary) :
    ∃ chunk, StartsBinary (k'.sched.tasks (k'.procs p).task) p chunk ∧
      BinarySpace k'.mem (load32 k'.mem chunk) binary.filesize
        (binary.bytes.take binary.filesize.toNat) := by
  obtain ⟨process, stack, k₁, k₂, k₃, res₁, ho₁, hdata, hpos, hz, hstack, htask⟩ :=
    processLoadForSlot_parts h hres ho
  obtain ⟨-, hmem, -, honly⟩ := kzalloc_some hz
  rw [if_neg hstack] at hmem
  have hzero : (Function.update k₁.procs process Process.zero) process = Process.zero :=
    Function.update_self ..
  have hgive : ∀ {os : List (Addr × ℕ)}, HeapOwns k₂.heap os →
      HeapOwns k₃.heap ((stack, 4) :: os) := by
    intro os hos
    rcases hos.kzalloc_any hz with ⟨-, h0 | h0⟩ | ⟨-, -, hown⟩
    · exact absurd h0 hstack
    · exact absurd h0 (by decide)
    · exact hown
  -- the type of the file has not changed since it was read
  obtain ⟨os, lost, hown₂, -, -⟩ := processLoadData_owns hdata hzero ho₁
  obtain ⟨-, rfl, f, task, rfl, -, -, -, hrec⟩ :=
    (processLoadTask_owns htask (hgive hown₂)).resolve_left fun hf => absurd hres (not_le.mpr hf.1)
  dsimp only at hrec
  rw [Function.update_self, honly.procs] at hrec
  rw [hrec] at htype
  obtain ⟨image, lost', hown₂', hread⟩ := processLoadData_read hdata hzero ho₁ hpos htype
  have hown := hgive hown₂'
  have hproc : (Function.update k₃.procs f.process
      (withStack (k₃.procs f.process) filename stack slot)) f.process =
        withStack { Process.zero with
          filetype := processFiletypeBinary, ptr := image, size := binary.filesize }
          filename stack slot := by
    rw [Function.update_self, honly.procs, hread.record]
  have hagree₁ := agreeOnRuns_kzalloc hz hown
  obtain ⟨-, chunk, shape, hstarts, hat, hwords, hagree₂⟩ := @processLoadTask_binary _ _ _ _ _ _ _
    htask hown hres image stack binary.filesize (by dsimp only; rw [hproc]; rfl)
    (by dsimp only; rw [hproc]; rfl) (by dsimp only; rw [hproc]; rfl)
    (by dsimp only; rw [hproc]; rfl) (by simp) (by simp)
  dsimp only at hagree₂
  -- nothing of what was read has been written to since
  have himageMem : (image, blocksFor binary.filesize) ∈
      (stack, 4) :: (image, blocksFor binary.filesize) :: (lost' ++ (f.process, 3) :: rs) := by simp
  have himageIn := hown.inside himageMem
  have hstackIn := hown.inside List.mem_cons_self
  have himage : PageAligned image := hown.aligned _ himageMem
  have hspage : PageAligned stack := hown.aligned _ List.mem_cons_self
  dsimp only at himageIn hstackIn
  refine ⟨chunk, hstarts, ?_⟩
  rw [hat.chunk_word]
  refine binarySpace_of_chunk hat hwords himage (by omega) hspage (fun i hi => ?_) fun j hj => ?_
  · have hin := inRun_add himage himageIn.2 (i := i) (by unfold blocksFor; omega)
    rw [hagree₂ _ himageMem _ hin _ rfl, hagree₁ _ List.mem_cons_self _ hin _ rfl]
    exact hread.bytes i hi
  · have hin := inRun_add hspage hstackIn.2 (i := j) (by omega)
    rw [hagree₂ _ List.mem_cons_self _ hin _ rfl, hmem]
    unfold zeroFill
    rw [add_ofNat_sub stack (by omega),
      if_pos (show j < maerosUserProgramStackSize.toNat from hj)]

/-- `jmp $` and two `nop` are loaded into a fresh kernel and start. -/
theorem binary_process_starts_rawFile : ∃ (k' : Kernel) (chunk : Addr),
    processLoadForSlot [] rawFile rawFile 0 bootKernel = some ((0, blockAddr 0), k') ∧
      StartsBinary (k'.sched.tasks (k'.procs (blockAddr 0)).task) (blockAddr 0) chunk ∧
      BinarySpace k'.mem (load32 k'.mem chunk) 4#32 rawBytes := by
  obtain ⟨k', hload, -, htype⟩ := processLoad_rawFile_typed
  have hslot : processLoadForSlot [] rawFile rawFile 0 bootKernel = some ((0, blockAddr 0), k') := by
    unfold processLoad processLoadBy at hload
    rw [bind_get, show processGetFreeSlot bootKernel.processes = 0 from by decide,
      if_neg (by decide)] at hload
    exact hload
  obtain ⟨chunk, hstarts, hspace⟩ := binary_process_starts [] rawFile rawFile 0 bootKernel k' 0
    (blockAddr 0) [] heapOwns_bootKernel hslot le_rfl htype
  exact ⟨k', chunk, hslot, hstarts, hspace⟩

end Starting

end MaerOS.Analysis
