import MaerOS.Analysis.ElfExtent
import MaerOS.Analysis.LoadPlace

/-!
# Mapping an ELF image

`process_map_elf` maps one segment after the other until `paging_map_to` refuses one.
`mapSegments` says what that does to the page table entries, and where the table of
program headers is not in the page tables themselves it is what the loop does
(`processMapElf_spec`). An entry is the one of the last segment that covers the page.
-/

set_option autoImplicit false

namespace MaerOS.Analysis

open MaerOS.Lib MaerOS.Model

/-! ## Segments -/

/-- What `process_map_elf` reads of a program header. -/
structure Segment where
  offset : BitVec 32
  vaddr : Addr
  memsz : BitVec 32
  flags : BitVec 32
  deriving DecidableEq

/-- The segment of a program header in memory. -/
def segmentAt (mem : Memory) (phdr : Addr) : Segment :=
  ⟨phdrOffset mem phdr, phdrVaddr mem phdr, phdrMemsz mem phdr, phdrFlags mem phdr⟩

/-- The segments of a file, in the order of its program headers. -/
def elfSegments (mem : Memory) (header : Addr) : List Segment :=
  (List.range (elfPhnum mem header)).map fun i => segmentAt mem (elfProgramHeader mem header i)

namespace Segment

variable (image : Addr) (s : Segment)

/-- The rights of its pages. -/
def rights : BitVec 32 :=
  if s.flags &&& 2#32 ≠ 0#32 then pagingIsPresent ||| pagingAccessFromAll ||| pagingIsWriteable
  else pagingIsPresent ||| pagingAccessFromAll

/-- The first page of memory that it is mapped to. -/
def physStart : Addr := pagingAlignToLowerPage (image + s.offset)

/-- The end of the pages that it is mapped to. -/
def physEnd : Addr := pagingAlignAddress (image + s.offset + s.memsz)

/-- `paging_map_to` accepts it: the end is not below the start. -/
def Accepted : Prop := s.physStart image ≤ s.physEnd image

instance : Decidable (s.Accepted image) := inferInstanceAs (Decidable (_ ≤ _))

/-- The number of its pages. -/
def count : ℕ := (s.physEnd image - s.physStart image).toNat / 4096

/-- It is mapped at the virtual page `p`. -/
def Covers (p : ℕ) : Prop := p < 2 ^ 20 ∧ pageDist (pageOf s.vaddr) p < s.count image

instance (p : ℕ) : Decidable (s.Covers image p) := inferInstanceAs (Decidable (_ ∧ _))

/-- The page of memory that the virtual page `p` leads to. -/
def target (p : ℕ) : Addr :=
  s.physStart image + BitVec.ofNat 32 (4096 * pageDist (pageOf s.vaddr) p)

end Segment

/-- Mapping segments, one after the other, until one is refused. -/
def mapSegments (image : Addr) : List Segment → (ℕ → BitVec 32) → ℤ × (ℕ → BitVec 32)
  | [], pm => (0, pm)
  | s :: ss, pm =>
    if s.Accepted image then
      mapSegments image ss (mapPages pm (pageOf s.vaddr) (s.physStart image) (s.count image) s.rights)
    else (-einvarg, pm)

section Segments

variable {image : Addr} {s : Segment} {pm : ℕ → BitVec 32}

/-- Rounded arguments are refused only if the end is below the start. -/
theorem Segment.mapToValid_iff : MapToValid (pagingAlignToLowerPage s.vaddr) (s.physStart image)
    (s.physEnd image) ↔ s.Accepted image := by
  have hv := (pagingAlignToLowerPage_spec s.vaddr).1
  have hp : PageAligned (s.physStart image) := (pagingAlignToLowerPage_spec _).1
  have he : PageAligned (s.physEnd image) := pageAligned_pagingAlignAddress _
  exact ⟨fun h => h.2.2.2, fun h => ⟨hv, hp, he, h⟩⟩

theorem Segment.rights_lt (s : Segment) : s.rights.toNat < 4096 := by
  unfold Segment.rights
  split_ifs <;> simp

/-- The entry of a page of a segment. -/
theorem Segment.mapPages_covers {p : ℕ} (h : s.Covers image p) :
    mapPages pm (pageOf s.vaddr) (s.physStart image) (s.count image) s.rights p =
      s.target image p ||| s.rights := if_pos h

/-- The other entries stay. -/
theorem Segment.mapPages_other {p : ℕ} (h : ¬ s.Covers image p) :
    mapPages pm (pageOf s.vaddr) (s.physStart image) (s.count image) s.rights p = pm p := if_neg h

/-- When all are accepted, all are mapped. -/
theorem mapSegments_all {ss : List Segment} (hall : ∀ s ∈ ss, s.Accepted image) :
    ∀ pm, (mapSegments image ss pm).1 = 0 := by
  induction ss with
  | nil => simp [mapSegments]
  | cons s ss ih =>
    intro pm
    rw [mapSegments, if_pos (hall s (by simp))]
    exact ih (fun t ht => hall t (by simp [ht])) _

/-- A page that no segment covers keeps its entry. -/
theorem mapSegments_none {ss : List Segment} {p : ℕ} (hno : ∀ s ∈ ss, ¬ s.Covers image p) :
    ∀ pm, (mapSegments image ss pm).2 p = pm p := by
  induction ss with
  | nil => simp [mapSegments]
  | cons s ss ih =>
    intro pm
    rw [mapSegments]
    split_ifs
    · rw [ih fun t ht => hno t (by simp [ht])]
      exact s.mapPages_other (hno s (by simp))
    · rfl

end Segments

/-! ## The loop -/

/-- The bytes of the ELF header and of the program headers are not in the page tables. -/
structure TableApart (mem : Memory) (header : Addr) (shape : ChunkShape) : Prop where
  elf_header : ∀ t < 1024, pageOf header ≠ pageOf (shape.tables t)
  phdr : ∀ i < elfPhnum mem header, ∀ j < 32, ∀ t < 1024,
    pageOf (elfProgramHeader mem header i + BitVec.ofNat 32 j) ≠ pageOf (shape.tables t)

section Loop

variable {f : ProcFoot} {k : Kernel} {pm : ℕ → BitVec 32}

/-- `paging_map_to` on the directory of a process. -/
theorem processMapTo_onTables
    (hdir : (k.sched.tasks (k.procs f.process).task).page_directory = f.chunk)
    (htask : (k.procs f.process).task ≠ 0#32) (hat : ChunkAt k.mem f.chunk f.shape pm)
    (virt phys phys_end : Addr) (flags : BitVec 32) :
    ∃ mem, processMapTo f.process virt phys phys_end flags k =
        some (if MapToValid virt phys phys_end then 0 else -einvarg, { k with mem := mem }) ∧
      ChunkAt mem f.chunk f.shape (if MapToValid virt phys phys_end then
        mapPages pm (pageOf virt) phys ((phys_end - phys).toNat / 4096) flags else pm) ∧
      AgreeOffTables f.shape k.mem mem := by
  unfold processMapTo
  rw [bind_get, bind_of_some (deref_of_ne htask k), hdir]
  split_ifs with hval
  · obtain ⟨mem, hcode, hat', hagree⟩ := pagingMapTo_valid hat hval flags
    rw [hcode]
    exact ⟨mem, rfl, hat', hagree⟩
  · rw [pagingMapTo_invalid hval]
    exact ⟨k.mem, rfl, hat, fun _ _ _ _ => rfl⟩

/-- A word is determined by its bytes, counted from an address before it. -/
theorem load32_ofNat_congr {m m' : Memory} {p : Addr} {n : ℕ}
    (h : ∀ j < n, m' (p + BitVec.ofNat 32 j) = m (p + BitVec.ofNat 32 j)) {j : ℕ}
    (hj : j + 3 < n) : load32 m' (p + BitVec.ofNat 32 j) = load32 m (p + BitVec.ofNat 32 j) := by
  apply load32_congr
  · exact h j (by omega)
  · rw [BitVec.add_assoc, ← BitVec.ofNat_add]
    exact h (j + 1) (by omega)
  · rw [BitVec.add_assoc, ← BitVec.ofNat_add]
    exact h (j + 2) (by omega)
  · rw [BitVec.add_assoc, ← BitVec.ofNat_add]
    exact h (j + 3) (by omega)

/-- A segment is determined by the bytes of its program header. -/
theorem segmentAt_congr {m m' : Memory} {phdr : Addr}
    (h : ∀ j < 32, m' (phdr + BitVec.ofNat 32 j) = m (phdr + BitVec.ofNat 32 j)) :
    segmentAt m' phdr = segmentAt m phdr := by
  have hword : ∀ j, j + 3 < 32 →
      load32 m' (phdr + BitVec.ofNat 32 j) = load32 m (phdr + BitVec.ofNat 32 j) :=
    fun j hj => load32_ofNat_congr h hj
  unfold segmentAt phdrOffset phdrVaddr phdrMemsz phdrFlags
  rw [hword 4 (by omega), hword 8 (by omega), hword 20 (by omega), hword 24 (by omega)]

/-- A segment whose header is not in the page tables is read as it was. -/
theorem segmentAt_of_agree {shape : ChunkShape} {m m' : Memory} (h : AgreeOffTables shape m m')
    {phdr : Addr} (hapart : ∀ j < 32, ∀ t < 1024,
      pageOf (phdr + BitVec.ofNat 32 j) ≠ pageOf (shape.tables t)) :
    segmentAt m' phdr = segmentAt m phdr := by
  exact segmentAt_congr fun j hj => h _ (hapart j hj) _ rfl

/-- **The loop of `process_map_elf`** maps the segments of the headers that are left. -/
theorem processMapElfLoop_spec {elf_file phdrs : Addr} : ∀ (n i : ℕ) {k : Kernel}
    {pm : ℕ → BitVec 32}, (k.sched.tasks (k.procs f.process).task).page_directory = f.chunk →
    (k.procs f.process).task ≠ 0#32 → ChunkAt k.mem f.chunk f.shape pm →
    (∀ l, i ≤ l → l < i + n → ∀ j < 32, ∀ t < 1024,
      pageOf (phdrs + BitVec.ofNat 32 (32 * l) + BitVec.ofNat 32 j) ≠ pageOf (f.shape.tables t)) →
    ∃ mem, processMapElfLoop f.process elf_file phdrs n i 0 k = some ((mapSegments
          (k.elfs elf_file).elf_memory ((List.range' i n).map fun l =>
            segmentAt k.mem (phdrs + BitVec.ofNat 32 (32 * l))) pm).1, { k with mem := mem }) ∧
      ChunkAt mem f.chunk f.shape (mapSegments (k.elfs elf_file).elf_memory
        ((List.range' i n).map fun l => segmentAt k.mem (phdrs + BitVec.ofNat 32 (32 * l))) pm).2 ∧
      AgreeOffTables f.shape k.mem mem := by
  intro n
  induction n with
  | zero =>
    intro i k pm _ _ hat _
    exact ⟨k.mem, rfl, hat, fun _ _ _ _ => rfl⟩
  | succ n ih =>
    intro i k pm hdir htask hat hapart
    obtain ⟨s, hs⟩ : ∃ s, s = segmentAt k.mem (phdrs + BitVec.ofNat 32 (32 * i)) := ⟨_, rfl⟩
    obtain ⟨mem₁, hrun, hat₁, hagree₁⟩ := processMapTo_onTables hdir htask hat
      (pagingAlignToLowerPage s.vaddr) (s.physStart (k.elfs elf_file).elf_memory)
      (s.physEnd (k.elfs elf_file).elf_memory) s.rights
    have hseg : processMapSegment f.process elf_file (phdrs + BitVec.ofNat 32 (32 * i)) k =
        processMapTo f.process (pagingAlignToLowerPage s.vaddr)
          (s.physStart (k.elfs elf_file).elf_memory) (s.physEnd (k.elfs elf_file).elf_memory)
          s.rights k := by
      subst hs
      rfl
    have hvpage := (pagingAlignToLowerPage_spec s.vaddr).2.1
    rw [List.range'_succ, List.map_cons, ← hs]
    unfold processMapElfLoop mapSegments
    simp only [Segment.mapToValid_iff, hvpage] at hrun hat₁
    by_cases hacc : s.Accepted (k.elfs elf_file).elf_memory
    · rw [if_pos hacc] at hrun hat₁
      rw [bind_of_some (hseg.trans hrun), if_neg (by decide), if_pos hacc]
      obtain ⟨mem₂, hrest, hat₂, hagree₂⟩ := ih (i + 1) (k := { k with mem := mem₁ }) hdir htask hat₁
        fun l hl hln => hapart l (by omega) (by omega)
      have hsame : ((List.range' (i + 1) n).map fun l =>
          segmentAt mem₁ (phdrs + BitVec.ofNat 32 (32 * l))) =
            (List.range' (i + 1) n).map fun l =>
              segmentAt k.mem (phdrs + BitVec.ofNat 32 (32 * l)) := by
        refine List.map_congr_left fun l hl => ?_
        obtain ⟨hil, hln⟩ := List.mem_range'_1.mp hl
        exact segmentAt_of_agree hagree₁ (hapart l (by omega) (by omega))
      dsimp only at hrest hat₂
      rw [hsame] at hrest hat₂
      exact ⟨mem₂, hrest, hat₂, fun q hq => (hagree₁ q hq).trans (hagree₂ q hq)⟩
    · rw [if_neg hacc] at hrun hat₁
      rw [bind_of_some (hseg.trans hrun), if_pos (by decide), if_neg hacc]
      exact ⟨mem₁, rfl, hat₁, hagree₁⟩

/-- **`process_map_elf`** maps the segments of the file. -/
theorem processMapElf_spec
    (hdir : (k.sched.tasks (k.procs f.process).task).page_directory = f.chunk)
    (htask : (k.procs f.process).task ≠ 0#32) (hat : ChunkAt k.mem f.chunk f.shape pm)
    (hfile : (k.procs f.process).ptr ≠ 0#32) {image : Addr}
    (himage : (k.elfs (k.procs f.process).ptr).elf_memory = image) (hne : image ≠ 0#32)
    (hapart : TableApart k.mem image f.shape) :
    ∃ mem, processMapElf f.process k =
        some ((mapSegments image (elfSegments k.mem image) pm).1, { k with mem := mem }) ∧
      ChunkAt mem f.chunk f.shape (mapSegments image (elfSegments k.mem image) pm).2 ∧
      AgreeOffTables f.shape k.mem mem := by
  subst himage
  obtain ⟨mem, hrun, hat', hagree⟩ := @processMapElfLoop_spec f (k.procs f.process).ptr
    (elfPheader k.mem (k.elfs (k.procs f.process).ptr).elf_memory)
    (elfPhnum k.mem (k.elfs (k.procs f.process).ptr).elf_memory) 0 _ _ hdir htask hat
    fun l _ hl => hapart.phdr l (by omega)
  rw [← List.range_eq_range'] at hrun hat'
  refine ⟨mem, ?_, hat', hagree⟩
  unfold processMapElf
  rw [bind_get]
  dsimp only
  rw [bind_of_some (deref_of_ne hfile _), bind_of_some (deref_of_ne hne _)]
  exact hrun

end Loop

/-! ## Well laid out images -/

/-- The next page boundary. -/
def roundUp (n : ℕ) : ℕ := (n + 4095) / 4096 * 4096

/-- The virtual page lies between the rounded start and the rounded end of the segment. -/
def Segment.HasPage (s : Segment) (p : ℕ) : Prop :=
  s.vaddr.toNat / 4096 ≤ p ∧ 4096 * p < roundUp (s.vaddr.toNat + s.memsz.toNat)

/-- One segment of an image: addresses and offsets agree within a page, and neither the pages of
memory nor the virtual pages wrap around. -/
structure Segment.Fits (image : Addr) (s : Segment) : Prop where
  congruent : s.vaddr.toNat % 4096 = s.offset.toNat % 4096
  phys : roundUp (image.toNat + s.offset.toNat + s.memsz.toNat) < 2 ^ 32
  virt : roundUp (s.vaddr.toNat + s.memsz.toNat) ≤ 2 ^ 32

section Fits

variable {image : Addr} {s : Segment}

theorem pagingAlignToLowerPage_toNat (a : Addr) :
    (pagingAlignToLowerPage a).toNat = a.toNat / 4096 * 4096 := by
  have hlt := a.isLt
  unfold pagingAlignToLowerPage
  rw [BitVec.toNat_sub, BitVec.toNat_ofNat]
  simp only [pagingPageSize]
  omega

theorem pagingAlignAddress_toNat {a : Addr} (h : roundUp a.toNat < 2 ^ 32) :
    (pagingAlignAddress a).toNat = roundUp a.toNat := by
  unfold roundUp at h ⊢
  unfold pagingAlignAddress
  simp only [pagingPageSize]
  split
  · rw [BitVec.toNat_sub, BitVec.toNat_add, BitVec.toNat_ofNat, BitVec.toNat_ofNat]
    omega
  · omega

/-- Where the pages of memory of such a segment begin and end. -/
theorem Segment.Fits.phys_toNat (h : s.Fits image) :
    (image + s.offset).toNat = image.toNat + s.offset.toNat ∧
      (s.physStart image).toNat = (image.toNat + s.offset.toNat) / 4096 * 4096 ∧
      (s.physEnd image).toNat = roundUp (image.toNat + s.offset.toNat + s.memsz.toNat) := by
  have hfits := h.phys
  have hsum : (image + s.offset).toNat = image.toNat + s.offset.toNat := by
    unfold roundUp at hfits
    rw [BitVec.toNat_add]
    omega
  have hend : (image + s.offset + s.memsz).toNat =
      image.toNat + s.offset.toNat + s.memsz.toNat := by
    unfold roundUp at hfits
    rw [BitVec.toNat_add, hsum]
    omega
  refine ⟨hsum, ?_, ?_⟩
  · rw [Segment.physStart, pagingAlignToLowerPage_toNat, hsum]
  · rw [Segment.physEnd, pagingAlignAddress_toNat (by rw [hend]; exact hfits), hend]

theorem Segment.Fits.accepted (h : s.Fits image) : s.Accepted image := by
  obtain ⟨-, hstart, hend⟩ := h.phys_toNat
  unfold Segment.Accepted
  rw [BitVec.le_def, hstart, hend]
  unfold roundUp
  omega

/-- It has as many pages of memory as virtual pages. -/
theorem Segment.Fits.count_eq (h : s.Fits image) (himage : PageAligned image) :
    s.count image =
      (s.vaddr.toNat % 4096 + s.memsz.toNat + 4095) / 4096 := by
  obtain ⟨-, hstart, hend⟩ := h.phys_toNat
  have hcongr := h.congruent
  have hlt := (s.physEnd image).isLt
  unfold PageAligned at himage
  unfold Segment.count
  rw [BitVec.toNat_sub, hstart, hend]
  rw [hend] at hlt
  unfold roundUp at hlt ⊢
  omega

/-- It is mapped at the virtual pages between its rounded start and its rounded end. -/
theorem Segment.Fits.covers_iff (h : s.Fits image) (himage : PageAligned image) {p : ℕ} :
    s.Covers image p ↔ s.HasPage p := by
  have hvirt := h.virt
  unfold Segment.Covers Segment.HasPage
  rw [h.count_eq himage]
  unfold pageDist pageOf roundUp at *
  omega

/-- Its bytes go where the file has them. -/
theorem Segment.Fits.translate (h : s.Fits image) (himage : PageAligned image) {j : ℕ}
    (hj : j < s.memsz.toNat) :
    s.HasPage (pageOf (s.vaddr + BitVec.ofNat 32 j)) ∧
      PageAligned (s.target image (pageOf (s.vaddr + BitVec.ofNat 32 j))) ∧
      s.target image (pageOf (s.vaddr + BitVec.ofNat 32 j)) +
          (s.vaddr + BitVec.ofNat 32 j - pagingAlignToLowerPage (s.vaddr + BitVec.ofNat 32 j)) =
        image + s.offset + BitVec.ofNat 32 j := by
  obtain ⟨hsum, hstart, -⟩ := h.phys_toNat
  have hphys := h.phys
  have hvirt := h.virt
  have hcongr := h.congruent
  have hv : (s.vaddr + BitVec.ofNat 32 j).toNat = s.vaddr.toNat + j := by
    unfold roundUp at hvirt
    rw [BitVec.toNat_add, BitVec.toNat_ofNat]
    omega
  obtain ⟨-, -, hlow⟩ := pagingAlignToLowerPage_spec (s.vaddr + BitVec.ofNat 32 j)
  rw [hv] at hlow
  unfold PageAligned at himage
  unfold roundUp at hphys hvirt
  have htarget : (s.target image (pageOf (s.vaddr + BitVec.ofNat 32 j))).toNat =
      (image.toNat + s.offset.toNat) / 4096 * 4096 +
        4096 * ((s.vaddr.toNat % 4096 + j) / 4096) := by
    have hdist : pageDist (pageOf s.vaddr) (pageOf (s.vaddr + BitVec.ofNat 32 j)) =
        (s.vaddr.toNat % 4096 + j) / 4096 := by
      unfold pageDist pageOf
      rw [hv]
      omega
    unfold Segment.target
    rw [hdist, BitVec.toNat_add, hstart, BitVec.toNat_ofNat]
    omega
  refine ⟨?_, ?_, ?_⟩
  · unfold Segment.HasPage pageOf roundUp
    rw [hv]
    omega
  · unfold PageAligned
    rw [htarget]
    omega
  · apply BitVec.eq_of_toNat_eq
    rw [BitVec.toNat_add, htarget, hlow, BitVec.toNat_add, hsum, BitVec.toNat_ofNat]
    omega

end Fits

/-! ## The mapped process -/

/-- The entry is present and accessible from user land, and writable as told. -/
structure HasRights (entry : BitVec 32) (writable : Prop) : Prop where
  present : entry &&& pagingIsPresent ≠ 0#32
  user : entry &&& pagingAccessFromAll ≠ 0#32
  write : entry &&& pagingIsWriteable ≠ 0#32 ↔ writable

/-- In the directory of a chunk an address leads to `phys`, with these rights. -/
structure LeadsTo (mem : Memory) (chunk virt phys : Addr) (writable : Prop) : Prop where
  phys : pagingGetPhysicalAddress mem (load32 mem chunk) virt = phys
  rights : HasRights (pagingGet mem (load32 mem chunk) (pagingAlignToLowerPage virt)) writable

/-- A page of the stack. -/
def StackPage (p : ℕ) : Prop :=
  pageOf maerosProgramVirtualStackAddressEnd ≤ p ∧ p < pageOf maerosProgramVirtualStackAddressEnd + 4

/-- An image whose segments fit, with virtual pages of their own. -/
structure ElfLayout (image : Addr) (ss : List Segment) : Prop where
  aligned : PageAligned image
  fits : ∀ s ∈ ss, s.Fits image
  offset_nonneg : ∀ s ∈ ss, 0 ≤ s.offset.toInt
  apart : ss.Pairwise fun s t => ∀ p, ¬ (s.HasPage p ∧ t.HasPage p)
  off_stack : ∀ s ∈ ss, ∀ p, s.HasPage p → ¬ StackPage p

/-- An ELF process whose memory is yet to be mapped: `process_load_elf` leaves its size at zero,
`task_init` has made a directory that maps every page to itself, and the stack is a block of the
heap. -/
structure ElfReady (k : Kernel) (f : ProcFoot) (image : Addr) : Prop where
  elf : HasElf k f.process
  size : (k.procs f.process).size = 0#32
  task : (k.procs f.process).task ≠ 0#32
  dir : (k.sched.tasks (k.procs f.process).task).page_directory = f.chunk
  fresh : ChunkAt k.mem f.chunk f.shape selfMap
  elf_memory : (k.elfs (k.procs f.process).ptr).elf_memory = image
  table : TableApart k.mem image f.shape
  stack : PageAligned (k.procs f.process).stack
  stack_fits : (k.procs f.process).stack.toNat + 16384 < 2 ^ 32

/-- Loading an ELF file leaves the size of a process as it was. -/
theorem processLoadElf_size {pass : FilePass} {process : Addr} {k k' : Kernel} {res : ℤ}
    (h : processLoadElf pass process k = some (res, k')) {rs : List (Addr × ℕ)}
    (ho : HeapOwns k.heap rs) : (k'.procs process).size = (k.procs process).size := by
  obtain ⟨⟨res₁, file⟩, k₁, hload, hrest⟩ := prog_bind.mp h
  obtain ⟨-, -, hprocs, -⟩ := elfLoad_owns hload ho
  dsimp only at hrest
  split_ifs at hrest
  · obtain ⟨-, rfl⟩ := prog_pure.mp hrest
    rw [hprocs]
  · obtain ⟨_, k₂, hset, hrest⟩ := prog_bind.mp hrest
    cases hset
    obtain ⟨-, rfl⟩ := prog_pure.mp hrest
    dsimp only
    rw [Function.update_self, hprocs]

section Mapped

variable {k : Kernel} {f : ProcFoot} {image : Addr} {ss : List Segment} {pm : ℕ → BitVec 32}

/-- Mapping nothing for the size zero. -/
theorem processMapBinary_empty (htask : (k.procs f.process).task ≠ 0#32)
    (hsize : (k.procs f.process).size = 0#32) : processMapBinary f.process k = some (0, k) := by
  have hmap : ∀ chunk virt phys : Addr, ∀ flags,
      (pagingMapTo k.mem chunk virt phys (pagingAlignAddress (phys + 0#32)) flags).2 = k.mem := by
    intro chunk virt phys flags
    by_cases hval : MapToValid virt phys (pagingAlignAddress (phys + 0#32))
    · have hphys : phys.toNat % 4096 = 0 := hval.2.1
      have hend : pagingAlignAddress (phys + 0#32) = phys := by
        unfold pagingAlignAddress
        simp [pagingPageSize, hphys]
      have hvirt : virt.toNat % 4096 = 0 := hval.1
      rw [hend]
      unfold pagingMapTo
      simp [pagingPageSize, hphys, hvirt, pagingMapRange]
    · rw [pagingMapTo_invalid hval]
  unfold processMapBinary processMapTo
  rw [bind_get, hsize, bind_assoc, bind_get, bind_assoc, bind_of_some (deref_of_ne htask k)]
  simp only [hmap]
  rfl

/-- An entry made of a page and flags. -/
theorem ChunkAt.leadsTo {mem : Memory} {chunk : Addr} {shape : ChunkShape}
    (h : ChunkAt mem chunk shape pm) {virt page phys : Addr} {flags : BitVec 32} {writable : Prop}
    (hentry : pm (pageOf virt) = page ||| flags) (hpage : PageAligned page)
    (hflags : flags.toNat < 4096) (hphys : page + (virt - pagingAlignToLowerPage virt) = phys)
    (hrights : HasRights flags writable) : LeadsTo mem chunk virt phys writable := by
  have hlow : ∀ bit : BitVec 32, 0xfff#32 &&& bit = bit →
      (page ||| flags) &&& bit = flags &&& bit := by
    intro bit hbit
    rw [← hbit, ← BitVec.and_assoc, or_flags_and_low hpage hflags, hbit]
  refine ⟨?_, ?_⟩
  · rw [h.physical hentry hpage hflags, hphys]
  · rw [h.get, hentry]
    refine ⟨?_, ?_, ?_⟩
    · rw [hlow _ (by decide)]
      exact hrights.present
    · rw [hlow _ (by decide)]
      exact hrights.user
    · rw [hlow _ (by decide)]
      exact hrights.write

theorem Segment.hasRights (s : Segment) : HasRights s.rights (s.flags &&& 2#32 ≠ 0#32) := by
  unfold Segment.rights
  split_ifs with hw
  · exact ⟨by decide, by decide, iff_of_true (by decide) hw⟩
  · exact ⟨by decide, by decide, iff_of_false (by decide) hw⟩

/-- A page of a segment that shares none with the others has the entry of this segment. -/
theorem mapSegments_mem {ss : List Segment} {s : Segment} (hs : s ∈ ss)
    (hall : ∀ t ∈ ss, t.Accepted image)
    (hapart : ss.Pairwise fun s t => ∀ p, ¬ (s.Covers image p ∧ t.Covers image p)) {p : ℕ}
    (hp : s.Covers image p) :
    ∀ pm, (mapSegments image ss pm).2 p = s.target image p ||| s.rights := by
  induction ss with
  | nil => simp at hs
  | cons t ss ih =>
    intro pm
    obtain ⟨hhead, htail⟩ := List.pairwise_cons.mp hapart
    rw [mapSegments, if_pos (hall t (by simp))]
    rcases List.mem_cons.mp hs with rfl | hs
    · rw [mapSegments_none fun u hu hcov => hhead u hu p ⟨hp, hcov⟩, s.mapPages_covers hp]
    · exact ih hs (fun u hu => hall u (by simp [hu])) htail _

/-- The stack of a process is four pages. -/
theorem stack_mapTo {stack : Addr} (ha : PageAligned stack) (hfits : stack.toNat + 16384 < 2 ^ 32) :
    MapToValid maerosProgramVirtualStackAddressEnd stack
        (pagingAlignAddress (stack + maerosUserProgramStackSize)) ∧
      (pagingAlignAddress (stack + maerosUserProgramStackSize) - stack).toNat / 4096 = 4 := by
  have hsum : (stack + maerosUserProgramStackSize).toNat = stack.toNat + 16384 := by
    rw [BitVec.toNat_add, show maerosUserProgramStackSize.toNat = 16384 from rfl]
    omega
  have hround : roundUp (stack.toNat + 16384) = stack.toNat + 16384 := by
    unfold PageAligned at ha
    unfold roundUp
    omega
  have hend : (pagingAlignAddress (stack + maerosUserProgramStackSize)).toNat =
      stack.toNat + 16384 := by
    rw [pagingAlignAddress_toNat (by rw [hsum, hround]; exact hfits), hsum, hround]
  refine ⟨⟨by decide, ha, pageAligned_pagingAlignAddress _, ?_⟩, ?_⟩
  · rw [BitVec.le_def, hend]
    omega
  · rw [BitVec.toNat_sub, hend]
    omega

theorem pageDist_stack {p : ℕ} (hp : p < 2 ^ 20) :
    pageDist (pageOf maerosProgramVirtualStackAddressEnd) p < 4 ↔ StackPage p := by
  unfold pageDist StackPage
  rw [show pageOf maerosProgramVirtualStackAddressEnd = 1019 from by decide]
  omega

/-- Where a byte of the stack is. -/
theorem stack_translate {stack : Addr} (ha : PageAligned stack)
    (hfits : stack.toNat + 16384 < 2 ^ 32) {j : ℕ} (hj : j < 16384) {v : Addr}
    (hv : v = maerosProgramVirtualStackAddressEnd + BitVec.ofNat 32 j) :
    StackPage (pageOf v) ∧
      PageAligned (stack + BitVec.ofNat 32
        (4096 * pageDist (pageOf maerosProgramVirtualStackAddressEnd) (pageOf v))) ∧
      stack + BitVec.ofNat 32
          (4096 * pageDist (pageOf maerosProgramVirtualStackAddressEnd) (pageOf v)) +
        (v - pagingAlignToLowerPage v) = stack + BitVec.ofNat 32 j := by
  have hvn : v.toNat = 0x3FB000 + j := by
    rw [hv, BitVec.toNat_add, BitVec.toNat_ofNat,
      show maerosProgramVirtualStackAddressEnd.toNat = 0x3FB000 from by decide]
    omega
  obtain ⟨-, -, hlow⟩ := pagingAlignToLowerPage_spec v
  have hdist : pageDist (pageOf maerosProgramVirtualStackAddressEnd) (pageOf v) = j / 4096 := by
    unfold pageDist
    rw [show pageOf maerosProgramVirtualStackAddressEnd = 1019 from by decide]
    unfold pageOf
    omega
  have hpage : (stack + BitVec.ofNat 32 (4096 * (j / 4096))).toNat =
      stack.toNat + 4096 * (j / 4096) := by
    rw [BitVec.toNat_add, BitVec.toNat_ofNat]
    omega
  rw [hdist]
  unfold PageAligned at ha ⊢
  refine ⟨?_, ?_, ?_⟩
  · unfold StackPage
    rw [show pageOf maerosProgramVirtualStackAddressEnd = 1019 from by decide]
    unfold pageOf
    omega
  · omega
  · apply BitVec.eq_of_toNat_eq
    rw [BitVec.toNat_add, hpage, hlow, BitVec.toNat_add, BitVec.toNat_ofNat]
    omega

/-- **`process_map_memory`** of an ELF process whose segments are all accepted. -/
theorem processMapMemory_elf (hready : ElfReady k f image)
    (hall : ∀ s ∈ elfSegments k.mem image, s.Accepted image) :
    ∃ k', processMapMemory f.process k = some (0, k') ∧ ChunkAt k'.mem f.chunk f.shape
      (mapPages (mapSegments image (elfSegments k.mem image) selfMap).2
        (pageOf maerosProgramVirtualStackAddressEnd) (k.procs f.process).stack 4
        processImageFlags) := by
  obtain ⟨mem₁, helf, hat₁, -⟩ := processMapElf_spec hready.dir hready.task hready.fresh
    hready.elf.file hready.elf_memory (hready.elf_memory ▸ hready.elf.image) hready.table
  rw [mapSegments_all hall] at helf
  obtain ⟨mem₂, hstack, hat₂, -⟩ := processMapTo_onTables (k := { k with mem := mem₁ }) hready.dir
    hready.task hat₁ maerosProgramVirtualStackAddressEnd (k.procs f.process).stack
    (pagingAlignAddress ((k.procs f.process).stack + maerosUserProgramStackSize)) processImageFlags
  obtain ⟨hval, hcount⟩ := stack_mapTo hready.stack hready.stack_fits
  rw [if_pos hval] at hstack hat₂
  rw [hcount] at hat₂
  refine ⟨{ k with mem := mem₂ }, ?_, hat₂⟩
  unfold processMapMemory
  rw [bind_of_some (processMapBinary_empty hready.task hready.size), bind_get,
    if_pos hready.elf.filetype, bind_of_some helf, if_neg (by decide), bind_get,
    bind_of_some hstack]
  rfl

/-- **ELF image mapping.** An ELF process whose segments fit and have virtual pages of their own is
mapped without an error: every byte of a segment leads to its byte of the image, writable iff the
segment is, the stack leads to the stack, and all other pages stay mapped to themselves for
reading. -/
theorem elf_mapping_correct (hready : ElfReady k f image)
    (hlayout : ElfLayout image (elfSegments k.mem image)) :
    ∃ k', processMapMemory f.process k = some (0, k') ∧
      (∀ s ∈ elfSegments k.mem image, ∀ j < s.memsz.toNat,
        LeadsTo k'.mem f.chunk (s.vaddr + BitVec.ofNat 32 j)
          (image + s.offset + BitVec.ofNat 32 j) (s.flags &&& 2#32 ≠ 0#32)) ∧
      (∀ j < 16384, LeadsTo k'.mem f.chunk (maerosProgramVirtualStackAddressEnd + BitVec.ofNat 32 j)
        ((k.procs f.process).stack + BitVec.ofNat 32 j) True) ∧
      ∀ v, (∀ s ∈ elfSegments k.mem image, ¬ s.HasPage (pageOf v)) → ¬ StackPage (pageOf v) →
        LeadsTo k'.mem f.chunk v v False := by
  have himage := hlayout.aligned
  have hall : ∀ s ∈ elfSegments k.mem image, s.Accepted image :=
    fun s hs => (hlayout.fits s hs).accepted
  have hcovers : ∀ s ∈ elfSegments k.mem image, ∀ p, s.Covers image p ↔ s.HasPage p :=
    fun s hs p => (hlayout.fits s hs).covers_iff himage
  have hapart : (elfSegments k.mem image).Pairwise
      fun s t => ∀ p, ¬ (s.Covers image p ∧ t.Covers image p) := by
    refine hlayout.apart.imp_of_mem fun {s t} hs ht hno p => ?_
    rw [hcovers s hs, hcovers t ht]
    exact hno p
  have hflags : processImageFlags.toNat < 4096 := by decide
  obtain ⟨k', hrun, hat⟩ := processMapMemory_elf hready hall
  -- the entries off the stack are those that the segments have left
  have hoff : ∀ v : Addr, ¬ StackPage (pageOf v) →
      mapPages (mapSegments image (elfSegments k.mem image) selfMap).2
        (pageOf maerosProgramVirtualStackAddressEnd) (k.procs f.process).stack 4
        processImageFlags (pageOf v) =
      (mapSegments image (elfSegments k.mem image) selfMap).2 (pageOf v) :=
    fun v hv => if_neg fun hin => hv ((pageDist_stack hin.1).mp hin.2)
  refine ⟨k', hrun, fun s hs j hj => ?_, fun j hj => ?_, fun v hno hv => ?_⟩
  · obtain ⟨hpage, halign, hphys⟩ := (hlayout.fits s hs).translate himage hj
    refine hat.leadsTo ?_ halign s.rights_lt hphys s.hasRights
    rw [hoff _ (hlayout.off_stack s hs _ hpage)]
    exact mapSegments_mem hs hall hapart ((hcovers s hs _).mpr hpage) selfMap
  · obtain ⟨hpage, halign, hphys⟩ := stack_translate hready.stack hready.stack_fits hj rfl
    refine hat.leadsTo ?_ halign hflags hphys ⟨by decide, by decide, by decide⟩
    exact if_pos ⟨pageOf_lt _, (pageDist_stack (pageOf_lt _)).mpr hpage⟩
  · have hself : PageAligned (BitVec.ofNat 32 (4096 * pageOf v)) := by
      unfold PageAligned
      rw [BitVec.toNat_ofNat]
      omega
    have hphys : BitVec.ofNat 32 (4096 * pageOf v) + (v - pagingAlignToLowerPage v) = v := by
      have hlow := pagingAlignToLowerPage_toNat v
      have hlt := v.isLt
      apply BitVec.eq_of_toNat_eq
      rw [BitVec.toNat_add, BitVec.toNat_sub, hlow, BitVec.toNat_ofNat]
      unfold pageOf
      omega
    refine hat.leadsTo ?_ hself (by decide : (taskChunkFlags.setWidth 32).toNat < 4096) hphys
      ⟨by decide, by decide, by decide⟩
    rw [hoff v hv, mapSegments_none fun s hs hcov => hno s hs ((hcovers s hs _).mp hcov)]
    rfl

end Mapped

/-! ## An image in a fresh kernel -/

/-- The next allocation on a packed heap. -/
theorem Packed.kzalloc_owns {h : Heap} {s : ℕ} {rs : List (Addr × ℕ)} (hp : Packed h s)
    (ho : HeapOwns h rs) (size : BitVec 32) (hsize : 1 ≤ size.toNat)
    (hfit : s + blocksFor size ≤ 25600) :
    ∃ h', Packed h' (s + blocksFor size) ∧ HeapOwns h' ((blockAddr s, blocksFor size) :: rs) := by
  have hn := blocksFor_pos hsize
  obtain ⟨h', hz, hp'⟩ := hp.kzalloc size hsize hfit
  exact ⟨h', hp', ((ho.kzalloc hsize hz).resolve_left
    fun h0 => blockAddr_ne_zero (by omega) h0.1).2⟩

/-- The blocks of a process in a fresh kernel: its record, the record of the ELF file, the image,
the stack and the task. -/
def elfBootRuns : List (Addr × ℕ) :=
  [(blockAddr 9, 1), (blockAddr 5, 4), (blockAddr 4, 1), (blockAddr 3, 1), (blockAddr 0, 3)]

/-- Memory with an image where the fresh kernel has loaded it. -/
def elfBootMemory (bytes : List (BitVec 8)) : Memory :=
  storeBytes (fun _ => 0#8) (blockAddr 4) bytes

/-- The headers of an image of one page, wherever the memory agrees on that page. -/
theorem elfSegments_congr {m m' : Memory} {image : Addr} (ha : PageAligned image)
    (hagree : AgreeOnPage m m' (pageOf image)) (hphoff : elfPhoff m image ≠ 0#32)
    (hin : (elfPhoff m image).toNat + 32 * elfPhnum m image ≤ 4096) :
    elfPhnum m' image = elfPhnum m image ∧
      (∀ i, elfProgramHeader m' image i = elfProgramHeader m image i) ∧
      (∀ i < elfPhnum m image, ∀ j < 32,
        pageOf (elfProgramHeader m image i + BitVec.ofNat 32 j) = pageOf image) ∧
      elfSegments m' image = elfSegments m image := by
  have hbyte : ∀ j < 4096, m' (image + BitVec.ofNat 32 j) = m (image + BitVec.ofNat 32 j) :=
    fun j hj => hagree _ (pageOf_add_ofNat ha hj)
  have hoff : elfPhoff m' image = elfPhoff m image := load32_ofNat_congr (j := 28) hbyte (by omega)
  have hnum : elfPhnum m' image = elfPhnum m image := by
    have h44 := hbyte 44 (by omega)
    have h45 := hbyte 45 (by omega)
    have hnext : image + 44#32 + 1#32 = image + 45#32 := by
      rw [BitVec.add_assoc]
      rfl
    unfold elfPhnum load16
    rw [hnext, show m' (image + 44#32) = _ from h44, show m' (image + 45#32) = _ from h45]
  have hphdr : ∀ i, elfProgramHeader m' image i = elfProgramHeader m image i := by
    intro i
    unfold elfProgramHeader elfPheader
    rw [hoff]
  have hpage : ∀ i < elfPhnum m image, ∀ j < 32,
      pageOf (elfProgramHeader m image i + BitVec.ofNat 32 j) = pageOf image := by
    intro i hi j hj
    have haddr : elfProgramHeader m image i + BitVec.ofNat 32 j =
        image + BitVec.ofNat 32 ((elfPhoff m image).toNat + 32 * i + j) := by
      unfold elfProgramHeader elfPheader
      rw [if_neg hphoff, BitVec.ofNat_add, BitVec.ofNat_add, BitVec.ofNat_toNat,
        BitVec.setWidth_eq]
      simp only [BitVec.add_assoc]
    rw [haddr]
    exact pageOf_add_ofNat ha (by omega)
  refine ⟨hnum, hphdr, hpage, ?_⟩
  unfold elfSegments
  rw [hnum]
  refine List.map_congr_left fun i hi => ?_
  rw [hphdr i]
  exact segmentAt_congr fun j hj => hagree _ (hpage i (List.mem_range.mp hi) j hj)

/-- Whether an image is accepted depends on its first page. -/
theorem elfValidateLoaded_congr {m m' : Memory} {image : Addr} (ha : PageAligned image)
    (hagree : AgreeOnPage m m' (pageOf image)) :
    elfValidateLoaded m' image = elfValidateLoaded m image := by
  have hbyte : ∀ j < 4096, m' (image + BitVec.ofNat 32 j) = m (image + BitVec.ofNat 32 j) :=
    fun j hj => hagree _ (pageOf_add_ofNat ha hj)
  have h0 : m' image = m image := hagree _ rfl
  have hoff : elfPhoff m' image = elfPhoff m image := load32_ofNat_congr (j := 28) hbyte (by omega)
  unfold elfValidateLoaded elfValidSignature elfValidClass elfValidEncoding elfHasProgramHeader
  rw [hoff, h0, show m' (image + 1#32) = _ from hbyte 1 (by omega),
    show m' (image + 2#32) = _ from hbyte 2 (by omega),
    show m' (image + 3#32) = _ from hbyte 3 (by omega),
    show m' (image + 4#32) = _ from hbyte 4 (by omega),
    show m' (image + 5#32) = _ from hbyte 5 (by omega)]

/-- A process in a fresh kernel whose image is these bytes. -/
theorem elfReady_boot (bytes : List (BitVec 8))
    (hphoff : elfPhoff (elfBootMemory bytes) (blockAddr 4) ≠ 0#32)
    (hin : (elfPhoff (elfBootMemory bytes) (blockAddr 4)).toNat +
      32 * elfPhnum (elfBootMemory bytes) (blockAddr 4) ≤ 4096) :
    ∃ k f, ElfReady k f (blockAddr 4) ∧
      HeapOwns k.heap (chunkRuns f.chunk f.shape ++ elfBootRuns) ∧
      (k.procs f.process).task = blockAddr 9 ∧
      AgreeOnPage (elfBootMemory bytes) k.mem (pageOf (blockAddr 4)) ∧
      elfSegments k.mem (blockAddr 4) = elfSegments (elfBootMemory bytes) (blockAddr 4) := by
  obtain ⟨h₁, hp₁, ho₁⟩ := packed_bootKernel.kzalloc_owns heapOwns_bootKernel sizeofProcess
    (by decide) (by decide)
  obtain ⟨h₂, hp₂, ho₂⟩ := hp₁.kzalloc_owns ho₁ sizeofElfFile (by decide) (by decide)
  obtain ⟨h₃, hp₃, ho₃⟩ := hp₂.kzalloc_owns ho₂ 4096#32 (by decide) (by decide)
  obtain ⟨h₄, hp₄, ho₄⟩ := hp₃.kzalloc_owns ho₃ maerosUserProgramStackSize (by decide) (by decide)
  obtain ⟨h₅, hp₅, ho₅⟩ := hp₄.kzalloc_owns ho₄ sizeofTask (by decide) (by decide)
  have ho₅ : HeapOwns h₅ elfBootRuns := ho₅
  obtain ⟨k₁, hnew, -, -⟩ := Packed.pagingNew4gb
    (k := { bootKernel with heap := h₅, mem := elfBootMemory bytes }) hp₅ (by decide) taskChunkFlags
  obtain ⟨shape, ho, hat, hagree, -, hchunk, -⟩ := pagingNew4gb_owns hnew ho₅
  have himage : (blockAddr 4, 1) ∈ elfBootRuns := by simp [elfBootRuns]
  have hpage : InRun (blockAddr 4, 1) (pageOf (blockAddr 4)) := ⟨le_rfl, Nat.lt_succ_self _⟩
  have haligned : PageAligned (blockAddr 4) := by decide
  have hsame : AgreeOnPage (elfBootMemory bytes) k₁.mem (pageOf (blockAddr 4)) :=
    hagree _ himage _ hpage
  obtain ⟨hnum, hphdr, hin', hsegs⟩ := elfSegments_congr haligned hsame hphoff hin
  -- the image is a block of its own, and not one of the tables
  have hapart : ∀ t < 1024, pageOf (blockAddr 4) ≠ pageOf (shape.tables t) := by
    intro t ht heq
    have hmem : (shape.tables t, 1) ∈ chunkRuns (blockAddr (10 + 1025)) shape :=
      List.mem_append_left _ (List.mem_map.mpr ⟨t, List.mem_range.mpr ht, rfl⟩)
    have hap := (List.pairwise_append.mp ho.apart).2.2 _ hmem _ himage (pageOf (blockAddr 4))
    exact hap ⟨heq.ge, by rw [heq]; simp⟩ hpage
  refine ⟨{ k₁ with
      procs := fun _ => { Process.zero with
        filetype := processFiletypeElf, ptr := blockAddr 3, stack := blockAddr 5, task := blockAddr 9 }
      elfs := fun _ => freshElf (blockAddr 4)
      sched := ⟨fun _ => newTask (blockAddr (10 + 1025)) 0#32 0#32, 0#32, 0#32, 0#32⟩ },
    ⟨blockAddr 0, blockAddr (10 + 1025), shape⟩, ?_, ho, rfl, hsame, hsegs⟩
  have hfile : blockAddr 3 ≠ 0#32 := by decide
  have hne : blockAddr 4 ≠ 0#32 := by decide
  have htask : blockAddr 9 ≠ 0#32 := by decide
  have hstack : PageAligned (blockAddr 5) ∧ (blockAddr 5).toNat + 16384 < 2 ^ 32 := by decide
  refine ⟨⟨rfl, hfile, hne⟩, rfl, htask, rfl, hat, rfl, ⟨hapart, ?_⟩, hstack.1, hstack.2⟩
  intro i hi j hj t ht
  dsimp only at hi ⊢
  rw [hnum] at hi
  rw [hphdr, hin' i hi j hj]
  exact hapart t ht

/-- An image with one read-only segment, mapped at `0x400054`. -/
theorem elf_mapping_correct_small : ∃ (k k' : Kernel) (f : ProcFoot),
    ElfReady k f (blockAddr 4) ∧ processMapMemory f.process k = some (0, k') ∧
      LeadsTo k'.mem f.chunk 0x400054#32 (blockAddr 4 + 0x54#32) False := by
  have hsegs : elfSegments (elfBootMemory (elfImage [phdrBytes 1#32 0x54#32 0x400054#32 16#32 16#32
      5#32])) (blockAddr 4) = [⟨0x54#32, 0x400054#32, 16#32, 5#32⟩] := by decide +kernel
  obtain ⟨k, f, hready, -, -, -, hsame⟩ := elfReady_boot
    (elfImage [phdrBytes 1#32 0x54#32 0x400054#32 16#32 16#32 5#32]) (by decide +kernel)
    (by decide +kernel)
  rw [hsegs] at hsame
  have hlayout : ElfLayout (blockAddr 4) (elfSegments k.mem (blockAddr 4)) := by
    rw [hsame]
    refine ⟨by decide, ?_, ?_, by simp, ?_⟩
    · intro s hs
      obtain rfl := List.mem_singleton.mp hs
      exact ⟨by decide, by decide, by decide⟩
    · intro s hs
      obtain rfl := List.mem_singleton.mp hs
      decide
    · intro s hs p hp
      obtain rfl := List.mem_singleton.mp hs
      have hlow : 0x400054 / 4096 ≤ p := hp.1
      have hend : pageOf maerosProgramVirtualStackAddressEnd = 1019 := by decide
      unfold StackPage
      omega
  obtain ⟨k', hrun, hmapped, -, -⟩ := elf_mapping_correct hready hlayout
  refine ⟨k, k', f, hready, hrun, ?_⟩
  have hfirst := hmapped ⟨0x54#32, 0x400054#32, 16#32, 5#32⟩ (by rw [hsame]; simp) 0 (by decide)
  simpa using hfirst

end MaerOS.Analysis
