import MaerOS.Analysis.ElfMap
import MaerOS.Model.ElfReads

/-!
# Which bytes of an ELF image are read

No check of the loader knows the size of the file. `elfImageReads_eq` says how far the three
functions that look at headers read: up to `imageExtent`, which is computed from fields of the
file. So they read bytes behind the image exactly when that is more than the file has
(`elf_reads_iff`), as it is for a file that ends behind the ELF header. Where all reads are in the
image, the functions without checks do the same (`elfImageReads_refines`).
-/

set_option autoImplicit false

namespace MaerOS.Analysis

open MaerOS.Lib MaerOS.Model

/-- The number of bytes that `elf_validate_loaded` looks at. -/
def headerExtent (m : Memory) (header : Addr) : ℕ :=
  if m header ≠ 0x7f#8 then 1
  else if m (header + 1#32) ≠ 0x45#8 then 2
  else if m (header + 2#32) ≠ 0x4c#8 then 3
  else if m (header + 3#32) ≠ 0x46#8 then 4
  else if elfValidClass m header = false then 5
  else if elfValidEncoding m header = false then 6
  else 32

/-- The number of bytes of a program header that `elf_process_pheader` looks at. -/
def phdrExtent (m : Memory) (phdr : Addr) : ℕ := if phdrType m phdr = 1#32 then 20 else 4

section Reads

variable {m : Memory} {header : Addr} {image : List (BitVec 8)}

/-- `memcmp` ends at a difference. -/
theorem memcmpReads_differ (h : HoldsAt m header image) {off : BitVec 32} {c : BitVec 8}
    {cs : List (BitVec 8)} {f : ℤ → Option ℤ} {b : ℤ} (hf : ∀ r, r ≠ 0 → f r = some b)
    (hc : m (header + off) ≠ c) :
    (memcmpReads image off (c :: cs)).bind f = upTo image.length (off.toNat + 1) b := by
  rw [memcmpReads, read8_eq h, Option.bind_eq_bind, Option.bind_assoc]
  refine upTo_bind_of_ge (Nat.zero_le _) ?_
  rw [if_pos hc, upTo_zero]
  exact hf _ (by split_ifs <;> omega)

/-- Where it does not differ it goes on with the next byte. -/
theorem memcmpReads_same (h : HoldsAt m header image) {off : BitVec 32} {c : BitVec 8}
    {cs : List (BitVec 8)} {f : ℤ → Option ℤ} {b : ℤ} {e : ℕ} (hc : m (header + off) = c)
    (hle : off.toNat + 1 ≤ e)
    (hrest : (memcmpReads image (off + 1#32) cs).bind f = upTo image.length e b) :
    (memcmpReads image off (c :: cs)).bind f = upTo image.length e b := by
  rw [memcmpReads, read8_eq h, Option.bind_eq_bind, Option.bind_assoc]
  refine upTo_bind_of_le hle ?_
  rw [if_neg (not_not.mpr hc)]
  exact hrest

/-- Behind the signature the class, the encoding and the place of the program headers are read. -/
theorem elfValidateFieldsReads_eq (h : HoldsAt m header image) (hsize : image.length < 2 ^ 31) :
    ((read8 image 4#32).bind fun ei_class =>
      if ¬ (ei_class = 0#8 ∨ ei_class = 1#8) then some (-einformat)
      else (read8 image 5#32).bind fun ei_data =>
        if ¬ (ei_data = 0#8 ∨ ei_data = 1#8) then some (-einformat)
        else (read32 image 28#32).bind fun e_phoff =>
          if e_phoff = 0#32 then some (-einformat) else some maerosAllOk) =
      upTo image.length
        (if elfValidClass m header = false then 5
          else if elfValidEncoding m header = false then 6 else 32)
        (if (elfValidClass m header = true ∧ elfValidEncoding m header = true) ∧
          elfHasProgramHeader m header = true then maerosAllOk else -einformat) := by
  have hclass : elfValidClass m header = true ↔
      m (header + 4#32) = 0#8 ∨ m (header + 4#32) = 1#8 := by simp [elfValidClass]
  have hencoding : elfValidEncoding m header = true ↔
      m (header + 5#32) = 0#8 ∨ m (header + 5#32) = 1#8 := by simp [elfValidEncoding]
  rw [read8_eq h, read8_eq h, read32_eq h hsize]
  by_cases hc : elfValidClass m header = true
  · by_cases he : elfValidEncoding m header = true
    · rw [if_neg (by simp [hc]), if_neg (by simp [he])]
      refine upTo_bind_of_le (by simp) ?_
      rw [if_neg (not_not.mpr (hclass.mp hc))]
      refine upTo_bind_of_le (by simp) ?_
      rw [if_neg (not_not.mpr (hencoding.mp he))]
      refine upTo_bind_of_ge (Nat.zero_le _) ?_
      by_cases hp : load32 m (header + 28#32) = 0#32
      · simp [hp, elfHasProgramHeader, elfPhoff]
      · simp [hp, hc, he, elfHasProgramHeader, elfPhoff]
    · rw [if_neg (by simp [hc]), if_pos (by simpa using he), if_neg (by simp [he])]
      refine upTo_bind_of_le (by simp) ?_
      rw [if_neg (not_not.mpr (hclass.mp hc))]
      refine upTo_bind_of_ge (Nat.zero_le _) ?_
      rw [if_pos (by rwa [← hencoding]), upTo_zero]
  · rw [if_pos (by simpa using hc), if_neg (by simp [hc])]
    refine upTo_bind_of_ge (Nat.zero_le _) ?_
    rw [if_pos (by rwa [← hclass]), upTo_zero]

/-- `elf_validate_loaded` reads the bytes of `headerExtent`. -/
theorem elfValidateLoadedReads_eq (h : HoldsAt m header image) (hsize : image.length < 2 ^ 31) :
    elfValidateLoadedReads image =
      upTo image.length (headerExtent m header) (elfValidateLoaded m header) := by
  have hf : ∀ (rest : Option ℤ) (r : ℤ), r ≠ 0 →
      (if r ≠ 0 then pure (-einformat) else rest) = some (-einformat) :=
    fun rest r hr => if_pos hr
  unfold elfValidateLoadedReads elfSignature headerExtent elfValidateLoaded elfValidSignature
  rw [Option.bind_eq_bind]
  by_cases h0 : m header = 0x7f#8
  · refine memcmpReads_same h (by simpa using h0) ?_ ?_
    · simp only [h0, ne_eq, not_true_eq_false, if_false]
      split_ifs <;> simp
    by_cases h1 : m (header + 1#32) = 0x45#8
    · refine memcmpReads_same h (by simpa using h1) ?_ ?_
      · simp only [h0, h1, ne_eq, not_true_eq_false, if_false]
        split_ifs <;> simp
      by_cases h2 : m (header + 2#32) = 0x4c#8
      · refine memcmpReads_same h (by simpa using h2) ?_ ?_
        · simp only [h0, h1, h2, ne_eq, not_true_eq_false, if_false]
          split_ifs <;> simp
        by_cases h3 : m (header + 3#32) = 0x46#8
        · refine memcmpReads_same h (by simpa using h3) ?_ ?_
          · simp only [h0, h1, h2, h3, ne_eq, not_true_eq_false, if_false]
            split_ifs <;> simp
          simpa [h0, h1, h2, h3, memcmpReads] using elfValidateFieldsReads_eq h hsize
        · rw [memcmpReads_differ h (hf _) (by simpa using h3)]
          simp [h0, h1, h2, h3]
      · rw [memcmpReads_differ h (hf _) (by simpa using h2)]
        simp [h0, h1, h2]
    · rw [memcmpReads_differ h (hf _) (by simpa using h1)]
      simp [h0, h1]
  · rw [memcmpReads_differ h (hf _) (by simpa using h0)]
    simp [h0]

/-- A field of a program header. -/
theorem read32_phdr (h : HoldsAt m header image) (hsize : image.length < 2 ^ 31)
    {p : BitVec 32} (hp : p.toNat + 32 < 2 ^ 32) {j : ℕ} (hj : j < 32) :
    read32 image (p + BitVec.ofNat 32 j) =
      upTo image.length (p.toNat + (j + 4)) (load32 m (header + p + BitVec.ofNat 32 j)) := by
  have hoff : (p + BitVec.ofNat 32 j).toNat = p.toNat + j := by
    rw [BitVec.toNat_add, BitVec.toNat_ofNat]
    omega
  rw [read32_eq h hsize, hoff, BitVec.add_assoc, Nat.add_assoc]

/-- Of a segment to load the first 20 bytes of the program header are read. -/
theorem elfProcessPhdrPtLoadReads_eq (h : HoldsAt m header image) (hsize : image.length < 2 ^ 31)
    {p : BitVec 32} (hp : p.toNat + 32 < 2 ^ 32) (file : ElfFile) :
    elfProcessPhdrPtLoadReads image file p =
      upTo image.length (p.toNat + 20) (elfProcessPhdrPtLoad m file (header + p)) := by
  have hoffset : read32 image (p + 4#32) =
      upTo image.length (p.toNat + 8) (phdrOffset m (header + p)) :=
    read32_phdr h hsize hp (by omega)
  have hvaddr : read32 image (p + 8#32) =
      upTo image.length (p.toNat + 12) (phdrVaddr m (header + p)) :=
    read32_phdr h hsize hp (by omega)
  have hfilesz : read32 image (p + 16#32) =
      upTo image.length (p.toNat + 20) (phdrFilesz m (header + p)) :=
    read32_phdr h hsize hp (by omega)
  unfold elfProcessPhdrPtLoadReads elfProcessPhdrPtLoad
  rw [hvaddr, hoffset, hfilesz]
  refine upTo_bind_of_le (by omega) ?_
  -- the offset is read again for the end, which has been read up to by then
  have hend : ∀ file : ElfFile, ((upTo image.length (p.toNat + 20) (phdrFilesz m (header + p))).bind
      fun p_filesz => if file.virtual_end_address ≤ phdrVaddr m (header + p) + p_filesz ∨
          file.virtual_end_address = 0#32 then
        (upTo image.length (p.toNat + 8) (phdrOffset m (header + p))).bind fun p_offset =>
          some ((0 : ℤ), { file with
            virtual_end_address := phdrVaddr m (header + p) + p_filesz
            physical_end_address := file.elf_memory + p_offset + p_filesz })
        else some (0, file)) = upTo image.length (p.toNat + 20) (0,
        if file.virtual_end_address ≤ phdrVaddr m (header + p) + phdrFilesz m (header + p) ∨
          file.virtual_end_address = 0#32 then { file with
            virtual_end_address := phdrVaddr m (header + p) + phdrFilesz m (header + p)
            physical_end_address := file.elf_memory + phdrOffset m (header + p) +
              phdrFilesz m (header + p) } else file) := by
    intro file
    split_ifs with hc
    · refine upTo_bind_of_ge (show p.toNat + 8 ≤ _ by omega) ?_
      rw [if_pos hc]
      exact upTo_bind_of_ge (Nat.zero_le _) upTo_zero.symm
    · refine upTo_bind_of_ge (Nat.zero_le _) ?_
      rw [if_neg hc, upTo_zero]
  split_ifs with hc
  · rw [Option.bind_eq_bind]
    rw [Option.bind_eq_bind, Option.bind_assoc]
    refine upTo_bind_of_le (by omega) ?_
    exact hend _
  · exact hend _

/-- Of a program header the bytes of `phdrExtent` are read. -/
theorem elfProcessPheaderReads_eq (h : HoldsAt m header image) (hsize : image.length < 2 ^ 31)
    (file : ElfFile) (p : BitVec 32) :
    elfProcessPheaderReads image file p =
      upTo image.length (p.toNat + phdrExtent m (header + p))
        (elfProcessPheader m file (header + p)) := by
  unfold elfProcessPheaderReads elfProcessPheader phdrExtent
  rw [read32_eq h hsize, Option.bind_eq_bind]
  by_cases hp : p.toNat + 4 ≤ image.length
  · by_cases ht : phdrType m (header + p) = 1#32
    · rw [if_pos ht, if_pos ht]
      refine upTo_bind_of_le (by omega) ?_
      rw [if_pos (by exact ht)]
      exact elfProcessPhdrPtLoadReads_eq h hsize (by omega) file
    · rw [if_neg ht, if_neg ht]
      refine upTo_bind_of_ge (Nat.zero_le _) ?_
      rw [if_neg (by exact ht), upTo_zero]
      rfl
  · rw [upTo_of_lt (e := p.toNat + 4) (by omega), upTo_of_lt (by split_ifs <;> omega)]
    rfl

theorem elfProcessPheader_code (m : Memory) (file : ElfFile) (phdr : Addr) :
    (elfProcessPheader m file phdr).1 = 0 := by
  unfold elfProcessPheader
  split_ifs <;> rfl

variable (m header) in
/-- Where a program header begins in the image. -/
def phdrStart (i : ℕ) : ℕ := (elfPhoff m header).toNat + 32 * i

/-- The place of a program header, as the number it is. -/
theorem phdrStart_toNat (hphoff : (elfPhoff m header).toNat < 2 ^ 31) {i : ℕ} (hi : i < 2 ^ 16) :
    (elfPhoff m header + BitVec.ofNat 32 (32 * i)).toNat = phdrStart m header i := by
  unfold phdrStart
  rw [BitVec.toNat_add, BitVec.toNat_ofNat]
  omega

/-- The address of a program header, where there is a header table. -/
theorem elfProgramHeader_eq (hphoff : elfPhoff m header ≠ 0#32) (i : ℕ) :
    elfProgramHeader m header i = header + (elfPhoff m header + BitVec.ofNat 32 (32 * i)) := by
  unfold elfProgramHeader elfPheader
  rw [if_neg hphoff, BitVec.add_assoc]

/-- The loop of `elf_process_pheaders` reads up to what it needs of the last header. -/
theorem elfProcessPheadersLoopReads_eq (h : HoldsAt m header image)
    (hsize : image.length < 2 ^ 31) (hne : elfPhoff m header ≠ 0#32)
    (hphoff : (elfPhoff m header).toNat < 2 ^ 31) (hin : 32 ≤ image.length) :
    ∀ (n i : ℕ) (file : ElfFile) (res : ℤ), file.elf_memory = header → i + n < 2 ^ 16 →
      elfProcessPheadersLoopReads image (n + 1) i file res = upTo image.length
        (phdrStart m header (i + n) + phdrExtent m (elfProgramHeader m header (i + n)))
        (elfProcessPheadersLoop m (n + 1) i file res) := by
  have hstart : elfPheaderReads image = some (elfPhoff m header) := by
    unfold elfPheaderReads
    rw [read32_eq h hsize]
    exact if_pos hin
  have hround : ∀ (i : ℕ) (file : ElfFile), i < 2 ^ 16 →
      elfProcessPheaderReads image file (elfPhoff m header + BitVec.ofNat 32 (32 * i)) =
        upTo image.length (phdrStart m header i + phdrExtent m (elfProgramHeader m header i))
          (elfProcessPheader m file (elfProgramHeader m header i)) := by
    intro i file hi
    rw [elfProcessPheaderReads_eq h hsize, phdrStart_toNat hphoff hi, ← elfProgramHeader_eq hne]
  intro n
  induction n with
  | zero =>
    intro i file res hfile hi
    rw [elfProcessPheadersLoopReads, elfProcessPheadersLoop, hstart, Option.bind_eq_bind,
      Option.bind_some, hround i file hi, hfile, add_zero]
    refine upTo_bind_of_ge (Nat.zero_le _) ?_
    dsimp only
    rw [elfProcessPheader_code, if_neg (by omega), if_neg (by omega), upTo_zero]
    rfl
  | succ n ih =>
    intro i file res hfile hi
    have hle : phdrStart m header i + phdrExtent m (elfProgramHeader m header i) ≤
        phdrStart m header (i + (n + 1)) +
          phdrExtent m (elfProgramHeader m header (i + (n + 1))) := by
      unfold phdrStart phdrExtent
      split_ifs <;> omega
    rw [elfProcessPheadersLoopReads, elfProcessPheadersLoop, hstart, Option.bind_eq_bind,
      Option.bind_some, hround i file (by omega), hfile]
    refine upTo_bind_of_le hle ?_
    dsimp only
    rw [elfProcessPheader_code, if_neg (by omega), if_neg (by omega),
      ih (i + 1) _ _ (by rw [elfProcessPheader_memory, hfile]) (by omega),
      show i + 1 + n = i + (n + 1) from by omega]

/-- Which of `n + 1` segments from `i` on is the last that `process_map_elf` looks at. -/
def lastReached (accepted : ℕ → Prop) [DecidablePred accepted] : (n i : ℕ) → ℕ
  | 0, i => i
  | n + 1, i => if accepted i then lastReached accepted n (i + 1) else i

/-- Pages that are aligned are mapped without an error. -/
theorem pagingMapRange_aligned (directory : Addr) (flags : BitVec 32) : ∀ (count : ℕ) (mem : Memory)
    (virt phys : Addr), PageAligned virt → PageAligned phys →
    (pagingMapRange directory flags count mem virt phys 0).1 = 0 := by
  intro count
  induction count with
  | zero => simp [pagingMapRange]
  | succ count ih =>
    intro mem virt phys hv hp
    have hcode : (pagingMap mem directory virt phys flags).1 = 0 := by
      unfold PageAligned at hv hp
      simp [pagingMap, pagingSet, pagingGetIndexes, pagingIsAligned, hv, hp]
    have hnext : ∀ a : Addr, PageAligned a → PageAligned (a + BitVec.ofNat 32 pagingPageSize) := by
      intro a ha
      unfold PageAligned at *
      rw [BitVec.toNat_add, BitVec.toNat_ofNat]
      simp only [pagingPageSize]
      omega
    unfold pagingMapRange
    dsimp only
    rw [hcode, if_neg (by omega)]
    exact ih _ _ _ (hnext _ hv) (hnext _ hp)

/-- `paging_map_to` refuses arguments by themselves, whatever the page tables are. -/
theorem pagingMapTo_result (mem : Memory) (directory virt phys phys_end : Addr)
    (flags : BitVec 32) : (pagingMapTo mem directory virt phys phys_end flags).1 =
      if MapToValid virt phys phys_end then 0 else -einvarg := by
  split_ifs with hval
  · obtain ⟨hv, hp, he, hle⟩ := hval
    have hrange := pagingMapRange_aligned directory flags
      ((phys_end - phys).toNat / pagingPageSize) mem virt phys hv hp
    unfold PageAligned at hv hp he
    unfold pagingMapTo
    rw [if_neg (not_not.mpr hv), if_neg (not_not.mpr hp), if_neg (not_not.mpr he),
      if_neg (BitVec.not_lt.mpr hle)]
    exact hrange
  · rw [pagingMapTo_invalid hval]

/-- A segment is refused if its pages would end before they begin. -/
theorem Segment.mapTo_code (s : Segment) (mem : Memory) (elf_memory directory : Addr) :
    (pagingMapTo mem directory (pagingAlignToLowerPage s.vaddr) (s.physStart elf_memory)
      (s.physEnd elf_memory) s.rights).1 = if s.Accepted elf_memory then 0 else -einvarg := by
  rw [pagingMapTo_result]
  simp only [Segment.mapToValid_iff]

/-- The segment of a program header. -/
def segmentOf (m : Memory) (header : Addr) (i : ℕ) : Segment :=
  segmentAt m (elfProgramHeader m header i)

/-- One round of the loop of `process_map_elf` reads 28 bytes of the program header. -/
theorem processMapElfLoopReads_round (h : HoldsAt m header image) (hsize : image.length < 2 ^ 31)
    (hne : elfPhoff m header ≠ 0#32) (hphoff : (elfPhoff m header).toNat < 2 ^ 31)
    (elf_memory directory : Addr) {n i : ℕ} (hi : i < 2 ^ 16) (mem : Memory) (res : ℤ) :
    processMapElfLoopReads image elf_memory directory (elfPhoff m header) (n + 1) i mem res =
      (upTo image.length (phdrStart m header i + 28) (segmentOf m header i)).bind fun s =>
        let out := pagingMapTo mem directory (pagingAlignToLowerPage s.vaddr)
          (s.physStart elf_memory) (s.physEnd elf_memory) s.rights
        if out.1 < 0 then some out
        else processMapElfLoopReads image elf_memory directory (elfPhoff m header) n (i + 1) out.2
          out.1 := by
  have hstart := phdrStart_toNat hphoff hi
  have hfits : (elfPhoff m header + BitVec.ofNat 32 (32 * i)).toNat + 32 < 2 ^ 32 := by
    rw [hstart]
    unfold phdrStart
    omega
  have hread : ∀ j < 32, read32 image (elfPhoff m header + BitVec.ofNat 32 (32 * i) +
      BitVec.ofNat 32 j) = upTo image.length (phdrStart m header i + (j + 4))
        (load32 m (elfProgramHeader m header i + BitVec.ofNat 32 j)) := by
    intro j hj
    rw [read32_phdr h hsize hfits hj, hstart, elfProgramHeader_eq hne]
  have hoffset := hread 4 (by omega)
  have hvaddr := hread 8 (by omega)
  have hmemsz := hread 20 (by omega)
  have hflags := hread 24 (by omega)
  rw [processMapElfLoopReads]
  dsimp only
  rw [hoffset, hflags, hvaddr, hmemsz]
  by_cases hin : phdrStart m header i + 28 ≤ image.length
  · unfold upTo
    rw [if_pos (by omega), if_pos (by omega), if_pos (by omega), if_pos (by omega), if_pos hin]
    rfl
  · rw [upTo_of_lt (e := phdrStart m header i + (24 + 4)) (by omega),
      upTo_of_lt (e := phdrStart m header i + 28) (by omega)]
    cases upTo image.length (phdrStart m header i + (4 + 4))
      (load32 m (elfProgramHeader m header i + BitVec.ofNat 32 4)) <;> rfl

theorem lastReached_ge (accepted : ℕ → Prop) [DecidablePred accepted] (n : ℕ) :
    ∀ i, i ≤ lastReached accepted n i := by
  induction n with
  | zero => simp [lastReached]
  | succ n ih =>
    intro i
    rw [lastReached]
    split_ifs
    · exact (Nat.le_succ i).trans (ih (i + 1))
    · exact le_rfl

/-- A segment that is refused ends the loop. -/
theorem processMapElfLoopReads_refused (h : HoldsAt m header image)
    (hsize : image.length < 2 ^ 31) (hne : elfPhoff m header ≠ 0#32)
    (hphoff : (elfPhoff m header).toNat < 2 ^ 31) (elf_memory directory : Addr) {n i : ℕ}
    (hi : i < 2 ^ 16) (hacc : ¬ (segmentOf m header i).Accepted elf_memory) (mem : Memory)
    (res : ℤ) :
    (processMapElfLoopReads image elf_memory directory (elfPhoff m header) (n + 1) i mem res).map
      Prod.fst = upTo image.length (phdrStart m header i + 28) (-einvarg) := by
  have hcode := (segmentOf m header i).mapTo_code mem elf_memory directory
  rw [if_neg hacc] at hcode
  rw [processMapElfLoopReads_round h hsize hne hphoff _ _ hi, Option.map_bind]
  refine upTo_bind_of_ge (Nat.zero_le _) ?_
  dsimp only [Function.comp]
  rw [upTo_zero, if_pos (by rw [hcode]; decide), Option.map_some, hcode]

/-- The loop of `process_map_elf` reads up to the flags of the last header it reaches. -/
theorem processMapElfLoopReads_eq (h : HoldsAt m header image) (hsize : image.length < 2 ^ 31)
    (hne : elfPhoff m header ≠ 0#32) (hphoff : (elfPhoff m header).toNat < 2 ^ 31)
    (elf_memory directory : Addr) : ∀ (n i : ℕ) (mem : Memory) (res : ℤ) (pm : ℕ → BitVec 32),
      i + n < 2 ^ 16 →
      (processMapElfLoopReads image elf_memory directory (elfPhoff m header) (n + 1) i mem res).map
          Prod.fst = upTo image.length
        (phdrStart m header
          (lastReached (fun j => (segmentOf m header j).Accepted elf_memory) n i) + 28)
        (mapSegments elf_memory ((List.range' i (n + 1)).map (segmentOf m header)) pm).1 := by
  intro n
  induction n with
  | zero =>
    intro i mem res pm hi
    have hcode := (segmentOf m header i).mapTo_code mem elf_memory directory
    rw [lastReached, List.range'_one, List.map_singleton, mapSegments]
    by_cases hacc : (segmentOf m header i).Accepted elf_memory
    · rw [if_pos hacc] at hcode ⊢
      rw [processMapElfLoopReads_round h hsize hne hphoff _ _ (by omega), Option.map_bind]
      refine upTo_bind_of_ge (Nat.zero_le _) ?_
      dsimp only [Function.comp]
      rw [upTo_zero, hcode, if_neg (by omega)]
      rfl
    · rw [if_neg hacc]
      exact processMapElfLoopReads_refused h hsize hne hphoff _ _ (by omega) hacc mem res
  | succ n ih =>
    intro i mem res pm hi
    have hcode := (segmentOf m header i).mapTo_code mem elf_memory directory
    rw [lastReached, List.range'_succ, List.map_cons, mapSegments]
    by_cases hacc : (segmentOf m header i).Accepted elf_memory
    · rw [if_pos hacc] at hcode ⊢
      rw [processMapElfLoopReads_round h hsize hne hphoff _ _ (by omega), Option.map_bind,
        if_pos hacc]
      refine upTo_bind_of_le ?_ ?_
      · have := lastReached_ge (fun j => (segmentOf m header j).Accepted elf_memory) n (i + 1)
        unfold phdrStart
        omega
      · dsimp only [Function.comp]
        rw [hcode, if_neg (by omega)]
        exact ih (i + 1) _ _ _ (by omega)
    · rw [if_neg hacc, if_neg hacc]
      exact processMapElfLoopReads_refused h hsize hne hphoff _ _ (by omega) hacc mem res

variable {last : ℕ}

/-- `elf_process_pheaders` reads `e_phnum` and the program headers. -/
theorem elfProcessPheadersReads_eq (h : HoldsAt m header image) (hsize : image.length < 2 ^ 31)
    (hne : elfPhoff m header ≠ 0#32) (hphoff : (elfPhoff m header).toNat < 2 ^ 31)
    (hlast : elfPhnum m header = last + 1) {file : ElfFile} (hfile : file.elf_memory = header) :
    elfProcessPheadersReads image file = upTo image.length
      (max 46 (phdrStart m header last + phdrExtent m (elfProgramHeader m header last)))
      (elfProcessPheaders m file) := by
  have hlt : last + 1 < 2 ^ 16 := hlast ▸ (load16 m (header + 44#32)).isLt
  unfold elfProcessPheadersReads elfProcessPheaders
  rw [read16_eq h hsize, hfile, hlast, Option.bind_eq_bind]
  by_cases hin : 46 ≤ image.length
  · refine upTo_bind ?_
    rw [show (load16 m (header + 44#32)).toNat = last + 1 from hlast,
      elfProcessPheadersLoopReads_eq h hsize hne hphoff (by omega) last 0 file 0 hfile (by omega),
      Nat.zero_add]
  · rw [upTo_of_lt (by simp; omega), upTo_of_lt (by omega)]
    rfl

/-- `process_map_elf` reads them again, and maps the segments. -/
theorem processMapElfReads_eq (h : HoldsAt m header image) (hsize : image.length < 2 ^ 31)
    (hne : elfPhoff m header ≠ 0#32) (hphoff : (elfPhoff m header).toNat < 2 ^ 31)
    (hlast : elfPhnum m header = last + 1) (elf_memory directory : Addr) (mem : Memory)
    (pm : ℕ → BitVec 32) :
    (processMapElfReads image elf_memory directory mem).map Prod.fst = upTo image.length
      (max 46 (phdrStart m header
        (lastReached (fun j => (segmentOf m header j).Accepted elf_memory) last 0) + 28))
      (mapSegments elf_memory (elfSegments m header) pm).1 := by
  have hlt : last + 1 < 2 ^ 16 := hlast ▸ (load16 m (header + 44#32)).isLt
  unfold processMapElfReads elfPheaderReads elfSegments
  rw [read32_eq h hsize, read16_eq h hsize, hlast, List.range_eq_range', Option.bind_eq_bind,
    Option.map_bind]
  refine upTo_bind_of_le (by simp) ?_
  dsimp only [Function.comp]
  rw [Option.bind_eq_bind, Option.map_bind]
  refine upTo_bind ?_
  dsimp only [Function.comp]
  rw [show (load16 m (header + 44#32)).toNat = last + 1 from hlast]
  exact processMapElfLoopReads_eq h hsize hne hphoff elf_memory directory last 0 mem 0 pm (by omega)

end Reads

/-! ## The image -/

/-- The header passes the checks of `elf_validate_loaded`. -/
def HeaderGood (m : Memory) (header : Addr) : Prop :=
  elfValidSignature m header = true ∧ elfValidClass m header = true ∧
    elfValidEncoding m header = true ∧ elfHasProgramHeader m header = true

instance (m : Memory) (header : Addr) : Decidable (HeaderGood m header) :=
  inferInstanceAs (Decidable (_ ∧ _))

/-- How far the image is read. Where no check of the ELF header fails the last program header
counts, and its flags only if every segment before it was mapped. -/
def imageExtent (m : Memory) (elf_memory : Addr) : ℕ :=
  if HeaderGood m elf_memory then
    match elfPhnum m elf_memory with
    | 0 => 46
    | last + 1 => max 46 (max
        (phdrStart m elf_memory last + phdrExtent m (elfProgramHeader m elf_memory last))
        (phdrStart m elf_memory
          (lastReached (fun j => (segmentOf m elf_memory j).Accepted elf_memory) last 0) + 28))
  else headerExtent m elf_memory

/-- What comes of an image. -/
def imageResult (m : Memory) (elf_memory : Addr) : ℤ :=
  if HeaderGood m elf_memory then (mapSegments elf_memory (elfSegments m elf_memory) selfMap).1
  else -einformat

/-- The bytes of the image that are looked at are among the first `n`: those of the ELF header
until a check fails, and where none fails those of the last program header. -/
def ReadsFit (m : Memory) (elf_memory : Addr) (n : ℕ) : Prop :=
  headerExtent m elf_memory ≤ n ∧ (HeaderGood m elf_memory → 46 ≤ n ∧
    ∀ last, elfPhnum m elf_memory = last + 1 →
      phdrStart m elf_memory last + phdrExtent m (elfProgramHeader m elf_memory last) ≤ n ∧
      ((∀ j < last, (segmentOf m elf_memory j).Accepted elf_memory) →
        phdrStart m elf_memory last + 28 ≤ n))

section Image

variable {m : Memory} {elf_memory directory : Addr} {image : List (BitVec 8)} {last : ℕ}

theorem elfValidateLoaded_good : elfValidateLoaded m elf_memory =
    if HeaderGood m elf_memory then maerosAllOk else -einformat := by
  unfold elfValidateLoaded
  by_cases hgood : HeaderGood m elf_memory
  · obtain ⟨hsig, hclass, hencoding, hphoff⟩ := id hgood
    rw [if_pos hgood, if_pos (by simp [hsig, hclass, hencoding, hphoff])]
  · rw [if_neg hgood, if_neg]
    simpa [HeaderGood, and_assoc] using hgood

theorem headerExtent_good (hgood : HeaderGood m elf_memory) : headerExtent m elf_memory = 32 := by
  obtain ⟨hsig, hclass, hencoding, -⟩ := hgood
  simp only [elfValidSignature, Bool.and_eq_true, beq_iff_eq] at hsig
  simp [headerExtent, hsig, hclass, hencoding]

/-- All segments but the last are accepted iff the last is reached. -/
theorem lastReached_le_iff (accepted : ℕ → Prop) [DecidablePred accepted] (n : ℕ) : ∀ i,
    lastReached accepted n i ≤ i + n ∧
      (lastReached accepted n i = i + n ↔ ∀ j, i ≤ j → j < i + n → accepted j) := by
  induction n with
  | zero =>
    intro i
    simp only [lastReached, add_zero, le_refl, true_and, true_iff]
    omega
  | succ n ih =>
    intro i
    obtain ⟨hle, hiff⟩ := ih (i + 1)
    rw [lastReached]
    split_ifs with hacc
    · refine ⟨by omega, ?_⟩
      rw [show i + (n + 1) = i + 1 + n from by omega, hiff]
      constructor
      · intro hall j hij hj
        rcases Nat.eq_or_lt_of_le hij with rfl | hlt
        · exact hacc
        · exact hall j hlt hj
      · exact fun hall j hij hj => hall j (by omega) hj
    · exact ⟨by omega, iff_of_false (by omega) fun hall => hacc (hall i le_rfl (by omega))⟩

theorem imageExtent_le_iff (n : ℕ) : imageExtent m elf_memory ≤ n ↔ ReadsFit m elf_memory n := by
  unfold imageExtent ReadsFit
  by_cases hgood : HeaderGood m elf_memory
  · rw [if_pos hgood, headerExtent_good hgood]
    simp only [hgood, true_implies]
    cases hcount : elfPhnum m elf_memory with
    | zero =>
      simp only [Nat.zero_ne_add_one, false_implies, implies_true, and_true]
      omega
    | succ last =>
      obtain ⟨hle, hiff⟩ := lastReached_le_iff
        (fun j => (segmentOf m elf_memory j).Accepted elf_memory) last 0
      simp only [Nat.zero_add, Nat.zero_le, true_implies] at hle hiff
      simp only [max_le_iff, Nat.add_right_cancel_iff, forall_eq']
      by_cases hall : ∀ j < last, (segmentOf m elf_memory j).Accepted elf_memory
      · rw [hiff.mpr hall]
        have hheader : 46 ≤ n → 32 ≤ n := fun h => by omega
        tauto
      · -- the last segment is not reached, and headers before it end before it begins
        have hlt := lt_of_le_of_ne hle fun heq => hall (hiff.mp heq)
        have hbefore : phdrStart m elf_memory (lastReached
            (fun j => (segmentOf m elf_memory j).Accepted elf_memory) last 0) + 28 ≤
              phdrStart m elf_memory last := by
          unfold phdrStart
          omega
        simp only [hall, false_implies, and_true]
        omega
  · rw [if_neg hgood]
    simp only [hgood, false_implies, and_true]

/-- A good header: the reads of the three functions, one after the other. -/
theorem elfImageReads_good (h : HoldsAt m elf_memory image) (hsize : image.length < 2 ^ 31)
    (hempty : image ≠ []) (hgood : HeaderGood m elf_memory) {e₁ e₂ : ℕ} {file : ElfFile} {res : ℤ}
    (hproc : elfProcessPheadersReads image (freshElf elf_memory) = upTo image.length e₁ (0, file))
    (hmap : (processMapElfReads image elf_memory directory m).map Prod.fst =
      upTo image.length e₂ res) :
    elfImageReads image elf_memory directory m =
      upTo image.length (max 32 (max e₁ e₂)) res := by
  unfold elfImageReads
  rw [if_neg hempty, elfValidateLoadedReads_eq h hsize, elfValidateLoaded_good, if_pos hgood,
    headerExtent_good hgood, ← freshElf, hproc, Option.bind_eq_bind]
  refine upTo_bind ?_
  rw [if_neg (by decide), Option.bind_eq_bind]
  refine upTo_bind ?_
  dsimp only
  rw [if_neg (by omega), ← hmap]
  cases processMapElfReads image elf_memory directory m <;> rfl

/-- Without program headers only their number is read. -/
theorem elfImageReads_zero (h : HoldsAt m elf_memory image) (hsize : image.length < 2 ^ 31)
    (hempty : image ≠ []) (hgood : HeaderGood m elf_memory) (hcount : elfPhnum m elf_memory = 0) :
    elfImageReads image elf_memory directory m = upTo image.length 46 0 := by
  have hcount : (load16 m (elf_memory + 44#32)).toNat = 0 := hcount
  have hproc : elfProcessPheadersReads image (freshElf elf_memory) =
      upTo image.length 46 (0, freshElf elf_memory) := by
    unfold elfProcessPheadersReads
    rw [read16_eq h hsize]
    refine upTo_bind_of_ge (Nat.zero_le _) ?_
    rw [hcount, upTo_zero]
    rfl
  have hmap : (processMapElfReads image elf_memory directory m).map Prod.fst =
      upTo image.length 46 0 := by
    unfold processMapElfReads elfPheaderReads
    rw [read32_eq h hsize, read16_eq h hsize, Option.bind_eq_bind, Option.map_bind]
    refine upTo_bind_of_le (by simp) ?_
    dsimp only [Function.comp]
    rw [Option.bind_eq_bind, Option.map_bind]
    refine upTo_bind_of_ge (Nat.zero_le _) ?_
    dsimp only [Function.comp]
    rw [hcount, upTo_zero]
    rfl
  exact elfImageReads_good h hsize hempty hgood hproc hmap

/-- When the program headers begin far behind the image, the first of them is read there. -/
theorem elfProcessPheadersReads_far (h : HoldsAt m elf_memory image)
    (hsize : image.length < 2 ^ 31) (hphoff : 2 ^ 31 ≤ (elfPhoff m elf_memory).toNat)
    (hlast : elfPhnum m elf_memory = last + 1) (file : ElfFile) :
    elfProcessPheadersReads image file = none := by
  have hfirst : elfProcessPheaderReads image file
      (elfPhoff m elf_memory + BitVec.ofNat 32 (32 * 0)) = none := by
    rw [elfProcessPheaderReads_eq h hsize]
    refine upTo_of_lt ?_
    simp only [mul_zero, BitVec.add_zero]
    omega
  have hloop : elfProcessPheadersLoopReads image (last + 1) 0 file 0 = none := by
    unfold elfProcessPheadersLoopReads elfPheaderReads
    rw [read32_eq h hsize]
    refine (upTo_bind_of_le (s := (0, file)) (show _ ≤ 2 ^ 31 by simp) ?_).trans (upTo_of_lt hsize)
    rw [show load32 m (elf_memory + 28#32) = elfPhoff m elf_memory from rfl, hfirst,
      upTo_of_lt hsize]
    rfl
  unfold elfProcessPheadersReads
  rw [read16_eq h hsize, Option.bind_eq_bind]
  refine (upTo_bind_of_le (s := (0, file)) (show _ ≤ 2 ^ 31 by simp) ?_).trans (upTo_of_lt hsize)
  rw [show (load16 m (elf_memory + 44#32)).toNat = last + 1 from hlast, hloop, upTo_of_lt hsize]

/-- **How far an image is read**, and what comes of it if all that is in it. -/
theorem elfImageReads_eq (h : HoldsAt m elf_memory image) (hsize : image.length < 2 ^ 31)
    (hempty : image ≠ []) : elfImageReads image elf_memory directory m =
      upTo image.length (imageExtent m elf_memory) (imageResult m elf_memory) := by
  unfold imageExtent imageResult
  by_cases hgood : HeaderGood m elf_memory
  · have hne : elfPhoff m elf_memory ≠ 0#32 := by
      simpa [elfHasProgramHeader] using hgood.2.2.2
    rw [if_pos hgood, if_pos hgood]
    cases hcount : elfPhnum m elf_memory with
    | zero =>
      rw [elfImageReads_zero h hsize hempty hgood hcount, elfSegments, hcount]
      rfl
    | succ last =>
      by_cases hphoff : (elfPhoff m elf_memory).toNat < 2 ^ 31
      · have hproc := elfProcessPheadersReads_eq h hsize hne hphoff hcount
          (show (freshElf elf_memory).elf_memory = elf_memory from rfl)
        have hmap := processMapElfReads_eq h hsize hne hphoff hcount elf_memory directory m selfMap
        obtain ⟨file, hfile, -⟩ := elfProcessPheaders_fresh m elf_memory
        rw [elfImageReads_good h hsize hempty hgood (hproc.trans (congrArg _ hfile)) hmap]
        congr 1
        dsimp only
        omega
      · rw [not_lt] at hphoff
        rw [upTo_of_lt (by unfold phdrStart; dsimp only; omega)]
        unfold elfImageReads
        rw [if_neg hempty, elfValidateLoadedReads_eq h hsize, elfValidateLoaded_good,
          if_pos hgood, elfProcessPheadersReads_far h hsize hphoff hcount]
        unfold upTo
        split_ifs <;> rfl
  · unfold elfImageReads
    rw [if_neg hgood, if_neg hgood, if_neg hempty, elfValidateLoadedReads_eq h hsize,
      elfValidateLoaded_good, if_neg hgood, Option.bind_eq_bind]
    refine upTo_bind_of_ge (Nat.zero_le _) ?_
    rw [if_pos (by decide), upTo_zero]
    rfl

/-- **Which reads lie in the file.** Validating an image of `n` bytes, going through its program
headers and mapping its segments reads nothing behind it iff it is empty or the bytes
that are looked at fit. `kzalloc` gives no buffer larger than the heap. -/
theorem elf_reads_iff (h : HoldsAt m elf_memory image)
    (hsize : image.length ≤ maerosHeapSizeBytes) (directory : Addr) :
    (elfImageReads image elf_memory directory m).isSome ↔
      image = [] ∨ ReadsFit m elf_memory image.length := by
  by_cases hempty : image = []
  · simp [hempty, elfImageReads]
  · rw [elfImageReads_eq h (hsize.trans_lt (by decide)) hempty, upTo_isSome, imageExtent_le_iff,
      or_iff_right hempty]

/-- Where all reads are checked and lie in the file, `process_map_elf` ends the same way without
the checks. -/
theorem elfImageReads_refines {k : Kernel} {f : ProcFoot} {res : ℤ}
    (hready : ElfReady k f elf_memory) (h : HoldsAt k.mem elf_memory image)
    (hsize : image.length ≤ maerosHeapSizeBytes) (hempty : image ≠ [])
    (hvalid : elfValidateLoaded k.mem elf_memory = maerosAllOk)
    (hrun : elfImageReads image elf_memory directory k.mem = some res) :
    ∃ k', processMapElf f.process k = some (res, k') := by
  have hgood : HeaderGood k.mem elf_memory := by
    rw [elfValidateLoaded_good] at hvalid
    by_contra hbad
    rw [if_neg hbad] at hvalid
    exact absurd hvalid (by decide)
  obtain ⟨mem, hmap, -⟩ := processMapElf_spec hready.dir hready.task hready.fresh
    hready.elf.file hready.elf_memory (hready.elf_memory ▸ hready.elf.image) hready.table
  rw [elfImageReads_eq h (hsize.trans_lt (by decide)) hempty, imageResult, if_pos hgood] at hrun
  unfold upTo at hrun
  split_ifs at hrun
  rw [← Option.some.inj hrun]
  exact ⟨_, hmap⟩

end Image

/-! ## Two files -/

/-- An executable of 84 bytes with one segment. -/
def wholeImage : List (BitVec 8) := elfImage [phdrBytes 1#32 0#32 0x400000#32 84#32 84#32 5#32]

/-- Its first 52 bytes: the program header is missing. -/
def truncatedImage : List (BitVec 8) := wholeImage.take 52

theorem holdsAt_storeBytes (m : Memory) (base : Addr) (bytes : List (BitVec 8)) :
    HoldsAt (storeBytes m base bytes) base bytes := by
  intro off hoff
  have hback : base + off - base = off := by bv_omega
  unfold storeBytes
  rw [hback, List.getD_eq_getElem _ _ hoff]

/-- The whole file is read within its bounds. -/
theorem elf_reads_whole : (elfImageReads wholeImage (blockAddr 4) 0#32
    (storeBytes (fun _ => 0#8) (blockAddr 4) wholeImage)).isSome := by
  refine (elf_reads_iff (holdsAt_storeBytes _ _ _) (by decide) 0#32).mpr (.inr ?_)
  rw [← imageExtent_le_iff]
  decide +kernel

/-- Of the truncated one the missing program header is read. -/
theorem elf_reads_truncated : HoldsAt (storeBytes (fun _ => 0#8) (blockAddr 4) truncatedImage)
      (blockAddr 4) truncatedImage ∧ truncatedImage.length = 52 ∧
    elfImageReads truncatedImage (blockAddr 4) 0#32
      (storeBytes (fun _ => 0#8) (blockAddr 4) truncatedImage) = none :=
  ⟨holdsAt_storeBytes _ _ _, by decide, by decide +kernel⟩

end MaerOS.Analysis
