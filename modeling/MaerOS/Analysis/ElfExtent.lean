import MaerOS.Lib.Extent
import MaerOS.Analysis.ProcessLoad

/-!
# The extent of an ELF file in memory

`elf_process_pheaders` goes over the program headers and keeps, for the loaded segments,
the lowest start and the highest end, each with the physical address that belongs to
it. Null stands for "no segment yet" in both searches. A segment may start at the
virtual address 0; it is taken for none when the next one comes.
-/

set_option autoImplicit false

namespace MaerOS.Analysis

open MaerOS.Lib MaerOS.Model

/-- The program headers of the loaded segments, in the order of the table. -/
def loadPhdrs (mem : Memory) (header : Addr) : List Addr :=
  ((List.range (elfPhnum mem header)).map (elfProgramHeader mem header)).filter
    fun phdr => phdrType mem phdr = 1#32

/-- Where a segment starts. -/
def segmentStart (mem : Memory) (phdr : Addr) : ℕ := (phdrVaddr mem phdr).toNat

/-- Where the bytes of a segment that are in the file end. -/
def segmentEnd (mem : Memory) (phdr : Addr) : ℕ := (phdrVaddr mem phdr + phdrFilesz mem phdr).toNat

/-- The extent of the file is that of these segments: its base is the lowest start, its end the
highest end, and the physical addresses belong to segments that have them. -/
structure ExtentOf (mem : Memory) (phdrs : List Addr) (file : ElfFile) : Prop where
  base_le : ∀ p ∈ phdrs, file.virtual_base_address ≤ phdrVaddr mem p
  base : ∃ p ∈ phdrs, file.virtual_base_address = phdrVaddr mem p ∧
    file.physical_base_address = file.elf_memory + phdrOffset mem p
  le_end : ∀ p ∈ phdrs, phdrVaddr mem p + phdrFilesz mem p ≤ file.virtual_end_address
  end_ : ∃ p ∈ phdrs, file.virtual_end_address = phdrVaddr mem p + phdrFilesz mem p ∧
    file.physical_end_address = file.elf_memory + phdrOffset mem p + phdrFilesz mem p

/-- The record of a file whose image is at `elf_memory`, before the headers are looked at. -/
def freshElf (elf_memory : Addr) : ElfFile := { ElfFile.zero with elf_memory := elf_memory }

/-- The base belongs to the segment found so far, if there is one. -/
def BaseOf (mem : Memory) : Option Addr → ElfFile → Prop
  | none, file => file.virtual_base_address = 0#32
  | some p, file => file.virtual_base_address = phdrVaddr mem p ∧
      file.physical_base_address = file.elf_memory + phdrOffset mem p

/-- The end belongs to the segment found so far, if there is one. -/
def EndOf (mem : Memory) : Option Addr → ElfFile → Prop
  | none, file => file.virtual_end_address = 0#32
  | some p, file => file.virtual_end_address = phdrVaddr mem p + phdrFilesz mem p ∧
      file.physical_end_address = file.elf_memory + phdrOffset mem p + phdrFilesz mem p

section Extent

variable {mem : Memory} {file : ElfFile}

theorem toNat_eq_bot {v : BitVec 32} : v.toNat = ⊥ ↔ v = 0#32 := by
  rw [bot_eq_zero, BitVec.toNat_eq]
  rfl

/-- A segment replaces the base addresses when it lies lower or none is set. -/
theorem elfProcessPhdrPtLoad_base (mem : Memory) (file : ElfFile) (phdr : Addr) :
    (elfProcessPhdrPtLoad mem file phdr).2.virtual_base_address =
        (if file.virtual_base_address ≥ phdrVaddr mem phdr ∨ file.virtual_base_address = 0#32 then
          phdrVaddr mem phdr else file.virtual_base_address) ∧
      (elfProcessPhdrPtLoad mem file phdr).2.physical_base_address =
        if file.virtual_base_address ≥ phdrVaddr mem phdr ∨ file.virtual_base_address = 0#32 then
          file.elf_memory + phdrOffset mem phdr else file.physical_base_address := by
  unfold elfProcessPhdrPtLoad
  dsimp only
  split_ifs <;> simp

/-- A segment replaces the end addresses when it reaches higher or none is set. -/
theorem elfProcessPhdrPtLoad_end (mem : Memory) (file : ElfFile) (phdr : Addr) :
    (elfProcessPhdrPtLoad mem file phdr).2.virtual_end_address =
        (if file.virtual_end_address ≤ phdrVaddr mem phdr + phdrFilesz mem phdr ∨
          file.virtual_end_address = 0#32 then phdrVaddr mem phdr + phdrFilesz mem phdr
        else file.virtual_end_address) ∧
      (elfProcessPhdrPtLoad mem file phdr).2.physical_end_address =
        if file.virtual_end_address ≤ phdrVaddr mem phdr + phdrFilesz mem phdr ∨
          file.virtual_end_address = 0#32 then
          file.elf_memory + phdrOffset mem phdr + phdrFilesz mem phdr
        else file.physical_end_address := by
  unfold elfProcessPhdrPtLoad
  dsimp only
  split_ifs <;> simp_all

/-- The image is not moved. -/
theorem elfProcessPhdrPtLoad_memory (mem : Memory) (file : ElfFile) (phdr : Addr) :
    (elfProcessPhdrPtLoad mem file phdr).2.elf_memory = file.elf_memory := by
  unfold elfProcessPhdrPtLoad
  dsimp only
  split <;> split <;> rfl

/-- **One segment** is a round of the search for the lowest start. -/
theorem BaseOf.step {low : Option Addr} (h : BaseOf mem low file) (phdr : Addr) :
    BaseOf mem (lowStep (segmentStart mem) low phdr) (elfProcessPhdrPtLoad mem file phdr).2 := by
  obtain ⟨hv, hp⟩ := elfProcessPhdrPtLoad_base mem file phdr
  have hm := elfProcessPhdrPtLoad_memory mem file phdr
  cases low with
  | none =>
    have h0 : file.virtual_base_address = 0#32 := h
    rw [if_pos (.inr h0)] at hv hp
    exact ⟨hv, by rw [hp, hm]⟩
  | some q =>
    obtain ⟨hq, hphys⟩ := h
    have hiff : (file.virtual_base_address ≥ phdrVaddr mem phdr ∨
        file.virtual_base_address = 0#32) ↔
          (segmentStart mem phdr ≤ segmentStart mem q ∨ segmentStart mem q = ⊥) := by
      unfold segmentStart
      rw [hq, toNat_eq_bot, ge_iff_le, BitVec.le_def]
    unfold lowStep
    dsimp only
    by_cases htake : segmentStart mem phdr ≤ segmentStart mem q ∨ segmentStart mem q = ⊥
    · rw [if_pos (hiff.mpr htake)] at hv hp
      rw [if_pos htake]
      exact ⟨hv, by rw [hp, hm]⟩
    · rw [if_neg fun hc => htake (hiff.mp hc)] at hv hp
      rw [if_neg htake]
      exact ⟨hv.trans hq, by rw [hp, hm]; exact hphys⟩

/-- **One segment** is a round of the search for the highest end. -/
theorem EndOf.step {high : Option Addr} (h : EndOf mem high file) (phdr : Addr) :
    EndOf mem (highStep (segmentEnd mem) high phdr) (elfProcessPhdrPtLoad mem file phdr).2 := by
  obtain ⟨hv, hp⟩ := elfProcessPhdrPtLoad_end mem file phdr
  have hm := elfProcessPhdrPtLoad_memory mem file phdr
  cases high with
  | none =>
    have h0 : file.virtual_end_address = 0#32 := h
    rw [if_pos (.inr h0)] at hv hp
    exact ⟨hv, by rw [hp, hm]⟩
  | some q =>
    obtain ⟨hq, hphys⟩ := h
    have hiff : (file.virtual_end_address ≤ phdrVaddr mem phdr + phdrFilesz mem phdr ∨
        file.virtual_end_address = 0#32) ↔
          (segmentEnd mem q ≤ segmentEnd mem phdr ∨ segmentEnd mem q = ⊥) := by
      unfold segmentEnd
      rw [hq, toNat_eq_bot, BitVec.le_def]
    unfold highStep
    dsimp only
    by_cases htake : segmentEnd mem q ≤ segmentEnd mem phdr ∨ segmentEnd mem q = ⊥
    · rw [if_pos (hiff.mpr htake)] at hv hp
      rw [if_pos htake]
      exact ⟨hv, by rw [hp, hm]⟩
    · rw [if_neg fun hc => htake (hiff.mp hc)] at hv hp
      rw [if_neg htake]
      exact ⟨hv.trans hq, by rw [hp, hm]; exact hphys⟩

/-- **The loop** over the program headers carries out both searches over those of the loaded
segments. -/
theorem elfProcessPheadersLoop_eq (mem : Memory) (n : ℕ) : ∀ (i : ℕ) (file : ElfFile)
    (low high : Option Addr), BaseOf mem low file → EndOf mem high file →
      ∃ file', elfProcessPheadersLoop mem n i file 0 = (0, file') ∧
        file'.elf_memory = file.elf_memory ∧
        BaseOf mem ((((List.range' i n).map (elfProgramHeader mem file.elf_memory)).filter
          fun phdr => phdrType mem phdr = 1#32).foldl (lowStep (segmentStart mem)) low) file' ∧
        EndOf mem ((((List.range' i n).map (elfProgramHeader mem file.elf_memory)).filter
          fun phdr => phdrType mem phdr = 1#32).foldl (highStep (segmentEnd mem)) high) file' := by
  induction n with
  | zero =>
    intro i file low high hlow hhigh
    exact ⟨file, rfl, rfl, hlow, hhigh⟩
  | succ n ih =>
    intro i file low high hlow hhigh
    rw [List.range'_succ, List.map_cons]
    unfold elfProcessPheadersLoop elfProcessPheader
    by_cases hload : phdrType mem (elfProgramHeader mem file.elf_memory i) = 1#32
    · rw [if_pos hload, List.filter_cons_of_pos (by simpa using hload), List.foldl_cons,
        List.foldl_cons]
      have hm := elfProcessPhdrPtLoad_memory mem file (elfProgramHeader mem file.elf_memory i)
      obtain ⟨file', hrun, hmem, hbase, hend⟩ := ih (i + 1) _ _ _
        (hlow.step (elfProgramHeader mem file.elf_memory i))
        (hhigh.step (elfProgramHeader mem file.elf_memory i))
      rw [hm] at hmem hbase hend
      exact ⟨file', hrun, hmem, hbase, hend⟩
    · rw [if_neg hload, List.filter_cons_of_neg (by simpa using hload)]
      exact ih (i + 1) file low high hlow hhigh

/-- **`elf_process_pheaders`** of a fresh record. -/
theorem elfProcessPheaders_fresh (mem : Memory) (elf_memory : Addr) :
    ∃ file, elfProcessPheaders mem (freshElf elf_memory) = (0, file) ∧
      file.elf_memory = elf_memory ∧
      BaseOf mem (lowest (segmentStart mem) (loadPhdrs mem elf_memory)) file ∧
      EndOf mem (highest (segmentEnd mem) (loadPhdrs mem elf_memory)) file := by
  obtain ⟨file, hrun, hmem, hbase, hend⟩ := elfProcessPheadersLoop_eq mem
    (elfPhnum mem elf_memory) 0 (freshElf elf_memory) none none rfl rfl
  rw [← List.range_eq_range'] at hbase hend
  exact ⟨file, hrun, hmem, hbase, hend⟩

/-- **The extent of an ELF file** is that of its loaded segments exactly when none of them starts
at the virtual address 0, or the last one does. -/
theorem elf_extent_iff (mem : Memory) (elf_memory : Addr)
    (hsome : loadPhdrs mem elf_memory ≠ []) :
    ExtentOf mem (loadPhdrs mem elf_memory) (elfProcessPheaders mem (freshElf elf_memory)).2 ↔
      (∀ p ∈ loadPhdrs mem elf_memory, phdrVaddr mem p ≠ 0#32) ∨
        ∀ p ∈ (loadPhdrs mem elf_memory).getLast?, phdrVaddr mem p = 0#32 := by
  obtain ⟨file, hrun, hmem, hbase, hend⟩ := elfProcessPheaders_fresh mem elf_memory
  obtain ⟨low, hlow⟩ : ∃ low, lowest (segmentStart mem) (loadPhdrs mem elf_memory) = some low :=
    lowest_isSome hsome
  obtain ⟨high, hhigh, hhighest, hle⟩ := @highest_spec _ _ _ _ (segmentEnd mem) _ hsome
  rw [hlow] at hbase
  rw [hhighest] at hend
  have hiff := lowest_le_iff hlow
  simp only [segmentStart, toNat_eq_bot, ne_eq] at hiff
  rw [hrun, ← hiff]
  constructor
  · intro hextent p hp
    have := hextent.base_le p hp
    rwa [hbase.1, BitVec.le_def] at this
  · intro hleast
    refine ⟨fun p hp => ?_, ⟨low, lowest_mem _ low hlow, hbase⟩, fun p hp => ?_,
      ⟨high, hhigh, hend⟩⟩
    · rw [hbase.1, BitVec.le_def]
      exact hleast p hp
    · rw [hend.1, BitVec.le_def]
      exact hle p hp

end Extent

/-! ## Images -/

/-- The bytes of a word, the lowest first. -/
def wordBytes (w : BitVec 32) : List (BitVec 8) :=
  (List.range 4).map fun i => (w >>> (8 * i)).setWidth 8

/-- A program header. -/
def phdrBytes (type offset vaddr filesz memsz flags : BitVec 32) : List (BitVec 8) :=
  [type, offset, vaddr, vaddr, filesz, memsz, flags, 4096#32].flatMap wordBytes

/-- An executable for the i386, with these program headers right behind the ELF header. -/
def elfImage (phdrs : List (List (BitVec 8))) : List (BitVec 8) :=
  [0x7f#8, 0x45#8, 0x4c#8, 0x46#8, 1#8, 1#8, 1#8, 0#8, 0#8, 0#8, 0#8, 0#8, 0#8, 0#8, 0#8, 0#8,
    2#8, 0#8, 3#8, 0#8, 1#8, 0#8, 0#8, 0#8, 0#8, 0#8, 0x40#8, 0#8, 52#8, 0#8, 0#8, 0#8,
    0#8, 0#8, 0#8, 0#8, 0#8, 0#8, 0#8, 0#8, 52#8, 0#8, 32#8, 0#8, BitVec.ofNat 8 phdrs.length, 0#8,
    40#8, 0#8, 0#8, 0#8, 0#8, 0#8] ++ phdrs.flatten

/-- A segment at 0 and one behind it. -/
def zeroFirst : Memory := storeBytes (fun _ => 0#8) 0x01000000#32
  (elfImage [phdrBytes 1#32 0x1000#32 0#32 0x100#32 0x100#32 5#32,
    phdrBytes 1#32 0x2000#32 0x400000#32 0x100#32 0x100#32 6#32])

/-- The same segments the other way round. -/
def zeroLast : Memory := storeBytes (fun _ => 0#8) 0x01000000#32
  (elfImage [phdrBytes 1#32 0x2000#32 0x400000#32 0x100#32 0x100#32 6#32,
    phdrBytes 1#32 0x1000#32 0#32 0x100#32 0x100#32 5#32])

/-- With the segment at 0 in the end the extent is right. -/
theorem elf_extent_zero_last : loadPhdrs zeroLast 0x01000000#32 ≠ [] ∧
    ExtentOf zeroLast (loadPhdrs zeroLast 0x01000000#32)
      (elfProcessPheaders zeroLast (freshElf 0x01000000#32)).2 := by
  have hlist : loadPhdrs zeroLast 0x01000000#32 = [0x01000034#32, 0x01000054#32] := by
    decide +kernel
  have hlast : phdrVaddr zeroLast 0x01000054#32 = 0#32 := by decide +kernel
  have hsome : loadPhdrs zeroLast 0x01000000#32 ≠ [] := by simp [hlist]
  refine ⟨hsome, (elf_extent_iff zeroLast 0x01000000#32 hsome).mpr (.inr fun p hp => ?_)⟩
  obtain rfl : 0x01000054#32 = p := by simpa [hlist] using hp
  exact hlast

/-- With the segment at 0 in front it is not. -/
theorem elf_extent_zero_first : loadPhdrs zeroFirst 0x01000000#32 ≠ [] ∧
    ¬ ExtentOf zeroFirst (loadPhdrs zeroFirst 0x01000000#32)
        (elfProcessPheaders zeroFirst (freshElf 0x01000000#32)).2 := by
  have hlist : loadPhdrs zeroFirst 0x01000000#32 = [0x01000034#32, 0x01000054#32] := by
    decide +kernel
  have hfirst : phdrVaddr zeroFirst 0x01000034#32 = 0#32 := by decide +kernel
  have hsecond : phdrVaddr zeroFirst 0x01000054#32 = 0x400000#32 := by decide +kernel
  refine ⟨by simp [hlist], fun h => ?_⟩
  obtain ⟨file, hrun, -, hbase, -⟩ := elfProcessPheaders_fresh zeroFirst 0x01000000#32
  have hlow : lowest (segmentStart zeroFirst) (loadPhdrs zeroFirst 0x01000000#32) =
      some 0x01000054#32 := by
    simp [hlist, lowest, lowStep, segmentStart, hfirst]
  rw [hlow] at hbase
  have hle := h.base_le 0x01000034#32 (by simp [hlist])
  rw [hrun, hbase.1, hfirst, hsecond] at hle
  exact absurd hle (by decide)

end MaerOS.Analysis
