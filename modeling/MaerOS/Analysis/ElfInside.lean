import MaerOS.Analysis.ElfMap
import Mathlib.Data.List.TakeWhile

/-!
# What mapping an ELF image makes accessible

The range of a segment is computed from fields of its program header, and no field is
compared with the size of the image. So a segment can lead behind the image, to
whatever lies there. `elf_inside_iff` says when none does: every page of a segment that
is mapped, and not mapped again by a later one, is a page of the image, unless it is mapped
to itself for reading as it was before.
-/

set_option autoImplicit false

namespace MaerOS.Analysis

open MaerOS.Lib MaerOS.Model

/-- The segments up to the first that is refused. -/
def reachedSegments (image : Addr) (ss : List Segment) : List Segment :=
  ss.takeWhile fun s => s.Accepted image

/-- Of these segments `s` is the last one that covers the page. -/
def LastCovers (image : Addr) (ss : List Segment) (s : Segment) (p : ℕ) : Prop :=
  ∃ pre post, ss = pre ++ s :: post ∧ s.Covers image p ∧ ∀ t ∈ post, ¬ t.Covers image p

/-- At the virtual page `p` the segment leads into the `n` blocks of the image, or to the page
itself for reading. -/
def Segment.Inside (image : Addr) (n : ℕ) (s : Segment) (p : ℕ) : Prop :=
  InRun (image, n) (pageOf (s.target image p)) ∨
    (s.flags &&& 2#32 = 0#32 ∧ pageOf (s.target image p) = p)

/-- Every entry that `process_map_elf` changes leads into the `n` blocks of the image. -/
def MapsInside (k : Kernel) (f : ProcFoot) (image : Addr) (n : ℕ) : Prop :=
  ∃ res k', processMapElf f.process k = some (res, k') ∧ ∀ v : Addr,
    pagingGet k'.mem (load32 k'.mem f.chunk) (pagingAlignToLowerPage v) ≠
        pagingGet k.mem (load32 k.mem f.chunk) (pagingAlignToLowerPage v) →
      InRun (image, n) (pageOf (pagingGetPhysicalAddress k'.mem (load32 k'.mem f.chunk) v))

section Inside

variable {image : Addr} {ss : List Segment} {s : Segment} {p n : ℕ}

/-- Segments behind a refused one are not mapped. -/
theorem mapSegments_reached (ss : List Segment) : ∀ pm,
    (mapSegments image ss pm).2 = (mapSegments image (reachedSegments image ss) pm).2 := by
  induction ss with
  | nil => simp [reachedSegments]
  | cons s ss ih =>
    intro pm
    unfold reachedSegments
    by_cases hacc : s.Accepted image
    · rw [List.takeWhile_cons_of_pos (by simpa using hacc), mapSegments, mapSegments, if_pos hacc,
        if_pos hacc]
      exact ih _
    · rw [List.takeWhile_cons_of_neg (by simpa using hacc), mapSegments, mapSegments, if_neg hacc]

/-- A page has the entry of the last segment that covers it. -/
theorem mapSegments_last (hall : ∀ t ∈ ss, t.Accepted image) (hlast : LastCovers image ss s p) :
    ∀ pm, (mapSegments image ss pm).2 p = s.target image p ||| s.rights := by
  obtain ⟨pre, post, rfl, hp, hpost⟩ := hlast
  induction pre with
  | nil =>
    intro pm
    rw [List.nil_append, mapSegments, if_pos (hall s (by simp)), mapSegments_none hpost,
      s.mapPages_covers hp]
  | cons t pre ih =>
    intro pm
    rw [List.cons_append, mapSegments, if_pos (hall t (by simp))]
    exact ih (fun u hu => hall u (List.mem_cons_of_mem _ hu)) _

/-- A page is covered by no segment, or by a last one. -/
theorem lastCovers_or (ss : List Segment) (p : ℕ) :
    (∀ s ∈ ss, ¬ s.Covers image p) ∨ ∃ s, LastCovers image ss s p := by
  induction ss with
  | nil => simp
  | cons t ss ih =>
    rcases ih with hno | ⟨s, pre, post, rfl, hp, hpost⟩
    · by_cases ht : t.Covers image p
      · exact .inr ⟨t, [], ss, rfl, ht, hno⟩
      · exact .inl (by simpa [ht] using hno)
    · exact .inr ⟨s, t :: pre, post, rfl, hp, hpost⟩

theorem Segment.target_aligned (s : Segment) (p : ℕ) : PageAligned (s.target image p) := by
  have ha : PageAligned (s.physStart image) := (pagingAlignToLowerPage_spec _).1
  unfold PageAligned Segment.target at *
  rw [BitVec.toNat_add, BitVec.toNat_ofNat]
  omega

/-- The entry of a segment is that of the fresh directory iff the page is mapped to itself for
reading. -/
theorem Segment.entry_eq_self (s : Segment) {p : ℕ} (hp : p < 2 ^ 20) :
    s.target image p ||| s.rights = selfMap p ↔
      s.flags &&& 2#32 = 0#32 ∧ pageOf (s.target image p) = p := by
  have ha := @Segment.target_aligned image s p
  have hself : PageAligned (BitVec.ofNat 32 (4096 * p)) := by
    unfold PageAligned
    rw [BitVec.toNat_ofNat]
    omega
  have hpage : pageOf (BitVec.ofNat 32 (4096 * p)) = p := by
    unfold pageOf
    rw [BitVec.toNat_ofNat]
    omega
  have hflags : (taskChunkFlags.setWidth 32).toNat < 4096 := by decide
  have hrights : s.rights = taskChunkFlags.setWidth 32 ↔ s.flags &&& 2#32 = 0#32 := by
    unfold Segment.rights
    split_ifs with hw
    · exact iff_of_false (by decide) hw
    · exact iff_of_true (by decide) (not_not.mp hw)
  unfold selfMap
  rw [← hrights]
  constructor
  · intro heq
    have hlow : s.rights = taskChunkFlags.setWidth 32 := by
      rw [← or_flags_and_low ha s.rights_lt, heq, or_flags_and_low hself hflags]
    have hhigh : s.target image p = BitVec.ofNat 32 (4096 * p) := by
      rw [← or_flags_and_mask ha s.rights_lt, heq, or_flags_and_mask hself hflags]
    exact ⟨hlow, by rw [hhigh, hpage]⟩
  · rintro ⟨hr, ht⟩
    rw [hr, eq_of_pageOf_eq ha hself (ht.trans hpage.symm)]

/-- The offset in a page does not lead out of a page. -/
theorem pageOf_add_low {page : Addr} (hp : PageAligned page) (v : Addr) :
    pageOf (page + (v - pagingAlignToLowerPage v)) = pageOf page := by
  obtain ⟨-, -, hlow⟩ := pagingAlignToLowerPage_spec v
  have hoffset : v - pagingAlignToLowerPage v = BitVec.ofNat 32 (v.toNat % 4096) := by
    rw [← hlow, BitVec.ofNat_toNat, BitVec.setWidth_eq]
  rw [hoffset]
  exact pageOf_add_ofNat hp (Nat.mod_lt _ (by omega))

variable {k : Kernel} {f : ProcFoot}

/-- **What is mapped inside.** For an ELF process with a fresh directory, `process_map_elf` makes
pages of the image accessible and no others iff every reached segment leads into the image, or to
the page itself for reading, at each page that no later reached segment covers. -/
theorem elf_inside_iff (hready : ElfReady k f image) (n : ℕ) :
    MapsInside k f image n ↔
      ∀ s p, LastCovers image (reachedSegments image (elfSegments k.mem image)) s p →
        s.Inside image n p := by
  obtain ⟨mem, hrun, hat, -⟩ := processMapElf_spec hready.dir hready.task hready.fresh
    hready.elf.file hready.elf_memory (hready.elf_memory ▸ hready.elf.image) hready.table
  have hall : ∀ t ∈ reachedSegments image (elfSegments k.mem image), t.Accepted image := by
    intro t ht
    simpa using List.mem_takeWhile_imp ht
  have hbefore := hready.fresh.get
  rw [mapSegments_reached] at hat
  -- an address of a page that is mapped leads to the page of the last segment
  have hafter : ∀ v s, LastCovers image (reachedSegments image (elfSegments k.mem image)) s
      (pageOf v) → pagingGet mem (load32 mem f.chunk) (pagingAlignToLowerPage v) =
          s.target image (pageOf v) ||| s.rights ∧
        pageOf (pagingGetPhysicalAddress mem (load32 mem f.chunk) v) =
          pageOf (s.target image (pageOf v)) := by
    intro v s hlast
    have hentry := mapSegments_last hall hlast selfMap
    refine ⟨by rw [hat.get, hentry], ?_⟩
    rw [hat.physical hentry (s.target_aligned _) s.rights_lt]
    exact pageOf_add_low (s.target_aligned _) v
  constructor
  · rintro ⟨res, k', hrun', hinside⟩ s p hlast
    rw [hrun] at hrun'
    cases hrun'
    obtain ⟨pre, post, -, hcov, -⟩ := id hlast
    have hp : pageOf (BitVec.ofNat 32 (4096 * p)) = p := by
      have := hcov.1
      unfold pageOf
      rw [BitVec.toNat_ofNat]
      omega
    rw [← hp] at hlast
    obtain ⟨hget, hphys⟩ := hafter _ s hlast
    have hin := hinside (BitVec.ofNat 32 (4096 * p))
    dsimp only at hin
    rw [hget, hbefore, hphys, hp, ne_eq, s.entry_eq_self hcov.1] at hin
    exact or_iff_not_imp_right.mpr hin
  · intro hcond
    refine ⟨_, _, hrun, fun v hne => ?_⟩
    dsimp only at hne ⊢
    rcases @lastCovers_or image (reachedSegments image (elfSegments k.mem image))
      (pageOf v) with hno | ⟨s, hlast⟩
    · refine absurd ?_ hne
      rw [hbefore, hat.get, mapSegments_none hno]
    · obtain ⟨hget, hphys⟩ := hafter v s hlast
      rw [hget, hbefore, ne_eq, s.entry_eq_self (pageOf_lt v)] at hne
      rw [hphys]
      exact (hcond s _ hlast).resolve_right hne

/-- A segment that ends within the `n` blocks of the image, also in memory, leads into them. -/
theorem Segment.inside_of_le (himage : PageAligned image) (hfits : image.toNat + 4096 * n < 2 ^ 32)
    (hle : s.offset.toNat + s.memsz.toNat ≤ 4096 * n) (hp : s.Covers image p) :
    s.Inside image n p := by
  have hsum : (image + s.offset).toNat = image.toNat + s.offset.toNat := by
    rw [BitVec.toNat_add]
    omega
  have hsize : (image + s.offset + s.memsz).toNat =
      image.toNat + s.offset.toNat + s.memsz.toNat := by
    rw [BitVec.toNat_add, hsum]
    omega
  have hstart : (s.physStart image).toNat = (image.toNat + s.offset.toNat) / 4096 * 4096 := by
    rw [Segment.physStart, pagingAlignToLowerPage_toNat, hsum]
  unfold PageAligned at himage
  have hround : roundUp (image.toNat + s.offset.toNat + s.memsz.toNat) ≤
      image.toNat + 4096 * n := by
    unfold roundUp
    omega
  have hend : (s.physEnd image).toNat =
      roundUp (image.toNat + s.offset.toNat + s.memsz.toNat) := by
    rw [Segment.physEnd, pagingAlignAddress_toNat (by rw [hsize]; omega), hsize]
  obtain ⟨-, hdist⟩ := hp
  unfold Segment.count at hdist
  rw [BitVec.toNat_sub, hstart, hend] at hdist
  have htarget : (s.target image p).toNat = (image.toNat + s.offset.toNat) / 4096 * 4096 +
      4096 * pageDist (pageOf s.vaddr) p := by
    unfold Segment.target
    rw [BitVec.toNat_add, hstart, BitVec.toNat_ofNat]
    unfold roundUp at hdist hround
    omega
  left
  unfold InRun pageOf
  rw [htarget]
  unfold roundUp at hdist hround
  dsimp only
  omega

end Inside

/-! ## A large `.bss` -/

/-- An executable of 84 bytes whose only segment takes `memsz` bytes in memory. -/
def bssImage (memsz : BitVec 32) : List (BitVec 8) :=
  elfImage [phdrBytes 1#32 0#32 0x400000#32 84#32 memsz 6#32]

/-- Without more memory than the file has, only the image is mapped. -/
theorem elf_inside_noBss : ∃ k f, ElfReady k f (blockAddr 4) ∧ MapsInside k f (blockAddr 4) 1 := by
  have hsegs : elfSegments (elfBootMemory (bssImage 84#32)) (blockAddr 4) =
      [⟨0#32, 0x400000#32, 84#32, 6#32⟩] := by decide +kernel
  obtain ⟨k, f, hready, -, -, -, hsame⟩ := elfReady_boot (bssImage 84#32) (by decide +kernel)
    (by decide +kernel)
  refine ⟨k, f, hready, (elf_inside_iff hready 1).mpr ?_⟩
  rintro s p ⟨pre, post, hlist, hcov, -⟩
  have hmem : s ∈ reachedSegments (blockAddr 4) (elfSegments k.mem (blockAddr 4)) := by
    rw [hlist]
    simp
  have hs := List.takeWhile_subset _ hmem
  rw [hsame, hsegs, List.mem_singleton] at hs
  subst hs
  exact Segment.inside_of_le (by decide) (by decide) (by decide) hcov

/-- With 24 KB of `.bss` the task record of the process is mapped for it to write. -/
theorem elf_inside_bss : ∃ k f, ElfReady k f (blockAddr 4) ∧
    HeapOwns k.heap (chunkRuns f.chunk f.shape ++ elfBootRuns) ∧
    (blockAddr 4, blocksFor (BitVec.ofNat 32 (bssImage 0x6000#32).length)) = (blockAddr 4, 1) ∧
    elfValidateLoaded k.mem (blockAddr 4) = maerosAllOk ∧
    (k.procs f.process).task = blockAddr 9 ∧
    (∃ k', processMapElf f.process k = some (0, k') ∧
      LeadsTo k'.mem f.chunk 0x405000#32 (blockAddr 9) True) ∧
    ¬ MapsInside k f (blockAddr 4) 1 := by
  have hsegs : elfSegments (elfBootMemory (bssImage 0x6000#32)) (blockAddr 4) =
      [⟨0#32, 0x400000#32, 0x6000#32, 6#32⟩] := by decide +kernel
  obtain ⟨k, f, hready, ho, htask, hpage, hsame⟩ := elfReady_boot (bssImage 0x6000#32)
    (by decide +kernel) (by decide +kernel)
  rw [hsegs] at hsame
  have hvalid : elfValidateLoaded (elfBootMemory (bssImage 0x6000#32)) (blockAddr 4) =
      maerosAllOk := by decide +kernel
  have hacc : Segment.Accepted (blockAddr 4) ⟨0#32, 0x400000#32, 0x6000#32, 6#32⟩ := by
    decide +kernel
  have hcov : Segment.Covers (blockAddr 4) ⟨0#32, 0x400000#32, 0x6000#32, 6#32⟩
      (pageOf 0x405000#32) := by decide +kernel
  have htarget : Segment.target (blockAddr 4) ⟨0#32, 0x400000#32, 0x6000#32, 6#32⟩
      (pageOf 0x405000#32) = blockAddr 9 := by decide +kernel
  obtain ⟨mem, hrun, hat, -⟩ := processMapElf_spec hready.dir hready.task hready.fresh
    hready.elf.file hready.elf_memory (hready.elf_memory ▸ hready.elf.image) hready.table
  rw [hsame, mapSegments, if_pos hacc] at hrun hat
  have hentry := @Segment.mapPages_covers _ _ selfMap _ hcov
  have hleads : LeadsTo mem f.chunk 0x405000#32 (blockAddr 9) True := by
    refine hat.leadsTo hentry ?_ (Segment.rights_lt _) ?_ ⟨by decide, by decide, by decide⟩
    · rw [htarget]
      decide
    · rw [htarget]
      decide
  refine ⟨k, f, hready, ho, by decide +kernel, ?_, htask, ⟨_, hrun, hleads⟩, ?_⟩
  · rw [elfValidateLoaded_congr (by decide) hpage, hvalid]
  · rintro ⟨res, k', hrun', hinside⟩
    rw [hrun] at hrun'
    cases hrun'
    have hin := hinside 0x405000#32
    dsimp only at hin
    rw [hleads.phys] at hin
    have hout : ¬ InRun (blockAddr 4, 1) (pageOf (blockAddr 9)) := by
      unfold InRun
      decide
    refine hout (hin fun heq => ?_)
    -- the entry was not writable before
    have hwrite := hleads.rights.write.mpr trivial
    rw [heq, hready.fresh.get] at hwrite
    exact hwrite (by decide)

end MaerOS.Analysis
