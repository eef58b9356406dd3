import MaerOS.Analysis.FatDirectory
import MaerOS.Analysis.PathParser

/-!
# The scan of the root directory

The buffer of the root directory is as large as the header says. The count of its entries
goes on to the first entry whose first byte is zero, wherever that is: a root directory
with all its slots in use has none, and the scan goes on in the data area. `root_scan_iff`
says that this is the only way for it to leave the directory.
-/

set_option autoImplicit false

namespace MaerOS.Analysis

open MaerOS.Lib MaerOS.Model

/-- The scan looks at no more entries than the header has, and as many as it counts are in the
buffer. -/
structure RootScanInside (vol : FatVolume) : Prop where
  ends : (fat16CountItems vol.disk vol.header.root_dir_entries
    ((512 * vol.header.rootDirSectorPos : ℕ) : ℤ) 0).isSome
  total : vol.root_total ≤ vol.root_items.length

section Count

variable {disk : Disk}

/-- One round of the count. -/
theorem fat16CountItems_step {fuel pos : ℕ} (hpos : pos + 32 < 2 ^ 31) (j : ℕ) :
    fat16CountItems disk (fuel + 1) pos j =
      if disk pos = 0x00#8 then some j
      else fat16CountItems disk fuel (pos + 32 : ℕ) (if disk pos = 0xe5#8 then j else j + 1) := by
  have hread := diskstreamerRead_eq disk 32 pos hpos
  rw [fat16CountItems]
  simp only [sizeofFatDirectoryItem]
  rw [hread, Option.bind_eq_bind, Option.bind_some]
  dsimp only
  rw [firstChar_slice disk pos (by decide)]
  split_ifs <;> rfl

/-- The count ends within `n` rounds iff one of the next `n` entries is the end. -/
theorem fat16CountItems_isSome (n : ℕ) : ∀ pos j : ℕ, pos + 32 * n < 2 ^ 31 →
    ((fat16CountItems disk n pos j).isSome ↔ ∃ i < n, disk (pos + 32 * i) = 0x00#8) := by
  induction n with
  | zero => simp [fat16CountItems]
  | succ n ih =>
    intro pos j hpos
    rw [fat16CountItems_step (by omega)]
    split_ifs with hzero hdel
    · exact iff_of_true rfl ⟨0, by omega, by simpa using hzero⟩
    all_goals
      rw [ih (pos + 32) _ (by omega)]
      constructor
      · rintro ⟨i, hi, hend⟩
        exact ⟨i + 1, by omega, by rw [← hend]; congr 1; omega⟩
      · rintro ⟨i, hi, hend⟩
        cases i with
        | zero => exact absurd (by simpa using hend) hzero
        | succ i => exact ⟨i, by omega, by rw [← hend]; congr 1; omega⟩

/-- With more rounds the count ends the same way. -/
theorem fat16CountItems_mono {fuel : ℕ} (more : ℕ) : ∀ {pos : ℤ} {j t : ℕ},
    fat16CountItems disk fuel pos j = some t →
      fat16CountItems disk (fuel + more) pos j = some t := by
  induction fuel with
  | zero => simp [fat16CountItems]
  | succ fuel ih =>
    intro pos j t hcount
    rw [show fuel + 1 + more = fuel + more + 1 from by omega]
    obtain ⟨read, hread, hrest⟩ := Option.bind_eq_some_iff.mp hcount
    refine Option.bind_eq_some_iff.mpr ⟨read, hread, ?_⟩
    split_ifs at hrest ⊢ with hzero hdel
    · exact hrest
    · exact ih hrest
    · exact ih hrest

/-- `n` entries in use and the end behind them. -/
theorem fat16CountItems_used (n : ℕ) : ∀ pos j : ℕ, pos + 32 * (n + 1) < 2 ^ 31 →
    (∀ i < n, disk (pos + 32 * i) ≠ 0x00#8 ∧ disk (pos + 32 * i) ≠ 0xe5#8) →
    disk (pos + 32 * n) = 0x00#8 → fat16CountItems disk (n + 1) pos j = some (j + n) := by
  induction n with
  | zero =>
    intro pos j hpos _ hend
    rw [fat16CountItems_step hpos, if_pos (by simpa using hend)]
    rfl
  | succ n ih =>
    intro pos j hpos hused hend
    obtain ⟨hne, hlive⟩ := hused 0 (by omega)
    rw [mul_zero, add_zero] at hne hlive
    have hplace : ∀ i, pos + 32 + 32 * i = pos + 32 * (i + 1) := fun i => by omega
    rw [fat16CountItems_step (by omega), if_neg hne, if_neg hlive, ih (pos + 32) (j + 1) (by omega)]
    · rw [Option.some.injEq]
      omega
    · intro i hi
      rw [hplace]
      exact hused (i + 1) (by omega)
    · rw [hplace]
      exact hend

/-- The count from a sector. -/
theorem fat16GetTotalItemsForDirectory_used {sector n : ℕ}
    (hpos : 512 * sector + 32 * (n + 1) < 2 ^ 31)
    (hused : ∀ i < n, disk (512 * sector + 32 * i) ≠ 0x00#8 ∧ disk (512 * sector + 32 * i) ≠ 0xe5#8)
    (hend : disk (512 * sector + 32 * n) = 0x00#8) :
    fat16GetTotalItemsForDirectory disk sector = some n := by
  have hcount := fat16CountItems_used n (512 * sector) 0 hpos hused hend
  have hmono := fat16CountItems_mono (2 ^ 26 - (n + 1)) hcount
  unfold fat16GetTotalItemsForDirectory
  rw [toInt32_sector (by omega)]
  rw [Nat.add_sub_cancel' (by omega), Nat.zero_add] at hmono
  exact hmono

end Count

/-! ## Lookups -/

/-- A search that comes to an index behind the buffer has no outcome. -/
theorem foldlM_findItemRound_behind (vol : FatVolume) (entries : List FatDirectoryItem)
    (name : List (BitVec 8)) {l : List ℕ} (hl : ∃ i ∈ l, entries.length ≤ i) :
    ∀ (f_item : Option FatItem) (h : Heap),
      l.foldlM (fat16FindItemRound vol entries name) f_item h = none := by
  induction l with
  | nil => simp at hl
  | cons j l ih =>
    intro f_item h
    rw [List.foldlM_cons]
    by_contra hne
    obtain ⟨⟨o, h'⟩, hrun⟩ := Option.ne_none_iff_exists'.mp hne
    obtain ⟨o₁, h₁, hround, hrest⟩ := prog_bind.mp hrun
    obtain ⟨i, hi, hbehind⟩ := hl
    rcases List.mem_cons.mp hi with rfl | hmem
    · unfold fat16FindItemRound at hround
      rw [List.getElem?_eq_none hbehind] at hround
      cases hround
    · rw [ih ⟨i, hmem, hbehind⟩] at hrest
      cases hrest

/-- Where more entries are counted than are in the buffer, every lookup goes behind it. -/
theorem fat16FindItemInDirectory_behind (vol : FatVolume) {entries : List FatDirectoryItem}
    {total : ℕ} (hlt : entries.length < total) (name : List (BitVec 8)) (h : Heap) :
    fat16FindItemInDirectory vol entries total name h = none :=
  foldlM_findItemRound_behind vol entries name ⟨entries.length, List.mem_range.mpr hlt, le_rfl⟩
    none h

section Resolve

variable {disk : Disk} {vol : FatVolume} {h h' : Heap}

/-- The volume that is accepted has the root directory that was loaded. -/
theorem fat16Resolve_ok (hres : fat16Resolve disk h = some (.ok vol, h')) :
    vol.disk = disk ∧ vol.header = fatHeader disk ∧ ∃ dir h₁ h₂,
      fat16GetRootDirectory disk (fatHeader disk) h₁ = some (.ok dir, h₂) ∧
      vol.root_items = dir.entries ∧ vol.root_total = dir.total := by
  obtain ⟨_, h₁, -, hrest⟩ := prog_bind.mp hres
  obtain ⟨_, h₂, -, hrest⟩ := prog_bind.mp hrest
  obtain ⟨_, h₃, -, hrest⟩ := prog_bind.mp hrest
  obtain ⟨_, h₄, -, hrest⟩ := prog_bind.mp hrest
  obtain ⟨_, h₅, -, hrest⟩ := prog_bind.mp hrest
  obtain ⟨_, h₆, -, hrest⟩ := prog_bind.mp hrest
  obtain ⟨read, h₇, -, hrest⟩ := prog_bind.mp hrest
  split at hrest
  · -- another file system
    obtain ⟨_, h₈, -, hrest⟩ := prog_bind.mp hrest
    obtain ⟨_, h₉, -, hrest⟩ := prog_bind.mp hrest
    cases (prog_pure.mp hrest).1
  · obtain ⟨root, h₈, hroot, hrest⟩ := prog_bind.mp hrest
    cases root with
    | error res =>
      obtain ⟨_, h₉, -, hrest⟩ := prog_bind.mp hrest
      obtain ⟨_, h₁₀, -, hrest⟩ := prog_bind.mp hrest
      cases (prog_pure.mp hrest).1
    | ok dir =>
      obtain ⟨_, h₉, -, hrest⟩ := prog_bind.mp hrest
      cases (prog_pure.mp hrest).1
      exact ⟨rfl, rfl, dir, h₇, h₈, hroot, rfl, rfl⟩

/-- **The scan of the root directory** of a volume that is accepted stays in the directory iff one
of its entries has a zero as its first byte. -/
theorem root_scan_iff (hres : fat16Resolve disk h = some (.ok vol, h')) :
    RootScanInside vol ↔ ∃ i < vol.header.root_dir_entries,
      disk (512 * vol.header.rootDirSectorPos + 32 * i) = 0x00#8 := by
  obtain ⟨rfl, hheader, dir, h₁, h₂, hroot, hitems, htotal⟩ := fat16Resolve_ok hres
  rw [← hheader] at hroot
  obtain ⟨hcount, hfit, hentries⟩ := fat16GetRootDirectory_ok hroot
  have hsize : vol.header.rootDirSize = vol.header.root_dir_entries * 32 := rfl
  have hiff := @fat16CountItems_isSome vol.disk vol.header.root_dir_entries
    (512 * vol.header.rootDirSectorPos) 0 (by omega)
  rw [← hiff]
  refine ⟨RootScanInside.ends, fun hends => ⟨hends, ?_⟩⟩
  obtain ⟨t, ht⟩ := Option.isSome_iff_exists.mp hends
  -- the count of `fat16_resolve` itself is the same
  have hentries_lt : vol.header.root_dir_entries < 2 ^ 26 := by omega
  unfold fat16GetTotalItemsForDirectory at hcount
  have hmono := fat16CountItems_mono (2 ^ 26 - vol.header.root_dir_entries) ht
  rw [toInt32_sector (by omega), ← Nat.add_sub_cancel' hentries_lt.le, hmono] at hcount
  have hlt := fat16CountItems_lt _ _ _ _ _ ht
  rw [htotal, hitems, ← Option.some.inj hcount, hentries, length_fatDirectoryItems]
  omega

/-- What `fat16_resolve` allocates: its record, four streams and the root directory. -/
def resolveAllocs (header : FatHeader) : List (BitVec 32) :=
  [sizeofFatPrivate, sizeofDiskStream, sizeofDiskStream, sizeofDiskStream, sizeofDiskStream,
    BitVec.ofNat 32 header.rootDirSize]

theorem writeRecord_ok {p : Addr} (hne : p ≠ 0#32) (h : Heap) :
    writeRecord p h = some ((), h) := writeRecord_some.mpr ⟨hne, rfl⟩

/-- A stream is made, with memory for its record. -/
theorem diskstreamerNew_some {sizes : List (BitVec 32)}
    (hallocs : AllocsSucceed (sizeofDiskStream :: sizes) h) :
    ∃ streamer h', diskstreamerNew h = some (streamer, h') ∧ AllocsSucceed sizes h' := by
  obtain ⟨p, h₁, hz, hne, hrest⟩ := hallocs
  refine ⟨p, h₁, ?_, hrest⟩
  unfold diskstreamerNew
  rw [bind_of_some (m := allocRecord _) hz, bind_of_some (writeRecord_ok hne h₁)]
  rfl

/-- With the signature and enough memory a volume is accepted, with as many entries as are
counted. -/
theorem fat16Resolve_accepts {t : ℕ} (hsig : disk 38 = 0x29#8)
    (hcount : fat16GetTotalItemsForDirectory disk (fatHeader disk).rootDirSectorPos = some t)
    (hfit : 512 * (fatHeader disk).rootDirSectorPos + (fatHeader disk).rootDirSize < 2 ^ 31)
    (hallocs : AllocsSucceed (resolveAllocs (fatHeader disk)) h) :
    ∃ vol h', fat16Resolve disk h = some (.ok vol, h') ∧ vol.header = fatHeader disk ∧
      vol.root_total = t := by
  obtain ⟨fat_private, h₁, hz, hne, hallocs⟩ := hallocs
  obtain ⟨_, h₂, hnew₂, hallocs⟩ := diskstreamerNew_some hallocs
  obtain ⟨_, h₃, hnew₃, hallocs⟩ := diskstreamerNew_some hallocs
  obtain ⟨_, h₄, hnew₄, hallocs⟩ := diskstreamerNew_some hallocs
  obtain ⟨stream, h₅, hnew₅, hallocs⟩ := diskstreamerNew_some hallocs
  obtain ⟨dir, h₆, hz₆, hdir, -⟩ := hallocs
  obtain ⟨root, hroot, htotal⟩ := fat16GetRootDirectory_accepts hcount hfit hz₆ hdir
  have hheader := diskstreamerRead_eq disk sizeofFatH 0 (by decide)
  have hbyte : (slice disk 0 sizeofFatH)[38]? = some 0x29#8 := by
    rw [getElem?_slice disk 0 (by decide), Nat.zero_add, hsig]
  refine ⟨⟨disk, fatHeader disk, root.entries, root.total⟩, heapFree h₆ stream, ?_, rfl, htotal⟩
  unfold fat16Resolve
  rw [bind_of_some (m := allocRecord _) hz, bind_of_some (writeRecord_ok hne h₁),
    bind_of_some hnew₂, bind_of_some hnew₃, bind_of_some hnew₄, bind_of_some hnew₅,
    ← Nat.cast_zero, bind_of_some (offDisk_some.mpr ⟨hheader, rfl⟩)]
  dsimp only
  rw [if_neg (not_not.mpr hbyte), bind_of_some hroot]
  rfl

end Resolve

/-! ## A full root directory -/

/-- A volume whose 16 slots of the root directory are in use, and the slot behind them too. -/
def fullDisk : Disk := fun pos =>
  if 1536 ≤ pos ∧ pos < 2080 then 0x41#8 else twoClusterDisk pos

theorem fatHeader_fullDisk : fatHeader fullDisk = ⟨1, 1, 2, 16, 1⟩ := by decide

theorem resolveAllocs_bootKernel : AllocsSucceed (resolveAllocs ⟨1, 1, 2, 16, 1⟩) bootKernel.heap :=
  heapOwns_bootKernel.allocsSucceed (by simp [card_freeBlocks_bootKernel, resolveAllocs])
    (by simp [resolveAllocs, FatHeader.rootDirSize, sizeofFatPrivate, sizeofDiskStream,
      sizeofFatDirectoryItem])

/-- An empty root directory is not left. -/
theorem root_scan_empty : ∃ vol h', fat16Resolve twoClusterDisk bootKernel.heap =
    some (.ok vol, h') ∧ RootScanInside vol := by
  have hcount : fat16GetTotalItemsForDirectory twoClusterDisk
      (fatHeader twoClusterDisk).rootDirSectorPos = some 0 := by
    rw [fatHeader_twoClusterDisk]
    exact @fat16GetTotalItemsForDirectory_used _ 3 0 (by decide) (by simp) (by decide)
  obtain ⟨vol, h', hres, hheader, -⟩ := fat16Resolve_accepts (h := bootKernel.heap) (by decide)
    hcount (by rw [fatHeader_twoClusterDisk]; decide)
    (by rw [fatHeader_twoClusterDisk]; exact resolveAllocs_bootKernel)
  refine ⟨vol, h', hres, (root_scan_iff hres).mpr ⟨0, ?_⟩⟩
  rw [hheader, fatHeader_twoClusterDisk]
  decide

/-- The full one is: 17 entries are counted, the buffer has 16, and every lookup goes behind it. -/
theorem root_scan_full : ∃ vol h', fat16Resolve fullDisk bootKernel.heap = some (.ok vol, h') ∧
    vol.root_items.length = 16 ∧ vol.root_total = 17 ∧ ¬ RootScanInside vol ∧
    ∀ name h, fat16FindItemInDirectory vol vol.root_items vol.root_total name h = none := by
  have hcount : fat16GetTotalItemsForDirectory fullDisk (fatHeader fullDisk).rootDirSectorPos =
      some 17 := by
    rw [fatHeader_fullDisk]
    refine @fat16GetTotalItemsForDirectory_used _ 3 17 (by decide) (fun i hi => ?_) (by decide)
    have hbyte : fullDisk (512 * 3 + 32 * i) = 0x41#8 := if_pos ⟨by omega, by omega⟩
    rw [hbyte]
    decide
  obtain ⟨vol, h', hres, hheader, htotal⟩ := fat16Resolve_accepts (h := bootKernel.heap) (by decide)
    hcount (by rw [fatHeader_fullDisk]; decide)
    (by rw [fatHeader_fullDisk]; exact resolveAllocs_bootKernel)
  obtain ⟨-, -, dir, h₁, h₂, hroot, hitems, -⟩ := fat16Resolve_ok hres
  have hlength : vol.root_items.length = 16 := by
    rw [hitems, (fat16GetRootDirectory_ok hroot).2.2, fatHeader_fullDisk]
    exact length_fatDirectoryItems _ _
  refine ⟨vol, h', hres, hlength, htotal, fun hinside => ?_, fun name h => ?_⟩
  · have := hinside.total
    omega
  · exact fat16FindItemInDirectory_behind vol (by omega) name h

end MaerOS.Analysis
