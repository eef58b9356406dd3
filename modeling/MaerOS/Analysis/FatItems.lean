import MaerOS.Analysis.FatRoot

/-!
# Directories that cannot be loaded

Loading a directory takes a record, a buffer and a read that goes to every cluster of the
directory. When one of the last two fails `fat16_load_fat_directory` frees what it took and
returns the pointer to the record all the same, and the item keeps it. Only without a
record is the pointer null. `failed_load_iff` says that the item is sound in no other case
than this one and that of a load that succeeds.
-/

set_option autoImplicit false

namespace MaerOS.Analysis

open MaerOS.Lib MaerOS.Model

/-! ## The read of a directory -/

/-- Every cluster that a read of `size` bytes goes to is found. -/
def ClustersFound (vol : FatVolume) (cluster size : ℕ) : Prop :=
  ∀ i, i = 0 ∨ i * vol.header.clusterBytes < size → ∃ c : ℤ, 0 ≤ c ∧
    fat16GetClusterForOffset vol.disk vol.header cluster (i * vol.header.clusterBytes : ℕ) = some c

/-- A read that has an outcome succeeds iff every lookup finds a cluster. -/
theorem fat16ReadInternalBy_zero_iff (lookup : ℤ → Option ℤ) (disk : Disk) (header : FatHeader)
    (total : ℕ) : ∀ (offset : ℕ) (res : ℤ) (out : List (BitVec 8)),
      fat16ReadInternalBy lookup disk header offset total = some (res, out) →
      (res = 0 ↔ ∀ i, i = 0 ∨ i * header.clusterBytes < total →
        ∃ c : ℤ, 0 ≤ c ∧ lookup (offset + i * header.clusterBytes : ℕ) = some c) := by
  induction total using Nat.strong_induction_on with
  | _ total ih =>
    intro offset res out hread
    rw [fat16ReadInternalBy] at hread
    split at hread
    · cases hread
    rename_i hsize
    obtain ⟨c, hlookup, hread⟩ := Option.bind_eq_some_iff.mp hread
    split at hread
    · -- the first cluster is not found
      rename_i hneg
      cases hread
      refine iff_of_false (by omega) fun hall => ?_
      obtain ⟨c', hpos, hc'⟩ := hall 0 (.inl rfl)
      rw [Nat.zero_mul, Nat.add_zero, hlookup] at hc'
      cases hc'
      omega
    rename_i hpos
    have hfirst : ∃ c : ℤ, 0 ≤ c ∧ lookup (offset + 0 * header.clusterBytes : ℕ) = some c :=
      ⟨c, by omega, by rw [Nat.zero_mul, Nat.add_zero, hlookup]⟩
    obtain ⟨bytes, -, hread⟩ := Option.bind_eq_some_iff.mp hread
    split at hread
    · rename_i hlong
      obtain ⟨next, hnext, hread⟩ := Option.bind_eq_some_iff.mp hread
      obtain ⟨rest, hrest, hend⟩ := Option.bind_eq_some_iff.mp hread
      cases hend
      have hcast : (offset : ℤ) + header.clusterBytes = (offset + header.clusterBytes : ℕ) := by
        push_cast
        rfl
      have hleft : (total : ℤ) - header.clusterBytes = (total - header.clusterBytes : ℕ) := by
        omega
      have hplace : ∀ i, offset + header.clusterBytes + i * header.clusterBytes =
          offset + (i + 1) * header.clusterBytes := by
        intro i
        ring
      rw [checkInt_some hnext, hcast, hleft] at hrest
      rw [ih (total - header.clusterBytes) (by omega) _ _ _ hrest]
      constructor
      · intro hall i hi
        cases i with
        | zero => exact hfirst
        | succ i =>
          obtain ⟨c', hc', hl⟩ := hall i (by
            rcases hi with hi | hi
            · cases hi
            · rw [Nat.succ_mul] at hi
              omega)
          exact ⟨c', hc', by rw [← hplace, hl]⟩
      · intro hall i hi
        obtain ⟨c', hc', hl⟩ := hall (i + 1) (.inr (by
          rw [Nat.succ_mul]
          rcases hi with rfl | hi
          · omega
          · omega))
        exact ⟨c', hc', by rw [hplace, hl]⟩
    · rename_i hshort
      cases hread
      refine iff_of_true rfl fun i hi => ?_
      cases i with
      | zero => exact hfirst
      | succ i =>
        rw [Nat.succ_mul] at hi
        omega

/-! ## The item -/

/-- An item that leads to nothing that was freed: closing it gives back its blocks and no others,
and a walk through it leaves the other blocks `rs` alone, whether it ends with an item or not. -/
structure NothingDangling (vol : FatVolume) (rs : List (Addr × ℕ)) (f_item : FatItem) (h : Heap) :
    Prop where
  content : f_item.content ≠ .directory .dangling
  close : ∃ h', fat16FatItemFree f_item h = some ((), h') ∧ HeapOwns h' rs
  walk : ∀ parts found h', fat16WalkParts vol parts (some f_item) h = some (found, h') →
    Holds (foundRuns found ++ rs) h'

/-- When there is memory for the item and the record of the directory, there is memory for its
entries too, and every cluster that the read goes to is found. -/
def DirectoryLoads (vol : FatVolume) (item : FatDirectoryItem) (h : Heap) : Prop :=
  AllocsSucceed [sizeofFatItem, sizeofFatDirectory] h → ∃ sector total,
    fat16ClusterToSector vol.header (fat16GetFirstCluster item) = some sector ∧
    fat16GetTotalItemsForDirectory vol.disk sector = some total ∧
    AllocsSucceed [sizeofFatItem, sizeofFatDirectory,
      BitVec.ofNat 32 (total * sizeofFatDirectoryItem)] h ∧
    ClustersFound vol (fat16GetFirstCluster item) (total * sizeofFatDirectoryItem)

section Items

variable {vol : FatVolume} {item : FatDirectoryItem} {h h' : Heap} {rs : List (Addr × ℕ)}

/-- The first of several allocations, and the others behind it. -/
theorem allocsSucceed_cons {size : BitVec 32} {sizes : List (BitVec 32)} {p : Addr}
    (hz : h.kzalloc size = some (p, h')) :
    AllocsSucceed (size :: sizes) h ↔ p ≠ 0#32 ∧ AllocsSucceed sizes h' := by
  constructor
  · rintro ⟨q, h₁, hz', hne, hrest⟩
    rw [hz] at hz'
    cases hz'
    exact ⟨hne, hrest⟩
  · rintro ⟨hne, hrest⟩
    exact ⟨p, h', hz, hne, hrest⟩

/-- The buffer of a directory and its records are given back by closing it. -/
theorem BufferTaken.close {p dir buf : Addr} {total : ℕ} {out : List (BitVec 8)} {h₁ h₂ : Heap}
    (ht : BufferTaken vol item h dir total buf h₁ h₂) (ho : HeapOwns h ((p, 1) :: rs))
    (hbuf : buf ≠ 0#32) : ∃ h', fat16FatItemFree
      ⟨p, .directory (.loaded dir buf (fatDirectoryItems out total))⟩ h₂ = some ((), h') ∧
        HeapOwns h' rs := by
  refine ⟨heapFree (heapFree (heapFree h₂ buf) dir) p, ?_, (ht.free ho).kfree.kfree⟩
  unfold fat16FatItemFree fat16FreeDirectory
  dsimp only
  rw [if_neg hbuf]
  rfl

/-- The read of the entries succeeds iff every cluster is found. -/
theorem clustersFound_iff {total : ℕ} {res : ℤ} {out : List (BitVec 8)}
    (hread : fat16ReadInternal vol.disk vol.header (fat16GetFirstCluster item) 0
      (total * sizeofFatDirectoryItem : ℕ) = some (res, out)) : res = 0 ↔
        ClustersFound vol (fat16GetFirstCluster item) (total * sizeofFatDirectoryItem) := by
  have hfound := fat16ReadInternalBy_zero_iff _ _ _ _ 0 res out hread
  simp only [Nat.zero_add] at hfound
  exact hfound

/-- Once the buffer is asked for, the directory loads iff it is granted and read. -/
theorem BufferTaken.loads_iff {p dir buf : Addr} {total : ℕ} {h₁ h₂ h₃ : Heap}
    (hz : h.kzalloc sizeofFatItem = some (p, h₁)) (hp : p ≠ 0#32)
    (ht : BufferTaken vol item h₁ dir total buf h₂ h₃) : DirectoryLoads vol item h ↔
      buf ≠ 0#32 ∧
        ClustersFound vol (fat16GetFirstCluster item) (total * sizeofFatDirectoryItem) := by
  obtain ⟨sector, hsector, htotal⟩ := ht.counted
  unfold DirectoryLoads
  simp only [allocsSucceed_cons hz, allocsSucceed_cons ht.record, ne_eq, hp, ht.nonnull,
    not_false_iff, true_and]
  simp only [AllocsSucceed, true_implies]
  constructor
  · rintro ⟨sector', total', hsector', htotal', ⟨q, h₄, hq, hne, -⟩, hfound⟩
    -- the number of entries is the one that was counted
    cases hsector.symm.trans hsector'
    cases htotal.symm.trans htotal'
    cases ht.buffer.symm.trans hq
    exact ⟨hne, hfound⟩
  · rintro ⟨hbuf, hfound⟩
    exact ⟨sector, total, hsector, htotal, ⟨buf, h₃, ht.buffer, hbuf, trivial⟩, hfound⟩

/-- **A failed load leaves a dangling directory.** The item of a subdirectory leads to nothing that
was freed iff its directory can be loaded, or not even the record of the directory allocated. -/
theorem failed_load_iff (ho : HeapOwns h rs) (hsub : item.isSubdirectory = true)
    {o : Option FatItem} (hrun : fat16NewFatItemForDirectoryItem vol item h = some (o, h')) :
    (∀ f_item, o = some f_item → NothingDangling vol rs f_item h') ↔ DirectoryLoads vol item h := by
  have hheld : ItemHeld o rs h' :=
    fat16NewFatItemForDirectoryItem_holds vol item h ⟨[], ho⟩ o h' hrun
  have hwalk : ∀ f_item, o = some f_item → ∀ parts found h'',
      fat16WalkParts vol parts (some f_item) h' = some (found, h'') →
        Holds (foundRuns found ++ rs) h'' := by
    rintro f_item rfl parts found h'' hw
    exact (fat16WalkParts_holds vol parts (some f_item) h' hheld _ _ hw).holds
  obtain ⟨p, h₁, hz, hrest⟩ := prog_bind.mp hrun
  have hz : h.kzalloc sizeofFatItem = some (p, h₁) := hz
  split at hrest
  · -- no memory for the item
    rename_i h0
    obtain ⟨rfl, -⟩ := prog_pure.mp hrest
    unfold DirectoryLoads
    simp [allocsSucceed_cons hz, h0]
  rename_i hp
  have ho₁ : HeapOwns h₁ ((p, 1) :: rs) :=
    ((ho.kzalloc (by decide) hz).resolve_left fun hc => hp hc.1).2
  obtain ⟨d, h₂, hload, hend⟩ := prog_bind.mp hrest
  obtain ⟨rfl, rfl⟩ := prog_pure.mp hend
  simp only [Option.some.injEq, forall_eq'] at hwalk ⊢
  have hdangling : ∀ h', ¬ NothingDangling vol rs ⟨p, .directory .dangling⟩ h' :=
    fun h' hc => hc.content rfl
  cases fat16LoadFatDirectory_cases hload with
  | file hfile => simp [hsub] at hfile
  | noRecord hz₁ =>
    -- the pointer to the directory is null
    have hsame : HeapOwns h₂ ((p, 1) :: rs) := by
      rcases ho₁.kzalloc (by decide) hz₁ with ⟨-, rfl, -⟩ | ⟨hne, -⟩
      · exact ho₁
      · exact absurd rfl hne
    refine iff_of_true ⟨by simp, ⟨heapFree h₂ p, rfl, hsame.kfree⟩, hwalk⟩ ?_
    unfold DirectoryLoads
    simp [allocsSucceed_cons hz, allocsSucceed_cons hz₁]
  | noBuffer ht =>
    rw [ht.loads_iff hz hp]
    exact iff_of_false (hdangling _) fun hc => hc.1 rfl
  | notRead ht hbuf hread hres =>
    rw [ht.loads_iff hz hp, ← clustersFound_iff hread]
    exact iff_of_false (hdangling _) fun hc => hres hc.2
  | loaded ht hbuf hread =>
    rw [ht.loads_iff hz hp, ← clustersFound_iff hread]
    exact iff_of_true ⟨by simp, ht.close ho₁ hbuf, hwalk⟩ ⟨hbuf, rfl⟩

/-- Loading a subdirectory, when there is memory for all of it: it ends as the read does. -/
theorem fat16LoadFatDirectory_run (hsub : item.isSubdirectory = true) {sector res : ℤ} {total : ℕ}
    {out : List (BitVec 8)} {dir buf : Addr} {h₁ h₂ : Heap}
    (hsector : fat16ClusterToSector vol.header (fat16GetFirstCluster item) = some sector)
    (htotal : fat16GetTotalItemsForDirectory vol.disk sector = some total)
    (hz₁ : allocRecord sizeofFatDirectory h = some (dir, h₁)) (hdir : dir ≠ 0#32)
    (hz₂ : allocRecord (BitVec.ofNat 32 (total * sizeofFatDirectoryItem)) h₁ = some (buf, h₂))
    (hbuf : buf ≠ 0#32)
    (hread : fat16ReadInternal vol.disk vol.header (fat16GetFirstCluster item) 0
      (total * sizeofFatDirectoryItem : ℕ) = some (res, out)) :
    fat16LoadFatDirectory vol item h =
      if res ≠ maerosAllOk then some (.dangling, heapFree (heapFree h₂ buf) dir)
      else some (.loaded dir buf (fatDirectoryItems out total), h₂) := by
  unfold fat16LoadFatDirectory
  rw [if_neg (by simp [hsub]), bind_of_some hz₁, if_neg hdir]
  dsimp only
  rw [bind_of_some (offDisk_some.mpr ⟨hsector, rfl⟩),
    bind_of_some (offDisk_some.mpr ⟨htotal, rfl⟩), bind_of_some hz₂, if_neg hbuf,
    bind_of_some (offDisk_some.mpr ⟨hread, rfl⟩)]
  dsimp only
  split_ifs <;> rfl

/-- The item of a subdirectory, when there is memory for all of it. -/
theorem fat16NewFatItem_directory (hsub : item.isSubdirectory = true) {sector res : ℤ} {total : ℕ}
    {out : List (BitVec 8)}
    (hsector : fat16ClusterToSector vol.header (fat16GetFirstCluster item) = some sector)
    (htotal : fat16GetTotalItemsForDirectory vol.disk sector = some total)
    (hallocs : AllocsSucceed [sizeofFatItem, sizeofFatDirectory,
      BitVec.ofNat 32 (total * sizeofFatDirectoryItem)] h)
    (hread : fat16ReadInternal vol.disk vol.header (fat16GetFirstCluster item) 0
      (total * sizeofFatDirectoryItem : ℕ) = some (res, out)) :
    ∃ p d h', fat16NewFatItemForDirectoryItem vol item h = some (some ⟨p, .directory d⟩, h') ∧
      (res ≠ 0 → d = .dangling) := by
  obtain ⟨p, h₁, hz, hp, dir, h₂, hz₁, hdir, buf, h₃, hz₂, hbuf, -⟩ := hallocs
  have hload : ∃ d h', fat16LoadFatDirectory vol item h₁ = some (d, h') ∧
      (res ≠ 0 → d = .dangling) := by
    rw [fat16LoadFatDirectory_run hsub hsector htotal hz₁ hdir hz₂ hbuf hread]
    split_ifs with hres
    · exact ⟨.dangling, _, rfl, fun _ => rfl⟩
    · exact ⟨_, _, rfl, fun hc => absurd hc hres⟩
  obtain ⟨d, h', hload, hd⟩ := hload
  refine ⟨p, d, h', ?_, hd⟩
  unfold fat16NewFatItemForDirectoryItem
  rw [bind_of_some (m := allocRecord _) hz, if_neg hp, if_pos hsub, bind_of_some hload]
  rfl

end Items

/-! ## A directory in two clusters -/

/-- A volume with a directory of `n` entries from cluster 4 on. -/
def dirDisk (n : ℕ) : Disk := fun pos =>
  if 3072 ≤ pos ∧ pos < 3072 + 32 * n then 0x41#8 else twoClusterDisk pos

/-- The volume in the driver. -/
def dirVolume (n : ℕ) : FatVolume := ⟨dirDisk n, fatHeader (dirDisk n), [], 0⟩

/-- The entry of the directory. -/
def dirItem : FatDirectoryItem := ⟨[0x44#8], [], 0x10#8, 0, 4, 0⟩

section DirDisk

variable {n : ℕ}

theorem fatHeader_dirDisk : fatHeader (dirDisk n) = ⟨1, 1, 2, 16, 1⟩ := by
  have hbyte : ∀ pos < 3072, dirDisk n pos = twoClusterDisk pos :=
    fun pos hpos => if_neg fun hc => by omega
  rw [← fatHeader_twoClusterDisk]
  unfold fatHeader Disk.word16
  simp only [hbyte _ (show 13 < 3072 by omega), hbyte _ (show 14 < 3072 by omega),
    hbyte _ (show 14 + 1 < 3072 by omega), hbyte _ (show 16 < 3072 by omega),
    hbyte _ (show 17 < 3072 by omega), hbyte _ (show 17 + 1 < 3072 by omega),
    hbyte _ (show 22 < 3072 by omega), hbyte _ (show 22 + 1 < 3072 by omega)]

/-- The directory has `n` entries up to the byte that ends it. -/
theorem dirVolume_count (hn : n < 1000) (hend : twoClusterDisk (3072 + 32 * n) = 0x00#8) :
    fat16GetTotalItemsForDirectory (dirVolume n).disk (6 : ℕ) = some n := by
  refine fat16GetTotalItemsForDirectory_used (by omega) (fun i hi => ?_) ?_
  · have hbyte : (dirVolume n).disk (512 * 6 + 32 * i) = 0x41#8 := if_pos ⟨by omega, by omega⟩
    rw [hbyte]
    decide
  · exact (if_neg fun hc => by omega).trans hend

/-- A kernel that was just booted has the memory to load it. -/
theorem dirVolume_allocs (hn : n * 32 ≤ 4096) (hpos : 0 < n) : AllocsSucceed [sizeofFatItem,
    sizeofFatDirectory, BitVec.ofNat 32 (n * sizeofFatDirectoryItem)] bootKernel.heap := by
  apply heapOwns_bootKernel.allocsSucceed (by simp [card_freeBlocks_bootKernel])
  intro size hmem
  simp only [List.mem_cons, List.not_mem_nil, or_false] at hmem
  rcases hmem with rfl | rfl | rfl
  · decide
  · decide
  · rw [BitVec.toNat_ofNat]
    simp only [sizeofFatDirectoryItem]
    omega

theorem dirVolume_sector :
    fat16ClusterToSector (dirVolume n).header (fat16GetFirstCluster dirItem) =
      some ((6 : ℕ) : ℤ) := by
  unfold dirVolume
  dsimp only
  rw [fatHeader_dirDisk]
  decide

end DirDisk

/-- A directory of two entries is loaded. -/
theorem failed_load_small : ∃ f_item h', fat16NewFatItemForDirectoryItem (dirVolume 2) dirItem
    bootKernel.heap = some (some f_item, h') ∧ NothingDangling (dirVolume 2) [] f_item h' := by
  have hheader := @fatHeader_dirDisk 2
  have hread := @fat16ReadInternal_first (dirDisk 2) 4 0 (2 * sizeofFatDirectoryItem) (by decide)
    (by rw [hheader]; decide) (by rw [hheader]; decide) (by rw [hheader]; decide)
    (by rw [hheader]; decide)
  rw [Nat.cast_zero] at hread
  have hcount := @dirVolume_count 2 (by decide) (by decide)
  have hallocs := dirVolume_allocs (show 2 * 32 ≤ 4096 by decide) (by decide)
  obtain ⟨p, d, h', hrun, -⟩ := @fat16NewFatItem_directory (dirVolume 2) dirItem _ (by decide) _ _ _
    _ dirVolume_sector hcount hallocs hread
  refine ⟨_, h', hrun, ?_⟩
  refine (failed_load_iff heapOwns_bootKernel (by decide) hrun).mpr (fun _ => ?_) _ rfl
  refine ⟨6, 2, dirVolume_sector, hcount, hallocs, ?_⟩
  intro i hi
  have hfound := (fat16ReadInternalBy_zero_iff _ _ _ _ 0 _ _ hread).mp rfl i hi
  rw [Nat.zero_add] at hfound
  exact hfound

/-- The second cluster of a directory of 17 entries is not found. -/
theorem dirVolume_read_fails : fat16ReadInternal (dirVolume 17).disk (dirVolume 17).header
    (4 : ℕ) 0 (17 * sizeofFatDirectoryItem : ℕ) =
      some (-eio, slice (dirDisk 17) 3072 512 ++ []) := by
  have hheader := @fatHeader_dirDisk 17
  have hround := @fat16ReadRound_eq (dirDisk 17) 4 0 512 (by decide) (by rw [hheader]; decide)
    (by rw [hheader]; decide) (by rw [hheader]; decide)
  have hentry : fat16GetFatEntry (dirDisk 17) ⟨1, 1, 2, 16, 1⟩ 4 = some 0 := by
    have hread := diskstreamerRead_eq (dirDisk 17) 2 4096 (by norm_num)
    have hpos : toInt32
        (((fat16GetFirstFatSector ⟨1, 1, 2, 16, 1⟩ * maerosSectorSize : ℕ) : ℤ) * 8) =
          ((4096 : ℕ) : ℤ) := by decide
    unfold fat16GetFatEntry
    refine Option.bind_eq_some_iff.mpr ⟨(8 : ℤ), by decide, ?_⟩
    rw [hpos]
    refine Option.bind_eq_some_iff.mpr ⟨_, hread, ?_⟩
    dsimp only
    decide
  have hsecond : fat16GetClusterForOffset (dirDisk 17) ⟨1, 1, 2, 16, 1⟩ 4 512 = some (-eio) := by
    unfold fat16GetClusterForOffset fat16ClusterForOffsetBy
    rw [if_neg (by decide),
      show ((512 : ℤ).tdiv (FatHeader.clusterBytes ⟨1, 1, 2, 16, 1⟩ : ℕ)).toNat = 1 from by decide]
    exact Option.bind_eq_some_iff.mpr ⟨0, hentry, rfl⟩
  have hfirst : fat16GetClusterForOffset (dirDisk 17) ⟨1, 1, 2, 16, 1⟩ 4 0 = some 4 := by
    unfold fat16GetClusterForOffset fat16ClusterForOffsetBy
    rw [if_neg (by decide), Int.zero_tdiv, Int.toNat_zero, fat16WalkChain]
  have hrest : fat16ReadInternalBy (fat16GetClusterForOffset (dirDisk 17) ⟨1, 1, 2, 16, 1⟩ 4)
      (dirDisk 17) ⟨1, 1, 2, 16, 1⟩ 512 32 = some (-eio, []) := by
    rw [fat16ReadInternalBy, dif_neg (by decide), hsecond, Option.bind_some, if_pos (by decide)]
  unfold dirVolume fat16ReadInternal
  dsimp only
  rw [hheader] at hround ⊢
  rw [fat16ReadInternalBy, dif_neg (by decide)]
  refine Option.bind_eq_some_iff.mpr ⟨4, hfirst, ?_⟩
  rw [if_neg (by decide), if_pos (by decide)]
  refine Option.bind_eq_some_iff.mpr ⟨_, hround, ?_⟩
  rw [if_pos (by decide)]
  exact Option.bind_eq_some_iff.mpr ⟨512, by decide,
    Option.bind_eq_some_iff.mpr ⟨_, hrest, rfl⟩⟩

/-- With 17 entries, in two clusters of 512 bytes, a pointer to the freed directory is left. -/
theorem failed_load_dangling : ∃ f_item h', HeapOwns bootKernel.heap [] ∧
    dirItem.isSubdirectory = true ∧ fat16NewFatItemForDirectoryItem (dirVolume 17) dirItem
      bootKernel.heap = some (some f_item, h') ∧ f_item.content = .directory .dangling ∧
    ¬ NothingDangling (dirVolume 17) [] f_item h' := by
  have hcount := @dirVolume_count 17 (by decide) (by decide)
  have hallocs := dirVolume_allocs (show 17 * 32 ≤ 4096 by decide) (by decide)
  obtain ⟨p, d, h', hrun, hd⟩ := @fat16NewFatItem_directory (dirVolume 17) dirItem _ (by decide)
    _ _ _ _ dirVolume_sector hcount hallocs dirVolume_read_fails
  obtain rfl := hd (by decide)
  exact ⟨_, h', heapOwns_bootKernel, by decide, hrun, rfl, fun hc => hc.content rfl⟩

end MaerOS.Analysis
