import MaerOS.Model.Fat16
import MaerOS.Analysis.Streamer
import Mathlib.Tactic.IntervalCases

/-!
# Reading files of a FAT16 volume

The read of a file is compared with what the format says the file is: the data of its
clusters, in the order of its chain in the first allocation table.
-/

set_option autoImplicit false

namespace MaerOS.Analysis

open MaerOS.Lib MaerOS.Model

/-! ## Files of a volume -/

/-- The entry of a cluster in the first allocation table. -/
def fatEntry (disk : Disk) (c : ℕ) : ℕ :=
  disk.word16 (512 * (fatHeader disk).reserved_sectors + 2 * c)

/-- The first sector of the data of a cluster: behind the reserved sectors, the copies of the
allocation table and the sectors that hold any of the root directory. -/
def dataSector (header : FatHeader) (c : ℕ) : ℕ :=
  header.reserved_sectors + header.fat_copies * header.sectors_per_fat +
    (32 * header.root_dir_entries + 511) / 512 + (c - 2) * header.sectors_per_cluster

/-- The data of a cluster. -/
def clusterData (disk : Disk) (c : ℕ) : List (BitVec 8) :=
  slice disk (512 * dataSector (fatHeader disk) c) (fatHeader disk).clusterBytes

/-- The list is the chain of clusters from its head on, up to an end-of-chain value. -/
inductive FatChain (disk : Disk) : List ℕ → Prop
  | last {c : ℕ} : 0xFFF8 ≤ fatEntry disk c → FatChain disk [c]
  | link {c c' : ℕ} {cs : List ℕ} : fatEntry disk c = c' → FatChain disk (c' :: cs) →
      FatChain disk (c :: c' :: cs)

/-- A well-formed volume with a file on it: `chain` is its chain of clusters, each of them a data
cluster with an entry in the table, and `filesize` bytes of their data belong to it. -/
structure Fat16File (disk : Disk) (chain : List ℕ) (filesize : ℕ) : Prop where
  sector : disk.word16 11 = 512
  cluster : ∃ k ≤ 7, (fatHeader disk).sectors_per_cluster = 2 ^ k
  reserved : 1 ≤ (fatHeader disk).reserved_sectors
  copies : 1 ≤ (fatHeader disk).fat_copies
  signature : disk 38 = 0x29#8
  ends : FatChain disk chain
  inTable : ∀ c ∈ chain, 2 ≤ c ∧ c ≤ 0xFFEF ∧ 2 * c + 2 ≤ 512 * (fatHeader disk).sectors_per_fat
  size : filesize ≤ chain.length * (fatHeader disk).clusterBytes

/-- The bytes `[offset, offset + total)` of a file. -/
def fileBytes (disk : Disk) (chain : List ℕ) (offset total : ℕ) : List (BitVec 8) :=
  ((chain.flatMap (clusterData disk)).drop offset).take total

/-- `fat16_read_internal` from the first cluster of the chain succeeds and stores exactly the bytes
`[offset, offset + total)` of the file. -/
def ReadsFile (disk : Disk) (chain : List ℕ) (offset total : ℕ) : Prop :=
  fat16ReadInternal disk (fatHeader disk) (chain.headD 0 : ℕ) offset total =
    some (0, fileBytes disk chain offset total)

/-- What the read needs: it begins in the first cluster and takes no more than a cluster's worth of
bytes; they lie in that cluster, or the chain goes on right behind it; the root directory fills its
sectors; and the bytes lie below the two-gigabyte limit of an `int` position. -/
structure FirstClusterRead (disk : Disk) (chain : List ℕ) (offset total : ℕ) : Prop where
  begins : offset < (fatHeader disk).clusterBytes
  most : total ≤ (fatHeader disk).clusterBytes
  inRow : offset + total ≤ (fatHeader disk).clusterBytes ∨
    ∃ c cs, chain = c :: (c + 1) :: cs
  rootFull : 32 * (fatHeader disk).root_dir_entries % 512 = 0
  below : 512 * dataSector (fatHeader disk) (chain.headD 0) + offset + total < 2 ^ 31

/-! ## One round of the read -/

/-- Where the root directory fills its sectors, the driver's data area is the volume's. -/
theorem fat16ClusterToSector_eq {header : FatHeader} {c : ℕ} (hc : 2 ≤ c)
    (hroot : 32 * header.root_dir_entries % 512 = 0) (hlow : dataSector header c < 2 ^ 31) :
    fat16ClusterToSector header c = some (dataSector header c : ℤ) := by
  have hsum : (header.endingSectorPos : ℤ) + ((c : ℤ) - 2) * header.sectors_per_cluster =
      (dataSector header c : ℕ) := by
    unfold FatHeader.endingSectorPos FatHeader.rootDirSectorPos FatHeader.rootDirSize dataSector
    obtain ⟨d, rfl⟩ := Nat.exists_eq_add_of_le hc
    rw [Nat.add_sub_cancel_left]
    push_cast
    have hdiv : (header.root_dir_entries : ℤ) * 32 / 512 =
        (32 * (header.root_dir_entries : ℤ) + 511) / 512 := by
      omega
    rw [hdiv]
    ring
  unfold fat16ClusterToSector
  rw [hsum]
  exact checkInt_natCast hlow

/-- A round of the read inside one cluster delivers the bytes there. -/
theorem fat16ReadRound_eq (disk : Disk) {c offset total : ℕ} (hc : 2 ≤ c)
    (hroot : 32 * (fatHeader disk).root_dir_entries % 512 = 0)
    (hoff : offset < (fatHeader disk).clusterBytes)
    (hlow : 512 * dataSector (fatHeader disk) c + offset + total < 2 ^ 31) :
    fat16ReadRound disk (fatHeader disk) c offset total =
      some (slice disk (512 * dataSector (fatHeader disk) c + offset) total) := by
  have hread := diskstreamerRead_eq disk total (512 * dataSector (fatHeader disk) c + offset) hlow
  have hmod : (offset : ℤ).tmod (fatHeader disk).clusterBytes = offset := by
    rw [Int.tmod_eq_emod_of_nonneg (by omega), Int.emod_eq_of_lt (by omega) (by omega)]
  have hsector : fat16ClusterToSector (fatHeader disk) c =
      some (dataSector (fatHeader disk) c : ℤ) := fat16ClusterToSector_eq hc hroot (by omega)
  have hbyte : checkInt ((dataSector (fatHeader disk) c : ℤ) * (maerosSectorSize : ℕ)) =
      some ((512 * dataSector (fatHeader disk) c : ℕ) : ℤ) := by
    rw [← Nat.cast_mul, mul_comm]
    exact checkInt_natCast (by simp only [maerosSectorSize]; omega)
  have hpos : checkInt (((512 * dataSector (fatHeader disk) c : ℕ) : ℤ) + (offset : ℤ)) =
      some ((512 * dataSector (fatHeader disk) c + offset : ℕ) : ℤ) := by
    rw [← Nat.cast_add]
    exact checkInt_natCast (by omega)
  unfold fat16ReadRound
  rw [hmod]
  refine Option.bind_eq_some_iff.mpr ⟨_, hsector, ?_⟩
  refine Option.bind_eq_some_iff.mpr ⟨_, hbyte, ?_⟩
  refine Option.bind_eq_some_iff.mpr ⟨_, hpos, ?_⟩
  exact Option.bind_eq_some_iff.mpr ⟨_, hread, rfl⟩

/-- A read of at most a cluster's worth of bytes that begins in the first cluster makes one round
there and no lookup in the allocation table. -/
theorem fat16ReadInternal_first (disk : Disk) {c offset total : ℕ} (hc : 2 ≤ c)
    (hroot : 32 * (fatHeader disk).root_dir_entries % 512 = 0)
    (hoff : offset < (fatHeader disk).clusterBytes) (hmost : total ≤ (fatHeader disk).clusterBytes)
    (hlow : 512 * dataSector (fatHeader disk) c + offset + total < 2 ^ 31) :
    fat16ReadInternal disk (fatHeader disk) c offset total =
      some (0, slice disk (512 * dataSector (fatHeader disk) c + offset) total) := by
  have hahead : ((offset : ℤ).tdiv (fatHeader disk).clusterBytes).toNat = 0 := by
    rw [Int.tdiv_eq_ediv_of_nonneg (by omega), Int.ediv_eq_zero_of_lt (by omega) (by omega)]
    rfl
  have hlookup : fat16GetClusterForOffset disk (fatHeader disk) c offset = some (c : ℤ) := by
    unfold fat16GetClusterForOffset fat16ClusterForOffsetBy
    rw [if_neg (by omega), hahead, fat16WalkChain]
  unfold fat16ReadInternal
  rw [fat16ReadInternalBy, dif_neg (by omega), hlookup, Option.bind_some, if_neg (by omega)]
  dsimp only
  rw [if_neg (by omega), fat16ReadRound_eq disk hc hroot hoff hlow, Option.bind_some,
    if_neg (by omega)]

/-! ## The bytes of the file -/

theorem dataSector_succ (header : FatHeader) {c : ℕ} (hc : 2 ≤ c) :
    512 * dataSector header (c + 1) = 512 * dataSector header c + header.clusterBytes := by
  unfold dataSector FatHeader.clusterBytes
  rw [show c + 1 - 2 = (c - 2) + 1 from by omega, maerosSectorSize]
  ring

/-- Bytes inside the first cluster are a slice of the disk. -/
theorem fileBytes_first (disk : Disk) (c : ℕ) (cs : List ℕ) {offset total : ℕ}
    (hin : offset + total ≤ (fatHeader disk).clusterBytes) :
    fileBytes disk (c :: cs) offset total =
      slice disk (512 * dataSector (fatHeader disk) c + offset) total := by
  unfold fileBytes
  rw [List.flatMap_cons]
  exact take_drop_slice_append disk _ hin _

/-- A piece of the first two clusters is a piece of the file, when they lie in a row. -/
theorem fileBytes_inRow (disk : Disk) {c : ℕ} (hc : 2 ≤ c) (cs : List ℕ) {offset total : ℕ}
    (hin : offset + total ≤ (fatHeader disk).clusterBytes + (fatHeader disk).clusterBytes) :
    fileBytes disk (c :: (c + 1) :: cs) offset total =
      slice disk (512 * dataSector (fatHeader disk) c + offset) total := by
  have htwo : clusterData disk c ++ clusterData disk (c + 1) =
      slice disk (512 * dataSector (fatHeader disk) c)
        ((fatHeader disk).clusterBytes + (fatHeader disk).clusterBytes) := by
    unfold clusterData
    rw [dataSector_succ _ hc, slice_append]
  unfold fileBytes
  rw [List.flatMap_cons, List.flatMap_cons, ← List.append_assoc, htwo]
  exact take_drop_slice_append disk _ hin _

/-- **Reads of at most a cluster from the first cluster on are correct**, for every file of every
volume. -/
theorem fat16_read_correct {disk : Disk} {chain : List ℕ} {filesize : ℕ}
    (hfile : Fat16File disk chain filesize) {offset total : ℕ}
    (hread : FirstClusterRead disk chain offset total) : ReadsFile disk chain offset total := by
  obtain ⟨c, cs, rfl⟩ : ∃ c cs, chain = c :: cs := by
    cases hfile.ends with
    | last _ => exact ⟨_, _, rfl⟩
    | link _ _ => exact ⟨_, _, rfl⟩
  have hc : 2 ≤ c := (hfile.inTable c List.mem_cons_self).1
  have hbegins := hread.begins
  have hmost := hread.most
  unfold ReadsFile
  rw [List.headD_cons, fat16ReadInternal_first disk hc hread.rootFull hbegins hmost hread.below]
  rcases hread.inRow with hone | ⟨d, ds, hrow⟩
  · rw [fileBytes_first disk c cs hone]
  · obtain ⟨rfl, rfl⟩ := List.cons.inj hrow
    rw [fileBytes_inRow disk hc ds (by omega)]

/-! ## A file of two clusters -/

/-- A volume of one sector per cluster with a file of the two clusters 2 and 3, of 600 zero
bytes. -/
def twoClusterDisk : Disk := fun i =>
  (([(12, 0x02#8), (13, 0x01#8), (14, 0x01#8), (16, 0x02#8), (17, 0x10#8), (22, 0x01#8),
    (38, 0x29#8), (516, 0x03#8), (518, 0xff#8), (519, 0xff#8)] : List (ℕ × BitVec 8)).lookup i).getD
    0x00#8

/-- The header of the volume. -/
theorem fatHeader_twoClusterDisk : fatHeader twoClusterDisk = ⟨1, 1, 2, 16, 1⟩ := by decide

theorem fat16File_twoClusterDisk : Fat16File twoClusterDisk [2, 3] 600 := by
  refine ⟨by decide, ⟨0, by decide, by decide⟩, by decide, by decide, by decide, ?_, by decide,
    by decide⟩
  exact .link (by decide) (.last (by decide))

/-- Its first cluster can be read to the end. -/
theorem fat16_read_correct_twoClusterDisk :
    (Fat16File twoClusterDisk [2, 3] 600 ∧ FirstClusterRead twoClusterDisk [2, 3] 100 412) ∧
      ReadsFile twoClusterDisk [2, 3] 100 412 := by
  have hread : FirstClusterRead twoClusterDisk [2, 3] 100 412 :=
    ⟨by decide, by decide, .inl (by decide), by decide, by decide⟩
  exact ⟨⟨fat16File_twoClusterDisk, hread⟩, fat16_read_correct fat16File_twoClusterDisk hread⟩

/-- The lookup in the allocation table reads the data of cluster 2 instead of its entry. -/
theorem fat16GetFatEntry_twoClusterDisk :
    fat16GetFatEntry twoClusterDisk ⟨1, 1, 2, 16, 1⟩ 2 = some 0 := by
  have hread := diskstreamerRead_eq twoClusterDisk 2 2048 (by norm_num)
  have hpos : toInt32 (((fat16GetFirstFatSector ⟨1, 1, 2, 16, 1⟩ * maerosSectorSize : ℕ) : ℤ) * 4) =
      ((2048 : ℕ) : ℤ) := by decide
  unfold fat16GetFatEntry
  refine Option.bind_eq_some_iff.mpr ⟨(4 : ℤ), by decide, ?_⟩
  rw [hpos]
  refine Option.bind_eq_some_iff.mpr ⟨_, hread, ?_⟩
  dsimp only
  decide

/-- The byte at offset 512 of the file is not read: the call returns `-EIO`. -/
theorem fat16_read_fails_twoClusterDisk :
    Fat16File twoClusterDisk [2, 3] 600 ∧ 512 + 1 ≤ 600 ∧
      ¬ ReadsFile twoClusterDisk [2, 3] 512 1 := by
  refine ⟨fat16File_twoClusterDisk, by decide, ?_⟩
  have hlookup : fat16GetClusterForOffset twoClusterDisk ⟨1, 1, 2, 16, 1⟩ 2 512 = some (-eio) := by
    unfold fat16GetClusterForOffset fat16ClusterForOffsetBy
    rw [if_neg (by decide),
      show ((512 : ℤ).tdiv (FatHeader.clusterBytes ⟨1, 1, 2, 16, 1⟩ : ℕ)).toNat = 1 from by decide]
    exact Option.bind_eq_some_iff.mpr ⟨0, fat16GetFatEntry_twoClusterDisk, rfl⟩
  have hcode : fat16ReadInternal twoClusterDisk ⟨1, 1, 2, 16, 1⟩ 2 512 1 = some (-eio, []) := by
    unfold fat16ReadInternal
    rw [fat16ReadInternalBy, dif_neg (by decide), hlookup, Option.bind_some, if_pos (by decide)]
  intro h
  unfold ReadsFile at h
  rw [fatHeader_twoClusterDisk] at h
  have heq := h.symm.trans hcode
  rw [Option.some.injEq, Prod.mk.injEq] at heq
  exact absurd heq.1 (by decide)

end MaerOS.Analysis
