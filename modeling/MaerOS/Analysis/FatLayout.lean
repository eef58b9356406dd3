import Mathlib.Data.Int.ConditionallyCompleteOrder
import Mathlib.Order.CompletePartialOrder
import Mathlib.Order.Interval.Set.Disjoint
import MaerOS.Analysis.FatTable

/-!
# The layout of a volume

The data area begins behind the last sector that holds any of the root directory. The
driver rounds that sector down: where the root directory does not fill its sectors,
cluster 2 begins one sector too early. Positions are `int`, so that data behind the
first two gigabytes of a volume cannot be sought.
-/

set_option autoImplicit false

namespace MaerOS.Analysis

open MaerOS.Lib MaerOS.Model

/-! ## The areas of a volume -/

section Areas

variable (header : FatHeader)

/-- The sectors of a cluster. -/
def clusterSectors (c : ℕ) : Set ℤ :=
  {x | ∃ s, fat16ClusterToSector header c = some s ∧ s ≤ x ∧ x < s + header.sectors_per_cluster}

/-- The reserved sectors. -/
def reservedArea : Set ℤ := Set.Ico 0 header.reserved_sectors

/-- The sectors of a copy of the allocation table. -/
def fatCopyArea (k : ℕ) : Set ℤ :=
  Set.Ico (header.reserved_sectors + k * header.sectors_per_fat : ℕ)
    (header.reserved_sectors + (k + 1) * header.sectors_per_fat : ℕ)

/-- The first sector behind the last one that holds any of the root directory. -/
def firstDataSector : ℕ :=
  header.reserved_sectors + header.fat_copies * header.sectors_per_fat +
    (header.rootDirSize + 511) / 512

/-- The sectors that hold any of the root directory. -/
def rootDirArea : Set ℤ :=
  Set.Ico (header.reserved_sectors + header.fat_copies * header.sectors_per_fat : ℕ)
    (firstDataSector header)

/-- The layout that the format asks for: cluster 2 begins behind the root directory, and a cluster
shares no sector with another one or with the other areas. -/
structure LayoutGood : Prop where
  first : fat16ClusterToSector header 2 = some (firstDataSector header : ℤ)
  apart : ∀ c c', 2 ≤ c → 2 ≤ c' → c ≠ c' →
    Disjoint (clusterSectors header c) (clusterSectors header c')
  reserved : ∀ c, 2 ≤ c → Disjoint (clusterSectors header c) (reservedArea header)
  fats : ∀ c, 2 ≤ c → ∀ k < header.fat_copies,
    Disjoint (clusterSectors header c) (fatCopyArea header k)
  rootDir : ∀ c, 2 ≤ c → Disjoint (clusterSectors header c) (rootDirArea header)

variable {header}

/-- The sector of a cluster, where it is a number of the program. -/
theorem fat16ClusterToSector_some {c : ℕ} {s : ℤ} (h : fat16ClusterToSector header c = some s) :
    s = header.endingSectorPos + ((c : ℤ) - 2) * header.sectors_per_cluster := by
  unfold fat16ClusterToSector checkInt at h
  split at h
  · exact (Option.some.inj h).symm
  · cases h

/-- The sectors of a cluster lie in front of those of a later one. -/
theorem clusterSectors_lt {c c' : ℕ} (hlt : c < c') {x x' : ℤ} (hx : x ∈ clusterSectors header c)
    (hx' : x' ∈ clusterSectors header c') : x < x' := by
  obtain ⟨s, hs, -, hhigh⟩ := hx
  obtain ⟨s', hs', hlow, -⟩ := hx'
  have hstep : ((c : ℤ) - 2 + 1) * header.sectors_per_cluster ≤
      ((c' : ℤ) - 2) * header.sectors_per_cluster :=
    mul_le_mul_of_nonneg_right (by omega) (by omega)
  rw [add_mul, one_mul] at hstep
  rw [fat16ClusterToSector_some hs] at hhigh
  rw [fat16ClusterToSector_some hs'] at hlow
  omega

theorem clusterSectors_disjoint {c c' : ℕ} (hne : c ≠ c') :
    Disjoint (clusterSectors header c) (clusterSectors header c') := by
  rw [Set.disjoint_left]
  intro x hx hx'
  rcases Nat.lt_or_gt_of_ne hne with hlt | hgt
  · exact lt_irrefl x (clusterSectors_lt hlt hx hx')
  · exact lt_irrefl x (clusterSectors_lt hgt hx' hx)

/-- A root directory that fills its sectors ends where the data area begins. -/
theorem endingSectorPos_eq (hroot : header.rootDirSize % 512 = 0) :
    header.endingSectorPos = firstDataSector header := by
  unfold FatHeader.endingSectorPos firstDataSector FatHeader.rootDirSectorPos maerosSectorSize
  omega

/-- The data area of the driver begins behind everything else, where the root directory fills its
sectors. -/
theorem firstDataSector_le {c : ℕ} (hc : 2 ≤ c) (hroot : header.rootDirSize % 512 = 0) {x : ℤ}
    (hx : x ∈ clusterSectors header c) : (firstDataSector header : ℤ) ≤ x := by
  obtain ⟨s, hs, hlow, -⟩ := hx
  have hspc : (0 : ℤ) ≤ ((c : ℤ) - 2) * header.sectors_per_cluster :=
    mul_nonneg (by omega) (by omega)
  rw [fat16ClusterToSector_some hs, endingSectorPos_eq hroot] at hlow
  omega

end Areas

/-- The fields of a header are as wide as they are on the disk. -/
theorem fatHeader_lt (disk : Disk) : (fatHeader disk).sectors_per_cluster < 2 ^ 8 ∧
    (fatHeader disk).reserved_sectors < 2 ^ 16 ∧ (fatHeader disk).fat_copies < 2 ^ 8 ∧
    (fatHeader disk).root_dir_entries < 2 ^ 16 ∧ (fatHeader disk).sectors_per_fat < 2 ^ 16 :=
  ⟨(disk 13).isLt, word16_lt disk, (disk 16).isLt, word16_lt disk, word16_lt disk⟩

theorem endingSectorPos_lt (disk : Disk) : (fatHeader disk).endingSectorPos < 2 ^ 25 := by
  obtain ⟨-, hres, hcopies, hroot, hspf⟩ := fatHeader_lt disk
  have hfats : (fatHeader disk).fat_copies * (fatHeader disk).sectors_per_fat ≤ 2 ^ 8 * 2 ^ 16 :=
    Nat.mul_le_mul hcopies.le hspf.le
  unfold FatHeader.endingSectorPos FatHeader.rootDirSectorPos FatHeader.rootDirSize
    sizeofFatDirectoryItem maerosSectorSize
  omega

/-- **The layout is that of the format** exactly when the root directory fills its sectors. -/
theorem layout_iff (disk : Disk) :
    LayoutGood (fatHeader disk) ↔ (fatHeader disk).rootDirSize % 512 = 0 := by
  have htwo : fat16ClusterToSector (fatHeader disk) (2 : ℕ) =
      some ((fatHeader disk).endingSectorPos : ℤ) := by
    have hlow := endingSectorPos_lt disk
    unfold fat16ClusterToSector
    rw [Nat.cast_ofNat, sub_self, zero_mul, add_zero]
    exact checkInt_natCast (by omega)
  constructor
  · intro hgood
    have heq := hgood.first.symm.trans htwo
    rw [Option.some.injEq, Nat.cast_inj] at heq
    unfold FatHeader.endingSectorPos firstDataSector FatHeader.rootDirSectorPos
      maerosSectorSize at heq
    omega
  · intro hroot
    -- every other area lies below the first data sector
    have hbelow : ∀ c, 2 ≤ c → ∀ area : Set ℤ, (∀ x ∈ area, x < firstDataSector (fatHeader disk)) →
        Disjoint (clusterSectors (fatHeader disk) c) area := by
      intro c hc area harea
      rw [Set.disjoint_left]
      intro x hx hxarea
      have hfirst := firstDataSector_le hc hroot hx
      have hlast := harea x hxarea
      omega
    refine ⟨?_, fun _ _ _ _ hne => clusterSectors_disjoint hne, ?_, ?_, ?_⟩
    · rw [endingSectorPos_eq hroot] at htwo
      exact htwo
    · intro c hc
      apply hbelow c hc
      intro x hx
      have hhigh := hx.2
      unfold firstDataSector
      omega
    · intro c hc k hk
      apply hbelow c hc
      intro x hx
      have hhigh := hx.2
      have hcopy : (k + 1) * (fatHeader disk).sectors_per_fat ≤
          (fatHeader disk).fat_copies * (fatHeader disk).sectors_per_fat :=
        Nat.mul_le_mul_right _ hk
      unfold firstDataSector
      omega
    · intro c hc
      exact hbelow c hc _ fun x hx => hx.2

/-- A volume with one entry in its root directory. -/
def oneEntryDisk : Disk := Function.update twoClusterDisk 17 0x01#8

/-- Its root directory lies in sector 3, and so does cluster 2. -/
theorem layout_bad : fat16ClusterToSector (fatHeader oneEntryDisk) 2 = some 3 ∧
    (3 : ℤ) ∈ rootDirArea (fatHeader oneEntryDisk) ∧ ¬ LayoutGood (fatHeader oneEntryDisk) := by
  have htwo : fat16ClusterToSector (fatHeader oneEntryDisk) 2 = some 3 := by decide
  refine ⟨htwo, ⟨by decide, by decide⟩, fun hgood => ?_⟩
  have heq := hgood.first.symm.trans htwo
  exact absurd heq (by decide)

/-! ## The position of a byte of a cluster -/

/-- A round of the read: the position, and the bytes there. -/
theorem fat16ReadRound_eq_bind (disk : Disk) (header : FatHeader) (c offset total : ℤ) :
    fat16ReadRound disk header c offset total =
      (fat16StartingPos header c offset).bind fun pos =>
        (diskstreamerRead disk pos total).map StreamRead.out := by
  unfold fat16ReadRound fat16StartingPos
  cases fat16ClusterToSector header c with
  | none => rfl
  | some s =>
    simp only [Option.bind_eq_bind, Option.bind_some]
    cases checkInt (s * (maerosSectorSize : ℕ)) with
    | none => rfl
    | some b =>
      simp only [Option.bind_some]
      cases checkInt (b + offset.tmod header.clusterBytes) with
      | none => rfl
      | some pos => cases h : diskstreamerRead disk pos total <;> simp [h]

/-- The sector of the driver in which the data of a cluster begins. -/
def driverSector (header : FatHeader) (c : ℕ) : ℕ :=
  header.endingSectorPos + (c - 2) * header.sectors_per_cluster

/-- **The starting position** is that of the cluster and of the offset in it, where it is an
`int`. -/
theorem fat16StartingPos_eq (disk : Disk) {c : ℕ} (hc : 2 ≤ c) (hc' : c < 2 ^ 16) (offset : ℕ) :
    fat16StartingPos (fatHeader disk) c offset =
      if 512 * driverSector (fatHeader disk) c + offset % (fatHeader disk).clusterBytes < 2 ^ 31 then
        some ((512 * driverSector (fatHeader disk) c +
          offset % (fatHeader disk).clusterBytes : ℕ) : ℤ)
      else none := by
  have hsector : fat16ClusterToSector (fatHeader disk) c =
      some (driverSector (fatHeader disk) c : ℤ) := by
    have hspc := (fatHeader_lt disk).1
    have hending := endingSectorPos_lt disk
    have hdata : (c - 2) * (fatHeader disk).sectors_per_cluster ≤ 2 ^ 16 * 2 ^ 8 :=
      Nat.mul_le_mul (by omega) hspc.le
    have hcast : ((fatHeader disk).endingSectorPos : ℤ) +
        ((c : ℤ) - 2) * (fatHeader disk).sectors_per_cluster =
          (driverSector (fatHeader disk) c : ℕ) := by
      unfold driverSector
      rw [Nat.cast_add, Nat.cast_mul, Nat.cast_sub hc]
      rfl
    unfold fat16ClusterToSector
    rw [hcast]
    apply checkInt_natCast
    unfold driverSector
    omega
  have hmod : (offset : ℤ).tmod (fatHeader disk).clusterBytes =
      ((offset % (fatHeader disk).clusterBytes : ℕ) : ℤ) := by
    rw [Int.tmod_eq_emod_of_nonneg (by omega), Int.natCast_emod]
  have hbyte : (driverSector (fatHeader disk) c : ℤ) * (maerosSectorSize : ℕ) =
      ((512 * driverSector (fatHeader disk) c : ℕ) : ℤ) := by
    rw [← Nat.cast_mul, mul_comm]
  unfold fat16StartingPos
  dsimp only
  rw [hmod, hsector, Option.bind_eq_bind, Option.bind_some, hbyte, checkInt_natCast_ite]
  split
  · rw [Option.bind_some, ← Nat.cast_add, checkInt_natCast_ite]
  · rw [if_neg (by omega)]
    rfl

/-- The first sector that a read asks for is that of its position. -/
theorem diskstreamerRead_head (disk : Disk) {pos total : ℤ} {read : StreamRead}
    (h : diskstreamerRead disk pos total = some read) :
    read.sectors.head? = some (pos / maerosSectorSize).toNat := by
  rw [diskstreamerRead] at h
  split at h
  · cases h
  · split at h
    · dsimp only at h
      split at h
      · cases h
      · obtain ⟨rest, -, h⟩ := Option.bind_eq_some_iff.mp h
        cases h
        rfl
    · cases h
      rfl

/-- The byte of a cluster at an offset of the file is sought at its true position, and the stream
derives its true sector from that. -/
def SeeksTrue (disk : Disk) (c offset : ℕ) : Prop :=
  ∃ pos, fat16StartingPos (fatHeader disk) c offset = some pos ∧
    pos = 512 * (dataSector (fatHeader disk) c : ℤ) + (offset % (fatHeader disk).clusterBytes : ℕ) ∧
    ∀ total read, diskstreamerRead disk pos total = some read →
      read.sectors.head? = some
        (dataSector (fatHeader disk) c + offset % (fatHeader disk).clusterBytes / 512)

/-- The sectors of the volume, as its header counts them. -/
def volumeSectors (disk : Disk) : ℕ :=
  if disk.word16 19 = 0 then disk.word16 32 + 2 ^ 16 * disk.word16 34 else disk.word16 19

/-- **A byte is sought at its true position** exactly when the root directory fills its sectors and
the byte lies in the first two gigabytes. -/
theorem seeks_true_iff (disk : Disk) (c offset : ℕ) (hc : 2 ≤ c) (hc' : c ≤ 0xFFEF) :
    SeeksTrue disk c offset ↔ (fatHeader disk).rootDirSize % 512 = 0 ∧
      512 * dataSector (fatHeader disk) c + offset % (fatHeader disk).clusterBytes < 2 ^ 31 := by
  have hpos := fat16StartingPos_eq disk hc (show c < 2 ^ 16 by omega) offset
  have hroot : driverSector (fatHeader disk) c = dataSector (fatHeader disk) c ↔
      (fatHeader disk).rootDirSize % 512 = 0 := by
    unfold driverSector dataSector FatHeader.endingSectorPos FatHeader.rootDirSectorPos
      FatHeader.rootDirSize sizeofFatDirectoryItem maerosSectorSize
    omega
  constructor
  · rintro ⟨pos, hseek, htrue, -⟩
    rw [hpos] at hseek
    split at hseek
    · rename_i hlow
      have heq : driverSector (fatHeader disk) c = dataSector (fatHeader disk) c := by
        have := (Option.some.inj hseek).trans htrue
        push_cast at this
        omega
      rw [heq] at hlow
      exact ⟨hroot.mp heq, hlow⟩
    · cases hseek
  · rintro ⟨hfull, hlow⟩
    rw [hroot.mpr hfull, if_pos hlow] at hpos
    refine ⟨_, hpos, by push_cast; rfl, fun total read hread => ?_⟩
    rw [diskstreamerRead_head disk hread, toNat_sector]
    congr 1
    omega

/-- The volume of the shipped boot sector. `boot.asm:13-25` -/
def bootDisk : Disk := fun i =>
  (([(12, 0x02#8), (13, 0x80#8), (14, 0xC8#8), (16, 0x02#8), (17, 0x40#8), (21, 0xF8#8),
    (23, 0x01#8), (24, 0x20#8), (26, 0x40#8), (32, 0x94#8), (33, 0x35#8), (34, 0x77#8),
    (36, 0x80#8), (38, 0x29#8)] : List (ℕ × BitVec 8)).lookup i).getD 0x00#8

/-- A byte of its cluster 1000, in the second of the 128 sectors. -/
theorem seeks_true_iff_boot : (2 ≤ 1000 ∧ 1000 ≤ 0xFFEF) ∧ SeeksTrue bootDisk 1000 66100 :=
  ⟨by decide, (seeks_true_iff bootDisk 1000 66100 (by decide) (by decide)).mpr (by decide)⟩

/-- Cluster 40000 of this volume cannot be sought. -/
theorem seeks_true_fails : 512 * volumeSectors bootDisk ≤ 2 ^ 32 ∧
    dataSector (fatHeader bootDisk) 40000 + (fatHeader bootDisk).sectors_per_cluster ≤
      volumeSectors bootDisk ∧
    fat16StartingPos (fatHeader bootDisk) (40000 : ℕ) (0 : ℕ) = none ∧
    ¬ SeeksTrue bootDisk 40000 0 := by
  have hnone : fat16StartingPos (fatHeader bootDisk) (40000 : ℕ) (0 : ℕ) = none := by
    rw [fat16StartingPos_eq bootDisk (by decide) (by decide)]
    exact if_neg (by decide)
  refine ⟨by decide, by decide, hnone, ?_⟩
  rintro ⟨pos, hseek, -⟩
  rw [hnone] at hseek
  cases hseek

end MaerOS.Analysis
