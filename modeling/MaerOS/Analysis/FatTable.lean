import Mathlib.Logic.Function.Iterate
import MaerOS.Analysis.FatRead

/-!
# The allocation table and the chains in it

`fat16_get_fat_entry` reads a word of the disk, but not the entry: it multiplies the
position of the table by the offset in it instead of adding the two. The walk along
a chain stops at the values that end a chain of a FAT12 volume, which are clusters
like any other here, and goes on through those that end one of a FAT16 volume.
-/

set_option autoImplicit false

namespace MaerOS.Analysis

open MaerOS.Lib MaerOS.Model

/-! ## Words of the disk -/

section Words

variable (disk : Disk) {b n : ℕ} (v : BitVec 8)

theorem word16_update_self :
    Disk.word16 (Function.update disk n v) n = v.toNat + 256 * (disk (n + 1)).toNat := by
  unfold Disk.word16
  rw [Function.update_self, Function.update_of_ne (by omega)]

theorem word16_update_of_ne (hb : n ≠ b) (hb' : n + 1 ≠ b) :
    Disk.word16 (Function.update disk b v) n = disk.word16 n := by
  unfold Disk.word16
  rw [Function.update_of_ne hb, Function.update_of_ne hb']

/-- The header does not depend on the bytes before and behind its fields. -/
theorem fatHeader_update (hb : b < 13 ∨ 24 ≤ b) :
    fatHeader (Function.update disk b v) = fatHeader disk := by
  unfold fatHeader
  simp only [word16_update_of_ne disk v (show 14 ≠ b by omega) (by omega),
    word16_update_of_ne disk v (show 17 ≠ b by omega) (by omega),
    word16_update_of_ne disk v (show 22 ≠ b by omega) (by omega),
    Function.update_of_ne (show 13 ≠ b by omega), Function.update_of_ne (show 16 ≠ b by omega)]

theorem word16_lt : disk.word16 n < 2 ^ 16 := by
  unfold Disk.word16
  have hlow := (disk n).isLt
  have hhigh := (disk (n + 1)).isLt
  omega

end Words

/-! ## The lookup of an entry -/

/-- The position that the lookup of a cluster seeks to, as an `uint32_t`. -/
def fatSeekPos (header : FatHeader) (c : ℕ) : ℕ :=
  512 * header.reserved_sectors * (2 * c) % 2 ^ 32

/-- **`fat16_get_fat_entry`** reads the word at the position it seeks to. -/
theorem fat16GetFatEntry_eq (disk : Disk) (header : FatHeader) {c : ℕ} (hc : c < 2 ^ 30) :
    fat16GetFatEntry disk header c =
      if fatSeekPos header c + 2 < 2 ^ 31 then some (disk.word16 (fatSeekPos header c) : ℤ)
      else none := by
  have hoff : checkInt ((c : ℤ) * 2) = some ((c * 2 : ℕ) : ℤ) := by
    have h := checkInt_natCast (show c * 2 < 2 ^ 31 by omega)
    rw [Nat.cast_mul] at h
    rw [Nat.cast_mul]
    exact h
  have hpos : ((fat16GetFirstFatSector header * maerosSectorSize : ℕ) : ℤ) * ((c * 2 : ℕ) : ℤ) =
      ((512 * header.reserved_sectors * (2 * c) : ℕ) : ℤ) := by
    unfold fat16GetFirstFatSector maerosSectorSize
    push_cast
    ring
  have hseek : 512 * header.reserved_sectors * (2 * c) % 2 ^ 32 = fatSeekPos header c := rfl
  unfold fat16GetFatEntry
  rw [hoff, Option.bind_eq_bind, Option.bind_some, hpos, toInt32_wrap, hseek]
  by_cases hlow : fatSeekPos header c + 2 < 2 ^ 31
  · have hread := diskstreamerRead_eq disk 2 (fatSeekPos header c) hlow
    rw [if_pos hlow, if_pos (by omega)]
    refine Option.bind_eq_some_iff.mpr ⟨_, hread, ?_⟩
    unfold Disk.word16
    push_cast
    rfl
  · rw [if_neg hlow]
    by_cases hsign : fatSeekPos header c < 2 ^ 31
    · rw [if_pos hsign]
      have hread := diskstreamerRead_none disk 2 (fatSeekPos header c) hsign (by omega)
      exact Option.bind_eq_none_iff.mpr fun _ h => by cases hread.symm.trans h
    · rw [if_neg hsign]
      have hlt : fatSeekPos header c < 2 ^ 32 := Nat.mod_lt _ (by norm_num)
      have hneg : (fatSeekPos header c : ℤ) - 2 ^ 32 < 0 := by omega
      have hread := diskstreamerRead_neg disk 2 hneg
      exact Option.bind_eq_none_iff.mpr fun _ h => by cases hread.symm.trans h

/-- A position that is not that of the entry is told apart from it by the contents of the disk. -/
theorem exists_disk_word16_ne (disk : Disk) {r c : ℕ} (hr : (fatHeader disk).reserved_sectors = r)
    {pos : ℕ} (hpos : pos % 2 = 0) (hzero : r = 0 → pos = 0) (hne : pos ≠ 512 * r + 2 * c) :
    ∃ disk', fatHeader disk' = fatHeader disk ∧ disk'.word16 pos ≠ fatEntry disk' c := by
  by_contra hsame
  push Not at hsame
  -- a byte outside the header, of one of the two words
  let b := if r = 0 then 0 else 512 * r + 2 * c
  have hheader : ∀ v, fatHeader (Function.update disk b v) = fatHeader disk := by
    intro v
    apply fatHeader_update
    unfold b
    split <;> omega
  have hword : ∀ v, Disk.word16 (Function.update disk b v) pos =
      Disk.word16 (Function.update disk b v) (512 * r + 2 * c) := by
    intro v
    have h := hsame _ (hheader v)
    unfold fatEntry at h
    rw [hheader v, hr] at h
    exact h
  have hzeros := hword 0#8
  have hones := hword 1#8
  unfold b at hzeros hones
  by_cases hr0 : r = 0
  · have hpos0 := hzero hr0
    subst hr0 hpos0
    simp only [↓reduceIte, word16_update_self] at hzeros hones
    rw [word16_update_of_ne disk _ (by omega) (by omega)] at hzeros hones
    simp at hzeros hones
    omega
  · simp only [if_neg hr0, word16_update_self] at hzeros hones
    rw [word16_update_of_ne disk _ (by omega) (by omega)] at hzeros hones
    simp at hzeros hones
    omega

/-- **The lookup returns the entry of the cluster**, whatever the disk holds, exactly when the
product of the two offsets happens to be their sum. -/
theorem get_fat_entry_iff (disk : Disk) (c : ℕ)
    (hin : 2 * c + 2 ≤ 512 * (fatHeader disk).sectors_per_fat) :
    (∀ disk', fatHeader disk' = fatHeader disk →
        fat16GetFatEntry disk' (fatHeader disk') c = some (fatEntry disk' c : ℤ)) ↔
      512 * (fatHeader disk).reserved_sectors * (2 * c) % 2 ^ 32 =
        512 * (fatHeader disk).reserved_sectors + 2 * c := by
  have hspf : (fatHeader disk).sectors_per_fat < 2 ^ 16 := word16_lt disk
  have hres : (fatHeader disk).reserved_sectors < 2 ^ 16 := word16_lt disk
  have hlookup : ∀ disk', fat16GetFatEntry disk' (fatHeader disk) c =
      if fatSeekPos (fatHeader disk) c + 2 < 2 ^ 31 then
        some (disk'.word16 (fatSeekPos (fatHeader disk) c) : ℤ) else none :=
    fun disk' => fat16GetFatEntry_eq disk' _ (by omega)
  constructor
  · intro hall
    by_contra hne
    have heven : fatSeekPos (fatHeader disk) c % 2 = 0 := by
      unfold fatSeekPos
      rw [Nat.mod_mod_of_dvd _ (by norm_num), show 512 * (fatHeader disk).reserved_sectors *
        (2 * c) = 2 * (512 * (fatHeader disk).reserved_sectors * c) from by ring]
      exact Nat.mul_mod_right 2 _
    have hzero : (fatHeader disk).reserved_sectors = 0 → fatSeekPos (fatHeader disk) c = 0 := by
      intro h
      unfold fatSeekPos
      rw [h, Nat.mul_zero, Nat.zero_mul, Nat.zero_mod]
    obtain ⟨disk', hheader, hword⟩ := exists_disk_word16_ne disk rfl heven hzero hne
    have h := hall disk' hheader
    rw [hheader, hlookup disk'] at h
    by_cases hlow : fatSeekPos (fatHeader disk) c + 2 < 2 ^ 31
    · rw [if_pos hlow, Option.some.injEq, Nat.cast_inj] at h
      exact hword h
    · rw [if_neg hlow] at h
      cases h
  · intro hsum disk' hheader
    have hseek : fatSeekPos (fatHeader disk) c =
        512 * (fatHeader disk).reserved_sectors + 2 * c := hsum
    rw [hheader, hlookup disk', hseek, if_pos (by omega)]
    unfold fatEntry
    rw [hheader]

/-- A volume whose first table begins in sector 31969 and takes 288 sectors. -/
def luckyDisk : Disk := fun i =>
  (([(14, 0xe1#8), (15, 0x7c#8), (22, 0x20#8), (23, 0x01#8)] : List (ℕ × BitVec 8)).lookup i).getD
    0x00#8

/-- There the product for the entry 73472 is the sum, and the lookup is right. -/
theorem get_fat_entry_iff_lucky :
    2 * 73472 + 2 ≤ 512 * (fatHeader luckyDisk).sectors_per_fat ∧
    ∀ disk', fatHeader disk' = fatHeader luckyDisk →
      fat16GetFatEntry disk' (fatHeader disk') (73472 : ℕ) = some (fatEntry disk' 73472 : ℤ) := by
  have hin : 2 * 73472 + 2 ≤ 512 * (fatHeader luckyDisk).sectors_per_fat := by decide
  exact ⟨hin, (get_fat_entry_iff luckyDisk 73472 hin).mpr (by decide)⟩

/-- The entry of cluster 2 is 3, and the lookup returns a word of the data of the file. -/
theorem get_fat_entry_wrong : 2 * 2 + 2 ≤ 512 * (fatHeader twoClusterDisk).sectors_per_fat ∧
    fat16GetFatEntry twoClusterDisk (fatHeader twoClusterDisk) 2 = some 0 ∧
    fatEntry twoClusterDisk 2 = 3 := by
  refine ⟨by decide, ?_, by decide⟩
  rw [fatHeader_twoClusterDisk]
  exact fat16GetFatEntry_twoClusterDisk

/-! ## The walk along a chain -/

/-- The values of a FAT16 table that are not the number of a next cluster: free, reserved, bad and
end of chain. -/
def fat16Marker (entry : ℤ) : Bool := entry == 0 || 0xFFF0 ≤ entry

/-- The walk stops at the first value that it knows for an end. -/
theorem fat16WalkChain_iterate (next : ℤ → ℤ) (k : ℕ) : ∀ start : ℤ,
    fat16WalkChain (fun c => some (next c)) k start =
      if ∃ j < k, fat16StopsChain (next^[j + 1] start) then some (-eio)
      else some (next^[k] start) := by
  induction k with
  | zero => intro start; simp [fat16WalkChain]
  | succ k ih =>
    intro start
    have hfirst : (∃ j < k + 1, fat16StopsChain (next^[j + 1] start)) ↔
        fat16StopsChain (next start) ∨ ∃ j < k, fat16StopsChain (next^[j + 1] (next start)) := by
      constructor
      · rintro ⟨_ | j, hj, hstop⟩
        · exact .inl hstop
        · exact .inr ⟨j, by omega, hstop⟩
      · rintro (hstop | ⟨j, hj, hstop⟩)
        · exact ⟨0, by omega, hstop⟩
        · exact ⟨j + 1, by omega, hstop⟩
    rw [fat16WalkChain, Option.bind_eq_bind, Option.bind_some]
    by_cases hstop : fat16StopsChain (next start)
    · rw [if_pos hstop, if_pos (hfirst.mpr (.inl hstop))]
    · rw [if_neg hstop, ih, Function.iterate_succ_apply]
      simp only [hfirst, hstop, Bool.false_eq_true, false_or]

section Walk

variable (next : ℤ → BitVec 16) (header : FatHeader) (starting_cluster : ℤ) (offset : ℕ)

/-- The value in the table behind a cluster. -/
def chainStep (cluster : ℤ) : ℤ := (next cluster).toNat

/-- What the walk should return. -/
def chainCluster : ℤ :=
  if ∃ j < offset / header.clusterBytes, fat16Marker ((chainStep next)^[j + 1] starting_cluster)
    then -eio
  else (chainStep next)^[offset / header.clusterBytes] starting_cluster

theorem chainStep_iterate_nonneg {k : ℕ} (hk : 0 < k) :
    0 ≤ (chainStep next)^[k] starting_cluster := by
  obtain ⟨j, rfl⟩ := Nat.exists_eq_add_of_lt hk
  rw [Nat.zero_add, Function.iterate_succ_apply']
  exact Int.natCast_nonneg _

/-- **The walk along a chain** returns the cluster of the offset, or `-EIO` behind the end of the
chain, exactly when the values it stops at tell the same walks apart as the markers of FAT16. -/
theorem get_cluster_for_offset_iff :
    fat16ClusterForOffsetBy (fun c => some (chainStep next c)) header starting_cluster offset =
        some (chainCluster next header starting_cluster offset) ↔
      header.clusterBytes ≠ 0 ∧
        ((∃ j < offset / header.clusterBytes,
            fat16Marker ((chainStep next)^[j + 1] starting_cluster)) ↔
          ∃ j < offset / header.clusterBytes,
            fat16StopsChain ((chainStep next)^[j + 1] starting_cluster)) := by
  have hahead : ((offset : ℤ).tdiv header.clusterBytes).toNat = offset / header.clusterBytes := by
    rw [Int.tdiv_eq_ediv_of_nonneg (by omega), ← Int.natCast_ediv, Int.toNat_natCast]
  unfold fat16ClusterForOffsetBy chainCluster
  rw [hahead, fat16WalkChain_iterate]
  by_cases hzero : header.clusterBytes = 0
  · rw [if_pos hzero]
    exact iff_of_false (fun h => by cases h) fun h => h.1 hzero
  rw [if_neg hzero]
  -- a value of the table is never `-EIO`
  have hne : ∀ j < offset / header.clusterBytes,
      (chainStep next)^[offset / header.clusterBytes] starting_cluster ≠ -eio := by
    intro j hj h
    have hpos := chainStep_iterate_nonneg next starting_cluster (Nat.zero_lt_of_lt hj)
    rw [h] at hpos
    exact absurd hpos (by decide)
  by_cases hmarker : ∃ j < offset / header.clusterBytes,
      fat16Marker ((chainStep next)^[j + 1] starting_cluster)
  · rw [if_pos hmarker]
    by_cases hstop : ∃ j < offset / header.clusterBytes,
        fat16StopsChain ((chainStep next)^[j + 1] starting_cluster)
    · rw [if_pos hstop]
      exact iff_of_true rfl ⟨hzero, iff_of_true hmarker hstop⟩
    · rw [if_neg hstop, Option.some.injEq]
      obtain ⟨j, hj, -⟩ := id hmarker
      exact iff_of_false (hne j hj) fun h => hstop (h.2.mp hmarker)
  · rw [if_neg hmarker]
    by_cases hstop : ∃ j < offset / header.clusterBytes,
        fat16StopsChain ((chainStep next)^[j + 1] starting_cluster)
    · rw [if_pos hstop, Option.some.injEq]
      obtain ⟨j, hj, -⟩ := id hstop
      exact iff_of_false (hne j hj).symm fun h => hmarker (h.2.mpr hstop)
    · rw [if_neg hstop]
      exact iff_of_true rfl ⟨hzero, iff_of_false hmarker hstop⟩

end Walk

/-- The chain ends behind its first cluster, with the usual end-of-chain value: the walk to the
second one returns that value. -/
theorem get_cluster_for_offset_wrong :
    fat16ClusterForOffsetBy (fun c => some (chainStep (fun _ => 0xFFFF#16) c)) ⟨1, 1, 2, 16, 1⟩ 2
        (512 : ℕ) = some 0xFFFF ∧
      chainCluster (fun _ => 0xFFFF#16) ⟨1, 1, 2, 16, 1⟩ 2 512 = -eio := by
  decide

end MaerOS.Analysis
