import MaerOS.Model.Disk

/-!
# Reading from a stream

A read of a stream is cut at the boundaries of sectors. Below position `2^31` it
delivers the bytes of the disk from its position on, and asks for the sectors from
that of its first byte to that of the position it ends at, which is the position
*behind* its last byte: a read that ends with a sector asks for the next one too.
-/

set_option autoImplicit false

namespace MaerOS.Analysis

open MaerOS.Lib MaerOS.Model

/-! ## Values of type `int` -/

/-- A value in the range of `int` is that `int`. -/
theorem checkInt_natCast {n : ℕ} (h : n < 2 ^ 31) : checkInt n = some (n : ℤ) := by
  unfold checkInt
  rw [if_pos ⟨by omega, by omega⟩]

theorem checkInt_natCast_ite (n : ℕ) :
    checkInt n = if n < 2 ^ 31 then some (n : ℤ) else none := by
  by_cases h : n < 2 ^ 31
  · rw [if_pos h]
    exact checkInt_natCast h
  · unfold checkInt
    rw [if_neg h, if_neg (by omega)]

theorem checkInt_some {x y : ℤ} (h : checkInt x = some y) : y = x := by
  unfold checkInt at h
  split at h
  · exact (Option.some.inj h).symm
  · cases h

theorem checkInt_lt {x y : ℤ} (h : checkInt x = some y) : x < 2 ^ 31 := by
  unfold checkInt at h
  split at h
  · rename_i hrange
    exact hrange.2
  · cases h

theorem toInt32_wrap (n : ℕ) :
    toInt32 n = if n % 2 ^ 32 < 2 ^ 31 then ((n % 2 ^ 32 : ℕ) : ℤ)
      else ((n % 2 ^ 32 : ℕ) : ℤ) - 2 ^ 32 := by
  unfold toInt32
  rw [Int.bmod_def]
  split <;> split <;> omega

theorem toInt32_natCast {n : ℕ} (h : n < 2 ^ 31) : toInt32 n = n := by
  unfold toInt32
  rw [Int.bmod_eq_of_le (by omega) (by omega)]

/-! ## The sectors of a read -/

/-- The sectors in which the bytes from `pos` up to, and not including, `stop` lie. -/
def sectorsUpTo (pos stop : ℕ) : List ℕ := List.range' (pos / 512) (stop / 512 + 1 - pos / 512)

/-- Behind a boundary the list goes on with the next sector. -/
theorem sectorsUpTo_cons {pos stop : ℕ} (h : pos + (512 - pos % 512) ≤ stop) :
    sectorsUpTo pos stop = pos / 512 :: sectorsUpTo (pos + (512 - pos % 512)) stop := by
  unfold sectorsUpTo
  rw [show stop / 512 + 1 - pos / 512 =
      (stop / 512 + 1 - (pos + (512 - pos % 512)) / 512) + 1 from by omega,
    List.range'_succ, show (pos + (512 - pos % 512)) / 512 = pos / 512 + 1 from by omega]

/-! ## One sector -/

section Step

variable (disk : Disk) {pos total : ℕ}

theorem toNat_sector (pos : ℕ) : ((pos : ℤ) / (maerosSectorSize : ℕ)).toNat = pos / 512 := by
  simp only [maerosSectorSize]
  omega

theorem emod_sector (pos : ℕ) : (pos : ℤ) % (maerosSectorSize : ℕ) = ((pos % 512 : ℕ) : ℤ) := by
  simp only [maerosSectorSize]
  omega

/-- The bytes of a sector behind the offset are those of the disk behind the position. -/
theorem take_drop_sector {n : ℕ} (hn : pos % 512 + n ≤ 512) :
    ((diskReadBlock disk (pos / 512)).drop (pos % 512)).take n = slice disk pos n := by
  unfold diskReadBlock
  rw [take_drop_slice disk _ hn]
  congr 1
  simp only [maerosSectorSize]
  omega

/-- A read that ends inside its sector is a slice of it. -/
theorem diskstreamerRead_inside (hin : pos % 512 + total < 512) :
    diskstreamerRead disk pos total =
      some ⟨slice disk pos total, ((pos + total : ℕ) : ℤ), [pos / 512]⟩ := by
  rw [diskstreamerRead]
  simp only [emod_sector, toNat_sector, Int.toNat_natCast]
  rw [if_neg (by omega), if_neg (by simp only [maerosSectorSize]; omega),
    take_drop_sector disk (by omega)]
  push_cast
  rfl

/-- A read that reaches the end of its sector goes on behind it. -/
theorem diskstreamerRead_over (hover : 512 ≤ pos % 512 + total)
    (hfit : pos % 512 + total < 2 ^ 31) :
    diskstreamerRead disk pos total =
      if 2 ^ 31 ≤ pos + (512 - pos % 512) then none
      else (diskstreamerRead disk (pos + (512 - pos % 512) : ℕ)
        (total - (512 - pos % 512) : ℕ)).map fun rest =>
          ⟨slice disk pos (512 - pos % 512) ++ rest.out, rest.pos, pos / 512 :: rest.sectors⟩ := by
  rw [diskstreamerRead]
  simp only [emod_sector, toNat_sector, Int.toNat_natCast]
  have hrest : ((maerosSectorSize : ℕ) : ℤ) - ((pos % 512 : ℕ) : ℤ) =
      ((512 - pos % 512 : ℕ) : ℤ) := by
    simp only [maerosSectorSize]
    omega
  rw [if_neg (by omega), if_pos (by simp only [maerosSectorSize]; omega), hrest,
    Int.toNat_natCast, take_drop_sector disk (by omega),
    show (pos : ℤ) + ((512 - pos % 512 : ℕ) : ℤ) = ((pos + (512 - pos % 512) : ℕ) : ℤ) from by
      push_cast
      rfl,
    show (total : ℤ) - ((512 - pos % 512 : ℕ) : ℤ) = ((total - (512 - pos % 512) : ℕ) : ℤ) from by
      omega]
  by_cases hwrap : 2 ^ 31 ≤ pos + (512 - pos % 512)
  · rw [if_pos (by omega), if_pos hwrap]
  · rw [if_neg (by omega), if_neg hwrap]
    cases diskstreamerRead disk ((pos + (512 - pos % 512) : ℕ) : ℤ)
      ((total - (512 - pos % 512) : ℕ) : ℤ) <;> rfl

end Step

/-! ## The whole read -/

/-- **A read of a stream** below position `2^31` delivers the bytes of the disk from its position
on, and leaves the position behind them. -/
theorem diskstreamerRead_eq (disk : Disk) (total : ℕ) : ∀ pos : ℕ, pos + total < 2 ^ 31 →
    diskstreamerRead disk pos total =
      some ⟨slice disk pos total, ((pos + total : ℕ) : ℤ), sectorsUpTo pos (pos + total)⟩ := by
  induction total using Nat.strong_induction_on with
  | _ total ih =>
    intro pos hfit
    by_cases hover : 512 ≤ pos % 512 + total
    · have hrest := ih (total - (512 - pos % 512)) (by omega) (pos + (512 - pos % 512)) (by omega)
      have hsectors : sectorsUpTo pos (pos + total) =
          pos / 512 :: sectorsUpTo (pos + (512 - pos % 512)) (pos + total) :=
        sectorsUpTo_cons (by omega)
      rw [show pos + (512 - pos % 512) + (total - (512 - pos % 512)) = pos + total from by omega]
        at hrest
      rw [diskstreamerRead_over disk hover (by omega), if_neg (by omega), hrest, Option.map_some,
        slice_append, hsectors,
        show 512 - pos % 512 + (total - (512 - pos % 512)) = total from by omega]
    · rw [diskstreamerRead_inside disk (by omega)]
      unfold sectorsUpTo
      rw [show (pos + total) / 512 + 1 - pos / 512 = 1 from by omega]
      rfl

/-- A read that does not end below position `2^31` has no outcome. -/
theorem diskstreamerRead_none (disk : Disk) (total : ℕ) : ∀ pos : ℕ, pos < 2 ^ 31 →
    2 ^ 31 ≤ pos + total → diskstreamerRead disk pos total = none := by
  induction total using Nat.strong_induction_on with
  | _ total ih =>
    intro pos hpos hlong
    by_cases hfit : pos % 512 + total < 2 ^ 31
    · rw [diskstreamerRead_over disk (by omega) hfit]
      by_cases hwrap : 2 ^ 31 ≤ pos + (512 - pos % 512)
      · rw [if_pos hwrap]
      · rw [if_neg hwrap, ih _ (by omega) _ (by omega) (by omega), Option.map_none]
    · rw [diskstreamerRead, if_pos]
      rw [emod_sector]
      omega

theorem diskstreamerRead_neg (disk : Disk) (total : ℤ) {pos : ℤ} (hpos : pos < 0) :
    diskstreamerRead disk pos total = none := by
  rw [diskstreamerRead]
  exact if_pos (.inl hpos)

/-! ## Over `disk_read_block` -/

/-- `disk_read_block` of the disk of the system, which cannot fail. -/
def diskBlocks (disk : Disk) : DiskReadBlock := fun lba => (0, diskReadBlock disk lba)

/-- Where no sector fails, the value returned is `0`. -/
theorem diskstreamerReadBy_diskBlocks (disk : Disk) (pos total : ℤ) :
    diskstreamerReadBy (diskBlocks disk) pos total =
      (diskstreamerRead disk pos total).map fun read => ⟨read, 0⟩ := by
  fun_induction diskstreamerRead disk pos total with
  | case1 pos total offset hbad =>
    rw [diskstreamerReadBy]
    simp only [diskBlocks, lt_self_iff_false, ↓reduceIte]
    rw [if_pos (show pos < 0 ∨ 2 ^ 31 ≤ pos % (maerosSectorSize : ℕ) + total from hbad)]
    rfl
  | case2 pos total offset hgood hover total_to_read hwrap =>
    rw [diskstreamerReadBy]
    simp only [diskBlocks, lt_self_iff_false, ↓reduceIte]
    rw [if_neg (show ¬ (pos < 0 ∨ 2 ^ 31 ≤ pos % (maerosSectorSize : ℕ) + total) from hgood),
      if_pos hover, if_pos hwrap]
    rfl
  | case3 pos total sector offset buf hgood hover total_to_read hwrap ih =>
    rw [diskstreamerReadBy]
    simp only [diskBlocks, lt_self_iff_false, ↓reduceIte]
    rw [if_neg (show ¬ (pos < 0 ∨ 2 ^ 31 ≤ pos % (maerosSectorSize : ℕ) + total) from hgood),
      if_pos hover, if_neg hwrap]
    rw [ih]
    cases diskstreamerRead disk (pos + total_to_read) (total - total_to_read) <;> rfl
  | case4 pos total sector offset buf hgood hover =>
    rw [diskstreamerReadBy]
    simp only [diskBlocks, lt_self_iff_false, ↓reduceIte]
    rw [if_neg (show ¬ (pos < 0 ∨ 2 ^ 31 ≤ pos % (maerosSectorSize : ℕ) + total) from hgood),
      if_neg hover]
    rfl

/-- **`diskstreamer_read`** terminates, returns `0`, stores exactly the bytes `[pos, pos + total)`
of the disk and leaves the stream behind them. -/
theorem diskstreamer_read_correct (disk : Disk) (pos total : ℕ) (hfit : pos + total < 2 ^ 31) :
    ∃ read, diskstreamerReadBy (diskBlocks disk) pos total = some read ∧ read.res = 0 ∧
      read.out = slice disk pos total ∧ read.pos = pos + total := by
  rw [diskstreamerReadBy_diskBlocks, diskstreamerRead_eq disk total pos hfit]
  exact ⟨_, rfl, rfl, rfl, by push_cast; rfl⟩

/-- A disk of zeros. -/
def emptyDisk : Disk := fun _ => 0x00#8

/-- Five bytes on both sides of a boundary. -/
theorem diskstreamer_read_correct_five : ∃ read,
    diskstreamerReadBy (diskBlocks emptyDisk) (510 : ℕ) (5 : ℕ) = some read ∧ read.res = 0 ∧
      read.out = slice emptyDisk 510 5 ∧ read.pos = (510 : ℕ) + (5 : ℕ) :=
  diskstreamer_read_correct emptyDisk 510 5 (by decide)

/-! ## Which sectors are read -/

/-- The sectors that hold the bytes `[pos, pos + total)`. -/
def sectorsNeeded (pos total : ℕ) : List ℕ := sectorsUpTo pos (pos + total - 1)

/-- **The sectors asked for** are those that hold the bytes, in order, exactly when the read ends
inside a sector (and below position `2^31`). -/
theorem diskstreamer_sectors_iff (disk : Disk) (pos total : ℕ) (hpos : pos < 2 ^ 31)
    (htotal : 1 ≤ total) :
    (∃ read, diskstreamerReadBy (diskBlocks disk) pos total = some read ∧
        read.sectors = sectorsNeeded pos total) ↔
      (pos + total) % 512 ≠ 0 ∧ pos + total < 2 ^ 31 := by
  rw [diskstreamerReadBy_diskBlocks]
  by_cases hfit : pos + total < 2 ^ 31
  · rw [diskstreamerRead_eq disk total pos hfit, Option.map_some]
    -- the lists begin with the same sector and differ in length behind a boundary
    have hlength : (sectorsUpTo pos (pos + total)).length = (pos + total) / 512 + 1 - pos / 512 :=
      List.length_range'
    have hlength' : (sectorsNeeded pos total).length =
        (pos + total - 1) / 512 + 1 - pos / 512 := List.length_range'
    constructor
    · rintro ⟨read, hread, hsectors⟩
      cases hread
      dsimp only at hsectors
      rw [hsectors, hlength'] at hlength
      exact ⟨by omega, hfit⟩
    · rintro ⟨hend, -⟩
      refine ⟨_, rfl, ?_⟩
      dsimp only
      unfold sectorsNeeded sectorsUpTo
      rw [show (pos + total - 1) / 512 = (pos + total) / 512 from by omega]
  · rw [diskstreamerRead_none disk total pos hpos (by omega), Option.map_none]
    refine iff_of_false ?_ fun h => hfit h.2
    rintro ⟨_, hread, -⟩
    cases hread

/-- Two bytes on both sides of a boundary. -/
theorem diskstreamer_sectors_two :
    ∃ read, diskstreamerReadBy (diskBlocks emptyDisk) (511 : ℕ) (2 : ℕ) = some read ∧
      read.sectors = sectorsNeeded 511 2 :=
  (diskstreamer_sectors_iff emptyDisk 511 2 (by decide) (by decide)).mpr
    ⟨by decide, by decide⟩

/-- The bytes of one sector: the next sector is read too. -/
theorem diskstreamer_reads_next_sector : ∃ read,
    diskstreamerReadBy (diskBlocks emptyDisk) (0 : ℕ) (512 : ℕ) = some read ∧
      read.sectors = [0, 1] ∧ sectorsNeeded 0 512 = [0] := by
  rw [diskstreamerReadBy_diskBlocks, diskstreamerRead_eq emptyDisk 512 0 (by decide)]
  exact ⟨_, rfl, rfl, rfl⟩

end MaerOS.Analysis
