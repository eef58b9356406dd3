import Mathlib.Data.Nat.ModEq
import MaerOS.Analysis.FatLayout

/-!
# Splitting a read of a file

A read is cut into pieces of a cluster's length *from its own offset on*, and the piece
that begins in the middle of a cluster goes on into the sectors behind that cluster. Where a
byte comes from therefore depends on where the read began: a read and the same read in
two parts agree where both run over the end of a cluster at the same bytes, or where
the cluster behind it is the next one of the chain.
-/

set_option autoImplicit false

namespace MaerOS.Analysis

open MaerOS.Lib MaerOS.Model

/-! ## Where a byte is read from -/

section Places

variable (header : FatHeader) (l : ℕ → ℕ)

/-- The lookup in a chain: the cluster depends on the number of clusters in front of the offset. -/
def chainLookup (offset : ℤ) : Option ℤ :=
  some (l (offset.toNat / header.clusterBytes) : ℤ)

/-- The position of the data of a cluster in the driver. -/
def clusterPos (c : ℕ) : ℤ :=
  512 * (header.endingSectorPos + ((c : ℤ) - 2) * header.sectors_per_cluster)

/-- The position from which a read at the offset takes its byte `j`. -/
def bytePos (offset j : ℕ) : ℤ :=
  clusterPos header (l (offset / header.clusterBytes + j / header.clusterBytes)) +
    (offset % header.clusterBytes : ℕ) + (j % header.clusterBytes : ℕ)

/-- The positions and offsets behind this byte are `int`s. -/
def ByteFits (offset j : ℕ) : Prop :=
  0 ≤ bytePos header l offset j ∧ bytePos header l offset j + 1 < 2 ^ 31 ∧
    offset + header.clusterBytes * (j / header.clusterBytes) < 2 ^ 31

instance (offset j : ℕ) : Decidable (ByteFits header l offset j) :=
  inferInstanceAs (Decidable (_ ∧ _ ∧ _))

/-- The bytes that a read stores. -/
def readBytes (disk : Disk) (offset total : ℕ) : List (BitVec 8) :=
  (List.range total).map fun j => disk (bytePos header l offset j).toNat

variable {header}

theorem chainLookup_natCast (offset : ℕ) :
    chainLookup header l offset = some (l (offset / header.clusterBytes) : ℤ) := rfl

/-- The first piece. -/
theorem bytePos_of_lt (offset : ℕ) {j : ℕ} (hj : j < header.clusterBytes) :
    bytePos header l offset j = clusterPos header (l (offset / header.clusterBytes)) +
      (offset % header.clusterBytes : ℕ) + j := by
  unfold bytePos
  rw [Nat.div_eq_of_lt hj, Nat.mod_eq_of_lt hj, Nat.add_zero]

/-- The other pieces are those of the read that goes on a cluster further. -/
theorem bytePos_add (hsize : header.clusterBytes ≠ 0) (offset j : ℕ) :
    bytePos header l offset (header.clusterBytes + j) =
      bytePos header l (offset + header.clusterBytes) j := by
  unfold bytePos
  rw [Nat.add_div_left _ (Nat.pos_of_ne_zero hsize), Nat.add_mod_left,
    Nat.add_div_right _ (Nat.pos_of_ne_zero hsize), Nat.add_mod_right,
    show offset / header.clusterBytes + (j / header.clusterBytes).succ =
      (offset / header.clusterBytes).succ + j / header.clusterBytes from by omega]

/-- Inside one cluster only the place of the byte itself has to fit. -/
theorem byteFits_of_lt {offset j : ℕ} (hj : j < header.clusterBytes) (hoff : offset < 2 ^ 31) :
    ByteFits header l offset j ↔
      0 ≤ bytePos header l offset j ∧ bytePos header l offset j + 1 < 2 ^ 31 := by
  unfold ByteFits
  rw [Nat.div_eq_of_lt hj, Nat.mul_zero, Nat.add_zero]
  exact ⟨fun h => ⟨h.1, h.2.1⟩, fun h => ⟨h.1, h.2, hoff⟩⟩

/-- A cluster further on, the same byte fits at the offset behind that cluster. -/
theorem byteFits_add (hsize : header.clusterBytes ≠ 0) (offset j : ℕ) :
    ByteFits header l offset (header.clusterBytes + j) ↔
      ByteFits header l (offset + header.clusterBytes) j := by
  unfold ByteFits
  rw [bytePos_add l hsize, Nat.add_div_left _ (Nat.pos_of_ne_zero hsize), Nat.mul_succ,
    show offset + (header.clusterBytes * (j / header.clusterBytes) + header.clusterBytes) =
      offset + header.clusterBytes + header.clusterBytes * (j / header.clusterBytes) from by omega]

end Places

/-! ## The pieces of a read -/

section Pieces

variable {header : FatHeader} (hspc : header.sectors_per_cluster < 2 ^ 8)
  (hsize : header.clusterBytes ≠ 0)
include hspc hsize

/-- A starting position that fits in an `int` is the place in the cluster. -/
theorem fat16StartingPos_of_le (c offset : ℕ)
    (hlow : 0 ≤ clusterPos header c + (offset % header.clusterBytes : ℕ))
    (hhigh : clusterPos header c + (offset % header.clusterBytes : ℕ) < 2 ^ 31) :
    fat16StartingPos header c offset =
      some (clusterPos header c + (offset % header.clusterBytes : ℕ)) := by
  have hmod := Nat.mod_lt offset (Nat.pos_of_ne_zero hsize)
  have hbytes : header.clusterBytes = header.sectors_per_cluster * 512 := rfl
  unfold clusterPos at hlow hhigh ⊢
  have hcheck : ∀ x : ℤ, -2 ^ 31 ≤ x ∧ x < 2 ^ 31 → checkInt x = some x := fun x hx => if_pos hx
  unfold fat16StartingPos fat16ClusterToSector
  dsimp only
  rw [hcheck _ (by omega), Option.bind_eq_bind, Option.bind_some,
    hcheck _ (by simp only [maerosSectorSize]; omega), Option.bind_some,
    Int.tmod_eq_emod_of_nonneg (by omega), ← Int.natCast_emod, mul_comm _ ((maerosSectorSize : ℕ) : ℤ)]
  exact hcheck _ (by simp only [maerosSectorSize]; omega)

omit hspc hsize in
/-- The starting position, where it has an outcome, is the place in the cluster. -/
theorem fat16StartingPos_some {c offset : ℕ} {pos : ℤ}
    (h : fat16StartingPos header c offset = some pos) :
    pos = clusterPos header c + (offset % header.clusterBytes : ℕ) := by
  obtain ⟨sector, hsector, h⟩ := Option.bind_eq_some_iff.mp h
  obtain ⟨byte, hbyte, h⟩ := Option.bind_eq_some_iff.mp h
  have hmod : (offset : ℤ).tmod header.clusterBytes = ((offset % header.clusterBytes : ℕ) : ℤ) := by
    rw [Int.tmod_eq_emod_of_nonneg (by omega), Int.natCast_emod]
  rw [checkInt_some h, checkInt_some hbyte, checkInt_some hsector, hmod]
  unfold clusterPos
  rw [mul_comm]
  rfl

/-- One round reads from the data of the cluster on, where all its positions are `int`s. -/
theorem fat16ReadRound_ite (disk : Disk) (c offset : ℕ) {n : ℕ} (hn : 1 ≤ n) :
    fat16ReadRound disk header c offset n =
      if 0 ≤ clusterPos header c + (offset % header.clusterBytes : ℕ) ∧
          clusterPos header c + (offset % header.clusterBytes : ℕ) + n < 2 ^ 31 then
        some (slice disk (clusterPos header c + (offset % header.clusterBytes : ℕ)).toNat n)
      else none := by
  rw [fat16ReadRound_eq_bind]
  by_cases hfit : 0 ≤ clusterPos header c + (offset % header.clusterBytes : ℕ) ∧
      clusterPos header c + (offset % header.clusterBytes : ℕ) + n < 2 ^ 31
  · rw [if_pos hfit, fat16StartingPos_of_le hspc hsize c offset hfit.1 (by omega), Option.bind_some]
    obtain ⟨pos, hpos⟩ := Int.eq_ofNat_of_zero_le hfit.1
    rw [hpos] at hfit ⊢
    rw [diskstreamerRead_eq disk n pos (by omega), Option.map_some, Int.toNat_natCast]
  · rw [if_neg hfit, Option.bind_eq_none_iff]
    intro pos hpos
    rw [Option.map_eq_none_iff]
    have heq := fat16StartingPos_some hpos
    by_cases hneg : pos < 0
    · exact diskstreamerRead_neg disk n hneg
    · obtain ⟨p, rfl⟩ := Int.eq_ofNat_of_zero_le (not_lt.mp hneg)
      have hlow : p < 2 ^ 31 := by
        obtain ⟨_, -, h⟩ := Option.bind_eq_some_iff.mp hpos
        obtain ⟨_, -, h⟩ := Option.bind_eq_some_iff.mp h
        unfold checkInt at h
        split at h
        · rename_i hrange
          have := Option.some.inj h
          omega
        · cases h
      exact diskstreamerRead_none disk n p hlow (by omega)

variable (l : ℕ → ℕ) (disk : Disk)

omit hspc hsize in
/-- Bytes inside one cluster are a slice of the disk. -/
theorem readBytes_of_le {offset total : ℕ} (hle : total ≤ header.clusterBytes)
    (hlow : 0 ≤ clusterPos header (l (offset / header.clusterBytes)) +
      (offset % header.clusterBytes : ℕ)) :
    readBytes header l disk offset total =
      slice disk (clusterPos header (l (offset / header.clusterBytes)) +
        (offset % header.clusterBytes : ℕ)).toNat total := by
  unfold readBytes slice
  apply List.map_congr_left
  intro j hj
  have hlt := List.mem_range.mp hj
  rw [bytePos_of_lt l offset (by omega)]
  congr 1
  omega

omit hspc in
/-- A longer read is a piece of a cluster's length and the read behind it. -/
theorem readBytes_add (offset total : ℕ) :
    readBytes header l disk offset (header.clusterBytes + total) =
      readBytes header l disk offset header.clusterBytes ++
        readBytes header l disk (offset + header.clusterBytes) total := by
  unfold readBytes
  rw [List.range_add, List.map_append, List.map_map]
  congr 1
  apply List.map_congr_left
  intro j _
  rw [Function.comp_apply, bytePos_add l hsize]

omit hspc hsize in
/-- The bytes of one piece fit where its first and its last byte do. -/
theorem forall_byteFits_of_le {offset total : ℕ} (htotal : 1 ≤ total)
    (hle : total ≤ header.clusterBytes) (hoff : offset < 2 ^ 31) :
    (∀ j < total, ByteFits header l offset j) ↔
      0 ≤ clusterPos header (l (offset / header.clusterBytes)) +
          (offset % header.clusterBytes : ℕ) ∧
        clusterPos header (l (offset / header.clusterBytes)) +
          (offset % header.clusterBytes : ℕ) + total < 2 ^ 31 := by
  constructor
  · intro h
    have hfirst := (byteFits_of_lt l (by omega) hoff).mp (h 0 (by omega))
    have hlast := (byteFits_of_lt l (by omega) hoff).mp (h (total - 1) (by omega))
    rw [bytePos_of_lt l offset (by omega)] at hfirst hlast
    omega
  · intro h j hj
    rw [byteFits_of_lt l (by omega) hoff, bytePos_of_lt l offset (by omega)]
    omega

/-- **`fat16_read_internal`** over a lookup in a chain stores the bytes at these positions, where
all of them fit. -/
theorem fat16ReadInternalBy_eq (total : ℕ) : ∀ offset : ℕ, 1 ≤ total → offset < 2 ^ 31 →
    fat16ReadInternalBy (chainLookup header l) disk header offset total =
      if ∀ j < total, ByteFits header l offset j then
        some (0, readBytes header l disk offset total)
      else none := by
  induction total using Nat.strong_induction_on with
  | _ total ih =>
    intro offset htotal hoff
    have hone : ∀ {n : ℕ}, 1 ≤ n → n ≤ header.clusterBytes →
        fat16ReadRound disk header (l (offset / header.clusterBytes) : ℕ) offset n =
          if ∀ j < n, ByteFits header l offset j then some (readBytes header l disk offset n)
          else none := by
      intro n hn hle
      rw [fat16ReadRound_ite hspc hsize disk _ offset hn]
      by_cases hfits : ∀ j < n, ByteFits header l offset j
      · have hrange := (forall_byteFits_of_le l hn hle hoff).mp hfits
        rw [if_pos hfits, if_pos hrange, readBytes_of_le l disk hle hrange.1]
      · rw [if_neg hfits, if_neg fun h => hfits ((forall_byteFits_of_le l hn hle hoff).mpr h)]
    rw [fat16ReadInternalBy, dif_neg hsize, chainLookup_natCast, Option.bind_some,
      if_neg (by omega)]
    dsimp only
    by_cases hlong : total > header.clusterBytes
    · obtain ⟨rest, rfl⟩ := Nat.exists_eq_add_of_le hlong.le
      have hrest := ih rest (by omega) (offset + header.clusterBytes) (by omega)
      have hsub : ((header.clusterBytes + rest : ℕ) : ℤ) - header.clusterBytes = (rest : ℕ) := by
        omega
      rw [if_pos (by omega), hone (Nat.pos_of_ne_zero hsize) le_rfl]
      -- the bytes behind the first piece are those of the second read
      have hsplit : (∀ j < header.clusterBytes + rest, ByteFits header l offset j) ↔
          (∀ j < header.clusterBytes, ByteFits header l offset j) ∧
            ∀ j < rest, ByteFits header l (offset + header.clusterBytes) j := by
        constructor
        · intro h
          refine ⟨fun j hj => h j (by omega), fun j hj => ?_⟩
          exact (byteFits_add l hsize offset j).mp (h _ (by omega))
        · rintro ⟨hfirst, hsecond⟩ j hj
          by_cases hlt : j < header.clusterBytes
          · exact hfirst j hlt
          · obtain ⟨i, rfl⟩ := Nat.exists_eq_add_of_le (not_lt.mp hlt)
            exact (byteFits_add l hsize offset i).mpr (hsecond i (by omega))
      by_cases hfirst : ∀ j < header.clusterBytes, ByteFits header l offset j
      · rw [if_pos hfirst, Option.bind_some, if_pos (by omega), ← Nat.cast_add,
          checkInt_natCast_ite, hsub]
        by_cases hwrap : offset + header.clusterBytes < 2 ^ 31
        · rw [if_pos hwrap, Option.bind_some, hrest hwrap, readBytes_add hsize]
          by_cases hsecond : ∀ j < rest, ByteFits header l (offset + header.clusterBytes) j
          · rw [if_pos hsecond, if_pos (hsplit.mpr ⟨hfirst, hsecond⟩)]
            rfl
          · rw [if_neg hsecond, if_neg fun h => hsecond (hsplit.mp h).2]
            rfl
        · rw [if_neg hwrap, Option.bind_none, if_neg]
          intro h
          have hnext := ((hsplit.mp h).2 0 (by omega)).2.2
          omega
      · rw [if_neg hfirst, Option.bind_none, if_neg fun h => hfirst (hsplit.mp h).1]
    · rw [if_neg (by omega), hone htotal (by omega)]
      by_cases hfits : ∀ j < total, ByteFits header l offset j
      · rw [if_pos hfits, if_pos hfits, Option.bind_some, if_neg (by omega)]
      · rw [if_neg hfits, if_neg hfits, Option.bind_none]

/-- A read that succeeds had all its bytes in range, and delivers what lies there. -/
theorem fat16ReadInternalBy_some {disk : Disk} {offset total : ℕ} {out : List (BitVec 8)}
    (htotal : 1 ≤ total) (hoff : offset < 2 ^ 31)
    (h : fat16ReadInternalBy (chainLookup header l) disk header offset total = some (0, out)) :
    (∀ j < total, ByteFits header l offset j) ∧ out = readBytes header l disk offset total := by
  rw [fat16ReadInternalBy_eq hspc hsize l disk total offset htotal hoff] at h
  split at h
  · rename_i hfits
    cases h
    exact ⟨hfits, rfl⟩
  · cases h

end Pieces

/-! ## Two parts of a read -/

section Split

variable {header : FatHeader} (l : ℕ → ℕ)

/-- Two clusters lie one behind the other exactly with consecutive numbers. -/
theorem clusterPos_succ_iff (hsize : header.clusterBytes ≠ 0) {c c' : ℕ} :
    clusterPos header c + header.clusterBytes = clusterPos header c' ↔ c' = c + 1 := by
  have hspc : header.sectors_per_cluster ≠ 0 := fun h => hsize (by
    unfold FatHeader.clusterBytes
    rw [h, Nat.zero_mul])
  have hnext : clusterPos header c + header.clusterBytes = clusterPos header (c + 1) := by
    unfold clusterPos FatHeader.clusterBytes maerosSectorSize
    push_cast
    ring
  rw [hnext]
  constructor
  · intro h
    unfold clusterPos at h
    have hmul : (((c + 1 : ℕ) : ℤ) - 2) * header.sectors_per_cluster =
        ((c' : ℤ) - 2) * header.sectors_per_cluster := by omega
    have hsub := mul_right_cancel₀ (Nat.cast_ne_zero.mpr hspc) hmul
    omega
  · rintro rfl
    rfl

/-- A byte is read from the cluster it belongs to, or from behind the cluster before. -/
theorem bytePos_ite (hsize : header.clusterBytes ≠ 0) (offset j : ℕ) :
    bytePos header l offset j =
      if header.clusterBytes ≤ offset % header.clusterBytes + j % header.clusterBytes then
        clusterPos header (l ((offset + j) / header.clusterBytes - 1)) + header.clusterBytes +
          ((offset + j) % header.clusterBytes : ℕ)
      else clusterPos header (l ((offset + j) / header.clusterBytes)) +
        ((offset + j) % header.clusterBytes : ℕ) := by
  have hdiv := Nat.add_div (a := offset) (b := j) (Nat.pos_of_ne_zero hsize)
  unfold bytePos
  split
  · rename_i hover
    rw [if_pos hover] at hdiv
    have hmod := Nat.add_mod_add_of_le_add_mod hover
    rw [hdiv, Nat.add_sub_cancel]
    omega
  · rename_i hunder
    rw [if_neg hunder] at hdiv
    have hmod := Nat.add_mod_of_add_mod_lt (not_le.mp hunder)
    rw [hdiv, hmod, Nat.add_zero]
    omega

/-- Both parts take the byte from the same position: they run over the end of a cluster alike, or
the chain goes on there with the next cluster of the disk. -/
def SameCluster (header : FatHeader) (offset a j : ℕ) : Prop :=
  (header.clusterBytes ≤ offset % header.clusterBytes + (a + j) % header.clusterBytes ↔
    header.clusterBytes ≤ (offset + a) % header.clusterBytes + j % header.clusterBytes) ∨
  l ((offset + a + j) / header.clusterBytes) = l ((offset + a + j) / header.clusterBytes - 1) + 1

/-- The byte behind a split is where the whole read looks for it exactly in the same cluster. -/
theorem bytePos_eq_iff (hsize : header.clusterBytes ≠ 0) (offset a j : ℕ) :
    bytePos header l offset (a + j) = bytePos header l (offset + a) j ↔
      SameCluster l header offset a j := by
  have hnext := @clusterPos_succ_iff header hsize (l ((offset + a + j) / header.clusterBytes - 1))
    (l ((offset + a + j) / header.clusterBytes))
  unfold SameCluster
  rw [bytePos_ite l hsize, bytePos_ite l hsize, ← Nat.add_assoc, ← hnext]
  split <;> split <;> omega

/-- The positions differ by whole sectors. -/
theorem bytePos_emod (hsize : header.clusterBytes ≠ 0) (offset j : ℕ) :
    bytePos header l offset j % 512 = ((offset + j) % header.clusterBytes : ℕ) % 512 := by
  have hbytes : (header.clusterBytes : ℤ) = 512 * header.sectors_per_cluster := by
    unfold FatHeader.clusterBytes maerosSectorSize
    push_cast
    ring
  rw [bytePos_ite l hsize]
  unfold clusterPos
  split <;> omega

end Split

/-- Two positions of one offset in a sector that hold the same byte on every disk with this header
are one. -/
theorem pos_eq_of_same_byte (disk : Disk) {p q : ℕ} (hmod : p % 512 = q % 512)
    (hsame : ∀ disk', fatHeader disk' = fatHeader disk → disk' p = disk' q) : p = q := by
  have hchange : ∀ {b x : ℕ}, b < 13 ∨ 24 ≤ b → b ≠ x →
      ∃ disk', fatHeader disk' = fatHeader disk ∧ disk' b ≠ disk' x := by
    intro b x hb hne
    refine ⟨Function.update disk b (disk x + 1#8), fatHeader_update disk _ hb, ?_⟩
    rw [Function.update_self, Function.update_of_ne hne.symm]
    intro h
    bv_omega
  by_contra hne
  by_cases hp : p < 13 ∨ 24 ≤ p
  · obtain ⟨disk', hheader, h⟩ := hchange hp hne
    exact h (hsame disk' hheader)
  · obtain ⟨disk', hheader, h⟩ := hchange (show q < 13 ∨ 24 ≤ q by omega) (Ne.symm hne)
    exact h (hsame disk' hheader).symm

/-- **The split**: one read is two reads exactly if they find the same bytes behind the split. -/
theorem readBytes_append_iff (header : FatHeader) (l : ℕ → ℕ) (disk : Disk) (offset a b : ℕ) :
    readBytes header l disk offset (a + b) =
        readBytes header l disk offset a ++ readBytes header l disk (offset + a) b ↔
      ∀ j < b, disk (bytePos header l offset (a + j)).toNat =
        disk (bytePos header l (offset + a) j).toNat := by
  unfold readBytes
  rw [List.range_add, List.map_append, List.map_map, List.append_cancel_left_eq, List.map_inj_left]
  simp only [List.mem_range, Function.comp_apply]

/-- One read delivers the bytes that it delivers in two parts. -/
def Splits (disk : Disk) (l : ℕ → ℕ) (offset a b : ℕ) : Prop :=
  ∃ out out', fat16ReadInternalBy (chainLookup (fatHeader disk) l) disk (fatHeader disk) offset a =
      some (0, out) ∧
    fat16ReadInternalBy (chainLookup (fatHeader disk) l) disk (fatHeader disk) (offset + a : ℕ) b =
      some (0, out') ∧
    fat16ReadInternalBy (chainLookup (fatHeader disk) l) disk (fatHeader disk) offset (a + b : ℕ) =
      some (0, out ++ out')

/-- **A read can be split**, whatever the disk holds, exactly when its positions are `int`s and every
byte of the second part is taken from the same cluster in both. -/
theorem read_split_iff (disk : Disk) (l : ℕ → ℕ) (offset a b : ℕ) (ha : 1 ≤ a) (hb : 1 ≤ b)
    (hint : offset + a < 2 ^ 31) :
    (∀ disk', fatHeader disk' = fatHeader disk → Splits disk' l offset a b) ↔
      (fatHeader disk).clusterBytes ≠ 0 ∧
        (∀ j < a + b, ByteFits (fatHeader disk) l offset j) ∧
        (∀ j < b, ByteFits (fatHeader disk) l (offset + a) j) ∧
        ∀ j < b, SameCluster l (fatHeader disk) offset a j := by
  have hspc := (fatHeader_lt disk).1
  constructor
  · intro hsplits
    have hsize : (fatHeader disk).clusterBytes ≠ 0 := by
      intro hzero
      obtain ⟨_, _, hfirst, -⟩ := hsplits disk rfl
      rw [fat16ReadInternalBy, dif_pos hzero] at hfirst
      cases hfirst
    have hread := @fat16ReadInternalBy_some _ hspc hsize l
    -- what the three reads deliver, on every disk with this header
    have hall : ∀ disk', fatHeader disk' = fatHeader disk →
        ((∀ j < a + b, ByteFits (fatHeader disk) l offset j) ∧
          ∀ j < b, ByteFits (fatHeader disk) l (offset + a) j) ∧
        readBytes (fatHeader disk) l disk' offset (a + b) =
          readBytes (fatHeader disk) l disk' offset a ++
            readBytes (fatHeader disk) l disk' (offset + a) b := by
      intro disk' hheader
      obtain ⟨out, out', hfirst, hsecond, hwhole⟩ := hsplits disk' hheader
      rw [hheader] at hfirst hsecond hwhole
      obtain ⟨-, rfl⟩ := hread ha (by omega) hfirst
      obtain ⟨hsecondFits, rfl⟩ := hread hb hint hsecond
      obtain ⟨hwholeFits, happend⟩ := hread (by omega) (by omega) hwhole
      exact ⟨⟨hwholeFits, hsecondFits⟩, happend.symm⟩
    obtain ⟨⟨hwhole, hsecond⟩, -⟩ := hall disk rfl
    refine ⟨hsize, hwhole, hsecond, fun j hj => ?_⟩
    rw [← bytePos_eq_iff l hsize]
    have hp := (hwhole (a + j) (by omega)).1
    have hq := (hsecond j hj).1
    have hmod := bytePos_emod l hsize offset (a + j)
    rw [← Nat.add_assoc, ← bytePos_emod l hsize (offset + a) j] at hmod
    have hpos : (bytePos (fatHeader disk) l offset (a + j)).toNat =
        (bytePos (fatHeader disk) l (offset + a) j).toNat := by
      apply pos_eq_of_same_byte disk (by omega)
      intro disk' hheader
      exact (readBytes_append_iff _ l disk' offset a b).mp (hall disk' hheader).2 j hj
    omega
  · rintro ⟨hsize, hwhole, hsecond, hsame⟩ disk' hheader
    have hread := fat16ReadInternalBy_eq hspc hsize l disk'
    have happend := (readBytes_append_iff (fatHeader disk) l disk' offset a b).mpr fun j hj => by
      rw [(bytePos_eq_iff l hsize offset a j).mpr (hsame j hj)]
    have hfirst : ∀ j < a, ByteFits (fatHeader disk) l offset j := fun j hj => hwhole j (by omega)
    unfold Splits
    rw [hheader, hread a offset ha (by omega), hread b (offset + a) hb hint,
      hread (a + b) offset (by omega) (by omega), if_pos hfirst, if_pos hsecond, if_pos hwhole,
      happend]
    exact ⟨_, _, rfl, rfl, rfl⟩

/-- A file whose clusters lie in a row, read over the end of the first one. -/
theorem read_split_iff_row : (1 ≤ 1 ∧ 1 ≤ 2 ∧ 510 + 1 < 2 ^ 31) ∧
    ∀ disk', fatHeader disk' = fatHeader twoClusterDisk →
      Splits disk' (fun i => i + 2) 510 1 2 := by
  have hiff := read_split_iff twoClusterDisk (fun i => i + 2) 510 1 2 (by decide) (by decide)
    (by decide)
  refine ⟨by decide, hiff.mpr ⟨by decide, ?_, ?_, ?_⟩⟩
  · decide
  · decide
  · intro j hj
    unfold SameCluster
    decide +revert

/-- A volume with one byte of data, in cluster 4. -/
def fragmentedDisk : Disk := Function.update twoClusterDisk 3072 0x01#8

/-- A file of the clusters 2 and 4, read from its middle: the last byte of the one read is from
cluster 3, that of the two parts from cluster 4. -/
theorem read_split_fails : ¬ Splits fragmentedDisk (fun i => if i = 0 then 2 else 4) 100 412 1 := by
  have hspc : (fatHeader fragmentedDisk).sectors_per_cluster < 2 ^ 8 := (fatHeader_lt _).1
  have hsize : (fatHeader fragmentedDisk).clusterBytes ≠ 0 := by decide
  rintro ⟨out, out', hfirst, hsecond, hwhole⟩
  obtain ⟨-, rfl⟩ := fat16ReadInternalBy_some hspc hsize _ (by decide) (by decide) hfirst
  obtain ⟨-, rfl⟩ := fat16ReadInternalBy_some hspc hsize _ (by decide) (by decide) hsecond
  obtain ⟨-, happend⟩ := fat16ReadInternalBy_some hspc hsize _ (by decide) (by decide) hwhole
  have hbyte := (readBytes_append_iff _ _ _ _ _ _).mp happend.symm 0 (by decide)
  have hone : (bytePos (fatHeader fragmentedDisk) (fun i => if i = 0 then 2 else 4) 100
      (412 + 0)).toNat = 2560 := by decide
  have htwo : (bytePos (fatHeader fragmentedDisk) (fun i => if i = 0 then 2 else 4) (100 + 412)
      0).toNat = 3072 := by decide
  rw [hone, htwo] at hbyte
  exact absurd hbyte (by decide)

end MaerOS.Analysis
