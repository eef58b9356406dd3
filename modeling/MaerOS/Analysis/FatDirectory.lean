import Mathlib.Data.List.TakeWhile
import MaerOS.Analysis.FatSplit
import MaerOS.Analysis.FileOwns
import MaerOS.Analysis.FileTable

/-!
# Looking up a name in a directory

Three loops go over a directory. The count leaves out the entries that are deleted, the
buffer holds them all, and the search takes as many entries of the buffer as were
counted, deleted or not. It misses the last live entries of a directory by as many as
there are deleted ones in front of them, and it finds deleted ones.
-/

set_option autoImplicit false

namespace MaerOS.Analysis

open MaerOS.Lib MaerOS.Model

/-! ## Names -/

/-- The entry has the name, up to the case of letters. -/
def HasName (name : List (BitVec 8)) (item : FatDirectoryItem) : Prop :=
  (fat16GetFullRelativeFilename item).map tolower = name.map tolower

instance (name : List (BitVec 8)) : DecidablePred (HasName name) := fun _ =>
  inferInstanceAs (Decidable (_ = _))

/-- The entry is deleted. -/
def IsDeleted (item : FatDirectoryItem) : Prop := firstChar item.filename = 0xe5#8

instance : DecidablePred IsDeleted := fun _ => inferInstanceAs (Decidable (_ = _))

section Names

theorem tolower_eq_zero {c : BitVec 8} : tolower c = 0x00#8 ↔ c = 0x00#8 := by
  unfold tolower
  split <;> bv_omega

theorem tolower_eq_e5 {c : BitVec 8} : tolower c = 0xe5#8 ↔ c = 0xe5#8 := by
  unfold tolower
  split <;> bv_omega

/-- Two strings are compared letter by letter. -/
theorem istrncmp_cons (a b : BitVec 8) (s1 s2 : List (BitVec 8)) (n : ℕ) :
    istrncmp (a :: s1) (b :: s2) (n + 1) =
      if a ≠ b ∧ tolower a ≠ tolower b then (a.toNat : ℤ) - b.toNat
      else if a = 0x00#8 then 0 else istrncmp s1 s2 n := rfl

/-- `istrncmp` compares two strings up to the case of letters. -/
theorem istrncmp_eq_zero_iff (s1 : List (BitVec 8)) : ∀ (s2 : List (BitVec 8)) (n : ℕ),
    0x00#8 ∉ s1 → 0x00#8 ∉ s2 → s1.length < n →
      (istrncmp s1 s2 n = 0 ↔ s1.map tolower = s2.map tolower) := by
  induction s1 with
  | nil =>
    intro s2 n _ h2 hn
    obtain ⟨n, rfl⟩ := Nat.exists_eq_add_of_lt hn
    cases s2 with
    | nil => simp [istrncmp, firstChar]
    | cons b s2 =>
      have hb : b ≠ 0x00#8 := fun h => h2 (by simp [h])
      have hne : tolower 0x00#8 ≠ tolower b := fun h => hb (tolower_eq_zero.mp h.symm)
      rw [istrncmp, if_pos ⟨hb.symm, hne⟩]
      simp only [firstChar, List.headD_nil, List.headD_cons, List.map_nil, List.map_cons]
      refine iff_of_false (fun h => hb ?_) (by simp)
      bv_omega
  | cons a s1 ih =>
    intro s2 n h1 h2 hn
    obtain ⟨n, rfl⟩ := Nat.exists_eq_add_of_lt hn
    have ha : a ≠ 0x00#8 := fun h => h1 (by simp [h])
    cases s2 with
    | nil =>
      have hne : tolower a ≠ tolower 0x00#8 := fun h => ha (tolower_eq_zero.mp h)
      rw [istrncmp, if_pos ⟨ha, hne⟩]
      simp only [firstChar, List.headD_nil, List.headD_cons, List.map_nil, List.map_cons]
      refine iff_of_false (fun h => ha ?_) (by simp)
      bv_omega
    | cons b s2 =>
      have htail := ih s2 (s1.length + 1 + n) (fun h => h1 (List.mem_cons_of_mem _ h))
        (fun h => h2 (List.mem_cons_of_mem _ h)) (by omega)
      rw [List.length_cons, istrncmp_cons, List.map_cons, List.map_cons, List.cons.injEq]
      by_cases heq : tolower a = tolower b
      · rw [if_neg fun h => h.2 heq, if_neg ha]
        simp only [heq, true_and]
        exact htail
      · have hab : a ≠ b := fun h => heq (by rw [h])
        rw [if_pos ⟨hab, heq⟩]
        refine iff_of_false (fun h => hab ?_) fun h => heq h.1
        bv_omega

theorem not_mem_fat16ToProperString (field : List (BitVec 8)) :
    0x00#8 ∉ fat16ToProperString field := by
  intro h
  have hp := List.mem_takeWhile_imp h
  simp at hp

variable {item : FatDirectoryItem} {name : List (BitVec 8)}

theorem not_mem_fullRelativeFilename : 0x00#8 ∉ fat16GetFullRelativeFilename item := by
  unfold fat16GetFullRelativeFilename
  split
  · simp [not_mem_fat16ToProperString]
  · exact not_mem_fat16ToProperString _

theorem length_fullRelativeFilename (bytes : List (BitVec 8)) :
    (fat16GetFullRelativeFilename (fatDirectoryItem bytes)).length ≤ 12 := by
  have hfield : ∀ field : List (BitVec 8), (fat16ToProperString field).length ≤ field.length :=
    fun field => (List.takeWhile_sublist _).length_le
  have hname := hfield (fatDirectoryItem bytes).filename
  have hext := hfield (fatDirectoryItem bytes).ext
  have hname8 : (fatDirectoryItem bytes).filename.length ≤ 8 := List.length_take_le 8 bytes
  have hext3 : (fatDirectoryItem bytes).ext.length ≤ 3 := List.length_take_le 3 (bytes.drop 8)
  unfold fat16GetFullRelativeFilename
  split
  · rw [List.length_append, List.length_cons]
    omega
  · omega

/-- The search compares the names of the entries up to the case of letters. -/
theorem istrncmp_entry_iff (bytes : List (BitVec 8)) (hname : 0x00#8 ∉ name) :
    istrncmp (fat16GetFullRelativeFilename (fatDirectoryItem bytes)) name maerosMaxPath = 0 ↔
      HasName name (fatDirectoryItem bytes) := by
  have hlength := length_fullRelativeFilename bytes
  refine istrncmp_eq_zero_iff _ name _ not_mem_fullRelativeFilename hname ?_
  simp only [maerosMaxPath]
  omega

/-- The first character of a name tells whether the entry is deleted. -/
theorem firstChar_fullRelativeFilename :
    firstChar (fat16GetFullRelativeFilename item) = 0xe5#8 ↔ IsDeleted item := by
  unfold fat16GetFullRelativeFilename IsDeleted
  cases item.filename with
  | nil => split <;> simp [fat16ToProperString, firstChar]
  | cons c s =>
    by_cases hc : c ≠ 0x00#8 ∧ c ≠ 0x20#8
    · have htake : fat16ToProperString (c :: s) = c :: fat16ToProperString s :=
        List.takeWhile_cons_of_pos (by simp [hc])
      split <;> simp [htake, firstChar]
    · have htake : fat16ToProperString (c :: s) = [] :=
        List.takeWhile_cons_of_neg (by simpa using hc)
      have hne : c ≠ 0xe5#8 := by
        rintro rfl
        exact hc ⟨by decide, by decide⟩
      split <;> simp [htake, firstChar, hne]

/-- All the entries that have a name are deleted, or none is. -/
theorem HasName.isDeleted_iff (h : HasName name item) :
    IsDeleted item ↔ firstChar name = 0xe5#8 := by
  have hhead : ∀ s : List (BitVec 8), firstChar (s.map tolower) = 0xe5#8 ↔
      firstChar s = 0xe5#8 := by
    intro s
    cases s with
    | nil => simp [firstChar]
    | cons c s => simp [firstChar, tolower_eq_e5]
  rw [← firstChar_fullRelativeFilename, ← hhead, ← hhead name]
  unfold HasName at h
  rw [h]

end Names

/-! ## Directories on the disk -/

/-- The entries of a directory at a position, up to the first one whose first byte is zero. -/
inductive DirectoryAt (disk : Disk) : ℕ → List FatDirectoryItem → Prop
  | done {pos : ℕ} : disk pos = 0x00#8 → DirectoryAt disk pos []
  | entry {pos : ℕ} {items : List FatDirectoryItem} : disk pos ≠ 0x00#8 →
      DirectoryAt disk (pos + sizeofFatDirectoryItem) items →
      DirectoryAt disk pos (fatDirectoryItem (slice disk pos sizeofFatDirectoryItem) :: items)

/-- The number of entries that are not deleted. -/
def liveCount (items : List FatDirectoryItem) : ℕ := items.countP fun item => ¬ IsDeleted item

section Directories

variable {disk : Disk}

theorem firstChar_slice (f : ℕ → BitVec 8) (pos : ℕ) {n : ℕ} (hn : 0 < n) :
    firstChar (slice f pos n) = f pos := by
  obtain ⟨m, rfl⟩ := Nat.exists_eq_add_of_lt hn
  unfold slice firstChar
  rw [List.range_succ_eq_map]
  rfl

theorem isDeleted_iff (disk : Disk) (pos : ℕ) :
    IsDeleted (fatDirectoryItem (slice disk pos sizeofFatDirectoryItem)) ↔ disk pos = 0xe5#8 := by
  have htake : (slice disk pos sizeofFatDirectoryItem).take 8 = slice disk pos 8 := by
    have h := take_drop_slice disk pos (n := sizeofFatDirectoryItem) (a := 0) (b := 8) (by decide)
    exact h
  unfold IsDeleted fatDirectoryItem
  dsimp only
  rw [htake, firstChar_slice disk pos (by decide)]

/-- The entries of a directory by their index. -/
theorem DirectoryAt.getElem? {pos : ℕ} {items : List FatDirectoryItem}
    (h : DirectoryAt disk pos items) : ∀ i < items.length, items[i]? =
      some (fatDirectoryItem (slice disk (pos + sizeofFatDirectoryItem * i)
        sizeofFatDirectoryItem)) := by
  induction h with
  | done _ =>
    intro i hi
    cases hi
  | @entry pos items _ _ ih =>
    intro i hi
    cases i with
    | zero => rfl
    | succ i =>
      rw [List.getElem?_cons_succ, ih i (by simpa using hi),
        show pos + sizeofFatDirectoryItem + sizeofFatDirectoryItem * i =
          pos + sizeofFatDirectoryItem * (i + 1) from by ring]

/-- A read that has an outcome delivers the bytes at its position and moves behind them. -/
theorem diskstreamerRead_some {pos total : ℕ} {read : StreamRead} (hpos : pos < 2 ^ 31)
    (h : diskstreamerRead disk pos total = some read) :
    pos + total < 2 ^ 31 ∧ read.out = slice disk pos total ∧ read.pos = (pos + total : ℕ) := by
  by_cases hfit : pos + total < 2 ^ 31
  · rw [diskstreamerRead_eq disk total pos hfit] at h
    cases h
    exact ⟨hfit, rfl, rfl⟩
  · rw [diskstreamerRead_none disk total pos hpos (by omega)] at h
    cases h

/-- **The count** of the entries of a directory leaves out those that are deleted. -/
theorem DirectoryAt.count {pos : ℕ} {items : List FatDirectoryItem}
    (h : DirectoryAt disk pos items) : ∀ {fuel i t : ℕ}, pos < 2 ^ 31 →
      fat16CountItems disk fuel pos i = some t → t = i + liveCount items := by
  induction h with
  | @done pos hzero =>
    intro fuel i t hpos hcount
    cases fuel with
    | zero => cases hcount
    | succ fuel =>
      obtain ⟨read, hread, hcount⟩ := Option.bind_eq_some_iff.mp hcount
      obtain ⟨-, hout, -⟩ := diskstreamerRead_some hpos hread
      rw [hout, firstChar_slice disk pos (by decide), if_pos hzero] at hcount
      cases hcount
      rfl
  | @entry pos items hne _ ih =>
    intro fuel i t hpos hcount
    cases fuel with
    | zero => cases hcount
    | succ fuel =>
      obtain ⟨read, hread, hcount⟩ := Option.bind_eq_some_iff.mp hcount
      obtain ⟨hfit, hout, hnext⟩ := diskstreamerRead_some hpos hread
      rw [hout, firstChar_slice disk pos (by decide), if_neg hne, hnext] at hcount
      unfold liveCount
      rw [List.countP_cons]
      by_cases hdel : disk pos = 0xe5#8
      · rw [if_pos hdel] at hcount
        rw [if_neg (by simpa using (isDeleted_iff disk pos).mpr hdel)]
        exact ih (by omega) hcount
      · rw [if_neg hdel] at hcount
        rw [if_pos (by simpa using fun hc => hdel ((isDeleted_iff disk pos).mp hc))]
        have hrest := ih (by omega) hcount
        unfold liveCount at hrest
        omega

/-- **The count** of a directory on the disk is that of its entries that are not deleted. -/
theorem DirectoryAt.count_eq {pos : ℕ} {items : List FatDirectoryItem}
    (h : DirectoryAt disk pos items) : ∀ {fuel i : ℕ}, items.length < fuel →
      pos + sizeofFatDirectoryItem * (items.length + 1) < 2 ^ 31 →
      fat16CountItems disk fuel pos i = some (i + liveCount items) := by
  induction h with
  | @done pos hzero =>
    intro fuel i hfuel hfit
    obtain ⟨fuel, rfl⟩ := Nat.exists_eq_add_of_lt hfuel
    rw [List.length_nil, Nat.zero_add, Nat.mul_one] at hfit
    refine Option.bind_eq_some_iff.mpr ⟨_, diskstreamerRead_eq disk _ pos hfit, ?_⟩
    rw [firstChar_slice disk pos (by decide), if_pos hzero]
    rfl
  | @entry pos items hne _ ih =>
    intro fuel i hfuel hfit
    obtain ⟨fuel, rfl⟩ := Nat.exists_eq_add_of_lt hfuel
    rw [List.length_cons] at hfit
    have hrest : items.length < items.length + 1 + fuel := by omega
    have hnext : pos + sizeofFatDirectoryItem + sizeofFatDirectoryItem * (items.length + 1) <
        2 ^ 31 := by
      simp only [sizeofFatDirectoryItem] at hfit ⊢
      omega
    have hread := diskstreamerRead_eq disk sizeofFatDirectoryItem pos (by
      simp only [sizeofFatDirectoryItem] at hfit ⊢
      omega)
    refine Option.bind_eq_some_iff.mpr ⟨_, hread, ?_⟩
    rw [firstChar_slice disk pos (by decide), if_neg hne]
    unfold liveCount
    rw [List.countP_cons]
    by_cases hdel : disk pos = 0xe5#8
    · rw [if_pos hdel, if_neg (by simpa using (isDeleted_iff disk pos).mpr hdel)]
      exact ih hrest hnext
    · rw [if_neg hdel, if_pos (by simpa using fun hc => hdel ((isDeleted_iff disk pos).mp hc))]
      have hcount := ih (i := i + 1) hrest hnext
      rw [show i + 1 + liveCount items = i + (liveCount items + 1) from by omega] at hcount
      exact hcount

/-- The entries of a buffer are those at its place on the disk. -/
theorem fatDirectoryItems_getElem? (disk : Disk) (pos : ℕ) {n m i : ℕ} (hi : i < m)
    (hn : sizeofFatDirectoryItem * i + sizeofFatDirectoryItem ≤ n) :
    (fatDirectoryItems (slice disk pos n) m)[i]? =
      some (fatDirectoryItem (slice disk (pos + sizeofFatDirectoryItem * i)
        sizeofFatDirectoryItem)) := by
  unfold fatDirectoryItems
  rw [List.getElem?_map, List.getElem?_range hi, Option.map_some, take_drop_slice disk pos hn]

end Directories

/-! ## Loading a directory -/

/-- A directory in memory and its place on the disk: the root directory, or a subdirectory whose
entries lie in one cluster. `total` entries of the buffer are searched. -/
inductive LoadedDirectory (vol : FatVolume) :
    ℕ → List FatDirectoryItem → List FatDirectoryItem → ℕ → Prop
  | root {items : List FatDirectoryItem} {dir : FatRootDirectory} {h h' : Heap} :
      fat16GetRootDirectory vol.disk vol.header h = some (.ok dir, h') →
      items.length ≤ vol.header.root_dir_entries →
      LoadedDirectory vol (512 * vol.header.rootDirSectorPos) items dir.entries dir.total
  | sub {items entries : List FatDirectoryItem} {item : FatDirectoryItem} {addr buffer : Addr}
      {sector : ℕ} {h h' : Heap} :
      fat16LoadFatDirectory vol item h = some (.loaded addr buffer entries, h') →
      fat16ClusterToSector vol.header (fat16GetFirstCluster item) = some (sector : ℤ) →
      sizeofFatDirectoryItem * items.length ≤ vol.header.clusterBytes →
      LoadedDirectory vol (512 * sector) items entries entries.length

section Loading

variable {vol : FatVolume} {items : List FatDirectoryItem} {h h' : Heap}

/-- The position of a sector, where it is one. -/
theorem toInt32_sector {sector : ℕ} (hlow : 512 * sector < 2 ^ 31) :
    toInt32 ((sector : ℤ) * (maerosSectorSize : ℕ)) = ((512 * sector : ℕ) : ℤ) := by
  rw [← Nat.cast_mul, mul_comm sector, toInt32_wrap]
  simp only [maerosSectorSize]
  rw [Nat.mod_eq_of_lt (by omega), if_pos hlow]

/-- The count from the first sector of a directory. -/
theorem DirectoryAt.total {disk : Disk} {sector t : ℕ}
    (hdir : DirectoryAt disk (512 * sector) items)
    (hlow : 512 * sector < 2 ^ 31)
    (hcount : fat16GetTotalItemsForDirectory disk sector = some t) : t = liveCount items := by
  unfold fat16GetTotalItemsForDirectory at hcount
  rw [toInt32_sector hlow] at hcount
  rw [hdir.count hlow hcount, Nat.zero_add]

/-- The root directory is loaded from its place on the disk, with room for all its entries. -/
theorem fat16GetRootDirectory_ok {disk : Disk} {header : FatHeader} {dir : FatRootDirectory}
    (hload : fat16GetRootDirectory disk header h = some (.ok dir, h')) :
    fat16GetTotalItemsForDirectory disk header.rootDirSectorPos = some dir.total ∧
      512 * header.rootDirSectorPos + header.rootDirSize < 2 ^ 31 ∧
      dir.entries = fatDirectoryItems (slice disk (512 * header.rootDirSectorPos)
        header.rootDirSize) header.root_dir_entries := by
  obtain ⟨t, h₁, htotal, hbuffer⟩ := prog_bind.mp hload
  obtain ⟨hcount, -⟩ := offDisk_some.mp htotal
  obtain ⟨buf, h₂, -, hrun⟩ := prog_bind.mp hbuffer
  split at hrun
  · cases (prog_pure.mp hrun).1
  · obtain ⟨pos, h₃, hseek, hrest⟩ := prog_bind.mp hrun
    obtain ⟨hpos, -⟩ := offDisk_some.mp hseek
    obtain ⟨read, h₄, hstream, hend⟩ := prog_bind.mp hrest
    obtain ⟨hread, -⟩ := offDisk_some.mp hstream
    cases (prog_pure.mp hend).1
    have hplace : header.rootDirSectorPos * maerosSectorSize = 512 * header.rootDirSectorPos :=
      mul_comm _ _
    rw [hplace] at hpos
    have hlow : 512 * header.rootDirSectorPos < 2 ^ 31 := by
      have := checkInt_lt hpos
      omega
    rw [checkInt_some hpos] at hread
    obtain ⟨hfit, hout, -⟩ := diskstreamerRead_some hlow hread
    exact ⟨hcount, hfit, by rw [← hout]⟩

/-- The root directory: all its entries, and the number of those that are not deleted. -/
theorem fat16GetRootDirectory_some {dir : FatRootDirectory}
    (hload : fat16GetRootDirectory vol.disk vol.header h = some (.ok dir, h'))
    (hdir : DirectoryAt vol.disk (512 * vol.header.rootDirSectorPos) items)
    (hlen : items.length ≤ vol.header.root_dir_entries) :
    dir.total = liveCount items ∧ ∀ i < items.length, dir.entries[i]? = items[i]? := by
  obtain ⟨hcount, hfit, hentries⟩ := fat16GetRootDirectory_ok hload
  refine ⟨hdir.total (by omega) hcount, fun i hi => ?_⟩
  rw [hentries, hdir.getElem? i hi]
  apply fatDirectoryItems_getElem? _ _ (by omega)
  unfold FatHeader.rootDirSize
  simp only [sizeofFatDirectoryItem]
  omega

/-- The root directory of a volume is loaded when there is memory for its buffer. -/
theorem fat16GetRootDirectory_accepts {disk : Disk} {header : FatHeader} {t : ℕ} {p : Addr}
    (hcount : fat16GetTotalItemsForDirectory disk header.rootDirSectorPos = some t)
    (hfit : 512 * header.rootDirSectorPos + header.rootDirSize < 2 ^ 31)
    (hz : h.kzalloc (BitVec.ofNat 32 header.rootDirSize) = some (p, h')) (hne : p ≠ 0#32) :
    ∃ root, fat16GetRootDirectory disk header h = some (.ok root, h') ∧ root.total = t := by
  have hread := diskstreamerRead_eq disk header.rootDirSize (512 * header.rootDirSectorPos) hfit
  have hseek : checkInt ((header.rootDirSectorPos * maerosSectorSize : ℕ) : ℤ) =
      some ((512 * header.rootDirSectorPos : ℕ) : ℤ) := by
    rw [mul_comm]
    unfold checkInt
    exact if_pos ⟨by omega, by exact_mod_cast show 512 * header.rootDirSectorPos < 2 ^ 31 by omega⟩
  refine ⟨⟨p, fatDirectoryItems (slice disk (512 * header.rootDirSectorPos) header.rootDirSize)
    header.root_dir_entries, t, header.rootDirSectorPos, header.endingSectorPos⟩, ?_, rfl⟩
  unfold fat16GetRootDirectory
  rw [bind_of_some (offDisk_some.mpr ⟨hcount, rfl⟩), bind_of_some (m := allocRecord _) hz,
    if_neg hne, bind_of_some (offDisk_some.mpr ⟨hseek, rfl⟩),
    bind_of_some (offDisk_some.mpr ⟨hread, rfl⟩)]
  rfl

/-- A round from the beginning of a cluster, where it has an outcome. -/
theorem fat16ReadRound_zero {disk : Disk} {header : FatHeader} {c sector n : ℕ}
    {out : List (BitVec 8)} (hsector : fat16ClusterToSector header c = some (sector : ℤ))
    (hround : fat16ReadRound disk header c 0 n = some out) :
    512 * sector < 2 ^ 31 ∧ out = slice disk (512 * sector) n := by
  rw [fat16ReadRound_eq_bind] at hround
  obtain ⟨pos, hpos, hread⟩ := Option.bind_eq_some_iff.mp hround
  obtain ⟨read, hstream, rfl⟩ := Option.map_eq_some_iff.mp hread
  obtain ⟨_, hs, hseek⟩ := Option.bind_eq_some_iff.mp hpos
  cases hsector.symm.trans hs
  obtain ⟨byte, hbyte, hplace⟩ := Option.bind_eq_some_iff.mp hseek
  have hcast : (sector : ℤ) * (maerosSectorSize : ℕ) = ((512 * sector : ℕ) : ℤ) := by
    rw [← Nat.cast_mul, mul_comm]
  rw [hcast] at hbyte
  have hlow : 512 * sector < 2 ^ 31 := by
    have := checkInt_lt hbyte
    omega
  rw [checkInt_some hplace, checkInt_some hbyte, Int.zero_tmod, add_zero] at hstream
  exact ⟨hlow, (diskstreamerRead_some hlow hstream).2.1⟩

/-- The first round of a read from the beginning of a file is all of it, if it takes no more than a
cluster. -/
theorem fat16ReadInternal_zero {disk : Disk} {header : FatHeader} {c total : ℕ} {res : ℤ}
    {out : List (BitVec 8)} (hread : fat16ReadInternal disk header c 0 total = some (res, out)) :
    ∃ (n : ℕ) (bytes : List (BitVec 8)), fat16ReadRound disk header c 0 n = some bytes ∧
      (total ≤ header.clusterBytes → n = total ∧ out = bytes) := by
  unfold fat16ReadInternal at hread
  rw [fat16ReadInternalBy] at hread
  split at hread
  · cases hread
  rename_i hsize
  have hlookup : fat16GetClusterForOffset disk header c 0 = some (c : ℤ) := by
    unfold fat16GetClusterForOffset fat16ClusterForOffsetBy
    rw [if_neg hsize, Int.zero_tdiv, Int.toNat_zero, fat16WalkChain]
  rw [hlookup, Option.bind_some, if_neg (by omega)] at hread
  obtain ⟨bytes, hround, hrest⟩ := Option.bind_eq_some_iff.mp hread
  by_cases hlong : (total : ℤ) > header.clusterBytes
  · rw [if_pos hlong] at hround
    exact ⟨header.clusterBytes, bytes, hround, fun hle => by omega⟩
  · rw [if_neg hlong] at hround hrest
    cases hrest
    exact ⟨total, out, hround, fun _ => ⟨rfl, rfl⟩⟩

/-- What is read of a subdirectory: as many of its entries as are not deleted. -/
theorem fatDirectoryItems_read {cluster sector total : ℕ} {res : ℤ} {out : List (BitVec 8)}
    (hsector : fat16ClusterToSector vol.header cluster = some (sector : ℤ))
    (hcount : fat16GetTotalItemsForDirectory vol.disk sector = some total)
    (hread : fat16ReadInternal vol.disk vol.header cluster 0 (total * sizeofFatDirectoryItem : ℕ) =
      some (res, out))
    (hdir : DirectoryAt vol.disk (512 * sector) items)
    (hlen : sizeofFatDirectoryItem * items.length ≤ vol.header.clusterBytes) :
    (fatDirectoryItems out total).length = liveCount items ∧
      ∀ i < (fatDirectoryItems out total).length,
        (fatDirectoryItems out total)[i]? = items[i]? := by
  obtain ⟨n, bytes, hround, hone⟩ := fat16ReadInternal_zero hread
  obtain ⟨hlow, hbytes⟩ := fat16ReadRound_zero hsector hround
  have hlive := hdir.total hlow hcount
  have hle : liveCount items ≤ items.length := List.countP_le_length
  obtain ⟨rfl, rfl⟩ := hone (by simp only [sizeofFatDirectoryItem] at hlen ⊢; omega)
  rw [length_fatDirectoryItems]
  refine ⟨hlive, fun i hi => ?_⟩
  rw [hbytes, hdir.getElem? i (by omega)]
  exact fatDirectoryItems_getElem? _ _ hi (by simp only [sizeofFatDirectoryItem]; omega)

/-- A subdirectory: as many of its entries as are not deleted. -/
theorem fat16LoadFatDirectory_some {entries : List FatDirectoryItem} {item : FatDirectoryItem}
    {addr buffer : Addr} {sector : ℕ}
    (hload : fat16LoadFatDirectory vol item h = some (.loaded addr buffer entries, h'))
    (hsector : fat16ClusterToSector vol.header (fat16GetFirstCluster item) = some (sector : ℤ))
    (hdir : DirectoryAt vol.disk (512 * sector) items)
    (hlen : sizeofFatDirectoryItem * items.length ≤ vol.header.clusterBytes) :
    entries.length = liveCount items ∧ ∀ i < entries.length, entries[i]? = items[i]? := by
  cases fat16LoadFatDirectory_cases hload with
  | loaded ht _ hread =>
    obtain ⟨first, hfirst, hcount⟩ := ht.counted
    cases hsector.symm.trans hfirst
    exact fatDirectoryItems_read hsector hcount hread hdir hlen

end Loading

/-! ## The search -/

/-- The item holds a copy of the entry, or the directory that was loaded for it. -/
def BuiltFrom (vol : FatVolume) (item : FatDirectoryItem) (f_item : FatItem) : Prop :=
  match f_item.content with
  | .file _ entry => item.isSubdirectory = false ∧ entry = item
  | .directory directory => item.isSubdirectory = true ∧
      ∃ h h', fat16LoadFatDirectory vol item h = some (directory, h')

/-- The heap has room for the items of these entries, one after the other. -/
def RoomFor (vol : FatVolume) : List FatDirectoryItem → Heap → Prop
  | [], _ => True
  | item :: items, h => ∃ f_item h', fat16NewFatItemForDirectoryItem vol item h =
      some (some f_item, h') ∧ RoomFor vol items h'

/-- One round of the search, with the entry at hand. -/
def searchStep (vol : FatVolume) (name : List (BitVec 8)) (f_item : Option FatItem)
    (item : FatDirectoryItem) : HeapM (Option FatItem) :=
  if istrncmp (fat16GetFullRelativeFilename item) name maerosMaxPath = 0 then
    fat16NewFatItemForDirectoryItem vol item
  else pure f_item

section Search

variable {vol : FatVolume} {name : List (BitVec 8)}

/-- An item is that of the entry it was made for. -/
theorem fat16NewFatItem_built {item : FatDirectoryItem} {f_item : FatItem} {h h' : Heap}
    (hnew : fat16NewFatItemForDirectoryItem vol item h = some (some f_item, h')) :
    BuiltFrom vol item f_item := by
  obtain ⟨addr, h₁, -, hrest⟩ := prog_bind.mp hnew
  split at hrest
  · cases (prog_pure.mp hrest).1
  split at hrest
  · rename_i hsub
    obtain ⟨directory, h₂, hload, hend⟩ := prog_bind.mp hrest
    cases (prog_pure.mp hend).1
    exact ⟨hsub, h₁, h₂, hload⟩
  · rename_i hfile
    obtain ⟨item_copy, h₂, -, hend⟩ := prog_bind.mp hrest
    cases (prog_pure.mp hend).1
    exact ⟨by simpa using hfile, rfl⟩

/-- The search goes over the entries at the front of the directory. -/
theorem foldlM_range' (vol : FatVolume) (name : List (BitVec 8))
    {entries items : List FatDirectoryItem} (n : ℕ) : ∀ (s : ℕ) (f_item : Option FatItem),
      s + n ≤ items.length → (∀ i < s + n, entries[i]? = items[i]?) →
      (List.range' s n).foldlM (fat16FindItemRound vol entries name) f_item =
        ((items.drop s).take n).foldlM (searchStep vol name) f_item := by
  induction n with
  | zero =>
    intro s f_item _ _
    rw [List.take_zero]
    rfl
  | succ n ih =>
    intro s f_item hlen hentries
    have hs : s < items.length := by omega
    have hround : fat16FindItemRound vol entries name f_item s =
        searchStep vol name f_item items[s] := by
      unfold fat16FindItemRound searchStep
      rw [hentries s (by omega), List.getElem?_eq_getElem hs]
    rw [List.range'_succ, List.drop_eq_getElem_cons hs, List.take_succ_cons, List.foldlM_cons,
      List.foldlM_cons, hround]
    congr 1
    funext f_item'
    exact ih (s + 1) f_item' (by omega) fun i hi => hentries i (by omega)

/-- **The search** builds its item from an entry that has the name, if there is one. -/
theorem foldlM_searchStep (hname : 0x00#8 ∉ name) (items : List FatDirectoryItem) :
    ∀ (f_item : Option FatItem) (h : Heap),
      (∀ item ∈ items, ∃ bytes, item = fatDirectoryItem bytes) →
      RoomFor vol (items.filter (HasName name)) h →
      ∃ o h', items.foldlM (searchStep vol name) f_item h = some (o, h') ∧
        ((∀ item ∈ items, ¬ HasName name item) ∧ o = f_item ∨
          ∃ item ∈ items, HasName name item ∧
            ∃ found, o = some found ∧ BuiltFrom vol item found) := by
  induction items with
  | nil =>
    intro f_item h _ _
    exact ⟨f_item, h, rfl, .inl ⟨by simp, rfl⟩⟩
  | cons item items ih =>
    intro f_item h hbytes hroom
    obtain ⟨bytes, hitem⟩ := hbytes item List.mem_cons_self
    have hrest : ∀ item ∈ items, ∃ bytes, item = fatDirectoryItem bytes :=
      fun i hi => hbytes i (List.mem_cons_of_mem _ hi)
    have hmatch : istrncmp (fat16GetFullRelativeFilename item) name maerosMaxPath = 0 ↔
        HasName name item := by
      rw [hitem]
      exact istrncmp_entry_iff bytes hname
    rw [List.foldlM_cons]
    by_cases hhas : HasName name item
    · rw [List.filter_cons_of_pos (by simpa using hhas)] at hroom
      obtain ⟨found, h₁, hnew, hroom⟩ := hroom
      have hstep : searchStep vol name f_item item h = some (some found, h₁) := by
        unfold searchStep
        rw [if_pos (hmatch.mpr hhas)]
        exact hnew
      obtain ⟨o, h', hrun, hres⟩ := ih (some found) h₁ hrest hroom
      refine ⟨o, h', (bind_of_some hstep _).trans hrun, .inr ?_⟩
      rcases hres with ⟨-, rfl⟩ | ⟨other, hmem, hother⟩
      · exact ⟨item, List.mem_cons_self, hhas, found, rfl, fat16NewFatItem_built hnew⟩
      · exact ⟨other, List.mem_cons_of_mem _ hmem, hother⟩
    · rw [List.filter_cons_of_neg (by simpa using hhas)] at hroom
      have hstep : searchStep vol name f_item item h = some (f_item, h) := by
        unfold searchStep
        rw [if_neg fun hc => hhas (hmatch.mp hc)]
        rfl
      obtain ⟨o, h', hrun, hres⟩ := ih f_item h hrest hroom
      refine ⟨o, h', (bind_of_some hstep _).trans hrun, ?_⟩
      rcases hres with ⟨hnone, rfl⟩ | ⟨other, hmem, hother⟩
      · exact .inl ⟨List.forall_mem_cons.mpr ⟨hhas, hnone⟩, rfl⟩
      · exact .inr ⟨other, List.mem_cons_of_mem _ hmem, hother⟩

/-- The entries of a directory come from the disk. -/
theorem DirectoryAt.bytes {disk : Disk} {pos : ℕ} {items : List FatDirectoryItem}
    (h : DirectoryAt disk pos items) : ∀ item ∈ items, ∃ bytes, item = fatDirectoryItem bytes := by
  induction h with
  | done _ => simp
  | entry _ _ ih => exact List.forall_mem_cons.mpr ⟨⟨_, rfl⟩, ih⟩

/-- A loaded directory counts the live entries, and as many of its first entries are those on the
disk. -/
theorem LoadedDirectory.entries {pos total : ℕ} {items entries : List FatDirectoryItem}
    (hload : LoadedDirectory vol pos items entries total) (hdir : DirectoryAt vol.disk pos items) :
    total = liveCount items ∧ ∀ i < total, entries[i]? = items[i]? := by
  have hle : liveCount items ≤ items.length := List.countP_le_length
  cases hload with
  | root hroot hlen =>
    obtain ⟨htotal, hentries⟩ := fat16GetRootDirectory_some hroot hdir hlen
    exact ⟨htotal, fun i hi => hentries i (by omega)⟩
  | sub hsub hsector hlen => exact fat16LoadFatDirectory_some hsub hsector hdir hlen

/-- **The search** in a loaded directory looks at as many of its first entries as there are live
ones. -/
theorem LoadedDirectory.find {pos total : ℕ} {items entries : List FatDirectoryItem}
    (hload : LoadedDirectory vol pos items entries total) (hdir : DirectoryAt vol.disk pos items)
    (hname : 0x00#8 ∉ name) {h : Heap}
    (hroom : RoomFor vol ((items.take (liveCount items)).filter (HasName name)) h) :
    ∃ o h', fat16FindItemInDirectory vol entries total name h = some (o, h') ∧
      ((∀ item ∈ items.take (liveCount items), ¬ HasName name item) ∧ o = none ∨
        ∃ item ∈ items.take (liveCount items), HasName name item ∧
          ∃ found, o = some found ∧ BuiltFrom vol item found) := by
  obtain ⟨rfl, hentries⟩ := hload.entries hdir
  have hle : liveCount items ≤ items.length := List.countP_le_length
  have hfold := foldlM_range' vol name (liveCount items) 0 none (by omega)
    (fun i hi => hentries i (by omega))
  rw [List.drop_zero, ← List.range_eq_range'] at hfold
  obtain ⟨o, h', hrun, hres⟩ := foldlM_searchStep hname (items.take (liveCount items)) none h
    (fun item hi => hdir.bytes item (List.mem_of_mem_take hi)) hroom
  rw [← hfold] at hrun
  exact ⟨o, h', hrun, hres⟩

/-- The lookup of a name finds an item if and only if an entry of the directory that is not deleted
has the name, and the item is built from such an entry. -/
def FindsLive (vol : FatVolume) (entries : List FatDirectoryItem) (total : ℕ)
    (items : List FatDirectoryItem) (name : List (BitVec 8)) (h : Heap) : Prop :=
  ∃ o h', fat16FindItemInDirectory vol entries total name h = some (o, h') ∧
    (o.isSome ↔ ∃ item ∈ items, ¬ IsDeleted item ∧ HasName name item) ∧
    ∀ found, o = some found → ∃ item ∈ items, ¬ IsDeleted item ∧ HasName name item ∧
      BuiltFrom vol item found

/-- **The lookup of a name** in a loaded directory is right exactly when the name is among as many
of its first entries as there are entries that are not deleted, if and only if it is the name of
one that is not deleted. -/
theorem find_item_iff {pos total : ℕ} {items entries : List FatDirectoryItem}
    (hload : LoadedDirectory vol pos items entries total) (hdir : DirectoryAt vol.disk pos items)
    (hname : 0x00#8 ∉ name) {h : Heap}
    (hroom : RoomFor vol ((items.take (liveCount items)).filter (HasName name)) h) :
    FindsLive vol entries total items name h ↔
      ((∃ item ∈ items.take (liveCount items), HasName name item) ↔
        ∃ item ∈ items, ¬ IsDeleted item ∧ HasName name item) := by
  obtain ⟨o, h', hrun, hres⟩ := hload.find hdir hname hroom
  have hsome : o.isSome ↔ ∃ item ∈ items.take (liveCount items), HasName name item := by
    rcases hres with ⟨hnone, rfl⟩ | ⟨item, hmem, hhas, found, rfl, -⟩
    · exact iff_of_false (by simp) fun ⟨item, hmem, hhas⟩ => hnone item hmem hhas
    · exact iff_of_true rfl ⟨item, hmem, hhas⟩
  constructor
  · rintro ⟨o', h'', hrun', hiff, -⟩
    cases hrun.symm.trans hrun'
    exact hsome.symm.trans hiff
  · intro hiff
    refine ⟨o, h', hrun, hsome.trans hiff, fun found hfound => ?_⟩
    rcases hres with ⟨-, rfl⟩ | ⟨item, hmem, hhas, found', rfl, hbuilt⟩
    · cases hfound
    · cases hfound
      -- a live entry has the name, so no entry with the name is deleted
      obtain ⟨other, -, hlive, hother⟩ := hiff.mp ⟨item, hmem, hhas⟩
      refine ⟨item, List.mem_of_mem_take hmem, ?_, hhas, hbuilt⟩
      rw [hhas.isDeleted_iff, ← hother.isDeleted_iff]
      exact hlive

end Search

/-! ## Two entries in a root directory -/

/-- A volume whose root directory holds two entries with names of one character. -/
def twoEntryDisk (first second : BitVec 8) : Disk :=
  Function.update (Function.update twoClusterDisk 1536 first) 1568 second

/-- The volume in the driver. -/
def twoEntryVolume (first second : BitVec 8) : FatVolume :=
  ⟨twoEntryDisk first second, fatHeader (twoEntryDisk first second), [], 0⟩

/-- Its entries. -/
def twoEntries (first second : BitVec 8) : List FatDirectoryItem :=
  [fatDirectoryItem (slice (twoEntryDisk first second) 1536 sizeofFatDirectoryItem),
    fatDirectoryItem (slice (twoEntryDisk first second) 1568 sizeofFatDirectoryItem)]

section TwoEntries

variable {first second : BitVec 8}

theorem twoEntryVolume_header : (twoEntryVolume first second).header = ⟨1, 1, 2, 16, 1⟩ := by
  unfold twoEntryVolume twoEntryDisk
  dsimp only
  rw [fatHeader_update _ _ (by decide), fatHeader_update _ _ (by decide), fatHeader_twoClusterDisk]

/-- The two entries are what is on the disk. -/
theorem directoryAt_twoEntries (hfirst : first ≠ 0x00#8) (hsecond : second ≠ 0x00#8) :
    DirectoryAt (twoEntryVolume first second).disk 1536 (twoEntries first second) :=
  .entry (by simpa [twoEntryVolume, twoEntryDisk] using hfirst)
    (.entry (by simpa [twoEntryVolume, twoEntryDisk, sizeofFatDirectoryItem] using hsecond) (.done (by
      simp [twoEntryVolume, twoEntryDisk, twoClusterDisk, sizeofFatDirectoryItem]
      decide)))

/-- The root directory is loaded after the boot. -/
theorem loadedDirectory_twoEntries (hfirst : first ≠ 0x00#8) (hsecond : second ≠ 0x00#8) :
    ∃ entries total, LoadedDirectory (twoEntryVolume first second) 1536 (twoEntries first second)
      entries total := by
  have hheader := @twoEntryVolume_header first second
  have hlive : ∃ t, fat16GetTotalItemsForDirectory (twoEntryVolume first second).disk (3 : ℕ) =
      some t := by
    have hdir := directoryAt_twoEntries hfirst hsecond
    have hlen : (twoEntries first second).length = 2 := rfl
    have hpos : toInt32 (((3 : ℕ) : ℤ) * (maerosSectorSize : ℕ)) = ((1536 : ℕ) : ℤ) :=
      toInt32_sector (by decide)
    unfold fat16GetTotalItemsForDirectory
    rw [hpos]
    exact ⟨_, hdir.count_eq (by rw [hlen]; decide) (by rw [hlen]; decide)⟩
  obtain ⟨t, ht⟩ := hlive
  obtain ⟨h', hz, -⟩ := packed_bootKernel.kzalloc 512#32 (by decide) (by decide)
  obtain ⟨root, hload, -⟩ := @fat16GetRootDirectory_accepts bootKernel.heap h'
    (twoEntryVolume first second).disk (twoEntryVolume first second).header t (blockAddr 0)
    (by rw [hheader]; exact ht) (by rw [hheader]; decide) (by rw [hheader]; exact hz)
    (blockAddr_ne_zero (by decide))
  have hlen : (twoEntries first second).length ≤
      (twoEntryVolume first second).header.root_dir_entries := by
    rw [hheader]
    exact Nat.le_add_right 2 14
  have hroot := LoadedDirectory.root hload hlen
  rw [hheader] at hroot
  exact ⟨_, _, hroot⟩

end TwoEntries

/-- The name of the first of two entries is found. -/
theorem find_item_iff_first : ∃ entries total h,
    (LoadedDirectory (twoEntryVolume 0x41#8 0xe5#8) 1536 (twoEntries 0x41#8 0xe5#8) entries total ∧
      DirectoryAt (twoEntryVolume 0x41#8 0xe5#8).disk 1536 (twoEntries 0x41#8 0xe5#8) ∧
      RoomFor (twoEntryVolume 0x41#8 0xe5#8) (((twoEntries 0x41#8 0xe5#8).take
        (liveCount (twoEntries 0x41#8 0xe5#8))).filter (HasName [0x61#8])) h) ∧
    FindsLive (twoEntryVolume 0x41#8 0xe5#8) entries total (twoEntries 0x41#8 0xe5#8) [0x61#8] h := by
  obtain ⟨entries, total, hload⟩ :=
    loadedDirectory_twoEntries (show 0x41#8 ≠ 0x00#8 by decide) (show 0xe5#8 ≠ 0x00#8 by decide)
  have hdir := directoryAt_twoEntries (show 0x41#8 ≠ 0x00#8 by decide)
    (show 0xe5#8 ≠ 0x00#8 by decide)
  have hroom : RoomFor (twoEntryVolume 0x41#8 0xe5#8) (((twoEntries 0x41#8 0xe5#8).take
      (liveCount (twoEntries 0x41#8 0xe5#8))).filter (HasName [0x61#8])) bootKernel.heap := by
    have hfilter : ((twoEntries 0x41#8 0xe5#8).take
        (liveCount (twoEntries 0x41#8 0xe5#8))).filter (HasName [0x61#8]) =
          [fatDirectoryItem (slice (twoEntryDisk 0x41#8 0xe5#8) 1536 sizeofFatDirectoryItem)] := by
      decide
    have hfile : (fatDirectoryItem
        (slice (twoEntryDisk 0x41#8 0xe5#8) 1536 sizeofFatDirectoryItem)).isSubdirectory = false := by
      decide
    obtain ⟨h', hnew, -⟩ := packed_bootKernel.newFileItem (by decide)
      (twoEntryVolume 0x41#8 0xe5#8) hfile
    rw [hfilter]
    exact ⟨_, h', hnew, trivial⟩
  exact ⟨entries, total, bootKernel.heap, ⟨hload, hdir, hroom⟩,
    (find_item_iff hload hdir (by decide) hroom).mpr (by decide)⟩

/-- Behind a deleted entry the only live one is not found. -/
theorem find_item_misses : ∃ entries total,
    LoadedDirectory (twoEntryVolume 0xe5#8 0x41#8) 1536 (twoEntries 0xe5#8 0x41#8) entries total ∧
      DirectoryAt (twoEntryVolume 0xe5#8 0x41#8).disk 1536 (twoEntries 0xe5#8 0x41#8) ∧
      (∃ item ∈ twoEntries 0xe5#8 0x41#8, ¬ IsDeleted item ∧ HasName [0x41#8] item) ∧
      ∀ h, ¬ FindsLive (twoEntryVolume 0xe5#8 0x41#8) entries total (twoEntries 0xe5#8 0x41#8)
        [0x41#8] h := by
  obtain ⟨entries, total, hload⟩ :=
    loadedDirectory_twoEntries (show 0xe5#8 ≠ 0x00#8 by decide) (show 0x41#8 ≠ 0x00#8 by decide)
  have hdir := directoryAt_twoEntries (show 0xe5#8 ≠ 0x00#8 by decide)
    (show 0x41#8 ≠ 0x00#8 by decide)
  have hlive : ∃ item ∈ twoEntries 0xe5#8 0x41#8, ¬ IsDeleted item ∧ HasName [0x41#8] item := by
    decide
  have hfront : ∀ item ∈ (twoEntries 0xe5#8 0x41#8).take (liveCount (twoEntries 0xe5#8 0x41#8)),
      ¬ HasName [0x41#8] item := by
    decide
  refine ⟨entries, total, hload, hdir, hlive, fun h hfinds => ?_⟩
  have hfilter : ((twoEntries 0xe5#8 0x41#8).take
      (liveCount (twoEntries 0xe5#8 0x41#8))).filter (HasName [0x41#8]) = [] := by
    decide
  have hroom : RoomFor (twoEntryVolume 0xe5#8 0x41#8) (((twoEntries 0xe5#8 0x41#8).take
      (liveCount (twoEntries 0xe5#8 0x41#8))).filter (HasName [0x41#8])) h := by
    rw [hfilter]
    trivial
  obtain ⟨o, h', hrun, hres⟩ := hload.find hdir (by decide) hroom
  obtain ⟨o', h'', hrun', hiff, -⟩ := hfinds
  cases hrun.symm.trans hrun'
  rcases hres with ⟨-, rfl⟩ | ⟨item, hmem, hhas, -⟩
  · exact absurd (hiff.mpr hlive) (by simp)
  · exact hfront item hmem hhas

end MaerOS.Analysis
