import MaerOS.Lib.Forget
import MaerOS.Model.FatStreams

/-!
# The streams of a volume hold no state

Every function of the driver sets a stream before it reads from it: with the streams in
the state it returns what it returns without them, wherever the streams stand.
-/

set_option autoImplicit false

namespace MaerOS.Analysis

open MaerOS.Lib MaerOS.Model
open MaerOS.Model.Streams (FatStream FatStreams StreamM DriverM StreamFileM)

/-! ## Streams -/

/-- Setting a stream and reading from it returns the bytes of the disk there. -/
theorem seek_read_forgets (disk : Disk) (stream : FatStream) (pos total : ℤ) :
    Forgets (do
      Streams.diskstreamerSeek stream pos
      Streams.diskstreamerRead disk stream total)
      ((diskstreamerRead disk pos total).map StreamRead.out) := by
  intro streams
  show Prod.fst <$> (Streams.diskstreamerRead disk stream total) _ = _
  unfold Streams.diskstreamerRead
  rw [Function.update_self]
  cases diskstreamerRead disk pos total with
  | none => rfl
  | some read => rfl

/-- The same, with the rest of the program behind the read. -/
theorem seek_read_bind_forgets (disk : Disk) (stream : FatStream) (pos total : ℤ) {α : Type}
    {f : List (BitVec 8) → StreamM α} {f' : StreamRead → Option α}
    (hf : ∀ read, Forgets (f read.out) (f' read)) :
    Forgets (do
      Streams.diskstreamerSeek stream pos
      let out ← Streams.diskstreamerRead disk stream total
      f out)
      (diskstreamerRead disk pos total >>= f') := by
  intro streams
  show Prod.fst <$> (Streams.diskstreamerRead disk stream total
    (Function.update streams stream pos) >>= fun r => f r.1 r.2) = _
  unfold Streams.diskstreamerRead
  rw [Function.update_self]
  cases diskstreamerRead disk pos total with
  | none => rfl
  | some read => exact hf read _

/-- A program without an outcome has none wherever the streams stand. -/
theorem failure_forgets {α : Type} : Forgets (failure : StreamM α) none := by
  intro streams
  rfl

/-! ## Clusters -/

/-- **`fat16_get_fat_entry`** sets the stream for the allocation table before it reads. -/
theorem fat16GetFatEntry_forgets (disk : Disk) (header : FatHeader) (cluster : ℤ) :
    Forgets (Streams.fat16GetFatEntry disk header cluster) (fat16GetFatEntry disk header cluster) := by
  unfold Streams.fat16GetFatEntry fat16GetFatEntry
  apply Forgets.bind (Forgets.lift _)
  intro entry_offset
  apply seek_read_bind_forgets
  intro read
  apply Forgets.bind (Forgets.lift _)
  intro low
  apply Forgets.bind (Forgets.lift _)
  intro high
  exact Forgets.pure _

/-- The walk along a chain is one lookup after the other. -/
theorem fat16WalkChain_forgets (disk : Disk) (header : FatHeader) : ∀ (n : ℕ) (cluster : ℤ),
    Forgets (Streams.fat16WalkChain disk header n cluster)
      (fat16WalkChain (fat16GetFatEntry disk header) n cluster) := by
  intro n
  induction n with
  | zero =>
    intro cluster
    exact Forgets.pure cluster
  | succ n ih =>
    intro cluster
    unfold Streams.fat16WalkChain fat16WalkChain
    apply Forgets.bind (fat16GetFatEntry_forgets disk header cluster)
    intro entry
    apply Forgets.ite
    · intro _
      exact Forgets.pure _
    · intro _
      exact ih entry

/-- **`fat16_get_cluster_for_offset`** finds the same cluster. -/
theorem fat16GetClusterForOffset_forgets (disk : Disk) (header : FatHeader) (cluster offset : ℤ) :
    Forgets (Streams.fat16GetClusterForOffset disk header cluster offset)
      (fat16GetClusterForOffset disk header cluster offset) := by
  unfold Streams.fat16GetClusterForOffset fat16GetClusterForOffset fat16ClusterForOffsetBy
  apply Forgets.ite
  · intro _
    exact failure_forgets
  · intro _
    exact fat16WalkChain_forgets disk header _ cluster

/-- One round of a read sets the stream for clusters before it reads. -/
theorem fat16ReadRound_forgets (disk : Disk) (header : FatHeader) (cluster offset total : ℤ) :
    Forgets (Streams.fat16ReadRound disk header cluster offset total)
      (fat16ReadRound disk header cluster offset total) := by
  unfold Streams.fat16ReadRound fat16ReadRound
  apply Forgets.bind (Forgets.lift _)
  intro starting_sector
  apply Forgets.bind (Forgets.lift _)
  intro starting_byte
  apply Forgets.bind (Forgets.lift _)
  intro starting_pos
  have h := seek_read_forgets disk .cluster_read_stream starting_pos total
  rw [Option.map_eq_bind] at h
  exact h

/-- A read looks up a cluster and sets the stream anew in every round. -/
theorem fat16ReadInternal_forgets_below (disk : Disk) (header : FatHeader) (cluster : ℤ) :
    ∀ (n : ℕ) (offset total : ℤ), total.toNat < n →
      Forgets (Streams.fat16ReadInternal disk header cluster offset total)
        (fat16ReadInternal disk header cluster offset total) := by
  intro n
  induction n with
  | zero =>
    intro offset total hn
    omega
  | succ n ih =>
    intro offset total hn
    unfold Streams.fat16ReadInternal fat16ReadInternal fat16ReadInternalBy
    by_cases hzero : header.clusterBytes = 0
    · rw [dif_pos hzero, dif_pos hzero]
      exact failure_forgets
    rw [dif_neg hzero, dif_neg hzero]
    apply Forgets.bind (fat16GetClusterForOffset_forgets disk header cluster offset)
    intro cluster_to_use
    apply Forgets.ite
    · intro _
      exact Forgets.pure _
    intro _
    apply Forgets.bind (fat16ReadRound_forgets disk header cluster_to_use offset _)
    intro out
    apply Forgets.ite
    · intro hmore
      apply Forgets.bind (Forgets.lift _)
      intro offset'
      apply Forgets.bind (ih offset' (total - header.clusterBytes) (by omega))
      intro rest
      exact Forgets.pure _
    · intro _
      exact Forgets.pure _

/-- **`fat16_read_internal`** reads the same bytes. -/
theorem fat16ReadInternal_forgets (disk : Disk) (header : FatHeader) (cluster offset total : ℤ) :
    Forgets (Streams.fat16ReadInternal disk header cluster offset total)
      (fat16ReadInternal disk header cluster offset total) :=
  fat16ReadInternal_forgets_below disk header cluster _ offset total (Nat.lt_succ_self _)

/-! ## Directories -/

/-- Counting the entries of a directory starts where the directory stream stands. -/
theorem fat16CountItems_stream (disk : Disk) : ∀ (fuel i : ℕ) (streams : FatStreams),
    Prod.fst <$> Streams.fat16CountItems disk fuel i streams =
      fat16CountItems disk fuel (streams .directory_stream) i := by
  intro fuel
  induction fuel with
  | zero =>
    intro i streams
    rfl
  | succ fuel ih =>
    intro i streams
    unfold Streams.fat16CountItems fat16CountItems
    show Prod.fst <$> (Streams.diskstreamerRead disk .directory_stream _ streams >>= _) = _
    unfold Streams.diskstreamerRead
    cases hread : diskstreamerRead disk (streams .directory_stream) sizeofFatDirectoryItem with
    | none => rfl
    | some read =>
      simp only [Option.map_some, Option.bind_eq_bind, Option.bind_some]
      by_cases hend : firstChar read.out = 0x00#8
      · rw [if_pos hend, if_pos hend]
        rfl
      rw [if_neg hend, if_neg hend]
      by_cases hunused : firstChar read.out = 0xe5#8
      · rw [if_pos hunused, if_pos hunused, ih, Function.update_self]
      · rw [if_neg hunused, if_neg hunused, ih, Function.update_self]

/-- **`fat16_get_total_items_for_directory`** sets that stream first. -/
theorem fat16GetTotalItemsForDirectory_forgets (disk : Disk) (sector : ℤ) :
    Forgets (Streams.fat16GetTotalItemsForDirectory disk sector)
      (fat16GetTotalItemsForDirectory disk sector) := by
  intro streams
  have h := fat16CountItems_stream disk (2 ^ 26) 0
    (Function.update streams .directory_stream (toInt32 (sector * maerosSectorSize)))
  rw [Function.update_self] at h
  exact h

/-- Reading from the disk in code that allocates. -/
theorem onStreams_forgets {α : Type} {m : StreamM α} {m' : Option α} (h : Forgets m m') :
    Forgets (Streams.onStreams m) (offDisk m') := by
  intro streams
  funext heap
  rw [← h streams]
  show ((m streams).map fun r => (r, heap)).bind _ = ((m streams).map Prod.fst).map _
  cases m streams with
  | none => rfl
  | some r => rfl

/-- **`fat16_load_fat_directory`** counts and reads the same entries. -/
theorem fat16LoadFatDirectory_forgets (vol : FatVolume) (item : FatDirectoryItem) :
    Forgets (Streams.fat16LoadFatDirectory vol item) (fat16LoadFatDirectory vol item) := by
  unfold Streams.fat16LoadFatDirectory fat16LoadFatDirectory
  apply Forgets.ite
  · intro _
    exact Forgets.pure _
  intro _
  apply Forgets.bind (Forgets.lift _)
  intro directory
  apply Forgets.ite
  · intro _
    exact Forgets.pure _
  intro _
  apply Forgets.bind (Forgets.lift _)
  intro cluster_sector
  apply Forgets.bind (onStreams_forgets (fat16GetTotalItemsForDirectory_forgets vol.disk _))
  intro total_items
  apply Forgets.bind (Forgets.lift _)
  intro buffer
  apply Forgets.ite
  · intro _
    apply Forgets.bind (Forgets.lift _)
    intro _
    exact Forgets.pure _
  intro _
  apply Forgets.bind (onStreams_forgets (fat16ReadInternal_forgets vol.disk vol.header _ _ _))
  intro read
  apply Forgets.ite
  · intro _
    apply Forgets.bind (Forgets.lift _)
    intro _
    apply Forgets.bind (Forgets.lift _)
    intro _
    exact Forgets.pure _
  · intro _
    exact Forgets.pure _

/-- **`fat16_new_fat_item_for_directory_item`** makes the same item. -/
theorem fat16NewFatItem_forgets (vol : FatVolume) (item : FatDirectoryItem) :
    Forgets (Streams.fat16NewFatItemForDirectoryItem vol item)
      (fat16NewFatItemForDirectoryItem vol item) := by
  unfold Streams.fat16NewFatItemForDirectoryItem fat16NewFatItemForDirectoryItem
  apply Forgets.bind (Forgets.lift _)
  intro f_item
  apply Forgets.ite
  · intro _
    exact Forgets.pure _
  intro _
  apply Forgets.ite
  · intro _
    apply Forgets.bind (fat16LoadFatDirectory_forgets vol item)
    intro directory
    exact Forgets.pure _
  · intro _
    apply Forgets.bind (Forgets.lift _)
    intro item_copy
    exact Forgets.pure _

/-- One round of the search in a directory. -/
theorem fat16FindItemRound_forgets (vol : FatVolume) (entries : List FatDirectoryItem)
    (name : List (BitVec 8)) (f_item : Option FatItem) (i : ℕ) :
    Forgets (Streams.fat16FindItemRound vol entries name f_item i)
      (fat16FindItemRound vol entries name f_item i) := by
  unfold Streams.fat16FindItemRound fat16FindItemRound
  cases entries[i]? with
  | none => exact Forgets.lift _
  | some item =>
    apply Forgets.ite
    · intro _
      exact fat16NewFatItem_forgets vol item
    · intro _
      exact Forgets.pure _

/-- **`fat16_find_item_in_directory`** finds the same item. -/
theorem fat16FindItemInDirectory_forgets (vol : FatVolume) (entries : List FatDirectoryItem)
    (total : ℕ) (name : List (BitVec 8)) :
    Forgets (Streams.fat16FindItemInDirectory vol entries total name)
      (fat16FindItemInDirectory vol entries total name) :=
  Forgets.foldlM (fat16FindItemRound_forgets vol entries name) _ none

/-- The walk through the parts of a path leads to the same item. -/
theorem fat16WalkParts_forgets (vol : FatVolume) : ∀ (parts : List PathPart)
    (current_item : Option FatItem),
    Forgets (Streams.fat16WalkParts vol parts current_item)
      (fat16WalkParts vol parts current_item) := by
  intro parts
  induction parts with
  | nil =>
    intro current_item
    exact Forgets.pure _
  | cons part parts ih =>
    intro current_item
    match current_item with
    | none => exact Forgets.lift _
    | some ⟨_, .file _ _⟩ => exact Forgets.pure _
    | some ⟨_, .directory .null⟩ => exact Forgets.lift _
    | some ⟨_, .directory .dangling⟩ => exact Forgets.lift _
    | some ⟨_, .directory (.loaded _ _ entries)⟩ =>
      apply Forgets.bind (fat16FindItemInDirectory_forgets vol entries _ _)
      intro tmp_item
      apply Forgets.bind (Forgets.lift _)
      intro _
      exact ih tmp_item

/-- **`fat16_get_directory_entry`** resolves a path alike. -/
theorem fat16GetDirectoryEntry_forgets (vol : FatVolume) (path : List PathPart) :
    Forgets (Streams.fat16GetDirectoryEntry vol path) (fat16GetDirectoryEntry vol path) := by
  cases path with
  | nil => exact Forgets.lift _
  | cons part parts =>
    apply Forgets.bind (fat16FindItemInDirectory_forgets vol _ _ _)
    intro root_item
    cases root_item with
    | none => exact Forgets.pure _
    | some root_item => exact fat16WalkParts_forgets vol parts _

/-! ## Open files -/

/-- **`fat16_open`** returns the same descriptor. -/
theorem fat16Open_forgets (vol : FatVolume) (path : List PathPart) (mode : FileMode) :
    Forgets (Streams.fat16Open vol path mode) (fat16Open vol path mode) := by
  unfold Streams.fat16Open fat16Open
  apply Forgets.ite
  · intro _
    exact Forgets.pure _
  intro _
  apply Forgets.bind (Forgets.lift _)
  intro descriptor
  apply Forgets.ite
  · intro _
    exact Forgets.pure _
  intro _
  apply Forgets.bind (fat16GetDirectoryEntry_forgets vol path)
  intro item
  cases item with
  | none =>
    apply Forgets.bind (Forgets.lift _)
    intro _
    exact Forgets.pure _
  | some item => exact Forgets.pure _

/-- The loop of `fat16_read` delivers the same items. -/
theorem fat16ReadItems_forgets (vol : FatVolume) (cluster : ℤ) (size : BitVec 32) :
    ∀ (nmemb : ℕ) (offset : ℤ), Forgets (Streams.fat16ReadItems vol cluster size nmemb offset)
      (fat16ReadItems vol cluster size nmemb offset) := by
  intro nmemb
  induction nmemb with
  | zero =>
    intro offset
    exact Forgets.pure _
  | succ nmemb ih =>
    intro offset
    unfold Streams.fat16ReadItems fat16ReadItems
    apply Forgets.bind (fat16ReadInternal_forgets vol.disk vol.header cluster offset _)
    intro read
    apply Forgets.ite
    · intro _
      exact Forgets.pure _
    · intro _
      apply Forgets.bind (ih _)
      intro rest
      exact Forgets.pure _

/-- **`fat16_read`** delivers the same items and returns the same. -/
theorem fat16Read_forgets (vol : FatVolume) (desc : FatFileDescriptor) (size nmemb : BitVec 32) :
    Forgets (Streams.fat16Read vol desc size nmemb) (fat16Read vol desc size nmemb) := by
  unfold Streams.fat16Read fat16Read
  apply Forgets.bind (Forgets.lift _)
  intro item
  apply Forgets.bind (fat16ReadItems_forgets vol _ size _ _)
  intro read
  exact Forgets.pure _

/-! ## The file layer -/

/-- Running code of the driver in the file layer. -/
theorem onDriver_forgets {α : Type} {m : DriverM α} {m' : HeapM α} (h : Forgets m m') :
    Forgets (Streams.onDriver m) (onHeap m') := by
  intro streams
  funext fs
  rw [← h streams]
  show (((m streams) fs.heap).map fun r => (r.1, { fs with heap := r.2 })).bind _ =
    (((m streams) fs.heap).bind _).map _
  cases m streams fs.heap with
  | none => rfl
  | some r => rfl

/-- `fopen` gets the same descriptor from the file system. -/
theorem fopenPrivate_forgets (filename mode_str : List (BitVec 8)) :
    Forgets (Streams.fopenPrivate filename mode_str) (fopenPrivate filename mode_str) := by
  unfold Streams.fopenPrivate fopenPrivate
  apply Forgets.bind (Forgets.lift _)
  intro root_path
  cases root_path with
  | none => exact Forgets.pure _
  | some root_path =>
    apply Forgets.ite
    · intro _
      exact Forgets.pure _
    intro _
    apply Forgets.ite
    · intro _
      exact Forgets.pure _
    intro _
    apply Forgets.bind (Forgets.lift _)
    intro fs
    cases fs.filesystem with
    | none => exact Forgets.pure _
    | some vol =>
      apply Forgets.ite
      · intro _
        exact Forgets.pure _
      · intro _
        exact onDriver_forgets (fat16Open_forgets vol _ _)

/-- `fopen` makes the same descriptor of its own. -/
theorem fopenDesc_forgets (filename mode_str : List (BitVec 8)) :
    Forgets (Streams.fopenDesc filename mode_str) (fopenDesc filename mode_str) := by
  unfold Streams.fopenDesc fopenDesc
  apply Forgets.bind (fopenPrivate_forgets filename mode_str)
  intro priv
  cases priv with
  | error res => exact Forgets.pure _
  | ok priv => exact Forgets.lift _

/-- **`fopen`** returns the same, wherever the streams stand. -/
theorem fopen_forgets (filename mode_str : List (BitVec 8)) :
    Forgets (Streams.fopen filename mode_str) (fopen filename mode_str) := by
  unfold Streams.fopen fopen
  apply Forgets.bind (fopenDesc_forgets filename mode_str)
  intro desc
  cases desc with
  | error res => exact Forgets.pure _
  | ok desc => exact Forgets.pure _

/-- **`fread`** delivers the same bytes and returns the same, wherever the streams stand. -/
theorem fread_forgets (size nmemb : BitVec 32) (fd : ℤ) :
    Forgets (Streams.fread size nmemb fd) (fread size nmemb fd) := by
  unfold Streams.fread fread
  apply Forgets.ite
  · intro _
    exact Forgets.pure _
  intro _
  apply Forgets.bind (Forgets.lift _)
  intro fs
  cases fileGetDescriptor fs fd with
  | none => exact Forgets.pure _
  | some desc =>
    cases fs.filesystem with
    | none => exact Forgets.lift _
    | some vol => exact onDriver_forgets (onStreams_forgets (fat16Read_forgets vol desc.priv size nmemb))

end MaerOS.Analysis
