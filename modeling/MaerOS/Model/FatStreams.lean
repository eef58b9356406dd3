import MaerOS.Model.File

/-!
# The streams of a FAT16 volume: `fat16.c` and `streamer.c`

`struct fat_private` has three streams, and every open file of the volume uses the same
three. Here the position of each is part of the state: `diskstreamer_seek` sets it,
`diskstreamer_read` reads from it and moves it on. The functions are those of the driver
and of the file layer once more, now with the seeks and reads they make.
-/

set_option autoImplicit false

namespace MaerOS.Model.Streams

open MaerOS.Lib

/-! ## Streams -/

/-- The streams of `struct fat_private`. `fat16.c:127-132` -/
inductive FatStream where
  | cluster_read_stream
  | fat_read_stream
  | directory_stream
  deriving DecidableEq

/-- `stream->pos` of each stream. `streamer.h:6-10` -/
abbrev FatStreams := FatStream → ℤ

/-- Code that reads from the disk. -/
abbrev StreamM := StateT FatStreams Option

/-- Code of the driver that reads from the disk, allocates and frees. -/
abbrev DriverM := StateT FatStreams HeapM

/-- Code of the file layer. -/
abbrev StreamFileM := StateT FatStreams FileM

/-- `diskstreamer_seek`. `streamer.c:21-25` -/
def diskstreamerSeek (stream : FatStream) (pos : ℤ) : StreamM Unit := fun streams =>
  some ((), Function.update streams stream pos)

/-- `diskstreamer_read`: the bytes read. `streamer.c:27-65` -/
def diskstreamerRead (disk : Disk) (stream : FatStream) (total : ℤ) : StreamM (List (BitVec 8)) :=
  fun streams => (Model.diskstreamerRead disk (streams stream) total).map fun read =>
    (read.out, Function.update streams stream read.pos)

/-- Read from the disk in code that also allocates. -/
def onStreams {α : Type} (m : StreamM α) : DriverM α := fun streams heap =>
  (m streams).map fun r => (r, heap)

/-- Run code of the driver in the file layer. -/
def onDriver {α : Type} (m : DriverM α) : StreamFileM α := fun streams => onHeap (m streams)

/-! ## Clusters -/

/-- `fat16_get_fat_entry`. `fat16.c:394-421` -/
def fat16GetFatEntry (disk : Disk) (header : FatHeader) (cluster : ℤ) : StreamM ℤ := do
  let fat_table_position := fat16GetFirstFatSector header * maerosSectorSize
  let entry_offset ← StateT.lift (checkInt (cluster * 2))
  diskstreamerSeek .fat_read_stream (toInt32 (fat_table_position * entry_offset))
  let out ← diskstreamerRead disk .fat_read_stream 2
  let low ← StateT.lift out[0]?
  let high ← StateT.lift out[1]?
  pure (low.toNat + 256 * high.toNat)

/-- The loop of `fat16_get_cluster_for_offset`. -/
def fat16WalkChain (disk : Disk) (header : FatHeader) :
    (clusters_ahead : ℕ) → (cluster_to_use : ℤ) → StreamM ℤ
  | 0, cluster_to_use => pure cluster_to_use
  | clusters_ahead + 1, cluster_to_use => do
    let entry ← fat16GetFatEntry disk header cluster_to_use
    if fat16StopsChain entry then pure (-eio)
    else fat16WalkChain disk header clusters_ahead entry

/-- `fat16_get_cluster_for_offset`. `fat16.c:424-467` -/
def fat16GetClusterForOffset (disk : Disk) (header : FatHeader) (starting_cluster offset : ℤ) :
    StreamM ℤ :=
  if header.clusterBytes = 0 then failure
  else fat16WalkChain disk header (offset.tdiv header.clusterBytes).toNat starting_cluster

/-- The part of `fat16_read_internal_from_stream` that seeks and reads. `fat16.c:480-500` -/
def fat16ReadRound (disk : Disk) (header : FatHeader) (cluster_to_use offset total_to_read : ℤ) :
    StreamM (List (BitVec 8)) := do
  let offset_from_cluster := offset.tmod header.clusterBytes
  let starting_sector ← StateT.lift (fat16ClusterToSector header cluster_to_use)
  let starting_byte ← StateT.lift (checkInt (starting_sector * maerosSectorSize))
  let starting_pos ← StateT.lift (checkInt (starting_byte + offset_from_cluster))
  diskstreamerSeek .cluster_read_stream starting_pos
  diskstreamerRead disk .cluster_read_stream total_to_read

/-- `fat16_read_internal_from_stream` on the stream for clusters. `fat16.c:469-514` -/
def fat16ReadInternal (disk : Disk) (header : FatHeader) (cluster offset total : ℤ) :
    StreamM (ℤ × List (BitVec 8)) :=
  if _ : header.clusterBytes = 0 then failure
  else do
    let cluster_to_use ← fat16GetClusterForOffset disk header cluster offset
    if cluster_to_use < 0 then pure (cluster_to_use, [])
    else do
      let total_to_read := if total > header.clusterBytes then (header.clusterBytes : ℤ) else total
      let out ← fat16ReadRound disk header cluster_to_use offset total_to_read
      if total > header.clusterBytes then do
        let offset ← StateT.lift (checkInt (offset + header.clusterBytes))
        let rest ← fat16ReadInternal disk header cluster offset (total - header.clusterBytes)
        pure (rest.1, out ++ rest.2)
      else pure (0, out)
  termination_by total.toNat
  decreasing_by omega

/-! ## Directories -/

/-- The loop of `fat16_get_total_items_for_directory`; the stream itself moves on. -/
def fat16CountItems (disk : Disk) : (fuel : ℕ) → (i : ℕ) → StreamM ℕ
  | 0, _ => failure
  | fuel + 1, i => do
    let item ← diskstreamerRead disk .directory_stream sizeofFatDirectoryItem
    if firstChar item = 0x00#8 then pure i
    else if firstChar item = 0xe5#8 then fat16CountItems disk fuel i
    else fat16CountItems disk fuel (i + 1)

/-- `fat16_get_total_items_for_directory`. `fat16.c:176-221` -/
def fat16GetTotalItemsForDirectory (disk : Disk) (directory_start_sector : ℤ) : StreamM ℕ := do
  diskstreamerSeek .directory_stream (toInt32 (directory_start_sector * maerosSectorSize))
  fat16CountItems disk (2 ^ 26) 0

/-- `fat16_load_fat_directory`. `fat16.c:545-588` -/
def fat16LoadFatDirectory (vol : FatVolume) (item : FatDirectoryItem) : DriverM FatDirectoryPtr := do
  if !item.isSubdirectory then pure .null
  else do
    let directory ← StateT.lift (allocRecord sizeofFatDirectory)
    if directory = 0#32 then pure .null
    else do
      let cluster := fat16GetFirstCluster item
      let cluster_sector ← StateT.lift (offDisk (fat16ClusterToSector vol.header cluster))
      let total_items ← onStreams (fat16GetTotalItemsForDirectory vol.disk cluster_sector)
      let directory_size := total_items * sizeofFatDirectoryItem
      let buffer ← StateT.lift (allocRecord (BitVec.ofNat 32 directory_size))
      if buffer = 0#32 then do
        StateT.lift (freeRecord directory)
        pure .dangling
      else do
        let (res, out) ← onStreams (fat16ReadInternal vol.disk vol.header cluster 0 directory_size)
        if res ≠ maerosAllOk then do
          StateT.lift (freeRecord buffer)
          StateT.lift (freeRecord directory)
          pure .dangling
        else pure (.loaded directory buffer (fatDirectoryItems out total_items))

/-- `fat16_new_fat_item_for_directory_item`. `fat16.c:589-607` -/
def fat16NewFatItemForDirectoryItem (vol : FatVolume) (item : FatDirectoryItem) :
    DriverM (Option FatItem) := do
  let f_item ← StateT.lift (allocRecord sizeofFatItem)
  if f_item = 0#32 then pure none
  else if item.isSubdirectory then do
    let directory ← fat16LoadFatDirectory vol item
    pure (some ⟨f_item, .directory directory⟩)
  else do
    let item_copy ← StateT.lift (allocRecord (BitVec.ofNat 32 sizeofFatDirectoryItem))
    pure (some ⟨f_item, .file item_copy item⟩)

/-- One round of `fat16_find_item_in_directory`. -/
def fat16FindItemRound (vol : FatVolume) (entries : List FatDirectoryItem)
    (name : List (BitVec 8)) (f_item : Option FatItem) (i : ℕ) : DriverM (Option FatItem) :=
  match entries[i]? with
  | none => StateT.lift failure
  | some item =>
    if istrncmp (fat16GetFullRelativeFilename item) name maerosMaxPath = 0 then
      fat16NewFatItemForDirectoryItem vol item
    else pure f_item

/-- `fat16_find_item_in_directory`. `fat16.c:609-624` -/
def fat16FindItemInDirectory (vol : FatVolume) (entries : List FatDirectoryItem) (total : ℕ)
    (name : List (BitVec 8)) : DriverM (Option FatItem) :=
  (List.range total).foldlM (fat16FindItemRound vol entries name) none

/-- The loop of `fat16_get_directory_entry` over the parts behind the first. -/
def fat16WalkParts (vol : FatVolume) : (next_part : List PathPart) → (current_item : Option FatItem) →
    DriverM (Option FatItem)
  | [], current_item => pure current_item
  | part :: next_part, current_item =>
    match current_item with
    | none => StateT.lift failure
    | some ⟨_, .file _ _⟩ => pure none
    | some ⟨_, .directory .null⟩ => StateT.lift failure
    | some ⟨_, .directory .dangling⟩ => StateT.lift failure
    | some ⟨addr, .directory (.loaded dir buffer entries)⟩ => do
      let tmp_item ← fat16FindItemInDirectory vol entries entries.length part.text
      StateT.lift (fat16FatItemFree ⟨addr, .directory (.loaded dir buffer entries)⟩)
      fat16WalkParts vol next_part tmp_item

/-- `fat16_get_directory_entry`. `fat16.c:627-655` -/
def fat16GetDirectoryEntry (vol : FatVolume) (path : List PathPart) : DriverM (Option FatItem) :=
  match path with
  | [] => StateT.lift failure
  | part :: next_part => do
    let root_item ← fat16FindItemInDirectory vol vol.root_items vol.root_total part.text
    match root_item with
    | none => pure none
    | some root_item => fat16WalkParts vol next_part (some root_item)

/-! ## Open files -/

/-- `fat16_open`. `fat16.c:657-689` -/
def fat16Open (vol : FatVolume) (path : List PathPart) (mode : FileMode) :
    DriverM (Except ℤ FatFileDescriptor) := do
  if mode ≠ .read then pure (.error (-erdonly))
  else do
    let descriptor ← StateT.lift (allocRecord sizeofFatFileDescriptor)
    if descriptor = 0#32 then pure (.error (-enomem))
    else do
      let item ← fat16GetDirectoryEntry vol path
      match item with
      | none => do
        StateT.lift (freeRecord descriptor)
        pure (.error (-eio))
      | some item => pure (.ok ⟨descriptor, item, 0⟩)

/-- The loop of `fat16_read`. -/
def fat16ReadItems (vol : FatVolume) (cluster : ℤ) (size : BitVec 32) :
    (nmemb : ℕ) → (offset : ℤ) → StreamM (ℤ × List (List (BitVec 8)))
  | 0, _ => pure (0, [])
  | nmemb + 1, offset => do
    let (res, out) ← fat16ReadInternal vol.disk vol.header cluster offset (toInt32 size.toNat)
    if res < 0 then pure (res, [out])
    else do
      let (res, outs) ← fat16ReadItems vol cluster size nmemb (toInt32 (offset + size.toNat))
      pure (res, out :: outs)

/-- `fat16_read`. `fat16.c:730-751` -/
def fat16Read (vol : FatVolume) (desc : FatFileDescriptor) (size nmemb : BitVec 32) :
    StreamM (ℤ × List (List (BitVec 8))) := do
  let item ← StateT.lift desc.entry
  let (res, outs) ←
    fat16ReadItems vol (fat16GetFirstCluster item) size nmemb.toNat (toInt32 desc.pos)
  pure (if res < 0 then res else toInt32 nmemb.toNat, outs)

/-! ## The file layer -/

/-- `fopen` up to the file system's own descriptor. `file.c:140-181` -/
def fopenPrivate (filename mode_str : List (BitVec 8)) :
    StreamFileM (Except ℤ FatFileDescriptor) := do
  let root_path ← StateT.lift (onHeap (pathparserParse filename))
  match root_path with
  | none => pure (.error (-einvarg))
  | some root_path =>
    if root_path.first.isEmpty then pure (.error (-einvarg))
    else if root_path.drive_no ≠ 0 then pure (.error (-eio))
    else do
      let fs ← StateT.lift get
      match fs.filesystem with
      | none => pure (.error (-eio))
      | some vol =>
        if fileGetModeByString mode_str = .invalid then pure (.error (-einvarg))
        else onDriver (fat16Open vol root_path.first (fileGetModeByString mode_str))

/-- `fopen` with the descriptor it made, if it made one. `file.c:140-202` -/
def fopenDesc (filename mode_str : List (BitVec 8)) : StreamFileM (Except ℤ FileDescriptor) := do
  let descriptor_private_data ← fopenPrivate filename mode_str
  match descriptor_private_data with
  | .error res => pure (.error res)
  | .ok priv => StateT.lift (fileNewDescriptor priv)

/-- `fopen`. `file.c:140-202` -/
def fopen (filename mode_str : List (BitVec 8)) : StreamFileM ℤ := do
  let desc ← fopenDesc filename mode_str
  match desc with
  | .error res => pure (if res < 0 then 0 else res)
  | .ok desc => pure desc.index

/-- `fseek` uses no stream. `file.c:238-251` -/
def fseek (fd : ℤ) (offset whence : BitVec 32) : StreamFileM ℤ :=
  StateT.lift (Model.fseek fd offset whence)

/-- `fread`. `file.c:254-273` -/
def fread (size nmemb : BitVec 32) (fd : ℤ) : StreamFileM (ℤ × List (List (BitVec 8))) := do
  if size = 0#32 ∨ nmemb = 0#32 ∨ fd < 1 then pure (-einvarg, [])
  else do
    let fs ← StateT.lift get
    match fileGetDescriptor fs fd, fs.filesystem with
    | none, _ => pure (-einvarg, [])
    | some _, none => StateT.lift failure
    | some desc, some vol => onDriver (onStreams (fat16Read vol desc.priv size nmemb))

end MaerOS.Model.Streams
