import MaerOS.Model.Fat16
import MaerOS.Model.PathParser

/-!
# Directories and open files of a FAT16 volume: `fat16.c`

Directory entries are parsed from their 32 bytes. A `struct fat_item` is a value: the
address of its record and either the copy of a directory entry or a directory. The
pointer to a directory can be null, can point to a loaded directory, and can point to one
that `fat16_load_fat_directory` has freed again before it returned it; reading through it
in the first and the last case has no outcome.
-/

set_option autoImplicit false

namespace MaerOS.Model

open MaerOS.Lib

/-! ## Directory entries -/

/-- The fields of `struct fat_directory_item` that the driver reads. `fat16.c:75-92` -/
structure FatDirectoryItem where
  filename : List (BitVec 8)
  ext : List (BitVec 8)
  attr : BitVec 8
  high_16_bits_first_cluster : ℕ
  low_16_bits_first_cluster : ℕ
  filesize : ℕ
deriving DecidableEq, Repr

/-- The little-endian number in a list of bytes. -/
def bytesToNat (bytes : List (BitVec 8)) : ℕ := bytes.foldr (fun b n => b.toNat + 256 * n) 0

/-- The entry in 32 bytes, at the offsets of the packed structure. -/
def fatDirectoryItem (bytes : List (BitVec 8)) : FatDirectoryItem :=
  { filename := bytes.take 8
    ext := (bytes.drop 8).take 3
    attr := (bytes.drop 11).headD 0x00#8
    high_16_bits_first_cluster := bytesToNat ((bytes.drop 20).take 2)
    low_16_bits_first_cluster := bytesToNat ((bytes.drop 26).take 2)
    filesize := bytesToNat ((bytes.drop 28).take 4) }

/-- The first `n` entries in a buffer. -/
def fatDirectoryItems (bytes : List (BitVec 8)) (n : ℕ) : List FatDirectoryItem :=
  (List.range n).map fun i =>
    fatDirectoryItem ((bytes.drop (sizeofFatDirectoryItem * i)).take sizeofFatDirectoryItem)

/-- `FAT_FILE_SUBDIRECTORY` is set. `fat16.c:28` -/
def FatDirectoryItem.isSubdirectory (item : FatDirectoryItem) : Bool :=
  item.attr &&& 0x10#8 != 0x00#8

/-- `fat16_to_proper_string`: the field up to a NUL, a space or its end. `fat16.c:330-347` -/
def fat16ToProperString (field : List (BitVec 8)) : List (BitVec 8) :=
  field.takeWhile fun c => c != 0x00#8 && c != 0x20#8

/-- `fat16_get_full_relative_filename`. `fat16.c:349-359` -/
def fat16GetFullRelativeFilename (item : FatDirectoryItem) : List (BitVec 8) :=
  if firstChar item.ext != 0x00#8 && firstChar item.ext != 0x20#8 then
    fat16ToProperString item.filename ++ 0x2e#8 :: fat16ToProperString item.ext
  else fat16ToProperString item.filename

/-- Bytes stored one after the other, as pairs of a place and a byte. -/
def writesAt : (place : ℕ) → (bytes : List (BitVec 8)) → List (ℕ × BitVec 8)
  | _, [] => []
  | place, b :: bytes => (place, b) :: writesAt (place + 1) bytes

/-- What a buffer holds after these stores. -/
def applyWrites (buf : List (BitVec 8)) (writes : List (ℕ × BitVec 8)) : List (BitVec 8) :=
  writes.foldl (fun buf w => buf.set w.1 w.2) buf

/-- The loop of `fat16_to_proper_string`, byte for byte: where the output cursor is in the end, and
the stores. `input` is what is left of the field, and a read behind it has no outcome.
`fat16.c:330-347` -/
def fat16ToProperStringBytes (size : ℕ) :
    (input : List (BitVec 8)) → (i out : ℕ) → Option (ℕ × List (ℕ × BitVec 8))
  | [], _, _ => none
  | c :: input, i, out =>
    if c = 0x00#8 ∨ c = 0x20#8 then some (out, [(out, 0x00#8)])
    else if size - 1 ≤ i then some (out + 1, [(out, c), (out + 1, 0x00#8)])
    else do
      let (out', writes) ← fat16ToProperStringBytes size input (i + 1) (out + 1)
      some (out', (out, c) :: writes)

/-- The stores of `fat16_get_full_relative_filename` into `out`, in their order.
`fat16.c:349-359` -/
def fat16GetFullRelativeFilenameBytes (item : FatDirectoryItem) (max_len : ℕ) :
    Option (List (ℕ × BitVec 8)) := do
  let cleared := writesAt 0 (List.replicate max_len 0x00#8)
  let (out_tmp, name) ← fat16ToProperStringBytes 8 item.filename 0 0
  let c ← item.ext[0]?
  if c ≠ 0x00#8 ∧ c ≠ 0x20#8 then do
    let (_, ext) ← fat16ToProperStringBytes 3 item.ext 0 (out_tmp + 1)
    some (cleared ++ name ++ (out_tmp, 0x2e#8) :: ext)
  else some (cleared ++ name)

/-- `fat16_get_first_cluster`. `fat16.c:379-382` -/
def fat16GetFirstCluster (item : FatDirectoryItem) : ℕ :=
  item.high_16_bits_first_cluster ||| item.low_16_bits_first_cluster

/-! ## The volume -/

/-- What `fat16_resolve` has found: the disk with its header, the buffer of root directory entries
and the number of entries it counted there. `fat16.c:121-133` -/
structure FatVolume where
  disk : Disk
  header : FatHeader
  root_items : List FatDirectoryItem
  root_total : ℕ

/-- The loop of `fat16_get_total_items_for_directory`. An entry takes 32 bytes and a read at or
above `2^31` has no outcome, so the loop ends within `2^26` rounds. -/
def fat16CountItems (disk : Disk) : (fuel : ℕ) → (pos : ℤ) → (i : ℕ) → Option ℕ
  | 0, _, _ => none
  | fuel + 1, pos, i => do
    let read ← diskstreamerRead disk pos sizeofFatDirectoryItem
    if firstChar read.out = 0x00#8 then some i
    else if firstChar read.out = 0xe5#8 then fat16CountItems disk fuel read.pos i
    else fat16CountItems disk fuel read.pos (i + 1)

/-- `fat16_get_total_items_for_directory`. `fat16.c:176-221` -/
def fat16GetTotalItemsForDirectory (disk : Disk) (directory_start_sector : ℤ) : Option ℕ :=
  fat16CountItems disk (2 ^ 26) (toInt32 (directory_start_sector * maerosSectorSize)) 0

/-- `root_directory`, with the entries in its buffer. `fat16.c:95-103` -/
structure FatRootDirectory where
  item : Addr
  entries : List FatDirectoryItem
  total : ℕ
  sector_pos : ℕ
  ending_sector_pos : ℕ

/-- `fat16_get_root_directory`. The buffer takes all the entries of the root directory, `total` is
the number of those that are not deleted. `fat16.c:224-277` -/
def fat16GetRootDirectory (disk : Disk) (header : FatHeader) :
    HeapM (Except ℤ FatRootDirectory) := do
  let total_items ← offDisk (fat16GetTotalItemsForDirectory disk header.rootDirSectorPos)
  let dir ← allocRecord (BitVec.ofNat 32 header.rootDirSize)
  if dir = 0#32 then pure (.error (-enomem))
  else do
    let pos ← offDisk (checkInt (header.rootDirSectorPos * maerosSectorSize : ℕ))
    let read ← offDisk (diskstreamerRead disk pos header.rootDirSize)
    pure (.ok ⟨dir, fatDirectoryItems read.out header.root_dir_entries, total_items,
      header.rootDirSectorPos, header.endingSectorPos⟩)

/-- `sizeof(struct fat_private)`: the header, the root directory and three streams. -/
def sizeofFatPrivate : BitVec 32 := 92#32

/-- `sizeof(struct disk_stream)`. -/
def sizeofDiskStream : BitVec 32 := 8#32

/-- `sizeof(struct fat_h)`, packed. `fat16.c:66-73` -/
def sizeofFatH : ℕ := 62

/-- `diskstreamer_new` for the only disk. `streamer.c:7-19` -/
def diskstreamerNew : HeapM Addr := do
  let streamer ← allocRecord sizeofDiskStream
  writeRecord streamer
  pure streamer

/-- `fat16_resolve`, with `fat16_init_private`: the volume or the error in its place. On a failure
the three streams of the volume stay allocated. `fat16.c:161-170`, `fat16.c:280-328` -/
def fat16Resolve (disk : Disk) : HeapM (Except ℤ FatVolume) := do
  let fat_private ← allocRecord sizeofFatPrivate
  writeRecord fat_private
  let _ ← diskstreamerNew
  let _ ← diskstreamerNew
  let _ ← diskstreamerNew
  let stream ← diskstreamerNew
  let read ← offDisk (diskstreamerRead disk 0 sizeofFatH)
  if read.out[38]? ≠ some 0x29#8 then do
    freeRecord stream
    freeRecord fat_private
    pure (.error (-efsnotus))
  else do
    let root_directory ← fat16GetRootDirectory disk (fatHeader disk)
    match root_directory with
    | .error _ => do
      freeRecord stream
      freeRecord fat_private
      pure (.error (-eio))
    | .ok root_directory => do
      freeRecord stream
      pure (.ok ⟨disk, fatHeader disk, root_directory.entries, root_directory.total⟩)

/-! ## Items -/

/-- A `struct fat_directory*`: null, freed, or a directory with the addresses of its record and of
its buffer and the entries in it. `fat16.c:95-103` -/
inductive FatDirectoryPtr where
  | null
  | dangling
  | loaded (addr item : Addr) (entries : List FatDirectoryItem)

/-- The union in `struct fat_item`, by its `type`. `fat16.c:105-113` -/
inductive FatItemContent where
  | file (item : Addr) (entry : FatDirectoryItem)
  | directory (directory : FatDirectoryPtr)

/-- `struct fat_item`. `fat16.c:105-113` -/
structure FatItem where
  addr : Addr
  content : FatItemContent

/-- `sizeof(struct fat_item)`. -/
def sizeofFatItem : BitVec 32 := 8#32

/-- `sizeof(struct fat_directory)`. -/
def sizeofFatDirectory : BitVec 32 := 16#32

/-- `sizeof(struct fat_file_descriptor)`. -/
def sizeofFatFileDescriptor : BitVec 32 := 8#32

/-- `fat16_free_directory`. `fat16.c:516-529` -/
def fat16FreeDirectory : FatDirectoryPtr → HeapM Unit
  | .null => pure ()
  | .dangling => failure
  | .loaded addr item _ => do
    (if item = 0#32 then pure () else freeRecord item)
    freeRecord addr

/-- `fat16_fat_item_free`. `fat16.c:531-543` -/
def fat16FatItemFree (item : FatItem) : HeapM Unit := do
  match item.content with
  | .file entry _ => freeRecord entry
  | .directory directory => fat16FreeDirectory directory
  freeRecord item.addr

/-- `fat16_load_fat_directory`. On a failure the directory is freed and its pointer returned all
the same. `fat16.c:545-588` -/
def fat16LoadFatDirectory (vol : FatVolume) (item : FatDirectoryItem) : HeapM FatDirectoryPtr := do
  if !item.isSubdirectory then pure .null
  else do
    let directory ← allocRecord sizeofFatDirectory
    if directory = 0#32 then pure .null
    else do
      let cluster := fat16GetFirstCluster item
      let cluster_sector ← offDisk (fat16ClusterToSector vol.header cluster)
      let total_items ← offDisk (fat16GetTotalItemsForDirectory vol.disk cluster_sector)
      let directory_size := total_items * sizeofFatDirectoryItem
      let buffer ← allocRecord (BitVec.ofNat 32 directory_size)
      if buffer = 0#32 then do
        freeRecord directory
        pure .dangling
      else do
        let (res, out) ← offDisk (fat16ReadInternal vol.disk vol.header cluster 0 directory_size)
        if res ≠ maerosAllOk then do
          freeRecord buffer
          freeRecord directory
          pure .dangling
        else pure (.loaded directory buffer (fatDirectoryItems out total_items))

/-- `fat16_new_fat_item_for_directory_item`, with `fat16_clone_directory_item`: the copy of the
entry may be null. `fat16.c:361-377`, `fat16.c:589-607` -/
def fat16NewFatItemForDirectoryItem (vol : FatVolume) (item : FatDirectoryItem) :
    HeapM (Option FatItem) := do
  let f_item ← allocRecord sizeofFatItem
  if f_item = 0#32 then pure none
  else if item.isSubdirectory then do
    let directory ← fat16LoadFatDirectory vol item
    pure (some ⟨f_item, .directory directory⟩)
  else do
    let item_copy ← allocRecord (BitVec.ofNat 32 sizeofFatDirectoryItem)
    pure (some ⟨f_item, .file item_copy item⟩)

/-- One round of `fat16_find_item_in_directory`. An index behind the buffer has no outcome. -/
def fat16FindItemRound (vol : FatVolume) (entries : List FatDirectoryItem)
    (name : List (BitVec 8)) (f_item : Option FatItem) (i : ℕ) : HeapM (Option FatItem) :=
  match entries[i]? with
  | none => failure
  | some item =>
    if istrncmp (fat16GetFullRelativeFilename item) name maerosMaxPath = 0 then
      fat16NewFatItemForDirectoryItem vol item
    else pure f_item

/-- `fat16_find_item_in_directory`: every entry with the name makes an item, the last one is
returned. `fat16.c:609-624` -/
def fat16FindItemInDirectory (vol : FatVolume) (entries : List FatDirectoryItem) (total : ℕ)
    (name : List (BitVec 8)) : HeapM (Option FatItem) :=
  (List.range total).foldlM (fat16FindItemRound vol entries name) none

/-- The loop of `fat16_get_directory_entry` over the parts behind the first. A part that was not
found leaves a null pointer, which the next round reads through. -/
def fat16WalkParts (vol : FatVolume) :
    (next_part : List PathPart) → (current_item : Option FatItem) → HeapM (Option FatItem)
  | [], current_item => pure current_item
  | part :: next_part, current_item =>
    match current_item with
    | none => failure
    | some ⟨_, .file _ _⟩ => pure none
    | some ⟨_, .directory .null⟩ => failure
    | some ⟨_, .directory .dangling⟩ => failure
    | some ⟨addr, .directory (.loaded dir buffer entries)⟩ => do
      let tmp_item ← fat16FindItemInDirectory vol entries entries.length part.text
      fat16FatItemFree ⟨addr, .directory (.loaded dir buffer entries)⟩
      fat16WalkParts vol next_part tmp_item

/-- `fat16_get_directory_entry`. `fat16.c:627-655` -/
def fat16GetDirectoryEntry (vol : FatVolume) (path : List PathPart) : HeapM (Option FatItem) :=
  match path with
  | [] => failure
  | part :: next_part => do
    let root_item ← fat16FindItemInDirectory vol vol.root_items vol.root_total part.text
    match root_item with
    | none => pure none
    | some root_item => fat16WalkParts vol next_part (some root_item)

/-! ## Open files -/

/-- `FILE_MODE`. `file.h:18-25` -/
inductive FileMode where
  | read
  | write
  | append
  | invalid
deriving DecidableEq, Repr

/-- `struct fat_file_descriptor`. `fat16.c:115-119` -/
structure FatFileDescriptor where
  addr : Addr
  item : FatItem
  pos : ℕ

/-- `fat16_open`: a descriptor or the error in its place. `fat16.c:657-689` -/
def fat16Open (vol : FatVolume) (path : List PathPart) (mode : FileMode) :
    HeapM (Except ℤ FatFileDescriptor) := do
  if mode ≠ .read then pure (.error (-erdonly))
  else do
    let descriptor ← allocRecord sizeofFatFileDescriptor
    if descriptor = 0#32 then pure (.error (-enomem))
    else do
      let item ← fat16GetDirectoryEntry vol path
      match item with
      | none => do
        freeRecord descriptor
        pure (.error (-eio))
      | some item => pure (.ok ⟨descriptor, item, 0⟩)

/-- `fat16_close`, with `fat16_free_file_descriptor`. `fat16.c:691-701` -/
def fat16Close (desc : FatFileDescriptor) : HeapM ℤ := do
  fat16FatItemFree desc.item
  freeRecord desc.addr
  pure 0

/-- The copy of the directory entry behind a descriptor, as `fat16_read` and `fat16_seek` read it.
A copy that was not allocated has no outcome. -/
def FatFileDescriptor.entry (desc : FatFileDescriptor) : Option FatDirectoryItem :=
  match desc.item.content with
  | .file item entry => if item = 0#32 then none else some entry
  | .directory _ => none

/-- The loop of `fat16_read`: what the items deliver, in order, and the error of the first one that
fails. `offset += size` is computed as `uint32_t`. -/
def fat16ReadItems (vol : FatVolume) (cluster : ℤ) (size : BitVec 32) :
    (nmemb : ℕ) → (offset : ℤ) → Option (ℤ × List (List (BitVec 8)))
  | 0, _ => some (0, [])
  | nmemb + 1, offset => do
    let (res, out) ← fat16ReadInternal vol.disk vol.header cluster offset (toInt32 size.toNat)
    if res < 0 then some (res, [out])
    else do
      let (res, outs) ← fat16ReadItems vol cluster size nmemb (toInt32 (offset + size.toNat))
      some (res, out :: outs)

/-- `fat16_read`: the value returned and the bytes of each item; item `i` is stored to
`out_ptr + i * size`. The descriptor is not written to. A directory has no entry where the first
cluster is read from. `fat16.c:730-751` -/
def fat16Read (vol : FatVolume) (desc : FatFileDescriptor) (size nmemb : BitVec 32) :
    Option (ℤ × List (List (BitVec 8))) := do
  let item ← desc.entry
  let (res, outs) ←
    fat16ReadItems vol (fat16GetFirstCluster item) size nmemb.toNat (toInt32 desc.pos)
  some (if res < 0 then res else toInt32 nmemb.toNat, outs)

/-- `struct file_stat`. `file.h:38-44` -/
structure FileStat where
  flags : BitVec 32
  filesize : ℕ
  deriving DecidableEq

/-- `FILE_STAT_READ_ONLY`. `file.h:27-30` -/
def fileStatReadOnly : BitVec 32 := 1#32

/-- `FAT_FILE_READ_ONLY`. `fat16.c:24` -/
def fatFileReadOnly : BitVec 8 := 0x01#8

/-- `fat16_stat`: the value returned and what `stat` holds then. A directory leaves it as it was.
`fat16.c:704-728` -/
def fat16Stat (desc : FatFileDescriptor) (stat : FileStat) : Option (ℤ × FileStat) :=
  match desc.item.content with
  | .directory _ => some (-einvarg, stat)
  | .file item ritem =>
    if item = 0#32 then none
    else
      let stat := { stat with filesize := ritem.filesize }
      let stat := { stat with flags := 0x00#32 }
      some (0, if ritem.attr &&& fatFileReadOnly ≠ 0x00#8 then
        { stat with flags := stat.flags ||| fileStatReadOnly } else stat)

/-- `fat16_seek`: the value returned and the position left; `seek_mode` is `SEEK_SET` for 0,
`SEEK_CUR` for 1 and `SEEK_END` for 2. Only `offset` itself is compared with the size of the file.
`fat16.c:753-791` -/
def fat16Seek (desc : FatFileDescriptor) (offset seek_mode : BitVec 32) : Option (ℤ × ℕ) :=
  match desc.item.content with
  | .directory _ => some (-einvarg, desc.pos)
  | .file item ritem =>
    if item = 0#32 then none
    else if ritem.filesize ≤ offset.toNat then some (-eio, desc.pos)
    else if seek_mode = 0#32 then some (0, offset.toNat)
    else if seek_mode = 2#32 then some (-eunimp, desc.pos)
    else if seek_mode = 1#32 then some (0, (desc.pos + offset.toNat) % 2 ^ 32)
    else some (-einvarg, desc.pos)

end MaerOS.Model
