import MaerOS.Model.Disk

/-!
# Reading a FAT16 volume: `fat16.c`

The part of the driver that turns a cluster chain into bytes: the volume header, the
place of the data area, the lookup in the file allocation table, the walk along a
chain and the read that is cut into cluster-sized pieces.

The driver keeps three streams, for the clusters, the allocation table and the
directories. Each read seeks first, so a stream is modelled by the position it is
given, and its state between two reads by nothing.

The walk and the read take the lookup they make as a parameter; the code's own
functions are their instances. An `int` that overflows and a division by a cluster size
of zero have no outcome.
-/

set_option autoImplicit false

namespace MaerOS.Model

open MaerOS.Lib

/-! ## The volume header -/

/-- The fields of `struct fat_header` that the driver reads. `fat16.c:43-64` -/
structure FatHeader where
  sectors_per_cluster : ℕ
  reserved_sectors : ℕ
  fat_copies : ℕ
  root_dir_entries : ℕ
  sectors_per_fat : ℕ
deriving DecidableEq, Repr

/-- The header as it stands in the first sector, at the offsets of the packed structure. -/
def fatHeader (disk : Disk) : FatHeader :=
  { sectors_per_cluster := (disk 13).toNat
    reserved_sectors := disk.word16 14
    fat_copies := (disk 16).toNat
    root_dir_entries := disk.word16 17
    sectors_per_fat := disk.word16 22 }

/-- `sizeof(struct fat_directory_item)`. `fat16.c:75-92` -/
abbrev sizeofFatDirectoryItem : ℕ := 32

/-- `root_directory.sector_pos`. `fat16.c:229` -/
def FatHeader.rootDirSectorPos (header : FatHeader) : ℕ :=
  header.fat_copies * header.sectors_per_fat + header.reserved_sectors

/-- `root_dir_size`. `fat16.c:231` -/
def FatHeader.rootDirSize (header : FatHeader) : ℕ :=
  header.root_dir_entries * sizeofFatDirectoryItem

/-- `root_directory.ending_sector_pos`. The sector count rounded up, `total_sectors`, is computed
and not used. `fat16.c:262` -/
def FatHeader.endingSectorPos (header : FatHeader) : ℕ :=
  header.rootDirSectorPos + header.rootDirSize / maerosSectorSize

/-- `size_of_cluster_bytes`. `fat16.c:429` -/
def FatHeader.clusterBytes (header : FatHeader) : ℕ :=
  header.sectors_per_cluster * maerosSectorSize

/-- `fat16_cluster_to_sector`. `fat16.c:384-387` -/
def fat16ClusterToSector (header : FatHeader) (cluster : ℤ) : Option ℤ :=
  checkInt (header.endingSectorPos + (cluster - 2) * header.sectors_per_cluster)

/-- `fat16_get_first_fat_sector`. `fat16.c:389-392` -/
def fat16GetFirstFatSector (header : FatHeader) : ℕ := header.reserved_sectors

/-! ## The allocation table -/

/-- `fat16_get_fat_entry`: the position of the table is *multiplied* by the offset of the entry,
as `uint32_t`. `fat16.c:394-421` -/
def fat16GetFatEntry (disk : Disk) (header : FatHeader) (cluster : ℤ) : Option ℤ := do
  let fat_table_position := fat16GetFirstFatSector header * maerosSectorSize
  let entry_offset ← checkInt (cluster * 2)
  let read ← diskstreamerRead disk (toInt32 (fat_table_position * entry_offset)) 2
  let low ← read.out[0]?
  let high ← read.out[1]?
  some (low.toNat + 256 * high.toNat)

/-- The values that end the walk along a chain. `fat16.c:436-459` -/
def fat16StopsChain (entry : ℤ) : Bool :=
  entry == 0xFF8 || entry == 0xFFF || entry == 0xFF7 || entry == 0xFF0 || entry == 0xFF6 ||
    entry == 0

/-- The loop of `fat16_get_cluster_for_offset`, over the lookup `next`. -/
def fat16WalkChain (next : ℤ → Option ℤ) : (clusters_ahead : ℕ) → (cluster_to_use : ℤ) → Option ℤ
  | 0, cluster_to_use => some cluster_to_use
  | clusters_ahead + 1, cluster_to_use => do
    let entry ← next cluster_to_use
    if fat16StopsChain entry then some (-eio) else fat16WalkChain next clusters_ahead entry

/-- `fat16_get_cluster_for_offset`, over the lookup `next`. `fat16.c:424-467` -/
def fat16ClusterForOffsetBy (next : ℤ → Option ℤ) (header : FatHeader) (starting_cluster offset : ℤ) :
    Option ℤ :=
  if header.clusterBytes = 0 then none
  else fat16WalkChain next (offset.tdiv header.clusterBytes).toNat starting_cluster

/-- `fat16_get_cluster_for_offset`. `fat16.c:424-467` -/
def fat16GetClusterForOffset (disk : Disk) (header : FatHeader) (starting_cluster offset : ℤ) :
    Option ℤ :=
  fat16ClusterForOffsetBy (fat16GetFatEntry disk header) header starting_cluster offset

/-! ## Reading -/

/-- One round of `fat16_read_internal_from_stream` in the cluster that holds `offset`: the bytes
it delivers. The rest of the cluster behind `offset` may be shorter than `total_to_read`.
`fat16.c:480-500` -/
def fat16ReadRound (disk : Disk) (header : FatHeader) (cluster_to_use offset total_to_read : ℤ) :
    Option (List (BitVec 8)) := do
  let offset_from_cluster := offset.tmod header.clusterBytes
  let starting_sector ← fat16ClusterToSector header cluster_to_use
  let starting_byte ← checkInt (starting_sector * maerosSectorSize)
  let starting_pos ← checkInt (starting_byte + offset_from_cluster)
  let read ← diskstreamerRead disk starting_pos total_to_read
  some read.out

/-- The position that this round seeks to. `fat16.c:481-485` -/
def fat16StartingPos (header : FatHeader) (cluster_to_use offset : ℤ) : Option ℤ := do
  let offset_from_cluster := offset.tmod header.clusterBytes
  let starting_sector ← fat16ClusterToSector header cluster_to_use
  let starting_byte ← checkInt (starting_sector * maerosSectorSize)
  checkInt (starting_byte + offset_from_cluster)

/-- `fat16_read_internal_from_stream`, over the lookup of the cluster for an offset: the value it
returns and the bytes it stores to `out`, in order. `fat16.c:469-507` -/
def fat16ReadInternalBy (lookup : ℤ → Option ℤ) (disk : Disk) (header : FatHeader)
    (offset total : ℤ) : Option (ℤ × List (BitVec 8)) :=
  if _ : header.clusterBytes = 0 then none
  else
    (lookup offset).bind fun cluster_to_use =>
      if cluster_to_use < 0 then some (cluster_to_use, [])
      else
        let total_to_read := if total > header.clusterBytes then (header.clusterBytes : ℤ) else total
        (fat16ReadRound disk header cluster_to_use offset total_to_read).bind fun out =>
          if total > header.clusterBytes then
            (checkInt (offset + header.clusterBytes)).bind fun offset =>
              (fat16ReadInternalBy lookup disk header offset (total - header.clusterBytes)).bind
                fun rest => some (rest.1, out ++ rest.2)
          else some (0, out)
  termination_by total.toNat
  decreasing_by omega

/-- `fat16_read_internal`, with the recursion it starts. `fat16.c:509-514` -/
def fat16ReadInternal (disk : Disk) (header : FatHeader) (starting_cluster offset total : ℤ) :
    Option (ℤ × List (BitVec 8)) :=
  fat16ReadInternalBy (fat16GetClusterForOffset disk header starting_cluster) disk header offset
    total

end MaerOS.Model
