import MaerOS.Model.Fat16Dir

/-!
# The file layer: `file.c`

The state is the kernel heap, the table of file descriptors and the file system of the
only disk: the resolved FAT16 volume, or nothing when no file system was found.
-/

set_option autoImplicit false

namespace MaerOS.Model

open MaerOS.Lib

/-- `struct file_descriptor`; `filesystem` and `disk` are the same for all. `file.h:81-91` -/
structure FileDescriptor where
  addr : Addr
  index : ℤ
  priv : FatFileDescriptor

/-- `sizeof(struct file_descriptor)`. -/
def sizeofFileDescriptor : BitVec 32 := 16#32

/-- The state of the file layer. `file.c:12-15`, `disk.h:14-26` -/
structure FileSys where
  heap : Heap
  file_descriptors : ℕ → Option FileDescriptor
  filesystem : Option FatVolume

/-- Code of the file layer. -/
abbrev FileM := StateT FileSys Option

/-- Run code that only allocates and frees. -/
def onHeap {α : Type} (m : HeapM α) : FileM α := fun fs =>
  (m fs.heap).map fun r => (r.1, { fs with heap := r.2 })

/-- `file_descriptors[i] = desc`. -/
def FileSys.setDescriptor (fs : FileSys) (i : ℕ) (desc : Option FileDescriptor) : FileSys :=
  { fs with file_descriptors := Function.update fs.file_descriptors i desc }

/-- The first slot of the table that is null. `file.c:76-78` -/
def fileFreeSlot (fs : FileSys) : Option ℕ :=
  (List.range maerosMaxFileDescriptors).find? fun i => (fs.file_descriptors i).isNone

/-- `file_new_descriptor`, with the fields that `fopen` fills in next. Without a free slot the
error is returned. `file.c:73-93`, `file.c:186-189` -/
def fileNewDescriptor (priv : FatFileDescriptor) : FileM (Except ℤ FileDescriptor) := do
  let fs ← get
  match fileFreeSlot fs with
  | none => pure (.error (-enomem))
  | some i => do
    let desc ← onHeap (allocRecord sizeofFileDescriptor)
    onHeap (writeRecord desc)
    modify fun fs => fs.setDescriptor i (some ⟨desc, i + 1, priv⟩)
    pure (.ok ⟨desc, i + 1, priv⟩)

/-- `file_get_descriptor`. `file.c:95-104` -/
def fileGetDescriptor (fs : FileSys) (fd : ℤ) : Option FileDescriptor :=
  if fd ≤ 0 ∨ fd ≥ maerosMaxFileDescriptors then none
  else fs.file_descriptors (fd - 1).toNat

/-- `file_free_descriptor`. `file.c:65-69` -/
def fileFreeDescriptor (desc : FileDescriptor) : FileM Unit := do
  modify fun fs => fs.setDescriptor (desc.index - 1).toNat none
  onHeap (freeRecord desc.addr)

/-- `file_get_mode_by_string`: the first character decides. `file.c:122-138` -/
def fileGetModeByString (str : List (BitVec 8)) : FileMode :=
  if firstChar str = 0x72#8 then .read
  else if firstChar str = 0x77#8 then .write
  else if firstChar str = 0x61#8 then .append
  else .invalid

/-- The part of `fopen` up to the file system's own descriptor. The parsed path is never freed.
`file.c:140-181` -/
def fopenPrivate (filename mode_str : List (BitVec 8)) :
    FileM (Except ℤ FatFileDescriptor) := do
  let root_path ← onHeap (pathparserParse filename)
  match root_path with
  | none => pure (.error (-einvarg))
  | some root_path =>
    if root_path.first.isEmpty then pure (.error (-einvarg))
    else if root_path.drive_no ≠ 0 then pure (.error (-eio))
    else do
      let fs ← get
      match fs.filesystem with
      | none => pure (.error (-eio))
      | some vol =>
        if fileGetModeByString mode_str = .invalid then pure (.error (-einvarg))
        else onHeap (fat16Open vol root_path.first (fileGetModeByString mode_str))

/-- `fopen` with the descriptor it made, if it made one. `file.c:140-202` -/
def fopenDesc (filename mode_str : List (BitVec 8)) : FileM (Except ℤ FileDescriptor) := do
  let descriptor_private_data ← fopenPrivate filename mode_str
  match descriptor_private_data with
  | .error res => pure (.error res)
  | .ok priv => fileNewDescriptor priv

/-- `fopen`: the index of the new descriptor, or `0`. `file.c:140-202` -/
def fopen (filename mode_str : List (BitVec 8)) : FileM ℤ := do
  let desc ← fopenDesc filename mode_str
  match desc with
  | .error res => pure (if res < 0 then 0 else res)
  | .ok desc => pure desc.index

/-- `fstat`, with what `stat` holds before and after. `file.c:204-217` -/
def fstat (fd : ℤ) (stat : FileStat) : FileM (ℤ × FileStat) := do
  let fs ← get
  match fileGetDescriptor fs fd with
  | none => pure (-eio, stat)
  | some desc => onHeap (offDisk (fat16Stat desc.priv stat))

/-- `fclose`. `file.c:219-236` -/
def fclose (fd : ℤ) : FileM ℤ := do
  let fs ← get
  match fileGetDescriptor fs fd with
  | none => pure (-eio)
  | some desc => do
    let res ← onHeap (fat16Close desc.priv)
    if res = maerosAllOk then do
      fileFreeDescriptor desc
      pure res
    else pure res

/-- `fseek`; `offset` is converted to `uint32_t`. `file.c:238-251` -/
def fseek (fd : ℤ) (offset whence : BitVec 32) : FileM ℤ := do
  let fs ← get
  match fileGetDescriptor fs fd with
  | none => pure (-eio)
  | some desc =>
    match fat16Seek desc.priv offset whence with
    | none => failure
    | some (res, pos) => do
      modify fun fs => fs.setDescriptor (fd - 1).toNat
        (some { desc with priv := { desc.priv with pos := pos } })
      pure res

/-- `fread`: the value returned and the bytes of each item, as `fat16_read` stores them to `ptr`.
`file.c:254-273` -/
def fread (size nmemb : BitVec 32) (fd : ℤ) : FileM (ℤ × List (List (BitVec 8))) := do
  if size = 0#32 ∨ nmemb = 0#32 ∨ fd < 1 then pure (-einvarg, [])
  else do
    let fs ← get
    match fileGetDescriptor fs fd, fs.filesystem with
    | none, _ => pure (-einvarg, [])
    | some _, none => failure
    | some desc, some vol => onHeap (offDisk (fat16Read vol desc.priv size nmemb))

end MaerOS.Model
