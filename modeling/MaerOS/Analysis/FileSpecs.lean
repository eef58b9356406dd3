import MaerOS.Model.File

/-!
# The operations of the file layer, one by one

What each function of `file.c` can do to the heap, the descriptor table and the volume.
-/

set_option autoImplicit false

namespace MaerOS.Analysis

open MaerOS.Lib MaerOS.Model

/-- Code that only allocates and frees changes the heap alone. -/
theorem onHeap_some {α : Type} {m : HeapM α} {fs fs' : FileSys} {a : α} :
    onHeap m fs = some (a, fs') ↔ ∃ h', m fs.heap = some (a, h') ∧ fs' = { fs with heap := h' } := by
  unfold onHeap
  rw [Option.map_eq_some_iff]
  constructor
  · rintro ⟨⟨b, h'⟩, hm, heq⟩
    cases heq
    exact ⟨h', hm, rfl⟩
  · rintro ⟨h', hm, rfl⟩
    exact ⟨(a, h'), hm, rfl⟩

/-- Taking a program apart behind code that only allocates and frees. -/
theorem bind_onHeap {α β : Type} {m : HeapM α} {f : α → FileM β} {fs : FileSys} {a : α} {h' : Heap}
    (hm : m fs.heap = some (a, h')) : (onHeap m >>= f) fs = f a { fs with heap := h' } :=
  bind_of_some (onHeap_some.mpr ⟨h', hm, rfl⟩) f

@[simp] theorem setDescriptor_self (fs : FileSys) (i : ℕ) (desc : Option FileDescriptor) :
    (fs.setDescriptor i desc).file_descriptors i = desc := Function.update_self ..

/-- The other slots are as they were. -/
theorem setDescriptor_ne (fs : FileSys) {i j : ℕ} (h : j ≠ i) (desc : Option FileDescriptor) :
    (fs.setDescriptor i desc).file_descriptors j = fs.file_descriptors j :=
  Function.update_of_ne h ..

theorem writeRecord_some {p : Addr} {h h' : Heap} {u : Unit} :
    writeRecord p h = some (u, h') ↔ p ≠ 0#32 ∧ h' = h := by
  unfold writeRecord
  split
  · rename_i h0
    exact iff_of_false (fun hrun => by cases hrun) fun hc => hc.1 h0
  · rename_i h0
    rw [prog_pure]
    exact ⟨fun hrun => ⟨h0, hrun.2.symm⟩, fun hc => ⟨rfl, hc.2.symm⟩⟩

theorem writeRecord_keeps {P : Heap → Prop} (p : Addr) :
    Triple P (writeRecord p) fun _ => P :=
  Triple.ite (fun _ => Triple.failure) fun _ => Triple.pure fun _ hs => hs

theorem offDisk_some {α : Type} {value : Option α} {h h' : Heap} {a : α} :
    offDisk value h = some (a, h') ↔ value = some a ∧ h' = h := by
  unfold offDisk
  rw [Option.map_eq_some_iff]
  constructor
  · rintro ⟨b, hv, heq⟩
    cases heq
    exact ⟨hv, rfl⟩
  · rintro ⟨hv, rfl⟩
    exact ⟨a, hv, rfl⟩

theorem offDisk_keeps {P : Heap → Prop} {α : Type} (value : Option α) :
    Triple P (offDisk value) fun _ => P := by
  intro h hp a h' hrun
  obtain ⟨b, -, heq⟩ := Option.map_eq_some_iff.mp hrun
  cases heq
  exact hp

/-- Loading a directory has got as far as the buffer for its entries: the record `dir` is taken,
`total` entries are counted, and `buf` is what the heap gave for them. -/
structure BufferTaken (vol : FatVolume) (item : FatDirectoryItem) (h : Heap) (dir : Addr)
    (total : ℕ) (buf : Addr) (h₁ h₂ : Heap) : Prop where
  sub : item.isSubdirectory = true
  record : h.kzalloc sizeofFatDirectory = some (dir, h₁)
  nonnull : dir ≠ 0#32
  counted : ∃ sector, fat16ClusterToSector vol.header (fat16GetFirstCluster item) = some sector ∧
    fat16GetTotalItemsForDirectory vol.disk sector = some total
  buffer : h₁.kzalloc (BitVec.ofNat 32 (total * sizeofFatDirectoryItem)) = some (buf, h₂)

/-- How `fat16_load_fat_directory` can end. -/
inductive DirectoryLoad (vol : FatVolume) (item : FatDirectoryItem) (h : Heap) :
    FatDirectoryPtr → Heap → Prop
  | file (hfile : item.isSubdirectory = false) : DirectoryLoad vol item h .null h
  | noRecord {h₁ : Heap} (hz : h.kzalloc sizeofFatDirectory = some (0#32, h₁)) :
      DirectoryLoad vol item h .null h₁
  | noBuffer {dir : Addr} {total : ℕ} {h₁ h₂ : Heap}
      (ht : BufferTaken vol item h dir total 0#32 h₁ h₂) :
      DirectoryLoad vol item h .dangling (heapFree h₂ dir)
  | notRead {dir buf : Addr} {total : ℕ} {h₁ h₂ : Heap} {res : ℤ} {out : List (BitVec 8)}
      (ht : BufferTaken vol item h dir total buf h₁ h₂) (hbuf : buf ≠ 0#32)
      (hread : fat16ReadInternal vol.disk vol.header (fat16GetFirstCluster item) 0
        (total * sizeofFatDirectoryItem : ℕ) = some (res, out)) (hres : res ≠ maerosAllOk) :
      DirectoryLoad vol item h .dangling (heapFree (heapFree h₂ buf) dir)
  | loaded {dir buf : Addr} {total : ℕ} {h₁ h₂ : Heap} {out : List (BitVec 8)}
      (ht : BufferTaken vol item h dir total buf h₁ h₂) (hbuf : buf ≠ 0#32)
      (hread : fat16ReadInternal vol.disk vol.header (fat16GetFirstCluster item) 0
        (total * sizeofFatDirectoryItem : ℕ) = some (maerosAllOk, out)) :
      DirectoryLoad vol item h (.loaded dir buf (fatDirectoryItems out total)) h₂

/-- **`fat16_load_fat_directory`** ends in one of these ways. -/
theorem fat16LoadFatDirectory_cases {vol : FatVolume} {item : FatDirectoryItem} {h h' : Heap}
    {d : FatDirectoryPtr} (hload : fat16LoadFatDirectory vol item h = some (d, h')) :
    DirectoryLoad vol item h d h' := by
  unfold fat16LoadFatDirectory at hload
  split at hload
  · rename_i hfile
    obtain ⟨rfl, rfl⟩ := prog_pure.mp hload
    exact .file (by simpa using hfile)
  rename_i hsub
  obtain ⟨dir, h₁, hz, hrecord⟩ := prog_bind.mp hload
  split at hrecord
  · rename_i h0
    obtain ⟨rfl, rfl⟩ := prog_pure.mp hrecord
    rw [h0] at hz
    exact .noRecord hz
  rename_i hdir
  obtain ⟨sector, h₂, hsec, hcount⟩ := prog_bind.mp hrecord
  obtain ⟨hsector, rfl⟩ := offDisk_some.mp hsec
  obtain ⟨total, h₃, htot, hbuffer⟩ := prog_bind.mp hcount
  obtain ⟨htotal, rfl⟩ := offDisk_some.mp htot
  obtain ⟨buf, h₄, hz₁, hrun⟩ := prog_bind.mp hbuffer
  have ht : BufferTaken vol item h dir total buf h₃ h₄ :=
    ⟨by simpa using hsub, hz, hdir, ⟨sector, hsector, htotal⟩, hz₁⟩
  split at hrun
  · rename_i h0
    obtain ⟨_, h₅, hfree, hend⟩ := prog_bind.mp hrun
    cases hfree
    obtain ⟨rfl, rfl⟩ := prog_pure.mp hend
    rw [h0] at ht
    exact .noBuffer ht
  rename_i hbuf
  obtain ⟨⟨res, out⟩, h₅, hstream, hend⟩ := prog_bind.mp hrun
  obtain ⟨hread, rfl⟩ := offDisk_some.mp hstream
  dsimp only at hend
  split at hend
  · rename_i hres
    obtain ⟨_, h₆, hfree, hlast⟩ := prog_bind.mp hend
    cases hfree
    obtain ⟨_, h₇, hfree', hret⟩ := prog_bind.mp hlast
    cases hfree'
    obtain ⟨rfl, rfl⟩ := prog_pure.mp hret
    exact .notRead ht hbuf hread hres
  · rename_i hres
    obtain ⟨rfl, rfl⟩ := prog_pure.mp hend
    rw [not_not.mp hres] at hread
    exact .loaded ht hbuf hread

/-- The slot that `file_new_descriptor` takes is the first free one. -/
theorem fileFreeSlot_some {fs : FileSys} {i : ℕ} (h : fileFreeSlot fs = some i) :
    i < maerosMaxFileDescriptors ∧ fs.file_descriptors i = none ∧
      ∀ j < i, fs.file_descriptors j ≠ none := by
  unfold fileFreeSlot at h
  rw [List.find?_range_eq_some] at h
  obtain ⟨hnone, hmem, hbefore⟩ := h
  refine ⟨List.mem_range.mp hmem, Option.isNone_iff_eq_none.mp hnone, fun j hj hc => ?_⟩
  have := hbefore j hj
  rw [hc] at this
  simp at this

/-- A free slot is found, at the latest itself. -/
theorem fileFreeSlot_of_free (fs : FileSys) {j : ℕ} (hj : j < maerosMaxFileDescriptors)
    (hfree : fs.file_descriptors j = none) : ∃ i ≤ j, fileFreeSlot fs = some i := by
  cases h : fileFreeSlot fs with
  | none =>
    unfold fileFreeSlot at h
    have := List.find?_eq_none.mp h j (List.mem_range.mpr hj)
    rw [hfree] at this
    simp at this
  | some i =>
    refine ⟨i, ?_, rfl⟩
    by_contra hlt
    exact (fileFreeSlot_some h).2.2 j (not_le.mp hlt) hfree

/-- **`file_new_descriptor`**: no slot, or a new record in the first free slot. -/
theorem fileNewDescriptor_cases {priv : FatFileDescriptor} {fs fs' : FileSys}
    {res : Except ℤ FileDescriptor} (hrun : fileNewDescriptor priv fs = some (res, fs')) :
    (fileFreeSlot fs = none ∧ res = .error (-enomem) ∧ fs' = fs) ∨
      ∃ i p h', fileFreeSlot fs = some i ∧ fs.heap.kzalloc sizeofFileDescriptor = some (p, h') ∧
        p ≠ 0#32 ∧ res = .ok ⟨p, i + 1, priv⟩ ∧
        fs' = FileSys.setDescriptor { fs with heap := h' } i (some ⟨p, i + 1, priv⟩) := by
  unfold fileNewDescriptor at hrun
  rw [bind_get] at hrun
  cases hslot : fileFreeSlot fs with
  | none =>
    rw [hslot] at hrun
    obtain ⟨rfl, rfl⟩ := prog_pure.mp hrun
    exact .inl ⟨rfl, rfl, rfl⟩
  | some i =>
    rw [hslot] at hrun
    obtain ⟨p, fs₁, hz, hrun⟩ := prog_bind.mp hrun
    obtain ⟨h₁, hheap, rfl⟩ := onHeap_some.mp hz
    obtain ⟨u, fs₂, hw, hrun⟩ := prog_bind.mp hrun
    obtain ⟨h₂, hwrite, rfl⟩ := onHeap_some.mp hw
    obtain ⟨hne, rfl⟩ := writeRecord_some.mp hwrite
    obtain ⟨u', fs₃, hset, hrun⟩ := prog_bind.mp hrun
    cases hset
    obtain ⟨rfl, rfl⟩ := prog_pure.mp hrun
    exact .inr ⟨i, p, _, rfl, hheap, hne, rfl, rfl⟩

/-- `file_new_descriptor` with a free slot and memory for the record. -/
theorem fileNewDescriptor_of_slot {priv : FatFileDescriptor} {fs : FileSys} {i : ℕ} {p : Addr}
    {h' : Heap} (hslot : fileFreeSlot fs = some i)
    (hz : fs.heap.kzalloc sizeofFileDescriptor = some (p, h')) (hne : p ≠ 0#32) :
    fileNewDescriptor priv fs = some (.ok ⟨p, i + 1, priv⟩,
      FileSys.setDescriptor { fs with heap := h' } i (some ⟨p, i + 1, priv⟩)) := by
  unfold fileNewDescriptor
  rw [bind_get, hslot]
  dsimp only
  rw [bind_onHeap hz, bind_onHeap (writeRecord_some.mpr ⟨hne, rfl⟩ : writeRecord p h' = some ((), h'))]
  rfl

/-- The first part of **`fopen`**: the path is parsed, and then there is an error, or the file
system of the disk is asked to open it. -/
theorem fopenPrivate_cases {filename mode_str : List (BitVec 8)} {fs fs' : FileSys}
    {res : Except ℤ FatFileDescriptor} (hrun : fopenPrivate filename mode_str fs = some (res, fs')) :
    ∃ root h₁, pathparserParse filename fs.heap = some (root, h₁) ∧
      ((∃ err < 0, res = .error err ∧ fs' = { fs with heap := h₁ }) ∨
        ∃ root' vol mode h₂, root = some root' ∧ fs.filesystem = some vol ∧
          fat16Open vol root'.first mode h₁ = some (res, h₂) ∧ fs' = { fs with heap := h₂ }) := by
  obtain ⟨root, fs₁, hparse, hrest⟩ := prog_bind.mp hrun
  obtain ⟨h₁, hparse', rfl⟩ := onHeap_some.mp hparse
  refine ⟨root, h₁, hparse', ?_⟩
  have herror : ∀ {err : ℤ} {fs₂ : FileSys},
      (pure (.error err) : FileM (Except ℤ FatFileDescriptor)) fs₂ = some (res, fs') →
        fs₂ = { fs with heap := h₁ } → err < 0 →
        ∃ err < 0, res = .error err ∧ fs' = { fs with heap := h₁ } := by
    intro err fs₂ herr hfs hneg
    obtain ⟨rfl, rfl⟩ := prog_pure.mp herr
    exact ⟨err, hneg, rfl, hfs⟩
  cases root with
  | none => exact .inl (herror hrest rfl (by decide))
  | some root =>
    dsimp only at hrest
    split at hrest
    · exact .inl (herror hrest rfl (by decide))
    · split at hrest
      · exact .inl (herror hrest rfl (by decide))
      · rw [bind_get] at hrest
        dsimp only at hrest
        obtain ⟨heap, table, filesystem⟩ := fs
        cases filesystem with
        | none => exact .inl (herror hrest rfl (by decide))
        | some vol =>
          dsimp only at hrest
          split at hrest
          · exact .inl (herror hrest rfl (by decide))
          · obtain ⟨h₂, hopen, rfl⟩ := onHeap_some.mp hrest
            exact .inr ⟨root, vol, _, h₂, rfl, rfl, hopen, rfl⟩

/-- **`fopen`** makes a file system descriptor first and then looks for a slot. -/
theorem fopenDesc_cases {filename mode_str : List (BitVec 8)} {fs fs' : FileSys}
    {res : Except ℤ FileDescriptor} (hrun : fopenDesc filename mode_str fs = some (res, fs')) :
    (∃ err, fopenPrivate filename mode_str fs = some (.error err, fs') ∧ res = .error err) ∨
      ∃ priv fs₁, fopenPrivate filename mode_str fs = some (.ok priv, fs₁) ∧
        fileNewDescriptor priv fs₁ = some (res, fs') := by
  obtain ⟨d, fs₁, hpriv, hrun⟩ := prog_bind.mp hrun
  cases d with
  | error err =>
    obtain ⟨rfl, rfl⟩ := prog_pure.mp hrun
    exact .inl ⟨err, hpriv, rfl⟩
  | ok priv => exact .inr ⟨priv, fs₁, hpriv, hrun⟩

/-- The value that `fopen` returns. -/
def fopenValue : Except ℤ FileDescriptor → ℤ
  | .error res => if res < 0 then 0 else res
  | .ok desc => desc.index

/-- An error becomes `0`. -/
theorem fopenValue_error {res : ℤ} (h : res < 0) : fopenValue (.error res) = 0 := if_pos h

/-- `fopen` is the making of the descriptor and the choice of the value. -/
theorem fopen_eq (filename mode_str : List (BitVec 8)) (fs : FileSys) :
    fopen filename mode_str fs =
      (fopenDesc filename mode_str fs).map fun r => (fopenValue r.1, r.2) := by
  show (fopenDesc filename mode_str fs).bind _ = _
  cases fopenDesc filename mode_str fs with
  | none => rfl
  | some r =>
    obtain ⟨res, fs'⟩ := r
    cases res <;> rfl

theorem fat16Close_zero {desc : FatFileDescriptor} {h h' : Heap} {res : ℤ}
    (hrun : fat16Close desc h = some (res, h')) : res = 0 := by
  obtain ⟨_, _, _, hrun⟩ := prog_bind.mp hrun
  obtain ⟨_, _, _, hrun⟩ := prog_bind.mp hrun
  exact (prog_pure.mp hrun).1.symm

/-- The state behind a successful `fclose` of `desc`, when the file system has left the heap `h`. -/
def afterClose (fs : FileSys) (desc : FileDescriptor) (h : Heap) : FileSys :=
  { fs.setDescriptor (desc.index - 1).toNat none with heap := heapFree h desc.addr }

/-- **`fclose`**: no descriptor, or the file system closes the file and the slot is emptied. -/
theorem fclose_cases {fd res : ℤ} {fs fs' : FileSys} (hrun : fclose fd fs = some (res, fs')) :
    (fileGetDescriptor fs fd = none ∧ res = -eio ∧ fs' = fs) ∨
      ∃ desc h', fileGetDescriptor fs fd = some desc ∧
        fat16Close desc.priv fs.heap = some (0, h') ∧ res = 0 ∧
        fs' = afterClose fs desc h' := by
  unfold fclose at hrun
  rw [bind_get] at hrun
  cases hdesc : fileGetDescriptor fs fd with
  | none =>
    rw [hdesc] at hrun
    obtain ⟨rfl, rfl⟩ := prog_pure.mp hrun
    exact .inl ⟨rfl, rfl, rfl⟩
  | some desc =>
    rw [hdesc] at hrun
    obtain ⟨res₁, fs₁, hclose, hrun⟩ := prog_bind.mp hrun
    obtain ⟨h₁, hheap, rfl⟩ := onHeap_some.mp hclose
    obtain rfl := fat16Close_zero hheap
    rw [if_pos rfl] at hrun
    obtain ⟨u, fs₂, hfree, hrun⟩ := prog_bind.mp hrun
    cases hfree
    obtain ⟨rfl, rfl⟩ := prog_pure.mp hrun
    exact .inr ⟨desc, h₁, rfl, hheap, rfl, rfl⟩

/-- `fclose` of a descriptor whose file the file system can close. -/
theorem fclose_of_desc {fd : ℤ} {fs : FileSys} {desc : FileDescriptor} {h' : Heap}
    (hdesc : fileGetDescriptor fs fd = some desc)
    (hclose : fat16Close desc.priv fs.heap = some (0, h')) :
    fclose fd fs = some (0, afterClose fs desc h') := by
  unfold fclose
  rw [bind_get, hdesc]
  dsimp only
  rw [bind_onHeap hclose, if_pos rfl]
  rfl

end MaerOS.Analysis
