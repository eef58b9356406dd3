import MaerOS.Analysis.FileSpecs
import MaerOS.Analysis.HeapOwns

/-!
# Who owns the records of the file layer

The records of an open file are live allocations. `Holds rs` says that the runs `rs` are among
the allocations of the heap, so a record that is dropped without being freed is forgotten and
nothing else. Every item the driver returns comes with its runs; a directory without entries has a
buffer of size zero, which is no allocation.
-/

set_option autoImplicit false

namespace MaerOS.Analysis

open MaerOS.Lib MaerOS.Model

/-! ## Runs among the allocations -/

/-- The runs are live allocations of the kernel heap, possibly among others. -/
def Holds (rs : List (Addr × ℕ)) (h : Heap) : Prop := ∃ os, HeapOwns h (os ++ rs)

/-- The order of the runs does not matter. -/
theorem Holds.perm {rs rs' : List (Addr × ℕ)} {h : Heap} (hh : Holds rs h) (hp : rs.Perm rs') :
    Holds rs' h := by
  obtain ⟨os, ho⟩ := hh
  exact ⟨os, ho.perm (hp.append_left os)⟩

/-- Some of the allocations may be left out. -/
theorem Holds.forget (os : List (Addr × ℕ)) {rs : List (Addr × ℕ)} {h : Heap}
    (hh : Holds (os ++ rs) h) : Holds rs h := by
  obtain ⟨os', ho⟩ := hh
  refine ⟨os' ++ os, ?_⟩
  rw [List.append_assoc]
  exact ho

/-- `kfree` of an allocation takes it out. -/
theorem Holds.kfree {p : Addr} {n : ℕ} {rs : List (Addr × ℕ)} {h : Heap}
    (hh : Holds ((p, n) :: rs) h) : Holds rs (heapFree h p) := by
  obtain ⟨os, ho⟩ := hh
  exact ⟨os, (ho.perm List.perm_middle).kfree⟩

/-- Giving back several allocations. -/
theorem Holds.release_list {os rs : List (Addr × ℕ)} {h : Heap} (hh : Holds (os ++ rs) h) :
    Holds rs ((os.map Prod.fst).foldl heapFree h) := by
  obtain ⟨os', ho⟩ := hh
  refine ⟨os', HeapOwns.release_list os (ho.perm ?_)⟩
  rw [← List.append_assoc, ← List.append_assoc]
  exact List.perm_append_comm.append_right rs

section Records

variable {rs : List (Addr × ℕ)}

/-- A record is one allocation more, or the null pointer. -/
theorem allocRecord_holds {size : BitVec 32} (hsize : 1 ≤ size.toNat) :
    Triple (Holds rs) (allocRecord size) fun p h =>
      (p = 0#32 ∧ Holds rs h) ∨ (p ≠ 0#32 ∧ Holds ((p, blocksFor size) :: rs) h) := by
  rintro h ⟨os, ho⟩ p h' hrun
  rcases ho.kzalloc hsize hrun with ⟨rfl, rfl, -⟩ | ⟨hne, ho'⟩
  · exact .inl ⟨rfl, os, ho⟩
  · exact .inr ⟨hne, os, ho'.perm List.perm_middle.symm⟩

/-- Allocating a record keeps what was allocated. -/
theorem allocRecord_holds_forget {size : BitVec 32} (hsize : 1 ≤ size.toNat) :
    Triple (Holds rs) (allocRecord size) fun _ => Holds rs :=
  (allocRecord_holds hsize).conseq (fun _ hh => hh) fun p h hq => by
    rcases hq with ⟨-, hh⟩ | ⟨-, hh⟩
    · exact hh
    · exact Holds.forget [(p, blocksFor size)] hh

/-- Code that asks for a record and goes on by whether it was refused. -/
theorem allocRecord_or {α : Type} {size : BitVec 32} (hsize : 1 ≤ size.toNat) {m : HeapM α}
    {m' : Addr → HeapM α} {Q : α → Heap → Prop} (hnull : Triple (Holds rs) m Q)
    (hsome : ∀ p, Triple (Holds ((p, blocksFor size) :: rs)) (m' p) Q) :
    Triple (Holds rs) (allocRecord size >>= fun p => if p = 0#32 then m else m' p) Q := by
  refine (allocRecord_holds hsize).bind fun p => ?_
  refine Triple.ite (fun h0 => hnull.conseq ?_ fun _ _ hq => hq) fun hne =>
    (hsome p).conseq ?_ fun _ _ hq => hq
  · rintro h (⟨-, hh⟩ | ⟨hne, -⟩)
    · exact hh
    · exact absurd h0 hne
  · rintro h (⟨h0, -⟩ | ⟨-, hh⟩)
    · exact absurd h0 hne
    · exact hh

/-- Giving back a record, or the null pointer in its place. -/
theorem freeRecord_holds {p : Addr} {n : ℕ} :
    Triple (fun h => (p = 0#32 ∧ Holds rs h) ∨ (p ≠ 0#32 ∧ Holds ((p, n) :: rs) h)) (freeRecord p)
      fun _ => Holds rs := by
  rintro h hh u h' hrun
  cases hrun
  rcases hh with ⟨rfl, os, ho⟩ | ⟨-, hh⟩
  · exact ⟨os, ho.kfree_null⟩
  · exact hh.kfree

/-! ## The path -/

/-- Parsing a part of a path keeps what was allocated. -/
theorem pathparserParsePathPart_holds (path : List (BitVec 8)) :
    Triple (Holds rs) (pathparserParsePathPart path) fun _ => Holds rs := by
  refine Triple.bind (Q := fun _ => Holds rs) ?_ ?_
  · refine (allocRecord_holds (by decide)).bind fun p => ?_
    refine Triple.ite (fun _ => ?_) fun _ => ?_
    · exact freeRecord_holds.bind fun _ => Triple.pure fun _ hh => hh
    · refine (writeRecord_keeps p).bind fun _ => Triple.pure fun _ hh => ?_
      rcases hh with ⟨-, hh⟩ | ⟨-, hh⟩
      · exact hh
      · exact Holds.forget [(p, _)] hh
  · rintro ⟨str, rest⟩
    cases str with
    | none => exact Triple.pure fun _ hh => hh
    | some str =>
      refine (allocRecord_holds_forget (by decide)).bind fun p => ?_
      exact (writeRecord_keeps p).bind fun _ => Triple.pure fun _ hh => hh

/-- So does parsing the parts of a path. -/
theorem pathparserParseParts_holds (fuel : ℕ) : ∀ path : List (BitVec 8),
    Triple (Holds rs) (pathparserParseParts fuel path) fun _ => Holds rs := by
  induction fuel with
  | zero =>
    intro path
    exact Triple.failure
  | succ fuel ih =>
    intro path
    refine (pathparserParsePathPart_holds path).bind ?_
    rintro ⟨part, rest⟩
    cases part with
    | none => exact Triple.pure fun _ hh => hh
    | some part => exact (ih rest).bind fun _ => Triple.pure fun _ hh => hh

/-- **`pathparser_parse`** keeps what was allocated. -/
theorem pathparserParse_holds (path : List (BitVec 8)) :
    Triple (Holds rs) (pathparserParse path) fun _ => Holds rs := by
  refine Triple.ite (fun _ => Triple.pure fun _ hh => hh) fun _ => ?_
  refine Triple.ite (fun _ => Triple.pure fun _ hh => hh) fun _ => ?_
  refine Triple.bind (Q := fun _ => Holds rs) ?_ fun _ =>
    (pathparserParseParts_holds _ _).bind fun _ => Triple.pure fun _ hh => hh
  refine (allocRecord_holds_forget (by decide)).bind fun p => ?_
  exact (writeRecord_keeps p).bind fun _ => Triple.pure fun _ hh => hh

/-! ## Items -/

/-- The allocations behind a directory pointer. -/
def directoryRuns : FatDirectoryPtr → List (Addr × ℕ)
  | .null => []
  | .dangling => []
  | .loaded addr item entries =>
    (if entries = [] then [] else
      [(item, blocksFor (BitVec.ofNat 32 (entries.length * sizeofFatDirectoryItem)))]) ++ [(addr, 1)]

/-- The allocations of an item. -/
def itemRuns (item : FatItem) : List (Addr × ℕ) :=
  (match item.content with
    | .file entry _ => if entry = 0#32 then [] else [(entry, 1)]
    | .directory directory => directoryRuns directory) ++ [(item.addr, 1)]

/-- The allocations of the item that a pointer leads to. -/
def foundRuns : Option FatItem → List (Addr × ℕ)
  | none => []
  | some item => itemRuns item

/-- As many entries are taken from the bytes as asked for. -/
@[simp] theorem length_fatDirectoryItems (bytes : List (BitVec 8)) (n : ℕ) :
    (fatDirectoryItems bytes n).length = n := by
  simp [fatDirectoryItems]

/-- The number of entries stays below the number of rounds. -/
theorem fat16CountItems_lt (disk : Disk) : ∀ (fuel : ℕ) (pos : ℤ) (i n : ℕ),
    fat16CountItems disk fuel pos i = some n → n < i + fuel := by
  intro fuel
  induction fuel with
  | zero =>
    intro pos i n h
    cases h
  | succ fuel ih =>
    intro pos i n h
    obtain ⟨read, -, h⟩ := Option.bind_eq_some_iff.mp h
    split at h
    · cases h
      omega
    · split at h
      · have := ih _ _ _ h
        omega
      · have := ih _ _ _ h
        omega

/-- The buffer for the entries of a directory that is not empty has at least one byte. -/
theorem one_le_bufferSize {total : ℕ} (htotal : total < 2 ^ 26) (hzero : total ≠ 0) :
    1 ≤ (BitVec.ofNat 32 (total * sizeofFatDirectoryItem)).toNat := by
  rw [BitVec.toNat_ofNat]
  simp only [sizeofFatDirectoryItem]
  omega

/-- A buffer without bytes is null or the address of a free block. -/
def EmptyBuffer (p : Addr) (h : Heap) : Prop :=
  p = 0#32 ∨ ∃ b < 25600, p = blockAddr b ∧ IsFree h.table.entries b

/-- Releasing it changes nothing. -/
theorem EmptyBuffer.release {p : Addr} {h : Heap} (hp : EmptyBuffer p h) (ho : HeapOwns h rs) :
    HeapOwns (heapFree h p) rs := by
  rcases hp with rfl | ⟨b, hb, rfl, hfree⟩
  · exact ho.kfree_null
  · exact ho.kfree_free hb hfree

/-- It stays so when something else is released. -/
theorem EmptyBuffer.kfree {p : Addr} {h : Heap} (hp : EmptyBuffer p h) (q : Addr) :
    EmptyBuffer p (heapFree h q) :=
  hp.imp_right fun ⟨b, hb, hpb, hfree⟩ => ⟨b, hb, hpb, isFree_heapFree hfree q⟩

/-- Freeing the buffer of a directory again is no loss, whether it was refused, holds no entries or
is an allocation. -/
theorem HeapOwns.freeBuffer {total : ℕ} (htotal : total < 2 ^ 26) {h h' : Heap} {p : Addr}
    (ho : HeapOwns h rs)
    (hz : h.kzalloc (BitVec.ofNat 32 (total * sizeofFatDirectoryItem)) = some (p, h')) :
    HeapOwns (heapFree h' p) rs := by
  by_cases hzero : total = 0
  · subst hzero
    obtain ⟨ho', hp⟩ := ho.kzalloc_nothing hz
    exact EmptyBuffer.release hp ho'
  · rcases ho.kzalloc (one_le_bufferSize htotal hzero) hz with ⟨rfl, rfl, -⟩ | ⟨-, ho'⟩
    · exact ho.kfree_null
    · exact ho'.kfree

/-- `kzalloc` of the buffer of a directory: null, or an allocation unless there are no entries. -/
theorem allocBuffer_holds {total : ℕ} (htotal : total < 2 ^ 26) {h h' : Heap} {p : Addr}
    (hh : Holds rs h)
    (hz : h.kzalloc (BitVec.ofNat 32 (total * sizeofFatDirectoryItem)) = some (p, h')) :
    Holds ((if p = 0#32 ∨ total = 0 then [] else
      [(p, blocksFor (BitVec.ofNat 32 (total * sizeofFatDirectoryItem)))]) ++ rs) h' := by
  obtain ⟨os, ho⟩ := hh
  by_cases hzero : total = 0
  · subst hzero
    rw [if_pos (.inr rfl)]
    exact ⟨os, (ho.kzalloc_nothing hz).1⟩
  · rcases ho.kzalloc (one_le_bufferSize htotal hzero) hz with ⟨rfl, rfl, -⟩ | ⟨hne, ho'⟩
    · rw [if_pos (.inl rfl)]
      exact ⟨os, ho⟩
    · rw [if_neg (not_or.mpr ⟨hne, hzero⟩)]
      exact ⟨os, ho'.perm List.perm_middle.symm⟩

section BufferTaken

variable {vol : FatVolume} {item : FatDirectoryItem} {h h₁ h₂ : Heap} {dir buf : Addr} {total : ℕ}

/-- There are fewer than `2^26` entries. -/
theorem BufferTaken.total_lt (ht : BufferTaken vol item h dir total buf h₁ h₂) :
    total < 2 ^ 26 := by
  obtain ⟨sector, -, htotal⟩ := ht.counted
  have := fat16CountItems_lt _ _ _ _ _ htotal
  omega

/-- The record of the directory is one more allocation. -/
theorem BufferTaken.owns (ht : BufferTaken vol item h dir total buf h₁ h₂) (ho : HeapOwns h rs) :
    HeapOwns h₁ ((dir, 1) :: rs) :=
  ((ho.kzalloc (by decide) ht.record).resolve_left fun hc => ht.nonnull hc.1).2

/-- Giving back the buffer leaves the record of the directory. -/
theorem BufferTaken.free (ht : BufferTaken vol item h dir total buf h₁ h₂) (ho : HeapOwns h rs) :
    HeapOwns (heapFree h₂ buf) ((dir, 1) :: rs) :=
  (ht.owns ho).freeBuffer ht.total_lt ht.buffer

/-- The buffer and the record are allocated, if there was memory for the buffer and it is not empty.
-/
theorem BufferTaken.holds (ht : BufferTaken vol item h dir total buf h₁ h₂) (hh : Holds rs h) :
    Holds ((if buf = 0#32 ∨ total = 0 then [] else
      [(buf, blocksFor (BitVec.ofNat 32 (total * sizeofFatDirectoryItem)))]) ++
        (dir, 1) :: rs) h₂ := by
  obtain ⟨os, ho⟩ := hh
  exact allocBuffer_holds ht.total_lt ⟨os, (ht.owns ho).perm List.perm_middle.symm⟩ ht.buffer

/-- Without entries the buffer is empty. -/
theorem BufferTaken.empty (ht : BufferTaken vol item h dir 0 buf h₁ h₂) (hh : Holds rs h) :
    EmptyBuffer buf h₂ := by
  obtain ⟨os, ho⟩ := hh
  exact ((ht.owns ho).kzalloc_nothing ht.buffer).2

end BufferTaken

/-- The allocations behind a directory pointer are live, and the buffer of a directory without
entries is empty. -/
structure DirectoryHeld (d : FatDirectoryPtr) (rs : List (Addr × ℕ)) (h : Heap) : Prop where
  holds : Holds (directoryRuns d ++ rs) h
  empty : ∀ dir buf, d = .loaded dir buf [] → EmptyBuffer buf h

/-- The same for the item that a pointer leads to. -/
structure ItemHeld (o : Option FatItem) (rs : List (Addr × ℕ)) (h : Heap) : Prop where
  holds : Holds (foundRuns o ++ rs) h
  empty : ∀ addr dir buf, o = some ⟨addr, .directory (.loaded dir buf [])⟩ → EmptyBuffer buf h

theorem ItemHeld.none {h : Heap} (hh : Holds rs h) : ItemHeld none rs h :=
  ⟨hh, fun _ _ _ hc => by cases hc⟩

/-- **`fat16_load_fat_directory`** holds what the directory it returns is made of. -/
theorem fat16LoadFatDirectory_holds (vol : FatVolume) (item : FatDirectoryItem) :
    Triple (Holds rs) (fat16LoadFatDirectory vol item) fun d => DirectoryHeld d rs := by
  intro h hh d h' hload
  cases fat16LoadFatDirectory_cases hload with
  | file _ => exact ⟨hh, fun _ _ hc => by cases hc⟩
  | noRecord hz =>
    exact ⟨allocRecord_holds_forget (by decide) h hh _ _ hz, fun _ _ hc => by cases hc⟩
  | noBuffer ht =>
    have hkept := ht.holds hh
    rw [if_pos (.inl rfl)] at hkept
    exact ⟨hkept.kfree, fun _ _ hc => by cases hc⟩
  | notRead ht _ _ _ =>
    obtain ⟨os, ho⟩ := hh
    exact ⟨⟨os, (ht.free ho).kfree⟩, fun _ _ hc => by cases hc⟩
  | @loaded dir buf total _ _ out ht hbuf _ =>
    have hkept := ht.holds hh
    have hnil : fatDirectoryItems out total = [] ↔ total = 0 := by
      rw [← List.length_eq_zero_iff, length_fatDirectoryItems]
    constructor
    · unfold directoryRuns
      dsimp only
      rw [length_fatDirectoryItems, List.append_assoc]
      by_cases hzero : total = 0
      · rw [if_pos (.inr hzero)] at hkept
        rw [if_pos (hnil.mpr hzero)]
        exact hkept
      · rw [if_neg (not_or.mpr ⟨hbuf, hzero⟩)] at hkept
        rw [if_neg fun hc => hzero (hnil.mp hc)]
        exact hkept
    · intro dir' buf' hd
      rw [FatDirectoryPtr.loaded.injEq] at hd
      obtain ⟨rfl, rfl, hempty⟩ := hd
      obtain rfl := hnil.mp hempty
      exact ht.empty hh

/-- **`fat16_new_fat_item_for_directory_item`** holds what its item is made of. -/
theorem fat16NewFatItemForDirectoryItem_holds (vol : FatVolume) (item : FatDirectoryItem) :
    Triple (Holds rs) (fat16NewFatItemForDirectoryItem vol item) fun o => ItemHeld o rs := by
  refine allocRecord_or (by decide) (Triple.pure fun _ => ItemHeld.none) fun p => ?_
  refine Triple.ite (fun _ => ?_) fun _ => ?_
  · refine (fat16LoadFatDirectory_holds vol item).bind fun d => Triple.pure fun h hh => ⟨?_, ?_⟩
    · unfold foundRuns itemRuns
      rw [List.append_assoc]
      exact hh.holds
    · rintro addr dir buf hitem
      cases hitem
      exact hh.empty dir buf rfl
  · refine (allocRecord_holds (by decide)).bind fun e => Triple.pure fun h hh =>
      ⟨?_, fun _ _ _ hc => by cases hc⟩
    unfold foundRuns itemRuns
    rw [List.append_assoc]
    dsimp only
    rcases hh with ⟨h0, hh⟩ | ⟨hne', hh⟩
    · rw [if_pos h0]
      exact hh
    · rw [if_neg hne']
      exact hh

/-- **`fat16_find_item_in_directory`** holds what the item it found is made of. -/
theorem fat16FindItemInDirectory_holds (vol : FatVolume) (entries : List FatDirectoryItem)
    (total : ℕ) (name : List (BitVec 8)) :
    Triple (Holds rs) (fat16FindItemInDirectory vol entries total name) fun o => ItemHeld o rs := by
  refine (Triple.foldlM (Q := fun o => ItemHeld o rs) _ ?_ none).conseq
    (fun _ hh => .none hh) fun _ _ hq => hq
  intro o i _
  unfold fat16FindItemRound
  split
  · exact Triple.failure
  · refine Triple.ite (fun _ => ?_) fun _ => Triple.pure fun _ hq => hq
    -- an item found before is forgotten
    exact (fat16NewFatItemForDirectoryItem_holds vol _).conseq (fun _ hh => hh.holds.forget _)
      fun _ _ hq => hq

/-- **`fat16_fat_item_free`** of an item with a loaded directory gives back what it is made of, and
nothing that another item is made of. -/
theorem fat16FatItemFree_holds {addr dir buf : Addr} {entries : List FatDirectoryItem}
    {o : Option FatItem} :
    Triple (fun h => ItemHeld o (itemRuns ⟨addr, .directory (.loaded dir buf entries)⟩ ++ rs) h ∧
        (entries = [] → EmptyBuffer buf h))
      (fat16FatItemFree ⟨addr, .directory (.loaded dir buf entries)⟩) fun _ => ItemHeld o rs := by
  rintro h ⟨⟨hh, hempty⟩, hbuf⟩ u h' hrun
  -- the buffer first
  obtain ⟨h₀, hh₀, hempty₀, rfl⟩ : ∃ h₀, Holds ([(dir, 1), (addr, 1)] ++ (foundRuns o ++ rs)) h₀ ∧
      (∀ p, EmptyBuffer p h → EmptyBuffer p h₀) ∧ h' = heapFree (heapFree h₀ dir) addr := by
    have hperm := hh.perm (List.perm_append_comm_assoc _ _ _)
    unfold itemRuns directoryRuns at hperm
    unfold fat16FatItemFree fat16FreeDirectory at hrun
    dsimp only at hperm hrun
    by_cases hnil : entries = []
    · rw [if_pos hnil] at hperm
      split at hrun
      · cases hrun
        exact ⟨h, hperm, fun _ hp => hp, rfl⟩
      · cases hrun
        obtain ⟨os, ho⟩ := hperm
        exact ⟨heapFree h buf, ⟨os, (hbuf hnil).release ho⟩, fun _ hp => hp.kfree buf, rfl⟩
    · rw [if_neg hnil] at hperm
      obtain ⟨os, ho⟩ := hperm
      have hne : buf ≠ 0#32 :=
        ho.ne_zero (List.mem_append_right _ (List.mem_append_left _ List.mem_cons_self))
      rw [if_neg hne] at hrun
      cases hrun
      exact ⟨heapFree h buf, Holds.kfree ⟨os, ho⟩, fun _ hp => hp.kfree buf, rfl⟩
  -- then the record of the directory and the item
  refine ⟨hh₀.release_list, fun addr' dir' buf' ho => ?_⟩
  exact ((hempty₀ buf' (hempty addr' dir' buf' ho)).kfree dir).kfree addr

/-- **The loop** of `fat16_get_directory_entry`: what is found comes with its allocations, and the
others are left alone. -/
theorem fat16WalkParts_holds (vol : FatVolume) : ∀ (parts : List PathPart) (o : Option FatItem),
    Triple (ItemHeld o rs) (fat16WalkParts vol parts o) fun o' => ItemHeld o' rs := by
  intro parts
  induction parts with
  | nil =>
    intro o
    exact Triple.pure fun _ hh => hh
  | cons part parts ih =>
    intro o
    unfold fat16WalkParts
    split
    · exact Triple.failure
    · -- a file that is not the last part is forgotten
      exact Triple.pure fun _ hh => .none (hh.holds.forget _)
    · exact Triple.failure
    · exact Triple.failure
    · rename_i addr dir buf entries
      refine Triple.bind (Q := fun tmp h =>
        ItemHeld tmp (itemRuns ⟨addr, .directory (.loaded dir buf entries)⟩ ++ rs) h ∧
          (entries = [] → EmptyBuffer buf h)) ?_ fun tmp =>
        Triple.bind fat16FatItemFree_holds fun _ => ih tmp
      by_cases hnil : entries = []
      · -- nothing is found in an empty directory
        subst hnil
        exact Triple.pure fun _ hh => ⟨.none hh.holds, fun _ => hh.empty addr dir buf rfl⟩
      · exact (fat16FindItemInDirectory_holds vol _ _ _).conseq (fun _ hh => hh.holds)
          fun _ _ hq => ⟨hq, fun hc => absurd hc hnil⟩

/-- **`fat16_get_directory_entry`** holds what the item it found is made of. -/
theorem fat16GetDirectoryEntry_holds (vol : FatVolume) (path : List PathPart) :
    Triple (Holds rs) (fat16GetDirectoryEntry vol path) fun o => ItemHeld o rs := by
  cases path with
  | nil => exact Triple.failure
  | cons part parts =>
    refine (fat16FindItemInDirectory_holds vol _ _ _).bind fun o => ?_
    cases o with
    | none => exact Triple.pure fun _ hh => hh
    | some item => exact fat16WalkParts_holds vol parts _

/-! ## Open files -/

/-- The allocations of the file system's descriptor. -/
def fatFileRuns (desc : FatFileDescriptor) : List (Addr × ℕ) := itemRuns desc.item ++ [(desc.addr, 1)]

/-- **`fat16_open`**: the descriptor it returns comes with its allocations. -/
theorem fat16Open_holds (vol : FatVolume) (path : List PathPart) (mode : FileMode) :
    Triple (Holds rs) (fat16Open vol path mode) fun res h =>
      ∀ desc, res = .ok desc → Holds (fatFileRuns desc ++ rs) h := by
  refine Triple.ite (fun _ => Triple.pure fun _ _ _ hc => by cases hc) fun _ => ?_
  refine allocRecord_or (by decide) (Triple.pure fun _ _ _ hc => by cases hc) fun p => ?_
  refine (fat16GetDirectoryEntry_holds vol path).bind fun o => ?_
  cases o with
  | none =>
    intro h _ res h' hrun desc hres
    obtain ⟨u, h₁, -, hret⟩ := prog_bind.mp hrun
    obtain ⟨rfl, -⟩ := prog_pure.mp hret
    cases hres
  | some item =>
    refine Triple.pure fun h hh desc hdesc => ?_
    cases hdesc
    unfold fatFileRuns
    rw [List.append_assoc]
    exact hh.holds

/-- **`fopen`** up to the file system's descriptor: the table and the volume stay, and a descriptor
comes with its allocations. -/
theorem fopenPrivate_holds {filename mode_str : List (BitVec 8)} {fs fs' : FileSys}
    (hh : Holds rs fs.heap) {desc : FatFileDescriptor}
    (hrun : fopenPrivate filename mode_str fs = some (.ok desc, fs')) :
    fs'.file_descriptors = fs.file_descriptors ∧ Holds (fatFileRuns desc ++ rs) fs'.heap := by
  obtain ⟨root, h₁, hparse, hopen⟩ := fopenPrivate_cases hrun
  rcases hopen with ⟨err, -, hres, -⟩ | ⟨root', vol, mode, h₂, -, -, hopen, rfl⟩
  · cases hres
  · have hh₁ := pathparserParse_holds filename _ hh _ _ hparse
    exact ⟨rfl, fat16Open_holds _ _ _ _ hh₁ _ _ hopen desc rfl⟩

end Records

end MaerOS.Analysis
