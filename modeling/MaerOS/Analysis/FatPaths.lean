import MaerOS.Lib.Directories
import MaerOS.Analysis.FatItems
import MaerOS.Analysis.SpareBlocks

/-!
# Resolving a path

The directories of a volume are lists of entries, and an entry can be entered when it is
that of a subdirectory which can be read. When the allocations for the items on the way
succeed (`PathAllocs`), `fat16_get_directory_entry` is the lookup of a path in these
directories (`fat16GetDirectoryEntry_refines`): its loop looks at the item only when there is
a further part. `path_resolution_iff` says what that leads to. A part that is neither the
first nor the last and has no entry leaves a null item, and the loop reads through it. Enough
free blocks at the end of the heap serve all these allocations (`SpareBlocks.pathAllocs`).
-/

set_option autoImplicit false

namespace MaerOS.Analysis

open MaerOS.Lib MaerOS.Model

/-! ## The directories of a volume -/

/-- The entries of the directory behind an entry, if it is that of a subdirectory and every cluster
of it is found. -/
def directoryEntries (vol : FatVolume) (item : FatDirectoryItem) :
    Option (List FatDirectoryItem) :=
  if item.isSubdirectory then do
    let cluster_sector ← fat16ClusterToSector vol.header (fat16GetFirstCluster item)
    let total_items ← fat16GetTotalItemsForDirectory vol.disk cluster_sector
    let (res, out) ← fat16ReadInternal vol.disk vol.header (fat16GetFirstCluster item) 0
      (total_items * sizeofFatDirectoryItem : ℕ)
    if res = maerosAllOk then some (fatDirectoryItems out total_items) else none
  else none

/-- The directories of a volume. Of several entries with one name the last one counts. -/
def fatDirectories (vol : FatVolume) :
    Directories (List FatDirectoryItem) (List (BitVec 8)) FatDirectoryItem where
  find entries name := (entries.filter (HasName name)).getLast?
  enter := directoryEntries vol

/-- The entries of the root directory that are searched. -/
def rootEntries (vol : FatVolume) : List FatDirectoryItem := vol.root_items.take vol.root_total

/-- The names of the parts of a path. -/
def partNames (path : List PathPart) : List (List (BitVec 8)) := path.map PathPart.text

/-- Every subdirectory whose name is looked for on the way can be read. -/
def DirectoriesLoad (vol : FatVolume) (entries : List FatDirectoryItem)
    (names : List (List (BitVec 8))) : Prop :=
  ∀ reached name rest, (fatDirectories vol).Reaches entries names reached name rest →
    ∀ item ∈ reached, HasName name item → item.isSubdirectory = true →
      (directoryEntries vol item).isSome

/-- The item is that of the entry: it holds a copy of the entry, or the directory behind it. -/
inductive ItemOf (vol : FatVolume) (item : FatDirectoryItem) : FatItem → Prop
  | file {addr item_copy : Addr} : item.isSubdirectory = false → item_copy ≠ 0#32 →
      ItemOf vol item ⟨addr, .file item_copy item⟩
  | directory {addr dir buffer : Addr} {entries : List FatDirectoryItem} :
      directoryEntries vol item = some entries →
      ItemOf vol item ⟨addr, .directory (.loaded dir buffer entries)⟩

/-! ## The allocations on the way -/

/-- What is allocated for the item of an entry: its record, and the copy of the entry, or the record
of the directory and its entries. -/
def itemSizes (vol : FatVolume) (item : FatDirectoryItem) : List (BitVec 32) :=
  sizeofFatItem :: (directoryEntries vol item).elim [BitVec.ofNat 32 sizeofFatDirectoryItem]
    fun entries => [sizeofFatDirectory, BitVec.ofNat 32 (entries.length * sizeofFatDirectoryItem)]

/-- The allocations for these entries succeed, one item after the other, and `P` holds of the last
item and the heap it leaves. -/
def SearchAllocs (vol : FatVolume) (P : Option FatItem → Heap → Prop) :
    List FatDirectoryItem → Option FatItem → Heap → Prop
  | [], f_item, h => P f_item h
  | item :: items, _, h => AllocsSucceed (itemSizes vol item) h ∧ ∀ f_item h',
      fat16NewFatItemForDirectoryItem vol item h = some (some f_item, h') →
        SearchAllocs vol P items (some f_item) h'

/-- The allocations for the names behind an entry succeed: those of the search in its directory,
and, once the item of the entry is released, those for the rest of the names. `P` holds of the heap
in the end. -/
def WalkAllocs (vol : FatVolume) (P : Heap → Prop) :
    Option FatDirectoryItem → (names : List (List (BitVec 8))) → Option FatItem → Heap → Prop
  | _, [], _, h => P h
  | found, name :: names, f_item, h =>
    match found.bind (directoryEntries vol) with
    | none => P h
    | some entries => SearchAllocs vol (fun tmp_item h₁ => ∀ current_item ∈ f_item, ∀ h₂,
        fat16FatItemFree current_item h₁ = some ((), h₂) →
          WalkAllocs vol P ((fatDirectories vol).find entries name) names tmp_item h₂)
        (entries.filter (HasName name)) none h

/-- The allocations for a path succeed, and `P` holds of the heap in the end. -/
def PathAllocs (vol : FatVolume) (P : Heap → Prop) (entries : List FatDirectoryItem) :
    (names : List (List (BitVec 8))) → Heap → Prop
  | [], h => P h
  | name :: names, h => SearchAllocs vol
      (WalkAllocs vol P ((fatDirectories vol).find entries name) names)
      (entries.filter (HasName name)) none h

/-- Allocations of these sizes all give memory, and `P` holds of the heap they leave. -/
def AllocsThen (P : Heap → Prop) : List (BitVec 32) → Heap → Prop
  | [], h => P h
  | size :: sizes, h => ∃ p h', h.kzalloc size = some (p, h') ∧ p ≠ 0#32 ∧ AllocsThen P sizes h'

/-- Nothing more is asked of the heap in the end. -/
theorem allocsThen_true {sizes : List (BitVec 32)} :
    ∀ {h : Heap}, AllocsThen (fun _ => True) sizes h ↔ AllocsSucceed sizes h := by
  induction sizes with
  | nil => exact Iff.rfl
  | cons size sizes ih =>
    intro h
    unfold AllocsThen AllocsSucceed
    simp only [ih]

theorem AllocsThen.succeed {P : Heap → Prop} {sizes : List (BitVec 32)} :
    ∀ {h : Heap}, AllocsThen P sizes h → AllocsSucceed sizes h := by
  induction sizes with
  | nil => exact fun _ => trivial
  | cons size sizes ih =>
    rintro h ⟨p, h', hz, hne, hrest⟩
    exact ⟨p, h', hz, hne, ih hrest⟩

section Items

variable {vol : FatVolume} {item : FatDirectoryItem} {entries : List FatDirectoryItem} {h : Heap}

/-- A directory that can be read: its sector, its count, and the bytes of its entries. -/
theorem directoryEntries_some (hdir : directoryEntries vol item = some entries) :
    item.isSubdirectory = true ∧ ∃ sector total out,
      fat16ClusterToSector vol.header (fat16GetFirstCluster item) = some sector ∧
      fat16GetTotalItemsForDirectory vol.disk sector = some total ∧
      fat16ReadInternal vol.disk vol.header (fat16GetFirstCluster item) 0
        (total * sizeofFatDirectoryItem : ℕ) = some (maerosAllOk, out) ∧
      entries = fatDirectoryItems out total := by
  unfold directoryEntries at hdir
  split at hdir
  · rename_i hsub
    obtain ⟨sector, hsector, hdir⟩ := Option.bind_eq_some_iff.mp hdir
    obtain ⟨total, htotal, hdir⟩ := Option.bind_eq_some_iff.mp hdir
    obtain ⟨⟨res, out⟩, hread, hdir⟩ := Option.bind_eq_some_iff.mp hdir
    dsimp only at hdir
    split at hdir
    · rename_i hres
      rw [hres] at hread
      exact ⟨hsub, sector, total, out, hsector, htotal, hread, (Option.some.inj hdir).symm⟩
    · cases hdir
  · cases hdir

theorem directoryEntries_file (hfile : item.isSubdirectory = false) :
    directoryEntries vol item = none := by
  unfold directoryEntries
  rw [if_neg (by simp [hfile])]

theorem directoryEntries_parsed (hdir : directoryEntries vol item = some entries) :
    ∀ item ∈ entries, ∃ bytes, item = fatDirectoryItem bytes := by
  obtain ⟨-, _, total, out, -, -, -, rfl⟩ := directoryEntries_some hdir
  unfold fatDirectoryItems
  simp

/-- A directory that can be read is loaded. -/
theorem fat16LoadFatDirectory_allocs {P : Heap → Prop}
    (hdir : directoryEntries vol item = some entries)
    (ha : AllocsThen P [sizeofFatDirectory,
      BitVec.ofNat 32 (entries.length * sizeofFatDirectoryItem)] h) :
    ∃ dir buffer h', fat16LoadFatDirectory vol item h = some (.loaded dir buffer entries, h') ∧
      P h' := by
  obtain ⟨hsub, sector, total, out, hsector, htotal, hread, rfl⟩ := directoryEntries_some hdir
  rw [length_fatDirectoryItems] at ha
  obtain ⟨dir, h₁, hz₁, hdir_ne, buffer, h₂, hz₂, hbuffer_ne, hP⟩ := ha
  refine ⟨dir, buffer, h₂, ?_, hP⟩
  rw [fat16LoadFatDirectory_run hsub hsector htotal hz₁ hdir_ne hz₂ hbuffer_ne hread]
  exact if_neg (not_not.mpr rfl)

/-- **The item of an entry**, with memory for it. -/
theorem fat16NewFatItem_allocs {P : Heap → Prop}
    (hload : item.isSubdirectory = true → (directoryEntries vol item).isSome)
    (ha : AllocsThen P (itemSizes vol item) h) :
    ∃ f_item h', fat16NewFatItemForDirectoryItem vol item h = some (some f_item, h') ∧
      ItemOf vol item f_item ∧ P h' := by
  obtain ⟨addr, h₁, hz, hne, ha₁⟩ := ha
  have hz : allocRecord sizeofFatItem h = some (addr, h₁) := hz
  unfold fat16NewFatItemForDirectoryItem
  rw [bind_of_some hz, if_neg hne]
  by_cases hsub : item.isSubdirectory = true
  · obtain ⟨entries, hdir⟩ := Option.isSome_iff_exists.mp (hload hsub)
    rw [hdir] at ha₁
    obtain ⟨dir, buffer, h₂, hrun, hP⟩ := fat16LoadFatDirectory_allocs hdir ha₁
    rw [if_pos hsub, bind_of_some hrun]
    exact ⟨_, h₂, rfl, .directory hdir, hP⟩
  · have hfile : item.isSubdirectory = false := by simpa using hsub
    rw [directoryEntries_file hfile] at ha₁
    obtain ⟨item_copy, h₂, hz₂, hne₂, hP⟩ := ha₁
    have hz₂ : allocRecord (BitVec.ofNat 32 sizeofFatDirectoryItem) h₁ = some (item_copy, h₂) := hz₂
    rw [if_neg hsub, bind_of_some hz₂]
    exact ⟨_, h₂, rfl, .file hfile hne₂, hP⟩

theorem fat16FatItemFree_loaded (addr dir buffer : Addr) :
    ∃ h', fat16FatItemFree ⟨addr, .directory (.loaded dir buffer entries)⟩ h = some ((), h') := by
  unfold fat16FatItemFree fat16FreeDirectory
  dsimp only
  split <;> exact ⟨_, rfl⟩

end Items

/-! ## The search and the walk -/

section Walk

variable {vol : FatVolume} {entries : List FatDirectoryItem} {name : List (BitVec 8)} {h : Heap}

/-- **The search** over entries ends with the item of the last one that has the name. -/
theorem foldlM_searchStep_allocs (hname : 0x00#8 ∉ name) {P : Option FatItem → Heap → Prop}
    (items : List FatDirectoryItem) : ∀ (found : Option FatDirectoryItem) (f_item : Option FatItem)
      (h : Heap), (∀ item ∈ items, ∃ bytes, item = fatDirectoryItem bytes) →
      (∀ item ∈ items, HasName name item → item.isSubdirectory = true →
        (directoryEntries vol item).isSome) →
      SearchAllocs vol P (items.filter (HasName name)) f_item h →
      Option.Rel (ItemOf vol) found f_item →
      ∃ o h', items.foldlM (searchStep vol name) f_item h = some (o, h') ∧
        Option.Rel (ItemOf vol) ((items.filter (HasName name)).getLast?.or found) o ∧ P o h' := by
  induction items with
  | nil =>
    intro found f_item h _ _ hs hrel
    exact ⟨f_item, h, rfl, hrel, hs⟩
  | cons item items ih =>
    intro found f_item h hparsed hload hs hrel
    obtain ⟨⟨bytes, hitem⟩, hparsed⟩ := List.forall_mem_cons.mp hparsed
    obtain ⟨hload_item, hload⟩ := List.forall_mem_cons.mp hload
    have hmatch : istrncmp (fat16GetFullRelativeFilename item) name maerosMaxPath = 0 ↔
        HasName name item := by
      rw [hitem]
      exact istrncmp_entry_iff bytes hname
    rw [List.foldlM_cons]
    by_cases hhas : HasName name item
    · -- an item for this entry, in place of the one before
      have hfilter : (item :: items).filter (HasName name) = item :: items.filter (HasName name) :=
        List.filter_cons_of_pos (by simpa using hhas)
      rw [hfilter] at hs ⊢
      obtain ⟨hallocs, hnext⟩ := hs
      obtain ⟨f_item', h₁, hnew, hof, -⟩ :=
        fat16NewFatItem_allocs (hload_item hhas) (allocsThen_true.mpr hallocs)
      have hstep : searchStep vol name f_item item h = some (some f_item', h₁) := by
        unfold searchStep
        rw [if_pos (hmatch.mpr hhas)]
        exact hnew
      obtain ⟨o, h', hrun, hres, hP⟩ := ih (some item) _ h₁ hparsed hload (hnext _ _ hnew) (.some hof)
      refine ⟨o, h', (bind_of_some hstep _).trans hrun, ?_, hP⟩
      rw [List.getLast?_cons]
      cases hlast : (items.filter (HasName name)).getLast? with
      | none => simpa [hlast] using hres
      | some last => simpa [hlast] using hres
    · have hfilter : (item :: items).filter (HasName name) = items.filter (HasName name) :=
        List.filter_cons_of_neg (by simpa using hhas)
      have hstep : searchStep vol name f_item item h = some (f_item, h) := by
        unfold searchStep
        rw [if_neg fun hc => hhas (hmatch.mp hc)]
        rfl
      rw [hfilter] at hs ⊢
      obtain ⟨o, h', hrun, hres⟩ := ih found f_item h hparsed hload hs hrel
      exact ⟨o, h', (bind_of_some hstep _).trans hrun, hres⟩

/-- **`fat16_find_item_in_directory`** finds what is in the directory. -/
theorem fat16FindItemInDirectory_allocs {total : ℕ} {P : Option FatItem → Heap → Prop}
    (htotal : total ≤ entries.length)
    (hparsed : ∀ item ∈ entries, ∃ bytes, item = fatDirectoryItem bytes) (hname : 0x00#8 ∉ name)
    (hload : ∀ item ∈ entries.take total, HasName name item → item.isSubdirectory = true →
      (directoryEntries vol item).isSome)
    (hs : SearchAllocs vol P ((entries.take total).filter (HasName name)) none h) :
    ∃ o h', fat16FindItemInDirectory vol entries total name h = some (o, h') ∧
      Option.Rel (ItemOf vol) ((fatDirectories vol).find (entries.take total) name) o ∧ P o h' := by
  have hfold : (List.range' 0 total).foldlM (fat16FindItemRound vol entries name) none =
      ((entries.drop 0).take total).foldlM (searchStep vol name) none :=
    foldlM_range' vol name total 0 none (by omega) fun _ _ => rfl
  rw [List.drop_zero, ← List.range_eq_range'] at hfold
  unfold fat16FindItemInDirectory
  rw [hfold]
  obtain ⟨o, h', hrun, hres, hP⟩ := foldlM_searchStep_allocs hname (entries.take total) none none h
    (fun item hi => hparsed item (List.mem_of_mem_take hi)) hload hs .none
  rw [Option.or_none] at hres
  exact ⟨o, h', hrun, hres, hP⟩

/-- Reading on in the directory that was entered. -/
theorem DirectoriesLoad.enter {names : List (List (BitVec 8))} {item : FatDirectoryItem}
    {behind : List FatDirectoryItem} (hload : DirectoriesLoad vol entries (name :: names))
    (hfind : (fatDirectories vol).find entries name = some item)
    (henter : directoryEntries vol item = some behind) : DirectoriesLoad vol behind names :=
  fun reached m rest hreach => hload reached m rest (.enter hfind henter hreach)

/-- **The loop** of `fat16_get_directory_entry` is the walk in the directories of the volume: it has
no outcome where that is stuck, and ends with the item of the entry where that ends. -/
theorem fat16WalkParts_refines {P : Heap → Prop} (parts : List PathPart) :
    ∀ (entries : List FatDirectoryItem) (name : List (BitVec 8)) (o : Option FatItem) (h : Heap),
      (∀ part ∈ parts, 0x00#8 ∉ part.text) →
      DirectoriesLoad vol entries (name :: partNames parts) →
      WalkAllocs vol P ((fatDirectories vol).find entries name) (partNames parts) o h →
      Option.Rel (ItemOf vol) ((fatDirectories vol).find entries name) o →
      match (fatDirectories vol).walk ((fatDirectories vol).find entries name)
        (partNames parts) with
      | none => fat16WalkParts vol parts o h = none
      | some found => ∃ o' h', fat16WalkParts vol parts o h = some (o', h') ∧
          Option.Rel (ItemOf vol) found o' ∧ P h' := by
  induction parts with
  | nil =>
    intro entries name o h _ _ hs hrel
    exact ⟨o, h, rfl, hrel, hs⟩
  | cons part parts ih =>
    intro entries name o h hnames hload hs hrel
    obtain ⟨hname, hnames⟩ := List.forall_mem_cons.mp hnames
    have hcons : partNames (part :: parts) = part.text :: partNames parts := rfl
    rw [hcons] at hload hs ⊢
    generalize hfind : (fatDirectories vol).find entries name = found at hs hrel
    cases hrel with
    | none =>
      -- nothing was found and a part is left
      rfl
    | @some item f_item hof =>
      rw [Directories.walk]
      rw [WalkAllocs, Option.bind_some] at hs
      cases hof with
      | file hfile _ =>
        have henter : (fatDirectories vol).enter item = none := directoryEntries_file hfile
        rw [directoryEntries_file hfile] at hs
        rw [henter]
        exact ⟨none, h, rfl, .none, hs⟩
      | @directory addr dir buffer behind hdir =>
        have henter : (fatDirectories vol).enter item = some behind := hdir
        rw [hdir] at hs
        have htake : behind.take behind.length = behind := List.take_length
        have hbehind := hload.enter hfind hdir
        dsimp only at hs
        rw [← htake] at hs
        obtain ⟨tmp, h₁, hrun, hrel, hnext⟩ := fat16FindItemInDirectory_allocs le_rfl
          (directoryEntries_parsed hdir) hname
          (by rw [htake]; exact hbehind behind part.text (partNames parts) .here) hs
        rw [htake] at hrel hnext
        obtain ⟨h₂, hfree⟩ := @fat16FatItemFree_loaded behind h₁ addr dir buffer
        rw [henter, fat16WalkParts, bind_of_some hrun, bind_of_some hfree]
        exact ih behind part.text tmp h₂ hnames hbehind (hnext _ rfl h₂ hfree) hrel

/-- **`fat16_get_directory_entry`** is the lookup of the path in the directories of the volume. -/
theorem fat16GetDirectoryEntry_refines {P : Heap → Prop} {path : List PathPart} (hne : path ≠ [])
    (hinside : vol.root_total ≤ vol.root_items.length)
    (hparsed : ∀ item ∈ vol.root_items, ∃ bytes, item = fatDirectoryItem bytes)
    (hnames : ∀ part ∈ path, 0x00#8 ∉ part.text)
    (hload : DirectoriesLoad vol (rootEntries vol) (partNames path))
    (hs : PathAllocs vol P (rootEntries vol) (partNames path) h) :
    match (fatDirectories vol).lookup (rootEntries vol) (partNames path) with
    | none => fat16GetDirectoryEntry vol path h = none
    | some found => ∃ o h', fat16GetDirectoryEntry vol path h = some (o, h') ∧
        Option.Rel (ItemOf vol) found o ∧ P h' := by
  cases path with
  | nil => exact absurd rfl hne
  | cons part parts =>
    obtain ⟨hname, hnames⟩ := List.forall_mem_cons.mp hnames
    have hcons : partNames (part :: parts) = part.text :: partNames parts := rfl
    rw [hcons] at hload hs ⊢
    obtain ⟨root_item, h₁, hrun, hrel, hs₁⟩ := fat16FindItemInDirectory_allocs hinside hparsed hname
      (hload _ _ _ .here) hs
    have hwalk := fat16WalkParts_refines parts (rootEntries vol) part.text root_item h₁ hnames
      hload hs₁ hrel
    rw [fat16GetDirectoryEntry, bind_of_some hrun]
    have hrel' : Option.Rel (ItemOf vol) ((fatDirectories vol).find (rootEntries vol) part.text)
        root_item := hrel
    generalize hfind : (fatDirectories vol).find (rootEntries vol) part.text = found at hrel' hs₁
    cases hrel' with
    | none =>
      rw [Directories.lookup_of_none hfind]
      refine ⟨none, h₁, rfl, .none, ?_⟩
      cases hparts : partNames parts with
      | nil =>
        rw [hparts] at hs₁
        exact hs₁
      | cons _ _ =>
        rw [hparts] at hs₁
        exact hs₁
    | some _ =>
      rw [Directories.lookup_of_some hfind]
      exact hwalk

end Walk

/-! ## Free blocks at the end of the heap -/

/-- The blocks of an item. -/
def itemBlocks (vol : FatVolume) (item : FatDirectoryItem) : ℕ :=
  (directoryEntries vol item).elim 0 (fun entries =>
    blocksFor (BitVec.ofNat 32 (entries.length * sizeofFatDirectoryItem))) + 2

/-- The blocks that a search takes: every entry with the name makes an item. -/
def searchBlocks (vol : FatVolume) (entries : List FatDirectoryItem) (name : List (BitVec 8)) : ℕ :=
  ((entries.filter (HasName name)).map (itemBlocks vol)).sum

/-- The blocks that are taken for the names behind an entry. -/
def walkBlocks (vol : FatVolume) :
    Option FatDirectoryItem → (names : List (List (BitVec 8))) → ℕ
  | _, [] => 0
  | found, name :: names =>
    match found.bind (directoryEntries vol) with
    | none => 0
    | some entries =>
      searchBlocks vol entries name + walkBlocks vol ((fatDirectories vol).find entries name) names

/-- The blocks that are taken for a path. -/
def pathBlocks (vol : FatVolume) (entries : List FatDirectoryItem) :
    (names : List (List (BitVec 8))) → ℕ
  | [] => 0
  | name :: names =>
    searchBlocks vol entries name + walkBlocks vol ((fatDirectories vol).find entries name) names

section Spare

variable {vol : FatVolume} {item : FatDirectoryItem} {h h' : Heap} {m n : ℕ}

/-- A record, with one spare block left at least. -/
theorem allocRecord_spare (size : BitVec 32) {n : ℕ} (hs : SpareBlocks h (blocksFor size + n))
    (hn : 0 < n) : ∃ p h', allocRecord size h = some (p, h') ∧ p ≠ 0#32 ∧ SpareBlocks h' n :=
  hs.kzalloc hn

/-- Several allocations. -/
theorem SpareBlocks.allocsThen (hn : 0 < n) (sizes : List (BitVec 32)) :
    ∀ {h : Heap}, SpareBlocks h ((sizes.map blocksFor).sum + n) →
      AllocsThen (fun h' => SpareBlocks h' n) sizes h := by
  induction sizes with
  | nil =>
    intro h hs
    exact hs.mono (by simp)
  | cons size sizes ih =>
    intro h hs
    rw [List.map_cons, List.sum_cons, Nat.add_assoc] at hs
    obtain ⟨p, h', hz, hne, hs'⟩ := hs.kzalloc (by omega)
    exact ⟨p, h', hz, hne, ih hs'⟩

theorem sum_itemSizes : ((itemSizes vol item).map blocksFor).sum = itemBlocks vol item := by
  have hone : blocksFor sizeofFatItem = 1 ∧ blocksFor sizeofFatDirectory = 1 ∧
      blocksFor (BitVec.ofNat 32 sizeofFatDirectoryItem) = 1 := by decide
  unfold itemSizes itemBlocks
  cases directoryEntries vol item with
  | none => simp [hone]
  | some entries =>
    simp only [Option.elim_some, List.map_cons, List.map_nil, List.sum_cons, List.sum_nil, hone]
    omega

/-- Closing an item takes none of the blocks. -/
theorem SpareBlocks.fatItemFree {f_item : FatItem} (hs : SpareBlocks h n)
    (hfree : fat16FatItemFree f_item h = some ((), h')) : SpareBlocks h' n := by
  obtain ⟨addr, content⟩ := f_item
  unfold fat16FatItemFree at hfree
  cases content with
  | file entry item =>
    cases hfree
    exact (hs.kfree entry).kfree addr
  | directory directory =>
    cases directory with
    | null =>
      cases hfree
      exact hs.kfree addr
    | dangling => cases hfree
    | loaded dir buffer entries =>
      unfold fat16FreeDirectory at hfree
      dsimp only at hfree
      split at hfree
      · cases hfree
        exact (hs.kfree dir).kfree addr
      · cases hfree
        exact ((hs.kfree buffer).kfree dir).kfree addr

/-- The items of a search fit in the blocks at the end. -/
theorem SpareBlocks.searchAllocs {P : Option FatItem → Heap → Prop} (hm : 0 < m)
    (hP : ∀ f_item h', SpareBlocks h' m → P f_item h') (items : List FatDirectoryItem) :
    ∀ (f_item : Option FatItem) {h : Heap},
      (∀ item ∈ items, item.isSubdirectory = true → (directoryEntries vol item).isSome) →
      SpareBlocks h ((items.map (itemBlocks vol)).sum + m) →
      SearchAllocs vol P items f_item h := by
  induction items with
  | nil =>
    intro f_item h _ hs
    exact hP f_item h (hs.mono (by simp))
  | cons item items ih =>
    intro f_item h hload hs
    obtain ⟨hload_item, hload⟩ := List.forall_mem_cons.mp hload
    rw [List.map_cons, List.sum_cons, Nat.add_assoc, ← sum_itemSizes] at hs
    have hallocs := SpareBlocks.allocsThen (by omega) (itemSizes vol item) hs
    obtain ⟨f_item', h₁, hnew, -, hs₁⟩ := fat16NewFatItem_allocs hload_item hallocs
    refine ⟨hallocs.succeed, fun f_item'' h₂ hnew' => ?_⟩
    cases hnew.symm.trans hnew'
    exact ih _ hload hs₁

/-- The search for a name in the directory reached. -/
theorem DirectoriesLoad.searched {entries : List FatDirectoryItem} {name : List (BitVec 8)}
    {names : List (List (BitVec 8))} (hload : DirectoriesLoad vol entries (name :: names)) :
    ∀ item ∈ entries.filter (HasName name), item.isSubdirectory = true →
      (directoryEntries vol item).isSome := by
  intro item hitem
  obtain ⟨hmem, hhas⟩ := List.mem_filter.mp hitem
  exact hload entries name names .here item hmem (by simpa using hhas)

/-- The allocations behind an entry fit in the blocks at the end. -/
theorem SpareBlocks.walkAllocs {P : Heap → Prop} (hn : 0 < n)
    (hP : ∀ h', SpareBlocks h' n → P h') (names : List (List (BitVec 8))) :
    ∀ (entries : List FatDirectoryItem) (name : List (BitVec 8)) (f_item : Option FatItem)
      {h : Heap}, DirectoriesLoad vol entries (name :: names) →
      SpareBlocks h (walkBlocks vol ((fatDirectories vol).find entries name) names + n) →
      WalkAllocs vol P ((fatDirectories vol).find entries name) names f_item h := by
  induction names with
  | nil =>
    intro entries name f_item h _ hs
    exact hP h (hs.mono (Nat.le_add_left _ _))
  | cons next names ih =>
    intro entries name f_item h hload hs
    rw [walkBlocks] at hs
    rw [WalkAllocs]
    cases hfind : (fatDirectories vol).find entries name with
    | none => exact hP h (hs.mono (Nat.le_add_left _ _))
    | some item =>
      rw [hfind] at hs
      rw [Option.bind_some] at hs ⊢
      cases hdir : directoryEntries vol item with
      | none => exact hP h (hs.mono (Nat.le_add_left _ _))
      | some behind =>
        rw [hdir] at hs
        have hbehind := hload.enter hfind hdir
        dsimp only at hs ⊢
        rw [Nat.add_assoc] at hs
        refine SpareBlocks.searchAllocs (by omega) ?_ _ none hbehind.searched hs
        intro tmp_item h₁ hs₁ current_item _ h₂ hfree
        exact ih behind next tmp_item hbehind (hs₁.fatItemFree hfree)

/-- **All allocations on the way succeed** in a heap whose last blocks are free. -/
theorem SpareBlocks.pathAllocs {P : Heap → Prop} {entries : List FatDirectoryItem}
    {names : List (List (BitVec 8))} (hn : 0 < n)
    (hs : SpareBlocks h (pathBlocks vol entries names + n)) (hload : DirectoriesLoad vol entries names)
    (hP : ∀ h', SpareBlocks h' n → P h') : PathAllocs vol P entries names h := by
  cases names with
  | nil => exact hP h (hs.mono (Nat.le_add_left _ _))
  | cons name names =>
    rw [pathBlocks, Nat.add_assoc] at hs
    refine SpareBlocks.searchAllocs (by omega) ?_ _ none hload.searched hs
    intro f_item h' hs'
    exact SpareBlocks.walkAllocs hn hP names entries name f_item hload hs'

end Spare

/-! ## Total and exact -/

/-- Some part has no entry in the directory reached so far, or is a file and not the last part. -/
def PathBroken (vol : FatVolume) (path : List PathPart) : Prop :=
  ∃ reached name rest,
    (fatDirectories vol).Reaches (rootEntries vol) (partNames path) reached name rest ∧
      ((∀ item ∈ reached, ¬ HasName name item) ∨ rest ≠ [] ∧
        ∃ item, (fatDirectories vol).find reached name = some item ∧ item.isSubdirectory = false)

/-- The call returns, null exactly when the path is broken, and otherwise the item of the last
part. -/
def ResolvesPath (vol : FatVolume) (path : List PathPart) (h : Heap) : Prop :=
  ∃ o h', fat16GetDirectoryEntry vol path h = some (o, h') ∧ (o = none ↔ PathBroken vol path) ∧
    ∀ f_item, o = some f_item → ∃ item,
      (fatDirectories vol).resolve (rootEntries vol) (partNames path) = some item ∧
        ItemOf vol item f_item

section Resolution

variable {vol : FatVolume} {path : List PathPart} {h : Heap}

/-- Nothing is found exactly where no entry has the name. -/
theorem find_eq_none_iff {entries : List FatDirectoryItem} {name : List (BitVec 8)} :
    (fatDirectories vol).find entries name = none ↔ ∀ item ∈ entries, ¬ HasName name item := by
  simp [fatDirectories]

/-- What is found is an entry with the name. -/
theorem mem_of_find {entries : List FatDirectoryItem} {name : List (BitVec 8)}
    {item : FatDirectoryItem} (hfind : (fatDirectories vol).find entries name = some item) :
    item ∈ entries ∧ HasName name item := by
  have hmem := List.mem_of_getLast? hfind
  simpa using hmem

/-- Where the subdirectories can be read, what cannot be entered is a file. -/
theorem pathBroken_iff (hload : DirectoriesLoad vol (rootEntries vol) (partNames path)) :
    PathBroken vol path ↔
      (fatDirectories vol).Broken (rootEntries vol) (partNames path) := by
  have henter : ∀ reached name rest item,
      (fatDirectories vol).Reaches (rootEntries vol) (partNames path) reached name rest →
      (fatDirectories vol).find reached name = some item →
      ((fatDirectories vol).enter item = none ↔ item.isSubdirectory = false) := by
    intro reached name rest item hreach hfind
    obtain ⟨hmem, hhas⟩ := mem_of_find hfind
    constructor
    · intro hnone
      by_contra hsub
      have hsome := hload reached name rest hreach item hmem hhas (by simpa using hsub)
      rw [show directoryEntries vol item = none from hnone] at hsome
      cases hsome
    · exact directoryEntries_file
  constructor
  · rintro ⟨reached, name, rest, hreach, hnone | ⟨hrest, item, hfind, hfile⟩⟩
    · exact ⟨reached, name, rest, hreach, .inl (find_eq_none_iff.mpr hnone)⟩
    · exact ⟨reached, name, rest, hreach,
        .inr ⟨hrest, item, hfind, (henter _ _ _ _ hreach hfind).mpr hfile⟩⟩
  · rintro ⟨reached, name, rest, hreach, hnone | ⟨hrest, item, hfind, hstop⟩⟩
    · exact ⟨reached, name, rest, hreach, .inl (find_eq_none_iff.mp hnone)⟩
    · exact ⟨reached, name, rest, hreach,
        .inr ⟨hrest, item, hfind, (henter _ _ _ _ hreach hfind).mp hstop⟩⟩

/-- The entries of the root directory come from the disk. -/
theorem fat16Resolve_parsed {disk : Disk} {h₀ h₁ : Heap}
    (hres : fat16Resolve disk h₀ = some (.ok vol, h₁)) :
    ∀ item ∈ vol.root_items, ∃ bytes, item = fatDirectoryItem bytes := by
  obtain ⟨-, -, dir, h₂, h₃, hroot, hitems, -⟩ := fat16Resolve_ok hres
  rw [hitems, (fat16GetRootDirectory_ok hroot).2.2]
  unfold fatDirectoryItems
  simp

theorem liveCount_of_live {items : List FatDirectoryItem}
    (hlive : ∀ item ∈ items, ¬ IsDeleted item) : liveCount items = items.length :=
  List.countP_eq_length.mpr fun item hmem => by simpa using hlive item hmem

/-- In a root directory without deleted entries the entries are those on the disk. -/
theorem rootEntries_eq {disk : Disk} {h₀ h₁ : Heap} {items : List FatDirectoryItem}
    (hres : fat16Resolve disk h₀ = some (.ok vol, h₁))
    (hdir : DirectoryAt disk (512 * vol.header.rootDirSectorPos) items)
    (hlen : items.length ≤ vol.header.root_dir_entries)
    (hlive : ∀ item ∈ items, ¬ IsDeleted item) : rootEntries vol = items := by
  obtain ⟨rfl, hheader, dir, h₂, h₃, hroot, hitems, htotal⟩ := fat16Resolve_ok hres
  rw [← hheader] at hroot
  obtain ⟨hcount, hentries⟩ := fat16GetRootDirectory_some hroot hdir hlen
  rw [liveCount_of_live hlive] at hcount
  unfold rootEntries
  rw [hitems, htotal, hcount]
  apply List.ext_getElem?
  intro i
  by_cases hi : i < items.length
  · rw [List.getElem?_take_of_lt hi]
    exact hentries i hi
  · have hle : (dir.entries.take items.length).length ≤ items.length := List.length_take_le _ _
    rw [List.getElem?_eq_none (by omega), List.getElem?_eq_none (by omega)]

/-- In a subdirectory of one cluster without deleted entries the entries are those on the disk. -/
theorem directoryEntries_eq {item : FatDirectoryItem} {entries items : List FatDirectoryItem}
    {sector : ℕ} (henter : directoryEntries vol item = some entries)
    (hsector : fat16ClusterToSector vol.header (fat16GetFirstCluster item) = some (sector : ℤ))
    (hdir : DirectoryAt vol.disk (512 * sector) items)
    (hlen : sizeofFatDirectoryItem * items.length ≤ vol.header.clusterBytes)
    (hlive : ∀ item ∈ items, ¬ IsDeleted item) : entries = items := by
  obtain ⟨-, sector', total, out, hsector', htotal, hread, rfl⟩ := directoryEntries_some henter
  cases hsector.symm.trans hsector'
  obtain ⟨hlength, hitems⟩ := fatDirectoryItems_read hsector htotal hread hdir hlen
  rw [liveCount_of_live hlive] at hlength
  apply List.ext_getElem?
  intro i
  by_cases hi : i < items.length
  · exact hitems i (by omega)
  · rw [List.getElem?_eq_none (by omega), List.getElem?_eq_none (by omega)]

/-- **Path resolution** on a mounted volume, with memory and with subdirectories that can be read,
is total and exact if and only if a part without an entry is the first or the last one. -/
theorem path_resolution_iff {disk : Disk} {h₀ h₁ : Heap}
    (hres : fat16Resolve disk h₀ = some (.ok vol, h₁)) (hroot : RootScanInside vol)
    (hne : path ≠ []) (hnames : ∀ part ∈ path, 0x00#8 ∉ part.text)
    (hload : DirectoriesLoad vol (rootEntries vol) (partNames path))
    (hmem : PathAllocs vol (fun _ => True) (rootEntries vol) (partNames path) h) :
    ResolvesPath vol path h ↔
      (fatDirectories vol).MissingAtEnds (rootEntries vol) (partNames path) := by
  have hrefines := fat16GetDirectoryEntry_refines hne hroot.total (fat16Resolve_parsed hres) hnames
    hload hmem
  obtain ⟨part, parts, rfl⟩ := List.exists_cons_of_ne_nil hne
  have hcons : partNames (part :: parts) = part.text :: partNames parts := rfl
  have hsome := Directories.lookup_isSome_iff (fatDirectories vol) (rootEntries vol) part.text
    (partNames parts)
  have hbroken := pathBroken_iff hload
  unfold ResolvesPath
  rw [hbroken, hcons, ← hsome]
  rw [hcons] at hrefines
  cases hlookup : (fatDirectories vol).lookup (rootEntries vol) (part.text :: partNames parts) with
  | none =>
    rw [hlookup] at hrefines
    refine iff_of_false ?_ (by simp)
    rintro ⟨o, h', hrun, -⟩
    rw [hrefines] at hrun
    cases hrun
  | some found =>
    rw [hlookup] at hrefines
    obtain ⟨o, h', hrun, hrel, -⟩ := hrefines
    have hresolve := Directories.lookup_eq_resolve hlookup
    refine iff_of_true ⟨o, h', hrun, ?_, ?_⟩ rfl
    · rw [← Directories.resolve_eq_none_iff, ← hresolve]
      cases hrel <;> simp
    · rintro f_item rfl
      cases hrel with
      | some hof => exact ⟨_, hresolve.symm, hof⟩

end Resolution

/-! ## A subdirectory without entries -/

/-- A volume whose root directory holds one entry, that of a subdirectory without entries. -/
def subdirDisk : Disk :=
  Function.update (Function.update (Function.update twoClusterDisk 1536 0x44#8) 1547 0x10#8) 1562
    0x04#8

/-- The entry. -/
def subdirItem : FatDirectoryItem := ⟨[0x44#8, 0, 0, 0, 0, 0, 0, 0], [0, 0, 0], 0x10#8, 0, 4, 0⟩

/-- A part of a path. -/
def onePart (c : BitVec 8) : PathPart := ⟨0#32, 0#32, [c]⟩

theorem fatHeader_subdirDisk : fatHeader subdirDisk = ⟨1, 1, 2, 16, 1⟩ := by decide

theorem directoryAt_subdirDisk : DirectoryAt subdirDisk 1536 [subdirItem] := by
  have hitem : subdirItem = fatDirectoryItem (slice subdirDisk 1536 sizeofFatDirectoryItem) := by
    decide
  rw [hitem]
  exact .entry (by decide) (.done (by decide))

/-- The volume is mounted after the boot. -/
theorem subdirDisk_mounts : ∃ vol h', fat16Resolve subdirDisk bootKernel.heap =
    some (.ok vol, h') ∧ RootScanInside vol ∧ rootEntries vol = [subdirItem] ∧
      directoryEntries vol subdirItem = some [] := by
  have hheader := fatHeader_subdirDisk
  have hcount : fat16GetTotalItemsForDirectory subdirDisk
      (fatHeader subdirDisk).rootDirSectorPos = some 1 := by
    rw [hheader]
    exact @fat16GetTotalItemsForDirectory_used _ 3 1 (by decide) (by decide) (by decide)
  obtain ⟨vol, h', hres, hvol, -⟩ := fat16Resolve_accepts (h := bootKernel.heap) (by decide)
    hcount (by rw [hheader]; decide) (by rw [hheader]; exact resolveAllocs_bootKernel)
  rw [hheader] at hvol
  obtain ⟨hdisk, -⟩ := fat16Resolve_ok hres
  refine ⟨vol, h', hres, (root_scan_iff hres).mpr ⟨1, ?_⟩, ?_, ?_⟩
  · rw [hvol]
    decide
  · refine rootEntries_eq hres ?_ (by simp [hvol]) (by decide)
    rw [hvol]
    exact directoryAt_subdirDisk
  · have htotal : fat16GetTotalItemsForDirectory subdirDisk (6 : ℕ) = some 0 :=
      @fat16GetTotalItemsForDirectory_used _ 6 0 (by decide) (by simp) (by decide)
    have hread := @fat16ReadInternal_first subdirDisk 4 0 0 (by decide) (by rw [hheader]; decide)
      (by rw [hheader]; decide) (by rw [hheader]; decide) (by rw [hheader]; decide)
    rw [hheader] at hread
    unfold directoryEntries
    rw [if_pos (by decide), hvol, hdisk]
    refine Option.bind_eq_some_iff.mpr ⟨((6 : ℕ) : ℤ), by decide, ?_⟩
    refine Option.bind_eq_some_iff.mpr ⟨0, htotal, ?_⟩
    exact Option.bind_eq_some_iff.mpr ⟨_, hread, rfl⟩

section Subdir

variable {vol : FatVolume} {names : List (List (BitVec 8))}

theorem find_subdirItem : (fatDirectories vol).find [subdirItem] [0x64#8] = some subdirItem := by
  show ([subdirItem].filter (HasName [0x64#8])).getLast? = some subdirItem
  decide

/-- Behind a directory without entries no other one is reached. -/
theorem reaches_nil {reached : List FatDirectoryItem} {name : List (BitVec 8)}
    {rest : List (List (BitVec 8))}
    (h : (fatDirectories vol).Reaches [] names reached name rest) : reached = [] := by
  cases h with
  | here => rfl
  | enter hfind _ _ => cases hfind

theorem subdirItem_loads (hsub : directoryEntries vol subdirItem = some []) :
    DirectoriesLoad vol [subdirItem] ([0x64#8] :: names) := by
  intro reached name rest hreach item hmem _ _
  rcases Directories.reaches_cons.mp hreach with ⟨rfl, -, -⟩ | ⟨_, _, hfind, henter, hreach⟩
  · rw [List.mem_singleton.mp hmem, hsub]
    rfl
  · cases find_subdirItem.symm.trans hfind
    cases hsub.symm.trans henter
    rw [reaches_nil hreach] at hmem
    cases hmem

theorem subdirItem_blocks (hsub : directoryEntries vol subdirItem = some []) :
    pathBlocks vol [subdirItem] ([0x64#8] :: names) = 2 := by
  have hfilter : [subdirItem].filter (HasName [0x64#8]) = [subdirItem] := by decide
  have hzero : blocksFor 0#32 = 0 := by decide
  have hitem : itemBlocks vol subdirItem = 2 := by
    unfold itemBlocks
    rw [hsub, Option.elim_some, List.length_nil, Nat.zero_mul, hzero]
  have hnone : ∀ names, walkBlocks vol none names = 0 := by
    intro names
    cases names <;> rfl
  have hwalk : walkBlocks vol (some subdirItem) names = 0 := by
    cases names with
    | nil => rfl
    | cons name names =>
      have hempty : (fatDirectories vol).find [] name = none := rfl
      rw [walkBlocks, Option.bind_some, hsub]
      dsimp only
      rw [hempty, hnone]
      rfl
  rw [pathBlocks, find_subdirItem, hwalk, searchBlocks, hfilter]
  simp [hitem]

/-- A kernel that was just booted has the memory for every path into the subdirectory. -/
theorem subdirItem_allocs (hsub : directoryEntries vol subdirItem = some []) :
    PathAllocs vol (fun _ => True) [subdirItem] ([0x64#8] :: names) bootKernel.heap := by
  have hspare : SpareBlocks bootKernel.heap
      (pathBlocks vol [subdirItem] ([0x64#8] :: names) + 1) := by
    rw [subdirItem_blocks hsub]
    exact packed_bootKernel.spareBlocks (by decide)
  exact hspare.pathAllocs Nat.one_pos (subdirItem_loads hsub) fun _ _ => trivial

end Subdir

/-- A part that is missing in the subdirectory is reported when it is the last one. -/
theorem path_resolution_last : ∃ vol h', fat16Resolve subdirDisk bootKernel.heap =
    some (.ok vol, h') ∧ ResolvesPath vol [onePart 0x64#8, onePart 0x58#8] bootKernel.heap := by
  obtain ⟨vol, h', hres, hroot, hentries, hsub⟩ := subdirDisk_mounts
  refine ⟨vol, h', hres, ?_⟩
  refine (path_resolution_iff hres hroot (by simp) (by simp [onePart]) ?_ ?_).mpr ?_
  · rw [hentries]
    exact subdirItem_loads hsub
  · rw [hentries]
    exact subdirItem_allocs hsub
  · intro reached name rest hreach _
    have := hreach.length_lt
    cases rest with
    | nil => exact .inl rfl
    | cons _ rest =>
      simp only [partNames, List.map_cons, List.map_nil, List.length_cons, List.length_nil] at *
      exact .inr (by omega)

/-- With a further part behind it the null item is read through, with all the memory and every
directory on the way. -/
theorem path_resolution_middle : ∃ vol h', fat16Resolve subdirDisk bootKernel.heap =
    some (.ok vol, h') ∧ RootScanInside vol ∧
      DirectoriesLoad vol (rootEntries vol) [[0x64#8], [0x58#8], [0x59#8]] ∧
      PathAllocs vol (fun _ => True) (rootEntries vol) [[0x64#8], [0x58#8], [0x59#8]]
        bootKernel.heap ∧
      fat16GetDirectoryEntry vol [onePart 0x64#8, onePart 0x58#8, onePart 0x59#8]
        bootKernel.heap = none ∧
      ¬ ResolvesPath vol [onePart 0x64#8, onePart 0x58#8, onePart 0x59#8] bootKernel.heap := by
  obtain ⟨vol, h', hres, hroot, hentries, hsub⟩ := subdirDisk_mounts
  have hload : DirectoriesLoad vol (rootEntries vol) [[0x64#8], [0x58#8], [0x59#8]] := by
    rw [hentries]
    exact subdirItem_loads hsub
  have hmem : PathAllocs vol (fun _ => True) (rootEntries vol) [[0x64#8], [0x58#8], [0x59#8]]
      bootKernel.heap := by
    rw [hentries]
    exact subdirItem_allocs hsub
  have hlookup :
      (fatDirectories vol).lookup [subdirItem] [[0x64#8], [0x58#8], [0x59#8]] = none := by
    have henter : (fatDirectories vol).enter subdirItem = some [] := hsub
    rw [Directories.lookup_of_some find_subdirItem, find_subdirItem, Directories.walk, henter]
    rfl
  have hnames : partNames [onePart 0x64#8, onePart 0x58#8, onePart 0x59#8] =
      [[0x64#8], [0x58#8], [0x59#8]] := rfl
  have hrun := @fat16GetDirectoryEntry_refines vol bootKernel.heap (fun _ => True)
    [onePart 0x64#8, onePart 0x58#8, onePart 0x59#8] (by simp) hroot.total
    (fat16Resolve_parsed hres) (by simp [onePart]) hload hmem
  rw [hnames, hentries, hlookup] at hrun
  refine ⟨vol, h', hres, hroot, hload, hmem, hrun, ?_⟩
  rintro ⟨o, h'', hsome, -⟩
  rw [hrun] at hsome
  cases hsome

end MaerOS.Analysis
