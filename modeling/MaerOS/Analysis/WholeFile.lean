import MaerOS.Analysis.FatPaths
import MaerOS.Analysis.FileReads

/-!
# Reading a file by its path

What a program of the kernel does with a file: open it by its path, ask for its size,
read that many bytes in one item and close it again. The calls rest on every layer below
them: the path parser, the walk through the directories, the descriptor table and the
reader of clusters. A file that begins with the first cluster of its directory entry and
does not need the chain is read as it is on the disk, whatever else is open, and
afterwards the table is as it was. `SpareBlocks` is what the calls need of the heap: two
blocks for each part of the path, those for the directories on the way and four more.
-/

set_option autoImplicit false

namespace MaerOS.Analysis

open MaerOS.Lib MaerOS.Model

/-! ## The parser -/

section Parser

variable {path : List (BitVec 8)} {h : Heap} {n : ℕ}

/-- A part of the path takes two spare blocks. -/
theorem pathparserParsePathPart_spare (htext : partText path ≠ []) (hn : 0 < n)
    (hs : SpareBlocks h (1 + (1 + n))) :
    ∃ part h', pathparserParsePathPart path h = some ((some part, partRest path), h') ∧
      SpareBlocks h' n := by
  obtain ⟨str, h₁, hz₁, hne₁, hs₁⟩ :=
    allocRecord_spare (h := h) (n := 1 + n) (BitVec.ofNat 32 maerosMaxPath) hs (by omega)
  obtain ⟨part, h₂, hz₂, hne₂, hs₂⟩ := allocRecord_spare (h := h₁) (n := n) sizeofPathPart hs₁ hn
  refine ⟨⟨part, str, partText path⟩, h₂, ?_, hs₂⟩
  unfold pathparserParsePathPart
  rw [pathparserGetPathPart_eq, bind_assoc, bind_of_some hz₁, if_neg htext, bind_assoc,
    bind_of_some (writeRecord_ok hne₁ h₁), pure_bind]
  dsimp only
  rw [bind_of_some hz₂, bind_of_some (writeRecord_ok hne₂ h₂)]
  rfl

/-- The end of the path is found with one more spare block. -/
theorem pathparserParsePathPart_stops (htext : partText path = []) (hn : 0 < n)
    (hs : SpareBlocks h (1 + n)) :
    ∃ h', pathparserParsePathPart path h = some ((none, partRest path), h') ∧ SpareBlocks h' n := by
  obtain ⟨str, h₁, hz, -, hs₁⟩ :=
    allocRecord_spare (h := h) (n := n) (BitVec.ofNat 32 maerosMaxPath) hs hn
  refine ⟨heapFree h₁ str, ?_, hs₁.kfree str⟩
  unfold pathparserParsePathPart
  rw [pathparserGetPathPart_eq, bind_assoc, bind_of_some hz, if_pos htext]
  rfl

/-- The loop over the parts takes two blocks for each. -/
theorem pathparserParseParts_spare (fuel : ℕ) : ∀ {path : List (BitVec 8)} {h : Heap},
    0x00#8 ∉ path → path.length < fuel → 0 < n →
      SpareBlocks h (2 * (leading 0x2f#8 path).length + (1 + n)) →
      ∃ parts h', pathparserParseParts fuel path h = some (parts, h') ∧ SpareBlocks h' n := by
  induction fuel with
  | zero => simp
  | succ fuel ih =>
    intro path h hnul hlen hn hs
    rw [leading_partText hnul] at hs
    unfold pathparserParseParts
    split_ifs at hs with htext
    · obtain ⟨h', hpart, hs'⟩ := pathparserParsePathPart_stops htext hn (hs.mono (by simp))
      refine ⟨[], h', ?_, hs'⟩
      rw [bind_of_some hpart]
      rfl
    · rw [List.length_cons] at hs
      obtain ⟨part, h₁, hpart, hs₁⟩ := pathparserParsePathPart_spare (n := 2 *
        (leading 0x2f#8 (partRest path)).length + (1 + n)) htext (by omega) (hs.mono (by omega))
      have hshort := length_partRest htext
      obtain ⟨parts, h', hparts, hs'⟩ := ih (partRest_nul hnul) (by omega) hn hs₁
      refine ⟨part :: parts, h', ?_, hs'⟩
      rw [bind_of_some hpart]
      dsimp only
      rw [bind_of_some hparts]
      rfl

/-- **The parser** on an accepted path. -/
theorem pathparserParse_spare (hnul : 0x00#8 ∉ path) (hacc : PathAccepted path) (hn : 0 < n)
    (hs : SpareBlocks h (2 * (leading 0x2f#8 (path.drop 3)).length + (2 + n))) :
    ∃ root h', pathparserParse path h = some (some root, h') ∧
      root.drive_no = tonumericdigit (firstChar path) ∧
      partTexts root = leading 0x2f#8 (path.drop 3) ∧ SpareBlocks h' n := by
  obtain ⟨p, h₁, hz, hne, hs₁⟩ := allocRecord_spare (h := h)
    (n := 2 * (leading 0x2f#8 (path.drop 3)).length + (1 + n)) sizeofPathRoot
    (hs.mono (by rw [show blocksFor sizeofPathRoot = 1 from rfl]; omega)) (by omega)
  have hroot : pathparserCreateRoot h = some (p, h₁) := by
    unfold pathparserCreateRoot
    rw [bind_of_some hz, bind_of_some (writeRecord_ok hne h₁)]
    rfl
  obtain ⟨parts, h', hparts, hs'⟩ := pathparserParseParts_spare ((path.drop 3).length + 1)
    (fun hmem => hnul (List.mem_of_mem_drop hmem)) (Nat.lt_succ_self _) hn hs₁
  have hrun : pathparserParse path h =
      some (some ⟨p, tonumericdigit (firstChar path), parts⟩, h') := by
    rw [pathparserParse_accepted hacc, bind_of_some hroot, bind_of_some hparts]
    rfl
  obtain ⟨-, hdrive, htexts⟩ := pathparserParse_value hnul hrun
  exact ⟨_, h', hrun, hdrive, htexts, hs'⟩

end Parser

/-! ## A file that can be read whole -/

/-- The path leads to the entry, and the file lies where its first cluster begins. -/
structure FileAt (vol : FatVolume) (names : List (List (BitVec 8))) (entry : FatDirectoryItem)
    (chain : List ℕ) : Prop where
  scan : RootScanInside vol
  loads : DirectoriesLoad vol (rootEntries vol) names
  found : (fatDirectories vol).resolve (rootEntries vol) names = some entry
  regular : entry.isSubdirectory = false
  nonempty : 1 ≤ entry.filesize
  onDisk : Fat16File vol.disk chain entry.filesize
  first : chain.headD 0 = fat16GetFirstCluster entry
  whole : FirstClusterRead vol.disk chain 0 entry.filesize

/-- A descriptor of the file system for the entry. -/
structure OpenOn (entry : FatDirectoryItem) (desc : FatFileDescriptor) : Prop where
  content : ∃ item, desc.item.content = .file item entry ∧ item ≠ 0#32
  start : desc.pos = 0

section Calls

variable {disk : Disk} {vol : FatVolume} {h₀ h₀' : Heap} {names : List (List (BitVec 8))}
  {entry : FatDirectoryItem} {chain : List ℕ}

/-- **`fat16_open`** of the parts of the path. -/
theorem FileAt.open (hfile : FileAt vol names entry chain)
    (hres : fat16Resolve disk h₀ = some (.ok vol, h₀')) {path : List PathPart}
    (hpath : partNames path = names) (hnames : ∀ name ∈ names, 0x00#8 ∉ name) {h : Heap} {n : ℕ}
    (hn : 0 < n) (hs : SpareBlocks h (1 + (pathBlocks vol (rootEntries vol) names + n))) :
    ∃ desc h', fat16Open vol path .read h = some (.ok desc, h') ∧ OpenOn entry desc ∧
      SpareBlocks h' n := by
  have hne : names ≠ [] := by
    rintro rfl
    exact nomatch hfile.found
  obtain ⟨d, h₁, hz, hd, hs₁⟩ := allocRecord_spare (h := h)
    (n := pathBlocks vol (rootEntries vol) names + n) sizeofFatFileDescriptor hs (by omega)
  have hlookup : (fatDirectories vol).lookup (rootEntries vol) (partNames path) =
      some (some entry) := by
    rw [hpath]
    have hfound := hfile.found
    cases names with
    | nil => exact absurd rfl hne
    | cons name rest => exact Directories.lookup_of_resolve hfound
  have hpathne : path ≠ [] := by
    rintro rfl
    exact hne hpath.symm
  have hallocs : PathAllocs vol (fun h' => SpareBlocks h' n) (rootEntries vol) (partNames path) h₁ :=
    SpareBlocks.pathAllocs hn (hpath.symm ▸ hs₁) (hpath.symm ▸ hfile.loads) fun _ hs => hs
  have hspare := fat16GetDirectoryEntry_refines hpathne hfile.scan.total (fat16Resolve_parsed hres)
    (fun part hpart => hnames part.text (hpath ▸ List.mem_map_of_mem hpart))
    (hpath.symm ▸ hfile.loads) hallocs
  rw [hlookup] at hspare
  obtain ⟨o, h', hrun, hrel, hs'⟩ := hspare
  cases hrel with
  | @some _ f_item hof =>
    cases hof with
    | @file addr item_copy hreg hcopy =>
      refine ⟨⟨d, ⟨addr, .file item_copy entry⟩, 0⟩, h', ?_, ⟨⟨item_copy, rfl, hcopy⟩, rfl⟩, hs'⟩
      unfold fat16Open
      rw [if_neg (by decide), bind_of_some hz, if_neg hd, bind_of_some hrun]
      rfl
    | directory hdir =>
      exact absurd (directoryEntries_some hdir).1 (by rw [hfile.regular]; decide)

/-- **`fopen`** of the path. -/
theorem FileAt.fopen (hfile : FileAt vol names entry chain)
    (hres : fat16Resolve disk h₀ = some (.ok vol, h₀'))
    (hnames : ∀ name ∈ names, name ≠ [] ∧ 0x2f#8 ∉ name ∧ 0x00#8 ∉ name)
    (hlen : (printPath 0 names).length ≤ maerosMaxPath) {mode_str : List (BitVec 8)}
    (hmode : firstChar mode_str = 0x72#8) {fs : FileSys} (hvol : fs.filesystem = some vol)
    (hslot : ∃ i < maerosMaxFileDescriptors - 1, fs.file_descriptors i = none)
    (hs : SpareBlocks fs.heap (2 * names.length + (pathBlocks vol (rootEntries vol) names + 5))) :
    ∃ (i : ℕ) (desc : FileDescriptor) (h' : Heap), i < maerosMaxFileDescriptors - 1 ∧
      fs.file_descriptors i = none ∧ desc.index = i + 1 ∧ OpenOn entry desc.priv ∧
      fopen (printPath 0 names) mode_str fs =
        some ((i : ℤ) + 1, FileSys.setDescriptor { fs with heap := h' } i (some desc)) := by
  obtain ⟨j, hj, hfree⟩ := hslot
  have hnul : 0x00#8 ∉ printPath 0 names :=
    printPath_nul (d := 0) (by decide) fun name hname => (hnames name hname).2.2
  have hacc := (printPath_hasDrive (d := 0) (by decide) names).accepted hnul hlen
  have hleading := leading_printPath 0 hnames
  -- the parts of the path take two blocks each, the file system takes those of the directories
  obtain ⟨root, h₁, hparse, hdrive, htexts, hs₁⟩ := pathparserParse_spare
    (n := 1 + (pathBlocks vol (rootEntries vol) names + 2)) hnul hacc (by omega)
    (hs.mono (by rw [hleading]; omega))
  rw [hleading] at htexts
  obtain ⟨priv, h₂, hopen, hon, hs₂⟩ := hfile.open hres (n := 2) htexts
    (fun name hname => (hnames name hname).2.2) (by decide) hs₁
  obtain ⟨p, h₃, hz, hp, -⟩ := allocRecord_spare (h := h₂) (n := 1) sizeofFileDescriptor hs₂
    (by decide)
  have hfirst : root.first.isEmpty = false := by
    cases hf : root.first with
    | nil =>
      unfold partTexts at htexts
      rw [hf, List.map_nil] at htexts
      subst htexts
      exact nomatch hfile.found
    | cons _ _ => rfl
  have hprivate : fopenPrivate (printPath 0 names) mode_str fs =
      some (.ok priv, { fs with heap := h₂ }) := by
    have hread : fileGetModeByString mode_str = .read := by
      unfold fileGetModeByString
      rw [if_pos hmode]
    have hzero : root.drive_no = 0 := by rw [hdrive]; rfl
    unfold fopenPrivate
    rw [bind_onHeap hparse]
    dsimp only
    rw [hfirst, if_neg (by decide), if_neg (not_not.mpr hzero), bind_get]
    dsimp only
    rw [hvol]
    dsimp only
    rw [hread, if_neg (by decide)]
    exact onHeap_some.mpr ⟨h₂, hopen, rfl⟩
  obtain ⟨i, hi, hslot⟩ := fileFreeSlot_of_free { fs with heap := h₂ } (j := j) (by omega) hfree
  refine ⟨i, ⟨p, i + 1, priv⟩, h₃, by omega, (fileFreeSlot_some hslot).2.1, rfl, hon, ?_⟩
  rw [fopen_eq]
  unfold fopenDesc
  rw [bind_of_some hprivate]
  dsimp only
  rw [fileNewDescriptor_of_slot hslot hz hp]
  rfl

/-- **`fread`** of the whole file as one item. -/
theorem FileAt.fread (hfile : FileAt vol names entry chain)
    (hres : fat16Resolve disk h₀ = some (.ok vol, h₀')) {fs : FileSys} {fd : ℤ}
    {desc : FileDescriptor} (hdesc : fileGetDescriptor fs fd = some desc)
    (hvol : fs.filesystem = some vol) (hon : OpenOn entry desc.priv) :
    fread (BitVec.ofNat 32 entry.filesize) 1#32 fd fs =
      some ((1, [fileBytes vol.disk chain 0 entry.filesize]), fs) := by
  obtain ⟨hdisk, hheader, -⟩ := fat16Resolve_ok hres
  obtain ⟨⟨item, hcontent, hitem⟩, hstart⟩ := hon
  have hnonempty := hfile.nonempty
  have hbelow := hfile.whole.below
  have hentry : desc.priv.entry = some entry := by
    unfold FatFileDescriptor.entry
    rw [hcontent]
    exact if_neg hitem
  have hsize : (BitVec.ofNat 32 entry.filesize).toNat = entry.filesize := by
    rw [BitVec.toNat_ofNat]
    omega
  have hne : BitVec.ofNat 32 entry.filesize ≠ 0#32 := by
    intro hzero
    rw [hzero] at hsize
    exact absurd hsize (by simp; omega)
  have hread : fat16ReadInternal vol.disk vol.header (fat16GetFirstCluster entry) 0
      (toInt32 entry.filesize) = some (0, fileBytes vol.disk chain 0 entry.filesize) := by
    obtain ⟨c, cs, rfl⟩ : ∃ c cs, chain = c :: cs := by
      cases hfile.onDisk.ends with
      | last _ => exact ⟨_, _, rfl⟩
      | link _ _ => exact ⟨_, _, rfl⟩
    have hc : 2 ≤ c := (hfile.onDisk.inTable c List.mem_cons_self).1
    have hmost := hfile.whole.most
    rw [hheader, ← hdisk, ← hfile.first, List.headD_cons, toInt32_natCast (by omega),
      fileBytes_first vol.disk c cs (by omega)]
    exact fat16ReadInternal_first vol.disk hc hfile.whole.rootFull hfile.whole.begins hmost
      hfile.whole.below
  rw [← hsize] at hread
  have hitems := fat16ReadItems_succ (n := 0) hread
  have hpos : toInt32 ((0 : ℕ) : ℤ) = 0 := by decide
  rw [fread_eq hdesc hvol hne (by decide), fat16Read_eq hentry, hstart, hpos]
  have hone : (1#32 : BitVec 32).toNat = 0 + 1 := by decide
  have hvalue : toInt32 ((0 + 1 : ℕ) : ℤ) = 1 := by decide
  rw [hone, hitems, hvalue, fat16ReadItems]
  simp only [Option.map_some, if_neg (lt_irrefl _), hsize]

end Calls

/-! ## The file of two letters -/

end MaerOS.Analysis
