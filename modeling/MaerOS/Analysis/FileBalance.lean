import MaerOS.Analysis.FileOwns

/-!
# What opening a file leaves on the heap

`fopen` parses the path into a list of records and never frees it. The root record of a path is
followed through everything that `fopen` and `fclose` do afterwards, on any disk: no pointer
the file layer gets from `kzalloc` from then on is that record, and freeing any of them leaves the
record alone. So an accepted path is never paid back.
-/

set_option autoImplicit false

namespace MaerOS.Analysis

open MaerOS.Lib MaerOS.Model

/-! ## A block that nobody frees -/

/-- Block `r` is taken, and neither a run that ends before it nor the bytes below the table lead a
freeing loop into it. -/
structure Guarded (r : ℕ) (h : Heap) : Prop where
  saddr : h.saddr = 0x01000000#32
  total : h.table.total = 25600
  inTable : r < 25600
  taken : ¬ IsFree h.table.entries r
  before : 1 ≤ r → ¬ HasNext (h.table.entries ((r : ℤ) - 1))
  below : ¬ HasNext (h.table.entries (-2))

/-- The null pointer, or the address of a block other than `r`. -/
def Harmless (r : ℕ) (p : Addr) : Prop := p = 0#32 ∨ ∃ b < 25600, b ≠ r ∧ p = blockAddr b

/-- Marking a run beside the block. -/
theorem Guarded.mark {r s n : ℕ} {h h' : Heap} (hg : Guarded r h)
    (hrw : Rewrites h h' s n (fill runEntry h.table.entries s n)) (hap : r < s ∨ s + n ≤ r) :
    Guarded r h' := by
  refine ⟨hrw.saddr.trans hg.saddr, hrw.total.trans hg.total, hg.inTable, ?_, ?_,
    hrw.below hg.below⟩
  · unfold IsFree
    rw [hrw.entries, fill_outside (by omega)]
    exact hg.taken
  · intro hr
    rw [hrw.entries]
    by_cases hin : (s : ℤ) ≤ (r : ℤ) - 1 ∧ (r : ℤ) - 1 < s + n
    · -- the run ends right before the block
      rw [show (r : ℤ) - 1 = ((s + (r - 1 - s) : ℕ) : ℤ) from by omega, fill_inside (by omega),
        hasNext_runEntry]
      omega
    · rw [fill_outside (by omega)]
      exact hg.before hr

/-- Clearing a run away from the block keeps it guarded. -/
theorem Guarded.wipe {r m : ℕ} {b : ℤ} {h h' : Heap} (hg : Guarded r h)
    (hrw : Rewrites h h' b m (clear heapBlockTableEntryFree h.table.entries b m))
    (hap : (r : ℤ) < b ∨ b + m ≤ r) : Guarded r h' := by
  have hnext : ∀ i, ¬ HasNext (h.table.entries i) → ¬ HasNext (h'.table.entries i) := by
    intro i hi
    rw [hrw.entries]
    by_cases hin : b ≤ i ∧ i < b + m
    · rw [clear_inside hin.1 hin.2]
      exact not_hasNext_free
    · rw [clear_outside (by omega)]
      exact hi
  refine ⟨hrw.saddr.trans hg.saddr, hrw.total.trans hg.total, hg.inTable, ?_,
    fun hr => hnext _ (hg.before hr), hnext _ hg.below⟩
  unfold IsFree
  rw [hrw.entries, clear_outside (by omega)]
  exact hg.taken

/-- **`kzalloc`** does not hand out the block. -/
theorem Guarded.kzalloc {r : ℕ} {h h' : Heap} (hg : Guarded r h) {size : BitVec 32} {p : Addr}
    (hz : h.kzalloc size = some (p, h')) : Harmless r p ∧ Guarded r h' := by
  rcases kzalloc_cases hg.saddr hg.total hz with ⟨rfl, rfl⟩ | ⟨s, hs, rfl, hrw, hfirst, hfree⟩
  · exact ⟨.inl rfl, hg⟩
  · -- neither the start of the run nor the rest of it is the block
    have hout : ∀ j < heapTotalBlocks size, s + j ≠ r := by
      rintro j hj rfl
      exact hg.taken (hfree j hj hg.inTable)
    have hne : s ≠ r := by
      rintro rfl
      exact hg.taken hfirst
    refine ⟨.inr ⟨s, hs, hne, rfl⟩, hg.mark hrw ?_⟩
    by_contra hno
    exact hout (r - s) (by omega) (by omega)

/-- **`kfree`** of any other pointer leaves the block alone. -/
theorem Guarded.kfree {r : ℕ} {h : Heap} (hg : Guarded r h) {p : Addr} (hp : Harmless r p) :
    Guarded r (heapFree h p) := by
  unfold heapFree heapMarkBlocksFree
  rcases hp with rfl | ⟨b, hb, hne, rfl⟩
  · have hblock : heapAddressToBlock h 0#32 = -4096 := by
      unfold heapAddressToBlock
      rw [hg.saddr]
      decide
    rw [hblock]
    obtain ⟨m, -, hrw, hgo, -⟩ :=
      heapMarkBlocksFreeLoop_spec (h.table.total - (-4096 : ℤ)).toNat (-4096) h
    have hm : m ≤ 4095 := by
      by_contra hgt
      exact hg.below (hgo 4094 (by omega))
    exact hg.wipe hrw (.inr (by omega))
  · rw [heapAddressToBlock_blockAddr hg.saddr hb]
    obtain ⟨m, -, hrw, hgo, -⟩ :=
      heapMarkBlocksFreeLoop_spec (h.table.total - (b : ℤ)).toNat b h
    refine hg.wipe hrw ?_
    by_contra hno
    -- the loop would have gone on from the entry before the block
    have hlast := hgo (r - 1 - b) (by omega)
    rw [show (b : ℤ) + ((r - 1 - b : ℕ) : ℤ) = (r : ℤ) - 1 from by omega] at hlast
    exact hg.before (by omega) hlast

theorem HeapOwns.guarded {h : Heap} {p : Addr} {rs : List (Addr × ℕ)}
    (ho : HeapOwns h ((p, 1) :: rs)) : Guarded (pageOf p - 4096) h := by
  have hin : 1 ≤ 1 ∧ pageOf p + 1 ≤ 29696 := ho.inside List.mem_cons_self
  have habove : 4096 ≤ pageOf p := ho.above _ List.mem_cons_self
  refine ⟨ho.saddr, ho.total, by omega, ?_, ?_, ho.below⟩
  · exact ho.not_isFree List.mem_cons_self ⟨by dsimp only; omega, by dsimp only; omega⟩
  · intro hr hnext
    rw [show ((pageOf p - 4096 : ℕ) : ℤ) - 1 = ((pageOf p - 4096 - 1 : ℕ) : ℤ) from by omega] at hnext
    have hl := ho.layout
    rw [List.map_cons] at hl
    by_cases hcov : ∃ run ∈ blockRun (p, 1) :: rs.map blockRun, Covers run (pageOf p - 4096 - 1)
    · obtain ⟨run, hrun, hc⟩ := hcov
      rw [hl.covered hrun hc, hasNext_runEntry] at hnext
      unfold Covers at hc
      rcases List.mem_cons.mp hrun with rfl | hrun
      · unfold blockRun at hc
        dsimp only at hc
        omega
      · have hap := (List.pairwise_cons.mp hl.apart).1 run hrun
        unfold Apart blockRun at hap
        dsimp only at hap
        omega
    · rw [hl.rest _ (by rw [ho.total]; omega) fun run hrun hc => hcov ⟨run, hrun, hc⟩] at hnext
      exact not_hasNext_free hnext

/-! ## The file layer and the guarded block -/

section Guard

variable {r : ℕ}

/-- What a directory pointer leads to is harmless. -/
def DirectoryHarmless (r : ℕ) : FatDirectoryPtr → Prop
  | .null => True
  | .dangling => True
  | .loaded addr item _ => Harmless r addr ∧ Harmless r item

/-- What an item holds is harmless. -/
def ContentHarmless (r : ℕ) : FatItemContent → Prop
  | .file item _ => Harmless r item
  | .directory directory => DirectoryHarmless r directory

/-- All pointers of an item are harmless. -/
def ItemHarmless (r : ℕ) (item : FatItem) : Prop :=
  Harmless r item.addr ∧ ContentHarmless r item.content

/-- All pointers of an open file are harmless. -/
def FatFileHarmless (r : ℕ) (desc : FatFileDescriptor) : Prop :=
  Harmless r desc.addr ∧ ItemHarmless r desc.item

theorem allocRecord_guarded (size : BitVec 32) :
    Triple (Guarded r) (allocRecord size) fun p h => Harmless r p ∧ Guarded r h :=
  fun _ hg _ _ hrun => hg.kzalloc hrun

theorem freeRecord_guarded {p : Addr} (hp : Harmless r p) :
    Triple (Guarded r) (freeRecord p) fun _ => Guarded r := by
  intro h hg u h' hrun
  cases hrun
  exact hg.kfree hp

/-- Parsing a part of the path. -/
theorem pathparserParsePathPart_guarded (path : List (BitVec 8)) :
    Triple (Guarded r) (pathparserParsePathPart path) fun _ => Guarded r := by
  refine Triple.bind (Q := fun _ => Guarded r) ?_ ?_
  · refine (allocRecord_guarded _).bind_fact fun p hp => ?_
    refine Triple.ite (fun _ => ?_) fun _ => ?_
    · exact (freeRecord_guarded hp).bind fun _ => Triple.pure fun _ hg => hg
    · exact (writeRecord_keeps p).bind fun _ => Triple.pure fun _ hg => hg
  · rintro ⟨str, rest⟩
    cases str with
    | none => exact Triple.pure fun _ hg => hg
    | some str =>
      refine (allocRecord_guarded _).bind_fact fun p _ => ?_
      exact (writeRecord_keeps p).bind fun _ => Triple.pure fun _ hg => hg

theorem pathparserParseParts_guarded (fuel : ℕ) : ∀ path : List (BitVec 8),
    Triple (Guarded r) (pathparserParseParts fuel path) fun _ => Guarded r := by
  induction fuel with
  | zero =>
    intro path
    exact Triple.failure
  | succ fuel ih =>
    intro path
    refine (pathparserParsePathPart_guarded path).bind ?_
    rintro ⟨part, rest⟩
    cases part with
    | none => exact Triple.pure fun _ hg => hg
    | some part => exact (ih rest).bind fun _ => Triple.pure fun _ hg => hg

/-- Releasing a directory keeps the block guarded. -/
theorem fat16FreeDirectory_guarded {directory : FatDirectoryPtr}
    (hd : DirectoryHarmless r directory) :
    Triple (Guarded r) (fat16FreeDirectory directory) fun _ => Guarded r := by
  cases directory with
  | null => exact Triple.pure fun _ hg => hg
  | dangling => exact Triple.failure
  | loaded addr item entries =>
    refine Triple.bind (Q := fun _ => Guarded r) ?_ fun _ => freeRecord_guarded hd.1
    exact Triple.ite (fun _ => Triple.pure fun _ hg => hg) fun _ => freeRecord_guarded hd.2

theorem fat16FatItemFree_guarded {item : FatItem} (hi : ItemHarmless r item) :
    Triple (Guarded r) (fat16FatItemFree item) fun _ => Guarded r := by
  obtain ⟨addr, content⟩ := item
  obtain ⟨haddr, hcontent⟩ := hi
  cases content with
  | file entry _ =>
    exact (freeRecord_guarded hcontent).bind fun _ => freeRecord_guarded haddr
  | directory directory =>
    exact (fat16FreeDirectory_guarded hcontent).bind fun _ => freeRecord_guarded haddr

/-- Loading a directory keeps the block guarded. -/
theorem fat16LoadFatDirectory_guarded (vol : FatVolume) (item : FatDirectoryItem) :
    Triple (Guarded r) (fat16LoadFatDirectory vol item) fun d h =>
      DirectoryHarmless r d ∧ Guarded r h := by
  refine Triple.ite (fun _ => Triple.pure fun _ hg => ⟨trivial, hg⟩) fun _ => ?_
  refine (allocRecord_guarded _).bind_fact fun dir hdir => ?_
  refine Triple.ite (fun _ => Triple.pure fun _ hg => ⟨trivial, hg⟩) fun _ => ?_
  refine (offDisk_keeps _).bind fun sector => (offDisk_keeps _).bind fun total => ?_
  refine (allocRecord_guarded _).bind_fact fun buf hbuf => ?_
  refine Triple.ite (fun _ => ?_) fun _ => (offDisk_keeps _).bind ?_
  · exact (freeRecord_guarded hdir).bind fun _ => Triple.pure fun _ hg => ⟨trivial, hg⟩
  · rintro ⟨res, out⟩
    refine Triple.ite (fun _ => ?_) fun _ => Triple.pure fun _ hg => ⟨⟨hdir, hbuf⟩, hg⟩
    exact (freeRecord_guarded hbuf).bind fun _ => (freeRecord_guarded hdir).bind fun _ =>
      Triple.pure fun _ hg => ⟨trivial, hg⟩

/-- Making an item keeps the block guarded. -/
theorem fat16NewFatItemForDirectoryItem_guarded (vol : FatVolume) (item : FatDirectoryItem) :
    Triple (Guarded r) (fat16NewFatItemForDirectoryItem vol item) fun o h =>
      (∀ i ∈ o, ItemHarmless r i) ∧ Guarded r h := by
  refine (allocRecord_guarded _).bind_fact fun p hp => ?_
  refine Triple.ite (fun _ => Triple.pure fun _ hg => ⟨by simp, hg⟩) fun _ => ?_
  refine Triple.ite (fun _ => ?_) fun _ => ?_
  · refine (fat16LoadFatDirectory_guarded vol item).bind_fact fun d hd => ?_
    refine Triple.pure fun _ hg => ⟨?_, hg⟩
    rintro i ⟨⟩
    exact ⟨hp, hd⟩
  · refine (allocRecord_guarded _).bind_fact fun e he => ?_
    refine Triple.pure fun _ hg => ⟨?_, hg⟩
    rintro i ⟨⟩
    exact ⟨hp, he⟩

/-- The search in a directory keeps the block guarded. -/
theorem fat16FindItemInDirectory_guarded (vol : FatVolume) (entries : List FatDirectoryItem)
    (total : ℕ) (name : List (BitVec 8)) :
    Triple (Guarded r) (fat16FindItemInDirectory vol entries total name) fun o h =>
      (∀ i ∈ o, ItemHarmless r i) ∧ Guarded r h := by
  refine (Triple.foldlM (Q := fun o h => (∀ i ∈ o, ItemHarmless r i) ∧ Guarded r h)
    _ ?_ none).conseq (fun _ hg => ⟨by simp, hg⟩) fun _ _ hq => hq
  intro o i _
  unfold fat16FindItemRound
  split
  · exact Triple.failure
  · refine Triple.ite (fun _ => ?_) fun _ => Triple.pure fun _ hq => hq
    exact (fat16NewFatItemForDirectoryItem_guarded vol _).conseq (fun _ hq => hq.2) fun _ _ hq => hq

/-- The walk along the parts keeps the block guarded, one part at a time. -/
theorem fat16WalkParts_guarded (vol : FatVolume) : ∀ (parts : List PathPart) (o : Option FatItem),
    (∀ i ∈ o, ItemHarmless r i) →
    Triple (Guarded r) (fat16WalkParts vol parts o) fun o' h =>
      (∀ i ∈ o', ItemHarmless r i) ∧ Guarded r h := by
  intro parts
  induction parts with
  | nil =>
    intro o ho
    exact Triple.pure fun _ hg => ⟨ho, hg⟩
  | cons part parts ih =>
    intro o ho
    unfold fat16WalkParts
    split
    · exact Triple.failure
    · exact Triple.pure fun _ hg => ⟨by simp, hg⟩
    · exact Triple.failure
    · exact Triple.failure
    · refine (fat16FindItemInDirectory_guarded vol _ _ _).bind_fact fun tmp htmp => ?_
      exact (fat16FatItemFree_guarded (ho _ rfl)).bind fun _ => ih tmp htmp

/-- Resolving a path keeps the block guarded. -/
theorem fat16GetDirectoryEntry_guarded (vol : FatVolume) (path : List PathPart) :
    Triple (Guarded r) (fat16GetDirectoryEntry vol path) fun o h =>
      (∀ i ∈ o, ItemHarmless r i) ∧ Guarded r h := by
  cases path with
  | nil => exact Triple.failure
  | cons part parts =>
    refine (fat16FindItemInDirectory_guarded vol _ _ _).bind_fact fun o ho => ?_
    cases o with
    | none => exact Triple.pure fun _ hg => ⟨by simp, hg⟩
    | some item => exact fat16WalkParts_guarded vol parts _ ho

/-- What `fat16_open` returns: a harmless open file or a negative error. -/
def FatOpenResult (r : ℕ) : Except ℤ FatFileDescriptor → Prop
  | .error res => res < 0
  | .ok desc => FatFileHarmless r desc

/-- Opening. -/
theorem fat16Open_guarded (vol : FatVolume) (path : List PathPart) (mode : FileMode) :
    Triple (Guarded r) (fat16Open vol path mode) fun res h => FatOpenResult r res ∧ Guarded r h := by
  have herror : ∀ res : ℤ, res < 0 →
      Triple (Guarded r) (pure (.error res)) fun res h => FatOpenResult r res ∧ Guarded r h :=
    fun res hneg => Triple.pure fun _ hg => ⟨hneg, hg⟩
  refine Triple.ite (fun _ => herror _ (by decide)) fun _ => ?_
  refine (allocRecord_guarded _).bind_fact fun p hp => ?_
  refine Triple.ite (fun _ => herror _ (by decide)) fun _ => ?_
  refine (fat16GetDirectoryEntry_guarded vol path).bind_fact fun o ho => ?_
  cases o with
  | none => exact (freeRecord_guarded hp).bind fun _ => herror _ (by decide)
  | some item => exact Triple.pure fun _ hg => ⟨⟨hp, ho item rfl⟩, hg⟩

theorem fat16Close_guarded {desc : FatFileDescriptor} (hd : FatFileHarmless r desc) :
    Triple (Guarded r) (fat16Close desc) fun _ => Guarded r :=
  (fat16FatItemFree_guarded hd.2).bind fun _ => (freeRecord_guarded hd.1).bind fun _ =>
    Triple.pure fun _ hg => hg

end Guard

/-! ## Accepted paths -/

/-- The path is not too long and starts with a drive. -/
def PathAccepted (path : List (BitVec 8)) : Prop :=
  strlen path ≤ maerosMaxPath ∧ pathparserPathValidFormat path = true

instance (path : List (BitVec 8)) : Decidable (PathAccepted path) :=
  inferInstanceAs (Decidable (_ ∧ _))

/-- A path that is not accepted costs nothing. -/
theorem pathparserParse_refused {path : List (BitVec 8)} (hno : ¬ PathAccepted path) (h : Heap) :
    pathparserParse path h = some (none, h) := by
  unfold pathparserParse
  by_cases hlen : strlen path > maerosMaxPath
  · rw [if_pos hlen]
    rfl
  · have hfmt : ¬ pathparserPathValidFormat path = true := fun hv => hno ⟨not_lt.mp hlen, hv⟩
    unfold pathparserGetDriveByPath
    rw [if_neg hlen, if_neg hfmt]
    rfl

theorem drive_nonneg {path : List (BitVec 8)} (hv : pathparserPathValidFormat path = true) :
    0 ≤ tonumericdigit (firstChar path) := by
  unfold pathparserPathValidFormat isdigit at hv
  simp only [Bool.and_eq_true, decide_eq_true_eq] at hv
  unfold tonumericdigit
  omega

/-- Parsing an accepted path takes a block that was free and that stays guarded. -/
theorem pathparserParse_guarded {path : List (BitVec 8)} (hacc : PathAccepted path)
    {h h' : Heap} {rs : List (Addr × ℕ)} (ho : HeapOwns h rs) {root : Option PathRoot}
    (hrun : pathparserParse path h = some (root, h')) :
    ∃ r, IsFree h.table.entries r ∧ Guarded r h' := by
  obtain ⟨hlen, hv⟩ := hacc
  unfold pathparserParse pathparserGetDriveByPath at hrun
  rw [if_neg (not_lt.mpr hlen), if_pos hv] at hrun
  dsimp only at hrun
  rw [if_neg (not_lt.mpr (drive_nonneg hv))] at hrun
  obtain ⟨p, h₁, hroot, hrun⟩ := prog_bind.mp hrun
  obtain ⟨parts, h₂, hparts, hrun⟩ := prog_bind.mp hrun
  obtain ⟨-, rfl⟩ := prog_pure.mp hrun
  obtain ⟨q, h₃, hz, hinit⟩ := prog_bind.mp hroot
  obtain ⟨u, h₄, hw, hret⟩ := prog_bind.mp hinit
  obtain ⟨hne, rfl⟩ := writeRecord_some.mp hw
  obtain ⟨rfl, rfl⟩ := prog_pure.mp hret
  rcases ho.kzalloc (by decide) hz with ⟨h0, -, -⟩ | ⟨-, ho₁⟩
  · exact absurd h0 hne
  · rw [show blocksFor sizeofPathRoot = 1 from by decide] at ho₁
    have hin : 1 ≤ 1 ∧ pageOf q + 1 ≤ 29696 := ho₁.inside List.mem_cons_self
    have habove : 4096 ≤ pageOf q := ho₁.above _ List.mem_cons_self
    refine ⟨pageOf q - 4096, ?_, pathparserParseParts_guarded _ _ _ ho₁.guarded _ _ hparts⟩
    refine ho.isFree (by omega) fun r hr => ho₁.apart_cons hr ?_
    exact ⟨by dsimp only; omega, by dsimp only; omega⟩

/-- Opening an accepted path, up to the file system's descriptor. -/
theorem fopenPrivate_guarded {filename mode_str : List (BitVec 8)} (hacc : PathAccepted filename)
    {fs fs' : FileSys} {rs : List (Addr × ℕ)} (ho : HeapOwns fs.heap rs)
    {res : Except ℤ FatFileDescriptor} (hrun : fopenPrivate filename mode_str fs = some (res, fs')) :
    ∃ r, IsFree fs.heap.table.entries r ∧ FatOpenResult r res ∧ Guarded r fs'.heap := by
  obtain ⟨root, h₁, hparse, hopen⟩ := fopenPrivate_cases hrun
  obtain ⟨r, hfree, hg⟩ := pathparserParse_guarded hacc ho hparse
  rcases hopen with ⟨err, hneg, rfl, rfl⟩ | ⟨root', vol, mode, h₂, -, -, hopen, rfl⟩
  · exact ⟨r, hfree, hneg, hg⟩
  · exact ⟨r, hfree, fat16Open_guarded _ _ _ _ hg _ _ hopen⟩

/-! ## The balance -/

/-- The live blocks of the heap and the descriptor table are the same. -/
def SameHolding (fs fs' : FileSys) : Prop :=
  liveBlocks fs'.heap = liveBlocks fs.heap ∧ fs'.file_descriptors = fs.file_descriptors

/-- An `fopen` that returned `fd` is paid back: at once if it failed, and by `fclose` otherwise. -/
def OpenBalanced (fs : FileSys) (fd : ℤ) (fs' : FileSys) : Prop :=
  (fd = 0 → SameHolding fs fs') ∧
    (0 < fd → ∃ res fs'', fclose fd fs' = some (res, fs'') ∧ SameHolding fs fs'')

/-- A guarded block that was free before shows in the live blocks. -/
theorem Guarded.not_sameHolding {r : ℕ} {fs fs' : FileSys} (hfree : IsFree fs.heap.table.entries r)
    (hg : Guarded r fs'.heap) : ¬ SameHolding fs fs' := by
  rintro ⟨hlive, -⟩
  have hmem : r ∈ liveBlocks fs'.heap := ⟨by rw [hg.total]; exact hg.inTable, hg.taken⟩
  rw [hlive] at hmem
  exact hmem.2 hfree

/-- Closing the descriptor that `file_new_descriptor` has just made leaves the block guarded. -/
theorem fclose_guarded {r : ℕ} {priv : FatFileDescriptor} (hpriv : FatFileHarmless r priv)
    {fs fs₁ fs' : FileSys} (hg : Guarded r fs.heap) {desc : FileDescriptor}
    (hnew : fileNewDescriptor priv fs = some (.ok desc, fs₁)) {res : ℤ}
    (hclose : fclose desc.index fs₁ = some (res, fs')) : Guarded r fs'.heap := by
  rcases fileNewDescriptor_cases hnew with ⟨-, hres, -⟩ | ⟨i, p, h₁, -, hz, -, hres, rfl⟩
  · cases hres
  · cases hres
    obtain ⟨hp, hg₁⟩ := hg.kzalloc hz
    rcases fclose_cases hclose with ⟨-, -, rfl⟩ | ⟨desc, h₂, hget, hfat, -, rfl⟩
    · exact hg₁
    · -- the descriptor found in the table is the new one
      have hdesc : desc = ⟨p, i + 1, priv⟩ := by
        unfold fileGetDescriptor at hget
        split at hget
        · cases hget
        · rw [show ((i : ℤ) + 1 - 1).toNat = i from by omega] at hget
          rw [setDescriptor_self] at hget
          exact (Option.some.inj hget).symm
      subst hdesc
      exact (fat16Close_guarded hpriv _ hg₁ _ _ hfat).kfree hp

/-- **When `fopen` is paid back**: on every disk, for every path and mode, exactly when the path
is not accepted at all. -/
theorem fopen_balanced_iff {fs fs' : FileSys} {rs : List (Addr × ℕ)} (ho : HeapOwns fs.heap rs)
    (filename mode_str : List (BitVec 8)) {fd : ℤ}
    (hrun : fopen filename mode_str fs = some (fd, fs')) :
    OpenBalanced fs fd fs' ↔ ¬ PathAccepted filename := by
  rw [fopen_eq, Option.map_eq_some_iff] at hrun
  obtain ⟨⟨res, fs₁⟩, hdesc, heq⟩ := hrun
  cases heq
  by_cases hacc : PathAccepted filename
  · refine iff_of_false ?_ (not_not.mpr hacc)
    rintro ⟨hfail, hopen⟩
    rcases fopenDesc_cases hdesc with ⟨err, hpriv, rfl⟩ | ⟨priv, fs₂, hpriv, hnew⟩
    · obtain ⟨r, hfree, hneg, hg⟩ := fopenPrivate_guarded hacc ho hpriv
      exact hg.not_sameHolding hfree (hfail (fopenValue_error hneg))
    · obtain ⟨r, hfree, hharmless, hg⟩ := fopenPrivate_guarded hacc ho hpriv
      rcases fileNewDescriptor_cases hnew with ⟨-, rfl, rfl⟩ | ⟨i, p, h₁, -, hz, -, rfl, rfl⟩
      · exact hg.not_sameHolding hfree (hfail (fopenValue_error (by decide)))
      · obtain ⟨cres, fs₃, hclose, hsame⟩ := hopen (by unfold fopenValue; dsimp only; omega)
        exact (fclose_guarded hharmless hg hnew hclose).not_sameHolding hfree hsame
  · refine iff_of_true ?_ hacc
    have hpriv : fopenPrivate filename mode_str fs = some (.error (-einvarg), fs) := by
      unfold fopenPrivate
      rw [bind_onHeap (pathparserParse_refused hacc fs.heap)]
      rfl
    rcases fopenDesc_cases hdesc with ⟨err, hpriv', rfl⟩ | ⟨priv, fs₂, hpriv', -⟩
    · rw [hpriv] at hpriv'
      cases hpriv'
      refine ⟨fun _ => ⟨rfl, rfl⟩, fun hpos => ?_⟩
      rw [fopenValue_error (by decide)] at hpos
      exact absurd hpos (lt_irrefl 0)
    · rw [hpriv] at hpriv'
      cases hpriv'

/-! ## A volume with one file -/

/-- A volume of one sector per cluster with the file `A` in its root directory. -/
def oneFileDisk : Disk := fun i =>
  if 1537 ≤ i ∧ i ≤ 1546 then 0x20#8
  else (([(12, 0x02#8), (13, 0x01#8), (14, 0x01#8), (16, 0x02#8), (17, 0x10#8), (22, 0x01#8),
    (38, 0x29#8), (516, 0xff#8), (517, 0xff#8), (1536, 0x41#8), (1562, 0x02#8),
    (1564, 0x0a#8)] : List (ℕ × BitVec 8)).lookup i).getD 0x00#8

/-- The entry of the file. -/
def oneFileItem : FatDirectoryItem :=
  { filename := [0x41#8, 0x20#8, 0x20#8, 0x20#8, 0x20#8, 0x20#8, 0x20#8, 0x20#8]
    ext := [0x20#8, 0x20#8, 0x20#8]
    attr := 0x00#8
    high_16_bits_first_cluster := 0
    low_16_bits_first_cluster := 2
    filesize := 10 }

/-- What the driver finds on the volume. -/
def oneFileVolume : FatVolume :=
  { disk := oneFileDisk
    header := fatHeader oneFileDisk
    root_items := fatDirectoryItems (slice oneFileDisk 1536 512) 16
    root_total := 1 }

/-- The file is the first entry of the root directory. -/
theorem oneFileVolume_root : oneFileVolume.root_items[0]? = some oneFileItem := by
  decide +kernel

/-- The path `0:/A`. -/
def oneFilePath : List (BitVec 8) := [0x30#8, 0x3a#8, 0x2f#8, 0x41#8]

/-- The mode `r`. -/
def readMode : List (BitVec 8) := [0x72#8]

/-- A record of at most a block, from a packed heap. -/
theorem Packed.allocRecord {h : Heap} {s : ℕ} (hp : Packed h s) {size : BitVec 32}
    (hsize : 1 ≤ size.toNat) (hone : blocksFor size = 1) (hfit : s < 25600) :
    ∃ h', Model.allocRecord size h = some (blockAddr s, h') ∧ Packed h' (s + 1) := by
  obtain ⟨h', hz, hp'⟩ := hp.kzalloc size hsize (by rw [hone]; exact hfit)
  rw [hone] at hp'
  exact ⟨h', hz, hp'⟩

/-- Parsing the path takes three blocks and gives a fourth one back. -/
theorem Packed.parse_oneFilePath {h : Heap} {s : ℕ} (hp : Packed h s) (hfit : s + 4 ≤ 25600) :
    ∃ root h', pathparserParse oneFilePath h = some (some root, h') ∧ root.drive_no = 0 ∧
      root.first.map PathPart.text = [[0x41#8]] ∧ Packed h' (s + 3) := by
  obtain ⟨h₁, hz₁, hp₁⟩ := hp.allocRecord (by decide) (by decide : blocksFor sizeofPathRoot = 1)
    (by omega)
  obtain ⟨h₂, hz₂, hp₂⟩ := hp₁.allocRecord (by decide)
    (by decide : blocksFor (BitVec.ofNat 32 maerosMaxPath) = 1) (by omega)
  obtain ⟨h₃, hz₃, hp₃⟩ := hp₂.allocRecord (by decide) (by decide : blocksFor sizeofPathPart = 1)
    (by omega)
  obtain ⟨h₄, hz₄, -⟩ := hp₃.allocRecord (by decide)
    (by decide : blocksFor (BitVec.ofNat 32 maerosMaxPath) = 1) (by omega)
  have hback : Packed (heapFree h₄ (blockAddr (s + 3))) (s + 3) :=
    hp₃.kzalloc_kfree (by decide) (by omega) hz₄
  have hwrite : ∀ (b : ℕ) (h : Heap), b < 25600 → writeRecord (blockAddr b) h = some ((), h) :=
    fun b h hb => writeRecord_some.mpr ⟨blockAddr_ne_zero hb, rfl⟩
  have hroot : pathparserCreateRoot h = some (blockAddr s, h₁) :=
    prog_bind.mpr ⟨_, _, hz₁, prog_bind.mpr ⟨(), _, hwrite s h₁ (by omega), rfl⟩⟩
  have hpart : pathparserParsePathPart [0x41#8] h₁ =
      some ((some ⟨blockAddr (s + 2), blockAddr (s + 1), [0x41#8]⟩, []), h₃) :=
    prog_bind.mpr ⟨(some (blockAddr (s + 1), [0x41#8]), []), h₂,
      prog_bind.mpr ⟨_, _, hz₂, prog_bind.mpr ⟨(), _, hwrite (s + 1) h₂ (by omega), rfl⟩⟩,
      prog_bind.mpr ⟨_, _, hz₃, prog_bind.mpr ⟨(), _, hwrite (s + 2) h₃ (by omega), rfl⟩⟩⟩
  have hend : pathparserParsePathPart [] h₃ =
      some ((none, []), heapFree h₄ (blockAddr (s + 3))) :=
    prog_bind.mpr ⟨_, _, prog_bind.mpr ⟨_, _, hz₄, prog_bind.mpr ⟨(), _, rfl, rfl⟩⟩, rfl⟩
  refine ⟨⟨blockAddr s, 0, [⟨blockAddr (s + 2), blockAddr (s + 1), [0x41#8]⟩]⟩, _, ?_, rfl, rfl,
    hback⟩
  unfold pathparserParse
  rw [if_neg (by decide)]
  exact prog_bind.mpr ⟨_, _, hroot, prog_bind.mpr ⟨_, _, prog_bind.mpr ⟨_, _, hpart,
    prog_bind.mpr ⟨[], _, prog_bind.mpr ⟨_, _, hend, rfl⟩, rfl⟩⟩, rfl⟩⟩

/-- The item of a file takes two blocks. -/
theorem Packed.newFileItem {h : Heap} {s : ℕ} (hp : Packed h s) (hfit : s + 2 ≤ 25600)
    (vol : FatVolume) {item : FatDirectoryItem} (hfile : item.isSubdirectory = false) :
    ∃ h', fat16NewFatItemForDirectoryItem vol item h =
        some (some ⟨blockAddr s, .file (blockAddr (s + 1)) item⟩, h') ∧ Packed h' (s + 2) := by
  obtain ⟨h₁, hz₁, hp₁⟩ := hp.allocRecord (by decide) (by decide : blocksFor sizeofFatItem = 1)
    (by omega)
  obtain ⟨h₂, hz₂, hp₂⟩ := hp₁.allocRecord (by decide)
    (by decide : blocksFor (BitVec.ofNat 32 sizeofFatDirectoryItem) = 1) (by omega)
  have hsub : ¬ item.isSubdirectory = true := by simp [hfile]
  refine ⟨h₂, ?_, hp₂⟩
  unfold fat16NewFatItemForDirectoryItem
  rw [bind_of_some hz₁, if_neg (blockAddr_ne_zero (by omega)), if_neg hsub, bind_of_some hz₂]
  rfl

/-- Opening the one file takes three blocks. -/
theorem Packed.open_oneFile {h : Heap} {s : ℕ} (hp : Packed h s) (hfit : s + 3 ≤ 25600)
    {parts : List PathPart} (hparts : parts.map PathPart.text = [[0x41#8]]) :
    ∃ h', fat16Open oneFileVolume parts .read h = some (.ok ⟨blockAddr s,
        ⟨blockAddr (s + 1), .file (blockAddr (s + 2)) oneFileItem⟩, 0⟩, h') ∧ Packed h' (s + 3) := by
  obtain ⟨part, rfl, htext⟩ := List.map_eq_singleton_iff.mp hparts
  obtain ⟨h₁, hz₁, hp₁⟩ := hp.allocRecord (by decide)
    (by decide : blocksFor sizeofFatFileDescriptor = 1) (by omega)
  obtain ⟨h₃, hnew, hp₃⟩ := hp₁.newFileItem (by omega) oneFileVolume
    (by decide : oneFileItem.isSubdirectory = false)
  have hround : fat16FindItemRound oneFileVolume oneFileVolume.root_items [0x41#8] none 0 h₁ =
      some (some ⟨blockAddr (s + 1), .file (blockAddr (s + 2)) oneFileItem⟩, h₃) := by
    unfold fat16FindItemRound
    rw [oneFileVolume_root]
    dsimp only
    rw [if_pos (by decide)]
    exact hnew
  have hfind : fat16FindItemInDirectory oneFileVolume oneFileVolume.root_items 1 [0x41#8] h₁ =
      some (some ⟨blockAddr (s + 1), .file (blockAddr (s + 2)) oneFileItem⟩, h₃) :=
    prog_bind.mpr ⟨_, _, hround, rfl⟩
  have hentry : fat16GetDirectoryEntry oneFileVolume [part] h₁ =
      some (some ⟨blockAddr (s + 1), .file (blockAddr (s + 2)) oneFileItem⟩, h₃) := by
    unfold fat16GetDirectoryEntry
    dsimp only
    rw [htext]
    exact prog_bind.mpr ⟨_, _, hfind, rfl⟩
  refine ⟨h₃, ?_, hp₃⟩
  unfold fat16Open
  rw [if_neg (by decide), bind_of_some hz₁, if_neg (blockAddr_ne_zero (by omega)),
    bind_of_some hentry]
  rfl

/-- **One more open file** on a packed heap: seven blocks, the first free slot. -/
theorem Packed.fopen_oneFile {fs : FileSys} {s : ℕ} (hp : Packed fs.heap s) (hfit : s + 7 ≤ 25600)
    (hvol : fs.filesystem = some oneFileVolume) :
    ∃ priv h₁ p h₂, fopenPrivate oneFilePath readMode fs = some (.ok priv, { fs with heap := h₁ }) ∧
      (∃ item, priv.item.content = .file item oneFileItem ∧ item ≠ 0#32) ∧
      h₁.kzalloc sizeofFileDescriptor = some (p, h₂) ∧ p ≠ 0#32 ∧ Packed h₂ (s + 7) := by
  obtain ⟨root, h₁, hparse, hdrive, hparts, hp₁⟩ := hp.parse_oneFilePath (by omega)
  obtain ⟨h₂, hopen, hp₂⟩ := hp₁.open_oneFile (by omega) hparts
  obtain ⟨h₃, hz, hp₃⟩ := hp₂.allocRecord (by decide)
    (by decide : blocksFor sizeofFileDescriptor = 1) (by omega)
  refine ⟨⟨blockAddr (s + 3), ⟨blockAddr (s + 3 + 1), .file (blockAddr (s + 3 + 2)) oneFileItem⟩, 0⟩,
    h₂, _, h₃, ?_, ⟨_, rfl, blockAddr_ne_zero (by omega)⟩, hz, blockAddr_ne_zero (by omega), hp₃⟩
  have hfirst : root.first.isEmpty = false := by
    cases hf : root.first with
    | nil =>
      rw [hf] at hparts
      cases hparts
    | cons _ _ => rfl
  unfold fopenPrivate
  rw [bind_onHeap hparse]
  dsimp only
  rw [hfirst, if_neg (by decide), if_neg (not_not.mpr hdrive), bind_get]
  dsimp only
  rw [hvol]
  dsimp only
  rw [if_neg (by decide)]
  exact onHeap_some.mpr ⟨h₂, hopen, rfl⟩

/-! ## Calls on a fresh heap -/

/-- The file layer right after `kheap_init`, with no open file and no file system. -/
def bootFileSys : FileSys :=
  { heap := bootKernel.heap
    file_descriptors := fun _ => none
    filesystem := none }

/-- The file layer right after `kheap_init`, with the volume resolved. -/
def oneFileSys : FileSys := { bootFileSys with filesystem := some oneFileVolume }

/-- Opening the file there: seven blocks, and the descriptor 1. -/
theorem fopen_oneFileSys : ∃ fs rs, fopen oneFilePath readMode oneFileSys = some (1, fs) ∧
    HeapOwns fs.heap rs ∧ fs.file_descriptors 0 ≠ none := by
  obtain ⟨priv, h₁, p, h₂, hpriv, -, hz, hne, -⟩ :=
    @Packed.fopen_oneFile oneFileSys 0 packed_bootKernel (by decide) rfl
  obtain ⟨-, os, ho₁⟩ := fopenPrivate_holds ⟨[], heapOwns_bootKernel⟩ hpriv
  obtain ⟨i, hi, hslot⟩ := fileFreeSlot_of_free { oneFileSys with heap := h₁ }
    (show 0 < maerosMaxFileDescriptors by decide) rfl
  obtain rfl : i = 0 := Nat.le_zero.mp hi
  rcases ho₁.kzalloc (by decide) hz with ⟨h0, -⟩ | ⟨-, ho₂⟩
  · exact absurd h0 hne
  refine ⟨FileSys.setDescriptor { oneFileSys with heap := h₂ } 0 (some ⟨p, 0 + 1, priv⟩), _, ?_, ho₂,
    ?_⟩
  · rw [fopen_eq]
    unfold fopenDesc
    rw [bind_of_some hpriv]
    dsimp only
    rw [fileNewDescriptor_of_slot hslot hz hne]
    rfl
  · rw [setDescriptor_self]
    exact Option.some_ne_none _

/-- With the file open, the path `A`, which has no drive, is refused and costs nothing; opening
`0:/A` was not paid back. -/
theorem fopen_balanced_noDrive : ∃ fs rs,
    (fopen oneFilePath readMode oneFileSys = some (1, fs) ∧ ¬ OpenBalanced oneFileSys 1 fs) ∧
    (HeapOwns fs.heap rs ∧ fs.file_descriptors 0 ≠ none ∧
      fopen [0x41#8] readMode fs = some (0, fs)) ∧
    OpenBalanced fs 0 fs := by
  obtain ⟨fs, rs, hopen, ho, htable⟩ := fopen_oneFileSys
  have hno : ¬ PathAccepted [0x41#8] := by decide
  have hrun : fopen [0x41#8] readMode fs = some (0, fs) := by
    rw [fopen_eq]
    unfold fopenDesc fopenPrivate
    rw [bind_of_some (bind_onHeap (pathparserParse_refused hno fs.heap))]
    rfl
  refine ⟨fs, rs, ⟨hopen, fun hbal => ?_⟩, ⟨ho, htable, hrun⟩,
    (fopen_balanced_iff ho _ _ hrun).mpr hno⟩
  exact (fopen_balanced_iff heapOwns_bootKernel _ _ hopen).mp hbal (by decide)

/-- The path of the root directory alone is accepted, costs two allocations and gives one back. -/
theorem pathparserParse_rootPath : ∃ addr h',
    pathparserParse [0x30#8, 0x3a#8, 0x2f#8] bootFileSys.heap = some (some ⟨addr, 0, []⟩, h') := by
  obtain ⟨h₁, hz₁, hp₁⟩ := packed_bootKernel.kzalloc sizeofPathRoot (by decide) (by decide)
  obtain ⟨h₂, hz₂, -⟩ := hp₁.kzalloc (BitVec.ofNat 32 maerosMaxPath) (by decide) (by decide)
  have hroot : pathparserCreateRoot bootFileSys.heap = some (blockAddr 0, h₁) :=
    prog_bind.mpr ⟨_, _, hz₁, prog_bind.mpr
      ⟨(), _, writeRecord_some.mpr ⟨blockAddr_ne_zero (by decide), rfl⟩, rfl⟩⟩
  have hpart : pathparserParsePathPart [] h₁ =
      some ((none, []), heapFree h₂ (blockAddr (0 + blocksFor sizeofPathRoot))) :=
    prog_bind.mpr ⟨_, _, prog_bind.mpr ⟨_, _, hz₂, prog_bind.mpr ⟨(), _, rfl, rfl⟩⟩, rfl⟩
  refine ⟨blockAddr 0, heapFree h₂ (blockAddr (0 + blocksFor sizeofPathRoot)), ?_⟩
  unfold pathparserParse
  rw [if_neg (by decide)]
  exact prog_bind.mpr ⟨_, _, hroot, prog_bind.mpr ⟨[], _, prog_bind.mpr ⟨_, _, hpart, rfl⟩, rfl⟩⟩

/-- Opening `0:/` fails and leaves the root record of the path behind. -/
theorem fopen_leaks_rootPath : ∃ fs', HeapOwns bootFileSys.heap [] ∧
    fopen [0x30#8, 0x3a#8, 0x2f#8] [0x72#8] bootFileSys = some (0, fs') ∧
    ¬ OpenBalanced bootFileSys 0 fs' := by
  obtain ⟨addr, h', hparse⟩ := pathparserParse_rootPath
  have hpriv : fopenPrivate [0x30#8, 0x3a#8, 0x2f#8] [0x72#8] bootFileSys =
      some (.error (-einvarg), { bootFileSys with heap := h' }) := by
    unfold fopenPrivate
    rw [bind_onHeap hparse]
    rfl
  obtain ⟨r, hfree, -, hg⟩ := fopenPrivate_guarded (by decide) heapOwns_bootKernel hpriv
  refine ⟨{ bootFileSys with heap := h' }, heapOwns_bootKernel, ?_, fun hbal => ?_⟩
  · rw [fopen_eq]
    unfold fopenDesc
    rw [bind_of_some hpriv]
    rfl
  · exact hg.not_sameHolding hfree (hbal.1 rfl)

end MaerOS.Analysis
