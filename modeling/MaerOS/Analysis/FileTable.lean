import MaerOS.Analysis.FileOwns
import MaerOS.Analysis.FileBalance
import MaerOS.Lib.Run

/-!
# The table of file descriptors over whole runs

A run is a sequence of `fopen` and `fclose` calls. Beside the state of the file layer it carries
the descriptors that the calls have opened and not closed again, as they were made. The three index
conventions of the table (slot `i`, index `i + 1`, the bounds of `file_get_descriptor`) agree on
all slots but the last one.
-/

set_option autoImplicit false

namespace MaerOS.Analysis

open MaerOS.Lib MaerOS.Model

/-! ## Runs -/

/-- The file layer, and the descriptors opened and not closed since. -/
structure FileRun where
  fs : FileSys
  opened : List FileDescriptor

/-- A call of the file layer. -/
inductive FileOp where
  | fopen (filename mode_str : List (BitVec 8))
  | fclose (fd : ℤ)

/-- One call; a descriptor counts as closed once `fclose` was called with its index. -/
def fileStep (s : FileRun) : FileOp → Option FileRun
  | .fopen filename mode_str => (fopenDesc filename mode_str s.fs).map fun r =>
    match r.1 with
    | .ok desc => ⟨r.2, desc :: s.opened⟩
    | .error _ => ⟨r.2, s.opened⟩
  | .fclose fd => (fclose fd s.fs).map fun r => ⟨r.2, s.opened.filter fun d => d.index ≠ fd⟩

/-- The path leads to a regular file, and there is memory for all its records. -/
def Openable (filename mode_str : List (BitVec 8)) (fs : FileSys) : Prop :=
  ∃ priv fs₁ item entry p h', fopenPrivate filename mode_str fs = some (.ok priv, fs₁) ∧
    priv.item.content = .file item entry ∧ item ≠ 0#32 ∧
    fs₁.heap.kzalloc sizeofFileDescriptor = some (p, h') ∧ p ≠ 0#32

/-- The calls in question: only openable files are opened. -/
def FileRequest (s : FileRun) : FileOp → Prop
  | .fopen filename mode_str => Openable filename mode_str s.fs
  | .fclose _ => True

/-- A file is opened only while one of the slots before the last is free. -/
def SlotBeforeLast (s : FileRun) : FileOp → Prop
  | .fopen _ _ => ∃ i < maerosMaxFileDescriptors - 1, s.fs.file_descriptors i = none
  | .fclose _ => True

/-- The allocations of an open file: its descriptor and the file system's. -/
def descriptorRuns (desc : FileDescriptor) : List (Addr × ℕ) :=
  fatFileRuns desc.priv ++ [(desc.addr, 1)]

/-- Every open descriptor is the one its index leads to, and the records of all of them are live
and apart. -/
structure TableGood (s : FileRun) : Prop where
  found : ∀ d ∈ s.opened, fileGetDescriptor s.fs d.index = some d
  live : Holds (s.opened.flatMap descriptorRuns) s.fs.heap

/-- What a call owes: `fopen` returns an index that no open descriptor has, and `0` only when every
slot is in use; `fclose` of an open descriptor returns `0` and empties its slot. -/
def FileStepGood (s : FileRun) : FileOp → Prop
  | .fopen filename mode_str => ∀ fd fs', fopen filename mode_str s.fs = some (fd, fs') →
    (0 < fd → ∀ d ∈ s.opened, d.index ≠ fd) ∧
      (fd = 0 → ∀ i < maerosMaxFileDescriptors, s.fs.file_descriptors i ≠ none)
  | .fclose fd => ∀ d ∈ s.opened, d.index = fd → ∃ fs', fclose fd s.fs = some (0, fs') ∧
    fs'.file_descriptors (fd - 1).toNat = none

/-- Every call of the run pays what it owes, and the table is good in every state it reaches. -/
def FileRunGood (s : FileRun) (ops : List FileOp) : Prop :=
  AlongPartial fileStep (fun s op => TableGood s ∧ FileStepGood s op) s ops ∧
    ∃ s', runPartial fileStep s ops = some s' ∧ TableGood s'

/-! ## The invariant -/

/-- The invariant of the runs that keep off the last slot. -/
structure FileInv (s : FileRun) : Prop where
  slot : ∀ d ∈ s.opened, ∃ i < maerosMaxFileDescriptors - 1, d.index = (i : ℤ) + 1 ∧
    s.fs.file_descriptors i = some d
  listed : ∀ i < maerosMaxFileDescriptors, ∀ d, s.fs.file_descriptors i = some d →
    d ∈ s.opened ∧ d.index = (i : ℤ) + 1
  regular : ∀ d ∈ s.opened, ∃ item entry, d.priv.item.content = .file item entry ∧ item ≠ 0#32
  distinct : s.opened.Pairwise fun d d' => d.index ≠ d'.index
  live : Holds (s.opened.flatMap descriptorRuns) s.fs.heap

/-- `file_get_descriptor` reads the slot before the index. -/
theorem fileGetDescriptor_slot (fs : FileSys) {i : ℕ} (hi : i < maerosMaxFileDescriptors - 1) :
    fileGetDescriptor fs ((i : ℤ) + 1) = fs.file_descriptors i := by
  unfold fileGetDescriptor
  rw [if_neg (by simp only [maerosMaxFileDescriptors] at *; omega),
    show ((i : ℤ) + 1 - 1).toNat = i from by omega]

theorem FileInv.tableGood {s : FileRun} (hi : FileInv s) : TableGood s := by
  refine ⟨fun d hd => ?_, hi.live⟩
  obtain ⟨i, hlt, hidx, hslot⟩ := hi.slot d hd
  rw [hidx, fileGetDescriptor_slot s.fs hlt, hslot]

/-- An open file owns its descriptor, its record, its item and the entry. -/
theorem descriptorRuns_file {desc : FileDescriptor} {item : Addr} {entry : FatDirectoryItem}
    (hfile : desc.priv.item.content = .file item entry) (hne : item ≠ 0#32) :
    descriptorRuns desc =
      [(item, 1), (desc.priv.item.addr, 1), (desc.priv.addr, 1), (desc.addr, 1)] := by
  unfold descriptorRuns fatFileRuns itemRuns
  rw [hfile]
  dsimp only
  rw [if_neg hne]
  rfl

/-- Closing a file releases the entry, the item and the record. -/
theorem fat16Close_file {desc : FatFileDescriptor} {item : Addr} {entry : FatDirectoryItem}
    (hfile : desc.item.content = .file item entry) (h : Heap) :
    fat16Close desc h =
      some (0, heapFree (heapFree (heapFree h item) desc.item.addr) desc.addr) := by
  obtain ⟨addr, ⟨iaddr, content⟩, pos⟩ := desc
  obtain rfl : content = .file item entry := hfile
  rfl

/-! ## The steps -/

/-- Opening a file while a slot before the last is free: it gets a new index below the last, and
the invariant is kept. -/
theorem FileInv.fopen {s : FileRun} (hi : FileInv s) {filename mode_str : List (BitVec 8)}
    (hopen : Openable filename mode_str s.fs)
    (hslot : ∃ i < maerosMaxFileDescriptors - 1, s.fs.file_descriptors i = none) :
    ∃ desc fs', fopenDesc filename mode_str s.fs = some (.ok desc, fs') ∧
      FileInv ⟨fs', desc :: s.opened⟩ ∧ 0 < desc.index := by
  obtain ⟨priv, fs₁, item, entry, p, h', hpriv, hfile, hitem, hz, hne⟩ := hopen
  obtain ⟨j, hj, hfree⟩ := hslot
  obtain ⟨htable, hheld⟩ := fopenPrivate_holds hi.live hpriv
  obtain ⟨i, hij, hfirst⟩ := fileFreeSlot_of_free fs₁ (j := j)
    (lt_of_lt_of_le hj (Nat.sub_le _ _)) (by rw [htable]; exact hfree)
  have hnone : s.fs.file_descriptors i = none := by
    rw [← htable]
    exact (fileFreeSlot_some hfirst).2.1
  have hlt : i < maerosMaxFileDescriptors - 1 := lt_of_le_of_lt hij hj
  refine ⟨⟨p, i + 1, priv⟩, _, prog_bind.mpr ⟨_, _, hpriv, fileNewDescriptor_of_slot hfirst hz hne⟩,
    ⟨?_, ?_, ?_, ?_, ?_⟩, by dsimp only; omega⟩
  · intro d hd
    rcases List.mem_cons.mp hd with rfl | hd
    · exact ⟨i, hlt, rfl, setDescriptor_self _ _ _⟩
    · obtain ⟨k, hk, hidx, hkd⟩ := hi.slot d hd
      have hki : k ≠ i := by
        rintro rfl
        rw [hnone] at hkd
        cases hkd
      refine ⟨k, hk, hidx, ?_⟩
      rw [setDescriptor_ne _ hki, htable]
      exact hkd
  · intro k hk d hd
    by_cases hki : k = i
    · subst hki
      rw [setDescriptor_self] at hd
      cases hd
      exact ⟨List.mem_cons_self, rfl⟩
    · rw [setDescriptor_ne _ hki, htable] at hd
      obtain ⟨hmem, hidx⟩ := hi.listed k hk d hd
      exact ⟨List.mem_cons_of_mem _ hmem, hidx⟩
  · intro d hd
    rcases List.mem_cons.mp hd with rfl | hd
    · exact ⟨item, entry, hfile, hitem⟩
    · exact hi.regular d hd
  · refine List.pairwise_cons.mpr ⟨fun d hd heq => ?_, hi.distinct⟩
    obtain ⟨k, -, hidx, hkd⟩ := hi.slot d hd
    rw [show k = i from by dsimp only at heq; omega, hnone] at hkd
    cases hkd
  · rcases allocRecord_holds (by decide) _ hheld _ _ hz with ⟨h0, -⟩ | ⟨-, hheld'⟩
    · exact absurd h0 hne
    · rw [List.flatMap_cons]
      refine hheld'.perm ?_
      unfold descriptorRuns
      rw [List.append_assoc]
      exact List.perm_middle.symm

/-- A member of a list with distinct keys comes first, and the others behind it. -/
theorem perm_cons_filter_key {α β : Type} [DecidableEq β] (key : α → β) {l : List α} {a : α}
    (hd : l.Pairwise fun x y => key x ≠ key y) (ha : a ∈ l) :
    l.Perm (a :: l.filter fun x => key x ≠ key a) := by
  induction l with
  | nil => cases ha
  | cons b l ih =>
    obtain ⟨hb, hd⟩ := List.pairwise_cons.mp hd
    rcases List.mem_cons.mp ha with rfl | ha
    · rw [List.filter_cons_of_neg (by simp), List.filter_eq_self.mpr]
      intro x hx
      simpa using (hb x hx).symm
    · rw [List.filter_cons_of_pos (by simpa using hb a ha)]
      exact ((ih hd ha).cons b).trans (List.Perm.swap a b _)

/-- Closing an open descriptor keeps the invariant of the others. -/
theorem FileInv.closed {s : FileRun} (hi : FileInv s) {desc : FileDescriptor}
    (hmem : desc ∈ s.opened) {item : Addr} {entry : FatDirectoryItem}
    (hfile : desc.priv.item.content = .file item entry) (hitem : item ≠ 0#32) :
    FileInv ⟨afterClose s.fs desc
        (heapFree (heapFree (heapFree s.fs.heap item) desc.priv.item.addr) desc.priv.addr),
      s.opened.filter fun d => d.index ≠ desc.index⟩ := by
  obtain ⟨i, -, hidx, -⟩ := hi.slot desc hmem
  have hslot : (desc.index - 1).toNat = i := by omega
  refine ⟨?_, ?_, fun d hd => hi.regular d (List.mem_filter.mp hd).1, hi.distinct.filter _, ?_⟩
  · intro d hd
    obtain ⟨hd, hne⟩ := List.mem_filter.mp hd
    obtain ⟨k, hk, hkidx, hkd⟩ := hi.slot d hd
    have hki : k ≠ (desc.index - 1).toNat := by
      simp only [ne_eq, decide_eq_true_eq] at hne
      omega
    exact ⟨k, hk, hkidx, (setDescriptor_ne _ hki _).trans hkd⟩
  · intro k hk d hd
    by_cases hki : k = (desc.index - 1).toNat
    · subst hki
      cases (setDescriptor_self s.fs (desc.index - 1).toNat none).symm.trans hd
    · obtain ⟨hd', hkidx⟩ := hi.listed k hk d ((setDescriptor_ne _ hki _).symm.trans hd)
      refine ⟨List.mem_filter.mpr ⟨hd', ?_⟩, hkidx⟩
      simp only [ne_eq, decide_eq_true_eq]
      omega
  · have hperm := perm_cons_filter_key FileDescriptor.index hi.distinct hmem
    have hheld := hi.live.perm (hperm.flatMap_right descriptorRuns)
    rw [List.flatMap_cons, descriptorRuns_file hfile hitem] at hheld
    exact hheld.release_list

/-- `fclose` of any number: an open descriptor is closed and its slot emptied, and the invariant is
kept. -/
theorem FileInv.fclose {s : FileRun} (hi : FileInv s) (fd : ℤ) :
    FileStepGood s (.fclose fd) ∧
      ∃ s', fileStep s (.fclose fd) = some s' ∧ FileInv s' := by
  cases hget : fileGetDescriptor s.fs fd with
  | none =>
    have hno : ∀ d ∈ s.opened, d.index ≠ fd := by
      intro d hd hidx
      have := hi.tableGood.found d hd
      rw [hidx, hget] at this
      cases this
    have hrun : Model.fclose fd s.fs = some (-eio, s.fs) := by
      unfold Model.fclose
      rw [bind_get, hget]
      rfl
    refine ⟨fun d hd hidx => absurd hidx (hno d hd), s, ?_, hi⟩
    unfold fileStep
    dsimp only
    rw [hrun, Option.map_some, List.filter_eq_self.mpr fun d hd => by simpa using hno d hd]
  | some desc =>
    -- the descriptor found in the table is one of the open ones, with this index
    have hrange : 0 < fd ∧ fd < maerosMaxFileDescriptors ∧
        s.fs.file_descriptors (fd - 1).toNat = some desc := by
      unfold fileGetDescriptor at hget
      split at hget
      · cases hget
      · exact ⟨by omega, by omega, hget⟩
    obtain ⟨hpos, hlast, hslot⟩ := hrange
    obtain ⟨hmem, hidx⟩ := hi.listed (fd - 1).toNat (by omega) desc hslot
    obtain rfl : fd = desc.index := by omega
    obtain ⟨item, entry, hfile, hitem⟩ := hi.regular desc hmem
    have hrun := fclose_of_desc hget (fat16Close_file hfile s.fs.heap)
    refine ⟨fun d _ _ => ⟨_, hrun, setDescriptor_self _ _ _⟩, _, ?_, hi.closed hmem hfile hitem⟩
    unfold fileStep
    dsimp only
    rw [hrun]
    rfl

/-- **Runs keep the table.** In every run that opens openable files only, and only while one of the
first 511 slots is free, every call pays what it owes and the table is good in every state. -/
theorem file_table_runs {fs : FileSys} {rs : List (Addr × ℕ)} (ho : HeapOwns fs.heap rs)
    (hempty : ∀ i < maerosMaxFileDescriptors, fs.file_descriptors i = none) (ops : List FileOp)
    (hreq : AlongPartial fileStep FileRequest ⟨fs, []⟩ ops)
    (hslot : AlongPartial fileStep SlotBeforeLast ⟨fs, []⟩ ops) :
    FileRunGood ⟨fs, []⟩ ops := by
  have hstart : FileInv ⟨fs, []⟩ := by
    refine ⟨by simp, fun i hi d hd => ?_, by simp, List.Pairwise.nil, rs, by simpa using ho⟩
    rw [hempty i hi] at hd
    cases hd
  -- the induction is over the calls, the invariant carries it
  have hrun : ∀ (ops : List FileOp) (s : FileRun), FileInv s →
      AlongPartial fileStep (fun s op => FileRequest s op ∧ SlotBeforeLast s op) s ops →
      FileRunGood s ops := by
    intro ops
    induction ops with
    | nil =>
      intro s hi _
      exact ⟨trivial, s, rfl, hi.tableGood⟩
    | cons op ops ih =>
      rintro s hi ⟨⟨hop, hfree⟩, hrest⟩
      have hstep : FileStepGood s op ∧ ∃ s', fileStep s op = some s' ∧ FileInv s' := by
        cases op with
        | fclose fd => exact hi.fclose fd
        | fopen filename mode_str =>
          obtain ⟨desc, fs', hdesc, hi', hpos⟩ := hi.fopen hop hfree
          have hstep : fileStep s (.fopen filename mode_str) = some ⟨fs', desc :: s.opened⟩ := by
            unfold fileStep
            dsimp only
            rw [hdesc]
            rfl
          refine ⟨fun fd fs'' hfopen => ?_, _, hstep, hi'⟩
          rw [fopen_eq, hdesc] at hfopen
          cases hfopen
          refine ⟨fun _ d hd heq => ?_, fun h0 => ?_⟩
          · exact (List.pairwise_cons.mp hi'.distinct).1 d hd heq.symm
          · exact absurd h0 (ne_of_gt hpos)
      obtain ⟨hgood, s', hs', hi'⟩ := hstep
      obtain ⟨halong, s'', hs'', hfinal⟩ := ih s' hi' (hrest s' hs')
      refine ⟨AlongPartial.cons ⟨hi.tableGood, hgood⟩ hs' halong, s'', ?_, hfinal⟩
      rw [runPartial_step hs']
      exact hs''
  exact hrun ops _ hstart (hreq.and hslot)

/-! ## A file opened again and again -/

/-- After `n` calls that open the file: `n` slots are taken from the front, and the last call has
made the descriptor with index `n`. -/
structure OpenedTimes (n : ℕ) (s : FileRun) : Prop where
  packed : Packed s.fs.heap (7 * n)
  volume : s.fs.filesystem = some oneFileVolume
  taken : ∀ i < n, s.fs.file_descriptors i ≠ none
  free : ∀ i, n ≤ i → s.fs.file_descriptors i = none
  last : n ≠ 0 → ∃ d ∈ s.opened, d.index = n

/-- One more call. -/
theorem OpenedTimes.succ {n : ℕ} {s : FileRun} (ht : OpenedTimes n s)
    (hn : n < maerosMaxFileDescriptors) :
    FileRequest s (.fopen oneFilePath readMode) ∧
      ∃ s', fileStep s (.fopen oneFilePath readMode) = some s' ∧ OpenedTimes (n + 1) s' := by
  simp only [maerosMaxFileDescriptors] at hn
  obtain ⟨priv, h₁, p, h₂, hpriv, ⟨item, hfile, hitem⟩, hz, hne, hp⟩ :=
    ht.packed.fopen_oneFile (by omega) ht.volume
  refine ⟨⟨priv, _, item, _, p, h₂, hpriv, hfile, hitem, hz, hne⟩, ?_⟩
  -- the first free slot is the next one
  obtain ⟨i, hi, hslot⟩ := fileFreeSlot_of_free { s.fs with heap := h₁ } hn
    (ht.free n le_rfl)
  obtain rfl : i = n := by
    refine le_antisymm hi (not_lt.mp fun hlt => ?_)
    exact ht.taken i hlt (fileFreeSlot_some hslot).2.1
  refine ⟨⟨FileSys.setDescriptor { s.fs with heap := h₂ } i (some ⟨p, i + 1, priv⟩),
    ⟨p, i + 1, priv⟩ :: s.opened⟩, ?_, ?_⟩
  · unfold fileStep fopenDesc
    dsimp only
    rw [bind_of_some hpriv]
    dsimp only
    rw [fileNewDescriptor_of_slot hslot hz hne]
    rfl
  · refine ⟨?_, ht.volume, fun j hj => ?_, fun j hj => ?_, fun _ => ⟨_, List.mem_cons_self, rfl⟩⟩
    · rw [show 7 * (i + 1) = 7 * i + 7 from by omega]
      exact hp
    · by_cases hji : j = i
      · subst hji
        rw [setDescriptor_self]
        exact Option.some_ne_none _
      · rw [setDescriptor_ne _ hji]
        exact ht.taken j (by omega)
    · rw [setDescriptor_ne _ (by omega)]
      exact ht.free j (by omega)

/-- The file can be opened as long as there are free slots, one call after the other. -/
theorem OpenedTimes.replicate (k : ℕ) : ∀ {n : ℕ} {s : FileRun}, OpenedTimes n s →
    n + k ≤ maerosMaxFileDescriptors →
    AlongPartial fileStep FileRequest s (List.replicate k (.fopen oneFilePath readMode)) ∧
      ∃ s', runPartial fileStep s (List.replicate k (.fopen oneFilePath readMode)) = some s' ∧
        OpenedTimes (n + k) s' := by
  induction k with
  | zero =>
    intro n s ht _
    exact ⟨trivial, s, rfl, ht⟩
  | succ k ih =>
    intro n s ht hn
    obtain ⟨hreq, s₁, hs₁, ht₁⟩ := ht.succ (by omega)
    obtain ⟨halong, s', hs', ht'⟩ := ih ht₁ (by omega)
    rw [List.replicate_succ]
    refine ⟨AlongPartial.cons hreq hs₁ halong, s', ?_, ?_⟩
    · rw [runPartial_step hs₁]
      exact hs'
    · rw [show n + (k + 1) = n + 1 + k from by omega]
      exact ht'

/-- No call was made yet. -/
theorem openedTimes_zero : OpenedTimes 0 ⟨oneFileSys, []⟩ :=
  ⟨packed_bootKernel, rfl, fun i hi => absurd hi (Nat.not_lt_zero i), fun _ _ => rfl,
    fun h => absurd rfl h⟩

/-- Opening the file and closing it. -/
theorem file_table_runs_oneFile :
    ∃ ops : List FileOp, ops = [.fopen oneFilePath readMode, .fclose 1] ∧
      (HeapOwns oneFileSys.heap [] ∧ (∀ i < maerosMaxFileDescriptors,
        oneFileSys.file_descriptors i = none) ∧
        AlongPartial fileStep FileRequest ⟨oneFileSys, []⟩ ops ∧
        AlongPartial fileStep SlotBeforeLast ⟨oneFileSys, []⟩ ops) ∧
      FileRunGood ⟨oneFileSys, []⟩ ops := by
  obtain ⟨hreq, s₁, hs₁, -⟩ := openedTimes_zero.succ (by decide)
  have halong : AlongPartial fileStep FileRequest ⟨oneFileSys, []⟩
      [.fopen oneFilePath readMode, .fclose 1] :=
    AlongPartial.cons hreq hs₁ ⟨trivial, fun _ _ => trivial⟩
  have hslot : AlongPartial fileStep SlotBeforeLast ⟨oneFileSys, []⟩
      [.fopen oneFilePath readMode, .fclose 1] :=
    AlongPartial.cons ⟨0, by decide, rfl⟩ hs₁ ⟨trivial, fun _ _ => trivial⟩
  exact ⟨_, rfl, ⟨heapOwns_bootKernel, fun _ _ => rfl, halong, hslot⟩,
    file_table_runs heapOwns_bootKernel (fun _ _ => rfl) _ halong hslot⟩

/-- The 512th file opened gets the index 512, which `file_get_descriptor` refuses. -/
theorem file_table_runs_lastSlot :
    ∃ ops : List FileOp, HeapOwns oneFileSys.heap [] ∧
      (∀ i < maerosMaxFileDescriptors, oneFileSys.file_descriptors i = none) ∧
      AlongPartial fileStep FileRequest ⟨oneFileSys, []⟩ ops ∧
      ¬ FileRunGood ⟨oneFileSys, []⟩ ops := by
  obtain ⟨halong, s', hs', ht⟩ := openedTimes_zero.replicate maerosMaxFileDescriptors le_rfl
  refine ⟨_, heapOwns_bootKernel, fun _ _ => rfl, halong, ?_⟩
  rintro ⟨-, s'', hs'', hgood⟩
  obtain rfl := Option.some.inj (hs'.symm.trans hs'')
  obtain ⟨d, hd, hidx⟩ := ht.last (by decide)
  have hfound := hgood.found d hd
  unfold fileGetDescriptor at hfound
  rw [if_pos (.inr (by rw [hidx]; decide))] at hfound
  cases hfound

end MaerOS.Analysis
