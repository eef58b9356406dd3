import MaerOS.Analysis.FatRead
import MaerOS.Analysis.FileSpecs
import MaerOS.Analysis.PackedHeap
import MaerOS.Lib.Run

/-!
# Positions of open files: `fseek` and `fread`

`fread` reads the position of a file and never writes it, so a second read starts where
the first one did. `fseek` compares the offset it is given with the size of the file,
also when it adds the offset to the position, and `fread` compares nothing: positions and
reads stay inside the file only as far as the callers see to it.
-/

set_option autoImplicit false

namespace MaerOS.Analysis

open MaerOS.Lib MaerOS.Model

/-! ## The two calls -/

/-- A descriptor that is found is in range, and in its slot. -/
theorem fileGetDescriptor_range {fs : FileSys} {fd : ℤ} {desc : FileDescriptor}
    (h : fileGetDescriptor fs fd = some desc) :
    1 ≤ fd ∧ fd < maerosMaxFileDescriptors ∧ fs.file_descriptors (fd - 1).toNat = some desc := by
  unfold fileGetDescriptor at h
  split at h
  · simp at h
  · rename_i hrange
    refine ⟨by omega, by omega, h⟩

/-- What **`fread`** returns depends on the descriptor and the volume; the state stays as it is. -/
theorem fread_eq {fs : FileSys} {fd : ℤ} {desc : FileDescriptor} {vol : FatVolume}
    (hdesc : fileGetDescriptor fs fd = some desc) (hvol : fs.filesystem = some vol)
    {size nmemb : BitVec 32} (hsize : size ≠ 0#32) (hnmemb : nmemb ≠ 0#32) :
    fread size nmemb fd fs = (fat16Read vol desc.priv size nmemb).map fun r => (r, fs) := by
  have hfd := (fileGetDescriptor_range hdesc).1
  unfold fread
  rw [if_neg (by simp [hsize, hnmemb]; omega), bind_get, hdesc, hvol]
  show onHeap (offDisk _) fs = _
  unfold onHeap offDisk
  cases fat16Read vol desc.priv size nmemb with
  | none => rfl
  | some r => rfl

/-- A read of a file reads the items of its chain. -/
theorem fat16Read_eq {desc : FatFileDescriptor} {entry : FatDirectoryItem}
    (hentry : desc.entry = some entry) {vol : FatVolume} {size nmemb : BitVec 32} :
    fat16Read vol desc size nmemb =
      (fat16ReadItems vol (fat16GetFirstCluster entry) size nmemb.toNat (toInt32 desc.pos)).map
        fun r => (if r.1 < 0 then r.1 else toInt32 nmemb.toNat, r.2) := by
  unfold fat16Read
  rw [hentry]
  show (fat16ReadItems _ _ _ _ _).bind _ = _
  cases fat16ReadItems vol (fat16GetFirstCluster entry) size nmemb.toNat (toInt32 desc.pos) with
  | none => rfl
  | some r => rfl

/-- One more item is read in front of the others. -/
theorem fat16ReadItems_succ {vol : FatVolume} {cluster offset : ℤ} {size : BitVec 32} {n : ℕ}
    {out : List (BitVec 8)}
    (h : fat16ReadInternal vol.disk vol.header cluster offset (toInt32 size.toNat) = some (0, out)) :
    fat16ReadItems vol cluster size (n + 1) offset =
      (fat16ReadItems vol cluster size n (toInt32 (offset + size.toNat))).map
        fun r => (r.1, out :: r.2) := by
  rw [fat16ReadItems, h]
  show (fat16ReadItems _ _ _ _ _).bind _ = _
  cases fat16ReadItems vol cluster size n (toInt32 (offset + size.toNat)) with
  | none => rfl
  | some r => rfl

/-- A finished **`fread`**: an argument was refused, or the file was read. -/
theorem fread_cases {fs fs' : FileSys} {fd : ℤ} {size nmemb : BitVec 32}
    {r : ℤ × List (List (BitVec 8))} (h : fread size nmemb fd fs = some (r, fs')) :
    fs' = fs ∧ (r = (-einvarg, []) ∨ ∃ desc vol, fileGetDescriptor fs fd = some desc ∧
      fs.filesystem = some vol ∧ fat16Read vol desc.priv size nmemb = some r) := by
  unfold fread at h
  split at h
  · obtain ⟨rfl, rfl⟩ := prog_pure.mp h
    exact ⟨rfl, Or.inl rfl⟩
  · rw [bind_get] at h
    cases hdesc : fileGetDescriptor fs fd with
    | none =>
      rw [hdesc] at h
      obtain ⟨rfl, rfl⟩ := prog_pure.mp h
      exact ⟨rfl, Or.inl rfl⟩
    | some desc =>
      cases hvol : fs.filesystem with
      | none =>
        rw [hdesc, hvol] at h
        cases h
      | some vol =>
        rw [hdesc, hvol] at h
        obtain ⟨heap, hread, rfl⟩ := onHeap_some.mp h
        obtain ⟨r', hr, heq⟩ := Option.map_eq_some_iff.mp hread
        cases heq
        exact ⟨rfl, Or.inr ⟨desc, vol, rfl, rfl, hr⟩⟩

/-- **`fseek`** on an open file changes its position only. -/
theorem fseek_eq {fs : FileSys} {fd : ℤ} {desc : FileDescriptor}
    (hdesc : fileGetDescriptor fs fd = some desc) (offset whence : BitVec 32) :
    fseek fd offset whence fs = (fat16Seek desc.priv offset whence).map fun r =>
      (r.1, fs.setDescriptor (fd - 1).toNat
        (some { desc with priv := { desc.priv with pos := r.2 } })) := by
  unfold fseek
  rw [bind_get, hdesc]
  dsimp only
  cases fat16Seek desc.priv offset whence with
  | none => rfl
  | some r => rfl

/-- A descriptor that is written back is found again. -/
theorem fileGetDescriptor_setDescriptor {fs : FileSys} {fd : ℤ} {desc : FileDescriptor}
    (hdesc : fileGetDescriptor fs fd = some desc) (desc' : FileDescriptor) :
    fileGetDescriptor (fs.setDescriptor (fd - 1).toNat (some desc')) fd = some desc' := by
  obtain ⟨h1, h2, -⟩ := fileGetDescriptor_range hdesc
  unfold fileGetDescriptor
  rw [if_neg (by omega), setDescriptor_self]

/-- Another descriptor that is written back leaves this one as it is. -/
theorem fileGetDescriptor_setDescriptor_ne {fs : FileSys} {fd fd' : ℤ} {desc desc₁ : FileDescriptor}
    (hdesc : fileGetDescriptor fs fd = some desc) (hdesc' : fileGetDescriptor fs fd' = some desc₁)
    (hne : fd' ≠ fd) (desc' : Option FileDescriptor) :
    fileGetDescriptor (fs.setDescriptor (fd' - 1).toNat desc') fd = some desc := by
  obtain ⟨h1, h2, hslot⟩ := fileGetDescriptor_range hdesc
  obtain ⟨h1', h2', -⟩ := fileGetDescriptor_range hdesc'
  unfold fileGetDescriptor
  rw [if_neg (by omega), setDescriptor_ne fs (by omega), hslot]

/-! ## Reading on -/

/-- Two reads in a row deliver what one read of both lengths delivers, and a read that succeeds
advances the position by the bytes it delivered. -/
structure ReadsCompose (fs : FileSys) (fd : ℤ) (size n m : BitVec 32) : Prop where
  advances : ∀ desc outs fs₁, fileGetDescriptor fs fd = some desc →
    fread size n fd fs = some ((toInt32 n.toNat, outs), fs₁) →
    ∃ desc₁, fileGetDescriptor fs₁ fd = some desc₁ ∧
      desc₁.priv.pos = desc.priv.pos + size.toNat * n.toNat
  same_bytes : ∀ outs₁ fs₁ outs₂ fs₂, fread size n fd fs = some ((toInt32 n.toNat, outs₁), fs₁) →
    fread size m fd fs₁ = some ((toInt32 m.toNat, outs₂), fs₂) →
    ∃ fs', fread size (n + m) fd fs = some ((toInt32 (n + m).toNat, outs₁ ++ outs₂), fs')

/-- **No read advances the position**: on every open file and from every position, a read that
succeeds leaves the position where it was. -/
theorem fread_never_composes (fs : FileSys) (fd : ℤ) (desc : FileDescriptor)
    (hdesc : fileGetDescriptor fs fd = some desc) (size n m : BitVec 32) (hsize : 1 ≤ size.toNat)
    (hn : 1 ≤ n.toNat)
    (hread : ∃ outs fs₁, fread size n fd fs = some ((toInt32 n.toNat, outs), fs₁)) :
    ¬ ReadsCompose fs fd size n m := by
  intro hcompose
  obtain ⟨outs, fs₁, hread⟩ := hread
  obtain ⟨desc₁, hdesc₁, hpos⟩ := hcompose.advances desc outs fs₁ hdesc hread
  obtain ⟨rfl, -⟩ := fread_cases hread
  rw [hdesc, Option.some.injEq] at hdesc₁
  subst hdesc₁
  have hmul : 1 ≤ size.toNat * n.toNat := Nat.mul_pos hsize hn
  omega

/-! ## A file of two letters -/

/-- A volume of one sector per cluster with the file `A` in its root directory; the file holds `AB`
and the rest of its cluster zeros. -/
def lettersDisk : Disk := fun i =>
  if 1537 ≤ i ∧ i ≤ 1546 then 0x20#8
  else (([(12, 0x02#8), (13, 0x01#8), (14, 0x01#8), (16, 0x02#8), (17, 0x10#8), (22, 0x01#8),
    (38, 0x29#8), (516, 0xff#8), (517, 0xff#8), (1536, 0x41#8), (1562, 0x02#8), (1564, 0x02#8),
    (2048, 0x41#8), (2049, 0x42#8)] : List (ℕ × BitVec 8)).lookup i).getD 0x00#8

/-- The entry of the file. -/
def lettersItem : FatDirectoryItem :=
  { filename := [0x41#8, 0x20#8, 0x20#8, 0x20#8, 0x20#8, 0x20#8, 0x20#8, 0x20#8]
    ext := [0x20#8, 0x20#8, 0x20#8]
    attr := 0x00#8
    high_16_bits_first_cluster := 0
    low_16_bits_first_cluster := 2
    filesize := 2 }

/-- What the driver finds on the volume. -/
def lettersVolume : FatVolume :=
  { disk := lettersDisk
    header := fatHeader lettersDisk
    root_items := fatDirectoryItems (slice lettersDisk 1536 512) 16
    root_total := 1 }

/-- The descriptor of the file, opened first, at position `pos`. -/
def lettersDesc (pos : ℕ) : FileDescriptor :=
  { addr := blockAddr 3
    index := 1
    priv := ⟨blockAddr 0, ⟨blockAddr 1, .file (blockAddr 2) lettersItem⟩, pos⟩ }

/-- The file layer with the file open. -/
def lettersSys (pos : ℕ) : FileSys :=
  { heap := bootKernel.heap
    file_descriptors := fun i => if i = 0 then some (lettersDesc pos) else none
    filesystem := some lettersVolume }

theorem lettersSys_desc (pos : ℕ) : fileGetDescriptor (lettersSys pos) 1 = some (lettersDesc pos) :=
  rfl

/-- The file and what is behind it in its cluster can be read. -/
theorem lettersDisk_read {offset total : ℕ} (hoff : offset < 512) (htotal : total ≤ 512) :
    fat16ReadInternal lettersDisk (fatHeader lettersDisk) (2 : ℕ) offset total =
      some (0, slice lettersDisk (2048 + offset) total) := by
  have hdata : 512 * dataSector (fatHeader lettersDisk) 2 = 2048 := by decide
  have hcluster : (fatHeader lettersDisk).clusterBytes = 512 := by decide
  have h := fat16ReadInternal_first lettersDisk (c := 2) le_rfl (by decide)
    (hcluster.symm ▸ hoff) (hcluster.symm ▸ htotal) (by rw [hdata]; omega)
  rwa [hdata] at h

theorem lettersDesc_entry (pos : ℕ) : (lettersDesc pos).priv.entry = some lettersItem := by
  unfold FatFileDescriptor.entry lettersDesc
  exact if_neg (blockAddr_ne_zero (by omega))

/-- Each item read of the letters is one letter. -/
theorem lettersItems_succ {n offset : ℕ} (hoff : offset < 512) :
    fat16ReadItems lettersVolume (2 : ℕ) 1#32 (n + 1) offset =
      (fat16ReadItems lettersVolume (2 : ℕ) 1#32 n (offset + 1 : ℕ)).map fun r =>
        (r.1, [lettersDisk (2048 + offset)] :: r.2) := by
  have hone : toInt32 ((1#32 : BitVec 32).toNat : ℤ) = (1 : ℕ) := by decide
  have hread : fat16ReadInternal lettersVolume.disk lettersVolume.header (2 : ℕ) offset
      (toInt32 ((1#32 : BitVec 32).toNat : ℤ)) = some (0, [lettersDisk (2048 + offset)]) := by
    rw [hone]
    exact lettersDisk_read hoff (by omega)
  rw [fat16ReadItems_succ hread]
  have hnext : toInt32 ((offset : ℤ) + ((1#32 : BitVec 32).toNat : ℤ)) = (offset + 1 : ℕ) := by
    exact toInt32_natCast (n := offset + 1) (by omega)
  rw [hnext]

/-- Reading through any descriptor of the file. -/
theorem fread_lettersFile {fs : FileSys} {fd : ℤ} {desc : FileDescriptor} {pos : ℕ}
    (hdesc : fileGetDescriptor fs fd = some desc) (hvol : fs.filesystem = some lettersVolume)
    (hentry : desc.priv.entry = some lettersItem) (hpos : desc.priv.pos = pos) (hlt : pos < 2 ^ 31)
    {nmemb : BitVec 32} (hnmemb : nmemb ≠ 0#32) :
    fread 1#32 nmemb fd fs =
      (fat16ReadItems lettersVolume (2 : ℕ) 1#32 nmemb.toNat pos).map fun r =>
        ((if r.1 < 0 then r.1 else toInt32 nmemb.toNat, r.2), fs) := by
  have hfirst : fat16GetFirstCluster lettersItem = 2 := by decide
  have hat : toInt32 (desc.priv.pos : ℤ) = pos := by
    rw [hpos]
    exact toInt32_natCast hlt
  rw [fread_eq hdesc hvol (by decide) hnmemb, fat16Read_eq hentry, hfirst, hat, Option.map_map]
  rfl

/-- A read of the letters leaves the position as it is. -/
theorem fread_letters {nmemb : BitVec 32} (hnmemb : nmemb ≠ 0#32) :
    fread 1#32 nmemb 1 (lettersSys 0) =
      (fat16ReadItems lettersVolume (2 : ℕ) 1#32 nmemb.toNat (0 : ℕ)).map fun r =>
        ((if r.1 < 0 then r.1 else toInt32 nmemb.toNat, r.2), lettersSys 0) :=
  fread_lettersFile (lettersSys_desc 0) rfl (lettersDesc_entry 0) rfl (by decide) hnmemb

theorem fread_letters_one :
    fread 1#32 1#32 1 (lettersSys 0) =
      some ((toInt32 (1#32 : BitVec 32).toNat, [[0x41#8]]), lettersSys 0) := by
  rw [fread_letters (by decide), show (1#32 : BitVec 32).toNat = 0 + 1 from rfl,
    lettersItems_succ (by omega)]
  rfl

theorem fread_letters_two :
    fread 1#32 2#32 1 (lettersSys 0) =
      some ((toInt32 (2#32 : BitVec 32).toNat, [[0x41#8], [0x42#8]]), lettersSys 0) := by
  rw [fread_letters (by decide), show (2#32 : BitVec 32).toNat = 0 + 1 + 1 from rfl,
    lettersItems_succ (by omega), lettersItems_succ (by omega)]
  rfl

theorem fread_never_composes_letters : ¬ ReadsCompose (lettersSys 0) 1 1#32 1#32 1#32 :=
  fread_never_composes (lettersSys 0) 1 (lettersDesc 0) (lettersSys_desc 0) 1#32 1#32 1#32
    (by decide) (by decide) ⟨_, _, fread_letters_one⟩

/-- Two reads of one byte deliver `A` twice, one read of two bytes delivers `A` and `B`. -/
theorem fread_letters_repeats :
    (lettersDesc 0).priv.entry = some lettersItem ∧
      (lettersDesc 0).priv.pos + 1 * (1 + 1) ≤ lettersItem.filesize ∧
      ¬ ReadsCompose (lettersSys 0) 1 1#32 1#32 1#32 := by
  refine ⟨lettersDesc_entry 0, by decide, ?_⟩
  intro hcompose
  obtain ⟨fs', hboth⟩ := hcompose.same_bytes [[0x41#8]] (lettersSys 0) [[0x41#8]] (lettersSys 0)
    fread_letters_one fread_letters_one
  rw [show (1#32 : BitVec 32) + 1#32 = 2#32 from rfl, fread_letters_two] at hboth
  simp at hboth

/-! ## How much a read delivers -/

/-- A read of the stream delivers no more bytes than asked for. -/
theorem length_diskstreamerRead (disk : Disk) : ∀ (n : ℕ) (pos total : ℤ) (read : StreamRead),
    total.toNat < n → diskstreamerRead disk pos total = some read →
    read.out.length ≤ total.toNat := by
  intro n
  induction n with
  | zero =>
    intro pos total read hn
    omega
  | succ n ih =>
    intro pos total read hn h
    have hmod := Int.emod_lt_of_pos pos (b := maerosSectorSize) (by decide)
    have hmod0 := Int.emod_nonneg pos (b := maerosSectorSize) (by decide)
    unfold diskstreamerRead at h
    dsimp only at h
    split at h
    · simp at h
    · split at h
      · split at h
        · simp at h
        · rename_i hover _
          obtain ⟨rest, hrest, heq⟩ := Option.bind_eq_some_iff.mp h
          cases heq
          have hlen := ih _ _ rest (by omega) hrest
          rw [List.length_append, List.length_take]
          omega
      · cases h
        rw [List.length_take]
        omega

/-- A read of a cluster chain delivers no more than it is asked for. -/
theorem length_fat16ReadInternalBy (lookup : ℤ → Option ℤ) (disk : Disk) (header : FatHeader) :
    ∀ (n : ℕ) (offset total : ℤ) (res : ℤ) (out : List (BitVec 8)), total.toNat < n →
      fat16ReadInternalBy lookup disk header offset total = some (res, out) →
      out.length ≤ total.toNat := by
  intro n
  induction n with
  | zero =>
    intro offset total res out hn
    omega
  | succ n ih =>
    intro offset total res out hn h
    rw [fat16ReadInternalBy] at h
    split at h
    · simp at h
    rename_i hpos
    obtain ⟨cluster, -, h⟩ := Option.bind_eq_some_iff.mp h
    split at h
    · cases h
      simp
    obtain ⟨first, hround, h⟩ := Option.bind_eq_some_iff.mp h
    have hfirst : first.length ≤ (if total > header.clusterBytes then
        (header.clusterBytes : ℤ) else total).toNat := by
      unfold fat16ReadRound at hround
      obtain ⟨_, -, hround⟩ := Option.bind_eq_some_iff.mp hround
      obtain ⟨_, -, hround⟩ := Option.bind_eq_some_iff.mp hround
      obtain ⟨_, -, hround⟩ := Option.bind_eq_some_iff.mp hround
      obtain ⟨read, hread, heq⟩ := Option.bind_eq_some_iff.mp hround
      cases heq
      exact length_diskstreamerRead disk _ _ _ read (Nat.lt_succ_self _) hread
    split at h
    · rename_i hmore
      rw [if_pos hmore] at hfirst
      obtain ⟨offset', -, h⟩ := Option.bind_eq_some_iff.mp h
      obtain ⟨rest, hrest, heq⟩ := Option.bind_eq_some_iff.mp h
      cases heq
      have hlen := ih _ _ rest.1 rest.2 (by omega) hrest
      rw [List.length_append]
      omega
    · rename_i hmore
      rw [if_neg hmore] at hfirst
      cases h
      exact hfirst

/-- `fat16_read` delivers at most `nmemb` items of at most `size` bytes. -/
theorem length_fat16ReadItems (vol : FatVolume) (cluster : ℤ) (size : BitVec 32) :
    ∀ (nmemb : ℕ) (offset res : ℤ) (outs : List (List (BitVec 8))),
      fat16ReadItems vol cluster size nmemb offset = some (res, outs) →
      outs.length ≤ nmemb ∧ ∀ out ∈ outs, out.length ≤ size.toNat := by
  intro nmemb
  induction nmemb with
  | zero =>
    intro offset res outs h
    cases h
    simp
  | succ nmemb ih =>
    intro offset res outs h
    rw [fat16ReadItems] at h
    obtain ⟨⟨res₁, out⟩, hread, h⟩ := Option.bind_eq_some_iff.mp h
    have hout : out.length ≤ size.toNat := by
      have hlen := length_fat16ReadInternalBy _ _ _ _ _ _ _ _ (Nat.lt_succ_self _) hread
      have htotal : (toInt32 size.toNat).toNat ≤ size.toNat := by
        have hmod : (size.toNat : ℤ) % (2 ^ 32 : ℕ) = size.toNat := by omega
        unfold toInt32
        rw [Int.bmod_eq_emod, hmod]
        split <;> omega
      omega
    dsimp only at h
    split at h
    · cases h
      simpa using hout
    · obtain ⟨⟨res₂, rest⟩, hrest, h⟩ := Option.bind_eq_some_iff.mp h
      cases h
      obtain ⟨hlen, hall⟩ := ih _ _ _ hrest
      refine ⟨by simp; omega, ?_⟩
      intro o ho
      rcases List.mem_cons.mp ho with rfl | ho
      · exact hout
      · exact hall o ho

/-! ## Runs on one file -/

/-- A call on an open file. -/
inductive FdCall where
  | seek (offset whence : BitVec 32)
  | read (size nmemb : BitVec 32)

/-- The state after a call on `fd`. -/
def FdCall.step (fd : ℤ) (fs : FileSys) : FdCall → Option FileSys
  | seek offset whence => (fseek fd offset whence fs).map Prod.snd
  | read size nmemb => (fread size nmemb fd fs).map Prod.snd

/-- `fd` is open on a regular file with the entry `entry`, at position `pos`. -/
def OpenAt (fs : FileSys) (fd : ℤ) (entry : FatDirectoryItem) (pos : ℕ) : Prop :=
  ∃ desc, fileGetDescriptor fs fd = some desc ∧ desc.priv.entry = some entry ∧ desc.priv.pos = pos

/-- A relative seek does not leave the file, and a read asks for no more than is left of it. -/
def FdCall.Inside (fd : ℤ) (fs : FileSys) (c : FdCall) : Prop :=
  ∀ entry pos, OpenAt fs fd entry pos → match c with
    | seek offset whence => whence = 1#32 → offset.toNat < entry.filesize →
      pos + offset.toNat ≤ entry.filesize
    | read size nmemb => pos + size.toNat * nmemb.toNat ≤ entry.filesize

/-- The position is in the file, a seek that fails leaves it there, and a read delivers no byte
from the end of the file on. Byte `j` of item `i` of a read is the one at offset
`pos + i * size + j`. -/
def PositionGood (fd : ℤ) (entry : FatDirectoryItem) (fs : FileSys) (c : FdCall) : Prop :=
  ∃ pos, OpenAt fs fd entry pos ∧ pos ≤ entry.filesize ∧ match c with
    | .seek offset whence => ∀ res fs', fseek fd offset whence fs = some (res, fs') → res < 0 →
      OpenAt fs' fd entry pos
    | .read size nmemb => ∀ res outs fs', fread size nmemb fd fs = some ((res, outs), fs') →
      ∀ i out, outs[i]? = some out → ∀ j < out.length, pos + i * size.toNat + j < entry.filesize

/-- What **`fat16_seek`** does to the position. -/
theorem fat16Seek_cases {desc : FatFileDescriptor} {entry : FatDirectoryItem}
    (hentry : desc.entry = some entry) {offset whence : BitVec 32} {res : ℤ} {pos : ℕ}
    (h : fat16Seek desc offset whence = some (res, pos)) :
    (res < 0 ∧ pos = desc.pos) ∨ (res = 0 ∧ offset.toNat < entry.filesize ∧
      (pos = offset.toNat ∨ whence = 1#32 ∧ pos = (desc.pos + offset.toNat) % 2 ^ 32)) := by
  unfold FatFileDescriptor.entry at hentry
  unfold fat16Seek at h
  split at hentry
  · rename_i item ritem hcontent
    split at hentry
    · simp at hentry
    · rename_i hitem
      obtain rfl := Option.some.inj hentry
      rw [hcontent] at h
      dsimp only at h
      rw [if_neg hitem] at h
      split at h
      · obtain ⟨rfl, rfl⟩ := Prod.mk.inj (Option.some.inj h)
        exact Or.inl ⟨by decide, rfl⟩
      rename_i hlt
      split at h
      · obtain ⟨rfl, rfl⟩ := Prod.mk.inj (Option.some.inj h)
        exact Or.inr ⟨rfl, by omega, Or.inl rfl⟩
      split at h
      · obtain ⟨rfl, rfl⟩ := Prod.mk.inj (Option.some.inj h)
        exact Or.inl ⟨by decide, rfl⟩
      split at h
      · rename_i hcur
        obtain ⟨rfl, rfl⟩ := Prod.mk.inj (Option.some.inj h)
        exact Or.inr ⟨rfl, by omega, Or.inr ⟨hcur, rfl⟩⟩
      · obtain ⟨rfl, rfl⟩ := Prod.mk.inj (Option.some.inj h)
        exact Or.inl ⟨by decide, rfl⟩
  · simp at hentry

/-- What a finished **`fseek`** does to an open file. -/
theorem fseek_openAt {fs fs' : FileSys} {fd : ℤ} {entry : FatDirectoryItem} {pos : ℕ}
    (hopen : OpenAt fs fd entry pos) {offset whence : BitVec 32} {res : ℤ}
    (h : fseek fd offset whence fs = some (res, fs')) :
    (res < 0 ∧ OpenAt fs' fd entry pos) ∨ (res = 0 ∧ offset.toNat < entry.filesize ∧
      (OpenAt fs' fd entry offset.toNat ∨
        whence = 1#32 ∧ OpenAt fs' fd entry ((pos + offset.toNat) % 2 ^ 32))) := by
  obtain ⟨desc, hdesc, hentry, rfl⟩ := hopen
  rw [fseek_eq hdesc] at h
  obtain ⟨⟨res', pos'⟩, hseek, heq⟩ := Option.map_eq_some_iff.mp h
  cases heq
  have hopen' : OpenAt (fs.setDescriptor (fd - 1).toNat
      (some { desc with priv := { desc.priv with pos := pos' } })) fd entry pos' :=
    ⟨_, fileGetDescriptor_setDescriptor hdesc _, hentry, rfl⟩
  rcases fat16Seek_cases hentry hseek with ⟨hneg, rfl⟩ | ⟨hzero, hlt, rfl | ⟨hcur, rfl⟩⟩
  · exact Or.inl ⟨hneg, hopen'⟩
  · exact Or.inr ⟨hzero, hlt, Or.inl hopen'⟩
  · exact Or.inr ⟨hzero, hlt, Or.inr ⟨hcur, hopen'⟩⟩

/-- A read inside the file stays inside the file. -/
theorem fread_inside {fs fs' : FileSys} {fd : ℤ} {entry : FatDirectoryItem} {pos : ℕ}
    (hopen : OpenAt fs fd entry pos) {size nmemb : BitVec 32}
    (hin : pos + size.toNat * nmemb.toNat ≤ entry.filesize) {res : ℤ}
    {outs : List (List (BitVec 8))} (h : fread size nmemb fd fs = some ((res, outs), fs')) {i : ℕ}
    {out : List (BitVec 8)} (hi : outs[i]? = some out) {j : ℕ} (hj : j < out.length) :
    pos + i * size.toNat + j < entry.filesize := by
  obtain ⟨desc, hdesc, hentry, rfl⟩ := hopen
  obtain ⟨-, hr | ⟨desc', vol, hdesc', -, hread⟩⟩ := fread_cases h
  · cases hr
    simp at hi
  · rw [hdesc, Option.some.injEq] at hdesc'
    subst hdesc'
    rw [fat16Read_eq hentry] at hread
    obtain ⟨⟨res', outs'⟩, hitems, heq⟩ := Option.map_eq_some_iff.mp hread
    cases heq
    obtain ⟨hlen, hall⟩ := length_fat16ReadItems _ _ _ _ _ _ _ hitems
    obtain ⟨hlt, rfl⟩ := List.getElem?_eq_some_iff.mp hi
    dsimp only at hlt hj
    have hout := hall _ (List.getElem_mem hlt)
    have hmul : (i + 1) * size.toNat ≤ nmemb.toNat * size.toNat := Nat.mul_le_mul_right _ (by omega)
    have hcomm : size.toNat * nmemb.toNat = nmemb.toNat * size.toNat := Nat.mul_comm _ _
    have hsucc : (i + 1) * size.toNat = i * size.toNat + size.toNat := Nat.succ_mul _ _
    omega

/-- One call inside the file leaves the position inside the file. -/
theorem FdCall.step_inside {fd : ℤ} {entry : FatDirectoryItem} {fs fs' : FileSys} {c : FdCall}
    (hinv : ∃ pos, OpenAt fs fd entry pos ∧ pos ≤ entry.filesize) (hin : c.Inside fd fs)
    (hstep : c.step fd fs = some fs') : ∃ pos, OpenAt fs' fd entry pos ∧ pos ≤ entry.filesize := by
  obtain ⟨pos, hopen, hpos⟩ := hinv
  have hc := hin entry pos hopen
  cases c with
  | seek offset whence =>
    obtain ⟨⟨res, _⟩, hseek, rfl⟩ := Option.map_eq_some_iff.mp hstep
    rcases fseek_openAt hopen hseek with ⟨-, h⟩ | ⟨-, hlt, h | ⟨hcur, h⟩⟩
    · exact ⟨pos, h, hpos⟩
    · exact ⟨_, h, by omega⟩
    · have hle := hc hcur hlt
      exact ⟨_, h, (Nat.mod_le _ _).trans hle⟩
  | read size nmemb =>
    obtain ⟨⟨r, _⟩, hread, rfl⟩ := Option.map_eq_some_iff.mp hstep
    obtain ⟨rfl, -⟩ := fread_cases hread
    exact ⟨pos, hopen, hpos⟩

/-- **Runs whose calls stay inside the file**: in every state reached the position is in the file,
and the next call, if it stays inside as well, is good. -/
theorem file_position_runs (fs : FileSys) (fd : ℤ) (entry : FatDirectoryItem) (pos : ℕ)
    (hopen : OpenAt fs fd entry pos) (hpos : pos ≤ entry.filesize) (calls : List FdCall)
    (c : FdCall) (hin : AlongPartial (FdCall.step fd) (fun fs c => c.Inside fd fs) fs (calls ++ [c]))
    (fs₁ : FileSys) (hrun : runPartial (FdCall.step fd) fs calls = some fs₁) :
    PositionGood fd entry fs₁ c := by
  obtain ⟨halong, hlast⟩ := AlongPartial.of_append calls hin
  obtain ⟨pos₁, hopen₁, hpos₁⟩ :=
    runPartial_invariant (I := fun fs => ∃ pos, OpenAt fs fd entry pos ∧ pos ≤ entry.filesize)
      (fun _ _ _ hinv hc hstep => FdCall.step_inside hinv hc hstep) calls fs fs₁ ⟨pos, hopen, hpos⟩
      halong hrun
  have hc := (hlast fs₁ hrun).1 entry pos₁ hopen₁
  refine ⟨pos₁, hopen₁, hpos₁, ?_⟩
  cases c with
  | seek offset whence =>
    intro res fs' hseek hneg
    rcases fseek_openAt hopen₁ hseek with ⟨-, h⟩ | ⟨hzero, -⟩
    · exact h
    · omega
  | read size nmemb =>
    intro res outs fs' hread i out hi j hj
    exact fread_inside hopen₁ hc hread hi hj

theorem lettersSys_openAt (pos : ℕ) : OpenAt (lettersSys pos) 1 lettersItem pos :=
  ⟨lettersDesc pos, lettersSys_desc pos, lettersDesc_entry pos, rfl⟩

/-- A descriptor is open in one file at one position. -/
theorem OpenAt.unique {fs : FileSys} {fd : ℤ} {entry entry' : FatDirectoryItem} {pos pos' : ℕ}
    (h : OpenAt fs fd entry pos) (h' : OpenAt fs fd entry' pos') : entry = entry' ∧ pos = pos' := by
  obtain ⟨desc, hdesc, hentry, rfl⟩ := h
  obtain ⟨desc', hdesc', hentry', rfl⟩ := h'
  rw [hdesc, Option.some.injEq] at hdesc'
  subst hdesc'
  rw [hentry, Option.some.injEq] at hentry'
  exact ⟨hentry', rfl⟩

/-- A relative seek by one. -/
theorem lettersSys_seek {pos : ℕ} (hpos : pos + 1 < 2 ^ 32) :
    FdCall.step 1 (lettersSys pos) (.seek 1#32 1#32) = some (lettersSys (pos + 1)) := by
  have hseek : fat16Seek (lettersDesc pos).priv 1#32 1#32 = some (0, pos + 1) := by
    have hne : ¬ blockAddr 2 = 0#32 := blockAddr_ne_zero (by omega)
    have hmod : (pos + (1#32 : BitVec 32).toNat) % 2 ^ 32 = pos + 1 := Nat.mod_eq_of_lt hpos
    simp only [fat16Seek, lettersDesc, hne, hmod, if_false, if_true]
    simp [lettersItem]
  unfold FdCall.step
  dsimp only
  rw [fseek_eq (lettersSys_desc pos), hseek]
  simp only [Option.map_some, Option.some.injEq]
  unfold FileSys.setDescriptor lettersSys
  congr 1
  funext i
  by_cases hi : i = 0
  · subst hi
    simp [lettersDesc]
  · simp [hi]

theorem lettersSys_read :
    FdCall.step 1 (lettersSys 0) (.read 1#32 1#32) = some (lettersSys 0) := by
  unfold FdCall.step
  dsimp only
  rw [fread_letters_one]
  rfl

/-- Reading one letter, going on to the next and reading that. -/
theorem file_position_runs_letters :
    runPartial (FdCall.step 1) (lettersSys 0) [.read 1#32 1#32, .seek 1#32 1#32] =
        some (lettersSys 1) ∧
      PositionGood 1 lettersItem (lettersSys 1) (.read 1#32 1#32) := by
  have hrun : runPartial (FdCall.step 1) (lettersSys 0) [.read 1#32 1#32, .seek 1#32 1#32] =
      some (lettersSys 1) := by
    rw [runPartial_step lettersSys_read, runPartial_step (lettersSys_seek (by omega))]
    rfl
  have hread : ∀ pos < 2, FdCall.Inside 1 (lettersSys pos) (.read 1#32 1#32) := by
    intro pos hpos entry pos' hopen
    obtain ⟨rfl, rfl⟩ := (lettersSys_openAt pos).unique hopen
    exact hpos
  have hseek : FdCall.Inside 1 (lettersSys 0) (.seek 1#32 1#32) := by
    intro entry pos hopen _ hlt
    obtain ⟨rfl, rfl⟩ := (lettersSys_openAt 0).unique hopen
    exact hlt.le
  refine ⟨hrun, ?_⟩
  exact file_position_runs (lettersSys 0) 1 lettersItem 0 (lettersSys_openAt 0) (by decide)
    [.read 1#32 1#32, .seek 1#32 1#32] (.read 1#32 1#32)
    (.cons (hread 0 (by omega)) lettersSys_read
      (.cons hseek (lettersSys_seek (by omega)) ⟨hread 1 (by omega), fun _ _ => trivial⟩))
    (lettersSys 1) hrun

/-- Three relative seeks leave a file of two bytes, and a read of three bytes delivers one byte
from behind its end. -/
theorem file_position_letters :
    (∃ fs₁, runPartial (FdCall.step 1) (lettersSys 0)
        [.seek 1#32 1#32, .seek 1#32 1#32, .seek 1#32 1#32] = some fs₁ ∧
      ¬ PositionGood 1 lettersItem fs₁ (.seek 0#32 1#32)) ∧
    ¬ PositionGood 1 lettersItem (lettersSys 0) (.read 1#32 3#32) := by
  constructor
  · refine ⟨lettersSys 3, ?_, ?_⟩
    · rw [runPartial_step (lettersSys_seek (by omega)), runPartial_step (lettersSys_seek (by omega)),
        runPartial_step (lettersSys_seek (by omega))]
      rfl
    · rintro ⟨pos, hopen, hpos, -⟩
      obtain ⟨-, rfl⟩ := (lettersSys_openAt 3).unique hopen
      simp [lettersItem] at hpos
  · rintro ⟨pos, hopen, -, hread⟩
    obtain ⟨-, rfl⟩ := (lettersSys_openAt 0).unique hopen
    have hthree : fread 1#32 3#32 1 (lettersSys 0) =
        some ((toInt32 (3#32 : BitVec 32).toNat, [[0x41#8], [0x42#8], [0x00#8]]), lettersSys 0) := by
      rw [fread_letters (by decide), show (3#32 : BitVec 32).toNat = 0 + 1 + 1 + 1 from rfl,
        lettersItems_succ (by omega), lettersItems_succ (by omega), lettersItems_succ (by omega)]
      rfl
    have hlast := hread _ _ _ hthree 2 [0x00#8] rfl 0 (by simp)
    simp [lettersItem] at hlast

end MaerOS.Analysis
