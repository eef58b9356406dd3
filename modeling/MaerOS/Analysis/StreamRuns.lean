import MaerOS.Analysis.FatStreams
import MaerOS.Analysis.FileReads

/-!
# Open files do not see each other through the streams

All open files of a volume read through the same three streams. A run of seeks, reads
and opens is compared with the run in which only the calls on one descriptor are made:
those calls return the same values and deliver the same bytes.
-/

set_option autoImplicit false

namespace MaerOS.Analysis

open MaerOS.Lib MaerOS.Model
open MaerOS.Model.Streams (FatStreams StreamFileM)

/-- A call of the file layer. -/
inductive FileCall where
  | seek (fd : ℤ) (offset whence : BitVec 32)
  | read (size nmemb : BitVec 32) (fd : ℤ)
  | openFile (filename mode_str : List (BitVec 8))

/-- What a call returns and the bytes it delivers. -/
abbrev FileResult := ℤ × List (List (BitVec 8))

/-- The call on the driver with its streams. -/
def FileCall.exec : FileCall → StreamFileM FileResult
  | seek fd offset whence => do
    let res ← Streams.fseek fd offset whence
    pure (res, [])
  | read size nmemb fd => Streams.fread size nmemb fd
  | openFile filename mode_str => do
    let res ← Streams.fopen filename mode_str
    pure (res, [])

/-- The results of the calls, in order. -/
def fileRun : List FileCall → StreamFileM (List FileResult)
  | [] => pure []
  | c :: calls => do
    let r ← c.exec
    let rs ← fileRun calls
    pure (r :: rs)

/-- The call is a seek or a read on `fd`. -/
def FileCall.on (fd : ℤ) : FileCall → Bool
  | seek fd' _ _ => fd' = fd
  | read _ _ fd' => fd' = fd
  | openFile _ _ => false

/-- The results of the calls on `fd`. -/
def resultsOn (fd : ℤ) (calls : List FileCall) (rs : List FileResult) : List FileResult :=
  ((calls.zip rs).filter fun p => p.1.on fd).map Prod.snd

/-! ## Without the streams -/

/-- The call on the driver without streams. -/
def FileCall.pureExec : FileCall → FileM FileResult
  | seek fd offset whence => do
    let res ← fseek fd offset whence
    pure (res, [])
  | read size nmemb fd => fread size nmemb fd
  | openFile filename mode_str => do
    let res ← fopen filename mode_str
    pure (res, [])

/-- The results of the calls, in order. -/
def pureRun : List FileCall → FileM (List FileResult)
  | [] => pure []
  | c :: calls => do
    let r ← c.pureExec
    let rs ← pureRun calls
    pure (r :: rs)

theorem FileCall.exec_forgets (c : FileCall) : Forgets c.exec c.pureExec := by
  cases c with
  | seek fd offset whence =>
    apply Forgets.bind (Forgets.lift _)
    intro res
    exact Forgets.pure _
  | read size nmemb fd => exact fread_forgets size nmemb fd
  | openFile filename mode_str =>
    apply Forgets.bind (fopen_forgets filename mode_str)
    intro res
    exact Forgets.pure _

theorem fileRun_forgets (calls : List FileCall) : Forgets (fileRun calls) (pureRun calls) := by
  induction calls with
  | nil => exact Forgets.pure _
  | cons c calls ih =>
    apply Forgets.bind c.exec_forgets
    intro r
    apply Forgets.bind ih
    intro rs
    exact Forgets.pure _

/-- An outcome without streams is an outcome with streams, and the other way round. -/
theorem forgets_outcome {α : Type} {m : StreamFileM α} {m' : FileM α} (h : Forgets m m')
    (streams : FatStreams) {fs fs' : FileSys} {a : α} :
    m' fs = some (a, fs') ↔ ∃ streams', m streams fs = some ((a, streams'), fs') := by
  rw [← h streams]
  show (m streams fs).bind _ = _ ↔ _
  cases m streams fs with
  | none => simp
  | some r =>
    obtain ⟨⟨b, streams'⟩, fs''⟩ := r
    show some (b, fs'') = some (a, fs') ↔ _
    simp

/-! ## One descriptor -/

/-- The two states have the same volume and the same descriptor `fd`, which is open. -/
structure SameFile (fd : ℤ) (desc : FileDescriptor) (fs gs : FileSys) : Prop where
  volume : fs.filesystem = gs.filesystem
  left : fileGetDescriptor fs fd = some desc
  right : fileGetDescriptor gs fd = some desc

/-- `fread` is decided by the descriptor and the volume. -/
theorem fread_of_same {fd : ℤ} {desc : FileDescriptor} {fs gs fs' : FileSys}
    (h : SameFile fd desc fs gs) {size nmemb : BitVec 32} {r : FileResult}
    (hread : fread size nmemb fd fs = some (r, fs')) : fread size nmemb fd gs = some (r, gs) := by
  unfold fread at hread ⊢
  split at hread
  · rename_i hargs
    obtain ⟨rfl, -⟩ := prog_pure.mp hread
    rw [if_pos hargs]
    rfl
  · rename_i hargs
    rw [if_neg hargs, bind_get, h.right, ← h.volume]
    rw [bind_get, h.left] at hread
    cases hvol : fs.filesystem with
    | none =>
      rw [hvol] at hread
      cases hread
    | some vol =>
      rw [hvol] at hread
      obtain ⟨heap, hoff, -⟩ := onHeap_some.mp hread
      obtain ⟨r', hr, heq⟩ := Option.map_eq_some_iff.mp hoff
      cases heq
      apply onHeap_some.mpr
      refine ⟨gs.heap, ?_, rfl⟩
      unfold offDisk
      rw [hr]
      rfl

/-- A call on the descriptor itself returns the same in both states. -/
theorem FileCall.exec_on {fd : ℤ} {desc : FileDescriptor} {fs gs fs' : FileSys} {c : FileCall}
    (h : SameFile fd desc fs gs) (hon : c.on fd = true) {r : FileResult}
    (hexec : c.pureExec fs = some (r, fs')) :
    ∃ desc' gs', c.pureExec gs = some (r, gs') ∧ SameFile fd desc' fs' gs' := by
  cases c with
  | seek fd' offset whence =>
    obtain rfl : fd' = fd := of_decide_eq_true hon
    obtain ⟨res, fs₁, hseek, hrest⟩ := prog_bind.mp hexec
    obtain ⟨rfl, rfl⟩ := prog_pure.mp hrest
    rw [fseek_eq h.left] at hseek
    obtain ⟨r', hr, heq⟩ := Option.map_eq_some_iff.mp hseek
    cases heq
    refine ⟨{ desc with priv := { desc.priv with pos := r'.2 } }, _, prog_bind.mpr
      ⟨r'.1, gs.setDescriptor (fd' - 1).toNat
        (some { desc with priv := { desc.priv with pos := r'.2 } }), ?_, rfl⟩, h.volume,
      fileGetDescriptor_setDescriptor h.left _, fileGetDescriptor_setDescriptor h.right _⟩
    rw [fseek_eq h.right, hr]
    rfl
  | read size nmemb fd' =>
    obtain rfl : fd' = fd := of_decide_eq_true hon
    obtain ⟨rfl, -⟩ := fread_cases hexec
    exact ⟨desc, gs, fread_of_same h hexec, h⟩
  | openFile filename mode_str => simp [FileCall.on] at hon

/-- `fopen` leaves the descriptors that are open as they are. -/
theorem fopen_keeps {filename mode_str : List (BitVec 8)} {fs fs' : FileSys} {res : ℤ}
    (hopen : fopen filename mode_str fs = some (res, fs')) {fd : ℤ} {desc : FileDescriptor}
    (hdesc : fileGetDescriptor fs fd = some desc) :
    fs'.filesystem = fs.filesystem ∧ fileGetDescriptor fs' fd = some desc := by
  have hpriv : ∀ {r : Except ℤ FatFileDescriptor} {fs₁ : FileSys},
      fopenPrivate filename mode_str fs = some (r, fs₁) → ∃ heap, fs₁ = { fs with heap := heap } := by
    intro r fs₁ hrun
    obtain ⟨root, h₁, -, ⟨_, -, -, rfl⟩ | ⟨_, _, _, h₂, -, -, -, rfl⟩⟩ := fopenPrivate_cases hrun
    · exact ⟨h₁, rfl⟩
    · exact ⟨h₂, rfl⟩
  rw [fopen_eq] at hopen
  obtain ⟨⟨d, _⟩, hmake, heq⟩ := Option.map_eq_some_iff.mp hopen
  cases heq
  rcases fopenDesc_cases hmake with ⟨err, hrun, -⟩ | ⟨priv, fs₁, hrun, hnew⟩
  · obtain ⟨heap, rfl⟩ := hpriv hrun
    exact ⟨rfl, hdesc⟩
  · obtain ⟨heap, rfl⟩ := hpriv hrun
    rcases fileNewDescriptor_cases hnew with ⟨-, -, rfl⟩ | ⟨i, p, h', hslot, -, -, -, rfl⟩
    · exact ⟨rfl, hdesc⟩
    · refine ⟨rfl, ?_⟩
      obtain ⟨h1, h2, hfd⟩ := fileGetDescriptor_range hdesc
      -- the new descriptor goes to a slot that was empty
      have hnone : (fs.file_descriptors i).isNone := by
        have := List.find?_some hslot
        simpa using this
      have hne : (fd - 1).toNat ≠ i := by
        rintro rfl
        rw [hfd] at hnone
        simp at hnone
      unfold fileGetDescriptor
      rw [if_neg (by omega), setDescriptor_ne _ hne]
      exact hfd

/-- A call on another descriptor, or an open, leaves the descriptor and the volume alone. -/
theorem FileCall.exec_off {fd : ℤ} {desc : FileDescriptor} {fs fs' : FileSys} {c : FileCall}
    (hdesc : fileGetDescriptor fs fd = some desc) (hoff : c.on fd = false) {r : FileResult}
    (hexec : c.pureExec fs = some (r, fs')) :
    fs'.filesystem = fs.filesystem ∧ fileGetDescriptor fs' fd = some desc := by
  cases c with
  | seek fd' offset whence =>
    have hne : fd' ≠ fd := of_decide_eq_false hoff
    obtain ⟨res, fs₁, hseek, hrest⟩ := prog_bind.mp hexec
    obtain ⟨-, rfl⟩ := prog_pure.mp hrest
    cases hdesc' : fileGetDescriptor fs fd' with
    | none =>
      unfold fseek at hseek
      rw [bind_get, hdesc'] at hseek
      obtain ⟨-, rfl⟩ := prog_pure.mp hseek
      exact ⟨rfl, hdesc⟩
    | some desc' =>
      rw [fseek_eq hdesc'] at hseek
      obtain ⟨r', -, heq⟩ := Option.map_eq_some_iff.mp hseek
      cases heq
      exact ⟨rfl, fileGetDescriptor_setDescriptor_ne hdesc hdesc' hne _⟩
  | read size nmemb fd' =>
    obtain ⟨rfl, -⟩ := fread_cases hexec
    exact ⟨rfl, hdesc⟩
  | openFile filename mode_str =>
    obtain ⟨res, fs₁, hopen, hrest⟩ := prog_bind.mp hexec
    obtain ⟨-, rfl⟩ := prog_pure.mp hrest
    exact fopen_keeps hopen hdesc

/-! ## Two runs -/

/-- The run of the calls on one descriptor returns what these calls return among all others. -/
theorem pureRun_filter (fd : ℤ) : ∀ (calls : List FileCall) (desc : FileDescriptor)
    (fs gs fs' : FileSys) (rs : List FileResult), SameFile fd desc fs gs →
    pureRun calls fs = some (rs, fs') →
    ∃ gs', pureRun (calls.filter (·.on fd)) gs = some (resultsOn fd calls rs, gs') := by
  intro calls
  induction calls with
  | nil =>
    intro desc fs gs fs' rs _ hrun
    obtain ⟨rfl, rfl⟩ := prog_pure.mp hrun
    exact ⟨gs, rfl⟩
  | cons c calls ih =>
    intro desc fs gs fs' rs h hrun
    obtain ⟨r, fs₁, hexec, hrest⟩ := prog_bind.mp hrun
    obtain ⟨rest, fs₂, hcalls, hlast⟩ := prog_bind.mp hrest
    obtain ⟨rfl, rfl⟩ := prog_pure.mp hlast
    cases hon : c.on fd with
    | true =>
      obtain ⟨desc', gs₁, hexec', h'⟩ := FileCall.exec_on h hon hexec
      obtain ⟨gs', hcalls'⟩ := ih desc' fs₁ gs₁ fs₂ rest h' hcalls
      refine ⟨gs', ?_⟩
      rw [List.filter_cons_of_pos hon]
      apply prog_bind.mpr
      refine ⟨r, gs₁, hexec', prog_bind.mpr ⟨_, gs', hcalls', ?_⟩⟩
      simp only [resultsOn, List.zip_cons_cons, List.filter_cons, hon, if_true, List.map_cons]
      rfl
    | false =>
      obtain ⟨hvol, hdesc⟩ := FileCall.exec_off h.left hon hexec
      obtain ⟨gs', hcalls'⟩ := ih desc fs₁ gs fs₂ rest ⟨hvol.trans h.volume, hdesc, h.right⟩ hcalls
      refine ⟨gs', ?_⟩
      rw [List.filter_cons_of_neg (by simp [hon])]
      simpa [resultsOn, hon] using hcalls'

/-- **Open files do not see each other through the streams.** In every run of seeks and reads on
any descriptors and of opens, the calls on the open descriptor `fd` return the values and deliver
the bytes that they do in the run of these calls alone. -/
theorem streams_do_not_leak (fs fs' : FileSys) (streams streams' : FatStreams) (fd : ℤ)
    (desc : FileDescriptor) (hopen : fileGetDescriptor fs fd = some desc) (calls : List FileCall)
    (rs : List FileResult) (hrun : fileRun calls streams fs = some ((rs, streams'), fs')) :
    ∃ streams'' fs'', fileRun (calls.filter (·.on fd)) streams fs =
      some ((resultsOn fd calls rs, streams''), fs'') := by
  have hpure := (forgets_outcome (fileRun_forgets calls) streams).mpr ⟨streams', hrun⟩
  obtain ⟨fs'', hfilter⟩ := pureRun_filter fd calls desc fs fs fs' rs ⟨rfl, hopen, hopen⟩ hpure
  obtain ⟨streams'', hrun'⟩ := (forgets_outcome (fileRun_forgets _) streams).mp hfilter
  exact ⟨streams'', fs'', hrun'⟩

/-- The file opened a second time, with records of its own. -/
def lettersAgain (pos : ℕ) : FileDescriptor :=
  { addr := blockAddr 7
    index := 2
    priv := ⟨blockAddr 4, ⟨blockAddr 5, .file (blockAddr 6) lettersItem⟩, pos⟩ }

/-- The file layer with the file open twice. -/
def lettersTwice (pos : ℕ) : FileSys := (lettersSys 0).setDescriptor 1 (some (lettersAgain pos))

theorem lettersTwice_first (pos : ℕ) :
    fileGetDescriptor (lettersTwice pos) 1 = some (lettersDesc 0) := rfl

theorem lettersTwice_second (pos : ℕ) :
    fileGetDescriptor (lettersTwice pos) 2 = some (lettersAgain pos) := rfl

theorem lettersAgain_entry (pos : ℕ) : (lettersAgain pos).priv.entry = some lettersItem := by
  unfold FatFileDescriptor.entry lettersAgain
  exact if_neg (blockAddr_ne_zero (by omega))

/-- Reading one letter through the first descriptor. -/
theorem lettersTwice_read (pos : ℕ) :
    fread 1#32 1#32 1 (lettersTwice pos) = some ((1, [[0x41#8]]), lettersTwice pos) := by
  rw [fread_lettersFile (lettersTwice_first pos) rfl (lettersDesc_entry 0) rfl (by decide)
    (by decide), show (1#32 : BitVec 32).toNat = 0 + 1 from rfl, lettersItems_succ (by decide)]
  rfl

/-- Reading both letters through the first descriptor. -/
theorem lettersTwice_read_two (pos : ℕ) : fread 1#32 2#32 1 (lettersTwice pos) =
    some ((2, [[0x41#8], [0x42#8]]), lettersTwice pos) := by
  rw [fread_lettersFile (lettersTwice_first pos) rfl (lettersDesc_entry 0) rfl (by decide)
    (by decide), show (2#32 : BitVec 32).toNat = 0 + 1 + 1 from rfl, lettersItems_succ (by decide),
    lettersItems_succ (by decide)]
  rfl

/-- Reading one letter through the second descriptor, which is at the second letter. -/
theorem lettersTwice_read_second :
    fread 1#32 1#32 2 (lettersTwice 1) = some ((1, [[0x42#8]]), lettersTwice 1) := by
  rw [fread_lettersFile (lettersTwice_second 1) rfl (lettersAgain_entry 1) rfl (by decide)
    (by decide), show (1#32 : BitVec 32).toNat = 0 + 1 from rfl, lettersItems_succ (by decide)]
  rfl

/-- The second descriptor goes on to the second letter. -/
theorem lettersTwice_seek :
    fseek 2 1#32 0#32 (lettersTwice 0) = some (0, lettersTwice 1) := by
  have hseek : fat16Seek (lettersAgain 0).priv 1#32 0#32 = some (0, 1) := by
    have hne : ¬ blockAddr 6 = 0#32 := blockAddr_ne_zero (by omega)
    simp only [fat16Seek, lettersAgain, hne, if_false, if_true]
    rfl
  rw [fseek_eq (lettersTwice_second 0), hseek]
  show some ((0 : ℤ), (lettersTwice 0).setDescriptor 1 _) = some (0, lettersTwice 1)
  unfold lettersTwice FileSys.setDescriptor
  dsimp only
  rw [Function.update_idem]
  rfl

/-- Reading through one descriptor, with a seek and a read on the other in between. -/
theorem pureRun_letters :
    pureRun [.read 1#32 1#32 1, .seek 2 1#32 0#32, .read 1#32 1#32 2, .read 1#32 2#32 1]
      (lettersTwice 0) =
        some ([(1, [[0x41#8]]), (0, []), (1, [[0x42#8]]), (2, [[0x41#8], [0x42#8]])],
          lettersTwice 1) := by
  have hseek : (FileCall.seek 2 1#32 0#32).pureExec (lettersTwice 0) =
      some ((0, []), lettersTwice 1) := prog_bind.mpr ⟨_, _, lettersTwice_seek, rfl⟩
  refine prog_bind.mpr ⟨_, _, lettersTwice_read 0, prog_bind.mpr ⟨_, _, ?_, rfl⟩⟩
  refine prog_bind.mpr ⟨_, _, hseek, prog_bind.mpr ⟨_, _, ?_, rfl⟩⟩
  refine prog_bind.mpr ⟨_, _, lettersTwice_read_second, prog_bind.mpr ⟨_, _, ?_, rfl⟩⟩
  exact prog_bind.mpr ⟨_, _, lettersTwice_read_two 1, rfl⟩

/-- The same file open twice: what the first descriptor reads does not depend on the seek and the
read of the second, which move the streams. -/
theorem streams_do_not_leak_letters :
    ∃ streams'' fs'', fileRun [.read 1#32 1#32 1, .read 1#32 2#32 1] (fun _ => 7)
      (lettersTwice 0) =
        some (([(1, [[0x41#8]]), (2, [[0x41#8], [0x42#8]])], streams''), fs'') := by
  obtain ⟨streams', hrun⟩ :=
    (forgets_outcome (fileRun_forgets _) (fun _ => 7)).mp pureRun_letters
  exact streams_do_not_leak (lettersTwice 0) _ (fun _ => 7) streams' 1 (lettersDesc 0)
    (lettersTwice_first 0) _ _ hrun

end MaerOS.Analysis
