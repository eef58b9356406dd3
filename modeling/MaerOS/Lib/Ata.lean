import MaerOS.Lib.CString
import MaerOS.Lib.Loop
import MaerOS.Lib.Slice

/-!
# An ATA drive, as seen through its ports

The programmed-input protocol of a hard disk: the host writes a sector count and a
28-bit sector number to the registers of the drive, writes a command, and then, for
each sector, reads the status until the drive requests data, and reads 256 words.

How long the drive looks for a sector is up to the drive. `Timing` lists the status
values the host reads until then; they are arbitrary but for the request bit, which
is clear by their type. One drive is attached; a host that selects the other one
reads zeros. What the protocol forbids (a register written while a command is under
way, data read that was not requested) has no outcome.

`poll_seek` and `drain` are the two rules for a host: from a drive that looks for a
sector, polling comes to an end, and then 256 words are the bytes of that sector and
the drive goes on with the next one.
-/

set_option autoImplicit false

namespace MaerOS.Lib

namespace Ata

/-! ## The drive -/

/-- A status value that does not request data. -/
abbrev Quiet := { s : BitVec 8 // s &&& 0x08#8 = 0#8 }

/-- The status values read while the drive looks for its `k`-th sector, for every `k`. -/
abbrev Timing := ℕ → List Quiet

/-- The registers a host writes before a command. -/
structure TaskFile where
  sector_count : BitVec 8
  lba_low : BitVec 8
  lba_mid : BitVec 8
  lba_high : BitVec 8
  device : BitVec 8

/-- The number of the first sector: 28 bits. -/
def TaskFile.lba (f : TaskFile) : ℕ :=
  (f.device.extractLsb' 0 4 ++ f.lba_high ++ f.lba_mid ++ f.lba_low).toNat

/-- The number of sectors; zero stands for 256. -/
def TaskFile.count (f : TaskFile) : ℕ :=
  if f.sector_count = 0#8 then 256 else f.sector_count.toNat

/-- The registers select the drive that is not there. -/
def TaskFile.other (f : TaskFile) : Bool := f.device.getLsbD 4

/-- The registers hold a sector number, and not cylinder, head and sector. -/
def TaskFile.byLba (f : TaskFile) : Bool := f.device.getLsbD 6

/-- What the drive is doing. In the last two, `left` more sectors follow the one at `lba`. -/
inductive Phase where
  | idle
  /-- The last command came to a sector that is not there. -/
  | failed
  /-- The drive looks for the sector. -/
  | seeking (statuses : List Quiet) (lba left : ℕ)
  /-- The drive holds these words for the host. -/
  | request (words : List (BitVec 16)) (lba left : ℕ)

/-- No command is under way. -/
def Phase.resting : Phase → Bool
  | .idle => true
  | .failed => true
  | .seeking _ _ _ => false
  | .request _ _ _ => false

/-- A drive with `capacity` sectors; `served` counts the sectors it has looked for. -/
structure Drive where
  content : ℕ → BitVec 8
  capacity : ℕ
  timing : Timing
  served : ℕ
  file : TaskFile
  phase : Phase

/-- The words of a sector. -/
def sectorWords (content : ℕ → BitVec 8) (lba : ℕ) : List (BitVec 16) :=
  (List.range 256).map fun i => content (512 * lba + 2 * i + 1) ++ content (512 * lba + 2 * i)

namespace Drive

/-- Go on with `left` sectors from `lba` on. -/
def seek (d : Drive) (lba : ℕ) : (left : ℕ) → Drive
  | 0 => { d with phase := .idle }
  | left + 1 =>
    if lba < d.capacity then
      { d with phase := .seeking (d.timing d.served) lba left, served := d.served + 1 }
    else { d with phase := .failed }

/-- Read the status register. -/
def status (d : Drive) : BitVec 8 × Drive :=
  if d.file.other then (0x00#8, d)
  else
    match d.phase with
    | .idle => (0x50#8, d)
    | .failed => (0x51#8, d)
    | .seeking (s :: ss) lba left => (s, { d with phase := .seeking ss lba left })
    | .seeking [] lba left =>
      (0x58#8, { d with phase := .request (sectorWords d.content lba) lba left })
    | .request _ _ _ => (0x58#8, d)

/-- Read the data register. -/
def data (d : Drive) : Option (BitVec 16 × Drive) :=
  match d.phase with
  | .request [w] lba left => some (w, d.seek (lba + 1) left)
  | .request (w :: w' :: ws) lba left => some (w, { d with phase := .request (w' :: ws) lba left })
  | _ => none

/-- Write the command register. `0x20` reads sectors; the drive that is not there takes no
command. -/
def command (d : Drive) (c : BitVec 8) : Option Drive :=
  if d.file.other then some d
  else if c = 0x20#8 ∧ d.file.byLba then some (d.seek d.file.lba d.file.count)
  else none

/-- Write a byte to a port. -/
def outb (d : Drive) (port : BitVec 16) (v : BitVec 8) : Option Drive :=
  if ¬ d.phase.resting then none
  else if port = 0x1F2#16 then some { d with file := { d.file with sector_count := v } }
  else if port = 0x1F3#16 then some { d with file := { d.file with lba_low := v } }
  else if port = 0x1F4#16 then some { d with file := { d.file with lba_mid := v } }
  else if port = 0x1F5#16 then some { d with file := { d.file with lba_high := v } }
  else if port = 0x1F6#16 then some { d with file := { d.file with device := v } }
  else if port = 0x1F7#16 then d.command v
  else none

/-- Read a byte from a port. -/
def inb (d : Drive) (port : BitVec 16) : Option (BitVec 8 × Drive) :=
  if port = 0x1F7#16 then some d.status else none

/-- Read a word from a port. -/
def inw (d : Drive) (port : BitVec 16) : Option (BitVec 16 × Drive) :=
  if port = 0x1F0#16 then d.data else none

/-! ## A command -/

/-- The six writes of a read command, in the order of both drivers. -/
def readSectors (d : Drive) (file : TaskFile) : Option Drive := do
  let d ← d.outb 0x1F6#16 file.device
  let d ← d.outb 0x1F2#16 file.sector_count
  let d ← d.outb 0x1F3#16 file.lba_low
  let d ← d.outb 0x1F4#16 file.lba_mid
  let d ← d.outb 0x1F5#16 file.lba_high
  d.outb 0x1F7#16 0x20#8

/-- **Command rule.** A resting drive takes the command and goes for the sectors. -/
theorem readSectors_seek {d : Drive} (hrest : d.phase.resting = true) {file : TaskFile}
    (hother : file.other = false) (hlba : file.byLba = true) :
    d.readSectors file = some ({ d with file := file }.seek file.lba file.count) := by
  obtain ⟨content, capacity, timing, served, old, phase⟩ := d
  dsimp only at hrest
  simp [readSectors, outb, command, hrest, hother, hlba]

/-- A command for the drive that is not there only changes the registers. -/
theorem readSectors_other {d : Drive} (hrest : d.phase.resting = true) {file : TaskFile}
    (hother : file.other = true) : d.readSectors file = some { d with file := file } := by
  obtain ⟨content, capacity, timing, served, old, phase⟩ := d
  dsimp only at hrest
  simp [readSectors, outb, command, hrest, hother]

/-! ## Polling -/

/-- One look at the status: the wait ends when data is requested. -/
def pollRound (d : Drive) : Drive ⊕ Drive :=
  let (c, d) := d.status
  if c &&& 0x08#8 = 0#8 then .inr d else .inl d

/-- A drive that is looking for a sector requests data after finitely many looks. -/
theorem loop_pollRound {d : Drive} (hother : d.file.other = false) {lba left : ℕ} :
    ∀ {statuses : List Quiet}, d.phase = .seeking statuses lba left →
      loop pollRound (statuses.length + 1) d =
        some { d with phase := .request (sectorWords d.content lba) lba left } := by
  intro statuses
  induction statuses generalizing d with
  | nil =>
    intro hphase
    refine loop_done ?_ 0
    simp [pollRound, status, hother, hphase]
  | cons s ss ih =>
    intro hphase
    have hround : pollRound d = .inr { d with phase := .seeking ss lba left } := by
      simp [pollRound, status, hother, hphase, s.property]
    rw [List.length_cons, loop_next hround]
    exact ih (d := { d with phase := .seeking ss lba left }) hother rfl

/-- Looking at a drive that has nothing to give changes nothing. -/
theorem pollRound_stuck {d : Drive} (h : d.file.other = true ∨ d.phase.resting = true) :
    pollRound d = .inr d := by
  by_cases hother : d.file.other = true
  · simp [pollRound, status, hother]
  · have hrest := h.resolve_left hother
    cases hphase : d.phase <;> simp_all [pollRound, status, Phase.resting]

/-- The wait for such a drive never ends. -/
theorem not_halts_pollRound {d : Drive} (h : d.file.other = true ∨ d.phase.resting = true) :
    ¬ Halts pollRound d :=
  not_halts_of_invariant (I := fun d' => d'.file.other = true ∨ d'.phase.resting = true)
    (fun d' hd' => ⟨d', pollRound_stuck hd', hd'⟩) h

/-- **Polling rule.** A drive that goes on with a sector it has requests that sector. -/
theorem poll_seek {d : Drive} (hother : d.file.other = false) {lba : ℕ} (hlba : lba < d.capacity)
    (left : ℕ) :
    loop pollRound ((d.timing d.served).length + 1) (d.seek lba (left + 1)) =
      some { d with phase := .request (sectorWords d.content lba) lba left
                    served := d.served + 1 } := by
  have hseek : d.seek lba (left + 1) = { d with
      phase := .seeking (d.timing d.served) lba left, served := d.served + 1 } := if_pos hlba
  rw [hseek]
  exact loop_pollRound (d := { d with
    phase := .seeking (d.timing d.served) lba left, served := d.served + 1 }) hother rfl

/-! ## The words of a sector -/

/-- A drive at the end of its sectors fails. -/
theorem seek_failed {d : Drive} {lba : ℕ} (h : d.capacity ≤ lba) (left : ℕ) :
    (d.seek lba left).phase.resting = true := by
  unfold seek
  split
  · rfl
  · rw [if_neg (by omega)]
    rfl

/-- Going on does not depend on the phase. -/
theorem seek_phase (d : Drive) (phase : Phase) (lba left : ℕ) :
    ({ d with phase := phase } : Drive).seek lba left = d.seek lba left := by
  cases left <;> rfl

/-- A request is followed by the next word, and the last one by the next sector. -/
theorem data_request (d : Drive) (w : BitVec 16) (ws : List (BitVec 16)) (lba left : ℕ) :
    ({ d with phase := .request (w :: ws) lba left } : Drive).data =
      some (w, if ws = [] then d.seek (lba + 1) left
        else { d with phase := .request ws lba left }) := by
  cases ws with
  | nil =>
    rw [if_pos rfl, ← seek_phase d (.request [w] lba left)]
    rfl
  | cons w' ws => rfl

theorem length_sectorWords (content : ℕ → BitVec 8) (lba : ℕ) :
    (sectorWords content lba).length = 256 := by
  simp [sectorWords]

/-! ## A host that takes the sectors -/

section Transfer

variable {σ : Type} (store : σ → BitVec 16 → σ)

/-- Read `n` words and store each. -/
def takeWords : (n : ℕ) → Drive → σ → Option (Drive × σ)
  | 0, d, s => some (d, s)
  | n + 1, d, s => do
    let (w, d) ← d.inw 0x1F0#16
    takeWords n d (store s w)

/-- Take `n` sectors: wait for each, with `fuel` looks at most, and read its 256 words. -/
def transfer (fuel : ℕ) : (n : ℕ) → Drive → σ → Option (Drive × σ)
  | 0, d, s => some (d, s)
  | n + 1, d, s => do
    let d ← loop pollRound fuel d
    let (d, s) ← takeWords store 256 d s
    transfer fuel n d s

/-- The words of `n` sectors. -/
def sectorsWords (content : ℕ → BitVec 8) (lba n : ℕ) : List (BitVec 16) :=
  (List.range n).flatMap fun i => sectorWords content (lba + i)

/-- The words that were requested are stored one after the other. -/
theorem takeWords_request (d : Drive) (lba left : ℕ) {words : List (BitVec 16)}
    (hne : words ≠ []) (s : σ) :
    takeWords store words.length { d with phase := .request words lba left } s =
      some (d.seek (lba + 1) left, words.foldl store s) := by
  induction words generalizing s with
  | nil => exact absurd rfl hne
  | cons w ws ih =>
    have hdata : ({ d with phase := .request (w :: ws) lba left } : Drive).inw 0x1F0#16 =
        some (w, if ws = [] then d.seek (lba + 1) left
          else { d with phase := .request ws lba left }) := data_request d w ws lba left
    rw [List.length_cons, takeWords, hdata, List.foldl_cons]
    by_cases hws : ws = []
    · rw [if_pos hws, hws]
      rfl
    · rw [if_neg hws]
      exact ih hws (store s w)

/-- More patience does no harm. -/
theorem transfer_mono {fuel fuel' : ℕ} (hle : fuel ≤ fuel') : ∀ (n : ℕ) {d : Drive} {s : σ}
    {r : Drive × σ}, transfer store fuel n d s = some r → transfer store fuel' n d s = some r := by
  intro n
  induction n with
  | zero =>
    intro d s r h
    exact h
  | succ n ih =>
    intro d s r h
    rw [transfer, Option.bind_eq_bind, Option.bind_eq_some_iff] at h ⊢
    obtain ⟨d₁, hpoll, h⟩ := h
    refine ⟨d₁, loop_mono hpoll hle, ?_⟩
    rw [Option.bind_eq_bind, Option.bind_eq_some_iff] at h ⊢
    obtain ⟨⟨d₂, s₂⟩, htake, h⟩ := h
    exact ⟨(d₂, s₂), htake, ih h⟩

/-- **One sector**: the host waits for it and stores its words. -/
theorem transfer_succ {d : Drive} (hother : d.file.other = false) {lba : ℕ}
    (hlba : lba < d.capacity) (left : ℕ) {fuel : ℕ} (hfuel : (d.timing d.served).length < fuel)
    (n : ℕ) (s : σ) :
    transfer store fuel (n + 1) (d.seek lba (left + 1)) s =
      transfer store fuel n (({ d with served := d.served + 1 } : Drive).seek (lba + 1) left)
        ((sectorWords d.content lba).foldl store s) := by
  have hne : sectorWords d.content lba ≠ [] := by
    intro hnil
    have hlength := length_sectorWords d.content lba
    rw [hnil] at hlength
    cases hlength
  have htake := takeWords_request store { d with served := d.served + 1 } lba left hne s
  rw [length_sectorWords] at htake
  have hpoll := loop_mono (poll_seek hother hlba left) hfuel
  rw [transfer, hpoll, Option.bind_eq_bind, Option.bind_some, htake, Option.bind_eq_bind,
    Option.bind_some]

/-- The looks that are enough for `n` sectors. -/
def patience (timing : Timing) (served : ℕ) : (n : ℕ) → ℕ
  | 0 => 0
  | n + 1 => max ((timing served).length + 1) (patience timing (served + 1) n)

/-- **Transfer rule.** A host that takes all the sectors of a command, which the drive has, gets
their words, and the drive rests. -/
theorem transfer_seek : ∀ (n : ℕ) {d : Drive}, d.file.other = false → ∀ {lba : ℕ},
    lba + n ≤ d.capacity → ∀ {fuel : ℕ}, patience d.timing d.served n ≤ fuel → ∀ s : σ,
    transfer store fuel n (d.seek lba n) s =
      some (({ d with served := d.served + n } : Drive).seek (lba + n) 0,
        (sectorsWords d.content lba n).foldl store s) := by
  intro n
  induction n with
  | zero =>
    intro d _ lba _ fuel _ s
    rfl
  | succ n ih =>
    intro d hother lba hroom fuel hfuel s
    have hmax : (d.timing d.served).length + 1 ≤ fuel ∧
        patience d.timing (d.served + 1) n ≤ fuel := max_le_iff.mp hfuel
    have hwords : sectorsWords d.content lba (n + 1) =
        sectorWords d.content lba ++ sectorsWords d.content (lba + 1) n := by
      unfold sectorsWords
      rw [List.range_succ_eq_map, List.flatMap_cons, List.flatMap_map]
      congr 1
      refine List.flatMap_congr fun i _ => ?_
      rw [Nat.succ_eq_add_one, show lba + (i + 1) = lba + 1 + i from by omega]
    rw [transfer_succ store hother (by omega) n hmax.1,
      ih (d := { d with served := d.served + 1 }) hother (by dsimp only; omega) hmax.2,
      hwords, List.foldl_append]
    dsimp only
    rw [show lba + 1 + n = lba + (n + 1) from by omega,
      show d.served + 1 + n = d.served + (n + 1) from by omega]

/-- A host that waits for a drive with nothing to give does not get on. -/
theorem transfer_stuck {d : Drive} (h : d.file.other = true ∨ d.phase.resting = true) (fuel n : ℕ)
    (s : σ) : transfer store fuel (n + 1) d s = none := by
  have hpoll : loop pollRound fuel d = none := by
    by_contra hsome
    obtain ⟨d', hd'⟩ := Option.ne_none_iff_exists'.mp hsome
    exact not_halts_pollRound h ⟨fuel, d', hd'⟩
  rw [transfer, hpoll]
  rfl

/-- **No end.** A host that waits for more sectors than it asked for, or than the drive has, never
gets on. -/
theorem transfer_short : ∀ (n : ℕ) {d : Drive}, d.file.other = false → ∀ {lba left : ℕ}, 0 < n →
    left < n ∨ d.capacity < lba + n → ∀ (fuel : ℕ) (s : σ),
    transfer store fuel n (d.seek lba left) s = none := by
  intro n
  induction n with
  | zero =>
    intro d _ lba left hn
    omega
  | succ n ih =>
    intro d hother lba left _ hshort fuel s
    by_cases hend : left = 0 ∨ d.capacity ≤ lba
    · refine transfer_stuck store (.inr ?_) fuel n s
      rcases hend with rfl | hend
      · rfl
      · exact seek_failed hend left
    · obtain ⟨left, rfl⟩ : ∃ left', left = left' + 1 := ⟨left - 1, by omega⟩
      by_contra hsome
      obtain ⟨r, hr⟩ := Option.ne_none_iff_exists'.mp hsome
      -- with more patience the host would get this sector, and then fail on the rest
      have hmore := transfer_mono store (Nat.le_max_left fuel ((d.timing d.served).length + 1))
        (n + 1) hr
      rw [transfer_succ store hother (by omega) left (by omega) n s,
        ih (d := { d with served := d.served + 1 }) hother (by omega)
          (hshort.imp (fun h => by omega) fun h => by dsimp only; omega)] at hmore
      cases hmore

end Transfer

end Drive

/-! ## Words and bytes -/

/-- The bytes of words, least significant byte first. -/
def bytesOf (words : List (BitVec 16)) : List (BitVec 8) :=
  words.flatMap fun w => [w.extractLsb' 0 8, w.extractLsb' 8 8]

theorem length_bytesOf (words : List (BitVec 16)) : (bytesOf words).length = 2 * words.length := by
  induction words with
  | nil => rfl
  | cons w ws ih =>
    unfold bytesOf at ih ⊢
    rw [List.flatMap_cons, List.length_append, ih, List.length_cons]
    simp only [List.length_cons, List.length_nil]
    omega

theorem bytesOf_append (ws ws' : List (BitVec 16)) :
    bytesOf (ws ++ ws') = bytesOf ws ++ bytesOf ws' := by
  unfold bytesOf
  rw [List.flatMap_append]

/-- The words of a stretch of the disk have its bytes. -/
theorem bytesOf_words (f : ℕ → BitVec 8) (pos n : ℕ) :
    bytesOf ((List.range n).map fun i => f (pos + 2 * i + 1) ++ f (pos + 2 * i)) =
      slice f pos (2 * n) := by
  induction n with
  | zero => rfl
  | succ n ih =>
    rw [List.range_succ, List.map_append, bytesOf_append, ih, Nat.mul_succ,
      ← slice_append f pos (2 * n) 2]
    congr 1
    simp only [bytesOf, List.map_cons, List.map_nil, List.flatMap_cons, List.flatMap_nil, List.append_nil,
      slice, List.range_succ, List.range_zero, List.nil_append, List.cons_append]
    rw [BitVec.extractLsb'_append_eq_of_add_le (by omega),
      BitVec.extractLsb'_append_eq_of_le (by omega)]
    simp [Nat.add_assoc]

/-- The words of a sector have the bytes of the sector. -/
theorem bytesOf_sectorWords (content : ℕ → BitVec 8) (lba : ℕ) :
    bytesOf (sectorWords content lba) = slice content (512 * lba) 512 :=
  bytesOf_words content (512 * lba) 256

/-- The words of sectors have the bytes of the sectors. -/
theorem bytesOf_sectorsWords (content : ℕ → BitVec 8) (lba n : ℕ) :
    bytesOf (Drive.sectorsWords content lba n) = slice content (512 * lba) (512 * n) := by
  induction n with
  | zero => rfl
  | succ n ih =>
    have hwords : Drive.sectorsWords content lba (n + 1) =
        Drive.sectorsWords content lba n ++ sectorWords content (lba + n) := by
      unfold Drive.sectorsWords
      rw [List.range_succ, List.flatMap_append, List.flatMap_singleton]
    rw [hwords, bytesOf_append, ih, bytesOf_sectorWords, Nat.mul_succ, ← slice_append,
      Nat.mul_add]

/-! ## Words to memory -/

/-- Store a word at a pointer and move the pointer behind it. -/
def storeNext (s : Memory × BitVec 32) (w : BitVec 16) : Memory × BitVec 32 :=
  (store16 s.1 s.2 w, s.2 + 2#32)

/-- Words stored one behind the other. -/
theorem foldl_storeNext (words : List (BitVec 16)) (m : Memory) (a : BitVec 32)
    (hlen : 2 * words.length < 2 ^ 32) :
    words.foldl storeNext (m, a) =
      (storeBytes m a (bytesOf words), a + BitVec.ofNat 32 (2 * words.length)) := by
  induction words generalizing m a with
  | nil => simp [bytesOf]
  | cons w ws ih =>
    rw [List.length_cons] at hlen
    have hbytes : bytesOf (w :: ws) =
        [w.extractLsb' 0 8, w.extractLsb' 8 8] ++ bytesOf ws := rfl
    have hpair : ([w.extractLsb' 0 8, w.extractLsb' 8 8] : List (BitVec 8)).length = 2 := rfl
    rw [List.foldl_cons, storeNext, ih _ _ (by omega), hbytes,
      storeBytes_append _ _ _ (by rw [length_bytesOf, hpair]; omega), hpair, List.length_cons,
      show 2 * (ws.length + 1) = 2 + 2 * ws.length from by omega, add_ofNat_add]
    rfl

end Ata

end MaerOS.Lib
