import MaerOS.Analysis.DiskDriver
import MaerOS.Analysis.Streamer
import MaerOS.Model.FatStreams
import MaerOS.Lib.Run

/-!
# Streams over the driver

`diskstreamer_read` reads whole sectors into a buffer on its stack, by way of the
ports of the drive, and copies bytes from there to memory. It is compared with the
read of a disk that is just a function. A read that returns has returned what that
one returns, memory has got the bytes, the position has moved on as it should, and
only the bytes and the buffers have changed (`diskstreamerReadIo_done`); and it does
return where the drive has every sector it asks for (`diskstreamerReadIo_ends`).

A run of seeks and reads by the three streams of the file system is then a run over
that function (`stream_runs_over_ports`): the drive, its registers and the time it
takes do not show.
-/

set_option autoImplicit false

namespace MaerOS.Analysis

open MaerOS.Lib MaerOS.Model
open MaerOS.Model.Streams (FatStream FatStreams)

/-! ## Copying out of the buffer -/

/-- The bytes are copied one by one. -/
theorem copyOut_eq (bs : List (BitVec 8)) (out src : Addr) (s : Io) (hlen : bs.length < 2 ^ 32)
    (hsrc : ∀ i, (hi : i < bs.length) → s.mem (src + BitVec.ofNat 32 i) = bs[i])
    (haway : ∀ i < bs.length, ∀ j < bs.length, src + BitVec.ofNat 32 i ≠ out + BitVec.ofNat 32 j) :
    copyOut bs.length out src s =
      some (out + BitVec.ofNat 32 bs.length, { s with mem := storeBytes s.mem out bs }) := by
  induction bs generalizing out src s with
  | nil =>
    rw [List.length_nil, BitVec.add_zero]
    rfl
  | cons b bs ih =>
    rw [List.length_cons] at hlen haway
    have hb : s.mem src = b := by
      have h0 := hsrc 0 (Nat.succ_pos _)
      rwa [show src + BitVec.ofNat 32 0 = src from by simp] at h0
    have hpeek : peekByte src s = some (b, s) := by rw [← hb]; rfl
    have hpoke : pokeByte out b s = some ((), { s with mem := Function.update s.mem out b }) := rfl
    rw [List.length_cons, copyOut, bind_of_some hpeek, bind_of_some hpoke, ih]
    · rw [storeBytes_cons _ _ _ (by omega), add_ofNat_succ out bs.length]
    · omega
    · intro i hi
      dsimp only
      rw [Function.update_of_ne]
      · rw [← add_ofNat_succ, hsrc (i + 1) (by simpa using hi)]
        rfl
      · rw [← add_ofNat_succ]
        simpa using haway (i + 1) (by omega) 0 (by omega)
    · intro i hi j hj
      rw [← add_ofNat_succ, ← add_ofNat_succ]
      exact haway (i + 1) (by omega) (j + 1) (by omega)

/-- Copying always comes to an end, and is no business of the drive. -/
theorem copyOut_drive (n : ℕ) (out src : Addr) (s : Io) : ∃ mem,
    copyOut n out src s = some (out + BitVec.ofNat 32 n, ⟨s.drive, mem⟩) := by
  induction n generalizing out src s with
  | zero =>
    refine ⟨s.mem, ?_⟩
    rw [BitVec.add_zero]
    rfl
  | succ n ih =>
    obtain ⟨mem, hcopy⟩ := ih (out + 1#32) (src + 1#32)
      { s with mem := Function.update s.mem out (s.mem src) }
    refine ⟨mem, ?_⟩
    rw [add_ofNat_succ out n, ← hcopy]
    rfl

/-! ## Where a read may store -/

/-- The buffer of the `k`-th call, counted from the first. -/
def bufferAt (buf frame : BitVec 32) (k : ℕ) : Addr := buf - BitVec.ofNat 32 k * frame

/-- The buffer of the first call. -/
theorem bufferAt_zero (buf frame : BitVec 32) : bufferAt buf frame 0 = buf := by
  simp [bufferAt]

/-- The later calls have their buffers below. -/
theorem bufferAt_succ (buf frame : BitVec 32) (k : ℕ) :
    bufferAt (buf - frame) frame k = bufferAt buf frame (k + 1) := by
  unfold bufferAt
  rw [BitVec.ofNat_add, BitVec.add_mul, BitVec.sub_sub]
  congr 1
  simp [BitVec.add_comm]

/-- The byte lies in one of the buffers of `n` calls. -/
def InBuffers (buf frame : BitVec 32) (n : ℕ) (x : Addr) : Prop :=
  ∃ k < n, (x - bufferAt buf frame k).toNat < 512

/-- No byte of the destination lies in a buffer. -/
def OutOfBuffers (buf frame : BitVec 32) (n : ℕ) (out : Addr) (len : ℕ) : Prop :=
  ∀ i < len, ¬ InBuffers buf frame n (out + BitVec.ofNat 32 i)

/-- The buffers of the later calls are among those of all calls. -/
theorem InBuffers.later {buf frame : BitVec 32} {n : ℕ} {x : Addr}
    (h : InBuffers (buf - frame) frame n x) : InBuffers buf frame (n + 1) x := by
  obtain ⟨k, hk, hx⟩ := h
  exact ⟨k + 1, by omega, by rwa [← bufferAt_succ]⟩

/-- Fewer buffers and fewer bytes. -/
theorem OutOfBuffers.mono {buf frame : BitVec 32} {n n' : ℕ} {out : Addr} {len len' : ℕ}
    (h : OutOfBuffers buf frame n out len) (hn : n' ≤ n) (hlen : len' ≤ len) :
    OutOfBuffers buf frame n' out len' := by
  rintro i hi ⟨k, hk, hx⟩
  exact h i (by omega) ⟨k, by omega, hx⟩

/-- What is left to deliver is out of the buffers of the later calls. -/
theorem OutOfBuffers.later {buf frame : BitVec 32} {n : ℕ} {out : Addr} {a b : ℕ}
    (h : OutOfBuffers buf frame (n + 1) out (a + b)) :
    OutOfBuffers (buf - frame) frame n (out + BitVec.ofNat 32 a) b := by
  intro i hi hin
  rw [← add_ofNat_add] at hin
  exact h (a + i) (by omega) hin.later

/-- From `mem` to `mem'`, `bytes` came to `out`, and apart from them only the buffers changed. -/
structure Delivered (buf frame : BitVec 32) (n : ℕ) (out : Addr) (bytes : List (BitVec 8))
    (mem mem' : Memory) : Prop where
  arrived : ∀ i, (hi : i < bytes.length) → mem' (out + BitVec.ofNat 32 i) = bytes[i]
  rest : ∀ x, bytes.length ≤ (x - out).toNat → ¬ InBuffers buf frame n x → mem' x = mem x

/-- What a sector leaves in the buffer and at the destination. -/
theorem delivered_sector {buf frame : BitVec 32} {out : Addr} {mem : Memory}
    {sector part : List (BitVec 8)} (hsector : sector.length ≤ 512) (hlen : part.length < 2 ^ 32) :
    Delivered buf frame 1 out part mem (storeBytes (storeBytes mem buf sector) out part) := by
  constructor
  · intro i hi
    unfold storeBytes
    rw [add_ofNat_sub out (by omega)]
    exact List.getD_eq_getElem _ _ hi
  · intro x hx hbuf
    have hfar : 512 ≤ (x - buf).toNat := by
      by_contra hlt
      exact hbuf ⟨0, by omega, by rw [bufferAt_zero]; omega⟩
    rw [storeBytes_of_far hx, storeBytes_of_far (hsector.trans hfar)]

/-- The bytes of a first sector and then those of the others. -/
theorem Delivered.append {buf frame : BitVec 32} {n : ℕ} {out : Addr} {xs ys : List (BitVec 8)}
    {mem mem₁ mem₂ : Memory} (h : Delivered buf frame 1 out xs mem mem₁)
    (h' : Delivered (buf - frame) frame n (out + BitVec.ofNat 32 xs.length) ys mem₁ mem₂)
    (hlen : xs.length + ys.length < 2 ^ 32)
    (hout : OutOfBuffers buf frame (n + 1) out (xs.length + ys.length)) :
    Delivered buf frame (n + 1) out (xs ++ ys) mem mem₂ := by
  constructor
  · intro i hi
    rw [List.length_append] at hi
    by_cases hfirst : i < xs.length
    · -- the later calls leave the bytes of the first sector alone
      have hfar : (out + BitVec.ofNat 32 i - (out + BitVec.ofNat 32 xs.length)).toNat ≥ ys.length := by
        have hsub : out + BitVec.ofNat 32 i - (out + BitVec.ofNat 32 xs.length) =
            BitVec.ofNat 32 i - BitVec.ofNat 32 xs.length := by bv_omega
        rw [hsub, BitVec.toNat_sub, BitVec.toNat_ofNat, BitVec.toNat_ofNat]
        omega
      rw [h'.rest _ hfar fun hin => hout i (by omega) hin.later, h.arrived i hfirst,
        List.getElem_append_left hfirst]
    · have hrest := h'.arrived (i - xs.length) (by omega)
      rw [← add_ofNat_add, show xs.length + (i - xs.length) = i from by omega] at hrest
      rw [hrest, List.getElem_append_right (by omega)]
  · intro x hx hbuf
    rw [List.length_append] at hx
    have hx₂ : ys.length ≤ (x - (out + BitVec.ofNat 32 xs.length)).toNat := by
      have hsub : x - (out + BitVec.ofNat 32 xs.length) = x - out - BitVec.ofNat 32 xs.length := by
        bv_omega
      rw [hsub, BitVec.toNat_sub, BitVec.toNat_ofNat]
      have := (x - out).isLt
      omega
    rw [h'.rest x hx₂ fun hin => hbuf hin.later, h.rest x (by omega)]
    rintro ⟨k, hk, hin⟩
    exact hbuf ⟨k, by omega, hin⟩

/-! ## One sector -/

/-- The driver reads one sector of the drive. -/
theorem diskReadBlockAt_some {drive : Ata.Drive} (hrest : drive.phase.resting = true) {sector : ℕ}
    (hsector : sector < 2 ^ 22) (hroom : sector < drive.capacity) {fuel : ℕ}
    (hfuel : Ata.Drive.patience drive.timing drive.served 1 ≤ fuel) (disk buf : Addr)
    (mem : Memory) :
    diskReadBlockAt fuel disk disk (BitVec.ofNat 32 sector) 1#32 buf ⟨drive, mem⟩ =
      some (0, ⟨afterRead drive (BitVec.ofNat 32 sector) 1#32,
        storeBytes mem buf (diskReadBlock drive.content sector)⟩) := by
  have hlba : (BitVec.ofNat 32 sector).toNat = sector := by
    rw [BitVec.toNat_ofNat]
    omega
  have hread : Readable drive (BitVec.ofNat 32 sector) 1#32 := by
    refine ⟨?_, by decide, ?_⟩
    · rw [BitVec.getLsbD_ofNat, Nat.testBit_lt_two_pow (by omega), Bool.and_false]
    · rw [hlba]
      simp only [BitVec.toNat_ofNat]
      omega
  have hsome : diskReadSector fuel (BitVec.ofNat 32 sector) 1#32 buf ⟨drive, mem⟩ = _ :=
    diskReadSector_some (by decide) hrest hread hfuel
  rw [hlba, Nat.mod_eq_of_lt (by omega)] at hsome
  unfold diskReadBlockAt
  rw [if_neg (by simp), hsome]
  rfl

/-- The driver never gets a sector that the drive does not have. -/
theorem diskReadBlockAt_none {s : Io} (hrest : s.drive.phase.resting = true) {sector : ℕ}
    (hsector : sector < 2 ^ 22) (hroom : s.drive.capacity ≤ sector) (fuel : ℕ) (disk buf : Addr) :
    diskReadBlockAt fuel disk disk (BitVec.ofNat 32 sector) 1#32 buf s = none := by
  have hlba : (BitVec.ofNat 32 sector).toNat = sector := by
    rw [BitVec.toNat_ofNat]
    omega
  unfold diskReadBlockAt
  rw [if_neg (by simp), diskReadSector_none (by decide) hrest]
  rintro ⟨-, -, hin⟩
  rw [hlba] at hin
  simp only [BitVec.toNat_ofNat] at hin
  omega

/-- What the driver has done when it returns. -/
theorem diskReadBlockAt_inv {s s' : Io} {res : ℤ} {fuel sector : ℕ} {disk buf : Addr}
    (h : diskReadBlockAt fuel disk disk (BitVec.ofNat 32 sector) 1#32 buf s = some (res, s'))
    (hrest : s.drive.phase.resting = true) (hsector : sector < 2 ^ 22) :
    sector < s.drive.capacity ∧ res = 0 ∧
      s' = ⟨afterRead s.drive (BitVec.ofNat 32 sector) 1#32,
        storeBytes s.mem buf (diskReadBlock s.drive.content sector)⟩ := by
  have hroom : sector < s.drive.capacity := by
    by_contra hle
    rw [diskReadBlockAt_none hrest hsector (by omega)] at h
    cases h
  have hmore : diskReadBlockAt (max fuel (Ata.Drive.patience s.drive.timing s.drive.served 1)) disk
      disk (BitVec.ofNat 32 sector) 1#32 buf s = some (res, s') := by
    unfold diskReadBlockAt at h ⊢
    rw [if_neg (by simp)] at h ⊢
    exact diskReadSector_mono (Nat.le_max_left _ _) h
  rw [diskReadBlockAt_some hrest hsector hroom (Nat.le_max_right _ _)] at hmore
  cases hmore
  exact ⟨hroom, rfl, rfl⟩

/-- The bytes that are wanted are copied from the buffer to the destination. -/
theorem copyOut_sector (drive : Ata.Drive) (mem : Memory) {sector : List (BitVec 8)}
    (hsector : sector.length = 512) {offset n : ℕ} (hin : offset + n ≤ 512)
    {buf frame out : Addr} (hout : OutOfBuffers buf frame 1 out n) :
    copyOut n out (buf + BitVec.ofNat 32 offset) ⟨drive, storeBytes mem buf sector⟩ =
      some (out + BitVec.ofNat 32 n, ⟨drive,
        storeBytes (storeBytes mem buf sector) out ((sector.drop offset).take n)⟩) := by
  have hlength : ((sector.drop offset).take n).length = n := by
    rw [List.length_take, List.length_drop]
    omega
  have hcopy := copyOut_eq ((sector.drop offset).take n) out (buf + BitVec.ofNat 32 offset)
    ⟨drive, storeBytes mem buf sector⟩ (by omega) ?_ ?_
  · rwa [hlength] at hcopy
  · intro i hi
    rw [hlength] at hi
    dsimp only
    rw [← add_ofNat_add]
    unfold storeBytes
    rw [add_ofNat_sub buf (by omega), List.getD_eq_getElem _ _ (by omega), List.getElem_take,
      List.getElem_drop]
  · intro i hi j hj heq
    rw [hlength] at hi hj
    rw [← add_ofNat_add] at heq
    refine hout j hj ⟨0, by omega, ?_⟩
    rw [bufferAt_zero, ← heq, add_ofNat_sub buf (by omega)]
    omega

/-! ## The whole read -/

/-- What the division of a position gives. -/
theorem sector_bounds {pos : ℤ} (hpos : pos < 2 ^ 31) :
    (pos / (maerosSectorSize : ℕ)).toNat < 2 ^ 22 ∧ 0 ≤ pos % (maerosSectorSize : ℕ) ∧
      pos % (maerosSectorSize : ℕ) < 512 := by
  simp only [maerosSectorSize]
  omega

/-- A read delivers as many bytes as it was asked for. -/
theorem length_out {disk : Disk} {pos total : ℤ} :
    ∀ {read : StreamRead}, diskstreamerRead disk pos total = some read →
      read.out.length = total.toNat := by
  fun_induction diskstreamerRead disk pos total with
  | case1 pos total =>
    intro read h
    cases h
  | case2 pos total =>
    intro read h
    cases h
  | case3 pos total sector offset buf hgood hover total_to_read hwrap =>
    rename_i ih
    intro read h
    obtain ⟨rest, hrest, h⟩ := Option.bind_eq_some_iff.mp h
    cases h
    have hlength := ih hrest
    have hbuf : buf.length = 512 := length_slice _ _ _
    dsimp only
    rw [List.length_append, List.length_take, List.length_drop, hlength, hbuf]
    simp only [maerosSectorSize, offset, total_to_read] at *
    omega
  | case4 pos total sector offset buf hgood =>
    rename_i hover
    intro read h
    cases h
    have hbuf : buf.length = 512 := length_slice _ _ _
    dsimp only
    rw [List.length_take, List.length_drop, hbuf]
    simp only [maerosSectorSize, offset] at *
    omega

/-- The drive has the same contents and rests again. -/
structure Ready (drive drive' : Ata.Drive) : Prop where
  content : drive'.content = drive.content
  capacity : drive'.capacity = drive.capacity
  resting : drive'.phase.resting = true

/-- The read is that of a disk that is a function, and its bytes have come to memory. -/
structure ReadDone (buf frame out : Addr) (s s' : Io) (res pos' : ℤ) (read : StreamRead) : Prop where
  res : res = 0
  pos : pos' = read.pos
  ready : Ready s.drive s'.drive
  room : ∀ sector ∈ read.sectors, sector < s.drive.capacity
  delivered : OutOfBuffers buf frame read.sectors.length out read.out.length →
    Delivered buf frame read.sectors.length out read.out s.mem s'.mem

/-- The bytes that are copied out of one sector, wherever they go. -/
structure SectorCopied (buf frame out : Addr) (part : List (BitVec 8)) (drive : Ata.Drive)
    (mem : Memory) (s : Io) : Prop where
  drive : s.drive = drive
  delivered : OutOfBuffers buf frame 1 out part.length → Delivered buf frame 1 out part mem s.mem

/-- **Copying the wanted part** of a sector that has just been read. -/
theorem copyOut_copied {drive : Ata.Drive} {mem : Memory} {sector : List (BitVec 8)}
    (hsector : sector.length = 512) {offset n : ℕ} (hin : offset + n ≤ 512) {buf frame out out₁ : Addr}
    {s : Io} (hcopy : copyOut n out (buf + BitVec.ofNat 32 offset)
      ⟨drive, storeBytes mem buf sector⟩ = some (out₁, s)) :
    out₁ = out + BitVec.ofNat 32 n ∧
      SectorCopied buf frame out ((sector.drop offset).take n) drive mem s := by
  have hlength : ((sector.drop offset).take n).length = n := by
    rw [List.length_take, List.length_drop, hsector]
    omega
  obtain ⟨mem', hdrive⟩ := copyOut_drive n out (buf + BitVec.ofNat 32 offset)
    ⟨drive, storeBytes mem buf sector⟩
  have hsame := hdrive.symm.trans hcopy
  cases hsame
  refine ⟨rfl, rfl, fun hout => ?_⟩
  rw [hlength] at hout
  have hmem := hdrive.symm.trans (copyOut_sector drive mem hsector hin hout)
  cases hmem
  exact delivered_sector hsector.le (by omega)

/-- A read that ends in its first sector has done what it should. -/
theorem ReadDone.last {buf frame out : Addr} {s s' : Io} {sector : ℕ} {part : List (BitVec 8)}
    {pos : ℤ} (hroom : sector < s.drive.capacity)
    (h : SectorCopied buf frame out part (afterRead s.drive (BitVec.ofNat 32 sector) 1#32)
      s.mem s') : ReadDone buf frame out s s' 0 pos ⟨part, pos, [sector]⟩ := by
  refine ⟨rfl, rfl, ?_, fun x hx => ?_, h.delivered⟩
  · rw [h.drive]
    exact ⟨rfl, rfl, rfl⟩
  · rw [List.mem_singleton] at hx
    exact hx ▸ hroom

/-- A read that goes on in the next sector has done what it should, if the rest has. -/
theorem ReadDone.next {buf frame out : Addr} {s s₁ s' : Io} {sector : ℕ} {part : List (BitVec 8)}
    {res pos : ℤ} {rest : StreamRead} (hroom : sector < s.drive.capacity)
    (h : SectorCopied buf frame out part (afterRead s.drive (BitVec.ofNat 32 sector) 1#32)
      s.mem s₁)
    (hrest : ReadDone (buf - frame) frame (out + BitVec.ofNat 32 part.length) s₁ s' res pos rest)
    (hlen : part.length + rest.out.length < 2 ^ 32) :
    ReadDone buf frame out s s' res pos
      ⟨part ++ rest.out, rest.pos, sector :: rest.sectors⟩ := by
  have hready := hrest.ready
  have hin := hrest.room
  rw [h.drive] at hready hin
  refine ⟨hrest.res, hrest.pos, ⟨hready.content, hready.capacity, hready.resting⟩, ?_,
    fun hout => ?_⟩
  · intro x hx
    rcases List.mem_cons.mp hx with rfl | hx
    · exact hroom
    · exact hin x hx
  · rw [List.length_append, List.length_cons] at hout
    exact (h.delivered (hout.mono (by omega) (Nat.le_add_right _ _))).append
      (hrest.delivered hout.later) hlen hout

/-- **A read that returns** has done what the read of a disk that is a function does. -/
theorem diskstreamerReadIo_done {fuel : ℕ} {disk : Addr} {frame : BitVec 32} {content : Disk}
    {pos total : ℤ} : pos < 2 ^ 31 → ∀ {buf out : Addr} {s s' : Io} {res pos' : ℤ},
    s.drive.content = content → s.drive.phase.resting = true →
    diskstreamerReadIo fuel disk disk frame buf out pos total s = some ((res, pos'), s') →
    ∃ read, diskstreamerRead content pos total = some read ∧
      ReadDone buf frame out s s' res pos' read := by
  fun_induction diskstreamerRead content pos total with
  | case1 pos total =>
    rename_i hbad
    intro hpos buf out s s' res pos' hcontent hrest h
    rw [diskstreamerReadIo, if_pos hbad] at h
    cases h
  | case2 pos total =>
    rename_i hgood hover total_to_read hwrap
    intro hpos buf out s s' res pos' hcontent hrest h
    rw [diskstreamerReadIo] at h
    dsimp only at h
    rw [if_neg hgood] at h
    obtain ⟨res₁, s₁, hblock, h⟩ := prog_bind.mp h
    obtain ⟨-, rfl, -⟩ := diskReadBlockAt_inv hblock hrest (sector_bounds hpos).1
    rw [if_neg (by decide), if_pos hover] at h
    obtain ⟨out₁, s₂, -, h⟩ := prog_bind.mp h
    rw [if_pos hwrap] at h
    cases h
  | case3 pos total sector offset bytes hgood hover =>
    rename_i total_to_read hwrap ih
    intro hpos buf out s s' res pos' hcontent hrest h
    obtain ⟨hsector, hoff, hlt⟩ := sector_bounds hpos
    have hin : offset.toNat + total_to_read.toNat ≤ 512 := by
      simp only [maerosSectorSize, offset, total_to_read] at *
      omega
    have hlength : bytes.length = 512 := length_slice _ _ _
    have hpart : ((bytes.drop offset.toNat).take total_to_read.toNat).length =
        total_to_read.toNat := by
      rw [List.length_take, List.length_drop, hlength]
      omega
    rw [diskstreamerReadIo] at h
    dsimp only at h
    rw [if_neg hgood] at h
    obtain ⟨res₁, s₁, hblock, h⟩ := prog_bind.mp h
    obtain ⟨hroom, rfl, rfl⟩ := diskReadBlockAt_inv hblock hrest hsector
    rw [if_neg (by decide), if_pos hover] at h
    obtain ⟨out₁, s₂, hcopy, h⟩ := prog_bind.mp h
    rw [if_neg hwrap] at h
    subst hcontent
    obtain ⟨rfl, hcopied⟩ := copyOut_copied hlength hin hcopy
    -- the rest is read from the drive as the first sector left it
    obtain ⟨rest, hread, hdone⟩ := ih (by omega) (by rw [hcopied.drive]; rfl)
      (by rw [hcopied.drive]; rfl) h
    have hall : rest.out.length + total_to_read.toNat < 2 ^ 32 := by
      rw [length_out hread]
      simp only [maerosSectorSize, offset, total_to_read] at *
      omega
    refine ⟨⟨(bytes.drop offset.toNat).take total_to_read.toNat ++ rest.out, rest.pos,
      sector :: rest.sectors⟩, by rw [hread]; rfl, .next hroom hcopied ?_ (by omega)⟩
    rw [hpart]
    exact hdone
  | case4 pos total sector offset bytes =>
    rename_i hgood hover
    intro hpos buf out s s' res pos' hcontent hrest h
    obtain ⟨hsector, hoff, hlt⟩ := sector_bounds hpos
    have hin : offset.toNat + total.toNat ≤ 512 := by
      simp only [maerosSectorSize, offset] at *
      omega
    have hlength : bytes.length = 512 := length_slice _ _ _
    rw [diskstreamerReadIo] at h
    dsimp only at h
    rw [if_neg hgood] at h
    obtain ⟨res₁, s₁, hblock, h⟩ := prog_bind.mp h
    obtain ⟨hroom, rfl, rfl⟩ := diskReadBlockAt_inv hblock hrest hsector
    rw [if_neg (by decide), if_neg hover] at h
    obtain ⟨out₁, s₂, hcopy, h⟩ := prog_bind.mp h
    subst hcontent
    obtain ⟨-, hcopied⟩ := copyOut_copied hlength hin hcopy
    cases h
    exact ⟨_, rfl, .last hroom hcopied⟩

/-- **The read ends** where the drive has every sector it asks for. -/
theorem diskstreamerReadIo_ends (disk : Addr) (frame : BitVec 32) {content : Disk} {pos total : ℤ} :
    pos < 2 ^ 31 → ∀ {read : StreamRead}, diskstreamerRead content pos total = some read →
    ∀ {s : Io}, s.drive.phase.resting = true →
    (∀ sector ∈ read.sectors, sector < s.drive.capacity) → ∀ (buf out : Addr),
    ∃ enough, ∀ fuel ≥ enough, ∃ r,
      diskstreamerReadIo fuel disk disk frame buf out pos total s = some r := by
  fun_induction diskstreamerRead content pos total with
  | case1 pos total =>
    intro hpos read h
    cases h
  | case2 pos total =>
    intro hpos read h
    cases h
  | case3 pos total sector offset bytes hgood hover =>
    rename_i total_to_read hwrap ih
    intro hpos read h s hrest hroom buf out
    obtain ⟨rest, hread, h⟩ := Option.bind_eq_some_iff.mp h
    cases h
    obtain ⟨hsector, -, -⟩ := sector_bounds hpos
    -- the drive and memory when the first sector is through
    obtain ⟨mem, hcopy⟩ := copyOut_drive total_to_read.toNat out
      (buf + BitVec.ofNat 32 offset.toNat) ⟨afterRead s.drive (BitVec.ofNat 32 sector) 1#32,
        storeBytes s.mem buf (diskReadBlock s.drive.content sector)⟩
    obtain ⟨enough, hrest'⟩ := ih (by omega) hread
      (s := ⟨afterRead s.drive (BitVec.ofNat 32 sector) 1#32, mem⟩) rfl
      (fun x hx => hroom x (List.mem_cons_of_mem _ hx)) (buf - frame)
      (out + BitVec.ofNat 32 total_to_read.toNat)
    refine ⟨max (Ata.Drive.patience s.drive.timing s.drive.served 1) enough, fun fuel hfuel => ?_⟩
    obtain ⟨r, hr⟩ := hrest' fuel (le_of_max_le_right hfuel)
    have hblock := diskReadBlockAt_some hrest hsector (hroom _ List.mem_cons_self)
      (le_of_max_le_left hfuel) disk buf s.mem
    refine ⟨r, ?_⟩
    rw [diskstreamerReadIo]
    dsimp only
    rw [if_neg hgood, bind_of_some hblock, if_neg (by decide), if_pos hover, bind_of_some hcopy,
      if_neg hwrap, hr]
  | case4 pos total sector offset bytes =>
    rename_i hgood hover
    intro hpos read h s hrest hroom buf out
    cases h
    obtain ⟨hsector, -, -⟩ := sector_bounds hpos
    obtain ⟨mem, hcopy⟩ := copyOut_drive total.toNat out
      (buf + BitVec.ofNat 32 offset.toNat) ⟨afterRead s.drive (BitVec.ofNat 32 sector) 1#32,
        storeBytes s.mem buf (diskReadBlock s.drive.content sector)⟩
    refine ⟨Ata.Drive.patience s.drive.timing s.drive.served 1, fun fuel hfuel => ?_⟩
    have hblock := diskReadBlockAt_some hrest hsector (hroom _ List.mem_cons_self) hfuel disk buf
      s.mem
    refine ⟨((0, pos + total), ⟨afterRead s.drive (BitVec.ofNat 32 sector) 1#32, mem⟩), ?_⟩
    rw [diskstreamerReadIo]
    dsimp only
    rw [if_neg hgood, bind_of_some hblock, if_neg (by decide), if_neg hover, bind_of_some hcopy]
    rfl

/-! ## Runs -/

/-- A call on one of the streams of the volume. -/
inductive StreamOp where
  | seek (stream : FatStream) (pos : ℤ)
  | read (stream : FatStream) (buf out : Addr) (total : ℤ)

/-- The position of a seek is an `int`. -/
def StreamOp.InInt : StreamOp → Prop
  | seek _ pos => -2 ^ 31 ≤ pos ∧ pos < 2 ^ 31
  | read _ _ _ _ => True

/-- A run over the ports: the drive and memory, the positions, and what the calls have returned, the
last one first. -/
structure PortRun where
  io : Io
  streams : FatStreams
  results : List ℤ

/-- A run over a disk that is a function: the positions, and what the calls have returned. -/
structure DiskRun where
  streams : FatStreams
  results : List ℤ

/-- The call over the ports of the drive. `diskstreamer_seek` always returns `0`. -/
def StreamOp.onPorts (fuel : ℕ) (disk : Addr) (frame : BitVec 32) (s : PortRun) :
    StreamOp → Option PortRun
  | seek stream pos => some ⟨s.io, Function.update s.streams stream pos, 0 :: s.results⟩
  | read stream buf out total =>
    (diskstreamerReadIo fuel disk disk frame buf out (s.streams stream) total s.io).map fun r =>
      ⟨r.2, Function.update s.streams stream r.1.2, r.1.1 :: s.results⟩

/-- The call over a disk that is a function. -/
def StreamOp.onDisk (content : Disk) (s : DiskRun) : StreamOp → Option DiskRun
  | seek stream pos => (Streams.diskstreamerSeek stream pos s.streams).map fun r =>
    ⟨r.2, 0 :: s.results⟩
  | read stream _ _ total =>
    (diskstreamerReadBy (diskBlocks content) (s.streams stream) total).map fun read =>
      ⟨Function.update s.streams stream read.pos, read.res :: s.results⟩

/-- The positions over the function are those of the streams of the volume. -/
theorem onDisk_read_streams (content : Disk) (s : DiskRun) (stream : FatStream) (buf out : Addr)
    (total : ℤ) : ((StreamOp.read stream buf out total).onDisk content s).map DiskRun.streams =
      (Streams.diskstreamerRead content stream total s.streams).map Prod.snd := by
  unfold StreamOp.onDisk Streams.diskstreamerRead
  dsimp only
  rw [diskstreamerReadBy_diskBlocks, Option.map_map, Option.map_map, Option.map_map]
  rfl

/-- What every run keeps: the drive is ready, positions and results are those of the run over the
function, and the positions are `int`s. -/
structure OverPorts (start : Io) (ops : List StreamOp) (s : PortRun) : Prop where
  ready : Ready start.drive s.io.drive
  run : runPartial (StreamOp.onDisk start.drive.content) ⟨fun _ => 0, []⟩ ops =
    some ⟨s.streams, s.results⟩
  bound : ∀ stream, s.streams stream < 2 ^ 31

/-- The position a read leaves is an `int`. -/
theorem read_pos_lt {content : Disk} {pos total : ℤ} : pos < 2 ^ 31 → ∀ {read : StreamRead},
    diskstreamerRead content pos total = some read → read.pos < 2 ^ 31 := by
  fun_induction diskstreamerRead content pos total with
  | case1 pos total =>
    intro hpos read h
    cases h
  | case2 pos total =>
    intro hpos read h
    cases h
  | case3 pos total sector offset bytes hgood hover =>
    rename_i total_to_read hwrap ih
    intro hpos read h
    obtain ⟨rest, hread, h⟩ := Option.bind_eq_some_iff.mp h
    cases h
    show rest.pos < 2 ^ 31
    exact ih (by omega) hread
  | case4 pos total sector offset bytes =>
    rename_i hgood hover
    intro hpos read h
    cases h
    dsimp only
    simp only [maerosSectorSize, offset] at *
    omega

/-- **One call** more keeps that up. -/
theorem OverPorts.step {start : Io} {ops : List StreamOp} {s s' : PortRun} {fuel : ℕ}
    {disk : Addr} {frame : BitVec 32} (h : OverPorts start ops s) {op : StreamOp} (hint : op.InInt)
    (hstep : StreamOp.onPorts fuel disk frame s op = some s') :
    OverPorts start (ops ++ [op]) s' := by
  have hrun : ∀ s'', StreamOp.onDisk start.drive.content ⟨s.streams, s.results⟩ op = some s'' →
      runPartial (StreamOp.onDisk start.drive.content) ⟨fun _ => 0, []⟩ (ops ++ [op]) =
        some s'' := by
    intro s'' hop
    rw [runPartial_append, h.run, Option.bind_some, runPartial_step hop]
    rfl
  cases op with
  | seek stream pos =>
    cases hstep
    refine ⟨h.ready, hrun _ rfl, fun other => ?_⟩
    dsimp only
    rw [Function.update_apply]
    split
    · exact hint.2
    · exact h.bound other
  | read stream buf out total =>
    obtain ⟨⟨⟨res, pos'⟩, io'⟩, hread, rfl⟩ := Option.map_eq_some_iff.mp hstep
    obtain ⟨read, hdisk, hdone⟩ := diskstreamerReadIo_done (h.bound stream) h.ready.content
      h.ready.resting hread
    refine ⟨⟨hdone.ready.content.trans h.ready.content,
      hdone.ready.capacity.trans h.ready.capacity, hdone.ready.resting⟩, hrun _ ?_,
      fun other => ?_⟩
    · unfold StreamOp.onDisk
      dsimp only
      rw [diskstreamerReadBy_diskBlocks, hdisk, hdone.pos, hdone.res]
      rfl
    · dsimp only
      rw [Function.update_apply, hdone.pos]
      split
      · exact read_pos_lt (h.bound stream) hdisk
      · exact h.bound other

/-- Every run keeps that up. -/
theorem overPorts_run {start : Io} (hrest : start.drive.phase.resting = true) {fuel : ℕ} {disk : Addr}
    {frame : BitVec 32} (ops : List StreamOp) (hint : ∀ op ∈ ops, op.InInt) :
    ∀ {s : PortRun}, runPartial (StreamOp.onPorts fuel disk frame) ⟨start, fun _ => 0, []⟩ ops =
      some s → OverPorts start ops s := by
  induction ops using List.reverseRecOn with
  | nil =>
    intro s hrun
    cases hrun
    exact ⟨⟨rfl, rfl, hrest⟩, rfl, fun _ => show (0 : ℤ) < 2 ^ 31 by decide⟩
  | append_singleton ops op ih =>
    intro s' hrun
    rw [runPartial_append, Option.bind_eq_some_iff] at hrun
    obtain ⟨s, hs, hop⟩ := hrun
    rw [runPartial_cons, Option.bind_eq_some_iff] at hop
    obtain ⟨s'', hop, hend⟩ := hop
    cases hend
    exact (ih (fun o ho => hint o (List.mem_append_left _ ho)) hs).step (hint op (by simp)) hop

/-- **Streams over the ports.** Take any run of seeks and reads by the three streams, over a drive
that takes as long as it likes for each sector. The positions, and what each call returns, are those
of the same run over a disk that is a function. The next read comes back exactly when the drive has
every sector it asks for; it then returns what the read of that disk returns, leaves the position
where that one does, and has stored the bytes of the disk at `out`, nothing else having changed but
its buffers (where these do not meet the destination). -/
theorem stream_runs_over_ports (disk : Addr) (frame : BitVec 32) (start : Io)
    (hrest : start.drive.phase.resting = true) (ops : List StreamOp)
    (hint : ∀ op ∈ ops, op.InInt) (fuel : ℕ) (s : PortRun)
    (hrun : runPartial (StreamOp.onPorts fuel disk frame) ⟨start, fun _ => 0, []⟩ ops = some s) :
    runPartial (StreamOp.onDisk start.drive.content) ⟨fun _ => 0, []⟩ ops =
      some ⟨s.streams, s.results⟩ ∧
    ∀ (stream : FatStream) (buf out : Addr) (total : ℤ) (read : StreamResult),
      diskstreamerReadBy (diskBlocks start.drive.content) (s.streams stream) total = some read →
      ((∃ fuel s', StreamOp.onPorts fuel disk frame s (.read stream buf out total) = some s') ↔
        ∀ sector ∈ read.sectors, sector < start.drive.capacity) ∧
      (∀ fuel s', StreamOp.onPorts fuel disk frame s (.read stream buf out total) = some s' →
        s'.results = read.res :: s.results ∧
        s'.streams = Function.update s.streams stream read.pos ∧
        (OutOfBuffers buf frame read.sectors.length out read.out.length →
          Delivered buf frame read.sectors.length out read.out s.io.mem s'.io.mem)) := by
  have hover := overPorts_run hrest ops hint hrun
  refine ⟨hover.run, fun stream buf out total read hby => ?_⟩
  rw [diskstreamerReadBy_diskBlocks] at hby
  obtain ⟨read, hdisk, rfl⟩ := Option.map_eq_some_iff.mp hby
  -- a call that returns has done what the read of the function does
  have hdone : ∀ fuel s', StreamOp.onPorts fuel disk frame s (.read stream buf out total) =
      some s' → ∃ res pos', s' = ⟨s'.io, Function.update s.streams stream pos', res :: s.results⟩ ∧
        ReadDone buf frame out s.io s'.io res pos' read := by
    intro fuel s' hs
    obtain ⟨⟨⟨res, pos'⟩, io'⟩, hread, rfl⟩ := Option.map_eq_some_iff.mp hs
    obtain ⟨read', hdisk', hdone⟩ := diskstreamerReadIo_done (hover.bound stream)
      hover.ready.content hover.ready.resting hread
    rw [hdisk] at hdisk'
    cases hdisk'
    exact ⟨res, pos', rfl, hdone⟩
  refine ⟨⟨?_, fun hroom => ?_⟩, fun fuel s' hs => ?_⟩
  · rintro ⟨fuel, s', hs⟩
    obtain ⟨_, _, -, hread⟩ := hdone fuel s' hs
    rw [← hover.ready.capacity]
    exact hread.room
  · dsimp only at hroom
    rw [← hover.ready.capacity] at hroom
    obtain ⟨enough, hends⟩ := diskstreamerReadIo_ends disk frame (hover.bound stream) hdisk
      hover.ready.resting hroom buf out
    obtain ⟨r, hr⟩ := hends enough le_rfl
    refine ⟨enough, ⟨r.2, Function.update s.streams stream r.1.2, r.1.1 :: s.results⟩, ?_⟩
    unfold StreamOp.onPorts
    dsimp only
    rw [hr, Option.map_some]
  · obtain ⟨res, pos', heq, hread⟩ := hdone fuel s' hs
    rw [heq]
    exact ⟨by rw [hread.res], by rw [hread.pos], hread.delivered⟩

/-- Four bytes on both sides of the boundary of a drive of two sectors: after a seek, the call comes
back, and it returns `0`. -/
theorem stream_runs_over_ports_four : ∃ fuel s, StreamOp.onPorts fuel 0x1000#32 0x240#32
    ⟨⟨smallDrive, fun _ => 0#8⟩, Function.update (fun _ => 0) .cluster_read_stream 510, [0]⟩
    (.read .cluster_read_stream 0x5ff000#32 0x1000000#32 4) = some s ∧ s.results = [0, 0] := by
  have hread := diskstreamerRead_eq smallDrive.content 4 510 (by decide)
  have hby := diskstreamerReadBy_diskBlocks smallDrive.content (510 : ℕ) (4 : ℕ)
  rw [hread, Option.map_some] at hby
  have hnext := (stream_runs_over_ports 0x1000#32 0x240#32 ⟨smallDrive, fun _ => 0#8⟩ rfl
    [.seek .cluster_read_stream 510] (by simp [StreamOp.InInt]) 0
    ⟨⟨smallDrive, fun _ => 0#8⟩, Function.update (fun _ => 0) .cluster_read_stream 510, [0]⟩ rfl).2
    .cluster_read_stream 0x5ff000#32 0x1000000#32 4 _ hby
  obtain ⟨fuel, s, hs⟩ := hnext.1.mpr (by decide)
  exact ⟨fuel, s, hs, (hnext.2 fuel s hs).1⟩

end MaerOS.Analysis
