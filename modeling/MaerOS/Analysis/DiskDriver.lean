import MaerOS.Model.Ports
import MaerOS.Lib.Prog

/-!
# The disk driver and its drive

`disk_read_sector` writes the sector number and the count to the registers of the
drive and then takes as many sectors as it was asked for. The drive takes 28 bits of
the sector number and 8 bits of the count, so the two agree only up to a point:
`commandFile_lba` and `commandFile_count` say what the drive makes of the arguments,
bit 28 selects the drive that is not there, and beyond 256 sectors, or at the end of
the drive, the driver waits for a sector that never comes.

Where it returns, its loops are the host of the library (`copySectors_eq`), so memory
holds the bytes of the sectors, however long the drive takes for each.
-/

set_option autoImplicit false

namespace MaerOS.Analysis

open MaerOS.Lib MaerOS.Model

/-! ## The command -/

/-- The registers of the drive after the first five writes. -/
def commandFile (lba total : BitVec 32) : Ata.TaskFile :=
  { sector_count := total.setWidth 8
    lba_low := (lba &&& 0xff#32).setWidth 8
    lba_mid := (lba.sshiftRight 8).setWidth 8
    lba_high := (lba.sshiftRight 16).setWidth 8
    device := (lba.sshiftRight 24 ||| 0xE0#32).setWidth 8 }

/-- The sector number is what the low 28 bits say. -/
theorem commandFile_lba (lba total : BitVec 32) :
    (commandFile lba total).lba = lba.toNat % 2 ^ 28 := by
  have hbits : (commandFile lba total).device.extractLsb' 0 4 ++ (commandFile lba total).lba_high ++
      (commandFile lba total).lba_mid ++ (commandFile lba total).lba_low = lba.extractLsb' 0 28 := by
    apply BitVec.eq_of_getLsbD_eq
    intro i hi
    simp only [commandFile, BitVec.getLsbD_append, BitVec.getLsbD_extractLsb',
      BitVec.getLsbD_setWidth, BitVec.getLsbD_or, BitVec.getLsbD_and, BitVec.getLsbD_sshiftRight]
    interval_cases i <;> simp
  unfold Ata.TaskFile.lba
  rw [hbits, BitVec.extractLsb'_toNat, Nat.shiftRight_zero]

/-- Zero, and every multiple of 256, stands for 256 sectors. -/
theorem commandFile_count (lba total : BitVec 32) : (commandFile lba total).count =
    if total.toNat % 256 = 0 then 256 else total.toNat % 256 := by
  have hval : (total.setWidth 8).toNat = total.toNat % 256 := BitVec.toNat_setWidth 8 total
  have hzero : total.setWidth 8 = 0#8 ↔ total.toNat % 256 = 0 := by
    rw [← hval, ← BitVec.toNat_inj]
    rfl
  unfold Ata.TaskFile.count commandFile
  dsimp only
  rw [hval]
  exact if_congr hzero rfl rfl

/-- Bit 28 is the bit that selects the drive. -/
theorem commandFile_other (lba total : BitVec 32) :
    (commandFile lba total).other = lba.getLsbD 28 := by
  simp [commandFile, Ata.TaskFile.other, BitVec.getElem_sshiftRight]

theorem commandFile_byLba (lba total : BitVec 32) : (commandFile lba total).byLba = true := by
  simp [commandFile, Ata.TaskFile.byLba]

/-! ## The loops -/

section Loops

variable (s : Io)

/-- The wait is the polling loop. -/
theorem waitReady_eq (fuel : ℕ) (s : Io) : waitReady fuel s =
    (loop Ata.Drive.pollRound fuel s.drive).map fun drive => ((), { s with drive := drive }) := by
  induction fuel generalizing s with
  | zero => rfl
  | succ fuel ih =>
    have hread : insb 0x1F7#16 s =
        some (s.drive.status.1, { s with drive := s.drive.status.2 }) := rfl
    rw [waitReady, bind_of_some hread]
    by_cases hc : s.drive.status.1 &&& 0x08#8 = 0#8
    · have hround : Ata.Drive.pollRound s.drive = .inr s.drive.status.2 := if_pos hc
      rw [if_pos hc, loop_next hround, ih]
    · have hround : Ata.Drive.pollRound s.drive = .inl s.drive.status.2 := if_neg hc
      rw [if_neg hc, loop_done hround]
      rfl

/-- The inner loop takes words and stores them one behind the other. -/
theorem copyWords_eq (i : ℕ) (s : Io) (ptr : Addr) : copyWords i ptr s =
    (Ata.Drive.takeWords Ata.storeNext i s.drive (s.mem, ptr)).map fun (drive, mem, ptr) =>
      (ptr, ⟨drive, mem⟩) := by
  induction i generalizing s ptr with
  | zero => rfl
  | succ i ih =>
    rw [copyWords, Ata.Drive.takeWords]
    cases hread : s.drive.inw 0x1F0#16 with
    | none =>
      show (insw 0x1F0#16 s).bind _ = _
      unfold insw
      rw [hread]
      rfl
    | some r =>
      obtain ⟨v, drive⟩ := r
      have hinsw : insw 0x1F0#16 s = some (v, { s with drive := drive }) := by
        unfold insw
        rw [hread]
        rfl
      rw [bind_of_some hinsw]
      exact ih { s with drive := drive, mem := store16 s.mem ptr v } (ptr + 2#32)

/-- The outer loop is the host that takes sectors. -/
theorem copySectors_eq (fuel b : ℕ) (s : Io) (ptr : Addr) : copySectors fuel b ptr s =
    (Ata.Drive.transfer Ata.storeNext fuel b s.drive (s.mem, ptr)).map fun (drive, mem, _) =>
      ((), ⟨drive, mem⟩) := by
  induction b generalizing s ptr with
  | zero => rfl
  | succ b ih =>
    rw [copySectors, Ata.Drive.transfer]
    cases hwait : loop Ata.Drive.pollRound fuel s.drive with
    | none =>
      have hready : waitReady fuel s = none := by rw [waitReady_eq, hwait, Option.map_none]
      show (waitReady fuel s).bind _ = _
      rw [hready]
      rfl
    | some drive =>
      have hready : waitReady fuel s = some ((), { s with drive := drive }) := by
        rw [waitReady_eq, hwait, Option.map_some]
      rw [bind_of_some hready, Option.bind_eq_bind, Option.bind_some]
      show (copyWords 256 ptr { s with drive := drive }).bind _ = _
      rw [copyWords_eq]
      cases Ata.Drive.takeWords Ata.storeNext 256 drive (s.mem, ptr) with
      | none => rfl
      | some r => exact ih ⟨r.1, r.2.1⟩ r.2.2

end Loops

/-! ## `disk_read_sector` -/

/-- A byte sent to a port changes the drive and nothing else. -/
theorem outb_bind {α : Type} (port : BitVec 16) (val : BitVec 8) (f : Unit → IoM α) (s : Io) :
    (outb port val >>= f) s =
      (s.drive.outb port val).bind fun drive => f () { s with drive := drive } := by
  show (outb port val s).bind (fun p => f p.1 p.2) = _
  unfold outb
  rw [Option.bind_map]
  rfl

/-- The driver writes the command and is then the host that takes `total` sectors. -/
theorem diskReadSector_eq (fuel : ℕ) (lba total : BitVec 32) (buf : Addr) (s : Io) :
    diskReadSector fuel lba total buf s =
      (s.drive.readSectors (commandFile lba total)).bind fun drive =>
        (Ata.Drive.transfer Ata.storeNext fuel total.toInt.toNat drive (s.mem, buf)).map
          fun (drive, mem, _) => (0, ⟨drive, mem⟩) := by
  have hloop : ∀ s' : Io, ((copySectors fuel total.toInt.toNat buf >>= fun _ => pure 0) : IoM ℤ) s' =
      (Ata.Drive.transfer Ata.storeNext fuel total.toInt.toNat s'.drive (s'.mem, buf)).map
        fun (drive, mem, _) => (0, ⟨drive, mem⟩) := by
    intro s'
    show (copySectors fuel total.toInt.toNat buf s').bind _ = _
    rw [copySectors_eq, Option.bind_map]
    cases Ata.Drive.transfer Ata.storeNext fuel total.toInt.toNat s'.drive (s'.mem, buf) <;> rfl
  unfold diskReadSector Ata.Drive.readSectors
  simp only [outb_bind, hloop, Option.bind_eq_bind, Option.bind_assoc]
  rfl

/-- More patience does no harm. -/
theorem diskReadSector_mono {fuel fuel' : ℕ} (hle : fuel ≤ fuel') {lba total : BitVec 32}
    {buf : Addr} {s : Io} {r : ℤ × Io} (h : diskReadSector fuel lba total buf s = some r) :
    diskReadSector fuel' lba total buf s = some r := by
  rw [diskReadSector_eq, Option.bind_eq_some_iff] at h ⊢
  obtain ⟨drive, hcommand, h⟩ := h
  obtain ⟨taken, htake, rfl⟩ := Option.map_eq_some_iff.mp h
  exact ⟨drive, hcommand, by
    rw [Ata.Drive.transfer_mono Ata.storeNext hle _ htake, Option.map_some]⟩

/-- A positive `int` as a number. -/
theorem toNat_of_pos {total : BitVec 32} (htotal : 0 < total.toInt) :
    total.toInt.toNat = total.toNat ∧ 0 < total.toNat := by
  rw [BitVec.toInt_eq_toNat_cond] at htotal ⊢
  split at htotal
  · rename_i hlt
    rw [if_pos hlt]
    omega
  · omega

/-- The request is one the drive understands as it was meant, for sectors that it has. -/
def Readable (drive : Ata.Drive) (lba total : BitVec 32) : Prop :=
  lba.getLsbD 28 = false ∧ total.toNat ≤ 256 ∧ lba.toNat % 2 ^ 28 + total.toNat ≤ drive.capacity

/-- The drive when the driver is through. -/
def afterRead (drive : Ata.Drive) (lba total : BitVec 32) : Ata.Drive :=
  ({ drive with file := commandFile lba total
                served := drive.served + total.toNat } : Ata.Drive).seek
    (lba.toNat % 2 ^ 28 + total.toNat) 0

section Outcome

variable {lba total : BitVec 32} (htotal : 0 < total.toInt) {buf : Addr} {s : Io}
  (hrest : s.drive.phase.resting = true)

include htotal hrest

/-- A host that is patient enough gets the sectors. -/
theorem diskReadSector_some (hread : Readable s.drive lba total) {fuel : ℕ}
    (hfuel : Ata.Drive.patience s.drive.timing s.drive.served total.toNat ≤ fuel) :
    diskReadSector fuel lba total buf s =
      some (0, ⟨afterRead s.drive lba total, storeBytes s.mem buf
        (slice s.drive.content (512 * (lba.toNat % 2 ^ 28)) (512 * total.toNat))⟩) := by
  obtain ⟨hbit, hmany, hroom⟩ := hread
  obtain ⟨hnat, hpos⟩ := toNat_of_pos htotal
  have hother : (commandFile lba total).other = false := by rw [commandFile_other, hbit]
  have hcount : (commandFile lba total).count = total.toNat := by
    rw [commandFile_count]
    split <;> omega
  have htake := Ata.Drive.transfer_seek Ata.storeNext total.toNat
    (d := { s.drive with file := commandFile lba total }) hother hroom hfuel (s.mem, buf)
  have hlength : (Ata.Drive.sectorsWords s.drive.content (lba.toNat % 2 ^ 28) total.toNat).length =
      256 * total.toNat := by
    have h := Ata.length_bytesOf
      (Ata.Drive.sectorsWords s.drive.content (lba.toNat % 2 ^ 28) total.toNat)
    rw [Ata.bytesOf_sectorsWords, length_slice] at h
    omega
  rw [Ata.foldl_storeNext _ _ _ (by rw [hlength]; omega), Ata.bytesOf_sectorsWords] at htake
  rw [diskReadSector_eq, Ata.Drive.readSectors_seek hrest hother (commandFile_byLba lba total),
    commandFile_lba, hcount, Option.bind_some, hnat, htake, Option.map_some]
  rfl

/-- No patience is enough for a sector that does not come. -/
theorem diskReadSector_none (hread : ¬ Readable s.drive lba total) (fuel : ℕ) :
    diskReadSector fuel lba total buf s = none := by
  obtain ⟨hnat, hpos⟩ := toNat_of_pos htotal
  rw [diskReadSector_eq, hnat]
  by_cases hother : (commandFile lba total).other = true
  · obtain ⟨n, hn⟩ : ∃ n, total.toNat = n + 1 := ⟨total.toNat - 1, by omega⟩
    have hstuck := Ata.Drive.transfer_stuck Ata.storeNext
      (d := { s.drive with file := commandFile lba total }) (.inl hother) fuel n (s.mem, buf)
    rw [Ata.Drive.readSectors_other hrest hother, Option.bind_some, hn, hstuck, Option.map_none]
  · rw [Bool.not_eq_true] at hother
    have hshort : (commandFile lba total).count < total.toNat ∨
        s.drive.capacity < lba.toNat % 2 ^ 28 + total.toNat := by
      by_contra hlong
      rw [not_or, commandFile_count] at hlong
      refine hread ⟨by rw [← commandFile_other lba total, hother], ?_, by omega⟩
      split at hlong <;> omega
    have hnone := Ata.Drive.transfer_short Ata.storeNext total.toNat
      (d := { s.drive with file := commandFile lba total }) hother hpos hshort fuel (s.mem, buf)
    rw [Ata.Drive.readSectors_seek hrest hother (commandFile_byLba lba total), commandFile_lba,
      Option.bind_some, hnone, Option.map_none]

end Outcome

/-- **The driver and its drive.** However long the drive takes for each sector, the driver returns
exactly when bit 28 of the sector number is clear, no more than 256 sectors are asked for and the
drive has them. It then returns `0`, memory holds the bytes of these sectors from `buf` on and is
otherwise as before, and the drive is ready for the next command. -/
theorem disk_read_sector_spec (lba total : BitVec 32) (htotal : 0 < total.toInt) (buf : Addr) (s : Io)
    (hrest : s.drive.phase.resting = true) :
    ((∃ fuel r, diskReadSector fuel lba total buf s = some r) ↔
      lba.getLsbD 28 = false ∧ total.toNat ≤ 256 ∧
        lba.toNat % 2 ^ 28 + total.toNat ≤ s.drive.capacity) ∧
    ∀ fuel res s', diskReadSector fuel lba total buf s = some (res, s') → res = 0 ∧
      s'.mem = storeBytes s.mem buf
        (slice s.drive.content (512 * (lba.toNat % 2 ^ 28)) (512 * total.toNat)) ∧
      s'.drive.phase.resting = true := by
  have hreadable : ∀ {fuel r}, diskReadSector fuel lba total buf s = some r →
      Readable s.drive lba total := by
    intro fuel r hr
    by_contra hread
    rw [diskReadSector_none htotal hrest hread] at hr
    cases hr
  refine ⟨⟨fun ⟨fuel, r, hr⟩ => hreadable hr, fun hread => ⟨_, _, diskReadSector_some htotal hrest
    hread le_rfl⟩⟩, fun fuel res s' hs' => ?_⟩
  -- with still more patience the outcome is the same
  have hmore := diskReadSector_mono (Nat.le_max_left fuel
    (Ata.Drive.patience s.drive.timing s.drive.served total.toNat)) hs'
  rw [diskReadSector_some htotal hrest (hreadable hs') (Nat.le_max_right _ _)] at hmore
  cases hmore
  exact ⟨rfl, rfl, rfl⟩

/-- A drive with two sectors that looks twice for the second one. -/
def smallDrive : Ata.Drive :=
  { content := fun i => BitVec.ofNat 8 i, capacity := 2, served := 0, phase := .idle
    timing := fun k => if k = 1 then [⟨0x80#8, by decide⟩, ⟨0x80#8, by decide⟩] else []
    file := ⟨0#8, 0#8, 0#8, 0#8, 0#8⟩ }

/-- Both sectors are read. -/
theorem disk_read_sector_two : ∃ fuel r,
    diskReadSector fuel 0#32 2#32 0x600000#32 ⟨smallDrive, fun _ => 0#8⟩ = some r :=
  (disk_read_sector_spec 0#32 2#32 (by decide) 0x600000#32 ⟨smallDrive, fun _ => 0#8⟩ rfl).1.mpr
    ⟨by decide, by decide, by decide⟩

end MaerOS.Analysis
