import MaerOS.Lib.Ata
import MaerOS.Model.Disk

/-!
# The disk driver: `disk.c` over `io.asm`

`disk_read_sector` talks to the drive through its ports. The state is the drive and
memory; `fuel` bounds the number of looks at the status register in each wait, which
the code does not bound. `diskstreamer_read` is here once more, with the sector
buffer on the stack and the bytes going to memory one by one.
-/

set_option autoImplicit false

namespace MaerOS.Model

open MaerOS.Lib

/-- The drive and memory. -/
structure Io where
  drive : Ata.Drive
  mem : Memory

/-- Code that uses the ports. -/
abbrev IoM := StateT Io Option

/-- `outb`. `io.asm:31-40` -/
def outb (port : BitVec 16) (val : BitVec 8) : IoM Unit := fun s =>
  (s.drive.outb port val).map fun drive => ((), { s with drive := drive })

/-- `insb`. `io.asm:9-18` -/
def insb (port : BitVec 16) : IoM (BitVec 8) := fun s =>
  (s.drive.inb port).map fun (v, drive) => (v, { s with drive := drive })

/-- `insw`. `io.asm:20-29` -/
def insw (port : BitVec 16) : IoM (BitVec 16) := fun s =>
  (s.drive.inw port).map fun (v, drive) => (v, { s with drive := drive })

/-- `*ptr = v` for an `unsigned short`. -/
def pokeWord (ptr : Addr) (v : BitVec 16) : IoM Unit := fun s =>
  some ((), { s with mem := store16 s.mem ptr v })

/-- `*ptr = v` for a `char`. -/
def pokeByte (ptr : Addr) (v : BitVec 8) : IoM Unit := fun s =>
  some ((), { s with mem := Function.update s.mem ptr v })

/-- `*ptr` for a `char`. -/
def peekByte (ptr : Addr) : IoM (BitVec 8) := fun s => some (s.mem ptr, s)

/-! ## `disk.c` -/

/-- The wait for the buffer to be ready. `disk.c:54-59` -/
def waitReady : (fuel : ℕ) → IoM Unit
  | 0 => failure
  | fuel + 1 => do
    let c ← insb 0x1F7#16
    if c &&& 0x08#8 = 0#8 then waitReady fuel else pure ()

/-- The loop that copies `i` more words from the disk to memory. `disk.c:61-66` -/
def copyWords : (i : ℕ) → (ptr : Addr) → IoM Addr
  | 0, ptr => pure ptr
  | i + 1, ptr => do
    let v ← insw 0x1F0#16
    pokeWord ptr v
    copyWords i (ptr + 2#32)

/-- The loop over the sectors that are left. `disk.c:50-68` -/
def copySectors (fuel : ℕ) : (b : ℕ) → (ptr : Addr) → IoM Unit
  | 0, _ => pure ()
  | b + 1, ptr => do
    waitReady fuel
    let ptr ← copyWords 256 ptr
    copySectors fuel b ptr

/-- `disk_read_sector(lba, total, buf)` for `int`s `lba` and `total`. `disk.c:41-70` -/
def diskReadSector (fuel : ℕ) (lba total : BitVec 32) (buf : Addr) : IoM ℤ := do
  outb 0x1F6#16 ((lba.sshiftRight 24 ||| 0xE0#32).setWidth 8)
  outb 0x1F2#16 (total.setWidth 8)
  outb 0x1F3#16 ((lba &&& 0xff#32).setWidth 8)
  outb 0x1F4#16 ((lba.sshiftRight 8).setWidth 8)
  outb 0x1F5#16 ((lba.sshiftRight 16).setWidth 8)
  outb 0x1F7#16 0x20#8
  copySectors fuel total.toInt.toNat buf
  pure 0

/-- `disk_read_block(idisk, lba, total, buf)` where `&disk` is `disk`. `disk.c:32-39` -/
def diskReadBlockAt (fuel : ℕ) (disk idisk : Addr) (lba total : BitVec 32) (buf : Addr) : IoM ℤ :=
  if idisk ≠ disk then pure (-eio) else diskReadSector fuel lba total buf

/-! ## `streamer.c` -/

/-- The loop that copies `i` more bytes from the buffer to `out`. `streamer.c:52-55` -/
def copyOut : (i : ℕ) → (out src : Addr) → IoM Addr
  | 0, out, _ => pure out
  | i + 1, out, src => do
    let c ← peekByte src
    pokeByte out c
    copyOut i (out + 1#32) (src + 1#32)

/-- `diskstreamer_read(stream, out, total)` with `stream->pos = pos` and `stream->disk = idisk`, for
`buf` at the address `buf`; `frame` is how far the buffer of a call lies below that of its caller.
The value returned and `stream->pos` at the end. `streamer.c:27-65` -/
def diskstreamerReadIo (fuel : ℕ) (disk idisk : Addr) (frame : BitVec 32) (buf out : Addr)
    (pos total : ℤ) : IoM (ℤ × ℤ) :=
  let sector := (pos / maerosSectorSize).toNat
  let offset := pos % maerosSectorSize
  if pos < 0 ∨ 2 ^ 31 ≤ offset + total then failure
  else do
    let res ← diskReadBlockAt fuel disk idisk (BitVec.ofNat 32 sector) 1#32 buf
    if res < 0 then pure (res, pos)
    else if maerosSectorSize ≤ pos % maerosSectorSize + total then
      let total_to_read := maerosSectorSize - pos % maerosSectorSize
      let out ← copyOut total_to_read.toNat out (buf + BitVec.ofNat 32 offset.toNat)
      if 2 ^ 31 ≤ pos + total_to_read then failure
      else
        diskstreamerReadIo fuel disk idisk frame (buf - frame) out (pos + total_to_read)
          (total - total_to_read)
    else do
      let _ ← copyOut total.toNat out (buf + BitVec.ofNat 32 offset.toNat)
      pure (res, pos + total)
  termination_by total.toNat
  decreasing_by
    have := Int.emod_lt_of_pos pos (b := maerosSectorSize) (by decide)
    simp only [maerosSectorSize] at *
    omega

end MaerOS.Model
