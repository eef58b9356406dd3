import MaerOS.Lib.Slice
import MaerOS.Model.Config

/-!
# The disk and its streams: `disk.c` and `streamer.c`

The contents of the only disk are a function from byte positions to bytes.
`disk_read_block` hands out the 512 bytes of a sector and cannot fail: the error it
has, for a disk that is not the one of the system, needs a stream that
`diskstreamer_new` never makes.

Positions are `int`. Signed overflow, and a position below zero (`buf[offset + i]`
then lies before the buffer), are undefined behaviour: such a read has no outcome.
-/

set_option autoImplicit false

namespace MaerOS.Model

open MaerOS.Lib

/-- The bytes of the disk. -/
abbrev Disk := ℕ → BitVec 8

/-- The little-endian `uint16_t` at a position of the disk. -/
def Disk.word16 (disk : Disk) (pos : ℕ) : ℕ := (disk pos).toNat + 256 * (disk (pos + 1)).toNat

/-- A value as an `int`: no outcome outside its range. -/
def checkInt (x : ℤ) : Option ℤ := if -2 ^ 31 ≤ x ∧ x < 2 ^ 31 then some x else none

/-- The conversion of a `uint32_t` expression to `int`. -/
def toInt32 (x : ℤ) : ℤ := x.bmod (2 ^ 32)

/-- What `disk_read_block(disk, lba, 1, buf)` leaves in `buf`. `disk.c:33-40` -/
def diskReadBlock (disk : Disk) (lba : ℕ) : List (BitVec 8) :=
  slice disk (maerosSectorSize * lba) maerosSectorSize

/-- What a read of a stream does: the bytes it stores to `out`, the position it leaves, and the
sectors it asks the disk for, in order. -/
structure StreamRead where
  out : List (BitVec 8)
  pos : ℤ
  sectors : List ℕ

/-- `diskstreamer_read(stream, out, total)` with `stream->pos = pos`. A read that reaches the
end of its sector goes on behind it, also when nothing is left to read. `streamer.c:27-65` -/
def diskstreamerRead (disk : Disk) (pos total : ℤ) : Option StreamRead :=
  let sector := (pos / maerosSectorSize).toNat
  let offset := pos % maerosSectorSize
  let buf := diskReadBlock disk sector
  if pos < 0 ∨ 2 ^ 31 ≤ offset + total then none
  else if maerosSectorSize ≤ pos % maerosSectorSize + total then
    let total_to_read := maerosSectorSize - pos % maerosSectorSize
    if 2 ^ 31 ≤ pos + total_to_read then none
    else do
      let rest ← diskstreamerRead disk (pos + total_to_read) (total - total_to_read)
      some ⟨(buf.drop offset.toNat).take total_to_read.toNat ++ rest.out, rest.pos,
        sector :: rest.sectors⟩
  else some ⟨(buf.drop offset.toNat).take total.toNat, pos + total, [sector]⟩
  termination_by total.toNat
  decreasing_by
    have := Int.emod_lt_of_pos pos (b := maerosSectorSize) (by decide)
    simp only [maerosSectorSize] at *
    omega

/-- `disk_read_block(disk, lba, 1, buf)` of any disk: the value it returns and the contents of
`buf`. -/
abbrev DiskReadBlock := ℕ → ℤ × List (BitVec 8)

/-- What a read of a stream does, and the value it returns. -/
structure StreamResult extends StreamRead where
  res : ℤ

/-- `diskstreamer_read(stream, out, total)` with `stream->pos = pos`, over any `disk_read_block`.
The first sector that cannot be read ends it. `streamer.c:27-65` -/
def diskstreamerReadBy (disk_read_block : DiskReadBlock) (pos total : ℤ) : Option StreamResult :=
  let sector := (pos / maerosSectorSize).toNat
  let offset := pos % maerosSectorSize
  if pos < 0 ∨ 2 ^ 31 ≤ offset + total then none
  else
    let (res, buf) := disk_read_block sector
    if res < 0 then some ⟨⟨[], pos, [sector]⟩, res⟩
    else if maerosSectorSize ≤ pos % maerosSectorSize + total then
      let total_to_read := maerosSectorSize - pos % maerosSectorSize
      if 2 ^ 31 ≤ pos + total_to_read then none
      else do
        let rest ← diskstreamerReadBy disk_read_block (pos + total_to_read) (total - total_to_read)
        some ⟨⟨(buf.drop offset.toNat).take total_to_read.toNat ++ rest.out, rest.pos,
          sector :: rest.sectors⟩, rest.res⟩
    else some ⟨⟨(buf.drop offset.toNat).take total.toNat, pos + total, [sector]⟩, res⟩
  termination_by total.toNat
  decreasing_by
    have := Int.emod_lt_of_pos pos (b := maerosSectorSize) (by decide)
    simp only [maerosSectorSize] at *
    omega

end MaerOS.Model
