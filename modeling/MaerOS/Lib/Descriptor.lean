import MaerOS.Lib.Memory

/-!
# Segment descriptors

A descriptor has eight bytes. The base is in the bytes 2, 3, 4 and 7, the field for
the limit in the bytes 0 and 1 and in the low half of byte 6, the access byte is byte
5, and the high half of byte 6 has the flags. With the flag for the granularity the
field counts pages of 4096 bytes, and the limit is the last byte of the last page.
-/

set_option autoImplicit false

namespace MaerOS.Lib

/-- What the processor takes from a descriptor. -/
structure SegmentDescriptor where
  base : BitVec 32
  limit : BitVec 32
  access : BitVec 8
  deriving DecidableEq

/-- The limit that a field stands for. -/
def scaledLimit (granular : Bool) (field : BitVec 20) : BitVec 32 :=
  if granular then BitVec.ofNat 32 (field.toNat * 4096 + 4095) else BitVec.ofNat 32 field.toNat

/-- Read a descriptor from its bytes. -/
def decodeDescriptor (b : ℕ → BitVec 8) : SegmentDescriptor where
  base := b 7 ++ b 4 ++ b 3 ++ b 2
  limit := scaledLimit ((b 6).getLsbD 7) ((b 6).extractLsb' 0 4 ++ b 1 ++ b 0)
  access := b 5

/-- The bytes of a descriptor. -/
def encodeDescriptor (base : BitVec 32) (field : BitVec 20) (flags : BitVec 4)
    (access : BitVec 8) : ℕ → BitVec 8
  | 0 => field.extractLsb' 0 8
  | 1 => field.extractLsb' 8 8
  | 2 => base.extractLsb' 0 8
  | 3 => base.extractLsb' 8 8
  | 4 => base.extractLsb' 16 8
  | 5 => access
  | 6 => flags ++ field.extractLsb' 16 4
  | _ => base.extractLsb' 24 8

/-- The bytes behind the eighth are not read. -/
theorem decodeDescriptor_congr {b b' : ℕ → BitVec 8} (h : ∀ k < 8, b k = b' k) :
    decodeDescriptor b = decodeDescriptor b' := by
  unfold decodeDescriptor
  rw [h 0 (by omega), h 1 (by omega), h 2 (by omega), h 3 (by omega), h 4 (by omega),
    h 5 (by omega), h 6 (by omega), h 7 (by omega)]

/-- The field is put together from its pieces. -/
theorem append_field (flags : BitVec 4) (field : BitVec 20) :
    (flags ++ field.extractLsb' 16 4).extractLsb' 0 4 ++ field.extractLsb' 8 8 ++
      field.extractLsb' 0 8 = field := by
  apply BitVec.eq_of_getLsbD_eq
  intro i hi
  simp only [BitVec.getLsbD_append, BitVec.getLsbD_extractLsb']
  interval_cases i <;> simp

/-- **Round trip**: what is read is what was written. -/
theorem decode_encodeDescriptor (base : BitVec 32) (field : BitVec 20) (flags : BitVec 4)
    (access : BitVec 8) :
    decodeDescriptor (encodeDescriptor base field flags access) =
      ⟨base, scaledLimit (flags.getLsbD 3) field, access⟩ := by
  have hflag : (flags ++ field.extractLsb' 16 4).getLsbD 7 = flags.getLsbD 3 := by
    rw [BitVec.getLsbD_append, if_neg (by omega)]
  show SegmentDescriptor.mk
    (base.extractLsb' 24 8 ++ base.extractLsb' 16 8 ++ base.extractLsb' 8 8 ++
      base.extractLsb' 0 8)
    (scaledLimit ((flags ++ field.extractLsb' 16 4).getLsbD 7)
      ((flags ++ field.extractLsb' 16 4).extractLsb' 0 4 ++ field.extractLsb' 8 8 ++
        field.extractLsb' 0 8)) access = _
  rw [append_bytes, append_field, hflag]

end MaerOS.Lib
