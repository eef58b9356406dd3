import MaerOS.Model.Config
import Mathlib.Logic.Function.Basic

/-!
# The global descriptor table: `gdt.c`

`gdt_structured_to_gdt` writes the descriptors of an array of readable entries. The
array that it writes to is modelled by its bytes, with the index of each byte that is
stored to. An entry that cannot be encoded ends in `panic`, which does not return.
-/

set_option autoImplicit false

namespace MaerOS.Model

/-- `struct gdt_structured`. `gdt.h:39-47` -/
structure GdtStructured where
  base : BitVec 32
  limit : BitVec 32
  type : BitVec 8
  deriving DecidableEq

/-- `sizeof(struct gdt)`, which is packed. `gdt.h:17-25` -/
abbrev sizeofGdt : ℕ := 8

/-- The bytes of an array of `struct gdt`, and the indices stored to; no function reads these. -/
structure GdtBytes where
  bytes : ℕ → BitVec 8
  written : List ℕ

/-- `target[k] = b`, where `target` is at the index `target` of the array. -/
def GdtBytes.store (gdt : GdtBytes) (target k : ℕ) (b : BitVec 8) : GdtBytes :=
  { bytes := Function.update gdt.bytes (target + k) b, written := (target + k) :: gdt.written }

/-- `encodeGdtEntry`; there is no outcome where it panics. `gdt.c:4-33` -/
def encodeGdtEntry (gdt : GdtBytes) (target : ℕ) (source : GdtStructured) : Option GdtBytes :=
  if source.limit > 65536#32 ∧ source.limit &&& 0xFFF#32 ≠ 0xFFF#32 then none
  else
    let gdt := gdt.store target 6 0x40#8
    let (source, gdt) :=
      if source.limit > 65536#32 then
        ({ source with limit := source.limit >>> 12 }, gdt.store target 6 0xC0#8)
      else (source, gdt)
    -- the limit
    let gdt := gdt.store target 0 ((source.limit &&& 0xFF#32).setWidth 8)
    let gdt := gdt.store target 1 ((source.limit >>> 8 &&& 0xFF#32).setWidth 8)
    let gdt := gdt.store target 6
      (gdt.bytes (target + 6) ||| (source.limit >>> 16 &&& 0x0F#32).setWidth 8)
    -- the base
    let gdt := gdt.store target 2 ((source.base &&& 0xFF#32).setWidth 8)
    let gdt := gdt.store target 3 ((source.base >>> 8 &&& 0xFF#32).setWidth 8)
    let gdt := gdt.store target 4 ((source.base >>> 16 &&& 0xFF#32).setWidth 8)
    let gdt := gdt.store target 7 ((source.base >>> 24 &&& 0xFF#32).setWidth 8)
    -- the type
    some (gdt.store target 5 source.type)

/-- The loop of `gdt_structured_to_gdt`, `n` rounds from index `i`. -/
def gdtStructuredToGdtLoop (structured_gdt : ℕ → GdtStructured) :
    (n : ℕ) → (i : ℕ) → GdtBytes → Option GdtBytes
  | 0, _, gdt => some gdt
  | n + 1, i, gdt => do
    let gdt ← encodeGdtEntry gdt (sizeofGdt * i) (structured_gdt i)
    gdtStructuredToGdtLoop structured_gdt n (i + 1) gdt

/-- `gdt_structured_to_gdt`. `gdt.c:35-41` -/
def gdtStructuredToGdt (gdt : GdtBytes) (structured_gdt : ℕ → GdtStructured)
    (total_entires : BitVec 32) : Option GdtBytes :=
  gdtStructuredToGdtLoop structured_gdt total_entires.toInt.toNat 0 gdt

/-- `MAEROS_TOTAL_GDT_SEGMENTS`. `config.h:46` -/
def maerosTotalGdtSegments : BitVec 32 := 6#32

/-- `sizeof(struct tss)`, 25 words. `tss.h:9-38` -/
def sizeofTss : BitVec 32 := 100#32

/-- The entries of the kernel, where its task state segment is at `tss`. `kernel.c:58-65` -/
def gdtStructured (tss : Addr) : ℕ → GdtStructured
  | 0 => ⟨0x00#32, 0x00#32, 0x00#8⟩
  | 1 => ⟨0x00#32, 0xffffffff#32, 0x9a#8⟩
  | 2 => ⟨0x00#32, 0xffffffff#32, 0x92#8⟩
  | 3 => ⟨0x00#32, 0xffffffff#32, 0xf8#8⟩
  | 4 => ⟨0x00#32, 0xffffffff#32, 0xf2#8⟩
  | _ => ⟨tss, sizeofTss, 0xE9#8⟩

end MaerOS.Model
