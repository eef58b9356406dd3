import MaerOS.Lib.Memory

/-!
# Reads with a check of the size

A list of bytes as a buffer: `read8`, `read16` and `read32` have a value only if every byte they
take is in it. A memory that holds the bytes at `base` has the same values there
(`read32_eq`), so that code whose reads are checked and which has an outcome reads nothing else.
Offsets are words: they wrap around as addresses do.
-/

set_option autoImplicit false

namespace MaerOS.Lib

/-- The byte at an offset. -/
def read8 (bytes : List (BitVec 8)) (off : BitVec 32) : Option (BitVec 8) := bytes[off.toNat]?

/-- The half word at an offset. -/
def read16 (bytes : List (BitVec 8)) (off : BitVec 32) : Option (BitVec 16) := do
  let b₀ ← read8 bytes off
  let b₁ ← read8 bytes (off + 1#32)
  pure (b₁ ++ b₀)

/-- The word at an offset. -/
def read32 (bytes : List (BitVec 8)) (off : BitVec 32) : Option (BitVec 32) := do
  let b₀ ← read8 bytes off
  let b₁ ← read8 bytes (off + 1#32)
  let b₂ ← read8 bytes (off + 2#32)
  let b₃ ← read8 bytes (off + 3#32)
  pure (b₃ ++ b₂ ++ b₁ ++ b₀)

/-- The memory has the bytes from `base` on. -/
def HoldsAt (m : Memory) (base : BitVec 32) (bytes : List (BitVec 8)) : Prop :=
  ∀ off : BitVec 32, ∀ h : off.toNat < bytes.length, m (base + off) = bytes[off.toNat]

/-- The value `r` of code that reads up to `e` and no further, from a buffer of `n` bytes. -/
def upTo {α : Type} (n e : ℕ) (r : α) : Option α := if e ≤ n then some r else none

section UpTo

variable {α β : Type} {n e e' : ℕ} {r : α} {s : β}

@[simp] theorem upTo_isSome : (upTo n e r).isSome ↔ e ≤ n := by
  unfold upTo
  split_ifs with he
  · simp [he]
  · simp [he]

theorem upTo_of_lt (h : n < e) : upTo n e r = none := if_neg (by omega)

@[simp] theorem upTo_zero : upTo n 0 r = some r := if_pos (Nat.zero_le n)

/-- Reading on: the larger extent counts. -/
theorem upTo_bind {f : α → Option β} (hf : f r = upTo n e' s) :
    (upTo n e r).bind f = upTo n (max e e') s := by
  unfold upTo at *
  by_cases he : e ≤ n
  · rw [if_pos he, Option.bind_some, hf]
    simp only [max_le_iff, he, true_and]
  · rw [if_neg he, if_neg (by omega)]
    rfl

/-- Reading on behind what was read. -/
theorem upTo_bind_of_le {f : α → Option β} (hle : e ≤ e') (hf : f r = upTo n e' s) :
    (upTo n e r).bind f = upTo n e' s := by
  rw [upTo_bind hf, max_eq_right hle]

/-- Reading no further than before. -/
theorem upTo_bind_of_ge {f : α → Option β} (hle : e' ≤ e) (hf : f r = upTo n e' s) :
    (upTo n e r).bind f = upTo n e s := by
  rw [upTo_bind hf, max_eq_left hle]

end UpTo

section Reads

variable {m : Memory} {base off : BitVec 32} {bytes : List (BitVec 8)}

/-- A byte is read iff it is in the buffer. -/
theorem read8_eq (h : HoldsAt m base bytes) :
    read8 bytes off = upTo bytes.length (off.toNat + 1) (m (base + off)) := by
  unfold read8 upTo
  split_ifs with hin
  · rw [h off hin, List.getElem?_eq_getElem hin]
  · exact List.getElem?_eq_none (by omega)

/-- The offsets behind one in the buffer do not wrap around. -/
theorem toNat_next (hsize : bytes.length < 2 ^ 31) (hoff : off.toNat < bytes.length) :
    (off + 1#32).toNat = off.toNat + 1 ∧ (off + 2#32).toNat = off.toNat + 2 ∧
      (off + 3#32).toNat = off.toNat + 3 := by
  refine ⟨?_, ?_, ?_⟩ <;> bv_omega

/-- A half word is read iff both bytes are in the buffer. -/
theorem read16_eq (h : HoldsAt m base bytes) (hsize : bytes.length < 2 ^ 31) :
    read16 bytes off = upTo bytes.length (off.toNat + 2) (load16 m (base + off)) := by
  unfold read16 load16
  rw [read8_eq h, read8_eq h, BitVec.add_assoc]
  by_cases hoff : off.toNat < bytes.length
  · rw [(toNat_next hsize hoff).1]
    exact upTo_bind_of_le (by omega) (upTo_bind_of_ge (by omega) upTo_zero.symm)
  · rw [upTo_of_lt (e := off.toNat + 1) (by omega), upTo_of_lt (e := off.toNat + 2) (by omega)]
    rfl

/-- A word is read iff its four bytes are in the buffer. -/
theorem read32_eq (h : HoldsAt m base bytes) (hsize : bytes.length < 2 ^ 31) :
    read32 bytes off = upTo bytes.length (off.toNat + 4) (load32 m (base + off)) := by
  unfold read32 load32
  rw [read8_eq h, read8_eq h, read8_eq h, read8_eq h, BitVec.add_assoc, BitVec.add_assoc,
    BitVec.add_assoc]
  by_cases hoff : off.toNat < bytes.length
  · obtain ⟨h₁, h₂, h₃⟩ := toNat_next hsize hoff
    rw [h₁, h₂, h₃]
    exact upTo_bind_of_le (by omega) (upTo_bind_of_le (by omega) (upTo_bind_of_le (by omega)
      (upTo_bind_of_ge (by omega) upTo_zero.symm)))
  · rw [upTo_of_lt (e := off.toNat + 1) (by omega), upTo_of_lt (e := off.toNat + 4) (by omega)]
    rfl

end Reads

end MaerOS.Lib
