import Mathlib.Data.Nat.Bitwise
import MaerOS.Model.Heap

/-!
# Which arenas `heap_create` accepts

An address is aligned if it is a multiple of the block size. The code tests the one
bit that has the value of the block size (`heapValidateAlignment_iff`): an aligned
address may have it set, and an address that is not aligned may have it clear. And
the structure is written before the table is looked at. `heapCreateAt_cases` has the
three ways the function can end; with a record of the pointer to the table it does
what `heapCreate` does (`heapCreate_eq`).
-/

set_option autoImplicit false

namespace MaerOS.Analysis

open MaerOS.Model

/-- The arena begins and ends at a block, and the table has one entry for each block of it. -/
structure ArenaValid (ptr end_ : Addr) (contents : HeapTable) : Prop where
  start : ptr.toNat % maerosHeapBlockSize = 0
  stop : end_.toNat % maerosHeapBlockSize = 0
  total : contents.total = (end_.toNat - ptr.toNat) / maerosHeapBlockSize

/-- The bit of the address that has the value of the block size. -/
def BlockBit (a : Addr) : Prop := a.toNat / maerosHeapBlockSize % 2 = 1

instance (a : Addr) : Decidable (BlockBit a) := inferInstanceAs (Decidable (_ = _))

/-- `heap_validate_alignment` tests that bit. -/
theorem heapValidateAlignment_iff (a : Addr) : heapValidateAlignment a = true ↔ ¬ BlockBit a := by
  have hand : (a &&& BitVec.ofNat 32 maerosHeapBlockSize).toNat =
      a.toNat / 4096 % 2 * 4096 := by
    rw [BitVec.toNat_and]
    show a.toNat &&& 2 ^ 12 = _
    rw [Nat.and_two_pow, Nat.testBit_eq_decide_div_mod_eq]
    rcases Nat.mod_two_eq_zero_or_one (a.toNat / 4096) with h | h
    · simp [h]
    · simp [h]
  unfold heapValidateAlignment BlockBit
  rw [beq_iff_eq, ← BitVec.toNat_inj, hand]
  show _ * 4096 = 0 ↔ ¬ a.toNat / 4096 % 2 = 1
  omega

section Create

variable {heap : HeapRecord} {ptr end_ table : Addr} {contents : HeapTable}

/-- `heap_validate_table` compares the number of blocks. -/
theorem heapValidateTable_eq (hle : ptr ≤ end_) :
    heapValidateTable ptr end_ contents =
      if contents.total = (end_.toNat - ptr.toNat) / maerosHeapBlockSize then 0 else -einvarg := by
  have hsub : (end_ - ptr).toNat = end_.toNat - ptr.toNat := BitVec.toNat_sub_of_le hle
  unfold heapValidateTable
  rw [hsub]
  dsimp only
  split_ifs <;> first | rfl | contradiction

/-- **The ways `heap_create` can end**: refused by the bits of the two addresses, refused by the
table with the structure written, or created. -/
theorem heapCreateAt_cases (hle : ptr ≤ end_) :
    ((BlockBit ptr ∨ BlockBit end_) ∧
      heapCreateAt heap ptr end_ table contents = (-einvarg, heap, contents)) ∨
    ((¬ BlockBit ptr ∧ ¬ BlockBit end_) ∧
      contents.total ≠ (end_.toNat - ptr.toNat) / maerosHeapBlockSize ∧
      heapCreateAt heap ptr end_ table contents = (-einvarg, ⟨table, ptr⟩, contents)) ∨
    ((¬ BlockBit ptr ∧ ¬ BlockBit end_) ∧
      contents.total = (end_.toNat - ptr.toNat) / maerosHeapBlockSize ∧
      heapCreateAt heap ptr end_ table contents = (0, ⟨table, ptr⟩, contents.clearAll)) := by
  have hptr := heapValidateAlignment_iff ptr
  have hend := heapValidateAlignment_iff end_
  unfold heapCreateAt
  rw [heapValidateTable_eq hle]
  by_cases hbits : BlockBit ptr ∨ BlockBit end_
  · refine .inl ⟨hbits, if_pos ?_⟩
    rw [Bool.or_eq_true, Bool.not_eq_true', Bool.not_eq_true', ← Bool.not_eq_true, hptr,
      ← Bool.not_eq_true, hend]
    exact hbits.imp not_not.mpr not_not.mpr
  have hclear := not_or.mp hbits
  have haligned : ¬ ((!heapValidateAlignment ptr || !heapValidateAlignment end_) = true) := by
    rw [hptr.mpr hclear.1, hend.mpr hclear.2]
    decide
  rw [if_neg haligned]
  by_cases htotal : contents.total = (end_.toNat - ptr.toNat) / maerosHeapBlockSize
  · exact .inr (.inr ⟨hclear, htotal, by rw [if_pos htotal]; rfl⟩)
  · exact .inr (.inl ⟨hclear, htotal, by rw [if_neg htotal]; rfl⟩)

/-- `heapCreate`, which has the table for the pointer to it, does the same. -/
theorem heapCreate_eq (h : Heap) :
    heapCreate h ptr end_ contents =
      if !heapValidateAlignment ptr || !heapValidateAlignment end_ then (-einvarg, h)
      else ((heapCreateAt heap ptr end_ table contents).1,
        { table := (heapCreateAt heap ptr end_ table contents).2.2
          saddr := (heapCreateAt heap ptr end_ table contents).2.1.saddr
          stores := [] }) := by
  unfold heapCreate heapCreateAt
  split
  · rfl
  · dsimp only
    split
    · rfl
    · rfl

variable (heap ptr end_ table contents) in
/-- `heap_create` creates a heap over a valid arena, all of it free, and refuses any other without
a change. -/
structure CreatesExactly : Prop where
  accepts : (heapCreateAt heap ptr end_ table contents).1 = 0 ↔ ArenaValid ptr end_ contents
  created : ArenaValid ptr end_ contents →
    (heapCreateAt heap ptr end_ table contents).2.1.saddr = ptr ∧
      ∀ i : ℤ, 0 ≤ i → i < contents.total →
        (heapCreateAt heap ptr end_ table contents).2.2.entries i = heapBlockTableEntryFree
  refused : ¬ ArenaValid ptr end_ contents →
    heapCreateAt heap ptr end_ table contents = (-einvarg, heap, contents)

/-- **Creating a heap** goes as it should if and only if a valid arena begins and ends at an even
block, and of an invalid one an address has the bit set that the code tests, or the number of blocks
is wrong and the structure holds what is written to it already. -/
theorem heap_create_exact_iff (hle : ptr ≤ end_) :
    CreatesExactly heap ptr end_ table contents ↔
      (ArenaValid ptr end_ contents ∧ ¬ BlockBit ptr ∧ ¬ BlockBit end_) ∨
      (¬ ArenaValid ptr end_ contents ∧ (BlockBit ptr ∨ BlockBit end_ ∨
        (contents.total ≠ (end_.toNat - ptr.toNat) / maerosHeapBlockSize ∧
          heap = ⟨table, ptr⟩))) := by
  have hfail : (-einvarg : ℤ) ≠ 0 := by decide
  obtain ⟨hbits, hrun⟩ | ⟨⟨hptr, hend⟩, htotal, hrun⟩ | ⟨⟨hptr, hend⟩, htotal, hrun⟩ :=
    @heapCreateAt_cases heap ptr end_ table contents hle
  · -- a bit is set: refused without a change, which is right for an invalid arena only
    constructor
    · intro h
      have hinvalid : ¬ ArenaValid ptr end_ contents := by
        rw [← h.accepts, hrun]
        exact hfail
      exact .inr ⟨hinvalid, or_assoc.mp (.inl hbits)⟩
    · rintro (⟨-, hptr, hend⟩ | ⟨hinvalid, -⟩)
      · exact absurd hbits (not_or.mpr ⟨hptr, hend⟩)
      · refine ⟨?_, fun hvalid => absurd hvalid hinvalid, fun _ => hrun⟩
        rw [hrun]
        exact iff_of_false hfail hinvalid
  · -- the number of blocks is wrong: refused, but the structure is that of the new heap
    have hinvalid : ¬ ArenaValid ptr end_ contents := fun hvalid => htotal hvalid.total
    constructor
    · intro h
      have hsame := h.refused hinvalid
      rw [hrun] at hsame
      exact .inr ⟨hinvalid, .inr (.inr ⟨htotal, (congrArg (fun r => r.2.1) hsame).symm⟩)⟩
    · rintro (⟨hvalid, -, -⟩ | ⟨-, hset | hset | ⟨-, rfl⟩⟩)
      · exact absurd hvalid hinvalid
      · exact absurd hset hptr
      · exact absurd hset hend
      · refine ⟨?_, fun hvalid => absurd hvalid hinvalid, fun _ => hrun⟩
        rw [hrun]
        exact iff_of_false hfail hinvalid
  · -- created, also where the addresses are no multiples of the block size
    constructor
    · intro h
      have hvalid : ArenaValid ptr end_ contents := by
        rw [← h.accepts, hrun]
      exact .inl ⟨hvalid, hptr, hend⟩
    · rintro (⟨hvalid, -, -⟩ | ⟨-, hset | hset | ⟨hne, -⟩⟩)
      · refine ⟨?_, fun _ => ?_, fun hinvalid => absurd hvalid hinvalid⟩
        · rw [hrun]
          exact iff_of_true rfl hvalid
        · rw [hrun]
          exact ⟨rfl, fun i hi hi' => if_pos ⟨hi, hi'⟩⟩
      · exact absurd hset hptr
      · exact absurd hset hend
      · exact absurd htotal hne

end Create

/-- The arena of the kernel's own heap begins and ends at an even block. -/
theorem heap_create_exact_kernel :
    CreatesExactly ⟨0#32, 0#32⟩ 0x01000000#32 0x07400000#32 0x00107e00#32 ⟨fun _ => 0x55#8, 25600⟩ :=
  (heap_create_exact_iff (by decide)).mpr
    (.inl ⟨⟨by decide, by decide, by decide⟩, by decide, by decide⟩)

/-- An arena of two blocks that begins one byte behind a block is accepted; one of two blocks that
begins at an odd block is refused; and an arena with the wrong number of entries is refused with the
structure written. -/
theorem heap_create_inexact :
    ¬ CreatesExactly ⟨0#32, 0#32⟩ 0x01000001#32 0x01002001#32 0x7e00#32 ⟨fun _ => 0x55#8, 2⟩ ∧
      ¬ CreatesExactly ⟨0#32, 0#32⟩ 0x01001000#32 0x01003000#32 0x7e00#32 ⟨fun _ => 0x55#8, 2⟩ ∧
      ¬ CreatesExactly ⟨0#32, 0#32⟩ 0x01000000#32 0x01002000#32 0x7e00#32 ⟨fun _ => 0x55#8, 3⟩ := by
  refine ⟨fun h => ?_, fun h => ?_, fun h => ?_⟩
  · have hvalid := h.accepts.mp (by decide)
    exact absurd hvalid.start (by decide)
  · have hzero := h.accepts.mpr ⟨by decide, by decide, by decide⟩
    exact absurd hzero (by decide)
  · have hsame := h.refused fun hvalid => absurd hvalid.total (by decide)
    exact absurd (congrArg (fun r => r.2.1) hsame) (by decide)

end MaerOS.Analysis
