import MaerOS.Lib.Descriptor
import MaerOS.Model.Gdt

/-!
# The descriptors that are written

`encodeGdtEntry` writes the eight bytes of one descriptor (`encodeGdtEntry_eq`): a
limit above 65536 is written in pages, any other one in bytes. The entries it does
not panic on are those whose limit can be written that way (`Encodable`), so reading
the descriptor gives the entry back. The loop writes slot after slot.
-/

set_option autoImplicit false

namespace MaerOS.Analysis

open MaerOS.Lib MaerOS.Model

/-- The limit can be written: in bytes, or as the last byte of a page. -/
def Encodable (e : GdtStructured) : Prop := e.limit ≤ 65536#32 ∨ e.limit &&& 0xFFF#32 = 0xFFF#32

instance (e : GdtStructured) : Decidable (Encodable e) := inferInstanceAs (Decidable (_ ∨ _))

/-! ## The bytes of one entry -/

/-- Masking with `0xFF` and storing a byte keeps the byte. -/
theorem byte_eq_extract (x : BitVec 32) (s : ℕ) :
    (x >>> s &&& 0xFF#32).setWidth 8 = x.extractLsb' s 8 := by
  apply BitVec.eq_of_getLsbD_eq
  intro i hi
  simp only [BitVec.getLsbD_setWidth, BitVec.getLsbD_and, BitVec.getLsbD_ushiftRight,
    BitVec.getLsbD_extractLsb', hi, decide_true, Bool.true_and]
  interval_cases i <;> simp

/-- The same for the lowest byte, which is not shifted. -/
theorem low_byte_eq_extract (x : BitVec 32) :
    (x &&& 0xFF#32).setWidth 8 = x.extractLsb' 0 8 := byte_eq_extract x 0

/-- A byte of the field is that of the limit it is cut from. -/
theorem extract_setWidth (x : BitVec 32) {s w : ℕ} (h : s + w ≤ 20) :
    (x.setWidth 20).extractLsb' s w = x.extractLsb' s w := by
  apply BitVec.eq_of_getLsbD_eq
  intro i hi
  simp only [BitVec.getLsbD_extractLsb', BitVec.getLsbD_setWidth, hi, decide_true, Bool.true_and]
  rw [decide_eq_true (by omega), Bool.true_and]

/-- The flags in the high half of byte 6, the rest of the limit in the low one. -/
theorem flags_or_eq (flags : BitVec 4) (x : BitVec 32) :
    (flags ++ 0#4) ||| (x >>> 16 &&& 0x0F#32).setWidth 8 = flags ++ x.extractLsb' 16 4 := by
  apply BitVec.eq_of_getLsbD_eq
  intro i hi
  simp only [BitVec.getLsbD_or, BitVec.getLsbD_append, BitVec.getLsbD_setWidth,
    BitVec.getLsbD_and, BitVec.getLsbD_ushiftRight, BitVec.getLsbD_extractLsb']
  interval_cases i <;> simp

/-- The field that is written for a limit. -/
def limitField (limit : BitVec 32) : BitVec 20 :=
  (if limit > 65536#32 then limit >>> 12 else limit).setWidth 20

/-- The flags that are written for a limit: 32 bits, and the granularity. -/
def limitFlags (limit : BitVec 32) : BitVec 4 := if limit > 65536#32 then 0xC#4 else 0x4#4

/-- The limit is read back. -/
theorem scaledLimit_eq {e : GdtStructured} (h : Encodable e) :
    scaledLimit ((limitFlags e.limit).getLsbD 3) (limitField e.limit) = e.limit := by
  have hlt := e.limit.isLt
  apply BitVec.eq_of_toNat_eq
  unfold limitFlags limitField scaledLimit
  by_cases hlarge : e.limit > 65536#32
  · have hlow : e.limit.toNat % 4096 = 4095 := by
      rw [← and_low_toNat, h.resolve_left (BitVec.not_le.mpr hlarge)]
      rfl
    have hpage : (e.limit >>> 12).toNat = e.limit.toNat / 4096 := by
      rw [BitVec.toNat_ushiftRight, Nat.shiftRight_eq_div_pow]
    rw [if_pos hlarge, if_pos hlarge, if_pos (by decide), BitVec.toNat_ofNat,
      BitVec.toNat_setWidth, hpage]
    omega
  · have hsmall : e.limit.toNat ≤ 65536 := BitVec.not_lt.mp hlarge
    rw [if_neg hlarge, if_neg hlarge, if_neg (by decide), BitVec.toNat_ofNat,
      BitVec.toNat_setWidth]
    omega

/-- The bytes of the descriptor of an entry. -/
def descriptorBytes (e : GdtStructured) : ℕ → BitVec 8 :=
  encodeDescriptor e.base (limitField e.limit) (limitFlags e.limit) e.type

theorem decode_descriptorBytes {e : GdtStructured} (h : Encodable e) :
    decodeDescriptor (descriptorBytes e) = ⟨e.base, e.limit, e.type⟩ := by
  unfold descriptorBytes
  rw [decode_encodeDescriptor, scaledLimit_eq h]

/-! ## Writing one entry -/

/-- From `gdt` to `gdt'`, only bytes of slot `i` are stored to. -/
structure WritesSlot (i : ℕ) (gdt gdt' : GdtBytes) : Prop where
  written : ∃ ks, gdt'.written = ks ++ gdt.written ∧
    ∀ k ∈ ks, sizeofGdt * i ≤ k ∧ k < sizeofGdt * i + sizeofGdt
  same : ∀ k, ¬ (sizeofGdt * i ≤ k ∧ k < sizeofGdt * i + sizeofGdt) → gdt'.bytes k = gdt.bytes k

theorem WritesSlot.refl (i : ℕ) (gdt : GdtBytes) : WritesSlot i gdt gdt :=
  ⟨⟨[], rfl, by simp⟩, fun _ _ => rfl⟩

/-- One more byte of the slot. -/
theorem WritesSlot.store {i : ℕ} {gdt gdt' : GdtBytes} (h : WritesSlot i gdt gdt') {k : ℕ}
    (hk : k < sizeofGdt) (b : BitVec 8) : WritesSlot i gdt (gdt'.store (sizeofGdt * i) k b) := by
  obtain ⟨ks, hks, hslot⟩ := h.written
  refine ⟨⟨(sizeofGdt * i + k) :: ks, ?_, ?_⟩, fun j hj => ?_⟩
  · unfold GdtBytes.store
    rw [hks, List.cons_append]
  · intro j hj
    rcases List.mem_cons.mp hj with rfl | hj
    · omega
    · exact hslot j hj
  · rw [← h.same j hj]
    exact Function.update_of_ne (by omega) _ _

@[simp] theorem store_bytes (gdt : GdtBytes) (target k j : ℕ) (b : BitVec 8) :
    (gdt.store target k b).bytes (target + j) = if j = k then b else gdt.bytes (target + j) := by
  unfold GdtBytes.store
  by_cases hj : j = k
  · rw [if_pos hj, hj]
    exact Function.update_self _ _ _
  · rw [if_neg hj]
    exact Function.update_of_ne (by omega) _ _

/-- What is stored behind the flags, where `limit` is the limit in the unit that they give. -/
def storeFields (gdt : GdtBytes) (target : ℕ) (base limit : BitVec 32) (type : BitVec 8) :
    GdtBytes :=
  let gdt := gdt.store target 0 ((limit &&& 0xFF#32).setWidth 8)
  let gdt := gdt.store target 1 ((limit >>> 8 &&& 0xFF#32).setWidth 8)
  let gdt := gdt.store target 6
    (gdt.bytes (target + 6) ||| (limit >>> 16 &&& 0x0F#32).setWidth 8)
  let gdt := gdt.store target 2 ((base &&& 0xFF#32).setWidth 8)
  let gdt := gdt.store target 3 ((base >>> 8 &&& 0xFF#32).setWidth 8)
  let gdt := gdt.store target 4 ((base >>> 16 &&& 0xFF#32).setWidth 8)
  let gdt := gdt.store target 7 ((base >>> 24 &&& 0xFF#32).setWidth 8)
  gdt.store target 5 type

/-- Behind the stores the slot holds the encoded descriptor. -/
theorem storeFields_bytes {gdt : GdtBytes} {target : ℕ} {base limit : BitVec 32}
    {type : BitVec 8} {flags : BitVec 4} (hflags : gdt.bytes (target + 6) = flags ++ 0#4) {k : ℕ}
    (hk : k < sizeofGdt) : (storeFields gdt target base limit type).bytes (target + k) =
      encodeDescriptor base (limit.setWidth 20) flags type k := by
  unfold storeFields
  simp only [store_bytes]
  interval_cases k
  · exact (low_byte_eq_extract limit).trans (extract_setWidth limit (by omega)).symm
  · exact (byte_eq_extract limit 8).trans (extract_setWidth limit (by omega)).symm
  · exact low_byte_eq_extract base
  · exact byte_eq_extract base 8
  · exact byte_eq_extract base 16
  · rfl
  · show gdt.bytes (target + 6) ||| _ = flags ++ (limit.setWidth 20).extractLsb' 16 4
    rw [hflags, flags_or_eq, extract_setWidth limit (by omega)]
  · exact byte_eq_extract base 24

/-- The fields are stored in the slot alone. -/
theorem WritesSlot.storeFields {i : ℕ} {gdt gdt' : GdtBytes} (h : WritesSlot i gdt gdt')
    (base limit : BitVec 32) (type : BitVec 8) :
    WritesSlot i gdt (storeFields gdt' (sizeofGdt * i) base limit type) :=
  (((((((h.store (by decide) _).store (by decide) _).store (by decide) _).store
    (by decide) _).store (by decide) _).store (by decide) _).store (by decide) _).store
    (by decide) _

/-- **One entry** is written to its slot, and the slot holds its descriptor. -/
theorem encodeGdtEntry_eq (gdt : GdtBytes) (i : ℕ) {e : GdtStructured} (h : Encodable e) :
    ∃ gdt', encodeGdtEntry gdt (sizeofGdt * i) e = some gdt' ∧ WritesSlot i gdt gdt' ∧
      ∀ k < sizeofGdt, gdt'.bytes (sizeofGdt * i + k) = descriptorBytes e k := by
  have hpanic : ¬ (e.limit > 65536#32 ∧ e.limit &&& 0xFFF#32 ≠ 0xFFF#32) := by
    rintro ⟨hlarge, hlow⟩
    exact hlow (h.resolve_left (BitVec.not_le.mpr hlarge))
  have hfirst : WritesSlot i gdt (gdt.store (sizeofGdt * i) 6 0x40#8) :=
    (WritesSlot.refl i gdt).store (by decide) _
  unfold descriptorBytes limitField limitFlags encodeGdtEntry
  rw [if_neg hpanic]
  by_cases hlarge : e.limit > 65536#32
  · simp only [if_pos hlarge]
    refine ⟨_, rfl, (hfirst.store (k := 6) (by decide) 0xC0#8).storeFields e.base _ e.type,
      fun k hk => storeFields_bytes ?_ hk⟩
    rw [store_bytes, if_pos rfl]
    rfl
  · simp only [if_neg hlarge]
    refine ⟨_, rfl, hfirst.storeFields e.base e.limit e.type, fun k hk => storeFields_bytes ?_ hk⟩
    rw [store_bytes, if_pos rfl]
    rfl

/-- `encodeGdtEntry` panics on the other entries, and on no others. -/
theorem encodeGdtEntry_isSome_iff (gdt : GdtBytes) (i : ℕ) (e : GdtStructured) :
    (encodeGdtEntry gdt (sizeofGdt * i) e).isSome ↔ Encodable e := by
  constructor
  · intro h
    by_contra hbad
    obtain ⟨hlarge, hlow⟩ := not_or.mp hbad
    unfold encodeGdtEntry at h
    rw [if_pos ⟨BitVec.not_le.mp hlarge, hlow⟩] at h
    exact Bool.false_ne_true h
  · intro h
    obtain ⟨gdt', hrun, -⟩ := encodeGdtEntry_eq gdt i h
    rw [hrun]
    rfl

/-! ## Writing the table -/

section Table

variable {structured_gdt : ℕ → GdtStructured}

/-- The rounds of the loop one after the other. -/
theorem gdtStructuredToGdtLoop_succ (n i : ℕ) (gdt : GdtBytes) :
    gdtStructuredToGdtLoop structured_gdt (n + 1) i gdt =
      (gdtStructuredToGdtLoop structured_gdt n i gdt).bind fun gdt =>
        encodeGdtEntry gdt (sizeofGdt * (i + n)) (structured_gdt (i + n)) := by
  induction n generalizing i gdt with
  | zero =>
    show (encodeGdtEntry gdt (sizeofGdt * i) (structured_gdt i)).bind some = _
    rw [Option.bind_fun_some]
    rfl
  | succ n ih =>
    show (encodeGdtEntry gdt (sizeofGdt * i) (structured_gdt i)).bind
      (gdtStructuredToGdtLoop structured_gdt (n + 1) (i + 1)) =
        ((encodeGdtEntry gdt (sizeofGdt * i) (structured_gdt i)).bind
          (gdtStructuredToGdtLoop structured_gdt n (i + 1))).bind _
    rw [Option.bind_assoc]
    congr 1
    funext gdt'
    rw [ih (i + 1) gdt', Nat.add_assoc, Nat.add_comm 1 n]

/-- **The loop**: after `n` entries the first `n` slots hold their descriptors, and what is behind
them is as before. -/
theorem gdtStructuredToGdtLoop_spec (gdt : GdtBytes) {n : ℕ}
    (h : ∀ i < n, Encodable (structured_gdt i)) :
    ∃ gdt', gdtStructuredToGdtLoop structured_gdt n 0 gdt = some gdt' ∧
      (∀ i < n, ∀ k < sizeofGdt,
        gdt'.bytes (sizeofGdt * i + k) = descriptorBytes (structured_gdt i) k) ∧
      ∀ k, sizeofGdt * n ≤ k → gdt'.bytes k = gdt.bytes k := by
  induction n with
  | zero => exact ⟨gdt, rfl, fun i hi => absurd hi (by omega), fun _ _ => rfl⟩
  | succ n ih =>
    obtain ⟨before, hbefore, hslots, hbehind⟩ := ih fun i hi => h i (by omega)
    obtain ⟨after, hafter, hwrites, hslot⟩ := encodeGdtEntry_eq before n (h n (by omega))
    refine ⟨after, ?_, fun i hi k hk => ?_, fun k hk => ?_⟩
    · rw [gdtStructuredToGdtLoop_succ, hbefore, Option.bind_some, Nat.zero_add]
      exact hafter
    · rcases Nat.lt_succ_iff_lt_or_eq.mp hi with hi | rfl
      · rw [hwrites.same _ (by unfold sizeofGdt at hk ⊢; omega)]
        exact hslots i hi k hk
      · exact hslot k hk
    · unfold sizeofGdt at hk
      rw [hwrites.same k (by unfold sizeofGdt; omega)]
      exact hbehind k (by unfold sizeofGdt; omega)

/-- **Round trip of the table**: of entries that can be encoded, every slot holds a descriptor that
is read as its entry. Each round of the loop stores to the slot of its entry only, and nothing is
stored behind the table. -/
theorem gdt_round_trip (gdt : GdtBytes) (total_entires : BitVec 32)
    (h : ∀ i : ℕ, (i : ℤ) < total_entires.toInt → Encodable (structured_gdt i)) :
    ∃ gdt', gdtStructuredToGdt gdt structured_gdt total_entires = some gdt' ∧
      (∀ i : ℕ, (i : ℤ) < total_entires.toInt →
        decodeDescriptor (fun k => gdt'.bytes (sizeofGdt * i + k)) =
          ⟨(structured_gdt i).base, (structured_gdt i).limit, (structured_gdt i).type⟩) ∧
      (∀ i : ℕ, (i : ℤ) < total_entires.toInt → ∃ before after,
        gdtStructuredToGdtLoop structured_gdt i 0 gdt = some before ∧
          encodeGdtEntry before (sizeofGdt * i) (structured_gdt i) = some after ∧
          gdtStructuredToGdtLoop structured_gdt (i + 1) 0 gdt = some after ∧
          WritesSlot i before after) ∧
      ∀ k : ℕ, sizeofGdt * total_entires.toInt ≤ k → gdt'.bytes k = gdt.bytes k := by
  have hlt : ∀ i : ℕ, i < total_entires.toInt.toNat → (i : ℤ) < total_entires.toInt :=
    fun i hi => by omega
  obtain ⟨gdt', hrun, hslots, hbehind⟩ :=
    gdtStructuredToGdtLoop_spec gdt fun i hi => h i (hlt i hi)
  refine ⟨gdt', hrun, fun i hi => ?_, fun i hi => ?_, fun k hk => hbehind k ?_⟩
  · rw [← decode_descriptorBytes (h i hi)]
    exact decodeDescriptor_congr (hslots i (by omega))
  · obtain ⟨before, hbefore, -⟩ :=
      gdtStructuredToGdtLoop_spec gdt fun j (hj : j < i) => h j (by omega)
    obtain ⟨after, hafter, hwrites, -⟩ := encodeGdtEntry_eq before i (h i hi)
    refine ⟨before, after, hbefore, hafter, ?_, hwrites⟩
    rw [gdtStructuredToGdtLoop_succ, hbefore, Option.bind_some, Nat.zero_add]
    exact hafter
  · unfold sizeofGdt at hk ⊢
    omega

end Table

/-- The entries of the kernel can be encoded, wherever its task state segment is. -/
theorem gdtStructured_encodable (tss : Addr) : ∀ i, Encodable (gdtStructured tss i)
  | 0 => .inl (show 0x00#32 ≤ 65536#32 by decide)
  | 1 | 2 | 3 | 4 => .inr (show 0xffffffff#32 &&& 0xFFF#32 = 0xFFF#32 by decide)
  | _ + 5 => .inl (show sizeofTss ≤ 65536#32 by decide)

/-- The table of the kernel: the descriptor for its data. -/
theorem gdt_round_trip_kernel :
    ∃ gdt', gdtStructuredToGdt ⟨fun _ => 0#8, []⟩ (gdtStructured 0x00108000#32)
        maerosTotalGdtSegments = some gdt' ∧
      decodeDescriptor (fun k => gdt'.bytes (sizeofGdt * 2 + k)) =
        ⟨0#32, 0xffffffff#32, 0x92#8⟩ := by
  obtain ⟨gdt', hrun, hslots, -⟩ :=
    gdt_round_trip ⟨fun _ => 0#8, []⟩ maerosTotalGdtSegments
      fun i _ => gdtStructured_encodable 0x00108000#32 i
  exact ⟨gdt', hrun, hslots 2 (by decide)⟩

end MaerOS.Analysis
