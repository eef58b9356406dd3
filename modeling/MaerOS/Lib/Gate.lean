import MaerOS.Lib.CString

/-!
# Interrupt gates

A gate has eight bytes. The address of the handler is in the bytes 0, 1, 6 and 7, its
code segment in the bytes 2 and 3, byte 4 is not used and byte 5 has the present bit,
the privilege level and the kind of the gate. A table of gates lies at the base that
the processor was told, and ends at the limit.

`deliver` is what the processor does with an interrupt: it finds the gate of the
vector, and there is none where it would raise another exception instead. Only 32-bit
interrupt gates are treated.
-/

set_option autoImplicit false

namespace MaerOS.Lib

/-- What the processor takes from a gate. -/
structure Gate where
  offset : BitVec 32
  selector : BitVec 16
  present : Bool
  dpl : BitVec 2
  kind : BitVec 5
  deriving DecidableEq

/-- Read a gate from its bytes. -/
def decodeGate (b : ℕ → BitVec 8) : Gate where
  offset := b 7 ++ b 6 ++ b 1 ++ b 0
  selector := b 3 ++ b 2
  present := (b 5).getLsbD 7
  dpl := (b 5).extractLsb' 5 2
  kind := (b 5).extractLsb' 0 5

/-- The bytes of a gate. -/
def encodeGate (offset : BitVec 32) (selector : BitVec 16) (zero attr : BitVec 8) :
    List (BitVec 8) :=
  [offset.extractLsb' 0 8, offset.extractLsb' 8 8, selector.extractLsb' 0 8,
    selector.extractLsb' 8 8, zero, attr, offset.extractLsb' 16 8, offset.extractLsb' 24 8]

/-- A half word is the concatenation of its two bytes. -/
theorem append_bytes16 (v : BitVec 16) : v.extractLsb' 8 8 ++ v.extractLsb' 0 8 = v := by
  apply BitVec.eq_of_getLsbD_eq
  intro i hi
  simp only [BitVec.getLsbD_append, BitVec.getLsbD_extractLsb']
  interval_cases i <;> simp

/-- **Round trip**: what is read is what was written. -/
theorem decode_encodeGate (offset : BitVec 32) (selector : BitVec 16) (zero attr : BitVec 8) :
    decodeGate (fun k => (encodeGate offset selector zero attr).getD k 0#8) =
      ⟨offset, selector, attr.getLsbD 7, attr.extractLsb' 5 2, attr.extractLsb' 0 5⟩ := by
  show Gate.mk
    (offset.extractLsb' 24 8 ++ offset.extractLsb' 16 8 ++ offset.extractLsb' 8 8 ++
      offset.extractLsb' 0 8)
    (selector.extractLsb' 8 8 ++ selector.extractLsb' 0 8) (attr.getLsbD 7)
    (attr.extractLsb' 5 2) (attr.extractLsb' 0 5) = _
  rw [append_bytes, append_bytes16]

/-! ## Half words -/

/-- A byte that was stored, by its offset. -/
theorem storeBytes_apply (m : Memory) (a : BitVec 32) (bs : List (BitVec 8)) {i : ℕ}
    (hi : i < bs.length) (hlt : i < 2 ^ 32) :
    storeBytes m a bs (a + BitVec.ofNat 32 i) = bs.getD i 0#8 := by
  unfold storeBytes
  rw [add_ofNat_sub a hlt, List.getD_eq_getElem bs _ hi, List.getD_eq_getElem bs _ hi]

/-- Reading back the half word just stored. -/
theorem load16_store16_self (m : Memory) (a : BitVec 32) (v : BitVec 16) :
    load16 (store16 m a v) a = v := by
  have h0 := storeBytes_apply m a [v.extractLsb' 0 8, v.extractLsb' 8 8] (i := 0) (by simp)
    (by omega)
  have h1 := storeBytes_apply m a [v.extractLsb' 0 8, v.extractLsb' 8 8] (i := 1) (by simp)
    (by omega)
  rw [show a + BitVec.ofNat 32 0 = a from by simp] at h0
  unfold load16 store16
  rw [show a + 1#32 = a + BitVec.ofNat 32 1 from rfl, h1, h0]
  exact append_bytes16 v

/-- A byte stored is a row of one byte. -/
theorem update_eq_storeBytes (m : Memory) (a : BitVec 32) (b : BitVec 8) :
    Function.update m a b = storeBytes m a [b] := by
  rw [storeBytes_cons _ _ _ (by simp), storeBytes_nil]

/-! ## Delivery -/

/-- What raised an interrupt: an instruction of code that runs at a privilege level, or something
else. -/
inductive Cause where
  | software (cpl : BitVec 2)
  | other
  deriving DecidableEq

/-- Code may only raise interrupts whose gates are at its privilege level or below. -/
def Cause.Allowed : Cause → BitVec 2 → Prop
  | software cpl, dpl => cpl ≤ dpl
  | other, _ => True

instance : (c : Cause) → (dpl : BitVec 2) → Decidable (c.Allowed dpl)
  | .software cpl, dpl => inferInstanceAs (Decidable (cpl ≤ dpl))
  | .other, _ => inferInstanceAs (Decidable True)

/-- The kind of a 32-bit interrupt gate. -/
def interruptGate : BitVec 5 := 0x0E#5

/-- The bytes of the gate of a vector. -/
def gateBytes (m : Memory) (base : BitVec 32) (vector : ℕ) (k : ℕ) : BitVec 8 :=
  m (base + BitVec.ofNat 32 (8 * vector + k))

/-- The gate an interrupt goes through. -/
def deliver (m : Memory) (limit : BitVec 16) (base : BitVec 32) (cause : Cause)
    (vector : BitVec 8) : Option Gate :=
  if limit.toNat < 8 * vector.toNat + 7 then none
  else
    let gate := decodeGate (gateBytes m base vector.toNat)
    if gate.present ∧ gate.kind = interruptGate ∧ cause.Allowed gate.dpl then some gate else none

/-! ## Tables -/

/-- The gates of a table, by vector. -/
def HoldsGate (m : Memory) (base : BitVec 32) (vector : ℕ) (bytes : List (BitVec 8)) : Prop :=
  ∀ k < 8, gateBytes m base vector k = bytes.getD k 0#8

/-- The gate in memory decodes as its bytes do. -/
theorem HoldsGate.decode {m : Memory} {base : BitVec 32} {vector : ℕ} {bytes : List (BitVec 8)}
    (h : HoldsGate m base vector bytes) :
    decodeGate (gateBytes m base vector) = decodeGate fun k => bytes.getD k 0#8 := by
  unfold decodeGate
  rw [h 0 (by omega), h 1 (by omega), h 2 (by omega), h 3 (by omega), h 5 (by omega),
    h 6 (by omega), h 7 (by omega)]

/-- Storing a gate. -/
theorem holdsGate_storeBytes (m : Memory) (base : BitVec 32) (vector : ℕ)
    {bytes : List (BitVec 8)} (hlen : bytes.length = 8) :
    HoldsGate (storeBytes m (base + BitVec.ofNat 32 (8 * vector)) bytes) base vector bytes := by
  intro k hk
  unfold gateBytes
  rw [add_ofNat_add]
  exact storeBytes_apply m _ bytes (by omega) (by omega)

/-- Storing another gate. -/
theorem HoldsGate.storeBytes {m : Memory} {base : BitVec 32} {vector i : ℕ}
    {bytes bytes' : List (BitVec 8)} (h : HoldsGate m base vector bytes)
    (hlen : bytes'.length = 8) (hv : vector < 2 ^ 16) (hi : i < 2 ^ 16) (hne : vector ≠ i) :
    HoldsGate (Lib.storeBytes m (base + BitVec.ofNat 32 (8 * i)) bytes') base vector bytes := by
  intro k hk
  rw [← h k hk]
  unfold gateBytes
  refine storeBytes_of_far ?_
  rw [hlen]
  have hsub : base + BitVec.ofNat 32 (8 * vector + k) - (base + BitVec.ofNat 32 (8 * i)) =
      BitVec.ofNat 32 (8 * vector + k) - BitVec.ofNat 32 (8 * i) := by bv_omega
  rw [hsub, BitVec.toNat_sub, BitVec.toNat_ofNat, BitVec.toNat_ofNat]
  omega

end MaerOS.Lib
