import MaerOS.Lib.CString

/-!
# Memory with a record of the stores

A traced memory remembers which bytes were stored to. `storeAll` stores bytes one
after the other, and `mem_storeAll` says which addresses that adds; the copies below
are loops that read and store in turn, and come down to one `storeAll` as long as
no store hits a byte that is still to be read (`ReadAhead`).
-/

set_option autoImplicit false

namespace MaerOS.Lib

/-- Memory, and the addresses of the bytes stored to, the latest first. -/
structure Traced where
  mem : Memory
  stores : List (BitVec 32)

namespace Traced

/-- Store a byte. -/
def store (t : Traced) (a : BitVec 32) (b : BitVec 8) : Traced :=
  ⟨Function.update t.mem a b, a :: t.stores⟩

/-- Store a word, least significant byte first. -/
def storeWord (t : Traced) (a v : BitVec 32) : Traced :=
  (((t.store a (v.extractLsb' 0 8)).store (a + 1#32) (v.extractLsb' 8 8)).store (a + 2#32)
    (v.extractLsb' 16 8)).store (a + 3#32) (v.extractLsb' 24 8)

/-- Store bytes one after the other. -/
def storeAll (t : Traced) (a : BitVec 32) : List (BitVec 8) → Traced
  | [] => t
  | b :: bs => (t.store a b).storeAll (a + 1#32) bs

/-- From `t` to `t'`, only bytes in the record have changed. -/
def Records (t t' : Traced) : Prop := ∀ x, x ∉ t'.stores → t'.mem x = t.mem x ∧ x ∉ t.stores

theorem Records.refl (t : Traced) : t.Records t := fun _ hx => ⟨rfl, hx⟩

theorem Records.trans {t₁ t₂ t₃ : Traced} (h : t₁.Records t₂) (h' : t₂.Records t₃) :
    t₁.Records t₃ := by
  intro x hx
  obtain ⟨heq', hx'⟩ := h' x hx
  obtain ⟨heq, hx''⟩ := h x hx'
  exact ⟨heq'.trans heq, hx''⟩

theorem records_store (t : Traced) (a : BitVec 32) (b : BitVec 8) : t.Records (t.store a b) := by
  intro x hx
  simp only [store, List.mem_cons, not_or] at hx ⊢
  exact ⟨Function.update_of_ne hx.1 _ _, hx.2⟩

theorem records_storeWord (t : Traced) (a v : BitVec 32) : t.Records (t.storeWord a v) :=
  (((records_store t _ _).trans (records_store _ _ _)).trans (records_store _ _ _)).trans
    (records_store _ _ _)

/-- The bytes of a word. -/
theorem mem_storeWord {t : Traced} {a v x : BitVec 32} :
    x ∈ (t.storeWord a v).stores ↔ (∃ i < 4, x = a + BitVec.ofNat 32 i) ∨ x ∈ t.stores := by
  simp only [storeWord, store, List.mem_cons]
  constructor
  · rintro (rfl | rfl | rfl | rfl | hx)
    · exact .inl ⟨3, by omega, rfl⟩
    · exact .inl ⟨2, by omega, rfl⟩
    · exact .inl ⟨1, by omega, rfl⟩
    · exact .inl ⟨0, by omega, by simp⟩
    · exact .inr hx
  · rintro (⟨i, hi, rfl⟩ | hx)
    · interval_cases i <;> simp
    · simp [hx]

/-- The bytes of a row. -/
theorem mem_storeAll {t : Traced} {a x : BitVec 32} {bs : List (BitVec 8)} :
    x ∈ (t.storeAll a bs).stores ↔
      (∃ i < bs.length, x = a + BitVec.ofNat 32 i) ∨ x ∈ t.stores := by
  induction bs generalizing t a with
  | nil => simp [storeAll]
  | cons b bs ih =>
    rw [storeAll, ih]
    constructor
    · rintro (⟨i, hi, rfl⟩ | hx)
      · exact .inl ⟨i + 1, by simpa using hi, (add_ofNat_succ a i).symm⟩
      · rcases List.mem_cons.mp hx with rfl | hx
        · exact .inl ⟨0, by simp, by simp⟩
        · exact .inr hx
    · rintro (⟨i, hi, rfl⟩ | hx)
      · cases i with
        | zero => simp [store]
        | succ i => exact .inl ⟨i, by simpa using hi, add_ofNat_succ a i⟩
      · exact .inr (List.mem_cons_of_mem _ hx)

/-- Storing a row of bytes is `storeBytes`. -/
theorem storeAll_mem (t : Traced) (a : BitVec 32) {bs : List (BitVec 8)} (hlen : bs.length < 2 ^ 32) :
    (t.storeAll a bs).mem = storeBytes t.mem a bs := by
  induction bs generalizing t a with
  | nil => simp [storeAll]
  | cons b bs ih =>
    rw [List.length_cons] at hlen
    rw [storeAll, ih _ _ (by omega), storeBytes_cons _ _ _ (by omega)]
    rfl

end Traced

/-! ## Copies that read and store in turn -/

/-- No store of a copy from `src` to `dest` hits a byte that the copy has still to read. -/
def ReadAhead (dest src : BitVec 32) (len : ℕ) : Prop :=
  ∀ i j, i < j → j ≤ len → src + BitVec.ofNat 32 j ≠ dest + BitVec.ofNat 32 i

theorem ReadAhead.step {dest src : BitVec 32} {len : ℕ} (h : ReadAhead dest src (len + 1)) :
    ReadAhead (dest + 1#32) (src + 1#32) len := by
  intro i j hij hj heq
  rw [← add_ofNat_succ, ← add_ofNat_succ] at heq
  exact h (i + 1) (j + 1) (by omega) (by omega) heq

/-- After the first store the rest of the string is still there. -/
theorem ReadAhead.rest {dest src : BitVec 32} {t : Traced} {c : BitVec 8} {s : List (BitVec 8)}
    (h : ReadAhead dest src (s.length + 1)) (hs : CString t.mem (src + 1#32) s) :
    CString (t.store dest c).mem (src + 1#32) s := by
  refine hs.congr fun i hi => Function.update_of_ne (fun heq => ?_) _ _
  rw [← add_ofNat_succ] at heq
  exact h 0 (i + 1) (by omega) (by omega) (by rw [heq]; simp)

end MaerOS.Lib
