import Mathlib.Data.Nat.Bits
import Mathlib.Tactic.Ring
import Mathlib.Tactic.IntervalCases

/-!
# Byte memory with 32-bit little-endian words, and pages

A memory is a function from 32-bit addresses to bytes. `load32` and `store32` are
the little-endian word accesses of the machine; `load32_store32_of_ne` is the
usual read-over-write fact for aligned words. `zeroFill` is `memset(p, 0, n)`.

A page is 4096 bytes, aligned. The second half of the file is the arithmetic of
an address word that carries flags in its low twelve bits: `aligned ||| flags`,
and the masks `0xfffff000` and `0xfff` that take it apart again.
-/

set_option autoImplicit false

namespace MaerOS.Lib

/-- Bytes by address. -/
abbrev Memory := BitVec 32 → BitVec 8

/-- The word whose least significant byte is at `a`. -/
def load32 (m : Memory) (a : BitVec 32) : BitVec 32 :=
  m (a + 3#32) ++ m (a + 2#32) ++ m (a + 1#32) ++ m a

/-- Store a word, least significant byte first. -/
def store32 (m : Memory) (a v : BitVec 32) : Memory := fun x =>
  if x = a then v.extractLsb' 0 8
  else if x = a + 1#32 then v.extractLsb' 8 8
  else if x = a + 2#32 then v.extractLsb' 16 8
  else if x = a + 3#32 then v.extractLsb' 24 8
  else m x

/-- The half word whose least significant byte is at `a`. -/
def load16 (m : Memory) (a : BitVec 32) : BitVec 16 := m (a + 1#32) ++ m a

/-- Store bytes from `a` on. -/
def storeBytes (m : Memory) (a : BitVec 32) (bytes : List (BitVec 8)) : Memory := fun x =>
  bytes.getD (x - a).toNat (m x)

/-- Store a half word, least significant byte first. -/
def store16 (m : Memory) (a : BitVec 32) (v : BitVec 16) : Memory :=
  storeBytes m a [v.extractLsb' 0 8, v.extractLsb' 8 8]

/-- Set `n` bytes from `a` on to zero. -/
def zeroFill (m : Memory) (a : BitVec 32) (n : ℕ) : Memory := fun x =>
  if (x - a).toNat < n then 0#8 else m x

/-- The page number of an address. -/
def pageOf (a : BitVec 32) : ℕ := a.toNat / 4096

/-- The address is the start of a page. -/
def PageAligned (a : BitVec 32) : Prop := a.toNat % 4096 = 0

instance (a : BitVec 32) : Decidable (PageAligned a) := inferInstanceAs (Decidable (_ = _))

/-- The two memories hold the same bytes in page `p`. -/
def AgreeOnPage (m m' : Memory) (p : ℕ) : Prop := ∀ x, pageOf x = p → m' x = m x

/-! ## Words -/

/-- A word is the concatenation of its four bytes. -/
theorem append_bytes (v : BitVec 32) :
    v.extractLsb' 24 8 ++ v.extractLsb' 16 8 ++ v.extractLsb' 8 8 ++ v.extractLsb' 0 8 = v := by
  apply BitVec.eq_of_getLsbD_eq
  intro i hi
  simp only [BitVec.getLsbD_append, BitVec.getLsbD_extractLsb']
  interval_cases i <;> simp

/-- Reading back the word just stored. -/
@[simp] theorem load32_store32_self (m : Memory) (a v : BitVec 32) :
    load32 (store32 m a v) a = v := by
  have h1 : a + 1#32 ≠ a := by bv_omega
  have h2 : a + 2#32 ≠ a := by bv_omega
  have h3 : a + 3#32 ≠ a := by bv_omega
  have h21 : a + 2#32 ≠ a + 1#32 := by bv_omega
  have h31 : a + 3#32 ≠ a + 1#32 := by bv_omega
  have h32 : a + 3#32 ≠ a + 2#32 := by bv_omega
  unfold load32 store32
  simp only [h1, h2, h3, h21, h31, h32, if_true, if_false]
  exact append_bytes v

/-- A store only changes the four bytes of its word. -/
theorem store32_of_far {m : Memory} {a v x : BitVec 32} (h : 4 ≤ (x - a).toNat) :
    store32 m a v x = m x := by
  unfold store32
  rw [if_neg (by bv_omega), if_neg (by bv_omega), if_neg (by bv_omega), if_neg (by bv_omega)]

/-- A byte of a word read from memory. -/
theorem load32_extract (m : Memory) (a : BitVec 32) {i : ℕ} (hi : i < 4) :
    (load32 m a).extractLsb' (8 * i) 8 = m (a + BitVec.ofNat 32 i) := by
  apply BitVec.eq_of_getLsbD_eq
  intro j hj
  unfold load32
  simp only [BitVec.getLsbD_extractLsb', BitVec.getLsbD_append, hj, decide_true, Bool.true_and]
  interval_cases i
  · simp [hj]
  · simp [hj]
  · rw [if_neg (by omega), if_neg (by omega), if_pos (by omega)]
    congr 1
    omega
  · rw [if_neg (by omega), if_neg (by omega), if_neg (by omega)]
    congr 1
    omega

/-- A byte of a word just stored. -/
theorem store32_extract (m : Memory) (a v : BitVec 32) {i : ℕ} (hi : i < 4) :
    store32 m a v (a + BitVec.ofNat 32 i) = v.extractLsb' (8 * i) 8 := by
  rw [← load32_extract (store32 m a v) a hi, load32_store32_self]

/-- The bytes of a word are those of the memory it was read from. -/
theorem store32_load32 (m m' : Memory) {a x : BitVec 32} (h : (x - a).toNat < 4) :
    store32 m a (load32 m' a) x = m' x := by
  have hx : x = a + BitVec.ofNat 32 (x - a).toNat := by
    rw [BitVec.ofNat_toNat, BitVec.setWidth_eq]
    bv_omega
  rw [hx, store32_extract m a _ h, load32_extract m' a h]

/-- Aligned words at different addresses do not overlap. -/
theorem load32_store32_of_ne {m : Memory} {a b v : BitVec 32} (ha : a.toNat % 4 = 0)
    (hb : b.toNat % 4 = 0) (hne : a ≠ b) : load32 (store32 m a v) b = load32 m b := by
  have hd : (b - a).toNat % 4 = 0 ∧ (b - a).toNat ≠ 0 := by
    constructor
    · rw [BitVec.toNat_sub]
      omega
    · intro h
      exact hne (by bv_omega)
  unfold load32
  rw [store32_of_far (x := b), store32_of_far (x := b + 1#32), store32_of_far (x := b + 2#32),
    store32_of_far (x := b + 3#32)]
  · rw [show b + 3#32 - a = b - a + 3#32 from by bv_omega, BitVec.toNat_add]
    have := (b - a).isLt
    simp only [BitVec.toNat_ofNat]
    omega
  · rw [show b + 2#32 - a = b - a + 2#32 from by bv_omega, BitVec.toNat_add]
    have := (b - a).isLt
    simp only [BitVec.toNat_ofNat]
    omega
  · rw [show b + 1#32 - a = b - a + 1#32 from by bv_omega, BitVec.toNat_add]
    have := (b - a).isLt
    simp only [BitVec.toNat_ofNat]
    omega
  · omega

/-- A word is determined by its four bytes. -/
theorem load32_congr {m m' : Memory} {a : BitVec 32} (h0 : m' a = m a)
    (h1 : m' (a + 1#32) = m (a + 1#32)) (h2 : m' (a + 2#32) = m (a + 2#32))
    (h3 : m' (a + 3#32) = m (a + 3#32)) : load32 m' a = load32 m a := by
  unfold load32
  rw [h0, h1, h2, h3]

/-! ## Pages -/

/-- The `i`-th word of a page. -/
def wordAt (p : BitVec 32) (i : ℕ) : BitVec 32 := p + BitVec.ofNat 32 (4 * i)

/-- The address of a word of a page. -/
theorem wordAt_toNat {p : BitVec 32} (hp : PageAligned p) {i : ℕ} (hi : i < 1024) :
    (wordAt p i).toNat = p.toNat + 4 * i := by
  unfold PageAligned at hp
  have := p.isLt
  unfold wordAt
  rw [BitVec.toNat_add, BitVec.toNat_ofNat]
  omega

/-- A word of a page lies in that page. -/
theorem pageOf_wordAt {p : BitVec 32} (hp : PageAligned p) {i : ℕ} (hi : i < 1024) :
    pageOf (wordAt p i) = pageOf p := by
  unfold pageOf
  rw [wordAt_toNat hp hi]
  unfold PageAligned at hp
  omega

/-- A word of a page is word-aligned. -/
theorem wordAt_mod {p : BitVec 32} (hp : PageAligned p) {i : ℕ} (hi : i < 1024) :
    (wordAt p i).toNat % 4 = 0 := by
  rw [wordAt_toNat hp hi]
  unfold PageAligned at hp
  omega

/-- Aligned addresses of the same page are equal. -/
theorem eq_of_pageOf_eq {p q : BitVec 32} (hp : PageAligned p) (hq : PageAligned q)
    (h : pageOf p = pageOf q) : p = q := by
  apply BitVec.eq_of_toNat_eq
  unfold PageAligned at hp hq
  unfold pageOf at h
  omega

/-- Words of pages are equal only if both the pages and the indices are. -/
theorem wordAt_inj {p q : BitVec 32} (hp : PageAligned p) (hq : PageAligned q) {i j : ℕ}
    (hi : i < 1024) (hj : j < 1024) (h : wordAt p i = wordAt q j) : p = q ∧ i = j := by
  have hpq : p = q := eq_of_pageOf_eq hp hq (by
    rw [← pageOf_wordAt hp hi, ← pageOf_wordAt hq hj, h])
  subst hpq
  have := congrArg BitVec.toNat h
  rw [wordAt_toNat hp hi, wordAt_toNat hp hj] at this
  exact ⟨rfl, by omega⟩

/-- The four bytes of a word of a page lie in that page. -/
theorem pageOf_wordAt_add {p : BitVec 32} (hp : PageAligned p) {i k : ℕ} (hi : i < 1024)
    (hk : k < 4) : pageOf (wordAt p i + BitVec.ofNat 32 k) = pageOf p := by
  unfold pageOf
  have := p.isLt
  rw [BitVec.toNat_add, wordAt_toNat hp hi, BitVec.toNat_ofNat]
  unfold PageAligned at hp
  omega

/-- Memories that agree on a page agree on its words. -/
theorem AgreeOnPage.load32 {m m' : Memory} {p : BitVec 32} (h : AgreeOnPage m m' (pageOf p))
    (hp : PageAligned p) {i : ℕ} (hi : i < 1024) :
    Lib.load32 m' (wordAt p i) = Lib.load32 m (wordAt p i) :=
  load32_congr (h _ (pageOf_wordAt hp hi)) (h _ (pageOf_wordAt_add hp hi (by omega)))
    (h _ (pageOf_wordAt_add hp hi (by omega))) (h _ (pageOf_wordAt_add hp hi (by omega)))

/-- A store to a word of a page changes no other page. -/
theorem agreeOnPage_store32 {m : Memory} {p : BitVec 32} (hp : PageAligned p) {i : ℕ}
    (hi : i < 1024) (v : BitVec 32) {q : ℕ} (hq : q ≠ pageOf p) :
    AgreeOnPage m (store32 m (wordAt p i) v) q := by
  intro x hx
  apply store32_of_far
  by_contra hlt
  have hk : (x - wordAt p i).toNat < 4 := by omega
  have hxeq : x = wordAt p i + BitVec.ofNat 32 (x - wordAt p i).toNat := by
    rw [BitVec.ofNat_toNat, BitVec.setWidth_eq]
    bv_omega
  rw [hxeq, pageOf_wordAt_add hp hi hk] at hx
  exact hq hx.symm

/-- Filling memory that does not meet page `q` leaves the page alone. -/
theorem agreeOnPage_zeroFill {m : Memory} {a : BitVec 32} {n q : ℕ}
    (h : ∀ x, (x - a).toNat < n → pageOf x ≠ q) : AgreeOnPage m (zeroFill m a n) q := by
  intro x hx
  unfold zeroFill
  rw [if_neg fun hlt => h x hlt hx]

/-! ## Address words with flags -/

/-- Masking with `0xfffff000` rounds down to a page boundary. -/
theorem and_mask_toNat (x : BitVec 32) : (x &&& 0xfffff000#32).toNat = x.toNat / 4096 * 4096 := by
  have h : x &&& 0xfffff000#32 = (x >>> 12) <<< 12 := by
    apply BitVec.eq_of_getLsbD_eq
    intro i hi
    simp only [BitVec.getLsbD_and, BitVec.getLsbD_shiftLeft, BitVec.getLsbD_ushiftRight]
    interval_cases i <;> simp
  have := x.isLt
  rw [h, BitVec.toNat_shiftLeft, BitVec.toNat_ushiftRight, Nat.shiftRight_eq_div_pow,
    Nat.shiftLeft_eq]
  omega

/-- Masking with `0xfff` keeps the offset in the page. -/
theorem and_low_toNat (x : BitVec 32) : (x &&& 0xfff#32).toNat = x.toNat % 4096 := by
  rw [BitVec.toNat_and]
  exact Nat.and_two_pow_sub_one_eq_mod x.toNat 12

/-- Flags below 4096 added to an aligned address stay in the low bits. -/
theorem or_flags_toNat {p f : BitVec 32} (hp : PageAligned p) (hf : f.toNat < 4096) :
    (p ||| f).toNat = p.toNat + f.toNat := by
  unfold PageAligned at hp
  rw [BitVec.toNat_or]
  have hdiv : p.toNat = 2 ^ 12 * (p.toNat / 4096) := by omega
  rw [hdiv, ← Nat.two_pow_add_eq_or_of_lt (show f.toNat < 2 ^ 12 from hf)]

/-- The address can be recovered from an address word with flags. -/
theorem or_flags_and_mask {p f : BitVec 32} (hp : PageAligned p) (hf : f.toNat < 4096) :
    (p ||| f) &&& 0xfffff000#32 = p := by
  apply BitVec.eq_of_toNat_eq
  rw [and_mask_toNat, or_flags_toNat hp hf]
  unfold PageAligned at hp
  omega

/-- So can the flags. -/
theorem or_flags_and_low {p f : BitVec 32} (hp : PageAligned p) (hf : f.toNat < 4096) :
    (p ||| f) &&& 0xfff#32 = f := by
  apply BitVec.eq_of_toNat_eq
  rw [and_low_toNat, or_flags_toNat hp hf]
  unfold PageAligned at hp
  omega

end MaerOS.Lib
