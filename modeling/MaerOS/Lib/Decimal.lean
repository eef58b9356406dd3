import Mathlib.Data.Nat.Digits.Lemmas

/-!
# The decimal form of an integer

The characters of a number are those of its digits, the most significant one first;
zero has one digit. A negative number has a minus sign in front. `digitString` is
the part of it that a loop over `n % 10` and `n / 10` writes, which is empty for
zero.

`readDecimal` reads a number back, with or without leading zeros. The decimal form
is the one canonical string that is read as the number (`canonical_decimal`,
`readDecimal_decimal`, `eq_decimal_of_read`).
-/

set_option autoImplicit false

namespace MaerOS.Lib

/-- The character of a digit. -/
def digitChar (d : ℕ) : BitVec 8 := BitVec.ofNat 8 (0x30 + d)

/-- The characters of the digits of `n`; there is none for zero. -/
def digitString (n : ℕ) : List (BitVec 8) := (Nat.digits 10 n).reverse.map digitChar

/-- The decimal form. -/
def decimal (i : ℤ) : List (BitVec 8) :=
  (if i < 0 then [0x2d#8] else []) ++ if i = 0 then [digitChar 0] else digitString i.natAbs

@[simp] theorem digitString_zero : digitString 0 = [] := rfl

/-- The last digit comes off the end. -/
theorem digitString_pos {n : ℕ} (hn : 0 < n) :
    digitString n = digitString (n / 10) ++ [digitChar (n % 10)] := by
  unfold digitString
  rw [Nat.digits_def' (by norm_num) hn, List.reverse_cons, List.map_append]
  rfl

/-- A digit is not the terminator. -/
theorem digitChar_ne_zero {d : ℕ} (hd : d < 10) : digitChar d ≠ 0#8 := by
  unfold digitChar
  bv_omega

theorem zero_not_mem_digitString (n : ℕ) : 0#8 ∉ digitString n := by
  unfold digitString
  simp only [List.mem_map, List.mem_reverse, not_exists, not_and]
  intro d hd
  exact digitChar_ne_zero (Nat.digits_lt_base (by norm_num) hd)

/-- How many digits there are. -/
theorem length_digitString_le {n k : ℕ} (h : n < 10 ^ k) : (digitString n).length ≤ k := by
  unfold digitString
  rw [List.length_map, List.length_reverse]
  exact (Nat.digits_length_le_iff (by norm_num) n).mpr h

/-- The terminator is not a character of the decimal form. -/
theorem zero_not_mem_decimal (i : ℤ) : 0#8 ∉ decimal i := by
  unfold decimal
  rw [List.mem_append, not_or]
  constructor
  · split_ifs <;> simp
  · split_ifs
    · simpa using (digitChar_ne_zero (show 0 < 10 by omega)).symm
    · exact zero_not_mem_digitString _

/-- How many characters there are: the digits, and the sign. -/
theorem length_decimal_le {i : ℤ} {k : ℕ} (h : i.natAbs < 10 ^ k) : (decimal i).length ≤ k + 1 := by
  have hdigits := length_digitString_le h
  unfold decimal
  rw [List.length_append]
  split_ifs <;> simp <;> omega

/-! ## Reading a number back -/

/-- The value of a digit. -/
def digitValue (c : BitVec 8) : Option ℕ :=
  if 0x30 ≤ c.toNat ∧ c.toNat < 0x3a then some (c.toNat - 0x30) else none

/-- The number that a row of digits stands for. -/
def readDigits (t : List (BitVec 8)) : Option ℕ :=
  t.foldlM (fun n c => (digitValue c).map (10 * n + ·)) 0

/-- The number that a string stands for: digits, with a minus sign in front if it is negative. -/
def readDecimal : List (BitVec 8) → Option ℤ
  | [] => none
  | c :: t =>
    if c = 0x2d#8 then if t = [] then none else (readDigits t).map fun n : ℕ => -(n : ℤ)
    else (readDigits (c :: t)).map fun n : ℕ => (n : ℤ)

/-- Digits without a leading zero; zero itself has one digit. -/
structure CanonicalDigits (t : List (BitVec 8)) : Prop where
  nonempty : t ≠ []
  digits : ∀ c ∈ t, ∃ d < 10, c = digitChar d
  leading : t.head? = some (digitChar 0) → t = [digitChar 0]

/-- Canonical digits, or a minus sign and the canonical digits of a number that is not zero. -/
def CanonicalDecimal (t : List (BitVec 8)) : Prop :=
  CanonicalDigits t ∨ ∃ u, t = 0x2d#8 :: u ∧ CanonicalDigits u ∧ u ≠ [digitChar 0]

theorem digitValue_digitChar {d : ℕ} (hd : d < 10) : digitValue (digitChar d) = some d := by
  have hval : (digitChar d).toNat = 0x30 + d := by
    unfold digitChar
    rw [BitVec.toNat_ofNat]
    omega
  unfold digitValue
  rw [hval, if_pos (by omega)]
  congr 1
  omega

theorem digitChar_inj {d e : ℕ} (hd : d < 10) (he : e < 10) (h : digitChar d = digitChar e) :
    d = e := by
  have hval := congrArg digitValue h
  rw [digitValue_digitChar hd, digitValue_digitChar he] at hval
  exact Option.some.inj hval

/-- The minus sign is not a digit. -/
theorem digitChar_ne_minus {d : ℕ} (hd : d < 10) : digitChar d ≠ 0x2d#8 := by
  unfold digitChar
  bv_omega

/-- The characters of digits are read as the number with these digits. -/
theorem readDigits_digits {L : List ℕ} (hL : ∀ d ∈ L, d < 10) :
    readDigits (L.reverse.map digitChar) = some (Nat.ofDigits 10 L) := by
  induction L with
  | nil => rfl
  | cons d L ih =>
    have htail := ih fun e he => hL e (List.mem_cons_of_mem _ he)
    unfold readDigits at htail ⊢
    rw [List.reverse_cons, List.map_append, List.foldlM_append, htail]
    simp only [List.map_cons, List.map_nil, List.foldlM_cons, List.foldlM_nil]
    rw [digitValue_digitChar (hL d List.mem_cons_self), Nat.ofDigits_cons]
    simp [Nat.add_comm]

theorem readDigits_digitString (n : ℕ) : readDigits (digitString n) = some n := by
  have hread := readDigits_digits (L := Nat.digits 10 n)
    fun d hd => Nat.digits_lt_base (by norm_num) hd
  rwa [Nat.ofDigits_digits] at hread

/-- The characters of digits come from a list of digits, the least significant one first. -/
theorem exists_digits {t : List (BitVec 8)} (h : ∀ c ∈ t, ∃ d < 10, c = digitChar d) :
    ∃ L : List ℕ, (∀ d ∈ L, d < 10) ∧ t = L.reverse.map digitChar := by
  induction t using List.reverseRecOn with
  | nil => exact ⟨[], by simp, rfl⟩
  | append_singleton t c ih =>
    obtain ⟨L, hL, rfl⟩ := ih fun c' hc' => h c' (List.mem_append_left _ hc')
    obtain ⟨d, hd, rfl⟩ := h c (by simp)
    refine ⟨d :: L, by simpa using ⟨hd, hL⟩, ?_⟩
    rw [List.reverse_cons, List.map_append, List.map_singleton]

/-- Canonical digits are those of the number they are read as. -/
theorem CanonicalDigits.eq_of_read {t : List (BitVec 8)} (h : CanonicalDigits t) {n : ℕ}
    (hread : readDigits t = some n) :
    t = if n = 0 then [digitChar 0] else digitString n := by
  obtain ⟨L, hL, ht⟩ := exists_digits h.digits
  have hne : L ≠ [] := by
    rintro rfl
    exact h.nonempty ht
  rw [ht, readDigits_digits hL] at hread
  obtain rfl := Option.some.inj hread
  by_cases hzero : L.getLast hne = 0
  · -- the most significant digit is zero, so there is no other one
    have hhead : t.head? = some (digitChar 0) := by
      rw [ht, List.head?_map, List.head?_reverse, List.getLast?_eq_some_getLast hne, hzero]
      rfl
    have hone : L = [0] := by
      have hlen : L.length = 1 := by
        rw [← List.length_reverse, ← List.length_map (f := digitChar), ← ht, h.leading hhead]
        rfl
      obtain ⟨d, rfl⟩ := List.length_eq_one_iff.mp hlen
      rw [show d = 0 from hzero]
    rw [ht, hone]
    rfl
  · have hdigits : Nat.digits 10 (Nat.ofDigits 10 L) = L :=
      Nat.digits_ofDigits 10 (by norm_num) L hL fun _ => hzero
    have hpos : Nat.ofDigits 10 L ≠ 0 := by
      intro h0
      rw [h0, Nat.digits_zero] at hdigits
      exact hne hdigits.symm
    rw [if_neg hpos, digitString, hdigits, ht]

/-- The digits of the decimal form are canonical. -/
theorem canonical_digits (i : ℤ) :
    CanonicalDigits (if i = 0 then [digitChar 0] else digitString i.natAbs) := by
  split_ifs with hi
  · exact ⟨by simp, by simpa using ⟨0, by omega, rfl⟩, fun _ => rfl⟩
  have hn : i.natAbs ≠ 0 := by omega
  have hne : Nat.digits 10 i.natAbs ≠ [] := Nat.digits_ne_nil_iff_ne_zero.mpr hn
  have hlast : (Nat.digits 10 i.natAbs).getLast hne ≠ 0 := Nat.getLast_digit_ne_zero 10 hn
  have hlt : (Nat.digits 10 i.natAbs).getLast hne < 10 :=
    Nat.digits_lt_base (by norm_num) (List.getLast_mem hne)
  refine ⟨by simpa [digitString] using hne, fun c hc => ?_, fun hhead => ?_⟩
  · obtain ⟨d, hd, rfl⟩ := List.mem_map.mp hc
    exact ⟨d, Nat.digits_lt_base (by norm_num) (List.mem_reverse.mp hd), rfl⟩
  · rw [digitString, List.head?_map, List.head?_reverse, List.getLast?_eq_some_getLast hne] at hhead
    exact absurd (digitChar_inj hlt (by omega) (Option.some.inj hhead)) hlast

/-- They are read as the number without its sign. -/
theorem readDigits_natAbs (i : ℤ) :
    readDigits (if i = 0 then [digitChar 0] else digitString i.natAbs) = some i.natAbs := by
  split_ifs with hi
  · rw [hi]
    rfl
  · exact readDigits_digitString _

/-- The decimal form is canonical. -/
theorem canonical_decimal (i : ℤ) : CanonicalDecimal (decimal i) := by
  have hdigits := canonical_digits i
  have hread := readDigits_natAbs i
  unfold decimal
  by_cases hneg : i < 0
  · rw [if_pos hneg, List.singleton_append]
    refine .inr ⟨_, rfl, hdigits, fun heq => ?_⟩
    rw [heq, show readDigits [digitChar 0] = some 0 from rfl] at hread
    have := Option.some.inj hread
    omega
  · rw [if_neg hneg, List.nil_append]
    exact .inl hdigits

/-- There is a minus sign in front of negative numbers only. -/
theorem head_decimal_iff (i : ℤ) : (decimal i).head? = some 0x2d#8 ↔ i < 0 := by
  have hdigits := canonical_digits i
  unfold decimal
  by_cases hneg : i < 0
  · rw [if_pos hneg]
    exact iff_of_true rfl hneg
  · rw [if_neg hneg, List.nil_append]
    refine iff_of_false (fun hhead => ?_) hneg
    obtain ⟨d, hd, hd'⟩ := hdigits.digits _ (List.mem_of_head? hhead)
    exact digitChar_ne_minus hd hd'.symm

/-- A string without a minus sign in front is read as its digits. -/
theorem CanonicalDigits.readDecimal_eq {t : List (BitVec 8)} (h : CanonicalDigits t) :
    readDecimal t = (readDigits t).map fun n : ℕ => (n : ℤ) := by
  cases t with
  | nil => exact absurd rfl h.nonempty
  | cons c t =>
    obtain ⟨d, hd, rfl⟩ := h.digits c List.mem_cons_self
    exact if_neg (digitChar_ne_minus hd)

theorem readDecimal_minus {t : List (BitVec 8)} (ht : t ≠ []) :
    readDecimal (0x2d#8 :: t) = (readDigits t).map fun n : ℕ => -(n : ℤ) := by
  rw [readDecimal, if_pos rfl, if_neg ht]

/-- **The decimal form** is read as the number. -/
theorem readDecimal_decimal (i : ℤ) : readDecimal (decimal i) = some i := by
  have hdigits := canonical_digits i
  have hread := readDigits_natAbs i
  unfold decimal
  by_cases hneg : i < 0
  · rw [if_pos hneg, List.singleton_append, readDecimal_minus hdigits.nonempty, hread]
    exact congrArg some (by dsimp only; omega)
  · rw [if_neg hneg, List.nil_append, hdigits.readDecimal_eq, hread]
    exact congrArg some (by dsimp only; omega)

/-- **There is no other** canonical string that is read as the number. -/
theorem CanonicalDecimal.eq_decimal {t : List (BitVec 8)} (h : CanonicalDecimal t) {i : ℤ}
    (hread : readDecimal t = some i) : t = decimal i := by
  unfold decimal
  rcases h with h | ⟨u, rfl, h, hu⟩
  · rw [h.readDecimal_eq] at hread
    obtain ⟨n, hn, rfl⟩ := Option.map_eq_some_iff.mp hread
    rw [if_neg (by omega), List.nil_append]
    simpa using h.eq_of_read hn
  · rw [readDecimal_minus h.nonempty] at hread
    obtain ⟨n, hn, rfl⟩ := Option.map_eq_some_iff.mp hread
    have heq := h.eq_of_read hn
    have hpos : n ≠ 0 := by
      rintro rfl
      exact hu heq
    rw [if_neg hpos] at heq
    rw [if_pos (by omega), if_neg (by omega), Int.natAbs_neg, Int.natAbs_natCast, heq]
    rfl

end MaerOS.Lib
