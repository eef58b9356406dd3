import MaerOS.Lib.Decimal
import MaerOS.Model.Stdlib

/-!
# `itoa`

The digits are written from the end of the static array towards its start, the sign
last. `Itoa.Holds` says what stands between `loc` and the terminator; a push puts
one character in front of it. The loop works on the negative of the number, which
an `int` always has, so no step overflows: `itoaChecked`, which checks every operation
and every index, has an outcome for every `int` (`itoaChecked_spec`), and it is that
of `itoa` (`itoa_of_checked`).
-/

set_option autoImplicit false

namespace MaerOS.Analysis

open MaerOS.Lib MaerOS.Model

/-- The characters `t` stand in the array from `loc` on, with the terminator behind them, and all
stores were to the array. -/
structure ItoaHolds (s : Itoa) (t : List (BitVec 8)) : Prop where
  loc_eq : s.loc = 11 - t.length
  text_at : ∀ (j : ℕ) (c : BitVec 8), t[j]? = some c → s.text (s.loc + j) = c
  terminator : s.text 11 = 0#8
  written : ∀ i ∈ s.written, 11 - (t.length : ℤ) ≤ i ∧ i < 12

theorem ItoaHolds.push {s : Itoa} {t : List (BitVec 8)} (h : ItoaHolds s t) (c : BitVec 8) :
    ItoaHolds (s.push c) (c :: t) := by
  have hloc := h.loc_eq
  unfold Itoa.push
  refine ⟨?_, fun j c' hj => ?_, ?_, fun i hi => ?_⟩
  · rw [List.length_cons]
    push_cast
    omega
  · dsimp only
    cases j with
    | zero => simpa using hj
    | succ j =>
      rw [Function.update_of_ne (by omega)]
      have := h.text_at j c' (by simpa using hj)
      rwa [show s.loc - 1 + ((j + 1 : ℕ) : ℤ) = s.loc + j from by omega]
  · dsimp only
    rw [Function.update_of_ne (by omega)]
    exact h.terminator
  · rw [List.length_cons]
    push_cast
    rcases List.mem_cons.mp hi with rfl | hi
    · omega
    · have := h.written i hi
      omega

/-- The string that starts at `loc`. -/
theorem ItoaHolds.string {s : Itoa} {t : List (BitVec 8)} (h : ItoaHolds s t) (hz : 0#8 ∉ t)
    (hlen : t.length ≤ 11) : s.string = t := by
  have hloc := h.loc_eq
  have hsplit : List.range 12 = List.range t.length ++
      t.length :: (List.range (11 - t.length)).map (t.length + 1 + ·) := by
    rw [show 12 = t.length + (1 + (11 - t.length)) from by omega, List.range_add, List.range_add]
    simp [Function.comp_def, Nat.add_assoc]
  have hfirst : (List.range t.length).map (fun k : ℕ => s.text (s.loc + k)) = t := by
    refine List.ext_getElem (by simp) fun j hj hj' => ?_
    rw [List.getElem_map, List.getElem_range]
    exact h.text_at j _ (List.getElem?_eq_getElem hj')
  have hend : s.text (s.loc + t.length) = 0#8 := by
    rw [show s.loc + (t.length : ℤ) = 11 from by omega]
    exact h.terminator
  unfold Itoa.string
  rw [hsplit, List.map_append, hfirst, List.map_cons, List.takeWhile_append_of_pos,
    List.takeWhile_cons_of_neg (by simp [hend]), List.append_nil]
  intro c hc
  simp only [decide_eq_true_eq]
  rintro rfl
  exact hz hc

/-- With room in front, the checked push is the push. -/
theorem ItoaHolds.pushChecked {s : Itoa} {t : List (BitVec 8)} (h : ItoaHolds s t)
    (hlen : t.length ≤ 10) (c : BitVec 8) : s.pushChecked c = some (s.push c) := by
  have hloc := h.loc_eq
  exact if_pos (by omega)

theorem intValue_eq {x : ℤ} (h : -2 ^ 31 ≤ x) (h' : x < 2 ^ 31) : intValue x = some x :=
  if_pos ⟨h, h'⟩

/-- **The loop** puts the digits of a number in front of what is there. The number is kept with the
sign reversed, and is divided by ten in each round. -/
theorem itoaLoopChecked_spec (n : ℕ) {fuel m : ℕ} {s : Itoa} {t : List (BitVec 8)}
    (hfuel : n < fuel) (hm : m < 10 ^ n) (hint : m ≤ 2 ^ 31) (hroom : n + t.length ≤ 11)
    (h : ItoaHolds s t) :
    ∃ s', itoaLoopChecked fuel (-m) s = some s' ∧ ItoaHolds s' (digitString m ++ t) := by
  induction n generalizing fuel m s t with
  | zero =>
    obtain rfl : m = 0 := by simpa using hm
    obtain ⟨fuel, rfl⟩ := Nat.exists_eq_add_of_lt hfuel
    rw [Nat.zero_add]
    exact ⟨s, rfl, h⟩
  | succ n ih =>
    obtain ⟨fuel, rfl⟩ : ∃ f, fuel = f + 1 := ⟨fuel - 1, by omega⟩
    unfold itoaLoopChecked
    by_cases hzero : m = 0
    · subst hzero
      exact ⟨s, rfl, h⟩
    have htmod : (-(m : ℤ)).tmod 10 = -((m % 10 : ℕ) : ℤ) := by
      rw [Int.neg_tmod]
      rfl
    have htdiv : (-(m : ℤ)).tdiv 10 = -((m / 10 : ℕ) : ℤ) := by
      rw [Int.neg_tdiv]
      rfl
    have hdigit : (0x30 - -((m % 10 : ℕ) : ℤ)) = 0x30 + ((m % 10 : ℕ) : ℤ) := by omega
    have hchar : BitVec.ofInt 8 (0x30 + ((m % 10 : ℕ) : ℤ)) = digitChar (m % 10) := by
      unfold digitChar
      rw [← BitVec.ofInt_natCast]
      rfl
    obtain ⟨s', hloop, hs'⟩ := @ih fuel (m / 10) (s.push (digitChar (m % 10)))
      (digitChar (m % 10) :: t) (by omega) (by rw [pow_succ] at hm; omega) (by omega)
      (by rw [List.length_cons]; omega) (h.push _)
    refine ⟨s', ?_, ?_⟩
    · rw [if_neg (by omega), htmod, htdiv]
      simp only [Option.bind_eq_bind]
      rw [intValue_eq (by omega) (by omega), Option.bind_some, hdigit,
        intValue_eq (by omega) (by omega), Option.bind_some, hchar, h.pushChecked (by omega),
        Option.bind_some, intValue_eq (by omega) (by omega), Option.bind_some]
      exact hloop
    · rw [digitString_pos (by omega), List.append_assoc]
      exact hs'

/-- **Every operation of `itoa`** has a value and every store is to its array; what stands there is
the decimal form. -/
theorem itoaChecked_spec (text : ℤ → BitVec 8) (i : BitVec 32) :
    ∃ s, itoaChecked text i = some s ∧ ItoaHolds s (decimal i.toInt) := by
  have hlow := i.le_toInt
  have hhigh := i.toInt_lt
  have hstart : ItoaHolds { text := Function.update text 11 0#8, loc := 11, written := [11] } [] :=
    ⟨rfl, by simp, by simp, by simp⟩
  have hneg : (if i.toInt ≥ 0 then intValue (-i.toInt) else some i.toInt) =
      some (-(i.toInt.natAbs : ℤ)) := by
    split
    · rw [intValue_eq (by omega) (by omega)]
      congr 1
      omega
    · congr 1
      omega
  have hsize : i.toInt.natAbs < 10 ^ 10 := by omega
  obtain ⟨s', hloop, hs'⟩ := @itoaLoopChecked_spec 10 32 _ _ _ (by omega) hsize (by omega)
    (by simp) hstart
  rw [List.append_nil] at hs'
  have hloc := hs'.loc_eq
  -- the digits, or the one digit of zero
  obtain ⟨s₁, hs₁, hdigits⟩ : ∃ s₁,
      (if s'.loc = 11 then s'.pushChecked 0x30#8 else some s') = some s₁ ∧
      ItoaHolds s₁ (if i.toInt = 0 then [digitChar 0] else digitString i.toInt.natAbs) := by
    by_cases hzero : i.toInt = 0
    · rw [hzero] at hloc hs'
      rw [if_pos hzero, if_pos (by simpa using hloc), hs'.pushChecked (by simp)]
      exact ⟨_, rfl, hs'.push _⟩
    · have hpos : 0 < (digitString i.toInt.natAbs).length := by
        rw [digitString_pos (by omega)]
        simp
      rw [if_neg hzero, if_neg (by omega)]
      exact ⟨_, rfl, hs'⟩
  have hlen : (if i.toInt = 0 then [digitChar 0] else digitString i.toInt.natAbs).length ≤ 10 := by
    split_ifs
    · simp
    · exact length_digitString_le hsize
  unfold itoaChecked
  simp only [hneg, Option.bind_eq_bind, Option.bind_some, hloop, hs₁, decide_eq_true_eq]
  unfold decimal
  by_cases hsign : i.toInt < 0
  · rw [if_pos hsign, if_pos hsign, hdigits.pushChecked hlen, List.singleton_append]
    exact ⟨_, rfl, hdigits.push _⟩
  · rw [if_neg hsign, if_neg hsign]
    exact ⟨_, rfl, hdigits⟩

/-! ## The checks make no difference -/

theorem pushChecked_some {s s' : Itoa} {c : BitVec 8} (h : s.pushChecked c = some s') :
    s' = s.push c := by
  unfold Itoa.pushChecked at h
  split_ifs at h
  exact (Option.some.inj h).symm

theorem intValue_some {x y : ℤ} (h : intValue x = some y) : y = x := by
  unfold intValue at h
  split_ifs at h
  exact (Option.some.inj h).symm

theorem itoaLoop_of_checked {n : ℕ} {i : ℤ} {s s' : Itoa} (h : itoaLoopChecked n i s = some s') :
    itoaLoop n i s = some s' := by
  induction n generalizing i s with
  | zero => exact h
  | succ n ih =>
    unfold itoaLoopChecked at h
    unfold itoaLoop
    by_cases hzero : i = 0
    · rw [if_pos hzero] at h ⊢
      exact h
    rw [if_neg hzero] at h ⊢
    obtain ⟨rest, hrest, h⟩ := Option.bind_eq_some_iff.mp h
    obtain ⟨digit, hdigit, h⟩ := Option.bind_eq_some_iff.mp h
    obtain ⟨s₁, hpush, h⟩ := Option.bind_eq_some_iff.mp h
    obtain ⟨i', hi', h⟩ := Option.bind_eq_some_iff.mp h
    obtain rfl := intValue_some hrest
    obtain rfl := intValue_some hi'
    obtain rfl := pushChecked_some hpush
    rw [hdigit, Option.bind_eq_bind, Option.bind_some]
    exact ih h

/-- Where the checked `itoa` has an outcome, it is that of `itoa`. -/
theorem itoa_of_checked {text : ℤ → BitVec 8} {i : BitVec 32} {s : Itoa}
    (h : itoaChecked text i = some s) : itoa text i = some s := by
  unfold itoaChecked at h
  unfold itoa
  obtain ⟨i', hi', h⟩ := Option.bind_eq_some_iff.mp h
  obtain ⟨s₁, hloop, h⟩ := Option.bind_eq_some_iff.mp h
  obtain ⟨s₂, hzero, h⟩ := Option.bind_eq_some_iff.mp h
  have hs₂ : s₂ = if s₁.loc = 11 then s₁.push 0x30#8 else s₁ := by
    split_ifs at hzero ⊢
    · exact pushChecked_some hzero
    · exact (Option.some.inj hzero).symm
  have hs : s = if decide (i.toInt < 0) = true then s₂.push 0x2d#8 else s₂ := by
    split_ifs at h ⊢
    · exact pushChecked_some h
    · exact (Option.some.inj h).symm
  simp only [hi', Option.bind_eq_bind, Option.bind_some, itoaLoop_of_checked hloop, ← hs₂, ← hs]

/-! ## What `itoa` returns -/

/-- An `int` has at most ten digits and a sign. -/
theorem length_decimal_toInt (i : BitVec 32) : (decimal i.toInt).length ≤ 11 := by
  have hlow := i.le_toInt
  have hhigh := i.toInt_lt
  exact length_decimal_le (k := 10) (by omega)

/-- **`itoa`** returns the decimal form of every `int`, and stores to its array only. -/
theorem itoa_spec (text : ℤ → BitVec 8) (i : BitVec 32) :
    ∃ s, itoa text i = some s ∧ s.string = decimal i.toInt ∧ ∀ j ∈ s.written, 0 ≤ j ∧ j < 12 := by
  obtain ⟨s, hs, hholds⟩ := itoaChecked_spec text i
  have hlen := length_decimal_toInt i
  refine ⟨s, itoa_of_checked hs, hholds.string (zero_not_mem_decimal _) hlen, fun j hj => ?_⟩
  have := hholds.written j hj
  omega

/-- The string that `itoa` returns is `t`: from `loc` on, with the terminator still in the array. -/
structure ItoaReturns (s : Itoa) (t : List (BitVec 8)) : Prop where
  inside : 0 ≤ s.loc ∧ s.loc + t.length < 12
  text_at : ∀ (j : ℕ) (c : BitVec 8), t[j]? = some c → s.text (s.loc + j) = c
  nonzero : 0#8 ∉ t
  terminator : s.text (s.loc + t.length) = 0#8

/-- **`itoa` is exact on all `int`s**: it ends, no operation overflows and every store is to the
array, so that the checks change nothing; it returns the one canonical decimal string that is read
as the number. -/
theorem itoa_exact (text : ℤ → BitVec 8) (i : BitVec 32) :
    ∃ s t, itoaChecked text i = some s ∧ itoa text i = some s ∧
      (∀ j ∈ s.written, 0 ≤ j ∧ j < 12) ∧ ItoaReturns s t ∧
      CanonicalDecimal t ∧ (t.head? = some 0x2d#8 ↔ i.toInt < 0) ∧
      readDecimal t = some i.toInt ∧
      ∀ u, CanonicalDecimal u → readDecimal u = some i.toInt → u = t := by
  obtain ⟨s, hs, hholds⟩ := itoaChecked_spec text i
  have hlen := length_decimal_toInt i
  have hloc := hholds.loc_eq
  refine ⟨s, decimal i.toInt, hs, itoa_of_checked hs, fun j hj => ?_, ?_, canonical_decimal _,
    head_decimal_iff _, readDecimal_decimal _, fun u hu hread => hu.eq_decimal hread⟩
  · have := hholds.written j hj
    omega
  · refine ⟨by omega, hholds.text_at, zero_not_mem_decimal _, ?_⟩
    rw [show s.loc + ((decimal i.toInt).length : ℤ) = 11 from by omega]
    exact hholds.terminator

end MaerOS.Analysis
