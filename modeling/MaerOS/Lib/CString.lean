import MaerOS.Lib.Memory
import Mathlib.Data.List.GetD

/-!
# Strings in memory, and the words of a string

`CString m a s` says that the memory `m` holds the bytes `s` from `a` on, none of
them zero, and a zero behind them. `words p l` are the maximal runs of `l` without
a separator; `words_sep`, `words_end` and `words_next` are the three cases a
scanner meets.
-/

set_option autoImplicit false

namespace MaerOS.Lib

/-! ## Strings in memory -/

/-- The bytes `s`, none of them zero, and a zero behind them. -/
def CString (m : Memory) : BitVec 32 → List (BitVec 8) → Prop
  | a, [] => m a = 0#8
  | a, c :: s => m a = c ∧ c ≠ 0#8 ∧ CString m (a + 1#32) s

/-- The address `i + 1` bytes further. -/
theorem add_ofNat_succ (a : BitVec 32) (i : ℕ) :
    a + BitVec.ofNat 32 (i + 1) = a + 1#32 + BitVec.ofNat 32 i := by
  rw [Nat.add_comm, BitVec.ofNat_add, BitVec.add_assoc]

/-- The address `i + j` bytes further. -/
theorem add_ofNat_add (a : BitVec 32) (i j : ℕ) :
    a + BitVec.ofNat 32 (i + j) = a + BitVec.ofNat 32 i + BitVec.ofNat 32 j := by
  rw [BitVec.ofNat_add, BitVec.add_assoc]

/-- How far apart two such addresses are. -/
theorem add_ofNat_sub (a : BitVec 32) {i : ℕ} (hi : i < 2 ^ 32) :
    (a + BitVec.ofNat 32 i - a).toNat = i := by
  rw [show a + BitVec.ofNat 32 i - a = BitVec.ofNat 32 i from by bv_omega, BitVec.toNat_ofNat]
  exact Nat.mod_eq_of_lt hi

/-- Offsets within the address space lead to different addresses. -/
theorem add_ofNat_ne (a : BitVec 32) {i j : ℕ} (hi : i < 2 ^ 32) (hj : j < 2 ^ 32) (hij : i ≠ j) :
    a + BitVec.ofNat 32 i ≠ a + BitVec.ofNat 32 j := by
  intro heq
  apply hij
  rw [← add_ofNat_sub a hi, heq, add_ofNat_sub a hj]

section CString

variable {m m' : Memory} {a : BitVec 32}

/-- The empty string. -/
theorem cstring_nil : CString m a [] ↔ m a = 0#8 := Iff.rfl

/-- A string is determined by the bytes it occupies. -/
theorem CString.congr {s : List (BitVec 8)} (h : CString m a s)
    (heq : ∀ i ≤ s.length, m' (a + BitVec.ofNat 32 i) = m (a + BitVec.ofNat 32 i)) :
    CString m' a s := by
  induction s generalizing a with
  | nil =>
    have h0 := heq 0 le_rfl
    rw [show a + BitVec.ofNat 32 0 = a from by simp] at h0
    exact h0.trans h
  | cons c s ih =>
    have h0 := heq 0 (Nat.zero_le _)
    rw [show a + BitVec.ofNat 32 0 = a from by simp] at h0
    refine ⟨h0.trans h.1, h.2.1, ih h.2.2 fun i hi => ?_⟩
    rw [← add_ofNat_succ]
    exact heq (i + 1) (Nat.succ_le_succ hi)

/-- There is one string at an address at most. -/
theorem CString.unique {s t : List (BitVec 8)} (h : CString m a s) (h' : CString m a t) : s = t := by
  induction s generalizing a t with
  | nil =>
    cases t with
    | nil => rfl
    | cons c t => exact absurd (h'.1.symm.trans (cstring_nil.mp h)) h'.2.1
  | cons c s ih =>
    cases t with
    | nil => exact absurd (h.1.symm.trans (cstring_nil.mp h')) h.2.1
    | cons d t =>
      obtain rfl : c = d := h.1.symm.trans h'.1
      rw [ih h.2.2 h'.2.2]

/-- No byte of a string is zero. -/
theorem CString.not_mem {s : List (BitVec 8)} (h : CString m a s) : 0#8 ∉ s := by
  induction s generalizing a with
  | nil => simp
  | cons c s ih =>
    simp only [List.mem_cons, not_or]
    exact ⟨h.2.1.symm, ih h.2.2⟩

/-- The rest of a string is a string. -/
theorem CString.suffix {s t : List (BitVec 8)} (h : CString m a (s ++ t)) :
    CString m (a + BitVec.ofNat 32 s.length) t := by
  induction s generalizing a with
  | nil => simpa using h
  | cons c s ih =>
    rw [List.length_cons, add_ofNat_succ]
    exact ih h.2.2

/-- A byte of a string. -/
theorem CString.byte {s : List (BitVec 8)} (h : CString m a s) {i : ℕ} {c : BitVec 8}
    (hi : s[i]? = some c) : m (a + BitVec.ofNat 32 i) = c ∧ c ≠ 0#8 := by
  induction s generalizing a i with
  | nil => simp at hi
  | cons d s ih =>
    cases i with
    | zero =>
      obtain rfl : d = c := by simpa using hi
      rw [show a + BitVec.ofNat 32 0 = a from by simp]
      exact ⟨h.1, h.2.1⟩
    | succ i =>
      rw [add_ofNat_succ]
      exact ih h.2.2 (by simpa using hi)

/-- The byte behind a string. -/
theorem CString.terminator {s : List (BitVec 8)} (h : CString m a s) :
    m (a + BitVec.ofNat 32 s.length) = 0#8 := by
  have hrest := CString.suffix (t := []) (by rwa [List.append_nil] : CString m a (s ++ []))
  exact hrest

/-- A string does not go through the whole address space. -/
theorem CString.length_lt {s : List (BitVec 8)} (h : CString m a s) : s.length < 2 ^ 32 := by
  by_contra hle
  have hmod : s.length % 2 ^ 32 < s.length := by omega
  obtain ⟨hbyte, hne⟩ := h.byte (List.getElem?_eq_getElem hmod)
  apply hne
  rw [← hbyte, ← h.terminator]
  congr 2
  exact BitVec.eq_of_toNat_eq (by simp)

/-- A zero in place of one of its bytes cuts a string in two. -/
theorem CString.cut {s t : List (BitVec 8)} {d : BitVec 8} (h : CString m a (s ++ d :: t))
    (hlen : s.length + t.length + 1 < 2 ^ 32) :
    CString (Function.update m (a + BitVec.ofNat 32 s.length) 0#8) a s ∧
      CString (Function.update m (a + BitVec.ofNat 32 s.length) 0#8)
        (a + BitVec.ofNat 32 s.length + 1#32) t := by
  constructor
  · induction s generalizing a with
    | nil => simp [CString]
    | cons c s ih =>
      rw [List.length_cons] at hlen ⊢
      refine ⟨?_, h.2.1, ?_⟩
      · rw [Function.update_of_ne]
        · exact h.1
        · have := add_ofNat_ne a (i := 0) (j := s.length + 1) (by omega) (by omega) (by omega)
          simpa using this
      · rw [add_ofNat_succ]
        exact ih h.2.2 (by omega)
  · have hrest : CString m (a + BitVec.ofNat 32 s.length + 1#32) t := h.suffix.2.2
    refine hrest.congr fun i hi => ?_
    rw [← add_ofNat_succ, ← add_ofNat_add, Function.update_of_ne]
    exact add_ofNat_ne a (by omega) (by omega) (by omega)

end CString

/-! ## Storing bytes -/

/-- Nothing is stored. -/
@[simp] theorem storeBytes_nil (m : Memory) (a : BitVec 32) : storeBytes m a [] = m := by
  funext x
  simp [storeBytes]

/-- Bytes are stored one after the other. -/
theorem storeBytes_cons (m : Memory) (a : BitVec 32) (b : BitVec 8) {bs : List (BitVec 8)}
    (hlen : bs.length < 2 ^ 32) :
    storeBytes m a (b :: bs) = storeBytes (Function.update m a b) (a + 1#32) bs := by
  funext x
  unfold storeBytes
  by_cases hx : x = a
  · subst hx
    have hfar : (x - (x + 1#32)).toNat = 2 ^ 32 - 1 := by bv_omega
    rw [hfar, List.getD_eq_default bs _ (by omega)]
    simp
  · have hsub : (x - a).toNat = (x - (a + 1#32)).toNat + 1 := by bv_omega
    rw [hsub, List.getD_cons_succ, Function.update_of_ne hx]

/-- Storing bytes changes no others. -/
theorem storeBytes_of_far {m : Memory} {a x : BitVec 32} {bs : List (BitVec 8)}
    (h : bs.length ≤ (x - a).toNat) : storeBytes m a bs x = m x := by
  unfold storeBytes
  exact List.getD_eq_default _ _ h

/-- A row of bytes stored in two parts. -/
theorem storeBytes_append (m : Memory) (a : BitVec 32) (xs : List (BitVec 8)) {ys : List (BitVec 8)}
    (hlen : xs.length + ys.length < 2 ^ 32) :
    storeBytes m a (xs ++ ys) =
      storeBytes (storeBytes m a xs) (a + BitVec.ofNat 32 xs.length) ys := by
  induction xs generalizing m a with
  | nil => simp
  | cons x xs ih =>
    rw [List.length_cons] at hlen
    rw [List.cons_append, storeBytes_cons _ _ _ (by rw [List.length_append]; omega),
      storeBytes_cons _ _ _ (by omega), ih _ _ (by omega), List.length_cons,
      add_ofNat_succ a xs.length]

/-- Storing a string and the zero behind it. -/
theorem cstring_storeBytes (m : Memory) (a : BitVec 32) {s : List (BitVec 8)} (hs : 0#8 ∉ s)
    (hlen : s.length + 1 < 2 ^ 32) : CString (storeBytes m a (s ++ [0#8])) a s := by
  induction s generalizing m a with
  | nil => simp [CString, storeBytes]
  | cons c s ih =>
    simp only [List.mem_cons, not_or] at hs
    rw [List.length_cons] at hlen
    refine ⟨?_, Ne.symm hs.1, ?_⟩
    · simp [storeBytes]
    · rw [List.cons_append, storeBytes_cons _ _ _ (by simp; omega)]
      exact ih _ _ hs.2 (by omega)

/-! ## Strings and pages -/

/-- One change of memory after the other. -/
theorem AgreeOnPage.trans {m₁ m₂ m₃ : Memory} {q : ℕ} (h : AgreeOnPage m₁ m₂ q)
    (h' : AgreeOnPage m₂ m₃ q) : AgreeOnPage m₁ m₃ q := by
  intro x hx
  rw [h' x hx, h x hx]

/-- The bytes of a page. -/
theorem pageOf_add_ofNat {p : BitVec 32} (hp : PageAligned p) {i : ℕ} (hi : i < 4096) :
    pageOf (p + BitVec.ofNat 32 i) = pageOf p := by
  have hlt := p.isLt
  unfold PageAligned at hp
  unfold pageOf
  rw [BitVec.toNat_add, BitVec.toNat_ofNat]
  omega

/-- A byte of another page is not behind the start of this one. -/
theorem far_of_pageOf_ne {p x : BitVec 32} (hp : PageAligned p) (hx : pageOf x ≠ pageOf p) :
    4096 ≤ (x - p).toNat := by
  by_contra hlt
  apply hx
  have heq : x = p + BitVec.ofNat 32 (x - p).toNat := by
    rw [BitVec.ofNat_toNat, BitVec.setWidth_eq]
    bv_omega
  rw [heq]
  exact pageOf_add_ofNat hp (by omega)

/-- A string on a page stays as long as the page does. -/
theorem CString.of_page {m m' : Memory} {p : BitVec 32} {s : List (BitVec 8)} (h : CString m p s)
    (hp : PageAligned p) (hlen : s.length < 4096) (hpage : AgreeOnPage m m' (pageOf p)) :
    CString m' p s :=
  h.congr fun _ hi => hpage _ (pageOf_add_ofNat hp (by omega))

/-- Bytes stored on a page change no other page. -/
theorem agreeOnPage_storeBytes {m : Memory} {p : BitVec 32} (hp : PageAligned p)
    {bs : List (BitVec 8)} (hlen : bs.length ≤ 4096) {q : ℕ} (hq : q ≠ pageOf p) :
    AgreeOnPage m (storeBytes m p bs) q := by
  intro x hx
  refine storeBytes_of_far (hlen.trans (far_of_pageOf_ne hp ?_))
  rw [hx]
  exact hq

/-! ## Words -/

section Words

variable {α : Type} {p : α → Bool}

/-- The maximal runs of `l` without a separator. -/
def words (p : α → Bool) (l : List α) : List (List α) := (l.splitOnP p).filter fun w => !w.isEmpty

/-- A separator in front changes nothing. -/
theorem words_sep {c : α} (hc : p c = true) (l : List α) : words p (c :: l) = words p l := by
  unfold words
  rw [List.splitOnP_cons_eq_if_modifyHead, if_pos hc]
  simp

/-- There is no word in nothing. -/
@[simp] theorem words_nil : words p [] = [] := by
  unfold words
  rw [List.splitOnP_nil]
  simp

/-- The last word. -/
theorem words_end {w : List α} (hw : ∀ c ∈ w, p c = false) (hne : w ≠ []) : words p w = [w] := by
  unfold words
  rw [List.splitOnP_eq_singleton hw]
  simp [hne]

/-- A word and what comes behind it. -/
theorem words_next {w l : List α} {c : α} (hw : ∀ c ∈ w, p c = false) (hne : w ≠ [])
    (hc : p c = true) : words p (w ++ c :: l) = w :: words p l := by
  unfold words
  rw [List.splitOnP_append_cons_of_forall_mem hw c hc]
  simp [hne]

/-- There are no more words than elements. -/
theorem length_words_le (l : List α) : (words p l).length ≤ l.length := by
  induction l with
  | nil => simp
  | cons c l ih =>
    by_cases hc : p c = true
    · rw [words_sep hc, List.length_cons]
      omega
    · unfold words at ih ⊢
      rw [List.splitOnP_cons_eq_if_modifyHead, if_neg hc, List.length_cons]
      cases hsplit : l.splitOnP p with
      | nil => exact absurd hsplit (List.splitOnP_ne_nil p l)
      | cons w ws =>
        rw [hsplit, List.filter_cons] at ih
        have hle : (ws.filter fun w => !w.isEmpty).length ≤ l.length := by
          split at ih
          · rw [List.length_cons] at ih
            omega
          · exact ih
        simp only [List.modifyHead_cons, List.isEmpty_cons, Bool.not_false, List.filter_cons_of_pos,
          List.length_cons]
        omega

/-- An element that is no separator is in a word. -/
theorem words_ne_nil {l : List α} (h : ∃ c ∈ l, p c = false) : words p l ≠ [] := by
  obtain ⟨c, hc, hp⟩ := h
  induction l with
  | nil => simp at hc
  | cons d l ih =>
    by_cases hd : p d = true
    · rw [words_sep hd]
      refine ih ((List.mem_cons.mp hc).resolve_left ?_)
      rintro rfl
      rw [hp] at hd
      cases hd
    · unfold words
      rw [List.splitOnP_cons_eq_if_modifyHead, if_neg hd]
      cases hsplit : l.splitOnP p with
      | nil => exact absurd hsplit (List.splitOnP_ne_nil p l)
      | cons w ws => simp

end Words

end MaerOS.Lib
