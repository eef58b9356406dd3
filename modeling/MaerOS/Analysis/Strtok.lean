import MaerOS.Lib.CString
import MaerOS.Model.Command

/-!
# What `strncpy` and `strtok` do to a string

`strncpy` stores a prefix of its source and a terminator, provided source and
destination do not overlap. `strtok` finds the first word of what is left of the
string, cuts it off in place and leaves its cursor behind the cut; when no word is
left, the cursor is null again.
-/

set_option autoImplicit false

namespace MaerOS.Analysis

open MaerOS.Lib MaerOS.Model

/-! ## Copying -/

/-- The loop of `strncpy` stores the characters and a terminator. -/
theorem strncpyLoop_eq {dest src : Addr} (n i : ℕ) {m : Memory} {s : List (BitVec 8)}
    (hs : CString m (src + BitVec.ofNat 32 i) s) (hn : n + 1 < 2 ^ 32)
    (hfar : ∀ j ≤ s.length,
      n + 1 ≤ (src + BitVec.ofNat 32 (i + j) - (dest + BitVec.ofNat 32 i)).toNat) :
    strncpyLoop dest src n i m = storeBytes m (dest + BitVec.ofNat 32 i) (s.take n ++ [0#8]) := by
  induction n generalizing i m s with
  | zero =>
    rw [List.take_zero, List.nil_append, storeBytes_cons _ _ _ (by simp), storeBytes_nil]
    rfl
  | succ n ih =>
    unfold strncpyLoop
    cases s with
    | nil =>
      rw [if_pos (cstring_nil.mp hs), List.take_nil, List.nil_append, storeBytes_cons _ _ _ (by simp),
        storeBytes_nil]
    | cons c s =>
      obtain ⟨hc, hnz, htail⟩ := hs
      have hstep : ∀ a : Addr, a + BitVec.ofNat 32 (i + 1) = a + BitVec.ofNat 32 i + 1#32 :=
        fun a => add_ofNat_add a i 1
      rw [if_neg (by rw [hc]; exact hnz), hc, ih (i + 1) (s := s), hstep dest]
      · rw [List.take_succ_cons, List.cons_append, storeBytes_cons]
        simp only [List.length_append, List.length_take, List.length_singleton]
        omega
      · rw [hstep src]
        refine htail.congr fun j hj => Function.update_of_ne (fun heq => ?_) _ _
        have := hfar (j + 1) (by simp; omega)
        rw [show i + (j + 1) = i + 1 + j from by omega, add_ofNat_add src (i + 1) j, hstep src,
          heq, BitVec.sub_self] at this
        simp at this
      · omega
      · intro j hj
        have := hfar (j + 1) (by simp; omega)
        rw [show i + (j + 1) = i + 1 + j from by omega] at this
        rw [hstep dest]
        bv_omega

/-- **`strncpy`** from a string that the destination does not overlap. -/
theorem strncpy_eq {m : Memory} {dest src : Addr} {s : List (BitVec 8)} (hs : CString m src s)
    {count : ℕ} (hpos : 1 ≤ count) (hcount : count < 2 ^ 32)
    (hfar : ∀ j ≤ s.length, count ≤ (src + BitVec.ofNat 32 j - dest).toNat) :
    strncpy m dest src count = storeBytes m dest (s.take (count - 1) ++ [0#8]) := by
  have hzero : ∀ a : Addr, a + BitVec.ofNat 32 0 = a := by simp
  unfold strncpy
  rw [strncpyLoop_eq (count - 1) 0 (s := s) (by rwa [hzero]) (by omega), hzero]
  intro j hj
  rw [hzero, Nat.zero_add, Nat.sub_add_cancel hpos]
  exact hfar j hj

/-- The loop of `strncpy` stores to no other byte. -/
theorem strncpyLoop_of_far {dest src x : Addr} (n i : ℕ) {m : Memory} (hi : i + n < 2 ^ 32)
    (hx : i + n < (x - dest).toNat ∨ (x - dest).toNat < i) : strncpyLoop dest src n i m x = m x := by
  have hne : ∀ j, i ≤ j → j ≤ i + n → x ≠ dest + BitVec.ofNat 32 j := by
    rintro j hlo hhi rfl
    rw [add_ofNat_sub dest (by omega)] at hx
    omega
  induction n generalizing i m with
  | zero => exact Function.update_of_ne (hne i le_rfl le_rfl) _ _
  | succ n ih =>
    unfold strncpyLoop
    have hfirst := hne i le_rfl (by omega)
    by_cases hc : m (src + BitVec.ofNat 32 i) = 0#8
    · rw [if_pos hc, Function.update_of_ne hfirst]
    · rw [if_neg hc, ih (i + 1) (by omega) (by omega) fun j hlo hhi => hne j (by omega) (by omega),
        Function.update_of_ne hfirst]

/-- **`strncpy`** stores to its `count` bytes only, whatever the source holds. -/
theorem strncpy_of_far {dest src x : Addr} {count : ℕ} (m : Memory) (hpos : 1 ≤ count)
    (hcount : count < 2 ^ 32) (hx : count ≤ (x - dest).toNat) : strncpy m dest src count x = m x :=
  strncpyLoop_of_far (count - 1) 0 (by omega) (by omega)

/-! ## Scanning -/

section Scan

variable {delimiters : List (BitVec 8)}

/-- A delimiter. -/
def isDelimiter (delimiters : List (BitVec 8)) (c : BitVec 8) : Bool := delimiters.contains c

/-- Skipping delimiters loses no word. -/
theorem strtokSkip_eq (hd : 0#8 ∉ delimiters) {m : Memory} {a : Addr} {s : List (BitVec 8)}
    (hs : CString m a s) {n : ℕ} (hn : s.length < n) :
    ∃ i s', strtokSkip m delimiters n a = some (a + BitVec.ofNat 32 i) ∧
      CString m (a + BitVec.ofNat 32 i) s' ∧ i + s'.length = s.length ∧
      (∀ c t, s' = c :: t → isDelimiter delimiters c = false) ∧
      words (isDelimiter delimiters) s = words (isDelimiter delimiters) s' := by
  induction s generalizing a n with
  | nil =>
    obtain ⟨n, rfl⟩ : ∃ l, n = l + 1 := ⟨n - 1, by simp at hn; omega⟩
    refine ⟨0, [], ?_, by simpa using hs, rfl, by simp, rfl⟩
    unfold strtokSkip
    rw [cstring_nil.mp hs, if_neg hd]
    simp
  | cons c s ih =>
    obtain ⟨n, rfl⟩ : ∃ l, n = l + 1 := ⟨n - 1, by omega⟩
    unfold strtokSkip
    rw [hs.1]
    by_cases hc : c ∈ delimiters
    · rw [if_pos hc]
      obtain ⟨i, s', hskip, hs', hlen, hhead, hwords⟩ := ih hs.2.2 (n := n) (by simp at hn; omega)
      refine ⟨i + 1, s', ?_, ?_, ?_, hhead, ?_⟩
      · rw [hskip, ← add_ofNat_succ]
      · rw [add_ofNat_succ]
        exact hs'
      · rw [List.length_cons]
        omega
      · rw [words_sep (by simpa [isDelimiter] using hc), hwords]
    · rw [if_neg hc]
      refine ⟨0, c :: s, by simp, by simpa using hs, by simp, ?_, rfl⟩
      intro c' t heq
      cases heq
      simpa [isDelimiter] using hc

/-- A word ends at a delimiter, which is overwritten, or at the end of the string. -/
theorem strtokEnd_eq {m : Memory} {a : Addr} {s : List (BitVec 8)}
    (hs : CString m a s) {n : ℕ} (hn : s.length < n) :
    ∃ t, (∀ c ∈ t, isDelimiter delimiters c = false) ∧
      ((s = t ∧ strtokEnd m delimiters n a = some (m, a + BitVec.ofNat 32 t.length)) ∨
        ∃ d r, s = t ++ d :: r ∧ isDelimiter delimiters d = true ∧
          strtokEnd m delimiters n a = some (Function.update m (a + BitVec.ofNat 32 t.length) 0#8,
            a + BitVec.ofNat 32 t.length + 1#32)) := by
  induction s generalizing a n with
  | nil =>
    obtain ⟨n, rfl⟩ : ∃ l, n = l + 1 := ⟨n - 1, by simp at hn; omega⟩
    refine ⟨[], by simp, .inl ⟨rfl, ?_⟩⟩
    unfold strtokEnd
    rw [if_pos (cstring_nil.mp hs)]
    simp
  | cons c s ih =>
    obtain ⟨n, rfl⟩ : ∃ l, n = l + 1 := ⟨n - 1, by omega⟩
    unfold strtokEnd
    rw [hs.1, if_neg hs.2.1]
    by_cases hc : c ∈ delimiters
    · rw [if_pos hc]
      refine ⟨[], by simp, .inr ⟨c, s, rfl, by simpa [isDelimiter] using hc, ?_⟩⟩
      simp
    · rw [if_neg hc]
      obtain ⟨t, ht, hcases⟩ := ih hs.2.2 (n := n) (by simp at hn; omega)
      refine ⟨c :: t, ?_, ?_⟩
      · intro x hx
        rcases List.mem_cons.mp hx with rfl | hx
        · simpa [isDelimiter] using hc
        · exact ht x hx
      · rw [List.length_cons, add_ofNat_succ a t.length]
        rcases hcases with ⟨rfl, hend⟩ | ⟨d, r, rfl, hsep, hend⟩
        · exact .inl ⟨rfl, hend⟩
        · exact .inr ⟨d, r, rfl, hsep, hend⟩

/-- The state after a token has been cut off. -/
def CommandKernel.scanned (st : CommandKernel) (mem : Memory) (sp : Addr) : CommandKernel :=
  { st with kernel := { st.kernel with mem := mem }, sp := sp }

/-- What is left of a string `s` at `a` after its first word was cut off: the word and the rest
are strings inside `s`, and no byte outside `s` has changed. -/
structure CutOff (m mem : Memory) (a token sp : Addr) (s t r : List (BitVec 8)) : Prop where
  token_at : ∃ i, token = a + BitVec.ofNat 32 i ∧ i + t.length ≤ s.length
  sp_at : ∃ j, sp = a + BitVec.ofNat 32 j ∧ j + r.length ≤ s.length
  word : CString mem token t
  rest : CString mem sp r
  shorter : r.length < s.length
  frame : ∀ x, (∀ l ≤ s.length, x ≠ a + BitVec.ofNat 32 l) → mem x = m x

/-- The word cut off is the first one, and the others follow. -/
theorem strtok_cutOff {m : Memory} {a : Addr} {i : ℕ}
    {s s' : List (BitVec 8)} (hs' : CString m (a + BitVec.ofNat 32 i) s')
    (hlen : i + s'.length = s.length) (hlt : s.length + 1 < 2 ^ 32)
    (hhead : ∀ c t, s' = c :: t → isDelimiter delimiters c = false) (hne : s' ≠ []) {n : ℕ}
    (hn : s'.length < n) :
    ∃ t r mem sp, strtokEnd m delimiters n (a + BitVec.ofNat 32 i) = some (mem, sp) ∧
      words (isDelimiter delimiters) s' = t :: words (isDelimiter delimiters) r ∧
      CutOff m mem a (a + BitVec.ofNat 32 i) sp s t r := by
  obtain ⟨t, ht, ⟨rfl, hend⟩ | ⟨d, r, rfl, hsep, hend⟩⟩ := strtokEnd_eq hs' hn
  · have hpos : 0 < s'.length := List.length_pos_iff.mpr hne
    refine ⟨s', [], m, _, hend, by rw [words_end ht hne, words_nil], ⟨i, rfl, hlen.le⟩,
      ⟨i + s'.length, (add_ofNat_add _ _ _).symm, hlen.le⟩, hs', ?_, ?_, fun x _ => rfl⟩
    · have := CString.suffix (t := []) (by rwa [List.append_nil] : CString m _ (s' ++ []))
      exact this
    · simp
      omega
  · rw [List.length_append, List.length_cons] at hlen
    have htne : t ≠ [] := by
      rintro rfl
      have := hhead d r rfl
      rw [hsep] at this
      cases this
    have hpos : 0 < t.length := List.length_pos_iff.mpr htne
    obtain ⟨hword, hrest⟩ := hs'.cut (by omega)
    refine ⟨t, r, _, _, hend, words_next ht htne hsep, ⟨i, rfl, by omega⟩,
      ⟨i + t.length + 1, ?_, by omega⟩, hword, hrest, by omega, ?_⟩
    · rw [add_ofNat_add a (i + t.length) 1, add_ofNat_add]
    · intro x hx
      refine Function.update_of_ne ?_ _ _
      rw [← add_ofNat_add]
      exact hx _ (by omega)

/-- **`strtok`** on the rest `s` of a string: its first word is cut off, or there is none and the
scan is over. -/
theorem strtok_spec (hd : 0#8 ∉ delimiters) {st : CommandKernel} {str a : Addr}
    {s : List (BitVec 8)} (hstart : (st.sp = 0#32 ∧ str ≠ 0#32 ∧ a = str) ∨
      (st.sp ≠ 0#32 ∧ a = st.sp)) (hs : CString st.kernel.mem a s) (hlt : s.length + 1 < 2 ^ 32) :
    (words (isDelimiter delimiters) s = [] ∧
        strtok str delimiters st = some (0#32, { st with sp := 0#32 })) ∨
      ∃ t r mem token sp, words (isDelimiter delimiters) s = t :: words (isDelimiter delimiters) r ∧
        strtok str delimiters st = some (token, CommandKernel.scanned st mem sp) ∧
        CutOff st.kernel.mem mem a token sp s t r := by
  obtain ⟨i, s', hskip, hs', hlen, hhead, hwords⟩ :=
    strtokSkip_eq hd hs (n := addressSpace) (by unfold addressSpace; omega)
  have hcur : (if str ≠ 0#32 ∧ st.sp = 0#32 then str else st.sp) = a := by
    rcases hstart with ⟨h0, hstr, rfl⟩ | ⟨hne, rfl⟩
    · exact if_pos ⟨hstr, h0⟩
    · exact if_neg fun h => hne h.2
  have hgo : ¬ (str = 0#32 ∧ st.sp = 0#32) := by
    rintro ⟨h1, h2⟩
    rcases hstart with ⟨-, hstr, -⟩ | ⟨hne, -⟩
    · exact hstr h1
    · exact hne h2
  unfold strtok
  rw [if_neg hgo]
  dsimp only
  rw [hcur, hskip]
  dsimp only
  cases s' with
  | nil =>
    rw [if_pos (cstring_nil.mp hs')]
    exact .inl ⟨by rw [hwords, words_nil], rfl⟩
  | cons c s' =>
    rw [if_neg (by rw [hs'.1]; exact hs'.2.1)]
    obtain ⟨t, r, mem, sp, hend, hword, hcut⟩ := strtok_cutOff hs' hlen hlt hhead (by simp)
      (n := addressSpace) (by unfold addressSpace; omega)
    rw [hend]
    exact .inr ⟨t, r, mem, _, sp, hwords.trans hword, rfl, hcut⟩

end Scan

end MaerOS.Analysis
