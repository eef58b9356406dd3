import MaerOS.Lib.CString
import MaerOS.Analysis.Itoa
import Mathlib.Data.List.TakeWhile

/-!
# `printf`

A format is a list of pieces: characters, and conversions that each take an
argument. `expansion` is what the pieces say to print. `printf` advances behind a
`%` without a look at what follows, so a format that ends in a `%` of its own sends
it past the terminator; in every other format it stops there.
-/

set_option autoImplicit false

namespace MaerOS.Analysis

open MaerOS.Lib MaerOS.Model

/-! ## What a format says -/

/-- A piece of a format. -/
inductive Piece where
  | char (c : BitVec 8)
  | int
  | str

/-- The character behind a `%`. -/
def pieceOf (c : BitVec 8) : Piece :=
  if c = 0x69#8 then .int else if c = 0x73#8 then .str else .char c

/-- The pieces of a format. -/
def pieces : List (BitVec 8) → List Piece
  | [] => []
  | [c] => if c = 0x25#8 then [] else [.char c]
  | c :: c' :: f => if c = 0x25#8 then pieceOf c' :: pieces f else .char c :: pieces (c' :: f)

/-- The format ends in a `%` that belongs to no pair. -/
def endsInPercent : List (BitVec 8) → Bool
  | [] => false
  | [c] => c = 0x25#8
  | c :: c' :: f => if c = 0x25#8 then endsInPercent f else endsInPercent (c' :: f)

/-- What is printed, where each conversion finds an argument of its type. -/
def expansion : List Piece → List PrintfArg → Option (List (BitVec 8))
  | [], _ => some []
  | .char c :: ps, ap => (expansion ps ap).map ([c] ++ ·)
  | .int :: ps, .int ival :: ap => (expansion ps ap).map (decimal ival.toInt ++ ·)
  | .str :: ps, .str sval :: ap => (expansion ps ap).map (sval ++ ·)
  | _, _ => none

/-- How many `%` there are at the end of a format. -/
def percentsAtEnd (f : List (BitVec 8)) : ℕ := (f.reverse.takeWhile (· = 0x25#8)).length

/-- A percent sign counts when only percent signs follow. -/
theorem percentsAtEnd_cons (c : BitVec 8) (f : List (BitVec 8)) :
    percentsAtEnd (c :: f) =
      percentsAtEnd f + if c = 0x25#8 ∧ ∀ x ∈ f, x = 0x25#8 then 1 else 0 := by
  have hall : (f.reverse.takeWhile (· = 0x25#8)).length = f.reverse.length ↔
      ∀ x ∈ f, x = 0x25#8 := by
    have hself := List.takeWhile_eq_self_iff (p := fun x => decide (x = 0x25#8)) (l := f.reverse)
    simp only [List.mem_reverse, decide_eq_true_eq] at hself
    rw [← hself]
    exact ⟨fun h => (List.takeWhile_prefix _).eq_of_length h, fun h => congrArg List.length h⟩
  unfold percentsAtEnd
  rw [List.reverse_cons, List.takeWhile_append]
  by_cases hf : ∀ x ∈ f, x = 0x25#8
  · rw [if_pos (hall.mpr hf), List.length_append, hall.mpr hf]
    by_cases hc : c = 0x25#8
    · rw [if_pos ⟨hc, hf⟩, hc]
      rfl
    · rw [if_neg fun h => hc h.1, List.takeWhile_cons_of_neg (by simpa using hc)]
      rfl
  · rw [if_neg (fun h => hf (hall.mp h)), if_neg fun h => hf h.2]
    rfl

/-- **A lone `%`** at the end comes behind pairs of them only: their number is odd. -/
theorem endsInPercent_iff (f : List (BitVec 8)) :
    endsInPercent f = true ↔ percentsAtEnd f % 2 = 1 := by
  induction f using endsInPercent.induct with
  | case1 => simp [endsInPercent, percentsAtEnd]
  | case2 c =>
    rw [percentsAtEnd_cons]
    by_cases hc : c = 0x25#8 <;> simp [endsInPercent, percentsAtEnd, hc]
  | case3 c' f ih =>
    rw [percentsAtEnd_cons, percentsAtEnd_cons]
    simp only [endsInPercent, if_pos, ih, true_and, List.forall_mem_cons]
    split <;> omega
  | case4 c c' f hc ih =>
    rw [percentsAtEnd_cons, if_neg fun h => hc h.1]
    simpa [endsInPercent, hc] using ih

/-! ## One round -/

section Round

variable {m : Memory} {fmt : Addr} {n p : ℕ} {ap : List PrintfArg} {s s' : Printf}

theorem printfLoop_nul (hc : m (fmt + BitVec.ofNat 32 p) = 0#8) :
    printfLoop m fmt (n + 1) p ap s = some (s.read p) := by
  unfold printfLoop
  exact if_pos hc

/-- A plain character is printed. -/
theorem printfLoop_char {c : BitVec 8} (hc : m (fmt + BitVec.ofNat 32 p) = c) (hne : c ≠ 0#8)
    (hpercent : c ≠ 0x25#8) :
    printfLoop m fmt (n + 1) p ap s = printfLoop m fmt n (p + 1) ap ((s.read p).emit [c]) := by
  subst hc
  conv_lhs => unfold printfLoop
  dsimp only
  rw [if_neg hne, if_pos hpercent]

/-- A `%`, the character behind it, and what is read and printed for it. -/
theorem printfLoop_percent {c : BitVec 8} (hp : m (fmt + BitVec.ofNat 32 p) = 0x25#8)
    (hc : m (fmt + BitVec.ofNat 32 (p + 1)) = c) {ps : List Piece} {out : List (BitVec 8)}
    (hexp : expansion (pieceOf c :: ps) ap = some out) :
    ∃ str rest ap' text, out = str ++ rest ∧ expansion ps ap' = some rest ∧
      printfLoop m fmt (n + 1) p ap s =
        printfLoop m fmt n (p + 1 + 1) ap' { ((s.read p).read (p + 1)).emit str with text := text } := by
  subst hc
  unfold pieceOf at hexp
  conv in printfLoop m fmt (n + 1) p ap s => unfold printfLoop
  dsimp only
  rw [hp, if_neg (by decide), if_neg (by decide)]
  by_cases hint : m (fmt + BitVec.ofNat 32 (p + 1)) = 0x69#8
  · rw [if_pos hint] at hexp
    match ap with
    | .int ival :: ap =>
      obtain ⟨rest, hrest, rfl⟩ := Option.map_eq_some_iff.mp hexp
      obtain ⟨t, hitoa, hstring, -⟩ := itoa_spec ((s.read p).read (p + 1)).text ival
      refine ⟨_, rest, ap, t.text, rfl, hrest, ?_⟩
      rw [if_pos hint]
      dsimp only
      rw [hitoa]
      dsimp only
      rw [hstring]
    | .str sval :: ap => cases hexp
    | [] => cases hexp
  rw [if_neg hint] at hexp
  by_cases hstr : m (fmt + BitVec.ofNat 32 (p + 1)) = 0x73#8
  · rw [if_pos hstr] at hexp
    match ap with
    | .int ival :: ap => cases hexp
    | .str sval :: ap =>
      obtain ⟨rest, hrest, rfl⟩ := Option.map_eq_some_iff.mp hexp
      refine ⟨_, rest, ap, s.text, rfl, hrest, ?_⟩
      rw [if_neg hint, if_pos hstr]
      rfl
    | [] => cases hexp
  · rw [if_neg hstr] at hexp
    obtain ⟨rest, hrest, rfl⟩ := Option.map_eq_some_iff.mp hexp
    refine ⟨_, rest, ap, s.text, rfl, hrest, ?_⟩
    rw [if_neg hint, if_neg hstr]
    rfl

/-- What has been read stays recorded. -/
theorem printfLoop_reads (h : printfLoop m fmt n p ap s = some s') :
    p ∈ s'.reads ∧ ∀ i ∈ s.reads, i ∈ s'.reads := by
  induction n generalizing p ap s with
  | zero => cases h
  | succ n ih =>
    have hkeep : ∀ {q : ℕ} {ap' : List PrintfArg} {s₁ : Printf},
        printfLoop m fmt n q ap' s₁ = some s' → (∀ i ∈ (s.read p).reads, i ∈ s₁.reads) →
        p ∈ s'.reads ∧ ∀ i ∈ s.reads, i ∈ s'.reads := by
      intro q ap' s₁ hrest hs₁
      have hall := fun i hi => (ih hrest).2 i (hs₁ i hi)
      exact ⟨hall p List.mem_cons_self, fun i hi => hall i (List.mem_cons_of_mem _ hi)⟩
    have hnext : ∀ i ∈ (s.read p).reads, i ∈ ((s.read p).read (p + 1)).reads :=
      fun i hi => List.mem_cons_of_mem _ hi
    unfold printfLoop at h
    dsimp only at h
    split at h
    · cases h
      exact ⟨List.mem_cons_self, fun i hi => List.mem_cons_of_mem _ hi⟩
    split at h
    · exact hkeep h fun i hi => hi
    split at h
    · split at h
      · split at h
        · cases h
        · exact hkeep h hnext
      · cases h
    split at h
    · split at h
      · exact hkeep h hnext
      · cases h
    · exact hkeep h hnext

end Round

/-! ## The whole format -/

section Format

variable {m : Memory} {fmt : Addr}

/-- **The loop** from a place in the format on: without a lone `%` at the end it prints what the
format says and reads up to the terminator, with one it reads behind it. -/
theorem printfLoop_spec (n : ℕ) {p : ℕ} {f : List (BitVec 8)} {ap : List PrintfArg}
    {s : Printf} {out : List (BitVec 8)} (hf : CString m (fmt + BitVec.ofNat 32 p) f)
    (hn : f.length < n) (hexp : expansion (pieces f) ap = some out) :
    (endsInPercent f = false → ∃ s', printfLoop m fmt n p ap s = some s' ∧ s'.out = s.out ++ out ∧
      ∀ i ∈ s'.reads, i ∈ s.reads ∨ i ≤ p + f.length) ∧
    (endsInPercent f = true → ∀ s', printfLoop m fmt n p ap s = some s' →
      p + f.length + 1 ∈ s'.reads) := by
  induction n generalizing p f ap s out with
  | zero => omega
  | succ n ih =>
    cases f with
    | nil =>
      obtain rfl : [] = out := by simpa [pieces, expansion] using hexp
      rw [printfLoop_nul (cstring_nil.mp hf)]
      refine ⟨fun _ => ⟨_, rfl, by simp [Printf.read], fun i hi => ?_⟩,
        fun h => by simp [endsInPercent] at h⟩
      exact (List.mem_cons.mp hi).symm.imp_right (by omega)
    | cons c f =>
      obtain ⟨hc, hne, htail⟩ := hf
      have hnext : fmt + BitVec.ofNat 32 p + 1#32 = fmt + BitVec.ofNat 32 (p + 1) :=
        (add_ofNat_add fmt p 1).symm
      rw [hnext] at htail
      rw [List.length_cons] at hn ⊢
      by_cases hpercent : c = 0x25#8
      · subst hpercent
        cases f with
        | nil =>
          -- the terminator is printed, and the scan goes on behind it
          refine ⟨fun h => by simp [endsInPercent] at h, fun _ s' h => ?_⟩
          have hnul := cstring_nil.mp htail
          obtain ⟨str, rest, ap', text, -, -, hloop⟩ := @printfLoop_percent m fmt n p ap s _ hc hnul
            [] [0#8] rfl
          rw [hloop] at h
          exact (printfLoop_reads h).1
        | cons c' f =>
          obtain ⟨hc', -, htail'⟩ := htail
          rw [← add_ofNat_add fmt (p + 1) 1] at htail'
          obtain ⟨str, rest, ap', text, rfl, hexp', hloop⟩ :=
            @printfLoop_percent m fmt n p ap s _ hc hc' _ _ (by simpa [pieces] using hexp)
          rw [List.length_cons] at hn ⊢
          obtain ⟨hgood, hbad⟩ := @ih (p + 1 + 1) f ap'
            { ((s.read p).read (p + 1)).emit str with text := text } rest htail' (by omega) hexp'
          rw [hloop]
          refine ⟨fun h => ?_, fun h s' hs' => ?_⟩
          · obtain ⟨s', hs', hout, hreads⟩ := hgood (by simpa [endsInPercent] using h)
            refine ⟨s', hs', by rw [hout]; simp [Printf.emit, Printf.read], fun i hi => ?_⟩
            by_cases hbefore : i ∈ s.reads
            · exact .inl hbefore
            · have := hreads i hi
              simp only [Printf.emit, Printf.read, List.mem_cons, hbefore, or_false] at this
              exact .inr (by omega)
          · have := hbad (by simpa [endsInPercent] using h) s' hs'
            rwa [show p + (f.length + 1 + 1) + 1 = p + 1 + 1 + f.length + 1 from by omega]
      · obtain ⟨rest, hexp', rfl⟩ : ∃ rest, expansion (pieces f) ap = some rest ∧ [c] ++ rest = out := by
          have hpieces : pieces (c :: f) = .char c :: pieces f := by
            cases f <;> simp [pieces, hpercent]
          rw [hpieces] at hexp
          exact Option.map_eq_some_iff.mp hexp
        have hends : endsInPercent (c :: f) = endsInPercent f := by
          cases f <;> simp [endsInPercent, hpercent]
        obtain ⟨hgood, hbad⟩ := @ih (p + 1) f ap ((s.read p).emit [c]) rest htail (by omega) hexp'
        rw [printfLoop_char hc hne hpercent, hends]
        refine ⟨fun h => ?_, fun h s' hs' => ?_⟩
        · obtain ⟨s', hs', hout, hreads⟩ := hgood h
          refine ⟨s', hs', by rw [hout]; simp [Printf.emit, Printf.read], fun i hi => ?_⟩
          by_cases hbefore : i ∈ s.reads
          · exact .inl hbefore
          · have := hreads i hi
            simp only [Printf.emit, Printf.read, List.mem_cons, hbefore, or_false] at this
            exact .inr (by omega)
        · have := hbad h s' hs'
          rwa [show p + (f.length + 1) + 1 = p + 1 + f.length + 1 from by omega]

end Format

/-- **`printf`.** For a format in memory and arguments that fit it: `printf` ends, hands over the
expansion of the format and reads none of its bytes behind the terminator exactly when the format
ends in an even number of `%`. -/
theorem printf_iff (m : Memory) (text : ℤ → BitVec 8) (fmt : Addr) (f : List (BitVec 8))
    (hf : CString m fmt f) (ap : List PrintfArg) (out : List (BitVec 8))
    (hexp : expansion (pieces f) ap = some out) :
    (∃ s, printf m text fmt ap = some s ∧ s.out = out ∧ ∀ i ∈ s.reads, i ≤ f.length) ↔
      percentsAtEnd f % 2 = 0 := by
  obtain ⟨hgood, hbad⟩ := @printfLoop_spec m fmt (2 ^ 32) 0 f ap ⟨[], [], text⟩ out
    (by simpa using hf) hf.length_lt hexp
  have hends := endsInPercent_iff f
  constructor
  · rintro ⟨s, hs, -, hreads⟩
    by_contra hodd
    have := hreads _ (hbad (hends.mpr (by omega)) s hs)
    omega
  · intro heven
    obtain ⟨s, hs, hout, hreads⟩ := hgood (by
      rw [← Bool.not_eq_true, hends]
      omega)
    refine ⟨s, hs, by simpa using hout, fun i hi => ?_⟩
    have := (hreads i hi).resolve_left (by simp)
    omega

/-- The format `%i%s%%`. -/
def formatAll : List (BitVec 8) := [0x25#8, 0x69#8, 0x25#8, 0x73#8, 0x25#8, 0x25#8]

/-- `printf("%i%s%%", -7, "ab")`. -/
theorem printf_all : ∃ s, printf (storeBytes (fun _ => 0#8) 0x400000#32 (formatAll ++ [0#8]))
    (fun _ => 0#8) 0x400000#32 [.int (-7#32), .str [0x61#8, 0x62#8]] = some s ∧
      s.out = [0x2d#8, 0x37#8, 0x61#8, 0x62#8, 0x25#8] ∧ ∀ i ∈ s.reads, i ≤ formatAll.length :=
  (printf_iff _ _ _ formatAll (cstring_storeBytes _ _ (by decide) (by decide)) _ _
    (by decide)).mpr (by decide)

/-- `printf("%")`, with zeros behind the format: the byte behind the terminator is read. -/
theorem printf_percent : ¬ ∀ (m : Memory) (text : ℤ → BitVec 8) (fmt : Addr) (f : List (BitVec 8))
    (ap : List PrintfArg) (out : List (BitVec 8)), CString m fmt f →
      expansion (pieces f) ap = some out →
      ∃ s, printf m text fmt ap = some s ∧ s.out = out ∧ ∀ i ∈ s.reads, i ≤ f.length := by
  intro h
  have hf := cstring_storeBytes (fun _ => 0#8) 0x400000#32 (s := [0x25#8]) (by decide) (by decide)
  obtain ⟨s, hs, -, hreads⟩ := h _ (fun _ => 0#8) _ _ [] [] hf rfl
  have hlast := (@printfLoop_spec _ 0x400000#32 (2 ^ 32) 0 [0x25#8] [] ⟨[], [], fun _ => 0#8⟩ []
    (by simpa using hf) (by decide) rfl).2 rfl s hs
  exact absurd (hreads _ hlast) (by decide)

end MaerOS.Analysis
