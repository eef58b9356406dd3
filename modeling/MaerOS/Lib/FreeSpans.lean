import Mathlib.Data.List.Basic
import Mathlib.Tactic.Common

/-!
# First fit over a list of free spans

The free part of an array as a list of spans `(start, length)` in increasing order,
none of them empty and no two of them adjacent. A request for `n` consecutive
places takes the first `n` of the first span that is long enough, and `takeSpan`
says so in a way that can be computed; `giveSpan` puts places back.
-/

set_option autoImplicit false

namespace MaerOS.Lib

/-- The place lies in one of the spans. -/
def InSpans (spans : List (ℕ × ℕ)) (b : ℕ) : Prop := ∃ s ∈ spans, s.1 ≤ b ∧ b < s.1 + s.2

/-- The spans begin at `low` or later, are in order, not empty and not adjacent. -/
def SpansFrom : (low : ℕ) → List (ℕ × ℕ) → Prop
  | _, [] => True
  | low, (a, m) :: spans => low ≤ a ∧ 1 ≤ m ∧ SpansFrom (a + m + 1) spans

/-- Take `n` places from the first span that has them. -/
def takeSpan (n : ℕ) : List (ℕ × ℕ) → Option (ℕ × List (ℕ × ℕ))
  | [] => none
  | (a, m) :: spans =>
    if m < n then (takeSpan n spans).map fun r => (r.1, (a, m) :: r.2)
    else some (a, if m = n then spans else (a + n, m - n) :: spans)

/-- Put back the `n` places from `a` on. -/
def giveSpan (a n : ℕ) : List (ℕ × ℕ) → List (ℕ × ℕ)
  | [] => [(a, n)]
  | (c, m) :: spans =>
    if a + n < c then (a, n) :: (c, m) :: spans
    else if a + n = c then (a, n + m) :: spans
    else if c + m = a then giveSpan c (m + n) spans
    else (c, m) :: giveSpan a n spans

theorem inSpans_nil (b : ℕ) : ¬ InSpans [] b := by simp [InSpans]

theorem inSpans_cons (a m : ℕ) (spans : List (ℕ × ℕ)) (b : ℕ) :
    InSpans ((a, m) :: spans) b ↔ (a ≤ b ∧ b < a + m) ∨ InSpans spans b := by
  simp [InSpans]

theorem SpansFrom.mono {low low' : ℕ} {spans : List (ℕ × ℕ)} (h : SpansFrom low spans)
    (hle : low' ≤ low) : SpansFrom low' spans := by
  cases spans with
  | nil => trivial
  | cons s spans => exact ⟨Nat.le_trans hle h.1, h.2⟩

/-- Nothing lies before the first span. -/
theorem SpansFrom.le {low : ℕ} {spans : List (ℕ × ℕ)} (h : SpansFrom low spans) {b : ℕ}
    (hb : InSpans spans b) : low ≤ b := by
  induction spans generalizing low with
  | nil => exact absurd hb (inSpans_nil b)
  | cons s spans ih =>
    obtain ⟨a, m⟩ := s
    obtain ⟨hlow, hm, hrest⟩ := h
    rcases (inSpans_cons a m spans b).mp hb with hb | hb
    · omega
    · have := ih hrest hb
      omega

/-- What `takeSpan` does: the places are those of a span, they are taken out, and no earlier `n`
places in a row are free. -/
structure TakeSpanSpec (n low : ℕ) (spans : List (ℕ × ℕ)) (a : ℕ) (spans' : List (ℕ × ℕ)) :
    Prop where
  le : low ≤ a
  free : ∀ b, InSpans spans b ↔ InSpans spans' b ∨ (a ≤ b ∧ b < a + n)
  taken : ∀ b, a ≤ b → b < a + n → ¬ InSpans spans' b
  ordered : SpansFrom low spans'
  first : ∀ b, (∀ j < n, InSpans spans (b + j)) → a ≤ b

/-- **Taking** places. -/
theorem takeSpan_spec {n : ℕ} (hn : 1 ≤ n) {spans spans' : List (ℕ × ℕ)} {low a : ℕ}
    (h : SpansFrom low spans) (htake : takeSpan n spans = some (a, spans')) :
    TakeSpanSpec n low spans a spans' := by
  induction spans generalizing low a spans' with
  | nil => cases htake
  | cons s spans ih =>
    obtain ⟨c, m⟩ := s
    obtain ⟨hlow, hm, hrest⟩ := h
    unfold takeSpan at htake
    by_cases hfit : m < n
    · -- the first span is too short
      rw [if_pos hfit] at htake
      obtain ⟨⟨a', spans₁⟩, hr, heq⟩ := Option.map_eq_some_iff.mp htake
      cases heq
      obtain ⟨hlow', hfree, htaken, hordered, hfirst⟩ := ih hrest hr
      refine ⟨by omega, fun b => ?_, fun b hb hb' hin => ?_, ⟨hlow, hm, hordered⟩,
        fun b hall => ?_⟩
      · rw [inSpans_cons, inSpans_cons, hfree, or_assoc]
      · rcases (inSpans_cons _ _ _ _).mp hin with hc | hc
        · omega
        · exact htaken b hb hb' hc
      · -- a row that begins in the first span does not end there, and behind it is a gap
        have hbelow : ¬ b < c + m := by
          intro hlt
          have hb := (inSpans_cons _ _ _ _).mp (hall 0 (by omega))
          have hbc : c ≤ b := by
            rcases hb with hb | hb
            · omega
            · have := hrest.le hb
              omega
          have hgap := (inSpans_cons _ _ _ _).mp (hall (c + m - b) (by omega))
          rcases hgap with hgap | hgap
          · omega
          · have := hrest.le hgap
            omega
        refine hfirst b fun j hj => ?_
        rcases (inSpans_cons _ _ _ _).mp (hall j hj) with hc | hc
        · omega
        · exact hc
    · rw [if_neg hfit] at htake
      cases htake
      have hfirst : ∀ b, (∀ j < n, InSpans ((a, m) :: spans) (b + j)) → a ≤ b := by
        intro b hall
        rcases (inSpans_cons _ _ _ _).mp (hall 0 (by omega)) with hc | hc
        · omega
        · have := hrest.le hc
          omega
      by_cases hall : m = n
      · subst hall
        rw [if_pos rfl]
        refine ⟨hlow, fun b => ?_, fun b hb hb' hin => ?_, hrest.mono (by omega), hfirst⟩
        · rw [inSpans_cons, or_comm]
        · have := hrest.le hin
          omega
      · rw [if_neg hall]
        refine ⟨hlow, fun b => ?_, fun b hb hb' hin => ?_, ⟨by omega, by omega, ?_⟩, hfirst⟩
        · rw [inSpans_cons, inSpans_cons]
          constructor
          · rintro (hb | hb)
            · by_cases hlt : b < a + n
              · exact .inr ⟨hb.1, hlt⟩
              · exact .inl (.inl ⟨by omega, by omega⟩)
            · exact .inl (.inr hb)
          · rintro ((hb | hb) | hb)
            · exact .inl ⟨by omega, by omega⟩
            · exact .inr hb
            · exact .inl ⟨hb.1, by omega⟩
        · rcases (inSpans_cons _ _ _ _).mp hin with hc | hc
          · omega
          · have := hrest.le hc
            omega
        · exact hrest.mono (by omega)

/-- **Putting back** places that are not free. -/
theorem giveSpan_spec {spans : List (ℕ × ℕ)} {low a n : ℕ} (hn : 1 ≤ n) (hlow : low ≤ a)
    (h : SpansFrom low spans) (hnot : ∀ b, a ≤ b → b < a + n → ¬ InSpans spans b) :
    (∀ b, InSpans (giveSpan a n spans) b ↔ InSpans spans b ∨ (a ≤ b ∧ b < a + n)) ∧
      SpansFrom low (giveSpan a n spans) := by
  induction spans generalizing low a n with
  | nil =>
    refine ⟨fun b => ?_, hlow, hn, trivial⟩
    unfold giveSpan
    rw [inSpans_cons, or_comm]
  | cons s spans ih =>
    obtain ⟨c, m⟩ := s
    obtain ⟨hc, hm, hrest⟩ := h
    have hnot' : ∀ b, a ≤ b → b < a + n → ¬ InSpans spans b := fun b hb hb' hin =>
      hnot b hb hb' ((inSpans_cons _ _ _ _).mpr (.inr hin))
    -- the places do not overlap the first span
    have hapart : a + n ≤ c ∨ c + m ≤ a := by
      by_contra hover
      refine hnot (max a c) (Nat.le_max_left _ _) (by omega) ((inSpans_cons _ _ _ _).mpr (.inl ?_))
      omega
    unfold giveSpan
    by_cases hbefore : a + n < c
    · rw [if_pos hbefore]
      refine ⟨fun b => ?_, hlow, hn, by omega, hm, hrest⟩
      rw [inSpans_cons, or_comm]
    rw [if_neg hbefore]
    by_cases htouch : a + n = c
    · rw [if_pos htouch]
      refine ⟨fun b => ?_, hlow, by omega, hrest.mono (by omega)⟩
      rw [inSpans_cons, inSpans_cons]
      constructor
      · rintro (hb | hb)
        · by_cases hlt : b < c
          · exact .inr ⟨hb.1, by omega⟩
          · exact .inl (.inl ⟨by omega, by omega⟩)
        · exact .inl (.inr hb)
      · rintro ((hb | hb) | hb)
        · exact .inl ⟨by omega, by omega⟩
        · exact .inr hb
        · exact .inl ⟨hb.1, by omega⟩
    rw [if_neg htouch]
    by_cases hjoin : c + m = a
    · rw [if_pos hjoin]
      obtain ⟨hfree, hordered⟩ := @ih low c (m + n) (by omega) hc
        (hrest.mono (by omega)) (fun b hb hb' hin => by
          by_cases hlt : b < a
          · have := hrest.le hin
            omega
          · exact hnot' b (by omega) (by omega) hin)
      refine ⟨fun b => ?_, hordered⟩
      rw [hfree, inSpans_cons]
      constructor
      · rintro (hb | hb)
        · exact .inl (.inr hb)
        · by_cases hlt : b < a
          · exact .inl (.inl ⟨hb.1, by omega⟩)
          · exact .inr ⟨by omega, by omega⟩
      · rintro ((hb | hb) | hb)
        · exact .inr ⟨hb.1, by omega⟩
        · exact .inl hb
        · exact .inr ⟨by omega, by omega⟩
    · rw [if_neg hjoin]
      obtain ⟨hfree, hordered⟩ := @ih (c + m + 1) a n hn (by omega) hrest hnot'
      refine ⟨fun b => ?_, hc, hm, hordered⟩
      rw [inSpans_cons, inSpans_cons, hfree, or_assoc]

/-! ## The list is determined by its places -/

/-- **Two such lists of the same places are equal**: the free part has one description only. -/
theorem SpansFrom.ext : ∀ {spans spans' : List (ℕ × ℕ)} {low : ℕ}, SpansFrom low spans →
    SpansFrom low spans' → (∀ b, InSpans spans b ↔ InSpans spans' b) → spans = spans'
  | [], [], _, _, _, _ => rfl
  | [], (c, k) :: _, _, _, h', hsame => by
    refine absurd ((hsame c).mpr ((inSpans_cons _ _ _ _).mpr (.inl ⟨Nat.le_refl c, ?_⟩))) (inSpans_nil c)
    have := h'.2.1
    omega
  | (a, m) :: _, [], _, h, _, hsame => by
    refine absurd ((hsame a).mp ((inSpans_cons _ _ _ _).mpr (.inl ⟨Nat.le_refl a, ?_⟩))) (inSpans_nil a)
    have := h.2.1
    omega
  | (a, m) :: spans, (c, k) :: spans', low, ⟨hlow, hm, hrest⟩, ⟨hlow', hk, hrest'⟩, hsame => by
    have key : ∀ b, (a ≤ b ∧ b < a + m ∨ InSpans spans b) ↔ (c ≤ b ∧ b < c + k ∨ InSpans spans' b) :=
      fun b => by rw [← inSpans_cons, ← inSpans_cons, hsame]
    -- both begin with the first place of all
    have hac : a = c := by
      rcases (key a).mp (.inl ⟨Nat.le_refl a, by omega⟩) with ha | ha
      · rcases (key c).mpr (.inl ⟨Nat.le_refl c, by omega⟩) with hc | hc
        · omega
        · have := hrest.le hc
          omega
      · have := hrest'.le ha
        rcases (key c).mpr (.inl ⟨Nat.le_refl c, by omega⟩) with hc | hc
        · omega
        · have := hrest.le hc
          omega
    subst hac
    -- and their first spans end with the first gap
    have hmk : m = k := by
      by_contra hne
      rcases Nat.lt_or_gt_of_ne hne with hlt | hlt
      · rcases (key (a + m)).mpr (.inl ⟨by omega, by omega⟩) with hgap | hgap
        · omega
        · have := hrest.le hgap
          omega
      · rcases (key (a + k)).mp (.inl ⟨by omega, by omega⟩) with hgap | hgap
        · omega
        · have := hrest'.le hgap
          omega
    subst hmk
    have htail : ∀ b, InSpans spans b ↔ InSpans spans' b := by
      intro b
      constructor
      · intro hb
        have := hrest.le hb
        exact ((key b).mp (.inr hb)).resolve_left (by omega)
      · intro hb
        have := hrest'.le hb
        exact ((key b).mpr (.inr hb)).resolve_left (by omega)
    rw [hrest.ext hrest' htail]

/-! ## A request that does not fit -/

/-- A row that is longer than the first span lies behind it. -/
theorem SpansFrom.row_behind {low a m n b : ℕ} {spans : List (ℕ × ℕ)}
    (h : SpansFrom low ((a, m) :: spans)) (hfit : m < n)
    (hall : ∀ j < n, InSpans ((a, m) :: spans) (b + j)) : ∀ j < n, InSpans spans (b + j) := by
  obtain ⟨-, -, hrest⟩ := h
  have hbelow : ¬ b < a + m := by
    intro hlt
    have hab : a ≤ b := by
      rcases (inSpans_cons _ _ _ _).mp (hall 0 (by omega)) with hb | hb
      · omega
      · have := hrest.le hb
        omega
    rcases (inSpans_cons _ _ _ _).mp (hall (a + m - b) (by omega)) with hgap | hgap
    · omega
    · have := hrest.le hgap
      omega
  intro j hj
  exact ((inSpans_cons _ _ _ _).mp (hall j hj)).resolve_left (by omega)

/-- **Nothing is taken** only where no span is long enough. -/
theorem takeSpan_none {n : ℕ} {spans : List (ℕ × ℕ)} {low : ℕ} (hn : 1 ≤ n)
    (h : SpansFrom low spans) (htake : takeSpan n spans = none) :
    ¬ ∃ b, ∀ j < n, InSpans spans (b + j) := by
  induction spans generalizing low with
  | nil =>
    rintro ⟨b, hall⟩
    exact inSpans_nil _ (hall 0 (by omega))
  | cons s spans ih =>
    obtain ⟨a, m⟩ := s
    unfold takeSpan at htake
    by_cases hfit : m < n
    · rw [if_pos hfit] at htake
      rintro ⟨b, hall⟩
      exact ih h.2.2 (Option.map_eq_none_iff.mp htake) ⟨b, h.row_behind hfit hall⟩
    · rw [if_neg hfit] at htake
      cases htake

/-! ## The span at the end of the array -/

/-- Where the span begins that reaches the end of an array of `total` places. -/
def tailSpan (total : ℕ) (spans : List (ℕ × ℕ)) : Option ℕ :=
  (spans.find? fun s => s.1 + s.2 = total).map Prod.fst

/-- From `a` on everything is free, and not one place more. -/
theorem tailSpan_eq_some {total a : ℕ} {spans : List (ℕ × ℕ)} {low : ℕ} (h : SpansFrom low spans)
    (hinside : ∀ b, InSpans spans b → b < total) (ha : a < total)
    (hfree : ∀ b, a ≤ b → b < total → InSpans spans b) (hbefore : ∀ b, b + 1 = a → ¬ InSpans spans b) :
    tailSpan total spans = some a := by
  unfold tailSpan
  induction spans generalizing low with
  | nil => exact absurd (hfree a (Nat.le_refl a) ha) (inSpans_nil a)
  | cons s spans ih =>
    obtain ⟨c, m⟩ := s
    obtain ⟨hlow, hm, hrest⟩ := h
    simp only [inSpans_cons] at hinside hfree hbefore
    by_cases hend : c + m = total
    · rw [List.find?_cons_of_pos (by simpa using hend), Option.map_some]
      congr 1
      by_contra hne
      rcases Nat.lt_or_gt_of_ne hne with hlt | hlt
      · exact hbefore (a - 1) (by omega) (.inl ⟨by omega, by omega⟩)
      · rcases hfree (c - 1) (by omega) (by omega) with hc | hc
        · omega
        · have := hrest.le hc
          omega
    · rw [List.find?_cons_of_neg (by simpa using hend)]
      have hlt : c + m < total := by
        have := hinside (c + m - 1) (.inl ⟨by omega, by omega⟩)
        omega
      -- the place behind the first span is not free, so the tail begins later
      have hlater : c + m < a := by
        by_contra hle
        rcases hfree (c + m) (by omega) hlt with hgap | hgap
        · omega
        · have := hrest.le hgap
          omega
      exact ih hrest (fun b hb => hinside b (.inr hb))
        (fun b hb hb' => (hfree b hb hb').resolve_left (by omega))
        (fun b hb hin => hbefore b hb (.inr hin))

/-- The last place is taken. -/
theorem tailSpan_eq_none {total : ℕ} {spans : List (ℕ × ℕ)} {low : ℕ} (h : SpansFrom low spans)
    (hlast : ¬ InSpans spans (total - 1)) : tailSpan total spans = none := by
  unfold tailSpan
  induction spans generalizing low with
  | nil => rfl
  | cons s spans ih =>
    obtain ⟨c, m⟩ := s
    obtain ⟨hlow, hm, hrest⟩ := h
    rw [inSpans_cons] at hlast
    rw [List.find?_cons_of_neg]
    · exact ih hrest fun hin => hlast (.inr hin)
    · intro hend
      have : c + m = total := by simpa using hend
      exact hlast (.inl ⟨by omega, by omega⟩)

end MaerOS.Lib
