import Mathlib.Data.List.Basic
import Mathlib.Data.List.Rotate
import Mathlib.Tactic.Ring

/-!
# Taking turns in a ring

The one in front of the ring runs. A turn ends in one of two ways: the one in front
goes to the back (`pass`), or it leaves for good. Leaving brings the next one to the
front, and then the turn is passed on once more, so that the next one does not run:
`leave` costs it its turn.

`fronts` are those who run in the course of some turns. With passing alone everybody
runs once in a round. With leaving, somebody may lose a turn again and again, each
time to another one who leaves, and in a ring of `n` it takes up to `n * (n - 1) / 2`
turns until everybody has run (`mem_fronts`).
-/

set_option autoImplicit false

namespace MaerOS.Lib

/-- How a turn ends. -/
inductive Turn where
  | pass
  | leave
  deriving DecidableEq

section Ring

variable {α : Type}

/-- The one in front goes to the back. -/
def passOn : List α → List α
  | [] => []
  | a :: r => r ++ [a]

/-- The ring after a turn. -/
def endTurn (r : List α) : Turn → List α
  | .pass => passOn r
  | .leave => passOn r.tail

/-- The ring after some turns. -/
def endTurns (r : List α) (ts : List Turn) : List α := ts.foldl endTurn r

/-- Those who run, from the first turn's end on. -/
def fronts : List α → List Turn → List α
  | _, [] => []
  | r, t :: ts => (endTurn r t).take 1 ++ fronts (endTurn r t) ts

/-- A ring that is empty stays so. -/
theorem endTurns_nil (ts : List Turn) : endTurns ([] : List α) ts = [] := by
  induction ts with
  | nil => rfl
  | cons t ts ih => cases t <;> exact ih

/-- Passing alone turns the ring round. -/
theorem endTurns_pass (r : List α) (n : ℕ) :
    endTurns r (List.replicate n .pass) = r.rotate n := by
  induction n generalizing r with
  | zero => exact (List.rotate_zero r).symm
  | succ n ih =>
    show endTurns (passOn r) (List.replicate n .pass) = r.rotate (n + 1)
    rw [ih]
    cases r with
    | nil => rw [passOn, List.rotate_nil, List.rotate_nil]
    | cons a r => rw [passOn, List.rotate_cons_succ]

theorem mem_passOn {a : α} {r : List α} : a ∈ passOn r ↔ a ∈ r := by
  cases r with
  | nil => exact Iff.rfl
  | cons b r => simp [passOn, or_comm]

/-- Whoever comes to the front in the course of some turns is there after one of them. -/
theorem mem_fronts_iff {a : α} {r : List α} {ts : List Turn} :
    a ∈ fronts r ts ↔ ∃ i < ts.length, (endTurns r (ts.take (i + 1))).head? = some a := by
  induction ts generalizing r with
  | nil => simp [fronts]
  | cons t ts ih =>
    have hfirst : a ∈ (endTurn r t).take 1 ↔ (endTurn r t).head? = some a := by
      cases endTurn r t with
      | nil => simp
      | cons b r => simp [eq_comm]
    rw [fronts, List.mem_append, hfirst, ih]
    constructor
    · rintro (h | ⟨i, hi, h⟩)
      · exact ⟨0, by simp, h⟩
      · exact ⟨i + 1, by simpa using hi, h⟩
    · rintro ⟨i, hi, h⟩
      cases i with
      | zero => exact .inl h
      | succ i => exact .inr ⟨i, by simpa using hi, h⟩

/-! ## How long somebody waits -/

/-- **Waiting.** Somebody with `pre.length` others in front, besides the one that runs, runs after
as many turns as the ring has pairs of others, at most, and those in front. -/
theorem mem_fronts_cons {a : α} (ts : List Turn) : ∀ (c : α) (pre post : List α),
    2 * (pre.length + 1) + (pre.length + post.length + 1) * (pre.length + post.length) ≤
      2 * ts.length →
    a ∈ fronts (c :: (pre ++ a :: post)) ts := by
  induction ts with
  | nil =>
    intro c pre post h
    simp only [List.length_nil] at h
    omega
  | cons t ts ih =>
    intro c pre post h
    rw [List.length_cons] at h
    cases t with
    | pass =>
      cases pre with
      | nil => simp [fronts, endTurn, passOn]
      | cons d pre =>
        refine List.mem_append_right _ ?_
        have hring : endTurn (c :: (d :: pre ++ a :: post)) .pass =
            d :: (pre ++ a :: (post ++ [c])) := by simp [endTurn, passOn]
        rw [hring]
        refine ih d pre (post ++ [c]) ?_
        simp only [List.length_cons, List.length_append, List.length_nil] at h ⊢
        rw [show pre.length + (post.length + (0 + 1)) = pre.length + 1 + post.length from by omega]
        omega
    | leave =>
      cases pre with
      | nil =>
        cases post with
        | nil => simp [fronts, endTurn, passOn]
        | cons e post =>
          -- `a` loses its turn and is the last of a smaller ring
          refine List.mem_append_right _ ?_
          have hring : endTurn (c :: ([] ++ a :: e :: post)) .leave = e :: (post ++ a :: []) := by
            simp [endTurn, passOn]
          rw [hring]
          refine ih e post [] ?_
          simp only [List.length_cons, List.length_nil] at h ⊢
          ring_nf at h ⊢
          omega
      | cons d pre =>
        cases pre with
        | nil => simp [fronts, endTurn, passOn]
        | cons e pre =>
          refine List.mem_append_right _ ?_
          have hring : endTurn (c :: (d :: e :: pre ++ a :: post)) .leave =
              e :: (pre ++ a :: (post ++ [d])) := by simp [endTurn, passOn]
          rw [hring]
          refine ih e pre (post ++ [d]) ?_
          simp only [List.length_cons, List.length_append, List.length_nil] at h ⊢
          ring_nf at h ⊢
          omega

/-- **Everybody runs** within `n * (n - 1) / 2` turns of a ring of `n`. -/
theorem mem_fronts {a : α} {r : List α} {ts : List Turn} (ha : a ∈ r.tail)
    (hlen : r.length * (r.length - 1) ≤ 2 * ts.length) : a ∈ fronts r ts := by
  cases r with
  | nil => cases ha
  | cons c r =>
    obtain ⟨pre, post, rfl⟩ := List.append_of_mem (show a ∈ r from ha)
    refine mem_fronts_cons ts c pre post (le_trans ?_ hlen)
    simp only [List.length_cons, List.length_append, Nat.add_sub_cancel]
    ring_nf
    omega

end Ring

end MaerOS.Lib
