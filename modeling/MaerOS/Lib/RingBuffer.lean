import Mathlib.Data.List.GetD
import Mathlib.Data.Int.ModEq
import Mathlib.Logic.Function.Basic

/-!
# Ring buffers with free-running counters

A ring buffer of `n` cells is filled at the counter `tail` and emptied at the
counter `head`; both run freely modulo `2 ^ w` and are reduced modulo `n` when a
cell is addressed. No count is kept: a cell that holds nothing holds the marker
`z`. `RingHolds` says which queue such a buffer stands for. It survives the wrap of
the counters because `n` divides `2 ^ w`.
-/

set_option autoImplicit false

namespace MaerOS.Lib

variable {α : Type} {w n : ℕ} {z : α} {cells : ℕ → α} {tail head : BitVec w} {q : List α}

/-- The cells from `head` on hold the queue `q`, oldest first, and the others the marker. -/
structure RingHolds (n : ℕ) (z : α) (cells : ℕ → α) (tail head : BitVec w) (q : List α) : Prop where
  tail_eq : tail = head + BitVec.ofNat w q.length
  bound : q.length ≤ n
  cell : ∀ i < n, cells ((head.toNat + i) % n) = q.getD i z
  marker : z ∉ q

theorem add_ofNat_mod (hn : n ∣ 2 ^ w) (c : BitVec w) (k : ℕ) :
    (c + BitVec.ofNat w k).toNat % n = (c.toNat + k) % n := by
  rw [BitVec.toNat_add, BitVec.toNat_ofNat, Nat.mod_mod_of_dvd _ hn, Nat.add_mod,
    Nat.mod_mod_of_dvd _ hn, ← Nat.add_mod]

theorem ring_index_inj {a i j : ℕ} (hi : i < n) (hj : j < n) (h : (a + i) % n = (a + j) % n) :
    i = j := by
  have h1 : i ≡ j [MOD n] := Nat.ModEq.add_left_cancel' a h
  rwa [Nat.ModEq, Nat.mod_eq_of_lt hi, Nat.mod_eq_of_lt hj] at h1

/-- A buffer of markers is the empty queue. -/
theorem RingHolds.nil (h : ∀ i < n, cells i = z) : RingHolds n z cells head head [] := by
  refine ⟨by simp, by simp, fun i hi => ?_, by simp⟩
  rw [h _ (Nat.mod_lt _ (by omega))]
  simp

/-- Writing at `tail` while a cell is left appends to the queue. -/
theorem RingHolds.put (hn : n ∣ 2 ^ w) (h : RingHolds n z cells tail head q) {a : α} (ha : a ≠ z)
    (hq : q.length < n) :
    RingHolds n z (Function.update cells (tail.toNat % n) a) (tail + 1#w) head (q ++ [a]) := by
  have hidx : tail.toNat % n = (head.toNat + q.length) % n := by
    rw [h.tail_eq, add_ofNat_mod hn]
  refine ⟨?_, by simp; omega, fun i hi => ?_, ?_⟩
  · rw [h.tail_eq, List.length_append, List.length_singleton, BitVec.ofNat_add, BitVec.add_assoc]
  · rw [hidx]
    by_cases hi' : i = q.length
    · subst hi'
      simp
    · have hne : (head.toNat + i) % n ≠ (head.toNat + q.length) % n := by
        intro he
        exact hi' (ring_index_inj hi hq he)
      rw [Function.update_of_ne hne, h.cell i hi]
      rcases Nat.lt_or_gt_of_ne hi' with hlt | hgt
      · rw [List.getD_append _ _ _ _ hlt]
      · rw [List.getD_eq_default _ _ (by omega), List.getD_eq_default _ _ (by simp; omega)]
  · simp [h.marker, ha.symm]

/-- The cell at `head` of an empty queue holds the marker. -/
theorem RingHolds.head_nil (hn : 0 < n) (h : RingHolds n z cells tail head []) :
    cells (head.toNat % n) = z := by
  have h0 := h.cell 0 hn
  simpa using h0

/-- The cell at `head` holds the oldest entry. -/
theorem RingHolds.head_cons {a : α} (h : RingHolds n z cells tail head (a :: q)) :
    cells (head.toNat % n) = a := by
  have hb : (a :: q).length ≤ n := h.bound
  have h0 := h.cell 0 (by simp at hb; omega)
  simpa using h0

/-- Clearing the cell at `head` and stepping on removes the oldest entry. -/
theorem RingHolds.take (hn : n ∣ 2 ^ w) {a : α} (h : RingHolds n z cells tail head (a :: q)) :
    RingHolds n z (Function.update cells (head.toNat % n) z) tail (head + 1#w) q := by
  have hb : q.length + 1 ≤ n := h.bound
  refine ⟨?_, by omega, fun i hi => ?_, fun hz => h.marker (List.mem_cons_of_mem a hz)⟩
  · rw [h.tail_eq, List.length_cons, Nat.add_comm, BitVec.ofNat_add, BitVec.add_assoc]
  · have hidx : ((head + 1#w).toNat + i) % n = (head.toNat + (i + 1)) % n := by
      rw [← Nat.mod_add_mod, show (1#w : BitVec w) = BitVec.ofNat w 1 from rfl, add_ofNat_mod hn,
        Nat.mod_add_mod]
      congr 1
      omega
    rw [hidx]
    by_cases hlast : i + 1 < n
    · have hne : (head.toNat + (i + 1)) % n ≠ head.toNat % n := by
        intro he
        have h0 := ring_index_inj (a := head.toNat) (j := 0) hlast (by omega) (by simpa using he)
        omega
      rw [Function.update_of_ne hne, h.cell _ hlast]
      simp
    · -- the cell after the last one is the one just cleared
      have hlen : i + 1 = n := by omega
      rw [hlen, Nat.add_mod_right, Function.update_self, List.getD_eq_default _ _ (by omega)]

end MaerOS.Lib
