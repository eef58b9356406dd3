import Mathlib.Data.Int.CardIntervalMod
import Mathlib.Data.List.GetD
import Mathlib.Data.List.Nodup

/-!
# Going round a list

`visits ts d a k` are the elements met in `k` steps round the list `ts`, from position `a` on. In as
many steps as the list is long every element is met once, and in `k` steps every element is met
`⌊k / n⌋` or `⌈k / n⌉` times.
-/

set_option autoImplicit false

namespace MaerOS.Lib

variable {α : Type} {ts : List α}

/-- The elements met in `k` steps round `ts`, from position `a` on; `d` is never met. -/
def visits (ts : List α) (d : α) (a k : ℕ) : List α :=
  (List.range k).map fun j => ts.getD ((a + j) % ts.length) d

theorem visits_succ (ts : List α) (d : α) (a k : ℕ) :
    visits ts d a (k + 1) = ts.getD (a % ts.length) d :: visits ts d (a + 1) k := by
  unfold visits
  rw [List.range_succ_eq_map, List.map_cons, List.map_map, Nat.add_zero]
  congr 1
  apply List.map_congr_left
  intro j _
  simp only [Function.comp_apply]
  congr 2
  omega

theorem mem_of_mem_visits {d : α} {a k : ℕ} (hts : ts ≠ []) {t : α} (ht : t ∈ visits ts d a k) :
    t ∈ ts := by
  obtain ⟨j, -, rfl⟩ := List.mem_map.mp ht
  have hlt : (a + j) % ts.length < ts.length := Nat.mod_lt _ (List.length_pos_iff.mpr hts)
  rw [List.getD_eq_getElem _ _ hlt]
  exact List.getElem_mem hlt

variable [DecidableEq α]

/-- How often the element at position `m` is met. -/
theorem count_visits (hnd : ts.Nodup) (d : α) (a k : ℕ) {m : ℕ} (hm : m < ts.length) :
    (visits ts d a k).count ts[m] =
      k / ts.length + if (m + (ts.length - a % ts.length)) % ts.length < k % ts.length then 1 else 0 := by
  have hpos : 0 < ts.length := by omega
  have hmod := Nat.mod_lt a hpos
  have hiff : ∀ j, ts.getD ((a + j) % ts.length) d = ts[m] ↔
      j ≡ m + (ts.length - a % ts.length) [MOD ts.length] := by
    intro j
    have hlt : (a + j) % ts.length < ts.length := Nat.mod_lt _ hpos
    rw [List.getD_eq_getElem _ _ hlt, hnd.getElem_inj_iff]
    have hback : a % ts.length + (ts.length - a % ts.length) = ts.length := by omega
    constructor
    · intro h
      have h1 : a % ts.length + j ≡ a % ts.length + (m + (ts.length - a % ts.length))
          [MOD ts.length] := by
        rw [show a % ts.length + (m + (ts.length - a % ts.length)) = m + ts.length from by omega]
        unfold Nat.ModEq
        rw [Nat.mod_add_mod, Nat.add_mod_right, h, Nat.mod_eq_of_lt hm]
      exact Nat.ModEq.add_left_cancel' _ h1
    · intro h
      have h1 := Nat.ModEq.add_left (a % ts.length) h
      rw [show a % ts.length + (m + (ts.length - a % ts.length)) = m + ts.length from by omega] at h1
      unfold Nat.ModEq at h1
      rwa [Nat.mod_add_mod, Nat.add_mod_right, Nat.mod_eq_of_lt hm] at h1
  have hcount : (visits ts d a k).count ts[m] =
      k.count (· ≡ m + (ts.length - a % ts.length) [MOD ts.length]) := by
    unfold visits Nat.count List.count
    rw [List.countP_map]
    apply List.countP_congr
    intro j _
    simp only [Function.comp_apply, beq_iff_eq, decide_eq_true_eq]
    exact hiff j
  rw [hcount]
  exact Nat.count_modEq_card _ hpos _

/-- One full round meets every element once. -/
theorem visits_length_perm (hnd : ts.Nodup) (hts : ts ≠ []) (d : α) (a : ℕ) :
    (visits ts d a ts.length).Perm ts := by
  have hpos := List.length_pos_iff.mpr hts
  rw [List.perm_iff_count]
  intro t
  by_cases ht : t ∈ ts
  · obtain ⟨m, hm, rfl⟩ := List.getElem_of_mem ht
    rw [count_visits hnd d a ts.length hm, List.count_eq_one_of_mem hnd ht, Nat.mod_self,
      Nat.div_self hpos, if_neg (Nat.not_lt_zero _)]
  · rw [List.count_eq_zero_of_not_mem ht, List.count_eq_zero_of_not_mem]
    exact fun hv => ht (mem_of_mem_visits hts hv)

/-- In any number of steps the elements are met equally often, up to one. -/
theorem count_visits_bounds (hnd : ts.Nodup) (d : α) (a k : ℕ) {t : α} (ht : t ∈ ts) :
    (visits ts d a k).count t = k / ts.length ∨
      (visits ts d a k).count t = (k + ts.length - 1) / ts.length := by
  obtain ⟨m, hm, rfl⟩ := List.getElem_of_mem ht
  have hpos : 0 < ts.length := by omega
  rw [count_visits hnd d a k hm]
  split
  · rename_i hlt
    right
    rw [show k + ts.length - 1 = (k - 1) + ts.length from by
      have := Nat.mod_le k ts.length
      omega, Nat.add_div_right _ hpos]
    congr 1
    have hk : k % ts.length ≠ 0 := by omega
    have hdm := Nat.div_add_mod k ts.length
    symm
    rw [Nat.div_eq_iff hpos]
    have hml := Nat.mod_lt k hpos
    rw [Nat.mul_comm] at hdm
    omega
  · exact .inl (Nat.add_zero _)

end MaerOS.Lib
