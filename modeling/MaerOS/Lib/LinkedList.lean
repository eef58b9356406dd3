import Mathlib.Data.List.Basic
import Mathlib.Data.List.Nodup
import Mathlib.Logic.Function.Basic

/-!
# Doubly linked lists

Nodes are addresses, and the links are two functions `next` and `prev` on them.
`Linked p ts e` says that the nodes `ts` are linked in this order, that `p` is in
front of the first and that the last one points to `e`. Splitting such a segment in
two (`linked_append`) reduces every edit to the one or two nodes it changes, and
`Linked.congr` takes care of the others.
-/

set_option autoImplicit false

namespace MaerOS.Lib

section LinkedList

variable {α : Type} (next prev : α → α)

/-- The nodes `ts` are linked one to the next, from behind `p` to in front of `e`. -/
def Linked : α → List α → α → Prop
  | _, [], _ => True
  | p, t :: ts, e => prev t = p ∧ next t = ts.headD e ∧ Linked t ts e

/-- The first `n` nodes met when following `next` from `t` on, up to `null`. -/
def follow [DecidableEq α] (null : α) : ℕ → α → List α
  | 0, _ => []
  | n + 1, t => if t = null then [] else t :: follow null n (next t)

variable {next prev}

/-- The first node of two segments put together. -/
theorem headD_append (xs ys : List α) (e : α) : (xs ++ ys).headD e = xs.headD (ys.headD e) := by
  cases xs <;> rfl

/-- A segment can be cut anywhere. -/
theorem linked_append (p e : α) (xs ys : List α) :
    Linked next prev p (xs ++ ys) e ↔
      Linked next prev p xs (ys.headD e) ∧ Linked next prev (xs.getLastD p) ys e := by
  induction xs generalizing p with
  | nil => simp [Linked]
  | cons x xs ih =>
    have hlast : (x :: xs).getLastD p = xs.getLastD x := by
      cases xs <;> rfl
    rw [List.cons_append, hlast]
    show prev x = p ∧ next x = (xs ++ ys).headD e ∧ Linked next prev x (xs ++ ys) e ↔
      (prev x = p ∧ next x = xs.headD (ys.headD e) ∧ Linked next prev x xs (ys.headD e)) ∧ _
    rw [ih x, headD_append]
    constructor
    · rintro ⟨h1, h2, h3, h4⟩
      exact ⟨⟨h1, h2, h3⟩, h4⟩
    · rintro ⟨⟨h1, h2, h3⟩, h4⟩
      exact ⟨h1, h2, h3, h4⟩

/-- One node at the end. -/
theorem linked_concat (p e t : α) (xs : List α) :
    Linked next prev p (xs ++ [t]) e ↔
      Linked next prev p xs t ∧ prev t = xs.getLastD p ∧ next t = e := by
  rw [linked_append]
  simp [Linked]

/-- Only the links of the nodes themselves matter. -/
theorem Linked.congr {next' prev' : α → α} {p e : α} {ts : List α} (h : Linked next prev p ts e)
    (hn : ∀ t ∈ ts, next' t = next t) (hp : ∀ t ∈ ts, prev' t = prev t) :
    Linked next' prev' p ts e := by
  induction ts generalizing p with
  | nil => trivial
  | cons t ts ih =>
    obtain ⟨h1, h2, h3⟩ := h
    refine ⟨by rw [hp t List.mem_cons_self, h1], by rw [hn t List.mem_cons_self, h2], ?_⟩
    exact ih h3 (fun x hx => hn x (List.mem_cons_of_mem _ hx))
      (fun x hx => hp x (List.mem_cons_of_mem _ hx))

/-- Following `next` visits a segment that ends at `null`, and stops there. -/
theorem Linked.follow_eq [DecidableEq α] {null p : α} {ts : List α}
    (h : Linked next prev p ts null) (hnull : null ∉ ts) :
    ∀ n, ts.length ≤ n → follow next null n (ts.headD null) = ts := by
  induction ts generalizing p with
  | nil =>
    intro n _
    cases n with
    | zero => rfl
    | succ n => simp [follow]
  | cons t ts ih =>
    intro n hn
    obtain ⟨-, h2, h3⟩ := h
    cases n with
    | zero => simp at hn
    | succ n =>
      have htn : t ≠ null := fun heq => hnull (heq ▸ List.mem_cons_self)
      rw [List.headD_cons, follow, if_neg htn, h2,
        ih h3 (fun hm => hnull (List.mem_cons_of_mem _ hm)) n (by simpa using hn)]

/-- The node in front of the `i`-th one. -/
theorem Linked.prev_getElem {p e : α} {ts : List α} (h : Linked next prev p ts e) :
    ∀ i (hi : i < ts.length), prev ts[i] = (p :: ts).getD i p := by
  induction ts generalizing p with
  | nil =>
    intro i hi
    simp at hi
  | cons t ts ih =>
    intro i hi
    obtain ⟨h1, -, h3⟩ := h
    cases i with
    | zero => exact h1
    | succ i =>
      have hi' : i < ts.length := by simpa using hi
      have hit : i < (t :: ts).length := by simp; omega
      have hrest := ih h3 i hi'
      rw [List.getElem_cons_succ, hrest, List.getD_cons_succ, List.getD_eq_getElem?_getD,
        List.getD_eq_getElem?_getD, List.getElem?_eq_getElem hit]
      rfl

/-- The links of a segment lead to its own nodes, or out of it at one of the two ends. -/
theorem Linked.mem_links {p e : α} {ts : List α} (h : Linked next prev p ts e) :
    ∀ t ∈ ts, (next t = e ∨ next t ∈ ts) ∧ (prev t = p ∨ prev t ∈ ts) := by
  induction ts generalizing p with
  | nil => simp
  | cons s ts ih =>
    obtain ⟨h1, h2, h3⟩ := h
    intro t ht
    rcases List.mem_cons.mp ht with rfl | ht
    · refine ⟨?_, .inl h1⟩
      rw [h2]
      cases ts with
      | nil => exact .inl rfl
      | cons x xs => exact .inr (by simp)
    · obtain ⟨hn, hp⟩ := ih h3 t ht
      refine ⟨hn.imp_right (List.mem_cons_of_mem _), .inr ?_⟩
      rcases hp with hp | hp
      · rw [hp]
        exact List.mem_cons_self
      · exact List.mem_cons_of_mem _ hp

/-- A segment whose last node is made to point elsewhere. -/
theorem Linked.relast {p e e' null : α} {ts : List α} (h : Linked next prev p ts e)
    (hnodup : ts.Nodup) {next' prev' : α → α}
    (hn : ∀ x ∈ ts, x ≠ ts.getLastD null → next' x = next x)
    (hlast : ts ≠ [] → next' (ts.getLastD null) = e') (hp : ∀ x ∈ ts, prev' x = prev x) :
    Linked next' prev' p ts e' := by
  rcases List.eq_nil_or_concat ts with rfl | ⟨xs, l, rfl⟩
  · trivial
  · rw [List.concat_eq_append] at *
    have hl : (xs ++ [l]).getLastD null = l := by simp
    rw [hl] at hn hlast
    obtain ⟨hinit, hprev, -⟩ := (linked_concat _ _ _ _).mp h
    have hxl : l ∉ xs := by
      rw [List.nodup_append] at hnodup
      intro hm
      exact hnodup.2.2 l hm l (by simp) rfl
    rw [linked_concat]
    refine ⟨hinit.congr (fun x hx => hn x (by simp [hx]) ?_) (fun x hx => hp x (by simp [hx])),
      by rw [hp l (by simp), hprev], hlast (by simp)⟩
    exact fun heq => hxl (heq ▸ hx)

/-- **Appending a node** behind the last one. -/
theorem Linked.push {null t : α} {ts : List α} (h : Linked next prev null ts null)
    (hnodup : ts.Nodup) {next' prev' : α → α}
    (hn : ∀ x ∈ ts, x ≠ ts.getLastD null → next' x = next x)
    (hlast : ts ≠ [] → next' (ts.getLastD null) = t) (hnt : next' t = null)
    (hp : ∀ x ∈ ts, prev' x = prev x) (hpt : prev' t = ts.getLastD null) :
    Linked next' prev' null (ts ++ [t]) null :=
  (linked_concat _ _ _ _).mpr ⟨h.relast hnodup hn hlast hp, hpt, hnt⟩

/-- **Removing the last node**: the one in front of it becomes the last. -/
theorem Linked.pop {null t : α} {ts : List α} (h : Linked next prev null (ts ++ [t]) null)
    (hnodup : ts.Nodup) {next' prev' : α → α}
    (hn : ∀ x ∈ ts, x ≠ ts.getLastD null → next' x = next x)
    (hlast : ts ≠ [] → next' (ts.getLastD null) = null)
    (hp : ∀ x ∈ ts, prev' x = prev x) : Linked next' prev' null ts null :=
  ((linked_concat _ _ _ _).mp h).1.relast hnodup hn hlast hp

end LinkedList

/-! ## Forward links alone -/

section Leads

variable {α : Type} {next next' : α → α}

/-- The nodes `ts` are linked forward in this order, and the last one points to `e`. -/
def Leads (next : α → α) : List α → α → Prop
  | [], _ => True
  | t :: ts, e => next t = ts.headD e ∧ Leads next ts e

theorem Linked.leads {prev : α → α} {p e : α} {ts : List α} (h : Linked next prev p ts e) :
    Leads next ts e := by
  induction ts generalizing p with
  | nil => trivial
  | cons t ts ih => exact ⟨h.2.1, ih h.2.2⟩

/-- A segment can be cut anywhere. -/
theorem leads_append (e : α) (xs ys : List α) :
    Leads next (xs ++ ys) e ↔ Leads next xs (ys.headD e) ∧ Leads next ys e := by
  induction xs with
  | nil => simp [Leads]
  | cons x xs ih =>
    show next x = (xs ++ ys).headD e ∧ Leads next (xs ++ ys) e ↔
      (next x = xs.headD (ys.headD e) ∧ Leads next xs (ys.headD e)) ∧ _
    rw [ih, headD_append, and_assoc]

/-- Only the links of the nodes themselves matter. -/
theorem Leads.congr {e : α} {ts : List α} (h : Leads next ts e)
    (hn : ∀ t ∈ ts, next' t = next t) : Leads next' ts e := by
  induction ts with
  | nil => trivial
  | cons t ts ih =>
    exact ⟨(hn t List.mem_cons_self).trans h.1, ih h.2 fun x hx => hn x (List.mem_cons_of_mem _ hx)⟩

/-- The links lead to the nodes, or out at the end. -/
theorem Leads.mem_next {e : α} {ts : List α} (h : Leads next ts e) {t : α} (ht : t ∈ ts) :
    next t = e ∨ next t ∈ ts := by
  induction ts with
  | nil => cases ht
  | cons s ts ih =>
    rcases List.mem_cons.mp ht with rfl | ht
    · rw [h.1]
      cases ts with
      | nil => exact .inl rfl
      | cons x xs => exact .inr (by simp)
    · exact (ih h.2 ht).imp_right (List.mem_cons_of_mem _)

/-- Following `next` visits a segment that ends at `null`. -/
theorem Leads.follow_eq [DecidableEq α] {null : α} {ts : List α} (h : Leads next ts null)
    (hnull : null ∉ ts) (n : ℕ) : follow next null n (ts.headD null) = ts.take n := by
  induction ts generalizing n with
  | nil => cases n <;> simp [follow]
  | cons t ts ih =>
    cases n with
    | zero => rfl
    | succ n =>
      have htn : t ≠ null := fun heq => hnull (heq ▸ List.mem_cons_self)
      rw [List.headD_cons, follow, if_neg htn, h.1, List.take_succ_cons,
        ih h.2 fun hm => hnull (List.mem_cons_of_mem _ hm)]

end Leads

end MaerOS.Lib
