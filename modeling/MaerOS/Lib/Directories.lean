import Mathlib.Data.Option.Basic

/-!
# Resolving a path in directories

A directory finds an item by its name, and some items can be entered again. A path is a
list of names. `resolve` is the meaning of a path; `lookup` is the loop that goes from one
item to the next and looks at the item only when there is a further name to find, so
that it is stuck where nothing was found before. `lookup_isSome_iff` says when
that happens, and `lookup_eq_resolve` that it is the only thing that goes wrong.
-/

set_option autoImplicit false

namespace MaerOS.Lib

/-- Directories `δ` in which items `ι` are found by names `ν`. -/
structure Directories (δ ν ι : Type) where
  find : δ → ν → Option ι
  enter : ι → Option δ

namespace Directories

section Meaning

variable {δ ν ι : Type} (t : Directories δ ν ι)

/-- The item of a path. -/
def resolve : δ → List ν → Option ι
  | _, [] => none
  | d, [n] => t.find d n
  | d, n :: m :: rest => ((t.find d n).bind t.enter).bind fun d' => resolve d' (m :: rest)

/-- Along the path from `d` one gets to the directory `d'`, with the name `n` to find next and
`rest` behind it. -/
inductive Reaches : δ → List ν → δ → ν → List ν → Prop
  | here {d : δ} {n : ν} {rest : List ν} : Reaches d (n :: rest) d n rest
  | enter {d d₁ d' : δ} {n m : ν} {i : ι} {ns rest : List ν} : t.find d n = some i →
      t.enter i = some d₁ → Reaches d₁ ns d' m rest → Reaches d (n :: ns) d' m rest

/-- Some name is not in the directory reached so far, or is that of an item that cannot be entered
and is not the last one. -/
def Broken (d : δ) (ns : List ν) : Prop :=
  ∃ d' n rest, t.Reaches d ns d' n rest ∧
    (t.find d' n = none ∨ rest ≠ [] ∧ ∃ i, t.find d' n = some i ∧ t.enter i = none)

/-- A name that is not in the directory reached so far is the first or the last one. -/
def MissingAtEnds (d : δ) (ns : List ν) : Prop :=
  ∀ d' n rest, t.Reaches d ns d' n rest → t.find d' n = none →
    rest = [] ∨ rest.length + 1 = ns.length

/-- The loop over the names behind the first: no outcome where there is a further name but no
item. -/
def walk : Option ι → List ν → Option (Option ι)
  | found, [] => some found
  | none, _ :: _ => none
  | some i, n :: rest =>
    match t.enter i with
    | none => some none
    | some d => walk (t.find d n) rest

/-- The lookup of a path: only the first item is looked at before the loop. -/
def lookup (d : δ) : List ν → Option (Option ι)
  | [] => none
  | n :: rest =>
    match t.find d n with
    | none => some none
    | some i => t.walk (some i) rest

end Meaning

section Paths

variable {δ ν ι : Type} {t : Directories δ ν ι} {d : δ} {n : ν} {ns : List ν}

theorem reaches_singleton {d' : δ} {m : ν} {rest : List ν} :
    t.Reaches d [n] d' m rest ↔ d' = d ∧ m = n ∧ rest = [] := by
  constructor
  · intro h
    cases h with
    | here => exact ⟨rfl, rfl, rfl⟩
    | enter _ _ h => cases h
  · rintro ⟨rfl, rfl, rfl⟩
    exact .here

/-- Behind the first name there is the directory it enters. -/
theorem reaches_cons {d' : δ} {m : ν} {rest : List ν} :
    t.Reaches d (n :: ns) d' m rest ↔ (d' = d ∧ m = n ∧ rest = ns) ∨
      ∃ i d₁, t.find d n = some i ∧ t.enter i = some d₁ ∧ t.Reaches d₁ ns d' m rest := by
  constructor
  · intro h
    cases h with
    | here => exact .inl ⟨rfl, rfl, rfl⟩
    | enter hfind henter h => exact .inr ⟨_, _, hfind, henter, h⟩
  · rintro (⟨rfl, rfl, rfl⟩ | ⟨i, d₁, hfind, henter, h⟩)
    · exact .here
    · exact .enter hfind henter h

theorem Reaches.length_lt {d' : δ} {m : ν} {rest : List ν} (h : t.Reaches d ns d' m rest) :
    rest.length < ns.length := by
  induction h with
  | here => simp
  | enter _ _ _ ih =>
    rw [List.length_cons]
    omega

theorem broken_singleton : t.Broken d [n] ↔ t.find d n = none := by
  constructor
  · rintro ⟨d', m, rest, hreach, hbreak⟩
    obtain ⟨rfl, rfl, rfl⟩ := reaches_singleton.mp hreach
    exact hbreak.resolve_right fun h => h.1 rfl
  · intro hnone
    exact ⟨d, n, [], .here, .inl hnone⟩

/-- A path of two names or more breaks at the first one or behind it. -/
theorem broken_cons {m : ν} : t.Broken d (n :: m :: ns) ↔
    t.find d n = none ∨ ∃ i, t.find d n = some i ∧
      (t.enter i = none ∨ ∃ d₁, t.enter i = some d₁ ∧ t.Broken d₁ (m :: ns)) := by
  constructor
  · rintro ⟨d', k, rest, hreach, hbreak⟩
    rcases reaches_cons.mp hreach with ⟨rfl, rfl, rfl⟩ | ⟨i, d₁, hfind, henter, hreach⟩
    · rcases hbreak with hnone | ⟨-, i, hfind, henter⟩
      · exact .inl hnone
      · exact .inr ⟨i, hfind, .inl henter⟩
    · exact .inr ⟨i, hfind, .inr ⟨d₁, henter, d', k, rest, hreach, hbreak⟩⟩
  · rintro (hnone | ⟨i, hfind, henter | ⟨d₁, henter, d', k, rest, hreach, hbreak⟩⟩)
    · exact ⟨d, n, m :: ns, .here, .inl hnone⟩
    · exact ⟨d, n, m :: ns, .here, .inr ⟨by simp, i, hfind, henter⟩⟩
    · exact ⟨d', k, rest, .enter hfind henter hreach, hbreak⟩

/-- **A path has no item** exactly when it is broken. -/
theorem resolve_eq_none_iff (t : Directories δ ν ι) (ns : List ν) : ∀ (n : ν) (d : δ),
    t.resolve d (n :: ns) = none ↔ t.Broken d (n :: ns) := by
  induction ns with
  | nil =>
    intro n d
    rw [broken_singleton, resolve]
  | cons m ns ih =>
    intro n d
    rw [broken_cons, resolve]
    cases hfind : t.find d n with
    | none => simp
    | some i =>
      cases henter : t.enter i with
      | none => simp [henter]
      | some d₁ => simp [henter, ih]

/-- The loop ends with the item of the path, if it ends. -/
theorem walk_eq_resolve (t : Directories δ ν ι) (ns : List ν) : ∀ (n : ν) (d : δ) (o : Option ι),
    t.walk (t.find d n) ns = some o → o = t.resolve d (n :: ns) := by
  induction ns with
  | nil =>
    intro n d o h
    rw [walk] at h
    rw [resolve, Option.some.inj h]
  | cons m ns ih =>
    intro n d o h
    rw [resolve]
    cases hfind : t.find d n with
    | none =>
      rw [hfind] at h
      cases h
    | some i =>
      rw [hfind, walk] at h
      cases henter : t.enter i with
      | none =>
        rw [henter] at h
        simp [henter, ← Option.some.inj h]
      | some d₁ =>
        rw [henter] at h
        simp [henter, ih m d₁ o h]

/-- The loop ends unless a name is missing that is not the last. -/
theorem walk_isSome_iff (t : Directories δ ν ι) (ns : List ν) : ∀ (n : ν) (d : δ),
    (t.walk (t.find d n) ns).isSome ↔ ∀ d' m rest, t.Reaches d (n :: ns) d' m rest →
      t.find d' m = none → rest = [] := by
  induction ns with
  | nil =>
    intro n d
    refine iff_of_true rfl fun d' m rest hreach _ => ?_
    exact (reaches_singleton.mp hreach).2.2
  | cons m ns ih =>
    intro n d
    cases hfind : t.find d n with
    | none =>
      refine iff_of_false (by simp [walk]) fun hall => ?_
      exact absurd (hall d n (m :: ns) .here hfind) (by simp)
    | some i =>
      rw [walk]
      cases henter : t.enter i with
      | none =>
        refine iff_of_true rfl fun d' k rest hreach hnone => ?_
        rcases reaches_cons.mp hreach with ⟨rfl, rfl, rfl⟩ | ⟨i', d₁, hfind', henter', -⟩
        · simp [hfind] at hnone
        · cases hfind.symm.trans hfind'
          simp [henter] at henter'
      | some d₁ =>
        dsimp only
        rw [ih m d₁]
        constructor
        · intro hall d' k rest hreach hnone
          rcases reaches_cons.mp hreach with ⟨rfl, rfl, rfl⟩ | ⟨i', d₂, hfind', henter', hreach⟩
          · simp [hfind] at hnone
          · cases hfind.symm.trans hfind'
            cases henter.symm.trans henter'
            exact hall d' k rest hreach hnone
        · intro hall d' k rest hreach hnone
          exact hall d' k rest (.enter hfind henter hreach) hnone

theorem lookup_of_none (h : t.find d n = none) : t.lookup d (n :: ns) = some none := by
  simp [lookup, h]

theorem lookup_of_some {i : ι} (h : t.find d n = some i) :
    t.lookup d (n :: ns) = t.walk (t.find d n) ns := by
  simp [lookup, h]

/-- **The lookup ends** exactly when only the first or the last name can be missing. -/
theorem lookup_isSome_iff (t : Directories δ ν ι) (d : δ) (n : ν) (ns : List ν) :
    (t.lookup d (n :: ns)).isSome ↔ t.MissingAtEnds d (n :: ns) := by
  cases hfind : t.find d n with
  | none =>
    rw [lookup_of_none hfind]
    refine iff_of_true rfl fun d' m rest hreach _ => ?_
    rcases reaches_cons.mp hreach with ⟨-, -, rfl⟩ | ⟨i, d₁, hfind', -, -⟩
    · exact .inr rfl
    · simp [hfind] at hfind'
  | some i =>
    rw [lookup_of_some hfind, walk_isSome_iff]
    constructor
    · intro hall d' m rest hreach hnone
      exact .inl (hall d' m rest hreach hnone)
    · intro hall d' m rest hreach hnone
      rcases hall d' m rest hreach hnone with hnil | hlength
      · exact hnil
      · -- it is the first name, which was found
        rcases reaches_cons.mp hreach with ⟨rfl, rfl, rfl⟩ | ⟨i', d₁, -, -, hreach⟩
        · simp [hfind] at hnone
        · have := hreach.length_lt
          rw [List.length_cons] at hlength
          omega

/-- **Where the lookup ends** it is right. -/
theorem lookup_eq_resolve {o : Option ι} (h : t.lookup d (n :: ns) = some o) :
    o = t.resolve d (n :: ns) := by
  cases hfind : t.find d n with
  | none =>
    rw [lookup_of_none hfind] at h
    have hbroken : t.Broken d (n :: ns) := ⟨d, n, ns, .here, .inl hfind⟩
    rw [(resolve_eq_none_iff t ns n d).mpr hbroken, ← Option.some.inj h]
  | some i =>
    rw [lookup_of_some hfind] at h
    exact walk_eq_resolve t ns n d o h

/-- Where the path leads to an item, the walk gets there. -/
theorem walk_of_resolve (ns : List ν) : ∀ (n : ν) (d : δ) {i : ι},
    t.resolve d (n :: ns) = some i → t.walk (t.find d n) ns = some (some i) := by
  induction ns with
  | nil =>
    intro n d i h
    rw [show t.find d n = some i from h, walk]
  | cons m ns ih =>
    intro n d i h
    obtain ⟨d₁, hd₁, hrest⟩ := Option.bind_eq_some_iff.mp h
    obtain ⟨j, hj, henter⟩ := Option.bind_eq_some_iff.mp hd₁
    rw [hj, walk, henter]
    exact ih m d₁ hrest

theorem lookup_of_resolve {i : ι} (h : t.resolve d (n :: ns) = some i) :
    t.lookup d (n :: ns) = some (some i) := by
  have hwalk := walk_of_resolve ns n d h
  cases hfind : t.find d n with
  | none =>
    rw [hfind] at hwalk
    cases ns with
    | nil => cases hwalk
    | cons m ns => cases hwalk
  | some j => rw [lookup_of_some hfind, hwalk]

end Paths

end Directories

end MaerOS.Lib
