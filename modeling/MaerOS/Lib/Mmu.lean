import MaerOS.Lib.CString

/-!
# Two-level page tables, and strings seen through them

`mmuWalk m cr3 need v` is the walk of the processor: the directory entry and the
table entry of the virtual address `v`, both with the bits `need` set, lead to a
physical address; otherwise there is a page fault. Bit 0 of an entry is "present",
bit 1 "writeable", bit 2 "user". The accessed and dirty bits, which the processor
sets by itself, are left out.

`StringThrough m walk a s` says that a reader whose addresses go through `walk`
sees the string `s` at `a`, and `strncpyThrough` is `strncpy` for such a reader and
writer. Nothing is assumed about which virtual pages share a page of memory, except
that the destination is one page, mapped where it is.
-/

set_option autoImplicit false

namespace MaerOS.Lib

/-! ## The walk -/

/-- The directory entry of a virtual address. -/
def directoryEntry (m : Memory) (cr3 v : BitVec 32) : BitVec 32 :=
  load32 m (wordAt (cr3 &&& 0xfffff000#32) (pageOf v / 1024))

/-- The table entry of a virtual address. -/
def tableEntry (m : Memory) (cr3 v : BitVec 32) : BitVec 32 :=
  load32 m (wordAt (directoryEntry m cr3 v &&& 0xfffff000#32) (pageOf v % 1024))

/-- All bits of `need` are set. -/
def Allows (need entry : BitVec 32) : Prop := entry &&& need = need

instance (need entry : BitVec 32) : Decidable (Allows need entry) :=
  inferInstanceAs (Decidable (_ = _))

/-- The physical address of a virtual one, for an access that asks for the bits `need` in both
entries. -/
def mmuWalk (m : Memory) (cr3 need v : BitVec 32) : Option (BitVec 32) :=
  if Allows need (directoryEntry m cr3 v) ∧ Allows need (tableEntry m cr3 v) then
    some ((tableEntry m cr3 v &&& 0xfffff000#32) + BitVec.ofNat 32 (v.toNat % 4096))
  else none

/-- Masking an aligned address changes nothing. -/
@[simp] theorem and_mask_of_aligned {p : BitVec 32} (hp : PageAligned p) :
    p &&& 0xfffff000#32 = p := by
  apply BitVec.eq_of_toNat_eq
  rw [and_mask_toNat]
  unfold PageAligned at hp
  omega

theorem pageAligned_and_mask (x : BitVec 32) : PageAligned (x &&& 0xfffff000#32) := by
  unfold PageAligned
  rw [and_mask_toNat]
  omega

/-- Where a translation leads. -/
theorem mmuWalk_some {m : Memory} {cr3 need v p : BitVec 32} (h : mmuWalk m cr3 need v = some p) :
    p = (tableEntry m cr3 v &&& 0xfffff000#32) + BitVec.ofNat 32 (v.toNat % 4096) := by
  unfold mmuWalk at h
  split at h
  · exact (Option.some.inj h).symm
  · cases h

/-- The walk reads two words. -/
theorem mmuWalk_congr {m m' : Memory} {cr3 need v : BitVec 32}
    (hd : directoryEntry m' cr3 v = directoryEntry m cr3 v)
    (ht : tableEntry m' cr3 v = tableEntry m cr3 v) :
    mmuWalk m' cr3 need v = mmuWalk m cr3 need v := by
  unfold mmuWalk
  rw [hd, ht]

/-- An entry made of an aligned address and flags allows what the flags allow. -/
theorem allows_or {p flags need : BitVec 32} (h : Allows need flags) : Allows need (p ||| flags) := by
  unfold Allows at *
  apply BitVec.eq_of_getLsbD_eq
  intro i hi
  have hbit := congrArg (fun x => x.getLsbD i) h
  simp only [BitVec.getLsbD_and, BitVec.getLsbD_or] at hbit ⊢
  revert hbit
  cases p.getLsbD i <;> cases flags.getLsbD i <;> cases need.getLsbD i <;> simp

/-! ## Strings through a walk -/

section Through

variable {m m' m₀ : Memory} {walk : BitVec 32 → Option (BitVec 32)} {a : BitVec 32}

/-- A reader whose addresses go through `walk` sees the string `s` at `a`. -/
def StringThrough (m : Memory) (walk : BitVec 32 → Option (BitVec 32)) :
    BitVec 32 → List (BitVec 8) → Prop
  | a, [] => (walk a).map m = some 0#8
  | a, c :: s => (walk a).map m = some c ∧ c ≠ 0#8 ∧ StringThrough m walk (a + 1#32) s

/-- Every byte of the string, the zero behind it included, has a physical address. -/
theorem StringThrough.walk_some {s : List (BitVec 8)} (h : StringThrough m walk a s) {i : ℕ}
    (hi : i ≤ s.length) : ∃ p, walk (a + BitVec.ofNat 32 i) = some p := by
  induction s generalizing a i with
  | nil =>
    obtain rfl : i = 0 := by simpa using hi
    obtain ⟨p, hp, -⟩ := Option.map_eq_some_iff.mp h
    exact ⟨p, by simpa using hp⟩
  | cons c s ih =>
    cases i with
    | zero =>
      obtain ⟨p, hp, -⟩ := Option.map_eq_some_iff.mp h.1
      exact ⟨p, by simpa using hp⟩
    | succ i =>
      rw [add_ofNat_succ]
      exact ih h.2.2 (by simpa using hi)

/-- A string is seen as long as its bytes stay and stay where they are. -/
theorem StringThrough.congr {walk' : BitVec 32 → Option (BitVec 32)} {s : List (BitVec 8)}
    (h : StringThrough m walk a s)
    (heq : ∀ i ≤ s.length, (walk' (a + BitVec.ofNat 32 i)).map m' =
      (walk (a + BitVec.ofNat 32 i)).map m) : StringThrough m' walk' a s := by
  induction s generalizing a with
  | nil =>
    have h0 := heq 0 le_rfl
    rw [show a + BitVec.ofNat 32 0 = a from by simp] at h0
    exact h0.trans h
  | cons c s ih =>
    have h0 := heq 0 (Nat.zero_le _)
    rw [show a + BitVec.ofNat 32 0 = a from by simp] at h0
    refine ⟨h0.trans h.1, h.2.1, ih h.2.2 fun i hi => ?_⟩
    rw [← add_ofNat_succ]
    exact heq (i + 1) (Nat.succ_le_succ hi)

theorem StringThrough.not_mem {s : List (BitVec 8)} (h : StringThrough m walk a s) : 0#8 ∉ s := by
  induction s generalizing a with
  | nil => simp
  | cons c s ih =>
    simp only [List.mem_cons, not_or]
    exact ⟨h.2.1.symm, ih h.2.2⟩

/-- Without translation it is a string in memory. -/
theorem stringThrough_some {s : List (BitVec 8)} : StringThrough m some a s ↔ CString m a s := by
  induction s generalizing a with
  | nil => simp [StringThrough, CString]
  | cons c s ih => simp [StringThrough, CString, ih]

end Through

/-! ## `strncpy` through a walk -/

/-- Write a byte through a walk. -/
def writeThrough (m : Memory) (walk : Memory → BitVec 32 → Option (BitVec 32)) (a : BitVec 32)
    (b : BitVec 8) : Option Memory :=
  (walk m a).map fun p => Function.update m p b

/-- The loop of `strncpy`, `n` rounds from index `i`, and the terminator, every access through
`walk`, which depends on what memory holds at the time. -/
def strncpyThrough (walk : Memory → BitVec 32 → Option (BitVec 32)) (dest src : BitVec 32) :
    (n i : ℕ) → Memory → Option Memory
  | 0, i, m => writeThrough m walk (dest + BitVec.ofNat 32 i) 0#8
  | n + 1, i, m => do
    let c ← (walk m (src + BitVec.ofNat 32 i)).map m
    if c = 0#8 then writeThrough m walk (dest + BitVec.ofNat 32 i) 0#8
    else do
      let m ← writeThrough m walk (dest + BitVec.ofNat 32 i) c
      strncpyThrough walk dest src n (i + 1) m

/-- The memories differ on one page only. -/
def DifferOnPage (m m' : Memory) (q : ℕ) : Prop := ∀ x, pageOf x ≠ q → m' x = m x

theorem DifferOnPage.refl (m : Memory) (q : ℕ) : DifferOnPage m m q := fun _ _ => rfl

theorem DifferOnPage.trans {m₁ m₂ m₃ : Memory} {q : ℕ} (h : DifferOnPage m₁ m₂ q)
    (h' : DifferOnPage m₂ m₃ q) : DifferOnPage m₁ m₃ q := by
  intro x hx
  rw [h' x hx, h x hx]

theorem differOnPage_update (m : Memory) (x : BitVec 32) (b : BitVec 8) :
    DifferOnPage m (Function.update m x b) (pageOf x) := by
  intro y hy
  apply Function.update_of_ne
  rintro rfl
  exact hy rfl

/-- A store to a word of a page changes that page only. -/
theorem differOnPage_store32 (m : Memory) {p : BitVec 32} (hp : PageAligned p) {i : ℕ}
    (hi : i < 1024) (v : BitVec 32) : DifferOnPage m (store32 m (wordAt p i) v) (pageOf p) :=
  fun _ hx => agreeOnPage_store32 hp hi v hx _ rfl

/-- So does a store of bytes to it. -/
theorem differOnPage_storeBytes (m : Memory) {p : BitVec 32} (hp : PageAligned p)
    {bs : List (BitVec 8)} (hlen : bs.length ≤ 4096) :
    DifferOnPage m (storeBytes m p bs) (pageOf p) :=
  fun _ hx => agreeOnPage_storeBytes hp hlen hx _ rfl

/-- **`strncpy` to a page that is mapped to itself.** The walk does not depend on what is on that
page, and the string seen at `src` does not lie on it. -/
theorem strncpyThrough_eq (walk : Memory → BitVec 32 → Option (BitVec 32)) (m₀ : Memory)
    {tmp : BitVec 32} (src : BitVec 32) (htmp : PageAligned tmp)
    (hself : ∀ j < 4096, walk m₀ (tmp + BitVec.ofNat 32 j) = some (tmp + BitVec.ofNat 32 j))
    (hstable : ∀ m, DifferOnPage m₀ m (pageOf tmp) → walk m = walk m₀) (n i : ℕ) {m : Memory}
    {s : List (BitVec 8)} (hm : DifferOnPage m₀ m (pageOf tmp)) (hn : i + n < 4096)
    (hs : StringThrough m₀ (walk m₀) (src + BitVec.ofNat 32 i) s)
    (hout : ∀ j ≤ s.length, ∀ p, walk m₀ (src + BitVec.ofNat 32 (i + j)) = some p →
      pageOf p ≠ pageOf tmp) :
    strncpyThrough walk tmp src n i m =
      some (storeBytes m (tmp + BitVec.ofNat 32 i) (s.take n ++ [0#8])) := by
  have hwrite : ∀ (m : Memory) (j : ℕ) (b : BitVec 8), DifferOnPage m₀ m (pageOf tmp) →
      j < 4096 → writeThrough m walk (tmp + BitVec.ofNat 32 j) b =
        some (Function.update m (tmp + BitVec.ofNat 32 j) b) := by
    intro m j b hm hj
    unfold writeThrough
    rw [hstable m hm, hself j hj]
    rfl
  induction n generalizing i m s with
  | zero =>
    unfold strncpyThrough
    rw [hwrite m i _ hm (by omega), List.take_zero, List.nil_append,
      storeBytes_cons _ _ _ (by simp), storeBytes_nil]
  | succ n ih =>
    obtain ⟨p, hp⟩ := hs.walk_some (Nat.zero_le _)
    rw [show src + BitVec.ofNat 32 i + BitVec.ofNat 32 0 = src + BitVec.ofNat 32 i from by simp] at hp
    have hpage : pageOf p ≠ pageOf tmp := hout 0 (Nat.zero_le _) p hp
    -- the byte is read as it was before the copy began
    have hread : (walk m (src + BitVec.ofNat 32 i)).map m = some (m₀ p) := by
      rw [hstable m hm, hp, Option.map_some, hm p hpage]
    unfold strncpyThrough
    rw [hread, Option.bind_eq_bind, Option.bind_some]
    cases s with
    | nil =>
      have hzero : m₀ p = 0#8 := by
        have h0 : (walk m₀ (src + BitVec.ofNat 32 i)).map m₀ = some 0#8 := hs
        rw [hp] at h0
        exact Option.some.inj h0
      rw [if_pos hzero, hwrite m i _ hm (by omega), List.take_nil, List.nil_append,
        storeBytes_cons _ _ _ (by simp), storeBytes_nil]
    | cons c s =>
      obtain ⟨hc, hnz, htail⟩ := hs
      rw [hp] at hc
      obtain rfl : m₀ p = c := Option.some.inj hc
      have hstep : ∀ a : BitVec 32, a + BitVec.ofNat 32 (i + 1) = a + BitVec.ofNat 32 i + 1#32 :=
        fun a => add_ofNat_add a i 1
      have hm' : DifferOnPage m₀ (Function.update m (tmp + BitVec.ofNat 32 i) (m₀ p))
          (pageOf tmp) := by
        refine hm.trans ?_
        rw [← pageOf_add_ofNat htmp (i := i) (by omega)]
        exact differOnPage_update _ _ _
      rw [if_neg hnz, hwrite m i _ hm (by omega), Option.bind_eq_bind, Option.bind_some,
        ih (i + 1) hm' (by omega) (by rw [hstep]; exact htail), hstep tmp]
      · rw [List.take_succ_cons, List.cons_append, storeBytes_cons]
        simp only [List.length_append, List.length_take, List.length_singleton]
        omega
      · intro j hj q hq
        refine hout (j + 1) (by simp; omega) q ?_
        rw [show i + (j + 1) = i + 1 + j from by omega]
        exact hq

end MaerOS.Lib
