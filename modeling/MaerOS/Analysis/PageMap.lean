import MaerOS.Model.Paging
import Mathlib.Logic.Function.Basic

/-!
# Page tables in memory as one map from pages to entries

`ChunkAt mem chunk shape pm` says that the chunk, its directory and its 1024 page
tables are laid out in memory as `shape` says, on pages of their own, and that the
entry of virtual page `p` is `pm p`. Every mapping function of `paging.c` keeps
that picture and acts on `pm`: `paging_set` changes one page, `paging_map_range`
the pages of an interval that wraps around at the end of the address space
(`mapPages`), and neither touches a page of memory that is not one of the tables.
-/

set_option autoImplicit false

namespace MaerOS.Analysis

open MaerOS.Lib MaerOS.Model

/-- Where the parts of a chunk are. -/
structure ChunkShape where
  dir : Addr
  tables : ℕ → Addr

/-- The chunk lies in memory as `shape` says and maps page `p` to the entry `pm p`. -/
structure ChunkAt (mem : Memory) (chunk : Addr) (shape : ChunkShape) (pm : ℕ → BitVec 32) :
    Prop where
  chunk_aligned : PageAligned chunk
  dir_aligned : PageAligned shape.dir
  tables_aligned : ∀ i < 1024, PageAligned (shape.tables i)
  chunk_ne_dir : chunk ≠ shape.dir
  tables_ne_chunk : ∀ i < 1024, shape.tables i ≠ chunk
  tables_ne_dir : ∀ i < 1024, shape.tables i ≠ shape.dir
  tables_inj : ∀ i < 1024, ∀ j < 1024, shape.tables i = shape.tables j → i = j
  chunk_word : load32 mem chunk = shape.dir
  dir_word : ∀ i < 1024, load32 mem (wordAt shape.dir i) &&& 0xfffff000#32 = shape.tables i
  entry : ∀ p < 2 ^ 20, load32 mem (wordAt (shape.tables (p / 1024)) (p % 1024)) = pm p

/-- The pages of memory a chunk occupies. -/
def ChunkShape.Occupies (shape : ChunkShape) (chunk : Addr) (q : ℕ) : Prop :=
  q = pageOf chunk ∨ q = pageOf shape.dir ∨ ∃ i < 1024, q = pageOf (shape.tables i)

/-- The first word of a page is at its start. -/
theorem wordAt_zero (p : Addr) : wordAt p 0 = p := by
  unfold wordAt
  simp

/-- A chunk stays where its pages are left alone. -/
theorem ChunkAt.frame {mem mem' : Memory} {chunk : Addr} {shape : ChunkShape} {pm : ℕ → BitVec 32}
    (h : ChunkAt mem chunk shape pm)
    (hagree : ∀ q, shape.Occupies chunk q → AgreeOnPage mem mem' q) :
    ChunkAt mem' chunk shape pm := by
  refine { h with chunk_word := ?_, dir_word := ?_, entry := ?_ }
  · have := (hagree _ (.inl rfl)).load32 h.chunk_aligned (i := 0) (by omega)
    rw [wordAt_zero] at this
    rw [this, h.chunk_word]
  · intro i hi
    rw [(hagree _ (.inr (.inl rfl))).load32 h.dir_aligned hi, h.dir_word i hi]
  · intro p hp
    have hi : p / 1024 < 1024 := by omega
    rw [(hagree _ (.inr (.inr ⟨p / 1024, hi, rfl⟩))).load32 (h.tables_aligned _ hi)
      (Nat.mod_lt _ (by omega)), h.entry p hp]

/-! ## One page -/

/-- The two indices of an aligned address are those of its page number. -/
theorem pagingGetIndexes_aligned {virt : Addr} (hv : PageAligned virt) :
    pagingGetIndexes virt = (0, pageOf virt / 1024, pageOf virt % 1024) := by
  have hlt := virt.isLt
  unfold PageAligned at hv
  unfold pagingGetIndexes pagingIsAligned pageOf
  simp only [pagingPageSize, pagingTotalEntriesPerTable, hv, beq_self_eq_true, Bool.not_true,
    Bool.false_eq_true, if_false, Prod.mk.injEq, true_and]
  omega

theorem pageOf_lt (v : Addr) : pageOf v < 2 ^ 20 := by
  have := v.isLt
  unfold pageOf
  omega

/-- `paging_set` on an aligned address is one store. -/
theorem pagingSet_eq {mem : Memory} {chunk : Addr} {shape : ChunkShape} {pm : ℕ → BitVec 32}
    (h : ChunkAt mem chunk shape pm) {virt : Addr} (hv : PageAligned virt) (val : BitVec 32) :
    pagingSet mem shape.dir virt val =
      (0, store32 mem (wordAt (shape.tables (pageOf virt / 1024)) (pageOf virt % 1024)) val) := by
  have hlt := pageOf_lt virt
  unfold pagingSet
  rw [if_neg (by
    unfold PageAligned at hv
    simp [pagingIsAligned, hv]), pagingGetIndexes_aligned hv]
  simp only [wordIndex, lt_self_iff_false, if_false, h.dir_word _ (show pageOf virt / 1024 < 1024 by omega)]

/-- **`paging_set`** on an aligned address changes the entry of that page and nothing else in the
map, and stores to one page of memory only. -/
theorem pagingSet_spec {mem : Memory} {chunk : Addr} {shape : ChunkShape} {pm : ℕ → BitVec 32}
    (h : ChunkAt mem chunk shape pm) {virt : Addr} (hv : PageAligned virt) (val : BitVec 32) :
    ∃ mem', pagingSet mem shape.dir virt val = (0, mem') ∧
      ChunkAt mem' chunk shape (Function.update pm (pageOf virt) val) ∧
      ∀ q, (∀ i < 1024, q ≠ pageOf (shape.tables i)) → AgreeOnPage mem mem' q := by
  have hlt := pageOf_lt virt
  have hi : pageOf virt / 1024 < 1024 := by omega
  have hj : pageOf virt % 1024 < 1024 := by omega
  have hta := h.tables_aligned _ hi
  have hframe : ∀ q, q ≠ pageOf (shape.tables (pageOf virt / 1024)) → AgreeOnPage mem
      (store32 mem (wordAt (shape.tables (pageOf virt / 1024)) (pageOf virt % 1024)) val) q :=
    fun q hq => agreeOnPage_store32 hta hj val hq
  refine ⟨_, pagingSet_eq h hv val, { h with chunk_word := ?_, dir_word := ?_, entry := ?_ },
    fun q hq => ?_⟩
  · have hq := hframe (pageOf chunk) fun heq =>
      h.tables_ne_chunk _ hi (eq_of_pageOf_eq h.chunk_aligned hta heq).symm
    have := hq.load32 h.chunk_aligned (i := 0) (by omega)
    rw [wordAt_zero] at this
    rw [this, h.chunk_word]
  · intro i hi'
    have hq := hframe (pageOf shape.dir) fun heq =>
      h.tables_ne_dir _ hi (eq_of_pageOf_eq h.dir_aligned hta heq).symm
    rw [hq.load32 h.dir_aligned hi', h.dir_word i hi']
  · intro p hp
    have hpi : p / 1024 < 1024 := by omega
    have hpj : p % 1024 < 1024 := by omega
    by_cases hpv : p = pageOf virt
    · subst hpv
      rw [load32_store32_self, Function.update_self]
    · rw [Function.update_of_ne hpv, load32_store32_of_ne (wordAt_mod hta hj)
        (wordAt_mod (h.tables_aligned _ hpi) hpj), h.entry p hp]
      -- the two words differ in the table or in the place within it
      intro heq
      obtain ⟨htab, hidx⟩ := wordAt_inj hta (h.tables_aligned _ hpi) hj hpj heq
      have := h.tables_inj _ hi _ hpi htab
      omega
  · exact hframe q (hq _ hi)

/-- `paging_map` on aligned addresses is `paging_set` of the address with its flags. -/
theorem pagingMap_eq {mem : Memory} {chunk : Addr} {shape : ChunkShape} {pm : ℕ → BitVec 32}
    (h : ChunkAt mem chunk shape pm) {virt phys : Addr} (hv : PageAligned virt)
    (hp : PageAligned phys) (flags : BitVec 32) :
    pagingMap mem chunk virt phys flags = pagingSet mem shape.dir virt (phys ||| flags) := by
  unfold PageAligned at hv hp
  unfold pagingMap
  rw [if_neg (by
    simp only [pagingPageSize]
    omega), h.chunk_word]

/-! ## A range of pages -/

/-- How many pages `p` is after `vp`, going round at the end of the address space. -/
def pageDist (vp p : ℕ) : ℕ := (p + 2 ^ 20 - vp) % 2 ^ 20

/-- The map after `count` pages from `vp` on are mapped to consecutive pages from `phys` on. -/
def mapPages (pm : ℕ → BitVec 32) (vp : ℕ) (phys : Addr) (count : ℕ) (flags : BitVec 32) :
    ℕ → BitVec 32 := fun p =>
  if p < 2 ^ 20 ∧ pageDist vp p < count then
    (phys + BitVec.ofNat 32 (4096 * pageDist vp p)) ||| flags
  else pm p

/-- Mapping no page changes nothing. -/
theorem mapPages_zero (pm : ℕ → BitVec 32) (vp : ℕ) (phys : Addr) (flags : BitVec 32) :
    mapPages pm vp phys 0 flags = pm := by
  funext p
  unfold mapPages
  rw [if_neg (by omega)]

/-- Mapping the first page and then the others is mapping the range. -/
theorem mapPages_succ (pm : ℕ → BitVec 32) {vp count : ℕ} (phys : Addr) (flags : BitVec 32)
    (hvp : vp < 2 ^ 20) (hcount : count + 1 ≤ 2 ^ 20) :
    mapPages (Function.update pm vp (phys ||| flags)) ((vp + 1) % 2 ^ 20)
      (phys + BitVec.ofNat 32 4096) count flags = mapPages pm vp phys (count + 1) flags := by
  funext p
  unfold mapPages
  by_cases hp : p < 2 ^ 20
  · by_cases hpv : p = vp
    · subst hpv
      have h0 : pageDist p p = 0 := by
        unfold pageDist
        omega
      have h1 : pageDist ((p + 1) % 2 ^ 20) p = 2 ^ 20 - 1 := by
        unfold pageDist
        omega
      rw [if_neg (by omega), if_pos (by omega), Function.update_self, h0]
      simp
    · have hd : pageDist vp p = pageDist ((vp + 1) % 2 ^ 20) p + 1 := by
        unfold pageDist
        omega
      by_cases hin : pageDist ((vp + 1) % 2 ^ 20) p < count
      · rw [if_pos ⟨hp, hin⟩, if_pos (by omega), hd, BitVec.add_assoc, ← BitVec.ofNat_add]
        congr 3
        ring
      · rw [if_neg (by omega), if_neg (by omega), Function.update_of_ne hpv]
  · rw [if_neg (by omega), if_neg (by omega), Function.update_of_ne (by omega)]

/-- The next page, which wraps at the end of memory. -/
theorem pageOf_add_page {virt : Addr} (hv : PageAligned virt) :
    PageAligned (virt + BitVec.ofNat 32 4096) ∧
      pageOf (virt + BitVec.ofNat 32 4096) = (pageOf virt + 1) % 2 ^ 20 := by
  have := virt.isLt
  unfold PageAligned at *
  unfold pageOf
  rw [BitVec.toNat_add, BitVec.toNat_ofNat]
  omega

/-- **`paging_map_range`** on aligned addresses maps a range of pages. -/
theorem pagingMapRange_spec {chunk : Addr} {shape : ChunkShape} (flags : BitVec 32) :
    ∀ (count : ℕ) (mem : Memory) (pm : ℕ → BitVec 32) (virt phys : Addr), count ≤ 2 ^ 20 →
      ChunkAt mem chunk shape pm → PageAligned virt → PageAligned phys →
      ∃ mem', pagingMapRange chunk flags count mem virt phys 0 = (0, mem') ∧
        ChunkAt mem' chunk shape (mapPages pm (pageOf virt) phys count flags) ∧
        ∀ q, (∀ i < 1024, q ≠ pageOf (shape.tables i)) → AgreeOnPage mem mem' q := by
  intro count
  induction count with
  | zero =>
    intro mem pm virt phys _ h _ _
    refine ⟨mem, rfl, ?_, fun q _ x _ => rfl⟩
    rw [mapPages_zero]
    exact h
  | succ count ih =>
    intro mem pm virt phys hcount h hv hp
    obtain ⟨mem₁, hset, h₁, hframe₁⟩ := pagingSet_spec h hv (phys ||| flags)
    obtain ⟨hv', hpv'⟩ := pageOf_add_page hv
    obtain ⟨hp', -⟩ := pageOf_add_page hp
    obtain ⟨mem₂, hrest, h₂, hframe₂⟩ := ih mem₁ _ _ _ (by omega) h₁ hv' hp'
    refine ⟨mem₂, ?_, ?_, fun q hq x hx => ?_⟩
    · unfold pagingMapRange
      rw [pagingMap_eq h hv hp, hset]
      exact hrest
    · rw [hpv', mapPages_succ pm phys flags (pageOf_lt virt) hcount] at h₂
      exact h₂
    · rw [hframe₂ q hq x hx, hframe₁ q hq x hx]

/-! ## `paging_map_to` -/

/-- The arguments `paging_map_to` accepts. -/
def MapToValid (virt phys phys_end : Addr) : Prop :=
  PageAligned virt ∧ PageAligned phys ∧ PageAligned phys_end ∧ phys ≤ phys_end

instance (virt phys phys_end : Addr) : Decidable (MapToValid virt phys phys_end) :=
  inferInstanceAs (Decidable (_ ∧ _))

/-- Rejected arguments leave memory as it is. -/
theorem pagingMapTo_invalid {virt phys phys_end : Addr} (hinv : ¬ MapToValid virt phys phys_end)
    (mem : Memory) (chunk : Addr) (flags : BitVec 32) :
    pagingMapTo mem chunk virt phys phys_end flags = (-einvarg, mem) := by
  unfold MapToValid PageAligned at hinv
  unfold pagingMapTo
  simp only [pagingPageSize]
  by_cases h1 : virt.toNat % 4096 = 0
  · by_cases h2 : phys.toNat % 4096 = 0
    · by_cases h3 : phys_end.toNat % 4096 = 0
      · rw [if_neg (by omega), if_neg (by omega), if_neg (by omega), if_pos]
        exact BitVec.not_le.mp fun hle => hinv ⟨h1, h2, h3, hle⟩
      · rw [if_neg (by omega), if_neg (by omega), if_pos (by omega)]
    · rw [if_neg (by omega), if_pos (by omega)]
  · rw [if_pos (by omega)]

/-- **`paging_map_to`** on accepted arguments maps `(phys_end - phys) / 4096` pages. -/
theorem pagingMapTo_valid {mem : Memory} {chunk : Addr} {shape : ChunkShape} {pm : ℕ → BitVec 32}
    (h : ChunkAt mem chunk shape pm) {virt phys phys_end : Addr}
    (hval : MapToValid virt phys phys_end) (flags : BitVec 32) :
    ∃ mem', pagingMapTo mem chunk virt phys phys_end flags = (0, mem') ∧
      ChunkAt mem' chunk shape
        (mapPages pm (pageOf virt) phys ((phys_end - phys).toNat / 4096) flags) ∧
      ∀ q, (∀ i < 1024, q ≠ pageOf (shape.tables i)) → AgreeOnPage mem mem' q := by
  obtain ⟨hv, hp, he, hle⟩ := hval
  have hlt := (phys_end - phys).isLt
  obtain ⟨mem', hcode, hrest⟩ := pagingMapRange_spec flags ((phys_end - phys).toNat / 4096) mem pm
    virt phys (by omega) h hv hp
  refine ⟨mem', ?_, hrest⟩
  unfold PageAligned at hv hp he
  unfold pagingMapTo
  simp only [pagingPageSize]
  rw [if_neg (by omega), if_neg (by omega), if_neg (by omega), if_neg (BitVec.not_lt.mpr hle)]
  exact hcode

/-! ## Reading the map -/

/-- The page an address lies in starts at its rounded-down address. -/
theorem pagingAlignToLowerPage_spec (v : Addr) :
    PageAligned (pagingAlignToLowerPage v) ∧ pageOf (pagingAlignToLowerPage v) = pageOf v ∧
      (v - pagingAlignToLowerPage v).toNat = v.toNat % 4096 := by
  have := v.isLt
  have htn : (pagingAlignToLowerPage v).toNat = v.toNat / 4096 * 4096 := by
    unfold pagingAlignToLowerPage
    rw [BitVec.toNat_sub, BitVec.toNat_ofNat]
    simp only [pagingPageSize]
    omega
  unfold PageAligned pageOf
  rw [BitVec.toNat_sub, htn]
  omega

/-- The other rounded address is the start of a page as well. -/
theorem pageAligned_pagingAlignAddress (ptr : Addr) : PageAligned (pagingAlignAddress ptr) := by
  unfold PageAligned pagingAlignAddress
  simp only [pagingPageSize]
  split
  · rw [BitVec.toNat_sub, BitVec.toNat_add ptr, BitVec.toNat_ofNat, BitVec.toNat_ofNat]
    omega
  · omega

/-- **`paging_get`** reads the entry of a page. -/
theorem pagingGet_spec {mem : Memory} {chunk : Addr} {shape : ChunkShape} {pm : ℕ → BitVec 32}
    (h : ChunkAt mem chunk shape pm) {virt : Addr} (hv : PageAligned virt) :
    pagingGet mem shape.dir virt = pm (pageOf virt) := by
  have hlt := pageOf_lt virt
  unfold pagingGet
  rw [pagingGetIndexes_aligned hv]
  dsimp only [wordIndex]
  rw [h.dir_word _ (by omega), h.entry _ hlt]

/-- **`paging_get_physical_address`** combines the page of the entry with the offset. -/
theorem pagingGetPhysicalAddress_spec {mem : Memory} {chunk : Addr} {shape : ChunkShape}
    {pm : ℕ → BitVec 32} (h : ChunkAt mem chunk shape pm) (v : Addr) :
    pagingGetPhysicalAddress mem shape.dir v =
      (pm (pageOf v) &&& 0xfffff000#32) + (v - pagingAlignToLowerPage v) := by
  obtain ⟨ha, hpage, -⟩ := pagingAlignToLowerPage_spec v
  unfold pagingGetPhysicalAddress
  dsimp only
  rw [pagingGet_spec h ha, hpage]

section Lookup

variable {mem : Memory} {chunk : Addr} {shape : ChunkShape} {pm : ℕ → BitVec 32}

/-- The entry that an address is looked up in. -/
theorem ChunkAt.get (h : ChunkAt mem chunk shape pm) (v : Addr) :
    pagingGet mem (load32 mem chunk) (pagingAlignToLowerPage v) = pm (pageOf v) := by
  obtain ⟨ha, hpage, -⟩ := pagingAlignToLowerPage_spec v
  rw [h.chunk_word, pagingGet_spec h ha, hpage]

/-- The physical address behind an entry made of a page and flags. -/
theorem ChunkAt.physical (h : ChunkAt mem chunk shape pm) {v page flags : BitVec 32}
    (hentry : pm (pageOf v) = page ||| flags) (hpage : PageAligned page)
    (hflags : flags.toNat < 4096) : pagingGetPhysicalAddress mem (load32 mem chunk) v =
      page + (v - pagingAlignToLowerPage v) := by
  rw [h.chunk_word, pagingGetPhysicalAddress_spec h, hentry, or_flags_and_mask hpage hflags]

end Lookup

end MaerOS.Analysis
