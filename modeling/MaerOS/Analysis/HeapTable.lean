import MaerOS.Lib.RunTable
import MaerOS.Model.Heap
import Mathlib.Tactic.IntervalCases

/-!
# What the three loops of the block allocator do to the table

`heapGetStartBlock_spec` gives the three ways the scan of `heap_get_start_block`
can end, `heapMarkBlocksTaken_spec` and `heapMarkBlocksFree_run` say that marking
writes one encoded run and that freeing wipes exactly one run. Everything later
about the heap goes through these three and never unfolds the loops again.

The scan is the delicate one: it ends in `StartBlock.tail` when the table ends in
free blocks but no free run is long enough, and then a block is returned all the
same.
-/

set_option autoImplicit false

namespace MaerOS.Analysis

open MaerOS.Lib MaerOS.Model

/-! ## The encoding of a run -/

/-- The table byte of block `j` of a run of `n` blocks. -/
def runEntry (n j : ℕ) : HeapBlockTableEntry :=
  heapBlockTableEntryTaken ||| (if j = 0 then heapBlockIsFirst else 0#8) |||
    (if j + 1 < n then heapBlockHasNext else 0#8)

/-- The scan takes block `i` for free. -/
def IsFree (e : ℤ → HeapBlockTableEntry) (i : ℕ) : Prop :=
  heapGetEntryType (e i) = heapBlockTableEntryFree

instance (e : ℤ → HeapBlockTableEntry) (i : ℕ) : Decidable (IsFree e i) :=
  inferInstanceAs (Decidable (_ = _))

/-- The `n` blocks from `s` on are free. -/
def FreeBlocks (e : ℤ → HeapBlockTableEntry) (s n : ℕ) : Prop := ∀ j < n, IsFree e (s + j)

/-- Some `n` consecutive blocks of the table are free. -/
def HasFreeRun (e : ℤ → HeapBlockTableEntry) (total n : ℕ) : Prop :=
  ∃ s, s + n ≤ total ∧ FreeBlocks e s n

/-- The table does not end in a free block. -/
def LastTaken (e : ℤ → HeapBlockTableEntry) (total : ℕ) : Prop :=
  total = 0 ∨ ¬ IsFree e (total - 1)

/-- The bits of an encoded entry, by whether it is the first and whether it is the last. -/
theorem runEntry_cases (n j : ℕ) :
    runEntry n j = 0x41#8 ∨ runEntry n j = 0xC1#8 ∨ runEntry n j = 0x01#8 ∨
      runEntry n j = 0x81#8 := by
  unfold runEntry heapBlockTableEntryTaken heapBlockIsFirst heapBlockHasNext
  split_ifs <;> decide

theorem runEntry_type_ne (n j : ℕ) : heapGetEntryType (runEntry n j) ≠ heapBlockTableEntryFree := by
  rcases runEntry_cases n j with h | h | h | h <;> rw [h] <;> decide

theorem runEntry_ne_free (n j : ℕ) : runEntry n j ≠ heapBlockTableEntryFree := by
  intro h
  exact runEntry_type_ne n j (by rw [h]; decide)

/-- An entry of a run carries `HAS_NEXT` exactly when it is not the last one. -/
theorem runEntry_hasNext (n j : ℕ) : runEntry n j &&& heapBlockHasNext = 0#8 ↔ ¬ j + 1 < n := by
  unfold runEntry heapBlockTableEntryTaken heapBlockIsFirst heapBlockHasNext
  split_ifs with h0 h1 h1
  · exact iff_of_false (by decide) (not_not_intro h1)
  · exact iff_of_true (by decide) h1
  · exact iff_of_false (by decide) (not_not_intro h1)
  · exact iff_of_true (by decide) h1

/-! ## The scan -/

/-- How the scan for `n` blocks can end. -/
inductive StartBlock (e : ℤ → HeapBlockTableEntry) (total n : ℕ) : ℤ → Prop
  /-- The lowest run of `n` free blocks was found. -/
  | found (s : ℕ) (hn : 1 ≤ n) (hin : s + n ≤ total) (hfree : FreeBlocks e s n)
      (hleast : ∀ s' < s, ¬ FreeBlocks e s' n) : StartBlock e total n s
  /-- There is no such run, but the table ends in the free blocks `[s, total)`. -/
  | tail (s : ℕ) (hin : s < total) (hfree : FreeBlocks e s (total - s))
      (hbefore : s = 0 ∨ ¬ IsFree e (s - 1)) (hno : 1 ≤ n → ¬ HasFreeRun e total n) :
      StartBlock e total n s
  /-- There is no such run and the last block is taken. -/
  | fail (hno : 1 ≤ n → ¬ HasFreeRun e total n) (hlast : LastTaken e total) :
      StartBlock e total n (-1)

/-- The invariant of the scan at index `i`: `block_start` and `block_current` describe the
free blocks that end at `i`, and no run of `n` free blocks ends at or before `i`. -/
structure ScanInv (e : ℤ → HeapBlockTableEntry) (n i : ℕ) (block_current block_start : ℤ) :
    Prop where
  row : (block_start = -1 ∧ block_current = 0 ∧ (i = 0 ∨ ¬ IsFree e (i - 1))) ∨
    ∃ s : ℕ, block_start = s ∧ s < i ∧ block_current = i - s ∧ FreeBlocks e s (i - s) ∧
      (s = 0 ∨ ¬ IsFree e (s - 1))
  noRun : 1 ≤ n → ∀ s, s + n ≤ i → ¬ FreeBlocks e s n

/-- The start of the row of free blocks that ends with the free block `i`. -/
theorem ScanInv.extend {e : ℤ → HeapBlockTableEntry} {n i : ℕ} {block_current block_start : ℤ}
    (h : ScanInv e n i block_current block_start) (hi : IsFree e i) :
    ∃ s : ℕ, (if block_start = -1 then (i : ℤ) else block_start) = s ∧ s < i + 1 ∧
      block_current + 1 = (i + 1 : ℕ) - s ∧ FreeBlocks e s (i + 1 - s) ∧
      (s = 0 ∨ ¬ IsFree e (s - 1)) := by
  rcases h.row with ⟨rfl, rfl, hbefore⟩ | ⟨s, rfl, hs, rfl, hfree, hbefore⟩
  · refine ⟨i, by simp, by omega, by omega, ?_, hbefore⟩
    intro j hj
    obtain rfl : j = 0 := by omega
    exact hi
  · refine ⟨s, by simp, by omega, by omega, ?_, hbefore⟩
    intro j hj
    by_cases hlast : s + j = i
    · rw [hlast]
      exact hi
    · exact hfree j (by omega)

/-- The scan loop, started in a state that satisfies the invariant, ends as `StartBlock` says. -/
theorem heapGetStartBlockLoop_spec (e : ℤ → HeapBlockTableEntry) (total n : ℕ) :
    ∀ (remaining i : ℕ) (block_current block_start : ℤ), i + remaining = total →
      ScanInv e n i block_current block_start →
      StartBlock e total n (heapGetStartBlockLoop e n remaining i block_current block_start) := by
  intro remaining
  induction remaining with
  | zero =>
    intro i block_current block_start hi hinv
    obtain rfl : i = total := by omega
    have hno : 1 ≤ n → ¬ HasFreeRun e i n := by
      rintro hn ⟨s, hs, hfree⟩
      exact hinv.noRun hn s hs hfree
    rcases hinv.row with ⟨rfl, -, hbefore⟩ | ⟨s, rfl, hs, -, hfree, hbefore⟩
    · exact .fail hno hbefore
    · exact .tail s hs hfree hbefore hno
  | succ remaining ih =>
    intro i block_current block_start hi hinv
    unfold heapGetStartBlockLoop
    by_cases hfree : IsFree e i
    · rw [if_neg (show ¬ heapGetEntryType (e i) ≠ heapBlockTableEntryFree from not_not_intro hfree)]
      obtain ⟨s, hstart, hs, hcur, hrow, hbefore⟩ := hinv.extend hfree
      dsimp only
      rw [hstart, hcur]
      split
      · rename_i hn
        -- the row has just reached the length asked for
        have hlen : i + 1 - s = n := by omega
        rw [hlen] at hrow
        refine .found s (by omega) (by omega) hrow ?_
        intro s' hs'
        exact hinv.noRun (by omega) s' (by omega)
      · rename_i hn
        refine ih (i + 1) _ _ (by omega) ⟨.inr ⟨s, rfl, hs, rfl, hrow, hbefore⟩, ?_⟩
        intro hn1 s' hs' hrun
        by_cases hold : s' + n ≤ i
        · exact hinv.noRun hn1 s' hold hrun
        · -- a run ending exactly here would start inside the row, or at the taken block before it
          rcases Nat.lt_or_ge s' s with hlt | hge
          · have hbad : ¬ IsFree e (s - 1) := hbefore.resolve_left (by omega)
            have := hrun (s - 1 - s') (by omega)
            rw [show s' + (s - 1 - s') = s - 1 from by omega] at this
            exact hbad this
          · -- the row would then have had length `n` before this block
            have hrow' := hinv.row
            rcases hrow' with ⟨hb, -, -⟩ | ⟨s₀, hb, hs₀, -, -, -⟩
            · rw [hb, if_pos rfl] at hstart
              omega
            · rw [hb, if_neg (by omega)] at hstart
              have : s₀ = s := by omega
              subst this
              have hlt : n < i + 1 - s₀ := by omega
              exact hinv.noRun hn1 s₀ (by omega) fun j hj => hrow j (by omega)
    · rw [if_pos (show heapGetEntryType (e i) ≠ heapBlockTableEntryFree from hfree)]
      refine ih (i + 1) 0 (-1) (by omega) ⟨.inl ⟨rfl, rfl, .inr (by simpa using hfree)⟩, ?_⟩
      intro hn s hs hrun
      by_cases hold : s + n ≤ i
      · exact hinv.noRun hn s hold hrun
      · have := hrun (i - s) (by omega)
        rw [show s + (i - s) = i from by omega] at this
        exact hfree this

/-- **The scan of `heap_get_start_block`.** Its result is the lowest run of `n` free blocks; or,
with no such run, the start of the free blocks at the end of the table; or `-ENOMEM`. -/
theorem heapGetStartBlock_spec (h : Heap) (n : ℕ) :
    (∃ s : ℕ, heapGetStartBlock h n = s ∧ StartBlock h.table.entries h.table.total n s) ∨
      (heapGetStartBlock h n = -enomem ∧ StartBlock h.table.entries h.table.total n (-1)) := by
  have hscan := heapGetStartBlockLoop_spec h.table.entries h.table.total n h.table.total 0 0 (-1)
    (by omega) ⟨.inl ⟨rfl, rfl, .inl rfl⟩, fun hn s hs => by omega⟩
  unfold heapGetStartBlock
  generalize heapGetStartBlockLoop h.table.entries n h.table.total 0 0 (-1) = r at hscan
  cases hscan with
  | found s hn hin hfree hleast =>
    exact .inl ⟨s, by rw [if_neg (by omega)], .found s hn hin hfree hleast⟩
  | tail s hin hfree hbefore hno =>
    exact .inl ⟨s, by rw [if_neg (by omega)], .tail s hin hfree hbefore hno⟩
  | fail hno hlast => exact .inr ⟨by rw [if_pos rfl], .fail hno hlast⟩

/-! ## Marking -/

@[simp] theorem store_total (h : Heap) (i : ℤ) (x : HeapBlockTableEntry) :
    (h.store i x).table.total = h.table.total := rfl

@[simp] theorem store_saddr (h : Heap) (i : ℤ) (x : HeapBlockTableEntry) :
    (h.store i x).saddr = h.saddr := rfl

@[simp] theorem store_entries (h : Heap) (i : ℤ) (x : HeapBlockTableEntry) :
    (h.store i x).table.entries = Function.update h.table.entries i x := rfl

@[simp] theorem store_stores (h : Heap) (i : ℤ) (x : HeapBlockTableEntry) :
    (h.store i x).stores = i :: h.stores := rfl

/-- `h'` differs from `h` in the entries `[b, b + n)` of the table at most: they hold `e'`, and
the code stored to no other entry. -/
structure Rewrites (h h' : Heap) (b : ℤ) (n : ℕ) (e' : ℤ → HeapBlockTableEntry) : Prop where
  entries : h'.table.entries = e'
  total : h'.table.total = h.table.total
  saddr : h'.saddr = h.saddr
  stores : ∀ i ∈ h'.stores, i ∈ h.stores ∨ (b ≤ i ∧ i < b + n)

/-- The value computed one iteration ahead is the encoding of the next entry of the run. -/
theorem markedAhead (b : ℤ) (n k : ℕ) (hk : k + 1 < n) :
    (if b + k ≠ b + n - 1 - 1 then heapBlockTableEntryTaken ||| heapBlockHasNext
      else heapBlockTableEntryTaken) = runEntry n (k + 1) := by
  unfold runEntry
  by_cases hlast : k + 2 = n
  · rw [if_neg (by omega), if_neg (by omega), if_neg (by omega)]
    decide
  · rw [if_pos (by omega), if_neg (by omega), if_pos (by omega)]
    decide

/-- The marking loop with `m` entries to go writes the last `m` entries of the run. -/
theorem heapMarkBlocksTakenLoop_spec (b : ℤ) (n : ℕ) :
    ∀ (m k : ℕ) (x : HeapBlockTableEntry) (h : Heap), k + m = n → (1 ≤ m → x = runEntry n k) →
      Rewrites h (heapMarkBlocksTakenLoop (b + n - 1) m (b + k) x h) (b + k) m
        (fun i => if b + k ≤ i ∧ i < b + n then runEntry n (i - b).toNat else h.table.entries i) := by
  intro m
  induction m with
  | zero =>
    intro k x h hk _
    refine ⟨?_, rfl, rfl, fun i hi => .inl hi⟩
    funext i
    rw [if_neg (by omega)]
    rfl
  | succ m ih =>
    intro k x h hk hx
    unfold heapMarkBlocksTakenLoop
    dsimp only
    rw [show b + k + 1 = b + ((k + 1 : ℕ) : ℤ) from by omega]
    obtain ⟨he, ht, hs, hst⟩ := ih (k + 1)
      (if b + k ≠ b + n - 1 - 1 then heapBlockTableEntryTaken ||| heapBlockHasNext
        else heapBlockTableEntryTaken) (h.store (b + k) x) (by omega)
      (fun _ => markedAhead b n k (by omega))
    refine ⟨?_, ht, hs, ?_⟩
    · rw [he]
      funext i
      by_cases hik : i = b + k
      · subst hik
        rw [if_neg (by omega), if_pos (by omega), store_entries, Function.update_self,
          hx (by omega)]
        congr 1
        omega
      · rw [store_entries, Function.update_of_ne hik]
        by_cases hin : b + ((k + 1 : ℕ) : ℤ) ≤ i ∧ i < b + n
        · rw [if_pos hin, if_pos (by omega)]
        · rw [if_neg hin, if_neg (by omega)]
    · intro i hi
      rcases hst i hi with hi | hi
      · rw [store_stores, List.mem_cons] at hi
        rcases hi with rfl | hi
        · exact .inr (by omega)
        · exact .inl hi
      · exact .inr (by omega)

/-- **`heap_mark_blocks_taken`** writes the encoded run and nothing else. -/
theorem heapMarkBlocksTaken_spec (h : Heap) (b : ℤ) (n : ℕ) :
    Rewrites h (heapMarkBlocksTaken h b n) b n (fill runEntry h.table.entries b n) := by
  have hloop := heapMarkBlocksTakenLoop_spec b n n 0
    (if (n : ℤ) > 1 then heapBlockTableEntryTaken ||| heapBlockIsFirst ||| heapBlockHasNext
      else heapBlockTableEntryTaken ||| heapBlockIsFirst) h (by omega) (by
        intro hn
        unfold runEntry
        by_cases h1 : 1 < n
        · rw [if_pos (by omega), if_pos rfl, if_pos (by omega)]
        · rw [if_neg (by omega), if_pos rfl, if_neg (by omega)]
          decide)
  simp only [Nat.cast_zero, add_zero] at hloop
  unfold heapMarkBlocksTaken
  dsimp only
  rwa [show (b + n - 1 + 1 - b).toNat = n from by omega]

/-! ## Freeing -/

/-- The entry tells the freeing loop to go on. -/
def HasNext (x : HeapBlockTableEntry) : Prop := x &&& heapBlockHasNext ≠ 0#8

instance (x : HeapBlockTableEntry) : Decidable (HasNext x) := inferInstanceAs (Decidable (_ ≠ _))

/-- An entry of a run carries `HAS_NEXT` exactly when it is not the last one. -/
theorem hasNext_runEntry (n j : ℕ) : HasNext (runEntry n j) ↔ j + 1 < n := by
  unfold HasNext
  rw [ne_eq, runEntry_hasNext, not_not]

theorem not_hasNext_free : ¬ HasNext heapBlockTableEntryFree := by decide

/-- The freeing loop wipes an interval; it went past every entry but the last of it because of
`HAS_NEXT`, and past the last one only at the end of the table. -/
theorem heapMarkBlocksFreeLoop_spec :
    ∀ (n : ℕ) (i : ℤ) (h : Heap), ∃ m ≤ n,
      Rewrites h (heapMarkBlocksFreeLoop n i h) i m
        (clear heapBlockTableEntryFree h.table.entries i m) ∧
      (∀ j, j + 1 < m → HasNext (h.table.entries (i + j))) ∧
      (m < n → 1 ≤ m ∧ ¬ HasNext (h.table.entries (i + m - 1))) := by
  intro n
  induction n with
  | zero =>
    intro i h
    refine ⟨0, le_rfl, ⟨?_, rfl, rfl, fun j hj => .inl hj⟩, fun j hj => by omega, fun h => by omega⟩
    funext j
    rw [clear_outside (by omega)]
    rfl
  | succ n ih =>
    intro i h
    unfold heapMarkBlocksFreeLoop
    dsimp only
    by_cases hnext : HasNext (h.table.entries i)
    · rw [if_neg hnext]
      obtain ⟨m, hm, ⟨he, ht, hs, hst⟩, hgo, hstop⟩ :=
        ih (i + 1) (h.store i heapBlockTableEntryFree)
      have hsame : ∀ x, x ≠ i →
          (h.store i heapBlockTableEntryFree).table.entries x = h.table.entries x := by
        intro x hx
        rw [store_entries, Function.update_of_ne hx]
      refine ⟨m + 1, by omega, ⟨?_, ht, hs, ?_⟩, ?_, ?_⟩
      · rw [he]
        funext x
        by_cases hx : x = i
        · subst hx
          rw [clear_outside (by omega), clear_inside (by omega) (by omega), store_entries,
            Function.update_self]
        · by_cases hin : i + 1 ≤ x ∧ x < i + 1 + m
          · rw [clear_inside hin.1 hin.2, clear_inside (by omega) (by omega)]
          · rw [clear_outside (by omega), clear_outside (by omega), hsame x hx]
      · intro x hx
        rcases hst x hx with hx | hx
        · rw [store_stores, List.mem_cons] at hx
          rcases hx with rfl | hx
          · exact .inr (by omega)
          · exact .inl hx
        · exact .inr (by omega)
      · intro j hj
        rcases Nat.eq_zero_or_pos j with rfl | hpos
        · simpa using hnext
        · have := hgo (j - 1) (by omega)
          rw [hsame _ (by omega), show i + 1 + ((j - 1 : ℕ) : ℤ) = i + j from by omega] at this
          exact this
      · intro hlt
        obtain ⟨hm1, hlast⟩ := hstop (by omega)
        rw [hsame _ (by omega), show i + 1 + m - 1 = i + ((m + 1 : ℕ) : ℤ) - 1 from by omega] at hlast
        exact ⟨by omega, hlast⟩
    · rw [if_pos (by simpa [HasNext] using hnext)]
      refine ⟨1, by omega, ⟨?_, rfl, rfl, ?_⟩, fun j hj => by omega, fun _ => ⟨le_rfl, ?_⟩⟩
      · funext x
        by_cases hx : x = i
        · subst hx
          rw [clear_inside (by omega) (by omega), store_entries, Function.update_self]
        · rw [clear_outside (by omega), store_entries, Function.update_of_ne hx]
      · intro x hx
        rw [store_stores, List.mem_cons] at hx
        rcases hx with rfl | hx
        · exact .inr (by omega)
        · exact .inl hx
      · rw [show i + ((1 : ℕ) : ℤ) - 1 = i from by omega]
        exact hnext

/-- **`heap_mark_blocks_free` on an encoded run** wipes exactly that run. -/
theorem heapMarkBlocksFree_run (h : Heap) (b n : ℕ) (hn : 1 ≤ n) (hin : b + n ≤ h.table.total)
    (hrun : ∀ j < n, h.table.entries ((b + j : ℕ) : ℤ) = runEntry n j) :
    Rewrites h (heapMarkBlocksFree h b) b n (clear heapBlockTableEntryFree h.table.entries b n) := by
  unfold heapMarkBlocksFree
  obtain ⟨m, hm, hrw, hgo, hstop⟩ :=
    heapMarkBlocksFreeLoop_spec (h.table.total - (b : ℤ)).toNat b h
  have hlast : ¬ HasNext (h.table.entries ((b + (n - 1) : ℕ) : ℤ)) := by
    rw [hrun (n - 1) (by omega), hasNext_runEntry]
    omega
  -- the loop neither runs past the last entry of the run nor stops before it
  have hle : m ≤ n := by
    by_contra hgt
    have := hgo (n - 1) (by omega)
    rw [show (b : ℤ) + ((n - 1 : ℕ) : ℤ) = ((b + (n - 1) : ℕ) : ℤ) from by omega] at this
    exact hlast this
  have hge : n ≤ m := by
    by_contra hlt
    obtain ⟨hm1, hno⟩ := hstop (by omega)
    rw [show (b : ℤ) + m - 1 = ((b + (m - 1) : ℕ) : ℤ) from by omega, hrun (m - 1) (by omega),
      hasNext_runEntry] at hno
    omega
  obtain rfl : m = n := le_antisymm hle hge
  exact hrw

end MaerOS.Analysis
