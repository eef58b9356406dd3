import Mathlib.Data.List.GetD
import Mathlib.Data.List.Nodup
import MaerOS.Lib.Prog
import MaerOS.Model.Kernel
import MaerOS.Analysis.PageMap

/-!
# `paging_new_4gb`

The function makes 1026 allocations: the directory, 1024 page tables and the
chunk. `pagingNew4gb_spec` lists their addresses in order, says that the function
does nothing to the kernel state beyond these allocations and the memory it fills,
and, provided the addresses are distinct and page-aligned, that the chunk it
returns maps every page to itself with the flags asked for, and what the words of its
directory are.

The tables are built one after the other, so the induction carries a frame: a
later round leaves the table of an earlier round, and its word in the directory,
alone.
-/

set_option autoImplicit false

namespace MaerOS.Analysis

open MaerOS.Lib MaerOS.Model

/-! ## Allocations -/

/-- `h'` is the heap after `kzalloc(size)` returned the addresses `ps`, none of them null, one
after the other. -/
def AllocChain (size : BitVec 32) : Heap → List Addr → Heap → Prop
  | h, [], h' => h = h'
  | h, p :: ps, h' => ∃ h₁, h.kzalloc size = some (p, h₁) ∧ p ≠ 0#32 ∧ AllocChain size h₁ ps h'

/-- `k'` differs from `k` in the heap, the memory and the record of allocations only. -/
structure OnlyMemory (k k' : Kernel) : Prop where
  sched : k'.sched = k.sched
  procs : k'.procs = k.procs
  elfs : k'.elfs = k.elfs
  processes : k'.processes = k.processes
  current_process : k'.current_process = k.current_process
  kfrees : k'.kfrees = k.kfrees

/-- Nothing changed. -/
theorem OnlyMemory.refl (k : Kernel) : OnlyMemory k k := ⟨rfl, rfl, rfl, rfl, rfl, rfl⟩

theorem OnlyMemory.trans {a b c : Kernel} (h : OnlyMemory a b) (h' : OnlyMemory b c) :
    OnlyMemory a c :=
  ⟨h'.sched.trans h.sched, h'.procs.trans h.procs, h'.elfs.trans h.elfs,
    h'.processes.trans h.processes, h'.current_process.trans h.current_process,
    h'.kfrees.trans h.kfrees⟩

theorem OnlyMemory.setMem {a b : Kernel} (h : OnlyMemory a b) (m : Memory) :
    OnlyMemory a { b with mem := m } :=
  ⟨h.sched, h.procs, h.elfs, h.processes, h.current_process, h.kfrees⟩

/-- What an allocation of the kernel does to the heap, the memory and its list. -/
theorem kzalloc_some {size : BitVec 32} {k k' : Kernel} {ptr : Addr}
    (h : kzalloc size k = some (ptr, k')) :
    k.heap.kzalloc size = some (ptr, k'.heap) ∧
      k'.mem = (if ptr = 0#32 then k.mem else zeroFill k.mem ptr size.toNat) ∧
      k'.kallocs = ptr :: k.kallocs ∧ OnlyMemory k k' := by
  unfold kzalloc at h
  split at h
  · cases h
  · rename_i p heap heq
    cases h
    exact ⟨heq, rfl, rfl, rfl, rfl, rfl, rfl, rfl, rfl⟩

/-- A pointer that was dereferenced is not null, and the state is unchanged. -/
theorem deref_some {p : Addr} {k k' : Kernel} {u : Unit} (h : deref p k = some (u, k')) :
    p ≠ 0#32 ∧ k' = k := by
  unfold deref at h
  split at h
  · cases h
  · rename_i hp
    cases h
    exact ⟨hp, rfl⟩

theorem deref_of_ne {p : Addr} (hp : p ≠ 0#32) (k : Kernel) : deref p k = some ((), k) := by
  unfold deref
  rw [if_neg hp]

/-! ## Filling a table -/

/-- Store the words `v 0, …, v (n - 1)` to the page `p`. -/
def fillWords (m : Memory) (p : Addr) (v : ℕ → BitVec 32) (n : ℕ) : Memory :=
  (List.range n).foldl (fun m b => store32 m (wordAt p b) (v b)) m

/-- Filling one word more. -/
theorem fillWords_succ (m : Memory) (p : Addr) (v : ℕ → BitVec 32) (n : ℕ) :
    fillWords m p v (n + 1) = store32 (fillWords m p v n) (wordAt p n) (v n) := by
  unfold fillWords
  rw [List.range_succ, List.foldl_append]
  rfl

/-- A word that was filled in. -/
theorem load32_fillWords {m : Memory} {p : Addr} (hp : PageAligned p) (v : ℕ → BitVec 32) {n : ℕ}
    (hn : n ≤ 1024) {j : ℕ} (hj : j < n) : load32 (fillWords m p v n) (wordAt p j) = v j := by
  induction n with
  | zero => omega
  | succ n ih =>
    rw [fillWords_succ]
    by_cases hjn : j = n
    · subst hjn
      exact load32_store32_self _ _ _
    · rw [load32_store32_of_ne (wordAt_mod hp (by omega)) (wordAt_mod hp (by omega))
        (fun h => hjn (wordAt_inj hp hp (by omega) (by omega) h).2.symm)]
      exact ih (by omega) (by omega)

/-- Filling words changes their page alone. -/
theorem agreeOnPage_fillWords {m : Memory} {p : Addr} (hp : PageAligned p) (v : ℕ → BitVec 32)
    {n : ℕ} (hn : n ≤ 1024) {q : ℕ} (hq : q ≠ pageOf p) :
    AgreeOnPage m (fillWords m p v n) q := by
  induction n with
  | zero => exact fun x _ => rfl
  | succ n ih =>
    intro x hx
    rw [fillWords_succ, agreeOnPage_store32 hp (by omega) (v n) hq x hx, ih (by omega) x hx]

/-- The loop that stores the words. -/
theorem forUpto_storeWord (p : Addr) (v : ℕ → BitVec 32) (n : ℕ) (k : Kernel) :
    forUpto n (fun b => storeWord (wordIndex p b) (v b)) k =
      some ((), { k with mem := fillWords k.mem p v n }) := by
  unfold forUpto fillWords
  generalize List.range n = l
  induction l generalizing k with
  | nil => rfl
  | cons b l ih =>
    rw [forM_cons_eq]
    exact ih { k with mem := store32 k.mem (wordAt p b) (v b) }

/-- Zeroing at most a page from its start on leaves the other pages alone. -/
theorem agreeOnPage_zeroPage {m : Memory} {p : Addr} (hp : PageAligned p) {n : ℕ} (hn : n ≤ 4096)
    {q : ℕ} (hq : q ≠ pageOf p) : AgreeOnPage m (zeroFill m p n) q := by
  refine agreeOnPage_zeroFill fun x hx heq => hq ?_
  rw [← heq]
  unfold PageAligned at hp
  unfold pageOf
  have := p.isLt
  have hxn : x.toNat = p.toNat + (x - p).toNat := by
    have : x = p + (x - p) := by bv_omega
    have h2 := congrArg BitVec.toNat this
    rw [BitVec.toNat_add] at h2
    omega
  omega

/-! ## One table -/

/-- The entry of page `1024 * i + b` when every page is mapped to itself. -/
def selfEntry (flags : BitVec 8) (offset : BitVec 32) (b : ℕ) : BitVec 32 :=
  (offset + BitVec.ofNat 32 (b * pagingPageSize)) ||| flags.setWidth 32

/-- The memory after one round of the outer loop. -/
def roundMemory (m : Memory) (dir entry : Addr) (flags : BitVec 8) (offset : BitVec 32) (i : ℕ) :
    Memory :=
  store32 (fillWords (zeroFill m entry 4096) entry (selfEntry flags offset) 1024) (wordAt dir i)
    (entry ||| flags.setWidth 32 ||| pagingIsWriteable)

/-- **One round** of the outer loop allocates one block and fills it. -/
theorem pagingNewTable_some {dir : Addr} {flags : BitVec 8} {offset offset' : BitVec 32} {i : ℕ}
    {k k' : Kernel} (h : pagingNewTable dir flags offset i k = some (offset', k')) :
    ∃ entry, k.heap.kzalloc 4096#32 = some (entry, k'.heap) ∧ entry ≠ 0#32 ∧ dir ≠ 0#32 ∧
      offset' = offset + 4194304#32 ∧ k'.mem = roundMemory k.mem dir entry flags offset i ∧
      k'.kallocs = entry :: k.kallocs ∧ OnlyMemory k k' := by
  unfold pagingNewTable at h
  obtain ⟨entry, k₁, hz, h₁⟩ := prog_bind.mp h
  obtain ⟨hheap, hmem, hlog, honly⟩ := kzalloc_some hz
  obtain ⟨_, k₂, hd, h₂⟩ := prog_bind.mp h₁
  obtain ⟨hne, rfl⟩ := deref_some hd
  rw [if_neg hne] at hmem
  obtain ⟨_, k₃, hfill, h₃⟩ := prog_bind.mp h₂
  rw [forUpto_storeWord] at hfill
  cases hfill
  obtain ⟨_, k₄, hd', h₄⟩ := prog_bind.mp h₃
  obtain ⟨hdir, rfl⟩ := deref_some hd'
  obtain ⟨_, k₅, hst, h₅⟩ := prog_bind.mp h₄
  cases hst
  obtain ⟨rfl, rfl⟩ := prog_pure.mp h₅
  refine ⟨entry, hheap, hne, hdir, rfl, ?_, hlog, ?_⟩
  · dsimp only
    rw [hmem]
    rfl
  · exact honly.setMem _

/-- A round changes the directory and the new table alone. -/
theorem agreeOnPage_roundMemory {m : Memory} {dir entry : Addr} {flags : BitVec 8}
    {offset : BitVec 32} {i : ℕ} (hi : i < 1024) (hdir : PageAligned dir)
    (hentry : PageAligned entry) {q : ℕ} (hqd : q ≠ pageOf dir) (hqe : q ≠ pageOf entry) :
    AgreeOnPage m (roundMemory m dir entry flags offset i) q := by
  intro x hx
  unfold roundMemory
  rw [agreeOnPage_store32 hdir hi _ hqd x hx, agreeOnPage_fillWords hentry _ le_rfl hqe x hx,
    agreeOnPage_zeroPage hentry le_rfl hqe x hx]

/-- A round leaves the other words of the directory as they are. -/
theorem roundMemory_dir_word {m : Memory} {dir entry : Addr} {flags : BitVec 8}
    {offset : BitVec 32} {i j : ℕ} (hi : i < 1024) (hj : j < 1024) (hij : j ≠ i)
    (hdir : PageAligned dir) (hentry : PageAligned entry) (hne : entry ≠ dir) :
    load32 (roundMemory m dir entry flags offset i) (wordAt dir j) = load32 m (wordAt dir j) := by
  have hpage : pageOf dir ≠ pageOf entry := fun h => hne (eq_of_pageOf_eq hdir hentry h).symm
  have hagree : AgreeOnPage m
      (fillWords (zeroFill m entry 4096) entry (selfEntry flags offset) 1024) (pageOf dir) := by
    intro x hx
    rw [agreeOnPage_fillWords hentry _ le_rfl hpage x hx,
      agreeOnPage_zeroPage hentry le_rfl hpage x hx]
  unfold roundMemory
  rw [load32_store32_of_ne (wordAt_mod hdir hi) (wordAt_mod hdir hj)
    (fun h => hij (wordAt_inj hdir hdir hi hj h).2.symm), hagree.load32 hdir hj]

/-- A round maps each page to itself in the new table. -/
theorem roundMemory_entry {m : Memory} {dir entry : Addr} {flags : BitVec 8}
    {offset : BitVec 32} {i b : ℕ} (hi : i < 1024) (hb : b < 1024)
    (hdir : PageAligned dir) (hentry : PageAligned entry) (hne : entry ≠ dir) :
    load32 (roundMemory m dir entry flags offset i) (wordAt entry b) =
      selfEntry flags offset b := by
  have hpage : pageOf entry ≠ pageOf dir := fun h => hne (eq_of_pageOf_eq hentry hdir h)
  unfold roundMemory
  rw [(agreeOnPage_store32 hdir hi _ hpage).load32 hentry hb,
    load32_fillWords hentry _ le_rfl hb]

/-! ## All tables -/

/-- What `n` rounds from table `i` on have built, when the tables `ts` are distinct pages. -/
structure TablesBuilt (m m' : Memory) (dir : Addr) (flags : BitVec 8) (offset : BitVec 32) (i : ℕ)
    (ts : List Addr) : Prop where
  dir_word : ∀ j (hj : j < ts.length), load32 m' (wordAt dir (i + j)) =
    ts[j] ||| flags.setWidth 32 ||| pagingIsWriteable
  entry : ∀ j (hj : j < ts.length), ∀ b < 1024, load32 m' (wordAt ts[j] b) =
    selfEntry flags (offset + BitVec.ofNat 32 (4194304 * j)) b
  others : ∀ q, q ≠ pageOf dir → (∀ t ∈ ts, q ≠ pageOf t) → AgreeOnPage m m' q
  dir_before : ∀ j < i, load32 m' (wordAt dir j) = load32 m (wordAt dir j)

/-- The outer loop builds one table after the other. -/
theorem newTables_some {dir : Addr} {flags : BitVec 8} :
    ∀ (n i : ℕ) (offset offset' : BitVec 32) (k k' : Kernel), i + n ≤ 1024 →
      (List.range' i n).foldlM (pagingNewTable dir flags) offset k = some (offset', k') →
      ∃ ts : List Addr, ts.length = n ∧ AllocChain 4096#32 k.heap ts k'.heap ∧
        k'.kallocs = ts.reverse ++ k.kallocs ∧ OnlyMemory k k' ∧
        (PageAligned dir → (∀ t ∈ ts, PageAligned t) → (dir :: ts).Nodup →
          TablesBuilt k.mem k'.mem dir flags offset i ts) := by
  intro n
  induction n with
  | zero =>
    intro i offset offset' k k' _ h
    obtain ⟨rfl, rfl⟩ := prog_pure.mp h
    exact ⟨[], rfl, rfl, rfl, OnlyMemory.refl k, fun _ _ _ =>
      ⟨by simp, by simp, fun q _ _ x _ => rfl, fun j _ => rfl⟩⟩
  | succ n ih =>
    intro i offset offset' k k' hin h
    rw [List.range'_succ, List.foldlM_cons] at h
    obtain ⟨offset₁, k₁, hround, hrest⟩ := prog_bind.mp h
    obtain ⟨entry, hz, hne, -, rfl, hmem, hlog, honly⟩ := pagingNewTable_some hround
    obtain ⟨ts, hlen, hchain, hlog', honly', hbuilt⟩ := ih (i + 1) _ _ k₁ k' (by omega) hrest
    refine ⟨entry :: ts, by simp [hlen], ⟨k₁.heap, hz, hne, hchain⟩, ?_, honly.trans honly', ?_⟩
    · rw [hlog', hlog, List.reverse_cons, List.append_assoc]
      rfl
    · intro hdir halign hnodup
      have hentry : PageAligned entry := halign entry List.mem_cons_self
      obtain ⟨hdne, hnd⟩ := List.nodup_cons.mp hnodup
      have hed : entry ≠ dir := fun h => hdne (h ▸ List.mem_cons_self)
      have hets : entry ∉ ts := (List.nodup_cons.mp hnd).1
      have hb := hbuilt hdir (fun t ht => halign t (List.mem_cons_of_mem _ ht))
        (List.nodup_cons.mpr ⟨fun hm => hdne (List.mem_cons_of_mem _ hm),
          (List.nodup_cons.mp hnd).2⟩)
      -- the later rounds leave the page of the first table alone
      have hkeep : AgreeOnPage k₁.mem k'.mem (pageOf entry) := by
        refine hb.others _ (fun h => hed (eq_of_pageOf_eq hentry hdir h)) fun t ht h => ?_
        exact hets (eq_of_pageOf_eq hentry (halign t (List.mem_cons_of_mem _ ht)) h ▸ ht)
      refine ⟨?_, ?_, ?_, ?_⟩
      · intro j hj
        cases j with
        | zero =>
          rw [Nat.add_zero, hb.dir_before i (by omega), hmem]
          exact load32_store32_self _ _ _
        | succ j =>
          have := hb.dir_word j (by simpa using hj)
          rw [show i + (j + 1) = i + 1 + j from by omega, this]
          rfl
      · intro j hj b hb'
        cases j with
        | zero =>
          show load32 k'.mem (wordAt entry b) = _
          rw [hkeep.load32 hentry hb', hmem,
            roundMemory_entry (by omega) hb' hdir hentry hed, Nat.mul_zero]
          congr 1
          simp
        | succ j =>
          have hj' : j < ts.length := by simpa using hj
          show load32 k'.mem (wordAt ts[j] b) = _
          rw [hb.entry j hj' b hb', BitVec.add_assoc, ← BitVec.ofNat_add]
          congr 3
          ring
      · intro q hqd hqt x hx
        rw [hb.others q hqd (fun t ht => hqt t (List.mem_cons_of_mem _ ht)) x hx, hmem,
          agreeOnPage_roundMemory (by omega) hdir hentry hqd (hqt entry List.mem_cons_self) x hx]
      · intro j hj
        rw [hb.dir_before j (by omega), hmem,
          roundMemory_dir_word (by omega) (by omega) (by omega) hdir hentry hed]

/-! ## The chunk -/

theorem setWidth_flags_lt (flags : BitVec 8) : (flags.setWidth 32).toNat < 4096 := by
  have := flags.isLt
  rw [BitVec.toNat_setWidth]
  omega

/-- The entry of page `p`, written as table and place in the table. -/
theorem selfEntry_page (flags : BitVec 8) (p : ℕ) :
    selfEntry flags (0#32 + BitVec.ofNat 32 (4194304 * (p / 1024))) (p % 1024) =
      BitVec.ofNat 32 (4096 * p) ||| flags.setWidth 32 := by
  unfold selfEntry
  rw [BitVec.zero_add, ← BitVec.ofNat_add]
  congr 2
  simp only [pagingPageSize]
  omega

/-- The address of a table is recovered from its word in the directory. -/
theorem dirWord_table {t : Addr} (ht : PageAligned t) (flags : BitVec 8) :
    (t ||| flags.setWidth 32 ||| pagingIsWriteable) &&& 0xfffff000#32 = t := by
  rw [BitVec.or_assoc]
  refine or_flags_and_mask ht ?_
  have h1 := setWidth_flags_lt flags
  rw [BitVec.toNat_or]
  exact Nat.or_lt_two_pow (n := 12) h1 (by decide)

/-- **`paging_new_4gb`**: 1026 allocations, and a chunk that maps every page to itself, with the
words it leaves in the directory. -/
theorem pagingNew4gb_spec {flags : BitVec 8} {chunk : Addr} {k k' : Kernel}
    (h : pagingNew4gb flags k = some (chunk, k')) :
    ∃ (dir : Addr) (ts : List Addr) (h₁ h₂ : Heap), ts.length = 1024 ∧
      k.heap.kzalloc 4096#32 = some (dir, h₁) ∧ dir ≠ 0#32 ∧ AllocChain 4096#32 h₁ ts h₂ ∧
      h₂.kzalloc 4#32 = some (chunk, k'.heap) ∧ chunk ≠ 0#32 ∧
      k'.kallocs = chunk :: (ts.reverse ++ dir :: k.kallocs) ∧ OnlyMemory k k' ∧
      ((∀ a ∈ chunk :: dir :: ts, PageAligned a) → (chunk :: dir :: ts).Nodup →
        ChunkAt k'.mem chunk ⟨dir, fun i => ts.getD i 0#32⟩
          (fun p => BitVec.ofNat 32 (4096 * p) ||| flags.setWidth 32) ∧
        (∀ i < 1024, load32 k'.mem (wordAt dir i) =
          ts.getD i 0#32 ||| flags.setWidth 32 ||| pagingIsWriteable) ∧
        ∀ q, (∀ a ∈ chunk :: dir :: ts, q ≠ pageOf a) → AgreeOnPage k.mem k'.mem q) := by
  unfold pagingNew4gb at h
  obtain ⟨dir, k₁, hz, h₁⟩ := prog_bind.mp h
  obtain ⟨hheap₁, hmem₁, hlog₁, honly₁⟩ := kzalloc_some hz
  obtain ⟨off, k₂, hloop, h₂⟩ := prog_bind.mp h₁
  rw [List.range_eq_range'] at hloop
  obtain ⟨ts, hlen, hchain, hlog₂, honly₂, hbuilt⟩ := newTables_some 1024 0 _ _ k₁ k₂ (by omega) hloop
  -- a first round has dereferenced the directory
  have hdir : dir ≠ 0#32 := by
    rw [List.range'_succ, List.foldlM_cons] at hloop
    obtain ⟨_, _, hround, -⟩ := prog_bind.mp hloop
    obtain ⟨_, -, -, hd, -⟩ := pagingNewTable_some hround
    exact hd
  rw [if_neg hdir] at hmem₁
  obtain ⟨chunk', k₃, hz', h₃⟩ := prog_bind.mp h₂
  obtain ⟨hheap₃, hmem₃, hlog₃, honly₃⟩ := kzalloc_some hz'
  obtain ⟨_, k₄, hd, h₄⟩ := prog_bind.mp h₃
  obtain ⟨hchunk, rfl⟩ := deref_some hd
  rw [if_neg hchunk] at hmem₃
  obtain ⟨_, k₅, hst, h₅⟩ := prog_bind.mp h₄
  cases hst
  obtain ⟨rfl, rfl⟩ := prog_pure.mp h₅
  refine ⟨dir, ts, k₁.heap, k₂.heap, hlen, hheap₁, hdir, hchain, hheap₃, hchunk, ?_,
    ((honly₁.trans honly₂).trans honly₃).setMem _, ?_⟩
  · show k₄.kallocs = _
    rw [hlog₃, hlog₂, hlog₁]
  · intro halign hnodup
    have hca : PageAligned chunk' := halign _ List.mem_cons_self
    have hda : PageAligned dir := halign _ (by simp)
    have hta : ∀ t ∈ ts, PageAligned t := fun t ht => halign t (by simp [ht])
    obtain ⟨hcnot, hnd⟩ := List.nodup_cons.mp hnodup
    obtain ⟨hdnot, hnt⟩ := List.nodup_cons.mp hnd
    have hb := hbuilt hda hta hnd
    have hcd : chunk' ≠ dir := fun h => hcnot (h ▸ List.mem_cons_self)
    -- allocating and storing the chunk touches no other page
    have hkeep : ∀ q, q ≠ pageOf chunk' → AgreeOnPage k₂.mem
        (store32 k₄.mem chunk' dir) q := by
      intro q hq x hx
      have hs := agreeOnPage_store32 (m := k₄.mem) hca (i := 0) (by omega) dir hq x hx
      rw [wordAt_zero] at hs
      rw [hs, hmem₃, agreeOnPage_zeroPage hca (by decide) hq x hx]
    have hget : ∀ i (hi : i < ts.length), ts.getD i 0#32 = ts[i] := fun i hi =>
      List.getD_eq_getElem ts 0#32 hi
    have hgmem : ∀ i < 1024, ts.getD i 0#32 ∈ ts := by
      intro i hi
      rw [hget i (by omega)]
      exact List.getElem_mem _
    have hpd : pageOf dir ≠ pageOf chunk' := fun h => hcd (eq_of_pageOf_eq hca hda h.symm)
    have hword : ∀ i < 1024, load32 (store32 k₄.mem chunk' dir) (wordAt dir i) =
        ts.getD i 0#32 ||| flags.setWidth 32 ||| pagingIsWriteable := by
      intro i hi
      have hdw := hb.dir_word i (by omega)
      rw [Nat.zero_add] at hdw
      rw [(hkeep _ hpd).load32 hda hi, hdw, hget i (by omega)]
    refine ⟨⟨hca, hda, fun i hi => hta _ (hgmem i hi), hcd, ?_, ?_, ?_, ?_, ?_, ?_⟩, hword, ?_⟩
    · intro i hi heq
      exact hcnot (List.mem_cons_of_mem _ (heq ▸ hgmem i hi))
    · intro i hi heq
      dsimp only at heq
      exact hdnot (heq ▸ hgmem i hi)
    · intro i hi j hj heq
      dsimp only at heq
      rw [hget i (by omega), hget j (by omega)] at heq
      exact (List.Nodup.getElem_inj_iff hnt).mp heq
    · exact load32_store32_self _ _ _
    · intro i hi
      show load32 (store32 k₄.mem chunk' dir) (wordAt dir i) &&& _ = ts.getD i 0#32
      rw [hword i hi]
      exact dirWord_table (hta _ (hgmem i hi)) flags
    · intro p hp
      have hi : p / 1024 < 1024 := by omega
      have hpt : pageOf (ts.getD (p / 1024) 0#32) ≠ pageOf chunk' := fun h =>
        hcnot (List.mem_cons_of_mem _ (eq_of_pageOf_eq (hta _ (hgmem _ hi)) hca h ▸ hgmem _ hi))
      show load32 (store32 k₄.mem chunk' dir) (wordAt (ts.getD (p / 1024) 0#32) (p % 1024)) = _
      rw [(hkeep _ hpt).load32 (hta _ (hgmem _ hi)) (by omega), hget _ (by omega),
        hb.entry (p / 1024) (by omega) (p % 1024) (by omega)]
      exact selfEntry_page flags p
    · intro q hq x hx
      have hqc := hq chunk' List.mem_cons_self
      have hqd := hq dir (by simp)
      show store32 k₄.mem chunk' dir x = k.mem x
      rw [hkeep q hqc x hx, hb.others q hqd (fun t ht => hq t (by simp [ht])) x hx, hmem₁,
        agreeOnPage_zeroPage hda (by decide) hqd x hx]

end MaerOS.Analysis
