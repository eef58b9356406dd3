import Mathlib.Data.List.Induction
import MaerOS.Lib.Run
import MaerOS.Analysis.PackedHeap

/-!
# Page mappings over whole runs

A run starts from a chunk that `paging_new_4gb` has built and carries out any
sequence of `paging_map_to`. `translate` says, without page tables, what the run
should mean: the last accepted call whose virtual range covers an address decides
where the address goes and with which flags; an address that no call covers goes
to itself, with the flags of `paging_new_4gb`.

`Translates` ties the entries of a chunk to that meaning. A new chunk satisfies it
for the empty sequence and every call preserves it, for the sequence extended by
that call.
-/

set_option autoImplicit false

namespace MaerOS.Analysis

open MaerOS.Lib MaerOS.Model

/-- The arguments of a call of `paging_map_to`, without the chunk. -/
structure MapCall where
  virt : Addr
  phys : Addr
  phys_end : Addr
  flags : BitVec 32

/-- The code accepts the call. -/
def MapCall.Accepted (c : MapCall) : Prop := MapToValid c.virt c.phys c.phys_end

instance (c : MapCall) : Decidable c.Accepted := inferInstanceAs (Decidable (MapToValid _ _ _))

/-- The address `v` is in the virtual range of the call, which may wrap around. -/
def MapCall.Covers (c : MapCall) (v : Addr) : Prop :=
  (v - c.virt).toNat < (c.phys_end - c.phys).toNat

instance (c : MapCall) (v : Addr) : Decidable (c.Covers v) := inferInstanceAs (Decidable (_ < _))

/-- Carry out a call; the result code and the new memory. -/
def MapCall.exec (chunk : Addr) (mem : Memory) (c : MapCall) : ℤ × Memory :=
  pagingMapTo mem chunk c.virt c.phys c.phys_end c.flags

/-- The memory after a call. -/
def mapStep (chunk : Addr) (mem : Memory) (c : MapCall) : Memory := (c.exec chunk mem).2

/-- The last accepted call that covers `v`. -/
def lastCovering (calls : List MapCall) (v : Addr) : Option MapCall :=
  calls.reverse.find? fun c => decide (c.Accepted ∧ c.Covers v)

/-- Where `v` should go after the calls, and with which flags, in a chunk made with the
flags `f`. -/
def translate (f : BitVec 8) (calls : List MapCall) (v : Addr) : Addr × BitVec 32 :=
  match lastCovering calls v with
  | some c => (c.phys + (v - c.virt), c.flags)
  | none => (v, f.setWidth 32)

/-- One call more. -/
theorem translate_concat (f : BitVec 8) (calls : List MapCall) (c : MapCall) (v : Addr) :
    translate f (calls ++ [c]) v =
      if c.Accepted ∧ c.Covers v then (c.phys + (v - c.virt), c.flags)
      else translate f calls v := by
  unfold translate lastCovering
  rw [List.reverse_append, List.reverse_singleton, List.singleton_append, List.find?_cons]
  by_cases h : c.Accepted ∧ c.Covers v
  · rw [if_pos h, decide_eq_true h]
  · rw [if_neg h, decide_eq_false h]

/-! ## Entries and their meaning -/

/-- The entry of the page of `v` takes `v` to `t.1`, with the flags `t.2`. -/
def EntryTakes (entry : BitVec 32) (v : Addr) (t : Addr × BitVec 32) : Prop :=
  (entry &&& 0xfffff000#32) + (v - pagingAlignToLowerPage v) = t.1 ∧ entry &&& 0xfff#32 = t.2

/-- The entries `pm` of a chunk mean what `translate` says. -/
def Translates (pm : ℕ → BitVec 32) (f : BitVec 8) (calls : List MapCall) : Prop :=
  ∀ v, EntryTakes (pm (pageOf v)) v (translate f calls v)

/-- The entry of a new chunk takes an address to itself. -/
theorem entryTakes_self (f : BitVec 8) (v : Addr) :
    EntryTakes (BitVec.ofNat 32 (4096 * pageOf v) ||| f.setWidth 32) v (v, f.setWidth 32) := by
  obtain ⟨-, -, hoff⟩ := pagingAlignToLowerPage_spec v
  have hv := v.isLt
  have hpage : (BitVec.ofNat 32 (4096 * pageOf v)).toNat = 4096 * (v.toNat / 4096) := by
    unfold pageOf
    rw [BitVec.toNat_ofNat]
    omega
  have ha : PageAligned (BitVec.ofNat 32 (4096 * pageOf v)) := by
    unfold PageAligned
    omega
  refine ⟨?_, or_flags_and_low ha (setWidth_flags_lt f)⟩
  rw [or_flags_and_mask ha (setWidth_flags_lt f)]
  apply BitVec.eq_of_toNat_eq
  rw [BitVec.toNat_add, hoff, hpage]
  dsimp only
  omega

/-- The page of a covered address is one of those the call maps, and the only ones are. -/
theorem pageDist_lt_iff_covers {c : MapCall} (hc : c.Accepted) (v : Addr) :
    pageDist (pageOf c.virt) (pageOf v) < (c.phys_end - c.phys).toNat / 4096 ↔ c.Covers v := by
  obtain ⟨hv, hp, he, hle⟩ := hc
  have h1 := v.isLt
  have h2 := c.virt.isLt
  have h3 := c.phys.isLt
  have h4 := c.phys_end.isLt
  have h5 : c.phys.toNat ≤ c.phys_end.toNat := hle
  unfold MapCall.Covers pageDist pageOf
  unfold PageAligned at hv hp he
  rw [BitVec.toNat_sub, BitVec.toNat_sub]
  omega

/-- The entry of a page that a call has just mapped takes its addresses where the call says. -/
theorem entryTakes_mapped {c : MapCall} (hc : c.Accepted) (hflags : c.flags.toNat < 4096)
    (v : Addr) :
    EntryTakes ((c.phys + BitVec.ofNat 32 (4096 * pageDist (pageOf c.virt) (pageOf v))) |||
      c.flags) v (c.phys + (v - c.virt), c.flags) := by
  obtain ⟨hv, hp, he, hle⟩ := hc
  obtain ⟨-, -, hoff⟩ := pagingAlignToLowerPage_spec v
  have h1 := v.isLt
  have h2 := c.virt.isLt
  have h3 := c.phys.isLt
  unfold PageAligned at hv hp
  have hsum : (c.phys + BitVec.ofNat 32 (4096 * pageDist (pageOf c.virt) (pageOf v))).toNat =
      (c.phys.toNat + 4096 * pageDist (pageOf c.virt) (pageOf v)) % 2 ^ 32 := by
    rw [BitVec.toNat_add, BitVec.toNat_ofNat]
    omega
  have ha : PageAligned
      (c.phys + BitVec.ofNat 32 (4096 * pageDist (pageOf c.virt) (pageOf v))) := by
    unfold PageAligned
    omega
  refine ⟨?_, or_flags_and_low ha hflags⟩
  rw [or_flags_and_mask ha hflags]
  apply BitVec.eq_of_toNat_eq
  rw [BitVec.toNat_add, hoff, hsum, BitVec.toNat_add, BitVec.toNat_sub]
  unfold pageDist pageOf
  omega

/-! ## One call -/

/-- **One call** keeps the chunk in place and extends the sequence its entries stand for. -/
theorem mapStep_translates {mem : Memory} {chunk : Addr} {shape : ChunkShape}
    {pm : ℕ → BitVec 32} {f : BitVec 8} {calls : List MapCall}
    (hat : ChunkAt mem chunk shape pm) (htr : Translates pm f calls) (c : MapCall)
    (hflags : c.flags.toNat < 4096) :
    ∃ pm', ChunkAt (mapStep chunk mem c) chunk shape pm' ∧ Translates pm' f (calls ++ [c]) := by
  by_cases hc : c.Accepted
  · obtain ⟨mem', hcode, hat', -⟩ := pagingMapTo_valid hat hc c.flags
    have hmem : mapStep chunk mem c = mem' := by
      unfold mapStep MapCall.exec
      rw [hcode]
    refine ⟨_, hmem ▸ hat', fun v => ?_⟩
    rw [translate_concat]
    unfold mapPages
    by_cases hcov : c.Covers v
    · rw [if_pos ⟨pageOf_lt v, (pageDist_lt_iff_covers hc v).mpr hcov⟩, if_pos ⟨hc, hcov⟩]
      exact entryTakes_mapped hc hflags v
    · rw [if_neg fun h => hcov ((pageDist_lt_iff_covers hc v).mp h.2), if_neg fun h => hcov h.2]
      exact htr v
  · have hmem : mapStep chunk mem c = mem := by
      unfold mapStep MapCall.exec
      rw [pagingMapTo_invalid hc]
    refine ⟨pm, hmem.symm ▸ hat, fun v => ?_⟩
    rw [translate_concat, if_neg fun h => hc h.1]
    exact htr v

/-- **A run of calls** keeps the chunk in place, with entries that stand for the run. -/
theorem mapRun_translates {mem : Memory} {chunk : Addr} {shape : ChunkShape}
    {pm : ℕ → BitVec 32} {f : BitVec 8} (hat : ChunkAt mem chunk shape pm)
    (hnew : Translates pm f []) (calls : List MapCall)
    (hflags : ∀ c ∈ calls, c.flags.toNat < 4096) :
    ∃ pm', ChunkAt (run (mapStep chunk) mem calls) chunk shape pm' ∧ Translates pm' f calls := by
  induction calls using List.reverseRecOn with
  | nil => exact ⟨pm, hat, hnew⟩
  | append_singleton calls c ih =>
    obtain ⟨pm₁, hat₁, htr₁⟩ := ih fun c' hc' => hflags c' (List.mem_append_left _ hc')
    have hrun : run (mapStep chunk) mem (calls ++ [c]) =
        mapStep chunk (run (mapStep chunk) mem calls) c := by
      unfold run
      rw [List.foldl_append]
      rfl
    rw [hrun]
    exact mapStep_translates hat₁ htr₁ c (hflags c (by simp))

/-- The result code of a call, and what a rejected call does to memory. -/
theorem MapCall.exec_spec {mem : Memory} {chunk : Addr} {shape : ChunkShape}
    {pm : ℕ → BitVec 32} (hat : ChunkAt mem chunk shape pm) (c : MapCall) :
    ((c.exec chunk mem).1 = 0 ↔ c.Accepted) ∧
      (¬ c.Accepted → c.exec chunk mem = (-einvarg, mem)) := by
  by_cases hc : c.Accepted
  · obtain ⟨mem', hcode, -⟩ := pagingMapTo_valid hat hc c.flags
    refine ⟨iff_of_true ?_ hc, fun hn => absurd hc hn⟩
    unfold MapCall.exec
    rw [hcode]
  · have hcode : c.exec chunk mem = (-einvarg, mem) := pagingMapTo_invalid hc mem chunk c.flags
    refine ⟨iff_of_false ?_ hc, fun _ => hcode⟩
    rw [hcode]
    simp

/-! ## Whole runs -/

/-- The chunk of a finished `paging_new_4gb`, when its allocations are distinct pages. -/
theorem pagingNew4gb_translates {f : BitVec 8} {chunk : Addr} {k k' : Kernel}
    (hnew : pagingNew4gb f k = some (chunk, k'))
    (haligned : ∀ a ∈ k'.kallocs.take 1026, PageAligned a)
    (hdistinct : (k'.kallocs.take 1026).Nodup) :
    ∃ shape pm, ChunkAt k'.mem chunk shape pm ∧ Translates pm f [] := by
  obtain ⟨dir, ts, h₁, h₂, hlen, -, -, -, -, -, hlog, -, hchunk⟩ := pagingNew4gb_spec hnew
  have htake : k'.kallocs.take 1026 = chunk :: (ts.reverse ++ [dir]) := by
    rw [hlog, show chunk :: (ts.reverse ++ dir :: k.kallocs) =
      (chunk :: (ts.reverse ++ [dir])) ++ k.kallocs from by simp]
    exact List.take_left' (by simp [hlen])
  have hperm : (chunk :: (ts.reverse ++ [dir])).Perm (chunk :: dir :: ts) := by
    refine List.Perm.cons _ ((List.perm_append_comm).trans ?_)
    exact List.Perm.cons _ (List.reverse_perm ts)
  rw [htake] at haligned hdistinct
  obtain ⟨hat, -⟩ := hchunk (fun a ha => haligned a (hperm.mem_iff.mpr ha))
    (hperm.nodup_iff.mp hdistinct)
  exact ⟨_, _, hat, fun v => entryTakes_self f v⟩

/-- **Page mapping over whole runs.** Take a chunk that `paging_new_4gb(f)` returned, its
allocations being distinct page-aligned blocks, and any sequence of `paging_map_to` calls on it
with flags below 4096. Each call returns `0` exactly when it is accepted, and otherwise
`-EINVARG` with memory unchanged; afterwards every address goes where `translate` says, with the
flags it says. -/
theorem paging_run_translates (f : BitVec 8) (k k' : Kernel) (chunk : Addr)
    (hnew : pagingNew4gb f k = some (chunk, k'))
    (haligned : ∀ a ∈ k'.kallocs.take 1026, PageAligned a)
    (hdistinct : (k'.kallocs.take 1026).Nodup) (calls : List MapCall)
    (hflags : ∀ c ∈ calls, c.flags.toNat < 4096) :
    (∀ pre c post, calls = pre ++ c :: post →
      ((c.exec chunk (run (mapStep chunk) k'.mem pre)).1 = 0 ↔
        c.virt.toNat % 4096 = 0 ∧ c.phys.toNat % 4096 = 0 ∧ c.phys_end.toNat % 4096 = 0 ∧
          c.phys ≤ c.phys_end) ∧
      ((c.exec chunk (run (mapStep chunk) k'.mem pre)).1 ≠ 0 →
        c.exec chunk (run (mapStep chunk) k'.mem pre) =
          (-einvarg, run (mapStep chunk) k'.mem pre))) ∧
    ∀ v : Addr,
      pagingGetPhysicalAddress (run (mapStep chunk) k'.mem calls)
          (load32 (run (mapStep chunk) k'.mem calls) chunk) v = (translate f calls v).1 ∧
        pagingGet (run (mapStep chunk) k'.mem calls)
          (load32 (run (mapStep chunk) k'.mem calls) chunk) (pagingAlignToLowerPage v) &&&
            0xfff#32 = (translate f calls v).2 := by
  obtain ⟨shape, pm, hat, htr⟩ := pagingNew4gb_translates hnew haligned hdistinct
  refine ⟨?_, ?_⟩
  · rintro pre c post rfl
    obtain ⟨pm₁, hat₁, -⟩ := mapRun_translates hat htr pre
      fun c' hc' => hflags c' (List.mem_append_left _ hc')
    obtain ⟨hzero, hrej⟩ := c.exec_spec hat₁
    exact ⟨hzero, fun hne => hrej fun hc => hne (hzero.mpr hc)⟩
  · intro v
    obtain ⟨pm₁, hat₁, htr₁⟩ := mapRun_translates hat htr calls hflags
    rw [hat₁.get v, hat₁.chunk_word, pagingGetPhysicalAddress_spec hat₁]
    exact htr₁ v

/-- The first chunk of a fresh kernel, with one page of it mapped to `0x02000000` as writable. -/
theorem paging_run_translates_boot : ∃ k', pagingNew4gb 5#8 bootKernel = some (blockAddr 1025, k') ∧
    pagingGetPhysicalAddress
      (run (mapStep (blockAddr 1025)) k'.mem [⟨0x400000#32, 0x2000000#32, 0x2001000#32, 7#32⟩])
      (load32 (run (mapStep (blockAddr 1025)) k'.mem
        [⟨0x400000#32, 0x2000000#32, 0x2001000#32, 7#32⟩]) (blockAddr 1025)) 0x400123#32 =
      0x2000123#32 := by
  obtain ⟨k', hcode, -, hlog⟩ := packed_bootKernel.pagingNew4gb (by omega) 5#8
  rw [Nat.zero_add] at hcode
  have htake : k'.kallocs.take 1026 = ((List.range' 0 1026).map blockAddr).reverse := by
    rw [hlog]
    exact List.take_left' (by simp)
  obtain ⟨haligned, hdistinct⟩ := blockAddrs_distinct (s := 0) (n := 1026) (by omega)
  rw [← htake] at haligned hdistinct
  refine ⟨k', hcode, ?_⟩
  exact ((paging_run_translates 5#8 bootKernel k' (blockAddr 1025) hcode haligned hdistinct
    [⟨0x400000#32, 0x2000000#32, 0x2001000#32, 7#32⟩] (by simp)).2 0x400123#32).1

end MaerOS.Analysis
