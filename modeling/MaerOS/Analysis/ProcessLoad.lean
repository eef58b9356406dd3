import MaerOS.Lib.CString
import MaerOS.Model.ProcessTable
import MaerOS.Analysis.ProcessAlloc
import MaerOS.Analysis.TaskRuns

/-!
# Loading a process: who owns what afterwards

`process_load_for_slot` is followed allocation by allocation. Whatever it returns,
the blocks that were live before the call are live after it, and so is the record
of the process, once it has been allocated: no path frees it.
-/

set_option autoImplicit false

namespace MaerOS.Analysis

open MaerOS.Lib MaerOS.Model

/-! ## What a load leaves alone -/

/-- From `k` to `k'` nothing changed in the blocks `rs`, and of the process records only that of
`process` did. -/
structure Spares (process : Addr) (k k' : Kernel) (rs : List (Addr × ℕ)) : Prop where
  mem : AgreeOnRuns k.mem k'.mem rs
  elfs : ∀ r ∈ rs, k'.elfs r.1 = k.elfs r.1
  procs : ∀ q, q ≠ process → k'.procs q = k.procs q
  sched : k'.sched = k.sched
  processes : k'.processes = k.processes
  current_process : k'.current_process = k.current_process

section Spares

variable {process : Addr} {k k₁ k₂ : Kernel} {rs : List (Addr × ℕ)}

/-- Nothing has happened. -/
theorem Spares.refl : Spares process k k rs :=
  ⟨fun _ _ _ _ _ _ => rfl, fun _ _ => rfl, fun _ _ => rfl, rfl, rfl, rfl⟩

/-- One thing after the other. -/
theorem Spares.trans (h : Spares process k k₁ rs) (h' : Spares process k₁ k₂ rs) :
    Spares process k k₂ rs :=
  ⟨h.mem.trans h'.mem, fun r hr => (h'.elfs r hr).trans (h.elfs r hr),
    fun q hq => (h'.procs q hq).trans (h.procs q hq), h'.sched.trans h.sched,
    h'.processes.trans h.processes, h'.current_process.trans h.current_process⟩

/-- Some of the blocks may be left out. -/
theorem Spares.subset (h : Spares process k k₁ rs) {rs' : List (Addr × ℕ)}
    (hs : ∀ r ∈ rs', r ∈ rs) : Spares process k k₁ rs' :=
  ⟨h.mem.subset hs, fun r hr => h.elfs r (hs r hr), h.procs, h.sched, h.processes,
    h.current_process⟩

/-- Only memory has changed, and not in the blocks. -/
theorem OnlyMemory.spares (h : OnlyMemory k k₁) (hmem : AgreeOnRuns k.mem k₁.mem rs) :
    Spares process k k₁ rs :=
  ⟨hmem, fun _ _ => by rw [h.elfs], fun _ _ => by rw [h.procs], h.sched, h.processes,
    h.current_process⟩

/-- An ELF file record that is none of the blocks `rs`. -/
theorem spares_onElf {elf_file : Addr} (hnot : ∀ r ∈ rs, r.1 ≠ elf_file) (file : ElfFile) :
    Spares process k { k with elfs := Function.update k.elfs elf_file file } rs :=
  ⟨fun _ _ _ _ _ _ => rfl, fun r hr => Function.update_of_ne (hnot r hr) _ _, fun _ _ => rfl,
    rfl, rfl, rfl⟩

/-- The record of the process itself. -/
theorem spares_onProcess (p : Process) :
    Spares process k { k with procs := Function.update k.procs process p } rs :=
  ⟨fun _ _ _ _ _ _ => rfl, fun _ _ => rfl, fun _ hq => Function.update_of_ne hq _ _, rfl, rfl,
    rfl⟩

/-- `kfree` stores to no block. -/
theorem spares_kfree (p : Addr) : Spares process k { k with
    heap := heapFree k.heap p
    kfrees := p :: k.kfrees } rs :=
  ⟨fun _ _ _ _ _ _ => rfl, fun _ _ => rfl, fun _ _ => rfl, rfl, rfl, rfl⟩

end Spares

/-- A size that is not zero is at least one. -/
theorem one_le_of_ne_zero {size : BitVec 32} (h : size ≠ 0#32) : 1 ≤ size.toNat := by
  by_contra hlt
  exact h (BitVec.eq_of_toNat_eq (by simp; omega))

/-- **`kzalloc`** leaves all blocks alone that are allocated. -/
theorem HeapOwns.spares_kzalloc {process : Addr} {k k' : Kernel} {rs : List (Addr × ℕ)}
    (ho : HeapOwns k.heap rs) {size : BitVec 32} {p : Addr}
    (hz : Model.kzalloc size k = some (p, k')) : Spares process k k' rs := by
  obtain ⟨hheap, hmem, -, honly⟩ := kzalloc_some hz
  refine honly.spares ?_
  by_cases hs : size = 0#32
  · subst hs
    intro r hr q hq x hx
    rw [hmem]
    split
    · rfl
    · simp [zeroFill]
  · rcases ho.kzalloc (one_le_of_ne_zero hs) hheap with ⟨rfl, -, -⟩ | ⟨-, hown⟩
    · intro r hr q hq x hx
      rw [hmem, if_pos rfl]
    · exact agreeOnRuns_kzalloc hz hown

/-! ## Reading a file -/

/-- What `fread` does to the kernel: nothing for no bytes, else it writes to memory. -/
theorem read_some {pass : FilePass} {ptr : Addr} {size : BitVec 32} {k k' : Kernel} {res : ℤ}
    (h : pass.read ptr size k = some (res, k')) :
    (size = 0#32 ∧ res = -einvarg ∧ k' = k) ∨
      (size ≠ 0#32 ∧ res = pass.fread ∧ (pass.bytes.take size.toNat ≠ [] → ptr ≠ 0#32) ∧
        k' = { k with mem := storeBytes k.mem ptr (pass.bytes.take size.toNat) }) := by
  unfold FilePass.read at h
  by_cases hs : size = 0#32
  · rw [if_pos hs] at h
    obtain ⟨rfl, rfl⟩ := prog_pure.mp h
    exact .inl ⟨hs, rfl, rfl⟩
  · rw [if_neg hs] at h
    obtain ⟨_, k₁, hd, h₁⟩ := prog_bind.mp h
    have hk₁ : (pass.bytes.take size.toNat ≠ [] → ptr ≠ 0#32) ∧ k₁ = k := by
      split at hd
      · rename_i hempty
        exact ⟨fun hne => absurd (List.isEmpty_iff.mp hempty) hne, ((prog_pure.mp hd).2).symm⟩
      · exact ⟨fun _ => (deref_some hd).1, (deref_some hd).2⟩
    obtain ⟨hptr, rfl⟩ := hk₁
    obtain ⟨_, k₂, hm, h₂⟩ := prog_bind.mp h₁
    cases hm
    obtain ⟨rfl, rfl⟩ := prog_pure.mp h₂
    exact .inr ⟨hs, rfl, hptr, rfl⟩

/-- The bytes of a file go to the allocation they are read into. -/
theorem spares_read {process ptr : Addr} {size : BitVec 32} {k : Kernel} {bytes : List (BitVec 8)}
    {rs : List (Addr × ℕ)} (hptr : bytes.take size.toNat ≠ [] → ptr ≠ 0#32)
    (ho : ptr ≠ 0#32 → HeapOwns k.heap ((ptr, blocksFor size) :: rs)) :
    Spares process k { k with mem := storeBytes k.mem ptr (bytes.take size.toNat) } rs := by
  refine ⟨fun r hr q hq x hx => ?_, fun _ _ => rfl, fun _ _ => rfl, rfl, rfl, rfl⟩
  refine storeBytes_of_far ?_
  by_cases hnone : bytes.take size.toNat = []
  · rw [hnone]
    exact Nat.zero_le _
  · have hfar := (ho (hptr hnone)).far hr (x := x) (hx.symm ▸ hq)
    rw [List.length_take]
    omega

/-- `kzalloc` of any number of bytes adds at most one allocation. -/
theorem HeapOwns.kzalloc_any {k k' : Kernel} {rs : List (Addr × ℕ)} (ho : HeapOwns k.heap rs)
    {size : BitVec 32} {p : Addr} (hz : Model.kzalloc size k = some (p, k')) :
    (HeapOwns k'.heap rs ∧ (p = 0#32 ∨ size = 0#32)) ∨
      (size ≠ 0#32 ∧ p ≠ 0#32 ∧ HeapOwns k'.heap ((p, blocksFor size) :: rs)) := by
  obtain ⟨hheap, -, -, -⟩ := kzalloc_some hz
  by_cases hs : size = 0#32
  · subst hs
    exact .inl ⟨(ho.kzalloc_nothing hheap).1, .inr rfl⟩
  · rcases ho.kzalloc (one_le_of_ne_zero hs) hheap with ⟨rfl, hsame, -⟩ | ⟨hp, hown⟩
    · exact .inl ⟨hsame ▸ ho, .inl rfl⟩
    · exact .inr ⟨hs, hp, hown⟩

/-! ## ELF files -/

/-- Going through the program headers leaves the image where it is. -/
theorem elfProcessPheader_memory (mem : Memory) (file : ElfFile) (phdr : Addr) :
    (elfProcessPheader mem file phdr).2.elf_memory = file.elf_memory := by
  unfold elfProcessPheader
  split
  · unfold elfProcessPhdrPtLoad
    dsimp only
    split <;> split <;> rfl
  · rfl

/-- Nor does the loop move the image. -/
theorem elfProcessPheadersLoop_memory (mem : Memory) : ∀ (n i : ℕ) (file : ElfFile) (res : ℤ),
    (elfProcessPheadersLoop mem n i file res).2.elf_memory = file.elf_memory := by
  intro n
  induction n with
  | zero =>
    intro i file res
    rfl
  | succ n ih =>
    intro i file res
    unfold elfProcessPheadersLoop
    dsimp only
    have hone := elfProcessPheader_memory mem file (elfProgramHeader mem file.elf_memory i)
    split
    · exact hone
    · rw [ih]
      exact hone

/-- **`elf_process_loaded`** changes the record of the file only, and not where its image is. -/
theorem elfProcessLoaded_some {elf_file : Addr} {k k' : Kernel} {res : ℤ}
    (h : elfProcessLoaded elf_file k = some (res, k')) :
    (k.elfs elf_file).elf_memory ≠ 0#32 ∧
      ∃ file, k' = { k with elfs := Function.update k.elfs elf_file file } ∧
        file.elf_memory = (k.elfs elf_file).elf_memory := by
  unfold elfProcessLoaded at h
  obtain ⟨_, k₁, hg, h₁⟩ := prog_bind.mp h
  obtain ⟨rfl, rfl⟩ := prog_get.mp hg
  obtain ⟨_, k₂, hd, h₂⟩ := prog_bind.mp h₁
  obtain ⟨hne, rfl⟩ := deref_some hd
  refine ⟨hne, ?_⟩
  dsimp only at h₂
  split at h₂
  · obtain ⟨-, rfl⟩ := prog_pure.mp h₂
    exact ⟨k₂.elfs elf_file, by rw [Function.update_eq_self], rfl⟩
  · obtain ⟨_, k₃, he, h₃⟩ := prog_bind.mp h₂
    cases he
    obtain ⟨-, rfl⟩ := prog_pure.mp h₃
    exact ⟨_, rfl, elfProcessPheadersLoop_memory _ _ _ _ _⟩

/-- **`elf_load` between `fopen` and `fclose`** adds the image at most, and certainly if it
succeeds. -/
theorem elfRead_owns {pass : FilePass} {elf_file : Addr} {k k' : Kernel} {res : ℤ} {file : Addr}
    (h : elfRead pass elf_file k = some ((res, file), k')) {es rs : List (Addr × ℕ)}
    (ho : HeapOwns k.heap (es ++ rs)) (hnot : ∀ r ∈ rs, r.1 ≠ elf_file) (process : Addr) :
    ∃ os, HeapOwns k'.heap (os ++ (es ++ rs)) ∧ k'.procs = k.procs ∧ Spares process k k' rs ∧
      (0 ≤ res → file = elf_file ∧ file ≠ 0#32 ∧
        os = [((k'.elfs file).elf_memory, blocksFor pass.filesize)]) := by
  unfold elfRead at h
  by_cases hopen : pass.fopen = 0
  · rw [if_pos hopen] at h
    obtain ⟨hr, rfl⟩ := prog_pure.mp h
    cases hr
    exact ⟨[], ho, rfl, .refl, fun hle => absurd hle (by decide)⟩
  rw [if_neg hopen] at h
  by_cases hstat : pass.fstat < 0
  · rw [if_pos hstat] at h
    obtain ⟨hr, rfl⟩ := prog_pure.mp h
    cases hr
    exact ⟨[], ho, rfl, .refl, fun hle => absurd hle (not_le.mpr hstat)⟩
  rw [if_neg hstat] at h
  obtain ⟨elf_memory, k₁, hz, h₁⟩ := prog_bind.mp h
  obtain ⟨-, -, -, honly⟩ := kzalloc_some hz
  obtain ⟨_, k₂, hd, h₂⟩ := prog_bind.mp h₁
  obtain ⟨hfile, rfl⟩ := deref_some hd
  obtain ⟨_, k₃, he, h₃⟩ := prog_bind.mp h₂
  cases he
  obtain ⟨res₁, k₄, hread, h₄⟩ := prog_bind.mp h₃
  have hspares : Spares process k { k₂ with
      elfs := Function.update k₂.elfs elf_file
        ((fun file : ElfFile => { file with elf_memory := elf_memory })
          (k₂.elfs elf_file)) } rs :=
    ((ho.spares_kzalloc hz).subset fun r hr => List.mem_append_right _ hr).trans
      (spares_onElf hnot _)
  -- the image, if there was room for it
  obtain ⟨os, ho₁, hos⟩ : ∃ os, HeapOwns k₂.heap (os ++ (es ++ rs)) ∧
      (elf_memory ≠ 0#32 → pass.filesize ≠ 0#32 →
        os = [(elf_memory, blocksFor pass.filesize)]) := by
    rcases ho.kzalloc_any hz with ⟨hown, h0 | h0⟩ | ⟨-, -, hown⟩
    · exact ⟨[], hown, fun hne _ => absurd h0 hne⟩
    · exact ⟨[], hown, fun _ hne => absurd h0 hne⟩
    · exact ⟨[(elf_memory, blocksFor pass.filesize)], hown, fun _ _ => rfl⟩
  rcases read_some hread with ⟨hsize, rfl, rfl⟩ | ⟨hsize, rfl, hptr, rfl⟩
  · rw [if_pos (by decide)] at h₄
    obtain ⟨hr, rfl⟩ := prog_pure.mp h₄
    cases hr
    exact ⟨os, ho₁, honly.procs, hspares, fun hle => absurd hle (by decide)⟩
  · have hstored := hspares.trans ((spares_read hptr fun hne => by
      rw [hos hne hsize] at ho₁
      exact ho₁).subset fun r hr => List.mem_append_right es hr)
    by_cases hneg : pass.fread < 0
    · rw [if_pos hneg] at h₄
      obtain ⟨hr, rfl⟩ := prog_pure.mp h₄
      cases hr
      exact ⟨os, ho₁, honly.procs, hstored, fun hle => absurd hle (not_le.mpr hneg)⟩
    · rw [if_neg hneg] at h₄
      obtain ⟨res₂, k₅, hload, h₅⟩ := prog_bind.mp h₄
      obtain ⟨hmem, file', rfl, hkeep⟩ := elfProcessLoaded_some hload
      dsimp only at hmem hkeep
      rw [Function.update_self] at hmem hkeep
      have hall := hstored.trans (spares_onElf hnot file')
      split at h₅
      · rename_i hneg₂
        obtain ⟨hr, rfl⟩ := prog_pure.mp h₅
        cases hr
        exact ⟨os, ho₁, honly.procs, hall, fun hle => absurd hle (not_le.mpr hneg₂)⟩
      · obtain ⟨hr, rfl⟩ := prog_pure.mp h₅
        cases hr
        refine ⟨os, ho₁, honly.procs, hall, fun _ => ⟨rfl, hfile, ?_⟩⟩
        dsimp only
        rw [Function.update_self, hkeep]
        exact hos hmem hsize

/-- **`elf_load`** only adds allocations; if it succeeds they are the image and the record. -/
theorem elfLoad_owns {pass : FilePass} {k k' : Kernel} {res : ℤ} {file : Addr}
    (h : elfLoad pass k = some ((res, file), k')) {rs : List (Addr × ℕ)}
    (ho : HeapOwns k.heap rs) :
    ∃ os, HeapOwns k'.heap (os ++ rs) ∧ k'.procs = k.procs ∧
      (0 ≤ res → file ≠ 0#32 ∧
        os = [((k'.elfs file).elf_memory, blocksFor pass.filesize), (file, 1)]) := by
  unfold elfLoad at h
  obtain ⟨elf_file, k₁, hz, h₁⟩ := prog_bind.mp h
  obtain ⟨-, -, -, honly⟩ := kzalloc_some hz
  obtain ⟨_, k₂, he, h₂⟩ := prog_bind.mp h₁
  cases he
  -- the record, if there was room for it
  obtain ⟨es, ho₁, hes⟩ : ∃ es, HeapOwns k₁.heap (es ++ rs) ∧
      (elf_file ≠ 0#32 → es = [(elf_file, 1)]) := by
    rcases ho.kzalloc_any hz with ⟨hown, h0 | h0⟩ | ⟨-, -, hown⟩
    · exact ⟨[], hown, fun hne => absurd h0 hne⟩
    · exact absurd h0 (by decide)
    · exact ⟨[(elf_file, 1)], hown, fun _ => rfl⟩
  have ho₂ : HeapOwns k₁.heap ((es ++ rs) ++ []) := by simpa using ho₁
  obtain ⟨os, hown, hprocs, -, hsucc⟩ := elfRead_owns
    (show elfRead pass elf_file _ = _ from h₂) ho₂ (by simp) 0#32
  refine ⟨os ++ es, by simpa using hown, hprocs.trans honly.procs, fun hle => ?_⟩
  obtain ⟨rfl, hfile, rfl⟩ := hsucc hle
  exact ⟨hfile, by rw [hes hfile]; rfl⟩

/-! ## The program of a process -/

/-- The allocations that make up the program of a process. -/
inductive Loaded (k : Kernel) (process : Addr) : List (Addr × ℕ) → Prop
  /-- The image of an ELF file, and the record of the file. -/
  | elf (n : ℕ) (htype : (k.procs process).filetype = processFiletypeElf)
      (hfile : (k.procs process).ptr ≠ 0#32) :
      Loaded k process [((k.elfs (k.procs process).ptr).elf_memory, n),
        ((k.procs process).ptr, 1)]
  /-- The bytes of a raw binary. -/
  | binary (n : ℕ) (htype : (k.procs process).filetype = processFiletypeBinary) :
      Loaded k process [((k.procs process).ptr, n)]
  /-- Nothing at all. -/
  | nothing (htype : (k.procs process).filetype = processFiletypeElf)
      (hptr : (k.procs process).ptr = 0#32) : Loaded k process []

/-- A process that has just been given an ELF file. -/
theorem Loaded.setElf (k : Kernel) (process : Addr) {file : Addr} (n : ℕ) (hfile : file ≠ 0#32) :
    Loaded { k with
      procs := Function.update k.procs process
        { k.procs process with filetype := processFiletypeElf, ptr := file } } process
      [((k.elfs file).elf_memory, n), (file, 1)] := by
  have h := Loaded.elf (k := { k with
    procs := Function.update k.procs process
      { k.procs process with filetype := processFiletypeElf, ptr := file } }) n
    (by dsimp only; rw [Function.update_self])
    (by dsimp only; rw [Function.update_self]; exact hfile)
  dsimp only at h
  rw [Function.update_self] at h
  exact h

/-- The program stays what it is as long as the records say so. -/
theorem Loaded.of_records {k k' : Kernel} {process : Addr} {os : List (Addr × ℕ)}
    (h : Loaded k process os) (htype : (k'.procs process).filetype = (k.procs process).filetype)
    (hptr : (k'.procs process).ptr = (k.procs process).ptr)
    (helf : (k.procs process).ptr ≠ 0#32 →
      k'.elfs (k.procs process).ptr = k.elfs (k.procs process).ptr) :
    Loaded k' process os := by
  cases h with
  | elf n ht hf =>
    rw [← helf hf, ← hptr]
    exact .elf n (htype.trans ht) (hptr ▸ hf)
  | binary n ht =>
    rw [← hptr]
    exact .binary n (htype.trans ht)
  | nothing ht hp => exact .nothing (htype.trans ht) (hptr.trans hp)

/-- The program pointer is an allocation of the program, if there is one. -/
theorem Loaded.ptr_mem {k : Kernel} {process : Addr} {os : List (Addr × ℕ)}
    (h : Loaded k process os) (hne : (k.procs process).ptr ≠ 0#32) :
    ∃ r ∈ os, r.1 = (k.procs process).ptr := by
  cases h with
  | elf n _ _ => exact ⟨((k.procs process).ptr, 1), by simp, rfl⟩
  | binary n _ => exact ⟨((k.procs process).ptr, n), by simp, rfl⟩
  | nothing _ hp => exact absurd hp hne

/-- **`process_load_binary`** adds the image if it succeeds, and nothing if it fails. -/
theorem processLoadBinary_owns {pass : FilePass} {process : Addr} {k k' : Kernel} {res : ℤ}
    (h : processLoadBinary pass process k = some (res, k'))
    (hzero : k.procs process = Process.zero) {rs : List (Addr × ℕ)} (ho : HeapOwns k.heap rs) :
    ∃ os, HeapOwns k'.heap (os ++ rs) ∧
      (k'.procs process).allocations = Process.zero.allocations ∧ Spares process k k' rs ∧
      (0 ≤ res → Loaded k' process os) := by
  unfold processLoadBinary at h
  by_cases hopen : pass.fopen = 0
  · rw [if_pos hopen] at h
    cases h
  rw [if_neg hopen] at h
  by_cases hstat : pass.fstat ≠ maerosAllOk
  · rw [if_pos hstat] at h
    split at h
    · cases h
    · obtain ⟨-, rfl⟩ := prog_pure.mp h
      refine ⟨[], ho, by rw [hzero], .refl, fun _ => .nothing ?_ ?_⟩
      · rw [hzero]
        rfl
      · rw [hzero]
        rfl
  rw [if_neg hstat] at h
  obtain ⟨ptr, k₁, hz, h₁⟩ := prog_bind.mp h
  obtain ⟨hheap, -, -, honly⟩ := kzalloc_some hz
  have hzero₁ : k₁.procs process = Process.zero := by rw [honly.procs, hzero]
  have hspares : Spares process k k₁ rs := ho.spares_kzalloc hz
  by_cases hptr : ptr = 0#32
  · rw [if_pos hptr] at h₁
    obtain ⟨rfl, rfl⟩ := prog_pure.mp h₁
    have hown : HeapOwns k₁.heap rs := by
      rcases ho.kzalloc_any hz with ⟨hown, -⟩ | ⟨-, hne, -⟩
      · exact hown
      · exact absurd hptr hne
    exact ⟨[], hown, by rw [hzero₁], hspares, fun hle => absurd hle (by decide)⟩
  rw [if_neg hptr] at h₁
  obtain ⟨count, k₂, hread, h₂⟩ := prog_bind.mp h₁
  rcases read_some hread with ⟨hsize, rfl, rfl⟩ | ⟨hsize, rfl, hbytes, rfl⟩
  · -- no bytes: what is freed is a block that was never taken
    rw [if_pos (by decide)] at h₂
    obtain ⟨_, k₃, hk, h₃⟩ := prog_bind.mp h₂
    cases hk
    obtain ⟨rfl, rfl⟩ := prog_pure.mp h₃
    rw [hsize] at hheap
    obtain ⟨hown, h0 | ⟨b, hb, rfl, hfree⟩⟩ := ho.kzalloc_nothing hheap
    · exact absurd h0 hptr
    · exact ⟨[], hown.kfree_free hb hfree, by rw [hzero₁],
        hspares.trans (spares_kfree _),
        fun hle => absurd hle (by decide)⟩
  · rcases ho.kzalloc_any hz with ⟨-, h0 | h0⟩ | ⟨-, -, hown⟩
    · exact absurd h0 hptr
    · exact absurd h0 hsize
    have hstored : Spares process k { k₁ with
        mem := storeBytes k₁.mem ptr (pass.bytes.take pass.filesize.toNat) } rs :=
      hspares.trans (spares_read hbytes fun _ => hown)
    by_cases hcount : pass.fread ≠ 1
    · rw [if_pos hcount] at h₂
      obtain ⟨_, k₃, hk, h₃⟩ := prog_bind.mp h₂
      cases hk
      obtain ⟨rfl, rfl⟩ := prog_pure.mp h₃
      exact ⟨[], hown.kfree, by rw [hzero₁],
        hstored.trans (spares_kfree _),
        fun hle => absurd hle (by decide)⟩
    · rw [if_neg hcount] at h₂
      obtain ⟨_, k₃, hp, h₃⟩ := prog_bind.mp h₂
      cases hp
      obtain ⟨rfl, rfl⟩ := prog_pure.mp h₃
      refine ⟨[(ptr, blocksFor pass.filesize)], hown, ?_, hstored.trans (spares_onProcess _),
        fun _ => ?_⟩
      · dsimp only
        rw [Function.update_self, hzero₁]
      · have hl := Loaded.binary (k := { k₁ with
          mem := storeBytes k₁.mem ptr (pass.bytes.take pass.filesize.toNat)
          procs := Function.update k₁.procs process
            ((fun p : Process => { p with
              filetype := processFiletypeBinary, ptr := ptr, size := pass.filesize })
              (k₁.procs process)) }) (blocksFor pass.filesize)
          (by dsimp only; rw [Function.update_self])
        dsimp only at hl
        rw [Function.update_self] at hl
        exact hl

/-- **`process_load_data`**: the program, if it succeeds, and what the attempt to read the file as
an ELF file left behind. -/
theorem processLoadData_owns {elf binary : FilePass} {process : Addr} {k k' : Kernel} {res : ℤ}
    (h : processLoadData elf binary process k = some (res, k'))
    (hzero : k.procs process = Process.zero) {rs : List (Addr × ℕ)} (ho : HeapOwns k.heap rs) :
    ∃ os lost, HeapOwns k'.heap (os ++ (lost ++ rs)) ∧
      (k'.procs process).allocations = Process.zero.allocations ∧
      (0 ≤ res → Loaded k' process os) := by
  unfold processLoadData processLoadDataBy at h
  obtain ⟨res₁, k₁, helf, h₁⟩ := prog_bind.mp h
  unfold processLoadElf processLoadElfBy at helf
  obtain ⟨⟨res₂, file⟩, k₂, hload, h₂⟩ := prog_bind.mp helf
  obtain ⟨os, hown, hprocs, hsucc⟩ := elfLoad_owns hload ho
  have hzero₂ : k₂.procs process = Process.zero := by rw [hprocs, hzero]
  dsimp only at h₂
  by_cases hneg : res₂ < 0
  · rw [if_pos hneg] at h₂
    obtain ⟨rfl, rfl⟩ := prog_pure.mp h₂
    split at h₁
    · obtain ⟨os', hown', halloc, -, hl⟩ := processLoadBinary_owns h₁ hzero₂ hown
      exact ⟨os', os, hown', halloc, hl⟩
    · obtain ⟨rfl, rfl⟩ := prog_pure.mp h₁
      exact ⟨[], os, hown, by rw [hzero₂], fun hle => absurd hle (not_le.mpr hneg)⟩
  · rw [if_neg hneg] at h₂
    obtain ⟨_, k₃, hp, h₃⟩ := prog_bind.mp h₂
    cases hp
    obtain ⟨rfl, rfl⟩ := prog_pure.mp h₃
    obtain ⟨hfile, rfl⟩ := hsucc (not_lt.mp hneg)
    rw [if_neg (by
      intro heq
      rw [heq] at hneg
      exact hneg (by decide))] at h₁
    obtain ⟨rfl, rfl⟩ := prog_pure.mp h₁
    refine ⟨_, [], hown, ?_, fun _ => ?_⟩
    · dsimp only
      rw [Function.update_self, hzero₂]
    · exact Loaded.setElf k₂ process (blocksFor elf.filesize) hfile

/-! ## Mapping the program -/

/-- The process runs on the chunk of the footprint, which lies in memory as it should. -/
structure OnChunk (k : Kernel) (f : ProcFoot) : Prop where
  dir : (k.sched.tasks (k.procs f.process).task).page_directory = f.chunk
  map : ∃ pm, ChunkAt k.mem f.chunk f.shape pm

/-- A process that has just been given its task. -/
theorem OnChunk.setTask {k : Kernel} (process : Addr) {task chunk : Addr} {shape : ChunkShape}
    {pm : ℕ → BitVec 32} (hdir : (k.sched.tasks task).page_directory = chunk)
    (hat : ChunkAt k.mem chunk shape pm) :
    OnChunk { k with procs := Function.update k.procs process { k.procs process with task := task } }
      ⟨process, chunk, shape⟩ := by
  refine ⟨?_, pm, hat⟩
  dsimp only
  rw [Function.update_self]
  exact hdir

/-- A step that changes memory only, outside the blocks `os`, and keeps the process on its
chunk. -/
def MapsApart (f : ProcFoot) (os : List (Addr × ℕ)) (k k' : Kernel) : Prop :=
  ∃ mem, k' = { k with mem := mem } ∧ OnChunk k' f ∧ AgreeOnRuns k.mem mem os

section Mapping

variable {f : ProcFoot} {os : List (Addr × ℕ)} {k k' k'' : Kernel} {res : ℤ}

/-- One mapping after the other. -/
theorem MapsApart.trans (h : MapsApart f os k k') (h' : MapsApart f os k' k'') :
    MapsApart f os k k'' := by
  obtain ⟨mem, rfl, -, hagree⟩ := h
  obtain ⟨mem', rfl, hon, hagree'⟩ := h'
  exact ⟨mem', rfl, hon, hagree.trans hagree'⟩

/-- Nothing has been mapped. -/
theorem OnChunk.mapsApart (h : OnChunk k f) : MapsApart f os k k :=
  ⟨k.mem, rfl, h, fun _ _ _ _ _ _ => rfl⟩

/-- The process is still on its chunk. -/
theorem MapsApart.onChunk (h : MapsApart f os k k') : OnChunk k' f := h.choose_spec.2.1

/-- The heap is as before. -/
theorem MapsApart.heap (h : MapsApart f os k k') : k'.heap = k.heap := by
  obtain ⟨mem, rfl, -⟩ := h
  rfl

/-- `paging_map_to` on the directory of the process. -/
theorem processMapTo_mapsApart {virt phys phys_end : Addr} {flags : BitVec 32}
    (h : processMapTo f.process virt phys phys_end flags k = some (res, k'))
    (hon : OnChunk k f) (ho : HeapOwns k.heap (chunkRuns f.chunk f.shape ++ os)) :
    MapsApart f os k k' := by
  obtain ⟨pm, hat⟩ := hon.map
  obtain ⟨mem, rfl, hagree, hcase⟩ := processMapTo_some h hon.dir hat ho
  rcases hcase with ⟨-, -, rfl⟩ | ⟨-, -, hat'⟩
  · exact ⟨k.mem, rfl, hon, hagree⟩
  · exact ⟨mem, rfl, ⟨hon.dir, _, hat'⟩, hagree⟩

/-- **`process_map_binary`** maps and does nothing else. -/
theorem processMapBinary_mapsApart (h : processMapBinary f.process k = some (res, k'))
    (hon : OnChunk k f) (ho : HeapOwns k.heap (chunkRuns f.chunk f.shape ++ os)) :
    MapsApart f os k k' := by
  unfold processMapBinary at h
  obtain ⟨_, k₁, hg, h₁⟩ := prog_bind.mp h
  obtain ⟨rfl, rfl⟩ := prog_get.mp hg
  obtain ⟨_, k₂, hm, h₂⟩ := prog_bind.mp h₁
  obtain ⟨-, rfl⟩ := prog_pure.mp h₂
  exact processMapTo_mapsApart hm hon ho

/-- The loop of `process_map_elf` maps and does nothing else. -/
theorem processMapElfLoop_mapsApart (elf_file phdrs : Addr) : ∀ (n i : ℕ) (res₀ : ℤ)
    {k k' : Kernel} {res : ℤ},
    processMapElfLoop f.process elf_file phdrs n i res₀ k = some (res, k') → OnChunk k f →
    HeapOwns k.heap (chunkRuns f.chunk f.shape ++ os) → MapsApart f os k k' := by
  intro n
  induction n with
  | zero =>
    intro i res₀ k k' res h hon ho
    obtain ⟨-, rfl⟩ := prog_pure.mp h
    exact hon.mapsApart
  | succ n ih =>
    intro i res₀ k k' res h hon ho
    unfold processMapElfLoop at h
    obtain ⟨res₁, k₁, hm, h₁⟩ := prog_bind.mp h
    unfold processMapSegment at hm
    obtain ⟨_, k₂, hg, hm₁⟩ := prog_bind.mp hm
    obtain ⟨rfl, rfl⟩ := prog_get.mp hg
    have hone := processMapTo_mapsApart hm₁ hon ho
    split at h₁
    · obtain ⟨-, rfl⟩ := prog_pure.mp h₁
      exact hone
    · exact hone.trans (ih (i + 1) res₁ h₁ hone.onChunk (hone.heap.symm ▸ ho))

/-- **`process_map_elf`** maps and does nothing else. -/
theorem processMapElf_mapsApart (h : processMapElf f.process k = some (res, k'))
    (hon : OnChunk k f) (ho : HeapOwns k.heap (chunkRuns f.chunk f.shape ++ os)) :
    MapsApart f os k k' := by
  unfold processMapElf at h
  obtain ⟨_, k₁, hg, h₁⟩ := prog_bind.mp h
  obtain ⟨rfl, rfl⟩ := prog_get.mp hg
  obtain ⟨_, k₂, hd, h₂⟩ := prog_bind.mp h₁
  obtain ⟨-, rfl⟩ := deref_some hd
  obtain ⟨_, k₃, hd', h₃⟩ := prog_bind.mp h₂
  obtain ⟨-, rfl⟩ := deref_some hd'
  exact processMapElfLoop_mapsApart _ _ _ _ _ h₃ hon ho

/-- **`process_map_memory`** changes memory only. -/
theorem processMapMemory_mapsApart (h : processMapMemory f.process k = some (res, k'))
    (hon : OnChunk k f) (ho : HeapOwns k.heap (chunkRuns f.chunk f.shape ++ os)) :
    MapsApart f os k k' := by
  unfold processMapMemory at h
  obtain ⟨_, k₁, hb, h₁⟩ := prog_bind.mp h
  have hfirst := processMapBinary_mapsApart hb hon ho
  obtain ⟨_, k₂, hg, h₂⟩ := prog_bind.mp h₁
  obtain ⟨rfl, rfl⟩ := prog_get.mp hg
  obtain ⟨res₁, k₃, hm, h₃⟩ := prog_bind.mp h₂
  have hsecond : MapsApart f os k₁ k₃ := by
    split at hm
    · exact processMapElf_mapsApart hm hfirst.onChunk (hfirst.heap.symm ▸ ho)
    · split at hm
      · exact processMapBinary_mapsApart hm hfirst.onChunk (hfirst.heap.symm ▸ ho)
      · cases hm
  have hboth := hfirst.trans hsecond
  split at h₃
  · obtain ⟨-, rfl⟩ := prog_pure.mp h₃
    exact hboth
  · obtain ⟨_, k₄, hg', h₄⟩ := prog_bind.mp h₃
    obtain ⟨rfl, rfl⟩ := prog_get.mp hg'
    obtain ⟨_, k₅, hstack, h₅⟩ := prog_bind.mp h₄
    obtain ⟨-, rfl⟩ := prog_pure.mp h₅
    exact hboth.trans (processMapTo_mapsApart hstack hboth.onChunk (hboth.heap.symm ▸ ho))

end Mapping

/-! ## The task and the record -/

/-- The record of a process that is given its task. -/
def withTask (p : Process) (task : Addr) : Process := { p with task := task }

/-- How `process_load_for_slot` can end from the task on. -/
inductive TaskLoad (new : Addr → KernelM Addr) (free : Addr → KernelM ℤ) (process : Addr) (slot : ℤ)
    (k k' : Kernel) (res : ℤ) (p : Addr) : Prop
  /-- There is no task. -/
  | none (hnew : new process k = some (0#32, k'))
  /-- The program cannot be mapped, and the task is freed. -/
  | unmapped {task : Addr} {k₁ k₂ : Kernel} {u : ℤ} (hnew : new process k = some (task, k₁))
      (hmap : processMapMemory process { k₁ with
        procs := Function.update k₁.procs process (withTask (k₁.procs process) task) } =
          some (res, k₂)) (hneg : res < 0) (hfree : free task k₂ = some (u, k'))
  /-- The process goes to its slot. -/
  | up {task : Addr} {k₁ k₂ : Kernel} (hnew : new process k = some (task, k₁))
      (hmap : processMapMemory process { k₁ with
        procs := Function.update k₁.procs process (withTask (k₁.procs process) task) } =
          some (res, k₂)) (hpos : 0 ≤ res) (hslot : 0 ≤ slot) (hlt : slot < maerosMaxProcesses)
      (hk : k' = { k₂ with processes := Function.update k₂.processes slot.toNat process })
      (hp : p = process)

/-- The parts of `process_load_for_slot` one after the other, from the task on. -/
theorem processLoadTaskBy_cases {new : Addr → KernelM Addr} {free : Addr → KernelM ℤ}
    {process p : Addr} {slot : ℤ} {k k' : Kernel} {res : ℤ}
    (h : processLoadTaskBy new free process slot k = some ((res, p), k')) :
    TaskLoad new free process slot k k' res p := by
  unfold processLoadTaskBy at h
  obtain ⟨task, k₁, hnew, h₁⟩ := prog_bind.mp h
  by_cases hnull : task = 0#32
  · rw [if_pos hnull] at h₁
    obtain ⟨-, rfl⟩ := prog_pure.mp h₁
    exact .none (hnull ▸ hnew)
  rw [if_neg hnull] at h₁
  obtain ⟨_, _, hset, h₂⟩ := prog_bind.mp h₁
  cases hset
  obtain ⟨res₁, k₂, hmap, h₃⟩ := prog_bind.mp h₂
  by_cases hneg : res₁ < 0
  · rw [if_pos hneg] at h₃
    obtain ⟨u, k₃, hfree, h₄⟩ := prog_bind.mp h₃
    obtain ⟨hr, rfl⟩ := prog_pure.mp h₄
    cases hr
    exact .unmapped hnew hmap hneg hfree
  rw [if_neg hneg] at h₃
  by_cases hslot : slot < 0 ∨ slot ≥ maerosMaxProcesses
  · rw [if_pos hslot] at h₃
    cases h₃
  rw [if_neg hslot] at h₃
  obtain ⟨_, _, hput, h₄⟩ := prog_bind.mp h₃
  cases hput
  obtain ⟨hr, rfl⟩ := prog_pure.mp h₄
  cases hr
  exact .up hnew hmap (not_lt.mp hneg) (by omega) (by omega) rfl rfl

/-- **`process_load_for_slot` from the task on**: a failure gives back the task and its chunk, a
success leaves both with the process. -/
theorem processLoadTask_owns {process p : Addr} {slot : ℤ} {k k' : Kernel} {res : ℤ}
    (h : processLoadTask process slot k = some ((res, p), k')) {rs : List (Addr × ℕ)}
    (ho : HeapOwns k.heap rs) :
    (res < 0 ∧ HeapOwns k'.heap rs) ∨
      (0 ≤ res ∧ p = process ∧ ∃ (f : ProcFoot) (task : Addr), f.process = process ∧
        HeapOwns k'.heap (chunkRuns f.chunk f.shape ++ (task, 1) :: rs) ∧ OnChunk k' f ∧
        k'.elfs = k.elfs ∧ k'.procs process = { k.procs process with task := task }) := by
  cases processLoadTaskBy_cases h with
  | none hnew =>
    -- a task is never null
    obtain ⟨-, chunk, shape, ip, hown, -⟩ := taskNew_some hnew ho
    exact absurd rfl (hown.ne_zero (List.mem_append_right _ List.mem_cons_self))
  | @unmapped task k₁ k₂ u hnew hmap hneg hfree =>
    obtain ⟨-, chunk, shape, ip, hown, hat, -, honly, -, -, hsched⟩ := taskNew_some hnew ho
    have hdirtask : (k₁.sched.tasks task).page_directory = chunk := by
      rw [hsched, page_directory_newTask]
    obtain ⟨mem, rfl, hon, -⟩ := processMapMemory_mapsApart (f := ⟨process, chunk, shape⟩) hmap
      (OnChunk.setTask process hdirtask hat) hown
    obtain ⟨pm, hat'⟩ := hon.map
    obtain ⟨heap, kfrees, hcode, hown'⟩ := @taskFree_owns task shape pm
      ({ k₁ with
        mem := mem
        procs := Function.update k₁.procs process (withTask (k₁.procs process) task) })
      (hdirtask.symm ▸ hat') _ (hdirtask.symm ▸ hown)
    rw [hcode] at hfree
    cases hfree
    exact .inl ⟨hneg, hown'⟩
  | @up task k₁ k₂ hnew hmap hpos hslot hlt hk hp =>
    obtain ⟨-, chunk, shape, ip, hown, hat, -, honly, -, -, hsched⟩ := taskNew_some hnew ho
    have hdirtask : (k₁.sched.tasks task).page_directory = chunk := by
      rw [hsched, page_directory_newTask]
    obtain ⟨mem, rfl, hon, -⟩ := processMapMemory_mapsApart (f := ⟨process, chunk, shape⟩) hmap
      (OnChunk.setTask process hdirtask hat) hown
    subst hk
    refine .inr ⟨hpos, hp, ⟨process, chunk, shape⟩, task, rfl, hown, ⟨hon.dir, hon.map⟩,
      honly.elfs, ?_⟩
    dsimp only
    rw [Function.update_self, honly.procs]
    rfl

/-- A process and everything it owns: its chunk and its allocations, its task, its stack, its
program and its record. `lost` is what nobody will ever release. -/
structure ProcessUp (k : Kernel) (f : ProcFoot) (lost rs : List (Addr × ℕ)) : Prop where
  chunk : OnChunk k f
  parts : ∃ os, Loaded k f.process os ∧ HeapOwns k.heap (f.runs k ++
    ((k.procs f.process).task, 1) :: ((k.procs f.process).stack, 4) ::
      (os ++ (lost ++ (f.process, 3) :: rs)))

/-- The record of a process before it is given its task. -/
def withStack (p : Process) (filename : List (BitVec 8)) (stack : Addr) (slot : ℤ) : Process :=
  { p with filename := processFilename filename, stack := stack, id := slot.toNat }

/-- How `process_load_for_slot` can end from the record on. -/
inductive RecordLoad (data : Addr → KernelM ℤ) (rest : Addr → ℤ → KernelM (ℤ × Addr))
    (filename : List (BitVec 8)) (slot : ℤ) (process : Addr) (k k' : Kernel) (res : ℤ) (p : Addr) :
    Prop
  /-- The program cannot be loaded. -/
  | data (hdata : data process { k with
        procs := Function.update k.procs process Process.zero } = some (res, k')) (hneg : res < 0)
  /-- There is no memory for the stack. -/
  | stack {res₁ : ℤ} {k₁ : Kernel}
      (hdata : data process { k with
        procs := Function.update k.procs process Process.zero } = some (res₁, k₁))
      (hz : Model.kzalloc maerosUserProgramStackSize k₁ = some (0#32, k')) (hres : res = -enomem)
  /-- Program and stack are there, and it goes on with the task. -/
  | task {res₁ : ℤ} {k₁ k₂ : Kernel} {stack : Addr}
      (hdata : data process { k with
        procs := Function.update k.procs process Process.zero } = some (res₁, k₁)) (hpos : 0 ≤ res₁)
      (hz : Model.kzalloc maerosUserProgramStackSize k₁ = some (stack, k₂)) (hstack : stack ≠ 0#32)
      (htask : rest process slot { k₂ with
        procs := Function.update k₂.procs process
          (withStack (k₂.procs process) filename stack slot) } = some ((res, p), k'))

section Slot

variable {filename : List (BitVec 8)} {elf binary : FilePass} {slot : ℤ} {k k' : Kernel} {res : ℤ}
  {p : Addr} {rs : List (Addr × ℕ)} {data : Addr → KernelM ℤ}
  {rest : Addr → ℤ → KernelM (ℤ × Addr)}

/-- The parts of `process_load_for_slot` one after the other. -/
theorem processLoadRecord_cases {process : Addr}
    (h : processLoadRecord data rest filename slot process k = some ((res, p), k')) :
    RecordLoad data rest filename slot process k k' res p := by
  unfold processLoadRecord at h
  obtain ⟨_, _, hinit, h₁⟩ := prog_bind.mp h
  cases hinit
  obtain ⟨res₁, k₁, hdata, h₂⟩ := prog_bind.mp h₁
  by_cases hneg : res₁ < 0
  · rw [if_pos hneg] at h₂
    obtain ⟨hr, rfl⟩ := prog_pure.mp h₂
    cases hr
    exact .data hdata hneg
  rw [if_neg hneg] at h₂
  obtain ⟨stack, k₂, hz, h₃⟩ := prog_bind.mp h₂
  by_cases hstack : stack = 0#32
  · rw [if_pos hstack] at h₃
    obtain ⟨hr, rfl⟩ := prog_pure.mp h₃
    cases hr
    exact .stack hdata (hstack ▸ hz) rfl
  rw [if_neg hstack] at h₃
  obtain ⟨_, _, hset, h₄⟩ := prog_bind.mp h₃
  cases hset
  exact .task hdata (not_lt.mp hneg) hz hstack h₄

/-- **`process_load_for_slot`** ends for want of a record, or goes on with one. -/
theorem processLoadForSlotBy_cases {alloc : BitVec 32 → KernelM Addr}
    (h : processLoadForSlotBy alloc data rest filename slot k = some ((res, p), k')) :
    ∃ process k₁, alloc sizeofProcess k = some (process, k₁) ∧
      ((process = 0#32 ∧ k' = k₁ ∧ res = -enomem) ∨
        (process ≠ 0#32 ∧ RecordLoad data rest filename slot process k₁ k' res p)) := by
  unfold processLoadForSlotBy at h
  obtain ⟨_, _, hg, h₁⟩ := prog_bind.mp h
  obtain ⟨rfl, rfl⟩ := prog_get.mp hg
  split at h₁
  · cases h₁
  obtain ⟨process, k₁, hz, h₂⟩ := prog_bind.mp h₁
  refine ⟨process, k₁, hz, ?_⟩
  by_cases hnull : process = 0#32
  · rw [if_pos hnull] at h₂
    obtain ⟨hr, rfl⟩ := prog_pure.mp h₂
    cases hr
    exact .inl ⟨hnull, rfl, rfl⟩
  · rw [if_neg hnull] at h₂
    exact .inr ⟨hnull, processLoadRecord_cases h₂⟩

/-- A record that `kzalloc` has allocated is one allocation more. -/
theorem HeapOwns.record {process : Addr} (ho : HeapOwns k.heap rs)
    (hz : Model.kzalloc sizeofProcess k = some (process, k')) (hnull : process ≠ 0#32) :
    HeapOwns k'.heap ((process, 3) :: rs) := by
  rcases ho.kzalloc_any hz with ⟨-, h0 | h0⟩ | ⟨-, -, hown⟩
  · exact absurd h0 hnull
  · exact absurd h0 (by decide)
  · exact hown

/-- The stack is one allocation more, if there is one. -/
theorem HeapOwns.stack {stack : Addr} (ho : HeapOwns k.heap rs)
    (hz : Model.kzalloc maerosUserProgramStackSize k = some (stack, k')) (hstack : stack ≠ 0#32) :
    HeapOwns k'.heap ((stack, 4) :: rs) := by
  rcases ho.kzalloc_any hz with ⟨-, h0 | h0⟩ | ⟨-, -, hown⟩
  · exact absurd h0 hstack
  · exact absurd h0 (by decide)
  · exact hown

/-- **From the record on**, a failure leaves the record behind, and a success leaves everything with
the process. -/
theorem RecordLoad.owns {process : Addr}
    (h : RecordLoad (processLoadData elf binary) processLoadTask filename slot process k k' res p)
    (ho : HeapOwns k.heap ((process, 3) :: rs)) :
    (res < 0 ∧ ∃ os, HeapOwns k'.heap (os ++ (process, 3) :: rs)) ∨
    (0 ≤ res ∧ ∃ f lost, f.process = p ∧ ProcessUp k' f lost rs) := by
  have hzero : (Function.update k.procs process Process.zero) process = Process.zero :=
    Function.update_self ..
  cases h with
  | data hdata hneg =>
    obtain ⟨os, lost, hown, -⟩ := processLoadData_owns hdata hzero ho
    exact .inl ⟨hneg, os ++ lost, by rwa [List.append_assoc]⟩
  | stack hdata hz hres =>
    obtain ⟨os, lost, hown, -⟩ := processLoadData_owns hdata hzero ho
    refine .inl ⟨hres ▸ by decide, os ++ lost, ?_⟩
    rw [List.append_assoc]
    rcases hown.kzalloc_any hz with ⟨hown', -⟩ | ⟨-, hne, -⟩
    · exact hown'
    · exact absurd rfl hne
  | @task res₁ k₁ k₂ stack hdata hpos hz hstack htask =>
    obtain ⟨os, lost, hown, halloc, hloaded⟩ := processLoadData_owns hdata hzero ho
    obtain ⟨-, -, -, honly⟩ := kzalloc_some hz
    have hown₂ := hown.stack hz hstack
    rcases processLoadTask_owns htask hown₂ with ⟨hneg, hown'⟩ |
      ⟨hpos', rfl, f, task, rfl, hown', hon, helfs, hrec⟩
    · refine .inl ⟨hneg, (stack, 4) :: (os ++ lost), ?_⟩
      rw [List.cons_append, List.append_assoc]
      exact hown'
    · dsimp only [withStack] at hrec helfs
      rw [Function.update_self] at hrec
      have hprocs : k₂.procs f.process = k₁.procs f.process := by rw [honly.procs]
      refine .inr ⟨hpos', f, lost, rfl, hon, os, ?_, ?_⟩
      · -- only the stack, the name, the number and the task were filled in since
        have htype : (k'.procs f.process).filetype = (k₁.procs f.process).filetype := by
          rw [hrec, ← hprocs]
        have hptr : (k'.procs f.process).ptr = (k₁.procs f.process).ptr := by rw [hrec, ← hprocs]
        have he : k'.elfs = k₁.elfs := helfs.trans honly.elfs
        exact (hloaded hpos).of_records htype hptr fun _ => by rw [he]
      · have htask : (k'.procs f.process).task = task := by rw [hrec]
        have hst : (k'.procs f.process).stack = stack := by rw [hrec]
        have hnone : allocRuns (k'.procs f.process) = [] := by
          refine allocRuns_eq_nil fun i _ => ?_
          have : (k'.procs f.process).allocations = Process.zero.allocations := by
            rw [hrec, ← halloc, ← hprocs]
          rw [this]
          rfl
        rw [ProcFoot.runs, hnone, List.append_nil, htask, hst]
        exact hown'

/-- **`process_load_for_slot`** refuses for want of a record, fails and leaves the record behind,
or succeeds. -/
theorem processLoadForSlot_owns
    (h : processLoadForSlot filename elf binary slot k = some ((res, p), k'))
    (ho : HeapOwns k.heap rs) :
    (∃ k₁, Model.kzalloc sizeofProcess k = some (0#32, k₁) ∧ k' = k₁ ∧ res = -enomem) ∨
    (res < 0 ∧ ∃ process os, HeapOwns k'.heap (os ++ (process, 3) :: rs)) ∨
    (0 ≤ res ∧ ∃ f lost, f.process = p ∧ ProcessUp k' f lost rs) := by
  obtain ⟨process, k₁, hz, ⟨rfl, rfl, hres⟩ | ⟨hnull, hload⟩⟩ := processLoadForSlotBy_cases h
  · exact .inl ⟨_, hz, rfl, hres⟩
  · rcases hload.owns (ho.record hz hnull) with ⟨hneg, os, hown⟩ | hup
    · exact .inr (.inl ⟨hneg, process, os, hown⟩)
    · exact .inr (.inr hup)

end Slot

end MaerOS.Analysis
