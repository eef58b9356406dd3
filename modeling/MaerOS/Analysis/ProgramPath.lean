import MaerOS.Analysis.GetArguments

/-!
# The path of a program and the array it is built in

Commands 6 and 7 store `"0:/"` and then the name, from the fourth byte of an array of
108 bytes on; command 6 stores the 107 characters that were copied from the caller at
most, and so does command 7, whose `strncpy` is told the size of the whole array. Both
stay inside the array exactly for names of up to 104 characters.
-/

set_option autoImplicit false

namespace MaerOS.Analysis

open MaerOS.Lib MaerOS.Model

/-! ## The copies -/

section Copies

variable {dest src : Addr}

/-- **`strcpy`** of a string that it does not overwrite before it is read. -/
theorem strcpyLoop_eq (dest src : Addr) {n i : ℕ} {t : Traced} {s : List (BitVec 8)}
    (hs : CString t.mem (src + BitVec.ofNat 32 i) s) (hn : s.length < n)
    (hahead : ReadAhead (dest + BitVec.ofNat 32 i) (src + BitVec.ofNat 32 i) s.length) :
    strcpyLoop dest src n i t = some (t.storeAll (dest + BitVec.ofNat 32 i) (s ++ [0#8])) := by
  induction n generalizing i t s with
  | zero => omega
  | succ n ih =>
    unfold strcpyLoop
    cases s with
    | nil =>
      rw [cstring_nil.mp hs, if_pos rfl]
      rfl
    | cons c s =>
      have hstep : ∀ a : Addr, a + BitVec.ofNat 32 (i + 1) = a + BitVec.ofNat 32 i + 1#32 :=
        fun a => add_ofNat_add a i 1
      rw [hs.1]
      dsimp only
      rw [if_neg hs.2.1, ih (i := i + 1) (s := s) (by rw [hstep src]; exact hahead.rest hs.2.2)
        (by simpa using hn) (by rw [hstep dest, hstep src]; exact hahead.step), hstep dest]
      rfl

/-- **`strncpy`** with a record of its stores. -/
theorem strncpyStores_eq (dest src : Addr) {n i : ℕ} {t : Traced} {s : List (BitVec 8)}
    (hs : CString t.mem (src + BitVec.ofNat 32 i) s)
    (hahead : ReadAhead (dest + BitVec.ofNat 32 i) (src + BitVec.ofNat 32 i) s.length) :
    strncpyStores dest src n i t =
      t.storeAll (dest + BitVec.ofNat 32 i) (s.take n ++ [0#8]) := by
  induction n generalizing i t s with
  | zero => simp [strncpyStores, Traced.storeAll]
  | succ n ih =>
    unfold strncpyStores
    cases s with
    | nil =>
      dsimp only
      rw [cstring_nil.mp hs, if_pos rfl]
      simp [Traced.storeAll]
    | cons c s =>
      have hstep : ∀ a : Addr, a + BitVec.ofNat 32 (i + 1) = a + BitVec.ofNat 32 i + 1#32 :=
        fun a => add_ofNat_add a i 1
      dsimp only
      rw [hs.1, if_neg hs.2.1, ih (i := i + 1) (s := s)
        (by rw [hstep src]; exact hahead.rest hs.2.2)
        (by rw [hstep dest, hstep src]; exact hahead.step), hstep dest]
      simp [Traced.storeAll]

/-- Without the record it is `strncpy`. -/
theorem strncpyStores_mem (n i : ℕ) (t : Traced) :
    (strncpyStores dest src n i t).mem = strncpyLoop dest src n i t.mem := by
  induction n generalizing i t with
  | zero => rfl
  | succ n ih =>
    unfold strncpyStores strncpyLoop
    by_cases hc : t.mem (src + BitVec.ofNat 32 i) = 0#8
    · simp only [hc, if_true]
      rfl
    · simp only [hc, if_false]
      rw [ih]
      rfl

/-- **`strlen`** of a string. -/
theorem strlenLoop_eq (src : Addr) {m : Memory} {n i : ℕ} {s : List (BitVec 8)}
    (hs : CString m (src + BitVec.ofNat 32 i) s) (hn : s.length < n) :
    strlenLoop m src n i = some (i + s.length) := by
  induction n generalizing i s with
  | zero => omega
  | succ n ih =>
    unfold strlenLoop
    cases s with
    | nil =>
      rw [if_pos (cstring_nil.mp hs)]
      rfl
    | cons c s =>
      rw [if_neg (by rw [hs.1]; exact hs.2.1), ih (i := i + 1) (s := s) _ (by simpa using hn)]
      · simp only [List.length_cons, Option.some.injEq]
        omega
      · rw [add_ofNat_add src i 1]
        exact hs.2.2

end Copies

/-! ## The array -/

/-- The address is one of the bytes of the array `path`. -/
def InPath (path a : Addr) : Prop := (a - path).toNat < maerosMaxPath

section Array

variable {path src : Addr} {t : Traced} {s : List (BitVec 8)}

theorem inPath_add (path : Addr) {i : ℕ} (hi : i < 2 ^ 32) :
    InPath path (path + BitVec.ofNat 32 i) ↔ i < 108 := by
  unfold InPath maerosMaxPath
  rw [add_ofNat_sub path hi]

/-- A string outside the array is read before the name is stored over it. -/
theorem readAhead_of_apart (hapart : ∀ i ≤ s.length, ¬ InPath path (src + BitVec.ofNat 32 i)) :
    ReadAhead (path + 3#32) src s.length := by
  intro i j hij hj heq
  -- otherwise one of the first three bytes of the array would be a byte of the string
  have hbyte : ∃ l ≤ s.length, ∃ b < 3, src + BitVec.ofNat 32 l = path + BitVec.ofNat 32 b := by
    by_cases hfar : i + 3 ≤ j
    · refine ⟨j - (i + 3), by omega, 0, by omega, ?_⟩
      rw [show j = (j - (i + 3)) + (i + 3) from by omega, add_ofNat_add] at heq
      rw [add_ofNat_add _ i 3] at heq
      bv_omega
    · refine ⟨0, by omega, 3 + i - j, by omega, ?_⟩
      obtain ⟨b, hb⟩ : ∃ b, b = 3 + i - j := ⟨_, rfl⟩
      have hsum : BitVec.ofNat 32 j + BitVec.ofNat 32 b = 3#32 + BitVec.ofNat 32 i := by
        rw [← BitVec.ofNat_add, show j + b = 3 + i from by omega, BitVec.ofNat_add]
      rw [← hb]
      bv_omega
  obtain ⟨l, hl, b, hb, heq'⟩ := hbyte
  refine hapart l hl ?_
  rw [heq']
  exact (inPath_add path (by omega)).mpr (by omega)

/-- Storing the prefix leaves a string outside the array alone. -/
theorem cstring_prefix (hs : CString t.mem src s)
    (hapart : ∀ i ≤ s.length, ¬ InPath path (src + BitVec.ofNat 32 i)) :
    CString (strcpyLiteral path pathPrefix t).mem src s := by
  refine hs.congr fun i hi => ?_
  unfold strcpyLiteral
  rw [Traced.storeAll_mem _ _ (by decide)]
  refine storeBytes_of_far ?_
  have hout := hapart i hi
  unfold InPath maerosMaxPath at hout
  have hlen : (pathPrefix ++ [0#8]).length = 4 := rfl
  omega

/-- The record of a prefix and a name. -/
def pathStores (path : Addr) (name : List (BitVec 8)) (t : Traced) : Traced :=
  (strcpyLiteral path pathPrefix t).storeAll (path + 3#32) (name ++ [0#8])

/-- **The array overflows** exactly for names of more than 104 characters. -/
theorem pathStores_inside (hempty : t.stores = []) {name : List (BitVec 8)}
    (hlen : name.length < 2 ^ 31) :
    (∀ a ∈ (pathStores path name t).stores, InPath path a) ↔ name.length ≤ 104 := by
  unfold pathStores strcpyLiteral
  have hshift : ∀ i : ℕ, path + 3#32 + BitVec.ofNat 32 i = path + BitVec.ofNat 32 (3 + i) :=
    fun i => (add_ofNat_add path 3 i).symm
  constructor
  · intro hin
    have hlast := hin (path + 3#32 + BitVec.ofNat 32 name.length)
      (Traced.mem_storeAll.mpr (.inl ⟨name.length, by simp, rfl⟩))
    rw [hshift, inPath_add path (by omega)] at hlast
    omega
  · intro hshort a ha
    rcases Traced.mem_storeAll.mp ha with ⟨i, hi, rfl⟩ | ha
    · rw [List.length_append, List.length_singleton] at hi
      rw [hshift, inPath_add path (by omega)]
      omega
    · rcases Traced.mem_storeAll.mp ha with ⟨i, hi, rfl⟩ | ha
      · have hfour : i < 4 := hi
        exact (inPath_add path (by omega)).mpr (by omega)
      · rw [hempty] at ha
        cases ha

end Array

/-! ## The handlers -/

section Handlers

variable {s : Isr80hState} {path filename : Addr} {name : List (BitVec 8)}

theorem onTraced_some {f : Traced → Option Traced} {t : Traced} (h : f s.traced = some t) :
    onTraced f s = some ((), s.withTraced t) := by
  unfold onTraced
  rw [h]
  rfl

/-- The start command builds its path by these stores. -/
theorem startPath_eq (hs : CString s.kernel.mem filename name)
    (hapart : ∀ i ≤ name.length, ¬ InPath path (filename + BitVec.ofNat 32 i)) :
    startPath path filename s = some ((), s.withTraced (pathStores path name s.traced)) := by
  have hprefix := cstring_prefix (t := s.traced) hs hapart
  have hcopy := strcpyLoop_eq (path + 3#32) filename (n := addressSpace) (i := 0)
    (t := strcpyLiteral path pathPrefix s.traced) (s := name) (by simpa using hprefix) hs.length_lt
    (by simpa using readAhead_of_apart hapart)
  rw [show path + 3#32 + BitVec.ofNat 32 0 = path + 3#32 from by simp] at hcopy
  unfold startPath
  rw [bind_of_some (onTraced_some (s := s) (t := strcpyLiteral path pathPrefix s.traced) rfl)]
  exact onTraced_some (s := s.withTraced (strcpyLiteral path pathPrefix s.traced)) hcopy

/-- The system command builds its path by these stores, from 107 characters at most. -/
theorem systemPath_eq (hs : CString s.kernel.mem filename name)
    (hapart : ∀ i ≤ name.length, ¬ InPath path (filename + BitVec.ofNat 32 i)) :
    systemPath path filename s =
      some ((), s.withTraced (pathStores path (name.take 107) s.traced)) := by
  have hprefix := cstring_prefix (t := s.traced) hs hapart
  have hcopy := strncpyStores_eq (path + 3#32) filename (n := 107) (i := 0)
    (t := strcpyLiteral path pathPrefix s.traced) (s := name) (by simpa using hprefix)
    (by simpa using readAhead_of_apart hapart)
  rw [show path + 3#32 + BitVec.ofNat 32 0 = path + 3#32 from by simp] at hcopy
  have hsecond : (fun t => some (strncpyStores (path + 3#32) filename (maerosMaxPath - 1) 0 t))
      (s.withTraced (strcpyLiteral path pathPrefix s.traced)).traced =
        some (pathStores path (name.take 107) s.traced) := congrArg some hcopy
  unfold systemPath
  rw [bind_of_some (onTraced_some (s := s) (t := strcpyLiteral path pathPrefix s.traced) rfl)]
  exact onTraced_some (s := s.withTraced (strcpyLiteral path pathPrefix s.traced)) hsecond

theorem take_inside : (name.take 107).length ≤ 104 ↔ name.length ≤ 104 := by
  rw [List.length_take]
  omega

/-- A caller of command 6: the name is seen at the pointer on its stack. The arrays are on the
kernel stack, which is outside the heap. -/
structure StartRequest (k : Kernel) (filename path ptr : Addr) (shape : ChunkShape)
    (pm : ℕ → BitVec 32) (rs : List (Addr × ℕ)) (name : List (BitVec 8)) : Prop where
  pages : TaskPages k k.sched.current_task shape pm rs
  item : taskGetStackItem k.sched.current_task 0 k = some (ptr, k)
  seen : StringThrough k.mem (taskWalk shape.dir k.mem) ptr name
  clear : ∀ tmp heap, k.heap.kzalloc (BitVec.ofInt 32 maerosMaxPath) = some (tmp, heap) →
    tmp ≠ 0#32 → ClearOf k.mem shape tmp ptr name
  outside : ∀ i < maerosMaxPath, OutsideArena (filename + BitVec.ofNat 32 i)
  apart : ∀ i < maerosMaxPath, ¬ InPath path (filename + BitVec.ofNat 32 i)

/-- A caller of command 7: the name is at the physical address of the pointer on its stack, and
not in the handler's own array. -/
structure SystemRequest (k : Kernel) (path arguments : Addr) (name : List (BitVec 8)) : Prop where
  calling : Calling k
  item : ∃ ptr, taskGetStackItem k.sched.current_task 0 k = some (ptr, k) ∧
    pagingGetPhysicalAddress k.mem (callerDirectory k) ptr = arguments
  string : CString k.mem arguments name
  apart : ∀ i ≤ name.length, ¬ InPath path (arguments + BitVec.ofNat 32 i)

/-- Command 6 up to the path. -/
theorem isr80hCommand6Path_eq {ptr : Addr} {shape : ChunkShape} {pm : ℕ → BitVec 32}
    {rs : List (Addr × ℕ)} (h : StartRequest s.kernel filename path ptr shape pm rs name) :
    (∃ s', isr80hCommand6Path filename path s = some (-enomem, s') ∧ s'.stores = s.stores ∧
        ∀ b < s.kernel.heap.table.total, ¬ IsFree s.kernel.heap.table.entries b) ∨
      (¬ ∀ b < s.kernel.heap.table.total, ¬ IsFree s.kernel.heap.table.entries b) ∧
        ∃ s₁ : Isr80hState, s₁.stores = s.stores ∧ isr80hCommand6Path filename path s =
          some (0, s₁.withTraced (pathStores path (name.take 107) s₁.traced)) := by
  have hitem := stackItem_eq h.item
  by_cases hfull : ∀ b < s.kernel.heap.table.total, ¬ IsFree s.kernel.heap.table.entries b
  · left
    have hcopy := @copyStringFromTask_full s.kernel s.kernel.sched.current_task ptr filename _
      maerosMaxPath h.pages.owns (by decide) (by decide) hfull
    refine ⟨{ s with command := { s.command with
      kernel := { s.kernel with kallocs := 0#32 :: s.kernel.kallocs } } }, ?_, rfl, hfull⟩
    unfold isr80hCommand6Path
    rw [bind_of_some hitem, bind_get, bind_of_some (onCommand_some (onKernel_some hcopy)),
      if_pos (by decide)]
    rfl
  · right
    obtain ⟨k', hcopy, hstring, -⟩ := copyStringFromTask_copies h.pages
      (show (1 : ℤ) ≤ maerosMaxPath from by decide) (by decide) h.seen h.outside h.clear
      (freeBlocks_pos hfull)
    have hname : CString k'.mem filename (name.take 107) := hstring
    refine ⟨hfull, { s with command := { s.command with kernel := k' } }, rfl, ?_⟩
    unfold isr80hCommand6Path
    rw [bind_of_some hitem, bind_get, bind_of_some (onCommand_some (onKernel_some hcopy)),
      if_neg (by decide), bind_of_some (startPath_eq hname fun i hi => ?_)]
    · rfl
    · refine h.apart i ?_
      rw [List.length_take] at hi
      unfold maerosMaxPath
      omega

/-- Command 7 up to the path. -/
theorem isr80hCommand7Path_eq {arguments : Addr} (h : SystemRequest s.kernel path arguments name) :
    isr80hCommand7Path path s =
      if arguments = 0#32 ∨ name = [] then some (none, s)
      else some (some arguments, s.withTraced (pathStores path (name.take 107) s.traced)) := by
  obtain ⟨ptr, hitem, rfl⟩ := h.item
  have hlen := strlenLoop_eq (pagingGetPhysicalAddress s.kernel.mem (callerDirectory s.kernel)
    ptr) (i := 0) (s := name) (by simpa using h.string) h.string.length_lt
  unfold isr80hCommand7Path
  rw [bind_of_some (stackItem_eq hitem), bind_of_some (callerAddress_eq h.calling ptr)]
  by_cases hnull : pagingGetPhysicalAddress s.kernel.mem (callerDirectory s.kernel) ptr = 0#32
  · rw [if_pos hnull, if_pos (.inl hnull)]
    rfl
  rw [if_neg hnull, bind_get]
  unfold addressSpace
  rw [hlen, Nat.zero_add]
  dsimp only
  by_cases hname : name = []
  · rw [if_pos (by rw [hname]; rfl), if_pos (.inr hname)]
    rfl
  · rw [if_neg (fun h0 => hname (List.length_eq_zero_iff.mp h0)), if_neg (by simp [hnull, hname]),
      bind_of_some (systemPath_eq h.string h.apart)]
    rfl

/-- **Building the path of a program.** For every name of any length: what command 6 stores lies in
the array `path` if and only if the name has at most 104 characters, or there is no free block and
no path is built; what command 7 stores lies in it if and only if the name has at most 104
characters, or the pointer is null and no path is built. -/
theorem program_path_fits_iff (s : Isr80hState) (path : Addr) (name : List (BitVec 8))
    (hstores : s.stores = []) :
    (∀ filename ptr shape pm rs, StartRequest s.kernel filename path ptr shape pm rs name →
      ∃ res s', isr80hCommand6Path filename path s = some (res, s') ∧
        ((∀ a ∈ s'.stores, InPath path a) ↔ name.length ≤ 104 ∨
          ∀ b < s.kernel.heap.table.total, ¬ IsFree s.kernel.heap.table.entries b)) ∧
    (∀ arguments, SystemRequest s.kernel path arguments name →
      ∃ res s', isr80hCommand7Path path s = some (res, s') ∧
        ((∀ a ∈ s'.stores, InPath path a) ↔ name.length ≤ 104 ∨ arguments = 0#32)) := by
  constructor
  · intro filename ptr shape pm rs h
    rcases isr80hCommand6Path_eq h with ⟨s', hcode, hsame, hfull⟩ | ⟨hfree, s₁, hsame, hcode⟩
    · refine ⟨_, s', hcode, iff_of_true (fun a ha => ?_) (.inr hfull)⟩
      rw [hsame, hstores] at ha
      cases ha
    · refine ⟨_, _, hcode, ?_⟩
      rw [or_iff_left hfree, ← take_inside]
      refine pathStores_inside (t := s₁.traced) (hsame.trans hstores) ?_
      rw [List.length_take]
      omega
  · intro arguments h
    have hcode := isr80hCommand7Path_eq h
    by_cases hnone : arguments = 0#32 ∨ name = []
    · rw [if_pos hnone] at hcode
      refine ⟨_, _, hcode, iff_of_true (fun a ha => ?_) ?_⟩
      · rw [hstores] at ha
        cases ha
      · rcases hnone with hnull | rfl
        · exact .inr hnull
        · exact .inl (Nat.zero_le _)
    · rw [if_neg hnone] at hcode
      refine ⟨_, _, hcode, ?_⟩
      rw [or_iff_left fun hnull => hnone (.inl hnull), ← take_inside]
      exact pathStores_inside (t := s.traced) hstores (by rw [List.length_take]; omega)

end Handlers

/-! ## A caller with a name of any length -/

/-- A caller whose stack is at `0x3fd000`, with a pointer to a name on the same page. -/
theorem pathRequests_boot (name : List (BitVec 8)) (hz : 0#8 ∉ name) (hlen : name.length ≤ 2000) :
    ∃ (s : Isr80hState) (shape : ChunkShape) (pm : ℕ → BitVec 32) (rs : List (Addr × ℕ)),
      s.stores = [] ∧ s.kernel.heap.table.total = 25600 ∧ IsFree s.kernel.heap.table.entries 1040 ∧
      StartRequest s.kernel 0x5ff000#32 0x5ff100#32 0x3fd800#32 shape pm rs name ∧
      SystemRequest s.kernel 0x5ff100#32 0x3fd800#32 name := by
  obtain ⟨k, shape, rs, hp, hpk, -⟩ := taskPages_boot
  obtain ⟨m, hm⟩ : ∃ m, m = store32 (storeBytes k.mem 0x3fd800#32 (name ++ [0#8])) 0x3fd000#32
    0x3fd800#32 := ⟨_, rfl⟩
  have hdiffer : DifferOnPage k.mem m 1021 := by
    intro x hx
    unfold pageOf at hx
    rw [hm, store32_of_far, storeBytes_of_far]
    · rw [List.length_append, List.length_singleton, BitVec.toNat_sub, BitVec.toNat_ofNat]
      omega
    · rw [BitVec.toNat_sub, BitVec.toNat_ofNat]
      omega
  -- the page is no page of the chunk
  have hfresh : ¬ shape.Occupies (k.sched.tasks 1#32).page_directory 1021 := by
    intro hocc
    obtain ⟨r, hr, hin⟩ := hocc.inRun
    have := hp.owns.above r (List.mem_append_left _ hr)
    unfold InRun at hin
    omega
  obtain ⟨hat, hstable⟩ := hp.chunk.taskWalk_stable hfresh hdiffer
  have hself : ∀ j < 4096, taskWalk shape.dir m (0x3fd000#32 + BitVec.ofNat 32 j) =
      some (0x3fd000#32 + BitVec.ofNat 32 j) := by
    intro j hj
    rw [hstable]
    exact hp.chunk.taskWalk_self (taskChunkFlags.setWidth 32) hp.present (by decide) (by decide)
      (by decide) (by decide) hj
  have hname : ∀ i, 0x3fd800#32 + BitVec.ofNat 32 i = 0x3fd000#32 + BitVec.ofNat 32 (2048 + i) :=
    fun i => (add_ofNat_add 0x3fd000#32 2048 i).symm
  have hstring : CString m 0x3fd800#32 name := by
    refine (cstring_storeBytes k.mem 0x3fd800#32 hz (by omega)).congr fun i hi => ?_
    rw [hm, store32_of_far]
    rw [hname, add_ofNat_sub _ (by omega)]
    omega
  have hseen : StringThrough m (taskWalk shape.dir m) 0x3fd800#32 name := by
    refine (stringThrough_some.mpr hstring).congr fun i hi => ?_
    rw [hname, hself _ (by omega)]
  obtain ⟨hcall, hdir, hload⟩ := callerKernel_calling 0x3fd000#32 hp.chunk_ne hat
  have hitem := hload 0x3fd800#32 (by
    rw [loadThrough_self fun i hi => hself i (by omega), hm, load32_store32_self])
  have hplace : ∀ i < 2 ^ 11, pageOf (0x3fd800#32 + BitVec.ofNat 32 i) = 1021 := by
    intro i hi
    unfold pageOf
    rw [BitVec.toNat_add, BitVec.toNat_ofNat, BitVec.toNat_ofNat]
    omega
  refine ⟨⟨⟨callerKernel k 0x3fd000#32 m, fun _ => ⟨0, 0#32⟩, 0#32⟩, []⟩, shape, taskMap, rs, rfl,
    hpk.total, hpk.free 1040 le_rfl (by omega),
    ⟨⟨hp.nonnull, hp.owns, hat, fun i hi => ?_⟩, hitem, hseen, ?_, fun i hi => ?_, fun i hi => ?_⟩,
    ⟨hcall, ⟨_, hitem, ?_⟩, hstring, fun i hi => ?_⟩⟩
  · show Allows pagingIsPresent (load32 m (wordAt shape.dir i))
    rw [AgreeOnPage.load32 _ hp.chunk.dir_aligned hi]
    · exact hp.present i hi
    · intro x hx
      exact hdiffer x fun heq => hfresh (.inr (.inl (by rw [← hx, heq])))
  · intro tmp heap htmp _ i hi
    obtain ⟨h', hz, -⟩ := hpk.kzalloc 108#32 (by decide) (by decide)
    have hz' : k.heap.kzalloc (BitVec.ofInt 32 maerosMaxPath) = some (blockAddr 1040, h') := hz
    obtain rfl : tmp = blockAddr 1040 := by
      have htmp' : k.heap.kzalloc (BitVec.ofInt 32 maerosMaxPath) = some (tmp, heap) := htmp
      rw [hz'] at htmp'
      cases htmp'
      rfl
    rw [pageOf_blockAddr (by omega), hplace i (by omega)]
    refine ⟨by decide, fun p hp' => ?_⟩
    have hp'' : taskWalk shape.dir m (0x3fd800#32 + BitVec.ofNat 32 i) = some p := hp'
    rw [hname, hself _ (by omega), ← hname] at hp''
    cases hp''
    rw [hplace i (by omega)]
    refine ⟨by decide, ?_⟩
    -- the tables are in the arena, the string is below it
    have hrun : (shape.tables (pageOf (blockAddr 1040) / 1024), 1) ∈
        chunkRuns (k.sched.tasks 1#32).page_directory shape :=
      List.mem_append_left _ (List.mem_map.mpr ⟨_, List.mem_range.mpr (by
        rw [pageOf_blockAddr (by omega)]; omega), rfl⟩)
    have habove := hp.owns.above _ (List.mem_append_left _ hrun)
    have hpage := hp.chunk.entryWord_page (blockAddr 1040)
    have hlow := hplace i (by omega)
    have hsum : (0x3fd800#32 + BitVec.ofNat 32 i).toNat = 0x3fd800 + i := by
      rw [BitVec.toNat_add, BitVec.toNat_ofNat, BitVec.toNat_ofNat]
      omega
    have hlt := (entryWord shape (blockAddr 1040)).isLt
    rw [← hpage] at habove
    unfold pageOf at habove
    rw [BitVec.toNat_sub, hsum]
    omega
  · left
    unfold maerosMaxPath at hi
    unfold pageOf
    rw [BitVec.toNat_add, BitVec.toNat_ofNat, BitVec.toNat_ofNat]
    omega
  · unfold maerosMaxPath at hi
    unfold InPath maerosMaxPath
    rw [BitVec.toNat_sub, BitVec.toNat_add, BitVec.toNat_ofNat, BitVec.toNat_ofNat,
      BitVec.toNat_ofNat]
    omega
  · show pagingGetPhysicalAddress m (callerDirectory (callerKernel k 0x3fd000#32 m)) 0x3fd800#32 = _
    rw [hdir]
    have hzero := hself 2048 (by omega)
    exact mmuWalk_physical hp.chunk.dir_aligned hzero
  · unfold InPath maerosMaxPath
    rw [BitVec.toNat_sub, BitVec.toNat_add, BitVec.toNat_ofNat, BitVec.toNat_ofNat,
      BitVec.toNat_ofNat]
    omega

/-- The name `a` fits, for both commands. -/
theorem program_path_fits_short : ∃ (s s₆ s₇ : Isr80hState) (res : ℤ) (arguments : Option Addr),
    isr80hCommand6Path 0x5ff000#32 0x5ff100#32 s = some (res, s₆) ∧
    isr80hCommand7Path 0x5ff100#32 s = some (arguments, s₇) ∧
    (∀ a ∈ s₆.stores, InPath 0x5ff100#32 a) ∧ ∀ a ∈ s₇.stores, InPath 0x5ff100#32 a := by
  obtain ⟨s, shape, pm, rs, hstores, -, -, hstart, hsystem⟩ :=
    pathRequests_boot [0x61#8] (by decide) (by decide)
  obtain ⟨hsix, hseven⟩ := program_path_fits_iff s 0x5ff100#32 [0x61#8] hstores
  obtain ⟨res, s₆, hcode₆, hiff₆⟩ := hsix _ _ shape pm rs hstart
  obtain ⟨arguments, s₇, hcode₇, hiff₇⟩ := hseven _ hsystem
  exact ⟨s, s₆, s₇, res, arguments, hcode₆, hcode₇, hiff₆.mpr (.inl (by decide)),
    hiff₇.mpr (.inl (by decide))⟩

/-- **A name of 105 characters.** Both commands store its terminator behind the array. -/
theorem program_path_overflows : ∃ (s s₆ s₇ : Isr80hState) (shape : ChunkShape)
    (pm : ℕ → BitVec 32) (rs : List (Addr × ℕ)) (res : ℤ) (arguments : Option Addr),
    s.stores = [] ∧
    StartRequest s.kernel 0x5ff000#32 0x5ff100#32 0x3fd800#32 shape pm rs
      (List.replicate 105 0x61#8) ∧
    SystemRequest s.kernel 0x5ff100#32 0x3fd800#32 (List.replicate 105 0x61#8) ∧
    isr80hCommand6Path 0x5ff000#32 0x5ff100#32 s = some (res, s₆) ∧
    isr80hCommand7Path 0x5ff100#32 s = some (arguments, s₇) ∧
    (¬ ∀ a ∈ s₆.stores, InPath 0x5ff100#32 a) ∧ ¬ ∀ a ∈ s₇.stores, InPath 0x5ff100#32 a := by
  obtain ⟨s, shape, pm, rs, hstores, htotal, hblock, hstart, hsystem⟩ :=
    pathRequests_boot (List.replicate 105 0x61#8) (by decide) (by decide)
  have hlong : ¬ ((List.replicate 105 0x61#8).take 107).length ≤ 104 := by decide
  have hseven := isr80hCommand7Path_eq hsystem
  rw [if_neg (by decide)] at hseven
  rcases isr80hCommand6Path_eq hstart with ⟨-, -, -, hfull⟩ | ⟨-, s₁, hsame, hsix⟩
  · exact absurd hblock (hfull 1040 (by rw [htotal]; omega))
  refine ⟨s, _, _, shape, pm, rs, _, _, hstores, hstart, hsystem, hsix, hseven, fun hin => ?_,
    fun hin => ?_⟩
  · exact hlong ((pathStores_inside (t := s₁.traced) (hsame.trans hstores) (by decide)).mp hin)
  · exact hlong ((pathStores_inside (t := s.traced) hstores (by decide)).mp hin)

end MaerOS.Analysis
