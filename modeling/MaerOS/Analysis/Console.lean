import MaerOS.Analysis.ProgramPath
import MaerOS.Model.Console

/-!
# What programs print

A program prints whole strings with one system call and single characters with
another. Whatever the programs do between their calls, the terminal is in the end as
if the texts had been printed one after the other, each string up to its first 1023
characters. Only when the heap has no free block, and the string cannot be copied,
`isr80h_command1_print` prints what an earlier call has left in the array.
-/

set_option autoImplicit false

namespace MaerOS.Analysis

open MaerOS.Lib MaerOS.Model

/-- `print` of the string at an address. -/
theorem printAt_eq {s : Console} {str : Addr} {text : List (BitVec 8)}
    (h : CString s.kernel.mem str text) :
    printAt str s = some ((), { s with terminal := print s.terminal text }) := by
  have hbytes : ((List.range text.length).map fun i => s.kernel.mem (str + BitVec.ofNat 32 i)) =
      text := by
    refine List.ext_getElem (by simp) fun i hi hi' => ?_
    rw [List.getElem_map, List.getElem_range]
    exact (h.byte (List.getElem?_eq_getElem hi')).1
  have hlen := strlenLoop_eq str (n := addressSpace) (i := 0) (by simpa using h) h.length_lt
  unfold printAt
  rw [hlen, Nat.zero_add, Option.map_some, hbytes]

/-- Kernel work that prints nothing. -/
theorem silently_some {α : Type} {m : KernelM α} {s : Console} {a : α} {k' : Kernel}
    (h : m s.kernel = some (a, k')) : silently m s = some (a, { s with kernel := k' }) := by
  unfold silently
  rw [h]
  rfl

/-- The caller asks for the string `text`, which it sees at `ptr`, and there is a block for the
copy. -/
structure PrintRequest (k : Kernel) (buf ptr : Addr) (shape : ChunkShape) (pm : ℕ → BitVec 32)
    (rs : List (Addr × ℕ)) (text : List (BitVec 8)) : Prop where
  pages : TaskPages k k.sched.current_task shape pm rs
  item : taskGetStackItem k.sched.current_task 0 k = some (ptr, k)
  seen : StringThrough k.mem (taskWalk shape.dir k.mem) ptr text
  clear : ∀ tmp heap, k.heap.kzalloc (BitVec.ofInt 32 sizeofPrintBuffer) = some (tmp, heap) →
    tmp ≠ 0#32 → ClearOf k.mem shape tmp ptr text
  outside : ∀ i < 1024, OutsideArena (buf + BitVec.ofNat 32 i)
  free : 1 ≤ (freeBlocks k.heap).card

/-- The caller asks for any string, there is no block for the copy, and the array holds `held`. -/
structure PrintRefused (k : Kernel) (buf : Addr) (held : List (BitVec 8)) : Prop where
  owns : ∃ rs, HeapOwns k.heap rs
  item : ∃ ptr, taskGetStackItem k.sched.current_task 0 k = some (ptr, k)
  full : ∀ b < k.heap.table.total, ¬ IsFree k.heap.table.entries b
  held : CString k.mem buf held

section Calls

variable {s : Console} {buf : Addr} {text : List (BitVec 8)}

/-- **`isr80h_command1_print`** prints the first 1023 characters. -/
theorem isr80hCommand1Print_eq {ptr : Addr} {shape : ChunkShape} {pm : ℕ → BitVec 32}
    {rs : List (Addr × ℕ)} (h : PrintRequest s.kernel buf ptr shape pm rs text) :
    ∃ k', isr80hCommand1Print buf s =
        some (0#32, ⟨k', print s.terminal (text.take 1023)⟩) := by
  have hcopied : ∃ k', copyStringFromTask s.kernel.sched.current_task ptr buf sizeofPrintBuffer
      s.kernel = some (0, k') ∧ CString k'.mem buf (text.take 1023) ∧ _ :=
    copyStringFromTask_copies h.pages (by decide) (by decide) h.seen h.outside h.clear h.free
  obtain ⟨k', hcopy, hstring, -⟩ := hcopied
  refine ⟨k', ?_⟩
  unfold isr80hCommand1Print
  rw [bind_get, bind_of_some (silently_some h.item), bind_of_some (silently_some hcopy),
    bind_of_some (printAt_eq (s := ⟨k', s.terminal⟩) hstring)]
  rfl

/-- Without a block it prints what the array holds. -/
theorem isr80hCommand1Print_refused (h : PrintRefused s.kernel buf text) :
    ∃ k', isr80hCommand1Print buf s = some (0#32, ⟨k', print s.terminal text⟩) := by
  obtain ⟨rs, howns⟩ := h.owns
  obtain ⟨ptr, hitem⟩ := h.item
  have hcopy : copyStringFromTask s.kernel.sched.current_task ptr buf sizeofPrintBuffer s.kernel =
      some (-enomem, { s.kernel with kallocs := 0#32 :: s.kernel.kallocs }) :=
    copyStringFromTask_full howns (by decide) (by decide) h.full
  refine ⟨{ s.kernel with kallocs := 0#32 :: s.kernel.kallocs }, ?_⟩
  unfold isr80hCommand1Print
  rw [bind_get, bind_of_some (silently_some hitem), bind_of_some (silently_some hcopy),
    bind_of_some (printAt_eq (s := ⟨{ s.kernel with kallocs := 0#32 :: s.kernel.kallocs },
      s.terminal⟩) h.held)]
  rfl

end Calls

/-! ## Runs -/

/-- A system call that prints, with the text that is to appear. -/
inductive OutputCall where
  | print (text : List (BitVec 8))
  | printRefused (held : List (BitVec 8))
  | putchar (c : BitVec 8)

/-- What the programs do to the kernel until the next call, and the call. -/
structure OutputEvent where
  enter : Kernel → Kernel
  call : OutputCall

/-- The text that appears. -/
def OutputCall.shown : OutputCall → List (BitVec 8)
  | .print text => text.take 1023
  | .printRefused held => held
  | .putchar c => [c]

/-- The state in which the call is made. -/
def OutputEvent.entered (e : OutputEvent) (s : Console) : Console :=
  { s with kernel := e.enter s.kernel }

/-- The next call. -/
def outputCallStep (buf : Addr) (s : Console) (e : OutputEvent) : Option Console :=
  match e.call with
  | .print _ => (isr80hCommand1Print buf (e.entered s)).map Prod.snd
  | .printRefused _ => (isr80hCommand1Print buf (e.entered s)).map Prod.snd
  | .putchar _ => isr80hCommand3Putchar (e.entered s) |>.map Prod.snd

/-- The call is what it says. -/
def OutputEvent.Made (buf : Addr) (s : Console) (e : OutputEvent) : Prop :=
  match e.call with
  | .print text => ∃ ptr shape pm rs, PrintRequest (e.enter s.kernel) buf ptr shape pm rs text
  | .printRefused held => PrintRefused (e.enter s.kernel) buf held
  | .putchar c => ∃ item : Addr, item.setWidth 8 = c ∧
      taskGetStackItem (e.enter s.kernel).sched.current_task 0 (e.enter s.kernel) =
        some (item, e.enter s.kernel)

/-- One call. -/
theorem outputCallStep_eq {buf : Addr} {s : Console} {e : OutputEvent} (h : e.Made buf s) :
    ∃ k', outputCallStep buf s e = some ⟨k', print s.terminal e.call.shown⟩ := by
  obtain ⟨enter, call⟩ := e
  cases call with
  | print text =>
    obtain ⟨ptr, shape, pm, rs, hreq⟩ := h
    obtain ⟨k', hcall⟩ := isr80hCommand1Print_eq (s := ⟨enter s.kernel, s.terminal⟩) hreq
    exact ⟨k', congrArg (Option.map Prod.snd) hcall⟩
  | printRefused held =>
    obtain ⟨k', hcall⟩ := isr80hCommand1Print_refused (s := ⟨enter s.kernel, s.terminal⟩) h
    exact ⟨k', congrArg (Option.map Prod.snd) hcall⟩
  | putchar c =>
    obtain ⟨item, rfl, hitem⟩ := h
    refine ⟨enter s.kernel, ?_⟩
    show (isr80hCommand3Putchar ⟨enter s.kernel, s.terminal⟩).map Prod.snd = _
    unfold isr80hCommand3Putchar
    rw [bind_get, bind_of_some (silently_some (s := ⟨enter s.kernel, s.terminal⟩) hitem)]
    rfl

/-- **Output appears in order.** After any run of calls that print, whatever the programs do between
them, the terminal is as after printing the texts one after the other. -/
theorem program_output (buf : Addr) (events : List OutputEvent) (s : Console)
    (hmade : AlongPartial (outputCallStep buf) (fun s e => e.Made buf s) s events) :
    ∃ s', runPartial (outputCallStep buf) s events = some s' ∧
      s'.terminal = print s.terminal (events.flatMap fun e => e.call.shown) := by
  induction events generalizing s with
  | nil => exact ⟨s, rfl, rfl⟩
  | cons e events ih =>
    obtain ⟨hfirst, hrest⟩ := hmade
    obtain ⟨k', hstep⟩ := outputCallStep_eq hfirst
    obtain ⟨s', hrun, hterm⟩ := ih _ (hrest _ hstep)
    refine ⟨s', (runPartial_step hstep events).trans hrun, ?_⟩
    rw [hterm, List.flatMap_cons]
    exact (List.foldl_append).symm

/-- A request of fewer bytes but as many blocks is granted the same block. -/
theorem kzalloc_of_fewer {heap heap' : Heap} {size size' : BitVec 32} {ptr : Addr}
    (hblocks : heapTotalBlocks size = heapTotalBlocks size') (hle : size.toNat ≤ size'.toNat)
    (h : heap.kzalloc size' = some (ptr, heap')) : heap.kzalloc size = some (ptr, heap') := by
  unfold Heap.kzalloc heapMalloc at h ⊢
  rw [hblocks]
  by_cases hnull : (heapMallocBlocks heap (heapTotalBlocks size')).1 = 0#32
  · simp only [hnull, if_true] at h ⊢
    exact h
  · simp only [if_neg hnull] at h ⊢
    split at h
    · rename_i harena
      rw [if_pos]
      · exact h
      · unfold Heap.InArena at harena ⊢
        omega
    · cases h

/-- A caller with a text of up to 2000 characters. -/
theorem printRequest_boot (text : List (BitVec 8)) (hz : 0#8 ∉ text) (hlen : text.length ≤ 2000) :
    ∃ k ptr shape pm rs, PrintRequest k 0x5ff000#32 ptr shape pm rs text := by
  obtain ⟨s, shape, pm, rs, -, htotal, hfree, h, -⟩ := pathRequests_boot text hz hlen
  refine ⟨s.kernel, 0x3fd800#32, shape, pm, rs, h.pages, h.item, h.seen,
    fun tmp heap htmp => h.clear tmp heap (kzalloc_of_fewer (by decide) (by decide) htmp),
    fun i hi => .inl ?_, freeBlocks_pos fun hfull => hfull 1040 (by omega) hfree⟩
  unfold pageOf
  rw [BitVec.toNat_add, BitVec.toNat_ofNat, BitVec.toNat_ofNat]
  omega

/-- A text of 1500 characters is cut, and the next one follows it. -/
theorem program_output_two : ∃ (k₁ k₂ : Kernel) (s s' : Console),
    runPartial (outputCallStep 0x5ff000#32) s
        [⟨fun _ => k₁, .print (List.replicate 1500 0x61#8)⟩, ⟨fun _ => k₂, .print [0x62#8]⟩] =
          some s' ∧
      s'.terminal = print s.terminal (List.replicate 1023 0x61#8 ++ [0x62#8]) := by
  obtain ⟨k₁, ptr₁, shape₁, pm₁, rs₁, h₁⟩ := printRequest_boot (List.replicate 1500 0x61#8)
    (fun hmem => absurd (List.eq_of_mem_replicate hmem) (by decide))
    (by rw [List.length_replicate]; omega)
  obtain ⟨k₂, ptr₂, shape₂, pm₂, rs₂, h₂⟩ := printRequest_boot [0x62#8] (by decide) (by decide)
  obtain ⟨s', hrun, hterm⟩ := program_output 0x5ff000#32
    [⟨fun _ => k₁, .print (List.replicate 1500 0x61#8)⟩, ⟨fun _ => k₂, .print [0x62#8]⟩]
    ⟨k₁, .boot fun _ => 0#16⟩ ⟨⟨_, _, _, _, h₁⟩, fun _ _ => ⟨⟨_, _, _, _, h₂⟩, fun _ _ => trivial⟩⟩
  refine ⟨k₁, k₂, _, s', hrun, ?_⟩
  rw [hterm, List.flatMap_cons, List.flatMap_cons, List.flatMap_nil]
  simp only [OutputCall.shown, List.take_replicate, List.take_succ_cons, List.take_nil,
    List.append_nil, Nat.reduceLeDiff, Nat.min_eq_left]

end MaerOS.Analysis
