import MaerOS.Model.Idt

/-!
# Where an interrupt leads

The gates that `idt_set` writes are read back by the processor (`idtSet_eq` and the
round trip of the format), so after `idt_init` every vector leads where the table
says, whoever raises it. From there `interrupt_handler` calls the handler that was
registered last. The table of the system calls never loses a command: registering
one twice is a panic.
-/

set_option autoImplicit false

namespace MaerOS.Analysis

open MaerOS.Lib MaerOS.Model

/-! ## One gate -/

/-- The bytes of the gate of a handler. -/
def handlerGate (address : Addr) : List (BitVec 8) :=
  encodeGate address kernelCodeSelector 0x00#8 0xEE#8

/-- The low half of an address, byte by byte. -/
theorem low_half_extract (x : BitVec 32) {s : ℕ} (hs : s ≤ 8) :
    ((x &&& 0x0000ffff#32).setWidth 16).extractLsb' s 8 = x.extractLsb' s 8 := by
  apply BitVec.eq_of_getLsbD_eq
  intro i hi
  have hmask : (0x0000ffff#32).getLsbD (s + i) = true := by
    have : s + i < 16 := by omega
    interval_cases h : s + i <;> rfl
  simp only [BitVec.getLsbD_extractLsb', BitVec.getLsbD_setWidth, BitVec.getLsbD_and, hmask,
    Bool.and_true]
  rw [decide_eq_true (show s + i < 16 by omega), Bool.true_and]

/-- The high half. -/
theorem high_half_extract (x : BitVec 32) {s : ℕ} (hs : s ≤ 8) :
    ((x >>> 16).setWidth 16).extractLsb' s 8 = x.extractLsb' (16 + s) 8 := by
  apply BitVec.eq_of_getLsbD_eq
  intro i hi
  simp only [BitVec.getLsbD_extractLsb', BitVec.getLsbD_setWidth, BitVec.getLsbD_ushiftRight]
  rw [decide_eq_true (show s + i < 16 by omega), Bool.true_and, Nat.add_assoc]

/-- **`idt_set`** writes one gate. -/
theorem idtSet_eq (idt_descriptors : Addr) (m : Memory) (interrupt_no : ℕ) (address : Addr) :
    idtSet idt_descriptors m interrupt_no address =
      storeBytes m (idt_descriptors + BitVec.ofNat 32 (8 * interrupt_no)) (handlerGate address) := by
  have hgate : handlerGate address =
      [address.extractLsb' 0 8, address.extractLsb' 8 8] ++
        ([kernelCodeSelector.extractLsb' 0 8, kernelCodeSelector.extractLsb' 8 8] ++
          ([0x00#8] ++ ([0xEE#8] ++
            [address.extractLsb' (16 + 0) 8, address.extractLsb' (16 + 8) 8]))) := rfl
  unfold idtSet store16
  rw [low_half_extract address (by omega), low_half_extract address (by omega),
    high_half_extract address (by omega), high_half_extract address (by omega)]
  dsimp only
  rw [update_eq_storeBytes, update_eq_storeBytes, hgate, storeBytes_append _ _ _ (by simp),
    storeBytes_append _ _ _ (by simp), storeBytes_append _ _ _ (by simp),
    storeBytes_append _ _ _ (by simp)]
  simp only [List.length_cons, List.length_nil, BitVec.add_assoc]
  rfl

theorem length_handlerGate (address : Addr) : (handlerGate address).length = 8 := rfl

/-- Any code may raise an interrupt through such a gate. -/
theorem deliver_handlerGate {m : Memory} {base address : Addr} {vector : BitVec 8}
    (h : HoldsGate m base vector.toNat (handlerGate address)) (cause : Cause) :
    deliver m (BitVec.ofNat 16 (8 * maerosTotalInterrupts - 1)) base cause vector =
      some ⟨address, kernelCodeSelector, true, 3#2, interruptGate⟩ := by
  have hlt := vector.isLt
  have hdecode : decodeGate (gateBytes m base vector.toNat) =
      ⟨address, kernelCodeSelector, true, 3#2, interruptGate⟩ := by
    rw [h.decode]
    exact decode_encodeGate address kernelCodeSelector 0x00#8 0xEE#8
  have hallowed : cause.Allowed 3#2 := by
    cases cause with
    | software cpl =>
      show cpl ≤ 3#2
      rw [BitVec.le_def]
      have := cpl.isLt
      exact Nat.le_of_lt_succ this
    | other => trivial
  have hlimit : (BitVec.ofNat 16 (8 * maerosTotalInterrupts - 1)).toNat = 4095 := rfl
  unfold deliver
  rw [hlimit, if_neg (by omega)]
  dsimp only
  rw [hdecode, if_pos ⟨rfl, rfl, hallowed⟩]

/-! ## The whole table -/

/-- The byte lies behind the table or before it. -/
def OffTable (p : IdtPlaces) (x : Addr) : Prop := 4096 ≤ (x - p.idt_descriptors).toNat

section Table

variable {p : IdtPlaces} {m : Memory}

theorem idtSet_offTable {x : Addr} (hx : OffTable p x) {i : ℕ} (hi : i < 512) (address : Addr) :
    idtSet p.idt_descriptors m i address x = m x := by
  rw [idtSet_eq]
  refine storeBytes_of_far ?_
  unfold OffTable at hx
  rw [length_handlerGate]
  have hsub : x - (p.idt_descriptors + BitVec.ofNat 32 (8 * i)) =
      x - p.idt_descriptors - BitVec.ofNat 32 (8 * i) := by bv_omega
  have hlt := (x - p.idt_descriptors).isLt
  rw [hsub, BitVec.toNat_sub, BitVec.toNat_ofNat]
  omega

theorem holdsGate_idtSet (v : ℕ) (address : Addr) :
    HoldsGate (idtSet p.idt_descriptors m v address) p.idt_descriptors v (handlerGate address) := by
  rw [idtSet_eq]
  exact holdsGate_storeBytes m _ v (length_handlerGate address)

/-- Setting one gate keeps the others. -/
theorem idtSet_keeps {v i : ℕ} {bytes : List (BitVec 8)}
    (h : HoldsGate m p.idt_descriptors v bytes) (hv : v < 512) (hi : i < 512) (hne : v ≠ i)
    (address : Addr) :
    HoldsGate (idtSet p.idt_descriptors m i address) p.idt_descriptors v bytes := by
  rw [idtSet_eq]
  exact h.storeBytes (length_handlerGate address) (by omega) (by omega) hne

/-- **The loop** sets the gates one after the other. -/
theorem idtSetLoop_spec {n : ℕ} (hn : n ≤ 512) :
    (∀ v < n, HoldsGate (idtSetLoop p m n) p.idt_descriptors v
      (handlerGate (p.interrupt_pointer_table v))) ∧
      ∀ x, OffTable p x → idtSetLoop p m n x = m x := by
  induction n with
  | zero => exact ⟨fun v hv => absurd hv (by omega), fun _ _ => rfl⟩
  | succ n ih =>
    obtain ⟨hgates, hoff⟩ := ih (by omega)
    have hstep : idtSetLoop p m (n + 1) =
        idtSet p.idt_descriptors (idtSetLoop p m n) n (p.interrupt_pointer_table n) := by
      unfold idtSetLoop
      rw [List.range_succ, List.foldl_append]
      rfl
    rw [hstep]
    refine ⟨fun v hv => ?_, fun x hx => ?_⟩
    · rcases Nat.lt_succ_iff_lt_or_eq.mp hv with hlt | rfl
      · exact idtSet_keeps (hgates v hlt) (by omega) (by omega) (by omega) _
      · exact holdsGate_idtSet v _
    · rw [idtSet_offTable hx (by omega), hoff x hx]

end Table

/-! ## Handlers -/

/-- The handler that was registered last for a vector, if any was. -/
def lastRegistered (old : ℕ → Addr) (regs : List (ℤ × Addr)) (v : ℕ) : Addr :=
  ((regs.reverse.find? fun r => r.1 == (v : ℤ)).map Prod.snd).getD (old v)

/-- Registering handlers one after the other. -/
def registerAll (s : Idt) (regs : List (ℤ × Addr)) : Idt :=
  regs.foldl (fun s r => s.register r.1 r.2) s

section Handlers

variable {s : Idt} {regs : List (ℤ × Addr)}

/-- A registration changes the handler of its vector alone. -/
theorem register_eq (s : Idt) (interrupt : ℤ) (interrupt_callback : Addr) {v : ℕ} (hv : v < 512) :
    (s.register interrupt interrupt_callback).interrupt_callbacks v =
      if interrupt = v then interrupt_callback else s.interrupt_callbacks v := by
  unfold Idt.register idtRegisterInterruptCallback
  by_cases hout : interrupt < 0 ∨ interrupt ≥ maerosTotalInterrupts
  · rw [if_pos hout, if_neg (by rintro rfl; unfold maerosTotalInterrupts at hout; omega)]
  · rw [if_neg hout]
    by_cases heq : interrupt = v
    · subst heq
      rw [if_pos rfl]
      exact Function.update_self ..
    · rw [if_neg heq]
      exact Function.update_of_ne (by omega) _ _

/-- The first registration counts where no later one does. -/
theorem lastRegistered_cons (old : ℕ → Addr) (r : ℤ × Addr) (regs : List (ℤ × Addr)) (v : ℕ) :
    lastRegistered old (r :: regs) v =
      lastRegistered (fun v => if r.1 = v then r.2 else old v) regs v := by
  unfold lastRegistered
  rw [List.reverse_cons, List.find?_append]
  cases regs.reverse.find? fun r => r.1 == (v : ℤ) with
  | some r' => rfl
  | none =>
    rw [Option.none_or, List.find?_singleton]
    by_cases heq : r.1 = v
    · simp [heq]
    · simp [heq]

/-- **The handlers** are those registered last; registering changes nothing else. -/
theorem registerAll_spec (s : Idt) (regs : List (ℤ × Addr)) : (registerAll s regs).mem = s.mem ∧
    (registerAll s regs).loaded = s.loaded ∧ ∀ v < 512,
      (registerAll s regs).interrupt_callbacks v =
        lastRegistered s.interrupt_callbacks regs v := by
  induction regs generalizing s with
  | nil => exact ⟨rfl, rfl, fun _ _ => rfl⟩
  | cons r regs ih =>
    obtain ⟨hmem, hloaded, hcalls⟩ := ih (s.register r.1 r.2)
    refine ⟨hmem, hloaded, fun v hv => ?_⟩
    rw [lastRegistered_cons]
    refine (hcalls v hv).trans ?_
    unfold lastRegistered
    rw [register_eq s r.1 r.2 hv]

/-- The handlers `idt_init` registers. -/
def initialHandlers (p : IdtPlaces) : List (ℤ × Addr) :=
  (List.range 0x20).map (fun i : ℕ => ((i : ℤ), p.idt_handle_exception)) ++ [(0x20, p.idt_clock)]

/-- The handlers that `idt_init` registers: that of exceptions, and the clock. -/
theorem lastRegistered_initialHandlers (p : IdtPlaces) (old : ℕ → Addr) (v : ℕ) :
    lastRegistered old (initialHandlers p) v =
      if v < 0x20 then p.idt_handle_exception else if v = 0x20 then p.idt_clock else old v := by
  have hrange : ∀ n, lastRegistered old
      ((List.range n).map fun i : ℕ => ((i : ℤ), p.idt_handle_exception)) v =
        if v < n then p.idt_handle_exception else old v := by
    intro n
    induction n with
    | zero => rfl
    | succ n ih =>
      unfold lastRegistered at ih ⊢
      rw [List.range_succ, List.map_append, List.reverse_append]
      by_cases hvn : v = n
      · subst hvn
        rw [if_pos (by omega)]
        simp
      · have hne : ¬ (n : ℤ) = v := by omega
        have hiff : v < n + 1 ↔ v < n := by omega
        simp only [hiff, ← ih]
        simp [hne]
  unfold initialHandlers
  have hlast := hrange 0x20
  unfold lastRegistered at hlast ⊢
  rw [List.reverse_append]
  by_cases hclock : v = 0x20
  · subst hclock
    simp
  · have hne : ¬ (0x20 : ℤ) = v := by omega
    rw [if_neg hclock, ← hlast]
    simp [hne]

end Handlers

/-! ## The table that is loaded -/

/-- Memory after `idt_init`. -/
def tableMemory (p : IdtPlaces) (m : Memory) : Memory :=
  let m := zeroFill m p.idt_descriptors (8 * maerosTotalInterrupts)
  let m := store16 m p.idtr_descriptor (BitVec.ofNat 16 (8 * maerosTotalInterrupts - 1))
  let m := store32 m (p.idtr_descriptor + 2#32) p.idt_descriptors
  let m := idtSetLoop p m maerosTotalInterrupts
  let m := idtSet p.idt_descriptors m 0 p.idt_zero
  idtSet p.idt_descriptors m 0x80 p.isr80h_wrapper

/-- Where a vector leads. -/
def vectorEntry (p : IdtPlaces) (v : ℕ) : Addr :=
  if v = 0x80 then p.isr80h_wrapper
  else if v = 0 then p.idt_zero
  else p.interrupt_pointer_table v

section Loaded

variable (p : IdtPlaces) (m : Memory)

theorem tableMemory_gate {v : ℕ} (hv : v < 512) :
    HoldsGate (tableMemory p m) p.idt_descriptors v (handlerGate (vectorEntry p v)) := by
  unfold tableMemory vectorEntry
  dsimp only
  by_cases hcall : v = 0x80
  · subst hcall
    rw [if_pos rfl]
    exact holdsGate_idtSet _ _
  rw [if_neg hcall]
  refine idtSet_keeps ?_ hv (by omega) hcall _
  by_cases hzero : v = 0
  · subst hzero
    rw [if_pos rfl]
    exact holdsGate_idtSet _ _
  rw [if_neg hzero]
  exact idtSet_keeps ((idtSetLoop_spec le_rfl).1 v hv) hv (by omega) hzero _

/-- Off the table memory holds what the processor is told, and nothing else changes. -/
theorem tableMemory_off {x : Addr} (hx : OffTable p x) :
    tableMemory p m x = store32 (store16 m p.idtr_descriptor 4095#16) (p.idtr_descriptor + 2#32)
      p.idt_descriptors x := by
  have hzero : zeroFill m p.idt_descriptors (8 * maerosTotalInterrupts) x = m x := by
    unfold zeroFill
    unfold OffTable at hx
    rw [if_neg (by unfold maerosTotalInterrupts; omega)]
  unfold tableMemory
  rw [idtSet_offTable hx (by omega), idtSet_offTable hx (by omega), (idtSetLoop_spec le_rfl).2 x hx]
  unfold store32 store16 storeBytes
  rw [hzero]
  rfl

theorem tableMemory_rest {x : Addr} (hx : OffTable p x) (hfar : 6 ≤ (x - p.idtr_descriptor).toNat) :
    tableMemory p m x = m x := by
  rw [tableMemory_off p m hx, store32_of_far (by
    have hsub : x - (p.idtr_descriptor + 2#32) = x - p.idtr_descriptor - 2#32 := by bv_omega
    rw [hsub, BitVec.toNat_sub_of_le (by rw [BitVec.le_def]; exact le_trans (by decide) hfar)]
    have h2 : (2#32).toNat = 2 := rfl
    omega)]
  exact storeBytes_of_far (le_trans (by decide) hfar)

/-- The processor is told where the table is and how long. -/
theorem tableMemory_loaded (hapart : ∀ i < 6, OffTable p (p.idtr_descriptor + BitVec.ofNat 32 i)) :
    load16 (tableMemory p m) p.idtr_descriptor = 4095#16 ∧
      load32 (tableMemory p m) (p.idtr_descriptor + 2#32) = p.idt_descriptors := by
  have hoff : ∀ i < 6, tableMemory p m (p.idtr_descriptor + BitVec.ofNat 32 i) =
      store32 (store16 m p.idtr_descriptor 4095#16) (p.idtr_descriptor + 2#32) p.idt_descriptors
        (p.idtr_descriptor + BitVec.ofNat 32 i) := fun i hi => tableMemory_off p m (hapart i hi)
  constructor
  · have h0 := hoff 0 (by omega)
    have h1 := hoff 1 (by omega)
    rw [show p.idtr_descriptor + BitVec.ofNat 32 0 = p.idtr_descriptor from by simp] at h0
    have hself := load16_store16_self m p.idtr_descriptor 4095#16
    unfold load16 at hself ⊢
    rw [h0, show p.idtr_descriptor + 1#32 = p.idtr_descriptor + BitVec.ofNat 32 1 from rfl, h1,
      store32_of_far (by bv_omega), store32_of_far (by bv_omega)]
    exact hself
  · refine (load32_congr (m := store32 (store16 m p.idtr_descriptor 4095#16)
      (p.idtr_descriptor + 2#32) p.idt_descriptors) (hoff 2 (by omega)) ?_ ?_ ?_).trans
      (load32_store32_self _ _ _)
    · rw [BitVec.add_assoc]
      exact hoff 3 (by omega)
    · rw [BitVec.add_assoc]
      exact hoff 4 (by omega)
    · rw [BitVec.add_assoc]
      exact hoff 5 (by omega)

/-- The table is written, and then the first handlers are registered. -/
def withHandlers (s : Idt) : Idt :=
  registerAll { s with mem := tableMemory p s.mem } (initialHandlers p)

theorem withHandlers_mem (s : Idt) : (withHandlers p s).mem = tableMemory p s.mem :=
  (registerAll_spec { s with mem := tableMemory p s.mem } (initialHandlers p)).1

/-- **`idt_init`** is the table and the first handlers. -/
theorem idtInit_eq (s : Idt) : idtInit p s = { withHandlers p s with
    loaded := (load16 (withHandlers p s).mem p.idtr_descriptor,
      load32 (withHandlers p s).mem (p.idtr_descriptor + 2#32)) } := by
  have hfold : ∀ s : Idt,
      ((List.range 0x20).foldl (fun s (i : ℕ) => s.register i p.idt_handle_exception) s).register
        0x20 p.idt_clock = registerAll s (initialHandlers p) := by
    intro s
    unfold registerAll initialHandlers
    rw [List.foldl_append, List.foldl_map]
    rfl
  unfold idtInit withHandlers
  dsimp only
  rw [hfold]
  rfl

theorem idtInit_mem (s : Idt) : (idtInit p s).mem = tableMemory p s.mem := by
  rw [idtInit_eq]
  dsimp only
  rw [withHandlers_mem]

/-- What `lidt` loads: the table and its limit. -/
theorem idtInit_loaded (s : Idt)
    (hapart : ∀ i < 6, OffTable p (p.idtr_descriptor + BitVec.ofNat 32 i)) :
    (idtInit p s).loaded = (4095#16, p.idt_descriptors) := by
  obtain ⟨hlimit, hbase⟩ := tableMemory_loaded p s.mem hapart
  rw [idtInit_eq, withHandlers_mem]
  exact Prod.ext hlimit hbase

/-- The handlers in the table of `idt_init`. -/
def firstHandlers (s : Idt) (v : ℕ) : Addr :=
  if v < 0x20 then p.idt_handle_exception
  else if v = 0x20 then p.idt_clock
  else s.interrupt_callbacks v

theorem idtInit_callbacks (s : Idt) {v : ℕ} (hv : v < 512) :
    (idtInit p s).interrupt_callbacks v = firstHandlers p s v := by
  rw [idtInit_eq]
  exact ((registerAll_spec { s with mem := tableMemory p s.mem }
    (initialHandlers p)).2.2 v hv).trans (lastRegistered_initialHandlers p _ v)

/-- **Where interrupts lead.** After `idt_init` and any registrations, every vector is delivered,
whoever raises it: division by zero straight to `idt_zero`, `0x80` to the system calls, every other
one to the entry with its number, and `interrupt_handler` then behaves as if the table of handlers
held for this number what was registered last. Memory outside the table and its descriptor is as it
was. -/
theorem interrupt_table_leads (s : Idt)
    (hapart : ∀ i < 6, OffTable p (p.idtr_descriptor + BitVec.ofNat 32 i))
    (regs : List (ℤ × Addr)) (cause : Cause) (vector : BitVec 8) :
    deliver (registerAll (idtInit p s) regs).mem (registerAll (idtInit p s) regs).loaded.1
        (registerAll (idtInit p s) regs).loaded.2 cause vector =
      some ⟨vectorEntry p vector.toNat, kernelCodeSelector, true, 3#2, interruptGate⟩ ∧
    (∀ {σ : Type} (calls : InterruptCalls σ) (frame : Addr) (st : σ),
      interruptHandler calls (registerAll (idtInit p s) regs).interrupt_callbacks vector.toNat frame
          st =
        interruptHandler calls (lastRegistered (firstHandlers p s) regs) vector.toNat frame st) ∧
    ∀ x, OffTable p x → 6 ≤ (x - p.idtr_descriptor).toNat →
      (registerAll (idtInit p s) regs).mem x = s.mem x := by
  have hlt := vector.isLt
  obtain ⟨hmem, hloaded, hcalls⟩ := registerAll_spec (idtInit p s) regs
  refine ⟨?_, fun calls frame st => ?_, fun x hx hfar => ?_⟩
  · rw [hmem, idtInit_mem, hloaded, idtInit_loaded p s hapart]
    exact deliver_handlerGate (tableMemory_gate p s.mem (by omega)) cause
  · have hcallback : (registerAll (idtInit p s) regs).interrupt_callbacks vector.toNat =
        lastRegistered (firstHandlers p s) regs vector.toNat := by
      rw [hcalls _ (by omega)]
      unfold lastRegistered
      rw [idtInit_callbacks p s (by omega)]
    unfold interruptHandler
    rw [hcallback]
  · rw [hmem, idtInit_mem]
    exact tableMemory_rest p s.mem hx hfar

end Loaded

/-- A place for everything, with entries of 16 bytes. -/
def somePlaces : IdtPlaces where
  idt_descriptors := 0x00110000#32
  idtr_descriptor := 0x00112000#32
  interrupt_pointer_table := fun v => 0x00101000#32 + BitVec.ofNat 32 (16 * v)
  idt_zero := 0x00104000#32
  isr80h_wrapper := 0x00104100#32
  idt_handle_exception := 0x00104200#32
  idt_clock := 0x00104300#32

/-- The keyboard, whose handler is registered after `idt_init`: a program may raise its interrupt,
and it leads to the entry with its number. -/
theorem interrupt_table_leads_keyboard : ∃ s s' : Idt,
    s' = registerAll (idtInit somePlaces s) [(0x21, 0x00105000#32)] ∧
      deliver s'.mem s'.loaded.1 s'.loaded.2 (.software 3#2) 0x21#8 =
        some ⟨0x00101210#32, kernelCodeSelector, true, 3#2, interruptGate⟩ :=
  ⟨⟨fun _ => 0#8, fun _ => 0#32, (0#16, 0#32)⟩, _, rfl, (interrupt_table_leads somePlaces _ (by
    intro i hi
    unfold OffTable
    interval_cases i <;> decide) [(0x21, 0x00105000#32)] (.software 3#2) 0x21#8).1⟩

/-! ## System calls -/

section Commands

variable {table : ℕ → Addr} {regs : List (ℤ × Addr)}

/-- Commands registered one after the other, unless one of them panics. -/
def registerCommands (table : ℕ → Addr) (regs : List (ℤ × Addr)) : Option (ℕ → Addr) :=
  regs.foldlM (fun table r => isr80hRegisterCommand table r.1 r.2) table

/-- The command that was registered under a number. -/
def commandOf (regs : List (ℤ × Addr)) (command : ℤ) : Option Addr :=
  (regs.find? fun r => r.1 == command).map Prod.snd

/-- The numbers can be registered in a table: they fit, are free and are all different. -/
structure Registrable (table : ℕ → Addr) (regs : List (ℤ × Addr)) : Prop where
  fits : ∀ r ∈ regs, 0 ≤ r.1 ∧ r.1 < maerosMaxIsr80hCommands
  free : ∀ r ∈ regs, table r.1.toNat = 0#32
  distinct : (regs.map Prod.fst).Nodup

/-- A command is registered exactly under a free number of the table. -/
theorem isr80hRegisterCommand_some_iff {command_id : ℤ} {command : Addr} {table' : ℕ → Addr} :
    isr80hRegisterCommand table command_id command = some table' ↔
      (0 ≤ command_id ∧ command_id < maerosMaxIsr80hCommands) ∧
        table command_id.toNat = 0#32 ∧
        table' = Function.update table command_id.toNat command := by
  unfold isr80hRegisterCommand
  split_ifs with hout htaken
  · exact iff_of_false (by simp) fun h => by omega
  · exact iff_of_false (by simp) fun h => htaken h.2.1
  · rw [Option.some.injEq, eq_comm]
    refine ⟨fun h => ⟨by omega, not_not.mp htaken, h⟩, fun h => h.2.2⟩

/-- A command that is not null takes its number. -/
theorem registrable_cons {r : ℤ × Addr} (hr : r.2 ≠ 0#32) :
    Registrable table (r :: regs) ↔
      ((0 ≤ r.1 ∧ r.1 < maerosMaxIsr80hCommands) ∧ table r.1.toNat = 0#32) ∧
        Registrable (Function.update table r.1.toNat r.2) regs := by
  constructor
  · intro h
    obtain ⟨hnot, hdistinct⟩ := List.nodup_cons.mp h.distinct
    obtain ⟨hhead, hfits⟩ := List.forall_mem_cons.mp h.fits
    obtain ⟨hfree, hrest⟩ := List.forall_mem_cons.mp h.free
    refine ⟨⟨hhead, hfree⟩, hfits, fun r' hr' => ?_, hdistinct⟩
    have hne : r'.1 ≠ r.1 := fun heq => hnot (heq ▸ List.mem_map_of_mem hr')
    have := hfits r' hr'
    rw [Function.update_of_ne (by omega)]
    exact hrest r' hr'
  · rintro ⟨⟨hhead, hfree⟩, h⟩
    have hne : ∀ r' ∈ regs, r'.1.toNat ≠ r.1.toNat := by
      intro r' hr' heq
      have hzero := h.free r' hr'
      rw [heq, Function.update_self] at hzero
      exact hr hzero
    refine ⟨List.forall_mem_cons.mpr ⟨hhead, h.fits⟩, List.forall_mem_cons.mpr ⟨hfree, ?_⟩,
      List.nodup_cons.mpr ⟨?_, h.distinct⟩⟩
    · intro r' hr'
      rw [← h.free r' hr', Function.update_of_ne (hne r' hr')]
    · intro hmem
      obtain ⟨r', hr', heq⟩ := List.mem_map.mp hmem
      exact hne r' hr' (by rw [heq])

/-- No command is registered under a number that is taken. -/
theorem Registrable.commandOf_taken (h : Registrable table regs) {v : ℕ} (hv : table v ≠ 0#32) :
    commandOf regs v = none := by
  unfold commandOf
  rw [Option.map_eq_none_iff, List.find?_eq_none]
  intro r hr heq
  have hfree := h.free r hr
  have hrv : r.1 = v := by simpa using heq
  rw [hrv] at hfree
  exact hv hfree

/-- **A run of registrations**: it ends without a panic when the numbers can be registered, and the
table then holds the new commands beside the old ones. -/
theorem registerCommands_spec (table : ℕ → Addr) (hsome : ∀ r ∈ regs, r.2 ≠ 0#32) :
    ((registerCommands table regs).isSome ↔ Registrable table regs) ∧
      ∀ table', registerCommands table regs = some table' → ∀ v : ℕ,
        table' v = (commandOf regs v).getD (table v) := by
  induction regs generalizing table with
  | nil =>
    refine ⟨iff_of_true rfl ⟨by simp, by simp, by simp⟩, fun table' h v => ?_⟩
    cases h
    rfl
  | cons r regs ih =>
    obtain ⟨hr, hrest⟩ := List.forall_mem_cons.mp hsome
    have hcons : registerCommands table (r :: regs) =
        (isr80hRegisterCommand table r.1 r.2).bind fun table => registerCommands table regs := rfl
    rw [hcons, registrable_cons hr]
    by_cases hcan : (0 ≤ r.1 ∧ r.1 < maerosMaxIsr80hCommands) ∧ table r.1.toNat = 0#32
    · obtain ⟨hiff, htable⟩ := ih (Function.update table r.1.toNat r.2) hrest
      rw [isr80hRegisterCommand_some_iff.mpr ⟨hcan.1, hcan.2, rfl⟩, Option.bind_some]
      refine ⟨hiff.trans (and_iff_right hcan).symm, fun table' h v => ?_⟩
      rw [htable table' h v]
      by_cases heq : r.1 = v
      · have hv : v = r.1.toNat := by omega
        have hnone : commandOf regs v = none := by
          refine (hiff.mp (by rw [h]; rfl)).commandOf_taken ?_
          rw [hv, Function.update_self]
          exact hr
        rw [hnone]
        unfold commandOf
        rw [List.find?_cons_of_pos (by simpa using heq), hv]
        exact Function.update_self ..
      · unfold commandOf
        rw [List.find?_cons_of_neg (by simpa using heq), Function.update_of_ne (by omega)]
    · have hnone : isr80hRegisterCommand table r.1 r.2 = none := by
        cases hreg : isr80hRegisterCommand table r.1 r.2 with
        | none => rfl
        | some table' =>
          obtain ⟨hfit, hfree, -⟩ := isr80hRegisterCommand_some_iff.mp hreg
          exact absurd ⟨hfit, hfree⟩ hcan
      rw [hnone]
      exact ⟨iff_of_false (by simp) fun h => hcan h.1, fun _ h => by cases h⟩

end Commands

/-- **The system calls.** Registering commands in the empty table ends without a panic exactly when
their numbers fit and are all different. Whatever number a program then asks for, negative and too
large ones included, the command registered under it is carried out, and if there is none the answer
is zero and nothing happens. -/
theorem system_call_table (regs : List (ℤ × Addr)) (hsome : ∀ r ∈ regs, r.2 ≠ 0#32) :
    ((registerCommands (fun _ => 0#32) regs).isSome ↔
      (∀ r ∈ regs, 0 ≤ r.1 ∧ r.1 < maerosMaxIsr80hCommands) ∧ (regs.map Prod.fst).Nodup) ∧
    ∀ table, registerCommands (fun _ => 0#32) regs = some table →
      ∀ {σ : Type} (call : (command_func frame : Addr) → σ → Option (Addr × σ)) (command : ℤ)
        (frame : Addr) (s : σ), isr80hHandleCommand table call command frame s =
          match commandOf regs command with
          | some command_func => call command_func frame s
          | none => some (0#32, s) := by
  obtain ⟨hiff, htable⟩ := registerCommands_spec (fun _ => 0#32) hsome
  refine ⟨hiff.trans ⟨fun h => ⟨h.fits, h.distinct⟩, fun h => ⟨h.1, fun _ _ => rfl, h.2⟩⟩, ?_⟩
  intro table hrun σ call command frame s
  have hregs := hiff.mp (by rw [hrun]; rfl)
  unfold isr80hHandleCommand
  by_cases hout : command < 0 ∨ command ≥ maerosMaxIsr80hCommands
  · have hnone : commandOf regs command = none := by
      unfold commandOf
      rw [Option.map_eq_none_iff, List.find?_eq_none]
      intro r hr heq
      have := hregs.fits r hr
      have heq' : r.1 = command := by simpa using heq
      omega
    rw [if_pos hout, hnone]
  · rw [if_neg hout]
    have hentry := htable table hrun command.toNat
    rw [Int.toNat_of_nonneg (by omega)] at hentry
    dsimp only
    rw [hentry]
    cases hcommand : commandOf regs command with
    | none => rfl
    | some command_func =>
      obtain ⟨r, hfind, rfl⟩ := Option.map_eq_some_iff.mp hcommand
      exact if_neg (hsome r (List.mem_of_find?_eq_some hfind))

/-- The ten commands of the kernel: what the library asks for under 7 is the seventh, and nothing
answers to 10. -/
theorem system_call_table_kernel :
    ∃ table, isr80hRegisterCommands (fun _ => 0#32) (fun i => BitVec.ofNat 32 (i + 1)) = some table ∧
      isr80hHandleCommand table (fun command_func _ (n : ℕ) => some (command_func, n + 1)) 7 0#32 0 =
        some (8#32, 1) ∧
      isr80hHandleCommand table (fun command_func _ (n : ℕ) => some (command_func, n + 1)) 10 0#32 0 =
        some (0#32, 0) := by
  obtain ⟨hiff, hcalls⟩ := system_call_table
    ((List.range 10).map fun i : ℕ => ((i : ℤ), BitVec.ofNat 32 (i + 1))) (by decide)
  obtain ⟨table, htable⟩ := Option.isSome_iff_exists.mp (hiff.mpr (by decide))
  refine ⟨table, ?_, hcalls table htable _ 7 0#32 0, hcalls table htable _ 10 0#32 0⟩
  rw [← htable]
  rfl

end MaerOS.Analysis
