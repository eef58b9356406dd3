import MaerOS.Analysis.Keyboard
import MaerOS.Model.KeyboardDriver

/-!
# What a program reads is what was typed while it had the keyboard

A run is any sequence of scan codes, calls of the system call for a key by whatever task
is running, and other work of the kernel, which may do anything but touch the keyboard:
switch tasks, start and end other processes, give the keyboard to another one. For a
single process such a run amounts to pushes of the characters typed while the process
had the keyboard and to pops by its own calls. Capitals follow from the number of times
the caps lock key has been pressed.
-/

set_option autoImplicit false

namespace MaerOS.Analysis

open MaerOS.Lib MaerOS.Model

/-- What happens at the desk: a byte from the keyboard, a call for a key, or anything else that the
kernel does, given by the state it leaves. -/
inductive DeskEvent where
  | key (scancode : BitVec 8)
  | getkey
  | other (kernel : Kernel)

/-- The process of the current task, the one that a call for a key comes from. -/
def callerOf (k : Kernel) : Addr :=
  if k.sched.current_task = 0#32 then 0#32 else (k.sched.tasks k.sched.current_task).process

/-- One event; a call for a key is noted with the process it comes from. -/
def deskEvent (behind : BitVec 8) : DeskEvent → KeyboardDriverM (List (Addr × BitVec 32))
  | .key scancode => do
    classicKeyboardHandleInterrupt behind scancode
    pure []
  | .getkey => do
    let s ← get
    let key ← isr80hCommand2Getkey
    pure [(callerOf s.keys.kernel, key)]
  | .other kernel => do
    modify fun s => { s with keys := { s.keys with kernel := kernel } }
    pure []

/-- The events one after the other; the result is what the calls for a key return. -/
def deskRun (behind : BitVec 8) : List DeskEvent → KeyboardDriverM (List (Addr × BitVec 32))
  | [] => pure []
  | event :: events => do
    let r ← deskEvent behind event
    let rs ← deskRun behind events
    pure (r ++ rs)

/-- What the calls of one process return. -/
def received (p : Addr) (rs : List (Addr × BitVec 32)) : List (BitVec 32) :=
  (rs.filter fun r => r.1 = p).map Prod.snd

/-! ## Typing -/

/-- The caps lock key is pressed once more. -/
def capsPresses (presses : ℕ) (scancode : BitVec 8) : ℕ :=
  if scancode = classicKeyboardCapslock then presses + 1 else presses

/-- The character of a key, where the caps lock key has been pressed `presses` times: a capital
after an odd number. -/
def charTyped (behind : BitVec 8) (presses : ℕ) (scancode : BitVec 8) : Option (BitVec 8) :=
  let c := (keyboardScanSetOne ++ [behind]).getD scancode.toNat 0#8
  if c = 0#8 then none
  else if presses % 2 = 0 ∧ 65 ≤ c.toNat ∧ c.toNat ≤ 90 then some (c + 32#8)
  else some c

/-- The kernel after an event. -/
def eventKernel (k : Kernel) : DeskEvent → Kernel
  | .other kernel => kernel
  | _ => k

/-- The presses of the caps lock key after an event. -/
def eventPresses (presses : ℕ) : DeskEvent → ℕ
  | .key scancode => capsPresses presses scancode
  | _ => presses

/-- What an event is to the buffer of the process `p`: the character typed is pushed if the process
has the keyboard, and its own calls for a key are pops. -/
def eventOps (behind : BitVec 8) (p : Addr) (k : Kernel) (presses : ℕ) : DeskEvent → List KeyOp
  | .key scancode =>
    if k.current_process = p then
      (charTyped behind (capsPresses presses scancode) scancode).toList.map KeyOp.push
    else []
  | .getkey => if callerOf k = p then [.pop] else []
  | .other _ => []

/-- The pushes and pops on the buffer of the process `p` in a run from the kernel `k`, after
`presses` presses of the caps lock key. -/
def keyOps (behind : BitVec 8) (p : Addr) : Kernel → (presses : ℕ) → List DeskEvent → List KeyOp
  | _, _, [] => []
  | k, presses, event :: events =>
    eventOps behind p k presses event ++
      keyOps behind p (eventKernel k event) (eventPresses presses event) events

/-! ## One event -/

section Step

variable {behind : BitVec 8} {p : Addr} {q : List (BitVec 8)}

/-- The buffer of another process leaves the unread keys as they are. -/
theorem unread_assign_of_ne {s : KeyboardKernel} {p' : Addr} (hne : p ≠ p')
    (f : KeyboardBuffer → KeyboardBuffer) (hq : Unread s p q) : Unread (s.assign p' f) p q := by
  have hkb : (s.assign p' f).keyboards p = s.keyboards p := Function.update_of_ne hne _ _
  unfold Unread
  rw [hkb]
  exact hq

/-- `keyboard_push` appends to the queue of the process that has the keyboard and to no other. -/
theorem keyboardPush_focus {s : KeyboardKernel} (hp : p ≠ 0#32) (hq : Unread s p q) {c : BitVec 8}
    (hc : c ≠ 0#8)
    (hroom : s.kernel.current_process = p → q.length < maerosKeyboardBufferSize) :
    ∃ s', keyboardPush c s = some ((), s') ∧ s'.kernel = s.kernel ∧
      Unread s' p (q ++ if s.kernel.current_process = p then [c] else []) := by
  by_cases hnone : s.kernel.current_process = 0#32
  · refine ⟨s, ?_, rfl, ?_⟩
    · unfold keyboardPush
      rw [bind_get, if_pos hnone]
      rfl
    · rw [if_neg (by rw [hnone]; exact hp.symm), List.append_nil]
      exact hq
  · refine ⟨s.assign s.kernel.current_process fun kb => kb.push c, ?_, rfl, ?_⟩
    · unfold keyboardPush
      rw [bind_get, if_neg hnone, if_neg hc]
      rfl
    · by_cases hcur : s.kernel.current_process = p
      · rw [if_pos hcur, hcur]
        have h := RingHolds.put bufferSize_dvd hq hc (hroom hcur)
        simpa [Unread, KeyboardKernel.assign, KeyboardBuffer.push, keyboardGetTailIndex] using h
      · rw [if_neg hcur, List.append_nil]
        exact unread_assign_of_ne (Ne.symm hcur) _ hq

/-- A pop on the buffer of a process. -/
theorem pop_unread {s : KeyboardKernel} (hq : Unread s p q) :
    (s.keyboards p).pop.1 = q.headD 0#8 ∧
      Unread (s.assign p fun _ => (s.keyboards p).pop.2) p q.tail := by
  cases q with
  | nil =>
    have hnil : (s.keyboards p).pop = (0#8, s.keyboards p) := by
      simp [KeyboardBuffer.pop, hq.head_nil (by simp)]
    rw [hnil]
    exact ⟨rfl, by simpa [Unread, KeyboardKernel.assign] using hq⟩
  | cons a q =>
    have ha : a ≠ 0#8 := fun h => hq.marker (by simp [h])
    have h := RingHolds.take bufferSize_dvd hq
    constructor
    · simp [KeyboardBuffer.pop, hq.head_cons, ha]
    · simpa [Unread, KeyboardKernel.assign, KeyboardBuffer.pop, hq.head_cons, ha] using h

/-- `keyboard_pop` takes from the queue of the caller and from no other. -/
theorem keyboardPop_focus {s : KeyboardKernel} (hp : p ≠ 0#32) (hq : Unread s p q)
    (hcaller : s.kernel.sched.current_task = 0#32 ∨ callerOf s.kernel ≠ 0#32) :
    ∃ c s', keyboardPop s = some (c, s') ∧ s'.kernel = s.kernel ∧
      (callerOf s.kernel = p → c = q.headD 0#8) ∧
      Unread s' p (if callerOf s.kernel = p then q.tail else q) := by
  by_cases hnone : s.kernel.sched.current_task = 0#32
  · have hcall : callerOf s.kernel ≠ p := by
      unfold callerOf
      rw [if_pos hnone]
      exact hp.symm
    refine ⟨0#8, s, ?_, rfl, fun h => absurd h hcall, by rwa [if_neg hcall]⟩
    unfold keyboardPop
    simp only [bind_get, if_pos hnone]
    rfl
  · have hcall : callerOf s.kernel =
        (s.kernel.sched.tasks s.kernel.sched.current_task).process := if_neg hnone
    have hproc := hcaller.resolve_left hnone
    rw [hcall] at hproc ⊢
    generalize hc : (s.kernel.sched.tasks s.kernel.sched.current_task).process = caller at hproc ⊢
    refine ⟨(s.keyboards caller).pop.1, s.assign caller fun _ => (s.keyboards caller).pop.2,
      ?_, rfl, ?_, ?_⟩
    · unfold keyboardPop
      simp only [bind_get, if_neg hnone, hc, if_neg hproc]
      rfl
    · rintro rfl
      exact (pop_unread hq).1
    · by_cases h : caller = p
      · rw [if_pos h, h]
        exact (pop_unread hq).2
      · rw [if_neg h]
        exact unread_assign_of_ne (Ne.symm h) _ hq

/-- The state of the caps lock is the parity of the presses. -/
def CapsFrom (presses : ℕ) (capslock_state : ℤ) : Prop := capslock_state = (presses % 2 : ℕ)

/-- The caps lock key turns the state over. -/
theorem CapsFrom.toggle {n : ℕ} {c : ℤ} (h : CapsFrom n c) :
    CapsFrom (n + 1) (if c = keyboardCapsLockOn then keyboardCapsLockOff else keyboardCapsLockOn) := by
  unfold CapsFrom keyboardCapsLockOn keyboardCapsLockOff at *
  rw [h]
  rcases Nat.mod_two_eq_zero_or_one n with h0 | h1
  · rw [h0, Nat.add_mod, h0]
    decide
  · rw [h1, Nat.add_mod, h1]
    decide

theorem letter_iff (c : BitVec 8) :
    (65 ≤ c.toInt ∧ c.toInt ≤ 90) ↔ (65 ≤ c.toNat ∧ c.toNat ≤ 90) := by
  rw [BitVec.toInt_eq_toNat_cond]
  split <;> omega

/-- The character that the driver finds, if it is not zero. -/
theorem scancodeToChar_eq (behind scancode : BitVec 8) {n : ℕ} {c : ℤ} (h : CapsFrom n c) :
    (let found := classicKeyboardScancodeToChar behind c scancode
      if found ≠ 0#8 then some found else none) = charTyped behind n scancode := by
  have hlen : (keyboardScanSetOne ++ [behind]).length = 83 := by simp [keyboardScanSetOne]
  have hlen' : keyboardScanSetOne.length = 82 := by decide
  have hoff : c = keyboardCapsLockOff ↔ n % 2 = 0 := by
    unfold CapsFrom keyboardCapsLockOff at *
    omega
  unfold classicKeyboardScancodeToChar charTyped
  by_cases hout : scancode.toNat > keyboardScanSetOne.length
  · rw [if_pos hout, List.getD_eq_default _ _ (by omega)]
    rfl
  · rw [if_neg hout]
    generalize (keyboardScanSetOne ++ [behind]).getD scancode.toNat 0#8 = k
    simp only [hoff, letter_iff]
    by_cases hzero : k = 0#8
    · subst hzero
      simp
    · by_cases hcase : n % 2 = 0 ∧ 65 ≤ k.toNat ∧ k.toNat ≤ 90
      · have hlower : k + 32#8 ≠ 0#8 := by
          intro h0
          have := congrArg BitVec.toNat h0
          rw [BitVec.toNat_add] at this
          simp at this
          omega
        rw [if_pos hcase.1, if_pos hcase.2, if_neg hzero, if_pos hcase, if_pos hlower]
      · rw [if_neg hzero, if_neg hcase]
        split
        · rename_i h0
          rw [if_neg fun h1 => hcase ⟨h0, h1⟩, if_pos hzero]
        · rfl

/-- A key that is released types nothing. -/
theorem charTyped_released (behind : BitVec 8) (n : ℕ) {scancode : BitVec 8}
    (h : scancode &&& classicKeyboardKeyReleased ≠ 0#8) : charTyped behind n scancode = none := by
  have hbit : ∀ c : BitVec 8, c &&& classicKeyboardKeyReleased ≠ 0#8 → 128 ≤ c.toNat := by decide
  have hlow := hbit scancode h
  unfold charTyped
  rw [List.getD_eq_default _ _ (by simp [keyboardScanSetOne]; omega)]
  rfl

/-- The handler of the keyboard interrupt appends the character of the key, if it has one, to the
queue of the process that has the keyboard. -/
theorem handleInterrupt_focus {s : KeyboardDriver} (hp : p ≠ 0#32) (hq : Unread s.keys p q) {n : ℕ}
    (hcaps : CapsFrom n s.capslock_state) (scancode : BitVec 8)
    (hroom : s.keys.kernel.current_process = p →
      charTyped behind (capsPresses n scancode) scancode ≠ none →
      q.length < maerosKeyboardBufferSize) :
    ∃ s', classicKeyboardHandleInterrupt behind scancode s = some ((), s') ∧
      s'.keys.kernel = s.keys.kernel ∧ CapsFrom (capsPresses n scancode) s'.capslock_state ∧
      Unread s'.keys p (q ++ if s.keys.kernel.current_process = p then
        (charTyped behind (capsPresses n scancode) scancode).toList else []) := by
  by_cases hrel : scancode &&& classicKeyboardKeyReleased ≠ 0#8
  · have hne : scancode ≠ classicKeyboardCapslock := by
      rintro rfl
      exact absurd hrel (by decide)
    refine ⟨s, ?_, rfl, ?_, ?_⟩
    · unfold classicKeyboardHandleInterrupt
      rw [if_pos hrel]
      rfl
    · unfold capsPresses
      rwa [if_neg hne]
    · rw [charTyped_released behind _ hrel]
      simpa using hq
  · -- the state of the caps lock is changed before the character is looked up
    obtain ⟨c, hc, hrun⟩ : ∃ c, CapsFrom (capsPresses n scancode) c ∧
        classicKeyboardHandleInterrupt behind scancode s =
          (let found := classicKeyboardScancodeToChar behind c scancode
            if found ≠ 0#8 then onKeys (keyboardPush found) else pure ())
            { s with capslock_state := c } := by
      unfold classicKeyboardHandleInterrupt capsPresses
      simp only [if_neg hrel]
      by_cases hcap : scancode = classicKeyboardCapslock
      · simp only [if_pos hcap]
        exact ⟨_, hcaps.toggle, rfl⟩
      · simp only [if_neg hcap]
        exact ⟨_, hcaps, rfl⟩
    have hchar := scancodeToChar_eq behind scancode hc
    simp only at hchar
    rw [hrun]
    rw [← hchar] at hroom ⊢
    by_cases hfound : classicKeyboardScancodeToChar behind c scancode ≠ 0#8
    · simp only [if_pos hfound] at hroom ⊢
      obtain ⟨keys, hpush, hkernel, hunread⟩ := keyboardPush_focus hp hq hfound fun hcur =>
        hroom hcur (by simp)
      refine ⟨⟨keys, c⟩, ?_, hkernel, hc, hunread⟩
      unfold onKeys
      rw [hpush]
      rfl
    · simp only [if_neg hfound] at hroom ⊢
      exact ⟨_, rfl, rfl, hc, by simpa using hq⟩

/-- The kernel is in a state in which a call for a key comes from a process. -/
def CallsForKeys (k : Kernel) : Prop := k.sched.current_task = 0#32 ∨ callerOf k ≠ 0#32

/-- The system call for a key. -/
theorem getkey_focus {s : KeyboardDriver} (hp : p ≠ 0#32) (hq : Unread s.keys p q)
    (hcalls : CallsForKeys s.keys.kernel) :
    ∃ c keys, isr80hCommand2Getkey s = some (c.signExtend 32, { s with keys := keys }) ∧
      keys.kernel = s.keys.kernel ∧ (callerOf s.keys.kernel = p → c = q.headD 0#8) ∧
      Unread keys p (if callerOf s.keys.kernel = p then q.tail else q) := by
  obtain ⟨c, keys, hpop, hkernel, hc, hunread⟩ := keyboardPop_focus hp hq hcalls
  have honkeys : onKeys keyboardPop s = some (c, { s with keys := keys }) := by
    unfold onKeys
    rw [hpop]
    rfl
  refine ⟨c, keys, ?_, hkernel, hc, hunread⟩
  unfold isr80hCommand2Getkey
  rw [bind_of_some honkeys]
  rfl

/-- What an event comes to for a process with the queue `q`. -/
structure EventGood (behind : BitVec 8) (p : Addr) (s : KeyboardDriver) (n : ℕ) (q : List (BitVec 8))
    (event : DeskEvent) (r : List (Addr × BitVec 32)) (s' : KeyboardDriver) : Prop where
  kernel : s'.keys.kernel = eventKernel s.keys.kernel event
  caps : CapsFrom (eventPresses n event) s'.capslock_state
  unread : Unread s'.keys p (run queueStep q (eventOps behind p s.keys.kernel n event))
  received : received p r =
    (queueResults q (eventOps behind p s.keys.kernel n event)).map (BitVec.signExtend 32)

/-- **One event**: it delivers what the queue delivers, and the invariant holds behind it. -/
theorem deskEvent_good {s : KeyboardDriver} (hp : p ≠ 0#32) (hq : Unread s.keys p q) {n : ℕ}
    (hcaps : CapsFrom n s.capslock_state) (hcalls : CallsForKeys s.keys.kernel) (event : DeskEvent)
    (hroom : Along queueStep HasRoom q (eventOps behind p s.keys.kernel n event)) :
    ∃ r s', deskEvent behind event s = some (r, s') ∧
      EventGood behind p s n q event r s' := by
  cases event with
  | key scancode =>
    have hspace : s.keys.kernel.current_process = p →
        charTyped behind (capsPresses n scancode) scancode ≠ none →
          q.length < maerosKeyboardBufferSize := by
      intro hcur hsome
      obtain ⟨c, hc⟩ := Option.ne_none_iff_exists'.mp hsome
      simp only [eventOps, if_pos hcur, hc, Option.toList_some, List.map_cons, Along] at hroom
      exact hroom.1 (by simp)
    obtain ⟨s', hrun, hkernel, hcaps', hunread⟩ :=
      handleInterrupt_focus hp hq hcaps scancode hspace
    refine ⟨[], s', ?_, hkernel, hcaps', ?_, ?_⟩
    · simp only [deskEvent, bind_of_some hrun]
      rfl
    · simp only [eventOps]
      split at hunread
      · rename_i hcur
        rw [if_pos hcur]
        cases hc : charTyped behind (capsPresses n scancode) scancode with
        | none => simpa [hc, run] using hunread
        | some c => simpa [hc, run, queueStep] using hunread
      · rename_i hcur
        rw [if_neg hcur]
        simpa [run] using hunread
    · simp only [eventOps]
      split
      · cases charTyped behind (capsPresses n scancode) scancode <;> simp [received, queueResults]
      · simp [received, queueResults]
  | getkey =>
    obtain ⟨c, keys, hrun, hkernel, hc, hunread⟩ := getkey_focus hp hq hcalls
    refine ⟨[(callerOf s.keys.kernel, c.signExtend 32)], { s with keys := keys }, ?_, hkernel, hcaps,
      ?_, ?_⟩
    · simp only [deskEvent, bind_get, bind_of_some hrun]
      rfl
    · simp only [eventOps]
      split at hunread <;> rename_i hcaller <;> simpa [hcaller, run, queueStep] using hunread
    · simp only [eventOps]
      by_cases hcaller : callerOf s.keys.kernel = p
      · simp [received, hcaller, hc hcaller, queueResults]
      · simp [received, hcaller, queueResults]
  | other kernel => exact ⟨[], _, rfl, rfl, hcaps, hq, rfl⟩

end Step

/-! ## Runs -/

/-- No queue loses or invents a character: what is delivered and what is left is what was there and
what was pushed. -/
theorem queueResults_conserves (ops : List KeyOp) : ∀ q : List (BitVec 8), 0#8 ∉ q →
    (∀ c, .push c ∈ ops → c ≠ 0#8) →
      (queueResults q ops).filter (· ≠ 0#8) ++ run queueStep q ops = q ++ pushed ops := by
  induction ops with
  | nil => simp [queueResults, run, pushed]
  | cons op ops ih =>
    intro q hq hops
    have hops' : ∀ c, .push c ∈ ops → c ≠ 0#8 := fun c hc => hops c (List.mem_cons_of_mem _ hc)
    cases op with
    | push c =>
      have hc : c ≠ 0#8 := hops c (by simp)
      have h := ih (q ++ [c]) (by simp [hq, hc.symm]) hops'
      simpa [queueResults, run, queueStep, pushed] using h
    | pop =>
      cases q with
      | nil => simpa [queueResults, run, queueStep, pushed] using ih [] (by simp) hops'
      | cons a q =>
        have ha : a ≠ 0#8 := fun h => hq (by simp [h])
        have h := ih q (fun h => hq (List.mem_cons_of_mem a h)) hops'
        simpa [queueResults, run, queueStep, pushed, ha] using h

/-- A character that is typed is not zero. -/
theorem charTyped_ne_zero {behind : BitVec 8} {n : ℕ} {scancode c : BitVec 8}
    (h : charTyped behind n scancode = some c) : c ≠ 0#8 := by
  unfold charTyped at h
  generalize (keyboardScanSetOne ++ [behind]).getD scancode.toNat 0#8 = k at h
  by_cases hk : k = 0#8
  · simp [hk] at h
  · simp only [if_neg hk] at h
    split at h
    · rename_i hcase
      obtain rfl := Option.some.inj h
      intro h0
      have := congrArg BitVec.toNat h0
      rw [BitVec.toNat_add] at this
      simp at this
      omega
    · exact Option.some.inj h ▸ hk

/-- No key that is pushed is the zero byte. -/
theorem keyOps_ne_zero (behind : BitVec 8) (p : Addr) (events : List DeskEvent) :
    ∀ (k : Kernel) (n : ℕ) (c : BitVec 8), .push c ∈ keyOps behind p k n events → c ≠ 0#8 := by
  induction events with
  | nil => simp [keyOps]
  | cons event events ih =>
    intro k n c hc
    rw [keyOps, List.mem_append] at hc
    rcases hc with hc | hc
    · cases event with
      | key scancode =>
        simp only [eventOps] at hc
        split at hc
        · simp only [List.mem_map, KeyOp.push.injEq, exists_eq_right] at hc
          exact charTyped_ne_zero (Option.mem_toList.mp hc)
        · cases hc
      | getkey =>
        simp only [eventOps] at hc
        split at hc <;> simp at hc
      | other kernel => cases hc
    · exact ih _ _ c hc

theorem received_append (p : Addr) (r rs : List (Addr × BitVec 32)) :
    received p (r ++ rs) = received p r ++ received p rs := by simp [received]

/-- What a run comes to for a process with the queue `q`. -/
structure DeskGood (behind : BitVec 8) (p : Addr) (n : ℕ) (q : List (BitVec 8)) (k : Kernel)
    (events : List DeskEvent) (rs : List (Addr × BitVec 32)) (s' : KeyboardDriver) : Prop where
  received : received p rs =
    (queueResults q (keyOps behind p k n events)).map (BitVec.signExtend 32)
  unread : Unread s'.keys p (run queueStep q (keyOps behind p k n events))
  caps : CapsFrom (events.foldl eventPresses n) s'.capslock_state

/-- **A run of events** delivers what the queue delivers, one event at a time. -/
theorem deskRun_good {behind : BitVec 8} {p : Addr} (hp : p ≠ 0#32) (events : List DeskEvent)
    (hother : ∀ k, .other k ∈ events → CallsForKeys k) :
    ∀ (s : KeyboardDriver) (q : List (BitVec 8)) (n : ℕ), Unread s.keys p q →
      CapsFrom n s.capslock_state → CallsForKeys s.keys.kernel →
      Along queueStep HasRoom q (keyOps behind p s.keys.kernel n events) →
      ∃ rs s', deskRun behind events s = some (rs, s') ∧
        DeskGood behind p n q s.keys.kernel events rs s' := by
  induction events with
  | nil =>
    intro s q n hq hcaps _ _
    exact ⟨[], s, rfl, rfl, hq, hcaps⟩
  | cons event events ih =>
    intro s q n hq hcaps hcalls hroom
    obtain ⟨hfirst, hrest⟩ := along_append.mp hroom
    obtain ⟨r, s₁, hrun₁, hgood₁⟩ := deskEvent_good hp hq hcaps hcalls event hfirst
    have hcalls₁ : CallsForKeys s₁.keys.kernel := by
      rw [hgood₁.kernel]
      cases event with
      | other kernel => exact hother kernel (by simp)
      | _ => exact hcalls
    rw [← hgood₁.kernel] at hrest
    obtain ⟨rs, s', hrun, hgood⟩ := ih (fun k hk => hother k (List.mem_cons_of_mem _ hk)) s₁ _ _
      hgood₁.unread hgood₁.caps hcalls₁ hrest
    refine ⟨r ++ rs, s', ?_, ?_, ?_, hgood.caps⟩
    · rw [deskRun, bind_of_some hrun₁, bind_of_some hrun]
      rfl
    · rw [received_append, hgood₁.received, hgood.received, keyOps, queueResults_append,
        List.map_append, hgood₁.kernel]
    · rw [keyOps, run_queueStep_append, ← hgood₁.kernel]
      exact hgood.unread

/-- **What a program reads is what was typed while it had the keyboard.** In every run of key
presses, key releases, calls for keys by any process and other work of the kernel, the calls of a
process return the characters typed while it had the keyboard, in order, with capitals after an odd
number of presses of the caps lock key, and zero exactly when it has read all of them; what it has
not read is in its buffer. -/
theorem keyboard_focus (behind : BitVec 8) {p : Addr} (hp : p ≠ 0#32) (s : KeyboardDriver)
    (hzero : s.keys.keyboards p = KeyboardBuffer.zero)
    (hoff : s.capslock_state = keyboardCapsLockOff) (events : List DeskEvent)
    (hcalls : CallsForKeys s.keys.kernel) (hother : ∀ k, .other k ∈ events → CallsForKeys k)
    (hroom : Along queueStep HasRoom [] (keyOps behind p s.keys.kernel 0 events)) :
    ∃ rs s' unread, deskRun behind events s = some (rs, s') ∧
      received p rs = (queueResults [] (keyOps behind p s.keys.kernel 0 events)).map
        (BitVec.signExtend 32) ∧
      (queueResults [] (keyOps behind p s.keys.kernel 0 events)).filter (· ≠ 0#8) ++ unread =
        pushed (keyOps behind p s.keys.kernel 0 events) ∧
      Unread s'.keys p unread ∧ CapsFrom (events.foldl eventPresses 0) s'.capslock_state := by
  obtain ⟨rs, s', hrun, hgood⟩ := deskRun_good hp events hother s [] 0 (unread_zero hzero) hoff
    hcalls hroom
  exact ⟨rs, s', _, hrun, hgood.received,
    queueResults_conserves _ [] (by simp) (keyOps_ne_zero behind p events _ 0), hgood.unread,
    hgood.caps⟩

/-- The caps lock key, the key `a`, which is read, its release, and the key `b`. -/
def capitalEvents : List DeskEvent :=
  [.key 0x3a#8, .key 0x1e#8, .getkey, .key 0x9e#8, .key 0x30#8]

theorem keyOps_capitalEvents :
    keyOps 0#8 0x1000#32 attendedKernel.kernel 0 capitalEvents =
      [.push 0x41#8, .pop, .push 0x42#8] := by
  decide

/-- Two capital letters, the first of them read. -/
theorem keyboard_focus_capitalEvents :
    ∃ rs s', deskRun 0#8 capitalEvents ⟨attendedKernel, keyboardCapsLockOff⟩ = some (rs, s') ∧
      received 0x1000#32 rs = [0x41#32] ∧ Unread s'.keys 0x1000#32 [0x42#8] := by
  obtain ⟨rs, s', unread, hrun, hrec, hall, hunread, -⟩ := keyboard_focus 0#8 (p := 0x1000#32)
    (by decide) ⟨attendedKernel, keyboardCapsLockOff⟩ rfl rfl capitalEvents (Or.inr (by decide))
    (by simp [capitalEvents])
    (by rw [keyOps_capitalEvents]; simp [Along, queueStep, HasRoom])
  rw [keyOps_capitalEvents] at hrec hall
  have hleft : unread = [0x42#8] := by simpa [queueResults, pushed] using hall
  exact ⟨rs, s', hrun, hrec.trans (by decide), hleft ▸ hunread⟩

end MaerOS.Analysis
