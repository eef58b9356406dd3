import MaerOS.Analysis.UserMemory
import MaerOS.Model.Command
import MaerOS.Lib.Loop
import Mathlib.Data.List.Perm.Subperm

/-!
# Following the argument list of a caller

The list that command 7 is given lies in memory that its caller writes, so its `next`
pointers form any graph. `process_count_command_arguments` ends exactly when the pointers
lead to the null pointer; the loop of `process_inject_arguments` always ends, as each of
its rounds takes one of the 1024 slots for allocations of the new process.
-/

set_option autoImplicit false

namespace MaerOS.Analysis

open MaerOS.Lib MaerOS.Model

/-! ## Chains -/

/-- From `p` on, the `next` pointers go through the nodes and then to the null pointer. -/
def ChainAt (m : Memory) : (p : Addr) → (nodes : List Addr) → Prop
  | p, [] => p = 0#32
  | p, a :: nodes => p = a ∧ a ≠ 0#32 ∧ ChainAt m (load32 m (commandNext a)) nodes

theorem commandNext_eq (p : Addr) : commandNext p = wordAt p 128 := rfl

section Chain

variable {m : Memory} {p : Addr} {nodes : List Addr}

theorem ChainAt.unique {nodes' : List Addr} (h : ChainAt m p nodes) (h' : ChainAt m p nodes') :
    nodes = nodes' := by
  induction nodes generalizing p nodes' with
  | nil =>
    cases nodes' with
    | nil => rfl
    | cons a nodes' => exact absurd (h'.1.symm.trans h) h'.2.1
  | cons a nodes ih =>
    cases nodes' with
    | nil => exact absurd (h.1.symm.trans h') h.2.1
    | cons b nodes' =>
      obtain rfl : a = b := h.1.symm.trans h'.1
      rw [ih h.2.2 h'.2.2]

theorem ChainAt.suffix {a : Addr} (h : ChainAt m p nodes) (ha : a ∈ nodes) :
    ∃ front rest, nodes = front ++ a :: rest ∧ ChainAt m a (a :: rest) := by
  induction nodes generalizing p with
  | nil => cases ha
  | cons b nodes ih =>
    rcases List.mem_cons.mp ha with rfl | ha
    · exact ⟨[], nodes, rfl, rfl, h.2.1, h.2.2⟩
    · obtain ⟨front, rest, rfl, hrest⟩ := ih h.2.2 ha
      exact ⟨b :: front, rest, rfl, hrest⟩

theorem ChainAt.nonnull (h : ChainAt m p nodes) {a : Addr} (ha : a ∈ nodes) : a ≠ 0#32 := by
  obtain ⟨_, _, _, hrest⟩ := h.suffix ha
  exact hrest.2.1

/-- No node is met twice. -/
theorem ChainAt.nodup (h : ChainAt m p nodes) : nodes.Nodup := by
  induction nodes generalizing p with
  | nil => exact List.nodup_nil
  | cons a nodes ih =>
    refine List.nodup_cons.mpr ⟨fun ha => ?_, ih h.2.2⟩
    -- otherwise there would be two chains of different lengths from `a` on
    obtain ⟨front, rest, rfl, hrest⟩ := h.2.2.suffix ha
    have hwhole : ChainAt m a (a :: (front ++ a :: rest)) := ⟨rfl, h.2.1, h.2.2⟩
    have heq := congrArg List.length (hrest.unique hwhole)
    simp only [List.length_cons, List.length_append] at heq
    omega

theorem ChainAt.length_lt (h : ChainAt m p nodes) : nodes.length < addressSpace := by
  have hnodup : ((0#32 :: nodes).map BitVec.toNat).Nodup := by
    refine (List.nodup_cons.mpr ⟨fun h0 => h.nonnull h0 rfl, h.nodup⟩).map ?_
    exact fun _ _ => BitVec.eq_of_toNat_eq
  have hsub : (0#32 :: nodes).map BitVec.toNat ⊆ List.range addressSpace := by
    intro i hi
    obtain ⟨a, -, rfl⟩ := List.mem_map.mp hi
    exact List.mem_range.mpr a.isLt
  have hlen := (List.subperm_of_subset hnodup hsub).length_le
  rw [List.length_map, List.length_cons, List.length_range] at hlen
  omega

/-- **`process_count_command_arguments`** counts the nodes of a chain. -/
theorem processCountCommandArguments_chain (h : ChainAt m p nodes) {n : ℕ}
    (hn : nodes.length < n) (i : ℕ) :
    processCountCommandArguments m n p i = some (i + nodes.length) := by
  induction nodes generalizing n p i with
  | nil =>
    obtain ⟨n, rfl⟩ : ∃ l, n = l + 1 := ⟨n - 1, by simp at hn; omega⟩
    unfold processCountCommandArguments
    rw [if_pos (show p = 0#32 from h)]
    rfl
  | cons a nodes ih =>
    rw [List.length_cons] at hn
    obtain ⟨n, rfl⟩ : ∃ l, n = l + 1 := ⟨n - 1, by omega⟩
    obtain ⟨rfl, hne, hrest⟩ := h
    unfold processCountCommandArguments
    rw [if_neg hne, ih hrest (by omega), List.length_cons]
    congr 1
    omega

/-- `process_inject_arguments` of a list with at least one node, from the array on. -/
theorem processInjectArguments_eq {process root : Addr} {nodes : List Addr} {s : CommandKernel}
    (hne : nodes ≠ []) (hchain : ChainAt s.kernel.mem root nodes) :
    processInjectArguments process root s = (do
      let argv ← onKernel (processMalloc process (BitVec.ofNat 32 (4 * nodes.length)))
      if argv = 0#32 then pure (-enomem)
      else do
        let res ← processInjectLoop process argv addressSpace root 0
        if res < 0 then pure res
        else do
          modify fun s =>
            { s with arguments := Function.update s.arguments process ⟨nodes.length, argv⟩ }
          pure res : CommandM ℤ) s := by
  have hcount := processCountCommandArguments_chain hchain hchain.length_lt 0
  rw [Nat.zero_add] at hcount
  unfold processInjectArguments
  rw [bind_get, hcount]
  dsimp only
  rw [if_neg (fun h0 => hne (List.length_eq_zero_iff.mp h0))]

/-- Where it ends there is a chain. -/
theorem chainAt_of_count {n i argc : ℕ} (h : processCountCommandArguments m n p i = some argc) :
    ∃ nodes, ChainAt m p nodes := by
  induction n generalizing p i with
  | zero => cases h
  | succ n ih =>
    unfold processCountCommandArguments at h
    by_cases hp : p = 0#32
    · exact ⟨[], hp⟩
    · rw [if_neg hp] at h
      obtain ⟨nodes, hrest⟩ := ih h
      exact ⟨p :: nodes, rfl, hp, hrest⟩

end Chain

/-! ## The two loops -/

/-- One round of `process_count_command_arguments`. -/
def countRound (m : Memory) : Addr × ℕ → ℕ ⊕ (Addr × ℕ)
  | (current, i) =>
    if current = 0#32 then .inl i else .inr (load32 m (commandNext current), i + 1)

/-- Counting the arguments is the loop of its round. -/
theorem processCountCommandArguments_loop (m : Memory) (n : ℕ) (current : Addr) (i : ℕ) :
    processCountCommandArguments m n current i = loop (countRound m) n (current, i) := by
  induction n generalizing current i with
  | zero => rfl
  | succ n ih =>
    unfold processCountCommandArguments
    by_cases hcur : current = 0#32
    · have hround : countRound m (current, i) = .inl i := if_pos hcur
      rw [if_pos hcur, loop_done hround]
    · have hround : countRound m (current, i) = .inr (load32 m (commandNext current), i + 1) :=
        if_neg hcur
      rw [if_neg hcur, loop_next hround, ih]

/-- The loop of `process_inject_arguments` between two rounds. -/
structure InjectState where
  state : CommandKernel
  current : Addr
  i : ℕ

/-- One round of the loop of `process_inject_arguments`: it ends with the result and the state, or
with nothing where the request for memory is undefined behaviour. -/
def injectRound (process argv : Addr) (x : InjectState) :
    Option (ℤ × CommandKernel) ⊕ InjectState :=
  if x.current = 0#32 then .inl (some (0, x.state))
  else
    match onKernel (processMalloc process (BitVec.ofNat 32 sizeofArgument)) x.state with
    | none => .inl none
    | some (argument_str, s) =>
      if argument_str = 0#32 then .inl (some (-enomem, s))
      else
        let mem := store32 (strncpy s.kernel.mem argument_str x.current sizeofArgument)
          (wordIndex argv x.i) argument_str
        .inr ⟨{ s with kernel := { s.kernel with mem := mem } },
          load32 mem (commandNext x.current), x.i + 1⟩

/-- Copying the arguments is the loop of its round. -/
theorem processInjectLoop_loop (process argv : Addr) (n : ℕ) (current : Addr) (i : ℕ)
    (s : CommandKernel) : processInjectLoop process argv n current i s =
      (loop (injectRound process argv) n ⟨s, current, i⟩).join := by
  induction n generalizing current i s with
  | zero => rfl
  | succ n ih =>
    unfold processInjectLoop
    by_cases hcur : current = 0#32
    · have hround : injectRound process argv ⟨s, current, i⟩ = .inl (some (0, s)) := if_pos hcur
      rw [if_pos hcur, loop_done hround]
      rfl
    rw [if_neg hcur]
    cases hreq : onKernel (processMalloc process (BitVec.ofNat 32 sizeofArgument)) s with
    | none =>
      have hround : injectRound process argv ⟨s, current, i⟩ = .inl none := by
        unfold injectRound
        rw [if_neg hcur, hreq]
      rw [loop_done hround]
      show Option.bind (onKernel (processMalloc process (BitVec.ofNat 32 sizeofArgument)) s) _ = _
      rw [hreq]
      rfl
    | some r =>
      obtain ⟨argument_str, s₁⟩ := r
      rw [bind_of_some hreq]
      by_cases hstr : argument_str = 0#32
      · have hround : injectRound process argv ⟨s, current, i⟩ = .inl (some (-enomem, s₁)) := by
          unfold injectRound
          rw [if_neg hcur, hreq]
          exact if_pos hstr
        rw [if_pos hstr, loop_done hround]
        rfl
      · rw [if_neg hstr]
        have hround : injectRound process argv ⟨s, current, i⟩ = .inr ⟨{ s₁ with
            kernel := { s₁.kernel with
              mem := store32 (strncpy s₁.kernel.mem argument_str current sizeofArgument)
                (wordIndex argv i) argument_str } },
            load32 (store32 (strncpy s₁.kernel.mem argument_str current sizeofArgument)
              (wordIndex argv i) argument_str) (commandNext current), i + 1⟩ := by
          unfold injectRound
          rw [if_neg hcur, hreq]
          exact if_neg hstr
        rw [loop_next hround, ← ih]
        rfl

/-- A round of the loop that goes on has taken a slot of the process. -/
theorem injectRound_slot {process argv : Addr} {x y : InjectState}
    (h : injectRound process argv x = .inr y) :
    freeSlots (y.state.kernel.procs process) < freeSlots (x.state.kernel.procs process) := by
  unfold injectRound at h
  by_cases hcur : x.current = 0#32
  · rw [if_pos hcur] at h
    cases h
  rw [if_neg hcur] at h
  cases hreq : onKernel (processMalloc process (BitVec.ofNat 32 sizeofArgument)) x.state with
  | none =>
    rw [hreq] at h
    cases h
  | some r =>
    obtain ⟨argument_str, s⟩ := r
    rw [hreq] at h
    dsimp only at h
    by_cases hstr : argument_str = 0#32
    · rw [if_pos hstr] at h
      cases h
    · rw [if_neg hstr] at h
      cases h
      obtain ⟨⟨ptr, k'⟩, hcode, heq⟩ := Option.map_eq_some_iff.mp hreq
      cases heq
      have hslots := (processMalloc_frame hcode).freeSlots hstr
      dsimp only
      omega

/-- The loop of `process_inject_arguments` ends within 1025 rounds, whatever is in memory. -/
theorem injectLoop_bound (process argv : Addr) (x : InjectState) {n : ℕ} (hn : 1025 ≤ n) :
    ∃ r, loop (injectRound process argv) n x = some r := by
  have hslots := freeSlots_le (x.state.kernel.procs process)
  refine loop_of_measure (fun y => freeSlots (y.state.kernel.procs process)) ?_ n x ?_
  · intro y z hround
    exact injectRound_slot hround
  · omega

/-- `process_inject_arguments` comes to an end: the count does, and so does the loop if there is
memory for `argv`. -/
def InjectTerminates (process root_argument : Addr) (s : CommandKernel) : Prop :=
  Halts (countRound s.kernel.mem) (root_argument, 0) ∧
    ∀ argc argv s₁, processCountCommandArguments s.kernel.mem addressSpace root_argument 0 =
        some argc →
      onKernel (processMalloc process (BitVec.ofNat 32 (4 * argc))) s = some (argv, s₁) →
        Halts (injectRound process argv) ⟨s₁, root_argument, 0⟩

theorem count_halts_iff (m : Memory) (root_argument : Addr) :
    Halts (countRound m) (root_argument, 0) ↔ ∃ nodes, ChainAt m root_argument nodes := by
  constructor
  · rintro ⟨n, argc, hn⟩
    rw [← processCountCommandArguments_loop] at hn
    exact chainAt_of_count hn
  · rintro ⟨nodes, hnodes⟩
    refine ⟨nodes.length + 1, 0 + nodes.length, ?_⟩
    rw [← processCountCommandArguments_loop]
    exact processCountCommandArguments_chain hnodes (Nat.lt_succ_self _) 0

/-- A node whose pointer leads back to it is counted for ever. -/
theorem not_halts_of_cycle {m : Memory} {p : Addr} (hne : p ≠ 0#32)
    (hcycle : load32 m (commandNext p) = p) (i : ℕ) : ¬ Halts (countRound m) (p, i) := by
  refine not_halts_of_invariant (I := fun x => x.1 = p) ?_ rfl
  rintro ⟨current, j⟩ hcur
  obtain rfl : current = p := hcur
  refine ⟨(current, j + 1), ?_, rfl⟩
  show (if current = 0#32 then _ else _) = _
  rw [if_neg hne, hcycle]

/-- **Injecting arguments ends** if and only if the `next` pointers from the root lead to the null
pointer, for every memory, every root and every kernel: for `process_count_command_arguments` as
for `process_inject_arguments`. -/
theorem inject_arguments_terminates_iff (process root_argument : Addr) (s : CommandKernel) :
    ((∃ n argc, processCountCommandArguments s.kernel.mem n root_argument 0 = some argc) ↔
        ∃ nodes, ChainAt s.kernel.mem root_argument nodes) ∧
      (InjectTerminates process root_argument s ↔
        ∃ nodes, ChainAt s.kernel.mem root_argument nodes) := by
  constructor
  · rw [← count_halts_iff]
    unfold Halts
    simp only [processCountCommandArguments_loop]
  · constructor
    · rintro ⟨hcount, -⟩
      exact (count_halts_iff _ _).mp hcount
    · intro hchain
      refine ⟨(count_halts_iff _ _).mpr hchain, fun argc argv s₁ _ _ => ?_⟩
      exact ⟨addressSpace, injectLoop_bound process argv _ (by unfold addressSpace; omega)⟩

/-- **A list in a circle**: the program has written the address of an argument, on a page of its
own, to the `next` of this argument. -/
theorem inject_arguments_cycle : ∃ (s : CommandKernel) (f : ProcFoot) (rs : List (Addr × ℕ))
    (root_argument : Addr), Hosts s.kernel [f] rs ∧ Caller s.kernel f ∧
      LivePage s.kernel [f] rs (pageOf root_argument) ∧
      (∀ n, processCountCommandArguments s.kernel.mem n root_argument 0 = none) ∧
      ¬ InjectTerminates f.process root_argument s := by
  obtain ⟨k, f, rs, hhosts, hcaller, -, -, -, -⟩ := one_process_boot
  have hpage : PageAligned (blockAddr 1031) := pageAligned_blockAddr (by omega)
  have hne : blockAddr 1031 ≠ 0#32 := blockAddr_ne_zero (by omega)
  have hlive : LivePage k [f] ((blockAddr 1030, 4) :: rs) (pageOf (blockAddr 1031)) := by
    refine ⟨(blockAddr 1030, 4), List.mem_append_right _ List.mem_cons_self, ?_⟩
    unfold InRun
    dsimp only
    rw [pageOf_blockAddr (by omega), pageOf_blockAddr (by omega)]
    omega
  obtain ⟨m, hm⟩ : ∃ m, m = store32 k.mem (commandNext (blockAddr 1031)) (blockAddr 1031) :=
    ⟨_, rfl⟩
  have hcycle : load32 m (commandNext (blockAddr 1031)) = blockAddr 1031 := by
    rw [hm]
    exact load32_store32_self _ _ _
  have hends : ¬ Halts (countRound m) (blockAddr 1031, 0) := not_halts_of_cycle hne hcycle 0
  refine ⟨⟨{ k with mem := m }, fun _ => ⟨0, 0#32⟩, 0#32⟩, f, _, blockAddr 1031,
    hhosts.write fun q hq => ?_, hcaller, hlive, fun n => ?_, fun h => hends h.1⟩
  · rw [hm, commandNext_eq]
    refine agreeOnPage_store32 hpage (by omega) _ fun heq => hq ?_
    rw [heq]
    exact hlive
  · cases hcount : processCountCommandArguments m n (blockAddr 1031) 0 with
    | none => rfl
    | some argc =>
      rw [processCountCommandArguments_loop] at hcount
      exact absurd ⟨n, argc, hcount⟩ hends

end MaerOS.Analysis
