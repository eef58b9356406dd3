import MaerOS.Analysis.CommandLine
import MaerOS.Analysis.ProcessLoad

/-!
# One command after the other

`strtok` keeps its place in `sp` from one call of `peachos_parse_command` to the next. A
call that runs out of memory leaves it where it stopped, and the next call goes on from
there instead of at its own command. While every call but the last has memory for all its
words, each list is a prefix of the words of its own command.
-/

set_option autoImplicit false

namespace MaerOS.Analysis

open MaerOS.Lib MaerOS.Model

/-! ## Runs -/

/-- A call of `peachos_parse_command`: the kernel it is made in, what is allocated, the program that
calls, and the command. -/
structure ParseCall where
  kernel : Kernel
  arguments : Addr → ProcessArguments
  foots : List ProcFoot
  rs : List (Addr × ℕ)
  program : ProcFoot
  scommand : Addr
  command : Addr
  max : ℤ
  text : List (BitVec 8)

/-- The call can be made: by a program that is running, with a command of any length. -/
structure ParseCall.Ready (c : ParseCall) : Prop where
  member : c.program ∈ c.foots
  hosts : Hosts c.kernel c.foots c.rs
  requester : Requester c.kernel c.program
  caller : Caller c.kernel c.program
  array : ArrayLive c.kernel c.foots c.rs c.scommand
  string : CString c.kernel.mem c.command c.text
  apart : ArrayApart c.scommand c.command c.text

/-- The words of the command, as far as the array `scommand` and the arguments hold them. -/
def ParseCall.texts (c : ParseCall) : List (List (BitVec 8)) := argumentTexts (c.text.take 1024)

/-- There is memory for all words of the command, if it is looked at. -/
def ParseCall.Supplied (c : ParseCall) : Prop :=
  c.max < 1025 → Granted (nodeRequests c.program c.texts.length) c.kernel

/-- The calls one after the other, with what each returns and the state after it. Only the cursor of
`strtok` is carried from one to the next. -/
def parseRun : (sp : Addr) → List ParseCall → Option (List (Addr × CommandKernel))
  | _, [] => some []
  | sp, c :: calls =>
    match peachosParseCommand c.scommand c.command c.max ⟨c.kernel, c.arguments, sp⟩ with
    | none => none
    | some (root, s) => (parseRun s.sp calls).map ((root, s) :: ·)

/-- The first call, and the others behind it. -/
theorem parseRun_cons {sp root : Addr} {c : ParseCall} {s : CommandKernel}
    (h : peachosParseCommand c.scommand c.command c.max ⟨c.kernel, c.arguments, sp⟩ = some (root, s))
    (calls : List ParseCall) :
    parseRun sp (c :: calls) = (parseRun s.sp calls).map ((root, s) :: ·) := by
  rw [parseRun, h]

/-- The list that a call returns is a prefix of the words of its own command. -/
def ListsOwnWords (c : ParseCall) (outcome : Addr × CommandKernel) : Prop :=
  ∃ args, outcome.1 = rootOf args ∧ ArgumentsAt outcome.2.kernel.mem args ∧
    args.map Prod.snd <+: c.texts

/-- **One call** while no scan is in progress; with memory for all its words it leaves none. -/
theorem ParseCall.Ready.own {c : ParseCall} (h : c.Ready) : ∃ root s,
    peachosParseCommand c.scommand c.command c.max ⟨c.kernel, c.arguments, 0#32⟩ = some (root, s) ∧
      ListsOwnWords c (root, s) ∧ (c.Supplied → s.sp = 0#32) := by
  by_cases hmax : c.max < 1025
  · have hstart : ParseStart ⟨c.kernel, c.arguments, 0#32⟩ c.foots c.rs c.program c.scommand
        c.command
        c.scommand (c.text.take 1024) :=
      .own h.hosts h.requester h.caller rfl h.array h.string h.apart
    obtain ⟨s, args, hcode, hprefix, hlist, hwhole⟩ := peachosParseCommand_from h.member hmax hstart
    refine ⟨rootOf args, s, hcode, ⟨args, rfl, hlist.list, hprefix⟩, fun hmem => ?_⟩
    exact (hwhole [] (by rw [List.append_nil]; exact hmem hmax)).2.1
  · refine ⟨0#32, ⟨c.kernel, c.arguments, 0#32⟩, ?_, ⟨[], rfl, trivial, List.nil_prefix⟩,
      fun _ => rfl⟩
    unfold peachosParseCommand
    rw [if_pos (by omega)]
    rfl

/-- **Commands parsed one after the other.** In every run of calls of `peachos_parse_command`, with
commands of any length and requests for memory that may be denied in the last call, and without a
scan in progress at its start: every call returns, and its list is a prefix of the words of its own
command. -/
theorem parse_run_own_words (calls : List ParseCall) (hready : ∀ c ∈ calls, c.Ready)
    (hmem : ∀ c ∈ calls.dropLast, c.Supplied) :
    ∃ outcomes, parseRun 0#32 calls = some outcomes ∧ List.Forall₂ ListsOwnWords calls outcomes := by
  induction calls with
  | nil => exact ⟨[], rfl, .nil⟩
  | cons c calls ih =>
    obtain ⟨root, s, hcode, hown, hidle⟩ := (hready c List.mem_cons_self).own
    rw [parseRun_cons hcode]
    cases calls with
    | nil => exact ⟨[(root, s)], rfl, .cons hown .nil⟩
    | cons d calls =>
      rw [List.dropLast_cons_cons] at hmem
      rw [hidle (hmem c List.mem_cons_self)]
      obtain ⟨outcomes, hrun, hall⟩ := ih (fun e he => hready e (List.mem_cons_of_mem _ he))
        fun e he => hmem e (List.mem_cons_of_mem _ he)
      exact ⟨(root, s) :: outcomes, by rw [hrun]; rfl, .cons hown hall⟩

/-! ## The same command twice -/

section Boot

variable {k : Kernel} {f : ProcFoot} {rs : List (Addr × ℕ)}

/-- The call with the command `a b`. -/
def twoWordsCall (k : Kernel) (f : ProcFoot) (rs : List (Addr × ℕ)) : ParseCall where
  kernel := withCommand k
  arguments := fun _ => ⟨0, 0#32⟩
  foots := [f]
  rs := rs
  program := f
  scommand := blockAddr 1030
  command := blockAddr 1031
  max := 1024
  text := twoWords

/-- The call of two words can be made. -/
theorem twoWordsCall_ready (hhosts : Hosts k [f] rs) (hreq : Requester k f) (hcaller : Caller k f)
    (hin : (blockAddr 1030, 4) ∈ rs) : (twoWordsCall k f rs).Ready := by
  obtain ⟨hstart, harray, hstring⟩ := withCommand_ready hhosts hin
  exact ⟨List.mem_cons_self, hstart, ⟨hreq.process, hreq.task⟩, hcaller, harray, hstring,
    arrayApart_twoWords⟩

theorem twoWordsCall_texts : (twoWordsCall k f rs).texts = [[0x61#8], [0x62#8]] := by
  have hsep : isDelimiter commandDelimiters = (fun c : BitVec 8 => c == 0x20#8) := by
    funext c
    rw [Bool.eq_iff_iff]
    simp [isDelimiter, commandDelimiters]
  show (words (isDelimiter commandDelimiters) twoWords).map (List.take 511) = _
  rw [hsep, words_twoWords]
  rfl

/-- The first token of `a b`, and where the scan goes on. -/
theorem strtok_twoWords {s : CommandKernel} {a : Addr} (hidle : s.sp = 0#32) (ha : a ≠ 0#32)
    (hs : CString s.kernel.mem a twoWords) :
    ∃ mem, strtok a commandDelimiters s = some (a, CommandKernel.scanned s mem (a + 2#32)) := by
  obtain ⟨n, hn⟩ : ∃ n, addressSpace = n + 2 := ⟨2 ^ 32 - 2, by unfold addressSpace; omega⟩
  have h0 : s.kernel.mem a = 0x61#8 := hs.1
  have h1 : s.kernel.mem (a + 1#32) = 0x20#8 := hs.2.2.1
  have hskip : strtokSkip s.kernel.mem commandDelimiters addressSpace a = some a := by
    rw [hn]
    unfold strtokSkip
    rw [h0, if_neg (by decide)]
  have hend : strtokEnd s.kernel.mem commandDelimiters addressSpace a =
      some (Function.update s.kernel.mem (a + 1#32) 0#8, a + 1#32 + 1#32) := by
    rw [hn]
    unfold strtokEnd
    rw [h0, if_neg (by decide), if_neg (by decide)]
    unfold strtokEnd
    rw [h1, if_neg (by decide), if_pos (by decide)]
  refine ⟨Function.update s.kernel.mem (a + 1#32) 0#8, ?_⟩
  unfold strtok
  rw [if_neg fun h => ha h.1]
  dsimp only
  rw [if_pos ⟨ha, hidle⟩, hskip]
  dsimp only
  rw [if_neg (by rw [h0]; decide), hend]
  dsimp only
  rw [BitVec.add_assoc]
  rfl

/-- A full heap denies the first argument. -/
theorem newCommandArgument_full {s : CommandKernel} {token : Addr}
    (htask : s.kernel.sched.current_task ≠ 0#32) (hfull : Packed s.kernel.heap 25600) :
    newCommandArgument token s = some (0#32,
      { s with kernel := { s.kernel with kallocs := 0#32 :: s.kernel.kallocs } }) := by
  have hmalloc : maerosMalloc sizeofCommandArgument s = some (0#32,
      { s with kernel := { s.kernel with kallocs := 0#32 :: s.kernel.kallocs } }) := by
    refine onKernel_some ?_
    rw [bind_get, bind_of_some (deref_of_ne htask _)]
    unfold processMalloc
    rw [bind_of_some (hfull.kzalloc_full _), if_pos rfl]
    rfl
  unfold newCommandArgument
  rw [bind_of_some hmalloc, if_pos rfl]
  rfl

/-- With a full heap the call returns no list, and the scan of `a b` stops at the `b`. -/
theorem twoWordsCall_full (hready : (twoWordsCall k f rs).Ready) (hfull : Packed k.heap 25600) :
    ∃ s, peachosParseCommand (blockAddr 1030) (blockAddr 1031) 1024
      ⟨withCommand k, fun _ => ⟨0, 0#32⟩, 0#32⟩ = some (0#32, s) ∧
        s.sp = blockAddr 1030 + 2#32 := by
  have hne : blockAddr 1030 ≠ 0#32 := blockAddr_ne_zero (by omega)
  obtain ⟨m, hm⟩ : ∃ m, m = strncpy (withCommand k).mem (blockAddr 1030) (blockAddr 1031) 1025 :=
    ⟨_, rfl⟩
  have hcopy : CString m (blockAddr 1030) twoWords := hm ▸ copyCommand hready.string hready.apart
  obtain ⟨mem, hcode⟩ := @strtok_twoWords ⟨{ withCommand k with mem := m }, fun _ => ⟨0, 0#32⟩,
    0#32⟩ (blockAddr 1030) rfl hne hcopy
  have hnew := @newCommandArgument_full (CommandKernel.scanned ⟨{ withCommand k with mem := m },
    fun _ => ⟨0, 0#32⟩, 0#32⟩ mem (blockAddr 1030 + 2#32)) (blockAddr 1030) hready.caller.1 hfull
  have hstore : (onMemory fun m => strncpy m (blockAddr 1030) (blockAddr 1031) 1025)
      ⟨withCommand k, fun _ => ⟨0, 0#32⟩, 0#32⟩ =
        some ((), ⟨{ withCommand k with mem := m }, fun _ => ⟨0, 0#32⟩, 0#32⟩) := by
    rw [hm]
    rfl
  refine ⟨{ (CommandKernel.scanned ⟨{ withCommand k with mem := m }, fun _ => ⟨0, 0#32⟩, 0#32⟩ mem
    (blockAddr 1030 + 2#32)) with
      kernel := { withCommand k with mem := mem, kallocs := 0#32 :: k.kallocs } }, ?_, rfl⟩
  unfold peachosParseCommand
  rw [if_neg (by decide), bind_of_some hstore, bind_of_some hcode, if_neg hne, bind_of_some hnew,
    if_pos rfl]
  rfl

/-- The call that goes on at the `b` of `a b` returns the list of this word. -/
theorem twoWordsCall_rest (hready : (twoWordsCall k f rs).Ready)
    (hgranted : Granted (nodeRequests f 1) (withCommand k)) :
    ∃ s args, peachosParseCommand (blockAddr 1030) (blockAddr 1031) 1024
      ⟨withCommand k, fun _ => ⟨0, 0#32⟩, blockAddr 1030 + 2#32⟩ = some (rootOf args, s) ∧
        ArgumentsAt s.kernel.mem args ∧ args.map Prod.snd = [[0x62#8]] := by
  have hcopy : CString (strncpy (withCommand k).mem (blockAddr 1030) (blockAddr 1031) 1025)
      (blockAddr 1030) ([0x61#8, 0x20#8] ++ [0x62#8]) := copyCommand hready.string hready.apart
  have hplace : ∀ i ≤ 1, blockAddr 1030 + 2#32 + BitVec.ofNat 32 i =
      blockAddr 1030 + BitVec.ofNat 32 (2 + i) := fun i _ => (add_ofNat_add _ 2 i).symm
  have hstart : ParseStart ⟨withCommand k, fun _ => ⟨0, 0#32⟩, blockAddr 1030 + 2#32⟩ [f] rs f
      (blockAddr 1030) (blockAddr 1031) (blockAddr 1030 + 2#32) [0x62#8] := by
    refine ⟨hready.hosts, hready.requester, hready.caller, hready.array, .inr ⟨?_, rfl⟩,
      hcopy.suffix, by decide, fun i hi => ⟨2 + i, ?_, ?_⟩⟩
    · show blockAddr 1030 + 2#32 ≠ 0#32
      decide
    · rw [List.length_singleton] at hi
      omega
    · rw [hplace i hi]
  have hword : argumentTexts [0x62#8] = [[0x62#8]] := by
    unfold argumentTexts
    rw [words_end (by decide) (by decide)]
    rfl
  obtain ⟨s, args, hcode, -, hlist, hwhole⟩ :=
    peachosParseCommand_from List.mem_cons_self (show (1024 : ℤ) < 1025 from by decide) hstart
  rw [hword] at hwhole
  exact ⟨s, args, hcode, hlist.list, (hwhole [] hgranted).1⟩

end Boot

/-- A run of two calls with memory for all words. -/
theorem parse_run_own_words_boot : ∃ (c : ParseCall) (outcomes : List (Addr × CommandKernel)),
    parseRun 0#32 [c, c] = some outcomes ∧ List.Forall₂ ListsOwnWords [c, c] outcomes ∧
      c.texts = [[0x61#8], [0x62#8]] := by
  obtain ⟨k, f, rs, hhosts, hcaller, hpk, hproc, htask, hnone⟩ := one_process_boot
  have hready := twoWordsCall_ready hhosts ⟨hproc, htask⟩ hcaller List.mem_cons_self
  have hgranted : Granted ([516#32, 516#32].map fun size => (f.process, size)) k :=
    hpk.granted (j := 0) List.mem_cons_self ⟨hproc, htask⟩ _ (by simp [blocksFor]) hhosts (by simp)
      (by simp) fun i _ _ => hnone i
  obtain ⟨outcomes, hrun, hall⟩ := parse_run_own_words
    [twoWordsCall k f ((blockAddr 1030, 4) :: rs), twoWordsCall k f ((blockAddr 1030, 4) :: rs)]
    (by simpa using hready)
    (by
      intro c hc _
      obtain rfl : c = twoWordsCall k f ((blockAddr 1030, 4) :: rs) := by simpa using hc
      rw [twoWordsCall_texts]
      exact hgranted.with_mem _)
  exact ⟨_, outcomes, hrun, hall, twoWordsCall_texts⟩

/-- **The same command twice.** The first call finds the heap full and returns no list; by the second
there is memory again, and the list it returns for `a b` has the one word `b`. -/
theorem parse_run_goes_on : ∃ (c d : ParseCall) (out₁ out₂ : Addr × CommandKernel),
    c.Ready ∧ d.Ready ∧ parseRun 0#32 [c, d] = some [out₁, out₂] ∧ ¬ ListsOwnWords d out₂ := by
  obtain ⟨k, f, rs, hhosts, hcaller, hpk, hproc, htask, hnone⟩ := one_process_boot
  have hready₂ := twoWordsCall_ready hhosts ⟨hproc, htask⟩ hcaller List.mem_cons_self
  -- the rest of the heap is taken while the first call is made
  have hsize : blocksFor 100622336#32 = 24566 := rfl
  have hne : blockAddr 1034 ≠ 0#32 := blockAddr_ne_zero (by omega)
  obtain ⟨k₁, hz, hpk₁, -⟩ := hpk.kernel_kzalloc 100622336#32 (by decide) (by rw [hsize])
  obtain ⟨-, -, -, honly⟩ := kzalloc_some hz
  rw [hsize] at hpk₁
  have hhosts₁ := hhosts.kzalloc (by decide) hz hne
  have hready₁ := twoWordsCall_ready hhosts₁ ⟨hproc, by rw [honly.procs]; exact htask⟩
    (by unfold Caller; rw [honly.sched]; exact hcaller)
    (List.mem_cons_of_mem _ List.mem_cons_self)
  obtain ⟨s₁, hcode₁, hsp⟩ := twoWordsCall_full hready₁ hpk₁
  have hgranted : Granted ([516#32].map fun size => (f.process, size)) k :=
    hpk.granted (j := 0) List.mem_cons_self ⟨hproc, htask⟩ _ (by simp [blocksFor]) hhosts (by simp)
      (by simp) fun i _ _ => hnone i
  obtain ⟨s₂, args, hcode₂, hlist, htexts⟩ := twoWordsCall_rest hready₂ (hgranted.with_mem _)
  refine ⟨_, _, (0#32, s₁), (rootOf args, s₂), hready₁, hready₂, ?_, ?_⟩
  · have hrest := parseRun_cons (c := twoWordsCall k f ((blockAddr 1030, 4) :: rs)) hcode₂ []
    refine (parseRun_cons (c := twoWordsCall k₁ f _) hcode₁ _).trans ?_
    rw [hsp, hrest]
    rfl
  · rintro ⟨args', hroot, hlist', hprefix⟩
    obtain rfl : args = args' := hlist.unique hlist' hroot
    rw [htexts, twoWordsCall_texts] at hprefix
    exact absurd (List.cons_prefix_cons.mp hprefix).1 (by decide)

end MaerOS.Analysis
