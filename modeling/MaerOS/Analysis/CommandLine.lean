import MaerOS.Analysis.ParseCommand

/-!
# The arguments of a process are the words of its command

`process_inject_arguments` copies the list that `peachos_parse_command` has built to the
memory of the process it is for. The proof follows the loop from its end: a round
allocates a page that was not live, writes to it and to the array `argv`, and what the
later rounds write is neither this page nor an argument.
-/

set_option autoImplicit false

namespace MaerOS.Analysis

open MaerOS.Lib MaerOS.Model

section Command

variable {foots : List ProcFoot} {rs : List (Addr × ℕ)}

/-! ## The arguments of a process -/

/-- The requests for the strings of `n` arguments. -/
def stringRequests (g : ProcFoot) (n : ℕ) : List (Addr × BitVec 32) :=
  List.replicate n (g.process, BitVec.ofNat 32 sizeofArgument)

/-- **The loop of `process_inject_arguments`** enters a copy of each argument in `argv`, from
index `i` on. -/
theorem processInjectLoop_spec {g : ProcFoot} (hg : g ∈ foots) {argv : Addr}
    (hargv : PageAligned argv) (args : List (Addr × List (BitVec 8))) {n i : ℕ}
    {s : CommandKernel} (hn : args.length < n) (hi : i + args.length ≤ 1024)
    (hhosts : Hosts s.kernel foots rs) (hlist : ArgumentsAt s.kernel.mem args)
    (hlive : ∀ a ∈ args, LivePage s.kernel foots rs (pageOf a.1) ∧ pageOf a.1 ≠ pageOf argv)
    (hargvLive : LivePage s.kernel foots rs (pageOf argv))
    (hgranted : Granted (stringRequests g args.length) s.kernel) :
    ∃ s', processInjectLoop g.process argv n (rootOf args) i s = some (0, s') ∧
      s'.sp = s.sp ∧ s'.arguments = s.arguments ∧
      (∀ j < i, load32 s'.kernel.mem (wordIndex argv j) =
        load32 s.kernel.mem (wordIndex argv j)) ∧
      (∀ j a, args[j]? = some a →
        CString s'.kernel.mem (load32 s'.kernel.mem (wordIndex argv (i + j))) a.2) ∧
      ∀ q, LivePage s.kernel foots rs q → q ≠ pageOf argv →
        AgreeOnPage s.kernel.mem s'.kernel.mem q := by
  induction args generalizing n i s with
  | nil =>
    obtain ⟨n, rfl⟩ : ∃ l, n = l + 1 := ⟨n - 1, by simp at hn; omega⟩
    refine ⟨s, ?_, rfl, rfl, fun _ _ => rfl, by simp, fun _ _ _ _ _ => rfl⟩
    unfold processInjectLoop
    rfl
  | cons a args ih =>
    obtain ⟨n, rfl⟩ : ∃ l, n = l + 1 := ⟨n - 1, by omega⟩
    rw [List.length_cons] at hn hi hgranted
    obtain ⟨ha, hargs⟩ := hlist
    obtain ⟨haLive, haArgv⟩ := hlive a List.mem_cons_self
    obtain ⟨str, k₁, hcode, hne, hrest⟩ := hgranted
    have hshort := ha.short
    unfold sizeofArgument at hshort
    have hgrant := hhosts.grant hg (by rfl) hcode hne
    obtain ⟨hgrant₂, hstring⟩ := hgrant.strncpy ha.string fun j hj => by
      rw [pageOf_add_ofNat ha.aligned (by omega)]
      exact haLive
    rw [List.take_of_length_le (by unfold sizeofArgument; omega)] at hstring
    have hstrArgv : pageOf str ≠ pageOf argv := fun heq => hgrant.fresh (heq ▸ hargvLive)
    -- memory after the two stores of this round
    let m₂ : Memory := store32 (strncpy k₁.mem str a.1 sizeofArgument) (wordIndex argv i) str
    have hstore : ∀ q, q ≠ pageOf argv →
        AgreeOnPage (strncpy k₁.mem str a.1 sizeofArgument) m₂ q := fun q hq =>
      agreeOnPage_store32 hargv (by omega) _ hq
    have hagree : ∀ q, LivePage s.kernel foots rs q → q ≠ pageOf argv →
        AgreeOnPage s.kernel.mem m₂ q := fun q hq hqne =>
      (hgrant₂.agree q hq).trans (hstore q hqne)
    have hnext : load32 m₂ (commandNext a.1) = rootOf args :=
      (ha.of_page (hagree _ haLive haArgv)).next
    obtain ⟨s', hloop, hsp, harguments, hbefore, hstrings, hframe⟩ :=
      @ih n (i + 1) { s with kernel := { k₁ with mem := m₂ } } (by omega) (by omega)
        (hgrant₂.hosts.write fun q hq => hstore q fun heq => hq
          ((hgrant₂.live q).mpr (.inr (heq ▸ hargvLive))))
        (hargs.of_pages fun b hb => hagree _ (hlive b (List.mem_cons_of_mem _ hb)).1
          (hlive b (List.mem_cons_of_mem _ hb)).2)
        (fun b hb => ⟨(hgrant₂.live _).mpr (.inr (hlive b (List.mem_cons_of_mem _ hb)).1),
          (hlive b (List.mem_cons_of_mem _ hb)).2⟩)
        ((hgrant₂.live _).mpr (.inr hargvLive)) (hrest.with_mem m₂)
    refine ⟨s', ?_, hsp, harguments, ?_, ?_, ?_⟩
    · unfold processInjectLoop
      rw [show rootOf (a :: args) = a.1 from rfl, if_neg ha.nonnull,
        bind_of_some (onKernel_some hcode), if_neg hne]
      show processInjectLoop g.process argv n (load32 m₂ (commandNext a.1)) (i + 1)
        { s with kernel := { k₁ with mem := m₂ } } = some (0, s')
      rw [hnext]
      exact hloop
    · intro j hj
      have hother : load32 m₂ (wordIndex argv j) =
          load32 (strncpy k₁.mem str a.1 sizeofArgument) (wordIndex argv j) := by
        refine load32_store32_of_ne (wordAt_mod hargv (by omega)) (wordAt_mod hargv (by omega)) ?_
        intro heq
        have := (wordAt_inj hargv hargv (by omega) (by omega) heq).2
        omega
      rw [hbefore j (by omega)]
      exact hother.trans ((hgrant₂.agree _ hargvLive).load32 hargv (by omega))
    · intro j b hb
      cases j with
      | zero =>
        simp only [List.getElem?_cons_zero, Option.some.injEq] at hb
        subst hb
        have hstr : load32 s'.kernel.mem (wordIndex argv i) = str :=
          (hbefore i (by omega)).trans (load32_store32_self _ _ _)
        rw [Nat.add_zero, hstr]
        refine (hstring.of_page hgrant.aligned (by omega) (hstore _ hstrArgv)).of_page
          hgrant.aligned (by omega) (hframe _ ((hgrant₂.live _).mpr (.inl rfl)) hstrArgv)
      | succ j =>
        rw [show i + (j + 1) = i + 1 + j from by omega]
        exact hstrings j b (by simpa using hb)
    · intro q hq hqne
      exact (hagree q hq hqne).trans (hframe q ((hgrant₂.live q).mpr (.inr hq)) hqne)

/-- **`process_inject_arguments`** of a list of arguments. -/
theorem processInjectArguments_spec {g : ProcFoot} (hg : g ∈ foots)
    (args : List (Addr × List (BitVec 8))) {s : CommandKernel} (hne : args ≠ [])
    (hlen : args.length ≤ 1023) (hhosts : Hosts s.kernel foots rs)
    (hlist : ArgumentsAt s.kernel.mem args)
    (hlive : ∀ a ∈ args, LivePage s.kernel foots rs (pageOf a.1))
    (hgranted : Granted ((g.process, BitVec.ofNat 32 (4 * args.length)) ::
      stringRequests g args.length) s.kernel) :
    ∃ s' argv, processInjectArguments g.process (rootOf args) s = some (0, s') ∧
      s'.arguments g.process = ⟨args.length, argv⟩ ∧ s'.sp = s.sp ∧
      ∀ j a, args[j]? = some a →
        CString s'.kernel.mem (load32 s'.kernel.mem (wordIndex argv j)) a.2 := by
  have hpos : 0 < args.length := List.length_pos_iff.mpr hne
  have hnodes : args.map Prod.fst ≠ [] := fun hnil => hne (List.map_eq_nil_iff.mp hnil)
  have hone : blocksFor (BitVec.ofNat 32 (4 * args.length)) = 1 := by
    unfold blocksFor
    rw [BitVec.toNat_ofNat]
    omega
  obtain ⟨argv, k₁, hcode, hargv, hrest⟩ := hgranted
  have hgrant := hhosts.grant hg hone hcode hargv
  obtain ⟨s', hloop, hsp, -, -, hstrings, -⟩ := processInjectLoop_spec hg hgrant.aligned args
    (n := addressSpace) (i := 0) (s := { s with kernel := k₁ }) (by unfold addressSpace; omega)
    (by omega) hgrant.hosts (hlist.of_pages fun a ha => hgrant.agree _ (hlive a ha))
    (fun a ha => ⟨(hgrant.live _).mpr (.inr (hlive a ha)),
      fun heq => hgrant.fresh (heq ▸ hlive a ha)⟩)
    ((hgrant.live _).mpr (.inl rfl)) hrest
  refine ⟨{ s' with
    arguments := Function.update s'.arguments g.process ⟨args.length, argv⟩ }, argv, ?_, ?_, hsp, ?_⟩
  · rw [processInjectArguments_eq hnodes hlist.chain, List.length_map,
      bind_of_some (onKernel_some hcode), if_neg hargv, bind_of_some hloop, if_neg (by decide)]
    rfl
  · dsimp only
    rw [Function.update_self]
  · intro j a ha
    have := hstrings j a ha
    rw [Nat.zero_add] at this
    exact this

end Command

/-! ## From the command to the arguments -/

/-- The requests for memory on the way from a command of `n` words to the arguments: by the program
that parses it, and for the process it is for. -/
def commandRequests (f g : ProcFoot) (n : ℕ) : List (Addr × BitVec 32) :=
  nodeRequests f n ++ (g.process, BitVec.ofNat 32 (4 * n)) :: stringRequests g n

/-- **A command becomes the arguments of a process.** The program of process `f` parses a command
of at most 1023 characters, not all of them spaces; no scan of `strtok` is in progress, and every
request for memory is granted. Then `process_inject_arguments` returns 0, `argc` is the number of
the maximal runs of the command without a space, `argv` has these runs in order, each cut to 511
characters, and no scan is in progress afterwards. -/
theorem command_line_arguments (s : CommandKernel) (foots : List ProcFoot) (rs : List (Addr × ℕ))
    (f g : ProcFoot) (scommand command : Addr) (text : List (BitVec 8))
    (hhosts : Hosts s.kernel foots rs) (hf : f ∈ foots) (hg : g ∈ foots)
    (hcaller : Caller s.kernel f) (harray : ArrayLive s.kernel foots rs scommand)
    (htext : CString s.kernel.mem command text) (hapart : ArrayApart scommand command text)
    (hlen : text.length ≤ 1023) (hword : ∃ c ∈ text, c ≠ 0x20#8) (hidle : s.sp = 0#32)
    (hgranted : Granted (commandRequests f g (words (· == 0x20#8) text).length) s.kernel) :
    ∃ s' argv, (peachosParseCommand scommand command 1024 >>= processInjectArguments g.process) s =
        some (0, s') ∧
      s'.arguments g.process = ⟨(words (· == 0x20#8) text).length, argv⟩ ∧
      (∀ i w, (words (· == 0x20#8) text)[i]? = some w →
        CString s'.kernel.mem (load32 s'.kernel.mem (wordIndex argv i)) (w.take 511)) ∧
      s'.sp = 0#32 := by
  have hsep : (fun c : BitVec 8 => c == 0x20#8) = isDelimiter commandDelimiters := by
    funext c
    rw [Bool.eq_iff_iff]
    simp [isDelimiter, commandDelimiters]
  rw [hsep] at hgranted ⊢
  have hcount : (argumentTexts text).length = (words (isDelimiter commandDelimiters) text).length :=
    List.length_map _
  unfold commandRequests at hgranted
  rw [← hcount] at hgranted ⊢
  have hwords : words (isDelimiter commandDelimiters) text ≠ [] := by
    refine words_ne_nil ?_
    obtain ⟨c, hc, hcne⟩ := hword
    exact ⟨c, hc, by simpa [isDelimiter, commandDelimiters] using hcne⟩
  have hreq : Requester s.kernel f := by
    cases htexts : argumentTexts text with
    | nil => exact absurd (List.map_eq_nil_iff.mp htexts) hwords
    | cons t texts =>
      rw [htexts] at hgranted
      exact hgranted.requester
  have hstart := ParseStart.own hhosts hreq hcaller hidle harray htext hapart
  rw [List.take_of_length_le (by omega)] at hstart
  obtain ⟨s₁, args, hparse, -, hlist, hwhole⟩ :=
    peachosParseCommand_from hf (show (1024 : ℤ) < 1025 from by decide) hstart
  obtain ⟨htexts, hsp₁, hrest⟩ := hwhole _ hgranted
  have hlength : args.length = (argumentTexts text).length := by
    rw [← htexts, List.length_map]
  have hshort : (argumentTexts text).length ≤ 1023 :=
    hcount.le.trans ((length_words_le text).trans hlen)
  have hne : args ≠ [] := by
    rintro rfl
    exact hwords (List.map_eq_nil_iff.mp htexts.symm)
  rw [← hlength] at hrest hshort
  obtain ⟨s', argv, hinject, hargs, hsp, hstrings⟩ :=
    processInjectArguments_spec hg args hne hshort hlist.hosts hlist.list hlist.live hrest
  refine ⟨s', argv, ?_, by rw [hargs, hlength], ?_, hsp.trans hsp₁⟩
  · rw [bind_of_some hparse]
    exact hinject
  · intro i w hw
    have htexts : (args.map Prod.snd)[i]? = some (w.take 511) := by
      rw [htexts]
      unfold argumentTexts
      rw [List.getElem?_map, hw]
      rfl
    rw [List.getElem?_map, Option.map_eq_some_iff] at htexts
    obtain ⟨a, ha, hsnd⟩ := htexts
    rw [← hsnd]
    exact hstrings i a ha

/-! ## A command in a fresh kernel -/

/-- The command `a b`. -/
def twoWords : List (BitVec 8) := [0x61#8, 0x20#8, 0x62#8]

theorem words_twoWords : words (· == 0x20#8) twoWords = [[0x61#8], [0x62#8]] := by
  have h := words_next (p := (· == 0x20#8)) (w := [0x61#8]) (l := [0x62#8]) (c := 0x20#8) (by decide)
    (by decide) (by decide)
  have hlast := words_end (p := (· == 0x20#8)) (w := [0x62#8]) (by decide) (by decide)
  rw [hlast] at h
  exact h

/-- The kernel with the command `a b` on the second page of the stack. -/
def withCommand (k : Kernel) : Kernel :=
  { k with mem := storeBytes k.mem (blockAddr 1031) (twoWords ++ [0#8]) }

/-- The command is written to the stack of the program. -/
theorem withCommand_ready {k : Kernel} {f : ProcFoot} {rs : List (Addr × ℕ)} (h : Hosts k [f] rs)
    (hin : (blockAddr 1030, 4) ∈ rs) : Hosts (withCommand k) [f] rs ∧
      ArrayLive (withCommand k) [f] rs (blockAddr 1030) ∧
      CString (withCommand k).mem (blockAddr 1031) twoWords := by
  -- the two pages of the stack that the array and the command are on
  have hstack : ∀ q, 4096 + 1030 ≤ q → q < 4096 + 1034 → LivePage k [f] rs q := by
    intro q h1 h2
    refine ⟨(blockAddr 1030, 4), List.mem_append_right _ hin, ?_⟩
    unfold InRun
    dsimp only
    rw [pageOf_blockAddr (by omega)]
    omega
  have harrayPage : PageAligned (blockAddr 1030) := pageAligned_blockAddr (by omega)
  have hcommandPage : PageAligned (blockAddr 1031) := pageAligned_blockAddr (by omega)
  refine ⟨h.write fun q hq => agreeOnPage_storeBytes hcommandPage (by decide) ?_, fun i hi => ?_,
    cstring_storeBytes _ _ (by decide) (by decide)⟩
  · rintro rfl
    refine hq (hstack _ ?_ ?_) <;> rw [pageOf_blockAddr (by omega)] <;> omega
  · rw [pageOf_add_ofNat harrayPage (by omega), pageOf_blockAddr (by omega)]
    exact hstack _ (by omega) (by omega)

theorem arrayApart_twoWords : ArrayApart (blockAddr 1030) (blockAddr 1031) twoWords := by
  intro i hi
  have hlen : twoWords.length = 3 := rfl
  rw [hlen] at hi
  interval_cases i <;> decide

/-- The command `a b`, typed into a program that runs the command itself: two arguments. -/
theorem command_line_arguments_boot : ∃ (s s' : CommandKernel) (process argv : Addr),
    (peachosParseCommand (blockAddr 1030) (blockAddr 1031) 1024 >>=
        processInjectArguments process) s = some (0, s') ∧
      s'.arguments process = ⟨2, argv⟩ ∧
      CString s'.kernel.mem (load32 s'.kernel.mem (wordIndex argv 0)) [0x61#8] ∧
      CString s'.kernel.mem (load32 s'.kernel.mem (wordIndex argv 1)) [0x62#8] ∧
      s'.sp = 0#32 := by
  obtain ⟨k, f, rs, hhosts, hcaller, hpk, hproc, htask, hnone⟩ := one_process_boot
  obtain ⟨hstart, harray, hstring⟩ := withCommand_ready hhosts List.mem_cons_self
  have hgranted : Granted ([516#32, 516#32, 8#32, 512#32, 512#32].map fun size =>
      (f.process, size)) k :=
    hpk.granted (j := 0) List.mem_cons_self ⟨hproc, htask⟩ _ (by simp [blocksFor]) hhosts (by simp)
      (by simp) fun i _ _ => hnone i
  obtain ⟨s', argv, hrun, hargs, hstrings, hsp⟩ := command_line_arguments
    ⟨withCommand k, fun _ => ⟨0, 0#32⟩, 0#32⟩ [f] ((blockAddr 1030, 4) :: rs) f f (blockAddr 1030)
    (blockAddr 1031) twoWords hstart List.mem_cons_self List.mem_cons_self hcaller harray hstring
    arrayApart_twoWords (by decide) (by decide) rfl
    (by
      rw [words_twoWords]
      exact hgranted.with_mem _)
  rw [words_twoWords] at hargs hstrings
  exact ⟨_, s', f.process, argv, hrun, hargs, hstrings 0 _ rfl, hstrings 1 _ rfl, hsp⟩

end MaerOS.Analysis
