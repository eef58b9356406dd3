import MaerOS.Analysis.ArgumentChain
import MaerOS.Analysis.Strtok

/-!
# The argument list that `peachos_parse_command` builds

The list is built in the memory of the program that calls it, from the place on where
`strtok` scans: the copy of the command, or where an earlier scan has stopped. Any request
for memory may be denied. The list ends there, so its texts are a prefix of the words that
are scanned; if every request is granted it has all of them and the scan is over.

The proof follows the loop from its end: a round allocates a page that was not live, writes
to it and to one page it has been given, and what the later rounds write is neither of them.
-/

set_option autoImplicit false

namespace MaerOS.Analysis

open MaerOS.Lib MaerOS.Model

/-! ## Argument lists in memory -/

/-- A `struct command_argument` with the given text. -/
structure ArgumentAt (m : Memory) (p : Addr) (text : List (BitVec 8)) (next : Addr) : Prop where
  nonnull : p ≠ 0#32
  aligned : PageAligned p
  string : CString m p text
  short : text.length < sizeofArgument
  next : load32 m (commandNext p) = next

/-- The first of a list of arguments. -/
def rootOf (args : List (Addr × List (BitVec 8))) : Addr := (args.map Prod.fst).headD 0#32

/-- A linked list of arguments. -/
def ArgumentsAt (m : Memory) : List (Addr × List (BitVec 8)) → Prop
  | [] => True
  | a :: args => ArgumentAt m a.1 a.2 (rootOf args) ∧ ArgumentsAt m args

/-- An argument stays where its page is left alone. -/
theorem ArgumentAt.of_page {m m' : Memory} {p next : Addr} {text : List (BitVec 8)}
    (h : ArgumentAt m p text next) (hpage : AgreeOnPage m m' (pageOf p)) :
    ArgumentAt m' p text next := by
  have hshort := h.short
  refine ⟨h.nonnull, h.aligned, h.string.of_page h.aligned ?_ hpage, h.short, ?_⟩
  · unfold sizeofArgument at hshort
    omega
  · rw [← h.next, commandNext_eq]
    exact hpage.load32 h.aligned (by omega)

/-- Linking a node to another one keeps its text. -/
theorem ArgumentAt.link {m : Memory} {p next : Addr} {text : List (BitVec 8)}
    (h : ArgumentAt m p text next) (next' : Addr) :
    ArgumentAt (store32 m (commandNext p) next') p text next' := by
  have hshort := h.short
  unfold sizeofArgument at hshort
  refine ⟨h.nonnull, h.aligned, h.string.congr fun i hi => store32_of_far ?_, h.short,
    load32_store32_self _ _ _⟩
  unfold commandNext sizeofArgument
  have hsub : p + BitVec.ofNat 32 i - (p + BitVec.ofNat 32 512) =
      BitVec.ofNat 32 i - BitVec.ofNat 32 512 := by bv_omega
  rw [hsub, BitVec.toNat_sub, BitVec.toNat_ofNat, BitVec.toNat_ofNat]
  omega

/-- A chain of arguments stays where their pages are left alone. -/
theorem ArgumentsAt.of_pages {m m' : Memory} {args : List (Addr × List (BitVec 8))}
    (h : ArgumentsAt m args) (hpages : ∀ a ∈ args, AgreeOnPage m m' (pageOf a.1)) :
    ArgumentsAt m' args := by
  induction args with
  | nil => trivial
  | cons a args ih =>
    refine ⟨h.1.of_page (hpages a List.mem_cons_self), ih h.2 fun b hb => ?_⟩
    exact hpages b (List.mem_cons_of_mem _ hb)

/-- The nodes of a list of arguments. -/
theorem ArgumentsAt.chain {m : Memory} {args : List (Addr × List (BitVec 8))}
    (h : ArgumentsAt m args) : ChainAt m (rootOf args) (args.map Prod.fst) := by
  induction args with
  | nil => rfl
  | cons a args ih =>
    refine ⟨rfl, h.1.nonnull, ?_⟩
    rw [h.1.next]
    exact ih h.2

/-- There is one list of arguments at most from an address on. -/
theorem ArgumentsAt.unique {m : Memory} {args args' : List (Addr × List (BitVec 8))}
    (h : ArgumentsAt m args) (h' : ArgumentsAt m args') (hroot : rootOf args = rootOf args') :
    args = args' := by
  induction args generalizing args' with
  | nil =>
    cases args' with
    | nil => rfl
    | cons b args' => exact absurd hroot.symm h'.1.nonnull
  | cons a args ih =>
    cases args' with
    | nil => exact absurd hroot h.1.nonnull
    | cons b args' =>
      have haddr : a.1 = b.1 := hroot
      have htext : a.2 = b.2 := h.1.string.unique (haddr ▸ h'.1.string)
      have hnext : rootOf args = rootOf args' := by
        rw [← h.1.next, ← h'.1.next, haddr]
      rw [ih h.2 h'.2 hnext, Prod.ext haddr htext]

/-! ## Allocating -/

section Command

variable {foots : List ProcFoot} {rs : List (Addr × ℕ)}

/-- A step of the kernel is a step of the command. -/
theorem onKernel_some {α : Type} {m : KernelM α} {s : CommandKernel} {a : α} {k' : Kernel}
    (h : m s.kernel = some (a, k')) : onKernel m s = some (a, { s with kernel := k' }) := by
  unfold onKernel
  rw [h]
  rfl

/-- What is written to the granted page changes nothing else. -/
theorem Grant.write {k k' : Kernel} {ptr : Addr} (h : Grant k k' foots rs ptr) {mem : Memory}
    (hmem : ∀ q, q ≠ pageOf ptr → AgreeOnPage k'.mem mem q) :
    Grant k { k' with mem := mem } foots rs ptr := by
  refine ⟨h.hosts.write fun q hq => hmem q fun heq => hq ?_, h.aligned, h.fresh, h.live, ?_,
    h.sched⟩
  · exact (h.live q).mpr (.inl heq)
  · intro q hq x hx
    have hne : q ≠ pageOf ptr := fun heq => h.fresh (heq ▸ hq)
    dsimp only
    rw [hmem q hne x hx, h.agree q hq x hx]

/-- **Copying a string to a page just granted.** -/
theorem Grant.strncpy {k k' : Kernel} {ptr src : Addr} {t : List (BitVec 8)}
    (h : Grant k k' foots rs ptr) (ht : CString k.mem src t)
    (hlive : ∀ i ≤ t.length, LivePage k foots rs (pageOf (src + BitVec.ofNat 32 i))) :
    Grant k { k' with mem := strncpy k'.mem ptr src sizeofArgument } foots rs ptr ∧
      CString (strncpy k'.mem ptr src sizeofArgument) ptr (t.take (sizeofArgument - 1)) := by
  have ht' : CString k'.mem src t := ht.congr fun i hi => h.agree _ (hlive i hi) _ rfl
  have heq : Model.strncpy k'.mem ptr src sizeofArgument =
      storeBytes k'.mem ptr (t.take (sizeofArgument - 1) ++ [0#8]) := by
    refine strncpy_eq ht' (by decide) (by decide) fun j hj => ?_
    have hfar := far_of_pageOf_ne h.aligned (x := src + BitVec.ofNat 32 j)
      fun hpage => h.fresh (hpage ▸ hlive j hj)
    unfold sizeofArgument
    omega
  have hshort : (t.take (sizeofArgument - 1)).length ≤ 511 := by
    rw [List.length_take]
    exact min_le_left _ _
  rw [heq]
  refine ⟨h.write fun q hq => agreeOnPage_storeBytes h.aligned ?_ hq, ?_⟩
  · rw [List.length_append, List.length_singleton]
    omega
  · refine cstring_storeBytes _ _ (fun hmem => ht.not_mem (List.mem_of_mem_take hmem)) ?_
    omega

/-- **A new argument** is a page that was not live, with the text of the token; there is none if
the request for it is denied. -/
theorem newCommandArgument_cases {s : CommandKernel} {f : ProcFoot} {token : Addr}
    {t : List (BitVec 8)} (hhosts : Hosts s.kernel foots rs) (hf : f ∈ foots)
    (hreq : Requester s.kernel f) (hcaller : Caller s.kernel f) (ht : CString s.kernel.mem token t)
    (hlive : ∀ i ≤ t.length, LivePage s.kernel foots rs (pageOf (token + BitVec.ofNat 32 i))) :
    ∃ p k', newCommandArgument token s = some (p, { s with kernel := k' }) ∧ Requester k' f ∧
      ((p = 0#32 ∧ Kept s.kernel k' foots rs) ∨
        (Grant s.kernel k' foots rs p ∧
          ArgumentAt k'.mem p (t.take (sizeofArgument - 1)) 0#32)) ∧
      ∀ reqs, Granted ((f.process, sizeofCommandArgument) :: reqs) s.kernel →
        p ≠ 0#32 ∧ Granted reqs k' := by
  obtain ⟨p, k₁, hcode, hframe, hend⟩ :=
    hhosts.request hf hreq (show blocksFor sizeofCommandArgument = 1 from rfl)
  have hmalloc : maerosMalloc sizeofCommandArgument s = some (p, { s with kernel := k₁ }) := by
    refine onKernel_some ?_
    rw [bind_get, bind_of_some (deref_of_ne hcaller.1 _), hcaller.2]
    exact hcode
  have hsame : ∀ reqs, Granted ((f.process, sizeofCommandArgument) :: reqs) s.kernel →
      p ≠ 0#32 ∧ Granted reqs k₁ := by
    rintro reqs ⟨p', k₁', hcode', hne', hrest⟩
    rw [hcode] at hcode'
    cases hcode'
    exact ⟨hne', hrest⟩
  cases hend with
  | denied _ hkept =>
    refine ⟨0#32, k₁, ?_, hreq.of_frame hframe, .inl ⟨rfl, hkept⟩, hsame⟩
    unfold newCommandArgument
    rw [bind_of_some hmalloc, if_pos rfl]
    rfl
  | granted _ hne _ _ hgrant =>
    obtain ⟨hgrant₂, hstring⟩ := hgrant.strncpy ht hlive
    have hshort : (t.take (sizeofArgument - 1)).length < sizeofArgument := by
      rw [List.length_take]
      unfold sizeofArgument
      omega
    have harg : ArgumentAt (strncpy k₁.mem p token sizeofArgument) p (t.take (sizeofArgument - 1))
        (load32 (strncpy k₁.mem p token sizeofArgument) (commandNext p)) :=
      ⟨hne, hgrant.aligned, hstring, hshort, rfl⟩
    have hreq₁ := hreq.of_frame hframe
    refine ⟨p, { k₁ with
      mem := store32 (strncpy k₁.mem p token sizeofArgument) (commandNext p) 0#32 }, ?_,
      ⟨hreq₁.process, hreq₁.task⟩, .inr ⟨hgrant₂.write fun q hq => ?_, harg.link 0#32⟩,
      fun reqs hreqs => ⟨(hsame reqs hreqs).1, (hsame reqs hreqs).2.with_mem _⟩⟩
    · unfold newCommandArgument
      rw [bind_of_some hmalloc, if_neg hne]
      rfl
    · rw [commandNext_eq]
      exact agreeOnPage_store32 hgrant.aligned (by omega) _ hq

/-! ## Scanning the command -/

theorem nonnull_of_livePage {k : Kernel} {a : Addr} (hhosts : Hosts k foots rs)
    (ha : LivePage k foots rs (pageOf a)) : a ≠ 0#32 := by
  rintro rfl
  have := ha.above hhosts
  simp [pageOf] at this

/-- **`strtok`** on a string in pages `S`: it is at its end, or there is a token in these pages and
the rest of the string. -/
theorem strtok_pages {s : CommandKernel} {S : ℕ → Prop} {str a : Addr} {text : List (BitVec 8)}
    (hhosts : Hosts s.kernel foots rs) (hS : ∀ q, S q → LivePage s.kernel foots rs q)
    (hstart : (s.sp = 0#32 ∧ str ≠ 0#32 ∧ a = str) ∨ (s.sp ≠ 0#32 ∧ a = s.sp))
    (htext : CString s.kernel.mem a text) (hlen : text.length ≤ 1024)
    (hin : ∀ i ≤ text.length, S (pageOf (a + BitVec.ofNat 32 i))) :
    (words (isDelimiter commandDelimiters) text = [] ∧
        strtok str commandDelimiters s = some (0#32, { s with sp := 0#32 })) ∨
      ∃ t r mem token sp, words (isDelimiter commandDelimiters) text =
          t :: words (isDelimiter commandDelimiters) r ∧
        strtok str commandDelimiters s = some (token, CommandKernel.scanned s mem sp) ∧
        token ≠ 0#32 ∧ sp ≠ 0#32 ∧ CString mem token t ∧ CString mem sp r ∧
        r.length < text.length ∧
        (∀ i ≤ t.length, S (pageOf (token + BitVec.ofNat 32 i))) ∧
        (∀ i ≤ r.length, S (pageOf (sp + BitVec.ofNat 32 i))) ∧
        ∀ q, ¬ S q → AgreeOnPage s.kernel.mem mem q := by
  have hd : 0#8 ∉ commandDelimiters := by decide
  rcases strtok_spec hd hstart htext (by omega) with hend | hnext
  · exact .inl hend
  obtain ⟨t, r, mem, token, sp, hwords, hcode, hcut⟩ := hnext
  obtain ⟨i₀, rfl, hi₀⟩ := hcut.token_at
  obtain ⟨j₀, rfl, hj₀⟩ := hcut.sp_at
  have hpage : ∀ i ≤ text.length, a + BitVec.ofNat 32 i ≠ 0#32 := fun i hi =>
    nonnull_of_livePage hhosts (hS _ (hin i hi))
  refine .inr ⟨t, r, mem, _, _, hwords, hcode, hpage i₀ (by omega), hpage j₀ (by omega),
    hcut.word, hcut.rest, hcut.shorter, ?_, ?_, ?_⟩
  · intro i hi
    rw [← add_ofNat_add]
    exact hin _ (by omega)
  · intro i hi
    rw [← add_ofNat_add]
    exact hin _ (by omega)
  · rintro q hq x rfl
    refine hcut.frame x ?_
    rintro l hl rfl
    exact hq (hin l hl)

/-! ## The list of arguments -/

/-- The texts of the arguments of a command. -/
def argumentTexts (command : List (BitVec 8)) : List (List (BitVec 8)) :=
  (words (isDelimiter commandDelimiters) command).map (List.take (sizeofArgument - 1))

/-- The requests for `n` arguments. -/
def nodeRequests (f : ProcFoot) (n : ℕ) : List (Addr × BitVec 32) :=
  List.replicate n (f.process, sizeofCommandArgument)

/-- What a scan of the rest of a command leaves behind: the list `args`, and the pages that were
live before it as they were, but for `S` and the page of the argument `current` that the list is
linked to. -/
structure Parsed (s s' : CommandKernel) (foots : List ProcFoot) (rs : List (Addr × ℕ))
    (S : ℕ → Prop) (current : Addr) (args : List (Addr × List (BitVec 8))) : Prop where
  hosts : Hosts s'.kernel foots rs
  list : ArgumentsAt s'.kernel.mem args
  live : ∀ a ∈ args, LivePage s'.kernel foots rs (pageOf a.1)
  mono : ∀ q, LivePage s.kernel foots rs q → LivePage s'.kernel foots rs q
  agree : ∀ q, LivePage s.kernel foots rs q → ¬ S q → q ≠ pageOf current →
    AgreeOnPage s.kernel.mem s'.kernel.mem q
  arguments : s'.arguments = s.arguments
  sched : s'.kernel.sched = s.kernel.sched

/-- What one round of the loop does: the argument `p` is new, and `current` is linked to it. -/
structure LinkedTo (k k' : Kernel) (foots : List ProcFoot) (rs : List (Addr × ℕ))
    (current p : Addr) : Prop where
  hosts : Hosts k' foots rs
  fresh : ¬ LivePage k foots rs (pageOf p)
  live : ∀ q, LivePage k' foots rs q ↔ q = pageOf p ∨ LivePage k foots rs q
  agree : ∀ q, LivePage k foots rs q → q ≠ pageOf current → AgreeOnPage k.mem k'.mem q
  sched : k'.sched = k.sched

/-- A granted argument is linked behind the current one. -/
theorem Grant.link {k k₁ : Kernel} {p current : Addr} {t txt : List (BitVec 8)}
    (hgrant : Grant k k₁ foots rs p) (hp : ArgumentAt k₁.mem p t 0#32)
    (hcur : ArgumentAt k.mem current txt 0#32) (hcurLive : LivePage k foots rs (pageOf current)) :
    LinkedTo k { k₁ with mem := store32 k₁.mem (commandNext current) p } foots rs current p ∧
      ArgumentAt (store32 k₁.mem (commandNext current) p) current txt p ∧
      ArgumentAt (store32 k₁.mem (commandNext current) p) p t 0#32 := by
  have hne : pageOf p ≠ pageOf current := fun heq => hgrant.fresh (heq ▸ hcurLive)
  have hstore : ∀ q, q ≠ pageOf current →
      AgreeOnPage k₁.mem (store32 k₁.mem (commandNext current) p) q := by
    intro q hq
    rw [commandNext_eq]
    exact agreeOnPage_store32 hcur.aligned (by omega) _ hq
  refine ⟨⟨hgrant.hosts.write fun q hq => hstore q ?_, hgrant.fresh, hgrant.live, ?_, hgrant.sched⟩,
    (hcur.of_page (hgrant.agree _ hcurLive)).link p, hp.of_page (hstore _ hne)⟩
  · rintro rfl
    exact hq ((hgrant.live _).mpr (.inr hcurLive))
  · intro q hq hqne
    exact (hgrant.agree q hq).trans (hstore q hqne)

/-- If the requests for the arguments of `texts` and the requests behind them are granted, the list
has all the texts, the scan is over and the requests behind are still granted. -/
def WholeIfGranted (f : ProcFoot) (texts : List (List (BitVec 8))) (k : Kernel)
    (args : List (Addr × List (BitVec 8))) (s' : CommandKernel) : Prop :=
  ∀ rest, Granted (nodeRequests f texts.length ++ rest) k →
    args.map Prod.snd = texts ∧ s'.sp = 0#32 ∧ Granted rest s'.kernel

/-- **The loop of `peachos_parse_command`** links an argument for each word that is left, as long
as there is memory. -/
theorem peachosParseLoop_spec {f : ProcFoot} (hf : f ∈ foots) {S : ℕ → Prop} (n : ℕ)
    {s : CommandKernel} {text txt : List (BitVec 8)} {current : Addr} (hn : text.length < n)
    (hhosts : Hosts s.kernel foots rs) (hreq : Requester s.kernel f) (hcaller : Caller s.kernel f)
    (hS : ∀ q, S q → LivePage s.kernel foots rs q)
    (hsp : s.sp ≠ 0#32) (htext : CString s.kernel.mem s.sp text) (hlen : text.length ≤ 1024)
    (hin : ∀ i ≤ text.length, S (pageOf (s.sp + BitVec.ofNat 32 i)))
    (hcur : ArgumentAt s.kernel.mem current txt 0#32)
    (hcurS : ¬ S (pageOf current)) (hcurLive : LivePage s.kernel foots rs (pageOf current)) :
    ∃ s' args, peachosParseLoop n current s = some ((), s') ∧
      args.map Prod.snd <+: argumentTexts text ∧
      ArgumentAt s'.kernel.mem current txt (rootOf args) ∧
      Parsed s s' foots rs S current args ∧
        WholeIfGranted f (argumentTexts text) s.kernel args s' := by
  induction n generalizing s text txt current with
  | zero => omega
  | succ n ih =>
    unfold peachosParseLoop
    have hstart : (s.sp = 0#32 ∧ (0#32 : Addr) ≠ 0#32 ∧ s.sp = 0#32) ∨
        (s.sp ≠ 0#32 ∧ s.sp = s.sp) := .inr ⟨hsp, rfl⟩
    rcases strtok_pages hhosts hS hstart htext hlen hin with
      ⟨hwords, hcode⟩ | ⟨t, r, mem, token, sp, hwords, hcode, htok, hsp', ht, hr, hshort, htS, hrS,
        hmem⟩
    · have hnone : argumentTexts text = [] := by
        unfold argumentTexts
        rw [hwords]
        rfl
      refine ⟨{ s with sp := 0#32 }, [], ?_, List.nil_prefix, hcur, ⟨hhosts, trivial, by simp,
        fun q hq => hq, fun q _ _ _ x _ => rfl, rfl, rfl⟩, fun rest hgranted => ?_⟩
      · rw [bind_of_some hcode, if_pos rfl]
        rfl
      · rw [hnone] at hgranted ⊢
        exact ⟨rfl, rfl, hgranted⟩
    have htexts : argumentTexts text = t.take (sizeofArgument - 1) :: argumentTexts r := by
      unfold argumentTexts
      rw [hwords, List.map_cons]
    rw [htexts]
    have hhosts₁ : Hosts (CommandKernel.scanned s mem sp).kernel foots rs :=
      hhosts.write fun q hq => hmem q fun hSq => hq (hS q hSq)
    obtain ⟨p, k₁, hnew, hreq₁, hend, hsame⟩ := newCommandArgument_cases hhosts₁ hf
      ⟨hreq.process, hreq.task⟩ hcaller ht fun i hi => hS _ (htS i hi)
    rcases hend with ⟨rfl, hkept⟩ | ⟨hgrant, hp⟩
    · -- the request is denied: the list ends at `current`
      refine ⟨{ (CommandKernel.scanned s mem sp) with kernel := k₁ }, [], ?_, List.nil_prefix,
        (hcur.of_page (hmem _ hcurS)).of_page (hkept.agree _ hcurLive),
        ⟨hkept.hosts, trivial, by simp, hkept.mono,
          fun q hq hqS _ => (hmem q hqS).trans (hkept.agree q hq), rfl, hkept.sched⟩,
        fun rest hgranted => ?_⟩
      · rw [bind_of_some hcode, if_neg htok, bind_of_some hnew, if_pos rfl]
        rfl
      · exact absurd rfl (hsame _ (hgranted.with_mem mem)).1
    obtain ⟨hlinked, hcur', hp'⟩ := hgrant.link hp (hcur.of_page (hmem _ hcurS)) hcurLive
    -- the new page was not live, so it is neither that of `current` nor in `S`
    have hpcur : pageOf current ≠ pageOf p := fun heq => hlinked.fresh (heq ▸ hcurLive)
    have hpS : ¬ S (pageOf p) := fun hSp => hlinked.fresh (hS _ hSp)
    have hmono : ∀ q, LivePage s.kernel foots rs q → LivePage
        { k₁ with mem := store32 k₁.mem (commandNext current) p } foots rs q :=
      fun q hq => (hlinked.live q).mpr (.inr hq)
    have hr' : CString (store32 k₁.mem (commandNext current) p) sp r := hr.congr fun i hi =>
      hlinked.agree _ (hS _ (hrS i hi)) (fun heq => hcurS (heq ▸ hrS i hi)) _ rfl
    obtain ⟨s', args, hloop, hprefix, hpend, hparsed, hwhole⟩ :=
      @ih { (CommandKernel.scanned s mem sp) with
          kernel := { k₁ with mem := store32 k₁.mem (commandNext current) p } } r _ p (by omega)
        hlinked.hosts ⟨hreq₁.process, hreq₁.task⟩
        (by unfold Caller; rw [hlinked.sched]; exact hcaller) (fun q hq => hmono q (hS q hq)) hsp'
        hr' (by omega) hrS hp' hpS ((hlinked.live _).mpr (.inl rfl))
    refine ⟨s', (p, t.take (sizeofArgument - 1)) :: args, ?_, ?_, ?_, ?_, fun rest hgranted => ?_⟩
    · have hset : setNext current p { (CommandKernel.scanned s mem sp) with kernel := k₁ } =
          some ((), { (CommandKernel.scanned s mem sp) with
            kernel := { k₁ with mem := store32 k₁.mem (commandNext current) p } }) := rfl
      rw [bind_of_some hcode, if_neg htok, bind_of_some hnew, if_neg hp.nonnull, bind_of_some hset]
      exact hloop
    · rw [List.map_cons]
      exact (List.prefix_cons_inj _).mpr hprefix
    · exact hcur'.of_page (hparsed.agree _ (hmono _ hcurLive) hcurS hpcur)
    · refine ⟨hparsed.hosts, ⟨hpend, hparsed.list⟩, ?_, fun q hq => hparsed.mono q (hmono q hq),
        ?_, hparsed.arguments, hparsed.sched.trans hlinked.sched⟩
      · intro a ha
        rcases List.mem_cons.mp ha with rfl | ha
        · exact hparsed.mono _ ((hlinked.live _).mpr (.inl rfl))
        · exact hparsed.live a ha
      · intro q hq hqS hqne
        have hqp : q ≠ pageOf p := fun heq => hlinked.fresh (heq ▸ hq)
        exact ((hmem q hqS).trans (hlinked.agree q hq hqne)).trans
          (hparsed.agree q (hmono q hq) hqS hqp)
    · obtain ⟨hsnd, hidle, hrest⟩ :=
        hwhole rest ((hsame _ (hgranted.with_mem mem)).2.with_mem _)
      exact ⟨by rw [List.map_cons, hsnd], hidle, hrest⟩

/-- The array `scommand` lies in live blocks. -/
def ArrayLive (k : Kernel) (foots : List ProcFoot) (rs : List (Addr × ℕ)) (scommand : Addr) :
    Prop :=
  ∀ i < 1025, LivePage k foots rs (pageOf (scommand + BitVec.ofNat 32 i))

/-- The string `text` at `command` does not overlap the array `scommand`. -/
def ArrayApart (scommand command : Addr) (text : List (BitVec 8)) : Prop :=
  ∀ i ≤ text.length, 1025 ≤ (command + BitVec.ofNat 32 i - scommand).toNat

/-! ## The whole call -/

/-- The command is copied, up to 1024 characters. -/
theorem copyCommand {m : Memory} {scommand command : Addr} {text : List (BitVec 8)}
    (htext : CString m command text) (hapart : ArrayApart scommand command text) :
    CString (strncpy m scommand command 1025) scommand (text.take 1024) := by
  rw [@strncpy_eq m scommand command text htext 1025 (by omega) (by omega) hapart]
  refine cstring_storeBytes _ _ (fun hmem => htext.not_mem (List.mem_of_mem_take hmem)) ?_
  rw [List.length_take]
  omega

/-- A page of the array `scommand`. -/
def ArrayPage (scommand : Addr) (q : ℕ) : Prop :=
  ∃ i < 1025, pageOf (scommand + BitVec.ofNat 32 i) = q

/-- The copy changes the pages of its array alone. -/
theorem agreeOnPage_copyCommand (m : Memory) (scommand command : Addr) {q : ℕ}
    (hq : ¬ ArrayPage scommand q) : AgreeOnPage m (strncpy m scommand command 1025) q := by
  intro x hx
  refine strncpy_of_far m (by omega) (by omega) ?_
  by_contra hlt
  refine hq ⟨(x - scommand).toNat, by omega, ?_⟩
  rw [BitVec.ofNat_toNat, BitVec.setWidth_eq, show scommand + (x - scommand) = x from by bv_omega]
  exact hx

/-- The program calls `peachos_parse_command`, and `strtok` will scan the string `line` at `a`: the
copy of the command, or the rest of an earlier one that is still in the array. -/
structure ParseStart (s : CommandKernel) (foots : List ProcFoot) (rs : List (Addr × ℕ))
    (f : ProcFoot) (scommand command a : Addr) (line : List (BitVec 8)) : Prop where
  hosts : Hosts s.kernel foots rs
  requester : Requester s.kernel f
  caller : Caller s.kernel f
  array : ArrayLive s.kernel foots rs scommand
  start : (s.sp = 0#32 ∧ scommand ≠ 0#32 ∧ a = scommand) ∨ (s.sp ≠ 0#32 ∧ a = s.sp)
  string : CString (strncpy s.kernel.mem scommand command 1025) a line
  short : line.length ≤ 1024
  inside : ∀ i ≤ line.length, ArrayPage scommand (pageOf (a + BitVec.ofNat 32 i))

/-- A list of arguments in live blocks. -/
structure CommandList (s' : CommandKernel) (foots : List ProcFoot) (rs : List (Addr × ℕ))
    (args : List (Addr × List (BitVec 8))) : Prop where
  hosts : Hosts s'.kernel foots rs
  list : ArgumentsAt s'.kernel.mem args
  live : ∀ a ∈ args, LivePage s'.kernel foots rs (pageOf a.1)

/-- **`peachos_parse_command`** returns a list of the first words of what is scanned. -/
theorem peachosParseCommand_from {f : ProcFoot} (hf : f ∈ foots) {s : CommandKernel}
    {scommand command a : Addr} {line : List (BitVec 8)} {max : ℤ} (hmax : max < 1025)
    (h : ParseStart s foots rs f scommand command a line) :
    ∃ s' args, peachosParseCommand scommand command max s = some (rootOf args, s') ∧
      args.map Prod.snd <+: argumentTexts line ∧ CommandList s' foots rs args ∧
      WholeIfGranted f (argumentTexts line) s.kernel args s' := by
  have hS : ∀ q, ArrayPage scommand q → LivePage s.kernel foots rs q := by
    rintro q ⟨i, hi, rfl⟩
    exact h.array i hi
  let s₁ : CommandKernel :=
    { s with kernel := { s.kernel with mem := strncpy s.kernel.mem scommand command 1025 } }
  have hstore : (onMemory fun m => strncpy m scommand command 1025) s = some ((), s₁) := rfl
  have hhosts₁ : Hosts s₁.kernel foots rs := h.hosts.write fun q hq =>
    agreeOnPage_copyCommand _ _ _ fun hSq => hq (hS q hSq)
  unfold peachosParseCommand
  rw [if_neg (by omega), bind_of_some hstore]
  rcases strtok_pages hhosts₁ hS h.start h.string h.short h.inside with
    ⟨hwords, hcode⟩ | ⟨t, r, mem, token, sp, hwords, hcode, htok, hsp', ht, hr, hshort, htS, hrS, hmem⟩
  · have hnone : argumentTexts line = [] := by
      unfold argumentTexts
      rw [hwords]
      rfl
    refine ⟨{ s₁ with sp := 0#32 }, [], ?_, List.nil_prefix, ⟨hhosts₁, trivial, by simp⟩,
      fun rest hgranted => ?_⟩
    · rw [bind_of_some hcode, if_pos rfl]
      rfl
    · rw [hnone] at hgranted ⊢
      exact ⟨rfl, rfl, hgranted.with_mem _⟩
  have htexts : argumentTexts line = t.take (sizeofArgument - 1) :: argumentTexts r := by
    unfold argumentTexts
    rw [hwords, List.map_cons]
  rw [htexts]
  have hhosts₂ : Hosts (CommandKernel.scanned s₁ mem sp).kernel foots rs :=
    hhosts₁.write fun q hq => hmem q fun hSq => hq (hS q hSq)
  obtain ⟨p, k', hnew, hreq₁, hend, hsame⟩ := newCommandArgument_cases hhosts₂ hf
    ⟨h.requester.process, h.requester.task⟩ h.caller ht fun i hi => hS _ (htS i hi)
  rw [bind_of_some hcode, if_neg htok, bind_of_some hnew]
  rcases hend with ⟨rfl, hkept⟩ | ⟨hgrant, hp⟩
  · refine ⟨{ (CommandKernel.scanned s₁ mem sp) with kernel := k' }, [], ?_, List.nil_prefix,
      ⟨hkept.hosts, trivial, by simp⟩, fun rest hgranted => ?_⟩
    · rw [if_pos rfl]
      rfl
    · exact absurd rfl (hsame _ (hgranted.with_mem mem)).1
  have hr' : CString k'.mem sp r := hr.congr fun i hi => hgrant.agree _ (hS _ (hrS i hi)) _ rfl
  obtain ⟨s', args, hloop, hprefix, hpend, hparsed, hwhole⟩ := @peachosParseLoop_spec foots rs f hf
    (ArrayPage scommand) addressSpace { (CommandKernel.scanned s₁ mem sp) with kernel := k' } r _ p
    (by have := h.short; unfold addressSpace; omega) hgrant.hosts hreq₁
    (by unfold Caller; rw [hgrant.sched]; exact h.caller)
    (fun q hq => (hgrant.live q).mpr (.inr (hS q hq))) hsp' hr' (by have := h.short; omega) hrS hp
    (fun hSp => hgrant.fresh (hS _ hSp)) ((hgrant.live _).mpr (.inl rfl))
  refine ⟨s', (p, t.take (sizeofArgument - 1)) :: args, ?_, ?_, ⟨hparsed.hosts,
    ⟨hpend, hparsed.list⟩, ?_⟩, fun rest hgranted => ?_⟩
  · rw [if_neg hp.nonnull, bind_of_some hloop]
    rfl
  · rw [List.map_cons]
    exact (List.prefix_cons_inj _).mpr hprefix
  · intro a ha
    rcases List.mem_cons.mp ha with rfl | ha
    · exact hparsed.mono _ ((hgrant.live _).mpr (.inl rfl))
    · exact hparsed.live a ha
  · obtain ⟨hsnd, hidle, hrest⟩ := hwhole rest (hsame _ (hgranted.with_mem mem)).2
    exact ⟨by rw [List.map_cons, hsnd], hidle, hrest⟩

/-- A call while no scan is in progress scans its own command, up to 1024 characters of it. -/
theorem ParseStart.own {f : ProcFoot} {s : CommandKernel} {scommand command : Addr}
    {text : List (BitVec 8)} (hhosts : Hosts s.kernel foots rs) (hreq : Requester s.kernel f)
    (hcaller : Caller s.kernel f) (hidle : s.sp = 0#32)
    (harray : ArrayLive s.kernel foots rs scommand) (htext : CString s.kernel.mem command text)
    (hapart : ArrayApart scommand command text) :
    ParseStart s foots rs f scommand command scommand (text.take 1024) := by
  have hscommand : scommand ≠ 0#32 := by
    have := nonnull_of_livePage hhosts (harray 0 (by omega))
    simpa using this
  have hshort : (text.take 1024).length ≤ 1024 := by
    rw [List.length_take]
    exact min_le_left _ _
  exact ⟨hhosts, hreq, hcaller, harray, .inl ⟨hidle, hscommand, rfl⟩, copyCommand htext hapart,
    hshort, fun i hi => ⟨i, by omega, rfl⟩⟩

end Command

end MaerOS.Analysis
