import MaerOS.Lib.Components
import MaerOS.Analysis.FileBalance
import MaerOS.Analysis.PagingBalance

/-!
# What the path parser accepts

The parser takes the components of the path behind `d:/` up to the first empty one.
So every path made of non-empty parts is parsed back into its parts
(`pathparser_complete`), and a path is given back by its parts, up to one slash at
the end, exactly when none of its components but the last is empty
(`pathparser_keeps_iff`).
-/

set_option autoImplicit false

namespace MaerOS.Analysis

open MaerOS.Lib MaerOS.Model

/-- A path as it is written: the drive, `:/` and the parts with slashes between them. -/
def printPath (drive_no : ℤ) (parts : List (List (BitVec 8))) : List (BitVec 8) :=
  BitVec.ofInt 8 (48 + drive_no) :: 0x3a#8 :: 0x2f#8 :: [0x2f#8].intercalate parts

/-- The texts of the parts of a root. -/
def partTexts (root : PathRoot) : List (List (BitVec 8)) := root.first.map PathPart.text

/-! ## One part -/

/-- The text that the parser takes off the front of a path. -/
def partText (path : List (BitVec 8)) : List (BitVec 8) :=
  path.takeWhile fun c => c != 0x2f#8 && c != 0x00#8

/-- The path behind that text and the slash that ends it. -/
def partRest (path : List (BitVec 8)) : List (BitVec 8) :=
  if firstChar (path.drop (partText path).length) = 0x2f#8 then
    (path.drop (partText path).length).tail
  else path.drop (partText path).length

/-- A part is allocated, and released again when the path has ended. -/
theorem pathparserGetPathPart_eq (path : List (BitVec 8)) :
    pathparserGetPathPart path = (do
      let result_path_part ← allocRecord (BitVec.ofNat 32 maerosMaxPath)
      if partText path = [] then do
        freeRecord result_path_part
        pure (none, partRest path)
      else do
        writeRecord result_path_part
        pure (some (result_path_part, partText path), partRest path)) := rfl

/-- **`pathparser_get_path_part`**, wherever it ends. -/
theorem pathparserGetPathPart_value {path rest : List (BitVec 8)}
    {str : Option (Addr × List (BitVec 8))} {h h' : Heap}
    (hrun : pathparserGetPathPart path h = some ((str, rest), h')) :
    rest = partRest path ∧ str.map Prod.snd =
      if partText path = [] then none else some (partText path) := by
  rw [pathparserGetPathPart_eq] at hrun
  obtain ⟨p, h₁, -, hrun⟩ := prog_bind.mp hrun
  split_ifs at hrun with htext
  · obtain ⟨u, h₂, -, hrun⟩ := prog_bind.mp hrun
    obtain ⟨hout, -⟩ := prog_pure.mp hrun
    cases hout
    simp [htext]
  · obtain ⟨u, h₂, -, hrun⟩ := prog_bind.mp hrun
    obtain ⟨hout, -⟩ := prog_pure.mp hrun
    cases hout
    simp [htext]

/-- **`pathparser_parse_path_part`**, wherever it ends. -/
theorem pathparserParsePathPart_value {path rest : List (BitVec 8)} {part : Option PathPart}
    {h h' : Heap} (hrun : pathparserParsePathPart path h = some ((part, rest), h')) :
    rest = partRest path ∧ part.map PathPart.text =
      if partText path = [] then none else some (partText path) := by
  obtain ⟨⟨str, rest₁⟩, h₁, hget, hrun⟩ := prog_bind.mp hrun
  obtain ⟨rfl, hstr⟩ := pathparserGetPathPart_value hget
  cases str with
  | none =>
    obtain ⟨hout, -⟩ := prog_pure.mp hrun
    cases hout
    exact ⟨rfl, hstr⟩
  | some str =>
    obtain ⟨q, h₂, -, hrun⟩ := prog_bind.mp hrun
    obtain ⟨u, h₃, -, hrun⟩ := prog_bind.mp hrun
    obtain ⟨hout, -⟩ := prog_pure.mp hrun
    cases hout
    exact ⟨rfl, hstr⟩

/-! ## Allocations that succeed -/

/-- Allocations of these sizes, one after the other, all give memory. -/
def AllocsSucceed : List (BitVec 32) → Heap → Prop
  | [], _ => True
  | size :: sizes, h => ∃ p h', h.kzalloc size = some (p, h') ∧ p ≠ 0#32 ∧ AllocsSucceed sizes h'

/-- What the parser allocates for `n` parts: a buffer and a record for each, and the buffer of
the part that ends the list. -/
def partAllocs : ℕ → List (BitVec 32)
  | 0 => [BitVec.ofNat 32 maerosMaxPath]
  | n + 1 => BitVec.ofNat 32 maerosMaxPath :: sizeofPathPart :: partAllocs n

/-- What the parser allocates for a path with `n` parts. -/
def pathAllocs (n : ℕ) : List (BitVec 32) := sizeofPathRoot :: partAllocs n

/-- Free blocks give memory for records of at most a block each. -/
theorem HeapOwns.allocsSucceed {sizes : List (BitVec 32)} :
    ∀ {h : Heap} {rs : List (Addr × ℕ)}, HeapOwns h rs → sizes.length ≤ (freeBlocks h).card →
      (∀ size ∈ sizes, 1 ≤ size.toNat ∧ size.toNat ≤ 4096) → AllocsSucceed sizes h := by
  induction sizes with
  | nil => simp [AllocsSucceed]
  | cons size sizes ih =>
    intro h rs ho hfree hsizes
    rw [List.length_cons] at hfree
    obtain ⟨hpos, hle⟩ := hsizes size (by simp)
    obtain ⟨p, h', hz, hne, ho', hcard⟩ := ho.kzalloc_block hpos hle (by omega)
    refine ⟨p, h', hz, hne, ih ho' (by omega) fun size' hmem => ?_⟩
    exact hsizes size' (by simp [hmem])

/-- The sizes that the parser asks for. -/
theorem partAllocs_small (n : ℕ) :
    ∀ size ∈ partAllocs n, 1 ≤ size.toNat ∧ size.toNat ≤ 4096 := by
  induction n with
  | zero => simp [partAllocs, maerosMaxPath]
  | succ n ih => simpa [partAllocs, maerosMaxPath, sizeofPathPart] using ih

theorem length_partAllocs (n : ℕ) : (partAllocs n).length = 2 * n + 1 := by
  induction n with
  | zero => simp [partAllocs]
  | succ n ih =>
    simp only [partAllocs, List.length_cons, ih]
    omega

/-- Where there is text, the part is made. -/
theorem pathparserParsePathPart_some {path : List (BitVec 8)} (htext : partText path ≠ [])
    {h : Heap} {sizes : List (BitVec 32)}
    (hallocs : AllocsSucceed (BitVec.ofNat 32 maerosMaxPath :: sizeofPathPart :: sizes) h) :
    ∃ part h', pathparserParsePathPart path h = some ((some part, partRest path), h') ∧
      AllocsSucceed sizes h' := by
  obtain ⟨str, h₁, hz, hne, part, h₂, hz₂, hne₂, hrest⟩ := hallocs
  refine ⟨⟨part, str, partText path⟩, h₂, ?_, hrest⟩
  unfold pathparserParsePathPart
  rw [pathparserGetPathPart_eq, bind_assoc, bind_of_some (m := allocRecord _) hz, if_neg htext,
    bind_assoc, bind_of_some (writeRecord_some.mpr ⟨hne, rfl⟩ : writeRecord str h₁ = some ((), h₁)),
    pure_bind]
  dsimp only
  rw [bind_of_some (m := allocRecord _) hz₂,
    bind_of_some (writeRecord_some.mpr ⟨hne₂, rfl⟩ : writeRecord part h₂ = some ((), h₂))]
  rfl

/-- Where there is none, the buffer is given back. -/
theorem pathparserParsePathPart_none {path : List (BitVec 8)} (htext : partText path = [])
    {h : Heap} (hallocs : AllocsSucceed [BitVec.ofNat 32 maerosMaxPath] h) :
    ∃ h', pathparserParsePathPart path h = some ((none, partRest path), h') := by
  obtain ⟨str, h₁, hz, -, -⟩ := hallocs
  refine ⟨heapFree h₁ str, ?_⟩
  unfold pathparserParsePathPart
  rw [pathparserGetPathPart_eq, bind_assoc, bind_of_some (m := allocRecord _) hz, if_pos htext]
  rfl

/-! ## All parts -/

theorem partText_eq {path : List (BitVec 8)} (hnul : 0x00#8 ∉ path) :
    partText path = path.takeWhile fun c => c != 0x2f#8 := by
  unfold partText
  induction path with
  | nil => simp
  | cons c path ih =>
    simp only [List.mem_cons, not_or] at hnul
    simp [List.takeWhile_cons, Ne.symm hnul.1, ih hnul.2]

theorem partRest_eq {path : List (BitVec 8)} (hnul : 0x00#8 ∉ path) :
    partRest path = (path.dropWhile fun c => c != 0x2f#8).tail := by
  have happ := List.takeWhile_append_dropWhile (p := fun c => c != 0x2f#8) (l := path)
  have hdrop : path.drop (partText path).length = path.dropWhile fun c => c != 0x2f#8 := by
    rw [partText_eq hnul]
    nth_rewrite 2 [← happ]
    exact List.drop_left
  unfold partRest
  rw [hdrop]
  cases hrest : path.dropWhile fun c => c != 0x2f#8 with
  | nil => simp
  | cons c rest =>
    have hhead := List.head_dropWhile_not (fun c => c != 0x2f#8) (l := path) (by simp [hrest])
    have hc : c = 0x2f#8 := by simpa [hrest] using hhead
    simp [firstChar, hc]

/-- In a string, what the reader takes is the first component. -/
theorem leading_partText {path : List (BitVec 8)} (hnul : 0x00#8 ∉ path) :
    leading 0x2f#8 path =
      if partText path = [] then [] else partText path :: leading 0x2f#8 (partRest path) := by
  rw [leading_eq, ← partText_eq hnul, ← partRest_eq hnul]

theorem partRest_suffix (path : List (BitVec 8)) : ∃ n, partRest path = path.drop n := by
  unfold partRest
  split_ifs
  · exact ⟨(partText path).length + 1, by simp⟩
  · exact ⟨(partText path).length, rfl⟩

/-- A string stays a string. -/
theorem partRest_nul {path : List (BitVec 8)} (hnul : 0x00#8 ∉ path) :
    0x00#8 ∉ partRest path := by
  obtain ⟨n, hn⟩ := partRest_suffix path
  rw [hn]
  exact fun hmem => hnul (List.mem_of_mem_drop hmem)

/-- Every part takes a character. -/
theorem length_partRest {path : List (BitVec 8)} (htext : partText path ≠ []) :
    (partRest path).length < path.length := by
  have hpos := List.length_pos_iff.mpr htext
  have hle : (partText path).length ≤ path.length := (List.takeWhile_sublist _).length_le
  unfold partRest
  split_ifs <;> simp <;> omega

/-- The texts of the parts, wherever the loop ends. -/
theorem pathparserParseParts_value (fuel : ℕ) : ∀ {path : List (BitVec 8)} {parts : List PathPart}
    {h h' : Heap}, 0x00#8 ∉ path → pathparserParseParts fuel path h = some (parts, h') →
      parts.map PathPart.text = leading 0x2f#8 path := by
  induction fuel with
  | zero =>
    intro path parts h h' _ hrun
    cases hrun
  | succ fuel ih =>
    intro path parts h h' hnul hrun
    obtain ⟨⟨part, rest⟩, h₁, hpart, hrun⟩ := prog_bind.mp hrun
    obtain ⟨rfl, hvalue⟩ := pathparserParsePathPart_value hpart
    rw [leading_partText hnul]
    cases part with
    | none =>
      obtain ⟨rfl, -⟩ := prog_pure.mp hrun
      split_ifs at hvalue with htext
      · simp [htext]
      · simp at hvalue
    | some part =>
      split_ifs at hvalue with htext
      · simp at hvalue
      · obtain ⟨parts', h₂, hparts, hrun⟩ := prog_bind.mp hrun
        obtain ⟨rfl, -⟩ := prog_pure.mp hrun
        have htexts := ih (partRest_nul hnul) hparts
        simp only [Option.map_some, Option.some.injEq] at hvalue
        rw [if_neg htext, List.map_cons, hvalue, htexts]

/-- The loop ends when its allocations succeed. -/
theorem pathparserParseParts_ends (fuel : ℕ) : ∀ {path : List (BitVec 8)} {h : Heap},
    0x00#8 ∉ path → path.length < fuel →
      AllocsSucceed (partAllocs (leading 0x2f#8 path).length) h →
      ∃ parts h', pathparserParseParts fuel path h = some (parts, h') := by
  induction fuel with
  | zero => simp
  | succ fuel ih =>
    intro path h hnul hlen hallocs
    rw [leading_partText hnul] at hallocs
    unfold pathparserParseParts
    split_ifs at hallocs with htext
    · obtain ⟨h', hpart⟩ := pathparserParsePathPart_none htext hallocs
      refine ⟨[], h', ?_⟩
      rw [bind_of_some hpart]
      rfl
    · obtain ⟨part, h₁, hpart, hallocs⟩ := pathparserParsePathPart_some htext hallocs
      have hshort := length_partRest htext
      obtain ⟨parts, h', hparts⟩ := ih (partRest_nul hnul) (by omega) hallocs
      refine ⟨part :: parts, h', ?_⟩
      rw [bind_of_some hpart]
      dsimp only
      rw [bind_of_some hparts]
      rfl

/-! ## Whole paths -/

/-- The length of a string without a zero byte. -/
theorem strlen_eq {s : List (BitVec 8)} (hnul : 0x00#8 ∉ s) : strlen s = s.length := by
  unfold strlen
  rw [List.takeWhile_eq_self_iff.mpr]
  intro c hc
  simpa using fun h0 : c = 0x00#8 => hnul (h0 ▸ hc)

/-- A path that starts with a digit, `:` and `/`. -/
def HasDrive (path : List (BitVec 8)) : Prop :=
  ∃ c rest, path = c :: 0x3a#8 :: 0x2f#8 :: rest ∧ 48 ≤ c.toNat ∧ c.toNat ≤ 57

/-- An accepted path starts with a drive. -/
theorem PathAccepted.hasDrive {path : List (BitVec 8)} (hacc : PathAccepted path) :
    HasDrive path := by
  obtain ⟨-, hv⟩ := hacc
  simp only [pathparserPathValidFormat, isdigit, Bool.and_eq_true, decide_eq_true_eq,
    beq_iff_eq] at hv
  obtain ⟨⟨-, hdigit⟩, hsep⟩ := hv
  cases path with
  | nil => simp at hsep
  | cons c path =>
    simp only [List.drop_succ_cons, List.drop_zero] at hsep
    refine ⟨c, path.drop 2, ?_, hdigit⟩
    rw [← List.take_append_drop 2 path, hsep]
    simp

/-- A string with a drive that is not too long is accepted. -/
theorem HasDrive.accepted {path : List (BitVec 8)} (hdrive : HasDrive path)
    (hnul : 0x00#8 ∉ path) (hlen : path.length ≤ maerosMaxPath) : PathAccepted path := by
  obtain ⟨c, rest, rfl, hdigit⟩ := hdrive
  refine ⟨(strlen_eq hnul).le.trans hlen, ?_⟩
  unfold pathparserPathValidFormat strnlen
  rw [List.take_of_length_le hlen, strlen_eq hnul]
  simp [isdigit, firstChar, hdigit]

/-- **`pathparser_parse`** of an accepted path is the making of the root and the loop. -/
theorem pathparserParse_accepted {path : List (BitVec 8)} (hacc : PathAccepted path) :
    pathparserParse path = (do
      let path_root ← pathparserCreateRoot
      let parts ← pathparserParseParts ((path.drop 3).length + 1) (path.drop 3)
      pure (some ⟨path_root, tonumericdigit (firstChar path), parts⟩)) := by
  obtain ⟨hlen, hv⟩ := hacc
  unfold pathparserParse pathparserGetDriveByPath
  rw [if_neg (not_lt.mpr hlen), if_pos hv]
  dsimp only
  rw [if_neg (not_lt.mpr (drive_nonneg hv))]

/-- What a root holds: the drive and the components of the path behind it. -/
theorem pathparserParse_value {path : List (BitVec 8)} (hnul : 0x00#8 ∉ path)
    {root : PathRoot} {h h' : Heap} (hrun : pathparserParse path h = some (some root, h')) :
    PathAccepted path ∧ root.drive_no = tonumericdigit (firstChar path) ∧
      partTexts root = leading 0x2f#8 (path.drop 3) := by
  by_cases hacc : PathAccepted path
  · refine ⟨hacc, ?_⟩
    rw [pathparserParse_accepted hacc] at hrun
    obtain ⟨p, h₁, -, hrun⟩ := prog_bind.mp hrun
    obtain ⟨parts, h₂, hparts, hrun⟩ := prog_bind.mp hrun
    obtain ⟨hout, -⟩ := prog_pure.mp hrun
    cases hout
    exact ⟨rfl, pathparserParseParts_value _ (fun hmem => hnul (List.mem_of_mem_drop hmem)) hparts⟩
  · rw [pathparserParse_refused hacc] at hrun
    cases hrun

/-- An accepted path is parsed when the allocations succeed. -/
theorem pathparserParse_ends {path : List (BitVec 8)} (hnul : 0x00#8 ∉ path)
    (hacc : PathAccepted path) {h : Heap}
    (hallocs : AllocsSucceed (pathAllocs (leading 0x2f#8 (path.drop 3)).length) h) :
    ∃ root h', pathparserParse path h = some (some root, h') := by
  obtain ⟨p, h₁, hz, hne, hallocs⟩ := hallocs
  have hroot : pathparserCreateRoot h = some (p, h₁) := by
    unfold pathparserCreateRoot
    rw [bind_of_some (m := allocRecord _) hz,
      bind_of_some (writeRecord_some.mpr ⟨hne, rfl⟩ : writeRecord p h₁ = some ((), h₁))]
    rfl
  obtain ⟨parts, h', hparts⟩ := pathparserParseParts_ends ((path.drop 3).length + 1)
    (fun hmem => hnul (List.mem_of_mem_drop hmem)) (Nat.lt_succ_self _) hallocs
  refine ⟨⟨p, tonumericdigit (firstChar path), parts⟩, h', ?_⟩
  rw [pathparserParse_accepted hacc, bind_of_some hroot, bind_of_some hparts]
  rfl

/-! ## The buffers -/

/-- The copying loop in a buffer that is long enough. -/
theorem pathparserCopyPart_run (text rest : List (BitVec 8)) (htext : 0x2f#8 ∉ text)
    (hnul : 0x00#8 ∉ text) (hrest : firstChar rest = 0x2f#8 ∨ rest = []) :
    ∀ (stored : List (BitVec 8)) (n : ℕ), text.length ≤ n →
      pathparserCopyPart (text ++ rest) stored.length (stored ++ List.replicate n 0x00#8) =
        some (stored.length + text.length,
          stored ++ text ++ List.replicate (n - text.length) 0x00#8, rest) := by
  induction text with
  | nil =>
    intro stored n _
    cases rest with
    | nil => simp [pathparserCopyPart]
    | cons c rest =>
      have hc : c = 0x2f#8 := by simpa [firstChar] using hrest
      simp [pathparserCopyPart, hc]
  | cons c text ih =>
    intro stored n hn
    simp only [List.mem_cons, not_or] at htext hnul
    rw [List.length_cons] at hn
    obtain ⟨m, rfl⟩ := Nat.exists_eq_add_of_le' (show 1 ≤ n by omega)
    have hset : (stored ++ List.replicate (m + 1) 0x00#8).set stored.length c =
        stored ++ [c] ++ List.replicate m 0x00#8 := by
      rw [List.replicate_succ, List.set_append_right _ _ le_rfl]
      simp
    have hstep := ih htext.2 hnul.2 (stored ++ [c]) m (by omega)
    rw [List.length_append, List.length_singleton] at hstep
    rw [List.cons_append, pathparserCopyPart, if_neg (by simp [Ne.symm htext.1, Ne.symm hnul.1]),
      if_pos (by simp), hset, hstep, List.length_cons,
      show m + 1 - (text.length + 1) = m - text.length from by omega]
    simp
    omega

/-- Whatever follows a part in the path, the copying loop leaves it in its zeroed buffer, with
zeros behind it up to the end of the buffer and at least one of them. -/
def StoredTerminated (text : List (BitVec 8)) : Prop :=
  text.length < maerosMaxPath ∧ ∀ rest, firstChar rest = 0x2f#8 ∨ rest = [] →
    pathparserCopyPart (text ++ rest) 0 (List.replicate maerosMaxPath 0x00#8) =
      some (text.length, text ++ List.replicate (maerosMaxPath - text.length) 0x00#8, rest)

/-- A part that is shorter than its buffer is stored with its terminator. -/
theorem storedTerminated {text : List (BitVec 8)} (hsep : 0x2f#8 ∉ text) (hnul : 0x00#8 ∉ text)
    (hlen : text.length < maerosMaxPath) : StoredTerminated text := by
  refine ⟨hlen, fun rest hrest => ?_⟩
  simpa using pathparserCopyPart_run text rest hsep hnul hrest [] maerosMaxPath hlen.le

/-! ## Printing and parsing -/

/-- The character of a drive. -/
theorem toNat_driveChar {d : ℕ} (hd : d < 10) :
    (BitVec.ofInt 8 (48 + (d : ℤ))).toNat = 48 + d := by
  rw [BitVec.toNat_ofInt]
  omega

theorem printPath_hasDrive {d : ℕ} (hd : d < 10) (parts : List (List (BitVec 8))) :
    HasDrive (printPath d parts) := by
  refine ⟨_, _, rfl, ?_⟩
  rw [toNat_driveChar hd]
  omega

/-- A printed path is a string. -/
theorem printPath_nul {d : ℕ} (hd : d < 10) {parts : List (List (BitVec 8))}
    (hparts : ∀ p ∈ parts, 0x00#8 ∉ p) : 0x00#8 ∉ printPath d parts := by
  intro hmem
  simp only [printPath, List.mem_cons] at hmem
  rcases hmem with h0 | h0 | h0 | hmem
  · have hdigit := toNat_driveChar hd
    rw [← h0] at hdigit
    simp at hdigit
    omega
  · cases h0
  · cases h0
  · rcases mem_intercalate hmem with h0 | ⟨p, hp, hmem⟩
    · cases h0
    · exact hparts p hp hmem

/-- The components of a printed path are its parts. -/
theorem leading_printPath (drive_no : ℤ) {parts : List (List (BitVec 8))}
    (hparts : ∀ p ∈ parts, p ≠ [] ∧ 0x2f#8 ∉ p ∧ 0x00#8 ∉ p) :
    leading 0x2f#8 ((printPath drive_no parts).drop 3) = parts :=
  leading_intercalate fun p hp => ⟨(hparts p hp).1, (hparts p hp).2.1⟩

/-- **The parser inverts printing**: a path made of a drive and non-empty parts that is not too
long is parsed into these parts, each in its buffer with a terminator. A path that is too long or
has no drive gives no root. -/
theorem pathparser_complete :
    (∀ (d : ℕ) (parts : List (List (BitVec 8))) (h : Heap), d < 10 →
      (∀ p ∈ parts, p ≠ [] ∧ 0x2f#8 ∉ p ∧ 0x00#8 ∉ p) →
      strlen (printPath d parts) ≤ maerosMaxPath →
      AllocsSucceed (pathAllocs parts.length) h →
      ∃ root h', pathparserParse (printPath d parts) h = some (some root, h') ∧
        root.drive_no = d ∧ partTexts root = parts ∧
        ∀ part ∈ root.first, StoredTerminated part.text) ∧
    ∀ (path : List (BitVec 8)) (h : Heap), maerosMaxPath < strlen path ∨ ¬ HasDrive path →
      pathparserParse path h = some (none, h) := by
  constructor
  · intro d parts h hd hparts hlen hallocs
    have hnul : 0x00#8 ∉ printPath d parts := printPath_nul hd fun p hp => (hparts p hp).2.2
    rw [strlen_eq hnul] at hlen
    have hacc := (printPath_hasDrive hd parts).accepted hnul hlen
    have hleading := leading_printPath d hparts
    obtain ⟨root, h', hrun⟩ := pathparserParse_ends (h := h) hnul hacc (by rwa [hleading])
    obtain ⟨-, hdrive, htexts⟩ := pathparserParse_value hnul hrun
    rw [hleading] at htexts
    refine ⟨root, h', hrun, ?_, htexts, fun part hpart => ?_⟩
    · rw [hdrive]
      unfold tonumericdigit firstChar printPath
      rw [List.headD_cons, toNat_driveChar hd]
      push_cast
      ring
    · have hmem : part.text ∈ parts := by
        rw [← htexts]
        exact List.mem_map_of_mem hpart
      obtain ⟨-, hsep, hnul'⟩ := hparts part.text hmem
      apply storedTerminated hsep hnul'
      have hle : part.text.length ≤ ([0x2f#8].intercalate parts).length :=
        length_le_intercalate hmem
      simp only [printPath, List.length_cons] at hlen
      omega
  · rintro path h (hlong | hdrive)
    · exact pathparserParse_refused (fun hacc => absurd hacc.1 (not_le.mpr hlong)) h
    · exact pathparserParse_refused (fun hacc => hdrive hacc.hasDrive) h

/-- The heap of the boot has room for a path of any length that is accepted. -/
theorem pathAllocs_bootKernel {n : ℕ} (hn : n ≤ 108) :
    AllocsSucceed (pathAllocs n) bootKernel.heap := by
  have hlen : (pathAllocs n).length = 2 * n + 2 := by
    unfold pathAllocs
    rw [List.length_cons, length_partAllocs]
  apply heapOwns_bootKernel.allocsSucceed
  · rw [card_freeBlocks_bootKernel, hlen]
    omega
  · intro size hsize
    rcases List.mem_cons.mp hsize with rfl | hsize
    · simp [sizeofPathRoot]
    · exact partAllocs_small n size hsize

/-- The path `0:/A/B` on the heap of the boot. -/
theorem pathparser_complete_twoParts : ∃ root h',
    pathparserParse [0x30#8, 0x3a#8, 0x2f#8, 0x41#8, 0x2f#8, 0x42#8] bootKernel.heap =
      some (some root, h') ∧ partTexts root = [[0x41#8], [0x42#8]] := by
  obtain ⟨root, h', hrun, -, htexts, -⟩ := pathparser_complete.1 0 [[0x41#8], [0x42#8]]
    bootKernel.heap (by decide) (by decide) (by decide) (pathAllocs_bootKernel (by decide))
  exact ⟨root, h', hrun, htexts⟩

/-- What a printed root gives for the path it was parsed from. -/
theorem printPath_drive {path : List (BitVec 8)} (hdrive : HasDrive path) :
    ∃ c, path = c :: 0x3a#8 :: 0x2f#8 :: path.drop 3 ∧
      ∀ parts, printPath (tonumericdigit (firstChar path)) parts =
        c :: 0x3a#8 :: 0x2f#8 :: [0x2f#8].intercalate parts := by
  obtain ⟨c, rest, rfl, hdigit⟩ := hdrive
  refine ⟨c, rfl, fun parts => ?_⟩
  have hc : BitVec.ofInt 8 (48 + ((c.toNat : ℤ) - 48)) = c := by
    rw [show (48 + ((c.toNat : ℤ) - 48)) = (c.toNat : ℤ) from by ring]
    simp
  unfold printPath tonumericdigit firstChar
  rw [List.headD_cons, hc]

/-- **What the parser drops.** The root of a parsed path, printed, is the path up to one slash at
its end iff no component behind the drive but the last is empty, or there is nothing but one
slash behind `d:/`. -/
theorem pathparser_keeps_iff {path : List (BitVec 8)} (hnul : 0x00#8 ∉ path) {root : PathRoot}
    {h h' : Heap} (hrun : pathparserParse path h = some (some root, h')) :
    (printPath root.drive_no (partTexts root) = path ∨
        printPath root.drive_no (partTexts root) ++ [0x2f#8] = path) ↔
      (∀ w ∈ ((path.drop 3).splitOn 0x2f#8).dropLast, w ≠ []) ∨ path.drop 3 = [0x2f#8] := by
  obtain ⟨hacc, hdrive, htexts⟩ := pathparserParse_value hnul hrun
  obtain ⟨c, hpath, hprint⟩ := printPath_drive hacc.hasDrive
  rw [hdrive, htexts, hprint, ← joined_leading_iff]
  nth_rewrite 2 [hpath]
  nth_rewrite 4 [hpath]
  simp

/-- The path `0:/a/`. -/
theorem pathparser_keeps_slash : ∃ root h', pathparserParse
    [0x30#8, 0x3a#8, 0x2f#8, 0x61#8, 0x2f#8] bootKernel.heap = some (some root, h') ∧
      (printPath root.drive_no (partTexts root) = [0x30#8, 0x3a#8, 0x2f#8, 0x61#8, 0x2f#8] ∨
        printPath root.drive_no (partTexts root) ++ [0x2f#8] =
          [0x30#8, 0x3a#8, 0x2f#8, 0x61#8, 0x2f#8]) := by
  have hnul : 0x00#8 ∉ [0x30#8, 0x3a#8, 0x2f#8, 0x61#8, 0x2f#8] := by decide
  obtain ⟨root, h', hrun⟩ := pathparserParse_ends (h := bootKernel.heap) hnul (by decide)
    (pathAllocs_bootKernel (by decide))
  exact ⟨root, h', hrun, (pathparser_keeps_iff hnul hrun).mpr (.inl (by decide))⟩

/-- The path `0:/a//b` is parsed as `0:/a`. -/
theorem pathparser_drops_emptyComponent : ∃ root h', pathparserParse
    [0x30#8, 0x3a#8, 0x2f#8, 0x61#8, 0x2f#8, 0x2f#8, 0x62#8] bootKernel.heap =
      some (some root, h') ∧
      printPath root.drive_no (partTexts root) = [0x30#8, 0x3a#8, 0x2f#8, 0x61#8] ∧
      ¬ (printPath root.drive_no (partTexts root) =
          [0x30#8, 0x3a#8, 0x2f#8, 0x61#8, 0x2f#8, 0x2f#8, 0x62#8] ∨
        printPath root.drive_no (partTexts root) ++ [0x2f#8] =
          [0x30#8, 0x3a#8, 0x2f#8, 0x61#8, 0x2f#8, 0x2f#8, 0x62#8]) := by
  have hnul : 0x00#8 ∉ [0x30#8, 0x3a#8, 0x2f#8, 0x61#8, 0x2f#8, 0x2f#8, 0x62#8] := by decide
  obtain ⟨root, h', hrun⟩ := pathparserParse_ends (h := bootKernel.heap) hnul (by decide)
    (pathAllocs_bootKernel (by decide))
  obtain ⟨-, hdrive, htexts⟩ := pathparserParse_value hnul hrun
  have hprint : printPath root.drive_no (partTexts root) = [0x30#8, 0x3a#8, 0x2f#8, 0x61#8] := by
    rw [hdrive, htexts]
    decide
  refine ⟨root, h', hrun, hprint, ?_⟩
  rw [hprint]
  decide

end MaerOS.Analysis
