import MaerOS.Analysis.FatDirectory

/-!
# Names of directory entries, byte for byte

An entry with a space-padded name and extension is found under its trimmed name, with
a dot and the trimmed extension behind it if there is one, up to the case of letters.
Composing the name reads the 11 bytes of the entry and clears the buffer before it
writes at most 13 bytes at its front. `name_matching_exact` is the result.
-/

set_option autoImplicit false

namespace MaerOS.Analysis

open MaerOS.Lib MaerOS.Model

/-! ## Stores into a buffer -/

/-- Bytes stored one after the other replace as many bytes. -/
theorem applyWrites_writesAt (bytes : List (BitVec 8)) : ∀ (buf : List (BitVec 8)) (place : ℕ),
    place + bytes.length ≤ buf.length →
      applyWrites buf (writesAt place bytes) =
        buf.take place ++ bytes ++ buf.drop (place + bytes.length) := by
  induction bytes with
  | nil =>
    intro buf place _
    simp [applyWrites, writesAt]
  | cons b bytes ih =>
    intro buf place hle
    rw [List.length_cons] at hle
    have hstep := ih (buf.set place b) (place + 1) (by rw [List.length_set]; omega)
    change applyWrites (buf.set place b) (writesAt (place + 1) bytes) = _
    rw [hstep, List.length_cons, List.drop_set_of_lt (by omega),
      List.take_succ_eq_append_getElem (by rw [List.length_set]; omega), List.getElem_set_self,
      List.take_set_of_le le_rfl,
      show place + (bytes.length + 1) = place + 1 + bytes.length from by omega]
    simp

theorem applyWrites_append (buf : List (BitVec 8)) (ws ws' : List (ℕ × BitVec 8)) :
    applyWrites buf (ws ++ ws') = applyWrites (applyWrites buf ws) ws' := by
  simp [applyWrites, List.foldl_append]

/-- Storing a string and its terminator behind another one, with zeros up to the end. -/
theorem applyWrites_zeros (stored text : List (BitVec 8)) {n : ℕ}
    (h : stored.length + text.length < n) :
    applyWrites (stored ++ List.replicate (n - stored.length) 0x00#8)
        (writesAt stored.length (text ++ [0x00#8])) =
      stored ++ text ++ List.replicate (n - (stored.length + text.length)) 0x00#8 := by
  obtain ⟨m, hm⟩ : ∃ m, n - (stored.length + text.length) = m + 1 :=
    ⟨n - (stored.length + text.length) - 1, by omega⟩
  have hdrop : n - stored.length - (text.length + 1) = m := by omega
  rw [applyWrites_writesAt _ _ _ (by simp; omega), hm, List.replicate_succ]
  simp [List.drop_append, hdrop]

theorem mem_writesAt {w : ℕ × BitVec 8} (bytes : List (BitVec 8)) : ∀ {place : ℕ},
    w ∈ writesAt place bytes → place ≤ w.1 ∧ w.1 < place + bytes.length := by
  induction bytes with
  | nil => simp [writesAt]
  | cons b bytes ih =>
    intro place hw
    rw [List.length_cons]
    rcases List.mem_cons.mp hw with rfl | hw
    · simp
    · have := ih hw
      omega

theorem map_fst_writesAt (bytes : List (BitVec 8)) : ∀ place : ℕ,
    (writesAt place bytes).map Prod.fst = List.range' place bytes.length := by
  induction bytes with
  | nil => simp [writesAt]
  | cons b bytes ih => simp [writesAt, List.range'_succ, ih]

/-- The copying loop stores the field up to a NUL, a space or its end, and a NUL behind it. -/
theorem fat16ToProperStringBytes_eq {size : ℕ} (input : List (BitVec 8)) : ∀ {i out : ℕ},
    input ≠ [] → size = i + input.length →
      fat16ToProperStringBytes size input i out =
        some (out + (fat16ToProperString input).length,
          writesAt out (fat16ToProperString input ++ [0x00#8])) := by
  induction input with
  | nil => simp
  | cons c input ih =>
    intro i out _ hsize
    rw [List.length_cons] at hsize
    unfold fat16ToProperStringBytes
    by_cases hend : c = 0x00#8 ∨ c = 0x20#8
    · have htake : fat16ToProperString (c :: input) = [] :=
        List.takeWhile_cons_of_neg (by rcases hend with rfl | rfl <;> simp)
      rw [if_pos hend, htake]
      simp [writesAt]
    · have htake : fat16ToProperString (c :: input) = c :: fat16ToProperString input :=
        List.takeWhile_cons_of_pos (by simpa using hend)
      rw [if_neg hend, htake]
      cases input with
      | nil =>
        rw [if_pos (by rw [List.length_nil] at hsize; omega)]
        simp [writesAt, fat16ToProperString]
      | cons d input =>
        rw [if_neg (by rw [List.length_cons] at hsize; omega), ih (by simp) (by omega)]
        simp [writesAt]
        omega

/-! ## Composed names -/

section Composed

variable {item : FatDirectoryItem}

theorem length_fat16ToProperString (field : List (BitVec 8)) :
    (fat16ToProperString field).length ≤ field.length := (List.takeWhile_sublist _).length_le

/-- The stores of `fat16_get_full_relative_filename` behind those of `memset`. -/
def nameWrites (item : FatDirectoryItem) : List (ℕ × BitVec 8) :=
  writesAt 0 (fat16ToProperString item.filename ++ [0x00#8]) ++
    if firstChar item.ext ≠ 0x00#8 ∧ firstChar item.ext ≠ 0x20#8 then
      writesAt (fat16ToProperString item.filename).length
        (0x2e#8 :: (fat16ToProperString item.ext ++ [0x00#8]))
    else []

/-- **`fat16_get_full_relative_filename`** reads no byte behind the two fields. -/
theorem fat16GetFullRelativeFilenameBytes_eq (hname : item.filename.length = 8)
    (hext : item.ext.length = 3) (max_len : ℕ) :
    fat16GetFullRelativeFilenameBytes item max_len =
      some (writesAt 0 (List.replicate max_len 0x00#8) ++ nameWrites item) := by
  have hfilename : fat16ToProperStringBytes 8 item.filename 0 0 = _ :=
    fat16ToProperStringBytes_eq item.filename (List.ne_nil_of_length_pos (by omega)) (by omega)
  have hextbytes : ∀ out, fat16ToProperStringBytes 3 item.ext 0 out = _ := fun out =>
    fat16ToProperStringBytes_eq item.ext (List.ne_nil_of_length_pos (by omega)) (by omega)
  have hfirst : item.ext[0]? = some (firstChar item.ext) := by
    cases hitem : item.ext with
    | nil => simp [hitem] at hext
    | cons c ext => simp [firstChar]
  unfold fat16GetFullRelativeFilenameBytes nameWrites
  rw [hfilename, hfirst]
  dsimp only [Option.bind_eq_bind, Option.bind_some]
  split_ifs with hc
  · rw [hextbytes]
    simp [writesAt]
  · simp

/-- They lie within the first 13 bytes. -/
theorem nameWrites_lt (hname : item.filename.length = 8) (hext : item.ext.length = 3) :
    ∀ w ∈ nameWrites item, w.1 < 13 := by
  have hname' := length_fat16ToProperString item.filename
  have hext' := length_fat16ToProperString item.ext
  intro w hw
  unfold nameWrites at hw
  rcases List.mem_append.mp hw with hw | hw
  · have hin := (mem_writesAt _ hw).2
    simp only [List.length_append, List.length_singleton] at hin
    omega
  · split_ifs at hw
    · have hin := (mem_writesAt _ hw).2
      simp only [List.length_append, List.length_cons, List.length_nil] at hin
      omega
    · simp at hw

/-- Into a cleared buffer they write the name. -/
theorem applyWrites_nameWrites (hname : item.filename.length = 8) (hext : item.ext.length = 3)
    {n : ℕ} (hn : 13 ≤ n) :
    applyWrites (List.replicate n 0x00#8) (nameWrites item) =
      fat16GetFullRelativeFilename item ++
        List.replicate (n - (fat16GetFullRelativeFilename item).length) 0x00#8 := by
  have hname' := length_fat16ToProperString item.filename
  have hext' := length_fat16ToProperString item.ext
  have hfirst := applyWrites_zeros [] (fat16ToProperString item.filename) (n := n)
    (by rw [List.length_nil]; omega)
  simp only [List.length_nil, Nat.sub_zero, List.nil_append, Nat.zero_add] at hfirst
  unfold nameWrites fat16GetFullRelativeFilename
  rw [applyWrites_append, hfirst]
  by_cases hc : firstChar item.ext ≠ 0x00#8 ∧ firstChar item.ext ≠ 0x20#8
  · rw [if_pos hc, if_pos (by simpa using hc), ← List.cons_append,
      applyWrites_zeros _ _ (by rw [List.length_cons]; omega), List.length_append]
  · rw [if_neg hc, if_neg (by simpa using hc)]
    simp [applyWrites]

end Composed

/-! ## Space-padded entries -/

/-- The strings agree up to the case of letters. -/
def SameUpToCase (s t : List (BitVec 8)) : Prop := s.map tolower = t.map tolower

/-- A field of `n` bytes: a text without space, NUL or dot, and spaces. -/
structure SpacePadded (n : ℕ) (text field : List (BitVec 8)) : Prop where
  field : field = text ++ List.replicate (n - text.length) 0x20#8
  length_le : text.length ≤ n
  plain : ∀ c ∈ text, c ≠ 0x20#8 ∧ c ≠ 0x00#8 ∧ c ≠ 0x2e#8

/-- An entry with a space-padded name, which is not empty, and a space-padded extension. -/
structure PaddedEntry (name ext : List (BitVec 8)) (item : FatDirectoryItem) : Prop where
  filename : SpacePadded 8 name item.filename
  ext : SpacePadded 3 ext item.ext
  name_ne : name ≠ []

/-- The trimmed name, with a dot and the trimmed extension if there is one. -/
def fullName (name ext : List (BitVec 8)) : List (BitVec 8) :=
  if ext = [] then name else name ++ 0x2e#8 :: ext

/-- The search finds `s` at the entry: the name composed in the buffer compares equal. -/
def EntryMatches (buf : List (BitVec 8)) (item : FatDirectoryItem) (s : List (BitVec 8)) : Prop :=
  ∃ writes, fat16GetFullRelativeFilenameBytes item maerosMaxPath = some writes ∧
    istrncmp (applyWrites buf writes) s maerosMaxPath = 0

theorem tolower_eq_dot {c : BitVec 8} : tolower c = 0x2e#8 ↔ c = 0x2e#8 := by
  unfold tolower
  split <;> bv_omega

theorem tolower_eq_space {c : BitVec 8} : tolower c = 0x20#8 ↔ c = 0x20#8 := by
  unfold tolower
  split <;> bv_omega

section Padded

variable {n : ℕ} {text text' field field' : List (BitVec 8)}

theorem SpacePadded.length (h : SpacePadded n text field) : field.length = n := by
  have hle := h.length_le
  rw [h.field, List.length_append, List.length_replicate]
  omega

/-- Trimming a field gives the text. -/
theorem SpacePadded.trim (h : SpacePadded n text field) : fat16ToProperString field = text := by
  unfold fat16ToProperString
  rw [h.field, List.takeWhile_append_of_pos]
  · cases n - text.length <;> simp [List.replicate_succ]
  · intro c hc
    obtain ⟨hspace, hnul, -⟩ := h.plain c hc
    simp [hspace, hnul]

/-- The first byte tells whether there is a text. -/
theorem SpacePadded.blank_iff (h : SpacePadded n text field) (hn : 0 < n) :
    (firstChar field ≠ 0x00#8 ∧ firstChar field ≠ 0x20#8) ↔ text ≠ [] := by
  have hfield := h.field
  cases text with
  | nil =>
    rw [hfield, List.nil_append]
    obtain ⟨m, rfl⟩ := Nat.exists_eq_add_of_le' hn
    simp [List.replicate_succ, firstChar]
  | cons c text =>
    obtain ⟨hspace, hnul, -⟩ := h.plain c (by simp)
    rw [hfield]
    simp [firstChar, hspace, hnul]

/-- Two fields agree up to case iff their texts do. -/
theorem SpacePadded.same_iff (h : SpacePadded n text field) (h' : SpacePadded n text' field') :
    SameUpToCase field field' ↔ SameUpToCase text text' := by
  have htrim : ∀ {t f : List (BitVec 8)}, SpacePadded n t f →
      (f.map tolower).takeWhile (fun c => c != 0x20#8) = t.map tolower := by
    intro t f ht
    rw [ht.field, List.map_append, List.takeWhile_append_of_pos]
    · cases n - t.length <;> simp [List.replicate_succ, tolower]
    · intro c hc
      obtain ⟨d, hd, rfl⟩ := List.mem_map.mp hc
      simpa [tolower_eq_space] using (ht.plain d hd).1
  unfold SameUpToCase
  constructor
  · intro hsame
    rw [← htrim h, ← htrim h', hsame]
  · intro hsame
    have hlen : text.length = text'.length := by simpa using congrArg List.length hsame
    rw [h.field, h'.field, List.map_append, List.map_append, hsame, hlen]

end Padded

section Entries

variable {name ext name' ext' : List (BitVec 8)} {item item' : FatDirectoryItem}

/-- The composed name of a space-padded entry. -/
theorem PaddedEntry.fullName_eq (h : PaddedEntry name ext item) :
    fat16GetFullRelativeFilename item = fullName name ext := by
  unfold fat16GetFullRelativeFilename fullName
  rw [h.filename.trim, h.ext.trim]
  by_cases hext : ext = []
  · rw [if_pos hext, if_neg]
    simpa using fun hc => by_contra fun hs => (h.ext.blank_iff (by omega)).mp ⟨hc, hs⟩ hext
  · rw [if_neg hext, if_pos]
    simpa using (h.ext.blank_iff (by omega)).mpr hext

/-- The full names of two entries agree up to case iff their 11 bytes do. -/
theorem PaddedEntry.same_iff (h : PaddedEntry name ext item) (h' : PaddedEntry name' ext' item') :
    SameUpToCase (fullName name ext) (fullName name' ext') ↔
      SameUpToCase (item.filename ++ item.ext) (item'.filename ++ item'.ext) := by
  have hdot : ∀ {t : List (BitVec 8)}, (∀ c ∈ t, c ≠ 0x20#8 ∧ c ≠ 0x00#8 ∧ c ≠ 0x2e#8) →
      0x2e#8 ∉ t.map tolower := by
    intro t ht hmem
    obtain ⟨d, hd, heq⟩ := List.mem_map.mp hmem
    exact (ht d hd).2.2 (tolower_eq_dot.mp heq)
  have hbytes : SameUpToCase (item.filename ++ item.ext) (item'.filename ++ item'.ext) ↔
      SameUpToCase name name' ∧ SameUpToCase ext ext' := by
    rw [← h.filename.same_iff h'.filename, ← h.ext.same_iff h'.ext]
    unfold SameUpToCase
    rw [List.map_append, List.map_append]
    constructor
    · intro hsame
      exact List.append_inj hsame (by simp [h.filename.length, h'.filename.length])
    · rintro ⟨hname, hext⟩
      rw [hname, hext]
  have hname := hdot h.filename.plain
  have hname' := hdot h'.filename.plain
  rw [hbytes]
  unfold SameUpToCase fullName
  split_ifs with hext hext' hext'
  · simp [hext, hext']
  · refine iff_of_false (fun hsame => hname ?_) fun hsame => hext' ?_
    · simp [hsame, tolower]
    · simpa [hext, eq_comm] using hsame.2
  · refine iff_of_false (fun hsame => hname' ?_) fun hsame => hext ?_
    · simp [← hsame, tolower]
    · simpa [hext'] using hsame.2
  · rw [List.map_append, List.map_append, List.map_cons, List.map_cons,
      show tolower 0x2e#8 = 0x2e#8 from by decide,
      List.append_cons_inj_of_notMem hname (hdot h.ext.plain)]
    simp

theorem istrncmp_terminated (s1 rest : List (BitVec 8)) : ∀ (s2 : List (BitVec 8)) (n : ℕ),
    istrncmp (s1 ++ 0x00#8 :: rest) s2 n = istrncmp s1 s2 n := by
  induction s1 with
  | nil =>
    intro s2 n
    cases n <;> simp [istrncmp, firstChar]
  | cons a s1 ih =>
    intro s2 n
    cases n with
    | zero => simp [istrncmp]
    | succ n => simp [istrncmp, firstChar, ih]

theorem PaddedEntry.length_fullName (h : PaddedEntry name ext item) :
    (fullName name ext).length < maerosMaxPath := by
  have hname := h.filename.length_le
  have hext := h.ext.length_le
  unfold fullName maerosMaxPath
  split_ifs
  · omega
  · rw [List.length_append, List.length_cons]
    omega

/-- The search finds a space-padded entry under its full name, up to case. -/
theorem PaddedEntry.matches_iff (h : PaddedEntry name ext item) {buf s : List (BitVec 8)}
    (hbuf : buf.length = maerosMaxPath) (hnul : 0x00#8 ∉ s) :
    EntryMatches buf item s ↔ SameUpToCase s (fullName name ext) := by
  have hname := h.filename.length
  have hext := h.ext.length
  have hlen : (fat16GetFullRelativeFilename item).length < maerosMaxPath := by
    rw [h.fullName_eq]
    exact h.length_fullName
  have hout : applyWrites buf (writesAt 0 (List.replicate maerosMaxPath 0x00#8) ++
      nameWrites item) = fat16GetFullRelativeFilename item ++
        List.replicate (maerosMaxPath - (fat16GetFullRelativeFilename item).length) 0x00#8 := by
    rw [applyWrites_append, applyWrites_writesAt _ _ _ (by simp [hbuf]),
      ← applyWrites_nameWrites hname hext (by decide)]
    simp [← hbuf]
  have hcmp : istrncmp (applyWrites buf (writesAt 0 (List.replicate maerosMaxPath 0x00#8) ++
      nameWrites item)) s maerosMaxPath = 0 ↔
        SameUpToCase (fat16GetFullRelativeFilename item) s := by
    obtain ⟨m, hm⟩ := Nat.exists_eq_add_of_lt hlen
    rw [hout, show maerosMaxPath - (fat16GetFullRelativeFilename item).length = m + 1 by omega,
      List.replicate_succ, istrncmp_terminated]
    exact istrncmp_eq_zero_iff _ s _ not_mem_fullRelativeFilename hnul hlen
  unfold EntryMatches
  rw [fat16GetFullRelativeFilenameBytes_eq hname hext]
  simp only [Option.some.injEq, exists_eq_left']
  rw [hcmp, h.fullName_eq]
  exact eq_comm

/-- **Names of entries are matched exactly.** For a space-padded entry
`fat16_get_full_relative_filename` clears the buffer, reads the 11 bytes of the two fields and no
other, and stores into the first 13 bytes of the buffer. The entry is found under the strings that
are its trimmed name, with a dot and the trimmed extension if there is one, up to case. So two
such entries are found under the same strings iff their 11 bytes agree up to case. -/
theorem name_matching_exact :
    (∀ (name ext : List (BitVec 8)) (item : FatDirectoryItem), PaddedEntry name ext item →
      (∀ max_len, ∃ writes, fat16GetFullRelativeFilenameBytes item max_len =
        some (writesAt 0 (List.replicate max_len 0x00#8) ++ writes) ∧ ∀ w ∈ writes, w.1 < 13) ∧
      ∀ buf s : List (BitVec 8), buf.length = maerosMaxPath → 0x00#8 ∉ s →
        s.length < maerosMaxPath → (EntryMatches buf item s ↔ SameUpToCase s (fullName name ext))) ∧
    ∀ (name ext name' ext' : List (BitVec 8)) (item item' : FatDirectoryItem),
      PaddedEntry name ext item → PaddedEntry name' ext' item' →
      ∀ buf : List (BitVec 8), buf.length = maerosMaxPath →
        ((∀ s : List (BitVec 8), 0x00#8 ∉ s → s.length < maerosMaxPath →
            (EntryMatches buf item s ↔ EntryMatches buf item' s)) ↔
          SameUpToCase (item.filename ++ item.ext) (item'.filename ++ item'.ext)) ∧
        ((∃ s : List (BitVec 8), 0x00#8 ∉ s ∧ s.length < maerosMaxPath ∧
            EntryMatches buf item s ∧ EntryMatches buf item' s) ↔
          SameUpToCase (item.filename ++ item.ext) (item'.filename ++ item'.ext)) := by
  constructor
  · intro name ext item h
    constructor
    · intro max_len
      exact ⟨nameWrites item, fat16GetFullRelativeFilenameBytes_eq h.filename.length h.ext.length
        max_len, nameWrites_lt h.filename.length h.ext.length⟩
    · intro buf s hbuf hnul _
      exact h.matches_iff hbuf hnul
  · intro name ext name' ext' item item' h h' buf hbuf
    have hname : 0x00#8 ∉ fullName name ext := by
      rw [← h.fullName_eq]
      exact not_mem_fullRelativeFilename
    have hself : EntryMatches buf item (fullName name ext) := (h.matches_iff hbuf hname).mpr rfl
    rw [← h.same_iff h']
    constructor
    · constructor
      · intro hall
        exact (h'.matches_iff hbuf hname).mp ((hall _ hname h.length_fullName).mp hself)
      · intro hsame s hnul _
        rw [h.matches_iff hbuf hnul, h'.matches_iff hbuf hnul]
        unfold SameUpToCase at hsame ⊢
        rw [hsame]
    · constructor
      · rintro ⟨s, hnul, -, hs, hs'⟩
        have hs := (h.matches_iff hbuf hnul).mp hs
        exact hs.symm.trans ((h'.matches_iff hbuf hnul).mp hs')
      · intro hsame
        exact ⟨_, hname, h.length_fullName, hself, (h'.matches_iff hbuf hname).mpr hsame⟩

/-- The name `A` with the extension `B`, in an entry. -/
def smallEntry : FatDirectoryItem :=
  fatDirectoryItem (0x41#8 :: List.replicate 7 0x20#8 ++ 0x42#8 :: List.replicate 23 0x20#8)

theorem name_matching_exact_smallEntry :
    EntryMatches (List.replicate 108 0xff#8) smallEntry [0x61#8, 0x2e#8, 0x62#8] := by
  have hpadded : PaddedEntry [0x41#8] [0x42#8] smallEntry :=
    ⟨⟨by decide, by decide, by decide⟩, ⟨by decide, by decide, by decide⟩, by decide⟩
  exact ((name_matching_exact.1 _ _ _ hpadded).2 _ [0x61#8, 0x2e#8, 0x62#8]
    (by simp [maerosMaxPath]) (by decide) (by decide)).mpr (by unfold SameUpToCase; decide)

/-- Clearing the buffer writes to all of its 108 bytes. -/
theorem fullRelativeFilename_clears : PaddedEntry [0x41#8] [0x42#8] smallEntry ∧
    ∃ writes, fat16GetFullRelativeFilenameBytes smallEntry maerosMaxPath = some writes ∧
      ∀ i < maerosMaxPath, i ∈ writes.map Prod.fst := by
  constructor
  · exact ⟨⟨by decide, by decide, by decide⟩, ⟨by decide, by decide, by decide⟩, by decide⟩
  · refine ⟨_, fat16GetFullRelativeFilenameBytes_eq (by decide) (by decide) _, fun i hi => ?_⟩
    rw [List.map_append, map_fst_writesAt, List.length_replicate]
    apply List.mem_append_left
    rw [List.mem_range'_1]
    omega

end Entries

end MaerOS.Analysis
