import MaerOS.Model.Heap
import MaerOS.Lib.Prog

/-!
# Strings and the path parser: `string.c` and `pparser.c`

A NUL-terminated string is the list of its bytes; behind the end of the list the code
reads the terminator, and a zero byte in the list ends the string as well.

The file layer touches memory through its own records only. A record is a value that
carries the address `kzalloc` gave it, so that freeing it is freeing that address, and
the state is the kernel heap. Writing through a null pointer has no outcome.
-/

set_option autoImplicit false

namespace MaerOS.Model

open MaerOS.Lib

/-! ## `string.c` -/

/-- The byte at the front of a string. -/
def firstChar (s : List (BitVec 8)) : BitVec 8 := s.headD 0x00#8

/-- `tolower`; `char` is signed, so bytes from 128 on stay as they are. `string.c:3-11` -/
def tolower (c : BitVec 8) : BitVec 8 := if 65 ≤ c.toNat ∧ c.toNat ≤ 90 then c + 32#8 else c

/-- `strlen`. `string.c:13-23` -/
def strlen (s : List (BitVec 8)) : ℕ := (s.takeWhile fun c => c != 0x00#8).length

/-- `strnlen`. `string.c:25-35` -/
def strnlen (s : List (BitVec 8)) (max : ℕ) : ℕ := strlen (s.take max)

/-- `istrncmp`. `string.c:49-63` -/
def istrncmp : (s1 s2 : List (BitVec 8)) → (n : ℕ) → ℤ
  | _, _, 0 => 0
  | s1, s2, n + 1 =>
    let u1 := firstChar s1
    let u2 := firstChar s2
    if u1 ≠ u2 ∧ tolower u1 ≠ tolower u2 then (u1.toNat : ℤ) - u2.toNat
    else if u1 = 0x00#8 then 0
    else istrncmp s1.tail s2.tail n

/-- `isdigit`. `string.c:112-115` -/
def isdigit (c : BitVec 8) : Bool := decide (48 ≤ c.toNat ∧ c.toNat ≤ 57)

/-- `tonumericdigit`. `string.c:116-119` -/
def tonumericdigit (c : BitVec 8) : ℤ := (c.toNat : ℤ) - 48

/-! ## The heap as the state of the file layer -/

/-- Code of the file layer that allocates and frees. -/
abbrev HeapM := StateT Heap Option

/-- `kzalloc` for the file layer. -/
def allocRecord (size : BitVec 32) : HeapM Addr := fun heap => heap.kzalloc size

/-- `kfree` for the file layer. -/
def freeRecord (ptr : Addr) : HeapM Unit := fun heap => some ((), heapFree heap ptr)

/-- A write through a pointer: no outcome when it is null. -/
def writeRecord (ptr : Addr) : HeapM Unit := if ptr = 0#32 then failure else pure ()

/-- A computation on the disk that may have no outcome. -/
def offDisk {α : Type} (value : Option α) : HeapM α := fun heap => value.map fun a => (a, heap)

/-! ## `pparser.c` -/

/-- `struct path_part` without its link: the record, the string it points to, its text. -/
structure PathPart where
  addr : Addr
  part : Addr
  text : List (BitVec 8)

/-- `struct path_root` with the list that starts at `first`. `pparser.h:6-17` -/
structure PathRoot where
  addr : Addr
  drive_no : ℤ
  first : List PathPart

/-- `sizeof(struct path_root)`. -/
def sizeofPathRoot : BitVec 32 := 8#32

/-- `sizeof(struct path_part)`. -/
def sizeofPathPart : BitVec 32 := 8#32

/-- `pathparser_path_valid_format`: a digit, `:`, `/`. `pparser.c:15-21` -/
def pathparserPathValidFormat (filename : List (BitVec 8)) : Bool :=
  decide (3 ≤ strnlen filename maerosMaxPath) && isdigit (firstChar filename) &&
    ((filename.drop 1).take 2 == [0x3a#8, 0x2f#8])

/-- `pathparser_get_drive_by_path`: the drive, or an error, and the path behind it.
`pparser.c:23-35` -/
def pathparserGetDriveByPath (path : List (BitVec 8)) : ℤ × List (BitVec 8) :=
  if pathparserPathValidFormat path then (tonumericdigit (firstChar path), path.drop 3)
  else (-ebadpath, path)

/-- `pathparser_create_root`, before any part is known. `pparser.c:37-43` -/
def pathparserCreateRoot : HeapM Addr := do
  let path_r ← allocRecord sizeofPathRoot
  writeRecord path_r
  pure path_r

/-- The copying loop of `pathparser_get_path_part`, byte for byte: how far it came, what is in the
buffer, and the path behind. A store behind the end of the buffer has no outcome.
`pparser.c:49-55` -/
def pathparserCopyPart : (path : List (BitVec 8)) → (i : ℕ) →
    (result_path_part : List (BitVec 8)) → Option (ℕ × List (BitVec 8) × List (BitVec 8))
  | [], i, result_path_part => some (i, result_path_part, [])
  | c :: path, i, result_path_part =>
    if c = 0x2f#8 ∨ c = 0x00#8 then some (i, result_path_part, c :: path)
    else if i < result_path_part.length then
      pathparserCopyPart path (i + 1) (result_path_part.set i c)
    else none

/-- `pathparser_get_path_part`: the string with the text in it, if it is not empty, and the path
behind it. `pparser.c:46-70` -/
def pathparserGetPathPart (path : List (BitVec 8)) :
    HeapM (Option (Addr × List (BitVec 8)) × List (BitVec 8)) := do
  let result_path_part ← allocRecord (BitVec.ofNat 32 maerosMaxPath)
  let text := path.takeWhile fun c => c != 0x2f#8 && c != 0x00#8
  let rest := path.drop text.length
  let rest := if firstChar rest = 0x2f#8 then rest.tail else rest
  if text = [] then do
    freeRecord result_path_part
    pure (none, rest)
  else do
    writeRecord result_path_part
    pure (some (result_path_part, text), rest)

/-- `pathparser_parse_path_part`. `pparser.c:72-91` -/
def pathparserParsePathPart (path : List (BitVec 8)) :
    HeapM (Option PathPart × List (BitVec 8)) := do
  let (path_part_str, rest) ← pathparserGetPathPart path
  match path_part_str with
  | none => pure (none, rest)
  | some (str, text) => do
    let part ← allocRecord sizeofPathPart
    writeRecord part
    pure (some ⟨part, str, text⟩, rest)

/-- The parts of a path, one after the other until there is none. Every part takes a character,
so the length of the path bounds their number. `pparser.c:131-140` -/
def pathparserParseParts : (fuel : ℕ) → (path : List (BitVec 8)) → HeapM (List PathPart)
  | 0, _ => failure
  | fuel + 1, path => do
    let (part, rest) ← pathparserParsePathPart path
    match part with
    | none => pure []
    | some part => do
      let parts ← pathparserParseParts fuel rest
      pure (part :: parts)

/-- `pathparser_parse`; the null pointer for a path that is too long or has no drive.
`pparser.c:107-144` -/
def pathparserParse (path : List (BitVec 8)) : HeapM (Option PathRoot) := do
  if strlen path > maerosMaxPath then pure none
  else
    let (res, tmp_path) := pathparserGetDriveByPath path
    if res < 0 then pure none
    else do
      let path_root ← pathparserCreateRoot
      let parts ← pathparserParseParts (tmp_path.length + 1) tmp_path
      pure (some ⟨path_root, res, parts⟩)

end MaerOS.Model
