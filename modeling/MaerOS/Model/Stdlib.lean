import MaerOS.Lib.Memory
import MaerOS.Model.Config

/-!
# The library of user programs: reading a line, and `printf`

`peachos_terminal_readline` of `peachos.c`, `printf` of `stdio.c` and `itoa` of
`stdlib.c`. Arrays are functions of an index that may be any `int`, and `written`
and `reads` record the indices a function stores to and reads from; no function
reads these two. What is handed to the system calls `print` and `putchar` is kept
in the order in which it is handed over.
-/

set_option autoImplicit false

namespace MaerOS.Model

open MaerOS.Lib

/-! ## `peachos.c` -/

/-- `peachos_getkeyblock`, where `vals` are the values that `peachos_getkey` returns, one call after
the other: the first one that is not zero. `peachos.c:51-60` -/
def peachosGetkeyblock : (vals : List (BitVec 8)) → Option (BitVec 8 × List (BitVec 8))
  | [] => none
  | val :: vals => if val = 0#8 then peachosGetkeyblock vals else some (val, vals)

/-- The array `out` of `peachos_terminal_readline`, and what was echoed. -/
structure Readline where
  out : ℤ → BitVec 8
  written : List ℤ
  echoed : List (BitVec 8)

/-- `out[i] = c`. -/
def Readline.store (s : Readline) (i : ℤ) (c : BitVec 8) : Readline :=
  { s with out := Function.update s.out i c, written := i :: s.written }

/-- `maeros_putchar(key)`. -/
def Readline.putchar (s : Readline) (key : BitVec 8) : Readline :=
  { s with echoed := s.echoed ++ [key] }

/-- The loop of `peachos_terminal_readline`, `n` rounds from index `i`, and the terminator. It has
not returned when there is no further key. -/
def readlineLoop (max : ℤ) (output_while_typing : Bool) :
    (n : ℕ) → (i : ℤ) → (vals : List (BitVec 8)) → Readline → Bool × Readline
  | 0, _, _, s => (false, s)
  | n + 1, i, vals, s =>
    if i < max - 1 then
      match peachosGetkeyblock vals with
      | none => (false, s)
      | some (key, vals) =>
        if key = 13#8 then (true, s.store i 0#8)
        else
          let s := if output_while_typing then s.putchar key else s
          if key = 0x08#8 ∧ i ≥ 1 then
            readlineLoop max output_while_typing n (i - 2 + 1) vals (s.store (i - 1) 0#8)
          else readlineLoop max output_while_typing n (i + 1) vals (s.store i key)
    else (true, s.store i 0#8)

/-- `peachos_terminal_readline`: whether it has returned, and what it has done. A round takes at
least one value. `peachos.c:62-94` -/
def peachosTerminalReadline (out : ℤ → BitVec 8) (max : ℤ) (output_while_typing : Bool)
    (vals : List (BitVec 8)) : Bool × Readline :=
  readlineLoop max output_while_typing (vals.length + 1) 0 vals ⟨out, [], []⟩

/-! ## `stdlib.c` -/

/-- The value of an `int` expression; there is none if it overflows. -/
def intValue (x : ℤ) : Option ℤ := if -2 ^ 31 ≤ x ∧ x < 2 ^ 31 then some x else none

/-- The array `text` of `itoa` and the index `loc`. -/
structure Itoa where
  text : ℤ → BitVec 8
  loc : ℤ
  written : List ℤ

/-- `text[--loc] = c`. -/
def Itoa.push (s : Itoa) (c : BitVec 8) : Itoa :=
  { text := Function.update s.text (s.loc - 1) c, loc := s.loc - 1, written := (s.loc - 1) :: s.written }

/-- The loop of `itoa`, `n` rounds. -/
def itoaLoop : (n : ℕ) → (i : ℤ) → Itoa → Option Itoa
  | 0, _, _ => none
  | n + 1, i, s =>
    if i = 0 then some s
    else do
      let digit ← intValue (0x30 - i.tmod 10)
      itoaLoop n (i.tdiv 10) (s.push (BitVec.ofInt 8 digit))

/-- `itoa`, with what is in its static array; the index of the string it returns is `loc`. An `int`
has no more than 31 digits. `programs/stdlib/src/stdlib.c:4-29` -/
def itoa (text : ℤ → BitVec 8) (i : BitVec 32) : Option Itoa := do
  let s : Itoa := { text := Function.update text 11 0#8, loc := 11, written := [11] }
  let neg := decide (i.toInt < 0)
  let i ← (if i.toInt ≥ 0 then intValue (-i.toInt) else some i.toInt)
  let s ← itoaLoop 32 i s
  let s := if s.loc = 11 then s.push 0x30#8 else s
  some (if neg then s.push 0x2d#8 else s)

/-- `text[--loc] = c`, where the index is that of a byte of the array. -/
def Itoa.pushChecked (s : Itoa) (c : BitVec 8) : Option Itoa :=
  if 0 ≤ s.loc - 1 ∧ s.loc - 1 < 12 then some (s.push c) else none

/-- The loop of `itoa` with every operation and every index checked. -/
def itoaLoopChecked : (n : ℕ) → (i : ℤ) → Itoa → Option Itoa
  | 0, _, _ => none
  | n + 1, i, s =>
    if i = 0 then some s
    else do
      let rest ← intValue (i.tmod 10)
      let digit ← intValue (0x30 - rest)
      let s ← s.pushChecked (BitVec.ofInt 8 digit)
      let i ← intValue (i.tdiv 10)
      itoaLoopChecked n i s

/-- `itoa` with every operation and every index checked: an outcome says that none of them was
undefined behaviour. -/
def itoaChecked (text : ℤ → BitVec 8) (i : BitVec 32) : Option Itoa := do
  let s : Itoa := { text := Function.update text 11 0#8, loc := 11, written := [11] }
  let neg := decide (i.toInt < 0)
  let i ← (if i.toInt ≥ 0 then intValue (-i.toInt) else some i.toInt)
  let s ← itoaLoopChecked 32 i s
  let s ← (if s.loc = 11 then s.pushChecked 0x30#8 else some s)
  if neg then s.pushChecked 0x2d#8 else some s

/-- The string in `text` from `loc` on. -/
def Itoa.string (s : Itoa) : List (BitVec 8) :=
  ((List.range 12).map fun k : ℕ => s.text (s.loc + k)).takeWhile (· ≠ 0#8)

/-! ## `stdio.c` -/

/-- An argument behind the format: an `int`, or a string by its characters before the terminator. -/
inductive PrintfArg where
  | int (ival : BitVec 32)
  | str (sval : List (BitVec 8))
  deriving DecidableEq

/-- What `printf` has handed to the system calls, the indices of the format it has read, and the
static array of `itoa`. -/
structure Printf where
  out : List (BitVec 8)
  reads : List ℕ
  text : ℤ → BitVec 8

/-- `putchar(c)` and `print(str)`. -/
def Printf.emit (s : Printf) (str : List (BitVec 8)) : Printf := { s with out := s.out ++ str }

/-- `fmt[p]` is read. -/
def Printf.read (s : Printf) (p : ℕ) : Printf := { s with reads := p :: s.reads }

/-- The loop of `printf`, `n` rounds from the character `p` of the format. There is no outcome where
`va_arg` finds no argument of its type. -/
def printfLoop (m : Memory) (fmt : Addr) :
    (n : ℕ) → (p : ℕ) → (ap : List PrintfArg) → Printf → Option Printf
  | 0, _, _, _ => none
  | n + 1, p, ap, s =>
    let c := m (fmt + BitVec.ofNat 32 p)
    let s := s.read p
    if c = 0#8 then some s
    else if c ≠ 0x25#8 then printfLoop m fmt n (p + 1) ap (s.emit [c])
    else
      let p := p + 1
      let c := m (fmt + BitVec.ofNat 32 p)
      let s := s.read p
      if c = 0x69#8 then
        match ap with
        | .int ival :: ap =>
          match itoa s.text ival with
          | none => none
          | some t => printfLoop m fmt n (p + 1) ap { s.emit t.string with text := t.text }
        | _ => none
      else if c = 0x73#8 then
        match ap with
        | .str sval :: ap => printfLoop m fmt n (p + 1) ap (s.emit sval)
        | _ => none
      else printfLoop m fmt n (p + 1) ap (s.emit [c])

/-- `printf`. A scan that does not end goes through the whole address space.
`programs/stdlib/src/stdio.c:13-50` -/
def printf (m : Memory) (text : ℤ → BitVec 8) (fmt : Addr) (ap : List PrintfArg) : Option Printf :=
  printfLoop m fmt (2 ^ 32) 0 ap ⟨[], [], text⟩

end MaerOS.Model
