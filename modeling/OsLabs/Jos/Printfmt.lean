import OsLabs.Core.CStrings
import OsLabs.Jos.Syscall

/-!
# `lib/printfmt.c`

The formatter of the kernel and of the user programs.  It reads the bytes of
strings through pointers and passes characters to `putch`; a run that reads
what cannot be read, or that never ends, has no result.
-/

namespace OsLabs.Jos

/-- The bytes that the CPU can read. -/
abbrev Memory := Word → Option (BitVec 8)

/-- A `char *`: an address, or a place in a string constant of the program. -/
inductive CharPtr
  | mem (addr : Word)
  | const (text : List (BitVec 8)) (index : ℕ)
  deriving DecidableEq

def CharPtr.next : CharPtr → CharPtr
  | .mem addr => .mem (addr + 1)
  | .const text index => .const text (index + 1)

/-- Byte `index` of a string constant, with the NUL that ends it. -/
def fetch (text : List (BitVec 8)) (index : ℕ) : Option (BitVec 8) :=
  if index = text.length then some 0 else text[index]?

def CharPtr.fetch (memory : Memory) : CharPtr → Option (BitVec 8)
  | .mem addr => memory addr
  | .const text index => Jos.fetch text index

/-- What a run has done so far: the places of the format and of the strings
that it read, the characters it passed to `putch`, each with the colour at that
time, and the colour `csa`. -/
structure Printer where
  fmtReads : List ℕ
  strReads : List CharPtr
  chars : List (Word × Word)
  csa : Word

namespace Printer

def start (csa : Word) : Printer := ⟨[], [], [], csa⟩

def putch (out : Printer) (ch : Word) : Printer := { out with chars := out.chars ++ [(ch, out.csa)] }

/-- The same character `count` times. -/
def putchs (out : Printer) (ch : Word) : ℕ → Printer
  | 0 => out
  | count + 1 => (out.putch ch).putchs ch count

def noteFmt (out : Printer) (index : ℕ) : Printer := { out with fmtReads := out.fmtReads ++ [index] }

def noteStr (out : Printer) (p : CharPtr) : Printer := { out with strReads := out.strReads ++ [p] }

/-- `*p` as an `int`. -/
def readChar (out : Printer) (memory : Memory) (p : CharPtr) : Option (Word × Printer) :=
  (p.fetch memory).map fun byte => (byte.signExtend 32, out.noteStr p)

/-- `*(unsigned char *) fmt` as an `int`. -/
def readFmt (out : Printer) (fmt : List (BitVec 8)) (index : ℕ) : Option (Word × Printer) :=
  (fetch fmt index).map fun byte => (byte.setWidth 32, out.noteFmt index)

end Printer

/-- A character constant. -/
def chr (c : Char) : Word := BitVec.ofNat 32 c.toNat

/-! ## Numbers -/

/-- `"0123456789abcdef"[i]`. -/
def digitChar (i : ℕ) : Word := if i < 10 then BitVec.ofNat 32 (48 + i) else BitVec.ofNat 32 (87 + i)

/-- How often a loop runs that counts the `int` `width` down to zero. -/
def timesAbove (width : Word) : ℕ := width.toInt.toNat

/-- `printnum`, for a base of at least 2. -/
def printnum (out : Printer) (num base : ℕ) (width padc : Word) : Printer :=
  if _h : 2 ≤ base ∧ base ≤ num then
    (printnum out (num / base) base (width - 1) padc).putch (digitChar (num % base))
  else (out.putchs padc (timesAbove (width - 1))).putch (digitChar (num % base))
termination_by num
decreasing_by exact Nat.div_lt_self (by omega) (by omega)

/-- `getuint`: the value and the arguments that are left. -/
def getuint (args : List Word) (lflag : ℕ) : Option (BitVec 64 × List Word) :=
  match args with
  | low :: high :: rest =>
      if 2 ≤ lflag then some (high ++ low, rest) else some (low.setWidth 64, high :: rest)
  | [low] => if 2 ≤ lflag then none else some (low.setWidth 64, [])
  | [] => none

def getint (args : List Word) (lflag : ℕ) : Option (BitVec 64 × List Word) :=
  match args with
  | low :: high :: rest =>
      if 2 ≤ lflag then some (high ++ low, rest) else some (low.signExtend 64, high :: rest)
  | [low] => if 2 ≤ lflag then none else some (low.signExtend 64, [])
  | [] => none

/-! ## Strings -/

/-- `strnlen`, within `fuel` bytes. -/
def strnlen (memory : Memory) : ℕ → CharPtr → Word → Printer → Option (Word × Printer)
  | 0, _, _, _ => none
  | fuel + 1, s, size, out =>
      if size = 0 then some (0, out)
      else do
        let (ch, out) ← out.readChar memory s
        if ch = 0 then return (0, out)
        else
          let (n, out) ← strnlen memory fuel s.next (size - 1) out
          return (n + 1, out)

/-- The test `precision < 0 || --precision >= 0`: the precision after it, if it holds. -/
def countDown (precision : Word) : Option Word :=
  if precision.slt 0 then some precision
  else if (precision - 1).slt 0 then none
  else some (precision - 1)

/-- The loop of `%s` over the characters of the string, within `fuel` bytes;
it leaves the width. -/
def printChars (memory : Memory) (altflag : Bool) :
    ℕ → CharPtr → Word → Word → Printer → Option (Word × Printer)
  | 0, _, _, _, _ => none
  | fuel + 1, p, precision, width, out => do
      let (ch, out) ← out.readChar memory p
      if ch = 0 then return (width, out)
      else
        match countDown precision with
        | none => return (width, out)
        | some precision =>
            let shown := if altflag ∧ (ch.slt (chr ' ') ∨ (chr '~').slt ch) then chr '?' else ch
            printChars memory altflag fuel p.next precision (width - 1) (out.putch shown)

/-- The padding of `%s` before the string; it leaves the width. -/
def padBefore (memory : Memory) (fuel : ℕ) (p : CharPtr) (padc width precision : Word)
    (out : Printer) : Option (Word × Printer) :=
  if (0 : Word).slt width ∧ padc ≠ chr '-' then do
    let (n, out) ← strnlen memory fuel p precision out
    let width := width - n
    return (if (0 : Word).slt width then 0 else width, out.putchs padc (timesAbove width))
  else some (width, out)

/-- The conversion `%s`. -/
def printString (memory : Memory) (fuel : ℕ) (p : CharPtr) (padc width precision : Word)
    (altflag : Bool) (out : Printer) : Option Printer := do
  let (width, out) ← padBefore memory fuel p padc width precision out
  let (width, out) ← printChars memory altflag fuel p precision width out
  return out.putchs (chr ' ') (timesAbove width)

/-! ## Conversions -/

/-- `error_string`. -/
def errorString : ℕ → Option (List (BitVec 8))
  | 1 => some (text "unspecified error")
  | 2 => some (text "bad environment")
  | 3 => some (text "invalid parameter")
  | 4 => some (text "out of memory")
  | 5 => some (text "out of environments")
  | 6 => some (text "segmentation fault")
  | 7 => some (text "env is not recving")
  | 8 => some (text "unexpected end of file")
  | _ => none

def maxError : ℕ := 9

/-- `printfmt(putch, putdat, "%s", message)`. -/
def printMessage (memory : Memory) (fuel : ℕ) (message : List (BitVec 8)) (out : Printer) :
    Option Printer := do
  let out ← printString memory fuel (.const message 0) (chr ' ') (-1) (-1) false out
  return { out with csa := 0x0700 }

/-- The flags and numbers of a conversion, as far as they have been read. -/
structure Spec where
  padc : Word
  width : Word
  precision : Word
  lflag : ℕ
  altflag : Bool

def Spec.start : Spec := ⟨chr ' ', -1, -1, 0, false⟩

/-- `process_precision`. -/
def Spec.processPrecision (spec : Spec) : Spec :=
  if spec.width.slt 0 then { spec with width := spec.precision, precision := -1 } else spec

def isDigit (ch : Word) : Bool := ¬ ch.slt (chr '0') ∧ ¬ (chr '9').slt ch

/-- The digits of a width or precision: the number, and the place after them. -/
def readNumber (fmt : List (BitVec 8)) : ℕ → ℕ → Word → Word → Printer →
    Option (Word × ℕ × Printer)
  | 0, _, _, _, _ => none
  | fuel + 1, index, precision, ch, out => do
      let precision := precision * 10 + ch - chr '0'
      let (ch, out) ← out.readFmt fmt index
      if isDigit ch then readNumber fmt fuel (index + 1) precision ch out
      else return (precision, index, out)

/-- The way back to the `%` of an unknown conversion. -/
def backToPercent (fmt : List (BitVec 8)) : ℕ → Printer → Option (ℕ × Printer)
  | 0, _ => none
  | index + 1, out => do
      let (ch, out) ← out.readFmt fmt index
      if ch = chr '%' then return (index + 1, out) else backToPercent fmt index out

/-- What a conversion character leads to. -/
inductive Step
  /-- go on with the conversion -/
  | reswitch (spec : Spec) (index : ℕ) (args : List Word) (out : Printer)
  /-- the conversion is done -/
  | done (index : ℕ) (args : List Word) (out : Printer)

/-- A number and its padding. -/
def printNumber (spec : Spec) (out : Printer) (num : BitVec 64) (base : ℕ) : Printer :=
  printnum out num.toNat base spec.width spec.padc

/-- The conversion character `ch`, with the next one at `index`; `nested` runs `printfmt`. -/
def convert (memory : Memory) (nested : List (BitVec 8) → List Word → Printer → Option Printer)
    (fmt : List (BitVec 8)) (fuel index : ℕ) (ch : Word) (spec : Spec) (args : List Word)
    (out : Printer) : Option Step :=
  if ch = chr '-' then some (.reswitch { spec with padc := chr '-' } index args out)
  else if ch = chr '0' then some (.reswitch { spec with padc := chr '0' } index args out)
  else if isDigit ch then do
    let (precision, index, out) ← readNumber fmt fuel index 0 ch out
    return .reswitch { spec with precision := precision }.processPrecision index args out
  else if ch = chr '*' then
    match args with
    | [] => none
    | arg :: args => some (.reswitch { spec with precision := arg }.processPrecision index args out)
  else if ch = chr '.' then
    some (.reswitch (if spec.width.slt 0 then { spec with width := 0 } else spec) index args out)
  else if ch = chr '#' then some (.reswitch { spec with altflag := true } index args out)
  else if ch = chr 'l' then
    some (.reswitch { spec with lflag := spec.lflag + 1 } index args out)
  else if ch = chr 'c' then
    match args with
    | [] => none
    | arg :: args => some (.done index args (out.putch arg))
  else if ch = chr 'e' then
    match args with
    | [] => none
    | arg :: args => do
        let err := if arg.slt 0 then -arg else arg
        -- the least `int` is its own negation, and no index of `error_string`
        if err.slt 0 then none
        else
          let printed ← match (if err.toNat < maxError then errorString err.toNat else none) with
            | none => nested (text "error %d") [err] out
            | some message => printMessage memory fuel message out
          return .done index args { printed with fmtReads := out.fmtReads }
  else if ch = chr 's' then
    match args with
    | [] => none
    | arg :: args => do
        let p := if arg = 0 then CharPtr.const (text "(null)") 0 else .mem arg
        let out ← printString memory fuel p spec.padc spec.width spec.precision spec.altflag out
        return .done index args out
  else if ch = chr 'd' then do
    let (num, args) ← getint args spec.lflag
    if num.slt 0 then return .done index args (printNumber spec (out.putch (chr '-')) (-num) 10)
    else return .done index args (printNumber spec out num 10)
  else if ch = chr 'u' then do
    let (num, args) ← getuint args spec.lflag
    return .done index args (printNumber spec out num 10)
  else if ch = chr 'o' then do
    let (num, args) ← getuint args spec.lflag
    return .done index args (printNumber spec out num 8)
  else if ch = chr 'p' then
    match args with
    | [] => none
    | arg :: args =>
        some (.done index args
          (printNumber spec ((out.putch (chr '0')).putch (chr 'x')) (arg.setWidth 64) 16))
  else if ch = chr 'x' then do
    let (num, args) ← getuint args spec.lflag
    return .done index args (printNumber spec out num 16)
  else if ch = chr '%' then some (.done index args (out.putch ch))
  else if ch = chr 'm' then do
    let (num, args) ← getint args spec.lflag
    return .done index args { out with csa := num.setWidth 32 }
  else do
    let (index, out) ← backToPercent fmt (index - 1) (out.putch (chr '%'))
    return .done index args out

/-- A conversion from its first flag on, within `fuel` characters. -/
def conversion (memory : Memory)
    (nested : List (BitVec 8) → List Word → Printer → Option Printer) (fmt : List (BitVec 8)) :
    ℕ → ℕ → Spec → List Word → Printer → Option (ℕ × List Word × Printer)
  | 0, _, _, _, _ => none
  | fuel + 1, index, spec, args, out => do
      let (ch, out) ← out.readFmt fmt index
      match ← convert memory nested fmt fuel (index + 1) ch spec args out with
      | .reswitch spec index args out => conversion memory nested fmt fuel index spec args out
      | .done index args out => return (index, args, out)

/-- `vprintfmt` from place `index` of the format on, within `fuel` rounds. -/
def vprintfmt (memory : Memory) : ℕ → List (BitVec 8) → ℕ → List Word → Printer → Option Printer
  | 0, _, _, _, _ => none
  | fuel + 1, fmt, index, args, out => do
      let (ch, out) ← out.readFmt fmt index
      if ch = 0 then return { out with csa := 0x0700 }
      else if ch ≠ chr '%' then vprintfmt memory fuel fmt (index + 1) args (out.putch ch)
      else
        let (index, args, out) ←
          conversion memory (fun fmt args out => vprintfmt memory fuel fmt 0 args out) fmt fuel
            (index + 1) Spec.start args out
        vprintfmt memory fuel fmt index args out

end OsLabs.Jos
