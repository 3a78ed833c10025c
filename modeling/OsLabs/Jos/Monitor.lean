import OsLabs.Core.Words
import OsLabs.Jos.Printfmt

/-!
# `kern/monitor.c`

`runcmd` splits a line in place: it overwrites the blanks with NULs and keeps
pointers to the words in `argv`.  The handlers find their arguments there, some
of them without looking at `argc`.
-/

namespace OsLabs.Jos

def maxArgs : ℕ := 16

/-- `strchr(WHITESPACE, c)`. -/
def isBlank (c : BitVec 8) : Bool := decide (c ∈ text "\t\r\n ")

/-- The loop over whitespace, from place `pos` of the buffer on; no result where it would leave the
buffer. -/
def gobble (buf : List (BitVec 8)) (pos : ℕ) : Option (List (BitVec 8) × ℕ) :=
  match hread : buf[pos]? with
  | none => none
  | some c => if c ≠ 0 ∧ isBlank c then gobble (buf.set pos 0) (pos + 1) else some (buf, pos)
termination_by buf.length - pos
decreasing_by
  have hlt := (List.getElem?_eq_some_iff.mp hread).1
  rw [List.length_set]
  omega

/-- The loop over a word. -/
def skipWord (buf : List (BitVec 8)) (pos : ℕ) : Option ℕ :=
  match hread : buf[pos]? with
  | none => none
  | some c => if c ≠ 0 ∧ ¬ isBlank c then skipWord buf (pos + 1) else some pos
termination_by buf.length - pos
decreasing_by
  have hlt := (List.getElem?_eq_some_iff.mp hread).1
  omega

/-- `char *argv[MAXARGS]`: places in the buffer, or `none` for a null pointer and where nothing has
been stored. -/
abbrev Argv := Vector (Option ℕ) maxArgs

/-- What the loop of `runcmd` over the words leads to. -/
inductive Split
  | tooMany
  | args (buf : List (BitVec 8)) (argc : ℕ) (argv : Argv)

/-- The loop of `runcmd` over the words; no result where it would write outside `argv`. -/
def splitArgs (buf : List (BitVec 8)) (pos argc : ℕ) (argv : Argv) : Option Split :=
  match gobble buf pos with
  | none => none
  | some (buf, pos) =>
      match buf[pos]? with
      | none => none
      | some c =>
          if c = 0 then
            if h : argc < maxArgs then some (.args buf argc (argv.set argc none h)) else none
          else if argc = maxArgs - 1 then some .tooMany
          else if h : argc < maxArgs then
            match skipWord buf pos with
            | none => none
            | some next => splitArgs buf next (argc + 1) (argv.set argc (some pos) h)
          else none
termination_by maxArgs - argc

/-- `strcmp`, for two texts that contain a NUL. -/
def strcmp : List (BitVec 8) → List (BitVec 8) → Option ℤ
  | p :: ps, q :: qs => if p ≠ 0 ∧ p = q then strcmp ps qs else some (p.toNat - q.toNat)
  | _, _ => none

/-! ## Commands -/

inductive Command
  | monHelp
  | monKerninfo
  | monBacktrace
  | csaBacktrace
  | showmappings
  | setm
  | showvm
  deriving DecidableEq

def commands : List (List (BitVec 8) × Command) :=
  [(text "help", .monHelp), (text "kerninfo", .monKerninfo),
    (text "mon_backtrace", .monBacktrace), (text "csa_backtrace", .csaBacktrace),
    (text "cb", .csaBacktrace), (text "showmappings", .showmappings), (text "sw", .showmappings),
    (text "setm", .setm), (text "showvm", .showvm)]

/-- The loop of `runcmd` over the commands. -/
def findCommand (word : List (BitVec 8)) :
    List (List (BitVec 8) × Command) → Option (Option Command)
  | [] => some none
  | (name, command) :: rest => do
      let order ← strcmp word (name ++ [0])
      if order = 0 then some (some command) else findCommand word rest

/-- What a handler is called with, and what it has read so far: places of `argv`, and bytes of
words, each with the pointer through which it was read. -/
structure Arguments where
  argc : ℕ
  argv : Argv
  buf : List (BitVec 8)
  argvReads : List ℕ
  wordReads : List (ℕ × ℕ)

/-- The character that `xtoi` puts in the place of a letter. -/
def hexChar (c : BitVec 8) : BitVec 8 :=
  if c.slt (BitVec.ofNat 8 'a'.toNat) then c
  else c - BitVec.ofNat 8 'a'.toNat + BitVec.ofNat 8 '0'.toNat + 10

/-- `res*16 + *buf - '0'`. -/
def hexStep (res : Word) (c : BitVec 8) : Word := res * 16 + (hexChar c).signExtend 32 - chr '0'

/-- The loop of `xtoi`: the places it reads, and the number, unless it leaves the buffer. -/
def xtoiLoop (buf : List (BitVec 8)) (place : ℕ) (res : Word) :
    List ℕ × Option (Word × List (BitVec 8)) :=
  match _hread : buf[place]? with
  | none => ([place], none)
  | some c =>
      if c = 0 then ([place], some (res, buf))
      else
        let (places, result) := xtoiLoop (buf.set place (hexChar c)) (place + 1) (hexStep res c)
        (place :: places, result)
termination_by buf.length - place
decreasing_by
  have hlt := (List.getElem?_eq_some_iff.mp _hread).1
  rw [List.length_set]
  omega

/-- `xtoi`, which skips two characters. -/
def xtoi (buf : List (BitVec 8)) (p : ℕ) : List ℕ × Option (Word × List (BitVec 8)) :=
  xtoiLoop buf (p + 2) 0

namespace Arguments

/-- The pointer `argv[i]`. -/
def pointer (args : Arguments) (i : ℕ) : Arguments × Option ℕ :=
  ({ args with argvReads := args.argvReads ++ [i] }, (args.argv[i]?).join)

/-- `xtoi(argv[i])`; no number where `argv[i]` is no place of the buffer. -/
def number (args : Arguments) (i : ℕ) : Arguments × Option Word :=
  match args.pointer i with
  | (args, none) => (args, none)
  | (args, some p) =>
      let (places, result) := xtoi args.buf p
      let args := { args with wordReads := args.wordReads ++ places.map (p, ·) }
      match result with
      | none => (args, none)
      | some (value, buf) => ({ args with buf := buf }, some value)

/-- `argv[i][0]`. -/
def firstChar (args : Arguments) (i : ℕ) : Arguments × Option (BitVec 8) :=
  match args.pointer i with
  | (args, none) => (args, none)
  | (args, some p) => ({ args with wordReads := args.wordReads ++ [(p, p)] }, args.buf[p]?)

end Arguments

/-- What a handler does. -/
inductive Action
  /-- it does not use its arguments -/
  | runs (command : Command)
  | usage (message : String)
  | mappings (first last : Word)
  | setPerm (addr perm : Word) (clear : Bool)
  | memory (addr n : Word)

/-- A handler that asks for two numbers. -/
def twoNumbers (message : String) (act : Word → Word → Action) (args : Arguments) :
    Arguments × Option Action :=
  if args.argc = 1 then (args, some (.usage message))
  else
    match args.number 1 with
    | (args, none) => (args, none)
    | (args, some first) =>
        match args.number 2 with
        | (args, none) => (args, none)
        | (args, some second) => (args, some (act first second))

def showmappings : Arguments → Arguments × Option Action :=
  twoNumbers "Usage: showmappings 0xbegin_addr 0xend_addr\n" .mappings

def showvm : Arguments → Arguments × Option Action :=
  twoNumbers "Usage: showvm 0xaddr 0xn\n" .memory

/-- The permission that a character stands for. -/
def permOf (c : BitVec 8) : Word :=
  if c = BitVec.ofNat 8 'U'.toNat then 4
  else if c = BitVec.ofNat 8 'W'.toNat then 2
  else if c = BitVec.ofNat 8 'P'.toNat then 1
  else 0

/-- `setm`; `walk` tells where `pgdir_walk` finds an entry. -/
def setm (walk : Word → Bool) (args : Arguments) : Arguments × Option Action :=
  if args.argc = 1 then
    (args, some (.usage "Usage: setm 0xaddr [0|1 :clear or set] [P|W|U]\n"))
  else
    match args.number 1 with
    | (args, none) => (args, none)
    | (args, some addr) =>
        -- without an entry, `pprint` reads through a null pointer
        if ¬ walk addr then (args, none)
        else
          match args.firstChar 3 with
          | (args, none) => (args, none)
          | (args, some perm) =>
              match args.firstChar 2 with
              | (args, none) => (args, none)
              | (args, some mode) =>
                  (args, some (.setPerm addr (permOf perm) (mode == BitVec.ofNat 8 '0'.toNat)))

/-- `commands[i].func(argc, argv, tf)`. -/
def Command.func (walk : Word → Bool) : Command → Arguments → Arguments × Option Action
  | .showmappings, args => Jos.showmappings args
  | .setm, args => Jos.setm walk args
  | .showvm, args => Jos.showvm args
  | command, args => (args, some (.runs command))

/-- What `runcmd` does with a line. -/
inductive Outcome
  | tooMany
  | nothing
  | unknown
  /-- a handler is called with `start`, and ends with `final` -/
  | invoked (command : Command) (start final : Arguments) (action : Option Action)

/-- `runcmd`. -/
def runcmd (walk : Word → Bool) (buf : List (BitVec 8)) : Option Outcome :=
  match splitArgs buf 0 0 (Vector.replicate maxArgs none) with
  | none => none
  | some .tooMany => some .tooMany
  | some (.args buf argc argv) =>
      if argc = 0 then some .nothing
      else do
        let p ← (argv[0]?).join
        match ← findCommand (buf.drop p) commands with
        | none => return .unknown
        | some command =>
            let start : Arguments := ⟨argc, argv, buf, [], []⟩
            let (final, action) := command.func walk start
            return .invoked command start final action

end OsLabs.Jos
