import OsLabs.Shell.Merge

/-!
# `main` of the shell

A line is merged, split at `|` into an array of two and each part at blanks into
an array of sixteen; then it is obeyed by `main` itself, or by `execute` in one
child or in two.
-/

namespace OsLabs.Shell

open OsLabs.Words

abbrev shor : ℕ := 16

def bar : BitVec 8 := BitVec.ofNat 8 '|'.toNat

/-- The variables of `main` that `splitCommand` fills. -/
structure Parsed where
  t : Strtok
  cmds : Vector (Option ℕ) shor
  cmds2 : Vector (Option ℕ) shor
  isPipe : Bool

theorem firstPart_lt : 0 < 2 := by decide

theorem secondPart_lt : 1 < 2 := by decide

/-- `main` from the parts of a line to `fatherCommand`. -/
def parseParts (t : Strtok) (pipiStr : Vector (Option ℕ) 2) : Option Parsed := do
  let (t, cmds, _) ← splitCommand (pipiStr.get ⟨0, firstPart_lt⟩) [blank] t (Vector.replicate shor none)
  match pipiStr.get ⟨1, secondPart_lt⟩ with
  | none => some ⟨t, cmds, Vector.replicate shor none, false⟩
  | some second =>
      let (t, cmds2, _) ← splitCommand (some second) [blank] t (Vector.replicate shor none)
      some ⟨t, cmds, cmds2, true⟩

/-- `main` from `merge` on; no result where it stores outside an array or goes through a null
pointer. -/
def parse (t : Strtok) : Option Parsed := do
  let str ← merge t.buf
  let (t, pipiStr, _) ← splitCommand (some 0) [bar] { t with buf := str } (Vector.replicate 2 none)
  parseParts t pipiStr

inductive Builtin
  | exit
  | cd (dir : Option ℕ)
  | pwd

/-- `strcmp(p, name) == 0`; no result for a null pointer. -/
def equals (buf : List (BitVec 8)) (p : Option ℕ) (name : String) : Option Bool :=
  p.map fun p => cString (buf.drop p) = text name

/-- `fatherCommand`: what it has done itself, or `none` for its result 0. -/
def fatherCommand (buf : List (BitVec 8)) (cmds : Vector (Option ℕ) shor) :
    Option (Option Builtin) := do
  if ← equals buf cmds[0] "exit" then some (some .exit)
  else if ← equals buf cmds[0] "cd" then some (some (.cd cmds[1]))
  else if ← equals buf cmds[0] "pwd" then some (some .pwd)
  else some none

/-- The pointers up to the null pointer that ends an argument vector; no result without one. -/
def argVector : List (Option ℕ) → Option (List ℕ)
  | [] => none
  | none :: _ => some []
  | some p :: rest => (argVector rest).map (p :: ·)

/-- What `execv` is called with. -/
structure Exec where
  path : List (BitVec 8)
  args : List (List (BitVec 8))

/-- `execute`; no result where `strcat` takes a null pointer or leaves `path`, and none where the
argument vector has no end. -/
def execute (buf : List (BitVec 8)) (cmds : Vector (Option ℕ) shor) : Option Exec := do
  let name ← cmds[0]
  let path := text "/bin/" ++ cString (buf.drop name)
  if path.length < 64 then
    let args ← argVector cmds.toList
    some ⟨path, args.map fun p => cString (buf.drop p)⟩
  else none

/-- One line obeyed. -/
inductive Turn
  | builtin (builtin : Builtin)
  | run (exec : Exec)
  | pipe (first second : Exec)

/-- The body of the loop of `main`, behind `gets`. -/
def turn (t : Strtok) : Option Turn := do
  let parsed ← parse t
  match ← fatherCommand parsed.t.buf parsed.cmds with
  | some builtin => some (.builtin builtin)
  | none =>
      if parsed.isPipe then
        let first ← execute parsed.t.buf parsed.cmds
        let second ← execute parsed.t.buf parsed.cmds2
        some (.pipe first second)
      else
        let exec ← execute parsed.t.buf parsed.cmds
        some (.run exec)

/-! ## What is right -/

/-- The words of a text, between blanks. -/
def textWords (line : List (BitVec 8)) : List (List (BitVec 8)) := wordsBy [blank] line

/-- The text in front of the first `|`. -/
def beforeBar (line : List (BitVec 8)) : List (BitVec 8) := line.takeWhile (· ≠ bar)

/-- The text behind it. -/
def afterBar (line : List (BitVec 8)) : List (BitVec 8) := (line.dropWhile (· ≠ bar)).tail

/-- The vectors that are passed on list the words in front of the `|` and behind it. -/
def Turn.Lists (line : List (BitVec 8)) : Turn → Prop
  | .builtin _ => True
  | .run exec => exec.args = textWords (beforeBar line) ∧ textWords (afterBar line) = []
  | .pipe first second =>
      first.args = textWords (beforeBar line) ∧ second.args = textWords (afterBar line)

/-- The line has been obeyed within the arrays and without null pointers, and the vectors list its
words unless it has several `|`. -/
def Obeyed (line : List (BitVec 8)) (result : Option Turn) : Prop :=
  ∃ turn, result = some turn ∧ (line.count bar ≤ 1 → turn.Lists line)

/-- The parts of a line between `|`. -/
def parts (line : List (BitVec 8)) : List (List (BitVec 8)) := wordsBy [bar] line

/-- The words of a part make up an argument vector: there is one at least, a null pointer fits
behind them, and the path of the first fits in its buffer. -/
def FitsExec (words : List (List (BitVec 8))) : Prop :=
  ∃ name rest, words = name :: rest ∧ words.length < shor ∧ name.length < 59

/-- The lines that are obeyed. -/
def FitsLine (line : List (BitVec 8)) : Prop :=
  (parts line).length ≤ 2 ∧ (∀ part ∈ parts line, (textWords part).length ≤ shor) ∧
    ∃ first rest name args, parts line = first :: rest ∧ textWords first = name :: args ∧
      (name ∈ [text "exit", text "cd", text "pwd"] ∨
        (∀ part ∈ parts line, FitsExec (textWords part)) ∧
          ¬ (line.count bar = 1 ∧ line.head? = some bar))

/-! ## Argument vectors -/

section Vectors

variable {buf : List (BitVec 8)} {cmds : Vector (Option ℕ) shor} {places : List ℕ}
variable {words : List (List (BitVec 8))}

/-- An array with the places of words, and null pointers behind them. -/
structure CmdsHold (buf : List (BitVec 8)) (cmds : Vector (Option ℕ) shor)
    (words : List (List (BitVec 8))) : Prop where
  room : words.length ≤ shor
  places : ∃ places start, Placed buf start words places ∧
    cmds.toList = places.map some ++ List.replicate (shor - words.length) none

theorem argVector_places (places : List ℕ) (count : ℕ) :
    argVector (places.map some ++ List.replicate count none) =
      if count = 0 then none else some places := by
  induction places with
  | nil =>
    cases count with
    | zero => rfl
    | succ count => rfl
  | cons p places ih =>
    rw [List.map_cons, List.cons_append, argVector, ih]
    split <;> rfl

/-- The first pointer of the array. -/
theorem CmdsHold.head (hholds : CmdsHold buf cmds words) :
    (words = [] ∧ cmds[0] = none) ∨
      ∃ name rest p, words = name :: rest ∧ cmds[0] = some p ∧ cString (buf.drop p) = name := by
  obtain ⟨places, start, hplaced, hcmds⟩ := hholds.places
  have hread : cmds.toList[0]? = some cmds[0] := by simp
  cases words with
  | nil =>
    left
    have hnil : places = [] := List.eq_nil_of_length_eq_zero hplaced.length_eq
    rw [hcmds, hnil] at hread
    exact ⟨rfl, (Option.some.inj hread).symm⟩
  | cons name rest =>
    right
    cases places with
    | nil => exact hplaced.elim
    | cons p places =>
      rw [hcmds] at hread
      exact ⟨name, rest, p, rfl, (Option.some.inj hread).symm, hplaced.2.1.cString_eq⟩

/-- `execute` runs a vector that fits, and no other. -/
theorem execute_iff (hholds : CmdsHold buf cmds words) :
    (∀ exec, execute buf cmds = some exec → exec.args = words) ∧
      ((execute buf cmds).isSome ↔ FitsExec words) := by
  obtain ⟨hnil, hread⟩ | ⟨name, rest, p, hwords, hread, hname⟩ := hholds.head
  · have hnone : execute buf cmds = none := by rw [execute, hread]; rfl
    rw [hnone]
    exact ⟨nofun, iff_of_false nofun fun ⟨_, _, hcons, _⟩ => nomatch hnil.symm.trans hcons⟩
  · obtain ⟨places, start, hplaced, hcmds⟩ := hholds.places
    have hroom := hholds.room
    have hpath : (text "/bin/" ++ name).length < 64 ↔ name.length < 59 := by
      rw [List.length_append, show (text "/bin/").length = 5 from rfl]
      omega
    have hvector : argVector cmds.toList = if words.length < shor then some places else none := by
      rw [hcmds, argVector_places]
      exact (ite_congr (propext (by omega)) (fun _ => rfl) fun _ => rfl).trans (ite_not _ _ _)
    have hfits : FitsExec words ↔ words.length < shor ∧ name.length < 59 := by
      constructor
      · rintro ⟨name', rest', hcons, hlt, hshort⟩
        obtain ⟨rfl, -⟩ := List.cons.inj (hwords.symm.trans hcons)
        exact ⟨hlt, hshort⟩
      · exact fun ⟨hlt, hshort⟩ => ⟨name, rest, hwords, hlt, hshort⟩
    have hrun : execute buf cmds =
        if words.length < shor ∧ name.length < 59 then some ⟨text "/bin/" ++ name, words⟩
        else none := by
      rw [execute, hread]
      dsimp only [Option.bind_eq_bind, Option.bind_some]
      rw [hname, hvector]
      by_cases hshort : name.length < 59
      · rw [if_pos (hpath.mpr hshort)]
        by_cases hlt : words.length < shor
        · rw [if_pos hlt, if_pos ⟨hlt, hshort⟩, Option.bind_some, hplaced.map_cString]
        · rw [if_neg hlt, if_neg fun h => hlt h.1, Option.bind_none]
      · rw [if_neg (hpath.not.mpr hshort), if_neg fun h => hshort h.2]
    rw [hrun, hfits]
    split
    · exact ⟨fun exec hexec => (Option.some.inj hexec) ▸ rfl, iff_of_true rfl ‹_›⟩
    · exact ⟨nofun, iff_of_false nofun ‹_›⟩

/-- What `fatherCommand` makes of the first word. -/
theorem fatherCommand_name {name : List (BitVec 8)} {p : ℕ} (hread : cmds[0] = some p)
    (hname : cString (buf.drop p) = name) :
    ∃ result, fatherCommand buf cmds = some result ∧
      (result = none ↔ name ∉ [text "exit", text "cd", text "pwd"]) := by
  have hequals (other : String) : equals buf cmds[0] other = some (decide (name = text other)) := by
    rw [equals, hread, Option.map_some, hname]
  rw [fatherCommand, hequals, hequals, hequals]
  simp only [Option.bind_eq_bind, Option.bind_some, List.mem_cons, List.not_mem_nil, or_false,
    not_or, decide_eq_true_eq]
  by_cases hexit : name = text "exit"
  · rw [if_pos hexit]
    exact ⟨_, rfl, iff_of_false nofun fun h => h.1 hexit⟩
  rw [if_neg hexit]
  by_cases hcd : name = text "cd"
  · rw [if_pos hcd]
    exact ⟨_, rfl, iff_of_false nofun fun h => h.2.1 hcd⟩
  rw [if_neg hcd]
  by_cases hpwd : name = text "pwd"
  · rw [if_pos hpwd]
    exact ⟨_, rfl, iff_of_false nofun fun h => h.2.2 hpwd⟩
  rw [if_neg hpwd]
  exact ⟨_, rfl, iff_of_true rfl ⟨hexit, hcd, hpwd⟩⟩

end Vectors

/-! ## Splitting the parts -/

section Parsing

variable {buf line before part tail : List (BitVec 8)}

theorem parts_ne_nil {part : List (BitVec 8)} (hpart : part ∈ parts line) : part ≠ [] := by
  have hkept := (List.mem_filter.mp hpart).2
  simpa using hkept

/-- A string at its place, as a part of the buffer. -/
theorem exists_before {p : ℕ} (hword : WordAt buf p part) :
    ∃ before tail, buf = before ++ (part ++ 0 :: tail) ∧ before.length = p := by
  obtain ⟨-, tail, hdrop⟩ := hword
  refine ⟨buf.take p, tail, ?_, ?_⟩
  · rw [← hdrop, List.take_append_drop]
  · rw [List.length_take, Nat.min_eq_left]
    by_contra hlong
    rw [List.drop_eq_nil_of_le (by omega)] at hdrop
    exact absurd hdrop.symm (List.append_ne_nil_of_right_ne_nil part (List.cons_ne_nil _ _))

/-- Two strings, the second behind the NUL of the first. -/
theorem exists_between {p q : ℕ} {second : List (BitVec 8)} (hne : second ≠ [])
    (hplaced : Placed buf 0 [part, second] [p, q]) :
    ∃ before mid tail, buf = before ++ (part ++ 0 :: (mid ++ (second ++ 0 :: tail))) ∧
      before.length = p ∧ (before ++ (part ++ 0 :: mid)).length = q := by
  obtain ⟨-, hfirst, hle, hsecond, -⟩ := hplaced
  obtain ⟨before, behind, rfl, rfl⟩ := exists_before hfirst
  obtain ⟨hnul, tail, hdrop⟩ := hsecond
  obtain ⟨k, rfl⟩ : ∃ k, q = (before ++ part).length + k :=
    ⟨q - (before ++ part).length, by rw [List.length_append]; omega⟩
  rw [← List.append_assoc, List.drop_length_add_append] at hdrop
  cases k with
  | zero =>
    -- the second string would begin with the NUL of the first
    obtain ⟨c, second, rfl⟩ := List.exists_cons_of_ne_nil hne
    exact absurd (List.cons.inj hdrop).1 fun h => hnul (h ▸ List.mem_cons_self)
  | succ k =>
    rw [List.drop_succ_cons] at hdrop
    have hk : k ≤ behind.length := by
      by_contra hlong
      rw [List.drop_eq_nil_of_le (by omega)] at hdrop
      exact absurd hdrop.symm (List.append_ne_nil_of_right_ne_nil second (List.cons_ne_nil _ _))
    refine ⟨before, behind.take k, tail, ?_, rfl, ?_⟩
    · rw [← hdrop, List.take_append_drop]
    · simp only [List.length_append, List.length_cons, List.length_take, Nat.min_eq_left hk]
      omega

/-- A part split at blanks: the array holds its words, in any buffer that agrees on the part. -/
theorem splitCommand_part {str saved : Option ℕ} (hnul : 0 ∉ part)
    (hroom : (textWords part).length ≤ shor) (hstr : str.or saved = some before.length)
    (tail : List (BitVec 8)) :
    ∃ out part', splitCommand str [blank] ⟨before ++ (part ++ 0 :: tail), saved⟩
        (Vector.replicate shor none) = some out ∧ part'.length = part.length ∧
      out.1.buf = before ++ (part' ++ 0 :: tail) ∧
      ∀ before' tail' : List (BitVec 8), before'.length = before.length →
        CmdsHold (before' ++ (part' ++ 0 :: tail')) out.2.1 (textWords part) := by
  obtain ⟨out, hout, hsplits⟩ := @splitLoop_words _ [blank] tail (by decide) part before str saved
    (Vector.replicate shor none) 0 hnul hstr (by rwa [Nat.zero_add])
  obtain ⟨part', places, hlength, hbuf, hresult, hplaced⟩ := hsplits.holds
  refine ⟨out, part', hout, hlength, hbuf, fun before' tail' hbefore => ?_⟩
  refine ⟨hroom, places.map (before.length + ·), before.length, ?_, ?_⟩
  · have hwithin := hplaced.within before' tail'
    rw [List.append_assoc, List.singleton_append, hbefore] at hwithin
    exact hwithin
  · rw [hresult, storedFrom, List.take_zero, List.nil_append, List.length_map, hplaced.length_eq,
      Vector.toList_replicate, List.drop_replicate, Nat.zero_add]
    rfl

theorem splitCommand_part_tooMany {str saved : Option ℕ} (hnul : 0 ∉ part)
    (hmany : shor < (textWords part).length) (hstr : str.or saved = some before.length)
    (tail : List (BitVec 8)) :
    splitCommand str [blank] ⟨before ++ (part ++ 0 :: tail), saved⟩
      (Vector.replicate shor none) = none :=
  splitLoop_tooMany (by decide) part before str saved _ 0 hnul hstr (by rwa [Nat.zero_add])
    (Nat.zero_le _)

/-- What `main` has in its variables when it calls `fatherCommand`. -/
structure HoldsParts (parsed : Parsed) (parts : List (List (BitVec 8))) : Prop where
  cmds : CmdsHold parsed.t.buf parsed.cmds (textWords (parts.getD 0 []))
  cmds2 : CmdsHold parsed.t.buf parsed.cmds2 (textWords (parts.getD 1 []))
  isPipe : parsed.isPipe = decide (parts.length = 2)

theorem cmdsHold_empty (buf : List (BitVec 8)) :
    CmdsHold buf (Vector.replicate shor none) (textWords []) :=
  ⟨Nat.zero_le _, [], 0, trivial, rfl⟩

/-- No more parts, and no more words in a part, than there is room for. -/
def FitsArrays (pieces : List (List (BitVec 8))) : Prop :=
  pieces.length ≤ 2 ∧ ∀ part ∈ pieces, (textWords part).length ≤ shor

/-- A result for the parts: their words if they fit, and else none. -/
structure Parses (result : Option Parsed) (pieces : List (List (BitVec 8))) : Prop where
  fits : FitsArrays pieces → ∃ parsed, result = some parsed ∧ HoldsParts parsed pieces
  fails : ¬ FitsArrays pieces → result = none

section Pieces

variable {pipiStr : Vector (Option ℕ) 2} {a b : List (BitVec 8)} {saved : Option ℕ}

theorem parseParts_one {t : Strtok} {out : Strtok × Vector (Option ℕ) shor × ℕ} {p : Option ℕ}
    (hfirst : pipiStr.get ⟨0, firstPart_lt⟩ = p)
    (hsplit : splitCommand p [blank] t (Vector.replicate shor none) = some out)
    (hsecond : pipiStr.get ⟨1, secondPart_lt⟩ = none) :
    parseParts t pipiStr = some ⟨out.1, out.2.1, Vector.replicate shor none, false⟩ := by
  rw [parseParts, hfirst, hsplit, Option.bind_eq_bind, Option.bind_some, hsecond]

theorem parseParts_two {t : Strtok} {out last : Strtok × Vector (Option ℕ) shor × ℕ} {p q : ℕ}
    (hfirst : pipiStr.get ⟨0, firstPart_lt⟩ = some p)
    (hsplit : splitCommand (some p) [blank] t (Vector.replicate shor none) = some out)
    (hsecond : pipiStr.get ⟨1, secondPart_lt⟩ = some q)
    (hlast : splitCommand (some q) [blank] out.1 (Vector.replicate shor none) = some last) :
    parseParts t pipiStr = some ⟨last.1, out.2.1, last.2.1, true⟩ := by
  rw [parseParts, hfirst, hsplit, Option.bind_eq_bind, Option.bind_some, hsecond]
  dsimp only
  rw [hlast]
  rfl

/-- A line without parts: `strtok` goes on at its NUL. -/
theorem parses_none (hfirst : pipiStr.get ⟨0, firstPart_lt⟩ = none) (hsecond : pipiStr.get ⟨1, secondPart_lt⟩ = none)
    (hsaved : saved = some before.length) (tail : List (BitVec 8)) :
    Parses (parseParts ⟨before ++ 0 :: tail, saved⟩ pipiStr) [] where
  fits _ := by
    obtain ⟨out, part', hsplit, -, hout, hholds⟩ := @splitCommand_part before [] none saved
      List.not_mem_nil (Nat.zero_le _) hsaved tail
    refine ⟨_, parseParts_one hfirst hsplit hsecond, ?_, cmdsHold_empty _, rfl⟩
    dsimp only
    rw [hout]
    exact hholds before tail rfl
  fails hfail := absurd ⟨Nat.zero_le 2, fun _ h => nomatch h⟩ hfail

theorem parses_one (hnul : 0 ∉ a) (hfirst : pipiStr.get ⟨0, firstPart_lt⟩ = some before.length)
    (hsecond : pipiStr.get ⟨1, secondPart_lt⟩ = none) (tail : List (BitVec 8)) :
    Parses (parseParts ⟨before ++ (a ++ 0 :: tail), saved⟩ pipiStr) [a] where
  fits hfits := by
    obtain ⟨out, part', hsplit, -, hout, hholds⟩ := @splitCommand_part before a (some before.length) saved hnul
      (hfits.2 a List.mem_cons_self) rfl tail
    refine ⟨_, parseParts_one hfirst hsplit hsecond, ?_, cmdsHold_empty _, rfl⟩
    dsimp only
    rw [hout]
    exact hholds before tail rfl
  fails hfail := by
    have hmany : shor < (textWords a).length := by
      by_contra hroom
      exact hfail ⟨Nat.le_succ 1, List.forall_mem_singleton.mpr (Nat.not_lt.mp hroom)⟩
    rw [parseParts, hfirst, splitCommand_part_tooMany hnul hmany rfl]
    rfl

theorem parses_two {mid : List (BitVec 8)} (hnulA : 0 ∉ a) (hnulB : 0 ∉ b)
    (hfirst : pipiStr.get ⟨0, firstPart_lt⟩ = some before.length)
    (hsecond : pipiStr.get ⟨1, secondPart_lt⟩ = some (before ++ (a ++ 0 :: mid)).length) (tail : List (BitVec 8)) :
    Parses (parseParts ⟨before ++ (a ++ 0 :: (mid ++ (b ++ 0 :: tail))), saved⟩ pipiStr) [a, b] := by
  by_cases hroomA : (textWords a).length ≤ shor
  case neg =>
    constructor
    · exact fun hfits => absurd (hfits.2 a List.mem_cons_self) hroomA
    · intro
      rw [parseParts, hfirst, splitCommand_part_tooMany hnulA (Nat.not_le.mp hroomA) rfl]
      rfl
  obtain ⟨out, a', hsplit, hlength, hout, hholds⟩ := @splitCommand_part before a
    (some before.length) saved hnulA hroomA rfl (mid ++ (b ++ 0 :: tail))
  obtain ⟨⟨buf, saved'⟩, cmds, count⟩ := out
  have hplace : (before ++ (a ++ 0 :: mid)).length = (before ++ (a' ++ 0 :: mid)).length := by
    simp only [List.length_append, hlength]
  have hbuf : buf = before ++ (a' ++ 0 :: mid) ++ (b ++ 0 :: tail) := by
    rw [show buf = _ from hout]
    simp only [List.append_assoc, List.cons_append]
  rw [hplace] at hsecond
  constructor
  · intro hfits
    obtain ⟨last, b', hlast, -, hlastBuf, hholdsB⟩ := @splitCommand_part (before ++ (a' ++ 0 :: mid)) b
      (some (before ++ (a' ++ 0 :: mid)).length) saved' hnulB
      (hfits.2 b (List.mem_cons_of_mem _ List.mem_cons_self)) rfl tail
    rw [← hbuf] at hlast
    refine ⟨_, parseParts_two hfirst hsplit hsecond hlast, ?_, ?_, rfl⟩
    · have hcmds := hholds before (mid ++ (b' ++ 0 :: tail)) rfl
      dsimp only
      rw [hlastBuf, List.append_assoc, List.append_assoc]
      exact hcmds
    · dsimp only
      rw [hlastBuf]
      exact hholdsB _ tail rfl
  · intro hfail
    have hmany : shor < (textWords b).length := by
      by_contra hroomB
      refine hfail ⟨le_rfl, List.forall_mem_cons.mpr ⟨hroomA, ?_⟩⟩
      exact List.forall_mem_singleton.mpr (Nat.not_lt.mp hroomB)
    rw [parseParts, hfirst, hsplit, Option.bind_eq_bind, Option.bind_some, hsecond]
    dsimp only
    rw [hbuf, splitCommand_part_tooMany hnulB hmany rfl]
    rfl

end Pieces

/-- The parts of a merged line are parsed as far as the arrays have room. -/
theorem parses_merged {t : Strtok} (hnul : 0 ∉ line)
    (hmerge : merge t.buf = some (line ++ 0 :: tail)) : Parses (parse t) (parts line) := by
  have hbar : (0 : BitVec 8) ∉ [bar] := by decide
  by_cases hparts : (parts line).length ≤ 2
  case neg =>
    refine ⟨fun h => absurd h.1 hparts, fun _ => ?_⟩
    have hnone : splitCommand (some 0) [bar] ⟨line ++ 0 :: tail, t.saved⟩
        (Vector.replicate 2 none) = none :=
      splitLoop_tooMany hbar line [] (some 0) t.saved _ 0 hnul rfl
        (by rw [Nat.zero_add]; exact Nat.not_le.mp hparts) (Nat.zero_le _)
    rw [parse, hmerge, Option.bind_eq_bind, Option.bind_some, hnone]
    rfl
  obtain ⟨out, hout, hsplits⟩ := @splitLoop_words 2 [bar] tail hbar line [] (some 0) t.saved
    (Vector.replicate 2 none) 0 hnul rfl (by rwa [Nat.zero_add])
  have hrun : parse t = parseParts out.1 out.2.1 := by
    have hsplit : splitCommand (some 0) [bar] ⟨line ++ 0 :: tail, t.saved⟩
      (Vector.replicate 2 none) = some out := hout
    rw [parse, hmerge, Option.bind_eq_bind, Option.bind_some, hsplit]
    rfl
  obtain ⟨places, hplaced, hresult⟩ := hsplits.placed
  obtain ⟨line', -, hlength, hbuf, -⟩ := hsplits.holds
  have hsaved := hsplits.saved
  obtain ⟨⟨buf, saved⟩, pipiStr, count⟩ := out
  have hfirst : pipiStr.toList[0]? = some (pipiStr.get ⟨0, firstPart_lt⟩) := by
    simp [Vector.get]
  have hsecond : pipiStr.toList[1]? = some (pipiStr.get ⟨1, secondPart_lt⟩) := by
    simp [Vector.get]
  have hnulParts : ∀ part ∈ parts line, 0 ∉ part := hplaced.nul_not_mem
  have hne : ∀ part ∈ parts line, part ≠ [] := fun part hpart => parts_ne_nil hpart
  rw [← parts] at hplaced
  dsimp only at hplaced hresult hbuf hsaved hrun
  rw [hresult] at hfirst hsecond
  rw [hrun]
  generalize parts line = pieces at hparts hplaced hnulParts hne ⊢
  match pieces, places with
  | [], [] =>
    rw [hbuf]
    exact parses_none (Option.some.inj hfirst).symm (Option.some.inj hsecond).symm
      (by rw [hsaved, hlength, List.length_nil, Nat.zero_add]) tail
  | [a], [p] =>
    obtain ⟨before, behind, rfl, rfl⟩ := exists_before hplaced.2.1
    exact parses_one (hnulParts a List.mem_cons_self) (Option.some.inj hfirst).symm
      (Option.some.inj hsecond).symm behind
  | [a, b], [p, q] =>
    have hmem : b ∈ [a, b] := List.mem_cons_of_mem _ List.mem_cons_self
    obtain ⟨before, mid, behind, rfl, rfl, rfl⟩ := exists_between (hne b hmem) hplaced
    exact parses_two (hnulParts a List.mem_cons_self) (hnulParts b hmem)
      (Option.some.inj hfirst).symm (Option.some.inj hsecond).symm behind
  | a :: b :: c :: rest, _ =>
    rw [List.length_cons, List.length_cons, List.length_cons] at hparts
    omega

end Parsing

/-! ## Lines -/

section Lines

variable {line first : List (BitVec 8)} {pieces : List (List (BitVec 8))}

theorem textWords_getD (pieces : List (List (BitVec 8))) (i : ℕ) :
    textWords ((pieces.map (squeeze blank)).getD i []) = textWords (pieces.getD i []) := by
  rw [List.getD_eq_getElem?_getD, List.getD_eq_getElem?_getD, List.getElem?_map]
  cases pieces[i]? with
  | none => rfl
  | some part => exact wordsBy_squeeze part

/-- `merge` changes nothing about what fits. -/
theorem parses_line (hnul : 0 ∉ line) (tail : List (BitVec 8)) (saved : Option ℕ) :
    Parses (parse ⟨line ++ 0 :: tail, saved⟩) (parts line) := by
  obtain ⟨junk, -, hmerge⟩ := merge_line hnul tail
  have hmerged := @parses_merged _ _ ⟨line ++ 0 :: tail, saved⟩ (nul_not_mem_squeeze hnul) hmerge
  have hparts : parts (squeeze blank line) = (parts line).map (squeeze blank) :=
    words_squeeze_map (by decide) line
  have hfits : FitsArrays ((parts line).map (squeeze blank)) ↔ FitsArrays (parts line) := by
    rw [FitsArrays, FitsArrays, List.length_map, List.forall_mem_map]
    exact and_congr_right' (forall₂_congr fun part _ => by rw [textWords, wordsBy_squeeze]; rfl)
  rw [hparts] at hmerged
  refine ⟨fun h => ?_, fun h => hmerged.fails (hfits.not.mpr h)⟩
  obtain ⟨parsed, hparse, hholds⟩ := hmerged.fits (hfits.mpr h)
  refine ⟨parsed, hparse, ?_, ?_, ?_⟩
  · exact textWords_getD (parts line) 0 ▸ hholds.cmds
  · exact textWords_getD (parts line) 1 ▸ hholds.cmds2
  · rw [hholds.isPipe, List.length_map]

/-- A line with one `|` at most, cut there. -/
theorem cut_of_count (hcount : line.count bar ≤ 1) :
    bar ∉ line ∨ ∃ x y, line = x ++ bar :: y ∧ bar ∉ x ∧ bar ∉ y := by
  by_cases hmem : bar ∈ line
  · right
    obtain ⟨x, y, rfl⟩ := List.append_of_mem hmem
    rw [List.count_append, List.count_cons_self] at hcount
    refine ⟨x, y, rfl, ?_, ?_⟩
    · exact List.count_eq_zero.mp (by omega)
    · exact List.count_eq_zero.mp (by omega)
  · exact Or.inl hmem

theorem parts_of_not_mem (hnot : bar ∉ line) : parts line = if line = [] then [] else [line] := by
  split
  case isTrue hnil => rw [hnil]; rfl
  case isFalse hne =>
    refine words_of_not_blank hne fun c hc => decide_eq_false fun hmem => ?_
    exact hnot (List.mem_singleton.mp hmem ▸ hc)

theorem parts_cut {x : List (BitVec 8)} (hx : bar ∉ x) (y : List (BitVec 8)) :
    parts (x ++ bar :: y) = if x = [] then parts y else x :: parts y := by
  have hbar : ∀ c ∈ [bar], decide (c ∈ [bar]) = true := by decide
  split
  case isTrue hnil => rw [hnil]; exact words_blanks hbar y
  case isFalse hne =>
    have hword : ∀ c ∈ x, decide (c ∈ [bar]) = false := fun c hc =>
      decide_eq_false fun hmem => hx (List.mem_singleton.mp hmem ▸ hc)
    have happend := @words_append _ (fun c => decide (c ∈ [bar])) x (bar :: y) hne hword
      (by rintro _ ⟨⟩; decide)
    exact happend.trans (congrArg _ (words_blanks hbar y))

theorem beforeBar_cut {x : List (BitVec 8)} (hx : bar ∉ x) (y : List (BitVec 8)) :
    beforeBar (x ++ bar :: y) = x ∧ afterBar (x ++ bar :: y) = y := by
  have hne : ∀ c ∈ x, decide (c ≠ bar) = true := fun c hc =>
    decide_eq_true fun h => hx (h ▸ hc)
  constructor
  · rw [beforeBar, List.takeWhile_append_of_pos hne, List.takeWhile_cons_of_neg (by decide),
      List.append_nil]
  · rw [afterBar, List.dropWhile_append_of_pos hne, List.dropWhile_cons_of_neg (by decide)]
    rfl

theorem beforeBar_of_not_mem (hnot : bar ∉ line) : beforeBar line = line ∧ afterBar line = [] := by
  have hne : ∀ c ∈ line, decide (c ≠ bar) = true := fun c hc =>
    decide_eq_true fun h => hnot (h ▸ hc)
  rw [beforeBar, afterBar, List.takeWhile_eq_self_iff.mpr hne, List.dropWhile_eq_nil_iff.mpr hne]
  exact ⟨rfl, rfl⟩

/-- Only a line that begins with its `|` has words of its one part behind it. -/
theorem lists_one (hcount : line.count bar ≤ 1) (hparts : parts line = [first])
    (hwords : textWords first ≠ []) :
    textWords first = textWords (beforeBar line) ∧ textWords (afterBar line) = [] ↔
      ¬ (line.count bar = 1 ∧ line.head? = some bar) := by
  rcases cut_of_count hcount with hnot | ⟨x, y, rfl, hx, hy⟩
  · rw [List.count_eq_zero.mpr hnot, (beforeBar_of_not_mem hnot).1, (beforeBar_of_not_mem hnot).2]
    rw [parts_of_not_mem hnot] at hparts
    split at hparts
    · cases hparts
    · obtain ⟨rfl, -⟩ := List.cons.inj hparts
      exact iff_of_true ⟨rfl, rfl⟩ fun h => nomatch h.1
  · have hone : (x ++ bar :: y).count bar = 1 := by
      rw [List.count_append, List.count_cons_self, List.count_eq_zero.mpr hx,
        List.count_eq_zero.mpr hy]
    rw [(beforeBar_cut hx y).1, (beforeBar_cut hx y).2, hone]
    rw [parts_cut hx, parts_of_not_mem hy] at hparts
    cases x with
    | nil =>
      refine iff_of_false (fun h => hwords ?_) fun h => h ⟨rfl, rfl⟩
      exact h.1
    | cons c x =>
      rw [if_neg (List.cons_ne_nil c x)] at hparts
      obtain ⟨rfl, hrest⟩ := List.cons.inj hparts
      have hy' : y = [] := by
        by_contra hne
        rw [if_neg hne] at hrest
        cases hrest
      have hc : c ≠ bar := fun h => hx (h ▸ List.mem_cons_self)
      rw [hy']
      exact iff_of_true ⟨rfl, rfl⟩ fun h => hc (Option.some.inj h.2)

/-- Two parts are in front of the `|` and behind it. -/
theorem lists_two {second : List (BitVec 8)} (hcount : line.count bar ≤ 1)
    (hparts : parts line = [first, second]) :
    first = beforeBar line ∧ second = afterBar line ∧
      ¬ (line.count bar = 1 ∧ line.head? = some bar) := by
  rcases cut_of_count hcount with hnot | ⟨x, y, rfl, hx, hy⟩
  · rw [parts_of_not_mem hnot] at hparts
    split at hparts
    · cases hparts
    · cases hparts
  · rw [(beforeBar_cut hx y).1, (beforeBar_cut hx y).2]
    rw [parts_cut hx, parts_of_not_mem hy] at hparts
    cases x with
    | nil =>
      rw [if_pos rfl] at hparts
      split at hparts
      · cases hparts
      · cases hparts
    | cons c x =>
      rw [if_neg (List.cons_ne_nil c x)] at hparts
      obtain ⟨rfl, hrest⟩ := List.cons.inj hparts
      have hc : c ≠ bar := fun h => hx (h ▸ List.mem_cons_self)
      refine ⟨rfl, ?_, fun h => hc (Option.some.inj h.2)⟩
      split at hrest
      · cases hrest
      · exact (List.cons.inj hrest).1.symm

/-! ## A turn of the loop -/

section Turns

variable {t : Strtok} {parsed : Parsed} {name : List (BitVec 8)}

theorem turn_of_fails (hparse : parse t = some parsed)
    (hfails : fatherCommand parsed.t.buf parsed.cmds = none) : turn t = none := by
  rw [turn, hparse, Option.bind_eq_bind, Option.bind_some, hfails]
  rfl

theorem turn_of_builtin {builtin : Builtin} (hparse : parse t = some parsed)
    (hfather : fatherCommand parsed.t.buf parsed.cmds = some (some builtin)) :
    turn t = some (.builtin builtin) := by
  rw [turn, hparse, Option.bind_eq_bind, Option.bind_some, hfather]
  rfl

theorem turn_of_run (hparse : parse t = some parsed)
    (hfather : fatherCommand parsed.t.buf parsed.cmds = some none) (hpipe : parsed.isPipe = false) :
    turn t = (execute parsed.t.buf parsed.cmds).map .run := by
  rw [turn, hparse, Option.bind_eq_bind, Option.bind_some, hfather, Option.bind_eq_bind,
    Option.bind_some, hpipe]
  cases execute parsed.t.buf parsed.cmds <;> rfl

theorem turn_of_pipe (hparse : parse t = some parsed)
    (hfather : fatherCommand parsed.t.buf parsed.cmds = some none) (hpipe : parsed.isPipe = true) :
    turn t = (execute parsed.t.buf parsed.cmds).bind fun first =>
      (execute parsed.t.buf parsed.cmds2).map fun second => .pipe first second := by
  rw [turn, hparse, Option.bind_eq_bind, Option.bind_some, hfather, Option.bind_eq_bind,
    Option.bind_some, hpipe]
  cases execute parsed.t.buf parsed.cmds with
  | none => rfl
  | some first => cases execute parsed.t.buf parsed.cmds2 <;> rfl

theorem fatherCommand_null {buf : List (BitVec 8)} {cmds : Vector (Option ℕ) shor}
    (hread : cmds[0] = none) : fatherCommand buf cmds = none := by
  rw [fatherCommand, hread]
  rfl

theorem not_obeyed_none : ¬ Obeyed line none := fun ⟨_, hsome, _⟩ => nomatch hsome

/-- One vector is passed on. -/
theorem obeyed_run_iff (hparts : parts line = [first]) (hne : textWords first ≠ [])
    (hholds : CmdsHold parsed.t.buf parsed.cmds (textWords first)) :
    Obeyed line ((execute parsed.t.buf parsed.cmds).map .run) ↔
      FitsExec (textWords first) ∧ ¬ (line.count bar = 1 ∧ line.head? = some bar) := by
  obtain ⟨hargs, hfits⟩ := execute_iff hholds
  rw [← hfits]
  cases hexec : execute parsed.t.buf parsed.cmds with
  | none => exact iff_of_false not_obeyed_none fun h => nomatch h.1
  | some exec =>
    have hlists : (Turn.run exec).Lists line ↔
        textWords first = textWords (beforeBar line) ∧ textWords (afterBar line) = [] := by
      rw [Turn.Lists, hargs exec hexec]
    constructor
    · rintro ⟨_, ⟨⟩, hturn⟩
      refine ⟨rfl, fun hbar => ?_⟩
      exact (lists_one hbar.1.le hparts hne).mp (hlists.mp (hturn hbar.1.le)) hbar
    · rintro ⟨-, hbar⟩
      exact ⟨_, rfl, fun hcount => hlists.mpr ((lists_one hcount hparts hne).mpr hbar)⟩

/-- Two vectors are passed on. -/
theorem obeyed_pipe_iff {second : List (BitVec 8)} (hparts : parts line = [first, second])
    (hholds : CmdsHold parsed.t.buf parsed.cmds (textWords first))
    (hholds2 : CmdsHold parsed.t.buf parsed.cmds2 (textWords second)) :
    Obeyed line ((execute parsed.t.buf parsed.cmds).bind fun first =>
        (execute parsed.t.buf parsed.cmds2).map fun second => .pipe first second) ↔
      (FitsExec (textWords first) ∧ FitsExec (textWords second)) ∧
        ¬ (line.count bar = 1 ∧ line.head? = some bar) := by
  obtain ⟨hargs, hfits⟩ := execute_iff hholds
  obtain ⟨hargs2, hfits2⟩ := execute_iff hholds2
  rw [← hfits, ← hfits2]
  cases hexec : execute parsed.t.buf parsed.cmds with
  | none => exact iff_of_false not_obeyed_none fun h => nomatch h.1.1
  | some exec =>
    cases hexec2 : execute parsed.t.buf parsed.cmds2 with
    | none => exact iff_of_false not_obeyed_none fun h => nomatch h.1.2
    | some exec2 =>
      have hlists : line.count bar ≤ 1 → (Turn.pipe exec exec2).Lists line := fun hcount => by
        obtain ⟨hfirst, hsecond, -⟩ := lists_two hcount hparts
        rw [Turn.Lists, hargs exec hexec, hargs2 exec2 hexec2, hfirst, hsecond]
        exact ⟨rfl, rfl⟩
      refine iff_of_true ⟨_, rfl, hlists⟩ ⟨⟨rfl, rfl⟩, fun hbar => ?_⟩
      exact (lists_two hbar.1.le hparts).2.2 hbar

end Turns

/-- A line is obeyed within the arrays, with vectors that list its words, just when it has one or two
parts whose words fit in the arrays, and a first word that is a command of the shell itself or, with
the other words, fits for `execute`. -/
theorem turn_obeyed_iff (hnul : 0 ∉ line) (tail : List (BitVec 8)) (saved : Option ℕ) :
    Obeyed line (turn ⟨line ++ 0 :: tail, saved⟩) ↔ FitsLine line := by
  have hparses := parses_line hnul tail saved
  by_cases hfits : FitsArrays (parts line)
  case neg =>
    have hnone : turn ⟨line ++ 0 :: tail, saved⟩ = none := by
      rw [turn, hparses.fails hfits]
      rfl
    rw [hnone]
    exact iff_of_false not_obeyed_none fun h => hfits ⟨h.1, h.2.1⟩
  obtain ⟨parsed, hparse, hholds⟩ := hparses.fits hfits
  have hcmds := hholds.cmds
  have hcmds2 := hholds.cmds2
  have hpipe := hholds.isPipe
  -- the first pointer decides whether `strcmp` has something to compare
  obtain ⟨hnil, hread⟩ | ⟨name, args, p, hwords, hread, hname⟩ := hcmds.head
  · rw [turn_of_fails hparse (fatherCommand_null hread)]
    refine iff_of_false not_obeyed_none ?_
    rintro ⟨-, -, first, rest, name, args, hparts, hwords, -⟩
    rw [hparts] at hnil
    cases hnil.symm.trans hwords
  obtain ⟨result, hfather, hbuiltin⟩ := fatherCommand_name hread hname
  obtain ⟨first, rest, hparts⟩ : ∃ first rest, parts line = first :: rest := by
    cases hcase : parts line with
    | nil =>
      rw [hcase] at hwords
      cases hwords
    | cons first rest => exact ⟨first, rest, rfl⟩
  rw [hparts] at hcmds hcmds2 hpipe hwords
  change textWords first = name :: args at hwords
  have hline : FitsLine line ↔ name ∈ [text "exit", text "cd", text "pwd"] ∨
      (∀ part ∈ first :: rest, FitsExec (textWords part)) ∧
        ¬ (line.count bar = 1 ∧ line.head? = some bar) := by
    constructor
    · rintro ⟨-, -, first', rest', name', args', hparts', hwords', hcase⟩
      obtain ⟨rfl, rfl⟩ := List.cons.inj (hparts.symm.trans hparts')
      obtain ⟨rfl, rfl⟩ := List.cons.inj (hwords.symm.trans hwords')
      rwa [hparts] at hcase
    · intro hcase
      exact ⟨hfits.1, hfits.2, first, rest, name, args, hparts, hwords, by rwa [hparts]⟩
  rw [hline]
  cases result with
  | some builtin =>
    rw [turn_of_builtin hparse hfather]
    refine iff_of_true ⟨_, rfl, fun _ => trivial⟩ (Or.inl ?_)
    by_contra hnot
    cases hbuiltin.mpr hnot
  | none =>
    rw [or_iff_right (hbuiltin.mp rfl)]
    match rest with
    | [] =>
      rw [turn_of_run hparse hfather hpipe, List.forall_mem_singleton]
      exact obeyed_run_iff hparts (hwords ▸ List.cons_ne_nil name args) hcmds
    | [second] =>
      rw [turn_of_pipe hparse hfather hpipe, List.forall_mem_cons, List.forall_mem_singleton]
      exact obeyed_pipe_iff hparts hcmds hcmds2
    | second :: third :: rest =>
      have hlength := hfits.1
      rw [hparts, List.length_cons, List.length_cons, List.length_cons] at hlength
      omega

end Lines

/-- A pipe of two commands. -/
theorem turn_obeyed_pipe :
    Obeyed (text "ls -l|wc") (turn ⟨text "ls -l|wc" ++ 0 :: [], none⟩) := by
  have hparts : parts (text "ls -l|wc") = [text "ls -l", text "wc"] := by decide
  refine (turn_obeyed_iff (by decide) [] none).mpr ⟨by decide, by decide, text "ls -l", [text "wc"],
    text "ls", [text "-l"], hparts, by decide, Or.inr ⟨?_, by decide⟩⟩
  rw [hparts, List.forall_mem_cons, List.forall_mem_singleton]
  exact ⟨⟨text "ls", [text "-l"], by decide, by decide, by decide⟩,
    ⟨text "wc", [], by decide, by decide, by decide⟩⟩

/-- On an empty line `strcmp` is called with a null pointer. -/
theorem empty_line_fails : ¬ ∀ (line tail : List (BitVec 8)) (saved : Option ℕ), 0 ∉ line →
    line.length ≤ 127 → Obeyed line (turn ⟨line ++ 0 :: tail, saved⟩) := by
  intro hall
  have hobeyed := hall [] [] none List.not_mem_nil (Nat.zero_le _)
  obtain ⟨parsed, hparse, hholds⟩ := (@parses_line [] List.not_mem_nil [] none).fits
    ⟨Nat.zero_le _, fun _ h => nomatch h⟩
  obtain ⟨-, hread⟩ | ⟨name, rest, p, hwords, -⟩ := hholds.cmds.head
  · rw [turn_of_fails hparse (fatherCommand_null hread)] at hobeyed
    exact not_obeyed_none hobeyed
  · cases hwords

end OsLabs.Shell
