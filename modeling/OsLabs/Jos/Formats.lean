import OsLabs.Core.Fuel
import OsLabs.Jos.NumberText

/-!
# What a format asks for

A format is a sequence of pieces: characters, and conversions with their
arguments.  `pieces` finds them without printing anything; here `vprintfmt` is
shown to take one piece after the other.
-/

namespace OsLabs.Jos

open OsLabs.Fuel

/-! ## Pieces -/

inductive Piece
  | plain (byte : BitVec 8)
  | char (arg : Word)
  | error (arg : Word)
  | string (spec : Spec) (arg : Word)
  | signed (spec : Spec) (num : BitVec 64)
  | unsigned (spec : Spec) (base : ℕ) (base_gt : 1 < base) (num : BitVec 64)
  | pointer (spec : Spec) (arg : Word)
  | percent
  | colour (num : BitVec 64)
  /-- a conversion that there is not, with its flags and its character -/
  | unknown (text : List (BitVec 8))

/-- What a character of a conversion is for. -/
inductive Reading
  | digit
  | flag (spec : Spec) (args : List Word)
  | piece (piece : Piece) (args : List Word)
  | unknown

/-- The argument of a conversion, and the arguments behind it. -/
def nextArg (args : List Word) (reading : Word → List Word → Reading) : Option Reading :=
  match args with
  | [] => none
  | arg :: args => some (reading arg args)

/-- The meaning of a character of a conversion, if there are arguments for it. -/
def Spec.reading (spec : Spec) (ch : Word) (args : List Word) : Option Reading :=
  if ch = chr '-' then some (.flag { spec with padc := chr '-' } args)
  else if ch = chr '0' then some (.flag { spec with padc := chr '0' } args)
  else if isDigit ch then some .digit
  else if ch = chr '*' then
    nextArg args fun arg args => .flag { spec with precision := arg }.processPrecision args
  else if ch = chr '.' then
    some (.flag (if spec.width.slt 0 then { spec with width := 0 } else spec) args)
  else if ch = chr '#' then some (.flag { spec with altflag := true } args)
  else if ch = chr 'l' then some (.flag { spec with lflag := spec.lflag + 1 } args)
  else if ch = chr 'c' then nextArg args fun arg args => .piece (.char arg) args
  else if ch = chr 'e' then nextArg args fun arg args => .piece (.error arg) args
  else if ch = chr 's' then nextArg args fun arg args => .piece (.string spec arg) args
  else if ch = chr 'd' then
    (getint args spec.lflag).map fun (num, args) => .piece (.signed spec num) args
  else if ch = chr 'u' then
    (getuint args spec.lflag).map fun (num, args) => .piece (.unsigned spec 10 (by decide) num) args
  else if ch = chr 'o' then
    (getuint args spec.lflag).map fun (num, args) => .piece (.unsigned spec 8 (by decide) num) args
  else if ch = chr 'p' then nextArg args fun arg args => .piece (.pointer spec arg) args
  else if ch = chr 'x' then
    (getuint args spec.lflag).map fun (num, args) => .piece (.unsigned spec 16 (by decide) num) args
  else if ch = chr '%' then some (.piece .percent args)
  else if ch = chr 'm' then
    (getint args spec.lflag).map fun (num, args) => .piece (.colour num) args
  else some .unknown

/-- The digits that a text begins with. -/
def digitPrefix (text : List (BitVec 8)) : List (BitVec 8) :=
  text.takeWhile fun byte => isDigit (byte.setWidth 32)

/-- The number that digits continue, after `value`. -/
def numberValue (value : Word) (digits : List (BitVec 8)) : Word :=
  digits.foldl (fun value byte => value * 10 + byte.setWidth 32 - chr '0') value

/-- A width or precision that digits give. -/
def Spec.withNumber (spec : Spec) (number : Word) : Spec :=
  { spec with precision := number }.processPrecision

/-- The conversion that `text` begins with, from its first flag on: what it asks for, as far as it
is known, the number of characters before the last one, and the arguments that are left. -/
def scan (text : List (BitVec 8)) (spec : Spec) (args : List Word) :
    Option (Option Piece × ℕ × List Word) :=
  match text with
  | [] => some (none, 0, args)
  | byte :: text =>
      match spec.reading (byte.setWidth 32) args with
      | none => none
      | some .digit =>
          let digits := digitPrefix text
          (scan (text.drop digits.length) (spec.withNumber (numberValue 0 (byte :: digits)))
            args).map fun (piece, count, args) => (piece, count + digits.length + 1, args)
      | some (.flag spec args) =>
          (scan text spec args).map fun (piece, count, args) => (piece, count + 1, args)
      | some (.piece piece args) => some (some piece, 0, args)
      | some .unknown => some (none, 0, args)
termination_by text.length
decreasing_by
  all_goals simp only [List.length_cons, List.length_drop]; omega

/-- The character `%`. -/
def percentByte : BitVec 8 := BitVec.ofNat 8 '%'.toNat

/-- The pieces of a format, if there are arguments for all of them. -/
def pieces (fmt : List (BitVec 8)) (args : List Word) : Option (List Piece) :=
  match fmt with
  | [] => some []
  | byte :: text =>
      if byte = percentByte then
        match scan text Spec.start args with
        | none => none
        | some (piece, count, args) =>
            (pieces (text.drop (count + 1)) args).map
              (piece.getD (.unknown (text.take (count + 1))) :: ·)
      else (pieces text args).map (.plain byte :: ·)
termination_by fmt.length
decreasing_by
  all_goals simp only [List.length_cons, List.length_drop]; omega

/-! ## Printing one piece -/

/-- `%e`, with `printfmt` given as `nested`. -/
def printError (memory : Memory) (nested : List (BitVec 8) → List Word → Printer → Option Printer)
    (fuel : ℕ) (arg : Word) (out : Printer) : Option Printer :=
  let err := if arg.slt 0 then -arg else arg
  if err.slt 0 then none
  else
    let message := if err.toNat < maxError then errorString err.toNat else none
    (message.elim (nested (text "error %d") [err] out) fun message =>
      printMessage memory fuel message out).map
        fun printed : Printer => { printed with fmtReads := out.fmtReads }

/-- What `vprintfmt` does for a piece. -/
def Piece.print (memory : Memory)
    (nested : List (BitVec 8) → List Word → Printer → Option Printer) (fuel : ℕ) (out : Printer) :
    Piece → Option Printer
  | .plain byte => some (out.putch (byte.setWidth 32))
  | .char arg => some (out.putch arg)
  | .error arg => printError memory nested fuel arg out
  | .string spec arg =>
      printString memory fuel (if arg = 0 then .const (text "(null)") 0 else .mem arg) spec.padc
        spec.width spec.precision spec.altflag out
  | .signed spec num =>
      some (if num.slt 0 then printNumber spec (out.putch (chr '-')) (-num) 10
        else printNumber spec out num 10)
  | .unsigned spec base _ num => some (printNumber spec out num base)
  | .pointer spec arg =>
      some (printNumber spec ((out.putch (chr '0')).putch (chr 'x')) (arg.setWidth 64) 16)
  | .percent => some (out.putch (chr '%'))
  | .colour num => some { out with csa := num.setWidth 32 }
  | .unknown text => some ((chr '%' :: text.map fun byte => byte.setWidth 32).foldl Printer.putch out)

/-- What `convert` does for a character that is for `reading`. -/
def Reading.act (memory : Memory) (nested : List (BitVec 8) → List Word → Printer → Option Printer)
    (fmt : List (BitVec 8)) (fuel index : ℕ) (ch : Word) (spec : Spec) (args : List Word)
    (out : Printer) : Reading → Option Step
  | .digit =>
      (readNumber fmt fuel index 0 ch out).map fun (precision, index, out) =>
        .reswitch (spec.withNumber precision) index args out
  | .flag spec args => some (.reswitch spec index args out)
  | .piece asked args =>
      (asked.print memory nested fuel out).map fun out => .done index args out
  | .unknown =>
      (backToPercent fmt (index - 1) (out.putch (chr '%'))).map fun (index, out) =>
        .done index args out

section Convert

variable {memory : Memory} {fmt : List (BitVec 8)}
variable {nested : List (BitVec 8) → List Word → Printer → Option Printer}
variable {fuel index : ℕ} {ch : Word} {spec : Spec} {args : List Word} {out : Printer}

theorem bind_ite {α β : Type*} (p : Prop) [Decidable p] (first second : Option α)
    (f : α → Option β) :
    (if p then first else second).bind f = if p then first.bind f else second.bind f :=
  apply_ite (Option.bind · f) p first second

/-- A branch of `convert` for a conversion with one argument. -/
theorem nextArg_bind {f : Reading → Option Step} {reading : Word → List Word → Reading} :
    (nextArg args reading).bind f =
      match args with
      | [] => none
      | arg :: args => f (reading arg args) := by
  cases args <;> rfl

theorem convert_error (arg : Word) (rest : List Word) :
    (do
      let err := if arg.slt 0 then -arg else arg
      if err.slt 0 then none
      else
        let printed ← match (if err.toNat < maxError then errorString err.toNat else none) with
          | none => nested (text "error %d") [err] out
          | some message => printMessage memory fuel message out
        return Step.done index rest { printed with fmtReads := out.fmtReads }) =
      (printError memory nested fuel arg out).map fun out => Step.done index rest out := by
  rw [printError]
  dsimp only
  by_cases hneg : (if arg.slt 0 then -arg else arg).slt 0
  · rw [if_pos hneg, if_pos hneg]
    rfl
  · rw [if_neg hneg, if_neg hneg, Option.map_map, Option.map_eq_bind]
    cases (if (if arg.slt 0 then -arg else arg).toNat < maxError then
      errorString (if arg.slt 0 then -arg else arg).toNat else none) <;> rfl

/-- `convert` does what the character is for. -/
theorem convert_reading :
    convert memory nested fmt fuel index ch spec args out =
      (spec.reading ch args).bind (Reading.act memory nested fmt fuel index ch spec args out) := by
  rw [convert.eq_def, Spec.reading]
  simp only [bind_ite]
  refine if_congr Iff.rfl rfl ?_
  refine if_congr Iff.rfl rfl ?_
  refine if_congr Iff.rfl Option.map_eq_bind.symm ?_
  refine if_congr Iff.rfl (by cases args <;> rfl) ?_
  refine if_congr Iff.rfl rfl ?_
  refine if_congr Iff.rfl rfl ?_
  refine if_congr Iff.rfl rfl ?_
  refine if_congr Iff.rfl (by cases args <;> rfl) ?_
  refine if_congr Iff.rfl ?_ ?_
  · cases args with
    | nil => rfl
    | cons arg args => exact convert_error arg args
  refine if_congr Iff.rfl ?_ ?_
  · cases args with
    | nil => rfl
    | cons arg args => exact Option.map_eq_bind.symm
  refine if_congr Iff.rfl ?_ ?_
  · cases hint : getint args spec.lflag with
    | none => rfl
    | some value => exact (apply_ite (some <| Step.done index value.2 ·) _ _ _).symm
  refine if_congr Iff.rfl (by cases getuint args spec.lflag <;> rfl) ?_
  refine if_congr Iff.rfl (by cases getuint args spec.lflag <;> rfl) ?_
  refine if_congr Iff.rfl (by cases args <;> rfl) ?_
  refine if_congr Iff.rfl (by cases getuint args spec.lflag <;> rfl) ?_
  by_cases hpercent : ch = chr '%'
  · rw [if_pos hpercent, if_pos hpercent, hpercent]
    rfl
  rw [if_neg hpercent, if_neg hpercent]
  refine if_congr Iff.rfl (by cases getint args spec.lflag <;> rfl) ?_
  exact Option.map_eq_bind.symm

end Convert

/-! ## Reading a conversion -/

/-- `printed` has emitted `chars` after `out`, in its colour; the colour is now `csa`, and the format
has been read up to its NUL at most. -/
structure Advances (fmt : List (BitVec 8)) (out : Printer) (chars : List Word) (csa : Word)
    (printed : Printer) : Prop where
  chars : printed.chars = out.chars ++ chars.map fun ch => (ch, out.csa)
  csa : printed.csa = csa
  reads : ∀ i ∈ printed.fmtReads, i ∈ out.fmtReads ∨ i ≤ fmt.length

section Scan

variable {memory : Memory} {fmt text : List (BitVec 8)}
variable {nested : List (BitVec 8) → List Word → Printer → Option Printer}
variable {fuel index : ℕ} {spec : Spec} {args : List Word} {out mid printed : Printer}

theorem Advances.refl (fmt : List (BitVec 8)) (out : Printer) : Advances fmt out [] out.csa out :=
  ⟨by rw [List.map_nil, List.append_nil], rfl, fun _ hi => Or.inl hi⟩

theorem Advances.trans {first second : List Word} {csa : Word}
    (hfirst : Advances fmt out first out.csa mid) (hsecond : Advances fmt mid second csa printed) :
    Advances fmt out (first ++ second) csa printed where
  chars := by rw [hsecond.chars, hfirst.chars, hfirst.csa, List.map_append, List.append_assoc]
  csa := hsecond.csa
  reads i hi := (hsecond.reads i hi).elim (hfirst.reads i) Or.inr

/-- Two steps that keep the colour. -/
theorem Advances.append {first second : List Word} (hfirst : Advances fmt out first out.csa mid)
    (hsecond : Advances fmt mid second mid.csa printed) :
    Advances fmt out (first ++ second) out.csa printed := by
  have hall := hfirst.trans hsecond
  rwa [hfirst.csa] at hall

theorem advances_noteFmt (hle : index ≤ fmt.length) (out : Printer) :
    Advances fmt out [] out.csa (out.noteFmt index) where
  chars := by rw [List.map_nil, List.append_nil, Printer.noteFmt]
  csa := rfl
  reads i hi := by
    rcases List.mem_append.mp hi with hold | hnew
    · exact Or.inl hold
    · exact Or.inr ((List.mem_singleton.mp hnew).trans_le hle)

theorem advances_putch (fmt : List (BitVec 8)) (out : Printer) (ch : Word) :
    Advances fmt out [ch] out.csa (out.putch ch) :=
  ⟨rfl, rfl, fun _ hi => Or.inl hi⟩

/-- The NUL is read as the end of the text. -/
theorem readFmt_head (hdrop : fmt.drop index = text) (hle : index ≤ fmt.length) (out : Printer) :
    out.readFmt fmt index = some ((text.headD 0).setWidth 32, out.noteFmt index) := by
  cases text with
  | nil =>
    have hend : index = fmt.length := hle.antisymm (List.drop_eq_nil_iff.mp hdrop)
    rw [Printer.readFmt, fetch, if_pos hend]
    rfl
  | cons byte text => exact readFmt_of_drop hdrop out

theorem index_le (hdrop : fmt.drop index = text) (hle : index ≤ fmt.length) {count : ℕ}
    (hcount : count ≤ text.length) : index + count ≤ fmt.length := by
  rw [← hdrop, List.length_drop] at hcount
  omega

theorem index_succ_le {byte : BitVec 8} (hdrop : fmt.drop index = byte :: text) :
    index + 1 ≤ fmt.length := by
  by_contra hge
  rw [List.drop_eq_nil_of_le (by omega)] at hdrop
  cases hdrop

/-- A number is read up to the first character that is no digit. -/
theorem readNumber_leading (hdrop : fmt.drop index = text) (hle : index ≤ fmt.length)
    (hfuel : text.length < fuel) (precision ch : Word) (out : Printer) :
    ∃ mid, Advances fmt out [] out.csa mid ∧
      readNumber fmt fuel index precision ch out =
        some (numberValue (precision * 10 + ch - chr '0') (digitPrefix text),
          index + (digitPrefix text).length, mid) := by
  induction text generalizing index fuel precision ch out with
  | nil =>
    obtain ⟨fuel, rfl⟩ : ∃ n, fuel = n + 1 := ⟨fuel - 1, by omega⟩
    refine ⟨_, advances_noteFmt hle out, ?_⟩
    rw [readNumber, readFmt_head hdrop hle]
    rfl
  | cons byte text ih =>
    obtain ⟨fuel, rfl⟩ : ∃ n, fuel = n + 1 := ⟨fuel - 1, by omega⟩
    rw [List.length_cons] at hfuel
    rw [readNumber, readFmt_head hdrop hle, Option.bind_eq_bind, Option.bind_some]
    dsimp only [List.headD_cons]
    by_cases hdigit : isDigit (byte.setWidth 32)
    · have hlt : index + 1 ≤ fmt.length := index_succ_le hdrop
      obtain ⟨mid, hmid, hread⟩ := @ih fuel (index + 1) (drop_succ hdrop) hlt (by omega)
        (precision * 10 + ch - chr '0') (byte.setWidth 32) (out.noteFmt index)
      have hprefix : digitPrefix (byte :: text) = byte :: digitPrefix text :=
        List.takeWhile_cons_of_pos hdigit
      refine ⟨mid, (advances_noteFmt hle out).trans hmid, ?_⟩
      rw [if_pos hdigit, hread, hprefix, List.length_cons, Nat.add_right_comm, Nat.add_assoc]
      rfl
    · have hprefix : digitPrefix (byte :: text) = [] := List.takeWhile_cons_of_neg hdigit
      refine ⟨_, advances_noteFmt hle out, ?_⟩
      rw [if_neg hdigit, hprefix]
      rfl

/-- How a conversion goes on. -/
def Step.resume (memory : Memory)
    (nested : List (BitVec 8) → List Word → Printer → Option Printer) (fmt : List (BitVec 8))
    (fuel : ℕ) : Step → Option (ℕ × List Word × Printer)
  | .reswitch spec index args out => conversion memory nested fmt fuel index spec args out
  | .done index args out => some (index, args, out)

/-- One character of a conversion. -/
theorem conversion_head (hdrop : fmt.drop index = text) (hle : index ≤ fmt.length) :
    conversion memory nested fmt (fuel + 1) index spec args out =
      ((spec.reading ((text.headD 0).setWidth 32) args).bind
        (Reading.act memory nested fmt fuel (index + 1) ((text.headD 0).setWidth 32) spec args
          (out.noteFmt index))).bind (Step.resume memory nested fmt fuel) := by
  rw [conversion, readFmt_head hdrop hle, Option.bind_eq_bind, Option.bind_some]
  dsimp only
  rw [convert_reading]
  rfl

/-- What a conversion amounts to that begins at `index`, as `scan` finds it. -/
def Converts (memory : Memory) (nested : List (BitVec 8) → List Word → Printer → Option Printer)
    (fmt : List (BitVec 8)) (index room : ℕ) (out : Printer)
    (result : Option (ℕ × List Word × Printer)) : Option (Option Piece × ℕ × List Word) → Prop
  | none => result = none
  | some (some piece, count, args) =>
      ∃ left mid, room ≤ left ∧ Advances fmt out [] out.csa mid ∧
        result = (piece.print memory nested left mid).map fun printed =>
          (index + count + 1, args, printed)
  | some (none, count, args) =>
      ∃ mid, Advances fmt out [] out.csa mid ∧
        result = (backToPercent fmt (index + count) (mid.putch (chr '%'))).map fun (place, printed) =>
          (place, args, printed)

/-- Characters before a conversion. -/
theorem Converts.after {room : ℕ} {result : Option (ℕ × List Word × Printer)} {count : ℕ}
    {found : Option (Option Piece × ℕ × List Word)} (hmid : Advances fmt out [] out.csa mid)
    (hrest : Converts memory nested fmt (index + count) room mid result found) :
    Converts memory nested fmt index room out result
      (found.map fun (piece, further, args) => (piece, further + count, args)) := by
  match found with
  | none => exact hrest
  | some (some piece, further, args) =>
    obtain ⟨left, last, hroom, hlast, hresult⟩ := hrest
    refine ⟨left, last, hroom, hmid.append hlast, ?_⟩
    rw [hresult, Nat.add_assoc index, Nat.add_comm count]
  | some (none, further, args) =>
    obtain ⟨last, hlast, hresult⟩ := hrest
    refine ⟨last, hmid.append hlast, ?_⟩
    rw [hresult, Nat.add_assoc index, Nat.add_comm count]

theorem reading_nul (spec : Spec) (args : List Word) :
    spec.reading ((0 : BitVec 8).setWidth 32) args = some .unknown := rfl

/-- A conversion that begins with an unknown character. -/
theorem converts_unknown (room : ℕ) (hnote : Advances fmt out [] out.csa mid) :
    Converts memory nested fmt index room out
      (((backToPercent fmt (index + 1 - 1) (mid.putch (chr '%'))).map fun (index, out) =>
        Step.done index args out).bind (Step.resume memory nested fmt fuel))
      (some (none, 0, args)) := by
  refine ⟨mid, hnote, ?_⟩
  rw [Nat.add_sub_cancel, Nat.add_zero]
  cases backToPercent fmt index (mid.putch (chr '%')) <;> rfl

/-- A conversion whose first character is its last. -/
theorem converts_piece {room : ℕ} (hroom : room ≤ fuel) (hnote : Advances fmt out [] out.csa mid)
    (piece : Piece) :
    Converts memory nested fmt index room out
      (((piece.print memory nested fuel mid).map fun out => Step.done (index + 1) args out).bind
        (Step.resume memory nested fmt fuel)) (some (some piece, 0, args)) := by
  refine ⟨fuel, mid, hroom, hnote, ?_⟩
  rw [Nat.add_zero]
  cases piece.print memory nested fuel mid <;> rfl

/-- With enough fuel for its characters, a conversion does what `scan` finds. -/
theorem conversion_scan {room : ℕ} (hdrop : fmt.drop index = text) (hle : index ≤ fmt.length)
    (hfuel : text.length + room < fuel) :
    Converts memory nested fmt index room out
      (conversion memory nested fmt fuel index spec args out) (scan text spec args) := by
  induction text, spec, args using scan.induct generalizing index fuel out with
  | case1 spec args =>
    obtain ⟨fuel, rfl⟩ : ∃ n, fuel = n + 1 := ⟨fuel - 1, by omega⟩
    rw [scan, conversion_head hdrop hle, List.headD_nil, reading_nul,
      Option.bind_some, Reading.act]
    exact converts_unknown room (advances_noteFmt hle out)
  | case2 spec args byte text hreading =>
    obtain ⟨fuel, rfl⟩ : ∃ n, fuel = n + 1 := ⟨fuel - 1, by omega⟩
    rw [scan, conversion_head hdrop hle, List.headD_cons, hreading]
    rfl
  | case3 spec args byte text hreading digits =>
    rename_i ih
    obtain ⟨fuel, rfl⟩ : ∃ n, fuel = n + 1 := ⟨fuel - 1, by omega⟩
    rw [List.length_cons] at hfuel
    have hnext : index + 1 ≤ fmt.length := index_succ_le hdrop
    have hshort : (digitPrefix text).length ≤ text.length := (List.takeWhile_prefix _).length_le
    have hbehind : fmt.drop (index + 1 + (digitPrefix text).length) =
        text.drop (digitPrefix text).length := by
      rw [← List.drop_drop, drop_succ hdrop]
    obtain ⟨mid, hmid, hread⟩ := @readNumber_leading fmt text fuel (index + 1) (drop_succ hdrop)
      hnext (by omega) 0 (byte.setWidth 32) (out.noteFmt index)
    rw [scan, conversion_head hdrop hle, List.headD_cons, hreading, Option.bind_some, Reading.act,
      hread, Option.map_some, Option.bind_some]
    dsimp only [Step.resume]
    have hrest := @ih fuel _ mid hbehind (index_le (drop_succ hdrop) hnext hshort)
      (by rw [List.length_drop]; omega)
    have hplace : index + 1 + (digitPrefix text).length = index + ((digitPrefix text).length + 1) :=
      by omega
    rw [hplace] at hrest ⊢
    exact Converts.after ((advances_noteFmt hle out).append hmid) hrest
  | case4 spec args byte text spec' args' hreading ih =>
    obtain ⟨fuel, rfl⟩ : ∃ n, fuel = n + 1 := ⟨fuel - 1, by omega⟩
    rw [List.length_cons] at hfuel
    have hnext : index + 1 ≤ fmt.length := index_succ_le hdrop
    rw [scan, conversion_head hdrop hle, List.headD_cons, hreading]
    exact Converts.after (advances_noteFmt hle out) (ih (drop_succ hdrop) hnext (by omega))
  | case5 spec args byte text piece args' hreading =>
    obtain ⟨fuel, rfl⟩ : ∃ n, fuel = n + 1 := ⟨fuel - 1, by omega⟩
    rw [List.length_cons] at hfuel
    rw [scan, conversion_head hdrop hle, List.headD_cons, hreading, Option.bind_some, Reading.act]
    exact converts_piece (by omega) (advances_noteFmt hle out) piece
  | case6 spec args byte text hreading =>
    obtain ⟨fuel, rfl⟩ : ∃ n, fuel = n + 1 := ⟨fuel - 1, by omega⟩
    rw [scan, conversion_head hdrop hle, List.headD_cons, hreading, Option.bind_some, Reading.act]
    exact converts_unknown room (advances_noteFmt hle out)

end Scan

end OsLabs.Jos
