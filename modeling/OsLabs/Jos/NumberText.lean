import OsLabs.Core.Numerals
import OsLabs.Jos.Printfmt

/-!
# The text of numeric conversions

`printnum` pads on the left, before the first digit, with the character that
stands for the flag, and `vprintfmt` emits a minus sign before it calls
`printnum`.  So the text of a number is that of the C standard unless there is
something to pad and the flag is `-` or the number is negative.
-/

namespace OsLabs.Jos

open OsLabs.Numerals

/-! ## Conversions and their text -/

inductive NumFlag
  | none
  | minus
  | zero
  deriving DecidableEq

inductive NumKind
  | d
  | u
  | o
  | x
  deriving DecidableEq

/-- The digit character of a format. -/
def digitByte (digit : ℕ) : BitVec 8 := BitVec.ofNat 8 (48 + digit)

instance longNeZero : NeZero 3 := ⟨by decide⟩

/-- A conversion `%[-|0][width][l|ll]{d,u,o,x}` with its argument; a width of 0 is not written. -/
structure NumConversion where
  flag : NumFlag
  width : ℕ
  width_lt : width < 2 ^ 31
  long : Fin 3
  kind : NumKind
  low : Word
  high : Word

namespace NumConversion

/-- The words on the argument list. -/
def args (c : NumConversion) : List Word := if c.long = 2 then [c.low, c.high] else [c.low]

/-- The value of the argument at its type. -/
def value (c : NumConversion) : ℤ :=
  match c.kind with
  | .d => if c.long = 2 then (c.high ++ c.low).toInt else c.low.toInt
  | _ => if c.long = 2 then (c.high ++ c.low).toNat else c.low.toNat

def base (c : NumConversion) : ℕ :=
  match c.kind with
  | .d | .u => 10
  | .o => 8
  | .x => 16

def flagText (c : NumConversion) : List (BitVec 8) :=
  match c.flag with
  | .none => []
  | .minus => text "-"
  | .zero => text "0"

def widthText (c : NumConversion) : List (BitVec 8) :=
  if c.width = 0 then [] else (numeral 10 c.width).map digitByte

def kindChar (c : NumConversion) : Char :=
  match c.kind with
  | .d => 'd'
  | .u => 'u'
  | .o => 'o'
  | .x => 'x'

/-- The conversion behind its `%`. -/
def spec (c : NumConversion) : List (BitVec 8) :=
  c.flagText ++ (c.widthText ++ (List.replicate c.long (BitVec.ofNat 8 'l'.toNat) ++
    [BitVec.ofNat 8 c.kindChar.toNat]))

def signText (c : NumConversion) : List Word := if c.value < 0 then [chr '-'] else []

def digitText (c : NumConversion) : List Word := (numeral c.base c.value.natAbs).map digitChar

/-- The text that the C standard demands. -/
def standard (c : NumConversion) : List Word :=
  let room := c.width - (c.signText ++ c.digitText).length
  match c.flag with
  | .none => List.replicate room (chr ' ') ++ (c.signText ++ c.digitText)
  | .zero => c.signText ++ (List.replicate room (chr '0') ++ c.digitText)
  | .minus => c.signText ++ c.digitText ++ List.replicate room (chr ' ')

/-- `vprintfmt` emits the standard text for the conversion, in any format. -/
def PrintsRight (c : NumConversion) : Prop :=
  ∀ (memory : Memory) (fmt after : List (BitVec 8)) (index : ℕ) (rest : List Word) (out : Printer)
    (fuel : ℕ), fmt.drop index = BitVec.ofNat 8 '%'.toNat :: (c.spec ++ after) →
      c.spec.length ≤ fuel →
      ∃ printed : Printer, printed.chars = out.chars ++ c.standard.map (fun ch => (ch, out.csa)) ∧
        printed.csa = out.csa ∧
        vprintfmt memory (fuel + 1) fmt index (c.args ++ rest) out =
          vprintfmt memory fuel fmt (index + 1 + c.spec.length) rest printed

/-- The pad character of the flag. -/
def padc (c : NumConversion) : Word :=
  match c.flag with
  | .none => chr ' '
  | .minus => chr '-'
  | .zero => chr '0'

/-- The text that the code emits. -/
def emitted (c : NumConversion) : List Word :=
  c.signText ++ (List.replicate (c.width - c.digitText.length) c.padc ++ c.digitText)

end NumConversion

/-! ## Padding and digits -/

/-- A character of the output, in a `char` array. -/
def charByte (ch : Word) : BitVec 8 := ch.setWidth 8

/-- The text that a run has emitted. -/
def Printer.emittedText (out : Printer) : List (BitVec 8) := out.chars.map fun c => charByte c.1

/-- `printed` has emitted `chars` after `out`, in its colour. -/
structure Emits (out : Printer) (chars : List Word) (printed : Printer) : Prop where
  chars : printed.chars = out.chars ++ chars.map fun ch => (ch, out.csa)
  csa : printed.csa = out.csa

section Emitting

variable {out mid printed : Printer}

theorem Emits.refl (out : Printer) : Emits out [] out :=
  ⟨by simp, rfl⟩

theorem Emits.trans {first second : List Word} (hfirst : Emits out first mid)
    (hsecond : Emits mid second printed) : Emits out (first ++ second) printed where
  chars := by
    rw [hsecond.chars, hfirst.chars, hfirst.csa, List.map_append, List.append_assoc]
  csa := hsecond.csa.trans hfirst.csa

theorem emits_putch (out : Printer) (ch : Word) : Emits out [ch] (out.putch ch) :=
  ⟨rfl, rfl⟩

theorem emits_noteFmt (out : Printer) (index : ℕ) : Emits out [] (out.noteFmt index) :=
  ⟨by simp [Printer.noteFmt], rfl⟩

theorem emits_putchs (out : Printer) (ch : Word) (count : ℕ) :
    Emits out (List.replicate count ch) (out.putchs ch count) := by
  induction count generalizing out with
  | zero => exact Emits.refl out
  | succ count ih => exact (emits_putch out ch).trans (ih _)

/-- `printnum` pads up to the width, as far as an `int` holds what is left of it, and then writes
the number. -/
theorem emits_printnum_wrapped {base : ℕ} (hbase : 1 < base) (num : ℕ) (out : Printer)
    (width padc : Word) :
    Emits out (List.replicate (timesAbove (width - BitVec.ofNat 32 (numeral base num).length)) padc ++
      (numeral base num).map digitChar) (printnum out num base width padc) := by
  induction num using Nat.strong_induction_on generalizing width with
  | _ num ih =>
    rw [printnum]
    by_cases hle : base ≤ num
    · have hbefore := ih (num / base) (Nat.div_lt_self (by omega) hbase) (width - 1)
      have happend := numeral_append hbase hle
      have hroom : width - BitVec.ofNat 32 (numeral base num).length =
          width - 1 - BitVec.ofNat 32 (numeral base (num / base)).length := by
        rw [happend, List.length_append, List.length_singleton, BitVec.ofNat_add, sub_sub]
        exact congrArg (width - ·) (add_comm _ _)
      rw [dif_pos ⟨hbase, hle⟩, hroom, happend, List.map_append, ← List.append_assoc]
      exact hbefore.trans (emits_putch _ _)
    · have hlt := not_le.mp hle
      rw [dif_neg fun hboth => hle hboth.2, numeral_of_lt hlt, Nat.mod_eq_of_lt hlt]
      exact (emits_putchs out padc _).trans (emits_putch _ _)

theorem toInt_sub_ofNat {width : Word} {count : ℕ} (hlow : -2 ^ 31 + count ≤ width.toInt) :
    (width - BitVec.ofNat 32 count).toInt = width.toInt - count := by
  have hlt := width.isLt
  rw [BitVec.toInt_eq_toNat_cond] at hlow ⊢
  rw [BitVec.toInt_eq_toNat_cond, BitVec.toNat_sub, BitVec.toNat_ofNat]
  split at hlow <;> split <;> omega

/-- `printnum` pads up to the width and then writes the number. -/
theorem emits_printnum {base : ℕ} (hbase : 1 < base) (num : ℕ) (out : Printer) (width padc : Word)
    (hroom : -2 ^ 31 + (numeral base num).length ≤ width.toInt) :
    Emits out (List.replicate (width.toInt - (numeral base num).length).toNat padc ++
      (numeral base num).map digitChar) (printnum out num base width padc) := by
  have hprint := emits_printnum_wrapped hbase num out width padc
  rwa [timesAbove, toInt_sub_ofNat (by exact_mod_cast hroom)] at hprint

end Emitting

/-! ## Reading the conversion -/

section Reading

variable {memory : Memory} {fmt rest : List (BitVec 8)}
variable {nested : List (BitVec 8) → List Word → Printer → Option Printer}
variable {index fuel : ℕ} {byte : BitVec 8} {spec : Spec} {args : List Word} {out : Printer}

theorem drop_succ (hdrop : fmt.drop index = byte :: rest) : fmt.drop (index + 1) = rest := by
  rw [← List.drop_drop, hdrop, List.drop_one, List.tail_cons]

theorem readFmt_of_drop (hdrop : fmt.drop index = byte :: rest) (out : Printer) :
    out.readFmt fmt index = some (byte.setWidth 32, out.noteFmt index) := by
  have hlt : index < fmt.length := by
    by_contra hge
    rw [List.drop_eq_nil_of_le (not_lt.mp hge)] at hdrop
    cases hdrop
  have hbyte : fmt[index]? = some byte := by
    rw [List.getElem?_eq_getElem hlt]
    rw [List.drop_eq_getElem_cons hlt] at hdrop
    exact congrArg some (List.cons.inj hdrop).1
  rw [Printer.readFmt, fetch, if_neg hlt.ne, hbyte]
  rfl

/-- A character that leads on to the next one. -/
theorem conversion_next {spec' : Spec} (hdrop : fmt.drop index = byte :: rest)
    (hconvert : convert memory nested fmt fuel (index + 1) (byte.setWidth 32) spec args
      (out.noteFmt index) = some (.reswitch spec' (index + 1) args (out.noteFmt index))) :
    conversion memory nested fmt (fuel + 1) index spec args out =
      conversion memory nested fmt fuel (index + 1) spec' args (out.noteFmt index) := by
  rw [conversion, readFmt_of_drop hdrop, Option.bind_eq_bind, Option.bind_some]
  dsimp only
  rw [hconvert]
  rfl

theorem isDigit_digitByte {digit : ℕ} (hlt : digit < 10) :
    isDigit ((digitByte digit).setWidth 32) = true := by
  interval_cases digit <;> rfl

theorem digitByte_value {digit : ℕ} (hlt : digit < 10) (value : ℕ) :
    BitVec.ofNat 32 value * 10 + (digitByte digit).setWidth 32 - chr '0' =
      BitVec.ofNat 32 (value * 10 + digit) := by
  have hbyte : ((digitByte digit).setWidth 32 : Word).toNat = 48 + digit := by
    rw [BitVec.toNat_setWidth, digitByte, BitVec.toNat_ofNat]
    omega
  have hzero : (chr '0').toNat = 48 := rfl
  apply BitVec.eq_of_toNat_eq
  rw [BitVec.toNat_sub, BitVec.toNat_add, BitVec.toNat_mul, hbyte, hzero, BitVec.toNat_ofNat,
    BitVec.toNat_ofNat, show (10 : Word).toNat = 10 from rfl]
  omega

/-- The digits of a width are read up to the next character. -/
theorem readNumber_digits {digits : List ℕ} {digit value : ℕ}
    (hdigits : ∀ d ∈ digits, d < 10) (hdigit : digit < 10)
    (hdrop : fmt.drop index = digits.map digitByte ++ byte :: rest)
    (hend : isDigit (byte.setWidth 32) = false) (out : Printer) :
    ∃ mid, Emits out [] mid ∧ ∀ fuel, digits.length < fuel →
      readNumber fmt fuel index (BitVec.ofNat 32 value) ((digitByte digit).setWidth 32) out =
        some (BitVec.ofNat 32 (readDigits 10 value (digit :: digits)), index + digits.length,
          mid) := by
  induction digits generalizing digit value index out with
  | nil =>
    refine ⟨_, emits_noteFmt out index, fun fuel hfuel => ?_⟩
    obtain ⟨fuel, rfl⟩ : ∃ n, fuel = n + 1 := ⟨fuel - 1, by omega⟩
    rw [readNumber, digitByte_value hdigit, readFmt_of_drop hdrop, Option.bind_eq_bind,
      Option.bind_some]
    dsimp only
    rw [hend]
    rfl
  | cons next digits ih =>
    have hnext : next < 10 := hdigits next List.mem_cons_self
    obtain ⟨mid, hmid, hread⟩ := @ih (index + 1) next (value * 10 + digit)
      (fun d hd => hdigits d (List.mem_cons_of_mem _ hd)) hnext (drop_succ hdrop)
      (out.noteFmt index)
    refine ⟨mid, (emits_noteFmt out index).trans hmid, fun fuel hfuel => ?_⟩
    rw [List.length_cons] at hfuel ⊢
    obtain ⟨fuel, rfl⟩ : ∃ n, fuel = n + 1 := ⟨fuel - 1, by omega⟩
    rw [readNumber, digitByte_value hdigit, readFmt_of_drop hdrop, Option.bind_eq_bind,
      Option.bind_some]
    dsimp only
    rw [isDigit_digitByte hnext, if_pos rfl, hread fuel (by omega), Nat.add_right_comm,
      Nat.add_assoc]
    rfl

/-- The conversion goes on `count` characters further, and emits nothing on the way. -/
def GoesTo (memory : Memory) (nested : List (BitVec 8) → List Word → Printer → Option Printer)
    (fmt : List (BitVec 8)) (args : List Word) (index count : ℕ) (spec spec' : Spec)
    (out mid : Printer) : Prop :=
  Emits out [] mid ∧ ∀ fuel, count < fuel → ∃ left, fuel ≤ left + count ∧
    conversion memory nested fmt fuel index spec args out =
      conversion memory nested fmt left (index + count) spec' args mid

theorem GoesTo.refl (index : ℕ) (spec : Spec) (out : Printer) :
    GoesTo memory nested fmt args index 0 spec spec out out :=
  ⟨Emits.refl out, fun fuel _ => ⟨fuel, le_rfl, rfl⟩⟩

theorem GoesTo.trans {first second : ℕ} {spec₁ spec₂ spec₃ : Spec} {out₁ out₂ out₃ : Printer}
    (hfirst : GoesTo memory nested fmt args index first spec₁ spec₂ out₁ out₂)
    (hsecond : GoesTo memory nested fmt args (index + first) second spec₂ spec₃ out₂ out₃) :
    GoesTo memory nested fmt args index (first + second) spec₁ spec₃ out₁ out₃ := by
  refine ⟨hfirst.1.trans hsecond.1, fun fuel hfuel => ?_⟩
  obtain ⟨mid, hmid, hthere⟩ := hfirst.2 fuel (by omega)
  obtain ⟨left, hleft, hend⟩ := hsecond.2 mid (by omega)
  refine ⟨left, by omega, ?_⟩
  rw [hthere, hend, Nat.add_assoc]

theorem goesTo_next {spec' : Spec} (hdrop : fmt.drop index = byte :: rest)
    (hconvert : ∀ fuel out, convert memory nested fmt fuel (index + 1) (byte.setWidth 32) spec args
      out = some (.reswitch spec' (index + 1) args out)) (out : Printer) :
    GoesTo memory nested fmt args index 1 spec spec' out (out.noteFmt index) := by
  refine ⟨emits_noteFmt out index, fun fuel hfuel => ?_⟩
  obtain ⟨fuel, rfl⟩ : ∃ n, fuel = n + 1 := ⟨fuel - 1, by omega⟩
  exact ⟨fuel, le_rfl, conversion_next hdrop (hconvert fuel _)⟩

theorem drop_append_length {first rest : List (BitVec 8)} (hdrop : fmt.drop index = first ++ rest) :
    fmt.drop (index + first.length) = rest := by
  rw [← List.drop_drop, hdrop, List.drop_left]

/-! ### Flag, width and length -/

theorem goesTo_flag (c : NumConversion) (hdrop : fmt.drop index = c.flagText ++ rest)
    (out : Printer) :
    ∃ mid, GoesTo memory nested fmt args index c.flagText.length Spec.start
      { Spec.start with padc := c.padc } out mid := by
  rw [NumConversion.flagText] at hdrop ⊢
  rw [NumConversion.padc]
  cases hflag : c.flag with
  | none => exact ⟨out, GoesTo.refl index _ out⟩
  | minus =>
    rw [hflag] at hdrop
    exact ⟨_, goesTo_next hdrop (fun _ _ => rfl) out⟩
  | zero =>
    rw [hflag] at hdrop
    exact ⟨_, goesTo_next hdrop (fun _ _ => rfl) out⟩

/-- The width as the code keeps it. -/
def NumConversion.widthWord (c : NumConversion) : Word :=
  if c.width = 0 then -1 else BitVec.ofNat 32 c.width

/-- A digit that begins a width. -/
theorem convert_digit {digit : ℕ} (hlt : digit < 10) (hne : digit ≠ 0) :
    convert memory nested fmt fuel index ((digitByte digit).setWidth 32) spec args out =
      (readNumber fmt fuel index 0 ((digitByte digit).setWidth 32) out).map
        fun (precision, index, out) =>
          .reswitch { spec with precision := precision }.processPrecision index args out := by
  have hminus : (digitByte digit).setWidth 32 ≠ chr '-' := by
    interval_cases digit <;> decide
  have hzero : (digitByte digit).setWidth 32 ≠ chr '0' := by
    interval_cases digit
    · exact absurd rfl hne
    all_goals decide
  rw [convert.eq_def, if_neg hminus, if_neg hzero, if_pos (isDigit_digitByte hlt)]
  cases readNumber fmt fuel index 0 ((digitByte digit).setWidth 32) out <;> rfl

theorem goesTo_width (c : NumConversion) (padc : Word)
    (hdrop : fmt.drop index = c.widthText ++ byte :: rest)
    (hend : isDigit (byte.setWidth 32) = false) (out : Printer) :
    ∃ mid, GoesTo memory nested fmt args index c.widthText.length { Spec.start with padc := padc }
      { Spec.start with padc := padc, width := c.widthWord } out mid := by
  rw [NumConversion.widthText] at hdrop ⊢
  rw [NumConversion.widthWord]
  by_cases hzero : c.width = 0
  · rw [if_pos hzero, if_pos hzero]
    exact ⟨out, GoesTo.refl index _ out⟩
  · rw [if_neg hzero] at hdrop
    rw [if_neg hzero, if_neg hzero]
    obtain ⟨first, digits, hnumeral, hfirst⟩ := @numeral_head 10 _ (Nat.pos_of_ne_zero hzero)
    have hdigits : ∀ d ∈ numeral 10 c.width, d < 10 := fun d hd => numeral_lt (by decide) hd
    have hvalue := readDigits_numeral 10 c.width
    rw [hnumeral] at hdrop hdigits hvalue ⊢
    have hten : first < 10 := hdigits first List.mem_cons_self
    obtain ⟨mid, hmid, hread⟩ := @readNumber_digits fmt rest (index + 1) byte digits first 0
      (fun d hd => hdigits d (List.mem_cons_of_mem _ hd)) hten (drop_succ hdrop) hend
      (out.noteFmt index)
    refine ⟨mid, (emits_noteFmt out index).trans hmid, fun fuel hfuel => ?_⟩
    rw [List.length_map, List.length_cons] at hfuel ⊢
    obtain ⟨fuel, rfl⟩ : ∃ n, fuel = n + 1 := ⟨fuel - 1, by omega⟩
    have hnumber := hread fuel (by omega)
    rw [hvalue, show BitVec.ofNat 32 0 = (0 : Word) from rfl] at hnumber
    refine ⟨fuel, by omega, ?_⟩
    rw [conversion, readFmt_of_drop hdrop, Option.bind_eq_bind, Option.bind_some]
    dsimp only
    rw [convert_digit hten hfirst, hnumber, Nat.add_assoc, Nat.add_comm 1]
    rfl

theorem goesTo_long (padc width : Word) (count lflag : ℕ)
    (hdrop : fmt.drop index = List.replicate count (BitVec.ofNat 8 'l'.toNat) ++ rest)
    (out : Printer) :
    ∃ mid, GoesTo memory nested fmt args index count ⟨padc, width, -1, lflag, false⟩
      ⟨padc, width, -1, lflag + count, false⟩ out mid := by
  induction count generalizing index lflag out with
  | zero => exact ⟨out, GoesTo.refl index _ out⟩
  | succ count ih =>
    obtain ⟨mid, hmid⟩ := ih (lflag + 1) (drop_succ hdrop) (out.noteFmt index)
    have hfirst : GoesTo memory nested fmt args index 1 ⟨padc, width, -1, lflag, false⟩
        ⟨padc, width, -1, lflag + 1, false⟩ out (out.noteFmt index) :=
      goesTo_next hdrop (fun _ _ => rfl) out
    have hboth := hfirst.trans hmid
    rw [Nat.add_comm 1 count, Nat.add_assoc, Nat.add_comm 1 count] at hboth
    exact ⟨mid, hboth⟩

/-! ### The number -/

theorem getint_args (c : NumConversion) (rest : List Word) :
    getint (c.args ++ rest) c.long =
      some (if c.long = 2 then c.high ++ c.low else c.low.signExtend 64, rest) := by
  rw [NumConversion.args]
  by_cases hlong : c.long = 2
  · rw [if_pos hlong, if_pos hlong, hlong]
    rfl
  · have hshort : ¬ 2 ≤ (c.long : ℕ) := by omega
    rw [if_neg hlong, if_neg hlong]
    cases rest <;> exact if_neg hshort

theorem getuint_args (c : NumConversion) (rest : List Word) :
    getuint (c.args ++ rest) c.long =
      some (if c.long = 2 then c.high ++ c.low else c.low.setWidth 64, rest) := by
  rw [NumConversion.args]
  by_cases hlong : c.long = 2
  · rw [if_pos hlong, if_pos hlong, hlong]
    rfl
  · have hshort : ¬ 2 ≤ (c.long : ℕ) := by omega
    rw [if_neg hlong, if_neg hlong]
    cases rest <;> exact if_neg hshort

theorem NumConversion.base_gt (c : NumConversion) : 1 < c.base := by
  rw [base]
  cases c.kind <;> decide

theorem NumConversion.toInt_widthWord (c : NumConversion) (len : ℕ) :
    (c.widthWord.toInt - len).toNat = c.width - len ∧ -1 ≤ c.widthWord.toInt := by
  have hlt := c.width_lt
  rw [widthWord]
  by_cases hzero : c.width = 0
  · rw [if_pos hzero, show (-1 : Word).toInt = -1 by decide]
    omega
  · have hint : (BitVec.ofNat 32 c.width).toInt = c.width := by
      rw [BitVec.toInt_eq_toNat_cond, BitVec.toNat_ofNat]
      split <;> omega
    rw [if_neg hzero, hint]
    omega

/-- The specification that the number is printed with. -/
def NumConversion.read (c : NumConversion) : Spec := ⟨c.padc, c.widthWord, -1, c.long, false⟩

theorem emits_printNumber (c : NumConversion) {num : BitVec 64}
    (hnum : num.toNat = c.value.natAbs) (out : Printer) :
    Emits out (List.replicate (c.width - c.digitText.length) c.padc ++ c.digitText)
      (printNumber c.read out num c.base) := by
  have hbase := c.base_gt
  have hlen : (numeral c.base num.toNat).length ≤ 64 :=
    length_numeral_le hbase (by decide)
      (num.isLt.trans_le (Nat.pow_le_pow_left hbase 64))
  obtain ⟨hpads, hlow⟩ := c.toInt_widthWord (numeral c.base num.toNat).length
  have hprint := emits_printnum hbase num.toNat out c.widthWord c.padc (by omega)
  rw [hpads, hnum] at hprint
  rw [NumConversion.digitText, List.length_map, printNumber, hnum]
  exact hprint

theorem emits_number (c : NumConversion) (rest : List Word) (out : Printer) :
    ∃ printed, Emits out c.emitted printed ∧ ∀ fuel index,
      convert memory nested fmt fuel index ((BitVec.ofNat 8 c.kindChar.toNat).setWidth 32) c.read
        (c.args ++ rest) out = some (.done index rest printed) := by
  have hunsigned (hkind : c.kind ≠ .d) :
      Emits out c.emitted (printNumber c.read out
        (if c.long = 2 then c.high ++ c.low else c.low.setWidth 64) c.base) := by
    have hvalue : c.value =
        ((if c.long = 2 then c.high ++ c.low else c.low.setWidth 64 : BitVec 64)).toNat := by
      rw [NumConversion.value]
      split
      case h_1 hd => exact absurd hd hkind
      case h_2 =>
        by_cases hlong : c.long = 2
        · rw [if_pos hlong, if_pos hlong]
        · rw [if_neg hlong, if_neg hlong, BitVec.toNat_setWidth_of_le (by decide)]
    have hsign : c.signText = [] := by
      rw [NumConversion.signText, if_neg (by omega)]
    rw [NumConversion.emitted, hsign, List.nil_append]
    exact emits_printNumber c (by rw [hvalue, Int.natAbs_natCast]) out
  cases hkind : c.kind with
  | d =>
    obtain ⟨num, hnum⟩ : ∃ num, num = if c.long = 2 then c.high ++ c.low else c.low.signExtend 64 :=
      ⟨_, rfl⟩
    have hvalue : c.value = num.toInt := by
      rw [NumConversion.value, hkind, hnum]
      by_cases hlong : c.long = 2
      · simp only [if_pos hlong]
      · simp only [if_neg hlong]
        exact (BitVec.toInt_signExtend_of_le (by decide)).symm
    have hconvert (fuel index : ℕ) :
        convert memory nested fmt fuel index ((BitVec.ofNat 8 c.kindChar.toNat).setWidth 32) c.read
          (c.args ++ rest) out =
        if num.slt 0 then
          some (.done index rest (printNumber c.read (out.putch (chr '-')) (-num) c.base))
        else some (.done index rest (printNumber c.read out num c.base)) := by
      have hconvert : convert memory nested fmt fuel index (chr 'd') c.read (c.args ++ rest) out =
          (getint (c.args ++ rest) c.long).bind fun taken =>
            if taken.1.slt 0 then
              some (.done index taken.2 (printNumber c.read (out.putch (chr '-')) (-taken.1) 10))
            else some (.done index taken.2 (printNumber c.read out taken.1 10)) := rfl
      rw [getint_args, ← hnum, Option.bind_some] at hconvert
      rw [NumConversion.kindChar, NumConversion.base, hkind]
      exact hconvert
    rw [NumConversion.emitted, NumConversion.signText, hvalue]
    by_cases hneg : num.toInt < 0
    · have hslt : num.slt 0 = true := BitVec.slt_iff_toInt_lt.mpr hneg
      have hmagnitude : (-num).toNat = c.value.natAbs := by
        have hlt := num.isLt
        rw [hvalue, BitVec.toNat_neg]
        rw [BitVec.toInt_eq_toNat_cond] at hneg ⊢
        split at hneg <;> omega
      refine ⟨_, ?_, fun fuel index => (hconvert fuel index).trans (if_pos hslt)⟩
      rw [if_pos hneg]
      exact (emits_putch out _).trans (emits_printNumber c hmagnitude _)
    · have hslt : ¬ num.slt 0 = true := fun hslt => hneg (BitVec.slt_iff_toInt_lt.mp hslt)
      have hmagnitude : num.toNat = c.value.natAbs := by
        rw [hvalue]
        rw [BitVec.toInt_eq_toNat_cond] at hneg ⊢
        split at hneg <;> omega
      refine ⟨_, ?_, fun fuel index => (hconvert fuel index).trans (if_neg hslt)⟩
      rw [if_neg hneg, List.nil_append]
      exact emits_printNumber c hmagnitude out
  | u =>
    refine ⟨_, hunsigned (by rw [hkind]; decide), fun fuel index => ?_⟩
    have hconvert : convert memory nested fmt fuel index (chr 'u') c.read (c.args ++ rest) out =
        (getuint (c.args ++ rest) c.long).bind fun taken =>
          some (.done index taken.2 (printNumber c.read out taken.1 10)) := rfl
    rw [NumConversion.kindChar, NumConversion.base, hkind]
    exact hconvert.trans (by rw [getuint_args]; rfl)
  | o =>
    refine ⟨_, hunsigned (by rw [hkind]; decide), fun fuel index => ?_⟩
    have hconvert : convert memory nested fmt fuel index (chr 'o') c.read (c.args ++ rest) out =
        (getuint (c.args ++ rest) c.long).bind fun taken =>
          some (.done index taken.2 (printNumber c.read out taken.1 8)) := rfl
    rw [NumConversion.kindChar, NumConversion.base, hkind]
    exact hconvert.trans (by rw [getuint_args]; rfl)
  | x =>
    refine ⟨_, hunsigned (by rw [hkind]; decide), fun fuel index => ?_⟩
    have hconvert : convert memory nested fmt fuel index (chr 'x') c.read (c.args ++ rest) out =
        (getuint (c.args ++ rest) c.long).bind fun taken =>
          some (.done index taken.2 (printNumber c.read out taken.1 16)) := rfl
    rw [NumConversion.kindChar, NumConversion.base, hkind]
    exact hconvert.trans (by rw [getuint_args]; rfl)

/-- The character behind the width is no digit. -/
theorem spec_behind_width (c : NumConversion) (after : List (BitVec 8)) :
    ∃ byte behind, List.replicate c.long (BitVec.ofNat 8 'l'.toNat) ++
        BitVec.ofNat 8 c.kindChar.toNat :: after = byte :: behind ∧
      isDigit (byte.setWidth 32) = false := by
  cases hlong : (c.long : ℕ) with
  | zero =>
    refine ⟨_, _, rfl, ?_⟩
    rw [NumConversion.kindChar]
    cases c.kind <;> rfl
  | succ long => exact ⟨_, _, rfl, rfl⟩

/-- A conversion emits its text, wherever it stands. -/
theorem conversion_number (c : NumConversion) {after : List (BitVec 8)}
    (hdrop : fmt.drop index = c.spec ++ after) (rest : List Word) (out : Printer) :
    ∃ printed, Emits out c.emitted printed ∧ ∀ fuel, c.spec.length ≤ fuel →
      conversion memory nested fmt fuel index Spec.start (c.args ++ rest) out =
        some (index + c.spec.length, rest, printed) := by
  have hspec : c.spec.length = c.flagText.length + (c.widthText.length + c.long) + 1 := by
    rw [NumConversion.spec, List.length_append, List.length_append, List.length_append,
      List.length_replicate, List.length_singleton]
    omega
  have hflagDrop : fmt.drop index = c.flagText ++ (c.widthText ++
      (List.replicate c.long (BitVec.ofNat 8 'l'.toNat) ++
        BitVec.ofNat 8 c.kindChar.toNat :: after)) := by
    rw [hdrop, NumConversion.spec]
    simp only [List.append_assoc, List.cons_append, List.nil_append]
  obtain ⟨byte, behind, hbehind, hend⟩ := spec_behind_width c after
  have hwidthDrop := drop_append_length hflagDrop
  have hlongDrop := drop_append_length hwidthDrop
  have hkindDrop := drop_append_length hlongDrop
  rw [List.length_replicate] at hkindDrop
  obtain ⟨mid₁, hflag⟩ := @goesTo_flag memory fmt _ nested index (c.args ++ rest) c hflagDrop out
  obtain ⟨mid₂, hwidth⟩ := @goesTo_width memory fmt behind nested _ byte (c.args ++ rest) c c.padc
    (hbehind ▸ hwidthDrop) hend mid₁
  obtain ⟨mid₃, hlong⟩ := @goesTo_long memory fmt _ nested _ (c.args ++ rest) c.padc c.widthWord
    c.long 0 hlongDrop mid₂
  rw [Nat.zero_add] at hlong
  have hall := hflag.trans (hwidth.trans hlong)
  obtain ⟨printed, hprinted, hconvert⟩ := @emits_number memory fmt nested c rest
    (mid₃.noteFmt (index + (c.flagText.length + (c.widthText.length + c.long))))
  refine ⟨printed, hall.1.trans ((emits_noteFmt mid₃ _).trans hprinted), fun fuel hfuel => ?_⟩
  obtain ⟨left, hleft, hthere⟩ := hall.2 fuel (by omega)
  obtain ⟨left, rfl⟩ : ∃ n, left = n + 1 := ⟨left - 1, by omega⟩
  have hplace : index + c.flagText.length + c.widthText.length + c.long =
      index + (c.flagText.length + (c.widthText.length + c.long)) := by omega
  rw [hplace] at hkindDrop
  rw [hthere, conversion, readFmt_of_drop hkindDrop, Option.bind_eq_bind, Option.bind_some]
  dsimp only
  have hdone := hconvert left (index + (c.flagText.length + (c.widthText.length + c.long)) + 1)
  rw [NumConversion.read] at hdone
  rw [hdone, hspec]
  rfl

/-- The `%` of a conversion. -/
theorem vprintfmt_conversion (hdrop : fmt.drop index = BitVec.ofNat 8 '%'.toNat :: rest) :
    vprintfmt memory (fuel + 1) fmt index args out =
      (conversion memory (fun fmt args out => vprintfmt memory fuel fmt 0 args out) fmt fuel
        (index + 1) Spec.start args (out.noteFmt index)).bind fun (index, args, out) =>
          vprintfmt memory fuel fmt index args out := by
  rw [vprintfmt, readFmt_of_drop hdrop, Option.bind_eq_bind, Option.bind_some]
  dsimp only
  rw [if_neg (by decide), if_neg (by decide)]
  rfl

/-- The `%` of a conversion that is done. -/
theorem vprintfmt_percent {index' : ℕ} {rest' : List Word} {printed : Printer}
    (hdrop : fmt.drop index = BitVec.ofNat 8 '%'.toNat :: rest)
    (hconversion : conversion memory (fun fmt args out => vprintfmt memory fuel fmt 0 args out) fmt
      fuel (index + 1) Spec.start args (out.noteFmt index) = some (index', rest', printed)) :
    vprintfmt memory (fuel + 1) fmt index args out =
      vprintfmt memory fuel fmt index' rest' printed := by
  rw [vprintfmt_conversion hdrop, hconversion, Option.bind_some]

/-- The end of the format. -/
theorem vprintfmt_end (fmt : List (BitVec 8)) (args : List Word) (out : Printer) :
    vprintfmt memory (fuel + 1) fmt fmt.length args out =
      some { out.noteFmt fmt.length with csa := 0x0700 } := by
  have hend : vprintfmt memory (fuel + 1) fmt fmt.length args out =
      (out.readFmt fmt fmt.length).bind fun read =>
        if read.1 = 0 then some { read.2 with csa := 0x0700 }
        else if read.1 ≠ chr '%' then
          vprintfmt memory fuel fmt (fmt.length + 1) args (read.2.putch read.1)
        else
          (conversion memory (fun fmt args out => vprintfmt memory fuel fmt 0 args out) fmt fuel
            (fmt.length + 1) Spec.start args read.2).bind fun converted =>
              vprintfmt memory fuel fmt converted.1 converted.2.1 converted.2.2 := rfl
  have hread : out.readFmt fmt fmt.length = some (0, out.noteFmt fmt.length) := by
    rw [Printer.readFmt, fetch, if_pos rfl]
    rfl
  rw [hend, hread]
  rfl

end Reading

/-! ## Where the text is right -/

section Right

variable (c : NumConversion)

theorem NumConversion.printsRight_iff_emitted : c.PrintsRight ↔ c.emitted = c.standard := by
  constructor
  · intro hright
    -- the conversion alone, up to the end of its format
    have hdrop : (BitVec.ofNat 8 '%'.toNat :: c.spec).drop 0 =
        BitVec.ofNat 8 '%'.toNat :: (c.spec ++ []) := by rw [List.append_nil, List.drop_zero]
    have hlen : (BitVec.ofNat 8 '%'.toNat :: c.spec).length = 0 + 1 + c.spec.length := by
      rw [List.length_cons, Nat.add_comm, Nat.zero_add]
    obtain ⟨promised, hchars, -, hpromised⟩ :=
      hright (fun _ => none) _ [] 0 [] (Printer.start 0) _ hdrop (Nat.le_succ _)
    obtain ⟨printed, hprinted, hconversion⟩ := @conversion_number (fun _ => none) _
      (fun fmt args out => vprintfmt (fun _ => none) (c.spec.length + 1) fmt 0 args out) _ c []
      (drop_succ hdrop) [] ((Printer.start 0).noteFmt 0)
    have hrun := vprintfmt_percent hdrop (hconversion _ (Nat.le_succ _))
    rw [hrun, ← hlen, vprintfmt_end, vprintfmt_end] at hpromised
    have hsame : printed.chars = promised.chars :=
      congrArg (fun run : Option Printer => run.elim [] Printer.chars) hpromised
    rw [hprinted.chars, hchars] at hsame
    have hmap := List.append_cancel_left hsame
    exact List.map_injective_iff.mpr (fun _ _ h => congrArg Prod.fst h) hmap
  · intro hsame memory fmt after index rest out fuel hdrop hfuel
    obtain ⟨printed, hprinted, hconversion⟩ := @conversion_number memory fmt
      (fun fmt args out => vprintfmt memory fuel fmt 0 args out) (index + 1) c after
      (drop_succ hdrop) rest (out.noteFmt index)
    refine ⟨printed, ?_, hprinted.csa, vprintfmt_percent hdrop (hconversion fuel hfuel)⟩
    rw [hprinted.chars, hsame]
    rfl

/-- Numbers have no minus sign among their digits. -/
theorem NumConversion.digitText_ne_minus {ch : Word} (hch : ch ∈ c.digitText) : ch ≠ chr '-' := by
  obtain ⟨digit, hdigit, rfl⟩ := List.mem_map.mp hch
  have hlt := numeral_lt c.base_gt hdigit
  have hbase : c.base ≤ 16 := by
    rw [base]
    cases c.kind <;> decide
  have hdigit : digit < 16 := hlt.trans_le hbase
  interval_cases digit <;> decide

theorem NumConversion.emitted_eq_standard_iff : c.emitted = c.standard ↔
    c.width ≤ c.digitText.length ∨ c.flag ≠ .minus ∧ 0 ≤ c.value := by
  rw [emitted, standard, padc]
  by_cases hfits : c.width ≤ c.digitText.length
  · -- nothing to pad, with the sign or without
    have hroom : c.width - c.digitText.length = 0 := by omega
    have hsigned : c.width - (c.signText ++ c.digitText).length = 0 := by
      rw [List.length_append]
      omega
    rw [hroom, hsigned]
    cases c.flag <;> simp [hfits]
  · by_cases hneg : c.value < 0
    · -- the sign does not count
      have hsign : c.signText = [chr '-'] := if_pos hneg
      refine iff_of_false (fun hsame => ?_) (by omega)
      have hlength := congrArg List.length hsame
      rw [hsign] at hlength
      cases hflag : c.flag <;> simp [hflag] at hlength <;> omega
    · have hsign : c.signText = [] := if_neg hneg
      rw [hsign]
      cases hflag : c.flag with
      | none => simp [not_lt.mp hneg]
      | zero => simp [not_lt.mp hneg]
      | minus =>
        -- the text begins with a digit and not with a pad character
        refine iff_of_false (fun hsame => ?_) (by simp [hfits])
        obtain ⟨room, hroom⟩ : ∃ room, c.width - c.digitText.length = room + 1 :=
          ⟨c.width - c.digitText.length - 1, by omega⟩
        have hdigits : 0 < c.digitText.length := by
          rw [digitText, List.length_map]
          exact length_numeral_pos _ _
        obtain ⟨first, digits, hfirst⟩ := List.exists_cons_of_length_pos hdigits
        have hmem : first ∈ c.digitText := hfirst ▸ List.mem_cons_self
        have hhead := congrArg List.head? hsame
        rw [hroom, List.replicate_succ, List.nil_append, List.cons_append, List.head?_cons, hfirst,
          List.nil_append, List.cons_append, List.head?_cons] at hhead
        exact c.digitText_ne_minus hmem (Option.some.inj hhead).symm

/-- The text of a number is right just when there is nothing to pad, or the number is not negative
and the flag not `-`. -/
theorem numeric_conversion_right_iff : c.PrintsRight ↔
    c.width ≤ (numeral c.base c.value.natAbs).length ∨ c.flag ≠ .minus ∧ 0 ≤ c.value := by
  rw [c.printsRight_iff_emitted, c.emitted_eq_standard_iff, NumConversion.digitText,
    List.length_map]

end Right

/-- `%5d` of -42: the sign comes before the spaces, and the text is a character too long. -/
theorem signed_width_wrong : ¬ ∀ c : NumConversion, c.PrintsRight := by
  intro hall
  let c : NumConversion := ⟨.none, 5, by decide, 0, .d, -42, 0⟩
  have hemitted := c.printsRight_iff_emitted.mp (hall c)
  exact absurd hemitted (by decide)

end OsLabs.Jos
