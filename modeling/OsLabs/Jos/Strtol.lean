import OsLabs.Jos.NumberText

/-!
# `strtol` on the text of a number

`printnum` writes the most significant digit first, behind any padding, and
`strtol` reads from the left.  With zeros as padding it reads the number back,
modulo 2^32, and so it does with the text of `%d`.
-/

namespace OsLabs.Jos

open OsLabs.Numerals

/-! ## `strtol` -/

/-- `dig`: the value of a character as a digit, as far as it is a digit or a letter. -/
def strtolDig (ch : Word) : Option Word :=
  if ¬ ch.slt (chr '0') ∧ ¬ (chr '9').slt ch then some (ch - chr '0')
  else if ¬ ch.slt (chr 'a') ∧ ¬ (chr 'z').slt ch then some (ch - chr 'a' + 10)
  else if ¬ ch.slt (chr 'A') ∧ ¬ (chr 'Z').slt ch then some (ch - chr 'A' + 10)
  else none

/-- The loop over the digits of the string `s`, up to its NUL: the value, and the string from where
the loop stops. -/
def strtolDigits (base val : Word) : List (BitVec 8) → Word × List (BitVec 8)
  | [] => (val, [])
  | byte :: s =>
      match strtolDig (byte.signExtend 32) with
      | none => (val, byte :: s)
      | some dig =>
          if ¬ dig.slt base then (val, byte :: s) else strtolDigits base (val * base + dig) s

/-- The character that `s` points at. -/
def headChar (s : List (BitVec 8)) : Word := (s.headD 0).signExtend 32

/-- The prefix of a hexadecimal or octal number: the base, and the string behind the prefix. -/
def strtolPrefix (base : Word) (s : List (BitVec 8)) : Word × List (BitVec 8) :=
  if (base = 0 ∨ base = 16) ∧ headChar s = chr '0' ∧ headChar s.tail = chr 'x' then
    (16, s.tail.tail)
  else if base = 0 ∧ headChar s = chr '0' then (8, s.tail)
  else if base = 0 then (10, s)
  else (base, s)

/-- `strtol` on a string without its NUL: the value, and the string from `*endptr` on. -/
def strtol (s : List (BitVec 8)) (base : Word) : Word × List (BitVec 8) :=
  let s := s.dropWhile fun byte => byte.signExtend 32 = chr ' ' ∨ byte.signExtend 32 = chr '\t'
  let neg := headChar s = chr '-'
  let (base, s) := strtolPrefix base (if headChar s = chr '+' ∨ neg then s.tail else s)
  let (val, s) := strtolDigits base 0 s
  (if neg then -val else val, s)

/-! ## Texts of digits -/

def digitsText (digits : List ℕ) : List (BitVec 8) := digits.map fun d => charByte (digitChar d)

/-- A digit is none of the other characters that `strtol` knows. -/
theorem digit_signExtend {d : ℕ} (hlt : d < 16) {c : Char}
    (hc : c = ' ' ∨ c = '\t' ∨ c = '+' ∨ c = '-' ∨ c = 'x') :
    (charByte (digitChar d)).signExtend 32 ≠ chr c := by
  rcases hc with rfl | rfl | rfl | rfl | rfl <;> interval_cases d <;> decide

theorem strtolDig_digit {d : ℕ} (hlt : d < 16) :
    strtolDig ((charByte (digitChar d)).signExtend 32) = some (BitVec.ofNat 32 d) := by
  interval_cases d <;> decide

/-- The digits are read up to the end of the text. -/
theorem strtolDigits_digits {base : ℕ} (hbase : base ≤ 16) {digits : List ℕ}
    (hdigits : ∀ d ∈ digits, d < base) (value : ℕ) :
    strtolDigits (BitVec.ofNat 32 base) (BitVec.ofNat 32 value) (digitsText digits) =
      (BitVec.ofNat 32 (readDigits base value digits), []) := by
  induction digits generalizing value with
  | nil => rfl
  | cons d digits ih =>
    have hd : d < base := hdigits d List.mem_cons_self
    have hslt : (BitVec.ofNat 32 d).slt (BitVec.ofNat 32 base) := by
      rw [BitVec.slt_iff_toInt_lt, BitVec.toInt_eq_toNat_cond, BitVec.toInt_eq_toNat_cond,
        BitVec.toNat_ofNat, BitVec.toNat_ofNat]
      omega
    have hvalue : BitVec.ofNat 32 value * BitVec.ofNat 32 base + BitVec.ofNat 32 d =
        BitVec.ofNat 32 (value * base + d) := by
      rw [← BitVec.ofNat_mul, ← BitVec.ofNat_add]
    rw [digitsText, List.map_cons, strtolDigits, strtolDig_digit (hd.trans_le hbase)]
    dsimp only
    rw [if_neg (not_not.mpr hslt), hvalue]
    exact ih (fun d' hd' => hdigits d' (List.mem_cons_of_mem _ hd')) _

/-- The first character of a text of digits, and the one after it, are digits or the NUL. -/
theorem headChar_digits {digits : List ℕ} (hdigits : ∀ d ∈ digits, d < 16) {c : Char}
    (hc : c = ' ' ∨ c = '\t' ∨ c = '+' ∨ c = '-' ∨ c = 'x') :
    headChar (digitsText digits) ≠ chr c := by
  cases digits with
  | nil => rcases hc with rfl | rfl | rfl | rfl | rfl <;> decide
  | cons d digits => exact digit_signExtend (hdigits d List.mem_cons_self) hc

theorem dropWhile_digits {digits : List ℕ} (hdigits : ∀ d ∈ digits, d < 16) :
    (digitsText digits).dropWhile
      (fun byte => byte.signExtend 32 = chr ' ' ∨ byte.signExtend 32 = chr '\t') =
      digitsText digits := by
  cases digits with
  | nil => rfl
  | cons d digits =>
    have hd := hdigits d List.mem_cons_self
    have hspace := digit_signExtend hd (c := ' ') (by decide)
    have htab := digit_signExtend hd (c := '\t') (by decide)
    rw [digitsText, List.map_cons, List.dropWhile_cons_of_neg]
    simp only [hspace, htab, or_self, decide_false, Bool.false_eq_true, not_false_eq_true]

section Read

variable {base : ℕ} {digits : List ℕ}

/-- Digits trigger none of the prefix rules. -/
theorem strtolPrefix_digits (hpos : 0 < base) (hbase : base ≤ 16)
    (hdigits : ∀ d ∈ digits, d < base) :
    strtolPrefix (BitVec.ofNat 32 base) (digitsText digits) =
      (BitVec.ofNat 32 base, digitsText digits) := by
  have htail : headChar (digitsText digits).tail ≠ chr 'x' := by
    rw [digitsText, ← List.map_tail]
    exact headChar_digits (fun d hd => (hdigits d (List.mem_of_mem_tail hd)).trans_le hbase)
      (by decide)
  have hbase0 : BitVec.ofNat 32 base ≠ 0 := by interval_cases base <;> decide
  rw [strtolPrefix, if_neg fun hprefix => htail hprefix.2.2, if_neg fun hprefix => hbase0 hprefix.1,
    if_neg hbase0]

theorem strtolDigits_text (hbase : base ≤ 16) (hdigits : ∀ d ∈ digits, d < base) :
    strtolDigits (BitVec.ofNat 32 base) 0 (digitsText digits) =
      (BitVec.ofNat 32 (readDigits base 0 digits), []) :=
  strtolDigits_digits hbase hdigits 0

theorem strtol_digits (hpos : 0 < base) (hbase : base ≤ 16) (hdigits : ∀ d ∈ digits, d < base) :
    strtol (digitsText digits) (BitVec.ofNat 32 base) =
      (BitVec.ofNat 32 (readDigits base 0 digits), []) := by
  have hlow : ∀ d ∈ digits, d < 16 := fun d hd => (hdigits d hd).trans_le hbase
  have hplus := headChar_digits hlow (c := '+') (by decide)
  have hminus := headChar_digits hlow (c := '-') (by decide)
  rw [strtol, dropWhile_digits hlow]
  dsimp only
  rw [if_neg (not_or.mpr ⟨hplus, hminus⟩), strtolPrefix_digits hpos hbase hdigits]
  dsimp only
  rw [strtolDigits_text hbase hdigits, if_neg hminus]

theorem strtol_minus_digits (hpos : 0 < base) (hbase : base ≤ 16)
    (hdigits : ∀ d ∈ digits, d < base) :
    strtol (charByte (chr '-') :: digitsText digits) (BitVec.ofNat 32 base) =
      (-BitVec.ofNat 32 (readDigits base 0 digits), []) := by
  have hminus : headChar (charByte (chr '-') :: digitsText digits) = chr '-' := rfl
  rw [strtol, List.dropWhile_cons_of_neg (by decide)]
  dsimp only
  rw [if_pos (Or.inr hminus), List.tail_cons, strtolPrefix_digits hpos hbase hdigits]
  dsimp only
  rw [strtolDigits_text hbase hdigits, if_pos hminus]

/-- Zeros before a number do not change it. -/
theorem readDigits_zeros (base count : ℕ) (digits : List ℕ) :
    readDigits base 0 (List.replicate count 0 ++ digits) = readDigits base 0 digits := by
  induction count with
  | zero => rfl
  | succ count ih => rw [← ih, List.replicate_succ, List.cons_append, readDigits, List.foldl_cons,
      Nat.zero_mul, readDigits]

end Read

/-! ## Texts of numbers -/

theorem Emits.emittedText {out printed : Printer} {chars : List Word}
    (hemits : Emits out chars printed) :
    printed.emittedText = out.emittedText ++ chars.map charByte := by
  rw [Printer.emittedText, hemits.chars, List.map_append, List.map_map]
  rfl

/-- What `printnum` pads with zeros, `strtol` reads. -/
theorem strtol_printnum_zeros {base : ℕ} (hlow : 1 < base) (hbase : base ≤ 16) (num : ℕ)
    (width csa : Word) :
    strtol (printnum (Printer.start csa) num base width (chr '0')).emittedText
      (BitVec.ofNat 32 base) = (BitVec.ofNat 32 num, []) := by
  obtain ⟨count, hcount⟩ : ∃ count,
      count = timesAbove (width - BitVec.ofNat 32 (numeral base num).length) := ⟨_, rfl⟩
  have hemits := emits_printnum_wrapped hlow num (Printer.start csa) width (chr '0')
  rw [← hcount] at hemits
  have htext : (printnum (Printer.start csa) num base width (chr '0')).emittedText =
      digitsText (List.replicate count 0 ++ numeral base num) := by
    rw [hemits.emittedText, digitsText, List.map_append, List.map_replicate, List.map_append,
      List.map_replicate, List.map_map]
    rfl
  have hdigits : ∀ d ∈ List.replicate count 0 ++ numeral base num, d < base := by
    intro d hd
    rcases List.mem_append.mp hd with hzero | hdigit
    · rw [List.eq_of_mem_replicate hzero]
      omega
    · exact numeral_lt hlow hdigit
  rw [htext, strtol_digits (by omega) hbase hdigits, readDigits_zeros, readDigits_numeral]

theorem no_width_lt : 0 < 2 ^ 31 := by decide

/-- `%d` with one argument. -/
def intConversion (d : Word) : NumConversion := ⟨.none, 0, no_width_lt, 0, .d, d, 0⟩

/-- The text of a format that is one conversion. -/
theorem vprintfmt_number (memory : Memory) (c : NumConversion) (csa : Word) {fuel : ℕ}
    (hfuel : c.spec.length + 1 ≤ fuel) :
    ∃ out, vprintfmt memory fuel (BitVec.ofNat 8 '%'.toNat :: c.spec) 0 c.args
        (Printer.start csa) = some out ∧ out.emittedText = c.emitted.map charByte := by
  have hpos : 0 < c.spec.length := by
    rw [NumConversion.spec, List.length_append, List.length_append, List.length_append,
      List.length_singleton]
    omega
  obtain ⟨fuel, rfl⟩ : ∃ n, fuel = n + 2 := ⟨fuel - 2, by omega⟩
  obtain ⟨fmt, hfmt⟩ : ∃ fmt, BitVec.ofNat 8 '%'.toNat :: c.spec = fmt := ⟨_, rfl⟩
  have hdrop : fmt.drop 0 = BitVec.ofNat 8 '%'.toNat :: (c.spec ++ []) := by
    rw [← hfmt, List.append_nil]
    rfl
  obtain ⟨printed, hprinted, hconversion⟩ := @conversion_number memory fmt
    (fun fmt args out => vprintfmt memory (fuel + 1) fmt 0 args out) 1 c []
    (drop_succ hdrop) [] ((Printer.start csa).noteFmt 0)
  have hdone := hconversion (fuel + 1) (by omega)
  have hend : 1 + c.spec.length = fmt.length := by rw [← hfmt, List.length_cons, Nat.add_comm]
  rw [List.append_nil, hend] at hdone
  rw [hfmt]
  exact ⟨_, (vprintfmt_percent hdrop hdone).trans (vprintfmt_end fmt [] printed),
    hprinted.emittedText⟩

/-- The text of `%d`. -/
theorem vprintfmt_int (memory : Memory) (d csa : Word) {fuel : ℕ} (hfuel : 2 ≤ fuel) :
    ∃ out, vprintfmt memory fuel (text "%d") 0 [d] (Printer.start csa) = some out ∧
      out.emittedText = (intConversion d).emitted.map charByte :=
  vprintfmt_number memory (intConversion d) csa hfuel

/-- The sign and the digits of an `int` are read back, also those of the least one. -/
theorem strtol_int (d : Word) :
    strtol ((intConversion d).emitted.map charByte) 10 = (d, []) := by
  have hdigits : ∀ digit ∈ numeral 10 d.toInt.natAbs, digit < 10 := fun _ h =>
    numeral_lt (by decide) h
  have hemitted : (intConversion d).emitted =
      (intConversion d).signText ++ (intConversion d).digitText := by
    rw [NumConversion.emitted, show (intConversion d).width = 0 from rfl, Nat.zero_sub,
      List.replicate_zero, List.nil_append]
  have htext : (intConversion d).digitText.map charByte = digitsText (numeral 10 d.toInt.natAbs) :=
    List.map_map
  have hten : (10 : Word) = BitVec.ofNat 32 10 := rfl
  have hlt := d.isLt
  rw [hemitted, List.map_append, htext, hten]
  by_cases hneg : d.toInt < 0
  · have hsign : (intConversion d).signText = [chr '-'] := if_pos hneg
    have hvalue : -BitVec.ofNat 32 d.toInt.natAbs = d := by
      apply BitVec.eq_of_toNat_eq
      rw [BitVec.toNat_neg, BitVec.toNat_ofNat]
      rw [BitVec.toInt_eq_toNat_cond] at hneg ⊢
      split at hneg <;> omega
    rw [hsign, List.map_singleton, List.singleton_append,
      strtol_minus_digits (by decide) (by decide) hdigits, readDigits_numeral, hvalue]
  · have hsign : (intConversion d).signText = [] := if_neg hneg
    have hvalue : BitVec.ofNat 32 d.toInt.natAbs = d := by
      apply BitVec.eq_of_toNat_eq
      rw [BitVec.toNat_ofNat]
      rw [BitVec.toInt_eq_toNat_cond] at hneg ⊢
      split at hneg <;> omega
    rw [hsign, List.map_nil, List.nil_append, strtol_digits (by decide) (by decide) hdigits,
      readDigits_numeral, hvalue]

/-- `strtol` reads what `printnum` writes, zeros as padding included, and what `%d` writes, up to
the NUL behind it. -/
theorem strtol_reads_back (memory : Memory) (csa : Word) :
    (∀ (num width : Word) (base : ℕ), base = 8 ∨ base = 10 ∨ base = 16 →
      strtol (printnum (Printer.start csa) num.toNat base width (chr '0')).emittedText
        (BitVec.ofNat 32 base) = (num, [])) ∧
    ∀ (d : Word) (fuel : ℕ), 2 ≤ fuel →
      ∃ out, vprintfmt memory fuel (text "%d") 0 [d] (Printer.start csa) = some out ∧
        strtol out.emittedText 10 = (d, []) := by
  constructor
  · intro num width base hbase
    rw [strtol_printnum_zeros (by omega) (by omega), BitVec.ofNat_toNat, BitVec.setWidth_eq]
  · intro d fuel hfuel
    obtain ⟨out, hrun, htext⟩ := vprintfmt_int memory d csa hfuel
    exact ⟨out, hrun, by rw [htext, strtol_int]⟩

/-- The least `int`, and a number that is padded. -/
theorem strtol_reads_back_least :
    strtol (printnum (Printer.start 0x0700) 255 16 8 (chr '0')).emittedText 16 = (255, []) ∧
      ∃ out, vprintfmt (fun _ => none) 2 (text "%d") 0 [0x80000000] (Printer.start 0x0700) =
          some out ∧
        strtol out.emittedText 10 = (0x80000000, []) :=
  ⟨(strtol_reads_back (fun _ => none) 0x0700).1 255 8 16 (by decide),
    (strtol_reads_back (fun _ => none) 0x0700).2 0x80000000 2 le_rfl⟩

end OsLabs.Jos
