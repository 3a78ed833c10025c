import OsLabs.Jos.Handlers
import OsLabs.Jos.Strtol

/-!
# `xtoi` and `strtol`

Both read hexadecimal digits behind `0x`.  `xtoi` moves the characters from `a`
on down to those behind `9`, but an uppercase letter stands before `a`; it is
taken as it is, 7 above its value.
-/

namespace OsLabs.Jos

open OsLabs.Numerals

/-- The hexadecimal digits, of either case. -/
def hexDigits : List (BitVec 8) := text "0123456789abcdefABCDEF"

/-- The hexadecimal digits that are uppercase letters. -/
def upperDigits : List (BitVec 8) := text "ABCDEF"

/-- The value of a hexadecimal digit. -/
def hexValue (c : BitVec 8) : ℕ :=
  (text "0123456789abcdef").idxOf (if c ∈ upperDigits then c + 32 else c)

/-- The number that hexadecimal digits denote. -/
def hexNumber (digits : List (BitVec 8)) : ℕ := readDigits 16 0 (digits.map hexValue)

/-- What `xtoi` adds to the value of a digit. -/
def surplus (c : BitVec 8) : ℕ := if c ∈ upperDigits then 7 else 0

/-! ## One digit -/

theorem hexValue_lt : ∀ c ∈ hexDigits, hexValue c < 16 := by decide +kernel

theorem strtolDig_hex : ∀ c ∈ hexDigits,
    strtolDig (c.signExtend 32) = some (BitVec.ofNat 32 (hexValue c)) := by decide +kernel

theorem hexChar_hex : ∀ c ∈ hexDigits,
    (hexChar c).signExtend 32 - chr '0' = BitVec.ofNat 32 (hexValue c + surplus c) := by decide +kernel

theorem hex_ne_nul : ∀ c ∈ hexDigits, c ≠ 0 := by decide +kernel

/-- `xtoi` appends the digit, with what it adds to it. -/
theorem hexStep_hex {c : BitVec 8} (hc : c ∈ hexDigits) (value : ℕ) :
    hexStep (BitVec.ofNat 32 value) c =
      BitVec.ofNat 32 (value * 16 + (hexValue c + surplus c)) := by
  calc
    hexStep (BitVec.ofNat 32 value) c =
        BitVec.ofNat 32 value * 16 + ((hexChar c).signExtend 32 - chr '0') :=
      add_sub_assoc _ _ _
    _ = BitVec.ofNat 32 value * BitVec.ofNat 32 16 + BitVec.ofNat 32 (hexValue c + surplus c) := by
      rw [hexChar_hex c hc]
      rfl
    _ = BitVec.ofNat 32 (value * 16 + (hexValue c + surplus c)) := by
      rw [← BitVec.ofNat_mul, ← BitVec.ofNat_add]

/-! ## All digits -/

section Digits

variable {digits : List (BitVec 8)}

theorem foldl_hexStep (hhex : ∀ c ∈ digits, c ∈ hexDigits) (value : ℕ) :
    digits.foldl hexStep (BitVec.ofNat 32 value) =
      BitVec.ofNat 32 (readDigits 16 value (digits.map fun c => hexValue c + surplus c)) := by
  induction digits generalizing value with
  | nil => rfl
  | cons c digits ih =>
    obtain ⟨hc, hrest⟩ := List.forall_mem_cons.mp hhex
    rw [List.foldl_cons, hexStep_hex hc, ih hrest]
    rfl

/-- `xtoi` exceeds the number by what the surplus of the digits denotes. -/
theorem foldl_hexStep_surplus (hhex : ∀ c ∈ digits, c ∈ hexDigits) :
    digits.foldl hexStep 0 =
      BitVec.ofNat 32 (hexNumber digits + readDigits 16 0 (digits.map surplus)) :=
  (foldl_hexStep hhex 0).trans (congrArg _ (readDigits_add 16 hexValue surplus digits))

theorem strtolDigits_hex (hhex : ∀ c ∈ digits, c ∈ hexDigits) (value : ℕ) :
    strtolDigits 16 (BitVec.ofNat 32 value) digits =
      (BitVec.ofNat 32 (readDigits 16 value (digits.map hexValue)), []) := by
  induction digits generalizing value with
  | nil => rfl
  | cons c digits ih =>
    obtain ⟨hc, hrest⟩ := List.forall_mem_cons.mp hhex
    have hslt : (BitVec.ofNat 32 (hexValue c)).slt 16 := by
      have hlt := hexValue_lt c hc
      generalize hexValue c = value at hlt
      interval_cases value <;> decide
    have hvalue : BitVec.ofNat 32 value * 16 + BitVec.ofNat 32 (hexValue c) =
        BitVec.ofNat 32 (value * 16 + hexValue c) := by
      rw [BitVec.ofNat_add, BitVec.ofNat_mul]
      rfl
    rw [strtolDigits, strtolDig_hex c hc]
    dsimp only
    rw [if_neg (not_not.mpr hslt), hvalue, ih hrest]
    rfl

/-- `strtol` reads the number behind `0x`. -/
theorem strtol_hex (hhex : ∀ c ∈ digits, c ∈ hexDigits) :
    strtol (text "0x" ++ digits) 16 = (BitVec.ofNat 32 (hexNumber digits), []) := by
  have hdrop : (text "0x" ++ digits).dropWhile
      (fun byte => byte.signExtend 32 = chr ' ' ∨ byte.signExtend 32 = chr '\t') =
      text "0x" ++ digits := List.dropWhile_cons_of_neg (by decide)
  have hzero : headChar (text "0x" ++ digits) = chr '0' := rfl
  have hx : headChar (text "0x" ++ digits).tail = chr 'x' := rfl
  rw [strtol, hdrop]
  dsimp only
  rw [if_neg (by rw [hzero]; decide), strtolPrefix, if_pos ⟨by decide, hzero, hx⟩,
    if_neg (by rw [hzero]; decide)]
  exact strtolDigits_hex hhex 0

/-- `xtoi` on a word that stands anywhere in the buffer. -/
theorem xtoi_hex (hhex : ∀ c ∈ digits, c ∈ hexDigits) (before tail : List (BitVec 8)) :
    (xtoi (before ++ (text "0x" ++ (digits ++ 0 :: tail))) before.length).2.map Prod.fst =
      some (digits.foldl hexStep 0) := by
  have hnul : (0 : BitVec 8) ∉ digits := fun hmem => hex_ne_nul 0 (hhex 0 hmem) rfl
  have hloop := @xtoiLoop_word digits tail hnul (before ++ text "0x") 0
  rw [List.append_assoc, List.length_append] at hloop
  rw [xtoi, show before.length + 2 = before.length + (text "0x").length from rfl, hloop]
  rfl

theorem surplus_eq_zero_iff {c : BitVec 8} : surplus c = 0 ↔ c ∉ upperDigits := by
  rw [surplus]
  split <;> simp_all

theorem surplus_lt (c : BitVec 8) : surplus c < 16 := by
  rw [surplus]
  split <;> decide

/-- Up to eight digits cannot make up for a surplus. -/
theorem foldl_hexStep_eq_iff (hhex : ∀ c ∈ digits, c ∈ hexDigits) (hlength : digits.length ≤ 8) :
    digits.foldl hexStep 0 = BitVec.ofNat 32 (hexNumber digits) ↔
      ∀ c ∈ digits, c ∉ upperDigits := by
  have hsurplus : readDigits 16 0 (digits.map surplus) < 2 ^ 32 := by
    calc
      readDigits 16 0 (digits.map surplus) < 16 ^ (digits.map surplus).length :=
        readDigits_lt (List.forall_mem_map.mpr fun c _ => surplus_lt c)
      _ ≤ 16 ^ 8 := Nat.pow_le_pow_right (by decide) (by rwa [List.length_map])
  have hzero : readDigits 16 0 (digits.map surplus) = 0 ↔ ∀ c ∈ digits, c ∉ upperDigits := by
    rw [readDigits_eq_zero_iff (by decide), List.forall_mem_map]
    exact forall₂_congr fun c _ => surplus_eq_zero_iff
  rw [foldl_hexStep_surplus hhex, ← hzero, BitVec.ofNat_add]
  constructor
  · intro hsame
    have hnone : BitVec.ofNat 32 (readDigits 16 0 (digits.map surplus)) = 0 :=
      add_left_cancel (hsame.trans (BitVec.add_zero _).symm)
    have hvalue := congrArg BitVec.toNat hnone
    rw [BitVec.toNat_ofNat, Nat.mod_eq_of_lt hsurplus] at hvalue
    exact hvalue
  · intro hnone
    rw [hnone]
    exact BitVec.add_zero _

end Digits

/-! ## The text of `%x` -/

/-- `%x` with one argument. -/
def hexConversion (n : Word) : NumConversion := ⟨.none, 0, no_width_lt, 0, .x, n, 0⟩

/-- `printnum` writes letters in lowercase. -/
theorem digitChar_hex {d : ℕ} (hlt : d < 16) :
    charByte (digitChar d) ∈ hexDigits ∧ charByte (digitChar d) ∉ upperDigits ∧
      hexValue (charByte (digitChar d)) = d := by
  interval_cases d <;> decide

theorem emitted_hex (n : Word) :
    (hexConversion n).emitted.map charByte = digitsText (numeral 16 n.toNat) := by
  have hsign : (hexConversion n).signText = [] := if_neg (Int.natCast_nonneg n.toNat).not_gt
  rw [NumConversion.emitted, hsign, List.nil_append, show (hexConversion n).width = 0 from rfl,
    Nat.zero_sub, List.replicate_zero, List.nil_append]
  exact List.map_map

/-- `xtoi` reads the text of `%x` back. -/
theorem foldl_hexStep_emitted (n : Word) :
    (∀ c ∈ (hexConversion n).emitted.map charByte, c ∈ hexDigits) ∧
      ((hexConversion n).emitted.map charByte).foldl hexStep 0 = n := by
  have hdigits : ∀ d ∈ numeral 16 n.toNat, d < 16 := fun d hd => numeral_lt (by decide) hd
  have hlength : (digitsText (numeral 16 n.toNat)).length ≤ 8 := by
    rw [digitsText, List.length_map]
    exact length_numeral_le (by decide) (by decide) n.isLt
  have hhex : ∀ c ∈ digitsText (numeral 16 n.toNat), c ∈ hexDigits :=
    List.forall_mem_map.mpr fun d hd => (digitChar_hex (hdigits d hd)).1
  have hlower : ∀ c ∈ digitsText (numeral 16 n.toNat), c ∉ upperDigits :=
    List.forall_mem_map.mpr fun d hd => (digitChar_hex (hdigits d hd)).2.1
  have hvalues : (digitsText (numeral 16 n.toNat)).map hexValue = numeral 16 n.toNat := by
    rw [digitsText, List.map_map]
    exact (List.map_congr_left fun d hd => (digitChar_hex (hdigits d hd)).2.2).trans
      (List.map_id' _)
  rw [emitted_hex]
  refine ⟨hhex, ?_⟩
  rw [(foldl_hexStep_eq_iff hhex hlength).mpr hlower, hexNumber, hvalues, readDigits_numeral,
    BitVec.ofNat_toNat, BitVec.setWidth_eq]

/-! ## Where the two agree -/

/-- `xtoi` returns what `strtol` returns just when no digit is an uppercase letter; so it reads back
what `%x` writes. -/
theorem xtoi_strtol_iff {digits : List (BitVec 8)} (hhex : ∀ c ∈ digits, c ∈ hexDigits)
    (hlength : digits.length ≤ 8) (before tail : List (BitVec 8)) :
    ((xtoi (before ++ (text "0x" ++ (digits ++ 0 :: tail))) before.length).2.map Prod.fst =
          some (strtol (text "0x" ++ digits) 16).1 ∧
        (strtol (text "0x" ++ digits) 16).1 = BitVec.ofNat 32 (hexNumber digits) ↔
      ∀ c ∈ digits, c ∉ upperDigits) ∧
    ∀ (memory : Memory) (n csa : Word) (fuel : ℕ), 2 ≤ fuel →
      ∃ out, vprintfmt memory fuel (text "%x") 0 [n] (Printer.start csa) = some out ∧
        (xtoi (before ++ (text "0x" ++ (out.emittedText ++ 0 :: tail))) before.length).2.map
          Prod.fst = some n := by
  constructor
  · rw [xtoi_hex hhex, strtol_hex hhex, Option.some_inj, ← foldl_hexStep_eq_iff hhex hlength]
    exact and_iff_left rfl
  · intro memory n csa fuel hfuel
    obtain ⟨out, hrun, htext⟩ := vprintfmt_number memory (hexConversion n) csa hfuel
    obtain ⟨hall, hvalue⟩ := foldl_hexStep_emitted n
    refine ⟨out, hrun, ?_⟩
    rw [htext, xtoi_hex hall, hvalue]

/-- The digits of `0xffff`. -/
theorem xtoi_strtol_ffff :
    (xtoi ([] ++ (text "0x" ++ (text "ffff" ++ 0 :: []))) 0).2.map Prod.fst =
        some (strtol (text "0x" ++ text "ffff") 16).1 ∧
      (strtol (text "0x" ++ text "ffff") 16).1 = BitVec.ofNat 32 (hexNumber (text "ffff")) :=
  (xtoi_strtol_iff (by decide) (by decide) [] []).1.mpr (by decide)

/-- The ten of `0xA` is taken for 17. -/
theorem uppercase_digit_wrong : ¬ ∀ digits : List (BitVec 8), (∀ c ∈ digits, c ∈ hexDigits) →
    1 ≤ digits.length → digits.length ≤ 8 →
      (xtoi (text "0x" ++ (digits ++ [0])) 0).2.map Prod.fst =
        some (strtol (text "0x" ++ digits) 16).1 := by
  intro hall
  have hten := hall (text "A") (by decide) (by decide) (by decide)
  have hread := @xtoi_hex (text "A") (by decide) [] []
  rw [List.nil_append] at hread
  have hboth := hread.symm.trans hten
  exact absurd hboth (by decide)

end OsLabs.Jos
