import Mathlib.Data.Nat.Digits.Lemmas

/-!
# Numerals

The digits of a number as they are written: the most significant one first,
none of them in vain, and one zero for zero.
-/

namespace OsLabs.Numerals

/-- The numeral of `n`. -/
def numeral (base n : ℕ) : List ℕ := if n = 0 then [0] else (Nat.digits base n).reverse

/-- The number that digits continue, after `value`. -/
def readDigits (base value : ℕ) (digits : List ℕ) : ℕ :=
  digits.foldl (fun value digit => value * base + digit) value

variable {base n : ℕ}

theorem numeral_of_lt (hlt : n < base) : numeral base n = [n] := by
  unfold numeral
  split
  case isTrue hzero => rw [hzero]
  case isFalse hpos => rw [Nat.digits_of_lt base n hpos hlt, List.reverse_singleton]

/-- The last digit is the remainder. -/
theorem numeral_append (hbase : 1 < base) (hle : base ≤ n) :
    numeral base n = numeral base (n / base) ++ [n % base] := by
  have hpos : n ≠ 0 := by omega
  have hdiv : n / base ≠ 0 := (Nat.div_pos hle (by omega)).ne'
  rw [numeral, if_neg hpos, numeral, if_neg hdiv,
    Nat.digits_def' hbase (Nat.pos_of_ne_zero hpos), List.reverse_cons]

theorem numeral_lt (hbase : 1 < base) {digit : ℕ} (hdigit : digit ∈ numeral base n) :
    digit < base := by
  unfold numeral at hdigit
  split at hdigit
  · rw [List.mem_singleton.mp hdigit]
    omega
  · exact Nat.digits_lt_base hbase (List.mem_reverse.mp hdigit)

theorem length_numeral_pos (base n : ℕ) : 0 < (numeral base n).length := by
  unfold numeral
  split
  · exact Nat.one_pos
  · rw [List.length_reverse]
    exact List.length_pos_of_ne_nil (Nat.digits_ne_nil_iff_ne_zero.mpr ‹_›)

theorem length_numeral_le (hbase : 1 < base) {k : ℕ} (hk : 0 < k) (hlt : n < base ^ k) :
    (numeral base n).length ≤ k := by
  unfold numeral
  split
  · exact hk
  · rw [List.length_reverse]
    exact (Nat.digits_length_le_iff hbase n).mpr hlt

/-- A numeral is read back. -/
theorem readDigits_numeral (base n : ℕ) : readDigits base 0 (numeral base n) = n := by
  unfold numeral readDigits
  split
  case isTrue hzero => simp [hzero]
  case isFalse =>
    have hstep : (fun digit value : ℕ => value * base + digit) =
        fun digit value => digit + base * value := by
      funext digit value
      rw [Nat.mul_comm, Nat.add_comm]
    have hvalue := Nat.ofDigits_digits base n
    rw [Nat.ofDigits_eq_foldr] at hvalue
    rw [List.foldl_reverse, hstep]
    exact hvalue

/-- No numeral but zero's begins with a zero. -/
theorem numeral_head (hpos : 0 < n) :
    ∃ first rest, numeral base n = first :: rest ∧ first ≠ 0 := by
  have hnil : Nat.digits base n ≠ [] := Nat.digits_ne_nil_iff_ne_zero.mpr hpos.ne'
  have hlast := Nat.getLast_digit_ne_zero base hpos.ne'
  rw [numeral, if_neg hpos.ne']
  refine ⟨_, (Nat.digits base n).dropLast.reverse, ?_, hlast⟩
  rw [← List.reverse_concat, List.dropLast_concat_getLast hnil]

/-! ## The number that digits denote -/

theorem readDigits_append (base value : ℕ) (first second : List ℕ) :
    readDigits base value (first ++ second) = readDigits base (readDigits base value first) second :=
  List.foldl_append

theorem readDigits_lt {digits : List ℕ} (hdigits : ∀ d ∈ digits, d < base) :
    readDigits base 0 digits < base ^ digits.length := by
  induction digits using List.reverseRecOn with
  | nil => exact Nat.one_pos
  | append_singleton digits d ih =>
    have hd : d < base := hdigits d (List.mem_append_right _ List.mem_cons_self)
    have hrest := ih fun d' hd' => hdigits d' (List.mem_append_left _ hd')
    rw [readDigits_append, List.length_append, List.length_singleton]
    calc
      readDigits base 0 digits * base + d < readDigits base 0 digits * base + base := by omega
      _ = (readDigits base 0 digits + 1) * base := (Nat.succ_mul _ _).symm
      _ ≤ base ^ digits.length * base := Nat.mul_le_mul_right base hrest
      _ = base ^ (digits.length + 1) := (pow_succ base _).symm

theorem readDigits_eq_zero_iff (hbase : 0 < base) {digits : List ℕ} :
    readDigits base 0 digits = 0 ↔ ∀ d ∈ digits, d = 0 := by
  induction digits using List.reverseRecOn with
  | nil => exact iff_of_true rfl nofun
  | append_singleton digits d ih =>
    have hstep : readDigits base 0 (digits ++ [d]) = readDigits base 0 digits * base + d :=
      readDigits_append base 0 digits [d]
    rw [hstep, Nat.add_eq_zero_iff, Nat.mul_eq_zero, ih, List.forall_mem_append,
      List.forall_mem_singleton]
    constructor
    · exact fun ⟨hzero, hd⟩ => ⟨hzero.resolve_right hbase.ne', hd⟩
    · exact fun ⟨hzero, hd⟩ => ⟨Or.inl hzero, hd⟩

/-- Adding digit by digit adds the numbers. -/
theorem readDigits_add {α : Type*} (base : ℕ) (f g : α → ℕ) (digits : List α) :
    readDigits base 0 (digits.map fun a => f a + g a) =
      readDigits base 0 (digits.map f) + readDigits base 0 (digits.map g) := by
  induction digits using List.reverseRecOn with
  | nil => rfl
  | append_singleton digits a ih =>
    rw [List.map_append, readDigits_append, ih, List.map_append, readDigits_append, List.map_append,
      readDigits_append]
    change (_ + _) * base + (f a + g a) = _ * base + f a + (_ * base + g a)
    rw [Nat.add_mul, Nat.add_add_add_comm]

end OsLabs.Numerals
