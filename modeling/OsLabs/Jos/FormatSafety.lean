import OsLabs.Jos.FormatRuns

/-!
# Formats that `vprintfmt` handles safely

Of all formats and arguments only those go wrong in which `%e` is given the
least `int`, whose negation is negative again and passes the test against
`MAXERROR`, or `%s` a string that cannot be read to its end.
-/

namespace OsLabs.Jos

/-! ## Safe runs -/

/-- A run on a format with the pieces `ps` ends, without reading past the NUL of the format, and
emits the text of each piece; that of an unknown conversion stands in the format as it is.
Error numbers below `MAXERROR`, by which the code indexes `error_string`, are not negative. -/
structure SafeFormat (memory : Memory) (fmt : List (BitVec 8)) (args : List Word)
    (ps : List Piece) : Prop where
  ends : ∀ csa, ∃ bound, ∀ fuel, bound ≤ fuel → ∃ out emitted,
    vprintfmt memory fuel fmt 0 args (Printer.start csa) = some out ∧
      (∀ i ∈ out.fmtReads, i ≤ fmt.length) ∧
      emitted.map Prod.fst = ps ∧ (∀ e ∈ emitted, e.1.Text memory e.2) ∧
      out.chars = coloured csa emitted
  indexes : ∀ arg, .error arg ∈ ps → (errorNumber arg).toInt < maxError →
    0 ≤ (errorNumber arg).toInt
  literal : ∀ text, .unknown text ∈ ps → percentByte :: text <:+: fmt

/-- The argument of a piece is one that the code can print. -/
def Piece.Printable (memory : Memory) : Piece → Prop
  | .error arg => arg ≠ 0x80000000
  | .string spec arg => ∃ bytes, StringAt memory (stringPtr arg) spec.precision bytes
  | _ => True

section Safe

variable {memory : Memory} {fmt : List (BitVec 8)} {args : List Word} {ps : List Piece}

/-- Only the least `int` is negative without its sign. -/
theorem errorNumber_nonneg {arg : Word} : ¬ (errorNumber arg).slt 0 ↔ arg ≠ 0x80000000 := by
  have hint : (0 : Word).toInt = 0 := rfl
  constructor
  · rintro hsign rfl
    exact hsign (by decide)
  · intro hne hsign
    rw [errorNumber] at hsign
    split at hsign
    case isTrue hneg =>
      have hlt := arg.isLt
      have hleast : arg.toNat ≠ 0x80000000 := fun h => hne (BitVec.eq_of_toNat_eq h)
      rw [BitVec.slt_iff_toInt_lt, hint, BitVec.toInt_eq_toNat_cond] at hneg hsign
      rw [BitVec.toNat_neg] at hsign
      split at hneg <;> split at hsign <;> omega
    case isFalse hpos => exact hpos hsign

theorem Piece.printable_iff {piece : Piece} :
    piece.Printable memory ↔ ∃ chars, piece.Text memory chars := by
  cases piece with
  | error arg =>
    constructor
    · exact fun hne => ⟨_, errorNumber_nonneg.mpr hne, rfl⟩
    · rintro ⟨_, hsign, -⟩
      exact errorNumber_nonneg.mp hsign
  | string spec arg =>
    constructor
    · exact fun ⟨bytes, hbytes⟩ => ⟨_, bytes, hbytes, rfl⟩
    · rintro ⟨_, bytes, hbytes, -⟩
      exact ⟨bytes, hbytes⟩
  | _ => exact ⟨fun _ => ⟨_, rfl⟩, fun _ => trivial⟩

/-! ### Unknown conversions -/

theorem ite_ne {α : Type*} {p : Prop} [Decidable p] {first second result : α}
    (hthen : first ≠ result) (helse : second ≠ result) : (if p then first else second) ≠ result := by
  split
  · exact hthen
  · exact helse

section Known

variable {text : List (BitVec 8)} {args' : List Word}

theorem nextArg_known {reading : Word → List Word → Reading}
    (hreading : ∀ arg args, reading arg args ≠ .piece (.unknown text) args') :
    nextArg args reading ≠ some (.piece (.unknown text) args') := by
  cases args with
  | nil => nofun
  | cons arg args => exact fun h => hreading arg args (Option.some.inj h)

theorem map_known {α : Type*} {read : Option α} {reading : α → Reading}
    (hreading : ∀ value, reading value ≠ .piece (.unknown text) args') :
    read.map reading ≠ some (.piece (.unknown text) args') := by
  cases read with
  | none => nofun
  | some value => exact fun h => hreading value (Option.some.inj h)

/-- No character asks for an unknown conversion. -/
theorem reading_known {spec : Spec} {ch : Word} :
    spec.reading ch args ≠ some (.piece (.unknown text) args') := by
  rw [Spec.reading]
  repeat' apply ite_ne
  any_goals apply nextArg_known
  any_goals apply map_known
  all_goals
    intros
    simp

theorem scan_known {spec : Spec} {rest : List (BitVec 8)} {count : ℕ} :
    scan rest spec args ≠ some (some (.unknown text), count, args') := by
  intro hscan
  induction rest, spec, args using scan.induct generalizing count with
  | case1 =>
    rw [scan] at hscan
    cases hscan
  | case2 spec args byte rest hreading =>
    rw [scan, hreading] at hscan
    cases hscan
  | case3 spec args byte rest hreading digits =>
    rename_i ih
    rw [scan, hreading] at hscan
    obtain ⟨⟨found, further, left⟩, hfound, hsame⟩ := Option.map_eq_some_iff.mp hscan
    cases hsame
    exact ih hfound
  | case4 spec args byte rest spec' args'' hreading ih =>
    rw [scan, hreading] at hscan
    obtain ⟨⟨found, further, left⟩, hfound, hsame⟩ := Option.map_eq_some_iff.mp hscan
    cases hsame
    exact ih hfound
  | case5 spec args byte rest piece args'' hreading =>
    rw [scan, hreading] at hscan
    cases hscan
    exact reading_known hreading
  | case6 spec args byte rest hreading =>
    rw [scan, hreading] at hscan
    cases hscan

end Known

/-- An unknown conversion stands in the format. -/
theorem unknown_infix {text : List (BitVec 8)} (hpieces : pieces fmt args = some ps)
    (hmem : .unknown text ∈ ps) : percentByte :: text <:+: fmt := by
  obtain ⟨length, hlength⟩ : ∃ n, fmt.length = n := ⟨_, rfl⟩
  induction length using Nat.strong_induction_on generalizing fmt args ps with
  | _ length ih =>
    cases fmt with
    | nil =>
      rw [pieces] at hpieces
      cases hpieces
      cases hmem
    | cons byte rest =>
      rw [List.length_cons] at hlength
      by_cases hbyte : byte = percentByte
      · subst hbyte
        rw [pieces_percent] at hpieces
        obtain ⟨⟨found, count, args'⟩, hscan, hmore⟩ := Option.bind_eq_some_iff.mp hpieces
        obtain ⟨behind, hbehind, rfl⟩ := Option.map_eq_some_iff.mp hmore
        rcases List.mem_cons.mp hmem with hhead | htail
        · -- the conversion at the front
          cases found with
          | some piece =>
            rw [Option.getD_some] at hhead
            exact absurd (hhead ▸ hscan) scan_known
          | none =>
            have htake : text = rest.take (count + 1) := Piece.unknown.inj hhead
            rw [htake]
            exact ⟨[], rest.drop (count + 1), by rw [List.nil_append, List.cons_append,
              List.take_append_drop]⟩
        · have hinfix := ih _ (by rw [List.length_drop]; omega) hbehind htail rfl
          exact hinfix.trans ((List.drop_suffix _ _).isInfix.trans (List.suffix_cons _ _).isInfix)
      · rw [pieces, if_neg hbyte] at hpieces
        obtain ⟨behind, hbehind, rfl⟩ := Option.map_eq_some_iff.mp hpieces
        have htail : .unknown text ∈ behind := (List.mem_cons.mp hmem).resolve_left fun hsame => by cases hsame
        exact (ih _ (by omega) hbehind htail rfl).trans (List.suffix_cons _ _).isInfix

end Safe

/-- `%e` of the least `int`. -/
theorem pieces_least_error :
    pieces (text "%e") [0x80000000] = some [.error 0x80000000] := by
  rw [show text "%e" = [percentByte, BitVec.ofNat 8 'e'.toNat] from rfl, pieces_single rfl, pieces]
  rfl

end OsLabs.Jos
