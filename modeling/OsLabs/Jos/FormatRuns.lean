import OsLabs.Jos.FormatText

/-!
# Runs of `vprintfmt`

`vprintfmt` emits the texts of the pieces of its format, one after the other,
and it ends just when there are arguments for all the pieces and each of them
has a text.
-/

namespace OsLabs.Jos

open OsLabs.Fuel

/-! ## Plain characters -/

section Plain

variable {memory : Memory} {fmt text : List (BitVec 8)} {index : ℕ} {args : List Word}
variable {out : Printer}

/-- A character of the format that is emitted as it is. -/
structure IsPlain (byte : BitVec 8) : Prop where
  ne_nul : byte ≠ 0
  ne_percent : byte ≠ percentByte

theorem setWidth_byte_inj {byte byte' : BitVec 8} :
    (byte.setWidth 32 : Word) = byte'.setWidth 32 ↔ byte = byte' := by
  have hback (byte : BitVec 8) : (byte.setWidth 32 : Word).setWidth 8 = byte := by
    rw [BitVec.setWidth_setWidth_of_le _ (by decide), BitVec.setWidth_eq]
  constructor
  · intro hsame
    rw [← hback byte, hsame, hback]
  · rintro rfl
    rfl

theorem setWidth_ne_nul {byte : BitVec 8} (hne : byte ≠ 0) : (byte.setWidth 32 : Word) ≠ 0 :=
  fun hnul => hne (setWidth_byte_inj.mp hnul)

theorem setWidth_ne_percent {byte : BitVec 8} (hne : byte ≠ percentByte) :
    (byte.setWidth 32 : Word) ≠ chr '%' :=
  fun hpercent => hne (setWidth_byte_inj.mp hpercent)

theorem vprintfmt_plain {byte : BitVec 8} (hdrop : fmt.drop index = byte :: text)
    (hplain : IsPlain byte) (fuel : ℕ) (out : Printer) :
    vprintfmt memory (fuel + 1) fmt index args out =
      vprintfmt memory fuel fmt (index + 1) args
        ((out.noteFmt index).putch (byte.setWidth 32)) := by
  rw [vprintfmt, readFmt_of_drop hdrop, Option.bind_eq_bind, Option.bind_some]
  dsimp only
  rw [if_neg (setWidth_ne_nul hplain.ne_nul), if_pos (setWidth_ne_percent hplain.ne_percent)]

/-- A stretch of plain characters. -/
theorem vprintfmt_text {first rest : List (BitVec 8)} (hdrop : fmt.drop index = first ++ rest)
    (hle : index ≤ fmt.length) (hplain : ∀ byte ∈ first, IsPlain byte) (out : Printer) :
    ∃ mid, Advances fmt out (first.map fun byte => byte.setWidth 32) out.csa mid ∧
      ∀ fuel, vprintfmt memory (fuel + first.length) fmt index args out =
        vprintfmt memory fuel fmt (index + first.length) args mid := by
  induction first generalizing index out with
  | nil => exact ⟨out, Advances.refl fmt out, fun _ => rfl⟩
  | cons byte first ih =>
    obtain ⟨mid, hmid, hrun⟩ := ih (drop_succ hdrop) (index_succ_le hdrop)
      (fun b hb => hplain b (List.mem_cons_of_mem _ hb))
      ((out.noteFmt index).putch (byte.setWidth 32))
    refine ⟨mid, ?_, fun fuel => ?_⟩
    · exact (advances_noteFmt hle out).append ((advances_putch fmt _ _).append hmid)
    · rw [List.length_cons, ← Nat.add_assoc,
        vprintfmt_plain hdrop (hplain byte List.mem_cons_self), hrun, Nat.add_right_comm,
        Nat.add_assoc]

end Plain

/-! ## Unknown conversions -/

section Unknown

variable {fmt text : List (BitVec 8)} {index : ℕ} {spec : Spec} {args : List Word}

/-- The way back over `count` characters to the `%`. -/
theorem backToPercent_eq {count : ℕ} (hdrop : fmt.drop index = percentByte :: text)
    (hle : index ≤ fmt.length) (hcount : count ≤ text.length)
    (hother : percentByte ∉ text.take count) (out : Printer) :
    ∃ mid, Advances fmt out [] out.csa mid ∧
      backToPercent fmt (index + 1 + count) out = some (index + 1, mid) := by
  induction count generalizing out with
  | zero =>
    refine ⟨_, advances_noteFmt hle out, ?_⟩
    rw [Nat.add_zero, backToPercent, readFmt_of_drop hdrop]
    rfl
  | succ count ih =>
    -- the character before the place is one of the conversion's
    have hlt : count < text.length := hcount
    have hcons : fmt.drop (index + 1 + count) = text[count] :: text.drop (count + 1) := by
      rw [← List.drop_drop, drop_succ hdrop, List.drop_eq_getElem_cons hlt]
    have hne : text[count] ≠ percentByte := by
      intro hpercent
      apply hother
      rw [List.take_succ_eq_append_getElem hlt, ← hpercent]
      exact List.mem_append_right _ List.mem_cons_self
    have hbefore : percentByte ∉ text.take count := fun hmem =>
      hother (List.take_subset_take_left text (Nat.le_succ count) hmem)
    have hplace : index + 1 + count ≤ fmt.length := (Nat.le_succ _).trans (index_succ_le hcons)
    obtain ⟨mid, hmid, hback⟩ := ih (by omega) hbefore (out.noteFmt (index + 1 + count))
    refine ⟨mid, (advances_noteFmt hplace out).append hmid, ?_⟩
    rw [← Nat.add_assoc, backToPercent, readFmt_of_drop hcons, Option.bind_eq_bind,
      Option.bind_some]
    dsimp only
    rw [if_neg (setWidth_ne_percent hne), hback]

theorem reading_percent (spec : Spec) (args : List Word) :
    spec.reading (percentByte.setWidth 32) args = some (.piece .percent args) := rfl

theorem ne_percent_of_reading {byte : BitVec 8} {reading : Reading}
    (hreading : spec.reading (byte.setWidth 32) args = some reading)
    (hpiece : ∀ piece args, reading ≠ .piece piece args) : percentByte ≠ byte := by
  rintro rfl
  rw [reading_percent] at hreading
  exact hpiece _ _ (Option.some.inj hreading).symm

/-- A conversion lies in the text, and so does the character of a known one. -/
theorem scan_count {found : Option Piece} {args' : List Word} {count : ℕ}
    (hscan : scan text spec args = some (found, count, args')) :
    count ≤ text.length ∧ (found ≠ none → count < text.length) := by
  induction text, spec, args using scan.induct generalizing count with
  | case1 =>
    rw [scan] at hscan
    cases hscan
    exact ⟨le_rfl, fun hne => absurd rfl hne⟩
  | case2 spec args byte text hreading =>
    rw [scan, hreading] at hscan
    cases hscan
  | case3 spec args byte text hreading digits =>
    rename_i ih
    have hlength : (digitPrefix text).length ≤ text.length := (List.takeWhile_prefix _).length_le
    rw [scan, hreading] at hscan
    obtain ⟨⟨found, further, left⟩, hfound, hsame⟩ := Option.map_eq_some_iff.mp hscan
    cases hsame
    obtain ⟨hcount, hknown⟩ : further ≤ (text.drop (digitPrefix text).length).length ∧
      (_ → further < (text.drop (digitPrefix text).length).length) := ih hfound
    rw [List.length_drop] at hcount hknown
    rw [List.length_cons]
    exact ⟨by omega, fun hne => by have := hknown hne; omega⟩
  | case4 spec args byte text spec' args'' hreading ih =>
    rw [scan, hreading] at hscan
    obtain ⟨⟨found, further, left⟩, hfound, hsame⟩ := Option.map_eq_some_iff.mp hscan
    cases hsame
    obtain ⟨hcount, hknown⟩ := ih hfound
    exact ⟨Nat.succ_le_succ hcount, fun hne => Nat.succ_lt_succ (hknown hne)⟩
  | case5 spec args byte text piece args'' hreading =>
    rw [scan, hreading] at hscan
    cases hscan
    exact ⟨Nat.zero_le _, fun _ => Nat.succ_pos _⟩
  | case6 spec args byte text hreading =>
    rw [scan, hreading] at hscan
    cases hscan
    exact ⟨Nat.zero_le _, fun _ => Nat.succ_pos _⟩

/-- The characters of an unknown conversion are no `%`. -/
theorem percent_not_mem_unknown {args' : List Word} {count : ℕ}
    (hscan : scan text spec args = some (none, count, args')) :
    percentByte ∉ text.take (count + 1) := by
  induction text, spec, args using scan.induct generalizing count with
  | case1 =>
    rw [scan] at hscan
    cases hscan
    simp
  | case2 spec args byte text hreading =>
    rw [scan, hreading] at hscan
    cases hscan
  | case3 spec args byte text hreading digits =>
    rename_i ih
    have hfirst := ne_percent_of_reading hreading fun _ _ hsame => by cases hsame
    have hprefix : digitPrefix text <+: text := List.takeWhile_prefix _
    have hdigits : percentByte ∉ digitPrefix text := fun hmem =>
      absurd (List.mem_takeWhile_imp hmem) (by decide)
    rw [scan, hreading] at hscan
    obtain ⟨⟨found, further, left⟩, hfound, hsame⟩ := Option.map_eq_some_iff.mp hscan
    cases hsame
    have hcut : text.take (further + (digitPrefix text).length + 1) =
        digitPrefix text ++ (text.drop (digitPrefix text).length).take (further + 1) := by
      rw [Nat.add_right_comm, Nat.add_comm (further + 1), List.take_add,
        ← List.prefix_iff_eq_take.mp hprefix]
    rw [List.take_succ_cons, hcut]
    intro hmem
    rcases List.mem_cons.mp hmem with hsame | hmem
    · exact hfirst hsame
    · exact (List.mem_append.mp hmem).elim hdigits (ih hfound)
  | case4 spec args byte text spec' args'' hreading ih =>
    have hfirst := ne_percent_of_reading hreading fun _ _ hsame => by cases hsame
    rw [scan, hreading] at hscan
    obtain ⟨⟨found, further, left⟩, hfound, hsame⟩ := Option.map_eq_some_iff.mp hscan
    cases hsame
    rw [List.take_succ_cons]
    exact fun hmem => (List.mem_cons.mp hmem).elim hfirst (ih hfound)
  | case5 spec args byte text piece args'' hreading =>
    rw [scan, hreading] at hscan
    cases hscan
  | case6 spec args byte text hreading =>
    have hfirst := ne_percent_of_reading hreading fun _ _ hsame => by cases hsame
    rw [scan, hreading] at hscan
    cases hscan
    rw [List.take_succ_cons, List.take_zero, List.mem_singleton]
    exact hfirst

end Unknown

/-! ## More fuel -/

section More

variable {memory : Memory}
variable {nested nested' : List (BitVec 8) → List Word → Printer → Option Printer}

theorem strnlen_extends (fuel : ℕ) (s : CharPtr) (size : Word) (out : Printer) :
    Extends (strnlen memory fuel s size out) (strnlen memory (fuel + 1) s size out) := by
  induction fuel generalizing s size out with
  | zero => exact Extends.of_none _
  | succ fuel ih =>
    rw [strnlen, strnlen]
    refine Extends.ite (Extends.refl _) (Extends.bind (Extends.refl _) fun _ => ?_)
    exact Extends.ite (Extends.refl _) (Extends.bind (ih _ _ _) fun _ => Extends.refl _)

theorem printChars_extends (altflag : Bool) (fuel : ℕ) (p : CharPtr) (precision width : Word)
    (out : Printer) :
    Extends (printChars memory altflag fuel p precision width out)
      (printChars memory altflag (fuel + 1) p precision width out) := by
  induction fuel generalizing p precision width out with
  | zero => exact Extends.of_none _
  | succ fuel ih =>
    rw [printChars, printChars]
    refine Extends.bind (Extends.refl _) fun _ => Extends.ite (Extends.refl _) ?_
    cases countDown precision with
    | none => exact Extends.refl _
    | some left => exact ih _ _ _ _

theorem printString_extends (fuel : ℕ) (p : CharPtr) (padc width precision : Word) (altflag : Bool)
    (out : Printer) :
    Extends (printString memory fuel p padc width precision altflag out)
      (printString memory (fuel + 1) p padc width precision altflag out) := by
  rw [printString, printString, padBefore, padBefore]
  refine Extends.bind (Extends.ite ?_ (Extends.refl _)) fun _ =>
    Extends.bind (printChars_extends altflag fuel p precision _ _) fun _ => Extends.refl _
  exact Extends.bind (strnlen_extends fuel p precision out) fun _ => Extends.refl _

/-- More fuel for strings, and nested formats that are printed at least as often. -/
theorem Piece.print_extends (hnested : ∀ fmt args out, Extends (nested fmt args out)
    (nested' fmt args out)) (fuel : ℕ) (piece : Piece) (out : Printer) :
    Extends (piece.print memory nested fuel out) (piece.print memory nested' (fuel + 1) out) := by
  cases piece with
  | error arg =>
    refine Extends.ite (Extends.refl _) (Extends.map _ ?_)
    cases (if (if arg.slt 0 then -arg else arg).toNat < maxError then
      errorString (if arg.slt 0 then -arg else arg).toNat else none) with
    | none => exact hnested _ _ _
    | some message =>
      exact Extends.bind (printString_extends fuel _ _ _ _ _ out) fun _ => Extends.refl _
  | string spec arg => exact printString_extends fuel _ _ _ _ _ out
  | _ => exact Extends.refl _

theorem readNumber_extends (fmt : List (BitVec 8)) (fuel index : ℕ) (precision ch : Word)
    (out : Printer) :
    Extends (readNumber fmt fuel index precision ch out)
      (readNumber fmt (fuel + 1) index precision ch out) := by
  induction fuel generalizing index precision ch out with
  | zero => exact Extends.of_none _
  | succ fuel ih =>
    rw [readNumber, readNumber]
    refine Extends.bind (Extends.refl _) fun _ => ?_
    exact Extends.ite (ih _ _ _ _) (Extends.refl _)

theorem conversion_extends (hnested : ∀ fmt args out, Extends (nested fmt args out)
    (nested' fmt args out)) (fmt : List (BitVec 8)) (fuel index : ℕ) (spec : Spec)
    (args : List Word) (out : Printer) :
    Extends (conversion memory nested fmt fuel index spec args out)
      (conversion memory nested' fmt (fuel + 1) index spec args out) := by
  induction fuel generalizing index spec args out with
  | zero => exact Extends.of_none _
  | succ fuel ih =>
    rw [conversion, conversion]
    refine Extends.bind (Extends.refl _) fun _ => Extends.bind ?_ fun step => ?_
    · rw [convert_reading, convert_reading]
      refine Extends.bind (Extends.refl _) fun reading => ?_
      cases reading with
      | digit => exact Extends.map _ (readNumber_extends fmt fuel _ 0 _ _)
      | flag => exact Extends.refl _
      | piece piece args => exact Extends.map _ (piece.print_extends hnested fuel _)
      | unknown => exact Extends.refl _
    · cases step with
      | reswitch spec index args out => exact ih index spec args out
      | done => exact Extends.refl _

theorem vprintfmt_extends (fmt : List (BitVec 8)) (fuel index : ℕ) (args : List Word)
    (out : Printer) :
    Extends (vprintfmt memory fuel fmt index args out)
      (vprintfmt memory (fuel + 1) fmt index args out) := by
  induction fuel generalizing fmt index args out with
  | zero => exact Extends.of_none _
  | succ fuel ih =>
    rw [vprintfmt, vprintfmt]
    refine Extends.bind (Extends.refl _) fun _ => Extends.ite (Extends.refl _) ?_
    refine Extends.ite (ih fmt _ args _) ?_
    exact Extends.bind (conversion_extends (fun fmt args out => ih fmt 0 args out) fmt fuel _ _ args
      _) fun _ => ih fmt _ _ _

/-- A result stands, however much fuel there is. -/
theorem vprintfmt_mono {fmt : List (BitVec 8)} {fuel fuel' index : ℕ} {args : List Word}
    {out printed : Printer} (hle : fuel ≤ fuel')
    (hrun : vprintfmt memory fuel fmt index args out = some printed) :
    vprintfmt memory fuel' fmt index args out = some printed :=
  extends_of_le (fun fuel => vprintfmt_extends fmt fuel index args out) hle printed hrun

end More

/-! ## Whole formats -/

theorem scan_int (err : Word) :
    scan (text "d") Spec.start [err] =
      some (some (.signed Spec.start (err.signExtend 64)), 0, []) := by
  rw [show text "d" = [BitVec.ofNat 8 'd'.toNat] from rfl, scan]
  rfl

/-- The nested format for an error number without a message. -/
theorem printsErrors_vprintfmt (memory : Memory) {fuel : ℕ} (hfuel : 16 ≤ fuel) :
    PrintsErrors fun fmt args out => vprintfmt memory fuel fmt 0 args out := by
  intro err out hsign
  obtain ⟨fuel, rfl⟩ : ∃ n, fuel = n + 4 + 2 + 6 := ⟨fuel - 12, by omega⟩
  have hint : (0 : Word).toInt = 0 := rfl
  rw [BitVec.slt_iff_toInt_lt, hint] at hsign
  have hsame : (err.signExtend 64).toInt = err.toInt := BitVec.toInt_signExtend_of_le (by decide)
  have hplain : ∀ byte ∈ text "error ", IsPlain byte := fun byte hbyte =>
    ⟨fun h => absurd (h ▸ hbyte) (by decide), fun h => absurd (h ▸ hbyte) (by decide)⟩
  -- the text before the number
  obtain ⟨mid, hmid, hrun⟩ := @vprintfmt_text memory (text "error %d") 0 [err] (text "error ")
    (text "%d") rfl (Nat.zero_le _) hplain out
  -- the number
  have hconverts := @conversion_scan memory (text "error %d") (text "d")
    (fun fmt args out => vprintfmt memory (fuel + 4 + 1) fmt 0 args out) (fuel + 4 + 1) 7 Spec.start
    [err] (mid.noteFmt 6) 0 rfl (by decide) (show 1 + 0 < fuel + 4 + 1 by omega)
  rw [scan_int] at hconverts
  obtain ⟨left, next, -, hnext, hconversion⟩ := hconverts
  have hpos : ¬ (err.signExtend 64).slt 0 := by
    rw [BitVec.slt_iff_toInt_lt, hsame]
    exact hsign
  have hvalue : (err.signExtend 64).toNat = err.toNat := by
    have hlt := err.isLt
    have hlt' := (err.signExtend 64).isLt
    rw [BitVec.toInt_eq_toNat_cond, BitVec.toInt_eq_toNat_cond] at hsame
    rw [BitVec.toInt_eq_toNat_cond] at hsign
    split at hsame <;> split at hsame <;> split at hsign <;> omega
  have hnumber := advances_printNumber (text "error %d") Spec.start (show (1 : ℕ) < 10 by decide)
    (err.signExtend 64) next
  rw [hvalue] at hnumber
  have hshown := hmid.append
    ((advances_noteFmt (show 6 ≤ (text "error %d").length by decide) mid).append
      (hnext.append hnumber))
  have hprint : (Piece.signed Spec.start (err.signExtend 64)).print memory
      (fun fmt args out => vprintfmt memory (fuel + 4 + 1) fmt 0 args out) left next =
      some (printNumber Spec.start next (err.signExtend 64) 10) := congrArg some (if_neg hpos)
  rw [hprint] at hconversion
  have hpercent := vprintfmt_percent (show (text "error %d").drop 6 = _ :: text "d" from rfl)
    hconversion
  have hlength : (text "error %d").length = 8 := by decide
  have hend := @vprintfmt_end memory (fuel + 4) (text "error %d") []
    (printNumber Spec.start next (err.signExtend 64) 10)
  rw [hlength] at hend
  have hchars := hshown.chars
  rw [List.nil_append, List.nil_append] at hchars
  exact ⟨_, (hrun _).trans (hpercent.trans hend), rfl, hchars⟩

section Whole

variable {memory : Memory} {fmt text : List (BitVec 8)} {index : ℕ} {args : List Word}

/-- The step of `vprintfmt` over a conversion that has a text. -/
theorem vprintfmt_step {found : Option Piece} {count : ℕ} {args' : List Word} {chars : List Word}
    (hdrop : fmt.drop index = percentByte :: text) (hnul : 0 ∉ text)
    (hscan : scan text Spec.start args = some (found, count, args'))
    (htext : (found.getD (.unknown (text.take (count + 1)))).Text memory chars) :
    ∃ bound place, place ≤ fmt.length ∧ fmt.drop place = text.drop (count + 1) ∧
      ∀ fuel out, ∃ fuel' mid, fuel ≤ fuel' ∧
        Advances fmt out chars
          ((found.getD (.unknown (text.take (count + 1)))).after out.csa) mid ∧
        vprintfmt memory (fuel + bound) fmt index args out =
          vprintfmt memory fuel' fmt place args' mid := by
  have hnext : index + 1 ≤ fmt.length := index_succ_le hdrop
  have hle : index ≤ fmt.length := (Nat.le_succ _).trans hnext
  obtain ⟨hcount, hknown⟩ := scan_count hscan
  cases found with
  | some piece =>
    rw [Option.getD_some] at htext ⊢
    obtain ⟨bound, hprint⟩ := Piece.print_text htext fmt
    refine ⟨text.length + bound + 17, index + 1 + count + 1, ?_, ?_, fun fuel out => ?_⟩
    · exact index_le (drop_succ hdrop) hnext (hknown nofun)
    · rw [Nat.add_assoc, ← List.drop_drop, drop_succ hdrop]
    · obtain ⟨more, hmore⟩ : ∃ n, n = fuel + text.length + bound + 16 := ⟨_, rfl⟩
      have hconverts := @conversion_scan memory fmt text
        (fun fmt args out => vprintfmt memory more fmt 0 args out) more (index + 1) Spec.start args
        (out.noteFmt index) bound (drop_succ hdrop) hnext (by omega)
      rw [hscan] at hconverts
      obtain ⟨left, mid, hleft, hmid, hconversion⟩ := hconverts
      have hmany : 16 ≤ more := by omega
      obtain ⟨printed, hprinted, hadvances⟩ :=
        hprint _ (printsErrors_vprintfmt memory hmany) left hleft mid
      have hstart := (advances_noteFmt hle out).append hmid
      refine ⟨more, printed, by omega, ?_, ?_⟩
      · rw [hstart.csa] at hadvances
        exact hstart.trans hadvances
      · rw [show fuel + (text.length + bound + 17) = more + 1 by omega]
        refine vprintfmt_percent hdrop ?_
        rw [hconversion, hprinted, Option.map_some]
  | none =>
    have hother := percent_not_mem_unknown hscan
    have hfirst : percentByte ∉ text.take count := fun hmem =>
      hother (List.take_subset_take_left text (Nat.le_succ count) hmem)
    have hplain : ∀ byte ∈ text.take (count + 1), IsPlain byte := fun byte hbyte =>
      ⟨fun h => hnul (List.mem_of_mem_take (h ▸ hbyte)), fun h => hother (h ▸ hbyte)⟩
    have hcut : fmt.drop (index + 1) = text.take (count + 1) ++ text.drop (count + 1) := by
      rw [drop_succ hdrop, List.take_append_drop]
    have hshort : (text.take (count + 1)).length ≤ text.length := List.length_take_le' _ _
    refine ⟨text.length + 2, index + 1 + (text.take (count + 1)).length, ?_, ?_,
      fun fuel out => ?_⟩
    · exact index_le (drop_succ hdrop) hnext hshort
    · exact drop_append_length hcut
    · obtain ⟨more, hmore⟩ : ∃ n, n = fuel + text.length + 1 := ⟨_, rfl⟩
      have hconverts := @conversion_scan memory fmt text
        (fun fmt args out => vprintfmt memory more fmt 0 args out) more (index + 1) Spec.start args
        (out.noteFmt index) 0 (drop_succ hdrop) hnext (by omega)
      rw [hscan] at hconverts
      obtain ⟨mid, hmid, hconversion⟩ := hconverts
      obtain ⟨back, hback, hplace⟩ := backToPercent_eq hdrop hle hcount hfirst
        (mid.putch (chr '%'))
      obtain ⟨printed, hprinted, hrun⟩ := @vprintfmt_text memory fmt (index + 1) args'
        (text.take (count + 1)) (text.drop (count + 1)) hcut hnext hplain back
      have hstart := (advances_noteFmt hle out).append hmid
      have hchars : chars = [chr '%'] ++ ([] ++
          (text.take (count + 1)).map fun byte => byte.setWidth 32) := htext
      refine ⟨more - (text.take (count + 1)).length, printed, by omega, ?_, ?_⟩
      · rw [hchars]
        exact hstart.append ((advances_putch fmt mid _).append (hback.append hprinted))
      · rw [show fuel + (text.length + 2) = more + 1 by omega]
        rw [hplace, Option.map_some] at hconversion
        rw [vprintfmt_percent hdrop hconversion, ← hrun, Nat.sub_add_cancel (by omega)]

/-- A conversion that `vprintfmt` has passed is known, with a text. -/
theorem text_of_vprintfmt {fuel : ℕ} {out printed : Printer}
    (hdrop : fmt.drop index = percentByte :: text)
    (hrun : vprintfmt memory fuel fmt index args out = some printed) :
    ∃ found count args' chars, scan text Spec.start args = some (found, count, args') ∧
      (found.getD (.unknown (text.take (count + 1)))).Text memory chars := by
  obtain ⟨more, hmore⟩ : ∃ n, n = fuel + text.length + 1 := ⟨_, rfl⟩
  have hconverts := @conversion_scan memory fmt text
    (fun fmt args out => vprintfmt memory more fmt 0 args out) more (index + 1) Spec.start args
    (out.noteFmt index) 0 (drop_succ hdrop) (index_succ_le hdrop) (by omega)
  have hlong := vprintfmt_mono (show fuel ≤ more + 1 by omega) hrun
  rw [vprintfmt_conversion hdrop] at hlong
  obtain ⟨converted, hconverted, -⟩ := Option.bind_eq_some_iff.mp hlong
  rw [hconverted] at hconverts
  match hscan : scan text Spec.start args with
  | none =>
    rw [hscan] at hconverts
    cases hconverts
  | some (some piece, count, args') =>
    rw [hscan] at hconverts
    obtain ⟨left, mid, -, -, hprint⟩ := hconverts
    obtain ⟨shown, hshown, -⟩ := Option.map_eq_some_iff.mp hprint.symm
    obtain ⟨chars, hchars⟩ := Piece.text_of_print hshown
    exact ⟨some piece, count, args', chars, rfl, hchars⟩
  | some (none, count, args') => exact ⟨none, count, args', _, rfl, rfl⟩

/-- The characters that pieces emit, each with its colour. -/
def coloured (csa : Word) : List (Piece × List Word) → List (Word × Word)
  | [] => []
  | (piece, chars) :: rest => (chars.map fun ch => (ch, csa)) ++ coloured (piece.after csa) rest

theorem pieces_percent :
    pieces (percentByte :: text) args =
      (scan text Spec.start args).bind fun (found, count, args) =>
        (pieces (text.drop (count + 1)) args).map
          (found.getD (.unknown (text.take (count + 1))) :: ·) := by
  rw [pieces, if_pos rfl]
  cases scan text Spec.start args <;> rfl

theorem pieces_plain {byte : BitVec 8} (hplain : IsPlain byte) :
    pieces (byte :: text) args = (pieces text args).map (.plain byte :: ·) := by
  rw [pieces, if_neg hplain.ne_percent]

/-- A conversion without flags. -/
theorem pieces_single {byte : BitVec 8} {piece : Piece} {args' : List Word}
    (hreading : Spec.start.reading (byte.setWidth 32) args = some (.piece piece args')) :
    pieces (percentByte :: byte :: text) args = (pieces text args').map (piece :: ·) := by
  rw [pieces_percent, scan, hreading]
  rfl

/-- A run ends if there are arguments for all the pieces, and each of them has a text. -/
theorem vprintfmt_ends {ps : List Piece} (hdrop : fmt.drop index = text) (hle : index ≤ fmt.length)
    (hnul : 0 ∉ text) (hpieces : pieces text args = some ps)
    (htexts : ∀ piece ∈ ps, ∃ chars, piece.Text memory chars) :
    ∃ bound, ∀ fuel, bound ≤ fuel → ∀ out, ∃ printed,
      vprintfmt memory fuel fmt index args out = some printed := by
  obtain ⟨length, hlength⟩ : ∃ n, text.length = n := ⟨_, rfl⟩
  induction length using Nat.strong_induction_on generalizing text index args ps with
  | _ length ih =>
    cases text with
    | nil =>
      have hend : index = fmt.length := hle.antisymm (List.drop_eq_nil_iff.mp hdrop)
      refine ⟨1, fun fuel hfuel out => ?_⟩
      obtain ⟨fuel, rfl⟩ : ∃ n, fuel = n + 1 := ⟨fuel - 1, by omega⟩
      exact ⟨_, hend ▸ vprintfmt_end fmt args out⟩
    | cons byte text =>
      rw [List.length_cons] at hlength
      have htail : 0 ∉ text := fun hmem => hnul (List.mem_cons_of_mem _ hmem)
      by_cases hbyte : byte = percentByte
      · subst hbyte
        rw [pieces_percent] at hpieces
        obtain ⟨⟨found, count, args'⟩, hscan, hmore⟩ := Option.bind_eq_some_iff.mp hpieces
        obtain ⟨rest, hrest, rfl⟩ := Option.map_eq_some_iff.mp hmore
        obtain ⟨chars, htext⟩ := htexts _ List.mem_cons_self
        obtain ⟨bound, place, hplace, hbehind, hstep⟩ := vprintfmt_step hdrop htail hscan htext
        obtain ⟨bound', hends⟩ := ih _ (by rw [List.length_drop]; omega) hbehind hplace
          (fun hmem => htail (List.mem_of_mem_drop hmem)) hrest
          (fun piece hpiece => htexts piece (List.mem_cons_of_mem _ hpiece)) rfl
        refine ⟨bound + bound', fun fuel hfuel out => ?_⟩
        obtain ⟨fuel', mid, hfuel', -, hrun⟩ := hstep (fuel - bound) out
        rw [show fuel = fuel - bound + bound by omega, hrun]
        exact hends fuel' (by omega) mid
      · have hplain : IsPlain byte := ⟨fun h => hnul (h ▸ List.mem_cons_self), hbyte⟩
        rw [pieces_plain hplain] at hpieces
        obtain ⟨rest, hrest, rfl⟩ := Option.map_eq_some_iff.mp hpieces
        obtain ⟨bound, hends⟩ := ih _ (by omega) (drop_succ hdrop) (index_succ_le hdrop) htail hrest
          (fun piece hpiece => htexts piece (List.mem_cons_of_mem _ hpiece)) rfl
        refine ⟨bound + 1, fun fuel hfuel out => ?_⟩
        obtain ⟨fuel, rfl⟩ : ∃ n, fuel = n + 1 := ⟨fuel - 1, by omega⟩
        rw [vprintfmt_plain hdrop hplain]
        exact hends fuel (by omega) _

/-- What a run emits: the texts of its pieces. -/
theorem vprintfmt_emits {fuel : ℕ} {out printed : Printer} (hdrop : fmt.drop index = text)
    (hle : index ≤ fmt.length) (hnul : 0 ∉ text)
    (hrun : vprintfmt memory fuel fmt index args out = some printed) :
    ∃ emitted : List (Piece × List Word), pieces text args = some (emitted.map Prod.fst) ∧
      (∀ e ∈ emitted, e.1.Text memory e.2) ∧
      printed.chars = out.chars ++ coloured out.csa emitted ∧ printed.csa = 0x0700 ∧
      ∀ i ∈ printed.fmtReads, i ∈ out.fmtReads ∨ i ≤ fmt.length := by
  obtain ⟨length, hlength⟩ : ∃ n, text.length = n := ⟨_, rfl⟩
  induction length using Nat.strong_induction_on generalizing text index args fuel out with
  | _ length ih =>
    have hlong := vprintfmt_mono (Nat.le_succ fuel) hrun
    cases text with
    | nil =>
      have hend : index = fmt.length := hle.antisymm (List.drop_eq_nil_iff.mp hdrop)
      rw [hend, vprintfmt_end] at hlong
      cases hlong
      refine ⟨[], by rw [pieces]; rfl, fun _ he => absurd he List.not_mem_nil,
        (List.append_nil _).symm, rfl, (advances_noteFmt le_rfl out).reads⟩
    | cons byte text =>
      rw [List.length_cons] at hlength
      have htail : 0 ∉ text := fun hmem => hnul (List.mem_cons_of_mem _ hmem)
      by_cases hbyte : byte = percentByte
      · subst hbyte
        obtain ⟨found, count, args', chars, hscan, htext⟩ := text_of_vprintfmt hdrop hrun
        obtain ⟨bound, place, hplace, hbehind, hstep⟩ := vprintfmt_step hdrop htail hscan htext
        obtain ⟨fuel', mid, -, hmid, hrest⟩ := hstep fuel out
        rw [vprintfmt_mono (Nat.le_add_right fuel bound) hrun] at hrest
        obtain ⟨emitted, hpieces, htexts, hchars, hcsa, hreads⟩ := ih _
          (by rw [List.length_drop]; omega) hbehind hplace
          (fun hmem => htail (List.mem_of_mem_drop hmem)) hrest.symm rfl
        obtain ⟨piece, hpiece⟩ : ∃ piece, found.getD (.unknown (text.take (count + 1))) = piece :=
          ⟨_, rfl⟩
        rw [hpiece] at htext hmid
        refine ⟨(piece, chars) :: emitted, ?_, ?_, ?_, hcsa, ?_⟩
        · rw [pieces_percent, hscan, Option.bind_some]
          dsimp only
          rw [hpieces, hpiece]
          rfl
        · exact List.forall_mem_cons.mpr ⟨htext, htexts⟩
        · rw [hchars, hmid.chars, hmid.csa, coloured, List.append_assoc]
        · exact fun i hi => (hreads i hi).elim (hmid.reads i) Or.inr
      · have hplain : IsPlain byte := ⟨fun h => hnul (h ▸ List.mem_cons_self), hbyte⟩
        rw [vprintfmt_plain hdrop hplain] at hlong
        have hmid := (advances_noteFmt hle out).append (advances_putch fmt (out.noteFmt index)
          (byte.setWidth 32))
        obtain ⟨emitted, hpieces, htexts, hchars, hcsa, hreads⟩ := ih _ (by omega)
          (drop_succ hdrop) (index_succ_le hdrop) htail hlong rfl
        refine ⟨(.plain byte, [byte.setWidth 32]) :: emitted, ?_, ?_, ?_, hcsa, ?_⟩
        · rw [pieces_plain hplain, hpieces]
          rfl
        · exact List.forall_mem_cons.mpr ⟨rfl, htexts⟩
        · rw [hchars, hmid.chars, hmid.csa, coloured, List.append_assoc]
          rfl
        · exact fun i hi => (hreads i hi).elim (hmid.reads i) Or.inr

end Whole

end OsLabs.Jos
