import OsLabs.Jos.Formats

/-!
# The text of the pieces of a format

Each piece emits a text that depends on its argument only and, for `%s`, on the
bytes that memory holds.  `%e` of the least `int` has no text, as `vprintfmt`
would have to index `error_string` with it; nor has `%s` of a string that cannot
be read.
-/

namespace OsLabs.Jos

open OsLabs.Numerals

/-! ## Texts -/

/-- The bytes that `%s` shows of the string at `p`, with `precision` of them at most. -/
inductive StringAt (memory : Memory) : CharPtr → Word → List (BitVec 8) → Prop
  | nul {p : CharPtr} {precision : Word} (hread : p.fetch memory = some 0) :
      StringAt memory p precision []
  | full {p : CharPtr} {precision : Word} {byte : BitVec 8} (hread : p.fetch memory = some byte)
      (hne : byte ≠ 0) (hcount : countDown precision = none) : StringAt memory p precision []
  | next {p : CharPtr} {precision left : Word} {byte : BitVec 8} {bytes : List (BitVec 8)}
      (hread : p.fetch memory = some byte) (hne : byte ≠ 0)
      (hcount : countDown precision = some left) (hrest : StringAt memory p.next left bytes) :
      StringAt memory p precision (byte :: bytes)

/-- A byte of a string as `%s` shows it. -/
def shownByte (altflag : Bool) (byte : BitVec 8) : Word :=
  let ch := byte.signExtend 32
  if altflag ∧ (ch.slt (chr ' ') ∨ (chr '~').slt ch) then chr '?' else ch

/-- The padding before a string of `%s`, and the width that is left. -/
def Spec.padding (spec : Spec) (length : ℕ) : ℕ × Word :=
  let room := spec.width - BitVec.ofNat 32 (min length spec.precision.toNat)
  if (0 : Word).slt spec.width ∧ spec.padc ≠ chr '-' then
    (timesAbove room, if (0 : Word).slt room then 0 else room)
  else (0, spec.width)

/-- The text of `%s` for the bytes of the string. -/
def Spec.stringText (spec : Spec) (bytes : List (BitVec 8)) : List Word :=
  List.replicate (spec.padding bytes.length).1 spec.padc ++ (bytes.map (shownByte spec.altflag) ++
    List.replicate (timesAbove ((spec.padding bytes.length).2 - BitVec.ofNat 32 bytes.length))
      (chr ' '))

def Spec.numberText (spec : Spec) (base num : ℕ) : List Word :=
  List.replicate (timesAbove (spec.width - BitVec.ofNat 32 (numeral base num).length)) spec.padc ++
    (numeral base num).map digitChar

/-- The error number of `%e`, without its sign. -/
def errorNumber (arg : Word) : Word := if arg.slt 0 then -arg else arg

/-- The message for an error number, if there is one. -/
def errorMessage (err : Word) : Option (List (BitVec 8)) :=
  if err.toNat < maxError then errorString err.toNat else none

def errorText (err : Word) : List Word :=
  match errorMessage err with
  | some message => message.map (shownByte false)
  | none => (text "error ").map (fun byte => byte.setWidth 32) ++ Spec.start.numberText 10 err.toNat

/-- The string of `%s`. -/
def stringPtr (arg : Word) : CharPtr := if arg = 0 then .const (text "(null)") 0 else .mem arg

/-- The piece emits `chars`. -/
def Piece.Text (memory : Memory) (piece : Piece) (chars : List Word) : Prop :=
  match piece with
  | .plain byte => chars = [byte.setWidth 32]
  | .char arg => chars = [arg]
  | .error arg => ¬ (errorNumber arg).slt 0 ∧ chars = errorText (errorNumber arg)
  | .string spec arg =>
      ∃ bytes, StringAt memory (stringPtr arg) spec.precision bytes ∧ chars = spec.stringText bytes
  | .signed spec num =>
      chars = if num.slt 0 then chr '-' :: spec.numberText 10 (-num).toNat
        else spec.numberText 10 num.toNat
  | .unsigned spec base _ num => chars = spec.numberText base num.toNat
  | .pointer spec arg => chars = chr '0' :: chr 'x' :: spec.numberText 16 arg.toNat
  | .percent => chars = [chr '%']
  | .colour _ => chars = []
  | .unknown text => chars = chr '%' :: text.map fun byte => byte.setWidth 32

/-- The colour after a piece. -/
def Piece.after (csa : Word) : Piece → Word
  | .error _ => 0x0700
  | .colour num => num.setWidth 32
  | _ => csa

/-! ## Strings -/

section Strings

variable {memory : Memory} {fmt bytes : List (BitVec 8)} {p : CharPtr} {precision size width : Word}
variable {fuel : ℕ} {out : Printer}

/-- Only one text can be shown of a string. -/
theorem StringAt.unique {bytes' : List (BitVec 8)} (hstring : StringAt memory p precision bytes)
    (hstring' : StringAt memory p precision bytes') : bytes = bytes' := by
  induction hstring generalizing bytes' with
  | nul hread =>
    cases hstring' with
    | nul => rfl
    | full => rfl
    | next hread' hne => exact absurd (Option.some.inj (hread'.symm.trans hread)) hne
  | full hread hne hcount =>
    cases hstring' with
    | nul => rfl
    | full => rfl
    | next _ _ hcount' => rw [hcount] at hcount'; cases hcount'
  | next hread hne hcount _ ih =>
    cases hstring' with
    | nul hread' => exact absurd (Option.some.inj (hread.symm.trans hread')) hne
    | full _ _ hcount' => rw [hcount] at hcount'; cases hcount'
    | next hread' _ hcount' hrest' =>
      cases hread.symm.trans hread'
      cases hcount.symm.trans hcount'
      rw [ih hrest']

theorem advances_noteStr (fmt : List (BitVec 8)) (out : Printer) (p : CharPtr) :
    Advances fmt out [] out.csa (out.noteStr p) :=
  ⟨(List.append_nil _).symm, rfl, fun _ hi => Or.inl hi⟩

theorem readChar_of_fetch {byte : BitVec 8} (hread : p.fetch memory = some byte) (out : Printer) :
    out.readChar memory p = some (byte.signExtend 32, out.noteStr p) := by
  rw [Printer.readChar, hread]
  rfl

theorem signExtend_eq_zero {byte : BitVec 8} : byte.signExtend 32 = 0 ↔ byte = 0 := by
  constructor
  · intro hzero
    apply BitVec.eq_of_toInt_eq
    calc
      byte.toInt = (byte.signExtend 32).toInt := (BitVec.toInt_signExtend_of_le (by decide)).symm
      _ = (0 : BitVec 8).toInt := by rw [hzero]; rfl
  · rintro rfl
    rfl

/-- `countDown` of a precision that is not negative. -/
theorem countDown_of_nonneg (hpos : ¬ precision.slt 0) :
    countDown precision = if precision = 0 then none else some (precision - 1) := by
  rw [countDown, if_neg hpos]
  by_cases hzero : precision = 0
  · rw [hzero]
    rfl
  · have hint : (0 : Word).toInt = 0 := rfl
    rw [BitVec.slt_iff_toInt_lt, hint] at hpos
    have hlow : -2 ^ 31 + ((1 : ℕ) : ℤ) ≤ precision.toInt := by omega
    have hne : precision.toInt ≠ 0 := fun h => hzero (BitVec.eq_of_toInt_eq h)
    have hleft : ¬ (precision - 1).slt 0 := by
      have hstep : (precision - 1).toInt = precision.toInt - (1 : ℕ) := toInt_sub_ofNat hlow
      rw [BitVec.slt_iff_toInt_lt, hint]
      omega
    rw [if_neg hleft, if_neg hzero]

theorem countDown_eq_none (hcount : countDown precision = none) : precision = 0 := by
  by_cases hneg : precision.slt 0
  · rw [countDown, if_pos hneg] at hcount
    cases hcount
  · rw [countDown_of_nonneg hneg] at hcount
    by_contra hzero
    rw [if_neg hzero] at hcount
    cases hcount

/-- `strnlen` finds the length of the string, or the number of bytes that it may read. -/
theorem strnlen_string (hstring : StringAt memory p precision bytes)
    (hsize : ¬ precision.slt 0 → size = precision) (hfuel : bytes.length < fuel) (out : Printer) :
    ∃ mid, Advances fmt out [] out.csa mid ∧
      strnlen memory fuel p size out = some (BitVec.ofNat 32 (min bytes.length size.toNat), mid) := by
  induction hstring generalizing size fuel out with
  | @nul p precision hread =>
    obtain ⟨fuel, rfl⟩ : ∃ n, fuel = n + 1 := ⟨fuel - 1, by omega⟩
    rw [strnlen, List.length_nil, Nat.zero_min]
    by_cases hzero : size = 0
    · exact ⟨out, Advances.refl fmt out, if_pos hzero⟩
    · refine ⟨_, advances_noteStr fmt out p, ?_⟩
      rw [if_neg hzero, readChar_of_fetch hread]
      rfl
  | full hread hne hcount =>
    obtain ⟨fuel, rfl⟩ : ∃ n, fuel = n + 1 := ⟨fuel - 1, by omega⟩
    have hzero := countDown_eq_none hcount
    have hsize0 : size = 0 := by rw [hsize (by rw [hzero]; decide), hzero]
    rw [strnlen, List.length_nil, Nat.zero_min]
    exact ⟨out, Advances.refl fmt out, if_pos hsize0⟩
  | @next p precision left byte bytes hread hne hcount hrest ih =>
    obtain ⟨fuel, rfl⟩ : ∃ n, fuel = n + 1 := ⟨fuel - 1, by omega⟩
    rw [List.length_cons] at hfuel ⊢
    by_cases hzero : size = 0
    · rw [strnlen, hzero, if_pos rfl, show (0 : Word).toNat = 0 from rfl, Nat.min_zero]
      exact ⟨out, Advances.refl fmt out, rfl⟩
    · -- one more byte is counted
      have hleft : ¬ left.slt 0 → size - 1 = left := by
        intro hpos
        by_cases hneg : precision.slt 0
        · rw [countDown, if_pos hneg] at hcount
          exact absurd (Option.some.inj hcount ▸ hneg) hpos
        · rw [countDown_of_nonneg hneg, ← hsize hneg, if_neg hzero] at hcount
          exact Option.some.inj hcount
      obtain ⟨mid, hmid, hrun⟩ := @ih (size - 1) fuel hleft (by omega) (out.noteStr p)
      have hpos : size.toNat ≠ 0 := fun h => hzero (BitVec.eq_of_toNat_eq h)
      have hsub : (size - 1).toNat + 1 = size.toNat := by
        have hlt := size.isLt
        rw [BitVec.toNat_sub, show (1 : Word).toNat = 1 from rfl]
        omega
      refine ⟨mid, (advances_noteStr fmt out p).append hmid, ?_⟩
      rw [strnlen, if_neg hzero, readChar_of_fetch hread, Option.bind_eq_bind, Option.bind_some]
      dsimp only
      rw [if_neg (signExtend_eq_zero.not.mpr hne), hrun, ← hsub, Nat.add_min_add_right,
        BitVec.ofNat_add]
      rfl

/-- The loop of `%s` shows the string. -/
theorem printChars_string (hstring : StringAt memory p precision bytes) (altflag : Bool)
    (hfuel : bytes.length < fuel) (width : Word) (out : Printer) :
    ∃ mid, Advances fmt out (bytes.map (shownByte altflag)) out.csa mid ∧
      printChars memory altflag fuel p precision width out =
        some (width - BitVec.ofNat 32 bytes.length, mid) := by
  induction hstring generalizing fuel width out with
  | @nul p precision hread =>
    obtain ⟨fuel, rfl⟩ : ∃ n, fuel = n + 1 := ⟨fuel - 1, by omega⟩
    refine ⟨_, advances_noteStr fmt out p, ?_⟩
    rw [printChars, readChar_of_fetch hread, List.length_nil, BitVec.sub_zero]
    rfl
  | @full p precision byte hread hne hcount =>
    obtain ⟨fuel, rfl⟩ : ∃ n, fuel = n + 1 := ⟨fuel - 1, by omega⟩
    refine ⟨_, advances_noteStr fmt out p, ?_⟩
    rw [printChars, readChar_of_fetch hread, List.length_nil, BitVec.sub_zero, Option.bind_eq_bind,
      Option.bind_some]
    dsimp only
    rw [if_neg (signExtend_eq_zero.not.mpr hne), hcount]
    rfl
  | @next p precision left byte bytes hread hne hcount hrest ih =>
    obtain ⟨fuel, rfl⟩ : ∃ n, fuel = n + 1 := ⟨fuel - 1, by omega⟩
    rw [List.length_cons] at hfuel
    have hput := (advances_noteStr fmt out p).append
      (advances_putch fmt (out.noteStr p) (shownByte altflag byte))
    obtain ⟨mid, hmid, hrun⟩ := @ih fuel (by omega) (width - 1)
      ((out.noteStr p).putch (shownByte altflag byte))
    refine ⟨mid, hput.append hmid, ?_⟩
    rw [printChars, readChar_of_fetch hread, Option.bind_eq_bind, Option.bind_some]
    dsimp only
    rw [if_neg (signExtend_eq_zero.not.mpr hne), hcount]
    refine hrun.trans ?_
    rw [List.length_cons, BitVec.ofNat_add, add_comm, ← sub_sub]
    rfl

/-- A loop of `%s` that ends has shown a string. -/
theorem StringAt.of_printChars {altflag : Bool} {result : Word × Printer}
    (hrun : printChars memory altflag fuel p precision width out = some result) :
    ∃ bytes, StringAt memory p precision bytes := by
  induction fuel generalizing p precision width out with
  | zero => cases hrun
  | succ fuel ih =>
    cases hread : p.fetch memory with
    | none =>
      rw [printChars, Printer.readChar, hread] at hrun
      cases hrun
    | some byte =>
      rw [printChars, readChar_of_fetch hread, Option.bind_eq_bind, Option.bind_some] at hrun
      dsimp only at hrun
      by_cases hne : byte = 0
      · exact ⟨[], .nul (hne ▸ hread)⟩
      · rw [if_neg (signExtend_eq_zero.not.mpr hne)] at hrun
        cases hcount : countDown precision with
        | none => exact ⟨[], .full hread hne hcount⟩
        | some left =>
          rw [hcount] at hrun
          obtain ⟨bytes, hbytes⟩ := ih hrun
          exact ⟨byte :: bytes, .next hread hne hcount hbytes⟩

theorem advances_putchs (fmt : List (BitVec 8)) (out : Printer) (ch : Word) (count : ℕ) :
    Advances fmt out (List.replicate count ch) out.csa (out.putchs ch count) := by
  induction count generalizing out with
  | zero => exact Advances.refl fmt out
  | succ count ih => exact (advances_putch fmt out ch).append (ih (out.putch ch))

theorem padBefore_string {spec : Spec} (hstring : StringAt memory p spec.precision bytes)
    (hfuel : bytes.length < fuel) (out : Printer) :
    ∃ mid, Advances fmt out (List.replicate (spec.padding bytes.length).1 spec.padc) out.csa mid ∧
      padBefore memory fuel p spec.padc spec.width spec.precision out =
        some ((spec.padding bytes.length).2, mid) := by
  rw [padBefore, Spec.padding]
  dsimp only
  by_cases hpads : (0 : Word).slt spec.width ∧ spec.padc ≠ chr '-'
  · obtain ⟨counted, hcounted, hlength⟩ := @strnlen_string memory fmt bytes p spec.precision
      spec.precision fuel hstring (fun _ => rfl) hfuel out
    rw [if_pos hpads, if_pos hpads, hlength]
    exact ⟨_, hcounted.append (advances_putchs fmt counted _ _), rfl⟩
  · rw [if_neg hpads, if_neg hpads]
    exact ⟨out, Advances.refl fmt out, rfl⟩

/-- `%s` emits its text. -/
theorem printString_string {spec : Spec} (hstring : StringAt memory p spec.precision bytes)
    (hfuel : bytes.length < fuel) (out : Printer) :
    ∃ printed, printString memory fuel p spec.padc spec.width spec.precision spec.altflag out =
        some printed ∧ Advances fmt out (spec.stringText bytes) out.csa printed := by
  obtain ⟨before, hbefore, hpad⟩ := @padBefore_string memory fmt bytes p fuel spec hstring hfuel out
  obtain ⟨shown, hshown, hchars⟩ := @printChars_string memory fmt bytes p spec.precision fuel
    hstring spec.altflag hfuel (spec.padding bytes.length).2 before
  rw [printString, hpad, Option.bind_eq_bind, Option.bind_some]
  dsimp only
  rw [hchars]
  exact ⟨_, rfl, hbefore.append (hshown.append (advances_putchs fmt shown _ _))⟩

/-- `%s` ends for strings only. -/
theorem StringAt.of_printString {spec : Spec} {printed : Printer}
    (hrun : printString memory fuel p spec.padc spec.width spec.precision spec.altflag out =
      some printed) : ∃ bytes, StringAt memory p spec.precision bytes := by
  rw [printString] at hrun
  obtain ⟨before, -, hrun⟩ := Option.bind_eq_some_iff.mp hrun
  obtain ⟨shown, hshown, -⟩ := Option.bind_eq_some_iff.mp hrun
  exact StringAt.of_printChars hshown

/-- A string constant is shown up to its end. -/
theorem StringAt.const {constant rest : List (BitVec 8)} {index : ℕ} (hnul : 0 ∉ constant)
    (hdrop : constant.drop index = rest) (hle : index ≤ constant.length) :
    StringAt memory (.const constant index) (-1) rest := by
  induction rest generalizing index with
  | nil =>
    have hend : index = constant.length := hle.antisymm (List.drop_eq_nil_iff.mp hdrop)
    exact .nul (if_pos hend)
  | cons byte rest ih =>
    have hlt : index < constant.length := by
      by_contra hge
      rw [List.drop_eq_nil_of_le (not_lt.mp hge)] at hdrop
      cases hdrop
    have hcons : constant[index] = byte ∧ constant.drop (index + 1) = rest := by
      rw [List.drop_eq_getElem_cons hlt] at hdrop
      exact List.cons.inj hdrop
    have hread : CharPtr.fetch memory (.const constant index) = some byte := by
      rw [CharPtr.fetch, fetch, if_neg hlt.ne, List.getElem?_eq_getElem hlt, hcons.1]
    have hne : byte ≠ 0 := by
      rintro rfl
      exact hnul (hcons.1 ▸ List.getElem_mem hlt)
    exact .next hread hne rfl (ih hcons.2 hlt)

end Strings

/-! ## Numbers and errors -/

section Print

variable {memory : Memory} {fmt : List (BitVec 8)}
variable {nested : List (BitVec 8) → List Word → Printer → Option Printer}
variable {fuel : ℕ} {out printed : Printer}

theorem printnum_fmtReads (out : Printer) (num base : ℕ) (width padc : Word) :
    (printnum out num base width padc).fmtReads = out.fmtReads := by
  have hpads : ∀ (count : ℕ) (out : Printer), (out.putchs padc count).fmtReads = out.fmtReads := by
    intro count
    induction count with
    | zero => exact fun _ => rfl
    | succ count ih => exact fun out => ih (out.putch padc)
  induction num using Nat.strong_induction_on generalizing width with
  | _ num ih =>
    rw [printnum]
    by_cases hmore : 2 ≤ base ∧ base ≤ num
    · rw [dif_pos hmore]
      exact ih (num / base) (Nat.div_lt_self (by omega) (by omega)) (width - 1)
    · rw [dif_neg hmore]
      exact hpads _ out

theorem advances_printNumber (fmt : List (BitVec 8)) (spec : Spec) {base : ℕ} (hbase : 1 < base)
    (num : BitVec 64) (out : Printer) :
    Advances fmt out (spec.numberText base num.toNat) out.csa (printNumber spec out num base) := by
  have hemits := emits_printnum_wrapped hbase num.toNat out spec.width spec.padc
  refine ⟨hemits.chars, hemits.csa, fun i hi => ?_⟩
  rw [printNumber, printnum_fmtReads] at hi
  exact Or.inl hi

/-- The messages are short, without a NUL, and shown as they are. -/
theorem errorMessage_shown {err : Word} {message : List (BitVec 8)}
    (hmessage : errorMessage err = some message) :
    0 ∉ message ∧ message.length < 32 ∧
      Spec.start.stringText message = message.map (shownByte false) := by
  rw [errorMessage] at hmessage
  split at hmessage
  case isFalse => cases hmessage
  case isTrue hlt =>
    rw [maxError] at hlt
    obtain ⟨number, hnumber⟩ : ∃ number, number = err.toNat := ⟨_, rfl⟩
    rw [← hnumber] at hlt hmessage
    interval_cases number <;> cases hmessage <;> decide

/-- What `printfmt` has to do for an error number that has no message. -/
def PrintsErrors (nested : List (BitVec 8) → List Word → Printer → Option Printer) : Prop :=
  ∀ (err : Word) (out : Printer), ¬ err.slt 0 → ∃ printed : Printer,
    nested (text "error %d") [err] out = some printed ∧ printed.csa = 0x0700 ∧
      printed.chars = out.chars ++ ((text "error ").map (fun byte => byte.setWidth 32) ++
        Spec.start.numberText 10 err.toNat).map fun ch => (ch, out.csa)

theorem printError_text {arg : Word} (hsign : ¬ (errorNumber arg).slt 0)
    (hnested : PrintsErrors nested) (hfuel : 32 ≤ fuel) (out : Printer) :
    ∃ printed, printError memory nested fuel arg out = some printed ∧
      Advances fmt out (errorText (errorNumber arg)) 0x0700 printed := by
  have hprint : printError memory nested fuel arg out =
      if (errorNumber arg).slt 0 then none
      else ((errorMessage (errorNumber arg)).elim
        (nested (text "error %d") [errorNumber arg] out) fun message =>
          printMessage memory fuel message out).map
            fun printed : Printer => { printed with fmtReads := out.fmtReads } := rfl
  rw [hprint, if_neg hsign, errorText]
  cases hmessage : errorMessage (errorNumber arg) with
  | none =>
    obtain ⟨printed, hrun, hcsa, hchars⟩ := hnested (errorNumber arg) out hsign
    rw [Option.elim_none, hrun]
    exact ⟨_, rfl, hchars, hcsa, fun _ hi => Or.inl hi⟩
  | some message =>
    obtain ⟨hnul, hshort, htext⟩ := errorMessage_shown hmessage
    have hstring : StringAt memory (.const message 0) Spec.start.precision message :=
      StringAt.const hnul List.drop_zero (Nat.zero_le _)
    obtain ⟨printed, hrun, hshown⟩ := @printString_string memory fmt message (.const message 0) fuel
      Spec.start hstring (by omega) out
    have hmessage : printMessage memory fuel message out =
        (printString memory fuel (.const message 0) Spec.start.padc Spec.start.width
          Spec.start.precision Spec.start.altflag out).map
            fun out : Printer => { out with csa := 0x0700 } := Option.map_eq_bind.symm
    rw [Option.elim_some, hmessage, hrun]
    rw [htext] at hshown
    exact ⟨_, rfl, hshown.chars, rfl, fun _ hi => Or.inl hi⟩

theorem advances_foldl_putch (fmt : List (BitVec 8)) (out : Printer) (chars : List Word) :
    Advances fmt out chars out.csa (chars.foldl Printer.putch out) := by
  induction chars generalizing out with
  | nil => exact Advances.refl fmt out
  | cons ch chars ih => exact (advances_putch fmt out ch).append (ih (out.putch ch))

/-- A piece that has a text emits it, given enough fuel. -/
theorem Piece.print_text {piece : Piece} {chars : List Word} (htext : piece.Text memory chars)
    (fmt : List (BitVec 8)) :
    ∃ bound, ∀ nested, PrintsErrors nested → ∀ fuel, bound ≤ fuel → ∀ out, ∃ printed,
      piece.print memory nested fuel out = some printed ∧
        Advances fmt out chars (piece.after out.csa) printed := by
  match piece, htext with
  | .plain byte, htext =>
    rw [show chars = [byte.setWidth 32] from htext]
    exact ⟨0, fun _ _ _ _ out => ⟨_, rfl, advances_putch fmt out _⟩⟩
  | .char arg, htext =>
    rw [show chars = [arg] from htext]
    exact ⟨0, fun _ _ _ _ out => ⟨_, rfl, advances_putch fmt out arg⟩⟩
  | .error arg, htext =>
    obtain ⟨hsign, rfl⟩ := htext
    exact ⟨32, fun _ hnested _ hfuel out => printError_text hsign hnested hfuel out⟩
  | .string spec arg, htext =>
    obtain ⟨bytes, hbytes, rfl⟩ := htext
    exact ⟨bytes.length + 1, fun _ _ _ hfuel out => printString_string hbytes hfuel out⟩
  | .signed spec num, htext =>
    refine ⟨0, fun _ _ _ _ out => ⟨_, rfl, ?_⟩⟩
    by_cases hneg : num.slt 0
    · rw [show chars = chr '-' :: spec.numberText 10 (-num).toNat from htext.trans (if_pos hneg),
        if_pos hneg]
      exact (advances_putch fmt out _).append (advances_printNumber fmt spec (by decide) _ _)
    · rw [show chars = spec.numberText 10 num.toNat from htext.trans (if_neg hneg), if_neg hneg]
      exact advances_printNumber fmt spec (by decide) num out
  | .unsigned spec base hbase num, htext =>
    rw [show chars = spec.numberText base num.toNat from htext]
    exact ⟨0, fun _ _ _ _ out => ⟨_, rfl, advances_printNumber fmt spec hbase num out⟩⟩
  | .pointer spec arg, htext =>
    have haddr : (arg.setWidth 64 : BitVec 64).toNat = arg.toNat :=
      BitVec.toNat_setWidth_of_le (by decide)
    rw [show chars = [chr '0'] ++ ([chr 'x'] ++ spec.numberText 16 arg.toNat) from htext, ← haddr]
    exact ⟨0, fun _ _ _ _ out => ⟨_, rfl, (advances_putch fmt out _).append
      ((advances_putch fmt _ _).append (advances_printNumber fmt spec (by decide) _ _))⟩⟩
  | .percent, htext =>
    rw [show chars = [chr '%'] from htext]
    exact ⟨0, fun _ _ _ _ out => ⟨_, rfl, advances_putch fmt out _⟩⟩
  | .colour num, htext =>
    rw [show chars = [] from htext]
    exact ⟨0, fun _ _ _ _ out => ⟨_, rfl, (List.append_nil _).symm, rfl, fun _ hi => Or.inl hi⟩⟩
  | .unknown text, htext =>
    rw [show chars = chr '%' :: text.map (fun byte => byte.setWidth 32) from htext]
    exact ⟨0, fun _ _ _ _ out => ⟨_, rfl, advances_foldl_putch fmt out _⟩⟩

/-- A piece that can be printed has a text. -/
theorem Piece.text_of_print {piece : Piece}
    (hprint : piece.print memory nested fuel out = some printed) :
    ∃ chars, piece.Text memory chars := by
  cases piece with
  | error arg =>
    refine ⟨_, fun hsign => ?_, rfl⟩
    have hnone : printError memory nested fuel arg out = none := if_pos hsign
    cases hnone.symm.trans hprint
  | string spec arg =>
    obtain ⟨bytes, hbytes⟩ := StringAt.of_printString hprint
    exact ⟨_, bytes, hbytes, rfl⟩
  | _ => exact ⟨_, rfl⟩

end Print

/-! ## Pieces without a text -/

/-- A piece that emits nothing. -/
def Piece.Silent (memory : Memory) : Piece → Prop
  | .string spec arg => ¬ (0 : Word).slt spec.width ∧ StringAt memory (stringPtr arg) spec.precision []
  | .colour _ => True
  | _ => False

theorem timesAbove_pos {width : Word} (hpos : (0 : Word).slt width) : timesAbove width ≠ 0 := by
  have hint : (0 : Word).toInt = 0 := rfl
  rw [BitVec.slt_iff_toInt_lt, hint] at hpos
  rw [timesAbove]
  omega

theorem timesAbove_nonpos {width : Word} (hpos : ¬ (0 : Word).slt width) : timesAbove width = 0 := by
  have hint : (0 : Word).toInt = 0 := rfl
  rw [BitVec.slt_iff_toInt_lt, hint] at hpos
  rw [timesAbove]
  omega

theorem Spec.numberText_ne_nil (spec : Spec) (base num : ℕ) : spec.numberText base num ≠ [] := by
  intro hnil
  have hdigits := (List.append_eq_nil_iff.mp hnil).2
  have hpos := length_numeral_pos base num
  rw [List.map_eq_nil_iff.mp hdigits] at hpos
  exact absurd hpos (by decide)

/-- Nothing is shown of a string just when it is empty and there is no room to fill. -/
theorem Spec.stringText_eq_nil {spec : Spec} {bytes : List (BitVec 8)} :
    spec.stringText bytes = [] ↔ bytes = [] ∧ ¬ (0 : Word).slt spec.width := by
  rw [Spec.stringText]
  constructor
  · intro hnil
    obtain ⟨hbefore, hrest⟩ := List.append_eq_nil_iff.mp hnil
    obtain ⟨hbytes, hafter⟩ := List.append_eq_nil_iff.mp hrest
    have hempty := List.map_eq_nil_iff.mp hbytes
    refine ⟨hempty, fun hwidth => ?_⟩
    have hroom : spec.width - BitVec.ofNat 32 (min 0 spec.precision.toNat) = spec.width := by
      rw [Nat.zero_min, BitVec.sub_zero]
    rw [hempty, List.length_nil] at hbefore hafter
    by_cases hpads : (0 : Word).slt spec.width ∧ spec.padc ≠ chr '-'
    · have hpadding : (spec.padding 0).1 = timesAbove spec.width := by
        rw [Spec.padding, if_pos hpads, hroom]
      rw [hpadding, List.replicate_eq_nil_iff] at hbefore
      exact timesAbove_pos hwidth hbefore
    · have hpadding : spec.padding 0 = (0, spec.width) := if_neg hpads
      rw [hpadding, BitVec.sub_zero, List.replicate_eq_nil_iff] at hafter
      exact timesAbove_pos hwidth hafter
  · rintro ⟨rfl, hwidth⟩
    have hpadding : spec.padding ([] : List (BitVec 8)).length = (0, spec.width) :=
      if_neg fun hpads => hwidth hpads.1
    rw [hpadding, List.length_nil, BitVec.sub_zero, timesAbove_nonpos hwidth]
    rfl

theorem errorText_ne_nil (err : Word) : errorText err ≠ [] := by
  rw [errorText]
  cases hmessage : errorMessage err with
  | none => exact fun hnil => Spec.numberText_ne_nil _ _ _ (List.append_eq_nil_iff.mp hnil).2
  | some message =>
    intro hnil
    have hempty : message = [] := List.map_eq_nil_iff.mp hnil
    rw [errorMessage] at hmessage
    split at hmessage
    case isFalse => cases hmessage
    case isTrue hlt =>
      rw [maxError] at hlt
      obtain ⟨number, hnumber⟩ : ∃ number, number = err.toNat := ⟨_, rfl⟩
      rw [← hnumber] at hlt hmessage
      interval_cases number <;> cases hmessage <;> exact absurd hempty (by decide)

theorem Piece.Text.eq_nil_iff {memory : Memory} {piece : Piece} {chars : List Word}
    (htext : piece.Text memory chars) : chars = [] ↔ piece.Silent memory := by
  match piece, htext with
  | .plain _, htext => exact iff_of_false (by rw [show chars = _ from htext]; nofun) id
  | .char _, htext => exact iff_of_false (by rw [show chars = _ from htext]; nofun) id
  | .error arg, htext =>
    obtain ⟨-, rfl⟩ := htext
    exact iff_of_false (errorText_ne_nil _) id
  | .string spec arg, htext =>
    obtain ⟨bytes, hbytes, rfl⟩ := htext
    rw [Spec.stringText_eq_nil]
    constructor
    · rintro ⟨rfl, hwidth⟩
      exact ⟨hwidth, hbytes⟩
    · rintro ⟨hwidth, hempty⟩
      exact ⟨hbytes.unique hempty, hwidth⟩
  | .signed spec num, htext =>
    refine iff_of_false ?_ id
    rw [show chars = _ from htext]
    split
    · nofun
    · exact Spec.numberText_ne_nil _ _ _
  | .unsigned spec base _ num, htext =>
    refine iff_of_false ?_ id
    rw [show chars = _ from htext]
    exact Spec.numberText_ne_nil _ _ _
  | .pointer _ _, htext => exact iff_of_false (by rw [show chars = _ from htext]; nofun) id
  | .percent, htext => exact iff_of_false (by rw [show chars = _ from htext]; nofun) id
  | .colour _, htext => exact iff_of_true htext trivial
  | .unknown _, htext => exact iff_of_false (by rw [show chars = _ from htext]; nofun) id

end OsLabs.Jos
