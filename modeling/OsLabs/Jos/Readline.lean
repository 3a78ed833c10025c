import OsLabs.Jos.Printfmt

/-!
# The line editor

`readline` keeps a line in `buf` and edits it with each character.  Its test for
an erasing character asks for a line that is not empty as well, so that a DEL on
an empty line is taken for a printable character.
-/

namespace OsLabs.Jos

/-! ## `lib/readline.c` -/

def bufLen : ℕ := 1024

/-- The line as far as it has been read, and what has been echoed. -/
structure LineBuf where
  buf : Vector (BitVec 8) bufLen
  i : ℕ
  echoed : List Word

/-- What a character leads to. -/
inductive LineStep
  /-- another character is read -/
  | reading (line : LineBuf)
  | returned (line : LineBuf)
  /-- NULL is returned -/
  | failed (line : LineBuf)

namespace LineBuf

/-- `if (echoing) cputchar(c)`. -/
def echo (line : LineBuf) (echoing : Bool) (c : Word) : LineBuf :=
  if echoing then { line with echoed := line.echoed ++ [c] } else line

/-- The body of the loop of `readline`; no result where it would write outside `buf`. -/
def handle (line : LineBuf) (echoing : Bool) (c : Word) : Option LineStep :=
  if c.slt 0 then some (.failed line)
  else if (c = chr '\x08' ∨ c = chr '\x7f') ∧ 0 < line.i then
    some (.reading { line.echo echoing (chr '\x08') with i := line.i - 1 })
  else if ¬ c.slt (chr ' ') ∧ line.i < bufLen - 1 then
    if hi : line.i < bufLen then
      some (.reading { line.echo echoing c with
        buf := line.buf.set line.i (c.setWidth 8) hi, i := line.i + 1 })
    else none
  else if c = chr '\n' ∨ c = chr '\r' then
    if hi : line.i < bufLen then
      some (.returned { line.echo echoing (chr '\n') with buf := line.buf.set line.i 0 hi })
    else none
  else some (.reading line)

/-- The loop of `readline`, for the results of `getchar`. -/
def read (echoing : Bool) : LineBuf → List Word → Option LineStep
  | line, [] => some (.reading line)
  | line, c :: input =>
      match line.handle echoing c with
      | some (.reading line) => line.read echoing input
      | step => step

end LineBuf

/-- `readline` with `buf` as earlier calls have left it. -/
def readline (echoing : Bool) (buf : Vector (BitVec 8) bufLen) (input : List Word) :
    Option LineStep :=
  LineBuf.read echoing ⟨buf, 0, []⟩ input

/-! ## Lines -/

/-- The characters that erase. -/
def Erases (c : BitVec 8) : Prop := c = 0x08 ∨ c = 0x7f

instance : DecidablePred Erases := fun _ => inferInstanceAs (Decidable (_ ∨ _))

/-- Editing: the characters that erase do so, and printable ones are appended. -/
def editLine (line : List (BitVec 8)) (c : BitVec 8) : List (BitVec 8) :=
  if Erases c then line.dropLast
  else if 0x20 ≤ c ∧ line.length < bufLen - 1 then line ++ [c]
  else line

/-- What `readline` does to its line. -/
def heldLine (line : List (BitVec 8)) (c : BitVec 8) : List (BitVec 8) :=
  if Erases c ∧ 0 < line.length then line.dropLast
  else if 0x20 ≤ c ∧ line.length < bufLen - 1 then line ++ [c]
  else line

/-- How many characters `readline` holds, and whether the first of them is a DEL. -/
def strayStep (held : ℕ × Bool) (c : BitVec 8) : ℕ × Bool :=
  if Erases c ∧ 0 < held.1 then (held.1 - 1, held.2 && decide (1 < held.1))
  else if 0x20 ≤ c ∧ held.1 < bufLen - 1 then
    (held.1 + 1, held.2 || decide (c = 0x7f ∧ held.1 = 0))
  else held

/-- `readline` returns the edited line, as a string within `buf`. -/
def LineEdited (echoing : Bool) (buf : Vector (BitVec 8) bufLen) (keys : List (BitVec 8))
    (ender : BitVec 8) : Prop :=
  ∃ line, readline echoing buf ((keys ++ [ender]).map (·.setWidth 32)) = some (.returned line) ∧
    0 ∈ line.buf.toList ∧ cString line.buf.toList = keys.foldl editLine []

/-! ## The line in the buffer -/

section Held

variable {line : LineBuf} {held edited : List (BitVec 8)} {echoing : Bool} {c ender : BitVec 8}

/-- The buffer holds the line. -/
structure LineBuf.Holds (line : LineBuf) (held : List (BitVec 8)) : Prop where
  i_eq : line.i = held.length
  room : held.length < bufLen
  buf : line.buf.toList.take held.length = held

theorem toNat_byte (byte : BitVec 8) : (byte.setWidth 32 : Word).toNat = byte.toNat :=
  BitVec.toNat_setWidth_of_le (by decide)

/-- A byte as an `int` is not negative. -/
theorem toInt_byte (byte : BitVec 8) : (byte.setWidth 32 : Word).toInt = byte.toNat := by
  have hlt := byte.isLt
  rw [BitVec.toInt_eq_toNat_of_lt (by rw [toNat_byte]; omega), toNat_byte]

theorem byte_eq_chr {byte : BitVec 8} {c : Char} (hc : c.toNat < 256) :
    (byte.setWidth 32 : Word) = chr c ↔ byte = BitVec.ofNat 8 c.toNat := by
  rw [BitVec.toNat_eq, BitVec.toNat_eq, toNat_byte, chr, BitVec.toNat_ofNat, BitVec.toNat_ofNat,
    Nat.mod_eq_of_lt (by omega), Nat.mod_eq_of_lt hc]

theorem byte_not_neg (byte : BitVec 8) : ¬ (byte.setWidth 32 : Word).slt 0 := by
  rw [BitVec.slt_iff_toInt_lt, toInt_byte, show (0 : Word).toInt = 0 from rfl]
  omega

theorem byte_slt_blank (byte : BitVec 8) :
    ¬ (byte.setWidth 32 : Word).slt (chr ' ') ↔ 0x20 ≤ byte := by
  rw [BitVec.slt_iff_toInt_lt, toInt_byte, show (chr ' ').toInt = 32 from rfl, BitVec.le_def,
    show (0x20 : BitVec 8).toNat = 32 from rfl]
  omega

theorem byte_erases (byte : BitVec 8) :
    (byte.setWidth 32 : Word) = chr '\x08' ∨ (byte.setWidth 32 : Word) = chr '\x7f' ↔
      Erases byte :=
  or_congr (byte_eq_chr (by decide)) (byte_eq_chr (by decide))

/-- A character is put behind the line. -/
theorem LineBuf.Holds.set (hholds : line.Holds held) (c : BitVec 8) (hi : line.i < bufLen) :
    (line.buf.set line.i c hi).toList.take (held.length + 1) = held ++ [c] := by
  rw [Vector.toList_set, hholds.i_eq, List.take_succ_eq_append_getElem (by simp [hholds.room]),
    List.take_set_of_le le_rfl, hholds.buf, List.getElem_set_self]

theorem echo_buf (line : LineBuf) (echoing : Bool) (c : Word) :
    (line.echo echoing c).buf = line.buf := by
  cases echoing <;> rfl

/-- A character that does not end the line. -/
theorem LineBuf.Holds.handle (hholds : line.Holds held) (hline : c ≠ 0x0a) (hreturn : c ≠ 0x0d) :
    ∃ line', line.handle echoing (c.setWidth 32) = some (.reading line') ∧
      line'.Holds (heldLine held c) := by
  have hroom := hholds.room
  have hi := hholds.i_eq
  have hsize : bufLen = 1024 := rfl
  have hcond := and_congr_left' (c := 0 < line.i) (byte_erases c)
  have hcond' := and_congr_left' (c := line.i < bufLen - 1) (byte_slt_blank c)
  rw [LineBuf.handle, if_neg (byte_not_neg c), heldLine, ← hi]
  by_cases herase : Erases c ∧ 0 < line.i
  · rw [if_pos (hcond.mpr herase), if_pos herase]
    refine ⟨_, rfl, ?_, ?_, ?_⟩
    · rw [List.length_dropLast, ← hi]
    · rw [List.length_dropLast]
      omega
    · show (line.echo echoing (chr '\x08')).buf.toList.take held.dropLast.length = held.dropLast
      rw [echo_buf, List.length_dropLast]
      calc
        line.buf.toList.take (held.length - 1) =
            (line.buf.toList.take held.length).take (held.length - 1) := by
          rw [List.take_take, Nat.min_eq_left (Nat.sub_le _ _)]
        _ = held.dropLast := by rw [hholds.buf, ← List.dropLast_eq_take]
  rw [if_neg (hcond.not.mpr herase), if_neg herase]
  by_cases hprints : 0x20 ≤ c ∧ line.i < bufLen - 1
  · have hlt : line.i < bufLen := by omega
    have hbyte : (c.setWidth 32 : Word).setWidth 8 = c := by
      rw [BitVec.setWidth_setWidth_of_le _ (by decide), BitVec.setWidth_eq]
    rw [if_pos (hcond'.mpr hprints), if_pos hprints, dif_pos hlt]
    refine ⟨_, rfl, ?_, ?_, ?_⟩
    · rw [List.length_append, List.length_singleton, ← hi]
    · rw [List.length_append, List.length_singleton]
      omega
    · rw [List.length_append, List.length_singleton]
      exact (hholds.set _ hlt).trans (by rw [hbyte])
  · have hends : ¬ ((c.setWidth 32 : Word) = chr '\n' ∨ (c.setWidth 32 : Word) = chr '\r') := by
      rw [byte_eq_chr (by decide), byte_eq_chr (by decide)]
      exact not_or.mpr ⟨hline, hreturn⟩
    rw [if_neg (hcond'.not.mpr hprints), if_neg hprints, if_neg hends]
    exact ⟨line, rfl, hholds⟩

/-- The character that ends the line puts a NUL behind it. -/
theorem LineBuf.Holds.finish (hholds : line.Holds held) (hender : ender = 0x0a ∨ ender = 0x0d) :
    ∃ line', line.handle echoing (ender.setWidth 32) = some (.returned line') ∧
      line'.buf.toList.take (held.length + 1) = held ++ [0] := by
  have hcontrol : ¬ 0x20 ≤ ender ∧ ¬ Erases ender := by
    rcases hender with rfl | rfl <;> decide
  have hends : (ender.setWidth 32 : Word) = chr '\n' ∨ (ender.setWidth 32 : Word) = chr '\r' :=
    hender.imp (byte_eq_chr (by decide)).mpr (byte_eq_chr (by decide)).mpr
  have hlt : line.i < bufLen := hholds.i_eq ▸ hholds.room
  rw [LineBuf.handle, if_neg (byte_not_neg ender),
    if_neg fun h => hcontrol.2 ((byte_erases ender).mp h.1),
    if_neg fun h => hcontrol.1 ((byte_slt_blank ender).mp h.1), if_pos hends, dif_pos hlt]
  exact ⟨_, rfl, hholds.set 0 hlt⟩

/-- A whole line. -/
theorem LineBuf.Holds.read (hender : ender = 0x0a ∨ ender = 0x0d) (keys : List (BitVec 8))
    (hkeys : ∀ c ∈ keys, c ≠ 0x0a ∧ c ≠ 0x0d) (hholds : line.Holds held) :
    ∃ line', line.read echoing ((keys ++ [ender]).map (·.setWidth 32)) = some (.returned line') ∧
      line'.buf.toList.take ((keys.foldl heldLine held).length + 1) =
        keys.foldl heldLine held ++ [0] := by
  induction keys generalizing line held with
  | nil =>
    obtain ⟨line', hhandle, hbuf⟩ := hholds.finish hender
    refine ⟨line', ?_, hbuf⟩
    rw [List.nil_append, List.map_singleton, LineBuf.read, hhandle]
  | cons c keys ih =>
    obtain ⟨hc, hrest⟩ := List.forall_mem_cons.mp hkeys
    obtain ⟨next, hhandle, hnext⟩ := hholds.handle hc.1 hc.2
    obtain ⟨line', hread, hbuf⟩ := ih hrest hnext
    refine ⟨line', ?_, hbuf⟩
    rw [List.cons_append, List.map_cons, LineBuf.read, hhandle]
    exact hread

/-- Only printable characters are held. -/
theorem printable_heldLine (hheld : ∀ byte ∈ held, 0x20 ≤ byte) (c : BitVec 8) :
    ∀ byte ∈ heldLine held c, 0x20 ≤ byte := by
  intro byte hbyte
  rw [heldLine] at hbyte
  split at hbyte
  · exact hheld byte (List.mem_of_mem_dropLast hbyte)
  · split at hbyte
    case isTrue hprints =>
      rcases List.mem_append.mp hbyte with hold | hnew
      · exact hheld byte hold
      · exact List.mem_singleton.mp hnew ▸ hprints.1
    case isFalse => exact hheld byte hbyte

theorem printable_foldl_heldLine (keys : List (BitVec 8)) (hheld : ∀ byte ∈ held, 0x20 ≤ byte) :
    ∀ byte ∈ keys.foldl heldLine held, 0x20 ≤ byte := by
  induction keys generalizing held with
  | nil => exact hheld
  | cons c keys ih => exact ih (printable_heldLine hheld c)

/-- A line and its NUL are a string. -/
theorem cString_eq {bytes : List (BitVec 8)} (hbytes : bytes.take (held.length + 1) = held ++ [0])
    (hheld : ∀ byte ∈ held, 0x20 ≤ byte) : 0 ∈ bytes ∧ cString bytes = held := by
  have hne : ∀ byte ∈ held, byte ≠ 0 := fun byte hbyte hzero => by
    have hle := hheld byte hbyte
    rw [hzero] at hle
    exact absurd hle (by decide)
  constructor
  · exact List.mem_of_mem_take (hbytes ▸ List.mem_append_right held List.mem_cons_self)
  · rw [cString, ← List.take_append_drop (held.length + 1) bytes, hbytes, List.append_assoc,
      List.takeWhile_append_of_pos (by simpa using hne)]
    simp

end Held

/-! ## A stray DEL -/

section Stray

variable {held edited : List (BitVec 8)} {c : BitVec 8}

/-- The first character is a DEL. -/
def StartsWithDel (held : List (BitVec 8)) : Prop := held.head? = some 0x7f

instance : DecidablePred StartsWithDel := fun _ => inferInstanceAs (Decidable (_ = _))

/-- `readline` holds the edited line, or one that starts with a DEL and has at most one character
more. -/
structure Strays (held edited : List (BitVec 8)) : Prop where
  same : ¬ StartsWithDel held → held = edited
  length : StartsWithDel held → edited.length = held.length ∨ edited.length + 1 = held.length
  no_del : 0x7f ∉ edited
  room : held.length ≤ bufLen - 1

theorem not_startsWithDel (hdel : 0x7f ∉ held) : ¬ StartsWithDel held := fun hstarts =>
  hdel (List.mem_of_head? hstarts)

/-- The lines are the same just when there is no stray DEL. -/
theorem Strays.eq_iff (hstrays : Strays held edited) : held = edited ↔ ¬ StartsWithDel held :=
  ⟨fun hsame => not_startsWithDel (hsame ▸ hstrays.no_del), hstrays.same⟩

theorem startsWithDel_dropLast :
    StartsWithDel held.dropLast ↔ StartsWithDel held ∧ 1 < held.length := by
  match held with
  | [] => exact iff_of_false nofun fun h => nomatch h.1
  | [_] => exact iff_of_false nofun fun h => absurd h.2 (Nat.lt_irrefl 1)
  | _ :: _ :: _ => exact (and_iff_left (Nat.succ_lt_succ (Nat.succ_pos _))).symm

theorem startsWithDel_append :
    StartsWithDel (held ++ [c]) ↔ StartsWithDel held ∨ c = 0x7f ∧ held.length = 0 := by
  match held with
  | [] => simp [StartsWithDel]
  | _ :: _ => exact (or_iff_left fun h => nomatch h.2).symm

theorem Strays.refl (hdel : 0x7f ∉ edited) (hroom : edited.length ≤ bufLen - 1) :
    Strays edited edited :=
  ⟨fun _ => rfl, fun _ => Or.inl rfl, hdel, hroom⟩

/-- Both lines lose a character. -/
theorem Strays.erase (hstrays : Strays held edited) : Strays held.dropLast edited.dropLast where
  same hnot := by
    by_cases hstarts : StartsWithDel held
    · -- the DEL is erased, and both lines are empty
      have hone : ¬ 1 < held.length := fun h => hnot (startsWithDel_dropLast.mpr ⟨hstarts, h⟩)
      have hedited := hstrays.length hstarts
      have hnil : held.dropLast.length = 0 ∧ edited.dropLast.length = 0 := by
        rw [List.length_dropLast, List.length_dropLast]
        omega
      rw [List.eq_nil_of_length_eq_zero hnil.1, List.eq_nil_of_length_eq_zero hnil.2]
    · rw [hstrays.same hstarts]
  length hstarts := by
    obtain ⟨hstarts, hlength⟩ := startsWithDel_dropLast.mp hstarts
    have hedited := hstrays.length hstarts
    rw [List.length_dropLast, List.length_dropLast]
    omega
  no_del hmem := hstrays.no_del (List.mem_of_mem_dropLast hmem)
  room := by
    rw [List.length_dropLast]
    exact (Nat.sub_le _ _).trans hstrays.room

/-- Each line gets the character for which it has room. -/
theorem Strays.append (hstrays : Strays held edited) (hc : c ≠ 0x7f) :
    Strays (if held.length < bufLen - 1 then held ++ [c] else held)
      (if edited.length < bufLen - 1 then edited ++ [c] else edited) := by
  have hroom := hstrays.room
  have hdel : 0x7f ∉ edited ++ [c] := fun hmem =>
    (List.mem_append.mp hmem).elim hstrays.no_del fun h => hc (List.mem_singleton.mp h).symm
  by_cases hstarts : StartsWithDel held
  · have hedited := hstrays.length hstarts
    refine ⟨fun hnot => absurd ?_ hnot, fun _ => ?_, ?_, ?_⟩
    · split
      · exact startsWithDel_append.mpr (Or.inl hstarts)
      · exact hstarts
    · rw [apply_ite List.length, apply_ite List.length, List.length_append, List.length_append,
        List.length_singleton]
      split <;> split <;> omega
    · split
      · exact hdel
      · exact hstrays.no_del
    · rw [apply_ite List.length, List.length_append, List.length_singleton]
      split <;> omega
  · rw [← hstrays.same hstarts] at hdel ⊢
    refine Strays.refl ?_ ?_
    · split
      · exact hdel
      · exact fun hmem => hdel (List.mem_append_left _ hmem)
    · rw [apply_ite List.length, List.length_append, List.length_singleton]
      split <;> omega

/-- One character. -/
theorem Strays.step (hstrays : Strays held edited) (c : BitVec 8) :
    Strays (heldLine held c) (editLine edited c) := by
  by_cases herase : Erases c
  · rw [editLine, if_pos herase]
    by_cases hlength : 0 < held.length
    · rw [heldLine, if_pos ⟨herase, hlength⟩]
      exact hstrays.erase
    · -- an empty line, on which a DEL is printable and a backspace is not
      have hnil : held = [] := List.eq_nil_of_length_eq_zero (Nat.eq_zero_of_not_pos hlength)
      rw [← hstrays.same (hnil ▸ nofun), hnil]
      rcases herase with rfl | rfl
      · exact Strays.refl List.not_mem_nil (Nat.zero_le _)
      · exact ⟨fun hnot => absurd rfl hnot, fun _ => Or.inr rfl, List.not_mem_nil, by decide⟩
  · rw [heldLine, if_neg fun h => herase h.1, editLine, if_neg herase]
    by_cases hprints : 0x20 ≤ c
    · simp only [hprints, true_and]
      exact hstrays.append fun h => herase (Or.inr h)
    · rw [if_neg fun h => hprints h.1, if_neg fun h => hprints h.1]
      exact hstrays

theorem Strays.foldl (hstrays : Strays held edited) (keys : List (BitVec 8)) :
    Strays (keys.foldl heldLine held) (keys.foldl editLine edited) := by
  induction keys generalizing held edited with
  | nil => exact hstrays
  | cons c keys ih => exact ih (hstrays.step c)

/-- `strayStep` follows the line. -/
theorem strayStep_heldLine (held : List (BitVec 8)) (c : BitVec 8) :
    strayStep (held.length, decide (StartsWithDel held)) c =
      ((heldLine held c).length, decide (StartsWithDel (heldLine held c))) := by
  rw [strayStep, heldLine]
  dsimp only
  split
  · rw [List.length_dropLast, decide_eq_decide.mpr startsWithDel_dropLast, Bool.decide_and]
  · split
    · rw [List.length_append, List.length_singleton, decide_eq_decide.mpr startsWithDel_append,
        Bool.decide_or]
    · rfl

theorem foldl_strayStep (held : List (BitVec 8)) (keys : List (BitVec 8)) :
    (keys.foldl strayStep (held.length, decide (StartsWithDel held))).2 =
      decide (StartsWithDel (keys.foldl heldLine held)) := by
  induction keys generalizing held with
  | nil => rfl
  | cons c keys ih => rw [List.foldl_cons, strayStep_heldLine, ih, List.foldl_cons]

end Stray

section Edited

variable {echoing : Bool} {buf : Vector (BitVec 8) bufLen} {keys : List (BitVec 8)}
variable {ender : BitVec 8}

/-- What `readline` returns is its own line, as a string within `buf`. -/
theorem readline_held (hkeys : ∀ c ∈ keys, c ≠ 0x0a ∧ c ≠ 0x0d)
    (hender : ender = 0x0a ∨ ender = 0x0d) (echoing : Bool) (buf : Vector (BitVec 8) bufLen) :
    ∃ line, readline echoing buf ((keys ++ [ender]).map (·.setWidth 32)) = some (.returned line) ∧
      0 ∈ line.buf.toList ∧ cString line.buf.toList = keys.foldl heldLine [] := by
  have hstart : (⟨buf, 0, []⟩ : LineBuf).Holds [] := ⟨rfl, by decide, rfl⟩
  obtain ⟨line, hread, hbuf⟩ := LineBuf.Holds.read hender keys hkeys hstart
  exact ⟨line, hread, cString_eq hbuf (printable_foldl_heldLine keys (List.forall_mem_nil _))⟩

/-- `readline` returns the edited line if and only if the line does not start with a DEL at the end,
which only a DEL on an empty line puts there. -/
theorem readline_edits_iff (hkeys : ∀ c ∈ keys, c ≠ 0x0a ∧ c ≠ 0x0d)
    (hender : ender = 0x0a ∨ ender = 0x0d) :
    LineEdited echoing buf keys ender ↔ (keys.foldl strayStep (0, false)).2 = false := by
  obtain ⟨line, hread, hnul, hline⟩ := readline_held hkeys hender echoing buf
  have hstrays := (@Strays.refl [] List.not_mem_nil (Nat.zero_le _)).foldl keys
  have hstray : (keys.foldl strayStep (0, false)).2 =
      decide (StartsWithDel (keys.foldl heldLine [])) := foldl_strayStep [] keys
  rw [hstray, decide_eq_false_iff_not, ← hstrays.eq_iff]
  constructor
  · rintro ⟨line', hread', -, hline'⟩
    cases hread.symm.trans hread'
    exact hline.symm.trans hline'
  · intro hsame
    exact ⟨line, hread, hnul, hline.trans hsame⟩

end Edited

/-- A DEL and a newline: the line is not empty. -/
theorem del_on_empty_line : ¬ ∀ (echoing : Bool) (buf : Vector (BitVec 8) bufLen)
    (keys : List (BitVec 8)) (ender : BitVec 8), (∀ c ∈ keys, c ≠ 0x0a ∧ c ≠ 0x0d) →
      (ender = 0x0a ∨ ender = 0x0d) → LineEdited echoing buf keys ender := by
  intro hall
  obtain ⟨line, hread, -, hline⟩ := @readline_held [0x7f] 0x0a (by decide) (Or.inl rfl) true
    (Vector.replicate bufLen 0)
  obtain ⟨line', hread', -, hline'⟩ := hall true (Vector.replicate bufLen 0) [0x7f] 0x0a (by decide)
    (Or.inl rfl)
  cases hread.symm.trans hread'
  exact absurd (hline.symm.trans hline') (by decide)

/-- Three characters, one of which is erased. -/
theorem readline_edits_two :
    LineEdited true (Vector.replicate bufLen 0) [0x61, 0x62, 0x7f, 0x63] 0x0d :=
  (readline_edits_iff (by decide) (Or.inr rfl)).mpr (by decide)

end OsLabs.Jos
