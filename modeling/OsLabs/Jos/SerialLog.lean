import OsLabs.Jos.CgaTerminal

/-!
# What the ports receive

`cons_putc` sends a character to the serial port and to the parallel port before
the screen driver sees it.  A tab, which the screen driver shows as five blanks
by calling `cons_putc`, is followed on the ports by these blanks.
-/

namespace OsLabs.Jos

open Function

/-- Both ports have received the bytes. -/
structure Sends (s s' : Console) (bytes : List (BitVec 8)) : Prop where
  serial : s'.serial = s.serial ++ bytes
  parallel : s'.parallel = s.parallel ++ bytes

/-- What `cons_putc` sends for a character. -/
def sentBytes (csa c : Word) : List (BitVec 8) :=
  c.setWidth 8 :: if IsTab csa c then List.replicate 5 ((chr ' ').setWidth 8) else []

section Send

variable {s s' s'' : Console} {bytes more : List (BitVec 8)} {c : Word}

theorem Sends.trans (hfirst : Sends s s' bytes) (hsecond : Sends s' s'' more) :
    Sends s s'' (bytes ++ more) where
  serial := by rw [hsecond.serial, hfirst.serial, List.append_assoc]
  parallel := by rw [hsecond.parallel, hfirst.parallel, List.append_assoc]

/-- The end of `cga_putc` sends nothing. -/
theorem Sends.settle (hsends : Sends s s' bytes) : Sends s s'.settle bytes := by
  by_cases hpos : crtSize ≤ s'.crtPos.toNat
  · rw [settle_scroll hpos]
    exact ⟨hsends.serial, hsends.parallel⟩
  · rw [settle_within (not_le.mp hpos)]
    exact ⟨hsends.serial, hsends.parallel⟩

theorem serial_cgaPutcCell (s : Console) (c : Word) : (s.cgaPutcCell c).serial = s.serial := by
  rw [Console.cgaPutcCell]
  repeat' split
  all_goals rfl

theorem parallel_cgaPutcCell (s : Console) (c : Word) :
    (s.cgaPutcCell c).parallel = s.parallel := by
  rw [Console.cgaPutcCell]
  repeat' split
  all_goals rfl

/-- A character that is no tab. -/
theorem Sends.character (hnot : ¬ IsTab s.csa c) : Sends s (s.consPutc c) [c.setWidth 8] := by
  rw [consPutc_of_not_tab hnot]
  refine Sends.settle ⟨?_, ?_⟩
  · rw [serial_cgaPutcCell]
    rfl
  · rw [parallel_cgaPutcCell]
    rfl

theorem Sends.blanks (n : ℕ) :
    ∀ s : Console, Sends s ((fun s : Console => s.consPutc (chr ' '))^[n] s)
      (List.replicate n ((chr ' ').setWidth 8)) := by
  induction n with
  | zero => exact fun s => ⟨(List.append_nil _).symm, (List.append_nil _).symm⟩
  | succ n ih =>
    intro s
    rw [iterate_succ_apply, List.replicate_succ]
    exact (Sends.character (blank_not_tab s.csa)).trans (ih _)

theorem Sends.consPutc (s : Console) (c : Word) : Sends s (s.consPutc c) (sentBytes s.csa c) := by
  by_cases htab : IsTab s.csa c
  · have hports : Sends s { (s.serialPutc c).lptPutc c with csa := defaultCsa s.csa }
        [c.setWidth 8] := ⟨rfl, rfl⟩
    have hscreen : s.consPutc c = ((fun s : Console => s.consPutc (chr ' '))^[5]
        { (s.serialPutc c).lptPutc c with csa := defaultCsa s.csa }).settle :=
      cgaPutc_of_tab (s := (s.serialPutc c).lptPutc c) htab
    rw [hscreen, sentBytes, if_pos htab]
    exact (hports.trans (Sends.blanks 5 _)).settle
  · rw [sentBytes, if_neg htab]
    exact Sends.character htab

end Send

/-! ## Runs -/

/-- `cputchar` with the colour that the caller has set. -/
def Console.consCall (s : Console) (call : Word × Word) : Console :=
  { s with csa := call.1 }.consPutc call.2

/-- The ports receive each character, and five blanks after each tab. -/
theorem Sends.calls (calls : List (Word × Word)) :
    ∀ s : Console, Sends s (calls.foldl Console.consCall s)
      (calls.flatMap fun call => sentBytes call.1 call.2) := by
  induction calls with
  | nil => exact fun s => ⟨(List.append_nil _).symm, (List.append_nil _).symm⟩
  | cons call calls ih =>
    intro s
    have hputc := Sends.consPutc { s with csa := call.1 } call.2
    have hfirst : Sends s (s.consCall call) (sentBytes call.1 call.2) :=
      ⟨hputc.serial, hputc.parallel⟩
    exact hfirst.trans (ih _)

/-- No character is lost. -/
theorem length_le_sent (calls : List (Word × Word)) :
    calls.length ≤ (calls.flatMap fun call => sentBytes call.1 call.2).length := by
  induction calls with
  | nil => exact le_rfl
  | cons call calls ih =>
    calc
      calls.length + 1 ≤ (calls.flatMap fun call => sentBytes call.1 call.2).length +
          (sentBytes call.1 call.2).length :=
        Nat.add_le_add ih (List.length_pos_of_ne_nil (List.cons_ne_nil _ _))
      _ = ((call :: calls).flatMap fun call => sentBytes call.1 call.2).length := by
        rw [List.flatMap_cons, List.length_append, Nat.add_comm]

/-- The bytes sent are the characters if and only if there is no tab. -/
theorem sentBytes_eq_iff (calls : List (Word × Word)) :
    (calls.flatMap fun call => sentBytes call.1 call.2) =
        calls.map (fun call => call.2.setWidth 8) ↔
      ∀ call ∈ calls, ¬ IsTab call.1 call.2 := by
  induction calls with
  | nil => exact ⟨fun _ _ h => (nomatch h), fun _ => rfl⟩
  | cons call calls ih =>
    rw [List.flatMap_cons, List.map_cons, List.forall_mem_cons, sentBytes]
    by_cases htab : IsTab call.1 call.2
    · -- the blanks make the log too long
      rw [if_pos htab]
      refine ⟨fun heq => ?_, fun h => absurd htab h.1⟩
      have hlength := congrArg List.length heq
      have hsent := length_le_sent calls
      simp only [List.cons_append, List.length_cons, List.length_append, List.length_replicate,
        List.length_map] at hlength
      omega
    · rw [if_neg htab, List.cons_append, List.nil_append, List.cons_inj_right, ih]
      exact (and_iff_right htab).symm

/-- The serial port and the parallel port receive exactly the characters passed to `cputchar` if
and only if none of them is shown as a tab. -/
theorem ports_receive_iff (s : Console) (calls : List (Word × Word)) :
    Sends s (calls.foldl Console.consCall s) (calls.map fun call => call.2.setWidth 8) ↔
      ∀ call ∈ calls, ¬ IsTab call.1 call.2 := by
  have hsends := Sends.calls calls s
  rw [← sentBytes_eq_iff]
  constructor
  · intro hexact
    exact List.append_cancel_left (hsends.serial.symm.trans hexact.serial)
  · intro heq
    rw [heq] at hsends
    exact hsends

/-- A tab arrives with five blanks behind it. -/
theorem tab_with_blanks :
    ([(0x0700, chr '\t')].foldl Console.consCall lastCell).serial =
        [0x09, 0x20, 0x20, 0x20, 0x20, 0x20] ∧
      ¬ Sends lastCell ([(0x0700, chr '\t')].foldl Console.consCall lastCell)
        ([(0x0700, chr '\t')].map fun call => call.2.setWidth 8) := by
  have hserial := (Sends.calls [(0x0700, chr '\t')] lastCell).serial
  have hsent : [(0x0700, chr '\t')].flatMap (fun call => sentBytes call.1 call.2) =
      [0x09, 0x20, 0x20, 0x20, 0x20, 0x20] := by decide
  rw [hsent] at hserial
  refine ⟨hserial, fun hexact => ?_⟩
  have hlength := congrArg List.length (hserial.symm.trans hexact.serial)
  exact absurd hlength (by decide)

end OsLabs.Jos
