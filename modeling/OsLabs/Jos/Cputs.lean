import OsLabs.Jos.Delivery
import OsLabs.Jos.Printfmt

/-!
# What `sys_cputs` prints

`sys_cputs` checks the range of its string and hands it to `cprintf("%.*s")`.
The loop of `%s` reads a character before it looks at the precision, so it
reads one character more than it emits.
-/

namespace OsLabs.Jos

/-! ## The loop of `%s` -/

/-- The pointer after `count` increments. -/
def CharPtr.skip (p : CharPtr) : ℕ → CharPtr
  | 0 => p
  | count + 1 => p.next.skip count

theorem CharPtr.skip_mem (addr : Word) (count : ℕ) :
    (CharPtr.mem addr).skip count = .mem (addr + BitVec.ofNat 32 count) := by
  induction count generalizing addr with
  | zero => simp [CharPtr.skip]
  | succ count ih =>
    rw [CharPtr.skip, CharPtr.next, ih, BitVec.add_assoc, Nat.add_comm count 1, BitVec.ofNat_add]
    rfl

section Loop

variable {memory : Memory} {altflag : Bool} {fuel : ℕ} {p : CharPtr} {out out' : Printer}
variable {precision width width' : Word}

/-- The loop has read `count + 1` characters from `p` on and emitted `count`. -/
structure Looped (p : CharPtr) (width : Word) (out : Printer) (count : ℕ) (width' : Word)
    (out' : Printer) : Prop where
  width : width' = width - BitVec.ofNat 32 count
  reads : ∀ i ≤ count, p.skip i ∈ out'.strReads
  kept : ∀ q ∈ out.strReads, q ∈ out'.strReads
  chars : out'.chars.length = out.chars.length + count

theorem Looped.stop (hread : p ∈ out'.strReads) (hkept : ∀ q ∈ out.strReads, q ∈ out'.strReads)
    (hchars : out'.chars = out.chars) : Looped p width out 0 width out' where
  width := by simp
  reads := fun i hi => by
    rw [Nat.le_zero.mp hi]
    exact hread
  kept := hkept
  chars := by rw [hchars, Nat.add_zero]

theorem Looped.next {mid : Printer} {count : ℕ}
    (hrest : Looped p.next (width - 1) mid count width' out') (hread : p ∈ mid.strReads)
    (hkept : ∀ q ∈ out.strReads, q ∈ mid.strReads)
    (hchars : mid.chars.length = out.chars.length + 1) :
    Looped p width out (count + 1) width' out' where
  width := by
    rw [hrest.width, Nat.add_comm count 1, BitVec.ofNat_add, BitVec.sub_sub]
    rfl
  reads := fun i hi => by
    cases i with
    | zero => exact hrest.kept p hread
    | succ i => exact hrest.reads i (by omega)
  kept := fun q hq => hrest.kept q (hkept q hq)
  chars := by
    rw [hrest.chars, hchars]
    omega

theorem printChars_looped
    (hrun : printChars memory altflag fuel p precision width out = some (width', out')) :
    ∃ count, Looped p width out count width' out' := by
  induction fuel generalizing p precision width out with
  | zero => cases hrun
  | succ fuel ih =>
    rw [printChars] at hrun
    obtain ⟨⟨ch, mid⟩, hread, hrun⟩ := Option.bind_eq_some_iff.mp hrun
    obtain ⟨byte, -, hpair⟩ := Option.map_eq_some_iff.mp hread
    obtain ⟨-, rfl⟩ := Prod.mk.inj hpair
    have hnoted : p ∈ (out.noteStr p).strReads := by simp [Printer.noteStr]
    have hkept : ∀ q ∈ out.strReads, q ∈ (out.noteStr p).strReads := fun q hq => by
      simp [Printer.noteStr, hq]
    dsimp only at hrun
    split at hrun
    · cases hrun
      exact ⟨0, Looped.stop hnoted hkept rfl⟩
    · cases hcount : countDown precision with
      | none =>
        rw [hcount] at hrun
        cases hrun
        exact ⟨0, Looped.stop hnoted hkept rfl⟩
      | some counted =>
        rw [hcount] at hrun
        obtain ⟨count, hrest⟩ := ih hrun
        exact ⟨count + 1, hrest.next hnoted hkept (by simp [Printer.putch, Printer.noteStr])⟩

end Loop

/-! ## The call -/

/-- What the kernel can read through the page directory `pgdir`. -/
def kernelMemory (σ : Phys) (pgdir : ℕ) : Memory := fun addr =>
  (mmuPage σ pgdir addr pteP).map fun page => σ.loadByte page (pgoff addr)

/-- `cprintf("%.*s", len, s)` ends and has done `out`. -/
def CputsPrints (σ : Phys) (pgdir : ℕ) (s len csa : Word) (out : Printer) : Prop :=
  ∃ fuel, vprintfmt (kernelMemory σ pgdir) fuel (text "%.*s") 0 [len, s] (Printer.start csa) =
    some out

/-- The call reads only the bytes of the range, and emits exactly these bytes. -/
def CputsExact (σ : Phys) (pgdir : ℕ) (s len csa : Word) : Prop :=
  ∃ out, CputsPrints σ pgdir s len csa out ∧
    (∀ p ∈ out.strReads, ∃ i < len.toNat, p = .mem (s + BitVec.ofNat 32 i)) ∧
    out.chars.map (fun shown => some (shown.1.setWidth 8)) =
      (List.range len.toNat).map fun i => kernelMemory σ pgdir (s + BitVec.ofNat 32 i)

section Call

variable {memory : Memory} {fuel : ℕ} {s len csa : Word} {out : Printer}

/-- The pointer of `%s`. -/
def cputsPtr (s : Word) : CharPtr := if s = 0 then .const (text "(null)") 0 else .mem s

/-- The conversion `%.*s`, of which every flag takes one round. -/
theorem conversion_cputs (nested : List (BitVec 8) → List Word → Printer → Option Printer)
    (out : Printer) :
    conversion memory nested (text "%.*s") (fuel + 3) 1 Spec.start [len, s] out =
      (printString memory fuel (cputsPtr s) (chr ' ') 0 len false
        (((out.noteFmt 1).noteFmt 2).noteFmt 3)).map fun out => (4, [], out) := by
  obtain ⟨mid, hmid⟩ : ∃ mid, mid = ((out.noteFmt 1).noteFmt 2).noteFmt 3 := ⟨_, rfl⟩
  have hconvert : convert memory nested (text "%.*s") fuel 4 (chr 's')
      { Spec.start with width := 0, precision := len } [s] mid =
      (printString memory fuel (cputsPtr s) (chr ' ') 0 len false mid).bind fun out =>
        some (.done 4 [] out) := rfl
  have hread : ((out.noteFmt 1).noteFmt 2).readFmt (text "%.*s") 3 = some (chr 's', mid) := by
    rw [hmid]
    rfl
  have hflags : conversion memory nested (text "%.*s") (fuel + 3) 1 Spec.start [len, s] out =
      conversion memory nested (text "%.*s") (fuel + 1) 3
        { Spec.start with width := 0, precision := len } [s] ((out.noteFmt 1).noteFmt 2) := rfl
  rw [hflags, conversion, hread, Option.bind_eq_bind, Option.bind_some, ← hmid]
  dsimp only
  rw [hconvert]
  cases printString memory fuel (cputsPtr s) (chr ' ') 0 len false mid <;> rfl

/-- The call is the loop of `%s` with the length as precision. -/
theorem vprintfmt_cputs
    (hrun : vprintfmt memory fuel (text "%.*s") 0 [len, s] (Printer.start csa) = some out) :
    ∃ fuel mid width shown, mid.strReads = [] ∧ mid.chars = [] ∧
      printChars memory false fuel (cputsPtr s) len 0 mid = some (width, shown) ∧
      out.strReads = (shown.putchs (chr ' ') (timesAbove width)).strReads ∧
      out.chars = (shown.putchs (chr ' ') (timesAbove width)).chars := by
  cases fuel with
  | zero => cases hrun
  | succ fuel =>
    have hfirst : vprintfmt memory (fuel + 1) (text "%.*s") 0 [len, s] (Printer.start csa) =
        (conversion memory (fun fmt args out => vprintfmt memory fuel fmt 0 args out) (text "%.*s")
          fuel 1 Spec.start [len, s] ((Printer.start csa).noteFmt 0)).bind fun converted =>
            vprintfmt memory fuel (text "%.*s") converted.1 converted.2.1 converted.2.2 := rfl
    rw [hfirst] at hrun
    rcases fuel with _ | _ | _ | fuel
    · cases hrun
    · cases hrun
    · cases hrun
    · rw [conversion_cputs] at hrun
      obtain ⟨⟨index, args, done⟩, hconverted, hend⟩ := Option.bind_eq_some_iff.mp hrun
      obtain ⟨printed, hstring, hpair⟩ := Option.map_eq_some_iff.mp hconverted
      cases hpair
      have hnul : vprintfmt memory (fuel + 3) (text "%.*s") 4 [] done =
          some { done.noteFmt 4 with csa := 0x0700 } := rfl
      have hend' : vprintfmt memory (fuel + 3) (text "%.*s") 4 [] done = some out := hend
      rw [hnul] at hend'
      cases hend'
      -- without a width there is no padding before the string
      obtain ⟨⟨width, shown⟩, hloop, hdone⟩ := Option.bind_eq_some_iff.mp hstring
      cases hdone
      exact ⟨fuel, _, width, shown, rfl, rfl, hloop, rfl, rfl⟩

theorem putchs_strReads (out : Printer) (ch : Word) (count : ℕ) :
    (out.putchs ch count).strReads = out.strReads := by
  induction count generalizing out with
  | zero => rfl
  | succ count ih => exact ih (out.putch ch)

theorem length_putchs (out : Printer) (ch : Word) (count : ℕ) :
    (out.putchs ch count).chars.length = out.chars.length + count := by
  induction count generalizing out with
  | zero => rfl
  | succ count ih =>
    rw [Printer.putchs, ih, Printer.putch, List.length_append, List.length_singleton]
    omega

/-- The width after `count` characters is not positive, as long as it does not wrap. -/
theorem timesAbove_neg {count : ℕ} (hcount : count < 2 ^ 32) :
    timesAbove (0 - BitVec.ofNat 32 count) = 0 ∨
      count + timesAbove (0 - BitVec.ofNat 32 count) = 2 ^ 32 := by
  have hvalue : (0 - BitVec.ofNat 32 count : Word).toNat = (2 ^ 32 - count) % 2 ^ 32 := by
    rw [BitVec.toNat_sub, BitVec.toNat_ofNat, Nat.mod_eq_of_lt hcount]
    simp
  rw [timesAbove, BitVec.toInt_eq_toNat_cond, hvalue]
  split <;> omega

theorem skip_const (bytes : List (BitVec 8)) (index count : ℕ) :
    (CharPtr.const bytes index).skip count = .const bytes (index + count) := by
  induction count generalizing index with
  | zero => rfl
  | succ count ih =>
    rw [CharPtr.skip, CharPtr.next, ih, Nat.add_assoc, Nat.add_comm 1 count]

/-- `sys_cputs` never prints exactly what it has checked: when it emits as many characters as it
should, it has read one more. -/
theorem cputs_never_exact (σ : Phys) (pgdir : ℕ) (s len csa : Word) :
    ¬ CputsExact σ pgdir s len csa := by
  rintro ⟨out, ⟨fuel, hrun⟩, hreads, hchars⟩
  obtain ⟨fuel, mid, width, shown, -, hmid, hloop, hstr, hemitted⟩ := vprintfmt_cputs hrun
  obtain ⟨count, hlooped⟩ := printChars_looped hloop
  rw [putchs_strReads] at hstr
  have hlen : count + timesAbove (0 - BitVec.ofNat 32 count) = len.toNat := by
    have hlength := congrArg List.length hchars
    rw [List.length_map, List.length_map, List.length_range, hemitted, length_putchs, hlooped.chars,
      hmid, hlooped.width] at hlength
    simpa using hlength
  have hbound := len.isLt
  have hcount : count = len.toNat := by
    have hsmall : count < 2 ^ 32 := by omega
    rcases timesAbove_neg hsmall with hzero | hwraps <;> omega
  -- the character after the last one that is emitted
  have hlast : (cputsPtr s).skip len.toNat ∈ out.strReads := by
    rw [hstr, ← hcount]
    exact hlooped.reads count le_rfl
  obtain ⟨i, hi, hsame⟩ := hreads _ hlast
  rw [cputsPtr] at hsame
  split at hsame
  · rw [skip_const] at hsame
    cases hsame
  · rw [CharPtr.skip_mem] at hsame
    have haddr := congrArg BitVec.toNat (CharPtr.mem.inj hsame)
    rw [BitVec.toNat_add, BitVec.toNat_add, BitVec.toNat_ofNat, BitVec.toNat_ofNat] at haddr
    omega

end Call

/-- Directory 1 and page table 2 map page 3 at address 0 for the user, with the text `hi!` at 16. -/
def greeting : Phys where
  npages := 16
  pages := fun _ => ⟨none, 0⟩
  pageFreeList := none
  mem := fun page index =>
    if page = 1 ∧ index = 0 then page2pa 2 ||| pteP ||| pteU ||| pteW
    else if page = 2 ∧ index = 0 then page2pa 3 ||| pteU ||| pteW ||| pteP
    else if page = 3 ∧ index = 4 then 0x00216968
    else 0
  mmuBits := fun _ _ => 0

/-- Of the string of two characters at 16 the kernel reads a third one, at 18. -/
theorem greeting_reads : userMemCheck greeting 1 16 2 pteU = some none ∧
    ∃ out, CputsPrints greeting 1 16 2 0 out ∧ out.strReads = [.mem 16, .mem 17, .mem 18] ∧
      ¬ ∃ i < (2 : Word).toNat, CharPtr.mem 18 = .mem (16 + BitVec.ofNat 32 i) := by
  have hreads : (vprintfmt (kernelMemory greeting 1) 8 (text "%.*s") 0 [2, 16]
      (Printer.start 0)).map Printer.strReads = some [.mem 16, .mem 17, .mem 18] := by
    decide +kernel
  obtain ⟨out, hrun, hout⟩ := Option.map_eq_some_iff.mp hreads
  exact ⟨by decide, out, ⟨8, hrun⟩, hout, by decide⟩

end OsLabs.Jos
