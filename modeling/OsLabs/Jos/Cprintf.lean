import OsLabs.Core.Chunks
import OsLabs.Jos.FormatRuns

/-!
# The two `vcprintf`s

The kernel passes each character of the output to `cputchar` and means to count
it; `*cnt++` moves the pointer of `putch` instead, so its `vcprintf` returns 0.
The user library collects the output and hands it to `sys_cputs` in pieces.
-/

namespace OsLabs.Jos

open OsLabs.Buffering

/-! ## The kernel -/

/-- What `vcprintf` of the kernel keeps: the characters given to `cputchar` and the variable `cnt`. -/
structure CountedOutput where
  shown : List Word
  cnt : Word

/-- `putch` of the kernel.  `*cnt++` is `*(cnt++)`: what it increments is its own pointer. -/
def CountedOutput.putch (output : CountedOutput) (ch : Word) : CountedOutput :=
  { output with shown := output.shown ++ [ch] }

/-- `vcprintf` of the kernel, on the characters that `vprintfmt` passes to `putch`. -/
def kernVcprintf (memory : Memory) (fuel : ℕ) (fmt : List (BitVec 8)) (args : List Word)
    (csa : Word) : Option CountedOutput :=
  (vprintfmt memory fuel fmt 0 args (Printer.start csa)).map fun out =>
    out.chars.foldl (fun output ch => output.putch ch.1) ⟨[], 0⟩

/-! ## The user library -/

/-- `struct printbuf`, and the pieces that have been given to `sys_cputs`. -/
structure PrintBuf where
  idx : Word
  cnt : Word
  buf : Vector (BitVec 8) 256
  cputs : List (List (BitVec 8))

namespace PrintBuf

/-- `sys_cputs(b->buf, b->idx)`. -/
def sysCputs (b : PrintBuf) : PrintBuf :=
  { b with cputs := b.cputs ++ [b.buf.toList.take b.idx.toNat] }

/-- `putch` of the user library; no result where it would index outside `buf`. -/
def putch (b : PrintBuf) (ch : Word) : Option PrintBuf :=
  if hidx : b.idx.toNat < 256 then
    let b := { b with buf := b.buf.set b.idx.toNat (charByte ch) hidx, idx := b.idx + 1 }
    let b := if b.idx = 256 - 1 then { b.sysCputs with idx := 0 } else b
    some { b with cnt := b.cnt + 1 }
  else none

end PrintBuf

/-- `vcprintf` of the user library; `buf` is what the buffer holds at first. -/
def userVcprintf (memory : Memory) (fuel : ℕ) (fmt : List (BitVec 8)) (args : List Word)
    (csa : Word) (buf : Vector (BitVec 8) 256) : Option PrintBuf := do
  let out ← vprintfmt memory fuel fmt 0 args (Printer.start csa)
  let b ← out.chars.foldlM (fun b ch => b.putch ch.1) (⟨0, 0, buf, []⟩ : PrintBuf)
  return b.sysCputs

/-! ## Pieces for `sys_cputs` -/

section Buffered

variable {b : PrintBuf} {c : Chunked (BitVec 8)}

/-- The buffer is that of a chunked output. -/
structure PrintBuf.Holds (b : PrintBuf) (c : Chunked (BitVec 8)) : Prop where
  idx : b.idx.toNat = c.pending.length
  buf : b.buf.toList.take c.pending.length = c.pending
  cputs : b.cputs = c.chunks
  fits : c.Fits 255

theorem PrintBuf.Holds.sysCputs (hholds : b.Holds c) : b.sysCputs.cputs = c.close := by
  rw [PrintBuf.sysCputs, Chunked.close, hholds.cputs, hholds.idx, hholds.buf]

/-- One character more. -/
theorem PrintBuf.Holds.putch (hholds : b.Holds c) (ch : Word) :
    ∃ b', b.putch ch = some b' ∧ b'.Holds (c.push 255 (charByte ch)) ∧ b'.cnt = b.cnt + 1 := by
  have hpending := hholds.fits.pending
  have hidx : b.idx.toNat < 256 := by
    rw [hholds.idx]
    omega
  have hnext : (b.idx + 1).toNat = c.pending.length + 1 := by
    rw [BitVec.toNat_add, hholds.idx, show (1 : Word).toNat = 1 from rfl]
    omega
  have hbuf : (b.buf.set b.idx.toNat (charByte ch) hidx).toList.take (c.pending.length + 1) =
      c.pending ++ [charByte ch] := by
    rw [Vector.toList_set, hholds.idx, List.take_succ_eq_append_getElem (by simp; omega),
      List.take_set_of_le le_rfl, hholds.buf, List.getElem_set_self]
  have hput : b.putch ch = some { if b.idx + 1 = 256 - 1 then
      { ({ b with buf := b.buf.set b.idx.toNat (charByte ch) hidx, idx := b.idx + 1 } :
          PrintBuf).sysCputs with idx := 0 }
      else { b with buf := b.buf.set b.idx.toNat (charByte ch) hidx, idx := b.idx + 1 }
      with cnt := b.cnt + 1 } := by
    rw [PrintBuf.putch, dif_pos hidx]
    dsimp only
    split <;> rfl
  rw [hput]
  refine ⟨_, rfl, ?_, rfl⟩
  have hfits := hholds.fits.push (charByte ch)
  rw [Chunked.push] at hfits ⊢
  by_cases hfull : b.idx + 1 = 256 - 1
  · have hlast : c.pending.length + 1 = 255 := hnext.symm.trans (congrArg BitVec.toNat hfull)
    rw [if_pos hlast] at hfits
    rw [if_pos hfull, if_pos hlast]
    refine ⟨rfl, rfl, ?_, hfits⟩
    rw [← hbuf, ← hnext, ← hholds.cputs]
    rfl
  · have hroom : c.pending.length + 1 ≠ 255 := by
      intro hlast
      exact hfull (BitVec.eq_of_toNat_eq (hnext.trans hlast))
    rw [if_neg hroom] at hfits
    rw [if_neg hfull, if_neg hroom]
    refine ⟨?_, ?_, hholds.cputs, hfits⟩
    · rw [hnext, List.length_append, List.length_singleton]
    · rw [List.length_append, List.length_singleton]
      exact hbuf

/-- The whole output. -/
theorem PrintBuf.Holds.foldlM (hholds : b.Holds c) (chars : List (Word × Word)) :
    ∃ b', chars.foldlM (fun b ch => PrintBuf.putch b ch.1) b = some b' ∧
      b'.Holds ((chars.map fun ch => charByte ch.1).foldl (Chunked.push 255) c) ∧
      b'.cnt = b.cnt + BitVec.ofNat 32 chars.length := by
  induction chars generalizing b c with
  | nil => exact ⟨b, rfl, hholds, (BitVec.add_zero _).symm⟩
  | cons ch chars ih =>
    obtain ⟨next, hput, hnext, hcnt⟩ := hholds.putch ch.1
    obtain ⟨last, hrun, hlast, hall⟩ := ih hnext
    refine ⟨last, ?_, hlast, ?_⟩
    · rw [List.foldlM_cons, hput]
      exact hrun
    · rw [hall, hcnt, List.length_cons, BitVec.ofNat_add, add_assoc]
      exact congrArg (b.cnt + ·) (add_comm _ _)

end Buffered

/-! ## The two return values -/

section Agree

variable {memory : Memory} {fuel : ℕ} {fmt : List (BitVec 8)} {args : List Word} {csa : Word}
variable {out : Printer}

/-- The user library gives all of the output to `sys_cputs`, in pieces that fit. -/
theorem userVcprintf_pieces
    (hrun : vprintfmt memory fuel fmt 0 args (Printer.start csa) = some out)
    (buf : Vector (BitVec 8) 256) :
    ∃ user, userVcprintf memory fuel fmt args csa buf = some user ∧
      user.cputs.flatten = out.emittedText ∧ (∀ piece ∈ user.cputs, piece.length ≤ 255) ∧
      user.cnt = BitVec.ofNat 32 out.chars.length := by
  have hstart : (⟨0, 0, buf, []⟩ : PrintBuf).Holds Chunked.empty :=
    ⟨rfl, rfl, rfl, Chunked.Fits.empty (by decide)⟩
  obtain ⟨last, hlast, hholds, hcnt⟩ := hstart.foldlM out.chars
  refine ⟨last.sysCputs, ?_, ?_, ?_, ?_⟩
  · rw [userVcprintf, hrun, Option.bind_eq_bind, Option.bind_some, hlast]
    rfl
  · rw [hholds.sysCputs, Chunked.flatten_close, Chunked.all_foldl]
    rfl
  · rw [hholds.sysCputs]
    exact fun piece hpiece => hholds.fits.close hpiece
  · exact hcnt.trans (BitVec.zero_add _)

theorem foldl_putch_cnt (chars : List (Word × Word)) (output : CountedOutput) :
    (chars.foldl (fun output ch => output.putch ch.1) output).cnt = output.cnt := by
  induction chars generalizing output with
  | nil => rfl
  | cons ch chars ih => exact ih (output.putch ch.1)

/-- The kernel counts nothing. -/
theorem kernVcprintf_cnt
    (hrun : vprintfmt memory fuel fmt 0 args (Printer.start csa) = some out) :
    ∃ kern, kernVcprintf memory fuel fmt args csa = some kern ∧ kern.cnt = 0 := by
  rw [kernVcprintf, hrun, Option.map_some]
  exact ⟨_, rfl, foldl_putch_cnt out.chars ⟨[], 0⟩⟩

/-- Both `vcprintf`s return the number of characters of the output, and that of the user library
gives the output to `sys_cputs`, in its order, in pieces of at most 255 characters. -/
def CprintfsAgree (memory : Memory) (fuel : ℕ) (fmt : List (BitVec 8)) (args : List Word)
    (csa : Word) (buf : Vector (BitVec 8) 256) (out : Printer) : Prop :=
  ∃ kern user, kernVcprintf memory fuel fmt args csa = some kern ∧
    userVcprintf memory fuel fmt args csa buf = some user ∧
    kern.cnt.toInt = out.chars.length ∧ user.cnt.toInt = out.chars.length ∧
    user.cputs.flatten = out.emittedText ∧ ∀ piece ∈ user.cputs, piece.length ≤ 255

theorem coloured_eq_nil {emitted : List (Piece × List Word)} {csa : Word} :
    coloured csa emitted = [] ↔ ∀ e ∈ emitted, e.2 = [] := by
  induction emitted generalizing csa with
  | nil => exact iff_of_true rfl fun _ he => absurd he List.not_mem_nil
  | cons e emitted ih =>
    rw [coloured, List.append_eq_nil_iff, List.map_eq_nil_iff, ih, List.forall_mem_cons]

/-- The two agree just when the format emits nothing: when it consists of `%m`, and of `%s` for
strings of which nothing is shown. -/
theorem vcprintfs_agree_iff {ps : List Piece} (hnul : 0 ∉ fmt) (hpieces : pieces fmt args = some ps)
    (hrun : vprintfmt memory fuel fmt 0 args (Printer.start csa) = some out)
    (buf : Vector (BitVec 8) 256) :
    CprintfsAgree memory fuel fmt args csa buf out ↔ ∀ piece ∈ ps, piece.Silent memory := by
  obtain ⟨emitted, hemitted, htexts, hchars, -, -⟩ := vprintfmt_emits List.drop_zero
    (Nat.zero_le _) hnul hrun
  have hnothing : out.chars = [] ↔ ∀ piece ∈ ps, piece.Silent memory := by
    have hps : ps = emitted.map Prod.fst := Option.some.inj (hpieces.symm.trans hemitted)
    calc
      out.chars = [] ↔ coloured csa emitted = [] := by rw [hchars]; rfl
      _ ↔ ∀ e ∈ emitted, e.1.Silent memory := by
        rw [coloured_eq_nil]
        exact forall₂_congr fun e he => (htexts e he).eq_nil_iff
      _ ↔ ∀ piece ∈ ps, piece.Silent memory := by rw [hps, List.forall_mem_map]
  obtain ⟨kern, hkern, hzero⟩ := kernVcprintf_cnt hrun
  obtain ⟨user, huser, hall, hshort, hcnt⟩ := userVcprintf_pieces hrun buf
  rw [← hnothing]
  constructor
  · rintro ⟨kern', user', hkern', -, hcount, -⟩
    cases hkern.symm.trans hkern'
    rw [hzero] at hcount
    have hlength : (0 : ℤ) = out.chars.length := hcount
    exact List.length_eq_zero_iff.mp (by omega)
  · intro hnil
    refine ⟨kern, user, hkern, huser, ?_, ?_, hall, hshort⟩
    · rw [hzero, hnil]
      rfl
    · rw [hcnt, hnil]
      rfl

end Agree

/-- One character: the kernel returns 0 and the user library 1. -/
theorem one_character_uncounted : ¬ ∀ (memory : Memory) (fuel : ℕ) (fmt : List (BitVec 8))
    (args : List Word) (csa : Word) (buf : Vector (BitVec 8) 256) (out : Printer), 0 ∉ fmt →
      vprintfmt memory fuel fmt 0 args (Printer.start csa) = some out →
      CprintfsAgree memory fuel fmt args csa buf out := by
  intro hall
  have hrun : vprintfmt (fun _ => none) 2 (text "a") 0 [] (Printer.start 0x0700) =
      some ⟨[0, 1], [], [(chr 'a', 0x0700)], 0x0700⟩ := rfl
  obtain ⟨kern, user, hkern, -, hcount, -⟩ :=
    hall (fun _ => none) 2 (text "a") [] 0x0700 (Vector.replicate 256 0) _ (by decide) hrun
  obtain ⟨kern', hkern', hzero⟩ := kernVcprintf_cnt hrun
  cases hkern.symm.trans hkern'
  rw [hzero] at hcount
  exact absurd hcount (by decide)

/-- A format that only sets the colour. -/
theorem vcprintfs_agree_colour :
    CprintfsAgree (fun _ => none) 3 (text "%m") [0x0100] 0x0700 (Vector.replicate 256 0)
      ⟨[0, 1, 2], [], [], 0x0700⟩ := by
  have hpieces : pieces (text "%m") [0x0100] = some [.colour 0x0100] := by
    rw [show text "%m" = [percentByte, BitVec.ofNat 8 'm'.toNat] from rfl, pieces_single rfl, pieces]
    rfl
  refine (vcprintfs_agree_iff (by decide) hpieces rfl _).mpr fun piece hpiece => ?_
  rw [List.mem_singleton.mp hpiece]
  trivial

end OsLabs.Jos
