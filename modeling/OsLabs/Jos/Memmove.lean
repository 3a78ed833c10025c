import OsLabs.Core.Moves
import OsLabs.Jos.Mmu

/-!
# `memmove`

`lib/string.c` has `memmove` twice: with `rep movs` for i386, and with loops
over bytes.  Both test for an overlap that a copy upwards would spoil; the
first then chooses between words and bytes.
-/

namespace OsLabs.Jos

open OsLabs.Moves

/-- The bytes at all addresses. -/
abbrev Bytes := Word → BitVec 8

/-! ## With `rep movs` -/

namespace Asm

/-- `rep movsb` or `rep movsl`, by the width: `ecx` units, each from `esi` to `edi`; the flag `DF`
says whether these go down. -/
def repMovs (width : ℕ) (df : Bool) (edi esi ecx : Word) (bytes : Bytes) : Bytes :=
  copyUnits width (if df then -BitVec.ofNat 32 width else BitVec.ofNat 32 width) ecx.toNat edi esi
    bytes

def memmove (dst src n : Word) (bytes : Bytes) : Word × Bytes :=
  let s := src
  let d := dst
  if s < d ∧ d < s + n then
    let s := s + n
    let d := d + n
    if s.srem 4 = 0 ∧ d.srem 4 = 0 ∧ n % 4 = 0 then
      (dst, repMovs 4 true (d - 4) (s - 4) (n / 4) bytes)
    else (dst, repMovs 1 true (d - 1) (s - 1) n bytes)
  else if s.srem 4 = 0 ∧ d.srem 4 = 0 ∧ n % 4 = 0 then (dst, repMovs 4 false d s (n / 4) bytes)
  else (dst, repMovs 1 false d s n bytes)

def memcpy (dst src n : Word) (bytes : Bytes) : Word × Bytes := memmove dst src n bytes

end Asm

/-! ## With loops -/

namespace Portable

/-- `while (n-- > 0) *--d = *--s;` -/
def copyDown : ℕ → Word → Word → Bytes → Bytes
  | 0, _, _, bytes => bytes
  | n + 1, d, s, bytes =>
      copyDown n (d - 1) (s - 1) (Function.update bytes (d - 1) (bytes (s - 1)))

/-- `while (n-- > 0) *d++ = *s++;` -/
def copyUp : ℕ → Word → Word → Bytes → Bytes
  | 0, _, _, bytes => bytes
  | n + 1, d, s, bytes => copyUp n (d + 1) (s + 1) (Function.update bytes d (bytes s))

def memmove (dst src n : Word) (bytes : Bytes) : Word × Bytes :=
  let s := src
  let d := dst
  if s < d ∧ d < s + n then
    let s := s + n
    let d := d + n
    (dst, copyDown n.toNat d s bytes)
  else (dst, copyUp n.toNat d s bytes)

theorem copyDown_eq (n : ℕ) (d s : Word) (bytes : Bytes) :
    copyDown n d s bytes = copyUnits 1 (-1) n (d - 1) (s - 1) bytes := by
  induction n generalizing d s bytes with
  | zero => rfl
  | succ n ih =>
    rw [copyDown, ih, copyUnits, ← sub_eq_add_neg, ← sub_eq_add_neg]
    rfl

theorem copyUp_eq (n : ℕ) (d s : Word) (bytes : Bytes) :
    copyUp n d s bytes = copyUnits 1 1 n d s bytes := by
  induction n generalizing d s bytes with
  | zero => rfl
  | succ n ih =>
    rw [copyUp, ih]
    rfl

end Portable

/-! ## Both move the bytes -/

section Moves

variable {dst src n ecx : Word} {width : ℕ} {bytes : Bytes}

/-- Where the code goes down there is room for it. -/
theorem room_below (hdst : dst.toNat + n.toNat ≤ 2 ^ 32) (hoverlap : src < dst ∧ dst < src + n) :
    (dst - src).toNat + n.toNat ≤ 2 ^ 32 := by
  have hbelow := BitVec.lt_def.mp hoverlap.1
  rw [BitVec.toNat_sub_of_le (BitVec.le_of_lt hoverlap.1)]
  omega

/-- Where it goes up, likewise. -/
theorem room_above (hsrc : src.toNat + n.toNat ≤ 2 ^ 32) (hdst : dst.toNat + n.toNat ≤ 2 ^ 32)
    (hapart : ¬ (src < dst ∧ dst < src + n)) : (src - dst).toNat + n.toNat ≤ 2 ^ 32 := by
  rw [BitVec.lt_def, BitVec.lt_def, BitVec.toNat_add] at hapart
  rw [BitVec.toNat_sub]
  omega

theorem moved_repMovs_up (hcount : ecx.toNat * width = n.toNat)
    (hroom : (src - dst).toNat + n.toNat ≤ 2 ^ 32) :
    Moved (src - dst) (window dst n.toNat) bytes (Asm.repMovs width false dst src ecx bytes) := by
  rw [← hcount] at hroom ⊢
  exact moved_upwards hroom

theorem moved_repMovs_down (hcount : ecx.toNat * width = n.toNat)
    (hroom : (dst - src).toNat + n.toNat ≤ 2 ^ 32) :
    Moved (src - dst) (window dst n.toNat) bytes
      (Asm.repMovs width true (dst + n - BitVec.ofNat 32 width) (src + n - BitVec.ofNat 32 width)
        ecx bytes) := by
  have hn : BitVec.ofNat 32 (ecx.toNat * width) = n := by
    rw [hcount, BitVec.ofNat_toNat, BitVec.setWidth_eq]
  rw [← hcount] at hroom ⊢
  rw [← hn]
  exact moved_downwards hroom

theorem toNat_quarter (hn : n % 4 = 0) : (n / 4).toNat * 4 = n.toNat := by
  have hrem := congrArg BitVec.toNat hn
  rw [BitVec.toNat_umod] at hrem
  rw [BitVec.toNat_udiv]
  exact Nat.div_mul_cancel (Nat.dvd_of_mod_eq_zero hrem)

/-- Whichever way the assembly version goes, it moves the bytes. -/
theorem Asm.memmove_moved (hsrc : src.toNat + n.toNat ≤ 2 ^ 32)
    (hdst : dst.toNat + n.toNat ≤ 2 ^ 32) (bytes : Bytes) :
    Moved (src - dst) (window dst n.toNat) bytes (Asm.memmove dst src n bytes).2 := by
  have hone : n.toNat * 1 = n.toNat := Nat.mul_one _
  rw [Asm.memmove]
  dsimp only
  split
  case isTrue hoverlap =>
    have hroom := room_below hdst hoverlap
    split
    case isTrue haligned => exact moved_repMovs_down (toNat_quarter haligned.2.2) hroom
    case isFalse => exact moved_repMovs_down hone hroom
  case isFalse hapart =>
    have hroom := room_above hsrc hdst hapart
    split
    case isTrue haligned => exact moved_repMovs_up (toNat_quarter haligned.2.2) hroom
    case isFalse => exact moved_repMovs_up hone hroom

theorem Portable.memmove_moved (hsrc : src.toNat + n.toNat ≤ 2 ^ 32)
    (hdst : dst.toNat + n.toNat ≤ 2 ^ 32) (bytes : Bytes) :
    Moved (src - dst) (window dst n.toNat) bytes (Portable.memmove dst src n bytes).2 := by
  have hone : n.toNat * 1 = n.toNat := Nat.mul_one _
  rw [Portable.memmove]
  dsimp only
  split
  case isTrue hoverlap =>
    dsimp only
    rw [Portable.copyDown_eq]
    exact moved_repMovs_down hone (room_below hdst hoverlap)
  case isFalse hapart =>
    dsimp only
    rw [Portable.copyUp_eq]
    exact moved_repMovs_up hone (room_above hsrc hdst hapart)

end Moves

/-- `memmove` leaves at `dst` what stood at `src`, and no other byte changes; it does the same by
loops over bytes, and by the name of `memcpy`. -/
theorem memmove_moves {dst src n : Word} (hsrc : src.toNat + n.toNat ≤ 2 ^ 32)
    (hdst : dst.toNat + n.toNat ≤ 2 ^ 32) (bytes : Bytes) :
    (∀ i < n.toNat, (Asm.memmove dst src n bytes).2 (dst + BitVec.ofNat 32 i) =
        bytes (src + BitVec.ofNat 32 i)) ∧
      (∀ a, (∀ i < n.toNat, a ≠ dst + BitVec.ofNat 32 i) →
        (Asm.memmove dst src n bytes).2 a = bytes a) ∧
      Asm.memmove dst src n bytes = Portable.memmove dst src n bytes ∧
      Asm.memcpy dst src n bytes = Asm.memmove dst src n bytes := by
  have hmoved := Asm.memmove_moved hsrc hdst bytes
  have hportable := Portable.memmove_moved hsrc hdst bytes
  refine ⟨fun i hi => ?_, fun a ha => ?_, ?_, rfl⟩
  · have hsource : dst + BitVec.ofNat 32 i + (src - dst) = src + BitVec.ofNat 32 i := by abel
    rw [hmoved.inside _ (mem_window_iff.mpr ⟨i, hi, rfl⟩), hsource]
  · refine hmoved.outside a fun hmem => ?_
    obtain ⟨i, hi, hplace⟩ := mem_window_iff.mp hmem
    exact ha i hi hplace
  · refine Prod.ext ?_ (hmoved.unique hportable)
    rw [Asm.memmove, Portable.memmove]
    dsimp only
    split
    · split <;> rfl
    · split <;> rfl

/-- Eight bytes, moved up by four. -/
theorem memmove_overlap_moves :
    (Asm.memmove 0x1004 0x1000 8 fun a => a.setWidth 8).2 0x100b = 7 :=
  (memmove_moves (by decide) (by decide) fun a => a.setWidth 8).1 7 (by decide)

end OsLabs.Jos
