import OsLabs.Jos.FormatRuns

/-!
# `vsnprintf`

`sprintputch` counts every character and stores it as long as there is room;
`vsnprintf` keeps the last byte of the buffer for the NUL.
-/

namespace OsLabs.Jos

open Function

/-- `struct sprintbuf`, with the memory and the addresses that have been written. -/
structure SprintBuf where
  buf : Word
  ebuf : Word
  cnt : Word
  mem : Word → BitVec 8
  written : List Word

namespace SprintBuf

/-- `*b->buf = byte`. -/
def store (b : SprintBuf) (byte : BitVec 8) : SprintBuf :=
  { b with mem := update b.mem b.buf byte, written := b.written ++ [b.buf] }

/-- `sprintputch`. -/
def sprintputch (b : SprintBuf) (ch : Word) : SprintBuf :=
  let b := { b with cnt := b.cnt + 1 }
  if b.buf < b.ebuf then { b.store (charByte ch) with buf := b.buf + 1 } else b

end SprintBuf

/-- `vsnprintf`, on the characters that `vprintfmt` passes to `sprintputch`: the value it returns,
and what it leaves.  The format and the strings that are printed lie outside the buffer. -/
def vsnprintf (memory : Memory) (fuel : ℕ) (mem : Word → BitVec 8) (buf n : Word)
    (fmt : List (BitVec 8)) (args : List Word) (csa : Word) : Option (Word × SprintBuf) :=
  let b : SprintBuf := ⟨buf, buf + n - 1, 0, mem, []⟩
  if buf = 0 ∨ n.slt 1 then some (-eInval, b)
  else do
    let out ← vprintfmt memory fuel fmt 0 args (Printer.start csa)
    let b := out.chars.foldl (fun b ch => b.sprintputch ch.1) b
    return (b.cnt, b.store 0)

section Filled

variable {b : SprintBuf} {mem : Word → BitVec 8} {buf : Word} {room : ℕ} {chars : List (BitVec 8)}

/-- What the buffer at `buf` holds when `chars` have been emitted, with room for `room` of them. -/
structure SprintBuf.Filled (b : SprintBuf) (mem : Word → BitVec 8) (buf : Word) (room : ℕ)
    (chars : List (BitVec 8)) : Prop where
  cnt : b.cnt = BitVec.ofNat 32 chars.length
  next : b.buf = buf + BitVec.ofNat 32 (min room chars.length)
  limit : b.ebuf = buf + BitVec.ofNat 32 room
  inside : ∀ i < room, ∀ char, chars[i]? = some char → b.mem (buf + BitVec.ofNat 32 i) = char
  outside : ∀ addr, addr ∉ b.written → b.mem addr = mem addr
  written : ∀ addr ∈ b.written, ∃ i < room, addr = buf + BitVec.ofNat 32 i

theorem SprintBuf.Filled.start (mem : Word → BitVec 8) {limit : Word}
    (hlimit : limit = buf + BitVec.ofNat 32 room) :
    (⟨buf, limit, 0, mem, []⟩ : SprintBuf).Filled mem buf room [] where
  cnt := rfl
  next := by
    rw [List.length_nil, Nat.min_zero]
    exact (BitVec.add_zero buf).symm
  limit := hlimit
  inside i _ char hchar := by
    rw [List.getElem?_nil] at hchar
    cases hchar
  outside _ _ := rfl
  written _ h := absurd h List.not_mem_nil

theorem place_toNat (hfits : buf.toNat + room < 2 ^ 32) {i : ℕ} (hi : i ≤ room) :
    (buf + BitVec.ofNat 32 i).toNat = buf.toNat + i := by
  rw [BitVec.toNat_add, BitVec.toNat_ofNat]
  omega

/-- Different places of a buffer have different addresses. -/
theorem place_inj (hfits : buf.toNat + room < 2 ^ 32) {i j : ℕ} (hi : i ≤ room) (hj : j ≤ room)
    (hsame : buf + BitVec.ofNat 32 i = buf + BitVec.ofNat 32 j) : i = j := by
  have hnat := congrArg BitVec.toNat hsame
  rw [place_toNat hfits hi, place_toNat hfits hj] at hnat
  omega

/-- One character more. -/
theorem SprintBuf.Filled.sprintputch (hfits : buf.toNat + room < 2 ^ 32)
    (hfilled : b.Filled mem buf room chars) (ch : Word) :
    (b.sprintputch ch).Filled mem buf room (chars ++ [charByte ch]) := by
  have hcnt : b.cnt + 1 = BitVec.ofNat 32 (chars ++ [charByte ch]).length := by
    rw [hfilled.cnt, List.length_append, List.length_singleton, BitVec.ofNat_add]
    rfl
  have hlt : b.buf < b.ebuf ↔ chars.length < room := by
    rw [BitVec.lt_def, hfilled.next, hfilled.limit, place_toNat hfits (min_le_left _ _),
      place_toNat hfits le_rfl]
    omega
  rw [SprintBuf.sprintputch]
  dsimp only
  by_cases hroom : chars.length < room
  · have hnext : b.buf = buf + BitVec.ofNat 32 chars.length := by
      rw [hfilled.next, min_eq_right hroom.le]
    rw [if_pos (hlt.mpr hroom)]
    refine ⟨hcnt, ?_, hfilled.limit, fun i hi char hchar => ?_, fun addr haddr => ?_,
      fun addr haddr => ?_⟩
    · have hmin : min room (chars ++ [charByte ch]).length = chars.length + 1 := by
        rw [List.length_append, List.length_singleton]
        omega
      rw [hmin, hnext, BitVec.ofNat_add, ← add_assoc]
      rfl
    · show update b.mem b.buf (charByte ch) _ = char
      rw [hnext]
      rcases Nat.lt_trichotomy i chars.length with hbefore | rfl | hbehind
      · rw [List.getElem?_append_left hbefore] at hchar
        rw [update_of_ne fun h => hbefore.ne (place_inj hfits hi.le hroom.le h)]
        exact hfilled.inside i hi char hchar
      · rw [List.getElem?_concat_length] at hchar
        rw [update_self]
        exact Option.some.inj hchar
      · rw [List.getElem?_eq_none (by
          rw [List.length_append, List.length_singleton]; omega)] at hchar
        cases hchar
    · have hnot := not_or.mp (List.mem_append.not.mp haddr)
      show update b.mem b.buf (charByte ch) addr = mem addr
      rw [update_of_ne fun h => hnot.2 (List.mem_singleton.mpr h)]
      exact hfilled.outside addr hnot.1
    · rcases List.mem_append.mp haddr with hold | hnew
      · exact hfilled.written addr hold
      · exact ⟨chars.length, hroom, (List.mem_singleton.mp hnew).trans hnext⟩
  · rw [if_neg (hlt.not.mpr hroom)]
    refine ⟨hcnt, ?_, hfilled.limit, fun i hi char hchar => ?_, hfilled.outside, hfilled.written⟩
    · rw [List.length_append, min_eq_left (by omega)]
      exact hfilled.next.trans (by rw [min_eq_left (not_lt.mp hroom)])
    · rw [List.getElem?_append_left (by omega)] at hchar
      exact hfilled.inside i hi char hchar

/-- The whole output. -/
theorem SprintBuf.Filled.foldl (hfits : buf.toNat + room < 2 ^ 32)
    (hfilled : b.Filled mem buf room chars) (output : List (Word × Word)) :
    (output.foldl (fun b ch => b.sprintputch ch.1) b).Filled mem buf room
      (chars ++ output.map fun ch => charByte ch.1) := by
  induction output generalizing b chars with
  | nil =>
    rw [List.map_nil, List.append_nil]
    exact hfilled
  | cons ch output ih =>
    have hrest := ih (hfilled.sprintputch hfits ch.1)
    rwa [List.append_assoc] at hrest

end Filled

/-- What `vsnprintf` leaves of the text `chars` in the `n` bytes at `buf`, in a memory that held
`mem`, with the value that it returns. -/
structure Snprinted (mem : Word → BitVec 8) (buf : Word) (n : ℕ) (chars : List (BitVec 8))
    (ret : Word) (b : SprintBuf) : Prop where
  ret : ret.toInt = chars.length
  text : ∀ i < min (n - 1) chars.length, chars[i]? = some (b.mem (buf + BitVec.ofNat 32 i))
  nul : b.mem (buf + BitVec.ofNat 32 (min (n - 1) chars.length)) = 0
  written : ∀ addr ∈ b.written, ∃ i < n, addr = buf + BitVec.ofNat 32 i
  kept : ∀ addr, addr ∉ b.written → b.mem addr = mem addr

end OsLabs.Jos
