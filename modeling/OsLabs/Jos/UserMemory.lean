import OsLabs.Jos.Trap

/-!
# User memory

What a user program sees: one byte at every address of its own address space.
A run of bytes is stored at once, and words are read and written in
little-endian order, as `getByte` takes them apart.  Addresses stand for
themselves: a page that is mapped at two of them is not seen as one page.
-/

namespace OsLabs.Jos

/-- The bytes of an address space, as its environment reads them. -/
abbrev UserMemory := Word → BitVec 8

namespace UserMemory

/-- The memory with consecutive bytes replaced from `base` on. -/
def storeBytes (mem : UserMemory) (base : Word) (bytes : List (BitVec 8)) : UserMemory :=
  fun a => (bytes[(a - base).toNat]?).getD (mem a)

def readWord (mem : UserMemory) (a : Word) : Word :=
  (mem (a + 3) ++ mem (a + 2) ++ mem (a + 1) ++ mem a : BitVec (8 + 8 + 8 + 8))

theorem storeBytes_off {mem : UserMemory} {base a : Word} {bytes : List (BitVec 8)}
    (hoff : bytes.length ≤ (a - base).toNat) : storeBytes mem base bytes a = mem a := by
  rw [storeBytes, List.getElem?_eq_none hoff, Option.getD_none]

theorem storeBytes_at {mem : UserMemory} {base : Word} {bytes : List (BitVec 8)} {i : ℕ}
    {byte : BitVec 8} (hbyte : bytes[i]? = some byte) (hi : i < 2 ^ 32) :
    storeBytes mem base bytes (base + BitVec.ofNat 32 i) = byte := by
  have hdist : (base + BitVec.ofNat 32 i - base).toNat = i := by
    rw [BitVec.add_comm, BitVec.add_sub_cancel, BitVec.toNat_ofNat, Nat.mod_eq_of_lt hi]
  rw [storeBytes, hdist, hbyte, Option.getD_some]

/-- One byte stored, then the others. -/
theorem storeBytes_cons {mem : UserMemory} {base : Word} {byte : BitVec 8}
    {bytes : List (BitVec 8)} (hlen : bytes.length < 2 ^ 32) :
    storeBytes mem base (byte :: bytes) =
      storeBytes (Function.update mem base byte) (base + 1) bytes := by
  funext a
  by_cases ha : a = base
  · subst ha
    have hwrap : bytes.length ≤ (a - (a + 1)).toNat := by bv_omega
    rw [storeBytes_off hwrap, Function.update_self, storeBytes, BitVec.sub_self]
    rfl
  · have hdist : (a - base).toNat = (a - (base + 1)).toNat + 1 := by bv_omega
    rw [storeBytes, storeBytes, Function.update_of_ne ha, hdist, List.getElem?_cons_succ]

theorem readWord_congr {mem mem' : UserMemory} {a : Word}
    (h : ∀ i < 4, mem' (a + BitVec.ofNat 32 i) = mem (a + BitVec.ofNat 32 i)) :
    mem'.readWord a = mem.readWord a := by
  have h0 := h 0 (by norm_num)
  have h1 := h 1 (by norm_num)
  have h2 := h 2 (by norm_num)
  have h3 := h 3 (by norm_num)
  rw [show a + BitVec.ofNat 32 0 = a from BitVec.add_zero a] at h0
  rw [readWord, readWord, h0]
  congr 1
  congr 1
  congr 1

theorem readWord_storeBytes_off {mem : UserMemory} {base a : Word} {bytes : List (BitVec 8)}
    (hoff : ∀ i < 4, bytes.length ≤ (a + BitVec.ofNat 32 i - base).toNat) :
    (storeBytes mem base bytes).readWord a = mem.readWord a :=
  readWord_congr fun i hi => storeBytes_off (hoff i hi)

end UserMemory

theorem getByte_append (word : Word) :
    (getByte word 3 ++ getByte word 2 ++ getByte word 1 ++ getByte word 0 :
      BitVec (8 + 8 + 8 + 8)) = word := by
  ext i hi
  simp only [getByte, BitVec.getElem_append, BitVec.getElem_setWidth, BitVec.getLsbD_ushiftRight]
  split_ifs <;> (rw [← BitVec.getLsbD_eq_getElem]; congr 1; omega)

@[simp]
theorem length_wordBytes (word : Word) : (wordBytes word).length = 4 := rfl

@[simp]
theorem length_flatMap_wordBytes (words : List Word) :
    (words.flatMap wordBytes).length = 4 * words.length := by
  induction words with
  | nil => rfl
  | cons word words ih =>
      rw [List.flatMap_cons, List.length_append, ih, List.length_cons, length_wordBytes]
      ring

theorem wordBytes_getElem? {word : Word} {i : ℕ} (hi : i < 4) :
    (wordBytes word)[i]? = some (getByte word i) := by
  interval_cases i <;> rfl

/-- Byte `i` of word `k`, when words are laid out one after the other. -/
theorem flatMap_wordBytes_getElem? {words : List Word} {k i : ℕ} {word : Word}
    (hword : words[k]? = some word) (hi : i < 4) :
    (words.flatMap wordBytes)[4 * k + i]? = some (getByte word i) := by
  induction words generalizing k with
  | nil => simp at hword
  | cons first words ih =>
      rw [List.flatMap_cons]
      cases k with
      | zero =>
          rw [List.getElem?_cons_zero, Option.some_inj] at hword
          rw [hword, List.getElem?_append_left (by rw [length_wordBytes]; omega),
            show 4 * 0 + i = i by ring]
          exact wordBytes_getElem? hi
      | succ k =>
          rw [List.getElem?_cons_succ] at hword
          rw [List.getElem?_append_right (by rw [length_wordBytes]; omega), length_wordBytes,
            show 4 * (k + 1) + i - 4 = 4 * k + i by omega]
          exact ih hword

namespace UserMemory

/-- A run of stored words is read back word by word. -/
theorem readWord_storeWords (mem : UserMemory) (base : Word) {words : List Word} {k : ℕ}
    {word : Word} (hword : words[k]? = some word) (hk : 4 * k + 4 ≤ 2 ^ 32) :
    (storeBytes mem base (words.flatMap wordBytes)).readWord (base + BitVec.ofNat 32 (4 * k)) =
      word := by
  have hbyte (i : ℕ) (hi : i < 4) :
      storeBytes mem base (words.flatMap wordBytes)
          (base + BitVec.ofNat 32 (4 * k) + BitVec.ofNat 32 i) = getByte word i := by
    rw [BitVec.add_assoc, ← BitVec.ofNat_add]
    exact storeBytes_at (flatMap_wordBytes_getElem? hword hi) (by omega)
  have h0 := hbyte 0 (by norm_num)
  rw [show (BitVec.ofNat 32 0) = 0#32 from rfl, BitVec.add_zero] at h0
  rw [readWord, h0]
  calc
    _ = (getByte word 3 ++ getByte word 2 ++ getByte word 1 ++ getByte word 0 :
          BitVec (8 + 8 + 8 + 8)) := by
      congr 1
      congr 1
      congr 1
      · exact hbyte 3 (by norm_num)
      · exact hbyte 2 (by norm_num)
      · exact hbyte 1 (by norm_num)
    _ = word := getByte_append word

theorem readWord_storeWord {mem : UserMemory} {a word : Word} :
    (storeBytes mem a (wordBytes word)).readWord a = word := by
  have hword : [word][0]? = some word := rfl
  have hread := readWord_storeWords mem a hword (by norm_num)
  rwa [List.flatMap_singleton, show BitVec.ofNat 32 (4 * 0) = 0#32 from rfl,
    BitVec.add_zero] at hread

end UserMemory

end OsLabs.Jos
