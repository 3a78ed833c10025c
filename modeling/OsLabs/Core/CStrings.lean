import Mathlib.Data.List.TakeWhile

/-!
# C strings in a buffer

A string is a run of bytes in front of a NUL; a pointer to it is its place in
the buffer.
-/

namespace OsLabs

instance byteLawfulBEq : LawfulBEq (BitVec 8) := inferInstance

instance byteNontrivial : Nontrivial (BitVec 8) := ⟨0, 1, by decide⟩

/-- The bytes of a string constant. -/
def text (s : String) : List (BitVec 8) := s.toList.map fun c => BitVec.ofNat 8 c.toNat

/-- The string that a pointer to `bytes` points to. -/
def cString (bytes : List (BitVec 8)) : List (BitVec 8) := bytes.takeWhile (· ≠ 0)

/-- At place `p` of the buffer there is the word, with a NUL behind it. -/
def WordAt (buf : List (BitVec 8)) (p : ℕ) (word : List (BitVec 8)) : Prop :=
  0 ∉ word ∧ ∃ rest, buf.drop p = word ++ 0 :: rest

/-- At the places there are the words, one behind the other from `start` on. -/
def Placed (buf : List (BitVec 8)) : ℕ → List (List (BitVec 8)) → List ℕ → Prop
  | _, [], [] => True
  | start, word :: words, p :: places =>
      start ≤ p ∧ WordAt buf p word ∧ Placed buf (p + word.length) words places
  | _, _, _ => False

/-- The first place from `pos` on where the property ends; no result where the buffer ends before. -/
def scan (p : BitVec 8 → Bool) (buf : List (BitVec 8)) (pos : ℕ) : Option ℕ :=
  match hread : buf[pos]? with
  | none => none
  | some c => if p c then scan p buf (pos + 1) else some pos
termination_by buf.length - pos
decreasing_by
  have hlt := (List.getElem?_eq_some_iff.mp hread).1
  omega

/-! ## Behind a part of the buffer -/

theorem read_behind (before rest : List (BitVec 8)) (c : BitVec 8) :
    (before ++ c :: rest)[before.length]? = some c := by
  rw [List.getElem?_append_right le_rfl, Nat.sub_self]
  rfl

theorem set_behind (before rest : List (BitVec 8)) (c c' : BitVec 8) :
    (before ++ c :: rest).set before.length c' = before ++ c' :: rest := by
  rw [List.set_append_right _ _ le_rfl, Nat.sub_self]
  rfl

/-! ## Words -/

section Words

variable {buf word : List (BitVec 8)} {p : ℕ}

theorem cString_append (hnul : 0 ∉ word) (rest : List (BitVec 8)) :
    cString (word ++ 0 :: rest) = word := by
  have hne : ∀ c ∈ word, decide (c ≠ 0) = true := fun c hc => by
    rw [decide_eq_true_eq]
    rintro rfl
    exact hnul hc
  rw [cString, List.takeWhile_append_of_pos hne, List.takeWhile_cons_of_neg (by decide),
    List.append_nil]

theorem WordAt.cString_eq (hword : WordAt buf p word) : cString (buf.drop p) = word := by
  obtain ⟨hnul, rest, hdrop⟩ := hword
  rw [hdrop, cString_append hnul]

/-- A part of a buffer keeps its words in the whole. -/
theorem WordAt.within (hword : WordAt buf p word) (before tail : List (BitVec 8)) :
    WordAt (before ++ (buf ++ tail)) (before.length + p) word := by
  obtain ⟨hnul, rest, hdrop⟩ := hword
  have hle : p ≤ buf.length := by
    by_contra hlong
    rw [List.drop_eq_nil_of_le (by omega)] at hdrop
    exact absurd hdrop.symm (List.append_ne_nil_of_right_ne_nil word (List.cons_ne_nil _ _))
  refine ⟨hnul, rest ++ tail, ?_⟩
  rw [List.drop_length_add_append, List.drop_append_of_le_length hle, hdrop, List.append_assoc]
  rfl

namespace Placed

theorem length_eq {start : ℕ} {words : List (List (BitVec 8))} {places : List ℕ}
    (hplaced : Placed buf start words places) : places.length = words.length := by
  induction words generalizing start places with
  | nil =>
    cases places with
    | nil => rfl
    | cons p places => exact hplaced.elim
  | cons word words ih =>
    cases places with
    | nil => exact hplaced.elim
    | cons p places => exact congrArg (· + 1) (ih hplaced.2.2)

theorem of_le {start start' : ℕ} {words : List (List (BitVec 8))} {places : List ℕ}
    (hplaced : Placed buf start words places) (hle : start' ≤ start) :
    Placed buf start' words places := by
  cases words with
  | nil =>
    cases places with
    | nil => trivial
    | cons p places => exact hplaced.elim
  | cons word words =>
    cases places with
    | nil => exact hplaced.elim
    | cons p places => exact ⟨hle.trans hplaced.1, hplaced.2⟩

/-- The places in a part of a buffer, counted in the whole. -/
theorem within {start : ℕ} {words : List (List (BitVec 8))} {places : List ℕ}
    (hplaced : Placed buf start words places) (before tail : List (BitVec 8)) :
    Placed (before ++ (buf ++ tail)) (before.length + start) words
      (places.map (before.length + ·)) := by
  induction words generalizing start places with
  | nil =>
    cases places with
    | nil => trivial
    | cons p places => exact hplaced.elim
  | cons word words ih =>
    cases places with
    | nil => exact hplaced.elim
    | cons p places =>
      obtain ⟨hle, hword, hrest⟩ := hplaced
      refine ⟨Nat.add_le_add_left hle _, hword.within before tail, ?_⟩
      rw [Nat.add_assoc]
      exact ih hrest

/-- No word contains a NUL. -/
theorem nul_not_mem {start : ℕ} {words : List (List (BitVec 8))} {places : List ℕ}
    (hplaced : Placed buf start words places) : ∀ word ∈ words, 0 ∉ word := by
  induction words generalizing start places with
  | nil => exact fun _ h => nomatch h
  | cons word words ih =>
    cases places with
    | nil => exact hplaced.elim
    | cons p places =>
      obtain ⟨-, hword, hrest⟩ := hplaced
      exact List.forall_mem_cons.mpr ⟨hword.1, ih hrest⟩

/-- What stands at the places. -/
theorem map_cString {start : ℕ} {words : List (List (BitVec 8))} {places : List ℕ}
    (hplaced : Placed buf start words places) :
    (places.map fun p => cString (buf.drop p)) = words := by
  induction words generalizing start places with
  | nil =>
    cases places with
    | nil => rfl
    | cons p places => exact hplaced.elim
  | cons word words ih =>
    cases places with
    | nil => exact hplaced.elim
    | cons p places =>
      obtain ⟨-, hword, hrest⟩ := hplaced
      rw [List.map_cons, hword.cString_eq, ih hrest]

end Placed

/-! ## Scans -/

variable {property : BitVec 8 → Bool} {pos : ℕ} {c : BitVec 8}

theorem scan_of_read (hread : buf[pos]? = some c) :
    scan property buf pos = if property c then scan property buf (pos + 1) else some pos := by
  rw [scan]
  split
  · rename_i hnone
    cases hnone.symm.trans hread
  · rename_i hsome
    cases hsome.symm.trans hread
    rfl

/-- A run with the property, up to a character without it. -/
theorem scan_run {run tail : List (BitVec 8)} {stop : BitVec 8} (hrun : ∀ c ∈ run, property c)
    (hstop : property stop = false) (before : List (BitVec 8)) :
    scan property (before ++ (run ++ stop :: tail)) before.length =
      some (before.length + run.length) := by
  induction run generalizing before with
  | nil =>
    rw [List.nil_append, scan_of_read (read_behind before tail stop), hstop]
    rfl
  | cons c run ih =>
    obtain ⟨hc, hrest⟩ := List.forall_mem_cons.mp hrun
    have hnext := ih hrest (before ++ [c])
    rw [List.length_append, List.length_singleton, List.append_assoc] at hnext
    rw [List.cons_append, scan_of_read (read_behind before _ c), if_pos hc]
    refine hnext.trans ?_
    rw [List.length_cons, Nat.add_assoc, Nat.add_comm 1]

end Words

end OsLabs
