import OsLabs.Shell.Strtok

/-!
# `merge`

`merge` writes the line over itself: `s` reads ahead of `p`, past every blank
that another blank follows.
-/

namespace OsLabs.Shell

open OsLabs.Words

/-- The blank of a command line. -/
def blank : BitVec 8 := BitVec.ofNat 8 ' '.toNat

/-- `while (*s == ' ' && *(s+1) == ' ') s++;` -/
def skipBlanks (buf : List (BitVec 8)) (s : ℕ) : Option ℕ :=
  match _hread : buf[s]? with
  | none => none
  | some c =>
      if c = blank then
        match buf[s + 1]? with
        | none => none
        | some next => if next = blank then skipBlanks buf (s + 1) else some s
      else some s
termination_by buf.length - s
decreasing_by
  have hlt := (List.getElem?_eq_some_iff.mp _hread).1
  omega

/-- `s` only goes on. -/
theorem le_of_skipBlanks {buf : List (BitVec 8)} {s s' : ℕ} (hskip : skipBlanks buf s = some s') :
    s ≤ s' := by
  fun_induction skipBlanks buf s with
  | case1 => cases hskip
  | case2 => cases hskip
  | case3 s _ _ ih => exact (Nat.le_succ s).trans (ih hskip)
  | case4 => exact (Option.some.inj hskip).le
  | case5 => exact (Option.some.inj hskip).le

/-- The loop of `merge`; no result where it reads or writes outside the buffer. -/
def mergeLoop (buf : List (BitVec 8)) (s p : ℕ) : Option (List (BitVec 8)) :=
  match _hread : buf[s]? with
  | none => none
  | some c =>
      if c = 0 then if p < buf.length then some (buf.set p 0) else none
      else
        match _hskip : skipBlanks buf s with
        | none => none
        | some s' =>
            match buf[s']? with
            | none => none
            | some c => if p < buf.length then mergeLoop (buf.set p c) (s' + 1) (p + 1) else none
termination_by buf.length - s
decreasing_by
  have hlt := (List.getElem?_eq_some_iff.mp _hread).1
  have hle := le_of_skipBlanks _hskip
  rw [List.length_set]
  omega

def merge (buf : List (BitVec 8)) : Option (List (BitVec 8)) := mergeLoop buf 0 0

/-! ## The loops -/

section Loops

variable {buf done gap line tail : List (BitVec 8)} {s p : ℕ} {c : BitVec 8}

theorem skipBlanks_of_read (hread : buf[s]? = some c) :
    skipBlanks buf s =
      if c = blank then buf[s + 1]?.bind fun next =>
        if next = blank then skipBlanks buf (s + 1) else some s
      else some s := by
  rw [skipBlanks]
  split
  · rename_i hnone
    cases hnone.symm.trans hread
  · rename_i hsome
    cases hsome.symm.trans hread
    cases buf[s + 1]? <;> rfl

theorem mergeLoop_nul (hread : buf[s]? = some 0) (hp : p < buf.length) :
    mergeLoop buf s p = some (buf.set p 0) := by
  rw [mergeLoop]
  split
  · rename_i hnone
    cases hnone.symm.trans hread
  · rename_i hsome
    cases hsome.symm.trans hread
    rw [if_pos rfl, if_pos hp]

theorem mergeLoop_of_read (hread : buf[s]? = some c) (hc : c ≠ 0) (p : ℕ) :
    mergeLoop buf s p = (skipBlanks buf s).bind fun s' => buf[s']?.bind fun c =>
      if p < buf.length then mergeLoop (buf.set p c) (s' + 1) (p + 1) else none := by
  rw [mergeLoop]
  split
  · rename_i hnone
    cases hnone.symm.trans hread
  · rename_i hsome
    cases hsome.symm.trans hread
    rw [if_neg hc]
    split
    · rename_i hnone
      rw [hnone, Option.bind_none]
    · rename_i s' hskip
      rw [hskip, Option.bind_some]
      cases buf[s']? <;> rfl

/-- A blank in front of a blank is passed over. -/
theorem mergeLoop_blank (hread : buf[s]? = some blank) (hnext : buf[s + 1]? = some blank) (p : ℕ) :
    mergeLoop buf s p = mergeLoop buf (s + 1) p := by
  have hskip : skipBlanks buf s = skipBlanks buf (s + 1) := by
    rw [skipBlanks_of_read hread, if_pos rfl, hnext, Option.bind_some, if_pos rfl]
  rw [mergeLoop_of_read hread (by decide), mergeLoop_of_read hnext (by decide), hskip]

/-- Any other character is copied. -/
theorem mergeLoop_copy (hread : buf[s]? = some c) (hc : c ≠ 0) (hp : p < buf.length)
    (hnext : c = blank → ∃ next, buf[s + 1]? = some next ∧ next ≠ blank) :
    mergeLoop buf s p = mergeLoop (buf.set p c) (s + 1) (p + 1) := by
  have hskip : skipBlanks buf s = some s := by
    rw [skipBlanks_of_read hread]
    split
    case isTrue hblank =>
      obtain ⟨next, hread', hne⟩ := hnext hblank
      rw [hread', Option.bind_some, if_neg hne]
    case isFalse => rfl
  rw [mergeLoop_of_read hread hc, hskip, Option.bind_some, hread, Option.bind_some, if_pos hp]

/-- The character goes behind what is done; the gap moves on. -/
theorem set_gap (done gap rest : List (BitVec 8)) (c c' : BitVec 8) :
    ∃ gap', gap'.length = gap.length ∧
      (done ++ (gap ++ c :: rest)).set done.length c' = done ++ c' :: (gap' ++ rest) := by
  cases gap with
  | nil => exact ⟨[], rfl, set_behind done rest c c'⟩
  | cons d gap =>
    refine ⟨gap ++ [c], List.length_append, ?_⟩
    rw [List.cons_append, set_behind, List.append_assoc, List.singleton_append]

/-- From behind a gap, the squeezed line goes behind what is done. -/
theorem mergeLoop_squeeze (hnul : 0 ∉ line) (done gap tail : List (BitVec 8)) :
    ∃ junk, junk.length + (squeeze blank line).length = gap.length + line.length ∧
      mergeLoop (done ++ (gap ++ (line ++ 0 :: tail))) (done.length + gap.length) done.length =
        some (done ++ (squeeze blank line ++ 0 :: (junk ++ tail))) := by
  induction line generalizing done gap with
  | nil =>
    obtain ⟨junk, hjunk, hset⟩ := set_gap done gap tail 0 0
    have hread := read_behind (done ++ gap) tail 0
    rw [List.length_append, List.append_assoc] at hread
    refine ⟨junk, congrArg (· + 0) hjunk, ?_⟩
    rw [List.nil_append, mergeLoop_nul hread, hset]
    · rfl
    · rw [List.length_append, List.length_append, List.length_cons]
      omega
  | cons c line ih =>
    obtain ⟨hc, hrest⟩ := not_or.mp (List.mem_cons.not.mp hnul)
    have hread := read_behind (done ++ gap) (line ++ 0 :: tail) c
    rw [List.length_append, List.append_assoc] at hread
    -- where no two blanks stand, the character is copied
    have hcopy (hnext : c = blank → ∃ next,
          (done ++ (gap ++ c :: (line ++ 0 :: tail)))[done.length + gap.length + 1]? = some next ∧
            next ≠ blank) (hsqueeze : squeeze blank (c :: line) = c :: squeeze blank line) :
        ∃ junk, junk.length + (squeeze blank (c :: line)).length = gap.length + (c :: line).length ∧
          mergeLoop (done ++ (gap ++ c :: (line ++ 0 :: tail))) (done.length + gap.length)
            done.length = some (done ++ (squeeze blank (c :: line) ++ 0 :: (junk ++ tail))) := by
      obtain ⟨gap', hgap, hset⟩ := set_gap done gap (line ++ 0 :: tail) c c
      obtain ⟨junk, hjunk, hmerge⟩ := ih hrest (done ++ [c]) gap'
      rw [List.append_assoc, List.append_assoc, List.length_append, List.length_singleton, hgap,
        Nat.add_right_comm] at hmerge
      refine ⟨junk, ?_, ?_⟩
      · rw [hsqueeze, List.length_cons, List.length_cons, ← Nat.add_assoc, hjunk, hgap]
        rfl
      · rw [mergeLoop_copy hread (Ne.symm hc) ?_ hnext, hset, hsqueeze]
        · exact hmerge
        · rw [List.length_append, List.length_append, List.length_cons]
          omega
    have hplace : done.length + gap.length + 1 = (done ++ (gap ++ [c])).length := by
      simp only [List.length_append, List.length_singleton, Nat.add_assoc]
    have hshift (rest : List (BitVec 8)) :
        done ++ (gap ++ c :: rest) = done ++ (gap ++ [c]) ++ rest := by
      simp only [List.append_assoc, List.singleton_append]
    cases line with
    | nil =>
      refine hcopy (fun _ => ⟨0, ?_, by decide⟩) rfl
      rw [hplace, hshift, List.nil_append, read_behind]
    | cons d line =>
      have hbehind := read_behind (done ++ (gap ++ [c])) (line ++ 0 :: tail) d
      rw [← hplace, ← hshift, ← List.cons_append] at hbehind
      by_cases hboth : c = blank ∧ d = blank
      · obtain ⟨rfl, rfl⟩ := hboth
        obtain ⟨junk, hjunk, hmerge⟩ := ih hrest done (gap ++ [blank])
        refine ⟨junk, ?_, ?_⟩
        · rw [squeeze_cons_cons, if_pos ⟨rfl, rfl⟩, hjunk, List.length_append,
            List.length_singleton, @List.length_cons _ blank (blank :: line), Nat.add_assoc,
            Nat.add_comm 1]
        · rw [squeeze_cons_cons, if_pos ⟨rfl, rfl⟩, List.cons_append,
            mergeLoop_blank hread hbehind, ← hmerge, List.length_append, List.length_singleton,
            ← Nat.add_assoc, List.append_assoc gap]
          rfl
      · refine hcopy (fun hblank => ⟨d, hbehind, fun hd => hboth ⟨hblank, hd⟩⟩) ?_
        rw [squeeze_cons_cons, if_neg hboth]

end Loops

/-! ## The whole line -/

/-- The characters behind the NUL are left as they are. -/
theorem merge_line {line : List (BitVec 8)} (hnul : 0 ∉ line) (tail : List (BitVec 8)) :
    ∃ junk, junk.length + (squeeze blank line).length = line.length ∧
      merge (line ++ 0 :: tail) = some (squeeze blank line ++ 0 :: (junk ++ tail)) := by
  obtain ⟨junk, hjunk, hmerge⟩ := @mergeLoop_squeeze line hnul [] [] tail
  exact ⟨junk, hjunk.trans (Nat.zero_add _), hmerge⟩

theorem nul_not_mem_squeeze {line : List (BitVec 8)} (hnul : 0 ∉ line) : 0 ∉ squeeze blank line :=
  fun hmem => hnul ((List.destutter_sublist _ line).subset hmem)

theorem wordsBy_squeeze (line : List (BitVec 8)) :
    wordsBy [blank] (squeeze blank line) = wordsBy [blank] line := by
  have hblank : (fun c => decide (c ∈ [blank])) = fun c => decide (c = blank) := by
    funext c
    simp only [List.mem_singleton]
  rw [wordsBy, wordsBy, hblank]
  exact words_squeeze blank line

/-- `merge` squeezes every run of blanks to one, within the line and its NUL; a second time it
changes nothing, and `splitCommand` finds the same words as before. -/
theorem merge_squeezes {line : List (BitVec 8)} (hnul : 0 ∉ line) (tail : List (BitVec 8)) :
    ∃ junk, junk.length + (squeeze blank line).length = line.length ∧
      merge (line ++ 0 :: tail) = some (squeeze blank line ++ 0 :: (junk ++ tail)) ∧
      merge (squeeze blank line ++ 0 :: (junk ++ tail)) =
        some (squeeze blank line ++ 0 :: (junk ++ tail)) ∧
      ∀ {n : ℕ} (saved : Option ℕ) (result : Vector (Option ℕ) n),
        (splitCommand (some 0) [blank] ⟨squeeze blank line ++ 0 :: (junk ++ tail), saved⟩
            result).map resultWords =
          (splitCommand (some 0) [blank] ⟨line ++ 0 :: tail, saved⟩ result).map resultWords := by
  obtain ⟨junk, hjunk, hmerge⟩ := merge_line hnul tail
  have hnul' := nul_not_mem_squeeze hnul
  refine ⟨junk, hjunk, hmerge, ?_, fun saved result => ?_⟩
  · obtain ⟨junk', hjunk', hagain⟩ := merge_line hnul' (junk ++ tail)
    rw [squeeze_idem] at hjunk' hagain
    obtain rfl : junk' = [] := List.eq_nil_of_length_eq_zero (by omega)
    exact hagain
  · have hsplit := @splitCommand_resultWords _ [blank] (some 0) [] (squeeze blank line) saved
      (by decide) hnul' rfl (junk ++ tail) result
    have hsplit' := @splitCommand_resultWords _ [blank] (some 0) [] line saved (by decide) hnul rfl
      tail result
    rw [List.nil_append] at hsplit hsplit'
    rw [hsplit, hsplit', wordsBy_squeeze]

/-- Blanks in front, between words and at the end. -/
theorem merge_squeezes_blanks : squeeze blank (text "  ls   -l ") = text " ls -l " ∧
    ∃ junk, merge (text "  ls   -l " ++ 0 :: []) = some (text " ls -l " ++ 0 :: (junk ++ [])) := by
  obtain ⟨junk, -, hmerge, -⟩ := @merge_squeezes (text "  ls   -l ") (by decide) []
  have hsqueeze : squeeze blank (text "  ls   -l ") = text " ls -l " := by decide
  rw [hsqueeze] at hmerge
  exact ⟨hsqueeze, junk, hmerge⟩

end OsLabs.Shell
